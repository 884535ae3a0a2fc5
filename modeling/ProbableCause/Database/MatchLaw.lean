import ProbableCause.Database.Matching
import ProbableCause.Database.Invariant

/-!
# `Database.MatchLaw` — what `match` promises to its callers

`MatchLaw` says it without the recursion of `match`, entry by entry and page by page: each entry is
a hit, no chip is hit twice, and a page without an entry is near no page of any chip that was still
to be had. `Greedy` (that is, `match` under every listing order) implies it.
-/

namespace ProbableCause

open Text

variable {K : Constants} {db : Database} {pages : List Str} {newChip : Str} {links : List Link}

/-- **The law of `match`**, for the strings of the given pages and the name of the chip to leave
out. -/
structure MatchLaw (K : Constants) (db : Database) (pages : List Str) (newChip : Str)
    (links : List Link) :
    Prop where
  /-- the offsets increase -/
  offsets : links.Pairwise fun a b => a.offset < b.offset
  /-- no chip has two entries -/
  chips : (links.map Link.chip).Nodup
  /-- the chip to leave out has none -/
  other : ∀ link ∈ links, link.chip ≠ newChip
  /-- an entry is a stored page near the given page at its offset -/
  sound : ∀ link ∈ links, ∃ t s, Stored db link.chip link.loc t ∧
    pages[link.offset]? = some s ∧ Near K t s
  /-- a page without an entry has no near page, except in the chips of the entries before it -/
  complete : ∀ k s, pages[k]? = some s → (∀ link ∈ links, link.offset ≠ k) →
    ∀ c, c ≠ newChip → (∀ link ∈ links, link.offset < k → link.chip ≠ c) →
      ∀ l t, Stored db c l t → ¬ Near K t s

theorem Greedy.matchLaw (h : Greedy K db [newChip] 0 pages links) :
    MatchLaw K db pages newChip links where
  offsets := h.offsets_increasing
  chips := h.chips_nodup.1
  other link hlink := by
    have hseen := h.chips_nodup.2 link hlink
    rwa [List.mem_singleton] at hseen
  sound link hlink := by
    obtain ⟨t, s, hst, hs, hnear⟩ := h.sound link hlink
    exact ⟨t, s, hst, hs, hnear⟩
  complete k s hs hno c hc hbefore l t hst hnear := by
    have hseen : c ∉ [newChip] := by rwa [List.mem_singleton]
    rcases h.complete hseen hst hs hnear with ⟨link, hlink, hchip, hoff⟩ | ⟨link, hlink, hoff⟩
    · -- the chip is hit at `k` or before
      rw [Nat.zero_add] at hoff
      exact hbefore link hlink (Nat.lt_of_le_of_ne hoff (hno link hlink)) hchip
    · rw [Nat.zero_add] at hoff
      exact hno link hlink hoff

/-- **`match` is sound and greedy-complete**: with a stored chip to leave out it returns without an
    exception, under every listing order, and its entries satisfy the law. -/
theorem match_sound_complete (h : RepInv K db) {newChip : PyVal} (hnew : pyStr newChip ∈ db)
    (os : ℕ → Listing) (pages : List (ApproxPage K)) :
    ∃ links, matchPages K os db pages newChip = .ok (links.map Link.toMatch) ∧
      MatchLaw K db (pages.map ApproxPage.errorString) (pyStr newChip) links := by
  have hstored : ∀ x ∈ [newChip], pyStr x ∈ db := fun x hx => List.mem_singleton.mp hx ▸ hnew
  obtain ⟨links, hlinks, hgreedy⟩ := matchFrom_greedy h.wellFormed os pages 0 [newChip]
    (List.nodup_singleton _) hstored
  exact ⟨links, hlinks, hgreedy.matchLaw⟩

/-- Two chips have the page. One of them is left out, the other one is hit. -/
theorem match_sound_complete_two_chips :
    let page : ApproxPage Constants.repository := ⟨"01101".toList, .int (-1), .int (-1), by decide⟩
    let db := withChip (withChip ∅ (digits 8) ["00000".toList, "01101".toList]) (digits 7)
      ["01101".toList]
    (matchPages Constants.repository (fun _ => .alphabetical) db [page] (.int (7 : ℕ))).toOption =
        some ([⟨digits 8, 1, 0⟩].map Link.toMatch) ∧
      ∃ links, matchPages Constants.repository (fun _ => .alphabetical) db [page] (.int (7 : ℕ)) =
          .ok (links.map Link.toMatch) ∧
        MatchLaw Constants.repository db ["01101".toList] (digits 7) links := by
  intro page db
  have height : RepInv Constants.repository
      (withChip ∅ (digits 8) ["00000".toList, "01101".toList]) :=
    (RepInv.empty _).withChip (by decide) (by decide) (by decide)
  refine ⟨by decide +kernel,
    match_sound_complete (height.withChip (by decide) (by decide) (by decide)) ?_ _ [page]⟩
  rw [withChip_of_ne_nil (List.cons_ne_nil _ _)]
  exact Finmap.mem_insert.mpr (.inl rfl)

end ProbableCause
