import ProbableCause.Database.Invariant
import ProbableCause.Database.AddRun

/-!
# `Database.Disjoint` — with `NOISE_DISTANCE = 1` no page is in two chips

`match` reports one hit per page and passes over chips hit before, so a chip could be missed when
each of its pages in the new list is taken for a hit of another chip. Over a database whose chips
share no page that cannot happen: a page has one chip to hit (`PagesDisjoint.mem_links_iff`). A call
that returns then merges *all* chips that share a page with the new list, and the result shares no
page again (`normalRun_pagesDisjoint`).
-/

namespace ProbableCause

open Text Exits Overlay

variable {K : Constants} {db : Database} {strs : List Str} {links : List Link}

/-! ## The invariant -/

/-- No page string occurs in two different chips. -/
def PagesDisjoint (db : Database) : Prop :=
  ∀ c c' l l' t, Stored db c l t → Stored db c' l' t → c = c'

/-- **The new list is merged with exactly the chips that share a page with it**: they are gone, and
    one chip holds the pages assembled from the list and from them; the other chips are as before. -/
def MergesSharing (db : Database) (strs : List Str) (db' : Database) : Prop :=
  ∃ (n : ℕ) (links : List Link), (∀ c, c ∈ links.map Link.chip ↔ Shares db strs c) ∧
    digits n ∉ eraseAll db (links.map Link.chip) ∧
    db' = withChip (eraseAll db (links.map Link.chip)) (digits n) (assemble (pagesOf db) strs links)

/-- The databases reached from the empty directory by calls of `add` that returned normally. -/
inductive NormalRun (K : Constants) : Database → Prop where
  | empty : NormalRun K ∅
  | add {db : Database} (h : NormalRun K db) {os : ℕ → Listing} {pages : List (ApproxPage K)}
      {draws : List Draw} {w' : World} (hrun : (add K os pages).run ⟨db, draws⟩ = .ok () w') :
      NormalRun K w'.db

theorem NormalRun.addReachable (h : NormalRun K db) : AddReachable K db := by
  induction h with
  | empty => exact .empty
  | @add db _ os pages draws w' hrun ih =>
    have hstep := AddReachable.add ih os pages draws
    rwa [hrun] at hstep

theorem PagesDisjoint.empty : PagesDisjoint ∅ := by
  rintro c c' l l' t ⟨ps, hps, -⟩ -
  rw [Holds, Finmap.lookup_empty] at hps
  cases hps

/-! ## One call -/

theorem Stored.valid (hwf : WellFormed K db) {c t : Str} {l : ℕ} (h : Stored db c l t) :
    Valid K t := by
  obtain ⟨ps, hps, hl⟩ := h
  exact hwf.valid hps (List.mem_of_getElem? hl)

/-- At noise distance `1` a link joins equal pages. -/
theorem Greedy.sound_eq (hK : K.NOISE_DISTANCE = 1) (hwf : WellFormed K db)
    (hval : ∀ s ∈ strs, Valid K s) (h : Greedy K db [] 0 strs links) {link : Link}
    (hlink : link ∈ links) :
    ∃ t, Stored db link.chip link.loc t ∧ strs[link.offset]? = some t := by
  obtain ⟨t, s, hst, hs, hnear⟩ := h.sound link hlink
  have heq : t = s := (near_iff_eq hK (hst.valid hwf) (hval s (List.mem_of_getElem? hs))).mp hnear
  subst heq
  exact ⟨t, hst, hs⟩

/-- **The chips linked are the chips with a common page.** Without shared pages the chip that takes
    a page is the only one that has it. -/
theorem PagesDisjoint.mem_links_iff (hdis : PagesDisjoint db) (hK : K.NOISE_DISTANCE = 1)
    (hwf : WellFormed K db) (hval : ∀ s ∈ strs, Valid K s) (h : Greedy K db [] 0 strs links)
    (c : Str) : c ∈ links.map Link.chip ↔ Shares db strs c := by
  constructor
  · intro hc
    obtain ⟨link, hlink, rfl⟩ := List.mem_map.mp hc
    obtain ⟨t, hst, ht⟩ := h.sound_eq hK hwf hval hlink
    exact ⟨t, List.mem_of_getElem? ht, link.loc, hst⟩
  · rintro ⟨t, ht, l, hst⟩
    obtain ⟨i, hi⟩ := List.mem_iff_getElem?.mp ht
    rcases h.complete (by simp) hst hi (near_self K t) with ⟨link, hlink, hchip, -⟩ |
      ⟨link, hlink, hoff⟩
    · exact List.mem_map.mpr ⟨link, hlink, hchip⟩
    · -- the page is taken by a chip that has it
      obtain ⟨t', hst', ht'⟩ := h.sound_eq hK hwf hval hlink
      rw [hoff, Nat.zero_add, hi] at ht'
      obtain rfl : t = t' := Option.some.inj ht'
      exact List.mem_map.mpr ⟨link, hlink, hdis _ _ _ _ t hst' hst⟩

/-- The merges invent no page. -/
theorem mem_of_mem_assemble {P : Str → List Str} {t : Str} {q : List Str}
    (h : t ∈ assemble P q links) : t ∈ q ∨ ∃ link ∈ links, t ∈ P link.chip := by
  induction links generalizing q with
  | nil => exact Or.inl h
  | cons link links ih =>
    rw [assemble_cons] at h
    rcases ih h with hq | ⟨l, hl, ht⟩
    · rcases mem_of_mem_stitch hq with hq | hp
      · exact Or.inl hq
      · exact Or.inr ⟨link, List.mem_cons_self, hp⟩
    · exact Or.inr ⟨l, List.mem_cons_of_mem _ hl, ht⟩

/-- **A call that returns merges the chips with a common page.** -/
theorem PagesDisjoint.mergesSharing (hdis : PagesDisjoint db) (hK : K.NOISE_DISTANCE = 1)
    (hwf : WellFormed K db) {os : ℕ → Listing} {pages : List (ApproxPage K)} {draws : List Draw}
    {w' : World} (hrun : (add K os pages).run ⟨db, draws⟩ = .ok () w') :
    MergesSharing db (pages.map ApproxPage.errorString) w'.db := by
  obtain ⟨links, hgreedy, hend⟩ := run_add hwf os pages draws
  rw [hrun] at hend
  obtain ⟨-, -, n, hfree, hdb⟩ := hend
  exact ⟨n, links, hdis.mem_links_iff hK hwf (valid_errorStrings pages) hgreedy, hfree, hdb⟩

/-- **The step.** Merging the chips with a common page keeps the chips without shared pages. -/
theorem PagesDisjoint.step (hdis : PagesDisjoint db) {db' : Database}
    (h : MergesSharing db strs db') : PagesDisjoint db' := by
  obtain ⟨n, links, hlinks, hfree, rfl⟩ := h
  -- a chip of the result is the new one, or an old one without a common page
  have hcases : ∀ c l t, Stored (withChip (eraseAll db (links.map Link.chip)) (digits n)
      (assemble (pagesOf db) strs links)) c l t →
      (c = digits n ∧ (t ∈ strs ∨ ∃ c₁ l₁, Shares db strs c₁ ∧ Stored db c₁ l₁ t)) ∨
      (¬ Shares db strs c ∧ Stored db c l t) := by
    rintro c l t ⟨ps, hps, hl⟩
    by_cases hassemble : assemble (pagesOf db) strs links = []
    · -- no pages: no chip is stored
      rw [hassemble, withChip_nil, Holds, lookup_eraseAll] at hps
      split at hps
      · cases hps
      · next hc => exact Or.inr ⟨fun hshares => hc ((hlinks c).mpr hshares), ps, hps, hl⟩
    by_cases hc : c = digits n
    · -- the new chip: its pages are new ones or come from a chip linked
      refine Or.inl ⟨hc, ?_⟩
      rw [hc] at hps
      have hpages := hps.unique (holds_withChip hassemble)
      have hmem : t ∈ assemble (pagesOf db) strs links := hpages ▸ List.mem_of_getElem? hl
      rcases mem_of_mem_assemble hmem with hq | ⟨link, hlink, ht⟩
      · exact Or.inl hq
      · have hshares := (hlinks link.chip).mp (List.mem_map_of_mem hlink)
        obtain ⟨u, -, m, hst⟩ := hshares
        obtain ⟨i, hi⟩ := List.mem_iff_getElem?.mp ht
        exact Or.inr ⟨link.chip, i, (hlinks _).mp (List.mem_map_of_mem hlink), _,
          hst.holds_pagesOf.1, hi⟩
    · rw [withChip_of_ne_nil hassemble, Holds, Finmap.lookup_insert_of_ne _ hc,
        lookup_eraseAll] at hps
      split at hps
      · cases hps
      · next hc => exact Or.inr ⟨fun hshares => hc ((hlinks c).mpr hshares), ps, hps, hl⟩
  -- an old chip without a common page shares nothing with the new one
  have hnew : ∀ c l t, ¬ Shares db strs c → Stored db c l t →
      ¬ (t ∈ strs ∨ ∃ c₁ l₁, Shares db strs c₁ ∧ Stored db c₁ l₁ t) := by
    rintro c l t hshares hst (ht | ⟨c₁, l₁, hc₁, hst₁⟩)
    · exact hshares ⟨t, ht, l, hst⟩
    · exact hshares (hdis c₁ c l₁ l t hst₁ hst ▸ hc₁)
  intro c c' l l' t hst hst'
  rcases hcases c l t hst with ⟨hc, ht⟩ | ⟨hc, ht⟩
  · rcases hcases c' l' t hst' with ⟨hc', -⟩ | ⟨hc', ht'⟩
    · exact hc.trans hc'.symm
    · exact absurd ht (hnew c' l' t hc' ht')
  · rcases hcases c' l' t hst' with ⟨-, ht'⟩ | ⟨-, ht'⟩
    · exact absurd ht' (hnew c l t hc ht)
    · exact hdis c c' l l' t ht ht'

/-! ## Whole runs -/

theorem NormalRun.pagesDisjoint (hK : K.NOISE_DISTANCE = 1) (h : NormalRun K db) :
    PagesDisjoint db := by
  induction h with
  | empty => exact PagesDisjoint.empty
  | add h hrun ih => exact ih.step (ih.mergesSharing hK h.addReachable.repInv.wellFormed hrun)

/-- **Chips never share a page**, over every run of calls that return; and every such call merges
    exactly the stored chips that have a page in common with the new list. -/
theorem normalRun_pagesDisjoint (hK : K.NOISE_DISTANCE = 1) (h : NormalRun K db) :
    PagesDisjoint db ∧
      ∀ (os : ℕ → Listing) (pages : List (ApproxPage K)) (draws : List Draw) (w' : World),
        (add K os pages).run ⟨db, draws⟩ = .ok () w' →
          MergesSharing db (pages.map ApproxPage.errorString) w'.db := by
  have hdis : PagesDisjoint db := h.pagesDisjoint hK
  exact ⟨hdis, fun os pages draws w' hrun =>
    hdis.mergesSharing hK h.addReachable.repInv.wellFormed hrun⟩

/-- At the database after two calls, the second of which merges the chip of the first. -/
theorem normalRun_pagesDisjoint_two_adds :
    let page : ApproxPage Constants.repository := ⟨"01101".toList, .int (-1), .int (-1), by decide⟩
    let os : ℕ → Listing := fun _ => .alphabetical
    let db := (exitState ((add Constants.repository os [page]).run ⟨∅, [⟨7, by decide⟩]⟩)).db
    let db' := (exitState ((add Constants.repository os [page]).run
      ⟨db, [⟨8, by decide⟩, ⟨9, by decide⟩]⟩)).db
    PagesDisjoint db' ∧
      ∀ (os : ℕ → Listing) (pages : List (ApproxPage Constants.repository)) (draws : List Draw)
        (w' : World), (add Constants.repository os pages).run ⟨db', draws⟩ = .ok () w' →
          MergesSharing db' (pages.map ApproxPage.errorString) w'.db :=
  normalRun_pagesDisjoint rfl (.add (.add .empty (eq_ok_of_error? (by decide +kernel)))
    (eq_ok_of_error? (by decide +kernel)))

end ProbableCause
