import ProbableCause.Database.AddRun

/-!
# `Database.Atomic` — what an exception of `add` leaves behind

`add` stores the new chip before it matches, and each merge removes two chips before it stores their
union. None of this is undone when a later step raises, so a raising call always leaves a changed
database: the new chip beside the old ones after the `TypeError` of the shift, at least two chips
fewer after the `AttributeError` of a merge. Hence `add` is atomic on a list of pages exactly when
it cannot raise on it (`add_atomic_iff`).
-/

namespace ProbableCause

open Text Exits Overlay

variable {K : Constants} {db : Database}

/-- **Atomicity of `add`** on a list of pages: whenever it raises, the database is the one before the
    call. -/
def Atomic (K : Constants) (db : Database) (pages : List (ApproxPage K)) : Prop :=
  ∀ (os : ℕ → Listing) (draws : List Draw) (e : PyErr) (w' : World),
    (add K os pages).run ⟨db, draws⟩ = .error (.raised e) w' → w'.db = db

/-! ## A full database -/

/-- The names of the `1000` chips there can be. -/
theorem RepInv.keys_subset (h : RepInv K db) :
    db.keys ⊆ (Finset.range 1000).image fun n => digits (n + 1) := by
  intro c hc
  obtain ⟨d, hd⟩ := Finmap.mem_iff.mp (Finmap.mem_keys.mp hc)
  obtain ⟨⟨n, h1, h2, rfl⟩, -⟩ := h c d hd
  refine Finset.mem_image.mpr ⟨n - 1, Finset.mem_range.mpr (by omega), ?_⟩
  rw [Nat.sub_add_cancel h1]

/-- With `1000` chips every number is in use. -/
theorem RepInv.full (h : RepInv K db) (hcount : 1000 ≤ chipCount db) (r : Draw) :
    digits r.1 ∈ db := by
  have hcard : ((Finset.range 1000).image fun n => digits (n + 1)).card ≤ db.keys.card :=
    Finset.card_image_le.trans (by rwa [Finset.card_range])
  have hkeys := Finset.eq_of_subset_of_card_le h.keys_subset hcard
  rw [← Finmap.mem_keys, hkeys]
  refine Finset.mem_image.mpr ⟨r.1 - 1, Finset.mem_range.mpr ?_, ?_⟩
  · have h1 := r.2.1
    have h2 := r.2.2
    omega
  · rw [Nat.sub_add_cancel r.2.1]

/-- Then the loop of `getChipNumber` does not end. -/
theorem RepInv.firstFree_full (h : RepInv K db) (hcount : 1000 ≤ chipCount db) (draws : List Draw) :
    firstFree db draws = none := by
  induction draws with
  | nil => rfl
  | cons r rs ih =>
    have hused : pyStr (.int (r.1 : ℤ)) ∈ db := h.full hcount r
    rw [firstFree, if_pos hused]
    exact ih

/-- A call on a full database does nothing but draw. -/
theorem RepInv.run_add_full (h : RepInv K db) (hcount : 1000 ≤ chipCount db) (os : ℕ → Listing)
    (pages : List (ApproxPage K)) (draws : List Draw) :
    (add K os pages).run ⟨db, draws⟩ = .error .drawing ⟨db, []⟩ := by
  rw [add, run_bind_error (run_chipAdd_drawing (h.firstFree_full hcount draws) _)]

/-! ## A call that can raise -/

/-- **A greedy match with a clash or with a merge that does not fit** makes some run raise, and that
    run changes the database. -/
theorem not_atomic_of_link (hwf : WellFormed K db) {pages : List (ApproxPage K)} {links : List Link}
    (hcount : chipCount db < 1000)
    (hgreedy : Greedy K db [] 0 (pages.map ApproxPage.errorString) links)
    (hbad : ¬ (¬ Clash links ∧ Fits (pagesOf db) pages.length links)) : ¬ Atomic K db pages := by
  intro hatomic
  obtain ⟨draws, hrounds⟩ := exists_rounds (links.length + 1)
  obtain ⟨os, hend⟩ := exists_run_add hwf pages draws hgreedy
  cases hrun : (add K os pages).run ⟨db, draws⟩ with
  | ok u w' =>
    rw [hrun] at hend
    obtain ⟨hclash, hfits, -⟩ := hend
    rw [List.length_map] at hfits
    exact hbad ⟨hclash, hfits⟩
  | error e w' =>
    rw [hrun] at hend
    cases e with
    | raised e => exact hend.2 (hatomic os draws e w' hrun)
    | drawing => exact hend hcount hrounds
    | outOfFuel => exact hend

/-- **`add` is atomic exactly when it cannot raise**: the database is full (then no number is ever
    drawn), or no match of the new pages with the stored chips clashes or fails to fit. -/
theorem add_atomic_iff (h : AddReachable K db) (pages : List (ApproxPage K)) :
    Atomic K db pages ↔
      1000 ≤ chipCount db ∨
        ∀ links, Greedy K db [] 0 (pages.map ApproxPage.errorString) links →
          ¬ Clash links ∧ Fits (pagesOf db) pages.length links := by
  have hinv : RepInv K db := h.repInv
  constructor
  · intro hatomic
    by_cases hcount : 1000 ≤ chipCount db
    · exact Or.inl hcount
    · apply Or.inr
      intro links hgreedy
      by_contra hbad
      exact not_atomic_of_link hinv.wellFormed (Nat.lt_of_not_le hcount) hgreedy hbad hatomic
  · rintro (hcount | hgood) os draws e w' hrun
    · -- the full database only draws
      rw [hinv.run_add_full hcount] at hrun
      cases hrun
    · obtain ⟨links, hgreedy, hend⟩ := run_add hinv.wellFormed os pages draws
      obtain ⟨hclash, hfits⟩ := hgood links hgreedy
      rw [hrun] at hend
      obtain ⟨hbad, -⟩ := hend
      rw [List.length_map] at hbad
      rcases hbad with hbad | hbad
      · exact absurd hbad hclash
      · exact absurd hfits hbad

/-! ## Data loss -/

/-- A page string read by `processData`. -/
def newPage (s : Str) (h : Valid Constants.repository s) : ApproxPage Constants.repository :=
  ⟨s, .int (-1), .int (-1), h⟩

/-- Chip `1` with the pages `A D B` and chip `2` with the page `C`, added in this order. -/
def twoChips : Database :=
  let pages1 := [newPage "00000".toList (by decide), newPage "00001".toList (by decide),
    newPage "00010".toList (by decide)]
  let db := (exitState ((add Constants.repository (fun _ => .alphabetical) pages1).run
    ⟨∅, [⟨1, by decide⟩]⟩)).db
  (exitState ((add Constants.repository (fun _ => .alphabetical)
    [newPage "00011".toList (by decide)]).run ⟨db, [⟨2, by decide⟩]⟩)).db

/-- The new pages `F E B C`: `B` is page `2` of the list and of chip `1`, so the merge drops the
    front of both, and page `3` of the list is past the end of what is left. -/
def lossPages : List (ApproxPage Constants.repository) :=
  ["00100".toList, "00101".toList, "00010".toList, "00011".toList].pmap newPage (by decide)

/-- At two chips and these four pages. -/
theorem add_atomic_iff_loss :
    Atomic Constants.repository twoChips lossPages ↔
      1000 ≤ chipCount twoChips ∨
        ∀ links, Greedy Constants.repository twoChips [] 0
          (lossPages.map ApproxPage.errorString) links →
            ¬ Clash links ∧ Fits (pagesOf twoChips) lossPages.length links :=
  add_atomic_iff (.add (.add .empty _ _ _) _ _ _) _

/-- The call with these pages and some draws. -/
def lossRun : EStateM.Result Stop World Unit :=
  (add Constants.repository (fun _ => .alphabetical) lossPages).run
    ⟨twoChips, [⟨3, by decide⟩, ⟨4, by decide⟩, ⟨5, by decide⟩]⟩

/-- **Two stored chips are lost**: adding `F E B C` raises in the second merge, and of the three
    chips only one with the pages `B C` is left. -/
theorem add_loses_chips :
    AddReachable Constants.repository twoChips ∧
      ¬ Atomic Constants.repository twoChips lossPages := by
  refine ⟨.add (.add .empty _ _ _) _ _ _, ?_⟩
  intro hatomic
  have hstop : error? lossRun = some (.raised .attributeError) := by decide +kernel
  have hdb : (exitState lossRun).db = twoChips := hatomic _ _ _ _ (eq_error_of_error? hstop)
  have hbefore : chipCount twoChips = 2 := by decide +kernel
  have hafter : chipCount (exitState lossRun).db = 1 := by decide +kernel
  rw [hdb] at hafter
  omega

end ProbableCause
