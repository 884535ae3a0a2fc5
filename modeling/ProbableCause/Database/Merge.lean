import ProbableCause.Database.Layout

/-!
# `Database.Merge` — one call of `chipMerge`

`chipMerge` reads the two chips page by page and stores the merged list as a new chip. In terms of
the page lists `p`, `q` of the two chips it stores `stitch? p l1 q l2` (`Lib.Overlay`):
`mergedPages_eq` for the list it builds, `run_chipMerge` for the whole call — both chips removed,
then the merged pages stored under a free number, or the first part of them if a read had failed.
-/

namespace ProbableCause

open Text Exits Overlay

variable {K : Constants} {db : Database} {chip1 chip2 : PyVal} {p q : List Str}

/-! ## The list of pages -/

/-- Appending the pages `0, …, k-1` of a chip to a list. -/
theorem foldlM_pageRead (h : Holds db (pyStr chip1) p) (hval : ∀ s ∈ p, Valid K s) (k : ℕ) :
    ∃ l, (List.range k).foldlM (fun pages (i : ℕ) => do
        let page ← pageRead K db chip1 (.int i)
        Except.ok (pages ++ [page])) [] = .ok l ∧ strings l = readUpTo p k := by
  induction k with
  | zero => exact ⟨[], rfl, rfl⟩
  | succ k ih =>
    obtain ⟨l, hl, hmap⟩ := ih
    obtain ⟨r, hr, hstr, -⟩ := pageRead_chipDir _ (.int k) rfl h hval
    refine ⟨l ++ [r], ?_, ?_⟩
    · rw [List.range_succ, List.foldlM_append, hl]
      simp only [List.foldlM_cons, List.foldlM_nil, bind, Except.bind, hr]
      rfl
    · rw [readUpTo_succ, ← hstr, ← hmap]
      simp [strings]

/-- **The first loop** reads the front of the merged list. -/
theorem prefixPages_eq (h1 : Holds db (pyStr chip1) p) (h2 : Holds db (pyStr chip2) q)
    (hp : ∀ s ∈ p, Valid K s) (hq : ∀ s ∈ q, Valid K s) (l1 l2 : ℕ) :
    ∃ l, prefixPages K db chip1 l1 chip2 l2 = .ok l ∧ strings l = lead? p l1 q l2 := by
  unfold prefixPages lead?
  by_cases h12 : l1 < l2
  · obtain ⟨l, hl, hstr⟩ := foldlM_pageRead h2 hq l2
    have hmax : (max (l1 : ℤ) l2).toNat = l2 := by omega
    simp only [Int.ofNat_lt, if_pos h12, hmax]
    exact ⟨l, hl, hstr⟩
  · by_cases h21 : l2 < l1
    · obtain ⟨l, hl, hstr⟩ := foldlM_pageRead h1 hp l1
      have hmax : (max (l1 : ℤ) l2).toNat = l1 := by omega
      simp only [Int.ofNat_lt, if_neg h12, if_pos h21, hmax]
      exact ⟨l, hl, hstr⟩
    · -- equal positions: both fronts are dropped
      simp only [Int.ofNat_lt, if_neg h12, if_neg h21]
      refine ⟨[], ?_, rfl⟩
      induction (max (l1 : ℤ) l2).toNat with
      | zero => rfl
      | succ n ih => rw [List.range_succ, List.foldlM_append, ih]; rfl

/-- `pageMerge` on the pages read at two positions: the string of the first, or else of the second. -/
theorem pageMerge_eq (page1 page2 : Option (ApproxPage K)) :
    ∃ r, pageMerge K page1 page2 = .ok r ∧
      r.map ApproxPage.errorString =
        (page1.map ApproxPage.errorString).or (page2.map ApproxPage.errorString) := by
  cases page1 with
  | some a => exact ⟨some ⟨a.errorString, .int (-1), .int (-1), a.valid⟩, by
      simp only [pageMerge, approxPage', approxPage_of_valid a.valid]; rfl, rfl⟩
  | none =>
    cases page2 with
    | some b => exact ⟨some ⟨b.errorString, .int (-1), .int (-1), b.valid⟩, by
        simp only [pageMerge, approxPage', approxPage_of_valid b.valid]; rfl, rfl⟩
    | none => exact ⟨none, rfl, rfl⟩

/-- **The second loop** reads the overlay of the two rests and never runs out of rounds: one round
    passes one position of both chips, and ends the loop when both have ended. -/
theorem mergeTail_eq (h1 : Holds db (pyStr chip1) p) (h2 : Holds db (pyStr chip2) q)
    (hp : ∀ s ∈ p, Valid K s) (hq : ∀ s ∈ q, Valid K s) (fuel l1 l2 : ℕ)
    (hfuel : max (p.length - l1) (q.length - l2) < fuel) :
    ∃ l, mergeTail K db chip1 chip2 fuel l1 l2 = .ok l ∧
      strings l = (overlay (p.drop l1) (q.drop l2)).map some := by
  induction fuel generalizing l1 l2 with
  | zero => omega
  | succ fuel ih =>
    obtain ⟨page1, hr1, hs1, -⟩ := pageRead_chipDir _ (.int l1) rfl h1 hp
    obtain ⟨page2, hr2, hs2, -⟩ := pageRead_chipDir _ (.int l2) rfl h2 hq
    obtain ⟨page, hpage, hpstr⟩ := pageMerge_eq page1 page2
    have hnext : (l1 < p.length ∨ l2 < q.length) →
        ∃ l, mergeTail K db chip1 chip2 fuel ((l1 : ℤ) + 1) ((l2 : ℤ) + 1) = .ok l ∧
          strings l = (overlay (p.drop (l1 + 1)) (q.drop (l2 + 1))).map some := fun hlt => by
      have hrec := ih (l1 + 1) (l2 + 1) (by omega)
      push_cast at hrec
      exact hrec
    simp only [mergeTail, hr1, hr2, bind, Except.bind, hpage]
    -- the round takes the page of the first chip, or else that of the second, or it is the last round
    cases page1 with
    | some a =>
      have hlt : l1 < p.length := (List.getElem?_eq_some_iff.mp hs1.symm).1
      obtain ⟨l, hl, hmap⟩ := hnext (Or.inl hlt)
      refine ⟨page :: l, by simp [hl], ?_⟩
      rw [overlay_drop_of_some hs1.symm, List.map_cons, ← hmap]
      simp [strings, hpstr]
    | none =>
      cases page2 with
      | some b =>
        have hlt : l2 < q.length := (List.getElem?_eq_some_iff.mp hs2.symm).1
        obtain ⟨l, hl, hmap⟩ := hnext (Or.inr hlt)
        refine ⟨page :: l, by simp [hl], ?_⟩
        rw [overlay_drop_of_none hs1.symm hs2.symm, List.map_cons, ← hmap]
        simp [strings, hpstr]
      | none =>
        refine ⟨[], by simp, ?_⟩
        rw [overlay_drop_of_none_none hs1.symm hs2.symm]
        rfl

theorem fileCount_eq (h : Holds db (pyStr chip1) p) : fileCount db chip1 = p.length := by
  rw [fileCount, h, Option.getD_some, card_keys_chipDir]

/-- **The list `chipMerge` builds** is the stitched list of the two chips, as far as it can be read.
-/
theorem mergedPages_eq (h1 : Holds db (pyStr chip1) p) (h2 : Holds db (pyStr chip2) q)
    (hp : ∀ s ∈ p, Valid K s) (hq : ∀ s ∈ q, Valid K s) (l1 l2 : ℕ) :
    ∃ l, mergedPages K db chip1 l1 chip2 l2 = .ok l ∧ strings l = stitch? p l1 q l2 := by
  obtain ⟨pre, hpre, hpre'⟩ := prefixPages_eq h1 h2 hp hq l1 l2
  obtain ⟨tail, htail, htail'⟩ := mergeTail_eq h1 h2 hp hq
    (fileCount db chip1 + fileCount db chip2 + 1) l1 l2 (by
      rw [fileCount_eq h1, fileCount_eq h2]; omega)
  refine ⟨pre ++ tail, ?_, ?_⟩
  · simp only [mergedPages, hpre, htail, bind, Except.bind]
  · rw [stitch?, ← hpre', ← htail']
    simp [strings]

/-! ## The whole call -/

theorem run_chipRemove {w : World} {chip : PyVal} (h : pyStr chip ∈ w.db) :
    (chipRemove chip).run w = .ok () { w with db := w.db.erase (pyStr chip) } := by
  rw [chipRemove, EStateM.run_bind, EStateM.run_get]
  simp only [if_pos h, EStateM.run_set]

/-- **One call of `chipMerge`** on two different stored chips: both are removed, and the stitched
    pages are stored under the first free number drawn. If a read had failed (`stitch?` has a
    `none`), only the pages before it are stored and an `AttributeError` is raised. -/
theorem run_chipMerge {w : World} {loc1 loc2 : PyVal} {l1 l2 : ℕ}
    (h1 : Holds w.db (pyStr chip1) p) (h2 : Holds w.db (pyStr chip2) q)
    (hne : pyStr chip1 ≠ pyStr chip2) (hp : ∀ s ∈ p, Valid K s) (hq : ∀ s ∈ q, Valid K s)
    (hloc1 : pyInt loc1 = .ok (l1 : ℤ)) (hloc2 : pyInt loc2 = .ok (l2 : ℤ)) :
    (chipMerge K chip1 loc1 chip2 loc2).run w =
      storeResult ((w.db.erase (pyStr chip1)).erase (pyStr chip2)) w.draws (stitch? p l1 q l2) := by
  obtain ⟨l, hl, hstr⟩ := mergedPages_eq h1 h2 hp hq l1 l2
  have hmem2 : pyStr chip2 ∈ w.db.erase (pyStr chip1) :=
    Finmap.mem_erase.mpr ⟨hne.symm, h2.mem⟩
  simp only [chipMerge, hloc1, hloc2, EStateM.run_bind, run_ofExcept_ok, EStateM.run_get, hl,
    run_chipRemove h1.mem]
  rw [run_chipRemove (w := { w with db := w.db.erase (pyStr chip1) }) hmem2]
  dsimp only
  rw [run_chipAdd, hstr]

end ProbableCause
