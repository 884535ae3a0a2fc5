import ProbableCause.Database.AddRun

/-!
# `Database.Lossless` — whether `chipMerge` keeps every page

Two chips that are aligned at `l1` and `l2` have `max l1 l2` positions in front and the longer of
the two rests behind (`MergedPages`). The first loop of `chipMerge` asks which of the two locations
is smaller, and does nothing when they are equal: the common front of both chips is lost. So
`chipMerge` keeps every page if and only if the locations differ or are both `0`
(`chipMerge_lossless_iff`).
-/

namespace ProbableCause

open Text Exits Overlay

variable {K : Constants} {db : Database} {chip1 chip2 loc1 loc2 : PyVal}
    {p q pages : List Str} {l1 l2 : ℕ}

/-- **All pages of two chips**, aligned at `l1` and `l2`. -/
structure MergedPages (p : List Str) (l1 : ℕ) (q : List Str) (l2 : ℕ) (pages : List Str) : Prop where
  length : pages.length = max l1 l2 + max (p.length - l1) (q.length - l2)
  /-- the front is that of the chip with the longer one -/
  front : ∀ j < max l1 l2, l2 ≤ l1 ∧ pages[j]? = p[j]? ∨ l1 ≤ l2 ∧ pages[j]? = q[j]?
  /-- behind it is the page of the first chip, if it has one, else that of the second -/
  rest : ∀ j, max l1 l2 ≤ j → pages[j]? = p[j - (max l1 l2 - l1)]?.or q[j - (max l1 l2 - l2)]?

/-- **The ends of a call of `chipMerge` that loses no page**: the two chips are replaced by one with
    all their pages, and the other chips are as before. -/
def MergeEnd (db : Database) (c1 c2 : Str) (p : List Str) (l1 : ℕ) (q : List Str) (l2 : ℕ)
    (draws : List Draw) :
    EStateM.Result Stop World ℕ → Prop
  | .ok n w' => (∃ pages, Holds w'.db (digits n) pages ∧ MergedPages p l1 q l2 pages) ∧
      (digits n ∈ db → digits n = c1 ∨ digits n = c2) ∧
      ∀ c ≠ digits n, w'.db.lookup c = if c = c1 ∨ c = c2 then none else db.lookup c
  | .error .drawing _ => ¬ Rounds 1 draws
  | .error _ _ => False

/-- The stitched pages are all pages, unless a common front is lost. -/
theorem mergedPages_stitch (hpos : l1 = l2 → l1 = 0) (hl1 : l1 < p.length) (hl2 : l2 < q.length) :
    MergedPages p l1 q l2 (stitch p l1 q l2) where
  length := by
    rw [length_stitch (Nat.le_of_lt hl2) (.inr (Nat.le_of_lt hl1)), stitchLen]
    by_cases heq : l1 = l2
    · have h0 := hpos heq
      rw [if_pos heq]
      omega
    · rw [if_neg heq]
  front j hj := by
    have hne : l1 ≠ l2 := by
      intro heq
      have h0 := hpos heq
      omega
    rw [getElem?_stitch_of_lt hne (Nat.le_of_lt hl2) (.inr (Nat.le_of_lt hl1)) hj]
    by_cases hlt : l1 < l2
    · rw [if_pos hlt]
      exact .inr ⟨Nat.le_of_lt hlt, rfl⟩
    · rw [if_neg hlt]
      exact .inl ⟨Nat.le_of_not_lt hlt, rfl⟩
  rest j hj := getElem?_stitch_of_ge hpos (Nat.le_of_lt hl2) (Nat.le_of_lt hl1) hj

/-- With equal locations the common front is missing. -/
theorem not_mergedPages_stitch (hpos : 0 < l1) (hl1 : l1 < p.length) (hl2 : l1 < q.length) :
    ¬ MergedPages p l1 q l1 (stitch p l1 q l1) := by
  intro h
  have hlen := h.length
  rw [length_stitch (Nat.le_of_lt hl2) (.inr (Nat.le_of_lt hl1)), stitchLen, if_pos rfl] at hlen
  omega

/-- What `chipMerge` leaves behind, when it finds a number for the new chip. -/
theorem run_chipMerge_ok {draws rest : List Draw} {n : ℕ} (h1 : Holds db (pyStr chip1) p)
    (h2 : Holds db (pyStr chip2) q) (hne : pyStr chip1 ≠ pyStr chip2) (hp : ∀ s ∈ p, Valid K s)
    (hq : ∀ s ∈ q, Valid K s) (hloc1 : pyInt loc1 = .ok (l1 : ℤ)) (hloc2 : pyInt loc2 = .ok (l2 : ℤ))
    (hl1 : l1 < p.length) (hl2 : l2 < q.length)
    (hdraw : firstFree ((db.erase (pyStr chip1)).erase (pyStr chip2)) draws = some (n, rest)) :
    (chipMerge K chip1 loc1 chip2 loc2).run ⟨db, draws⟩ =
      .ok n ⟨withChip ((db.erase (pyStr chip1)).erase (pyStr chip2)) (digits n)
        (stitch p l1 q l2), rest⟩ := by
  rw [run_chipMerge h1 h2 hne hp hq hloc1 hloc2, stitch?_eq_map_some (Nat.le_of_lt hl2)
    (.inr (Nat.le_of_lt hl1)), storeResult_of_some hdraw]

/-- The database without the two chips. -/
theorem lookup_erase_erase (db : Database) (c1 c2 c : Str) :
    ((db.erase c1).erase c2).lookup c = if c = c1 ∨ c = c2 then none else db.lookup c := by
  by_cases h2 : c = c2
  · rw [h2, Finmap.lookup_erase, if_pos (.inr rfl)]
  · rw [Finmap.lookup_erase_ne h2]
    by_cases h1 : c = c1
    · rw [h1, Finmap.lookup_erase, if_pos (.inl rfl)]
    · rw [Finmap.lookup_erase_ne h1, if_neg (not_or.mpr ⟨h1, h2⟩)]

/-- The merged chip in its place, the other chips unchanged. -/
theorem mergeEnd_ok {draws rest : List Draw} {n : ℕ} {c1 c2 : Str}
    (hfree : digits n ∉ (db.erase c1).erase c2) (hne : pages ≠ [])
    (hpages : MergedPages p l1 q l2 pages) :
    MergeEnd db c1 c2 p l1 q l2 draws
      (.ok n ⟨withChip ((db.erase c1).erase c2) (digits n) pages, rest⟩) := by
  refine ⟨⟨pages, holds_withChip hne, hpages⟩, fun hmem => ?_, fun c hc => ?_⟩
  · by_contra hother
    obtain ⟨d, hd⟩ := Finmap.mem_iff.mp hmem
    apply hfree
    rw [Finmap.mem_iff, lookup_erase_erase, if_neg hother]
    exact ⟨d, hd⟩
  · show (withChip _ _ _).lookup c = _
    rw [withChip_of_ne_nil hne, Finmap.lookup_insert_of_ne _ hc, lookup_erase_erase]

/-- With equal locations the chip that is left has too few pages. -/
theorem not_mergeEnd_ok {draws rest : List Draw} {n : ℕ} {c1 c2 : Str} (hpos : 0 < l1)
    (hl1 : l1 < p.length) (hl2 : l1 < q.length) (base : Database) :
    ¬ MergeEnd db c1 c2 p l1 q l1 draws
      (.ok n ⟨withChip base (digits n) (stitch p l1 q l1), rest⟩) := by
  rintro ⟨⟨pages, hholds, hpages⟩, -⟩
  have heq : pages = stitch p l1 q l1 := hholds.unique (holds_withChip (stitch_ne_nil hl2))
  rw [heq] at hpages
  exact not_mergedPages_stitch hpos hl1 hl2 hpages

/-- The number of the first chip can be drawn again after its removal. -/
theorem firstFree_erased (db : Database) {c1 : Str} (c2 : Str) {m : Draw} (hm : c1 = digits m.1)
    (front back : List Draw) (hmem : m ∈ front) :
    ∃ n rest, firstFree ((db.erase c1).erase c2) (front ++ back) = some (n, rest) := by
  have hfree : digits m.1 ∉ (db.erase c1).erase c2 := by
    rw [Finmap.mem_erase, hm, not_and]
    exact fun _ => Finmap.notMem_erase_self
  obtain ⟨n, front', hfound⟩ := firstFree_append back hmem hfree
  exact ⟨n, _, hfound⟩

/-- Merging two chips at equal locations behind their starts loses pages. -/
theorem chipMerge_loses (h1 : Holds db (pyStr chip1) p) (h2 : Holds db (pyStr chip2) q)
    (hne : pyStr chip1 ≠ pyStr chip2) (hp : ∀ s ∈ p, Valid K s) (hq : ∀ s ∈ q, Valid K s) (m : Draw)
    (hm : pyStr chip1 = digits m.1) (hloc1 : pyInt loc1 = .ok (l1 : ℤ))
    (hloc2 : pyInt loc2 = .ok (l1 : ℤ)) (hl1 : l1 < p.length) (hl2 : l1 < q.length) (hpos : 0 < l1) :
    ¬ ∀ draws, MergeEnd db (pyStr chip1) (pyStr chip2) p l1 q l1 draws
      ((chipMerge K chip1 loc1 chip2 loc2).run ⟨db, draws⟩) := by
  intro h
  obtain ⟨n, rest, hdraw⟩ := firstFree_erased db (pyStr chip2) hm [m] [] List.mem_cons_self
  have hend := h ([m] ++ [])
  rw [run_chipMerge_ok h1 h2 hne hp hq hloc1 hloc2 hl1 hl2 hdraw] at hend
  exact not_mergeEnd_ok hpos hl1 hl2 _ hend

/-- **When `chipMerge` loses no page**, of two different stored chips, at locations within them:
    exactly if the locations differ or are both `0`. The number of one of the two is one that can be
    drawn. -/
theorem chipMerge_lossless_iff (h1 : Holds db (pyStr chip1) p) (h2 : Holds db (pyStr chip2) q)
    (hne : pyStr chip1 ≠ pyStr chip2) (hp : ∀ s ∈ p, Valid K s) (hq : ∀ s ∈ q, Valid K s) (m : Draw)
    (hm : pyStr chip1 = digits m.1) (hloc1 : pyInt loc1 = .ok (l1 : ℤ))
    (hloc2 : pyInt loc2 = .ok (l2 : ℤ)) (hl1 : l1 < p.length) (hl2 : l2 < q.length) :
    (∀ draws, MergeEnd db (pyStr chip1) (pyStr chip2) p l1 q l2 draws
      ((chipMerge K chip1 loc1 chip2 loc2).run ⟨db, draws⟩)) ↔ (l1 = l2 → l1 = 0) := by
  constructor
  · intro h heq
    subst heq
    by_contra hpos
    exact chipMerge_loses h1 h2 hne hp hq m hm hloc1 hloc2 hl1 hl2 (Nat.pos_of_ne_zero hpos) h
  · intro hpos draws
    cases hdraw : firstFree ((db.erase (pyStr chip1)).erase (pyStr chip2)) draws with
    | some pair =>
      obtain ⟨n, rest⟩ := pair
      rw [run_chipMerge_ok h1 h2 hne hp hq hloc1 hloc2 hl1 hl2 hdraw]
      exact mergeEnd_ok (firstFree_spec hdraw).2.2 (stitch_ne_nil hl2)
        (mergedPages_stitch hpos hl1 hl2)
    | none =>
      -- the draws did not contain a whole round
      rw [run_chipMerge h1 h2 hne hp hq hloc1 hloc2, storeResult_of_none hdraw]
      rintro ⟨front, back, rfl, hall, -⟩
      obtain ⟨n, rest, hfound⟩ := firstFree_erased db (pyStr chip2) hm front back (hall m)
      rw [hdraw] at hfound
      contradiction

/-- Two chips that share their second page: `1` and `2`, with two pages each. -/
def sharedSecond : Database :=
  withChip (withChip ∅ (digits 1) ["00000".toList, "11111".toList]) (digits 2)
  ["01010".toList, "11111".toList]

theorem holds_sharedSecond : Holds sharedSecond (digits 1) ["00000".toList, "11111".toList] ∧
    Holds sharedSecond (digits 2) ["01010".toList, "11111".toList] := by
  constructor
  · exact (holds_withChip (List.cons_ne_nil _ _)).withChip (by decide)
  · exact holds_withChip (List.cons_ne_nil _ _)

/-- At the first page of the one and the second page of the other. -/
theorem chipMerge_lossless_iff_first_second :
    (∀ draws, MergeEnd sharedSecond (digits 1) (digits 2) ["00000".toList, "11111".toList] 0
      ["01010".toList, "11111".toList] 1 draws
        ((chipMerge Constants.repository (.int (1 : ℕ)) (.int (0 : ℕ)) (.str (digits 2))
          (.str (digits 1))).run ⟨sharedSecond, draws⟩)) ↔ (0 = 1 → 0 = 0) :=
  chipMerge_lossless_iff holds_sharedSecond.1 holds_sharedSecond.2 (by decide) (by decide) (by decide)
    ⟨1, by decide⟩ rfl rfl (pyInt_digits 1) (by decide) (by decide)

/-- **Merging them at the page they share loses two pages**: the first ones of both. -/
theorem chipMerge_loses_pages :
    ¬ ∀ draws, MergeEnd sharedSecond (digits 1) (digits 2) ["00000".toList, "11111".toList] 1
      ["01010".toList, "11111".toList] 1 draws
        ((chipMerge Constants.repository (.int (1 : ℕ)) (.int (1 : ℕ)) (.str (digits 2))
          (.str (digits 1))).run ⟨sharedSecond, draws⟩) :=
  chipMerge_loses holds_sharedSecond.1 holds_sharedSecond.2 (by decide) (by decide) (by decide)
    ⟨1, by decide⟩ rfl rfl
    (pyInt_digits 1) (by decide) (by decide) (by decide)

end ProbableCause
