import ProbableCause.Lib.Overlay
import ProbableCause.Database.Stitch

/-!
# `Database.Layout` — what a chip directory holds, and the functions that read and write one chip

A chip is a list of pages; on disk it is the directory `chipDir` of the files `0.txt`, `1.txt`, … .
This module states the two forms of the representation invariant and gives each function that works
on a single chip its one specification, in terms of the list of pages:

- `WellFormed` — every stored directory is the `chipDir` of a non-empty list of accepted pages;
  `RepInv` adds that its name is a number of `1..1000`.
- `pageRead_chipDir` — reading page `i` of a chip is indexing its list.
- `run_getChipNumber`, `run_writePages`, `run_chipAdd` — drawing a number and storing a chip, for
  lists with and without elements that are no pages.
-/

namespace ProbableCause

open Text Exits Overlay

/-! ## The directory of a chip -/

/-- The files `0.txt`, `1.txt`, … holding the given strings. -/
def chipDir (ps : List Str) : Dir :=
  ps.zipIdx.foldl (fun d p => d.insert (fileName (.int p.2)) p.1) ∅

@[simp] theorem chipDir_nil : chipDir [] = ∅ := rfl

/-- Appending a page writes the next file. -/
theorem chipDir_append (ps : List Str) (s : Str) :
    chipDir (ps ++ [s]) = (chipDir ps).insert (fileName (.int ps.length)) s := by
  simp [chipDir, List.zipIdx_append]

theorem fileName_natCast (n : ℕ) : fileName (.int n) = digits n ++ ".txt".toList := rfl

theorem fileName_inj {m n : ℕ} : fileName (.int m) = fileName (.int n) ↔ m = n := by
  rw [fileName_natCast, fileName_natCast, List.append_cancel_right_eq, digits_inj]

/-- The file of location `i` holds page `i`. -/
theorem lookup_chipDir (ps : List Str) (i : ℕ) :
    (chipDir ps).lookup (fileName (.int i)) = ps[i]? := by
  induction ps using List.reverseRecOn with
  | nil => rfl
  | append_singleton ps s ih =>
    rw [chipDir_append]
    by_cases hi : i = ps.length
    · subst hi
      rw [Finmap.lookup_insert]; simp
    · rw [Finmap.lookup_insert_of_ne _ (fun h => hi (fileName_inj.mp h)), ih, List.getElem?_append]
      split
      · rfl
      · rw [List.getElem?_eq_none (by omega), List.getElem?_eq_none (by simp; omega)]

/-- A chip directory has no other files. -/
theorem mem_chipDir {ps : List Str} {f : Str} :
    f ∈ chipDir ps ↔ ∃ i < ps.length, f = fileName (.int i) := by
  induction ps using List.reverseRecOn with
  | nil => simp [Finmap.notMem_empty]
  | append_singleton ps s ih =>
    rw [chipDir_append, Finmap.mem_insert, ih]
    constructor
    · rintro (rfl | ⟨i, hi, rfl⟩)
      · exact ⟨ps.length, by simp, rfl⟩
      · exact ⟨i, by simp; omega, rfl⟩
    · rintro ⟨i, hi, rfl⟩
      -- the last file is the one just written
      by_cases hip : i = ps.length
      · exact Or.inl (by rw [hip])
      · simp only [List.length_append, List.length_singleton] at hi
        exact Or.inr ⟨i, by omega, rfl⟩

/-- The directory determines the pages. -/
theorem chipDir_inj {ps qs : List Str} : chipDir ps = chipDir qs ↔ ps = qs := by
  refine ⟨fun h => List.ext_getElem? fun i => ?_, fun h => h ▸ rfl⟩
  rw [← lookup_chipDir ps i, ← lookup_chipDir qs i, h]

theorem card_keys_chipDir (ps : List Str) : (chipDir ps).keys.card = ps.length := by
  have himage : (chipDir ps).keys = (Finset.range ps.length).image fun i : ℕ =>
      fileName (.int i) := by
    ext f
    rw [Finmap.mem_keys, mem_chipDir]
    simp [eq_comm]
  rw [himage, Finset.card_image_of_injective _ (fun _ _ h => fileName_inj.mp h), Finset.card_range]

/-! ## Stored chips and the representation invariant -/

/-- The directory `c` of the database is the chip with the pages `ps`. -/
def Holds (db : Database) (c : Str) (ps : List Str) : Prop := db.lookup c = some (chipDir ps)

/-- Every stored directory is a chip: a non-empty list of accepted pages. -/
def WellFormed (K : Constants) (db : Database) : Prop :=
  ∀ c d, db.lookup c = some d → ∃ ps, d = chipDir ps ∧ ps ≠ [] ∧ ∀ s ∈ ps, Valid K s

/-- **The representation invariant.** Every directory is named by a number of `1..1000` and contains
    exactly the files `0.txt` … `(n-1).txt`, `n ≥ 1`, each an accepted page. -/
def RepInv (K : Constants) (db : Database) : Prop :=
  ∀ c d, db.lookup c = some d →
    (∃ n : ℕ, 1 ≤ n ∧ n ≤ 1000 ∧ c = digits n) ∧
    ∃ ps, d = chipDir ps ∧ ps ≠ [] ∧ ∀ s ∈ ps, Valid K s

variable {K : Constants} {db : Database} {c : Str} {ps qs : List Str}

theorem Holds.unique (h : Holds db c ps) (h' : Holds db c qs) : ps = qs := by
  rw [Holds, h] at h'
  exact chipDir_inj.mp (Option.some.inj h')

theorem Holds.mem (h : Holds db c ps) : c ∈ db := Finmap.mem_of_lookup_eq_some h

theorem RepInv.wellFormed (h : RepInv K db) : WellFormed K db := fun c d hd => (h c d hd).2

theorem WellFormed.holds (h : WellFormed K db) (hc : c ∈ db) :
    ∃ ps, Holds db c ps ∧ ps ≠ [] ∧ ∀ s ∈ ps, Valid K s := by
  obtain ⟨d, hd⟩ := Finmap.mem_iff.mp hc
  obtain ⟨ps, rfl, hps⟩ := h c d hd
  exact ⟨ps, hd, hps⟩

theorem WellFormed.ne_nil (h : WellFormed K db) (hc : Holds db c ps) : ps ≠ [] := by
  obtain ⟨qs, hqs, hne, -⟩ := h.holds hc.mem
  rwa [hc.unique hqs]

theorem WellFormed.valid (h : WellFormed K db) (hc : Holds db c ps) {s : Str} (hs : s ∈ ps) :
    Valid K s := by
  obtain ⟨qs, hqs, -, hall⟩ := h.holds hc.mem
  exact hall s (hc.unique hqs ▸ hs)

theorem WellFormed.empty (K : Constants) : WellFormed K ∅ := by
  intro c d h
  rw [Finmap.lookup_empty] at h; cases h

theorem WellFormed.erase (h : WellFormed K db) (c : Str) : WellFormed K (db.erase c) := by
  intro c' d hd
  by_cases hcc : c' = c
  · rw [hcc, Finmap.lookup_erase] at hd; cases hd
  · exact h c' d (by rwa [Finmap.lookup_erase_ne hcc] at hd)

theorem WellFormed.insert (h : WellFormed K db) (c : Str) (hne : ps ≠ [])
    (hval : ∀ s ∈ ps, Valid K s) : WellFormed K (db.insert c (chipDir ps)) := by
  intro c' d hd
  by_cases hcc : c' = c
  · rw [hcc, Finmap.lookup_insert] at hd
    exact ⟨ps, (Option.some.inj hd).symm, hne, hval⟩
  · exact h c' d (by rwa [Finmap.lookup_insert_of_ne _ hcc] at hd)

/-! ## Reading a page -/

/-- **Reading a page is indexing.** The page object carries the string stored, the chip and the
    location it was asked for. -/
theorem pageRead_chipDir (chip : PyVal) {i : ℕ} (loc : PyVal)
    (hloc : fileName loc = fileName (.int i)) (h : Holds db (pyStr chip) ps)
    (hval : ∀ s ∈ ps, Valid K s) :
    ∃ r, pageRead K db chip loc = .ok r ∧ r.map ApproxPage.errorString = ps[i]? ∧
      ∀ p ∈ r, p.chip = chip ∧ p.loc = loc := by
  have hread : ((db.lookup (pyStr chip)).bind fun d => d.lookup (fileName loc)) = ps[i]? := by
    rw [h, Option.bind_some, hloc, lookup_chipDir]
  unfold pageRead
  rw [hread]
  cases hi : ps[i]? with
  | none => exact ⟨none, rfl, rfl, by simp⟩
  | some s =>
    refine ⟨some ⟨s, chip, loc, hval s (List.mem_of_getElem? hi)⟩, ?_, rfl, ?_⟩
    · simp only [approxPage_of_valid (hval s (List.mem_of_getElem? hi)) chip loc]
      rfl
    · rintro p hp
      cases hp
      exact ⟨rfl, rfl⟩

/-! ## Drawing a number -/

/-- What `firstFree` returns is the number of a draw and is not in use. -/
theorem firstFree_spec {draws : List Draw} {n : ℕ} {rest : List Draw}
    (h : firstFree db draws = some (n, rest)) : 1 ≤ n ∧ n ≤ 1000 ∧ digits n ∉ db := by
  induction draws with
  | nil => cases h
  | cons r rs ih =>
    unfold firstFree at h
    -- a number in use is drawn again
    split at h
    · exact ih h
    · next hfree =>
      cases h
      exact ⟨r.2.1, r.2.2, hfree⟩

theorem run_getChipNumber (w : World) :
    getChipNumber.run w = match firstFree w.db w.draws with
      | some (n, draws) => .ok n { w with draws := draws }
      | none => .error .drawing { w with draws := [] } := by
  cases h : firstFree w.db w.draws with
  | none =>
    simp only [getChipNumber, EStateM.run_bind, EStateM.run_get, h, EStateM.run_set]
    rfl
  | some p =>
    simp only [getChipNumber, EStateM.run_bind, EStateM.run_get, h, EStateM.run_set]
    rfl

/-! ## Storing a chip -/

/-- The database with a further chip; a chip without pages leaves no directory. -/
def withChip (db : Database) (c : Str) (ps : List Str) : Database :=
  if ps = [] then db else db.insert c (chipDir ps)

@[simp] theorem withChip_nil : withChip db c [] = db := if_pos rfl

theorem withChip_of_ne_nil (h : ps ≠ []) : withChip db c ps = db.insert c (chipDir ps) := if_neg h

/-- Writing the next page of a chip that is being stored. -/
theorem writeFile_withChip (hfree : c ∉ db) (ps : List Str) (s : Str) :
    writeFile (withChip db c ps) c (fileName (.int ps.length)) s = withChip db c (ps ++ [s]) := by
  have hnone : db.lookup c = none := Finmap.lookup_eq_none.mpr hfree
  rw [withChip_of_ne_nil (by simp : ps ++ [s] ≠ []), chipDir_append, writeFile]
  -- the first page makes the directory
  by_cases hps : ps = []
  · subst hps
    rw [withChip_nil, hnone]
    rfl
  · rw [withChip_of_ne_nil hps, Finmap.lookup_insert, Option.getD_some, Finmap.insert_insert]

/-- The strings of a list of pages, where there is a page. -/
def strings (l : List (Option (ApproxPage K))) : List (Option Str) :=
  l.map fun p => p.map ApproxPage.errorString

@[simp] theorem strings_nil : strings ([] : List (Option (ApproxPage K))) = [] := rfl

@[simp] theorem strings_none (l : List (Option (ApproxPage K))) :
    strings (none :: l) = none :: strings l := rfl

@[simp] theorem strings_some (p : ApproxPage K) (l : List (Option (ApproxPage K))) :
    strings (some p :: l) = some p.errorString :: strings l := rfl

@[simp] theorem strings_map_some (pages : List (ApproxPage K)) :
    strings (pages.map some) = (pages.map ApproxPage.errorString).map some := by
  simp [strings, Function.comp_def]

theorem valid_of_mem_leading {l : List (Option (ApproxPage K))} {s : Str}
    (h : s ∈ leading (strings l)) : Valid K s := by
  induction l with
  | nil => simp at h
  | cons o l ih =>
    cases o with
    | none => simp at h
    | some p =>
      rw [strings_some, leading_some, List.mem_cons] at h
      rcases h with rfl | h
      · exact p.valid
      · exact ih h

/-- **The loop of `chipAdd`.** After the pages `ps` it writes the pages up to the first list element
    that is none, and there it raises an `AttributeError`. -/
theorem run_writePages {n : ℕ} (hfree : digits n ∉ db) (l : List (Option (ApproxPage K)))
    (ps : List Str) (draws : List Draw) :
    (writePages n ps.length l).run ⟨withChip db (digits n) ps, draws⟩ =
      if (strings l).all Option.isSome
        then .ok () ⟨withChip db (digits n) (ps ++ leading (strings l)), draws⟩
      else .error (.raised .attributeError)
        ⟨withChip db (digits n) (ps ++ leading (strings l)), draws⟩ := by
  induction l generalizing ps with
  | nil => simp [writePages]
  | cons o l ih =>
    cases o with
    | none => simp [writePages]
    | some p =>
      have hwrite : writeFile (withChip db (digits n) ps) (pyStr (.int n))
          (fileName (.int ps.length)) p.errorString
          = withChip db (digits n) (ps ++ [p.errorString]) :=
        writeFile_withChip hfree ps p.errorString
      have hih := ih (ps ++ [p.errorString])
      rw [List.length_append, List.length_singleton] at hih
      simp only [writePages, EStateM.run_bind, pageWrite, EStateM.run_modify, hwrite, hih]
      simp

/-- Storing a list of strings as a new chip: under the first free number drawn go the strings up to
    the first `none`; there is a number to return only if there is no `none`. -/
def storeResult (db : Database) (draws : List Draw) (l : List (Option Str)) :
    EStateM.Result Stop World ℕ :=
  match firstFree db draws with
  | none => .error .drawing ⟨db, []⟩
  | some (n, rest) =>
    if l.all Option.isSome then .ok n ⟨withChip db (digits n) (leading l), rest⟩
    else .error (.raised .attributeError) ⟨withChip db (digits n) (leading l), rest⟩

theorem storeResult_of_none {draws : List Draw} (hdraw : firstFree db draws = none)
    (l : List (Option Str)) :
    storeResult db draws l = .error .drawing ⟨db, []⟩ := by
  rw [storeResult, hdraw]

theorem storeResult_of_some {draws rest : List Draw} {n : ℕ}
    (hdraw : firstFree db draws = some (n, rest)) (ps : List Str) :
      storeResult db draws (ps.map some) = .ok n ⟨withChip db (digits n) ps, rest⟩ := by
  rw [storeResult, hdraw]
  simp

/-- **`chipAdd`** stores the strings of its list of pages. -/
theorem run_chipAdd (l : List (Option (ApproxPage K))) (w : World) :
    (chipAdd l).run w = storeResult w.db w.draws (strings l) := by
  have hnum := run_getChipNumber w
  cases hdraw : firstFree w.db w.draws with
  | none =>
    rw [hdraw] at hnum
    rw [chipAdd, run_bind_error hnum, storeResult, hdraw]
  | some p =>
    obtain ⟨n, draws⟩ := p
    rw [hdraw] at hnum
    have hwrite := run_writePages (firstFree_spec hdraw).2.2 l [] draws
    rw [withChip_nil, List.nil_append, List.length_nil] at hwrite
    rw [chipAdd, run_bind_ok hnum, EStateM.run_bind, hwrite, storeResult, hdraw]
    by_cases hall : (strings l).all Option.isSome = true
    · simp only [if_pos hall]; rfl
    · simp only [if_neg hall]

end ProbableCause
