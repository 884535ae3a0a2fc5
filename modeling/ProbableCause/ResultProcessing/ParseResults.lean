import Mathlib.Data.List.GetD
import ProbableCause.Lib.Java

/-!
# `ResultProcessing.ParseResults` — `ParseResults.java`

The program reads a table, one line for each row and one list for each column, and after every
hundredth row it replaces the last hundred entries of each list by their average. `Aligned` says
that the lists are the columns of a list of rows, each of which comes from one line or from a block
of lines.

The parts of a line are added one by one, and the exception of a part that is no number is caught:
the parts before it stay. The columns are aligned if and only if every line that is rejected is
rejected at its first part (`keepsAligned_iff`).

What a `float` is, is a parameter (`Floats`). After the reading loop the program prints two of the
columns, which is left out.
-/

namespace ProbableCause.ParseResults

open Text Java

def DEC_AMOUNT : ℕ := 100

/-! ## The program -/

/-- Numbers, as the program reads them and computes with them. -/
structure Floats (V : Type) where
  /-- `new Float`; `none` is the `NumberFormatException` -/
  newFloat : Str → Option V
  zero : V
  add : V → V → V
  /-- the quotient by an int -/
  divInt : V → ℕ → V

variable {V : Type}

/-- The lists, and the number of rows added to them. -/
structure State (V : Type) where
  results : List (List V)
  resultCount : BitVec 32

/-- The loop over the lists that adds a part to each, up to a part that is no number; `false` where
there is one. -/
def addParts (F : Floats V) : List (List V) → List Str → List (List V) × Bool
  | al :: results, part :: parts =>
    match F.newFloat part with
    | none => (al :: results, false)
    | some value =>
      let (results, added) := addParts F results parts
      ((al ++ [value]) :: results, added)
  | results, _ => (results, true)

/-- The loop that removes the last entries of a list and adds them to `avg`; `none` where the list
is too short. -/
def removeLast (F : Floats V) : ℕ → List V → V → Option (List V × V)
  | 0, al, avg => some (al, avg)
  | i + 1, al, avg =>
    match al.getLast? with
    | none => none
    | some value => removeLast F i al.dropLast (F.add avg value)

/-- The body of the loop that condenses the lists. -/
def condense (F : Floats V) (al : List V) : Option (List V) :=
  (removeLast F DEC_AMOUNT al F.zero).map fun (al, avg) => al ++ [F.divInt avg DEC_AMOUNT]

/-- The body of the reading loop. -/
def readLine (F : Floats V) (numberOfColumns : ℕ) (s : State V) (line : Str) : Option (State V) :=
  let parts := splitOn ',' line
  if parts.length = numberOfColumns then
    match addParts F s.results parts with
    | (results, false) => some { s with results := results }
    | (results, true) =>
      let resultCount := s.resultCount + 1
      if resultCount.srem (BitVec.ofNat 32 DEC_AMOUNT) = 0 then
        (results.mapM (condense F)).map fun results => ⟨results, resultCount⟩
      else some ⟨results, resultCount⟩
  else some s

/-- The reading loop. -/
def readAll (F : Floats V) (numberOfColumns : ℕ) (lines : List Str) : Option (State V) :=
  lines.foldlM (readLine F numberOfColumns) ⟨List.replicate numberOfColumns [], 0⟩

/-! ## Rows and columns -/

/-- The columns of some rows. -/
def columnsOf (F : Floats V) (numberOfColumns : ℕ) (rows : List (List V)) : List (List V) :=
  (List.range numberOfColumns).map fun c => rows.map fun row => row.getD c F.zero

/-- The average of some entries, added from the last one on. -/
def average (F : Floats V) (entries : List V) : V :=
  F.divInt (entries.foldr (fun value avg => F.add avg value) F.zero) DEC_AMOUNT

/-- The average of some rows, column by column. -/
def averageRow (F : Floats V) (numberOfColumns : ℕ) (rows : List (List V)) : List V :=
  (List.range numberOfColumns).map fun c => average F (rows.map fun row => row.getD c F.zero)

/-- A line that is data: it has the right number of parts, and each is a number. -/
def isData (F : Floats V) (numberOfColumns : ℕ) (line : Str) : Bool :=
  decide ((splitOn ',' line).length = numberOfColumns) && ((splitOn ',' line).mapM F.newFloat).isSome

/-- A line that is rejected: it has the right number of parts, and one is no number. -/
def Rejected (F : Floats V) (numberOfColumns : ℕ) (line : Str) : Prop :=
  (splitOn ',' line).length = numberOfColumns ∧ ∃ part ∈ splitOn ',' line, F.newFloat part = none

/-- **A row stems from some lines**: it has the numbers of one line, or it is the average of a block
of rows. -/
inductive Stems (F : Floats V) (numberOfColumns : ℕ) : List Str → List V → Prop where
  | line {line : Str} {row : List V} (hlength : (splitOn ',' line).length = numberOfColumns)
      (hrow : (splitOn ',' line).mapM F.newFloat = some row) : Stems F numberOfColumns [line] row
  | block {entries : List (List Str × List V)} (hlength : entries.length = DEC_AMOUNT)
      (hentries : ∀ e ∈ entries, Stems F numberOfColumns e.1 e.2) :
      Stems F numberOfColumns (entries.map Prod.fst).flatten
        (averageRow F numberOfColumns (entries.map Prod.snd))

/-- **The lists are aligned** after some lines: they are the columns of rows that stem from the data
    lines, in order. -/
def Aligned (F : Floats V) (numberOfColumns : ℕ) (seen : List Str) (results : List (List V))
    (entries : List (List Str × List V)) : Prop :=
  (entries.map Prod.fst).flatten = seen.filter (isData F numberOfColumns) ∧
    (∀ e ∈ entries, Stems F numberOfColumns e.1 e.2) ∧
    results = columnsOf F numberOfColumns (entries.map Prod.snd)

/-- **A file keeps the lists aligned**: after each of its lines they have one length, they are
    aligned, and a line that is rejected has added nothing. -/
def KeepsAligned (F : Floats V) (numberOfColumns : ℕ) (lines : List Str) : Prop :=
  ∀ seen line rest, lines = seen ++ line :: rest →
    ∃ s s', readAll F numberOfColumns seen = some s ∧ readLine F numberOfColumns s line = some s' ∧
      (∃ length, ∀ al ∈ s'.results, al.length = length) ∧
      (∃ entries, Aligned F numberOfColumns (seen ++ [line]) s'.results entries) ∧
      (Rejected F numberOfColumns line → s'.results = s.results)

variable {F : Floats V} {numberOfColumns : ℕ} {rows block : List (List V)} {row : List V}

theorem length_columnsOf (rows : List (List V)) :
    (columnsOf F numberOfColumns rows).length = numberOfColumns := by
  rw [columnsOf, List.length_map, List.length_range]

theorem columnsOf_nil : columnsOf F numberOfColumns [] = List.replicate numberOfColumns [] := by
  show ((List.range numberOfColumns).map fun _ => []) = _
  rw [List.map_const', List.length_range]

/-- An entry of an average. -/
theorem getD_averageRow {c : ℕ} (hc : c < numberOfColumns) (rows : List (List V)) :
    (averageRow F numberOfColumns rows).getD c F.zero =
      average F (rows.map fun row => row.getD c F.zero) := by
  have hin : c < (averageRow F numberOfColumns rows).length := by
    rwa [averageRow, List.length_map, List.length_range]
  rw [List.getD_eq_getElem _ _ hin]
  simp only [averageRow, List.getElem_map, List.getElem_range]

/-- Adding a row to the columns. -/
theorem zipWith_columnsOf (rows : List (List V)) (hlength : row.length = numberOfColumns) :
    List.zipWith (fun al value => al ++ [value]) (columnsOf F numberOfColumns rows) row =
      columnsOf F numberOfColumns (rows ++ [row]) := by
  apply List.ext_getElem
  · rw [List.length_zipWith, length_columnsOf, length_columnsOf, hlength, Nat.min_self]
  · intro c hc hc'
    rw [length_columnsOf] at hc'
    rw [List.getElem_zipWith]
    simp only [columnsOf, List.getElem_map, List.getElem_range, List.map_append, List.map_singleton]
    rw [List.getD_eq_getElem _ _ (by omega)]

/-- The parts of a data line are all added. -/
theorem addParts_of_mapM {results : List (List V)} {parts : List Str}
    (hrow : parts.mapM F.newFloat = some row) (hlength : results.length = parts.length) :
    addParts F results parts = (List.zipWith (fun al value => al ++ [value]) results row, true) := by
  have hparts := mapM_eq_some_iff.mp hrow
  clear hrow
  induction hparts generalizing results with
  | nil =>
    rw [List.length_eq_zero_iff.mp hlength]
    rfl
  | cons hvalue _ ih =>
    obtain ⟨al, results, rfl⟩ := List.exists_cons_of_length_eq_add_one hlength
    rw [addParts, hvalue]
    dsimp only
    rw [ih (Nat.succ.inj hlength)]
    rfl

theorem removeLast_append (al entries : List V) (avg : V) :
    removeLast F entries.length (al ++ entries) avg =
      some (al, entries.foldr (fun value avg => F.add avg value) avg) := by
  induction entries using List.reverseRecOn generalizing avg with
  | nil => rw [List.append_nil]; rfl
  | append_singleton entries value ih =>
    rw [List.length_append, List.length_singleton, ← List.append_assoc, removeLast,
      List.getLast?_concat]
    dsimp only
    rw [List.dropLast_concat, ih, List.foldr_append]
    rfl

theorem condense_append (al : List V) {entries : List V} (hlength : entries.length = DEC_AMOUNT) :
    condense F (al ++ entries) = some (al ++ [average F entries]) := by
  have hremove := removeLast_append (F := F) al entries F.zero
  rw [hlength] at hremove
  rw [condense, hremove]
  rfl

/-- The last rows are replaced by their average. -/
theorem mapM_condense (rows : List (List V)) (hlength : block.length = DEC_AMOUNT) :
    (columnsOf F numberOfColumns (rows ++ block)).mapM (condense F) =
      some (columnsOf F numberOfColumns (rows ++ [averageRow F numberOfColumns block])) := by
  rw [mapM_eq_some_iff, columnsOf, columnsOf, List.forall₂_map_left_iff, List.forall₂_map_right_iff]
  rw [List.forall₂_same]
  intro c hc
  have hblock : (block.map fun row => row.getD c F.zero).length = DEC_AMOUNT := by
    rw [List.length_map, hlength]
  rw [List.map_append, condense_append _ hblock, List.map_append, List.map_singleton,
    getD_averageRow (List.mem_range.mp hc)]

/-! ## The counter -/

/-- The remainder of the counter. -/
theorem srem_eq_zero_iff (t : BitVec 32) :
    t.srem (BitVec.ofNat 32 DEC_AMOUNT) = 0 ↔ t.toInt % 100 = 0 := by
  have hamount : (BitVec.ofNat 32 DEC_AMOUNT).toInt = 100 := by decide
  have hzero : (0 : BitVec 32).toInt = 0 := rfl
  rw [← BitVec.toInt_inj, BitVec.toInt_srem, hamount, hzero, ← Int.dvd_iff_tmod_eq_zero,
    Int.dvd_iff_emod_eq_zero]

/-- The next value of the counter, which is an int. -/
theorem toInt_succ (t : BitVec 32) :
    (t + 1).toInt = if t.toInt = 2 ^ 31 - 1 then -2 ^ 31 else t.toInt + 1 := by
  have hlo := BitVec.le_toInt t
  have hhi := BitVec.toInt_lt (x := t)
  have hone : (1 : BitVec 32).toInt = 1 := by decide
  rw [BitVec.toInt_add, hone, Int.bmod_def]
  split <;> split <;> omega

/-- How many entries there are at least when the counter has some value: up to its overflow, the
    averages and the rows behind them. The overflow is behind the row `47` of a block, and the next
    block starts in its row `48`. -/
def atLeast (t : ℤ) : ℤ :=
  if 0 ≤ t then t / 100 + t % 100
  else if -2147483600 ≤ t then (t + 2147483600) / 100 + t % 100
  else t + 2147483700

/-- A row is added. -/
theorem atLeast_succ {t : BitVec 32} {length : ℤ} (h : atLeast t.toInt ≤ length) :
    atLeast (t + 1).toInt ≤ length + 1 := by
  have hlo := BitVec.le_toInt t
  have hhi := BitVec.toInt_lt (x := t)
  rw [toInt_succ]
  unfold atLeast at h ⊢
  split_ifs at h ⊢ <;> omega

/-- A block is full: there are enough entries to condense it. -/
theorem atLeast_block {t : BitVec 32} {length : ℤ} (h : atLeast t.toInt ≤ length)
    (hblock : (t + 1).toInt % 100 = 0) :
    100 ≤ length + 1 ∧ atLeast (t + 1).toInt ≤ length + 1 - 100 + 1 := by
  have hlo := BitVec.le_toInt t
  have hhi := BitVec.toInt_lt (x := t)
  rw [toInt_succ] at hblock ⊢
  unfold atLeast at h ⊢
  split at hblock <;> split_ifs at h ⊢ <;> omega

/-! ## One line -/

theorem length_of_aligned {seen : List Str} {results : List (List V)}
    {entries : List (List Str × List V)} (h : Aligned F numberOfColumns seen results entries) :
      ∀ al ∈ results, al.length = entries.length := by
  intro al hal
  rw [h.2.2, columnsOf] at hal
  obtain ⟨c, -, rfl⟩ := List.mem_map.mp hal
  rw [List.length_map, List.length_map]

/-- What the reading loop keeps on a file whose rejected lines add nothing. -/
def Inv (F : Floats V) (numberOfColumns : ℕ) (seen : List Str) (s : State V) : Prop :=
  ∃ entries, Aligned F numberOfColumns seen s.results entries ∧
    atLeast s.resultCount.toInt ≤ entries.length

theorem inv_start : Inv F numberOfColumns [] ⟨List.replicate numberOfColumns [], 0⟩ := by
  have hzero : atLeast (0 : BitVec 32).toInt ≤ 0 := by decide
  exact ⟨[], ⟨rfl, fun e he => absurd he List.not_mem_nil, columnsOf_nil.symm⟩, hzero⟩

variable {seen : List Str} {s : State V} {line : Str}

theorem isData_eq_false_iff : isData F numberOfColumns line = false ↔
    (splitOn ',' line).length = numberOfColumns → Rejected F numberOfColumns line := by
  rw [isData, Bool.and_eq_false_iff, decide_eq_false_iff_not, Option.isSome_eq_false_iff,
    Option.isNone_iff_eq_none, mapM_eq_none_iff, ← imp_iff_not_or]
  exact forall_congr' fun hlength => ⟨fun h => ⟨hlength, h⟩, fun h => h.2⟩

theorem not_rejected (hdata : isData F numberOfColumns line = true) :
    ¬ Rejected F numberOfColumns line := by
  intro hrejected
  rw [isData_eq_false_iff.mpr fun _ => hrejected] at hdata
  contradiction

/-- **A line that is no data** leaves the lists alone, if it is not rejected behind its first part. -/
theorem readLine_not_data (hresults : s.results.length = numberOfColumns)
    (hdata : isData F numberOfColumns line = false)
    (hfirst : Rejected F numberOfColumns line → ∃ part ∈ (splitOn ',' line).head?,
      F.newFloat part = none) :
    readLine F numberOfColumns s line = some s := by
  rw [readLine]
  dsimp only
  split
  · rename_i hlength
    obtain ⟨part, hhead, hpart⟩ := hfirst (isData_eq_false_iff.mp hdata hlength)
    obtain ⟨parts, hparts⟩ := List.head?_eq_some_iff.mp hhead
    rw [hparts] at hlength ⊢
    obtain ⟨al, results, hcons⟩ := List.exists_cons_of_length_eq_add_one (hresults.trans hlength.symm)
    have hadd : addParts F s.results (part :: parts) = (s.results, false) := by
      rw [hcons, addParts, hpart]
    rw [hadd]
  · rfl

theorem addParts_columnsOf (hresults : s.results = columnsOf F numberOfColumns rows)
    (hlength : (splitOn ',' line).length = numberOfColumns)
    (hrow : (splitOn ',' line).mapM F.newFloat = some row) :
    addParts F s.results (splitOn ',' line) =
      (columnsOf F numberOfColumns (rows ++ [row]), true) := by
  have hrowLength : row.length = numberOfColumns := by
    rw [← (mapM_eq_some_iff.mp hrow).length_eq, hlength]
  rw [addParts_of_mapM hrow (by rw [hresults, length_columnsOf, hlength]), hresults,
    zipWith_columnsOf _ hrowLength]

/-- **A data line** adds a row. -/
theorem readLine_row (hresults : s.results = columnsOf F numberOfColumns rows)
    (hlength : (splitOn ',' line).length = numberOfColumns)
    (hrow : (splitOn ',' line).mapM F.newFloat = some row)
    (hcount : (s.resultCount + 1).toInt % 100 ≠ 0) :
    readLine F numberOfColumns s line =
      some ⟨columnsOf F numberOfColumns (rows ++ [row]), s.resultCount + 1⟩ := by
  rw [readLine]
  dsimp only
  rw [if_pos hlength, addParts_columnsOf hresults hlength hrow]
  dsimp only
  rw [if_neg fun h => hcount ((srem_eq_zero_iff _).mp h)]

/-- **A data line that fills a block**: the last hundred rows are replaced by their average. -/
theorem readLine_block (hresults : s.results = columnsOf F numberOfColumns rows)
    (hlength : (splitOn ',' line).length = numberOfColumns)
    (hrow : (splitOn ',' line).mapM F.newFloat = some row)
    (hcount : (s.resultCount + 1).toInt % 100 = 0) {front : List (List V)}
    (hrows : rows ++ [row] = front ++ block) (hblock : block.length = DEC_AMOUNT) :
    readLine F numberOfColumns s line =
      some ⟨columnsOf F numberOfColumns (front ++ [averageRow F numberOfColumns block]),
        s.resultCount + 1⟩ := by
  rw [readLine]
  dsimp only
  rw [if_pos hlength, addParts_columnsOf hresults hlength hrow]
  dsimp only
  rw [if_pos ((srem_eq_zero_iff _).mpr hcount), hrows, mapM_condense front hblock]
  rfl

/-- A long list has its last hundred items. -/
theorem exists_block {α : Type} {items : List α} (h : DEC_AMOUNT ≤ items.length) :
    ∃ front block, items = front ++ block ∧ block.length = DEC_AMOUNT :=
  ⟨items.take (items.length - DEC_AMOUNT), items.drop (items.length - DEC_AMOUNT),
      (List.take_append_drop _ _).symm, by
    rw [List.length_drop]
    omega⟩

/-- **A data line** keeps what the loop keeps. -/
theorem Inv.readLine_data (h : Inv F numberOfColumns seen s)
    (hdata : isData F numberOfColumns line = true) :
    ∃ s', readLine F numberOfColumns s line = some s' ∧ Inv F numberOfColumns
      (seen ++ [line]) s' := by
  obtain ⟨entries, ⟨hsources, hstems, hresults⟩, hcount⟩ := h
  have hkeep : (seen ++ [line]).filter (isData F numberOfColumns) =
      seen.filter (isData F numberOfColumns) ++ [line] := by
    rw [List.filter_append, List.filter_cons_of_pos hdata, List.filter_nil]
  rw [isData, Bool.and_eq_true, decide_eq_true_iff] at hdata
  obtain ⟨hlength, hsome⟩ := hdata
  obtain ⟨row, hrow⟩ := Option.isSome_iff_exists.mp hsome
  have hall : ∀ e ∈ entries ++ [([line], row)], Stems F numberOfColumns e.1 e.2 :=
    List.forall_mem_append.mpr ⟨hstems, List.forall_mem_singleton.mpr (.line hlength hrow)⟩
  have hflatten : ((entries ++ [([line], row)]).map Prod.fst).flatten =
      (seen ++ [line]).filter (isData F numberOfColumns) := by
    rw [List.map_append, List.flatten_append, hsources, hkeep]
    rfl
  have hrows : entries.map Prod.snd ++ [row] = (entries ++ [([line], row)]).map Prod.snd := by
    rw [List.map_append, List.map_singleton]
  have hmore : (entries ++ [([line], row)]).length = entries.length + 1 := List.length_append
  by_cases hfull : (s.resultCount + 1).toInt % 100 = 0
  · obtain ⟨henough, hnext⟩ := atLeast_block hcount hfull
    have hblock : DEC_AMOUNT ≤ (entries ++ [([line], row)]).length := by
      rw [hmore, DEC_AMOUNT]
      omega
    obtain ⟨front, last, hsplit, hlast⟩ := exists_block hblock
    rw [hsplit, List.map_append] at hrows
    rw [hsplit, List.forall_mem_append] at hall
    rw [hsplit, List.length_append, hlast, DEC_AMOUNT] at hmore
    refine ⟨_, readLine_block hresults hlength hrow hfull hrows (by rw [List.length_map, hlast]),
      front ++ [((last.map Prod.fst).flatten, averageRow F numberOfColumns (last.map Prod.snd))],
      ⟨?_, ?_, ?_⟩, ?_⟩
    · rw [← hflatten, hsplit, List.map_append, List.map_append, List.flatten_append,
        List.flatten_append, List.map_singleton, List.flatten_singleton]
    · exact List.forall_mem_append.mpr ⟨hall.1, List.forall_mem_singleton.mpr (.block hlast hall.2)⟩
    · rw [List.map_append, List.map_singleton]
    · rw [List.length_append, List.length_singleton]
      dsimp only
      omega
  · refine ⟨_, readLine_row hresults hlength hrow hfull, entries ++ [([line], row)],
      ⟨hflatten, hall, ?_⟩, ?_⟩
    · rw [hrows]
    · rw [hmore]
      exact atLeast_succ hcount

/-! ## The whole file -/

theorem length_results (h : Inv F numberOfColumns seen s) : s.results.length = numberOfColumns := by
  obtain ⟨entries, ⟨-, -, hresults⟩, -⟩ := h
  rw [hresults, length_columnsOf]

/-- **One line** that is not rejected behind its first part. -/
theorem Inv.readLine (h : Inv F numberOfColumns seen s)
    (hfirst : Rejected F numberOfColumns line → ∃ part ∈ (splitOn ',' line).head?,
      F.newFloat part = none) :
    ∃ s', readLine F numberOfColumns s line = some s' ∧ Inv F numberOfColumns (seen ++ [line]) s' ∧
      (isData F numberOfColumns line = false → s' = s) := by
  cases hdata : isData F numberOfColumns line with
  | true =>
    obtain ⟨s', hs', hinv⟩ := h.readLine_data hdata
    exact ⟨s', hs', hinv, fun hnot => absurd hnot Bool.noConfusion⟩
  | false =>
    refine ⟨s, readLine_not_data (length_results h) hdata hfirst, ?_, fun _ => rfl⟩
    obtain ⟨entries, ⟨hsources, hstems, hresults⟩, hcount⟩ := h
    refine ⟨entries, ⟨?_, hstems, hresults⟩, hcount⟩
    rw [hsources, List.filter_append, List.filter_cons_of_neg (by rw [hdata]; decide),
      List.filter_nil, List.append_nil]

/-- **All lines.** -/
theorem Inv.foldlM {lines : List Str} (h : Inv F numberOfColumns seen s)
    (hfirst : ∀ line ∈ lines, Rejected F numberOfColumns line →
      ∃ part ∈ (splitOn ',' line).head?, F.newFloat part = none) :
    ∃ s', lines.foldlM (ParseResults.readLine F numberOfColumns) s = some s' ∧
      Inv F numberOfColumns (seen ++ lines) s' := by
  induction lines generalizing seen s with
  | nil => exact ⟨s, rfl, by rwa [List.append_nil]⟩
  | cons line lines ih =>
    obtain ⟨s', hs', hinv, -⟩ := h.readLine (hfirst line List.mem_cons_self)
    obtain ⟨s'', hs'', hall⟩ := ih hinv fun l hl => hfirst l (List.mem_cons_of_mem _ hl)
    refine ⟨s'', ?_, ?_⟩
    · rw [List.foldlM_cons, hs']
      exact hs''
    · rwa [List.append_assoc] at hall

/-- The loop over the parts stops at one that is no number. -/
theorem addParts_rejected {results : List (List V)} {parts : List Str}
    (hlength : results.length = parts.length) (hnone : ∃ part ∈ parts, F.newFloat part = none) :
      (addParts F results parts).2 = false := by
  induction parts generalizing results with
  | nil =>
    obtain ⟨part, hpart, -⟩ := hnone
    exact absurd hpart List.not_mem_nil
  | cons part parts ih =>
    obtain ⟨al, results, rfl⟩ := List.exists_cons_of_length_eq_add_one hlength
    rw [addParts]
    cases hvalue : F.newFloat part with
    | none => rfl
    | some value =>
      apply ih (Nat.succ.inj hlength)
      obtain ⟨part', hmem, hpart'⟩ := hnone
      rcases List.mem_cons.mp hmem with rfl | hmem
      · rw [hvalue] at hpart'
        contradiction
      · exact ⟨part', hmem, hpart'⟩

/-- **A line that is rejected behind its first part** adds to the first list. -/
theorem results_ne {s' : State V} (hrejected : Rejected F numberOfColumns line)
    (hfirst : ¬ ∃ part ∈ (splitOn ',' line).head?, F.newFloat part = none)
    (hresults : s.results.length = numberOfColumns)
    (hs' : readLine F numberOfColumns s line = some s') :
    s'.results ≠ s.results := by
  obtain ⟨hlength, hnone⟩ := hrejected
  have hstopped := addParts_rejected (hresults.trans hlength.symm) hnone
  rw [readLine] at hs'
  dsimp only at hs'
  rw [if_pos hlength] at hs'
  generalize splitOn ',' line = parts at hlength hfirst hnone hstopped hs'
  cases parts with
  | nil =>
    obtain ⟨part, hpart, -⟩ := hnone
    exact absurd hpart List.not_mem_nil
  | cons part parts =>
    obtain ⟨al, results, hcons⟩ := List.exists_cons_of_length_eq_add_one (hresults.trans hlength.symm)
    obtain ⟨value, hvalue⟩ := Option.ne_none_iff_exists'.mp fun h => hfirst ⟨part, rfl, h⟩
    rw [hcons, addParts, hvalue] at hstopped hs'
    dsimp only at hstopped hs'
    rw [hstopped] at hs'
    obtain rfl := Option.some.inj hs'
    rw [hcons]
    intro heq
    have hsame := congrArg List.length (List.cons.inj heq).1
    rw [List.length_append, List.length_singleton] at hsame
    omega

/-- **The lists stay aligned if and only if every line that is rejected is rejected at its first
part.** -/
theorem keepsAligned_iff (F : Floats V) (numberOfColumns : ℕ) (lines : List Str) :
    KeepsAligned F numberOfColumns lines ↔
      ∀ line ∈ lines, Rejected F numberOfColumns line →
        ∃ part ∈ (splitOn ',' line).head?, F.newFloat part = none := by
  constructor
  · intro h line hline hrejected
    obtain ⟨seen, rest, hlines⟩ := List.append_of_mem hline
    obtain ⟨s, s', -, hs', ⟨length, hlength⟩, ⟨entries, haligned⟩, hsame⟩ := h seen line rest hlines
    by_contra hfirst
    have hresults : s.results.length = numberOfColumns := by
      rw [← hsame hrejected, haligned.2.2, length_columnsOf]
    exact results_ne hrejected hfirst hresults hs' (hsame hrejected)
  · intro hfirst seen line rest hlines
    have hseen : ∀ l ∈ seen, Rejected F numberOfColumns l → ∃ part ∈ (splitOn ',' l).head?,
        F.newFloat part = none :=
      fun l hl => hfirst l (hlines ▸ List.mem_append_left _ hl)
    have hline := hfirst line (hlines ▸ List.mem_append_right _ List.mem_cons_self)
    obtain ⟨s, hs, hinv⟩ := inv_start.foldlM hseen
    rw [List.nil_append] at hinv
    obtain ⟨s', hs', ⟨entries, haligned, -⟩, hsame⟩ := hinv.readLine hline
    refine ⟨s, s', hs, hs', ⟨_, length_of_aligned haligned⟩, ⟨entries, haligned⟩, fun hrejected => ?_⟩
    have hdata := isData_eq_false_iff.mpr fun _ => hrejected
    rw [hsame hdata]

/-- Whole numbers, as an instance of the parameter. -/
def integers : Floats ℤ :=
  ⟨fun part => (Text.ofDigits? part).map Int.ofNat, 0, (· + ·), fun n d => n / d⟩

/-- **A line that keeps its first numbers**: the last of four parts is no number. -/
theorem not_keepsAligned_last : ¬ KeepsAligned integers 4 ["1,2,3,x".toList] := by
  intro h
  obtain ⟨s, s', hs, hs', ⟨length, hlength⟩, -⟩ := h [] "1,2,3,x".toList [] rfl
  obtain rfl := Option.some.inj hs
  obtain rfl : (⟨[[1], [2], [3], []], 0⟩ : State ℤ) = s' := Option.some.inj hs'
  have hone := hlength [1] (by simp)
  have hzero := hlength [] (by simp)
  rw [← hzero] at hone
  contradiction

end ProbableCause.ParseResults
