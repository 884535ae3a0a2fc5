import Mathlib.Algebra.BigOperators.Group.List.Basic
import Mathlib.Algebra.Order.Field.Rat
import ProbableCause.ResultProcessing.ParseResults

/-!
# `ResultProcessing.Decimation` — what `ParseResults` makes of the rows of a table

In exact arithmetic, on a table whose lines all parse. After the rows read so far, the lists are the
columns of `decimate rows`: the averages of the full blocks and then the rows behind them
(`results_of_inv`). The lists hold both at once, so a step either adds a row behind the last full
block (`decimate_row`) or completes a block (`decimate_block`).

The counter of rows is an int. Up to its overflow, and for some rows behind it, it tells where a
block ends; then a block ends too early, and averages are averaged again (`decimation_overflow`).
-/

namespace ProbableCause.ParseResults

open Text Java

/-! ## Blocks and the rest -/

/-- Rational numbers, read in some way. -/
def rationals (newFloat : Str → Option ℚ) : Floats ℚ :=
  ⟨newFloat, 0, (· + ·), fun avg amount => avg / amount⟩

/-- The rows of the data lines. -/
def rowsOf {V : Type} (F : Floats V) (numberOfColumns : ℕ) (lines : List Str) : List (List V) :=
  (lines.filter (isData F numberOfColumns)).filterMap fun line => (splitOn ',' line).mapM F.newFloat

section

variable {α : Type} {average : List α → α} {items : List α} {item : α}

/-- The averages of the first blocks of a hundred items. -/
def blockAverages (average : List α → α) (items : List α) (blocks : ℕ) : List α :=
  (List.range blocks).map fun b => average ((items.drop (100 * b)).take 100)

/-- The averages of the full blocks, and the items behind them. -/
def decimate (average : List α → α) (items : List α) : List α :=
  blockAverages average items (items.length / 100) ++ items.drop (100 * (items.length / 100))

theorem length_decimate (average : List α → α) (items : List α) :
    (decimate average items).length = items.length / 100 + items.length % 100 := by
  rw [decimate, blockAverages, List.length_append, List.length_map, List.length_range,
    List.length_drop]
  omega

/-- The full blocks stay as they are. -/
theorem blockAverages_concat {blocks : ℕ} (hblocks : blocks ≤ items.length / 100) :
    blockAverages average (items ++ [item]) blocks = blockAverages average items blocks := by
  apply List.map_congr_left
  intro b hb
  have hb : b < blocks := List.mem_range.mp hb
  rw [List.drop_append_of_le_length (by omega),
    List.take_append_of_le_length (by rw [List.length_drop]; omega)]

/-- An item behind the full blocks. -/
theorem decimate_row (hrow : (items.length + 1) % 100 ≠ 0) :
    decimate average (items ++ [item]) = decimate average items ++ [item] := by
  have hblocks : (items ++ [item]).length / 100 = items.length / 100 := by
    rw [List.length_append, List.length_singleton]
    omega
  rw [decimate, hblocks, blockAverages_concat (Nat.le_refl _),
    List.drop_append_of_le_length (by omega), ← List.append_assoc, ← decimate]

/-- An item that completes a block. -/
theorem decimate_block (hblock : (items.length + 1) % 100 = 0) :
    ∃ front block, decimate average items ++ [item] = front ++ block ∧ block.length = DEC_AMOUNT ∧
      decimate average (items ++ [item]) = front ++ [average block] := by
  have hblocks : (items ++ [item]).length / 100 = items.length / 100 + 1 := by
    rw [List.length_append, List.length_singleton]
    omega
  have hrest : (items.drop (100 * (items.length / 100)) ++ [item]).length = 100 := by
    rw [List.length_append, List.length_drop, List.length_singleton]
    omega
  have hlast : ((items ++ [item]).drop (100 * (items.length / 100))).take 100 =
      items.drop (100 * (items.length / 100)) ++ [item] := by
    rw [List.drop_append_of_le_length (by omega), List.take_of_length_le hrest.le]
  have hnone : (items ++ [item]).drop (100 * (items.length / 100 + 1)) = [] := by
    rw [List.drop_eq_nil_iff, List.length_append, List.length_singleton]
    omega
  have hfront : blockAverages average (items ++ [item]) (items.length / 100) =
      blockAverages average items (items.length / 100) := blockAverages_concat (Nat.le_refl _)
  have hnew : blockAverages average (items ++ [item]) (items.length / 100 + 1) =
      blockAverages average items (items.length / 100) ++
        [average (items.drop (100 * (items.length / 100)) ++ [item])] := by
    rw [← hfront, blockAverages, List.range_succ, List.map_append,
      List.map_singleton, hlast]
    rfl
  refine ⟨blockAverages average items (items.length / 100),
    items.drop (100 * (items.length / 100)) ++ [item], ?_, hrest, ?_⟩
  · rw [decimate, List.append_assoc]
  · rw [decimate, hblocks, hnew, hnone, List.append_nil]

/-- Decimating column by column. -/
theorem map_decimate {β : Type} {f : α → β} {average' : List β → β}
    (haverage : ∀ block, f (average block) = average' (block.map f)) (items : List α) :
    (decimate average items).map f = decimate average' (items.map f) := by
  rw [decimate, decimate, List.map_append, blockAverages, blockAverages, List.map_map,
    List.length_map, List.map_drop]
  congr 1
  apply List.map_congr_left
  intro b _
  rw [Function.comp_apply, haverage, List.map_take, List.map_drop]

end

/-! ## The lists are decimated -/

variable {V : Type} {F : Floats V} {numberOfColumns : ℕ}

/-- The rows up to which the counter tells where a block ends. -/
def MAX_ROWS : ℕ := 2147483695

/-- The counter of rows, read as an int. -/
theorem toInt_rows {n : ℕ} (hn : n ≤ MAX_ROWS) :
    (BitVec.ofNat 32 n).toInt % 100 = 0 ↔ n % 100 = 0 := by
  rw [MAX_ROWS] at hn
  have hnat : (BitVec.ofNat 32 n).toNat = n := by
    rw [BitVec.toNat_ofNat]
    omega
  rw [BitVec.toInt_eq_toNat_cond, hnat]
  split <;> omega

/-- What the reading loop has made of some rows. -/
def Decimated (F : Floats V) (numberOfColumns : ℕ) (rows : List (List V)) (s : State V) : Prop :=
  s.results = columnsOf F numberOfColumns (decimate (averageRow F numberOfColumns) rows) ∧
    s.resultCount = BitVec.ofNat 32 rows.length

variable {rows : List (List V)} {s : State V} {line : Str}

/-- **One line** of a table whose lines parse. -/
theorem Decimated.readLine (h : Decimated F numberOfColumns rows s)
    (hparse : ¬ Rejected F numberOfColumns line)
    (hfew : (rows ++ rowsOf F numberOfColumns [line]).length ≤ MAX_ROWS) :
    ∃ s', readLine F numberOfColumns s line = some s' ∧
      Decimated F numberOfColumns (rows ++ rowsOf F numberOfColumns [line]) s' := by
  obtain ⟨hresults, hcount⟩ := h
  have hresultsLength : s.results.length = numberOfColumns := by rw [hresults, length_columnsOf]
  cases hdata : isData F numberOfColumns line with
  | false =>
    have hnone : rowsOf F numberOfColumns [line] = [] := by
      rw [rowsOf, List.filter_cons_of_neg (by rw [hdata]; decide), List.filter_nil,
        List.filterMap_nil]
    rw [hnone, List.append_nil]
    exact ⟨s, readLine_not_data hresultsLength hdata fun hrejected => absurd hrejected hparse,
      hresults, hcount⟩
  | true =>
    have hkept : [line].filter (isData F numberOfColumns) = [line] := by
      rw [List.filter_cons_of_pos hdata, List.filter_nil]
    rw [isData, Bool.and_eq_true, decide_eq_true_iff] at hdata
    obtain ⟨hlength, hsome⟩ := hdata
    obtain ⟨row, hrow⟩ := Option.isSome_iff_exists.mp hsome
    have hone : rowsOf F numberOfColumns [line] = [row] := by
      rw [rowsOf, hkept, List.filterMap_cons, hrow, List.filterMap_nil]
    rw [hone, List.length_append, List.length_singleton] at hfew
    have hnext : s.resultCount + 1 = BitVec.ofNat 32 (rows ++ [row]).length := by
      rw [hcount, List.length_append, BitVec.ofNat_add]
      rfl
    have hmod := toInt_rows hfew
    rw [hone]
    by_cases hfull : (rows.length + 1) % 100 = 0
    · obtain ⟨front, block, hsplit, hblock, hdecimate⟩ :
          ∃ front block, decimate (averageRow F numberOfColumns) rows ++ [row] = front ++ block ∧
            block.length = DEC_AMOUNT ∧ decimate (averageRow F numberOfColumns) (rows ++ [row]) =
              front ++ [averageRow F numberOfColumns block] := decimate_block hfull
      refine ⟨_, readLine_block hresults hlength hrow ?_ hsplit hblock, ?_, hnext⟩
      · rw [hnext, List.length_append, List.length_singleton]
        exact hmod.mpr hfull
      · rw [hdecimate]
    · refine ⟨_, readLine_row hresults hlength hrow ?_, ?_, hnext⟩
      · rw [hnext, List.length_append, List.length_singleton]
        exact fun h => hfull (hmod.mp h)
      · rw [decimate_row hfull]

theorem rowsOf_append (lines lines' : List Str) :
    rowsOf F numberOfColumns (lines ++ lines') = rowsOf F numberOfColumns lines ++
      rowsOf F numberOfColumns lines' := by
  rw [rowsOf, rowsOf, rowsOf, List.filter_append, List.filterMap_append]

theorem rowsOf_cons (line : Str) (lines : List Str) :
    rowsOf F numberOfColumns (line :: lines) = rowsOf F numberOfColumns [line] ++
      rowsOf F numberOfColumns lines := by
  rw [rowsOf, rowsOf, rowsOf, ← List.filterMap_append, ← List.filter_append, List.singleton_append]

theorem rowsOf_replicate {line : Str} {row : List V}
    (hone : rowsOf F numberOfColumns [line] = [row]) (k : ℕ) :
    rowsOf F numberOfColumns (List.replicate k line) = List.replicate k row := by
  induction k with
  | zero => rfl
  | succ k ih =>
    rw [List.replicate_succ, rowsOf_cons, hone, ih, List.singleton_append, List.replicate_succ]

/-- **All lines.** -/
theorem Decimated.foldlM {lines : List Str} (h : Decimated F numberOfColumns rows s)
    (hparse : ∀ line ∈ lines, ¬ Rejected F numberOfColumns line)
    (hfew : (rows ++ rowsOf F numberOfColumns lines).length ≤ MAX_ROWS) :
    ∃ s', lines.foldlM (ParseResults.readLine F numberOfColumns) s = some s' ∧
      Decimated F numberOfColumns (rows ++ rowsOf F numberOfColumns lines) s' := by
  induction lines generalizing rows s with
  | nil => exact ⟨s, rfl, by rwa [rowsOf, List.filter_nil, List.filterMap_nil, List.append_nil]⟩
  | cons line lines ih =>
    rw [rowsOf_cons, ← List.append_assoc] at hfew ⊢
    have hfirst : (rows ++ rowsOf F numberOfColumns [line]).length ≤ MAX_ROWS := by
      rw [List.length_append] at hfew
      omega
    obtain ⟨s', hs', hdecimated⟩ := h.readLine (hparse line List.mem_cons_self) hfirst
    obtain ⟨s'', hs'', hall⟩ := ih hdecimated (fun l hl => hparse l (List.mem_cons_of_mem _ hl)) hfew
    refine ⟨s'', ?_, hall⟩
    rw [List.foldlM_cons, hs']
    exact hs''

theorem decimated_start : Decimated F numberOfColumns [] ⟨List.replicate numberOfColumns [], 0⟩ := by
  have hempty : decimate (averageRow F numberOfColumns) [] = [] := by
    rw [decimate, List.length_nil, Nat.zero_div]
    rfl
  refine ⟨?_, rfl⟩
  rw [hempty, columnsOf_nil]

/-- The average of rational numbers. -/
theorem average_rationals (newFloat : Str → Option ℚ) (entries : List ℚ) :
    average (rationals newFloat) entries = entries.sum / 100 := by
  have hadd : entries.foldr (fun value avg => avg + value) 0 = entries.sum := by
    rw [List.sum]
    congr 1
    funext value avg
    exact add_comm _ _
  show entries.foldr (fun value avg => avg + value) 0 / ((100 : ℕ) : ℚ) = _
  rw [hadd, Nat.cast_ofNat]

/-- The numbers in one column of a table. -/
def columnOf (F : Floats V) (numberOfColumns : ℕ) (lines : List Str) (c : ℕ) : List V :=
  (rowsOf F numberOfColumns lines).map fun row => row.getD c F.zero

/-- **Decimation**: each list has the averages of the blocks of a hundred rows, in order, and then
    the rows that fill no block. -/
theorem decimation (newFloat : Str → Option ℚ) (numberOfColumns : ℕ) {lines : List Str}
    (hparse : ∀ line ∈ lines, ¬ Rejected (rationals newFloat) numberOfColumns line) {n : ℕ}
    (hn : (rowsOf (rationals newFloat) numberOfColumns lines).length = n) (hfew : n ≤ MAX_ROWS) :
    ∃ s, readAll (rationals newFloat) numberOfColumns lines = some s ∧
      s.results.length = numberOfColumns ∧ ∀ c < numberOfColumns, ∃ column,
        s.results[c]? = some column ∧ column.length = n / 100 + n % 100 ∧ column =
          ((List.range (n / 100)).map fun b =>
            (((columnOf (rationals newFloat) numberOfColumns lines c).drop
              (100 * b)).take 100).sum / 100) ++
          (columnOf (rationals newFloat) numberOfColumns lines c).drop (100 * (n / 100)) := by
  obtain ⟨s, hs, hresults, -⟩ :=
    decimated_start.foldlM hparse (by rw [List.nil_append, hn]; exact hfew)
  rw [List.nil_append] at hresults
  have hlength : ∀ c, (columnOf (rationals newFloat) numberOfColumns lines c).length = n := by
    intro c
    rw [columnOf, List.length_map, hn]
  refine ⟨s, hs, by rw [hresults, length_columnsOf], fun c hc => ?_⟩
  refine ⟨decimate (fun block => block.sum / 100)
    (columnOf (rationals newFloat) numberOfColumns lines c), ?_, ?_, ?_⟩
  · have haverage : ∀ block : List (List ℚ),
        (averageRow (rationals newFloat) numberOfColumns block).getD c (rationals newFloat).zero =
          (block.map fun row => row.getD c (rationals newFloat).zero).sum / 100 := by
      intro block
      rw [getD_averageRow hc, average_rationals]
    have hcolumn : (decimate (averageRow (rationals newFloat) numberOfColumns)
          (rowsOf (rationals newFloat) numberOfColumns lines)).map
            (fun row => row.getD c (rationals newFloat).zero) =
        decimate (fun block => block.sum / 100)
            (columnOf (rationals newFloat) numberOfColumns lines c) :=
      map_decimate haverage _
    rw [hresults, columnsOf, List.getElem?_map, List.getElem?_range hc, Option.map_some, hcolumn]
  · rw [length_decimate, hlength]
  · rw [decimate, blockAverages, hlength]

/-- Decimal numerals, as an instance of the parameter. -/
def numerals : Str → Option ℚ := fun part => (Text.ofDigits? part).map fun (n : ℕ) => (n : ℚ)

/-- A line that is no data, `150` rows of one kind and `101` of another: the rows of two blocks, and
`51` that fill none. -/
def table : List Str :=
  "volts,amps,ohms".toList :: (List.replicate 150 "3,1".toList ++ List.replicate 101 "5,2".toList)

theorem decimation_table :
    ∃ s, readAll (rationals numerals) 2 table = some s ∧ s.results.length = 2 ∧
      ∀ c < 2, ∃ column, s.results[c]? = some column ∧ column.length = 251 / 100 + 251 % 100 ∧
        column =
          ((List.range (251 / 100)).map fun b =>
            (((columnOf (rationals numerals) 2 table c).drop (100 * b)).take 100).sum / 100) ++
          (columnOf (rationals numerals) 2 table c).drop (100 * (251 / 100)) := by
  have hdata : ∀ line ∈ ["3,1".toList, "5,2".toList], isData (rationals numerals) 2 line =
    true := by decide
  refine decimation numerals 2 ?_ ?_ (by decide)
  · intro line hline
    rcases List.mem_cons.mp hline with rfl | hline
    · exact fun hrejected => absurd hrejected.1 (by decide)
    · refine not_rejected (hdata line ?_)
      rcases List.mem_append.mp hline with hline | hline <;> rw
        [List.eq_of_mem_replicate hline] <;> decide
  · have hthree : rowsOf (rationals numerals) 2 ["3,1".toList] = [[((3 : ℕ) : ℚ), ((1 : ℕ) : ℚ)]] :=
      rfl
    have hfive : rowsOf (rationals numerals) 2 ["5,2".toList] = [[((5 : ℕ) : ℚ), ((2 : ℕ) : ℚ)]] :=
      rfl
    have hno : rowsOf (rationals numerals) 2 ["volts,amps,ohms".toList] = [] := rfl
    rw [table, rowsOf_cons, hno, rowsOf_append, rowsOf_replicate hthree, rowsOf_replicate hfive,
      List.nil_append, List.length_append, List.length_replicate, List.length_replicate]

/-! ## Too many rows -/

/-- The row behind the last for which the counter is right: four averages are averaged with `96`
rows. -/
theorem exists_overflow {line : Str} {row : List V} (hdata : isData F 1 line = true)
    (hrow : (splitOn ',' line).mapM F.newFloat = some row) {k : ℕ} (hk : k = MAX_ROWS) :
    ∃ s column, readAll F 1 (List.replicate (k + 1) line) = some s ∧ s.results = [column] ∧
      column.length = 21474833 := by
  have hone : rowsOf F 1 [line] = [row] := by
    rw [rowsOf, List.filter_cons_of_pos hdata, List.filter_nil, List.filterMap_cons, hrow,
      List.filterMap_nil]
  have hparse : ∀ l ∈ List.replicate k line, ¬ Rejected F 1 l := by
    intro l hl
    rw [List.eq_of_mem_replicate hl]
    exact not_rejected hdata
  have hrows : ([] ++ rowsOf F 1 (List.replicate k line)).length = k := by
    rw [List.nil_append, rowsOf_replicate hone, List.length_replicate]
  obtain ⟨s, hs, hresults, hcount⟩ := decimated_start.foldlM hparse (by rw [hrows, hk])
  generalize [] ++ rowsOf F 1 (List.replicate k line) = rows at hrows hresults hcount
  have hlength : (decimate (averageRow F 1) rows ++ [row]).length = 21474932 := by
    rw [List.length_append, length_decimate, hrows, hk]
    rfl
  have henough : DEC_AMOUNT ≤ (decimate (averageRow F 1) rows ++ [row]).length := by
    rw [hlength]
    decide
  obtain ⟨front, block, hsplit, hblock⟩ := exists_block henough
  have hfull : (s.resultCount + 1).toInt % 100 = 0 := by
    rw [hcount, hrows, hk]
    decide
  have hparts : (splitOn ',' line).length = 1 := by
    rw [isData, Bool.and_eq_true, decide_eq_true_iff] at hdata
    exact hdata.1
  have hlast := readLine_block hresults hparts hrow hfull hsplit hblock
  have hfront : front.length = 21474832 := by
    rw [hsplit, List.length_append, hblock, DEC_AMOUNT] at hlength
    omega
  refine ⟨⟨columnsOf F 1 (front ++ [averageRow F 1 block]), s.resultCount + 1⟩,
    (front ++ [averageRow F 1 block]).map fun row => row.getD 0 F.zero, ?_, rfl, ?_⟩
  · rw [readAll, @List.replicate_succ' k, List.foldlM_append, hs, Option.bind_eq_bind,
      Option.bind_some, List.foldlM_cons, hlast]
    rfl
  · rw [List.length_map, List.length_append, List.length_singleton, hfront]

/-- **The counter overflows**: after `2147483696` rows, some of the averages are averaged again. -/
theorem decimation_overflow :
    (∀ line ∈ List.replicate 2147483696 "0".toList, ¬ Rejected (rationals numerals) 1 line) ∧
      (rowsOf (rationals numerals) 1 (List.replicate 2147483696 "0".toList)).length = 2147483696 ∧
      ∃ s column, readAll (rationals numerals) 1 (List.replicate 2147483696 "0".toList) = some s ∧
        s.results = [column] ∧ column.length = 21474833 ∧
        column.length ≠ 2147483696 / 100 + 2147483696 % 100 := by
  have hdata : isData (rationals numerals) 1 "0".toList = true := by decide
  have hrow : (splitOn ',' "0".toList).mapM (rationals numerals).newFloat = some [((0 : ℕ) : ℚ)] :=
    rfl
  have hone : rowsOf (rationals numerals) 1 ["0".toList] = [[((0 : ℕ) : ℚ)]] := rfl
  refine ⟨?_, ?_, ?_⟩
  · intro line hline
    rw [List.eq_of_mem_replicate hline]
    exact not_rejected hdata
  · rw [rowsOf_replicate hone, List.length_replicate]
  · obtain ⟨s, column, hs, hresults, hlength⟩ := exists_overflow hdata hrow (k := MAX_ROWS) rfl
    exact ⟨s, column, hs, hresults, hlength, by rw [hlength]; decide⟩

end ProbableCause.ParseResults
