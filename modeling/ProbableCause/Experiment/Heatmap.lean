import ProbableCause.Experiment.Script
import ProbableCause.Firmware.Flash
import ProbableCause.ResultProcessing.Aggregate

/-!
# `Experiment.Heatmap` — `heatmap.py`: what the heat map file holds

`overlapped.c` stores one byte for each of the `65536` words of the DRAM, from the base address of
the data on. The script copies them with the loop of `myscript.py`, and with the bounds for a file
that has two more bytes, those of a delay. As the address word `@3100` counts as a position, one
byte too many is copied, whatever the flash contains, and `FlashDumpToAggregate` counts it
(`heatmapFile_never_exact`).
-/

namespace ProbableCause

open Text Overlay Java

/-- The heat map file, for the text of the dump. -/
def heatmapFile (f : Str) : Str :=
  copyLoop (fun position => position == int16 DATA_START + 256 * 256 + 2)
    (fun position => decide (position ≤ int16 DATA_START))
    (words f) (int16 MEMORY_START) 0 ('@' :: DATA_START ++ "\r\n".toList)

/-- **The heat map file is exact**: it has the header, the result of each word of the DRAM in order,
    and the final `q`, and `65536` values are counted in it. -/
def HeatmapExact (mem : ℕ → BitVec 8) (file : Str) : Prop :=
  words file = ('@' :: DATA_START) :: (byteTokens mem (int16 DATA_START) 65536 ++ ["q".toList]) ∧
    ∃ s, FlashDumpToAggregate.readAll file = some s ∧ s.resultCount = 65536

/-! ## The lines of a result file -/

/-- What the copying loop writes for some words, with `linePos` words on the line so far. -/
def copyText : List Str → ℕ → Str
  | [], _ => "\r\nq\r\n".toList
  | word :: words, linePos =>
    if linePos + 1 = 16 then word ++ "\r\n".toList ++ copyText words 0
    else word ++ " ".toList ++ copyText words (linePos + 1)

/-- **The window** of the copying loop, as in `copied_eq`. -/
theorem copyLoop_eq (stop skip : ℕ → Bool) (ws : List Str) {a e p : ℕ}
    (hskip : ∀ p, skip p = true ↔ p ≤ a) (hstop : stop e = true) (hgo : ∀ p < e, stop p = false)
    (hpe : p ≤ e) (hlen : e - p < ws.length) (linePos : ℕ) (r : Str) :
    copyLoop stop skip ws p linePos r = r ++ copyText (slice ws (a + 1 - p) (e - p)) linePos := by
  induction ws generalizing p linePos r with
  | nil => simp at hlen
  | cons word ws ih =>
    rw [copyLoop]
    by_cases hend : p = e
    · -- the loop stops: nothing of the window is left
      rw [hend, if_pos hstop, Nat.sub_self, slice, List.take_zero, List.drop_nil, copyText]
    · have hlt : p < e := by omega
      rw [List.length_cons] at hlen
      have hnext := fun linePos r => ih (show p + 1 ≤ e by omega) (by omega) linePos r
      rw [if_neg (by rw [hgo p hlt]; decide)]
      by_cases hpa : p ≤ a
      · rw [if_pos ((hskip p).mpr hpa), slice_cons_of_le hpa hlt, hnext]
      · rw [if_neg fun h => hpa ((hskip p).mp h), slice_cons_of_lt (by omega) hlt, copyText]
        dsimp only
        split
        · rw [hnext, List.append_assoc, List.append_assoc, List.append_assoc]
        · rw [hnext, List.append_assoc, List.append_assoc, List.append_assoc]

/-- A carriage return and a line feed end the first line. -/
theorem lines_append_crlf {l : Str} (hl : OneLine l) (rest : Str) :
    lines (l ++ "\r\n".toList ++ rest) = l :: lines rest := by
  induction l with
  | nil => rfl
  | cons c l ih =>
    have hc : isBreak c = false := hl c List.mem_cons_self
    have hrest := ih fun x hx => hl x (List.mem_cons_of_mem _ hx)
    rw [List.cons_append, List.cons_append, lines_cons hc, hrest]

/-- A line of tokens with a space at the end. -/
theorem split_flatMap {ts : List Str} (hne : ts ≠ []) (h : ∀ t ∈ ts, (hexByte? t).isSome) :
    split (ts.flatMap fun t => t ++ [' ']) = ts := by
  have hnospace : ∀ t ∈ ts ++ [[]], ' ' ∉ t :=
    List.forall_mem_append.mpr ⟨fun t ht => space_notMem_of_hexByte (h t ht), by simp⟩
  have hpieces : (unwords (ts ++ [[]])).splitOn ' ' = ts ++ [[]] :=
    List.splitOn_intercalate ' ' hnospace
      (List.append_ne_nil_of_right_ne_nil _ (List.cons_ne_nil _ _))
  have hline : (ts.flatMap fun t => t ++ [' ']) = unwords (ts ++ [[]]) := by
    rw [unwords_concat, List.append_nil]
  have hspace : ' ' ∈ ts.flatMap fun t => t ++ [' '] := by
    obtain ⟨t, ts, rfl⟩ := List.exists_cons_of_ne_nil hne
    simp
  rw [split, if_pos hspace, hline, hpieces, List.rdropWhile_concat_pos _ _ _ rfl,
    List.rdropWhile_eq_self_iff]
  intro hne
  simpa using ne_nil_of_hexByte (h _ (List.getLast_mem hne))

theorem oneLine_flatMap {ts : List Str} (h : ∀ t ∈ ts, (hexByte? t).isSome) :
    OneLine (ts.flatMap fun t => t ++ [' ']) := by
  intro c hc
  obtain ⟨t, ht, hc⟩ := List.mem_flatMap.mp hc
  rcases List.mem_append.mp hc with hc | hc
  · exact (hexByte_chars (h t ht) hc).2.1
  · rw [List.mem_singleton.mp hc]
    rfl

namespace FlashDumpToAggregate

/-- A line that starts with a digit is read. -/
theorem skips_append {t : Str} (ht : (hexByte? t).isSome) (rest : Str) :
    skips (t ++ rest) = false := by
  obtain ⟨c, cs, rfl⟩ := List.exists_cons_of_ne_nil (ne_nil_of_hexByte ht)
  have hchars := hexByte_chars ht List.mem_cons_self
  rw [skips, Bool.or_eq_false_iff, beq_eq_false_iff_ne]
  refine ⟨?_, fun h => ?_⟩
  · simpa [Java.startsWith, List.isPrefixOf] using fun h => hchars.2.2.1 h.symm
  · exact hchars.2.2.2 (List.cons.inj h).1

theorem skips_flatMap {ts : List Str} (hne : ts ≠ []) (h : ∀ t ∈ ts, (hexByte? t).isSome) :
    skips (ts.flatMap fun t => t ++ [' ']) = false := by
  obtain ⟨t, ts, rfl⟩ := List.exists_cons_of_ne_nil hne
  rw [List.flatMap_cons, List.append_assoc]
  exact skips_append (h t List.mem_cons_self) _

theorem skips_unwords {ts : List Str} (hne : ts ≠ []) (h : ∀ t ∈ ts, (hexByte? t).isSome) :
    skips (unwords ts) = false := by
  obtain ⟨t, ts, rfl⟩ := List.exists_cons_of_ne_nil hne
  have ht := h t List.mem_cons_self
  cases ts with
  | nil =>
    rw [unwords_singleton, ← List.append_nil t]
    exact skips_append ht []
  | cons t' ts =>
    rw [unwords_cons_cons]
    exact skips_append ht _

/-- **The tokens of a result file** are the words that were copied, if the last line is not empty. -/
theorem tokens_copyText {ts cur : List Str} (hts : ∀ t ∈ ts, (hexByte? t).isSome)
    (hcur : ∀ t ∈ cur, (hexByte? t).isSome) (hlinePos : cur.length < 16)
    (hlast : (cur.length + ts.length) % 16 ≠ 0) :
    tokens (lines (cur.flatMap (fun t => t ++ [' ']) ++ copyText ts cur.length)) = cur ++ ts := by
  induction ts generalizing cur with
  | nil =>
    have hne : cur ≠ [] := by
      rintro rfl
      exact hlast rfl
    have hq : tokens (lines "q\r\n".toList) = [] := by decide
    have hend : copyText [] cur.length = "\r\n".toList ++ "q\r\n".toList := rfl
    rw [hend, ← List.append_assoc, lines_append_crlf (oneLine_flatMap hcur), tokens,
      List.flatMap_cons, skips_flatMap hne hcur, ← tokens, hq, List.append_nil, List.append_nil]
    exact split_flatMap hne hcur
  | cons t ts ih =>
    have ht : (hexByte? t).isSome := hts t List.mem_cons_self
    have hrest : ∀ u ∈ ts, (hexByte? u).isSome := fun u hu => hts u (List.mem_cons_of_mem _ hu)
    have hall : ∀ u ∈ cur ++ [t], (hexByte? u).isSome :=
      List.forall_mem_append.mpr ⟨hcur, List.forall_mem_singleton.mpr ht⟩
    rw [List.length_cons] at hlast
    rw [copyText]
    split
    · -- the line is full
      rename_i hfull
      have hne : cur ++ [t] ≠ [] := List.append_ne_nil_of_right_ne_nil _ (List.cons_ne_nil _ _)
      have hnone : ∀ u ∈ ([] : List Str), (hexByte? u).isSome :=
        fun u hu => absurd hu List.not_mem_nil
      have hempty := ih hrest hnone (by decide) (by rw [List.length_nil]; omega)
      rw [List.flatMap_nil, List.nil_append, List.nil_append, List.length_nil] at hempty
      rw [← List.append_assoc, ← List.append_assoc, ← unwords_concat,
        lines_append_crlf (oneLine_hexBytes hall), tokens, List.flatMap_cons,
        skips_unwords hne hall, ← tokens, hempty]
      simp only [Bool.false_eq_true, if_false]
      rw [split_unwords_hexBytes hne hall, List.append_assoc, List.singleton_append]
    · have hnext := ih hrest hall (by rw [List.length_append, List.length_singleton]; omega)
        (by rw [List.length_append, List.length_singleton]; omega)
      rw [List.flatMap_append, List.flatMap_singleton, List.length_append, List.length_singleton,
        List.append_assoc, List.append_assoc, List.singleton_append] at hnext
      have hspace : t ++ " ".toList ++ copyText ts (cur.length + 1) =
          t ++ ' ' :: copyText ts (cur.length + 1) :=
        List.append_assoc _ _ _
      rw [hspace, hnext, List.append_assoc, List.singleton_append]

end FlashDumpToAggregate

/-! ## The heat map file -/

/-- The script's dump writes a byte as the Java programs do. -/
theorem hexByte?_hexToken (b : BitVec 8) : hexByte? (hexToken b) = some b := by
  have hb : b.toNat < 256 := b.isLt
  have hdigit : ∀ n < 16, hexDigit? (hexChar n) = some n := by decide
  rw [hexToken, hexByte?, hdigit _ (by omega), hdigit _ (by omega)]
  simp [Nat.div_add_mod]

variable {mem : ℕ → BitVec 8} {stop : ℕ} {f : Str}

/-- The words of the heat map file. -/
theorem words_heatmapFile (hstop : int16 DATA_START + 65537 ≤ stop)
    (hf : words f = dumpWords mem stop) :
    words (heatmapFile f) =
      ('@' :: DATA_START) :: (byteTokens mem (int16 DATA_START) 65537 ++ ["q".toList]) := by
  have hlo : int16 MEMORY_START ≤ int16 DATA_START := by decide
  rw [heatmapFile, hf]
  generalize int16 DATA_START = start at hstop hlo ⊢
  rw [Nat.add_assoc start]
  exact words_copyLoop_from mem (show IsWord ('@' :: DATA_START) by decide) hlo
    (show 1 ≤ 256 * 256 + 2 by decide) (by omega)

/-- The text of the heat map file. -/
theorem heatmapFile_eq (hstop : int16 DATA_START + 65537 ≤ stop) (hf : words f = dumpWords mem stop) :
    heatmapFile f = '@' :: DATA_START ++ "\r\n".toList ++
      copyText (byteTokens mem (int16 DATA_START) 65537) 0 := by
  have hlo : int16 MEMORY_START ≤ int16 DATA_START := by decide
  have hlen := length_dumpWords mem stop
  rw [heatmapFile, hf]
  generalize int16 DATA_START = start at hstop hlo ⊢
  have hwindow := slice_dumpWords mem (show 1 ≤ start + 1 - int16 MEMORY_START by omega)
    (show start + 1 - int16 MEMORY_START ≤ start + 65538 - int16 MEMORY_START by omega)
    (show int16 MEMORY_START + (start + 65538 - int16 MEMORY_START) ≤ stop + 1 by omega)
  rw [show int16 MEMORY_START + (start + 1 - int16 MEMORY_START) - 1 = start by omega,
    show start + 65538 - int16 MEMORY_START - (start + 1 - int16 MEMORY_START) =
      65537 by omega] at hwindow
  rw [copyLoop_eq (fun position => position == start + 256 * 256 + 2)
    (fun position => decide (position ≤ start)) _ (fun p => decide_eq_true_iff) (beq_self_eq_true _)
    (fun p hp => by
      rw [beq_eq_false_iff_ne]
      omega) (by omega) (by omega), hwindow]

/-- `FlashDumpToAggregate` counts `65537` values in the heat map file. -/
theorem resultCount_heatmapFile (hstop : int16 DATA_START + 65537 ≤ stop)
    (hf : words f = dumpWords mem stop) :
    ∃ s, FlashDumpToAggregate.readAll (heatmapFile f) = some s ∧ s.resultCount = 65537 := by
  have hhex : ∀ t ∈ byteTokens mem (int16 DATA_START) 65537, (hexByte? t).isSome := by
    intro t ht
    obtain ⟨i, -, rfl⟩ := List.mem_map.mp ht
    rw [hexByte?_hexToken]
    rfl
  have hlength := length_byteTokens mem (int16 DATA_START) 65537
  have hnone : ∀ u ∈ ([] : List Str), (hexByte? u).isSome := fun u hu => absurd hu List.not_mem_nil
  have hdata := FlashDumpToAggregate.tokens_copyText hhex hnone (by decide) (by
    rw [hlength, List.length_nil]
    decide)
  have hskip : FlashDumpToAggregate.skips ('@' :: DATA_START) = true := by decide
  have htokens : FlashDumpToAggregate.tokens (lines (heatmapFile f)) =
      byteTokens mem (int16 DATA_START) 65537 := by
    rw [List.flatMap_nil, List.nil_append, List.nil_append, List.length_nil] at hdata
    rw [heatmapFile_eq hstop hf, lines_append_crlf (by decide), FlashDumpToAggregate.tokens,
      List.flatMap_cons, hskip, if_pos rfl, List.nil_append, ← FlashDumpToAggregate.tokens, hdata]
  have hbytes : (FlashDumpToAggregate.tokens (lines (heatmapFile f))).mapM hexByte? =
      some ((List.range 65537).map fun i => mem (int16 DATA_START + i)) := by
    rw [htokens, mapM_eq_some_iff, byteTokens, List.forall₂_map_left_iff, List.forall₂_map_right_iff]
    exact List.forall₂_same.mpr fun i _ => hexByte?_hexToken _
  obtain ⟨s, hread, -, hcount⟩ := FlashDumpToAggregate.counted_readAll hbytes
  rw [List.length_map, List.length_range] at hcount
  exact ⟨s, hread, hcount⟩

/-- A file with one byte more is not exact. -/
theorem not_exact_of_words {file : Str} (hwords : words file =
      ('@' :: DATA_START) :: (byteTokens mem (int16 DATA_START) 65537 ++ ["q".toList])) :
        ¬ HeatmapExact mem file := by
  intro hexact
  have hlen := congrArg List.length (hwords.symm.trans hexact.1)
  rw [List.length_cons, List.length_cons, List.length_append, List.length_append, length_byteTokens,
    length_byteTokens] at hlen
  omega

/-- **The heat map file is never exact**: the byte behind the results is copied and counted with
them. -/
theorem heatmapFile_never_exact (hstop : int16 DATA_START + 65537 ≤ stop)
    (hf : words f = dumpWords mem stop) :
    words (heatmapFile f) =
        ('@' :: DATA_START) :: (byteTokens mem (int16 DATA_START) 65537 ++ ["q".toList]) ∧
      (∃ s, FlashDumpToAggregate.readAll (heatmapFile f) = some s ∧ s.resultCount = 65537) ∧
      ¬ HeatmapExact mem (heatmapFile f) :=
  ⟨words_heatmapFile hstop hf, resultCount_heatmapFile hstop hf,
    not_exact_of_words (words_heatmapFile hstop hf)⟩

/-- At a dump of erased flash. -/
theorem heatmapFile_never_exact_erased :
    words (heatmapFile (dumpText (fun _ => 0xFF) SEGMENT_DATA_END)) =
        ('@' :: DATA_START) :: (byteTokens (fun _ => 0xFF) (int16 DATA_START) 65537 ++ ["q".toList]) ∧
      (∃ s, FlashDumpToAggregate.readAll
        (heatmapFile (dumpText (fun _ => 0xFF) SEGMENT_DATA_END)) = some s ∧ s.resultCount = 65537) ∧
      ¬ HeatmapExact (fun _ => 0xFF) (heatmapFile (dumpText (fun _ => 0xFF) SEGMENT_DATA_END)) :=
  heatmapFile_never_exact (by decide) (words_dumpText _ _)

/-- A dump on which the script fails: that of erased flash. -/
theorem heatmapFile_erased_long :
    ¬ HeatmapExact (fun _ => 0xFF) (heatmapFile (dumpText (fun _ => 0xFF) SEGMENT_DATA_END)) :=
  not_exact_of_words (words_heatmapFile (by decide) (words_dumpText _ _))

end ProbableCause
