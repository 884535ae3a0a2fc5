import ProbableCause.Fpga.Refresh
import ProbableCause.Lib.Java

/-!
# `Fpga.Hello` — `hello.c`: the test pattern and the log

`writeDataToDram` and `checkDramData` walk over the words of the region with the same counters,
which switch the test pattern after every second row; both advance them only at every other group of
four words. Both loops have the same pattern at each word (`patternAt`), so that a check reports
exactly the half-words that differ from what was written, each by a line with the address of its
word and its half (`checkDramData_eq`).

The log of a run is a list of lines; `printf` ends each of them with a line feed and a carriage
return.
-/

namespace ProbableCause.Fpga.Hello

open Text

/-! ## The loops -/

def DRAM_COLS_PER_ROW : ℕ := 512
def DRAM_BYTES_PER_COL : ℕ := 2
def BYTES_PER_CHECK : ℕ := 4

/-- The words of the region, by index. -/
abbrev Mem := ℕ → BitVec 32

/-- The variables that both loops keep. -/
structure Pattern where
  colCounter : ℕ
  rowCounter : ℕ
  data : BitVec 32

def Pattern.start : Pattern := ⟨0, 0, 0xFFFFFFFF⟩

/-- The words that are checked: every other group of four. -/
def tested (index : ℕ) : Bool := (index >>> 2) % 2 == 0

/-- The end of both loop bodies, at a word that is checked. -/
def Pattern.advance (p : Pattern) : Pattern :=
  let colCounter := p.colCounter + 1
  if colCounter = DRAM_COLS_PER_ROW / (BYTES_PER_CHECK / DRAM_BYTES_PER_COL) then
    let rowCounter := p.rowCounter + 1
    ⟨0, rowCounter, if (rowCounter / 2) % 2 = 0 then 0xFFFFFFFF else 0x0⟩
  else { p with colCounter := colCounter }

/-- The body of the loop of `writeDataToDram`. -/
def writeStep (s : Pattern × Mem) (index : ℕ) : Pattern × Mem :=
  let pBaseAddress := Function.update s.2 index ((s.1.data <<< 16) ||| s.1.data)
  if tested index then (s.1.advance, pBaseAddress) else (s.1, pBaseAddress)

def writeDataToDram (mem : Mem) : Mem :=
  ((List.range (NUM_WORDS_TO_CHECK * ADDRESS_INCREMENT)).foldl writeStep (.start, mem)).2

def farAddress : ℕ := 0x00040000

/-- The line for a word and a half of it:
`printf("0x%8.8X 0\n\r", (unsigned int)&pBaseAddress[index])`. -/
def addressLine (index half : ℕ) : Str :=
  "0x".toList ++ Java.upperHex 8 (farAddress + 4 * index) ++ " ".toList ++ digits half

/-- The variables of `checkDramData`, with the lines printed. -/
structure Check where
  pattern : Pattern
  lines : List Str
  flipCount : ℕ

/-- A comparison that prints a line and counts it if it fails. -/
def Check.report (c : Check) (differs : Bool) (line : Str) : Check :=
  if differs then { c with lines := c.lines ++ [line], flipCount := c.flipCount + 1 } else c

/-- The body of the loop of `checkDramData`. -/
def checkStep (mem : Mem) (c : Check) (index : ℕ) : Check :=
  if tested index then
    let data := c.pattern.data
    let c := c.report ((mem index &&& 0xFFFF) != (data &&& 0xFFFF)) (addressLine index 0)
    let c := c.report ((mem index >>> 16) != (data &&& 0xFFFF)) (addressLine index 1)
    { c with pattern := c.pattern.advance }
  else c

def checkDramData (mem : Mem) : Check :=
  (List.range (NUM_WORDS_TO_CHECK * ADDRESS_INCREMENT)).foldl (checkStep mem) ⟨.start, [], 0⟩

/-! ## The pattern -/

/-- The counters and the pattern at word `n`. -/
def patternAt (n : ℕ) : Pattern :=
  (List.range n).foldl (fun p index => if tested index then p.advance else p) .start

theorem patternAt_succ (n : ℕ) :
    patternAt (n + 1) = if tested n then (patternAt n).advance else patternAt n := by
  rw [patternAt, List.range_succ, List.foldl_append]
  rfl

/-- The pattern is all ones or all zeros. -/
theorem patternAt_data (n : ℕ) : (patternAt n).data = 0xFFFFFFFF ∨ (patternAt n).data = 0 := by
  induction n with
  | zero => exact .inl rfl
  | succ n ih =>
    rw [patternAt_succ]
    split
    · unfold Pattern.advance
      dsimp only
      split
      · dsimp only
        split
        · exact .inl rfl
        · exact .inr rfl
      · exact ih
    · exact ih

/-- The write loop after `n` words. -/
theorem foldl_writeStep (mem : Mem) (n : ℕ) :
    (List.range n).foldl writeStep (.start, mem) =
      (patternAt n, fun index => if index < n
        then ((patternAt index).data <<< 16) ||| (patternAt index).data else mem index) := by
  induction n with
  | zero => rfl
  | succ n ih =>
    rw [List.range_succ, List.foldl_append, ih, List.foldl_cons, List.foldl_nil, writeStep,
      patternAt_succ]
    have hmem : Function.update (fun index => if index < n
          then ((patternAt index).data <<< 16) ||| (patternAt index).data else mem index) n
          (((patternAt n).data <<< 16) ||| (patternAt n).data) =
        fun index => if index < n + 1 then ((patternAt index).data <<< 16) ||| (patternAt index).data
          else mem index := by
      funext index
      by_cases hindex : index = n
      · rw [hindex, Function.update_self, if_pos (Nat.lt_succ_self n)]
      · rw [Function.update_of_ne hindex]
        by_cases hlt : index < n
        · rw [if_pos hlt, if_pos (Nat.lt_succ_of_lt hlt)]
        · rw [if_neg hlt, if_neg (by omega)]
    dsimp only
    rw [hmem]
    split <;> rfl

/-- What `writeDataToDram` stores. -/
theorem writeDataToDram_eq (mem : Mem) {index : ℕ} (h : index < 65536) :
    writeDataToDram mem index = ((patternAt index).data <<< 16) ||| (patternAt index).data := by
  have hloop : writeDataToDram =
      fun mem => ((List.range (NUM_WORDS_TO_CHECK * ADDRESS_INCREMENT)).foldl writeStep
        (.start, mem)).2 := rfl
  have hwords : NUM_WORDS_TO_CHECK * ADDRESS_INCREMENT = 65536 := rfl
  rw [hloop]
  -- the number of words is hidden, so that no step runs the loop
  generalize NUM_WORDS_TO_CHECK * ADDRESS_INCREMENT = n at hwords ⊢
  dsimp only
  rw [foldl_writeStep, hwords]
  exact if_pos h

/-! ## The half-words -/

/-- Half-word `h` of the region; half-word `0` of a word are its lower bits. -/
def halfWord (mem : Mem) (h : ℕ) : BitVec 32 :=
  if h % 2 = 0 then mem (h / 2) &&& 0xFFFF else mem (h / 2) >>> 16

/-- Half-word `h` is not as `writeDataToDram` has stored it; `before` is the memory before that. -/
def differs (before mem : Mem) (h : ℕ) : Bool := halfWord mem h != halfWord (writeDataToDram before) h

/-- The line for a half-word. -/
def halfWordLine (h : ℕ) : Str := addressLine (h / 2) (h % 2)

/-- The half-words of the first `n` words that are checked. -/
def testedHalfWords (n : ℕ) : List ℕ := (List.range (2 * n)).filter fun h => h % 16 < 8

/-- A check compares with what was stored. -/
theorem halfWord_stored (before : Mem) {index : ℕ} (h : index < 65536) :
    halfWord (writeDataToDram before) (2 * index) = (patternAt index).data &&& 0xFFFF ∧
      halfWord (writeDataToDram before) (2 * index + 1) = (patternAt index).data &&& 0xFFFF := by
  unfold halfWord
  rw [if_pos (by omega), if_neg (by omega), show 2 * index / 2 = index by omega,
    show (2 * index + 1) / 2 = index by omega, writeDataToDram_eq before h]
  rcases patternAt_data index with hdata | hdata
  · rw [hdata]
    decide
  · rw [hdata]
    decide

/-- The two half-words of a word, if it is checked. -/
theorem testedHalfWords_succ (n : ℕ) :
    testedHalfWords (n + 1) =
      testedHalfWords n ++ if tested n then [2 * n, 2 * n + 1] else [] := by
  have htested : tested n = decide (n / 4 % 2 = 0) := by
    rw [tested, Nat.shiftRight_eq_div_pow]
    rfl
  rw [testedHalfWords, testedHalfWords, Nat.mul_succ, List.range_succ, List.range_succ, htested]
  simp only [List.filter_append, List.append_assoc]
  by_cases hn : n / 4 % 2 = 0
  · rw [decide_eq_true hn, if_pos rfl, List.filter_cons_of_pos (by simp; omega),
      List.filter_cons_of_pos (by simp; omega)]
    rfl
  · rw [decide_eq_false hn, if_neg (by decide), List.filter_cons_of_neg (by simp; omega),
      List.filter_cons_of_neg (by simp; omega)]
    rfl

/-- A comparison adds its line or nothing. -/
theorem Check.report_eq (c : Check) (differs : Bool) (line : Str) :
    c.report differs line =
      ⟨c.pattern, c.lines ++ if differs then [line] else [], c.flipCount + if differs
        then 1 else 0⟩ := by
  unfold Check.report
  cases differs with
  | false =>
    simp only [Bool.false_eq_true, if_false, List.append_nil, Nat.add_zero]
  | true => rfl

/-- The two comparisons at a word. -/
theorem differs_word (before mem : Mem) {n : ℕ} (hn : n < 65536) :
    differs before mem (2 * n) = ((mem n &&& 0xFFFF) != ((patternAt n).data &&& 0xFFFF)) ∧
      differs before mem (2 * n + 1) = ((mem n >>> 16) != ((patternAt n).data &&& 0xFFFF)) := by
  obtain ⟨hlow, hhigh⟩ := halfWord_stored before hn
  unfold differs
  rw [hlow, hhigh]
  unfold halfWord
  rw [if_pos (by omega), if_neg (by omega), show 2 * n / 2 = n by omega,
    show (2 * n + 1) / 2 = n by omega]
  exact ⟨rfl, rfl⟩

theorem halfWordLine_word (n : ℕ) :
    halfWordLine (2 * n) = addressLine n 0 ∧ halfWordLine (2 * n + 1) = addressLine n 1 := by
  unfold halfWordLine
  rw [show 2 * n / 2 = n by omega, show (2 * n + 1) / 2 = n by omega, show 2 * n % 2 = 0 by omega,
    show (2 * n + 1) % 2 = 1 by omega]
  exact ⟨rfl, rfl⟩

/-- The check loop after `n` words. -/
theorem foldl_checkStep (before mem : Mem) {n : ℕ} (hn : n ≤ 65536) :
    let c := (List.range n).foldl (checkStep mem) ⟨.start, [], 0⟩
    c.pattern = patternAt n ∧
      c.lines = ((testedHalfWords n).filter (differs before mem)).map halfWordLine ∧
      c.flipCount = c.lines.length := by
  induction n with
  | zero => exact ⟨rfl, rfl, rfl⟩
  | succ n ih =>
    obtain ⟨hpattern, hlines, hcount⟩ := ih (by omega)
    rw [List.range_succ, List.foldl_append, List.foldl_cons, List.foldl_nil]
    generalize (List.range n).foldl (checkStep mem) ⟨.start, [], 0⟩ = c at hpattern hlines hcount ⊢
    rw [checkStep, testedHalfWords_succ, patternAt_succ]
    by_cases htested : tested n
    · obtain ⟨hlow, hhigh⟩ := differs_word before mem (n := n) (by omega)
      obtain ⟨hlineLow, hlineHigh⟩ := halfWordLine_word n
      rw [if_pos htested, if_pos htested, if_pos htested, hpattern]
      dsimp only
      rw [Check.report_eq, Check.report_eq]
      dsimp only
      rw [List.filter_append, List.map_append, ← hlines, ← hlow, ← hhigh, ← hlineLow,
        ← hlineHigh, hcount, hpattern]
      cases hl : differs before mem (2 * n) <;> cases hh : differs before mem
        (2 * n + 1) <;> simp [hl, hh]
    · rw [if_neg htested, if_neg htested, if_neg htested, List.append_nil]
      exact ⟨hpattern, hlines, hcount⟩

/-- **A check reports exactly the half-words that differ** from what was stored, in order, and
counts them. -/
theorem checkDramData_eq (before mem : Mem) :
    (checkDramData mem).lines =
      ((testedHalfWords 65536).filter (differs before mem)).map halfWordLine ∧
        (checkDramData mem).flipCount =
          ((testedHalfWords 65536).filter (differs before mem)).length := by
  have hloop : checkDramData mem = (List.range 65536).foldl (checkStep mem) ⟨.start, [], 0⟩ := rfl
  obtain ⟨-, hlines, hcount⟩ := foldl_checkStep before mem (Nat.le_refl 65536)
  rw [← hloop] at hlines hcount
  rw [hcount, hlines, List.length_map]
  exact ⟨rfl, rfl⟩

-- from here on no step may run the loop
attribute [irreducible] checkDramData

/-! ## The log -/

/-- `printTime`. The milliseconds are computed in floating point, from the ticks that are left of
the second. -/
def timeLine (milliseconds : ℕ → ℕ) (pTicks : BitVec 64) : Str :=
  let seconds := (pTicks / CLOCK_FREQ).toNat % 2 ^ 32
  let minutes := seconds / 60
  let seconds := seconds % 60
  digits minutes ++ ":".toList ++ digits seconds ++ ".".toList ++
    (digits (milliseconds (pTicks % CLOCK_FREQ).toNat)).leftpad 3 '0'

/-- What is printed before the first check. `0.999` is `1.00` to two places. -/
def header : List Str :=
  ["Setting the value at address 0x".toList ++ Java.upperHex 8 farAddress,
    "to address 0x".toList ++
    Java.upperHex 8 (farAddress + 4 * (NUM_WORDS_TO_CHECK * ADDRESS_INCREMENT)),
    "Stopping at 1.00 bits failed".toList, "Disabling refresh".toList]

/-- The lines of one check. -/
def checkLines (milliseconds : ℕ → ℕ) (timeToWait : BitVec 64) (mem : Mem) : List Str :=
  timeLine milliseconds timeToWait :: (checkDramData mem).lines ++
    ["Flips: ".toList ++ digits (checkDramData mem).flipCount]

/-- The lines printed from a check on, given what the memory contains at the checks that follow;
    none if the program does not return after the last of them. -/
def checks (milliseconds : ℕ → ℕ) : BitVec 64 → List Mem → Option (List Str)
  | _, [] => none
  | timeToWait, mem :: mems =>
    (program.next timeToWait (checkDramData mem).flipCount).elim
      (if mems = [] then some (checkLines milliseconds timeToWait mem ++ ["DONE".toList]) else none)
      fun timeToWait' => (checks milliseconds timeToWait' mems).map
        (checkLines milliseconds timeToWait mem ++ ·)

/-- The lines of a run that returns after checks with these contents of the memory. -/
def logLines (milliseconds : ℕ → ℕ) (mems : List Mem) : Option (List Str) :=
  (checks milliseconds START_TIME mems).map (header ++ ·)

/-- The text of some lines as `printf` writes them. -/
def printf (ls : List Str) : Str := ls.flatMap fun l => l ++ "\n\r".toList

end ProbableCause.Fpga.Hello
