import ProbableCause.Lib.Java
import Mathlib.Logic.Function.Basic

/-!
# `Fpga.ProcessResults` — `ProcessFPGAResults.java`

The program reads a log line by line. A line with a time sets the current time; a line with an
address and a half is a result, which is kept with the current time when it is seen first
(`readLine`). Then it puts the times into an array by half-word (`save`) and prints the part of it
that is tested as a matrix (`printResult`).

`save_all` is the array and the largest time after all results, whatever the order of the key set,
and `print_all` the text of the matrix. What goes to the error stream is left out; an exception that
ends the program is `none`.
-/

namespace ProbableCause.Fpga.ProcessFPGAResults

open Text

def NUM_COLS_PER_ROW : ℕ := 512

/-! ## Reading the log -/

/-- The variables of the reading loop. -/
structure Reading where
  currentTime : Option Str
  resultsMap : List (Str × Option Str)

def Reading.containsKey (r : Reading) (key : Str) : Bool := r.resultsMap.any fun e => e.1 == key

/-- The body of the reading loop. -/
def readLine (r : Reading) (line : Str) : Option Reading :=
  if line.length = 0 then some r
  else if Java.endsWith line ".000".toList && line.contains ':' then do
    let minutes ← (Java.substring line 0 (Java.indexOf line ':')).bind (Java.parseInt 10)
    let seconds ← (Java.substring line (Java.indexOf line ':' + 1) (Java.indexOf line '.')).bind
      (Java.parseInt 10)
    some { r with currentTime := some (Java.ofInt (minutes * 60 + seconds).toInt) }
  else if Java.length line = 12 && Java.startsWith line "0x0".toList &&
      (Java.endsWith line " 0".toList || Java.endsWith line " 1".toList) then
    if r.containsKey line then some r
    else
      -- the exception of a line that is no address is caught
      match (Java.substring line 2 (Java.indexOf line ' ')).bind (Java.parseLong 16) with
      | some _ => some { r with resultsMap := r.resultsMap ++ [(line, r.currentTime)] }
      | none => some r
  else some r

def readAll (text : Str) : Option Reading := (Java.lines text).foldlM readLine ⟨none, []⟩

/-! ## The array of results -/

def min : BitVec 64 := 0x40000
def max : BitVec 64 := 0x7FFFC
def numDRAMWords : BitVec 32 := ((max - min).sshiftRight 1).setWidth 32
def numResultsMax : BitVec 32 := numDRAMWords + 2

/-- The array, and the largest result in it. -/
structure Results where
  resultsArray : ℕ → BitVec 32
  maxDelay : BitVec 32

/-- The body of the loop over the key set, for a key and its value. A value that is null, like an
    index out of bounds, is an exception. -/
def save (s : Results) (entry : Str × Option Str) : Option Results := do
  let value ← (Java.substring entry.1 2 (Java.indexOf entry.1 ' ')).bind (Java.parseLong 16)
  let current := (value - min).sshiftRight 1
  if numResultsMax.toInt ≤ current.toInt ∨ current.toInt < 0 then some s
  else
    let current := current + if Java.endsWith entry.1 "0".toList then 0 else 1
    let result ← entry.2.bind (Java.parseInt 10)
    if current.toNat < numResultsMax.toNat then
      some
        { resultsArray := Function.update s.resultsArray current.toNat result
          maxDelay := if result.toInt > s.maxDelay.toInt then result else s.maxDelay }
    else none

/-- The loop over the key set, in the order that the map gives its entries. -/
def saveAll (entries : List (Str × Option Str)) : Option Results :=
  entries.foldlM save ⟨fun _ => 0, 0⟩

/-! ## The matrix -/

/-- The variables of the printing loop, with the text printed. -/
structure Printing where
  out : Str
  resultsPrinted : ℕ
  uCount : ℕ

/-- The body of the printing loop. -/
def printResult (s : Results) (p : Printing) (index : ℕ) : Printing :=
  let p :=
    if p.uCount >>> 3 = 0 then
      let result := if s.resultsArray index ≠ 0 then s.resultsArray index else s.maxDelay + 5
      { p with
        out := p.out ++ Java.ofInt result.toInt ++
          if (p.resultsPrinted + 1) % NUM_COLS_PER_ROW = 0 then "\n".toList else " ".toList
        resultsPrinted := p.resultsPrinted + 1 }
    else p
  { p with uCount := if p.uCount + 1 = 16 then 0 else p.uCount + 1 }

def printAll (s : Results) : Str :=
  ((List.range numResultsMax.toNat).foldl (printResult s) ⟨[], 0, 0⟩).out

/-- The standard output for a log; `order` is the order in which the map gives its entries. -/
def main (order : List (Str × Option Str) → List (Str × Option Str)) (text : Str) : Option Str := do
  let reading ← readAll text
  let results ← saveAll (order reading.resultsMap)
  some (printAll results)

/-! ## The lines of a log -/

/-- A line with a time in minutes and seconds. -/
def timeOf (minutes seconds : ℕ) : Str :=
  digits minutes ++ ":".toList ++ digits seconds ++ ".000".toList

/-- A line with an address and a half. -/
def resultOf (address half : ℕ) : Str :=
  "0x".toList ++ Java.upperHex 8 address ++ " ".toList ++ digits half

variable {r : Reading} {line : Str}

theorem not_mem_digits {c : Char} (hc : c.isDigit = false) (n : ℕ) : c ∉ digits n := by
  intro hmem
  rw [isDigit_of_mem_digits hmem] at hc
  contradiction

/-- The only dot of a time is the one before the milliseconds. -/
theorem dot_notMem_seconds (minutes seconds : ℕ) :
    '.' ∉ digits minutes ++ ":".toList ++ digits seconds := by
  rw [List.mem_append, List.mem_append]
  rintro ((h | h) | h)
  · exact not_mem_digits (by decide) _ h
  · exact absurd h (by decide)
  · exact not_mem_digits (by decide) _ h

/-- A line with a time sets the current time. -/
theorem readLine_timeOf {minutes seconds : ℕ} (hminutes : minutes < 2 ^ 31)
    (hseconds : seconds < 2 ^ 31) :
    readLine r (timeOf minutes seconds) =
      some { r with
        currentTime := some (Java.ofInt
          (BitVec.ofNat 32 minutes * 60 + BitVec.ofNat 32 seconds).toInt) } := by
  have hcolon : ':' ∉ digits minutes := not_mem_digits (by decide) _
  have hdot := dot_notMem_seconds minutes seconds
  have hline : timeOf minutes seconds =
      digits minutes ++ ':' :: (digits seconds ++ ".000".toList) := by
    rw [timeOf, List.append_assoc, List.append_assoc]
    rfl
  have hline' : timeOf minutes seconds = (digits minutes ++ ":".toList ++ digits seconds) ++
      '.' :: "000".toList :=
    rfl
  have hne : (timeOf minutes seconds).length ≠ 0 := by
    rw [hline, List.length_append, List.length_cons]
    omega
  have hends : (Java.endsWith (timeOf minutes seconds) ".000".toList &&
      (timeOf minutes seconds).contains ':') = true := by
    rw [Bool.and_eq_true]
    refine ⟨Java.endsWith_append _ _, List.contains_iff_mem.mpr ?_⟩
    rw [hline]
    exact List.mem_append_right _ List.mem_cons_self
  have hfirst : Java.substring (timeOf minutes seconds) 0
      (Java.indexOf (timeOf minutes seconds) ':') = some (digits minutes) := by
    rw [hline, Java.indexOf_append hcolon]
    have hmiddle := Java.substring_append [] (digits minutes)
      (':' :: (digits seconds ++ ".000".toList))
    rwa [List.nil_append, List.length_nil, Nat.zero_add] at hmiddle
  have hsecond : Java.substring (timeOf minutes seconds)
    (Java.indexOf (timeOf minutes seconds) ':' + 1)
      (Java.indexOf (timeOf minutes seconds) '.') = some (digits seconds) := by
    have hindex : Java.indexOf (timeOf minutes seconds) ':' + 1 =
        (digits minutes ++ ":".toList).length := by
      rw [hline, Java.indexOf_append hcolon, List.length_append]
      rfl
    have hmiddle := Java.substring_append (digits minutes ++ ":".toList) (digits seconds)
      ('.' :: "000".toList)
    rw [← List.length_append] at hmiddle
    rw [hindex, hline', Java.indexOf_append hdot]
    exact hmiddle
  rw [readLine, if_neg hne, if_pos hends, hfirst, hsecond, Option.bind_some,
    Option.bind_some, Java.parseInt, Java.parse_digits hminutes, Java.parseInt,
    Java.parse_digits hseconds]
  rfl

/-- The characters of a line with an address. -/
theorem not_mem_resultOf {c : Char} (hx : c ∉ "0x ".toList) (hhex : Java.digit 16 c = none)
    (hdigit : c.isDigit = false) (address half : ℕ) : c ∉ resultOf address half := by
  unfold resultOf
  rw [List.mem_append, List.mem_append, List.mem_append]
  rintro (((h | h) | h) | h)
  · exact hx (List.mem_append_left [' '] h)
  · exact Java.digit_of_mem_upperHex h hhex
  · exact hx (List.mem_append_right ['0', 'x'] h)
  · exact not_mem_digits hdigit half h

theorem unit_of_mem_resultOf {address half : ℕ} {c : Char} (hc : c ∈ resultOf address half) :
    c.toNat < 0x10000 := by
  by_contra hlarge
  have hx : c ∉ "0x ".toList := by
    intro hmem
    have hcases : c = '0' ∨ c = 'x' ∨ c = ' ' := by simpa using hmem
    rcases hcases with rfl | rfl | rfl <;> exact absurd (by decide) hlarge
  have hhex : Java.digit 16 c = none := by
    by_contra hdigit
    exact hlarge (Java.toNat_of_digit hdigit).2
  have hdigit : c.isDigit = false := by
    rw [Bool.eq_false_iff]
    intro h
    exact hlarge (Nat.lt_of_le_of_lt (Char.isDigit_iff_toNat.mp h).2 (by decide))
  exact not_mem_resultOf hx hhex hdigit address half hc

/-- The address of a line. -/
theorem substring_resultOf (address half : ℕ) :
    Java.substring (resultOf address half) 2 (Java.indexOf (resultOf address half) ' ') =
      some (Java.upperHex 8 address) := by
  have hspace : ' ' ∉ "0x".toList ++ Java.upperHex 8 address := by
    rw [List.mem_append]
    rintro (h | h)
    · exact absurd h (by decide)
    · exact Java.digit_of_mem_upperHex h (by decide)
  have hline : resultOf address half = ("0x".toList ++ Java.upperHex 8 address) ++
      ' ' :: digits half := by
    rw [resultOf, List.append_assoc]
    rfl
  have hmiddle := Java.substring_append "0x".toList (Java.upperHex 8 address) (' ' :: digits half)
  rw [← List.length_append] at hmiddle
  rw [hline, Java.indexOf_append hspace]
  exact hmiddle

/-- A line with an address is a result, kept with the current time if it is new. -/
theorem readLine_resultOf {address half : ℕ} (haddress : address < 16 ^ 7) (hhalf : half < 2) :
    readLine r (resultOf address half) =
      some (if r.containsKey (resultOf address half) then r
        else { r with resultsMap := r.resultsMap ++ [(resultOf address half, r.currentTime)] }) := by
  have haddress8 : address < 16 ^ 8 := Nat.lt_trans haddress (by decide)
  have hdigits : digits half = ['0'] ∨ digits half = ['1'] := by
    rcases Nat.lt_succ_iff_lt_or_eq.mp hhalf with h | rfl
    · rw [Nat.lt_one_iff.mp h]
      exact .inl rfl
    · exact .inr rfl
  have hlength : (resultOf address half).length = 12 := by
    have hhex : (Java.upperHex 8 address).length = 8 := Java.length_upperHex (by decide) haddress8
    rw [resultOf, List.length_append, List.length_append, List.length_append, hhex]
    rcases hdigits with h | h <;> rw [h] <;> rfl
  have hzero : Java.upperHex 8 address = '0' :: Java.upperHex 7 address :=
    Java.upperHex_add (by decide) haddress 1
  have hstarts : Java.startsWith (resultOf address half) "0x0".toList = true := by
    rw [Java.startsWith, List.isPrefixOf_iff_prefix, resultOf, hzero]
    exact ⟨Java.upperHex 7 address ++ " ".toList ++ digits half, rfl⟩
  have hends : (Java.endsWith (resultOf address half) " 0".toList ||
      Java.endsWith (resultOf address half) " 1".toList) = true := by
    rw [Bool.or_eq_true, resultOf, List.append_assoc]
    rcases hdigits with h | h
    · rw [h]
      exact .inl (Java.endsWith_append _ _)
    · rw [h]
      exact .inr (Java.endsWith_append _ _)
  have htime : ¬ (Java.endsWith (resultOf address half) ".000".toList &&
    (resultOf address half).contains ':') =
      true := by
    intro h
    rw [Bool.and_eq_true] at h
    exact not_mem_resultOf (by decide) (by decide) (by decide) address half
      (Java.mem_of_endsWith h.1 (show '.' ∈ ".000".toList by decide))
  have hne : (resultOf address half).length ≠ 0 := by
    rw [hlength]
    decide
  have hunits : Java.length (resultOf address half) = 12 := by
    rw [Java.length_eq_length fun c hc => unit_of_mem_resultOf hc, hlength]
  have hresult : (decide (Java.length (resultOf address half) = 12) &&
      Java.startsWith (resultOf address half) "0x0".toList &&
        (Java.endsWith (resultOf address half) " 0".toList || Java.endsWith
            (resultOf address half) " 1".toList)) = true := by
    rw [decide_eq_true hunits, hstarts, hends]
    rfl
  rw [readLine, if_neg hne, if_neg htime, if_pos hresult, substring_resultOf, Option.bind_some,
    Java.parseLong, Java.parse_upperHex 8 (Nat.lt_trans haddress8 (by decide))]
  split <;> rfl

/-- Any other line is passed over. -/
theorem readLine_other (hends : Java.endsWith line ".000".toList = false)
    (hstarts : Java.startsWith line "0x0".toList = false) : readLine r line = some r := by
  rw [readLine]
  by_cases hempty : line.length = 0
  · rw [if_pos hempty]
  · rw [if_neg hempty, hends, Bool.false_and, if_neg Bool.false_ne_true, hstarts, Bool.and_false,
      Bool.false_and, if_neg Bool.false_ne_true]

/-- So are any number of them. -/
theorem foldlM_readLine_other {lines : List Str}
    (h : ∀ line ∈ lines, Java.endsWith line ".000".toList = false ∧
      Java.startsWith line "0x0".toList = false) : lines.foldlM readLine r = some r := by
  induction lines with
  | nil => rfl
  | cons line lines ih =>
    obtain ⟨hends, hstarts⟩ := h line List.mem_cons_self
    rw [List.foldlM_cons, readLine_other hends hstarts]
    exact ih fun line' hmem => h line' (List.mem_cons_of_mem _ hmem)

/-! ## Saving the results -/

/-- The line of half-word `h` of the region. -/
def halfWordOf (h : ℕ) : Str := resultOf (0x40000 + 4 * (h / 2)) (h % 2)

/-- The entry of half-word `h`, with a time in seconds. -/
def entryOf (time : ℕ → ℕ) (h : ℕ) : Str × Option Str := (halfWordOf h, some (digits (time h)))

/-- Different half-words have different lines. -/
theorem halfWordOf_inj {h h' : ℕ} (heq : halfWordOf h = halfWordOf h') : h = h' := by
  have hhex : Java.upperHex 8 (0x40000 + 4 * (h / 2)) = Java.upperHex 8 (0x40000 + 4 * (h' / 2)) := by
    have hsub := substring_resultOf (0x40000 + 4 * (h / 2)) (h % 2)
    rw [show resultOf (0x40000 + 4 * (h / 2)) (h % 2) = halfWordOf h from rfl, heq] at hsub
    exact Option.some.inj (hsub.symm.trans (substring_resultOf _ _))
  have haddress : 0x40000 + 4 * (h / 2) = 0x40000 + 4 * (h' / 2) := by
    have hread := Java.parseUnsigned_upperHex 8 (0x40000 + 4 * (h / 2))
    rw [hhex] at hread
    exact Option.some.inj (hread.symm.trans (Java.parseUnsigned_upperHex _ _))
  have hhalf : h % 2 = h' % 2 := by
    unfold halfWordOf resultOf at heq
    rw [hhex] at heq
    exact digits_inj.mp (List.append_cancel_left heq)
  omega

/-- The offset of a word from the start of the region, in half-words. -/
theorem offset_eq {w : ℕ} (hw : w < 65536) :
    (BitVec.ofNat 64 (0x40000 + 4 * w) - min).sshiftRight 1 = BitVec.ofNat 64 (2 * w) := by
  have hbytes : BitVec.ofNat 64 (0x40000 + 4 * w) - min = BitVec.ofNat 64 (4 * w) := by
    rw [BitVec.ofNat_add, BitVec.add_comm]
    exact BitVec.add_sub_cancel _ _
  have hmsb : (BitVec.ofNat 64 (4 * w)).msb = false := by
    rw [BitVec.msb_eq_false_iff_two_mul_lt, BitVec.toNat_ofNat]
    omega
  rw [hbytes, BitVec.sshiftRight_eq_of_msb_false hmsb]
  apply BitVec.eq_of_toNat_eq
  rw [BitVec.toNat_ushiftRight, BitVec.toNat_ofNat, BitVec.toNat_ofNat, Nat.shiftRight_eq_div_pow]
  omega

theorem numResultsMax_eq : numResultsMax.toNat = 0x20000 ∧ numResultsMax.toInt = 0x20000 := by decide

/-- The half is told by the last character. -/
theorem endsWith_halfWordOf (h : ℕ) :
    (if Java.endsWith (halfWordOf h) "0".toList then 0 else 1 : BitVec 64) =
      BitVec.ofNat 64 (h % 2) := by
  unfold halfWordOf resultOf
  rcases Nat.mod_two_eq_zero_or_one h with hh | hh
  · rw [hh, show digits 0 = "0".toList from rfl, if_pos (Java.endsWith_append _ _)]
    rfl
  · rw [hh, if_neg]
    · rfl
    · rw [Java.endsWith, List.isSuffixOf_iff_suffix]
      rintro ⟨front, hfront⟩
      have hlast : "0".toList = digits 1 := (List.append_inj' hfront rfl).2
      exact absurd hlast (by decide)

variable {s : Results}

/-- A result goes to its place. -/
theorem save_entryOf {time : ℕ → ℕ} {h : ℕ} (hh : h < 0x20000) (htime : time h < 2 ^ 31) :
    save s (entryOf time h) =
      some
        { resultsArray := Function.update s.resultsArray h (BitVec.ofNat 32 (time h))
          maxDelay := if (BitVec.ofNat 32 (time h)).toInt > s.maxDelay.toInt
            then BitVec.ofNat 32 (time h)
            else s.maxDelay } := by
  have hvalue : (Java.substring (entryOf time h).1 2 (Java.indexOf (entryOf time h).1 ' ')).bind
      (Java.parseLong 16) = some (BitVec.ofNat 64 (0x40000 + 4 * (h / 2))) := by
    rw [show (entryOf time h).1 = resultOf (0x40000 + 4 * (h / 2)) (h % 2) from rfl,
      substring_resultOf, Option.bind_some, Java.parseLong, Java.parse_upperHex 8 (by omega)]
  have hresult : (entryOf time h).2.bind (Java.parseInt 10) = some (BitVec.ofNat 32 (time h)) := by
    rw [show (entryOf time h).2 = some (digits (time h)) from rfl, Option.bind_some, Java.parseInt,
      Java.parse_digits htime]
  have hinside : ¬ (numResultsMax.toInt ≤ (BitVec.ofNat 64 (2 * (h / 2))).toInt ∨
      (BitVec.ofNat 64 (2 * (h / 2))).toInt < 0) := by
    have hint : (BitVec.ofNat 64 (2 * (h / 2))).toInt = (2 * (h / 2) : ℕ) := by
      rw [BitVec.toInt_eq_toNat_of_lt (by rw [BitVec.toNat_ofNat]; omega), BitVec.toNat_ofNat,
        Nat.mod_eq_of_lt (by omega)]
    rw [hint, numResultsMax_eq.2]
    omega
  have hcurrent : (BitVec.ofNat 64 (2 * (h / 2)) + BitVec.ofNat 64 (h % 2)).toNat = h := by
    rw [← BitVec.ofNat_add, BitVec.toNat_ofNat, Nat.mod_eq_of_lt (by omega)]
    omega
  have hhalf := endsWith_halfWordOf h
  rw [save, hvalue, Option.bind_eq_bind, Option.bind_some, offset_eq (by omega),
    if_neg hinside, hresult, Option.bind_eq_bind, Option.bind_some]
  rw [show (entryOf time h).1 = halfWordOf h from rfl, hhalf, hcurrent, numResultsMax_eq.1, if_pos hh]

/-- The largest of some times. -/
def largest : List ℕ → ℕ
  | [] => 0
  | t :: ts => Max.max t (largest ts)

theorem largest_le {ts : List ℕ} {n : ℕ} : largest ts ≤ n ↔ ∀ t ∈ ts, t ≤ n := by
  induction ts with
  | nil => simp [largest]
  | cons t ts ih => rw [largest, Nat.max_le, List.forall_mem_cons, ih]

/-- Only what the times are matters. -/
theorem largest_congr {ts us : List ℕ} (h : ∀ t, t ∈ ts ↔ t ∈ us) : largest ts = largest us := by
  apply Nat.le_antisymm
  · rw [largest_le]
    intro t ht
    exact largest_le.mp (Nat.le_refl _) t ((h t).mp ht)
  · rw [largest_le]
    intro t ht
    exact largest_le.mp (Nat.le_refl _) t ((h t).mpr ht)

theorem largest_lt {ts : List ℕ} {n : ℕ} (hn : 0 < n) (h : ∀ t ∈ ts, t < n) : largest ts < n := by
  have hle : largest ts ≤ n - 1 := largest_le.mpr fun t ht => Nat.le_sub_one_of_lt (h t ht)
  omega

theorem largest_concat (ts : List ℕ) (t : ℕ) :
    largest (ts ++ [t]) = if t > largest ts then t else largest ts := by
  have hfront : largest (ts ++ [t]) = largest (t :: ts) :=
    largest_congr fun u => (List.perm_append_singleton t ts).mem_iff
  rw [hfront, largest]
  split <;> omega

/-- **The array and the largest time** after all results. -/
theorem saveAll_map (time : ℕ → ℕ) {hs : List ℕ} (hh : ∀ h ∈ hs, h < 0x20000)
    (htime : ∀ h ∈ hs, time h < 2 ^ 31) :
    saveAll (hs.map (entryOf time)) =
      some ⟨fun h => if h ∈ hs then BitVec.ofNat 32 (time h)
        else 0, BitVec.ofNat 32 (largest (hs.map time))⟩ := by
  rw [saveAll]
  induction hs using List.reverseRecOn with
  | nil => simp [largest]
  | append_singleton hs h ih =>
    have hlast : h ∈ hs ++ [h] := List.mem_append_right _ (List.mem_singleton.mpr rfl)
    have hlt : largest (hs.map time) < 2 ^ 31 := by
      apply largest_lt (by decide)
      intro t ht
      obtain ⟨h', hh', rfl⟩ := List.mem_map.mp ht
      exact htime h' (List.mem_append_left _ hh')
    have harray : Function.update (fun i => if i ∈ hs then BitVec.ofNat 32 (time i) else 0) h
          (BitVec.ofNat 32 (time h)) =
        fun i => if i ∈ hs ++ [h] then BitVec.ofNat 32 (time i) else 0 := by
      funext i
      by_cases hi : i = h
      · rw [hi, Function.update_self, if_pos hlast]
      · rw [Function.update_of_ne hi]
        simp [hi]
    rw [List.map_append, List.foldlM_append, ih (fun i hi => hh i (List.mem_append_left _ hi))
      (fun i hi => htime i (List.mem_append_left _ hi)), List.map_singleton, Option.bind_eq_bind,
      Option.bind_some, List.foldlM_cons, save_entryOf (hh h hlast) (htime h hlast),
      Option.bind_eq_bind, Option.bind_some, List.foldlM_nil, harray,
      Java.toInt_ofNat_of_lt (htime h hlast), Java.toInt_ofNat_of_lt hlt, List.map_append,
      List.map_singleton, largest_concat]
    have hmax : (if (time h : ℤ) > (largest (hs.map time) : ℤ) then BitVec.ofNat 32 (time h)
          else BitVec.ofNat 32 (largest (hs.map time))) =
        BitVec.ofNat 32 (if time h > largest (hs.map time) then time h
            else largest (hs.map time)) := by
      by_cases hgt : time h > largest (hs.map time)
      · rw [if_pos (Int.ofNat_lt.mpr hgt), if_pos hgt]
      · rw [if_neg (fun hcast => hgt (Int.ofNat_lt.mp hcast)), if_neg hgt]
    rw [hmax]
    rfl

/-! ## The text of the matrix -/

/-- The text of a result; where there is none, the largest time and five. -/
def cell (s : Results) (h : ℕ) : Str :=
  Java.ofInt (if s.resultsArray h ≠ 0 then s.resultsArray h else s.maxDelay + 5).toInt

theorem cell_of_eq {h : ℕ} {result : BitVec 32} (hresult : s.resultsArray h = result) :
    cell s h = Java.ofInt (if result ≠ 0 then result else s.maxDelay + 5).toInt := by
  rw [cell, hresult]

/-- The index of the result printed after `k` others. -/
def printedAt (k : ℕ) : ℕ := 16 * (k / 8) + k % 8

/-- The number of results printed when the loop has come to an index. -/
def printedCount (n : ℕ) : ℕ := if n % 16 < 8 then 8 * (n / 16) + n % 16 else 8 * (n / 16) + 8

/-- The printing loop after `n` indices. -/
theorem foldl_printResult (s : Results) (n : ℕ) :
    (List.range n).foldl (printResult s) ⟨[], 0, 0⟩ =
      ⟨(List.range (printedCount n)).flatMap fun k => cell s (printedAt k) ++
        if (k + 1) % NUM_COLS_PER_ROW = 0 then ['\n'] else [' '], printedCount n, n % 16⟩ := by
  induction n with
  | zero => rfl
  | succ n ih =>
    have hcount : (if n % 16 + 1 = 16 then 0 else n % 16 + 1) = (n + 1) % 16 := by
      split <;> omega
    rw [List.range_succ, List.foldl_append, ih, List.foldl_cons, List.foldl_nil, printResult]
    dsimp only
    rw [Nat.shiftRight_eq_div_pow]
    by_cases hn : n % 16 < 8
    · -- the result is printed
      have hprinted : printedCount n = 8 * (n / 16) + n % 16 := if_pos hn
      have hnext : printedCount (n + 1) = printedCount n + 1 := by
        rw [hprinted, printedCount]
        split <;> omega
      have hindex : printedAt (printedCount n) = n := by
        rw [hprinted, printedAt]
        omega
      rw [if_pos (by omega), hnext, List.range_succ, List.flatMap_append,
        List.flatMap_singleton, hindex]
      dsimp only
      rw [hcount, cell, List.append_assoc]
      rfl
    · have hnext : printedCount (n + 1) = printedCount n := by
        rw [printedCount, printedCount, if_neg hn]
        split <;> omega
      rw [if_neg (by omega), hnext]
      dsimp only
      rw [hcount]

/-- **The text of the matrix**: rows of `512` results. -/
theorem printAll_eq (s : Results) :
    printAll s = Java.unlines ((List.range 128).map fun i =>
      Java.unwords ((List.range NUM_COLS_PER_ROW).map
        fun j => cell s (printedAt (i * NUM_COLS_PER_ROW + j)))) := by
  have hloop : printAll = fun s =>
    ((List.range numResultsMax.toNat).foldl (printResult s) ⟨[], 0, 0⟩).out := rfl
  have hresults : numResultsMax.toNat = 0x20000 := numResultsMax_eq.1
  have hcount : printedCount 0x20000 = 128 * NUM_COLS_PER_ROW := by decide
  have hcolumns : 0 < NUM_COLS_PER_ROW := by decide
  rw [hloop]
  -- the number of results is hidden, so that no step runs the loop
  generalize numResultsMax.toNat = n at hresults ⊢
  dsimp only
  rw [foldl_printResult, hresults, hcount]
  generalize NUM_COLS_PER_ROW = columns at hcolumns
  exact Java.flatMap_rows (fun k => cell s (printedAt k)) hcolumns 128

end ProbableCause.Fpga.ProcessFPGAResults
