import Mathlib.Algebra.Group.Int.Defs
import Mathlib.Algebra.Group.Nat.Defs
import ProbableCause.Lib.Text

/-!
# `Lib.Java` — lines, tokens and numerals as the Java class library reads and writes them

What a Java program that reads one text and writes another needs, and nothing about any such program:

- **Lines.** `lines`, what the successive calls of `readLine` return; `unlines`, what `println`
writes.
- **Tokens.** `split`, `String.split(" ")`, with its inverse `unwords`; `trim`; `length`, in UTF-16
units.
- **Numerals.** `parse`, the signed reader behind `parseInt` and `parseLong`, with `ofInt` as its
  inverse; and `upperHex`, the zero-padded `%X` of `format`.

Each writer comes with the lemma that the reader inverts it. The readers take the digits of all
scripts, the writers those of the ASCII range.
-/

namespace Java

open Text

/-! ## Lines -/

/-- The lines of a text: what `BufferedReader.readLine` returns, call by call, until it returns
    null. A line ends with a line feed, a carriage return, or a carriage return and the line feed
    after it. -/
def lines : Str → List Str
  | [] => []
  | '\n' :: cs => [] :: lines cs
  | '\r' :: '\n' :: cs => [] :: lines cs
  | '\r' :: cs => [] :: lines cs
  | c :: cs =>
    match lines cs with
    | [] => [[c]]
    | l :: ls => (c :: l) :: ls

/-- The text of some lines, each written by `println`. -/
def unlines (ls : List Str) : Str := ls.flatMap fun l => l ++ ['\n']

/-- The characters no line contains. -/
def isBreak (c : Char) : Bool := c == '\n' || c == '\r'

/-- A string that fits on a line. -/
def OneLine (l : Str) : Prop := ∀ c ∈ l, isBreak c = false

instance (l : Str) : Decidable (OneLine l) := List.decidableBAll _ l

theorem isBreak_eq_false {c : Char} (hnl : ¬c = '\n') (hcr : ¬c = '\r') : isBreak c = false := by
  rw [isBreak, Bool.or_eq_false_iff, beq_eq_false_iff_ne, beq_eq_false_iff_ne]
  exact ⟨hnl, hcr⟩

theorem oneLine_nil : OneLine [] := fun _ hc => absurd hc List.not_mem_nil

theorem oneLine_cons {c : Char} {l : Str} (hc : isBreak c = false) (hl : OneLine l) :
    OneLine (c :: l) :=
  List.forall_mem_cons.mpr ⟨hc, hl⟩

theorem oneLine_append {l l' : Str} : OneLine (l ++ l') ↔ OneLine l ∧ OneLine l' :=
  List.forall_mem_append

@[simp] theorem lines_nil : lines [] = [] := rfl

@[simp] theorem unlines_nil : unlines [] = [] := rfl

@[simp] theorem unlines_cons (l : Str) (ls : List Str) :
    unlines (l :: ls) = l ++ '\n' :: unlines ls := by
  simp [unlines]

theorem unlines_append (ls ls' : List Str) : unlines (ls ++ ls') = unlines ls ++ unlines ls' := by
  simp [unlines]

/-- A character that ends no line belongs to the first line. -/
theorem lines_cons {c : Char} (hc : isBreak c = false) (cs : Str) :
    lines (c :: cs) = match lines cs with
      | [] => [[c]]
      | l :: ls => (c :: l) :: ls := by
  have hnl : c ≠ '\n' := by rintro rfl; exact absurd hc (by decide)
  have hcr : c ≠ '\r' := by rintro rfl; exact absurd hc (by decide)
  rw [lines]
  · exact hnl
  · intro cs' h _; exact hcr h
  · exact hcr

/-- A line feed ends the first line. -/
theorem lines_append_cons {l : Str} (hl : OneLine l) (rest : Str) :
    lines (l ++ '\n' :: rest) = l :: lines rest := by
  induction l with
  | nil => simp [lines]
  | cons c l ih =>
    have hc : isBreak c = false := hl c List.mem_cons_self
    have hrest := ih fun x hx => hl x (List.mem_cons_of_mem _ hx)
    rw [List.cons_append, lines_cons hc, hrest]

/-- A carriage return without a line feed after it ends an empty line. -/
theorem lines_cr {cs : Str} (h : cs.head? ≠ some '\n') : lines ('\r' :: cs) = [] :: lines cs := by
  cases cs with
  | nil => rfl
  | cons c cs =>
    rw [lines]
    intro cs' heq
    exact h (congrArg List.head? heq)

/-- **Reading back what was printed line by line.** -/
theorem lines_unlines {ls : List Str} (h : ∀ l ∈ ls, OneLine l) : lines (unlines ls) = ls := by
  induction ls with
  | nil => rfl
  | cons l ls ih =>
    rw [unlines_cons, lines_append_cons (h l List.mem_cons_self),
      ih fun x hx => h x (List.mem_cons_of_mem _ hx)]

/-- Every line of a text fits on a line. -/
theorem oneLine_of_mem_lines {s l : Str} (h : l ∈ lines s) : OneLine l := by
  induction s using lines.induct generalizing l with
  | case1 => simp at h
  | case2 cs ih | case3 cs ih =>
    rw [lines] at h
    rcases List.mem_cons.mp h with rfl | h
    · exact oneLine_nil
    · exact ih h
  | case4 cs hne ih =>
    rw [lines] at h
    · rcases List.mem_cons.mp h with rfl | h
      · exact oneLine_nil
      · exact ih h
    · exact hne
  | case5 c cs hnl hcrnl hcr heq ih =>
    rw [lines_cons (isBreak_eq_false hnl hcr), heq] at h
    rw [List.mem_singleton.mp h]
    exact oneLine_cons (isBreak_eq_false hnl hcr) oneLine_nil
  | case6 c cs hnl hcrnl hcr l' ls heq ih =>
    rw [lines_cons (isBreak_eq_false hnl hcr), heq] at h
    rw [heq] at ih
    rcases List.mem_cons.mp h with rfl | h
    · exact oneLine_cons (isBreak_eq_false hnl hcr) (ih List.mem_cons_self)
    · exact ih (List.mem_cons_of_mem _ h)

/-! ## Tokens -/

/-- `String.trim`: without the characters up to the space at the two ends. -/
def trim (s : Str) : Str :=
  (s.dropWhile fun c => decide (c.toNat ≤ 32)).rdropWhile fun c => decide (c.toNat ≤ 32)

/-- `String.length`: the number of UTF-16 units. -/
def length : Str → ℕ
  | [] => 0
  | c :: s => (if c.toNat < 0x10000 then 1 else 2) + length s

/-- `String.split(" ")`: the pieces between the spaces, less the empty pieces at the end; a string
    without a space is its only piece. -/
def split (s : Str) : List Str :=
  if ' ' ∈ s then (s.splitOn ' ').rdropWhile List.isEmpty else [s]

/-- `String.split` at another character. -/
def splitOn (c : Char) (s : Str) : List Str :=
  if c ∈ s then (s.splitOn c).rdropWhile List.isEmpty else [s]

def startsWith (s t : Str) : Bool := t.isPrefixOf s

def endsWith (s t : Str) : Bool := t.isSuffixOf s

/-- `indexOf` of a character that occurs; the characters are UTF-16 units here and in `substring`. -/
def indexOf (s : Str) (c : Char) : ℕ := s.idxOf c

/-- `substring`; `none` is the `StringIndexOutOfBoundsException`. -/
def substring (s : Str) (first last : ℕ) : Option Str :=
  if first ≤ last ∧ last ≤ s.length then some ((s.take last).drop first) else none

/-- Tokens with a space between each two of them. -/
def unwords (ts : List Str) : Str := [' '].intercalate ts

@[simp] theorem unwords_singleton (t : Str) : unwords [t] = t := List.intercalate_singleton

theorem unwords_cons_cons (t t' : Str) (ts : List Str) :
    unwords (t :: t' :: ts) = t ++ ' ' :: unwords (t' :: ts) := by
  simp [unwords, List.intercalate_cons_cons]

theorem unwords_concat (ts : List Str) (t : Str) :
    unwords (ts ++ [t]) = (ts.flatMap fun u => u ++ [' ']) ++ t := by
  induction ts with
  | nil => exact unwords_singleton t
  | cons u ts ih =>
    obtain ⟨v, vs, hvs⟩ := List.exists_cons_of_ne_nil
      (List.append_ne_nil_of_right_ne_nil ts (List.cons_ne_nil t []))
    rw [List.cons_append, hvs, unwords_cons_cons, ← hvs, ih, List.flatMap_cons, List.append_assoc,
      List.append_assoc]
    rfl

/-- A text in which each word is followed by a space, and every word at the end of a row by a line
    feed, is the rows line by line. -/
theorem flatMap_rows (word : ℕ → Str) {columns : ℕ} (hcolumns : 0 < columns) (rows : ℕ) :
    ((List.range (rows * columns)).flatMap fun k => word k ++ if (k + 1) % columns = 0
      then ['\n'] else [' ']) =
        unlines ((List.range rows).map
          fun i => unwords ((List.range columns).map fun j => word (i * columns + j))) := by
  obtain ⟨m, rfl⟩ := Nat.exists_eq_succ_of_ne_zero (Nat.ne_of_gt hcolumns)
  induction rows with
  | zero => rw [Nat.zero_mul]; rfl
  | succ n ih =>
    have hrow : ((List.range (m + 1)).flatMap fun j => word (n * (m + 1) + j) ++
          if (n * (m + 1) + j + 1) % (m + 1) = 0 then ['\n'] else [' ']) =
        unwords ((List.range (m + 1)).map fun j => word (n * (m + 1) + j)) ++ ['\n'] := by
      have hlast : (n * (m + 1) + m + 1) % (m + 1) = 0 := by
        rw [Nat.add_assoc, Nat.mul_add_mod_self_right, Nat.mod_self]
      have hother : ((List.range m).flatMap fun j => word (n * (m + 1) + j) ++
            if (n * (m + 1) + j + 1) % (m + 1) = 0 then ['\n'] else [' ']) =
          (List.range m).flatMap fun j => word (n * (m + 1) + j) ++ [' '] := by
        rw [List.flatMap_def, List.flatMap_def]
        congr 1
        apply List.map_congr_left
        intro j hj
        have hj : j < m := List.mem_range.mp hj
        rw [Nat.add_assoc, Nat.mul_add_mod_self_right, Nat.mod_eq_of_lt (by omega), if_neg (by omega)]
      rw [List.range_succ, List.flatMap_append, List.map_append, List.map_singleton,
        unwords_concat, hother, List.flatMap_map, List.flatMap_singleton, if_pos hlast,
        List.append_assoc]
    rw [Nat.succ_mul, List.range_add, List.flatMap_append, ih, List.flatMap_map, hrow,
      @List.range_succ n, List.map_append, unlines_append, List.map_singleton,
      unlines_cons, unlines_nil]

theorem length_le (s : Str) : s.length ≤ length s := by
  induction s with
  | nil => exact Nat.le_refl 0
  | cons c s ih =>
    have hunit : 1 ≤ (if c.toNat < 0x10000 then 1 else 2) := by split <;> decide
    rw [length, List.length_cons]
    omega

theorem length_eq_length {s : Str} (h : ∀ c ∈ s, c.toNat < 0x10000) : length s = s.length := by
  induction s with
  | nil => rfl
  | cons c s ih =>
    rw [length, if_pos (h c List.mem_cons_self), ih fun x hx => h x (List.mem_cons_of_mem _ hx),
      List.length_cons, Nat.add_comm]

theorem length_le_two_mul (s : Str) : length s ≤ 2 * s.length := by
  induction s with
  | nil => exact Nat.le_refl 0
  | cons c s ih =>
    have hunit : (if c.toNat < 0x10000 then 1 else 2) ≤ 2 := by split <;> decide
    rw [length, List.length_cons]
    omega

/-- What begins and ends with a visible character is left alone by `trim`. -/
theorem trim_eq_self {s : Str} (hfirst : ∀ c ∈ s.head?, 32 < c.toNat)
    (hlast : ∀ c ∈ s.getLast?, 32 < c.toNat) :
    trim s = s := by
  have hfront : s.dropWhile (fun c => decide (c.toNat ≤ 32)) = s := by
    cases s with
    | nil => rfl
    | cons c cs => rw [List.dropWhile_cons_of_neg (by simpa using hfirst c rfl)]
  rw [trim, hfront, List.rdropWhile_eq_self_iff]
  intro hne
  simpa using hlast _ (List.getLast?_eq_some_getLast hne)

/-- **Reading back a line of tokens.** -/
theorem split_unwords {ts : List Str} (hne : ts ≠ []) (hts : ∀ t ∈ ts, t ≠ [] ∧ ' ' ∉ t) :
    split (unwords ts) = ts := by
  have hsplit : (unwords ts).splitOn ' ' = ts :=
    List.splitOn_intercalate ' ' (fun t ht => (hts t ht).2) hne
  rw [split]
  split
  · -- the last token is not empty, so no piece is dropped
    rw [hsplit, List.rdropWhile_eq_self_iff]
    intro hne
    simp [(hts _ (List.getLast_mem hne)).1]
  · rename_i hno
    rw [List.splitOn_eq_singleton hno] at hsplit
    exact hsplit

theorem endsWith_append (s t : Str) : endsWith (s ++ t) t = true :=
  List.isSuffixOf_iff_suffix.mpr (List.suffix_append s t)

/-- What a string ends with has only characters of the string. -/
theorem mem_of_endsWith {s t : Str} (h : endsWith s t = true) {c : Char} (hc : c ∈ t) : c ∈ s :=
  (List.isSuffixOf_iff_suffix.mp h).subset hc

theorem endsWith_eq_false {s t : Str} {c : Char} (hs : c ∉ s) (ht : c ∈ t) : endsWith s t = false :=
  Bool.eq_false_iff.mpr fun h => hs (mem_of_endsWith h ht)

theorem startsWith_eq_false {s t : Str} {c : Char} (hs : c ∉ s) (ht : c ∈ t) :
    startsWith s t = false :=
  Bool.eq_false_iff.mpr fun h => hs ((List.isPrefixOf_iff_prefix.mp h).subset ht)

/-- The end of a string from the last place of a character. -/
theorem endsWith_cons_iff {s t u : Str} {c : Char} (hs : c ∉ s) (ht : c ∉ t) :
    endsWith (s ++ c :: t) (c :: u) = true ↔ t = u := by
  rw [endsWith, List.isSuffixOf_iff_suffix]
  constructor
  · rintro ⟨front, hfront⟩
    exact ((List.append_cons_inj_of_notMem hs ht).mp hfront.symm).2.2
  · rintro rfl
    exact List.suffix_append s _

theorem indexOf_append {s : Str} {c : Char} (hc : c ∉ s) (t : Str) :
    indexOf (s ++ c :: t) c = s.length := by
  rw [indexOf, List.idxOf_append, if_neg hc, List.idxOf_cons_self, Nat.zero_add]

/-- The middle part of a string. -/
theorem substring_append (s t u : Str) :
    substring (s ++ t ++ u) s.length (s.length + t.length) = some t := by
  have hfit : s.length ≤ s.length + t.length ∧ s.length + t.length ≤ (s ++ t ++ u).length := by
    rw [List.length_append, List.length_append]
    omega
  rw [substring, if_pos hfit, ← List.length_append, List.take_left', List.drop_left']
  · rfl
  · rfl

theorem unwords_cons_replicate (t : Str) (k : ℕ) :
    unwords (t :: List.replicate k []) = t ++ List.replicate k ' ' := by
  induction k generalizing t with
  | zero => simp
  | succ k ih =>
    rw [List.replicate_succ, unwords_cons_cons, ih, List.replicate_succ, List.nil_append]

/-- A string of at most one token is that token and spaces. -/
theorem eq_append_replicate_of_split {s t : Str} (h : split s = [] ∧ t = [] ∨ split s = [t]) :
    ∃ k, s = t ++ List.replicate k ' ' := by
  by_cases hspace : ' ' ∈ s
  · rw [split, if_pos hspace] at h
    have hempty : ∀ p ∈ (s.splitOn ' ').rtakeWhile List.isEmpty, p = [] := fun p hp =>
      List.isEmpty_iff.mp (List.mem_rtakeWhile_imp hp)
    have hpieces : s = unwords (s.splitOn ' ') := (List.intercalate_splitOn ' ').symm
    rw [← List.rdropWhile_append_rtakeWhile (p := List.isEmpty) (l := s.splitOn ' '),
      List.eq_replicate_of_mem hempty] at hpieces
    rcases h with ⟨hnil, rfl⟩ | hone
    · rw [hnil, List.nil_append] at hpieces
      cases hk : ((s.splitOn ' ').rtakeWhile List.isEmpty).length with
      | zero =>
        rw [hk] at hpieces
        exact ⟨0, hpieces⟩
      | succ k =>
        rw [hk, List.replicate_succ, unwords_cons_replicate] at hpieces
        exact ⟨k, hpieces⟩
    · rw [hone, List.singleton_append, unwords_cons_replicate] at hpieces
      exact ⟨_, hpieces⟩
  · rw [split, if_neg hspace] at h
    rcases h with ⟨hnil, -⟩ | hone
    · exact absurd hnil (List.cons_ne_nil _ _)
    · exact ⟨0, by simpa using hone⟩

/-- `trim` cuts the spaces behind a string. -/
theorem length_trim_append_replicate (t : Str) (k : ℕ) :
    (trim (t ++ List.replicate k ' ')).length ≤ t.length := by
  have hspaces : ∀ s : Str, (s ++ List.replicate k ' ').rdropWhile (fun c => decide (c.toNat ≤ 32)) =
      s.rdropWhile fun c => decide (c.toNat ≤ 32) := by
    intro s
    induction k with
    | zero => simp
    | succ k ih =>
      rw [List.replicate_succ', ← List.append_assoc, List.rdropWhile_concat_pos _ _ _ (by decide), ih]
  rw [trim, List.dropWhile_append]
  split
  · -- nothing but blanks
    have hnil : (List.replicate k ' ').dropWhile (fun c => decide (c.toNat ≤ 32)) = [] := by
      rw [List.dropWhile_eq_nil_iff]
      intro c hc
      rw [List.eq_of_mem_replicate hc]
      rfl
    rw [hnil]
    exact Nat.zero_le _
  · rw [hspaces]
    exact ((List.rdropWhile_prefix _ _).length_le).trans (List.dropWhile_suffix _).length_le

/-! ## Numerals -/

/-- The zeros of the scripts with decimal digits; the nine other digits are behind each of them.
    They are those of the basic plane in Unicode 8, which Java has since version 9 (before that,
    without `0x0DE6` and `0xA9F0`). A digit of another plane is two surrogates in a string, and
    these are no digits. -/
def decimalZeros : List ℕ :=
  [0x0030, 0x0660, 0x06F0, 0x07C0, 0x0966, 0x09E6, 0x0A66, 0x0AE6, 0x0B66, 0x0BE6, 0x0C66, 0x0CE6,
    0x0D66, 0x0DE6, 0x0E50, 0x0ED0, 0x0F20, 0x1040, 0x1090, 0x17E0, 0x1810, 0x1946, 0x19D0, 0x1A80,
    0x1A90, 0x1B50, 0x1BB0, 0x1C40, 0x1C50, 0xA620, 0xA8D0, 0xA900, 0xA9D0, 0xA9F0, 0xAA50,
    0xABF0, 0xFF10]

/-- `Character.digit`: the value of a decimal digit of any script, or of a Latin letter, also a
fullwidth one. -/
def digit (radix : ℕ) (c : Char) : Option ℕ :=
  let v :=
    if 97 ≤ c.toNat ∧ c.toNat ≤ 122 then c.toNat - 87
    else if 65 ≤ c.toNat ∧ c.toNat ≤ 90 then c.toNat - 55
    else if 0xFF41 ≤ c.toNat ∧ c.toNat ≤ 0xFF5A then c.toNat - 0xFF41 + 10
    else if 0xFF21 ≤ c.toNat ∧ c.toNat ≤ 0xFF3A then c.toNat - 0xFF21 + 10
    else
      match decimalZeros.find? fun z => decide (z ≤ c.toNat ∧ c.toNat < z + 10) with
      | some z => c.toNat - z
      | none => radix
  if v < radix then some v else none

/-- The value of a string of digits, read from a value on. -/
def readDigits (radix : ℕ) : Str → ℕ → Option ℕ
  | [], n => some n
  | c :: cs, n =>
    match digit radix c with
    | none => none
    | some d => readDigits radix cs (radix * n + d)

/-- The value of an unsigned numeral. -/
def parseUnsigned (radix : ℕ) (s : Str) : Option ℕ := if s = [] then none else readDigits radix s 0

/-- The reader of signed numerals that fit in `w` bits; `none` is the `NumberFormatException`. -/
def parse (w radix : ℕ) : Str → Option (BitVec w)
  | '-' :: s => do
    let n ← parseUnsigned radix s
    if n ≤ 2 ^ (w - 1) then some (BitVec.ofInt w (-n)) else none
  | '+' :: s => do
    let n ← parseUnsigned radix s
    if n < 2 ^ (w - 1) then some (BitVec.ofNat w n) else none
  | s => do
    let n ← parseUnsigned radix s
    if n < 2 ^ (w - 1) then some (BitVec.ofNat w n) else none

/-- `Integer.parseInt(s,radix)`. -/
def parseInt (radix : ℕ) (s : Str) : Option (BitVec 32) := parse 32 radix s

/-- `Long.parseLong(s,radix)`. -/
def parseLong (radix : ℕ) (s : Str) : Option (BitVec 64) := parse 64 radix s

/-- A signed number, as string conversion writes it. -/
def ofInt (i : ℤ) : Str := if i < 0 then '-' :: digits i.natAbs else digits i.natAbs

/-- `%X`, with zeros in front up to a width. -/
def upperHex (width n : ℕ) : Str := ((Nat.toDigits 16 n).map Char.toUpper).leftpad width '0'

/-- The range of the digits. -/
theorem toNat_of_digit {radix : ℕ} {c : Char} (h : digit radix c ≠ none) :
    48 ≤ c.toNat ∧ c.toNat < 0x10000 := by
  by_contra hrange
  have hlower : ¬(97 ≤ c.toNat ∧ c.toNat ≤ 122) := by omega
  have hupper : ¬(65 ≤ c.toNat ∧ c.toNat ≤ 90) := by omega
  have hwideLower : ¬(0xFF41 ≤ c.toNat ∧ c.toNat ≤ 0xFF5A) := by omega
  have hwideUpper : ¬(0xFF21 ≤ c.toNat ∧ c.toNat ≤ 0xFF3A) := by omega
  have hzeros : ∀ z ∈ decimalZeros, 48 ≤ z ∧ z + 10 ≤ 0x10000 := by decide
  have hdecimal : decimalZeros.find? (fun z => decide (z ≤ c.toNat ∧ c.toNat < z + 10)) = none := by
    rw [List.find?_eq_none]
    intro z hz hc
    obtain ⟨hlow, hhigh⟩ := hzeros z hz
    rw [decide_eq_true_iff] at hc
    omega
  apply h
  simp only [digit, if_neg hlower, if_neg hupper, if_neg hwideLower, if_neg hwideUpper,
    hdecimal, Nat.lt_irrefl, if_false]

theorem lt_of_digit {radix d : ℕ} {c : Char} (h : digit radix c = some d) : d < radix := by
  obtain ⟨hlt, hd⟩ := Option.ite_none_right_eq_some.mp h
  exact Option.some.inj hd ▸ hlt

/-- An `int` that holds a small number. -/
theorem toInt_ofNat_of_lt {n : ℕ} (h : n < 2 ^ 31) : (BitVec.ofNat 32 n).toInt = n := by
  have hmod : (BitVec.ofNat 32 n).toNat = n := by rw [BitVec.toNat_ofNat]; omega
  rw [BitVec.toInt_eq_toNat_of_lt (by omega), hmod]

theorem digit_digitChar {radix : ℕ} (hr : radix ≤ 16) {d : ℕ} (hd : d < radix) :
    digit radix d.digitChar = some d ∧ digit radix d.digitChar.toUpper = some d := by
  have hvalues : ∀ d < 16, ∀ radix ≤ 16, d < radix →
      digit radix d.digitChar = some d ∧ digit radix d.digitChar.toUpper = some d := by decide
  exact hvalues d (by omega) radix hr hd

theorem readDigits_append (radix : ℕ) (s t : Str) (n : ℕ) :
    readDigits radix (s ++ t) n = (readDigits radix s n).bind (readDigits radix t) := by
  induction s generalizing n with
  | nil => rfl
  | cons c s ih =>
    rw [List.cons_append, readDigits, readDigits]
    cases digit radix c with
    | none => rfl
    | some d => exact ih _

/-- **Reading a numeral gives back the number**, in whatever letter case its digits are written. -/
theorem readDigits_map_toDigits {radix : ℕ} (hr : 1 < radix) {f : Char → Char}
    (hf : ∀ d < radix, digit radix (f d.digitChar) = some d) (n : ℕ) :
    readDigits radix ((Nat.toDigits radix n).map f) 0 = some n := by
  induction n using Nat.strongRecOn with
  | ind n ih =>
    by_cases hn : n < radix
    · rw [Nat.toDigits_of_lt_base hn, List.map_singleton, readDigits, hf n hn]
      simp [readDigits]
    · have hle : radix ≤ n := Nat.le_of_not_lt hn
      have hlt : n / radix < n := Nat.div_lt_self (by omega) hr
      rw [Nat.toDigits_of_base_le hr hle, List.map_append, readDigits_append, ih _ hlt,
        Option.bind_some, List.map_singleton, readDigits, hf _ (Nat.mod_lt n (by omega))]
      simp [readDigits, Nat.div_add_mod]

/-- Zeros in front do not change the value. -/
theorem readDigits_replicate {radix : ℕ} (hr : 0 < radix) (k : ℕ) (s : Str) :
    readDigits radix (List.replicate k '0' ++ s) 0 = readDigits radix s 0 := by
  induction k with
  | zero => rfl
  | succ k ih =>
    have hzero : digit radix '0' = some 0 := by simp [digit, decimalZeros, hr]
    rw [List.replicate_succ, List.cons_append, readDigits, hzero]
    exact ih

theorem parseUnsigned_digits (n : ℕ) : parseUnsigned 10 (digits n) = some n := by
  have hread : readDigits 10 ((Nat.toDigits 10 n).map id) 0 = some n :=
    readDigits_map_toDigits (by decide) (fun d hd => (digit_digitChar (by decide) hd).1) n
  rw [List.map_id] at hread
  rw [parseUnsigned, if_neg (digits_ne_nil n)]
  exact hread

theorem upperHex_ne_nil (width n : ℕ) : upperHex width n ≠ [] := by
  simp [upperHex, List.leftpad, Nat.toDigits_ne_nil]

theorem parseUnsigned_upperHex (width n : ℕ) : parseUnsigned 16 (upperHex width n) = some n := by
  rw [parseUnsigned, if_neg (upperHex_ne_nil width n), upperHex, List.leftpad,
    readDigits_replicate (by decide)]
  exact readDigits_map_toDigits (by decide) (fun d hd => (digit_digitChar (by decide) hd).2) n

/-- What can be read has only digits. -/
theorem digit_of_readDigits {radix : ℕ} {s : Str} {n m : ℕ} (h : readDigits radix s n = some m) :
    ∀ c ∈ s, digit radix c ≠ none := by
  induction s generalizing n with
  | nil => exact fun c hc => absurd hc List.not_mem_nil
  | cons c s ih =>
    rw [readDigits] at h
    intro x hx hnone
    cases hd : digit radix c with
    | none =>
      rw [hd] at h
      contradiction
    | some d =>
      rw [hd] at h
      rcases List.mem_cons.mp hx with rfl | hx
      · rw [hd] at hnone
        contradiction
      · exact ih h x hx hnone

theorem digit_of_mem_upperHex {width n : ℕ} {c : Char} (hc : c ∈ upperHex width n) :
    digit 16 c ≠ none := by
  have hread := parseUnsigned_upperHex width n
  rw [parseUnsigned, if_neg (upperHex_ne_nil width n)] at hread
  exact digit_of_readDigits hread c hc

theorem oneLine_upperHex (width n : ℕ) : OneLine (upperHex width n) := by
  intro c hc
  by_contra hbreak
  simp only [isBreak, Bool.not_eq_false, Bool.or_eq_true, beq_iff_eq] at hbreak
  rcases hbreak with rfl | rfl <;> exact digit_of_mem_upperHex hc (by decide)

/-- Zeros are put in front. -/
theorem upperHex_add {width n : ℕ} (hwidth : 0 < width) (hn : n < 16 ^ width) (k : ℕ) :
    upperHex (k + width) n = List.replicate k '0' ++ upperHex width n := by
  have hlength : (Nat.toDigits 16 n).length ≤ width :=
    (Nat.length_toDigits_le_iff (by decide) hwidth).mpr hn
  rw [upperHex, upperHex, List.leftpad, List.leftpad, List.length_map, Nat.add_sub_assoc hlength,
    ← List.replicate_append_replicate, List.append_assoc]

theorem length_upperHex {width n : ℕ} (hwidth : 0 < width) (hn : n < 16 ^ width) :
    (upperHex width n).length = width := by
  have hlength : (Nat.toDigits 16 n).length ≤ width :=
    (Nat.length_toDigits_le_iff (by decide) hwidth).mpr hn
  rw [upperHex, List.leftpad, List.length_append, List.length_replicate, List.length_map]
  omega

/-- A digit is no sign. -/
theorem parse_of_digit {w radix : ℕ} {c : Char} {s : Str} (hminus : c ≠ '-') (hplus : c ≠ '+') :
    parse w radix (c :: s) =
      (parseUnsigned radix (c :: s)).bind fun n => if n < 2 ^ (w - 1) then some (BitVec.ofNat w n)
        else none := by
  rw [parse]
  · rfl
  · intro s' h; exact hminus (List.cons.inj h).1
  · intro s' h; exact hplus (List.cons.inj h).1

/-- **Reading back a numeral** that fits. -/
theorem parse_digits {w n : ℕ} (hn : n < 2 ^ (w - 1)) :
    parse w 10 (digits n) = some (BitVec.ofNat w n) := by
  obtain ⟨c, cs, hcs⟩ := List.exists_cons_of_ne_nil (digits_ne_nil n)
  have hdigit : c.isDigit = true := isDigit_of_mem_digits (hcs ▸ List.mem_cons_self)
  have hminus : c ≠ '-' := by rintro rfl; exact absurd hdigit (by decide)
  have hplus : c ≠ '+' := by rintro rfl; exact absurd hdigit (by decide)
  have hread := parseUnsigned_digits n
  rw [hcs] at hread ⊢
  rw [parse_of_digit hminus hplus, hread, Option.bind_some, if_pos hn]

/-- **Reading back a printed number** that fits in the width. -/
theorem parse_ofInt {w : ℕ} {i : ℤ} (hlo : -2 ^ (w - 1) ≤ i) (hhi : i < 2 ^ (w - 1)) :
    parse w 10 (ofInt i) = some (BitVec.ofInt w i) := by
  have hpow : ((2 ^ (w - 1) : ℕ) : ℤ) = 2 ^ (w - 1) := by norm_cast
  rw [ofInt]
  split
  · rename_i hneg
    have hfit : i.natAbs ≤ 2 ^ (w - 1) := by omega
    have hval : -(i.natAbs : ℤ) = i := by omega
    rw [parse, parseUnsigned_digits, Option.bind_eq_bind, Option.bind_some, if_pos hfit, hval]
  · rename_i hnonneg
    have hfit : i.natAbs < 2 ^ (w - 1) := by omega
    have hval : BitVec.ofNat w i.natAbs = BitVec.ofInt w i := by
      rw [← BitVec.ofInt_natCast]; congr 1; omega
    rw [parse_digits hfit, hval]

/-- An `int` is written so that it can be read. -/
theorem parseInt_ofInt (n : BitVec 32) : parseInt 10 (ofInt n.toInt) = some n := by
  rw [parseInt, parse_ofInt (BitVec.le_toInt n) BitVec.toInt_lt, BitVec.ofInt_toInt]

theorem parse_upperHex {w n : ℕ} (width : ℕ) (hn : n < 2 ^ (w - 1)) :
    parse w 16 (upperHex width n) = some (BitVec.ofNat w n) := by
  obtain ⟨c, cs, hcs⟩ := List.exists_cons_of_ne_nil (upperHex_ne_nil width n)
  have hdigit : digit 16 c ≠ none := digit_of_mem_upperHex (hcs ▸ List.mem_cons_self)
  have hminus : c ≠ '-' := by rintro rfl; exact absurd rfl hdigit
  have hplus : c ≠ '+' := by rintro rfl; exact absurd rfl hdigit
  have hread := parseUnsigned_upperHex width n
  rw [hcs] at hread ⊢
  rw [parse_of_digit hminus hplus, hread, Option.bind_some, if_pos hn]

theorem ofInt_natCast (n : ℕ) : ofInt (n : ℤ) = digits n := by
  rw [ofInt, if_neg (by omega), Int.natAbs_natCast]

theorem isBreak_of_isDigit {c : Char} (h : c.isDigit = true) : isBreak c = false := by
  by_contra hbreak
  simp only [isBreak, Bool.not_eq_false, Bool.or_eq_true, beq_iff_eq] at hbreak
  rcases hbreak with rfl | rfl <;> exact absurd h (by decide)

theorem oneLine_digits (n : ℕ) : OneLine (digits n) :=
  fun _ hc => isBreak_of_isDigit (isDigit_of_mem_digits hc)

/-- A printed number fits on a line. -/
theorem oneLine_ofInt (i : ℤ) : OneLine (ofInt i) := by
  have hdigits : OneLine (digits i.natAbs) := oneLine_digits _
  rw [ofInt]
  split
  · intro c hc
    rcases List.mem_cons.mp hc with rfl | hc
    · rfl
    · exact hdigits c hc
  · exact hdigits

end Java
