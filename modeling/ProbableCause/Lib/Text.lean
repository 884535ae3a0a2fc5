import Mathlib.Data.List.DropRight
import Mathlib.Data.List.Forall2
import Mathlib.Data.Nat.Basic

/-!
# `Lib.Text` — character strings, blanks, decimal numerals and words

A string is the list of its characters. Three things every text-handling program of this development
needs and that name none of them:

- **Numerals.** `digits n`, the decimal numeral of `n`, and `ofDigits?`, the reader that inverts it
  (`ofDigits?_digits`); hence `digits` is injective (`digits_inj`).
- **Blanks.** `isSpace` and `strip`, which cuts the blanks at both ends.
- **Words.** `words`, the maximal runs of non-blanks. `words_append_cons` peels one word off the front
  and `words_cons_space` one blank, so a text that is written word by word is read back word by word.

`mapM_eq_some_iff` and `mapM_eq_none_iff` are about a list whose items are read one by one.
-/

namespace Text

/-- A string, as the list of its characters. -/
abbrev Str := List Char

instance : LawfulBEq Str := List.instLawfulBEq

/-! ## Decimal numerals -/

/-- The decimal numeral of `n`. -/
def digits (n : ℕ) : Str := Nat.toDigits 10 n

/-- The number a non-empty string of decimal digits denotes. -/
def ofDigits? (s : Str) : Option ℕ :=
  if s ≠ [] ∧ s.all Char.isDigit = true then some (Nat.ofDigitChars 10 s 0) else none

theorem digits_ne_nil (n : ℕ) : digits n ≠ [] := Nat.toDigits_ne_nil

theorem isDigit_of_mem_digits {n : ℕ} {c : Char} (h : c ∈ digits n) : c.isDigit = true :=
  Nat.isDigit_of_mem_toDigits (by decide) (by decide) h

/-- **Reading a numeral gives back the number.** -/
theorem ofDigits?_digits (n : ℕ) : ofDigits? (digits n) = some n := by
  have hall : (digits n).all Char.isDigit = true :=
    List.all_eq_true.mpr fun _ hc => isDigit_of_mem_digits hc
  rw [ofDigits?, if_pos ⟨digits_ne_nil n, hall⟩, digits, Nat.ofDigitChars_ten_toDigits]

/-- Different numbers have different numerals. -/
theorem digits_inj {m n : ℕ} : digits m = digits n ↔ m = n := by
  refine ⟨fun h => ?_, fun h => h ▸ rfl⟩
  have hread : ofDigits? (digits m) = ofDigits? (digits n) := by rw [h]
  rw [ofDigits?_digits, ofDigits?_digits] at hread
  exact Option.some.inj hread

/-! ## Blanks -/

/-- The blanks of the ASCII range. -/
def isSpace (c : Char) : Bool :=
  c == ' ' || c == '\t' || c == '\n' || c == '\r' || c == '\x0b' || c == '\x0c'

/-- `s` without the blanks at its two ends. -/
def strip (s : Str) : Str := (s.dropWhile isSpace).rdropWhile isSpace

/-- A digit is no blank. -/
theorem isSpace_of_isDigit {c : Char} (h : c.isDigit = true) : isSpace c = false := by
  by_contra hs
  simp only [isSpace, Bool.not_eq_false, Bool.or_eq_true, beq_iff_eq] at hs
  -- none of the six blanks is a digit
  rcases hs with ((((rfl | rfl) | rfl) | rfl) | rfl) | rfl <;> exact absurd h (by decide)

/-- A string without blanks is left alone by `strip`. -/
theorem strip_eq_self {s : Str} (h : ∀ c ∈ s, isSpace c = false) : strip s = s := by
  have hfront : s.dropWhile isSpace = s := by
    cases s with
    | nil => rfl
    | cons c cs => rw [List.dropWhile_cons_of_neg (by simp [h c (by simp)])]
  rw [strip, hfront, List.rdropWhile_eq_self_iff]
  intro hne
  simp [h _ (List.getLast_mem hne)]

theorem strip_digits (n : ℕ) : strip (digits n) = digits n :=
  strip_eq_self fun _ hc => isSpace_of_isDigit (isDigit_of_mem_digits hc)

/-! ## Words -/

/-- The words of a text: its maximal non-empty runs of non-blanks, in order. -/
def words (s : Str) : List Str := (s.splitOnP isSpace).filter (· ≠ [])

/-- A string that is one word: non-empty and without blanks. -/
def IsWord (w : Str) : Prop := w ≠ [] ∧ ∀ c ∈ w, isSpace c = false

instance (w : Str) : Decidable (IsWord w) :=
  have := List.decidableBAll (fun c => isSpace c = false) w
  instDecidableAnd

@[simp] theorem words_nil : words [] = [] := by simp [words]

/-- A blank at the front belongs to no word. -/
theorem words_cons_space {c : Char} (hc : isSpace c = true) (s : Str) :
    words (c :: s) = words s := by
  simp [words, List.splitOnP_cons_eq_if_modifyHead, hc]

/-- A word at the front, closed by a blank, is the first word. -/
theorem words_append_cons {w : Str} (hw : IsWord w) {c : Char} (hc : isSpace c = true) (s : Str) :
    words (w ++ c :: s) = w :: words s := by
  rw [words, List.splitOnP_append_cons_of_forall_mem hw.2 c hc,
    List.filter_cons_of_pos (by simp [hw.1])]
  rfl

/-- **A text written word by word**, each word closed by a blank, is read back word by word. -/
theorem words_flatMap {ws : List Str} (hws : ∀ w ∈ ws, IsWord w) :
    words (ws.flatMap fun w => w ++ [' ']) = ws := by
  induction ws with
  | nil => exact words_nil
  | cons w ws ih =>
    rw [List.flatMap_cons, List.append_assoc, List.singleton_append,
      words_append_cons (hws w List.mem_cons_self) (by decide),
      ih fun v hv => hws v (List.mem_cons_of_mem _ hv)]

/-! ## Reading every item of a list -/

theorem mapM_eq_some_iff {α β : Type} {f : α → Option β} {l : List α} {l' : List β} :
    l.mapM f = some l' ↔ List.Forall₂ (fun a b => f a = some b) l l' := by
  induction l generalizing l' with
  | nil => cases l' <;> simp
  | cons a l ih =>
    cases l' with
    | nil => simp [List.mapM_cons, Option.bind_eq_some_iff]
    | cons b l' => simp [List.mapM_cons, Option.bind_eq_some_iff, ← ih]

theorem mapM_eq_none_iff {α β : Type} {f : α → Option β} {l : List α} :
    l.mapM f = none ↔ ∃ a ∈ l, f a = none := by
  induction l with
  | nil => simp
  | cons a l ih =>
    rw [List.mapM_cons]
    cases h : f a <;> cases h' : l.mapM f <;> simp_all

end Text
