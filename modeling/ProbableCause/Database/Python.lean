import ProbableCause.Lib.Text
import Mathlib.Data.Int.Basic

/-!
# `Database.Python` — the Python values the fingerprint database computes with

Chip numbers and page locations occur in two forms: as integers (drawn or counted by the program)
and as strings (cut out of directory and file names). `str`, `int` and `+` treat the two
differently, and a sum of an integer and a string is an error, so the model keeps the two forms
apart.
-/

namespace ProbableCause

open Text

/-- The exceptions the program and the library calls it makes can raise. -/
inductive PyErr where
  | valueError (msg : String)
  | typeError
  | attributeError
  | osError
  | indexError
  deriving Repr, DecidableEq

/-- How a call can stop without a result: an exception, a loop still waiting for further random
    outcomes (`drawing`), or a loop cut off by the model's bound (`outOfFuel`, never reached:
    `mergeTail_eq`). -/
inductive Stop where
  | raised (e : PyErr)
  | drawing
  | outOfFuel
  deriving Repr, DecidableEq

/-- Raise an exception in a computation that only reads. -/
def raise {α : Type} (e : PyErr) : Except Stop α := .error (.raised e)

/-- An integer or a string. -/
inductive PyVal where
  | int (n : ℤ)
  | str (s : Str)
  deriving Repr, DecidableEq

/-- The numeral of an integer. -/
def intStr : ℤ → Str
  | .ofNat n => digits n
  | .negSucc n => '-' :: digits (n + 1)

/-- `str(x)`. -/
def pyStr : PyVal → Str
  | .int n => intStr n
  | .str s => s

/-- The signed numeral `int(s)` accepts, blanks at both ends allowed. -/
def parseInt (s : Str) : Option ℤ :=
  match strip s with
  | '-' :: ds => (ofDigits? ds).map fun n => -(n : ℤ)
  | '+' :: ds => (ofDigits? ds).map Nat.cast
  | ds => (ofDigits? ds).map Nat.cast

/-- `int(x)`. -/
def pyInt : PyVal → Except Stop ℤ
  | .int n => .ok n
  | .str s =>
    match parseInt s with
    | some n => .ok n
    | none => raise (.valueError "invalid literal for int() with base 10")

/-- `x + y`: integers add, strings concatenate, anything else is a `TypeError`. -/
def pyAdd : PyVal → PyVal → Except Stop PyVal
  | .int a, .int b => .ok (.int (a + b))
  | .str a, .str b => .ok (.str (a ++ b))
  | _, _ => raise .typeError

@[simp] theorem pyStr_natCast (n : ℕ) : pyStr (.int n) = digits n := rfl
@[simp] theorem pyStr_str (s : Str) : pyStr (.str s) = s := rfl
@[simp] theorem pyInt_int (n : ℤ) : pyInt (.int n) = .ok n := rfl

/-- A numeral is read as the number it was written from. -/
@[simp] theorem parseInt_digits (n : ℕ) : parseInt (digits n) = some (n : ℤ) := by
  have hdig : ∀ c ∈ digits n, c.isDigit = true := fun _ hc => isDigit_of_mem_digits hc
  rw [parseInt, strip_digits]
  split
  · next ds h => exact absurd (hdig '-' (by rw [h]; simp)) (by decide)
  · next ds h => exact absurd (hdig '+' (by rw [h]; simp)) (by decide)
  · rw [ofDigits?_digits]; rfl

@[simp] theorem pyInt_digits (n : ℕ) : pyInt (.str (digits n)) = .ok (n : ℤ) := by
  simp only [pyInt, parseInt_digits]

end ProbableCause
