import Mathlib.Algebra.Group.Nat.Defs
import Mathlib.Data.List.Basic

/-!
# `Lib.Matlab` — matrices that are stored by columns and indexed from one

A matrix is the list of its elements, column by column. A *linear* index counts through this list
and a *subscript* names row and column; both are errors outside the matrix. An element that is
assigned behind the end of a row or a column makes it grow; behind the end of another matrix this is
an error, as it is not clear in which direction to grow.

`foldlM_range_rule` is the rule for counting loops that may stop with an error.
-/

namespace Matlab

variable {α β : Type}

/-- A matrix, of its elements column by column. -/
@[ext] structure Mat (α : Type) where
  rows : ℕ
  cols : ℕ
  data : List α
  size : data.length = rows * cols

/-- The matrix without columns. -/
def Mat.empty (rows : ℕ) : Mat α := ⟨rows, 0, [], rfl⟩

/-- The matrix of one element. -/
def Mat.const (rows cols : ℕ) (a : α) : Mat α :=
  ⟨rows, cols, List.replicate (rows * cols) a, List.length_replicate⟩

/-- `A(k)`. -/
def Mat.linear (A : Mat α) : ℕ → Option α
  | 0 => none
  | k + 1 => A.data[k]?

/-- `A(i,j)`. -/
def Mat.subscript (A : Mat α) (i j : ℕ) : Option α :=
  if 1 ≤ i ∧ i ≤ A.rows ∧ 1 ≤ j ∧ j ≤ A.cols then A.data[(j - 1) * A.rows + (i - 1)]? else none

/-- `reshape(A,rows,cols)`. -/
def Mat.reshape (A : Mat α) (rows cols : ℕ) : Option (Mat α) :=
  if h : A.data.length = rows * cols then some ⟨rows, cols, A.data, h⟩ else none

theorem Mat.length_set (A : Mat α) (k : ℕ) (a : α) : (A.data.set k a).length = A.rows * A.cols := by
  rw [List.length_set, A.size]

/-- The elements when element `k`, behind the end, is assigned; those between are `fill`. -/
def Mat.grown (A : Mat α) (fill : α) (k : ℕ) (a : α) : List α :=
  A.data ++ List.replicate (k - 1 - A.data.length) fill ++ [a]

theorem Mat.length_grown {A : Mat α} {k : ℕ} (hk : A.data.length < k) (fill a : α) :
    (A.grown fill k a).length = k := by
  unfold Mat.grown
  rw [List.length_append, List.length_append, List.length_replicate, List.length_singleton]
  omega

theorem Mat.length_grown_row {A : Mat α} {k : ℕ} (hk : A.data.length < k) (fill a : α) :
    (A.grown fill k a).length = 1 * k := by
  rw [Mat.length_grown hk, Nat.one_mul]

theorem Mat.length_grown_col {A : Mat α} {k : ℕ} (hk : A.data.length < k) (fill a : α) :
    (A.grown fill k a).length = k * 1 := by
  rw [Mat.length_grown hk, Nat.mul_one]

/-- `A(k)=a`. Behind the end, a row and a column grow in their direction, and what has no elements
becomes a row. -/
def Mat.set (A : Mat α) (fill : α) (k : ℕ) (a : α) : Option (Mat α) :=
  if k = 0 then none
  else if hk : A.data.length < k then
    if A.rows = 1 then some ⟨1, k, A.grown fill k a, Mat.length_grown_row hk fill a⟩
    else if A.cols = 1 then some ⟨k, 1, A.grown fill k a, Mat.length_grown_col hk fill a⟩
    else if A.data.length = 0 then some ⟨1, k, A.grown fill k a, Mat.length_grown_row hk fill a⟩
    else none
  else some ⟨A.rows, A.cols, A.data.set (k - 1) a, A.length_set (k - 1) a⟩

theorem Mat.eq_of_mem_const {rows cols : ℕ} {a b : α}
    (h : b ∈ (Mat.const rows cols a).data) : b = a :=
  List.eq_of_mem_replicate h

/-! ## Assignments -/

/-- An assignment within a matrix. -/
theorem Mat.set_of_le {A : Mat α} {k : ℕ} (hk : k < A.data.length) (fill a : α) :
    ∃ B, A.set fill (k + 1) a = some B ∧ B.rows = A.rows ∧ B.cols = A.cols ∧
      B.data = A.data.set k a := by
  unfold Mat.set
  rw [if_neg (Nat.succ_ne_zero k), dif_neg (by omega)]
  exact ⟨_, rfl, rfl, rfl, rfl⟩

/-- What grows to a row: a row, or nothing. -/
def Mat.RowLike (A : Mat α) : Prop := A.rows = 1 ∨ A.cols = 0

/-- An assignment right behind the end of a row. -/
theorem Mat.set_append {A : Mat α} (hA : A.RowLike) (fill a : α) :
    ∃ B, A.set fill (A.data.length + 1) a = some B ∧ B.RowLike ∧ B.data = A.data ++ [a] := by
  have hgrown : A.grown fill (A.data.length + 1) a = A.data ++ [a] := by
    unfold Mat.grown
    rw [Nat.add_sub_cancel, Nat.sub_self, List.replicate_zero, List.append_nil]
  unfold Mat.set
  rw [if_neg (Nat.succ_ne_zero _), dif_pos (Nat.lt_succ_self _)]
  by_cases hrow : A.rows = 1
  · rw [if_pos hrow]
    exact ⟨_, rfl, .inl rfl, hgrown⟩
  · have hcol : A.cols = 0 := hA.resolve_left hrow
    have hempty : A.data.length = 0 := by rw [A.size, hcol, Nat.mul_zero]
    rw [if_neg hrow, if_neg (by omega), if_pos hempty]
    exact ⟨_, rfl, .inl rfl, hgrown⟩

/-! ## Loops -/

/-- **The rule for counting loops**: what holds at first and is kept by every turn, which does not
stop. -/
theorem foldlM_range_rule {f : β → ℕ → Option β} {I : ℕ → β → Prop} {n : ℕ} {b : β} (first : I 0 b)
    (step : ∀ i < n, ∀ b, I i b → ∃ b', f b i = some b' ∧ I (i + 1) b') :
    ∃ b', (List.range n).foldlM f b = some b' ∧ I n b' := by
  induction n with
  | zero => exact ⟨b, rfl, first⟩
  | succ n ih =>
    obtain ⟨b', hrun, hI⟩ := ih fun i hi => step i (by omega)
    obtain ⟨b'', hlast, hI'⟩ := step n (Nat.lt_succ_self n) b' hI
    refine ⟨b'', ?_, hI'⟩
    rw [List.range_succ, List.foldlM_append, hrun]
    show (List.foldlM f b' [n]) = _
    rw [List.foldlM_cons, hlast]
    rfl

end Matlab
