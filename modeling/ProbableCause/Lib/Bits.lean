import Mathlib.Data.List.Range

/-!
# `Lib.Bits` — counting the one bits of words

`ones x` is the number of one bits of `x` and `total` that of a list of words. Complement
(`ones_not`) and disjoint union (`ones_or`) are the two laws from which the counts of the other
operations follow. `countP_testBit_succ` peels the lowest bit off a number, for programs that count
by shifting.
-/

namespace Bits

variable {w : ℕ}

/-- The number of one bits. -/
def ones (x : BitVec w) : ℕ := (List.range w).countP x.getLsbD

/-- The number of one bits of a list of words. -/
def total : List (BitVec w) → ℕ
  | [] => 0
  | x :: l => ones x + total l

theorem ones_le (x : BitVec w) : ones x ≤ w := by
  have hcount : (List.range w).countP x.getLsbD ≤ (List.range w).length := List.countP_le_length
  rwa [List.length_range] at hcount

/-- Every bit is a one of the word or of its complement. -/
theorem ones_not (x : BitVec w) : ones (~~~x) + ones x = w := by
  have hflip : ones (~~~x) = (List.range w).countP fun i => !x.getLsbD i := by
    apply List.countP_congr
    intro i hi
    simp [List.mem_range.mp hi]
  have hsplit := List.length_eq_countP_add_countP x.getLsbD (l := List.range w)
  simp only [Bool.not_eq_true, Bool.decide_eq_false, List.length_range] at hsplit
  rw [hflip, ones]
  omega

theorem ones_eq_zero_iff {x : BitVec w} : ones x = 0 ↔ x = 0 := by
  rw [ones, List.countP_eq_zero]
  constructor
  · intro h
    apply BitVec.eq_of_getLsbD_eq
    intro i hi
    simpa using h i (List.mem_range.mpr hi)
  · rintro rfl i -
    simp

/-- The ones of words that share none. -/
theorem ones_or {x y : BitVec w} (h : x &&& y = 0) : ones (x ||| y) = ones x + ones y := by
  have hbit : ∀ i, (x.getLsbD i && y.getLsbD i) = false := by
    intro i
    rw [← BitVec.getLsbD_and, h]
    simp
  rw [ones, ones, ones]
  induction List.range w with
  | nil => rfl
  | cons i l ih =>
    have hi := hbit i
    rw [List.countP_cons, List.countP_cons, List.countP_cons, ih, BitVec.getLsbD_or]
    cases hx : x.getLsbD i with
    | false => simp only [Bool.false_or, Bool.false_eq_true, if_false]; omega
    | true =>
      have hy : y.getLsbD i = false := by simpa [hx] using hi
      simp only [hy, Bool.or_false, Bool.false_eq_true, if_true, if_false]
      omega

/-- The ones of a concatenation. -/
theorem ones_append {v : ℕ} (x : BitVec w) (y : BitVec v) : ones (x ++ y) = ones x + ones y := by
  have hlow : (List.range v).countP (x ++ y).getLsbD = (List.range v).countP y.getLsbD := by
    apply List.countP_congr
    intro i hi
    rw [BitVec.getLsbD_append, if_pos (List.mem_range.mp hi)]
  have hhigh : ((List.range w).map (v + ·)).countP (x ++ y).getLsbD =
      (List.range w).countP x.getLsbD := by
    rw [List.countP_map]
    apply List.countP_congr
    intro i _
    rw [Function.comp_apply, BitVec.getLsbD_append, if_neg (Nat.not_lt.mpr (Nat.le_add_right v i)),
      Nat.add_sub_cancel_left]
  have hrange : List.range (w + v) = List.range v ++ (List.range w).map (v + ·) := by
    rw [Nat.add_comm, List.range_add]
  rw [ones, hrange, List.countP_append, hlow, hhigh, Nat.add_comm]
  rfl

/-- The lowest bit and the others, of a number. -/
theorem countP_testBit_succ (k n : ℕ) :
    (List.range (k + 1)).countP n.testBit = n % 2 + (List.range k).countP (n / 2).testBit := by
  have hrest : (List.range k).map Nat.succ = (List.range k).map (· + 1) := rfl
  rw [List.range_succ_eq_map, List.countP_cons, List.countP_map, Nat.testBit_zero]
  have hshift : n.testBit ∘ Nat.succ = (n / 2).testBit := by
    funext i
    exact Nat.testBit_succ n i
  rw [hshift, Nat.add_comm]
  congr 1
  have hmod : n % 2 < 2 := Nat.mod_lt n (by decide)
  split <;> rename_i h <;> simp at h <;> omega

/-! ## Lists of words -/

@[simp] theorem total_nil : total ([] : List (BitVec w)) = 0 := rfl

@[simp] theorem total_cons (x : BitVec w) (l : List (BitVec w)) :
    total (x :: l) = ones x + total l := rfl

theorem total_append (l l' : List (BitVec w)) : total (l ++ l') = total l + total l' := by
  induction l with
  | nil => simp
  | cons x l ih => rw [List.cons_append, total_cons, total_cons, ih, Nat.add_assoc]

theorem total_le (l : List (BitVec w)) : total l ≤ w * l.length := by
  induction l with
  | nil => exact Nat.zero_le _
  | cons x l ih =>
    have hx := ones_le x
    rw [total_cons, List.length_cons, Nat.mul_succ]
    omega

/-- Every bit of a list of words is a one or a zero. -/
theorem total_map_not (l : List (BitVec w)) : total l + total (l.map (~~~·)) = w * l.length := by
  induction l with
  | nil => rfl
  | cons x l ih =>
    have hx := ones_not x
    rw [List.map_cons, total_cons, total_cons, List.length_cons, Nat.mul_succ]
    omega

theorem total_eq_zero_iff {l : List (BitVec w)} : total l = 0 ↔ ∀ x ∈ l, x = 0 := by
  induction l with
  | nil => simp
  | cons x l ih => simp [ones_eq_zero_iff, ih]

theorem total_replicate (n : ℕ) (x : BitVec w) : total (List.replicate n x) = n * ones x := by
  induction n with
  | zero => simp
  | succ n ih => rw [List.replicate_succ, total_cons, ih, Nat.succ_mul, Nat.add_comm]

/-- The ones of a difference are those of the first word alone and those of the second alone. -/
theorem ones_xor (x y : BitVec w) : ones (x ^^^ y) = ones (~~~x &&& y) + ones (~~~y &&& x) := by
  have hsplit : x ^^^ y = (~~~x &&& y) ||| (~~~y &&& x) := by
    apply BitVec.eq_of_getLsbD_eq
    intro i hi
    simp only [BitVec.getLsbD_xor, BitVec.getLsbD_or, BitVec.getLsbD_and, BitVec.getLsbD_not, hi]
    cases x.getLsbD i <;> cases y.getLsbD i <;> rfl
  have hdisjoint : (~~~x &&& y) &&& (~~~y &&& x) = 0 := by
    apply BitVec.eq_of_getLsbD_eq
    intro i hi
    simp only [BitVec.getLsbD_and, BitVec.getLsbD_not, hi]
    cases x.getLsbD i <;> cases y.getLsbD i <;> simp
  rw [hsplit, ones_or hdisjoint]

theorem total_zipWith_xor (l l' : List (BitVec w)) :
    total (List.zipWith (· ^^^ ·) l l') =
      total (List.zipWith (fun x y => ~~~x &&& y) l l') + total
        (List.zipWith (fun x y => ~~~x &&& y) l' l) := by
  induction l generalizing l' with
  | nil => simp
  | cons x l ih =>
    cases l' with
    | nil => simp
    | cons y l' =>
      simp only [List.zipWith_cons_cons, total_cons, ones_xor, ih]
      omega

/-- The ones of an intersection are ones of the first word. -/
theorem ones_and_le (x y : BitVec w) : ones (x &&& y) ≤ ones x := by
  rw [ones, ones]
  apply List.countP_mono_left
  intro i _ hi
  rw [BitVec.getLsbD_and] at hi
  exact (Bool.and_eq_true_iff.mp hi).1

theorem total_zipWith_not_and_le (l l' : List (BitVec w)) :
    total (List.zipWith (fun x y => ~~~x &&& y) l l') ≤ total (l.map (~~~·)) := by
  induction l generalizing l' with
  | nil => simp
  | cons x l ih =>
    cases l' with
    | nil => simp
    | cons y l' =>
      have hx := ones_and_le (~~~x) y
      have htail := ih l'
      simp only [List.zipWith_cons_cons, List.map_cons, total_cons]
      omega

end Bits
