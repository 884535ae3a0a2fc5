import Mathlib.Order.Lattice
import Mathlib.Order.MinMax

/-!
# `Lib.FirstTime` — registers that are written once

A register holds `never` until something is found for the first time, and the value of that time
from then on (`record`). Over a list it comes to the value of the first element that has the
property (`foldl_record`), and once it has been written it stays (`foldl_record_of_ne`).

Where the values do not fall along the list, the first element with one of two properties has the
lesser one of the values (`first_or`).
-/

namespace FirstTime

variable {α β : Type} {p q : α → Bool} {value : α → β} {never reg : β} {l : List α}

/-- The value of the first element with the property, or `never`. -/
def first (p : α → Bool) (value : α → β) (never : β) (l : List α) : β :=
  ((l.find? p).map value).getD never

@[simp] theorem first_nil : first p value never [] = never := rfl

theorem first_cons_of_pos {a : α} (h : p a = true) : first p value never (a :: l) = value a := by
  rw [first, List.find?_cons_of_pos h]
  rfl

theorem first_cons_of_neg {a : α} (h : ¬ p a = true) :
    first p value never (a :: l) = first p value never l := by
  rw [first, List.find?_cons_of_neg h]
  rfl

/-- A property of all the values and of `never`. -/
theorem first_induction {P : β → Prop} (hnever : P never) (hvalue : ∀ a ∈ l, P (value a)) :
    P (first p value never l) := by
  unfold first
  cases hfind : l.find? p with
  | none => exact hnever
  | some a => exact hvalue a (List.mem_of_find?_eq_some hfind)

theorem first_congr {value' : α → β} (hp : ∀ a ∈ l, p a = q a)
    (hvalue : ∀ a ∈ l, value a = value' a) :
    first p value never l = first q value' never l := by
  induction l with
  | nil => rfl
  | cons a l ih =>
    obtain ⟨ha, hl⟩ := List.forall_mem_cons.mp hp
    obtain ⟨hvalue, hvalues⟩ := List.forall_mem_cons.mp hvalue
    by_cases hq : q a = true
    · rw [first_cons_of_pos (ha.trans hq), first_cons_of_pos hq, hvalue]
    · rw [first_cons_of_neg (ha ▸ hq), first_cons_of_neg hq]
      exact ih hl hvalues

/-- What becomes of the value. -/
theorem map_first {γ : Type} (f : β → γ) :
    f (first p value never l) = first p (fun a => f (value a)) (f never) l := by
  unfold first
  cases l.find? p <;> rfl

theorem first_map {γ : Type} {p : γ → Bool} {value : γ → β} (f : α → γ) (l : List α) :
    first p value never (l.map f) = first (fun a => p (f a)) (fun a => value (f a)) never l := by
  unfold first
  rw [List.find?_map, Option.map_map]
  rfl

/-! ## Two properties -/

/-- **The first time of either of two** is the earlier one. -/
theorem first_or [LinearOrder β] (hmono : l.Pairwise fun a b => value a ≤ value b)
    (hle : ∀ a ∈ l, value a ≤ never) :
    first (fun a => p a || q a) value never l =
      min (first p value never l) (first q value never l) := by
  induction l with
  | nil => exact (min_self never).symm
  | cons a l ih =>
    obtain ⟨hbefore, hmono'⟩ := List.pairwise_cons.mp hmono
    obtain ⟨ha, hle'⟩ := List.forall_mem_cons.mp hle
    -- nothing that is found later has a lesser value
    have hfirst : ∀ r : α → Bool, value a ≤ first r value never l :=
      fun r => first_induction ha hbefore
    by_cases hp : p a = true
    · have hor : first (fun a => p a || q a) value never (a :: l) = value a :=
        first_cons_of_pos (Bool.or_eq_true_iff.mpr (.inl hp))
      rw [hor, first_cons_of_pos hp]
      by_cases hq : q a = true
      · rw [first_cons_of_pos hq, min_self]
      · rw [first_cons_of_neg hq, min_eq_left (hfirst q)]
    · rw [first_cons_of_neg hp]
      by_cases hq : q a = true
      · have hor : first (fun a => p a || q a) value never (a :: l) = value a :=
          first_cons_of_pos (Bool.or_eq_true_iff.mpr (.inr hq))
        rw [hor, first_cons_of_pos hq, min_eq_right (hfirst p)]
      · have hor : first (fun a => p a || q a) value never (a :: l) =
            first (fun a => p a || q a) value never l :=
          first_cons_of_neg fun hor => (Bool.or_eq_true_iff.mp hor).elim hp hq
        rw [hor, first_cons_of_neg hq]
        exact ih hmono' hle'

/-! ## The register -/

variable [DecidableEq β]

/-- The register after one more element. -/
def record (p : α → Bool) (value : α → β) (never : β) (reg : β) (a : α) : β :=
  if p a = true ∧ reg = never then value a else reg

theorem record_of_ne (h : reg ≠ never) (a : α) : record p value never reg a = reg :=
  if_neg fun hand => h hand.2

/-- **A register that has been written stays as it is.** -/
theorem foldl_record_of_ne (h : reg ≠ never) (l : List α) :
    l.foldl (record p value never) reg = reg := by
  induction l with
  | nil => rfl
  | cons a l ih =>
    rw [List.foldl_cons, record_of_ne h]
    exact ih

/-- **A register holds the value of the first time.** -/
theorem foldl_record (hne : ∀ a ∈ l, value a ≠ never) :
    l.foldl (record p value never) never = first p value never l := by
  induction l with
  | nil => rfl
  | cons a l ih =>
    obtain ⟨ha, hl⟩ := List.forall_mem_cons.mp hne
    rw [List.foldl_cons]
    by_cases hp : p a = true
    · rw [first_cons_of_pos hp, record, if_pos ⟨hp, rfl⟩]
      exact foldl_record_of_ne ha l
    · rw [first_cons_of_neg hp, record, if_neg fun hand => hp hand.1]
      exact ih hl

end FirstTime
