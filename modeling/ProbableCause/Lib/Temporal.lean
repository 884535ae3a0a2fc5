import Mathlib.Order.Basic

/-!
# `Lib.Temporal` — what happens some time in a run

`LeadsTo P Q` says that whenever `P` holds `Q` holds then or later. There are two rules for it,
neither of which says how long it takes. What lasts until something happens that happens again and
again leads to the effect of that (`LeadsTo.of_recurs`). What leads to the goal or to itself with a
lower rank leads to the goal (`LeadsTo.of_rank`).
-/

namespace Temporal

/-- It happens again and again. -/
def Recurs (E : ℕ → Prop) : Prop := ∀ n, ∃ k ≥ n, E k

/-- Whenever the one holds, the other one holds then or later. -/
def LeadsTo (P Q : ℕ → Prop) : Prop := ∀ n, P n → ∃ k ≥ n, Q k

variable {P Q E : ℕ → Prop}

/-- **Waiting for an event** that has an effect. -/
theorem LeadsTo.of_recurs (hE : Recurs E) (hstep : ∀ n, P n → P (n + 1) ∨ Q (n + 1))
    (heffect : ∀ n, P n → E n → Q (n + 1)) : LeadsTo P Q := by
  intro n hP
  obtain ⟨k, hk, hEk⟩ := hE n
  obtain ⟨d, rfl⟩ := Nat.exists_eq_add_of_le hk
  clear hk
  -- on the number of steps to the event
  induction d generalizing n with
  | zero => exact ⟨n + 1, Nat.le_succ n, heffect n hP hEk⟩
  | succ d ih =>
    rcases hstep n hP with hP' | hQ
    · obtain ⟨k, hk, hQ⟩ := ih (n + 1) hP' (by
        rw [Nat.add_right_comm]
        exact hEk)
      exact ⟨k, Nat.le_of_succ_le hk, hQ⟩
    · exact ⟨n + 1, Nat.le_succ n, hQ⟩

/-- **A rank that falls.** -/
theorem LeadsTo.of_rank {P : ℕ → ℕ → Prop}
    (h : ∀ r, LeadsTo (P r) fun n => Q n ∨ ∃ r' < r, P r' n) (r : ℕ) :
    LeadsTo (P r) Q := by
  induction r using Nat.strongRecOn with
  | _ r ih =>
    intro n hP
    obtain ⟨k, hk, hQ | ⟨r', hless, hP'⟩⟩ := h r n hP
    · exact ⟨k, hk, hQ⟩
    · obtain ⟨j, hj, hQ⟩ := ih r' hless k hP'
      exact ⟨j, Nat.le_trans hk hj, hQ⟩

end Temporal
