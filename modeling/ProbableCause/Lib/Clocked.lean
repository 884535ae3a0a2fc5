import Mathlib.Algebra.Order.Ring.Nat

/-!
# `Lib.Clocked` — synchronous circuits

The registers of a synchronous circuit change at the edges of its clock only, all at once. `step`
says to what, for the inputs of the cycle and the registers before the edge; `run` puts cycle after
cycle.

Two rules for invariants: over all reachable states (`Reachable.inv`), and over the cycles of a
window in which the inputs obey a rule (`inv_window`). A counter that an edge advances by one at
most is bounded by the cycles that have passed (`le_add_of_step`).
-/

namespace Clocked

variable {ι σ : Type*} {step : ι → σ → σ} {initial I : σ → Prop} {Rule : ι → Prop} {i : ℕ → ι} {s : σ}

/-- The registers in each cycle, if they are `s` in cycle `0`. -/
def run (step : ι → σ → σ) (i : ℕ → ι) (s : σ) : ℕ → σ
  | 0 => s
  | n + 1 => step (i n) (run step i s n)

theorem run_succ (step : ι → σ → σ) (i : ℕ → ι) (s : σ) (n : ℕ) :
    run step i s (n + 1) = step (i n) (run step i s n) := rfl

/-! ## Reachable states -/

/-- The states of all runs that start in an initial state. -/
inductive Reachable (step : ι → σ → σ) (initial : σ → Prop) : σ → Prop where
  | start {s : σ} (h : initial s) : Reachable step initial s
  | step (i : ι) {s : σ} (h : Reachable step initial s) : Reachable step initial (step i s)

theorem Reachable.run (h : Reachable step initial s) (i : ℕ → ι) (n : ℕ) :
    Reachable step initial (run step i s n) := by
  induction n with
  | zero => exact h
  | succ n ih => exact .step (i n) ih

/-- **Invariants.** -/
theorem Reachable.inv (hinitial : ∀ s, initial s → I s) (hstep : ∀ i s, I s → I (step i s))
    (h : Reachable step initial s) : I s := by
  induction h with
  | start h => exact hinitial _ h
  | step i _ ih => exact hstep i _ ih

/-! ## Windows -/

/-- **Invariants of a window**, from the cycle `t` to the cycle `u`, in which the inputs obey a
rule. -/
theorem inv_window {t u : ℕ} (hkeep : ∀ i s, Rule i → I s → I (step i s))
    (hrule : ∀ k, t ≤ k → k < u → Rule (i k)) (hstart : I (run step i s t)) {k : ℕ} (htk : t ≤ k)
    (hku : k ≤ u) : I (run step i s k) := by
  induction k, htk using Nat.le_induction with
  | base => exact hstart
  | succ k htk ih => exact hkeep _ _ (hrule k htk hku) (ih (Nat.le_of_succ_le hku))

/-- A counter that an edge advances by one at most. -/
theorem le_add_of_step (count : σ → ℕ) (hcount : ∀ i s, count (step i s) ≤ count s + 1) (t n : ℕ) :
    count (run step i s (t + n)) ≤ count (run step i s t) + n := by
  induction n with
  | zero => exact Nat.le_refl _
  | succ n ih => exact Nat.le_trans (hcount _ _) (Nat.succ_le_succ ih)

end Clocked
