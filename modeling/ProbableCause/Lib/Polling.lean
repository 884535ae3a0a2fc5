import Mathlib.Data.List.Basic
import Mathlib.Algebra.Order.Ring.Nat

/-!
# `Lib.Polling` — loops that wait for a timer

A loop that polls a timer is a fold over what the timer says. Nothing happens at a turn at which the
timer is not due, and nothing when the loop has ended (`Polled`). `Polled.inv` is the rule for
invariants.

Such a loop ends if the timer goes on and each turn brings the end nearer
(`Polled.ended_of_potential`). Where something is done only at certain counts of a counter that
wraps around, among them its last one, it is done once in each period of the counter
(`Polled.ended_of_cycle`).
-/

namespace Polling

variable {σ : Type} {turn : σ → Bool → σ} {ended I : σ → Prop} {s : σ}

/-- A turn does something only if the timer is due and the loop has not ended, and then it keeps
`I`. -/
structure Polled (turn : σ → Bool → σ) (ended I : σ → Prop) : Prop where
  idle : ∀ s, turn s false = s
  stay : ∀ s, ended s → turn s true = s
  keep : ∀ s, I s → ¬ ended s → I (turn s true)

theorem Polled.turn_inv (h : Polled turn ended I) (hs : I s) (due : Bool) : I (turn s due) := by
  cases due with
  | false => rwa [h.idle]
  | true =>
    by_cases hend : ended s
    · rwa [h.stay s hend]
    · exact h.keep s hs hend

/-- **Invariants of a loop.** -/
theorem Polled.inv (h : Polled turn ended I) (polls : List Bool) (hs : I s) :
    I (polls.foldl turn s) := by
  induction polls generalizing s with
  | nil => exact hs
  | cons due polls ih => exact ih (h.turn_inv hs due)

/-- A loop that has ended. -/
theorem Polled.foldl_of_ended (h : Polled turn ended I) (polls : List Bool) (hs : ended s) :
    polls.foldl turn s = s := by
  induction polls with
  | nil => rfl
  | cons due polls ih =>
    have hturn : turn s due = s := by
      cases due with
      | false => exact h.idle s
      | true => exact h.stay s hs
    rw [List.foldl_cons, hturn]
    exact ih

/-- **A loop ends** after as many turns as the potential says. -/
theorem Polled.ended_of_potential (h : Polled turn ended I) (potential : σ → ℕ)
    (hless : ∀ s, I s → ¬ ended s → potential (turn s true) < potential s)
    {polls : List Bool} (hs : I s) (hpolls : potential s ≤ polls.count true) :
      ended (polls.foldl turn s) := by
  induction polls generalizing s with
  | nil =>
    refine Classical.byContradiction fun hend => ?_
    have hzero : potential s = 0 := Nat.le_zero.mp hpolls
    exact Nat.not_lt_zero _ (hzero ▸ hless s hs hend)
  | cons due polls ih =>
    by_cases hend : ended s
    · rwa [h.foldl_of_ended _ hend]
    · cases due with
      | false =>
        rw [List.foldl_cons, h.idle]
        rw [List.count_cons_of_ne Bool.false_ne_true] at hpolls
        exact ih hs hpolls
      | true =>
        have hstep := hless s hs hend
        rw [List.count_cons_self] at hpolls
        exact ih (h.keep s hs hend) (by omega)

/-! ## Counters that wrap around -/

/-- The turns until a counter comes to its last value `n - 1` again. -/
def untilLast (n count : ℕ) : ℕ := (2 * n - 2 - count) % n + 1

theorem untilLast_le {n : ℕ} (hn : 0 < n) (count : ℕ) : untilLast n count ≤ n := Nat.mod_lt _ hn

theorem untilLast_succ {n count : ℕ} (hcount : count < n) (hlast : (count + 1) % n ≠ n - 1) :
    untilLast n ((count + 1) % n) + 1 = untilLast n count := by
  unfold untilLast
  by_cases hwrap : count + 1 = n
  · -- the counter was at its last value, and is zero
    rw [hwrap, Nat.mod_self] at hlast ⊢
    have hold : 2 * n - 2 - count = n - 1 := by omega
    have hnew : 2 * n - 2 - 0 = n - 2 + n := by omega
    rw [hold, hnew, Nat.add_mod_right, Nat.mod_eq_of_lt (by omega), Nat.mod_eq_of_lt (by omega)]
    omega
  · have hcount' : (count + 1) % n = count + 1 := Nat.mod_eq_of_lt (by omega)
    rw [hcount'] at hlast ⊢
    have hold : 2 * n - 2 - count = n - 2 - count + n := by omega
    have hnew : 2 * n - 2 - (count + 1) = n - 3 - count + n := by omega
    rw [hold, hnew, Nat.add_mod_right, Nat.add_mod_right, Nat.mod_eq_of_lt (by omega),
      Nat.mod_eq_of_lt (by omega)]
    omega

/-- **A loop with a counter ends** if it does one of `total` things whenever the counter comes to
its last value. -/
theorem Polled.ended_of_cycle (h : Polled turn ended I) {n : ℕ} (hn : 0 < n) (total : ℕ)
    (counter completed : σ → ℕ) (hcounter : ∀ s, I s → counter s < n)
    (htotal : ∀ s, I s → ¬ ended s → completed s < total)
    (hcycle : ∀ s, I s → ¬ ended s → counter (turn s true) = (counter s + 1) % n)
      (hstep : ∀ s, I s → ¬ ended s → completed (turn s true) = completed s + 1 ∨
        completed (turn s true) = completed s ∧ counter (turn s true) ≠ n - 1) {polls :
          List Bool} (hs : I s)
    (hpolls : (total + 1) * n ≤ polls.count true) : ended (polls.foldl turn s) := by
  refine h.ended_of_potential (fun s => (total - completed s) * n + untilLast n (counter s))
    (fun s hs hend => ?_) hs ?_
  · have hlt := htotal s hs hend
    have hleft : total - completed s = total - (completed s + 1) + 1 := by omega
    obtain hmore | ⟨hsame, hlast⟩ := hstep s hs hend
    · -- one thing more, at any count
      have hnew := untilLast_le hn (counter (turn s true))
      have hold : 0 < untilLast n (counter s) := Nat.succ_pos _
      rw [hmore, hleft, Nat.succ_mul]
      omega
    · -- nothing yet, and the last count is nearer
      rw [hcycle s hs hend] at hlast ⊢
      have hnearer := untilLast_succ (hcounter s hs) hlast
      rw [hsame]
      omega
  · have hle := untilLast_le hn (counter s)
    have hmul : (total - completed s) * n ≤ total * n := Nat.mul_le_mul_right n (Nat.sub_le _ _)
    rw [Nat.succ_mul] at hpolls
    omega

end Polling
