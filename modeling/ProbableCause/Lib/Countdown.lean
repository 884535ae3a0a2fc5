import Mathlib.Algebra.Order.Ring.Nat

/-!
# `Lib.Countdown` — waiting times that are kept with counters

Some event `E` is to be at least `N` cycles ago before something else may happen (`Elapsed`). A
circuit keeps such a time with a counter, which the event loads, and a flag, which the event clears
and which is set when the counter has come close to zero. `Timed` ties the two to the events so far.
There is one rule for each thing a cycle can do: count down (`Timed.tick`), load the counter
(`Timed.load`) or leave it, if it is not too low (`Timed.keep`). A counter that is loaded by other
events too keeps the time of `E` as long as what they load covers what is left of it.

`left` is the number of cycles until the flag is set. With it the distance to a goal can be measured
that is reached after several such waits (`exists_goal`).
-/

namespace Countdown

variable {E : ℕ → Prop} {N M k cnt cnt' : ℕ} {ok ok' : Bool}

/-! ## Times that have passed -/

/-- Each event before the cycle `k` is at least `N` cycles ago. -/
def Elapsed (E : ℕ → Prop) (N k : ℕ) : Prop := ∀ s < k, E s → s + N ≤ k

theorem Elapsed.succ (h : Elapsed E N k) (hE : ¬ E k) : Elapsed E N (k + 1) := by
  intro s hs hEs
  rcases Nat.lt_succ_iff_lt_or_eq.mp hs with hlt | rfl
  · exact Nat.le_succ_of_le (h s hlt hEs)
  · exact absurd hEs hE

theorem Elapsed.mono (h : Elapsed E N k) (hle : M ≤ N) : Elapsed E M k := fun s hs hEs =>
  Nat.le_trans (Nat.add_le_add_left hle s) (h s hs hEs)

/-- Without events all times have passed. -/
theorem Elapsed.of_none (h : ∀ s < k, ¬ E s) : Elapsed E N k := fun s hs hEs => absurd hEs (h s hs)

theorem elapsed_one : Elapsed E 1 k := fun _ hs _ => hs

/-! ## Counters -/

/-- **The counter and its flag in cycle `k`**: the counter has not come down too far since any of
    the events, and the flag says that the next cycle is late enough. -/
structure Timed (E : ℕ → Prop) (N cnt : ℕ) (ok : Bool) (k : ℕ) : Prop where
  count : ∀ s < k, E s → s + N + 1 ≤ k + cnt
  flag : ok = true → ∀ s < k, E s → s + N ≤ k + 1

theorem Timed.zero : Timed E N cnt ok 0 where
  count s hs := absurd hs (Nat.not_lt_zero s)
  flag _ s hs := absurd hs (Nat.not_lt_zero s)

/-- The flag lets the next cycle begin late enough. -/
theorem Timed.elapsed (h : Timed E N cnt ok k) (hok : ok = true) (hE : ¬ E k) :
    Elapsed E N (k + 1) := by
  intro s hs hEs
  rcases Nat.lt_succ_iff_lt_or_eq.mp hs with hlt | rfl
  · exact h.flag hok s hlt hEs
  · exact absurd hEs hE

/-- **A cycle without an event** counts down, and may set the flag when the counter is `3` or less. -/
theorem Timed.tick (h : Timed E N cnt ok k) (hE : ¬ E k) (hcnt : cnt - 1 ≤ cnt')
    (hok : ok' = true → ok = true ∨ cnt ≤ 3 ∨ N ≤ 2) : Timed E N cnt' ok' (k + 1) := by
  have hbefore : ∀ s < k + 1, E s → s < k := fun s hs hEs =>
    (Nat.lt_succ_iff_lt_or_eq.mp hs).resolve_right fun he => hE (he ▸ hEs)
  constructor
  · intro s hs hEs
    have := h.count s (hbefore s hs hEs) hEs
    omega
  · intro hset s hs hEs
    have hs' := hbefore s hs hEs
    rcases hok hset with hold | hlow | hshort
    · exact Nat.le_succ_of_le (h.flag hold s hs' hEs)
    · have := h.count s hs' hEs
      omega
    · omega

/-- **A cycle that loads the counter** and clears the flag, or need not clear it. What it loads is
    enough for an event in this cycle, and for what is left of the time since the events before. -/
theorem Timed.load (hbefore : Elapsed E (N - cnt') k) (hnow : E k → N ≤ cnt')
    (hok : ok' = true → Elapsed E (N - 2) k ∧ (E k → N ≤ 2)) : Timed E N cnt' ok' (k + 1) := by
  constructor
  · intro s hs hEs
    rcases Nat.lt_succ_iff_lt_or_eq.mp hs with hlt | rfl
    · have := hbefore s hlt hEs
      omega
    · have := hnow hEs
      omega
  · intro hset s hs hEs
    obtain ⟨helapsed, hshort⟩ := hok hset
    rcases Nat.lt_succ_iff_lt_or_eq.mp hs with hlt | rfl
    · have := helapsed s hlt hEs
      omega
    · have := hshort hEs
      omega

/-- **A cycle that clears the flag** and does not count down. -/
theorem Timed.keep (h : Timed E N cnt ok k) (hcnt : cnt ≤ cnt') (hnow : E k → N ≤ cnt')
    (hok : ok' = false) :
    Timed E N cnt' ok' (k + 1) := by
  constructor
  · intro s hs hEs
    rcases Nat.lt_succ_iff_lt_or_eq.mp hs with hlt | rfl
    · have := h.count s hlt hEs
      omega
    · have := hnow hEs
      omega
  · intro hset
    rw [hok] at hset
    cases hset

/-! ## The cycles that are left -/

/-- How many cycles it takes at most until the flag is set. -/
def left (cnt : ℕ) (ok : Bool) : ℕ := if ok = true then 0 else max 1 (cnt - 2)

theorem left_eq_zero : left cnt ok = 0 ↔ ok = true := by
  unfold left
  by_cases h : ok = true
  · rw [if_pos h]
    exact iff_of_true rfl h
  · rw [if_neg h]
    refine iff_of_false (Nat.ne_of_gt ?_) h
    exact Nat.lt_of_lt_of_le Nat.one_pos (Nat.le_max_left 1 _)

/-- How many cycles it takes at most after a counter has been loaded. -/
def waitFor (count : ℕ) : ℕ := max 1 (count - 2)

theorem waitFor_mono (h : N ≤ M) : waitFor N ≤ waitFor M :=
  max_le_max_left 1 (Nat.sub_le_sub_right h 2)

theorem left_le (h : cnt ≤ N) : left cnt ok ≤ waitFor N := by
  unfold left
  split
  · exact Nat.zero_le _
  · exact waitFor_mono h

/-- A cycle without an event. -/
theorem left_tick (hcnt : cnt' ≤ cnt - 1) (hok : ok = true ∨ cnt ≤ 3 → ok' = true) :
    left cnt' ok' ≤ left cnt ok - 1 := by
  by_cases hset : ok = true ∨ cnt ≤ 3
  · rw [left_eq_zero.mpr (hok hset)]
    exact Nat.zero_le _
  · obtain ⟨hflag, hhigh⟩ := not_or.mp hset
    unfold left
    rw [if_neg hflag]
    split <;> omega

/-- **A goal is reached** when the distance to it gets smaller in each cycle before. -/
theorem exists_goal {goal Pending : ℕ → Prop} {distance : ℕ → ℕ}
    (hstep : ∀ n, Pending n → ¬ goal n → Pending (n + 1) ∧ distance (n + 1) < distance n)
    (h : Pending k) :
    ∃ m, k ≤ m ∧ m ≤ k + distance k ∧ goal m := by
  induction hd : distance k using Nat.strong_induction_on generalizing k with
  | _ d ih =>
    by_cases hgoal : goal k
    · exact ⟨k, Nat.le_refl k, Nat.le_add_right k d, hgoal⟩
    · obtain ⟨hpending, hless⟩ := hstep k h hgoal
      obtain ⟨m, hkm, hm, hreached⟩ := ih _ (hd ▸ hless) hpending rfl
      exact ⟨m, by omega, by omega, hreached⟩

end Countdown
