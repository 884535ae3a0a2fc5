import ProbableCause.Ddr2.Ctrl

/-!
# `Ddr2.RefreshCounter` — the refresh requests with and without `sp_refresh_disable`

`sp_refresh_disable` clears `refi_cnt_r` and nothing else. What the counter has already handed on to
`refi_cnt_ok_r` and `ref_flag_r` comes out one and two cycles later; then there are no requests,
until the counter has run from zero again (`refresh_disable_stops`). The counter leaves its last
value in the cycle in which it is seen there, so that not both of these two cycles have a request
(`CounterInv`).

Without `sp_refresh_disable` there is a request every `TREFI_COUNT + 1` cycles (`refFlagR_next`).
-/

namespace ProbableCause.Ddr2

open Clocked

variable {T : BitVec 32} {i : ℕ → Inputs} {s : Regs}

/-! ## The invariant -/

/-- **The counter is past its last value** when `refi_cnt_ok_r` says that it was there. -/
def CounterInv (T : BitVec 32) (s : Regs) : Prop := s.refiCntOkR = true → ¬ atLast T s

theorem not_atLast_of_zero (hT : 1 < T.toNat) (h : s.refiCntR = 0) : ¬ atLast T s := by
  rw [atLast_iff (Nat.lt_of_succ_lt hT), h]
  exact Nat.ne_of_lt hT

/-- An edge takes the counter away from its last value. -/
theorem not_atLast_step (hlow : 1 < T.toNat) (hhigh : T.toNat < 2 ^ 12)
    (h : atLast T s) (i : Inputs) :
    ¬ atLast T (step T i s) := by
  obtain hzero | hnext := refiCntR_step_cases (T := T) (s := s) i
  · exact not_atLast_of_zero hlow hzero
  · rw [atLast_iff (Nat.lt_of_succ_lt hlow)] at h ⊢
    have hone : (1 : BitVec 12).toNat = 1 := rfl
    rw [hnext, BitVec.toNat_add, hone, h, Nat.mod_eq_of_lt hhigh]
    exact Nat.succ_ne_self _

theorem counterInv_step (hlow : 1 < T.toNat) (hhigh : T.toNat < 2 ^ 12) (i : Inputs) (s : Regs) :
    CounterInv T (step T i s) := fun hok =>
  not_atLast_step hlow hhigh ((refiCntOkR_step i).mp hok) i

theorem counterInv_of_reachable (hlow : 1 < T.toNat) (hhigh : T.toNat < 2 ^ 12) (h : Reachable T s) :
    CounterInv T s := by
  apply h.inv
  · rintro s ⟨i, before, rfl⟩
    exact counterInv_step hlow hhigh i before
  · intro i s _
    exact counterInv_step hlow hhigh i s

/-! ## The chain of registers -/

/-- A request is the last value of the counter, two cycles later. -/
theorem refFlagR_run (i : ℕ → Inputs) (s : Regs) (n : ℕ) :
    (run T i s (n + 2)).refFlagR = true ↔ atLast T (run T i s n) := by
  rw [run, run_succ, run_succ, refFlagR_step]
  exact refiCntOkR_step (i n)

theorem refFlagR_run_eq_false {n : ℕ} (h : ¬ atLast T (run T i s n)) :
    (run T i s (n + 2)).refFlagR = false := by
  rw [← Bool.not_eq_true, refFlagR_run]
  exact h

/-- Two successive cycles have at most one request. -/
theorem not_both_refFlagR {n : ℕ} (h : CounterInv T (run T i s n)) :
    ¬ ((run T i s (n + 1)).refFlagR = true ∧ (run T i s (n + 2)).refFlagR = true) := by
  rintro ⟨hfirst, hsecond⟩
  rw [run, run_succ, refFlagR_step] at hfirst
  exact h hfirst ((refFlagR_run i s n).mp hsecond)

/-! ## With refresh disabled -/

/-- The counter is zero in the cycle after one with `sp_refresh_disable`. -/
theorem refiCntR_run_of_disable {n : ℕ} (h : (i n).spRefreshDisable = true) :
    (run T i s (n + 1)).refiCntR = 0 := by
  rw [run, run_succ]
  exact refiCntR_step_of_disable h

theorem refiCntR_zero {t u k : ℕ} (hdisable : ∀ k, t ≤ k → k < u → (i k).spRefreshDisable = true)
    (htk : t + 1 ≤ k) (hku : k ≤ u) : (run T i s k).refiCntR = 0 := by
  obtain ⟨n, rfl⟩ := Nat.exists_eq_add_of_le' (Nat.le_of_add_left_le htk)
  exact refiCntR_run_of_disable (hdisable n (Nat.le_of_succ_le_succ htk) hku)

/-- While the counter is not yet at its last value, and two cycles longer, there is no request. -/
theorem refFlagR_eq_false {t u k : ℕ} (hlow : 1 < T.toNat)
    (hdisable : ∀ k, t ≤ k → k < u → (i k).spRefreshDisable = true) (hu : t + 1 ≤ u) (htk : t + 3 ≤ k)
    (hku : k ≤ u + T.toNat) : (run T i s k).refFlagR = false := by
  obtain ⟨n, rfl⟩ := Nat.exists_eq_add_of_le' (show 2 ≤ k by omega)
  apply refFlagR_run_eq_false
  by_cases hn : n ≤ u
  · exact not_atLast_of_zero hlow (refiCntR_zero hdisable (by omega) hn)
  · -- the counter has run for `n - u` cycles
    obtain ⟨j, rfl⟩ := Nat.exists_eq_add_of_le (Nat.le_of_not_le hn)
    have hstart : (run T i s u).refiCntR = 0 := refiCntR_zero hdisable hu (Nat.le_refl u)
    have hcount := refiCntR_run_le (T := T) i s u j
    have hzero : (0 : BitVec 12).toNat = 0 := rfl
    rw [hstart, hzero] at hcount
    rw [atLast_iff (Nat.lt_of_succ_lt hlow)]
    omega

/-- **Refresh requests stop**, from any reachable state on: with `sp_refresh_disable` high from
    cycle `t` on the counter is zero from `t + 1` on and there is no request from `t + 3` on, with
    one at most in the two cycles before. If `sp_refresh_disable` goes low at a cycle `u`, all this
    holds up to `u`, and there is no request up to `u + TREFI_COUNT`. -/
theorem refresh_disable_stops (hlow : 2 < T.toNat) (hhigh : T.toNat < 2 ^ 12) (hs : Reachable T s)
    (i : ℕ → Inputs) (t : ℕ) :
    ((∀ k ≥ t, (i k).spRefreshDisable = true) →
      (∀ k ≥ t + 1, (run T i s k).refiCntR = 0) ∧ (∀ k ≥ t + 3, (run T i s k).refFlagR = false) ∧
        ¬ ((run T i s (t + 1)).refFlagR = true ∧ (run T i s (t + 2)).refFlagR = true)) ∧
    ∀ u ≥ t + 3, (∀ k, t ≤ k → k < u → (i k).spRefreshDisable = true) →
      (∀ k, t + 1 ≤ k → k ≤ u → (run T i s k).refiCntR = 0) ∧
        (∀ k, t + 3 ≤ k → k ≤ u + T.toNat → (run T i s k).refFlagR = false) ∧
        ¬ ((run T i s (t + 1)).refFlagR = true ∧ (run T i s (t + 2)).refFlagR = true) := by
  have hlow' : 1 < T.toNat := Nat.lt_of_succ_lt hlow
  have hpulse : ¬ ((run T i s (t + 1)).refFlagR = true ∧ (run T i s (t + 2)).refFlagR = true) :=
    not_both_refFlagR (counterInv_of_reachable hlow' hhigh (hs.run i t))
  refine ⟨fun hdisable => ⟨fun k hk => ?_, fun k hk => ?_, hpulse⟩,
    fun u hu hdisable => ⟨fun k htk hku => ?_, fun k htk hku => ?_, hpulse⟩⟩
  · exact refiCntR_zero (u := k) (fun j hj _ => hdisable j hj) hk (Nat.le_refl k)
  · exact refFlagR_eq_false (u := k) hlow' (fun j hj _ => hdisable j hj) (by omega) hk
      (Nat.le_add_right k _)
  · exact refiCntR_zero hdisable htk hku
  · exact refFlagR_eq_false hlow' hdisable (by omega) htk hku

/-- Refresh is disabled for three cycles, in a run of the board; there is no request in the `1559`
cycles after that. -/
theorem refresh_disable_stops_three :
    let s := step TREFI_COUNT (idle false) cleared
    let i := fun k => idle (decide (k < 3))
    (run TREFI_COUNT i s (3 + 1559)).refFlagR = false := by
  intro s i
  have hs : Reachable TREFI_COUNT s := .start ⟨idle false, cleared, rfl⟩
  obtain ⟨-, hstop⟩ := refresh_disable_stops (by decide) (by decide) hs i 0
  obtain ⟨-, hnone, -⟩ := hstop 3 (Nat.le_refl 3) fun k _ hk => decide_eq_true hk
  exact hnone _ (Nat.le_add_right 3 1559) (Nat.le_refl (3 + 1559))

/-- Nor does the main state machine get another request: `auto_ref_r` stays low once it is. -/
theorem autoRefR_stays_low {t n : ℕ} (hlow : 1 < T.toNat)
    (hdisable : ∀ k ≥ t, (i k).spRefreshDisable = true) (h : (run T i s (t + 3)).autoRefR = false) :
      (run T i s (t + 3 + n)).autoRefR = false := by
  induction n with
  | zero => exact h
  | succ n ih =>
    have hflag : (run T i s (t + 3 + n)).refFlagR = false :=
      refFlagR_eq_false (u := t + 3 + n) hlow (fun j hj _ => hdisable j hj) (by omega)
        (Nat.le_add_right _ n)
        (Nat.le_add_right _ _)
    rw [← Nat.add_assoc, run, run_succ, step]
    simp [ih, hflag]

/-! ## With refresh enabled -/

/-- The counter has run for `n` cycles. -/
structure Counting (n : ℕ) (s : Regs) : Prop where
  count : s.refiCntR.toNat = n
  go : s.refiCntOkR = false

theorem Counting.step {n : ℕ} {i : Inputs} (hhigh : T.toNat < 2 ^ 12) (h : Counting n s)
    (hn : n + 1 < T.toNat) (hrst : s.rstR1 = false) (hdisable : i.spRefreshDisable = false) :
      Counting (n + 1) (step T i s) := by
  constructor
  · have hone : (1 : BitVec 12).toNat = 1 := rfl
    rw [refiCntR_step_of_go hrst h.go hdisable, BitVec.toNat_add, h.count, hone]
    exact Nat.mod_eq_of_lt (Nat.lt_trans hn hhigh)
  · rw [← Bool.not_eq_true, refiCntOkR_step, atLast_iff (by omega), h.count]
    exact Nat.ne_of_lt hn

theorem Counting.run {u n : ℕ} (hhigh : T.toNat < 2 ^ 12) (hstart : Counting 0 (run T i s u))
    (hn : n < T.toNat) (hrst : ∀ k ≥ u, (run T i s k).rstR1 = false)
    (hdisable : ∀ k ≥ u, (i k).spRefreshDisable = false) :
    Counting n (run T i s (u + n)) := by
  induction n with
  | zero => exact hstart
  | succ n ih =>
    exact (ih (Nat.lt_of_succ_lt hn)).step hhigh hn (hrst _ (Nat.le_add_right u n))
      (hdisable _ (Nat.le_add_right u n))

/-- The cycle in which `sp_refresh_disable` goes low, after at least two cycles. -/
theorem counting_of_disable {t u : ℕ} (hlow : 1 < T.toNat)
    (hdisable : ∀ k, t ≤ k → k < u → (i k).spRefreshDisable = true) (hu : t + 2 ≤ u) :
      Counting 0 (run T i s u) := by
  obtain ⟨n, rfl⟩ := Nat.exists_eq_add_of_le' (Nat.le_of_add_left_le hu)
  constructor
  · rw [refiCntR_zero hdisable (by omega) (Nat.le_refl _)]
    rfl
  · rw [← Bool.not_eq_true, Ddr2.run, run_succ, refiCntOkR_step]
    exact not_atLast_of_zero hlow (refiCntR_zero hdisable (by omega) (Nat.le_succ _))

/-- A request. -/
theorem counting_of_refFlagR {i : Inputs} (h : CounterInv T s)
    (hflag : (step T i s).refFlagR = true) :
    Counting 0 (step T i s) := by
  rw [refFlagR_step] at hflag
  constructor
  · simp [Ddr2.step, hflag]
  · rw [← Bool.not_eq_true, refiCntOkR_step]
    exact h hflag

/-- **The next request** comes `TREFI_COUNT + 1` cycles after the counter has been cleared, and none
    before. So it does after `sp_refresh_disable` has gone low (`counting_of_disable`) and after the
    request before (`counting_of_refFlagR`). -/
theorem refFlagR_next {u : ℕ} (hlow : 0 < T.toNat) (hhigh : T.toNat < 2 ^ 12)
    (hstart : Counting 0 (run T i s u)) (hrst : ∀ k ≥ u, (run T i s k).rstR1 = false)
    (hdisable : ∀ k ≥ u, (i k).spRefreshDisable = false) :
    (run T i s (u + T.toNat + 1)).refFlagR = true ∧
      ∀ k, u + 1 ≤ k → k ≤ u + T.toNat → (run T i s k).refFlagR = false := by
  constructor
  · obtain ⟨last, hlast⟩ := Nat.exists_eq_add_of_le' hlow
    have hcounting := Counting.run hhigh hstart (n := last) (by omega) hrst hdisable
    rw [hlast, ← Nat.add_assoc, refFlagR_run, atLast_iff hlow, hcounting.count]
    exact hlast.symm
  · intro k huk hku
    obtain ⟨n, rfl⟩ := Nat.exists_eq_add_of_le' (Nat.le_of_add_left_le huk)
    obtain ⟨j, rfl⟩ := Nat.exists_eq_add_of_le (Nat.le_of_succ_le_succ huk)
    rw [Ddr2.run, run_succ, refFlagR_step]
    exact (Counting.run hhigh hstart (n := j) (by omega) hrst hdisable).go

end ProbableCause.Ddr2
