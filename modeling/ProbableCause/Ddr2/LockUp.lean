import ProbableCause.Ddr2.Ctrl

/-!
# `Ddr2.LockUp` — why the DRAM locks the system

After a refresh `ref_just_happened` holds the fetch of commands off until `refi_cnt_r` is `0x30`, as
long as the command pipeline is empty. With `sp_refresh_disable` the counter stays at zero and the
time after the refresh does not pass: once the pipeline is empty no command is fetched until refresh
is enabled again (`refresh_disable_locks_up`), and for `0x30` cycles more (`held_off_after_enable`).
`hello.c` turns refresh on before it reads the memory, "otherwise the DRAM locks the system".

The pipeline stays empty because each of its registers is loaded from the one before only.
-/

namespace ProbableCause.Ddr2

open Clocked

variable {T : BitVec 32} {i : ℕ → Inputs} {s : Regs}

/-! ## The fetch held off -/

/-- The command pipeline is empty. -/
structure Empty (s : Regs) : Prop where
  afValidR : s.afValidR = false
  afValidR1 : s.afValidR1 = false
  afValidR2 : s.afValidR2 = false
  ctrlAfRdenR : s.ctrlAfRdenR = false

/-- The pipeline is empty, and no command is fetched. -/
structure HeldOff (s : Regs) : Prop extends Empty s where
  refJustHappened : s.refJustHappened = true

/-- The hold-off is never over. -/
structure LockedUp (s : Regs) : Prop extends HeldOff s where
  refiCntR : s.refiCntR = 0

theorem HeldOff.ctrlAfRden (h : HeldOff s) (i : Inputs) : ctrlAfRden i s = false := by
  simp [Ddr2.ctrlAfRden, h.refJustHappened]

theorem HeldOff.taken (h : HeldOff s) (i : Inputs) : taken i s = false := by
  rw [Ddr2.taken, h.ctrlAfRden, Bool.false_and]

/-- The pipeline stays empty while no command is taken, whatever the state of the main state
machine. -/
theorem Empty.step {i : Inputs} (h : Empty s) (htaken : Ddr2.taken i s = false) :
    Empty (step T i s) := by
  obtain ⟨hr, hr1, hr2, hrden⟩ := h
  exact ⟨by simp [Ddr2.step, hr1, hrden], by simp [Ddr2.step, hr, hr1],
    by simp [Ddr2.step, hr1, hr2], htaken⟩

/-- With the pipeline empty the hold-off begins when the counter is low. -/
theorem Empty.heldOff {i : Inputs} (h : Empty s) (hcount : s.refiCntR < 0x30)
    (htaken : Ddr2.taken i s = false) :
    HeldOff (Ddr2.step T i s) where
  toEmpty := h.step htaken
  refJustHappened := by
    rw [Ddr2.step, h.afValidR2, decide_eq_true hcount]
    rfl

/-! ## The lock-up -/

/-- **The way in**: refresh is disabled, the counter is low, and no command comes while the pipeline
is empty. -/
theorem Empty.lockedUp {i : Inputs} (h : Empty s) (hcount : s.refiCntR < 0x30)
    (htaken : Ddr2.taken i s = false) (hdisable : i.spRefreshDisable = true) :
      LockedUp (Ddr2.step T i s) where
  toHeldOff := h.heldOff hcount htaken
  refiCntR := refiCntR_step_of_disable hdisable

theorem LockedUp.count_lt (h : LockedUp s) : s.refiCntR < 0x30 := by
  rw [h.refiCntR]
  decide

theorem LockedUp.step {i : Inputs} (hdisable : i.spRefreshDisable = true) (h : LockedUp s) :
    LockedUp (Ddr2.step T i s) :=
  h.toEmpty.lockedUp h.count_lt (h.taken i) hdisable

/-- The lock-up lasts as long as refresh is disabled. -/
theorem LockedUp.run (h : LockedUp s) {n : ℕ} (hdisable : ∀ k < n, (i k).spRefreshDisable = true) :
    LockedUp (run T i s n) := by
  have hkeep : ∀ (i : Inputs) (s : Regs), i.spRefreshDisable = true → LockedUp s →
      LockedUp (Ddr2.step T i s) :=
    fun _ _ hrule hs => hs.step hrule
  exact inv_window (t := 0) hkeep (fun k _ hk => hdisable k hk) h (Nat.zero_le n) (Nat.le_refl n)

/-- **The lock-up**: once the pipeline is empty and the fetch is held off with the counter at zero,
    no command is read from the FIFO and no valid bit is set as long as `sp_refresh_disable` stays
    high, whatever the FIFO holds and whatever the main state machine does. -/
theorem refresh_disable_locks_up (T : BitVec 32) (h : LockedUp s) (i : ℕ → Inputs) (n : ℕ)
    (hdisable : ∀ k < n, (i k).spRefreshDisable = true) :
    let s' := run T i s n
    ctrlAfRden (i n) s' = false ∧ s'.afValidR = false ∧ s'.afValidR1 = false ∧ s'.afValidR2 = false ∧
      taken (i n) s' = false := by
  have hlocked := h.run (T := T) hdisable
  exact ⟨hlocked.ctrlAfRden (i n), hlocked.afValidR, hlocked.afValidR1, hlocked.afValidR2,
    hlocked.taken (i n)⟩

/-- The system is locked up one cycle after refresh has been disabled with the pipeline empty, and a
    read that the FIFO offers is not taken. -/
theorem refresh_disable_locks_up_read :
    let s := step TREFI_COUNT (idle true) cleared
    let i : ℕ → Inputs := fun _ =>
      { idle true with afEmpty := false, af := ⟨0x40000, 1⟩, stateR := CTRL_BURST_READ }
    ctrlAfRden (i 100) (run TREFI_COUNT i s 100) = false := by
  intro s i
  have hempty : Empty cleared := ⟨rfl, rfl, rfl, rfl⟩
  have hlocked : LockedUp s := hempty.lockedUp (by decide) rfl rfl
  obtain ⟨hrden, -⟩ := refresh_disable_locks_up TREFI_COUNT hlocked i 100 fun _ _ => rfl
  exact hrden

end ProbableCause.Ddr2
