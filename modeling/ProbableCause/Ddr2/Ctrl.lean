import ProbableCause.Lib.Clocked

/-!
# `Ddr2.Ctrl` — the registers of `ddr2_ctrl.v` for refresh and command fetch

Two parts of the DDR2 controller: the counter that asks for a refresh every `TREFI_COUNT + 1`
cycles, with the input `sp_refresh_disable` that the project has added, and the pipeline that
fetches commands from the address FIFO. They are joined by `ref_approaching` and
`ref_just_happened`, which hold the fetch off around a refresh.

The state register of the main state machine is an input here, and so is what the FIFO shows:
nothing below depends on what they do.
-/

namespace ProbableCause.Ddr2

/-! ## The circuit -/

def CTRL_AUTO_REFRESH : BitVec 5 := 0x03
def CTRL_BURST_READ : BitVec 5 := 0x07
def CTRL_BURST_WRITE : BitVec 5 := 0x09

/-- A command and its address, as the FIFO gives them. -/
structure AfData where
  addr : BitVec 31
  cmd : BitVec 3

/-- What is not decided by the registers below in a cycle. -/
structure Inputs where
  rst : Bool
  spRefreshDisable : Bool
  afEmpty : Bool
  af : AfData
  /-- the register of the main state machine -/
  stateR : BitVec 5
  /-- the values for which the source has `x`, that is any values -/
  x1 : AfData
  x2 : AfData

structure Regs where
  rstR : Bool
  rstR1 : Bool
  refApproaching : Bool
  refJustHappened : Bool
  rdAfFlagR : Bool
  afValidR : Bool
  afValidR1 : Bool
  afR1 : AfData
  afValidR2 : Bool
  afR2 : AfData
  smRdenR : Bool
  ctrlAfRdenR : Bool
  refiCntOkR : Bool
  refiCntR : BitVec 12
  refFlagR : Bool
  autoRefR : Bool

def smRden (i : Inputs) : Bool := i.stateR == CTRL_BURST_WRITE || i.stateR == CTRL_BURST_READ

/-- The read enable of the FIFO. -/
def ctrlAfRden (i : Inputs) (s : Regs) : Bool :=
  (smRden i || s.rdAfFlagR) && !(s.refApproaching || s.refJustHappened)

/-- The registers after a rising edge of the clock. Comparisons with `TREFI_COUNT` are unsigned and
on 32 bits. -/
def step (TREFI_COUNT : BitVec 32) (i : Inputs) (s : Regs) : Regs where
  rstR := i.rst
  rstR1 := s.rstR
  refApproaching := decide (s.refiCntR.setWidth 32 ≥ TREFI_COUNT - 80) && !s.afValidR2
  refJustHappened := decide (s.refiCntR < 0x30) && !s.afValidR2
  rdAfFlagR :=
    if s.rstR1 then false
    else if s.rdAfFlagR then false
    else if s.ctrlAfRdenR || (s.afValidR || s.afValidR1) then false
    else if !s.afValidR1 || !s.afValidR then true
    else s.rdAfFlagR
  afValidR :=
    if s.rstR1 then false
    else if s.ctrlAfRdenR || s.smRdenR || !s.afValidR1 || !s.afValidR2 then s.ctrlAfRdenR
    else s.afValidR
  afValidR1 :=
    if s.rstR1 then false
    else if !s.afValidR1 || s.smRdenR || !s.afValidR2 then s.afValidR
    else s.afValidR1
  afR1 :=
    if s.rstR1 then i.x1
    else if !s.afValidR1 || s.smRdenR || !s.afValidR2 then i.af
    else s.afR1
  afValidR2 :=
    if s.rstR1 then false
    else if smRden i || !s.afValidR2 then s.afValidR1
    else s.afValidR2
  afR2 :=
    if s.rstR1 then i.x2
    else if smRden i || !s.afValidR2 then s.afR1
    else s.afR2
  smRdenR := smRden i
  ctrlAfRdenR := ctrlAfRden i s && !i.afEmpty
  refiCntOkR := if s.refiCntR.setWidth 32 = TREFI_COUNT - 1 then true else false
  refiCntR := if s.rstR1 || s.refiCntOkR || i.spRefreshDisable then 0 else s.refiCntR + 1
  refFlagR := if s.refiCntOkR then true else false
  autoRefR :=
    if s.rstR1 then false
    else if s.refFlagR then true
    else if i.stateR = CTRL_AUTO_REFRESH then false
    else s.autoRefR

/-! ## Runs -/

variable {T : BitVec 32} {i : ℕ → Inputs} {s : Regs}

/-- The registers in each cycle. -/
abbrev run (T : BitVec 32) (i : ℕ → Inputs) (s : Regs) : ℕ → Regs := Clocked.run (step T) i s

/-- The registers after the first edge of the clock. Before it they may hold anything, and nothing
    is assumed of the reset. -/
def PoweredUp (T : BitVec 32) (s : Regs) : Prop := ∃ i before, s = step T i before

abbrev Reachable (T : BitVec 32) : Regs → Prop := Clocked.Reachable (step T) (PoweredUp T)

/-- A command is taken from the FIFO. -/
def taken (i : Inputs) (s : Regs) : Bool := ctrlAfRden i s && !i.afEmpty

/-! ### The board -/

/-- The settings of the board: a refresh every `7800` ns at `200` MHz. -/
def TREFI_COUNT : BitVec 32 := 7800 * 1000 / 5000 - 1

/-- Registers that hold zero before the first edge. -/
def cleared : Regs where
  rstR := false
  rstR1 := false
  refApproaching := false
  refJustHappened := false
  rdAfFlagR := false
  afValidR := false
  afValidR1 := false
  afR1 := ⟨0, 0⟩
  afValidR2 := false
  afR2 := ⟨0, 0⟩
  smRdenR := false
  ctrlAfRdenR := false
  refiCntOkR := false
  refiCntR := 0
  refFlagR := false
  autoRefR := false

/-- An idle cycle. -/
def idle (spRefreshDisable : Bool) : Inputs :=
  ⟨false, spRefreshDisable, true, ⟨0, 0⟩, 0, ⟨0, 0⟩, ⟨0, 0⟩⟩

/-! ## The refresh counter in the next cycle -/

/-- The counter is at its last value. -/
def atLast (T : BitVec 32) (s : Regs) : Prop := s.refiCntR.setWidth 32 = T - 1

theorem atLast_iff (hT : 0 < T.toNat) : atLast T s ↔ s.refiCntR.toNat + 1 = T.toNat := by
  have hT' := T.isLt
  have hcount := s.refiCntR.isLt
  have hone : (1 : BitVec 32).toNat = 1 := rfl
  rw [atLast, ← BitVec.toNat_inj, BitVec.toNat_setWidth, Nat.mod_eq_of_lt (by omega),
    BitVec.toNat_sub, hone]
  omega

theorem refiCntOkR_step (i : Inputs) : (step T i s).refiCntOkR = true ↔ atLast T s := by
  simp [step, atLast]

@[simp] theorem refFlagR_step (i : Inputs) : (step T i s).refFlagR = s.refiCntOkR := by
  simp [step]

theorem refiCntR_step_of_disable {i : Inputs} (h : i.spRefreshDisable = true) :
    (step T i s).refiCntR = 0 := by
  simp [step, h]

/-- An edge advances the counter, or clears it. -/
theorem refiCntR_step_cases (i : Inputs) :
    (step T i s).refiCntR = 0 ∨ (step T i s).refiCntR = s.refiCntR + 1 := by
  unfold step
  dsimp only
  split
  · exact Or.inl rfl
  · exact Or.inr rfl

theorem refiCntR_step_le (i : Inputs) : (step T i s).refiCntR.toNat ≤ s.refiCntR.toNat + 1 := by
  obtain hzero | hnext := refiCntR_step_cases (T := T) (s := s) i
  · rw [hzero]
    exact Nat.zero_le _
  · rw [hnext, BitVec.toNat_add]
    exact Nat.mod_le _ _

/-- The counter counts no more than the cycles. -/
theorem refiCntR_run_le (i : ℕ → Inputs) (s : Regs) (t n : ℕ) :
    (run T i s (t + n)).refiCntR.toNat ≤ (run T i s t).refiCntR.toNat + n :=
  Clocked.le_add_of_step (fun s : Regs => s.refiCntR.toNat) (fun i _ => refiCntR_step_le i) t n

theorem refiCntR_step_of_go {i : Inputs} (hrst : s.rstR1 = false) (hok : s.refiCntOkR = false)
    (hdisable : i.spRefreshDisable = false) : (step T i s).refiCntR = s.refiCntR + 1 := by
  simp [step, hrst, hok, hdisable]

end ProbableCause.Ddr2
