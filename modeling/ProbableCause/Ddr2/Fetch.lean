import ProbableCause.Ddr2.StateMachine

/-!
# `Ddr2.Fetch` — no command is lost on its way from the FIFO to the state machine

A command that is taken from the address FIFO goes through three stages and is executed in the last
one, in the states `CTRL_BURST_WRITE` and `CTRL_BURST_READ`. `Pipeline` says where the commands are:
as many as have been taken and not been executed are in the stages, two at most, and each stage
holds the right one. After a command has been executed, the second stage is moved on one cycle late,
and what it holds in that cycle is in the last stage already (`live1`).

This needs a FIFO with an output register, which shows a command two cycles after it was taken
(`executes_in_order`). A FIFO that shows it one cycle after already shows the next command, if that
is taken in the cycle after: then the pipeline is right exactly as long as no commands are taken in
successive cycles (`fetches_in_order_iff`).
-/

namespace ProbableCause.Ddr2.Controller

variable {P : Params} {s : Regs P} {i : Inputs P}

/-! ## The command of the state machine -/

/-- The command that the state machine works on is in the last stage. -/
def HasCommand (s : Regs P) : State → Prop
  | .active => s.ctrl.afValidR2 = true
  | .activeWait => s.ctrl.afValidR2 = true ∧ s.wrFlagR = s.wrFlag ∧ s.rdFlagR = s.rdFlag
  | .precharge | .prechargeWait => s.autoRefR = false → s.ctrl.afValidR2 = true
  | .burstWrite => s.wrFlag = true
  | .burstRead => s.rdFlag = true
  | _ => True

/-- The last stage keeps its command until it is executed. -/
theorem ctrl_step_of_held (hrst : s.ctrl.rstR1 = false) (hvalid : s.ctrl.afValidR2 = true)
    (hstate : s.stateR.isBurst = false) :
    (step i s).ctrl.afValidR2 = true ∧ (step i s).ctrl.afR2 = s.ctrl.afR2 ∧
      (step i s).stage = s.stage := by
  simp [step, Ddr2.step, hrst, hvalid, hstate, Regs.smRden]

theorem flags_of_held (hrst : s.ctrl.rstR1 = false) (hvalid : s.ctrl.afValidR2 = true)
    (hstate : s.stateR.isBurst = false) :
    (step i s).wrFlag = s.wrFlag ∧ (step i s).rdFlag = s.rdFlag := by
  obtain ⟨hvalid', haf, -⟩ := ctrl_step_of_held (i := i) hrst hvalid hstate
  simp only [Regs.wrFlag, Regs.rdFlag, hvalid', haf, hvalid, and_self]

/-- A refresh request stays until the refresh. -/
theorem autoRefR_step_of_request (hrst : s.ctrl.rstR1 = false) (hauto : s.autoRefR = true)
    (hstate : s.stateR ≠ .autoRefresh) : (step i s).autoRefR = true := by
  have hcode : s.stateR.code ≠ CTRL_AUTO_REFRESH := fun h => hstate (State.code_eq_autoRefresh.mp h)
  rw [Regs.autoRefR] at hauto
  simp [Regs.autoRefR, step, Ddr2.step, hrst, hauto, Inputs.ctrl, hcode]

theorem valid_of_wrFlag (h : s.wrFlag = true) : s.ctrl.afValidR2 = true :=
  (Bool.and_eq_true _ _ ▸ h : _ ∧ _).1
theorem valid_of_rdFlag (h : s.rdFlag = true) : s.ctrl.afValidR2 = true :=
  (Bool.and_eq_true _ _ ▸ h : _ ∧ _).1

theorem cmd_of_wrFlag (h : s.wrFlag = true) : s.ctrl.afR2.cmd = 0 :=
  eq_of_beq (Bool.and_eq_true _ _ ▸ h : _ ∧ _).2
theorem cmd_of_rdFlag (h : s.rdFlag = true) : s.ctrl.afR2.cmd = 1 :=
  eq_of_beq (Bool.and_eq_true _ _ ▸ h : _ ∧ _).2

theorem valid_of_conflictDetect (h : s.conflictDetect = true) : s.ctrl.afValidR2 = true :=
  (Bool.and_eq_true _ _ ▸ h : _ ∧ _).2

theorem HasCommand.step {state' : State} (hrst : s.ctrl.rstR1 = false) (hgo : Goes s s.stateR state')
    (h : HasCommand s s.stateR) : HasCommand (step i s) state' := by
  have hheld : s.ctrl.afValidR2 = true → s.stateR.isBurst = false →
      (Controller.step i s).ctrl.afValidR2 = true :=
    fun hvalid hstate => (ctrl_step_of_held hrst hvalid hstate).1
  have hflags := fun hvalid => flags_of_held (i := i) hrst (s := s) hvalid
  have hrequest : s.autoRefR = true → s.stateR ≠ .autoRefresh →
      (Controller.step i s).autoRefR = true :=
    autoRefR_step_of_request hrst
  generalize s.stateR = state at *
  cases hgo with
  | idle | initDone | closeAll | prechargeWait1 | refresh | refreshed | autoRefreshWait
  | refreshNext | written | writeWait | read | readWait => exact trivial
  | openAtOnce hauto | openClosed _ hauto => exact hheld (h hauto) rfl
  | closeOne hauto => exact fun _ => hheld (h hauto) rfl
  | prechargeWait =>
    intro hauto'
    cases hauto : s.autoRefR with
    | false => exact hheld (h hauto) rfl
    | true => exact absurd (hrequest hauto (by decide)) (by simp [hauto'])
  | closeAgain _ hauto | closeRefreshed _ hauto =>
    exact fun hauto' => absurd (hrequest hauto (by decide)) (by simp [hauto'])
  | openRefreshed _ _ hcmd => exact hheld (hcmd.elim valid_of_wrFlag valid_of_rdFlag) rfl
  | opened => exact ⟨hheld h rfl, (hflags h rfl).1.symm, (hflags h rfl).2.symm⟩
  | activeWait => exact ⟨hheld h.1 rfl, (hflags h.1 rfl).1.symm, (hflags h.1 rfl).2.symm⟩
  | openUnresolved => exact hheld h.1 rfl
  | closeOpened => exact fun _ => hheld h.1 rfl
  | firstWrite _ _ hcmd =>
    have hwr : s.wrFlag = true := h.2.1 ▸ hcmd
    exact (hflags h.1 rfl).1.trans hwr
  | firstRead _ _ hcmd =>
    have hrd : s.rdFlag = true := h.2.2 ▸ hcmd
    exact (hflags h.1 rfl).2.trans hrd
  | openAfterWrite hconflict | openAfterRead hconflict =>
    exact hheld (valid_of_conflictDetect hconflict) rfl
  | closeAfterWrite hwhy | closeAfterRead hwhy =>
    intro hauto'
    rcases hwhy with hconflict | hauto
    · exact hheld (valid_of_conflictDetect hconflict) rfl
    · exact absurd (hrequest hauto (by decide)) (by simp [hauto'])
  | nextWrite _ _ _ hcmd | readToWrite _ _ hcmd =>
    exact (hflags (valid_of_wrFlag hcmd) rfl).1.trans hcmd
  | writeToRead _ _ hcmd | nextRead _ _ _ hcmd =>
    exact (hflags (valid_of_rdFlag hcmd) rfl).2.trans hcmd

namespace Run

variable (R : Run P) {n : ℕ}

theorem hasCommand (n : ℕ) : HasCommand (R.regs n) (R.regs n).stateR := by
  induction n with
  | zero =>
    show HasCommand R.start R.start.stateR
    rw [R.reset.stateR]
    exact trivial
  | succ n ih => exact ih.step (R.rstR1 n) (R.goes n)

/-- What is executed is a command, a write or a read as the state says. -/
theorem valid_of_isBurst (h : (R.regs n).stateR.isBurst = true) :
    (R.regs n).ctrl.afValidR2 = true := by
  have hcmd := R.hasCommand n
  revert h hcmd
  cases (R.regs n).stateR <;> intro h hcmd <;> first
    | exact absurd h (by decide)
    | exact valid_of_wrFlag hcmd
    | exact valid_of_rdFlag hcmd

/-- Two bursts do not follow each other at once. -/
theorem not_isBurst_of_smRdenR (h : (R.regs n).ctrl.smRdenR = true) :
    (R.regs n).stateR.isBurst = false := by
  cases n with
  | zero => exact absurd h (by simp [regs, Clocked.run, R.reset.smRdenR])
  | succ n =>
    have hburst : (R.regs n).stateR.isBurst = true := by
      rw [← smRden_ctrl (R.inputs n)]
      exact h
    have hgo := R.goes n
    generalize (R.regs (n + 1)).stateR = state' at hgo
    generalize (R.regs n).stateR = state at hburst hgo
    cases hgo <;> first
      | rfl
      | exact absurd hburst (by decide)

end Run

/-! ## The stages -/

/-- The second stage holds a command that is not in the last stage too. -/
def live1 (s : Regs P) : Bool := s.ctrl.afValidR1 && !(s.ctrl.smRdenR && s.ctrl.afValidR2)

/-- The commands that have been taken from the FIFO and not been executed. -/
def inFlight (s : Regs P) : ℕ :=
  s.ctrl.afValidR2.toNat + (live1 s).toNat + s.ctrl.afValidR.toNat + s.ctrl.ctrlAfRdenR.toNat

namespace Run

variable (R : Run P) {n L : ℕ} {stream : ℕ → AfData}

/-- A command is taken from the FIFO. -/
def taken (n : ℕ) : Bool := Ddr2.taken ((R.inputs n).ctrl (R.regs n).stateR) (R.regs n).ctrl

/-- How many commands have been taken before a cycle. -/
def popped : ℕ → ℕ
  | 0 => 0
  | n + 1 => popped n + (R.taken n).toNat

/-- How many commands have been executed before a cycle. -/
def executed : ℕ → ℕ
  | 0 => 0
  | n + 1 => executed n + (R.regs n).stateR.isBurst.toNat

/-- **The FIFO**: it holds the commands `stream`, and what it shows is the last one that was taken,
`L` cycles later. -/
def FifoShows (L : ℕ) (stream : ℕ → AfData) : Prop :=
  ∀ n, 0 < R.popped (n + 1) → (R.inputs (n + L)).af = stream (R.popped (n + 1) - 1)

/-- How the valid bits move. -/
theorem valid_succ (n : ℕ) :
    let s := (R.regs n).ctrl
    let burst := (R.regs n).stateR.isBurst
    (R.regs (n + 1)).ctrl.afValidR2 = (if burst || !s.afValidR2 then s.afValidR1 else s.afValidR2) ∧
      (R.regs (n + 1)).ctrl.afValidR1 = (if !s.afValidR1 || s.smRdenR || !s.afValidR2
      then s.afValidR else s.afValidR1) ∧ (R.regs (n + 1)).ctrl.afValidR =
        (if s.ctrlAfRdenR || s.smRdenR || !s.afValidR1 || !s.afValidR2 then s.ctrlAfRdenR
          else s.afValidR) ∧
      (R.regs (n + 1)).ctrl.ctrlAfRdenR = R.taken n ∧ (R.regs (n + 1)).ctrl.smRdenR = burst := by
  have hrst := R.rstR1 n
  simp only [regs_succ, step, Ddr2.step, hrst, smRden_ctrl, taken, Ddr2.taken, if_false,
    Bool.false_eq_true, and_self]

/-- A command is taken with one that is executed, or when the pipeline asks for one. -/
theorem burst_or_flag_of_taken (h : R.taken n = true) :
    (R.regs n).stateR.isBurst = true ∨ (R.regs n).ctrl.rdAfFlagR = true := by
  simp only [taken, Ddr2.taken, Ddr2.ctrlAfRden, smRden_ctrl, Bool.and_eq_true, Bool.or_eq_true] at h
  exact h.1.1

/-- The pipeline asks for a command when the stages before the last one are empty, and not twice in
succession. -/
theorem rdAfFlagR_succ (h : (R.regs (n + 1)).ctrl.rdAfFlagR = true) :
    (R.regs n).ctrl.rdAfFlagR = false ∧ (R.regs n).ctrl.ctrlAfRdenR = false ∧
      (R.regs n).ctrl.afValidR = false ∧ (R.regs n).ctrl.afValidR1 = false := by
  have hrst := R.rstR1 n
  simp only [regs_succ, step, Ddr2.step, hrst, if_false, Bool.false_eq_true] at h
  split_ifs at h with hflag hbusy
  all_goals simp_all

/-- **One cycle of the stages**: they lose the command that is executed and gain the one that is
    taken, as long as there are two at most. Of three commands the first stage could lose one. -/
theorem stages_step : ∀ v2 v1 v0 c0 smr burst taken : Bool, (burst = true → v2 = true ∧ smr = false) →
    v2.toNat + (v1 && !(smr && v2)).toNat + v0.toNat + c0.toNat ≤ 2 →
    let v2' := if burst || !v2 then v1 else v2
    let v1' := if !v1 || smr || !v2 then v0 else v1
    let v0' := if c0 || smr || !v1 || !v2 then c0 else v0
    v0' = c0 ∧ v2'.toNat + (v1' && !(burst && v2')).toNat + v0'.toNat + taken.toNat + burst.toNat =
      v2.toNat + (v1 && !(smr && v2)).toNat + v0.toNat + c0.toNat + taken.toNat := by
  decide

/-- **Where the commands are**: those taken and not executed are in the stages. -/
structure Balanced (n : ℕ) : Prop where
  count : R.popped n = R.executed n + inFlight (R.regs n)
  small : inFlight (R.regs n) ≤ 2
  flag : (R.regs n).ctrl.rdAfFlagR = true → inFlight (R.regs n) ≤ 1

theorem balanced_zero : R.Balanced 0 := by
  have hempty : inFlight (R.regs 0) = 0 := by
    show inFlight R.start = 0
    simp [inFlight, live1, R.reset.afValidR, R.reset.afValidR1, R.reset.afValidR2,
      R.reset.ctrlAfRdenR]
  refine ⟨?_, by omega, fun _ => by omega⟩
  rw [hempty]
  rfl

/-- What is executed is in the last stage, and the second stage has caught up. -/
theorem ready_of_isBurst (n : ℕ) (h : (R.regs n).stateR.isBurst = true) :
    (R.regs n).ctrl.afValidR2 = true ∧ (R.regs n).ctrl.smRdenR = false := by
  refine ⟨R.valid_of_isBurst h, Bool.eq_false_of_not_eq_true fun hsm => ?_⟩
  rw [R.not_isBurst_of_smRdenR hsm] at h
  cases h

theorem inFlight_succ (hsmall : inFlight (R.regs n) ≤ 2) :
    (R.regs (n + 1)).ctrl.afValidR = (R.regs n).ctrl.ctrlAfRdenR ∧
      inFlight (R.regs (n + 1)) + (R.regs n).stateR.isBurst.toNat =
        inFlight (R.regs n) + (R.taken n).toNat := by
  obtain ⟨h2, h1, h0, hc, hsm⟩ := R.valid_succ n
  obtain ⟨hfirst, hmove⟩ := stages_step _ _ _ _ _ _ (R.taken n) (R.ready_of_isBurst n) hsmall
  refine ⟨h0.trans hfirst, ?_⟩
  rw [inFlight, live1, h2, h1, h0, hc, hsm]
  exact hmove

theorem Balanced.succ {R : Run P} (h : R.Balanced n) : R.Balanced (n + 1) := by
  obtain ⟨-, hmove⟩ := R.inFlight_succ h.small
  have htaken : (R.taken n).toNat ≤ (R.regs n).stateR.isBurst.toNat +
      (R.regs n).ctrl.rdAfFlagR.toNat := by
    cases ht : R.taken n with
    | false => exact Nat.zero_le _
    | true =>
      rcases R.burst_or_flag_of_taken ht with hb | hf
      · rw [hb]
        exact Nat.le_add_right _ _
      · rw [hf]
        exact Nat.le_add_left _ _
  have hflag := h.flag
  have hcount := h.count
  have hsmall := h.small
  have hbool : (R.regs n).ctrl.rdAfFlagR.toNat ≤ 1 := Bool.toNat_le _
  refine ⟨?_, ?_, fun hnext => ?_⟩
  · simp only [popped, executed]
    omega
  · cases hf : (R.regs n).ctrl.rdAfFlagR with
    | false =>
      rw [hf, Bool.toNat_false] at htaken
      omega
    | true =>
      have := hflag hf
      omega
  · -- only the last stage can have held a command
    obtain ⟨hf, hc, h0, h1⟩ := R.rdAfFlagR_succ hnext
    have hlast : inFlight (R.regs n) ≤ 1 := by
      rw [inFlight, live1, hc, h0, h1]
      simpa using Bool.toNat_le _
    rw [hf, Bool.toNat_false] at htaken
    omega

theorem balanced (n : ℕ) : R.Balanced n := by
  induction n with
  | zero => exact R.balanced_zero
  | succ n ih => exact ih.succ

end Run

/-! ## The controller with a FIFO -/

/-- The registers, and how many commands have been taken before this cycle and before the last one. -/
structure Fed (P : Params) where
  regs : Regs P
  popped : ℕ
  before : ℕ

namespace Fed

/-- What the controller sees of the FIFO, with or without an output register. -/
def inputs (outputReg : Bool) (stream : ℕ → AfData) (i : Inputs P) (f : Fed P) : Inputs P :=
  { i with af := stream ((if outputReg then f.before else f.popped) - 1) }

def step (outputReg : Bool) (stream : ℕ → AfData) (i : Inputs P) (f : Fed P) : Fed P where
  regs := Controller.step (f.inputs outputReg stream i) f.regs
  popped := f.popped + (Ddr2.taken
    ((f.inputs outputReg stream i).ctrl f.regs.stateR) f.regs.ctrl).toNat
  before := f.popped

end Fed

namespace Run

/-- A run with a FIFO that holds the commands `stream`. -/
def fed (outputReg : Bool) (stream : ℕ → AfData) (i : ℕ → Inputs P) (hrst : ∀ n, (i n).rst = false)
    (hfits : P.Fits) :
    Run P where
  inputs n := (Clocked.run (Fed.step outputReg stream) i ⟨Regs.cleared P, 0,
    0⟩ n).inputs outputReg stream (i n)
  start := Regs.cleared P
  fits := hfits
  reset := resetDone_cleared
  noReset := hrst

section

variable {outputReg : Bool} {stream : ℕ → AfData} {i : ℕ → Inputs P} {hrst : ∀ n, (i n).rst = false}
    {hfits : P.Fits}

theorem regs_fed (n : ℕ) : (fed outputReg stream i hrst hfits).regs n =
    (Clocked.run (Fed.step outputReg stream) i ⟨Regs.cleared P, 0, 0⟩ n).regs := by
  induction n with
  | zero => rfl
  | succ n ih =>
    rw [regs_succ, ih]
    rfl

theorem popped_fed (n : ℕ) : (fed outputReg stream i hrst hfits).popped n =
    (Clocked.run (Fed.step outputReg stream) i ⟨Regs.cleared P, 0, 0⟩ n).popped := by
  induction n with
  | zero => rfl
  | succ n ih =>
    rw [popped, ih, taken, regs_fed]
    rfl

/-- What the FIFO shows is what it holds. -/
theorem fifoShows_fed :
    (fed outputReg stream i hrst hfits).FifoShows (if outputReg then 2 else 1) stream := by
  intro n _
  rw [popped_fed]
  cases outputReg <;> rfl

end

/-- A cycle of the board after the initialisation, with commands in the FIFO. -/
def busy (spRefreshDisable : Bool) : Inputs Params.board where
  rst := false
  spRefreshDisable := spRefreshDisable
  phyInitDone := true
  afEmpty := false
  af := ⟨0, 0⟩
  x1 := ⟨0, 0⟩
  x2 := ⟨0, 0⟩
  xStage := ⟨fun _ => false, fun _ => false, false⟩
  xAddr := 0

/-- A write and a read in turn, in the same row. -/
def writeRead (k : ℕ) : AfData := ⟨0x40000, if k % 2 = 0 then 0 else 1⟩

/-- A run of the board with these commands. -/
def board (outputReg : Bool) (spRefreshDisable : ℕ → Bool) : Run Params.board :=
  fed outputReg writeRead (fun n => busy (spRefreshDisable n)) (fun _ => rfl) Params.fits_board

variable (R : Run P) {n L : ℕ} {stream : ℕ → AfData}

/-! ## The commands in the stages -/

theorem afR_succ (n : ℕ) :
    let s := (R.regs n).ctrl
    (R.regs (n + 1)).ctrl.afR2 = (if (R.regs n).stateR.isBurst || !s.afValidR2
      then s.afR1 else s.afR2) ∧ (R.regs (n + 1)).ctrl.afR1 =
        (if !s.afValidR1 || s.smRdenR || !s.afValidR2 then (R.inputs n).af else s.afR1) := by
  have hrst := R.rstR1 n
  simp only [regs_succ, step, Ddr2.step, hrst, smRden_ctrl, af_ctrl, if_false,
    Bool.false_eq_true, and_self]

/-- The number of the command that the first stage takes over from the FIFO. -/
def nextIndex (n : ℕ) : ℕ := R.executed n + (R.regs n).ctrl.afValidR2.toNat + (live1 (R.regs n)).toNat

/-- **Which commands are in the stages**: the last one holds the next command to be executed, the
    second one the command after it. -/
structure Pipeline (stream : ℕ → AfData) (n : ℕ) : Prop where
  last : (R.regs n).ctrl.afValidR2 = true → (R.regs n).ctrl.afR2 = stream (R.executed n)
  second : live1 (R.regs n) = true →
    (R.regs n).ctrl.afR1 = stream (R.executed n + (R.regs n).ctrl.afValidR2.toNat)

theorem pipeline_zero : R.Pipeline stream 0 where
  last h := absurd h (by simp [regs, Clocked.run, R.reset.afValidR2])
  second h := absurd h (by simp [live1, regs, Clocked.run, R.reset.afValidR1])

/-- If the FIFO shows the right command, it goes through the stages. -/
theorem Pipeline.succ {R : Run P} (h : R.Pipeline stream n)
    (hfifo : (R.regs n).ctrl.afValidR = true → (R.inputs n).af = stream (R.nextIndex n)) :
    R.Pipeline stream (n + 1) := by
  obtain ⟨hv2, hv1, -, -, hsm⟩ := R.valid_succ n
  obtain ⟨haf2, haf1⟩ := R.afR_succ n
  have hready := R.ready_of_isBurst n
  obtain ⟨hlast, hsecond⟩ := h
  simp only [nextIndex, live1] at hfifo hsecond
  refine ⟨?_, ?_⟩
  · rw [hv2, haf2, executed]
    cases hb : (R.regs n).stateR.isBurst with
    | true =>
      -- the command behind the one that is executed
      obtain ⟨h2, h1⟩ := hready hb
      rw [h2, h1] at hsecond
      simpa using hsecond
    | false =>
      cases h2 : (R.regs n).ctrl.afValidR2 with
      | true => simpa [h2] using hlast
      | false => simpa [h2] using hsecond
  · rw [live1, hv1, hsm, hv2, haf1, executed]
    cases hb : (R.regs n).stateR.isBurst with
    | true =>
      obtain ⟨h2, h1⟩ := hready hb
      rw [h2, h1] at hfifo
      cases hv : (R.regs n).ctrl.afValidR1 with
      | true => simp
      | false => simpa [h2, h1, hv] using hfifo
    | false =>
      cases h2 : (R.regs n).ctrl.afValidR2 <;> cases hv : (R.regs n).ctrl.afValidR1 <;>
        cases h1 : (R.regs n).ctrl.smRdenR <;> simp [h2, hv, h1] at hfifo hsecond ⊢ <;> assumption

theorem taken_of_afValidR (h : (R.regs n).ctrl.afValidR = true) :
    ∃ m, n = m + 2 ∧ R.taken m = true := by
  match n with
  | 0 => exact absurd h (by simp [regs, Clocked.run, R.reset.afValidR])
  | 1 =>
    rw [(R.inFlight_succ (R.balanced 0).small).1] at h
    exact absurd h (by simp [regs, Clocked.run, R.reset.ctrlAfRdenR])
  | m + 2 =>
    rw [(R.inFlight_succ (R.balanced (m + 1)).small).1, (R.valid_succ m).2.2.2.1] at h
    exact ⟨m, rfl, h⟩

/-- The command in the first stage, if it is still the one that the FIFO shows. -/
theorem popped_eq_nextIndex (h : (R.regs n).ctrl.afValidR = true) :
    R.popped n = R.nextIndex n + 1 + (R.regs n).ctrl.ctrlAfRdenR.toNat := by
  have hcount := (R.balanced n).count
  rw [inFlight, h, Bool.toNat_true] at hcount
  rw [nextIndex]
  omega

/-- With an output register the stages always hold the right commands. -/
theorem pipeline (hfifo : R.FifoShows 2 stream) (n : ℕ) : R.Pipeline stream n := by
  induction n with
  | zero => exact R.pipeline_zero
  | succ n ih =>
    apply ih.succ
    intro h0
    obtain ⟨m, rfl, htaken⟩ := R.taken_of_afValidR h0
    have hpopped : R.popped (m + 1 + 1) = R.popped (m + 1) + (R.taken (m + 1)).toNat := rfl
    have hindex := R.popped_eq_nextIndex h0
    rw [(R.valid_succ (m + 1)).2.2.2.1, hpopped] at hindex
    rw [hfifo m (by omega), show R.popped (m + 1) - 1 = R.nextIndex (m + 2) by omega]

/-- The command that is executed. -/
theorem afR2_of_isBurst (hfifo : R.FifoShows 2 stream) (hburst : (R.regs n).stateR.isBurst = true) :
    (R.regs n).ctrl.afR2 = stream (R.executed n) :=
      (R.pipeline hfifo n).last (R.valid_of_isBurst hburst)

/-- **Commands are executed in order**, with a FIFO that has an output register: the commands that
    have been executed are the first ones of the FIFO, each of them once, and at most two more have
    been taken. Command number `executed n` is the one that is executed in cycle `n`, as a write or
    a read according to its code. -/
theorem executes_in_order (hfifo : R.FifoShows 2 stream) (n : ℕ) :
    R.executed n ≤ R.popped n ∧ R.popped n ≤ R.executed n + 2 ∧
      ((R.regs n).stateR.isBurst = true → (R.regs n).ctrl.afR2 = stream (R.executed n) ∧
        ((R.regs n).stateR = .burstWrite → (stream (R.executed n)).cmd = 0) ∧
        ((R.regs n).stateR = .burstRead → (stream (R.executed n)).cmd = 1)) := by
  have hcount := (R.balanced n).count
  have hsmall := (R.balanced n).small
  refine ⟨by omega, by omega, fun hburst => ?_⟩
  have haf := R.afR2_of_isBurst hfifo hburst
  refine ⟨haf, fun hstate => ?_, fun hstate => ?_⟩
  · have hcmd := R.hasCommand n
    rw [hstate] at hcmd
    exact haf ▸ cmd_of_wrFlag hcmd
  · have hcmd := R.hasCommand n
    rw [hstate] at hcmd
    exact haf ▸ cmd_of_rdFlag hcmd

/-- Writes and reads in turn, on the board. -/
theorem executes_in_order_board :
    (board true fun _ => false).popped 100 ≤ (board true fun _ => false).executed 100 + 2 :=
  (executes_in_order (board true fun _ => false) fifoShows_fed 100).2.1

/-- **Without the output register** the stages hold the right commands if and only if no two
    commands are taken in successive cycles: the second one takes the place of the first at the
    output of the FIFO, before it has been taken over. -/
theorem fetches_in_order_iff (hstream : ∀ k, stream (k + 1) ≠ stream k)
    (hfifo : R.FifoShows 1 stream) :
    (∀ n, R.Pipeline stream n) ↔ ∀ n, ¬ (R.taken n = true ∧ R.taken (n + 1) = true) := by
  -- what the FIFO shows in the cycle in which the first stage is valid
  have hshown : ∀ n, (R.regs n).ctrl.afValidR = true →
      (R.inputs n).af = stream (R.nextIndex n + (R.regs n).ctrl.ctrlAfRdenR.toNat) := by
    intro n h0
    have hindex := R.popped_eq_nextIndex h0
    obtain ⟨m, rfl, -⟩ := R.taken_of_afValidR h0
    have hpos : 0 < R.popped (m + 1 + 1) := by
      rw [hindex]
      omega
    rw [hfifo (m + 1) hpos, hindex, Nat.add_right_comm, Nat.add_sub_cancel]
  constructor
  · rintro hpipeline n ⟨hfirst, hsecond⟩
    have h0 : (R.regs (n + 2)).ctrl.afValidR = true := by
      rw [(R.inFlight_succ (R.balanced (n + 1)).small).1, (R.valid_succ n).2.2.2.1, hfirst]
    have hc : (R.regs (n + 2)).ctrl.ctrlAfRdenR = true := by
      rw [(R.valid_succ (n + 1)).2.2.2.1, hsecond]
    -- with two commands in front the other stages are empty, and the second stage takes over what
    -- the FIFO shows
    have hempty := (R.balanced (n + 2)).small
    rw [inFlight, h0, hc, Bool.toNat_true] at hempty
    have h2 : (R.regs (n + 2)).ctrl.afValidR2 = false := Bool.toNat_eq_zero.mp (by omega)
    have hlive : live1 (R.regs (n + 2)) = false := Bool.toNat_eq_zero.mp (by omega)
    have h1 : (R.regs (n + 2)).ctrl.afValidR1 = false := by simpa [live1, h2] using hlive
    have hburst : (R.regs (n + 2)).stateR.isBurst = false := by
      refine Bool.eq_false_of_not_eq_true fun hburst => ?_
      rw [R.valid_of_isBurst hburst] at h2
      cases h2
    obtain ⟨hv2, hv1, -, -, hsm⟩ := R.valid_succ (n + 2)
    have hwrong := (R.afR_succ (n + 2)).2
    simp only [h0, h1, h2, hburst, Bool.not_false, Bool.or_true, Bool.true_or,
      if_true] at hv2 hv1 hsm hwrong
    have hright := (hpipeline (n + 2 + 1)).second (by simp [live1, hv1, hsm])
    rw [hwrong, hshown (n + 2) h0, hc, hv2, executed, hburst] at hright
    rw [nextIndex, h2, hlive, Bool.toNat_false, Bool.toNat_true, Nat.add_zero, Nat.add_zero] at hright
    exact hstream _ hright
  · intro hapart n
    induction n with
    | zero => exact R.pipeline_zero
    | succ n ih =>
      apply ih.succ
      intro h0
      rw [hshown n h0]
      obtain ⟨m, rfl, htaken⟩ := R.taken_of_afValidR h0
      have hnot : R.taken (m + 1) = false := Bool.eq_false_of_not_eq_true fun h =>
        hapart m ⟨htaken, h⟩
      rw [(R.valid_succ (m + 1)).2.2.2.1, hnot, Bool.toNat_false, Nat.add_zero]

/-- On the board without the register. -/
theorem fetches_in_order_iff_board :
    (∀ n, (board false fun _ => false).Pipeline writeRead n) ↔
      ∀ n, ¬ ((board false fun _ => false).taken n = true ∧
        (board false fun _ => false).taken (n + 1) = true) := by
  refine fetches_in_order_iff (board false fun _ => false) (fun k hk => ?_) fifoShows_fed
  have hcmd : (if (k + 1) % 2 = 0 then 0 else 1 : BitVec 3) = if k % 2 = 0 then 0 else 1 :=
    congrArg AfData.cmd hk
  rcases Nat.mod_two_eq_zero_or_one k with heven | hodd
  · rw [if_neg (by omega), if_pos heven] at hcmd
    exact absurd hcmd (by decide)
  · rw [if_pos (by omega), if_neg (by omega)] at hcmd
    exact absurd hcmd (by decide)

end Run

end ProbableCause.Ddr2.Controller
