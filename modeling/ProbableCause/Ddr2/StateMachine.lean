import ProbableCause.Ddr2.Controller

/-!
# `Ddr2.StateMachine` — what the main state machine can do in a cycle

`Goes` lists the transitions with their conditions. Everything that is shown of the controller goes
through this list and not through `nextState`. A `Run` begins after the reset and has parameters
that fit the counters.
-/

namespace ProbableCause.Ddr2.Controller

variable {P : Params} {s : Regs P} {i : Inputs P}

/-! ## Transitions -/

/-- The transitions of the main state machine, for bursts of two cycles at least. -/
inductive Goes (s : Regs P) : State → State → Prop where
  | idle : Goes s .idle .idle
  | initDone (h : s.phyInitDoneR = true) : Goes s .idle .autoRefresh
  /-- all banks are closed for a refresh -/
  | closeAll (hauto : s.autoRefR = true) : Goes s .precharge .prechargeWait1
  /-- the bank that is closed is not the one to be opened -/
  | openAtOnce (hauto : s.autoRefR = false) (hroom : s.noPrechargeWaitR = true)
      (h2t : P.TWO_T_TIME_EN = false) :
      Goes s .precharge .active
  | closeOne (hauto : s.autoRefR = false) : Goes s .precharge .prechargeWait
  | prechargeWait (hrp : s.timers.rp.ok = false) : Goes s .prechargeWait .prechargeWait
  | closeAgain (hrp : s.timers.rp.ok = true) (hauto : s.autoRefR = true) :
      Goes s .prechargeWait .precharge
  | openClosed (hrp : s.timers.rp.ok = true) (hauto : s.autoRefR = false) :
      Goes s .prechargeWait .active
  | prechargeWait1 (hrp : s.timers.rp.ok = false) : Goes s .prechargeWait1 .prechargeWait1
  | refresh (hrp : s.timers.rp.ok = true) : Goes s .prechargeWait1 .autoRefresh
  | refreshed : Goes s .autoRefresh .autoRefreshWait
  | autoRefreshWait (h : s.timers.rfc.ok = true → s.autoRefR = false) :
      Goes s .autoRefreshWait .autoRefreshWait
  | refreshNext (hrfc : s.timers.rfc.ok = true) (hcnt : s.autoCntR < 1) :
      Goes s .autoRefreshWait .autoRefresh
  | closeRefreshed (hrfc : s.timers.rfc.ok = true) (hauto : s.autoRefR = true) :
      Goes s .autoRefreshWait .precharge
  | openRefreshed (hrfc : s.timers.rfc.ok = true) (hauto : s.autoRefR = false)
      (hcmd : s.wrFlag = true ∨ s.rdFlag = true) : Goes s .autoRefreshWait .active
  | opened : Goes s .active .activeWait
  | activeWait (h : s.timers.rcd.ok = true → s.autoRefR = true → s.timers.precharge.ok = false) :
      Goes s .activeWait .activeWait
  | openUnresolved (hconflict : s.conflictDetectR = true ∧ s.conflictResolvedR = false)
      (htrrd : s.timers.trrd.ok = true) : Goes s .activeWait .active
  | closeOpened (hwhy : s.conflictDetectR = true ∧ s.conflictResolvedR = false ∨ s.autoRefR = true)
      (hok : s.timers.precharge.ok = true) : Goes s .activeWait .precharge
  | firstWrite (hrcd : s.timers.rcd.ok = true) (hauto : s.autoRefR = false) (hcmd : s.wrFlagR = true)
      (hok : s.timers.rdToWr.ok = true) : Goes s .activeWait .burstWrite
  | firstRead (hrcd : s.timers.rcd.ok = true) (hauto : s.autoRefR = false) (hcmd : s.rdFlagR = true)
      (hok : s.timers.wrToRd.ok = true) : Goes s .activeWait .burstRead
  | written : Goes s .burstWrite .writeWait
  | writeWait (h : s.autoRefR = true → s.timers.precharge.ok = false) : Goes s .writeWait .writeWait
  | openAfterWrite (hconflict : s.conflictDetect = true) (hroom : s.noPrechargeR = true)
      (hauto : s.autoRefR = false)
      (hok : s.write.ok = true) : Goes s .writeWait .active
  | closeAfterWrite (hwhy : s.conflictDetect = true ∨ s.autoRefR = true)
      (hroom : s.noPrechargeR = true → s.write.ok = true → s.autoRefR = true)
      (hok : s.timers.precharge.ok = true) : Goes s .writeWait .precharge
  | nextWrite (hconflict : s.conflictDetect = false) (hauto : s.autoRefR = false)
      (hok : s.write.ok = true)
      (hcmd : s.wrFlag = true) : Goes s .writeWait .burstWrite
  | writeToRead (hconflict : s.conflictDetect = false) (hauto : s.autoRefR = false)
      (hcmd : s.rdFlag = true)
      (hok : s.timers.wrToRd.ok = true) : Goes s .writeWait .burstRead
  | read : Goes s .burstRead .readWait
  | readWait (h : s.autoRefR = true → s.timers.precharge.ok = false) : Goes s .readWait .readWait
  | openAfterRead (hconflict : s.conflictDetect = true) (hroom : s.noPrechargeR = true)
      (hauto : s.autoRefR = false)
      (hok : s.read.ok = true) : Goes s .readWait .active
  | closeAfterRead (hwhy : s.conflictDetect = true ∨ s.autoRefR = true)
      (hroom : s.noPrechargeR = true → s.read.ok = true → s.autoRefR = true)
      (hok : s.timers.precharge.ok = true) : Goes s .readWait .precharge
  | nextRead (hconflict : s.conflictDetect = false) (hauto : s.autoRefR = false)
      (hok : s.read.ok = true)
      (hcmd : s.rdFlag = true) : Goes s .readWait .burstRead
  | readToWrite (hconflict : s.conflictDetect = false) (hauto : s.autoRefR = false)
      (hcmd : s.wrFlag = true)
      (hok : s.timers.rdToWr.ok = true) : Goes s .readWait .burstWrite

/-- What a cycle does is in the list. -/
theorem goes_nextState (hburst : P.BURST_LEN_DIV2 ≠ 1) (s : Regs P) :
    Goes s s.stateR (nextState s) := by
  unfold nextState
  cases s.stateR with
  | idle =>
    dsimp only
    split_ifs with hinit
    · exact .initDone hinit
    · exact .idle
  | precharge =>
    dsimp only
    split_ifs with hauto hroom
    · exact .closeAll hauto
    · rw [Bool.and_eq_true, Bool.not_eq_true'] at hroom
      exact .openAtOnce (Bool.eq_false_of_not_eq_true hauto) hroom.1 hroom.2
    · exact .closeOne (Bool.eq_false_of_not_eq_true hauto)
  | prechargeWait =>
    dsimp only
    split_ifs with hrp hauto
    · exact .closeAgain hrp hauto
    · exact .openClosed hrp (Bool.eq_false_of_not_eq_true hauto)
    · exact .prechargeWait (Bool.eq_false_of_not_eq_true hrp)
  | prechargeWait1 =>
    dsimp only
    split_ifs with hrp
    · exact .refresh hrp
    · exact .prechargeWait1 (Bool.eq_false_of_not_eq_true hrp)
  | autoRefresh => exact .refreshed
  | autoRefreshWait =>
    dsimp only
    split_ifs with hcnt hrfc hrfc hauto hcmd
    · exact .refreshNext hrfc hcnt
    · exact .autoRefreshWait fun h => absurd h hrfc
    · exact .closeRefreshed hrfc hauto
    · exact .openRefreshed hrfc (Bool.eq_false_of_not_eq_true hauto) (Bool.or_eq_true _ _ ▸ hcmd)
    · exact .autoRefreshWait fun _ => Bool.eq_false_of_not_eq_true hauto
    · exact .autoRefreshWait fun h => absurd h hrfc
  | active => exact .opened
  | activeWait =>
    dsimp only
    split_ifs with hrcd hwhy hroom hok hwrite hread
    · simp only [Bool.and_eq_true, Bool.or_eq_true, Bool.not_eq_true'] at hwhy hroom
      exact .openUnresolved (hwhy.resolve_right (by simp [hroom])) hroom.2
    · simp only [Bool.and_eq_true, Bool.or_eq_true, Bool.not_eq_true'] at hwhy
      exact .closeOpened hwhy hok
    · exact .activeWait fun _ _ => Bool.eq_false_of_not_eq_true hok
    · simp only [Bool.and_eq_true, Bool.or_eq_true, not_or, Bool.not_eq_true] at hwhy hwrite
      exact .firstWrite hrcd hwhy.2 hwrite.1 hwrite.2
    · simp only [Bool.and_eq_true, Bool.or_eq_true, not_or, Bool.not_eq_true] at hwhy hread
      exact .firstRead hrcd hwhy.2 hread.1 hread.2
    · simp only [Bool.or_eq_true, not_or, Bool.not_eq_true] at hwhy
      exact .activeWait fun _ hauto => absurd hauto (by simp [hwhy.2])
    · exact .activeWait fun h => absurd h hrcd
  | burstWrite =>
    dsimp only
    rw [if_neg hburst]
    exact .written
  | writeWait =>
    dsimp only
    split_ifs with hwhy hroom hok hwrite hread
    · simp only [Bool.and_eq_true, Bool.or_eq_true, Bool.not_eq_true'] at hwhy hroom
      exact .openAfterWrite (hwhy.resolve_right (by simp [hroom])) hroom.1.1 hroom.1.2 hroom.2
    · simp only [Bool.and_eq_true, Bool.or_eq_true, Bool.not_eq_true', not_and] at hwhy hroom
      exact .closeAfterWrite hwhy (fun h h' => by simpa using fun ha => hroom ⟨h, ha⟩ h') hok
    · exact .writeWait fun _ => Bool.eq_false_of_not_eq_true hok
    · simp only [Bool.and_eq_true, Bool.or_eq_true, not_or, Bool.not_eq_true] at hwhy hwrite
      exact .nextWrite hwhy.1 hwhy.2 hwrite.1 hwrite.2
    · simp only [Bool.and_eq_true, Bool.or_eq_true, not_or, Bool.not_eq_true] at hwhy hread
      exact .writeToRead hwhy.1 hwhy.2 hread.1 hread.2
    · simp only [Bool.or_eq_true, not_or, Bool.not_eq_true] at hwhy
      exact .writeWait fun hauto => absurd hauto (by simp [hwhy.2])
  | burstRead =>
    dsimp only
    rw [if_neg hburst]
    exact .read
  | readWait =>
    dsimp only
    split_ifs with hwhy hroom hok hread hwrite
    · simp only [Bool.and_eq_true, Bool.or_eq_true, Bool.not_eq_true'] at hwhy hroom
      exact .openAfterRead (hwhy.resolve_right (by simp [hroom])) hroom.1.1 hroom.1.2 hroom.2
    · simp only [Bool.and_eq_true, Bool.or_eq_true, Bool.not_eq_true', not_and] at hwhy hroom
      exact .closeAfterRead hwhy (fun h h' => by simpa using fun ha => hroom ⟨h, ha⟩ h') hok
    · exact .readWait fun _ => Bool.eq_false_of_not_eq_true hok
    · simp only [Bool.and_eq_true, Bool.or_eq_true, not_or, Bool.not_eq_true] at hwhy hread
      exact .nextRead hwhy.1 hwhy.2 hread.1 hread.2
    · simp only [Bool.and_eq_true, Bool.or_eq_true, not_or, Bool.not_eq_true] at hwhy hwrite
      exact .readToWrite hwhy.1 hwhy.2 hwrite.1 hwrite.2
    · simp only [Bool.or_eq_true, not_or, Bool.not_eq_true] at hwhy
      exact .readWait fun hauto => absurd hauto (by simp [hwhy.2])

/-! ## Runs -/

/-- The counts are in the range of their counters, and a burst takes two cycles at least. -/
structure Params.Fits (P : Params) : Prop where
  two_le_burst : 2 ≤ P.BURST_LEN_DIV2
  burst : P.BURST_LEN_DIV2 < 2 ^ 3
  trp : P.TRP_COUNT < 2 ^ 4
  trfc : P.TRFC_COUNT < 2 ^ 8
  trcd : P.TRCD_COUNT < 2 ^ 4
  tras : P.TRAS_COUNT < 2 ^ 5
  trtp : P.TRTP_COUNT < 2 ^ 5
  twr : P.TWR_COUNT < 2 ^ 5
  twtr : P.TWTR_COUNT < 2 ^ 5
  trtw : P.TRTW_COUNT < 2 ^ 5

theorem Params.fits_board : Params.board.Fits := by
  constructor <;> decide

/-- The registers that the reset clears. The others may hold anything. -/
structure ResetDone (s : Regs P) : Prop where
  rstR : s.ctrl.rstR = false
  rstR1 : s.ctrl.rstR1 = false
  rdAfFlagR : s.ctrl.rdAfFlagR = false
  afValidR : s.ctrl.afValidR = false
  afValidR1 : s.ctrl.afValidR1 = false
  afValidR2 : s.ctrl.afValidR2 = false
  smRdenR : s.ctrl.smRdenR = false
  ctrlAfRdenR : s.ctrl.ctrlAfRdenR = false
  refiCntR : s.ctrl.refiCntR = 0
  refiCntOkR : P.TREFI_COUNT ≠ 1 → s.ctrl.refiCntOkR = false
  refFlagR : P.TREFI_COUNT ≠ 1 → s.ctrl.refFlagR = false
  autoRefR : s.ctrl.autoRefR = false
  autoCntR : s.autoCntR = 0
  wren : s.write.enable = false
  rden : s.read.enable = false
  wrburst : s.write.cnt = 0 ∧ s.write.last = false
  rdburst : s.read.cnt = 0 ∧ s.read.last = false
  stateR : s.stateR = .idle
  stateR1 : s.stateR1 = .idle

/-- All registers zero, as after a reset of a device that starts with zeros. -/
def Regs.cleared (P : Params) : Regs P where
  ctrl := ⟨false, false, false, false, false, false, false, ⟨0, 0⟩, false, ⟨0, 0⟩, false, false,
    false, 0, false, false⟩
  stage := ⟨fun _ => false, fun _ => false, false⟩
  rdFlagR := false
  wrFlagR := false
  afAddrR3 := 0
  conflictDetectR := false
  conflictResolvedR := false
  actAddrR := ⟨0, 0⟩
  bankHitR1 _ := false
  noPrechargeWaitR := false
  noPrechargeR1 := false
  table := .empty
  timers := ⟨⟨0, false⟩, ⟨0, false⟩, ⟨0, false⟩, ⟨0, false⟩, ⟨0, false⟩, ⟨0, false⟩, ⟨0, false⟩⟩
  write := ⟨0, false, false, false⟩
  read := ⟨0, false, false, false⟩
  autoCntR := 0
  phyInitDoneR := false
  stateR := .idle
  stateR1 := .idle
  pins := ⟨0, 0, true, true, true, false, fun _ => true, true⟩

theorem resetDone_cleared : ResetDone (Regs.cleared P) := by
  constructor <;> first
    | rfl
    | exact fun _ => rfl
    | exact ⟨rfl, rfl⟩

theorem State.code_eq_autoRefresh {state : State} :
    state.code = CTRL_AUTO_REFRESH ↔ state = .autoRefresh := by
  cases state <;> decide

@[simp] theorem smRden_ctrl (i : Inputs P) (state : State) :
    Ddr2.smRden (i.ctrl state) = state.isBurst := by
  cases state <;> rfl

@[simp] theorem af_ctrl (i : Inputs P) (state : State) : (i.ctrl state).af = i.af := rfl

/-- **A run of the controller** after the reset. -/
structure Run (P : Params) where
  inputs : ℕ → Inputs P
  start : Regs P
  fits : P.Fits
  reset : ResetDone start
  noReset : ∀ n, (inputs n).rst = false

namespace Run

variable (R : Run P) {n : ℕ}

/-- The registers in each cycle. -/
def regs : ℕ → Regs P := Clocked.run step R.inputs R.start

theorem regs_succ (n : ℕ) : R.regs (n + 1) = step (R.inputs n) (R.regs n) := rfl

theorem rstR (n : ℕ) : (R.regs n).ctrl.rstR = false := by
  cases n with
  | zero => exact R.reset.rstR
  | succ n => exact R.noReset n

theorem rstR1 (n : ℕ) : (R.regs n).ctrl.rstR1 = false := by
  cases n with
  | zero => exact R.reset.rstR1
  | succ n => exact R.rstR n

theorem stateR_succ (n : ℕ) : (R.regs (n + 1)).stateR = nextState (R.regs n) := by
  rw [regs_succ, step, R.rstR1 n]
  rfl

theorem stateR1_succ (n : ℕ) : (R.regs (n + 1)).stateR1 = (R.regs n).stateR := by
  rw [regs_succ, step, R.rstR1 n]
  rfl

theorem goes (n : ℕ) : Goes (R.regs n) (R.regs n).stateR (R.regs (n + 1)).stateR := by
  rw [R.stateR_succ]
  exact goes_nextState (Nat.ne_of_gt R.fits.two_le_burst) _

end Run

end ProbableCause.Ddr2.Controller
