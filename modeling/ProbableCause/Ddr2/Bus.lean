import ProbableCause.Ddr2.Timing

/-!
# `Ddr2.Bus` — the commands on the pins

`decode` is what a DRAM reads from the chip select, the three command pins, the bank and the
address. The controller sends each command one cycle after the state machine is in its state, or two
cycles after it with `TWO_T_TIME_EN`: then the command is on the pins for two cycles, and the chip
is selected in the second one (`decode_pins`).

So what holds of the commands of a run holds of what the DRAM sees (`dram_sees`).
-/

namespace ProbableCause.Ddr2.Controller

variable {P : Params} {s : Regs P}

/-! ## Columns -/

/-- The column on the address pins: bit 10 is not part of it. -/
def pinColumn (addr : BitVec P.ROW_WIDTH) : BitVec P.COL_WIDTH :=
  BitVec.ofNat P.COL_WIDTH (addr.toNat % 2 ^ 10 + addr.toNat / 2 ^ 11 * 2 ^ 10)

/-- There are address pins for bit 10 and for the whole column. -/
structure Params.HasPins (P : Params) : Prop where
  row : 10 < P.ROW_WIDTH
  col : P.COL_WIDTH < P.ROW_WIDTH

theorem Params.hasPins_board : Params.board.HasPins := by
  constructor <;> decide

theorem toNat_ddrAddrCol (hpins : P.HasPins) (addr : BitVec 31) : (ddrAddrCol P addr).toNat =
    addr.toNat % 2 ^ P.COL_WIDTH % 2 ^ 10 + addr.toNat % 2 ^ P.COL_WIDTH / 2 ^ 10 * 2 ^ 11 := by
  have hcol : addr.toNat % 2 ^ P.COL_WIDTH < 2 ^ P.COL_WIDTH := Nat.mod_lt _ (Nat.two_pow_pos _)
  have hrow : 2 ^ P.COL_WIDTH * 2 ≤ 2 ^ P.ROW_WIDTH := by
    rw [← Nat.pow_succ]
    exact Nat.pow_le_pow_right (by decide) hpins.col
  rw [ddrAddrCol, BitVec.toNat_ofNat]
  exact Nat.mod_eq_of_lt (by omega)

/-- The column comes through, and there is no auto-precharge. -/
theorem pinColumn_ddrAddrCol (hpins : P.HasPins) (addr : BitVec 31) :
    pinColumn (ddrAddrCol P addr) = column P addr ∧ (ddrAddrCol P addr).getLsbD 10 = false := by
  have hvalue := toNat_ddrAddrCol hpins addr
  constructor
  · have hback : ∀ c : ℕ, (c % 2 ^ 10 + c / 2 ^ 10 * 2 ^ 11) % 2 ^ 10 +
        (c % 2 ^ 10 + c / 2 ^ 10 * 2 ^ 11) / 2 ^ 11 * 2 ^ 10 = c := by
      intro c
      omega
    apply BitVec.eq_of_toNat_eq
    rw [pinColumn, column, BitVec.toNat_ofNat, BitVec.extractLsb'_toNat, Nat.shiftRight_zero,
      hvalue, hback, Nat.mod_mod]
  · rw [BitVec.getLsbD, Nat.testBit_eq_decide_div_mod_eq, hvalue, decide_eq_false_iff_not]
    omega

/-! ## What the DRAM reads -/

/-- A command on the pins. Auto-precharge and the commands of the initialisation are not decoded. -/
def decode (csN : Bool) (pins : Pins P) : Option (Command P) :=
  if csN then some .nop
  else match pins.ddrRasNR, pins.ddrCasNR, pins.ddrWeNR with
    | true, true, true => some .nop
    | false, true, true => some (.activate pins.ddrBaR pins.ddrAddrR)
    | true, false, true =>
      if pins.ddrAddrR.getLsbD 10 then none else some (.read pins.ddrBaR (pinColumn pins.ddrAddrR))
    | true, false, false =>
      if pins.ddrAddrR.getLsbD 10 then none else some (.write pins.ddrBaR (pinColumn pins.ddrAddrR))
    | false, true, false =>
      some (if pins.ddrAddrR.getLsbD 10 then .prechargeAll else .precharge pins.ddrBaR)
    | false, false, true => some .refresh
    | _, _, _ => none

/-- The states with a command. -/
def sendsCommand (state : State) : Bool :=
  state == .precharge || state == .autoRefresh || state == .active || state.isBurst

/-- With `TWO_T_TIME_EN` the chip is selected after a command. -/
theorem twoTEnableR_pinsStep (x : BitVec P.ROW_WIDTH) (s : Regs P) :
    ((pinsStep x s).twoTEnableR 0 && (pinsStep x s).twoTEnableR 1 && (pinsStep x s).twoTEnableR 2) =
      !sendsCommand s.stateR := by
  simp only [pinsStep]
  cases s.stateR <;> rfl

namespace Run

variable (R : Run P) {n : ℕ}

theorem pins_succ (n : ℕ) : (R.regs (n + 1)).pins = pinsStep (R.inputs n).xAddr (R.regs n) := rfl

/-- Without `TWO_T_TIME_EN` the chip is always selected. -/
theorem decode_oneT (hpins : P.HasPins) (h1t : P.TWO_T_TIME_EN = false) (n : ℕ) :
    decode (ctrlCsN (R.regs (n + 1))) (R.regs (n + 1)).pins = some (R.command n) := by
  obtain ⟨hcol, hbit⟩ := pinColumn_ddrAddrCol hpins (R.regs n).ctrl.afR2.addr
  have hcs : ctrlCsN (R.regs (n + 1)) = false := by
    rw [ctrlCsN, h1t, pins_succ]
    exact R.rstR1 n
  rw [hcs, pins_succ, command, Controller.command]
  cases hstate : (R.regs n).stateR with
  | precharge =>
    have hten : (BitVec.twoPow P.ROW_WIDTH 10).getLsbD 10 = true := by simp [hpins.row]
    cases hauto : (R.regs n).autoRefR with
    | true => simp [decode, pinsStep, pinNext, sends, h1t, hstate, hauto, closesAll, hten]
    | false =>
      cases hbank : (R.regs n).stage.bankConflictR <;>
        simp [decode, pinsStep, pinNext, sends, commandAddr, h1t, hstate, hauto, closesAll,
          prechargeBank, hbank, Regs.target]
  | active => simp [decode, pinsStep, pinNext, sends, commandAddr, h1t, hstate, Regs.target]
  | burstRead =>
    simp [decode, pinsStep, pinNext, sends, commandAddr, h1t, hstate, Regs.target, hcol, hbit]
  | burstWrite =>
    simp [decode, pinsStep, pinNext, sends, commandAddr, h1t, hstate, Regs.target, hcol, hbit]
  | autoRefresh => simp [decode, pinsStep, pinNext, h1t, hstate]
  | idle | prechargeWait | autoRefreshWait | activeWait | readWait | writeWait | prechargeWait1 =>
    simp [decode, pinsStep, pinNext, h1t, hstate]

/-- With `TWO_T_TIME_EN` no command follows another one at once. -/
theorem no_command_succ (h2t : P.TWO_T_TIME_EN = true) (h : sendsCommand (R.regs n).stateR = true) :
    sendsCommand (R.regs (n + 1)).stateR = false := by
  have hgo := R.goes n
  generalize (R.regs (n + 1)).stateR = state' at hgo
  generalize (R.regs n).stateR = state at hgo h
  cases hgo with
  | openAtOnce _ _ h1t =>
    rw [h2t] at h1t
    cases h1t
  | closeAll | closeOne | refreshed | opened | written | read => rfl
  | _ => exact absurd h (by decide)

/-- A bank is closed in the second cycle as it would be in the first one. -/
theorem precharge_held (hstate : (R.regs n).stateR = .precharge)
    (hauto' : (R.regs (n + 1)).autoRefR = false) :
    (R.regs (n + 1)).stage = (R.regs n).stage ∧ (R.regs (n + 1)).table = (R.regs n).table := by
  have hauto : (R.regs n).autoRefR = false := by
    refine Bool.eq_false_of_not_eq_true fun hauto => ?_
    have hrequest := autoRefR_step_of_request (i := R.inputs n) (R.rstR1 n) hauto
      (by rw [hstate]; decide)
    rw [← R.regs_succ, hauto'] at hrequest
    cases hrequest
  have hcmd := R.hasCommand n
  rw [hstate] at hcmd
  exact ⟨(held (R.rstR1 n) (hcmd hauto) (by rw [hstate]; rfl)).2.2,
    (R.settled (by rw [hstate]; decide) (by rw [hstate]; decide)).table⟩

/-- With `TWO_T_TIME_EN` the chip is selected in the second cycle of a command. -/
theorem decode_twoT (hpins : P.HasPins) (h2t : P.TWO_T_TIME_EN = true) (n : ℕ) :
    decode (ctrlCsN (R.regs (n + 2))) (R.regs (n + 2)).pins = some (R.command n) := by
  obtain ⟨hcol, hbit⟩ := pinColumn_ddrAddrCol hpins (R.regs n).ctrl.afR2.addr
  have hr1 := R.stateR1_succ n
  have haddr : (R.regs (n + 1)).afAddrR3 = (R.regs n).ctrl.afR2.addr := rfl
  have hrst := R.rstR1 (n + 1)
  have hquiet := R.no_command_succ (n := n) h2t
  have hcs : ctrlCsN (R.regs (n + 2)) = !sendsCommand (R.regs n).stateR := by
    have hselect : (R.regs (n + 2)).pins.ddrCsNR = false := hrst
    have hpins1 : (R.regs (n + 1)).pins = pinsStep (R.inputs n).xAddr (R.regs n) := rfl
    rw [ctrlCsN, h2t, if_pos rfl, hselect, Bool.false_or,
      ← twoTEnableR_pinsStep (R.inputs n).xAddr, ← hpins1]
    rfl
  rw [hcs, pins_succ, command, Controller.command]
  cases hcommand : sendsCommand (R.regs n).stateR with
  | false =>
    rw [Bool.not_false]
    generalize (R.regs n).stateR = state at hcommand
    cases state with
    | precharge | autoRefresh | active | burstRead | burstWrite => cases hcommand
    | idle | prechargeWait | autoRefreshWait | activeWait | readWait | writeWait | prechargeWait1 =>
        rfl
  | true =>
    have hquiet := hquiet hcommand
    simp only [sendsCommand, State.isBurst, Bool.or_eq_false_iff, beq_eq_false_iff_ne] at hquiet
    cases hstate : (R.regs n).stateR with
    | precharge =>
      rw [hstate] at hr1
      have hten : (BitVec.twoPow P.ROW_WIDTH 10).getLsbD 10 = true := by simp [hpins.row]
      cases hauto' : (R.regs (n + 1)).autoRefR with
      | true =>
        simp [decode, pinsStep, pinNext, sends, h2t, hquiet, hr1, hauto', pins_succ, hstate,
          closesAll, hten, beq_eq_decide]
      | false =>
        obtain ⟨hstage, htable⟩ := R.precharge_held hstate hauto'
        cases hbank : (R.regs n).stage.bankConflictR <;>
          simp [decode, pinsStep, pinNext, sends, commandAddr, h2t, hquiet, hr1, haddr, hauto',
            pins_succ, hstate, closesAll, prechargeBank, hstage, htable, hbank,
            Regs.target, beq_eq_decide]
    | active =>
      rw [hstate] at hr1
      simp [decode, pinsStep, pinNext, sends, commandAddr, h2t, hquiet, hr1, haddr, pins_succ,
        hstate, Regs.target, beq_eq_decide]
    | burstRead =>
      rw [hstate] at hr1
      simp [decode, pinsStep, pinNext, sends, commandAddr, h2t, hquiet, hr1, haddr, pins_succ,
        hstate, Regs.target, hcol, hbit, beq_eq_decide]
    | burstWrite =>
      rw [hstate] at hr1
      simp [decode, pinsStep, pinNext, sends, commandAddr, h2t, hquiet, hr1, haddr, pins_succ,
        hstate, Regs.target, hcol, hbit, beq_eq_decide]
    | autoRefresh => simp [decode, pinsStep, pinNext, h2t, hquiet, pins_succ, hstate, beq_eq_decide]
    | idle | prechargeWait | autoRefreshWait | activeWait | readWait | writeWait | prechargeWait1 =>
      rw [hstate] at hcommand
      cases hcommand

/-- The cycles from a state to its command on the pins. -/
def latency (P : Params) : ℕ := if P.TWO_T_TIME_EN then 2 else 1

/-- What the DRAM sees in each cycle, from the first command on. -/
def seen (n : ℕ) : Option (Command P) :=
  decode (ctrlCsN (R.regs (n + latency P))) (R.regs (n + latency P)).pins

/-- **The pins** carry the commands of the state machine. -/
theorem seen_eq (hpins : P.HasPins) (n : ℕ) : R.seen n = some (R.command n) := by
  rw [seen, latency]
  cases h2t : P.TWO_T_TIME_EN with
  | false => exact R.decode_oneT hpins h2t n
  | true => exact R.decode_twoT hpins h2t n

/-- **What the DRAM sees**: commands that it accepts, in time. -/
theorem dram_sees (hpins : P.HasPins) (hapart : P.Apart) (hclk : 0 < P.CLK_PERIOD) :
    ∃ commands : ℕ → Command P, (∀ n, R.seen n = some (commands n)) ∧ Sdram.Accepts commands ∧
      Sdram.Spaced P.timing P.CLK_PERIOD commands ∧
        ∀ m n bank row row', m < n → commands m = .activate bank row →
          commands n = .activate bank row' → P.TRAS + P.TRP ≤ (n - m) * P.CLK_PERIOD :=
  ⟨R.command, R.seen_eq hpins, R.dram_accepts, R.spaced hapart hclk⟩

/-- Writes and reads in turn, on the board. -/
theorem dram_sees_board : ∃ commands : ℕ → Command Params.board,
    (∀ n, (board true fun _ => false).seen n = some (commands n)) ∧ Sdram.Accepts commands ∧
      Sdram.Spaced Params.board.timing 5000 commands ∧
        ∀ m n bank row row', m < n → commands m = .activate bank row →
          commands n = .activate bank row' → Params.board.TRAS + Params.board.TRP ≤ (n - m) * 5000 :=
  (board true fun _ => false).dram_sees Params.hasPins_board Params.apart_board (by decide)

end Run

end ProbableCause.Ddr2.Controller
