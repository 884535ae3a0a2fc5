import ProbableCause.Ddr2.Ctrl
import Mathlib.Data.Fin.Basic

/-!
# `Ddr2.Controller` — the whole of `ddr2_ctrl.v`

The main state machine, the table of open banks and the counters for the times between commands,
around the registers of `Ddr2.Ctrl`. The parameters are those of the module; as on the board there
is one chip select (`CS_NUM = 1`), several banks may be open (`MULTI_BANK_EN = 1`), and the memory
is a DDR2 (`DDR_TYPE = 1`).

The registers are put together from groups that are described one after the other: the command in
the last stage of the pipeline (`Stage`), the table of open banks (`BankTable`), the counters
(`Timers`) and the bursts (`Bursts`).
-/

namespace ProbableCause.Ddr2.Controller

/-! ## Parameters -/

structure Params where
  BANK_WIDTH : ℕ
  COL_WIDTH : ℕ
  ROW_WIDTH : ℕ
  ADDITIVE_LAT : ℕ
  BURST_LEN : ℕ
  CAS_LAT : ℕ
  TREFI_NS : ℕ
  TRAS : ℕ
  TRCD : ℕ
  TRRD : ℕ
  TRFC : ℕ
  TRP : ℕ
  TRTP : ℕ
  TWR : ℕ
  TWTR : ℕ
  CLK_PERIOD : ℕ
  TWO_T_TIME_EN : Bool

namespace Params

variable (P : Params)

def BURST_LEN_DIV2 : ℕ := P.BURST_LEN / 2

/-- `ACTIVE` to `PRECHARGE`. -/
def TRAS_COUNT : ℕ := (P.TRAS + P.CLK_PERIOD) / P.CLK_PERIOD

/-- `ACTIVE` to `ACTIVE`. -/
def TRRD_COUNT : ℕ := (P.TRRD + P.CLK_PERIOD) / P.CLK_PERIOD

/-- `ACTIVE` to `READ` or `WRITE`. -/
def TRCD_COUNT : ℕ := (P.TRCD + P.CLK_PERIOD) / P.CLK_PERIOD - P.ADDITIVE_LAT

/-- `REFRESH` to `REFRESH` or `ACTIVE`. -/
def TRFC_COUNT : ℕ := (P.TRFC + P.CLK_PERIOD) / P.CLK_PERIOD

/-- `PRECHARGE` to the next command. -/
def TRP_COUNT : ℕ := (P.TRP + P.CLK_PERIOD) / P.CLK_PERIOD + 1

/-- `READ` to `PRECHARGE`. -/
def TRTP_COUNT : ℕ := max ((P.TRTP + P.CLK_PERIOD) / P.CLK_PERIOD) 2 + P.ADDITIVE_LAT +
    P.BURST_LEN_DIV2 - 2

def WR_LAT : ℕ := P.CAS_LAT + P.ADDITIVE_LAT - 1

/-- `WRITE` to `PRECHARGE`. -/
def TWR_COUNT : ℕ := (P.TWR + P.CLK_PERIOD) / P.CLK_PERIOD + P.WR_LAT + P.BURST_LEN_DIV2

/-- `WRITE` to `READ`. -/
def TWTR_COUNT : ℕ := (P.TWTR + P.CLK_PERIOD) / P.CLK_PERIOD + (P.CAS_LAT - 1) + P.BURST_LEN_DIV2

/-- `READ` to `WRITE`. -/
def TRTW_COUNT : ℕ := P.BURST_LEN_DIV2 + 4

/-- The cycles between two refresh requests, on 32 bits. -/
def TREFI_COUNT : BitVec 32 := BitVec.ofNat 32 (P.TREFI_NS * 1000 / P.CLK_PERIOD) - 1

/-- The parameters of the board. -/
def board : Params where
  BANK_WIDTH := 2
  COL_WIDTH := 10
  ROW_WIDTH := 13
  ADDITIVE_LAT := 0
  BURST_LEN := 8
  CAS_LAT := 4
  TREFI_NS := 7800
  TRAS := 40000
  TRCD := 15000
  TRRD := 10000
  TRFC := 105000
  TRP := 15000
  TRTP := 7500
  TWR := 15000
  TWTR := 7500
  CLK_PERIOD := 5000
  TWO_T_TIME_EN := true

end Params

/-! ## Addresses -/

/-- A bank and a row of it. -/
structure RowAddr (P : Params) where
  bank : BitVec P.BANK_WIDTH
  row : BitVec P.ROW_WIDTH
  deriving DecidableEq

/-- The bank and the row of an address, `af_addr[CS_RANGE_END:ROW_RANGE_START]`. -/
def rowAddr (P : Params) (addr : BitVec 31) : RowAddr P where
  bank := addr.extractLsb' (P.COL_WIDTH + P.ROW_WIDTH) P.BANK_WIDTH
  row := addr.extractLsb' P.COL_WIDTH P.ROW_WIDTH

/-! ## States -/

/-- `CTRL_IDLE`, `CTRL_PRECHARGE` and so on. -/
inductive State where
  | idle
  | precharge
  | prechargeWait
  | autoRefresh
  | autoRefreshWait
  | active
  | activeWait
  | burstRead
  | readWait
  | burstWrite
  | writeWait
  | prechargeWait1
  deriving DecidableEq

def State.code : State → BitVec 5
  | .idle => 0x00
  | .precharge => 0x01
  | .prechargeWait => 0x02
  | .autoRefresh => 0x03
  | .autoRefreshWait => 0x04
  | .active => 0x05
  | .activeWait => 0x06
  | .burstRead => 0x07
  | .readWait => 0x08
  | .burstWrite => 0x09
  | .writeWait => 0x0A
  | .prechargeWait1 => 0x0B

/-- The states in which the command in the last stage of the pipeline is carried out. -/
def State.isBurst (state : State) : Bool := state == .burstWrite || state == .burstRead

/-! ## The table of open banks

Entry `0` is the bank that was opened last. -/

structure BankTable (P : Params) where
  bankCmpAddrR : Fin 4 → RowAddr P
  bankValidR : Fin 4 → Bool

namespace BankTable

variable {P : Params}

def bankHit (t : BankTable P) (addr : RowAddr P) (k : Fin 4) : Bool :=
  decide ((t.bankCmpAddrR k).bank = addr.bank) && t.bankValidR k

def rowMiss (t : BankTable P) (addr : RowAddr P) (k : Fin 4) : Bool :=
  decide ((t.bankCmpAddrR k).row ≠ addr.row)

/-- The last entry that is overwritten when the entries before it move on by one. -/
def overwritten (hit : Fin 4 → Bool) : Fin 4 :=
  match hit 0, hit 1, hit 2 with
  | true, false, false => 0
  | false, true, false => 1
  | false, false, true => 2
  | _, _, _ => 3

/-- The entry that makes room for another bank. -/
abbrev lastEntry : Fin 4 := 3

/-- The entry that comes to a place other than the first. -/
def movedFrom (m k : Fin 4) : Fin 4 := if k ≤ m then k - 1 else k

/-- A bank is opened. -/
def shift (t : BankTable P) (hit : Fin 4 → Bool) (addr : RowAddr P) : BankTable P where
  bankCmpAddrR k := if k = 0 then addr else t.bankCmpAddrR (movedFrom (overwritten hit) k)
  bankValidR k := if k = 0 then true else t.bankValidR (movedFrom (overwritten hit) k)

def empty : BankTable P where
  bankCmpAddrR _ := ⟨0, 0⟩
  bankValidR _ := false

/-- `state_r1` is one cycle behind the state machine, and so are the hits and the address. -/
def step (t : BankTable P) (stateR1 : State) (bankHitR1 : Fin 4 → Bool)
    (afAddrR3 : BitVec 31) : BankTable P :=
  if stateR1 = .autoRefresh then empty
  else if stateR1 = .active then t.shift bankHitR1 (rowAddr P afAddrR3)
  else t

end BankTable

/-! ## Timers -/

/-- A counter that is loaded and counts down, and the flag that it is `3` or less. -/
structure Timer (w : ℕ) where
  cnt : BitVec w
  ok : Bool

/-- `count` is loaded and the flag cleared when `start` is set; `rst` clears the counter only. -/
def Timer.step {w : ℕ} (t : Timer w) (rst start : Bool) (count : ℕ) (clear : Bool) : Timer w where
  cnt := if rst then 0 else if start then BitVec.ofNat w count else if t.cnt ≠ 0
    then t.cnt - 1 else t.cnt
  ok := if clear then false else if t.cnt.toNat ≤ 3 then true else t.ok

/-- Counting down stops at zero. -/
theorem toNat_countDown {w : ℕ} (c : BitVec w) :
    (if c ≠ 0 then c - 1 else c).toNat = c.toNat - 1 := by
  by_cases h : c = 0
  · rw [if_neg (not_not.mpr h), h]
    rfl
  · rw [if_pos h]
    have hpos : c.toNat ≠ 0 := fun h0 => h (BitVec.eq_of_toNat_eq h0)
    have hlt : 1 < 2 ^ w := Nat.lt_of_le_of_lt (Nat.one_le_iff_ne_zero.mpr hpos) c.isLt
    have hone : (1 : BitVec w).toNat = 1 := Nat.mod_eq_of_lt hlt
    rw [BitVec.toNat_sub_of_le (by rw [BitVec.le_def, hone]; omega), hone]

structure Timers where
  /-- `rp_cnt_r` and `rp_cnt_ok_r` -/
  rp : Timer 4
  /-- `rfc_cnt_r` and `rfc_ok_r` -/
  rfc : Timer 8
  /-- `rcd_cnt_r` and `rcd_cnt_ok_r` -/
  rcd : Timer 4
  /-- `trrd_cnt_r` and `trrd_cnt_ok_r` -/
  trrd : Timer 3
  /-- `precharge_ok_cnt_r` and `precharge_ok_r` -/
  precharge : Timer 5
  /-- `wr_to_rd_cnt_r` and `wr_to_rd_ok_r` -/
  wrToRd : Timer 5
  /-- `rd_to_wr_cnt_r` and `rd_to_wr_ok_r` -/
  rdToWr : Timer 5

/-- The time until a bank may be closed. A read leaves a counter that is high enough as it is. -/
def prechargeStep (P : Params) (stateR : State) (t : Timer 5) : Timer 5 where
  cnt :=
    if stateR = .burstRead then
      if t.cnt.toNat < P.TRTP_COUNT then BitVec.ofNat 5 P.TRTP_COUNT else t.cnt
    else if stateR = .burstWrite then BitVec.ofNat 5 P.TWR_COUNT
    else if stateR = .active then BitVec.ofNat 5 P.TRAS_COUNT
    else if t.cnt ≠ 0 then t.cnt - 1 else t.cnt
  ok :=
    if stateR = .burstRead ∨ stateR = .burstWrite ∨ stateR = .active then false
    else if t.cnt.toNat ≤ 3 then true else t.ok

def Timers.step (P : Params) (rstR1 : Bool) (stateR : State) (t : Timers) : Timers where
  rp := t.rp.step false (stateR == .precharge) P.TRP_COUNT (stateR == .precharge)
  rfc := t.rfc.step false (stateR == .autoRefresh) P.TRFC_COUNT (stateR == .autoRefresh)
  rcd := t.rcd.step false (stateR == .active) P.TRCD_COUNT
    (stateR == .active && decide (P.TRCD_COUNT > 2))
  trrd := t.trrd.step false (stateR == .active) P.TRRD_COUNT (stateR == .active)
  precharge := prechargeStep P stateR t.precharge
  wrToRd := t.wrToRd.step rstR1 (stateR == .burstWrite) P.TWTR_COUNT (stateR == .burstWrite)
  rdToWr := t.rdToWr.step rstR1 (stateR == .burstRead) P.TRTW_COUNT (stateR == .burstRead)

/-! ## Bursts -/

/-- The counter of a burst, from `BURST_LEN / 2` down to `1`, and the enable of the data path. -/
structure Burst where
  /-- `wrburst_cnt_r`, `rdburst_cnt_r` -/
  cnt : BitVec 3
  /-- `wrburst_ok_r`, `rdburst_ok_r`: the next burst may follow -/
  ok : Bool
  /-- `wrburst_wren_ok_r`, `rdburst_rden_ok_r`: the counter was `2` -/
  last : Bool
  /-- `ctrl_wren`, `ctrl_rden` -/
  enable : Bool

def Burst.step (P : Params) (rstR1 start : Bool) (b : Burst) : Burst where
  cnt := if start then BitVec.ofNat 3 P.BURST_LEN_DIV2 else if b.cnt ≥ 1 then b.cnt - 1 else b.cnt
  ok :=
    if start && decide (P.BURST_LEN_DIV2 > 2) then false
    else if b.cnt ≤ 3 || decide (P.BURST_LEN_DIV2 ≤ 2) then true
    else b.ok
  last := b.cnt == 2
  enable := if rstR1 then false else if start then true else if b.last then false else b.enable

/-! ## The last stage of the pipeline -/

/-- What is known of the command in the last stage, from the table of open banks when it was loaded.
-/
structure Stage where
  bankHitR : Fin 4 → Bool
  rowConflictR : Fin 4 → Bool
  bankConflictR : Bool

structure Inputs (P : Params) where
  rst : Bool
  spRefreshDisable : Bool
  phyInitDone : Bool
  afEmpty : Bool
  af : AfData
  /-- the values for which the source has `x` -/
  x1 : AfData
  x2 : AfData
  xStage : Stage
  xAddr : BitVec P.ROW_WIDTH

/-! ## The pins -/

/-- The registers behind the pins. With `TWO_T_TIME_EN` a command stays on the pins for two cycles,
    and the chip is selected in the second one. -/
structure Pins (P : Params) where
  ddrAddrR : BitVec P.ROW_WIDTH
  ddrBaR : BitVec P.BANK_WIDTH
  ddrRasNR : Bool
  ddrCasNR : Bool
  ddrWeNR : Bool
  ddrCsNR : Bool
  twoTEnableR : Fin 3 → Bool
  twoTEnableR1 : Bool

/-! ## The registers -/

structure Regs (P : Params) where
  /-- the pipeline and the refresh counter -/
  ctrl : Ddr2.Regs
  stage : Stage
  rdFlagR : Bool
  wrFlagR : Bool
  afAddrR3 : BitVec 31
  conflictDetectR : Bool
  conflictResolvedR : Bool
  actAddrR : RowAddr P
  bankHitR1 : Fin 4 → Bool
  noPrechargeWaitR : Bool
  noPrechargeR1 : Bool
  table : BankTable P
  timers : Timers
  write : Burst
  read : Burst
  autoCntR : BitVec 2
  phyInitDoneR : Bool
  stateR : State
  stateR1 : State
  pins : Pins P

variable {P : Params}

namespace Regs

variable (s : Regs P)

def smRden : Bool := s.stateR.isBurst

def wrFlag : Bool := s.ctrl.afValidR2 && s.ctrl.afR2.cmd == 0
def rdFlag : Bool := s.ctrl.afValidR2 && s.ctrl.afR2.cmd == 1

/-- The bank and the row of the command in the last stage. -/
def target : RowAddr P := rowAddr P s.ctrl.afR2.addr

def conflictDetect : Bool :=
  (decide (∃ k, s.stage.rowConflictR k = true ∧
    s.stage.bankHitR k = true) || s.stage.bankConflictR) &&
    s.ctrl.afValidR2

/-- There is room in the table for one more bank. -/
def noPrechargeR : Bool := !s.table.bankValidR 3 && s.stage.bankConflictR

def autoRefR : Bool := s.ctrl.autoRefR

end Regs

/-! ## The main state machine -/

def nextState (s : Regs P) : State :=
  match s.stateR with
  | .idle => if s.phyInitDoneR then .autoRefresh else .idle
  | .precharge =>
    if s.autoRefR then .prechargeWait1
    else if s.noPrechargeWaitR && !P.TWO_T_TIME_EN then .active
    else .prechargeWait
  | .prechargeWait =>
    if s.timers.rp.ok then if s.autoRefR then .precharge else .active
    else .prechargeWait
  | .prechargeWait1 => if s.timers.rp.ok then .autoRefresh else .prechargeWait1
  | .autoRefresh => .autoRefreshWait
  | .autoRefreshWait =>
    if s.autoCntR < 1 then if s.timers.rfc.ok then .autoRefresh else .autoRefreshWait
    else if s.timers.rfc.ok then
      if s.autoRefR then .precharge
      else if s.wrFlag || s.rdFlag then .active
      else .autoRefreshWait
    else .autoRefreshWait
  | .active => .activeWait
  | .activeWait =>
    if s.timers.rcd.ok then
      if (s.conflictDetectR && !s.conflictResolvedR) || s.autoRefR then
        if s.noPrechargeR1 && !s.autoRefR && s.timers.trrd.ok then .active
        else if s.timers.precharge.ok then .precharge
        else .activeWait
      else if s.wrFlagR && s.timers.rdToWr.ok then .burstWrite
      else if s.rdFlagR && s.timers.wrToRd.ok then .burstRead
      else .activeWait
    else .activeWait
  | .burstWrite =>
    if P.BURST_LEN_DIV2 = 1 then if s.wrFlag then .burstWrite else .writeWait
    else .writeWait
  | .writeWait =>
    if s.conflictDetect || s.autoRefR then
      if s.noPrechargeR && !s.autoRefR && s.write.ok then .active
      else if s.timers.precharge.ok then .precharge
      else .writeWait
    else if s.write.ok && s.wrFlag then .burstWrite
    else if s.rdFlag && s.timers.wrToRd.ok then .burstRead
    else .writeWait
  | .burstRead =>
    if P.BURST_LEN_DIV2 = 1 then if s.rdFlag then .burstRead else .readWait
    else .readWait
  | .readWait =>
    if s.conflictDetect || s.autoRefR then
      if s.noPrechargeR && !s.autoRefR && s.read.ok then .active
      else if s.timers.precharge.ok then .precharge
      else .readWait
    else if s.read.ok && s.rdFlag then .burstRead
    else if s.wrFlag && s.timers.rdToWr.ok then .burstWrite
    else .readWait

/-! ## The pins in the next cycle -/

/-- The column, with bit 10 of the address zero: no auto-precharge. -/
def ddrAddrCol (P : Params) (addr : BitVec 31) : BitVec P.ROW_WIDTH :=
  let column := addr.toNat % 2 ^ P.COL_WIDTH
  BitVec.ofNat P.ROW_WIDTH (column % 2 ^ 10 + column / 2 ^ 10 * 2 ^ 11)

/-- One of the three command pins: low for a command, and for one cycle more with `TWO_T_TIME_EN`. -/
def pinNext (P : Params) (low twoTEnable : Bool) : Bool :=
  if low then false else if P.TWO_T_TIME_EN then twoTEnable else true

/-- The address that a command is sent with. -/
def commandAddr (s : Regs P) : BitVec 31 := if P.TWO_T_TIME_EN then s.afAddrR3 else s.ctrl.afR2.addr

/-- The state machine is in a state, or has just left it with `TWO_T_TIME_EN`. -/
def sends (s : Regs P) (state : State) : Bool :=
  s.stateR == state || (s.stateR1 == state && P.TWO_T_TIME_EN)

def pinsStep (x : BitVec P.ROW_WIDTH) (s : Regs P) : Pins P where
  ddrAddrR :=
    if sends s .active then (rowAddr P (commandAddr s)).row
    else if sends s .burstWrite || sends s .burstRead then ddrAddrCol P (commandAddr s)
    else if sends s .precharge && s.autoRefR then BitVec.twoPow P.ROW_WIDTH 10
    else if sends s .precharge then 0
    else x
  ddrBaR :=
    if sends s .precharge && s.stage.bankConflictR then (s.table.bankCmpAddrR 3).bank
    else (rowAddr P (commandAddr s)).bank
  ddrRasNR := pinNext P (s.stateR == .autoRefresh || s.stateR == .active || s.stateR == .precharge)
    (s.pins.twoTEnableR 0)
  ddrCasNR := pinNext P
    (s.stateR == .burstWrite || s.stateR == .burstRead || s.stateR == .autoRefresh)
    (s.pins.twoTEnableR 1)
  ddrWeNR := pinNext P (s.stateR == .burstWrite || s.stateR == .precharge) (s.pins.twoTEnableR 2)
  ddrCsNR := s.ctrl.rstR1
  twoTEnableR
    | 0 => !(s.stateR == .autoRefresh || s.stateR == .active || s.stateR == .precharge)
    | 1 => !(s.stateR == .burstWrite || s.stateR == .burstRead || s.stateR == .autoRefresh)
    | 2 => !(s.stateR == .burstWrite || s.stateR == .precharge)
  twoTEnableR1 := s.pins.twoTEnableR 0 && s.pins.twoTEnableR 1 && s.pins.twoTEnableR 2

def ctrlCsN (s : Regs P) : Bool :=
  if P.TWO_T_TIME_EN then s.pins.ddrCsNR || s.pins.twoTEnableR1 else s.pins.ddrCsNR

/-! ## A cycle -/

/-- What the pipeline and the refresh counter see. -/
def Inputs.ctrl (i : Inputs P) (state : State) : Ddr2.Inputs where
  rst := i.rst
  spRefreshDisable := i.spRefreshDisable
  afEmpty := i.afEmpty
  af := i.af
  stateR := state.code
  x1 := i.x1
  x2 := i.x2

/-- The registers after a rising edge of the clock. -/
def step (i : Inputs P) (s : Regs P) : Regs P where
  ctrl := Ddr2.step P.TREFI_COUNT (i.ctrl s.stateR) s.ctrl
  stage :=
    if s.ctrl.rstR1 then i.xStage
    else if s.smRden || !s.ctrl.afValidR2 then
      { bankHitR := s.table.bankHit (rowAddr P s.ctrl.afR1.addr)
        rowConflictR := s.table.rowMiss (rowAddr P s.ctrl.afR1.addr)
        bankConflictR := !decide (∃ k, s.table.bankHit (rowAddr P s.ctrl.afR1.addr) k = true) }
    else s.stage
  rdFlagR := s.rdFlag
  wrFlagR := s.wrFlag
  afAddrR3 := s.ctrl.afR2.addr
  conflictDetectR := s.conflictDetect
  conflictResolvedR := s.actAddrR == s.target
  actAddrR := if s.stateR = .active then s.target else s.actAddrR
  bankHitR1 := s.stage.bankHitR
  noPrechargeWaitR := s.table.bankValidR 3 && s.stage.bankConflictR
  noPrechargeR1 := s.noPrechargeR
  table := s.table.step s.stateR1 s.bankHitR1 s.afAddrR3
  timers := s.timers.step P s.ctrl.rstR1 s.stateR
  write := s.write.step P s.ctrl.rstR1 (s.stateR == .burstWrite)
  read := s.read.step P s.ctrl.rstR1 (s.stateR == .burstRead)
  autoCntR :=
    if s.ctrl.rstR1 || s.stateR1 == .precharge then 0
    else if s.stateR1 = .autoRefresh then s.autoCntR + 1
    else s.autoCntR
  phyInitDoneR := i.phyInitDone
  stateR := if s.ctrl.rstR1 then .idle else nextState s
  stateR1 := if s.ctrl.rstR1 then .idle else s.stateR
  pins := pinsStep i.xAddr s

end ProbableCause.Ddr2.Controller
