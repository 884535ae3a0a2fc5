import ProbableCause.Ddr2.Fetch
import ProbableCause.Ddr2.Timers
import ProbableCause.Lib.Sdram

/-!
# `Ddr2.Banks` — the table of open banks is that of the DRAM

The controller remembers in a table which rows it has opened, and decides by the table whether a
command can be executed or a bank has to be opened or closed before. `IsOpen t rows` says that the
table `t` agrees with the DRAM.

The table is behind the DRAM: a bank that has been opened is entered a cycle later, a bank that has
been closed stays in the table until its entry is overwritten by the next one (`IsOpenBut`), and the
last stage of the pipeline has looked into the table when its command was loaded (`Looked`).
`BanksInv` says for each state of the state machine how far the two are apart. From it the DRAM
accepts every command (`dram_accepts`) and the accesses are those of the commands executed
(`accesses_eq`).
-/

namespace ProbableCause.Ddr2.Controller

variable {P : Params}

abbrev Rows (P : Params) := Sdram.Banks (BitVec P.BANK_WIDTH) (BitVec P.ROW_WIDTH)

/-! ## Tables and open rows -/

namespace BankTable

variable {t : BankTable P} {rows : Rows P} {hit : Fin 4 → Bool} {addr : RowAddr P} {m : Fin 4}

/-- The valid entries are the open rows. -/
def IsOpen (t : BankTable P) (rows : Rows P) : Prop :=
  ∀ b r, rows b = some r ↔ ∃ k, t.bankValidR k = true ∧ t.bankCmpAddrR k = ⟨b, r⟩

/-- The valid entries are the open rows, entry `m` apart, and the bank of `addr` is closed. -/
structure IsOpenBut (t : BankTable P) (m : Fin 4) (addr : RowAddr P) (rows : Rows P) : Prop where
  iff : ∀ b r, rows b = some r ↔ ∃ k, k ≠ m ∧ t.bankValidR k = true ∧ t.bankCmpAddrR k = ⟨b, r⟩
  closed : rows addr.bank = none

/-- A bank has one entry at most. -/
def OneEach (t : BankTable P) : Prop :=
  ∀ j k, t.bankValidR j = true → t.bankValidR k = true →
    (t.bankCmpAddrR j).bank = (t.bankCmpAddrR k).bank → j = k

theorem movedFrom_ne : ∀ m k : Fin 4, k ≠ 0 → movedFrom m k ≠ m := by decide

theorem movedFrom_inj : ∀ m j k :
    Fin 4, j ≠ 0 → k ≠ 0 → movedFrom m j = movedFrom m k → j = k := by decide

theorem exists_movedFrom : ∀ m j : Fin 4, j ≠ m → ∃ k, k ≠ 0 ∧ movedFrom m k = j := by decide

theorem shift_of_ne {k : Fin 4} (h : k ≠ 0) :
    (t.shift hit addr).bankCmpAddrR k = t.bankCmpAddrR (movedFrom (overwritten hit) k) ∧
      (t.shift hit addr).bankValidR k = t.bankValidR (movedFrom (overwritten hit) k) :=
  ⟨if_neg h, if_neg h⟩

/-- No other entry has the bank that is closed. -/
theorem IsOpenBut.bank_ne (h : t.IsOpenBut m addr rows) {k : Fin 4} (hk : k ≠ m)
    (hvalid : t.bankValidR k = true) :
    (t.bankCmpAddrR k).bank ≠ addr.bank := by
  intro hbank
  have hopen : rows (t.bankCmpAddrR k).bank = some (t.bankCmpAddrR k).row :=
    (h.iff _ _).mpr ⟨k, hk, hvalid, rfl⟩
  rw [hbank, h.closed] at hopen
  cases hopen

/-- **A row is opened**: the table with the new entry agrees with the DRAM again. -/
theorem IsOpenBut.shift (h : t.IsOpenBut (overwritten hit) addr rows) :
    (t.shift hit addr).IsOpen (Function.update rows addr.bank (some addr.row)) := by
  intro b r
  by_cases hb : b = addr.bank
  · -- the new entry
    subst hb
    rw [Function.update_self]
    constructor
    · intro hr
      cases hr
      exact ⟨0, rfl, rfl⟩
    · rintro ⟨k, hvalid, haddr⟩
      by_cases hk : k = 0
      · rw [hk] at haddr
        have hrow : addr.row = r := congrArg RowAddr.row haddr
        rw [hrow]
      · rw [(shift_of_ne hk).1] at haddr
        rw [(shift_of_ne hk).2] at hvalid
        exact absurd (congrArg RowAddr.bank haddr) (h.bank_ne (movedFrom_ne _ _ hk) hvalid)
  · rw [Function.update_of_ne hb, h.iff]
    constructor
    · rintro ⟨j, hj, hvalid, haddr⟩
      obtain ⟨k, hk, rfl⟩ := exists_movedFrom _ _ hj
      exact ⟨k, (shift_of_ne hk).2.trans hvalid, (shift_of_ne hk).1.trans haddr⟩
    · rintro ⟨k, hvalid, haddr⟩
      by_cases hk : k = 0
      · rw [hk] at haddr
        exact absurd (congrArg RowAddr.bank haddr).symm hb
      · rw [(shift_of_ne hk).1] at haddr
        rw [(shift_of_ne hk).2] at hvalid
        exact ⟨_, movedFrom_ne _ _ hk, hvalid, haddr⟩

theorem OneEach.shift (h : t.OneEach) (hbut : t.IsOpenBut (overwritten hit) addr rows) :
    (t.shift hit addr).OneEach := by
  intro j k hj hk hbank
  by_cases hj0 : j = 0
  · by_cases hk0 : k = 0
    · exact hj0.trans hk0.symm
    · rw [(shift_of_ne hk0).2] at hk
      rw [hj0, (shift_of_ne hk0).1] at hbank
      exact absurd hbank.symm (hbut.bank_ne (movedFrom_ne _ _ hk0) hk)
  · rw [(shift_of_ne hj0).2] at hj
    rw [(shift_of_ne hj0).1] at hbank
    by_cases hk0 : k = 0
    · rw [hk0] at hbank
      exact absurd hbank (hbut.bank_ne (movedFrom_ne _ _ hj0) hj)
    · rw [(shift_of_ne hk0).2] at hk
      rw [(shift_of_ne hk0).1] at hbank
      exact movedFrom_inj _ _ _ hj0 hk0 (h _ _ hj hk hbank)

/-- The hits of a bank in a table with one entry for each: the one entry of the bank is overwritten,
or the last one. -/
theorem overwritten_of_hit (h : t.OneEach) {k : Fin 4} (hk : t.bankHit addr k = true) :
    overwritten (t.bankHit addr) = k := by
  have hother : ∀ j, j ≠ k → t.bankHit addr j = false := by
    intro j hj
    refine Bool.eq_false_of_not_eq_true fun hj' => hj ?_
    simp only [bankHit, Bool.and_eq_true, decide_eq_true_eq] at hk hj'
    exact h j k hj'.2 hk.2 (hj'.1.trans hk.1.symm)
  have hcases : ∀ k : Fin 4, k = 0 ∨ k = 1 ∨ k = 2 ∨ k = 3 := by decide
  obtain rfl | rfl | rfl | rfl := hcases k
  · rw [overwritten, hk, hother 1 (by decide), hother 2 (by decide)]
  · rw [overwritten, hk, hother 0 (by decide), hother 2 (by decide)]
  · rw [overwritten, hk, hother 0 (by decide), hother 1 (by decide)]
  · rw [overwritten, hother 0 (by decide), hother 1 (by decide), hother 2 (by decide)]

theorem overwritten_of_no_hit (h : ∀ k, t.bankHit addr k = false) :
    overwritten (t.bankHit addr) = 3 := by
  rw [overwritten, h 0, h 1, h 2]

/-! ### Closing a bank -/

/-- The bank of an entry is closed: the entry stays in the table. -/
theorem IsOpen.close (h : t.IsOpen rows) (hone : t.OneEach) (hm : t.bankValidR m = true)
    (haddr : rows addr.bank = none ∨ (t.bankCmpAddrR m).bank = addr.bank) :
    t.IsOpenBut m addr (Function.update rows (t.bankCmpAddrR m).bank none) := by
  constructor
  · intro b r
    by_cases hb : b = (t.bankCmpAddrR m).bank
    · rw [hb, Function.update_self]
      refine iff_of_false (by simp) ?_
      rintro ⟨k, hk, hvalid, hkb⟩
      exact hk (hone k m hvalid hm (by rw [hkb]))
    · rw [Function.update_of_ne hb, h]
      refine exists_congr fun k => ⟨fun hk => ⟨?_, hk⟩, fun hk => hk.2⟩
      rintro rfl
      exact hb (congrArg RowAddr.bank hk.2).symm
  · rcases haddr with hnone | hbank
    · by_cases hb : addr.bank = (t.bankCmpAddrR m).bank
      · rw [hb, Function.update_self]
      · rw [Function.update_of_ne hb, hnone]
    · rw [hbank, Function.update_self]

/-- The entry is free anyway. -/
theorem IsOpen.but_invalid (h : t.IsOpen rows) (hm : t.bankValidR m = false)
    (hclosed : rows addr.bank = none) :
    t.IsOpenBut m addr rows := by
  refine ⟨fun b r => (h b r).trans (exists_congr fun k => ⟨fun hk => ⟨?_, hk⟩, fun hk => hk.2⟩),
    hclosed⟩
  rintro rfl
  rw [hm] at hk
  cases hk.1

/-- All banks are closed and the table is empty. -/
theorem isOpenBut_of_closed (hvalid : ∀ k, t.bankValidR k = false) (hclosed : ∀ b, rows b = none) :
    t.IsOpenBut m addr rows := by
  refine ⟨fun b r => iff_of_false (by simp [hclosed b]) ?_, hclosed _⟩
  rintro ⟨k, -, hk, -⟩
  rw [hvalid k] at hk
  cases hk

theorem oneEach_of_invalid (hvalid : ∀ k, t.bankValidR k = false) : t.OneEach := by
  intro j k hj
  rw [hvalid j] at hj
  cases hj

/-- Without a hit the bank is closed. -/
theorem IsOpen.closed_of_no_hit (h : t.IsOpen rows) (hno : ∀ k, t.bankHit addr k = false) :
    rows addr.bank = none := by
  cases hrow : rows addr.bank with
  | none => rfl
  | some r =>
    obtain ⟨k, hvalid, haddr⟩ := (h _ _).mp hrow
    have hhit : t.bankHit addr k = true := by simp [bankHit, hvalid, haddr]
    rw [hno k] at hhit
    cases hhit

/-- With a hit and no miss of the row, the row is open. -/
theorem IsOpen.open_of_hit (h : t.IsOpen rows) {k : Fin 4} (hhit : t.bankHit addr k = true)
    (hrow : t.rowMiss addr k = false) : rows addr.bank = some addr.row := by
  simp only [bankHit, rowMiss, Bool.and_eq_true, decide_eq_true_eq, decide_eq_false_iff_not,
    not_not] at hhit hrow
  refine (h _ _).mpr ⟨k, hhit.2, ?_⟩
  rw [← hhit.1, ← hrow]

/-- The table is that of the DRAM. -/
structure Agrees (t : BankTable P) (rows : Rows P) : Prop where
  isOpen : t.IsOpen rows
  oneEach : t.OneEach

/-- What the table knows of an address. -/
def look (t : BankTable P) (addr : RowAddr P) : Stage where
  bankHitR := t.bankHit addr
  rowConflictR := t.rowMiss addr
  bankConflictR := !decide (∃ k, t.bankHit addr k = true)

theorem look_bankConflictR : (t.look addr).bankConflictR = true ↔ ∀ k, t.bankHit addr k = false := by
  simp [look]

end BankTable

/-! ## Commands -/

variable {s s' : Regs P} {i : Inputs P} {rows : Rows P}

abbrev Command (P : Params) :=
  Sdram.Command (BitVec P.BANK_WIDTH) (BitVec P.ROW_WIDTH) (BitVec P.COL_WIDTH)

/-- The column of an address, `af_addr[COL_RANGE_END:COL_RANGE_START]`. -/
def column (P : Params) (addr : BitVec 31) : BitVec P.COL_WIDTH := addr.extractLsb' 0 P.COL_WIDTH

/-- The bank that is closed: the one in the last entry of the table, if the command needs room
there. -/
def prechargeBank (s : Regs P) : BitVec P.BANK_WIDTH :=
  if s.stage.bankConflictR then (s.table.bankCmpAddrR BankTable.lastEntry).bank else s.target.bank

/-- Whether `CTRL_PRECHARGE` closes all banks. With `TWO_T_TIME_EN` the pins show it a cycle later. -/
def closesAll (s s' : Regs P) : Bool := if P.TWO_T_TIME_EN then s'.autoRefR else s.autoRefR

/-- The command of a state; `s'` is the next state. -/
def command (s s' : Regs P) : Command P :=
  match s.stateR with
  | .precharge => if closesAll s s' then .prechargeAll else .precharge (prechargeBank s)
  | .autoRefresh => .refresh
  | .active => .activate s.target.bank s.target.row
  | .burstRead => .read s.target.bank (column P s.ctrl.afR2.addr)
  | .burstWrite => .write s.target.bank (column P s.ctrl.afR2.addr)
  | _ => .nop

/-! ## Looking up the table -/

/-- What the last stage knows of its command is what the table says. -/
def Looked (s : Regs P) : Prop := s.stage = s.table.look s.target

/-- The table does not change in this cycle. -/
def Settled (s : Regs P) : Prop := s.stateR1 ≠ .autoRefresh ∧ s.stateR1 ≠ .active

theorem Settled.table (h : Settled s) : (step i s).table = s.table := by
  show s.table.step s.stateR1 s.bankHitR1 s.afAddrR3 = s.table
  rw [BankTable.step, if_neg h.1, if_neg h.2]

/-- The last stage looks its command up when it takes it over. -/
theorem Looked.step (hrst : s.ctrl.rstR1 = false) (hsettled : Settled s)
    (h : Looked s ∨ s.smRden = true) :
    Looked (Controller.step i s) := by
  rw [Looked, hsettled.table]
  cases hload : s.stateR.isBurst || !s.ctrl.afValidR2 with
  | true =>
    -- the command comes from the second stage
    have hload' : (s.smRden || !s.ctrl.afValidR2) = true := hload
    simp only [Controller.step, Regs.target, Ddr2.step, hrst, smRden_ctrl, hload, hload',
      Bool.false_eq_true, if_false, if_true]
    rfl
  | false =>
    obtain ⟨hburst, hvalid⟩ := Bool.or_eq_false_iff.mp hload
    obtain ⟨-, haf, hstage⟩ := ctrl_step_of_held (i := i) hrst (by simpa using hvalid) hburst
    have hlooked : Looked s := h.resolve_right fun hsm => absurd hsm (by simp [Regs.smRden, hburst])
    rw [hstage, hlooked, Regs.target, Regs.target, haf]

/-- The last stage keeps what it knows of its command. -/
theorem held (hrst : s.ctrl.rstR1 = false) (hvalid : s.ctrl.afValidR2 = true)
    (hstate : s.stateR.isBurst = false) :
    (Controller.step i s).ctrl.afValidR2 = true ∧ (Controller.step i s).target = s.target ∧
      (Controller.step i s).stage = s.stage := by
  obtain ⟨hvalid', haf, hstage⟩ := ctrl_step_of_held (i := i) hrst hvalid hstate
  exact ⟨hvalid', by rw [Regs.target, Regs.target, haf], hstage⟩

theorem conflictDetect_iff (h : Looked s) : s.conflictDetect = true ↔
    ((∃ k, s.table.rowMiss s.target k = true ∧ s.table.bankHit s.target k = true) ∨
      ∀ k, s.table.bankHit s.target k = false) ∧ s.ctrl.afValidR2 = true := by
  rw [Regs.conflictDetect, h, Bool.and_eq_true, Bool.or_eq_true, BankTable.look_bankConflictR,
    decide_eq_true_iff]
  rfl

/-- A command without a conflict finds its row open. -/
theorem Looked.open_of_no_conflict (h : Looked s) (hagrees : s.table.Agrees rows)
    (hvalid : s.ctrl.afValidR2 = true) (hno : s.conflictDetect = false) :
      rows s.target.bank = some s.target.row := by
  have hnot : ¬ s.conflictDetect = true := by simp [hno]
  rw [conflictDetect_iff h, and_iff_left hvalid, not_or, not_exists, not_forall] at hnot
  obtain ⟨hmiss, k, hhit⟩ := hnot
  rw [Bool.not_eq_false] at hhit
  exact hagrees.isOpen.open_of_hit hhit
    (Bool.eq_false_of_not_eq_true fun hrow => hmiss k ⟨hrow, hhit⟩)

/-- With room in the table the bank is closed already. -/
theorem Looked.room (h : Looked s) (hagrees : s.table.Agrees rows) (hroom : s.noPrechargeR = true) :
    s.table.IsOpenBut (BankTable.overwritten s.stage.bankHitR) s.target rows := by
  rw [Regs.noPrechargeR, h, Bool.and_eq_true, Bool.not_eq_true',
    BankTable.look_bankConflictR] at hroom
  obtain ⟨hfree, hnohit⟩ := hroom
  rw [h]
  show s.table.IsOpenBut (BankTable.overwritten (s.table.bankHit s.target)) s.target rows
  rw [BankTable.overwritten_of_no_hit hnohit]
  exact hagrees.isOpen.but_invalid hfree (hagrees.isOpen.closed_of_no_hit hnohit)

/-- The bank that is closed is that of the entry that is overwritten. -/
theorem Looked.close (h : Looked s) (hagrees : s.table.Agrees rows)
    (hconflict : s.conflictDetect = true)
    (hfull : s.stage.bankConflictR = true → s.table.bankValidR BankTable.lastEntry = true) :
    s.table.IsOpenBut (BankTable.overwritten s.stage.bankHitR) s.target
      (Function.update rows (prechargeBank s) none) := by
  rw [prechargeBank]
  obtain ⟨⟨k, -, hhit⟩ | hnohit, -⟩ := (conflictDetect_iff h).mp hconflict
  · have hnot : s.stage.bankConflictR = false := by
      refine Bool.eq_false_of_not_eq_true fun hbank => ?_
      rw [h, BankTable.look_bankConflictR] at hbank
      rw [hbank k] at hhit
      cases hhit
    have hbank : (s.table.bankCmpAddrR k).bank = s.target.bank ∧ s.table.bankValidR k = true := by
      simpa [BankTable.bankHit] using hhit
    rw [hnot, h, if_neg Bool.false_ne_true]
    show s.table.IsOpenBut (BankTable.overwritten (s.table.bankHit s.target)) s.target _
    rw [BankTable.overwritten_of_hit hagrees.oneEach hhit, ← hbank.1]
    exact hagrees.isOpen.close hagrees.oneEach hbank.2 (Or.inr hbank.1)
  · have hbank : s.stage.bankConflictR = true := by
      rw [h]
      exact BankTable.look_bankConflictR.mpr hnohit
    rw [if_pos hbank, h]
    show s.table.IsOpenBut (BankTable.overwritten (s.table.bankHit s.target)) s.target _
    rw [BankTable.overwritten_of_no_hit hnohit]
    exact hagrees.isOpen.close hagrees.oneEach (hfull hbank)
      (Or.inl (hagrees.isOpen.closed_of_no_hit hnohit))

/-! ## The invariant -/

/-- **How the table and the open rows are related**, in each state. -/
def BanksInv (s : Regs P) (rows : Rows P) : State → Prop
  | .idle | .autoRefresh | .prechargeWait1 => ∀ b, rows b = none
  | .autoRefreshWait => (∀ b, rows b = none) ∧
      (s.stateR1 = .autoRefresh ∧ s.timers.rfc.ok = false ∨
        s.stateR1 = .autoRefreshWait ∧ ∀ k, s.table.bankValidR k = false)
  | .precharge => s.autoRefR = false → s.table.Agrees rows ∧ Looked s ∧ s.conflictDetect = true ∧
      (s.stage.bankConflictR = true → s.table.bankValidR BankTable.lastEntry = true)
  | .prechargeWait => s.autoRefR = false →
      s.table.IsOpenBut (BankTable.overwritten s.stage.bankHitR) s.target rows ∧ s.table.OneEach
  | .active =>
    s.table.IsOpenBut (BankTable.overwritten s.stage.bankHitR) s.target rows ∧ s.table.OneEach
  | .activeWait => (s.table.step s.stateR1 s.bankHitR1 s.afAddrR3).Agrees rows ∧
      rows s.target.bank = some s.target.row ∧ s.actAddrR = s.target ∧
      (s.stateR1 = .active ∧ s.timers.precharge.ok = false ∧ s.timers.trrd.ok = false ∨
        s.stateR1 = .activeWait ∧ s.conflictResolvedR = true)
  | .burstWrite | .burstRead => s.table.Agrees rows ∧ rows s.target.bank = some s.target.row
  | .writeWait | .readWait => s.table.Agrees rows ∧ Looked s

theorem closesAll_of_request (hrst : s.ctrl.rstR1 = false) (hstate : s.stateR ≠ .autoRefresh)
    (hauto : s.autoRefR = true) :
    closesAll s (step i s) = true := by
  rw [closesAll, autoRefR_step_of_request hrst hauto hstate, hauto, ite_self]

/-- A conflict without room in the table is still there when the bank is closed. -/
theorem BanksInv.conflict (hrst : s.ctrl.rstR1 = false) (hstate : s.stateR.isBurst = false)
    (hset : Settled s) (hconflict : s.conflictDetect = true) (hroom : s.noPrechargeR = false)
    (h : s.table.Agrees rows ∧ Looked s) :
    (Controller.step i s).table.Agrees rows ∧ Looked (Controller.step i s) ∧
      (Controller.step i s).conflictDetect = true ∧
      ((Controller.step i s).stage.bankConflictR = true →
        (Controller.step i s).table.bankValidR BankTable.lastEntry = true) := by
  have hvalid := valid_of_conflictDetect hconflict
  obtain ⟨hvalid', -, hstage⟩ := held (i := i) hrst hvalid hstate
  refine ⟨?_, Looked.step hrst hset (Or.inl h.2), ?_, ?_⟩
  · rw [hset.table]
    exact h.1
  · rw [Regs.conflictDetect, hvalid, Bool.and_true] at hconflict
    rw [Regs.conflictDetect, hvalid', hstage, Bool.and_true]
    exact hconflict
  · intro hbank
    rw [hstage] at hbank
    rw [hset.table]
    simpa [Regs.noPrechargeR, hbank] using hroom

/-- **One cycle.** -/
theorem BanksInv.step {state' : State} (hrst : s.ctrl.rstR1 = false) (hgo : Goes s s.stateR state')
    (hcmd : HasCommand s s.stateR)
    (hsettled : s.stateR ≠ .autoRefreshWait → s.stateR ≠ .activeWait → Settled s)
    (hwrite : s.stateR = .writeWait → s.timers.precharge.ok = true → s.write.ok = true)
    (hread : s.stateR = .readWait → s.timers.precharge.ok = true → s.read.ok = true)
    (h : BanksInv s rows s.stateR) :
    BanksInv (Controller.step i s) (Sdram.next rows (command s (Controller.step i s))) state' := by
  have hstateR1 : (Controller.step i s).stateR1 = s.stateR := by
    rw [Controller.step, hrst]
    rfl
  have hheld := fun hvalid hstate => held (s := s) (i := i) hrst hvalid hstate
  have hlooked := fun hsettled hlook => Looked.step (s := s) (i := i) hrst hsettled hlook
  have hrequest : s.autoRefR = true → s.stateR ≠ .autoRefresh →
      (Controller.step i s).autoRefR = true :=
    autoRefR_step_of_request hrst
  have hcommand : command s (Controller.step i s) = match s.stateR with
      | .precharge =>
        if closesAll s (Controller.step i s) then .prechargeAll else .precharge (prechargeBank s)
      | .autoRefresh => .refresh
      | .active => .activate s.target.bank s.target.row
      | .burstRead => .read s.target.bank (column P s.ctrl.afR2.addr)
      | .burstWrite => .write s.target.bank (column P s.ctrl.afR2.addr)
      | _ => .nop := rfl
  have hclosesAll := closesAll_of_request (s := s) (i := i) hrst
  rw [hcommand]
  generalize hstate : s.stateR = state at *
  have hnorequest : (Controller.step i s).autoRefR = false → state ≠ .autoRefresh →
      s.autoRefR = false := by
    intro hauto' hne
    refine Bool.eq_false_of_not_eq_true fun hauto => ?_
    rw [hrequest hauto hne] at hauto'
    cases hauto'
  cases hgo with
  | idle | initDone | prechargeWait1 | refresh => exact h
  | closeAll hauto =>
    intro b
    dsimp only
    rw [hclosesAll (by decide) hauto, if_pos rfl]
    rfl
  | openAtOnce hauto _ h2t =>
    obtain ⟨hagrees, hlook, hconflict, hfull⟩ := h hauto
    obtain ⟨-, htarget, hstage⟩ := hheld (hcmd hauto) rfl
    have hone : closesAll s (Controller.step i s) = false := by simp [closesAll, h2t, hauto]
    have hset := hsettled (by decide) (by decide)
    dsimp only [BanksInv]
    rw [hone, hset.table, hstage, htarget]
    exact ⟨hlook.close hagrees hconflict hfull, hagrees.oneEach⟩
  | closeOne hauto =>
    intro hauto'
    obtain ⟨hagrees, hlook, hconflict, hfull⟩ := h hauto
    obtain ⟨-, htarget, hstage⟩ := hheld (hcmd hauto) rfl
    have hone : closesAll s (Controller.step i s) = false := by simp [closesAll, hauto, hauto']
    have hset := hsettled (by decide) (by decide)
    dsimp only
    rw [hone, hset.table, hstage, htarget]
    exact ⟨hlook.close hagrees hconflict hfull, hagrees.oneEach⟩
  | prechargeWait =>
    intro hauto'
    have hauto := hnorequest hauto' (by decide)
    obtain ⟨-, htarget, hstage⟩ := hheld (hcmd hauto) rfl
    rw [(hsettled (by decide) (by decide)).table, hstage, htarget]
    exact h hauto
  | closeAgain _ hauto | closeRefreshed _ hauto =>
    intro hauto'
    rw [hnorequest hauto' (by decide)] at hauto
    cases hauto
  | openClosed _ hauto =>
    obtain ⟨-, htarget, hstage⟩ := hheld (hcmd hauto) rfl
    dsimp only [BanksInv]
    rw [(hsettled (by decide) (by decide)).table, hstage, htarget]
    exact h hauto
  | refreshed =>
    refine ⟨h, Or.inl ⟨hstateR1, ?_⟩⟩
    show (s.timers.rfc.step false (s.stateR == .autoRefresh) P.TRFC_COUNT
      (s.stateR == .autoRefresh)).ok = false
    rw [hstate]
    rfl
  | autoRefreshWait =>
    refine ⟨h.1, Or.inr ⟨hstateR1, fun k => ?_⟩⟩
    show (s.table.step s.stateR1 s.bankHitR1 s.afAddrR3).bankValidR k = false
    rcases h.2 with ⟨hrefresh, -⟩ | ⟨hwait, hinvalid⟩
    · rw [hrefresh]
      rfl
    · rw [hwait]
      exact hinvalid k
  | refreshNext => exact h.1
  | openRefreshed hrfc _ hvalid =>
    have hwait : s.stateR1 = .autoRefreshWait ∧ ∀ k, s.table.bankValidR k = false :=
      h.2.resolve_left fun hleft => by simp [hleft.2] at hrfc
    have hset : Settled s := ⟨by rw [hwait.1]; decide, by rw [hwait.1]; decide⟩
    dsimp only [BanksInv]
    rw [hset.table]
    exact ⟨BankTable.isOpenBut_of_closed hwait.2 h.1, BankTable.oneEach_of_invalid hwait.2⟩
  | opened =>
    obtain ⟨-, htarget, -⟩ := hheld hcmd rfl
    dsimp only [BanksInv]
    rw [hstateR1, (hsettled (by decide) (by decide)).table, htarget]
    refine ⟨⟨h.1.shift, h.2.shift h.1⟩, Function.update_self _ _ _, ?_, Or.inl ⟨rfl, ?_, ?_⟩⟩
    · exact if_pos hstate
    · exact prechargeStep_ok (by rw [hstate]; rfl) _
    · show (s.timers.trrd.step false (s.stateR == .active) P.TRRD_COUNT (s.stateR == .active)).ok =
        false
      rw [hstate]
      rfl
  | activeWait =>
    obtain ⟨hagrees, hopen, hact, -⟩ := h
    obtain ⟨-, htarget, -⟩ := hheld hcmd.1 rfl
    have hact' : (Controller.step i s).actAddrR = s.actAddrR := if_neg (by rw [hstate]; decide)
    dsimp only [BanksInv]
    rw [hstateR1, htarget, hact']
    refine ⟨hagrees, hopen, hact, Or.inr ⟨rfl, ?_⟩⟩
    show (s.actAddrR == s.target) = true
    rw [hact, beq_self_eq_true]
  | openUnresolved hconflict htrrd =>
    rcases h.2.2.2 with ⟨-, -, hno⟩ | ⟨-, hresolved⟩
    · simp [hno] at htrrd
    · simp [hresolved] at hconflict
  | closeOpened hwhy hok =>
    intro hauto'
    have hauto := hnorequest hauto' (by decide)
    rcases h.2.2.2 with ⟨-, hno, -⟩ | ⟨-, hresolved⟩
    · simp [hno] at hok
    · simp [hresolved, hauto] at hwhy
  | firstWrite | firstRead =>
    obtain ⟨-, htarget, -⟩ := hheld hcmd.1 rfl
    refine ⟨h.1, ?_⟩
    rw [htarget]
    exact h.2.1
  | written | read =>
    have hset := hsettled (by decide) (by decide)
    refine ⟨?_, hlooked hset (Or.inr ?_)⟩
    · rw [hset.table]
      exact h.1
    · rw [Regs.smRden, hstate]
      rfl
  | writeWait | readWait =>
    have hset := hsettled (by decide) (by decide)
    refine ⟨?_, hlooked hset (Or.inl h.2)⟩
    rw [hset.table]
    exact h.1
  | openAfterWrite hconflict hroom | openAfterRead hconflict hroom =>
    obtain ⟨hagrees, hlook⟩ := h
    obtain ⟨-, htarget, hstage⟩ := hheld (valid_of_conflictDetect hconflict) rfl
    dsimp only [BanksInv]
    rw [(hsettled (by decide) (by decide)).table, hstage, htarget]
    exact ⟨hlook.room hagrees hroom, hagrees.oneEach⟩
  | closeAfterWrite hwhy hroom hok =>
    intro hauto'
    have hauto := hnorequest hauto' (by decide)
    refine BanksInv.conflict hrst (by rw [hstate]; rfl) (hsettled (by decide) (by decide))
      (hwhy.resolve_right (by simp [hauto])) (Bool.eq_false_of_not_eq_true fun h => ?_) h
    simpa [hauto] using hroom h (hwrite rfl hok)
  | closeAfterRead hwhy hroom hok =>
    intro hauto'
    have hauto := hnorequest hauto' (by decide)
    refine BanksInv.conflict hrst (by rw [hstate]; rfl) (hsettled (by decide) (by decide))
      (hwhy.resolve_right (by simp [hauto])) (Bool.eq_false_of_not_eq_true fun h => ?_) h
    simpa [hauto] using hroom h (hread rfl hok)
  | nextWrite hconflict _ _ hwr | readToWrite hconflict _ hwr =>
    obtain ⟨hagrees, hlook⟩ := h
    have hvalid := valid_of_wrFlag hwr
    have hset := hsettled (by decide) (by decide)
    dsimp only [BanksInv]
    rw [hset.table, (hheld hvalid rfl).2.1]
    exact ⟨hagrees, hlook.open_of_no_conflict hagrees hvalid hconflict⟩
  | writeToRead hconflict _ hrd | nextRead hconflict _ _ hrd =>
    obtain ⟨hagrees, hlook⟩ := h
    have hvalid := valid_of_rdFlag hrd
    have hset := hsettled (by decide) (by decide)
    dsimp only [BanksInv]
    rw [hset.table, (hheld hvalid rfl).2.1]
    exact ⟨hagrees, hlook.open_of_no_conflict hagrees hvalid hconflict⟩

/-- What a command of the FIFO does to the memory. -/
def access (P : Params) (af : AfData) :
    Sdram.Access (BitVec P.BANK_WIDTH) (BitVec P.ROW_WIDTH) (BitVec P.COL_WIDTH) where
  isWrite := af.cmd == 0
  bank := (rowAddr P af.addr).bank
  row := (rowAddr P af.addr).row
  column := column P af.addr

namespace Run

variable (R : Run P) {n : ℕ} {stream : ℕ → AfData}

/-- The commands of a run. -/
def command (n : ℕ) : Command P := Controller.command (R.regs n) (R.regs (n + 1))

/-- The open rows in each cycle. -/
def openRows (n : ℕ) : Rows P := Sdram.rows R.command n

/-- `state_r1` is one state behind. -/
theorem stateR1_cases (n : ℕ) :
    ((R.regs n).stateR1 = .autoRefresh → (R.regs n).stateR = .autoRefreshWait) ∧
      ((R.regs n).stateR1 = .active → (R.regs n).stateR = .activeWait) := by
  cases n with
  | zero =>
    have hidle : (R.regs 0).stateR1 = .idle := R.reset.stateR1
    rw [hidle]
    exact ⟨fun h => (by cases h), fun h => (by cases h)⟩
  | succ n =>
    have hgo := R.goes n
    rw [R.stateR1_succ]
    generalize (R.regs n).stateR = state at hgo
    generalize (R.regs (n + 1)).stateR = state' at hgo
    refine ⟨?_, ?_⟩
    · rintro rfl
      cases hgo
      rfl
    · rintro rfl
      cases hgo
      rfl

theorem settled (hrefresh : (R.regs n).stateR ≠ .autoRefreshWait)
    (hactive : (R.regs n).stateR ≠ .activeWait) :
    Settled (R.regs n) :=
  ⟨fun h => hrefresh ((R.stateR1_cases n).1 h), fun h => hactive ((R.stateR1_cases n).2 h)⟩

theorem banksInv (n : ℕ) : BanksInv (R.regs n) (R.openRows n) (R.regs n).stateR := by
  induction n with
  | zero =>
    have hidle : (R.regs 0).stateR = .idle := R.reset.stateR
    rw [hidle]
    exact fun _ => rfl
  | succ n ih =>
    exact ih.step (R.rstR1 n) (R.goes n) (R.hasCommand n) R.settled
      (fun h => ((R.burstFirst n).1 h).flag)
      fun h => ((R.burstFirst n).2 h).flag

/-- The state machine leaves `CTRL_ACTIVE_WAIT` for a new conflict only after the old one is
resolved. -/
theorem resolved (hstate : (R.regs n).stateR = .activeWait)
    (hok : (R.regs n).timers.trrd.ok = true ∨ (R.regs n).timers.precharge.ok = true) :
    (R.regs n).conflictResolvedR = true := by
  have hinv := R.banksInv n
  rw [hstate] at hinv
  obtain ⟨-, hprecharge, htrrd⟩ | ⟨-, hresolved⟩ := hinv.2.2.2
  · simp [hprecharge, htrrd] at hok
  · exact hresolved

/-- A bank that is closed to make room is not the one to be opened. -/
theorem prechargeBank_ne (hstate : (R.regs n).stateR = .precharge)
    (hauto : (R.regs n).autoRefR = false) (hbank : (R.regs n).stage.bankConflictR = true) :
      prechargeBank (R.regs n) ≠ (R.regs n).target.bank := by
  have hinv := R.banksInv n
  rw [hstate] at hinv
  obtain ⟨-, hlook, -, hfull⟩ := hinv hauto
  have hnohit := hbank
  rw [hlook, BankTable.look_bankConflictR] at hnohit
  have hmiss := hnohit 3
  rw [BankTable.bankHit, hfull hbank, Bool.and_true, decide_eq_false_iff_not] at hmiss
  rwa [prechargeBank, if_pos hbank]

/-- **The DRAM accepts every command**: only closed banks are activated, only open rows read and
    written, and all banks are closed at a refresh. -/
theorem dram_accepts : Sdram.Accepts R.command := by
  intro n
  have hinv := R.banksInv n
  have hgo := R.goes n
  show Sdram.Legal (R.openRows n) (Controller.command (R.regs n) (R.regs (n + 1)))
  rw [Controller.command]
  generalize (R.regs n).stateR = state at hinv hgo
  cases state with
  | active => exact hinv.1.closed
  | burstRead | burstWrite => exact Option.isSome_iff_exists.mpr ⟨_, hinv.2⟩
  | autoRefresh => exact hinv
  | precharge =>
    dsimp only
    split <;> exact trivial
  | idle | prechargeWait | autoRefreshWait | activeWait | readWait | writeWait | prechargeWait1 =>
    exact trivial

/-- The access of a cycle is that of the command in the last stage. -/
theorem access?_command (n : ℕ) : Sdram.access? (R.openRows n) (R.command n) =
    if (R.regs n).stateR.isBurst then some (access P (R.regs n).ctrl.afR2) else none := by
  have hinv := R.banksInv n
  have hcmd := R.hasCommand n
  show Sdram.access? (R.openRows n) (Controller.command (R.regs n) (R.regs (n + 1))) = _
  rw [Controller.command]
  generalize (R.regs n).stateR = state at hinv hcmd
  cases state with
  | burstWrite =>
    have hwrite : ((R.regs n).ctrl.afR2.cmd == 0) = true := beq_of_eq (cmd_of_wrFlag hcmd)
    simp only [Sdram.access?, hinv.2, Option.map_some, access, hwrite]
    rfl
  | burstRead =>
    have hread : ((R.regs n).ctrl.afR2.cmd == 0) = false := by
      rw [cmd_of_rdFlag hcmd]
      rfl
    simp only [Sdram.access?, hinv.2, Option.map_some, access, hread]
    rfl
  | precharge =>
    dsimp only
    split <;> rfl
  | idle | prechargeWait | autoRefresh | autoRefreshWait | active | activeWait | readWait
  | writeWait | prechargeWait1 =>
    rfl

/-- **What the memory is asked for** is what the FIFO holds: after any number of cycles the reads
    and writes, each in the row that is open in its bank, are those of the commands executed so far,
    in the order of the FIFO. -/
theorem accesses_eq (hfifo : R.FifoShows 2 stream) (n : ℕ) :
    Sdram.accesses R.command n = (List.range (R.executed n)).map fun k => access P (stream k) := by
  induction n with
  | zero => rfl
  | succ n ih =>
    have haccess := R.access?_command n
    rw [openRows] at haccess
    rw [Sdram.accesses, ih, haccess, executed]
    cases hburst : (R.regs n).stateR.isBurst with
    | false => simp
    | true =>
      rw [R.afR2_of_isBurst hfifo hburst, if_pos rfl, Bool.toNat_true, List.range_succ,
        List.map_append]
      rfl

/-- Writes and reads in turn, on the board. -/
theorem accesses_eq_board : Sdram.accesses (board true fun _ => false).command 100 =
    (List.range ((board true fun _ => false).executed 100)).map fun k =>
      access Params.board (writeRead k) :=
  accesses_eq (board true fun _ => false) fifoShows_fed 100

end Run

end ProbableCause.Ddr2.Controller
