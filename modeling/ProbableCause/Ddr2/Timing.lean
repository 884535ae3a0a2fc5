import ProbableCause.Ddr2.Banks
import ProbableCause.Lib.Countdown

/-!
# `Ddr2.Timing` — the commands are far enough apart

Each counter keeps the time since the commands that load it (`timedRcd` to `timedRead`). The counter
for `PRECHARGE` is loaded by three commands and has to keep the times of all three
(`PrechargeTimed`). `Waited` says for each state which times have passed when the state machine is
in it. Both hold in every cycle, and together they say that the commands are apart
(`spaced_counts`); with the length of a cycle the times are those that the parameters ask for
(`spaced`).

A counter that one command loads may be too low for what another one has loaded before. That it is
not is a condition on the parameters (`Params.Apart`).
-/

namespace ProbableCause.Ddr2.Controller

open Countdown

variable {P : Params} {w N k : ℕ} {E : ℕ → Prop}

/-! ## Counters -/

/-- The counter of one command. If it is `2` or less the flag need not be cleared. -/
theorem Timer.timed {t : Timer w} (h : Timed E N t.cnt.toNat t.ok k) (hN : N < 2 ^ w) {start : Bool}
    (hstart : start = true ↔ E k) {long : Bool} (hlong : long = false → N ≤ 2) :
    Timed E N (t.step false start N (start && long)).cnt.toNat
      (t.step false start N (start && long)).ok (k + 1) := by
  cases hs : start with
  | false =>
    obtain ⟨hcnt, hok⟩ := t.step_tick N
    refine h.tick (fun hE => ?_) (Nat.le_of_eq hcnt.symm) fun hset => (hok.mp hset).imp_right Or.inl
    rw [hstart.mpr hE] at hs
    cases hs
  | true =>
    obtain ⟨hcnt, hok⟩ := t.step_start hN (true && long)
    refine Timed.load (fun s _ _ => by omega) (fun _ => Nat.le_of_eq hcnt.symm) fun hset => ?_
    have hshort : N ≤ 2 := hlong (Bool.eq_false_of_not_eq_true fun hl => by
      rw [hok (by rw [hl]; rfl)] at hset
      cases hset)
    exact ⟨fun s _ _ => by omega, fun _ => hshort⟩

theorem Timer.timed_of_clear {t : Timer w} (h : Timed E N t.cnt.toNat t.ok k)
    (hN : N < 2 ^ w) {start : Bool} (hstart : start = true ↔ E k) :
    Timed E N (t.step false start N start).cnt.toNat (t.step false start N start).ok (k + 1) := by
  have htimed := Timer.timed h hN hstart fun hlong : true = false => (by cases hlong)
  rwa [Bool.and_true] at htimed

theorem Burst.timed_tick {b : Burst} (h : Timed E N b.cnt.toNat b.ok k) (hE : ¬ E k)
    (hshort : P.BURST_LEN_DIV2 ≤ 2 → b.ok = true ∨ N ≤ 2) (rst : Bool) :
    Timed E N (b.step P rst false).cnt.toNat (b.step P rst false).ok (k + 1) := by
  obtain ⟨hcnt, hok⟩ := b.step_tick (P := P) rst
  refine h.tick hE (Nat.le_of_eq hcnt.symm) fun hset => ?_
  rcases hok.mp hset with hflag | hlow | hburst
  · exact Or.inl hflag
  · exact Or.inr (Or.inl hlow)
  · exact (hshort hburst).imp_right Or.inr

/-- A burst keeps a time that is to pass after the burst, too. -/
theorem Burst.timed_load (hfits : P.Fits) (b : Burst) (hbefore : Elapsed E (N - P.BURST_LEN_DIV2) k)
    (hnow : E k → N ≤ P.BURST_LEN_DIV2) (rst : Bool) :
    Timed E N (b.step P rst true).cnt.toNat (b.step P rst true).ok (k + 1) := by
  have hcnt := b.step_start (P := P) rst hfits.burst
  refine Timed.load (by rwa [hcnt]) (fun hE => by rw [hcnt]; exact hnow hE) fun hset => ?_
  have hburst : P.BURST_LEN_DIV2 = 2 := by
    refine Nat.le_antisymm (Nat.le_of_not_gt fun hlong => ?_) hfits.two_le_burst
    simp [Burst.step, hlong] at hset
  rw [hburst] at hbefore hnow
  exact ⟨hbefore, hnow⟩

/-- With short bursts the flag is always set. -/
theorem Burst.ok_of_short (h : P.BURST_LEN_DIV2 ≤ 2) (b : Burst) (rst start : Bool) :
    (b.step P rst start).ok = true := by
  simp [Burst.step, Nat.not_lt_of_ge h, h]

theorem Burst.timed (hfits : P.Fits) {b : Burst}
    (h : Timed E P.BURST_LEN_DIV2 b.cnt.toNat b.ok k) {start : Bool}
    (hstart : start = true ↔ E k) (rst : Bool) :
    Timed E P.BURST_LEN_DIV2 (b.step P rst start).cnt.toNat (b.step P rst start).ok (k + 1) := by
  cases hs : start with
  | false =>
    refine timed_tick h (fun hE => ?_) Or.inr rst
    rw [hstart.mpr hE] at hs
    cases hs
  | true => exact timed_load hfits b (fun s _ _ => by omega) (fun _ => Nat.le_refl _) rst

namespace Run

variable (R : Run P) {n : ℕ}

/-- The state machine is in a state. -/
def In (state : State) (n : ℕ) : Prop := (R.regs n).stateR = state

theorem beq_iff_in (state : State) (n : ℕ) : ((R.regs n).stateR == state) = true ↔ R.In state n :=
  beq_iff_eq

theorem not_in {state state' : State} (hstate : (R.regs n).stateR = state) (hne : state ≠ state') :
    ¬ R.In state' n :=
  fun h => hne (hstate.symm.trans h)

theorem timedRcd (n : ℕ) :
    Timed (R.In .active) P.TRCD_COUNT (R.regs n).timers.rcd.cnt.toNat (R.regs n).timers.rcd.ok n := by
  induction n with
  | zero => exact .zero
  | succ n ih =>
    rw [R.timers_succ]
    exact Timer.timed ih R.fits.trcd (R.beq_iff_in .active n) fun hlong =>
      Nat.le_of_not_gt (of_decide_eq_false hlong)

theorem timedRp (n : ℕ) :
    Timed (R.In .precharge) P.TRP_COUNT (R.regs n).timers.rp.cnt.toNat (R.regs n).timers.rp.ok n := by
  induction n with
  | zero => exact .zero
  | succ n ih =>
    rw [R.timers_succ]
    exact Timer.timed_of_clear ih R.fits.trp (R.beq_iff_in .precharge n)

theorem timedRfc (n : ℕ) :
    Timed (R.In .autoRefresh) P.TRFC_COUNT (R.regs n).timers.rfc.cnt.toNat
      (R.regs n).timers.rfc.ok n := by
  induction n with
  | zero => exact .zero
  | succ n ih =>
    rw [R.timers_succ]
    exact Timer.timed_of_clear ih R.fits.trfc (R.beq_iff_in .autoRefresh n)

theorem timedWrToRd (n : ℕ) :
    Timed (R.In .burstWrite) P.TWTR_COUNT (R.regs n).timers.wrToRd.cnt.toNat
      (R.regs n).timers.wrToRd.ok n := by
  induction n with
  | zero => exact .zero
  | succ n ih =>
    rw [R.timers_succ]
    exact Timer.timed_of_clear ih R.fits.twtr (R.beq_iff_in .burstWrite n)

theorem timedRdToWr (n : ℕ) :
    Timed (R.In .burstRead) P.TRTW_COUNT (R.regs n).timers.rdToWr.cnt.toNat
      (R.regs n).timers.rdToWr.ok n := by
  induction n with
  | zero => exact .zero
  | succ n ih =>
    rw [R.timers_succ]
    exact Timer.timed_of_clear ih R.fits.trtw (R.beq_iff_in .burstRead n)

theorem timedWrite (n : ℕ) :
    Timed (R.In .burstWrite) P.BURST_LEN_DIV2 (R.regs n).write.cnt.toNat (R.regs n).write.ok n := by
  induction n with
  | zero => exact .zero
  | succ n ih =>
    rw [R.write_succ]
    exact Burst.timed R.fits ih (R.beq_iff_in .burstWrite n) _

theorem timedRead (n : ℕ) :
    Timed (R.In .burstRead) P.BURST_LEN_DIV2 (R.regs n).read.cnt.toNat (R.regs n).read.ok n := by
  induction n with
  | zero => exact .zero
  | succ n ih =>
    rw [R.read_succ]
    exact Burst.timed R.fits ih (R.beq_iff_in .burstRead n) _

end Run

/-! ## The counter for `PRECHARGE` -/

/-- The time of one of the commands that load the counter, or of another one. -/
theorem prechargeStep_timed (hfits : P.Fits) {t : Timer 5} {state : State}
    (h : Timed E N t.cnt.toNat t.ok k) (htick : state.loadsPrecharge = false → ¬ E k)
    (hwrite : state = .burstWrite → Elapsed E (N - P.TWR_COUNT) k ∧ (E k → N ≤ P.TWR_COUNT))
    (hactive : state = .active → Elapsed E (N - P.TRAS_COUNT) k ∧ (E k → N ≤ P.TRAS_COUNT))
    (hread : state = .burstRead → E k → N ≤ P.TRTP_COUNT) :
    Timed E N (prechargeStep P state t).cnt.toNat (prechargeStep P state t).ok (k + 1) := by
  cases hloads : state.loadsPrecharge with
  | false =>
    obtain ⟨hcnt, hok⟩ := prechargeStep_tick (P := P) hloads t
    exact h.tick (htick hloads) (Nat.le_of_eq hcnt.symm) fun hset => (hok.mp hset).imp_right Or.inl
  | true =>
    have hclear := prechargeStep_ok (P := P) hloads t
    have hok : (prechargeStep P state t).ok = true → Elapsed E (N - 2) k ∧ (E k → N ≤ 2) := by
      rw [hclear]
      intro hset
      cases hset
    simp only [State.loadsPrecharge, Bool.or_eq_true, beq_iff_eq] at hloads
    rcases hloads with (rfl | rfl) | rfl
    · have hcnt := prechargeStep_read hfits.trtp t
      refine h.keep ?_ (fun hE => ?_) hclear
      · rw [hcnt]
        exact Nat.le_max_left _ _
      · rw [hcnt]
        exact (hread rfl hE).trans (Nat.le_max_right _ _)
    · obtain ⟨hbefore, hnow⟩ := hwrite rfl
      rw [← prechargeStep_write hfits.twr t] at hbefore hnow
      exact Timed.load hbefore hnow hok
    · obtain ⟨hbefore, hnow⟩ := hactive rfl
      rw [← prechargeStep_active hfits.tras t] at hbefore hnow
      exact Timed.load hbefore hnow hok

/-- What the parameters have to satisfy, so that no counter cuts short the time of another command. -/
structure Params.Apart (P : Params) : Prop where
  /-- a write loads less than what is left of `TRAS_COUNT` -/
  tras : P.TRAS_COUNT ≤ P.TRCD_COUNT + P.TWR_COUNT
  /-- opening another bank loads less than what is left of `TWR_COUNT` and `TRTP_COUNT` -/
  twr : P.TWR_COUNT ≤ P.BURST_LEN_DIV2 + P.TRAS_COUNT
  trtp : P.TRTP_COUNT ≤ P.BURST_LEN_DIV2 + P.TRAS_COUNT
  /-- a write loads less than what is left of `TRTP_COUNT` -/
  trtp_twr : P.TRTP_COUNT ≤ P.TRTW_COUNT + P.TWR_COUNT
  /-- `trrd_cnt_r` is not waited for after a burst -/
  trrd_tras : P.TRRD_COUNT ≤ P.TRAS_COUNT
  trrd : P.TRRD_COUNT ≤ P.TRCD_COUNT + P.BURST_LEN_DIV2
  /-- `rp_cnt_r` is not waited for when another bank is opened at once -/
  trp : P.TWO_T_TIME_EN = false → P.TRP_COUNT ≤ P.TRCD_COUNT + P.BURST_LEN_DIV2 + 1

theorem Params.apart_board : Params.board.Apart := by
  constructor <;> decide

namespace Run

variable (R : Run P) {n : ℕ}

/-- The counter keeps the times of all three commands. -/
structure PrechargeTimed (n : ℕ) : Prop where
  active : Timed (R.In .active) P.TRAS_COUNT (R.regs n).timers.precharge.cnt.toNat
    (R.regs n).timers.precharge.ok n
  write : Timed (R.In .burstWrite) P.TWR_COUNT (R.regs n).timers.precharge.cnt.toNat
    (R.regs n).timers.precharge.ok n
  read : Timed (R.In .burstRead) P.TRTP_COUNT (R.regs n).timers.precharge.cnt.toNat
    (R.regs n).timers.precharge.ok n

/-- The times that have passed when a bank may be closed. -/
structure Closable (n : ℕ) : Prop where
  active : Elapsed (R.In .active) P.TRAS_COUNT n
  write : Elapsed (R.In .burstWrite) P.TWR_COUNT n
  read : Elapsed (R.In .burstRead) P.TRTP_COUNT n

variable {R}

theorem PrechargeTimed.closable (h : R.PrechargeTimed n) (hok : (R.regs n).timers.precharge.ok = true)
    (hstate : (R.regs n).stateR.loadsPrecharge = false) : R.Closable (n + 1) := by
  have hnot : ∀ state : State, state.loadsPrecharge = true → ¬ R.In state n := by
    rintro state hloads rfl
    rw [hstate] at hloads
    cases hloads
  exact ⟨h.active.elapsed hok (hnot _ rfl), h.write.elapsed hok (hnot _ rfl),
    h.read.elapsed hok (hnot _ rfl)⟩

theorem Closable.succ (h : R.Closable n) (hstate : (R.regs n).stateR.loadsPrecharge = false) :
    R.Closable (n + 1) := by
  have hnot : ∀ state : State, state.loadsPrecharge = true → ¬ R.In state n := by
    rintro state hloads rfl
    rw [hstate] at hloads
    cases hloads
  exact ⟨h.active.succ (hnot _ rfl), h.write.succ (hnot _ rfl), h.read.succ (hnot _ rfl)⟩

theorem PrechargeTimed.succ (h : R.PrechargeTimed n) (hapart : P.Apart)
    (hwrite : R.In .burstWrite n → Elapsed (R.In .active) P.TRCD_COUNT n ∧
    Elapsed (R.In .burstRead) P.TRTW_COUNT n) (hactive : R.In .active n →
      Elapsed (R.In .burstWrite) P.BURST_LEN_DIV2 n ∧ Elapsed (R.In .burstRead) P.BURST_LEN_DIV2 n) :
    R.PrechargeTimed (n + 1) := by
  obtain ⟨htras, htwr, htrtp, htrtp', -, -, -⟩ := hapart
  have hsucc : (R.regs (n + 1)).timers.precharge =
      prechargeStep P (R.regs n).stateR (R.regs n).timers.precharge := by
    rw [R.timers_succ]
    rfl
  have hnot : ∀ state : State, state.loadsPrecharge = true →
      (R.regs n).stateR.loadsPrecharge = false → ¬ R.In state n := by
    rintro state hloads hno rfl
    rw [hloads] at hno
    cases hno
  constructor <;> rw [hsucc]
  · refine prechargeStep_timed R.fits h.active (hnot _ rfl) (fun hstate => ⟨?_, ?_⟩)
      (fun hstate => ⟨?_, ?_⟩) ?_
    · exact (hwrite hstate).1.mono (Nat.sub_le_iff_le_add.mpr htras)
    · exact fun hin => absurd hin (R.not_in hstate (by decide))
    · exact fun s _ _ => by omega
    · exact fun _ => Nat.le_refl _
    · exact fun hstate hin => absurd hin (R.not_in hstate (by decide))
  · refine prechargeStep_timed R.fits h.write (hnot _ rfl) (fun hstate => ⟨?_, ?_⟩)
      (fun hstate => ⟨?_, ?_⟩) ?_
    · exact fun s _ _ => by omega
    · exact fun _ => Nat.le_refl _
    · exact (hactive hstate).1.mono (Nat.sub_le_iff_le_add.mpr htwr)
    · exact fun hin => absurd hin (R.not_in hstate (by decide))
    · exact fun hstate hin => absurd hin (R.not_in hstate (by decide))
  · refine prechargeStep_timed R.fits h.read (hnot _ rfl) (fun hstate => ⟨?_, ?_⟩)
      (fun hstate => ⟨?_, ?_⟩) ?_
    · exact (hwrite hstate).2.mono (Nat.sub_le_iff_le_add.mpr htrtp')
    · exact fun hin => absurd hin (R.not_in hstate (by decide))
    · exact (hactive hstate).2.mono (Nat.sub_le_iff_le_add.mpr htrtp)
    · exact fun hin => absurd hin (R.not_in hstate (by decide))
    · exact fun _ _ => Nat.le_refl _

/-! ## What has been waited for in each state -/

variable (R)

/-- Since the last refresh and the last bursts. -/
structure Fresh (n : ℕ) : Prop where
  refresh : Elapsed (R.In .autoRefresh) P.TRFC_COUNT n
  write : Elapsed (R.In .burstWrite) P.BURST_LEN_DIV2 n
  read : Elapsed (R.In .burstRead) P.BURST_LEN_DIV2 n

/-- Since the row was opened. -/
structure Opened (n : ℕ) : Prop where
  refresh : Elapsed (R.In .autoRefresh) P.TRFC_COUNT n
  active : Elapsed (R.In .active) P.TRCD_COUNT n
  precharge : Elapsed (R.In .precharge) (P.TRP_COUNT - P.BURST_LEN_DIV2) n

/-- Since banks were closed, but for a bank that was closed to make room for another one. -/
def Reopens (n : ℕ) : Prop :=
  Elapsed (R.In .precharge) P.TRP_COUNT n ∨
    P.TWO_T_TIME_EN = false ∧ ∀ s < n, R.In .precharge s →
      s + P.TRP_COUNT ≤ n ∨ ∃ bank, R.command s = .precharge bank ∧ bank ≠ (R.regs n).target.bank

/-- After a burst the counter of the burst keeps the times for opening another bank. -/
structure AfterBurst (b : Burst) (n : ℕ) : Prop where
  active : Timed (R.In .active) (P.TRCD_COUNT + P.BURST_LEN_DIV2) b.cnt.toNat b.ok n
  precharge : Timed (R.In .precharge) P.TRP_COUNT b.cnt.toNat b.ok n
  short : P.BURST_LEN_DIV2 ≤ 2 → b.ok = true

/-- **What has been waited for**, in each state. -/
def Waited (n : ℕ) : State → Prop
  | .idle => ∀ s < n, R.In .idle s
  | .precharge =>
    Elapsed (R.In .autoRefresh) P.TRFC_COUNT n ∧ R.Closable n ∧ ((R.regs n).autoRefR = false →
      Elapsed (R.In .precharge) P.TRP_COUNT n ∧
        ((R.regs n).noPrechargeWaitR = true → (R.regs n).stage.bankConflictR = true))
  | .prechargeWait | .prechargeWait1 => Elapsed (R.In .autoRefresh) P.TRFC_COUNT n ∧ R.Closable n
  | .autoRefresh => Elapsed (R.In .autoRefresh) P.TRFC_COUNT n ∧ R.Closable n ∧
      Elapsed (R.In .precharge) P.TRP_COUNT n
  | .autoRefreshWait => R.Closable n ∧ Elapsed (R.In .precharge) P.TRP_COUNT n
  | .active => R.Fresh n ∧ Elapsed (R.In .active) P.TRRD_COUNT n ∧ R.Reopens n
  | .activeWait => R.Fresh n ∧ Timed (R.In .precharge) (P.TRP_COUNT - P.BURST_LEN_DIV2)
      (R.regs n).timers.rcd.cnt.toNat (R.regs n).timers.rcd.ok n
  | .burstWrite =>
    R.Opened n ∧ Elapsed (R.In .burstWrite) P.BURST_LEN_DIV2 n ∧
      Elapsed (R.In .burstRead) P.TRTW_COUNT n
  | .burstRead =>
    R.Opened n ∧ Elapsed (R.In .burstRead) P.BURST_LEN_DIV2 n ∧
      Elapsed (R.In .burstWrite) P.TWTR_COUNT n
  | .writeWait =>
    R.Opened n ∧ Elapsed (R.In .burstRead) P.TRTW_COUNT n ∧ R.AfterBurst (R.regs n).write n
  | .readWait =>
    R.Opened n ∧ Elapsed (R.In .burstWrite) P.TWTR_COUNT n ∧ R.AfterBurst (R.regs n).read n

variable {R} {state : State}

theorem Fresh.succ (h : R.Fresh n) (hstate : (R.regs n).stateR = state)
    (hne : state ≠ .autoRefresh ∧ state ≠ .burstWrite ∧ state ≠ .burstRead) : R.Fresh (n + 1) :=
  ⟨h.refresh.succ (R.not_in hstate hne.1), h.write.succ (R.not_in hstate hne.2.1),
    h.read.succ (R.not_in hstate hne.2.2)⟩

theorem Opened.succ (h : R.Opened n) (hstate : (R.regs n).stateR = state)
    (hne : state ≠ .autoRefresh ∧ state ≠ .active ∧ state ≠ .precharge) : R.Opened (n + 1) :=
  ⟨h.refresh.succ (R.not_in hstate hne.1), h.active.succ (R.not_in hstate hne.2.1),
    h.precharge.succ (R.not_in hstate hne.2.2)⟩

/-- A bank that may be closed may be followed by another one. -/
theorem Closable.fresh (h : R.Closable n)
    (hrefresh : Elapsed (R.In .autoRefresh) P.TRFC_COUNT n) : R.Fresh n :=
  ⟨hrefresh, h.write.mono P.burst_le_twr, h.read.mono P.burst_le_trtp⟩

theorem Opened.afterBurst (h : R.Opened n) (hstate : (R.regs n).stateR = state)
    (hne : state ≠ .active ∧ state ≠ .precharge) (b : Burst) (rst : Bool) :
      R.AfterBurst (b.step P rst true) (n + 1) where
  active := b.timed_load R.fits (by rw [Nat.add_sub_cancel]; exact h.active)
    (fun hin => absurd hin (R.not_in hstate hne.1)) rst
  precharge := b.timed_load R.fits h.precharge (fun hin => absurd hin (R.not_in hstate hne.2)) rst
  short hshort := b.ok_of_short hshort rst true

theorem AfterBurst.succ {b : Burst} (h : R.AfterBurst b n) (hstate : (R.regs n).stateR = state)
    (hne : state ≠ .active ∧ state ≠ .precharge) (rst : Bool) :
      R.AfterBurst (b.step P rst false) (n + 1) where
  active := b.timed_tick h.active (R.not_in hstate hne.1) (fun hshort => Or.inl (h.short hshort)) rst
  precharge := b.timed_tick h.precharge (R.not_in hstate hne.2)
    (fun hshort => Or.inl (h.short hshort)) rst
  short hshort := b.ok_of_short hshort rst false

/-- Opening another bank after a burst. -/
theorem AfterBurst.reopens {b : Burst} (h : R.AfterBurst b n) (hok : b.ok = true) (hapart : P.Apart)
    (hstate : (R.regs n).stateR = state) (hne : state ≠ .active ∧ state ≠ .precharge) :
    Elapsed (R.In .active) P.TRRD_COUNT (n + 1) ∧ R.Reopens (n + 1) :=
  ⟨(h.active.elapsed hok (R.not_in hstate hne.1)).mono hapart.trrd,
    Or.inl (h.precharge.elapsed hok (R.not_in hstate hne.2))⟩

/-- A bank that was closed just before is not opened before the burst in the row that is opened now
has ended. -/
theorem Reopens.timed (h : R.Reopens n) (hapart : P.Apart) (hstate : (R.regs n).stateR = .active) :
    Timed (R.In .precharge) (P.TRP_COUNT - P.BURST_LEN_DIV2) (R.regs (n + 1)).timers.rcd.cnt.toNat
      (R.regs (n + 1)).timers.rcd.ok (n + 1) := by
  have hnot : ¬ R.In .precharge n := R.not_in hstate (by decide)
  have hrcd : (R.regs (n + 1)).timers.rcd = (R.regs n).timers.rcd.step false true P.TRCD_COUNT
      (true && decide (P.TRCD_COUNT > 2)) := by
    rw [R.timers_succ]
    simp only [Timers.step, hstate, beq_self_eq_true]
  obtain ⟨hcnt, hok⟩ := (R.regs n).timers.rcd.step_start R.fits.trcd
    (true && decide (P.TRCD_COUNT > 2))
  have helapsed : ∀ M, M ≤ P.TRP_COUNT - P.BURST_LEN_DIV2 → (P.TWO_T_TIME_EN = false → M ≤ 1) →
      Elapsed (R.In .precharge) M n := by
    intro M hM hone
    rcases h with hall | ⟨h2t, -⟩
    · exact hall.mono (hM.trans (Nat.sub_le _ _))
    · exact elapsed_one.mono (hone h2t)
  rw [hrcd]
  refine Timed.load (helapsed _ ?_ fun h2t => ?_) (fun hin => absurd hin hnot) fun hset =>
    ⟨?_, fun hin => absurd hin hnot⟩
  · exact Nat.sub_le _ _
  · have := hapart.trp h2t
    rw [hcnt]
    omega
  · have hshort : P.TRCD_COUNT ≤ 2 := by
      refine Nat.le_of_not_gt fun hlong => ?_
      rw [hok (by simpa using hlong)] at hset
      cases hset
    refine helapsed _ (Nat.sub_le _ _) fun h2t => ?_
    have := hapart.trp h2t
    omega

/-- A bank that is closed to make room is entered nowhere else. -/
theorem reopens_at_once (hstate : (R.regs n).stateR = .precharge)
    (hauto : (R.regs n).autoRefR = false) (h2t : P.TWO_T_TIME_EN = false)
    (hbank : (R.regs n).stage.bankConflictR = true)
      (htrp : Elapsed (R.In .precharge) P.TRP_COUNT n) :
        ∀ s < n + 1, R.In .precharge s → s + P.TRP_COUNT ≤ n + 1 ∨ ∃ bank,
          R.command s = .precharge bank ∧ bank ≠ (R.regs (n + 1)).target.bank := by
  intro s hs hin
  rcases Nat.lt_succ_iff_lt_or_eq.mp hs with hlt | rfl
  · exact Or.inl (Nat.le_succ_of_le (htrp s hlt hin))
  · refine Or.inr ⟨prechargeBank (R.regs s), ?_, ?_⟩
    · have hone : closesAll (R.regs s) (R.regs (s + 1)) = false := by simp [closesAll, h2t, hauto]
      rw [command, Controller.command, hstate]
      simp [hone]
    · have hcmd := R.hasCommand s
      rw [hstate] at hcmd
      have htarget := (held (i := R.inputs s) (R.rstR1 s) (hcmd hauto) (by rw [hstate]; rfl)).2.1
      rw [R.regs_succ, htarget]
      exact R.prechargeBank_ne hstate hauto hbank

/-- `no_precharge_wait_r` is about the command that is still in the last stage. -/
theorem bankConflictR_of_noPrechargeWaitR (hconflict : (R.regs n).conflictDetect = true)
    (hburst : (R.regs n).stateR.isBurst = false) (h : (R.regs (n + 1)).noPrechargeWaitR = true) :
    (R.regs (n + 1)).stage.bankConflictR = true := by
  have hstage := (held (i := R.inputs n) (R.rstR1 n) (valid_of_conflictDetect hconflict) hburst).2.2
  rw [R.regs_succ, hstage]
  exact (Bool.and_eq_true _ _ ▸ h : _ ∧ _).2

/-- **One cycle.** -/
theorem Waited.succ (hapart : P.Apart) (hprecharge : R.PrechargeTimed n)
    (h : R.Waited n (R.regs n).stateR) :
    R.Waited (n + 1) (R.regs (n + 1)).stateR := by
  have hgo := R.goes n
  have hrequest : (R.regs n).autoRefR = true → (R.regs n).stateR ≠ .autoRefresh →
      (R.regs (n + 1)).autoRefR = true :=
    autoRefR_step_of_request (R.rstR1 n)
  have hclosable := hprecharge.closable
  have hclosable' := fun hcl : R.Closable n => hcl.succ
  have hwr : P.BURST_LEN_DIV2 ≤ P.TRTW_COUNT := Nat.le_add_right _ _
  have hrd : P.BURST_LEN_DIV2 ≤ P.TWTR_COUNT := Nat.le_add_left _ _
  generalize hstate' : (R.regs (n + 1)).stateR = state' at hgo
  generalize hstate : (R.regs n).stateR = state at h hgo hrequest hclosable hclosable'
  have hnot : ∀ {state' : State}, state ≠ state' → ¬ R.In state' n := fun hne => R.not_in hstate hne
  cases hgo with
  | idle =>
    intro s hs
    rcases Nat.lt_succ_iff_lt_or_eq.mp hs with hlt | rfl
    · exact h s hlt
    · exact hstate
  | initDone =>
    have hnone : ∀ state : State, state ≠ .idle → ∀ s < n + 1, ¬ R.In state s := by
      intro state hne s hs
      rcases Nat.lt_succ_iff_lt_or_eq.mp hs with hlt | rfl
      · exact R.not_in (h s hlt) hne.symm
      · exact R.not_in hstate hne.symm
    exact ⟨.of_none (hnone _ (by decide)),
      ⟨.of_none (hnone _ (by decide)), .of_none (hnone _ (by decide)),
        .of_none (hnone _ (by decide))⟩, .of_none (hnone _ (by decide))⟩
  | closeAll | closeOne | prechargeWait | prechargeWait1 =>
    exact ⟨h.1.succ (hnot (by decide)), hclosable' (by first | exact h.2.1 | exact h.2) rfl⟩
  | openAtOnce hauto hroom h2t =>
    obtain ⟨hrefresh, hcl, hmore⟩ := h
    obtain ⟨htrp, hbank⟩ := hmore hauto
    have hcl' := hclosable' hcl rfl
    exact ⟨hcl'.fresh (hrefresh.succ (hnot (by decide))), hcl'.active.mono hapart.trrd_tras,
      Or.inr ⟨h2t, reopens_at_once hstate hauto h2t (hbank hroom) htrp⟩⟩
  | closeAgain hrp hauto =>
    refine ⟨h.1.succ (hnot (by decide)), hclosable' h.2 rfl, fun hauto' => ?_⟩
    rw [hrequest hauto (by decide)] at hauto'
    cases hauto'
  | openClosed hrp =>
    have hcl' := hclosable' h.2 rfl
    exact ⟨hcl'.fresh (h.1.succ (hnot (by decide))), hcl'.active.mono hapart.trrd_tras,
      Or.inl ((R.timedRp n).elapsed hrp (hnot (by decide)))⟩
  | refresh hrp =>
    exact ⟨h.1.succ (hnot (by decide)), hclosable' h.2 rfl,
      (R.timedRp n).elapsed hrp (hnot (by decide))⟩
  | refreshed => exact ⟨hclosable' h.2.1 rfl, h.2.2.succ (hnot (by decide))⟩
  | autoRefreshWait => exact ⟨hclosable' h.1 rfl, h.2.succ (hnot (by decide))⟩
  | refreshNext hrfc =>
    exact ⟨(R.timedRfc n).elapsed hrfc (hnot (by decide)), hclosable' h.1 rfl,
      h.2.succ (hnot (by decide))⟩
  | closeRefreshed hrfc hauto =>
    refine ⟨(R.timedRfc n).elapsed hrfc (hnot (by decide)), hclosable' h.1 rfl, fun hauto' => ?_⟩
    rw [hrequest hauto (by decide)] at hauto'
    cases hauto'
  | openRefreshed hrfc =>
    have hcl' := hclosable' h.1 rfl
    exact ⟨hcl'.fresh ((R.timedRfc n).elapsed hrfc (hnot (by decide))),
      hcl'.active.mono hapart.trrd_tras, Or.inl (h.2.succ (hnot (by decide)))⟩
  | opened => exact ⟨h.1.succ hstate (by decide), h.2.2.timed hapart hstate⟩
  | activeWait =>
    refine ⟨h.1.succ hstate (by decide), ?_⟩
    rw [R.timers_succ]
    simp only [Timers.step, hstate]
    obtain ⟨hcnt, hok⟩ := (R.regs n).timers.rcd.step_tick P.TRCD_COUNT
    exact h.2.tick (hnot (by decide)) (Nat.le_of_eq hcnt.symm) fun hset =>
      (hok.mp hset).imp_right Or.inl
  | openUnresolved hconflict htrrd =>
    have hresolved := R.resolved hstate (Or.inl htrrd)
    rw [hconflict.2] at hresolved
    cases hresolved
  | closeOpened hwhy hok =>
    have hauto : (R.regs n).autoRefR = true :=
      hwhy.resolve_left fun hconflict => by simp [R.resolved hstate (Or.inr hok)] at hconflict
    refine ⟨h.1.refresh.succ (hnot (by decide)), hclosable hok rfl, fun hauto' => ?_⟩
    rw [hrequest hauto (by decide)] at hauto'
    cases hauto'
  | firstWrite hrcd _ _ hok =>
    exact ⟨⟨h.1.refresh.succ (hnot (by decide)), (R.timedRcd n).elapsed hrcd (hnot (by decide)),
      h.2.elapsed hrcd (hnot (by decide))⟩, h.1.write.succ (hnot (by decide)),
      (R.timedRdToWr n).elapsed hok (hnot (by decide))⟩
  | firstRead hrcd _ _ hok =>
    exact ⟨⟨h.1.refresh.succ (hnot (by decide)), (R.timedRcd n).elapsed hrcd (hnot (by decide)),
      h.2.elapsed hrcd (hnot (by decide))⟩, h.1.read.succ (hnot (by decide)),
      (R.timedWrToRd n).elapsed hok (hnot (by decide))⟩
  | written =>
    refine ⟨h.1.succ hstate (by decide), h.2.2.succ (hnot (by decide)), ?_⟩
    rw [R.write_succ, hstate]
    exact h.1.afterBurst hstate (by decide) _ _
  | read =>
    refine ⟨h.1.succ hstate (by decide), h.2.2.succ (hnot (by decide)), ?_⟩
    rw [R.read_succ, hstate]
    exact h.1.afterBurst hstate (by decide) _ _
  | writeWait =>
    refine ⟨h.1.succ hstate (by decide), h.2.1.succ (hnot (by decide)), ?_⟩
    rw [R.write_succ, hstate]
    exact h.2.2.succ hstate (by decide) _
  | readWait =>
    refine ⟨h.1.succ hstate (by decide), h.2.1.succ (hnot (by decide)), ?_⟩
    rw [R.read_succ, hstate]
    exact h.2.2.succ hstate (by decide) _
  | openAfterWrite _ _ _ hok =>
    exact ⟨⟨h.1.refresh.succ (hnot (by decide)), (R.timedWrite n).elapsed hok (hnot (by decide)),
      (h.2.1.succ (hnot (by decide))).mono hwr⟩, h.2.2.reopens hok hapart hstate (by decide)⟩
  | openAfterRead _ _ _ hok =>
    exact ⟨⟨h.1.refresh.succ (hnot (by decide)), (h.2.1.succ (hnot (by decide))).mono hrd,
      (R.timedRead n).elapsed hok (hnot (by decide))⟩, h.2.2.reopens hok hapart hstate (by decide)⟩
  | closeAfterWrite hwhy _ hok =>
    refine ⟨h.1.refresh.succ (hnot (by decide)), hclosable hok rfl, fun hauto' => ⟨?_, ?_⟩⟩
    · exact h.2.2.precharge.elapsed (((R.burstFirst n).1 hstate).flag hok) (hnot (by decide))
    · have hconflict := hwhy.resolve_right fun hauto => by simp [hrequest hauto (by decide)] at hauto'
      exact bankConflictR_of_noPrechargeWaitR hconflict (by rw [hstate]; rfl)
  | closeAfterRead hwhy _ hok =>
    refine ⟨h.1.refresh.succ (hnot (by decide)), hclosable hok rfl, fun hauto' => ⟨?_, ?_⟩⟩
    · exact h.2.2.precharge.elapsed (((R.burstFirst n).2 hstate).flag hok) (hnot (by decide))
    · have hconflict := hwhy.resolve_right fun hauto => by simp [hrequest hauto (by decide)] at hauto'
      exact bankConflictR_of_noPrechargeWaitR hconflict (by rw [hstate]; rfl)
  | nextWrite _ _ hok =>
    exact ⟨h.1.succ hstate (by decide), (R.timedWrite n).elapsed hok (hnot (by decide)),
      h.2.1.succ (hnot (by decide))⟩
  | nextRead _ _ hok =>
    exact ⟨h.1.succ hstate (by decide), (R.timedRead n).elapsed hok (hnot (by decide)),
      h.2.1.succ (hnot (by decide))⟩
  | writeToRead _ _ _ hok =>
    exact ⟨h.1.succ hstate (by decide), (h.2.1.succ (hnot (by decide))).mono hwr,
      (R.timedWrToRd n).elapsed hok (hnot (by decide))⟩
  | readToWrite _ _ _ hok =>
    exact ⟨h.1.succ hstate (by decide), (h.2.1.succ (hnot (by decide))).mono hrd,
      (R.timedRdToWr n).elapsed hok (hnot (by decide))⟩

theorem waited_zero : R.Waited 0 (R.regs 0).stateR := by
  have hidle : (R.regs 0).stateR = .idle := R.reset.stateR
  rw [hidle]
  exact fun s hs => absurd hs (Nat.not_lt_zero s)

/-- **In every cycle** the state machine has waited long enough. -/
theorem waited (R : Run P) (hapart : P.Apart) (n : ℕ) :
    R.Waited n (R.regs n).stateR ∧ R.PrechargeTimed n := by
  induction n with
  | zero => exact ⟨waited_zero, .zero, .zero, .zero⟩
  | succ n ih =>
    obtain ⟨hwaited, hprecharge⟩ := ih
    refine ⟨hwaited.succ hapart hprecharge, hprecharge.succ hapart (fun hstate => ?_)
      fun hstate => ?_⟩
    · rw [hstate] at hwaited
      exact ⟨hwaited.1.active, hwaited.2.2⟩
    · rw [hstate] at hwaited
      exact ⟨hwaited.1.write, hwaited.1.read⟩

end Run

/-! ## The commands are apart -/

/-- The times that the counters keep, in cycles. -/
def Params.counts (P : Params) : Sdram.Timing where
  rcd := P.TRCD_COUNT
  ras := P.TRAS_COUNT
  rrd := P.TRRD_COUNT
  rp := P.TRP_COUNT
  rtp := P.TRTP_COUNT
  wr := P.TWR_COUNT
  ccd := P.BURST_LEN_DIV2
  wtr := P.TWTR_COUNT
  rtw := P.TRTW_COUNT
  rfc := P.TRFC_COUNT

namespace Run

variable (R : Run P) {m n : ℕ}

/-- The time to a command is that since a command of the first state. -/
theorem between_command_le {second : Command P} {d : ℕ}
    (hactive : R.In .active m →
      P.counts.between (.activate (R.regs m).target.bank (R.regs m).target.row) second ≤ d)
    (hread : R.In .burstRead m →
      P.counts.between (.read (R.regs m).target.bank (column P (R.regs m).ctrl.afR2.addr)) second ≤ d)
    (hwrite : R.In .burstWrite m →
      P.counts.between (.write (R.regs m).target.bank (column P (R.regs m).ctrl.afR2.addr)) second ≤
        d)
    (hrefresh : R.In .autoRefresh m → P.counts.between (.refresh : Command P) second ≤ d)
    (hprecharge : R.In .precharge m → P.counts.between (R.command m) second ≤ d) :
    P.counts.between (R.command m) second ≤ d := by
  have hnop : P.counts.between (.nop : Command P) second ≤ d := by
    cases second <;> exact Nat.zero_le d
  by_cases hm : R.In .precharge m
  · exact hprecharge hm
  · rw [command, Controller.command]
    rw [In] at *
    generalize (R.regs m).stateR = state at *
    cases state with
    | active => exact hactive rfl
    | burstRead => exact hread rfl
    | burstWrite => exact hwrite rfl
    | autoRefresh => exact hrefresh rfl
    | precharge => exact absurd rfl hm
    | idle | prechargeWait | autoRefreshWait | activeWait | readWait | writeWait | prechargeWait1 =>
      exact hnop

/-- Closing all banks needs what closing each of them needs. -/
theorem between_prechargeAll (h : R.Closable n) (hmn : m < n) :
    P.counts.between (R.command m) (.prechargeAll : Command P) ≤ n - m := by
  refine R.between_command_le (fun hin => ?_) (fun hin => ?_) (fun hin => ?_)
    (fun _ => Nat.zero_le _) fun hin => ?_
  · exact Nat.le_sub_of_add_le' (h.active m hmn hin)
  · exact Nat.le_sub_of_add_le' (h.read m hmn hin)
  · exact Nat.le_sub_of_add_le' (h.write m hmn hin)
  · rw [command, Controller.command, hin]
    dsimp only
    split <;> exact Nat.zero_le _

/-- **The counters keep the commands apart**, in cycles. -/
theorem spaced_counts (hapart : P.Apart) : Sdram.Spaced P.counts 1 R.command := by
  intro m n hmn
  have hwaited := (R.waited hapart n).1
  have hle : ∀ {E : ℕ → Prop} {N : ℕ}, Elapsed E N n → E m → N ≤ n - m := fun h hE =>
    Nat.le_sub_of_add_le' (h m hmn hE)
  have hif : ∀ {p : Prop} [Decidable p] {N : ℕ}, N ≤ n - m → (if p then N else 0) ≤ n - m := by
    intro p _ N hN
    split
    · exact hN
    · exact Nat.zero_le _
  rw [Nat.mul_one]
  show P.counts.between (R.command m) (Controller.command (R.regs n) (R.regs (n + 1))) ≤ n - m
  rw [Controller.command]
  generalize hn : (R.regs n).stateR = state at hwaited
  cases state with
  | idle | prechargeWait | autoRefreshWait | activeWait | readWait | writeWait | prechargeWait1 =>
    exact Nat.zero_le _
  | active =>
    obtain ⟨hfresh, htrrd, hreopens⟩ := hwaited
    refine R.between_command_le (hle htrrd) (fun _ => Nat.zero_le _) (fun _ => Nat.zero_le _)
      (hle hfresh.refresh)
      fun hin => ?_
    rcases hreopens with htrp | ⟨-, hother⟩
    · rw [command, Controller.command, hin]
      dsimp only
      split
      · exact hle htrp hin
      · exact hif (hle htrp hin)
    · rcases hother m hmn hin with htrp | ⟨bank, hcommand, hne⟩
      · rw [command, Controller.command, hin]
        dsimp only
        split
        · exact Nat.le_sub_of_add_le' htrp
        · exact hif (Nat.le_sub_of_add_le' htrp)
      · rw [hcommand]
        exact (if_neg hne).trans_le (Nat.zero_le _)
  | burstRead =>
    obtain ⟨hopened, hrd, hwr⟩ := hwaited
    refine R.between_command_le (fun hin => hif (hle hopened.active hin)) (hle hrd) (hle hwr)
      (fun _ => Nat.zero_le _)
      fun hin => ?_
    rw [command, Controller.command, hin]
    dsimp only
    split <;> exact Nat.zero_le _
  | burstWrite =>
    obtain ⟨hopened, hwr, hrd⟩ := hwaited
    refine R.between_command_le (fun hin => hif (hle hopened.active hin)) (hle hrd) (hle hwr)
      (fun _ => Nat.zero_le _)
      fun hin => ?_
    rw [command, Controller.command, hin]
    dsimp only
    split <;> exact Nat.zero_le _
  | autoRefresh =>
    obtain ⟨hrefresh, -, htrp⟩ := hwaited
    refine R.between_command_le (fun _ => Nat.zero_le _) (fun _ => Nat.zero_le _)
      (fun _ => Nat.zero_le _) (hle hrefresh)
      fun hin => ?_
    rw [command, Controller.command, hin]
    dsimp only
    split <;> exact hle htrp hin
  | precharge =>
    dsimp only
    split
    · exact R.between_prechargeAll hwaited.2.1 hmn
    · obtain ⟨-, hcl, -⟩ := hwaited
      refine R.between_command_le (fun hin => hif (hle hcl.active hin))
        (fun hin => hif (hle hcl.read hin))
        (fun hin => hif (hle hcl.write hin)) (fun _ => Nat.zero_le _) fun hin => ?_
      rw [command, Controller.command, hin]
      dsimp only
      split <;> exact Nat.zero_le _

end Run

/-- The times that the memory asks for, in the unit of `CLK_PERIOD`. A write begins `WR_LAT` cycles
    after its command and takes `BURST_LEN / 2` cycles. -/
def Params.timing (P : Params) : Sdram.Timing where
  rcd := P.TRCD - P.ADDITIVE_LAT * P.CLK_PERIOD
  ras := P.TRAS
  rrd := P.TRRD
  rp := P.TRP
  rtp := (P.ADDITIVE_LAT + P.BURST_LEN_DIV2 - 2) * P.CLK_PERIOD + P.TRTP
  wr := (P.WR_LAT + P.BURST_LEN_DIV2) * P.CLK_PERIOD + P.TWR
  ccd := P.BURST_LEN_DIV2 * P.CLK_PERIOD
  wtr := (P.CAS_LAT - 1 + P.BURST_LEN_DIV2) * P.CLK_PERIOD + P.TWTR
  rtw := P.TRTW_COUNT * P.CLK_PERIOD
  rfc := P.TRFC

/-- The counts cover the times. -/
theorem Params.timing_within (P : Params) (hfits : P.Fits) (hclk : 0 < P.CLK_PERIOD) :
    P.timing.Within P.counts P.CLK_PERIOD := by
  have hcount : ∀ t : ℕ, t ≤ (t + P.CLK_PERIOD) / P.CLK_PERIOD * P.CLK_PERIOD := by
    intro t
    have hdiv := Nat.div_add_mod (t + P.CLK_PERIOD) P.CLK_PERIOD
    have hmod := Nat.mod_lt (t + P.CLK_PERIOD) hclk
    rw [Nat.mul_comm] at hdiv
    omega
  -- a count that adds cycles to a time
  have hadd : ∀ t more : ℕ,
      more * P.CLK_PERIOD + t ≤ ((t + P.CLK_PERIOD) / P.CLK_PERIOD + more) * P.CLK_PERIOD := by
    intro t more
    have := hcount t
    rw [Nat.add_mul]
    omega
  constructor
  · show P.TRCD - _ ≤ ((P.TRCD + P.CLK_PERIOD) / P.CLK_PERIOD - P.ADDITIVE_LAT) * P.CLK_PERIOD
    rw [Nat.sub_mul]
    exact Nat.sub_le_sub_right (hcount P.TRCD) _
  · exact hcount P.TRAS
  · exact hcount P.TRRD
  · exact (hcount P.TRP).trans (Nat.mul_le_mul_right _ (Nat.le_succ _))
  · have htwo := hfits.two_le_burst
    refine (hadd P.TRTP _).trans (Nat.mul_le_mul_right _ ?_)
    have hmax := Nat.le_max_left ((P.TRTP + P.CLK_PERIOD) / P.CLK_PERIOD) 2
    show _ ≤ max _ 2 + P.ADDITIVE_LAT + P.BURST_LEN_DIV2 - 2
    omega
  · exact (hadd P.TWR _).trans (Nat.le_of_eq (by rw [← Nat.add_assoc]; rfl))
  · exact Nat.le_refl _
  · exact (hadd P.TWTR _).trans (Nat.le_of_eq (by rw [← Nat.add_assoc]; rfl))
  · exact Nat.le_refl _
  · exact hcount P.TRFC

/-- **The memory gets its times**: between any two commands of a run there is the time that the
    memory asks for, and between two rows of a bank that of both opening and closing it. -/
theorem Run.spaced (R : Run P) (hapart : P.Apart) (hclk : 0 < P.CLK_PERIOD) :
    Sdram.Spaced P.timing P.CLK_PERIOD R.command ∧
      ∀ m n bank row row', m < n → R.command m = .activate bank row →
        R.command n = .activate bank row' → P.TRAS + P.TRP ≤ (n - m) * P.CLK_PERIOD := by
  have hspaced := (R.spaced_counts hapart).within (P.timing_within R.fits hclk)
  exact ⟨hspaced, fun m n _ _ _ hmn hm hn => Sdram.row_cycle R.dram_accepts hspaced hmn hm hn⟩

end ProbableCause.Ddr2.Controller
