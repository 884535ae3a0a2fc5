import ProbableCause.Ddr2.Timing
import ProbableCause.Ddr2.RefreshCounter

/-!
# `Ddr2.Refreshing` — each refresh request is answered by one refresh

A request stays in `auto_ref_r` until the state machine is in `CTRL_AUTO_REFRESH`. `distance` is how
many cycles that takes at most, from each state; it gets smaller in every cycle with a request,
whatever commands are waiting (`refresh_within`).

Requests are further apart than that, so none is lost in another one, and the state machine
refreshes the memory only for a request (`refreshes_eq_requests`). While refresh is disabled there
are no requests, and after the last one has been answered the memory is not refreshed at all
(`no_refresh_of_disable`). While it is enabled the memory is refreshed again and again
(`refresh_again`).
-/

namespace ProbableCause.Ddr2.Controller

open Countdown

variable {P : Params} {w : ℕ} {s : Regs P}

/-! ## Distances -/

namespace Params

variable (P : Params)

/-- The largest count that a request may have to wait for. -/
def LONGEST_COUNT :
    ℕ := max (max P.TRFC_COUNT P.TRCD_COUNT) (max P.TRAS_COUNT (max P.TWR_COUNT P.TRTP_COUNT))

/-- From `CTRL_PRECHARGE` to the refresh. -/
def CLOSING : ℕ := waitFor P.TRP_COUNT + 2

/-- From a request to the refresh. -/
def ANSWER : ℕ := max (waitFor P.LONGEST_COUNT) (waitFor P.TRP_COUNT) + 2 + P.CLOSING

end Params

/-- The counters that are waited for in a state have been loaded. -/
def Loaded (s : Regs P) : State → Prop
  | .autoRefreshWait => s.timers.rfc.cnt.toNat ≤ P.LONGEST_COUNT
  | .prechargeWait | .prechargeWait1 => s.timers.rp.cnt.toNat ≤ P.TRP_COUNT
  | .activeWait =>
    s.timers.rcd.cnt.toNat ≤ P.LONGEST_COUNT ∧ s.timers.precharge.cnt.toNat ≤ P.LONGEST_COUNT
  | .burstRead | .readWait | .burstWrite | .writeWait =>
    s.timers.precharge.cnt.toNat ≤ P.LONGEST_COUNT
  | .idle | .precharge | .autoRefresh | .active => True

/-- The cycles until the flag of a counter is set. -/
def Timer.left (t : Timer w) : ℕ := Countdown.left t.cnt.toNat t.ok

/-- **How far it is to the refresh** with a request. -/
def distance (s : Regs P) : State → ℕ
  | .idle | .autoRefresh => 0
  | .prechargeWait1 => s.timers.rp.left + 1
  | .precharge => P.CLOSING
  | .prechargeWait => s.timers.rp.left + 1 + P.CLOSING
  | .autoRefreshWait => s.timers.rfc.left + 1 + P.CLOSING
  | .active | .burstRead | .burstWrite => waitFor P.LONGEST_COUNT + 2 + P.CLOSING
  | .activeWait => max s.timers.rcd.left s.timers.precharge.left + 1 + P.CLOSING
  | .readWait | .writeWait => s.timers.precharge.left + 1 + P.CLOSING

theorem Timer.left_tick (t : Timer w) (count : ℕ) :
    (t.step false false count false).left ≤ t.left - 1 := by
  obtain ⟨hcnt, hok⟩ := t.step_tick count
  exact Countdown.left_tick (Nat.le_of_eq hcnt) hok.mpr

theorem Timer.left_pos {t : Timer w} (h : t.ok = false) : 0 < t.left := by
  refine Nat.pos_of_ne_zero fun hzero => ?_
  rw [left_eq_zero.mp hzero] at h
  cases h

theorem prechargeStep_left {state : State} (h : state.loadsPrecharge = false) (t : Timer 5) :
    (prechargeStep P state t).left ≤ t.left - 1 := by
  obtain ⟨hcnt, hok⟩ := prechargeStep_tick (P := P) h t
  exact Countdown.left_tick (Nat.le_of_eq hcnt) hok.mpr

/-- The counter for `PRECHARGE` is not higher than what is loaded into it, from the opening of a row
on. -/
theorem prechargeStep_le (hfits : P.Fits) {state : State} {t : Timer 5}
    (h : state = .active ∨ t.cnt.toNat ≤ P.LONGEST_COUNT) :
    (prechargeStep P state t).cnt.toNat ≤ P.LONGEST_COUNT := by
  have hras : P.TRAS_COUNT ≤ P.LONGEST_COUNT := (Nat.le_max_left _ _).trans (Nat.le_max_right _ _)
  have hlast : max P.TWR_COUNT P.TRTP_COUNT ≤ P.LONGEST_COUNT :=
    (Nat.le_max_right _ _).trans (Nat.le_max_right _ _)
  by_cases hactive : state = .active
  · rw [hactive, prechargeStep_active hfits.tras]
    exact hras
  · have hcnt := h.resolve_left hactive
    cases hloads : state.loadsPrecharge with
    | false =>
      rw [(prechargeStep_tick (P := P) hloads t).1]
      exact (Nat.sub_le _ _).trans hcnt
    | true =>
      simp only [State.loadsPrecharge, Bool.or_eq_true, beq_iff_eq] at hloads
      rcases hloads with (rfl | rfl) | rfl
      · rw [prechargeStep_read hfits.trtp]
        exact max_le hcnt ((Nat.le_max_right _ _).trans hlast)
      · rw [prechargeStep_write hfits.twr]
        exact (Nat.le_max_left _ _).trans hlast
      · exact absurd rfl hactive

theorem distance_le {state : State} (h : Loaded s state) : distance s state ≤ P.ANSWER := by
  have hlong : waitFor P.LONGEST_COUNT ≤ max (waitFor P.LONGEST_COUNT) (waitFor P.TRP_COUNT) :=
    Nat.le_max_left _ _
  have htrp : waitFor P.TRP_COUNT ≤ max (waitFor P.LONGEST_COUNT) (waitFor P.TRP_COUNT) :=
    Nat.le_max_right _ _
  unfold Params.ANSWER
  cases state with
  | idle | autoRefresh => exact Nat.zero_le _
  | precharge | active | burstRead | burstWrite => simp only [distance]; omega
  | prechargeWait1 | prechargeWait =>
    have hleft : s.timers.rp.left ≤ waitFor P.TRP_COUNT := left_le h
    simp only [distance]
    omega
  | autoRefreshWait =>
    have hleft : s.timers.rfc.left ≤ waitFor P.LONGEST_COUNT := left_le h
    simp only [distance]
    omega
  | activeWait =>
    have hrcd : s.timers.rcd.left ≤ waitFor P.LONGEST_COUNT := left_le h.1
    have hprecharge : s.timers.precharge.left ≤ waitFor P.LONGEST_COUNT := left_le h.2
    simp only [distance]
    omega
  | readWait | writeWait =>
    have hleft : s.timers.precharge.left ≤ waitFor P.LONGEST_COUNT := left_le h
    simp only [distance]
    omega

namespace Run

variable (R : Run P) {n : ℕ}

theorem loaded (n : ℕ) : Loaded (R.regs n) (R.regs n).stateR := by
  induction n with
  | zero =>
    have hidle : (R.regs 0).stateR = .idle := R.reset.stateR
    rw [hidle]
    exact trivial
  | succ n ih =>
    have hgo := R.goes n
    have hprecharge : (R.regs (n + 1)).timers.precharge =
        prechargeStep P (R.regs n).stateR (R.regs n).timers.precharge := by
      rw [R.timers_succ]
      rfl
    generalize (R.regs (n + 1)).stateR = state' at hgo
    generalize hstate : (R.regs n).stateR = state at ih hgo hprecharge
    cases hgo with
    | idle | initDone | openAtOnce | closeAgain | openClosed | refresh | refreshNext
    | closeRefreshed | openRefreshed | openUnresolved | closeOpened | openAfterWrite
    | closeAfterWrite | openAfterRead | closeAfterRead => exact trivial
    | closeAll | closeOne =>
      refine Nat.le_of_eq ?_
      rw [R.timers_succ, hstate]
      exact ((R.regs n).timers.rp.step_start R.fits.trp true).1
    | prechargeWait | prechargeWait1 =>
      show (R.regs (n + 1)).timers.rp.cnt.toNat ≤ _
      rw [R.timers_succ, hstate]
      exact (Nat.le_of_eq ((R.regs n).timers.rp.step_tick P.TRP_COUNT).1).trans
        ((Nat.sub_le _ _).trans ih)
    | refreshed =>
      show (R.regs (n + 1)).timers.rfc.cnt.toNat ≤ _
      rw [R.timers_succ, hstate]
      exact (Nat.le_of_eq ((R.regs n).timers.rfc.step_start R.fits.trfc true).1).trans
        ((Nat.le_max_left _ _).trans (Nat.le_max_left _ _))
    | autoRefreshWait =>
      show (R.regs (n + 1)).timers.rfc.cnt.toNat ≤ _
      rw [R.timers_succ, hstate]
      exact (Nat.le_of_eq ((R.regs n).timers.rfc.step_tick P.TRFC_COUNT).1).trans
        ((Nat.sub_le _ _).trans ih)
    | opened =>
      refine ⟨?_, ?_⟩
      · rw [R.timers_succ, hstate]
        exact (Nat.le_of_eq ((R.regs n).timers.rcd.step_start R.fits.trcd _).1).trans
          ((Nat.le_max_right _ _).trans (Nat.le_max_left _ _))
      · rw [hprecharge]
        exact prechargeStep_le R.fits (Or.inl rfl)
    | activeWait =>
      refine ⟨?_, ?_⟩
      · rw [R.timers_succ, hstate]
        exact (Nat.le_of_eq ((R.regs n).timers.rcd.step_tick P.TRCD_COUNT).1).trans
          ((Nat.sub_le _ _).trans ih.1)
      · rw [hprecharge]
        exact prechargeStep_le R.fits (Or.inr ih.2)
    | firstWrite | firstRead =>
      show (R.regs (n + 1)).timers.precharge.cnt.toNat ≤ _
      rw [hprecharge]
      exact prechargeStep_le R.fits (Or.inr ih.2)
    | written | writeWait | nextWrite | writeToRead | read | readWait | nextRead | readToWrite =>
      show (R.regs (n + 1)).timers.precharge.cnt.toNat ≤ _
      rw [hprecharge]
      exact prechargeStep_le R.fits (Or.inr ih)

/-- **With a request** the refresh comes nearer in every cycle. -/
theorem distance_succ (hauto : (R.regs n).autoRefR = true) (hidle : (R.regs n).stateR ≠ .idle)
    (hrefresh : (R.regs n).stateR ≠ .autoRefresh) :
    distance (R.regs (n + 1)) (R.regs (n + 1)).stateR < distance (R.regs n) (R.regs n).stateR := by
  have hgo := R.goes n
  have hloaded := R.loaded (n + 1)
  have hprecharge : (R.regs (n + 1)).timers.precharge =
      prechargeStep P (R.regs n).stateR (R.regs n).timers.precharge := by
    rw [R.timers_succ]
    rfl
  generalize (R.regs (n + 1)).stateR = state' at hgo hloaded
  generalize hstate : (R.regs n).stateR = state at hgo hprecharge hidle hrefresh
  cases hgo with
  | idle | initDone => exact absurd rfl hidle
  | refreshed => exact absurd rfl hrefresh
  | openAtOnce h | closeOne h | openClosed _ h | openRefreshed _ h | firstWrite _ h | firstRead _ h
  | openAfterWrite _ _ h | nextWrite _ h | writeToRead _ h | openAfterRead _ _ h | nextRead _ h
  | readToWrite _ h =>
    rw [hauto] at h
    cases h
  | openUnresolved hconflict htrrd =>
    have hresolved := R.resolved hstate (Or.inl htrrd)
    rw [hconflict.2] at hresolved
    cases hresolved
  | closeAll =>
    have hleft : (R.regs (n + 1)).timers.rp.left ≤ waitFor P.TRP_COUNT := left_le hloaded
    simp only [distance, Params.CLOSING]
    omega
  | prechargeWait hrp | prechargeWait1 hrp =>
    have hpos := Timer.left_pos hrp
    have htick : (R.regs (n + 1)).timers.rp.left ≤ (R.regs n).timers.rp.left - 1 := by
      rw [R.timers_succ, hstate]
      exact Timer.left_tick _ _
    simp only [distance]
    omega
  | closeAgain | closeRefreshed | closeOpened | closeAfterWrite | closeAfterRead =>
    simp only [distance]
    omega
  | refresh | refreshNext => exact Nat.succ_pos _
  | autoRefreshWait h =>
    have hrfc : (R.regs n).timers.rfc.ok = false := by
      refine Bool.eq_false_of_not_eq_true fun hrfc => ?_
      rw [h hrfc] at hauto
      cases hauto
    have hpos := Timer.left_pos hrfc
    have htick : (R.regs (n + 1)).timers.rfc.left ≤ (R.regs n).timers.rfc.left - 1 := by
      rw [R.timers_succ, hstate]
      exact Timer.left_tick _ _
    simp only [distance]
    omega
  | opened =>
    have hrcd : (R.regs (n + 1)).timers.rcd.left ≤ waitFor P.LONGEST_COUNT := left_le hloaded.1
    have hleft : (R.regs (n + 1)).timers.precharge.left ≤ waitFor P.LONGEST_COUNT := left_le hloaded.2
    simp only [distance]
    omega
  | activeWait h =>
    have hpos : 0 < (R.regs n).timers.rcd.left ∨ 0 < (R.regs n).timers.precharge.left := by
      cases hrcd : (R.regs n).timers.rcd.ok with
      | false => exact Or.inl (Timer.left_pos hrcd)
      | true => exact Or.inr (Timer.left_pos (h hrcd hauto))
    have hrcd : (R.regs (n + 1)).timers.rcd.left ≤ (R.regs n).timers.rcd.left - 1 := by
      rw [R.timers_succ, hstate]
      exact Timer.left_tick _ _
    have hleft : (R.regs (n + 1)).timers.precharge.left ≤ (R.regs n).timers.precharge.left - 1 := by
      rw [hprecharge]
      exact prechargeStep_left rfl _
    simp only [distance]
    omega
  | written | read =>
    have hleft : (R.regs (n + 1)).timers.precharge.left ≤ waitFor P.LONGEST_COUNT := left_le hloaded
    simp only [distance]
    omega
  | writeWait h | readWait h =>
    have hpos := Timer.left_pos (h hauto)
    have hleft : (R.regs (n + 1)).timers.precharge.left ≤ (R.regs n).timers.precharge.left - 1 := by
      rw [hprecharge]
      exact prechargeStep_left rfl _
    simp only [distance]
    omega

/-! ## Answers -/

variable {R}

theorem autoRefR_succ (n : ℕ) : (R.regs (n + 1)).autoRefR =
    ((R.regs n).ctrl.refFlagR || ((R.regs n).autoRefR && (R.regs n).stateR != .autoRefresh)) := by
  rw [regs_succ, Regs.autoRefR]
  simp only [step, Ddr2.step, R.rstR1 n, Bool.false_eq_true, if_false]
  cases (R.regs n).ctrl.refFlagR with
  | true => rfl
  | false =>
    simp only [Inputs.ctrl, State.code_eq_autoRefresh, Bool.false_eq_true, if_false, Bool.false_or]
    by_cases hstate : (R.regs n).stateR = .autoRefresh
    · rw [if_pos hstate, hstate, bne_self_eq_false, Bool.and_false]
    · rw [if_neg hstate, bne_iff_ne.mpr hstate, Bool.and_true]
      rfl

theorem idle_of_succ (h : (R.regs (n + 1)).stateR = .idle) : (R.regs n).stateR = .idle := by
  have hgo := R.goes n
  rw [h] at hgo
  generalize (R.regs n).stateR = state at hgo
  cases hgo
  rfl

/-- After the initialisation the state machine is never idle again. -/
theorem not_idle (h : (R.regs n).stateR ≠ .idle) {k : ℕ} (hnk : n ≤ k) :
    (R.regs k).stateR ≠ .idle := by
  induction k, hnk using Nat.le_induction with
  | base => exact h
  | succ k _ ih => exact fun hidle => ih (idle_of_succ hidle)

/-- **A request is answered** within `ANSWER` cycles, whatever commands there are. -/
theorem refresh_within (R : Run P) (hauto : (R.regs n).autoRefR = true)
    (hidle : (R.regs n).stateR ≠ .idle) :
    ∃ m, n ≤ m ∧ m ≤ n + P.ANSWER ∧ (R.regs m).stateR = .autoRefresh := by
  have hstep := fun k (hpending : (R.regs k).autoRefR = true ∧ (R.regs k).stateR ≠ .idle)
      (hnot : ¬ R.In .autoRefresh k) => And.intro
    (And.intro (autoRefR_step_of_request (i := R.inputs k) (R.rstR1 k) hpending.1 hnot)
      fun h => hpending.2 (idle_of_succ h))
    (R.distance_succ hpending.1 hpending.2 hnot)
  obtain ⟨m, hnm, hm, hrefresh⟩ := @exists_goal n (R.In .autoRefresh) _
    (fun k => distance (R.regs k) (R.regs k).stateR) hstep ⟨hauto, hidle⟩
  exact ⟨m, hnm, hm.trans (Nat.add_le_add_left (distance_le (R.loaded n)) n), hrefresh⟩

/-! ## Refreshes and requests -/

/-- Whether a refresh is the first one, after the initialisation. -/
def First (R : Run P) (n : ℕ) : Prop := ∀ k < n, R.In .idle k

/-- Why the state machine is in a state that leads to a refresh, and that it refreshes once. -/
def Requested (R : Run P) (n : ℕ) : State → Prop
  | .idle => R.First n ∧ (R.regs n).stateR1 = .idle ∧ (R.regs n).autoCntR = 0
  | .prechargeWait1 => (R.regs n).autoRefR = true ∧ ((R.regs n).stateR1 = .precharge ∨
      (R.regs n).stateR1 = .prechargeWait1 ∧ (R.regs n).autoCntR = 0)
  | .autoRefresh => ((R.regs n).autoRefR = true ∨ R.First n) ∧ (R.regs n).autoCntR = 0 ∧
      ((R.regs n).stateR1 = .idle ∨ (R.regs n).stateR1 = .prechargeWait1)
  | .autoRefreshWait =>
    (R.regs n).stateR1 = .autoRefresh ∧ (R.regs n).autoCntR = 0 ∧ (R.regs n).timers.rfc.ok = false ∨
      (R.regs n).stateR1 = .autoRefreshWait ∧ (R.regs n).autoCntR = 1
  | _ => True

theorem autoCntR_succ (n : ℕ) : (R.regs (n + 1)).autoCntR =
    if (R.regs n).stateR1 = .precharge then 0
    else if (R.regs n).stateR1 = .autoRefresh then (R.regs n).autoCntR + 1
      else (R.regs n).autoCntR := by
  rw [regs_succ]
  simp [step, R.rstR1 n]

theorem requested (n : ℕ) : R.Requested n (R.regs n).stateR := by
  induction n with
  | zero =>
    have hidle : (R.regs 0).stateR = .idle := R.reset.stateR
    rw [hidle]
    exact ⟨fun k hk => absurd hk (Nat.not_lt_zero k), R.reset.stateR1, R.reset.autoCntR⟩
  | succ n ih =>
    have hgo := R.goes n
    have hr1 := R.stateR1_succ n
    have hcnt := R.autoCntR_succ n
    have hauto := R.autoRefR_succ n
    generalize (R.regs (n + 1)).stateR = state' at hgo
    generalize hstate : (R.regs n).stateR = state at ih hgo hr1 hauto
    cases hgo with
    | idle =>
      obtain ⟨hfirst, hidle, hzero⟩ := ih
      refine ⟨fun k hk => ?_, hr1, ?_⟩
      · exact (Nat.lt_succ_iff_lt_or_eq.mp hk).elim (hfirst k) fun he => he ▸ hstate
      · rw [hcnt, hidle, hzero]
        rfl
    | initDone =>
      obtain ⟨hfirst, hidle, hzero⟩ := ih
      refine ⟨Or.inr fun k hk => ?_, ?_, Or.inl hr1⟩
      · exact (Nat.lt_succ_iff_lt_or_eq.mp hk).elim (hfirst k) fun he => he ▸ hstate
      · rw [hcnt, hidle, hzero]
        rfl
    | closeAll h =>
      refine ⟨?_, Or.inl hr1⟩
      rw [hauto, h]
      exact Bool.or_true _
    | prechargeWait1 =>
      refine ⟨?_, Or.inr ⟨hr1, ?_⟩⟩
      · rw [hauto, ih.1]
        exact Bool.or_true _
      · rw [hcnt]
        rcases ih.2 with hclose | ⟨hwait, hzero⟩
        · exact if_pos hclose
        · rw [hwait, hzero]
          rfl
    | refresh =>
      refine ⟨Or.inl ?_, ?_, Or.inr hr1⟩
      · rw [hauto, ih.1]
        exact Bool.or_true _
      · rw [hcnt]
        rcases ih.2 with hclose | ⟨hwait, hzero⟩
        · exact if_pos hclose
        · rw [hwait, hzero]
          rfl
    | refreshed =>
      obtain ⟨-, hzero, hbefore⟩ := ih
      refine Or.inl ⟨hr1, ?_, ?_⟩
      · rw [hcnt, hzero]
        rcases hbefore with hidle | hwait
        · rw [hidle]
          rfl
        · rw [hwait]
          rfl
      · rw [R.timers_succ, hstate]
        rfl
    | autoRefreshWait =>
      refine Or.inr ⟨hr1, ?_⟩
      rw [hcnt]
      rcases ih with ⟨hrefresh, hzero, -⟩ | ⟨hwait, hone⟩
      · rw [hrefresh, hzero]
        rfl
      · rw [hwait, hone]
        rfl
    | refreshNext hrfc hlow =>
      rcases ih with ⟨-, -, hno⟩ | ⟨-, hone⟩
      · rw [hno] at hrfc
        cases hrfc
      · rw [hone] at hlow
        exact absurd hlow (by decide)
    | openAtOnce | closeOne | prechargeWait | closeAgain | openClosed | closeRefreshed
    | openRefreshed | opened | activeWait | openUnresolved | closeOpened | firstWrite | firstRead
    | written | writeWait | openAfterWrite | closeAfterWrite | nextWrite | writeToRead | read
    | readWait | openAfterRead | closeAfterRead | nextRead | readToWrite => exact trivial

/-- After the first refresh the memory is refreshed for a request only. -/
theorem autoRefR_of_refresh {u : ℕ} (hfirst : R.In .autoRefresh u) (hun : u < n)
    (h : R.In .autoRefresh n) :
    (R.regs n).autoRefR = true := by
  have hrequested := R.requested n
  rw [h] at hrequested
  refine hrequested.1.resolve_right fun hnone => ?_
  have hidle := hnone u hun
  rw [In, hfirst] at hidle
  cases hidle

variable (R)

/-- The registers of `Ddr2.Ctrl` in a run of the controller. -/
theorem ctrl_eq_run (n : ℕ) : (R.regs n).ctrl =
    Ddr2.run P.TREFI_COUNT (fun k => (R.inputs k).ctrl (R.regs k).stateR) R.start.ctrl n := by
  induction n with
  | zero => rfl
  | succ n ih =>
    rw [regs_succ, Ddr2.run, Clocked.run_succ, ← Ddr2.run, ← ih]
    rfl

/-- How often the memory has been refreshed before a cycle. -/
def refreshes : ℕ → ℕ
  | 0 => 0
  | n + 1 => refreshes n + ((R.regs n).stateR == .autoRefresh).toNat

/-- How many requests there have been before a cycle. -/
def requests : ℕ → ℕ
  | 0 => 0
  | n + 1 => requests n + (R.regs n).ctrl.refFlagR.toNat

end Run

/-- The time between two requests is in the range of the counter and longer than it takes to answer
one. -/
structure Params.Answers (P : Params) : Prop where
  answer : P.ANSWER < P.TREFI_COUNT.toNat
  fits : P.TREFI_COUNT.toNat < 2 ^ 12

theorem Params.answers_board : Params.board.Answers := by
  constructor <;> decide

theorem Params.Answers.one_lt (h : P.Answers) : 1 < P.TREFI_COUNT.toNat := by
  have := h.answer
  unfold Params.ANSWER at this
  omega

theorem Params.Answers.ne_one (h : P.Answers) : P.TREFI_COUNT ≠ 1 := by
  intro hone
  have := h.one_lt
  rw [hone] at this
  exact absurd this (by decide)

namespace Run

variable {R : Run P} {n : ℕ}

theorem refFlagR_succ_succ (n : ℕ) :
    (R.regs (n + 2)).ctrl.refFlagR = true ↔ atLast P.TREFI_COUNT (R.regs n).ctrl := by
  rw [ctrl_eq_run, ctrl_eq_run]
  exact refFlagR_run _ _ n

/-- A request is two cycles after the last value of the counter. -/
theorem exists_of_refFlagR (hP : P.Answers) (h : (R.regs n).ctrl.refFlagR = true) :
    ∃ m, n = m + 2 ∧ atLast P.TREFI_COUNT (R.regs m).ctrl := by
  match n with
  | 0 => exact absurd h (by simp [regs, Clocked.run, R.reset.refFlagR hP.ne_one])
  | 1 =>
    have hok : (R.regs 0).ctrl.refiCntOkR = false := R.reset.refiCntOkR hP.ne_one
    rw [R.regs_succ, step, refFlagR_step, hok] at h
    cases h
  | m + 2 => exact ⟨m, rfl, (refFlagR_succ_succ m).mp h⟩

/-- **Requests are apart.** -/
theorem refFlagR_apart (hP : P.Answers) {f : ℕ} (hf : (R.regs f).ctrl.refFlagR = true)
    (hn : (R.regs n).ctrl.refFlagR = true) (hfn : f < n) : f + P.TREFI_COUNT.toNat + 1 ≤ n := by
  obtain ⟨g, rfl, hg⟩ := exists_of_refFlagR hP hf
  obtain ⟨h, rfl, hh⟩ := exists_of_refFlagR hP hn
  have hzero : (R.regs (g + 2)).ctrl.refiCntR = 0 := by
    have hok : (R.regs (g + 1)).ctrl.refiCntOkR = true := by
      rw [regs_succ]
      exact (refiCntOkR_step _).mpr hg
    rw [regs_succ]
    simp [step, Ddr2.step, hok]
  have hne : h ≠ g + 1 := by
    rintro rfl
    rw [R.regs_succ] at hh
    exact not_atLast_step hP.one_lt hP.fits hg _ hh
  obtain ⟨j, rfl⟩ := Nat.exists_eq_add_of_le (show g + 2 ≤ h by omega)
  have hcount := refiCntR_run_le (T := P.TREFI_COUNT)
    (fun k => (R.inputs k).ctrl (R.regs k).stateR) R.start.ctrl (g + 2) j
  rw [← ctrl_eq_run, ← ctrl_eq_run, hzero] at hcount
  rw [atLast_iff (Nat.lt_of_succ_lt hP.one_lt)] at hh
  have : (0 : BitVec 12).toNat = 0 := rfl
  omega

/-- A request that is not answered yet. -/
theorem exists_request (n : ℕ) (h : (R.regs n).autoRefR = true) :
    ∃ f < n, (R.regs f).ctrl.refFlagR = true ∧
      ∀ k, f < k → k < n → (R.regs k).autoRefR = true ∧ (R.regs k).stateR ≠ .autoRefresh := by
  induction n with
  | zero =>
    have hauto : (R.regs 0).autoRefR = false := R.reset.autoRefR
    rw [hauto] at h
    cases h
  | succ n ih =>
    cases hflag : (R.regs n).ctrl.refFlagR with
    | true => exact ⟨n, Nat.lt_succ_self n, hflag, fun k hk hk' => by omega⟩
    | false =>
      rw [R.autoRefR_succ, hflag, Bool.false_or, Bool.and_eq_true, bne_iff_ne] at h
      obtain ⟨f, hfn, hf, hbetween⟩ := ih h.1
      refine ⟨f, Nat.lt_succ_of_lt hfn, hf, fun k hk hk' => ?_⟩
      rcases Nat.lt_succ_iff_lt_or_eq.mp hk' with hlt | rfl
      · exact hbetween k hk hlt
      · exact h

/-- **Each request is answered before the next one.** -/
theorem not_refFlagR_of_autoRefR (hP : P.Answers) {u : ℕ} (hfirst : R.In .autoRefresh u) (hun : u < n)
    (hauto : (R.regs n).autoRefR = true) : (R.regs n).ctrl.refFlagR = false := by
  refine Bool.eq_false_of_not_eq_true fun hflag => ?_
  obtain ⟨f, hfn, hf, hbetween⟩ := R.exists_request n hauto
  have hapart := refFlagR_apart hP hf hflag hfn
  have hanswer := hP.answer
  have hone := hP.one_lt
  -- the first refresh was before the request
  have huf : u < f + 1 := by
    refine Nat.lt_of_not_le fun hle => ?_
    exact (hbetween u hle hun).2 hfirst
  have hidle : (R.regs (f + 1)).stateR ≠ .idle :=
    not_idle (by rw [hfirst]; decide) (Nat.le_of_lt_succ (Nat.lt_succ_of_lt huf))
  obtain ⟨m, hfm, hm, hrefresh⟩ :=
    refresh_within R (hbetween (f + 1) (Nat.lt_succ_self f) (by omega)).1 hidle
  exact (hbetween m hfm (by omega)).2 hrefresh

/-- **One refresh for each request**: from the first refresh on, whatever commands come and whenever
    refresh is disabled, the memory is refreshed once for each request, except for a request that
    has not been answered yet. -/
theorem refreshes_eq_requests (R : Run P) (hP : P.Answers) {u : ℕ} (hfirst : R.In .autoRefresh u)
    (hun : u < n) :
    R.refreshes n + (R.regs n).autoRefR.toNat + R.requests (u + 1) =
      R.refreshes (u + 1) + (R.regs (u + 1)).autoRefR.toNat + R.requests n := by
  induction n, hun using Nat.le_induction with
  | base => rfl
  | succ n hun ih =>
    have hstep : ((R.regs n).stateR == .autoRefresh).toNat + (R.regs (n + 1)).autoRefR.toNat =
        (R.regs n).autoRefR.toNat + (R.regs n).ctrl.refFlagR.toNat := by
      rw [R.autoRefR_succ]
      by_cases hstate : (R.regs n).stateR = .autoRefresh
      · rw [autoRefR_of_refresh hfirst hun hstate, hstate, beq_self_eq_true, bne_self_eq_false,
          Bool.and_false, Bool.or_false]
      · rw [beq_false_of_ne hstate, bne_iff_ne.mpr hstate, Bool.and_true]
        cases hauto : (R.regs n).autoRefR with
        | false => simp
        | true =>
          rw [not_refFlagR_of_autoRefR hP hfirst hun hauto]
          rfl
    have hrefreshes : R.refreshes (n + 1) =
      R.refreshes n + ((R.regs n).stateR == .autoRefresh).toNat := rfl
    have hrequests : R.requests (n + 1) = R.requests n + (R.regs n).ctrl.refFlagR.toNat := rfl
    omega

/-- The first refresh of the board is in cycle `2`. -/
theorem board_first (outputReg : Bool) (spRefreshDisable : ℕ → Bool) :
    (board outputReg spRefreshDisable).In .autoRefresh 2 :=
  rfl

/-- Writes and reads in turn, on the board. -/
theorem refreshes_eq_requests_board :
    (board true fun _ => false).refreshes 10000 +
        ((board true fun _ => false).regs 10000).autoRefR.toNat +
          (board true fun _ => false).requests (2 + 1) =
      (board true fun _ => false).refreshes (2 + 1) +
        ((board true fun _ => false).regs (2 + 1)).autoRefR.toNat +
          (board true fun _ => false).requests 10000 :=
  refreshes_eq_requests (board true fun _ => false) Params.answers_board (board_first _ _) (by decide)

/-! ## With and without refresh -/

/-- **Without refresh** the memory is not refreshed: once the request before has had its time, never
again. -/
theorem no_refresh_of_disable (R : Run P) (hP : P.Answers) {u t : ℕ}
    (hfirst : R.In .autoRefresh u) (hut : u < t)
    (hdisable : ∀ k ≥ t, (R.inputs k).spRefreshDisable = true) (hn : t + 3 + P.ANSWER < n) :
    (R.regs n).stateR ≠ .autoRefresh := by
  -- from a cycle without a request on there is none
  have hlow : ∀ k, t + 3 ≤ k → (R.regs k).autoRefR = false → ∀ j,
      (R.regs (k + j)).autoRefR = false := by
    intro k hk hauto j
    obtain ⟨v, rfl⟩ := Nat.exists_eq_add_of_le' (Nat.le_of_add_left_le hk)
    rw [Regs.autoRefR, ctrl_eq_run] at hauto ⊢
    exact autoRefR_stays_low (t := v) hP.one_lt (fun m hm => hdisable m (by omega)) hauto
  have hnone : ∃ k, t + 3 ≤ k ∧ k ≤ n ∧ (R.regs k).autoRefR = false := by
    cases hauto : (R.regs (t + 3)).autoRefR with
    | false => exact ⟨t + 3, Nat.le_refl _, by omega, hauto⟩
    | true =>
      obtain ⟨m, htm, hm, hrefresh⟩ :=
        refresh_within R hauto (not_idle (by rw [hfirst]; decide) (show u ≤ t + 3 by omega))
      refine ⟨m + 1, by omega, by omega, ?_⟩
      have hflag : (R.regs m).ctrl.refFlagR = false := by
        rw [ctrl_eq_run]
        exact refFlagR_eq_false (u := m) hP.one_lt (fun j hj _ => hdisable j hj) (by omega) htm
          (Nat.le_add_right m _)
      rw [R.autoRefR_succ, hflag, hrefresh, bne_self_eq_false, Bool.and_false, Bool.or_false]
  obtain ⟨k, hk, hkn, hauto⟩ := hnone
  obtain ⟨j, rfl⟩ := Nat.exists_eq_add_of_le hkn
  intro hrefresh
  have hrequest := autoRefR_of_refresh hfirst (by omega) hrefresh
  rw [hlow k hk hauto j] at hrequest
  cases hrequest

/-- Refresh is disabled on the board, in the middle of writes and reads. -/
theorem no_refresh_of_disable_board :
    ((board true fun n => decide (1000 ≤ n)).regs 2000).stateR ≠ .autoRefresh :=
  no_refresh_of_disable _ Params.answers_board (board_first _ _) (by decide)
    (fun _ hk => decide_eq_true hk) (by decide)

/-- The counter begins at zero after the reset, and in the cycle in which refresh is enabled. -/
theorem counting_zero (hP : P.Answers) {u : ℕ}
    (hstart : u = 0 ∨ ∃ t, t + 2 ≤ u ∧ ∀ k, t ≤ k → k < u → (R.inputs k).spRefreshDisable = true) :
    Counting 0 (R.regs u).ctrl := by
  rcases hstart with rfl | ⟨t, htu, hdisable⟩
  · exact ⟨by rw [show (R.regs 0).ctrl.refiCntR = 0 from R.reset.refiCntR]; rfl,
      R.reset.refiCntOkR hP.ne_one⟩
  · rw [ctrl_eq_run]
    exact counting_of_disable hP.one_lt hdisable htu

/-- With refresh enabled there is a request again and again. -/
theorem exists_refFlagR (hP : P.Answers) {u : ℕ} (hstart : Counting 0 (R.regs u).ctrl)
    (henable : ∀ k ≥ u, (R.inputs k).spRefreshDisable = false) (hun : u ≤ n) :
    ∃ f, n < f ∧ f ≤ n + P.TREFI_COUNT.toNat + 1 ∧ (R.regs f).ctrl.refFlagR = true := by
  have hlow := hP.one_lt
  -- each request begins the time to the next one
  have hnext : ∀ v ≥ u, Counting 0 (R.regs v).ctrl →
      (R.regs (v + P.TREFI_COUNT.toNat + 1)).ctrl.refFlagR = true ∧
        Counting 0 (R.regs (v + P.TREFI_COUNT.toNat + 1)).ctrl := by
    intro v hv hcounting
    have hflag : (R.regs (v + P.TREFI_COUNT.toNat + 1)).ctrl.refFlagR = true := by
      rw [ctrl_eq_run] at hcounting ⊢
      exact (refFlagR_next (Nat.lt_of_succ_lt hlow) hP.fits hcounting
        (fun k _ => ctrl_eq_run R k ▸ R.rstR1 k) fun k hk => henable k (hv.trans hk)).1
    refine ⟨hflag, ?_⟩
    rw [regs_succ] at hflag ⊢
    refine counting_of_refFlagR ?_ hflag
    obtain ⟨m, hm⟩ := Nat.exists_eq_add_of_le' (show 1 ≤ v + P.TREFI_COUNT.toNat by omega)
    rw [hm, regs_succ]
    exact counterInv_step hlow hP.fits _ _
  have hlast : ∃ v, u ≤ v ∧ v ≤ n ∧ n ≤ v + P.TREFI_COUNT.toNat ∧ Counting 0 (R.regs v).ctrl := by
    induction n, hun using Nat.le_induction with
    | base => exact ⟨u, Nat.le_refl u, Nat.le_refl u, Nat.le_add_right u _, hstart⟩
    | succ n hun ih =>
      obtain ⟨v, huv, hvn, hnv, hcounting⟩ := ih
      rcases Nat.lt_or_ge n (v + P.TREFI_COUNT.toNat) with hlt | hge
      · exact ⟨v, huv, by omega, by omega, hcounting⟩
      · obtain rfl : n = v + P.TREFI_COUNT.toNat := Nat.le_antisymm hnv hge
        exact ⟨_, by omega, Nat.le_refl _, by omega, (hnext v huv hcounting).2⟩
  obtain ⟨v, huv, hvn, hnv, hcounting⟩ := hlast
  exact ⟨_, by omega, by omega, (hnext v huv hcounting).1⟩

/-- **With refresh** the memory is refreshed again and again: not more than
    `TREFI_COUNT + 2 + ANSWER` cycles after any cycle, also after refresh had been disabled. -/
theorem refresh_again (R : Run P) (hP : P.Answers) {u : ℕ}
    (hstart : u = 0 ∨ ∃ t, t + 2 ≤ u ∧ ∀ k, t ≤ k → k < u → (R.inputs k).spRefreshDisable = true)
    (henable : ∀ k ≥ u, (R.inputs k).spRefreshDisable = false) (hun : u ≤ n)
    (hidle : (R.regs n).stateR ≠ .idle) :
    ∃ m, n < m ∧ m ≤ n + P.TREFI_COUNT.toNat + 2 + P.ANSWER ∧ (R.regs m).stateR = .autoRefresh := by
  obtain ⟨f, hnf, hf, hflag⟩ := exists_refFlagR hP (counting_zero hP hstart) henable hun
  have hauto : (R.regs (f + 1)).autoRefR = true := by
    rw [R.autoRefR_succ, hflag, Bool.true_or]
  obtain ⟨m, hfm, hm, hrefresh⟩ := refresh_within R hauto (not_idle hidle (by omega))
  exact ⟨m, by omega, by omega, hrefresh⟩

/-- The board, after refresh had been disabled for a while. -/
theorem refresh_again_board :
    let R := board true fun n => decide (10 ≤ n ∧ n < 1000)
    ∃ m, 2000 < m ∧ m ≤ 2000 + Params.board.TREFI_COUNT.toNat + 2 + Params.board.ANSWER ∧
      (R.regs m).stateR = .autoRefresh := by
  intro R
  refine refresh_again R Params.answers_board
    (Or.inr ⟨10, by decide, fun k h10 hk => decide_eq_true ⟨h10, hk⟩⟩) (u := 1000)
    (fun k hk => decide_eq_false fun h => absurd h.2 (Nat.not_lt.mpr hk)) (by decide) ?_
  exact not_idle (n := 2) (by rw [board_first]; decide) (by decide)

end Run

end ProbableCause.Ddr2.Controller
