import ProbableCause.Ddr2.StateMachine

/-!
# `Ddr2.Timers` — the counters of the controller in the next cycle

Each counter either is loaded or counts down. `Timer.step_tick` and `Timer.step_start` say so for
the counters of one command, `prechargeStep` for the one that three commands load, and `Burst.step`
for the bursts.

After a reset the burst counters have run out (`resetDone_of_reset`). A bank is not closed before
the burst in it has ended: the counter for `PRECHARGE` is never behind that of the burst
(`BurstFirst`).
-/

namespace ProbableCause.Ddr2.Controller

variable {P : Params} {s : Regs P} {i : Inputs P} {w : ℕ}

/-! ## One cycle of a counter -/

theorem Timer.step_tick (t : Timer w) (count : ℕ) :
    (t.step false false count false).cnt.toNat = t.cnt.toNat - 1 ∧
      ((t.step false false count false).ok = true ↔ t.ok = true ∨ t.cnt.toNat ≤ 3) := by
  refine ⟨toNat_countDown t.cnt, ?_⟩
  simp only [Timer.step, Bool.false_eq_true, if_false]
  split <;> simp_all

theorem Timer.step_start (t : Timer w) {count : ℕ} (hcount : count < 2 ^ w) (clear : Bool) :
    (t.step false true count clear).cnt.toNat = count ∧
      (clear = true → (t.step false true count clear).ok = false) := by
  refine ⟨?_, ?_⟩
  · simp only [Timer.step, Bool.false_eq_true, if_false, if_true, BitVec.toNat_ofNat]
    exact Nat.mod_eq_of_lt hcount
  · rintro rfl
    rfl

/-- The states that load the counter for `PRECHARGE`. -/
def State.loadsPrecharge (state : State) : Bool :=
  state == .burstRead || state == .burstWrite || state == .active

theorem prechargeStep_tick {state : State} (h : state.loadsPrecharge = false) (t : Timer 5) :
    (prechargeStep P state t).cnt.toNat = t.cnt.toNat - 1 ∧
      ((prechargeStep P state t).ok = true ↔ t.ok = true ∨ t.cnt.toNat ≤ 3) := by
  simp only [State.loadsPrecharge, Bool.or_eq_false_iff, beq_eq_false_iff_ne] at h
  obtain ⟨⟨hread, hwrite⟩, hactive⟩ := h
  simp only [prechargeStep, hread, hwrite, hactive, or_self, if_false]
  refine ⟨toNat_countDown t.cnt, ?_⟩
  split <;> simp_all

theorem prechargeStep_ok {state : State} (h : state.loadsPrecharge = true) (t : Timer 5) :
    (prechargeStep P state t).ok = false := by
  simp only [State.loadsPrecharge, Bool.or_eq_true, beq_iff_eq, or_assoc] at h
  exact if_pos h

theorem prechargeStep_write (h : P.TWR_COUNT < 2 ^ 5) (t : Timer 5) :
    (prechargeStep P .burstWrite t).cnt.toNat = P.TWR_COUNT := by
  simpa [prechargeStep] using Nat.mod_eq_of_lt h

theorem prechargeStep_active (h : P.TRAS_COUNT < 2 ^ 5) (t : Timer 5) :
    (prechargeStep P .active t).cnt.toNat = P.TRAS_COUNT := by
  simpa [prechargeStep] using Nat.mod_eq_of_lt h

theorem prechargeStep_read (h : P.TRTP_COUNT < 2 ^ 5) (t : Timer 5) :
    (prechargeStep P .burstRead t).cnt.toNat = max t.cnt.toNat P.TRTP_COUNT := by
  simp only [prechargeStep, if_true]
  split
  · rw [BitVec.toNat_ofNat, Nat.mod_eq_of_lt h]
    omega
  · omega

theorem Burst.step_tick (b : Burst) (rst : Bool) :
    (b.step P rst false).cnt.toNat = b.cnt.toNat - 1 ∧
      ((b.step P rst false).ok = true ↔ b.ok = true ∨ b.cnt.toNat ≤ 3 ∨ P.BURST_LEN_DIV2 ≤ 2) := by
  have hzero : b.cnt ≥ 1 ↔ b.cnt ≠ 0 := by
    generalize b.cnt = c
    revert c
    decide
  have hthree : b.cnt ≤ 3 ↔ b.cnt.toNat ≤ 3 := Iff.rfl
  refine ⟨?_, ?_⟩
  · simp only [Burst.step, Bool.false_eq_true, if_false, hzero]
    exact toNat_countDown b.cnt
  · simp only [Burst.step, Bool.false_and, Bool.false_eq_true, if_false, Bool.or_eq_true,
      decide_eq_true_eq, hthree]
    split <;> simp_all

theorem Burst.step_start (b : Burst) (rst : Bool) (h : P.BURST_LEN_DIV2 < 2 ^ 3) :
    (b.step P rst true).cnt.toNat = P.BURST_LEN_DIV2 := by
  simpa [Burst.step] using Nat.mod_eq_of_lt h

/-! ## The reset -/

/-- Without bursts the counter runs out. -/
theorem Burst.runs_out (b : ℕ → Burst) (rst : ℕ → Bool)
    (h : ∀ k < 8, b (k + 1) = (b k).step P (rst k) false) :
    (b 8).cnt = 0 ∧ (b 8).last = false := by
  have hcount : ∀ k ≤ 8, (b k).cnt.toNat ≤ 7 - k := by
    intro k
    induction k with
    | zero => exact fun _ => Nat.le_of_lt_succ (BitVec.isLt _)
    | succ k ih =>
      intro hk
      have hbefore := ih (by omega)
      rw [h k hk, (Burst.step_tick _ _).1]
      omega
  have hzero : ∀ k, 7 ≤ k → k ≤ 8 → (b k).cnt = 0 := by
    intro k h7 h8
    have := hcount k h8
    exact BitVec.eq_of_toNat_eq (show _ = 0 by omega)
  refine ⟨hzero 8 (by decide) (Nat.le_refl 8), ?_⟩
  rw [h 7 (by decide), Burst.step, hzero 7 (Nat.le_refl 7) (by decide)]
  rfl

/-- **The reset**: after ten cycles with `rst` and two without it, whatever the registers were. -/
theorem resetDone_of_reset (s : Regs P) (i : ℕ → Inputs P) (hrst : ∀ k < 10, (i k).rst = true)
    (h10 : (i 10).rst = false) (h11 : (i 11).rst = false) : ResetDone (Clocked.run step i s 12) := by
  have hrstR : ∀ k < 10, (Clocked.run step i s (k + 1)).ctrl.rstR = true := fun k hk => hrst k hk
  have hrstR1 : ∀ k < 10, (Clocked.run step i s (k + 2)).ctrl.rstR1 = true := fun k hk => hrstR k hk
  have hstate : ∀ k < 10, (Clocked.run step i s (k + 3)).stateR = .idle :=
    fun k hk => if_pos (hrstR1 k hk)
  have hflag : ∀ k < 10, (Clocked.run step i s (k + 3)).ctrl.rdAfFlagR = false :=
    fun k hk => if_pos (hrstR1 k hk)
  have hsm : ∀ k < 10, Ddr2.smRden
      ((i (k + 3)).ctrl (Clocked.run step i s (k + 3)).stateR) = false := by
    intro k hk
    rw [hstate k hk]
    rfl
  have hcnt : (Clocked.run step i s 12).autoCntR = 0 := by
    rw [Clocked.run_succ]
    exact if_pos (by rw [hrstR1 9 (by decide)]; rfl)
  have hrden : (Clocked.run step i s 12).ctrl.ctrlAfRdenR = false := by
    rw [Clocked.run_succ]
    show (Ddr2.ctrlAfRden _ _ && _) = false
    rw [Ddr2.ctrlAfRden, hsm 8 (by decide), hflag 8 (by decide)]
    rfl
  have hrefi : ∀ k < 10, (Clocked.run step i s (k + 3)).ctrl.refiCntR = 0 := by
    intro k hk
    rw [Clocked.run_succ]
    exact if_pos (by rw [hrstR1 k hk]; rfl)
  have hok : P.TREFI_COUNT ≠ 1 → ∀ k < 9, (Clocked.run step i s (k + 4)).ctrl.refiCntOkR = false := by
    intro hT k hk
    have hnot : ¬ ((Clocked.run step i s (k + 3)).ctrl.refiCntR.setWidth 32 = P.TREFI_COUNT - 1) := by
      rw [hrefi k (by omega)]
      intro hzero
      exact hT (by bv_omega)
    exact if_neg hnot
  have hrefFlag : P.TREFI_COUNT ≠ 1 → (Clocked.run step i s 12).ctrl.refFlagR = false := fun hT =>
    if_neg (Bool.not_eq_true _ ▸ hok hT 7 (by decide))
  have hburst : ∀ k < 8, (Clocked.run step i s (k + 1 + 4)).write =
      (Clocked.run step i s (k + 4)).write.step P (Clocked.run step i s (k + 4)).ctrl.rstR1 false ∧
        (Clocked.run step i s (k + 1 + 4)).read =
          (Clocked.run step i s (k + 4)).read.step P
            (Clocked.run step i s (k + 4)).ctrl.rstR1 false := by
    intro k hk
    have hidle : (Clocked.run step i s (k + 4)).stateR = .idle := hstate (k + 1) (by omega)
    rw [show k + 1 + 4 = k + 4 + 1 by omega, Clocked.run_succ, step, hidle]
    exact ⟨rfl, rfl⟩
  have hwrite := Burst.runs_out (fun k => (Clocked.run step i s (k + 4)).write) _ fun k hk =>
    (hburst k hk).1
  have hread := Burst.runs_out (fun k => (Clocked.run step i s (k + 4)).read) _ fun k hk =>
    (hburst k hk).2
  have hlast := hrstR1 9 (by decide)
  exact ⟨h11, h10, if_pos hlast, if_pos hlast, if_pos hlast, if_pos hlast, hsm 8 (by decide), hrden,
    hrefi 9 (by decide), fun hT => hok hT 8 (by decide), hrefFlag, if_pos hlast, hcnt,
    if_pos hlast, if_pos hlast, hwrite, hread, if_pos hlast, if_pos hlast⟩

/-! ## Bursts end before their bank is closed -/

theorem Params.burst_le_twr (P : Params) : P.BURST_LEN_DIV2 ≤ P.TWR_COUNT := Nat.le_add_left _ _

theorem Params.burst_le_trtp (P : Params) : P.BURST_LEN_DIV2 ≤ P.TRTP_COUNT := by
  have htwo : 2 ≤ max ((P.TRTP + P.CLK_PERIOD) / P.CLK_PERIOD) 2 := Nat.le_max_right _ _
  unfold Params.TRTP_COUNT
  omega

/-- The counter for `PRECHARGE` is not behind that of the burst. -/
structure BurstFirst (b : Burst) (t : Timer 5) : Prop where
  count : b.cnt.toNat ≤ t.cnt.toNat
  flag : t.ok = true → b.ok = true

theorem BurstFirst.tick {b : Burst} {state : State} {t : Timer 5} (h : BurstFirst b t)
    (hstate : state.loadsPrecharge = false) (rst : Bool) :
    BurstFirst (b.step P rst false) (prechargeStep P state t) := by
  obtain ⟨hcount, hok⟩ := b.step_tick (P := P) rst
  obtain ⟨hcount', hok'⟩ := prechargeStep_tick (P := P) hstate t
  refine ⟨?_, fun hset => ?_⟩
  · rw [hcount, hcount']
    exact Nat.sub_le_sub_right h.count 1
  · rw [hok]
    rcases hok'.mp hset with hflag | hlow
    · exact Or.inl (h.flag hflag)
    · exact Or.inr (Or.inl (Nat.le_trans h.count hlow))

theorem BurstFirst.write (hfits : P.Fits) (b : Burst) (rst : Bool) (t : Timer 5) :
    BurstFirst (b.step P rst true) (prechargeStep P .burstWrite t) where
  count := by
    rw [b.step_start rst hfits.burst, prechargeStep_write hfits.twr]
    exact P.burst_le_twr
  flag h := by
    rw [prechargeStep_ok rfl t] at h
    cases h

theorem BurstFirst.read (hfits : P.Fits) (b : Burst) (rst : Bool) (t : Timer 5) :
    BurstFirst (b.step P rst true) (prechargeStep P .burstRead t) where
  count := by
    rw [b.step_start rst hfits.burst, prechargeStep_read hfits.trtp]
    exact P.burst_le_trtp.trans (Nat.le_max_right _ _)
  flag h := by
    rw [prechargeStep_ok rfl t] at h
    cases h

namespace Run

variable (R : Run P) {n : ℕ}

theorem timers_succ (n : ℕ) :
    (R.regs (n + 1)).timers = (R.regs n).timers.step P false (R.regs n).stateR := by
  rw [regs_succ, step, R.rstR1 n]

theorem write_succ (n : ℕ) :
    (R.regs (n + 1)).write = (R.regs n).write.step P false ((R.regs n).stateR == .burstWrite) := by
  rw [regs_succ, step, R.rstR1 n]

theorem read_succ (n : ℕ) :
    (R.regs (n + 1)).read = (R.regs n).read.step P false ((R.regs n).stateR == .burstRead) := by
  rw [regs_succ, step, R.rstR1 n]

/-- After a burst the flag for `PRECHARGE` comes with or after that for the next burst. -/
theorem burstFirst (n : ℕ) :
    ((R.regs n).stateR = .writeWait → BurstFirst (R.regs n).write (R.regs n).timers.precharge) ∧
      ((R.regs n).stateR = .readWait → BurstFirst (R.regs n).read (R.regs n).timers.precharge) := by
  induction n with
  | zero =>
    have hidle : (R.regs 0).stateR = .idle := R.reset.stateR
    rw [hidle]
    exact ⟨fun h => (by cases h), fun h => (by cases h)⟩
  | succ n ih =>
    have hgo := R.goes n
    obtain ⟨hwrite, hread⟩ := ih
    rw [R.timers_succ, R.write_succ, R.read_succ]
    refine ⟨fun hstate => ?_, fun hstate => ?_⟩
    · rw [hstate] at hgo
      generalize (R.regs n).stateR = state at hgo hwrite
      cases hgo with
      | written => exact .write R.fits _ _ _
      | writeWait => exact (hwrite rfl).tick rfl _
    · rw [hstate] at hgo
      generalize (R.regs n).stateR = state at hgo hread
      cases hgo with
      | read => exact .read R.fits _ _ _
      | readWait => exact (hread rfl).tick rfl _

end Run

end ProbableCause.Ddr2.Controller
