import ProbableCause.Ddr2.Timing

/-!
# `Ddr2.Bursts` — the data paths are enabled for the bursts

A write opens the data path to the memory for `BURST_LEN / 2` cycles with `ctrl_wren`, from the
cycle after it on, and a read the one from the memory with `ctrl_rden`. `Phase` says where the
counter of a burst is. Since bursts are apart the enables are high in these cycles and in no others,
and never both at once (`enables_eq`).
-/

namespace ProbableCause.Ddr2.Controller

open Countdown

variable {P : Params} {E : ℕ → Prop} {b : Burst} {k n : ℕ}

/-- **The counter of a burst in cycle `k`**, if `E` are its commands. -/
inductive Burst.Phase (P : Params) (E : ℕ → Prop) (b : Burst) (k : ℕ) : Prop where
  | quiet (hover : ∀ s < k, E s → s + P.BURST_LEN_DIV2 < k) (hcnt : b.cnt.toNat = 0)
      (hlast : b.last = false)
      (henable : b.enable = false)
  | running (s : ℕ) (hs : E s) (hsk : s < k) (hks : k ≤ s + P.BURST_LEN_DIV2)
      (hcnt : b.cnt.toNat = s + P.BURST_LEN_DIV2 + 1 - k) (hlast : b.last = true ↔
        k = s + P.BURST_LEN_DIV2)
      (henable : b.enable = true)

theorem Burst.last_step (b : Burst) (rst start : Bool) :
    (b.step P rst start).last = true ↔ b.cnt.toNat = 2 := by
  rw [Burst.step, beq_iff_eq, ← BitVec.toNat_inj]
  rfl

/-- A cycle with a command. -/
theorem Burst.Phase.start (hfits : P.Fits) (h : b.Phase P E k) (hE : E k)
    (helapsed : Elapsed E P.BURST_LEN_DIV2 k) :
    (b.step P false true).Phase P E (k + 1) := by
  have htwo := hfits.two_le_burst
  have hcnt : b.cnt.toNat ≠ 2 := by
    cases h with
    | quiet _ hcnt => omega
    | running s hs hsk hks hcnt =>
      have := helapsed s hsk hs
      omega
  refine .running k hE (Nat.lt_succ_self k) (by omega) ?_ ?_ rfl
  · rw [b.step_start false hfits.burst]
    omega
  · rw [b.last_step]
    omega

/-- A cycle without one. -/
theorem Burst.Phase.tick (hfits : P.Fits) (h : b.Phase P E k) (hE : ¬ E k)
    (hapart : ∀ s t, s < t → E s → E t → s + P.BURST_LEN_DIV2 ≤ t) :
      (b.step P false false).Phase P E (k + 1) := by
  have htwo := hfits.two_le_burst
  have hcnt' := (b.step_tick (P := P) false).1
  have hbefore : ∀ s < k + 1, E s → s < k := fun s hs hEs =>
    (Nat.lt_succ_iff_lt_or_eq.mp hs).resolve_right fun he => hE (he ▸ hEs)
  have henable' : (b.step P false false).enable = (if b.last then false else b.enable) := rfl
  cases h with
  | quiet hover hcnt hlast henable =>
    refine .quiet (fun s hs hEs => Nat.lt_succ_of_lt (hover s (hbefore s hs hEs) hEs))
      (by omega) ?_ ?_
    · rw [← Bool.not_eq_true, b.last_step]
      omega
    · rw [henable', hlast, henable]
      rfl
  | running s hs hsk hks hcnt hlast henable =>
    by_cases hend : k = s + P.BURST_LEN_DIV2
    · refine .quiet (fun t ht hEt => ?_) (by omega) ?_ ?_
      · -- the last command was that of `s`
        rcases Nat.lt_trichotomy s t with hlt | rfl | hgt
        · have := hapart s t hlt hs hEt
          have := hbefore t ht hEt
          omega
        · omega
        · have := hapart t s hgt hEt hs
          omega
      · rw [← Bool.not_eq_true, b.last_step]
        omega
      · rw [henable', hlast.mpr hend]
        rfl
    · refine .running s hs (by omega) (by omega) (by omega) ?_ ?_
      · rw [b.last_step]
        omega
      · rw [henable', Bool.eq_false_of_not_eq_true fun h => hend (hlast.mp h), henable]
        rfl

/-- The enable in the two phases. -/
theorem Burst.Phase.enable_iff (h : b.Phase P E k) :
    b.enable = true ↔ ∃ s < k, E s ∧ k ≤ s + P.BURST_LEN_DIV2 := by
  cases h with
  | quiet hover _ _ henable =>
    rw [henable]
    refine iff_of_false Bool.false_ne_true ?_
    rintro ⟨s, hs, hEs, hks⟩
    exact absurd (hover s hs hEs) (Nat.not_lt.mpr hks)
  | running s hs hsk hks _ _ henable => exact iff_of_true henable ⟨s, hsk, hs, hks⟩

namespace Run

variable (R : Run P)

/-- Bursts of one kind are apart. -/
theorem bursts_apart (hapart : P.Apart) {s t : ℕ} (hst : s < t) :
    (R.In .burstWrite s → R.In .burstWrite t → s + P.BURST_LEN_DIV2 ≤ t) ∧
      (R.In .burstRead s → R.In .burstRead t → s + P.BURST_LEN_DIV2 ≤ t) ∧
      (R.In .burstWrite s → R.In .burstRead t → s + P.TWTR_COUNT ≤ t) ∧
      (R.In .burstRead s → R.In .burstWrite t → s + P.TRTW_COUNT ≤ t) := by
  have hwaited := (R.waited hapart t).1
  refine ⟨fun hs ht => ?_, fun hs ht => ?_, fun hs ht => ?_, fun hs ht => ?_⟩ <;> rw [ht] at hwaited
  · exact hwaited.2.1 s hst hs
  · exact hwaited.2.1 s hst hs
  · exact hwaited.2.2 s hst hs
  · exact hwaited.2.2 s hst hs

theorem write_phase (hapart : P.Apart) (n : ℕ) : (R.regs n).write.Phase P (R.In .burstWrite) n := by
  induction n with
  | zero =>
    refine .quiet (fun s hs => absurd hs (Nat.not_lt_zero s)) ?_ R.reset.wrburst.2 R.reset.wren
    rw [show (R.regs 0).write.cnt = 0 from R.reset.wrburst.1]
    rfl
  | succ n ih =>
    rw [R.write_succ]
    by_cases hin : R.In .burstWrite n
    · rw [(R.beq_iff_in .burstWrite n).mpr hin]
      exact ih.start R.fits hin fun s hs hE => (R.bursts_apart hapart hs).1 hE hin
    · rw [Bool.eq_false_of_not_eq_true fun h => hin ((R.beq_iff_in .burstWrite n).mp h)]
      exact ih.tick R.fits hin fun s t hst => (R.bursts_apart hapart hst).1

theorem read_phase (hapart : P.Apart) (n : ℕ) : (R.regs n).read.Phase P (R.In .burstRead) n := by
  induction n with
  | zero =>
    refine .quiet (fun s hs => absurd hs (Nat.not_lt_zero s)) ?_ R.reset.rdburst.2 R.reset.rden
    rw [show (R.regs 0).read.cnt = 0 from R.reset.rdburst.1]
    rfl
  | succ n ih =>
    rw [R.read_succ]
    by_cases hin : R.In .burstRead n
    · rw [(R.beq_iff_in .burstRead n).mpr hin]
      exact ih.start R.fits hin fun s hs hE => (R.bursts_apart hapart hs).2.1 hE hin
    · rw [Bool.eq_false_of_not_eq_true fun h => hin ((R.beq_iff_in .burstRead n).mp h)]
      exact ih.tick R.fits hin fun s t hst => (R.bursts_apart hapart hst).2.1

/-- **The enables** are high in the `BURST_LEN / 2` cycles after a write or a read and in no others,
and never both. -/
theorem enables_eq (hapart : P.Apart) (n : ℕ) :
    ((R.regs n).write.enable = true ↔
      ∃ s < n, (R.regs s).stateR = .burstWrite ∧ n ≤ s + P.BURST_LEN_DIV2) ∧
      ((R.regs n).read.enable = true ↔
        ∃ s < n, (R.regs s).stateR = .burstRead ∧ n ≤ s + P.BURST_LEN_DIV2) ∧
          ¬ ((R.regs n).write.enable = true ∧ (R.regs n).read.enable = true) := by
  have hwrite := (R.write_phase hapart n).enable_iff
  have hread := (R.read_phase hapart n).enable_iff
  refine ⟨hwrite, hread, ?_⟩
  rw [hwrite, hread]
  rintro ⟨⟨s, hsn, hs, hns⟩, t, htn, ht, hnt⟩
  have hwtr : P.BURST_LEN_DIV2 ≤ P.TWTR_COUNT := Nat.le_add_left _ _
  have hrtw : P.BURST_LEN_DIV2 ≤ P.TRTW_COUNT := Nat.le_add_right _ _
  rcases Nat.lt_trichotomy s t with hlt | rfl | hgt
  · have := (R.bursts_apart hapart hlt).2.2.1 hs ht
    omega
  · rw [In, hs] at ht
    cases ht
  · have := (R.bursts_apart hapart hgt).2.2.2 ht hs
    omega

/-- Writes and reads in turn, on the board. -/
theorem enables_eq_board : ¬ (((board true fun _ => false).regs 100).write.enable = true ∧
    ((board true fun _ => false).regs 100).read.enable = true) :=
  ((board true fun _ => false).enables_eq Params.apart_board 100).2.2

end Run

end ProbableCause.Ddr2.Controller
