import ProbableCause.Fpga.Hello
import ProbableCause.Lib.Bisection
import Mathlib.Algebra.Order.Field.Rat
import Mathlib.Tactic.Linarith
import Mathlib.Tactic.NormNum

/-!
# `Fpga.RangeSearch` — `hello-range.c`: the search for the decay time

After each period without refresh the program counts the half-words that have decayed and halves the
range of waiting times between `currentMinDelay` and `currentMaxDelay`, until the decay is close to
`DECAY_LIMIT` (`Done1`) or the range is narrower than three cycles (`Done2`).

`check` is one check, `varsAt` the variables before each of them for any sequence of fail counts.
The range is a bracket in the sense of `Lib.Bisection` (`loopInv_varsAt`), and it is halved by each
check, so that the search ends within `36` checks (`range_search`). The timed runs of `Fpga.Refresh`
go through the variables of such a sequence (`reachable_varsAt`).
-/

namespace ProbableCause.Fpga.HelloRange

open Bisection

/-! ## The fail count -/

/-- The body of the loop of `calculateDecayPercentile`. The words are `volatile`: each is read once
    for its low half and once for its high half. -/
def failStep (low high : Hello.Mem) (pExpectedValue : BitVec 32) (failCount index : ℕ) : ℕ :=
  let failCount := if (low index &&& 0xFFFF) != (pExpectedValue &&& 0xFFFF)
    then failCount + 1 else failCount
  if (high index &&& 0xFFFF0000) != (pExpectedValue &&& 0xFFFF0000) then failCount + 1 else failCount

/-- `failCount` after the loop. -/
def failCount (low high : Hello.Mem) (pExpectedValue : BitVec 32) : ℕ :=
  (List.range (NUM_WORDS_TO_CHECK * ADDRESS_INCREMENT)).foldl (failStep low high pExpectedValue) 0

/-- The decay for a fail count. -/
def decay (failCount : ℕ) : ℚ := failCount / total

def calculateDecayPercentile (low high : Hello.Mem) (pExpectedValue : BitVec 32) : ℚ :=
  decay (failCount low high pExpectedValue)

theorem total_pos : (0 : ℚ) < total := by norm_num [total, NUM_WORDS_TO_CHECK, ADDRESS_INCREMENT]

/-! ## One check -/

def DECAY_LIMIT : ℚ := 99 / 100
def MARGIN_OF_ERROR : ℚ := 1 / 1000

/-- The ends of the range of waiting times. -/
structure Range where
  currentMinDelay : BitVec 64
  currentMaxDelay : BitVec 64

/-- The message before the program returns. -/
inductive Done where
  | done1
  | done2

def Vars.range (vars : Vars) : Range := ⟨vars.currentMinDelay, vars.currentMaxDelay⟩

/-- The range after a check that is not within the margin. -/
def Vars.moved (vars : Vars) (decay : ℚ) : Range :=
  if decay < DECAY_LIMIT then ⟨vars.timeToWait, vars.currentMaxDelay⟩
    else ⟨vars.currentMinDelay, vars.timeToWait⟩

/-- The variables for the next check. -/
def Range.next (range : Range) : Vars :=
  ⟨range.currentMinDelay, range.currentMaxDelay, (range.currentMinDelay + range.currentMaxDelay) / 2⟩

/-- A check, with the decay it has found: the variables for the next one, or the message and the
range at the end. -/
def check (vars : Vars) (decay : ℚ) : Except (Done × Range) Vars :=
  if (if decay > DECAY_LIMIT then decay - DECAY_LIMIT else DECAY_LIMIT - decay) < MARGIN_OF_ERROR then
    .error (.done1, vars.range)
  else
    let range := vars.moved decay
    if range.currentMaxDelay - range.currentMinDelay < 3 then .error (.done2, range)
      else .ok range.next

/-- The variables before check `n`, if the program gets there, for the fail counts of the checks. -/
def varsAt (failCounts : ℕ → ℕ) : ℕ → Option Vars
  | 0 => some Vars.start
  | n + 1 => (varsAt failCounts n).bind fun vars => (check vars (decay (failCounts n))).toOption

/-- Before check `n` a waiting time has been tested with some decay. -/
def Tested (failCounts : ℕ → ℕ) (n time : ℕ) (d : ℚ) : Prop :=
  ∃ k < n, ∃ vars, varsAt failCounts k = some vars ∧ time = vars.timeToWait.toNat ∧
    d = decay (failCounts k)

variable {failCounts : ℕ → ℕ} {n : ℕ} {vars : Vars} {d : ℚ}

/-! ## The margin -/

/-- The decay is within the margin of the limit. -/
def Hit (d : ℚ) : Prop := |d - DECAY_LIMIT| < MARGIN_OF_ERROR

/-- Not enough has decayed. -/
def Low (d : ℚ) : Prop := d ≤ DECAY_LIMIT - MARGIN_OF_ERROR

/-- Too much has decayed. -/
def High (d : ℚ) : Prop := DECAY_LIMIT + MARGIN_OF_ERROR ≤ d

theorem hit_iff (d : ℚ) :
    (if d > DECAY_LIMIT then d - DECAY_LIMIT else DECAY_LIMIT - d) < MARGIN_OF_ERROR ↔ Hit d := by
  unfold Hit
  split
  next hgt => rw [abs_of_pos (sub_pos.mpr hgt)]
  next hle => rw [abs_of_nonpos (sub_nonpos.mpr (not_lt.mp hle)), neg_sub]

theorem Hit.not_low (h : Hit d) : ¬ Low d := by
  intro hlow
  unfold Low at hlow
  have hlt := (abs_lt.mp h).1
  linarith

theorem Hit.not_high (h : Hit d) : ¬ High d := by
  intro hhigh
  unfold High at hhigh
  have hlt := (abs_lt.mp h).2
  linarith

/-- Outside the margin the comparison with the limit says on which side. -/
theorem low_of_lt (h : ¬ Hit d) (hlt : d < DECAY_LIMIT) : Low d := by
  unfold Hit at h
  rw [abs_of_neg (sub_neg.mpr hlt), not_lt] at h
  unfold Low
  linarith

theorem high_of_ge (h : ¬ Hit d) (hge : ¬ d < DECAY_LIMIT) : High d := by
  unfold Hit at h
  rw [abs_of_nonneg (sub_nonneg.mpr (not_lt.mp hge)), not_lt] at h
  unfold High
  linarith

theorem decay_lt_iff (failCount : ℕ) :
    decay failCount < DECAY_LIMIT ↔ failCount * 100 < 99 * total := by
  rw [decay, DECAY_LIMIT, div_lt_div_iff₀ total_pos (by norm_num)]
  exact_mod_cast Iff.rfl

/-- The margin without fractions. -/
theorem withinMargin_iff (failCount : ℕ) : withinMargin failCount = true ↔ Hit (decay failCount) := by
  have hupper : decay failCount < 991 / 1000 ↔ failCount * 1000 < 991 * total := by
    rw [decay, div_lt_div_iff₀ total_pos (by norm_num)]
    exact_mod_cast Iff.rfl
  have hlower : 989 / 1000 < decay failCount ↔ 989 * total < failCount * 1000 := by
    rw [decay, div_lt_div_iff₀ (by norm_num) total_pos]
    exact_mod_cast Iff.rfl
  rw [withinMargin, decide_eq_true_iff, ← hupper, ← hlower, Hit, DECAY_LIMIT, MARGIN_OF_ERROR, abs_lt]
  constructor
  · rintro ⟨hu, hl⟩
    constructor <;> linarith
  · rintro ⟨hl, hu⟩
    constructor <;> linarith

/-! ## What a check does -/

/-- **All that a check can do.** -/
theorem check_cases (vars : Vars) (d : ℚ) :
    (Hit d ∧ check vars d = .error (.done1, vars.range)) ∨
      ¬ Hit d ∧ ((vars.moved d).currentMaxDelay - (vars.moved d).currentMinDelay < 3 ∧
          check vars d = .error (.done2, vars.moved d) ∨
        ¬ (vars.moved d).currentMaxDelay - (vars.moved d).currentMinDelay < 3 ∧
          check vars d = .ok (vars.moved d).next) := by
  by_cases hhit : Hit d
  · exact Or.inl ⟨hhit, if_pos ((hit_iff d).mpr hhit)⟩
  · have hcheck : check vars d =
      if (vars.moved d).currentMaxDelay - (vars.moved d).currentMinDelay < 3
        then .error (.done2, vars.moved d) else .ok (vars.moved d).next :=
      if_neg fun h => hhit ((hit_iff d).mp h)
    refine Or.inr ⟨hhit, ?_⟩
    by_cases hnarrow : (vars.moved d).currentMaxDelay - (vars.moved d).currentMinDelay < 3
    · exact Or.inl ⟨hnarrow, by rw [hcheck, if_pos hnarrow]⟩
    · exact Or.inr ⟨hnarrow, by rw [hcheck, if_neg hnarrow]⟩

/-- The check of `Fpga.Refresh`, which keeps the variables only. -/
theorem next_eq_check (vars : Vars) (failCount : ℕ) :
    program.next vars failCount = (check vars (decay failCount)).toOption := by
  have hmoved : vars.moved (decay failCount) =
      ⟨if failCount * 100 < 99 * total then vars.timeToWait else vars.currentMinDelay,
        if failCount * 100 < 99 * total then vars.currentMaxDelay else vars.timeToWait⟩ := by
    unfold Vars.moved
    by_cases hlt : decay failCount < DECAY_LIMIT
    · rw [if_pos hlt, if_pos ((decay_lt_iff failCount).mp hlt),
        if_pos ((decay_lt_iff failCount).mp hlt)]
    · rw [if_neg hlt, if_neg fun h => hlt ((decay_lt_iff failCount).mpr h),
        if_neg fun h => hlt ((decay_lt_iff failCount).mpr h)]
  have hnext : program.next vars failCount =
      if withinMargin failCount = true then none
      else if (vars.moved (decay failCount)).currentMaxDelay -
        (vars.moved (decay failCount)).currentMinDelay < 3
        then none else some (vars.moved (decay failCount)).next := by
    rw [hmoved]
    rfl
  rw [hnext]
  obtain ⟨hhit, hcheck⟩ | ⟨hmiss, ⟨hnarrow, hcheck⟩ | ⟨hwide, hcheck⟩⟩ :=
    check_cases vars (decay failCount)
  · rw [if_pos ((withinMargin_iff failCount).mpr hhit), hcheck]
    rfl
  · rw [if_neg fun h => hmiss ((withinMargin_iff failCount).mp h), if_pos hnarrow, hcheck]
    rfl
  · rw [if_neg fun h => hmiss ((withinMargin_iff failCount).mp h), if_neg hwide, hcheck]
    rfl

/-! ## The range -/

/-- The range lies in the first one and is not empty. -/
structure Range.Inside (range : Range) : Prop where
  min_le : TIME_MIN.toNat ≤ range.currentMinDelay.toNat
  lt : range.currentMinDelay.toNat < range.currentMaxDelay.toNat
  le_max : range.currentMaxDelay.toNat ≤ TIME_MAX.toNat

/-- The variables before a check: the range is worth another one, and the time to wait is in its
middle. -/
structure Vars.Open (vars : Vars) : Prop where
  inside : vars.range.Inside
  wide : vars.currentMinDelay.toNat + 3 ≤ vars.currentMaxDelay.toNat
  middle : vars.timeToWait.toNat = (vars.currentMinDelay.toNat + vars.currentMaxDelay.toNat) / 2

/-- What is left to halve. -/
def Range.width (range : Range) : ℕ := range.currentMaxDelay.toNat - range.currentMinDelay.toNat - 1

/-- Half the sum does not overflow. -/
theorem Range.Inside.toNat_middle {range : Range} (h : range.Inside) :
    range.next.timeToWait.toNat =
      (range.currentMinDelay.toNat + range.currentMaxDelay.toNat) / 2 := by
  have hmax : TIME_MAX.toNat < 2 ^ 63 := by decide
  have hlt := h.lt
  have hle := h.le_max
  have htwo : (2 : BitVec 64).toNat = 2 := rfl
  rw [Range.next, BitVec.toNat_udiv, BitVec.toNat_add, Nat.mod_eq_of_lt (by omega), htwo]

/-- The width that the program compares with `3`. -/
theorem Range.Inside.narrow_iff {range : Range} (h : range.Inside) :
    range.currentMaxDelay - range.currentMinDelay < 3 ↔
      range.currentMaxDelay.toNat < range.currentMinDelay.toNat + 3 := by
  have hlt := h.lt
  have hmax := range.currentMaxDelay.isLt
  have hthree : (3 : BitVec 64).toNat = 3 := rfl
  rw [BitVec.lt_def, BitVec.toNat_sub, hthree]
  omega

theorem Range.Inside.open_next {range : Range} (h : range.Inside)
    (hwide : ¬ range.currentMaxDelay - range.currentMinDelay < 3) : range.next.Open where
  inside := h
  wide := by
    rw [h.narrow_iff] at hwide
    exact Nat.le_of_not_lt hwide
  middle := h.toNat_middle

theorem open_start : Vars.start.Open where
  inside := ⟨Nat.le_refl _, by decide, Nat.le_refl _⟩
  wide := by decide
  middle := by decide

/-- **The time to wait** is strictly inside the range. -/
theorem Vars.Open.lt_timeToWait (h : vars.Open) :
    vars.currentMinDelay.toNat < vars.timeToWait.toNat := by
  have hwide := h.wide
  rw [h.middle]
  omega

theorem Vars.Open.timeToWait_lt (h : vars.Open) :
    vars.timeToWait.toNat < vars.currentMaxDelay.toNat := by
  have hwide := h.wide
  rw [h.middle]
  omega

theorem Vars.Open.moved_inside (h : vars.Open) (d : ℚ) : (vars.moved d).Inside := by
  have hlow := h.lt_timeToWait
  have hhigh := h.timeToWait_lt
  unfold Vars.moved
  split
  · exact ⟨Nat.le_trans h.inside.min_le (Nat.le_of_lt hlow), hhigh, h.inside.le_max⟩
  · exact ⟨h.inside.min_le, hlow, Nat.le_trans (Nat.le_of_lt hhigh) h.inside.le_max⟩

/-- **A check halves the range.** -/
theorem Vars.Open.moved_width (h : vars.Open) (d : ℚ) :
    (vars.moved d).width ≤ vars.range.width / 2 := by
  have hmiddle := h.middle
  unfold Vars.moved Vars.range Range.width
  split
  · dsimp only
    omega
  · dsimp only
    omega

/-! ## The bracket -/

/-- What is known of the ends of the range before check `n`. -/
abbrev EndsAt (failCounts : ℕ → ℕ) (n : ℕ) (range : Range) : Prop :=
  Ends (Tested failCounts n) Low High TIME_MIN.toNat TIME_MAX.toNat range.currentMinDelay.toNat
    range.currentMaxDelay.toNat

abbrev BracketAt (failCounts : ℕ → ℕ) (n : ℕ) (range : Range) : Prop :=
  Bracket (Tested failCounts n) Low High TIME_MIN.toNat TIME_MAX.toNat range.currentMinDelay.toNat
    range.currentMaxDelay.toNat

theorem tested_zero (time : ℕ) (d : ℚ) : ¬ Tested failCounts 0 time d := by
  rintro ⟨k, hk, -⟩
  exact Nat.not_lt_zero k hk

theorem tested_succ (hvars : varsAt failCounts n = some vars) :
    Tested failCounts (n + 1) = After (Tested failCounts n) vars.timeToWait.toNat
      (decay (failCounts n)) := by
  funext time d
  apply propext
  constructor
  · rintro ⟨k, hk, vars', hvars', htime, hd⟩
    rcases Nat.lt_succ_iff_lt_or_eq.mp hk with hlt | rfl
    · exact Or.inl ⟨k, hlt, vars', hvars', htime, hd⟩
    · obtain rfl := Option.some.inj (hvars.symm.trans hvars')
      exact Or.inr ⟨htime, hd⟩
  · rintro (⟨k, hk, htested⟩ | ⟨htime, hd⟩)
    · exact ⟨k, Nat.lt_succ_of_lt hk, htested⟩
    · exact ⟨n, Nat.lt_succ_self n, vars, hvars, htime, hd⟩

/-- A check outside the margin keeps the bracket. -/
theorem bracketAt_moved (hvars : varsAt failCounts n = some vars) (hopen : vars.Open)
    (h : BracketAt failCounts n vars.range) (hmiss : ¬ Hit (decay (failCounts n))) :
    BracketAt failCounts (n + 1) (vars.moved (decay (failCounts n))) := by
  rw [BracketAt, tested_succ hvars]
  unfold Vars.moved
  split
  next hlt => exact h.raise hopen.lt_timeToWait hopen.timeToWait_lt (low_of_lt hmiss hlt)
  next hge => exact h.cut hopen.lt_timeToWait hopen.timeToWait_lt (high_of_ge hmiss hge)

/-! ## The search -/

/-- **The loop invariant** before check `n`. -/
structure LoopInv (failCounts : ℕ → ℕ) (n : ℕ) (vars : Vars) : Prop where
  isOpen : vars.Open
  bracket : BracketAt failCounts n vars.range
  halved : vars.range.width ≤ Vars.start.range.width / 2 ^ n

theorem LoopInv.next {vars' : Vars} (h : LoopInv failCounts n vars)
    (hvars : varsAt failCounts n = some vars)
    (hcheck : check vars (decay (failCounts n)) = .ok vars') : LoopInv failCounts (n + 1) vars' := by
  obtain ⟨-, hstop⟩ | ⟨hmiss, ⟨-, hstop⟩ | ⟨hwide, hgo⟩⟩ := check_cases vars (decay (failCounts n))
  · rw [hstop] at hcheck
    cases hcheck
  · rw [hstop] at hcheck
    cases hcheck
  · rw [hgo] at hcheck
    obtain rfl := Except.ok.inj hcheck
    exact ⟨(h.isOpen.moved_inside _).open_next hwide, bracketAt_moved hvars h.isOpen h.bracket hmiss,
      Bisection.halved (h.isOpen.moved_width _) h.halved⟩

theorem toOption_eq_some {ε α : Type} {r : Except ε α} {a : α} (h : r.toOption = some a) :
    r = .ok a := by
  cases r with
  | error e => cases h
  | ok b => exact congrArg Except.ok (Option.some.inj h)

theorem loopInv_varsAt (hvars : varsAt failCounts n = some vars) : LoopInv failCounts n vars := by
  induction n generalizing vars with
  | zero =>
    obtain rfl := Option.some.inj hvars
    exact ⟨open_start, .start tested_zero (by decide), by rw [Nat.pow_zero, Nat.div_one]⟩
  | succ n ih =>
    obtain ⟨before, hbefore, hcheck⟩ := Option.bind_eq_some_iff.mp hvars
    exact (ih hbefore).next hbefore (toOption_eq_some hcheck)

/-- The program gets to check `n`, or has returned before it. -/
theorem returned_or_varsAt (failCounts : ℕ → ℕ) (n : ℕ) :
    (∃ k < n, ∃ vars r, varsAt failCounts k = some vars ∧
      check vars (decay (failCounts k)) = .error r) ∨ ∃ vars, varsAt failCounts n = some vars := by
  induction n with
  | zero => exact Or.inr ⟨_, rfl⟩
  | succ n ih =>
    obtain ⟨k, hk, hreturned⟩ | ⟨vars, hvars⟩ := ih
    · exact Or.inl ⟨k, Nat.lt_succ_of_lt hk, hreturned⟩
    · cases hcheck : check vars (decay (failCounts n)) with
      | error r => exact Or.inl ⟨n, Nat.lt_succ_self n, vars, r, hvars, hcheck⟩
      | ok vars' =>
        refine Or.inr ⟨vars', ?_⟩
        rw [varsAt, hvars, Option.bind_some, hcheck]
        rfl

/-- There are at most `36` checks. -/
theorem LoopInv.lt (h : LoopInv failCounts n vars) : n < 36 := by
  have hwide := h.isOpen.wide
  have htwo : 2 ≤ vars.range.width := by
    unfold Range.width Vars.range
    dsimp only
    omega
  have hhalf := Bisection.halved (Nat.le_refl (vars.range.width / 2)) h.halved
  have hn : n + 1 < 37 := rounds_lt (Nat.div_pos htwo (by decide)) hhalf (by decide)
  exact Nat.lt_of_succ_lt_succ hn

/-- **How a search ends** with check `n`. -/
structure Ended (failCounts : ℕ → ℕ) (n : ℕ) (done : Done) (range : Range) : Prop where
  ends : EndsAt failCounts (n + 1) range
  inside : range.Inside
  hit : done = .done1 → |decay (failCounts n) - DECAY_LIMIT| < MARGIN_OF_ERROR
  narrow : done = .done2 → range.currentMaxDelay.toNat - range.currentMinDelay.toNat < 3

theorem LoopInv.ended {done : Done} {range : Range} (h : LoopInv failCounts n vars)
    (hvars : varsAt failCounts n = some vars)
    (hcheck : check vars (decay (failCounts n)) = .error (done, range)) :
    Ended failCounts n done range := by
  obtain ⟨hhit, hstop⟩ | ⟨hmiss, ⟨hnarrow, hstop⟩ | ⟨-, hgo⟩⟩ :=
    check_cases vars (decay (failCounts n))
  · -- `Done1`: the last waiting time is strictly inside the range
    rw [hstop] at hcheck
    obtain ⟨rfl, rfl⟩ := Prod.mk.inj (Except.error.inj hcheck)
    refine ⟨?_, h.isOpen.inside, fun _ => hhit, fun hdone => by cases hdone⟩
    rw [EndsAt, tested_succ hvars]
    exact h.bracket.stop h.isOpen.lt_timeToWait h.isOpen.timeToWait_lt _
  · rw [hstop] at hcheck
    obtain ⟨rfl, rfl⟩ := Prod.mk.inj (Except.error.inj hcheck)
    have hinside := h.isOpen.moved_inside (decay (failCounts n))
    have hbracket := bracketAt_moved hvars h.isOpen h.bracket hmiss
    refine ⟨hbracket.toEnds, hinside, (fun hdone => by cases hdone), fun _ => ?_⟩
    have hlt := hinside.narrow_iff.mp hnarrow
    omega
  · rw [hgo] at hcheck
    cases hcheck

/-- **What the search has not excluded**, for a decay that does not decrease with the waiting time. -/
theorem Ended.inside_or_untested {done : Done} {range : Range}
    (h : Ended failCounts n done range) {f : ℕ → ℚ}
    (hmono : MonotoneOn f (Set.Icc TIME_MIN.toNat TIME_MAX.toNat))
    (hf : ∀ k vars, varsAt failCounts k = some vars →
      decay (failCounts k) = f vars.timeToWait.toNat) {time : ℕ} (htime :
        time ∈ Set.Icc TIME_MIN.toNat TIME_MAX.toNat) (hhit : Hit (f time)) :
    range.currentMinDelay.toNat < time ∧ time < range.currentMaxDelay.toNat ∨
      (time = range.currentMinDelay.toNat ∨ time = range.currentMaxDelay.toNat) ∧
        ∀ d, ¬ Tested failCounts (n + 1) time d := by
  have hlt := Nat.le_of_lt h.inside.lt
  apply h.ends.inside hmono ?_ ⟨h.inside.min_le, Nat.le_trans hlt h.inside.le_max⟩
    ⟨Nat.le_trans h.inside.min_le hlt, h.inside.le_max⟩ (fun b c hle hlow => le_trans hle hlow)
    (fun b c hle hhigh => le_trans hhigh hle) htime hhit.not_low hhit.not_high
  rintro x d ⟨k, -, vars, hvars, rfl, rfl⟩
  exact hf k vars hvars

/-- **The search is a correct bisection**, for every sequence of fail counts. Every waiting time is
    strictly inside the range, and the ends that have been tested lie on their side; there are at
    most `36` checks, and the last one is within the margin or leaves a range narrower than three
    cycles; and if the decay does not decrease with the waiting time, a waiting time within the
    margin lies strictly inside this range or is an end that has not been tested. -/
theorem range_search (failCounts : ℕ → ℕ) :
    (∀ n vars, varsAt failCounts n = some vars →
      (vars.currentMinDelay < vars.timeToWait ∧ vars.timeToWait < vars.currentMaxDelay) ∧
        EndsAt failCounts n vars.range) ∧
    ∃ n < 36, ∃ vars done range, varsAt failCounts n = some vars ∧
      check vars (decay (failCounts n)) = .error (done, range) ∧ Ended failCounts n done range ∧
      ∀ f : ℕ → ℚ, MonotoneOn f (Set.Icc TIME_MIN.toNat TIME_MAX.toNat) →
        (∀ k vars, varsAt failCounts k = some vars → decay (failCounts k) = f vars.timeToWait.toNat) →
        ∀ time ∈ Set.Icc TIME_MIN.toNat TIME_MAX.toNat, |f time - DECAY_LIMIT| < MARGIN_OF_ERROR →
          range.currentMinDelay.toNat < time ∧ time < range.currentMaxDelay.toNat ∨
            (time = range.currentMinDelay.toNat ∨ time = range.currentMaxDelay.toNat) ∧
              ∀ d, ¬ Tested failCounts (n + 1) time d := by
  constructor
  · intro n vars hvars
    have hinv := loopInv_varsAt hvars
    exact ⟨⟨hinv.isOpen.lt_timeToWait, hinv.isOpen.timeToWait_lt⟩, hinv.bracket.toEnds⟩
  · obtain ⟨n, hn, vars, ⟨done, range⟩, hvars, hcheck⟩ | ⟨vars, hvars⟩ :=
      returned_or_varsAt failCounts 36
    · have hended := (loopInv_varsAt hvars).ended hvars hcheck
      refine ⟨n, hn, vars, done, range, hvars, hcheck, hended, fun f hmono hf time htime hhit => ?_⟩
      exact hended.inside_or_untested hmono hf htime hhit
    · exact absurd (loopInv_varsAt hvars).lt (Nat.lt_irrefl 36)

/-- Where nothing fails all `36` checks are made. -/
example : (varsAt (fun _ => 0) 35).isSome = true := by decide +kernel

/-! ## The timed runs -/

theorem varsAt_congr {failCounts' : ℕ → ℕ} (h : ∀ k < n, failCounts k = failCounts' k) :
    varsAt failCounts n = varsAt failCounts' n := by
  induction n with
  | zero => rfl
  | succ n ih =>
    rw [varsAt, varsAt, ih fun k hk => h k (Nat.lt_succ_of_lt hk), h n (Nat.lt_succ_self n)]

/-- Fail counts with another one for check `n`. -/
theorem varsAt_update (failCounts : ℕ → ℕ) (n failCount : ℕ) :
    varsAt (Function.update failCounts n failCount) n = varsAt failCounts n :=
  varsAt_congr fun _ hk => Function.update_of_ne (Nat.ne_of_lt hk) _ _

/-- The checks of a run so far, and the variables, are those of a search. -/
structure Follows (failCounts : ℕ → ℕ) (s : State Vars) : Prop where
  running : s.returned = false → varsAt failCounts s.periods.length = some s.vars
  returned : s.returned = true → ∃ n, s.periods.length = n + 1 ∧ varsAt failCounts n = some s.vars ∧
    ∃ r, check s.vars (decay (failCounts n)) = .error r

theorem Follows.step {s s' : State Vars} (h : Follows failCounts s) (hstep : Step program s s') :
    ∃ failCounts', Follows failCounts' s' := by
  cases hstep with
  | wait poll hrunning _ _ =>
    exact ⟨failCounts, fun _ => h.running hrunning,
      fun hreturned => absurd (hrunning.symm.trans hreturned) (by simp)⟩
  | again check on failCount vars set off hrunning _ _ _ hnext _ _ =>
    refine ⟨Function.update failCounts s.periods.length failCount, fun _ => ?_,
      fun hreturned => by cases hreturned⟩
    rw [List.length_append, List.length_singleton, varsAt, varsAt_update, h.running hrunning,
      Option.bind_some, Function.update_self, ← next_eq_check]
    exact hnext
  | stop check on failCount hrunning _ _ _ hnext =>
    refine ⟨Function.update failCounts s.periods.length failCount,
      (fun hreturned => by cases hreturned), fun _ => ?_⟩
    refine ⟨s.periods.length, List.length_append, ?_, ?_⟩
    · rw [varsAt_update]
      exact h.running hrunning
    · rw [next_eq_check] at hnext
      rw [Function.update_self]
      cases hcheck : HelloRange.check s.vars (decay failCount) with
      | error r => exact ⟨r, rfl⟩
      | ok vars =>
        rw [hcheck] at hnext
        cases hnext

theorem Follows.length_le {s : State Vars} (h : Follows failCounts s) : s.periods.length ≤ 36 := by
  cases hreturned : s.returned with
  | false => exact Nat.le_of_lt (loopInv_varsAt (h.running hreturned)).lt
  | true =>
    obtain ⟨n, hlength, hvars, -⟩ := h.returned hreturned
    rw [hlength]
    exact (loopInv_varsAt hvars).lt

/-- **Every timed run goes through the checks of a search**, and never has more than `36` periods
without refresh. -/
theorem reachable_varsAt {s : State Vars} (h : Reachable program Vars.start s) :
    (∃ failCounts, Follows failCounts s) ∧ s.periods.length ≤ 36 := by
  have hfollows : ∃ failCounts, Follows failCounts s := by
    induction h with
    | start off set hset => exact ⟨fun _ => 0, fun _ => rfl, fun hreturned => by cases hreturned⟩
    | step _ hstep ih =>
      obtain ⟨failCounts, hfollows⟩ := ih
      exact hfollows.step hstep
  exact ⟨hfollows, hfollows.elim fun _ hfollows => hfollows.length_le⟩

end ProbableCause.Fpga.HelloRange
