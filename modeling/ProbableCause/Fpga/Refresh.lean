import ProbableCause.Fpga.Clock
import Mathlib.Logic.Relation

/-!
# `Fpga.Refresh` — `hello.c` and `hello-range.c`: the periods without refresh

Both programs wait in a loop until the clock is past `timeOfNextCheck`, turn the refresh of the DRAM
on to check it, and turn it off again for the next period. They differ in the time to wait and in
when they stop (`Program`). Time passes between any two operations, so a run is a sequence of turns
(`Step`) with the cycles at which things happen; `periods` records the periods without refresh that
have ended.

The first period begins before the clock is read, the later ones after that. `period_le` says when a
period lasts at least as long as it should, and `clock_never_goes_backwards` puts this together with
the results about the clock.
-/

namespace ProbableCause.Fpga

/-! ## The programs -/

def CLOCK_FREQ : BitVec 64 := 50000000
def NUM_WORDS_TO_CHECK : ℕ := 0x10000
def ADDRESS_INCREMENT : ℕ := 1

/-- What differs in the two programs: the variables `σ` that last from one check to the next, the
    time to wait, and the variables after a check with some result, unless the program returns. -/
structure Program (σ ρ : Type) where
  timeToWait : σ → BitVec 64
  next : σ → ρ → Option σ

namespace Hello

def TIME_INCREMENT : BitVec 64 := CLOCK_FREQ * 5
def START_TIME : BitVec 64 := CLOCK_FREQ * 5

/-- More than `STOP_PERCENT`, `.999`, of the half-words checked have flipped. -/
def done (flipCount : ℕ) : Bool := decide (flipCount * 1000 > 999 * ((NUM_WORDS_TO_CHECK >>> 1) * 2))

/-- `hello.c` waits longer and longer. The result of a check is `flipCount`. -/
def program : Program (BitVec 64) ℕ where
  timeToWait timeToWait := timeToWait
  next timeToWait flipCount := if done flipCount then none else some (timeToWait + TIME_INCREMENT)

end Hello

namespace HelloRange

def TIME_MIN : BitVec 64 := CLOCK_FREQ * 600
def TIME_MAX : BitVec 64 := CLOCK_FREQ * 2400

structure Vars where
  currentMinDelay : BitVec 64
  currentMaxDelay : BitVec 64
  timeToWait : BitVec 64

def Vars.start : Vars := ⟨TIME_MIN, TIME_MAX, (TIME_MIN + TIME_MAX) / 2⟩

/-- The number of half-words checked. -/
def total : ℕ := NUM_WORDS_TO_CHECK * ADDRESS_INCREMENT * 2

/-- The decay, `failCount / total`, is less than `MARGIN_OF_ERROR`, `.001`, from `DECAY_LIMIT`,
`.99`. -/
def withinMargin (failCount : ℕ) : Bool :=
  decide (failCount * 1000 < 991 * total ∧ 989 * total < failCount * 1000)

/-- `hello-range.c` searches for the time after which the decay is `DECAY_LIMIT`. The result of a
    check is `failCount`. -/
def program : Program Vars ℕ where
  timeToWait vars := vars.timeToWait
  next vars failCount :=
    if withinMargin failCount then none
    else
      let currentMinDelay := if failCount * 100 < 99 * total then vars.timeToWait
        else vars.currentMinDelay
      let currentMaxDelay := if failCount * 100 < 99 * total then vars.currentMaxDelay
        else vars.timeToWait
      if currentMaxDelay - currentMinDelay < 3 then none
      else some ⟨currentMinDelay, currentMaxDelay, (currentMinDelay + currentMaxDelay) / 2⟩

end HelloRange

/-! ## The runs -/

/-- A period without refresh: when refresh was turned off, the call that set the time of the check,
    the call that was past it, when refresh was turned on, and how long to wait. -/
structure Period where
  off : ℕ
  set : Call
  check : Call
  on : ℕ
  timeToWait : BitVec 64

/-- The state of the loop. `off` and `set` belong to the period that has begun. -/
structure State (σ : Type) where
  now : ℕ
  vars : σ
  timeOfNextCheck : BitVec 64
  off : ℕ
  set : Call
  periods : List Period
  returned : Bool

variable {σ ρ : Type} {P : Program σ ρ} {s s' : State σ}

/-- The state before the loop: refresh is turned off, then the clock is read. -/
def State.start (P : Program σ ρ) (vars : σ) (off : ℕ) (set : Call) : State σ where
  now := set.finish
  vars := vars
  timeOfNextCheck := currentTime set + P.timeToWait vars
  off := off
  set := set
  periods := []
  returned := false

/-- The period that ends. -/
def State.period (P : Program σ ρ) (s : State σ) (check : Call) (on : ℕ) : Period where
  off := s.off
  set := s.set
  check := check
  on := on
  timeToWait := P.timeToWait s.vars

/-- A turn of `while(1)`. -/
inductive Step (P : Program σ ρ) : State σ → State σ → Prop where
  /-- it is not time yet -/
  | wait {s : State σ} (poll : Call) (hrunning : s.returned = false) (hpoll : s.now ≤ poll.start)
      (htime : ¬ currentTime poll > s.timeOfNextCheck) : Step P s { s with now := poll.finish }
  /-- a check, and the next period: the clock is read, then refresh is turned off -/
  | again {s : State σ} (check : Call) (on : ℕ) (result : ρ) (vars : σ) (set : Call) (off : ℕ)
      (hrunning : s.returned = false) (hcheck : s.now ≤ check.start)
      (htime : currentTime check > s.timeOfNextCheck) (hon : check.finish ≤ on)
      (hnext : P.next s.vars result = some vars) (hset : on ≤ set.start) (hoff : set.finish ≤ off) :
      Step P s ⟨off, vars, currentTime set + P.timeToWait vars, off, set,
        s.periods ++ [s.period P check on], false⟩
  /-- a check, and the end -/
  | stop {s : State σ} (check : Call) (on : ℕ) (result : ρ) (hrunning : s.returned = false)
      (hcheck : s.now ≤ check.start) (htime : currentTime check > s.timeOfNextCheck)
      (hon : check.finish ≤ on) (hnext : P.next s.vars result = none) :
      Step P s { s with now := on, periods := s.periods ++ [s.period P check on], returned := true }

/-- The states of a run. -/
inductive Reachable (P : Program σ ρ) (vars : σ) : State σ → Prop where
  | start (off : ℕ) (set : Call) (hset : off ≤ set.start) : Reachable P vars
      (State.start P vars off set)
  | step {s s' : State σ} (h : Reachable P vars s) (hstep : Step P s s') : Reachable P vars s'

/-! ## The periods -/

/-- What the loop has seen when a period has ended. -/
structure Period.Seen (p : Period) : Prop where
  past : currentTime p.check > currentTime p.set + p.timeToWait
  ended : p.check.finish ≤ p.on

/-- **The loop invariant**: the time of the next check belongs to the period that has begun; and the
    first period has begun before the clock was read. -/
structure Inv (P : Program σ ρ) (s : State σ) : Prop where
  next : s.timeOfNextCheck = currentTime s.set + P.timeToWait s.vars
  seen : ∀ p ∈ s.periods, p.Seen
  first : s.periods = [] → s.off ≤ s.set.start
  head : ∀ p ∈ s.periods.head?, p.off ≤ p.set.start

theorem Inv.period_seen (h : Inv P s) {check : Call} {on : ℕ}
    (htime : currentTime check > s.timeOfNextCheck) (hon : check.finish ≤ on) :
      (s.period P check on).Seen := by
  rw [h.next] at htime
  exact ⟨htime, hon⟩

/-- A period that has been seen is added. -/
theorem Inv.periods (h : Inv P s) {check : Call} {on : ℕ}
    (htime : currentTime check > s.timeOfNextCheck) (hon : check.finish ≤ on) :
    (∀ p ∈ s.periods ++ [s.period P check on], p.Seen) ∧
      ∀ p ∈ (s.periods ++ [s.period P check on]).head?, p.off ≤ p.set.start := by
  constructor
  · intro p hp
    rcases List.mem_append.mp hp with hold | hnew
    · exact h.seen p hold
    · rw [List.mem_singleton.mp hnew]
      exact h.period_seen htime hon
  · intro p hp
    cases hperiods : s.periods with
    | nil =>
      rw [hperiods] at hp
      obtain rfl := Option.some.inj hp
      exact h.first hperiods
    | cons q rest =>
      rw [hperiods] at hp
      apply h.head
      rw [hperiods]
      exact hp

theorem Inv.step (h : Inv P s) (hstep : Step P s s') : Inv P s' := by
  cases hstep with
  | wait poll _ _ _ => exact ⟨h.next, h.seen, h.first, h.head⟩
  | again check on result vars set off _ _ htime hon _ _ _ =>
    obtain ⟨hseen, hhead⟩ := h.periods htime hon
    exact ⟨rfl, hseen, fun hnil => absurd hnil (by simp), hhead⟩
  | stop check on result _ _ htime hon _ =>
    obtain ⟨hseen, hhead⟩ := h.periods htime hon
    exact ⟨h.next, hseen, fun hnil => absurd hnil (by simp), hhead⟩

theorem Reachable.inv {vars : σ} (h : Reachable P vars s) : Inv P s := by
  induction h with
  | start off set hset =>
    exact ⟨rfl, fun p hp => absurd hp List.not_mem_nil, fun _ => hset, fun p hp => by cases hp⟩
  | step _ hstep ih => exact ih.step hstep

/-- **When a period is long enough**: there is no carry between the two reads of the call that sets
    the time of the check, this time is in range, and from the second of these reads until refresh
    is off it takes at most one cycle longer than from that of the check until refresh is on. -/
structure Period.Fair (p : Period) : Prop where
  noCarry : p.set.readHigh / 2 ^ 32 = p.set.readLow / 2 ^ 32
  inRange : p.set.readLow + p.timeToWait.toNat < 2 ^ 64
  prompt : p.off ≤ p.set.readLow + 1 + (p.on - p.check.readLow)

theorem Period.Seen.le {p : Period} (h : p.Seen) (hfair : p.Fair) :
    p.timeToWait.toNat ≤ p.on - p.off := by
  obtain ⟨hcarry, hrange, hprompt⟩ := hfair
  have hset := toNat_currentTime_eq hcarry (by omega)
  have hcheck := toNat_currentTime_le p.check
  have hfinish := p.check.le_finish
  have hon := h.ended
  have hpast := BitVec.lt_def.mp h.past
  rw [BitVec.toNat_add, hset, Nat.mod_eq_of_lt hrange] at hpast
  omega

/-- The first period is prompt in any case. -/
theorem Reachable.prompt_head {vars : σ} (h : Reachable P vars s) :
    ∀ p ∈ s.periods.head?, p.off ≤ p.set.readLow + 1 + (p.on - p.check.readLow) := by
  intro p hp
  have hoff := h.inv.head p hp
  have hstart := p.set.start_le
  have hread := p.set.read_le
  omega

/-- **Every fair period lasts as long as it should**, in every run. -/
theorem period_le {vars : σ} (h : Reachable P vars s) {p : Period} (hp : p ∈ s.periods)
    (hfair : p.Fair) :
    p.timeToWait.toNat ≤ p.on - p.off :=
  (h.inv.seen p hp).le hfair

/-- So does the first one, if only its time is right. -/
theorem head_period_le {vars : σ} (h : Reachable P vars s) {p : Period} (hp : p ∈ s.periods.head?)
    (hcarry : p.set.readHigh / 2 ^ 32 = p.set.readLow / 2 ^ 32)
    (hrange : p.set.readLow + p.timeToWait.toNat < 2 ^ 64) : p.timeToWait.toNat ≤ p.on - p.off :=
  period_le h (List.mem_of_mem_head? hp) ⟨hcarry, hrange, h.prompt_head p hp⟩

/-! ## The clock and the periods -/

/-- **The periods of a program last as long as they should**: the fair ones, and the first one if
    only its time is right, in every run. -/
def PeriodsLast (P : Program σ ρ) (vars : σ) : Prop :=
  ∀ s, Reachable P vars s →
    (∀ p ∈ s.periods, p.Fair → p.timeToWait.toNat ≤ p.on - p.off) ∧
    ∀ p ∈ s.periods.head?, p.set.readHigh / 2 ^ 32 = p.set.readLow / 2 ^ 32 →
      p.set.readLow + p.timeToWait.toNat < 2 ^ 64 → p.timeToWait.toNat ≤ p.on - p.off

/-- **When the clock does not go backwards.** As long as the 64-bit counter does not overflow, the
    value of a call is between start and end exactly if no carry is lost, and for a call of less
    than `2 ^ 32` cycles exactly if there is no carry between its reads; if it overflows once, the
    value is never between them; for any call at all the halves have to be consistent. The values of
    successive calls that lose no carry do not decrease. And in all runs of both programs the
    periods last as long as they should. -/
theorem clock_never_goes_backwards (c : Call) :
    ((SameEpoch c → (Between c ↔ ¬ CarryLost c)) ∧
      (SameEpoch c → c.finish < c.start + 2 ^ 32 →
        (Between c ↔ c.readHigh / 2 ^ 32 = c.readLow / 2 ^ 32)) ∧
      (¬ SameEpoch c → c.finish < c.start + 2 ^ 64 → ¬ Between c) ∧ (Between c ↔ Consistent c)) ∧
    (∀ (calls : List Call) (epoch : ℕ), calls.Pairwise (fun c d => c.finish ≤ d.start) →
      (∀ c ∈ calls, c.start / 2 ^ 64 = epoch ∧ c.finish / 2 ^ 64 = epoch) →
      (∀ c ∈ calls, ¬ CarryLost c) → (calls.map currentTime).Pairwise (· ≤ ·)) ∧
    PeriodsLast Hello.program Hello.START_TIME ∧
      PeriodsLast HelloRange.program HelloRange.Vars.start := by
  refine ⟨⟨between_iff_notLost, between_iff_noCarry, not_between_of_overflow,
    between_iff c⟩, ?_, ?_, ?_⟩
  · intro calls epoch hordered hepoch hlost
    exact currentTime_mono hordered hepoch hlost
  · intro s hs
    exact ⟨fun p hp => period_le hs hp, fun p hp => head_period_le hs hp⟩
  · intro s hs
    exact ⟨fun p hp => period_le hs hp, fun p hp => head_period_le hs hp⟩

/-! ### Sample runs -/

/-- A call that takes no time. -/
def Call.instant (t : ℕ) : Call := ⟨t, t, t, t, Nat.le_refl t, Nat.le_refl t, Nat.le_refl t⟩

/-- A run of `hello.c` that ends with its first check. -/
theorem reachable_stop (off on : ℕ) (set check : Call) (hset : off ≤ set.start)
    (hcheck : set.finish ≤ check.start)
    (htime : currentTime check > currentTime set + Hello.START_TIME) (hon : check.finish ≤ on) :
    ∃ s, Reachable Hello.program Hello.START_TIME s ∧
      s.periods = [⟨off, set, check, on, Hello.START_TIME⟩] :=
  ⟨_, (Reachable.start off set hset).step
    (.stop check on (NUM_WORDS_TO_CHECK : ℕ) rfl hcheck htime hon
      (show Hello.program.next Hello.START_TIME NUM_WORDS_TO_CHECK = none from rfl)), rfl⟩

theorem toNat_currentTime_instant {t : ℕ} (ht : t < 2 ^ 64) : (currentTime (.instant t)).toNat = t :=
  toNat_currentTime_eq rfl ht

/-- A call at the end of the range of the low half, and a call after it; and a first period of the
    time it should last. -/
theorem clock_never_goes_backwards_first :
    (Between (.instant 0xFFFFFFFF) ↔ 0xFFFFFFFF / 2 ^ 32 = 0xFFFFFFFF / 2 ^ 32) ∧
      ([Call.instant 0xFFFFFFFF, Call.instant 0x100000000].map currentTime).Pairwise (· ≤ ·) ∧
      ∃ s, Reachable Hello.program Hello.START_TIME s ∧
        ∃ p ∈ s.periods, p.timeToWait.toNat ≤ p.on - p.off := by
  obtain ⟨⟨-, hshort, -⟩, hsuccessive, hperiods, -⟩ :=
    clock_never_goes_backwards (.instant 0xFFFFFFFF)
  have hlost : ∀ t, ¬ CarryLost (.instant t) := fun t h => Nat.lt_irrefl _ h.2
  have htime : currentTime (.instant 250000001) > currentTime (.instant 0) + Hello.START_TIME := by
    rw [gt_iff_lt, BitVec.lt_def, BitVec.toNat_add, toNat_currentTime_instant (by decide),
      toNat_currentTime_instant (by decide)]
    decide
  obtain ⟨s, hs, hp⟩ := reachable_stop 0 250000001 (.instant 0) (.instant 250000001) (Nat.le_refl 0)
    (Nat.zero_le 250000001) htime (Nat.le_refl 250000001)
  refine ⟨hshort rfl (by decide), hsuccessive _ 0 ?_ ?_ ?_, s, hs, _, hp ▸ List.mem_singleton.mpr rfl,
    (hperiods s hs).2 _ (hp ▸ rfl) rfl (by decide)⟩
  · exact List.pairwise_pair.mpr (Nat.le_succ 0xFFFFFFFF)
  · intro c hc
    rcases List.mem_cons.mp hc with rfl | hc
    · exact ⟨rfl, rfl⟩
    · rw [List.mem_singleton.mp hc]
      exact ⟨rfl, rfl⟩
  · intro c hc
    rcases List.mem_cons.mp hc with rfl | hc
    · exact hlost _
    · rw [List.mem_singleton.mp hc]
      exact hlost _

/-- A carry between the reads. -/
def carryCall : Call where
  start := 0xFFFFFFFF
  readHigh := 0xFFFFFFFF
  readLow := 0x100000000
  finish := 0x100000000
  start_le := Nat.le_refl _
  read_le := Nat.le_succ _
  le_finish := Nat.le_refl _

theorem toNat_currentTime_carryCall : (currentTime carryCall).toNat = 0 := by
  rw [toNat_currentTime, high_eq, low_eq]
  rfl

/-- The value of this call is `0`: it is before the start of the call and less than that of an
    earlier call, and a period that is timed with it lasts one cycle. -/
theorem clock_goes_backwards :
    ¬ Between carryCall ∧
      ((Call.instant 1).finish ≤ carryCall.start ∧ currentTime carryCall < currentTime (.instant 1)) ∧
      ∃ s, Reachable Hello.program Hello.START_TIME s ∧
        ∃ p ∈ s.periods, ¬ p.timeToWait.toNat ≤ p.on - p.off := by
  have hone : (currentTime (.instant 1)).toNat = 1 := toNat_currentTime_instant (by decide)
  have hcheck : (currentTime (.instant 0x100000000)).toNat = 0x100000000 :=
    toNat_currentTime_instant (by decide)
  have hzero := toNat_currentTime_carryCall
  have htime : currentTime (.instant 0x100000000) > currentTime carryCall + Hello.START_TIME := by
    rw [gt_iff_lt, BitVec.lt_def, BitVec.toNat_add, hzero, hcheck]
    decide
  obtain ⟨s, hs, hp⟩ := reachable_stop 0xFFFFFFFF 0x100000000 carryCall (.instant 0x100000000)
    (Nat.le_refl 0xFFFFFFFF) (Nat.le_refl 0x100000000) htime (Nat.le_refl 0x100000000)
  refine ⟨?_, ⟨?_, ?_⟩, s, hs, _, hp ▸ List.mem_singleton.mpr rfl, ?_⟩
  · rintro ⟨hstart, -⟩
    rw [hzero, counter_eq] at hstart
    revert hstart
    decide
  · decide
  · rw [BitVec.lt_def, hzero, hone]
    decide
  · decide

end ProbableCause.Fpga
