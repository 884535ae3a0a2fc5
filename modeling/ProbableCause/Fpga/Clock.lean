import Mathlib.Algebra.Group.Nat.Defs
import Mathlib.Data.Nat.Basic
import Mathlib.Logic.Function.Iterate

/-!
# `Fpga.Clock` — the cycle counter and `currentTime`

The processor counts its cycles in two registers, `sp_reg0` and, for the carries, `sp_reg1`: after
`t` cycles they are the halves of `t` (`toNat_spReg0`, `toNat_spReg1`). `currentTime` reads first
the high and then the low half, with any number of cycles between the two.

A carry between the reads is lost. The value returned is never after the call, but it is before the
call if the carry is lost (`CarryLost`); as long as the 64-bit counter does not overflow, it lies
between the start and the end of the call exactly if no carry is lost (`between_iff_notLost`), which
for a call of less than `2 ^ 32` cycles means that there is no carry between its reads
(`between_iff_noCarry`).
-/

namespace ProbableCause.Fpga

/-! ## The registers -/

structure Clock where
  spReg0 : BitVec 32
  spReg1 : BitVec 32

/-- The registers after a reset. -/
def Clock.reset : Clock := ⟨0, 0⟩

/-- A rising edge of the clock signal. -/
def Clock.tick (c : Clock) : Clock where
  spReg0 := c.spReg0 + 1
  spReg1 := if c.spReg0 = 0xFFFFFFFF then c.spReg1 + 1 else c.spReg1

/-- The registers `t` cycles after a reset. -/
def clockAt (t : ℕ) : Clock := Clock.tick^[t] Clock.reset

theorem toNat_spReg0 (t : ℕ) : (clockAt t).spReg0.toNat = t % 2 ^ 32 := by
  induction t with
  | zero => rfl
  | succ t ih =>
    have htick : (clockAt (t + 1)).spReg0 = (clockAt t).spReg0 + 1 := by
      rw [clockAt, Function.iterate_succ_apply']
      rfl
    rw [htick, BitVec.toNat_add, ih]
    show (t % 2 ^ 32 + 1) % 2 ^ 32 = _
    omega

theorem toNat_spReg1 (t : ℕ) : (clockAt t).spReg1.toNat = t / 2 ^ 32 % 2 ^ 32 := by
  induction t with
  | zero => rfl
  | succ t ih =>
    have htick : (clockAt (t + 1)).spReg1 =
        if (clockAt t).spReg0 = 0xFFFFFFFF then (clockAt t).spReg1 + 1 else (clockAt t).spReg1 := by
      rw [clockAt, Function.iterate_succ_apply']
      rfl
    have hfull : (clockAt t).spReg0 = 0xFFFFFFFF ↔ t % 2 ^ 32 = 0xFFFFFFFF := by
      rw [← toNat_spReg0, ← BitVec.toNat_inj]
      rfl
    rw [htick]
    by_cases hcarry : t % 2 ^ 32 = 0xFFFFFFFF
    · rw [if_pos (hfull.mpr hcarry), BitVec.toNat_add, ih]
      show (t / 2 ^ 32 % 2 ^ 32 + 1) % 2 ^ 32 = _
      omega
    · rw [if_neg (fun h => hcarry (hfull.mp h)), ih]
      omega

/-- The high half of the counter. -/
def high (t : ℕ) : ℕ := (clockAt t).spReg1.toNat

/-- The low half of the counter. -/
def low (t : ℕ) : ℕ := (clockAt t).spReg0.toNat

theorem high_eq (t : ℕ) : high t = t / 2 ^ 32 % 2 ^ 32 := toNat_spReg1 t

theorem low_eq (t : ℕ) : low t = t % 2 ^ 32 := toNat_spReg0 t

/-- The 64-bit counter. -/
def counter (t : ℕ) : ℕ := high t * 2 ^ 32 + low t

theorem counter_eq (t : ℕ) : counter t = t % 2 ^ 64 := by
  rw [counter, high_eq, low_eq]
  omega

/-! ## `currentTime` -/

/-- A call of `currentTime`: the cycles of its start, of its two reads and of its end. -/
structure Call where
  start : ℕ
  readHigh : ℕ
  readLow : ℕ
  finish : ℕ
  start_le : start ≤ readHigh
  read_le : readHigh ≤ readLow
  le_finish : readLow ≤ finish

def getTicksHigh (t : ℕ) : BitVec 32 := (clockAt t).spReg1

def getTicksLow (t : ℕ) : BitVec 32 := (clockAt t).spReg0

/-- The value that a call returns. -/
def currentTime (c : Call) : BitVec 64 :=
  let ticks : BitVec 64 := (getTicksHigh c.readHigh).setWidth 64
  let ticks := ticks <<< 32
  ticks + (getTicksLow c.readLow).setWidth 64

theorem toNat_currentTime (c : Call) :
    (currentTime c).toNat = high c.readHigh * 2 ^ 32 + low c.readLow := by
  have hhigh : high c.readHigh < 2 ^ 32 := (clockAt c.readHigh).spReg1.isLt
  have hlow : low c.readLow < 2 ^ 32 := (clockAt c.readLow).spReg0.isLt
  have hvalue : (currentTime c).toNat =
      (high c.readHigh % 2 ^ 64 * 2 ^ 32 % 2 ^ 64 + low c.readLow % 2 ^ 64) % 2 ^ 64 := by
    unfold currentTime
    rw [BitVec.toNat_add, BitVec.toNat_shiftLeft, BitVec.toNat_setWidth, BitVec.toNat_setWidth,
      Nat.shiftLeft_eq]
    rfl
  rw [hvalue]
  omega

/-- The value returned is between the values of the counter at the start and at the end of the call.
-/
def Between (c : Call) : Prop :=
  counter c.start ≤ (currentTime c).toNat ∧ (currentTime c).toNat ≤ counter c.finish

/-- The two halves do not belong together: the high half read is still that of the start, but the
    low half read is already below that of the start. -/
def Torn (c : Call) : Prop := high c.readHigh = high c.start ∧ low c.readLow < low c.start

/-- The 64-bit counter does not overflow during the call. -/
def SameEpoch (c : Call) : Prop := c.start / 2 ^ 64 = c.finish / 2 ^ 64

/-- **When the value is right**, in terms of the registers, for every call. The second part matters
    only if the 64-bit counter overflows during the call. -/
structure Consistent (c : Call) : Prop where
  notTorn : ¬ Torn c
  increasing : high c.start ≤ high c.readHigh ∧ high c.readHigh ≤ high c.finish ∧
    (high c.readHigh = high c.finish → low c.readLow ≤ low c.finish)

theorem low_lt (t : ℕ) : low t < 2 ^ 32 := (clockAt t).spReg0.isLt

/-- **The value is between start and end** exactly if the halves are consistent. -/
theorem between_iff (c : Call) : Between c ↔ Consistent c := by
  have hstart := low_lt c.start
  have hread := low_lt c.readLow
  have hfinish := low_lt c.finish
  unfold Between counter
  rw [toNat_currentTime]
  constructor
  · rintro ⟨hlo, hhi⟩
    refine ⟨?_, ?_, ?_, ?_⟩
    · rintro ⟨hsame, hbelow⟩
      omega
    · omega
    · omega
    · intro hsame
      omega
  · rintro ⟨htorn, hle, hle', hlast⟩
    unfold Torn at htorn
    constructor
    · rcases Nat.lt_or_eq_of_le hle with hlt | heq
      · omega
      · omega
    · rcases Nat.lt_or_eq_of_le hle' with hlt | heq
      · omega
      · have := hlast heq
        omega

/-- Without an overflow the halves are consistent exactly if they are not torn. -/
theorem consistent_iff {c : Call} (h : SameEpoch c) : Consistent c ↔ ¬ Torn c := by
  have hstart := c.start_le
  have hread := c.read_le
  have hfinish := c.le_finish
  unfold SameEpoch at h
  constructor
  · exact Consistent.notTorn
  · intro htorn
    refine ⟨htorn, ?_, ?_, ?_⟩
    · rw [high_eq, high_eq]
      omega
    · rw [high_eq, high_eq]
      omega
    · rw [high_eq, high_eq, low_eq, low_eq]
      omega

/-- An overflow during the call puts the end before the start. -/
theorem not_between_of_overflow {c : Call} (h : ¬ SameEpoch c)
    (hshort : c.finish < c.start + 2 ^ 64) :
    ¬ Between c := by
  rintro ⟨hlo, hhi⟩
  have hstart := c.start_le
  have hread := c.read_le
  have hfinish := c.le_finish
  have hle := Nat.le_trans hlo hhi
  unfold SameEpoch at h
  rw [counter_eq, counter_eq] at hle
  omega

/-- A carry is lost between the reads, in terms of the cycles of the call: the high half is read
    before the next carry after the start, and the low half after it, when it is still below that of
    the start. -/
def CarryLost (c : Call) : Prop :=
  c.readHigh / 2 ^ 32 = c.start / 2 ^ 32 ∧ c.readLow % 2 ^ 32 < c.start % 2 ^ 32

/-- Then the halves do not belong together. -/
theorem torn_iff_carryLost {c : Call} (h : SameEpoch c) : Torn c ↔ CarryLost c := by
  have hstart := c.start_le
  have hread := c.read_le
  have hfinish := c.le_finish
  unfold SameEpoch at h
  unfold Torn CarryLost
  rw [high_eq, high_eq, low_eq, low_eq]
  refine and_congr_left fun _ => ?_
  omega

/-- In a call of less than `2 ^ 32` cycles every carry between the reads is lost. -/
theorem carryLost_iff {c : Call} (hshort : c.finish < c.start + 2 ^ 32) :
    CarryLost c ↔ c.readHigh / 2 ^ 32 ≠ c.readLow / 2 ^ 32 := by
  have hstart := c.start_le
  have hread := c.read_le
  have hfinish := c.le_finish
  unfold CarryLost
  constructor
  · rintro ⟨hsame, hbelow⟩ hnocarry
    omega
  · intro hcarry
    omega

/-- **The value is between start and end exactly if no carry is lost.** -/
theorem between_iff_notLost {c : Call} (h : SameEpoch c) : Between c ↔ ¬ CarryLost c := by
  rw [between_iff, consistent_iff h, torn_iff_carryLost h]

/-- For a short call this means that there is no carry between its reads. -/
theorem between_iff_noCarry {c : Call} (h : SameEpoch c) (hshort : c.finish < c.start + 2 ^ 32) :
    Between c ↔ c.readHigh / 2 ^ 32 = c.readLow / 2 ^ 32 := by
  rw [between_iff_notLost h, carryLost_iff hshort, not_not]

/-- The value is never after the read of the low half. -/
theorem toNat_currentTime_le (c : Call) : (currentTime c).toNat ≤ c.readLow := by
  have hread := c.read_le
  rw [toNat_currentTime, high_eq, low_eq]
  omega

/-- Without a carry between the reads it is the time of the second one. -/
theorem toNat_currentTime_eq {c : Call} (hcarry : c.readHigh / 2 ^ 32 = c.readLow / 2 ^ 32)
    (hlt : c.readLow < 2 ^ 64) : (currentTime c).toNat = c.readLow := by
  rw [toNat_currentTime, high_eq, low_eq]
  omega

/-- **The clock does not go backwards** over calls one after the other, none of which loses a carry,
    as long as the 64-bit counter does not overflow. -/
theorem currentTime_mono {calls : List Call} {epoch : ℕ}
    (hordered : calls.Pairwise fun c d => c.finish ≤ d.start)
    (hepoch : ∀ c ∈ calls, c.start / 2 ^ 64 = epoch ∧ c.finish / 2 ^ 64 = epoch)
    (hlost : ∀ c ∈ calls, ¬ CarryLost c) : (calls.map currentTime).Pairwise (· ≤ ·) := by
  have hbetween : ∀ c ∈ calls, Between c := by
    intro c hc
    obtain ⟨hstart, hfinish⟩ := hepoch c hc
    have hsame : SameEpoch c := hstart.trans hfinish.symm
    exact (between_iff_notLost hsame).mpr (hlost c hc)
  rw [List.pairwise_map]
  refine hordered.imp_of_mem ?_
  intro c d hc hd horder
  have hgap : counter c.finish ≤ counter d.start := by
    have hfinish := (hepoch c hc).2
    have hstart := (hepoch d hd).1
    rw [counter_eq, counter_eq]
    omega
  exact BitVec.le_def.mpr (Nat.le_trans (hbetween c hc).2 (Nat.le_trans hgap (hbetween d hd).1))

end ProbableCause.Fpga
