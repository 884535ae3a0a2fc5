import ProbableCause.Firmware.HeatMap

/-!
# `Firmware.WordHeatMap` — `overlapped`: the delay at which each word fails

An older program than `overlappedBits`, with a loop of its own: there is no block counter, and the
write cursor goes on beyond the last row to tell the time. It compares a word as a whole with what
was written, and keeps one byte of result for it.

Here, too, each result is a register that is written once, so that at the end of a sweep it holds
the delay of the first failure of the word. That is the least of the delays of its bits
(`first_wordFails`), which `overlappedBits` keeps: `word_eq_min_of_bits`.
-/

namespace ProbableCause

open FirstTime Polling

namespace Overlapped

open OverlappedBits (i32)

def BLOCK_TIME_OFFSET : ℕ := 775
def MIN_DELAY : ℕ := 1
def MAX_DELAY : ℕ := 50
def DELAY_INCREMENT : ℕ := 1

/-- The range of `int`. -/
def i16 (n : ℤ) : ℤ := Int.bmod n (2 ^ 16)

def writeRowToStartTesting (delay : ℕ) : ℤ :=
  i32 (Int.tdiv (Int.tdiv (i32 ((delay : ℤ) * 1000000)) (BLOCK_TIME_OFFSET : ℤ))
    (DRAM_NUM_COLS : ℤ) + 1)

/-- The results, and the address of the next one. -/
structure Results where
  flashAddress : ℕ
  flash : Flash

/-- The state of the loop. -/
structure State where
  readRow : ℕ
  readCol : ℕ
  writeRow : ℤ
  writeCol : ℕ
  dram : Dram
  results : Results

/-- The state before the loop of a step. -/
def State.start (dram : Dram) (flash : Flash) : State where
  readRow := 0
  readCol := 0
  writeRow := 0
  writeCol := 0
  dram := dram
  results := ⟨SEGMENT_DATA_START, flash⟩

/-- The first part of a period: write a word, unless all have been written. The cursor advances in
    any case, as `writeRow` acts as a global sense of time. -/
def writePhase (s : State) : State :=
  { s with
    -- the row is passed as a `char`
    dram := if s.writeRow < DRAM_NUM_ROWS then
        dramWb s.dram (s.writeRow % 256).toNat s.writeCol (if Int.tmod s.writeRow 2 = 0
          then 0xF else 0x0)
      else s.dram
    writeRow := if s.writeCol + 1 = DRAM_NUM_COLS then i16 (s.writeRow + 1) else s.writeRow
    writeCol := if s.writeCol + 1 = DRAM_NUM_COLS then 0 else s.writeCol + 1 }

/-- What is done with a word read: if this is its first failure, the delay goes to flash. -/
def use (increment delay readRow _readCol : ℕ) (dataFromDRAM : BitVec 8) (x : Results) : Results :=
  let dataToCheckFor : BitVec 8 := if readRow % 2 = 0 then 0xF else 0x0
  { flash := if dataFromDRAM ≠ dataToCheckFor ∧ flashReadByte x.flash x.flashAddress = 0xFF then
        flashWriteByte x.flash x.flashAddress (BitVec.ofNat 8 (delay / increment))
      else x.flash
    flashAddress := u32 (x.flashAddress + 1) }

/-- The second part: read a word, once it is time. -/
def readPhase (increment delay : ℕ) (decay : Decay) (s : State) : State :=
  if writeRowToStartTesting delay ≤ s.writeRow then
    { s with
      results := use increment delay s.readRow s.readCol
        (dramRb decay s.dram s.readRow s.readCol) s.results
      readRow := if s.readCol + 1 = DRAM_NUM_COLS then s.readRow + 1 else s.readRow
      readCol := if s.readCol + 1 = DRAM_NUM_COLS then 0 else s.readCol + 1 }
  else s

/-- One turn of the loop `while(readRow < DRAM_NUM_ROWS)`. -/
def turn (increment delay : ℕ) (decay : Decay) (s : State) (due : Bool) : State :=
  if s.readRow < DRAM_NUM_ROWS then
    if due then readPhase increment delay decay (writePhase s) else s
  else s

def run (increment delay : ℕ) (decay : Decay) (polls : List Bool) (s : State) : State :=
  polls.foldl (turn increment delay decay) s

/-- The steps of the sweep over some delays, each with its delay and the state at its end. -/
def sweepOf (increment : ℕ) (decay : ℕ → Decay) (polls : ℕ → List Bool) :
    List ℕ → Dram → Flash → List (ℕ × State)
  | [], _, _ => []
  | delay :: delays, dram, flash =>
    let s := run increment delay (decay delay) (polls delay) (State.start dram flash)
    (delay, s) :: sweepOf increment decay polls delays s.dram s.results.flash

/-- The delays of `for(int delay = MIN_DELAY; delay <= MAX_DELAY; delay = delay + DELAY_INCREMENT)`.
-/
def delays : List ℕ :=
  (List.range ((MAX_DELAY - MIN_DELAY) / DELAY_INCREMENT + 1)).map fun i =>
    MIN_DELAY + DELAY_INCREMENT * i

def main (decay : ℕ → Decay) (polls : ℕ → List Bool) (dram : Dram) (flash : Flash) :
    List (ℕ × State) :=
  sweepOf DELAY_INCREMENT decay polls delays dram flash

/-! ## One turn -/

variable {delay : ℕ} {x : Results} {s : State}

theorem i32_bounds (n : ℤ) : -2 ^ 31 ≤ i32 n ∧ i32 n ≤ 2 ^ 31 - 1 := by
  unfold i32 Int.bmod
  dsimp only
  split <;> omega

theorem i16_succ {n : ℤ} (hlo : -2 ^ 15 ≤ n) (hhi : n < 2 ^ 15) :
    i16 (n + 1) = if n + 1 = 2 ^ 15 then -2 ^ 15 else n + 1 := by
  unfold i16 Int.bmod
  dsimp only
  split <;> split <;> omega

/-- The row to start testing is an `int`, whatever the delay. -/
theorem writeRowToStartTesting_lt (delay : ℕ) : writeRowToStartTesting delay < 2 ^ 15 := by
  obtain ⟨hlo, hhi⟩ := i32_bounds ((delay : ℤ) * 1000000)
  unfold writeRowToStartTesting
  generalize i32 ((delay : ℤ) * 1000000) = product at hlo hhi ⊢
  have hblocks : (0 : ℤ) < (BLOCK_TIME_OFFSET : ℤ) := by decide
  have hcols : (0 : ℤ) < (DRAM_NUM_COLS : ℤ) := by decide
  have hle := Int.tdiv_le_tdiv hcols (Int.tdiv_le_tdiv hblocks hhi)
  have hge := Int.tdiv_le_tdiv hcols (Int.tdiv_le_tdiv hblocks hlo)
  generalize Int.tdiv (Int.tdiv product (BLOCK_TIME_OFFSET : ℤ)) (DRAM_NUM_COLS : ℤ) =
    rows at hle hge ⊢
  have hmax : Int.tdiv (Int.tdiv (2 ^ 31 - 1) (BLOCK_TIME_OFFSET : ℤ)) (DRAM_NUM_COLS : ℤ) =
    10824 := by decide
  have hmin : Int.tdiv (Int.tdiv (-2 ^ 31) (BLOCK_TIME_OFFSET : ℤ)) (DRAM_NUM_COLS : ℤ) =
    -10824 := by decide
  rw [hmax] at hle
  rw [hmin] at hge
  unfold i32 Int.bmod
  dsimp only
  split <;> omega

/-- The number of periods, up to a multiple of `2 ^ 24`. -/
def State.period (s : State) : ℕ := 256 * (s.writeRow + 2 ^ 15).toNat + s.writeCol

/-- The write cursor is in its range. -/
structure State.InRange (s : State) : Prop where
  lo : -2 ^ 15 ≤ s.writeRow
  hi : s.writeRow < 2 ^ 15
  col : s.writeCol < 256

/-- The first part of a period tells the time. -/
theorem State.InRange.writePhase (h : s.InRange) :
    (writePhase s).InRange ∧ (Overlapped.writePhase s).period = (s.period + 1) % 2 ^ 24 := by
  obtain ⟨hlo, hhi, hcol⟩ := h
  have hrow : (Overlapped.writePhase s).writeRow =
      if s.writeCol + 1 = 256 then (if s.writeRow + 1 = 2 ^ 15 then -2 ^ 15 else s.writeRow + 1)
        else s.writeRow := by
    rw [← i16_succ hlo hhi]
    rfl
  have hcol' : (Overlapped.writePhase s).writeCol = if s.writeCol + 1 = 256 then 0
    else s.writeCol + 1 := rfl
  unfold State.period
  rw [hrow, hcol']
  by_cases hend : s.writeCol + 1 = 256
  · rw [if_pos hend] at hrow hcol' ⊢
    rw [if_pos hend]
    refine ⟨⟨?_, ?_, by omega⟩, ?_⟩
    · rw [hrow]
      split <;> omega
    · rw [hrow]
      split <;> omega
    · split <;> omega
  · rw [if_neg hend] at hrow hcol' ⊢
    rw [if_neg hend]
    exact ⟨⟨by omega, by omega, by omega⟩, by omega⟩

/-- It is time to read in the last period before `writeRow` wraps around. -/
theorem State.InRange.period_ne (h : s.InRange)
    (hearly : ¬ writeRowToStartTesting delay ≤ s.writeRow) :
    s.period ≠ 2 ^ 24 - 1 := by
  obtain ⟨hlo, -, hcol⟩ := h
  have hlt := writeRowToStartTesting_lt delay
  have hbefore : 256 * (s.writeRow + 2 ^ 15).toNat + s.writeCol < 2 ^ 24 - 1 := by omega
  exact Nat.ne_of_lt hbefore

/-- The turns at which the timer is due that are enough for any delay. -/
def ENOUGH_POLLS : ℕ := (65536 + 1) * 2 ^ 24

theorem turn_due {decay : Decay} (increment : ℕ) (hrow : s.readRow < DRAM_NUM_ROWS) :
    turn increment delay decay s true = readPhase increment delay decay (writePhase s) := by
  unfold turn
  rw [if_pos hrow, if_pos rfl]

/-- The second part of a period does not move the write cursor. -/
theorem readPhase_writeCursor (increment delay : ℕ) (decay : Decay) (s : State) :
    (readPhase increment delay decay s).writeRow = s.writeRow ∧
      (readPhase increment delay decay s).writeCol = s.writeCol := by
  unfold readPhase
  split <;> exact ⟨rfl, rfl⟩

theorem period_readPhase (increment delay : ℕ) (decay : Decay) (s : State) :
    (readPhase increment delay decay s).period = s.period := by
  obtain ⟨hrow, hcol⟩ := readPhase_writeCursor increment delay decay s
  unfold State.period
  rw [hrow, hcol]

theorem State.InRange.readPhase (h : s.InRange) (increment delay : ℕ) (decay : Decay) :
    (readPhase increment delay decay s).InRange := by
  obtain ⟨hrow, hcol⟩ := readPhase_writeCursor increment delay decay s
  exact ⟨by rw [hrow]; exact h.lo, by rw [hrow]; exact h.hi, by rw [hcol]; exact h.col⟩

/-- The loop reads, and starts before `writeRow` wraps around at the latest. -/
theorem reads_turn (increment delay : ℕ) (v : ℕ → ℕ → BitVec 4) :
    Reads (use increment delay) v (2 ^ 24)
      (turn increment delay (readOut v)) State.InRange State.readRow State.readCol
      State.period State.results := by
  refine ⟨⟨fun s => ?_, fun s hend => if_neg hend, fun s hs hend => ?_⟩, fun s hs => ?_,
    fun s hs hrow => ?_, fun s hs hrow => ?_⟩
  · unfold turn
    rw [if_neg Bool.false_ne_true]
    exact ite_self _
  · rw [turn_due increment (Decidable.not_not.mp hend)]
    exact hs.writePhase.1.readPhase _ _ _
  · obtain ⟨hlo, hhi, hcol⟩ := hs
    unfold State.period
    omega
  · rw [turn_due increment hrow, period_readPhase]
    exact hs.writePhase.2
  · have hrange := hs.writePhase.1
    have hrow' : (writePhase s).readRow = s.readRow := rfl
    have hcol' : (writePhase s).readCol = s.readCol := rfl
    have hresults : (writePhase s).results = s.results := rfl
    rw [turn_due increment hrow, period_readPhase, ← hrow', ← hcol', ← hresults]
    unfold readPhase
    by_cases htime : writeRowToStartTesting delay ≤ (writePhase s).writeRow
    · rw [if_pos htime]
      exact .inl ⟨rfl, rfl, rfl⟩
    · rw [if_neg htime]
      exact .inr ⟨rfl, rfl, rfl, hrange.period_ne htime⟩

/-- **A run on a read-out** ends, and has used the words of the read-out. -/
theorem run_readOut (increment delay : ℕ) (v : ℕ → ℕ → BitVec 4) {polls : List Bool}
    (hpolls : ENOUGH_POLLS ≤ polls.count true) (dram : Dram) (flash : Flash) :
    (run increment delay (readOut v) polls (State.start dram flash)).results =
      scan (use increment delay) v 65536 ⟨SEGMENT_DATA_START, flash⟩ :=
  (reads_turn increment delay v).results_eq
    ⟨show (-2 ^ 15 : ℤ) ≤ 0 by decide, show (0 : ℤ) < 2 ^ 15 by decide,
      Nat.zero_lt_succ _⟩ rfl rfl hpolls

/-! ## The sweep -/

/-- The word of a result has failed after a delay. -/
def wordFails (v : ℕ → ℕ → ℕ → BitVec 4) (a delay : ℕ) : Bool :=
  kept (v delay) (a - SEGMENT_DATA_START) != 0xF

/-- The test of a word: one of its bits is flipped. -/
theorem flipped_iff (v : ℕ → ℕ → BitVec 4) (k : ℕ) :
    (v (k / 256) (k % 256)).setWidth 8 ≠ (if k / 256 % 2 = 0 then 0xF else 0x0 : BitVec 8) ↔
      kept v k ≠ 0xF := by
  have hones : ∀ b : BitVec 4, (b.setWidth 8 : BitVec 8) = 0xF ↔ b = 0xF := by decide
  have hzeros : ∀ b : BitVec 4, (b.setWidth 8 : BitVec 8) = 0x0 ↔ ~~~b = 0xF := by decide
  unfold kept
  by_cases hrow : k / 256 % 2 = 0
  · rw [if_pos hrow, if_pos hrow]
    exact not_congr (hones _)
  · rw [if_neg hrow, if_neg hrow]
    exact not_congr (hzeros _)

/-- The byte of word `k`, in which no other byte is written. -/
theorem recorded_word (increment delay k : ℕ) (v : ℕ → ℕ → ℕ → BitVec 4)
    (hx : x.flashAddress = SEGMENT_DATA_START + k) :
    Recorded (wordFails v) (· / increment) (SEGMENT_DATA_START + k)
      (SEGMENT_DATA_START + k + 1) delay x.flash
        (use increment delay (k / 256) (k % 256)
          ((v delay (k / 256) (k % 256)).setWidth 8) x).flash := by
  have hfails : wordFails v (SEGMENT_DATA_START + k) delay = true ↔ kept (v delay) k ≠ 0xF := by
    unfold wordFails
    rw [Nat.add_sub_cancel_left]
    exact bne_iff_ne
  have hrecord : record (wordFails v (SEGMENT_DATA_START + k))
    (fun delay => BitVec.ofNat 8 (delay / increment)) 0xFF
      (x.flash.mem (SEGMENT_DATA_START + k)) delay =
        if kept (v delay) k ≠ 0xF ∧ x.flash.mem (SEGMENT_DATA_START + k) = 0xFF then
          BitVec.ofNat 8 (delay / increment) else x.flash.mem (SEGMENT_DATA_START + k) := by
    unfold record
    simp only [hfails]
  unfold use flashReadByte
  dsimp only
  simp only [hx, flipped_iff (v delay) k]
  by_cases hfirst : kept (v delay) k ≠ 0xF ∧ x.flash.mem (SEGMENT_DATA_START + k) = 0xFF
  · rw [if_pos hfirst] at hrecord ⊢
    refine ⟨fun a hlo hhi => ?_, fun a ha => mem_flashWriteByte_of_ne (by omega) _ _,
      [SEGMENT_DATA_START + k], rfl, fun a ha => ?_⟩
    · obtain rfl : a = SEGMENT_DATA_START + k := by omega
      rw [hrecord, mem_flashWriteByte_self, hfirst.2, BitVec.and_comm, and_ones]
    · rw [List.mem_singleton.mp ha]
      omega
  · rw [if_neg hfirst] at hrecord ⊢
    refine ⟨fun a hlo hhi => ?_, fun _ _ => rfl, [], rfl, fun a ha => absurd ha List.not_mem_nil⟩
    obtain rfl : a = SEGMENT_DATA_START + k := by omega
    exact hrecord.symm

/-- The flash at the end of each step. -/
def flashes (steps : List (ℕ × State)) : List (ℕ × Flash) :=
  steps.map fun p => (p.1, p.2.results.flash)

/-- **A step of the sweep records the failures** of its read-out. -/
theorem recorded_scan (increment delay : ℕ) (v : ℕ → ℕ → ℕ → BitVec 4) (flash : Flash) :
    Recorded (wordFails v) (· / increment) SEGMENT_DATA_START (SEGMENT_DATA_START + 65536) delay flash
      (scan (use increment delay) (v delay) 65536 ⟨SEGMENT_DATA_START, flash⟩).flash := by
  refine (scan_rule (P := fun r (x : Results) => (r ≤ 65536 →
    x.flashAddress = SEGMENT_DATA_START + r) ∧
    Recorded (wordFails v) (· / increment) SEGMENT_DATA_START
      (SEGMENT_DATA_START + r) delay flash x.flash)
    ⟨fun _ => rfl, recorded_start _ _ _ _ _⟩ ?_).2
  rintro r x hr ⟨haddress, hrecorded⟩
  have hx := haddress (Nat.le_of_lt hr)
  refine ⟨fun _ => ?_, hrecorded.extend (recorded_word increment delay r v hx)
    (Nat.le_add_right _ _) (Nat.le_succ _)⟩
  unfold use
  dsimp only
  rw [hx, u32_of_lt (by unfold SEGMENT_DATA_START; omega)]
  rfl

/-- **The sweep records the failures.** -/
theorem sweepRecorded (increment : ℕ) (v : ℕ → ℕ → ℕ → BitVec 4) {polls : ℕ → List Bool}
    {delays : List ℕ} (hpolls : ∀ delay ∈ delays, ENOUGH_POLLS ≤ (polls delay).count true)
    (dram : Dram) (flash : Flash) :
    (flashes (sweepOf increment
      (fun delay => readOut (v delay)) polls delays dram flash)).map Prod.fst = delays ∧
        SweepRecorded (wordFails v) (· / increment) SEGMENT_DATA_START
          (SEGMENT_DATA_START + 65536) flash
            (flashes (sweepOf increment
              (fun delay => readOut (v delay)) polls delays dram flash)) := by
  induction delays generalizing dram flash with
  | nil => exact ⟨rfl, trivial⟩
  | cons delay delays ih =>
    obtain ⟨hdelay, hdelays⟩ := List.forall_mem_cons.mp hpolls
    have hstep := recorded_scan increment delay v flash
    rw [← run_readOut increment delay (v delay) hdelay dram flash] at hstep
    rw [sweepOf]
    generalize run increment delay (readOut (v delay)) (polls delay)
      (State.start dram flash) = s at hstep ⊢
    obtain ⟨hfst, hrecorded⟩ := ih hdelays s.dram s.results.flash
    exact ⟨congrArg (delay :: ·) hfst, hstep, hrecorded⟩

end Overlapped

/-! ## The two heat maps -/

section

variable {increment k : ℕ} {delays : List ℕ} {v : ℕ → ℕ → ℕ → BitVec 4}

/-- A word fails when one of its bits does. -/
theorem wordFails_eq (v : ℕ → ℕ → ℕ → BitVec 4) (k delay : ℕ) :
    Overlapped.wordFails v (SEGMENT_DATA_START + k) delay =
      ((OverlappedBits.bitFails v (SEGMENT_DATA_START + 4 * k) delay ||
          OverlappedBits.bitFails v (SEGMENT_DATA_START + 4 * k + 1) delay) ||
        (OverlappedBits.bitFails v (SEGMENT_DATA_START + 4 * k + 2) delay ||
          OverlappedBits.bitFails v (SEGMENT_DATA_START + 4 * k + 3) delay)) := by
  have hbits : ∀ b : BitVec 4, (b != 0xF) =
      ((!b.getLsbD 0 || !b.getLsbD 1) || (!b.getLsbD 2 || !b.getLsbD 3)) := by decide
  have hword : ∀ i < 4, (SEGMENT_DATA_START + 4 * k + i - SEGMENT_DATA_START) / 4 = k ∧
      (SEGMENT_DATA_START + 4 * k + i - SEGMENT_DATA_START) % 4 = i := by
    intro i hi
    omega
  unfold Overlapped.wordFails OverlappedBits.bitFails
  rw [Nat.add_sub_cancel_left, hbits, (hword 1 (by decide)).1, (hword 1 (by decide)).2,
    (hword 2 (by decide)).1, (hword 2 (by decide)).2, (hword 3 (by decide)).1,
    (hword 3 (by decide)).2, show (SEGMENT_DATA_START + 4 * k - SEGMENT_DATA_START) / 4 = k by omega,
    show (SEGMENT_DATA_START + 4 * k - SEGMENT_DATA_START) % 4 = 0 by omega]

/-- **The first failure of a word** is the first one of its bits. -/
theorem first_wordFails (hincreasing : delays.Pairwise fun d d' => d / increment < d' / increment)
    (hbelow : ∀ d ∈ delays, d / increment < 255) (v : ℕ → ℕ → ℕ → BitVec 4) (k : ℕ) :
    let bit := fun i => first (OverlappedBits.bitFails v (SEGMENT_DATA_START + 4 * k + i))
      (· / increment) 255 delays
    first (Overlapped.wordFails v (SEGMENT_DATA_START + k)) (· / increment) 255 delays =
      min (min (bit 0) (bit 1)) (min (bit 2) (bit 3)) := by
  have hmono : delays.Pairwise fun d d' => d / increment ≤ d' / increment :=
    hincreasing.imp Nat.le_of_lt
  have hle : ∀ d ∈ delays, d / increment ≤ 255 := fun d hd => Nat.le_of_lt (hbelow d hd)
  intro bit
  rw [first_congr (fun delay _ => wordFails_eq v k delay) (fun _ _ => rfl), first_or hmono hle,
    first_or hmono hle, first_or hmono hle]
  rfl

/-- **The heat map of the words is the minimum of that of the bits**: the same read-outs at every
    step of a sweep, in erased flash, with the same delays, of which the quotients by the increment
    rise and stay below `255`. -/
theorem word_eq_min_of_bits (hincreasing : delays.Pairwise fun d d' => d / increment < d' / increment)
    (hbelow : ∀ d ∈ delays, d / increment < 255) (v : ℕ → ℕ → ℕ → BitVec 4)
    {pollsWords pollsBits : ℕ → List Bool}
    (hpollsWords : ∀ delay ∈ delays, Overlapped.ENOUGH_POLLS ≤ (pollsWords delay).count true)
    (hpollsBits : ∀ delay ∈ delays, ENOUGH_POLLS ≤ (pollsBits delay).count true)
    (dramWords dramBits : Dram) {flashWords flashBits : Flash}
    (herasedWords : ∀ a, SEGMENT_DATA_START ≤ a → a < SEGMENT_DATA_END → flashWords.mem a = 0xFF)
    (herasedBits : ∀ a, SEGMENT_DATA_START ≤ a → a < SEGMENT_DATA_END → flashBits.mem a = 0xFF)
    (hk : k < 65536) (hspace : SEGMENT_DATA_START + 4 * k + 4 ≤ SEGMENT_DATA_END) :
    let words := flashAfter flashWords (Overlapped.flashes (Overlapped.sweepOf increment
      (fun delay => readOut (v delay)) pollsWords delays dramWords flashWords))
    let bits := flashAfter flashBits (OverlappedBits.flashes (OverlappedBits.sweepOf increment
      (fun delay => readOut (v delay)) pollsBits delays dramBits flashBits))
    let bit := fun i => (bits.mem (SEGMENT_DATA_START + 4 * k + i)).toNat
    (words.mem (SEGMENT_DATA_START + k)).toNat = min (min (bit 0) (bit 1)) (min (bit 2) (bit 3)) := by
  intro words bits bit
  obtain ⟨hfstWords, hwords⟩ := Overlapped.sweepRecorded increment v hpollsWords dramWords flashWords
  have hruns : ∀ delay ∈ delays, ∀ dram flash,
      (run (OverlappedBits.bodyOf increment delay) (readOut (v delay))
        (OverlappedBits.blockToStartTesting delay) (pollsBits delay)
          (Loop.start dram ⟨SEGMENT_DATA_START, flash⟩)).rest =
              scan (OverlappedBits.bodyOf increment delay).use (v delay) 65536
                ⟨SEGMENT_DATA_START, flash⟩ :=
    fun delay hdelay dram flash => run_readOut (fun _ _ _ => rfl)
      (OverlappedBits.blockToStartTesting_lt delay)
      (hpollsBits delay hdelay) dram _
  obtain ⟨hfstBits, hbits⟩ := OverlappedBits.sweepRecorded hruns dramBits flashBits
  rw [← OverlappedBits.map_fst_flashes] at hfstBits
  have hbit : ∀ i < 4, bit i =
      first (OverlappedBits.bitFails v (SEGMENT_DATA_START + 4 * k + i))
        (· / increment) 255 delays := by
    intro i hi
    have hlo : SEGMENT_DATA_START ≤ SEGMENT_DATA_START + 4 * k + i := by omega
    have hhi : SEGMENT_DATA_START + 4 * k + i < SEGMENT_DATA_END := by omega
    have hmem := hbits.toNat_mem hlo hhi (herasedBits _ hlo hhi) (by rw [hfstBits]; exact hbelow)
    rwa [hfstBits] at hmem
  have hword := hwords.toNat_mem (Nat.le_add_right _ k) (Nat.add_lt_add_left hk _)
    (herasedWords _ (Nat.le_add_right _ k) (by omega)) (by rw [hfstWords]; exact hbelow)
  rw [hfstWords, first_wordFails hincreasing hbelow v k] at hword
  rw [hbit 0 (by decide), hbit 1 (by decide), hbit 2 (by decide), hbit 3 (by decide)]
  exact hword

/-- At two steps of a sweep, at the second of which the lowest bit of each word reads as zero. -/
theorem word_eq_min_of_bits_two_steps :
    let v : ℕ → ℕ → ℕ → BitVec 4 := fun delay row _ => if delay = 2 then rowWord row
      else rowWord row &&& 0xE
    let words := flashAfter ⟨fun _ => 0xFF, []⟩ (Overlapped.flashes (Overlapped.sweepOf 2
      (fun delay => readOut (v delay)) (fun _ => List.replicate Overlapped.ENOUGH_POLLS true)
        [2, 4] (fun _ _ => 0)
      ⟨fun _ => 0xFF, []⟩))
    let bits := flashAfter ⟨fun _ => 0xFF, []⟩ (OverlappedBits.flashes (OverlappedBits.sweepOf 2
      (fun delay => readOut (v delay)) (fun _ => List.replicate ENOUGH_POLLS true)
        [2, 4] (fun _ _ => 0)
      ⟨fun _ => 0xFF, []⟩))
    let bit := fun i => (bits.mem (SEGMENT_DATA_START + 4 * 7 + i)).toNat
    (words.mem (SEGMENT_DATA_START + 7)).toNat = min (min (bit 0) (bit 1)) (min (bit 2) (bit 3)) := by
  intro v
  have hpolls : ∀ n, n ≤ (List.replicate n true).count true :=
    fun n => Nat.le_of_eq List.count_replicate_self.symm
  exact word_eq_min_of_bits (by decide) (by decide) v (fun _ _ => hpolls _) (fun _ _ => hpolls _) _ _
    (fun _ _ _ => rfl) (fun _ _ _ => rfl) (by decide) (by decide)

end

end ProbableCause
