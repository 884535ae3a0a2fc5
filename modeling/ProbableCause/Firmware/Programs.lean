import ProbableCause.Firmware.Exposure
import Mathlib.Algebra.Group.Int.Defs

/-!
# `Firmware.Programs` — `dram_fingerprint`, `dram_imgdecay` and `overlappedBits`

The three programs that run the interleaved loop of `Firmware.Schedule`, each with its own
constants, values to write and use of the values read. `SEGMENT_DATA_START` is a parameter of the
first two, as the images the experiments flash are built for another address than `flash.h` has. The
third one runs the loop once for each delay of a sweep. `fixed_exposure_of_every_row` is the law of
fixed exposure for all three.
-/

namespace ProbableCause

/-- What goes to flash for a half byte read at an even or an odd column: the half byte, with ones in
    the other half. -/
def halfByte (col : ℕ) (data : BitVec 8) : BitVec 8 :=
  if col % 2 = 0 then (data <<< 4) ||| 0xF else data ||| 0xF0

/-- The word that is written to a row: even rows are written with ones and odd rows with zeros. -/
def rowWord (row : ℕ) : BitVec 4 := if row % 2 = 1 then 0x0 else 0xF

/-- What is read from rows that have been written. -/
def rowsRead (decay : Decay) (row col : ℕ) : BitVec 4 := decay row col (rowWord row)

theorem setWidth_rowWord (row : ℕ) :
    (if row % 2 = 1 then 0x0 else 0xF : BitVec 8).setWidth 4 = rowWord row := by
  unfold rowWord
  split <;> rfl

/-! ## `dram_fingerprint` -/

namespace Fingerprint

def BLOCK_TIME_OFFSET : ℕ := 500
def TICKS_PER_SEC : ℕ := 10000

def blockToStartTesting (delay : BitVec 16) : ℕ :=
  u32 (u32 (delay.toNat * TICKS_PER_SEC) / BLOCK_TIME_OFFSET + DRAM_NUM_COLS)

structure State where
  baseAddressFlash : ℕ
  flash : Flash

/-- Even rows are written with ones and odd rows with zeros; what is stored is normalized so that
    zeros mean failure. -/
def body : Body State where
  value writeRow _ _ := if writeRow % 2 = 1 then 0x0 else 0xF
  fetch _ _ s := s
  use readRow readCol dataFromDRAM s :=
    let failTo0 := dataFromDRAM
    let failTo1 := ~~~dataFromDRAM
    let dataToWrite := if readRow % 2 = 0 then failTo0 else failTo1
    { baseAddressFlash :=
        if readCol % 2 = 1 then u32 (s.baseAddressFlash + 1) else s.baseAddressFlash
      flash := flashWriteByte s.flash s.baseAddressFlash (halfByte readCol dataToWrite) }

def main (segmentDataStart : ℕ) (delay : BitVec 16) (decay : Decay) (polls : List Bool) (dram : Dram)
    (flash : Flash) : Loop State :=
  run body decay (blockToStartTesting delay) polls (Loop.start dram ⟨segmentDataStart + 2, flash⟩)

end Fingerprint

/-! ## `dram_imgdecay` -/

namespace ImgDecay

def BLOCK_TIME_OFFSET : ℕ := 450
def TICKS_PER_SEC : ℕ := 10000

def blockToStartTesting (delay : BitVec 16) : ℕ :=
  u32 (u32 (delay.toNat * TICKS_PER_SEC) / BLOCK_TIME_OFFSET + DRAM_NUM_COLS)

structure State where
  flashAddressRead : ℕ
  flashAddressWrite : ℕ
  img : BitVec 8
  flash : Flash

/-- A byte of the image is fetched at every even column and written in two halves. -/
def body : Body State where
  value _ writeCol s :=
    if writeCol % 2 = 0 then (flashReadByte s.flash s.flashAddressRead >>> 4) &&& 0xF
    else s.img &&& 0xF
  fetch _ writeCol s :=
    if writeCol % 2 = 0 then
      { s with
        img := flashReadByte s.flash s.flashAddressRead
        flashAddressRead := u32 (s.flashAddressRead + 1) }
    else s
  use _ readCol dataFromDRAM s :=
    { s with
      flash := flashWriteByte s.flash s.flashAddressWrite (halfByte readCol dataFromDRAM)
      flashAddressWrite := u32 (s.flashAddressWrite + if readCol % 2 = 1 then 1 else 0) }

/-- The variable `img` has no value before the first byte is fetched. -/
def main (segmentDataStart : ℕ) (decay : Decay) (polls : List Bool) (dram : Dram) (flash : Flash)
    (img : BitVec 8) : Loop State :=
  let delay := flashRb flash segmentDataStart
  let flashAddressRead := segmentDataStart + 2
  let flashAddressWrite := u32 (flashAddressRead + DRAM_NUM_COLS * (DRAM_NUM_ROWS / 2))
  run body decay (blockToStartTesting delay) polls
    (Loop.start dram ⟨flashAddressRead, flashAddressWrite, img, flash⟩)

end ImgDecay

/-! ## `overlappedBits` -/

namespace OverlappedBits

def BLOCK_TIME_OFFSET : ℕ := 850
def MIN_DELAY : ℕ := 2
def MAX_DELAY : ℕ := 450
def DELAY_INCREMENT : ℕ := 2
def TICKS_PER_SEC : ℕ := 1000000

/-- The range of `long`. -/
def i32 (n : ℤ) : ℤ := Int.bmod n (2 ^ 32)

/-- The delay is an `int` and `TICKS_PER_SEC` a `long`, so the arithmetic is signed; the result is
    stored in an `unsigned long`. -/
def blockToStartTesting (delay : ℕ) : ℕ :=
  (i32 (Int.tdiv (i32 ((delay : ℤ) * (TICKS_PER_SEC : ℤ))) (BLOCK_TIME_OFFSET : ℤ) +
    (DRAM_NUM_COLS : ℤ)) % 2 ^ 32).toNat

structure State where
  baseAddressFlash : ℕ
  flash : Flash

/-! The increment of the delay is a parameter of the loop and of the sweep. -/

/-- The results of one word: the byte of each bit that fails for the first time gets the delay. -/
def newResultsOf (increment delay readRow : ℕ) (dataFromDRAM : BitVec 8)
    (currResults : BitVec 32) : BitVec 32 :=
  let currInc : BitVec 32 := 0xFFFFFF00 ||| BitVec.ofNat 32 (delay / increment)
  (List.range DRAM_BITS_PER_WORD).foldl (fun newResults i =>
    if ((dataFromDRAM >>> i) ^^^ BitVec.ofNat 8 readRow) &&& 0x1 = 0 ∧
        currResults &&& (0xFF#32 <<< (8 * i)) = 0xFF#32 <<< (8 * i) then
      newResults &&& ((currInc <<< (8 * i)) ||| BitVec.ofNat 32 (2 ^ (8 * i) - 1))
    else newResults) 0xFFFFFFFF

def bodyOf (increment delay : ℕ) : Body State where
  value writeRow _ _ := if writeRow % 2 = 1 then 0x0 else 0xF
  fetch _ _ s := s
  use readRow _ dataFromDRAM s :=
    -- only as long as flash has space for the results
    if s.baseAddressFlash < SEGMENT_DATA_END then
      { baseAddressFlash := u32 (s.baseAddressFlash + 4)
        flash := flashWriteLong s.flash s.baseAddressFlash
          (newResultsOf increment delay readRow dataFromDRAM
            (flashReadLong s.flash s.baseAddressFlash)) }
    else s

/-- The steps of the sweep over some delays, each with what the timer says and how the DRAM decays
    during it: the delay and the loop at its end. -/
def sweepOf (increment : ℕ) (decay : ℕ → Decay) (polls : ℕ → List Bool) :
    List ℕ → Dram → Flash → List (ℕ × Loop State)
  | [], _, _ => []
  | delay :: delays, dram, flash =>
    let s := run (bodyOf increment delay) (decay delay) (blockToStartTesting delay) (polls delay)
      (Loop.start dram ⟨SEGMENT_DATA_START, flash⟩)
    (delay, s) :: sweepOf increment decay polls delays s.dram s.rest.flash

/-- The loop of the source. -/
def body (delay : ℕ) : Body State := bodyOf DELAY_INCREMENT delay

/-- The delays of `for(int delay = MIN_DELAY; delay <= MAX_DELAY; delay = delay + DELAY_INCREMENT)`.
-/
def delays : List ℕ :=
  (List.range ((MAX_DELAY - MIN_DELAY) / DELAY_INCREMENT + 1)).map fun i =>
    MIN_DELAY + DELAY_INCREMENT * i

def main (decay : ℕ → Decay) (polls : ℕ → List Bool) (dram : Dram) (flash : Flash) :
    List (ℕ × Loop State) :=
  sweepOf DELAY_INCREMENT decay polls delays dram flash

end OverlappedBits

/-! ## The blocks to wait -/

/-- A delay of 16 bits keeps the product and the sum in the range of `unsigned long`. -/
theorem u32_delay (delay : BitVec 16) (offset : ℕ) :
    u32 (u32 (delay.toNat * 10000) / offset + DRAM_NUM_COLS) =
      delay.toNat * 10000 / offset + DRAM_NUM_COLS := by
  have hdelay : delay.toNat < 65536 := delay.isLt
  have hproduct : u32 (delay.toNat * 10000) = delay.toNat * 10000 := u32_of_lt (by omega)
  have hquotient : delay.toNat * 10000 / offset ≤ delay.toNat * 10000 := Nat.div_le_self _ _
  unfold DRAM_NUM_COLS
  rw [hproduct, u32_of_lt (by omega)]

theorem Fingerprint.blockToStartTesting_eq (delay : BitVec 16) :
    Fingerprint.blockToStartTesting delay = delay.toNat * 10000 / 500 + DRAM_NUM_COLS :=
  u32_delay delay 500

theorem ImgDecay.blockToStartTesting_eq (delay : BitVec 16) :
    ImgDecay.blockToStartTesting delay = delay.toNat * 10000 / 450 + DRAM_NUM_COLS :=
  u32_delay delay 450

theorem OverlappedBits.i32_of_lt {n : ℤ} (h0 : 0 ≤ n) (h : n < 2 ^ 31) : i32 n = n := by
  unfold i32
  rw [Int.bmod_eq_of_le (by omega) (by omega)]

theorem OverlappedBits.le_of_mem_delays {delay : ℕ} (h : delay ∈ delays) : delay ≤ 450 := by
  obtain ⟨i, hi, rfl⟩ := List.mem_map.mp h
  have hi' : i < 225 := List.mem_range.mp hi
  unfold MIN_DELAY DELAY_INCREMENT
  omega

theorem OverlappedBits.blockToStartTesting_lt (delay : ℕ) :
    OverlappedBits.blockToStartTesting delay < 2 ^ 32 := by
  unfold blockToStartTesting
  have hlt := Int.emod_lt_of_pos
    (i32 (Int.tdiv (i32 ((delay : ℤ) * (TICKS_PER_SEC : ℤ))) (BLOCK_TIME_OFFSET : ℤ) +
      (DRAM_NUM_COLS : ℤ))) (show (0 : ℤ) < 2 ^ 32 by decide)
  omega

theorem OverlappedBits.blockToStartTesting_eq {delay : ℕ} (h : delay ≤ 450) :
    OverlappedBits.blockToStartTesting delay = delay * 1000000 / 850 + DRAM_NUM_COLS := by
  have hproduct : i32 ((delay : ℤ) * (1000000 : ℕ)) = delay * (1000000 : ℕ) :=
    i32_of_lt (by omega) (by omega)
  have hdiv : Int.tdiv ((delay : ℤ) * (1000000 : ℕ)) (850 : ℕ) =
      (delay : ℤ) * (1000000 : ℕ) / (850 : ℕ) :=
    Int.tdiv_eq_ediv_of_nonneg (by omega)
  unfold blockToStartTesting TICKS_PER_SEC BLOCK_TIME_OFFSET DRAM_NUM_COLS
  have hcast : (delay : ℤ) * (1000000 : ℕ) / (850 : ℕ) + (256 : ℕ) =
      ((delay * 1000000 / 850 + 256 : ℕ) : ℤ) := by
    omega
  rw [hproduct, hdiv, i32_of_lt (by omega) (by omega), hcast,
    Int.emod_eq_of_lt (by omega) (by omega), Int.toNat_natCast]

/-! ## The flash addresses -/

/-- The address advances with every second word read: each of the `32768` addresses behind the delay
    is written twice, in order. -/
theorem Fingerprint.addresses_eq {segmentDataStart : ℕ} (hseg : segmentDataStart ≤ SEGMENT_DATA_END)
    (delay : BitVec 16) (decay : Decay) {polls : List Bool}
    (hpolls : blockTotal (blockToStartTesting delay) ≤ polls.count true) (dram : Dram)
    (flash : Flash) :
    (Fingerprint.main segmentDataStart delay decay polls dram flash).rest.baseAddressFlash =
        segmentDataStart + 2 + 32768 ∧
      (Fingerprint.main segmentDataStart delay decay polls dram flash).rest.flash.written =
        ((List.range 65536).map fun k => segmentDataStart + 2 + k / 2).reverse ++ flash.written := by
  have hdelay : delay.toNat < 65536 := delay.isLt
  unfold SEGMENT_DATA_END at hseg
  rw [blockToStartTesting_eq] at hpolls
  rw [main, blockToStartTesting_eq]
  have hend := loop_invariant body decay dram ⟨segmentDataStart + 2, flash⟩
    (fun _ r _ x => r ≤ 65536 ∧
      x.baseAddressFlash = segmentDataStart + 2 + r / 2 ∧
      x.flash.written = ((List.range r).map fun k => segmentDataStart + 2 + k / 2).reverse ++
        flash.written)
    (fun w r d x _ hI => hI) ?_ (one_le_start _) (blockTotal_lt (by omega)) hpolls
    ⟨Nat.zero_le _, rfl, rfl⟩
  · exact hend.2
  · rintro w r d x hrw hw ⟨hr, hx, hwritten⟩
    refine ⟨by omega, ?_, ?_⟩
    · show (if r % 256 % 2 = 1 then u32 (x.baseAddressFlash + 1) else x.baseAddressFlash) = _
      rw [hx]
      split
      · rw [u32_of_lt (by omega)]
        omega
      · omega
    · show x.baseAddressFlash :: x.flash.written = _
      rw [hwritten, hx, List.range_succ, List.map_append, List.reverse_append]
      rfl

/-- The results start behind the image, which is half the size of the array. -/
theorem ImgDecay.flashAddressWrite_start {base : ℕ} (hbase : base + 32768 < 2 ^ 32) :
    u32 (base + DRAM_NUM_COLS * (DRAM_NUM_ROWS / 2)) = base + 32768 := u32_of_lt hbase

/-- The addresses advance with every second word written and with every second word read. -/
theorem ImgDecay.addresses_eq {segmentDataStart : ℕ} (hseg : segmentDataStart ≤ SEGMENT_DATA_END)
    (decay : Decay) {polls : List Bool} (dram : Dram) (flash : Flash) (img : BitVec 8)
    (hpolls : blockTotal (blockToStartTesting (flashRb flash segmentDataStart)) ≤ polls.count true) :
    (ImgDecay.main segmentDataStart decay polls dram flash img).rest.flashAddressRead =
        segmentDataStart + 2 + 32768 ∧
      (ImgDecay.main segmentDataStart decay polls dram flash img).rest.flashAddressWrite =
        segmentDataStart + 2 + 2 * 32768 := by
  have hdelay : (flashRb flash segmentDataStart).toNat < 65536 :=
    (flashRb flash segmentDataStart).isLt
  unfold SEGMENT_DATA_END at hseg
  rw [blockToStartTesting_eq] at hpolls
  rw [main, blockToStartTesting_eq, flashAddressWrite_start (by omega)]
  have hend := loop_invariant body decay dram
    ⟨segmentDataStart + 2, segmentDataStart + 2 + 32768, img, flash⟩
    (fun w r _ x => r ≤ 65536 ∧ x.flashAddressRead = segmentDataStart + 2 + (w + 1) / 2 ∧
      x.flashAddressWrite = segmentDataStart + 2 + 32768 + r / 2) ?_ ?_ (one_le_start _)
    (blockTotal_lt (by omega)) hpolls ⟨Nat.zero_le _, rfl, rfl⟩
  · obtain ⟨-, hread, hwrite⟩ := hend
    have hsum : segmentDataStart + 2 + 32768 + 65536 / 2 = segmentDataStart + 2 + 2 * 32768 := by
      omega
    exact ⟨hread, hwrite.trans hsum⟩
  · rintro w r d x hw ⟨hr, hread, hwrite⟩
    refine ⟨hr, ?_, ?_⟩
    · show (if w % 256 % 2 = 0 then ({ x with
          img := flashReadByte x.flash x.flashAddressRead
          flashAddressRead := u32 (x.flashAddressRead + 1) } : State) else x).flashAddressRead = _
      split
      · show u32 (x.flashAddressRead + 1) = _
        rw [hread, u32_of_lt (by omega)]
        omega
      · rw [hread]
        omega
    · show (if w % 256 % 2 = 0 then ({ x with
          img := flashReadByte x.flash x.flashAddressRead
          flashAddressRead := u32 (x.flashAddressRead + 1) } : State) else x).flashAddressWrite = _
      split <;> exact hwrite
  · rintro w r d x hrw hw ⟨hr, hread, hwrite⟩
    refine ⟨by omega, hread, ?_⟩
    show u32 (x.flashAddressWrite + if r % 256 % 2 = 1 then 1 else 0) = _
    rw [hwrite, u32_of_lt (by split <;> omega)]
    split <;> omega

/-- The address advances with every word read until flash is full. -/
theorem OverlappedBits.address_eq {delay : ℕ} (hdelay : delay ≤ 450) (decay : Decay)
    {polls : List Bool} (hpolls : blockTotal (blockToStartTesting delay) ≤ polls.count true)
    (dram : Dram) (flash : Flash) :
    (run (body delay) decay (blockToStartTesting delay) polls
      (Loop.start dram ⟨SEGMENT_DATA_START, flash⟩)).rest.baseAddressFlash = SEGMENT_DATA_END := by
  rw [blockToStartTesting_eq hdelay] at hpolls ⊢
  have hend := loop_invariant (body delay) decay dram ⟨SEGMENT_DATA_START, flash⟩
    (fun _ r _ x => x.baseAddressFlash = min (SEGMENT_DATA_START + 4 * r) SEGMENT_DATA_END)
    (fun w r d x _ hI => hI) ?_ (one_le_start _) (blockTotal_lt (by omega)) hpolls rfl
  · rw [hend]
    decide
  · intro w r d x _ _ hx
    show (if x.baseAddressFlash < SEGMENT_DATA_END then ({
        baseAddressFlash := u32 (x.baseAddressFlash + 4)
        flash := flashWriteLong x.flash x.baseAddressFlash
          (newResultsOf DELAY_INCREMENT delay (r / 256) (dramRb decay d (r / 256) (r % 256))
            (flashReadLong x.flash x.baseAddressFlash)) } : State)
      else x).baseAddressFlash = _
    unfold SEGMENT_DATA_START SEGMENT_DATA_END at *
    split
    · show u32 (x.baseAddressFlash + 4) = _
      rw [u32_of_lt (by omega)]
      omega
    · omega

/-! ## The law -/

/-- The steps of a sweep are runs of the loop. -/
theorem OverlappedBits.exists_of_mem_sweep {decay : ℕ → Decay} {polls : ℕ → List Bool}
    {delays : List ℕ} {dram : Dram} {flash : Flash} {p : ℕ × Loop State}
    (h : p ∈ sweepOf DELAY_INCREMENT decay polls delays dram flash) :
    p.1 ∈ delays ∧ ∃ dram flash,
      p.2 = run (body p.1) (decay p.1) (blockToStartTesting p.1) (polls p.1)
        (Loop.start dram ⟨SEGMENT_DATA_START, flash⟩) := by
  induction delays generalizing dram flash with
  | nil => cases h
  | cons delay delays ih =>
    rw [sweepOf] at h
    rcases List.mem_cons.mp h with rfl | hrest
    · exact ⟨List.mem_cons_self, dram, flash, rfl⟩
    · obtain ⟨hmem, hrun⟩ := ih hrest
      exact ⟨List.mem_cons_of_mem _ hmem, hrun⟩

/-- **Every row is exposed for `delay * TICKS_PER_SEC / BLOCK_TIME_OFFSET` blocks**, in each of the
    three programs: given enough periods of the timer the loop ends and has run as scheduled, and
    the products, block numbers and flash addresses of the run are the exact ones, all below
    `2 ^ 32`. -/
theorem fixed_exposure_of_every_row :
    (∀ (segmentDataStart : ℕ) (delay : BitVec 16) (decay : Decay) (polls : List Bool) (dram : Dram)
      (flash : Flash), segmentDataStart ≤ SEGMENT_DATA_END →
      blockTotal (Fingerprint.blockToStartTesting delay) ≤ polls.count true →
      let s := Fingerprint.main segmentDataStart delay decay polls dram flash
      Scheduled (delay.toNat * Fingerprint.TICKS_PER_SEC / Fingerprint.BLOCK_TIME_OFFSET) s ∧
        delay.toNat * Fingerprint.TICKS_PER_SEC < 2 ^ 32 ∧ s.blockCounter < 2 ^ 32 ∧
        s.rest.baseAddressFlash = segmentDataStart + 2 + 32768 ∧ s.rest.baseAddressFlash < 2 ^ 32) ∧
    (∀ (segmentDataStart : ℕ) (decay : Decay) (polls : List Bool) (dram : Dram) (flash : Flash)
      (img : BitVec 8), segmentDataStart ≤ SEGMENT_DATA_END →
      blockTotal (ImgDecay.blockToStartTesting (flashRb flash segmentDataStart)) ≤ polls.count true →
      let delay := flashRb flash segmentDataStart
      let s := ImgDecay.main segmentDataStart decay polls dram flash img
      Scheduled (delay.toNat * ImgDecay.TICKS_PER_SEC / ImgDecay.BLOCK_TIME_OFFSET) s ∧
        delay.toNat * ImgDecay.TICKS_PER_SEC < 2 ^ 32 ∧ s.blockCounter < 2 ^ 32 ∧
        s.rest.flashAddressRead = segmentDataStart + 2 + 32768 ∧
        s.rest.flashAddressWrite = segmentDataStart + 2 + 2 * 32768 ∧
        s.rest.flashAddressWrite < 2 ^ 32) ∧
    ∀ (decay : ℕ → Decay) (polls : ℕ → List Bool) (dram : Dram) (flash : Flash),
      (∀ delay ∈ OverlappedBits.delays,
        blockTotal (OverlappedBits.blockToStartTesting delay) ≤ (polls delay).count true) →
      ∀ p ∈ OverlappedBits.main decay polls dram flash,
        Scheduled (p.1 * OverlappedBits.TICKS_PER_SEC / OverlappedBits.BLOCK_TIME_OFFSET) p.2 ∧
          p.1 * OverlappedBits.TICKS_PER_SEC < 2 ^ 31 ∧ p.2.blockCounter < 2 ^ 32 ∧
          p.2.rest.baseAddressFlash = SEGMENT_DATA_END := by
  refine ⟨?_, ?_, ?_⟩
  · intro segmentDataStart delay decay polls dram flash hseg hpolls
    have hdelay : delay.toNat < 65536 := delay.isLt
    have hD : delay.toNat * 10000 / 500 < 2 ^ 31 := by omega
    have hsched : Scheduled (delay.toNat * 10000 / 500)
        (Fingerprint.main segmentDataStart delay decay polls dram flash) := by
      unfold Fingerprint.main
      rw [Fingerprint.blockToStartTesting_eq] at hpolls ⊢
      exact run_scheduled hD hpolls dram _
    have haddress := (Fingerprint.addresses_eq hseg delay decay hpolls dram flash).1
    unfold SEGMENT_DATA_END at hseg
    refine ⟨hsched, ?_, hsched.blockCounter_lt hD, haddress, by rw [haddress]; omega⟩
    unfold Fingerprint.TICKS_PER_SEC
    omega
  · intro segmentDataStart decay polls dram flash img hseg hpolls
    have hdelay : (flashRb flash segmentDataStart).toNat < 65536 :=
      (flashRb flash segmentDataStart).isLt
    have hD : (flashRb flash segmentDataStart).toNat * 10000 / 450 < 2 ^ 31 := by omega
    have hsched : Scheduled ((flashRb flash segmentDataStart).toNat * 10000 / 450)
        (ImgDecay.main segmentDataStart decay polls dram flash img) := by
      unfold ImgDecay.main
      dsimp only
      rw [ImgDecay.blockToStartTesting_eq] at hpolls ⊢
      exact run_scheduled hD hpolls dram _
    obtain ⟨hread, hwrite⟩ := ImgDecay.addresses_eq hseg decay dram flash img hpolls
    unfold SEGMENT_DATA_END at hseg
    refine ⟨hsched, ?_, hsched.blockCounter_lt hD, hread, hwrite, by rw [hwrite]; omega⟩
    unfold ImgDecay.TICKS_PER_SEC
    omega
  · intro decay polls dram flash hpolls p hp
    obtain ⟨hmem, dram', flash', hrun⟩ := OverlappedBits.exists_of_mem_sweep hp
    have hdelay := OverlappedBits.le_of_mem_delays hmem
    have hD : p.1 * 1000000 / 850 < 2 ^ 31 := by omega
    have hp := hpolls p.1 hmem
    have haddress := OverlappedBits.address_eq hdelay (decay p.1) hp dram' flash'
    have hsched : Scheduled (p.1 * 1000000 / 850) p.2 := by
      rw [hrun]
      rw [OverlappedBits.blockToStartTesting_eq hdelay] at hp ⊢
      exact run_scheduled hD hp dram' _
    rw [← hrun] at haddress
    refine ⟨hsched, ?_, hsched.blockCounter_lt hD, haddress⟩
    unfold OverlappedBits.TICKS_PER_SEC
    omega

/-- `dram_fingerprint` with the delay it is built with, on a DRAM that keeps its words, with one due
    poll for each block. -/
theorem fixed_exposure_of_every_row_built_in :
    let s := Fingerprint.main SEGMENT_DATA_START 0x115 (fun _ _ v => v)
      (List.replicate (blockTotal (Fingerprint.blockToStartTesting 0x115)) true) (fun _ _ => 0)
      ⟨fun _ => 0xFF, []⟩
    Scheduled
        ((0x115 : BitVec 16).toNat * Fingerprint.TICKS_PER_SEC / Fingerprint.BLOCK_TIME_OFFSET) s ∧
      (0x115 : BitVec 16).toNat * Fingerprint.TICKS_PER_SEC < 2 ^ 32 ∧ s.blockCounter < 2 ^ 32 ∧
      s.rest.baseAddressFlash = SEGMENT_DATA_START + 2 + 32768 ∧ s.rest.baseAddressFlash < 2 ^ 32 :=
  fixed_exposure_of_every_row.1 _ _ _ _ _ _ (by decide)
    (Nat.le_of_eq List.count_replicate_self.symm)

end ProbableCause
