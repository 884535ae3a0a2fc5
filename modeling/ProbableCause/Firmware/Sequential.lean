import ProbableCause.Firmware.Packing

/-!
# `Firmware.Sequential` — `sequentialBits`: the sweep that stops

At each step of the sweep the program writes all of the DRAM, waits, and reads all of it; the words
that have changed are counted down from `0xFFFF`, as their number does not fit an `unsigned int`. It
stops when less than nine tenths of `0xFFFF` are left. `validWords_eq` is the counter after a step.
The substitute for `65536` makes no difference to the rule as long as a word is valid; when none is,
the counter has wrapped around, and the program goes on (`stops_right_iff`).
-/

namespace ProbableCause.SequentialBits

def MAX_DELAY : ℕ := 15000
def STEP_DELAY : ℕ := 1000
def MIN_DELAY : ℕ := STEP_DELAY
def TICKS_PER_SECOND : ℕ := 10000
def FREQ : ℕ := 1000000

/-! ## The program -/

/-- `dram_power_on`, with its garbage writes. -/
def dramPowerOn (dram : Dram) : Dram := dramWb (dramWb dram 0 1 0xF) 1 1 0xF

/-- The variables of the reading loop. -/
structure Reading where
  baseAddressFlash : ℕ
  validWords : BitVec 16
  flash : Flash

/-- The body of the writing loop. -/
def write (writeRow writeCol : ℕ) (dram : Dram) : Dram :=
  dramWb dram writeRow writeCol (if writeRow % 2 = 1 then 0x0 else 0xF)

/-- The body of the reading loop, for the word read. -/
def use (delay readRow _readCol : ℕ) (dataFromDRAM : BitVec 8) (x : Reading) : Reading :=
  -- only as long as flash has space for the results
  if x.baseAddressFlash < SEGMENT_DATA_END then
    let dataToCheckFor : BitVec 8 := if readRow % 2 = 0 then 0xF else 0x0
    { baseAddressFlash := u32 (x.baseAddressFlash + 1)
      validWords := if dataFromDRAM ≠ dataToCheckFor then x.validWords - 1 else x.validWords
      flash :=
        if dataFromDRAM ≠ dataToCheckFor ∧ flashReadByte x.flash x.baseAddressFlash = 0xFF then
          flashWriteByte x.flash x.baseAddressFlash
            (BitVec.ofNat 8 (delay / (FREQ / TICKS_PER_SECOND)))
        else x.flash }
  else x

/-- A step of the sweep: the DRAM that is written, and the results of reading what is left of it. -/
def step (delay : ℕ) (decay : Decay) (dram : Dram) (flash : Flash) : Dram × Reading :=
  let dram := (wordLoop write (dramPowerOn dram)).rest
  (dram, (wordLoop (fun row col => use delay row col (dramRb decay dram row col))
    ⟨0x3A00, 0xFFFF, flash⟩).rest)

/-- A step that has been made. -/
structure Step where
  delay : ℕ
  reading : Reading
  returned : Bool

/-- The steps of the sweep over some delays, each with how the DRAM decays during it. -/
def sweep (decay : ℕ → Decay) : List ℕ → Dram → Flash → List Step
  | [], _, _ => []
  | delay :: delays, dram, flash =>
    let after := step delay (decay delay) dram flash
    -- `validWords < (.9 * 0xFFFF)`
    let returned := decide (10 * after.2.validWords.toNat < 9 * 0xFFFF)
    ⟨delay, after.2, returned⟩ :: if returned then [] else sweep decay delays after.1 after.2.flash

/-- The delays of `for(unsigned int delay = MIN_DELAY; delay <= MAX_DELAY; delay += STEP_DELAY)`. -/
def delays : List ℕ := (List.range ((MAX_DELAY - MIN_DELAY) / STEP_DELAY + 1)).map fun i =>
    MIN_DELAY + STEP_DELAY * i

def main (decay : ℕ → Decay) (dram : Dram) (flash : Flash) : List Step :=
  sweep decay delays (dramPowerOn dram) flash

/-! ## The counter -/

/-- How many of the first words have a bit that has changed. -/
def failedWords (v : ℕ → ℕ → BitVec 4) (n : ℕ) : ℕ :=
  (List.range n).countP fun k => decide (v (k / 256) (k % 256) ≠ rowWord (k / 256))

/-- How many words of the DRAM are still as they were written. -/
def valid (v : ℕ → ℕ → BitVec 4) : ℕ :=
  (List.range 65536).countP fun k => decide (v (k / 256) (k % 256) = rowWord (k / 256))

theorem failedWords_succ (v : ℕ → ℕ → BitVec 4) (n : ℕ) :
    failedWords v (n + 1) = failedWords v n + if v (n / 256) (n % 256) ≠ rowWord (n / 256)
      then 1 else 0 := by
  rw [failedWords, List.range_succ, List.countP_append, List.countP_singleton, failedWords]
  simp only [decide_eq_true_eq]

/-- A word is valid or has failed. -/
theorem valid_add_failedWords (v : ℕ → ℕ → BitVec 4) : valid v + failedWords v 65536 = 65536 := by
  have hlength := List.length_eq_countP_add_countP
    (fun k => decide (v (k / 256) (k % 256) = rowWord (k / 256))) (l := List.range 65536)
  rw [List.length_range] at hlength
  simp only [decide_eq_true_eq] at hlength
  exact hlength.symm

theorem setWidth_ne_iff (w : BitVec 4) (row : ℕ) :
    w.setWidth 8 ≠ (if row % 2 = 0 then 0xF else 0x0 : BitVec 8) ↔ w ≠ rowWord row := by
  have hcases : ∀ w : BitVec 4, (w.setWidth 8 ≠ 0xF#8 ↔ w ≠ 0xF#4) ∧ (w.setWidth 8 ≠ 0x0#8 ↔
    w ≠ 0x0#4) := by decide
  unfold rowWord
  rcases Nat.mod_two_eq_zero_or_one row with h | h
  · rw [h, if_pos rfl, if_neg (by decide)]
    exact (hcases w).1
  · rw [h, if_neg (by decide), if_pos rfl]
    exact (hcases w).2

/-- What holds after the first words have been read: there is space for all results. -/
def ReadInv (v : ℕ → ℕ → BitVec 4) (n : ℕ) (x : Reading) : Prop :=
  x.baseAddressFlash = 0x3A00 + n ∧ x.validWords = 0xFFFF - BitVec.ofNat 16 (failedWords v n)

/-- **One word.** -/
theorem ReadInv.use {v : ℕ → ℕ → BitVec 4} {n : ℕ} {x : Reading} (h : ReadInv v n x)
    (hn : n < 65536) (delay : ℕ) :
    ReadInv v (n + 1) (use delay (n / 256) (n % 256) ((v (n / 256) (n % 256)).setWidth 8) x) := by
  obtain ⟨haddress, hvalid⟩ := h
  have hspace : x.baseAddressFlash < SEGMENT_DATA_END := by
    rw [haddress, SEGMENT_DATA_END]
    omega
  rw [SequentialBits.use, if_pos hspace]
  refine ⟨?_, ?_⟩
  · rw [haddress, u32_of_lt (by omega)]
    rfl
  · dsimp only
    rw [failedWords_succ, hvalid]
    simp only [setWidth_ne_iff]
    split
    · rw [BitVec.ofNat_add]
      exact BitVec.sub_sub _ _ _
    · rfl

/-- The first words read. -/
theorem readInv_scan (delay : ℕ) (v : ℕ → ℕ → BitVec 4) (flash : Flash) {n : ℕ} (hn : n ≤ 65536) :
    ReadInv v n (scan (use delay) v n ⟨0x3A00, 0xFFFF, flash⟩) := by
  have hstart : ReadInv v 0 ⟨0x3A00, 0xFFFF, flash⟩ := by
    refine ⟨rfl, ?_⟩
    rw [failedWords, List.range_zero, List.countP_nil]
    rfl
  apply scan_rule (P := ReadInv v) hstart
  intro k x hk h
  exact h.use (Nat.lt_of_lt_of_le hk hn) delay

/-- The first words written. -/
theorem wordsUpTo_write (dram : Dram) (n : ℕ) :
    ∀ k < n, (wordsUpTo write n dram : Dram) (k / 256) (k % 256) = rowWord (k / 256) :=
  @wordsUpTo_dramWb (fun row _ => if row % 2 = 1 then 0x0 else 0xF)
    (fun k => rowWord (k / 256)) n dram
    fun k _ => setWidth_rowWord (k / 256)

/-- The words that are read are those of the rows that have been written. -/
theorem wordsUpTo_use (delay : ℕ) (decay : Decay) {dram : Dram} {n : ℕ}
    (hwritten : ∀ k < n, dram (k / 256) (k % 256) = rowWord (k / 256)) (x : Reading) :
    wordsUpTo (fun row col => use delay row col (dramRb decay dram row col)) n x =
      scan (use delay) (rowsRead decay) n x := by
  rw [wordsUpTo, scan]
  apply List.foldl_ext
  intro x k hk
  rw [dramRb, hwritten k (List.mem_range.mp hk), rowsRead]

/-- **The counter after a step.** -/
theorem validWords_eq (delay : ℕ) (decay : Decay) (dram : Dram) (flash : Flash) :
    (step delay decay dram flash).2.validWords =
      0xFFFF - BitVec.ofNat 16 (failedWords (rowsRead decay) 65536) := by
  have hinv := readInv_scan delay (rowsRead decay) flash (Nat.le_refl 65536)
  rw [step, wordLoop_eq, wordLoop_eq]
  dsimp only
  rw [wordsUpTo_use delay decay (wordsUpTo_write (dramPowerOn dram) 65536)]
  exact hinv.2

/-- **The rule of a step** is right unless all words have failed. -/
theorem rule_iff (v : ℕ → ℕ → BitVec 4) :
    ((10 * (0xFFFF - BitVec.ofNat 16 (failedWords v 65536)).toNat < 9 * 0xFFFF) ↔
      10 * valid v < 9 * 65536) ↔ valid v ≠ 0 := by
  have hsum := valid_add_failedWords v
  have hmax : (0xFFFF : BitVec 16).toNat = 65535 := rfl
  rw [BitVec.toNat_sub, BitVec.toNat_ofNat, hmax]
  omega

/-! ## The sweep -/

/-- **The stop rule**: in every run, the program stops after a step if and only if less than nine
    tenths of the words are valid, as long as at no step all words have failed; and not otherwise.
    -/
theorem stops_right_iff (decay : ℕ → Decay) (dram : Dram) (flash : Flash) :
    (∀ s ∈ main decay dram flash,
        (s.returned = true ↔ 10 * valid (rowsRead (decay s.delay)) < 9 * 65536)) ↔
      ∀ s ∈ main decay dram flash, valid (rowsRead (decay s.delay)) ≠ 0 := by
  have hstep : ∀ delays dram flash, ∀ s ∈ sweep decay delays dram flash,
      (s.returned = true ↔
        10 * (0xFFFF - BitVec.ofNat 16 (failedWords (rowsRead (decay s.delay)) 65536)).toNat <
          9 * 0xFFFF) := by
    intro delays
    induction delays with
    | nil => exact fun _ _ s hs => absurd hs List.not_mem_nil
    | cons delay delays ih =>
      intro dram flash s hs
      rw [sweep] at hs
      rcases List.mem_cons.mp hs with rfl | hs
      · dsimp only
        rw [decide_eq_true_iff, validWords_eq]
      · split at hs
        · exact absurd hs List.not_mem_nil
        · exact ih _ _ s hs
  refine forall₂_congr fun s hs => ?_
  rw [hstep _ _ _ s hs]
  exact rule_iff _

/-- **The program goes on when all words have failed**, although none is valid. -/
theorem goes_on_all_failed :
    ∃ s ∈ main (fun _ row _ _ => ~~~ rowWord row) (fun _ _ => 0) ⟨fun _ => 0xFF, []⟩,
      10 * valid (rowsRead fun row _ _ => ~~~ rowWord row) < 9 * 65536 ∧ s.returned = false := by
  have hvalid : valid (rowsRead fun row _ _ => ~~~ rowWord row) = 0 := by
    rw [valid, List.countP_eq_zero]
    intro k _
    have hne : ∀ w : BitVec 4, ¬ ~~~ w = w := by decide
    rw [decide_eq_true_iff, rowsRead]
    exact hne _
  have hfailed := valid_add_failedWords (rowsRead fun row _ _ => ~~~ rowWord row)
  rw [hvalid, Nat.zero_add] at hfailed
  obtain ⟨rest, hdelays⟩ : ∃ rest, delays = MIN_DELAY :: rest := ⟨_, rfl⟩
  rw [main, hdelays, sweep]
  refine ⟨_, List.mem_cons_self, by rw [hvalid]; decide, ?_⟩
  dsimp only
  rw [validWords_eq, hfailed]
  decide

end ProbableCause.SequentialBits
