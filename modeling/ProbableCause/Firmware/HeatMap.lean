import ProbableCause.Firmware.Packing
import ProbableCause.Lib.FirstTime

/-!
# `Firmware.HeatMap` — `overlappedBits`: the delay at which each bit fails

At each step of the sweep the program reads the record of a word back from flash, and lets the byte
of a bit that has failed go from `FF` to the delay. Since a write can only clear bits, a byte that
is left alone is written with `FF`, and a byte that holds a delay keeps it: each byte of the result
is a register that is written once (`Recorded`). Over the whole sweep it holds the delay of the
first failure (`SweepRecorded.toNat_mem`).

The lemmas are about any increment of the delay (`bodyOf`, `sweepOf`), which is `DELAY_INCREMENT` in
the source.
-/

namespace ProbableCause

open FirstTime

/-! ## Results that are recorded once -/

/-- **The results from `lo` to `hi` are recorded** after a delay, from `flash` to `flash'`: a result
    whose cell fails for the first time gets the delay, in units of the increment, and nothing else
    in flash is written. -/
structure Recorded (fails : ℕ → ℕ → Bool) (units : ℕ → ℕ) (lo hi delay : ℕ)
    (flash flash' : Flash) : Prop where
  results : ∀ a, lo ≤ a → a < hi →
    flash'.mem a = record (fails a) (fun delay => BitVec.ofNat 8 (units delay)) 0xFF
      (flash.mem a) delay
  frame : ∀ a, ¬ (lo ≤ a ∧ a < hi) → flash'.mem a = flash.mem a
  writes : ∃ writes, flash'.written = writes ++ flash.written ∧ ∀ a ∈ writes, lo ≤ a ∧ a < hi

/-- The steps of a sweep, each with its delay and the flash at its end. -/
def SweepRecorded (fails : ℕ → ℕ → Bool) (units : ℕ → ℕ) (lo hi : ℕ) : Flash → List (ℕ × Flash) → Prop
  | _, [] => True
  | flash, (delay, flash') :: steps =>
    Recorded fails units lo hi delay flash flash' ∧ SweepRecorded fails units lo hi flash' steps

/-- The flash at the end of a sweep. -/
def flashAfter : Flash → List (ℕ × Flash) → Flash
  | flash, [] => flash
  | _, (_, flash') :: steps => flashAfter flash' steps

section

variable {fails : ℕ → ℕ → Bool} {units : ℕ → ℕ} {lo mid hi delay : ℕ} {flash flash' flash'' : Flash}
  {steps : List (ℕ × Flash)}

theorem recorded_start (fails : ℕ → ℕ → Bool) (units : ℕ → ℕ) (lo delay : ℕ) (flash : Flash) :
    Recorded fails units lo lo delay flash flash :=
  ⟨fun _ hlo hhi => absurd hhi (Nat.not_lt.mpr hlo), fun _ _ => rfl, [], rfl,
    fun _ ha => absurd ha List.not_mem_nil⟩

/-- **Some more results are recorded.** -/
theorem Recorded.extend (h : Recorded fails units lo mid delay flash flash')
    (h' : Recorded fails units mid hi delay flash' flash'') (hlo : lo ≤ mid) (hhi : mid ≤ hi) :
    Recorded fails units lo hi delay flash flash'' := by
  obtain ⟨early, hearly, hearlyIn⟩ := h.writes
  obtain ⟨late, hlate, hlateIn⟩ := h'.writes
  refine ⟨fun a halo hahi => ?_, fun a ha => ?_, late ++ early, ?_, fun a ha => ?_⟩
  · by_cases hmid : a < mid
    · rw [h'.frame a (by omega), h.results a halo hmid]
    · rw [h'.results a (by omega) hahi, h.frame a (by omega)]
  · rw [h'.frame a (by omega), h.frame a (by omega)]
  · rw [hlate, hearly, List.append_assoc]
  · rcases List.mem_append.mp ha with ha | ha
    · have hin := hlateIn a ha
      omega
    · have hin := hearlyIn a ha
      omega

/-- A result that is there stays as it is. -/
theorem Recorded.stays (h : Recorded fails units lo hi delay flash flash') {a : ℕ}
    (ha : flash.mem a ≠ 0xFF) :
    flash'.mem a = flash.mem a := by
  by_cases hin : lo ≤ a ∧ a < hi
  · rw [h.results a hin.1 hin.2, record_of_ne ha]
  · exact h.frame a hin

theorem SweepRecorded.mem_flashAfter (h : SweepRecorded fails units lo hi flash steps)
    {a : ℕ} (hlo : lo ≤ a) (hhi : a < hi) :
    (flashAfter flash steps).mem a = (steps.map Prod.fst).foldl
      (record (fails a) (fun delay => BitVec.ofNat 8 (units delay)) 0xFF) (flash.mem a) := by
  induction steps generalizing flash with
  | nil => rfl
  | cons p steps ih =>
    obtain ⟨hstep, hsteps⟩ := h
    rw [List.map_cons, List.foldl_cons, ← hstep.results a hlo hhi]
    exact ih hsteps

/-- **The result is the delay of the first failure**, in flash that was erased. -/
theorem SweepRecorded.toNat_mem (h : SweepRecorded fails units lo hi flash steps) {a : ℕ}
    (hlo : lo ≤ a) (hhi : a < hi) (herased : flash.mem a = 0xFF)
    (hunits : ∀ delay ∈ steps.map Prod.fst, units delay < 255) :
    ((flashAfter flash steps).mem a).toNat = first (fails a) units 255 (steps.map Prod.fst) := by
  have hvalue : ∀ delay ∈ steps.map Prod.fst, (BitVec.ofNat 8 (units delay)).toNat = units delay := by
    intro delay hdelay
    have hlt := hunits delay hdelay
    rw [BitVec.toNat_ofNat, Nat.mod_eq_of_lt (by omega)]
  have hne : ∀ delay ∈ steps.map Prod.fst, BitVec.ofNat 8 (units delay) ≠ 0xFF := by
    intro delay hdelay heq
    have hlt := hunits delay hdelay
    have hnat := congrArg BitVec.toNat heq
    rw [hvalue delay hdelay] at hnat
    exact Nat.ne_of_lt hlt hnat
  rw [h.mem_flashAfter hlo hhi, herased, foldl_record hne, map_first BitVec.toNat,
    first_congr (fun _ _ => rfl) hvalue]
  rfl

/-- Nothing outside the results is written. -/
theorem SweepRecorded.frame (h : SweepRecorded fails units lo hi flash steps) :
    (∀ a, ¬ (lo ≤ a ∧ a < hi) → (flashAfter flash steps).mem a = flash.mem a) ∧
      ∃ writes, (flashAfter flash steps).written = writes ++ flash.written ∧ ∀ a ∈ writes,
        lo ≤ a ∧ a < hi := by
  induction steps generalizing flash with
  | nil => exact ⟨fun _ _ => rfl, [], rfl, fun a ha => absurd ha List.not_mem_nil⟩
  | cons p steps ih =>
    obtain ⟨hstep, hsteps⟩ := h
    obtain ⟨hsame, late, hlate, hlateIn⟩ := ih hsteps
    obtain ⟨early, hearly, hearlyIn⟩ := hstep.writes
    refine ⟨fun a ha => (hsame a ha).trans (hstep.frame a ha), late ++ early, ?_, fun a ha => ?_⟩
    · rw [flashAfter, hlate, hearly, List.append_assoc]
    · exact (List.mem_append.mp ha).elim (hlateIn a) (hearlyIn a)

/-- **Later steps leave a result alone.** -/
theorem SweepRecorded.stays (h : SweepRecorded fails units lo hi flash steps) :
    (∀ q ∈ steps, ∀ a, flash.mem a ≠ 0xFF → q.2.mem a = flash.mem a) ∧
      steps.Pairwise fun p q => ∀ a, p.2.mem a ≠ 0xFF → q.2.mem a = p.2.mem a := by
  induction steps generalizing flash with
  | nil => exact ⟨fun q hq => absurd hq List.not_mem_nil, .nil⟩
  | cons p steps ih =>
    obtain ⟨hstep, hsteps⟩ := h
    obtain ⟨hlater, hpairwise⟩ := ih hsteps
    refine ⟨List.forall_mem_cons.mpr ⟨fun a ha => hstep.stays ha, fun q hq a ha => ?_⟩,
      .cons hlater hpairwise⟩
    have hsame := hstep.stays ha
    rw [hlater q hq a (hsame ▸ ha), hsame]

end

/-! ## The bytes of a record -/

/-- The mask of byte `i`. -/
theorem and_mask_eq_iff (x : BitVec 32) {i : ℕ} (hi : i < 4) :
    x &&& (0xFF#32 <<< (8 * i)) = 0xFF#32 <<< (8 * i) ↔ wordByte x i = 0xFF := by
  have hFF : ∀ m < 32, (0xFF#32).getLsbD m = decide (m < 8) := by decide
  have hFF8 : ∀ b < 8, (0xFF#8).getLsbD b = true := by decide
  have hmask : ∀ m < 32, (0xFF#32 <<< (8 * i)).getLsbD m = decide (8 * i ≤ m ∧ m < 8 * i + 8) := by
    intro m hm
    rw [BitVec.getLsbD_shiftLeft, decide_eq_true hm, Bool.true_and, hFF _ (by omega)]
    by_cases h : m < 8 * i
    · rw [decide_eq_true h, decide_eq_false (show ¬ (8 * i ≤ m ∧ m < 8 * i + 8) by omega)]
      rfl
    · rw [decide_eq_false h, Bool.not_false, Bool.true_and]
      exact decide_eq_decide.mpr (by omega)
  constructor
  · intro h
    apply BitVec.eq_of_getLsbD_eq
    intro b hb
    have hbit := congrArg (BitVec.getLsbD · (8 * i + b)) h
    rw [BitVec.getLsbD_and, hmask _ (by omega), decide_eq_true (by omega), Bool.and_true] at hbit
    rw [getLsbD_wordByte _ _ hb, hbit]
    exact (hFF8 b hb).symm
  · intro h
    apply BitVec.eq_of_getLsbD_eq
    intro m hm
    rw [BitVec.getLsbD_and, hmask m hm]
    by_cases hin : 8 * i ≤ m ∧ m < 8 * i + 8
    · have hbit := congrArg (fun y => y.getLsbD (m - 8 * i)) h
      rw [getLsbD_wordByte _ _ (by omega), Nat.add_sub_cancel' hin.1] at hbit
      rw [hbit, decide_eq_true hin, Bool.and_true]
      exact hFF8 _ (by omega)
    · rw [decide_eq_false hin, Bool.and_false]

/-- What clears byte `i` to `units`, and no other byte. -/
theorem wordByte_clear (units : ℕ) {i j : ℕ} (hi : i < 4) (hj : j < 4) :
    wordByte (((0xFFFFFF00#32 ||| BitVec.ofNat 32 units) <<< (8 * i)) ||| BitVec.ofNat 32
      (2 ^ (8 * i) - 1)) j = if j = i then BitVec.ofNat 8 units else 0xFF := by
  have hlow : ∀ m < 32, (0xFFFFFF00#32).getLsbD m = decide (8 ≤ m) := by decide
  have hFF8 : ∀ b < 8, (0xFF#8).getLsbD b = true := by decide
  apply BitVec.eq_of_getLsbD_eq
  intro b hb
  rw [getLsbD_wordByte _ _ hb, BitVec.getLsbD_or, BitVec.getLsbD_shiftLeft, BitVec.getLsbD_ofNat,
    Nat.testBit_two_pow_sub_one, BitVec.getLsbD_or, hlow _ (by omega), BitVec.getLsbD_ofNat,
    decide_eq_true (show 8 * j + b < 32 by omega), Bool.true_and, Bool.true_and]
  obtain hlt | rfl | hgt := Nat.lt_trichotomy j i
  · rw [if_neg (by omega), decide_eq_true (show 8 * j + b < 8 * i by omega), Bool.or_true]
    exact (hFF8 b hb).symm
  · rw [if_pos rfl, decide_eq_false (show ¬ 8 * j + b < 8 * j by omega), Nat.add_sub_cancel_left,
      decide_eq_false (show ¬ 8 ≤ b by omega), decide_eq_true (show b < 32 by omega),
      BitVec.getLsbD_ofNat, decide_eq_true hb]
    simp only [Bool.not_false, Bool.true_and, Bool.false_or, Bool.or_false]
  · rw [if_neg (by omega), decide_eq_false (show ¬ 8 * j + b < 8 * i by omega),
      decide_eq_true (show 8 ≤ 8 * j + b - 8 * i by omega)]
    exact (hFF8 b hb).symm

/-- The bytes that some of several clearings clear. -/
theorem wordByte_foldl_clear (units : ℕ) (c : ℕ → Prop) [DecidablePred c] {j : ℕ}
    (hj : j < 4) {l : List ℕ} (hl : ∀ i ∈ l, i < 4) (acc : BitVec 32) :
    wordByte (l.foldl (fun acc i => if c i
        then acc &&& (((0xFFFFFF00#32 ||| BitVec.ofNat 32 units) <<< (8 * i)) ||| BitVec.ofNat 32
          (2 ^ (8 * i) - 1)) else acc) acc) j =
      if j ∈ l ∧ c j then wordByte acc j &&& BitVec.ofNat 8 units else wordByte acc j := by
  induction l generalizing acc with
  | nil => rw [if_neg fun h => List.not_mem_nil h.1]; rfl
  | cons i l ih =>
    obtain ⟨hi, hl'⟩ := List.forall_mem_cons.mp hl
    rw [List.foldl_cons, ih hl']
    by_cases hci : c i
    · rw [if_pos hci, wordByte_and, wordByte_clear units hi hj]
      by_cases hji : j = i
      · -- clearing the same byte again changes nothing
        rw [if_pos hji, if_pos (show j ∈ i :: l ∧ c j from ⟨hji ▸ List.mem_cons_self, hji ▸ hci⟩),
          BitVec.and_assoc, BitVec.and_self, ite_self]
      · rw [if_neg hji, and_ones]
        simp only [List.mem_cons, hji, false_or]
    · rw [if_neg hci]
      by_cases hji : j = i
      · rw [if_neg fun h => hci (hji ▸ h.2), if_neg fun h => hci (hji ▸ h.2)]
      · simp only [List.mem_cons, hji, false_or]

/-! ## The program -/

namespace OverlappedBits

theorem writesRows (increment delay : ℕ) : WritesRows (bodyOf increment delay) :=
  ⟨fun row _ _ => setWidth_rowWord row, fun _ _ _ => rfl⟩

/-- The test of one bit: it is flipped. -/
theorem flipped_iff (v : ℕ → ℕ → BitVec 4) (r : ℕ) {i : ℕ} (hi : i < 4) :
    (((v (r / 256) (r % 256)).setWidth 8 >>> i) ^^^ BitVec.ofNat 8 (r / 256)) &&& 0x1 = 0 ↔
      (kept v r).getLsbD i = false := by
  have hlowest : ∀ x : BitVec 8, x &&& 0x1 = 0 ↔ x.getLsbD 0 = false := by decide
  rw [hlowest, BitVec.xor_comm, getLsbD_flip v r hi]

/-- **The bytes of the new results**, ANDed to the old ones: each is a register. -/
theorem wordByte_newResultsOf (increment delay r : ℕ) (v : ℕ → ℕ → BitVec 4)
    (currResults : BitVec 32) {i : ℕ} (hi : i < 4) :
    wordByte currResults i &&& wordByte (newResultsOf increment delay (r / 256)
        ((v (r / 256) (r % 256)).setWidth 8) currResults) i =
      record (fun _ => !(kept v r).getLsbD i) (fun delay => BitVec.ofNat 8 (delay / increment)) 0xFF
        (wordByte currResults i) delay := by
  have hones : ∀ i < 4, wordByte (0xFFFFFFFF : BitVec 32) i = 0xFF := by decide
  have hfold := wordByte_foldl_clear (delay / increment)
    (fun i => (((v (r / 256) (r % 256)).setWidth 8 >>> i) ^^^ BitVec.ofNat 8 (r / 256)) &&& 0x1 = 0 ∧
      currResults &&& (0xFF#32 <<< (8 * i)) = 0xFF#32 <<< (8 * i)) hi
    (fun i hi => List.mem_range.mp hi : ∀ i ∈ List.range DRAM_BITS_PER_WORD, i < 4) 0xFFFFFFFF
  rw [hones i hi] at hfold
  refine (congrArg (wordByte currResults i &&& ·) hfold).trans ?_
  unfold record
  dsimp only
  simp only [List.mem_range, hi, true_and, flipped_iff v r hi, and_mask_eq_iff currResults hi,
    Bool.not_eq_true']
  split
  · next h => rw [h.2, BitVec.and_comm 0xFF, and_ones, BitVec.and_comm, and_ones]
  · exact and_ones _

/-- The bit of a result has failed after a delay. -/
def bitFails (v : ℕ → ℕ → ℕ → BitVec 4) (a delay : ℕ) : Bool :=
  !(kept (v delay) ((a - SEGMENT_DATA_START) / 4)).getLsbD ((a - SEGMENT_DATA_START) % 4)

/-- The record of word `k`, in which no other byte is written. -/
theorem recorded_word (increment delay k : ℕ) (v : ℕ → ℕ → ℕ → BitVec 4) (flash : Flash) :
    Recorded (bitFails v) (· / increment) (SEGMENT_DATA_START + 4 * k)
      (SEGMENT_DATA_START + 4 * k + 4) delay flash
        (flashWriteLong flash (SEGMENT_DATA_START + 4 * k)
          (newResultsOf increment delay (k / 256) ((v delay (k / 256) (k % 256)).setWidth 8)
            (flashReadLong flash (SEGMENT_DATA_START + 4 * k)))) := by
  refine ⟨fun a hlo hhi => ?_, fun a ha => ?_,
    [SEGMENT_DATA_START + 4 * k + 3, SEGMENT_DATA_START + 4 * k + 2, SEGMENT_DATA_START + 4 * k + 1,
      SEGMENT_DATA_START + 4 * k + 0], rfl, fun a ha => ?_⟩
  · obtain ⟨i, hi, rfl⟩ : ∃ i < 4, a = SEGMENT_DATA_START + 4 * k + i :=
      ⟨a - (SEGMENT_DATA_START + 4 * k), by omega, by omega⟩
    have hbyte := wordByte_flashReadLong flash (SEGMENT_DATA_START + 4 * k) hi
    have hfails : bitFails v (SEGMENT_DATA_START + 4 * k + i) delay =
        !(kept (v delay) k).getLsbD i := by
      unfold bitFails
      rw [show (SEGMENT_DATA_START + 4 * k + i - SEGMENT_DATA_START) / 4 = k by omega,
        show (SEGMENT_DATA_START + 4 * k + i - SEGMENT_DATA_START) % 4 = i by omega]
    rw [mem_flashWriteLong, if_pos ⟨hlo, hhi⟩, Nat.add_sub_cancel_left, ← hbyte,
      wordByte_newResultsOf _ _ _ _ _ hi]
    unfold record
    rw [hfails]
  · rw [mem_flashWriteLong, if_neg ha]
  · simp only [List.mem_cons, List.not_mem_nil, or_false] at ha
    omega

/-- **How far a step has come** after `r` words: the results below the address are recorded, until
flash is full. -/
structure StepInv (increment delay : ℕ) (v : ℕ → ℕ → ℕ → BitVec 4) (flash : Flash) (r : ℕ)
    (x : State) : Prop where
  address : x.baseAddressFlash = min (SEGMENT_DATA_START + 4 * r) SEGMENT_DATA_END
  recorded : Recorded (bitFails v)
    (· / increment) SEGMENT_DATA_START x.baseAddressFlash delay flash x.flash

variable {increment delay r : ℕ} {v : ℕ → ℕ → ℕ → BitVec 4} {flash : Flash} {x : State}

/-- One more word. -/
theorem StepInv.use (h : StepInv increment delay v flash r x) :
    StepInv increment delay v flash (r + 1)
      ((bodyOf increment delay).use (r / 256) (r % 256)
        ((v delay (r / 256) (r % 256)).setWidth 8) x) := by
  have haddress := h.address
  unfold bodyOf
  dsimp only
  by_cases hspace : x.baseAddressFlash < SEGMENT_DATA_END
  · rw [if_pos hspace]
    have hnow : x.baseAddressFlash = SEGMENT_DATA_START + 4 * r := by omega
    have hnext : u32 (x.baseAddressFlash + 4) = SEGMENT_DATA_START + 4 * r + 4 := by
      unfold SEGMENT_DATA_END at hspace
      rw [u32_of_lt (by omega), hnow]
    have hrecorded := h.recorded
    rw [hnow] at hspace hrecorded ⊢
    refine ⟨?_, ?_⟩
    · dsimp only
      rw [← hnow, hnext]
      unfold SEGMENT_DATA_START SEGMENT_DATA_END at *
      omega
    · dsimp only
      rw [← hnow, hnext, hnow]
      exact hrecorded.extend (recorded_word increment delay r v x.flash) (Nat.le_add_right _ _)
        (Nat.le_add_right _ _)
  · -- flash is full
    rw [if_neg hspace]
    refine ⟨?_, h.recorded⟩
    omega

/-- **A step of the sweep records the failures** of its read-out. -/
theorem recorded_scan (increment delay : ℕ) (v : ℕ → ℕ → ℕ → BitVec 4) (flash : Flash) :
    Recorded (bitFails v) (· / increment) SEGMENT_DATA_START SEGMENT_DATA_END delay flash
      (scan (bodyOf increment delay).use (v delay) 65536 ⟨SEGMENT_DATA_START, flash⟩).flash := by
  have hinv : StepInv increment delay v flash 65536
      (scan (bodyOf increment delay).use (v delay) 65536 ⟨SEGMENT_DATA_START, flash⟩) :=
    scan_rule (P := StepInv increment delay v flash) ⟨rfl, recorded_start _ _ _ _ _⟩
      fun r x _ h => h.use
  have hfull : min (SEGMENT_DATA_START + 4 * 65536) SEGMENT_DATA_END = SEGMENT_DATA_END := by decide
  have hrecorded := hinv.recorded
  rwa [hinv.address, hfull] at hrecorded

/-! ## The sweep -/

/-- The flash at the end of each step. -/
def flashes (steps : List (ℕ × Loop State)) : List (ℕ × Flash) :=
  steps.map fun p => (p.1, p.2.rest.flash)

/-- **The sweep records the failures**, if the steps use the words of their read-outs. -/
theorem sweepRecorded {decay : ℕ → Decay} {polls : ℕ → List Bool} {delays : List ℕ}
    (hruns : ∀ delay ∈ delays, ∀ dram flash,
      (run (bodyOf increment delay) (decay delay) (blockToStartTesting delay) (polls delay)
        (Loop.start dram ⟨SEGMENT_DATA_START, flash⟩)).rest =
          scan (bodyOf increment delay).use (v delay) 65536 ⟨SEGMENT_DATA_START, flash⟩) (dram :
            Dram) (flash : Flash) :
    (sweepOf increment decay polls delays dram flash).map Prod.fst = delays ∧
      SweepRecorded (bitFails v) (· / increment) SEGMENT_DATA_START SEGMENT_DATA_END flash
        (flashes (sweepOf increment decay polls delays dram flash)) := by
  induction delays generalizing dram flash with
  | nil => exact ⟨rfl, trivial⟩
  | cons delay delays ih =>
    obtain ⟨hrun, hruns'⟩ := List.forall_mem_cons.mp hruns
    have hstep := recorded_scan increment delay v flash
    rw [← hrun dram flash] at hstep
    rw [sweepOf]
    generalize run (bodyOf increment delay) (decay delay) (blockToStartTesting delay) (polls delay)
      (Loop.start dram ⟨SEGMENT_DATA_START, flash⟩) = s at hstep ⊢
    obtain ⟨hdelays, hrecorded⟩ := ih hruns' s.dram s.rest.flash
    exact ⟨congrArg (delay :: ·) hdelays, hstep, hrecorded⟩

theorem map_fst_flashes (steps : List (ℕ × Loop State)) :
    (flashes steps).map Prod.fst = steps.map Prod.fst := by
  unfold flashes
  rw [List.map_map]
  rfl

/-- The bit of a word fails if it reads differently from what was written. -/
theorem bitFails_eq (v : ℕ → ℕ → ℕ → BitVec 4) (k : ℕ) {i : ℕ} (hi : i < 4) (delay : ℕ) :
    bitFails v (SEGMENT_DATA_START + 4 * k + i) delay =
      ((v delay (k / 256) (k % 256)).getLsbD i != (rowWord (k / 256)).getLsbD i) := by
  unfold bitFails
  rw [show (SEGMENT_DATA_START + 4 * k + i - SEGMENT_DATA_START) / 4 = k by omega,
    show (SEGMENT_DATA_START + 4 * k + i - SEGMENT_DATA_START) % 4 = i by omega, Bool.eq_iff_iff,
    Bool.not_eq_true', getLsbD_kept _ _ hi, bne_iff_ne]

/-- What the steps of the sweep write, and read. -/
theorem run_of_mem_delays {delay : ℕ} (hdelay : delay ∈ delays) (decay : Decay) {polls : List Bool}
    (hpolls : blockTotal (blockToStartTesting delay) ≤ polls.count true) (increment : ℕ)
    (dram : Dram) (flash : Flash) :
    (∀ k < 65536, (run (bodyOf increment delay) decay (blockToStartTesting delay) polls
        (Loop.start dram ⟨SEGMENT_DATA_START, flash⟩)).dram (k / 256) (k % 256) = rowWord (k / 256)) ∧
      (run (bodyOf increment delay) decay (blockToStartTesting delay) polls
        (Loop.start dram ⟨SEGMENT_DATA_START, flash⟩)).rest =
          scan (bodyOf increment delay).use (rowsRead decay) 65536 ⟨SEGMENT_DATA_START, flash⟩ := by
  have hle := le_of_mem_delays hdelay
  rw [blockToStartTesting_eq hle] at hpolls ⊢
  exact rows_of_run (writesRows increment delay) decay (one_le_start _)
    (blockTotal_lt (by omega)) hpolls dram _

/-- **The decay times of all bits**: what the steps of a sweep leave in flash, which was `flash`
before. -/
structure DecayTimes (decay : ℕ → Decay) (flash : Flash) (steps : List (ℕ × Loop State)) : Prop where
  /-- there is a step for each delay -/
  delays : steps.map Prod.fst = delays
  /-- each step writes even rows with ones and odd rows with zeros -/
  wrote : ∀ p ∈ steps, ∀ row < 256, ∀ col < 256, p.2.dram row col = if row % 2 = 0 then 0xF else 0x0
  /-- the byte of a bit is the delay of the first step at which it read differently from what was
      written, and `FF` if it never did, as long as flash has space for its word -/
  first : ∀ row < 256, ∀ col < 256, ∀ i < 4,
    SEGMENT_DATA_START + 4 * (256 * row + col) + 4 ≤ SEGMENT_DATA_END →
      ((flashAfter flash (flashes steps)).mem
        (SEGMENT_DATA_START + 4 * (256 * row + col) + i)).toNat =
          first (fun p => (decay p.1 row col (p.2.dram row col)).getLsbD i !=
            (p.2.dram row col).getLsbD i)
        (fun p => p.1 / DELAY_INCREMENT) 0xFF steps
  /-- nothing outside the range of the results is changed, or written -/
  frame : ∀ a, ¬ (SEGMENT_DATA_START ≤ a ∧ a < SEGMENT_DATA_END) →
    (flashAfter flash (flashes steps)).mem a = flash.mem a
  writes : ∃ writes, (flashAfter flash (flashes steps)).written = writes ++ flash.written ∧
    ∀ a ∈ writes, SEGMENT_DATA_START ≤ a ∧ a < SEGMENT_DATA_END
  /-- later steps leave a recorded byte as it is -/
  stays : steps.Pairwise fun p q => ∀ a, p.2.rest.flash.mem a ≠ 0xFF →
    q.2.rest.flash.mem a = p.2.rest.flash.mem a

/-- **The sweep finds the decay time of every bit**, for all read-outs of the DRAM, in erased flash.
-/
theorem decay_times (decay : ℕ → Decay) (polls : ℕ → List Bool)
    (hpolls : ∀ delay ∈ delays, blockTotal (blockToStartTesting delay) ≤ (polls delay).count true)
    (dram : Dram) (flash : Flash)
    (herased : ∀ a, SEGMENT_DATA_START ≤ a → a < SEGMENT_DATA_END → flash.mem a = 0xFF) :
    DecayTimes decay flash (main decay polls dram flash) := by
  have hruns : ∀ delay ∈ OverlappedBits.delays, ∀ dram flash,
      (run (bodyOf DELAY_INCREMENT delay) (decay delay) (blockToStartTesting delay) (polls delay)
        (Loop.start dram ⟨SEGMENT_DATA_START, flash⟩)).rest =
          scan (bodyOf DELAY_INCREMENT delay).use (rowsRead (decay delay)) 65536
            ⟨SEGMENT_DATA_START, flash⟩ :=
    fun delay hdelay dram flash =>
      (run_of_mem_delays hdelay (decay delay) (hpolls delay hdelay) _ dram flash).2
  obtain ⟨hdelays, hrecorded⟩ :=
    sweepRecorded (v := fun delay => rowsRead (decay delay)) hruns dram flash
  have hwords : ∀ p ∈ main decay polls dram flash, ∀ row < 256, ∀ col < 256,
      p.2.dram row col = rowWord row := by
    intro p hp row hrow col hcol
    obtain ⟨hmem, dram', flash', hrun⟩ := exists_of_mem_sweep hp
    have h := (run_of_mem_delays hmem (decay p.1) (hpolls p.1 hmem) DELAY_INCREMENT dram' flash').1
      (256 * row + col) (by omega)
    rw [show (256 * row + col) / 256 = row by omega, show (256 * row + col) % 256 = col by omega] at h
    rw [hrun]
    exact h
  have hunits : ∀ delay ∈ OverlappedBits.delays, delay / DELAY_INCREMENT < 255 := by
    intro delay hdelay
    have hle := le_of_mem_delays hdelay
    unfold DELAY_INCREMENT
    omega
  have hmain : main decay polls dram flash =
    sweepOf DELAY_INCREMENT decay polls OverlappedBits.delays dram flash := rfl
  rw [← hmain] at hdelays hrecorded
  generalize main decay polls dram flash = steps at *
  obtain ⟨hframe, hwrites⟩ := hrecorded.frame
  refine ⟨hdelays, fun p hp row hrow col hcol => ?_, fun row hrow col hcol i hi hspace => ?_,
    hframe, hwrites, ?_⟩
  · rw [hwords p hp row hrow col hcol, rowWord]
    by_cases heven : row % 2 = 0
    · rw [if_pos heven, if_neg (by omega)]
    · rw [if_neg heven, if_pos (by omega)]
  · have hlo : SEGMENT_DATA_START ≤ SEGMENT_DATA_START + 4 * (256 * row + col) + i := by omega
    have hhi : SEGMENT_DATA_START + 4 * (256 * row + col) + i < SEGMENT_DATA_END := by omega
    rw [hrecorded.toNat_mem hlo hhi (herased _ hlo hhi)
      (by rw [map_fst_flashes, hdelays]; exact hunits), map_fst_flashes, first_map]
    refine first_congr (fun p hp => ?_) fun _ _ => rfl
    rw [bitFails_eq _ _ hi, show (256 * row + col) / 256 = row by omega,
      show (256 * row + col) % 256 = col by omega, hwords p hp row hrow col hcol]
    rfl
  · exact List.pairwise_map.mp hrecorded.stays.2

/-- On a DRAM of which the lowest bit of each word reads as zero after a delay of `100` or more. -/
theorem decay_times_lowest_bit :
    DecayTimes (fun delay _ _ v => if delay < 100 then v else v &&& 0xE) ⟨fun _ => 0xFF, []⟩
      (main (fun delay _ _ v => if delay < 100 then v else v &&& 0xE)
        (fun delay => List.replicate (blockTotal (blockToStartTesting delay)) true) (fun _ _ => 0)
        ⟨fun _ => 0xFF, []⟩) :=
  decay_times _ _ (fun _ _ => Nat.le_of_eq List.count_replicate_self.symm) _ _ fun _ _ _ => rfl

end OverlappedBits

end ProbableCause
