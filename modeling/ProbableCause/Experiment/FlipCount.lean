import ProbableCause.Firmware.Packing
import ProbableCause.Firmware.Search
import ProbableCause.Lib.Bits

/-!
# `Experiment.FlipCount` — the search and the fingerprint measure the same

`dram_bst` counts the unflipped bits of a round in `flipCounter`; `dram_fingerprint` stores them as
ones in flash. The two treat the parity of a row, the unused bits of a word and the packing of two
words into a byte each in its own way. Both are compared with `kept`, the bits of each word that are
as they were written: the counter is the number of its ones (`Bst.measureDram_eq`), and the bytes in
flash are its words, two to a byte (`Fingerprint.stored_eq`).
-/

namespace ProbableCause

open Bits

/-- The unflipped bits of the first `r` words. -/
def keptTotal (v : ℕ → ℕ → BitVec 4) (r : ℕ) : ℕ := total ((List.range r).map (kept v))

theorem keptTotal_succ (v : ℕ → ℕ → BitVec 4) (r : ℕ) :
    keptTotal v (r + 1) = keptTotal v r + ones (kept v r) := by
  unfold keptTotal
  rw [List.range_succ, List.map_append, total_append]
  rfl

theorem keptTotal_le (v : ℕ → ℕ → BitVec 4) (r : ℕ) : keptTotal v r ≤ 4 * r := by
  have h := total_le ((List.range r).map (kept v))
  rwa [List.length_map, List.length_range] at h

/-! ## The counter of `dram_bst` -/

theorem toNat_and_one (x : BitVec 8) : (x &&& 0x1).toNat = (x.getLsbD 0).toNat := by
  revert x
  decide

/-- Adding bits to an `unsigned long` one by one counts them. -/
theorem foldl_u32_countP (p : ℕ → Bool) {l : List ℕ} {n : ℕ} (h : n + l.length < 2 ^ 32) :
    l.foldl (fun n s => u32 (n + (p s).toNat)) n = n + l.countP p := by
  induction l generalizing n with
  | nil => rfl
  | cons s l ih =>
    rw [List.length_cons] at h
    have hbit : (p s).toNat ≤ 1 := Bool.toNat_le (p s)
    rw [List.foldl_cons, u32_of_lt (by omega), ih (by omega), List.countP_cons]
    cases p s
    · rfl
    · simp only [Bool.toNat_true, if_true]
      omega

/-- The bit that `dram_bst` counts: the bit read differs from the lowest bit of the row. -/
theorem Bst.flip_eq (v : ℕ → ℕ → BitVec 4) (r : ℕ) {s : ℕ} (hs : s < 4) :
    ((BitVec.ofNat 8 (r / 256) ^^^ ((v (r / 256) (r % 256)).setWidth 8 >>> s)) &&& 0x1).toNat =
      ((kept v r).getLsbD s).toNat := by
  rw [toNat_and_one, getLsbD_flip v r hs]

/-- One word adds its unflipped bits to the counter. -/
theorem Bst.use_eq (v : ℕ → ℕ → BitVec 4) (r : ℕ) {n : ℕ} (hn : n + 4 < 2 ^ 32) :
    Bst.body.use (r / 256) (r % 256) ((v (r / 256) (r % 256)).setWidth 8) n =
      n + ones (kept v r) := by
  have hcount := foldl_u32_countP (kept v r).getLsbD (l := List.range DRAM_BITS_PER_WORD) (n := n) hn
  rw [ones, ← hcount]
  apply List.foldl_ext
  intro n s hs
  rw [Bst.flip_eq v r (List.mem_range.mp hs)]

/-- **A round counts the unflipped bits** of its read-out. -/
theorem Bst.measureDram_eq {decay : ℕ → Decay} {polls : ℕ → List Bool} {bench : Bst.Bench} {delay : ℕ}
    (v : ℕ → ℕ → BitVec 4) (hdecay : decay bench.round = readOut v)
    (hpolls : blockTotal (Bst.refreshDelayInBlocks delay) ≤ (polls bench.round).count true) :
    (Bst.measureDram decay polls bench delay).map Prod.fst = some (keptTotal v 65536) := by
  have hproduct : u32 (delay * Bst.TICKS_PER_SECOND) < 2 ^ 32 := Nat.mod_lt _ (by decide)
  have hstart : Bst.refreshDelayInBlocks delay =
      u32 (delay * Bst.TICKS_PER_SECOND) / 700 + DRAM_NUM_COLS := by
    unfold Bst.refreshDelayInBlocks Bst.BLOCK_TIME_OFFSET DRAM_NUM_COLS
    exact u32_of_lt (by omega)
  unfold Bst.measureDram
  rw [hstart] at hpolls ⊢
  have hblocks : u32 (delay * Bst.TICKS_PER_SECOND) / 700 < 2 ^ 31 := by omega
  generalize u32 (delay * Bst.TICKS_PER_SECOND) / 700 = blocks at hpolls hblocks
  have hsched : Scheduled blocks (run Bst.body (decay bench.round) (blocks + DRAM_NUM_COLS)
      (polls bench.round) (Loop.start bench.dram 0)) := run_scheduled hblocks hpolls bench.dram 0
  have hcount := loop_invariant Bst.body (decay bench.round) bench.dram 0
    (fun _ r _ n => r ≤ 65536 ∧ n = keptTotal v r) (fun _ _ _ _ _ h => h) ?_ (one_le_start blocks)
    (blockTotal_lt hblocks) hpolls ⟨Nat.zero_le _, rfl⟩
  · dsimp only
    rw [hsched.ended, if_neg (Nat.lt_irrefl _), Option.map_some]
    exact congrArg some hcount.2
  · rintro w r d n hrw hw ⟨hr, rfl⟩
    have hle := keptTotal_le v r
    have hdata : dramRb (decay bench.round) d (r / 256) (r % 256) =
        (v (r / 256) (r % 256)).setWidth 8 := by
      rw [hdecay]
      rfl
    refine ⟨by omega, ?_⟩
    rw [hdata, Bst.use_eq v r (by omega), keptTotal_succ]

/-! ## The bytes of `dram_fingerprint` -/

/-- **The bytes in flash** are the unflipped bits of the words, two words to a byte. -/
theorem Fingerprint.stored_eq {segmentDataStart : ℕ} (hseg : segmentDataStart ≤ SEGMENT_DATA_END)
    {delay : BitVec 16} {decay : Decay} {polls : List Bool} {flash : Flash} (v : ℕ → ℕ → BitVec 4)
    (hdecay : decay = readOut v)
    (hpolls : blockTotal (Fingerprint.blockToStartTesting delay) ≤ polls.count true) (dram : Dram)
    (herased : ∀ i < 32768, flash.mem (segmentDataStart + 2 + i) = 0xFF) {i : ℕ} (hi : i < 32768) :
    (Fingerprint.main segmentDataStart delay decay polls dram flash).rest.flash.mem
      (segmentDataStart + 2 + i) = packed (kept v) i := by
  have hpack := (main_packed hseg delay decay hpolls dram flash).2.mem_eq hi (herased i hi)
  rwa [hdecay] at hpack ⊢

/-- Packing two words into a byte loses no bit. -/
theorem total_packed (v : ℕ → BitVec 4) (n : ℕ) :
    total ((List.range n).map (packed v)) = total ((List.range (2 * n)).map v) := by
  induction n with
  | zero => rfl
  | succ n ih =>
    rw [Nat.mul_succ, List.range_succ, List.range_succ, List.range_succ]
    simp only [List.map_append, total_append, ih, List.map_cons, List.map_nil, total_cons, total_nil]
    rw [packed, ones_append]
    omega

/-! ## The same measure -/

/-- The bytes that `dram_fingerprint` stores, of the flash after a run. -/
def fingerprint (segmentDataStart : ℕ) (flash : Flash) : List (BitVec 8) :=
  (List.range 32768).map fun i => flash.mem (segmentDataStart + 2 + i)

/-- **The search and the fingerprint measure the same**: for every read-out, the counter of a round
    is the number of ones of the fingerprint, and what is missing of all bits are the zeros of the
    fingerprint. -/
theorem flipCounter_eq_total (v : ℕ → ℕ → BitVec 4) {decays : ℕ → Decay} {pollsBst : ℕ → List Bool}
    {bench : Bst.Bench} {delayBst : ℕ} (hdecays : decays bench.round = readOut v)
    (hpollsBst : blockTotal (Bst.refreshDelayInBlocks delayBst) ≤ (pollsBst bench.round).count true)
    {segmentDataStart : ℕ} (hseg : segmentDataStart ≤ SEGMENT_DATA_END) {delay : BitVec 16}
    {decay : Decay} (hdecay : decay = readOut v) {polls : List Bool}
    (hpolls : blockTotal (Fingerprint.blockToStartTesting delay) ≤ polls.count true) (dram : Dram)
    {flash : Flash} (herased : ∀ i < 32768, flash.mem (segmentDataStart + 2 + i) = 0xFF) :
    let stored := fingerprint segmentDataStart
      (Fingerprint.main segmentDataStart delay decay polls dram flash).rest.flash
    ∃ flipCounter bench', Bst.measureDram decays pollsBst bench delayBst =
      some (flipCounter, bench') ∧ flipCounter = total stored ∧
      flipCounter = 262144 - total (stored.map (~~~·)) ∧ total (stored.map (~~~·)) ≤ 262144 := by
  intro stored
  have hstored : stored = (List.range 32768).map (packed (kept v)) := by
    apply List.map_congr_left
    intro i hi
    exact Fingerprint.stored_eq hseg v hdecay hpolls dram herased (List.mem_range.mp hi)
  have hcount : keptTotal v 65536 = total stored := by
    rw [hstored, total_packed]
    rfl
  have hall : total stored + total (stored.map (~~~·)) = 262144 := by
    rw [total_map_not, hstored, List.length_map, List.length_range]
  obtain ⟨⟨flipCounter, bench'⟩, hmeasure, hflips⟩ :=
    Option.map_eq_some_iff.mp (Bst.measureDram_eq v hdecays hpollsBst)
  refine ⟨flipCounter, bench', hmeasure, ?_⟩
  have hflips : flipCounter = keptTotal v 65536 := hflips
  refine ⟨hflips.trans hcount, ?_, ?_⟩
  · rw [hflips, hcount]
    omega
  · omega

/-- At the read-out of alternating words, with one due poll for each block. -/
theorem flipCounter_eq_total_alternating :
    let v : ℕ → ℕ → BitVec 4 := fun _ col => if col % 2 = 0 then 0x5 else 0xA
    let stored := fingerprint SEGMENT_DATA_START
      (Fingerprint.main SEGMENT_DATA_START 0x115 (readOut v)
        (List.replicate (blockTotal (Fingerprint.blockToStartTesting 0x115)) true) (fun _ _ => 0)
        ⟨fun _ => 0xFF, []⟩).rest.flash
    ∃ flipCounter bench', Bst.measureDram (fun _ => readOut v)
        (fun _ => List.replicate (blockTotal (Bst.refreshDelayInBlocks 30000)) true)
        ⟨0, fun _ _ => 0⟩ 30000 = some (flipCounter, bench') ∧
      flipCounter = total stored ∧ flipCounter = 262144 - total (stored.map (~~~·)) ∧
      total (stored.map (~~~·)) ≤ 262144 := by
  intro v
  exact flipCounter_eq_total v rfl (Nat.le_of_eq List.count_replicate_self.symm) (by decide) rfl
    (Nat.le_of_eq List.count_replicate_self.symm) _ (fun _ _ => rfl)

end ProbableCause
