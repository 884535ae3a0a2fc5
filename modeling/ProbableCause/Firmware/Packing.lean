import ProbableCause.Firmware.Scan

/-!
# `Firmware.Packing` — two half bytes to a byte of flash

A word read from the DRAM goes to one half of a byte of flash, with ones in the other half: the word
of an even column to the high half, that of the odd column behind it to the low half of the same
byte. Since a write to flash cannot bring back a one, the second write leaves the first half as it
is. `PackInv` says how far this has come after `r` words, `PackInv.read` is its step.

`dram_fingerprint` packs the words it reads, those of odd rows complemented, so that a zero stands
for a cell that has changed (`fingerprint_packing`).
-/

namespace ProbableCause

/-! ## Half bytes -/

/-- Byte `i` of the half bytes `v`: the even column in the high half. -/
def packed (v : ℕ → BitVec 4) (i : ℕ) : BitVec 8 := v (2 * i) ++ v (2 * i + 1)

/-- What `r` words read have left of byte `i` in erased flash. -/
def progress (v : ℕ → BitVec 4) (r i : ℕ) : BitVec 8 :=
  if r ≤ 2 * i then 0xFF
  else if r = 2 * i + 1 then ((v (2 * i)).setWidth 8 <<< 4) ||| 0xF
  else packed v i

theorem and_ones (b : BitVec 8) : b &&& 0xFF = b := by
  revert b
  decide

/-- The two halves of a byte, each with ones in the other half. -/
theorem high_and_low (h l : BitVec 4) :
    ((h.setWidth 8 <<< 4) ||| 0xF) &&& (l.setWidth 8 ||| 0xF0) = h ++ l := by
  revert h l
  decide

/-- A word read completes its half of its byte, and touches no other byte. -/
theorem progress_succ (v : ℕ → BitVec 4) (r i : ℕ) :
    progress v (r + 1) i =
      if i = r / 2 then progress v r i &&& halfByte (r % 256) ((v r).setWidth 8)
        else progress v r i := by
  unfold progress halfByte
  by_cases hi : i = r / 2
  · rw [if_pos hi]
    by_cases hr : r % 2 = 0
    · -- the first half: the byte is still erased
      have hr' : r = 2 * i := by omega
      rw [if_neg (by omega), if_pos (by omega), if_pos (by omega), if_pos (by omega), ← hr',
        BitVec.and_comm, and_ones]
    · -- the second half
      have hr' : r = 2 * i + 1 := by omega
      rw [if_neg (by omega), if_neg (by omega), if_neg (by omega), if_pos hr', if_neg (by omega), hr']
      exact (high_and_low _ _).symm
  · -- a word of another byte
    rw [if_neg hi]
    by_cases hr : r ≤ 2 * i
    · rw [if_pos (by omega), if_pos hr]
    · rw [if_neg (by omega), if_neg (by omega), if_neg hr, if_neg (by omega)]

/-- After all words have been read, the byte is complete. -/
theorem progress_all (v : ℕ → BitVec 4) {i : ℕ} (hi : i < 32768) :
    progress v 65536 i = packed v i := by
  unfold progress
  rw [if_neg (by omega), if_neg (by omega)]

/-- The bits of word `k`. -/
theorem getLsbD_packed (v : ℕ → BitVec 4) (k : ℕ) {i : ℕ} (hi : i < 4) :
    (packed v (k / 2)).getLsbD (if k % 2 = 0 then 4 + i else i) = (v k).getLsbD i := by
  unfold packed
  rw [BitVec.getLsbD_append]
  by_cases hk : k % 2 = 0
  · rw [if_pos hk, if_neg (by omega), Nat.add_sub_cancel_left, show 2 * (k / 2) = k by omega]
  · rw [if_neg hk, if_pos hi, show 2 * (k / 2) + 1 = k by omega]

/-! ## The words that have been packed -/

/-- **How far the packing has come**: the first `r` of the words `v` have gone to `base`, in flash
    that was `flash` before, and the next one goes to `address`. -/
structure PackInv (v : ℕ → BitVec 4) (flash : Flash) (base r address : ℕ) (f : Flash) : Prop where
  address : address = base + r / 2
  results : ∀ i < 32768, f.mem (base + i) = flash.mem (base + i) &&& progress v r i
  frame : ∀ a, a < base ∨ base + 32768 ≤ a → f.mem a = flash.mem a
  written : f.written = ((List.range r).map fun k => base + k / 2).reverse ++ flash.written

theorem packInv_start (v : ℕ → BitVec 4) (flash : Flash) (base : ℕ) :
    PackInv v flash base 0 base flash := by
  refine ⟨rfl, fun i _ => ?_, fun _ _ => rfl, rfl⟩
  rw [progress, if_pos (Nat.zero_le _), and_ones]

/-- The AND with the old byte adds the half just read. -/
theorem results_succ {v : ℕ → BitVec 4} {flash f : Flash} {base r address i : ℕ}
    (haddress : address = base + r / 2)
    (h : f.mem (base + i) = flash.mem (base + i) &&& progress v r i) :
    (flashWriteByte f address (halfByte (r % 256) ((v r).setWidth 8))).mem (base + i) =
      flash.mem (base + i) &&& progress v (r + 1) i := by
  rw [progress_succ]
  by_cases hir : i = r / 2
  · rw [if_pos hir, haddress, ← hir, mem_flashWriteByte_self, h, BitVec.and_assoc]
  · rw [if_neg hir, mem_flashWriteByte_of_ne (by rw [haddress]; omega), h]

/-- **The step.** -/
theorem PackInv.read {v : ℕ → BitVec 4} {flash f : Flash} {base r address address' : ℕ}
    (h : PackInv v flash base r address f) (hr : r < 65536)
    (haddress : address' = base + (r + 1) / 2) :
    PackInv v flash base (r + 1) address'
      (flashWriteByte f address (halfByte (r % 256) ((v r).setWidth 8))) := by
  refine ⟨haddress, fun i hi => results_succ h.address (h.results i hi), fun a ha => ?_, ?_⟩
  · rw [mem_flashWriteByte_of_ne (by rw [h.address]; omega), h.frame a ha]
  · rw [written_flashWriteByte, h.written, h.address, List.range_succ, List.map_append,
      List.reverse_append]
    rfl

/-- **All words are packed**: their bytes, in flash that was erased. -/
theorem PackInv.mem_eq {v : ℕ → BitVec 4} {flash f : Flash} {base address : ℕ}
    (h : PackInv v flash base 65536 address f) {i : ℕ} (hi : i < 32768)
    (herased : flash.mem (base + i) = 0xFF) :
    f.mem (base + i) = packed v i := by
  rw [h.results i hi, herased, progress_all _ hi, BitVec.and_comm, and_ones]

/-! ## `dram_fingerprint` -/

/-- The unflipped bits of word `k`: an even row is written with ones, an odd row with zeros. -/
def kept (v : ℕ → ℕ → BitVec 4) (k : ℕ) : BitVec 4 :=
  if k / 256 % 2 = 0 then v (k / 256) (k % 256) else ~~~ v (k / 256) (k % 256)

/-- A bit is flipped if it differs from what was written. -/
theorem getLsbD_kept (v : ℕ → ℕ → BitVec 4) (k : ℕ) {i : ℕ} (hi : i < 4) :
    (kept v k).getLsbD i = false ↔
      (v (k / 256) (k % 256)).getLsbD i ≠ (rowWord (k / 256)).getLsbD i := by
  have hones : ∀ b : BitVec 4, ∀ i < 4, b.getLsbD i = false ↔ b.getLsbD i ≠ (0xF#4).getLsbD i := by
    decide
  have hzeros : ∀ b : BitVec 4, ∀ i < 4, (~~~b).getLsbD i = false ↔
    b.getLsbD i ≠ (0x0#4).getLsbD i := by decide
  unfold kept rowWord
  by_cases hrow : k / 256 % 2 = 0
  · rw [if_pos hrow, if_neg (by omega)]
    exact hones _ i hi
  · rw [if_neg hrow, if_pos (by omega)]
    exact hzeros _ i hi

/-- The lowest bit of a row is the complement of what is written to it. -/
theorem getLsbD_flip (v : ℕ → ℕ → BitVec 4) (k : ℕ) {i : ℕ} (hi : i < 4) :
    (BitVec.ofNat 8 (k / 256) ^^^ ((v (k / 256) (k % 256)).setWidth 8 >>> i)).getLsbD 0 =
      (kept v k).getLsbD i := by
  have hi8 : i < 8 := Nat.lt_trans hi (by decide)
  have hrow : (BitVec.ofNat 8 (k / 256)).getLsbD 0 = decide (k / 256 % 2 = 1) := by
    rw [BitVec.getLsbD_ofNat, Nat.testBit_zero]
    exact Bool.true_and _
  have hdata : ((v (k / 256) (k % 256)).setWidth 8 >>> i).getLsbD 0 =
      (v (k / 256) (k % 256)).getLsbD i := by
    simp [hi8]
  rw [BitVec.getLsbD_xor, hrow, hdata]
  unfold kept
  by_cases hk : k / 256 % 2 = 0
  · rw [if_pos hk, decide_eq_false (by omega), Bool.false_xor]
  · rw [if_neg hk, decide_eq_true (by omega), Bool.true_xor, BitVec.getLsbD_not,
      decide_eq_true hi, Bool.true_and]

/-- Complementing a word before or after it is widened to a character makes no difference in its
    half of the byte. -/
theorem halfByte_not (col : ℕ) (x : BitVec 4) :
    halfByte col (~~~ x.setWidth 8) = halfByte col ((~~~ x).setWidth 8) := by
  have hhigh : ∀ x : BitVec 4, ((~~~ x.setWidth 8) <<< 4 ||| 0xF : BitVec 8) =
      (~~~ x).setWidth 8 <<< 4 ||| 0xF := by decide
  have hlow : ∀ x : BitVec 4, ((~~~ x.setWidth 8) ||| 0xF0 : BitVec 8) =
      (~~~ x).setWidth 8 ||| 0xF0 := by
    decide
  unfold halfByte
  by_cases hcol : col % 2 = 0
  · rw [if_pos hcol, if_pos hcol, hhigh]
  · rw [if_neg hcol, if_neg hcol, hlow]

namespace Fingerprint

/-- What one word stores: its unflipped bits. -/
theorem use_eq (v : ℕ → ℕ → BitVec 4) (r : ℕ) (x : State) :
    body.use (r / 256) (r % 256) ((v (r / 256) (r % 256)).setWidth 8) x =
      { baseAddressFlash := if r % 256 % 2 = 1 then u32 (x.baseAddressFlash + 1)
        else x.baseAddressFlash
        flash := flashWriteByte x.flash x.baseAddressFlash
          (halfByte (r % 256) ((kept v r).setWidth 8)) } := by
  have hstored : halfByte (r % 256) (if r / 256 % 2 = 0 then (v (r / 256) (r % 256)).setWidth 8
      else ~~~ (v (r / 256) (r % 256)).setWidth 8) = halfByte (r % 256) ((kept v r).setWidth 8) := by
    unfold kept
    by_cases hr : r / 256 % 2 = 0
    · rw [if_pos hr, if_pos hr]
    · rw [if_neg hr, if_neg hr, halfByte_not]
  rw [← hstored]
  rfl

theorem writesRows : WritesRows body := ⟨fun row _ _ => setWidth_rowWord row, fun _ _ _ => rfl⟩

/-- **A whole run of `dram_fingerprint`**: the rows it writes, and the packing of what it reads. -/
theorem main_packed {segmentDataStart : ℕ} (hseg : segmentDataStart ≤ SEGMENT_DATA_END)
    (delay : BitVec 16) (decay : Decay) {polls : List Bool}
    (hpolls : blockTotal (blockToStartTesting delay) ≤ polls.count true) (dram : Dram)
    (flash : Flash) :
    (∀ k < 65536, (main segmentDataStart delay decay polls dram flash).dram (k / 256) (k % 256) =
      rowWord (k / 256)) ∧ PackInv (kept (rowsRead decay)) flash (segmentDataStart + 2) 65536
        (main segmentDataStart delay decay polls dram flash).rest.baseAddressFlash
        (main segmentDataStart delay decay polls dram flash).rest.flash := by
  have hdelay : delay.toNat < 65536 := delay.isLt
  unfold SEGMENT_DATA_END at hseg
  rw [blockToStartTesting_eq] at hpolls
  rw [main, blockToStartTesting_eq]
  obtain ⟨hwords, hrest⟩ := rows_of_run writesRows decay (one_le_start _)
    (blockTotal_lt (by omega)) hpolls dram
    ⟨segmentDataStart + 2, flash⟩
  refine ⟨hwords, ?_⟩
  rw [hrest]
  refine scan_rule (P := fun r (x : State) => PackInv (kept (rowsRead decay)) flash
    (segmentDataStart + 2) r x.baseAddressFlash x.flash) (packInv_start _ _ _) fun r x hr h => ?_
  rw [use_eq]
  refine h.read hr ?_
  dsimp only
  rw [h.address, u32_of_lt (by omega)]
  split <;> omega

end Fingerprint

/-- **What a run of `dram_fingerprint` leaves in flash** at `base`: it was `flash` before. -/
structure FingerprintPacked (decay : Decay) (flash : Flash) (base : ℕ)
    (s : Loop Fingerprint.State) : Prop where
  /-- even rows are written with ones and odd rows with zeros -/
  wrote : ∀ row < 256, ∀ col < 256, s.dram row col = if row % 2 = 0 then 0xF else 0x0
  /-- a bit is zero if and only if its cell reads differently from what was written; even columns
  are in the high half -/
  bits : ∀ row < 256, ∀ col < 256, ∀ i < 4,
    (s.rest.flash.mem (base + 128 * row + col / 2)).getLsbD (if col % 2 = 0 then 4 + i
      else i) = false ↔ (decay row col (s.dram row col)).getLsbD i ≠ (s.dram row col).getLsbD i
  /-- no other byte is changed, or written -/
  frame : ∀ a, a < base ∨ base + 32768 ≤ a → s.rest.flash.mem a = flash.mem a
  writes : ∃ writes, s.rest.flash.written = writes ++ flash.written ∧ ∀ a ∈ writes,
    base ≤ a ∧ a < base + 32768

/-- **The fingerprint is packed**, for every read-out of the DRAM, with erased flash for the result.
-/
theorem fingerprint_packing {segmentDataStart : ℕ} (hseg : segmentDataStart ≤ SEGMENT_DATA_END)
    (delay : BitVec 16) (decay : Decay) {polls : List Bool}
    (hpolls : blockTotal (Fingerprint.blockToStartTesting delay) ≤ polls.count true) (dram : Dram)
    (flash : Flash) (herased : ∀ i < 32768, flash.mem (segmentDataStart + 2 + i) = 0xFF) :
    FingerprintPacked decay flash (segmentDataStart + 2)
      (Fingerprint.main segmentDataStart delay decay polls dram flash) := by
  obtain ⟨hwords, hpack⟩ := Fingerprint.main_packed hseg delay decay hpolls dram flash
  generalize Fingerprint.main segmentDataStart delay decay polls dram flash = s at hwords hpack ⊢
  have hword : ∀ row < 256, ∀ col < 256, s.dram row col = rowWord row := by
    intro row hrow col hcol
    have h := hwords (256 * row + col) (by omega)
    rwa [show (256 * row + col) / 256 = row by omega, show (256 * row + col) % 256 =
      col by omega] at h
  refine ⟨fun row hrow col hcol => ?_, fun row hrow col hcol i hi => ?_, hpack.frame, _,
    hpack.written, fun a ha => ?_⟩
  · rw [hword row hrow col hcol, rowWord]
    by_cases heven : row % 2 = 0
    · rw [if_pos heven, if_neg (by omega)]
    · rw [if_neg heven, if_pos (by omega)]
  · -- word `256 * row + col` is in byte `128 * row + col / 2`
    have hbyte := hpack.mem_eq (show (256 * row + col) / 2 < 32768 by omega) (herased _ (by omega))
    have hbit := getLsbD_kept (rowsRead decay) (256 * row + col) hi
    rw [show (256 * row + col) / 256 = row by omega, show (256 * row + col) % 256 = col by omega,
      ← getLsbD_packed _ _ hi, ← hbyte] at hbit
    rw [hword row hrow col hcol]
    refine Iff.trans ?_ hbit
    rw [show segmentDataStart + 2 + 128 * row + col / 2 =
      segmentDataStart + 2 + (256 * row + col) / 2 by omega, show (256 * row + col) % 2 =
        col % 2 by omega]
  · obtain ⟨k, hk, rfl⟩ := List.mem_map.mp (List.mem_reverse.mp ha)
    have hk' := List.mem_range.mp hk
    omega

/-- At the address of the source and the delay that is built in, on a DRAM of which all cells of
    column `3` read as zeros. -/
theorem fingerprint_packing_zero_column :
    FingerprintPacked (fun _ col v => if col = 3 then 0 else v) ⟨fun _ => 0xFF, []⟩
      (SEGMENT_DATA_START + 2) (Fingerprint.main SEGMENT_DATA_START 0x115 (fun _ col v => if col =
        3 then 0 else v) (List.replicate (blockTotal (Fingerprint.blockToStartTesting 0x115)) true)
          (fun _ _ => 0)
        ⟨fun _ => 0xFF, []⟩) :=
  fingerprint_packing (by decide) _ _ (Nat.le_of_eq List.count_replicate_self.symm) _ _ fun _ _ => rfl

end ProbableCause
