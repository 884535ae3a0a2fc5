import ProbableCause.Experiment.Script
import ProbableCause.Firmware.Packing

/-!
# `Experiment.ImageRoundTrip` — an image on its way through the DRAM

`dram_imgdecay` takes the bytes behind the delay apart into half bytes, writes them to the DRAM,
reads them back and packs them `0x8000` addresses further on. `ImageInv` says how far it has come
after `w` words written and `r` words read. The script then cuts the image out of the dump
(`words_imageFile`), and both together are the round trip (`image_round_trip`).
-/

namespace ProbableCause

open Text Overlay

/-! ## Half bytes -/

/-- The half byte of the image written to word `k`; `base` is the address of the image. -/
def imageWord (mem : ℕ → BitVec 8) (base k : ℕ) : BitVec 4 :=
  if k % 2 = 0 then ((mem (base + k / 2) >>> 4) &&& 0xF).setWidth 4
  else (mem (base + k / 2) &&& 0xF).setWidth 4

/-- The half byte read back from word `k`. -/
def readBack (decay : Decay) (mem : ℕ → BitVec 8) (base k : ℕ) : BitVec 4 :=
  decay (k / 256) (k % 256) (imageWord mem base k)

/-- The two half bytes of an image byte make up the byte. -/
theorem packed_imageWord (mem : ℕ → BitVec 8) (base i : ℕ) :
    packed (imageWord mem base) i = mem (base + i) := by
  have hhalves : ∀ b : BitVec 8, (((b >>> 4) &&& 0xF).setWidth 4 : BitVec 4) ++
      ((b &&& 0xF).setWidth 4 : BitVec 4) = b := by decide
  unfold packed imageWord
  rw [if_pos (by omega), if_neg (by omega), show 2 * i / 2 = i by omega,
    show (2 * i + 1) / 2 = i by omega]
  exact hhalves _

/-! ## The firmware -/

/-- **How far the image has come** after `w` words written and `r` words read. -/
structure ImageInv (decay : Decay) (flash : Flash) (base w r : ℕ) (d : Dram) (x : ImgDecay.State) :
    Prop where
  bound : r ≤ 65536
  words : ∀ k < w, d (k / 256) (k % 256) = imageWord flash.mem base k
  readAt : x.flashAddressRead = base + (w + 1) / 2
  writeAt : x.flashAddressWrite = base + 32768 + r / 2
  byte : w % 2 = 1 → x.img = flash.mem (base + w / 2)
  image : ∀ a < base + 32768, x.flash.mem a = flash.mem a
  results : ∀ i < 32768, x.flash.mem (base + 32768 + i) =
    flash.mem (base + 32768 + i) &&& progress (readBack decay flash.mem base) r i
  written : x.flash.written =
    ((List.range r).map fun k => base + 32768 + k / 2).reverse ++ flash.written

variable {decay : Decay} {flash : Flash} {base w r : ℕ} {d : Dram} {x : ImgDecay.State}

/-- The next word written is the next half byte of the image. -/
theorem ImageInv.value_eq (h : ImageInv decay flash base w r d x) (hw : w < 65536) :
    (ImgDecay.body.value (w / 256) (w % 256) x).setWidth 4 = imageWord flash.mem base w := by
  show (if w % 256 % 2 = 0 then (flashReadByte x.flash x.flashAddressRead >>> 4) &&& 0xF
    else x.img &&& 0xF).setWidth 4 = _
  unfold imageWord flashReadByte
  by_cases hw2 : w % 2 = 0
  · rw [if_pos (by omega), if_pos hw2, h.readAt, show (w + 1) / 2 = w / 2 by omega,
      h.image _ (by omega)]
  · rw [if_neg (by omega), if_neg hw2, h.byte (by omega)]

/-- Writing the next word. -/
theorem ImageInv.write (hbase : base + 65536 < 2 ^ 32) (h : ImageInv decay flash base w r d x)
    (hw : w < 65536) :
    ImageInv decay flash base (w + 1) r
      (dramWb d (w / 256) (w % 256) (ImgDecay.body.value (w / 256) (w % 256) x))
      (ImgDecay.body.fetch (w / 256) (w % 256) x) := by
  have hwords := words_dramWb h.words (h.value_eq hw)
  have hfetch : ImgDecay.body.fetch (w / 256) (w % 256) x =
      if w % 256 % 2 = 0 then
        { x with
          img := flashReadByte x.flash x.flashAddressRead
          flashAddressRead := u32 (x.flashAddressRead + 1) }
      else x := rfl
  rw [hfetch]
  by_cases hw2 : w % 2 = 0
  · -- an even column: the next byte has been fetched
    rw [if_pos (show w % 256 % 2 = 0 by omega)]
    refine ⟨h.bound, hwords, ?_, h.writeAt, ?_, h.image, h.results, h.written⟩
    · show u32 (x.flashAddressRead + 1) = _
      rw [h.readAt, u32_of_lt (by omega)]
      omega
    · intro _
      show x.flash.mem x.flashAddressRead = _
      rw [h.readAt, h.image _ (by omega)]
  · -- an odd column: the byte fetched before is used up
    rw [if_neg (show ¬ w % 256 % 2 = 0 by omega)]
    refine ⟨h.bound, hwords, ?_, h.writeAt, ?_, h.image, h.results, h.written⟩
    · rw [h.readAt]
      omega
    · intro hodd
      omega

/-- Reading the next word, which has been written. -/
theorem ImageInv.read (hbase : base + 65536 < 2 ^ 32) (h : ImageInv decay flash base w r d x)
    (hrw : r < w) (hw : w ≤ 65536) :
    ImageInv decay flash base w (r + 1) d (ImgDecay.body.use (r / 256) (r % 256)
      (dramRb decay d (r / 256) (r % 256)) x) := by
  have hdata : dramRb decay d (r / 256) (r % 256) = (readBack decay flash.mem base r).setWidth 8 := by
    rw [dramRb, h.words r hrw]
    rfl
  rw [hdata]
  unfold ImgDecay.body
  dsimp only
  refine ⟨by omega, h.words, h.readAt, ?_, h.byte, ?_, ?_, ?_⟩
  · show u32 (x.flashAddressWrite + if r % 256 % 2 = 1 then 1 else 0) = _
    rw [h.writeAt, u32_of_lt (by split <;> omega)]
    split <;> omega
  · -- the write cursor is behind the image
    intro a ha
    show (flashWriteByte x.flash x.flashAddressWrite _).mem a = _
    rw [mem_flashWriteByte_of_ne (by rw [h.writeAt]; omega), h.image a ha]
  · intro i hi
    exact results_succ h.writeAt (h.results i hi)
  · show x.flashAddressWrite :: x.flash.written = _
    rw [h.written, h.writeAt, List.range_succ, List.map_append, List.reverse_append]
    rfl

/-- **A whole run of `dram_imgdecay`.** -/
theorem ImgDecay.imageInv {segmentDataStart : ℕ} (hseg : segmentDataStart ≤ SEGMENT_DATA_END)
    (decay : Decay) {polls : List Bool} (dram : Dram) (flash : Flash) (img : BitVec 8)
    (hpolls : blockTotal (blockToStartTesting (flashRb flash segmentDataStart)) ≤ polls.count true) :
    ImageInv decay flash (segmentDataStart + 2) 65536 65536
      (ImgDecay.main segmentDataStart decay polls dram flash img).dram
      (ImgDecay.main segmentDataStart decay polls dram flash img).rest := by
  have hdelay : (flashRb flash segmentDataStart).toNat < 65536 :=
    (flashRb flash segmentDataStart).isLt
  unfold SEGMENT_DATA_END at hseg
  have hbase : segmentDataStart + 2 + 65536 < 2 ^ 32 := by omega
  rw [blockToStartTesting_eq] at hpolls
  rw [main, blockToStartTesting_eq, flashAddressWrite_start (by omega)]
  refine loop_invariant body decay _ _ (ImageInv decay flash (segmentDataStart + 2))
    (fun w r d x hw h => h.write hbase hw) (fun w r d x hrw hw h => h.read hbase hrw hw)
      (one_le_start _)
    (blockTotal_lt (by omega)) hpolls ⟨Nat.zero_le _, ?_, rfl, rfl, ?_, fun _ _ => rfl,
      fun i _ => ?_, rfl⟩
  · intro k hk
    omega
  · intro hodd
    omega
  · show flash.mem (segmentDataStart + 2 + 32768 + i) = _ &&& progress _ 0 i
    rw [progress, if_pos (Nat.zero_le _), and_ones]

/-! ## The script -/

/-- **The image file** has the header, the `30800` bytes from `imgOutputLoc` on, and the final `q`. -/
theorem words_imageFile {mem : ℕ → BitVec 8} {stop : ℕ} {f : Str}
    (hstop : imgOutputLoc + 30800 ≤ stop) (hf : Text.words f = dumpWords mem stop) :
    Text.words (imageFile f) =
      ('@' :: formatX imgOutputLoc) :: (byteTokens mem imgOutputLoc 30800 ++ ["q".toList]) := by
  have hlo : int16 MEMORY_START ≤ imgOutputLoc := by decide
  rw [imageFile, hf]
  generalize hheader : '@' :: formatX imgOutputLoc = header
  have hword : Text.IsWord header := hheader ▸ (by decide)
  generalize imgOutputLoc = start at hstop hlo ⊢
  have hwindow := words_copyLoop_dumpWords mem stop hword
    (fun position => decide (position > start + 30800)) (fun position => decide (position ≤ start))
    (e := start + 30801) (fun p => decide_eq_true_iff) (decide_eq_true (by omega))
    (fun p hp => decide_eq_false (by omega)) hlo (by omega) (by omega)
  rw [show start + 30801 - start - 1 = 30800 by omega] at hwindow
  exact hwindow

/-! ## The round trip -/

/-- The address of the image, behind the two bytes of the delay. -/
def imageStart : ℕ := int16 DATA_START + 2

/-- **The image round trip**: what a run of `dram_imgdecay` has made of the flash (`flash` before,
    `flash'` after), and what the script makes of the dump `f` of the flash after the run. -/
structure ImageRoundTrip (decay : Decay) (flash flash' : Flash) (f : Str) : Prop where
  /-- the image is left as it is -/
  image : ∀ i < 30800, flash'.mem (imageStart + i) = flash.mem (imageStart + i)
  /-- all writes are behind the image -/
  writes : ∃ writes, flash'.written = writes ++ flash.written ∧ ∀ a ∈ writes, imageStart + 0x8000 ≤ a
  /-- byte `i` of the result packs the two half bytes read back for byte `i` of the image -/
  results : ∀ i < 30800, flash'.mem (imageStart + 0x8000 + i) =
    packed (readBack decay flash.mem imageStart) i
  /-- the script extracts exactly these bytes -/
  extracted : Text.words (imageFile f) = ('@' :: formatX imgOutputLoc) ::
    ((List.range 30800).map (fun i => hexToken (packed (readBack decay flash.mem imageStart) i)) ++
      ["q".toList])
  /-- if the DRAM keeps its words, they are the image -/
  undecayed : (∀ row col v, decay row col v = v) →
    Text.words (imageFile f) = ('@' :: formatX imgOutputLoc) ::
      (byteTokens flash.mem imageStart 30800 ++ ["q".toList])

/-- What is behind the image of `30800` bytes when `32768` have been passed. -/
theorem behind_image (base i : ℕ) : base + 30800 ≤ base + 32768 + i :=
  Nat.le_add_right_of_le (Nat.add_le_add_left (by decide) base)

/-- **The image makes the round trip**, for every image behind the delay with erased flash behind
    it, and for every decay of the DRAM. -/
theorem image_round_trip (decay : Decay) {polls : List Bool} (dram : Dram) (flash : Flash)
    (img : BitVec 8) {stop : ℕ} {f : Str}
    (herased : ∀ a, imageStart + 30800 ≤ a → flash.mem a = 0xFF)
    (hpolls : blockTotal (ImgDecay.blockToStartTesting (flashRb flash (int16 DATA_START))) ≤
      polls.count true)
    (hstop : imgOutputLoc + 30800 ≤ stop)
    (hf : Text.words f = dumpWords
      (ImgDecay.main (int16 DATA_START) decay polls dram flash img).rest.flash.mem stop) :
    ImageRoundTrip decay flash
      (ImgDecay.main (int16 DATA_START) decay polls dram flash img).rest.flash f := by
  have hseg : int16 DATA_START ≤ SEGMENT_DATA_END := by decide
  have hinv := ImgDecay.imageInv hseg decay dram flash img hpolls
  rw [← show imageStart = int16 DATA_START + 2 from rfl] at hinv
  generalize (ImgDecay.main (int16 DATA_START) decay polls dram flash img).rest = x at hf hinv ⊢
  have himgAt : imgOutputLoc = imageStart + 0x8000 := by decide
  have hresult : ∀ i < 30800, x.flash.mem (imageStart + 0x8000 + i) =
      packed (readBack decay flash.mem imageStart) i := by
    intro i hi
    have hone : flash.mem (imageStart + 32768 + i) = 0xFF := herased _ (behind_image _ _)
    have hbyte := hinv.results i (by omega)
    rw [hone, progress_all _ (by omega), BitVec.and_comm, and_ones] at hbyte
    exact hbyte
  have hwords : Text.words (imageFile f) = ('@' :: formatX imgOutputLoc) ::
      ((List.range 30800).map (fun i => hexToken (packed (readBack decay flash.mem imageStart) i)) ++
        ["q".toList]) := by
    rw [words_imageFile hstop hf, byteTokens]
    refine congrArg (fun l => ('@' :: formatX imgOutputLoc) :: (l ++ ["q".toList])) ?_
    apply List.map_congr_left
    intro i hi
    rw [himgAt, hresult i (List.mem_range.mp hi)]
  refine ⟨fun i hi => hinv.image _ (by omega), ⟨_, hinv.written, ?_⟩, hresult, hwords, ?_⟩
  · intro a ha
    obtain ⟨k, -, rfl⟩ := List.mem_map.mp (List.mem_reverse.mp ha)
    exact Nat.le_add_right _ _
  · intro hkeep
    rw [hwords, byteTokens]
    refine congrArg (fun l => ('@' :: formatX imgOutputLoc) :: (l ++ ["q".toList])) ?_
    apply List.map_congr_left
    intro i _
    have hread : readBack decay flash.mem imageStart = imageWord flash.mem imageStart := by
      funext k
      exact hkeep _ _ _
    rw [hread, packed_imageWord]

/-- Flash with the delay `0x115`, an image of bytes `0xA5`, and nothing behind it. -/
def sampleFlash : Flash where
  mem a := if a = int16 DATA_START then 0x15 else if a = int16 DATA_START + 1 then 0x01
    else if a < imageStart + 30800 then 0xA5 else 0xFF
  written := []

/-- At this flash and a DRAM that loses everything. -/
theorem image_round_trip_lost :
    let polls := List.replicate
      (blockTotal (ImgDecay.blockToStartTesting (flashRb sampleFlash (int16 DATA_START)))) true
    let s := ImgDecay.main (int16 DATA_START) (fun _ _ _ => 0) polls (fun _ _ => 0) sampleFlash 0
    ImageRoundTrip (fun _ _ _ => 0) sampleFlash s.rest.flash
      (dumpText s.rest.flash.mem SEGMENT_DATA_END) := by
  refine image_round_trip _ _ _ _ (fun a ha => ?_) (Nat.le_of_eq List.count_replicate_self.symm)
    (by decide) (words_dumpText _ SEGMENT_DATA_END)
  have hstart : imageStart = 13842 := by decide
  have hdata : int16 DATA_START = 13840 := by decide
  unfold sampleFlash
  dsimp only
  rw [hstart] at ha ⊢
  rw [hdata, if_neg (by omega), if_neg (by omega), if_neg (by omega)]

end ProbableCause
