import ProbableCause.Firmware.Schedule
import Mathlib.Data.List.Basic

/-!
# `Firmware.Picture` — `dram_picture`: a picture through the DRAM and back

The program takes a picture of `8192` words of 16 bits from flash, writes the four half bytes of
each to the DRAM, reads them back and puts them together again. Its own `flash_wb` takes a pointer
to `char`, so that of each word put together only the lower byte is stored: the higher byte of the
word of the picture, with its halves exchanged (`mem_main`). Two pictures that differ in lower bytes
only have the same result, although no cell decays (`lossless_iff`).
-/

namespace ProbableCause.DramPicture

/-- Where the results are written. -/
def SEGMENT_DATA_START : ℕ := 0x9000

/-- Where the picture is. -/
def IMG_START : ℕ := 0x5000

def COL : ℕ := 0x100
def ROW : ℕ := 0x80

/-! ## The program -/

variable {σ : Type}

/-- `for(int i=0;i<ROW;++i) for(int j=0;j<COL;++j)`, with a body that advances `j` by three itself. -/
def groups (body : ℕ → ℕ → σ → σ) (x : σ) : σ :=
  (List.range ROW).foldl (fun x i => (List.range (COL / 4)).foldl (fun x m => body i (4 * m) x) x) x

/-- The variables of the writing loop. -/
structure Writing where
  img_ptr : ℕ
  dram : Dram

def writeGroup (flash : Flash) (i j : ℕ) (s : Writing) : Writing :=
  let c := flashRb flash s.img_ptr
  let dram := dramWb s.dram i j ((c &&& 0xF).setWidth 8)
  let dram := dramWb dram i (j + 1) (((c &&& 0xF0) >>> 4).setWidth 8)
  let dram := dramWb dram i (j + 2) (((c &&& 0xF00) >>> 8).setWidth 8)
  let dram := dramWb dram i (j + 3) (((c &&& 0xF000) >>> 12).setWidth 8)
  ⟨s.img_ptr + 2, dram⟩

/-- The program's own `flash_wb`: `*Flash_ptr++ = value`. -/
def flashWb (flash : Flash) (Flash_ptr : ℕ) (value : BitVec 16) : Flash :=
  flashWriteByte flash Flash_ptr (value.setWidth 8)

/-- The variables of the reading loop. -/
structure Reading where
  address : ℕ
  flash : Flash

def readGroup (decay : Decay) (dram : Dram) (i j : ℕ) (s : Reading) : Reading :=
  let flashdata : BitVec 32 := 0 ||| ((dramRb decay dram i j).setWidth 32 &&& 0xF)
  let flashdata := (flashdata <<< 4) ||| ((dramRb decay dram i (j + 1)).setWidth 32 &&& 0xF)
  let flashdata := (flashdata <<< 4) ||| ((dramRb decay dram i (j + 2)).setWidth 32 &&& 0xF)
  let flashdata := (flashdata <<< 4) ||| ((dramRb decay dram i (j + 3)).setWidth 32 &&& 0xF)
  ⟨s.address + 1, flashWb s.flash s.address (flashdata.setWidth 16)⟩

def main (decay : Decay) (dram : Dram) (flash : Flash) : Flash :=
  let written := groups (writeGroup flash) ⟨IMG_START, dram⟩
  (groups (readGroup decay written.dram) ⟨SEGMENT_DATA_START, flash⟩).flash

/-! ## The loops over the groups -/

/-- A loop over rows of items is a loop over the items. -/
theorem foldl_rows (f : σ → ℕ → σ) (rows cols : ℕ) (x : σ) :
    (List.range (rows * cols)).foldl f x =
      (List.range rows).foldl (fun x i => (List.range cols).foldl
        (fun x m => f x (i * cols + m)) x) x := by
  induction rows with
  | zero => rw [Nat.zero_mul]; rfl
  | succ rows ih =>
    rw [Nat.succ_mul, List.range_add, List.foldl_append, ih, List.range_succ, List.foldl_append,
      List.foldl_map]
    rfl

/-- **The rule for the groups**: what holds at first and is kept by the next group. -/
theorem groups_rule {body : ℕ → ℕ → σ → σ} {P : ℕ → σ → Prop} {x : σ} (first : P 0 x)
    (step : ∀ k x, k < 8192 → P k x → P (k + 1) (body (k / 64) (4 * (k % 64)) x)) :
      P 8192 (groups body x) := by
  have hgroups : groups body x =
      (List.range 8192).foldl (fun x k => body (k / 64) (4 * (k % 64)) x) x := by
    rw [show 8192 = ROW * (COL / 4) from rfl, foldl_rows, groups]
    apply List.foldl_ext
    intro x i _
    apply List.foldl_ext
    intro x m hm
    have hm : m < 64 := List.mem_range.mp hm
    rw [show COL / 4 = 64 from rfl, show (i * 64 + m) / 64 = i by omega,
      show (i * 64 + m) % 64 = m by omega]
  have hall : ∀ n ≤ 8192, P n
      ((List.range n).foldl (fun x k => body (k / 64) (4 * (k % 64)) x) x) := by
    intro n hn
    induction n with
    | zero => exact first
    | succ n ih =>
      rw [List.range_succ, List.foldl_append]
      exact step n _ hn (ih (by omega))
  rw [hgroups]
  exact hall 8192 (Nat.le_refl _)

/-! ## Writing the picture -/

/-- Half byte `t` of a word. -/
def nibble (c : BitVec 16) (t : ℕ) : BitVec 4 := (c >>> (4 * t)).setWidth 4

/-- What is written for a half byte is this half byte. -/
theorem nibble_masked (c mask : BitVec 16) (t : ℕ)
    (hmask : ∀ i < 4, mask.getLsbD (4 * t + i) = true) :
    (((c &&& mask) >>> (4 * t)).setWidth 8).setWidth 4 = nibble c t := by
  apply BitVec.eq_of_getLsbD_eq
  intro i hi
  have hi8 : i < 8 := by omega
  rw [nibble, BitVec.getLsbD_setWidth, BitVec.getLsbD_setWidth, BitVec.getLsbD_ushiftRight,
    BitVec.getLsbD_and, hmask i hi, Bool.and_true, decide_eq_true hi8, Bool.true_and,
    BitVec.getLsbD_setWidth, BitVec.getLsbD_ushiftRight]

/-- The word of the picture. -/
def picture (flash : Flash) (k : ℕ) : BitVec 16 := flashRb flash (IMG_START + 2 * k)

/-- What the writing loop keeps: the groups before the pointer are in the DRAM. -/
def WriteInv (flash : Flash) (k : ℕ) (s : Writing) : Prop :=
  s.img_ptr = IMG_START + 2 * k ∧
    ∀ n < 4 * k, s.dram (n / 256) (n % 256) = nibble (picture flash (n / 4)) (n % 4)

/-- The positions of a group in the DRAM. -/
theorem group_position (k : ℕ) {t : ℕ} (ht : t < 4) :
    (4 * k + t) / 256 = k / 64 ∧ (4 * k + t) % 256 = 4 * (k % 64) + t ∧ (4 * k + t) / 4 = k ∧
      (4 * k + t) % 4 = t := by
  omega

theorem WriteInv.writeGroup {flash : Flash} {k : ℕ} {s : Writing} (h : WriteInv flash k s) :
    WriteInv flash (k + 1) (writeGroup flash (k / 64) (4 * (k % 64)) s) := by
  obtain ⟨hptr, hdram⟩ := h
  -- one more half byte is written
  have hstep : ∀ t < 4, ∀ (d : Dram) (value : BitVec 8),
      value.setWidth 4 = nibble (picture flash k) t →
      (∀ n < 4 * k + t, d (n / 256) (n % 256) = nibble (picture flash (n / 4)) (n % 4)) →
        ∀ n < 4 * k + t + 1, dramWb d (k / 64) (4 * (k % 64) + t) value (n / 256) (n % 256) =
          nibble (picture flash (n / 4)) (n % 4) := by
    intro t ht d value hvalue hd
    obtain ⟨hrow, hcol, hword, hpart⟩ := group_position k ht
    have hlast : value.setWidth 4 = (fun n => nibble (picture flash (n / 4)) (n % 4))
        (4 * k + t) := by
      dsimp only
      rw [hword, hpart]
      exact hvalue
    have hnext := words_dramWb hd hlast
    rw [hrow, hcol] at hnext
    exact hnext
  have h0 := hstep 0 (by decide) _ _ (nibble_masked (picture flash k) 0xF 0 (by decide)) hdram
  have h1 := hstep 1 (by decide) _ _ (nibble_masked (picture flash k) 0xF0 1 (by decide)) h0
  have h2 := hstep 2 (by decide) _ _ (nibble_masked (picture flash k) 0xF00 2 (by decide)) h1
  have h3 := hstep 3 (by decide) _ _ (nibble_masked (picture flash k) 0xF000 3 (by decide)) h2
  unfold DramPicture.writeGroup
  rw [hptr]
  exact ⟨rfl, h3⟩

/-- **The picture is in the DRAM** after the writing loop. -/
theorem writeInv_groups (dram : Dram) (flash : Flash) :
    WriteInv flash 8192 (groups (writeGroup flash) ⟨IMG_START, dram⟩) :=
  groups_rule ⟨rfl, fun n hn => absurd hn (by omega)⟩ fun _ _ _ h => h.writeGroup

/-! ## Reading it back -/

/-- What is stored of a word: two of its half bytes. -/
def stored (c : BitVec 16) : BitVec 8 := nibble c 2 ++ nibble c 3

/-- The lower byte of the words put together. -/
theorem setWidth_flashdata (x : BitVec 32) (a b : BitVec 4) :
    (((((x <<< 4) ||| ((a.setWidth 8).setWidth 32 &&& 0xF)) <<< 4) |||
      ((b.setWidth 8).setWidth 32 &&& 0xF)).setWidth 16).setWidth 8 = a ++ b := by
  have hkeep : ∀ w : BitVec 4, (w.setWidth 8).setWidth 32 &&& 0xF = w.setWidth 32 := by decide
  rw [hkeep, hkeep]
  apply BitVec.eq_of_getLsbD_eq
  intro i hi
  have h16 : i < 16 := by omega
  have h32 : i < 32 := by omega
  simp only [BitVec.getLsbD_setWidth, BitVec.getLsbD_or, BitVec.getLsbD_shiftLeft,
    BitVec.getLsbD_append]
  by_cases h : i < 4
  · simp [h, hi, h16, h32]
  · have hb : b.getLsbD i = false := BitVec.getLsbD_of_ge b i (by omega)
    have h44 : i - 4 < 4 := by omega
    have h432 : i - 4 < 32 := by omega
    simp [h, hi, h16, h32, hb, h44, h432]

/-- No cell decays. -/
def noDecay : Decay := fun _ _ word => word

/-- What the reading loop keeps: the results of the groups before the pointer are in flash. -/
def ReadInv (flash : Flash) (k : ℕ) (s : Reading) : Prop :=
  s.address = SEGMENT_DATA_START + k ∧
    ∀ m, s.flash.mem (SEGMENT_DATA_START + m) =
      if m < k then flash.mem (SEGMENT_DATA_START + m) &&& stored (picture flash m)
      else flash.mem (SEGMENT_DATA_START + m)

theorem ReadInv.readGroup {flash : Flash} {dram : Dram} {k : ℕ} {s : Reading} (h : ReadInv flash k s)
    (hdram : ∀ t < 4, dram (k / 64) (4 * (k % 64) + t) = nibble (picture flash k) t) :
    ReadInv flash (k + 1) (readGroup noDecay dram (k / 64) (4 * (k % 64)) s) := by
  obtain ⟨haddress, hmem⟩ := h
  refine ⟨by rw [DramPicture.readGroup, haddress]; rfl, fun m => ?_⟩
  have hbyte : (DramPicture.readGroup noDecay dram (k / 64) (4 * (k % 64)) s).flash =
      flashWriteByte s.flash s.address (stored (picture flash k)) := by
    rw [stored, ← hdram 2 (by decide), ← hdram 3 (by decide), ← setWidth_flashdata]
    rfl
  rw [hbyte, haddress]
  by_cases hm : m = k
  · have hold := hmem k
    rw [if_neg (Nat.lt_irrefl k)] at hold
    rw [hm, mem_flashWriteByte_self, hold, if_pos (Nat.lt_succ_self k)]
  · rw [mem_flashWriteByte_of_ne (by omega), hmem m]
    by_cases hlt : m < k
    · rw [if_pos hlt, if_pos (by omega)]
    · rw [if_neg hlt, if_neg (by omega)]

/-- **The result**: the byte stored for each word of the picture. -/
theorem mem_main (dram : Dram) (flash : Flash) {k : ℕ} (hk : k < 8192) :
    (main noDecay dram flash).mem (SEGMENT_DATA_START + k) =
      flash.mem (SEGMENT_DATA_START + k) &&& stored (picture flash k) := by
  obtain ⟨-, hwritten⟩ := writeInv_groups dram flash
  have hread : ReadInv flash 8192
      (groups (readGroup noDecay (groups (writeGroup flash) ⟨IMG_START, dram⟩).dram)
          ⟨SEGMENT_DATA_START, flash⟩) := by
    apply groups_rule
    · exact ⟨rfl, fun m => (if_neg (Nat.not_lt_zero m)).symm⟩
    · intro k s hk h
      apply h.readGroup
      intro t ht
      obtain ⟨hrow, hcol, hword, hpart⟩ := group_position k ht
      have hcell := hwritten (4 * k + t) (by omega)
      rw [hrow, hcol, hword, hpart] at hcell
      exact hcell
  have hmem := hread.2 k
  rw [if_pos hk] at hmem
  exact hmem

/-! ## Two pictures -/

/-- A picture of the size the program processes. -/
abbrev Img := Fin 8192 → BitVec 16

/-- The flash memory with a picture. -/
def load (p : Img) (flash : Flash) : Flash where
  mem a := if h : IMG_START ≤ a ∧ a < SEGMENT_DATA_START then
      wordByte (p ⟨(a - IMG_START) / 2, by unfold IMG_START SEGMENT_DATA_START at *; omega⟩)
        ((a - IMG_START) % 2)
    else flash.mem a
  written := flash.written

/-- The bytes the program stores for a picture, when no cell decays. -/
def output (dram : Dram) (flash : Flash) (p : Img) (k : Fin 8192) : BitVec 8 :=
  (main noDecay dram (load p flash)).mem (SEGMENT_DATA_START + k)

theorem picture_load (p : Img) (flash : Flash) (k : Fin 8192) : picture (load p flash) k = p k := by
  have hbyte : ∀ t (ht : t < 2), (load p flash).mem (IMG_START + 2 * k + t) = wordByte (p k) t := by
    intro t ht
    have hrange : IMG_START ≤ IMG_START + 2 * k + t ∧ IMG_START + 2 * k + t < SEGMENT_DATA_START := by
      have hk := k.isLt
      unfold IMG_START SEGMENT_DATA_START
      omega
    have hword : (IMG_START + 2 * k + t - IMG_START) / 2 = k := by omega
    have hpart : (IMG_START + 2 * k + t - IMG_START) % 2 = t := by omega
    unfold load
    dsimp only
    rw [dif_pos hrange, hpart]
    exact congrArg (fun j => wordByte (p j) t) (Fin.ext hword)
  rw [picture, flashRb, hbyte 1 (by decide), ← Nat.add_zero (IMG_START + 2 * k),
    hbyte 0 (by decide), wordByte_append]

/-- **The byte stored for a word.** -/
theorem output_eq (dram : Dram) (flash : Flash) (p : Img) (k : Fin 8192) :
    output dram flash p k = flash.mem (SEGMENT_DATA_START + k) &&& stored (p k) := by
  have hmem : (load p flash).mem (SEGMENT_DATA_START + k) = flash.mem (SEGMENT_DATA_START + k) :=
    dif_neg (by omega)
  rw [output, mem_main dram (load p flash) k.isLt, picture_load, hmem]

/-- The bits stored are those of the higher byte. -/
theorem getLsbD_stored (c : BitVec 16) {b : ℕ} (hb : b < 8) :
    (stored c).getLsbD b = c.getLsbD (8 + (b + 4) % 8) := by
  have hnibble : ∀ t i, i < 4 → (nibble c t).getLsbD i = c.getLsbD (4 * t + i) := by
    intro t i hi
    rw [nibble, BitVec.getLsbD_setWidth, BitVec.getLsbD_ushiftRight, decide_eq_true hi, Bool.true_and]
  rw [stored, BitVec.getLsbD_append]
  by_cases h : b < 4
  · rw [if_pos h, hnibble 3 b h, show 8 + (b + 4) % 8 = 4 * 3 + b by omega]
  · rw [if_neg h, hnibble 2 (b - 4) (by omega), show 8 + (b + 4) % 8 = 4 * 2 + (b - 4) by omega]

/-- **When the results of two pictures differ**: they are the same picture, or a bit of a higher
    byte tells them apart and is still set in the flash byte that is written. -/
theorem lossless_iff (dram dram' : Dram) (flash : Flash) (p q : Img) :
    (p ≠ q → output dram flash p ≠ output dram' flash q) ↔
      p = q ∨ ∃ k : Fin 8192, ∃ b < 8, (flash.mem (SEGMENT_DATA_START + k)).getLsbD b = true ∧
        (p k).getLsbD (8 + (b + 4) % 8) ≠ (q k).getLsbD (8 + (b + 4) % 8) := by
  constructor
  · intro hlossless
    by_cases hpq : p = q
    · exact .inl hpq
    · right
      obtain ⟨k, hk⟩ := Function.ne_iff.mp (hlossless hpq)
      rw [output_eq, output_eq] at hk
      by_contra hsame
      apply hk
      apply BitVec.eq_of_getLsbD_eq
      intro b hb
      rw [BitVec.getLsbD_and, BitVec.getLsbD_and, getLsbD_stored _ hb, getLsbD_stored _ hb]
      cases hset : (flash.mem (SEGMENT_DATA_START + k)).getLsbD b with
      | false => rfl
      | true =>
        have hbit : (p k).getLsbD (8 + (b + 4) % 8) = (q k).getLsbD (8 + (b + 4) % 8) :=
          Decidable.byContradiction fun hne => hsame ⟨k, b, hb, hset, hne⟩
        rw [hbit]
  · rintro (hpq | ⟨k, b, hb, hset, hne⟩) hdiff hout
    · exact hdiff hpq
    · have hbit : (output dram flash p k).getLsbD b = (output dram' flash q k).getLsbD b := by
        rw [hout]
      rw [output_eq, output_eq, BitVec.getLsbD_and, BitVec.getLsbD_and, getLsbD_stored _ hb,
        getLsbD_stored _ hb, hset, Bool.true_and, Bool.true_and] at hbit
      exact hne hbit

/-- On erased flash a picture of zeros and one with all lower bytes set have the same result. -/
theorem not_lossless_lower_bytes :
    (fun _ => 0x0000 : Img) ≠ (fun _ => 0x00FF) ∧
      output (fun _ _ => 0) ⟨fun _ => 0xFF, []⟩ (fun _ => 0x0000) =
        output (fun _ _ => 0) ⟨fun _ => 0xFF, []⟩ (fun _ => 0x00FF) := by
  constructor
  · intro h
    exact absurd (congrFun h 0) (by decide)
  · funext k
    rw [output_eq, output_eq, show stored 0x0000 = stored 0x00FF by decide]

end ProbableCause.DramPicture
