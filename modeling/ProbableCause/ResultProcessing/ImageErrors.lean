import ProbableCause.Experiment.ImageRoundTrip
import ProbableCause.ResultProcessing.TwoFiles

/-!
# `ResultProcessing.ImageErrors` — error maps of images

`convertImageDecayToFlips` extracts the error map of a decayed image and `addErrorsToImage` puts
errors into an exact one; `extract_add_inverse` says that they undo each other.
`markPossibleErrorsInFile` marks the bits of an image that can fail at all. Even rows of the DRAM
fail to 0 and odd rows to 1, and `dram_imgdecay` lays the image out with 128 bytes to a row
(`possibleByte_readBack`); `mask_sound_and_tight` says that the mask has the errors of every
possible decay and no others.
-/

namespace ProbableCause

open Text Java

/-! ## Extracting errors and adding them -/

/-- Undoing a byte operation, byte by byte. -/
theorem zipWith_cancel {f g : BitVec 8 → BitVec 8 → BitVec 8} (hcancel : ∀ a b, f (g a b) a = b)
    {l l' : List (BitVec 8)} (h : l.length = l'.length) :
      List.zipWith f (List.zipWith g l l') l = l' := by
  induction l generalizing l' with
  | nil => exact (List.length_eq_zero_iff.mp h.symm).symm
  | cons a l ih =>
    obtain ⟨b, l', rfl⟩ := List.exists_cons_of_length_eq_add_one h.symm
    rw [List.zipWith_cons_cons, List.zipWith_cons_cons, hcancel, ih (Nat.succ.inj h)]

/-- **Extracting errors and adding errors are inverse**, for dumps whose data lines have the same
    shape; what is printed on the way has the lines of the first file, those without data with their
    texts. -/
theorem extract_add_inverse {exact : DumpFile} {other : DumpFile}
    (hshape : exact.dump.shape = other.dump.shape) :
    (∃ map image : DumpFile,
      redirect ConvertImageDecayToFlips.main exact.text other.text = some map.text ∧
      map.dump.shape = exact.dump.shape ∧ map.dump.ignored = exact.dump.ignored ∧
      redirect AddErrorsToImage.main map.text exact.text = some image.text ∧
      image.dump.shape = map.dump.shape ∧ image.dump.ignored = map.dump.ignored ∧
      image.dump.bytes = other.dump.bytes) ∧
    (∃ image map : DumpFile,
      redirect AddErrorsToImage.main other.text exact.text = some image.text ∧
      image.dump.shape = other.dump.shape ∧ image.dump.ignored = other.dump.ignored ∧
      redirect ConvertImageDecayToFlips.main exact.text image.text = some map.text ∧
      map.dump.shape = exact.dump.shape ∧ map.dump.ignored = exact.dump.ignored ∧
      map.dump.bytes = other.dump.bytes) := by
  have hlength := Dump.length_bytes_of_shape hshape
  constructor
  · -- the complement of a difference is added to the image
    have hmap := Dump.shape_zip (fun a b => ~~~(a ^^^ b)) hshape
    refine ⟨(exact.dump.zip (fun a b => ~~~(a ^^^ b)) other.dump).toFile,
      Dump.toFile (Dump.zip _ _ _),
      redirect_convertImageDecayToFlips exact.reads other.reads hshape, hmap,
      Dump.ignored_zip _ hshape, redirect_addErrorsToImage (Dump.readDump_print _) exact.reads hmap,
      Dump.shape_zip _ hmap, Dump.ignored_zip _ hmap, ?_⟩
    have hcancel : ∀ a b : BitVec 8, ~~~(~~~(a ^^^ b)) ^^^ a = b := by
      intro a b
      rw [BitVec.not_not, BitVec.xor_comm a b, BitVec.xor_assoc, BitVec.xor_self, BitVec.xor_zero]
    rw [Dump.toFile, Dump.bytes_zip _ hmap, Dump.bytes_zip _ hshape]
    exact zipWith_cancel (f := fun a b => ~~~a ^^^ b) hcancel hlength
  · have himage := Dump.shape_zip (fun a b => ~~~a ^^^ b) hshape.symm
    have hexact := hshape.trans himage.symm
    refine ⟨(other.dump.zip (fun a b => ~~~a ^^^ b) exact.dump).toFile, Dump.toFile (Dump.zip _ _ _),
      redirect_addErrorsToImage other.reads exact.reads hshape.symm, himage,
      Dump.ignored_zip _ hshape.symm, redirect_convertImageDecayToFlips exact.reads
      (Dump.readDump_print _) hexact, Dump.shape_zip _ hexact, Dump.ignored_zip _ hexact, ?_⟩
    have hcancel : ∀ a b : BitVec 8, ~~~(a ^^^ (~~~b ^^^ a)) = b := by
      intro a b
      rw [BitVec.xor_comm a, BitVec.xor_assoc, BitVec.xor_self, BitVec.xor_zero, BitVec.not_not]
    rw [Dump.toFile, Dump.bytes_zip _ hexact, Dump.bytes_zip _ hshape.symm,
      List.zipWith_comm (f := fun a b => ~~~(a ^^^ b)),
      List.zipWith_comm (f := fun a b => ~~~a ^^^ b)]
    exact zipWith_cancel (f := fun a b => ~~~(b ^^^ a)) (g := fun a b => ~~~b ^^^ a) hcancel hlength

/-- An image and a decayed one, as `scale.txt` and its copy: the address lines and the last lines
differ. -/
def exactImage : Dump where
  lines := [.ignored "@3612".toList, .data [0xA5, 0xFF, 0x00], .ignored "FF".toList,
    .ignored "q".toList]
  proper := by decide

def decayedImage : Dump where
  lines := [.ignored "@b612".toList, .data [0x3C, 0xFE, 0x01], .ignored [], .ignored "q".toList]
  proper := by decide

theorem extract_add_inverse_addresses :
    ∃ map image : DumpFile,
      redirect ConvertImageDecayToFlips.main exactImage.print decayedImage.print = some map.text ∧
      redirect AddErrorsToImage.main map.text exactImage.print = some image.text ∧
      image.dump.ignored = ["@3612".toList, "FF".toList, "q".toList] ∧
      image.dump.bytes = [0x3C, 0xFE, 0x01] := by
  have hshape : exactImage.toFile.dump.shape = decayedImage.toFile.dump.shape := by decide
  obtain ⟨⟨map, image, hmap, -, hignored, himage, -, hignored', hbytes⟩, -⟩ :=
    extract_add_inverse hshape
  exact ⟨map, image, hmap, himage, hignored'.trans hignored, hbytes⟩

/-! ## The mask of possible errors -/

namespace MarkPossibleErrorsInFile

/-- The console, and the place of the next byte in the DRAM. -/
structure State where
  console : Console
  row : BitVec 32
  col : BitVec 32

instance : HasConsole State := ⟨fun f s => { s with console := f s.console }⟩

/-- The loop over the bytes of a line. -/
def markBytes : List Str → EStateM Ending State Unit
  | [] => pure ()
  | byte :: bytes => do
    modify fun s => { s with col := s.col + 2 }
    let value ← parseHex byte
    let s ← get
    -- odd rows fail to 1
    let value := if s.row &&& 0x1 = 0 then ~~~value else value
    print (upperHex 2 (value &&& 0xFF).toNat)
    print (if bytes = [] then "\n".toList else " ".toList)
    modify fun s => if s.col = 256 then { s with row := s.row + 1, col := 0 } else s
    markBytes bytes

/-- `while((line1 = file1.readLine()) != null)`. -/
def loop : List Str → EStateM Ending State Unit
  | [] => pure ()
  | line1 :: file1 => do
    if ignoreLine line1 then
      println line1
      loop file1
    else
      markBytes (split line1)
      loop file1

def main (files : Str → Option Str) (args : List Str) : EStateM Ending State Unit :=
  match args with
  | [name] => do
    let file1 ← openFileRead files name
    loop file1
  | _ => do
    eprintln "Usage: java markPossibleErrorsInFile file1".toList
    throw (.exit 1)

/-- What the program writes when it ends normally. -/
def output (text : Str) : Option Str :=
  match (main (twoFiles text []) ["file1".toList]).run ⟨⟨[], []⟩, 0, 0⟩ with
  | .ok _ s => some s.console.out
  | .error _ _ => none

/-- The state before byte `k`. -/
def State.before (c : Console) (k : ℕ) : State :=
  ⟨c, BitVec.ofNat 32 (k / 128), BitVec.ofNat 32 (2 * (k % 128))⟩

/-- What the mask has for byte `k` of the image. -/
def maskByte (k : ℕ) (b : BitVec 8) : BitVec 8 := if k / 128 % 2 = 0 then ~~~b else b

/-- The row counter is even where the row is. -/
theorem row_and_one (k : ℕ) : BitVec.ofNat 32 (k / 128) &&& 0x1 = 0 ↔ k / 128 % 2 = 0 := by
  have hand : (BitVec.ofNat 32 (k / 128) &&& 0x1).toNat = k / 128 % 2 := by
    have hone : (0x1 : BitVec 32).toNat = 1 := rfl
    rw [BitVec.toNat_and, hone, Nat.and_one_is_mod, BitVec.toNat_ofNat]
    omega
  rw [← hand]
  exact ⟨fun h => h ▸ rfl, fun h => BitVec.eq_of_toNat_eq h⟩

/-- The place of the next byte. -/
theorem before_succ (c : Console) (k : ℕ) :
    (let col := BitVec.ofNat 32 (2 * (k % 128)) + 2
      if col = 256 then (⟨c, BitVec.ofNat 32 (k / 128) + 1, 0⟩ : State)
      else ⟨c, BitVec.ofNat 32 (k / 128), col⟩) = State.before c (k + 1) := by
  have hcol : BitVec.ofNat 32 (2 * (k % 128)) + 2 = BitVec.ofNat 32 (2 * (k % 128) + 2) := by
    rw [BitVec.ofNat_add]
    rfl
  have hend : BitVec.ofNat 32 (2 * (k % 128) + 2) = 256 ↔ k % 128 = 127 := by
    constructor
    · intro h
      have hnat := congrArg BitVec.toNat h
      have hconst : (256 : BitVec 32).toNat = 256 := rfl
      rw [BitVec.toNat_ofNat, hconst] at hnat
      omega
    · intro h
      rw [h]
      rfl
  dsimp only
  rw [hcol, State.before]
  split
  · rename_i h
    rw [hend] at h
    rw [show (k + 1) / 128 = k / 128 + 1 by omega, show (k + 1) % 128 = 0 by omega, BitVec.ofNat_add]
    rfl
  · rename_i h
    rw [hend] at h
    rw [show (k + 1) / 128 = k / 128 by omega, show (k + 1) % 128 =
      k % 128 + 1 by omega, Nat.mul_succ]

theorem upperHex_value (k : ℕ) (b : BitVec 8) :
    upperHex 2 ((if k / 128 % 2 = 0 then ~~~(b.setWidth 32) else b.setWidth 32) &&& 0xFF).toNat =
      byteToken (maskByte k b) := by
  have hvalue : ∀ x : BitVec 8, (x.setWidth 32).toNat = x.toNat := by
    intro x
    rw [BitVec.toNat_setWidth, Nat.mod_eq_of_lt (x.isLt.trans (by decide))]
  unfold maskByte byteToken
  split
  · rw [not_and_0xFF, hvalue]
  · have hback : (b.setWidth 32).setWidth 8 = b := by
      rw [BitVec.setWidth_setWidth_of_le _ (by decide), BitVec.setWidth_eq]
    rw [and_0xFF, hback, hvalue]

/-- One byte of the image. -/
theorem run_markBytes_cons {t : Str} {b : BitVec 8} (h : hexByte? t = some b) (ts : List Str)
    (c : Console) (k : ℕ) :
    (markBytes (t :: ts)).run (State.before c k) =
      (markBytes ts).run (State.before { c with out := c.out ++ (byteToken (maskByte k b) ++
        if ts = [] then "\n".toList else " ".toList) } (k + 1)) := by
  rw [← before_succ, ← List.append_assoc, markBytes, EStateM.run_bind, EStateM.run_modify]
  simp only [EStateM.run_bind, run_parseHex h, EStateM.run_get, State.before, row_and_one,
    upperHex_value]
  rfl

/-- One line of the image. -/
theorem run_markBytes {ts : List Str} {b : BitVec 8} {bs : List (BitVec 8)}
    (h : List.Forall₂ (fun t b => hexByte? t = some b) ts (b :: bs)) (c : Console) (k : ℕ) :
    (markBytes ts).run (State.before c k) =
      .ok () (State.before { c with out := c.out ++
        (unwords (((b :: bs).mapIdx fun i => maskByte (k + i)).map byteToken) ++ "\n".toList) }
        (k + (b :: bs).length)) := by
  induction bs generalizing ts b c k with
  | nil =>
    cases h with | @cons t _ ts _ hb hts =>
    cases hts
    rw [run_markBytes_cons hb]
    simp [markBytes]
  | cons b' bs ih =>
    cases h with | @cons t _ ts _ hb hts =>
    have hne : ts ≠ [] := by rintro rfl; cases hts
    have hshift : (fun i => maskByte (k + (i + 1))) = fun i => maskByte (k + 1 + i) := by
      funext i
      rw [Nat.add_right_comm, Nat.add_assoc]
    have hline : unwords (((b :: b' :: bs).mapIdx fun i => maskByte (k + i)).map byteToken) =
        byteToken (maskByte k b) ++ ' ' ::
          unwords (((b' :: bs).mapIdx fun i => maskByte (k + 1 + i)).map byteToken) := by
      rw [List.mapIdx_cons, hshift, List.mapIdx_cons, List.map_cons, List.map_cons, unwords_cons_cons]
      rfl
    rw [run_markBytes_cons hb, if_neg hne, ih hts, hline, List.length_cons (a := b),
      Nat.add_right_comm k, Nat.add_assoc k]
    simp

/-- The whole image. -/
theorem run_loop {file1 : List Str} {ls : List Line}
    (h : List.Forall₂ (fun t l => readLine t = some l) file1 ls) (hproper : ∀ l ∈ ls, l.Proper)
    (c : Console) (k : ℕ) :
    ∃ k', (loop file1).run (State.before c k) =
      .ok () (State.before { c with
        out := c.out ++ unlines ((mapLines maskByte k ls).map Line.print) } k') := by
  induction h generalizing c k with
  | nil => exact ⟨k, by simp [loop, mapLines]⟩
  | @cons t l file1 ls hl _ ih =>
    have hls : ∀ l ∈ ls, l.Proper := fun x hx => hproper x (List.mem_cons_of_mem _ hx)
    have hl' : l.Proper := hproper l List.mem_cons_self
    rw [loop]
    rcases readLine_cases hl with ⟨hi, rfl⟩ | ⟨hi, bs, rfl, hbs⟩
    · obtain ⟨k', hrun⟩ := ih hls { c with out := c.out ++ (t ++ "\n".toList) } k
      refine ⟨k', ?_⟩
      rw [if_pos hi, EStateM.run_bind]
      change (loop file1).run (State.before { c with out := c.out ++ (t ++ "\n".toList) } k) = _
      rw [hrun]
      simp [mapLines, Line.print]
    · obtain ⟨b, bs, rfl⟩ : ∃ b bs', bs = b :: bs' := by
        cases bs with
        | nil => exact absurd hl' (by simp [Line.Proper])
        | cons b bs => exact ⟨b, bs, rfl⟩
      obtain ⟨k', hrun⟩ := ih hls { c with out := c.out ++
        (unwords (((b :: bs).mapIdx fun i => maskByte (k + i)).map byteToken) ++ "\n".toList) }
        (k + (b :: bs).length)
      refine ⟨k', ?_⟩
      rw [if_neg (by simp [hi]), EStateM.run_bind, run_markBytes hbs]
      simp only [hrun]
      simp [mapLines, Line.print]

/-- **The mask of an image.** -/
theorem output_eq {text : Str} {d : Dump} (hd : readDump text = some d) :
    output text = some (d.mapIdx maskByte).print := by
  obtain ⟨k', hrun⟩ := run_loop (readDump_eq_some_iff.mp hd) d.proper ⟨[], []⟩ 0
  have hstart : State.before ⟨[], []⟩ 0 = ⟨⟨[], []⟩, 0, 0⟩ := rfl
  have hfile1 : twoFiles text [] "file1".toList = some text := rfl
  rw [hstart] at hrun
  rw [output, main, openFileRead, hfile1, pure_bind, hrun]
  rfl

end MarkPossibleErrorsInFile

/-! ## Possible decays -/

/-- What a word in a row of the DRAM can become: in an even row bits only fall to 0, in an odd row
    they only rise to 1. -/
def CanBecome {w : ℕ} (row : ℕ) (v v' : BitVec w) : Prop :=
  if row % 2 = 0 then ∀ j, v'.getLsbD j = true → v.getLsbD j = true
  else ∀ j, v.getLsbD j = true → v'.getLsbD j = true

/-- An image that another can decay to; byte `k` is in row `k / 128`. -/
def PossibleDecay (exact approx : Dump) : Prop :=
  exact.shape = approx.shape ∧
    ∀ k < exact.bytes.length, CanBecome (k / 128) (exact.bytes.getD k 0) (approx.bytes.getD k 0)

/-- Bits that are set in the two parts are set in the word. -/
theorem getLsbD_append_imp {u w : ℕ} {a a' : BitVec u} {b b' : BitVec w}
    (ha : ∀ j, a.getLsbD j = true → a'.getLsbD j = true)
    (hb : ∀ j, b.getLsbD j = true → b'.getLsbD j = true) (j : ℕ) (hj : (a ++ b).getLsbD j = true) :
      (a' ++ b').getLsbD j = true := by
  rw [BitVec.getLsbD_append] at hj ⊢
  by_cases h : j < w
  · rw [if_pos h] at hj ⊢
    exact hb j hj
  · rw [if_neg h] at hj ⊢
    exact ha _ hj

theorem CanBecome.append {u w row : ℕ} {a a' : BitVec u} {b b' : BitVec w} (ha : CanBecome row a a')
    (hb : CanBecome row b b') : CanBecome row (a ++ b) (a' ++ b') := by
  unfold CanBecome at *
  by_cases hrow : row % 2 = 0
  · rw [if_pos hrow] at *
    exact getLsbD_append_imp ha hb
  · rw [if_neg hrow] at *
    exact getLsbD_append_imp ha hb

/-- **The layout of the firmware.** What `dram_imgdecay` reads back for byte `k` of an image, from a
    DRAM whose words decay as they can, is what a byte in row `k / 128` can become. -/
theorem canBecome_readBack {decay : Decay} (hdecay : ∀ row col v, CanBecome row v (decay row col v))
    (mem : ℕ → BitVec 8) (base k : ℕ) :
    CanBecome (k / 128) (mem (base + k)) (packed (readBack decay mem base) k) := by
  have hhigh := hdecay (2 * k / 256) (2 * k % 256) (imageWord mem base (2 * k))
  have hlow := hdecay ((2 * k + 1) / 256) ((2 * k + 1) % 256) (imageWord mem base (2 * k + 1))
  have hrow : 2 * k / 256 = k / 128 := by omega
  have hrow' : (2 * k + 1) / 256 = k / 128 := by omega
  have hboth := CanBecome.append (hrow ▸ hhigh) (hrow' ▸ hlow)
  have hexact : imageWord mem base (2 * k) ++ imageWord mem base (2 * k + 1) = mem (base + k) :=
    packed_imageWord mem base k
  rw [hexact] at hboth
  rw [packed, readBack, readBack, hrow, hrow']
  exact hboth

section Mask

variable {exact approx : Dump}

theorem getD_mapIdx (f : ℕ → BitVec 8 → BitVec 8) {d : Dump} {k : ℕ} (hk : k < d.bytes.length) :
    (d.mapIdx f).bytes.getD k 0 = f k (d.bytes.getD k 0) := by
  rw [Dump.bytes_mapIdx, List.getD_eq_getElem _ _ hk,
    List.getD_eq_getElem _ _ (by rwa [List.length_mapIdx]), List.getElem_mapIdx]

/-- What `dram_imgdecay` makes of an image, byte by byte, when the DRAM decays. -/
def decayed (decay : Decay) (d : Dump) : Dump :=
  d.mapIdx fun k _ => packed (readBack decay (fun a => d.bytes.getD a 0) 0) k

theorem possibleDecay_decayed {decay : Decay}
    (hdecay : ∀ row col v, CanBecome row v (decay row col v)) (d : Dump) :
    PossibleDecay d (decayed decay d) := by
  refine ⟨(Dump.shape_mapIdx _ d).symm, ?_⟩
  intro k hk
  have hbyte := canBecome_readBack hdecay (fun a => d.bytes.getD a 0) 0 k
  rw [Nat.zero_add] at hbyte
  rw [decayed, getD_mapIdx _ hk]
  exact hbyte

/-- A bit of the error map of an image. -/
theorem bit_flips (hshape : exact.shape = approx.shape) {k j : ℕ}
    (hk : k < exact.bytes.length) (hj : j < 8) :
    (exact.zip (fun a b => ~~~(a ^^^ b)) approx).bit k j = (exact.bit k j == approx.bit k j) := by
  rw [Dump.bit, Dump.getD_zip _ hshape hk, BitVec.getLsbD_not, BitVec.getLsbD_xor]
  simp only [hj, decide_true, Bool.true_and]
  rw [Dump.bit, Dump.bit]
  cases (exact.bytes.getD k 0).getLsbD j <;> cases (approx.bytes.getD k 0).getLsbD j <;> rfl

/-- A bit of the mask: whether the bit has the value it fails to. -/
theorem bit_mask {k j : ℕ} (hk : k < exact.bytes.length) (hj : j < 8) :
    (exact.mapIdx MarkPossibleErrorsInFile.maskByte).bit k j =
      if k / 128 % 2 = 0 then !exact.bit k j else exact.bit k j := by
  rw [Dump.bit, getD_mapIdx _ hk, MarkPossibleErrorsInFile.maskByte]
  split
  · rw [BitVec.getLsbD_not]
    simp [hj, Dump.bit]
  · rfl

/-- An error of a possible decay is marked. -/
theorem mask_of_flips (h : PossibleDecay exact approx) {k j : ℕ}
    (hk : k < exact.bytes.length) (hj : j < 8)
    (hflip : (exact.zip (fun a b => ~~~(a ^^^ b)) approx).bit k j = false) :
    (exact.mapIdx MarkPossibleErrorsInFile.maskByte).bit k j = false := by
  have hbyte := h.2 k hk
  rw [bit_flips h.1 hk hj, beq_eq_false_iff_ne] at hflip
  rw [bit_mask hk hj]
  unfold CanBecome at hbyte
  split at hbyte <;> rename_i hrow
  · have hfall : approx.bit k j = true → exact.bit k j = true := hbyte j
    rw [if_pos hrow, Bool.not_eq_eq_eq_not, Bool.not_false]
    by_contra hlow
    -- a low bit stays low
    have hstays : ¬approx.bit k j = true := fun hhigh => hlow (hfall hhigh)
    rw [Bool.not_eq_true] at hlow hstays
    exact hflip (hlow.trans hstays.symm)
  · have hrise : exact.bit k j = true → approx.bit k j = true := hbyte j
    rw [if_neg hrow, Bool.eq_false_iff]
    intro hhigh
    exact hflip (hhigh.trans (hrise hhigh).symm)

/-- The image after all of it has decayed. -/
def lost (d : Dump) : Dump := d.mapIdx fun k _ => if k / 128 % 2 = 0 then 0x00 else 0xFF

theorem possibleDecay_lost (d : Dump) : PossibleDecay d (lost d) := by
  refine ⟨(Dump.shape_mapIdx _ d).symm, ?_⟩
  intro k hk
  rw [lost, getD_mapIdx _ hk]
  unfold CanBecome
  split <;> rename_i hrow
  · intro j hj
    simp at hj
  · intro j hj
    have hj8 : j < 8 := by
      by_contra h
      rw [BitVec.getLsbD_of_ge _ j (Nat.le_of_not_lt h)] at hj
      cases hj
    have hones : (0xFF : BitVec 8) = BitVec.allOnes 8 := rfl
    rw [hones, BitVec.getLsbD_allOnes]
    simpa using hj8

/-- All of the mask are errors of the image that is lost. -/
theorem flips_lost {k j : ℕ} (hk : k < exact.bytes.length) (hj : j < 8) :
    (exact.zip (fun a b => ~~~(a ^^^ b)) (lost exact)).bit k j =
      (exact.mapIdx MarkPossibleErrorsInFile.maskByte).bit k j := by
  have hlost : (lost exact).bit k j = !decide (k / 128 % 2 = 0) := by
    rw [Dump.bit, lost, getD_mapIdx _ hk]
    split
    · simp [*]
    · have hones : (0xFF : BitVec 8) = BitVec.allOnes 8 := rfl
      rw [hones, BitVec.getLsbD_allOnes]
      simp [*]
  rw [bit_flips (possibleDecay_lost exact).1 hk hj, bit_mask hk hj, hlost]
  split <;> simp [*]

/-- Combined with a mask that has all its errors, a map stays as it is. -/
theorem bytes_zip_or {mask flips : Dump} (hshape : mask.shape = flips.shape)
    (hmask : ∀ k j, k < flips.bytes.length → j < 8 → flips.bit k j = false → mask.bit k j = false) :
    (mask.zip (· ||| ·) flips).bytes = flips.bytes := by
  have hlength := Dump.length_bytes_of_shape hshape
  have hboth := Dump.shape_zip (· ||| ·) hshape
  apply Dump.bytes_eq_of_bit (hboth.trans hshape)
  intro k j
  by_cases hk : k < flips.bytes.length
  · rw [Dump.bit, Dump.getD_zip _ hshape (hlength ▸ hk), BitVec.getLsbD_or]
    change (mask.bit k j || flips.bit k j) = flips.bit k j
    by_cases hj : j < 8
    · have hkj := hmask k j hk hj
      cases hb : flips.bit k j with
      | false => rw [hkj hb]; rfl
      | true => exact Bool.or_true _
    · have hnone : mask.bit k j = false := BitVec.getLsbD_of_ge _ j (Nat.le_of_not_lt hj)
      rw [hnone, Bool.false_or]
  · have hk' : flips.bytes.length ≤ k := Nat.le_of_not_lt hk
    rw [Dump.bit_of_le (Dump.length_bytes_of_shape (hboth.trans hshape) ▸ hk'), Dump.bit_of_le hk']

end Mask

/-- **The mask of possible errors is sound and tight.** The errors of every possible decay of an
    image are errors of its mask, so `intersectFlips` with the mask changes nothing; and every error
    of the mask is one of some possible decay. What `dram_imgdecay` makes of the image is a possible
    decay of it. -/
theorem mask_sound_and_tight (exact : DumpFile) :
    ∃ mask : DumpFile, MarkPossibleErrorsInFile.output exact.text = some mask.text ∧
      mask.dump.shape = exact.dump.shape ∧ mask.dump.ignored = exact.dump.ignored ∧
      (∀ decay : Decay, (∀ row col v, CanBecome row v (decay row col v)) →
        PossibleDecay exact.dump (decayed decay exact.dump) ∧
        (decayed decay exact.dump).ignored = exact.dump.ignored) ∧
      (∀ approx : DumpFile, PossibleDecay exact.dump approx.dump →
        ∃ flips both : DumpFile,
          redirect ConvertImageDecayToFlips.main exact.text approx.text = some flips.text ∧
          (∀ k j, k < exact.dump.bytes.length → j < 8 → flips.dump.bit k j = false →
          mask.dump.bit k j = false) ∧
          redirect IntersectFlips.main mask.text flips.text = some both.text ∧
            both.dump.bytes = flips.dump.bytes) ∧
      ∀ k j, k < exact.dump.bytes.length → j < 8 → mask.dump.bit k j = false →
        ∃ approx flips : DumpFile, PossibleDecay exact.dump approx.dump ∧
          approx.dump.ignored = exact.dump.ignored ∧
          redirect ConvertImageDecayToFlips.main exact.text approx.text = some flips.text ∧
          flips.dump.bit k j = false := by
  refine ⟨(exact.dump.mapIdx MarkPossibleErrorsInFile.maskByte).toFile,
    MarkPossibleErrorsInFile.output_eq exact.reads, Dump.shape_mapIdx _ _, Dump.ignored_mapIdx _ _,
    fun decay hdecay => ⟨possibleDecay_decayed hdecay _, Dump.ignored_mapIdx _ _⟩, ?_, ?_⟩
  · intro approx hpossible
    have hflips := Dump.shape_zip (fun a b => ~~~(a ^^^ b)) hpossible.1
    have hmask := (Dump.shape_mapIdx MarkPossibleErrorsInFile.maskByte exact.dump).trans hflips.symm
    refine ⟨(exact.dump.zip (fun a b => ~~~(a ^^^ b)) approx.dump).toFile,
      Dump.toFile (Dump.zip _ _ _),
      redirect_convertImageDecayToFlips exact.reads approx.reads hpossible.1, fun k j hk hj =>
      mask_of_flips hpossible hk hj, redirect_intersectFlips (Dump.readDump_print _)
        (Dump.readDump_print _) hmask, ?_⟩
    have hlength := Dump.length_bytes_of_shape hflips
    apply bytes_zip_or hmask
    intro k j hk hj
    exact mask_of_flips hpossible (hlength ▸ hk) hj
  · intro k j hk hj hmask
    have hlost := possibleDecay_lost exact.dump
    refine ⟨(lost exact.dump).toFile,
      (exact.dump.zip (fun a b => ~~~(a ^^^ b)) (lost exact.dump)).toFile, hlost,
      Dump.ignored_mapIdx _ _, redirect_convertImageDecayToFlips exact.reads
        (Dump.readDump_print _) hlost.1, ?_⟩
    exact (flips_lost hk hj).trans hmask

end ProbableCause
