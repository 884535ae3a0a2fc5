import ProbableCause.ResultProcessing.Fingerprints

/-!
# `ResultProcessing.CountErrors` — `countErrors`, and how often a bit fails

`countErrors` adds an error map to a file of counts, one line for each bit. `processConFPs.sh`
starts such a file with one map and adds the others. The counts it ends with are those of the errors
at each bit (`counts_eq`), so they agree with the folds of `intersectFlips` and `intersectValid`
(`counts_agree`), as long as there are less than `2 ^ 31` maps: the counts are ints, and
`counts_overflow` is a list of maps for which they overflow.
-/

namespace ProbableCause

open Text Java

/-! ## The program -/

namespace CountErrors

/-- The console, and what is left to read of the second file. -/
structure State where
  console : Console
  file2 : List Str

instance : HasConsole State := ⟨fun f s => { s with console := f s.console }⟩

/-- `Integer.parseInt(file2.readLine())`; at the end of the file there is no string to parse. -/
def readCount : EStateM Ending State (BitVec 32) := do
  let s ← get
  match s.file2 with
  | [] => throw .numberFormatException
  | line :: file2 =>
    set { s with file2 := file2 }
    match Java.parseInt 10 line with
    | none => throw .numberFormatException
    | some count => pure count

/-- `existingCount ? Integer.parseInt(file2.readLine()) : 0`. -/
def oldCount (existingCount : Bool) : EStateM Ending State (BitVec 32) :=
  if existingCount then readCount else pure 0

/-- The count of one bit. -/
def countBit (existingCount : Bool) (errorValue : BitVec 32) (bitIndex : ℕ) :
    EStateM Ending State Unit := do
  let currentCount ← oldCount existingCount
  if errorValue &&& (0x1#32 <<< (7 - bitIndex)) = 0 then
    println (ofInt (currentCount + 1).toInt)
  else
    println (ofInt currentCount.toInt)

/-- The counts of the bits of one byte. -/
def countByte (existingCount : Bool) (byte : Str) : EStateM Ending State Unit := do
  let errorValue ← parseHex byte
  (List.range 8).forM (countBit existingCount errorValue)

/-- `while((line1 = file1.readLine()) != null)`. -/
def loop (existingCount : Bool) : List Str → EStateM Ending State Unit
  | [] => pure ()
  | line1 :: file1 => do
    if ignoreLine line1 then
      loop existingCount file1
    else
      (split line1).forM (countByte existingCount)
      loop existingCount file1

def main (files : Str → Option Str) (args : List Str) : EStateM Ending State Unit :=
  match args with
  | [errorMap] => do
    let file1 ← openFileRead files errorMap
    loop false file1
  | [errorMap, currentCountMap] => do
    let file1 ← openFileRead files errorMap
    let file2 ← openFileRead files currentCountMap
    modify fun s => { s with file2 := file2 }
    loop true file1
  | _ => do
    eprintln "Usage: java countErrors errorMap [currentCountMap]".toList
    throw (.exit 1)

/-- What the program writes when it ends normally. -/
def output (files : Str → Option Str) (args : List Str) : Option Str :=
  match (main files args).run ⟨⟨[], []⟩, []⟩ with
  | .ok _ s => some s.console.out
  | .error _ _ => none

end CountErrors

namespace ProcessConFPs

/-- The count file for some results: the first starts it and each further one is added to it. -/
def conCount (first : Str) (results : List Str) : Option Str := do
  let start ← CountErrors.output (twoFiles first []) ["file1".toList]
  results.foldlM (fun conCount result =>
    CountErrors.output (twoFiles result conCount) ["file1".toList, "file2".toList]) start

end ProcessConFPs

/-! ## One run -/

/-- The bits of a byte, the most significant first. -/
def msbFirst (b : BitVec 8) : List Bool := (List.range 8).map fun i => b.getLsbD (7 - i)

/-- The bits of a map, in the order of the count file. -/
def Dump.bits (d : Dump) : List Bool := d.bytes.flatMap msbFirst

/-- A count as a line. -/
def countLine (n : BitVec 32) : Str := ofInt n.toInt

/-- An error bit is counted. -/
def bump (bit : Bool) (n : BitVec 32) : BitVec 32 := if bit then n else n + 1

namespace CountErrors

/-- The counts a run finds for the next bits: lines of the second file, or zeros where there is
none. -/
inductive Supplies : Bool → List Str → List (BitVec 32) → List Str → Prop where
  | existing (counts : List (BitVec 32)) (rest : List Str) : Supplies true
      (counts.map countLine ++ rest) counts rest
  | none (count : ℕ) (file2 : List Str) : Supplies false file2 (List.replicate count 0) file2

/-- A part of the program that adds some bits to the counts it finds. -/
def Adds (existingCount : Bool) (x : EStateM Ending State Unit) (bits : List Bool) : Prop :=
  ∀ c file2 counts counts' rest, counts.length = bits.length → Supplies existingCount file2
    (counts ++ counts') rest → ∃ file2', x.run ⟨c, file2⟩ =
        .ok () ⟨{ c with out := c.out ++ unlines ((List.zipWith bump bits counts).map countLine) },
          file2'⟩ ∧
      Supplies existingCount file2' counts' rest

variable {existingCount : Bool}

theorem parseInt_countLine (n : BitVec 32) : Java.parseInt 10 (countLine n) = some n :=
  parseInt_ofInt n

theorem run_readCount (c : Console) (n : BitVec 32) (file2 : List Str) :
    readCount.run ⟨c, countLine n :: file2⟩ = .ok n ⟨c, file2⟩ := by
  rw [readCount, EStateM.run_bind, EStateM.run_get]
  simp only [EStateM.run_bind, EStateM.run_set, parseInt_countLine]
  rfl

/-- The count that is found for the next bit. -/
theorem Supplies.cons {file2 rest : List Str} {n : BitVec 32} {counts : List (BitVec 32)}
    (h : Supplies existingCount file2 (n :: counts) rest) (c : Console) :
    ∃ file2', (oldCount existingCount).run ⟨c, file2⟩ = .ok n ⟨c, file2'⟩ ∧
      Supplies existingCount file2' counts rest := by
  generalize hcounts : n :: counts = all at h
  cases h with
  | existing =>
    subst hcounts
    exact ⟨counts.map countLine ++ rest, run_readCount c n _, .existing _ _⟩
  | none count =>
    cases count with
    | zero => cases hcounts
    | succ count =>
      rw [List.replicate_succ] at hcounts
      obtain ⟨rfl, rfl⟩ := List.cons.inj hcounts
      exact ⟨file2, rfl, .none _ _⟩

/-- The test of one bit. -/
theorem and_shiftLeft_eq_zero (v : BitVec 32) (k : ℕ) (hk : k < 32) :
    v &&& (0x1#32 <<< k) = 0 ↔ v.getLsbD k = false := by
  have hone : 0x1#32 <<< k = BitVec.twoPow 32 k := rfl
  have hne : BitVec.twoPow 32 k ≠ 0 := by
    intro hzero
    have hbit := congrArg (·.getLsbD k) hzero
    simp [hk] at hbit
  rw [hone, BitVec.and_twoPow]
  cases v.getLsbD k with
  | false => simp
  | true => simpa using hne

theorem adds_countBit {b : BitVec 8} {i : ℕ} (hi : i < 8) :
    Adds existingCount (countBit existingCount (b.setWidth 32) i) [b.getLsbD (7 - i)] := by
  intro c file2 counts counts' rest hlength hsupplies
  obtain ⟨n, rfl⟩ := List.length_eq_one_iff.mp hlength
  obtain ⟨file2', hrun, hrest⟩ := hsupplies.cons c
  refine ⟨file2', ?_, hrest⟩
  have hbit : (b.setWidth 32).getLsbD (7 - i) = b.getLsbD (7 - i) := by
    simp [show 7 - i < 32 by omega]
  have htest : b.setWidth 32 &&& (0x1#32 <<< (7 - i)) = 0 ↔ b.getLsbD (7 - i) = false := by
    rw [and_shiftLeft_eq_zero _ _ (by omega), hbit]
  rw [countBit, EStateM.run_bind, hrun]
  simp only [htest]
  cases b.getLsbD (7 - i) <;> simp [bump, countLine] <;> rfl

theorem Adds.bind {x y : EStateM Ending State Unit} {bits bits' : List Bool}
    (hx : Adds existingCount x bits) (hy : Adds existingCount y bits') :
      Adds existingCount (x >>= fun _ => y) (bits ++ bits') := by
  intro c file2 counts counts' rest hlength hsupplies
  rw [List.length_append] at hlength
  have hcounts : counts = counts.take bits.length ++ counts.drop bits.length :=
    (List.take_append_drop _ _).symm
  rw [hcounts, List.append_assoc] at hsupplies
  obtain ⟨file2', hrun, hrest⟩ := hx c file2 _ _ rest (by rw [List.length_take]; omega) hsupplies
  obtain ⟨file2'', hrun', hrest'⟩ := hy _ file2' _ _ rest (by rw [List.length_drop]; omega) hrest
  refine ⟨file2'', ?_, hrest'⟩
  have hzip : List.zipWith bump (bits ++ bits') counts =
      List.zipWith bump bits (counts.take bits.length) ++ List.zipWith bump bits'
        (counts.drop bits.length) := by
    conv_lhs => rw [hcounts]
    exact List.zipWith_append (by rw [List.length_take]; omega)
  rw [EStateM.run_bind, hrun, hzip, List.map_append, unlines_append, ← List.append_assoc]
  exact hrun'

theorem Adds.pure : Adds existingCount (Pure.pure ()) [] := by
  intro c file2 counts counts' rest hlength hsupplies
  obtain rfl := List.length_eq_zero_iff.mp hlength
  refine ⟨file2, ?_, hsupplies⟩
  simp

theorem Adds.forM {α : Type} {l : List α} {f : α → EStateM Ending State Unit} {g : α → List Bool}
    (h : ∀ a ∈ l, Adds existingCount (f a) (g a)) : Adds existingCount (l.forM f) (l.flatMap g) := by
  induction l with
  | nil => exact Adds.pure
  | cons a l ih =>
    rw [List.flatMap_cons]
    exact (h a List.mem_cons_self).bind (ih fun x hx => h x (List.mem_cons_of_mem _ hx))

theorem adds_countByte {t : Str} {b : BitVec 8} (h : hexByte? t = some b) :
    Adds existingCount (countByte existingCount t) (msbFirst b) := by
  have hbits : Adds existingCount ((List.range 8).forM (countBit existingCount (b.setWidth 32)))
      ((List.range 8).flatMap fun i => [b.getLsbD (7 - i)]) :=
    Adds.forM fun i hi => adds_countBit (List.mem_range.mp hi)
  rw [← List.map_eq_flatMap] at hbits
  intro c file2 counts counts' rest hlength hsupplies
  rw [countByte, EStateM.run_bind, run_parseHex h]
  exact hbits c file2 counts counts' rest hlength hsupplies

theorem adds_bytes {ts : List Str} {bs : List (BitVec 8)}
    (h : List.Forall₂ (fun t b => hexByte? t = some b) ts bs) :
    Adds existingCount (ts.forM (countByte existingCount)) (bs.flatMap msbFirst) := by
  induction h with
  | nil => exact Adds.pure
  | cons hb _ ih => exact (adds_countByte hb).bind ih

/-- The whole loop adds the bits of the map. -/
theorem adds_loop {file1 : List Str} {ls : List Line}
    (h : List.Forall₂ (fun t l => readLine t = some l) file1 ls) :
    Adds existingCount (loop existingCount file1) ((ls.flatMap Line.bytes).flatMap msbFirst) := by
  induction h with
  | nil => exact Adds.pure
  | @cons t l file1 ls hl _ ih =>
    rw [loop, List.flatMap_cons, List.flatMap_append]
    rcases readLine_cases hl with ⟨hi, rfl⟩ | ⟨hi, bs, rfl, hbs⟩
    · rw [if_pos hi]
      exact ih
    · rw [if_neg (by simp [hi])]
      exact (adds_bytes hbs).bind ih

variable {text : Str} {d : Dump} (hd : readDump text = some d)

include hd

/-- **The first run** starts from zeros. -/
theorem output_first (text2 : Str) :
    output (twoFiles text text2) ["file1".toList] =
      some (unlines ((List.zipWith bump d.bits (List.replicate d.bits.length 0)).map countLine)) := by
  have hloop : Adds false _ d.bits := adds_loop (readDump_eq_some_iff.mp hd)
  obtain ⟨file2', hrun, -⟩ := hloop ⟨[], []⟩ [] (List.replicate d.bits.length 0) [] []
    (List.length_replicate)
    (by rw [List.append_nil]; exact .none _ _)
  have hfile1 : twoFiles text text2 "file1".toList = some text := rfl
  rw [output, main, openFileRead, hfile1, pure_bind, hrun]
  rfl

/-- **A further run** adds the map to the counts. -/
theorem output_next {counts : List (BitVec 32)} (hlength : counts.length = d.bits.length) :
    output (twoFiles text (unlines (counts.map countLine))) ["file1".toList, "file2".toList] =
      some (unlines ((List.zipWith bump d.bits counts).map countLine)) := by
  have hloop : Adds true _ d.bits := adds_loop (readDump_eq_some_iff.mp hd)
  obtain ⟨file2', hrun, -⟩ := hloop ⟨[], []⟩ (counts.map countLine) counts [] [] hlength
    (by simpa using Supplies.existing counts [])
  have hfile1 : twoFiles text (unlines (counts.map countLine)) "file1".toList = some text := rfl
  have hfile2 : twoFiles text (unlines (counts.map countLine)) "file2".toList =
      some (unlines (counts.map countLine)) := rfl
  have hlines : lines (unlines (counts.map countLine)) = counts.map countLine := by
    apply lines_unlines
    intro l hl
    obtain ⟨n, -, rfl⟩ := List.mem_map.mp hl
    exact oneLine_ofInt _
  rw [output, main, openFileRead, openFileRead, hfile1, hfile2, pure_bind, pure_bind,
    EStateM.run_bind, EStateM.run_modify, hlines]
  simp only [hrun]
  rfl

end CountErrors

/-! ## The count file -/

/-- The bits of a map, by their position in the count file. -/
theorem Dump.bits_eq (d : Dump) :
    d.bits = (List.range (8 * d.bytes.length)).map fun p => d.bit (p / 8) (7 - p % 8) := by
  have hbytes : ∀ bs : List (BitVec 8), bs.flatMap msbFirst =
      (List.range (8 * bs.length)).map fun p => (bs.getD (p / 8) 0).getLsbD (7 - p % 8) := by
    intro bs
    induction bs with
    | nil => rfl
    | cons b bs ih =>
      have hfirst : (List.range 8).map (fun p => ((b :: bs).getD (p / 8) 0).getLsbD (7 - p % 8)) =
          msbFirst b := by
        apply List.map_congr_left
        intro p hp
        have hp : p < 8 := List.mem_range.mp hp
        rw [Nat.div_eq_of_lt hp, Nat.mod_eq_of_lt hp]
        rfl
      have hrest : (fun p => ((b :: bs).getD (p / 8) 0).getLsbD (7 - p % 8)) ∘ (8 + ·) =
          fun p => (bs.getD (p / 8) 0).getLsbD (7 - p % 8) := by
        funext p
        simp only [Function.comp, Nat.add_mod_left]
        rw [Nat.add_div_left p (by decide), List.getD_cons_succ]
      rw [List.flatMap_cons, ih, List.length_cons, Nat.mul_succ, Nat.add_comm, List.range_add,
        List.map_append, List.map_map, hfirst, hrest]
  exact hbytes d.bytes

/-- In how many maps a bit of the count file is an error. -/
def errorCount (maps : List DumpFile) (p : ℕ) : ℕ :=
  maps.countP fun m => !m.dump.bit (p / 8) (7 - p % 8)

/-- The count file of some maps with `n` bytes. -/
def countFile (n : ℕ) (maps : List DumpFile) : Str :=
  unlines ((List.range (8 * n)).map fun p => countLine (BitVec.ofNat 32 (errorCount maps p)))

section Script

variable {n : ℕ}

/-- Adding a map to the counts. -/
theorem zipWith_bump (maps : List DumpFile) {m : DumpFile} (hm : m.dump.bytes.length = n) :
    List.zipWith bump m.dump.bits
      ((List.range (8 * n)).map fun p => BitVec.ofNat 32 (errorCount maps p)) =
        (List.range (8 * n)).map fun p => BitVec.ofNat 32 (errorCount (maps ++ [m]) p) := by
  rw [Dump.bits_eq, hm, List.zipWith_map, List.zipWith_self]
  apply List.map_congr_left
  intro p _
  rw [errorCount, errorCount, List.countP_append, List.countP_singleton]
  cases m.dump.bit (p / 8) (7 - p % 8) with
  | false => simp [bump, BitVec.ofNat_add]
  | true => simp [bump]

theorem output_countFile (maps : List DumpFile) {m : DumpFile} (hm : m.dump.bytes.length = n) :
    CountErrors.output (twoFiles m.text (countFile n maps)) ["file1".toList, "file2".toList] =
      some (countFile n (maps ++ [m])) := by
  have hlength : ((List.range (8 * n)).map fun p => BitVec.ofNat 32 (errorCount maps p)).length =
      m.dump.bits.length := by
    rw [Dump.bits_eq, hm, List.length_map, List.length_map]
  have hrun := CountErrors.output_next m.reads hlength
  rw [zipWith_bump maps hm, List.map_map, List.map_map] at hrun
  exact hrun

/-- **The count file of the script.** -/
theorem conCount_eq {first : DumpFile} {results : List DumpFile}
    (hn : ∀ m ∈ first :: results, m.dump.bytes.length = n) :
    ProcessConFPs.conCount first.text (results.map DumpFile.text) =
      some (countFile n (first :: results)) := by
  have hfirst := hn first List.mem_cons_self
  have hstart : CountErrors.output (twoFiles first.text []) ["file1".toList] =
      some (countFile n [first]) := by
    have hzeros : List.replicate first.dump.bits.length 0 =
        (List.range (8 * n)).map fun p => BitVec.ofNat 32 (errorCount [] p) := by
      simp only [Dump.bits_eq, hfirst, List.length_map, List.length_range, errorCount,
        List.countP_nil, List.map_const']
      rfl
    rw [CountErrors.output_first first.reads, hzeros, zipWith_bump [] hfirst, List.map_map]
    rfl
  have hfold : ∀ (ms maps : List DumpFile), (∀ m ∈ ms, m.dump.bytes.length = n) →
      (ms.map DumpFile.text).foldlM (fun conCount result =>
        CountErrors.output (twoFiles result conCount) ["file1".toList, "file2".toList])
          (countFile n maps) =
        some (countFile n (maps ++ ms)) := by
    intro ms
    induction ms with
    | nil => intro maps _; simp
    | cons m ms ih =>
      intro maps hms
      rw [List.map_cons, List.foldlM_cons, output_countFile maps (hms m List.mem_cons_self),
        Option.bind_eq_bind, Option.bind_some, ih _ fun x hx => hms x (List.mem_cons_of_mem _ hx),
        List.append_assoc]
      rfl
  rw [ProcessConFPs.conCount, hstart]
  exact hfold results [first] fun m hm => hn m (List.mem_cons_of_mem _ hm)

end Script

/-! ## Main results -/

theorem errorCount_eq_length_iff {maps : List DumpFile} {p : ℕ} :
    errorCount maps p = maps.length ↔ ∀ m ∈ maps, m.dump.bit (p / 8) (7 - p % 8) = false := by
  rw [errorCount, List.countP_eq_length]
  simp

theorem errorCount_eq_zero_iff {maps : List DumpFile} {p : ℕ} :
    errorCount maps p = 0 ↔ ∀ m ∈ maps, m.dump.bit (p / 8) (7 - p % 8) = true := by
  rw [errorCount, List.countP_eq_zero]
  simp

theorem countLine_ofNat {n : ℕ} (h : n < 2 ^ 31) : countLine (BitVec.ofNat 32 n) = digits n := by
  rw [countLine, toInt_ofNat_of_lt h, ofInt, if_neg (by omega)]
  rfl

/-- **Error counts agree with intersections.** Less than `2 ^ 31` maps of one shape, counted in any
    order: the file has for every bit, the most significant of each byte first, the number of maps
    in which it is an error. All maps have it as an error where `intersectFlips` leaves one, and
    none where `intersectValid` leaves a valid bit. -/
theorem counts_agree (maps : List DumpFile) {shape : List (Option ℕ)}
    (hshape : ∀ m ∈ maps, m.dump.shape = shape) (hsmall : maps.length < 2 ^ 31) {first : DumpFile}
    {results : List DumpFile} (horder : (first :: results).Perm maps) {T U : Grouping DumpFile}
    (hT : T.leaves.Perm maps) (hU : U.leaves.Perm maps) :
    ∃ flips valid : DumpFile,
      T.eval DumpFile.text (redirect IntersectFlips.main) = some flips.text ∧
      U.eval DumpFile.text (redirect IntersectValid.main) = some valid.text ∧
      ProcessConFPs.conCount first.text (results.map DumpFile.text) =
        some (unlines ((List.range (8 * first.dump.bytes.length)).map
          fun p => digits (errorCount maps p))) ∧
      ∀ p, (errorCount maps p = maps.length ↔ flips.dump.bit (p / 8) (7 - p % 8) = false) ∧
        (errorCount maps p = 0 ↔ valid.dump.bit (p / 8) (7 - p % 8) = true) := by
  obtain ⟨flips, hflips, -, -, hflipsBit⟩ := foldOf_intersectFlips hshape hT
  obtain ⟨valid, hvalid, -, -, hvalidBit⟩ := foldOf_intersectValid hshape hU
  refine ⟨flips, valid, hflips, hvalid, ?_, ?_⟩
  · have hn : ∀ m ∈ first :: results, m.dump.bytes.length = first.dump.bytes.length := by
      intro m hm
      apply Dump.length_bytes_of_shape
      rw [hshape m (horder.mem_iff.mp hm), hshape first (horder.mem_iff.mp List.mem_cons_self)]
    have hlines : ∀ p, countLine (BitVec.ofNat 32 (errorCount (first :: results) p)) =
        digits (errorCount maps p) := by
      intro p
      have hcount : errorCount (first :: results) p = errorCount maps p := horder.countP_eq _
      have hle : errorCount maps p ≤ maps.length := List.countP_le_length
      rw [hcount, countLine_ofNat (by omega)]
    rw [conCount_eq hn, countFile]
    simp only [hlines]
  · intro p
    rw [errorCount_eq_length_iff, hflipsBit, errorCount_eq_zero_iff, hvalidBit]
    exact ⟨Iff.rfl, Iff.rfl⟩

theorem counts_agree_pair :
    ∃ flips valid : DumpFile,
      (Grouping.node (.leaf (Dump.uniform 0 0x0F).toFile)
        (.leaf (Dump.uniform 0 0xF5).toFile)).eval DumpFile.text (redirect IntersectFlips.main) =
          some flips.text ∧
      (Grouping.node (.leaf (Dump.uniform 0 0x0F).toFile)
        (.leaf (Dump.uniform 0 0xF5).toFile)).eval DumpFile.text (redirect IntersectValid.main) =
          some valid.text ∧
      ∀ p, (errorCount [(Dump.uniform 0 0x0F).toFile, (Dump.uniform 0 0xF5).toFile] p = 2 ↔
        flips.dump.bit (p / 8) (7 - p % 8) = false) := by
  have hshape : ∀ m ∈ [(Dump.uniform 0 0x0F).toFile, (Dump.uniform 0 0xF5).toFile],
      m.dump.shape = [some 2] := by
    simp [Dump.toFile]
  obtain ⟨flips, valid, hflips, hvalid, -, hbits⟩ :=
    counts_agree _ hshape (by simp) (List.Perm.refl _)
    (T := .node (.leaf _) (.leaf _)) (List.Perm.refl _) (U := .node (.leaf _) (.leaf _))
      (List.Perm.refl _)
  exact ⟨flips, valid, hflips, hvalid, fun p => (hbits p).1⟩

/-- The same map again and again, with errors everywhere. -/
theorem errorCount_replicate (k p : ℕ) :
    errorCount (List.replicate k (Dump.uniform 0 0x00).toFile) p = k := by
  have hbit : (!(Dump.uniform 0 0x00).toFile.dump.bit (p / 8) (7 - p % 8)) = true := by
    have hbytes : (Dump.uniform 0 0x00).bytes.getD (p / 8) 0 = 0 := by
      rw [Dump.bytes_uniform]
      by_cases h : p / 8 < (List.replicate (0 + 2) (0x00 : BitVec 8)).length
      · rw [List.getD_eq_getElem _ _ h, List.getElem_replicate]
      · exact List.getD_eq_default _ _ (Nat.le_of_not_lt h)
    rw [Dump.toFile, Dump.bit, hbytes]
    simp
  rw [errorCount, List.countP_replicate, if_pos hbit]

theorem conCount_replicate (k : ℕ) :
    ProcessConFPs.conCount (Dump.uniform 0 0x00).print
      (List.replicate k (Dump.uniform 0 0x00).print) =
        some (unlines (List.replicate 16 (countLine (BitVec.ofNat 32 (k + 1))))) := by
  have hn : ∀ m ∈ (Dump.uniform 0 0x00).toFile :: List.replicate k (Dump.uniform 0 0x00).toFile,
      m.dump.bytes.length = 2 := by
    intro m hm
    rw [← List.replicate_succ] at hm
    rw [List.eq_of_mem_replicate hm]
    simp [Dump.toFile]
  have hcount := conCount_eq hn
  rw [List.map_replicate, ← List.replicate_succ, countFile] at hcount
  simp only [errorCount_replicate, List.map_const', List.length_range] at hcount
  exact hcount

/-- With `2 ^ 31` maps in which every bit is an error, the counts overflow. -/
theorem counts_overflow :
    ProcessConFPs.conCount (Dump.uniform 0 0x00).print
      (List.replicate 2147483647 (Dump.uniform 0 0x00).print) =
        some (unlines (List.replicate 16 "-2147483648".toList)) ∧
    ∀ p, errorCount (List.replicate 2147483648 (Dump.uniform 0 0x00).toFile) p = 2147483648 := by
  have hline : countLine (BitVec.ofNat 32 (2147483647 + 1)) = "-2147483648".toList := by decide
  refine ⟨?_, errorCount_replicate _⟩
  rw [conCount_replicate, hline]

end ProbableCause
