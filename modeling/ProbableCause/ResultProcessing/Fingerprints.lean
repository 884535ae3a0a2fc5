import Mathlib.Algebra.Order.Field.Basic
import Mathlib.Algebra.Order.Field.Rat
import ProbableCause.Lib.Grouping
import ProbableCause.ResultProcessing.TwoFiles

/-!
# `ResultProcessing.Fingerprints` — fingerprints as folds, and distances from them

`processFPs.sh` folds `intersectFlips` over the error maps of one chip and divides the count of
`hd_fails_from_1` by that of `hd`. In the error maps a 0 bit is an error. `fold_intersectFlips` says
what the fold is, whatever the order and the grouping, and that it misses no error of a map it was
made from. The distance is a proper fraction (`distance_le_one`) as long as the counters, which are
ints, do not overflow; `hd_overflow` is a pair of maps for which one does.
-/

namespace ProbableCause

open Text Java Bits

/-! ## Folds -/

/-- A map that is made from some others: a bit of it is `v` where it is `v` in all of them, and the
    lines without data are those of one of them. -/
def FoldOf (v : Bool) (shape : List (Option ℕ)) (text : Str) (maps : List DumpFile) : Prop :=
  ∃ d, readDump text = some d ∧ d.shape = shape ∧ (∃ m ∈ maps, d.ignored = m.dump.ignored) ∧
    ∀ k j, d.bit k j = v ↔ ∀ m ∈ maps, m.dump.bit k j = v

section Folds

variable {v : Bool} {shape : List (Option ℕ)} {f : BitVec 8 → BitVec 8 → BitVec 8}
  {main : (Str → Option Str) → List Str → EStateM Ending Console Unit} {maps : List DumpFile}

theorem foldOf_leaf {m : DumpFile} (h : m.dump.shape = shape) : FoldOf v shape m.text [m] :=
  ⟨m.dump, m.reads, h, ⟨m, List.mem_cons_self, rfl⟩, by simp⟩

/-- One run of the program that combines two maps. -/
theorem FoldOf.combine
    (hmain : ∀ {text text' d e}, readDump text = some d → readDump text' = some e →
      d.shape = e.shape → redirect main text text' = some (d.zip f e).print)
    (hf : ∀ x y j, (f x y).getLsbD j = v ↔ x.getLsbD j = v ∧ y.getLsbD j = v) {text text' : Str}
    {maps maps' : List DumpFile} (h : FoldOf v shape text maps) (h' : FoldOf v shape text' maps') :
    ∃ out, redirect main text text' = some out ∧ FoldOf v shape out (maps ++ maps') := by
  obtain ⟨d, hd, rfl, ⟨m, hm, hignored⟩, hbit⟩ := h
  obtain ⟨e, he, hshape, -, hbit'⟩ := h'
  have hzip := Dump.shape_zip f hshape.symm
  refine ⟨_, hmain hd he hshape.symm, _, Dump.readDump_print _, hzip,
    ⟨m, List.mem_append_left _ hm, (Dump.ignored_zip f hshape.symm).trans hignored⟩, ?_⟩
  intro k j
  have hboth : (d.zip f e).bit k j = v ↔ d.bit k j = v ∧ e.bit k j = v := by
    by_cases hk : k < d.bytes.length
    · rw [Dump.bit, Dump.getD_zip _ hshape.symm hk]
      exact hf _ _ j
    · -- beyond the data all bits are 0
      have hk' : d.bytes.length ≤ k := Nat.le_of_not_lt hk
      rw [Dump.bit_of_le (Dump.length_bytes_of_shape hzip ▸ hk'), Dump.bit_of_le hk',
        Dump.bit_of_le (Dump.length_bytes_of_shape hshape ▸ hk'), and_self]
  rw [hboth, hbit, hbit', List.forall_mem_append]

/-- **A fold, in any order and any grouping.** -/
theorem foldOf_eval
    (hmain : ∀ {text text' d e}, readDump text = some d → readDump text' = some e →
      d.shape = e.shape → redirect main text text' = some (d.zip f e).print)
    (hf : ∀ x y j, (f x y).getLsbD j = v ↔ x.getLsbD j = v ∧ y.getLsbD j = v)
    (hshape : ∀ m ∈ maps, m.dump.shape = shape) {T : Grouping DumpFile} (hT : T.leaves.Perm maps) :
    ∃ fold : DumpFile, T.eval DumpFile.text (redirect main) = some fold.text ∧
      fold.dump.shape = shape ∧ (∃ m ∈ maps, fold.dump.ignored = m.dump.ignored) ∧
      ∀ k j, fold.dump.bit k j = v ↔ ∀ m ∈ maps, m.dump.bit k j = v := by
  obtain ⟨text, htext, d, hd, hdshape, ⟨m, hm, hignored⟩, hbit⟩ := T.eval_spec (P := FoldOf v shape)
    (fun m hm => foldOf_leaf (hshape m (hT.mem_iff.mp hm))) fun _ _ _ _ h h' =>
      FoldOf.combine hmain hf h h'
  refine ⟨⟨text, d, hd⟩, htext, hdshape, ⟨m, hT.mem_iff.mp hm, hignored⟩, ?_⟩
  intro k j
  rw [hbit]
  exact forall_congr' fun m => by rw [hT.mem_iff]

/-- **Folding `intersectFlips`**: an error is an error of every map. -/
theorem foldOf_intersectFlips (hshape : ∀ m ∈ maps, m.dump.shape = shape) {T : Grouping DumpFile}
    (hT : T.leaves.Perm maps) :
    ∃ fold : DumpFile, T.eval DumpFile.text (redirect IntersectFlips.main) = some fold.text ∧
      fold.dump.shape = shape ∧ (∃ m ∈ maps, fold.dump.ignored = m.dump.ignored) ∧
      ∀ k j, fold.dump.bit k j = false ↔ ∀ m ∈ maps, m.dump.bit k j = false :=
  foldOf_eval redirect_intersectFlips (by simp) hshape hT

/-- **Folding `intersectValid`**: a valid bit is valid in every map. -/
theorem foldOf_intersectValid (hshape : ∀ m ∈ maps, m.dump.shape = shape) {T : Grouping DumpFile}
    (hT : T.leaves.Perm maps) :
    ∃ fold : DumpFile, T.eval DumpFile.text (redirect IntersectValid.main) = some fold.text ∧
      fold.dump.shape = shape ∧ (∃ m ∈ maps, fold.dump.ignored = m.dump.ignored) ∧
      ∀ k j, fold.dump.bit k j = true ↔ ∀ m ∈ maps, m.dump.bit k j = true :=
  foldOf_eval redirect_intersectValid (by simp) hshape hT

end Folds

/-! ## Errors and missing errors -/

/-- The number of error bits of a map. -/
def Dump.errorBits (d : Dump) : ℕ := total (d.bytes.map (~~~·))

/-- The number of errors of the first map that the second has not. -/
def Dump.missing (d e : Dump) : ℕ := total (List.zipWith (fun a b => ~~~a &&& b) d.bytes e.bytes)

section Distances

variable {d e : Dump}

theorem missing_eq_zero_iff (h : d.shape = e.shape) :
    d.missing e = 0 ↔ ∀ k j, d.bit k j = false → e.bit k j = false := by
  have hlength := Dump.length_bytes_of_shape h
  rw [Dump.missing, total_eq_zero_iff]
  constructor
  · intro hall k j hdkj
    by_cases hk : k < d.bytes.length
    · have hmem : ~~~d.bytes[k] &&& e.bytes[k] ∈ List.zipWith
          (fun a b => ~~~a &&& b) d.bytes e.bytes := by
        apply List.mem_iff_getElem.mpr
        exact ⟨k, by rw [List.length_zipWith]; omega, List.getElem_zipWith⟩
      have hzero := congrArg (·.getLsbD j) (hall _ hmem)
      have hnone : (0 : BitVec 8).getLsbD j = false := by simp
      by_cases hj : j < 8
      · rw [Dump.bit, List.getD_eq_getElem _ _ hk] at hdkj
        rw [Dump.bit, List.getD_eq_getElem _ _ (hlength ▸ hk)]
        simpa only [BitVec.getLsbD_and, BitVec.getLsbD_not, hj, hdkj, decide_true,
          Bool.not_false, Bool.true_and, hnone] using hzero
      · exact BitVec.getLsbD_of_ge _ j (Nat.le_of_not_lt hj)
    · exact Dump.bit_of_le (hlength ▸ Nat.le_of_not_lt hk) j
  · intro hbits x hx
    obtain ⟨k, hk, rfl⟩ := List.mem_iff_getElem.mp hx
    rw [List.length_zipWith] at hk
    rw [List.getElem_zipWith]
    apply BitVec.eq_of_getLsbD_eq
    intro j hj
    have hkj := hbits k j
    rw [Dump.bit, Dump.bit, List.getD_eq_getElem _ _ (by omega),
      List.getD_eq_getElem _ _ (by omega)] at hkj
    simp only [BitVec.getLsbD_and, BitVec.getLsbD_not, hj, decide_true, Bool.true_and]
    cases hb : d.bytes[k].getLsbD j with
    | false => simp [hkj hb]
    | true => simp

theorem missing_le_errorBits (d e : Dump) : d.missing e ≤ d.errorBits := total_zipWith_not_and_le _ _

theorem errorBits_le (d : Dump) : d.errorBits ≤ 8 * d.bytes.length := by
  have h := total_le (d.bytes.map (~~~·))
  rwa [List.length_map] at h

/-- The differences between two maps. -/
theorem total_xor (d e : Dump) :
    total (List.zipWith (· ^^^ ·) d.bytes e.bytes) = d.missing e + e.missing d :=
      total_zipWith_xor _ _

/-- Compared with the map without errors, a map differs in its error bits. -/
theorem total_xor_noErrors (hones : ∀ b ∈ e.bytes, b = 0xFF) (h : e.shape = d.shape) :
    total (List.zipWith (· ^^^ ·) e.bytes d.bytes) = d.errorBits := by
  have hlist : e.bytes = List.replicate d.bytes.length 0xFF := by
    rw [← Dump.length_bytes_of_shape h]
    exact List.eq_replicate_of_mem hones
  have hxor : ∀ l : List (BitVec 8), List.zipWith (· ^^^ ·) (List.replicate l.length 0xFF) l =
      l.map (~~~·) := by
    intro l
    induction l with
    | nil => rfl
    | cons b l ih =>
      have hb : (0xFF : BitVec 8) ^^^ b = ~~~b := BitVec.allOnes_xor
      rw [List.length_cons, List.replicate_succ, List.zipWith_cons_cons, List.map_cons, ih, hb]
  rw [hlist, hxor]
  rfl

end Distances

/-! ## The distance of the scripts -/

namespace HD

/-- `$(java hd file1 file2)`: the output, less the line ends behind it. -/
def substitution (text1 text2 : Str) : Option Str :=
  match (main (twoFiles text1 text2) "file1".toList "file2".toList).run Totals.start with
  | .ok _ s => some (s.console.out.rdropWhile (· == '\n'))
  | .error _ _ => none

end HD

namespace ProcessFPs

/-- `java intersectFlips` on the results at 40 and 50 degrees, then on the result at 60 degrees and
that. -/
def fingerprint (result40 result50 result60 : Str) : Option Str := do
  let temp_fp ← redirect IntersectFlips.main result40 result50
  redirect IntersectFlips.main result60 temp_fp

/-- `java hd_fails_from_1 fingerprint result $(java hd fingerprint_no_errors fingerprint)`: the two
    numbers that are divided. -/
def distance (fingerprint_no_errors fingerprint result : Str) : Option (BitVec 32 × BitVec 32) := do
  let failsIn1 ← HD.substitution fingerprint_no_errors fingerprint
  match (HDFailsFrom1.main (twoFiles fingerprint result) "file1".toList "file2".toList failsIn1).run
      Totals.start with
  | .ok failsInFP s => some (s.totalFlips, failsInFP)
  | .error _ _ => none

theorem fingerprint_eq (result40 result50 result60 : DumpFile) :
    fingerprint result40.text result50.text result60.text =
      (Grouping.node (.leaf result60) (.node (.leaf result40) (.leaf result50))).eval DumpFile.text
        (redirect IntersectFlips.main) := rfl

/-- **The fingerprint of a chip** has the errors that are in the results of all three temperatures. -/
theorem exists_fingerprint {result40 result50 result60 : DumpFile} {shape : List (Option ℕ)}
    (hshape : ∀ m ∈ [result60, result40, result50], m.dump.shape = shape) :
    ∃ fp : DumpFile, fingerprint result40.text result50.text result60.text = some fp.text ∧
      fp.dump.shape = shape ∧ ∀ k j, fp.dump.bit k j = false ↔ ∀ m ∈ [result60, result40, result50],
        m.dump.bit k j = false := by
  obtain ⟨fp, heval, hfp, -, hbit⟩ := foldOf_intersectFlips hshape
    (T := .node (.leaf result60) (.node (.leaf result40) (.leaf result50))) (List.Perm.refl _)
  exact ⟨fp, fingerprint_eq result40 result50 result60 ▸ heval, hfp, hbit⟩

end ProcessFPs

/-- The shell hands on the number as it was printed. -/
theorem rdropWhile_ofInt (i : ℤ) : (ofInt i ++ "\n".toList).rdropWhile (· == '\n') = ofInt i := by
  change (ofInt i ++ ['\n']).rdropWhile (· == '\n') = ofInt i
  rw [List.rdropWhile_concat_pos _ _ _ (by rfl), List.rdropWhile_eq_self_iff]
  intro hne hlast
  have hbreak := oneLine_ofInt i _ (List.getLast_mem hne)
  rw [beq_iff_eq.mp hlast] at hbreak
  exact absurd hbreak (by decide)

section Script

variable {noErrors fp result : Str} {d e x : Dump} (he : readDump noErrors = some e)
  (hd : readDump fp = some d) (hx : readDump result = some x) (hed : e.shape = d.shape)
  (hdx : d.shape = x.shape) (hones : ∀ b ∈ e.bytes, b = 0xFF)

include he hd hx hed hdx hones

/-- The script divides the number of missing errors by the number of errors. -/
theorem distance_eq :
    ProcessFPs.distance noErrors fp result =
      some (BitVec.ofNat 32 (d.missing x), BitVec.ofNat 32 d.errorBits) := by
  have hsubst : HD.substitution noErrors fp = some (ofInt (BitVec.ofNat 32 d.errorBits).toInt) := by
    rw [HD.substitution, run_hd he hd hed, total_xor_noErrors hones hed]
    exact congrArg some (rdropWhile_ofInt _)
  have hparse : Java.parseInt 10 (ofInt (BitVec.ofNat 32 d.errorBits).toInt) =
      some (BitVec.ofNat 32 d.errorBits) := by
    generalize BitVec.ofNat 32 d.errorBits = n
    rw [Java.parseInt, parse_ofInt (BitVec.le_toInt n) BitVec.toInt_lt, BitVec.ofInt_toInt]
  rw [ProcessFPs.distance, hsubst, Option.bind_eq_bind, Option.bind_some,
    run_hd_fails_from_1 hd hx hdx hparse]
  rfl

end Script

/-! ## Main results -/

/-- **Fingerprint algebra.** Folding `intersectFlips` over error maps of one shape, in any order and
    any grouping, gives the map whose errors are the errors of all of them, with the lines without
    data of one of them; and `hd_fails_from_1` finds no error of the fold missing in a map that went
    into it. -/
theorem fold_intersectFlips (maps : List DumpFile) {shape : List (Option ℕ)}
    (hshape : ∀ m ∈ maps, m.dump.shape = shape) {T : Grouping DumpFile} (hT : T.leaves.Perm maps) :
    ∃ fold : DumpFile, T.eval DumpFile.text (redirect IntersectFlips.main) = some fold.text ∧
      fold.dump.shape = shape ∧ (∃ m ∈ maps, fold.dump.ignored = m.dump.ignored) ∧
      (∀ k j, fold.dump.bit k j = false ↔ ∀ m ∈ maps, m.dump.bit k j = false) ∧
      (∀ m ∈ maps, ∀ failsIn1 failsInFP, Java.parseInt 10 failsIn1 = some failsInFP →
        HDFailsFrom1.flips fold.text m.text failsIn1 = some 0) ∧
      ∀ T' : Grouping DumpFile, T'.leaves.Perm maps →
        ∃ fold' : DumpFile, T'.eval DumpFile.text (redirect IntersectFlips.main) = some fold'.text ∧
          fold'.dump.bytes = fold.dump.bytes := by
  obtain ⟨fold, heval, hfold, hignored, hbit⟩ := foldOf_intersectFlips hshape hT
  refine ⟨fold, heval, hfold, hignored, hbit, ?_, ?_⟩
  · intro m hm failsIn1 failsInFP hfails
    have hsame : fold.dump.shape = m.dump.shape := hfold.trans (hshape m hm).symm
    have hnone : fold.dump.missing m.dump = 0 :=
      (missing_eq_zero_iff hsame).mpr fun k j h => (hbit k j).mp h m hm
    rw [flips_hd_fails_from_1 fold.reads m.reads hsame hfails]
    change some (BitVec.ofNat 32 (fold.dump.missing m.dump)) = _
    rw [hnone]
    rfl
  · intro T' hT'
    obtain ⟨fold', heval', hfold', -, hbit'⟩ := foldOf_intersectFlips hshape hT'
    refine ⟨fold', heval', Dump.bytes_eq_of_bit (hfold'.trans hfold.symm) ?_⟩
    intro k j
    rw [Bool.eq_iff_iff, ← not_iff_not, Bool.not_eq_true, Bool.not_eq_true, hbit', hbit]

theorem fold_intersectFlips_pair :
    ∃ fold : DumpFile,
      (Grouping.node (.leaf (Dump.uniform 0 0x0F).toFile)
        (.leaf (Dump.uniform 0 0xF5).toFile)).eval DumpFile.text (redirect IntersectFlips.main) =
          some fold.text ∧
      ∀ k j, fold.dump.bit k j = false ↔
        ∀ m ∈ [(Dump.uniform 0 0x0F).toFile, (Dump.uniform 0 0xF5).toFile],
          m.dump.bit k j = false := by
  have hshape : ∀ m ∈ [(Dump.uniform 0 0x0F).toFile, (Dump.uniform 0 0xF5).toFile],
      m.dump.shape = [some 2] := by
    simp [Dump.toFile]
  obtain ⟨fold, heval, -, -, hbit, -⟩ :=
    fold_intersectFlips _ hshape (T := .node (.leaf _) (.leaf _)) (List.Perm.refl _)
  exact ⟨fold, heval, hbit⟩

/-- **The distance is a proper fraction.** `hd` counts what is missing either way, and against the
    map without errors it counts the errors; a fingerprint misses at most as many errors as it has,
    and none exactly if all its errors are errors of the result. The first equation is one of ints
    and holds whatever the size of the maps. -/
theorem distance_le_one {E F X : DumpFile} (hFX : F.dump.shape = X.dump.shape)
    (hEF : E.dump.shape = F.dump.shape) (hones : ∀ b ∈ E.dump.bytes, b = 0xFF) :
    ∃ flips missing missing' errors : BitVec 32,
      HD.flips F.text X.text = some flips ∧
      (∀ failsIn1 failsInFP, Java.parseInt 10 failsIn1 = some failsInFP →
        HDFailsFrom1.flips F.text X.text failsIn1 = some missing ∧
        HDFailsFrom1.flips X.text F.text failsIn1 = some missing') ∧
      HD.flips E.text F.text = some errors ∧
      ProcessFPs.distance E.text F.text X.text = some (missing, errors) ∧
      flips = missing + missing' ∧
      (F.dump.bytes.length < 2 ^ 28 →
        flips.toInt = missing.toInt + missing'.toInt ∧
        errors.toInt = F.dump.errorBits ∧
        missing.toInt ≤ errors.toInt ∧
        (missing.toInt = 0 ↔ ∀ k j, F.dump.bit k j = false → X.dump.bit k j = false) ∧
        (0 < F.dump.errorBits →
          0 ≤ (missing.toInt : ℚ) / errors.toInt ∧ (missing.toInt : ℚ) / errors.toInt ≤ 1)) := by
  have hXF : X.dump.shape = F.dump.shape := hFX.symm
  have hlength := Dump.length_bytes_of_shape hFX
  refine ⟨_, BitVec.ofNat 32 (F.dump.missing X.dump), BitVec.ofNat 32 (X.dump.missing F.dump),
    BitVec.ofNat 32 F.dump.errorBits, flips_hd F.reads X.reads hFX, ?_, ?_, ?_, ?_, ?_⟩
  · intro failsIn1 failsInFP hfails
    exact ⟨flips_hd_fails_from_1 F.reads X.reads hFX hfails,
      flips_hd_fails_from_1 X.reads F.reads hXF hfails⟩
  · rw [flips_hd E.reads F.reads hEF, total_xor_noErrors hones hEF]
  · exact distance_eq E.reads F.reads X.reads hEF hFX hones
  · rw [total_xor, BitVec.ofNat_add]
  · intro hsmall
    -- with less than 2^31 bits no count overflows
    have hF := errorBits_le F.dump
    have hX := errorBits_le X.dump
    have hle := missing_le_errorBits F.dump X.dump
    have hle' := missing_le_errorBits X.dump F.dump
    have hflips := total_le (List.zipWith (· ^^^ ·) F.dump.bytes X.dump.bytes)
    rw [List.length_zipWith] at hflips
    rw [toInt_ofNat_of_lt (by omega), toInt_ofNat_of_lt (n := F.dump.missing X.dump) (by omega),
      toInt_ofNat_of_lt (n := X.dump.missing F.dump) (by omega),
      toInt_ofNat_of_lt (n := F.dump.errorBits) (by omega)]
    refine ⟨by rw [total_xor, Nat.cast_add], rfl, by exact_mod_cast hle, ?_, ?_⟩
    · rw [← missing_eq_zero_iff hFX, Nat.cast_eq_zero]
    · intro hpos
      have hposQ : (0 : ℚ) < F.dump.errorBits := by exact_mod_cast hpos
      have hleQ : (F.dump.missing X.dump : ℚ) ≤ F.dump.errorBits := by exact_mod_cast hle
      simp only [Int.cast_natCast]
      exact ⟨div_nonneg (Nat.cast_nonneg _) hposQ.le, (div_le_one hposQ).mpr hleQ⟩

theorem distance_le_one_uniform :
    ∃ missing errors : BitVec 32,
      ProcessFPs.distance (Dump.uniform 0 0xFF).print (Dump.uniform 0 0x0F).print
        (Dump.uniform 0 0x33).print = some (missing, errors) ∧
      0 ≤ (missing.toInt : ℚ) / errors.toInt ∧ (missing.toInt : ℚ) / errors.toInt ≤ 1 := by
  have hones : ∀ b ∈ (Dump.uniform 0 0xFF).toFile.dump.bytes, b = 0xFF := by
    intro b hb
    rw [Dump.toFile, Dump.bytes_uniform] at hb
    exact List.eq_of_mem_replicate hb
  obtain ⟨_, missing, _, errors, -, -, -, hdistance, -, hsmall⟩ :=
    distance_le_one (E := (Dump.uniform 0 0xFF).toFile) (F := (Dump.uniform 0 0x0F).toFile)
      (X := (Dump.uniform 0 0x33).toFile) (by simp [Dump.toFile]) (by simp [Dump.toFile]) hones
  have hlength : (Dump.uniform 0 0x0F).toFile.dump.bytes.length < 2 ^ 28 := by simp [Dump.toFile]
  have herrors : 0 < (Dump.uniform 0 0x0F).toFile.dump.errorBits := by
    rw [Dump.toFile, Dump.errorBits, Dump.bytes_uniform]
    decide
  exact ⟨missing, errors, hdistance, (hsmall hlength).2.2.2.2 herrors⟩

/-- Two maps for which a counter overflows: the first has no error, and every bit of the second is
one. -/
theorem hd_overflow :
    ∃ flips : BitVec 32,
      HD.flips (Dump.uniform 268435454 0xFF).print (Dump.uniform 268435454 0x00).print = some flips ∧
      flips.toInt = -2147483648 ∧ (Dump.uniform 268435454 0x00).errorBits = 2147483648 := by
  have hshape : (Dump.uniform 268435454 0xFF).shape = (Dump.uniform 268435454 0x00).shape := by
    rw [Dump.shape_uniform, Dump.shape_uniform]
  have hones : ∀ b ∈ (Dump.uniform 268435454 0xFF).bytes, b = 0xFF := by
    intro b hb
    rw [Dump.bytes_uniform] at hb
    exact List.eq_of_mem_replicate hb
  have hbits : (Dump.uniform 268435454 0x00).errorBits = 2147483648 := by
    have hbyte : ones (~~~(0x00 : BitVec 8)) = 8 := by decide
    rw [Dump.errorBits, Dump.bytes_uniform, List.map_replicate, total_replicate, hbyte]
  refine ⟨_, flips_hd (Dump.readDump_print _) (Dump.readDump_print _) hshape, ?_, hbits⟩
  rw [total_xor_noErrors hones hshape, hbits]
  decide

end ProbableCause
