import ProbableCause.Experiment.Script
import ProbableCause.Firmware.Programs

/-!
# `Experiment.Extraction` — what the fingerprint file holds

`dram_fingerprint` stores `32768` bytes behind the two bytes of the delay
(`Fingerprint.addresses_eq`). The copying loop of the script counts the address word `@3100` as a
position, so position `p` is the byte at `p - 1`: it starts with the right byte, and stops at the
position of the last one. The fingerprint file is one byte short, whatever the flash contains
(`fingerprintFile_incomplete`).
-/

namespace ProbableCause

open Text Overlay

/-- **The fingerprint file is complete**: it has the header, the two bytes of the delay and the
    `32768` bytes of the results, and the final `q`. -/
def ExtractionComplete (mem : ℕ → BitVec 8) (file : Str) : Prop :=
  words file =
    ('@' :: DATA_START) :: (byteTokens mem (int16 DATA_START) (2 + 32768) ++ ["q".toList])

variable {mem : ℕ → BitVec 8} {stop : ℕ} {f : Str}

/-- The words of the fingerprint file. -/
theorem words_fingerprintFile (hstop : int16 DATA_START + 2 + 32768 ≤ stop)
    (hf : words f = dumpWords mem stop) :
    words (fingerprintFile f) =
      ('@' :: DATA_START) :: (byteTokens mem (int16 DATA_START) (2 + 32767) ++ ["q".toList]) := by
  have hlo : int16 MEMORY_START ≤ int16 DATA_START := by decide
  rw [fingerprintFile, hf]
  generalize int16 DATA_START = start at hstop hlo ⊢
  rw [Nat.add_assoc start]
  exact words_copyLoop_from mem (show IsWord ('@' :: DATA_START) by decide) hlo
    (show 1 ≤ 256 * 256 / 2 + 2 by decide) (by omega)

/-- A file with one byte less is not complete. -/
theorem not_complete_of_words {file : Str} (hwords : words file =
      ('@' :: DATA_START) :: (byteTokens mem (int16 DATA_START) (2 + 32767) ++ ["q".toList])) :
    ¬ ExtractionComplete mem file := by
  intro hcomplete
  rw [ExtractionComplete, hwords] at hcomplete
  have hlen := congrArg List.length hcomplete
  rw [List.length_cons, List.length_cons, List.length_append, List.length_append, length_byteTokens,
    length_byteTokens] at hlen
  omega

/-- **The fingerprint file is never complete**: the last byte of the results is missing. -/
theorem fingerprintFile_incomplete (hstop : int16 DATA_START + 2 + 32768 ≤ stop)
    (hf : words f = dumpWords mem stop) :
    words (fingerprintFile f) =
        ('@' :: DATA_START) :: (byteTokens mem (int16 DATA_START) (2 + 32767) ++ ["q".toList]) ∧
      ¬ ExtractionComplete mem (fingerprintFile f) := by
  have hwords := words_fingerprintFile hstop hf
  exact ⟨hwords, not_complete_of_words hwords⟩

/-- At a dump of erased flash. -/
theorem fingerprintFile_incomplete_erased :
    words (fingerprintFile (dumpText (fun _ => 0xFF) SEGMENT_DATA_END)) =
        ('@' :: DATA_START) :: (byteTokens (fun _ => 0xFF) (int16 DATA_START) (2 + 32767) ++
          ["q".toList]) ∧
      ¬ ExtractionComplete (fun _ => 0xFF)
        (fingerprintFile (dumpText (fun _ => 0xFF) SEGMENT_DATA_END)) :=
  fingerprintFile_incomplete (by decide) (words_dumpText _ _)

/-- A dump on which the script fails: that of erased flash. -/
theorem fingerprintFile_erased_short :
    ¬ ExtractionComplete (fun _ => 0xFF)
      (fingerprintFile (dumpText (fun _ => 0xFF) SEGMENT_DATA_END)) :=
  not_complete_of_words (words_fingerprintFile (by decide) (words_dumpText _ _))

end ProbableCause
