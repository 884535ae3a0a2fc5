import Mathlib.Data.List.Perm.Basic
import ProbableCause.Fpga.ProcessResults

/-!
# `Fpga.CorruptedLog` — the log processor on lines of any kind

A line of the log can be anything. `ProcessFPGAResults` keeps the failure lines: those of the right
length, prefix and suffix whose address can be read. `Accepted` is what the reading loop keeps: the
keys of the map are the failure lines, and every value is a number, once a time comes before the
first of them.

The range check is made before the half is added. The last word of the region takes the two last
places of the array, but an address two or three bytes behind its start is let through as well, and
with half `1` it is one place too far. On all other logs the matrix is printed
(`prints_matrix_iff`).
-/

namespace ProbableCause.Fpga.ProcessFPGAResults

open Text

/-! ## The lines of a log -/

/-- A line with a time. -/
def isTime (line : Str) : Bool := Java.endsWith line ".000".toList && line.contains ':'

/-- The numbers of a line with a time can be read. -/
def WellFormedTime (line : Str) : Prop :=
  (((Java.substring line 0 (Java.indexOf line ':')).bind (Java.parseInt 10)).isSome ∧
    ((Java.substring line (Java.indexOf line ':' + 1) (Java.indexOf line '.')).bind
      (Java.parseInt 10)).isSome)

instance (line : Str) : Decidable (WellFormedTime line) := instDecidableAnd

/-- The address on a line. -/
def address? (line : Str) : Option (BitVec 64) :=
  (Java.substring line 2 (Java.indexOf line ' ')).bind (Java.parseLong 16)

/-- The form of a line with an address. -/
def isResult (line : Str) : Bool :=
  Java.length line = 12 && Java.startsWith line "0x0".toList &&
    (Java.endsWith line " 0".toList || Java.endsWith line " 1".toList)

/-- A failure line: one that is kept. -/
def isFailure (line : Str) : Bool := !isTime line && (isResult line && (address? line).isSome)

/-- The second half of one of the two last addresses of the region. -/
def BeyondEnd (line : Str) : Prop :=
  (address? line = some 0x7FFFE ∨ address? line = some 0x7FFFF) ∧
    Java.endsWith line "0".toList = false

instance (line : Str) : Decidable (BeyondEnd line) := instDecidableAnd

/-! ## Reading -/

variable {r : Reading} {line : Str} {seen : List Str}

theorem readLine_time (htime : isTime line = true) (hwell : WellFormedTime line) :
    ∃ n : BitVec 32, readLine r line = some { r with currentTime := some (Java.ofInt n.toInt) } := by
  obtain ⟨minutes, hminutes⟩ := Option.isSome_iff_exists.mp hwell.1
  obtain ⟨seconds, hseconds⟩ := Option.isSome_iff_exists.mp hwell.2
  have hne : line.length ≠ 0 := by
    rintro h
    rw [List.length_eq_zero_iff.mp h] at htime
    contradiction
  rw [isTime] at htime
  refine ⟨minutes * 60 + seconds, ?_⟩
  rw [readLine, if_neg hne, if_pos htime, hminutes, hseconds]
  rfl

theorem readLine_failure (h : isFailure line = true) :
    readLine r line = some (if r.containsKey line then r
      else { r with resultsMap := r.resultsMap ++ [(line, r.currentTime)] }) := by
  rw [isFailure, Bool.and_eq_true, Bool.and_eq_true, Bool.not_eq_true'] at h
  obtain ⟨htime, hresult, haddress⟩ := h
  obtain ⟨v, hv⟩ := Option.isSome_iff_exists.mp haddress
  rw [address?] at hv
  have hne : line.length ≠ 0 := by
    rintro h
    rw [List.length_eq_zero_iff.mp h] at hresult
    contradiction
  rw [isTime] at htime
  rw [isResult] at hresult
  rw [readLine, if_neg hne, htime, if_neg Bool.false_ne_true, if_pos hresult, hv]
  split <;> rfl

/-- Any other line leaves the variables alone; the exception of one that only looks like a failure
is caught. -/
theorem readLine_neither (htime : isTime line = false) (h : isFailure line = false) :
    readLine r line = some r := by
  rw [isFailure, htime, Bool.not_false, Bool.true_and] at h
  rw [isTime] at htime
  rw [readLine, htime, if_neg Bool.false_ne_true]
  by_cases hresult : isResult line = true
  · rw [hresult, Bool.true_and, Option.isSome_eq_false_iff, Option.isNone_iff_eq_none, address?] at h
    rw [isResult] at hresult
    rw [if_pos hresult, h]
    split
    · rfl
    · split <;> rfl
  · rw [isResult] at hresult
    rw [if_neg hresult]
    split <;> rfl

/-- What has been read after the lines `seen`: the failure lines are the keys, with numbers as
values. -/
structure Accepted (seen : List Str) (r : Reading) : Prop where
  time : (∃ t ∈ seen, isTime t = true) → ∃ n : BitVec 32, r.currentTime = some (Java.ofInt n.toInt)
  keys : ∀ line, (∃ value, (line, value) ∈ r.resultsMap) ↔ line ∈ seen ∧ isFailure line = true
  values : ∀ e ∈ r.resultsMap, ∃ n : BitVec 32, e.2 = some (Java.ofInt n.toInt)

theorem accepted_start : Accepted [] ⟨none, []⟩ :=
  ⟨fun ⟨_, h, _⟩ => absurd h List.not_mem_nil, fun _ => by simp, fun _ h => absurd h List.not_mem_nil⟩

theorem containsKey_iff_exists :
    r.containsKey line = true ↔ ∃ value, (line, value) ∈ r.resultsMap := by
  rw [Reading.containsKey, List.any_eq_true]
  constructor
  · rintro ⟨⟨key, value⟩, hmem, hkey⟩
    obtain rfl : key = line := by simpa using hkey
    exact ⟨value, hmem⟩
  · rintro ⟨value, hmem⟩
    exact ⟨_, hmem, beq_self_eq_true _⟩

/-- A line that is no failure line, or is not new, adds no key. -/
theorem mem_concat_iff {seen : List Str} {line key : Str}
    (hline : isFailure line = true → line ∈ seen) :
    key ∈ seen ++ [line] ∧ isFailure key = true ↔ key ∈ seen ∧ isFailure key = true := by
  rw [List.mem_append, List.mem_singleton]
  constructor
  · rintro ⟨hmem | rfl, hf⟩
    · exact ⟨hmem, hf⟩
    · exact ⟨hline hf, hf⟩
  · exact fun ⟨hmem, hf⟩ => ⟨.inl hmem, hf⟩

/-- **One line.** -/
theorem Accepted.readLine (h : Accepted seen r) (hwell : isTime line = true → WellFormedTime line)
    (hbefore : isFailure line = true → ∃ t ∈ seen, isTime t = true) :
    ∃ r', readLine r line = some r' ∧ Accepted (seen ++ [line]) r' := by
  by_cases htime : isTime line = true
  · obtain ⟨n, hn⟩ := readLine_time (r := r) htime (hwell htime)
    have hkey : isFailure line = false := by rw [isFailure, htime, Bool.not_true, Bool.false_and]
    refine ⟨_, hn, fun _ => ⟨n, rfl⟩, fun key => ?_, h.values⟩
    rw [h.keys, mem_concat_iff fun hf => absurd (hkey.symm.trans hf) Bool.false_ne_true]
  · have htime : isTime line = false := Bool.eq_false_iff.mpr htime
    have hcurrent : (∃ t ∈ seen ++ [line], isTime t = true) →
        ∃ n : BitVec 32, r.currentTime = some (Java.ofInt n.toInt) := by
      rintro ⟨t, ht, hist⟩
      rcases List.mem_append.mp ht with ht | ht
      · exact h.time ⟨t, ht, hist⟩
      · rw [List.mem_singleton.mp ht, htime] at hist
        contradiction
    by_cases hfailure : isFailure line = true
    · have hread := readLine_failure (r := r) hfailure
      by_cases hkey : r.containsKey line = true
      · -- the line has been seen before
        rw [if_pos hkey] at hread
        obtain ⟨hold, -⟩ := (h.keys line).mp (containsKey_iff_exists.mp hkey)
        refine ⟨r, hread, hcurrent, fun key => ?_, h.values⟩
        rw [h.keys, mem_concat_iff fun _ => hold]
      · rw [if_neg hkey] at hread
        obtain ⟨n, hn⟩ := h.time (hbefore hfailure)
        refine ⟨_, hread, hcurrent, fun key => ?_, fun e he => ?_⟩
        · simp only [List.mem_append, List.mem_singleton, Prod.mk.injEq, exists_or, h.keys]
          constructor
          · rintro (⟨hmem, hf⟩ | ⟨_, rfl, _⟩)
            · exact ⟨.inl hmem, hf⟩
            · exact ⟨.inr rfl, hfailure⟩
          · rintro ⟨hmem | rfl, hf⟩
            · exact .inl ⟨hmem, hf⟩
            · exact .inr ⟨_, rfl, rfl⟩
        · rcases List.mem_append.mp he with he | he
          · exact h.values e he
          · rw [List.mem_singleton.mp he]
            exact ⟨n, hn⟩
    · have hfailure : isFailure line = false := Bool.eq_false_iff.mpr hfailure
      refine ⟨r, readLine_neither htime hfailure, hcurrent, fun key => ?_, h.values⟩
      rw [h.keys, mem_concat_iff fun hf => absurd (hfailure.symm.trans hf) Bool.false_ne_true]

/-- **All lines.** -/
theorem Accepted.foldlM {lines : List Str} (h : Accepted seen r)
    (hwell : ∀ line ∈ lines, isTime line = true → WellFormedTime line)
    (hbefore : ∀ before line after, lines = before ++ line :: after → isFailure line = true →
      ∃ t ∈ seen ++ before, isTime t = true) :
    ∃ r', lines.foldlM ProcessFPGAResults.readLine r = some r' ∧ Accepted (seen ++ lines) r' := by
  induction lines generalizing r seen with
  | nil => exact ⟨r, rfl, by rwa [List.append_nil]⟩
  | cons line lines ih =>
    have hfirst := hbefore [] line lines rfl
    rw [List.append_nil] at hfirst
    obtain ⟨r', hr', haccepted⟩ := h.readLine (hwell line List.mem_cons_self) hfirst
    obtain ⟨r'', hr'', hall⟩ := ih haccepted (fun l hl => hwell l (List.mem_cons_of_mem _ hl))
      fun before l after heq hf => by
        rw [List.append_assoc]
        exact hbefore (line :: before) l after (by rw [heq]; rfl) hf
    refine ⟨r'', ?_, ?_⟩
    · rw [List.foldlM_cons, hr']
      exact hr''
    · rwa [List.append_assoc] at hall

/-! ## Saving -/

/-- Halving the offset of an address. -/
theorem toInt_offset (v : BitVec 64) : ((v - min).sshiftRight 1).toInt = (v - min).toInt / 2 := by
  rw [BitVec.toInt_sshiftRight, Int.shiftRight_eq_div_pow]
  rfl

/-- The addresses that are let through with the offset of the last place. -/
theorem offset_last_iff (v : BitVec 64) :
    ((v - min).sshiftRight 1).toInt = 0x1FFFF ↔ v = 0x7FFFE ∨ v = 0x7FFFF := by
  have hval : ∀ k : BitVec 64, (v - min).toInt = k.toInt ↔ v = k + min := by
    intro k
    rw [BitVec.toInt_inj, BitVec.sub_eq_iff_eq_add]
  have heven := hval 0x3FFFE
  have hodd := hval 0x3FFFF
  rw [show (0x3FFFE : BitVec 64) + min = 0x7FFFE by decide,
    show (0x3FFFE : BitVec 64).toInt = 0x3FFFE by decide] at heven
  rw [show (0x3FFFF : BitVec 64) + min = 0x7FFFF by decide,
    show (0x3FFFF : BitVec 64).toInt = 0x3FFFF by decide] at hodd
  rw [toInt_offset, ← heven, ← hodd]
  omega

/-- **One entry**: only the index beyond the end is an exception. -/
theorem save_isSome_iff (s : Results) {e : Str × Option Str} {v : BitVec 64}
    (haddress : address? e.1 = some v) {n : BitVec 32} (hvalue : e.2 = some (Java.ofInt n.toInt)) :
      (save s e).isSome = true ↔ ¬ BeyondEnd e.1 := by
  have hlast := offset_last_iff v
  have hbeyond : BeyondEnd e.1 ↔
      ((v - min).sshiftRight 1).toInt = 0x1FFFF ∧ Java.endsWith e.1 "0".toList = false := by
    rw [BeyondEnd, haddress, hlast, Option.some.injEq, Option.some.injEq]
  have hresult : e.2.bind (Java.parseInt 10) = some n := by
    rw [hvalue, Option.bind_some, Java.parseInt_ofInt]
  rw [address?] at haddress
  rw [hbeyond, save, haddress, hresult, numResultsMax_eq.1, numResultsMax_eq.2]
  dsimp only [Option.bind_eq_bind, Option.bind_some]
  generalize (v - min).sshiftRight 1 = current
  split
  · -- out of the range: the entry is skipped
    rename_i hout
    simp only [Option.isSome_some, true_iff]
    omega
  · rename_i hin
    have hnat : (current.toNat : ℤ) = current.toInt := by
      rw [BitVec.toInt_eq_toNat_cond] at hin ⊢
      split at hin <;> omega
    cases hhalf : Java.endsWith e.1 "0".toList with
    | true =>
      have hindex : current + 0 = current := BitVec.add_zero current
      rw [if_pos rfl, hindex, if_pos (by omega)]
      simp
    | false =>
      have hindex : (current + 1).toNat = current.toNat + 1 := by
        have hone : (1 : BitVec 64).toNat = 1 := rfl
        rw [BitVec.toNat_add, hone]
        omega
      rw [if_neg Bool.false_ne_true, hindex]
      split <;> simp <;> omega

/-- **All entries.** -/
theorem saveAll_isSome_iff {entries : List (Str × Option Str)}
    (h : ∀ e ∈ entries, isFailure e.1 = true ∧ ∃ n : BitVec 32, e.2 = some (Java.ofInt n.toInt)) :
    (saveAll entries).isSome = true ↔ ∀ e ∈ entries, ¬ BeyondEnd e.1 := by
  rw [saveAll]
  generalize (⟨fun _ => 0, 0⟩ : Results) = s
  induction entries generalizing s with
  | nil => simp
  | cons e entries ih =>
    obtain ⟨hfailure, n, hn⟩ := h e List.mem_cons_self
    rw [isFailure, Bool.and_eq_true, Bool.and_eq_true] at hfailure
    obtain ⟨v, hv⟩ := Option.isSome_iff_exists.mp hfailure.2.2
    have hsave := save_isSome_iff s hv hn
    have hrest := fun s => ih (fun e' he' => h e' (List.mem_cons_of_mem _ he')) s
    rw [List.foldlM_cons, List.forall_mem_cons, ← hsave]
    cases hs : save s e with
    | none => simp
    | some s' => simpa using hrest s'

/-! ## The whole log -/

/-- **The matrix is printed unless a line is beyond the end.** The lines with a time can be read,
    and one of them comes before the first failure line; otherwise the lines are of any kind, and
    the map gives its entries in any order. -/
theorem prints_matrix_iff {order : List (Str × Option Str) → List (Str × Option Str)}
    (horder : ∀ entries, (order entries).Perm entries) {text : Str}
    (hwell : ∀ line ∈ Java.lines text, isTime line = true → WellFormedTime line)
    (hfirst : ∀ before line after, Java.lines text = before ++ line :: after → isFailure line = true →
      ∃ t ∈ before, isTime t = true) :
    (main order text).isSome = true ↔ ∀ line ∈ Java.lines text,
      isFailure line = true → ¬ BeyondEnd line := by
  obtain ⟨r, hr, haccepted⟩ := accepted_start.foldlM hwell hfirst
  rw [List.nil_append] at haccepted
  have hentries : ∀ e ∈ order r.resultsMap,
      isFailure e.1 = true ∧ ∃ n : BitVec 32, e.2 = some (Java.ofInt n.toInt) := by
    intro e he
    have hmem := (horder _).mem_iff.mp he
    exact ⟨((haccepted.keys e.1).mp ⟨e.2, hmem⟩).2, haccepted.values e hmem⟩
  have hmain : (main order text).isSome = (saveAll (order r.resultsMap)).isSome := by
    rw [main, readAll, hr, Option.bind_eq_bind, Option.bind_some]
    cases saveAll (order r.resultsMap) with
    | none => rfl
    | some s => rw [Option.bind_eq_bind, Option.bind_some, Option.isSome_some, Option.isSome_some]
  rw [hmain, saveAll_isSome_iff hentries]
  constructor
  · intro h line hline hfailure
    obtain ⟨value, hvalue⟩ := (haccepted.keys line).mpr ⟨hline, hfailure⟩
    exact h _ ((horder _).mem_iff.mpr hvalue)
  · intro h e he
    obtain ⟨hline, hfailure⟩ := (haccepted.keys e.1).mp ⟨e.2, (horder _).mem_iff.mp he⟩
    exact h e.1 hline hfailure

/-- A log with a failure in the last word of the region and a corrupted line. -/
theorem prints_matrix_iff_last :
    (main id "0:05.000\n0x0007FFFC 1\n0x0007F?FE 1\n".toList).isSome = true ↔
      ∀ line ∈ Java.lines "0:05.000\n0x0007FFFC 1\n0x0007F?FE 1\n".toList, isFailure line = true →
        ¬ BeyondEnd line :=
  prints_matrix_iff (fun _ => .refl _) (by decide) fun before line after heq hfailure => by
    have hlines : Java.lines "0:05.000\n0x0007FFFC 1\n0x0007F?FE 1\n".toList =
        ["0:05.000".toList, "0x0007FFFC 1".toList, "0x0007F?FE 1".toList] := by decide
    rw [hlines] at heq
    cases before with
    | nil =>
      obtain ⟨rfl, -⟩ := List.cons.inj heq
      exact absurd hfailure (by decide)
    | cons t before =>
      obtain ⟨rfl, -⟩ := List.cons.inj heq
      exact ⟨_, List.mem_cons_self, by decide⟩

/-- **An address of the region that is not aligned** is an index out of bounds. -/
theorem main_unaligned : main id "0:05.000\n0x0007FFFE 1\n".toList = none := by
  have hread : readAll "0:05.000\n0x0007FFFE 1\n".toList =
      some ⟨some "5".toList, [("0x0007FFFE 1".toList, some "5".toList)]⟩ := rfl
  have hsave : ¬ (saveAll [("0x0007FFFE 1".toList, some "5".toList)]).isSome = true := by
    rw [saveAll_isSome_iff fun e he => by
      rw [List.mem_singleton.mp he]
      exact ⟨by decide, 5, rfl⟩]
    exact fun h => h _ List.mem_cons_self (by decide)
  rw [main, hread, Option.bind_eq_bind, Option.bind_some, id, Option.not_isSome_iff_eq_none.mp hsave]
  rfl

end ProbableCause.Fpga.ProcessFPGAResults
