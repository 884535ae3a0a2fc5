import ProbableCause.ResultProcessing.TwoFiles

/-!
# `ResultProcessing.Termination` — whether `hd` and `hd_fails_from_1` end

`countOnes` shifts its argument to the right until it is zero. The shift keeps the sign, so a
negative argument is never zero (`countOnesLoop_of_msb`). The arguments are combinations of two
numerals, which may have a sign: the programs run forever on some pairs of files, `hd` if two
numerals of different sign are compared and `hd_fails_from_1` if the second one is negative and the
first one is not (`tools_end_iff`).
-/

namespace ProbableCause

open Text Java

/-! ## `countOnes` -/

/-- A negative number is never shifted to zero. -/
theorem countOnesLoop_of_msb {v : BitVec 32} (hv : v.msb = true) (fuel : ℕ) (oneCount : BitVec 32) :
    countOnesLoop fuel v oneCount = none := by
  induction fuel generalizing v oneCount with
  | zero => rfl
  | succ fuel ih =>
    have hne : v ≠ 0 := by
      rintro rfl
      exact absurd hv (by decide)
    have hshift : (v.sshiftRight 1).msb = true := by rw [BitVec.msb_sshiftRight, hv]
    rw [countOnesLoop, if_neg hne]
    exact ih hshift _

/-! ## The bytes compared -/

/-- The pairs of bytes that a program with the loop over two files comes to: those of the data lines
    before the files disagree. -/
def compared : List Str → List Str → List (Str × Str)
  | line1 :: file1, line2 :: file2 =>
    if ignoreLine line1 || ignoreLine line2 then
      if ignoreLine line2 && ignoreLine line1 then compared file1 file2 else []
    else if (split line1).length ≠ (split line2).length then []
    else (split line1).zip (split line2) ++ compared file1 file2
  | _, _ => []

/-- All data tokens of a file can be read. -/
def Parsable (file : List Str) : Prop :=
  ∀ line ∈ file, ignoreLine line = false → ∀ t ∈ split line, (Java.parseInt 16 t).isSome

instance (file : List Str) : Decidable (Parsable file) :=
  inferInstanceAs (Decidable (∀ line ∈ file, ignoreLine line = false → ∀ t ∈ split line,
    (Java.parseInt 16 t).isSome))

/-- The difference of two bytes is negative. -/
def Negative (byteDiff : BitVec 32 → BitVec 32 → BitVec 32) (p : Str × Str) : Prop :=
  ∃ a b, Java.parseInt 16 p.1 = some a ∧ Java.parseInt 16 p.2 = some b ∧ (byteDiff a b).msb = true

/-- A run that never ends. -/
def Endless {α : Type} (r : EStateM.Result Ending Totals α) : Prop := ∃ s, r = .error .endless s

/-! ## The loops -/

section

variable {byteDiff : BitVec 32 → BitVec 32 → BitVec 32} {ts ts' file1 file2 : List Str}

theorem negative_iff_msb {p : Str × Str} {a b : BitVec 32} (ha : Java.parseInt 16 p.1 = some a)
    (hb : Java.parseInt 16 p.2 = some b) : Negative byteDiff p ↔ (byteDiff a b).msb = true := by
  constructor
  · rintro ⟨a', b', ha', hb', hmsb⟩
    rwa [Option.some.inj (ha.symm.trans ha'), Option.some.inj (hb.symm.trans hb')]
  · exact fun hmsb => ⟨a, b, ha, hb, hmsb⟩

section

variable {t t' : Str} {a b : BitVec 32} (ha : Java.parseInt 16 t = some a)
    (hb : Java.parseInt 16 t' = some b)

include ha hb

/-- On a negative difference the program stays in `countOnes`. -/
theorem countBytes_of_msb (hmsb : (byteDiff a b).msb = true) (ts ts' : List Str) (s : Totals) :
    (countBytes byteDiff (t :: ts) (t' :: ts')).run s = .error .endless s := by
  have hne : byteDiff a b ≠ 0 := by
    intro hzero
    rw [hzero] at hmsb
    exact absurd hmsb (by decide)
  rw [countBytes, EStateM.run_bind, run_parseHex_of_parseInt ha]
  simp only [EStateM.run_bind, run_parseHex_of_parseInt hb, if_pos hne, countOnes,
    countOnesLoop_of_msb hmsb]
  rfl

/-- Any other difference is counted, if there is one. -/
theorem countBytes_of_not_msb (hmsb : ¬ (byteDiff a b).msb = true) (ts ts' : List Str) (s : Totals) :
    ∃ s', (countBytes byteDiff (t :: ts) (t' :: ts')).run s =
      (countBytes byteDiff ts ts').run s' := by
  rw [countBytes, EStateM.run_bind, run_parseHex_of_parseInt ha]
  simp only [EStateM.run_bind, run_parseHex_of_parseInt hb]
  by_cases hne : byteDiff a b ≠ 0
  · have hlow : (byteDiff a b).toNat < 2 ^ 31 :=
      BitVec.toNat_lt_of_msb_false (Bool.eq_false_iff.mpr hmsb)
    rw [if_pos hne, countOnes, countOnesLoop_eq (show 31 < 33 by decide) (by decide) hlow]
    exact ⟨_, rfl⟩
  · rw [if_neg hne]
    exact ⟨s, rfl⟩

end

/-- The bytes of two lines are counted, unless one of the differences is negative. -/
theorem countBytes_cases (h1 : ∀ t ∈ ts, (Java.parseInt 16 t).isSome)
    (h2 : ∀ t ∈ ts', (Java.parseInt 16 t).isSome) (s : Totals) :
    (∃ s', (countBytes byteDiff ts ts').run s = .ok () s') ∧
      (∀ p ∈ ts.zip ts', ¬ Negative byteDiff p) ∨ Endless ((countBytes byteDiff ts ts').run s) ∧
        ∃ p ∈ ts.zip ts', Negative byteDiff p := by
  induction ts generalizing ts' s with
  | nil => exact .inl ⟨⟨s, rfl⟩, fun p hp => absurd hp List.not_mem_nil⟩
  | cons t ts ih =>
    cases ts' with
    | nil => exact .inl ⟨⟨s, rfl⟩, fun p hp => absurd hp List.not_mem_nil⟩
    | cons t' ts' =>
      obtain ⟨ht, hts⟩ := List.forall_mem_cons.mp h1
      obtain ⟨ht', hts'⟩ := List.forall_mem_cons.mp h2
      obtain ⟨a, ha⟩ := Option.isSome_iff_exists.mp ht
      obtain ⟨b, hb⟩ := Option.isSome_iff_exists.mp ht'
      have hnegative : Negative byteDiff (t, t') ↔ (byteDiff a b).msb = true := negative_iff_msb ha hb
      by_cases hmsb : (byteDiff a b).msb = true
      · exact .inr ⟨⟨s, countBytes_of_msb ha hb hmsb ts ts' s⟩, (t, t'), List.mem_cons_self,
          hnegative.mpr hmsb⟩
      · obtain ⟨s', hs'⟩ := countBytes_of_not_msb ha hb hmsb ts ts' s
        rw [hs', List.zip_cons_cons, List.forall_mem_cons, List.exists_mem_cons_iff]
        obtain ⟨hrun, hnone⟩ | ⟨hrun, hsome⟩ := ih hts hts' s'
        · exact .inl ⟨hrun, fun h => hmsb (hnegative.mp h), hnone⟩
        · exact .inr ⟨hrun, .inr hsome⟩

/-- **The loop over two files** never ends if and only if it comes to a negative difference. -/
theorem endless_loop_iff (h1 : Parsable file1) (h2 : Parsable file2) (s : Totals) :
    Endless (((counting byteDiff).loop file1 file2).run s) ↔
      ∃ p ∈ compared file1 file2, Negative byteDiff p := by
  have hnone : ∀ r : EStateM.Result Ending Totals Unit, (∀ s', r ≠ .error .endless s') →
      (Endless r ↔ ∃ p ∈ ([] : List (Str × Str)), Negative byteDiff p) := by
    intro r hr
    constructor
    · rintro ⟨s', hs'⟩
      exact absurd hs' (hr s')
    · rintro ⟨p, hp, -⟩
      exact absurd hp List.not_mem_nil
  induction file1 generalizing file2 s with
  | nil => cases file2 <;> exact hnone _ fun s' h => by cases h
  | cons line1 file1 ih =>
    cases file2 with
    | nil => exact hnone _ fun s' h => by cases h
    | cons line2 file2 =>
      obtain ⟨hline1, hfile1⟩ := List.forall_mem_cons.mp h1
      obtain ⟨hline2, hfile2⟩ := List.forall_mem_cons.mp h2
      rw [TwoFiles.loop, compared]
      cases hi1 : ignoreLine line1 with
      | true =>
        cases hi2 : ignoreLine line2 with
        | true => exact ih hfile1 hfile2 s
        | false => exact hnone _ fun s' h => by cases h
      | false =>
        cases hi2 : ignoreLine line2 with
        | true => exact hnone _ fun s' h => by cases h
        | false =>
          simp only [Bool.or_false, Bool.false_eq_true, if_false]
          by_cases hlength : (split line1).length ≠ (split line2).length
          · rw [if_pos hlength, if_pos hlength]
            exact hnone _ fun s' h => by cases h
          · rw [if_neg hlength, if_neg hlength]
            obtain ⟨⟨s', hrun⟩, hbytes⟩ | ⟨⟨s', hrun⟩, p, hp, hneg⟩ := @countBytes_cases byteDiff _ _
              (hline1 hi1) (hline2 hi2)
              { s with totalBytes := s.totalBytes + BitVec.ofNat 32 (split line1).length }
            · -- the next lines
              have hdata : ((counting byteDiff).data (split line1) (split line2)).run s =
                .ok () s' := hrun
              rw [EStateM.run_bind, hdata]
              refine (ih hfile1 hfile2 s').trans ?_
              constructor
              · rintro ⟨p, hp, hneg⟩
                exact ⟨p, List.mem_append_right _ hp, hneg⟩
              · rintro ⟨p, hp, hneg⟩
                rcases List.mem_append.mp hp with hp | hp
                · exact absurd hneg (hbytes p hp)
                · exact ⟨p, hp, hneg⟩
            · have hdata : ((counting byteDiff).data (split line1) (split line2)).run s =
                .error .endless s' := hrun
              rw [EStateM.run_bind, hdata]
              exact ⟨fun _ => ⟨p, List.mem_append_left _ hp, hneg⟩, fun _ => ⟨s', rfl⟩⟩

/-- The bytes compared are tokens of data lines. -/
theorem isSome_of_mem_compared (h1 : Parsable file1) (h2 : Parsable file2) {p : Str × Str}
    (hp : p ∈ compared file1 file2) :
      (Java.parseInt 16 p.1).isSome ∧ (Java.parseInt 16 p.2).isSome := by
  induction file1 generalizing file2 with
  | nil => cases file2 <;> exact absurd hp List.not_mem_nil
  | cons line1 file1 ih =>
    cases file2 with
    | nil => exact absurd hp List.not_mem_nil
    | cons line2 file2 =>
      obtain ⟨hline1, hfile1⟩ := List.forall_mem_cons.mp h1
      obtain ⟨hline2, hfile2⟩ := List.forall_mem_cons.mp h2
      rw [compared] at hp
      split at hp
      · split at hp
        · exact ih hfile1 hfile2 hp
        · exact absurd hp List.not_mem_nil
      · rename_i hdata
        rw [Bool.not_eq_true, Bool.or_eq_false_iff] at hdata
        split at hp
        · exact absurd hp List.not_mem_nil
        · rcases List.mem_append.mp hp with hp | hp
          · obtain ⟨hp1, hp2⟩ := List.of_mem_zip hp
            exact ⟨hline1 hdata.1 _ hp1, hline2 hdata.2 _ hp2⟩
          · exact ih hfile1 hfile2 hp

end

/-! ## The programs -/

/-- A numeral with the value of a negative `int`. -/
def isNegative (t : Str) : Bool := (Java.parseInt 16 t).any BitVec.msb

/-- A negative difference, for each of the two programs. -/
theorem negative_iff {p : Str × Str} (h1 : (Java.parseInt 16 p.1).isSome)
    (h2 : (Java.parseInt 16 p.2).isSome) :
    (Negative HD.byteDiff p ↔ isNegative p.1 ≠ isNegative p.2) ∧
      (Negative HDFailsFrom1.byteDiff p ↔ isNegative p.1 = false ∧ isNegative p.2 = true) := by
  obtain ⟨a, ha⟩ := Option.isSome_iff_exists.mp h1
  obtain ⟨b, hb⟩ := Option.isSome_iff_exists.mp h2
  have hfirst : isNegative p.1 = a.msb := by rw [isNegative, ha, Option.any_some]
  have hsecond : isNegative p.2 = b.msb := by rw [isNegative, hb, Option.any_some]
  rw [negative_iff_msb ha hb, negative_iff_msb ha hb, hfirst, hsecond, HD.byteDiff,
    HDFailsFrom1.byteDiff, BitVec.msb_xor, BitVec.msb_and, BitVec.msb_not]
  cases a.msb <;> cases b.msb <;> decide

/-- The runs of `java hd file1 file2` and of `java hd_fails_from_1 file1 file2 failsIn1`. -/
def runHd (text1 text2 : Str) : EStateM.Result Ending Totals Unit :=
  (HD.main (twoFiles text1 text2) "file1".toList "file2".toList).run Totals.start

def runHdFailsFrom1 (text1 text2 failsIn1 : Str) : EStateM.Result Ending Totals (BitVec 32) :=
  (HDFailsFrom1.main (twoFiles text1 text2) "file1".toList "file2".toList failsIn1).run Totals.start

variable {text1 text2 : Str}

theorem not_endless_ok {α : Type} (a : α) (s : Totals) : ¬ Endless (.ok a s) := by
  rintro ⟨s', h⟩
  cases h

/-- What comes after the loop ends. -/
theorem endless_bind {α β : Type} {x : EStateM Ending Totals α} {f : α → EStateM Ending Totals β}
    (hf : ∀ a s, ¬ Endless ((f a).run s)) (s : Totals) :
      Endless ((x >>= f).run s) ↔ Endless (x.run s) := by
  rw [EStateM.run_bind]
  cases hx : x.run s with
  | ok a s' => exact ⟨fun h => absurd h (hf a s'), fun h => absurd h (not_endless_ok a s')⟩
  | error e s' =>
    constructor
    · rintro ⟨s'', h⟩
      cases h
      exact ⟨s', rfl⟩
    · rintro ⟨s'', h⟩
      cases h
      exact ⟨s', rfl⟩

theorem endless_runHd_iff (text1 text2 : Str) :
    Endless (runHd text1 text2) ↔
      Endless (((counting HD.byteDiff).loop (lines text1) (lines text2)).run Totals.start) := by
  rw [runHd, HD.main, TwoFiles.run, openFileRead, openFileRead, twoFiles_file1, twoFiles_file2]
  simp only [pure_bind]
  refine endless_bind (fun _ s => ?_) _
  exact not_endless_ok () _

theorem endless_runHdFailsFrom1_iff (text1 text2 failsIn1 : Str) :
    Endless (runHdFailsFrom1 text1 text2 failsIn1) ↔ (Java.parseInt 10 failsIn1).isSome ∧
      Endless (((counting HDFailsFrom1.byteDiff).loop (lines text1)
        (lines text2)).run Totals.start) := by
  rw [runHdFailsFrom1, HDFailsFrom1.main, openFileRead, openFileRead, twoFiles_file1, twoFiles_file2]
  simp only [pure_bind]
  cases Java.parseInt 10 failsIn1 with
  | none =>
    constructor
    · rintro ⟨s', h⟩
      cases h
    · exact fun h => absurd h.1 Bool.false_ne_true
  | some failsInFP =>
    refine (endless_bind (fun _ s => ?_) _).trans ?_
    · exact not_endless_ok failsInFP _
    · exact ⟨fun h => ⟨rfl, h⟩, fun h => h.2⟩

/-- **When the two tools end**, on two files of which all data tokens are numerals: both of them
    exactly if no two numerals of different sign are compared, and `hd_fails_from_1` exactly if no
    negative numeral is compared with one that is not negative in the first file. -/
theorem tools_end_iff (h1 : Parsable (lines text1)) (h2 : Parsable (lines text2)) (failsIn1 : Str) :
    (¬ Endless (runHd text1 text2) ∧ ¬ Endless (runHdFailsFrom1 text1 text2 failsIn1) ↔
        ∀ p ∈ compared (lines text1) (lines text2), isNegative p.1 = isNegative p.2) ∧
      (¬ Endless (runHdFailsFrom1 text1 text2 failsIn1) ↔ Java.parseInt 10 failsIn1 = none ∨
        ∀ p ∈ compared (lines text1) (lines text2),
          ¬ (isNegative p.1 = false ∧ isNegative p.2 = true)) := by
  have hparse := fun p (hp : p ∈ compared (lines text1) (lines text2)) =>
    isSome_of_mem_compared h1 h2 hp
  have hhd : Endless (runHd text1 text2) ↔
      ∃ p ∈ compared (lines text1) (lines text2), isNegative p.1 ≠ isNegative p.2 := by
    rw [endless_runHd_iff, endless_loop_iff h1 h2]
    exact exists_congr fun p => and_congr_right fun hp =>
      (negative_iff (hparse p hp).1 (hparse p hp).2).1
  have hfails : Endless (runHdFailsFrom1 text1 text2 failsIn1) ↔ (Java.parseInt 10 failsIn1).isSome ∧
      ∃ p ∈ compared (lines text1) (lines text2), isNegative p.1 = false ∧ isNegative p.2 = true := by
    rw [endless_runHdFailsFrom1_iff, endless_loop_iff h1 h2]
    exact and_congr_right fun _ => exists_congr fun p =>
      and_congr_right fun hp => (negative_iff (hparse p hp).1 (hparse p hp).2).2
  constructor
  · constructor
    · rintro ⟨hend, -⟩ p hp
      by_contra hne
      exact hend (hhd.mpr ⟨p, hp, hne⟩)
    · intro hsame
      refine ⟨fun hend => ?_, fun hend => ?_⟩
      · obtain ⟨p, hp, hne⟩ := hhd.mp hend
        exact hne (hsame p hp)
      · obtain ⟨-, p, hp, hfirst, hsecond⟩ := hfails.mp hend
        rw [hsame p hp, hsecond] at hfirst
        contradiction
  · rw [hfails, not_and_or, Option.not_isSome_iff_eq_none]
    exact or_congr_right ⟨fun h p hp hneg => h ⟨p, hp, hneg⟩, fun h ⟨p, hp, hneg⟩ => h p hp hneg⟩

/-- At two files with one line each. -/
theorem tools_end_iff_two_bytes :
    (¬ Endless (runHd "00 1F\n".toList "0F 10\n".toList) ∧
        ¬ Endless (runHdFailsFrom1 "00 1F\n".toList "0F 10\n".toList "1".toList) ↔
          ∀ p ∈ compared (lines "00 1F\n".toList) (lines "0F 10\n".toList),
            isNegative p.1 = isNegative p.2) ∧
      (¬ Endless (runHdFailsFrom1 "00 1F\n".toList "0F 10\n".toList "1".toList) ↔
        Java.parseInt 10 "1".toList = none ∨
          ∀ p ∈ compared (lines "00 1F\n".toList) (lines "0F 10\n".toList),
            ¬ (isNegative p.1 = false ∧ isNegative p.2 = true)) :=
  tools_end_iff (by decide) (by decide) _

/-- **A negative numeral in the second file**: neither of the two tools ends. -/
theorem tools_endless :
    (Parsable (lines "00 00\n".toList) ∧ Parsable (lines "-1 00\n".toList)) ∧
    Endless (runHd "00 00\n".toList "-1 00\n".toList) ∧
      Endless (runHdFailsFrom1 "00 00\n".toList "-1 00\n".toList "1".toList) := by
  have h1 : Parsable (lines "00 00\n".toList) := by decide
  have h2 : Parsable (lines "-1 00\n".toList) := by decide
  have hmem : ("00".toList, "-1".toList) ∈ compared (lines "00 00\n".toList)
    (lines "-1 00\n".toList) := by decide
  rw [endless_runHd_iff, endless_runHdFailsFrom1_iff, endless_loop_iff h1 h2, endless_loop_iff h1 h2]
  exact ⟨⟨h1, h2⟩, ⟨_, hmem, 0, -1, by decide, by decide, by decide⟩, by decide, _, hmem, 0, -1,
    by decide, by decide, by decide⟩

end ProbableCause
