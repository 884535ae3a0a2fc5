import ProbableCause.Fpga.Hello
import ProbableCause.Fpga.ProcessResults
import Mathlib.Data.List.Perm.Basic

/-!
# `Fpga.EndToEnd` — from the memory to the matrix

`hello.c` prints a log and `ProcessFPGAResults` reads it. What comes out is the matrix of the times
after which the half-words differed for the first time (`expected`).

The log is read check by check: `Read` says what the map contains then, and `foldlM_checkLines` what
the lines of one check add to it; `foldlM_linesFrom` is the run. The second program has times of 32
bits. `main_printed` says what it prints for any run whose recorded times fit, and
`main_prints_expected` that this is what is expected as long as the time given to the half-words
that never differ fits, too.
-/

namespace ProbableCause.Fpga

open Text Hello ProcessFPGAResults

/-! ## What is expected -/

/-- The waiting time of check `k`, in seconds. -/
def waitingTime (k : ℕ) : ℕ := (START_TIME.toNat + k * TIME_INCREMENT.toNat) / CLOCK_FREQ.toNat

/-- The waiting time of the first check at which half-word `h` differs. -/
def firstTime (before : Mem) (mems : List Mem) (h : ℕ) : Option ℕ :=
  (mems.findIdx? fun mem => differs before mem h).map waitingTime

/-- The times that are recorded. -/
def recorded (before : Mem) (mems : List Mem) : List ℕ :=
  (testedHalfWords 65536).filterMap (firstTime before mems)

/-- The times of the half-words that are tested; five more than the largest for one that never
differs. -/
def expected (before : Mem) (mems : List Mem) : List ℕ :=
  (testedHalfWords 65536).map fun h => (firstTime before mems h).getD
    (largest (recorded before mems) + 5)

/-- `out` is a matrix of these entries, with `512` of them on a line. -/
def IsMatrix (entries : List ℤ) (out : Str) : Prop :=
  ∃ rows : List (List ℤ), rows.flatten = entries ∧ (∀ row ∈ rows, row.length = 512) ∧
    out = Java.unlines (rows.map fun row => Java.unwords (row.map Java.ofInt))

theorem waitingTime_eq (k : ℕ) : waitingTime k = 5 * (k + 1) := by
  have hstart : START_TIME.toNat = 50000000 * 5 := by decide
  have hincrement : TIME_INCREMENT.toNat = 50000000 * 5 := by decide
  have hfreq : CLOCK_FREQ.toNat = 50000000 := by decide
  rw [waitingTime, hstart, hincrement, hfreq]
  omega

/-! ## The lines with a time -/

variable {milliseconds : ℕ → ℕ} {r : Reading}

/-- Minutes and seconds as the second program puts them together. -/
theorem seconds_eq (seconds : ℕ) :
    BitVec.ofNat 32 (seconds / 60) * 60 + BitVec.ofNat 32 (seconds % 60) =
      BitVec.ofNat 32 seconds := by
  have hsixty : (60 : BitVec 32) = BitVec.ofNat 32 60 := rfl
  rw [hsixty, ← BitVec.ofNat_mul, ← BitVec.ofNat_add, Nat.div_add_mod']

/-- Three digits are all zero only for zero. -/
theorem leftpad_digits_eq {n : ℕ} (h : (digits n).leftpad 3 '0' = "000".toList) : n = 0 := by
  have hread := Java.parseUnsigned_digits n
  rw [Java.parseUnsigned, if_neg (digits_ne_nil n),
    ← Java.readDigits_replicate (by decide) (3 - (digits n).length)] at hread
  rw [List.leftpad] at h
  rw [h] at hread
  exact (Option.some.inj hread).symm

theorem not_mem_leftpad_digits {c : Char} (hc : c.isDigit = false) (n : ℕ) :
    c ∉ (digits n).leftpad 3 '0' := by
  rw [List.leftpad, List.mem_append]
  rintro (h | h)
  · rw [List.eq_of_mem_replicate h] at hc
    contradiction
  · exact not_mem_digits hc n h

/-- A line with a time is split at its only point. -/
theorem timeLine_eq (pTicks : BitVec 64) :
    timeLine milliseconds pTicks =
      (digits ((pTicks / CLOCK_FREQ).toNat % 2 ^ 32 / 60) ++ ":".toList ++
        digits ((pTicks / CLOCK_FREQ).toNat % 2 ^ 32 % 60)) ++
      '.' :: (digits (milliseconds (pTicks % CLOCK_FREQ).toNat)).leftpad 3 '0' := by
  rw [timeLine, List.append_assoc]
  rfl

/-- The characters of a line with a time. -/
theorem not_mem_timeLine {c : Char} (hc : c.isDigit = false) (hcolon : c ≠ ':') (hpoint : c ≠ '.')
    (pTicks : BitVec 64) : c ∉ timeLine milliseconds pTicks := by
  rw [timeLine_eq, List.mem_append, List.mem_append, List.mem_append, List.mem_cons]
  rintro (((h | h) | h) | h | h)
  · exact not_mem_digits hc _ h
  · exact hcolon (List.mem_singleton.mp h)
  · exact not_mem_digits hc _ h
  · exact hpoint h
  · exact not_mem_leftpad_digits hc _ h

/-- A line with a time leaves the results alone, and sets the time when it is one in full seconds. -/
theorem readLine_timeLine (milliseconds : ℕ → ℕ) (pTicks : BitVec 64) :
    ∃ time, readLine r (timeLine milliseconds pTicks) = some { r with currentTime := time } ∧
      (milliseconds (pTicks % CLOCK_FREQ).toNat = 0 → (pTicks / CLOCK_FREQ).toNat < 2 ^ 31 →
        time = some (digits (pTicks / CLOCK_FREQ).toNat)) := by
  by_cases hfull : milliseconds (pTicks % CLOCK_FREQ).toNat = 0
  · have hline : timeLine milliseconds pTicks =
        timeOf ((pTicks / CLOCK_FREQ).toNat % 2 ^ 32 / 60)
          ((pTicks / CLOCK_FREQ).toNat % 2 ^ 32 % 60) := by
      rw [timeLine_eq, hfull]
      rfl
    rw [hline, readLine_timeOf (by omega) (by omega), seconds_eq]
    refine ⟨_, rfl, fun _ hlt => ?_⟩
    rw [Nat.mod_eq_of_lt (Nat.lt_trans hlt (by decide)), Java.toInt_ofNat_of_lt hlt,
      Java.ofInt_natCast]
  · -- the line does not end with `.000`
    have hfront := dot_notMem_seconds ((pTicks / CLOCK_FREQ).toNat % 2 ^ 32 / 60)
      ((pTicks / CLOCK_FREQ).toNat % 2 ^ 32 % 60)
    have hends : Java.endsWith (timeLine milliseconds pTicks) ".000".toList = false := by
      rw [timeLine_eq, Bool.eq_false_iff]
      intro h
      exact hfull (leftpad_digits_eq
        ((Java.endsWith_cons_iff hfront (not_mem_leftpad_digits (by decide) _)).mp h))
    have hstarts : Java.startsWith (timeLine milliseconds pTicks) "0x0".toList = false :=
      Java.startsWith_eq_false (c := 'x')
        (not_mem_timeLine (by decide) (by decide) (by decide) _) (by decide)
    exact ⟨r.currentTime, readLine_other hends hstarts, fun h => absurd h hfull⟩

/-- The ticks to wait before check `k`. -/
def ticksAt (k : ℕ) : BitVec 64 := START_TIME + BitVec.ofNat 64 k * TIME_INCREMENT

theorem ticksAt_zero : ticksAt 0 = START_TIME := by decide

theorem ticksAt_succ (k : ℕ) : ticksAt k + TIME_INCREMENT = ticksAt (k + 1) := by
  have hone : BitVec.ofNat 64 1 * TIME_INCREMENT = TIME_INCREMENT := BitVec.one_mul _
  rw [ticksAt, ticksAt, BitVec.ofNat_add, BitVec.add_mul, BitVec.add_assoc, hone]

/-- The ticks are full seconds as long as the time fits. -/
theorem ticksAt_eq {k : ℕ} (hk : waitingTime k < 2 ^ 31) :
    (ticksAt k / CLOCK_FREQ).toNat = waitingTime k ∧ (ticksAt k % CLOCK_FREQ).toNat = 0 := by
  have hstart : START_TIME = BitVec.ofNat 64 250000000 := rfl
  have hincrement : TIME_INCREMENT = BitVec.ofNat 64 250000000 := rfl
  have hticks : (ticksAt k).toNat = 50000000 * (5 * (k + 1)) := by
    rw [waitingTime_eq] at hk
    rw [ticksAt, hstart, hincrement, ← BitVec.ofNat_mul, ← BitVec.ofNat_add, BitVec.toNat_ofNat,
      Nat.mod_eq_of_lt (by omega)]
    omega
  have hfreq : CLOCK_FREQ.toNat = 50000000 := by decide
  rw [BitVec.toNat_udiv, BitVec.toNat_umod, hticks, hfreq, waitingTime_eq,
    Nat.mul_div_cancel_left _ (by decide)]
  exact ⟨rfl, Nat.mul_mod_right _ _⟩

/-! ## The lines of a check -/

theorem halfWordLine_eq (h : ℕ) : halfWordLine h = halfWordOf h := by
  unfold halfWordLine addressLine farAddress halfWordOf resultOf
  rfl

theorem lt_of_mem_testedHalfWords {h n : ℕ} (hmem : h ∈ testedHalfWords n) : h < 2 * n := by
  rw [testedHalfWords, List.mem_filter, List.mem_range] at hmem
  exact hmem.1

theorem containsKey_iff {time : ℕ → ℕ} {hs : List ℕ}
    (hr : r.resultsMap = hs.map (entryOf time)) (h : ℕ) :
    r.containsKey (halfWordOf h) = true ↔ h ∈ hs := by
  rw [Reading.containsKey, hr, List.any_map, List.any_eq_true]
  constructor
  · rintro ⟨h', hmem, heq⟩
    rwa [← halfWordOf_inj (beq_iff_eq.mp heq)]
  · intro hmem
    exact ⟨h, hmem, beq_self_eq_true _⟩

/-- The lines for some half-words add those that are new. -/
theorem foldlM_halfWordOf {time : ℕ → ℕ} {hs ls : List ℕ} (hr : r.resultsMap = hs.map (entryOf time))
    (hls : ∀ h ∈ ls, h < 0x20000)
    (htime : ∀ h ∈ ls, h ∉ hs → r.currentTime = some (digits (time h))) :
    ∃ hs' : List ℕ, (ls.map halfWordOf).foldlM readLine r =
        some { r with resultsMap := hs'.map (entryOf time) } ∧ ∀ h, h ∈ hs' ↔ h ∈ hs ∨ h ∈ ls := by
  induction ls generalizing r hs with
  | nil => exact ⟨hs, by rw [← hr]; rfl, fun h => by simp⟩
  | cons l ls ih =>
    have hl := hls l List.mem_cons_self
    rw [List.map_cons, List.foldlM_cons, halfWordOf, readLine_resultOf (by omega) (by omega)]
    change ∃ hs', (some (if r.containsKey (halfWordOf l) then r
      else { r with resultsMap := r.resultsMap ++ [(halfWordOf l, r.currentTime)] }) >>= _) = _ ∧ _
    rw [Option.bind_eq_bind, Option.bind_some]
    by_cases hmem : l ∈ hs
    · rw [if_pos ((containsKey_iff hr l).mpr hmem)]
      obtain ⟨hs', hrun, hiff⟩ := ih hr (fun h hh => hls h (List.mem_cons_of_mem _ hh))
        fun h hh => htime h (List.mem_cons_of_mem _ hh)
      refine ⟨hs', hrun, fun h => ?_⟩
      rw [hiff, List.mem_cons]
      constructor
      · rintro (h | h)
        · exact .inl h
        · exact .inr (.inr h)
      · rintro (h | rfl | h)
        · exact .inl h
        · exact .inl hmem
        · exact .inr h
    · rw [if_neg fun h => hmem ((containsKey_iff hr l).mp h)]
      have hnew : r.resultsMap ++ [(halfWordOf l, r.currentTime)] =
          (hs ++ [l]).map (entryOf time) := by
        rw [hr, htime l List.mem_cons_self hmem, List.map_append]
        rfl
      obtain ⟨hs', hrun, hiff⟩ := ih (r := { r with
        resultsMap := r.resultsMap ++ [(halfWordOf l, r.currentTime)] }) hnew
        (fun h hh => hls h (List.mem_cons_of_mem _ hh))
        fun h hh hnot => htime h (List.mem_cons_of_mem _ hh) fun h' =>
          hnot (List.mem_append_left _ h')
      refine ⟨hs', hrun, fun h => ?_⟩
      rw [hiff, List.mem_append, List.mem_singleton, List.mem_cons, or_assoc]

/-- What has been read after the checks `seen`: the half-words that have differed, each with its
time. -/
structure Read (before : Mem) (time : ℕ → ℕ) (seen : List Mem) (r : Reading)
    (hs : List ℕ) : Prop where
  results : r.resultsMap = hs.map (entryOf time)
  mem_iff : ∀ h, h ∈ hs ↔ h ∈ testedHalfWords 65536 ∧ ∃ mem ∈ seen, differs before mem h = true

variable {before mem : Mem} {mems seen : List Mem} {time : ℕ → ℕ} {hs : List ℕ}

/-- **The lines of one check.** -/
theorem foldlM_checkLines (hmilliseconds : milliseconds 0 = 0) (hread : Read before time seen r hs)
    (htime : ∀ h ∈ testedHalfWords 65536, h ∉ hs → differs before mem h = true →
      waitingTime seen.length < 2 ^ 31 ∧ time h = waitingTime seen.length) :
    ∃ r' hs', (checkLines milliseconds (ticksAt seen.length) mem).foldlM readLine r = some r' ∧
      Read before time (seen ++ [mem]) r' hs' := by
  obtain ⟨t, ht, hfull⟩ := readLine_timeLine (r := r) milliseconds (ticksAt seen.length)
  obtain ⟨hlines, -⟩ := checkDramData_eq before mem
  have hends : Java.endsWith
      ("Flips: ".toList ++ digits (checkDramData mem).flipCount) ".000".toList = false := by
    refine Java.endsWith_eq_false (c := '.') ?_ (by decide)
    rw [List.mem_append]
    rintro (h | h)
    · exact absurd h (by decide)
    · exact not_mem_digits (by decide) _ h
  have hstarts : Java.startsWith
      ("Flips: ".toList ++ digits (checkDramData mem).flipCount) "0x0".toList = false :=
    rfl
  have htested : ∀ h ∈ (testedHalfWords 65536).filter (differs before mem), h < 0x20000 := fun h hh =>
    lt_of_mem_testedHalfWords (List.mem_of_mem_filter hh)
  have hcurrent : ∀ h ∈ (testedHalfWords 65536).filter (differs before mem), h ∉ hs →
      t = some (digits (time h)) := by
    intro h hh hnew
    obtain ⟨hmem, hdiffers⟩ := List.mem_filter.mp hh
    obtain ⟨hfit, heq⟩ := htime h hmem hnew hdiffers
    obtain ⟨hseconds, hrest⟩ := ticksAt_eq hfit
    rw [hrest, hseconds] at hfull
    rw [hfull hmilliseconds hfit, heq]
  obtain ⟨hs', hrun, hiff⟩ :=
    foldlM_halfWordOf (r := { r with currentTime := t }) hread.results htested hcurrent
  refine ⟨⟨t, hs'.map (entryOf time)⟩, hs', ?_, rfl, fun h => ?_⟩
  · rw [checkLines, hlines, List.cons_append, List.foldlM_cons, ht, Option.bind_eq_bind,
      Option.bind_some, List.foldlM_append, List.map_congr_left fun h _ => halfWordLine_eq h, hrun,
      Option.bind_eq_bind, Option.bind_some, List.foldlM_cons, readLine_other hends hstarts]
    rfl
  · rw [hiff, hread.mem_iff, List.mem_filter]
    simp only [List.mem_append, List.mem_singleton, or_and_right, exists_or, exists_eq_left]
    exact and_or_left.symm

/-! ## The log -/

/-- The lines from check `k` on. -/
def linesFrom (milliseconds : ℕ → ℕ) : ℕ → List Mem → List Str
  | _, [] => ["DONE".toList]
  | k, mem :: mems => checkLines milliseconds (ticksAt k) mem ++ linesFrom milliseconds (k + 1) mems

theorem next_eq (k flipCount : ℕ) :
    program.next (ticksAt k) flipCount = if done flipCount then none else some (ticksAt (k + 1)) := by
  rw [← ticksAt_succ]
  rfl

theorem eq_linesFrom {k : ℕ} {ls : List Str} (h : checks milliseconds (ticksAt k) mems = some ls) :
    ls = linesFrom milliseconds k mems := by
  induction mems generalizing k ls with
  | nil => contradiction
  | cons mem mems ih =>
    rw [checks, next_eq] at h
    by_cases hdone : done (checkDramData mem).flipCount = true
    · -- the last check
      rw [if_pos hdone, Option.elim_none, Option.ite_none_right_eq_some] at h
      obtain ⟨rfl, hls⟩ := h
      exact (Option.some.inj hls).symm
    · rw [if_neg hdone, Option.elim_some, Option.map_eq_some_iff] at h
      obtain ⟨ls', hls', rfl⟩ := h
      rw [linesFrom, ih hls']

/-- **The lines of a run** from a check on. -/
theorem foldlM_linesFrom (hmilliseconds : milliseconds 0 = 0) (hread : Read before time seen r hs)
    (htime : ∀ h ∈ testedHalfWords 65536, ∀ t ∈ firstTime before (seen ++ mems) h,
      t < 2 ^ 31 ∧ time h = t) :
    ∃ r' hs', (linesFrom milliseconds seen.length mems).foldlM readLine r = some r' ∧
      Read before time (seen ++ mems) r' hs' := by
  induction mems generalizing seen r hs with
  | nil =>
    rw [List.append_nil]
    exact ⟨r, hs, rfl, hread⟩
  | cons mem mems ih =>
    have hfirst : ∀ h ∈ testedHalfWords 65536, h ∉ hs → differs before mem h = true →
        waitingTime seen.length < 2 ^ 31 ∧ time h = waitingTime seen.length := by
      intro h hmem hnew hdiffers
      have hnone : seen.findIdx? (fun mem => differs before mem h) = none := by
        rw [List.findIdx?_eq_none_iff]
        intro mem' hmem'
        rw [Bool.eq_false_iff]
        intro hd
        exact hnew ((hread.mem_iff h).mpr ⟨hmem, mem', hmem', hd⟩)
      apply htime h hmem
      rw [firstTime, List.findIdx?_append, hnone, List.findIdx?_cons, if_pos hdiffers]
      simp
    obtain ⟨r', hs', hrun, hread'⟩ := foldlM_checkLines hmilliseconds hread hfirst
    rw [List.append_cons] at htime ⊢
    obtain ⟨r'', hs'', hrun', hread''⟩ := ih hread' htime
    rw [List.length_append, List.length_singleton] at hrun'
    refine ⟨r'', hs'', ?_, hread''⟩
    rw [linesFrom, List.foldlM_append, hrun]
    exact hrun'

theorem foldlM_header : header.foldlM readLine r = some r := foldlM_readLine_other (by decide)

/-- What `printf` writes as one line. -/
def Printable (l : Str) : Prop := l ≠ [] ∧ Java.OneLine l

theorem printable_append {l l' : Str} (hne : l ≠ []) (hl : Java.OneLine l) (hl' : Java.OneLine l') :
    Printable (l ++ l') :=
  ⟨List.append_ne_nil_of_left_ne_nil hne l', Java.oneLine_append.mpr ⟨hl, hl'⟩⟩

theorem printable_header : ∀ l ∈ header, Printable l := by
  have hhex : ∀ n, Java.OneLine (Java.upperHex 8 n) := fun n => Java.oneLine_upperHex 8 n
  intro l hl
  rw [header] at hl
  simp only [List.mem_cons, List.not_mem_nil, or_false] at hl
  rcases hl with rfl | rfl | rfl | rfl
  · exact printable_append (by decide) (by decide) (hhex _)
  · exact printable_append (by decide) (by decide) (hhex _)
  · exact ⟨by decide, by decide⟩
  · exact ⟨by decide, by decide⟩

theorem printable_timeLine (pTicks : BitVec 64) : Printable (timeLine milliseconds pTicks) := by
  constructor
  · rw [timeLine_eq]
    exact List.append_ne_nil_of_right_ne_nil _ (List.cons_ne_nil _ _)
  · intro c hc
    apply Java.isBreak_eq_false
    · rintro rfl
      exact not_mem_timeLine (by decide) (by decide) (by decide) _ hc
    · rintro rfl
      exact not_mem_timeLine (by decide) (by decide) (by decide) _ hc

theorem printable_halfWordOf (h : ℕ) : Printable (halfWordOf h) := by
  unfold halfWordOf resultOf
  rw [List.append_assoc, List.append_assoc]
  refine printable_append (by decide) (by decide) ?_
  rw [Java.oneLine_append, Java.oneLine_append]
  exact ⟨Java.oneLine_upperHex _ _, by decide, Java.oneLine_digits _⟩

theorem printable_linesFrom (k : ℕ) : ∀ l ∈ linesFrom milliseconds k mems, Printable l := by
  induction mems generalizing k with
  | nil =>
    intro l hl
    rw [linesFrom, List.mem_singleton] at hl
    rw [hl]
    exact ⟨by decide, by decide⟩
  | cons mem mems ih =>
    intro l hl
    rw [linesFrom, List.mem_append, checkLines, (checkDramData_eq mem mem).1,
      List.mem_append, List.mem_cons, List.mem_singleton] at hl
    rcases hl with ((rfl | hl) | rfl) | hl
    · exact printable_timeLine _
    · obtain ⟨h, -, rfl⟩ := List.mem_map.mp hl
      rw [halfWordLine_eq]
      exact printable_halfWordOf h
    · exact printable_append (by decide) (by decide) (Java.oneLine_digits _)
    · exact ih (k + 1) l hl

/-- A carriage return ends an empty line, unless a line feed is next. -/
theorem lines_printf {ls : List Str} (h : ∀ l ∈ ls, Printable l) :
    Java.lines (printf ls) = ls.flatMap fun l => [l, []] := by
  induction ls with
  | nil => rfl
  | cons l ls ih =>
    have hnext : (printf ls).head? ≠ some '\n' := by
      cases ls with
      | nil => exact fun hnone => absurd hnone (by decide)
      | cons l' ls =>
        obtain ⟨hne, hbreak⟩ := h l' (List.mem_cons_of_mem _ List.mem_cons_self)
        obtain ⟨c, cs, rfl⟩ := List.exists_cons_of_ne_nil hne
        intro hhead
        have hc : c = '\n' := Option.some.inj hhead
        have hnot := hbreak c List.mem_cons_self
        rw [hc] at hnot
        contradiction
    have hline : printf (l :: ls) = l ++ '\n' :: '\r' :: printf ls := by
      rw [printf, List.flatMap_cons, List.append_assoc]
      rfl
    rw [hline, Java.lines_append_cons (h l List.mem_cons_self).2, Java.lines_cr hnext,
      ih fun l' hl' => h l' (List.mem_cons_of_mem _ hl'), List.flatMap_cons]
    rfl

theorem readAll_printf {ls : List Str} (h : ∀ l ∈ ls, Printable l) :
    readAll (printf ls) = ls.foldlM readLine ⟨none, []⟩ := by
  rw [readAll, lines_printf h]
  generalize (⟨none, []⟩ : Reading) = r
  clear h
  induction ls generalizing r with
  | nil => rfl
  | cons l ls ih =>
    rw [List.flatMap_cons, List.foldlM_append, List.foldlM_cons, List.foldlM_cons]
    cases hl : readLine r l with
    | none => rfl
    | some r' => exact ih r'

/-! ## The matrix -/

/-- What is printed for a half-word. The time of one that never differed is computed with 32 bits. -/
def entry (before : Mem) (mems : List Mem) (h : ℕ) : ℤ :=
  (firstTime before mems h).elim (BitVec.ofNat 32 (largest (recorded before mems)) + 5).toInt
    fun t => (t : ℤ)

def printed (before : Mem) (mems : List Mem) : List ℤ :=
  (testedHalfWords 65536).map (entry before mems)

/-- The half-words that are tested are those that are printed. -/
theorem testedHalfWords_eq (n : ℕ) :
    testedHalfWords (8 * n) = (List.range (8 * n)).map printedAt := by
  have hsixteen : ∀ m, 2 * (8 * m) = 16 * m := fun m => by omega
  rw [testedHalfWords, hsixteen]
  induction n with
  | zero => rfl
  | succ n ih =>
    have hfirst : (List.range 16).filter (fun j => (16 * n + j) % 16 < 8) = List.range 8 := by
      simp only [Nat.mul_add_mod]
      decide
    rw [Nat.mul_succ, Nat.mul_succ, List.range_add, List.range_add, List.filter_append,
      List.map_append, ih, List.filter_map, List.map_map]
    congr 1
    refine (congrArg (List.map (16 * n + ·)) hfirst).trans (List.map_congr_left fun j hj => ?_)
    have hlt : j < 8 := List.mem_range.mp hj
    rw [Function.comp_apply, printedAt]
    omega

-- from here on no step may build the list
attribute [local irreducible] testedHalfWords

/-- Rows of the same length, one after the other. -/
theorem flatten_rows {α : Type} (f : ℕ → α) (rows columns : ℕ) :
    ((List.range rows).map fun i => (List.range columns).map fun j => f (i * columns + j)).flatten =
      (List.range (rows * columns)).map f := by
  induction rows with
  | zero => rw [Nat.zero_mul]; rfl
  | succ rows ih =>
    rw [List.range_succ, List.map_append, List.flatten_append, ih, Nat.succ_mul, List.range_add,
      List.map_append, List.map_singleton, List.flatten_singleton, List.map_map]
    rfl

/-- The half-words that are known in the end are those with a time. -/
theorem mem_iff_firstTime (hread : Read before time mems r hs) (h : ℕ) :
    h ∈ hs ↔ h ∈ testedHalfWords 65536 ∧ (firstTime before mems h).isSome := by
  rw [hread.mem_iff, firstTime, Option.isSome_map, List.findIdx?_isSome, List.any_eq_true]

/-- The text for a half-word is its entry. -/
theorem cell_eq {h : ℕ} (hmem : h ∈ testedHalfWords 65536)
    (hfit : ∀ t ∈ recorded before mems, t < 2 ^ 31)
    (hknown : ∀ h, h ∈ hs ↔ h ∈ testedHalfWords 65536 ∧ (firstTime before mems h).isSome) :
    cell ⟨fun h => if h ∈ hs then BitVec.ofNat 32 ((firstTime before mems h).getD 0) else 0,
        BitVec.ofNat 32 (largest (recorded before mems))⟩ h =
      Java.ofInt (entry before mems h) := by
  cases hfirst : firstTime before mems h with
  | none =>
    have hnot : h ∉ hs := fun hin => by
      have hsome := ((hknown h).mp hin).2
      rw [hfirst] at hsome
      contradiction
    rw [cell_of_eq (if_neg hnot), if_neg fun hne => hne rfl, entry, hfirst, Option.elim_none]
  | some t =>
    have hin : h ∈ hs := (hknown h).mpr ⟨hmem, hfirst ▸ rfl⟩
    have hlt : t < 2 ^ 31 := hfit t (List.mem_filterMap.mpr ⟨h, hmem, hfirst⟩)
    have hpos : 0 < t := by
      obtain ⟨k, -, rfl⟩ := Option.map_eq_some_iff.mp hfirst
      rw [waitingTime_eq]
      omega
    have hne : BitVec.ofNat 32 t ≠ 0 := by
      intro hzero
      have hint := Java.toInt_ofNat_of_lt hlt
      rw [hzero] at hint
      exact absurd (Int.ofNat.inj hint.symm) (Nat.ne_of_gt hpos)
    rw [cell_of_eq (if_pos hin), hfirst, Option.getD_some, if_pos hne,
      Java.toInt_ofNat_of_lt hlt, entry, hfirst, Option.elim_some]

theorem largest_eq (hknown : ∀ h,
    h ∈ hs ↔ h ∈ testedHalfWords 65536 ∧ (firstTime before mems h).isSome) :
    largest (hs.map fun h => (firstTime before mems h).getD 0) = largest (recorded before mems) := by
  apply largest_congr
  intro t
  rw [List.mem_map, recorded, List.mem_filterMap]
  constructor
  · rintro ⟨h, hin, rfl⟩
    obtain ⟨hmem, hsome⟩ := (hknown h).mp hin
    obtain ⟨t, ht⟩ := Option.isSome_iff_exists.mp hsome
    exact ⟨h, hmem, by rw [ht, Option.getD_some]⟩
  · rintro ⟨h, hmem, ht⟩
    exact ⟨h, (hknown h).mpr ⟨hmem, ht ▸ rfl⟩, by rw [ht, Option.getD_some]⟩

/-- The text is a matrix of what each half-word is printed as. -/
theorem isMatrix_printAll {s : Results} {f : ℕ → ℤ}
    (hcell : ∀ h ∈ testedHalfWords 65536, cell s h = Java.ofInt (f h)) :
    IsMatrix ((testedHalfWords 65536).map f) (printAll s) := by
  have htested : testedHalfWords 65536 = (List.range (128 * 512)).map printedAt :=
    testedHalfWords_eq 8192
  refine ⟨(List.range 128).map fun i => (List.range 512).map
    fun j => f (printedAt (i * 512 + j)), ?_, ?_, ?_⟩
  · rw [flatten_rows (fun k => f (printedAt k)), htested, List.map_map, Function.comp_def]
  · intro row hrow
    obtain ⟨i, -, rfl⟩ := List.mem_map.mp hrow
    rw [List.length_map, List.length_range]
  · have hcolumns : NUM_COLS_PER_ROW = 512 := rfl
    have hrow : ∀ i ∈ List.range 128,
        Java.unwords ((List.range 512).map fun j => cell s (printedAt (i * 512 + j))) =
          Java.unwords (((List.range 512).map
            fun j => f (printedAt (i * 512 + j))).map Java.ofInt) := by
      intro i hi
      have hi : i < 128 := List.mem_range.mp hi
      rw [List.map_map]
      refine congrArg Java.unwords (List.map_congr_left fun j hj => ?_)
      have hj : j < 512 := List.mem_range.mp hj
      have hk : i * 512 + j ∈ List.range (128 * 512) := by
        rw [List.mem_range]
        omega
      apply hcell
      rw [htested]
      exact List.mem_map_of_mem hk
    rw [printAll_eq, hcolumns, List.map_map]
    refine congrArg Java.unlines (List.map_congr_left fun i hi => ?_)
    rw [Function.comp_apply]
    exact hrow i hi

/-- **What is printed for a log** of a run whose recorded times fit in 32 bits. -/
theorem main_printed {ls : List Str} {order : List (Str × Option Str) → List (Str × Option Str)}
    (hmilliseconds : milliseconds 0 = 0) (horder : ∀ entries, (order entries).Perm entries)
    (hlog : logLines milliseconds mems = some ls) (hfit : ∀ t ∈ recorded before mems, t < 2 ^ 31) :
    ∃ out, main order (printf ls) = some out ∧ IsMatrix (printed before mems) out := by
  have htime : ∀ h ∈ testedHalfWords 65536, ∀ t ∈ firstTime before ([] ++ mems) h,
      t < 2 ^ 31 ∧ (firstTime before mems h).getD 0 = t := by
    intro h hmem t ht
    rw [List.nil_append, Option.mem_def] at ht
    refine ⟨hfit t (List.mem_filterMap.mpr ⟨h, hmem, ht⟩), ?_⟩
    rw [ht, Option.getD_some]
  have hnothing : Read before (fun h => (firstTime before mems h).getD 0) [] ⟨none, []⟩ [] :=
    ⟨rfl, fun h => by simp⟩
  rw [logLines, ← ticksAt_zero, Option.map_eq_some_iff] at hlog
  obtain ⟨ls', hls', rfl⟩ := hlog
  obtain ⟨r, hs, hrun, hread⟩ := foldlM_linesFrom hmilliseconds hnothing htime
  have hreading : readAll (printf (header ++ ls')) = some r := by
    rw [eq_linesFrom hls', readAll_printf, List.foldlM_append, foldlM_header]
    · exact hrun
    · intro l hl
      rcases List.mem_append.mp hl with hl | hl
      · exact printable_header l hl
      · exact printable_linesFrom 0 l hl
  -- the map gives its entries in some order
  obtain ⟨hs', heq, hperm⟩ : ∃ hs' : List ℕ, order r.resultsMap =
      hs'.map (entryOf fun h => (firstTime before mems h).getD 0) ∧ hs'.Perm hs := by
    have hcomp : Relation.Comp
      (· = List.map (entryOf fun h => (firstTime before mems h).getD 0) ·) (·.Perm ·)
        (order r.resultsMap) hs := by
      rw [List.eq_map_comp_perm]
      have hentries := horder r.resultsMap
      rwa [hread.results] at hentries ⊢
    exact hcomp
  have hknown : ∀ h, h ∈ hs' ↔ h ∈ testedHalfWords 65536 ∧ (firstTime before mems h).isSome := by
    intro h
    rw [hperm.mem_iff]
    exact mem_iff_firstTime hread h
  have hsaved := saveAll_map (fun h => (firstTime before mems h).getD 0)
    (fun h hin => lt_of_mem_testedHalfWords ((hknown h).mp hin).1) fun h hin => by
      obtain ⟨hmem, hsome⟩ := (hknown h).mp hin
      obtain ⟨t, ht⟩ := Option.isSome_iff_exists.mp hsome
      obtain ⟨hlt, heq⟩ := htime h hmem t ht
      rwa [heq]
  rw [largest_eq hknown] at hsaved
  refine ⟨_, ?_, isMatrix_printAll fun h hmem => cell_eq hmem hfit hknown⟩
  rw [main, hreading, Option.bind_eq_bind, Option.bind_some, heq, hsaved]
  rfl

/-- Times that fit are printed as they are. -/
theorem printed_eq (hfit : ∀ t ∈ expected before mems, t < 2 ^ 31) :
    printed before mems = (expected before mems).map fun t : ℕ => (t : ℤ) := by
  rw [printed, expected, List.map_map]
  apply List.map_congr_left
  intro h hmem
  have hlt := hfit _ (List.mem_map_of_mem hmem)
  rw [Function.comp_apply, entry]
  cases hfirst : firstTime before mems h with
  | none =>
    rw [hfirst, Option.getD_none] at hlt
    have hsum : BitVec.ofNat 32 (largest (recorded before mems)) + 5 =
        BitVec.ofNat 32 (largest (recorded before mems) + 5) := (BitVec.ofNat_add _ _).symm
    rw [Option.elim_none, Option.getD_none, hsum, Java.toInt_ofNat_of_lt hlt]
  | some t => rw [Option.elim_some, Option.getD_some]

/-- The times that are recorded are among those expected. -/
theorem mem_expected_of_mem_recorded {t : ℕ} (ht : t ∈ recorded before mems) :
    t ∈ expected before mems := by
  obtain ⟨h, hmem, hfirst⟩ := List.mem_filterMap.mp ht
  refine List.mem_map.mpr ⟨h, hmem, ?_⟩
  rw [hfirst, Option.getD_some]

/-! ## Memories for examples -/

/-- The memory in which the words from `keep` on are inverted. -/
def spoiled (before : Mem) (keep : ℕ) : Mem := fun index =>
  if index < keep then writeDataToDram before index else ~~~ writeDataToDram before index

theorem differs_stored (before : Mem) (h : ℕ) :
    differs before (writeDataToDram before) h = false := by
  rw [differs, bne_self_eq_false]

theorem differs_spoiled (before : Mem) (keep : ℕ) {h : ℕ} (hh : h < 0x20000) :
    differs before (spoiled before keep) h = decide (keep ≤ h / 2) := by
  have hstored := writeDataToDram_eq before (show h / 2 < 65536 by omega)
  unfold differs halfWord spoiled
  by_cases hkeep : h / 2 < keep
  · rw [if_pos hkeep, bne_self_eq_false, decide_eq_false (by omega)]
  · rw [if_neg hkeep, decide_eq_true (by omega), hstored]
    rcases patternAt_data (h / 2) with hdata | hdata
    · rw [hdata]
      split <;> rfl
    · rw [hdata]
      split <;> rfl

/-- The number of half-words that differ. -/
theorem le_length_filter {p : ℕ → Bool} {m n : ℕ} (hmn : m + n = 8 * 8192)
    (hp : ∀ h ∈ testedHalfWords 65536, m ≤ h → p h = true) :
    n ≤ ((testedHalfWords 65536).filter p).length := by
  have htested : testedHalfWords 65536 = (List.range (m + n)).map printedAt := by
    rw [hmn]
    exact testedHalfWords_eq 8192
  rw [htested] at hp
  rw [htested, List.range_add, List.map_append, List.filter_append, List.length_append, List.map_map]
  have hall : ((List.range n).map (printedAt ∘ (m + ·))).filter p =
      (List.range n).map (printedAt ∘ (m + ·)) := by
    rw [List.filter_eq_self]
    intro h hmem
    obtain ⟨j, hj, rfl⟩ := List.mem_map.mp hmem
    rw [Function.comp_apply] at hmem ⊢
    apply hp
    · apply List.mem_map_of_mem
      rw [List.mem_range] at hj ⊢
      omega
    · rw [printedAt]
      omega
  rw [hall, List.length_map, List.length_range]
  exact Nat.le_add_left _ _

theorem done_spoiled (before : Mem) {keep : ℕ} (hkeep : keep ≤ 1) :
    done (checkDramData (spoiled before keep)).flipCount = true := by
  have hcount : 65534 ≤ (checkDramData (spoiled before keep)).flipCount := by
    rw [(checkDramData_eq before _).2]
    apply le_length_filter (m := 2) rfl
    intro h hmem hle
    rw [differs_spoiled before keep (lt_of_mem_testedHalfWords hmem), decide_eq_true_eq]
    omega
  rw [done, decide_eq_true_eq]
  have htotal : 999 * ((NUM_WORDS_TO_CHECK >>> 1) * 2) = 65470464 := by decide
  rw [htotal]
  omega

theorem done_stored (before : Mem) :
    done (checkDramData (writeDataToDram before)).flipCount = false := by
  have hcount : (checkDramData (writeDataToDram before)).flipCount = 0 := by
    rw [(checkDramData_eq before _).2, List.length_eq_zero_iff, List.filter_eq_nil_iff]
    intro h _
    rw [differs_stored]
    exact Bool.false_ne_true
  rw [hcount]
  rfl

/-- A run returns after the first check with enough flips. -/
theorem isSome_checks (milliseconds : ℕ → ℕ) {last : Mem}
    (hmems : ∀ mem ∈ mems, done (checkDramData mem).flipCount = false)
    (hlast : done (checkDramData last).flipCount = true) (k : ℕ) :
    (checks milliseconds (ticksAt k) (mems ++ [last])).isSome = true := by
  induction mems generalizing k with
  | nil =>
    rw [List.nil_append, checks, next_eq, if_pos hlast, Option.elim_none, if_pos rfl,
      Option.isSome_some]
  | cons mem mems ih =>
    have hmem := hmems mem List.mem_cons_self
    rw [List.cons_append, checks, next_eq, if_neg (Bool.eq_false_iff.mp hmem), Option.elim_some,
      Option.isSome_map]
    exact ih (fun mem' hmem' => hmems mem' (List.mem_cons_of_mem _ hmem')) (k + 1)

/-- The first entry of a matrix is at the front of its text. -/
theorem IsMatrix.eq_append {entries : List ℤ} {out : Str} (h : IsMatrix entries out) {e : ℤ}
    (hhead : entries.head? = some e) : ∃ rest, out = Java.ofInt e ++ rest := by
  obtain ⟨rows, rfl, hlength, rfl⟩ := h
  cases rows with
  | nil => contradiction
  | cons row rows =>
    have hrow := hlength row List.mem_cons_self
    cases row with
    | nil => contradiction
    | cons e' es =>
      have he : e' = e := Option.some.inj hhead
      rw [he, List.map_cons, List.map_cons, Java.unlines_cons]
      cases es with
      | nil => exact ⟨_, by rw [List.map_nil, Java.unwords_singleton]⟩
      | cons e'' es => exact ⟨_, by rw [List.map_cons, Java.unwords_cons_cons, List.append_assoc]⟩

/-- The contents at `n` checks without a flip and a last one at which all but the first word differ.
-/
def lateFlips (before : Mem) (n : ℕ) : List Mem :=
  List.replicate n (writeDataToDram before) ++ [spoiled before 1]

theorem firstTime_lateFlips (before : Mem) (n : ℕ) {h : ℕ} (hh : h < 0x20000) :
    firstTime before (lateFlips before n) h = if 1 ≤ h / 2 then some (waitingTime n) else none := by
  have hnone : (List.replicate n (writeDataToDram before)).findIdx?
      (fun mem => differs before mem h) = none := by
    rw [List.findIdx?_eq_none_iff]
    intro mem hmem
    rw [List.eq_of_mem_replicate hmem, differs_stored]
  rw [firstTime, lateFlips, List.findIdx?_append, hnone, List.findIdx?_cons,
    differs_spoiled before 1 hh, List.length_replicate]
  by_cases hword : 1 ≤ h / 2
  · rw [decide_eq_true hword, if_pos hword, if_pos rfl]
    simp
  · rw [decide_eq_false hword, if_neg hword]
    rfl

theorem largest_lateFlips (before : Mem) (n : ℕ) :
    largest (recorded before (lateFlips before n)) = waitingTime n ∧
      ∀ t ∈ recorded before (lateFlips before n), t = waitingTime n := by
  have honly : ∀ t ∈ recorded before (lateFlips before n), t = waitingTime n := by
    intro t ht
    obtain ⟨h, hmem, hfirst⟩ := List.mem_filterMap.mp ht
    rw [firstTime_lateFlips before n (lt_of_mem_testedHalfWords hmem),
      Option.ite_none_right_eq_some] at hfirst
    exact (Option.some.inj hfirst.2).symm
  have htwo : waitingTime n ∈ recorded before (lateFlips before n) := by
    have hmem : 2 ∈ testedHalfWords 65536 := by
      rw [testedHalfWords, List.mem_filter, List.mem_range]
      decide
    refine List.mem_filterMap.mpr ⟨2, hmem, ?_⟩
    rw [firstTime_lateFlips before n (by decide), if_pos (by decide)]
  refine ⟨Nat.le_antisymm ?_ (largest_le.mp (Nat.le_refl _) _ htwo), honly⟩
  rw [largest_le]
  intro t ht
  rw [honly t ht]

theorem exists_log_lateFlips (milliseconds : ℕ → ℕ) (before : Mem) (n : ℕ) :
    ∃ ls, logLines milliseconds (lateFlips before n) = some ls := by
  have hreplicate : ∀ mem ∈ List.replicate n (writeDataToDram before),
      done (checkDramData mem).flipCount = false := by
    intro mem hmem
    rw [List.eq_of_mem_replicate hmem]
    exact done_stored before
  have hsome := isSome_checks milliseconds hreplicate (done_spoiled before (Nat.le_refl 1)) 0
  rw [← Option.isSome_iff_exists, logLines, Option.isSome_map, ← ticksAt_zero]
  exact hsome

/-- The first entry is for half-word `0`. -/
theorem head?_map_testedHalfWords (f : ℕ → ℤ) :
    ((testedHalfWords 65536).map f).head? = some (f 0) := by
  have htested : testedHalfWords 65536 = (List.range (8 * 8192)).map printedAt :=
    testedHalfWords_eq 8192
  rw [htested, List.head?_map, List.head?_map, List.head?_range]
  rfl

/-! ## From the memory to the matrix -/

/-- **The matrix of a run.** As long as every time that is expected is a number of Java's `int`, the
    matrix has the times of the first checks at which the half-words differed. -/
theorem main_prints_expected {ls : List Str}
    {order : List (Str × Option Str) → List (Str × Option Str)} (hmilliseconds : milliseconds 0 = 0)
    (horder : ∀ entries, (order entries).Perm entries) (hlog : logLines milliseconds mems = some ls)
    (hfit : ∀ t ∈ expected before mems, t < 2 ^ 31) :
    ∃ out, main order (printf ls) = some out ∧
      IsMatrix ((expected before mems).map fun t : ℕ => (t : ℤ)) out := by
  rw [← printed_eq hfit]
  exact main_printed hmilliseconds horder hlog fun t ht => hfit t (mem_expected_of_mem_recorded ht)

/-- Two checks without a flip, and a third one at which all but the first word differ. -/
theorem main_prints_expected_third :
    ∃ ls out, logLines (fun rest => rest * 1000 / 50000000) (lateFlips (fun _ => 0) 2) = some ls ∧
      main (fun entries => entries) (printf ls) = some out ∧
      IsMatrix ((expected (fun _ => 0) (lateFlips (fun _ => 0) 2)).map fun t : ℕ => (t : ℤ)) out := by
  obtain ⟨ls, hls⟩ := exists_log_lateFlips (fun rest => rest * 1000 / 50000000) (fun _ => 0) 2
  obtain ⟨hlargest, -⟩ := largest_lateFlips (fun _ => 0) 2
  have hsmall : ∀ t ∈ expected (fun _ => 0) (lateFlips (fun _ => 0) 2), t < 2 ^ 31 := by
    intro t ht
    obtain ⟨h, hmem, rfl⟩ := List.mem_map.mp ht
    rw [firstTime_lateFlips _ 2 (lt_of_mem_testedHalfWords hmem), hlargest, waitingTime_eq]
    split <;> decide
  obtain ⟨out, hout, hmatrix⟩ := main_prints_expected rfl (fun _ => .refl _) hls hsmall
  exact ⟨ls, out, hls, hout, hmatrix⟩

/-- After `429496729` checks the time of a half-word that has not differed is a negative number. -/
theorem main_prints_negative :
    ∃ mems ls, logLines (fun rest => rest * 1000 / 50000000) mems = some ls ∧
      ¬ ∃ out, main (fun entries => entries) (printf ls) = some out ∧
        IsMatrix ((expected (fun _ => 0) mems).map fun t : ℕ => (t : ℤ)) out := by
  obtain ⟨n, hn⟩ : ∃ n, waitingTime n = 2147483645 := ⟨429496728, waitingTime_eq 429496728⟩
  obtain ⟨hlargest, honly⟩ := largest_lateFlips (fun _ => 0) n
  obtain ⟨ls, hls⟩ := exists_log_lateFlips (fun rest => rest * 1000 / 50000000) (fun _ => 0) n
  have hfit : ∀ t ∈ recorded (fun _ => 0) (lateFlips (fun _ => 0) n), t < 2 ^ 31 := by
    intro t ht
    rw [honly t ht, hn]
    decide
  have hfirst : firstTime (fun _ => 0) (lateFlips (fun _ => 0) n) 0 = none := by
    rw [firstTime_lateFlips _ n (by decide), if_neg (by decide)]
  refine ⟨lateFlips (fun _ => 0) n, ls, hls, ?_⟩
  rintro ⟨out, hout, hexpected⟩
  obtain ⟨out', hout', hprinted⟩ := main_printed rfl (fun _ => .refl _) hls hfit
  have hsame : out' = out := Option.some.inj (hout'.symm.trans hout)
  rw [hsame] at hprinted
  -- what is printed begins with a sign, what is expected with a digit
  have hentry : entry (fun _ => 0) (lateFlips (fun _ => 0) n) 0 = -2147483646 := by
    rw [entry, hfirst, hlargest, hn]
    decide
  obtain ⟨rest, hrest⟩ := hprinted.eq_append (head?_map_testedHalfWords _)
  rw [expected, List.map_map] at hexpected
  obtain ⟨rest', hrest'⟩ := hexpected.eq_append (head?_map_testedHalfWords _)
  rw [Function.comp_apply, Java.ofInt_natCast] at hrest'
  rw [hentry, hrest'] at hrest
  obtain ⟨c, cs, hcs⟩ := List.exists_cons_of_ne_nil (digits_ne_nil
    ((firstTime (fun _ => 0) (lateFlips (fun _ => 0) n) 0).getD
      (largest (recorded (fun _ => 0) (lateFlips (fun _ => 0) n)) + 5)))
  have hdigit : c.isDigit = true := isDigit_of_mem_digits (hcs ▸ List.mem_cons_self)
  rw [hcs, List.cons_append] at hrest
  have hminus : c = '-' := (List.cons.inj hrest).1
  rw [hminus] at hdigit
  contradiction

end ProbableCause.Fpga
