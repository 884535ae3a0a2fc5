import ProbableCause.Lib.Bits
import ProbableCause.ResultProcessing.Dump

/-!
# `ResultProcessing.TwoFiles` — the programs that read two dumps side by side

Six programs share one loop over the lines of two files (`TwoFiles.loop`): `intersectFlips`,
`intersectValid`, `convertImageDecayToFlips` and `addErrorsToImage` print a dump, `hd` and
`hd_fails_from_1` count differing bits. They differ in what they do with a pair of bytes, in what
they print where the files disagree, and in whether they exit or only leave the loop there. Each
keeps its own definition.

On two dumps of one shape the four programs of the first kind print `Dump.zip` of their operation
(`run_printing`), and the two of the second kind count the ones of theirs (`run_counting`).
-/

namespace ProbableCause

open Text Java Bits

/-! ## The console -/

/-- What a program has written. -/
structure Console where
  out : Str
  err : Str
  deriving DecidableEq

/-- How a program stops before its `main` returns. -/
inductive Ending where
  | exit (status : ℕ)
  | numberFormatException
  | fileNotFoundException
  /-- it runs forever -/
  | endless
  deriving DecidableEq

/-- A state with a console in it. -/
class HasConsole (σ : Type) where
  onConsole : (Console → Console) → σ → σ

instance : HasConsole Console := ⟨id⟩

variable {σ : Type} [HasConsole σ]

/-- `System.out.print`. -/
def print (s : Str) : EStateM Ending σ Unit :=
  modify (HasConsole.onConsole fun c => { c with out := c.out ++ s })

/-- `System.out.println`. -/
def println (s : Str) : EStateM Ending σ Unit := print (s ++ "\n".toList)

/-- `System.err.println`. -/
def eprintln (s : Str) : EStateM Ending σ Unit :=
  modify (HasConsole.onConsole fun c => { c with err := c.err ++ s ++ "\n".toList })

/-- `Integer.parseInt(s,16)`. -/
def parseHex (s : Str) : EStateM Ending σ (BitVec 32) :=
  match Java.parseInt 16 s with
  | some v => pure v
  | none => throw .numberFormatException

@[simp] theorem run_print (s : Str) (c : Console) :
    (print s).run c = .ok () { c with out := c.out ++ s } := rfl

@[simp] theorem run_println (s : Str) (c : Console) :
    (println s).run c = .ok () { c with out := c.out ++ (s ++ "\n".toList) } := rfl

/-! ## The loop over the lines of two files -/

/-- What tells the programs apart. -/
structure TwoFiles (σ : Type) where
  /-- one of the files has ended -/
  unequal : EStateM Ending σ Unit
  /-- both lines carry no data -/
  ignored : Str → EStateM Ending σ Unit
  /-- one of the lines carries no data -/
  mismatch : EStateM Ending σ Unit
  /-- the bytes of two data lines -/
  data : List Str → List Str → EStateM Ending σ Unit

/-- `while((line1 = file1.readLine()) != (line2 = file2.readLine()))`: two strings that were read
    are never the same object, so the loop ends where both files have. -/
def TwoFiles.loop (p : TwoFiles σ) : List Str → List Str → EStateM Ending σ Unit
  | [], [] => pure ()
  | line1 :: file1, line2 :: file2 => do
    if ignoreLine line1 || ignoreLine line2 then
      if ignoreLine line2 && ignoreLine line1 then
        p.ignored line1
        p.loop file1 file2
      else
        p.mismatch
    else
      let bytes1 := split line1
      let bytes2 := split line2
      if bytes1.length ≠ bytes2.length then
        eprintln "ERROR: Files do not have the same number of bytes per line".toList
        throw (.exit 1)
      p.data bytes1 bytes2
      p.loop file1 file2
  | _, _ => p.unequal

/-- `openFileRead`. -/
def openFileRead (files : Str → Option Str) (name : Str) : EStateM Ending σ (List Str) :=
  match files name with
  | some text => pure (lines text)
  | none => throw .fileNotFoundException

/-- Opening the two files and running the loop over them. -/
def TwoFiles.run (p : TwoFiles σ) (files : Str → Option Str) (name1 name2 : Str) :
    EStateM Ending σ Unit := do
  let file1 ← openFileRead files name1
  let file2 ← openFileRead files name2
  p.loop file1 file2

/-! ## The programs that print a dump -/

/-- The loop over the bytes of two lines, for a program that prints `op` of each pair. -/
def printBytes (op : BitVec 32 → BitVec 32 → BitVec 32) :
    List Str → List Str → EStateM Ending Console Unit
  | byte1 :: bytes1, byte2 :: bytes2 => do
    let v1 ← parseHex byte1
    let v2 ← parseHex byte2
    print (upperHex 2 (op v1 v2).toNat)
    if bytes1 ≠ [] then
      print " ".toList
    printBytes op bytes1 bytes2
  | _, _ => print "\n".toList

/-- A message and the end of the program. -/
def fail (messages : List Str) : EStateM Ending Console Unit := do
  messages.forM eprintln
  throw (.exit 1)

namespace IntersectFlips

def byteOR (a b : BitVec 32) : BitVec 32 := a ||| b

def program : TwoFiles Console where
  unequal := fail ["ERROR: Files not the same length".toList]
  ignored := println
  mismatch := do
    println "FF".toList
    println "q".toList
    fail ["ERROR: Files do not start or end the same".toList]
  data := printBytes byteOR

def main (files : Str → Option Str) (args : List Str) : EStateM Ending Console Unit :=
  match args with
  | [file1, file2] | [_, file1, file2] => program.run files file1 file2
  | _ => fail ["Usage: java intersectFlips file1 file2".toList]

end IntersectFlips

namespace IntersectValid

def byteAND (a b : BitVec 32) : BitVec 32 := a &&& b

def program : TwoFiles Console where
  unequal := fail ["ERROR: Files not the same length".toList]
  ignored := println
  mismatch := fail ["ERROR: Files do not start or end the same".toList]
  data := printBytes byteAND

def main (files : Str → Option Str) (args : List Str) : EStateM Ending Console Unit :=
  match args with
  | [file1, file2] | [_, file1, file2] => program.run files file1 file2
  | _ => fail ["Usage: java intersectValid file1 file2".toList]

end IntersectValid

namespace ConvertImageDecayToFlips

def byteDiff (a b : BitVec 32) : BitVec 32 := a ^^^ b

def program (file1 file2 : Str) : TwoFiles Console where
  unequal := fail ["ERROR: Files not the same length".toList, file1, file2]
  ignored := println
  mismatch := fail ["ERROR: Files do not start or end the same".toList]
  data := printBytes fun a b => ~~~byteDiff a b &&& 0xFF

def main (files : Str → Option Str) (args : List Str) : EStateM Ending Console Unit :=
  match args with
  | [file1, file2] | [_, file1, file2] => (program file1 file2).run files file1 file2
  | _ => fail ["Usage: java convertImageDecayToFlips exactImage approximateImage".toList]

end ConvertImageDecayToFlips

namespace AddErrorsToImage

def program (file1 file2 : Str) : TwoFiles Console where
  unequal := fail ["ERROR: Files not the same length".toList, file1, file2]
  ignored := println
  mismatch := fail ["ERROR: Files do not start or end the same".toList]
  data := printBytes fun a b => (~~~a ^^^ b) &&& 0xFF

def main (files : Str → Option Str) (args : List Str) : EStateM Ending Console Unit :=
  match args with
  | [file1, file2] => (program file1 file2).run files file1 file2
  | _ => fail ["Usage: java addErrorsToImage errorMap exactImage".toList]

end AddErrorsToImage

/-! ## The programs that count -/

/-- The console and the counters of `hd` and `hd_fails_from_1`. -/
structure Totals where
  console : Console
  totalBytes : BitVec 32
  totalFlips : BitVec 32

instance : HasConsole Totals := ⟨fun f s => { s with console := f s.console }⟩

/-- `while(pValue != 0)`. The shift keeps the sign, so the loop ends within 32 rounds or never. -/
def countOnesLoop : ℕ → BitVec 32 → BitVec 32 → Option (BitVec 32)
  | 0, _, _ => none
  | fuel + 1, pValue, oneCount =>
    if pValue = 0 then some oneCount
    else countOnesLoop fuel (pValue.sshiftRight 1) (if pValue &&& 0x1 ≠ 0
      then oneCount + 1 else oneCount)

def countOnes (pValue : BitVec 32) : EStateM Ending Totals (BitVec 32) :=
  match countOnesLoop 33 pValue 0 with
  | some oneCount => pure oneCount
  | none => throw .endless

/-- The loop over the bytes of two lines, for a program that counts the ones of `byteDiff`. -/
def countBytes (byteDiff : BitVec 32 → BitVec 32 → BitVec 32) :
    List Str → List Str → EStateM Ending Totals Unit
  | byte1 :: bytes1, byte2 :: bytes2 => do
    let v1 ← parseHex byte1
    let v2 ← parseHex byte2
    let diff := byteDiff v1 v2
    if diff ≠ 0 then
      let ones ← countOnes diff
      modify fun s => { s with totalFlips := s.totalFlips + ones }
    countBytes byteDiff bytes1 bytes2
  | _, _ => pure ()

/-- The two programs leave the loop where the other four exit. -/
def counting (byteDiff : BitVec 32 → BitVec 32 → BitVec 32) : TwoFiles Totals where
  unequal := eprintln "ERROR: Files not the same length".toList
  ignored _ := pure ()
  mismatch := eprintln "ERROR: Files do not start or end the same".toList
  data bytes1 bytes2 := do
    modify fun s => { s with totalBytes := s.totalBytes + BitVec.ofNat 32 bytes1.length }
    countBytes byteDiff bytes1 bytes2

def Totals.start : Totals := ⟨⟨[], []⟩, 0, 0⟩

namespace HD

def byteDiff (a b : BitVec 32) : BitVec 32 := a ^^^ b

/-- A call without `-v`. -/
def main (files : Str → Option Str) (file1 file2 : Str) : EStateM Ending Totals Unit := do
  (counting byteDiff).run files file1 file2
  let totals ← get
  println (ofInt totals.totalFlips.toInt)

end HD

namespace HDFailsFrom1

/-- Only the 0 bits of the first byte that the second has not. -/
def byteDiff (a b : BitVec 32) : BitVec 32 := ~~~a &&& b

/-- A call without `-v`. The program prints the quotient of `totalFlips` and the number returned
    here, in single precision. -/
def main (files : Str → Option Str) (file1 file2 failsIn1 : Str) :
    EStateM Ending Totals (BitVec 32) := do
  let lines1 ← openFileRead files file1
  let lines2 ← openFileRead files file2
  match Java.parseInt 10 failsIn1 with
  | none => throw .numberFormatException
  | some failsInFP =>
    (counting byteDiff).loop lines1 lines2
    pure failsInFP

end HDFailsFrom1

/-! ## Runs on two dumps of one shape -/

omit [HasConsole σ] in
theorem run_parseHex_of_parseInt {t : Str} {a : BitVec 32} (h : Java.parseInt 16 t = some a) (s : σ) :
    (parseHex t).run s = .ok a s := by
  rw [parseHex, h]
  rfl

omit [HasConsole σ] in
theorem run_parseHex {t : Str} {b : BitVec 8} (h : hexByte? t = some b) (s : σ) :
    (parseHex t).run s = .ok (b.setWidth 32) s := run_parseHex_of_parseInt (parseInt_of_hexByte h) s

/-- What a round does on two lines of one shape. -/
structure Lockstep (p : TwoFiles σ) (step : Line → Line → σ → σ) : Prop where
  ignored : ∀ text text' s, (p.ignored text).run s = .ok () (step (.ignored text) (.ignored text') s)
  data : ∀ {ts ts' bs cs}, List.Forall₂ (fun t b => hexByte? t = some b) ts bs →
    List.Forall₂ (fun t b => hexByte? t = some b) ts' cs → bs.length = cs.length →
    ∀ s, (p.data ts ts').run s = .ok () (step (.data bs) (.data cs) s)

theorem readLine_cases {t : Str} {l : Line} (h : readLine t = some l) :
    (ignoreLine t = true ∧ l = .ignored t) ∨
    (ignoreLine t = false ∧ ∃ bs, l = .data bs ∧ List.Forall₂ (fun t b => hexByte? t = some b)
      (split t) bs) := by
  rw [readLine] at h
  split at h
  · rename_i hi
    exact .inl ⟨hi, (Option.some.inj h).symm⟩
  · rename_i hi
    obtain ⟨bs, hbs, rfl⟩ := Option.map_eq_some_iff.mp h
    exact .inr ⟨Bool.eq_false_iff.mpr hi, bs, rfl, mapM_eq_some_iff.mp hbs⟩

/-- **The loop over two dumps of one shape** does its rounds and ends normally. -/
theorem run_loop {p : TwoFiles σ} {step : Line → Line → σ → σ} (hp : Lockstep p step)
    {file1 file2 : List Str} {ls ls' : List Line}
    (h1 : List.Forall₂ (fun t l => readLine t = some l) file1 ls)
    (h2 : List.Forall₂ (fun t l => readLine t = some l) file2 ls')
    (hshape : List.Forall₂ (fun l l' => l.shape = l'.shape) ls ls') (s : σ) :
    (p.loop file1 file2).run s = .ok () ((ls.zip ls').foldl (fun s l => step l.1 l.2 s) s) := by
  induction hshape generalizing file1 file2 s with
  | nil =>
    cases h1
    cases h2
    rfl
  | @cons l l' ls ls' hl _ ih =>
    cases h1 with | @cons line1 _ file1 _ h1 h1s =>
    cases h2 with | @cons line2 _ file2 _ h2 h2s =>
    rw [TwoFiles.loop, List.zip_cons_cons, List.foldl_cons]
    rcases readLine_cases h1 with ⟨hi1, rfl⟩ | ⟨hi1, bs, rfl, hbs⟩ <;>
      rcases readLine_cases h2 with ⟨hi2, rfl⟩ | ⟨hi2, cs, rfl, hcs⟩
    · -- neither line carries data
      simp only [hi1, hi2, Bool.or_true, Bool.and_true, if_true, EStateM.run_bind,
        hp.ignored line1 line2]
      exact ih h1s h2s _
    · cases hl
    · cases hl
    · have hlength : bs.length = cs.length := Option.some.inj hl
      have htokens : ¬(split _).length ≠ (split _).length :=
        not_not.mpr (hbs.length_eq.trans (hlength.trans hcs.length_eq.symm))
      simp only [hi1, hi2, Bool.or_false, Bool.false_eq_true, if_false, if_neg htokens,
        EStateM.run_bind, hp.data hbs hcs hlength]
      exact ih h1s h2s _

/-! ### Printing -/

section Printing

variable {op : BitVec 32 → BitVec 32 → BitVec 32} {f : BitVec 8 → BitVec 8 → BitVec 8}

/-- Whatever `printBytes` does to the bytes, it prints a data line. -/
theorem run_printBytes (hop : ∀ a b, op (a.setWidth 32) (b.setWidth 32) = (f a b).setWidth 32)
    {ts ts' : List Str} {bs cs : List (BitVec 8)}
    (h1 : List.Forall₂ (fun t b => hexByte? t = some b) ts bs)
    (h2 : List.Forall₂ (fun t b => hexByte? t = some b) ts' cs) (hlength : bs.length = cs.length)
    (c : Console) :
    (printBytes op ts ts').run c =
      .ok () { c with
        out := c.out ++ (unwords ((List.zipWith f bs cs).map byteToken) ++ "\n".toList) } := by
  induction h1 generalizing ts' cs c with
  | nil =>
    cases h2 with
    | nil => rfl
    | cons => simp at hlength
  | @cons t b ts bs hb hbs ih =>
    cases h2 with
    | nil => simp at hlength
    | @cons t' b' ts' cs hb' hcs =>
      have htoken : upperHex 2 (op (b.setWidth 32) (b'.setWidth 32)).toNat = byteToken (f b b') := by
        have hb : (f b b').toNat < 256 := (f b b').isLt
        rw [hop, byteToken, BitVec.toNat_setWidth, Nat.mod_eq_of_lt (by omega)]
      have hrest : bs.length = cs.length := Nat.succ.inj hlength
      rw [printBytes, EStateM.run_bind, run_parseHex hb]
      simp only [EStateM.run_bind, run_parseHex hb', htoken, run_print]
      cases hbs with
      | nil =>
        obtain rfl : cs = [] := List.length_eq_zero_iff.mp hrest.symm
        cases hcs
        simp [printBytes]
      | @cons t2 b2 ts bs hb2 hbs =>
        obtain ⟨b2', cs, rfl⟩ := List.exists_cons_of_length_eq_add_one hrest.symm
        have hnext := ih hcs hrest
        rw [if_pos (List.cons_ne_nil _ _)]
        simp only [EStateM.run_bind, run_print, hnext, List.zipWith_cons_cons, List.map_cons,
          unwords_cons_cons]
        simp

/-- The programs that print a dump print `Dump.zip` of what they do to the bytes. -/
theorem lockstep_printing (hop : ∀ a b, op (a.setWidth 32) (b.setWidth 32) = (f a b).setWidth 32)
    {p : TwoFiles Console} (hignored : p.ignored = println) (hdata : p.data = printBytes op) :
    Lockstep p fun l l' c => { c with out := c.out ++ ((l.zip f l').print ++ "\n".toList) } where
  ignored text text' c := by rw [hignored, run_println]; rfl
  data h1 h2 hlength c := by rw [hdata, run_printBytes hop h1 h2 hlength]; rfl

/-- **A printing program on two dumps of one shape** prints a dump of that shape and ends normally. -/
theorem run_printing (hop : ∀ a b, op (a.setWidth 32) (b.setWidth 32) = (f a b).setWidth 32)
    {p : TwoFiles Console} (hignored : p.ignored = println) (hdata : p.data = printBytes op)
    {files : Str → Option Str} {name1 name2 text1 text2 : Str} (hfile1 : files name1 = some text1)
    (hfile2 : files name2 = some text2) {d e : Dump} (hd : readDump text1 = some d)
    (he : readDump text2 = some e) (hshape : d.shape = e.shape) :
    (p.run files name1 name2).run ⟨[], []⟩ = .ok () ⟨(d.zip f e).print, []⟩ := by
  have hloop := run_loop (lockstep_printing hop hignored hdata) (readDump_eq_some_iff.mp hd)
    (readDump_eq_some_iff.mp he) (Dump.forall₂_of_shape hshape)
  have hout : ∀ (ls ls' : List Line) (c : Console),
      ((ls.zip ls').foldl (fun c l =>
        { c with out := c.out ++ ((l.1.zip f l.2).print ++ "\n".toList) }) c) =
          { c with
            out := c.out ++ unlines ((List.zipWith (Line.zip f) ls ls').map Line.print) } := by
    intro ls
    induction ls with
    | nil => intro ls' c; simp
    | cons l ls ih =>
      intro ls' c
      cases ls' with
      | nil => simp
      | cons l' ls' => rw [List.zip_cons_cons, List.foldl_cons, ih]; simp
  rw [TwoFiles.run, openFileRead, openFileRead, hfile1, hfile2]
  simp only [pure_bind, hloop, hout]
  rfl

end Printing

/-! ### Counting -/

/-- A number below `2 ^ k` is zero after `k` shifts. -/
theorem countOnesLoop_eq {k fuel : ℕ} (hk : k < fuel) (hk31 : k ≤ 31) {v : BitVec 32}
    (hv : v.toNat < 2 ^ k) (oneCount : BitVec 32) :
    countOnesLoop fuel v oneCount =
      some (oneCount + BitVec.ofNat 32 ((List.range k).countP v.toNat.testBit)) := by
  induction fuel generalizing k v oneCount with
  | zero => exact absurd hk (Nat.not_lt_zero _)
  | succ fuel ih =>
    rw [countOnesLoop]
    split
    · rename_i hzero
      have hnone : (List.range k).countP v.toNat.testBit = 0 := by simp [hzero]
      rw [hnone]
      simp
    · rename_i hne
      cases k with
      | zero => exact absurd (BitVec.eq_of_toNat_eq (by simpa using hv)) hne
      | succ k =>
        have hlow : v.toNat < 2 ^ 31 := hv.trans_le (Nat.pow_le_pow_right (by decide) hk31)
        have hshift : (v.sshiftRight 1).toNat = v.toNat / 2 := by
          have hmsb : v.msb = false := by rw [BitVec.msb_eq_decide]; simpa using hlow
          rw [BitVec.sshiftRight_eq_of_msb_false hmsb, BitVec.toNat_ushiftRight,
            Nat.shiftRight_eq_div_pow, pow_one]
        have hbit : (if v &&& 0x1 ≠ 0 then oneCount + 1 else oneCount) =
            oneCount + BitVec.ofNat 32 (v.toNat % 2) := by
          have hand : v &&& 0x1 = BitVec.ofNat 32 (v.toNat % 2) := by
            apply BitVec.eq_of_toNat_eq
            have hone : (0x1 : BitVec 32).toNat = 1 := rfl
            rw [BitVec.toNat_and, hone, Nat.and_one_is_mod, BitVec.toNat_ofNat]
            omega
          rw [hand]
          rcases Nat.mod_two_eq_zero_or_one v.toNat with h | h <;> simp [h]
        have hhalf : (v.sshiftRight 1).toNat < 2 ^ k := by
          rw [hshift]
          have hpow : 2 ^ (k + 1) = 2 * 2 ^ k := Nat.pow_succ'
          omega
        rw [ih (Nat.lt_of_succ_lt_succ hk) (Nat.le_of_succ_le hk31) hhalf, hshift, hbit,
          countP_testBit_succ, BitVec.ofNat_add, BitVec.add_assoc]

/-- **`countOnes` counts the ones** of a byte. -/
theorem run_countOnes (b : BitVec 8) (s : Totals) :
    (countOnes (b.setWidth 32)).run s = .ok (BitVec.ofNat 32 (ones b)) s := by
  have hvalue : (b.setWidth 32).toNat = b.toNat := by
    rw [BitVec.toNat_setWidth, Nat.mod_eq_of_lt (b.isLt.trans (by decide))]
  have hloop := countOnesLoop_eq (show 8 < 33 by decide) (by decide) (hvalue.trans_lt b.isLt) 0
  have hzero : 0 + BitVec.ofNat 32 (ones b) = BitVec.ofNat 32 (ones b) := BitVec.zero_add _
  rw [hvalue] at hloop
  rw [countOnes, hloop, ← hzero]
  rfl

section Counting

variable {diff : BitVec 32 → BitVec 32 → BitVec 32} {f : BitVec 8 → BitVec 8 → BitVec 8}

theorem run_countBytes (hdiff : ∀ a b, diff (a.setWidth 32) (b.setWidth 32) = (f a b).setWidth 32)
    {ts ts' : List Str} {bs cs : List (BitVec 8)}
    (h1 : List.Forall₂ (fun t b => hexByte? t = some b) ts bs)
    (h2 : List.Forall₂ (fun t b => hexByte? t = some b) ts' cs)
    (hlength : bs.length = cs.length) (s : Totals) :
    (countBytes diff ts ts').run s =
      .ok () { s with
        totalFlips := s.totalFlips + BitVec.ofNat 32 (total (List.zipWith f bs cs)) } := by
  induction h1 generalizing ts' cs s with
  | nil =>
    cases h2 with
    | nil => simp [countBytes]
    | cons => simp at hlength
  | @cons t b ts bs hb hbs ih =>
    cases h2 with
    | nil => simp at hlength
    | @cons t' b' ts' cs hb' hcs =>
      have hrest : bs.length = cs.length := Nat.succ.inj hlength
      have htotal : BitVec.ofNat 32 (total (List.zipWith f (b :: bs) (b' :: cs))) =
          BitVec.ofNat 32 (ones (f b b')) + BitVec.ofNat 32 (total (List.zipWith f bs cs)) := by
        rw [List.zipWith_cons_cons, total_cons, BitVec.ofNat_add]
      rw [countBytes, EStateM.run_bind, run_parseHex hb]
      simp only [EStateM.run_bind, run_parseHex hb', hdiff]
      -- a pair that does not differ is not counted: it has no ones
      by_cases hzero : (f b b').setWidth 32 = 0
      · have hnone : ones (f b b') = 0 := by
          rw [ones_eq_zero_iff]
          apply BitVec.eq_of_toNat_eq
          have hnat := congrArg BitVec.toNat hzero
          rwa [BitVec.toNat_setWidth, Nat.mod_eq_of_lt ((f b b').isLt.trans (by decide))] at hnat
        rw [htotal, hnone]
        simp [hzero, ih hcs hrest]
      · rw [htotal]
        simp only [hzero, ne_eq, not_false_eq_true, if_true, EStateM.run_bind, run_countOnes,
          EStateM.run_modify, ih hcs hrest, BitVec.add_assoc]

/-- The console stays as it is, and the counters grow by the number of bytes and of ones of their
differences. -/
def Totals.add (bytes flips : ℕ) (s : Totals) : Totals :=
  { s with
    totalBytes := s.totalBytes + BitVec.ofNat 32 bytes
    totalFlips := s.totalFlips + BitVec.ofNat 32 flips }

theorem Totals.add_start (bytes flips : ℕ) :
    Totals.start.add bytes flips = ⟨⟨[], []⟩, BitVec.ofNat 32 bytes, BitVec.ofNat 32 flips⟩ := by
  simp [Totals.add, Totals.start]

theorem lockstep_counting
    (hdiff : ∀ a b, diff (a.setWidth 32) (b.setWidth 32) = (f a b).setWidth 32) :
    Lockstep (counting diff) fun l l' =>
      Totals.add l.bytes.length (total (List.zipWith f l.bytes l'.bytes)) where
  ignored text text' s := by
    change EStateM.Result.ok () s = _
    simp [Totals.add, Line.bytes]
  data h1 h2 hlength s := by
    rw [counting, EStateM.run_bind, EStateM.run_modify, h1.length_eq]
    exact run_countBytes hdiff h1 h2 hlength _

/-- The counters over all lines. -/
theorem foldl_add {ls ls' : List Line}
    (hlines : List.Forall₂ (fun l l' => l.shape = l'.shape) ls ls') (s : Totals) :
    (ls.zip ls').foldl (fun s l => Totals.add l.1.bytes.length
      (total (List.zipWith f l.1.bytes l.2.bytes)) s) s = s.add (ls.flatMap Line.bytes).length
        (total (List.zipWith f (ls.flatMap Line.bytes) (ls'.flatMap Line.bytes))) := by
  induction hlines generalizing s with
  | nil => simp [Totals.add]
  | @cons l l' ls ls' hl _ ih =>
    have hlength : l.bytes.length = l'.bytes.length := by
      rcases Line.shape_eq_cases hl with ⟨text, text', rfl, rfl⟩ | ⟨bs, cs, rfl, rfl, hlength⟩
      · rfl
      · exact hlength
    rw [List.zip_cons_cons, List.foldl_cons, ih, List.flatMap_cons, List.flatMap_cons,
      List.zipWith_append hlength]
    simp [Totals.add, total_append, BitVec.ofNat_add, BitVec.add_assoc]

/-- **A counting program on two dumps of one shape** counts the ones of its operation, in 32-bit
arithmetic. -/
theorem run_counting (hdiff : ∀ a b, diff (a.setWidth 32) (b.setWidth 32) = (f a b).setWidth 32)
    {text1 text2 : Str} {d e : Dump} (hd : readDump text1 = some d) (he : readDump text2 = some e)
    (hshape : d.shape = e.shape) (s : Totals) :
    ((counting diff).loop (lines text1) (lines text2)).run s =
      .ok () (s.add d.bytes.length (total (List.zipWith f d.bytes e.bytes))) := by
  have hlines := Dump.forall₂_of_shape hshape
  rw [run_loop (lockstep_counting hdiff) (readDump_eq_some_iff.mp hd)
    (readDump_eq_some_iff.mp he) hlines, foldl_add hlines]
  rfl

end Counting

/-! ## The programs on files -/

/-- Two files with these texts. -/
def twoFiles (text1 text2 name : Str) : Option Str :=
  if name = "file1".toList then some text1 else if name = "file2".toList then some text2 else none

theorem twoFiles_file1 (text1 text2 : Str) : twoFiles text1 text2 "file1".toList = some text1 := rfl

theorem twoFiles_file2 (text1 text2 : Str) : twoFiles text1 text2 "file2".toList = some text2 := rfl

/-- `java program file1 file2 > file`: what the file gets; `none` where the program does not end
normally. -/
def redirect (main : (Str → Option Str) → List Str → EStateM Ending Console Unit)
    (text1 text2 : Str) : Option Str :=
  match (main (twoFiles text1 text2) ["file1".toList, "file2".toList]).run ⟨[], []⟩ with
  | .ok _ c => some c.out
  | .error _ _ => none

/-- The mask `0xFF` keeps the lowest byte. -/
theorem and_0xFF (x : BitVec 32) : x &&& 0xFF = (x.setWidth 8).setWidth 32 := by
  apply BitVec.eq_of_toNat_eq
  have hmask : (0xFF : BitVec 32).toNat = 2 ^ 8 - 1 := rfl
  rw [BitVec.toNat_and, hmask, Nat.and_two_pow_sub_one_eq_mod, BitVec.toNat_setWidth,
    BitVec.toNat_setWidth]
  omega

/-- A byte complemented as an `int` and masked is complemented as a byte. -/
theorem not_and_0xFF (a : BitVec 8) : ~~~(a.setWidth 32) &&& 0xFF = (~~~a).setWidth 32 := by
  rw [and_0xFF, BitVec.setWidth_not (by decide), BitVec.setWidth_setWidth_of_le _ (by decide),
    BitVec.setWidth_eq]

/-- `totalFlips` at the end of a run that ends normally. -/
def totalFlips {α : Type} (main : EStateM Ending Totals α) : Option (BitVec 32) :=
  match main.run Totals.start with
  | .ok _ s => some s.totalFlips
  | .error _ _ => none

namespace HD

/-- `totalFlips` of `java hd file1 file2`. -/
def flips (text1 text2 : Str) : Option (BitVec 32) :=
  totalFlips (main (twoFiles text1 text2) "file1".toList "file2".toList)

end HD

namespace HDFailsFrom1

/-- `totalFlips` of `java hd_fails_from_1 file1 file2 failsIn1`. -/
def flips (text1 text2 failsIn1 : Str) : Option (BitVec 32) :=
  totalFlips (main (twoFiles text1 text2) "file1".toList "file2".toList failsIn1)

end HDFailsFrom1

section Redirect

variable {text1 text2 : Str} {d e : Dump} (hd : readDump text1 = some d)
  (he : readDump text2 = some e) (hshape : d.shape = e.shape)

include hd he hshape

/-- What a printing program writes to a file, on two dumps of one shape. -/
theorem redirect_printing {op : BitVec 32 → BitVec 32 → BitVec 32}
    {f : BitVec 8 → BitVec 8 → BitVec 8}
    {main : (Str → Option Str) → List Str → EStateM Ending Console Unit} {p : TwoFiles Console}
    (hmain : ∀ files, main files ["file1".toList, "file2".toList] =
    p.run files "file1".toList "file2".toList) (hignored : p.ignored = println) (hdata :
      p.data = printBytes op) (hop :
        ∀ a b, op (a.setWidth 32) (b.setWidth 32) = (f a b).setWidth 32) :
    redirect main text1 text2 = some (d.zip f e).print := by
  rw [redirect, hmain, run_printing hop hignored hdata (twoFiles_file1 _ _)
    (twoFiles_file2 _ _) hd he hshape]

theorem redirect_intersectFlips :
    redirect IntersectFlips.main text1 text2 = some (d.zip (· ||| ·) e).print :=
  redirect_printing hd he hshape (fun _ => rfl) rfl rfl fun _ _ => BitVec.setWidth_or.symm

theorem redirect_intersectValid :
    redirect IntersectValid.main text1 text2 = some (d.zip (· &&& ·) e).print :=
  redirect_printing hd he hshape (fun _ => rfl) rfl rfl fun _ _ => BitVec.setWidth_and.symm

theorem redirect_convertImageDecayToFlips :
    redirect ConvertImageDecayToFlips.main text1 text2 =
      some (d.zip (fun a b => ~~~(a ^^^ b)) e).print :=
  redirect_printing hd he hshape (fun _ => rfl) rfl rfl fun a b => by
    rw [ConvertImageDecayToFlips.byteDiff, ← BitVec.setWidth_xor, not_and_0xFF]

theorem redirect_addErrorsToImage :
    redirect AddErrorsToImage.main text1 text2 = some (d.zip (fun a b => ~~~a ^^^ b) e).print :=
  redirect_printing hd he hshape (fun _ => rfl) rfl rfl fun a b => by
    rw [← BitVec.not_xor_left, ← BitVec.setWidth_xor, not_and_0xFF, BitVec.not_xor_left]

theorem run_hd :
    (HD.main (twoFiles text1 text2) "file1".toList "file2".toList).run Totals.start =
      .ok () ⟨⟨ofInt (BitVec.ofNat 32 (total (List.zipWith (· ^^^ ·) d.bytes e.bytes))).toInt ++
        "\n".toList, []⟩, BitVec.ofNat 32 d.bytes.length,
          BitVec.ofNat 32 (total (List.zipWith (· ^^^ ·) d.bytes e.bytes))⟩ := by
  have hloop : ((counting HD.byteDiff).loop (lines text1) (lines text2)).run Totals.start = _ :=
    run_counting (fun _ _ => BitVec.setWidth_xor.symm) hd he hshape Totals.start
  rw [HD.main, TwoFiles.run, openFileRead, openFileRead, twoFiles_file1, twoFiles_file2]
  simp only [pure_bind]
  rw [EStateM.run_bind, hloop, Totals.add_start]
  generalize BitVec.ofNat 32 (total _) = flips
  generalize BitVec.ofNat 32 _ = bytes
  rfl

theorem flips_hd :
    HD.flips text1 text2 = some
      (BitVec.ofNat 32 (total (List.zipWith (· ^^^ ·) d.bytes e.bytes))) := by
  rw [HD.flips, totalFlips, run_hd hd he hshape]

theorem run_hd_fails_from_1 {failsIn1 : Str} {failsInFP : BitVec 32}
    (hfails : Java.parseInt 10 failsIn1 = some failsInFP) :
    (HDFailsFrom1.main (twoFiles text1 text2) "file1".toList "file2".toList failsIn1).run
        Totals.start =
      .ok failsInFP ⟨⟨[], []⟩, BitVec.ofNat 32 d.bytes.length,
        BitVec.ofNat 32 (total (List.zipWith (fun a b => ~~~a &&& b) d.bytes e.bytes))⟩ := by
  have hdiff : ∀ a b : BitVec 8, HDFailsFrom1.byteDiff (a.setWidth 32) (b.setWidth 32) =
      (~~~a &&& b).setWidth 32 := by
    intro a b
    apply BitVec.eq_of_getLsbD_eq
    intro i hi
    by_cases h : i < 8
    · simp [HDFailsFrom1.byteDiff, hi, h]
    · have hb : b.getLsbD i = false := BitVec.getLsbD_of_ge b i (Nat.le_of_not_lt h)
      simp [HDFailsFrom1.byteDiff, hi, hb]
  have hloop := run_counting hdiff hd he hshape Totals.start
  rw [HDFailsFrom1.main, openFileRead, openFileRead, twoFiles_file1, twoFiles_file2]
  simp only [pure_bind, hfails]
  rw [EStateM.run_bind, hloop, Totals.add_start]
  generalize BitVec.ofNat 32 (total _) = flips
  generalize BitVec.ofNat 32 _ = bytes
  rfl

theorem flips_hd_fails_from_1 {failsIn1 : Str} {failsInFP : BitVec 32}
    (hfails : Java.parseInt 10 failsIn1 = some failsInFP) :
    HDFailsFrom1.flips text1 text2 failsIn1 =
      some (BitVec.ofNat 32 (total (List.zipWith (fun a b => ~~~a &&& b) d.bytes e.bytes))) := by
  rw [HDFailsFrom1.flips, totalFlips, run_hd_fails_from_1 hd he hshape hfails]

end Redirect

end ProbableCause
