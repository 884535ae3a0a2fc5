import Mathlib.Data.List.Range
import ProbableCause.ResultProcessing.Dump

/-!
# `ResultProcessing.Aggregate` — `FlashDumpToAggregate`

The program counts how often each byte value occurs in a dump (`readPart`) and prints the counts in
bins of a given size: how many bytes fall into the bin and how many are above it (`binLoop`).
`Counted` ties the array and the total to the bytes read, and `main_eq` gives every line that is
printed. The bins partition the bytes (`bins_partition`) as long as the int counters hold the
numbers; `bins_overflow` is a dump that is too large.

The two quotients on a line are doubles: how one is written is the parameter `quotient`.
-/

namespace ProbableCause.FlashDumpToAggregate

open Text Java

/-! ## The program -/

def MAX_INCREMENTS : ℕ := 256

/-- The results read so far. -/
structure Results where
  resultArray : ℕ → BitVec 32
  resultCount : BitVec 32

/-- The body of the loop over the parts of a line. A part that is no number and an index out of
    bounds are exceptions. -/
def readPart (s : Results) (part : Str) : Option Results := do
  let index ← Java.parseInt 16 part
  if index.toNat < MAX_INCREMENTS then
    some
      { resultArray := fun result => s.resultArray result + if result = index.toNat then 1 else 0
        resultCount := s.resultCount + 1 }
  else none

/-- The lines that are not read. -/
def skips (line : Str) : Bool := Java.startsWith line "@".toList || line == "q".toList

/-- The body of the reading loop. -/
def readLine (s : Results) (line : Str) : Option Results :=
  if skips line then some s else (split line).foldlM readPart s

def readAll (text : Str) : Option Results := (lines text).foldlM readLine ⟨fun _ => 0, 0⟩

/-- The numbers on a line of the output. -/
structure Bin where
  seconds : BitVec 32
  bitsDecayedThisBin : BitVec 32
  totalBitsValid : BitVec 32

/-- The loop over the results of a bin. -/
def bitsDecayed (s : Results) (result numResultsPerBin : ℕ) : BitVec 32 :=
  (List.range' result (min (result + numResultsPerBin) MAX_INCREMENTS - result)).foldl
    (fun bitsDecayedThisBin subResult => bitsDecayedThisBin + s.resultArray subResult) 0

/-- The loop over the bins; `none` where it has not ended after as many rounds as there is fuel. A
    second round is made only with a bin size below 256, so that the ints `result` and
    `result + numResultsPerBin` never overflow. -/
def binLoop (s : Results) (increment : BitVec 32) (numResultsPerBin : ℕ) :
    ℕ → ℕ → BitVec 32 → Option (List Bin)
  | 0, _, _ => none
  | fuel + 1, result, totalBitsValid =>
    if result < MAX_INCREMENTS then
      let bitsDecayedThisBin := bitsDecayed s result numResultsPerBin
      let totalBitsValid := totalBitsValid - bitsDecayedThisBin
      (binLoop s increment numResultsPerBin fuel (result + numResultsPerBin) totalBitsValid).map
        (⟨BitVec.ofNat 32 result * increment, bitsDecayedThisBin, totalBitsValid⟩ :: ·)
    else some []

def Bin.print (quotient : BitVec 32 → BitVec 32 → Str) (resultCount : BitVec 32) (b : Bin) : Str :=
  ofInt b.seconds.toInt ++ " ".toList ++ ofInt b.bitsDecayedThisBin.toInt ++ " ".toList ++
    quotient b.bitsDecayedThisBin resultCount ++ " ".toList ++
    ofInt b.totalBitsValid.toInt ++ " ".toList ++ quotient b.totalBitsValid resultCount

/-- The numbers of the lines printed. -/
def bins (s : Results) (increment : BitVec 32) (numResultsPerBin : ℕ) : Option (List Bin) :=
  binLoop s increment numResultsPerBin (MAX_INCREMENTS + 1) 0 s.resultCount

/-- What the program prints for a file; `none` where it stops with an exception or not at all. -/
def main (quotient : BitVec 32 → BitVec 32 → Str) (text : Str) (increment : BitVec 32)
    (numResultsPerBin : ℕ) :
    Option Str := do
  let s ← readAll text
  let bs ← bins s increment numResultsPerBin
  some (unlines (bs.map (Bin.print quotient s.resultCount)))

/-! ## Reading -/

/-- The tokens of the lines that are read. -/
def tokens (file : List Str) : List Str :=
  file.flatMap fun line => if skips line then [] else split line

/-- How many bytes have a value from `lo` on and below `hi`. -/
def decayed (bytes : List (BitVec 8)) (lo hi : ℕ) : ℕ :=
  bytes.countP fun b => decide (lo ≤ b.toNat) && decide (b.toNat < hi)

/-- How many bytes have a value from `lo` on. -/
def valid (bytes : List (BitVec 8)) (lo : ℕ) : ℕ := bytes.countP fun b => decide (lo ≤ b.toNat)

/-- The array has the number of bytes of each value and the counter the number of all. -/
def Counted (s : Results) (bytes : List (BitVec 8)) : Prop :=
  (∀ value, s.resultArray value = BitVec.ofNat 32 (decayed bytes value (value + 1))) ∧
    s.resultCount = BitVec.ofNat 32 bytes.length

variable {s : Results} {bytes : List (BitVec 8)}

theorem foldlM_readLine (file : List Str) (s : Results) :
    file.foldlM readLine s = (tokens file).foldlM readPart s := by
  induction file generalizing s with
  | nil => rfl
  | cons line file ih =>
    rw [List.foldlM_cons, tokens, List.flatMap_cons, List.foldlM_append, readLine]
    split
    · exact ih s
    · exact congrArg _ (funext ih)

theorem decayed_append (bytes bytes' : List (BitVec 8)) (lo hi : ℕ) :
    decayed (bytes ++ bytes') lo hi = decayed bytes lo hi + decayed bytes' lo hi := List.countP_append

/-- Reading a byte counts it. -/
theorem Counted.readPart (h : Counted s bytes) {part : Str} {b : BitVec 8}
    (hb : hexByte? part = some b) :
    ∃ s', readPart s part = some s' ∧ Counted s' (bytes ++ [b]) := by
  have hindex : (b.setWidth 32).toNat = b.toNat := by
    rw [BitVec.toNat_setWidth, Nat.mod_eq_of_lt (by omega)]
  have hbounds : (b.setWidth 32).toNat < MAX_INCREMENTS := by
    rw [hindex]
    exact b.isLt
  refine ⟨⟨fun result => s.resultArray result + if result = (b.setWidth 32).toNat then 1
    else 0, s.resultCount + 1⟩, ?_, ?_, ?_⟩
  · rw [FlashDumpToAggregate.readPart, parseInt_of_hexByte hb, Option.bind_eq_bind,
      Option.bind_some, if_pos hbounds]
  · intro value
    have hone : decayed [b] value (value + 1) = if value = b.toNat then 1 else 0 := by
      rw [decayed, List.countP_singleton]
      split <;> simp_all <;> omega
    dsimp only
    rw [h.1, hindex, decayed_append, hone, BitVec.ofNat_add]
    split <;> rfl
  · rw [h.2, List.length_append, BitVec.ofNat_add]
    rfl

/-- Reading all bytes. -/
theorem Counted.foldlM {parts : List Str} {bytes' : List (BitVec 8)}
    (hparts : List.Forall₂ (fun t b => hexByte? t = some b) parts bytes') :
    ∀ {s : Results} {bytes : List (BitVec 8)}, Counted s bytes →
      ∃ s', parts.foldlM FlashDumpToAggregate.readPart s = some s' ∧
        Counted s' (bytes ++ bytes') := by
  induction hparts with
  | nil => exact fun h => ⟨_, rfl, by rwa [List.append_nil]⟩
  | cons hb _ ih =>
    intro s bytes h
    obtain ⟨s', hs', hcounted⟩ := h.readPart hb
    obtain ⟨s'', hs'', hall⟩ := ih hcounted
    refine ⟨s'', ?_, ?_⟩
    · rw [List.foldlM_cons, hs']
      exact hs''
    · rwa [List.append_assoc] at hall

theorem counted_readAll {text : Str} (hbytes : (tokens (lines text)).mapM hexByte? = some bytes) :
    ∃ s, readAll text = some s ∧ Counted s bytes := by
  have hstart : Counted ⟨fun _ => 0, 0⟩ [] := ⟨fun _ => rfl, rfl⟩
  obtain ⟨s, hs, hcounted⟩ := hstart.foldlM (mapM_eq_some_iff.mp hbytes)
  exact ⟨s, by rw [readAll, foldlM_readLine, hs], hcounted⟩

/-! ## The bins -/

/-- A range and the values above it. -/
theorem decayed_add_valid (bytes : List (BitVec 8)) {lo hi : ℕ} (h : lo ≤ hi) :
    decayed bytes lo hi + valid bytes hi = valid bytes lo := by
  induction bytes with
  | nil => rfl
  | cons b bytes ih =>
    simp only [decayed, valid, List.countP_cons, Bool.and_eq_true, decide_eq_true_eq] at ih ⊢
    split_ifs <;> omega

/-- The loop over the results of a bin, after some rounds. -/
theorem decayed_succ (bytes : List (BitVec 8)) (lo len : ℕ) :
    decayed bytes lo (lo + len + 1) = decayed bytes lo (lo + len) + decayed bytes (lo + len)
      (lo + len + 1) := by
  have hall := decayed_add_valid bytes (show lo ≤ lo + len + 1 by omega)
  have hfirst := decayed_add_valid bytes (show lo ≤ lo + len by omega)
  have hlast := decayed_add_valid bytes (show lo + len ≤ lo + len + 1 by omega)
  omega

theorem foldl_resultArray (h : Counted s bytes) (lo len : ℕ) :
    (List.range' lo len).foldl (fun bits subResult => bits + s.resultArray subResult) 0 =
      BitVec.ofNat 32 (decayed bytes lo (lo + len)) := by
  induction len with
  | zero =>
    have hnone : decayed bytes lo (lo + 0) = 0 := by
      rw [decayed, List.countP_eq_zero]
      simp
    rw [hnone]
    rfl
  | succ len ih =>
    rw [List.range'_concat, List.foldl_append, ih, Nat.one_mul, List.foldl_cons, List.foldl_nil,
      h.1, ← Nat.add_assoc, decayed_succ, BitVec.ofNat_add]

/-- Nothing is above the largest byte. -/
theorem valid_eq_zero (bytes : List (BitVec 8)) {lo : ℕ} (h : 256 ≤ lo) : valid bytes lo = 0 := by
  rw [valid, List.countP_eq_zero]
  intro b _
  have hb : b.toNat < 256 := b.isLt
  simp only [decide_eq_true_eq]
  omega

theorem bitsDecayed_eq (h : Counted s bytes) {result : ℕ} (hresult : result < 256) (n : ℕ) :
    bitsDecayed s result n = BitVec.ofNat 32 (decayed bytes result (result + n)) := by
  rw [bitsDecayed, foldl_resultArray h]
  congr 1
  have hmin : result + (min (result + n) MAX_INCREMENTS - result) = min (result + n) 256 := by
    rw [MAX_INCREMENTS]
    omega
  rw [hmin]
  by_cases hfull : result + n ≤ 256
  · rw [Nat.min_eq_left hfull]
  · -- the last bin is cut off, where there are no bytes
    have hcut := decayed_add_valid bytes (show result ≤ 256 by omega)
    have hwhole := decayed_add_valid bytes (show result ≤ result + n by omega)
    rw [valid_eq_zero bytes (Nat.le_refl 256)] at hcut
    rw [valid_eq_zero bytes (show 256 ≤ result + n by omega)] at hwhole
    rw [Nat.min_eq_right (by omega)]
    omega

/-- The numbers of the line whose bin starts at `result`. -/
def binAt (bytes : List (BitVec 8)) (increment : BitVec 32) (n result : ℕ) : Bin :=
  ⟨BitVec.ofNat 32 result * increment, BitVec.ofNat 32 (decayed bytes result (result + n)),
    BitVec.ofNat 32 (valid bytes (result + n))⟩

/-- How many bins there are from `result` on. -/
def numBins (n result : ℕ) : ℕ := (256 - result + n - 1) / n

theorem numBins_of_lt {n result : ℕ} (hn : 0 < n) (h : result < 256) :
    numBins n result = numBins n (result + n) + 1 := by
  rw [numBins, numBins]
  by_cases hlast : 256 ≤ result + n
  · have hone : (256 - result + n - 1) / n = 1 := by
      rw [Nat.div_eq_iff hn]
      omega
    have hzero : (256 - (result + n) + n - 1) / n = 0 := Nat.div_eq_of_lt (by omega)
    rw [hone, hzero]
  · have hnext : 256 - result + n - 1 = 256 - (result + n) + n - 1 + n := by omega
    rw [hnext, Nat.add_div_right _ hn]

theorem numBins_of_le {n result : ℕ} (hn : 0 < n) (h : 256 ≤ result) : numBins n result = 0 := by
  rw [numBins]
  exact Nat.div_eq_of_lt (by omega)

/-- **The loop over the bins.** -/
theorem binLoop_eq (h : Counted s bytes) (increment : BitVec 32) {n : ℕ} (hn : 0 < n)
    {fuel result : ℕ} (hfuel : 256 - result < fuel) :
    binLoop s increment n fuel result (BitVec.ofNat 32 (valid bytes result)) =
      some ((List.range (numBins n result)).map fun k => binAt bytes increment n
        (result + k * n)) := by
  induction fuel generalizing result with
  | zero => exact absurd hfuel (Nat.not_lt_zero _)
  | succ fuel ih =>
    rw [binLoop]
    split
    · rename_i hresult
      have hresult : result < 256 := hresult
      have htotal : BitVec.ofNat 32 (valid bytes result) - bitsDecayed s result n =
          BitVec.ofNat 32 (valid bytes (result + n)) := by
        rw [bitsDecayed_eq h hresult, ← decayed_add_valid bytes (Nat.le_add_right result n),
          BitVec.ofNat_add, BitVec.add_comm, BitVec.add_sub_cancel]
      dsimp only
      rw [htotal, ih (by omega), Option.map_some, numBins_of_lt hn hresult,
        List.range_succ_eq_map, List.map_cons, List.map_map, bitsDecayed_eq h hresult]
      congr 2
      · rw [Nat.zero_mul]
        rfl
      · apply List.map_congr_left
        intro k _
        rw [Function.comp_apply, Nat.succ_mul, Nat.add_assoc, Nat.add_comm n]
    · rename_i hresult
      have hresult : 256 ≤ result := Nat.le_of_not_lt hresult
      rw [numBins_of_le hn hresult]
      rfl

theorem readAll_bins {text : Str} (hbytes : (tokens (lines text)).mapM hexByte? = some bytes)
    (increment : BitVec 32) {n : ℕ} (hn : 0 < n) :
    ∃ s, readAll text = some s ∧ s.resultCount = BitVec.ofNat 32 bytes.length ∧
      bins s increment n =
        some ((List.range (numBins n 0)).map fun k => binAt bytes increment n (k * n)) := by
  obtain ⟨s, hread, hcounted⟩ := counted_readAll hbytes
  have hall : valid bytes 0 = bytes.length := List.countP_eq_length.mpr fun b _ => by simp
  have hloop := binLoop_eq hcounted increment hn (show 256 - 0 < 257 by decide)
  simp only [Nat.zero_add, hall] at hloop
  exact ⟨s, hread, hcounted.2, by rw [bins, hcounted.2]; exact hloop⟩

/-- What is printed, in numbers. -/
theorem main_eq (quotient : BitVec 32 → BitVec 32 → Str) {text : Str}
    (hbytes : (tokens (lines text)).mapM hexByte? = some bytes) (increment : BitVec 32)
    {n : ℕ} (hn : 0 < n) :
    main quotient text increment n =
      some (unlines (((List.range (numBins n 0)).map fun k => binAt bytes increment n (k * n)).map
        (Bin.print quotient (BitVec.ofNat 32 bytes.length)))) := by
  obtain ⟨s, hread, hcount, hbins⟩ := readAll_bins hbytes increment hn
  rw [main, hread, Option.bind_eq_bind, Option.bind_some, hbins, Option.bind_eq_bind,
    Option.bind_some, hcount]

/-- Every byte falls into one bin. -/
theorem exists_unique_bin {n : ℕ} (hn : 0 < n) (b : BitVec 8) :
    ∃! k, k < numBins n 0 ∧ k * n ≤ b.toNat ∧ b.toNat < (k + 1) * n := by
  have hb : b.toNat < 256 := b.isLt
  have hlow : b.toNat / n * n ≤ b.toNat := Nat.div_mul_le_self _ _
  have hhigh : b.toNat < (b.toNat / n + 1) * n := by
    rw [Nat.mul_comm]
    exact Nat.lt_mul_div_succ _ hn
  refine ⟨b.toNat / n, ⟨?_, hlow, hhigh⟩, ?_⟩
  · rw [numBins]
    apply (Nat.le_div_iff_mul_le hn).mpr
    rw [Nat.succ_mul]
    omega
  · rintro k ⟨-, hk, hk'⟩
    exact (Nat.div_eq_of_lt_le hk hk').symm

/-- The last bin ends above all bytes. -/
theorem le_numBins_mul {n : ℕ} (hn : 0 < n) : 256 ≤ numBins n 0 * n := by
  have hnext : 256 + n - 1 < n * ((256 + n - 1) / n + 1) := Nat.lt_mul_div_succ _ hn
  rw [Nat.mul_comm, Nat.succ_mul] at hnext
  rw [numBins]
  simp only [Nat.sub_zero]
  omega

/-- **The bins partition the bytes**, if the counters hold their number: each byte is in one bin,
    every line has the number of bytes in its bin and of those above it, and nothing is left above
    the last. -/
theorem bins_partition (quotient : BitVec 32 → BitVec 32 → Str) {text : Str}
    (hbytes : (tokens (lines text)).mapM hexByte? = some bytes) (hfit : bytes.length < 2 ^ 31)
    (increment : BitVec 32) {n : ℕ} (hn : 0 < n) :
    ∃ bs : List Bin,
      main quotient text increment n =
        some (unlines (bs.map (Bin.print quotient (BitVec.ofNat 32 bytes.length)))) ∧
      (∀ b : BitVec 8, ∃! k, k < bs.length ∧ k * n ≤ b.toNat ∧ b.toNat < (k + 1) * n) ∧
      (∀ (k : ℕ) (bin : Bin), bs[k]? = some bin →
        bin.bitsDecayedThisBin.toInt = decayed bytes (k * n) ((k + 1) * n) ∧
        bin.totalBitsValid.toInt = valid bytes ((k + 1) * n)) ∧
      ∃ last, bs.getLast? = some last ∧ last.totalBitsValid = 0 := by
  refine ⟨_, main_eq quotient hbytes increment hn, ?_, ?_, ?_⟩
  · intro b
    rw [List.length_map, List.length_range]
    exact exists_unique_bin hn b
  · intro k bin hbin
    have hk : k < numBins n 0 := by
      have hlt := (List.getElem?_eq_some_iff.mp hbin).1
      rwa [List.length_map, List.length_range] at hlt
    rw [List.getElem?_map, List.getElem?_range hk, Option.map_some, Option.some.injEq] at hbin
    subst hbin
    have hdecayed : decayed bytes (k * n) (k * n + n) < 2 ^ 31 := List.countP_le_length.trans_lt hfit
    have hvalid : valid bytes (k * n + n) < 2 ^ 31 := List.countP_le_length.trans_lt hfit
    rw [Nat.succ_mul]
    exact ⟨toInt_ofNat_of_lt hdecayed, toInt_ofNat_of_lt hvalid⟩
  · have hend := le_numBins_mul hn
    cases hnum : numBins n 0 with
    | zero =>
      rw [hnum] at hend
      omega
    | succ m =>
      rw [hnum, Nat.succ_mul] at hend
      refine ⟨binAt bytes increment n (m * n), ?_, ?_⟩
      · rw [List.range_succ, List.map_append, List.map_singleton, List.getLast?_append_of_ne_nil]
        · rfl
        · exact List.cons_ne_nil _ _
      · rw [binAt, valid_eq_zero bytes hend]
        rfl

/-- Three bytes in bins of a hundred, the last of which is cut off. -/
theorem bins_partition_three :
    ∃ bs : List Bin,
      main (fun _ _ => []) "@3600\n00 63\nFF\nq\n".toList 10 100 =
        some (unlines (bs.map (Bin.print (fun _ _ => []) (BitVec.ofNat 32 3)))) ∧
      (∀ b : BitVec 8, ∃! k, k < bs.length ∧ k * 100 ≤ b.toNat ∧ b.toNat < (k + 1) * 100) ∧
      (∀ (k : ℕ) (bin : Bin), bs[k]? = some bin →
        bin.bitsDecayedThisBin.toInt = decayed [0x00, 0x63, 0xFF] (k * 100) ((k + 1) * 100) ∧
        bin.totalBitsValid.toInt = valid [0x00, 0x63, 0xFF] ((k + 1) * 100)) ∧
      ∃ last, bs.getLast? = some last ∧ last.totalBitsValid = 0 :=
  bins_partition (fun _ _ => []) (by decide) (by decide) 10 (by decide)

/-! ## Too many bytes -/

/-- Lines with two bytes `FF`. -/
theorem tokens_replicate (k : ℕ) :
    (tokens (lines (unlines (List.replicate k "FF FF".toList)))).mapM hexByte? =
      some (List.replicate (2 * k) 0xFF) := by
  have hline : ∀ l ∈ List.replicate k "FF FF".toList, OneLine l := by
    intro l hl
    rw [List.eq_of_mem_replicate hl]
    decide
  rw [lines_unlines hline]
  induction k with
  | zero => rfl
  | succ k ih =>
    have hfirst : (if skips "FF FF".toList then [] else split "FF FF".toList) =
      ["FF".toList, "FF".toList] := by decide
    have hbyte : hexByte? "FF".toList = some 0xFF := by decide
    have hrest := ih fun l hl => hline l (List.replicate_succ ▸ List.mem_cons_of_mem _ hl)
    rw [tokens] at hrest ⊢
    rw [List.replicate_succ, List.flatMap_cons, hfirst, List.cons_append, List.cons_append,
      List.nil_append, List.mapM_cons, List.mapM_cons, hrest, hbyte]
    rfl

/-- **The counters overflow** on `2 ^ 31` bytes `FF`: all of them are above the first bin, and the
    line of that bin says `-2147483648`. -/
theorem bins_overflow :
    (tokens (lines (unlines (List.replicate (2 ^ 30) "FF FF".toList)))).mapM hexByte? =
        some (List.replicate (2 * 2 ^ 30) 0xFF) ∧
      valid (List.replicate (2 * 2 ^ 30) 0xFF) 1 = 2147483648 ∧
      ∃ bs : List Bin,
        main (fun _ _ => []) (unlines (List.replicate (2 ^ 30) "FF FF".toList)) 1 1 =
          some (unlines (bs.map (Bin.print (fun _ _ => []) (BitVec.ofNat 32 (2 * 2 ^ 30))))) ∧
        ∃ bin, bs[0]? = some bin ∧ bin.totalBitsValid.toInt = -2147483648 := by
  have hvalid : ∀ m : ℕ, valid (List.replicate m 0xFF) 1 = m := by
    intro m
    rw [valid, List.countP_replicate]
    rfl
  have hmain := main_eq (fun _ _ => []) (tokens_replicate (2 ^ 30)) 1 Nat.one_pos
  rw [List.length_replicate] at hmain
  refine ⟨tokens_replicate _, hvalid _, _, hmain,
    binAt (List.replicate (2 * 2 ^ 30) 0xFF) 1 1 0, ?_, ?_⟩
  · rw [List.getElem?_map, List.getElem?_range (by decide)]
    rfl
  · rw [binAt, hvalid]
    decide

end ProbableCause.FlashDumpToAggregate
