import Mathlib.Data.List.Forall2
import Mathlib.Data.List.GetD
import ProbableCause.Lib.Java

/-!
# `ResultProcessing.Dump` — the text format of error maps and images

The result-processing programs exchange text files: lines of two-digit hexadecimal bytes, between
lines that carry no data (the address at the top, the `q` at the end). `readDump` reads such a text
as a `Dump`, a list of lines whose invariant is that a data line has at least two bytes
(`ignoreLine` takes a shorter one for a line without data), and `Dump.print` writes one.
`readDump_print` is the round trip.

`Dump.zip` combines two dumps byte by byte and `Dump.mapIdx` changes the bytes of one. Both keep the
`shape`, which lines carry data and how many bytes, and the texts of the other lines (`ignored`);
two dumps that are combined agree in the shape, but not in these texts, of which the first dump's
are kept.
-/

namespace ProbableCause

open Text Java

/-! ## Bytes -/

/-- The value of a hexadecimal digit of the ASCII range. -/
def hexDigit? (c : Char) : Option ℕ := if c.toNat < 128 then digit 16 c else none

/-- The byte that a token of two hexadecimal digits denotes. -/
def hexByte? : Str → Option (BitVec 8)
  | [high, low] => do
    let h ← hexDigit? high
    let l ← hexDigit? low
    some (BitVec.ofNat 8 (16 * h + l))
  | _ => none

/-- `%02X`. -/
def byteToken (b : BitVec 8) : Str := upperHex 2 b.toNat

theorem upperHex_two {n : ℕ} (hn : n < 256) :
    upperHex 2 n = [(n / 16).digitChar.toUpper, (n % 16).digitChar.toUpper] := by
  by_cases h : n < 16
  · have hhigh : n / 16 = 0 := Nat.div_eq_of_lt h
    rw [upperHex, Nat.toDigits_of_lt_base h, hhigh, Nat.mod_eq_of_lt h]
    rfl
  · have hhigh : n / 16 < 16 := by omega
    rw [upperHex, Nat.toDigits_of_base_le (by decide) (by omega), Nat.toDigits_of_lt_base hhigh]
    rfl

theorem byteToken_eq (b : BitVec 8) :
    byteToken b = [(b.toNat / 16).digitChar.toUpper, (b.toNat % 16).digitChar.toUpper] :=
  upperHex_two b.isLt

theorem hexDigit?_eq_some {c : Char} {d : ℕ} (h : hexDigit? c = some d) :
    c.toNat < 128 ∧ digit 16 c = some d :=
  Option.ite_none_right_eq_some.mp h

theorem hexDigit?_digitChar {d : ℕ} (hd : d < 16) : hexDigit? d.digitChar.toUpper = some d := by
  have hvalues : ∀ d < 16, hexDigit? d.digitChar.toUpper = some d := by decide
  exact hvalues d hd

/-- Reading a token gives back the byte. -/
@[simp] theorem hexByte?_byteToken (b : BitVec 8) : hexByte? (byteToken b) = some b := by
  have hb : b.toNat < 256 := b.isLt
  have hhigh : b.toNat / 16 < 16 := by omega
  have hlow : b.toNat % 16 < 16 := by omega
  have hsum : 16 * (b.toNat / 16) + b.toNat % 16 = b.toNat := Nat.div_add_mod _ _
  rw [byteToken_eq, hexByte?, hexDigit?_digitChar hhigh, hexDigit?_digitChar hlow]
  simp [hsum]

theorem isSome_byteToken (b : BitVec 8) : (hexByte? (byteToken b)).isSome :=
  Option.isSome_iff_exists.mpr ⟨b, hexByte?_byteToken b⟩

/-- A token of two hexadecimal digits is the numeral of its byte. -/
theorem parseInt_of_hexByte {t : Str} {b : BitVec 8} (h : hexByte? t = some b) :
    Java.parseInt 16 t = some (b.setWidth 32) := by
  obtain ⟨high, low, rfl⟩ : ∃ high low, t = [high, low] := by
    unfold hexByte? at h
    split at h
    · exact ⟨_, _, rfl⟩
    · cases h
  simp only [hexByte?, Option.bind_eq_bind, Option.bind_eq_some_iff] at h
  obtain ⟨h', hhigh, l', hlow, hval⟩ := h
  have hhigh := (hexDigit?_eq_some hhigh).2
  have hlow := (hexDigit?_eq_some hlow).2
  have hsmall : h' < 16 ∧ l' < 16 := ⟨lt_of_digit hhigh, lt_of_digit hlow⟩
  have hminus : high ≠ '-' := by
    rintro rfl
    rw [show digit 16 '-' = none by decide] at hhigh
    cases hhigh
  have hplus : high ≠ '+' := by
    rintro rfl
    rw [show digit 16 '+' = none by decide] at hhigh
    cases hhigh
  have hread : parseUnsigned 16 [high, low] = some (16 * h' + l') := by
    simp [parseUnsigned, readDigits, hhigh, hlow]
  have hfit : 16 * h' + l' < 2 ^ 31 := by omega
  rw [Java.parseInt, parse_of_digit hminus hplus, hread, Option.bind_some, if_pos hfit,
    ← Option.some.inj hval]
  congr 1
  apply BitVec.eq_of_toNat_eq
  simp only [BitVec.toNat_ofNat, BitVec.toNat_setWidth]
  omega

/-- A hexadecimal digit is visible and is none of the characters that mark a line. -/
theorem hexDigit_chars {c : Char} (hc : hexDigit? c ≠ none) :
    32 < c.toNat ∧ isBreak c = false ∧ c ≠ '@' ∧ c ≠ 'q' := by
  obtain ⟨d, hd⟩ := Option.ne_none_iff_exists'.mp hc
  have hvalue := toNat_of_digit (Option.ne_none_iff_exists'.mpr ⟨d, (hexDigit?_eq_some hd).2⟩)
  have hne : ∀ d : Char, hexDigit? d = none → c ≠ d := by
    rintro d hd rfl
    exact hc hd
  exact ⟨by omega, isBreak_eq_false (hne _ (by decide)) (hne _ (by decide)), hne _ (by decide),
    hne _ (by decide)⟩

/-- The characters of a byte token are hexadecimal digits. -/
theorem hexByte_chars {t : Str} (h : (hexByte? t).isSome) {c : Char} (hc : c ∈ t) :
    32 < c.toNat ∧ isBreak c = false ∧ c ≠ '@' ∧ c ≠ 'q' := by
  apply hexDigit_chars
  unfold hexByte? at h
  split at h
  · rename_i high low
    simp only [Option.bind_eq_bind, Option.isSome_bind, Option.any_eq_true_iff_get] at h
    obtain ⟨hhigh, hlow, -⟩ := h
    rcases List.mem_cons.mp hc with rfl | hc
    · exact Option.isSome_iff_ne_none.mp hhigh
    · rw [List.mem_singleton.mp hc]
      exact Option.isSome_iff_ne_none.mp hlow
  · contradiction

/-! ## Lines -/

/-- `ignoreLine`. -/
def ignoreLine (pLine : Str) : Bool :=
  "@".toList.isPrefixOf pLine || decide (Java.length (trim pLine) < 5) || "q".toList.isPrefixOf pLine

/-- A line of a dump. -/
inductive Line where
  | ignored (text : Str)
  | data (bytes : List (BitVec 8))
  deriving DecidableEq

namespace Line

/-- What a line of a dump can be. -/
def Proper : Line → Prop
  | ignored text => ignoreLine text = true ∧ OneLine text
  | data bytes => 2 ≤ bytes.length

instance : DecidablePred Proper
  | ignored text => inferInstanceAs (Decidable (ignoreLine text = true ∧ OneLine text))
  | data bytes => inferInstanceAs (Decidable (2 ≤ bytes.length))

/-- The line as the programs print it. -/
def print : Line → Str
  | ignored text => text
  | data bytes => unwords (bytes.map byteToken)

/-- What two dumps have to agree on for the programs to compare them: whether a line carries data,
    and how many bytes. -/
def shape : Line → Option ℕ
  | ignored _ => none
  | data bytes => some bytes.length

/-- The text of a line without data. -/
def text? : Line → Option Str
  | ignored text => some text
  | data _ => none

/-- The data bytes. -/
def bytes : Line → List (BitVec 8)
  | ignored _ => []
  | data bytes => bytes

end Line

/-- Reading a line; `none` where a token of a data line is no two-digit byte. -/
def readLine (l : Str) : Option Line :=
  if ignoreLine l then some (.ignored l) else ((split l).mapM hexByte?).map .data

theorem oneLine_unwords {ts : List Str} (h : ∀ t ∈ ts, OneLine t) : OneLine (unwords ts) := by
  induction ts with
  | nil => intro c hc; simp [unwords] at hc
  | cons t ts ih =>
    have ht : OneLine t := h t List.mem_cons_self
    cases ts with
    | nil => rwa [unwords_singleton]
    | cons t' ts =>
      intro c hc
      rw [unwords_cons_cons] at hc
      rcases List.mem_append.mp hc with hc | hc
      · exact ht c hc
      · rcases List.mem_cons.mp hc with rfl | hc
        · rfl
        · exact ih (fun x hx => h x (List.mem_cons_of_mem _ hx)) c hc

theorem oneLine_print {l : Line} (h : l.Proper) : OneLine l.print := by
  cases l with
  | ignored text => exact h.2
  | data bytes =>
    apply oneLine_unwords
    intro t ht c hc
    obtain ⟨b, -, rfl⟩ := List.mem_map.mp ht
    exact (hexByte_chars (isSome_byteToken b) hc).2.1

theorem unwords_ne_nil {ts : List Str} (hne : ts ≠ []) (h : ∀ t ∈ ts, t ≠ []) : unwords ts ≠ [] := by
  match ts, hne with
  | [t], _ => simpa using h t List.mem_cons_self
  | t :: t' :: ts, _ => simp [unwords_cons_cons]

/-- A line of tokens ends with a character of a token. -/
theorem mem_of_mem_getLast?_unwords {ts : List Str} (h : ∀ t ∈ ts, t ≠ []) {c : Char}
    (hc : c ∈ (unwords ts).getLast?) : ∃ t ∈ ts, c ∈ t := by
  induction ts with
  | nil => simp [unwords] at hc
  | cons t ts ih =>
    cases ts with
    | nil =>
      rw [unwords_singleton] at hc
      exact ⟨t, List.mem_cons_self, List.mem_of_getLast? hc⟩
    | cons t' ts =>
      have hts : ∀ t ∈ t' :: ts, t ≠ [] := fun x hx => h x (List.mem_cons_of_mem _ hx)
      have hne : unwords (t' :: ts) ≠ [] := unwords_ne_nil (List.cons_ne_nil _ _) hts
      rw [unwords_cons_cons, List.getLast?_append_cons, List.getLast?_cons_of_ne_nil hne] at hc
      obtain ⟨x, hx, hcx⟩ := ih hts hc
      exact ⟨x, List.mem_cons_of_mem _ hx, hcx⟩

theorem length_of_hexByte {t : Str} (h : (hexByte? t).isSome) : t.length = 2 := by
  unfold hexByte? at h
  split at h
  · rfl
  · cases h

theorem ne_nil_of_hexByte {t : Str} (h : (hexByte? t).isSome) : t ≠ [] :=
  List.ne_nil_of_length_pos (by rw [length_of_hexByte h]; decide)

theorem length_unwords_hexBytes {t : Str} {ts : List Str} (h : ∀ u ∈ t :: ts, (hexByte? u).isSome) :
    (unwords (t :: ts)).length = 3 * ts.length + 2 := by
  induction ts generalizing t with
  | nil => rw [unwords_singleton, length_of_hexByte (h t List.mem_cons_self)]; rfl
  | cons t' ts ih =>
    have htail := ih fun u hu => h u (List.mem_cons_of_mem _ hu)
    rw [unwords_cons_cons, List.length_append, length_of_hexByte (h t List.mem_cons_self),
      List.length_cons, htail, List.length_cons]
    omega

/-- A printed data line is a data line again: it has five characters or more. -/
theorem ignoreLine_unwords {ts : List Str} (hlength : 2 ≤ ts.length)
    (h : ∀ t ∈ ts, (hexByte? t).isSome) :
    ignoreLine (unwords ts) = false := by
  match ts, hlength with
  | t :: t' :: ts, _ =>
    -- the first character and the last one belong to tokens
    obtain ⟨c, rest, hline, hfirst⟩ : ∃ c rest, unwords (t :: t' :: ts) = c :: rest ∧ c ∈ t := by
      obtain ⟨c, cs, rfl⟩ := List.exists_cons_of_ne_nil (ne_nil_of_hexByte (h t List.mem_cons_self))
      rw [unwords_cons_cons]
      exact ⟨c, _, rfl, List.mem_cons_self⟩
    have hchars := hexByte_chars (h t List.mem_cons_self) hfirst
    have hlast : ∀ c ∈ (unwords (t :: t' :: ts)).getLast?, 32 < c.toNat := by
      intro c hc
      obtain ⟨u, hu, hcu⟩ := mem_of_mem_getLast?_unwords (fun u hu => ne_nil_of_hexByte (h u hu)) hc
      exact (hexByte_chars (h u hu) hcu).1
    have htrim : trim (unwords (t :: t' :: ts)) = unwords (t :: t' :: ts) := by
      apply trim_eq_self _ hlast
      intro c' hc'
      rw [hline] at hc'
      obtain rfl : c = c' := by simpa using hc'
      exact hchars.1
    have hlong := length_le (unwords (t :: t' :: ts))
    have hlength := length_unwords_hexBytes h
    rw [List.length_cons] at hlength
    rw [ignoreLine, htrim, Bool.or_eq_false_iff, Bool.or_eq_false_iff]
    refine ⟨⟨?_, ?_⟩, ?_⟩
    · rw [hline]
      simpa [List.isPrefixOf] using fun h => hchars.2.2.1 h.symm
    · simp only [decide_eq_false_iff_not, Nat.not_lt]
      omega
    · rw [hline]
      simpa [List.isPrefixOf] using fun h => hchars.2.2.2 h.symm

theorem space_notMem_of_hexByte {t : Str} (h : (hexByte? t).isSome) : ' ' ∉ t := by
  intro hc
  exact absurd (hexByte_chars h hc).1 (by decide)

theorem split_unwords_hexBytes {ts : List Str} (hne : ts ≠ []) (h : ∀ t ∈ ts, (hexByte? t).isSome) :
    split (unwords ts) = ts :=
  split_unwords hne fun t ht => ⟨ne_nil_of_hexByte (h t ht), space_notMem_of_hexByte (h t ht)⟩

theorem oneLine_hexBytes {ts : List Str} (h : ∀ t ∈ ts, (hexByte? t).isSome) : OneLine (unwords ts) :=
  oneLine_unwords fun t ht _ hc => (hexByte_chars (h t ht) hc).2.1

/-- **A data line has two bytes or more**: with fewer, it has less than five characters. -/
theorem two_le_length {l : Str} (hdata : ignoreLine l = false) {bytes : List (BitVec 8)}
    (h : (split l).mapM hexByte? = some bytes) : 2 ≤ bytes.length := by
  by_contra hfew
  have htokens := mapM_eq_some_iff.mp h
  have hshort : ∃ t : Str, t.length ≤ 2 ∧ (split l = [] ∧ t = [] ∨ split l = [t]) := by
    match hs : split l with
    | [] => exact ⟨[], by simp, .inl ⟨rfl, rfl⟩⟩
    | [t] =>
      rw [hs] at htokens
      cases htokens with
      | cons ht _ =>
        exact ⟨t, (length_of_hexByte (Option.isSome_iff_exists.mpr ⟨_, ht⟩)).le, .inr rfl⟩
    | t :: t' :: ts =>
      have hlength := htokens.length_eq
      rw [hs, List.length_cons, List.length_cons] at hlength
      omega
  obtain ⟨t, ht, hsplit⟩ := hshort
  obtain ⟨k, rfl⟩ := eq_append_replicate_of_split hsplit
  have htrim := length_trim_append_replicate t k
  have hunits := length_le_two_mul (trim (t ++ List.replicate k ' '))
  simp only [ignoreLine, Bool.or_eq_false_iff, decide_eq_false_iff_not] at hdata
  omega

theorem proper_of_readLine {s : Str} {l : Line} (hs : OneLine s)
    (h : readLine s = some l) : l.Proper := by
  rw [readLine] at h
  split at h
  · rename_i hi
    obtain rfl := Option.some.inj h
    exact ⟨hi, hs⟩
  · rename_i hi
    obtain ⟨bytes, hbytes, rfl⟩ := Option.map_eq_some_iff.mp h
    exact two_le_length (Bool.eq_false_iff.mpr hi) hbytes

/-- **Reading back a printed line.** -/
theorem readLine_print {l : Line} (h : l.Proper) : readLine l.print = some l := by
  cases l with
  | ignored text => rw [readLine, Line.print, if_pos h.1]
  | data bytes =>
    have hne : bytes.map byteToken ≠ [] := by
      rintro hnil
      rw [List.map_eq_nil_iff.mp hnil] at h
      exact absurd h (by simp [Line.Proper])
    have htokens : ∀ t ∈ bytes.map byteToken, (hexByte? t).isSome :=
      List.forall_mem_map.mpr fun b _ =>
      isSome_byteToken b
    have hlength : 2 ≤ (bytes.map byteToken).length := by rwa [List.length_map]
    have hbytes : (bytes.map byteToken).mapM hexByte? = some bytes := by
      rw [mapM_eq_some_iff, List.forall₂_map_left_iff]
      exact List.forall₂_same.mpr fun b _ => hexByte?_byteToken b
    rw [readLine, Line.print, ignoreLine_unwords hlength htokens,
      split_unwords_hexBytes hne htokens, hbytes]
    rfl

/-! ## Dumps -/

/-- A dump: lines that can stand in a text. -/
@[ext] structure Dump where
  lines : List Line
  proper : ∀ l ∈ lines, l.Proper

theorem proper_of_forall₂ {ts : List Str} {ls : List Line} (hts : ∀ t ∈ ts, OneLine t)
    (h : List.Forall₂ (fun t l => readLine t = some l) ts ls) : ∀ l ∈ ls, l.Proper := by
  induction h with
  | nil => simp
  | cons hl _ ih =>
    intro l' hl'
    rcases List.mem_cons.mp hl' with rfl | hl'
    · exact proper_of_readLine (hts _ List.mem_cons_self) hl
    · exact ih (fun t ht => hts t (List.mem_cons_of_mem _ ht)) l' hl'

theorem proper_of_mapM {s : Str} {ls : List Line} (h : (Java.lines s).mapM readLine = some ls) :
    ∀ l ∈ ls, l.Proper :=
  proper_of_forall₂ (fun _ ht => oneLine_of_mem_lines ht) (mapM_eq_some_iff.mp h)

/-- **Reading a dump**; `none` where a data line has a token that is no two-digit byte. -/
def readDump (s : Str) : Option Dump :=
  match h : (Java.lines s).mapM readLine with
  | none => none
  | some ls => some ⟨ls, proper_of_mapM h⟩

theorem readDump_eq_some_iff {s : Str} {d : Dump} :
    readDump s = some d ↔ List.Forall₂ (fun t l => readLine t = some l) (Java.lines s) d.lines := by
  rw [← mapM_eq_some_iff, readDump]
  split
  · rename_i h
    simp [h]
  · rename_i ls h
    have hread : (Java.lines s).mapM readLine = some d.lines ↔ ls = d.lines := by simp [h]
    rw [hread, Option.some.injEq, Dump.ext_iff]

namespace Dump

variable {d e : Dump}

/-- The text the programs print for a dump. -/
def print (d : Dump) : Str := unlines (d.lines.map Line.print)

/-- Which lines carry no data, and the number of bytes on each of the others. -/
def shape (d : Dump) : List (Option ℕ) := d.lines.map Line.shape

/-- The texts of the lines without data, in order. -/
def ignored (d : Dump) : List Str := d.lines.filterMap Line.text?

/-- The data bytes, in order. -/
def bytes (d : Dump) : List (BitVec 8) := d.lines.flatMap Line.bytes

/-- **Reading back a printed dump.** -/
theorem readDump_print (d : Dump) : readDump d.print = some d := by
  rw [readDump_eq_some_iff, print, lines_unlines]
  · rw [List.forall₂_map_left_iff]
    exact List.forall₂_same.mpr fun l hl => readLine_print (d.proper l hl)
  · intro t ht
    obtain ⟨l, hl, rfl⟩ := List.mem_map.mp ht
    exact oneLine_print (d.proper l hl)

end Dump

/-! ### Combining two dumps -/

/-- Two lines of one shape, combined byte by byte; a line without data is that of the first dump. -/
def Line.zip (f : BitVec 8 → BitVec 8 → BitVec 8) : Line → Line → Line
  | .data bs, .data cs => .data (List.zipWith f bs cs)
  | l, _ => l

theorem Line.proper_zip {f : BitVec 8 → BitVec 8 → BitVec 8} {l l' : Line} (h : l.Proper)
    (h' : l'.Proper) :
    (l.zip f l').Proper := by
  cases l with
  | ignored text => cases l' <;> exact h
  | data bs =>
    cases l' with
    | ignored text => exact h
    | data cs => exact (List.length_zipWith ▸ Nat.le_min.mpr ⟨h, h'⟩ : 2 ≤ _)

/-- Equal shapes: neither line carries data, or both have as many bytes. -/
theorem Line.shape_eq_cases {l l' : Line} (h : l.shape = l'.shape) :
    (∃ text text', l = .ignored text ∧ l' = .ignored text') ∨
    (∃ bs cs, l = .data bs ∧ l' = .data cs ∧ bs.length = cs.length) := by
  cases l with
  | ignored text =>
    cases l' with
    | ignored text' => exact .inl ⟨text, text', rfl, rfl⟩
    | data cs => cases h
  | data bs =>
    cases l' with
    | ignored text => cases h
    | data cs => exact .inr ⟨bs, cs, rfl, rfl, Option.some.inj h⟩

section SameShape

variable {ls ls' : List Line}

theorem shape_zipWith (f : BitVec 8 → BitVec 8 → BitVec 8)
    (h : List.Forall₂ (fun l l' => l.shape = l'.shape) ls ls') :
    (List.zipWith (Line.zip f) ls ls').map Line.shape = ls.map Line.shape := by
  induction h with
  | nil => rfl
  | cons hl _ ih =>
    rw [List.zipWith_cons_cons, List.map_cons, List.map_cons, ih]
    rcases Line.shape_eq_cases hl with ⟨text, text', rfl, rfl⟩ | ⟨bs, cs, rfl, rfl, hlength⟩
    · rfl
    · simp [Line.zip, Line.shape, hlength]

theorem text?_zipWith (f : BitVec 8 → BitVec 8 → BitVec 8)
    (h : List.Forall₂ (fun l l' => l.shape = l'.shape) ls ls') :
    (List.zipWith (Line.zip f) ls ls').filterMap Line.text? = ls.filterMap Line.text? := by
  induction h with
  | nil => rfl
  | cons hl _ ih =>
    rw [List.zipWith_cons_cons, List.filterMap_cons, List.filterMap_cons, ih]
    rcases Line.shape_eq_cases hl with ⟨text, text', rfl, rfl⟩ | ⟨bs, cs, rfl, rfl, hlength⟩
    · rfl
    · rfl

theorem bytes_zipWith (f : BitVec 8 → BitVec 8 → BitVec 8)
    (h : List.Forall₂ (fun l l' => l.shape = l'.shape) ls ls') :
    (List.zipWith (Line.zip f) ls ls').flatMap Line.bytes =
      List.zipWith f (ls.flatMap Line.bytes) (ls'.flatMap Line.bytes) := by
  induction h with
  | nil => rfl
  | cons hl _ ih =>
    rw [List.zipWith_cons_cons, List.flatMap_cons, List.flatMap_cons, List.flatMap_cons, ih]
    rcases Line.shape_eq_cases hl with ⟨text, text', rfl, rfl⟩ | ⟨bs, cs, rfl, rfl, hlength⟩
    · rfl
    · exact (List.zipWith_append hlength).symm

theorem length_flatMap_bytes (h : List.Forall₂ (fun l l' => l.shape = l'.shape) ls ls') :
    (ls.flatMap Line.bytes).length = (ls'.flatMap Line.bytes).length := by
  induction h with
  | nil => rfl
  | cons hl _ ih =>
    rw [List.flatMap_cons, List.flatMap_cons, List.length_append, List.length_append, ih]
    rcases Line.shape_eq_cases hl with ⟨text, text', rfl, rfl⟩ | ⟨bs, cs, rfl, rfl, hlength⟩
    · rfl
    · exact congrArg (· + _) hlength

end SameShape

namespace Dump

variable {d e : Dump}

/-- Two dumps combined byte by byte. -/
def zip (f : BitVec 8 → BitVec 8 → BitVec 8) (d e : Dump) : Dump where
  lines := List.zipWith (Line.zip f) d.lines e.lines
  proper := by
    intro l hl
    obtain ⟨i, hi, rfl⟩ := List.mem_iff_getElem.mp hl
    rw [List.getElem_zipWith]
    exact Line.proper_zip (d.proper _ (List.getElem_mem _)) (e.proper _ (List.getElem_mem _))

/-- Dumps of one shape agree line by line. -/
theorem forall₂_of_shape (h : d.shape = e.shape) :
    List.Forall₂ (fun l l' => l.shape = l'.shape) d.lines e.lines := by
  rw [← List.forall₂_map_left_iff (R := fun s l' => s = Line.shape l') (f := Line.shape),
    ← List.forall₂_map_right_iff (R := (· = ·)) (f := Line.shape), List.forall₂_eq_eq_eq]
  exact h

theorem shape_zip (f : BitVec 8 → BitVec 8 → BitVec 8) (h : d.shape = e.shape) :
    (d.zip f e).shape = d.shape :=
  shape_zipWith f (forall₂_of_shape h)

theorem ignored_zip (f : BitVec 8 → BitVec 8 → BitVec 8) (h : d.shape = e.shape) :
    (d.zip f e).ignored = d.ignored :=
  text?_zipWith f (forall₂_of_shape h)

theorem bytes_zip (f : BitVec 8 → BitVec 8 → BitVec 8) (h : d.shape = e.shape) :
    (d.zip f e).bytes = List.zipWith f d.bytes e.bytes :=
  bytes_zipWith f (forall₂_of_shape h)

/-- Dumps of one shape have as many bytes. -/
theorem length_bytes_of_shape (h : d.shape = e.shape) : d.bytes.length = e.bytes.length :=
  length_flatMap_bytes (forall₂_of_shape h)

end Dump

/-! ### Changing the bytes of a dump -/

/-- Lines whose data bytes, numbered from `k` on, are changed by `f`. -/
def mapLines (f : ℕ → BitVec 8 → BitVec 8) : ℕ → List Line → List Line
  | _, [] => []
  | k, .ignored text :: ls => .ignored text :: mapLines f k ls
  | k, .data bs :: ls => .data (bs.mapIdx fun i => f (k + i)) :: mapLines f (k + bs.length) ls

variable {f : ℕ → BitVec 8 → BitVec 8}

theorem shape_mapLines (k : ℕ) (ls : List Line) :
    (mapLines f k ls).map Line.shape = ls.map Line.shape := by
  induction ls generalizing k with
  | nil => rfl
  | cons l ls ih =>
    cases l with
    | ignored text => simp [mapLines, ih]
    | data bs => simp [mapLines, ih, Line.shape]

theorem text?_mapLines (k : ℕ) (ls : List Line) :
    (mapLines f k ls).filterMap Line.text? = ls.filterMap Line.text? := by
  induction ls generalizing k with
  | nil => rfl
  | cons l ls ih =>
    cases l with
    | ignored text => simp [mapLines, ih, Line.text?]
    | data bs =>
      rw [mapLines, List.filterMap_cons_none rfl, List.filterMap_cons_none rfl, ih]

theorem bytes_mapLines (k : ℕ) (ls : List Line) :
    (mapLines f k ls).flatMap Line.bytes = (ls.flatMap Line.bytes).mapIdx fun i => f (k + i) := by
  induction ls generalizing k with
  | nil => rfl
  | cons l ls ih =>
    cases l with
    | ignored text => exact ih k
    | data bs =>
      rw [mapLines, List.flatMap_cons, List.flatMap_cons, List.mapIdx_append, ih]
      simp only [Line.bytes, Nat.add_comm, Nat.add_left_comm]

theorem proper_mapLines {k : ℕ} {ls : List Line} (h : ∀ l ∈ ls, l.Proper) :
    ∀ l ∈ mapLines f k ls, l.Proper := by
  induction ls generalizing k with
  | nil => exact h
  | cons l ls ih =>
    have hl : l.Proper := h l List.mem_cons_self
    have hls : ∀ l ∈ ls, l.Proper := fun x hx => h x (List.mem_cons_of_mem _ hx)
    intro x hx
    cases l with
    | ignored text =>
      rcases List.mem_cons.mp hx with rfl | hx
      · exact hl
      · exact ih hls x hx
    | data bs =>
      rcases List.mem_cons.mp hx with rfl | hx
      · rw [Line.Proper, List.length_mapIdx]
        exact hl
      · exact ih hls x hx

namespace Dump

variable {d : Dump}

/-- A dump whose bytes are changed, each by its value and its position. -/
def mapIdx (f : ℕ → BitVec 8 → BitVec 8) (d : Dump) : Dump where
  lines := mapLines f 0 d.lines
  proper := proper_mapLines d.proper

@[simp] theorem shape_mapIdx (f : ℕ → BitVec 8 → BitVec 8) (d : Dump) :
    (d.mapIdx f).shape = d.shape :=
  shape_mapLines 0 d.lines

@[simp] theorem ignored_mapIdx (f : ℕ → BitVec 8 → BitVec 8) (d : Dump) :
    (d.mapIdx f).ignored = d.ignored :=
  text?_mapLines 0 d.lines

@[simp] theorem bytes_mapIdx (f : ℕ → BitVec 8 → BitVec 8) (d : Dump) :
    (d.mapIdx f).bytes = d.bytes.mapIdx f := by
  rw [bytes, mapIdx, bytes_mapLines]
  simp only [Nat.zero_add]
  rfl

end Dump

/-! ### Bits -/

namespace Dump

variable {d e : Dump}

/-- A bit of the data: bit `j` of byte `k`. -/
def bit (d : Dump) (k j : ℕ) : Bool := (d.bytes.getD k 0).getLsbD j

/-- A dump is determined by its shape and its bits. -/
theorem bytes_eq_of_bit (hshape : d.shape = e.shape) (hbit : ∀ k j, d.bit k j = e.bit k j) :
    d.bytes = e.bytes := by
  have hlength := length_bytes_of_shape hshape
  apply List.ext_getElem hlength
  intro k hd he
  apply BitVec.eq_of_getLsbD_eq
  intro j _
  have hkj := hbit k j
  rwa [bit, bit, List.getD_eq_getElem _ _ hd, List.getD_eq_getElem _ _ he] at hkj

theorem getD_zip (f : BitVec 8 → BitVec 8 → BitVec 8) (h : d.shape = e.shape) {k : ℕ}
    (hk : k < d.bytes.length) :
    (d.zip f e).bytes.getD k 0 = f (d.bytes.getD k 0) (e.bytes.getD k 0) := by
  have hk' : k < e.bytes.length := length_bytes_of_shape h ▸ hk
  have hzip : k < (List.zipWith f d.bytes e.bytes).length := by rw [List.length_zipWith]; omega
  rw [bytes_zip f h, List.getD_eq_getElem _ _ hzip, List.getElem_zipWith, List.getD_eq_getElem _ _ hk,
    List.getD_eq_getElem _ _ hk']

/-- Beyond the data all bits are 0. -/
theorem bit_of_le {k : ℕ} (hk : d.bytes.length ≤ k) (j : ℕ) : d.bit k j = false := by
  rw [bit, List.getD_eq_default _ _ hk]
  simp

end Dump

/-- A text that is a dump. -/
structure DumpFile where
  text : Str
  dump : Dump
  reads : readDump text = some dump

namespace Dump

/-- The file a program writes by printing a dump. -/
def toFile (d : Dump) : DumpFile := ⟨d.print, d, readDump_print d⟩

/-- One line with one byte repeated. -/
def uniform (n : ℕ) (b : BitVec 8) : Dump where
  lines := [.data (List.replicate (n + 2) b)]
  proper := by simp [Line.Proper]

@[simp] theorem bytes_uniform (n : ℕ) (b : BitVec 8) :
    (uniform n b).bytes = List.replicate (n + 2) b := by
  simp [bytes, uniform, Line.bytes]

@[simp] theorem shape_uniform (n : ℕ) (b : BitVec 8) : (uniform n b).shape = [some (n + 2)] := by
  simp [shape, uniform, Line.shape]

end Dump

end ProbableCause
