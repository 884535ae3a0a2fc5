import ProbableCause.Database.Page

/-!
# `Database.Parser` — `processData`: the fingerprint file

The file is read `PAGE_SIZE` characters at a time, and each piece is made a page. The constructor
checks the length and matches the piece against `^[0-1]+$`; as `$` also holds before a line feed at
the end, a piece of zeros and ones may end in a line feed in place of its last bit. `Readable` is
what the parser accepts, character by character (`readPages_of_readable`,
`readPages_of_not_readable`); it is the grammar of the pages exactly as long as no line feed ends a
slice (`parsesGrammar_iff`).
-/

namespace ProbableCause

open Text

variable {K : Constants} {f : Str}

/-! ## `processData` -/

/-- The loop of `processData`, with the rest of the file. -/
def readPages (K : Constants) (f : Str) : Except Stop (List (ApproxPage K)) :=
  let c := f.take K.PAGE_SIZE
  if c = [] then .ok []
  else do
    let page ← approxPage' K c
    let pages ← readPages K (f.drop K.PAGE_SIZE)
    .ok (page :: pages)
termination_by f.length
decreasing_by
  rename_i hc
  have hpos := K.pageSize_pos
  have hlen : 0 < f.length := by
    rw [List.length_pos_iff]
    rintro rfl
    exact hc List.take_nil
  rw [List.length_drop]
  omega

/-- `processData(filename)`, where `files` gives the contents of the files that exist. -/
def processData (K : Constants) (files : Str → Option Str) (filename : Str) :
    Except Stop (List (ApproxPage K)) :=
  match files filename with
  | none => .ok []
  | some content => readPages K content

/-! ## The grammar -/

/-- The consecutive slices of `n` characters. -/
def slices (n : ℕ) (content : Str) : List Str :=
  (List.range (content.length / n)).map fun i => (content.drop (n * i)).take n

/-- **The grammar of a fingerprint file**: whole pages of zeros and ones. -/
def InGrammar (K : Constants) (content : Str) : Prop :=
  K.PAGE_SIZE ∣ content.length ∧ ∀ c ∈ content, isBit c = true

/-- **The parser accepts the grammar**: it returns the slices of a file in it, without loss, and
    raises a `ValueError` for any other file. -/
def ParsesGrammar (K : Constants) (files : Str → Option Str) (filename content : Str) : Prop :=
  (InGrammar K content → ∃ pages, processData K files filename = .ok pages ∧
    pages.map ApproxPage.errorString = slices K.PAGE_SIZE content ∧
      (pages.map ApproxPage.errorString).flatten = content) ∧
    (¬ InGrammar K content → ∃ msg, processData K files filename = raise (.valueError msg))

/-- A character the parser accepts at position `i`: a bit, or a line feed that ends a slice behind a
bit. -/
def Accepted (n i : ℕ) (c : Char) : Prop := isBit c = true ∨ c = '\n' ∧ 2 ≤ n ∧ n ∣ i + 1

/-- **What the parser accepts.** -/
def Readable (K : Constants) (content : Str) : Prop :=
  K.PAGE_SIZE ∣ content.length ∧ ∀ i c, content[i]? = some c → Accepted K.PAGE_SIZE i c

/-! ## One slice -/

/-- The regular expression: the last character may also be a line feed, if there is one before it. -/
theorem regMatch_concat (front : Str) (last : Char) :
    regMatch (front ++ [last]) = true ↔
      (∀ c ∈ front, isBit c = true) ∧ (isBit last = true ∨ last = '\n' ∧ front ≠ []) := by
  simp only [regMatch, Bool.or_eq_true, Bool.and_eq_true, bne_iff_ne, ne_eq, List.append_eq_nil_iff,
    List.cons_ne_nil, and_false, not_false_eq_true, true_and, List.all_append,
    List.all_eq_true, List.all_cons, List.all_nil, Bool.and_true, List.getLast?_concat,
    List.dropLast_concat, beq_iff_eq, Option.some.injEq]
  tauto

/-- A slice matches if its characters are accepted at their positions. -/
theorem regMatch_iff_accepted {data : Str} {n : ℕ} (hn : 1 ≤ n) (hlen : data.length = n) :
    regMatch data = true ↔ ∀ i c, data[i]? = some c → Accepted n i c := by
  obtain rfl | ⟨front, last, rfl⟩ := List.eq_nil_or_concat' data
  · rw [List.length_nil] at hlen
    omega
  · rw [List.length_append, List.length_singleton] at hlen
    rw [regMatch_concat]
    constructor
    · rintro ⟨hfront, hlast⟩ i c hi
      rw [List.getElem?_append] at hi
      split at hi
      · exact .inl (hfront c (List.mem_of_getElem? hi))
      · -- the last character
        have hi0 : i = front.length := by
          have hlt := (List.getElem?_eq_some_iff.mp hi).1
          rw [List.length_singleton] at hlt
          omega
        rw [hi0, Nat.sub_self, List.getElem?_cons_zero, Option.some.injEq] at hi
        subst hi
        rcases hlast with hbit | ⟨hfeed, hne⟩
        · exact .inl hbit
        · have hpos := List.length_pos_iff.mpr hne
          exact .inr ⟨hfeed, by omega, hi0 ▸ hlen ▸ Nat.dvd_refl _⟩
    · intro h
      constructor
      · intro c hc
        obtain ⟨i, hi, hic⟩ := List.mem_iff_getElem.mp hc
        have hget : (front ++ [last])[i]? = some c := by
          rw [List.getElem?_append_left hi, List.getElem?_eq_getElem hi, hic]
        rcases h i c hget with hbit | ⟨-, -, hdvd⟩
        · exact hbit
        · have hle := Nat.le_of_dvd (Nat.succ_pos i) hdvd
          omega
      · rcases h front.length last List.getElem?_concat_length with hbit | ⟨hfeed, htwo, -⟩
        · exact .inl hbit
        · refine .inr ⟨hfeed, ?_⟩
          rintro rfl
          rw [List.length_nil] at hlen
          omega

/-! ## The loop -/

theorem readPages_nil : readPages K [] = .ok [] := by
  rw [readPages]
  simp

theorem readPages_of_ne_nil (hne : f ≠ []) :
    readPages K f = (do
      let page ← approxPage' K (f.take K.PAGE_SIZE)
      let pages ← readPages K (f.drop K.PAGE_SIZE)
      .ok (page :: pages)) := by
  have htake : f.take K.PAGE_SIZE ≠ [] := by
    rw [ne_eq, List.take_eq_nil_iff, not_or]
    exact ⟨Nat.one_le_iff_ne_zero.mp K.pageSize_pos, hne⟩
  rw [readPages]
  exact if_neg htake

theorem readable_nil (K : Constants) : Readable K [] := by
  refine ⟨Nat.dvd_zero _, fun i c hi => ?_⟩
  rw [List.getElem?_nil] at hi
  contradiction

/-- The characters of a file are those of the first slice and those behind it. -/
theorem readable_iff (hlen : K.PAGE_SIZE ≤ f.length) :
    Readable K f ↔ regMatch (f.take K.PAGE_SIZE) = true ∧ Readable K (f.drop K.PAGE_SIZE) := by
  have htake : (f.take K.PAGE_SIZE).length = K.PAGE_SIZE := List.length_take_of_le hlen
  have hdvd : K.PAGE_SIZE ∣ f.length ↔ K.PAGE_SIZE ∣ (f.drop K.PAGE_SIZE).length := by
    have hsum : f.length = K.PAGE_SIZE + (f.drop K.PAGE_SIZE).length := by
      rw [List.length_drop, Nat.add_sub_of_le hlen]
    rw [hsum, Nat.dvd_add_self_left]
  rw [regMatch_iff_accepted K.pageSize_pos htake]
  constructor
  · rintro ⟨hwhole, hall⟩
    refine ⟨fun i c hi => ?_, hdvd.mp hwhole, fun i c hi => ?_⟩
    · rw [List.getElem?_take] at hi
      split at hi
      · exact hall i c hi
      · contradiction
    · rw [List.getElem?_drop] at hi
      rcases hall _ c hi with hbit | ⟨hfeed, htwo, hends⟩
      · exact .inl hbit
      · rw [Nat.add_assoc, Nat.dvd_add_self_left] at hends
        exact .inr ⟨hfeed, htwo, hends⟩
  · rintro ⟨hfirst, hwhole, hrest⟩
    refine ⟨hdvd.mpr hwhole, fun i c hi => ?_⟩
    by_cases hlt : i < K.PAGE_SIZE
    · exact hfirst i c (by rwa [List.getElem?_take_of_lt hlt])
    · have hi' : (f.drop K.PAGE_SIZE)[i - K.PAGE_SIZE]? = some c := by
        rwa [List.getElem?_drop, Nat.add_sub_of_le (Nat.le_of_not_lt hlt)]
      rcases hrest _ c hi' with hbit | ⟨hfeed, htwo, hends⟩
      · exact .inl hbit
      · refine .inr ⟨hfeed, htwo, ?_⟩
        have hsum := (Nat.dvd_add_self_left).mpr hends
        rwa [← Nat.add_assoc, Nat.add_sub_of_le (Nat.le_of_not_lt hlt)] at hsum

theorem slices_cons {n : ℕ} (hn : 1 ≤ n) (hlen : n ≤ f.length) :
    slices n f = f.take n :: slices n (f.drop n) := by
  have hcount : f.length / n = (f.drop n).length / n + 1 := by
    rw [List.length_drop, ← Nat.add_div_right _ hn, Nat.sub_add_cancel hlen]
  rw [slices, hcount, List.range_succ_eq_map, List.map_cons, List.map_map, Nat.mul_zero,
    List.drop_zero, slices]
  refine congrArg _ (List.map_congr_left fun i _ => ?_)
  show (f.drop (n * (i + 1))).take n = ((f.drop n).drop (n * i)).take n
  rw [List.drop_drop, Nat.mul_succ, Nat.add_comm]

/-- **What the parser accepts is read in slices**, without loss. -/
theorem readPages_of_readable (h : Readable K f) :
    ∃ pages, readPages K f = .ok pages ∧ pages.map ApproxPage.errorString = slices K.PAGE_SIZE f ∧
      (pages.map ApproxPage.errorString).flatten = f := by
  induction hn : f.length using Nat.strong_induction_on generalizing f with
  | _ n ih =>
    subst hn
    have hpos := K.pageSize_pos
    by_cases hne : f = []
    · subst hne
      exact ⟨[], readPages_nil, by simp [slices], rfl⟩
    · have hlen : K.PAGE_SIZE ≤ f.length := Nat.le_of_dvd (List.length_pos_iff.mpr hne) h.1
      obtain ⟨hreg, hrest⟩ := (readable_iff hlen).mp h
      have hvalid : Valid K (f.take K.PAGE_SIZE) := ⟨List.length_take_of_le hlen, hreg⟩
      obtain ⟨pages, hpages, hslices, hflat⟩ := ih _ (by rw [List.length_drop]; omega) hrest rfl
      refine ⟨⟨_, .int (-1), .int (-1), hvalid⟩ :: pages, ?_, ?_, ?_⟩
      · rw [readPages_of_ne_nil hne, approxPage', approxPage_of_valid hvalid, hpages]
        rfl
      · rw [List.map_cons, hslices, slices_cons hpos hlen]
      · rw [List.map_cons, List.flatten_cons, hflat, List.take_append_drop]

/-- **Anything else is a `ValueError`.** -/
theorem readPages_of_not_readable (h : ¬ Readable K f) :
    ∃ msg, readPages K f = raise (.valueError msg) := by
  induction hn : f.length using Nat.strong_induction_on generalizing f with
  | _ n ih =>
    subst hn
    have hpos := K.pageSize_pos
    have hne : f ≠ [] := by
      rintro rfl
      exact h (readable_nil K)
    rw [readPages_of_ne_nil hne]
    by_cases hlen : K.PAGE_SIZE ≤ f.length
    · have htake : (f.take K.PAGE_SIZE).length = K.PAGE_SIZE := List.length_take_of_le hlen
      rw [readable_iff hlen, not_and] at h
      by_cases hreg : regMatch (f.take K.PAGE_SIZE) = true
      · -- the error is behind this slice
        obtain ⟨msg, hmsg⟩ := ih _ (by rw [List.length_drop]; omega) (h hreg) rfl
        refine ⟨msg, ?_⟩
        rw [approxPage', approxPage_of_valid ⟨htake, hreg⟩, hmsg]
        rfl
      · refine ⟨"Data contains unexpected character", ?_⟩
        rw [approxPage', approxPage, dif_pos htake, dif_neg hreg]
        rfl
    · -- a piece that is too short
      have htake : ¬ (f.take K.PAGE_SIZE).length = K.PAGE_SIZE := by
        rw [List.length_take]
        omega
      refine ⟨"Incorrect data size", ?_⟩
      rw [approxPage', approxPage, dif_neg htake]
      rfl

/-! ## The grammar and the parser -/

/-- **Line feeds that end slices**, the only characters the parser accepts besides the bits. -/
def FeedsEndSlices (K : Constants) (content : Str) : Prop := '\n' ∈ content ∧ Readable K content

theorem inGrammar_iff {content : Str} :
    InGrammar K content ↔ Readable K content ∧ '\n' ∉ content := by
  constructor
  · rintro ⟨hwhole, hall⟩
    refine ⟨⟨hwhole, fun i c hi => .inl (hall c (List.mem_of_getElem? hi))⟩, fun hfeed => ?_⟩
    exact absurd (hall _ hfeed) (by decide)
  · rintro ⟨⟨hwhole, hall⟩, hno⟩
    refine ⟨hwhole, fun c hc => ?_⟩
    obtain ⟨i, hi⟩ := List.mem_iff_getElem?.mp hc
    rcases hall i c hi with hbit | ⟨rfl, -⟩
    · exact hbit
    · exact absurd hc hno

theorem not_parsesGrammar {files : Str → Option Str} {filename content : Str}
    (hfile : files filename = some content) (h : FeedsEndSlices K content) :
      ¬ ParsesGrammar K files filename content := by
  rintro ⟨-, hreject⟩
  obtain ⟨msg, hmsg⟩ := hreject fun hin => (inGrammar_iff.mp hin).2 h.1
  obtain ⟨pages, hpages, -⟩ := readPages_of_readable h.2
  rw [processData, hfile] at hmsg
  dsimp only at hmsg
  rw [hpages] at hmsg
  contradiction

/-- **When the parser accepts the grammar and nothing else**: for a file that exists, unless it
    consists of whole pages of zeros and ones but for line feeds that end pages. -/
theorem parsesGrammar_iff (K : Constants) {files : Str → Option Str} {filename content : Str}
    (hfile : files filename = some content) :
    ParsesGrammar K files filename content ↔ ¬ FeedsEndSlices K content := by
  constructor
  · exact fun h hfeeds => not_parsesGrammar hfile hfeeds h
  · intro hno
    have hdata : processData K files filename = readPages K content := by rw [processData, hfile]
    rw [ParsesGrammar, hdata, inGrammar_iff]
    refine ⟨fun h => readPages_of_readable h.1, fun h => readPages_of_not_readable
      fun hreadable => ?_⟩
    exact h ⟨hreadable, fun hfeed => hno ⟨hfeed, hreadable⟩⟩

/-- At a file of two pages. -/
theorem parsesGrammar_iff_two_pages :
    ParsesGrammar Constants.repository (fun _ => some "0110100000".toList) "fingerprint".toList
        "0110100000".toList ↔
      ¬ FeedsEndSlices Constants.repository "0110100000".toList :=
  parsesGrammar_iff _ rfl

/-- **Four bits and a line feed** are a page for the parser. -/
theorem lineFeed_parsed :
    ¬ ParsesGrammar Constants.repository
      (fun _ => some "0110\n".toList) "fingerprint".toList "0110\n".toList := by
  refine not_parsesGrammar rfl ⟨by decide, ?_⟩
  rw [readable_iff (by decide)]
  exact ⟨by decide, readable_nil _⟩

end ProbableCause
