import ProbableCause.Database.Layout

/-!
# `Database.Matching` — what `find` and `match` return

`match` walks the pages in order and records, for each page, the first stored page within the noise
distance that lies in a chip not hit before. Which one is first depends on the directory order;
*that* it is a hit, and that a page without a hit has none in any chip not hit before, does not.
`Greedy` is that order-free description, by recursion on the pages as in the source:

- `matchFrom_greedy` — under every listing order `match` returns without an exception, and its
  result is `Greedy`;
- `Greedy.realized` — conversely every `Greedy` list is the result of `match` under some listing
order.
-/

namespace ProbableCause

open Text Exits Overlay

variable {K : Constants} {db : Database}

/-! ## The order-free description -/

/-- Page `l` of the stored chip `c` is the string `s`. -/
def Stored (db : Database) (c : Str) (l : ℕ) (s : Str) : Prop := ∃ ps, Holds db c ps ∧ ps[l]? = some s

/-- The stored chip `c` shares a page with the list. -/
def Shares (db : Database) (strs : List Str) (c : Str) : Prop := ∃ t ∈ strs, ∃ l, Stored db c l t

/-- An entry of the list `match` returns, read as numbers: page `loc` of chip `chip` is near the
    given page number `offset`. -/
structure Link where
  chip : Str
  loc : ℕ
  offset : ℕ
  deriving DecidableEq

/-- The entry as `match` returns it: chip and location are cut out of names, the offset is counted. -/
def Link.toMatch (link : Link) : Match := ⟨.str link.chip, .str (digits link.loc), .int link.offset⟩

/-- **A greedy match** of the pages from number `k` on, with the chips `seen` out of bounds. -/
inductive Greedy (K : Constants) (db : Database) : List Str → ℕ → List Str → List Link → Prop where
  | nil {seen : List Str} {k : ℕ} : Greedy K db seen k [] []
  | skip {seen : List Str} {k : ℕ} {s : Str} {pages : List Str} {links : List Link}
      (hno : ∀ c ∉ seen, ∀ l t, Stored db c l t → ¬ Near K t s)
      (h : Greedy K db seen (k + 1) pages links) : Greedy K db seen k (s :: pages) links
  | hit {seen : List Str} {k : ℕ} {s : Str} {pages : List Str} {links : List Link}
      {c : Str} {l : ℕ} {t : Str} (hc : c ∉ seen) (hst : Stored db c l t) (hnear : Near K t s)
      (h : Greedy K db (seen ++ [c]) (k + 1) pages links) :
      Greedy K db seen k (s :: pages) (⟨c, l, k⟩ :: links)

theorem Stored.mem {c : Str} {l : ℕ} {s : Str} (h : Stored db c l s) : c ∈ db := by
  obtain ⟨ps, hps, -⟩ := h
  exact hps.mem

/-! ## `find` -/

/-- Removing the ignored names, all of which are there, leaves the names that are not ignored. -/
theorem removeIgnored_ok {chips : List Str} {xs : List PyVal} (hchips : chips.Nodup)
    (hxs : (xs.map pyStr).Nodup) (hin : ∀ x ∈ xs, pyStr x ∈ chips) :
    ∃ r, removeIgnored chips xs = .ok r ∧ ∀ c, c ∈ r ↔ c ∈ chips ∧ c ∉ xs.map pyStr := by
  induction xs generalizing chips with
  | nil => exact ⟨chips, rfl, by simp⟩
  | cons x xs ih =>
    rw [List.map_cons, List.nodup_cons] at hxs
    have hrest : ∀ y ∈ xs, pyStr y ∈ chips.erase (pyStr x) := by
      intro y hy
      have hne : pyStr y ≠ pyStr x := fun h => hxs.1 (h ▸ List.mem_map_of_mem hy)
      exact (List.mem_erase_of_ne hne).mpr (hin y (List.mem_cons_of_mem _ hy))
    obtain ⟨r, hr, hmem⟩ := ih (hchips.erase _) hxs.2 hrest
    refine ⟨r, ?_, ?_⟩
    · rw [removeIgnored, if_pos (hin x List.mem_cons_self), hr]
    · intro c
      rw [hmem, hchips.mem_erase_iff, List.map_cons, List.mem_cons, not_or]
      tauto

/-- A name at the front that is not ignored stays at the front. -/
theorem removeIgnored_cons {c : Str} {chips : List Str} {xs : List PyVal}
    (hc : c ∉ xs.map pyStr) :
    removeIgnored (c :: chips) xs = (removeIgnored chips xs).map (c :: ·) := by
  induction xs generalizing chips with
  | nil => rfl
  | cons x xs ih =>
    rw [List.map_cons, List.mem_cons, not_or] at hc
    -- `x` is not `c`, so both removals succeed or both raise
    rw [removeIgnored, removeIgnored, List.erase_cons_tail (by simpa using hc.1)]
    by_cases hx : pyStr x ∈ chips
    · rw [if_pos (List.mem_cons_of_mem _ hx), if_pos hx, ih hc.2]
    · rw [if_neg hx, if_neg (by simp [Ne.symm hc.1, hx])]
      rfl

/-- Reading the page behind the file name `i.txt`: the name ends in `.txt`, and without the ending
    it is the numeral of `i`. -/
theorem fileName_stem (i : ℕ) :
    ".txt".toList.isSuffixOf (fileName (.int i)) = true ∧
      (fileName (.int i)).take ((fileName (.int i)).length - 4) = digits i := by
  rw [fileName_natCast]
  refine ⟨List.isSuffixOf_iff_suffix.mpr (List.suffix_append _ _), ?_⟩
  rw [List.length_append, show ".txt".toList.length = 4 from rfl, Nat.add_sub_cancel,
    List.take_left']
  rfl

/-- One round of the inner loop of `find`, on the file of page `i`. -/
theorem findFile_cons {page : ApproxPage K} {c : Str} {ps : List Str} (hwf : WellFormed K db)
    (hc : Holds db c ps) {i : ℕ} {t : Str} (hi : ps[i]? = some t) (fs : List Str) :
    findFile K db page c (fileName (.int i) :: fs) =
      if Near K t page.errorString then .ok (some ⟨.str c, .str (digits i)⟩)
      else findFile K db page c fs := by
  obtain ⟨hsuf, hstem⟩ := fileName_stem i
  obtain ⟨r, hr, hstr, hattr⟩ := pageRead_chipDir (.str c) (.str (digits i))
    (show fileName (.str (digits i)) = fileName (.int i) from rfl) hc fun _ hs => hwf.valid hc hs
  rw [hi] at hstr
  obtain ⟨o, rfl, ho⟩ := Option.map_eq_some_iff.mp hstr
  obtain ⟨hchip, hloc⟩ := hattr o rfl
  rw [findFile, if_pos hsuf, hstem, hr]
  simp only [bind, Except.bind, ApproxPage.eq_iff, ho, hchip, hloc]

/-- **The inner loop of `find`** over files of the chip `c`: a hit is a near page of the chip;
    without a hit, none of the files holds a near page. -/
theorem findFile_spec (page : ApproxPage K) {c : Str} {ps : List Str} (hwf : WellFormed K db)
    (hc : Holds db c ps) (fs : List Str) (hfs : ∀ f ∈ fs, f ∈ chipDir ps) :
    (findFile K db page c fs = .ok none ∧
      ∀ (i : ℕ) t, fileName (.int i) ∈ fs → ps[i]? = some t → ¬ Near K t page.errorString) ∨
    ∃ (i : ℕ) (t : Str), findFile K db page c fs = .ok (some ⟨.str c, .str (digits i)⟩) ∧
      ps[i]? = some t ∧ Near K t page.errorString := by
  induction fs with
  | nil => exact Or.inl ⟨rfl, by simp⟩
  | cons f fs ih =>
    obtain ⟨j, hj, rfl⟩ := mem_chipDir.mp (hfs f List.mem_cons_self)
    have hjt : ps[j]? = some ps[j] := List.getElem?_eq_getElem hj
    rw [findFile_cons hwf hc hjt]
    by_cases hnear : Near K ps[j] page.errorString
    · exact Or.inr ⟨j, ps[j], by rw [if_pos hnear], hjt, hnear⟩
    · -- no hit in this file: the others decide
      rw [if_neg hnear]
      rcases ih fun f hf => hfs f (List.mem_cons_of_mem _ hf) with ⟨hnone, hall⟩ | hsome
      · refine Or.inl ⟨hnone, ?_⟩
        intro i t hi hit
        rcases List.mem_cons.mp hi with heq | hrest
        · rw [fileName_inj.mp heq, hjt] at hit
          exact Option.some.inj hit ▸ hnear
        · exact hall i t hrest hit
      · exact Or.inr hsome

/-- **The outer loop of `find`** over stored chips. -/
theorem findChip_spec (hwf : WellFormed K db) (os : Listing) (page : ApproxPage K) (cs : List Str)
    (hcs : ∀ c ∈ cs, c ∈ db) :
    (findChip K os db page cs = .ok none ∧
      ∀ c ∈ cs, ∀ l t, Stored db c l t → ¬ Near K t page.errorString) ∨
    ∃ c l t, findChip K os db page cs = .ok (some ⟨.str c, .str (digits l)⟩) ∧ c ∈ cs ∧
      Stored db c l t ∧ Near K t page.errorString := by
  induction cs with
  | nil => exact Or.inl ⟨rfl, by simp⟩
  | cons c cs ih =>
    obtain ⟨ps, hps, -⟩ := hwf.holds (hcs c List.mem_cons_self)
    have hfiles : ∀ f, f ∈ os.listdir db c ↔ f ∈ chipDir ps := by
      intro f
      rw [os.mem_listdir, hps]
      simp
    rcases findFile_spec page hwf hps (os.listdir db c) fun f hf => (hfiles f).mp hf with
      ⟨hnone, hall⟩ | ⟨i, t, hsome, hit, hnear⟩
    · -- no hit in this chip: the others decide
      rcases ih fun c hc => hcs c (List.mem_cons_of_mem _ hc) with
        ⟨hnone', hall'⟩ | ⟨c', l, t, hsome', hc', hrest⟩
      · refine Or.inl ⟨?_, ?_⟩
        · rw [findChip, hnone]
          exact hnone'
        · intro c' hc' l t hst
          rcases List.mem_cons.mp hc' with rfl | htail
          · obtain ⟨qs, hqs, hlt⟩ := hst
            rw [← hps.unique hqs] at hlt
            have hmem : fileName (.int l) ∈ chipDir ps :=
              mem_chipDir.mpr ⟨l, (List.getElem?_eq_some_iff.mp hlt).1, rfl⟩
            exact hall l t ((hfiles _).mpr hmem) hlt
          · exact hall' c' htail l t hst
      · refine Or.inr ⟨c', l, t, ?_, List.mem_cons_of_mem _ hc', hrest⟩
        rw [findChip, hnone]
        exact hsome'
    · refine Or.inr ⟨c, i, t, ?_, List.mem_cons_self, ⟨ps, hps, hit⟩, hnear⟩
      rw [findChip, hsome]
      rfl

/-- **`find`** with an ignore list of stored chips, without repetitions: it does not raise; it finds
    a near page in a chip that is not ignored, or there is none. -/
theorem find_spec (hwf : WellFormed K db) (os : Listing) (page : ApproxPage K) {ignore : List PyVal}
    (hnodup : (ignore.map pyStr).Nodup) (hstored : ∀ x ∈ ignore, pyStr x ∈ db) :
    (find K os db page ignore = .ok none ∧
      ∀ c ∉ ignore.map pyStr, ∀ l t, Stored db c l t → ¬ Near K t page.errorString) ∨
    ∃ c l t, find K os db page ignore = .ok (some ⟨.str c, .str (digits l)⟩) ∧
      c ∉ ignore.map pyStr ∧ Stored db c l t ∧ Near K t page.errorString := by
  obtain ⟨cs, hcs, hmem⟩ := removeIgnored_ok (os.walk_nodup db) hnodup
    fun x hx => (os.mem_walk db _).mpr (hstored x hx)
  have hfind : find K os db page ignore = findChip K os db page cs := by
    rw [find, hcs]
    rfl
  rw [hfind]
  have hin : ∀ c ∈ cs, c ∈ db := fun c hc => (os.mem_walk db c).mp ((hmem c).mp hc).1
  rcases findChip_spec hwf os page cs hin with ⟨hnone, hall⟩ | ⟨c, l, t, hsome, hc, hst, hnear⟩
  · refine Or.inl ⟨hnone, ?_⟩
    intro c hc l t hst
    exact hall c ((hmem c).mpr ⟨(os.mem_walk db c).mpr hst.mem, hc⟩) l t hst
  · exact Or.inr ⟨c, l, t, hsome, ((hmem c).mp hc).2, hst, hnear⟩

/-! ## `match` -/

/-- The chips recorded so far, one more found by `find`. -/
theorem ignore_snoc {chips : List PyVal} {c : Str} (hnodup : (chips.map pyStr).Nodup)
    (hstored : ∀ x ∈ chips, pyStr x ∈ db) (hc : c ∉ chips.map pyStr) (hcdb : c ∈ db) :
    ((chips ++ [PyVal.str c]).map pyStr).Nodup ∧ ∀ x ∈ chips ++ [PyVal.str c], pyStr x ∈ db := by
  constructor
  · rw [List.map_append]
    refine List.nodup_append.mpr ⟨hnodup, by simp, ?_⟩
    intro a ha b hb
    have hbc : b = c := by simpa using hb
    rintro rfl
    exact hc (hbc ▸ ha)
  · intro x hx
    rcases List.mem_append.mp hx with h | h
    · exact hstored x h
    · rw [List.mem_singleton] at h
      rw [h]; exact hcdb

/-- One round of `match` with a hit of `find`. -/
theorem matchFrom_hit {os : ℕ → Listing} {k : ℕ} {chips : List PyVal} {page : ApproxPage K}
    {pages : List (ApproxPage K)} {c : Str} {l : ℕ} {res : List Match}
    (hfind : find K (os k) db page chips = .ok (some ⟨.str c, .str (digits l)⟩))
    (hc : c ∉ chips.map pyStr)
    (hres : matchFrom K os db (k + 1) (chips ++ [.str c]) pages = .ok res) :
    matchFrom K os db k chips (page :: pages) = .ok (Link.toMatch ⟨c, l, k⟩ :: res) := by
  have hnew : PyVal.str c ∉ chips := fun h => hc (List.mem_map.mpr ⟨_, h, rfl⟩)
  rw [matchFrom, hfind]
  simp only [bind, Except.bind, if_pos hnew, hres]
  rfl

/-- One round of `match` without a hit. -/
theorem matchFrom_skip {os : ℕ → Listing} {k : ℕ} {chips : List PyVal} {page : ApproxPage K}
    {pages : List (ApproxPage K)} (hfind : find K (os k) db page chips = .ok none) :
    matchFrom K os db k chips (page :: pages) = matchFrom K os db (k + 1) chips pages := by
  rw [matchFrom, hfind]
  rfl

/-- **`match` is greedy, whatever the listing order.** With an ignore list of stored chips it returns
    without an exception. -/
theorem matchFrom_greedy (hwf : WellFormed K db) (os : ℕ → Listing)
    (pages : List (ApproxPage K)) (k : ℕ) (chips : List PyVal) (hnodup : (chips.map pyStr).Nodup)
    (hstored : ∀ x ∈ chips, pyStr x ∈ db) :
    ∃ links, matchFrom K os db k chips pages = .ok (links.map Link.toMatch) ∧
      Greedy K db (chips.map pyStr) k (pages.map ApproxPage.errorString) links := by
  induction pages generalizing k chips with
  | nil => exact ⟨[], rfl, .nil⟩
  | cons page pages ih =>
    rcases find_spec hwf (os k) page hnodup hstored with
      ⟨hnone, hall⟩ | ⟨c, l, t, hsome, hc, hst, hnear⟩
    · -- no hit: the page is left out
      obtain ⟨links, hlinks, hgreedy⟩ := ih (k + 1) chips hnodup hstored
      exact ⟨links, (matchFrom_skip hnone).trans hlinks, .skip hall hgreedy⟩
    · -- a hit: its chip is ignored from here on
      obtain ⟨hnodup', hstored'⟩ := ignore_snoc hnodup hstored hc hst.mem
      obtain ⟨links, hlinks, hgreedy⟩ := ih (k + 1) (chips ++ [.str c]) hnodup' hstored'
      refine ⟨⟨c, l, k⟩ :: links, matchFrom_hit hsome hc hlinks, .hit hc hst hnear ?_⟩
      rwa [List.map_append] at hgreedy

/-! ## Facts about greedy matches -/

variable {seen : List Str} {k : ℕ} {pages : List Str} {links : List Link}

/-- A greedy match depends on the chips within bounds only. -/
theorem Greedy.transfer {db' : Database} {seen' : List Str} (h : Greedy K db seen k pages links)
    (hsame : ∀ c l t, (c ∉ seen ∧ Stored db c l t) ↔ (c ∉ seen' ∧ Stored db' c l t)) :
    Greedy K db' seen' k pages links := by
  induction h generalizing seen' with
  | nil => exact .nil
  | skip hno _ ih =>
    refine .skip (fun c hc l t hst => ?_) (ih hsame)
    obtain ⟨hc', hst'⟩ := (hsame c l t).mpr ⟨hc, hst⟩
    exact hno c hc' l t hst'
  | @hit seen k s pages links c l t hc hst hnear _ ih =>
    obtain ⟨hc', hst'⟩ := (hsame c l t).mp ⟨hc, hst⟩
    refine .hit hc' hst' hnear (ih ?_)
    intro c' l' t'
    simp only [List.mem_append, List.mem_singleton, not_or]
    have hbase := hsame c' l' t'
    tauto

/-- The offsets lie in the range of page numbers. -/
theorem Greedy.offset_range (h : Greedy K db seen k pages links) :
    ∀ link ∈ links, k ≤ link.offset ∧ link.offset < k + pages.length := by
  induction h with
  | nil => simp
  | skip _ _ ih =>
    intro link hlink
    have := ih link hlink
    simp only [List.length_cons]; omega
  | hit _ _ _ _ ih =>
    intro link hlink
    rcases List.mem_cons.mp hlink with rfl | hrest
    · simp
    · have := ih link hrest
      simp only [List.length_cons]; omega

/-- The offsets increase strictly. -/
theorem Greedy.offsets_increasing (h : Greedy K db seen k pages links) :
    links.Pairwise fun a b => a.offset < b.offset := by
  induction h with
  | nil => exact .nil
  | skip _ _ ih => exact ih
  | hit _ _ _ htail ih =>
    refine List.pairwise_cons.mpr ⟨fun b hb => ?_, ih⟩
    exact (htail.offset_range b hb).1

/-- A matched chip was not out of bounds, and no chip is matched twice. -/
theorem Greedy.chips_nodup (h : Greedy K db seen k pages links) :
    (links.map Link.chip).Nodup ∧ ∀ link ∈ links, link.chip ∉ seen := by
  induction h with
  | nil => simp
  | skip _ _ ih => exact ih
  | @hit seen k s pages links c l t hc _ _ _ ih =>
    obtain ⟨hnodup, hnew⟩ := ih
    refine ⟨List.nodup_cons.mpr ⟨?_, hnodup⟩, ?_⟩
    · intro hmem
      obtain ⟨link, hlink, heq⟩ := List.mem_map.mp hmem
      exact hnew link hlink (heq ▸ List.mem_append_right _ (by simp))
    · intro link hlink
      rcases List.mem_cons.mp hlink with rfl | hrest
      · exact hc
      · exact fun hs => hnew link hrest (List.mem_append_left _ hs)

/-- **Soundness.** Every entry names a stored page that is near the given page at its offset. -/
theorem Greedy.sound (h : Greedy K db seen k pages links) :
    ∀ link ∈ links, ∃ t s, Stored db link.chip link.loc t ∧
      pages[link.offset - k]? = some s ∧ Near K t s := by
  induction h with
  | nil => simp
  | @skip seen k s pages links _ htail ih =>
    intro link hlink
    obtain ⟨t, u, hst, hu, hnear⟩ := ih link hlink
    have hk := (htail.offset_range link hlink).1
    refine ⟨t, u, hst, ?_, hnear⟩
    rw [show link.offset - k = (link.offset - (k + 1)) + 1 by omega, List.getElem?_cons_succ, hu]
  | @hit seen k s pages links c l t hc hst hnear htail ih =>
    intro link hlink
    rcases List.mem_cons.mp hlink with rfl | hrest
    · exact ⟨t, s, hst, by simp, hnear⟩
    · obtain ⟨t', u, hst', hu, hnear'⟩ := ih link hrest
      have hk := (htail.offset_range link hrest).1
      refine ⟨t', u, hst', ?_, hnear'⟩
      rw [show link.offset - k = (link.offset - (k + 1)) + 1 by omega, List.getElem?_cons_succ, hu]

/-- **Completeness.** A stored page near the given page number `k + i`, in a chip within bounds: its
    chip is matched there or before, or the given page is matched with another chip. -/
theorem Greedy.complete (h : Greedy K db seen k pages links) {c : Str} {l : ℕ} {t s : Str} {i : ℕ}
    (hc : c ∉ seen) (hst : Stored db c l t) (hs : pages[i]? = some s) (hnear : Near K t s) :
    (∃ link ∈ links, link.chip = c ∧ link.offset ≤ k + i) ∨ ∃ link ∈ links, link.offset = k + i := by
  induction h generalizing i with
  | nil => simp at hs
  | @skip seen k s' pages links hno _ ih =>
    cases i with
    | zero =>
      rw [List.getElem?_cons_zero, Option.some.injEq] at hs
      exact absurd hnear (hs ▸ hno c hc l t hst)
    | succ i =>
      rw [List.getElem?_cons_succ] at hs
      rcases ih hc hs with ⟨link, hlink, hchip, hoff⟩ | ⟨link, hlink, hoff⟩
      · exact Or.inl ⟨link, hlink, hchip, by omega⟩
      · exact Or.inr ⟨link, hlink, by omega⟩
  | @hit seen k s' pages links c' l' t' hc' _ _ _ ih =>
    by_cases hcc : c' = c
    · exact Or.inl ⟨_, List.mem_cons_self, hcc, Nat.le_add_right k i⟩
    · -- another chip is matched here, so `c` stays within bounds
      cases i with
      | zero => exact Or.inr ⟨_, List.mem_cons_self, rfl⟩
      | succ i =>
        rw [List.getElem?_cons_succ] at hs
        have hseen : c ∉ seen ++ [c'] := by
          simp only [List.mem_append, List.mem_singleton, not_or]
          exact ⟨hc, Ne.symm hcc⟩
        rcases ih hseen hs with ⟨link, hlink, hchip, hoff⟩ | ⟨link, hlink, hoff⟩
        · exact Or.inl ⟨link, List.mem_cons_of_mem _ hlink, hchip, by omega⟩
        · exact Or.inr ⟨link, List.mem_cons_of_mem _ hlink, by omega⟩

/-! ## Every greedy match is the result of some listing order -/

/-- The list with `x`, if it occurs, moved to the front. -/
def front (x : Str) (l : List Str) : List Str := if x ∈ l then x :: l.erase x else l

theorem mem_front {x y : Str} {l : List Str} : y ∈ front x l ↔ y ∈ l := by
  unfold front
  split
  · next h => exact (List.perm_cons_erase h).symm.mem_iff
  · rfl

theorem nodup_front {x : Str} {l : List Str} (h : l.Nodup) : (front x l).Nodup := by
  unfold front
  split
  · next hx => exact (List.perm_cons_erase hx).nodup_iff.mp h
  · exact h

/-- The alphabetical order, but with one chip and one file name listed first. -/
def Listing.prefer (c f : Str) : Listing where
  walk db := front c (Listing.alphabetical.walk db)
  listdir db c' := front f (Listing.alphabetical.listdir db c')
  walk_nodup db := nodup_front (Listing.alphabetical.walk_nodup db)
  mem_walk db c' := mem_front.trans (Listing.alphabetical.mem_walk db c')
  listdir_nodup db c' := nodup_front (Listing.alphabetical.listdir_nodup db c')
  mem_listdir db c' f' := mem_front.trans (Listing.alphabetical.mem_listdir db c' f')

/-- With its chip and its file listed first, a near page is the one `find` returns. -/
theorem find_prefer (hwf : WellFormed K db) (page : ApproxPage K) {ignore : List PyVal}
    (hnodup : (ignore.map pyStr).Nodup) (hstored : ∀ x ∈ ignore, pyStr x ∈ db) {c : Str} {l : ℕ}
    {t : Str} (hc : c ∉ ignore.map pyStr) (hst : Stored db c l t)
    (hnear : Near K t page.errorString) :
    find K (.prefer c (fileName (.int l))) db page ignore =
      .ok (some ⟨.str c, .str (digits l)⟩) := by
  obtain ⟨ps, hps, hl⟩ := hst
  have hfile : fileName (.int l) ∈ Listing.alphabetical.listdir db c :=
    (Listing.alphabetical.mem_listdir db c _).mpr
      ⟨_, hps, mem_chipDir.mpr ⟨l, (List.getElem?_eq_some_iff.mp hl).1, rfl⟩⟩
  have hchip : c ∈ Listing.alphabetical.walk db := (Listing.alphabetical.mem_walk db c).mpr hps.mem
  -- the ignored chips are removed from behind `c`
  have hrest : ∀ x ∈ ignore, pyStr x ∈ (Listing.alphabetical.walk db).erase c := by
    intro x hx
    have hne : pyStr x ≠ c := fun h => hc (h ▸ List.mem_map_of_mem hx)
    exact (List.mem_erase_of_ne hne).mpr
      ((Listing.alphabetical.mem_walk db _).mpr (hstored x hx))
  obtain ⟨cs, hcs, -⟩ :=
    removeIgnored_ok ((Listing.alphabetical.walk_nodup db).erase c) hnodup hrest
  have hremove : removeIgnored ((Listing.prefer c (fileName (.int l))).walk db) ignore
      = .ok (c :: cs) := by
    show removeIgnored (front c _) ignore = _
    rw [front, if_pos hchip, removeIgnored_cons hc, hcs]
    rfl
  have hfirst : (Listing.prefer c (fileName (.int l))).listdir db c
      = fileName (.int l) :: (Listing.alphabetical.listdir db c).erase (fileName (.int l)) := by
    show front (fileName (.int l)) _ = _
    rw [front, if_pos hfile]
  rw [find, hremove]
  simp only [bind, Except.bind, findChip, hfirst, findFile_cons hwf hps hl, if_pos hnear]

/-- **Every greedy match is possible**: listing, at each matched page, the matched chip and file first
    makes `match` return it. -/
theorem Greedy.realized_of_prefer (hwf : WellFormed K db) (os : ℕ → Listing)
    (pages : List (ApproxPage K)) (chips : List PyVal) (hnodup : (chips.map pyStr).Nodup)
    (hstored : ∀ x ∈ chips, pyStr x ∈ db)
    (h : Greedy K db (chips.map pyStr) k (pages.map ApproxPage.errorString) links)
    (hos : ∀ link ∈ links, os link.offset = .prefer link.chip (fileName (.int link.loc))) :
    matchFrom K os db k chips pages = .ok (links.map Link.toMatch) := by
  induction pages generalizing k chips links with
  | nil => cases h; rfl
  | cons page pages ih =>
    rw [List.map_cons] at h
    cases h with
    | skip hno htail =>
      have hnone : find K (os k) db page chips = .ok none := by
        rcases find_spec hwf (os k) page hnodup hstored with ⟨hnone, -⟩ | ⟨c, l, t, -, hc, hst, hn⟩
        · exact hnone
        · exact absurd hn (hno c hc l t hst)
      rw [matchFrom_skip hnone]
      exact ih chips hnodup hstored htail hos
    | @hit _ _ _ _ links c l t hc hst hnear htail =>
      have hfind : find K (os k) db page chips = .ok (some ⟨.str c, .str (digits l)⟩) := by
        rw [hos ⟨c, l, k⟩ List.mem_cons_self]
        exact find_prefer hwf page hnodup hstored hc hst hnear
      -- the rest of the match, with the chip on the ignore list
      obtain ⟨hnodup', hstored'⟩ := ignore_snoc hnodup hstored hc hst.mem
      have hrest : matchFrom K os db (k + 1) (chips ++ [.str c]) pages
          = .ok (links.map Link.toMatch) := by
        refine ih (chips ++ [.str c]) hnodup' hstored' ?_ fun link hlink =>
          hos link (List.mem_cons_of_mem _ hlink)
        rwa [List.map_append]
      exact matchFrom_hit hfind hc hrest

theorem Greedy.realized (hwf : WellFormed K db) (pages : List (ApproxPage K)) (chips : List PyVal)
    (hnodup : (chips.map pyStr).Nodup) (hstored : ∀ x ∈ chips, pyStr x ∈ db)
    (h : Greedy K db (chips.map pyStr) k (pages.map ApproxPage.errorString) links) :
    ∃ os, matchFrom K os db k chips pages = .ok (links.map Link.toMatch) := by
  let os : ℕ → Listing := fun j =>
    match links.find? fun link => link.offset == j with
    | some link => .prefer link.chip (fileName (.int link.loc))
    | none => .alphabetical
  refine ⟨os, h.realized_of_prefer hwf os pages chips hnodup hstored ?_⟩
  intro link hlink
  -- the offsets increase, so no other entry has this offset
  have hfind : (links.find? fun l => l.offset == link.offset) = some link := by
    have hinc := h.offsets_increasing
    clear h
    induction links with
    | nil => cases hlink
    | cons a as ih =>
      rw [List.pairwise_cons] at hinc
      rcases List.mem_cons.mp hlink with rfl | hrest
      · simp
      · have hne : (a.offset == link.offset) = false := by
          have := hinc.1 link hrest
          simp; omega
        rw [List.find?_cons_of_neg (by simp [hne])]
        exact ih hrest hinc.2
  simp only [os, hfind]

end ProbableCause
