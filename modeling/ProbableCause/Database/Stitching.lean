import ProbableCause.Database.AddRun

/-!
# `Database.Stitching` — adding an interval of a memory to a database of intervals

The purpose of the database: fingerprints are intervals of one long memory `s`, and `add` is to
replace the new interval and all stored chips that share a page with it by one chip with their
union. Pages of `s` at different places are at least the noise distance apart, so a match of pages
is an equality of places (`Memory.near_iff`), and a greedy match links the new interval `a, …, b-1`
with every chip it meets:

- at an offset greater than `0` at the chip's first page (`Placed.loc_eq_zero`), since a chip that
  reaches further left would have been met one page earlier;
- at offset `0` wherever the chip has page `a`.

Merging a chip met at its first page extends the accumulated interval to the right, and a single
merge at offset `0` extends it to both sides; so `add` stitches the interval (`add_stitches_iff`)
*except* when the first page is stored and a second chip is met, where the shift of the offsets
raises.
-/

namespace ProbableCause

open Text Exits Overlay

variable {K : Constants} {db : Database}

/-! ## Memories and databases of intervals -/

/-- A sequence of valid pages, any two of which are at least the noise distance apart. -/
structure Memory (K : Constants) (s : List Str) : Prop where
  valid : ∀ t ∈ s, Valid K t
  apart : s.Pairwise fun t u => K.NOISE_DISTANCE ≤ distance t u

/-- **The chips are disjoint intervals of the memory**: chip `c` holds the pages
`lo c, …, hi c - 1`. -/
structure Placed (s : List Str) (db : Database) (lo hi : Str → ℕ) : Prop where
  nonempty : ∀ c ∈ db, lo c < hi c
  inside : ∀ c ∈ db, hi c ≤ s.length
  holds : ∀ c ∈ db, Holds db c (slice s (lo c) (hi c))
  disjoint : ∀ c ∈ db, ∀ c' ∈ db, c ≠ c' → ∀ i, lo c ≤ i → i < hi c → ¬ (lo c' ≤ i ∧ i < hi c')

/-- **The database `db'` is `db` with the list stitched in**: one chip holds, in the order of the
    memory, the pages of the list and of all chips that shared a page with it; the other chips are
    those that shared none, as they were. -/
def Stitched (s : List Str) (db : Database) (strs : List Str) (db' : Database) : Prop :=
  ∃ n ps, Holds db' n ps ∧ ps.Sublist s ∧
    (∀ t, t ∈ ps ↔ t ∈ strs ∨ ∃ c l, Shares db strs c ∧ Stored db c l t) ∧
    (∀ c, c ∈ db' ↔ c = n ∨ (c ∈ db ∧ ¬ Shares db strs c)) ∧
    ∀ c ∈ db, ¬ Shares db strs c → c ≠ n ∧ db'.lookup c = db.lookup c

/-- **`add` stitches the list**: under every listing order it returns normally with the list
    stitched in, unless the random outcomes end before a free number has come up every time, which
    `chipCount db + 1` rounds of all outcomes exclude. -/
def AddStitches (K : Constants) (s : List Str) (db : Database) (pages : List (ApproxPage K)) : Prop :=
  ∀ (os : ℕ → Listing) (draws : List Draw),
    (∃ w', (add K os pages).run ⟨db, draws⟩ = .ok () w' ∧
      Stitched s db (pages.map ApproxPage.errorString) w'.db) ∨
    ((∃ w', (add K os pages).run ⟨db, draws⟩ = .error .drawing w') ∧
      ¬ Rounds (chipCount db + 1) draws)

/-- The first page of the list is stored, and at least two stored chips share a page with the list. -/
def FrontAndMore (db : Database) (strs : List Str) : Prop :=
  (∃ t c l, strs.head? = some t ∧ Stored db c l t) ∧
    ∃ c c', c ≠ c' ∧ Shares db strs c ∧ Shares db strs c'

/-! ## Places -/

section Places

variable {s : List Str} {lo hi : Str → ℕ} {a b : ℕ} {links : List Link}

/-- **Near pages of a memory are at the same place.** -/
theorem Memory.near_iff (hs : Memory K s) {i j : ℕ} {t u : Str} (hi : s[i]? = some t)
    (hj : s[j]? = some u) : Near K t u ↔ i = j := by
  obtain ⟨hilt, rfl⟩ := List.getElem?_eq_some_iff.mp hi
  obtain ⟨hjlt, rfl⟩ := List.getElem?_eq_some_iff.mp hj
  have hfar := List.pairwise_iff_getElem.mp hs.apart
  constructor
  · intro hnear
    rcases Nat.lt_trichotomy i j with hij | hij | hji
    · exact absurd hnear (Nat.not_lt_of_le (hfar i j hilt hjlt hij))
    · exact hij
    · exact absurd (near_comm.mp hnear) (Nat.not_lt_of_le (hfar j i hjlt hilt hji))
  · rintro rfl
    exact near_self K _

/-- A page occurs in a memory once. -/
theorem Memory.place_unique (hs : Memory K s) {i j : ℕ} {t : Str} (hi : s[i]? = some t)
    (hj : s[j]? = some t) : i = j :=
  (hs.near_iff hi hj).mp (near_self K t)

theorem Placed.stored_iff (hp : Placed s db lo hi) {c t : Str} {l : ℕ} :
    Stored db c l t ↔ c ∈ db ∧ lo c + l < hi c ∧ s[lo c + l]? = some t := by
  constructor
  · rintro ⟨ps, hps, hl⟩
    rw [hps.unique (hp.holds c hps.mem), getElem?_slice] at hl
    split at hl
    · next hlt => exact ⟨hps.mem, hlt, hl⟩
    · cases hl
  · rintro ⟨hc, hlt, ht⟩
    exact ⟨_, hp.holds c hc, by rw [getElem?_slice, if_pos hlt, ht]⟩

/-- The pages of a chip are those at its places. -/
theorem Placed.exists_stored_iff (hp : Placed s db lo hi) {c t : Str} :
    (∃ l, Stored db c l t) ↔ c ∈ db ∧ ∃ i, lo c ≤ i ∧ i < hi c ∧ s[i]? = some t := by
  constructor
  · rintro ⟨l, hst⟩
    obtain ⟨hc, hlt, ht⟩ := hp.stored_iff.mp hst
    exact ⟨hc, lo c + l, Nat.le_add_right _ _, hlt, ht⟩
  · rintro ⟨hc, i, h1, h2, ht⟩
    have hi' : lo c + (i - lo c) = i := Nat.add_sub_cancel' h1
    exact ⟨i - lo c, hp.stored_iff.mpr ⟨hc, by omega, by rw [hi', ht]⟩⟩

theorem Placed.wellFormed (hp : Placed s db lo hi) (hs : Memory K s) : WellFormed K db := by
  intro c d hd
  have hc : c ∈ db := Finmap.mem_of_lookup_eq_some hd
  have hholds := hp.holds c hc
  rw [Holds, hd] at hholds
  refine ⟨_, Option.some.inj hholds, ?_, ?_⟩
  · intro hnil
    have hlen := congrArg List.length hnil
    rw [length_slice (hp.inside c hc), List.length_nil] at hlen
    have := hp.nonempty c hc
    omega
  · intro t ht
    exact hs.valid t ((slice_sublist s _ _).subset ht)

/-- A chip shares a page with the interval `a, …, b-1` exactly when they have a place in common. -/
theorem Placed.shares_iff (hp : Placed s db lo hi) (hs : Memory K s) (hb : b ≤ s.length) {c : Str} :
    Shares db (slice s a b) c ↔ c ∈ db ∧ ∃ i, a ≤ i ∧ i < b ∧ lo c ≤ i ∧ i < hi c := by
  constructor
  · rintro ⟨t, ht, hst⟩
    obtain ⟨i, h1, h2, hti⟩ := mem_slice.mp ht
    obtain ⟨hc, j, h3, h4, htj⟩ := hp.exists_stored_iff.mp hst
    have hij : i = j := hs.place_unique hti htj
    exact ⟨hc, i, h1, h2, by omega, by omega⟩
  · rintro ⟨hc, i, h1, h2, h3, h4⟩
    have hti : s[i]? = some s[i] := List.getElem?_eq_getElem (by omega)
    exact ⟨s[i], mem_slice.mpr ⟨i, h1, h2, hti⟩, hp.exists_stored_iff.mpr ⟨hc, i, h3, h4, hti⟩⟩

/-- Two chips with a place in common are the same. -/
theorem Placed.chip_unique (hp : Placed s db lo hi) {c c' : Str} (hc : c ∈ db) (hc' : c' ∈ db) {i : ℕ}
    (h : lo c ≤ i ∧ i < hi c) (h' : lo c' ≤ i ∧ i < hi c') : c = c' := by
  by_contra hne
  exact hp.disjoint c hc c' hc' hne i h.1 h.2 h'

/-! ## The greedy match of an interval -/

/-- **A link joins equal places.** -/
theorem Placed.link_place (hp : Placed s db lo hi) (hs : Memory K s)
    (h : Greedy K db [] 0 (slice s a b) links) {link : Link} (hlink : link ∈ links) :
    link.chip ∈ db ∧ lo link.chip + link.loc = a + link.offset ∧ a + link.offset < b ∧
      a + link.offset < hi link.chip := by
  obtain ⟨t, u, hst, hu, hnear⟩ := h.sound link hlink
  obtain ⟨hc, hlt, ht⟩ := hp.stored_iff.mp hst
  rw [Nat.sub_zero, getElem?_slice] at hu
  split at hu
  · next hoff =>
    have hplace := (hs.near_iff ht hu).mp hnear
    exact ⟨hc, hplace, hoff, by omega⟩
  · cases hu

/-- A chip with a place of the interval is linked there or before. -/
theorem Placed.exists_link (hp : Placed s db lo hi) (hs : Memory K s) (hb : b ≤ s.length)
    (h : Greedy K db [] 0 (slice s a b) links) {c : Str} (hc : c ∈ db) {k : ℕ} (hk : a + k < b)
    (h1 : lo c ≤ a + k) (h2 : a + k < hi c) : ∃ link ∈ links, link.chip = c ∧ link.offset ≤ k := by
  have ht : s[a + k]? = some s[a + k] := List.getElem?_eq_getElem (by omega)
  have hst : Stored db c (a + k - lo c) s[a + k] :=
    hp.stored_iff.mpr ⟨hc, by omega, by rw [Nat.add_sub_cancel' h1, ht]⟩
  have hpage : (slice s a b)[k]? = some s[a + k] := by rw [getElem?_slice, if_pos hk, ht]
  rcases h.complete (by simp) hst hpage (near_self K _) with ⟨link, hlink, hchip, hoff⟩ |
    ⟨link, hlink, hoff⟩
  · exact ⟨link, hlink, hchip, by omega⟩
  · -- the page is linked with a chip that has its place, which is `c`
    obtain ⟨hc', hplace, -, hhi⟩ := hp.link_place hs h hlink
    have hoff' : link.offset = k := by omega
    exact ⟨link, hlink, hp.chip_unique hc' hc (i := a + k) ⟨by omega, by omega⟩ ⟨h1, h2⟩, by omega⟩

/-- **Past offset `0` a chip is met at its first page.** -/
theorem Placed.loc_eq_zero (hp : Placed s db lo hi) (hs : Memory K s) (hb : b ≤ s.length)
    (h : Greedy K db [] 0 (slice s a b) links) {link : Link} (hlink : link ∈ links)
    (hpos : link.offset ≠ 0) : link.loc = 0 := by
  obtain ⟨hc, hplace, hoff, hhi⟩ := hp.link_place hs h hlink
  by_contra hloc
  -- the chip has the place before, and is linked there or before
  obtain ⟨link', hlink', hchip, hoff'⟩ := hp.exists_link hs hb h hc (k := link.offset - 1)
    (by omega) (by omega) (by omega)
  have hsame : link' = link := List.inj_on_of_nodup_map h.chips_nodup.1 hlink' hlink hchip
  rw [hsame] at hoff'
  omega

/-- **The chips linked are the chips that share a page.** -/
theorem Placed.mem_links_iff (hp : Placed s db lo hi) (hs : Memory K s) (hb : b ≤ s.length)
    (h : Greedy K db [] 0 (slice s a b) links) {c : Str} :
    c ∈ links.map Link.chip ↔ Shares db (slice s a b) c := by
  rw [hp.shares_iff hs hb, List.mem_map]
  constructor
  · rintro ⟨link, hlink, rfl⟩
    obtain ⟨hc, hplace, hoff, hhi⟩ := hp.link_place hs h hlink
    exact ⟨hc, a + link.offset, by omega, hoff, by omega, hhi⟩
  · rintro ⟨hc, i, h1, h2, h3, h4⟩
    obtain ⟨link, hlink, hchip, -⟩ := hp.exists_link hs hb h hc (k := i - a)
      (by omega) (by omega) (by omega)
    exact ⟨link, hlink, hchip⟩

/-- With the first page stored, the first link is at offset `0`; then a second chip met is a second
link. -/
theorem Placed.clash_iff (hp : Placed s db lo hi) (hs : Memory K s) (hab : a < b)
    (hb : b ≤ s.length) (h : Greedy K db [] 0 (slice s a b) links) :
    Clash links ↔ FrontAndMore db (slice s a b) := by
  have hhead : (slice s a b).head? = s[a]? := by
    rw [List.head?_eq_getElem?, getElem?_slice, if_pos (by omega), Nat.add_zero]
  constructor
  · intro hclash
    match links, hclash, h with
    | first :: second :: links, hclash, h =>
      have h0 : first.offset = 0 := hclash
      obtain ⟨t, u, hst, hu, hnear⟩ := h.sound first List.mem_cons_self
      obtain ⟨hc, hplace, -, hhi⟩ := hp.link_place hs h (List.mem_cons_self (a := first))
      have hne : first.chip ≠ second.chip := by
        have hnodup := h.chips_nodup.1
        simp only [List.map_cons, List.nodup_cons, List.mem_cons, not_or] at hnodup
        exact hnodup.1.1
      have hlt : a < s.length := by omega
      obtain ⟨l, hstored⟩ := hp.exists_stored_iff.mpr
        ⟨hc, a, by omega, by omega, List.getElem?_eq_getElem hlt⟩
      refine ⟨⟨s[a], first.chip, l, by rw [hhead, List.getElem?_eq_getElem hlt], hstored⟩,
        first.chip, second.chip, hne, ?_, ?_⟩
      · exact (hp.mem_links_iff hs hb h).mp (by simp)
      · exact (hp.mem_links_iff hs hb h).mp (by simp)
  · rintro ⟨⟨t, c, l, ht, hst⟩, c₁, c₂, hne, h1, h2⟩
    rw [hhead] at ht
    obtain ⟨hc, hlt, hl⟩ := hp.stored_iff.mp hst
    have hplace : lo c + l = a := hs.place_unique hl ht
    obtain ⟨link, hlink, -, hoff⟩ := hp.exists_link hs hb h hc (k := 0) (by omega) (by omega)
      (by omega)
    have hmem1 := (hp.mem_links_iff hs hb h).mpr h1
    have hmem2 := (hp.mem_links_iff hs hb h).mpr h2
    match links, h, hlink, hmem1, hmem2 with
    | [first], _, _, hmem1, hmem2 =>
      rw [List.map_cons, List.map_nil, List.mem_singleton] at hmem1 hmem2
      exact absurd (hmem1.trans hmem2.symm) hne
    | first :: second :: links, h, hlink, _, _ =>
      -- the link at offset `0` is the first one
      show first.offset = 0
      rcases List.mem_cons.mp hlink with rfl | hrest
      · omega
      · have := (List.pairwise_cons.mp h.offsets_increasing).1 link hrest
        omega

/-- Without a clash there is one link at offset `0` and no other, or all chips are met at their first
    pages. -/
theorem Placed.links_cases (hp : Placed s db lo hi) (hs : Memory K s) (hb : b ≤ s.length)
    (h : Greedy K db [] 0 (slice s a b) links) (hclash : ¬ Clash links) :
    (∃ first, links = [first] ∧ first.offset = 0) ∨ ∀ link ∈ links, link.loc = 0 := by
  match links, h, hclash with
  | [], _, _ => exact Or.inr (by simp)
  | first :: links, h, hclash =>
    by_cases h0 : first.offset = 0
    · cases links with
      | nil => exact Or.inl ⟨first, rfl, h0⟩
      | cons second links => exact absurd h0 hclash
    · -- the first offset is positive, so all are
      refine Or.inr fun link hlink => hp.loc_eq_zero hs hb h hlink ?_
      rcases List.mem_cons.mp hlink with rfl | hrest
      · exact h0
      · have := (List.pairwise_cons.mp h.offsets_increasing).1 link hrest
        omega

/-! ## The merges -/

/-- **Merging chips met at their first pages** extends the accumulated interval `a, …, e-1` to the
right. -/
theorem assemble_right {P : Str → List Str} {e : ℕ} (hae : a ≤ e) (he : e ≤ s.length)
    (hchip : ∀ link ∈ links, P link.chip = slice s (lo link.chip) (hi link.chip) ∧
      hi link.chip ≤ s.length)
    (hplace : ∀ link ∈ links, link.loc = 0 ∧ lo link.chip = a + link.offset ∧
      a + link.offset ≤ e ∧ a + link.offset ≤ hi link.chip) :
    Fits P (e - a) links ∧ ∃ e', assemble P (slice s a e) links = slice s a e' ∧
      ∀ i, i < e' ↔ i < e ∨ ∃ link ∈ links, i < hi link.chip := by
  induction links generalizing e with
  | nil => exact ⟨trivial, e, rfl, by simp⟩
  | cons link links ih =>
    obtain ⟨hP, hhi⟩ := hchip link List.mem_cons_self
    obtain ⟨hloc, hlo, hoff, hohi⟩ := hplace link List.mem_cons_self
    have hstitch : stitch (slice s a e) link.offset (P link.chip) link.loc
        = slice s a (max e (hi link.chip)) := by
      rw [hP, stitch_slice (Or.inr hloc) (by omega) hoff (by omega) he, hlo,
        min_eq_left (Nat.le_add_right _ _)]
    have hlen : stitchLen (e - a) link.offset (P link.chip).length link.loc
        = max e (hi link.chip) - a := by
      rw [hP, length_slice hhi, stitchLen]
      split <;> omega
    obtain ⟨hfits, e', heq, hmem⟩ := ih (e := max e (hi link.chip)) (by omega) (by omega)
      (fun l hl => hchip l (List.mem_cons_of_mem _ hl)) fun l hl => by
        obtain ⟨h1, h2, h3, h4⟩ := hplace l (List.mem_cons_of_mem _ hl)
        exact ⟨h1, h2, by omega, h4⟩
    refine ⟨⟨Or.inr (by omega), by rw [hlen]; exact hfits⟩, e', ?_, ?_⟩
    · rw [assemble_cons, hstitch, heq]
    · intro i
      rw [hmem i, lt_max_iff]
      simp only [List.mem_cons, exists_eq_or_imp, or_assoc]

/-- **Without a clash the merges fit, and assemble the interval of all places of the new pages and
    of the chips linked.** -/
theorem Placed.assemble_eq (hp : Placed s db lo hi) (hs : Memory K s) (hab : a < b)
    (hb : b ≤ s.length) (h : Greedy K db [] 0 (slice s a b) links) (hclash : ¬ Clash links) :
    Fits (pagesOf db) (b - a) links ∧
      ∃ a' b', assemble (pagesOf db) (slice s a b) links = slice s a' b' ∧
        ∀ i, (a' ≤ i ∧ i < b') ↔
          (a ≤ i ∧ i < b) ∨ ∃ link ∈ links, lo link.chip ≤ i ∧ i < hi link.chip := by
  have hchip : ∀ link ∈ links, pagesOf db link.chip = slice s (lo link.chip) (hi link.chip) ∧
      hi link.chip ≤ s.length := fun link hlink => by
    obtain ⟨hc, -, -, -⟩ := hp.link_place hs h hlink
    exact ⟨(hp.holds _ hc).pagesOf_eq, hp.inside _ hc⟩
  rcases hp.links_cases hs hb h hclash with ⟨first, rfl, h0⟩ | hloc
  · -- one merge at offset `0`: the chip may reach further on both sides
    obtain ⟨-, hplace, -, hhi⟩ := hp.link_place hs h (List.mem_singleton_self first)
    obtain ⟨hP, -⟩ := hchip first (List.mem_singleton_self first)
    refine ⟨⟨Or.inl (by omega), trivial⟩, lo first.chip, max b (hi first.chip), ?_, ?_⟩
    · rw [assemble_cons, assemble_nil, hP, h0,
        stitch_slice (Or.inl rfl) (by omega) (by omega) (by omega) hb, min_eq_right (by omega)]
    · intro i
      simp only [List.mem_singleton, exists_eq_left]
      omega
  · -- all chips are met at their first pages
    have hright := assemble_right (Nat.le_of_lt hab) hb hchip
      fun link hlink => by
        obtain ⟨-, hplace, hoff, hhi⟩ := hp.link_place hs h hlink
        have hl0 := hloc link hlink
        exact ⟨hl0, by omega, by omega, by omega⟩
    obtain ⟨hfits, e', heq, hmem⟩ := hright
    refine ⟨hfits, a, e', heq, ?_⟩
    intro i
    rw [hmem i]
    constructor
    · rintro ⟨hai, hib | ⟨link, hlink, hhi⟩⟩
      · exact Or.inl ⟨hai, hib⟩
      · by_cases hib : i < b
        · exact Or.inl ⟨hai, hib⟩
        · -- to the right of the new pages, so behind the start of the chip
          obtain ⟨-, hplace, hoff, -⟩ := hp.link_place hs h hlink
          exact Or.inr ⟨link, hlink, by omega, hhi⟩
    · rintro (⟨hai, hib⟩ | ⟨link, hlink, hlo, hhi⟩)
      · exact ⟨hai, Or.inl hib⟩
      · obtain ⟨-, hplace, -, -⟩ := hp.link_place hs h hlink
        have hl0 := hloc link hlink
        exact ⟨by omega, Or.inr ⟨link, hlink, hhi⟩⟩

/-- **What a normal end leaves** is the database with the interval stitched in. -/
theorem Placed.stitched (hp : Placed s db lo hi) (hs : Memory K s) (hab : a < b)
    (hb : b ≤ s.length) (h : Greedy K db [] 0 (slice s a b) links) (hclash : ¬ Clash links) {n : Str}
    (hfree : n ∉ eraseAll db (links.map Link.chip)) :
    Stitched s db (slice s a b) (withChip (eraseAll db (links.map Link.chip)) n
      (assemble (pagesOf db) (slice s a b) links)) := by
  obtain ⟨-, a', b', heq, hmem⟩ := hp.assemble_eq hs hab hb h hclash
  have hlinked : ∀ c, c ∈ links.map Link.chip ↔ Shares db (slice s a b) c := fun c =>
    hp.mem_links_iff hs hb h
  have hpages : ∀ t, t ∈ slice s a' b' ↔
      t ∈ slice s a b ∨ ∃ c l, Shares db (slice s a b) c ∧ Stored db c l t := by
    intro t
    rw [mem_slice, mem_slice]
    constructor
    · rintro ⟨i, h1, h2, ht⟩
      rcases (hmem i).mp ⟨h1, h2⟩ with ⟨h3, h4⟩ | ⟨link, hlink, h3, h4⟩
      · exact Or.inl ⟨i, h3, h4, ht⟩
      · have hshares := (hlinked link.chip).mp (List.mem_map_of_mem hlink)
        obtain ⟨hc, -⟩ := hp.link_place hs h hlink
        obtain ⟨l, hst⟩ := hp.exists_stored_iff.mpr ⟨hc, i, h3, h4, ht⟩
        exact Or.inr ⟨_, l, hshares, hst⟩
    · rintro (⟨i, h1, h2, ht⟩ | ⟨c, l, hshares, hst⟩)
      · obtain ⟨h3, h4⟩ := (hmem i).mpr (Or.inl ⟨h1, h2⟩)
        exact ⟨i, h3, h4, ht⟩
      · obtain ⟨link, hlink, rfl⟩ := List.mem_map.mp ((hlinked c).mpr hshares)
        obtain ⟨-, i, h1, h2, ht⟩ := hp.exists_stored_iff.mp ⟨l, hst⟩
        obtain ⟨h3, h4⟩ := (hmem i).mpr (Or.inr ⟨link, hlink, h1, h2⟩)
        exact ⟨i, h3, h4, ht⟩
  -- the first new page is in it
  have hne : slice s a' b' ≠ [] := by
    intro hnil
    have hin : s[a] ∈ slice s a' b' := (hpages _).mpr (Or.inl (mem_slice.mpr
      ⟨a, le_rfl, hab, List.getElem?_eq_getElem (by omega)⟩))
    rw [hnil] at hin
    cases hin
  have hrest : ∀ c, c ∈ eraseAll db (links.map Link.chip) ↔
      c ∈ db ∧ ¬ Shares db (slice s a b) c := fun c => by rw [mem_eraseAll, hlinked c]
  rw [heq]
  refine ⟨n, slice s a' b', holds_withChip hne, slice_sublist _ _ _, hpages, ?_, ?_⟩
  · intro c
    rw [withChip_of_ne_nil hne, Finmap.mem_insert, hrest c]
  · intro c hc hshares
    have hcn : c ≠ n := fun hcn => hfree (hcn ▸ (hrest c).mpr ⟨hc, hshares⟩)
    refine ⟨hcn, ?_⟩
    rw [withChip_of_ne_nil hne, Finmap.lookup_insert_of_ne _ hcn, lookup_eraseAll,
      if_neg fun hl => hshares ((hlinked c).mp hl)]

/-- No more chips are linked than are stored. -/
theorem Greedy.length_le {seen pages : List Str} {k : ℕ} (h : Greedy K db seen k pages links) :
    links.length ≤ chipCount db := by
  have hsub : (links.map Link.chip).toFinset ⊆ db.keys := by
    intro c hc
    obtain ⟨link, hlink, rfl⟩ := List.mem_map.mp (List.mem_toFinset.mp hc)
    exact Finmap.mem_keys.mpr (h.linked link hlink).1.mem
  have hcard := Finset.card_le_card hsub
  rwa [List.toFinset_card_of_nodup h.chips_nodup.1, List.length_map] at hcard

/-- **`add` stitches an interval into a database of intervals exactly when** it is not the case that
    its first page is stored and at least two stored chips share a page with it. -/
theorem add_stitches_iff (hs : Memory K s) (hp : Placed s db lo hi) (hcount : chipCount db < 999)
    (hab : a < b) (hb : b ≤ s.length) (pages : List (ApproxPage K))
    (hpages : pages.map ApproxPage.errorString = slice s a b) :
    AddStitches K s db pages ↔ ¬ FrontAndMore db (slice s a b) := by
  have hwf := hp.wellFormed hs
  have hlen : (slice s a b).length = b - a := length_slice hb
  constructor
  · -- a clash makes every call with enough random outcomes raise
    intro hall hfront
    obtain ⟨draws, hrounds⟩ := exists_rounds (chipCount db + 1)
    obtain ⟨links, hgreedy, hend⟩ := run_add hwf (fun _ => .alphabetical) pages draws
    rw [hpages] at hgreedy hend
    have hclash := (hp.clash_iff hs hab hb hgreedy).mpr hfront
    rcases hall (fun _ => .alphabetical) draws with ⟨w', hrun, -⟩ | ⟨-, hno⟩
    · rw [hrun] at hend
      exact hend.1 hclash
    · exact hno hrounds
  · -- without a clash the merges fit, so no exception is possible
    intro hfront os draws
    obtain ⟨links, hgreedy, hend⟩ := run_add hwf os pages draws
    rw [hpages] at hgreedy hend ⊢
    have hclash : ¬ Clash links := fun hc => hfront ((hp.clash_iff hs hab hb hgreedy).mp hc)
    have hfits := (hp.assemble_eq hs hab hb hgreedy hclash).1
    cases hrun : (add K os pages).run ⟨db, draws⟩ with
    | ok u w' =>
      rw [hrun] at hend
      obtain ⟨-, -, n, hfree, hdb⟩ := hend
      refine Or.inl ⟨w', rfl, ?_⟩
      rw [hdb]
      exact hp.stitched hs hab hb hgreedy hclash hfree
    | error e w' =>
      rw [hrun] at hend
      cases e with
      | raised e =>
        obtain ⟨hbad, -⟩ := hend
        rw [hlen] at hbad
        rcases hbad with hbad | hbad
        · exact absurd hbad hclash
        · exact absurd hfits hbad
      | drawing =>
        refine Or.inr ⟨⟨w', rfl⟩, ?_⟩
        intro hrounds
        exact hend (by omega) (hrounds.mono (by have := hgreedy.length_le; omega))
      | outOfFuel => exact absurd hend id

end Places

/-! ## Two chips that are joined -/

/-- A memory of two pages. -/
def twoPages : List Str := ["00000".toList, "00001".toList]

/-- Each of its pages stored as a chip of its own. -/
def twoPagesDb : Database :=
  ((∅ : Database).insert (digits 1) (chipDir ["00000".toList])).insert (digits 2)
    (chipDir ["00001".toList])

/-- The place of each chip. -/
def twoPagesLo (c : Str) : ℕ := if c = digits 2 then 1 else 0

theorem memory_twoPages : Memory Constants.repository twoPages :=
  ⟨by decide, by decide⟩

theorem mem_twoPagesDb {c : Str} : c ∈ twoPagesDb ↔ c = digits 2 ∨ c = digits 1 := by
  rw [twoPagesDb, Finmap.mem_insert, Finmap.mem_insert]
  simp [Finmap.notMem_empty]

theorem placed_twoPagesDb :
    Placed twoPages twoPagesDb twoPagesLo fun c => twoPagesLo c + 1 := by
  refine ⟨fun c _ => Nat.lt_succ_self _, ?_, ?_, ?_⟩
  · intro c hc
    rcases mem_twoPagesDb.mp hc with rfl | rfl <;> decide
  · intro c hc
    rcases mem_twoPagesDb.mp hc with rfl | rfl
    · exact Finmap.lookup_insert _
    · exact (Finmap.lookup_insert_of_ne _ (by decide)).trans (Finmap.lookup_insert _)
  · intro c hc c' hc' hne i
    rcases mem_twoPagesDb.mp hc with rfl | rfl <;> rcases mem_twoPagesDb.mp hc' with rfl | rfl
    · exact absurd rfl hne
    · rw [show twoPagesLo (digits 2) = 1 from rfl, show twoPagesLo (digits 1) = 0 from rfl]
      omega
    · rw [show twoPagesLo (digits 2) = 1 from rfl, show twoPagesLo (digits 1) = 0 from rfl]
      omega
    · exact absurd rfl hne

/-- At the second page alone. -/
theorem add_stitches_iff_second_page :
    AddStitches Constants.repository twoPages twoPagesDb
        [⟨"00001".toList, .int (-1), .int (-1), by decide⟩] ↔
      ¬ FrontAndMore twoPagesDb (slice twoPages 1 2) :=
  add_stitches_iff memory_twoPages placed_twoPagesDb (by decide +kernel) (by decide) (by decide) _ rfl

/-- **Adding both pages at once raises**: the first one is stored, and both chips are met. -/
theorem add_two_pages_raises :
    Memory Constants.repository twoPages ∧
      Placed twoPages twoPagesDb twoPagesLo (fun c => twoPagesLo c + 1) ∧
      chipCount twoPagesDb < 999 ∧
      ¬ AddStitches Constants.repository twoPages twoPagesDb
        [⟨"00000".toList, .int (-1), .int (-1), by decide⟩,
          ⟨"00001".toList, .int (-1), .int (-1), by decide⟩] := by
  refine ⟨memory_twoPages, placed_twoPagesDb, by decide +kernel, ?_⟩
  intro hall
  have hstop : error? ((add Constants.repository (fun _ => .alphabetical)
      [⟨"00000".toList, .int (-1), .int (-1), by decide⟩,
        ⟨"00001".toList, .int (-1), .int (-1), by decide⟩]).run
      ⟨twoPagesDb, [⟨3, by decide⟩]⟩) = some (.raised .typeError) := by decide +kernel
  have hrun := eq_error_of_error? hstop
  rcases hall (fun _ => .alphabetical) [⟨3, by decide⟩] with ⟨w', hok, -⟩ | ⟨⟨w', hdrawing⟩, -⟩
  · rw [hrun] at hok
    cases hok
  · rw [hrun] at hdrawing
    cases hdrawing

end ProbableCause
