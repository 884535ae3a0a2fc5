import ProbableCause.Database.Invariant
import ProbableCause.Database.Matching

/-!
# `Database.AddRun` — one call of `add`, from beginning to end

The ends a call of `add` can come to, in terms of the matches `links` of the new pages with the stored
chips (`AddEnd`):

- normally: the matched chips are gone, and one chip holds the pages assembled from the new pages
  and the matched chips (`assemble`);
- with a `TypeError`, when the first match is at offset `0` and there is another one (`Clash`): the
  sum of an integer and a string in the shift of the offsets;
- with an `AttributeError`, when a merge reads past the end of the accumulated chip (`¬ Fits`);
- still drawing a chip number, when the random outcomes run out.

`run_add_of_links` is the specification; `run_add` adds that the matches are a greedy match of the
pages with the database before the call, and `exists_run_add` that every greedy match can occur.
-/

namespace ProbableCause

open Text Exits Overlay

variable {K : Constants} {db : Database}

/-! ## Databases: counting and removing chips -/

/-- The number of chips. -/
def chipCount (db : Database) : ℕ := db.keys.card

theorem chipCount_erase {c : Str} (h : c ∈ db) : chipCount (db.erase c) + 1 = chipCount db := by
  have hmem : c ∈ db.keys := Finmap.mem_keys.mpr h
  rw [chipCount, chipCount, Finmap.keys_erase, Finset.card_erase_of_mem hmem]
  have hpos : 0 < db.keys.card := Finset.card_pos.mpr ⟨c, hmem⟩
  omega

theorem chipCount_insert {c : Str} (h : c ∉ db) (d : Dir) :
    chipCount (db.insert c d) = chipCount db + 1 := by
  have hkeys : (db.insert c d).keys = insert c db.keys := by
    ext c'
    rw [Finmap.mem_keys, Finmap.mem_insert, Finset.mem_insert, Finmap.mem_keys]
  rw [chipCount, chipCount, hkeys,
    Finset.card_insert_of_notMem fun hm => h (Finmap.mem_keys.mp hm)]

/-- The database without the named chips. -/
def eraseAll (db : Database) (names : List Str) : Database :=
  names.foldl (fun db c => db.erase c) db

@[simp] theorem eraseAll_nil (db : Database) : eraseAll db [] = db := rfl

@[simp] theorem eraseAll_cons (db : Database) (c : Str) (names : List Str) :
    eraseAll db (c :: names) = eraseAll (db.erase c) names := rfl

theorem lookup_eraseAll (names : List Str) (db : Database) (c : Str) :
    (eraseAll db names).lookup c = if c ∈ names then none else db.lookup c := by
  induction names generalizing db with
  | nil => simp
  | cons a names ih =>
    rw [eraseAll_cons, ih]
    by_cases hc : c ∈ names
    · rw [if_pos hc, if_pos (List.mem_cons_of_mem _ hc)]
    · by_cases hca : c = a
      · rw [if_neg hc, hca, Finmap.lookup_erase, if_pos List.mem_cons_self]
      · rw [if_neg hc, Finmap.lookup_erase_ne hca, if_neg (by simp [hca, hc])]

theorem mem_eraseAll {names : List Str} {c : Str} :
    c ∈ eraseAll db names ↔ c ∈ db ∧ c ∉ names := by
  rw [Finmap.mem_iff, Finmap.mem_iff, lookup_eraseAll]
  by_cases hc : c ∈ names
  · rw [if_pos hc]
    simp [hc]
  · rw [if_neg hc]
    simp [hc]

/-- A chip stored under a free number and removed again leaves no trace. -/
theorem erase_withChip {c : Str} (h : c ∉ db) (ps : List Str) : (withChip db c ps).erase c = db := by
  apply Finmap.ext_lookup
  intro c'
  by_cases hc : c' = c
  · rw [hc, Finmap.lookup_erase, Finmap.lookup_eq_none.mpr h]
  · rw [Finmap.lookup_erase_ne hc, withChip]
    split
    · rfl
    · exact Finmap.lookup_insert_of_ne _ hc

/-- Taking a chip out and storing it again changes nothing. -/
theorem Holds.withChip_erase {c : Str} {ps : List Str} (h : Holds db c ps) (hne : ps ≠ []) :
    ProbableCause.withChip (db.erase c) c ps = db := by
  rw [withChip_of_ne_nil hne]
  apply Finmap.ext_lookup
  intro c'
  by_cases hc : c' = c
  · rw [hc, Finmap.lookup_insert, h]
  · rw [Finmap.lookup_insert_of_ne _ hc, Finmap.lookup_erase_ne hc]

theorem holds_withChip {c : Str} {ps : List Str} (hne : ps ≠ []) : Holds (withChip db c ps) c ps := by
  rw [withChip_of_ne_nil hne]
  exact Finmap.lookup_insert _

theorem Holds.withChip {c c' : Str} {ps qs : List Str} (h : Holds db c ps) (hne : c ≠ c') :
    Holds (withChip db c' qs) c ps := by
  unfold ProbableCause.withChip
  split
  · exact h
  · exact (Finmap.lookup_insert_of_ne _ hne).trans h

theorem Holds.erase {c c' : Str} {ps : List Str} (h : Holds db c ps) (hne : c ≠ c') :
    Holds (db.erase c') c ps :=
  (Finmap.lookup_erase_ne hne).trans h

theorem WellFormed.withChip {ps : List Str} (h : WellFormed K db) (c : Str)
    (hval : ∀ s ∈ ps, Valid K s) : WellFormed K (withChip db c ps) := by
  by_cases hps : ps = []
  · rwa [hps, withChip_nil]
  · rw [withChip_of_ne_nil hps]
    exact h.insert c hps hval

/-! ## Drawing a number ends -/

/-- The draws contain every number at least `k` times over: `k` rounds, each with every outcome of
    `random.randint(1,1000)`. -/
def Rounds : ℕ → List Draw → Prop
  | 0, _ => True
  | k + 1, draws => ∃ front back, draws = front ++ back ∧ (∀ r : Draw, r ∈ front) ∧ Rounds k back

theorem Rounds.append_left {k : ℕ} {draws : List Draw} (h : Rounds k draws) (front : List Draw) :
    Rounds k (front ++ draws) := by
  cases k with
  | zero => trivial
  | succ k =>
    obtain ⟨f, b, rfl, hall, hb⟩ := h
    exact ⟨front ++ f, b, by simp, fun r => List.mem_append_right _ (hall r), hb⟩

theorem Rounds.mono {k m : ℕ} {draws : List Draw} (h : Rounds k draws) (hm : m ≤ k) :
    Rounds m draws := by
  induction m generalizing k draws with
  | zero => trivial
  | succ m ih =>
    cases k with
    | zero => omega
    | succ k =>
      obtain ⟨f, b, rfl, hall, hb⟩ := h
      exact ⟨f, b, rfl, hall, ih hb (by omega)⟩

/-- All outcomes of `random.randint(1,1000)`. -/
def allDraws : List Draw :=
  (List.range 1000).pmap (fun n h => ⟨n + 1, by omega, h⟩) fun _ h => List.mem_range.mp h

theorem mem_allDraws (r : Draw) : r ∈ allDraws := by
  rw [allDraws, List.mem_pmap]
  obtain ⟨n, h1, h2⟩ := r
  exact ⟨n - 1, List.mem_range.mpr (by omega), Subtype.ext (by simp; omega)⟩

/-- There are draws with any number of rounds. -/
theorem exists_rounds (k : ℕ) : ∃ draws, Rounds k draws := by
  induction k with
  | zero => exact ⟨[], trivial⟩
  | succ k ih =>
    -- one more round in front
    obtain ⟨draws, h⟩ := ih
    exact ⟨allDraws ++ draws, _, _, rfl, mem_allDraws, h⟩

/-- With fewer than `1000` chips some number of `1..1000` is free. -/
theorem exists_free (h : chipCount db < 1000) : ∃ r : Draw, digits r.1 ∉ db := by
  have hcard : ((Finset.range 1000).image fun n => digits (n + 1)).card = 1000 := by
    rw [Finset.card_image_of_injective _ fun a b hab => by
      have := digits_inj.mp hab; omega, Finset.card_range]
  obtain ⟨c, hc, hfree⟩ := Finset.exists_mem_notMem_of_card_lt_card
    (s := db.keys) (by rw [hcard]; exact h)
  obtain ⟨n, hn, rfl⟩ := Finset.mem_image.mp hc
  have hn' : n < 1000 := Finset.mem_range.mp hn
  exact ⟨⟨n + 1, by omega, by omega⟩, fun hm => hfree (Finmap.mem_keys.mpr hm)⟩

/-- A free number among the next draws ends the loop there. -/
theorem firstFree_append {front : List Draw} (back : List Draw) {r : Draw} (hr : r ∈ front)
    (hfree : digits r.1 ∉ db) :
    ∃ n front', firstFree db (front ++ back) = some (n, front' ++ back) := by
  induction front with
  | nil => cases hr
  | cons a front ih =>
    rw [List.cons_append, firstFree]
    by_cases ha : pyStr (.int (a.1 : ℤ)) ∈ db
    · -- a number that is taken: it is not the free one
      rw [if_pos ha]
      rcases List.mem_cons.mp hr with rfl | hr
      · exact absurd ha hfree
      · exact ih hr
    · rw [if_neg ha]
      exact ⟨a.1, front, rfl⟩

/-- **One round of draws is enough** to find a number, if one is free. -/
theorem firstFree_rounds_of_free {k : ℕ} {draws : List Draw} {r : Draw} (hr : digits r.1 ∉ db)
    (h : Rounds (k + 1) draws) : ∃ n rest, firstFree db draws = some (n, rest) ∧ Rounds k rest := by
  obtain ⟨front, back, rfl, hall, hback⟩ := h
  obtain ⟨n, front', hn⟩ := firstFree_append back (hall r) hr
  exact ⟨n, front' ++ back, hn, hback.append_left front'⟩

/-- One is free if there are fewer than `1000` chips. -/
theorem firstFree_rounds {k : ℕ} {draws : List Draw} (hcount : chipCount db < 1000)
    (h : Rounds (k + 1) draws) : ∃ n rest, firstFree db draws = some (n, rest) ∧ Rounds k rest := by
  obtain ⟨r, hr⟩ := exists_free hcount
  exact firstFree_rounds_of_free hr h

/-- A number that was drawn used up one round. -/
theorem Rounds.rest {k n : ℕ} {draws rest : List Draw} (hdraw : firstFree db draws = some (n, rest))
    (hcount : chipCount db < 1000) (h : Rounds (k + 1) draws) : Rounds k rest := by
  obtain ⟨n', rest', hfound, hrest⟩ := firstFree_rounds hcount h
  rw [hdraw] at hfound
  cases hfound
  exact hrest

/-- When no number is found, there was no round. -/
theorem not_rounds_of_none {k : ℕ} {draws : List Draw} (hdraw : firstFree db draws = none)
    (hcount : chipCount db < 1000) : ¬ Rounds (k + 1) draws := by
  intro h
  obtain ⟨n, rest, hfound, -⟩ := firstFree_rounds hcount h
  rw [hdraw] at hfound
  contradiction

/-! ## The merges -/

/-- The pages the merges assemble from the pages `q` and the chips of the links (`P` gives the pages
    of each). -/
def assemble (P : Str → List Str) (q : List Str) (links : List Link) : List Str :=
  links.foldl (fun q link => stitch q link.offset (P link.chip) link.loc) q

@[simp] theorem assemble_nil (P : Str → List Str) (q : List Str) : assemble P q [] = q := rfl

@[simp] theorem assemble_cons (P : Str → List Str) (q : List Str) (link : Link) (links : List Link) :
    assemble P q (link :: links) =
      assemble P (stitch q link.offset (P link.chip) link.loc) links := rfl

/-- **No merge reads past the end** of the accumulated chip: of length `len` before the first of the
    links, then as long as the merges make it. -/
def Fits (P : Str → List Str) : ℕ → List Link → Prop
  | _, [] => True
  | len, link :: links => (link.offset ≤ link.loc ∨ link.offset ≤ len) ∧
      Fits P (stitchLen len link.offset (P link.chip).length link.loc) links

/-- The chips of the links are stored, with the pages `P`, and the locations are pages of theirs. -/
def Linked (P : Str → List Str) (db : Database) (links : List Link) : Prop :=
  ∀ link ∈ links, Holds db link.chip (P link.chip) ∧ link.loc < (P link.chip).length

/-- `stitch?` for a link: all reads succeed, or the front of the accumulated chip is too short. -/
theorem stitch?_link {q p : List Str} {link : Link} (hloc : link.loc < p.length) :
    ((link.offset ≤ link.loc ∨ link.offset ≤ q.length) ∧
      (stitch? q link.offset p link.loc).all Option.isSome = true ∧
      leading (stitch? q link.offset p link.loc) = stitch q link.offset p link.loc ∧
      (stitch q link.offset p link.loc).length =
        stitchLen q.length link.offset p.length link.loc) ∨
    (¬ (link.offset ≤ link.loc ∨ link.offset ≤ q.length) ∧
      (stitch? q link.offset p link.loc).all Option.isSome = false ∧
      leading (stitch? q link.offset p link.loc) = q) := by
  by_cases hfit : link.offset ≤ link.loc ∨ link.offset ≤ q.length
  · have hmap := stitch?_eq_map_some (p := q) (Nat.le_of_lt hloc) hfit
    refine Or.inl ⟨hfit, ?_, ?_, length_stitch (Nat.le_of_lt hloc) hfit⟩
    · rw [hmap]; simp
    · rw [hmap, leading_map_some]
  · -- the front of `q` ends before the offset: all of it is read, then a read fails
    rw [not_or, not_le, not_le] at hfit
    obtain ⟨r, hr⟩ := stitch?_of_short (q := p) hfit.1 hfit.2
    refine Or.inr ⟨by omega, ?_, ?_⟩
    · rw [hr]; simp
    · rw [hr, leading_map_some_append, leading_none, List.append_nil]

/-- One round of the loop of `add`. -/
theorem run_mergeLoop_cons {w : World} {n : ℕ} {link : Link} (ms : List Match) {q p : List Str}
    (hwf : WellFormed K w.db) (hq : Holds w.db (digits n) q) (hp : Holds w.db link.chip p)
    (hne : digits n ≠ link.chip) :
    (mergeLoop K (.int n) (link.toMatch :: ms)).run w =
      match storeResult ((w.db.erase (digits n)).erase link.chip) w.draws
        (stitch? q link.offset p link.loc) with
      | .ok n' w' => (mergeLoop K (.int n') ms).run w'
      | .error e w' => .error e w' := by
  have hmerge : (chipMerge K (.int n) (.int link.offset) (.str link.chip)
    (.str (digits link.loc))).run w
      = storeResult ((w.db.erase (digits n)).erase link.chip) w.draws
        (stitch? q link.offset p link.loc) :=
    run_chipMerge hq hp hne (fun _ hs => hwf.valid hq hs) (fun _ hs => hwf.valid hp hs) rfl
      (pyInt_digits link.loc)
  rw [mergeLoop, List.foldlM_cons, EStateM.run_bind, EStateM.run_bind]
  simp only [Link.toMatch, hmerge]
  cases storeResult ((w.db.erase (digits n)).erase link.chip) w.draws
    (stitch? q link.offset p link.loc) with
  | ok n' w' => rfl
  | error e w' => rfl

/-- The state between two merges: the accumulated chip `q` under the number `n`, the chips still to be
    merged under other names. -/
structure Merging (K : Constants) (P : Str → List Str) (db : Database) (n : ℕ) (q : List Str)
    (links : List Link) : Prop where
  wellFormed : WellFormed K db
  current : Holds db (digits n) q
  linked : Linked P db links
  nodup : (links.map Link.chip).Nodup
  notMem : digits n ∉ links.map Link.chip

/-- **The step of the loop.** A merge whose reads succeed leads, under a new free number, to such a
    state again, with the stitched pages. -/
theorem Merging.step {P : Str → List Str} {n n' : ℕ} {q : List Str} {link : Link}
    {links : List Link} (h : Merging K P db n q (link :: links))
    (hfree : digits n' ∉ (db.erase (digits n)).erase link.chip) :
    Merging K P (withChip ((db.erase (digits n)).erase link.chip) (digits n')
      (stitch q link.offset (P link.chip) link.loc)) n'
      (stitch q link.offset (P link.chip) link.loc) links := by
  obtain ⟨hp, hloc⟩ := h.linked link List.mem_cons_self
  have hnodup := h.nodup
  have hnotMem := h.notMem
  rw [List.map_cons, List.nodup_cons] at hnodup
  rw [List.map_cons, List.mem_cons, not_or] at hnotMem
  have hval : ∀ s ∈ stitch q link.offset (P link.chip) link.loc, Valid K s := by
    intro s hs
    rcases mem_of_mem_stitch hs with hs | hs
    · exact h.wellFormed.valid h.current hs
    · exact h.wellFormed.valid hp hs
  -- the chips still to be merged are neither of the two chips removed
  have hkept : ∀ l ∈ links, Holds ((db.erase (digits n)).erase link.chip) l.chip (P l.chip) := by
    intro l hl
    have hmem : l.chip ∈ links.map Link.chip := List.mem_map_of_mem hl
    have h1 : l.chip ≠ digits n := fun he => hnotMem.2 (he ▸ hmem)
    have h2 : l.chip ≠ link.chip := fun he => hnodup.1 (he ▸ hmem)
    exact ((h.linked l (List.mem_cons_of_mem _ hl)).1.erase h1).erase h2
  -- the new number is free, so it is not the name of a chip that was kept
  have hfree' : digits n' ∉ links.map Link.chip := by
    intro hmem
    obtain ⟨l, hl, hchip⟩ := List.mem_map.mp hmem
    exact hfree (hchip ▸ (hkept l hl).mem)
  refine ⟨?_, ?_, fun l hl => ⟨?_, (h.linked l (List.mem_cons_of_mem _ hl)).2⟩, hnodup.2, hfree'⟩
  · exact ((h.wellFormed.erase _).erase _).withChip _ hval
  · exact holds_withChip (stitch_ne_nil hloc)
  · exact (hkept l hl).withChip fun he => hfree' (he ▸ List.mem_map_of_mem hl)

/-- The accumulated chip is not the next one to be merged. -/
theorem Merging.ne {P : Str → List Str} {n : ℕ} {q : List Str} {link : Link} {links : List Link}
    (h : Merging K P db n q (link :: links)) : digits n ≠ link.chip := by
  have hnot := h.notMem
  rw [List.map_cons, List.mem_cons, not_or] at hnot
  exact hnot.1

/-- Each merge removes two chips, -/
theorem Merging.chipCount_erase {P : Str → List Str} {n : ℕ} {q : List Str} {link : Link}
    {links : List Link} (h : Merging K P db n q (link :: links)) :
    chipCount ((db.erase (digits n)).erase link.chip) + 2 = chipCount db := by
  obtain ⟨hp, -⟩ := h.linked link List.mem_cons_self
  have h1 := ProbableCause.chipCount_erase h.current.mem
  have h2 := ProbableCause.chipCount_erase (hp.erase h.ne.symm).mem
  omega

/-- and stores one. -/
theorem chipCount_withChip {c : Str} (hfree : c ∉ db) {ps : List Str} (hps : ps ≠ []) :
    chipCount (withChip db c ps) = chipCount db + 1 := by
  rw [withChip_of_ne_nil hps, chipCount_insert hfree]

/-- **The rule for the loop of `add`**: what holds when there is nothing to merge, when the draws
    run out, when a merge reads past the end, and before a merge whenever it holds after it, holds
    of every run of the loop. -/
theorem mergeLoop_rule {P : Str → List Str}
    {motive : World → ℕ → List Str → List Link → EStateM.Result Stop World PyVal → Prop}
    (hnil : ∀ w n q, Merging K P w.db n q [] → motive w n q [] (.ok (.int n) w))
    (hdrawing : ∀ w n q link links, Merging K P w.db n q (link :: links) →
      firstFree ((w.db.erase (digits n)).erase link.chip) w.draws = none →
        motive w n q (link :: links) (.error .drawing ⟨(w.db.erase (digits n)).erase link.chip, []⟩))
    (hshort : ∀ w n q link links n' rest, Merging K P w.db n q (link :: links) →
      firstFree ((w.db.erase (digits n)).erase link.chip) w.draws = some (n', rest) →
        ¬ (link.offset ≤ link.loc ∨ link.offset ≤ q.length) →
          motive w n q (link :: links) (.error (.raised .attributeError)
            ⟨withChip ((w.db.erase (digits n)).erase link.chip) (digits n') q, rest⟩))
    (hmerge : ∀ w n q link links n' rest r, Merging K P w.db n q (link :: links) →
      firstFree ((w.db.erase (digits n)).erase link.chip) w.draws = some (n', rest) →
        (link.offset ≤ link.loc ∨ link.offset ≤ q.length) →
          motive ⟨withChip ((w.db.erase (digits n)).erase link.chip) (digits n')
              (stitch q link.offset (P link.chip) link.loc), rest⟩ n'
            (stitch q link.offset (P link.chip) link.loc) links r →
          motive w n q (link :: links) r)
    (links : List Link) (w : World) (n : ℕ) (q : List Str) (h : Merging K P w.db n q links) :
    motive w n q links ((mergeLoop K (.int n) (links.map Link.toMatch)).run w) := by
  induction links generalizing w n q with
  | nil => exact hnil w n q h
  | cons link links ih =>
    obtain ⟨hp, hloc⟩ := h.linked link List.mem_cons_self
    rw [List.map_cons, run_mergeLoop_cons _ h.wellFormed h.current hp h.ne, storeResult]
    cases hdraw : firstFree ((w.db.erase (digits n)).erase link.chip) w.draws with
    | none => exact hdrawing w n q link links h hdraw
    | some pair =>
      obtain ⟨n', rest⟩ := pair
      have hfree := (firstFree_spec hdraw).2.2
      rcases stitch?_link (q := q) hloc with ⟨hfit, hall, hlead, -⟩ | ⟨hfit, hall, hlead⟩
      · -- the merge succeeds: the rest of the loop starts from the state after it
        simp only [hall, if_true, hlead]
        exact hmerge w n q link links n' rest _ h hdraw hfit (ih _ n' _ (h.step hfree))
      · -- a read fails: the chip is left with the pages read before
        simp only [hall, Bool.false_eq_true, if_false, hlead]
        exact hshort w n q link links n' rest h hdraw hfit

/-- **The ends of the loop of `add`**, from a state between two merges. -/
def LoopEnd (P : Str → List Str) (db : Database) (n : ℕ) (q : List Str) (links : List Link)
    (draws : List Draw) : EStateM.Result Stop World PyVal → Prop
  | .ok chip w' => Fits P q.length links ∧ ∃ n' : ℕ, chip = .int n' ∧
      digits n' ∉ eraseAll db (digits n :: links.map Link.chip) ∧
      w'.db = withChip (eraseAll db (digits n :: links.map Link.chip)) (digits n')
        (assemble P q links)
  | .error .drawing _ => chipCount db < 1002 → ¬ Rounds links.length draws
  | .error (.raised _) w' => ¬ Fits P q.length links ∧
      ∃ k, chipCount w'.db + (k + 1) = chipCount db ∧ ¬ Fits P q.length (links.take (k + 1))
  | .error .outOfFuel _ => False

theorem run_mergeLoop {P : Str → List Str} (links : List Link) (w : World) (n : ℕ) (q : List Str)
    (h : Merging K P w.db n q links) :
    LoopEnd P w.db n q links w.draws
      ((mergeLoop K (.int n) (links.map Link.toMatch)).run w) := by
  apply mergeLoop_rule (K := K)
    (motive := fun w n q links r => LoopEnd P w.db n q links w.draws r) _ _ _ _
    links w n q h
  · intro w n q h
    have hdb : withChip (w.db.erase (digits n)) (digits n) q = w.db :=
      h.current.withChip_erase (h.wellFormed.ne_nil h.current)
    exact ⟨trivial, n, rfl, Finmap.notMem_erase_self, hdb.symm⟩
  · -- the draws ran out: they did not contain one round
    intro w n q link links h hdraw hcount
    have hgone := h.chipCount_erase
    exact not_rounds_of_none hdraw (by omega)
  · -- a read fails: two chips are gone, and one is left with the pages read before
    intro w n q link links n' rest h hdraw hfit
    have hgone := h.chipCount_erase
    have hone := chipCount_withChip (firstFree_spec hdraw).2.2 (h.wellFormed.ne_nil h.current)
    refine ⟨fun hf => hfit hf.1, 0, ?_, fun hf => hfit hf.1⟩
    dsimp only
    omega
  · intro w n q link links n' rest r h hdraw hfit hend
    obtain ⟨hp, hloc⟩ := h.linked link List.mem_cons_self
    have hfree := (firstFree_spec hdraw).2.2
    have hgone := h.chipCount_erase
    have hone := chipCount_withChip hfree (stitch_ne_nil (p := q) (k := link.offset) hloc)
    have hlen := length_stitch (p := q) (Nat.le_of_lt hloc) hfit
    have hbase : eraseAll (withChip ((w.db.erase (digits n)).erase link.chip) (digits n')
        (stitch q link.offset (P link.chip) link.loc)) (digits n' :: links.map Link.chip)
        = eraseAll w.db (digits n :: (link :: links).map Link.chip) := by
      rw [eraseAll_cons, erase_withChip hfree, List.map_cons, eraseAll_cons, eraseAll_cons]
    cases r with
    | ok chip w' =>
      obtain ⟨hfits, n'', hchip, hfree'', hdb⟩ := hend
      rw [hlen] at hfits
      rw [hbase] at hfree'' hdb
      exact ⟨⟨hfit, hfits⟩, n'', hchip, hfree'', hdb⟩
    | error e w' =>
      cases e with
      | raised e =>
        obtain ⟨hfits, k, hk, hfitk⟩ := hend
        rw [hlen] at hfits hfitk
        refine ⟨fun hf => hfits hf.2, k + 1, ?_, fun hf => hfitk hf.2⟩
        dsimp only at hk
        omega
      | drawing =>
        -- this merge used up one round of draws
        intro hcard hrounds
        refine hend ?_ (hrounds.rest hdraw (by omega))
        dsimp only
        omega
      | outOfFuel => exact hend

/-! ## The shift of the offsets -/

/-- **The shift of the offsets is a sum of an integer and a string**: the first match is at offset
    `0` and there is another one. -/
def Clash : List Link → Prop
  | first :: _ :: _ => first.offset = 0
  | _ => False

instance (links : List Link) : Decidable (Clash links) :=
  match links with
  | [] => inferInstanceAs (Decidable False)
  | [_] => inferInstanceAs (Decidable False)
  | first :: _ :: _ => inferInstanceAs (Decidable (first.offset = 0))

theorem shiftOffsets_of_clash {links : List Link} (h : Clash links) :
    shiftOffsets (links.map Link.toMatch) = raise .typeError := by
  match links, h with
  | first :: second :: links, h =>
    have h0 : first.toMatch.offset = .int 0 := by
      rw [Link.toMatch, show first.offset = 0 from h]
      rfl
    rw [List.map_cons, shiftOffsets, if_pos h0, List.map_cons, List.mapM_cons]
    rfl

theorem shiftOffsets_of_not_clash {links : List Link} (h : ¬ Clash links) :
    shiftOffsets (links.map Link.toMatch) = .ok (links.map Link.toMatch) := by
  match links, h with
  | [], _ => rfl
  | [first], _ =>
    rw [List.map_cons, List.map_nil, shiftOffsets]
    split <;> rfl
  | first :: second :: links, h =>
    have h0 : ¬ first.toMatch.offset = .int 0 := by
      intro he
      have : (first.offset : ℤ) = 0 := PyVal.int.inj he
      exact h (show first.offset = 0 by omega)
    rw [List.map_cons, shiftOffsets, if_neg h0]

/-! ## The whole call -/

/-- The pages of a stored chip. -/
def pagesOf (db : Database) (c : Str) : List Str :=
  leading ((List.range ((db.lookup c).getD ∅).keys.card).map fun i : ℕ =>
    ((db.lookup c).getD ∅).lookup (fileName (.int i)))

theorem Holds.pagesOf_eq {c : Str} {ps : List Str} (h : Holds db c ps) : pagesOf db c = ps := by
  have hread : ((List.range ps.length).map fun i : ℕ => (chipDir ps).lookup (fileName (.int i)))
      = readUpTo ps ps.length := List.map_congr_left fun i _ => lookup_chipDir ps i
  rw [pagesOf, h, Option.getD_some, card_keys_chipDir, hread, readUpTo_of_le le_rfl,
    leading_map_some, List.take_length]

theorem Stored.holds_pagesOf {c s : Str} {l : ℕ} (h : Stored db c l s) :
    Holds db c (pagesOf db c) ∧ (pagesOf db c)[l]? = some s := by
  obtain ⟨ps, hps, hl⟩ := h
  rw [hps.pagesOf_eq]
  exact ⟨hps, hl⟩

/-- The chips of a greedy match are stored chips of the database. -/
theorem Greedy.linked {seen pages : List Str} {k : ℕ} {links : List Link}
    (h : Greedy K db seen k pages links) : Linked (pagesOf db) db links := by
  intro link hlink
  obtain ⟨t, s, hst, -, -⟩ := h.sound link hlink
  obtain ⟨hholds, hl⟩ := hst.holds_pagesOf
  exact ⟨hholds, (List.getElem?_eq_some_iff.mp hl).1⟩

/-- **The ends of `add`**, for pages with the strings `strs` and the greedy match `links` of them. -/
def AddEnd (db : Database) (strs : List Str) (links : List Link) (draws : List Draw) :
    EStateM.Result Stop World Unit → Prop
  | .ok _ w' => ¬ Clash links ∧ Fits (pagesOf db) strs.length links ∧
      ∃ n : ℕ, digits n ∉ eraseAll db (links.map Link.chip) ∧
        w'.db = withChip (eraseAll db (links.map Link.chip)) (digits n)
          (assemble (pagesOf db) strs links)
  | .error .drawing _ => chipCount db < 1000 → ¬ Rounds (links.length + 1) draws
  | .error (.raised _) w' => (Clash links ∨ ¬ Fits (pagesOf db) strs.length links) ∧ w'.db ≠ db
  | .error .outOfFuel _ => False

/-- The state in which the loop of `add` starts. -/
theorem Greedy.merging {strs : List Str} {links : List Link} {n : ℕ} (hwf : WellFormed K db)
    (hval : ∀ s ∈ strs, Valid K s) (hne : strs ≠ []) (hfree : digits n ∉ db)
    (h : Greedy K db [] 0 strs links) :
    Merging K (pagesOf db) (withChip db (digits n) strs) n strs links := by
  have hother : ∀ link ∈ links, link.chip ≠ digits n := fun link hlink he =>
    hfree (he ▸ (h.linked link hlink).1.mem)
  refine ⟨hwf.withChip _ hval, holds_withChip hne, ?_, h.chips_nodup.1, ?_⟩
  · intro link hlink
    obtain ⟨hholds, hloc⟩ := h.linked link hlink
    exact ⟨hholds.withChip (hother link hlink), hloc⟩
  · intro hmem
    obtain ⟨link, hlink, he⟩ := List.mem_map.mp hmem
    exact hother link hlink he

/-- A merge at an offset within the accumulated chip does not fail. -/
theorem fits_singleton {P : Str → List Str} {len : ℕ} {link : Link} (h : link.offset < len) :
    Fits P len [link] := ⟨Or.inr (Nat.le_of_lt h), trivial⟩

theorem valid_errorStrings (pages : List (ApproxPage K)) :
    ∀ s ∈ pages.map ApproxPage.errorString, Valid K s := by
  intro s hs
  obtain ⟨page, -, rfl⟩ := List.mem_map.mp hs
  exact page.valid

/-- Storing the new pages. -/
theorem run_chipAdd_pages {draws rest : List Draw} {n : ℕ}
    (hdraw : firstFree db draws = some (n, rest)) (pages : List (ApproxPage K)) :
    (chipAdd (pages.map some)).run ⟨db, draws⟩ =
      .ok n ⟨withChip db (digits n) (pages.map ApproxPage.errorString), rest⟩ := by
  rw [run_chipAdd, strings_map_some, storeResult_of_some hdraw]

/-- When no number is found for the new chip, nothing has happened yet. -/
theorem run_chipAdd_drawing {draws : List Draw} (hdraw : firstFree db draws = none)
    (pages : List (Option (ApproxPage K))) :
      (chipAdd pages).run ⟨db, draws⟩ = .error .drawing ⟨db, []⟩ := by
  rw [run_chipAdd, storeResult_of_none hdraw]

theorem run_add_of_none {draws : List Draw} (hdraw : firstFree db draws = none) (os : ℕ → Listing)
    (pages : List (ApproxPage K)) (links : List Link) :
    AddEnd db (pages.map ApproxPage.errorString) links draws
      ((add K os pages).run ⟨db, draws⟩) := by
  rw [add, run_bind_error (run_chipAdd_drawing hdraw _)]
  exact not_rounds_of_none hdraw

/-- **`add` after `match`**: the shift raises, or the loop runs. -/
theorem run_add_eq {os : ℕ → Listing} {pages : List (ApproxPage K)} {links : List Link}
    {draws rest : List Draw} {n : ℕ} (hdraw : firstFree db draws = some (n, rest))
    (hmatch : matchPages K os (withChip db (digits n) (pages.map ApproxPage.errorString)) pages
      (.int n) = .ok (links.map Link.toMatch)) :
    (add K os pages).run ⟨db, draws⟩ =
      if Clash links then
        .error (.raised .typeError) ⟨withChip db (digits n) (pages.map ApproxPage.errorString), rest⟩
      else
        match (mergeLoop K (.int n) (links.map Link.toMatch)).run
          ⟨withChip db (digits n) (pages.map ApproxPage.errorString), rest⟩ with
        | .ok _ w' => .ok () w'
        | .error e w' => .error e w' := by
  rw [add, run_bind_ok (run_chipAdd_pages hdraw pages), EStateM.run_bind, EStateM.run_get]
  simp only [hmatch, EStateM.run_bind, run_ofExcept_ok, List.map_eq_nil_iff]
  by_cases hnil : links = []
  · -- no match: the new chip stays as it is
    subst hnil
    rfl
  rw [if_neg hnil]
  by_cases hclash : Clash links
  · rw [if_pos hclash, shiftOffsets_of_clash hclash, raise, EStateM.run_bind, run_ofExcept_error]
  · rw [if_neg hclash, shiftOffsets_of_not_clash hclash, EStateM.run_bind, run_ofExcept_ok]
    dsimp only
    rw [EStateM.run_bind]
    cases (mergeLoop K (.int n) (links.map Link.toMatch)).run
        ⟨withChip db (digits n) (pages.map ApproxPage.errorString), rest⟩ with
    | ok chip w' => rfl
    | error e w' => rfl

/-- **The specification of `add`**: when `match` returns the entries `links`, a greedy match with the
    database before the call, the call ends in one of the ways of `AddEnd`. -/
theorem run_add_of_links (hwf : WellFormed K db) {os : ℕ → Listing} {pages : List (ApproxPage K)}
    {links : List Link} {draws rest : List Draw} {n : ℕ}
    (hdraw : firstFree db draws = some (n, rest))
    (hgreedy : Greedy K db [] 0 (pages.map ApproxPage.errorString) links)
    (hmatch : matchPages K os (withChip db (digits n) (pages.map ApproxPage.errorString)) pages
      (.int n) = .ok (links.map Link.toMatch)) :
    AddEnd db (pages.map ApproxPage.errorString) links draws
      ((add K os pages).run ⟨db, draws⟩) := by
  rw [run_add_eq hdraw hmatch]
  have hval := valid_errorStrings pages
  have hfree : digits n ∉ db := (firstFree_spec hdraw).2.2
  generalize pages.map ApproxPage.errorString = strs at hgreedy hval ⊢
  by_cases hnil : links = []
  · -- no match: the new chip stays as it is
    subst hnil
    exact ⟨id, trivial, n, hfree, rfl⟩
  -- a match needs a page
  have hne : strs ≠ [] := by
    intro he
    rw [he] at hgreedy
    cases hgreedy
    exact hnil rfl
  have hcount : chipCount (withChip db (digits n) strs) = chipCount db + 1 :=
    chipCount_withChip hfree hne
  by_cases hclash : Clash links
  · -- the shift raises, and the new chip stays
    rw [if_pos hclash]
    refine ⟨Or.inl hclash, ?_⟩
    intro he
    have := congrArg chipCount he
    dsimp only at this
    omega
  · rw [if_neg hclash]
    have hmerging := hgreedy.merging hwf hval hne hfree
    have hend := run_mergeLoop links ⟨withChip db (digits n) strs, rest⟩ n strs hmerging
    have hbase : eraseAll (withChip db (digits n) strs) (digits n :: links.map Link.chip)
        = eraseAll db (links.map Link.chip) := by
      rw [eraseAll_cons, erase_withChip hfree]
    cases hrun : (mergeLoop K (.int n) (links.map Link.toMatch)).run
        ⟨withChip db (digits n) strs, rest⟩ with
    | ok chip w' =>
      rw [hrun] at hend
      obtain ⟨hfits, n', -, hfree', hdb⟩ := hend
      rw [hbase] at hfree' hdb
      exact ⟨hclash, hfits, n', hfree', hdb⟩
    | error e w' =>
      rw [hrun] at hend
      cases e with
      | raised e =>
        obtain ⟨hfits, k, hk, hfitk⟩ := hend
        refine ⟨Or.inr hfits, ?_⟩
        intro he
        dsimp only at hk he
        -- the first merge does not fail, so at least two chips are missing
        have hk0 : k ≠ 0 := by
          rintro rfl
          obtain ⟨first, links', rfl⟩ := List.exists_cons_of_ne_nil hnil
          have hoff := (hgreedy.offset_range first List.mem_cons_self).2
          exact hfitk (fits_singleton (by omega))
        have := congrArg chipCount he
        omega
      | drawing =>
        -- the new chip used up one round of draws, the merges have one each
        intro hcard hrounds
        exact hend (by dsimp only; omega) (hrounds.rest hdraw hcard)
      | outOfFuel => exact hend

/-- The new chip out of bounds, the database with it matches as the database without it. -/
theorem stored_withChip_iff {n : Str} (hfree : n ∉ db) {strs : List Str} (hne : strs ≠ [])
    (c : Str) (l : ℕ) (t : Str) :
    (c ∉ [n] ∧ Stored (withChip db n strs) c l t) ↔ (c ∉ ([] : List Str) ∧ Stored db c l t) := by
  have hlookup : c ≠ n → (withChip db n strs).lookup c = db.lookup c := fun hcn => by
    rw [withChip_of_ne_nil hne, Finmap.lookup_insert_of_ne _ hcn]
  constructor
  · rintro ⟨hc, ps, hps, hl⟩
    have hcn : c ≠ n := by simpa using hc
    exact ⟨by simp, ps, (hlookup hcn).symm.trans hps, hl⟩
  · rintro ⟨-, hst⟩
    have hcn : c ≠ n := fun he => hfree (he ▸ hst.mem)
    obtain ⟨ps, hps, hl⟩ := hst
    exact ⟨by simpa using hcn, ps, (hlookup hcn).trans hps, hl⟩

/-- The call of `match` in `add`: the new chip is stored, and ignored. -/
theorem matchPages_withChip (hwf : WellFormed K db) (os : ℕ → Listing)
    (pages : List (ApproxPage K)) {n : ℕ} (hfree : digits n ∉ db) :
    ∃ links, Greedy K db [] 0 (pages.map ApproxPage.errorString) links ∧
      matchPages K os (withChip db (digits n) (pages.map ApproxPage.errorString)) pages (.int n) =
        .ok (links.map Link.toMatch) := by
  by_cases hne : pages = []
  · subst hne
    exact ⟨[], .nil, rfl⟩
  · have hstrs : pages.map ApproxPage.errorString ≠ [] := by simpa using hne
    obtain ⟨links, hlinks, hgreedy⟩ :=
      matchFrom_greedy (hwf.withChip (digits n) (valid_errorStrings pages)) os
      pages 0 [.int n] (by simp) (by simpa using (holds_withChip hstrs).mem)
    exact ⟨links, hgreedy.transfer (stored_withChip_iff hfree hstrs), hlinks⟩

/-- Every greedy match is the result of that call under some listing order. -/
theorem exists_matchPages (hwf : WellFormed K db) (pages : List (ApproxPage K)) {n : ℕ}
    (hfree : digits n ∉ db) {links : List Link}
    (h : Greedy K db [] 0 (pages.map ApproxPage.errorString) links) :
    ∃ os, matchPages K os (withChip db (digits n) (pages.map ApproxPage.errorString)) pages (.int n) =
      .ok (links.map Link.toMatch) := by
  by_cases hne : pages = []
  · subst hne
    cases h
    exact ⟨fun _ => .alphabetical, rfl⟩
  · have hstrs : pages.map ApproxPage.errorString ≠ [] := by simpa using hne
    have h' : Greedy K (withChip db (digits n) (pages.map ApproxPage.errorString)) [digits n] 0
        (pages.map ApproxPage.errorString) links :=
      h.transfer fun c l t => (stored_withChip_iff hfree hstrs c l t).symm
    exact Greedy.realized (hwf.withChip (digits n) (valid_errorStrings pages)) pages
      [.int n] (by simp)
      (by simpa using (holds_withChip hstrs).mem) h'

/-- **Every call of `add`** on a well-formed database ends as its greedy match says. -/
theorem run_add (hwf : WellFormed K db) (os : ℕ → Listing) (pages : List (ApproxPage K))
    (draws : List Draw) :
    ∃ links, Greedy K db [] 0 (pages.map ApproxPage.errorString) links ∧
      AddEnd db (pages.map ApproxPage.errorString) links draws
        ((add K os pages).run ⟨db, draws⟩) := by
  cases hdraw : firstFree db draws with
  | none =>
    obtain ⟨links, -, hgreedy⟩ := matchFrom_greedy hwf os pages 0 [] (by simp) (by simp)
    exact ⟨links, hgreedy, run_add_of_none hdraw os pages links⟩
  | some pair =>
    obtain ⟨n, rest⟩ := pair
    obtain ⟨links, hgreedy, hlinks⟩ := matchPages_withChip hwf os pages (firstFree_spec hdraw).2.2
    exact ⟨links, hgreedy, run_add_of_links hwf hdraw hgreedy hlinks⟩

/-- **Every greedy match occurs**: under some listing order the call ends as it says. -/
theorem exists_run_add (hwf : WellFormed K db) (pages : List (ApproxPage K)) (draws : List Draw)
    {links : List Link} (h : Greedy K db [] 0 (pages.map ApproxPage.errorString) links) :
    ∃ os, AddEnd db (pages.map ApproxPage.errorString) links draws
      ((add K os pages).run ⟨db, draws⟩) := by
  cases hdraw : firstFree db draws with
  | none =>
    exact ⟨fun _ => .alphabetical, run_add_of_none hdraw _ pages links⟩
  | some pair =>
    obtain ⟨n, rest⟩ := pair
    obtain ⟨os, hos⟩ := exists_matchPages hwf pages (firstFree_spec hdraw).2.2 h
    exact ⟨os, run_add_of_links hwf hdraw h hos⟩

end ProbableCause
