import ProbableCause.Database.Atomic
import ProbableCause.Database.Check
import ProbableCause.Database.Disjoint

/-!
# `Database.Order` — when the directory order does not matter

`find` returns the first hit in directory order. With `NOISE_DISTANCE = 1` and chips that share no
page the chip of the hit is determined, but not its location: a chip can contain a page more than
once, as after adding a list with a repeated page. `FirstOnce` says that this does not happen where
`match` takes the location, and `orderIndependent_iff` that this is exactly what makes `match` and
`add` independent of the order.

For `add` this needs where a call comes to when it raises, too: `settle` follows the merges up to
the first one that does not fit, and `run_add_leaves` is the database in which a call ends, returned
or raised.
-/

namespace ProbableCause

open Text Exits Overlay

variable {K : Constants} {db db' : Database} {strs : List Str} {links : List Link}

/-! ## Databases up to the chip numbers -/

/-- The chips of `db'` are those of `db` under other names. -/
def Renamed (db db' : Database) : Prop := ∃ σ : Equiv.Perm Str, ∀ c, db'.lookup (σ c) = db.lookup c

/-- `db` is `base` and one more chip, with the pages `ps` and a number that is free. -/
def Leaves (base : Database) (ps : List Str) (db : Database) : Prop :=
  ∃ n : ℕ, digits n ∉ base ∧ db = withChip base (digits n) ps

/-- The number of the chip is all that may differ. -/
theorem Leaves.renamed {base : Database} {ps : List Str} (h : Leaves base ps db)
    (h' : Leaves base ps db') :
    Renamed db db' := by
  obtain ⟨n, hfree, rfl⟩ := h
  obtain ⟨n', hfree', rfl⟩ := h'
  by_cases hps : ps = []
  · rw [hps, withChip_nil, withChip_nil]
    exact ⟨Equiv.refl Str, fun c => rfl⟩
  · refine ⟨Equiv.swap (digits n) (digits n'), fun c => ?_⟩
    have hnone : base.lookup (digits n) = none := Finmap.lookup_eq_none.mpr hfree
    have hnone' : base.lookup (digits n') = none := Finmap.lookup_eq_none.mpr hfree'
    rw [withChip_of_ne_nil hps, withChip_of_ne_nil hps]
    by_cases hc : c = digits n
    · rw [hc, Equiv.swap_apply_left, Finmap.lookup_insert, Finmap.lookup_insert]
    · by_cases hc' : c = digits n'
      · -- the name of the other run's chip is free in this one
        have hne : digits n ≠ digits n' := fun he => hc (hc'.trans he.symm)
        rw [hc', Equiv.swap_apply_right, Finmap.lookup_insert_of_ne _ hne,
          Finmap.lookup_insert_of_ne _ hne.symm, hnone, hnone']
      · rw [Equiv.swap_apply_of_ne_of_ne hc hc', Finmap.lookup_insert_of_ne _ hc,
          Finmap.lookup_insert_of_ne _ hc']

/-! ## Where the merges come to -/

/-- The chips removed by the merges, and the pages of the chip they leave. A merge that does not fit
    removes its chip and leaves what it has read, the pages accumulated before. -/
def settle (P : Str → List Str) : List Str → List Link → List Str × List Str
  | q, [] => ([], q)
  | q, link :: links =>
    if link.offset ≤ link.loc ∨ link.offset ≤ q.length then
      (link.chip :: (settle P (stitch q link.offset (P link.chip) link.loc) links).1,
        (settle P (stitch q link.offset (P link.chip) link.loc) links).2)
    else ([link.chip], q)

/-- **The loop of `add` ends where `settle` says**, unless it is still drawing. -/
theorem run_mergeLoop_leaves {P : Str → List Str} (links : List Link) (w : World)
    (n : ℕ) (q : List Str) (h : Merging K P w.db n q links) :
    error? ((mergeLoop K (.int n) (links.map Link.toMatch)).run w) ≠ some .drawing →
      Leaves (eraseAll w.db (digits n :: (settle P q links).1)) (settle P q links).2
        (exitState ((mergeLoop K (.int n) (links.map Link.toMatch)).run w)).db := by
  apply mergeLoop_rule (K := K) (motive := fun w n q links r => error? r ≠ some .drawing →
    Leaves (eraseAll w.db (digits n :: (settle P q links).1)) (settle P q links).2
      (exitState r).db) _ _ _ _
    links w n q h
  · intro w n q h _
    have hdb : withChip (w.db.erase (digits n)) (digits n) q = w.db :=
      h.current.withChip_erase (h.wellFormed.ne_nil h.current)
    exact ⟨n, Finmap.notMem_erase_self, hdb.symm⟩
  · intro w n q link links _ _ hend
    exact absurd rfl hend
  · intro w n q link links n' rest _ hdraw hfit _
    rw [settle, if_neg hfit]
    exact ⟨n', (firstFree_spec hdraw).2.2, rfl⟩
  · intro w n q link links n' rest r _ hdraw hfit hleaves hend
    have hrest := hleaves hend
    rw [eraseAll_cons, erase_withChip (firstFree_spec hdraw).2.2] at hrest
    rw [settle, if_pos hfit]
    exact hrest

/-- The chips that `add` removes, and the pages of the chip it leaves. After the `TypeError` of the
    shift it has merged nothing. -/
def outcome (P : Str → List Str) (strs : List Str) (links : List Link) : List Str × List Str :=
  if Clash links then ([], strs) else settle P strs links

/-- **`add` ends where `outcome` says**, unless it is still drawing: the directory order counts only
    for the matches. -/
theorem run_add_leaves (hwf : WellFormed K db) {os : ℕ → Listing} {pages : List (ApproxPage K)}
    {draws : List Draw} (hend : error? ((add K os pages).run ⟨db, draws⟩) ≠ some .drawing) :
    ∃ links, Greedy K db [] 0 (pages.map ApproxPage.errorString) links ∧
      Leaves (eraseAll db (outcome (pagesOf db) (pages.map ApproxPage.errorString) links).1)
        (outcome (pagesOf db) (pages.map ApproxPage.errorString) links).2
        (exitState ((add K os pages).run ⟨db, draws⟩)).db := by
  cases hdraw : firstFree db draws with
  | none =>
    rw [add, run_bind_error (run_chipAdd_drawing hdraw _)] at hend
    exact absurd rfl hend
  | some pair =>
    obtain ⟨n, rest⟩ := pair
    have hfree : digits n ∉ db := (firstFree_spec hdraw).2.2
    obtain ⟨links, hgreedy, hlinks⟩ := matchPages_withChip hwf os pages hfree
    refine ⟨links, hgreedy, ?_⟩
    rw [run_add_eq hdraw hlinks] at hend ⊢
    have hval := valid_errorStrings pages
    generalize pages.map ApproxPage.errorString = strs at hgreedy hval hend ⊢
    by_cases hclash : Clash links
    · rw [if_pos hclash, outcome, if_pos hclash]
      exact ⟨n, hfree, rfl⟩
    rw [if_neg hclash] at hend ⊢
    rw [outcome, if_neg hclash]
    by_cases hne : strs = []
    · -- no page, no match
      subst hne
      cases hgreedy
      exact ⟨n, hfree, rfl⟩
    · have hloop := run_mergeLoop_leaves links ⟨withChip db (digits n) strs, rest⟩ n strs
        (hgreedy.merging hwf hval hne hfree)
      rw [eraseAll_cons, erase_withChip hfree] at hloop
      cases hrun : (mergeLoop K (.int n) (links.map Link.toMatch)).run
          ⟨withChip db (digits n) strs, rest⟩ with
      | ok chip w' =>
        rw [hrun] at hloop
        exact hloop (by simp [error?])
      | error e w' =>
        rw [hrun] at hloop hend
        exact hloop hend

/-! ## When the matches are determined -/

/-- No page of the list before number `i` is in chip `c`. -/
def NoneBefore (db : Database) (strs : List Str) (c : Str) (i : ℕ) : Prop :=
  ∀ (j : ℕ) (t : Str), j < i → strs[j]? = some t → ∀ l, ¬ Stored db c l t

/-- Of the chips not in `seen`, each contains the first page of the list that it contains at all
only once. -/
def FirstOnceFrom (db : Database) (seen strs : List Str) : Prop :=
  ∀ c ∉ seen, ∀ (i : ℕ) (s : Str), strs[i]? = some s → NoneBefore db strs c i →
    ∀ l l', Stored db c l s → Stored db c l' s → l = l'

/-- **The first page of the list that a stored chip contains occurs in that chip only once.** -/
def FirstOnce (db : Database) (strs : List Str) : Prop := FirstOnceFrom db [] strs

variable {seen : List Str} {k : ℕ} {s : Str}

/-- Behind a page that no chip outside `seen'` contains. -/
theorem FirstOnceFrom.tail {seen' : List Str} (h : FirstOnceFrom db seen (s :: strs))
    (hsub : ∀ c ∉ seen', c ∉ seen ∧ ∀ l, ¬ Stored db c l s) : FirstOnceFrom db seen' strs := by
  intro c hc i t ht hbefore
  apply h c (hsub c hc).1 (i + 1) t
  · rw [List.getElem?_cons_succ, ht]
  · intro j u hj hu
    cases j with
    | zero =>
      rw [List.getElem?_cons_zero, Option.some.injEq] at hu
      rw [← hu]
      exact (hsub c hc).2
    | succ j =>
      rw [List.getElem?_cons_succ] at hu
      exact hbefore j u (by omega) hu

/-- A chip hit at a page is the only one that contains the page. -/
theorem PagesDisjoint.tail (hdis : PagesDisjoint db) {c : Str} {l : ℕ} (hst : Stored db c l s) :
    ∀ c' ∉ seen ++ [c], c' ∉ seen ∧ ∀ l', ¬ Stored db c' l' s := by
  intro c' hc'
  rw [List.mem_append, List.mem_singleton, not_or] at hc'
  exact ⟨hc'.1, fun l' hst' => hc'.2 (hdis c' c l' l s hst' hst)⟩

/-- **The matches are determined** when the location of each hit is. -/
theorem Greedy.unique (hdis : PagesDisjoint db) (hK : K.NOISE_DISTANCE = 1) (hwf : WellFormed K db)
    (hval : ∀ s ∈ strs, Valid K s) (honce : FirstOnceFrom db seen strs) {links' : List Link}
    (h : Greedy K db seen k strs links) (h' : Greedy K db seen k strs links') : links = links' := by
  induction h generalizing links' with
  | nil =>
    cases h'
    rfl
  | @skip seen k s strs links hno _ ih =>
    have htail : FirstOnceFrom db seen strs := honce.tail fun c hc =>
      ⟨hc, fun l hst => hno c hc l s hst (near_self K s)⟩
    cases h' with
    | skip _ h' => exact ih (fun t ht => hval t (List.mem_cons_of_mem _ ht)) htail h'
    | hit hc hst hnear _ => exact absurd hnear (hno _ hc _ _ hst)
  | @hit seen k s strs links c l t hc hst hnear _ ih =>
    obtain rfl : t = s := (near_iff_eq hK (hst.valid hwf) (hval s List.mem_cons_self)).mp hnear
    cases h' with
    | skip hno _ => exact absurd hnear (hno _ hc _ _ hst)
    | @hit _ _ _ _ links' c' l' t' hc' hst' hnear' h' =>
      obtain rfl : t' = t := (near_iff_eq hK (hst'.valid hwf) (hval t List.mem_cons_self)).mp hnear'
      -- the chip is the only one with the page, and the page is at one location of it
      obtain rfl : c' = c := hdis _ _ _ _ _ hst' hst
      have hloc : l = l' := honce c' hc 0 t' rfl
        (fun j _ hj => absurd hj (Nat.not_lt_zero j)) l l' hst hst'
      rw [hloc, ih (fun u hu => hval u (List.mem_cons_of_mem _ hu)) (honce.tail (hdis.tail hst)) h']

/-- There always is a greedy match. -/
theorem exists_greedy (K : Constants) (db : Database) (seen : List Str) (k : ℕ) (strs : List Str) :
    ∃ links, Greedy K db seen k strs links := by
  induction strs generalizing seen k with
  | nil => exact ⟨[], .nil⟩
  | cons s strs ih =>
    by_cases hhit : ∃ c, c ∉ seen ∧ ∃ l t, Stored db c l t ∧ Near K t s
    · obtain ⟨c, hc, l, t, hst, hnear⟩ := hhit
      obtain ⟨links, h⟩ := ih (seen ++ [c]) (k + 1)
      exact ⟨_, .hit hc hst hnear h⟩
    · obtain ⟨links, h⟩ := ih seen (k + 1)
      exact ⟨links, .skip (fun c hc l t hst hnear => hhit ⟨c, hc, l, t, hst, hnear⟩) h⟩

/-- **Every location of the first common page can be the hit.** -/
theorem exists_greedy_hit (hK : K.NOISE_DISTANCE = 1) (hwf : WellFormed K db)
    (hval : ∀ s ∈ strs, Valid K s) {c : Str} {l i : ℕ} (hc : c ∉ seen) (hs : strs[i]? = some s)
    (hst : Stored db c l s) (hbefore : NoneBefore db strs c i) (k : ℕ) :
    ∃ links, Greedy K db seen k strs links ∧ ⟨c, l, k + i⟩ ∈ links := by
  induction strs generalizing seen k i with
  | nil => contradiction
  | cons u strs ih =>
    cases i with
    | zero =>
      rw [List.getElem?_cons_zero, Option.some.injEq] at hs
      obtain ⟨links, h⟩ := exists_greedy K db (seen ++ [c]) (k + 1) strs
      exact ⟨_, .hit hc hst (hs ▸ near_self K _) h, List.mem_cons_self⟩
    | succ i =>
      rw [List.getElem?_cons_succ] at hs
      have hval' : ∀ t ∈ strs, Valid K t := fun t ht => hval t (List.mem_cons_of_mem _ ht)
      have hbefore' : NoneBefore db strs c i := fun j t hj ht =>
        hbefore (j + 1) t (by omega) (by rw [List.getElem?_cons_succ, ht])
      have hoffset : k + (i + 1) = k + 1 + i := by omega
      rw [hoffset]
      by_cases hhit : ∃ c', c' ∉ seen ∧ ∃ l' t, Stored db c' l' t ∧ Near K t u
      · -- the page before is hit in another chip
        obtain ⟨c', hc', l', t, hst', hnear⟩ := hhit
        obtain rfl : t = u := (near_iff_eq hK (hst'.valid hwf) (hval u List.mem_cons_self)).mp hnear
        have hne : c ≠ c' := fun he => hbefore 0 t (by omega) rfl l' (he ▸ hst')
        have hseen : c ∉ seen ++ [c'] := by simp [hc, hne]
        obtain ⟨links, h, hmem⟩ := ih hval' hseen hs hbefore' (k + 1)
        exact ⟨_, .hit hc' hst' hnear h, List.mem_cons_of_mem _ hmem⟩
      · obtain ⟨links, h, hmem⟩ := ih hval' hc hs hbefore' (k + 1)
        exact ⟨links, .skip (fun c' hc' l' t hst' hnear => hhit ⟨c', hc', l', t, hst', hnear⟩) h,
          hmem⟩

/-! ## Independence of the directory order -/

/-- **The directory order does not matter** for a list of pages. -/
structure OrderIndependent (K : Constants) (db : Database) (pages : List (ApproxPage K)) : Prop where
  /-- `match(pages)`, as `main` calls it -/
  check : ∀ os os' : ℕ → Listing,
    matchPages K os db pages (.int 0) = matchPages K os' db pages (.int 0)
  /-- `match(pages,chip)`, as `add` calls it after it has stored the pages -/
  found : ∀ (os os' : ℕ → Listing) (draws : List Draw) (chip : ℕ) (w : World),
    (chipAdd (pages.map some)).run ⟨db, draws⟩ = .ok chip w →
      matchPages K os w.db pages (.int chip) = matchPages K os' w.db pages (.int chip)
  /-- the database in which `add` ends, returned or raised, whatever numbers are drawn -/
  stored : ∀ (os os' : ℕ → Listing) (draws draws' : List Draw),
    error? ((add K os pages).run ⟨db, draws⟩) ≠ some .drawing →
      error? ((add K os' pages).run ⟨db, draws'⟩) ≠ some .drawing →
        Renamed (exitState ((add K os pages).run ⟨db, draws⟩)).db
          (exitState ((add K os' pages).run ⟨db, draws'⟩)).db

theorem RepInv.check_independent (h : RepInv K db) (pages : List (ApproxPage K))
    (os os' : ℕ → Listing) :
    matchPages K os db pages (.int 0) = matchPages K os' db pages (.int 0) := by
  cases pages with
  | nil => rfl
  | cons page pages => rw [h.matchPages_zero, h.matchPages_zero]

/-- A full database stores nothing, so `add` does not come to `match`. -/
theorem RepInv.orderIndependent_full (h : RepInv K db) (hcount : 1000 ≤ chipCount db)
    (pages : List (ApproxPage K)) : OrderIndependent K db pages where
  check := h.check_independent pages
  found os os' draws chip w hchip := by
    rw [run_chipAdd_drawing (h.firstFree_full hcount draws)] at hchip
    contradiction
  stored os os' draws draws' hend := by
    rw [h.run_add_full hcount] at hend
    exact absurd rfl hend

/-- Where the hits are determined, so is everything else. -/
theorem FirstOnce.orderIndependent (hK : K.NOISE_DISTANCE = 1) (h : RepInv K db)
    (hdis : PagesDisjoint db) {pages : List (ApproxPage K)}
    (honce : FirstOnce db (pages.map ApproxPage.errorString)) :
    OrderIndependent K db pages where
  check := h.check_independent pages
  found os os' draws chip w hchip := by
    cases hdraw : firstFree db draws with
    | none =>
      rw [run_chipAdd_drawing hdraw] at hchip
      contradiction
    | some pair =>
      obtain ⟨n, rest⟩ := pair
      rw [run_chipAdd_pages hdraw] at hchip
      cases hchip
      have hfree := (firstFree_spec hdraw).2.2
      obtain ⟨links, hgreedy, hlinks⟩ := matchPages_withChip h.wellFormed os pages hfree
      obtain ⟨links', hgreedy', hlinks'⟩ := matchPages_withChip h.wellFormed os' pages hfree
      rw [hlinks, hlinks', hgreedy.unique hdis hK h.wellFormed
        (valid_errorStrings pages) honce hgreedy']
  stored os os' draws draws' hend hend' := by
    obtain ⟨links, hgreedy, hleaves⟩ := run_add_leaves h.wellFormed hend
    obtain ⟨links', hgreedy', hleaves'⟩ := run_add_leaves h.wellFormed hend'
    obtain rfl := hgreedy.unique hdis hK h.wellFormed (valid_errorStrings pages) honce hgreedy'
    exact hleaves.renamed hleaves'

theorem Link.toMatch_inj {link link' : Link} (h : link.toMatch = link'.toMatch) : link = link' := by
  obtain ⟨c, l, k⟩ := link
  obtain ⟨c', l', k'⟩ := link'
  unfold Link.toMatch at h
  simp only [Match.mk.injEq, PyVal.str.injEq, PyVal.int.injEq, digits_inj, Int.natCast_inj] at h
  obtain ⟨rfl, rfl, rfl⟩ := h
  rfl

/-- **A first common page that the chip contains twice** is found at either location. -/
theorem OrderIndependent.firstOnce (hK : K.NOISE_DISTANCE = 1) (h : RepInv K db)
    (hcount : chipCount db < 1000) {pages : List (ApproxPage K)}
    (hindep : OrderIndependent K db pages) :
    FirstOnce db (pages.map ApproxPage.errorString) := by
  intro c hc i s hs hbefore l l' hst hst'
  have hval := valid_errorStrings pages
  obtain ⟨links, hgreedy, hmem⟩ := exists_greedy_hit hK h.wellFormed hval hc hs hst hbefore 0
  obtain ⟨links', hgreedy', hmem'⟩ := exists_greedy_hit hK h.wellFormed hval hc hs hst' hbefore 0
  -- both occur, in a call that stores the pages
  obtain ⟨draws, hrounds⟩ := exists_rounds 1
  obtain ⟨n, rest, hdraw, -⟩ := firstFree_rounds hcount hrounds
  have hfree := (firstFree_spec hdraw).2.2
  obtain ⟨os, hos⟩ := exists_matchPages h.wellFormed pages hfree hgreedy
  obtain ⟨os', hos'⟩ := exists_matchPages h.wellFormed pages hfree hgreedy'
  have hsame := hindep.found os os' draws n _ (run_chipAdd_pages hdraw pages)
  rw [hos, hos'] at hsame
  have heq : links = links' := List.map_injective_iff.mpr (fun _ _ => Link.toMatch_inj)
    (Except.ok.inj hsame)
  rw [← heq] at hmem'
  have hlink := List.inj_on_of_nodup_map hgreedy.chips_nodup.1 hmem hmem' rfl
  exact congrArg Link.loc hlink

/-- **When the directory order does not matter**, in every database that calls of `add` have built
    without an exception: exactly when each stored chip contains the first page of the list that it
    contains at all only once (or the database is full). -/
theorem orderIndependent_iff (hK : K.NOISE_DISTANCE = 1) (h : NormalRun K db)
    (pages : List (ApproxPage K)) :
    OrderIndependent K db pages ↔
      1000 ≤ chipCount db ∨ FirstOnce db (pages.map ApproxPage.errorString) := by
  have hinv : RepInv K db := h.addReachable.repInv
  constructor
  · intro hindep
    by_cases hcount : 1000 ≤ chipCount db
    · exact .inl hcount
    · exact .inr (hindep.firstOnce hK hinv (Nat.lt_of_not_le hcount))
  · rintro (hcount | honce)
    · exact hinv.orderIndependent_full hcount pages
    · exact honce.orderIndependent hK hinv (h.pagesDisjoint hK)

/-- At the database after one page was added, and that page again. -/
theorem orderIndependent_iff_one_page :
    let page : ApproxPage Constants.repository := ⟨"01101".toList, .int (-1), .int (-1), by decide⟩
    let os : ℕ → Listing := fun _ => .alphabetical
    let db := (exitState ((add Constants.repository os [page]).run ⟨∅, [⟨7, by decide⟩]⟩)).db
    OrderIndependent Constants.repository db [page] ↔
      1000 ≤ chipCount db ∨ FirstOnce db ([page].map ApproxPage.errorString) :=
  orderIndependent_iff rfl (.add .empty (eq_ok_of_error? (by decide +kernel))) _

/-! ## A repeated page -/

/-- Chip `7` with the page `01101` twice. -/
def twicePages : Database :=
  (exitState ((add Constants.repository (fun _ => .alphabetical)
    [newPage "01101".toList (by decide), newPage "01101".toList (by decide)]).run
      ⟨∅, [⟨7, by decide⟩]⟩)).db

theorem valid_pageAndOther :
    ∀ s ∈ ["01101".toList, "00000".toList], Valid Constants.repository s := by decide

/-- This page and another one. -/
def pageAndOther : List (ApproxPage Constants.repository) :=
  ["01101".toList, "00000".toList].pmap newPage valid_pageAndOther

/-- The call of `match` for these pages, stored as chip `8`, with the files always listed in one
order. -/
def orderMatch (os : Listing) : Except Stop (List Match) :=
  matchPages Constants.repository (fun _ => os)
    (exitState ((chipAdd (pageAndOther.map some)).run
      ⟨twicePages, [⟨8, by decide⟩]⟩)).db pageAndOther (.int 8)

/-- The call of `add`. -/
def orderRun (os : Listing) : EStateM.Result Stop World Unit :=
  (add Constants.repository (fun _ => os) pageAndOther).run
    ⟨twicePages, [⟨8, by decide⟩, ⟨9, by decide⟩]⟩

/-- The listing with file `1.txt` of chip `7` first. -/
def lastFirst : Listing := .prefer (digits 7) (fileName (.int 1))

/-- A chip has as many files under its other name. -/
theorem not_renamed_of_fileCount {c : Str} (hc : (db.lookup c).isSome = true)
    (hcount : ∀ c' ∈ db'.keys, fileCount db' (.str c') ≠ fileCount db (.str c)) :
      ¬ Renamed db db' := by
  rintro ⟨σ, hσ⟩
  have hmem : σ c ∈ db'.keys := by
    rw [Finmap.mem_keys, Finmap.mem_iff, hσ]
    exact Option.isSome_iff_exists.mp hc
  apply hcount (σ c) hmem
  rw [fileCount, fileCount, pyStr_str, pyStr_str, hσ]

/-- The two orders give different databases. -/
theorem not_renamed_orderRun :
    ¬ Renamed (exitState (orderRun .alphabetical)).db (exitState (orderRun lastFirst)).db := by
  have hmem : ((exitState (orderRun .alphabetical)).db.lookup (digits 9)).isSome =
    true := by decide +kernel
  have hcount : ∀ c ∈ (exitState (orderRun lastFirst)).db.keys,
      fileCount (exitState (orderRun lastFirst)).db (.str c) ≠
        fileCount (exitState (orderRun .alphabetical)).db (.str (digits 9)) := by
    decide +kernel
  exact not_renamed_of_fileCount hmem hcount

/-- **The order decides**, also when it is the same in all calls of one run: listed in alphabetical
    order, `0.txt` is hit and the second page of the chip is overwritten; with `1.txt` listed first,
    the chip has three pages afterwards. -/
theorem order_decides :
    NormalRun Constants.repository twicePages ∧
      (¬ ∀ os os' : Listing, orderMatch os = orderMatch os') ∧
      (¬ ∀ os os' : Listing, Renamed (exitState (orderRun os)).db (exitState (orderRun os')).db) ∧
      ¬ OrderIndependent Constants.repository twicePages pageAndOther := by
  have hmatch : orderMatch .alphabetical ≠ orderMatch lastFirst := by decide +kernel
  have hend : error? (orderRun .alphabetical) ≠ some .drawing := by decide +kernel
  have hend' : error? (orderRun lastFirst) ≠ some .drawing := by decide +kernel
  refine ⟨.add .empty (eq_ok_of_error? (by decide +kernel)), fun hall => hmatch (hall _ _),
    fun hall => not_renamed_orderRun (hall _ _), fun hindep => ?_⟩
  have hdiffer := not_renamed_orderRun
  unfold orderRun at hdiffer hend hend'
  exact hdiffer (hindep.stored _ _ _ _ hend hend')

end ProbableCause
