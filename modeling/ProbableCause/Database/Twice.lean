import ProbableCause.Database.AddRun

/-!
# `Database.Twice` — adding the same pages twice

The second call of `add` stores the pages under another number, and `match` finds the first page in
the chip of the first call. From then on that chip is left out, so the other pages find nothing
(`Greedy.eq_singleton`), and the two chips are merged at their starts: what is left is one chip with
the pages (`add_twice`).
-/

namespace ProbableCause

open Text Exits Overlay

variable {K : Constants} {db : Database} {seen strs : List Str} {k : ℕ} {links : List Link}

/-! ## The matches -/

/-- Two pages that are not within the noise distance. -/
def Apart (K : Constants) (s t : Str) : Prop := K.NOISE_DISTANCE ≤ distance s t

instance (K : Constants) (s t : Str) : Decidable (Apart K s t) := inferInstanceAs (Decidable (_ ≤ _))

theorem Apart.not_near {s t : Str} (h : Apart K s t) : ¬ Near K s t := Nat.not_lt.mpr h

/-- Pages that are far from all pages within bounds have no matches. -/
theorem Greedy.eq_nil (h : Greedy K db seen k strs links)
    (hfar : ∀ c ∉ seen, ∀ l t, Stored db c l t → ∀ s ∈ strs, Apart K t s) : links = [] := by
  cases links with
  | nil => rfl
  | cons link links =>
    obtain ⟨t, s, hst, hs, hnear⟩ := h.sound link List.mem_cons_self
    have hseen := h.chips_nodup.2 link List.mem_cons_self
    exact absurd hnear (hfar _ hseen _ _ hst s (List.mem_of_getElem? hs)).not_near

/-- The pages that are stored after a chip was added. -/
theorem Stored.of_withChip {c c' : Str} {l : ℕ} {t : Str} (hfree : c ∉ db) (hne : strs ≠ [])
    (h : Stored (withChip db c strs) c' l t) :
      c' = c ∧ strs[l]? = some t ∨ c' ≠ c ∧ Stored db c' l t := by
  by_cases hc : c' = c
  · subst hc
    obtain ⟨ps, hps, hl⟩ := h
    rw [hps.unique (holds_withChip hne)] at hl
    exact .inl ⟨rfl, hl⟩
  · exact .inr ⟨hc, ((stored_withChip_iff hfree hne c' l t).mp ⟨by simpa using hc, h⟩).2⟩

/-- **A copy of a stored chip matches it at the first page, and nothing else.** -/
theorem Greedy.eq_singleton {c : Str} (hfree : c ∉ db) (hne : strs ≠ [])
    (hapart : strs.Pairwise (Apart K)) (hfar : ∀ c l t, Stored db c l t → ∀ s ∈ strs, Apart K t s)
    (h : Greedy K (withChip db c strs) [] 0 strs links) : links = [⟨c, 0, 0⟩] := by
  cases strs with
  | nil => contradiction
  | cons s rest =>
    obtain ⟨hfirst, -⟩ := List.pairwise_cons.mp hapart
    cases h with
    | skip hno _ =>
      -- the first page is near itself
      have hst : Stored (withChip db c (s :: rest)) c 0 s := ⟨_, holds_withChip hne, rfl⟩
      exact absurd (near_self K s) (hno c (by simp) 0 s hst)
    | @hit _ _ _ _ links c' l t _ hst hnear htail =>
      rcases Stored.of_withChip hfree hne hst with ⟨rfl, hl⟩ | ⟨-, hst'⟩
      · cases l with
        | succ l =>
          have hmem : t ∈ rest := List.mem_of_getElem? hl
          exact absurd (near_comm.mp hnear) (hfirst t hmem).not_near
        | zero =>
          -- the chip of the copy is left out from here on
          have hnil : links = [] := htail.eq_nil fun c'' hc'' l' t' hst' u hu => by
            rcases Stored.of_withChip hfree hne hst' with ⟨rfl, -⟩ | ⟨-, hst''⟩
            · exact absurd (List.mem_singleton_self _) hc''
            · exact hfar _ _ _ hst'' u (List.mem_cons_of_mem _ hu)
          rw [hnil]
      · exact absurd hnear (hfar _ _ _ hst' s List.mem_cons_self).not_near

/-! ## The two calls -/

/-- **The ends of two calls of `add` that add one chip.** -/
def AddedOnce (db : Database) (strs : List Str) (draws : List Draw) :
    EStateM.Result Stop World Unit → Prop
  | .ok _ w' =>
    ∃ n : ℕ, 1 ≤ n ∧ n ≤ 1000 ∧ digits n ∉ db ∧ w'.db = db.insert (digits n) (chipDir strs)
  | .error .drawing _ => ¬ Rounds 3 draws
  | .error _ _ => False

variable {pages : List (ApproxPage K)} {draws rest : List Draw} {n : ℕ}

/-- Pages without matches become a chip of their own. -/
theorem run_add_of_far (hwf : WellFormed K db) (os : ℕ → Listing)
    (hfar : ∀ c l t, Stored db c l t → ∀ s ∈ pages.map ApproxPage.errorString, Apart K t s)
    (hdraw : firstFree db draws = some (n, rest)) :
    (add K os pages).run ⟨db, draws⟩ =
      .ok () ⟨withChip db (digits n) (pages.map ApproxPage.errorString), rest⟩ := by
  obtain ⟨links, hgreedy, hmatch⟩ := matchPages_withChip hwf os pages (firstFree_spec hdraw).2.2
  have hnil : links = [] := hgreedy.eq_nil fun c _ => hfar c
  subst hnil
  rw [run_add_eq hdraw hmatch]
  rfl

/-- A copy of a stored chip is merged with it. -/
theorem run_add_of_copy (hwf : WellFormed K db) (os : ℕ → Listing) {m : ℕ} (hm : digits m ∉ db)
    (hne : pages ≠ []) (hapart : (pages.map ApproxPage.errorString).Pairwise (Apart K))
    (hfar : ∀ c l t, Stored db c l t → ∀ s ∈ pages.map ApproxPage.errorString, Apart K t s)
    (hdraw : firstFree (withChip db (digits m) (pages.map ApproxPage.errorString)) draws =
      some (n, rest)) :
    (add K os pages).run ⟨withChip db (digits m) (pages.map ApproxPage.errorString), draws⟩ =
      match storeResult db rest ((pages.map ApproxPage.errorString).map some) with
      | .ok _ w' => .ok () w'
      | .error e w' => .error e w' := by
  have hstrs : pages.map ApproxPage.errorString ≠ [] := by simpa using hne
  have hval := valid_errorStrings pages
  have hfree := (firstFree_spec hdraw).2.2
  have hmn : digits m ≠ digits n := fun h => hfree (h ▸ (holds_withChip hstrs).mem)
  obtain ⟨links, hgreedy, hmatch⟩ := matchPages_withChip (hwf.withChip (digits m) hval) os pages hfree
  have hlinks := hgreedy.eq_singleton hm hstrs hapart hfar
  subst hlinks
  have hclash : ¬ Clash [⟨digits m, 0, 0⟩] := id
  rw [run_add_eq hdraw hmatch, if_neg hclash, List.map_singleton]
  generalize pages.map ApproxPage.errorString = strs at hstrs hval hfree ⊢
  have hholds : Holds (withChip (withChip db (digits m) strs) (digits n) strs) (digits m) strs :=
    (holds_withChip hstrs).withChip hmn
  rw [run_mergeLoop_cons [] ((hwf.withChip (digits m) hval).withChip (digits n) hval)
    (holds_withChip hstrs) hholds hmn.symm, stitch?_self, erase_withChip hfree, erase_withChip hm]
  cases storeResult db rest (strs.map some) with
  | ok n' w' => rfl
  | error e w' => rfl

/-- **Adding the same pages twice adds them once**: with at least two numbers left, for pages that
    are far from each other and from all stored pages. The pages of the second call are new objects
    with the same strings. -/
theorem add_twice (h : RepInv K db) (hcount : chipCount db < 999) {pages pages' : List (ApproxPage K)}
    (hne : pages ≠ []) (hsame : pages'.map ApproxPage.errorString = pages.map ApproxPage.errorString)
    (hapart : (pages.map ApproxPage.errorString).Pairwise (Apart K))
    (hfar : ∀ c l t, Stored db c l t → ∀ s ∈ pages.map ApproxPage.errorString, Apart K t s)
    (os os' : ℕ → Listing) (draws : List Draw) :
    AddedOnce db (pages.map ApproxPage.errorString) draws
      ((do add K os pages; add K os' pages').run ⟨db, draws⟩) := by
  have hstrs : pages.map ApproxPage.errorString ≠ [] := by simpa using hne
  have hne' : pages' ≠ [] := by
    rintro rfl
    exact hstrs hsame.symm
  cases hdraw : firstFree db draws with
  | none =>
    -- the number of the first chip
    rw [run_bind_error (by rw [add, run_bind_error (run_chipAdd_drawing hdraw _)])]
    exact not_rounds_of_none hdraw (by omega)
  | some pair =>
    obtain ⟨m, rest⟩ := pair
    have hm := (firstFree_spec hdraw).2.2
    have hcount' := chipCount_withChip hm hstrs
    rw [run_bind_ok (run_add_of_far h.wellFormed os hfar hdraw)]
    rw [← hsame] at hstrs hapart hfar hcount' ⊢
    cases hdraw' : firstFree (withChip db (digits m) (pages'.map ApproxPage.errorString)) rest with
    | none =>
      -- the number of the copy
      rw [add, run_bind_error (run_chipAdd_drawing hdraw' _)]
      exact fun hrounds => not_rounds_of_none hdraw' (by omega) (hrounds.rest hdraw (by omega))
    | some pair' =>
      obtain ⟨n, rest'⟩ := pair'
      rw [run_add_of_copy h.wellFormed os' hm hne' hapart hfar hdraw']
      cases hdraw'' : firstFree db rest' with
      | none =>
        -- the number of the merged chip
        rw [storeResult_of_none hdraw'']
        exact fun hrounds => not_rounds_of_none hdraw'' (by omega)
          ((hrounds.rest hdraw (by omega)).rest hdraw' (by omega))
      | some pair'' =>
        obtain ⟨n', rest''⟩ := pair''
        obtain ⟨h1, h2, hfree⟩ := firstFree_spec hdraw''
        rw [storeResult_of_some hdraw'']
        exact ⟨n', h1, h2, hfree, withChip_of_ne_nil hstrs⟩

/-- Two pages, and a database with a chip whose pages are far from them. -/
theorem add_twice_far_chip :
    let db := withChip ∅ (digits 7) ["10010".toList, "11110".toList]
    let pages : List (ApproxPage Constants.repository) :=
      [⟨"00000".toList, .int (-1), .int (-1), by decide⟩,
        ⟨"01101".toList, .int (-1), .int (-1), by decide⟩]
    ∀ (os : ℕ → Listing) (draws : List Draw), AddedOnce db (pages.map ApproxPage.errorString) draws
      ((do add Constants.repository os pages; add Constants.repository os pages).run
          ⟨db, draws⟩) := by
  intro db pages os draws
  have hfree : digits 7 ∉ (∅ : Database) := Finmap.notMem_empty
  have hcount : chipCount db < 999 := by
    rw [chipCount_withChip hfree (List.cons_ne_nil _ _), chipCount, Finmap.keys_empty,
      Finset.card_empty]
    decide
  refine add_twice ((RepInv.empty _).withChip (by decide) (by decide) (by decide)) hcount
    (List.cons_ne_nil _ _) rfl
    (by decide) ?_ os os draws
  have hfar : ∀ t ∈ ["10010".toList, "11110".toList], ∀ s ∈ pages.map ApproxPage.errorString,
      Apart Constants.repository t s := by decide
  intro c l t hst
  rcases hst.of_withChip hfree (List.cons_ne_nil _ _) with ⟨-, hl⟩ | ⟨-, hst⟩
  · exact hfar t (List.mem_of_getElem? hl)
  · exact absurd hst.mem Finmap.notMem_empty

end ProbableCause
