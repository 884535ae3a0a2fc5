import ProbableCause.Database.Merge

/-!
# `Database.Invariant` — the representation invariant over whole runs

Every function that changes the database keeps `RepInv` *whichever way it ends* (`Exits.Keeps`), so
the invariant holds after any sequence of calls, those that stop half-way through included. The only
function with an argument of its own is `chipAdd`: the pages it has written when it stops are a
front part of a list of accepted pages, stored under a number of `1..1000` that was not in use.
-/

namespace ProbableCause

open Text Exits Overlay

variable {K : Constants}

/-! ## Runs -/

/-- The databases reachable from the empty directory by calls of `add`, normally ending or not. -/
inductive AddReachable (K : Constants) : Database → Prop where
  | empty : AddReachable K ∅
  | add {db : Database} (h : AddReachable K db) (os : ℕ → Listing) (pages : List (ApproxPage K))
      (draws : List Draw) :
      AddReachable K (exitState ((add K os pages).run ⟨db, draws⟩)).db

/-- The databases reachable by calls of `add` and `check`, normally ending or not. -/
inductive Reachable (K : Constants) : Database → Prop where
  | empty : Reachable K ∅
  | add {db : Database} (h : Reachable K db) (os : ℕ → Listing) (pages : List (ApproxPage K))
      (draws : List Draw) :
      Reachable K (exitState ((add K os pages).run ⟨db, draws⟩)).db
  | check {db : Database} (h : Reachable K db) (os : ℕ → Listing) (pages : List (ApproxPage K))
      (draws : List Draw) :
      Reachable K (exitState ((check K os pages).run ⟨db, draws⟩)).db

theorem AddReachable.reachable {db : Database} (h : AddReachable K db) : Reachable K db := by
  induction h with
  | empty => exact .empty
  | add _ os pages draws ih => exact .add ih os pages draws

/-! ## One step -/

theorem RepInv.empty (K : Constants) : RepInv K ∅ := by
  intro c d h
  rw [Finmap.lookup_empty] at h; cases h

/-- Storing a chip of accepted pages under a number of `1..1000`. -/
theorem RepInv.withChip {db : Database} (h : RepInv K db) {n : ℕ} (h1 : 1 ≤ n) (h2 : n ≤ 1000)
    {ps : List Str} (hval : ∀ s ∈ ps, Valid K s) : RepInv K (withChip db (digits n) ps) := by
  -- without a page no directory is made
  by_cases hps : ps = []
  · rwa [hps, withChip_nil]
  · rw [withChip_of_ne_nil hps]
    intro c d hd
    by_cases hc : c = digits n
    · rw [hc, Finmap.lookup_insert] at hd
      exact ⟨⟨n, h1, h2, hc⟩, ps, (Option.some.inj hd).symm, hps, hval⟩
    · exact h c d (by rwa [Finmap.lookup_insert_of_ne _ hc] at hd)

theorem RepInv.erase {db : Database} (h : RepInv K db) (c : Str) : RepInv K (db.erase c) := by
  intro c' d hd
  by_cases hc : c' = c
  · rw [hc, Finmap.lookup_erase] at hd; cases hd
  · exact h c' d (by rwa [Finmap.lookup_erase_ne hc] at hd)

/-- The invariant, as one of the states of the program. -/
def DbInv (K : Constants) (w : World) : Prop := RepInv K w.db

theorem keeps_chipAdd (l : List (Option (ApproxPage K))) : Keeps (DbInv K) (chipAdd l) := by
  intro w hw
  rw [run_chipAdd, storeResult]
  cases hdraw : firstFree w.db w.draws with
  | none => exact hw
  | some p =>
    obtain ⟨n, rest⟩ := p
    obtain ⟨h1, h2, -⟩ := firstFree_spec hdraw
    have hstored : RepInv K (withChip w.db (digits n) (leading (strings l))) :=
      RepInv.withChip hw h1 h2 fun _ hs => valid_of_mem_leading hs
    -- the exception leaves the pages written before it
    by_cases hall : (strings l).all Option.isSome = true
    · simp only [if_pos hall]; exact hstored
    · simp only [if_neg hall]; exact hstored

theorem keeps_chipRemove (chip : PyVal) : Keeps (DbInv K) (chipRemove chip) := by
  intro w hw
  rw [chipRemove, EStateM.run_bind, EStateM.run_get]
  by_cases hmem : pyStr chip ∈ w.db
  · simp only [if_pos hmem, EStateM.run_set]
    exact RepInv.erase hw _
  · simp only [if_neg hmem]
    exact hw

theorem keeps_chipMerge (chip1 loc1 chip2 loc2 : PyVal) :
    Keeps (DbInv K) (chipMerge K chip1 loc1 chip2 loc2) :=
  .bind (.ofExcept _) fun _ => .bind (.ofExcept _) fun _ => .bind .get fun _ =>
    .bind (.ofExcept _) fun pages => .bind (keeps_chipRemove _) fun _ =>
      .bind (keeps_chipRemove _) fun _ => keeps_chipAdd pages

theorem keeps_mergeLoop (chip : PyVal) (ms : List Match) :
    Keeps (DbInv K) (mergeLoop K chip ms) :=
  .foldlM (fun _ _ => .bind (keeps_chipMerge _ _ _ _) fun _ => .pure _) ms chip

theorem keeps_add (os : ℕ → Listing) (pages : List (ApproxPage K)) :
    Keeps (DbInv K) (add K os pages) := by
  refine .bind (keeps_chipAdd _) fun chip => .bind .get fun w => .bind (.ofExcept _) ?_
  intro m
  by_cases hm : m = []
  · rw [if_pos hm]; exact .pure _
  · rw [if_neg hm]
    exact .bind (.ofExcept _) fun m' => .bind (keeps_mergeLoop _ _) fun _ => .pure _

theorem keeps_check (os : ℕ → Listing) (pages : List (ApproxPage K)) :
    Keeps (DbInv K) (check K os pages) :=
  .bind .get fun _ => .ofExcept _

/-! ## Whole runs -/

theorem Reachable.repInv {db : Database} (h : Reachable K db) : RepInv K db := by
  induction h with
  | empty => exact RepInv.empty K
  | add _ os pages draws ih => exact keeps_add os pages ⟨_, draws⟩ ih
  | check _ os pages draws ih => exact keeps_check os pages ⟨_, draws⟩ ih

theorem AddReachable.repInv {db : Database} (h : AddReachable K db) : RepInv K db :=
  h.reachable.repInv

/-- Every chip directory is named by a number of `1..1000` and contains exactly the files `0.txt` …
    `(n-1).txt` for some `n ≥ 1`, each holding `PAGE_SIZE` characters that `approxPage` accepts. -/
def ChipDirectories (K : Constants) (db : Database) : Prop :=
  ∀ c d, db.lookup c = some d →
    (∃ n : ℕ, 1 ≤ n ∧ n ≤ 1000 ∧ c = digits n) ∧
    ∃ n : ℕ, 1 ≤ n ∧ (∀ f, f ∈ d ↔ ∃ i < n, f = digits i ++ ".txt".toList) ∧
      ∀ f s, d.lookup f = some s →
        s.length = K.PAGE_SIZE ∧ ∀ chip loc, ∃ page, approxPage K s chip loc = .ok page

theorem RepInv.chipDirectories {db : Database} (h : RepInv K db) : ChipDirectories K db := by
  intro c d hd
  obtain ⟨hname, ps, rfl, hne, hval⟩ := h c d hd
  refine ⟨hname, ps.length, List.length_pos_iff.mpr hne, fun f => mem_chipDir, ?_⟩
  intro f s hs
  obtain ⟨i, -, rfl⟩ := mem_chipDir.mp (Finmap.mem_of_lookup_eq_some hs)
  rw [lookup_chipDir] at hs
  have hs' : Valid K s := hval s (List.mem_of_getElem? hs)
  exact ⟨hs'.1, fun chip loc => ⟨_, approxPage_of_valid hs' chip loc⟩⟩

/-- **The directories of every reachable database are chips**, after any sequence of `add` and `check`
    calls, those that end in an exception included. -/
theorem reachable_chipDirectories {db : Database} (h : Reachable K db) : ChipDirectories K db :=
  h.repInv.chipDirectories

/-- At two calls of `add` with one page each. -/
theorem reachable_chipDirectories_two_adds :
    let page : ApproxPage Constants.repository := ⟨"01101".toList, .int (-1), .int (-1), by decide⟩
    let os : ℕ → Listing := fun _ => .alphabetical
    let db := (exitState ((add Constants.repository os [page]).run ⟨∅, [⟨7, by decide⟩]⟩)).db
    ChipDirectories Constants.repository
      (exitState ((add Constants.repository os [page]).run ⟨db, [⟨7, by decide⟩]⟩)).db :=
  reachable_chipDirectories (.add (.add .empty _ _ _) _ _ _)

end ProbableCause
