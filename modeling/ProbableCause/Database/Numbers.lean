import ProbableCause.Database.Atomic
import ProbableCause.Database.Twice
import Mathlib.Data.Nat.Bitwise

/-!
# `Database.Numbers` — whether `getChipNumber` finds a number

`random.randint(1,1000)` has `1000` outcomes, so that a number can be found as long as there are
fewer than `1000` chips, and no longer (`chip_number_found`). A call of `add` leaves at most one
chip more than there were, whichever way it ends: a merge removes two chips before it stores one
(`chipCount_le`). So the first `1000` calls find a number.

The `1000` calls can fill the database: with as many different pages none of the calls merges
anything (`chip_number_not_found`). With shorter pages, of which there are not so many, there is
another way for every `PAGE_SIZE`: a call whose merges raise the `TypeError` of the shift leaves the
new chip behind (`exists_full_database`).
-/

namespace ProbableCause

open Text Exits Overlay

variable {K : Constants} {db : Database} {calls : ℕ}

/-! ## The chips after some calls -/

/-- The databases after a number of calls of `add`, normally ending or not. -/
inductive AddReachableIn (K : Constants) : ℕ → Database → Prop where
  | empty : AddReachableIn K 0 ∅
  | add {calls : ℕ} {db : Database} (h : AddReachableIn K calls db) (os : ℕ → Listing)
      (pages : List (ApproxPage K))
      (draws : List Draw) : AddReachableIn K (calls + 1)
        (exitState ((add K os pages).run ⟨db, draws⟩)).db

theorem addReachable_iff : AddReachable K db ↔ ∃ calls, AddReachableIn K calls db := by
  constructor
  · intro h
    induction h with
    | empty => exact ⟨0, .empty⟩
    | add _ os pages draws ih =>
      obtain ⟨calls, hcalls⟩ := ih
      exact ⟨calls + 1, hcalls.add os pages draws⟩
  · rintro ⟨calls, h⟩
    induction h with
    | empty => exact .empty
    | add _ os pages draws ih => exact ih.add os pages draws

/-- The number of chips in a state. -/
def chips (w : World) : ℤ := chipCount w.db

theorem adds_chipRemove (chip : PyVal) : Adds chips (-1) 0 (chipRemove chip) := by
  intro w
  rw [chipRemove, EStateM.run_bind, EStateM.run_get]
  by_cases hmem : pyStr chip ∈ w.db
  · simp only [if_pos hmem, EStateM.run_set, chips]
    have hcount := chipCount_erase hmem
    omega
  · simp only [if_neg hmem]
    exact (Int.add_zero (chips w)).ge

theorem chipCount_withChip_le {c : Str} (hfree : c ∉ db) (ps : List Str) :
    chipCount (withChip db c ps) ≤ chipCount db + 1 := by
  by_cases hps : ps = []
  · rw [hps, withChip_nil]
    exact Nat.le_succ _
  · exact (chipCount_withChip hfree hps).le

theorem adds_chipAdd (l : List (Option (ApproxPage K))) : Adds chips 1 1 (chipAdd l) := by
  intro w
  rw [run_chipAdd, storeResult]
  cases hdraw : firstFree w.db w.draws with
  | none =>
    dsimp only [chips]
    omega
  | some p =>
    obtain ⟨n, rest⟩ := p
    have hle := chipCount_withChip_le (firstFree_spec hdraw).2.2 (leading (strings l))
    by_cases hall : (strings l).all Option.isSome = true
    · simp only [if_pos hall, chips]
      omega
    · simp only [if_neg hall, chips]
      omega

/-- A merge removes two chips and stores one, or raises before that. -/
theorem adds_chipMerge (chip1 loc1 chip2 loc2 : PyVal) :
    Adds chips (-1) 0 (chipMerge K chip1 loc1 chip2 loc2) := by
  have hzero : (0 : ℤ) ≤ 0 := le_refl 0
  refine (Adds.ofExcept _).andThen (fun l1 => (Adds.ofExcept _).andThen (fun l2 => ?_) hzero) hzero
  refine Adds.get.andThen (fun w => (Adds.ofExcept _).andThen (fun pages => ?_) hzero) hzero
  refine (adds_chipRemove chip1).bind (?_ : ∀ _, Adds chips 0 0 _) (by decide) hzero (by decide)
  exact fun _ => (adds_chipRemove chip2).bind (fun _ => adds_chipAdd pages)
    (by decide) hzero (by decide)

theorem adds_mergeLoop (chip : PyVal) (ms : List Match) : Adds chips 0 0 (mergeLoop K chip ms) := by
  have hround : ∀ chip1 loc1 chip2 loc2, Adds chips 0 0 (chipMerge K chip1 loc1 chip2 loc2) :=
    fun chip1 loc1 chip2 loc2 => (adds_chipMerge chip1 loc1 chip2 loc2).mono (by decide) (le_refl 0)
  exact .foldlM (fun _ _ => (hround _ _ _ _).andThen (fun _ => .pure _) (le_refl 0)) ms chip

theorem adds_add (os : ℕ → Listing) (pages : List (ApproxPage K)) :
    Adds chips 1 1 (add K os pages) := by
  have hzero : (0 : ℤ) ≤ 0 := le_refl 0
  -- the new chip, and then nothing more
  refine (adds_chipAdd _).bind (?_ : ∀ chip : ℕ, Adds chips 0 0 _) (add_zero 1).le (le_refl 1)
    (add_zero 1).le
  intro chip
  refine Adds.get.andThen (fun w => (Adds.ofExcept _).andThen (fun m => ?_) hzero) hzero
  by_cases hm : m = []
  · rw [if_pos hm]
    exact .pure _
  · rw [if_neg hm]
    exact (Adds.ofExcept _).andThen
      (fun m' => (adds_mergeLoop _ _).andThen (fun _ => .pure _) hzero) hzero

/-- **There are no more chips than there have been calls.** -/
theorem chipCount_le (h : AddReachableIn K calls db) : chipCount db ≤ calls := by
  induction h with
  | empty => exact Nat.le_refl 0
  | @add calls db _ os pages draws ih =>
    have hadds := (adds_add os pages).exitState ⟨db, draws⟩
    simp only [chips] at hadds
    omega

/-! ## Finding a number -/

/-- After the outcomes `front` the loop of `getChipNumber` can still end: with some further outcomes
    it returns a number that is not in use, and `chipAdd` stores its pages under it. -/
def NumberCanBeFound (K : Constants) (db : Database) (front : List Draw) : Prop :=
  ∃ back n rest, getChipNumber.run ⟨db, front ++ back⟩ = .ok n ⟨db, rest⟩ ∧ digits n ∉ db ∧
    ∀ pages : List (ApproxPage K), (chipAdd (pages.map some)).run ⟨db, front ++ back⟩ =
      .ok n ⟨withChip db (digits n) (pages.map ApproxPage.errorString), rest⟩

theorem numberCanBeFound_of_lt (hcount : chipCount db < 1000) (front : List Draw) :
    NumberCanBeFound K db front := by
  obtain ⟨r, hr⟩ := exists_free hcount
  obtain ⟨n, rest, hdraw⟩ : ∃ n rest, firstFree db (front ++ [r]) = some (n, rest ++ []) :=
    List.append_nil (front ++ [r]) ▸ firstFree_append []
      (List.mem_append_right front List.mem_cons_self) hr
  rw [List.append_nil] at hdraw
  refine ⟨[r], n, rest, ?_, (firstFree_spec hdraw).2.2, run_chipAdd_pages hdraw⟩
  rw [run_getChipNumber, hdraw]

/-- With `1000` chips no outcomes end the loop. -/
theorem RepInv.run_getChipNumber_full (h : RepInv K db) (hcount : 1000 ≤ chipCount db)
    (draws : List Draw) :
    getChipNumber.run ⟨db, draws⟩ = .error .drawing ⟨db, []⟩ := by
  rw [run_getChipNumber, h.firstFree_full hcount]

/-- **When a chip number can be found**: from every database that calls of `add` lead to, and
    whatever has been drawn, exactly when there are fewer than `1000` chips, as there are after
    fewer than `1000` calls. -/
theorem chip_number_found (h : AddReachable K db) :
    (∀ front, NumberCanBeFound K db front ↔ chipCount db < 1000) ∧
      ∀ calls < 1000, AddReachableIn K calls db → chipCount db < 1000 := by
  refine ⟨fun front => ⟨?_, fun hcount => numberCanBeFound_of_lt hcount front⟩,
    fun calls hlt hcalls => ?_⟩
  · rintro ⟨back, n, rest, hrun, -⟩
    by_contra hcount
    rw [h.repInv.run_getChipNumber_full (Nat.le_of_not_lt hcount)] at hrun
    cases hrun
  · exact Nat.lt_of_le_of_lt (chipCount_le hcalls) hlt

/-- The database after one page was added: there is a number for another chip. -/
theorem chip_number_found_one_page :
    let page : ApproxPage Constants.repository := newPage "01101".toList (by decide)
    let db := (exitState ((add Constants.repository (fun _ => .alphabetical) [page]).run
      ⟨∅, [⟨7, by decide⟩]⟩)).db
    NumberCanBeFound Constants.repository db [⟨7, by decide⟩] := by
  intro page db
  have hcalls : AddReachableIn Constants.repository 1 db := .add .empty _ _ _
  have h := chip_number_found (addReachable_iff.mpr ⟨1, hcalls⟩)
  exact (h.1 _).mpr (h.2 1 (by decide) hcalls)

/-! ## Filling the database -/

/-- **A call that leaves one chip more**: nothing matches, or the shift raises. -/
theorem AddReachableIn.one_more (h : AddReachableIn K calls db) (hcount : chipCount db < 1000)
    {pages : List (ApproxPage K)} (hne : pages ≠ [])
    (hlinks : ∀ links, Greedy K db [] 0 (pages.map ApproxPage.errorString) links →
      links = [] ∨ Clash links) :
    ∃ n, digits n ∉ db ∧ AddReachableIn K (calls + 1)
      (withChip db (digits n) (pages.map ApproxPage.errorString)) ∧
        chipCount (withChip db (digits n) (pages.map ApproxPage.errorString)) = chipCount db + 1 := by
  obtain ⟨r, hfree⟩ := exists_free hcount
  have hdraw : firstFree db [r] = some (r.1, []) := if_neg hfree
  have hwf : WellFormed K db := (addReachable_iff.mpr ⟨calls, h⟩).repInv.wellFormed
  obtain ⟨links, hgreedy, hmatch⟩ := matchPages_withChip hwf (fun _ => .alphabetical) pages hfree
  have hafter := h.add (fun _ => .alphabetical) pages [r]
  rw [run_add_eq hdraw hmatch] at hafter
  refine ⟨r.1, hfree, ?_, chipCount_withChip hfree (by simpa using hne)⟩
  rcases hlinks links hgreedy with rfl | hclash
  · exact hafter
  · rwa [if_pos hclash] at hafter

/-- **The database can be filled** if each of the calls left can be made to leave one chip more. `I`
    is what holds of the database with `k` chips. -/
theorem exists_full {I : ℕ → Database → Prop}
    (hstep : ∀ k db, k < 1000 → I k db → ∃ pages : List (ApproxPage K), pages ≠ [] ∧
      (∀ links, Greedy K db [] 0 (pages.map ApproxPage.errorString) links →
      links = [] ∨ Clash links) ∧ ∀ n,
        digits n ∉ db → I (k + 1) (withChip db (digits n) (pages.map ApproxPage.errorString)))
    (hstart : I 0 ∅) : ∃ db, AddReachableIn K 1000 db ∧ chipCount db = 1000 := by
  have hfill : ∀ k ≤ 1000, ∃ db, AddReachableIn K k db ∧ chipCount db = k ∧ I k db := by
    intro k
    induction k with
    | zero => exact fun _ => ⟨∅, .empty, rfl, hstart⟩
    | succ k ih =>
      intro hk
      obtain ⟨db, hreach, hcount, hI⟩ := ih (Nat.le_of_succ_le hk)
      obtain ⟨pages, hne, hlinks, hnext⟩ := hstep k db hk hI
      obtain ⟨n, hfree, hreach', hcount'⟩ := hreach.one_more (hcount ▸ hk) hne hlinks
      exact ⟨_, hreach', hcount'.trans (congrArg (· + 1) hcount), hnext n hfree⟩
  obtain ⟨db, hreach, hcount, -⟩ := hfill 1000 (Nat.le_refl 1000)
  exact ⟨db, hreach, hcount⟩

/-- **With enough different pages** the database can be filled by calls that merge nothing. -/
theorem exists_full_of_pages (page : ℕ → ApproxPage K)
    (hpage : ∀ j k, j < k → k < 1000 → Apart K (page j).errorString (page k).errorString) :
    ∃ db, AddReachableIn K 1000 db ∧ chipCount db = 1000 := by
  apply exists_full (I := fun k db => ∀ c l t, Stored db c l t → ∃ j < k, t = (page j).errorString)
  · intro k db hk hI
    refine ⟨[page k], by simp, fun links hlinks => Or.inl (hlinks.eq_nil ?_),
      fun n hfree c l t hst => ?_⟩
    · intro c _ l t hst s hs
      obtain ⟨j, hj, rfl⟩ := hI c l t hst
      rw [List.mem_singleton.mp hs]
      exact hpage j k hj hk
    · obtain ⟨-, ht⟩ | ⟨-, hst⟩ := hst.of_withChip hfree (by simp)
      · exact ⟨k, Nat.lt_succ_self k, List.mem_singleton.mp (List.mem_of_getElem? ht)⟩
      · obtain ⟨j, hj, ht⟩ := hI c l t hst
        exact ⟨j, Nat.lt_succ_of_lt hj, ht⟩
  · rintro c l t ⟨ps, hps, -⟩
    rw [Holds, Finmap.lookup_empty] at hps
    cases hps

/-! ### Pages of ten bits -/

theorem valid_of_isBit {s : Str} (hlength : s.length = K.PAGE_SIZE)
    (hbits : ∀ c ∈ s, isBit c = true) : Valid K s := by
  refine ⟨hlength, ?_⟩
  have hne : s ≠ [] := by
    rintro rfl
    have hpos := K.pageSize_pos
    rw [← hlength] at hpos
    exact Nat.not_succ_le_zero 0 hpos
  have hall : s.all isBit = true := List.all_eq_true.mpr hbits
  rw [regMatch, hall]
  simp [hne]

/-- The binary digits of `k`, the lowest first. -/
def binaryString (size k : ℕ) : Str := (List.range size).map fun i => if k.testBit i then '1' else '0'

theorem length_binaryString (size k : ℕ) : (binaryString size k).length = size := by
  rw [binaryString, List.length_map, List.length_range]

theorem isBit_binaryString (size k : ℕ) : ∀ c ∈ binaryString size k, isBit c = true := by
  intro c hc
  obtain ⟨i, -, rfl⟩ := List.mem_map.mp hc
  split <;> rfl

theorem binaryString_inj {size j k : ℕ} (hj : j < 2 ^ size) (hk : k < 2 ^ size)
    (h : binaryString size j = binaryString size k) : j = k := by
  apply Nat.eq_of_testBit_eq
  intro i
  by_cases hi : i < size
  · have hdigit := List.map_inj_left.mp h i (List.mem_range.mpr hi)
    revert hdigit
    cases j.testBit i <;> cases k.testBit i <;> decide
  · have hle : 2 ^ size ≤ 2 ^ i := Nat.pow_le_pow_right (by decide) (Nat.le_of_not_lt hi)
    rw [Nat.testBit_lt_two_pow (Nat.lt_of_lt_of_le hj hle),
      Nat.testBit_lt_two_pow (Nat.lt_of_lt_of_le hk hle)]

/-- `PAGE_SIZE = 10`. -/
def Constants.ten : Constants := .ofPageSize 10 (by decide)

def tenBits (k : ℕ) : ApproxPage Constants.ten :=
  ⟨binaryString 10 k, .int (-1), .int (-1), valid_of_isBit (length_binaryString 10 k)
    (isBit_binaryString 10 k)⟩

/-- **A database with `1000` chips**: one for each of `1000` different pages of ten bits, added one
    at a time. From it the loop of `getChipNumber` does not end, whatever is drawn. -/
theorem chip_number_not_found :
    ∃ db, AddReachable Constants.ten db ∧ ¬ ∃ draws n w, getChipNumber.run ⟨db, draws⟩ = .ok n w := by
  obtain ⟨db, hreach, hcount⟩ := exists_full_of_pages tenBits fun j k hjk hk => by
    apply Nat.le_of_not_lt
    intro hnear
    have heq := (near_iff_eq rfl (tenBits j).valid (tenBits k).valid).mp hnear
    exact Nat.ne_of_lt hjk (binaryString_inj (by omega) (by omega) heq)
  have hadd : AddReachable Constants.ten db := addReachable_iff.mpr ⟨1000, hreach⟩
  refine ⟨db, hadd, ?_⟩
  rintro ⟨draws, n, w, hrun⟩
  rw [hadd.repInv.run_getChipNumber_full hcount.ge] at hrun
  cases hrun

/-! ### Pages of any size -/

/-- The page with `PAGE_SIZE` times the same bit. -/
def uniformPage (K : Constants) (bit : Char) (h : isBit bit = true) : ApproxPage K :=
  ⟨List.replicate K.PAGE_SIZE bit, .int (-1), .int (-1),
    valid_of_isBit List.length_replicate fun _ hc =>
    List.eq_of_mem_replicate hc ▸ h⟩

/-- The pages `00…0` and `11…1`. -/
def zeroPage (K : Constants) : ApproxPage K := uniformPage K '0' rfl
def onePage (K : Constants) : ApproxPage K := uniformPage K '1' rfl

theorem distance_replicate (n : ℕ) : distance (List.replicate n '0') (List.replicate n '1') = n := by
  rw [distance, List.zip_replicate', List.countP_replicate]
  exact if_pos rfl

theorem apart_zeroPage_onePage (hK : K.NOISE_DISTANCE ≤ K.PAGE_SIZE) :
    Apart K (zeroPage K).errorString (onePage K).errorString := by
  have hdistance : distance (zeroPage K).errorString (onePage K).errorString = K.PAGE_SIZE :=
    distance_replicate _
  rw [Apart, hdistance]
  exact hK

/-- `00…0` is stored, and `11…1` in a chip that has no page near `00…0`. -/
def InTwoChips (K : Constants) (db : Database) : Prop :=
  (∃ c l, Stored db c l (zeroPage K).errorString) ∧ ∃ c,
    (∃ l, Stored db c l (onePage K).errorString) ∧ ∀ l t,
      Stored db c l t → ¬ Near K t (zeroPage K).errorString

theorem Stored.in_withChip {n c s : Str} {l : ℕ} (h : Stored db c l s) (hfree : n ∉ db)
    (strs : List Str) :
    Stored (withChip db n strs) c l s := by
  obtain ⟨ps, hps, hl⟩ := h
  exact ⟨ps, hps.withChip fun he => hfree (he ▸ hps.mem), hl⟩

theorem InTwoChips.withChip (h : InTwoChips K db) {n : Str} (hfree : n ∉ db) {strs : List Str}
    (hne : strs ≠ []) :
    InTwoChips K (withChip db n strs) := by
  obtain ⟨⟨c, l, hzeros⟩, b, ⟨l', hones⟩, hno⟩ := h
  refine ⟨⟨c, l, hzeros.in_withChip hfree strs⟩, b, ⟨l', hones.in_withChip hfree strs⟩,
    fun i t hst => ?_⟩
  obtain ⟨rfl, -⟩ | ⟨-, hst⟩ := hst.of_withChip hfree hne
  · exact absurd hones.mem hfree
  · exact hno i t hst

/-- The pages `00…0` and `11…1` then match two chips, the first of them at offset `0`. -/
theorem InTwoChips.clash (h : InTwoChips K db) {links : List Link}
    (hlinks : Greedy K db [] 0 ([zeroPage K, onePage K].map ApproxPage.errorString) links) :
      Clash links := by
  obtain ⟨⟨a, l, hzeros⟩, b, ⟨l', hones⟩, hno⟩ := h
  cases hlinks with
  | skip hskip _ => exact absurd (near_self K _) (hskip a List.not_mem_nil l _ hzeros)
  | @hit _ _ _ _ _ c _ t _ hst hnear hrest =>
    -- the chip matched first is not the one with `11…1`
    have hb : b ∉ [] ++ [c] := by
      rw [List.nil_append, List.mem_singleton]
      rintro rfl
      exact hno _ t hst hnear
    cases hrest with
    | skip hskip _ => exact absurd (near_self K _) (hskip b hb l' _ hones)
    | hit _ _ _ _ => exact rfl

/-- What `k` calls have stored: nothing, then `00…0`, then also `11…1` in another chip. -/
def Filling (K : Constants) : ℕ → Database → Prop
  | 0, db => db = ∅
  | 1, db =>
    (∃ c l, Stored db c l (zeroPage K).errorString) ∧ ∀ c l t,
      Stored db c l t → t = (zeroPage K).errorString
  | _ + 2, db => InTwoChips K db

theorem stored_singleton {n : Str} (page : ApproxPage K) :
    Stored (withChip db n ([page].map ApproxPage.errorString)) n 0 page.errorString :=
  ⟨_, holds_withChip (List.cons_ne_nil _ _), rfl⟩

theorem filling_one {n : Str} :
    Filling K 1 (withChip ∅ n ([zeroPage K].map ApproxPage.errorString)) := by
  refine ⟨⟨n, 0, stored_singleton (zeroPage K)⟩, fun c l t hst => ?_⟩
  obtain ⟨-, ht⟩ | ⟨-, hst⟩ := hst.of_withChip Finmap.notMem_empty (by simp)
  · exact List.mem_singleton.mp (List.mem_of_getElem? ht)
  · exact absurd hst.mem Finmap.notMem_empty

theorem filling_two (hK : K.NOISE_DISTANCE ≤ K.PAGE_SIZE) (h : Filling K 1 db) {n : Str}
    (hfree : n ∉ db) :
    Filling K 2 (withChip db n ([onePage K].map ApproxPage.errorString)) := by
  obtain ⟨⟨c, l, hzeros⟩, -⟩ := h
  refine ⟨⟨c, l, hzeros.in_withChip hfree _⟩, n, ⟨0, stored_singleton (onePage K)⟩, fun i t hst => ?_⟩
  obtain ⟨-, ht⟩ | ⟨hne, -⟩ := hst.of_withChip hfree (by simp)
  · rw [List.mem_singleton.mp (List.mem_of_getElem? ht), near_comm]
    exact (apart_zeroPage_onePage hK).not_near
  · exact absurd rfl hne

/-- **For every `PAGE_SIZE` the database can be filled** by `1000` calls: two store `00…0` and
    `11…1`, and each of the others adds both of these pages at once, matches two chips and raises
    before it merges them. -/
theorem exists_full_database (PAGE_SIZE : ℕ) (hsize : 1 ≤ PAGE_SIZE) :
    ∃ db, AddReachableIn (.ofPageSize PAGE_SIZE hsize) 1000 db ∧ chipCount db = 1000 := by
  have hK : (Constants.ofPageSize PAGE_SIZE hsize).NOISE_DISTANCE ≤
      (Constants.ofPageSize PAGE_SIZE hsize).PAGE_SIZE :=
    show (PAGE_SIZE + 1999) / 2000 ≤ PAGE_SIZE by omega
  generalize Constants.ofPageSize PAGE_SIZE hsize = K at hK
  apply exists_full (I := Filling K) _ rfl
  intro k db hk hfilling
  match k with
  | 0 =>
    obtain rfl : db = ∅ := hfilling
    refine ⟨[zeroPage K], by simp, fun links hlinks => Or.inl (hlinks.eq_nil fun c _ l t hst => ?_),
      fun n _ => filling_one⟩
    exact absurd hst.mem Finmap.notMem_empty
  | 1 =>
    refine ⟨[onePage K], by simp,
      fun links hlinks => Or.inl (hlinks.eq_nil fun c _ l t hst s hs => ?_), fun n hfree =>
        filling_two hK hfilling hfree⟩
    rw [hfilling.2 c l t hst, List.mem_singleton.mp hs]
    exact apart_zeroPage_onePage hK
  | k + 2 =>
    exact ⟨[zeroPage K, onePage K], by simp,
      fun links hlinks => Or.inr (InTwoChips.clash hfilling hlinks), fun n hfree =>
        InTwoChips.withChip hfilling hfree (by simp)⟩

end ProbableCause
