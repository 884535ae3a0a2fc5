import ProbableCause.Database.AddRun

/-!
# `Database.Alignment` — whether the matched pages end where the new pages do

`add` merges the chips of its matches one after the other into the chip of the new pages, and each
merge may move the pages that are there already. It corrects the offsets once, before its loop, and
only when the first match is at offset `0`. With the locations read as integers, `calls` are the
calls of `chipMerge` that it makes (`shiftOffsets_toCall`); `standsAt` follows a page through them
(`getElem?_assemble`).

A call at a location further right than the page in the accumulated chip moves that chip, and a call
at equal locations drops its front; both are right for the first call of a match at offset `0` only.
So the pages stay together exactly if no other call does that (`aligned_iff`).
-/

namespace ProbableCause

open Text Exits Overlay

variable {K : Constants} {db : Database} {P : Str → List Str} {links : List Link} {strs : List Str}

/-! ## What `add` does with a list of matches -/

/-- The part of `add` after `match`. -/
def mergeMatches (K : Constants) (chip : PyVal) (ms : List Match) : Py PyVal :=
  if ms = [] then pure chip
  else do
    let ms ← ofExcept (shiftOffsets ms)
    mergeLoop K chip ms

theorem add_eq_mergeMatches (os : ℕ → Listing) (pages : List (ApproxPage K)) :
    add K os pages = (do
      let chip ← chipAdd (pages.map some)
      let w ← get
      let m ← ofExcept (matchPages K os w.db pages (.int chip))
      let _ ← mergeMatches K (.int chip) m
      pure ()) := by
  unfold add
  congr 1
  funext chip
  congr 1
  funext w
  congr 1
  funext m
  unfold mergeMatches
  split
  · rfl
  · rw [bind_assoc]

/-- The matches with their locations read as integers, `int(loc)`. -/
def readLocs (ms : List Match) : Except Stop (List Match) :=
  ms.mapM fun m => do
    let loc ← pyInt m.loc
    .ok { m with loc := .int loc }

/-- An entry with its location read as an integer. -/
def Link.toCall (link : Link) : Match := ⟨.str link.chip, .int link.loc, .int link.offset⟩

/-- The correction `add` makes: the location of the first match, if its offset is `0`. -/
def baseShift : List Link → ℕ
  | [] => 0
  | first :: _ => if first.offset = 0 then first.loc else 0

/-- An entry with a corrected offset. -/
def Link.shifted (b : ℕ) (link : Link) : Link := { link with offset := link.offset + b }

/-- **The calls of `chipMerge`** for the entries that `match` has returned. -/
def calls : List Link → List Link
  | [] => []
  | first :: links => first :: links.map (Link.shifted (baseShift (first :: links)))

theorem mapM_map_ok {ε α β γ : Type} {f : β → Except ε γ} {h : α → β} {g : α → γ} :
    ∀ l : List α, (∀ a ∈ l, f (h a) = .ok (g a)) → (l.map h).mapM f = .ok (l.map g)
  | [], _ => rfl
  | a :: l, hl => by
    rw [List.map_cons, List.mapM_cons, hl a List.mem_cons_self,
      mapM_map_ok l fun b hb => hl b (List.mem_cons_of_mem _ hb)]
    rfl

theorem readLocs_toMatch (links : List Link) :
    readLocs (links.map Link.toMatch) = .ok (links.map Link.toCall) := by
  apply mapM_map_ok links
  intro link _
  simp only [Link.toMatch, pyInt_digits, bind, Except.bind]
  rfl

/-- The shift leaves the first entry alone and adds the base to the offsets of the others. -/
theorem shiftOffsets_toCall (links : List Link) :
    shiftOffsets (links.map Link.toCall) = .ok ((calls links).map Link.toCall) := by
  cases links with
  | nil => rfl
  | cons first links =>
    rw [List.map_cons, shiftOffsets, calls, baseShift]
    by_cases h0 : first.offset = 0
    · have hcond : first.toCall.offset = .int 0 := by simp [Link.toCall, h0]
      rw [if_pos hcond, if_pos h0]
      have hrest : (links.map Link.toCall).mapM (fun m => do
          let offset ← pyAdd m.offset first.toCall.loc
          Except.ok { m with offset := offset }) =
          .ok (links.map fun link => (link.shifted first.loc).toCall) := by
        apply mapM_map_ok links
        intro link _
        simp only [Link.toCall, Link.shifted, pyAdd, bind, Except.bind]
        push_cast
        rfl
      rw [hrest, List.map_cons, List.map_map]
      rfl
    · have hcond : ¬ first.toCall.offset = .int 0 := by simp [Link.toCall, h0]
      have hzero : links.map (Link.shifted 0) = links := List.map_id'' (fun _ => rfl) links
      rw [if_neg hcond, if_neg h0, hzero, List.map_cons]

/-- The loop reads the locations itself. -/
theorem mergeLoop_toCall (chip : PyVal) (links : List Link) :
    mergeLoop K chip (links.map Link.toCall) = mergeLoop K chip (links.map Link.toMatch) := by
  unfold mergeLoop
  rw [List.foldlM_map, List.foldlM_map]
  congr 1
  funext chip link
  simp only [Link.toCall, Link.toMatch, chipMerge, pyInt_digits, pyInt_int]

theorem mergeMatches_toCall (chip : PyVal) (links : List Link) :
    mergeMatches K chip (links.map Link.toCall) =
      mergeLoop K chip ((calls links).map Link.toMatch) := by
  rw [mergeMatches, shiftOffsets_toCall, ← mergeLoop_toCall]
  cases links with
  | nil => rfl
  | cons first links => rfl

/-! ## Following a page through the calls -/

/-- **Where `chipMerge` puts the pages** of the two chips: in the chip that it stores, the pages of
    the first one are at their places, and so are those of the second one where the first has none.
    -/
theorem chipMerge_places {w w' : World} {chip1 chip2 loc1 loc2 : PyVal} {p q : List Str}
    {l1 l2 n : ℕ} (h1 : Holds w.db (pyStr chip1) p) (h2 : Holds w.db (pyStr chip2) q)
    (hne : pyStr chip1 ≠ pyStr chip2) (hp : ∀ s ∈ p, Valid K s) (hq : ∀ s ∈ q, Valid K s)
    (hloc1 : pyInt loc1 = .ok (l1 : ℤ)) (hloc2 : pyInt loc2 = .ok (l2 : ℤ)) (hl2 : l2 < q.length)
    (hrun : (chipMerge K chip1 loc1 chip2 loc2).run w = .ok n w') :
    ∃ pages, Holds w'.db (digits n) pages ∧
      (∀ x j, x < p.length → fromFirst l1 l2 x = some j → pages[j]? = p[x]?) ∧
      ∀ y j, fromSecond l1 l2 y = some j →
        pages[j]? = q[y]? ∨ ∃ x < p.length, fromFirst l1 l2 x = some j := by
  have hle := Nat.le_of_lt hl2
  rw [run_chipMerge h1 h2 hne hp hq hloc1 hloc2, storeResult] at hrun
  split at hrun
  · cases hrun
  have hlink : (⟨pyStr chip2, l2, l1⟩ : Link).loc < q.length := hl2
  rcases stitch?_link (q := p) hlink with ⟨hfit, hall, hlead, -⟩ | ⟨-, hall, -⟩
  · rw [if_pos hall, hlead] at hrun
    cases hrun
    refine ⟨stitch p l1 q l2, holds_withChip (stitch_ne_nil hl2), ?_, ?_⟩
    · exact fun x j hx hj => getElem?_stitch_fromFirst hle hfit hx hj
    · exact fun y j hj => getElem?_stitch_fromSecond hle hfit hj
  · -- a read failed, so the call has not returned
    rw [if_neg (by rw [hall]; exact Bool.false_ne_true)] at hrun
    cases hrun

/-- Where page `x` of the accumulated chip stands after the calls; `none` if it is left out. -/
def standsAt (calls : List Link) (x : ℕ) : Option ℕ :=
  calls.foldlM (fun x call => fromFirst call.offset call.loc x) x

@[simp] theorem standsAt_nil (x : ℕ) : standsAt [] x = some x := rfl

theorem standsAt_cons (call : Link) (cs : List Link) (x : ℕ) :
    standsAt (call :: cs) x = (fromFirst call.offset call.loc x).bind (standsAt cs) := rfl

theorem standsAt_append (cs cs' : List Link) (x : ℕ) :
    standsAt (cs ++ cs') x = (standsAt cs x).bind (standsAt cs') := by
  rw [standsAt, List.foldlM_append]
  rfl

/-- **A page stands where `standsAt` says**, in the pages that the merges assemble. -/
theorem getElem?_assemble (cs : List Link) (q : List Str)
    (hloc : ∀ call ∈ cs, call.loc < (P call.chip).length) (hfits : Fits P q.length cs) {x j : ℕ}
    (hx : x < q.length) (h : standsAt cs x = some j) : (assemble P q cs)[j]? = q[x]? := by
  induction cs generalizing q x with
  | nil =>
    obtain rfl := Option.some.inj h
    rfl
  | cons call cs ih =>
    rw [standsAt_cons, Option.bind_eq_some_iff] at h
    obtain ⟨y, hy, hj⟩ := h
    have hle := Nat.le_of_lt (hloc call List.mem_cons_self)
    have hplace := getElem?_stitch_fromFirst hle hfits.1 hx hy
    have hlen := length_stitch hle hfits.1
    rw [List.getElem?_eq_getElem hx] at hplace
    have hylt := (List.getElem?_eq_some_iff.mp hplace).1
    rw [assemble_cons, ih _ (fun c hc => hloc c (List.mem_cons_of_mem _ hc)) (hlen ▸ hfits.2) hylt
      hj, hplace, List.getElem?_eq_getElem hx]

/-- Calls at positions of pages do not read past the end. -/
theorem fits_of_standsAt (cs : List Link) (q : List Str)
    (hloc : ∀ call ∈ cs, call.loc < (P call.chip).length)
    (h : ∀ i call, cs[i]? = some call →
      ∃ x < q.length, standsAt (cs.take i) x = some call.offset) : Fits P q.length cs := by
  induction cs generalizing q with
  | nil => trivial
  | cons call cs ih =>
    obtain ⟨x, hx, hoff⟩ := h 0 call rfl
    obtain rfl : x = call.offset := Option.some.inj hoff
    have hfit : call.offset ≤ call.loc ∨ call.offset ≤ q.length := .inr (Nat.le_of_lt hx)
    have hle := Nat.le_of_lt (hloc call List.mem_cons_self)
    refine ⟨hfit, ?_⟩
    rw [← length_stitch hle hfit]
    refine ih _ (fun c hc => hloc c (List.mem_cons_of_mem _ hc)) fun i c hc => ?_
    obtain ⟨y, hy, hat⟩ := h (i + 1) c hc
    rw [List.take_succ_cons, standsAt_cons, Option.bind_eq_some_iff] at hat
    obtain ⟨z, hz, hat⟩ := hat
    have hplace := getElem?_stitch_fromFirst hle hfit hy hz
    rw [List.getElem?_eq_getElem hy] at hplace
    exact ⟨z, (List.getElem?_eq_some_iff.mp hplace).1, hat⟩

/-- The order of the pages is kept. -/
theorem standsAt_lt {cs : List Link} {x y i j : ℕ} (hxy : x < y) (hx : standsAt cs x = some i)
    (hy : standsAt cs y = some j) : i < j := by
  induction cs generalizing x y with
  | nil =>
    obtain rfl := Option.some.inj hx
    obtain rfl := Option.some.inj hy
    exact hxy
  | cons call cs ih =>
    rw [standsAt_cons, Option.bind_eq_some_iff] at hx hy
    obtain ⟨x', hx', hx⟩ := hx
    obtain ⟨y', hy', hy⟩ := hy
    exact ih (fromFirst_lt hxy hx' hy') hx hy

/-- Behind longer fronts of its own the accumulated chip stays where it is. -/
theorem standsAt_of_lt {cs : List Link} (h : ∀ call ∈ cs, call.loc < call.offset) (x : ℕ) :
    standsAt cs x = some x := by
  induction cs with
  | nil => rfl
  | cons call cs ih =>
    rw [standsAt_cons, fromFirst_of_lt (h call List.mem_cons_self), Option.bind_some,
      ih fun c hc => h c (List.mem_cons_of_mem _ hc)]

/-! ## Alignment -/

/-- Where position `x` has moved by the calls, if each moves the accumulated chip to the right by
    what the location is further right than the position. -/
def track (cs : List Link) (x : ℤ) : ℤ :=
  cs.foldl (fun x call => x + max 0 ((call.loc : ℤ) - call.offset)) x

theorem track_cons (call : Link) (cs : List Link) (x : ℤ) :
    track (call :: cs) x = track cs (x + max 0 ((call.loc : ℤ) - call.offset)) := rfl

theorem track_of_lt {cs : List Link} (h : ∀ call ∈ cs, call.loc < call.offset) (x : ℤ) :
    track cs x = x := by
  induction cs with
  | nil => rfl
  | cons call cs ih =>
    have hlt := h call List.mem_cons_self
    rw [track_cons, max_eq_left (by omega), add_zero, ih fun c hc => h c (List.mem_cons_of_mem _ hc)]

/-- **The ends of the merges in which every matched page ends where its new page does**: the chip
    that is left has the new page at a place at which the matched page has been laid as well. -/
def MergedTogether (strs : List Str) (links : List Link) (draws : List Draw) :
    EStateM.Result Stop World PyVal → Prop
  | .ok chip w' => ∀ i link call, links[i]? = some link → (calls links)[i]? = some call →
      ∃ pages j, Holds w'.db (pyStr chip) pages ∧ pages[j]? = strs[link.offset]? ∧
        standsAt (calls links) link.offset = some j ∧
        (fromSecond call.offset call.loc call.loc).bind
          (standsAt ((calls links).drop (i + 1))) = some j
  | .error .drawing _ => ¬ Rounds links.length draws
  | .error _ _ => False

/-- **The merges are aligned.** Each call is given the position that the new page has reached in the
    accumulated chip, and in the end every matched page is where its new page is. `db` is the
    database before the new pages, `strs`, are stored as chip `n`. -/
structure Aligned (K : Constants) (db : Database) (n : ℕ) (strs : List Str) (links : List Link) :
    Prop where
  current : ∀ i link call, links[i]? = some link → (calls links)[i]? = some call →
    standsAt ((calls links).take i) link.offset = some call.offset
  moved : ∀ i link call, links[i]? = some link → (calls links)[i]? = some call →
    (call.offset : ℤ) = track ((calls links).take i) link.offset
  together : ∀ draws, MergedTogether strs links draws
    ((mergeMatches K (.int n) (links.map Link.toCall)).run ⟨withChip db (digits n) strs, draws⟩)

/-- The condition for that: only the first merge extends the accumulated chip to the left, and it
    does so only at offset `0`. -/
def ExtendsOnce : List Link → Prop
  | first :: second :: links => (first.offset = 0 ∨ first.loc < first.offset) ∧
      ∀ link ∈ second :: links, link.loc < link.offset + baseShift (first :: second :: links)
  | _ => True

/-- A list of calls one by one. -/
theorem getElem?_calls {first link call : Link} {i : ℕ} (hlink : links[i]? = some link)
    (hcall : (calls (first :: links))[i + 1]? = some call) :
    call = link.shifted (baseShift (first :: links)) := by
  rw [calls, List.getElem?_cons_succ, List.getElem?_map, hlink] at hcall
  exact (Option.some.inj hcall).symm

theorem exists_calls {i : ℕ} {call : Link} (h : (calls links)[i]? = some call) :
    ∃ link ∈ links, call.chip = link.chip ∧ call.loc = link.loc := by
  cases links with
  | nil => cases h
  | cons first links =>
    cases i with
    | zero => exact ⟨first, List.mem_cons_self, Option.some.inj h ▸ rfl, Option.some.inj h ▸ rfl⟩
    | succ i =>
      rw [calls, List.getElem?_cons_succ, List.getElem?_map, Option.map_eq_some_iff] at h
      obtain ⟨link, hlink, rfl⟩ := h
      exact ⟨link, List.mem_cons_of_mem _ (List.mem_of_getElem? hlink), rfl, rfl⟩

theorem map_chip_calls (links : List Link) : (calls links).map Link.chip = links.map Link.chip := by
  cases links with
  | nil => rfl
  | cons first links =>
    rw [calls, List.map_cons, List.map_map, List.map_cons]
    rfl

theorem length_calls (links : List Link) : (calls links).length = links.length := by
  rw [← List.length_map Link.chip, map_chip_calls, List.length_map]

/-! ### The loop on the calls -/

theorem Merging.calls {n : ℕ} {q : List Str} (h : Merging K P db n q links) :
    Merging K P db n q (calls links) where
  wellFormed := h.wellFormed
  current := h.current
  linked call hcall := by
    obtain ⟨i, hi⟩ := List.mem_iff_getElem?.mp hcall
    obtain ⟨link, hlink, hchip, hloc⟩ := exists_calls hi
    rw [hchip, hloc]
    exact h.linked link hlink
  nodup := by
    rw [map_chip_calls]
    exact h.nodup
  notMem := by
    rw [map_chip_calls]
    exact h.notMem

/-- **Drawing ends**: the number of the chip that has just been removed is free. -/
theorem run_mergeLoop_rounds (links : List Link) (w : World) (n : ℕ) (q : List Str)
    (h : Merging K P w.db n q links) (hn : ∃ m : Draw, n = m.1)
    (hrounds : Rounds links.length w.draws) (w' : World) :
    (mergeLoop K (.int n) (links.map Link.toMatch)).run w ≠ .error .drawing w' := by
  refine mergeLoop_rule (K := K) (P := P)
    (motive := fun w n q links r => (∃ m : Draw, n = m.1) → Rounds links.length w.draws →
      r ≠ .error .drawing w') ?_ ?_ ?_ ?_ links w n q h hn hrounds
  · intro w n q _ _ _ heq
    cases heq
  · rintro w n q link links h hdraw ⟨m, rfl⟩ hrounds
    have hfree : digits m.1 ∉ (w.db.erase (digits m.1)).erase link.chip := fun hmem =>
      Finmap.notMem_erase_self (Finmap.mem_erase.mp hmem).2
    obtain ⟨n, rest, hfound, -⟩ := firstFree_rounds_of_free hfree hrounds
    rw [hdraw] at hfound
    cases hfound
  · intro w n q link links n' rest _ _ _ _ _ heq
    cases heq
  · rintro w n q link links n' rest r h hdraw - ih ⟨m, rfl⟩ hrounds
    have hfree : digits m.1 ∉ (w.db.erase (digits m.1)).erase link.chip := fun hmem =>
      Finmap.notMem_erase_self (Finmap.mem_erase.mp hmem).2
    obtain ⟨n, rest', hfound, hrest⟩ := firstFree_rounds_of_free hfree hrounds
    rw [hdraw] at hfound
    cases hfound
    obtain ⟨hlow, hhigh, -⟩ := firstFree_spec hdraw
    exact ih ⟨⟨n', hlow, hhigh⟩, rfl⟩ hrest

/-- **A run of the merges** whose positions are those of pages of the accumulated chip. -/
theorem run_calls {n : ℕ} {draws : List Draw} (h : Merging K P db n strs links)
    (hn : ∃ m : Draw, n = m.1) (hoffset : ∀ link ∈ links, link.offset < strs.length)
    (hcurrent : ∀ i link call, links[i]? = some link → (calls links)[i]? = some call →
      standsAt ((calls links).take i) link.offset = some call.offset)
    (htogether : ∀ i link call, links[i]? = some link → (calls links)[i]? = some call →
      ∃ j, standsAt (calls links) link.offset = some j ∧
        (fromSecond call.offset call.loc call.loc).bind
          (standsAt ((calls links).drop (i + 1))) = some j) :
    MergedTogether strs links draws
      ((mergeMatches K (.int n) (links.map Link.toCall)).run ⟨db, draws⟩) := by
  have hmerging := h.calls
  have hloc : ∀ call ∈ calls links, call.loc < (P call.chip).length := fun call hcall =>
    (hmerging.linked call hcall).2
  have hfits : Fits P strs.length (calls links) := by
    refine fits_of_standsAt _ _ hloc fun i call hcall => ?_
    have hi : i < links.length := length_calls links ▸ (List.getElem?_eq_some_iff.mp hcall).1
    exact ⟨_, hoffset _ (List.getElem_mem hi),
      hcurrent i _ call (List.getElem?_eq_getElem hi) hcall⟩
  have hend := run_mergeLoop (calls links) ⟨db, draws⟩ n strs hmerging
  have hdrawing := run_mergeLoop_rounds (calls links) ⟨db, draws⟩ n strs hmerging hn
  rw [length_calls] at hdrawing
  rw [mergeMatches_toCall]
  cases hrun : (mergeLoop K (.int n) ((calls links).map Link.toMatch)).run ⟨db, draws⟩ with
  | ok chip w' =>
    rw [hrun] at hend
    obtain ⟨-, n', rfl, -, hdb⟩ := hend
    intro i link call hlink hcall
    obtain ⟨j, hj, hj'⟩ := htogether i link call hlink hcall
    have hx := hoffset link (List.mem_of_getElem? hlink)
    have hpage := getElem?_assemble (calls links) strs hloc hfits hx hj
    refine ⟨assemble P strs (calls links), j, ?_, hpage, hj, hj'⟩
    have hne : assemble P strs (calls links) ≠ [] := by
      intro hnil
      rw [hnil, List.getElem?_eq_getElem hx] at hpage
      cases hpage
    rw [hdb]
    exact holds_withChip hne
  | error e w' =>
    rw [hrun] at hend hdrawing
    cases e with
    | raised e => exact hend.1 hfits
    | drawing => exact fun hrounds => hdrawing hrounds w' rfl
    | outOfFuel => exact hend

/-! ### When the merges are aligned -/

section

variable {first second : Link} {rest : List Link}

/-- The first call moves everything by the base. -/
theorem ExtendsOnce.fromFirst_first (h : ExtendsOnce (first :: second :: rest)) (x : ℕ) :
    fromFirst first.offset first.loc x = some (x + baseShift (first :: second :: rest)) := by
  rw [baseShift]
  split
  · next h0 => rw [h0, fromFirst_zero]
  · next h0 => rw [fromFirst_of_lt (h.1.resolve_left h0), Nat.add_zero]

/-- The others move nothing. -/
theorem ExtendsOnce.loc_lt (h : ExtendsOnce (first :: second :: rest)) {call : Link}
    (hcall : call ∈ (calls (first :: second :: rest)).tail) : call.loc < call.offset := by
  obtain ⟨link, hlink, rfl⟩ := List.mem_map.mp hcall
  exact h.2 link hlink

/-- So after any number of calls but none a page stands where the first one has moved it. -/
theorem ExtendsOnce.standsAt_take (h : ExtendsOnce (first :: second :: rest)) (i x : ℕ) :
    standsAt ((calls (first :: second :: rest)).take (i + 1)) x =
      some (x + baseShift (first :: second :: rest)) := by
  have hstay : ∀ call ∈ (calls (first :: second :: rest)).tail.take i, call.loc < call.offset :=
    fun call hcall => h.loc_lt (List.mem_of_mem_take hcall)
  rw [calls, List.take_succ_cons, standsAt_cons, h.fromFirst_first, Option.bind_some]
  exact standsAt_of_lt hstay _

theorem ExtendsOnce.standsAt_calls (h : ExtendsOnce (first :: second :: rest)) (x : ℕ) :
    standsAt (calls (first :: second :: rest)) x =
      some (x + baseShift (first :: second :: rest)) := by
  have hall := h.standsAt_take (calls (first :: second :: rest)).length x
  rwa [List.take_of_length_le (Nat.le_succ _)] at hall

theorem ExtendsOnce.track_take (h : ExtendsOnce (first :: second :: rest)) (i : ℕ) (x : ℤ) :
    track ((calls (first :: second :: rest)).take (i + 1)) x =
      x + baseShift (first :: second :: rest) := by
  have hstay : ∀ call ∈ (calls (first :: second :: rest)).tail.take i, call.loc < call.offset :=
    fun call hcall => h.loc_lt (List.mem_of_mem_take hcall)
  have hfirst : max 0 ((first.loc : ℤ) - first.offset) = baseShift (first :: second :: rest) := by
    rw [baseShift]
    split
    · omega
    · next h0 =>
      have hlt := h.1.resolve_left h0
      omega
  rw [calls, List.take_succ_cons, track_cons, hfirst]
  exact track_of_lt hstay _

/-- A page that a call lays stays where it is. -/
theorem ExtendsOnce.standsAt_drop (h : ExtendsOnce (first :: second :: rest)) (i x : ℕ) :
    standsAt ((calls (first :: second :: rest)).drop (i + 1)) x = some x :=
  standsAt_of_lt (fun _ hcall => h.loc_lt (List.mem_of_mem_drop hcall)) x

end

/-- The positions, if no call but the first one extends the accumulated chip. -/
theorem ExtendsOnce.positions (h : ExtendsOnce links) {i : ℕ} {link call : Link}
    (hlink : links[i]? = some link) (hcall : (calls links)[i]? = some call) :
    standsAt ((calls links).take i) link.offset = some call.offset ∧
      (call.offset : ℤ) = track ((calls links).take i) link.offset ∧
      ∃ j, standsAt (calls links) link.offset = some j ∧
        (fromSecond call.offset call.loc call.loc).bind
          (standsAt ((calls links).drop (i + 1))) = some j := by
  match links, h with
  | [first], _ =>
    obtain ⟨rfl, rfl⟩ : i = 0 ∧ link = first := by
      cases i with
      | zero => exact ⟨rfl, (Option.some.inj hlink).symm⟩
      | succ i => cases hlink
    obtain rfl : call = link := (Option.some.inj hcall).symm
    refine ⟨rfl, rfl, frontLen call.offset call.loc, ?_, ?_⟩
    · exact congrArg (Option.bind · _) (fromFirst_self _ _)
    · exact congrArg (Option.bind · _) ((fromSecond_self _ _).trans (fromFirst_self _ _))
  | first :: second :: rest, h =>
    cases i with
    | zero =>
      obtain rfl : first = link := Option.some.inj hlink
      obtain rfl : first = call := Option.some.inj hcall
      refine ⟨rfl, rfl, _, h.standsAt_calls _, ?_⟩
      rw [fromSecond_self, h.fromFirst_first, Option.bind_some, h.standsAt_drop]
    | succ i =>
      have hcall' := getElem?_calls hlink hcall
      have hlt : call.loc < call.offset := by
        rw [calls, List.getElem?_cons_succ] at hcall
        exact h.loc_lt (List.mem_of_getElem? hcall)
      have hoffset : call.offset = link.offset + baseShift (first :: second :: rest) :=
        congrArg Link.offset hcall'
      refine ⟨?_, ?_, _, h.standsAt_calls _, ?_⟩
      · rw [h.standsAt_take, hoffset]
      · rw [h.track_take, hoffset]
        push_cast
        rfl
      · rw [fromSecond_self, fromFirst_of_lt hlt, Option.bind_some, h.standsAt_drop, hoffset]

/-- **Aligned merges** extend the accumulated chip to the left once, and at offset `0`. -/
theorem Aligned.extendsOnce {n : ℕ} (h : Aligned K db n strs links)
    (hincreasing : links.Pairwise fun a b => a.offset < b.offset) : ExtendsOnce links := by
  match links, h, hincreasing with
  | [], _, _ => trivial
  | [_], _, _ => trivial
  | first :: second :: rest, h, hincreasing =>
    have hfirst := (List.pairwise_cons.mp hincreasing).1
    constructor
    · -- the second call is given the position of its page after the first one
      have hsecond := h.current 1 second
        (second.shifted (baseShift (first :: second :: rest))) rfl rfl
      have hlt := hfirst second List.mem_cons_self
      change (fromFirst first.offset first.loc second.offset).bind some =
        some (second.offset + _) at hsecond
      rw [Option.bind_fun_some, fromFirst, if_pos (Nat.le_of_lt hlt), frontLen, baseShift] at hsecond
      have hposition := Option.some.inj hsecond
      split at hposition <;> split at hposition <;> omega
    · intro link hlink
      obtain ⟨i, hi⟩ := List.mem_iff_getElem?.mp hlink
      have hcall : (calls (first :: second :: rest))[i + 1]? =
          some (link.shifted (baseShift (first :: second :: rest))) := by
        rw [calls, List.getElem?_cons_succ, List.getElem?_map, hi]
        rfl
      -- in a run that returns, the page of the first match is in the chip that is left
      obtain ⟨draws, hrounds⟩ := exists_rounds (first :: second :: rest).length
      have hend := h.together draws
      cases hrun : (mergeMatches K (.int n) ((first :: second :: rest).map Link.toCall)).run
          ⟨withChip db (digits n) strs, draws⟩ with
      | error e w' =>
        rw [hrun] at hend
        cases e with
        | raised e => exact hend.elim
        | drawing => exact absurd hrounds hend
        | outOfFuel => exact hend.elim
      | ok chip w' =>
        rw [hrun] at hend
        obtain ⟨pages, j, -, -, hstands, -⟩ := hend 0 first first rfl rfl
        -- so the front of this call is its own
        have hat := h.current (i + 1) link _ hi hcall
        rw [← List.take_append_drop (i + 1) (calls (first :: second :: rest)), standsAt_append,
          Option.bind_eq_some_iff] at hstands
        obtain ⟨x, hx, hstands⟩ := hstands
        rw [List.drop_eq_getElem?_toList_append, hcall] at hstands
        rw [Option.toList_some, List.singleton_append, standsAt_cons,
          Option.bind_eq_some_iff] at hstands
        obtain ⟨y, hy, -⟩ := hstands
        exact lt_of_fromFirst (standsAt_lt (hfirst link hlink) hx hat) hy

/-- Merges that extend the accumulated chip once are aligned. -/
theorem ExtendsOnce.aligned {n : ℕ} (h : ExtendsOnce links) (hwf : WellFormed K db)
    (hval : ∀ s ∈ strs, Valid K s) (hn : ∃ m : Draw, n = m.1) (hfree : digits n ∉ db)
    (hgreedy : Greedy K db [] 0 strs links) : Aligned K db n strs links where
  current _ _ _ hlink hcall := (h.positions hlink hcall).1
  moved _ _ _ hlink hcall := (h.positions hlink hcall).2.1
  together draws := by
    by_cases hne : strs = []
    · -- no pages, no matches
      subst hne
      cases hgreedy
      intro i link call hlink
      cases hlink
    · refine run_calls (hgreedy.merging hwf hval hne hfree) hn ?_ ?_ ?_
      · intro link hlink
        have hrange := (hgreedy.offset_range link hlink).2
        rwa [Nat.zero_add] at hrange
      · exact fun i link call hlink hcall => (h.positions hlink hcall).1
      · exact fun i link call hlink hcall => (h.positions hlink hcall).2.2

/-- **When `add` aligns its merges**: for every result of `match` on a well-formed database with the
    new pages in it, the calls of `chipMerge` (locations read as integers) keep the matched pages
    with the new pages if and only if no call but the first, and that at offset `0`, is at a location
    of at least its position. -/
theorem aligned_iff (hwf : WellFormed K db) {os : ℕ → Listing} {pages : List (ApproxPage K)}
    {draws rest : List Draw} {n : ℕ} (hdraw : firstFree db draws = some (n, rest)) {ms : List Match}
    (hm : matchPages K os (withChip db (digits n) (pages.map ApproxPage.errorString)) pages (.int n) =
      .ok ms) :
    ∃ links : List Link, ms = links.map Link.toMatch ∧ readLocs ms = .ok (links.map Link.toCall) ∧
      shiftOffsets (links.map Link.toCall) = .ok ((calls links).map Link.toCall) ∧
      (Aligned K db n (pages.map ApproxPage.errorString) links ↔ ExtendsOnce links) := by
  obtain ⟨hlow, hhigh, hfree⟩ := firstFree_spec hdraw
  obtain ⟨links, hgreedy, hlinks⟩ := matchPages_withChip hwf os pages hfree
  obtain rfl : ms = links.map Link.toMatch := Except.ok.inj (hm.symm.trans hlinks)
  refine ⟨links, rfl, readLocs_toMatch links, shiftOffsets_toCall links, ?_, ?_⟩
  · exact fun h => h.extendsOnce hgreedy.offsets_increasing
  · exact fun h => h.aligned hwf (valid_errorStrings pages) ⟨⟨n, hlow, hhigh⟩, rfl⟩ hfree hgreedy

/-! ## Two noisy first matches -/

/-- A chip of four pages and a chip of one page. -/
def lateShiftDb : Database :=
  ((∅ : Database).insert (digits 1)
    (chipDir ["00000".toList, "00001".toList, "00010".toList, "01000".toList])).insert (digits 2)
      (chipDir ["10000".toList])

/-- The same with half of the first chip. -/
def equalShiftDb : Database :=
  ((∅ : Database).insert (digits 1) (chipDir ["00000".toList, "01000".toList])).insert (digits 2)
    (chipDir ["10000".toList])

/-- Three new pages: the second one is the last page of the first chip, the third one is the page of
    the other chip. -/
def lateShiftPages : List (ApproxPage Constants.repository) :=
  [⟨"00100".toList, .int (-1), .int (-1), by decide⟩,
    ⟨"01000".toList, .int (-1), .int (-1), by decide⟩,
    ⟨"10000".toList, .int (-1), .int (-1), by decide⟩]

theorem lateShiftDb_wellFormed : WellFormed Constants.repository lateShiftDb :=
  ((WellFormed.empty _).insert _ (by decide) (by decide)).insert _ (by decide) (by decide)

/-- What `match` returns for the new pages, stored as chip `3`. -/
theorem matchPages_lateShift {db : Database} {links : List Link}
    (h : (matchPages Constants.repository (fun _ => .alphabetical)
      (withChip db (digits 3) (lateShiftPages.map ApproxPage.errorString)) lateShiftPages
        (.int (3 : ℕ))).toOption = some (links.map Link.toMatch)) :
    matchPages Constants.repository (fun _ => .alphabetical)
      (withChip db (digits 3) (lateShiftPages.map ApproxPage.errorString)) lateShiftPages
        (.int (3 : ℕ)) = .ok (links.map Link.toMatch) := by
  cases hrun : matchPages Constants.repository (fun _ => .alphabetical)
      (withChip db (digits 3) (lateShiftPages.map ApproxPage.errorString)) lateShiftPages
          (.int (3 : ℕ)) with
  | error e =>
    rw [hrun] at h
    cases h
  | ok ms =>
    rw [hrun] at h
    exact congrArg Except.ok (Option.some.inj h)

/-- **The second call is not aligned.** In the first database the first merge moves the new pages two
    positions to the right, in the second one it drops the page before them; the call for the last
    of the new pages is given position `2` in both. -/
theorem lateShift_not_aligned :
    (matchPages Constants.repository (fun _ => .alphabetical)
        (withChip lateShiftDb (digits 3) (lateShiftPages.map ApproxPage.errorString)) lateShiftPages
          (.int (3 : ℕ)) = .ok ([⟨digits 1, 3, 1⟩, ⟨digits 2, 0, 2⟩].map Link.toMatch) ∧
      ¬ Aligned Constants.repository lateShiftDb 3 (lateShiftPages.map ApproxPage.errorString)
        [⟨digits 1, 3, 1⟩, ⟨digits 2, 0, 2⟩]) ∧
    matchPages Constants.repository (fun _ => .alphabetical)
        (withChip equalShiftDb (digits 3) (lateShiftPages.map ApproxPage.errorString)) lateShiftPages
          (.int (3 : ℕ)) = .ok ([⟨digits 1, 1, 1⟩, ⟨digits 2, 0, 2⟩].map Link.toMatch) ∧
      ¬ Aligned Constants.repository equalShiftDb 3 (lateShiftPages.map ApproxPage.errorString)
        [⟨digits 1, 1, 1⟩, ⟨digits 2, 0, 2⟩] := by
  refine ⟨⟨matchPages_lateShift (by decide +kernel), fun h => ?_⟩,
    matchPages_lateShift (by decide +kernel), fun h => ?_⟩
  · exact absurd (h.current 1 ⟨digits 2, 0, 2⟩ ⟨digits 2, 0, 2⟩ rfl rfl) (by decide)
  · exact absurd (h.current 1 ⟨digits 2, 0, 2⟩ ⟨digits 2, 0, 2⟩ rfl rfl) (by decide)

/-- At the first one. -/
theorem aligned_iff_lateShift :
    ∃ links : List Link,
      [⟨digits 1, 3, 1⟩, ⟨digits 2, 0, 2⟩].map Link.toMatch = links.map Link.toMatch ∧
      readLocs ([⟨digits 1, 3, 1⟩, ⟨digits 2, 0, 2⟩].map Link.toMatch) = .ok (links.map Link.toCall) ∧
      shiftOffsets (links.map Link.toCall) = .ok ((calls links).map Link.toCall) ∧
      (Aligned Constants.repository lateShiftDb 3 (lateShiftPages.map ApproxPage.errorString) links ↔
        ExtendsOnce links) := by
  have hdraw : firstFree lateShiftDb [⟨3, by decide⟩] = some (3, []) := by decide +kernel
  exact aligned_iff lateShiftDb_wellFormed hdraw (matchPages_lateShift (by decide +kernel))

end ProbableCause
