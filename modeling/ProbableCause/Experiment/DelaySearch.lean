import ProbableCause.Firmware.Search
import ProbableCause.Experiment.Script

/-!
# `Experiment.DelaySearch` — the delay that the script reads from the log

The log of `dram_bst` has no end mark, so the script takes a record to be the last one when the byte
behind it is `FF`, as in erased flash. That byte is the low byte of the next delay if there is a
next record. The script therefore finds the delay of the search if and only if no delay tried ends
in `FF` (`findDelay_eq_iff`): at such a delay it stops at the record before, and the delay there is
a different one.

`readLog` is what the loop does on a log, `delayLoop_eq` that it does so on the words of the dump, and
`readLog_eq_getLast_iff` when the result is the last delay.
-/

namespace ProbableCause

open Text Bst

/-! ## Reading a log -/

/-- The delay the script takes from a log: the first one before a delay that ends in `FF`. -/
def readLog : ℕ → List ℕ → ℕ
  | delay, [] => delay
  | delay, delay' :: delays => if lowByte delay' = 0xFF then delay else readLog delay' delays

theorem readLog_mem (d : ℕ) (ds : List ℕ) : readLog d ds ∈ d :: ds := by
  induction ds generalizing d with
  | nil => exact List.mem_cons_self
  | cons e es ih =>
    rw [readLog]
    split
    · exact List.mem_cons_self
    · exact List.mem_cons_of_mem _ (ih e)

/-- **When the last delay is found**: no delay but the first may end in `FF`, if the delays are
    different and the last one is there twice. -/
theorem readLog_eq_getLast_iff {d last : ℕ} {ds : List ℕ} (hnodup : (d :: ds).Nodup)
    (hlast : (d :: ds).getLast? = some last) (hd : lowByte d ≠ 0xFF) :
    readLog d (ds ++ [last]) = last ↔ ∀ x ∈ ds, lowByte x ≠ 0xFF := by
  induction ds generalizing d with
  | nil =>
    obtain rfl : d = last := Option.some.inj hlast
    rw [List.nil_append, readLog, if_neg hd]
    exact iff_of_true rfl fun x hx => absurd hx List.not_mem_nil
  | cons e es ih =>
    obtain ⟨hnotin, hnodup'⟩ := List.nodup_cons.mp hnodup
    rw [List.getLast?_cons_cons] at hlast
    rw [List.cons_append, readLog]
    by_cases he : lowByte e = 0xFF
    · -- the script stops here, but the last delay is a later one
      rw [if_pos he]
      refine iff_of_false (fun h => hnotin ?_) fun h => h e List.mem_cons_self he
      rw [h]
      exact List.mem_of_getLast? hlast
    · rw [if_neg he, ih hnodup' hlast he, List.forall_mem_cons]
      exact (and_iff_right he).symm

/-! ## The words of the dump -/

variable {mem : ℕ → BitVec 8} {stop address : ℕ}

/-- The word of an address. -/
theorem getElem?_dumpWords (hlo : int16 MEMORY_START ≤ address) (hhi : address < stop) :
    (dumpWords mem stop)[address - int16 MEMORY_START + 1]? = some (hexToken (mem address)) := by
  rw [dumpWords, List.getElem?_cons_succ, List.getElem?_append_left (by
    rw [length_byteTokens]; omega), byteTokens, List.getElem?_map, List.getElem?_range (by omega),
    Option.map_some, Nat.add_sub_of_le hlo]

/-- **The loop on the words of a log**: it stops at a record with the delay that `readLog` gives. -/
theorem delayLoop_eq (d : ℕ) (ds : List ℕ) (hlo : int16 MEMORY_START ≤ address)
    (hlog : HoldsLog mem address (d :: ds)) (hstop : address + 6 * (ds.length + 1) < stop) {fuel : ℕ}
    (hfuel : ds.length < fuel) :
    ∃ last, delayLoop (dumpWords mem stop) fuel (address - int16 MEMORY_START + 1) =
        .ok (last - int16 MEMORY_START + 1) ∧ address ≤ last ∧ last + 6 < stop ∧
      mem last = lowByte (readLog d ds) ∧ mem (last + 1) = highByte (readLog d ds) := by
  induction ds generalizing d address fuel with
  | nil =>
    -- the byte behind the last record is erased
    obtain ⟨fuel, rfl⟩ : ∃ n, fuel = n + 1 := ⟨fuel - 1, by omega⟩
    obtain ⟨hlow, hhigh, herased⟩ := hlog
    rw [List.length_nil] at hstop
    have hnext : address - int16 MEMORY_START + 1 + 6 = address + 6 - int16 MEMORY_START + 1 := by
      omega
    refine ⟨address, ?_, Nat.le_refl _, by omega, hlow, hhigh⟩
    rw [delayLoop, hnext, getElem?_dumpWords (by omega) (by omega), herased _ (Nat.le_refl _)]
    exact if_neg fun h => h rfl
  | cons e es ih =>
    -- the byte behind the record is the low byte of the next delay
    obtain ⟨fuel, rfl⟩ : ∃ n, fuel = n + 1 := ⟨fuel - 1, by omega⟩
    obtain ⟨hlow, hhigh, hlog'⟩ := hlog
    rw [List.length_cons] at hstop hfuel
    have hnext : address - int16 MEMORY_START + 1 + 6 = address + 6 - int16 MEMORY_START + 1 := by
      omega
    have htoken : "FF".toList = hexToken 0xFF := rfl
    rw [delayLoop, hnext, getElem?_dumpWords (by omega) (by omega), hlog'.1, readLog, htoken]
    dsimp only
    by_cases he : lowByte e = 0xFF
    · rw [if_pos he, if_neg fun h => h (hexToken_inj.mpr he)]
      exact ⟨address, rfl, Nat.le_refl _, by omega, hlow, hhigh⟩
    · rw [if_neg he, if_pos fun h => he (hexToken_inj.mp h)]
      obtain ⟨last, hloop, hle, hlt, hbytes⟩ := ih e (by omega) hlog' (by omega)
        (show es.length < fuel by omega)
      exact ⟨last, hloop, by omega, hlt, hbytes⟩

/-! ## The delay of the search -/

/-- **The script finds the delay of the search**: its low and its high byte. -/
def DelayFound (r : Returned) (f : Str) : Prop :=
  findDelay f = .ok (hexToken (lowByte r.delay), hexToken (highByte r.delay))

/-- The words the script takes. -/
theorem findDelay_of_delayLoop {f : Str} {last : ℕ} {delayLow delayHigh : Str}
    (hloop : delayLoop (words f) ((words f).length + 1) (int16 DATA_START - int16 MEMORY_START + 1) =
      .ok last)
    (hhigh : (words f)[last + 1]? = some delayHigh) (hlow : (words f)[last]? = some delayLow) :
    findDelay f = .ok (delayLow, delayHigh) := by
  unfold findDelay
  dsimp only
  rw [hloop]
  dsimp only [bind, Except.bind]
  rw [hhigh, hlow]

/-- What the script finds in a log, in the words of a dump. -/
theorem findDelay_eq (d : ℕ) (ds : List ℕ) (hlog : HoldsLog mem (int16 DATA_START) (d :: ds))
    (hstop : int16 DATA_START + 6 * (ds.length + 1) < stop) {f : Str}
    (hf : words f = dumpWords mem stop) :
    findDelay f = .ok (hexToken (lowByte (readLog d ds)), hexToken (highByte (readLog d ds))) := by
  have hlo : int16 MEMORY_START ≤ int16 DATA_START := by decide
  have hlen := length_dumpWords mem stop
  obtain ⟨last, hloop, hle, hlt, hlow, hhigh⟩ := delayLoop_eq d ds hlo hlog hstop
    (show ds.length < (dumpWords mem stop).length + 1 by omega)
  have hnext : last - int16 MEMORY_START + 1 + 1 = last + 1 - int16 MEMORY_START + 1 := by omega
  rw [← hlow, ← hhigh]
  refine findDelay_of_delayLoop (by rw [hf]; exact hloop) ?_ ?_
  · rw [hf, hnext]
    exact getElem?_dumpWords (by omega) (by omega)
  · rw [hf]
    exact getElem?_dumpWords (by omega) (by omega)

variable {σ : Type} {measure : σ → ℕ → Option (ℕ × σ)} {fuel : ℕ} {flash : Flash} {bench : σ}
  {visited : List (Search σ)} {r : Returned}

/-- The first delay of a search. -/
theorem exists_visited_eq (hsearch : search measure fuel (Search.start address flash bench) =
    some (visited, r)) :
    ∃ rest, visited = Search.start address flash bench :: rest := by
  cases fuel with
  | zero => contradiction
  | succ fuel =>
    rw [search] at hsearch
    split at hsearch
    · contradiction
    · exact ⟨[], (congrArg Prod.fst (Option.some.inj hsearch)).symm⟩
    · obtain ⟨p, -, hp⟩ := Option.map_eq_some_iff.mp hsearch
      exact ⟨p.1, (congrArg Prod.fst hp).symm⟩

/-- The tokens of the two bytes tell delays apart. -/
theorem delayTokens_inj {d d' : ℕ} (hd : d < 2 ^ 16) (hd' : d' < 2 ^ 16) :
    (Except.ok (hexToken (lowByte d), hexToken (highByte d)) : Except Stop (Str × Str)) =
      .ok (hexToken (lowByte d'), hexToken (highByte d')) ↔ d = d' := by
  refine ⟨fun h => ?_, fun h => h ▸ rfl⟩
  obtain ⟨hlow, hhigh⟩ := Prod.mk.inj (Except.ok.inj h)
  exact eq_of_bytes hd hd' (hexToken_inj.mp hlow) (hexToken_inj.mp hhigh)

/-- The log of a search that starts at `DATA_START`. -/
theorem log_at_DATA_START (herased : ∀ x, int16 DATA_START ≤ x → flash.mem x = 0xFF)
    (hsearch : search measure fuel (Search.start (int16 DATA_START) flash bench) =
      some (visited, r)) :
    visited.length ≤ 16 ∧
      HoldsLog r.flash.mem (int16 DATA_START) (visited.map Search.delay ++ [r.delay]) ∧
      r.address = int16 DATA_START + 6 * visited.length := by
  have hopen := open_start (int16 DATA_START) flash bench
  have hlength : visited.length ≤ 16 := length_visited_le hopen hsearch
    (show MAX_DELAY - MIN_DELAY - 2 < 2 ^ 16 by decide)
  have hdata := int16_DATA_START
  obtain ⟨hlog, -, haddress⟩ := log_search hopen hsearch
    (show int16 DATA_START + 6 * (visited.length + 1) < 2 ^ 32 by omega) herased
  exact ⟨hlength, hlog, haddress⟩

/-- The last record holds the delay at which the search stopped. -/
theorem last_record (herased : ∀ x, int16 DATA_START ≤ x → flash.mem x = 0xFF)
    (hsearch : search measure fuel (Search.start (int16 DATA_START) flash bench) =
      some (visited, r)) :
    r.flash.mem r.address = lowByte r.delay ∧ r.flash.mem (r.address + 1) = highByte r.delay := by
  obtain ⟨-, hlog, haddress⟩ := log_at_DATA_START herased hsearch
  have hrecord := hlog.last
  rwa [List.length_map, ← haddress] at hrecord

/-- **When the script finds the delay**: no delay tried ends in `FF`. -/
theorem delayFound_iff (herased : ∀ x, int16 DATA_START ≤ x → flash.mem x = 0xFF)
    (hsearch : search measure fuel (Search.start (int16 DATA_START) flash bench) = some (visited, r))
    (hstop : int16 DATA_START + 6 * 18 ≤ stop) {f : Str} (hf : words f = dumpWords r.flash.mem stop) :
    DelayFound r f ↔ ∀ s ∈ visited, lowByte s.delay ≠ 0xFF := by
  have hopen := open_start (int16 DATA_START) flash bench
  obtain ⟨hbetween, hnodup⟩ := delays_nodup hopen hsearch
  have hlast := getLast_delays hopen hsearch
  obtain ⟨hlength, hlog, -⟩ := log_at_DATA_START herased hsearch
  have hbound : ∀ d ∈ visited.map Search.delay, d < 2 ^ 16 := by
    intro d hd
    obtain ⟨s, hs, rfl⟩ := List.mem_map.mp hd
    have hmax : s.delay < 60000 := (hbetween s hs).2
    omega
  obtain ⟨rest, rfl⟩ := exists_visited_eq hsearch
  rw [List.length_cons] at hlength
  rw [List.map_cons] at hnodup hlast hlog hbound
  rw [List.cons_append] at hlog
  -- the first delay is `30000`
  have hfirst : lowByte (Search.start (int16 DATA_START) flash bench).delay ≠ 0xFF :=
    show lowByte (MIN_DELAY / 2 + MAX_DELAY / 2) ≠ 0xFF by decide
  have hiff := readLog_eq_getLast_iff hnodup hlast hfirst
  rw [List.forall_mem_map] at hiff
  have hr := hbound _ (List.mem_of_getLast? hlast)
  have hread : readLog (Search.start (int16 DATA_START) flash bench).delay
      (rest.map Search.delay ++ [r.delay]) < 2 ^ 16 := by
    have hmem := readLog_mem (Search.start (int16 DATA_START) flash bench).delay
      (rest.map Search.delay ++ [r.delay])
    rw [← List.cons_append, List.mem_append] at hmem
    obtain hmem | hmem := hmem
    · exact hbound _ hmem
    · rwa [List.mem_singleton.mp hmem]
  rw [List.forall_mem_cons, and_iff_right hfirst, ← hiff, DelayFound, findDelay_eq _ _ hlog ?_ hf]
  · exact delayTokens_inj hread hr
  · rw [List.length_append, List.length_map, List.length_singleton]
    omega

/-- **The delay used is the delay found, if and only if** no delay the search tries ends in `FF`.
    The last record holds the delay at which the search stopped. -/
theorem findDelay_eq_iff (herased : ∀ x, int16 DATA_START ≤ x → flash.mem x = 0xFF)
    (hsearch : search measure fuel (Search.start (int16 DATA_START) flash bench) = some (visited, r))
    (hstop : int16 DATA_START + 6 * 18 ≤ stop) {f : Str} (hf : words f = dumpWords r.flash.mem stop) :
    (r.flash.mem r.address = lowByte r.delay ∧ r.flash.mem (r.address + 1) = highByte r.delay) ∧
      (DelayFound r f ↔ ∀ s ∈ visited, lowByte s.delay ≠ 0xFF) :=
  ⟨last_record herased hsearch, delayFound_iff herased hsearch hstop hf⟩

/-! ## A search that is not found -/

/-- The measurements of a run in which these flip counts are observed. -/
def observed (flips : ℕ → ℕ) (i _delay : ℕ) : Option (ℕ × ℕ) := some (flips i, i + 1)

/-- Flip counts that lead to the delay `16639`, which ends in `FF`. -/
def flipsToFF (i : ℕ) : ℕ := [0, 262144, 0, 0, 0, 262144, 262144, 259522].getD i 0

/-- The search takes eight rounds. -/
theorem search_flipsToFF :
    ∃ visited r, search (observed flipsToFF) 16
        (Search.start (int16 DATA_START) ⟨fun _ => 0xFF, []⟩ 0) = some (visited, r) ∧
      visited.map Search.delay = [30000, 15000, 22500, 18750, 16875, 15937, 16405, 16639] := by
  have hdelays : (search (observed flipsToFF) 16
      (Search.start (int16 DATA_START) ⟨fun _ => 0xFF, []⟩ 0)).map (fun p => p.1.map Search.delay) =
        some [30000, 15000, 22500, 18750, 16875, 15937, 16405, 16639] := by
    decide +kernel
  obtain ⟨⟨visited, r⟩, hsearch, hvisited⟩ := Option.map_eq_some_iff.mp hdelays
  exact ⟨visited, r, hsearch, hvisited⟩

theorem findDelay_eq_iff_eight :
    ∃ visited r, search (observed flipsToFF) 16
        (Search.start (int16 DATA_START) ⟨fun _ => 0xFF, []⟩ 0) = some (visited, r) ∧
      visited.length = 8 ∧
      (r.flash.mem r.address = lowByte r.delay ∧ r.flash.mem (r.address + 1) = highByte r.delay) ∧
        (DelayFound r (dumpText r.flash.mem SEGMENT_DATA_END) ↔
          ∀ s ∈ visited, lowByte s.delay ≠ 0xFF) := by
  obtain ⟨visited, r, hsearch, hvisited⟩ := search_flipsToFF
  have hlength : visited.length = 8 := by
    rw [← List.length_map, hvisited]
    rfl
  exact ⟨visited, r, hsearch, hlength,
    findDelay_eq_iff (fun _ _ => rfl) hsearch (by decide) (words_dumpText _ _)⟩

theorem delay_not_found :
    ∃ visited r, search (observed flipsToFF) 16
        (Search.start (int16 DATA_START) ⟨fun _ => 0xFF, []⟩ 0) = some (visited, r) ∧
      ¬ DelayFound r (dumpText r.flash.mem SEGMENT_DATA_END) := by
  obtain ⟨visited, r, hsearch, hvisited⟩ := search_flipsToFF
  refine ⟨visited, r, hsearch, ?_⟩
  intro hfound
  obtain ⟨s, hs, hdelay⟩ := List.mem_map.mp (show 16639 ∈ visited.map Search.delay by
    rw [hvisited]
    decide)
  refine (delayFound_iff (fun _ _ => rfl) hsearch (by decide) (words_dumpText _ _)).mp hfound s hs ?_
  rw [hdelay]
  decide

end ProbableCause
