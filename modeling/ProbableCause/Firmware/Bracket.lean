import ProbableCause.Firmware.Search
import ProbableCause.Lib.Bisection
import Mathlib.Order.Monotone.Defs
import Mathlib.Data.List.Chain

/-!
# `Firmware.Bracket` — what the search for the delay finds, and that it ends

The ends of the range are delays that have been tried and found wanting, or the untried first ones:
too many unflipped bits at the minimum, too few at the maximum (`BracketInv`). Where the number of
unflipped bits falls with the delay this carries over to all delays outside the range
(`search_brackets_target`).

The delay of a round lies strictly inside the range although the halves of the two ends are rounded
separately, as the range is at least three wide. So every round narrows the range, and the search
ends whatever is measured (`search_ends`).
-/

namespace ProbableCause.Bst

variable {σ : Type} {measure : σ → ℕ → Option (ℕ × σ)} {fuel : ℕ} {s s' : Search σ} {r : Returned}
  {visited : List (Search σ)} {count : ℕ → ℕ} {flipCounter : ℕ}

/-! ## The margin -/

/-- The count is within the margin of the target. -/
def Hit (n : ℕ) : Prop := ((n : ℤ) - (TARGET_ACCURACY : ℤ)).natAbs < MARGIN_OF_ERROR

theorem withinMargin_iff (n : ℕ) : withinMargin n = true ↔ Hit n := by
  unfold withinMargin Hit
  rw [decide_eq_true_iff]
  split <;> omega

/-- Outside the margin there are too few or too many. -/
theorem outside_cases {n : ℕ} (h : withinMargin n = false) :
    n < TARGET_ACCURACY ∧ n + MARGIN_OF_ERROR ≤ TARGET_ACCURACY ∨
      TARGET_ACCURACY ≤ n ∧ TARGET_ACCURACY + MARGIN_OF_ERROR ≤ n := by
  have hmargin : 0 < MARGIN_OF_ERROR := by decide
  unfold withinMargin at h
  rw [decide_eq_false_iff_not] at h
  split at h <;> omega

/-! ## The bracket -/

/-- **The bracket**: the ends of the range are untried, or on the wrong side of the target. -/
structure BracketInv (count : ℕ → ℕ) (lo hi : ℕ) : Prop where
  lower : lo ≠ MIN_DELAY → TARGET_ACCURACY + MARGIN_OF_ERROR ≤ count lo
  upper : hi ≠ MAX_DELAY → count hi + MARGIN_OF_ERROR ≤ TARGET_ACCURACY

/-- A measurement outside the margin keeps the bracket. -/
theorem BracketInv.narrowed (h : BracketInv count s.currentMinDelay s.currentMaxDelay)
    (houtside : withinMargin (count s.delay) = false) :
    BracketInv count (s.narrowed (count s.delay)).1 (s.narrowed (count s.delay)).2 := by
  obtain ⟨hlt, hnarrowed⟩ | ⟨hge, hnarrowed⟩ := s.narrowed_cases (count s.delay) <;> rw [hnarrowed]
  · obtain ⟨-, hfew⟩ | ⟨hge, -⟩ := outside_cases houtside
    · exact ⟨h.lower, fun _ => hfew⟩
    · exact absurd hlt (Nat.not_lt.mpr hge)
  · obtain ⟨hlt, -⟩ | ⟨-, hmany⟩ := outside_cases houtside
    · exact absurd hlt (Nat.not_lt.mpr hge)
    · exact ⟨fun _ => hmany, h.upper⟩

/-- **What is known when the search returns**, for counts that depend on the delay only.
    `currentMinDelay` and `currentMaxDelay` at the end are those after the last round. -/
structure Found (count : ℕ → ℕ) (visited : List (Search σ)) (r : Returned) : Prop where
  /-- at the delay of the last record the count is within the margin -/
  hit : r.code = 0 → Hit (count r.delay)
  /-- no delay tried was within the margin, and the delays that are left to try lie strictly inside
  the range -/
  missed : r.code = 1 → (∀ v ∈ visited, ¬ Hit (count v.delay)) ∧
    ∃ s, visited.getLast? = some s ∧
      let currentMinDelay := (s.narrowed (count s.delay)).1
      let currentMaxDelay := (s.narrowed (count s.delay)).2
      currentMaxDelay - currentMinDelay < 3 ∧
        (currentMinDelay ≠ MIN_DELAY → ∀ delay ≤ currentMinDelay,
        TARGET_ACCURACY + MARGIN_OF_ERROR ≤ count delay) ∧
        (currentMaxDelay ≠ MAX_DELAY → ∀ delay ≥ currentMaxDelay,
          count delay + MARGIN_OF_ERROR ≤ TARGET_ACCURACY) ∧ ∀ delay ≤ MAX_DELAY,
            Hit (count delay) → currentMinDelay < delay ∧ delay < currentMaxDelay ∨
            delay = MIN_DELAY ∧ currentMinDelay = MIN_DELAY ∨
            delay = MAX_DELAY ∧ currentMaxDelay = MAX_DELAY

/-- Delays outside a bracket miss the target. -/
theorem BracketInv.outside {lo hi : ℕ} (h : BracketInv count lo hi) (hcount : Antitone count) :
    (lo ≠ MIN_DELAY → ∀ delay ≤ lo, TARGET_ACCURACY + MARGIN_OF_ERROR ≤ count delay) ∧
      (hi ≠ MAX_DELAY → ∀ delay ≥ hi, count delay + MARGIN_OF_ERROR ≤ TARGET_ACCURACY) ∧
      ∀ delay ≤ MAX_DELAY, Hit (count delay) → lo < delay ∧ delay < hi ∨
        delay = MIN_DELAY ∧ lo = MIN_DELAY ∨ delay = MAX_DELAY ∧ hi = MAX_DELAY := by
  have hbelow : lo ≠ MIN_DELAY → ∀ delay ≤ lo, TARGET_ACCURACY + MARGIN_OF_ERROR ≤ count delay :=
    fun hlo delay hle => Nat.le_trans (h.lower hlo) (hcount hle)
  have habove : hi ≠ MAX_DELAY → ∀ delay ≥ hi, count delay + MARGIN_OF_ERROR ≤ TARGET_ACCURACY :=
    fun hhi delay hge => Nat.le_trans (Nat.add_le_add_right (hcount hge) _) (h.upper hhi)
  refine ⟨hbelow, habove, fun delay hmax hhit => ?_⟩
  unfold Hit at hhit
  -- a delay within the margin is beyond neither end
  have hnot : ¬ TARGET_ACCURACY + MARGIN_OF_ERROR ≤ count delay ∧
      ¬ count delay + MARGIN_OF_ERROR ≤ TARGET_ACCURACY := by
    omega
  exact Bisection.inside_or_first (fun hlo d _ hle => hbelow hlo d hle)
    (fun hhi d _ hge => habove hhi d hge)
    (Nat.zero_le delay) hmax hnot.1 hnot.2

/-- The bracket over a whole search. -/
theorem found_of_search (hcount : Antitone count)
    (hmeasure : ∀ bench delay n bench', measure bench delay = some (n, bench') → n = count delay)
    (hs : s.Open) (hsearch : search measure fuel s = some (visited, r))
    (hinv : BracketInv count s.currentMinDelay s.currentMaxDelay) : Found count visited r := by
  refine search_rule (P := fun s visited r => BracketInv count s.currentMinDelay s.currentMaxDelay →
    Found count visited r) ?_ ?_ hs hsearch hinv
  · intro s r flipCounter hs hstops hinv
    obtain ⟨bench, hmeasured⟩ := hstops.measured
    obtain rfl := hmeasure _ _ _ _ hmeasured
    obtain ⟨hwithin, hcode⟩ | ⟨houtside, hclosed, hcode⟩ := hstops.code
    · refine ⟨fun _ => ?_, fun h => ?_⟩
      · rw [hstops.delay]
        exact (withinMargin_iff _).mp hwithin
      · rw [hcode] at h
        contradiction
    · refine ⟨fun h => ?_, fun _ => ⟨fun v hv => ?_, s, rfl, ?_⟩⟩
      · rw [hcode] at h
        contradiction
      · rw [List.mem_singleton.mp hv, ← withinMargin_iff, houtside]
        exact Bool.false_ne_true
      · have hlt := (hs.narrowed_le (count s.delay)).1
        exact ⟨by omega, (hinv.narrowed houtside).outside hcount⟩
  · intro s s' flipCounter visited r _ hgoes ih hinv
    obtain rfl := hmeasure _ _ _ _ hgoes.measured
    have hrange := hgoes.range
    have hinv' := hinv.narrowed hgoes.outside
    rw [← hrange] at hinv'
    have hrest := ih hinv'
    refine ⟨hrest.hit, fun hcode => ?_⟩
    obtain ⟨hmissed, last, hlast, hrange⟩ := hrest.missed hcode
    refine ⟨fun v hv => ?_, last, ?_, hrange⟩
    · rcases List.mem_cons.mp hv with rfl | hv
      · rw [← withinMargin_iff, hgoes.outside]
        exact Bool.false_ne_true
      · exact hmissed v hv
    · rw [List.getLast?_cons, hlast]
      rfl

/-- The delay in the last record of the log. -/
theorem flashRb_last (hs : s.Open) (hsearch : search measure fuel s = some (visited, r))
    (haddress : s.address + 6 * 17 < 2 ^ 32) (herased : ∀ x, s.address ≤ x → s.flash.mem x = 0xFF) :
    (flashRb r.flash r.address).toNat = r.delay := by
  have hmax := hs.max
  unfold MAX_DELAY at hmax
  have hlength : visited.length ≤ 16 := length_visited_le hs hsearch (by omega)
  obtain ⟨hlog, -, hlast⟩ := log_search hs hsearch (by omega) herased
  obtain ⟨hlow, hhigh⟩ := hlog.last
  rw [List.length_map, ← hlast] at hlow hhigh
  -- the delay is one of those tried, so that it has two bytes
  obtain ⟨s', hs', hdelay⟩ := List.mem_map.mp (List.mem_of_getLast? (getLast_delays hs hsearch))
  have hbetween := (delays_nodup hs hsearch).1 s' hs'
  unfold flashRb
  rw [hlow, hhigh, BitVec.toNat_append, lowByte, highByte, BitVec.toNat_ofNat, BitVec.toNat_ofNat,
    ← Nat.shiftLeft_add_eq_or_of_lt (Nat.mod_lt _ (by decide)), Nat.shiftLeft_eq]
  omega

/-- **The search brackets the target**, where the number of unflipped bits does not rise with the
    delay. In flash that is erased from the log on, the delay at which it stops is that of the last
    record. -/
theorem search_brackets_target (hcount : Antitone count)
    (hmeasure : ∀ bench delay n bench', measure bench delay = some (n, bench') → n = count delay)
    (address : ℕ) (flash : Flash) (bench : σ)
    (hsearch : search measure fuel (Search.start address flash bench) = some (visited, r)) :
    Found count visited r ∧
      (address + 6 * 17 < 2 ^ 32 → (∀ x, address ≤ x → flash.mem x = 0xFF) →
        (flashRb r.flash r.address).toNat = r.delay) :=
  ⟨found_of_search hcount hmeasure (open_start address flash bench) hsearch
      ⟨fun hne => absurd rfl hne, fun hne => absurd rfl hne⟩,
    flashRb_last (open_start address flash bench) hsearch⟩

/-- On a DRAM of which five cells flip with each step of the delay. -/
theorem search_brackets_target_five_a_step :
    ∃ visited r, search (fun (_ : Unit) delay => some (262144 - 5 * delay, ())) 16
        (Search.start 0x3A00 ⟨fun _ => 0xFF, []⟩ ()) = some (visited, r) ∧
      Found (fun delay => 262144 - 5 * delay) visited r ∧
      (0x3A00 + 6 * 17 < 2 ^ 32 → (∀ x, 0x3A00 ≤ x → (fun _ => 0xFF : ℕ → BitVec 8) x = 0xFF) →
        (flashRb r.flash r.address).toNat = r.delay) := by
  have hsome : (search (fun (_ : Unit) delay => some (262144 - 5 * delay, ())) 16
      (Search.start 0x3A00 ⟨fun _ => 0xFF, []⟩ ())).isSome :=
    isSome_search (fun _ _ => rfl) (open_start _ _ _)
      (show MAX_DELAY - MIN_DELAY - 2 < 2 ^ 16 by decide)
  obtain ⟨⟨visited, r⟩, hsearch⟩ := Option.isSome_iff_exists.mp hsome
  refine ⟨visited, r, hsearch, search_brackets_target ?_ ?_ 0x3A00 _ () hsearch⟩
  · intro a b hab
    show 262144 - 5 * b ≤ 262144 - 5 * a
    omega
  · intro _ delay n _ h
    exact (Prod.mk.inj (Option.some.inj h)).1.symm

/-! ## The end of the search -/

/-- A range that is narrower, and within that of the round. -/
def Search.Narrows (s : Search σ) (range : ℕ × ℕ) : Prop :=
  s.currentMinDelay ≤ range.1 ∧ range.1 < range.2 ∧ range.2 ≤ s.currentMaxDelay ∧
    range.2 - range.1 < s.currentMaxDelay - s.currentMinDelay

/-- **The arithmetic of a round is exact**, and whatever it measures, it narrows the range. -/
structure Search.Exact (s : Search σ) : Prop where
  between : s.currentMinDelay < s.delay ∧ s.delay < s.currentMaxDelay
  narrows : ∀ flipCounter, s.Narrows (s.narrowed flipCounter)
  sum : ∀ flipCounter, (s.narrowed flipCounter).1 + 3 < 2 ^ 16
  blocks : refreshDelayInBlocks s.delay =
    s.delay * TICKS_PER_SECOND / BLOCK_TIME_OFFSET + DRAM_NUM_COLS
  product : s.delay * TICKS_PER_SECOND < 2 ^ 32
  quotient : s.delay * TICKS_PER_SECOND / BLOCK_TIME_OFFSET + DRAM_NUM_COLS < 2 ^ 32

theorem Search.Open.exact (h : s.Open) : s.Exact := by
  have hmax := h.max
  obtain ⟨hlo, hhi⟩ := h.delay_between
  unfold MAX_DELAY at hmax
  have hproduct : s.delay * TICKS_PER_SECOND < 2 ^ 32 := by
    unfold TICKS_PER_SECOND
    omega
  have hquotient : s.delay * TICKS_PER_SECOND / BLOCK_TIME_OFFSET + DRAM_NUM_COLS < 2 ^ 32 := by
    unfold TICKS_PER_SECOND BLOCK_TIME_OFFSET DRAM_NUM_COLS
    omega
  refine ⟨⟨hlo, hhi⟩, fun flipCounter => ?_, h.sum_lt, ?_, hproduct, hquotient⟩
  · obtain ⟨-, hnarrowed⟩ | ⟨-, hnarrowed⟩ := s.narrowed_cases flipCounter
    · rw [hnarrowed]
      exact ⟨Nat.le_refl _, hlo, Nat.le_of_lt hhi, by omega⟩
    · rw [hnarrowed]
      exact ⟨Nat.le_of_lt hlo, hhi, Nat.le_refl _, by omega⟩
  · unfold refreshDelayInBlocks
    rw [u32_of_lt hproduct, u32_of_lt hquotient]

/-- The rounds of a search. -/
theorem exact_of_search (hs : s.Open) (hsearch : search measure fuel s = some (visited, r)) :
    (∀ v ∈ visited, v.Exact) ∧ visited.head? = some s ∧
      visited.IsChain fun s s' => s.Narrows (s'.currentMinDelay, s'.currentMaxDelay) := by
  refine search_rule (P := fun s visited _ => (∀ v ∈ visited, v.Exact) ∧ visited.head? = some s ∧
    visited.IsChain fun s s' => s.Narrows (s'.currentMinDelay, s'.currentMaxDelay)) ?_ ?_ hs hsearch
  · intro s _ _ hs _
    refine ⟨fun v hv => ?_, rfl, .singleton s⟩
    rw [List.mem_singleton.mp hv]
    exact hs.exact
  · rintro s s' flipCounter visited _ hs hgoes ⟨hexact, hhead, hchain⟩
    refine ⟨List.forall_mem_cons.mpr ⟨hs.exact, hexact⟩, rfl,
      List.isChain_cons.mpr ⟨fun v hv => ?_, hchain⟩⟩
    obtain rfl := Option.some.inj (hhead.symm.trans hv)
    rw [hgoes.range]
    exact hs.exact.narrows flipCounter

/-- **The search ends whatever is measured**, after sixteen rounds at most. In each of them the
    delay lies strictly inside the range, the range is narrowed, and no sum or product wraps. -/
theorem search_ends (hmeasure : ∀ bench delay, (measure bench delay).isSome) (address : ℕ)
    (flash : Flash) (bench : σ) :
    ∃ visited r, search measure 16 (Search.start address flash bench) = some (visited, r) ∧
      visited.length ≤ 16 ∧ (∀ s ∈ visited, s.Exact) ∧
      visited.IsChain fun s s' => s.Narrows (s'.currentMinDelay, s'.currentMaxDelay) := by
  have hopen := open_start address flash bench
  have hwidth : MAX_DELAY - MIN_DELAY - 2 < 2 ^ 16 := by decide
  obtain ⟨⟨visited, r⟩, hsearch⟩ := Option.isSome_iff_exists.mp (isSome_search hmeasure hopen hwidth)
  obtain ⟨hexact, -, hchain⟩ := exact_of_search hopen hsearch
  exact ⟨visited, r, hsearch, length_visited_le hopen hsearch hwidth, hexact, hchain⟩

/-- On counts that rise and fall. -/
theorem search_ends_alternating :
    ∃ visited r, search (fun round _ => some (if round % 2 = 0 then 0 else 262144, round + 1)) 16
        (Search.start 0x3A00 ⟨fun _ => 0xFF, []⟩ 0) = some (visited, r) ∧ visited.length ≤ 16 ∧
      (∀ s ∈ visited, s.Exact) ∧
      visited.IsChain fun s s' => s.Narrows (s'.currentMinDelay, s'.currentMaxDelay) :=
  search_ends (fun _ _ => rfl) 0x3A00 _ 0

end ProbableCause.Bst
