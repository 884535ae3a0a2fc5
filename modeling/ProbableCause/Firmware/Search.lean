import ProbableCause.Firmware.Exposure

/-!
# `Firmware.Search` — `dram_bst`: the search for the delay

The program runs the interleaved loop of `Firmware.Schedule` once for each delay it tries and halves
the range of delays by the number of bits that did not flip. Every delay it tries is appended to a
log in flash, a record of six bytes without a length or an end mark; the last one is appended twice.

`round` takes the loop as a parameter (`measure`): what it counts for a delay, and what it leaves
behind. `round_cases` is all that a round can do; `length_visited_le` bounds the number of rounds,
`delays_nodup` says that no delay is tried twice, and `log_search` is the content of flash at the
end.
-/

namespace ProbableCause.Bst

def BLOCK_TIME_OFFSET : ℕ := 700
def MIN_DELAY : ℕ := 0
def MAX_DELAY : ℕ := 60000
def TICKS_PER_SECOND : ℕ := 10000
def GOAL_ACCURACY : ℕ := 99
def MAX_ACCURACY : ℕ := 100
def MARGIN_OF_ERROR : ℕ := 26
def TARGET_ACCURACY : ℕ :=
  DRAM_NUM_COLS * DRAM_NUM_ROWS * DRAM_BITS_PER_WORD * GOAL_ACCURACY / MAX_ACCURACY

/-! ## One measurement -/

def refreshDelayInBlocks (delay : ℕ) : ℕ :=
  u32 (u32 (delay * TICKS_PER_SECOND) / BLOCK_TIME_OFFSET + DRAM_NUM_COLS)

/-- The rest of the state is `flipCounter`, the number of unflipped bits. -/
def body : Body ℕ where
  value writeRow _ _ := if writeRow % 2 = 1 then 0x0 else 0xF
  fetch _ _ flipCounter := flipCounter
  use readRow _ dataFromDRAM flipCounter :=
    (List.range DRAM_BITS_PER_WORD).foldl (fun flipCounter s =>
      u32 (flipCounter + ((BitVec.ofNat 8 readRow ^^^
        (dataFromDRAM >>> s)) &&& 0x1).toNat)) flipCounter

/-- What a measurement leaves to the next one: how many there have been, and the DRAM. -/
structure Bench where
  round : ℕ
  dram : Dram

/-- The timed loop of a round, with how the DRAM decays and what the timer says in each round: the
    number of unflipped bits, unless the timer stops before all of the DRAM is read. -/
def measureDram (decay : ℕ → Decay) (polls : ℕ → List Bool) (bench : Bench) (delay : ℕ) :
    Option (ℕ × Bench) :=
  let s := run body (decay bench.round) (refreshDelayInBlocks delay) (polls bench.round)
    (Loop.start bench.dram 0)
  if s.readRow < DRAM_NUM_ROWS then none else some (s.rest, ⟨bench.round + 1, s.dram⟩)

/-! ## The search -/

def writeDelayFlipsToFlash (f : Flash) (pAddress pDelay pFlips : ℕ) : Flash :=
  flashWb (flashWb (flashWb f pAddress (BitVec.ofNat 16 pDelay))
    (pAddress + 2) (BitVec.ofNat 16 (pFlips >>> 16))) (pAddress + 4) (BitVec.ofNat 16 pFlips)

/-- The state before a round. -/
structure Search (σ : Type) where
  address : ℕ
  currentMinDelay : ℕ
  currentMaxDelay : ℕ
  flash : Flash
  bench : σ

/-- The state when `main` returns. `address` is that of the last record. -/
structure Returned where
  code : ℕ
  delay : ℕ
  address : ℕ
  flash : Flash

inductive Outcome (σ : Type) where
  | next (s : Search σ)
  | done (r : Returned)

variable {σ : Type}

def Search.start (address : ℕ) (flash : Flash) (bench : σ) : Search σ where
  address := address
  currentMinDelay := MIN_DELAY
  currentMaxDelay := MAX_DELAY
  flash := flash
  bench := bench

/-- The delay a round tries. -/
def Search.delay (s : Search σ) : ℕ := s.currentMinDelay / 2 + s.currentMaxDelay / 2

/-- The number of bit flips is within range. -/
def withinMargin (flipCounter : ℕ) : Bool :=
  decide ((if flipCounter > TARGET_ACCURACY then flipCounter - TARGET_ACCURACY
    else TARGET_ACCURACY - flipCounter) < MARGIN_OF_ERROR)

/-- One round of `while(1)`; there is no outcome if the measurement does not end. -/
def round (measure : σ → ℕ → Option (ℕ × σ)) (s : Search σ) : Option (Outcome σ) :=
  match measure s.bench s.delay with
  | none => none
  | some (flipCounter, bench) =>
    let delay := s.delay
    let flash := writeDelayFlipsToFlash s.flash s.address delay flipCounter
    let address := u32 (s.address + 6)
    let flashEnd := writeDelayFlipsToFlash flash address delay flipCounter
    if withinMargin flipCounter then
      some (.done ⟨0, delay, address, flashEnd⟩)
    else
      let currentMaxDelay := if flipCounter < TARGET_ACCURACY then delay else s.currentMaxDelay
      let currentMinDelay := if flipCounter < TARGET_ACCURACY then s.currentMinDelay else delay
      -- the sum is an `unsigned int`
      if (currentMinDelay + 3) % 2 ^ 16 > currentMaxDelay then
        some (.done ⟨1, delay, address, flashEnd⟩)
      else some (.next ⟨address, currentMinDelay, currentMaxDelay, flash, bench⟩)

/-- At most `fuel` rounds: the states before each of them, and the state at the end. There is no
    result if the program is still running. -/
def search (measure : σ → ℕ → Option (ℕ × σ)) : ℕ → Search σ → Option (List (Search σ) × Returned)
  | 0, _ => none
  | fuel + 1, s =>
    match round measure s with
    | none => none
    | some (.done r) => some ([s], r)
    | some (.next s') => (search measure fuel s').map fun p => (s :: p.1, p.2)

/-- `main`, with the address of the log, which is `0x3A00` in the source. Sixteen rounds are enough.
-/
def main (address : ℕ) (decay : ℕ → Decay) (polls : ℕ → List Bool) (dram : Dram) (flash : Flash) :
    Option (List (Search Bench) × Returned) :=
  search (measureDram decay polls) 16 (Search.start address flash ⟨0, dram⟩)

/-! ## One round -/

variable {measure : σ → ℕ → Option (ℕ × σ)} {fuel k : ℕ} {s s' : Search σ} {r : Returned}
  {visited : List (Search σ)}

/-- The range of delays is worth another round. -/
structure Search.Open (s : Search σ) : Prop where
  width : s.currentMinDelay + 3 ≤ s.currentMaxDelay
  max : s.currentMaxDelay ≤ MAX_DELAY

theorem open_start (address : ℕ) (flash : Flash) (bench : σ) :
    (Search.start address flash bench).Open :=
  ⟨show MIN_DELAY + 3 ≤ MAX_DELAY by decide, Nat.le_refl _⟩

/-- The delay tried is inside the range. -/
theorem Search.Open.delay_between (h : s.Open) :
    s.currentMinDelay < s.delay ∧ s.delay < s.currentMaxDelay := by
  have hwidth := h.width
  unfold Search.delay
  constructor <;> omega

/-- The range of the next round: one of the halves. -/
def Search.Halved (s s' : Search σ) : Prop :=
  s'.currentMinDelay = s.currentMinDelay ∧ s'.currentMaxDelay = s.delay ∨
    s'.currentMinDelay = s.delay ∧ s'.currentMaxDelay = s.currentMaxDelay

/-- The new `currentMinDelay` and `currentMaxDelay`: too few unflipped bits make the delay the
    maximum, else it is the minimum. -/
def Search.narrowed (s : Search σ) (flipCounter : ℕ) : ℕ × ℕ :=
  if flipCounter < TARGET_ACCURACY then (s.currentMinDelay, s.delay) else (s.delay, s.currentMaxDelay)

/-- **A round that is followed by another one**, with what it measured. -/
structure Search.Goes (measure : σ → ℕ → Option (ℕ × σ)) (s s' : Search σ)
    (flipCounter : ℕ) : Prop where
  measured : measure s.bench s.delay = some (flipCounter, s'.bench)
  outside : withinMargin flipCounter = false
  range : (s'.currentMinDelay, s'.currentMaxDelay) = s.narrowed flipCounter
  isOpen : s'.Open
  address : s'.address = u32 (s.address + 6)
  flash : s'.flash = writeDelayFlipsToFlash s.flash s.address s.delay flipCounter

/-- **The last round**: the record is appended twice. -/
structure Search.Stops (measure : σ → ℕ → Option (ℕ × σ)) (s : Search σ) (r : Returned)
    (flipCounter : ℕ) : Prop where
  measured : ∃ bench, measure s.bench s.delay = some (flipCounter, bench)
  code : withinMargin flipCounter = true ∧ r.code = 0 ∨
    withinMargin flipCounter = false ∧
    (s.narrowed flipCounter).2 < (s.narrowed flipCounter).1 + 3 ∧ r.code = 1
  delay : r.delay = s.delay
  address : r.address = u32 (s.address + 6)
  flash : r.flash = writeDelayFlipsToFlash
    (writeDelayFlipsToFlash s.flash s.address s.delay flipCounter)
    (u32 (s.address + 6)) s.delay flipCounter

/-- The range of a round that has measured too few or too many unflipped bits. -/
theorem Search.narrowed_cases (s : Search σ) (flipCounter : ℕ) :
    flipCounter < TARGET_ACCURACY ∧ s.narrowed flipCounter = (s.currentMinDelay, s.delay) ∨
      TARGET_ACCURACY ≤ flipCounter ∧ s.narrowed flipCounter = (s.delay, s.currentMaxDelay) := by
  unfold Search.narrowed
  by_cases hlt : flipCounter < TARGET_ACCURACY
  · exact .inl ⟨hlt, if_pos hlt⟩
  · exact .inr ⟨Nat.le_of_not_lt hlt, if_neg hlt⟩

/-- A round, with the range it leaves. -/
theorem round_eq {flipCounter : ℕ} {bench : σ}
    (hmeasured : measure s.bench s.delay = some (flipCounter, bench)) :
    round measure s =
      let flash := writeDelayFlipsToFlash s.flash s.address s.delay flipCounter
      let address := u32 (s.address + 6)
      let flashEnd := writeDelayFlipsToFlash flash address s.delay flipCounter
      if withinMargin flipCounter then some (.done ⟨0, s.delay, address, flashEnd⟩)
      else if ((s.narrowed flipCounter).1 + 3) % 2 ^ 16 > (s.narrowed flipCounter).2 then
        some (.done ⟨1, s.delay, address, flashEnd⟩)
      else some (.next ⟨address, (s.narrowed flipCounter).1, (s.narrowed flipCounter).2,
          flash, bench⟩) := by
  unfold round
  rw [hmeasured]
  dsimp only
  obtain ⟨hlt, hnarrowed⟩ | ⟨hge, hnarrowed⟩ := s.narrowed_cases flipCounter
  · rw [hnarrowed, if_pos hlt, if_pos hlt]
  · rw [hnarrowed, if_neg (Nat.not_lt.mpr hge), if_neg (Nat.not_lt.mpr hge)]

/-- The range stays in bounds. -/
theorem Search.Open.narrowed_le (h : s.Open) (flipCounter : ℕ) :
    (s.narrowed flipCounter).1 < (s.narrowed flipCounter).2 ∧ (s.narrowed flipCounter).2 ≤ MAX_DELAY ∧
      (s.narrowed flipCounter).2 - (s.narrowed flipCounter).1 <
        s.currentMaxDelay - s.currentMinDelay := by
  have hmax := h.max
  obtain ⟨hlo, hhi⟩ := h.delay_between
  obtain ⟨-, hnarrowed⟩ | ⟨-, hnarrowed⟩ := s.narrowed_cases flipCounter <;> rw [hnarrowed] <;> omega

/-- The sum in the test that ends the search is below `2 ^ 16`. -/
theorem Search.Open.sum_lt (h : s.Open) (flipCounter : ℕ) :
    (s.narrowed flipCounter).1 + 3 < 2 ^ 16 := by
  obtain ⟨hlt, hle, -⟩ := h.narrowed_le flipCounter
  unfold MAX_DELAY at hle
  omega

/-- **What a round can do**: go on with one of the halves, or return. -/
theorem round_cases {o : Outcome σ} (hround : round measure s = some o) (hs : s.Open) :
    ∃ flipCounter, (∃ s', o = .next s' ∧ s.Goes measure s' flipCounter) ∨
      ∃ r, o = .done r ∧ s.Stops measure r flipCounter := by
  cases hm : measure s.bench s.delay with
  | none =>
    unfold round at hround
    rw [hm] at hround
    contradiction
  | some p =>
    obtain ⟨flipCounter, bench⟩ := p
    refine ⟨flipCounter, ?_⟩
    rw [round_eq hm, Nat.mod_eq_of_lt (hs.sum_lt flipCounter)] at hround
    dsimp only at hround
    cases hmargin : withinMargin flipCounter with
    | true =>
      rw [if_pos hmargin] at hround
      exact .inr ⟨_, (Option.some.inj hround).symm, ⟨bench, hm⟩, .inl ⟨hmargin, rfl⟩, rfl, rfl, rfl⟩
    | false =>
      rw [if_neg (Bool.not_eq_true _ ▸ hmargin)] at hround
      by_cases hstop : (s.narrowed flipCounter).1 + 3 > (s.narrowed flipCounter).2
      · rw [if_pos hstop] at hround
        exact .inr ⟨_, (Option.some.inj hround).symm, ⟨bench, hm⟩,
          .inr ⟨hmargin, hstop, rfl⟩, rfl, rfl, rfl⟩
      · rw [if_neg hstop] at hround
        exact .inl ⟨_, (Option.some.inj hround).symm, hm, hmargin, rfl,
          ⟨Nat.le_of_not_lt hstop, (hs.narrowed_le flipCounter).2.1⟩, rfl, rfl⟩

theorem Search.Goes.halved {flipCounter : ℕ} (h : s.Goes measure s' flipCounter) : s.Halved s' := by
  have hrange := h.range
  obtain ⟨-, hnarrowed⟩ | ⟨-, hnarrowed⟩ := s.narrowed_cases flipCounter
  · rw [hnarrowed] at hrange
    exact .inl (Prod.mk.inj hrange)
  · rw [hnarrowed] at hrange
    exact .inr (Prod.mk.inj hrange)

/-- A measurement that ends gives an outcome. -/
theorem isSome_round (hmeasure : ∀ bench delay, (measure bench delay).isSome) (s : Search σ) :
    (round measure s).isSome := by
  obtain ⟨p, hp⟩ := Option.isSome_iff_exists.mp (hmeasure s.bench s.delay)
  unfold round
  rw [hp]
  dsimp only
  by_cases hmargin : withinMargin p.1
  · rw [if_pos hmargin]
    rfl
  · rw [if_neg hmargin, apply_ite Option.isSome]
    exact ite_self _

/-! ## The whole search -/

/-- **The rule for a search that ends**: what holds of the last round and is carried back over the
others. -/
theorem search_rule {P : Search σ → List (Search σ) → Returned → Prop}
    (last : ∀ s r flipCounter, s.Open → s.Stops measure r flipCounter → P s [s] r)
    (step : ∀ s s' flipCounter visited r, s.Open → s.Goes measure s' flipCounter → P s' visited r →
      P s (s :: visited) r)
    (hs : s.Open) (hsearch : search measure fuel s = some (visited, r)) : P s visited r := by
  induction fuel generalizing s visited with
  | zero => contradiction
  | succ fuel ih =>
    rw [search] at hsearch
    cases hround : round measure s with
    | none => rw [hround] at hsearch; contradiction
    | some o =>
      rw [hround] at hsearch
      obtain ⟨flipCounter, ⟨s', rfl, hgoes⟩ | ⟨r', rfl, hstops⟩⟩ := round_cases hround hs
      · obtain ⟨⟨visited', r'⟩, hrest, heq⟩ := Option.map_eq_some_iff.mp hsearch
        obtain ⟨rfl, rfl⟩ := Prod.mk.inj heq
        exact step s s' flipCounter visited' r' hs hgoes (ih hgoes.isOpen hrest)
      · obtain ⟨rfl, rfl⟩ := Prod.mk.inj (Option.some.inj hsearch)
        exact last s r' flipCounter hs hstops

/-- A round halves the range, up to two. -/
theorem Search.Halved.width (hs : s.Open) (h : s.Halved s')
    (hwidth : s.currentMaxDelay - s.currentMinDelay - 2 < 2 ^ (k + 1)) :
    s'.currentMaxDelay - s'.currentMinDelay - 2 < 2 ^ k := by
  have hmin := hs.width
  rw [Nat.pow_succ] at hwidth
  unfold Search.Halved Search.delay at h
  obtain ⟨hlo, hhi⟩ | ⟨hlo, hhi⟩ := h
  · rw [hlo, hhi]
    omega
  · rw [hlo, hhi]
    omega

/-- **The number of rounds** is bounded by the width of the range. -/
theorem length_visited_le (hs : s.Open) (hsearch : search measure fuel s = some (visited, r))
    (hwidth : s.currentMaxDelay - s.currentMinDelay - 2 < 2 ^ k) : visited.length ≤ k := by
  refine search_rule (P := fun s visited _ => ∀ k, s.currentMaxDelay - s.currentMinDelay - 2 < 2 ^ k →
    visited.length ≤ k) ?_ ?_ hs hsearch k hwidth
  · intro s _ _ hs _ k hwidth
    cases k with
    | zero =>
      have hmin := hs.width
      omega
    | succ k => exact Nat.succ_le_succ (Nat.zero_le k)
  · intro s s' _ visited r hs hgoes ih k hwidth
    cases k with
    | zero =>
      have hmin := hs.width
      omega
    | succ k => exact Nat.succ_le_succ (ih k (hgoes.halved.width hs hwidth))

/-- **The program returns**: when all measurements end, as many rounds are enough. -/
theorem isSome_search (hmeasure : ∀ bench delay, (measure bench delay).isSome) (hs : s.Open)
    (hwidth : s.currentMaxDelay - s.currentMinDelay - 2 < 2 ^ k) : (search measure k s).isSome := by
  induction k generalizing s with
  | zero =>
    have hmin := hs.width
    omega
  | succ k ih =>
    obtain ⟨o, hround⟩ := Option.isSome_iff_exists.mp (isSome_round hmeasure s)
    rw [search, hround]
    obtain ⟨_, ⟨s', rfl, hgoes⟩ | ⟨r, rfl, -⟩⟩ := round_cases hround hs
    · exact Option.isSome_map.trans (ih hgoes.isOpen (hgoes.halved.width hs hwidth))
    · rfl

/-- A measurement ends if the timer goes on. -/
theorem isSome_measureDram {decay : ℕ → Decay} {polls : ℕ → List Bool}
    (hpolls : ∀ n delay, blockTotal (refreshDelayInBlocks delay) ≤ (polls n).count true)
    (bench : Bench) (delay : ℕ) : (measureDram decay polls bench delay).isSome := by
  have hproduct : u32 (delay * TICKS_PER_SECOND) < 2 ^ 32 := Nat.mod_lt _ (by decide)
  have hstart : refreshDelayInBlocks delay = u32 (delay * TICKS_PER_SECOND) / 700 +
      DRAM_NUM_COLS := by
    unfold refreshDelayInBlocks BLOCK_TIME_OFFSET DRAM_NUM_COLS
    exact u32_of_lt (by omega)
  have hend := hpolls bench.round delay
  unfold measureDram
  rw [hstart] at hend ⊢
  have hsched : Scheduled (u32 (delay * TICKS_PER_SECOND) / 700)
      (run body (decay bench.round) (u32 (delay * TICKS_PER_SECOND) / 700 + DRAM_NUM_COLS)
        (polls bench.round) (Loop.start bench.dram 0)) :=
    run_scheduled (by omega) hend bench.dram 0
  dsimp only
  rw [hsched.ended, if_neg (Nat.lt_irrefl _)]
  rfl

/-- **No delay is tried twice**: each one is a bound of the range of all later ones. -/
theorem delays_nodup (hs : s.Open) (hsearch : search measure fuel s = some (visited, r)) :
    (∀ s' ∈ visited, s.currentMinDelay < s'.delay ∧ s'.delay < s.currentMaxDelay) ∧
      (visited.map Search.delay).Nodup := by
  refine search_rule (P := fun s visited _ => (∀ s' ∈ visited, s.currentMinDelay < s'.delay ∧
    s'.delay < s.currentMaxDelay) ∧ (visited.map Search.delay).Nodup) ?_ ?_ hs hsearch
  · intro s _ _ hs _
    refine ⟨fun s' hs' => ?_, List.nodup_singleton _⟩
    rw [List.mem_singleton.mp hs']
    exact hs.delay_between
  · intro s s' _ visited r hs hgoes ⟨hbetween, hnodup⟩
    have hdelay := hs.delay_between
    have hhalved := hgoes.halved
    -- `s.delay` is a bound of the range of the later rounds
    have hlater : ∀ x ∈ visited, s.currentMinDelay < x.delay ∧ x.delay < s.currentMaxDelay ∧
        x.delay ≠ s.delay := by
      intro x hx
      have hx' := hbetween x hx
      unfold Search.Halved at hhalved
      omega
    constructor
    · intro x hx
      obtain rfl | hx := List.mem_cons.mp hx
      · exact hdelay
      · exact ⟨(hlater x hx).1, (hlater x hx).2.1⟩
    · refine List.nodup_cons.mpr ⟨fun hmem => ?_, hnodup⟩
      obtain ⟨x, hx, heq⟩ := List.mem_map.mp hmem
      exact (hlater x hx).2.2 heq

/-- **`main` returns** if the timer goes on, after sixteen rounds at most, and it tries no delay
twice. -/
theorem main_returns (address : ℕ) {decay : ℕ → Decay} {polls : ℕ → List Bool}
    (hpolls : ∀ n delay, blockTotal (refreshDelayInBlocks delay) ≤ (polls n).count true) (dram : Dram)
    (flash : Flash) :
    ∃ visited r, main address decay polls dram flash = some (visited, r) ∧ visited.length ≤ 16 ∧
      (visited.map Search.delay).Nodup := by
  have hopen := open_start address flash (⟨0, dram⟩ : Bench)
  have hwidth : MAX_DELAY - MIN_DELAY - 2 < 2 ^ 16 := by decide
  obtain ⟨⟨visited, r⟩, hsearch⟩ :=
    Option.isSome_iff_exists.mp (isSome_search (isSome_measureDram hpolls) hopen hwidth)
  exact ⟨visited, r, hsearch, length_visited_le hopen hsearch hwidth, (delays_nodup hopen hsearch).2⟩

/-- The search stops at the last delay tried. -/
theorem getLast_delays (hs : s.Open) (hsearch : search measure fuel s = some (visited, r)) :
    (visited.map Search.delay).getLast? = some r.delay := by
  refine search_rule (P := fun _ visited r => (visited.map Search.delay).getLast? = some r.delay)
    ?_ ?_ hs hsearch
  · intro s r _ _ hstops
    rw [hstops.delay]
    rfl
  · intro s _ _ visited r _ _ ih
    rw [List.map_cons, List.getLast?_cons, ih]
    rfl

/-! ## The log -/

def lowByte (delay : ℕ) : BitVec 8 := BitVec.ofNat 8 delay
def highByte (delay : ℕ) : BitVec 8 := BitVec.ofNat 8 (delay / 256)

/-- Two delays with the same bytes are the same. -/
theorem eq_of_bytes {d d' : ℕ} (hd : d < 2 ^ 16) (hd' : d' < 2 ^ 16) (hlow : lowByte d = lowByte d')
    (hhigh : highByte d = highByte d') : d = d' := by
  have hlow' := congrArg BitVec.toNat hlow
  have hhigh' := congrArg BitVec.toNat hhigh
  unfold lowByte at hlow'
  unfold highByte at hhigh'
  rw [BitVec.toNat_ofNat, BitVec.toNat_ofNat] at hlow' hhigh'
  omega

theorem wordByte_zero (delay : ℕ) : wordByte (BitVec.ofNat 16 delay) 0 = lowByte delay := by
  refine BitVec.eq_of_toNat_eq ?_
  unfold wordByte lowByte
  rw [BitVec.toNat_setWidth, BitVec.toNat_ushiftRight, BitVec.toNat_ofNat, BitVec.toNat_ofNat,
    Nat.shiftRight_eq_div_pow]
  omega

theorem wordByte_one (delay : ℕ) : wordByte (BitVec.ofNat 16 delay) 1 = highByte delay := by
  refine BitVec.eq_of_toNat_eq ?_
  unfold wordByte highByte
  rw [BitVec.toNat_setWidth, BitVec.toNat_ushiftRight, BitVec.toNat_ofNat, BitVec.toNat_ofNat,
    Nat.shiftRight_eq_div_pow]
  omega

/-- **The log in flash**: the bytes of the delay at the start of each record, and erased flash
behind. -/
def HoldsLog (mem : ℕ → BitVec 8) : ℕ → List ℕ → Prop
  | address, [] => ∀ x, address ≤ x → mem x = 0xFF
  | address, delay :: delays =>
    mem address = lowByte delay ∧ mem (address + 1) = highByte delay ∧
      HoldsLog mem (address + 6) delays

/-- The last record of a log. -/
theorem HoldsLog.last {mem : ℕ → BitVec 8} {address d : ℕ} {ds : List ℕ}
    (h : HoldsLog mem address (ds ++ [d])) :
    mem (address + 6 * ds.length) = lowByte d ∧ mem (address + 6 * ds.length + 1) = highByte d := by
  induction ds generalizing address with
  | nil => exact ⟨h.1, h.2.1⟩
  | cons e es ih =>
    have hnext : address + 6 * (e :: es).length = address + 6 + 6 * es.length := by
      rw [List.length_cons]
      omega
    rw [hnext]
    exact ih h.2.2

theorem mem_flashWb (f : Flash) (address : ℕ) (value : BitVec 16) (x : ℕ) :
    (flashWb f address value).mem x =
      if x = address + 1 then f.mem x &&& wordByte value 1
      else if x = address then f.mem x &&& wordByte value 0 else f.mem x := by
  unfold flashWb
  by_cases hhigh : x = address + 1
  · rw [if_pos hhigh, hhigh, mem_flashWriteByte_self, mem_flashWriteByte_of_ne (by omega)]
  · rw [if_neg hhigh, mem_flashWriteByte_of_ne hhigh]
    by_cases hlow : x = address
    · rw [if_pos hlow, hlow, mem_flashWriteByte_self]
    · rw [if_neg hlow, mem_flashWriteByte_of_ne hlow]

/-- **Appending a record** to erased flash: it holds the delay, the flash behind it is still erased,
    and what is below it stays as it was. -/
theorem mem_writeDelayFlipsToFlash {f : Flash} {address : ℕ}
    (herased : ∀ x, address ≤ x → f.mem x = 0xFF) (delay flips : ℕ) :
    (writeDelayFlipsToFlash f address delay flips).mem address = lowByte delay ∧
      (writeDelayFlipsToFlash f address delay flips).mem (address + 1) = highByte delay ∧
      (∀ x, address + 6 ≤ x → (writeDelayFlipsToFlash f address delay flips).mem x = 0xFF) ∧
      ∀ x < address, (writeDelayFlipsToFlash f address delay flips).mem x = f.mem x := by
  have hframe : ∀ x, x < address ∨ address + 6 ≤ x →
      (writeDelayFlipsToFlash f address delay flips).mem x = f.mem x := by
    intro x hx
    unfold writeDelayFlipsToFlash
    rw [mem_flashWb, if_neg (by omega), if_neg (by omega), mem_flashWb, if_neg (by omega),
      if_neg (by omega), mem_flashWb, if_neg (by omega), if_neg (by omega)]
  refine ⟨?_, ?_, ?_, ?_⟩
  · unfold writeDelayFlipsToFlash
    rw [mem_flashWb, if_neg (by omega), if_neg (by omega), mem_flashWb, if_neg (by omega),
      if_neg (by omega), mem_flashWb, if_neg (by omega), if_pos rfl, herased _ (Nat.le_refl _),
      wordByte_zero]
    exact BitVec.allOnes_and
  · unfold writeDelayFlipsToFlash
    rw [mem_flashWb, if_neg (by omega), if_neg (by omega), mem_flashWb, if_neg (by omega),
      if_neg (by omega), mem_flashWb, if_pos rfl, herased _ (Nat.le_succ _), wordByte_one]
    exact BitVec.allOnes_and
  · intro x hx
    rw [hframe x (.inr hx)]
    apply herased
    omega
  · intro x hx
    exact hframe x (.inl hx)

/-- **The log at the end**: a record for every delay tried and the last one again; nothing below it
changes. -/
theorem log_search (hs : s.Open) (hsearch : search measure fuel s = some (visited, r))
    (haddress : s.address + 6 * (visited.length + 1) < 2 ^ 32)
    (herased : ∀ x, s.address ≤ x → s.flash.mem x = 0xFF) :
    HoldsLog r.flash.mem s.address (visited.map Search.delay ++ [r.delay]) ∧
      (∀ x < s.address, r.flash.mem x = s.flash.mem x) ∧
      r.address = s.address + 6 * visited.length := by
  refine search_rule (P := fun s visited r => s.address + 6 * (visited.length + 1) < 2 ^ 32 →
    (∀ x, s.address ≤ x → s.flash.mem x = 0xFF) →
      HoldsLog r.flash.mem s.address (visited.map Search.delay ++ [r.delay]) ∧
        (∀ x < s.address, r.flash.mem x = s.flash.mem x) ∧
        r.address = s.address + 6 * visited.length) ?_ ?_ hs hsearch haddress herased
  · -- the last round appends its record twice
    intro s r flipCounter _ hstops haddress herased
    rw [List.length_singleton] at haddress
    have hnext : u32 (s.address + 6) = s.address + 6 := u32_of_lt (by omega)
    obtain ⟨hlow, hhigh, herased', hbelow⟩ := mem_writeDelayFlipsToFlash herased s.delay flipCounter
    obtain ⟨hlow', hhigh', herased'', hbelow'⟩ :=
      mem_writeDelayFlipsToFlash herased' s.delay flipCounter
    rw [hstops.flash, hstops.delay, hstops.address, hnext]
    refine ⟨⟨?_, ?_, hlow', hhigh', herased''⟩, ?_, rfl⟩
    · exact (hbelow' _ (by omega)).trans hlow
    · exact (hbelow' _ (by omega)).trans hhigh
    · intro x hx
      exact (hbelow' x (by omega)).trans (hbelow x hx)
  · -- the later rounds append behind the record of this one
    intro s s' flipCounter visited r _ hgoes ih haddress herased
    have hnext := hgoes.address
    have hflash := hgoes.flash
    rw [List.length_cons] at haddress
    rw [u32_of_lt (by omega)] at hnext
    obtain ⟨hlow, hhigh, herased', hbelow⟩ := mem_writeDelayFlipsToFlash herased s.delay flipCounter
    rw [← hflash] at hlow hhigh herased' hbelow
    rw [hnext] at ih
    obtain ⟨hlog, hbelow', hlast⟩ := ih (by omega) herased'
    refine ⟨⟨?_, ?_, hlog⟩, ?_, ?_⟩
    · exact (hbelow' _ (by omega)).trans hlow
    · exact (hbelow' _ (by omega)).trans hhigh
    · intro x hx
      exact (hbelow' x (by omega)).trans (hbelow x hx)
    · rw [hlast, List.length_cons]
      omega

end ProbableCause.Bst
