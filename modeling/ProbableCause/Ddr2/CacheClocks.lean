import ProbableCause.Ddr2.CacheSystem

/-!
# `Ddr2.CacheClocks` — the two clocks, and a run of the board

The other domain takes over `wb_clk_r`, which changes at each edge of the bus clock, in two
registers one after the other. When it rises, `ddr2_clk_phase` becomes `0`, and in the cycle after
that the other domain looks at the bus domain. With three edges of its clock for each edge of the
bus clock (150 MHz and 50 MHz in `clkgen`) this happens once in two cycles of the bus
(`Run.Clocked.late_le_two`), which is often enough for a proper run (`Run.Clocked.proper`).

One such run is followed to its end (`Run.board`). A master on the bus writes four words in a burst,
then reads a word in each of five lines in turn. The cache has four lines: the fifth line takes the
place of the first one, which is written back for that, and when the master comes back to the first
line it is read from the memory again. What the master does depends on the acknowledgements that it
sees, so that it keeps the rules of the bus whatever the cache does (`Sys.busRule_drive`).
-/

namespace ProbableCause.Ddr2.Cache

variable {σ : Sys} {d late n : ℕ}

/-- What the other domain has seen of `wb_clk_r`, `d` edges of its clock after that has changed. -/
structure Sys.Seen (d late : ℕ) (σ : Sys) : Prop where
  first : σ.ddr2.wbClkInDdr2Clk = if d = 0 then !σ.wbClkR else σ.wbClkR
  second : σ.ddr2.wbClkInDdr2ClkR = if d ≤ 1 then !σ.wbClkR else σ.wbClkR
  phase : d = 2 → σ.wbClkR = true → σ.ddr2.ddr2ClkPhase = 0
  late : late ≤ if σ.wbClkR then if 3 ≤ d then 0 else 2 else 1

theorem Sys.Seen.ddr2Edge (h : σ.Seen d late) (e : Ddr2Edge) :
    (σ.ddr2Edge e).Seen (d + 1) (if σ.ddr2.sample then 0 else late) := by
  obtain ⟨hfirst, hsecond, hphase, hlate⟩ := h
  refine ⟨?_, ?_, fun hd hclk => ?_, ?_⟩
  · exact (if_neg (Nat.succ_ne_zero d)).symm
  · show σ.ddr2.wbClkInDdr2Clk = if d + 1 ≤ 1 then !σ.wbClkR else σ.wbClkR
    rw [hfirst]
    exact if_congr (by omega) rfl rfl
  · -- the two registers differ, so the phase begins
    obtain rfl : d = 1 := Nat.succ.inj hd
    have hclk' : σ.wbClkR = true := hclk
    rw [hclk'] at hfirst hsecond
    have hedge : σ.ddr2.wbClkEdge = true := by
      rw [Ddr2Regs.wbClkEdge, hfirst, hsecond]
      rfl
    simp [Sys.ddr2Edge, Ddr2Regs.step, hedge]
  · show (if σ.ddr2.sample then 0 else late) ≤ if σ.wbClkR then if 3 ≤ d + 1 then 0 else 2 else 1
    cases hclk : σ.wbClkR with
    | false =>
      rw [hclk] at hlate
      split
      · exact Nat.zero_le _
      · exact hlate
    | true =>
      rw [hclk] at hlate
      by_cases hd : d = 2
      · have hsample : σ.ddr2.sample = true := beq_of_eq (hphase hd hclk)
        rw [if_pos hsample]
        exact Nat.zero_le _
      · simp only [if_true] at hlate ⊢
        split
        · exact Nat.zero_le _
        · refine hlate.trans (Nat.le_of_eq (if_congr ?_ rfl rfl))
          omega

theorem Sys.Seen.wbEdge (h : σ.Seen d late) (hd : 3 ≤ d) (i : Inputs) (e : WbEdge) :
    (σ.wbEdge i e).Seen 0 (late + 1) := by
  obtain ⟨hfirst, hsecond, -, hlate⟩ := h
  rw [if_neg (by omega)] at hfirst hsecond
  refine ⟨?_, ?_, fun h => absurd h (by decide), ?_⟩
  · show σ.ddr2.wbClkInDdr2Clk = !!σ.wbClkR
    rw [hfirst, Bool.not_not]
  · show σ.ddr2.wbClkInDdr2ClkR = !!σ.wbClkR
    rw [hsecond, Bool.not_not]
  · show late + 1 ≤ if !σ.wbClkR then if 3 ≤ 0 then 0 else 2 else 1
    cases hclk : σ.wbClkR with
    | false =>
      rw [hclk] at hlate
      exact Nat.succ_le_succ hlate
    | true =>
      rw [hclk, if_pos rfl, if_pos hd] at hlate
      exact Nat.succ_le_succ hlate

theorem Sys.Seen.late_le (h : σ.Seen d late) : late ≤ 2 := by
  refine h.late.trans ?_
  split
  · split
    · exact Nat.zero_le 2
    · exact Nat.le_refl 2
  · exact Nat.le_succ 1

theorem Sys.Seen.wbClkEdge_iff (h : σ.Seen d late) :
    σ.ddr2.wbClkEdge = true ↔ d = 1 ∧ σ.wbClkR = true := by
  rw [Ddr2Regs.wbClkEdge, h.first, h.second]
  rcases Nat.lt_trichotomy d 1 with hd | rfl | hd
  · obtain rfl : d = 0 := Nat.lt_one_iff.mp hd
    cases σ.wbClkR <;> decide
  · cases σ.wbClkR <;> decide
  · rw [if_neg (by omega), if_neg (by omega), Bool.and_not_self]
    exact ⟨fun h => absurd h Bool.false_ne_true, fun h => absurd h.1 hd.ne'⟩

namespace Run

variable (R : Run)

/-- The edges of the other clock since the last edge of the bus clock. -/
def since : ℕ → ℕ
  | 0 => 3
  | n + 1 => if (R.events n).isWb then 0 else since n + (R.events n).isDdr2.toNat

/-- After the reset of `wb_clk_r`, with at least three edges of the other clock for each edge of the
bus clock. -/
structure Clocked : Prop where
  wbClkR : R.start.wbClkR = false
  wbClkInDdr2Clk : R.start.ddr2.wbClkInDdr2Clk = false
  wbClkInDdr2ClkR : R.start.ddr2.wbClkInDdr2ClkR = false
  ratio : ∀ n, (R.events n).isWb = true → 3 ≤ R.since n + (R.events n).isDdr2.toNat

variable {R}

theorem Clocked.seen (h : R.Clocked) (n : ℕ) : (R.sys n).Seen (R.since n) (R.late n) := by
  induction n with
  | zero =>
    refine ⟨?_, ?_, fun hd => absurd (show 3 = 2 from hd) (by decide), Nat.zero_le _⟩
    · exact h.wbClkInDdr2Clk.trans h.wbClkR.symm
    · exact h.wbClkInDdr2ClkR.trans h.wbClkR.symm
  | succ n ih =>
    have hratio := h.ratio n
    rw [sys, since, late, lateNext]
    generalize R.events n = event at hratio
    cases event with
    | exec => exact ⟨ih.first, ih.second, ih.phase, ih.late⟩
    | edge wb ddr2 =>
      cases ddr2 with
      | none =>
        cases wb with
        | none => exact ih
        | some e => exact ih.wbEdge (hratio rfl) _ e
      | some e' =>
        cases wb with
        | none => exact ih.ddr2Edge e'
        | some e => exact (ih.ddr2Edge e').wbEdge (hratio rfl) _ e

/-- **At most two edges of the bus clock** go unnoticed, and `wb_clk_edge` is high after the first
edge of the other clock that follows a rise of `wb_clk_r`, and at no other time. -/
theorem Clocked.late_le_two (h : R.Clocked) (n : ℕ) :
    R.late n ≤ 2 ∧ ((R.sys n).ddr2.wbClkEdge = true ↔ R.since n = 1 ∧ (R.sys n).wbClkR = true) :=
  ⟨(h.seen n).late_le, (h.seen n).wbClkEdge_iff⟩

/-- **Such a run is proper** if the bus and the FIFOs keep their rules. -/
theorem Clocked.proper (h : R.Clocked) (hrule : ∀ n, (R.events n).Rule (R.sys n)) : R.Proper :=
  ⟨hrule, fun n => (h.seen n).late_le.trans (Nat.le_succ 2)⟩

end Run

/-! ## A master on the bus -/

namespace Bus

variable (b : Bus)

/-- Writes the first of four words. -/
def writing : Bus := ⟨0x10, true, true, 0b010, 1, true, 0xf, 0x1000, true⟩

/-- The burst goes on with the next word; the fourth one ends it. -/
def nextWord : Bus :=
  { b with
    wbAdrI := b.wbAdrI.extractLsb' 6 26 ++ burstNext b.wbBteI b.lower ++ b.wbAdrI.extractLsb' 0 2
    wbDatI := b.wbDatI + 1
    wbCtiI := if b.lower &&& 3 = 2 then 0b111 else 0b010 }

/-- The next request reads a word in the next of the five lines. -/
def nextLine : Bus :=
  { b with
    wbAdrI := (if b.tag = 4 then 0#22 else b.tag + 1) ++ 0x14#10
    wbStbI := true
    wbCtiI := 0
    wbWeI := false }

theorem goesOn_nextWord : b.GoesOn (burstNext b.wbBteI b.lower) b.nextWord where
  upper := by
    refine BitVec.eq_of_getLsbD_eq fun j hj => ?_
    simp only [upper, nextWord, BitVec.getLsbD_extractLsb', BitVec.getLsbD_append]
    grind
  lower := by
    refine BitVec.eq_of_getLsbD_eq fun j hj => ?_
    simp only [lower, nextWord, BitVec.getLsbD_extractLsb', BitVec.getLsbD_append]
    grind
  bte := rfl
  we := rfl

theorem tag_nextWord : b.nextWord.tag = b.tag := by
  refine BitVec.eq_of_getLsbD_eq fun j hj => ?_
  simp only [tag, nextWord, BitVec.getLsbD_extractLsb', BitVec.getLsbD_append]
  grind

end Bus

/-- What the master shows next: it goes on with a burst that has been acknowledged, drops another
request that has been, and asks for the next line as soon as the last request is not a new one any
more. -/
def Sys.drive (σ : Sys) : Bus :=
  if σ.regs.wbAckO && σ.regs.wbBursting && σ.bus.wbCtiI != 0b111 then σ.bus.nextWord
  else if σ.bus.wbReq then if σ.regs.wbAckO then { σ.bus with wbStbI := false } else σ.bus
  else if σ.regs.wbReqNewR then σ.bus else σ.bus.nextLine

/-- **The master keeps the rules** of the bus. -/
theorem Sys.busRule_drive (σ : Sys) : BusRule σ.bus σ.regs σ.drive := by
  rw [Sys.drive]
  split
  · next hburst =>
    simp only [Bool.and_eq_true, bne_iff_ne] at hburst
    obtain ⟨⟨hack, -⟩, -⟩ := hburst
    exact ⟨fun hreq _ => hreq, fun _ _ => σ.bus.tag_nextWord, fun _ => σ.bus.tag_nextWord,
      fun _ hno => absurd (hack.symm.trans hno) Bool.noConfusion, fun _ _ _ => σ.bus.goesOn_nextWord⟩
  · next hburst =>
    have hno : σ.regs.wbAckO = true → σ.regs.wbBursting = true → ¬ σ.bus.wbCtiI ≠ 0b111 := by
      intro hack hbursting hcti
      exact hburst (by simpa [hack, hbursting] using hcti)
    split
    · next hreq =>
      split
      · next hack =>
        exact ⟨fun _ h => absurd (h hack).2 (hno hack (h hack).1),
          fun _ hreq' => absurd hreq' Bool.false_ne_true, fun _ => rfl, fun _ hnone =>
          absurd (hack.symm.trans hnone) Bool.noConfusion, fun _ hbursting hcti =>
            absurd hcti (hno hack hbursting)⟩
      · next hack =>
        exact ⟨fun _ _ => hreq, fun _ _ => rfl, fun _ => rfl, fun _ _ => ⟨⟨rfl, rfl, rfl, rfl⟩, rfl⟩,
          fun h => absurd h hack⟩
    · next hreq =>
      have hnew : σ.regs.wbReqNew σ.bus = false := by simp [Regs.wbReqNew, hreq]
      split
      · exact ⟨fun h => absurd h hreq, fun h => absurd h hreq, fun _ => rfl, fun h => absurd h hreq,
          fun hack hbursting hcti => absurd hcti (hno hack hbursting)⟩
      · next hnewR =>
        refine ⟨fun h => absurd h hreq, fun h => absurd h hreq, fun h => ?_, fun h => absurd h hreq,
          fun hack hbursting hcti => absurd hcti (hno hack hbursting)⟩
        rcases h with h | h
        · exact absurd (hnew.symm.trans h) Bool.noConfusion
        · exact absurd h hnewR

/-! ## The board -/

/-- After the reset, with the words of the memory counted through. -/
def Sys.board : Sys where
  bus := .writing
  regs :=
    { cachedAdr := fun _ => 0
      adrValid := .none
      linesDirty := .none
      cacheLineValidate := .none
      cacheLineInvalidate := .none
      selectedCacheLineFromMiss := .only ⟨0, Nat.succ_pos 3⟩
      selectedCacheLineR := .none
      selectedCacheLineR2 := .none
      selectedCacheLineEnc := ⟨0, Nat.succ_pos 3⟩
      toSequencer := .quiet
      wbReqR := false
      wbAckO := false
      wbAckOR := false
      wbBursting := false
      wbBurstAddr := 0 }
  wbClkR := false
  wbDatO := 0
  ram := fun _ _ => 0
  ddr2 := ⟨false, false, 1, false, false, false, 0, false, false, ⟨0, Nat.succ_pos 3⟩, fun _ => 0⟩
  mig := ⟨fun t w => t.setWidth 32 + w.setWidth 32, [], [], [], 0⟩

theorem Sys.start_board : Sys.board.Start := by
  refine ⟨⟨rfl, rfl, rfl, rfl, ⟨_, rfl⟩, rfl, rfl, rfl, rfl, rfl, rfl, rfl⟩, ?_, rfl, rfl, rfl, rfl,
    rfl, rfl, rfl, rfl, rfl, rfl⟩
  decide

/-- Two edges of the other clock, an edge of both clocks and a command in turn. -/
def Sys.turn (σ : Sys) (n : ℕ) : Event :=
  if n % 4 = 3 then .exec else .edge (if n % 4 = 2 then some ⟨σ.drive, false⟩ else none)
    (some ⟨false, true⟩)

/-- The board, with the master on its bus. -/
def Sys.driven : ℕ → Sys
  | 0 => Sys.board
  | n + 1 => (driven n).next ((driven n).turn n)

namespace Run

def board : Run where
  start := Sys.board
  events n := (Sys.driven n).turn n
  reset := Sys.start_board

theorem sys_board (n : ℕ) : board.sys n = Sys.driven n := by
  induction n with
  | zero => rfl
  | succ n ih =>
    rw [sys, ih]
    rfl

theorem events_exec (hn : n % 4 = 3) : board.events n = .exec := if_pos hn

theorem events_edge (hn : n % 4 ≠ 3) :
    board.events n =
      .edge (if n % 4 = 2 then some ⟨(Sys.driven n).drive, false⟩ else none) (some ⟨false, true⟩) :=
        if_neg hn

theorem isWb_board (n : ℕ) : (board.events n).isWb = decide (n % 4 = 2) := by
  by_cases hexec : n % 4 = 3
  · rw [events_exec hexec, hexec]
    rfl
  · rw [events_edge hexec]
    by_cases hwb : n % 4 = 2 <;> simp [hwb, Event.isWb]

/-- The edges of the other clock in this turn, but for the command at its end. -/
theorem mod_le_since (n : ℕ) (hn : n % 4 ≤ 2) : n % 4 ≤ board.since n := by
  induction n with
  | zero => exact Nat.zero_le _
  | succ n ih =>
    by_cases hexec : n % 4 = 3
    · rw [show (n + 1) % 4 = 0 by omega]
      exact Nat.zero_le _
    · have hwb : (board.events n).isWb = false := by
        rw [isWb_board]
        exact decide_eq_false (by omega)
      have hddr2 : (board.events n).isDdr2 = true := by
        rw [events_edge hexec]
        rfl
      have hbefore := ih (by omega)
      rw [since, hwb, hddr2]
      show (n + 1) % 4 ≤ board.since n + 1
      omega

theorem clocked_board : board.Clocked where
  wbClkR := rfl
  wbClkInDdr2Clk := rfl
  wbClkInDdr2ClkR := rfl
  ratio n h := by
    have hwb : n % 4 = 2 := of_decide_eq_true ((isWb_board n).symm.trans h)
    have hddr2 : (board.events n).isDdr2 = true := by
      rw [events_edge (by omega)]
      rfl
    have hsince := mod_le_since n (by omega)
    rw [hddr2]
    show 3 ≤ board.since n + 1
    omega

theorem late_board : board.late 835 ≤ 2 ∧
    ((board.sys 835).ddr2.wbClkEdge = true ↔ board.since 835 = 1 ∧ (board.sys 835).wbClkR = true) :=
  Clocked.late_le_two clocked_board 835

theorem proper_board : board.Proper := by
  refine clocked_board.proper fun n => ?_
  by_cases hexec : n % 4 = 3
  · rw [events_exec hexec]
    exact trivial
  · rw [events_edge hexec, sys_board]
    refine ⟨fun e he => ?_, fun e he hfull => ?_⟩
    · split at he
      · obtain rfl : (⟨(Sys.driven n).drive, false⟩ : WbEdge) = e := Option.some.inj he
        exact ⟨(Sys.driven n).busRule_drive, fun hfull => absurd hfull Bool.false_ne_true⟩
      · cases he
    · obtain rfl : (⟨false, true⟩ : Ddr2Edge) = e := Option.some.inj he
      cases hfull

/-! ## What becomes of a word -/

theorem setBytes_all (new old : BitVec 32) : setBytes 0xf new old = new := by
  have h : byteMask 0xf = BitVec.allOnes 32 := rfl
  rw [setBytes, h, BitVec.not_allOnes, BitVec.and_zero, BitVec.zero_or, BitVec.and_allOnes]

theorem store_of_word_ne {m : Tag → Content} {t : Tag} {w : BitVec 8}
    (h : σ.regs.wbAckO = true → σ.bus.wbWeI = true → σ.bus.word ≠ w) : σ.store m t w = m t w := by
  rw [Sys.store]
  split
  · next hwrite =>
    have hne := h (Bool.and_eq_true_iff.mp hwrite).1 (Bool.and_eq_true_iff.mp hwrite).2
    by_cases ht : t = σ.bus.tag
    · subst ht
      rw [Function.update_self, Function.update_of_ne hne.symm]
    · rw [Function.update_of_ne ht]
  · rfl

/-- The second word is written, and no other word in its place afterwards; a read asks for a fifth
line while the first one is dirty; the words of the first line are in the data FIFO while their
addresses are commanded; nothing is left to be commanded, and no line has the first address; the
second word is read again. -/
theorem trace_board :
    ((Sys.driven 130).regs.wbAckO = true ∧ (Sys.driven 130).bus = Bus.writing.nextWord) ∧
    (∀ k ∈ List.range' 131 844, (Sys.driven k).regs.wbAckO = true → (Sys.driven k).bus.wbWeI = true →
      (Sys.driven k).bus.word ≠ 5) ∧
    ((Sys.driven 539).bus.wbReq = true ∧ (Sys.driven 539).bus.tag = 4 ∧
      ∃ L, (Sys.driven 539).regs.cachedAdr L = 0 ∧ (Sys.driven 539).regs.linesDirty L = true) ∧
    (Sys.driven 667).mig.af = [⟨false, 0, 2⟩] ∧
    ((∀ L, (Sys.driven 835).regs.cachedAdr L ≠ 0) ∧ (Sys.driven 835).mig.af = []) ∧
    (Sys.driven 975).regs.wbAckO = true ∧ (Sys.driven 975).bus.wbWeI = false ∧
      (Sys.driven 975).bus.tag = 0 ∧ (Sys.driven 975).bus.word = 5 := by
  decide +kernel

theorem contents_board (n : ℕ) :
    board.contents (n + 1) = if n % 4 = 2 then (Sys.driven n).store (board.contents n)
      else board.contents n := by
  rw [contents, sys_board, isWb_board]
  by_cases hn : n % 4 = 2 <;> simp [hn]

/-- The second word stays what it has been written. -/
theorem word_board (hn : n < 845) : board.contents (131 + n) 0 5 = 0x1001 := by
  obtain ⟨⟨hack, hbus⟩, hkept, -⟩ := trace_board
  induction n with
  | zero =>
    have htag : Bus.writing.nextWord.tag = 0 := by decide
    have hword : Bus.writing.nextWord.word = 5 := by decide
    have hwrite : (true && Bus.writing.nextWord.wbWeI) = true := rfl
    rw [contents_board, if_pos (by decide), Sys.store, hack, hbus, if_pos hwrite]
    rw [htag, hword, Function.update_self, Function.update_self]
    exact setBytes_all _ _
  | succ n ih =>
    have hsame := hkept (131 + n) (List.mem_range'_1.mpr ⟨by omega, by omega⟩)
    rw [← Nat.add_assoc, contents_board]
    split
    · rw [store_of_word_ne hsame]
      exact ih (by omega)
    · exact ih (by omega)

end Run

end ProbableCause.Ddr2.Cache
