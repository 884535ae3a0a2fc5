import ProbableCause.Lib.WriteBack
import ProbableCause.Ddr2.CacheSystem

/-!
# `Ddr2.CacheTransfer` — the words of a line on their way

`Progress` counts what has become of a line that is written back and of the line that is filled.
`Transfer` says from the counts what is in the FIFOs, and `Phase.Link` what the registers of the
other clock domain hold in each phase of the bus domain. Where that domain has nothing to do, its
flags may still be up (`Rests`), but not for long: each edge of the bus clock that passes meanwhile
is one at which it has not looked.

`Linked` puts this together, with the relation of the cache to the contents that it stands for. The
controller and the edges of its clock keep it (`Linked.exec`, `Linked.ddr2Edge`).
-/

namespace ProbableCause.Ddr2.Cache

variable {σ : Sys} {L : Line} {m : Tag → Content} {late : ℕ} {p : Phase}

/-! ## Counts -/

/-- How far a line that is written back and the line that is filled have come, in fours of words
(`dumped`, `received`) and in commands of sixteen words. -/
structure Progress where
  victim : Tag
  dumped : ℕ
  addressed : ℕ
  written : ℕ
  requested : ℕ
  fetched : ℕ
  received : ℕ

namespace Progress

def idle : Progress := ⟨0, 0, 0, 0, 0, 0, 0⟩

/-- Nothing is written that is not dumped, nothing is read before all is written. -/
structure Ordered (g : Progress) : Prop where
  dumped : g.dumped ≤ 64
  addressed : g.addressed ≤ 16
  dumped_first : 0 < g.addressed → g.dumped = 64
  written : g.written ≤ g.addressed
  requested : g.requested ≤ 16
  fetched : g.fetched ≤ g.requested
  written_first : 0 < g.fetched → g.written = g.addressed
  received : g.received ≤ 4 * g.fetched

/-- The memory when all writes that have been commanded are executed. -/
def flushed (g : Progress) (m mem : Tag → Content) : Tag → Content := fun t w =>
  if t = g.victim ∧ 16 * g.written ≤ w.toNat ∧ w.toNat < 16 * g.addressed then m t w else mem t w

variable {g : Progress} {mem : Tag → Content}

theorem ordered_idle (t : Tag) : Ordered { idle with victim := t } where
  dumped := Nat.zero_le _
  addressed := Nat.zero_le _
  dumped_first h := absurd h (Nat.lt_irrefl 0)
  written := Nat.le_refl _
  requested := Nat.zero_le _
  fetched := Nat.le_refl _
  written_first _ := rfl
  received := Nat.le_refl _

theorem flushed_of_written (h : g.written = g.addressed) : g.flushed m mem = mem := by
  funext t w
  exact if_neg fun hw => by omega

theorem flushed_of_ne {t : Tag} (h : t ≠ g.victim) : g.flushed m mem t = mem t :=
  funext fun _ => if_neg fun hw => h hw.1

end Progress

/-! ## FIFOs -/

/-- The data FIFO, with the words that are written into it at the next edge. -/
def Sys.pending (σ : Sys) : List Quad :=
  σ.mig.wdf ++ if σ.ddr2.doWritebackDdr2FifoWe then [σ.ddr2.ddr2CacheDataO] else []

/-- The lines of the cache. -/
def Sys.cache (σ : Sys) : WriteBack.Cache Line Tag (BitVec 8) (BitVec 32) where
  holds := σ.regs.holds
  dirty := σ.regs.linesDirty
  data := σ.ram

/-- The burst that is returned: its words follow each other. -/
structure Delivery (g : Progress) (σ : Sys) : Prop where
  lt : σ.mig.beats < 4
  aligned : (g.received + σ.mig.beats) % 4 = 0
  le : g.received + σ.mig.beats ≤ 4 * g.fetched
  valid : σ.mig.beats ≠ 0 → σ.ddr2.rdDataValidR = true

/-- What is in the FIFOs, and what has arrived in the memory. -/
structure Transfer (g : Progress) (m : Tag → Content) (σ : Sys) : Prop where
  ordered : g.Ordered
  af : σ.mig.af =
    (List.range' g.written (g.addressed - g.written)).map (Command.mk false g.victim) ++
      (List.range' g.fetched (g.requested - g.fetched)).map (Command.mk true σ.bus.tag)
  wdf : σ.pending = (List.range' (4 * g.written) (g.dumped - 4 * g.written)).map (quad (m g.victim))
  rdf : σ.mig.rdf = (List.range' g.received (4 * g.fetched - g.received)).map (quad (m σ.bus.tag))
  mem : ∀ w : BitVec 8, w.toNat < 16 * g.written → σ.mig.mem g.victim w = m g.victim w
  delivery : Delivery g σ

/-! ## The other clock domain -/

/-- It has nothing to do. Its flags are up only if it has not looked since. -/
structure Rests (age late : ℕ) (d : Ddr2Regs) : Prop where
  doWriteback : d.doWritebackDdr2 = false
  wordAddr : d.ddr2CacheLineWordAddr = 0
  stale : d.doWritebackDdr2FifoWe = true ∨ d.ddr2WriteDone = true ∨ d.ddr2ReadDone = true ∨
    d.rdDataValidR = true → age ≤ late

/-- It moves the words of a line to the data FIFO. -/
inductive Dumping (L : Line) (d : Ddr2Regs) : ℕ → Prop
  | waits (hdo : d.doWritebackDdr2 = false) (hword : d.ddr2CacheLineWordAddr = 0)
    (hwe : d.doWritebackDdr2FifoWe = false) (hdone : d.ddr2WriteDone = false) : Dumping L d 0
  | dumps {n : ℕ} (hdo : d.doWritebackDdr2 = true) (hword : d.ddr2CacheLineWordAddr = n) (hn : n < 64)
    (henc : d.selectedCacheLineEncDdr2Clk = L) (hdone : d.ddr2WriteDone = false) : Dumping L d n
  | dumped (hdo : d.doWritebackDdr2 = false) (hword : d.ddr2CacheLineWordAddr = 0)
  (hdone : d.ddr2WriteDone = true) :
    Dumping L d 64

/-- It moves the words that are returned to a line. -/
inductive Filling (d : Ddr2Regs) : ℕ → Prop
  | fills {n : ℕ} (hword : d.ddr2CacheLineWordAddr = n) (hn : n < 64)
    (hwritten : d.ddr2WriteDone = false) (hread : d.ddr2ReadDone = false) : Filling d n
  | filled (hword : d.ddr2CacheLineWordAddr = 0) (hread : d.ddr2ReadDone = true) : Filling d 64

/-- The line that was there has been given up: it was clean, or it is on its way to the memory. -/
def Progress.Evicted (g : Progress) (t : Tag) : Prop :=
  g.dumped = 0 ∧ g.addressed = 0 ∨ g.dumped = 64 ∧ g.addressed = 16 ∧ g.victim ≠ t

/-- For how many edges of the bus clock the line is known that the other domain has to address. -/
def Stage.known : Stage → ℕ
  | .startReadfrom => 2
  | .readfrom n => n + 3
  | .filled => 19
  | _ => 1

/-- All words of the line are dumped, and the addresses are commanded. -/
structure Addressing (n age late : ℕ) (g : Progress) (L : Line) (σ : Sys) : Prop where
  dumped : g.dumped = 64
  addressed : g.addressed = n
  requested : g.requested = 0
  victim : g.victim = σ.regs.cachedAdr L
  rests : Rests age late σ.ddr2

/-- The commands to read are given, and words come back. -/
structure Reading (n : ℕ) (g : Progress) (L : Line) (m : Tag → Content) (σ : Sys) : Prop where
  evicted : g.Evicted σ.bus.tag
  requested : g.requested = n
  doWriteback : σ.ddr2.doWritebackDdr2 = false
  fifoWe : σ.ddr2.doWritebackDdr2FifoWe = false
  filling : Filling σ.ddr2 g.received
  line : ∀ w : BitVec 8, w.toNat < 4 * g.received → σ.ram L w = m σ.bus.tag w

/-- What the other domain does in a stage of a miss. -/
def Stage.Link (late : ℕ) (g : Progress) (L : Line) (m : Tag → Content) (σ : Sys) : Stage → Prop
  | .checked | .startWriteback | .invalidate | .invalidated => g = .idle ∧ Rests 4 late σ.ddr2
  | .writeback _ =>
    g.addressed = 0 ∧ g.requested = 0 ∧ g.victim = σ.regs.cachedAdr L ∧ σ.ddr2.ddr2ReadDone = false ∧
      σ.ddr2.rdDataValidR = false ∧ Dumping L σ.ddr2 g.dumped
  | .dataFinished => Addressing 0 0 late g L σ
  | .startAddresses => Addressing 0 1 late g L σ
  | .writebackAddresses n => Addressing n (n + 2) late g L σ
  | .writebackDone => Addressing 16 4 late g L σ
  | .startFill | .startReadfrom => g.Evicted σ.bus.tag ∧ g.requested = 0 ∧ Rests 4 late σ.ddr2
  | .readfrom n => Reading n g L m σ
  | .filled => Reading 16 g L m σ
  | .fillDone => g = .idle ∧ Rests 0 late σ.ddr2 ∧ σ.ram L = m σ.bus.tag
  | .validate => g = .idle ∧ Rests 1 late σ.ddr2 ∧ σ.ram L = m σ.bus.tag

def Phase.Link (late : ℕ) (g : Progress) (m : Tag → Content) (σ : Sys) : Phase → Prop
  | .quiet => g = .idle ∧ Rests 2 late σ.ddr2
  | .looked => g = .idle ∧ Rests 3 late σ.ddr2
  | .hit _ => g = .idle ∧ Rests 4 late σ.ddr2
  | .miss L stage =>
    stage.Link late g L m σ ∧
      (stage ≠ .checked → σ.ddr2.selectedCacheLineEncDdr2Clk = L ∨ stage.known ≤ late)

/-- The system in a phase, with the contents that the cache and the memory stand for. -/
structure Linked (p : Phase) (late : ℕ) (g : Progress) (m : Tag → Content) (σ : Sys) : Prop where
  holds : Holds p σ.bus σ.regs
  transfer : Transfer g m σ
  represents : WriteBack.Represents σ.cache (g.flushed m σ.mig.mem) m
  link : p.Link late g m σ

variable {g g' : Progress}

namespace Linked

/-- While words are still to be dumped, at most one address is commanded. -/
theorem addressed_le_of_fifoWe (h : Linked p late g m σ) (hlate : late ≤ 3)
    (hwe : σ.ddr2.doWritebackDdr2FifoWe = true) : g.addressed ≤ 1 := by
  have hlink := h.link
  cases p with
  | quiet | looked | hit =>
    obtain ⟨rfl, -⟩ := hlink
    exact Nat.zero_le 1
  | miss L stage =>
    replace hlink := hlink.1
    cases stage with
    | checked | startWriteback | invalidate | invalidated | fillDone | validate =>
      obtain ⟨rfl, -⟩ := hlink
      exact Nat.zero_le 1
    | writeback => exact hlink.1 ▸ Nat.zero_le 1
    | dataFinished | startAddresses => exact hlink.addressed ▸ Nat.zero_le 1
    | writebackAddresses n =>
      have hn := hlink.rests.stale (.inl hwe)
      have hadr := hlink.addressed
      omega
    | writebackDone => exact absurd (hlink.rests.stale (.inl hwe)) (by omega)
    | startFill | startReadfrom => exact absurd (hlink.2.2.stale (.inl hwe)) (by omega)
    | readfrom | filled => exact absurd hwe (by simp [hlink.fifoWe])

theorem reading (h : Linked p late g m σ) (hr : 0 < g.requested) :
    ∃ L n, Misses L σ.bus σ.regs ∧ Reading n g L m σ := by
  have hlink := h.link
  cases p with
  | quiet | looked | hit =>
    obtain ⟨rfl, -⟩ := hlink
    exact absurd hr (Nat.lt_irrefl 0)
  | miss L stage =>
    have hmiss := h.holds.facts.1
    replace hlink := hlink.1
    cases stage with
    | checked | startWriteback | invalidate | invalidated | fillDone | validate =>
      obtain ⟨rfl, -⟩ := hlink
      exact absurd hr (Nat.lt_irrefl 0)
    | writeback => exact absurd hr (by simp [hlink.2.1])
    | dataFinished | startAddresses | writebackAddresses | writebackDone =>
      exact absurd hr (by simp [hlink.requested])
    | startFill | startReadfrom => exact absurd hr (by simp [hlink.2.1])
    | readfrom n => exact ⟨L, n, hmiss, hlink⟩
    | filled => exact ⟨L, 16, hmiss, hlink⟩

/-- The link does not say how many commands are executed. -/
theorem link_congr (hlink : p.Link late g m σ) (hidle : g ≠ .idle) (mig : Mig)
    (hvictim : g'.victim = g.victim) (hdumped : g'.dumped = g.dumped)
    (haddressed : g'.addressed = g.addressed) (hrequested : g'.requested = g.requested)
    (hreceived : g'.received = g.received) : p.Link late g' m { σ with mig := mig } := by
  cases p with
  | quiet | looked | hit => exact absurd hlink.1 hidle
  | miss L stage =>
    refine ⟨?_, hlink.2⟩
    replace hlink := hlink.1
    cases stage with
    | checked | startWriteback | invalidate | invalidated | fillDone | validate =>
      exact absurd hlink.1 hidle
    | writeback =>
      simp only [Stage.Link, hvictim, hdumped, haddressed, hrequested]
      exact hlink
    | dataFinished | startAddresses | writebackAddresses | writebackDone =>
      exact ⟨hdumped.trans hlink.dumped, haddressed.trans hlink.addressed,
        hrequested.trans hlink.requested, hvictim.trans hlink.victim, hlink.rests⟩
    | startFill | startReadfrom =>
      simp only [Stage.Link, Progress.Evicted, hvictim, hdumped, haddressed, hrequested]
      exact hlink
    | readfrom | filled =>
      obtain ⟨hevicted, hreq, hdo, hwe, hfill, hline⟩ := hlink
      refine ⟨?_, hrequested.trans hreq, hdo, hwe, hreceived ▸ hfill, hreceived ▸ hline⟩
      simp only [Progress.Evicted, hvictim, hdumped, haddressed]
      exact hevicted

end Linked

/-! ## The controller -/

/-- **No underflow**: a write that is executed finds its four words. -/
theorem Linked.words (h : Linked p late g m σ) (hlate : late ≤ 3) (hw : g.written < g.addressed) :
    4 ≤ σ.mig.wdf.length := by
  obtain ⟨hordered, -, hwdf, -, -, -⟩ := h.transfer
  have hlength := congrArg List.length hwdf
  rw [List.length_map, List.length_range', hordered.dumped_first (Nat.zero_lt_of_lt hw)] at hlength
  have hadr := hordered.addressed
  cases hwe : σ.ddr2.doWritebackDdr2FifoWe with
  | false =>
    simp only [Sys.pending, hwe, Bool.false_eq_true, if_false, List.append_nil] at hlength
    omega
  | true =>
    -- the last word is still on its way, but then the first command at most has been given
    have hone := h.addressed_le_of_fifoWe hlate hwe
    simp only [Sys.pending, hwe, if_true, List.length_append, List.length_singleton] at hlength
    omega

theorem range'_cons {a n : ℕ} (h : 0 < n) : List.range' a n = a :: List.range' (a + 1) (n - 1) := by
  obtain ⟨k, rfl⟩ := Nat.exists_eq_succ_of_ne_zero (Nat.pos_iff_ne_zero.mp h)
  exact List.range'_succ

theorem ne_idle_of_addressed (h : 0 < g.addressed) : g ≠ .idle := by
  rintro rfl
  exact Nat.lt_irrefl 0 h

theorem ne_idle_of_requested (h : 0 < g.requested) : g ≠ .idle := by
  rintro rfl
  exact Nat.lt_irrefl 0 h

/-- What a write takes from the data FIFO. -/
theorem getD_of_pending {n : ℕ} (hwdf : σ.pending = (List.range' n (64 - n)).map (quad (m g.victim)))
    (hwords : 4 ≤ σ.mig.wdf.length) {j : ℕ} (hj : j < 4) :
    (σ.mig.wdf.getD j fun _ => 0) = quad (m g.victim) (n + j) := by
  have hlt : j < σ.mig.wdf.length := Nat.lt_of_lt_of_le hj hwords
  have hget : σ.pending[j]? = some (σ.mig.wdf.getD j fun _ => 0) := by
    rw [Sys.pending, List.getElem?_append_left hlt, List.getD_eq_getElem?_getD,
      List.getElem?_eq_getElem hlt]
    rfl
  have hlen : j < 64 - n := by
    have hlength := congrArg List.length hwdf
    rw [List.length_map, List.length_range', Sys.pending, List.length_append] at hlength
    omega
  rw [hwdf, List.getElem?_map, List.getElem?_range' hlen, Option.map_some, Option.some.injEq,
    Nat.one_mul] at hget
  exact hget.symm

/-- A write brings the words of the victim to the memory. -/
theorem mem_write (hwdf : σ.pending = (List.range' (4 * g.written) (64 - 4 * g.written)).map
    (quad (m g.victim))) (hwords : 4 ≤ σ.mig.wdf.length) (af : List Command) (t :
      Tag) (w : BitVec 8) :
    (σ.mig.write ⟨false, g.victim, g.written⟩ af).mem t w =
      if t = g.victim ∧ w.toNat / 16 = g.written then m t w else σ.mig.mem t w := by
  simp only [Mig.write]
  split
  · next hw =>
    obtain ⟨rfl, hburst⟩ := hw
    rw [getD_of_pending hwdf hwords (Nat.mod_lt _ (Nat.succ_pos 3)),
      show 4 * g.written + w.toNat / 4 % 4 = w.toNat / 4 by omega, quad_setWidth]
  · rfl

theorem Linked.exec_write (h : Linked p late g m σ) (hlate : late ≤ 3)
    (hw : g.written < g.addressed) :
    Linked p late { g with written := g.written + 1 } m (σ.next .exec) := by
  have hwords := h.words hlate hw
  obtain ⟨hordered, haf, hwdf, hrdf, hmem, hdelivery⟩ := h.transfer
  have hdumped := hordered.dumped_first (Nat.zero_lt_of_lt hw)
  have hnone : g.fetched = 0 := by
    by_contra hf
    exact hw.ne (hordered.written_first (Nat.pos_of_ne_zero hf))
  rw [range'_cons (Nat.sub_pos_of_lt hw), List.map_cons, List.cons_append] at haf
  rw [show σ.next .exec = { σ with mig := σ.mig.exec } from rfl, Mig.exec_of_write haf]
  refine ⟨h.holds, ⟨?_, ?_, ?_, hrdf, ?_,
    ⟨hdelivery.lt, hdelivery.aligned, hdelivery.le, hdelivery.valid⟩⟩, ?_,
    link_congr h.link (ne_idle_of_addressed (Nat.zero_lt_of_lt hw)) _ rfl rfl rfl rfl rfl⟩
  · exact { hordered with
      written := hw
      written_first := fun hf => absurd hf (by simp [hnone]) }
  · rw [← Nat.sub_sub]
    rfl
  · calc List.drop 4 σ.mig.wdf ++ _
        = List.drop 4 σ.pending := (List.drop_append_of_le_length hwords).symm
      _ = (List.range' (4 * g.written + 4 * 1) (g.dumped - 4 * g.written - 4)).map
          (quad (m g.victim)) := by
        rw [hwdf, ← List.map_drop, List.drop_range']
      _ = _ := by rw [Nat.sub_sub, ← Nat.mul_succ]
  · intro w hw'
    refine (mem_write (hdumped ▸ hwdf) hwords _ _ w).trans ?_
    split
    · rfl
    · next hburst =>
      refine hmem w ?_
      simp only [true_and] at hburst
      simp only at hw'
      omega
  · -- what is executed was to be expected
    have hflush : Progress.flushed { g with written := g.written + 1 } m
        (σ.mig.write ⟨false, g.victim, g.written⟩
          ((List.range' (g.written + 1) (g.addressed - g.written - 1)).map
            (Command.mk false g.victim) ++ (List.range' g.fetched (g.requested - g.fetched)).map
              (Command.mk true σ.bus.tag))).mem =
        g.flushed m σ.mig.mem := by
      funext t w
      simp only [Progress.flushed, mem_write (hdumped ▸ hwdf) hwords]
      by_cases ht : t = g.victim
      · by_cases hburst : w.toNat / 16 = g.written
        · have hlo : 16 * g.written ≤ w.toNat := by omega
          have hadr : w.toNat < 16 * g.addressed := by omega
          simp only [ht, hburst, hlo, hadr, and_self, if_true, ite_self]
        · have hiff : 16 * (g.written + 1) ≤ w.toNat ↔ 16 * g.written ≤ w.toNat := by omega
          simp only [hburst, hiff, and_false, if_false]
      · simp only [ht, false_and, if_false]
    exact hflush ▸ h.represents

theorem Linked.exec_read (h : Linked p late g m σ) (hw : g.written = g.addressed)
    (hr : g.fetched < g.requested) :
    Linked p late { g with fetched := g.fetched + 1 } m (σ.next .exec) := by
  have hpos := Nat.zero_lt_of_lt hr
  obtain ⟨L, n, hmiss, hreading⟩ := h.reading hpos
  obtain ⟨hordered, haf, hwdf, hrdf, hmem, hdelivery⟩ := h.transfer
  rw [hw, Nat.sub_self, List.range'_zero, List.map_nil, List.nil_append,
    range'_cons (Nat.sub_pos_of_lt hr), List.map_cons] at haf
  have hrep := h.represents
  rw [Progress.flushed_of_written hw] at hrep
  have htag : σ.mig.mem σ.bus.tag = m σ.bus.tag := hrep.memory_of_absent hmiss.absent.holds_ne
  rw [show σ.next .exec = { σ with mig := σ.mig.exec } from rfl, Mig.exec_of_read haf]
  refine ⟨h.holds, ⟨?_, ?_, hwdf, ?_, hmem, ⟨hdelivery.lt, hdelivery.aligned, ?_, hdelivery.valid⟩⟩,
    ?_, link_congr h.link (ne_idle_of_requested hpos) _ rfl rfl rfl rfl rfl⟩
  · exact { hordered with
      fetched := hr
      written_first := fun _ => hw
      received := Nat.le_trans hordered.received (Nat.mul_le_mul_left 4 (Nat.le_succ _)) }
  · simp only [hw, Nat.sub_self, List.range'_zero, List.map_nil, List.nil_append, ← Nat.sub_sub]
    rfl
  · have hle := hordered.received
    calc σ.mig.rdf ++ (List.range' (4 * g.fetched) 4).map (quad (σ.mig.mem σ.bus.tag))
        = (List.range' g.received (4 * g.fetched - g.received) ++
            List.range' (g.received + (4 * g.fetched - g.received)) 4).map (quad (m σ.bus.tag)) := by
          rw [hrdf, htag, List.map_append, Nat.add_sub_cancel' hle]
      _ = (List.range' g.received (4 * (g.fetched + 1) - g.received)).map (quad (m σ.bus.tag)) := by
          rw [List.range'_append_1, Nat.mul_succ, Nat.sub_add_comm hle]
  · exact Nat.le_trans hdelivery.le (Nat.mul_le_mul_left 4 (Nat.le_succ _))
  · exact (Progress.flushed_of_written (g := { g with fetched := g.fetched + 1 }) hw).symm ▸ hrep

/-- **The controller executes its next command.** -/
theorem Linked.exec (h : Linked p late g m σ) (hlate : late ≤ 3) :
    ∃ g', Linked p late g' m (σ.next .exec) := by
  obtain ⟨hordered, haf, -, -, -, -⟩ := h.transfer
  rcases hordered.written.lt_or_eq with hw | hw
  · exact ⟨_, h.exec_write hlate hw⟩
  · rcases hordered.fetched.lt_or_eq with hr | hr
    · exact ⟨_, h.exec_read hw hr⟩
    · refine ⟨g, ?_⟩
      rw [hw, hr, Nat.sub_self, Nat.sub_self] at haf
      rw [show σ.next .exec = { σ with mig := σ.mig.exec } from rfl, Mig.exec_of_nil haf]
      exact h

/-! ## Edges of the other clock -/

/-- For how many edges of the bus clock the other domain has had nothing to do, if it has nothing to
do. -/
def Phase.age? : Phase → Option ℕ
  | .quiet => some 2
  | .looked => some 3
  | .hit _ => some 4
  | .miss _ (.writeback _) | .miss _ (.readfrom _) | .miss _ .filled => none
  | .miss _ .dataFinished | .miss _ .fillDone => some 0
  | .miss _ .startAddresses | .miss _ .validate => some 1
  | .miss _ (.writebackAddresses n) => some (n + 2)
  | .miss _ _ => some 4

theorem Phase.Link.rests (h : p.Link late g m σ) {age : ℕ} (hage : p.age? = some age) :
    Rests age late σ.ddr2 := by
  cases p with
  | quiet | looked | hit =>
    obtain rfl := Option.some.inj hage
    exact h.2
  | miss L stage =>
    replace h := h.1
    cases stage with
    | writeback | readfrom | filled => exact absurd hage (by simp [Phase.age?])
    | checked | startWriteback | invalidate | invalidated =>
      obtain rfl := Option.some.inj hage
      exact h.2
    | dataFinished | startAddresses | writebackAddresses | writebackDone =>
      obtain rfl := Option.some.inj hage
      exact h.rests
    | startFill | startReadfrom =>
      obtain rfl := Option.some.inj hage
      exact h.2.2
    | fillDone | validate =>
      obtain rfl := Option.some.inj hage
      exact h.2.1

theorem Phase.Link.requested (h : p.Link late g m σ) {age : ℕ} (hage : p.age? = some age) :
    g.requested = 0 := by
  cases p with
  | quiet | looked | hit =>
    obtain ⟨rfl, -⟩ := h
    rfl
  | miss L stage =>
    replace h := h.1
    cases stage with
    | writeback | readfrom | filled => exact absurd hage (by simp [Phase.age?])
    | checked | startWriteback | invalidate | invalidated | fillDone | validate =>
      obtain ⟨rfl, -⟩ := h
      rfl
    | dataFinished | startAddresses | writebackAddresses | writebackDone => exact h.requested
    | startFill | startReadfrom => exact h.2.1

theorem seq_of_age? {age : ℕ} (hage : p.age? = some age) :
    p.seq.doWriteback = false ∧ (p.seq.doReadfrom = false ∨ age = 4) := by
  cases p with
  | quiet | looked | hit => exact ⟨rfl, .inl rfl⟩
  | miss L stage =>
    cases stage with
    | writeback | readfrom | filled => exact absurd hage (by simp [Phase.age?])
    | startReadfrom => exact ⟨rfl, .inr (Option.some.inj hage).symm⟩
    | _ => exact ⟨rfl, .inl rfl⟩

/-- The link of a phase in which the other domain has nothing to do. -/
theorem Phase.Link.of_rests (h : p.Link late g m σ) {age late' : ℕ} (hage : p.age? = some age)
    {d : Ddr2Regs} (mig : Mig) (hrests : Rests age late' d)
    (henc : ∀ L stage, p = .miss L stage → stage ≠ .checked → d.selectedCacheLineEncDdr2Clk = L ∨
      stage.known ≤ late') :
    p.Link late' g m { σ with ddr2 := d, mig := mig } := by
  cases p with
  | quiet | looked | hit =>
    obtain rfl := Option.some.inj hage
    exact ⟨h.1, hrests⟩
  | miss L stage =>
    refine ⟨?_, henc L stage rfl⟩
    replace h := h.1
    cases stage with
    | writeback | readfrom | filled => exact absurd hage (by simp [Phase.age?])
    | checked | startWriteback | invalidate | invalidated =>
      obtain rfl := Option.some.inj hage
      exact ⟨h.1, hrests⟩
    | dataFinished | startAddresses | writebackAddresses | writebackDone =>
      obtain rfl := Option.some.inj hage
      exact ⟨h.dumped, h.addressed, h.requested, h.victim, hrests⟩
    | startFill | startReadfrom =>
      obtain rfl := Option.some.inj hage
      exact ⟨h.1, h.2.1, hrests⟩
    | fillDone | validate =>
      obtain rfl := Option.some.inj hage
      exact ⟨h.1, hrests, h.2.2⟩

section
variable {d : Ddr2Regs} {f : FromBus} {e : Ddr2Edge} {ram word : Quad} {full valid : Bool}

theorem Rests.step {age : ℕ} (h : Rests age late d) (hwrite : f.doWriteback = false)
    (hread : f.doReadfrom = false ∨ late < age) :
    Rests age (if d.sample then 0 else late) (d.step f full false ram word) := by
  obtain ⟨hdo, hword, hstale⟩ := h
  have hlast : d.lastWord = false := by simp [Ddr2Regs.lastWord, hword]
  refine ⟨by simp [Ddr2Regs.step, hlast, hwrite, hdo], by simp [Ddr2Regs.step, hdo, hword],
    fun hflags => ?_⟩
  have hflags' : d.sample = false ∧ d.ddr2WriteDone = true ∨
      (d.sample = false ∨ f.doReadfrom = true) ∧ d.ddr2ReadDone = true := by
    simpa [Ddr2Regs.step, hdo, hlast, hwrite, imp_iff_not_or] using hflags
  rcases hflags' with ⟨hsample, hdone⟩ | ⟨hwhy, hdone⟩
  · rw [hsample]
    exact hstale (.inr (.inl hdone))
  · have hage := hstale (.inr (.inr (.inl hdone)))
    rcases hread with hread | hlt
    · rw [hwhy.resolve_right (by simp [hread])]
      exact hage
    · exact absurd hage (Nat.not_le_of_lt hlt)

/-- The words of the line go out one by one. -/
theorem Dumping.step {n : ℕ} (h : Dumping L d n) (hwrite : f.doWriteback = true)
    (henc : f.selectedCacheLineEnc = L) :
    Dumping L (d.step f false false ram word) (if d.doWritebackDdr2 then n + 1 else n) := by
  cases h with
  | waits hdo hword hwe hdone =>
    rw [hdo]
    cases hsample : d.sample with
    | true =>
      exact .dumps (by simp [Ddr2Regs.step, Ddr2Regs.lastWord, hword, hsample, hwrite, hdone])
        (by simp [Ddr2Regs.step, hdo, hword]) (Nat.succ_pos 63)
          (by simp [Ddr2Regs.step, hsample, henc])
        (by simp [Ddr2Regs.step, Ddr2Regs.lastWord, hword, hwrite, hdone])
    | false =>
      exact .waits (by simp [Ddr2Regs.step, Ddr2Regs.lastWord, hword, hsample, hdo])
        (by simp [Ddr2Regs.step, hdo, hword]) (by simp [Ddr2Regs.step, hdo])
        (by simp [Ddr2Regs.step, Ddr2Regs.lastWord, hword, hwrite, hdone])
  | dumps hdo hword hn hline hdone =>
    rw [hdo, if_pos rfl]
    rcases (Nat.le_of_lt_succ hn).lt_or_eq with hn | rfl
    · have hlast : d.lastWord = false := by simp [Ddr2Regs.lastWord, hword, hn.ne]
      have henc' : (d.step f false false ram word).selectedCacheLineEncDdr2Clk = L := by
        simp only [Ddr2Regs.step]
        split <;> assumption
      exact .dumps (by simp [Ddr2Regs.step, hlast, hdo])
        (by simp [Ddr2Regs.step, hdo, hword, Nat.mod_eq_of_lt (Nat.succ_lt_succ hn)])
          (Nat.succ_lt_succ hn) henc'
        (by simp [Ddr2Regs.step, hlast, hwrite, hdone])
    · exact .dumped (by simp [Ddr2Regs.step, Ddr2Regs.lastWord, hword])
        (by simp [Ddr2Regs.step, hdo, hword])
        (by simp [Ddr2Regs.step, Ddr2Regs.lastWord, hword])
  | dumped hdo hword hdone =>
    rw [hdo]
    exact .dumped (by simp [Ddr2Regs.step, Ddr2Regs.lastWord, hword, hdo, hdone])
      (by simp [Ddr2Regs.step, hdo, hword])
        (by simp [Ddr2Regs.step, Ddr2Regs.lastWord, hword, hwrite, hdone])

theorem Dumping.le {n : ℕ} (h : Dumping L d n) : n ≤ 64 := by
  cases h with
  | waits => exact Nat.zero_le 64
  | dumps _ _ hn => exact hn.le
  | dumped => exact Nat.le_refl 64

theorem Dumping.of_doWriteback {n : ℕ} (h : Dumping L d n) (hdo : d.doWritebackDdr2 = true) :
    d.ddr2CacheLineWordAddr = n ∧ d.selectedCacheLineEncDdr2Clk = L := by
  cases h with
  | waits hdo' | dumped hdo' => exact absurd hdo (by simp [hdo'])
  | dumps _ hword _ henc => exact ⟨hword, henc⟩

theorem Dumping.of_done {n : ℕ} (h : Dumping L d n) (hdone : d.ddr2WriteDone = true) :
    n = 64 ∧ d.doWritebackDdr2 = false ∧ d.ddr2CacheLineWordAddr = 0 := by
  cases h with
  | waits _ _ _ hdone' | dumps _ _ _ _ hdone' => exact absurd hdone (by simp [hdone'])
  | dumped hdo hword => exact ⟨rfl, hdo, hword⟩

theorem Filling.step_wait {n : ℕ} (h : Filling d n) (hn : n ≠ 63) (hdo : d.doWritebackDdr2 = false)
    (hread : f.doReadfrom = true) : Filling (d.step f full false ram word) n := by
  cases h with
  | fills hword hlt hwritten hdone =>
    have hlast : d.lastWord = false := by simp [Ddr2Regs.lastWord, hword, hn]
    exact .fills (by simp [Ddr2Regs.step, hdo, hwritten, hdone, hword]) hlt
      (by simp [Ddr2Regs.step, hlast, hwritten]) (by simp [Ddr2Regs.step, hlast, hread, hdone])
  | filled hword hdone =>
    exact .filled (by simp [Ddr2Regs.step, hdo, hword])
      (by simp [Ddr2Regs.step, Ddr2Regs.lastWord, hword, hread, hdone])

theorem Filling.of_done {n : ℕ} (h : Filling d n) (hdone : d.ddr2ReadDone = true) :
    n = 64 ∧ d.ddr2CacheLineWordAddr = 0 := by
  cases h with
  | fills _ _ _ hdone' => exact absurd hdone (by simp [hdone'])
  | filled hword => exact ⟨rfl, hword⟩

/-- A word comes in. The last one must follow another at once, since `ddr2_read_done` is set on
account of that one. -/
theorem Filling.step {n : ℕ} (h : Filling d n) (hn : n < 64) (hvalid : n = 63 → d.rdDataValidR = true)
    (hread : f.doReadfrom = true) : Filling (d.step f full true ram word) (n + 1) := by
  cases h with
  | filled => exact absurd hn (Nat.lt_irrefl 64)
  | fills hword _ hwritten hdone =>
    rcases (Nat.le_of_lt_succ hn).lt_or_eq with hn | rfl
    · have hlast : d.lastWord = false := by simp [Ddr2Regs.lastWord, hword, hn.ne]
      exact .fills (by simp [Ddr2Regs.step, hword, Nat.mod_eq_of_lt (Nat.succ_lt_succ hn)])
        (Nat.succ_lt_succ hn)
        (by simp [Ddr2Regs.step, hlast, hwritten]) (by simp [Ddr2Regs.step, hlast, hread, hdone])
    · exact .filled (by simp [Ddr2Regs.step, hword])
        (by simp [Ddr2Regs.step, Ddr2Regs.lastWord, hword, hvalid rfl])

end

variable {e : Ddr2Edge}

theorem Transfer.not_wdfAfull (h : Transfer g m σ)
    (hrule : e.appWdfAfull = true → 64 < σ.mig.wdf.length) :
    e.appWdfAfull = false := by
  refine Bool.eq_false_iff.mpr fun hfull => ?_
  have hlength := congrArg List.length h.wdf
  rw [List.length_map, List.length_range', Sys.pending, List.length_append] at hlength
  have hle := h.ordered.dumped
  have hlt := hrule hfull
  omega

/-- What is dumped at an edge. -/
theorem pending_ddr2Edge (hfull : e.appWdfAfull = false)
    (hvalid : σ.ddr2.doWritebackDdr2 = true → σ.mig.rdDataValid e.deliver = false) :
    (σ.ddr2Edge e).pending = σ.pending ++
      if σ.ddr2.doWritebackDdr2 then
        [quad (σ.ram σ.ddr2.selectedCacheLineEncDdr2Clk) σ.ddr2.ddr2CacheLineWordAddr]
      else [] := by
  cases hdo : σ.ddr2.doWritebackDdr2 <;> cases hwe : σ.ddr2.doWritebackDdr2FifoWe <;>
    simp_all [Sys.pending, Sys.ddr2Edge, Ddr2Regs.step]

/-- Which line the other domain addresses after an edge. -/
theorem enc_ddr2Edge {stage : Stage} (h : Linked (.miss L stage) late g m σ)
    (hstage : stage ≠ .checked) :
    (σ.ddr2Edge e).ddr2.selectedCacheLineEncDdr2Clk = L ∨ stage.known ≤ if σ.ddr2.sample then 0
      else late := by
  have henc := (h.holds.facts.2.selected hstage).enc
  simp only [Sys.ddr2Edge, Ddr2Regs.step, Sys.fromBus]
  cases hsample : σ.ddr2.sample with
  | true => exact .inl henc
  | false => exact h.link.2 hstage

namespace Linked

theorem doWriteback (h : Linked p late g m σ) : σ.fromBus.doWriteback = p.seq.doWriteback := by
  rw [← h.holds.seq]
  rfl

theorem doReadfrom (h : Linked p late g m σ) : σ.fromBus.doReadfrom = p.seq.doReadfrom := by
  rw [← h.holds.seq]
  rfl

theorem not_valid (h : Linked p late g m σ) (hrequested : g.requested = 0) (deliver : Bool) :
    σ.mig.rdDataValid deliver = false ∧ σ.mig.beatsNext deliver = 0 := by
  obtain ⟨hordered, -, -, hrdf, -, hdelivery⟩ := h.transfer
  have hfetched := hordered.fetched
  have hbeats : σ.mig.beats = 0 := by
    have hle := hdelivery.le
    omega
  have hempty : σ.mig.rdf = [] := by
    rw [hrdf, show 4 * g.fetched - g.received = 0 by omega]
    rfl
  simp [Mig.rdDataValid, Mig.beatsNext, hbeats, hempty]

/-- The other domain has nothing to do. -/
theorem ddr2Edge_rests {age : ℕ} (h : Linked p late g m σ) (hlate : late ≤ 3)
    (hage : p.age? = some age) (hfull : e.appWdfAfull = false) :
      Linked p (if σ.ddr2.sample then 0 else late) g m (σ.ddr2Edge e) := by
  have hrequested := h.link.requested hage
  obtain ⟨hvalid, hbeats⟩ := h.not_valid hrequested e.deliver
  have hrests := h.link.rests hage
  obtain ⟨hordered, haf, hwdf, hrdf, hmem, hdelivery⟩ := h.transfer
  have hreceived := hordered.received
  have hfetched := hordered.fetched
  have hram : (σ.ddr2Edge e).ram = σ.ram := by simp [Sys.ddr2Edge, hvalid]
  have hcache : (σ.ddr2Edge e).cache = σ.cache := by
    rw [Sys.cache, hram]
    rfl
  have hrests' : Rests age (if σ.ddr2.sample then 0 else late) (σ.ddr2Edge e).ddr2 := by
    obtain ⟨hwrite, hread⟩ := seq_of_age? hage
    simp only [Sys.ddr2Edge, hvalid]
    exact hrests.step (h.doWriteback.trans hwrite)
      (hread.imp h.doReadfrom.trans fun hage => by omega)
  refine ⟨h.holds, ⟨hordered, haf, ?_, ?_, hmem, ⟨?_, ?_, ?_, ?_⟩⟩, hcache ▸ h.represents, ?_⟩
  · rw [pending_ddr2Edge hfull (fun _ => hvalid), hrests.doWriteback]
    simpa using hwdf
  · simpa [Sys.ddr2Edge, hvalid] using hrdf
  · simp [Sys.ddr2Edge, hbeats]
  · simp only [Sys.ddr2Edge, hbeats]
    omega
  · simp only [Sys.ddr2Edge, hbeats]
    omega
  · simp [Sys.ddr2Edge, hbeats]
  · have heq : σ.ddr2Edge e = { σ with ddr2 := (σ.ddr2Edge e).ddr2, mig := (σ.ddr2Edge e).mig } := by
      simp [Sys.ddr2Edge, hvalid]
    rw [heq]
    refine h.link.of_rests hage _ hrests' fun L stage hp hstage => ?_
    subst hp
    exact enc_ddr2Edge h hstage

/-- Words of the line go to the data FIFO. -/
theorem ddr2Edge_dumping {again : Bool} (h : Linked (.miss L (.writeback again)) late g m σ)
    (hfull : e.appWdfAfull = false) :
    ∃ g', Linked (.miss L (.writeback again)) (if σ.ddr2.sample then 0 else late) g' m
      (σ.ddr2Edge e) := by
  obtain ⟨⟨haddressed, hrequested, hvictim, hread, hvalidR, hdump⟩, -⟩ := h.link
  obtain ⟨hvalid, hbeats⟩ := h.not_valid hrequested e.deliver
  obtain ⟨hordered, haf, hwdf, hrdf, hmem, hdelivery⟩ := h.transfer
  obtain ⟨-, hsel, hline, -⟩ := h.holds.facts.2
  have hwritten : g.written = 0 := Nat.le_zero.mp (haddressed ▸ hordered.written)
  have hreceived := hordered.received
  have hfetched := hordered.fetched
  have hram : (σ.ddr2Edge e).ram = σ.ram := by simp [Sys.ddr2Edge, hvalid]
  have hcache : (σ.ddr2Edge e).cache = σ.cache := by
    rw [Sys.cache, hram]
    rfl
  have hdump' : Dumping L (σ.ddr2Edge e).ddr2 (if σ.ddr2.doWritebackDdr2 then g.dumped + 1
      else g.dumped) := by
    simp only [Sys.ddr2Edge, hvalid, hfull]
    exact hdump.step h.doWriteback hsel.enc
  have hpending : (σ.ddr2Edge e).pending =
      (List.range' 0 (if σ.ddr2.doWritebackDdr2 then g.dumped + 1 else g.dumped)).map
        (quad (m g.victim)) := by
    rw [pending_ddr2Edge hfull fun _ => hvalid, hwdf, hwritten]
    cases hdo : σ.ddr2.doWritebackDdr2 with
    | false => simp
    | true =>
      obtain ⟨hword, henc⟩ := hdump.of_doWriteback hdo
      have hdata : σ.ram L = m g.victim := h.represents.line (holds_eq_some.mpr ⟨hline, hvictim.symm⟩)
      rw [if_pos rfl, if_pos rfl, hword, henc, hdata, List.range'_concat, List.map_append]
      simp
  refine ⟨{ g with dumped := if σ.ddr2.doWritebackDdr2 then g.dumped + 1 else g.dumped }, h.holds,
    ⟨?_, haf, ?_, ?_, hmem, ⟨?_, ?_, ?_, ?_⟩⟩, hcache ▸ h.represents, ⟨?_, enc_ddr2Edge h⟩⟩
  · exact { hordered with
      dumped := hdump'.le
      dumped_first := fun hpos => absurd hpos (by simp [haddressed]) }
  · rw [hpending, hwritten]
    rfl
  · simpa [Sys.ddr2Edge, hvalid] using hrdf
  · simp [Sys.ddr2Edge, hbeats]
  · simp only [Sys.ddr2Edge, hbeats]
    omega
  · simp only [Sys.ddr2Edge, hbeats]
    omega
  · simp [Sys.ddr2Edge, hbeats]
  · refine ⟨haddressed, hrequested, hvictim, ?_, ?_, hdump'⟩
    · simp [Sys.ddr2Edge, Ddr2Regs.step, hvalidR, hread]
    · simp [Sys.ddr2Edge, Ddr2Regs.step, hvalid]

/-- Words come back. -/
theorem ddr2Edge_reading {stage : Stage} {n : ℕ} (h : Linked (.miss L stage) late g m σ)
    (hlate : late ≤ 3) (hfull : e.appWdfAfull = false) (hreading : Reading n g L m σ)
    (hread : stage.seq.doReadfrom = true) (hwrite : stage.seq.doWriteback = false)
    (hline : σ.regs.adrValid L = false) (hknown : 0 < n → stage ≠ .checked ∧ 4 ≤ stage.known)
    (hlink : ∀ g' σ', Reading n g' L m σ' → stage.Link (if σ.ddr2.sample then 0
      else late) g' L m σ') :
    ∃ g', Linked (.miss L stage) (if σ.ddr2.sample then 0 else late) g' m (σ.ddr2Edge e) := by
  obtain ⟨hevicted, hrequested, hdo, hwe, hfill, hdata⟩ := hreading
  obtain ⟨hordered, haf, hwdf, hrdf, hmem, hdelivery⟩ := h.transfer
  have hread' := h.doReadfrom.trans hread
  have hwrite' := h.doWriteback.trans hwrite
  have hdo' : (σ.ddr2Edge e).ddr2.doWritebackDdr2 = false := by
    simp [Sys.ddr2Edge, Ddr2Regs.step, hwrite', hdo]
  have hwe' : (σ.ddr2Edge e).ddr2.doWritebackDdr2FifoWe = false := by
    simp [Sys.ddr2Edge, Ddr2Regs.step, hdo]
  have hpending : (σ.ddr2Edge e).pending = σ.pending := by
    rw [pending_ddr2Edge hfull fun hdo' => absurd hdo' (by simp [hdo]), hdo]
    simp
  have haligned := hdelivery.aligned
  cases hvalid : σ.mig.rdDataValid e.deliver with
  | false =>
    obtain ⟨hbeats, hidle⟩ : σ.mig.beats = 0 ∧ (e.deliver = true → σ.mig.rdf = []) := by
      simpa [Mig.rdDataValid] using hvalid
    have hbeats' : (σ.ddr2Edge e).mig.beats = 0 := by
      simp only [Sys.ddr2Edge, Mig.beatsNext, hbeats]
      cases hdeliver : e.deliver <;> simp_all
    have hram : (σ.ddr2Edge e).ram = σ.ram := by simp [Sys.ddr2Edge, hvalid]
    have hcache : (σ.ddr2Edge e).cache = σ.cache := by
      rw [Sys.cache, hram]
      rfl
    have hfill' : Filling (σ.ddr2Edge e).ddr2 g.received := by
      simp only [Sys.ddr2Edge, hvalid]
      exact hfill.step_wait (by omega) hdo hread'
    refine ⟨g, h.holds, ⟨hordered, haf, hpending.trans hwdf, ?_, hmem, ⟨?_, ?_, ?_, ?_⟩⟩,
      hcache ▸ h.represents, ⟨hlink _ _ ⟨hevicted, hrequested, hdo', hwe', hfill', hram ▸ hdata⟩,
        enc_ddr2Edge h⟩⟩
    · simpa [Sys.ddr2Edge, hvalid] using hrdf
    · omega
    · omega
    · have hle := hordered.received
      omega
    · simp [hbeats']
  | true =>
    have hlt : g.received < 4 * g.fetched := by
      by_contra hge
      have hbeats : σ.mig.beats = 0 := by
        have hle := hdelivery.le
        omega
      have hempty : σ.mig.rdf = [] := by
        rw [hrdf, Nat.sub_eq_zero_of_le (Nat.le_of_not_lt hge)]
        rfl
      exact absurd hvalid (by simp [Mig.rdDataValid, hbeats, hempty])
    have hfetched := hordered.fetched
    have hrequested16 := hordered.requested
    have hword : σ.ddr2.ddr2CacheLineWordAddr = g.received := by
      generalize g.received = w at hfill hlt
      cases hfill with
      | fills hword => exact hword
      | filled => omega
    have henc : σ.ddr2.selectedCacheLineEncDdr2Clk = L := by
      obtain ⟨hstage, hfour⟩ := hknown (by omega)
      exact (h.link.2 hstage).resolve_right fun hle => by omega
    rw [range'_cons (Nat.sub_pos_of_lt hlt), List.map_cons] at hrdf
    have hram : (σ.ddr2Edge e).ram =
        Function.update σ.ram L (setQuad (σ.ram L) g.received (quad (m σ.bus.tag) g.received)) := by
      simp [Sys.ddr2Edge, hvalid, henc, hword, hrdf]
    have hfill' : Filling (σ.ddr2Edge e).ddr2 (g.received + 1) := by
      simp only [Sys.ddr2Edge, hvalid]
      refine hfill.step (by omega) (fun hlast => hdelivery.valid ?_) hread'
      have hlt4 := hdelivery.lt
      omega
    have hdata' : ∀ w : BitVec 8, w.toNat < 4 * (g.received + 1) →
        (σ.ddr2Edge e).ram L w = m σ.bus.tag w := by
      intro w hw
      rw [hram, Function.update_self, setQuad_apply]
      split
      · rfl
      · exact hdata w (by omega)
    have hreading' : Reading n { g with received := g.received + 1 } L m (σ.ddr2Edge e) :=
      ⟨hevicted, hrequested, hdo', hwe', hfill', hdata'⟩
    have hbeats : (σ.ddr2Edge e).mig.beats = if σ.mig.beats = 0 then 3 else σ.mig.beats - 1 :=
      Mig.beatsNext_of_valid hvalid
    refine ⟨{ g with received := g.received + 1 }, h.holds,
      ⟨{ hordered with received := hlt }, haf, hpending.trans hwdf, ?_, hmem, ⟨?_, ?_, ?_, ?_⟩⟩, ?_,
      ⟨hlink _ _ hreading', enc_ddr2Edge h⟩⟩
    · simp only [Sys.ddr2Edge, hvalid, if_true, hrdf, List.tail_cons, Nat.sub_sub]
    · have hlt4 := hdelivery.lt
      rw [hbeats]
      split <;> omega
    · rw [hbeats]
      split <;> simp only <;> omega
    · have hle := hdelivery.le
      rw [hbeats]
      split <;> simp only <;> omega
    · exact fun _ => by simp [Sys.ddr2Edge, Ddr2Regs.step, hvalid]
    · -- the line is not in use
      have hnone : σ.cache.holds L = none := holds_eq_none.mpr hline
      have hcache : (σ.ddr2Edge e).cache = { σ.cache with
          data := Function.update σ.cache.data L
            (setQuad (σ.ram L) g.received (quad (m σ.bus.tag) g.received)) } := by
        rw [Sys.cache, hram]
        rfl
      exact hcache ▸ h.represents.scratch hnone _

/-- **An edge of the other clock.** -/
theorem ddr2Edge (h : Linked p late g m σ) (hlate : late ≤ 3)
    (hrule : e.appWdfAfull = true → 64 < σ.mig.wdf.length) :
    ∃ g', Linked p (if σ.ddr2.sample then 0 else late) g' m (σ.ddr2Edge e) := by
  have hfull := h.transfer.not_wdfAfull hrule
  cases hage : p.age? with
  | some age => exact ⟨g, h.ddr2Edge_rests hlate hage hfull⟩
  | none =>
    cases p with
    | quiet | looked | hit => exact absurd hage (by simp [Phase.age?])
    | miss L stage =>
      cases stage with
      | writeback => exact h.ddr2Edge_dumping hfull
      | readfrom n =>
        exact h.ddr2Edge_reading hlate hfull h.link.1 rfl rfl h.holds.facts.2.2.2.2
          (fun hn => ⟨by simp, by simp only [Stage.known]; omega⟩) fun _ _ => id
      | filled =>
        exact h.ddr2Edge_reading hlate hfull h.link.1 rfl rfl h.holds.facts.2.2.2
          (fun _ => ⟨by simp, by simp only [Stage.known]; omega⟩) fun _ _ => id
      | _ => exact absurd hage (by simp [Phase.age?])

end Linked

end ProbableCause.Ddr2.Cache
