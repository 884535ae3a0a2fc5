import ProbableCause.Ddr2.CacheControl

/-!
# `Ddr2.CachePhases` — how a miss proceeds

A request is looked up in one cycle and checked in the next. If it misses, a line is chosen, written
back if it is dirty, invalidated and filled. `Phase` names the cycles of this, `Goes` says what
follows what, and `Holds` what the registers hold in each phase: the sequencer is a function of the
phase, and the table has the line that the phase is about.

The bus must keep its request until it is acknowledged, and the address of a line for three cycles
(`BusRule`). The address is compared once more in the third of these, although the request may have
been acknowledged in the second.
-/

namespace ProbableCause.Ddr2.Cache

variable {i : Inputs} {b b' : Bus} {s : Regs} {L : Line}

/-! ## Phases -/

/-- The stages of a miss. -/
inductive Stage where
  | checked
  | startWriteback
  | writeback (again : Bool)
  | dataFinished
  | startAddresses
  | writebackAddresses (n : ℕ)
  | writebackDone
  | invalidate
  | invalidated
  | startFill
  | startReadfrom
  | readfrom (n : ℕ)
  | filled
  | fillDone
  | validate
  deriving DecidableEq

/-- What goes on in the cache, and on which line. -/
inductive Phase where
  | quiet
  | looked
  | hit (L : Line)
  | miss (L : Line) (stage : Stage)
  deriving DecidableEq

def Sequencer.quiet : Sequencer :=
  ⟨false, false, false, false, false, false, false, false, false, false, false, false, false, 0⟩

/-- The sequencer in a stage. -/
def Stage.seq : Stage → Sequencer
  | .checked => { Sequencer.quiet with selectedCacheLineNew := true }
  | .startWriteback => { Sequencer.quiet with startWriteback := true }
  | .writeback again => { Sequencer.quiet with doWriteback := true, doWritebackR := again }
  | .dataFinished => { Sequencer.quiet with doWritebackR := true }
  | .startAddresses => { Sequencer.quiet with doWritebackAddresses := true, doAfWrite := true }
  | .writebackAddresses n =>
    { Sequencer.quiet with
      doWritebackAddresses := true, doWritebackAddressesR := true, doAfWrite := true,
      addrCounter := n }
  | .writebackDone => { Sequencer.quiet with doWritebackAddressesR := true }
  | .invalidate => { Sequencer.quiet with invalidateCleanLine := true }
  | .invalidated => { Sequencer.quiet with invalidateCleanLineR := true }
  | .startFill => { Sequencer.quiet with startFill := true }
  | .startReadfrom => { Sequencer.quiet with doReadfrom := true }
  | .readfrom n =>
    { Sequencer.quiet with
      doReadfrom := true, doReadfromR := true, doAfWrite := true, addrCounter := n }
  | .filled => { Sequencer.quiet with doReadfrom := true, doReadfromR := true }
  | .fillDone => { Sequencer.quiet with doReadfromR := true }
  | .validate => Sequencer.quiet

def Phase.seq : Phase → Sequencer
  | .quiet => Sequencer.quiet
  | .looked => { Sequencer.quiet with wbReqNewR := true }
  | .hit _ => { Sequencer.quiet with selectedCacheLineNew := true }
  | .miss _ stage => stage.seq

/-- A line is asked for that no valid line holds. -/
def Table.Absent (t : Table) (b : Bus) : Prop := ∀ k, t.adrValid k = true → t.cachedAdr k ≠ b.tag

/-- What follows a phase. -/
inductive Goes (i : Inputs) (s : Regs) : Phase → Phase → Prop
  | rest (hnew : s.wbReqNew i.bus = false) : Goes i s .quiet .quiet
  | look (hnew : s.wbReqNew i.bus = true) : Goes i s .quiet .looked
  | hit {L : Line} (hvalid : s.adrValid L = true) (htag : s.cachedAdr L = i.bus.tag) :
    Goes i s .looked (.hit L)
  | miss {L : Line} (hchosen : s.selectedCacheLineFromMiss = .only L) (habsent : s.Absent i.bus) :
    Goes i s .looked (.miss L .checked)
  | served {L : Line} : Goes i s (.hit L) .quiet
  | dirty {L : Line} (hvalid : s.adrValid L = true) (hdirty : s.linesDirty L = true) :
    Goes i s (.miss L .checked) (.miss L .startWriteback)
  | clean {L : Line} (hvalid : s.adrValid L = true) (hdirty : s.linesDirty L = false) :
    Goes i s (.miss L .checked) (.miss L .invalidate)
  | empty {L : Line} (hvalid : s.adrValid L = false) :
    Goes i s (.miss L .checked) (.miss L .startFill)
  | startWriteback {L : Line} (hdone : i.ddr2WriteDone = false) :
    Goes i s (.miss L .startWriteback) (.miss L (.writeback false))
  | writeback {L : Line} {again : Bool} (hdone : i.ddr2WriteDone = false) :
    Goes i s (.miss L (.writeback again)) (.miss L (.writeback true))
  | written {L : Line} {again : Bool} (hdone : i.ddr2WriteDone = true) :
    Goes i s (.miss L (.writeback again)) (.miss L .dataFinished)
  | dataFinished {L : Line} : Goes i s (.miss L .dataFinished) (.miss L .startAddresses)
  | startAddresses {L : Line} : Goes i s (.miss L .startAddresses) (.miss L (.writebackAddresses 0))
  | addressWait {L : Line} {n : ℕ} (hn : n < 15) (hfull : i.appAfAfull = true) :
    Goes i s (.miss L (.writebackAddresses n)) (.miss L (.writebackAddresses n))
  | address {L : Line} {n : ℕ} (hn : n < 15) (hfull : i.appAfAfull = false) :
    Goes i s (.miss L (.writebackAddresses n)) (.miss L (.writebackAddresses (n + 1)))
  | addressLast {L : Line} (hfull : i.appAfAfull = false) :
    Goes i s (.miss L (.writebackAddresses 15)) (.miss L .writebackDone)
  | writebackDone {L : Line} : Goes i s (.miss L .writebackDone) (.miss L .startFill)
  | invalidate {L : Line} : Goes i s (.miss L .invalidate) (.miss L .invalidated)
  | invalidated {L : Line} : Goes i s (.miss L .invalidated) (.miss L .startFill)
  | startFill {L : Line} (hdone : i.ddr2ReadDone = false) :
    Goes i s (.miss L .startFill) (.miss L .startReadfrom)
  | startReadfrom {L : Line} (hdone : i.ddr2ReadDone = false) :
    Goes i s (.miss L .startReadfrom) (.miss L (.readfrom 0))
  | readWait {L : Line} {n : ℕ} (hdone : i.ddr2ReadDone = false) (hn : n < 15)
  (hfull : i.appAfAfull = true) :
    Goes i s (.miss L (.readfrom n)) (.miss L (.readfrom n))
  | read {L : Line} {n : ℕ} (hdone : i.ddr2ReadDone = false) (hn : n < 15)
  (hfull : i.appAfAfull = false) :
    Goes i s (.miss L (.readfrom n)) (.miss L (.readfrom (n + 1)))
  | readLast {L : Line} (hdone : i.ddr2ReadDone = false) (hfull : i.appAfAfull = false) :
    Goes i s (.miss L (.readfrom 15)) (.miss L .filled)
  | fillWait {L : Line} (hdone : i.ddr2ReadDone = false) :
    Goes i s (.miss L .filled) (.miss L .filled)
  | filled {L : Line} (hdone : i.ddr2ReadDone = true) : Goes i s (.miss L .filled) (.miss L .fillDone)
  | fillDone {L : Line} : Goes i s (.miss L .fillDone) (.miss L .validate)
  | validate {L : Line} : Goes i s (.miss L .validate) .quiet

/-! ## Rules of the bus and of the other clock domain -/

/-- A cycle goes on at the word `lower`. -/
structure Bus.GoesOn (b : Bus) (lower : BitVec 4) (b' : Bus) : Prop where
  upper : b'.upper = b.upper
  lower : b'.lower = lower
  bte : b'.wbBteI = b.wbBteI
  we : b'.wbWeI = b.wbWeI

/-- A request is kept until it is acknowledged, in a burst until its last word is: there are no wait
states inside a burst. It stays in one line, whose address is kept for two more cycles after the
first. A burst wraps around in four, eight or sixteen words as `wb_bte_i` says. The registers do not
count on in a linear burst (`wb_bte_i` is `0`), so those are left out: the address would have to
stay where it is. -/
structure BusRule (b : Bus) (s : Regs) (b' : Bus) : Prop where
  continues : b.wbReq = true → (s.wbAckO = true → s.wbBursting = true ∧ b.wbCtiI ≠ 0b111) →
    b'.wbReq = true
  sameLine : b.wbReq = true → b'.wbReq = true → b'.tag = b.tag
  held : s.wbReqNew b = true ∨ s.wbReqNewR = true → b'.tag = b.tag
  waits : b.wbReq = true → s.wbAckO = false → b.GoesOn b.lower b' ∧ b'.wbCtiI = b.wbCtiI
  bursts : s.wbAckO = true → s.wbBursting = true → b.wbCtiI ≠ 0b111 →
    b.GoesOn (burstNext b.wbBteI b.lower) b'

/-- Nothing is answered before it is asked for, and the last address finds room. -/
def Stage.Answers (i : Inputs) : Stage → Prop
  | .startWriteback => i.ddr2WriteDone = false
  | .startFill | .startReadfrom => i.ddr2ReadDone = false
  | .writebackAddresses n => n = 15 → i.appAfAfull = false
  | .readfrom n => i.ddr2ReadDone = false ∧ (n = 15 → i.appAfAfull = false)
  | _ => True

def Phase.Answers (i : Inputs) : Phase → Prop
  | .miss _ stage => stage.Answers i
  | _ => True

/-! ## What holds in a phase -/

/-- The line is selected and its memory is addressed. -/
structure Selected (L : Line) (s : Regs) : Prop where
  r : s.selectedCacheLineR = .only L
  r2 : s.selectedCacheLineR2 = .only L
  enc : s.selectedCacheLineEnc = L

/-- The line serves what the bus asks for. -/
structure Serves (L : Line) (b : Bus) (s : Regs) : Prop where
  selected : s.selectedCacheLineR = .only L
  selected2 : s.selectedCacheLineR2 = .only L
  enc : s.selectedCacheLineEnc = L
  valid : s.adrValid L = true
  cachedAdr : s.cachedAdr L = b.tag

/-- A burst addresses the word of the bus, or the next one where the bus has been given its word. -/
structure Bursts (b : Bus) (s : Regs) : Prop where
  cti : s.wbAckO = false → b.wbCtiI = 0b010
  burstAddr : s.wbBurstAddr = if s.wbAckO && !b.wbWeI then burstNext b.wbBteI b.lower else b.lower

/-- The request waits for the line. -/
structure Misses (L : Line) (b : Bus) (s : Regs) : Prop where
  wbReqR : s.wbReqR = true
  wbReq : b.wbReq = true
  wbAckO : s.wbAckO = false
  selected : s.selectedCacheLineR = .only L
  absent : s.Absent b

/-- No line is validated or invalidated. -/
structure Settled (s : Regs) : Prop where
  validate : s.cacheLineValidate = .none
  invalidate : s.cacheLineInvalidate = .none

/-- The line in a stage of a miss. -/
def Stage.Facts (L : Line) (s : Regs) : Stage → Prop
  | .checked => Settled s ∧ s.selectedCacheLineR2 = .none
  | .startWriteback | .writeback _ | .dataFinished | .startAddresses | .writebackDone =>
    Settled s ∧ Selected L s ∧ s.adrValid L = true ∧ s.linesDirty L = true
  | .writebackAddresses n =>
    n < 16 ∧ Settled s ∧ Selected L s ∧ s.adrValid L = true ∧ s.linesDirty L = true
  | .invalidate => Settled s ∧ Selected L s ∧ s.adrValid L = true ∧ s.linesDirty L = false
  | .invalidated =>
    s.cacheLineValidate = .none ∧ s.cacheLineInvalidate = .only L ∧ Selected L s ∧
      s.linesDirty L = false
  | .startFill =>
    s.cacheLineValidate = .none ∧ Selected L s ∧ s.linesDirty L = false ∧
      (s.adrValid L = false ∧ s.cacheLineInvalidate = .none ∨ s.cacheLineInvalidate = .only L)
  | .startReadfrom | .filled | .fillDone => Settled s ∧ Selected L s ∧ s.adrValid L = false
  | .readfrom n => n < 16 ∧ Settled s ∧ Selected L s ∧ s.adrValid L = false
  | .validate =>
    s.cacheLineValidate = .only L ∧ s.cacheLineInvalidate = .none ∧ Selected L s ∧
      s.adrValid L = false

def Phase.Facts (b : Bus) (s : Regs) : Phase → Prop
  | .quiet =>
    Settled s ∧ (s.wbReqR = false ∧ s.selectedCacheLineR = .none ∧ s.selectedCacheLineR2 = .none ∨
      ∃ L, Selected L s ∧
        (s.wbReqR = true → s.adrValid L = true ∧ (b.wbReq = true → s.cachedAdr L = b.tag)))
  | .looked =>
    Settled s ∧ s.wbReqR = true ∧ b.wbReq = true ∧
      s.selectedCacheLineR = s.adrValid.and (s.cacheLineHit b) ∧
        (s.selectedCacheLineR2 = .none ∨ ∃ L,
          s.selectedCacheLineR2 = .only L ∧ s.selectedCacheLineEnc = L)
  | .hit L => Settled s ∧ s.wbReqR = true ∧ Selected L s ∧ s.adrValid L = true ∧ s.cachedAdr L = b.tag
  | .miss L stage => Misses L b s ∧ stage.Facts L s

/-- What holds in every phase: no two lines hold the same, what is dirty is valid, and an
acknowledged request is served by the line that is addressed. -/
structure Sound (b : Bus) (s : Regs) : Prop where
  unique : ∀ j k, s.adrValid j = true → s.adrValid k = true → s.cachedAdr j = s.cachedAdr k → j = k
  valid_of_dirty : ∀ k, s.linesDirty k = true → s.adrValid k = true
  fromMiss : ∃ L, s.selectedCacheLineFromMiss = .only L
  ack : s.wbAckO = true → b.wbReq = true ∧ s.wbReqR = true ∧ ∃ L, Serves L b s
  bursting : b.wbReq = false ∨ s.wbReqR = false → s.wbBursting = false
  ackR : s.wbReqR = false → s.wbAckOR = false
  burst : s.wbBursting = true → Bursts b s

structure Holds (p : Phase) (b : Bus) (s : Regs) : Prop where
  sound : Sound b s
  seq : s.toSequencer = p.seq
  facts : p.Facts b s

/-! ## The next registers -/

section
variable (hrst : i.wbRst = false)
include hrst

theorem adrValid_step (hvalidate : s.cacheLineValidate = .none) (k : Line) :
    (step i s).adrValid k = (s.adrValid k && !s.cacheLineInvalidate k) := by
  cases h : s.cacheLineInvalidate k <;> simp [step, Table.step, hrst, hvalidate, h]

theorem cachedAdr_step (hvalidate : s.cacheLineValidate = .none) :
    (step i s).cachedAdr = s.cachedAdr := by
  simp [step, Table.step, hrst, hvalidate]

theorem selected_step_of_look (hnew : s.wbReqNew i.bus = true) :
    (step i s).selectedCacheLineR = s.adrValid.and (s.cacheLineHit i.bus) := by
  simp [step, Table.step, hrst, hnew]

theorem selected_step_of_keep (hnew : s.wbReqNew i.bus = false)
    (hkeep : s.wbReqNewR = false ∨ s.selectedCacheLineR.any = true) :
    (step i s).selectedCacheLineR = s.selectedCacheLineR := by
  rcases hkeep with h | h <;> simp [step, Table.step, hrst, hnew, h]

theorem dirty_step (k : Line) (h : (step i s).linesDirty k = true) :
    s.linesDirty k = true ∨ s.wbAckO = true ∧ s.selectedCacheLineR k = true := by
  simp only [step, Table.step, hrst, Bool.false_eq_true, if_false] at h
  split at h
  · next hwrite =>
    have hack : s.wbAckO = true := by
      simp only [Regs.cacheWrite, Bool.and_eq_true] at hwrite
      exact hwrite.2
    rcases Bool.or_eq_true _ _ ▸ h with h | h
    · exact .inl h
    · exact .inr ⟨hack, h⟩
  · split at h
    · exact .inl ((Bool.and_eq_true _ _ ▸ h : _ ∧ _).1)
    · exact .inl h

end

theorem enc_step_of_selected (h : s.selectedCacheLineR = .only L) :
    (step i s).selectedCacheLineEnc = L := by
  simp [step, Table.step, h, Lines.first?_only]

theorem wbReqR_step : (step i s).wbReqR = i.bus.wbReq := rfl

theorem wbReqNew_of_wbReqR (h : s.wbReqR = true) : s.wbReqNew b = false := by simp [Regs.wbReqNew, h]

/-- The valid line that holds what is asked for is the only one. -/
theorem looked_eq_only (hunique : ∀ j k, s.adrValid j = true → s.adrValid k = true →
    s.cachedAdr j = s.cachedAdr k → j = k) (hvalid : s.adrValid L = true) (htag :
      s.cachedAdr L = b.tag) : s.adrValid.and (s.cacheLineHit b) = .only L := by
  funext k
  by_cases hk : k = L
  · subst hk
    simp [Lines.and, Table.cacheLineHit, hvalid, htag]
  · rw [Lines.only_of_ne hk]
    refine Bool.eq_false_iff.mpr fun h => hk ?_
    obtain ⟨hvalid', htag'⟩ : s.adrValid k = true ∧ b.tag = s.cachedAdr k := by
      simpa [Lines.and, Table.cacheLineHit] using h
    exact hunique k L hvalid' hvalid (htag'.symm.trans htag.symm)

theorem looked_eq_none (habsent : s.Absent b) : s.adrValid.and (s.cacheLineHit b) = .none := by
  funext k
  refine Bool.eq_false_iff.mpr fun h => ?_
  obtain ⟨hvalid, htag⟩ : s.adrValid k = true ∧ b.tag = s.cachedAdr k := by
    simpa [Lines.and, Table.cacheLineHit] using h
  exact habsent k hvalid htag.symm

theorem wbReqAddrHit_eq (h2 : s.selectedCacheLineR2 = .only L) :
    s.wbReqAddrHit b = true ↔ b.wbReq = true ∧ b.tag = s.cachedAdr L ∧ s.adrValid L = true := by
  simp [Table.wbReqAddrHit, h2, Table.cacheLineHit, and_assoc]

theorem not_wbReqAddrHit (h2 : s.selectedCacheLineR2 = .none) : s.wbReqAddrHit b = false := by
  simp [Table.wbReqAddrHit, h2]

/-- What the lines hold. -/
def Table.holds (t : Table) (k : Line) : Option Tag :=
  if t.adrValid k then some (t.cachedAdr k) else none

theorem holds_eq_some {t : Table} {k : Line} {tag : Tag} :
    t.holds k = some tag ↔ t.adrValid k = true ∧ t.cachedAdr k = tag := by
  cases h : t.adrValid k <;> simp [Table.holds, h]

theorem holds_eq_none {t : Table} {k : Line} : t.holds k = none ↔ t.adrValid k = false := by
  cases h : t.adrValid k <;> simp [Table.holds, h]

theorem Table.Absent.holds_ne {t : Table} (h : t.Absent b) (k : Line) : t.holds k ≠ some b.tag :=
  fun hk =>
  have ⟨hvalid, htag⟩ := holds_eq_some.mp hk
  h k hvalid htag

/-- No line is validated: only what is invalidated is lost. -/
theorem holds_step (hrst : i.wbRst = false) (hvalidate : s.cacheLineValidate = .none) (k : Line) :
    (step i s).holds k = if s.cacheLineInvalidate k then none else s.holds k := by
  have hvalid := adrValid_step (i := i) hrst hvalidate k
  have hadr := congrFun (cachedAdr_step (i := i) hrst hvalidate) k
  cases hinval : s.cacheLineInvalidate k <;> simp [Table.holds, hvalid, hadr, hinval]

/-! ## What holds in every phase is kept -/

variable {p p' : Phase}

theorem Stage.Facts.validate {stage : Stage} (h : stage.Facts L s) (hstage : stage ≠ .validate) :
    s.cacheLineValidate = .none := by
  cases stage with
  | checked | startWriteback | writeback | dataFinished | startAddresses | writebackDone
  | invalidate | startReadfrom | filled | fillDone => exact h.1.validate
  | writebackAddresses | readfrom => exact h.2.1.validate
  | invalidated | startFill => exact h.1
  | validate => exact absurd rfl hstage

theorem Holds.validate_eq (h : Holds p b s) :
    s.cacheLineValidate = .none ∨
      ∃ L, s.cacheLineValidate = .only L ∧ s.cacheLineInvalidate = .none ∧ Misses L b s := by
  obtain ⟨-, -, hfacts⟩ := h
  cases p with
  | quiet | looked | hit => exact .inl hfacts.1.validate
  | miss L stage =>
    by_cases hstage : stage = .validate
    · subst hstage
      exact .inr ⟨L, hfacts.2.1, hfacts.2.2.1, hfacts.1⟩
    · exact .inl (hfacts.2.validate hstage)

/-- A line that is invalidated is clean, and nothing is acknowledged. -/
theorem Holds.invalidate_eq (h : Holds p b s) :
    s.cacheLineInvalidate = .none ∨
      ∃ L, s.cacheLineInvalidate = .only L ∧ s.linesDirty L = false ∧ s.wbAckO = false := by
  obtain ⟨-, -, hfacts⟩ := h
  cases p with
  | quiet | looked | hit => exact .inl hfacts.1.invalidate
  | miss L stage =>
    obtain ⟨hmiss, hfacts⟩ := hfacts
    cases stage with
    | checked | startWriteback | writeback | dataFinished | startAddresses | writebackDone
    | invalidate | startReadfrom | filled | fillDone => exact .inl hfacts.1.invalidate
    | writebackAddresses | readfrom => exact .inl hfacts.2.1.invalidate
    | invalidated => exact .inr ⟨L, hfacts.2.1, hfacts.2.2.2, hmiss.wbAckO⟩
    | startFill => exact hfacts.2.2.2.imp And.right fun h => ⟨L, h, hfacts.2.2.1, hmiss.wbAckO⟩
    | validate => exact .inl hfacts.2.1

theorem Stage.Facts.selected {stage : Stage} (h : stage.Facts L s) (hstage : stage ≠ .checked) :
    Selected L s := by
  cases stage with
  | checked => exact absurd rfl hstage
  | startWriteback | writeback | dataFinished | startAddresses | writebackDone | invalidate
  | startReadfrom | filled | fillDone | startFill => exact h.2.1
  | writebackAddresses | readfrom | validate | invalidated => exact h.2.2.1

theorem Stage.Facts.selected2 {stage : Stage} (h : stage.Facts L s) :
    s.selectedCacheLineR2 = .none ∨ s.selectedCacheLineR2 = .only L := by
  by_cases hstage : stage = .checked
  · subst hstage
    exact .inl h.2
  · exact .inr (h.selected hstage).r2

theorem Misses.not_wbReqAddrHit (hmiss : Misses L b s)
    (h2 : s.selectedCacheLineR2 = .none ∨ s.selectedCacheLineR2 = .only L) :
      s.wbReqAddrHit b = false := by
  rcases h2 with h2 | h2
  · exact Cache.not_wbReqAddrHit h2
  · exact Bool.eq_false_iff.mpr fun hhit =>
      have ⟨_, htag, hvalid⟩ := (wbReqAddrHit_eq h2).mp hhit
      hmiss.absent L hvalid htag.symm

/-- What is about to be acknowledged is served by a line, which stays selected. -/
theorem Holds.serves (h : Holds p i.bus s) (hrst : i.wbRst = false)
    (hhit : s.wbReqAddrHit i.bus = true) :
    ∃ L, Serves L i.bus s ∧ Settled s ∧ s.wbCacheEn = true ∧
      (step i s).selectedCacheLineR = .only L := by
  obtain ⟨hsound, hseq, hfacts⟩ := h
  cases p with
  | quiet =>
    obtain ⟨hset, ⟨-, -, h2⟩ | ⟨L, hsel, hserve⟩⟩ := hfacts
    · exact absurd hhit (by simp [not_wbReqAddrHit h2])
    · obtain ⟨hreq, htag, hvalid⟩ := (wbReqAddrHit_eq hsel.r2).mp hhit
      refine ⟨L, ⟨hsel.r, hsel.r2, hsel.enc, hvalid, htag.symm⟩, hset, by rw [hseq]; rfl, ?_⟩
      cases hr : s.wbReqR with
      | false =>
        rw [selected_step_of_look hrst (by simp [Regs.wbReqNew, hreq, hr])]
        exact looked_eq_only hsound.unique hvalid htag.symm
      | true =>
        rw [selected_step_of_keep hrst (wbReqNew_of_wbReqR hr) (.inl (by rw [hseq]; rfl)), hsel.r]
  | looked =>
    obtain ⟨hset, hr, hreq, hlook, h2 | ⟨L, h2, henc⟩⟩ := hfacts
    · exact absurd hhit (by simp [not_wbReqAddrHit h2])
    · obtain ⟨-, htag, hvalid⟩ := (wbReqAddrHit_eq h2).mp hhit
      have hsel : s.selectedCacheLineR = .only L :=
        hlook.trans (looked_eq_only hsound.unique hvalid htag.symm)
      have hselected := selected_step_of_keep hrst (wbReqNew_of_wbReqR hr)
        (.inr (by rw [hsel]; exact Lines.any_only))
      exact ⟨L, ⟨hsel, h2, henc, hvalid, htag.symm⟩, hset, by rw [hseq]; rfl, hselected.trans hsel⟩
  | hit L =>
    obtain ⟨hset, hr, hsel, hvalid, htag⟩ := hfacts
    have hselected := selected_step_of_keep hrst (wbReqNew_of_wbReqR (b := i.bus) hr)
      (.inl (by rw [hseq]; rfl))
    exact ⟨L, ⟨hsel.r, hsel.r2, hsel.enc, hvalid, htag⟩, hset, by rw [hseq]; rfl,
      hselected.trans hsel.r⟩
  | miss L stage =>
    exact absurd hhit (by simp [hfacts.1.not_wbReqAddrHit hfacts.2.selected2])

theorem wbReqAddrHit_of_wbAckO (hrst : i.wbRst = false) (hack : (step i s).wbAckO = true) :
    s.wbReqAddrHit i.bus = true ∧
      (s.wbAckO = true → s.wbBursting = true ∧ i.bus.wbCtiI ≠ 0b111) := by
  simp only [step, Port.step, hrst, Bool.false_eq_true, if_false, Bool.and_eq_true, Bool.or_eq_true,
    Bool.not_eq_true', beq_eq_false_iff_ne, ne_eq] at hack
  refine ⟨hack.1, fun hacked => ?_⟩
  rcases hack.2 with h | h
  · exact absurd hacked (by simp [h.1.2])
  · exact h

/-- When a burst is on after an edge: it begins there, or it was on and has not ended. -/
theorem wbBursting_step (hrst : i.wbRst = false) (h : (step i s).wbBursting = true) :
    s.wbReqNew i.bus = true ∧ i.bus.wbCtiI = 0b010 ∨
      s.wbBursting = true ∧ s.wbReqNew i.bus = false ∧ (s.wbAckO = true → i.bus.wbCtiI ≠ 0b111) := by
  simp only [step, Port.step, hrst, Bool.false_eq_true, if_false] at h
  split at h
  · cases h
  · next hlast =>
    split at h
    · next hnew => exact .inl ⟨hnew, eq_of_beq h⟩
    · next hnew =>
      exact .inr ⟨h, Bool.not_eq_true _ ▸ hnew, fun hacked hcti => hlast (by simp [hacked, hcti])⟩

/-- A burst begins at the word of the bus. Where that word is taken over in this cycle, the next one
is addressed. -/
theorem Holds.bursts_begin (h : Holds p i.bus s) (hrst : i.wbRst = false) (hrule : BusRule i.bus s b')
    (hnew : s.wbReqNew i.bus = true) (hcti : i.bus.wbCtiI = 0b010) : Bursts b' (step i s) := by
  obtain ⟨hreq, hr⟩ : i.bus.wbReq = true ∧ s.wbReqR = false := by simpa [Regs.wbReqNew] using hnew
  have hack : s.wbAckO = false := Bool.eq_false_iff.mpr fun hack =>
    by simpa [hr] using (h.sound.ack hack).2.1
  have hackR := h.sound.ackR hr
  have hquiet := h.sound.bursting (.inr hr)
  obtain ⟨hgoes, hcti'⟩ := hrule.waits hreq hack
  have hack' : (step i s).wbAckO = s.wbReqAddrHit i.bus := by
    simp [step, Port.step, hrst, hack, hackR, hquiet]
  refine ⟨fun _ => hcti'.trans hcti, ?_⟩
  rw [hack', hgoes.we, hgoes.bte, hgoes.lower]
  cases hhit : s.wbReqAddrHit i.bus <;> cases hwe : i.bus.wbWeI <;> simp [step, Port.step, hrst,
    hnew, hhit, hwe]

/-- A burst goes on, with the next word after each word that is taken over. -/
theorem Holds.bursts_keep (h : Holds p i.bus s) (hrst : i.wbRst = false) (hrule : BusRule i.bus s b')
    (hbursting : s.wbBursting = true) (hnew : s.wbReqNew i.bus = false)
    (hlast : s.wbAckO = true → i.bus.wbCtiI ≠ 0b111) : Bursts b' (step i s) := by
  obtain ⟨hcti, hburst⟩ := h.sound.burst hbursting
  have hreq : i.bus.wbReq = true :=
    Bool.eq_true_of_not_eq_false fun hreq => by simpa [hbursting] using h.sound.bursting (.inl hreq)
  cases hack : s.wbAckO with
  | true =>
    obtain ⟨-, -, L, hserves⟩ := h.sound.ack hack
    have hhit : s.wbReqAddrHit i.bus = true :=
      (wbReqAddrHit_eq hserves.selected2).mpr ⟨hreq, hserves.cachedAdr.symm, hserves.valid⟩
    have hgoes := hrule.bursts hack hbursting (hlast hack)
    have hack' : (step i s).wbAckO = true := by
      simpa [step, Port.step, hrst, hhit, hbursting] using hlast hack
    refine ⟨fun h => absurd hack' (by simp [h]), ?_⟩
    rw [hack', hgoes.we, hgoes.bte, hgoes.lower]
    rw [hack] at hburst
    have haddr : (step i s).wbBurstAddr = burstNext i.bus.wbBteI s.wbBurstAddr := by
      simp [step, Port.step, hrst, hnew, Regs.wbBurstAddrIncr, hhit, hack]
    rw [haddr, hburst]
    cases i.bus.wbWeI <;> rfl
  | false =>
    obtain ⟨hgoes, hcti'⟩ := hrule.waits hreq hack
    have hcti010 := hcti hack
    have hack' : (step i s).wbAckO = s.wbReqAddrHit i.bus := by
      simp [step, Port.step, hrst, hbursting, hcti010]
    refine ⟨fun _ => hcti'.trans hcti010, ?_⟩
    rw [hack', hgoes.we, hgoes.bte, hgoes.lower]
    rw [hack, Bool.false_and, if_neg Bool.false_ne_true] at hburst
    cases hhit : s.wbReqAddrHit i.bus <;> cases hwe : i.bus.wbWeI <;>
      simp [step, Port.step, hrst, hnew, Regs.wbBurstAddrIncr, hhit, hwe, hack, hburst]

/-- What is written is written at the word of the bus. -/
theorem Sound.wbCacheAdr_of_write (h : Sound b s) (hwe : b.wbWeI = true) :
    s.wbCacheAdr b = b.word := by
  rw [Regs.wbCacheAdr, Bus.word]
  cases hbursting : s.wbBursting with
  | false => rfl
  | true =>
    have haddr := (h.burst hbursting).burstAddr
    rw [hwe, Bool.not_true, Bool.and_false, if_neg Bool.false_ne_true] at haddr
    rw [if_pos rfl, haddr]

/-- What is read for an acknowledgement is the word of the bus in the cycle of that. -/
theorem Holds.wbCacheAdr_of_read (h : Holds p i.bus s) (hrst : i.wbRst = false)
    (hrule : BusRule i.bus s b') (hack : (step i s).wbAckO = true) (hread : b'.wbWeI = false) :
    i.bus.wbWeI = false ∧ b'.tag = i.bus.tag ∧ s.wbCacheAdr i.bus = b'.word := by
  obtain ⟨hhit, hcontinues⟩ := wbReqAddrHit_of_wbAckO hrst hack
  have hreq : i.bus.wbReq = true := by
    obtain ⟨L, hserves, -⟩ := h.serves hrst hhit
    exact ((wbReqAddrHit_eq hserves.selected2).mp hhit).1
  have htag := hrule.sameLine hreq (hrule.continues hreq hcontinues)
  cases hacked : s.wbAckO with
  | true =>
    -- in a burst the next word is read while the bus is given the one before
    obtain ⟨hbursting, hcti⟩ := hcontinues hacked
    have hgoes := hrule.bursts hacked hbursting hcti
    have hwe := hgoes.we.symm.trans hread
    have haddr := (h.sound.burst hbursting).burstAddr
    rw [hacked, hwe, Bool.not_false, Bool.and_true, if_pos rfl] at haddr
    refine ⟨hwe, htag, ?_⟩
    rw [Regs.wbCacheAdr, hbursting, if_pos rfl, haddr, Bus.word, hgoes.upper, hgoes.lower]
  | false =>
    obtain ⟨hgoes, -⟩ := hrule.waits hreq hacked
    refine ⟨hgoes.we.symm.trans hread, htag, ?_⟩
    rw [Regs.wbCacheAdr, Bus.word, hgoes.upper, hgoes.lower]
    cases hbursting : s.wbBursting with
    | false => rfl
    | true =>
      have haddr := (h.sound.burst hbursting).burstAddr
      rw [hacked, Bool.false_and, if_neg Bool.false_ne_true] at haddr
      rw [if_pos rfl, haddr]

theorem Sound.step (h : Holds p i.bus s) (hrst : i.wbRst = false) (hrule : BusRule i.bus s b') :
    Sound b' (step i s) where
  unique := by
    have hunique := h.sound.unique
    rcases h.validate_eq with hval | ⟨L, hval, hinval, hmiss⟩
    · intro j k hj hk hjk
      rw [adrValid_step hrst hval, Bool.and_eq_true] at hj hk
      rw [cachedAdr_step hrst hval] at hjk
      exact hunique j k hj.1 hk.1 hjk
    · -- the line that is validated gets the address that no valid line has
      have hvalid : ∀ k, (Cache.step i s).adrValid k = true → k ≠ L → s.adrValid k = true :=
        fun k hk hne => by
        simpa [Cache.step, Table.step, hrst, hval, hinval, hne] using hk
      have htag : ∀ k, k ≠ L → (Cache.step i s).cachedAdr k = s.cachedAdr k := fun k hne => by
        simp [Cache.step, Table.step, hrst, hval, hne]
      have htagL : (Cache.step i s).cachedAdr L = i.bus.tag := by
        simp [Cache.step, Table.step, hrst, hval]
      intro j k hj hk hjk
      by_cases hjL : j = L <;> by_cases hkL : k = L
      · rw [hjL, hkL]
      · rw [hjL, htagL, htag k hkL] at hjk
        exact absurd hjk.symm (hmiss.absent k (hvalid k hk hkL))
      · rw [hkL, htagL, htag j hjL] at hjk
        exact absurd hjk (hmiss.absent j (hvalid j hj hjL))
      · rw [htag j hjL, htag k hkL] at hjk
        exact hunique j k (hvalid j hj hjL) (hvalid k hk hkL) hjk
  valid_of_dirty k hk := by
    obtain ⟨-, hdirty, -, hack, -, -, -⟩ := h.sound
    have hvalid : s.adrValid k = true := by
      rcases dirty_step hrst k hk with hk | ⟨hacked, hsel⟩
      · exact hdirty k hk
      · obtain ⟨-, -, L, hserves⟩ := hack hacked
        rw [hserves.selected, Lines.only_eq_true] at hsel
        exact hsel ▸ hserves.valid
    rcases h.validate_eq with hval | ⟨L, hval, hinval, -⟩
    · rw [adrValid_step hrst hval, hvalid, Bool.true_and, Bool.not_eq_true']
      rcases h.invalidate_eq with hinval | ⟨L, hinval, hclean, hnack⟩
      · rw [hinval, Lines.none_apply]
      · refine hinval ▸ Lines.only_of_ne fun hkL => ?_
        rcases dirty_step hrst k hk with hk | ⟨hacked, -⟩
        · exact absurd hk (by simp [hkL, hclean])
        · exact absurd hacked (by simp [hnack])
    · simp [Cache.step, Table.step, hrst, hval, hinval, hvalid]
  fromMiss := by
    obtain ⟨L, hL⟩ := h.sound.fromMiss
    simp only [Cache.step, Table.step, hrst, Bool.false_eq_true, if_false]
    split
    · rw [hL]
      exact Lines.rotate_only L
    · exact ⟨L, hL⟩
  ack hack := by
    obtain ⟨hhit, hcontinues⟩ := wbReqAddrHit_of_wbAckO hrst hack
    obtain ⟨L, hserves, hset, -, hsel⟩ := h.serves hrst hhit
    obtain ⟨hreq, -, hvalid⟩ := (wbReqAddrHit_eq hserves.selected2).mp hhit
    have hreq' := hrule.continues hreq hcontinues
    refine ⟨hreq', hreq, L, hsel, hserves.selected, enc_step_of_selected hserves.selected, ?_, ?_⟩
    · rw [adrValid_step hrst hset.validate, hset.invalidate, hvalid]
      rfl
    · rw [cachedAdr_step hrst hset.validate, hserves.cachedAdr, hrule.sameLine hreq hreq']
  bursting hend := by
    obtain ⟨-, -, -, hack, hbursting, -, -⟩ := h.sound
    have hnext : s.wbReqNew i.bus = false → s.wbBursting = false ∨
        s.wbAckO = true ∧ i.bus.wbCtiI = 0b111 → (Cache.step i s).wbBursting = false :=
          fun hnew h => by
      rcases h with h | ⟨hacked, hcti⟩
      · simp [Cache.step, Port.step, hrst, hnew, h]
      · simp [Cache.step, Port.step, hrst, hacked, hcti]
    cases hreq : i.bus.wbReq with
    | false => exact hnext (by simp [Regs.wbReqNew, hreq]) (.inl (hbursting (.inl hreq)))
    | true =>
      have hreq' : b'.wbReq = false := hend.elim id fun h => absurd h (by simp [wbReqR_step, hreq])
      -- a request ends with its last acknowledgement only
      by_cases hlast : s.wbAckO = true → s.wbBursting = true ∧ i.bus.wbCtiI ≠ 0b111
      · exact absurd (hrule.continues hreq hlast) (by simp [hreq'])
      · obtain ⟨hacked, hlast⟩ := Classical.not_imp.mp hlast
        refine hnext (wbReqNew_of_wbReqR (hack hacked).2.1) ?_
        cases hb : s.wbBursting with
        | false => exact .inl rfl
        | true => exact .inr ⟨hacked, Classical.not_not.mp fun hcti => hlast ⟨hb, hcti⟩⟩
  ackR hreq := Bool.eq_false_iff.mpr fun hacked => by
    have hreq' := (h.sound.ack hacked).1
    rw [wbReqR_step] at hreq
    exact absurd hreq (by simp [hreq'])
  burst hb := by
    rcases wbBursting_step hrst hb with ⟨hnew, hcti⟩ | ⟨hbursting, hnew, hlast⟩
    · exact h.bursts_begin hrst hrule hnew hcti
    · exact h.bursts_keep hrst hrule hbursting hnew hlast

/-! ## From phase to phase -/

theorem Stage.seq_wbReqNewR (stage : Stage) : stage.seq.wbReqNewR = false := by cases stage <;> rfl

/-- A miss waits on, with its line selected. -/
theorem Misses.step {stage : Stage} (hmiss : Misses L i.bus s) (hseq : s.toSequencer = stage.seq)
    (hfacts : stage.Facts L s) (hvalidate : s.cacheLineValidate = .none) (hrst : i.wbRst = false)
    (hrule : BusRule i.bus s b') : Misses L b' (step i s) ∧ Selected L (step i s) := by
  have hreq' := hrule.continues hmiss.wbReq fun hack => absurd hack (by simp [hmiss.wbAckO])
  have htag := hrule.sameLine hmiss.wbReq hreq'
  have hselected : (Cache.step i s).selectedCacheLineR = .only L :=
    (selected_step_of_keep hrst (wbReqNew_of_wbReqR hmiss.wbReqR)
      (.inl (by rw [hseq, stage.seq_wbReqNewR]))).trans
      hmiss.selected
  refine ⟨⟨hmiss.wbReq, hreq', ?_, hselected, fun k hk => ?_⟩, hselected, hmiss.selected,
    enc_step_of_selected hmiss.selected⟩
  · simp [Cache.step, Port.step, hmiss.not_wbReqAddrHit hfacts.selected2]
  · rw [adrValid_step hrst hvalidate, Bool.and_eq_true] at hk
    rw [cachedAdr_step hrst hvalidate, htag]
    exact hmiss.absent k hk.1

/-- A cycle in which no line is validated or invalidated. -/
theorem Settled.keep (hset : Settled s) (hrst : i.wbRst = false)
    (hdone : s.doWritebackFinished = false) (hclean : s.invalidateCleanLine = false)
    (hfill : s.doReadfromFinished = false) :
    Settled (Cache.step i s) ∧ (Cache.step i s).adrValid = s.adrValid := by
  refine ⟨⟨?_, ?_⟩, funext fun k => ?_⟩
  · simp [Cache.step, Table.step, hrst, hset.validate, hfill]
  · simp [Cache.step, Table.step, hrst, hset.invalidate, hdone, hclean]
  · rw [adrValid_step hrst hset.validate, hset.invalidate, Lines.none_apply,
      Bool.not_false, Bool.and_true]

/-- A cycle in which no line is written. -/
theorem linesDirty_step (hrst : i.wbRst = false) (hack : s.wbAckO = false)
    (hdone : s.doWritebackFinished = false) :
    (step i s).linesDirty = s.linesDirty := by
  simp [step, Table.step, hrst, hdone, Regs.cacheWrite, hack]

/-- No two lines hold the same, so that not all of them hold what is asked for. -/
theorem not_all_hit (hunique : ∀ j k, s.adrValid j = true → s.adrValid k = true →
    s.cachedAdr j = s.cachedAdr k → j = k) :
    (s.adrValid.and (s.cacheLineHit b)).all = false := by
  refine decide_eq_false fun hall => ?_
  have h : ∀ k, s.adrValid k = true ∧ b.tag = s.cachedAdr k := fun k => by
    simpa [Lines.and, Table.cacheLineHit] using hall k
  have heq := hunique ⟨0, Nat.succ_pos 3⟩ ⟨1, Nat.succ_lt_succ (Nat.succ_pos 2)⟩ (h _).1 (h _).1
    ((h _).2.symm.trans (h _).2)
  exact absurd (congrArg Fin.val heq) Nat.zero_ne_one

theorem wbReqNew_of_facts (hfacts : p.Facts i.bus s) (hp : p ≠ .quiet) :
    s.wbReqNew i.bus = false := by
  cases p with
  | quiet => exact absurd rfl hp
  | looked | hit => exact wbReqNew_of_wbReqR hfacts.2.1
  | miss => exact wbReqNew_of_wbReqR hfacts.1.wbReqR

/-- The line that has been selected is checked. -/
theorem seq_step_checked (hrst : i.wbRst = false) (hnew : s.wbReqNew i.bus = false)
    (hseq : s.toSequencer = Stage.checked.seq) (hsel : s.selectedCacheLineR = .only L) :
    (step i s).toSequencer =
      { Sequencer.quiet with
        startWriteback := s.linesDirty L && s.adrValid L && !decide (i.bus.tag = s.cachedAdr L)
        invalidateCleanLine := !s.linesDirty L && s.adrValid L && !decide (i.bus.tag = s.cachedAdr L)
        startFill := !s.adrValid L } := by
  simp [step, Sequencer.step, Sequencer.doWritebackFinished, Sequencer.doWritebackDataFinished,
    Sequencer.doReadfromStart, Sequencer.appAfWren, Stage.seq, Sequencer.quiet, hseq, hrst, hnew,
    hsel, Table.cacheLineHit]

/-- The sequencer follows the phases. -/
theorem seq_step (h : Holds p i.bus s) (hrst : i.wbRst = false) (hgo : Goes i s p p') :
    (step i s).toSequencer = p'.seq := by
  obtain ⟨⟨hunique, -, -, -, -⟩, hseq, hfacts⟩ := h
  have hold := wbReqNew_of_facts hfacts
  cases hgo with
  | served =>
    obtain ⟨-, -, hsel, hvalid, htag⟩ := hfacts
    simp [seq_step_checked hrst (hold (by simp)) hseq hsel.r, hvalid, htag, Phase.seq,
      Sequencer.quiet]
  | dirty hvalid hdirty =>
    have htag := Ne.symm (hfacts.1.absent _ hvalid)
    simp [seq_step_checked hrst (hold (by simp)) hseq hfacts.1.selected, hvalid, hdirty, htag,
      Phase.seq, Stage.seq, Sequencer.quiet]
  | clean hvalid hdirty =>
    have htag := Ne.symm (hfacts.1.absent _ hvalid)
    simp [seq_step_checked hrst (hold (by simp)) hseq hfacts.1.selected, hvalid, hdirty, htag,
      Phase.seq, Stage.seq, Sequencer.quiet]
  | empty hvalid =>
    simp [seq_step_checked hrst (hold (by simp)) hseq hfacts.1.selected, hvalid, Phase.seq,
      Stage.seq, Sequencer.quiet]
  | rest hnew | look hnew =>
    simp [step, Sequencer.step, Sequencer.doWritebackFinished, Sequencer.doWritebackDataFinished,
      Sequencer.doReadfromStart, Sequencer.appAfWren, Phase.seq, Sequencer.quiet, hseq, hrst, hnew,
      not_all_hit (b := i.bus) hunique]
  | addressWait hn hfull | readWait _ hn hfull | address hn hfull | read _ hn hfull =>
    have hmod := Nat.mod_eq_of_lt (Nat.succ_lt_succ hn)
    have hnew := hold (by simp)
    simp [step, Sequencer.step, Sequencer.doWritebackFinished, Sequencer.doWritebackDataFinished,
      Sequencer.doReadfromStart, Sequencer.appAfWren, Phase.seq, Stage.seq, Sequencer.quiet, hn.ne, *]
  | _ =>
    have hnew := hold (by simp)
    simp [step, Sequencer.step, Sequencer.doWritebackFinished, Sequencer.doWritebackDataFinished,
      Sequencer.doReadfromStart, Sequencer.appAfWren, Phase.seq, Stage.seq, Sequencer.quiet, *]

/-- The line of a miss in the next stage. -/
theorem stageFacts_step {stage stage' : Stage} (h : Holds (.miss L stage) i.bus s)
    (hrst : i.wbRst = false) (hrule : BusRule i.bus s b')
    (hgo : Goes i s (.miss L stage) (.miss L stage')) : stage'.Facts L (step i s) := by
  obtain ⟨hsound, hseq, hmiss, hfacts⟩ := h
  have hsel := fun hvalidate => (hmiss.step hseq hfacts hvalidate hrst hrule).2
  have hkeep : Settled s → stage.seq.doWritebackFinished = false →
      stage.seq.invalidateCleanLine = false → stage.seq.doReadfromFinished = false →
      Settled (step i s) ∧ (step i s).adrValid = s.adrValid ∧
      (step i s).linesDirty = s.linesDirty := by
    intro hset hdone hclean hfill
    obtain ⟨hset', hvalid'⟩ := hset.keep hrst (hseq ▸ hdone) (hseq ▸ hclean) (hseq ▸ hfill)
    exact ⟨hset', hvalid', linesDirty_step hrst hmiss.wbAckO (hseq ▸ hdone)⟩
  cases hgo with
  | dirty hvalid hdirty | clean hvalid hdirty =>
    obtain ⟨hset', hvalid', hdirty'⟩ := hkeep hfacts.1 rfl rfl rfl
    exact ⟨hset', hsel hfacts.1.validate, hvalid' ▸ hvalid, hdirty' ▸ hdirty⟩
  | empty hvalid =>
    obtain ⟨hset', hvalid', hdirty'⟩ := hkeep hfacts.1 rfl rfl rfl
    have hclean : s.linesDirty L = false :=
      Bool.eq_false_iff.mpr fun hdirty => absurd (hsound.valid_of_dirty L hdirty) (by simp [hvalid])
    exact ⟨hset'.validate, hsel hfacts.1.validate, hdirty' ▸ hclean,
      .inl ⟨hvalid' ▸ hvalid, hset'.invalidate⟩⟩
  | startWriteback | writeback | written | dataFinished =>
    obtain ⟨hset, -, hvalid, hdirty⟩ := hfacts
    obtain ⟨hset', hvalid', hdirty'⟩ := hkeep hset rfl rfl rfl
    exact ⟨hset', hsel hset.validate, hvalid' ▸ hvalid, hdirty' ▸ hdirty⟩
  | startAddresses =>
    obtain ⟨hset, -, hvalid, hdirty⟩ := hfacts
    obtain ⟨hset', hvalid', hdirty'⟩ := hkeep hset rfl rfl rfl
    exact ⟨Nat.succ_pos 15, hset', hsel hset.validate, hvalid' ▸ hvalid, hdirty' ▸ hdirty⟩
  | addressWait hn =>
    obtain ⟨hn', hset, -, hvalid, hdirty⟩ := hfacts
    obtain ⟨hset', hvalid', hdirty'⟩ := hkeep hset rfl rfl rfl
    exact ⟨hn', hset', hsel hset.validate, hvalid' ▸ hvalid, hdirty' ▸ hdirty⟩
  | address hn =>
    obtain ⟨-, hset, -, hvalid, hdirty⟩ := hfacts
    obtain ⟨hset', hvalid', hdirty'⟩ := hkeep hset rfl rfl rfl
    exact ⟨Nat.succ_lt_succ hn, hset', hsel hset.validate, hvalid' ▸ hvalid, hdirty' ▸ hdirty⟩
  | addressLast =>
    obtain ⟨-, hset, -, hvalid, hdirty⟩ := hfacts
    obtain ⟨hset', hvalid', hdirty'⟩ := hkeep hset rfl rfl rfl
    exact ⟨hset', hsel hset.validate, hvalid' ▸ hvalid, hdirty' ▸ hdirty⟩
  | writebackDone =>
    obtain ⟨hset, -, -, -⟩ := hfacts
    refine ⟨?_, hsel hset.validate, ?_, .inr ?_⟩ <;>
      simp [step, Table.step, hrst, hseq, Phase.seq, Stage.seq, Sequencer.quiet,
        Sequencer.doWritebackFinished, Sequencer.doReadfromFinished, Regs.cacheWrite, Lines.sub,
        hset.validate, hmiss.selected, hmiss.wbAckO]
  | invalidate =>
    obtain ⟨hset, -, -, hdirty⟩ := hfacts
    refine ⟨?_, ?_, hsel hset.validate, ?_⟩ <;>
      simp [step, Table.step, hrst, hseq, Phase.seq, Stage.seq, Sequencer.quiet,
        Sequencer.doWritebackFinished, Sequencer.doReadfromFinished, Regs.cacheWrite, hset.validate,
        hmiss.selected, hmiss.wbAckO, hdirty]
  | invalidated =>
    obtain ⟨hval, hinval, -, hdirty⟩ := hfacts
    refine ⟨?_, hsel hval, ?_, .inl ⟨?_, ?_⟩⟩ <;>
      simp [step, Table.step, hrst, hseq, Phase.seq, Stage.seq, Sequencer.quiet,
        Sequencer.doWritebackFinished, Sequencer.doReadfromFinished, Regs.cacheWrite, hval, hinval,
        hmiss.wbAckO, hdirty]
  | startFill =>
    obtain ⟨hval, -, -, hline⟩ := hfacts
    refine ⟨⟨?_, ?_⟩, hsel hval, ?_⟩ <;> rcases hline with ⟨hvalid, hinval⟩ | hinval <;>
      simp [step, Table.step, Phase.seq, Stage.seq, Sequencer.quiet, Sequencer.doWritebackFinished,
        Sequencer.doReadfromFinished, *]
  | startReadfrom =>
    obtain ⟨hset, -, hvalid⟩ := hfacts
    obtain ⟨hset', hvalid', -⟩ := hkeep hset rfl rfl rfl
    exact ⟨Nat.succ_pos 15, hset', hsel hset.validate, hvalid' ▸ hvalid⟩
  | readWait =>
    obtain ⟨hn', hset, -, hvalid⟩ := hfacts
    obtain ⟨hset', hvalid', -⟩ := hkeep hset rfl rfl rfl
    exact ⟨hn', hset', hsel hset.validate, hvalid' ▸ hvalid⟩
  | read _ hn =>
    obtain ⟨-, hset, -, hvalid⟩ := hfacts
    obtain ⟨hset', hvalid', -⟩ := hkeep hset rfl rfl rfl
    exact ⟨Nat.succ_lt_succ hn, hset', hsel hset.validate, hvalid' ▸ hvalid⟩
  | readLast =>
    obtain ⟨-, hset, -, hvalid⟩ := hfacts
    obtain ⟨hset', hvalid', -⟩ := hkeep hset rfl rfl rfl
    exact ⟨hset', hsel hset.validate, hvalid' ▸ hvalid⟩
  | fillWait | filled =>
    obtain ⟨hset, -, hvalid⟩ := hfacts
    obtain ⟨hset', hvalid', -⟩ := hkeep hset rfl rfl rfl
    exact ⟨hset', hsel hset.validate, hvalid' ▸ hvalid⟩
  | fillDone =>
    obtain ⟨hset, -, hvalid⟩ := hfacts
    refine ⟨?_, ?_, hsel hset.validate, ?_⟩ <;>
      simp [step, Table.step, hrst, hseq, Phase.seq, Stage.seq, Sequencer.quiet,
        Sequencer.doWritebackFinished, Sequencer.doReadfromFinished, hset.validate, hset.invalidate,
        hmiss.selected, hvalid]

/-- What the registers hold in the next phase. -/
theorem facts_step (h : Holds p i.bus s) (hrst : i.wbRst = false) (hrule : BusRule i.bus s b')
    (hgo : Goes i s p p') :
    p'.Facts b' (step i s) := by
  obtain ⟨hsound, hseq, hfacts⟩ := h
  have hkeep : Settled s → p.seq.doWritebackFinished = false → p.seq.invalidateCleanLine = false →
      p.seq.doReadfromFinished = false → Settled (step i s) ∧ (step i s).adrValid = s.adrValid :=
    fun hset hdone hclean hfill => hset.keep hrst (hseq ▸ hdone) (hseq ▸ hclean) (hseq ▸ hfill)
  cases p with
  | quiet =>
    obtain ⟨hset, hrest⟩ := hfacts
    obtain ⟨hset', hvalid'⟩ := hkeep hset rfl rfl rfl
    have hadr' := cachedAdr_step hrst hset.validate
    cases hgo with
    | rest hnew =>
      have hselected := selected_step_of_keep hrst hnew (.inl (by rw [hseq]; rfl))
      rcases hrest with ⟨hr, hsel, -⟩ | ⟨L, hsel, hserve⟩
      · have hreq : i.bus.wbReq = false := by simpa [Regs.wbReqNew, hr] using hnew
        exact ⟨hset', .inl ⟨hreq, hselected.trans hsel, hsel⟩⟩
      · refine ⟨hset', .inr ⟨L, ⟨hselected.trans hsel.r, hsel.r, enc_step_of_selected hsel.r⟩,
          fun hreq => ?_⟩⟩
        have hr : s.wbReqR = true := by
          simpa [Regs.wbReqNew, show i.bus.wbReq = true from hreq] using hnew
        obtain ⟨hvalid, htag⟩ := hserve hr
        exact ⟨hvalid' ▸ hvalid, fun hreq' =>
          (congrFun hadr' L).trans ((htag hreq).trans (hrule.sameLine hreq hreq').symm)⟩
    | look hnew =>
      obtain ⟨hreq, hr⟩ : i.bus.wbReq = true ∧ s.wbReqR = false := by simpa [Regs.wbReqNew] using hnew
      have htag := hrule.held (.inl hnew)
      have hack : s.wbAckO = false := Bool.eq_false_iff.mpr fun hack =>
        by simpa [hr] using (hsound.ack hack).2.1
      refine ⟨hset', hreq, hrule.continues hreq fun h => absurd h (by simp [hack]), ?_, ?_⟩
      · rw [selected_step_of_look hrst hnew, hvalid']
        congr 1
        funext k
        simp [Table.cacheLineHit, hadr', htag]
      · rcases hrest with ⟨-, hsel, -⟩ | ⟨L, hsel, -⟩
        · exact .inl hsel
        · exact .inr ⟨L, hsel.r, enc_step_of_selected hsel.r⟩
  | looked =>
    obtain ⟨hset, hr, hreq, hlook, h2⟩ := hfacts
    obtain ⟨hset', hvalid'⟩ := hkeep hset rfl rfl rfl
    have hadr' := cachedAdr_step hrst hset.validate
    have hnewR : s.wbReqNewR = true := by rw [hseq]; rfl
    have htag := hrule.held (.inr hnewR)
    have hnew := wbReqNew_of_wbReqR (b := i.bus) hr
    cases hgo with
    | @hit L hvalid hcached =>
      have hsel := hlook.trans (looked_eq_only hsound.unique hvalid hcached)
      have hselected := selected_step_of_keep hrst hnew (.inr (by rw [hsel]; exact Lines.any_only))
      exact ⟨hset', hreq, ⟨hselected.trans hsel, hsel, enc_step_of_selected hsel⟩, hvalid' ▸ hvalid,
        (congrFun hadr' L).trans (hcached.trans htag.symm)⟩
    | @miss L hL habsent =>
      have hsel := hlook.trans (looked_eq_none habsent)
      have hack : s.wbAckO = false := Bool.eq_false_iff.mpr fun hack =>
        have ⟨k, hserves⟩ := (hsound.ack hack).2.2
        habsent k hserves.valid hserves.cachedAdr
      have hhit : s.wbReqAddrHit i.bus = false := by
        rcases h2 with h2 | ⟨k, h2, -⟩
        · exact not_wbReqAddrHit h2
        · exact Bool.eq_false_iff.mpr fun hhit =>
            have ⟨_, htag, hvalid⟩ := (wbReqAddrHit_eq h2).mp hhit
            habsent k hvalid htag.symm
      refine ⟨⟨hreq, hrule.continues hreq fun h => absurd h (by simp [hack]), ?_, ?_,
        fun k hk => ?_⟩, hset', hsel⟩
      · simp [step, Port.step, hhit]
      · simp [step, Table.step, hrst, hnew, hnewR, hsel, hL]
      · rw [hadr', htag]
        exact habsent k (hvalid' ▸ hk)
  | hit L =>
    obtain ⟨hset, hr, hsel, hvalid, hcached⟩ := hfacts
    obtain ⟨hset', hvalid'⟩ := hkeep hset rfl rfl rfl
    cases hgo with
    | served =>
      have hselected := selected_step_of_keep hrst (wbReqNew_of_wbReqR (b := i.bus) hr)
        (.inl (by rw [hseq]; rfl))
      refine ⟨hset', .inr ⟨L, ⟨hselected.trans hsel.r, hsel.r, enc_step_of_selected hsel.r⟩,
        fun hreq =>
        ⟨hvalid' ▸ hvalid, fun hreq' => ?_⟩⟩⟩
      rw [cachedAdr_step hrst hset.validate, hcached, hrule.sameLine hreq hreq']
  | miss L stage =>
    cases p' with
    | miss L' stage' =>
      obtain rfl : L = L' := by cases hgo <;> rfl
      have hstage : stage ≠ .validate := by
        rintro rfl
        cases hgo
      exact ⟨(hfacts.1.step hseq hfacts.2 (hfacts.2.validate hstage) hrst hrule).1,
        stageFacts_step ⟨hsound, hseq, hfacts⟩ hrst hrule hgo⟩
    | quiet =>
      cases hgo with
      | validate =>
        obtain ⟨hmiss, hval, hinval, hsel, hvalid⟩ := hfacts
        have hselected := selected_step_of_keep hrst (wbReqNew_of_wbReqR (b := i.bus) hmiss.wbReqR)
          (.inl (by rw [hseq]; rfl))
        refine ⟨⟨?_, ?_⟩, .inr ⟨L,
          ⟨hselected.trans hsel.r, hsel.r, enc_step_of_selected hsel.r⟩, fun hreq =>
          ⟨?_, fun hreq' => ?_⟩⟩⟩
        · simp [step, Table.step, hrst, hval, hseq, Phase.seq, Stage.seq, Sequencer.quiet,
            Sequencer.doReadfromFinished]
        · simp [step, Table.step, hrst, hinval, hseq, Phase.seq, Stage.seq, Sequencer.quiet,
            Sequencer.doWritebackFinished]
        · simp [step, Table.step, hrst, hval]
        · simp [step, Table.step, hrst, hval, hrule.sameLine hreq hreq']
    | looked | hit => nomatch hgo

/-- A phase is always followed by one. -/
theorem exists_goes (h : Holds p i.bus s) (hanswers : p.Answers i) : ∃ p', Goes i s p p' := by
  obtain ⟨hsound, -, hfacts⟩ := h
  cases p with
  | quiet =>
    cases hnew : s.wbReqNew i.bus with
    | false => exact ⟨_, .rest hnew⟩
    | true => exact ⟨_, .look hnew⟩
  | looked =>
    by_cases habsent : s.Absent i.bus
    · obtain ⟨L, hL⟩ := hsound.fromMiss
      exact ⟨_, .miss hL habsent⟩
    · simp only [Table.Absent, not_forall, Classical.not_not] at habsent
      obtain ⟨L, hvalid, htag⟩ := habsent
      exact ⟨_, .hit hvalid htag⟩
  | hit => exact ⟨_, .served⟩
  | miss L stage =>
    cases stage with
    | checked =>
      cases hvalid : s.adrValid L with
      | false => exact ⟨_, .empty hvalid⟩
      | true =>
        cases hdirty : s.linesDirty L with
        | false => exact ⟨_, .clean hvalid hdirty⟩
        | true => exact ⟨_, .dirty hvalid hdirty⟩
    | startWriteback => exact ⟨_, .startWriteback hanswers⟩
    | writeback =>
      cases hdone : i.ddr2WriteDone with
      | false => exact ⟨_, .writeback hdone⟩
      | true => exact ⟨_, .written hdone⟩
    | dataFinished => exact ⟨_, .dataFinished⟩
    | startAddresses => exact ⟨_, .startAddresses⟩
    | writebackAddresses n =>
      rcases (Nat.le_of_lt_succ hfacts.2.1).lt_or_eq with hn | rfl
      · cases hfull : i.appAfAfull with
        | false => exact ⟨_, .address hn hfull⟩
        | true => exact ⟨_, .addressWait hn hfull⟩
      · exact ⟨_, .addressLast (hanswers rfl)⟩
    | writebackDone => exact ⟨_, .writebackDone⟩
    | invalidate => exact ⟨_, .invalidate⟩
    | invalidated => exact ⟨_, .invalidated⟩
    | startFill => exact ⟨_, .startFill hanswers⟩
    | startReadfrom => exact ⟨_, .startReadfrom hanswers⟩
    | readfrom n =>
      rcases (Nat.le_of_lt_succ hfacts.2.1).lt_or_eq with hn | rfl
      · cases hfull : i.appAfAfull with
        | false => exact ⟨_, .read hanswers.1 hn hfull⟩
        | true => exact ⟨_, .readWait hanswers.1 hn hfull⟩
      · exact ⟨_, .readLast hanswers.1 (hanswers.2 rfl)⟩
    | filled =>
      cases hdone : i.ddr2ReadDone with
      | false => exact ⟨_, .fillWait hdone⟩
      | true => exact ⟨_, .filled hdone⟩
    | fillDone => exact ⟨_, .fillDone⟩
    | validate => exact ⟨_, .validate⟩

/-- The registers follow the phases. -/
theorem Holds.step (h : Holds p i.bus s) (hrst : i.wbRst = false) (hrule : BusRule i.bus s b')
    (hgo : Goes i s p p') :
    Holds p' b' (step i s) :=
  ⟨Sound.step h hrst hrule, seq_step h hrst hgo, facts_step h hrst hrule hgo⟩

theorem ResetDone.holds (h : ResetDone s) : Holds .quiet b s where
  sound :=
    { unique := fun j k hj => absurd hj (by simp [h.adrValid])
      valid_of_dirty := fun k hk => absurd hk (by simp [h.linesDirty])
      fromMiss := h.fromMiss
      ack := fun hack => absurd hack (by simp [h.wbAckO])
      bursting := fun _ => h.wbBursting
      ackR := fun _ => h.wbAckOR
      burst := fun hb => absurd hb (by simp [h.wbBursting]) }
  seq := h.quiet
  facts := ⟨⟨h.validate, h.invalidate⟩, .inl ⟨h.wbReqR, h.selected, h.selected2⟩⟩

end ProbableCause.Ddr2.Cache
