import ProbableCause.Lib.Temporal
import ProbableCause.Ddr2.Coherence

/-!
# `Ddr2.CacheAnswers` — every request is answered

If both clocks go on, and the controller executes its commands and returns what it has read
(`Run.Fair`), a request is acknowledged, and a read gets what was written last
(`Run.Proper.request_answered`), however the edges and the commands follow each other.

`Phase.rank` says how far a phase is from its answer. Each edge of the bus clock brings the next
phase, except in two stages of a miss: there the bus domain waits until the words of a line are in
the data FIFO (`Ddr2Regs.toDump`), and until they have come back (`Sys.toFill`).
-/

namespace ProbableCause.Ddr2.Cache

open Temporal

variable {σ : Sys} {L : Line} {m : Tag → Content} {late : ℕ} {p p' : Phase} {g : Progress}
  {i : Inputs} {s : Regs} {event : Event}

/-! ## Ranks -/

/-- How far a stage is from the answer. -/
def Stage.rank : Stage → ℕ
  | .checked => 60
  | .startWriteback => 59
  | .writeback _ => 58
  | .dataFinished => 57
  | .startAddresses => 56
  | .writebackAddresses n => 55 - n
  | .writebackDone => 39
  | .invalidate => 38
  | .invalidated => 37
  | .startFill => 36
  | .startReadfrom => 35
  | .readfrom n => 34 - n
  | .filled => 18
  | .fillDone => 2
  | .validate => 1

def Phase.rank : Phase → ℕ
  | .quiet | .hit _ => 0
  | .looked => 61
  | .miss _ stage => stage.rank

/-- The bus domain goes on waiting for the other one. -/
def Phase.Waits (i : Inputs) : Phase → Prop
  | .miss _ (.writeback _) => i.ddr2WriteDone = false
  | .miss _ .filled => i.ddr2ReadDone = false
  | _ => False

theorem Goes.rank_lt (hgo : Goes i s p p') (hfull : i.appAfAfull = false) (hrank : 0 < p.rank)
    (hwait : ¬ p.Waits i) :
    p'.rank < p.rank := by
  cases hgo with
  | rest | look | served => exact absurd hrank (Nat.lt_irrefl 0)
  | addressWait _ h | readWait _ _ h => exact absurd (hfull.symm.trans h) Bool.false_ne_true
  | writeback hdone | fillWait hdone => exact absurd hdone hwait
  | address hn | read _ hn =>
    simp only [Phase.rank, Stage.rank]
    omega
  | _ => simp [Phase.rank, Stage.rank]

/-- A line goes on being written back. -/
theorem Goes.of_writeback {again : Bool} (hgo : Goes i s (.miss L (.writeback again)) p') :
    i.ddr2WriteDone = true ∨ p' = .miss L (.writeback true) := by
  cases hgo with
  | writeback => exact .inr rfl
  | written hdone => exact .inl hdone

/-- A line goes on being filled. -/
theorem Goes.of_filled (hgo : Goes i s (.miss L .filled) p') :
    i.ddr2ReadDone = true ∨ p' = .miss L .filled := by
  cases hgo with
  | fillWait => exact .inr rfl
  | filled hdone => exact .inl hdone

theorem Holds.rank_pos {stage : Stage} {b : Bus} (h : Holds (.miss L stage) b s) :
    0 < (Phase.miss L stage).rank := by
  have hfacts := h.facts.2
  cases stage with
  | writebackAddresses | readfrom =>
    have hn := hfacts.1
    simp only [Phase.rank, Stage.rank]
    omega
  | _ => exact Nat.succ_pos _

/-- A request that has been looked up and is served by a line is acknowledged at once. -/
theorem Holds.acks (h : Holds p i.bus s) (hrst : i.wbRst = false) (hrank : p.rank = 0)
    (hreq : i.bus.wbReq = true) (hr : s.wbReqR = true) (hack : s.wbAckO = false)
    (hackR : s.wbAckOR = false) : (Cache.step i s).wbAckO = true := by
  have hhit : s.wbReqAddrHit i.bus = true := by
    have hfacts := h.facts
    cases p with
    | quiet =>
      obtain ⟨-, ⟨hr', -⟩ | ⟨L, hsel, hserve⟩⟩ := hfacts
      · exact absurd hr (by simp [hr'])
      · obtain ⟨hvalid, htag⟩ := hserve hr
        exact (wbReqAddrHit_eq hsel.r2).mpr ⟨hreq, (htag hreq).symm, hvalid⟩
    | looked => cases hrank
    | hit L =>
      obtain ⟨-, -, hsel, hvalid, htag⟩ := hfacts
      exact (wbReqAddrHit_eq hsel.r2).mpr ⟨hreq, htag.symm, hvalid⟩
    | miss L stage => exact absurd hrank h.rank_pos.ne'
  cases hbursting : s.wbBursting with
  | false => simp [Cache.step, Port.step, hrst, hhit, hack, hackR, hbursting]
  | true =>
    have hcti := (h.sound.burst hbursting).cti hack
    simp [Cache.step, Port.step, hrst, hhit, hbursting, hcti]

/-! ## What an event does to the registers of the bus -/

theorem next_of_isWb (h : event.isWb = true) :
    ∃ e, (σ.next event).regs = step (σ.inputs e) σ.regs ∧ (σ.next event).bus = e.bus ∧
      (event.Rule σ → BusRule σ.bus σ.regs e.bus) ∧
      ∀ p p', event.Moves σ p p' → e.appAfAfull = false ∧ Goes (σ.inputs e) σ.regs p p' := by
  cases event with
  | exec => cases h
  | edge wb ddr2 =>
    cases wb with
    | none => cases h
    | some e =>
      exact ⟨e, by cases ddr2 <;> rfl, by cases ddr2 <;> rfl,
        fun hrule => (hrule.1 e rfl).1, fun _ _ => id⟩

theorem next_of_not_isWb (h : event.isWb = false) :
    (σ.next event).regs = σ.regs ∧ (σ.next event).bus = σ.bus ∧ ∀ p p',
      event.Moves σ p p' → p' = p := by
  cases event with
  | exec => exact ⟨rfl, rfl, fun _ _ => id⟩
  | edge wb ddr2 =>
    cases wb with
    | none => cases ddr2 <;> exact ⟨rfl, rfl, fun _ _ => id⟩
    | some => cases h

/-! ## What is waited for -/

/-- What is left to do until the words of a line are in the data FIFO. -/
def Ddr2Regs.toDump (d : Ddr2Regs) : ℕ :=
  if d.ddr2WriteDone then 0 else if d.doWritebackDdr2 then 64 - d.ddr2CacheLineWordAddr else 65

/-- What is left to do until the words of a line have come back. -/
def Sys.toFill (σ : Sys) : ℕ := 5 * σ.mig.af.length + σ.mig.rdf.length

theorem Dumping.toDump_step {d : Ddr2Regs} {f : FromBus} {ram word : Quad} {n : ℕ} (h : Dumping L d n)
    (hwrite : f.doWriteback = true) :
    (d.step f false false ram word).toDump ≤ d.toDump ∧
      (d.sample = true → (d.step f false false ram word).toDump ≤ d.toDump - 1) := by
  cases h with
  | waits hdo hword hwe hdone =>
    cases hsample : d.sample <;>
      simp [Ddr2Regs.toDump, Ddr2Regs.step, Ddr2Regs.lastWord, hdo, hword, hdone, hsample, hwrite]
  | dumps hdo hword hn henc hdone =>
    rcases (Nat.le_of_lt_succ hn).lt_or_eq with hn | rfl
    · simp only [Ddr2Regs.toDump, Ddr2Regs.step, Ddr2Regs.lastWord, hdo, hword, hdone, hwrite,
        beq_eq_false_iff_ne.mpr hn.ne]
      simp [Nat.mod_eq_of_lt (Nat.succ_lt_succ hn)]
      omega
    · simp [Ddr2Regs.toDump, Ddr2Regs.step, Ddr2Regs.lastWord, hword]
  | dumped hdo hword hdone =>
    simp [Ddr2Regs.toDump, Ddr2Regs.step, Ddr2Regs.lastWord, hdo, hword, hdone, hwrite]

theorem Dumping.done_of_toDump {d : Ddr2Regs} {n : ℕ} (h : Dumping L d n) (hzero : d.toDump = 0) :
    d.ddr2WriteDone = true := by
  cases h with
  | waits hdo hword hwe hdone => simp [Ddr2Regs.toDump, hdo, hdone] at hzero
  | dumps hdo hword hn henc hdone =>
    simp only [Ddr2Regs.toDump, hdo, hword, hdone, Bool.false_eq_true, if_false, if_true] at hzero
    omega
  | dumped _ _ hdone => exact hdone

theorem ddr2_next_of_isDdr2 (h : event.isDdr2 = true) (hrule : event.Rule σ) :
    ∃ e : Ddr2Edge, (σ.next event).ddr2 = (σ.ddr2Edge e).ddr2 ∧
      (e.appWdfAfull = true → 64 < σ.mig.wdf.length) := by
  cases event with
  | exec => cases h
  | edge wb ddr2 =>
    cases ddr2 with
    | none => cases h
    | some e => exact ⟨e, by cases wb <;> rfl, hrule.2 e rfl⟩

theorem ddr2_next_of_not_isDdr2 (h : event.isDdr2 = false) : (σ.next event).ddr2 = σ.ddr2 := by
  cases event with
  | exec => rfl
  | edge wb ddr2 =>
    cases ddr2 with
    | none => cases wb <;> rfl
    | some => cases h

namespace Linked

theorem toDump_next {again : Bool} (h : Linked (.miss L (.writeback again)) late g m σ)
    (hrule : event.Rule σ) :
    (σ.next event).ddr2.toDump ≤ σ.ddr2.toDump ∧
      (event.isDdr2 = true → σ.ddr2.sample = true →
        (σ.next event).ddr2.toDump ≤ σ.ddr2.toDump - 1) := by
  cases hddr2 : event.isDdr2 with
  | false =>
    rw [ddr2_next_of_not_isDdr2 hddr2]
    exact ⟨Nat.le_refl _, fun hcontra => absurd hcontra Bool.false_ne_true⟩
  | true =>
    obtain ⟨e, heq, hwdf⟩ := ddr2_next_of_isDdr2 hddr2 hrule
    obtain ⟨-, hrequested, -, -, -, hdump⟩ := h.link.1
    have hfull := h.transfer.not_wdfAfull hwdf
    obtain ⟨hvalid, -⟩ := h.not_valid hrequested e.deliver
    rw [heq]
    simp only [Sys.ddr2Edge, hvalid, hfull]
    obtain ⟨hle, hless⟩ := hdump.toDump_step (f := σ.fromBus) h.doWriteback
    exact ⟨hle, fun _ => hless⟩

/-- No command is given any more. -/
theorem af_next_of_filled (h : Linked (.miss L .filled) late g m σ) (hexec : event ≠ .exec) :
    (σ.next event).mig.af = σ.mig.af := by
  have hwren : ∀ full, σ.regs.appAfWren full = false := fun full => by
    rw [show σ.regs.toSequencer = Stage.filled.seq from h.holds.seq]
    exact Bool.and_false _
  cases event with
  | exec => exact absurd rfl hexec
  | edge wb ddr2 =>
    cases wb with
    | none => cases ddr2 <;> rfl
    | some e =>
      cases ddr2 with
      | none => simp [Sys.next, Sys.wbEdge, hwren]
      | some e' => simp [Sys.next, Sys.wbEdge, Sys.ddr2Edge, hwren]

end Linked

/-- The controller returns the next burst. -/
def Event.delivers : Event → Bool
  | .edge _ (some e) => e.deliver
  | _ => false

theorem rdf_next (hexec : event ≠ .exec) :
    (σ.next event).mig.rdf = σ.mig.rdf ∨ (σ.next event).mig.rdf = σ.mig.rdf.tail := by
  cases event with
  | exec => exact absurd rfl hexec
  | edge wb ddr2 =>
    cases ddr2 with
    | none => cases wb <;> exact .inl rfl
    | some e =>
      have hrdf : (σ.next (.edge wb (some e))).mig.rdf = (σ.ddr2Edge e).mig.rdf := by cases wb <;> rfl
      rw [hrdf]
      simp only [Sys.ddr2Edge]
      split
      · exact .inr rfl
      · exact .inl rfl

theorem rdf_next_of_delivers (h : event.delivers = true) (hrdf : σ.mig.rdf ≠ []) :
    (σ.next event).mig.rdf = σ.mig.rdf.tail := by
  cases event with
  | exec => cases h
  | edge wb ddr2 =>
    cases ddr2 with
    | none => cases h
    | some e =>
      have hvalid : σ.mig.rdDataValid e.deliver = true := by
        rw [Mig.rdDataValid, show e.deliver = true from h, Bool.true_and,
          List.isEmpty_eq_false_iff.mpr hrdf]
        exact Bool.or_true _
      have heq : (σ.next (.edge wb (some e))).mig.rdf = (σ.ddr2Edge e).mig.rdf := by cases wb <;> rfl
      rw [heq]
      simp only [Sys.ddr2Edge, hvalid, if_true]

theorem toFill_exec (haf : σ.mig.af ≠ []) : (σ.next .exec).toFill < σ.toFill := by
  obtain ⟨⟨read, t, n⟩, af, haf⟩ := List.exists_cons_of_ne_nil haf
  cases read with
  | false =>
    simp only [Sys.toFill, Sys.next, Mig.exec_of_write haf, Mig.write, haf, List.length_cons]
    omega
  | true =>
    simp only [Sys.toFill, Sys.next, Mig.exec_of_read haf, Mig.read, haf, List.length_cons,
      List.length_append, List.length_map, List.length_range']
    omega

theorem toFill_next_of_tail (haf : (σ.next event).mig.af = σ.mig.af)
    (hrdf : (σ.next event).mig.rdf = σ.mig.rdf.tail) (hne : σ.mig.rdf ≠ []) :
      (σ.next event).toFill < σ.toFill := by
  have hpos := List.length_pos_of_ne_nil hne
  rw [Sys.toFill, Sys.toFill, haf, hrdf, List.length_tail]
  omega

/-- All that has been commanded has come back. -/
theorem Linked.done_of_toFill (h : Linked (.miss L .filled) late g m σ) (hzero : σ.toFill = 0) :
    σ.ddr2.ddr2ReadDone = true := by
  obtain ⟨hordered, haf, -, hrdf, -, -⟩ := h.transfer
  have hreading := h.link.1
  have hrequested := hreading.requested
  have haf' := congrArg List.length haf
  have hrdf' := congrArg List.length hrdf
  rw [List.length_append, List.length_map, List.length_map, List.length_range',
    List.length_range'] at haf'
  rw [List.length_map, List.length_range'] at hrdf'
  rw [Sys.toFill] at hzero
  have hfill := hreading.filling
  have hreceived : 64 ≤ g.received := by omega
  generalize g.received = w at hfill hreceived
  cases hfill with
  | fills _ hn => exact absurd hn (Nat.not_lt_of_le hreceived)
  | filled _ hread => exact hread

theorem Linked.toFill_next_le (h : Linked (.miss L .filled) late g m σ) :
    (σ.next event).toFill ≤ σ.toFill := by
  by_cases hexec : event = .exec
  · subst hexec
    by_cases haf : σ.mig.af = []
    · rw [Sys.next, Mig.exec_of_nil haf]
    · exact (toFill_exec haf).le
  · rw [Sys.toFill, Sys.toFill, h.af_next_of_filled hexec]
    rcases rdf_next (σ := σ) hexec with hsame | htail
    · rw [hsame]
    · rw [htail, List.length_tail]
      omega

/-! ## Runs -/

namespace Run

variable (R : Run)

/-- The system is in a phase. -/
def In (p : Phase) (n : ℕ) : Prop := ∃ g, Linked p (R.late n) g (R.contents n) (R.sys n)

/-- The phase is nearer to the answer. -/
def Nearer (r n : ℕ) : Prop := ∃ p, R.In p n ∧ p.rank < r

/-- Both clocks go on, the controller executes its commands and returns what it has read. -/
structure Fair : Prop where
  wb : Recurs fun n => (R.events n).isWb = true
  exec : Recurs fun n => R.events n = .exec
  deliver : Recurs fun n => (R.events n).delivers = true

namespace Proper

variable {R} {n : ℕ} (hR : R.Proper)
include hR

theorem moves (h : R.In p n) : ∃ p', (R.events n).Moves (R.sys n) p p' ∧ R.In p' (n + 1) := by
  obtain ⟨g, h⟩ := h
  obtain ⟨⟨p', g', hmoves, h'⟩, -⟩ := h.next (hR.late n) (hR.rule n) (hR.linked n).2
  exact ⟨p', hmoves, g', h'⟩

theorem stays (h : R.In p n) (hwb : (R.events n).isWb = false) : R.In p (n + 1) := by
  obtain ⟨p', hmoves, h'⟩ := hR.moves h
  exact (next_of_not_isWb hwb).2.2 _ _ hmoves ▸ h'

theorem nearer_succ (h : R.In p n) (hrank : 0 < p.rank) (hwb : (R.events n).isWb = true)
    (hwait : ∀ e, ¬ p.Waits ((R.sys n).inputs e)) : R.Nearer p.rank (n + 1) := by
  obtain ⟨p', hmoves, h'⟩ := hR.moves h
  obtain ⟨e, -, -, -, hgo⟩ := next_of_isWb (σ := R.sys n) hwb
  obtain ⟨hfull, hgo⟩ := hgo _ _ hmoves
  exact ⟨p', h', hgo.rank_lt hfull hrank (hwait e)⟩

/-- A phase that does not wait is left at the next edge of the bus clock. -/
theorem leaves_of_not_waits (hfair : R.Fair) (hrank : 0 < p.rank) (hwait : ∀ i, ¬ p.Waits i) :
    LeadsTo (R.In p) (R.Nearer p.rank) := by
  refine .of_recurs hfair.wb (fun n h => ?_) fun n h hwb => hR.nearer_succ h hrank hwb
    fun _ => hwait _
  cases hwb : (R.events n).isWb with
  | false => exact .inl (hR.stays h hwb)
  | true => exact .inr (hR.nearer_succ h hrank hwb fun _ => hwait _)

/-- The other domain looks at the bus domain again and again. -/
theorem recurs_sample (hfair : R.Fair) :
    Recurs fun n => (R.events n).isDdr2 = true ∧ (R.sys n).ddr2.sample = true := by
  intro n
  by_contra hnone
  have hlate : ∀ k ≥ n, R.late (k + 1) = R.late k + (R.events k).isWb.toNat := fun k hk => by
    have hnot : ¬ ((R.events k).isDdr2 && (R.sys k).ddr2.sample) = true := fun h =>
      hnone ⟨k, hk, (Bool.and_eq_true _ _).mp h⟩
    rw [Run.late, lateNext, if_neg hnot]
  have hmono : ∀ k ≥ n, ∀ d, R.late k ≤ R.late (k + d) := by
    intro k hk d
    induction d with
    | zero => exact Nat.le_refl _
    | succ d ih =>
      refine ih.trans ?_
      rw [← Nat.add_assoc, hlate (k + d) (Nat.le_add_right_of_le hk)]
      exact Nat.le_add_right _ _
  -- without such an edge the bus domain would go unnoticed for longer and longer
  have hgrows : ∀ j, ∃ k ≥ n, j ≤ R.late k := by
    intro j
    induction j with
    | zero => exact ⟨n, Nat.le_refl n, Nat.zero_le _⟩
    | succ j ih =>
      obtain ⟨k, hk, hj⟩ := ih
      obtain ⟨k', hk', hwb⟩ := hfair.wb k
      obtain ⟨d, rfl⟩ := Nat.exists_eq_add_of_le hk'
      refine ⟨k + d + 1, by omega, ?_⟩
      rw [hlate (k + d) (Nat.le_add_right_of_le hk), hwb]
      exact Nat.succ_le_succ (hj.trans (hmono k hk d))
  obtain ⟨k, -, hk⟩ := hgrows 4
  exact absurd (hR.late k) (Nat.not_le_of_lt hk)

theorem writeback_succ {again : Bool} (h : R.In (.miss L (.writeback again)) n) :
    (∃ again', R.In (.miss L (.writeback again')) (n + 1)) ∨ R.Nearer 58 (n + 1) := by
  cases hwb : (R.events n).isWb with
  | false => exact .inl ⟨again, hR.stays h hwb⟩
  | true =>
    obtain ⟨p', hmoves, h'⟩ := hR.moves h
    obtain ⟨e, -, -, -, hgo⟩ := next_of_isWb (σ := R.sys n) hwb
    obtain ⟨hfull, hgo⟩ := hgo _ _ hmoves
    rcases hgo.of_writeback with hdone | rfl
    · exact .inr ⟨p', h', hgo.rank_lt hfull (Nat.succ_pos 57) fun hwait => by
        simp [Phase.Waits, hdone] at hwait⟩
    · exact .inl ⟨true, h'⟩

/-- The words of a line are in the data FIFO some time. -/
theorem leaves_writeback (hfair : R.Fair) :
    LeadsTo (fun n => ∃ again, R.In (.miss L (.writeback again)) n) (R.Nearer 58) := by
  have hrank : ∀ M, LeadsTo (fun n => (∃ again, R.In (.miss L (.writeback again)) n) ∧
    (R.sys n).ddr2.toDump = M)
      (fun n => R.Nearer 58 n ∨
        ∃ M' < M, (∃ again, R.In (.miss L (.writeback again)) n) ∧ (R.sys n).ddr2.toDump = M') := by
    intro M
    rcases Nat.eq_zero_or_pos M with rfl | hpos
    · -- the bus domain hears of it at its next edge
      refine .of_recurs hfair.wb ?_ ?_
      · rintro n ⟨⟨again, hin⟩, hzero⟩
        rcases hR.writeback_succ hin with hin' | hleft
        · obtain ⟨g, h⟩ := hin
          exact .inl ⟨hin', Nat.le_zero.mp (hzero ▸ (h.toDump_next (hR.rule n)).1)⟩
        · exact .inr (.inl hleft)
      · rintro n ⟨⟨again, hin⟩, hzero⟩ hwb
        refine .inl (hR.nearer_succ hin (Nat.succ_pos 57) hwb fun e hwait => ?_)
        obtain ⟨g, h⟩ := hin
        obtain ⟨-, -, -, -, -, hdump⟩ := h.link.1
        simp [Phase.Waits, Sys.inputs, hdump.done_of_toDump hzero] at hwait
    · refine .of_recurs (hR.recurs_sample hfair) ?_ ?_
      · rintro n ⟨⟨again, hin⟩, rfl⟩
        rcases hR.writeback_succ hin with hin' | hleft
        · obtain ⟨g, h⟩ := hin
          rcases (h.toDump_next (hR.rule n)).1.lt_or_eq with hless | heq
          · exact .inr (.inr ⟨_, hless, hin', rfl⟩)
          · exact .inl ⟨hin', heq⟩
        · exact .inr (.inl hleft)
      · rintro n ⟨⟨again, hin⟩, rfl⟩ ⟨hddr2, hsample⟩
        rcases hR.writeback_succ hin with hin' | hleft
        · obtain ⟨g, h⟩ := hin
          have hless := (h.toDump_next (hR.rule n)).2 hddr2 hsample
          exact .inr ⟨_, Nat.lt_of_le_of_lt hless (Nat.sub_lt hpos Nat.one_pos), hin', rfl⟩
        · exact .inl hleft
  exact fun n h => LeadsTo.of_rank hrank _ n ⟨h, rfl⟩

theorem filled_succ (h : R.In (.miss L .filled) n) :
    R.In (.miss L .filled) (n + 1) ∨ R.Nearer 18 (n + 1) := by
  cases hwb : (R.events n).isWb with
  | false => exact .inl (hR.stays h hwb)
  | true =>
    obtain ⟨p', hmoves, h'⟩ := hR.moves h
    obtain ⟨e, -, -, -, hgo⟩ := next_of_isWb (σ := R.sys n) hwb
    obtain ⟨hfull, hgo⟩ := hgo _ _ hmoves
    rcases hgo.of_filled with hdone | rfl
    · exact .inr ⟨p', h', hgo.rank_lt hfull (Nat.succ_pos 17) fun hwait => by simp
        [Phase.Waits, hdone] at hwait⟩
    · exact .inl h'

/-- The line is being filled, and this much is left to do. -/
def Fills (R : Run) (L : Line) (M n : ℕ) : Prop := R.In (.miss L .filled) n ∧ (R.sys n).toFill = M

theorem fills_succ {M : ℕ} (h : Fills R L M n) :
    Fills R L M (n + 1) ∨ R.Nearer 18 (n + 1) ∨ ∃ M' < M, Fills R L M' (n + 1) := by
  obtain ⟨hin, rfl⟩ := h
  rcases hR.filled_succ hin with hin' | hleft
  · obtain ⟨g, h⟩ := hin
    have hle : (R.sys (n + 1)).toFill ≤ (R.sys n).toFill := h.toFill_next_le
    rcases hle.lt_or_eq with hless | heq
    · exact .inr (.inr ⟨_, hless, hin', rfl⟩)
    · exact .inl ⟨hin', heq⟩
  · exact .inr (.inl hleft)

/-- What waits in the address FIFO is executed. -/
theorem fills_exec (hfair : R.Fair) (M : ℕ) : LeadsTo (fun n => Fills R L M n ∧ (R.sys n).mig.af ≠ [])
    (fun n => R.Nearer 18 n ∨ ∃ M' < M, Fills R L M' n) := by
  have hless : ∀ n, Fills R L M n ∧ (R.sys n).mig.af ≠ [] → R.events n = .exec →
      R.Nearer 18 (n + 1) ∨ ∃ M' < M, Fills R L M' (n + 1) := by
    rintro n ⟨⟨hin, rfl⟩, haf⟩ hexec
    refine (hR.filled_succ hin).symm.imp_right fun hin' => ⟨_, ?_, hin', rfl⟩
    rw [show R.sys (n + 1) = (R.sys n).next .exec by rw [sys, hexec]]
    exact toFill_exec haf
  refine .of_recurs hfair.exec (fun n hn => ?_) hless
  by_cases hexec : R.events n = .exec
  · exact .inr (hless n hn hexec)
  · obtain ⟨hfills, haf⟩ := hn
    refine (hR.fills_succ hfills).imp_left fun hfills' => ⟨hfills', ?_⟩
    obtain ⟨g, h⟩ := hfills.1
    rw [show (R.sys (n + 1)).mig.af = (R.sys n).mig.af from h.af_next_of_filled hexec]
    exact haf

/-- What has been read is returned. -/
theorem fills_deliver (hfair : R.Fair) {M : ℕ} (hpos : 0 < M) :
    LeadsTo (fun n => Fills R L M n ∧ (R.sys n).mig.af = [])
      (fun n => R.Nearer 18 n ∨ ∃ M' < M, Fills R L M' n) := by
  refine .of_recurs hfair.deliver ?_ ?_
  · rintro n ⟨hfills, haf⟩
    refine (hR.fills_succ hfills).imp_left fun hfills' => ⟨hfills', ?_⟩
    obtain ⟨g, h⟩ := hfills.1
    by_cases hexec : R.events n = .exec
    · rw [sys, hexec, Sys.next, Mig.exec_of_nil haf, haf]
    · exact (h.af_next_of_filled hexec).trans haf
  · rintro n ⟨⟨hin, rfl⟩, haf⟩ hdeliver
    refine (hR.filled_succ hin).symm.imp_right fun hin' => ⟨_, ?_, hin', rfl⟩
    obtain ⟨g, h⟩ := hin
    have hrdf : (R.sys n).mig.rdf ≠ [] := fun hrdf => by simp [Sys.toFill, haf, hrdf] at hpos
    have hexec : R.events n ≠ .exec := fun hexec => by simp [hexec, Event.delivers] at hdeliver
    exact toFill_next_of_tail (h.af_next_of_filled hexec) (rdf_next_of_delivers hdeliver hrdf) hrdf

/-- The words of a line have come back some time. -/
theorem leaves_filled (hfair : R.Fair) : LeadsTo (R.In (.miss L .filled)) (R.Nearer 18) := by
  have hrank : ∀ M, LeadsTo (Fills R L M) (fun n => R.Nearer 18 n ∨ ∃ M' < M, Fills R L M' n) := by
    intro M
    rcases Nat.eq_zero_or_pos M with rfl | hpos
    · -- the bus domain hears of it at its next edge
      refine .of_recurs hfair.wb (fun n hfills => hR.fills_succ hfills) ?_
      rintro n ⟨hin, hzero⟩ hwb
      refine .inl (hR.nearer_succ hin (Nat.succ_pos 17) hwb fun e hwait => ?_)
      obtain ⟨g, h⟩ := hin
      simp [Phase.Waits, Sys.inputs, h.done_of_toFill hzero] at hwait
    · intro n hfills
      by_cases haf : (R.sys n).mig.af = []
      · exact hR.fills_deliver hfair hpos n ⟨hfills, haf⟩
      · exact hR.fills_exec hfair M n ⟨hfills, haf⟩
  exact fun n h => LeadsTo.of_rank hrank _ n ⟨h, rfl⟩

/-- Each phase is left for one that is nearer to the answer. -/
theorem leaves (hfair : R.Fair) (hrank : 0 < p.rank) : LeadsTo (R.In p) (R.Nearer p.rank) := by
  cases p with
  | quiet | hit => exact absurd hrank (Nat.lt_irrefl 0)
  | looked => exact hR.leaves_of_not_waits hfair hrank fun _ => id
  | miss L stage =>
    cases stage with
    | writeback => exact fun n h => hR.leaves_writeback hfair n ⟨_, h⟩
    | filled => exact hR.leaves_filled hfair
    | _ => exact hR.leaves_of_not_waits hfair hrank fun _ => id

/-- A line serves the request some time. -/
theorem exists_rank_zero (hfair : R.Fair) (h : R.In p n) :
    ∃ k ≥ n, ∃ p', R.In p' k ∧ p'.rank = 0 := by
  refine LeadsTo.of_rank (P := fun r n => ∃ p, R.In p n ∧ p.rank = r) (Q := fun n => ∃ p,
    R.In p n ∧ p.rank = 0)
    (fun r n hr => ?_) p.rank n ⟨p, h, rfl⟩
  obtain ⟨p, h, rfl⟩ := hr
  rcases Nat.eq_zero_or_pos p.rank with hzero | hpos
  · exact ⟨n, Nat.le_refl n, .inl ⟨p, h, hzero⟩⟩
  · obtain ⟨k, hk, p', h', hless⟩ := hR.leaves hfair hpos n h
    exact ⟨k, hk, .inr ⟨_, hless, p', h', rfl⟩⟩

/-- The bus asks for the same word as in cycle `n`. -/
structure Asks (R : Run) (n k : ℕ) : Prop where
  wbReq : (R.sys k).bus.wbReq = true
  tag : (R.sys k).bus.tag = (R.sys n).bus.tag
  word : (R.sys k).bus.word = (R.sys n).bus.word
  we : (R.sys k).bus.wbWeI = (R.sys n).bus.wbWeI

/-- A request lasts until it is acknowledged. -/
theorem asks_of_not_ack {k : ℕ} (hreq : (R.sys n).bus.wbReq = true) (hnk : n ≤ k)
    (hno : ∀ j ≥ n, j < k → (R.sys j).regs.wbAckO = false) : Asks R n k := by
  induction k, hnk using Nat.le_induction with
  | base => exact ⟨hreq, rfl, rfl, rfl⟩
  | succ k hk ih =>
    obtain ⟨hreq', htag, hword, hwe⟩ := ih fun j hj hjk => hno j hj (Nat.lt_succ_of_lt hjk)
    cases hwb : (R.events k).isWb with
    | false =>
      have hbus : (R.sys (k + 1)).bus = (R.sys k).bus := (next_of_not_isWb (σ := R.sys k) hwb).2.1
      exact ⟨hbus ▸ hreq', hbus ▸ htag, hbus ▸ hword, hbus ▸ hwe⟩
    | true =>
      obtain ⟨e, -, hbus, hrule, -⟩ := next_of_isWb (σ := R.sys k) hwb
      have hbus' : (R.sys (k + 1)).bus = e.bus := hbus
      have hack := hno k hk (Nat.lt_succ_self k)
      replace hrule := hrule (hR.rule k)
      have hreq'' := hrule.continues hreq' fun hacked => absurd hacked (by simp [hack])
      obtain ⟨hgoes, -⟩ := hrule.waits hreq' hack
      have hword' : e.bus.word = (R.sys k).bus.word := by
        rw [Bus.word, hgoes.upper, hgoes.lower, Bus.word]
      rw [← hbus'] at hreq'' hgoes hword' hrule
      exact ⟨hreq'', (hrule.sameLine hreq' hreq'').trans htag, hword'.trans hword, hgoes.we.trans hwe⟩

/-- A request is acknowledged some time. -/
theorem exists_ack (hfair : R.Fair) (hreq : (R.sys n).bus.wbReq = true) :
    ∃ k ≥ n, (R.sys k).regs.wbAckO = true := by
  by_contra hcontra
  have hno : ∀ k ≥ n, (R.sys k).regs.wbAckO = false := fun k hk =>
    Bool.eq_false_iff.mpr fun hack => hcontra ⟨k, hk, hack⟩
  have hreqs : ∀ k ≥ n, (R.sys k).bus.wbReq = true := fun k hk =>
    (hR.asks_of_not_ack hreq hk fun j hj _ => hno j hj).wbReq
  obtain ⟨k₀, hk₀, hwb₀⟩ := hfair.wb n
  -- after an edge the request is not a new one, and no acknowledgement is left
  have hsettled : ∀ k ≥ k₀ + 1, (R.sys k).regs.wbReqR = true ∧ (R.sys k).regs.wbAckOR = false := by
    have hedge : ∀ k ≥ n, (R.events k).isWb = true →
        (R.sys (k + 1)).regs.wbReqR = true ∧ (R.sys (k + 1)).regs.wbAckOR = false :=
          fun k hk hwb => by
      obtain ⟨e, hregs, -⟩ := next_of_isWb (σ := R.sys k) hwb
      have hregs' : (R.sys (k + 1)).regs = step ((R.sys k).inputs e) (R.sys k).regs := hregs
      rw [hregs']
      exact ⟨hreqs k hk, hno k hk⟩
    intro k hk
    induction k, hk using Nat.le_induction with
    | base => exact hedge k₀ hk₀ hwb₀
    | succ k hk ih =>
      cases hwb : (R.events k).isWb with
      | false =>
        have hregs : (R.sys (k + 1)).regs = (R.sys k).regs := (next_of_not_isWb (σ := R.sys k) hwb).1
        rw [hregs]
        exact ih
      | true => exact hedge k (by omega) hwb
  -- from there on a phase of rank zero acknowledges at the next edge
  obtain ⟨⟨p, g, h⟩, -⟩ := hR.linked (k₀ + 1)
  obtain ⟨k₁, hk₁, p', h', hzero⟩ := hR.exists_rank_zero hfair ⟨g, h⟩
  have hacked : ∀ k, (k₁ ≤ k ∧ R.In p' k) → (R.events k).isWb = true →
      (R.sys (k + 1)).regs.wbAckO = true := by
    rintro k ⟨hk, g', hlinked⟩ hwb
    obtain ⟨e, hregs, -⟩ := next_of_isWb (σ := R.sys k) hwb
    obtain ⟨hr, hackR⟩ := hsettled k (hk₁.trans hk)
    have hack := hlinked.holds.acks (i := (R.sys k).inputs e) rfl hzero (hreqs k (by omega)) hr
      (hno k (by omega)) hackR
    rwa [← hregs] at hack
  obtain ⟨k, hk, hack⟩ : ∃ k ≥ k₁, (R.sys k).regs.wbAckO = true := by
    refine LeadsTo.of_recurs (P := fun k => k₁ ≤ k ∧ R.In p' k)
      (Q := fun k => (R.sys k).regs.wbAckO = true) hfair.wb
      (fun k hk => ?_) hacked k₁ ⟨Nat.le_refl k₁, h'⟩
    cases hwb : (R.events k).isWb with
    | false => exact .inl ⟨Nat.le_succ_of_le hk.1, hR.stays hk.2 hwb⟩
    | true => exact .inr (hacked k hk hwb)
  exact hcontra ⟨k, by omega, hack⟩

/-- **Every request is answered** while it is still made, and a read with the word as it was written
last. -/
theorem request_answered (hfair : R.Fair) (hreq : (R.sys n).bus.wbReq = true) :
    ∃ k ≥ n, (R.sys k).regs.wbAckO = true ∧ Asks R n k ∧
      ((R.sys n).bus.wbWeI = false → (R.sys k).wbDatO = R.contents k (R.sys n).bus.tag
        (R.sys n).bus.word) := by
  have hacked := hR.exists_ack hfair hreq
  -- the first acknowledgement
  obtain ⟨hk, hack⟩ := Nat.find_spec hacked
  have hasks := hR.asks_of_not_ack hreq hk fun j hj hjk =>
    Bool.eq_false_iff.mpr fun hack => Nat.find_min hacked hjk ⟨hj, hack⟩
  refine ⟨_, hk, hack, hasks, fun hread => ?_⟩
  rw [← hasks.tag, ← hasks.word]
  exact (hR.linked _).2 hack (hasks.we.trans hread)

end Proper

theorem fair_board : board.Fair where
  wb n := ⟨4 * n + 2, by omega, (isWb_board _).trans (decide_eq_true (by omega))⟩
  exec n := ⟨4 * n + 3, by omega, events_exec (by omega)⟩
  deliver n := ⟨4 * n, by omega, congrArg Event.delivers (events_edge (by omega))⟩

/-- The read that has to wait for the line that is written back gets its word. -/
theorem request_answered_board :
    ∃ k ≥ 539, (board.sys k).regs.wbAckO = true ∧ Proper.Asks board 539 k ∧
      ((board.sys 539).bus.wbWeI = false →
        (board.sys k).wbDatO = board.contents k 4 (board.sys 539).bus.word) := by
  obtain ⟨-, -, ⟨hreq, htag, -⟩, -⟩ := trace_board
  rw [← sys_board] at hreq htag
  rw [← htag]
  exact Proper.request_answered proper_board fair_board hreq

end Run

end ProbableCause.Ddr2.Cache
