import ProbableCause.Ddr2.CacheTransfer
import ProbableCause.Ddr2.CacheClocks

/-!
# `Ddr2.Coherence` — the cache returns what was written last

An edge of the bus clock moves the cache to its next phase (`Linked.wbEdge`). With `Linked.exec` and
`Linked.ddr2Edge` the system is in a phase at all times, however the edges of the two clocks and the
commands follow each other (`Run.Proper.linked`). So what the bus reads is what was written there
last (`Run.Proper.reads_contents`), what is not dirty is in the memory
(`Run.Proper.memory_contents`), no write is executed without its words, and the FIFOs never hold
more than one line that is written back and one that is filled (`Run.Proper.fifos`).
-/

namespace ProbableCause.Ddr2.Cache

variable {σ : Sys} {L : Line} {m : Tag → Content} {late : ℕ} {p p' : Phase}
  {g g' : Progress} {e : WbEdge} {i : Inputs} {stage : Stage}

/-! ## What the bus port does -/

/-- What the registers of the bus domain see, if the other domain has told `wd` and `rd`. -/
def Sys.told (σ : Sys) (e : WbEdge) (wd rd : Bool) : Inputs := ⟨false, σ.bus, wd, rd, e.appAfAfull⟩

theorem portWrite_of_not_ack (h : (σ.regs.wbAckO && σ.bus.wbWeI) = false) (f : Content) :
    σ.portWrite f = f := by
  have hsel : σ.regs.wbCacheSelWe σ.bus = 0 := by
    rw [Regs.wbCacheSelWe, Bool.and_comm, h]
    rfl
  rw [Sys.portWrite, hsel, setBytes_zero, Function.update_eq_self]

theorem store_of_not_ack (h : (σ.regs.wbAckO && σ.bus.wbWeI) = false) : σ.store m = m := by
  rw [Sys.store, h]
  rfl

theorem ram_wbEdge_of_not_ack (h : (σ.regs.wbAckO && σ.bus.wbWeI) = false) :
    (σ.wbEdge i e).ram = σ.ram := by
  simp only [Sys.wbEdge, portWrite_of_not_ack h, Function.update_eq_self, ite_self]

theorem data_wbEdge_of_not_ack (h : (σ.regs.wbAckO && σ.bus.wbWeI) = false) :
    (σ.wbEdge i e).cache.data = σ.cache.data := ram_wbEdge_of_not_ack (i := i) (e := e) h

section
variable {wd rd : Bool}

/-- The lines after an edge at which none is validated or invalidated. -/
theorem holds_wbEdge (hset : Settled σ.regs) :
    (σ.wbEdge (σ.told e wd rd) e).cache.holds = σ.cache.holds := by
  funext k
  refine (holds_step rfl hset.validate k).trans ?_
  rw [hset.invalidate]
  rfl

theorem cache_wbEdge (hset : Settled σ.regs) (hack : σ.regs.wbAckO = false)
    (hdone : σ.regs.doWritebackFinished = false) : (σ.wbEdge (σ.told e wd rd) e).cache = σ.cache := by
  have hholds : (σ.wbEdge (σ.told e wd rd) e).cache.holds = σ.cache.holds := holds_wbEdge hset
  have hdirty : (σ.wbEdge (σ.told e wd rd) e).cache.dirty = σ.cache.dirty :=
    linesDirty_step (i := σ.told e wd rd) rfl hack hdone
  exact WriteBack.Cache.ext hholds hdirty (data_wbEdge_of_not_ack (by simp [hack]))

/-- **The bus port stores and returns words of the line that it addresses.** -/
theorem represents_wbEdge (hsound : Sound σ.bus σ.regs) (hset : Settled σ.regs)
    (hen : σ.regs.wbCacheEn = true) (hdone : σ.regs.doWritebackFinished = false) {mem : Tag → Content}
    (h : WriteBack.Represents σ.cache mem m) :
    WriteBack.Represents (σ.wbEdge (σ.told e wd rd) e).cache mem (σ.store m) := by
  have hholds : (σ.wbEdge (σ.told e wd rd) e).cache.holds = σ.cache.holds := holds_wbEdge hset
  cases hwrite : σ.regs.wbAckO && σ.bus.wbWeI with
  | false =>
    have hcache : σ.regs.cacheWrite σ.bus = false := by
      rw [Regs.cacheWrite, Bool.and_assoc, Bool.and_comm σ.bus.wbWeI, hwrite, Bool.and_false]
    have hdirty : (σ.wbEdge (σ.told e wd rd) e).cache.dirty = σ.cache.dirty := by
      simp [Sys.cache, Sys.wbEdge, step, Table.step, Sys.told, hcache, hdone]
    have heq : (σ.wbEdge (σ.told e wd rd) e).cache = σ.cache :=
      WriteBack.Cache.ext hholds hdirty (data_wbEdge_of_not_ack hwrite)
    rw [store_of_not_ack hwrite, heq]
    exact h
  | true =>
    -- what is acknowledged is served by a line, so the word goes where the tag is
    obtain ⟨hack, hwe⟩ : σ.regs.wbAckO = true ∧ σ.bus.wbWeI = true := by simpa using hwrite
    obtain ⟨hreq, -, L, hsel, -, henc, hvalid, htag⟩ := hsound.ack hack
    have hline : σ.cache.holds L = some σ.bus.tag := holds_eq_some.mpr ⟨hvalid, htag⟩
    have hdirty : (σ.wbEdge (σ.told e wd rd) e).cache.dirty =
        Function.update σ.cache.dirty L true := by
      funext k
      have hcache : σ.regs.cacheWrite σ.bus = true := by simp [Regs.cacheWrite, hreq, hwe, hack]
      by_cases hk : k = L
      · simp [Sys.cache, Sys.wbEdge, step, Table.step, Sys.told, hcache, hsel, Lines.or, hk]
      · simp [Sys.cache, Sys.wbEdge, step, Table.step, Sys.told, hcache, hsel, Lines.or,
          hk, Lines.only]
    have hdata : (σ.wbEdge (σ.told e wd rd) e).cache.data =
        Function.update σ.cache.data L (σ.portWrite (σ.cache.data L)) := by
      simp only [Sys.cache, Sys.wbEdge, hen, if_true, henc]
    have heq : (σ.wbEdge (σ.told e wd rd) e).cache = { σ.cache with
        dirty := Function.update σ.cache.dirty L true
        data := Function.update σ.cache.data L (σ.portWrite (σ.cache.data L)) } :=
      WriteBack.Cache.ext hholds hdirty hdata
    have hport : ∀ f, σ.portWrite f =
        Function.update f σ.bus.word (setBytes σ.bus.wbSelI σ.bus.wbDatI (f σ.bus.word)) :=
          fun f => by
      rw [Sys.portWrite, hsound.wbCacheAdr_of_write hwe, Regs.wbCacheSelWe, Bool.and_comm,
        hwrite, if_pos rfl]
    have hword := h.store hline σ.bus.word
      (setBytes σ.bus.wbSelI σ.bus.wbDatI (m σ.bus.tag σ.bus.word))
    rw [Sys.store, hwrite, if_pos rfl, heq, hport]
    simp only [h.line hline] at hword ⊢
    exact hword

/-! ## What becomes of the FIFOs -/

theorem Rests.next {age age' : ℕ} {d : Ddr2Regs} (h : Rests age late d) (hage : age' ≤ age + 1) :
    Rests age' (late + 1) d :=
  ⟨h.doWriteback, h.wordAddr, fun hflags => Nat.le_trans hage (Nat.succ_le_succ (h.stale hflags))⟩

theorem Transfer.not_afAfull (h : Transfer g m σ)
    (hrule : e.appAfAfull = true → 32 < σ.mig.af.length) :
    e.appAfAfull = false := by
  refine Bool.eq_false_iff.mpr fun hfull => ?_
  have hlength := congrArg List.length h.af
  rw [List.length_append, List.length_map, List.length_map, List.length_range',
    List.length_range'] at hlength
  have haddressed := h.ordered.addressed
  have hrequested := h.ordered.requested
  have hlt := hrule hfull
  omega

theorem mig_wbEdge_of_not_wren (h : σ.regs.appAfWren e.appAfAfull = false) :
    (σ.wbEdge i e).mig = σ.mig := by
  simp [Sys.wbEdge, h]

theorem Transfer.keep (h : Transfer g m σ) (hwren : σ.regs.appAfWren e.appAfAfull = false)
    (htag : e.bus.tag = σ.bus.tag) : Transfer g m (σ.wbEdge i e) := by
  obtain ⟨hordered, haf, hwdf, hrdf, hmem, hdelivery⟩ := h
  have hmig := mig_wbEdge_of_not_wren (i := i) hwren
  refine ⟨hordered, ?_, ?_, ?_, hmig ▸ hmem, ⟨?_, ?_, ?_, ?_⟩⟩
  · exact (congrArg Mig.af hmig).trans (haf.trans (by rw [← htag]; rfl))
  · simp only [Sys.pending, hmig]
    exact hwdf
  · exact (congrArg Mig.rdf hmig).trans (hrdf.trans (by rw [← htag]; rfl))
  · exact hmig ▸ hdelivery.lt
  · exact hmig ▸ hdelivery.aligned
  · exact hmig ▸ hdelivery.le
  · exact hmig ▸ hdelivery.valid

/-- Nothing is in the FIFOs. -/
theorem Transfer.keep_idle (h : Transfer .idle m σ)
    (hwren : σ.regs.appAfWren e.appAfAfull = false) (t : Tag) (m' : Tag → Content) :
      Transfer { Progress.idle with victim := t } m' (σ.wbEdge i e) := by
  obtain ⟨-, haf, hwdf, hrdf, -, hdelivery⟩ := h
  have hmig := mig_wbEdge_of_not_wren (i := i) hwren
  refine ⟨Progress.ordered_idle t, ?_, ?_, ?_, fun w hw => absurd hw (Nat.not_lt_zero _),
    ⟨?_, ?_, ?_, ?_⟩⟩
  · exact (congrArg Mig.af hmig).trans haf
  · simp only [Sys.pending, hmig]
    exact hwdf
  · exact (congrArg Mig.rdf hmig).trans hrdf
  · exact hmig ▸ hdelivery.lt
  · exact hmig ▸ hdelivery.aligned
  · exact hmig ▸ hdelivery.le
  · exact hmig ▸ hdelivery.valid

/-- A write is commanded. -/
theorem Transfer.command_write (h : Transfer g m σ) (hwren : σ.regs.appAfWren e.appAfAfull = true)
    (hcommand : σ.command = ⟨false, g.victim, g.addressed⟩) (hlt : g.addressed < 16)
    (hdumped : g.dumped = 64) (hrequested : g.requested = 0) (htag : e.bus.tag = σ.bus.tag) :
    Transfer { g with addressed := g.addressed + 1 } m (σ.wbEdge i e) := by
  obtain ⟨hordered, haf, hwdf, hrdf, hmem, hdelivery⟩ := h
  have hfetched : g.fetched = 0 := Nat.le_zero.mp (hrequested ▸ hordered.fetched)
  refine ⟨{ hordered with
      addressed := hlt
      dumped_first := fun _ => hdumped
      written := Nat.le_succ_of_le hordered.written
      written_first := fun hpos => absurd hpos (by simp [hfetched]) }, ?_, hwdf,
        hrdf.trans (by rw [← htag]; rfl),
    hmem, ⟨hdelivery.lt, hdelivery.aligned, hdelivery.le, hdelivery.valid⟩⟩
  simp only [Sys.wbEdge, hwren, if_true, haf, hcommand, hrequested, Nat.zero_sub,
    List.range'_zero, List.map_nil, List.append_nil]
  rw [Nat.sub_add_comm hordered.written, List.range'_concat, List.map_append, Nat.one_mul,
    Nat.add_sub_cancel' hordered.written]
  rfl

/-- A read is commanded. -/
theorem Transfer.command_read (h : Transfer g m σ) (hwren : σ.regs.appAfWren e.appAfAfull = true)
    (hcommand : σ.command = ⟨true, σ.bus.tag, g.requested⟩) (hlt : g.requested < 16)
    (htag : e.bus.tag = σ.bus.tag) :
    Transfer { g with requested := g.requested + 1 } m (σ.wbEdge i e) := by
  obtain ⟨hordered, haf, hwdf, hrdf, hmem, hdelivery⟩ := h
  refine ⟨{ hordered with
      requested := hlt
      fetched := Nat.le_succ_of_le hordered.fetched }, ?_, hwdf, hrdf.trans (by rw [← htag]; rfl),
    hmem, ⟨hdelivery.lt, hdelivery.aligned, hdelivery.le, hdelivery.valid⟩⟩
  simp only [Sys.wbEdge, hwren, if_true, haf, hcommand, List.append_assoc]
  rw [Nat.sub_add_comm hordered.fetched, List.range'_concat, List.map_append, Nat.one_mul,
    Nat.add_sub_cancel' hordered.fetched, htag]
  rfl

/-- The words of a write that is commanded are those of the line. -/
theorem represents_command_write (hline : σ.cache.holds L = some g.victim) {mem : Tag → Content}
    (h : WriteBack.Represents σ.cache (g.flushed m mem) m) :
    WriteBack.Represents σ.cache
      (Progress.flushed { g with addressed := g.addressed + 1 } m mem) m := by
  refine h.copy hline (fun u hu => ?_) fun w => ?_
  · exact (Progress.flushed_of_ne (g := { g with addressed := g.addressed + 1 }) hu).trans
      (Progress.flushed_of_ne hu).symm
  · -- the words of the new command are in the line, all others stay what they were
    simp only [Progress.flushed, true_and, h.line hline]
    by_cases hw : 16 * g.written ≤ w.toNat ∧ w.toNat < 16 * (g.addressed + 1)
    · exact .inr (if_pos hw)
    · refine .inl ?_
      rw [if_neg hw, if_neg fun hw' => hw ⟨hw'.1, by omega⟩]

theorem Addressing.next {n age age' : ℕ} (h : Addressing n age late g L σ) (hset : Settled σ.regs)
    (hage : age' ≤ age + 1) : Addressing n age' (late + 1) g L (σ.wbEdge (σ.told e wd rd) e) :=
  ⟨h.dumped, h.addressed, h.requested,
    h.victim.trans (congrFun (cachedAdr_step (i := σ.told e wd rd) rfl hset.validate).symm L),
    h.rests.next hage⟩

theorem Addressing.mono {n age age' : ℕ} (h : Addressing n age late g L σ) (hage : age' ≤ age) :
    Addressing n age' late g L σ :=
  ⟨h.dumped, h.addressed, h.requested, h.victim, h.rests.doWriteback, h.rests.wordAddr,
    fun hflags => Nat.le_trans hage (h.rests.stale hflags)⟩

theorem Reading.next {n : ℕ} (h : Reading n g L m σ) (hwrite : (σ.regs.wbAckO && σ.bus.wbWeI) = false)
    (htag : e.bus.tag = σ.bus.tag) : Reading n g L m (σ.wbEdge i e) := by
  obtain ⟨hevicted, hrequested, hdo, hwe, hfill, hline⟩ := h
  have hram : (σ.wbEdge i e).ram = σ.ram := ram_wbEdge_of_not_ack hwrite
  have htag' : (σ.wbEdge i e).bus.tag = σ.bus.tag := htag
  exact ⟨htag' ▸ hevicted, hrequested, hdo, hwe, hfill, by rwa [hram, htag']⟩

/-! ## What the other domain has told -/

/-- What it has told is so, and it tells nothing before it is asked. -/
def Phase.Heard (wd rd : Bool) (d : Ddr2Regs) : Phase → Prop
  | .miss _ .startWriteback => wd = false
  | .miss _ (.writeback _) => wd = true → d.ddr2WriteDone = true
  | .miss _ .startFill | .miss _ .startReadfrom | .miss _ (.readfrom _) => rd = false
  | .miss _ .filled => rd = true → d.ddr2ReadDone = true
  | _ => True

theorem Rests.not_done {age : ℕ} {d : Ddr2Regs} (h : Rests age late d) (hlate : late < age) :
    d.ddr2WriteDone = false ∧ d.ddr2ReadDone = false := by
  constructor <;> refine Bool.eq_false_iff.mpr fun hdone =>
    absurd (h.stale ?_) (Nat.not_le_of_lt hlate)
  · exact .inr (.inl hdone)
  · exact .inr (.inr (.inl hdone))

theorem Linked.heard (h : Linked p late g m σ) (hlate : late ≤ 3) :
    p.Heard σ.ddr2.ddr2WriteDone σ.ddr2.ddr2ReadDone σ.ddr2 := by
  have hlink := h.link
  cases p with
  | quiet | looked | hit => trivial
  | miss L stage =>
    replace hlink := hlink.1
    cases stage with
    | startWriteback => exact (hlink.2.not_done (Nat.lt_succ_of_le hlate)).1
    | writeback | filled => exact id
    | startFill | startReadfrom => exact (hlink.2.2.not_done (Nat.lt_succ_of_le hlate)).2
    | readfrom n =>
      -- not all words are here while addresses are still commanded
      obtain ⟨hn, -⟩ := h.holds.facts.2
      have hfill := hlink.filling
      have hreceived := h.transfer.ordered.received
      have hfetched := h.transfer.ordered.fetched
      have hrequested := hlink.requested
      generalize g.received = w at hfill hreceived
      cases hfill with
      | fills _ _ _ hread => exact hread
      | filled => omega
    | _ => trivial

/-- What has been told stays so until it is heard. -/
theorem Linked.heard_ddr2Edge {e : Ddr2Edge} (h : Linked p late g m σ)
    (hheard : p.Heard wd rd σ.ddr2) :
    p.Heard wd rd (σ.ddr2Edge e).ddr2 := by
  have hwrite := h.doWriteback
  have hread := h.doReadfrom
  cases p with
  | quiet | looked | hit => trivial
  | miss L stage =>
    cases stage with
    | writeback again =>
      intro hwd
      have hdone := hheard hwd
      have hwrite' : σ.fromBus.doWriteback = true := hwrite
      simp [Sys.ddr2Edge, Ddr2Regs.step, hwrite', hdone]
    | filled =>
      intro hrd
      have hdone := hheard hrd
      have hread' : σ.fromBus.doReadfrom = true := hread
      simp [Sys.ddr2Edge, Ddr2Regs.step, hread', hdone]
    | _ => exact hheard

theorem Phase.Heard.answers (h : p.Heard wd rd σ.ddr2) (hfull : e.appAfAfull = false) :
    p.Answers (σ.told e wd rd) := by
  cases p with
  | quiet | looked | hit => trivial
  | miss L stage =>
    cases stage with
    | startWriteback | startFill | startReadfrom => exact h
    | writebackAddresses => exact fun _ => hfull
    | readfrom => exact ⟨h, fun _ => hfull⟩
    | _ => trivial

/-! ## Edges of the bus clock -/

section
variable (h : Linked p late g m σ) (hrule : BusRule σ.bus σ.regs e.bus)
    (hgo : Goes (σ.told e wd rd) σ.regs p p')
include h hrule hgo

theorem Linked.holds_step :
    Holds p' (σ.wbEdge (σ.told e wd rd) e).bus (σ.wbEdge (σ.told e wd rd) e).regs :=
  h.holds.step (i := σ.told e wd rd) rfl hrule hgo

/-- The bus port is served, or a request is looked up. -/
theorem Linked.wbEdge_serving (hidle : g = .idle) (hset : Settled σ.regs)
    (hen : p.seq.wbCacheEn = true) (hdone : p.seq.doWritebackFinished = false)
    (hwren : p.seq.appAfWren e.appAfAfull = false)
    (hlink : p'.Link (late + 1) .idle (σ.store m) (σ.wbEdge (σ.told e wd rd) e)) :
    Linked p' (late + 1) .idle (σ.store m) (σ.wbEdge (σ.told e wd rd) e) := by
  subst hidle
  rw [← h.holds.seq] at hen hdone hwren
  have hrep := h.represents
  rw [Progress.flushed_of_written rfl] at hrep
  refine ⟨h.holds_step hrule hgo, h.transfer.keep_idle hwren 0 _, ?_, hlink⟩
  rw [Progress.flushed_of_written rfl]
  exact represents_wbEdge h.holds.sound hset hen hdone hrep

end

section
variable {stage' : Stage} (h : Linked (.miss L stage) late g m σ) (hrule : BusRule σ.bus σ.regs e.bus)
  (hgo : Goes (σ.told e wd rd) σ.regs (.miss L stage) p')
include h

theorem Linked.tag_next (hrule : BusRule σ.bus σ.regs e.bus) : e.bus.tag = σ.bus.tag := by
  have hmiss := h.holds.facts.1
  exact hrule.sameLine hmiss.wbReq
    (hrule.continues hmiss.wbReq fun hack => absurd hack (by simp [hmiss.wbAckO]))

theorem Linked.not_write : (σ.regs.wbAckO && σ.bus.wbWeI) = false := by simp [h.holds.facts.1.wbAckO]

/-- The other domain has the same line to address in the next stage. -/
theorem Linked.enc_next
    (hknown : stage = .checked ∧ stage'.known = 1 ∨
      stage ≠ .checked ∧ stage'.known ≤ stage.known + 1) :
    σ.ddr2.selectedCacheLineEncDdr2Clk = L ∨ stage'.known ≤ late + 1 := by
  rcases hknown with ⟨-, hone⟩ | ⟨hstage, hle⟩
  · exact .inr (hone ▸ Nat.le_add_left 1 late)
  · exact (h.link.2 hstage).imp_right fun hlate => Nat.le_trans hle (Nat.succ_le_succ hlate)

/-- A miss goes on. -/
theorem Linked.wbEdge_miss (hholds : Holds (.miss L stage') e.bus (step (σ.told e wd rd) σ.regs))
    (htransfer : Transfer g' m (σ.wbEdge (σ.told e wd rd) e))
    (hrep : WriteBack.Represents (σ.wbEdge (σ.told e wd rd) e).cache (g'.flushed m σ.mig.mem) m)
    (hlink : stage'.Link (late + 1) g' L m (σ.wbEdge (σ.told e wd rd) e))
    (hknown : stage = .checked ∧ stage'.known = 1 ∨
      stage ≠ .checked ∧ stage'.known ≤ stage.known + 1) :
    Linked (.miss L stage') (late + 1) g' (σ.store m) (σ.wbEdge (σ.told e wd rd) e) := by
  rw [store_of_not_ack h.not_write]
  exact ⟨hholds, htransfer, hrep, hlink, fun _ => h.enc_next hknown⟩

/-- No line is changed and nothing is commanded. -/
theorem Linked.wbEdge_keep (hrule : BusRule σ.bus σ.regs e.bus)
    (hgo : Goes (σ.told e wd rd) σ.regs (.miss L stage) (.miss L stage')) (hset : Settled σ.regs)
    (hdone : stage.seq.doWritebackFinished = false) (hwren : stage.seq.appAfWren e.appAfAfull = false)
    (hlink : stage'.Link (late + 1) g L m (σ.wbEdge (σ.told e wd rd) e))
    (hknown : stage = .checked ∧ stage'.known = 1 ∨
      stage ≠ .checked ∧ stage'.known ≤ stage.known + 1) :
    Linked (.miss L stage') (late + 1) g (σ.store m) (σ.wbEdge (σ.told e wd rd) e) := by
  have hseq : σ.regs.toSequencer = stage.seq := h.holds.seq
  rw [← hseq] at hdone hwren
  refine h.wbEdge_miss (h.holds_step hrule hgo)
    (h.transfer.keep hwren (h.tag_next hrule)) ?_ hlink hknown
  rw [cache_wbEdge hset h.holds.facts.1.wbAckO hdone]
  exact h.represents

end

section
variable (hrule : BusRule σ.bus σ.regs e.bus)
include hrule

/-- The line that is written back is the victim. -/
theorem Linked.wbEdge_startWriteback (h : Linked (.miss L .startWriteback) late g m σ)
    (hlate : late ≤ 3) (hgo : Goes (σ.told e wd rd) σ.regs (.miss L .startWriteback)
      (.miss L (.writeback false))) :
    Linked (.miss L (.writeback false)) (late + 1)
      { Progress.idle with victim := σ.regs.cachedAdr L } (σ.store m)
        (σ.wbEdge (σ.told e wd rd) e) := by
  obtain ⟨rfl, hrests⟩ := h.link.1
  obtain ⟨hset, -⟩ := h.holds.facts.2
  have hseq : σ.regs.toSequencer = Stage.startWriteback.seq := h.holds.seq
  have hwren : σ.regs.appAfWren e.appAfAfull = false := by
    simp [hseq, Stage.seq, Sequencer.quiet, Sequencer.appAfWren]
  have hflags : σ.ddr2.doWritebackDdr2FifoWe = false ∧ σ.ddr2.rdDataValidR = false := by
    constructor <;> refine Bool.eq_false_iff.mpr fun hflag => absurd (hrests.stale ?_) (by omega)
    · exact .inl hflag
    · exact .inr (.inr (.inr hflag))
  have hrep := h.represents
  rw [Progress.flushed_of_written rfl] at hrep
  obtain ⟨hwrite, hread⟩ := hrests.not_done (Nat.lt_succ_of_le hlate)
  refine h.wbEdge_miss (h.holds_step hrule hgo) (h.transfer.keep_idle hwren _ _) ?_
    ⟨rfl, rfl, ?_, hread, hflags.2, .waits hrests.doWriteback hrests.wordAddr hflags.1 hwrite⟩
    (.inr ⟨by simp, Nat.le_succ _⟩)
  · rw [Progress.flushed_of_written rfl, cache_wbEdge hset h.holds.facts.1.wbAckO (by rw [hseq]; rfl)]
    exact hrep
  · exact (congrFun (cachedAdr_step (i := σ.told e wd rd) rfl hset.validate) L).symm

/-- The address of sixteen words is commanded. -/
theorem Linked.wbEdge_address {n : ℕ} (h : Linked (.miss L (.writebackAddresses n)) late g m σ)
    (hgo : Goes (σ.told e wd rd) σ.regs (.miss L (.writebackAddresses n)) (.miss L stage'))
    (hfull : e.appAfAfull = false)
    (hlink : ∀ g' σ', Addressing (n + 1) (n + 3) (late + 1) g' L σ' →
    stage'.Link (late + 1) g' L m σ') (hknown : stage'.known = 1) :
    Linked (.miss L stage') (late + 1) { g with addressed := g.addressed + 1 } (σ.store m)
      (σ.wbEdge (σ.told e wd rd) e) := by
  have hadr := h.link.1
  obtain ⟨hn, hset, hsel, hvalid, -⟩ := h.holds.facts.2
  have hseq : σ.regs.toSequencer = (Stage.writebackAddresses n).seq := h.holds.seq
  have hwren : σ.regs.appAfWren e.appAfAfull = true := by
    simp [hseq, Stage.seq, Sequencer.quiet, Sequencer.appAfWren, hfull]
  have hcommand : σ.command = ⟨false, g.victim, g.addressed⟩ := by
    simp [Sys.command, hseq, Stage.seq, Sequencer.quiet, Sequencer.doingReadfrom,
      Table.cachedAddr, hsel.r2, Lines.first?_only, hadr.victim, hadr.addressed]
  have hline : σ.cache.holds L = some g.victim := holds_eq_some.mpr ⟨hvalid, hadr.victim.symm⟩
  have hnext : Addressing n (n + 3) (late + 1) g L (σ.wbEdge (σ.told e wd rd) e) :=
    hadr.next hset (Nat.le_refl _)
  refine h.wbEdge_miss (h.holds_step hrule hgo)
    (h.transfer.command_write hwren hcommand (hadr.addressed ▸ hn) hadr.dumped hadr.requested
      (h.tag_next hrule)) ?_
    (hlink _ _ ⟨hnext.dumped, congrArg (· + 1) hnext.addressed, hnext.requested,
      hnext.victim, hnext.rests⟩)
    (.inr ⟨by simp, hknown.trans_le (Nat.le_add_left 1 _)⟩)
  rw [cache_wbEdge hset h.holds.facts.1.wbAckO (by rw [hseq]; rfl)]
  exact represents_command_write hline h.represents

/-- The line is clean. -/
theorem Linked.wbEdge_writebackDone (h : Linked (.miss L .writebackDone) late g m σ)
    (hgo : Goes (σ.told e wd rd) σ.regs (.miss L .writebackDone) (.miss L .startFill)) :
    Linked (.miss L .startFill) (late + 1) g (σ.store m) (σ.wbEdge (σ.told e wd rd) e) := by
  have hadr := h.link.1
  have hmiss := h.holds.facts.1
  obtain ⟨hset, hsel, hvalid, -⟩ := h.holds.facts.2
  have hseq : σ.regs.toSequencer = Stage.writebackDone.seq := h.holds.seq
  have hwren : σ.regs.appAfWren e.appAfAfull = false := by
    simp [hseq, Stage.seq, Sequencer.quiet, Sequencer.appAfWren]
  have htag : (σ.wbEdge (σ.told e wd rd) e).bus.tag = σ.bus.tag := h.tag_next hrule
  have hvictim : g.victim ≠ σ.bus.tag := hadr.victim ▸ hmiss.absent L hvalid
  -- all sixteen commands are given: what is not in the memory yet is waiting in the FIFOs
  have hflushed : g.flushed m σ.mig.mem g.victim = m g.victim := by
    funext w
    simp only [Progress.flushed]
    split
    · rfl
    · next hw =>
      refine h.transfer.mem w ?_
      have haddressed := hadr.addressed
      have hlt := w.isLt
      simp only [true_and] at hw
      omega
  have hcache : (σ.wbEdge (σ.told e wd rd) e).cache = { σ.cache with
      dirty := Function.update σ.cache.dirty L false } := by
    refine WriteBack.Cache.ext (holds_wbEdge hset) (funext fun k => ?_)
      (data_wbEdge_of_not_ack h.not_write)
    have hdone : σ.regs.doWritebackFinished = true := by rw [hseq]; rfl
    by_cases hk : k = L
    · simp [Sys.cache, Sys.wbEdge, step, Table.step, Sys.told, Regs.cacheWrite, hmiss.wbAckO, hdone,
        hsel.r, Lines.sub, hk]
    · simp [Sys.cache, Sys.wbEdge, step, Table.step, Sys.told, Regs.cacheWrite, hmiss.wbAckO, hdone,
        hsel.r, Lines.sub, hk, Lines.only]
  refine h.wbEdge_miss (h.holds_step hrule hgo) (h.transfer.keep hwren (h.tag_next hrule)) ?_
    ⟨.inr ⟨hadr.dumped, hadr.addressed, htag ▸ hvictim⟩, hadr.requested, hadr.rests.next (by omega)⟩
    (.inr ⟨by simp, Nat.le_succ _⟩)
  rw [hcache]
  exact h.represents.clean (holds_eq_some.mpr ⟨hvalid, hadr.victim.symm⟩) hflushed

/-- The line is given up. -/
theorem Linked.wbEdge_drop (h : Linked (.miss L stage) late g m σ)
    (hgo : Goes (σ.told e wd rd) σ.regs (.miss L stage) (.miss L stage'))
    (hvalidate : σ.regs.cacheLineValidate = .none)
    (hinvalidate : σ.regs.cacheLineInvalidate = .only L) (hclean : σ.regs.linesDirty L = false)
    (hdone : stage.seq.doWritebackFinished = false)
    (hwren : stage.seq.appAfWren e.appAfAfull = false)
    (hlink : stage'.Link (late + 1) g L m (σ.wbEdge (σ.told e wd rd) e))
    (hknown : stage ≠ .checked ∧ stage'.known ≤ stage.known + 1) :
    Linked (.miss L stage') (late + 1) g (σ.store m) (σ.wbEdge (σ.told e wd rd) e) := by
  have hseq : σ.regs.toSequencer = stage.seq := h.holds.seq
  rw [← hseq] at hdone hwren
  have hcache : (σ.wbEdge (σ.told e wd rd) e).cache = { σ.cache with
      holds := Function.update σ.cache.holds L none } := by
    refine WriteBack.Cache.ext (funext fun k => ?_)
      (linesDirty_step (i := σ.told e wd rd) rfl h.holds.facts.1.wbAckO hdone)
        (data_wbEdge_of_not_ack h.not_write)
    refine (Cache.holds_step (i := σ.told e wd rd) rfl hvalidate k).trans ?_
    rw [hinvalidate]
    by_cases hk : k = L
    · simp [hk]
    · simp [hk, Lines.only, Sys.cache]
  refine h.wbEdge_miss (h.holds_step hrule hgo)
    (h.transfer.keep hwren (h.tag_next hrule)) ?_ hlink (.inr hknown)
  rw [hcache]
  exact h.represents.drop hclean

/-- The reading of sixteen words is commanded. -/
theorem Linked.wbEdge_read {n : ℕ} (h : Linked (.miss L (.readfrom n)) late g m σ)
    (hgo : Goes (σ.told e wd rd) σ.regs (.miss L (.readfrom n)) (.miss L stage'))
    (hfull : e.appAfAfull = false)
    (hlink : ∀ g' σ', Reading (n + 1) g' L m σ' → stage'.Link (late + 1) g' L m σ')
    (hknown : stage'.known ≤ n + 4) :
    Linked (.miss L stage') (late + 1) { g with requested := g.requested + 1 } (σ.store m)
      (σ.wbEdge (σ.told e wd rd) e) := by
  have hreading := h.link.1
  obtain ⟨hn, hset, hsel, hvalid⟩ := h.holds.facts.2
  have hseq : σ.regs.toSequencer = (Stage.readfrom n).seq := h.holds.seq
  have hwren : σ.regs.appAfWren e.appAfAfull = true := by
    simp [hseq, Stage.seq, Sequencer.quiet, Sequencer.appAfWren, hfull]
  have hcommand : σ.command = ⟨true, σ.bus.tag, g.requested⟩ := by
    simp [Sys.command, hseq, Stage.seq, Sequencer.quiet, Sequencer.doingReadfrom, hreading.requested]
  have hnext := hreading.next (i := σ.told e wd rd) h.not_write (h.tag_next hrule)
  refine h.wbEdge_miss (h.holds_step hrule hgo)
    (h.transfer.command_read hwren hcommand (hreading.requested ▸ hn) (h.tag_next hrule)) ?_
    (hlink _ _ ⟨hnext.evicted, congrArg (· + 1) hnext.requested, hnext.doWriteback,
      hnext.fifoWe, hnext.filling, hnext.line⟩)
    (.inr ⟨by simp, hknown⟩)
  rw [cache_wbEdge hset h.holds.facts.1.wbAckO (by rw [hseq]; rfl)]
  exact h.represents

/-- All words are here. -/
theorem Linked.wbEdge_filled (h : Linked (.miss L .filled) late g m σ)
    (hgo : Goes (σ.told e wd rd) σ.regs (.miss L .filled) (.miss L .fillDone))
    (hdone : σ.ddr2.ddr2ReadDone = true) :
    Linked (.miss L .fillDone) (late + 1) .idle (σ.store m) (σ.wbEdge (σ.told e wd rd) e) := by
  have hreading := h.link.1
  obtain ⟨hset, -, hvalid⟩ := h.holds.facts.2
  obtain ⟨hordered, haf, hwdf, hrdf, -, hdelivery⟩ := h.transfer
  have hseq : σ.regs.toSequencer = Stage.filled.seq := h.holds.seq
  have hwren : σ.regs.appAfWren e.appAfAfull = false := by
    simp [hseq, Stage.seq, Sequencer.quiet, Sequencer.appAfWren]
  obtain ⟨hreceived, hword⟩ := hreading.filling.of_done hdone
  have hrequested := hreading.requested
  have hfetched : g.fetched = 16 := by
    have hle := hordered.received
    have hle' := hordered.fetched
    omega
  have hwritten := hordered.written_first (by omega)
  have hempty : Transfer .idle m σ := by
    refine ⟨Progress.ordered_idle 0, ?_, ?_, ?_, fun w hw => absurd hw (Nat.not_lt_zero _), ?_⟩
    · rw [haf, hwritten, hfetched, hrequested, Nat.sub_self, Nat.sub_self]
      rfl
    · rw [hwdf, show g.dumped - 4 * g.written = 0 by rcases hreading.evicted with h | h <;> omega]
      rfl
    · rw [hrdf, hreceived, hfetched]
      rfl
    · have hle := hdelivery.le
      have hbeats : σ.mig.beats = 0 := by omega
      exact ⟨by omega, by rw [hbeats]; rfl, by rw [hbeats]; exact Nat.le_refl 0,
        fun hne => absurd hbeats hne⟩
  have hrep := h.represents
  rw [Progress.flushed_of_written hwritten] at hrep
  refine h.wbEdge_miss (h.holds_step hrule hgo) (hempty.keep_idle hwren 0 m) ?_
    ⟨rfl, ⟨hreading.doWriteback, hword, fun _ => Nat.zero_le _⟩, funext fun w => ?_⟩
    (.inr ⟨by simp, Nat.le_add_left 1 _⟩)
  · rw [Progress.flushed_of_written rfl, cache_wbEdge hset h.holds.facts.1.wbAckO (by rw [hseq]; rfl)]
    exact hrep
  · rw [ram_wbEdge_of_not_ack h.not_write, show (σ.wbEdge (σ.told e wd rd) e).bus.tag =
      σ.bus.tag from h.tag_next hrule]
    exact hreading.line w (by rw [hreceived]; exact w.isLt)

/-- The line is used for what has been filled in. -/
theorem Linked.wbEdge_validate (h : Linked (.miss L .validate) late g m σ)
    (hgo : Goes (σ.told e wd rd) σ.regs (.miss L .validate) .quiet) :
    Linked .quiet (late + 1) .idle (σ.store m) (σ.wbEdge (σ.told e wd rd) e) := by
  obtain ⟨rfl, hrests, hdata⟩ := h.link.1
  have hmiss := h.holds.facts.1
  obtain ⟨hvalidate, hinvalidate, -, hvalid⟩ := h.holds.facts.2
  have hseq : σ.regs.toSequencer = Stage.validate.seq := h.holds.seq
  have hwren : σ.regs.appAfWren e.appAfAfull = false := by
    simp [hseq, Stage.seq, Sequencer.quiet, Sequencer.appAfWren]
  -- a line that is not valid is not dirty
  have hclean : σ.regs.linesDirty L = false :=
    Bool.eq_false_iff.mpr fun hdirty => absurd (h.holds.sound.valid_of_dirty L hdirty)
      (by simp [hvalid])
  have hcache : (σ.wbEdge (σ.told e wd rd) e).cache = { σ.cache with
      holds := Function.update σ.cache.holds L (some σ.bus.tag) } := by
    refine WriteBack.Cache.ext (funext fun k => ?_)
      (linesDirty_step (i := σ.told e wd rd) rfl hmiss.wbAckO (by rw [hseq]; rfl))
        (data_wbEdge_of_not_ack h.not_write)
    by_cases hk : k = L
    · simp [Sys.cache, Table.holds, Sys.wbEdge, step, Table.step, Sys.told, hvalidate, hk]
    · simp [Sys.cache, Table.holds, Sys.wbEdge, step, Table.step, Sys.told, hvalidate,
        hinvalidate, hk]
  have hrep := h.represents
  rw [Progress.flushed_of_written rfl] at hrep
  rw [store_of_not_ack h.not_write]
  refine ⟨h.holds_step hrule hgo, h.transfer.keep_idle hwren 0 m, ?_, rfl,
    hrests.next (Nat.le_refl _)⟩
  rw [Progress.flushed_of_written rfl, hcache]
  exact hrep.fill hmiss.absent.holds_ne hdata hclean

/-- The words of the line are commanded to be read, as soon as the other domain has been told. -/
theorem Linked.wbEdge_startReadfrom (h : Linked (.miss L .startReadfrom) late g m σ)
    (hlate : late ≤ 3) (hgo : Goes (σ.told e wd rd) σ.regs (.miss L .startReadfrom)
      (.miss L (.readfrom 0))) :
    Linked (.miss L (.readfrom 0)) (late + 1) g (σ.store m) (σ.wbEdge (σ.told e wd rd) e) := by
  obtain ⟨hevicted, hrequested, hrests⟩ := h.link.1
  have hset := h.holds.facts.2.1
  have htag : (σ.wbEdge (σ.told e wd rd) e).bus.tag = σ.bus.tag := h.tag_next hrule
  have hreceived : g.received = 0 := by
    have hle := h.transfer.ordered.received
    have hle' := h.transfer.ordered.fetched
    omega
  have hwe : σ.ddr2.doWritebackDdr2FifoWe = false :=
    Bool.eq_false_iff.mpr fun hwe => absurd (hrests.stale (.inl hwe)) (by omega)
  obtain ⟨hwrite, hread⟩ := hrests.not_done (Nat.lt_succ_of_le hlate)
  refine h.wbEdge_keep hrule hgo hset rfl rfl ⟨htag ▸ hevicted, hrequested, hrests.doWriteback, hwe,
    ?_, fun w hw => ?_⟩
    (.inr ⟨by simp, Nat.le_refl _⟩)
  · rw [hreceived]
    exact .fills hrests.wordAddr (by decide) hwrite hread
  · rw [hreceived] at hw
    exact absurd hw (Nat.not_lt_zero _)

/-- **An edge of the bus clock.** -/
theorem Linked.wbEdge (h : Linked p late g m σ) (hlate : late ≤ 3) (hfull : e.appAfAfull = false)
    (hheard : p.Heard wd rd σ.ddr2) :
    ∃ p' g', Goes (σ.told e wd rd) σ.regs p p' ∧
      Linked p' (late + 1) g' (σ.store m) (σ.wbEdge (σ.told e wd rd) e) := by
  obtain ⟨p', hgo⟩ : ∃ p', Goes (σ.told e wd rd) σ.regs p p' :=
    exists_goes (i := σ.told e wd rd) h.holds (hheard.answers hfull)
  have hlink := h.link
  have hfacts := h.holds.facts
  have hto := hgo
  -- the stages differ in what becomes of the line and of the counts, all else is `wbEdge_keep`
  cases hgo with
  | rest | look | hit | served =>
    exact ⟨_, _, hto, h.wbEdge_serving hrule hto hlink.1 hfacts.1 rfl rfl rfl
      ⟨rfl, hlink.2.next (by decide)⟩⟩
  | miss =>
    exact ⟨_, _, hto, h.wbEdge_serving hrule hto hlink.1 hfacts.1 rfl rfl rfl
      ⟨⟨rfl, hlink.2.next (by decide)⟩, fun hstage => absurd rfl hstage⟩⟩
  | dirty | clean =>
    obtain ⟨hidle, hrests⟩ := hlink.1
    exact ⟨_, _, hto, h.wbEdge_keep hrule hto hfacts.2.1 rfl rfl ⟨hidle, hrests.next (by decide)⟩
      (.inl ⟨rfl, rfl⟩)⟩
  | empty =>
    obtain ⟨rfl, hrests⟩ := hlink.1
    exact ⟨_, _, hto, h.wbEdge_keep hrule hto hfacts.2.1 rfl rfl ⟨.inl ⟨rfl, rfl⟩, rfl,
      hrests.next (by decide)⟩ (.inl ⟨rfl, rfl⟩)⟩
  | startWriteback => exact ⟨_, _, hto, h.wbEdge_startWriteback hrule hlate hto⟩
  | @writeback L =>
    obtain ⟨haddressed, hrequested, hvictim, hread, hvalidR, hdump⟩ := hlink.1
    have hset := hfacts.2.1
    have hadr := congrFun (cachedAdr_step (i := σ.told e wd rd) rfl hset.validate) L
    exact ⟨_, _, hto, h.wbEdge_keep hrule hto hset rfl rfl
      ⟨haddressed, hrequested, hvictim.trans hadr.symm, hread, hvalidR, hdump⟩
        (.inr ⟨by simp, Nat.le_succ _⟩)⟩
  | @written L _ hdone =>
    obtain ⟨haddressed, hrequested, hvictim, -, -, hdump⟩ := hlink.1
    obtain ⟨hdumped, hdo, hword⟩ := hdump.of_done (hheard hdone)
    have hset := hfacts.2.1
    have hadr := congrFun (cachedAdr_step (i := σ.told e wd rd) rfl hset.validate) L
    exact ⟨_, _, hto, h.wbEdge_keep hrule hto hset rfl rfl
      ⟨hdumped, haddressed, hrequested, hvictim.trans hadr.symm, hdo, hword, fun _ => Nat.zero_le _⟩
      (.inr ⟨by simp, Nat.le_succ _⟩)⟩
  | dataFinished | startAddresses =>
    have hset := hfacts.2.1
    exact ⟨_, _, hto, h.wbEdge_keep hrule hto hset rfl rfl (hlink.1.next hset (Nat.le_refl _))
      (.inr ⟨by simp, Nat.le_succ _⟩)⟩
  | addressWait _ hwait | readWait _ _ hwait =>
    exact absurd (hfull.symm.trans hwait) Bool.false_ne_true
  | address => exact ⟨_, _, hto, h.wbEdge_address hrule hto hfull (fun _ _ => id) rfl⟩
  | addressLast =>
    exact ⟨_, _, hto, h.wbEdge_address hrule hto hfull (fun _ _ hadr => hadr.mono (by decide)) rfl⟩
  | writebackDone => exact ⟨_, _, hto, h.wbEdge_writebackDone hrule hto⟩
  | invalidate =>
    obtain ⟨hidle, hrests⟩ := hlink.1
    exact ⟨_, _, hto, h.wbEdge_keep hrule hto hfacts.2.1 rfl rfl ⟨hidle, hrests.next (by decide)⟩
      (.inr ⟨by simp, Nat.le_succ _⟩)⟩
  | invalidated =>
    obtain ⟨rfl, hrests⟩ := hlink.1
    obtain ⟨-, hvalidate, hinvalidate, -, hclean⟩ := hfacts
    exact ⟨_, _, hto, h.wbEdge_drop hrule hto hvalidate hinvalidate hclean rfl rfl
      ⟨.inl ⟨rfl, rfl⟩, rfl, hrests.next (by decide)⟩ ⟨by simp, Nat.le_succ _⟩⟩
  | @startFill L =>
    obtain ⟨hevicted, hrequested, hrests⟩ := hlink.1
    obtain ⟨-, hvalidate, -, hclean, hinvalidate⟩ := hfacts
    have htag : (σ.wbEdge (σ.told e wd rd) e).bus.tag = σ.bus.tag := h.tag_next hrule
    have hlink' : Stage.startReadfrom.Link (late + 1) g L m (σ.wbEdge (σ.told e wd rd) e) :=
      ⟨htag ▸ hevicted, hrequested, hrests.next (by decide)⟩
    rcases hinvalidate with ⟨-, hnone⟩ | honly
    · exact ⟨_, _, hto, h.wbEdge_keep hrule hto ⟨hvalidate, hnone⟩ rfl rfl hlink'
        (.inr ⟨by simp, Nat.le_refl _⟩)⟩
    · exact ⟨_, _, hto, h.wbEdge_drop hrule hto hvalidate honly hclean rfl rfl hlink'
        ⟨by simp, Nat.le_refl _⟩⟩
  | startReadfrom => exact ⟨_, _, hto, h.wbEdge_startReadfrom hrule hlate hto⟩
  | read => exact ⟨_, _, hto, h.wbEdge_read hrule hto hfull (fun _ _ => id) (Nat.le_refl _)⟩
  | readLast => exact ⟨_, _, hto, h.wbEdge_read hrule hto hfull (fun _ _ => id) (Nat.le_refl _)⟩
  | fillWait =>
    exact ⟨_, _, hto, h.wbEdge_keep hrule hto hfacts.2.1 rfl (Bool.and_false _)
      (hlink.1.next h.not_write (h.tag_next hrule)) (.inr ⟨by simp, Nat.le_succ _⟩)⟩
  | filled hdone => exact ⟨_, _, hto, h.wbEdge_filled hrule hto (hheard hdone)⟩
  | @fillDone L =>
    obtain ⟨hidle, hrests, hdata⟩ := hlink.1
    have hram := ram_wbEdge_of_not_ack (i := σ.told e wd rd) (e := e) h.not_write
    have htag : (σ.wbEdge (σ.told e wd rd) e).bus.tag = σ.bus.tag := h.tag_next hrule
    exact ⟨_, _, hto, h.wbEdge_keep hrule hto hfacts.2.1 rfl (Bool.and_false _)
      ⟨hidle, hrests.next (Nat.le_refl _), by rw [hram, htag, hdata]⟩ (.inr ⟨by simp, Nat.le_succ _⟩)⟩
  | validate => exact ⟨_, _, hto, h.wbEdge_validate hrule hto⟩

end

end

/-! ## Reads -/

/-- A read that is acknowledged returns the word that the bus addresses. -/
def Sys.Reads (σ : Sys) (m : Tag → Content) : Prop :=
  σ.regs.wbAckO = true → σ.bus.wbWeI = false → σ.wbDatO = m σ.bus.tag σ.bus.word

theorem Linked.wbEdge_reads (h : Linked p late g m σ) (hrule : BusRule σ.bus σ.regs e.bus)
    (wd rd : Bool) :
    (σ.wbEdge (σ.told e wd rd) e).Reads (σ.store m) := by
  intro hack hread
  have hack' : (step (σ.told e wd rd) σ.regs).wbAckO = true := hack
  obtain ⟨hwe, htag, hword⟩ := h.holds.wbCacheAdr_of_read (i := σ.told e wd rd) rfl hrule hack' hread
  obtain ⟨L, hserves, -, hen, -⟩ :=
    h.holds.serves (i := σ.told e wd rd) rfl
      (wbReqAddrHit_of_wbAckO (i := σ.told e wd rd) rfl hack').1
  have hwrite : (σ.regs.wbAckO && σ.bus.wbWeI) = false := by
    rw [show σ.bus.wbWeI = false from hwe, Bool.and_false]
  have hline : σ.cache.holds L = some σ.bus.tag :=
    holds_eq_some.mpr ⟨hserves.valid, hserves.cachedAdr⟩
  have hdata : (σ.wbEdge (σ.told e wd rd) e).wbDatO = σ.ram L (σ.regs.wbCacheAdr σ.bus) := by
    simp only [Sys.wbEdge, hen, if_true, hserves.enc, portWrite_of_not_ack hwrite]
  rw [hdata, store_of_not_ack hwrite]
  have htag' : (σ.wbEdge (σ.told e wd rd) e).bus.tag = σ.bus.tag := htag
  have hword' : σ.regs.wbCacheAdr σ.bus = (σ.wbEdge (σ.told e wd rd) e).bus.word := hword
  rw [htag', ← hword']
  exact h.represents.read hline _

/-! ## Runs -/

/-- After the reset the cache is empty. -/
theorem Sys.Start.linked (h : σ.Start) : Linked .quiet 0 .idle σ.mig.mem σ := by
  have hpending : σ.pending = [] := by simp [Sys.pending, h.wdf, h.fifoWe]
  have hempty : ∀ k, σ.cache.holds k = none := fun k => holds_eq_none.mpr (congrFun h.regs.adrValid k)
  refine ⟨h.regs.holds, ⟨Progress.ordered_idle 0, h.af, hpending, h.rdf,
    fun w hw => absurd hw (Nat.not_lt_zero _), ?_⟩, ?_, rfl, h.doWriteback, h.wordAddr,
    fun hflags => ?_⟩
  · exact ⟨by simp [h.beats], by simp [h.beats, Progress.idle], by simp [h.beats, Progress.idle],
      fun hbeats => absurd h.beats hbeats⟩
  · rw [Progress.flushed_of_written rfl]
    exact .empty hempty
  · simp [h.fifoWe, h.writeDone, h.readDone, h.rdDataValidR] at hflags

/-- What becomes of the phase at an event. -/
def Event.Moves (σ : Sys) (p p' : Phase) : Event → Prop
  | .edge (some e) _ => e.appAfAfull = false ∧ Goes (σ.inputs e) σ.regs p p'
  | _ => p' = p

/-- **One event.** -/
theorem Linked.next {event : Event} (h : Linked p late g m σ) (hlate : late ≤ 3)
    (hrule : event.Rule σ) (hreads : σ.Reads m) :
    (∃ p' g', event.Moves σ p p' ∧
        Linked p' (lateNext σ event late) g' (if event.isWb then σ.store m else m) (σ.next event)) ∧
      (σ.next event).Reads (if event.isWb then σ.store m else m) := by
  cases event with
  | exec =>
    obtain ⟨g', h'⟩ := h.exec hlate
    exact ⟨⟨p, g', rfl, h'⟩, hreads⟩
  | edge wb ddr2 =>
    obtain ⟨hwb, hddr2⟩ := hrule
    -- where both clocks have an edge, the bus domain still sees what was before it
    have hmid : ∃ g', Linked p (if (ddr2.isSome && σ.ddr2.sample) then 0 else late) g' m
        (ddr2.elim σ σ.ddr2Edge) ∧ p.Heard σ.ddr2.ddr2WriteDone σ.ddr2.ddr2ReadDone
            (ddr2.elim σ σ.ddr2Edge).ddr2 := by
      cases ddr2 with
      | none => exact ⟨g, h, h.heard hlate⟩
      | some e =>
        obtain ⟨g', h'⟩ := h.ddr2Edge hlate (hddr2 e rfl)
        exact ⟨g', h', h.heard_ddr2Edge (h.heard hlate)⟩
    obtain ⟨g', h', hheard⟩ := hmid
    cases wb with
    | none => cases ddr2 <;> exact ⟨⟨p, g', rfl, h'⟩, hreads⟩
    | some e =>
      obtain ⟨hbus, hafull⟩ := hwb e rfl
      have hfull := h.transfer.not_afAfull hafull
      have hlate' : (if (ddr2.isSome && σ.ddr2.sample) then 0 else late) ≤ 3 := by
        split
        · exact Nat.zero_le 3
        · exact hlate
      cases ddr2 with
      | none =>
        obtain ⟨p', g'', hgo, h''⟩ := h'.wbEdge hbus hlate' hfull hheard
        exact ⟨⟨p', g'', ⟨hfull, hgo⟩, h''⟩, h'.wbEdge_reads hbus _ _⟩
      | some e' =>
        have hbus' : BusRule (σ.ddr2Edge e').bus (σ.ddr2Edge e').regs e.bus := hbus
        obtain ⟨p', g'', hgo, h''⟩ := h'.wbEdge hbus' hlate' hfull hheard
        exact ⟨⟨p', g'', ⟨hfull, hgo⟩, h''⟩, h'.wbEdge_reads hbus' _ _⟩

/-! ## Proper runs -/

namespace Run.Proper

variable {R : Run} (hR : R.Proper) (n : ℕ)
include hR

/-- **In a proper run** the system is in a phase at all times. -/
theorem linked : (∃ p g, Linked p (R.late n) g (R.contents n) (R.sys n)) ∧
    (R.sys n).Reads (R.contents n) := by
  induction n with
  | zero =>
    exact ⟨⟨_, _, R.reset.linked⟩, fun hack => absurd hack (by simp [sys, R.reset.regs.wbAckO])⟩
  | succ n ih =>
    obtain ⟨⟨p, g, h⟩, hreads⟩ := ih
    obtain ⟨⟨p', g', -, h'⟩, hreads'⟩ := h.next (hR.late n) (hR.rule n) hreads
    exact ⟨⟨p', g', h'⟩, hreads'⟩

/-- **What the bus reads** is what was written there last. -/
theorem reads_contents : (R.sys n).Reads (R.contents n) := (hR.linked n).2

omit hR in
/-- The word that has been written is read again after its line has been written back. -/
theorem reads_contents_board : (board.sys 975).wbDatO = 0x1001 := by
  obtain ⟨-, -, -, -, -, hack, hread, htag, hword⟩ := trace_board
  rw [← sys_board] at hack hread htag hword
  rw [reads_contents proper_board 975 hack hread, htag, hword]
  exact word_board (n := 844) (by decide)

/-- **What has been written back** is in the memory: all lines that are not dirty, and all that are
not cached, as soon as no write is waiting in the address FIFO. -/
theorem memory_contents {t : Tag}
    (hclean : ∀ L, (R.sys n).regs.adrValid L = true → (R.sys n).regs.cachedAdr L = t →
      (R.sys n).regs.linesDirty L = false) (haf : ∀ c ∈ (R.sys n).mig.af, c.read = true) :
    (R.sys n).mig.mem t = R.contents n t := by
  obtain ⟨⟨p, g, h⟩, -⟩ := hR.linked n
  have hwritten : g.written = g.addressed := by
    refine (h.transfer.ordered.written).antisymm (Nat.le_of_not_lt fun hlt => ?_)
    have hmem : Command.mk false g.victim g.written ∈ (R.sys n).mig.af := by
      rw [h.transfer.af, range'_cons (Nat.sub_pos_of_lt hlt)]
      exact List.mem_append_left _ (List.mem_map.mpr ⟨_, List.mem_cons_self, rfl⟩)
    cases haf _ hmem
  have hrep := h.represents
  rw [Progress.flushed_of_written hwritten] at hrep
  refine hrep.memory fun L hL => ?_
  obtain ⟨hvalid, htag⟩ := holds_eq_some.mp hL
  exact hclean L hvalid htag

omit hR in
/-- The line that had been written is in the memory after it has been written back. -/
theorem memory_contents_board :
    (board.sys 835).mig.mem 0 = board.contents 835 0 ∧ (board.sys 835).mig.mem 0 5 = 0x1001 := by
  obtain ⟨-, -, -, -, ⟨hgone, haf⟩, -⟩ := trace_board
  rw [← sys_board] at hgone haf
  have hmem : (board.sys 835).mig.mem 0 = board.contents 835 0 :=
    memory_contents proper_board 835 (fun L _ htag => absurd htag (hgone L))
      fun c hc => absurd hc (haf ▸ List.not_mem_nil)
  refine ⟨hmem, ?_⟩
  rw [hmem]
  exact word_board (n := 704) (by decide)

/-- **The FIFOs** hold no more than one line that is written back and one that is filled, and a
write that is executed finds its words. -/
theorem fifos : (R.sys n).mig.af.length ≤ 32 ∧ (R.sys n).mig.wdf.length ≤ 64 ∧
    (R.sys n).mig.rdf.length ≤ 64 ∧ ∀ c af, (R.sys n).mig.af = c :: af → c.read = false →
      4 ≤ (R.sys n).mig.wdf.length := by
  obtain ⟨⟨p, g, h⟩, -⟩ := hR.linked n
  obtain ⟨hordered, haf, hwdf, hrdf, -, -⟩ := h.transfer
  have hfetched := hordered.fetched
  have hrequested := hordered.requested
  have haddressed := hordered.addressed
  have hdumped := hordered.dumped
  refine ⟨?_, ?_, ?_, fun c af heq hwrite => ?_⟩
  · rw [haf, List.length_append, List.length_map, List.length_map, List.length_range',
      List.length_range']
    omega
  · have hlength := congrArg List.length hwdf
    rw [Sys.pending, List.length_append, List.length_map, List.length_range'] at hlength
    omega
  · rw [hrdf, List.length_map, List.length_range']
    omega
  · refine h.words (hR.late n) (hordered.written.lt_of_ne fun hwritten => ?_)
    -- the first command would be a read
    rw [hwritten, Nat.sub_self, List.range'_zero, List.map_nil, List.nil_append] at haf
    have hmem : c ∈ (R.sys n).mig.af := heq ▸ List.mem_cons_self
    rw [haf] at hmem
    obtain ⟨k, -, rfl⟩ := List.mem_map.mp hmem
    cases hwrite

omit hR in
/-- A write that is commanded while a line is written back finds its words. -/
theorem fifos_board : 4 ≤ (board.sys 667).mig.wdf.length ∧ (board.sys 667).mig.wdf.length ≤ 64 := by
  obtain ⟨-, -, -, haf, -⟩ := trace_board
  rw [← sys_board] at haf
  obtain ⟨-, hwdf, -, hwords⟩ := fifos proper_board 667
  exact ⟨hwords _ _ haf rfl, hwdf⟩

end Run.Proper

end ProbableCause.Ddr2.Cache
