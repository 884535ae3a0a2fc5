import ProbableCause.Ddr2.CachePhases

/-!
# `Ddr2.CacheSystem` — the two clock domains of the cache and the memory behind them

The words of a line are moved in the clock domain of the controller (`Ddr2Regs`): out of the cache
memory into the data FIFO when a line is written back, and into the cache memory when the controller
returns them. The addresses go to the address FIFO from the domain of the bus, sixteen for a line.
The controller executes the commands of the address FIFO in their order. A write takes four words of
the data FIFO; the words of a read come back one in a cycle, without a gap.

Nothing says how the edges of the two clocks and the commands follow each other (`Event`), but that
the other domain looks at the bus domain often enough: `ddr2_clk_phase` is `0` in one of eight edges
(`Run.late`).
-/

namespace ProbableCause.Ddr2.Cache

/-! ## Words -/

/-- The words of a line. -/
abbrev Content := BitVec 8 → BitVec 32

/-- The 128 bits of the port of the controller, as four words. -/
abbrev Quad := BitVec 2 → BitVec 32

/-- Four words of a line. -/
def quad (f : Content) (n : ℕ) : Quad := fun lane => f (BitVec.ofNat 8 (4 * n + lane.toNat))

/-- Four words are written into a line. -/
def setQuad (f : Content) (n : ℕ) (d : Quad) : Content :=
  fun w => if w.toNat / 4 = n then d (w.setWidth 2) else f w

/-- The bits of the bytes that are selected. -/
def byteMask (sel : BitVec 4) : BitVec 32 :=
  (if sel.getLsbD 0 then 0x000000ff else 0) ||| (if sel.getLsbD 1 then 0x0000ff00 else 0) |||
    (if sel.getLsbD 2 then 0x00ff0000 else 0) ||| (if sel.getLsbD 3 then 0xff000000 else 0)

/-- The bytes that are selected are written into a word. -/
def setBytes (sel : BitVec 4) (new old : BitVec 32) : BitVec 32 :=
  (old &&& ~~~byteMask sel) ||| (new &&& byteMask sel)

theorem quad_setWidth (f : Content) (w : BitVec 8) : quad f (w.toNat / 4) (w.setWidth 2) = f w := by
  have h : 4 * (w.toNat / 4) + (w.setWidth 2).toNat = w.toNat := by
    rw [BitVec.toNat_setWidth]
    exact Nat.div_add_mod _ _
  rw [quad, h, BitVec.ofNat_toNat, BitVec.setWidth_eq]

theorem setQuad_apply (f g : Content) (n : ℕ) (w : BitVec 8) :
    setQuad f n (quad g n) w = if w.toNat / 4 = n then g w else f w := by
  unfold setQuad
  split
  · next h => rw [← h, quad_setWidth]
  · rfl

@[simp] theorem setBytes_zero (new old : BitVec 32) : setBytes 0 new old = old := by
  have h : byteMask 0 = 0#32 := rfl
  rw [setBytes, h, BitVec.and_zero, BitVec.or_zero]
  exact BitVec.and_allOnes

/-! ## The controller -/

/-- A command in the address FIFO: `app_af_cmd[0]`, and `app_af_addr` without its three zeros. -/
structure Command where
  read : Bool
  tag : Tag
  burst : ℕ
  deriving DecidableEq

/-- The memory and the FIFOs between it and the cache. Each of the `2 ^ 22` lines has words of its
own; the memory of the board has 256 MB, so the addresses on its bus have to lie within them. -/
structure Mig where
  mem : Tag → Content
  af : List Command
  wdf : List Quad
  rdf : List Quad
  beats : ℕ

namespace Mig

variable (g : Mig)

/-- A write takes four words from the data FIFO. -/
def write (c : Command) (af : List Command) : Mig :=
  { g with
    af := af
    wdf := g.wdf.drop 4
    mem := fun t w =>
      if t = c.tag ∧ w.toNat / 16 = c.burst
        then (g.wdf.getD (w.toNat / 4 % 4) fun _ => 0) (w.setWidth 2)
      else g.mem t w }

/-- A read returns four words. -/
def read (c : Command) (af : List Command) : Mig :=
  { g with af := af, rdf := g.rdf ++ (List.range' (4 * c.burst) 4).map (quad (g.mem c.tag)) }

/-- The controller executes its next command. -/
def exec : Mig :=
  match g.af with
  | [] => g
  | c :: af => if c.read then g.read c af else g.write c af

theorem exec_of_write {g : Mig} {t : Tag} {n : ℕ} {af : List Command}
    (haf : g.af = ⟨false, t, n⟩ :: af) :
    g.exec = g.write ⟨false, t, n⟩ af := by simp [exec, haf]

theorem exec_of_read {g : Mig} {t : Tag} {n : ℕ} {af : List Command}
    (haf : g.af = ⟨true, t, n⟩ :: af) :
    g.exec = g.read ⟨true, t, n⟩ af := by simp [exec, haf]

theorem exec_of_nil {g : Mig} (haf : g.af = []) : g.exec = g := by simp [exec, haf]

/-- `rd_data_valid`: the words of a burst follow each other. -/
def rdDataValid (deliver : Bool) : Bool := g.beats != 0 || deliver && !g.rdf.isEmpty

/-- The words of the burst that are still to come after an edge. -/
def beatsNext (deliver : Bool) : ℕ :=
  if g.beats != 0 then g.beats - 1 else if deliver && !g.rdf.isEmpty then 3 else 0

variable {g}

theorem beatsNext_of_valid {deliver : Bool} (h : g.rdDataValid deliver = true) :
    g.beatsNext deliver = if g.beats = 0 then 3 else g.beats - 1 := by
  by_cases hbeats : g.beats = 0
  · have hdeliver : (deliver && !g.rdf.isEmpty) = true := by simpa [rdDataValid, hbeats] using h
    simp [beatsNext, hbeats, hdeliver]
  · simp [beatsNext, hbeats]

end Mig

/-! ## The clock domain of the controller -/

structure Ddr2Regs where
  wbClkInDdr2Clk : Bool
  wbClkInDdr2ClkR : Bool
  ddr2ClkPhase : ℕ
  doWritebackDdr2 : Bool
  doWritebackDdr2FifoWe : Bool
  ddr2WriteDone : Bool
  ddr2CacheLineWordAddr : ℕ
  rdDataValidR : Bool
  ddr2ReadDone : Bool
  selectedCacheLineEncDdr2Clk : Line
  ddr2CacheDataO : Quad

/-- What comes from the bus domain. -/
structure FromBus where
  wbClkR : Bool
  doWriteback : Bool
  doReadfrom : Bool
  selectedCacheLineEnc : Line

namespace Ddr2Regs

variable (d : Ddr2Regs)

/-- `wb_clk_edge` -/
def wbClkEdge : Bool := d.wbClkInDdr2Clk && !d.wbClkInDdr2ClkR

/-- `&ddr2_cache_line_word_addr` -/
def lastWord : Bool := d.ddr2CacheLineWordAddr == 63

/-- `!(|ddr2_clk_phase)`: the bus domain is looked at. -/
def sample : Bool := d.ddr2ClkPhase == 0

/-- An edge of `ddr2_clk`. `ram` is what the cache memory has at the address of the port, `word`
what the controller returns. -/
def step (f : FromBus) (appWdfAfull rdDataValid : Bool) (ram word : Quad) : Ddr2Regs where
  wbClkInDdr2Clk := f.wbClkR
  wbClkInDdr2ClkR := d.wbClkInDdr2Clk
  ddr2ClkPhase := if d.wbClkEdge then 0 else (d.ddr2ClkPhase + 1) % 8
  doWritebackDdr2 :=
    if d.lastWord then false
    else if d.sample && f.doWriteback && !d.ddr2WriteDone then true else d.doWritebackDdr2
  doWritebackDdr2FifoWe := d.doWritebackDdr2 && !appWdfAfull
  ddr2WriteDone := if d.lastWord then true else if d.sample && !f.doWriteback then false
    else d.ddr2WriteDone
  ddr2CacheLineWordAddr :=
    if rdDataValid || d.doWritebackDdr2 && !appWdfAfull then (d.ddr2CacheLineWordAddr + 1) % 64
    else if d.ddr2WriteDone || d.ddr2ReadDone then 0 else d.ddr2CacheLineWordAddr
  rdDataValidR := rdDataValid
  ddr2ReadDone :=
    if d.rdDataValidR && d.lastWord then true else if d.sample && !f.doReadfrom then false
      else d.ddr2ReadDone
  selectedCacheLineEncDdr2Clk := if d.sample then f.selectedCacheLineEnc
    else d.selectedCacheLineEncDdr2Clk
  ddr2CacheDataO := if rdDataValid then word else if d.doWritebackDdr2 then ram else d.ddr2CacheDataO

end Ddr2Regs

/-! ## The system -/

structure Sys where
  bus : Bus
  regs : Regs
  wbClkR : Bool
  wbDatO : BitVec 32
  ram : Line → Content
  ddr2 : Ddr2Regs
  mig : Mig

/-- An edge of `wb_clk`: what the bus is like after it. -/
structure WbEdge where
  bus : Bus
  appAfAfull : Bool

/-- An edge of `ddr2_clk`: `deliver` says that the controller returns the next burst, if there is
one. -/
structure Ddr2Edge where
  appWdfAfull : Bool
  deliver : Bool

/-- Edges of one of the clocks or of both, and commands. -/
inductive Event where
  | edge (wb : Option WbEdge) (ddr2 : Option Ddr2Edge)
  | exec

namespace Sys

variable (σ : Sys)

/-- What the registers of the bus domain see. -/
def inputs (e : WbEdge) : Inputs :=
  ⟨false, σ.bus, σ.ddr2.ddr2WriteDone, σ.ddr2.ddr2ReadDone, e.appAfAfull⟩

def fromBus : FromBus := ⟨σ.wbClkR, σ.regs.doWriteback, σ.regs.doReadfrom,
    σ.regs.selectedCacheLineEnc⟩

/-- `app_af_cmd` and `app_af_addr` -/
def command : Command where
  read := σ.regs.doReadfrom
  tag := if σ.regs.doingReadfrom then σ.bus.tag else σ.regs.cachedAddr
  burst := σ.regs.addrCounter

/-- What the port of the bus leaves in the line that it addresses. -/
def portWrite (f : Content) : Content :=
  Function.update f (σ.regs.wbCacheAdr σ.bus)
    (setBytes (σ.regs.wbCacheSelWe σ.bus) σ.bus.wbDatI (f (σ.regs.wbCacheAdr σ.bus)))

/-- An edge of `wb_clk`. -/
def wbEdge (i : Inputs) (e : WbEdge) : Sys :=
  let line := σ.regs.selectedCacheLineEnc
  { σ with
    bus := e.bus
    regs := step i σ.regs
    wbClkR := !σ.wbClkR
    ram := if σ.regs.wbCacheEn then Function.update σ.ram line (σ.portWrite (σ.ram line)) else σ.ram
    wbDatO :=
      if σ.regs.wbCacheEn then σ.portWrite (σ.ram line) (σ.regs.wbCacheAdr σ.bus) else σ.wbDatO
    mig := { σ.mig with
      af := if σ.regs.appAfWren e.appAfAfull then σ.mig.af ++ [σ.command] else σ.mig.af } }

/-- An edge of `ddr2_clk`. -/
def ddr2Edge (e : Ddr2Edge) : Sys :=
  let d := σ.ddr2
  let line := d.selectedCacheLineEncDdr2Clk
  let valid := σ.mig.rdDataValid e.deliver
  let word : Quad := σ.mig.rdf.headD fun _ => 0
  { σ with
    ddr2 := d.step σ.fromBus e.appWdfAfull valid (quad (σ.ram line) d.ddr2CacheLineWordAddr) word
    ram := if valid then Function.update σ.ram line
      (setQuad (σ.ram line) d.ddr2CacheLineWordAddr word) else σ.ram
    mig := { σ.mig with
      wdf := if d.doWritebackDdr2FifoWe then σ.mig.wdf ++ [d.ddr2CacheDataO] else σ.mig.wdf
      rdf := if valid then σ.mig.rdf.tail else σ.mig.rdf
      beats := σ.mig.beatsNext e.deliver } }

/-- What happens at an event. Where both clocks have an edge, both domains see what was before it. -/
def next : Event → Sys
  | .edge wb ddr2 =>
    let σ' := ddr2.elim σ σ.ddr2Edge
    wb.elim σ' fun e => σ'.wbEdge (σ.inputs e) e
  | .exec => { σ with mig := σ.mig.exec }

/-- After the reset of both domains, with nothing in the FIFOs. -/
structure Start : Prop where
  regs : ResetDone σ.regs
  phase : σ.ddr2.ddr2ClkPhase < 8
  doWriteback : σ.ddr2.doWritebackDdr2 = false
  fifoWe : σ.ddr2.doWritebackDdr2FifoWe = false
  writeDone : σ.ddr2.ddr2WriteDone = false
  wordAddr : σ.ddr2.ddr2CacheLineWordAddr = 0
  rdDataValidR : σ.ddr2.rdDataValidR = false
  readDone : σ.ddr2.ddr2ReadDone = false
  af : σ.mig.af = []
  wdf : σ.mig.wdf = []
  rdf : σ.mig.rdf = []
  beats : σ.mig.beats = 0

/-- What the bus writes in a cycle: a write that is acknowledged stores the bytes that are selected.
-/
def store (m : Tag → Content) : Tag → Content :=
  if σ.regs.wbAckO && σ.bus.wbWeI then
    let old := m σ.bus.tag
    Function.update m σ.bus.tag
      (Function.update old σ.bus.word (setBytes σ.bus.wbSelI σ.bus.wbDatI (old σ.bus.word)))
  else m

end Sys

namespace Event

def isWb : Event → Bool
  | .edge (some _) _ => true
  | _ => false

def isDdr2 : Event → Bool
  | .edge _ (some _) => true
  | _ => false

/-- The rules of an event: the bus keeps its rules, and a FIFO that is almost full is not nearly
empty. -/
def Rule (σ : Sys) : Event → Prop
  | .edge wb ddr2 =>
    (∀ e ∈ wb, BusRule σ.bus σ.regs e.bus ∧ (e.appAfAfull = true → 32 < σ.mig.af.length)) ∧
      ∀ e ∈ ddr2, e.appWdfAfull = true → 64 < σ.mig.wdf.length
  | .exec => True

end Event

/-- How many edges of the bus clock there have been since the other domain looked at the bus domain.
-/
def lateNext (σ : Sys) (event : Event) (late : ℕ) : ℕ :=
  (if event.isDdr2 && σ.ddr2.sample then 0 else late) + event.isWb.toNat

/-- A run of the system. -/
structure Run where
  start : Sys
  events : ℕ → Event
  reset : start.Start

namespace Run

variable (R : Run)

def sys : ℕ → Sys
  | 0 => R.start
  | n + 1 => (sys n).next (R.events n)

def late : ℕ → ℕ
  | 0 => 0
  | n + 1 => lateNext (R.sys n) (R.events n) (late n)

/-- The contents of the memory as the bus sees them: what it was at the start and what has been
written since. -/
def contents : ℕ → Tag → Content
  | 0 => R.start.mig.mem
  | n + 1 => if (R.events n).isWb then (R.sys n).store (contents n) else contents n

/-- The bus and the FIFOs keep their rules, and three edges of the bus clock at most go unnoticed. -/
structure Proper : Prop where
  rule : ∀ n, (R.events n).Rule (R.sys n)
  late : ∀ n, R.late n ≤ 3

end Run

end ProbableCause.Ddr2.Cache
