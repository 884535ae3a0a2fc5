import Mathlib.Data.List.FinRange
import ProbableCause.Lib.Clocked

/-!
# `Ddr2.CacheControl` — the registers of the cache in front of the DDR2 controller

`xilinx_ddr2_if` puts a cache of four lines between the Wishbone bus and the controller. Its
registers in the clock domain of the bus are modelled here, with those of
`xilinx_ddr2_wb_if_cache_control` and of the four `xilinx_ddr2_wb_if_cache_adr_reg`: the table of
the lines (`Table`), the pulses and flags by which a miss proceeds (`Sequencer`) and the bus port
(`Port`). Both modules have a copy of `wb_req_r` and `wb_req_new_r`, which is one register here.

`sync` is left out: only the task `do_sync` sets it, which nothing calls.
-/

namespace ProbableCause.Ddr2.Cache

/-! ## Lines -/

/-- `DDR2_CACHE_TAG_BITS`, the address of a line -/
abbrev Tag := BitVec 22

/-- `DDR2_CACHE_NUM_LINES` -/
abbrev Line := Fin 4

/-- One bit for each line. -/
abbrev Lines := Line → Bool

namespace Lines

/-- `|v` -/
def any (v : Lines) : Bool := decide (∃ k, v k = true)

/-- `&v` -/
def all (v : Lines) : Bool := decide (∀ k, v k = true)

def none : Lines := fun _ => false
def only (L : Line) : Lines := fun k => decide (k = L)
def and (v w : Lines) : Lines := fun k => v k && w k
def or (v w : Lines) : Lines := fun k => v k || w k
def sub (v w : Lines) : Lines := fun k => v k && !w k

/-- `{v[2:0], v[3]}` -/
def rotate (v : Lines) : Lines := fun k => v ⟨(k.val + 3) % 4, Nat.mod_lt _ (Nat.succ_pos 3)⟩

/-- The first of the lines. -/
def first? (v : Lines) : Option Line := (List.finRange 4).find? v

variable {v : Lines} {L k : Line}

@[simp] theorem none_apply : none k = false := rfl
@[simp] theorem any_none : any none = false := by simp [any]
@[simp] theorem only_self : only L L = true := decide_eq_true rfl
@[simp] theorem only_eq_true : only L k = true ↔ k = L := decide_eq_true_iff

theorem only_of_ne (h : k ≠ L) : only L k = false := decide_eq_false h

@[simp] theorem any_only : any (only L) = true := decide_eq_true ⟨L, only_self⟩

@[simp] theorem any_and_only : any (v.and (only L)) = v L := by
  cases h : v L with
  | false =>
    refine decide_eq_false fun ⟨k, hk⟩ => ?_
    obtain ⟨hv, rfl⟩ : v k = true ∧ k = L := by simpa [and] using hk
    exact absurd hv (by simp [h])
  | true => exact decide_eq_true ⟨L, by simp [and, h]⟩

@[simp] theorem any_only_and : any ((only L).and v) = v L := by
  rw [← any_and_only (v := v) (L := L)]
  congr 1
  exact funext fun k => Bool.and_comm _ _

@[simp] theorem none_and : none.and v = none := rfl

theorem first?_only : first? (only L) = some L := by
  rw [first?, List.find?_eq_some_iff_getElem]
  refine ⟨only_self, L.val, by simp, by simp, fun j hj => ?_⟩
  simp only [List.getElem_finRange, Bool.not_eq_true', only, decide_eq_false_iff_not]
  exact fun h => absurd (congrArg Fin.val h) (Nat.ne_of_lt hj)

/-- A bit that is shifted around stays one bit. -/
theorem rotate_only (L : Line) : ∃ L', rotate (only L) = only L' := by
  refine ⟨⟨(L.val + 1) % 4, Nat.mod_lt _ (Nat.succ_pos 3)⟩, funext fun k => ?_⟩
  simp only [rotate, only, Fin.ext_iff]
  exact decide_eq_decide.mpr ⟨fun h => by omega, fun h => by omega⟩

end Lines

/-! ## Inputs -/

/-- A cycle on the bus, and whether the controller is ready (`phy_init_done`). -/
structure Bus where
  wbAdrI : BitVec 32
  wbStbI : Bool
  wbCycI : Bool
  wbCtiI : BitVec 3
  wbBteI : BitVec 2
  wbWeI : Bool
  wbSelI : BitVec 4
  wbDatI : BitVec 32
  phyInitDone : Bool
  deriving DecidableEq

namespace Bus

variable (b : Bus)

/-- `wb_adr_i[31:10]` -/
def tag : Tag := b.wbAdrI.extractLsb' 10 22

/-- `wb_adr_i[9:6]` -/
def upper : BitVec 4 := b.wbAdrI.extractLsb' 6 4

/-- `wb_adr_i[5:2]` -/
def lower : BitVec 4 := b.wbAdrI.extractLsb' 2 4

/-- `wb_req` -/
def wbReq : Bool := b.wbStbI && b.wbCycI && b.phyInitDone

/-- The word of the line that is addressed. -/
def word : BitVec 8 := b.upper ++ b.lower

end Bus

/-- What the registers see in a cycle: the bus, and what comes from the controller and its clock
domain. -/
structure Inputs where
  wbRst : Bool
  bus : Bus
  ddr2WriteDone : Bool
  ddr2ReadDone : Bool
  appAfAfull : Bool

/-! ## Registers -/

/-- The lines: what they hold, what is to become of them, which one is selected. -/
structure Table where
  cachedAdr : Line → Tag
  adrValid : Lines
  linesDirty : Lines
  cacheLineValidate : Lines
  cacheLineInvalidate : Lines
  selectedCacheLineFromMiss : Lines
  selectedCacheLineR : Lines
  selectedCacheLineR2 : Lines
  selectedCacheLineEnc : Line

/-- How far a miss has come. -/
structure Sequencer where
  wbReqNewR : Bool
  selectedCacheLineNew : Bool
  startWriteback : Bool
  invalidateCleanLine : Bool
  invalidateCleanLineR : Bool
  startFill : Bool
  doWriteback : Bool
  doWritebackR : Bool
  doWritebackAddresses : Bool
  doWritebackAddressesR : Bool
  doReadfrom : Bool
  doReadfromR : Bool
  doAfWrite : Bool
  addrCounter : ℕ
  deriving DecidableEq

/-- The bus port. -/
structure Port where
  wbReqR : Bool
  wbAckO : Bool
  wbAckOR : Bool
  wbBursting : Bool
  wbBurstAddr : BitVec 4

structure Regs extends Table, Sequencer, Port

/-! ## Wires -/

namespace Table

variable (t : Table) (b : Bus)

/-- `cache_line_hit` -/
def cacheLineHit : Lines := fun k => decide (b.tag = t.cachedAdr k)

/-- `wb_req_addr_hit`: `cache_hit` and `cached_addr_valid` of a request -/
def wbReqAddrHit : Bool :=
  b.wbReq && (t.selectedCacheLineR2.and (t.cacheLineHit b)).any &&
    (t.selectedCacheLineR2.and t.adrValid).any

/-- `cached_addr` -/
def cachedAddr : Tag := t.selectedCacheLineR2.first?.elim 0 t.cachedAdr

end Table

namespace Sequencer

variable (q : Sequencer)

def doWritebackDataFinished : Bool := !q.doWriteback && q.doWritebackR
def doWritebackFinished : Bool := !q.doWritebackAddresses && q.doWritebackAddressesR
def doReadfromStart : Bool := q.doReadfrom && !q.doReadfromR
def doReadfromFinished : Bool := !q.doReadfrom && q.doReadfromR

/-- `doing_readfrom` -/
def doingReadfrom : Bool := q.doReadfrom || q.doReadfromR

/-- `app_af_wren` -/
def appAfWren (appAfAfull : Bool) : Bool :=
  (q.doReadfromR || q.doWritebackAddressesR) && !appAfAfull && q.doAfWrite

/-- `wb_cache_en` -/
def wbCacheEn : Bool := !(q.doReadfrom || q.doWriteback)

end Sequencer

namespace Regs

variable (s : Regs) (b : Bus)

/-- `wb_req_new` -/
def wbReqNew : Bool := b.wbReq && !s.wbReqR

/-- `cache_write` -/
def cacheWrite : Bool := b.wbReq && b.wbWeI && s.wbAckO

/-- `wb_burst_addr_incr` -/
def wbBurstAddrIncr : Bool := s.wbReqAddrHit b && (!b.wbWeI || b.wbWeI && s.wbAckO)

/-- `wb_cache_adr` -/
def wbCacheAdr : BitVec 8 := b.upper ++ (if s.wbBursting then s.wbBurstAddr else b.lower)

/-- `wb_cache_sel_we` -/
def wbCacheSelWe : BitVec 4 := if b.wbWeI && s.wbAckO then b.wbSelI else 0

end Regs

/-! ## Steps -/

/-- The next word of a burst, in the four, eight or sixteen words that the burst wraps around in. -/
def burstNext (bte : BitVec 2) (a : BitVec 4) : BitVec 4 :=
  if bte = 1 then (a &&& 0b1100) ||| ((a + 1) &&& 0b0011)
  else if bte = 2 then (a &&& 0b1000) ||| ((a + 1) &&& 0b0111)
  else if bte = 3 then a + 1
  else a

section
variable (i : Inputs) (s : Regs)

def Table.step : Table :=
  let hit := s.cacheLineHit i.bus
  { cachedAdr := fun k =>
      if i.wbRst then 0 else if s.cacheLineValidate k then i.bus.tag else s.cachedAdr k
    adrValid := fun k =>
      if i.wbRst then false else if s.cacheLineValidate k then true
      else if s.cacheLineInvalidate k then false else s.adrValid k
    linesDirty :=
      if i.wbRst then .none
      else if s.cacheWrite i.bus then s.linesDirty.or s.selectedCacheLineR
      else if s.doWritebackFinished then s.linesDirty.sub s.selectedCacheLineR
      else s.linesDirty
    cacheLineValidate :=
      if i.wbRst then .none
      else if s.doReadfromFinished then s.selectedCacheLineR
      else if s.cacheLineValidate.any then .none else s.cacheLineValidate
    cacheLineInvalidate :=
      if i.wbRst then .none
      else if s.doWritebackFinished || s.invalidateCleanLine then s.selectedCacheLineR
      else if s.cacheLineInvalidate.any then .none else s.cacheLineInvalidate
    selectedCacheLineFromMiss :=
      if i.wbRst then fun k => decide (k.val = 0)
      else if s.wbReqNewR && !s.selectedCacheLineR.any then s.selectedCacheLineFromMiss.rotate
      else s.selectedCacheLineFromMiss
    selectedCacheLineR :=
      if i.wbRst then .none
      else if s.wbReqNew i.bus then s.adrValid.and hit
      else if s.wbReqNewR && !s.selectedCacheLineR.any then s.selectedCacheLineFromMiss
      else s.selectedCacheLineR
    selectedCacheLineR2 := s.selectedCacheLineR
    selectedCacheLineEnc := s.selectedCacheLineR.first?.getD s.selectedCacheLineEnc }

def Sequencer.step : Sequencer :=
  let hit := s.cacheLineHit i.bus
  let dirty := (s.linesDirty.and s.selectedCacheLineR).any
  let valid := (s.selectedCacheLineR.and s.adrValid).any
  let selectedHit := (hit.and s.selectedCacheLineR).any
  let full := s.addrCounter == 15
  { wbReqNewR := s.wbReqNew i.bus
    selectedCacheLineNew :=
      if i.wbRst then false
      else if s.wbReqNew i.bus && (s.adrValid.and hit).all then true
      else if !s.selectedCacheLineNew && s.wbReqNewR then true
      else if s.selectedCacheLineNew then false else s.selectedCacheLineNew
    startWriteback :=
      if i.wbRst then false
      else if s.startWriteback then false
      else if s.selectedCacheLineNew && dirty && valid && !selectedHit then true
      else s.startWriteback
    invalidateCleanLine :=
      if i.wbRst then false
      else if s.invalidateCleanLine then false
      else if s.selectedCacheLineNew && !dirty && valid && !selectedHit then true
      else s.invalidateCleanLine
    invalidateCleanLineR := s.invalidateCleanLine
    startFill :=
      if i.wbRst then false
      else if (s.selectedCacheLineNew && !valid) || s.doWritebackFinished || s.invalidateCleanLineR
        then true
      else if s.startFill then false else s.startFill
    doWriteback :=
      if i.wbRst then false
      else if i.ddr2WriteDone then false
      else if s.startWriteback then true else s.doWriteback
    doWritebackR := s.doWriteback
    doWritebackAddresses :=
      if i.wbRst then false
      else if s.doWritebackDataFinished then true
      else if full then false else s.doWritebackAddresses
    doWritebackAddressesR := s.doWritebackAddresses
    doReadfrom :=
      if i.wbRst then false
      else if i.ddr2ReadDone then false
      else if s.startFill then true else s.doReadfrom
    doReadfromR := s.doReadfrom
    doAfWrite :=
      if i.wbRst then false
      else if s.doReadfromStart || s.doWritebackDataFinished then true
      else if full then false else s.doAfWrite
    addrCounter :=
      if i.wbRst then 0
      else if s.appAfWren i.appAfAfull then (s.addrCounter + 1) % 16 else s.addrCounter }

def Port.step : Port where
  wbReqR := i.bus.wbReq
  wbAckO :=
    if i.wbRst then false
    else s.wbReqAddrHit i.bus &&
      (!s.wbBursting && !s.wbAckO && !s.wbAckOR || s.wbBursting && !(i.bus.wbCtiI == 0b111))
  wbAckOR := s.wbAckO
  wbBursting :=
    if i.wbRst then false
    else if s.wbAckO && i.bus.wbCtiI == 0b111 then false
    else if s.wbReqNew i.bus then i.bus.wbCtiI == 0b010
    else s.wbBursting
  wbBurstAddr :=
    if i.wbRst then 0
    else if s.wbReqNew i.bus then
      if !(s.wbReqAddrHit i.bus && !i.bus.wbWeI) then i.bus.lower
        else burstNext i.bus.wbBteI i.bus.lower
    else if s.wbBurstAddrIncr i.bus then burstNext i.bus.wbBteI s.wbBurstAddr
    else s.wbBurstAddr

/-- An edge of `wb_clk`. -/
def step : Regs := { Table.step i s, Sequencer.step i s, Port.step i s with }

end

/-! ## After the reset -/

/-- The registers after a reset without a request: no line is valid and nothing goes on. -/
structure ResetDone (s : Regs) : Prop where
  adrValid : s.adrValid = .none
  linesDirty : s.linesDirty = .none
  validate : s.cacheLineValidate = .none
  invalidate : s.cacheLineInvalidate = .none
  fromMiss : ∃ L, s.selectedCacheLineFromMiss = .only L
  selected : s.selectedCacheLineR = .none
  selected2 : s.selectedCacheLineR2 = .none
  quiet : s.toSequencer =
    ⟨false, false, false, false, false, false, false, false, false, false, false, false, false, 0⟩
  wbReqR : s.wbReqR = false
  wbAckO : s.wbAckO = false
  wbAckOR : s.wbAckOR = false
  wbBursting : s.wbBursting = false

end ProbableCause.Ddr2.Cache
