import ProbableCause.Firmware.Schedule

/-!
# `Firmware.Pins` — `dram.h` on the port registers

Each operation of `dram.h` is a sequence of writes to the port registers (`write`), and the DRAM
chip sees the pins after every one of them (`Chip.step`). A pin carries its bit of the output
register as long as the pin is an output and no peripheral has it; else its level is anything
(`float`).

`Signals` is what is left of the registers when only the connections of the chip are looked at, and
`At` says that a board shows some signals and has some chip. `At.write` is the rule for one write;
the rules for the macros of `dram.h` follow from it.
-/

namespace ProbableCause.Pins

abbrev W_MASK : BitVec 8 := 0x2
abbrev OE_MASK : BitVec 8 := 0x4
abbrev RAS_MASK : BitVec 8 := 0x8
abbrev CAS_MASK : BitVec 8 := 0x10
abbrev DATA_MASK : BitVec 8 := 0xF
abbrev ADDRESS_MASK : BitVec 8 := 0xFF

/-- The control bits of port 1. -/
abbrev CONTROL_MASK : BitVec 8 := W_MASK ||| OE_MASK ||| RAS_MASK ||| CAS_MASK

/-! ## The ports -/

/-- The registers of the ports 1, 3 and 4. -/
structure Ports where
  P1SEL : BitVec 8
  P1DIR : BitVec 8
  P1OUT : BitVec 8
  P3SEL : BitVec 8
  P3DIR : BitVec 8
  P3OUT : BitVec 8
  P4SEL : BitVec 8
  P4DIR : BitVec 8
  P4OUT : BitVec 8

/-- The levels that the pins of the three ports have where the ports do not drive them. -/
structure Levels where
  p1 : BitVec 8
  p3 : BitVec 8
  p4 : BitVec 8

/-- The levels of the pins of a port. -/
def level (dir sel out float : BitVec 8) : BitVec 8 :=
  (out &&& (dir &&& ~~~sel)) ||| (float &&& ~~~(dir &&& ~~~sel))

/-- The line of a mask is high. -/
def line (mask levels : BitVec 8) : Bool := levels &&& mask != 0

/-! ## The chip -/

/-- The words of the chip, by row and column. -/
abbrev Memory := BitVec 8 → BitVec 8 → BitVec 4

def Memory.set (m : Memory) (row column : BitVec 8) (value : BitVec 4) : Memory :=
  fun r c => if r = row ∧ c = column then value else m r c

/-- The DRAM chip: the levels of RAS and CAS it has seen last, the row it has latched, the word it
    has put out since CAS fell, and its words. -/
structure Chip where
  ras : Bool
  cas : Bool
  row : BitVec 8
  out : Option (BitVec 4)
  mem : Memory

/-- The word on the data pins, which the chip drives until CAS rises. -/
def Chip.drives (c : Chip) : Option (BitVec 4) := if c.cas then none else c.out

/-- The row that the chip has latched when it sees some levels. -/
def Chip.latch (c : Chip) (control address : BitVec 8) : BitVec 8 :=
  if c.ras && !line RAS_MASK control then address else c.row

/-- What the chip does when it sees some levels: on a falling edge of RAS it latches the row; on a
    falling edge of CAS with RAS low it stores the data (W low) or puts out the word of row and
    column (W high). -/
def Chip.step (c : Chip) (control address : BitVec 8) (data : BitVec 4) : Chip :=
  if c.cas && !line CAS_MASK control && !line RAS_MASK control then
    { ras := line RAS_MASK control
      cas := line CAS_MASK control
      row := c.latch control address
      out := if line W_MASK control then some (c.mem (c.latch control address) address) else none
      mem := if line W_MASK control then c.mem else c.mem.set (c.latch control address) address data }
  else
    { c with
      ras := line RAS_MASK control
      cas := line CAS_MASK control
      row := c.latch control address }

/-! ## The microcontroller and the chip -/

/-- The board. `moments` records the registers and the chip after each write, the last one first. -/
structure Board where
  ports : Ports
  chip : Chip
  moments : List (Ports × Chip)

/-- A part of the program. -/
abbrev Mcu (α : Type) := StateM Board α

variable (float : ℕ → Levels)

/-- One write to a port register, and what the chip makes of it. -/
def write (f : Ports → Ports) : Mcu Unit := fun b =>
  let p := f b.ports
  let undriven := float b.moments.length
  let c := b.chip.step (level p.P1DIR p.P1SEL p.P1OUT undriven.p1)
    (level p.P4DIR p.P4SEL p.P4OUT undriven.p4)
    ((level p.P3DIR p.P3SEL p.P3OUT undriven.p3).setWidth 4)
  ((), ⟨p, c, (p, c) :: b.moments⟩)

/-- The register `P3IN`: the chip drives the lower four pins or none. -/
def P3IN (b : Board) : BitVec 8 :=
  let undriven := (float b.moments.length).p3
  level b.ports.P3DIR b.ports.P3SEL b.ports.P3OUT
    (match b.chip.drives with
      | some word => (undriven &&& ~~~DATA_MASK) ||| word.setWidth 8
      | none => undriven)

/-- `P1OUT |= mask`. -/
def raise (mask : BitVec 8) : Mcu Unit := write float fun p => { p with P1OUT := p.P1OUT ||| mask }

/-- `P1OUT &= ~mask`. -/
def lower (mask : BitVec 8) : Mcu Unit := write float fun p => { p with P1OUT := p.P1OUT &&& ~~~mask }

def setWHigh : Mcu Unit := raise float W_MASK
def setWLow : Mcu Unit := lower float W_MASK
def setOeLow : Mcu Unit := lower float OE_MASK
def setRasHigh : Mcu Unit := raise float RAS_MASK
def setRasLow : Mcu Unit := lower float RAS_MASK
def setCasHigh : Mcu Unit := raise float CAS_MASK
def setCasLow : Mcu Unit := lower float CAS_MASK

def setAddress (pos : BitVec 8) : Mcu Unit := write float fun p => { p with P4OUT := pos }

def readData : Mcu (BitVec 8) := fun b => (P3IN float b &&& DATA_MASK, b)

def writeData (v : BitVec 8) : Mcu Unit :=
  write float fun p => { p with P3OUT := (p.P3OUT &&& ~~~DATA_MASK) ||| (v &&& DATA_MASK) }

/-- `P3DIR |= DATA_MASK`. -/
def dataOut : Mcu Unit := write float fun p => { p with P3DIR := p.P3DIR ||| DATA_MASK }

/-- `P3DIR &= ~DATA_MASK`. -/
def dataIn : Mcu Unit := write float fun p => { p with P3DIR := p.P3DIR &&& ~~~DATA_MASK }

/-! ## The operations -/

def dramInitMcu : Mcu Unit := do
  write float fun p => { p with
    P1SEL := p.P1SEL &&& ~~~(W_MASK ||| OE_MASK ||| RAS_MASK ||| CAS_MASK) }
  write float fun p => { p with P3SEL := p.P3SEL &&& ~~~DATA_MASK }
  write float fun p => { p with P4SEL := p.P4SEL &&& ~~~ADDRESS_MASK }
  write float fun p => { p with P1DIR := p.P1DIR ||| (W_MASK ||| OE_MASK ||| RAS_MASK ||| CAS_MASK) }
  write float fun p => { p with P3DIR := p.P3DIR &&& ~~~DATA_MASK }
  write float fun p => { p with P4DIR := p.P4DIR ||| ADDRESS_MASK }
  write float fun p => { p with
    P1OUT := p.P1OUT &&& ~~~(W_MASK ||| OE_MASK ||| RAS_MASK ||| CAS_MASK) }
  write float fun p => { p with P4OUT := p.P4OUT &&& ~~~ADDRESS_MASK }

def dramRef (row : BitVec 8) : Mcu Unit := do
  setRasHigh float
  setAddress float row
  setRasLow float
  setRasHigh float
  setAddress float 0x0

def dramWb (row column value : BitVec 8) : Mcu Unit := do
  dataOut float
  setWLow float
  setAddress float row
  setRasLow float
  setAddress float column
  writeData float value
  setCasLow float
  setCasHigh float
  setRasHigh float

def dramRb (row column : BitVec 8) : Mcu (BitVec 8) := do
  dataIn float
  setWHigh float
  setOeLow float
  setAddress float row
  setRasLow float
  setAddress float column
  setCasLow float
  let value ← readData float
  setCasHigh float
  setRasHigh float
  return value

def dramWbHr (row column value : BitVec 8) : Mcu Unit := do
  dataOut float
  setWLow float
  setAddress float row
  setRasLow float
  setAddress float column
  writeData float value
  setCasLow float
  setCasHigh float
  setRasHigh float
  setRasLow float
  setRasHigh float

def dramRbHr (row column : BitVec 8) : Mcu (BitVec 8) := do
  dataIn float
  setWHigh float
  setOeLow float
  setAddress float row
  setRasLow float
  setAddress float column
  setCasLow float
  let value ← readData float
  setCasHigh float
  setRasHigh float
  setRasLow float
  setRasHigh float
  return value

def dramInitChip : Mcu Unit := do
  dramWb float 0 1 0xF
  dramWb float 1 1 0xF

/-! ## What the chip does at an edge -/

/-- Only the three lines are looked at. -/
theorem Chip.step_congr (c : Chip) {control control' : BitVec 8} (address : BitVec 8)
    (data : BitVec 4) (hras : line RAS_MASK control = line RAS_MASK control')
    (hcas : line CAS_MASK control = line CAS_MASK control')
    (hw : line W_MASK control = line W_MASK control') :
    c.step control address data = c.step control' address data := by
  unfold Chip.step Chip.latch
  rw [hras, hcas, hw]

/-- Without an edge nothing changes. -/
theorem Chip.step_eq_self {c : Chip} {control : BitVec 8} (address : BitVec 8) (data : BitVec 4)
    (hras : line RAS_MASK control = c.ras) (hcas : line CAS_MASK control = c.cas) :
    c.step control address data = c := by
  unfold Chip.step Chip.latch
  rw [hras, hcas]
  cases c with
  | mk ras cas row out mem => cases ras <;> cases cas <;> rfl

@[simp] theorem Chip.step_ras (c : Chip) (control address : BitVec 8) (data : BitVec 4) :
    (c.step control address data).ras = line RAS_MASK control := by
  unfold Chip.step
  split <;> rfl

@[simp] theorem Chip.step_cas (c : Chip) (control address : BitVec 8) (data : BitVec 4) :
    (c.step control address data).cas = line CAS_MASK control := by
  unfold Chip.step
  split <;> rfl

/-! ## Signals -/

/-- What the registers mean for the chip: the control bits, the address, the nibble of `P3OUT` and
    whether the data pins are outputs. `others` and `high` are the other bits of `P1OUT` and
    `P3OUT`. -/
structure Signals where
  others : BitVec 8
  control : BitVec 8
  high : BitVec 8
  data : BitVec 4
  address : BitVec 8
  outputs : Bool

/-- The registers show some signals: the control and address pins are outputs, and no peripheral has
a pin. -/
structure Shows (p : Ports) (s : Signals) : Prop where
  wired : p.P1DIR &&& ~~~p.P1SEL &&& CONTROL_MASK = CONTROL_MASK
  free : p.P3SEL &&& DATA_MASK = 0
  addressed : p.P4DIR &&& ~~~p.P4SEL = ADDRESS_MASK
  others : p.P1OUT &&& ~~~CONTROL_MASK = s.others
  control : p.P1OUT &&& CONTROL_MASK = s.control
  high : p.P3OUT &&& ~~~DATA_MASK = s.high
  data : p.P3OUT.setWidth 4 = s.data
  address : p.P4OUT = s.address
  outputs : p.P3DIR &&& DATA_MASK = if s.outputs then DATA_MASK else 0

/-! ### Masks -/

/-- The bits outside a mask are not touched by setting bits inside it. -/
theorem or_and_not {x m c : BitVec 8} (h : m &&& c = m) : (x ||| m) &&& ~~~c = x &&& ~~~c := by
  have hout : m &&& ~~~c = 0 := by
    rw [← h, BitVec.and_assoc, BitVec.and_not_self]
    exact BitVec.and_zero
  rw [BitVec.and_or_distrib_right, hout]
  exact BitVec.or_zero

/-- The bits outside a mask are not touched by clearing bits inside it. -/
theorem and_not_and_not {x m c : BitVec 8} (h : m &&& c = m) :
    (x &&& ~~~m) &&& ~~~c = x &&& ~~~c := by
  have hout : ~~~m &&& ~~~c = ~~~c := by
    rw [← BitVec.not_or, ← h]
    apply congrArg
    apply BitVec.eq_of_getLsbD_eq
    intro i _
    rw [BitVec.getLsbD_or, BitVec.getLsbD_and]
    cases m.getLsbD i <;> cases c.getLsbD i <;> rfl
  rw [BitVec.and_assoc, hout]

theorem and_not_and {x m c : BitVec 8} : (x &&& ~~~m) &&& c = (x &&& c) &&& ~~~m := by
  rw [BitVec.and_assoc, BitVec.and_assoc, BitVec.and_comm c]

theorem or_and {x m c : BitVec 8} (h : m &&& c = m) : (x ||| m) &&& c = (x &&& c) ||| m := by
  rw [BitVec.and_or_distrib_right, h]

/-- The pins that the port drives have the bits of the output register. -/
theorem level_and {dir sel m : BitVec 8} (h : dir &&& ~~~sel &&& m = m) (out undriven : BitVec 8) :
    level dir sel out undriven &&& m = out &&& m := by
  have hnone : ~~~(dir &&& ~~~sel) &&& m = 0 := by
    rw [← h, ← BitVec.and_assoc, BitVec.and_comm (~~~(dir &&& ~~~sel)), BitVec.and_not_self]
    exact BitVec.zero_and
  have hundriven : undriven &&& 0 = 0 := BitVec.and_zero
  rw [level, BitVec.and_or_distrib_right, BitVec.and_assoc, h, BitVec.and_assoc, hnone, hundriven]
  exact BitVec.or_zero

theorem not_and_of_disjoint {x m : BitVec 8} (h : x &&& m = 0) : ~~~x &&& m = m := by
  apply BitVec.eq_of_getLsbD_eq
  intro i hi
  have hbit : (x &&& m).getLsbD i = false := by
    rw [h]
    exact BitVec.getLsbD_zero
  rw [BitVec.getLsbD_and] at hbit
  rw [BitVec.getLsbD_and, BitVec.getLsbD_not, decide_eq_true hi]
  cases hx : x.getLsbD i with
  | false => exact Bool.true_and _
  | true =>
    rw [hx] at hbit
    exact hbit.symm

/-- The other pins have the levels from outside. -/
theorem level_and_undriven {dir sel m : BitVec 8} (h : dir &&& m = 0) (out undriven : BitVec 8) :
    level dir sel out undriven &&& m = undriven &&& m := by
  have hdriven : dir &&& ~~~sel &&& m = 0 := by
    rw [BitVec.and_assoc, BitVec.and_comm, BitVec.and_assoc, BitVec.and_comm m, h]
    exact BitVec.and_zero
  have hout : out &&& 0 = 0 := BitVec.and_zero
  rw [level, BitVec.and_or_distrib_right, BitVec.and_assoc, hdriven, BitVec.and_assoc,
    not_and_of_disjoint hdriven, hout]
  exact BitVec.zero_or

/-- A line inside a mask. -/
theorem line_and {m c : BitVec 8} (h : m &&& c = m) (x : BitVec 8) : line m (x &&& c) = line m x := by
  unfold line
  rw [BitVec.and_assoc, BitVec.and_comm c, h]

/-! ### The registers and the signals -/

variable {p : Ports} {s : Signals} {mask : BitVec 8}

theorem Shows.raise (h : Shows p s) (hmask : mask &&& CONTROL_MASK = mask) :
    Shows { p with P1OUT := p.P1OUT ||| mask } { s with control := s.control ||| mask } where
  wired := h.wired
  free := h.free
  addressed := h.addressed
  others := (or_and_not hmask).trans h.others
  control := (or_and hmask).trans (congrArg (· ||| mask) h.control)
  high := h.high
  data := h.data
  address := h.address
  outputs := h.outputs

theorem Shows.lower (h : Shows p s) (hmask : mask &&& CONTROL_MASK = mask) :
    Shows { p with P1OUT := p.P1OUT &&& ~~~mask } { s with control := s.control &&& ~~~mask } where
  wired := h.wired
  free := h.free
  addressed := h.addressed
  others := (and_not_and_not hmask).trans h.others
  control := and_not_and.trans (congrArg (· &&& ~~~mask) h.control)
  high := h.high
  data := h.data
  address := h.address
  outputs := h.outputs

theorem Shows.setAddress (h : Shows p s) (pos : BitVec 8) :
    Shows { p with P4OUT := pos } { s with address := pos } :=
  { h with address := rfl }

theorem Shows.writeData (h : Shows p s) (v : BitVec 8) :
    Shows { p with P3OUT := (p.P3OUT &&& ~~~DATA_MASK) ||| (v &&& DATA_MASK) }
      { s with data := v.setWidth 4 } where
  wired := h.wired
  free := h.free
  addressed := h.addressed
  others := h.others
  control := h.control
  high := by
    have hnibble : v &&& DATA_MASK &&& DATA_MASK = v &&& DATA_MASK := by
      rw [BitVec.and_assoc, BitVec.and_self]
    exact ((or_and_not hnibble).trans (and_not_and_not (BitVec.and_self))).trans h.high
  data := by
    have hnibble : ∀ x y : BitVec 4,
        x &&& ~~~(DATA_MASK.setWidth 4) ||| y &&& DATA_MASK.setWidth 4 = y := by
      decide
    have hnot : (~~~DATA_MASK).setWidth 4 = ~~~(DATA_MASK.setWidth 4) := by decide
    show ((p.P3OUT &&& ~~~DATA_MASK) ||| (v &&& DATA_MASK)).setWidth 4 = v.setWidth 4
    rw [BitVec.setWidth_or, BitVec.setWidth_and, BitVec.setWidth_and, hnot, hnibble]
  address := h.address
  outputs := h.outputs

theorem Shows.dataOut (h : Shows p s) :
    Shows { p with P3DIR := p.P3DIR ||| DATA_MASK } { s with outputs := true } := by
  have hall : ∀ x : BitVec 8, (x ||| DATA_MASK) &&& DATA_MASK = DATA_MASK := by decide
  exact { h with outputs := hall _ }

theorem Shows.dataIn (h : Shows p s) :
    Shows { p with P3DIR := p.P3DIR &&& ~~~DATA_MASK } { s with outputs := false } := by
  have hnone : ∀ x : BitVec 8, x &&& ~~~DATA_MASK &&& DATA_MASK = 0 := by decide
  exact { h with outputs := hnone _ }

/-! ### What the chip sees -/

/-- The lines of the control bits. -/
theorem Shows.line_control (h : Shows p s) (undriven : BitVec 8)
    (hmask : mask &&& CONTROL_MASK = mask) :
    line mask (level p.P1DIR p.P1SEL p.P1OUT undriven) = line mask s.control := by
  rw [← line_and hmask, level_and h.wired, h.control]

theorem Shows.level_address (h : Shows p s) (undriven : BitVec 8) :
    level p.P4DIR p.P4SEL p.P4OUT undriven = s.address := by
  have hdriven : p.P4DIR &&& ~~~p.P4SEL &&& ADDRESS_MASK = ADDRESS_MASK := by
    rw [h.addressed]
    rfl
  have hall := level_and hdriven p.P4OUT undriven
  have hones : ∀ x : BitVec 8, x &&& ADDRESS_MASK = x := by decide
  rw [hones, hones] at hall
  rw [hall, h.address]

/-- The data pins, as long as they are outputs. -/
theorem Shows.level_data (h : Shows p s) (houtputs : s.outputs = true) (undriven : BitVec 8) :
    (level p.P3DIR p.P3SEL p.P3OUT undriven).setWidth 4 = s.data := by
  have hnibble : ∀ x : BitVec 8, (x &&& DATA_MASK).setWidth 4 = (x.setWidth 4 : BitVec 4) := by decide
  have hout := h.outputs
  rw [houtputs] at hout
  have hdriven : p.P3DIR &&& ~~~p.P3SEL &&& DATA_MASK = DATA_MASK := by
    rw [BitVec.and_assoc, not_and_of_disjoint h.free]
    exact hout
  rw [← hnibble, level_and hdriven, hnibble, h.data]

/-- The data pins, as long as they are inputs. -/
theorem Shows.level_undriven (h : Shows p s) (houtputs : s.outputs = false) (undriven : BitVec 8) :
    level p.P3DIR p.P3SEL p.P3OUT undriven &&& DATA_MASK = undriven &&& DATA_MASK := by
  have hin := h.outputs
  rw [houtputs] at hin
  exact level_and_undriven hin _ _

/-- What the chip makes of the signals. -/
theorem Shows.step_eq (h : Shows p s) (c : Chip) (undriven address : BitVec 8) (data : BitVec 4) :
    c.step (level p.P1DIR p.P1SEL p.P1OUT undriven) address data = c.step s.control address data :=
  c.step_congr address data (h.line_control _ (by decide)) (h.line_control _ (by decide))
    (h.line_control _ (by decide))

/-! ## A board during the operations -/

/-- A moment at which the data pins are not driven from both sides. -/
def Quiet (m : Ports × Chip) : Prop := m.2.drives = none ∨ m.1.P3DIR &&& DATA_MASK = 0

/-- The registers have these bits besides those of the chip. -/
def Keeps (others high : BitVec 8) (m : Ports × Chip) : Prop :=
  m.1.P1OUT &&& ~~~CONTROL_MASK = others ∧ m.1.P3OUT &&& ~~~DATA_MASK = high

/-- **A board shows some signals and has some chip.** Since the moments `since`, the bits that are
    not the chip's have been kept, and where it matters (`strict`) all moments have been quiet. -/
structure At (strict : Prop) (since : List (Ports × Chip)) (b : Board) (s : Signals)
    (c : Chip) : Prop where
  shows : Shows b.ports s
  chip : b.chip = c
  recent : ∃ new, b.moments = new ++ since ∧ ∀ m ∈ new, Keeps s.others s.high m ∧ (strict → Quiet m)

variable {strict : Prop} {since : List (Ports × Chip)} {b : Board} {c c' : Chip}

/-- **The rule for a write.** -/
theorem At.write (h : At strict since b s c) {f : Ports → Ports} {s' : Signals}
    (hshows : Shows (f b.ports) s') (hothers : s'.others = s.others) (hhigh : s'.high = s.high)
    (hchip : ∀ data, (s'.outputs = true → data = s'.data) → c.step s'.control s'.address data = c')
    (hquiet : strict → c'.drives = none ∨ s'.outputs = false) :
    At strict since (write float f b).2 s' c' := by
  obtain ⟨new, hmoments, hnew⟩ := h.recent
  have hstep : (Pins.write float f b).2.chip = c' := by
    show b.chip.step _ _ _ = c'
    rw [hshows.step_eq, hshows.level_address, h.chip]
    exact hchip _ fun houtputs => hshows.level_data houtputs _
  refine ⟨hshows, hstep, _ :: new, congrArg (_ :: ·) hmoments, ?_⟩
  intro m hm
  rcases List.mem_cons.mp hm with rfl | hold
  · refine ⟨⟨hshows.others, hshows.high⟩, fun hstrict => ?_⟩
    rcases hquiet hstrict with hnone | hinputs
    · left
      rw [← hnone, ← hstep]
      rfl
    · right
      have hdir := hshows.outputs
      rw [hinputs] at hdir
      exact hdir
  · rw [hothers, hhigh]
    exact hnew m hold

variable {others control high address : BitVec 8} {data : BitVec 4} {outputs : Bool}

theorem At.raise (mask control' : BitVec 8) (c' : Chip)
    (h : At strict since b ⟨others, control, high, data, address, outputs⟩ c)
    (hmask : mask &&& CONTROL_MASK = mask) (hcontrol : control ||| mask = control')
    (hchip : ∀ d, (outputs = true → d = data) → c.step control' address d = c')
    (hquiet : strict → c'.drives = none ∨ outputs = false) :
    At strict since (raise float mask b).2 ⟨others, control', high, data, address, outputs⟩ c' := by
  rw [← hcontrol] at hchip ⊢
  exact h.write float (h.shows.raise hmask) rfl rfl hchip hquiet

theorem At.lower (mask control' : BitVec 8) (c' : Chip)
    (h : At strict since b ⟨others, control, high, data, address, outputs⟩ c)
    (hmask : mask &&& CONTROL_MASK = mask) (hcontrol : control &&& ~~~mask = control')
    (hchip : ∀ d, (outputs = true → d = data) → c.step control' address d = c')
    (hquiet : strict → c'.drives = none ∨ outputs = false) :
    At strict since (lower float mask b).2 ⟨others, control', high, data, address, outputs⟩ c' := by
  rw [← hcontrol] at hchip ⊢
  exact h.write float (h.shows.lower hmask) rfl rfl hchip hquiet

/-- The chip has seen the levels of RAS and CAS: no other signal makes a difference then. -/
def Seen (control : BitVec 8) (c : Chip) : Prop :=
  line RAS_MASK control = c.ras ∧ line CAS_MASK control = c.cas

theorem At.setAddress (h : At strict since b ⟨others, control, high, data, address, outputs⟩ c)
    (hseen : Seen control c) (pos : BitVec 8) (hquiet : strict → c.drives = none ∨ outputs = false) :
    At strict since (setAddress float pos b).2 ⟨others, control, high, data, pos, outputs⟩ c :=
  h.write float (h.shows.setAddress pos) rfl rfl
    (fun _ _ => Chip.step_eq_self _ _ hseen.1 hseen.2) hquiet

theorem At.writeData (h : At strict since b ⟨others, control, high, data, address, outputs⟩ c)
    (hseen : Seen control c) (v : BitVec 8) (hquiet : strict → c.drives = none ∨ outputs = false) :
    At strict since (writeData float v b).2 ⟨others, control, high, v.setWidth 4,
      address, outputs⟩ c :=
  h.write float (h.shows.writeData v) rfl rfl
    (fun _ _ => Chip.step_eq_self _ _ hseen.1 hseen.2) hquiet

theorem At.dataOut (h : At strict since b ⟨others, control, high, data, address, outputs⟩ c)
    (hseen : Seen control c) (hquiet : strict → c.drives = none) :
    At strict since (dataOut float b).2 ⟨others, control, high, data, address, true⟩ c :=
  h.write float h.shows.dataOut rfl rfl (fun _ _ => Chip.step_eq_self _ _ hseen.1 hseen.2)
    fun hstrict => .inl (hquiet hstrict)

theorem At.dataIn (h : At strict since b ⟨others, control, high, data, address, outputs⟩ c)
    (hseen : Seen control c) :
    At strict since (dataIn float b).2 ⟨others, control, high, data, address, false⟩ c :=
  h.write float h.shows.dataIn rfl rfl (fun _ _ => Chip.step_eq_self _ _ hseen.1 hseen.2)
    fun _ => .inr rfl

/-- The microcontroller reads the word that the chip drives. -/
theorem At.readData (h : At strict since b ⟨others, control, high, data, address, false⟩ c)
    {word : BitVec 4} (hdrives : c.drives = some word) : (readData float b).1 = word.setWidth 8 := by
  have hword : ∀ w : BitVec 4, w.setWidth 8 &&& DATA_MASK = w.setWidth 8 := by decide
  have hnone : ∀ x : BitVec 8, x &&& ~~~DATA_MASK &&& DATA_MASK = 0 := by decide
  show P3IN float b &&& DATA_MASK = _
  rw [P3IN, h.shows.level_undriven rfl, h.chip, hdrives]
  dsimp only
  rw [BitVec.and_or_distrib_right, hnone, hword]
  exact BitVec.zero_or

end ProbableCause.Pins
