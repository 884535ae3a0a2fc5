import ProbableCause.Firmware.Pins

/-!
# `Firmware.Driver` — the driver implements a memory

Between two operations of `dram.h` RAS and CAS are high (`Idle`), and what the chip has stored is a
memory (`Ready`). Each operation leads from `Ready` to `Ready`: the refresh strobes change nothing,
a write sets one word and a read returns it. After `dram_init_mcu` the levels are the wrong ones,
all low: the first write of `dram_init_chip` makes no falling edge and is lost, but leaves RAS and
CAS high (`at_dramWb_low`).

`driver_implements_memory` is the result for any sequence of operations; `words_wb` and `answer_rb`
say that this memory is the `Dram` that the loop of `Firmware.Schedule` works on.
-/

namespace ProbableCause.Pins

variable (float : ℕ → Levels) {strict : Prop} {since : List (Ports × Chip)} {b : Board} {m : Memory}
  {others control high address : BitVec 8} {data : BitVec 4} {outputs : Bool}

/-! ## The operations -/

/-- Between operations RAS and CAS are high and OE is low; W is as the last access has left it. -/
def Idle (control : BitVec 8) : Prop :=
  control = RAS_MASK ||| CAS_MASK ∨ control = RAS_MASK ||| CAS_MASK ||| W_MASK

theorem Idle.seen (h : Idle control) (row : BitVec 8) (out : Option (BitVec 4)) :
    Seen control ⟨true, true, row, out, m⟩ := by
  rcases h with rfl | rfl
  · exact ⟨rfl, rfl⟩
  · exact ⟨rfl, rfl⟩

/-- W goes low between operations. -/
theorem Idle.w_low (h : Idle control) : control &&& ~~~W_MASK = RAS_MASK ||| CAS_MASK := by
  rcases h with rfl | rfl <;> decide

/-- W goes high between operations. -/
theorem Idle.w_high (h : Idle control) : control ||| W_MASK = RAS_MASK ||| CAS_MASK ||| W_MASK := by
  rcases h with rfl | rfl <;> decide

/-- RAS falls between operations: the chip latches the address as a row. -/
theorem at_setRasLow {row₀ : BitVec 8} {out : Option (BitVec 4)}
    (h : At strict since b ⟨others, control, high, data, address, outputs⟩ ⟨true, true, row₀, out, m⟩)
    (hidle : Idle control) :
    At strict since (setRasLow float b).2 ⟨others, control &&& ~~~RAS_MASK, high, data,
      address, outputs⟩
      ⟨false, true, address, out, m⟩ := by
  have hlines : ∀ d, (outputs = true → d = data) →
      (Chip.mk true true row₀ out m).step (control &&& ~~~RAS_MASK) address d =
        ⟨false, true, address, out, m⟩ := by
    rcases hidle with rfl | rfl
    · exact fun _ _ => rfl
    · exact fun _ _ => rfl
  exact h.lower float RAS_MASK _ _ (by decide) rfl hlines fun _ => .inl rfl

/-- A strobe of RAS without CAS latches some row and changes nothing else. -/
theorem at_strobe {row₀ : BitVec 8} {out : Option (BitVec 4)}
    (h : At strict since b ⟨others, control, high, data, address, outputs⟩ ⟨true, true, row₀, out, m⟩)
    (hidle : Idle control) :
    At strict since (setRasHigh float (setRasLow float b).2).2
      ⟨others, control, high, data, address, outputs⟩ ⟨true, true, address, out, m⟩ := by
  have hras := at_setRasLow float h hidle
  rcases hidle with rfl | rfl
  · exact hras.raise float RAS_MASK (RAS_MASK ||| CAS_MASK) ⟨true, true, address, out, m⟩ (by decide)
      (by decide) (fun _ _ => rfl) fun _ => .inl rfl
  · exact hras.raise float RAS_MASK (RAS_MASK ||| CAS_MASK ||| W_MASK) ⟨true, true, address, out, m⟩
      (by decide) (by decide) (fun _ _ => rfl) fun _ => .inl rfl

theorem at_dramRef {row₀ : BitVec 8} {out : Option (BitVec 4)}
    (h : At strict since b ⟨others, control, high, data, address, outputs⟩ ⟨true, true, row₀, out, m⟩)
    (hidle : Idle control) (row : BitVec 8) :
    At strict since (dramRef float row b).2 ⟨others, control, high, data, 0, outputs⟩
      ⟨true, true, row, out, m⟩ := by
  have hhigh : control ||| RAS_MASK = control := by rcases hidle with rfl | rfl <;> decide
  have hras := h.raise float RAS_MASK control ⟨true, true, row₀, out, m⟩ (by decide) hhigh
    (fun _ _ => Chip.step_eq_self _ _ (hidle.seen row₀ out).1 (hidle.seen row₀ out).2)
      fun _ => .inl rfl
  have hrow := hras.setAddress float (hidle.seen _ _) row fun _ => .inl rfl
  exact (at_strobe float hrow hidle).setAddress float (hidle.seen _ _) 0x0 fun _ => .inl rfl

/-- A write. -/
theorem at_dramWb {row₀ : BitVec 8} {out : Option (BitVec 4)}
    (h : At strict since b ⟨others, control, high, data, address, outputs⟩ ⟨true, true, row₀, out, m⟩)
    (hidle : Idle control) (row column value : BitVec 8) :
    At strict since (dramWb float row column value b).2
      ⟨others, RAS_MASK ||| CAS_MASK, high, value.setWidth 4, column, true⟩
      ⟨true, true, row, none, m.set row column (value.setWidth 4)⟩ := by
  have hout := h.dataOut float (hidle.seen _ _) fun _ => rfl
  have hw := hout.lower float W_MASK (RAS_MASK ||| CAS_MASK) ⟨true, true, row₀, out, m⟩
    (by decide) hidle.w_low
    (fun _ _ => rfl) fun _ => .inl rfl
  have hrow := hw.setAddress float ⟨rfl, rfl⟩ row fun _ => .inl rfl
  have hras := hrow.lower float RAS_MASK CAS_MASK ⟨false, true, row, out, m⟩ (by decide) (by decide)
    (fun _ _ => rfl) fun _ => .inl rfl
  have hcolumn := hras.setAddress float ⟨rfl, rfl⟩ column fun _ => .inl rfl
  have hdata := hcolumn.writeData float ⟨rfl, rfl⟩ value fun _ => .inl rfl
  -- the data pins are outputs and W is low: the chip stores the nibble
  have hcas := hdata.lower float CAS_MASK 0 ⟨false, false, row, none,
    m.set row column (value.setWidth 4)⟩
    (by decide) (by decide) (fun _ hd => by rw [hd rfl]; rfl) fun _ => .inl rfl
  have hcas' := hcas.raise float CAS_MASK CAS_MASK ⟨false, true, row, none,
    m.set row column (value.setWidth 4)⟩
    (by decide) (by decide) (fun _ _ => rfl) fun _ => .inl rfl
  exact hcas'.raise float RAS_MASK (RAS_MASK ||| CAS_MASK)
    ⟨true, true, row, none, m.set row column (value.setWidth 4)⟩ (by decide) (by decide)
      (fun _ _ => rfl)
    fun _ => .inl rfl

/-- A read, with the value it returns. -/
theorem at_dramRb {row₀ : BitVec 8} {out : Option (BitVec 4)}
    (h : At strict since b ⟨others, control, high, data, address, outputs⟩ ⟨true, true, row₀, out, m⟩)
    (hidle : Idle control) (row column : BitVec 8) :
    (dramRb float row column b).1 = (m row column).setWidth 8 ∧
      At strict since (dramRb float row column b).2
        ⟨others, RAS_MASK ||| CAS_MASK ||| W_MASK, high, data, column, false⟩
        ⟨true, true, row, some (m row column), m⟩ := by
  have hin := h.dataIn float (hidle.seen _ _)
  have hw := hin.raise float W_MASK (RAS_MASK ||| CAS_MASK ||| W_MASK) ⟨true, true, row₀,
    out, m⟩ (by decide)
    hidle.w_high (fun _ _ => rfl) fun _ => .inl rfl
  have hoe := hw.lower float OE_MASK (RAS_MASK ||| CAS_MASK ||| W_MASK) ⟨true, true, row₀,
    out, m⟩ (by decide)
    (by decide) (fun _ _ => rfl) fun _ => .inl rfl
  have hrow := hoe.setAddress float ⟨rfl, rfl⟩ row fun _ => .inl rfl
  have hras := hrow.lower float RAS_MASK (CAS_MASK ||| W_MASK) ⟨false, true, row, out, m⟩ (by decide)
    (by decide) (fun _ _ => rfl) fun _ => .inl rfl
  have hcolumn := hras.setAddress float ⟨rfl, rfl⟩ column fun _ => .inl rfl
  -- W is high: the chip drives the word, and the data pins are inputs
  have hcas := hcolumn.lower float CAS_MASK W_MASK ⟨false, false, row,
    some (m row column), m⟩ (by decide)
    (by decide) (fun _ _ => rfl) fun _ => .inr rfl
  have hcas' := hcas.raise float CAS_MASK (CAS_MASK ||| W_MASK) ⟨false, true, row,
    some (m row column), m⟩
    (by decide) (by decide) (fun _ _ => rfl) fun _ => .inl rfl
  have hras' := hcas'.raise float RAS_MASK (RAS_MASK ||| CAS_MASK ||| W_MASK)
    ⟨true, true, row, some (m row column), m⟩ (by decide) (by decide) (fun _ _ => rfl)
      fun _ => .inl rfl
  exact ⟨hcas.readData float rfl, hras'⟩

/-! ## The initialisation -/

/-- The first write of `dram_init_chip` starts with all levels low: there is no falling edge. -/
theorem at_dramWb_low {row₀ : BitVec 8} {out : Option (BitVec 4)}
    (h : At False since b ⟨others, 0, high, data, address, outputs⟩ ⟨false, false, row₀, out, m⟩)
    (row column value : BitVec 8) :
    At False since (dramWb float row column value b).2
      ⟨others, RAS_MASK ||| CAS_MASK, high, value.setWidth 4, column, true⟩
        ⟨true, true, row₀, out, m⟩ := by
  have hout := h.dataOut float ⟨rfl, rfl⟩ False.elim
  have hw := hout.lower float W_MASK 0 ⟨false, false, row₀, out, m⟩ (by decide) (by decide)
    (fun _ _ => rfl)
    False.elim
  have hrow := hw.setAddress float ⟨rfl, rfl⟩ row False.elim
  have hras := hrow.lower float RAS_MASK 0 ⟨false, false, row₀, out, m⟩ (by decide) (by decide)
    (fun _ _ => rfl)
    False.elim
  have hcolumn := hras.setAddress float ⟨rfl, rfl⟩ column False.elim
  have hdata := hcolumn.writeData float ⟨rfl, rfl⟩ value False.elim
  have hcas := hdata.lower float CAS_MASK 0 ⟨false, false, row₀, out, m⟩ (by decide) (by decide)
    (fun _ _ => rfl)
    False.elim
  have hcas' := hcas.raise float CAS_MASK CAS_MASK ⟨false, true, row₀, out, m⟩ (by decide) (by decide)
    (fun _ _ => rfl) False.elim
  exact hcas'.raise float RAS_MASK (RAS_MASK ||| CAS_MASK) ⟨true, true, row₀, out, m⟩
    (by decide) (by decide)
    (fun _ _ => rfl) False.elim

/-- Setting the direction and clearing the selection of some pins makes them outputs. -/
theorem driven_eq (dir sel c : BitVec 8) : (dir ||| c) &&& ~~~(sel &&& ~~~c) &&& c = c := by
  apply BitVec.eq_of_getLsbD_eq
  intro i hi
  simp only [BitVec.getLsbD_and, BitVec.getLsbD_or, BitVec.getLsbD_not, hi,
    decide_true, Bool.true_and]
  cases dir.getLsbD i <;> cases sel.getLsbD i <;> cases c.getLsbD i <;> rfl

/-- The other bits of the ports are, and have been at all moments, these. -/
def Kept (others high : BitVec 8) (b : Board) : Prop :=
  b.ports.P1OUT &&& ~~~CONTROL_MASK = others ∧ b.ports.P3OUT &&& ~~~DATA_MASK = high ∧
    ∀ x ∈ b.moments, Keeps others high x

theorem kept_write {f : Ports → Ports}
    (hothers : ∀ p, (f p).P1OUT &&& ~~~CONTROL_MASK = p.P1OUT &&& ~~~CONTROL_MASK)
    (hhigh : ∀ p, (f p).P3OUT = p.P3OUT) (b : Board) (h : Kept others high b) :
    Kept others high (write float f b).2 := by
  obtain ⟨hp1, hp3, hmoments⟩ := h
  have hp1' := (hothers b.ports).trans hp1
  have hp3' : (f b.ports).P3OUT &&& ~~~DATA_MASK = high := by rw [hhigh, hp3]
  refine ⟨hp1', hp3', ?_⟩
  intro x hx
  rcases List.mem_cons.mp hx with rfl | hold
  · exact ⟨hp1', hp3'⟩
  · exact hmoments x hold

/-- The chip has seen the levels of the pins. -/
def Watched (b : Board) : Prop :=
  ∃ undriven, b.chip.ras = line RAS_MASK (level b.ports.P1DIR b.ports.P1SEL b.ports.P1OUT undriven) ∧
    b.chip.cas = line CAS_MASK (level b.ports.P1DIR b.ports.P1SEL b.ports.P1OUT undriven)

theorem watched_write (f : Ports → Ports) (b : Board) : Watched (write float f b).2 :=
  ⟨_, Chip.step_ras _ _ _ _, Chip.step_cas _ _ _ _⟩

/-- The rule for a sequence. -/
theorem kept_seq {f : Ports → Ports} {rest : Mcu Unit}
    (hothers : ∀ p, (f p).P1OUT &&& ~~~CONTROL_MASK = p.P1OUT &&& ~~~CONTROL_MASK)
    (hhigh : ∀ p, (f p).P3OUT = p.P3OUT)
    (hrest : ∀ b, Kept others high b → Kept others high (rest b).2 ∧ Watched (rest b).2) (b : Board)
    (h : Kept others high b) :
    Kept others high ((do write float f; rest : Mcu Unit) b).2 ∧
      Watched ((do write float f; rest : Mcu Unit) b).2 :=
  hrest _ (kept_write float hothers hhigh b h)

/-- `dram_init_mcu` touches no other bit. -/
theorem kept_dramInitMcu : ∀ b, Kept others high b →
    Kept others high (dramInitMcu float b).2 ∧ Watched (dramInitMcu float b).2 := by
  unfold dramInitMcu
  refine kept_seq float (fun _ => rfl) (fun _ => rfl) ?_
  refine kept_seq float (fun _ => rfl) (fun _ => rfl) ?_
  refine kept_seq float (fun _ => rfl) (fun _ => rfl) ?_
  refine kept_seq float (fun _ => rfl) (fun _ => rfl) ?_
  refine kept_seq float (fun _ => rfl) (fun _ => rfl) ?_
  refine kept_seq float (fun _ => rfl) (fun _ => rfl) ?_
  refine kept_seq float (fun _ => and_not_and_not BitVec.and_self) (fun _ => rfl) ?_
  intro b h
  refine ⟨kept_write float ?_ ?_ b h, watched_write float _ b⟩
  · exact fun _ => rfl
  · exact fun _ => rfl

theorem line_zero (mask : BitVec 8) : line mask 0 = false := by
  have hzero : 0 &&& mask = 0 := BitVec.zero_and
  rw [line, hzero]
  rfl

/-- **After `dram_init_mcu`** all levels are low, whatever the registers and the chip were before. -/
theorem at_dramInitMcu (ports : Ports) (chip : Chip) :
    ∃ row out m, At False [] (dramInitMcu float ⟨ports, chip, []⟩).2
      ⟨ports.P1OUT &&& ~~~CONTROL_MASK, 0, ports.P3OUT &&& ~~~DATA_MASK,
        ports.P3OUT.setWidth 4, 0, false⟩
      ⟨false, false, row, out, m⟩ := by
  have hnone : ∀ x c : BitVec 8, x &&& ~~~c &&& c = 0 := by
    intro x c
    rw [BitVec.and_assoc, BitVec.and_comm (~~~c), BitVec.and_not_self]
    exact BitVec.and_zero
  have hshows : Shows (dramInitMcu float ⟨ports, chip, []⟩).2.ports
      ⟨ports.P1OUT &&& ~~~CONTROL_MASK, 0, ports.P3OUT &&& ~~~DATA_MASK,
          ports.P3OUT.setWidth 4, 0, false⟩ :=
    { wired := driven_eq _ _ _
      free := hnone _ _
      addressed := by
        have hones : ∀ x : BitVec 8, x &&& ADDRESS_MASK = x := by decide
        exact (hones _).symm.trans (driven_eq ports.P4DIR ports.P4SEL ADDRESS_MASK)
      others := and_not_and_not BitVec.and_self
      control := hnone _ _
      high := rfl
      data := rfl
      address := (by decide : ∀ x : BitVec 8, x &&& ~~~ADDRESS_MASK = 0) _
      outputs := hnone _ _ }
  obtain ⟨hkept, hwatched⟩ := kept_dramInitMcu float ⟨ports, chip, []⟩
    ⟨rfl, rfl, fun x hx => absurd hx List.not_mem_nil⟩
  generalize (dramInitMcu float ⟨ports, chip, []⟩).2 = b at hshows hkept hwatched
  obtain ⟨p, ⟨ras, cas, row, out, m⟩, moments⟩ := b
  obtain ⟨undriven, hras, hcas⟩ := hwatched
  rw [hshows.line_control undriven (show RAS_MASK &&& CONTROL_MASK = RAS_MASK by decide)] at hras
  rw [hshows.line_control undriven (show CAS_MASK &&& CONTROL_MASK = CAS_MASK by decide)] at hcas
  obtain rfl : ras = false := hras.trans (line_zero RAS_MASK)
  obtain rfl : cas = false := hcas.trans (line_zero CAS_MASK)
  exact ⟨row, out, m, hshows, rfl, moments, (List.append_nil _).symm,
    fun x hx => ⟨hkept.2.2 x hx, False.elim⟩⟩

/-! ## The memory -/

/-- A call of one of the five operations. -/
inductive Call where
  | wb (row column value : BitVec 8)
  | rb (row column : BitVec 8)
  | wbHr (row column value : BitVec 8)
  | rbHr (row column : BitVec 8)
  | ref (row : BitVec 8)

/-- A call, with the value it returns. -/
def Call.exec : Call → Mcu (Option (BitVec 8))
  | .wb row column value => do
    dramWb float row column value
    return none
  | .rb row column => do
    let value ← dramRb float row column
    return some value
  | .wbHr row column value => do
    dramWbHr float row column value
    return none
  | .rbHr row column => do
    let value ← dramRbHr float row column
    return some value
  | .ref row => do
    dramRef float row
    return none

/-- What a call does to a memory. -/
def Call.store (m : Memory) : Call → Memory
  | .wb row column value => m.set row column (value.setWidth 4)
  | .wbHr row column value => m.set row column (value.setWidth 4)
  | _ => m

/-- What a call returns of a memory. -/
def Call.answer (m : Memory) : Call → Option (BitVec 8)
  | .rb row column => some ((m row column).setWidth 8)
  | .rbHr row column => some ((m row column).setWidth 8)
  | _ => none

/-- The board between two calls: it is idle and the chip has the words of `m`. -/
def Ready (since : List (Ports × Chip)) (others high : BitVec 8) (b : Board) (m : Memory) : Prop :=
  ∃ control data address outputs row out, Idle control ∧
    At True since b ⟨others, control, high, data, address, outputs⟩ ⟨true, true, row, out, m⟩

/-- **Each operation simulates the one of the memory.** -/
theorem Ready.exec (h : Ready since others high b m) (call : Call) :
    (call.exec float b).1 = call.answer m ∧ Ready since others high (call.exec float b).2
      (call.store m) := by
  obtain ⟨control, data, address, outputs, row₀, out, hidle, hat⟩ := h
  have hlow : Idle (RAS_MASK ||| CAS_MASK) := .inl rfl
  have hhigh : Idle (RAS_MASK ||| CAS_MASK ||| W_MASK) := .inr rfl
  cases call with
  | wb row column value =>
    exact ⟨rfl, _, _, _, _, _, _, hlow, at_dramWb float hat hidle row column value⟩
  | rb row column =>
    obtain ⟨hvalue, hat'⟩ := at_dramRb float hat hidle row column
    exact ⟨congrArg some hvalue, _, _, _, _, _, _, hhigh, hat'⟩
  | wbHr row column value =>
    exact ⟨rfl, _, _, _, _, _, _, hlow,
      at_strobe float (at_dramWb float hat hidle row column value) hlow⟩
  | rbHr row column =>
    obtain ⟨hvalue, hat'⟩ := at_dramRb float hat hidle row column
    exact ⟨congrArg some hvalue, _, _, _, _, _, _, hhigh, at_strobe float hat' hhigh⟩
  | ref row => exact ⟨rfl, _, _, _, _, _, _, hidle, at_dramRef float hat hidle row⟩

/-- The board after `dram_init_mcu` and `dram_init_chip`. -/
def dramInit (ports : Ports) (chip : Chip) : Board :=
  (dramInitChip float (dramInitMcu float ⟨ports, chip, []⟩).2).2

/-- **After the initialisation** the board is ready, and the other bits have been kept. Of the two
    writes of `dram_init_chip` only the second one has reached the chip. -/
theorem ready_dramInit (ports : Ports) (chip : Chip) :
    let start := dramInit float ports chip
    Ready start.moments (ports.P1OUT &&& ~~~CONTROL_MASK)
      (ports.P3OUT &&& ~~~DATA_MASK) start start.chip.mem ∧
        (∀ x ∈ start.moments, Keeps (ports.P1OUT &&& ~~~CONTROL_MASK)
          (ports.P3OUT &&& ~~~DATA_MASK) x) ∧
      start.chip.mem = (dramInitMcu float ⟨ports, chip, []⟩).2.chip.mem.set 1 1 0xF := by
  intro start
  obtain ⟨row, out, m, hmcu⟩ := at_dramInitMcu float ports chip
  have hfirst := at_dramWb_low float hmcu 0 1 0xF
  have hstart : At False [] start _ _ := at_dramWb float hfirst (.inl rfl) 1 1 0xF
  obtain ⟨new, hmoments, hnew⟩ := hstart.recent
  rw [List.append_nil] at hmoments
  have hmem : start.chip.mem = m.set 1 1 0xF := by
    rw [hstart.chip]
    rfl
  refine ⟨⟨_, _, _, _, 1, none, .inl rfl, hstart.shows, ?_, [], rfl,
    fun x hx => absurd hx List.not_mem_nil⟩, fun x hx => (hnew x (hmoments ▸ hx)).1, ?_⟩
  · rw [hmem]
    exact hstart.chip
  · rw [hmem, hmcu.chip]

/-- The board after some calls. -/
def drive (calls : List Call) (b : Board) : Board :=
  calls.foldl (fun b call => (call.exec float b).2) b

/-- **The run of some calls simulates the memory.** -/
theorem Ready.drive (h : Ready since others high b m) (calls : List Call) :
    Ready since others high (drive float calls b) (calls.foldl Call.store m) := by
  induction calls generalizing b m with
  | nil => exact h
  | cons call calls ih => exact ih (h.exec float call).2

/-- The nibble that a call writes to a word. -/
def Call.written (row column : BitVec 8) : Call → Option (BitVec 4)
  | .wb r c value => if row = r ∧ column = c then some (value.setWidth 4) else none
  | .wbHr r c value => if row = r ∧ column = c then some (value.setWidth 4) else none
  | _ => none

/-- The nibble that some calls have written last to a word. -/
def lastWritten (row column : BitVec 8) : List Call → Option (BitVec 4)
  | [] => none
  | call :: calls => (lastWritten row column calls).or (call.written row column)

theorem store_eq (m : Memory) (call : Call) (row column : BitVec 8) :
    call.store m row column = (call.written row column).getD (m row column) := by
  cases call with
  | wb r c value =>
    show (if row = r ∧ column = c then _ else _) = (if row = r ∧ column = c then some _
      else none).getD _
    split <;> rfl
  | wbHr r c value =>
    show (if row = r ∧ column = c then _ else _) = (if row = r ∧ column = c then some _
      else none).getD _
    split <;> rfl
  | rb => rfl
  | rbHr => rfl
  | ref => rfl

/-- The memory has in each word the nibble last written. -/
theorem foldl_store_eq (m : Memory) (calls : List Call) (row column : BitVec 8) :
    calls.foldl Call.store m row column = (lastWritten row column calls).getD (m row column) := by
  induction calls generalizing m with
  | nil => rfl
  | cons call calls ih =>
    rw [List.foldl_cons, ih, store_eq, lastWritten]
    cases lastWritten row column calls <;> rfl

/-- **A board acts as a memory** since it was initialised. -/
structure ActsAsMemory (ports : Ports) (start b : Board) (m : Memory) : Prop where
  /-- every read returns the nibble of the memory -/
  reads : ∀ row column, (dramRb float row column b).1 = (m row column).setWidth 8 ∧
    (dramRbHr float row column b).1 = (m row column).setWidth 8
  /-- the pins of RAS and CAS are high -/
  strobes : ∀ undriven, line RAS_MASK
    (level b.ports.P1DIR b.ports.P1SEL b.ports.P1OUT undriven) = true ∧
      line CAS_MASK (level b.ports.P1DIR b.ports.P1SEL b.ports.P1OUT undriven) = true
  /-- at no moment both sides have driven the data pins -/
  quiet : ∃ new, b.moments = new ++ start.moments ∧ ∀ x ∈ new, Quiet x
  /-- at all moments the other bits of the ports have been as before the initialisation -/
  keeps : ∀ x ∈ b.moments, Keeps (ports.P1OUT &&& ~~~CONTROL_MASK) (ports.P3OUT &&& ~~~DATA_MASK) x

/-- **The pin-level driver implements a memory**: after the initialisation, from any registers and
    any state of the chip, and after any calls, a read returns the nibble last written to its word.
    -/
theorem driver_implements_memory (ports : Ports) (chip : Chip) (calls : List Call) :
    let start := dramInit float ports chip
    ActsAsMemory float ports start (drive float calls start) fun row column =>
      (lastWritten row column calls).getD (start.chip.mem row column) := by
  intro start
  obtain ⟨hready, hinit, -⟩ := ready_dramInit float ports chip
  have hrun := hready.drive float calls
  have hread := fun call => (hrun.exec float call).1
  obtain ⟨control, data, address, outputs, row, out, hidle, hat⟩ := hrun
  obtain ⟨new, hmoments, hnew⟩ := hat.recent
  refine ⟨fun row column => ?_, fun undriven => ?_,
    ⟨new, hmoments, fun x hx => (hnew x hx).2 trivial⟩, ?_⟩
  · rw [← foldl_store_eq]
    exact ⟨Option.some.inj (hread (.rb row column)), Option.some.inj (hread (.rbHr row column))⟩
  · rw [hat.shows.line_control undriven (show RAS_MASK &&& CONTROL_MASK = RAS_MASK by decide),
      hat.shows.line_control undriven (show CAS_MASK &&& CONTROL_MASK = CAS_MASK by decide)]
    exact hidle.seen (m := fun _ _ => 0) 0 none
  · intro x hx
    rw [hmoments] at hx
    rcases List.mem_append.mp hx with hx | hx
    · exact (hnew x hx).1
    · exact hinit x hx

/-! ## The memory of the loop -/

/-- The words of the chip as the programs number them. -/
def words (m : Memory) : Dram := fun row col => m (BitVec.ofNat 8 row) (BitVec.ofNat 8 col)

theorem ofNat_inj {i j : ℕ} (hi : i < 256) (hj : j < 256) :
    BitVec.ofNat 8 i = BitVec.ofNat 8 j ↔ i = j := by
  constructor
  · intro h
    have hmod := congrArg BitVec.toNat h
    rwa [BitVec.toNat_ofNat, BitVec.toNat_ofNat, Nat.mod_eq_of_lt hi, Nat.mod_eq_of_lt hj] at hmod
  · intro h
    rw [h]

/-- A write to the pins is a write to the words. -/
theorem words_wb {row col r c : ℕ} (hrow : row < DRAM_NUM_ROWS) (hcol : col < DRAM_NUM_COLS)
    (hr : r < DRAM_NUM_ROWS) (hc : c < DRAM_NUM_COLS) (m : Memory) (value : BitVec 8) :
    words (Call.store m (.wb (BitVec.ofNat 8 row) (BitVec.ofNat 8 col) value)) r c =
      ProbableCause.dramWb (words m) row col value r c := by
  have hword : (BitVec.ofNat 8 r = BitVec.ofNat 8 row ∧ BitVec.ofNat 8 c = BitVec.ofNat 8 col) ↔
      r = row ∧ c = col :=
    and_congr (ofNat_inj hr hrow) (ofNat_inj hc hcol)
  show (if _ then _ else _) = (if _ then _ else _)
  exact if_congr hword rfl rfl

/-- A read from the pins is a read of the words that have not decayed. -/
theorem answer_rb (m : Memory) (row col : ℕ) :
    Call.answer m (.rb (BitVec.ofNat 8 row) (BitVec.ofNat 8 col)) =
      some (ProbableCause.dramRb (fun _ _ v => v) (words m) row col) :=
  rfl

/-- **The driver works the words of the programs**: what it reads through the pins is what the
programs read, and after a write through the pins the words are those that the programs write. -/
theorem Ready.words (h : Ready since others high b m) {row col : ℕ} (hrow : row < DRAM_NUM_ROWS)
    (hcol : col < DRAM_NUM_COLS) (value : BitVec 8) :
    ((Call.rb (BitVec.ofNat 8 row) (BitVec.ofNat 8 col)).exec float b).1 =
        some (ProbableCause.dramRb (fun _ _ v => v) (Pins.words m) row col) ∧
      ∃ m', Ready since others high
        ((Call.wb (BitVec.ofNat 8 row) (BitVec.ofNat 8 col) value).exec float b).2 m' ∧
          ∀ r < DRAM_NUM_ROWS, ∀ c < DRAM_NUM_COLS,
            Pins.words m' r c = ProbableCause.dramWb (Pins.words m) row col value r c :=
  ⟨(h.exec float _).1.trans (answer_rb m row col),
    _, (h.exec float _).2, fun _ hr _ hc => words_wb hrow hcol hr hc m value⟩

end ProbableCause.Pins
