import ProbableCause.Firmware.Driver
import ProbableCause.Firmware.WordLoop
import Mathlib.Data.List.Infix

/-!
# `Firmware.HiddenRefresh` — the refresh hidden in the accesses

`dram_wb_hr` and `dram_rb_hr` end with a second strobe of RAS. The column of the access is still on
the address pins then, and the chip takes it as a row: an access to column `c` refreshes row `c`
(`Ready.refreshes`). The accesses of a loop over the words go through all columns in any `256`
calls, so that all rows are refreshed meanwhile (`hidden_refresh`).
-/

namespace ProbableCause.Pins

variable (float : ℕ → Levels) {since : List (Ports × Chip)} {b : Board} {m : Memory}
    {others high : BitVec 8}

/-! ## Falling edges of RAS -/

/-- In some moments, the last one first, RAS falls and the chip latches the row. -/
def RasFalls (row : BitVec 8) (moments : List (Ports × Chip)) : Prop :=
  ∃ before after, [after, before] <:+: moments ∧ before.2.ras = true ∧ after.2.ras = false ∧
    after.2.row = row

/-- Between two states of the board there has been a falling edge of RAS for a row. -/
def RefreshedIn (row : BitVec 8) (b b' : Board) : Prop :=
  ∃ new, b'.moments = new ++ b.moments ∧ RasFalls row new

theorem RasFalls.append {row : BitVec 8} {moments : List (Ports × Chip)} (h : RasFalls row moments)
    (later earlier : List (Ports × Chip)) : RasFalls row (later ++ moments ++ earlier) := by
  obtain ⟨before, after, hfalls, hbefore, hafter, hrow⟩ := h
  exact ⟨before, after, hfalls.trans ⟨later, earlier, rfl⟩, hbefore, hafter, hrow⟩

/-! ## The second strobe -/

/-- An access with hidden refresh to word `k`, row by row and again from the first word on. -/
inductive HiddenAt (k : ℕ) : Call → Prop
  | wbHr (value : BitVec 8) :
    HiddenAt k (.wbHr (BitVec.ofNat 8 (k / 256)) (BitVec.ofNat 8 (k % 256)) value)
  | rbHr : HiddenAt k (.rbHr (BitVec.ofNat 8 (k / 256)) (BitVec.ofNat 8 (k % 256)))

/-- **The step.** An access with hidden refresh refreshes the row with the number of its column. -/
theorem Ready.refreshes (h : Ready since others high b m) {k : ℕ} {call : Call}
    (hcall : HiddenAt k call) :
    RefreshedIn (BitVec.ofNat 8 (k % 256)) b (call.exec float b).2 := by
  obtain ⟨control, data, address, outputs, row₀, out, hidle, hat⟩ := h
  cases hcall with
  | wbHr value =>
    have hwritten := at_dramWb float hat hidle (BitVec.ofNat 8 (k / 256))
      (BitVec.ofNat 8 (k % 256)) value
    have hfalls := (at_setRasLow float hwritten (.inl rfl)).chip
    -- eleven writes to the ports: RAS falls at the tenth, and the one before has raised it
    refine ⟨[_, _, _, _, _, _, _, _, _, _, _], rfl, _, _,
      ⟨[_], [_, _, _, _, _, _, _, _], rfl⟩, ?_, ?_, ?_⟩
    · exact congrArg Chip.ras hwritten.chip
    · exact congrArg Chip.ras hfalls
    · exact congrArg Chip.row hfalls
  | rbHr =>
    have hread := (at_dramRb float hat hidle (BitVec.ofNat 8 (k / 256)) (BitVec.ofNat 8 (k % 256))).2
    have hfalls := (at_setRasLow float hread (.inr rfl)).chip
    refine ⟨[_, _, _, _, _, _, _, _, _, _, _], rfl, _, _,
      ⟨[_], [_, _, _, _, _, _, _, _], rfl⟩, ?_, ?_, ?_⟩
    · exact congrArg Chip.ras hread.chip
    · exact congrArg Chip.ras hfalls
    · exact congrArg Chip.row hfalls

/-! ## Runs of accesses -/

/-- The moments are counted from now on. -/
theorem Ready.restart (h : Ready since others high b m) : Ready b.moments others high b m := by
  obtain ⟨control, data, address, outputs, row, out, hidle, hat⟩ := h
  exact ⟨control, data, address, outputs, row, out, hidle, hat.shows, hat.chip, [], rfl,
    fun x hx => absurd hx List.not_mem_nil⟩

theorem Ready.mem_chip (h : Ready since others high b m) : b.chip.mem = m := by
  obtain ⟨control, data, address, outputs, row, out, hidle, hat⟩ := h
  rw [hat.chip]

/-- Calls only add moments. -/
theorem Ready.moments_drive (h : Ready since others high b m) (calls : List Call) :
    ∃ new, (Pins.drive float calls b).moments = new ++ b.moments := by
  obtain ⟨control, data, address, outputs, row, out, hidle, hat⟩ := h.restart.drive float calls
  obtain ⟨new, hmoments, -⟩ := hat.recent
  exact ⟨new, hmoments⟩

theorem drive_append (calls calls' : List Call) (b : Board) :
    drive float (calls ++ calls') b = drive float calls' (drive float calls b) := List.foldl_append

/-- The accesses of a loop over the words, from some position on. -/
def Cyclic (position : ℕ) (calls : List Call) : Prop :=
  ∀ i (hi : i < calls.length), HiddenAt (position + i) calls[i]

theorem Cyclic.concat {position : ℕ} {calls : List Call} (h : Cyclic position calls) {call : Call}
    (hcall : HiddenAt (position + calls.length) call) : Cyclic position (calls ++ [call]) := by
  intro i hi
  rw [List.length_append, List.length_singleton] at hi
  rcases Nat.lt_succ_iff_lt_or_eq.mp hi with hold | rfl
  · rw [List.getElem_append_left hold]
    exact h i hold
  · rw [List.getElem_append_right (Nat.le_refl _), List.getElem_singleton]
    exact hcall

/-- **All rows are refreshed** by `256` accesses. -/
theorem Ready.refreshes_window (h : Ready since others high b m) {position : ℕ} {window : List Call}
    (hwindow : Cyclic position window) (hlength : window.length = 256) (row : BitVec 8) :
    RefreshedIn row b (Pins.drive float window b) := by
  -- the access to the column with the number of the row
  obtain ⟨i, hi, hcolumn⟩ : ∃ i < 256, (position + i) % 256 = row.toNat := by
    have hrow := row.isLt
    exact ⟨(row.toNat + 256 - position % 256) % 256, by omega, by omega⟩
  have hi : i < window.length := by omega
  have hsplit : window = window.take i ++ [window[i]] ++ window.drop (i + 1) := by
    rw [List.take_concat_get' window i hi, List.take_append_drop]
  have hready := h.drive float (window.take i)
  obtain ⟨earlier, hearlier⟩ := h.moments_drive float (window.take i)
  obtain ⟨new, hnew, hfalls⟩ := hready.refreshes float (hwindow i hi)
  obtain ⟨later, hlater⟩ := (hready.exec float window[i]).2.moments_drive float (window.drop (i + 1))
  rw [hcolumn, BitVec.ofNat_toNat, BitVec.setWidth_eq] at hfalls
  refine ⟨later ++ new ++ earlier, ?_, hfalls.append later earlier⟩
  rw [hsplit, drive_append, drive_append]
  calc (Pins.drive float (window.drop (i + 1))
        (Pins.drive float [window[i]] (Pins.drive float (window.take i) b))).moments
      = later ++ (new ++ (earlier ++ b.moments)) := by rw [← hearlier, ← hnew, ← hlater]; rfl
    _ = later ++ new ++ earlier ++ b.moments := by simp only [List.append_assoc]

/-- The board after the initialisation, some calls and the first accesses of a run. -/
def boardAt (ports : Ports) (chip : Chip) (calls accesses : List Call) (n : ℕ) : Board :=
  drive float (calls ++ accesses.take n) (dramInit float ports chip)

/-! ## The loops of `dram_voltage` -/

/-- The body of a loop over the words, as the calls it makes. -/
def calling (access : ℕ → ℕ → Call) (row col : ℕ) (calls : List Call) : List Call :=
  calls ++ [access row col]

/-- The loop that writes all words. -/
def writeLoop : Cursor (List Call) :=
  wordLoop (calling fun writeRow writeCol =>
    .wbHr (BitVec.ofNat 8 writeRow) (BitVec.ofNat 8 writeCol) (if writeRow % 2 = 1
      then 0x0 else 0xF)) []

/-- The loop that reads them. -/
def readLoop : Cursor (List Call) :=
  wordLoop (calling fun readRow readCol => .rbHr (BitVec.ofNat 8 readRow) (BitVec.ofNat 8 readCol)) []

theorem cyclic_wordLoop {access : ℕ → ℕ → Call}
    (haccess : ∀ k, HiddenAt k (access (k / 256) (k % 256))) :
    (wordLoop (calling access) []).rest.length = 65536 ∧
      Cyclic 0 (wordLoop (calling access) []).rest := by
  rw [wordLoop_eq]
  generalize 65536 = n
  apply wordsUpTo_rule (P := fun n (calls : List Call) => calls.length = n ∧ Cyclic 0 calls)
  · exact ⟨rfl, fun i hi => absurd hi (Nat.not_lt_zero i)⟩
  · rintro k calls - ⟨rfl, hcalls⟩
    refine ⟨List.length_append, hcalls.concat ?_⟩
    rw [Nat.zero_add]
    exact haccess calls.length

/-- Both loops are runs of accesses. -/
theorem cyclic_loops : (writeLoop.rest.length = 65536 ∧ Cyclic 0 writeLoop.rest) ∧
    readLoop.rest.length = 65536 ∧ Cyclic 0 readLoop.rest :=
  ⟨cyclic_wordLoop fun _ => .wbHr _, cyclic_wordLoop fun _ => .rbHr⟩

/-! ## The result -/

/-- **Hidden refresh covers the whole chip**: in any `256` accesses one after the other RAS falls
    for each row, and the accesses change no word but those that they write. -/
theorem hidden_refresh (ports : Ports) (chip : Chip) (calls accesses : List Call) (position : ℕ)
    (haccesses : Cyclic position accesses) :
    (∀ n, n + 256 ≤ accesses.length → ∀ row,
      RefreshedIn row (boardAt float ports chip calls accesses n)
        (boardAt float ports chip calls accesses (n + 256))) ∧
    ∀ n (hn : n < accesses.length), (boardAt float ports chip calls accesses (n + 1)).chip.mem =
      accesses[n].store (boardAt float ports chip calls accesses n).chip.mem := by
  have hready : ∀ n, Ready (dramInit float ports chip).moments _ _
      (boardAt float ports chip calls accesses n) _ :=
    fun n => (ready_dramInit float ports chip).1.drive float (calls ++ accesses.take n)
  constructor
  · intro n hn row
    have hwindow : Cyclic (position + n) ((accesses.drop n).take 256) := by
      intro i hi
      rw [List.length_take, List.length_drop] at hi
      rw [List.getElem_take, List.getElem_drop, Nat.add_assoc]
      exact haccesses (n + i) (by omega)
    have hlength : ((accesses.drop n).take 256).length = 256 := by
      rw [List.length_take, List.length_drop]
      omega
    have hboard : boardAt float ports chip calls accesses (n + 256) =
        drive float ((accesses.drop n).take 256) (boardAt float ports chip calls accesses n) := by
      rw [boardAt, boardAt, ← drive_append, List.append_assoc, ← List.take_add]
    rw [hboard]
    exact (hready n).refreshes_window float hwindow hlength row
  · intro n hn
    have hboard : boardAt float ports chip calls accesses (n + 1) =
        (accesses[n].exec float (boardAt float ports chip calls accesses n)).2 := by
      rw [boardAt, boardAt, ← List.take_concat_get' accesses n hn, ← List.append_assoc, drive_append]
      rfl
    rw [hboard, (hready n).mem_chip]
    exact ((hready n).exec float accesses[n]).2.mem_chip

/-- The loop that writes all words refreshes row `7` between its calls `100` and `356`. -/
theorem hidden_refresh_write :
    RefreshedIn 7 (boardAt (fun _ => ⟨0, 0, 0⟩) ⟨0, 0, 0, 0, 0, 0, 0, 0, 0⟩ ⟨false, false, 0, none,
        fun _ _ => 0⟩ [] writeLoop.rest 100)
      (boardAt (fun _ => ⟨0, 0, 0⟩) ⟨0, 0, 0, 0, 0, 0, 0, 0, 0⟩ ⟨false, false, 0, none,
        fun _ _ => 0⟩ [] writeLoop.rest 356) := by
  obtain ⟨⟨hlength, hcyclic⟩, -⟩ := cyclic_loops
  have henough : 100 + 256 ≤ writeLoop.rest.length := by
    rw [hlength]
    decide
  exact (hidden_refresh (fun _ => ⟨0, 0, 0⟩) ⟨0, 0, 0, 0, 0, 0, 0, 0, 0⟩ ⟨false, false, 0, none,
    fun _ _ => 0⟩ [] writeLoop.rest 0 hcyclic).1 100 henough 7

end ProbableCause.Pins
