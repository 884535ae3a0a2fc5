import ProbableCause.Firmware.Flash
import Mathlib.Logic.Function.Iterate

/-!
# `Firmware.Schedule` — the loop that interleaves writing and reading the DRAM

The programs that measure the DRAM share one loop. A *block* is one period of the timer: at most one
`dram_wb` at the write cursor and, once `blockToStartTesting` blocks have begun, one `dram_rb` at
the read cursor; both cursors run through the DRAM row by row. What is written and what is done with
a value read differs (`Body`).

`block_atBlock` is what one block does to the cursors, `run_eq` says that the loop is a number of
blocks, and `loop_invariant` is the rule for invariants of the rest of the program's state.
-/

namespace ProbableCause

/-! ## `dram.h` -/

abbrev DRAM_NUM_COLS : ℕ := 256
abbrev DRAM_NUM_ROWS : ℕ := 256
abbrev DRAM_BITS_PER_WORD : ℕ := 4

/-- The words of the DRAM, by row and column. -/
abbrev Dram := ℕ → ℕ → BitVec 4

/-- What is left of a word when it is read: any value for each cell. -/
abbrev Decay := ℕ → ℕ → BitVec 4 → BitVec 4

/-- An operation on the DRAM. -/
inductive Access where
  | wb (row col : ℕ)
  | rb (row col : ℕ)
  deriving DecidableEq

def Access.row : Access → ℕ
  | .wb row _ => row
  | .rb row _ => row

/-- `dram_wb`: the lower bits of the character are stored. -/
def dramWb (d : Dram) (row col : ℕ) (value : BitVec 8) : Dram :=
  fun r c => if r = row ∧ c = col then value.setWidth DRAM_BITS_PER_WORD else d r c

/-- `dram_rb`: the word comes in the lower bits of the character. -/
def dramRb (decay : Decay) (d : Dram) (row col : ℕ) : BitVec 8 :=
  (decay row col (d row col)).setWidth 8

/-- The DRAM gives the read-out `v`, whatever was written. -/
def readOut (v : ℕ → ℕ → BitVec 4) : Decay := fun row col _ => v row col

/-- One more word is written, row by row. -/
theorem words_dramWb {word : ℕ → BitVec 4} {d : Dram} {w : ℕ} {value : BitVec 8}
    (h : ∀ k < w, d (k / 256) (k % 256) = word k) (hvalue : value.setWidth 4 = word w) :
    ∀ k < w + 1, dramWb d (w / 256) (w % 256) value (k / 256) (k % 256) = word k := by
  intro k hk
  unfold dramWb
  by_cases hkw : k = w
  · rw [if_pos (by rw [hkw]; exact ⟨rfl, rfl⟩), hkw]
    exact hvalue
  · rw [if_neg (by omega)]
    exact h k (by omega)

/-! ## The loop -/

/-- The state of the loop. `log` records the operations on the DRAM and the blocks they were made
    in; `rest` are the other variables of the program. -/
structure Loop (σ : Type) where
  readRow : ℕ
  readCol : ℕ
  writeRow : ℕ
  writeCol : ℕ
  blockCounter : ℕ
  dram : Dram
  log : List (ℕ × Access)
  rest : σ

/-- The parts of the loop in which the programs differ: the value to write at a position and the
    state after it was fetched, and the state after the value read at a position was used. -/
structure Body (σ : Type) where
  value : ℕ → ℕ → σ → BitVec 8
  fetch : ℕ → ℕ → σ → σ
  use : ℕ → ℕ → BitVec 8 → σ → σ

variable {σ : Type}

/-- The state before the loop. -/
def Loop.start (dram : Dram) (rest : σ) : Loop σ where
  readRow := 0
  readCol := 0
  writeRow := 0
  writeCol := 0
  blockCounter := 0
  dram := dram
  log := []
  rest := rest

/-- The first part of a block: write one word, unless all have been written. -/
def writePhase (body : Body σ) (s : Loop σ) : Loop σ :=
  if s.writeRow < DRAM_NUM_ROWS then
    { s with
      dram := dramWb s.dram s.writeRow s.writeCol (body.value s.writeRow s.writeCol s.rest)
      log := s.log ++ [(s.blockCounter, .wb s.writeRow s.writeCol)]
      rest := body.fetch s.writeRow s.writeCol s.rest
      writeRow := if s.writeCol + 1 = DRAM_NUM_COLS then s.writeRow + 1 else s.writeRow
      writeCol := if s.writeCol + 1 = DRAM_NUM_COLS then 0 else s.writeCol + 1 }
  else s

/-- The second part of a block: read one word, once it is time. -/
def readPhase (body : Body σ) (decay : Decay) (blockToStartTesting : ℕ) (s : Loop σ) : Loop σ :=
  if blockToStartTesting ≤ s.blockCounter then
    { s with
      log := s.log ++ [(s.blockCounter, .rb s.readRow s.readCol)]
      rest := body.use s.readRow s.readCol (dramRb decay s.dram s.readRow s.readCol) s.rest
      readRow := if s.readCol + 1 = DRAM_NUM_COLS then s.readRow + 1 else s.readRow
      readCol := if s.readCol + 1 = DRAM_NUM_COLS then 0 else s.readCol + 1 }
  else s

/-- One block. -/
def block (body : Body σ) (decay : Decay) (blockToStartTesting : ℕ) (s : Loop σ) : Loop σ :=
  readPhase body decay blockToStartTesting
    (writePhase body { s with blockCounter := u32 (s.blockCounter + 1) })

/-- One turn of the loop `while(readRow < DRAM_NUM_ROWS)`: a block if the timer says so (`due`). -/
def turn (body : Body σ) (decay : Decay) (blockToStartTesting : ℕ) (s : Loop σ) (due : Bool) :
    Loop σ :=
  if s.readRow < DRAM_NUM_ROWS then
    if due then block body decay blockToStartTesting s else s
  else s

/-- The loop, over what the timer says at its turns. -/
def run (body : Body σ) (decay : Decay) (blockToStartTesting : ℕ) (polls : List Bool)
    (s : Loop σ) : Loop σ :=
  polls.foldl (turn body decay blockToStartTesting) s

/-! ## One block -/

variable {body : Body σ} {decay : Decay} {start b : ℕ} {s : Loop σ}

/-- The words written in the first `b` blocks. -/
def writeCount (b : ℕ) : ℕ := min b 65536

/-- The words read in the first `b` blocks. -/
def readCount (start b : ℕ) : ℕ := b + 1 - start

/-- The number of blocks until the last word is read. -/
def blockTotal (start : ℕ) : ℕ := start + 65535

theorem writeCount_le (b : ℕ) : writeCount b ≤ 65536 := Nat.min_le_right _ _

/-- A word is read after it was written. -/
theorem readCount_lt_writeCount {start b : ℕ} (hstart : 1 ≤ start) (hr : start ≤ b + 1)
    (hb : b < blockTotal start) : readCount start b < writeCount (b + 1) := by
  unfold readCount writeCount
  unfold blockTotal at hb
  omega

/-- The operations of block `b`. -/
def blockAccesses (start b : ℕ) : List (ℕ × Access) :=
  (if b ≤ 65536 then [(b, Access.wb ((b - 1) / 256) ((b - 1) % 256))] else []) ++
    if start ≤ b then [(b, Access.rb ((b - start) / 256) ((b - start) % 256))] else []

/-- **The loop variables after `b` blocks.** -/
structure AtBlock (start b : ℕ) (s : Loop σ) : Prop where
  counter : s.blockCounter = b
  writeRow : s.writeRow = writeCount b / 256
  writeCol : s.writeCol = writeCount b % 256
  readRow : s.readRow = readCount start b / 256
  readCol : s.readCol = readCount start b % 256
  log : s.log = (List.range b).flatMap fun i => blockAccesses start (i + 1)

theorem atBlock_start (hstart : 1 ≤ start) (dram : Dram) (rest : σ) :
    AtBlock start 0 (Loop.start dram rest) := by
  have hread : readCount start 0 = 0 := by unfold readCount; omega
  refine ⟨rfl, rfl, rfl, ?_, ?_, rfl⟩
  · rw [hread]; rfl
  · rw [hread]; rfl

/-- A cursor moves to the next position. -/
theorem next_position (k : ℕ) :
    (if k % 256 + 1 = DRAM_NUM_COLS then k / 256 + 1 else k / 256) = (k + 1) / 256 ∧
      (if k % 256 + 1 = DRAM_NUM_COLS then 0 else k % 256 + 1) = (k + 1) % 256 := by
  unfold DRAM_NUM_COLS
  constructor <;> split <;> omega

/-- **The first part of a block**, the counter just advanced. -/
theorem writePhase_eq (body : Body σ) (hcounter : s.blockCounter = b + 1)
    (hrow : s.writeRow = writeCount b / 256) (hcol : s.writeCol = writeCount b % 256) :
    (writePhase body s).writeRow = writeCount (b + 1) / 256 ∧
      (writePhase body s).writeCol = writeCount (b + 1) % 256 ∧
      (writePhase body s).log = s.log ++
        (if b + 1 ≤ 65536 then [(b + 1, Access.wb (b / 256) (b % 256))] else []) := by
  unfold writePhase
  -- words are written in the first `65536` blocks only
  by_cases hb : b < 65536
  · have hw : writeCount b = b := by unfold writeCount; omega
    have hw' : writeCount (b + 1) = b + 1 := by unfold writeCount; omega
    rw [hw] at hrow hcol
    obtain ⟨hnextRow, hnextCol⟩ := next_position b
    rw [if_pos (by rw [hrow]; unfold DRAM_NUM_ROWS; omega)]
    dsimp only
    rw [hw', hrow, hcol, hcounter, hnextRow, hnextCol, if_pos (show b + 1 ≤ 65536 by omega)]
    exact ⟨rfl, rfl, rfl⟩
  · have hw : writeCount b = 65536 := by unfold writeCount; omega
    have hw' : writeCount (b + 1) = 65536 := by unfold writeCount; omega
    rw [hw] at hrow hcol
    rw [if_neg (by rw [hrow]; decide), hw', if_neg (show ¬ b + 1 ≤ 65536 by omega),
      List.append_nil]
    exact ⟨hrow, hcol, rfl⟩

/-- **The second part of a block.** -/
theorem readPhase_eq (body : Body σ) (decay : Decay) (hcounter : s.blockCounter = b + 1)
    (hrow : s.readRow = readCount start b / 256) (hcol : s.readCol = readCount start b % 256) :
    (readPhase body decay start s).readRow = readCount start (b + 1) / 256 ∧
      (readPhase body decay start s).readCol = readCount start (b + 1) % 256 ∧
      (readPhase body decay start s).log = s.log ++
        (if start ≤ b + 1 then
          [(b + 1, Access.rb ((b + 1 - start) / 256) ((b + 1 - start) % 256))] else []) := by
  unfold readPhase
  by_cases hb : start ≤ b + 1
  · have hr : readCount start b = b + 1 - start := rfl
    have hr' : readCount start (b + 1) = (b + 1 - start) + 1 := by unfold readCount; omega
    rw [hr] at hrow hcol
    obtain ⟨hnextRow, hnextCol⟩ := next_position (b + 1 - start)
    rw [hcounter, if_pos hb]
    dsimp only
    rw [hr', hrow, hcol, hnextRow, hnextCol, if_pos hb]
    exact ⟨rfl, rfl, rfl⟩
  · have hr : readCount start (b + 1) = readCount start b := by unfold readCount; omega
    rw [hcounter, if_neg hb, hr, if_neg hb, List.append_nil]
    exact ⟨hrow, hcol, rfl⟩

/-- The two parts of a block change different loop variables. -/
theorem writePhase_readCursor (body : Body σ) (s : Loop σ) :
    (writePhase body s).readRow = s.readRow ∧ (writePhase body s).readCol = s.readCol ∧
      (writePhase body s).blockCounter = s.blockCounter := by
  unfold writePhase
  split <;> exact ⟨rfl, rfl, rfl⟩

theorem readPhase_writeCursor (body : Body σ) (decay : Decay) (start : ℕ) (s : Loop σ) :
    (readPhase body decay start s).writeRow = s.writeRow ∧
      (readPhase body decay start s).writeCol = s.writeCol ∧
      (readPhase body decay start s).blockCounter = s.blockCounter ∧
      (readPhase body decay start s).dram = s.dram := by
  unfold readPhase
  split <;> exact ⟨rfl, rfl, rfl, rfl⟩

/-- **The step.** One more block. -/
theorem block_atBlock (h : AtBlock start b s) (hb : b + 1 < 2 ^ 32) :
    AtBlock start (b + 1) (block body decay start s) := by
  unfold block
  have hcounter : u32 (s.blockCounter + 1) = b + 1 := by rw [h.counter, u32_of_lt hb]
  rw [hcounter]
  obtain ⟨hwRow, hwCol, hwLog⟩ := writePhase_eq body (s := { s with blockCounter := b + 1 }) rfl
    h.writeRow h.writeCol
  obtain ⟨hkRow, hkCol, hkCounter⟩ := writePhase_readCursor body { s with blockCounter := b + 1 }
  obtain ⟨hrRow, hrCol, hrLog⟩ := readPhase_eq body decay
    hkCounter (hkRow.trans h.readRow) (hkCol.trans h.readCol)
  obtain ⟨hmRow, hmCol, hmCounter, -⟩ := readPhase_writeCursor body decay start
    (writePhase body { s with blockCounter := b + 1 })
  refine ⟨hmCounter.trans hkCounter, hmRow.trans hwRow, hmCol.trans hwCol, hrRow, hrCol, ?_⟩
  rw [hrLog, hwLog, h.log, List.range_succ, List.flatMap_append, List.flatMap_singleton,
    blockAccesses, Nat.add_sub_cancel, List.append_assoc]

/-! ## The whole loop -/

/-- The loop goes on exactly before the last block. -/
theorem AtBlock.readRow_lt_iff (h : AtBlock start b s) :
    s.readRow < DRAM_NUM_ROWS ↔ b < blockTotal start := by
  rw [h.readRow]
  unfold DRAM_NUM_ROWS readCount blockTotal
  omega

/-- Any number of blocks. -/
theorem iterate_atBlock (body : Body σ) (decay : Decay) (hstart : 1 ≤ start)
    (hlt : blockTotal start < 2 ^ 32) (dram : Dram) (rest : σ) (hb : b ≤ blockTotal start) :
    AtBlock start b ((block body decay start)^[b] (Loop.start dram rest)) := by
  induction b with
  | zero => exact atBlock_start hstart dram rest
  | succ b ih =>
    rw [Function.iterate_succ_apply']
    exact block_atBlock (ih (by omega)) (by omega)

/-- **The loop is a number of blocks**: one for each time the timer says so, until the last word is
read. -/
theorem run_eq (hlt : blockTotal start < 2 ^ 32) (polls : List Bool) (h : AtBlock start b s)
    (hb : b ≤ blockTotal start) :
    run body decay start polls s =
      (block body decay start)^[min (polls.count true) (blockTotal start - b)] s := by
  induction polls generalizing b s with
  | nil => simp [run]
  | cons due polls ih =>
    have hturn : run body decay start (due :: polls) s
        = run body decay start polls (turn body decay start s due) := rfl
    rw [hturn, turn]
    by_cases hend : b = blockTotal start
    · -- the loop has ended
      rw [if_neg (by rw [h.readRow_lt_iff]; omega), ih h hb, hend, Nat.sub_self, Nat.min_zero,
        Nat.min_zero]
    · have hlt' : b < blockTotal start := by omega
      rw [if_pos (h.readRow_lt_iff.mpr hlt')]
      -- only a turn at which the timer is due is a block
      cases due with
      | false =>
        rw [if_neg (by decide), ih h hb, List.count_cons_of_ne Bool.false_ne_true]
      | true =>
        have hcount : min ((true :: polls).count true) (blockTotal start - b)
            = min (polls.count true) (blockTotal start - (b + 1)) + 1 := by
          rw [List.count_cons_self]
          omega
        rw [if_pos rfl, ih (block_atBlock h (by omega)) (by omega), hcount,
          Function.iterate_succ_apply]

/-- **With enough periods of the timer the loop ends**, after `blockTotal start` blocks. -/
theorem run_start_eq (hstart : 1 ≤ start) (hlt : blockTotal start < 2 ^ 32) {polls : List Bool}
    (hpolls : blockTotal start ≤ polls.count true) (dram : Dram) (rest : σ) :
    run body decay start polls (Loop.start dram rest) =
      (block body decay start)^[blockTotal start] (Loop.start dram rest) := by
  rw [run_eq hlt polls (atBlock_start hstart dram rest) (Nat.zero_le _), Nat.sub_zero,
    min_eq_right hpolls]

/-! ## Invariants of the rest of the state -/

/-- What one block does to the DRAM and to the other variables, in terms of the numbers of words
    written and read. -/
theorem block_invariant {I : ℕ → ℕ → Dram → σ → Prop}
    (hwrite : ∀ w r d x, w < 65536 → I w r d x →
      I (w + 1) r (dramWb d (w / 256) (w % 256) (body.value (w / 256) (w % 256) x))
        (body.fetch (w / 256) (w % 256) x))
    (hread : ∀ w r d x, r < w → w ≤ 65536 → I w r d x →
      I w (r + 1) d (body.use (r / 256) (r % 256) (dramRb decay d (r / 256) (r % 256)) x))
    (hstart : 1 ≤ start) (h : AtBlock start b s) (hb : b < blockTotal start)
    (hlt : b + 1 < 2 ^ 32) (hI : I (writeCount b) (readCount start b) s.dram s.rest) :
    I (writeCount (b + 1)) (readCount start (b + 1)) (block body decay start s).dram
      (block body decay start s).rest := by
  -- the first part writes word `b`, if there is one
  have hfirst : I (writeCount (b + 1)) (readCount start b)
      (writePhase body { s with blockCounter := u32 (s.blockCounter + 1) }).dram
      (writePhase body { s with blockCounter := u32 (s.blockCounter + 1) }).rest := by
    unfold writePhase
    by_cases hw : b < 65536
    · have hwb : writeCount b = b := by unfold writeCount; omega
      have hwb' : writeCount (b + 1) = b + 1 := by unfold writeCount; omega
      have hrow : s.writeRow = b / 256 := by rw [h.writeRow, hwb]
      have hcol : s.writeCol = b % 256 := by rw [h.writeCol, hwb]
      rw [hwb] at hI
      rw [if_pos (show s.writeRow < DRAM_NUM_ROWS by rw [hrow]; unfold DRAM_NUM_ROWS; omega), hwb']
      dsimp only
      rw [hrow, hcol]
      exact hwrite b _ _ _ hw hI
    · have hwb : writeCount (b + 1) = writeCount b := by unfold writeCount; omega
      have hrow : s.writeRow = 256 := by rw [h.writeRow]; unfold writeCount; omega
      rw [if_neg (show ¬ s.writeRow < DRAM_NUM_ROWS by rw [hrow]; decide), hwb]
      exact hI
  -- the second part reads word `b + 1 - start`, if it is time
  obtain ⟨hkRow, hkCol, hkCounter⟩ := writePhase_readCursor body
    { s with blockCounter := u32 (s.blockCounter + 1) }
  have hrow1 := hkRow.trans h.readRow
  have hcol1 := hkCol.trans h.readCol
  have hcounter1 : (writePhase body { s with blockCounter := u32 (s.blockCounter + 1) }).blockCounter
      = b + 1 := by rw [hkCounter, h.counter, u32_of_lt hlt]
  unfold block
  generalize writePhase body { s with blockCounter := u32 (s.blockCounter + 1) } = s1
    at hfirst hrow1 hcol1 hcounter1 ⊢
  unfold readPhase
  by_cases hr : start ≤ b + 1
  · have hrb : readCount start (b + 1) = readCount start b + 1 := by unfold readCount; omega
    rw [if_pos (by omega), hrb]
    dsimp only
    rw [hrow1, hcol1]
    exact hread _ _ _ _ (readCount_lt_writeCount hstart hr hb) (writeCount_le _) hfirst
  · have hrb : readCount start (b + 1) = readCount start b := by unfold readCount; omega
    rw [if_neg (by omega), hrb]
    exact hfirst

/-- **The invariant rule.** What holds at the start, and is kept by writing the next word and by
    reading the next word that has been written, holds when the loop has ended, for all words
    written and read. -/
theorem loop_invariant (body : Body σ) (decay : Decay) (dram : Dram) (rest : σ)
    (I : ℕ → ℕ → Dram → σ → Prop)
    (hwrite : ∀ w r d x, w < 65536 → I w r d x →
      I (w + 1) r (dramWb d (w / 256) (w % 256) (body.value (w / 256) (w % 256) x))
        (body.fetch (w / 256) (w % 256) x))
    (hread : ∀ w r d x, r < w → w ≤ 65536 → I w r d x →
      I w (r + 1) d (body.use (r / 256) (r % 256) (dramRb decay d (r / 256) (r % 256)) x))
    (hstart : 1 ≤ start) (hlt : blockTotal start < 2 ^ 32) {polls : List Bool}
    (hpolls : blockTotal start ≤ polls.count true) (hI : I 0 0 dram rest) :
    I 65536 65536 (run body decay start polls (Loop.start dram rest)).dram
      (run body decay start polls (Loop.start dram rest)).rest := by
  have hall : ∀ b, b ≤ blockTotal start → I (writeCount b) (readCount start b)
      ((block body decay start)^[b] (Loop.start dram rest)).dram
      ((block body decay start)^[b] (Loop.start dram rest)).rest := by
    intro b hb
    induction b with
    | zero =>
      have hread0 : readCount start 0 = 0 := by unfold readCount; omega
      rw [hread0]
      exact hI
    | succ b ih =>
      rw [Function.iterate_succ_apply']
      exact block_invariant hwrite hread hstart
        (iterate_atBlock body decay hstart hlt dram rest (by omega)) (by omega) (by omega)
          (ih (by omega))
  have hend := hall (blockTotal start) le_rfl
  have hw : writeCount (blockTotal start) = 65536 := by unfold writeCount blockTotal; omega
  have hr : readCount start (blockTotal start) = 65536 := by unfold readCount blockTotal; omega
  rw [hw, hr] at hend
  rwa [run_start_eq hstart hlt hpolls]

end ProbableCause
