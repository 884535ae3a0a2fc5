import ProbableCause.Firmware.Programs
import ProbableCause.Firmware.WordLoop
import ProbableCause.Lib.Polling

/-!
# `Firmware.Scan` — what a run makes of the words it reads

The programs that measure the DRAM use the words they read one after the other, row by row (`scan`),
and the rest of their state depends on nothing else. `rows_of_run` says so of a run that writes
every word before it is read, for any decay.

Where the DRAM gives a read-out whatever was written, the schedule does not matter
(`Reads.results_eq`): a loop ends and has used all words if it reads one at the last value of a
counter that wraps around. The block counter is such a counter, for any block to start testing
(`run_readOut`).
-/

namespace ProbableCause

open Polling

variable {σ : Type} {use : ℕ → ℕ → BitVec 8 → σ → σ} {v : ℕ → ℕ → BitVec 4} {x : σ}

/-- The state after the first `r` words of the read-out have been used. -/
def scan (use : ℕ → ℕ → BitVec 8 → σ → σ) (v : ℕ → ℕ → BitVec 4) (r : ℕ) (x : σ) : σ :=
  (List.range r).foldl (fun x k => use (k / 256) (k % 256) ((v (k / 256) (k % 256)).setWidth 8) x) x

theorem scan_eq_wordsUpTo (use : ℕ → ℕ → BitVec 8 → σ → σ) (v : ℕ → ℕ → BitVec 4) (r : ℕ) (x : σ) :
    scan use v r x = wordsUpTo (fun row col => use row col ((v row col).setWidth 8)) r x := rfl

theorem scan_succ (use : ℕ → ℕ → BitVec 8 → σ → σ) (v : ℕ → ℕ → BitVec 4) (r : ℕ) (x : σ) :
    scan use v (r + 1) x = use (r / 256) (r % 256) ((v (r / 256) (r % 256)).setWidth 8)
      (scan use v r x) := by
  rw [scan_eq_wordsUpTo, wordsUpTo_succ, ← scan_eq_wordsUpTo]

/-- **The rule for what has been read**: what holds at first and is kept by using the next word. -/
theorem scan_rule {P : ℕ → σ → Prop} {n : ℕ} (first : P 0 x)
    (step : ∀ r x, r < n → P r x →
      P (r + 1) (use (r / 256) (r % 256) ((v (r / 256) (r % 256)).setWidth 8) x)) :
    P n (scan use v n x) := by
  rw [scan_eq_wordsUpTo]
  exact wordsUpTo_rule first step

/-! ## Rows that are written before they are read -/

/-- The program writes the rows, and keeps nothing of what it writes. -/
structure WritesRows (body : Body σ) : Prop where
  value : ∀ row col x, (body.value row col x).setWidth 4 = rowWord row
  fetch : ∀ row col x, body.fetch row col x = x

/-- **What a run reads**: the rows that it has written. -/
theorem rows_of_run {body : Body σ} (hbody : WritesRows body) (decay : Decay) {start : ℕ}
    (hstart : 1 ≤ start) (hlt : blockTotal start < 2 ^ 32) {polls : List Bool}
    (hpolls : blockTotal start ≤ polls.count true) (dram : Dram) (rest : σ) :
    (∀ k < 65536, (run body decay start polls (Loop.start dram rest)).dram (k / 256) (k % 256) =
      rowWord (k / 256)) ∧ (run body decay start polls (Loop.start dram rest)).rest = scan body.use
        (rowsRead decay) 65536 rest := by
  refine loop_invariant body decay dram rest
    (fun w r d x => (∀ k < w, d (k / 256) (k % 256) = rowWord (k / 256)) ∧
      x = scan body.use (rowsRead decay) r rest) ?_ ?_ hstart hlt hpolls
    ⟨fun k hk => absurd hk (Nat.not_lt_zero k), rfl⟩
  · rintro w r d x _ ⟨hwords, hx⟩
    rw [hbody.fetch]
    have hwords' : ∀ k < w + 1, dramWb d (w / 256) (w % 256) (body.value (w / 256) (w % 256) x)
        (k / 256) (k % 256) = rowWord (k / 256) := words_dramWb hwords (hbody.value _ _ _)
    exact ⟨hwords', hx⟩
  · rintro w r d x hrw _ ⟨hwords, rfl⟩
    refine ⟨hwords, ?_⟩
    rw [scan_succ, dramRb, hwords r hrw]
    rfl

/-! ## Any schedule -/

section

variable {S : Type} {turn : S → Bool → S} {I : S → Prop} {row col counter : S → ℕ} {results : S → σ}
    {n : ℕ} {s : S}

/-- **A loop that reads** the DRAM row by row, and counts its turns in a counter that wraps around:
    at each turn it uses the word at its cursor or none, and it uses one at the last value of the
    counter. -/
structure Reads (use : ℕ → ℕ → BitVec 8 → σ → σ) (v : ℕ → ℕ → BitVec 4) (n : ℕ)
    (turn : S → Bool → S) (I : S → Prop) (row col counter : S → ℕ) (results : S → σ) : Prop where
  polled : Polled turn (fun s => ¬ row s < DRAM_NUM_ROWS) I
  counter_lt : ∀ s, I s → counter s < n
  count : ∀ s, I s → row s < DRAM_NUM_ROWS → counter (turn s true) = (counter s + 1) % n
  read : ∀ s, I s → row s < DRAM_NUM_ROWS →
    row (turn s true) = (if col s + 1 = DRAM_NUM_COLS then row s + 1 else row s) ∧
        col (turn s true) = (if col s + 1 = DRAM_NUM_COLS then 0 else col s + 1) ∧
        results (turn s true) = use (row s) (col s) ((v (row s) (col s)).setWidth 8) (results s) ∨
      row (turn s true) = row s ∧ col (turn s true) = col s ∧ results (turn s true) = results s ∧
        counter (turn s true) ≠ n - 1

/-- **What holds between two turns**: the words before the cursor have been used. -/
structure Scanned (use : ℕ → ℕ → BitVec 8 → σ → σ) (v : ℕ → ℕ → BitVec 4) (I : S → Prop)
    (row col : S → ℕ) (results : S → σ) (x : σ) (s : S) : Prop where
  inv : I s
  colLt : col s < 256
  bound : 256 * row s + col s ≤ 65536
  scanned : results s = scan use v (256 * row s + col s) x

theorem cursor_next (row : ℕ) {col : ℕ} (hcol : col < 256) :
    256 * (if col + 1 = DRAM_NUM_COLS then row + 1 else row) + (if col + 1 = DRAM_NUM_COLS then 0
        else col + 1) = 256 * row + col + 1 ∧
      (if col + 1 = DRAM_NUM_COLS then 0 else col + 1) < 256 := by
  unfold DRAM_NUM_COLS
  constructor <;> split <;> omega

/-- The cursor advances by one word, or by none. -/
theorem Reads.position (h : Reads use v n turn I row col counter results) {x : σ}
    (hs : Scanned use v I row col results x s) (hrow : row s < DRAM_NUM_ROWS) :
    256 * row (turn s true) + col (turn s true) = 256 * row s + col s + 1 ∨
      256 * row (turn s true) + col (turn s true) = 256 * row s + col s ∧
        counter (turn s true) ≠ n - 1 := by
  obtain ⟨hrow', hcol', -⟩ | ⟨hrow', hcol', -, hcounter⟩ := h.read s hs.inv hrow
  · left
    rw [hrow', hcol']
    exact (cursor_next _ hs.colLt).1
  · exact .inr ⟨by rw [hrow', hcol'], hcounter⟩

theorem Reads.step (h : Reads use v n turn I row col counter results) {x : σ}
    (hs : Scanned use v I row col results x s) (hrow : row s < DRAM_NUM_ROWS) :
    Scanned use v I row col results x (turn s true) := by
  have hcol := hs.colLt
  have hbound : 256 * row s + col s + 1 ≤ 65536 := by
    unfold DRAM_NUM_ROWS at hrow
    omega
  have hinv := h.polled.keep s hs.inv (Decidable.not_not.mpr hrow)
  obtain ⟨hrow', hcol', hresults⟩ | ⟨hrow', hcol', hresults, -⟩ := h.read s hs.inv hrow
  · -- the word at the cursor
    obtain ⟨hnext, hnextCol⟩ := cursor_next (row s) hcol
    rw [← hrow', ← hcol'] at hnext
    refine ⟨hinv, by rwa [hcol'], by rwa [hnext], ?_⟩
    rw [hnext, scan_succ, ← hs.scanned, hresults, show (256 * row s + col s) / 256 = row s by omega,
      show (256 * row s + col s) % 256 = col s by omega]
  · -- nothing yet
    refine ⟨hinv, by rwa [hcol'], by rw [hrow', hcol']; exact hs.bound, ?_⟩
    rw [hrow', hcol', hresults]
    exact hs.scanned

/-- **A loop that reads ends**, and has used all words. -/
theorem Reads.results_eq (h : Reads use v n turn I row col counter results) (hs : I s)
    (hrow : row s = 0) (hcol : col s = 0) {polls : List Bool}
    (hpolls : (65536 + 1) * n ≤ polls.count true) :
    results (polls.foldl turn s) = scan use v 65536 (results s) := by
  have hpolled : Polled turn (fun s => ¬ row s < DRAM_NUM_ROWS)
      (Scanned use v I row col results (results s)) :=
    ⟨h.polled.idle, h.polled.stay, fun s hs hend => h.step hs (Decidable.not_not.mp hend)⟩
  have hbegin : Scanned use v I row col results (results s) s := by
    refine ⟨hs, by omega, by omega, ?_⟩
    rw [hrow, hcol]
    rfl
  have hinv := hpolled.inv polls hbegin
  have hend := hpolled.ended_of_cycle
    (Nat.lt_of_le_of_lt (Nat.zero_le _) (h.counter_lt s hs)) 65536 counter
    (fun s => 256 * row s + col s) (fun s hs => h.counter_lt s hs.inv) ?_
    (fun s hs hend => h.count s hs.inv (Decidable.not_not.mp hend))
    (fun s hs hend => h.position hs (Decidable.not_not.mp hend)) hbegin hpolls
  · have hbound := hinv.bound
    have hfull : 256 * row (polls.foldl turn s) + col (polls.foldl turn s) = 65536 := by
      unfold DRAM_NUM_ROWS at hend
      omega
    rw [← hfull]
    exact hinv.scanned
  · intro s hs hend
    have hcol := hs.colLt
    have hlt := Decidable.not_not.mp hend
    unfold DRAM_NUM_ROWS at hlt
    omega

end

/-! ## The loop with a block counter -/

variable {body : Body σ} {start : ℕ}

/-- **One block** counts, and uses the next word if it is time. -/
theorem block_reads (hfetch : ∀ row col x, body.fetch row col x = x) (start : ℕ) (s : Loop σ) :
    (block body (readOut v) start s).blockCounter = (s.blockCounter + 1) % 2 ^ 32 ∧
      ((block body (readOut v) start s).readRow =
            (if s.readCol + 1 = DRAM_NUM_COLS then s.readRow + 1 else s.readRow) ∧
          (block body (readOut v) start s).readCol = (if s.readCol + 1 = DRAM_NUM_COLS then 0
          else s.readCol + 1) ∧ (block body (readOut v) start s).rest =
            body.use s.readRow s.readCol ((v s.readRow s.readCol).setWidth 8) s.rest ∨
        (block body (readOut v) start s).readRow = s.readRow ∧
          (block body (readOut v) start s).readCol = s.readCol ∧
            (block body (readOut v) start s).rest = s.rest ∧
              (s.blockCounter + 1) % 2 ^ 32 < start) := by
  obtain ⟨hkRow, hkCol, hkCounter⟩ :=
    writePhase_readCursor body { s with blockCounter := u32 (s.blockCounter + 1) }
  have hkRest : (writePhase body { s with blockCounter := u32 (s.blockCounter + 1) }).rest =
      s.rest := by
    unfold writePhase
    split
    · exact hfetch _ _ _
    · rfl
  unfold block
  generalize writePhase body { s with blockCounter := u32 (s.blockCounter + 1) } = s1 at *
  obtain ⟨-, -, hmCounter, -⟩ := readPhase_writeCursor body (readOut v) start s1
  have hcounter : s1.blockCounter = (s.blockCounter + 1) % 2 ^ 32 := hkCounter
  have hrow : s1.readRow = s.readRow := hkRow
  have hcol : s1.readCol = s.readCol := hkCol
  refine ⟨hmCounter.trans hcounter, ?_⟩
  unfold readPhase
  by_cases htime : start ≤ s1.blockCounter
  · rw [if_pos htime, ← hrow, ← hcol, ← hkRest]
    exact .inl ⟨rfl, rfl, rfl⟩
  · rw [if_neg htime]
    exact .inr ⟨hrow, hcol, hkRest, by omega⟩

/-- The turns at which the timer is due that are enough for any block to start testing. -/
def ENOUGH_POLLS : ℕ := (65536 + 1) * 2 ^ 32

/-- The loop reads, and starts before the last value of the block counter at the latest. -/
theorem reads_turn (hfetch : ∀ row col x, body.fetch row col x = x) (hstart : start < 2 ^ 32) :
    Reads body.use v (2 ^ 32) (turn body (readOut v) start)
      (fun s => s.blockCounter < 2 ^ 32) Loop.readRow Loop.readCol
      Loop.blockCounter Loop.rest := by
  have hturn : ∀ s : Loop σ, s.readRow < DRAM_NUM_ROWS →
      turn body (readOut v) start s true = block body (readOut v) start s := by
    intro s hrow
    unfold turn
    rw [if_pos hrow, if_pos rfl]
  refine ⟨⟨fun s => ?_, fun s hend => if_neg hend, fun s _ hend => ?_⟩, fun _ hs => hs,
    fun s _ hrow => ?_, fun s _ hrow => ?_⟩
  · unfold turn
    rw [if_neg Bool.false_ne_true]
    exact ite_self _
  · rw [hturn s (Decidable.not_not.mp hend), (block_reads hfetch start s).1]
    exact Nat.mod_lt _ (Nat.two_pow_pos 32)
  · rw [hturn s hrow]
    exact (block_reads hfetch start s).1
  · obtain ⟨hcounter, hread⟩ := block_reads (v := v) hfetch start s
    rw [hturn s hrow]
    refine hread.imp id fun ⟨hrow', hcol', hrest, hearly⟩ => ⟨hrow', hcol', hrest, ?_⟩
    rw [hcounter]
    omega

/-- **A run on a read-out** ends, and has used the words of the read-out, whatever the schedule. -/
theorem run_readOut (hfetch : ∀ row col x, body.fetch row col x = x) (hstart : start < 2 ^ 32)
    {polls : List Bool} (hpolls : ENOUGH_POLLS ≤ polls.count true) (dram : Dram) (rest : σ) :
    (run body (readOut v) start polls (Loop.start dram rest)).rest = scan body.use v 65536 rest :=
  (reads_turn hfetch hstart).results_eq (Nat.two_pow_pos 32) rfl rfl hpolls

end ProbableCause
