import ProbableCause.Firmware.Schedule
import Mathlib.Data.List.Nodup

/-!
# `Firmware.Exposure` — every row is exposed for the same number of blocks

Word `k` is written in block `k + 1` and read in block `blockToStartTesting + k`, writes come before
reads within a block, and so the log is sorted by time (`log_sorted`). With
`blockToStartTesting = D + 256` the last word of a row is written `D` blocks before its first word
is read, and what lies between in the log belongs to later rows (writes) or to earlier ones (reads):
`fixedExposure`.
-/

namespace ProbableCause

variable {start D : ℕ}

/-! ## The law -/

/-- The words of the DRAM, row by row. -/
def rowMajor : List (ℕ × ℕ) := (List.range 65536).map fun k => (k / 256, k % 256)

/-- The position an operation writes. -/
def Access.written? : ℕ × Access → Option (ℕ × ℕ)
  | (_, .wb row col) => some (row, col)
  | (_, .rb _ _) => none

/-- The position an operation reads. -/
def Access.read? : ℕ × Access → Option (ℕ × ℕ)
  | (_, .wb _ _) => none
  | (_, .rb row col) => some (row, col)

/-- **The law of fixed exposure**, for a log of operations and a number `D` of blocks. -/
structure FixedExposure (D : ℕ) (log : List (ℕ × Access)) : Prop where
  /-- every word is written once, row by row -/
  writes : log.filterMap Access.written? = rowMajor
  /-- every word is read once, row by row -/
  reads : log.filterMap Access.read? = rowMajor
  /-- every word is read after it was written -/
  after : ∀ row col, (row, col) ∈ rowMajor → ∃ pre mid post b b',
    log = pre ++ (b, .wb row col) :: (mid ++ (b', .rb row col) :: post)
  /-- from the last write of a row to its first read it is `D` blocks, without an operation on the
  row -/
  exposure : ∀ row < DRAM_NUM_ROWS, ∃ pre mid post b,
    log = pre ++ (b, .wb row (DRAM_NUM_COLS - 1)) :: (mid ++ (b + D, .rb row 0) :: post) ∧
      ∀ e ∈ mid, e.2.row ≠ row

/-! ## Logs sorted by time -/

/-- In a list sorted by `time`, what lies between two elements has a time between theirs. -/
theorem exists_between {α : Type} {time : α → ℕ} {l : List α} {x y : α}
    (hl : l.Pairwise fun a b => time a < time b) (hx : x ∈ l) (hy : y ∈ l) (hxy : time x < time y) :
    ∃ pre mid post, l = pre ++ x :: (mid ++ y :: post) ∧
      ∀ z ∈ mid, z ∈ l ∧ time x < time z ∧ time z < time y := by
  obtain ⟨pre, rest, rfl⟩ := List.append_of_mem hx
  obtain ⟨-, hrest, hcross⟩ := List.pairwise_append.mp hl
  obtain ⟨hxrest, hrest'⟩ := List.pairwise_cons.mp hrest
  -- `y` is later than `x`, so it is not in front of it
  have hy' : y ∈ rest := by
    rcases List.mem_append.mp hy with h | h
    · have := hcross y h x List.mem_cons_self
      omega
    · rcases List.mem_cons.mp h with rfl | h
      · omega
      · exact h
  obtain ⟨mid, post, rfl⟩ := List.append_of_mem hy'
  refine ⟨pre, mid, post, rfl, fun z hz => ⟨by simp [hz], ?_, ?_⟩⟩
  · exact hxrest z (List.mem_append_left _ hz)
  · exact (List.pairwise_append.mp hrest').2.2 z hz y List.mem_cons_self

/-- The time of a log entry: within a block the write comes before the read. -/
def entryTime : ℕ × Access → ℕ
  | (b, .wb _ _) => 2 * b
  | (b, .rb _ _) => 2 * b + 1

/-- The operations of block `b` take place in block `b`. -/
theorem mem_blockAccesses {b : ℕ} {e : ℕ × Access} :
    e ∈ blockAccesses start b ↔
      (b ≤ 65536 ∧ e = (b, .wb ((b - 1) / 256) ((b - 1) % 256))) ∨
        (start ≤ b ∧ e = (b, .rb ((b - start) / 256) ((b - start) % 256))) := by
  rw [blockAccesses, List.mem_append]
  constructor
  · rintro (h | h)
    · split at h
      · next hb => exact Or.inl ⟨hb, List.mem_singleton.mp h⟩
      · cases h
    · split at h
      · next hb => exact Or.inr ⟨hb, List.mem_singleton.mp h⟩
      · cases h
  · rintro (⟨hb, rfl⟩ | ⟨hb, rfl⟩)
    · exact Or.inl (by rw [if_pos hb]; exact List.mem_singleton_self _)
    · exact Or.inr (by rw [if_pos hb]; exact List.mem_singleton_self _)

theorem entryTime_of_mem_blockAccesses {b : ℕ} {e : ℕ × Access} (h : e ∈ blockAccesses start b) :
    2 * b ≤ entryTime e ∧ entryTime e ≤ 2 * b + 1 := by
  rcases mem_blockAccesses.mp h with ⟨-, rfl⟩ | ⟨-, rfl⟩ <;> simp [entryTime]

/-- **The log is sorted by time.** -/
theorem log_sorted (start n : ℕ) :
    ((List.range n).flatMap fun i => blockAccesses start (i + 1)).Pairwise
      fun a b => entryTime a < entryTime b := by
  rw [List.pairwise_flatMap]
  constructor
  · intro i _
    rw [blockAccesses, List.pairwise_append]
    refine ⟨?_, ?_, ?_⟩
    · split <;> simp
    · split <;> simp
    · intro x hx y hy
      split at hx
      · split at hy
        · rw [List.mem_singleton.mp hx, List.mem_singleton.mp hy]
          exact Nat.lt_succ_self _
        · cases hy
      · cases hx
  · refine List.pairwise_lt_range.imp fun {i j} hij x hx y hy => ?_
    have h1 := entryTime_of_mem_blockAccesses hx
    have h2 := entryTime_of_mem_blockAccesses hy
    omega

/-! ## The log of a whole run -/

/-- The log when the loop has ended. -/
def fullLog (start : ℕ) : List (ℕ × Access) :=
  (List.range (blockTotal start)).flatMap fun i => blockAccesses start (i + 1)

/-- Word `k` is written in block `k + 1`. -/
theorem wb_mem_fullLog {k : ℕ} (hk : k < 65536) (hstart : 1 ≤ start) :
    (k + 1, Access.wb (k / 256) (k % 256)) ∈ fullLog start := by
  have hblock : k < blockTotal start := Nat.lt_of_lt_of_le hk (Nat.add_le_add_right hstart 65535)
  exact List.mem_flatMap.mpr ⟨k, List.mem_range.mpr hblock, mem_blockAccesses.mpr (Or.inl ⟨hk, rfl⟩)⟩

/-- Word `k` is read in block `start + k`. -/
theorem rb_mem_fullLog {k : ℕ} (hk : k < 65536) (hstart : 1 ≤ start) :
    (start + k, Access.rb (k / 256) (k % 256)) ∈ fullLog start := by
  refine List.mem_flatMap.mpr ⟨start + k - 1, List.mem_range.mpr ?_, mem_blockAccesses.mpr
    (Or.inr ⟨by omega, ?_⟩)⟩
  · unfold blockTotal
    omega
  · rw [show start + k - 1 + 1 = start + k by omega, Nat.add_sub_cancel_left]

/-- Every entry is the write or the read of a word, in its block. -/
theorem cases_of_mem_fullLog {e : ℕ × Access} (h : e ∈ fullLog start) :
    ∃ k < 65536, e = (k + 1, .wb (k / 256) (k % 256)) ∨ e = (start + k, .rb (k / 256) (k % 256)) := by
  obtain ⟨i, hi, he⟩ := List.mem_flatMap.mp h
  have hi' : i < blockTotal start := List.mem_range.mp hi
  unfold blockTotal at hi'
  rcases mem_blockAccesses.mp he with ⟨hb, rfl⟩ | ⟨hb, rfl⟩
  · exact ⟨i, hb, Or.inl rfl⟩
  · refine ⟨i + 1 - start, by omega, Or.inr ?_⟩
    rw [Nat.add_sub_cancel' hb]

/-- What the blocks write. -/
theorem filterMap_written (start b : ℕ) :
    (blockAccesses start (b + 1)).filterMap Access.written? =
      if b < 65536 then [(b / 256, b % 256)] else [] := by
  rw [blockAccesses, List.filterMap_append]
  have hreads : (if start ≤ b + 1 then
      [(b + 1, Access.rb ((b + 1 - start) / 256) ((b + 1 - start) % 256))] else []).filterMap
      Access.written? = [] := by split <;> rfl
  rw [hreads, List.append_nil]
  by_cases hb : b < 65536
  · rw [if_pos hb, if_pos (show b + 1 ≤ 65536 from hb)]
    rfl
  · rw [if_neg hb, if_neg (show ¬ b + 1 ≤ 65536 by omega)]
    rfl

/-- What the blocks read. -/
theorem filterMap_read (start b : ℕ) :
    (blockAccesses start (b + 1)).filterMap Access.read? =
      if start ≤ b + 1 then [((b + 1 - start) / 256, (b + 1 - start) % 256)] else [] := by
  rw [blockAccesses, List.filterMap_append]
  have hwrites : (if b + 1 ≤ 65536 then
      [(b + 1, Access.wb ((b + 1 - 1) / 256) ((b + 1 - 1) % 256))] else []).filterMap
      Access.read? = [] := by split <;> rfl
  rw [hwrites, List.nil_append]
  split <;> rfl

/-- Blocks that do something from block `m` on, for `n` blocks: what they do, in order. -/
theorem flatMap_range_window {α : Type} (g : ℕ → α) (m n r : ℕ) :
    ((List.range (m + n + r)).flatMap fun i =>
      if m ≤ i ∧ i < m + n then [g (i - m)] else []) = (List.range n).map g := by
  have hnil : ∀ l : List ℕ, (∀ i ∈ l, ¬ (m ≤ i ∧ i < m + n)) →
      (l.flatMap fun i => if m ≤ i ∧ i < m + n then [g (i - m)] else []) = [] := by
    intro l hl
    rw [List.flatMap_eq_nil_iff]
    exact fun i hi => if_neg (hl i hi)
  rw [Nat.add_assoc, List.range_add, List.flatMap_append, hnil _ (fun i hi => by
    have := List.mem_range.mp hi; omega), List.nil_append, List.range_add, List.map_append,
    List.flatMap_append, hnil (((List.range r).map fun x => n + x).map fun x => m + x) (fun i hi => by
      simp only [List.mem_map, List.mem_range] at hi
      obtain ⟨j, ⟨k, hk, rfl⟩, rfl⟩ := hi
      omega), List.append_nil, List.flatMap_map]
  have hsingle : ∀ i ∈ List.range n,
      (if m ≤ m + i ∧ m + i < m + n then [g (m + i - m)] else []) = [g i] := by
    intro i hi
    have := List.mem_range.mp hi
    rw [if_pos (by omega), Nat.add_sub_cancel_left]
  rw [List.flatMap_congr hsingle]
  exact (List.map_eq_flatMap).symm

/-- **The law holds of the log of a whole run** that starts testing in block `D + 256`. -/
theorem fixedExposure (D : ℕ) : FixedExposure D (fullLog (D + DRAM_NUM_COLS)) := by
  show FixedExposure D (fullLog (D + 256))
  have hstart : 1 ≤ D + 256 := by omega
  refine ⟨?_, ?_, ?_, ?_⟩
  · rw [fullLog, List.filterMap_flatMap]
    simp only [filterMap_written]
    have hwindow := flatMap_range_window (fun k => (k / 256, k % 256)) 0 65536 (D + 255)
    simp only [Nat.zero_le, true_and, Nat.zero_add, Nat.sub_zero] at hwindow
    rw [show blockTotal (D + 256) = 65536 + (D + 255) by unfold blockTotal; omega]
    exact hwindow
  · rw [fullLog, List.filterMap_flatMap]
    simp only [filterMap_read]
    have hwindow := flatMap_range_window (fun k => (k / 256, k % 256)) (D + 255) 65536 0
    rw [show blockTotal (D + 256) = D + 255 + 65536 + 0 by unfold blockTotal; omega]
    rw [← rowMajor.eq_1] at hwindow
    rw [← hwindow]
    apply List.flatMap_congr
    intro i hi
    have := List.mem_range.mp hi
    by_cases hi' : D + 255 ≤ i
    · rw [if_pos (by omega), if_pos (by omega),
        show i + 1 - (D + 256) = i - (D + 255) by omega]
    · rw [if_neg (by omega), if_neg (by omega)]
  · intro row col hcell
    obtain ⟨k, hk, he⟩ := List.mem_map.mp hcell
    have hk := List.mem_range.mp hk
    obtain ⟨rfl, rfl⟩ := Prod.mk.inj he
    obtain ⟨pre, mid, post, hlog, -⟩ := exists_between (log_sorted _ _)
      (wb_mem_fullLog hk hstart) (rb_mem_fullLog hk hstart) (by
        show 2 * (k + 1) < 2 * (D + 256 + k) + 1
        omega)
    exact ⟨pre, mid, post, _, _, hlog⟩
  · intro row hrow
    -- the last write of the row is word `256 * row + 255`, the first read word `256 * row`
    have hrow' : row < 256 := hrow
    have hk : 256 * row + 255 < 65536 := by omega
    have hk0 : 256 * row < 65536 := by omega
    have hw := wb_mem_fullLog hk hstart
    have hr := rb_mem_fullLog hk0 hstart
    rw [show (256 * row + 255) / 256 = row by omega, show (256 * row + 255) % 256 =
      255 by omega] at hw
    rw [show 256 * row / 256 = row by omega, show 256 * row % 256 = 0 by omega,
      show D + 256 + 256 * row = 256 * row + 255 + 1 + D by omega] at hr
    obtain ⟨pre, mid, post, hlog, hmid⟩ := exists_between (log_sorted _ _) hw hr (by
      show 2 * (256 * row + 255 + 1) < 2 * (256 * row + 255 + 1 + D) + 1
      omega)
    refine ⟨pre, mid, post, 256 * row + 255 + 1, hlog, ?_⟩
    intro e he
    obtain ⟨hin, h1, h2⟩ := hmid e he
    obtain ⟨k, -, rfl | rfl⟩ := cases_of_mem_fullLog hin
    · -- a write in between is of a later row
      have hlate : 2 * (256 * row + 255 + 1) < 2 * (k + 1) := h1
      show k / 256 ≠ row
      omega
    · -- a read in between is of an earlier row
      have hearly : 2 * (D + 256 + k) + 1 < 2 * (256 * row + 255 + 1 + D) + 1 := h2
      show k / 256 ≠ row
      omega

/-- **The loop has run as scheduled**: it has ended, its log has fixed exposure, and the block
    counter has counted every block. -/
structure Scheduled {σ : Type} (D : ℕ) (s : Loop σ) : Prop where
  ended : s.readRow = DRAM_NUM_ROWS
  exposure : FixedExposure D s.log
  counted : s.blockCounter = D + DRAM_NUM_COLS + 65535

theorem one_le_start (D : ℕ) : 1 ≤ D + DRAM_NUM_COLS := by
  unfold DRAM_NUM_COLS
  omega

/-- The blocks can be counted. -/
theorem blockTotal_lt {D : ℕ} (h : D < 2 ^ 31) : blockTotal (D + DRAM_NUM_COLS) < 2 ^ 32 := by
  unfold blockTotal DRAM_NUM_COLS
  omega

/-- **Every run of the loop** with enough periods of the timer runs as scheduled. -/
theorem run_scheduled {σ : Type} {body : Body σ} {decay : Decay} (hD : D < 2 ^ 31)
    {polls : List Bool} (hpolls : blockTotal (D + DRAM_NUM_COLS) ≤ polls.count true) (dram : Dram)
    (rest : σ) :
    Scheduled D (run body decay (D + DRAM_NUM_COLS) polls (Loop.start dram rest)) := by
  have hlt := blockTotal_lt hD
  rw [run_start_eq (one_le_start D) hlt hpolls]
  have hend := iterate_atBlock body decay (one_le_start D) hlt dram rest le_rfl
  refine ⟨?_, ?_, hend.counter⟩
  · rw [hend.readRow]
    unfold readCount blockTotal DRAM_NUM_COLS DRAM_NUM_ROWS
    omega
  · rw [hend.log]
    exact fixedExposure D

theorem Scheduled.blockCounter_lt {σ : Type} {s : Loop σ} (h : Scheduled D s) (hD : D < 2 ^ 31) :
    s.blockCounter < 2 ^ 32 := by
  rw [h.counted]
  exact blockTotal_lt hD

end ProbableCause
