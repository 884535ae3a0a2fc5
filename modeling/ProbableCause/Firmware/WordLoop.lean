import ProbableCause.Firmware.Schedule

/-!
# `Firmware.WordLoop` — the loop over the words of the DRAM

The programs that write all words first and read them afterwards go through the DRAM with one loop,
row by row, and advance the cursor at its end. `wordLoop_eq` says that the loop ends after the last
word, and what it has done: its body for every word, in order.
-/

namespace ProbableCause

variable {σ : Type} {body : ℕ → ℕ → σ → σ} {x : σ}

/-- The variables of the loop. -/
structure Cursor (σ : Type) where
  row : ℕ
  col : ℕ
  rest : σ

/-- One turn of `while(row < DRAM_NUM_ROWS)`. -/
def wordTurn (body : ℕ → ℕ → σ → σ) (s : Cursor σ) : Cursor σ :=
  if s.row < DRAM_NUM_ROWS then
    { row := if s.col + 1 = DRAM_NUM_COLS then s.row + 1 else s.row
      col := if s.col + 1 = DRAM_NUM_COLS then 0 else s.col + 1
      rest := body s.row s.col s.rest }
  else s

/-- The loop, from the first word on; it has ended after one turn for each word. -/
def wordLoop (body : ℕ → ℕ → σ → σ) (x : σ) : Cursor σ :=
  (wordTurn body)^[DRAM_NUM_ROWS * DRAM_NUM_COLS] ⟨0, 0, x⟩

/-- The body for the first `n` words. -/
def wordsUpTo (body : ℕ → ℕ → σ → σ) (n : ℕ) (x : σ) : σ :=
  (List.range n).foldl (fun x k => body (k / 256) (k % 256) x) x

theorem wordsUpTo_succ (body : ℕ → ℕ → σ → σ) (n : ℕ) (x : σ) :
    wordsUpTo body (n + 1) x = body (n / 256) (n % 256) (wordsUpTo body n x) := by
  rw [wordsUpTo, List.range_succ, List.foldl_append]
  rfl

/-- The loop after some turns. -/
theorem iterate_wordTurn (body : ℕ → ℕ → σ → σ) (x : σ) {n : ℕ} (hn : n ≤ 65536) :
    (wordTurn body)^[n] ⟨0, 0, x⟩ = ⟨n / 256, n % 256, wordsUpTo body n x⟩ := by
  induction n with
  | zero => rfl
  | succ n ih =>
    have hrow : n / 256 < DRAM_NUM_ROWS := by
      unfold DRAM_NUM_ROWS
      omega
    rw [Function.iterate_succ_apply', ih (by omega), wordTurn, if_pos hrow, wordsUpTo_succ]
    unfold DRAM_NUM_COLS
    by_cases hend : n % 256 + 1 = 256
    · rw [if_pos hend, if_pos hend, show (n + 1) / 256 = n / 256 + 1 by omega,
        show (n + 1) % 256 = 0 by omega]
    · rw [if_neg hend, if_neg hend, show (n + 1) / 256 = n / 256 by omega, show (n + 1) % 256 =
        n % 256 + 1 by omega]

/-- **The loop ends after the last word.** -/
theorem wordLoop_eq (body : ℕ → ℕ → σ → σ) (x : σ) :
    wordLoop body x = ⟨DRAM_NUM_ROWS, 0, wordsUpTo body 65536 x⟩ :=
      iterate_wordTurn body x (Nat.le_refl _)

/-- **The rule for the loop**: what holds at first and is kept by the body. -/
theorem wordsUpTo_rule {P : ℕ → σ → Prop} {n : ℕ} (first : P 0 x)
    (step : ∀ k x, k < n → P k x → P (k + 1) (body (k / 256) (k % 256) x)) :
      P n (wordsUpTo body n x) := by
  have hall : ∀ k ≤ n, P k (wordsUpTo body k x) := by
    intro k hk
    induction k with
    | zero => exact first
    | succ k ih =>
      rw [wordsUpTo_succ]
      exact step k _ hk (ih (by omega))
  exact hall n (Nat.le_refl n)

/-- **Every word is written**: the DRAM after the loop that writes. -/
theorem wordsUpTo_dramWb {value : ℕ → ℕ → BitVec 8} {word : ℕ → BitVec 4} {n : ℕ} (dram : Dram)
    (hvalue : ∀ k < n, (value (k / 256) (k % 256)).setWidth 4 = word k) :
    ∀ k < n, (wordsUpTo (fun row col (d : Dram) => dramWb d row col (value row col)) n dram : Dram)
      (k / 256) (k % 256) = word k :=
  wordsUpTo_rule (P := fun n (d : Dram) => ∀ k < n, d (k / 256) (k % 256) = word k)
    (fun k hk => absurd hk (Nat.not_lt_zero k)) fun k _ hk h => words_dramWb h (hvalue k hk)

end ProbableCause
