import Mathlib.Algebra.Order.Ring.Nat
import Mathlib.Logic.Function.Basic

/-!
# `Lib.Sdram` — what a synchronous DRAM with several banks accepts

In each bank at most one row is open. A row is opened by `activate`, if the bank has no open row; a
column command reads or writes in the row that is open; `refresh` needs all banks closed. `Legal`
says this of one command, `next` is what is open after it.

Between two commands there must be a time that depends on both of them (`Timing.between`, `Spaced`).
A row that is closed and opened again needs the sum of two of these times (`row_cycle`).

`accesses` are the cells that a sequence of commands reads and writes, in order. Two sequences with
the same accesses do the same to the memory.
-/

namespace Sdram

variable {β ρ κ : Type*}

/-- The commands, for banks `β`, rows `ρ` and columns `κ`. -/
inductive Command (β ρ κ : Type*) where
  | nop
  | activate (bank : β) (row : ρ)
  | read (bank : β) (column : κ)
  | write (bank : β) (column : κ)
  | precharge (bank : β)
  | prechargeAll
  | refresh
  deriving DecidableEq

/-- The open row of each bank. -/
abbrev Banks (β ρ : Type*) := β → Option ρ

/-- The device accepts the command. -/
def Legal (banks : Banks β ρ) : Command β ρ κ → Prop
  | .activate bank _ => banks bank = none
  | .read bank _ | .write bank _ => (banks bank).isSome
  | .refresh => ∀ bank, banks bank = none
  | .nop | .precharge _ | .prechargeAll => True

/-- The open rows after a command. -/
def next [DecidableEq β] (banks : Banks β ρ) : Command β ρ κ → Banks β ρ
  | .activate bank row => Function.update banks bank (some row)
  | .precharge bank => Function.update banks bank none
  | .prechargeAll => fun _ => none
  | .nop | .read _ _ | .write _ _ | .refresh => banks

/-- Reading or writing a cell. -/
structure Access (β ρ κ : Type*) where
  isWrite : Bool
  bank : β
  row : ρ
  column : κ
  deriving DecidableEq

/-- The access of a command. -/
def access? (banks : Banks β ρ) : Command β ρ κ → Option (Access β ρ κ)
  | .read bank column => (banks bank).map fun row => ⟨false, bank, row, column⟩
  | .write bank column => (banks bank).map fun row => ⟨true, bank, row, column⟩
  | .nop | .activate _ _ | .precharge _ | .prechargeAll | .refresh => none

/-! ## Sequences of commands -/

variable [DecidableEq β] {commands : ℕ → Command β ρ κ} {n : ℕ}

/-- The open rows before each command, if all banks are closed before the first. -/
def rows (commands : ℕ → Command β ρ κ) : ℕ → Banks β ρ
  | 0 => fun _ => none
  | n + 1 => next (rows commands n) (commands n)

/-- The device accepts all commands. -/
def Accepts (commands : ℕ → Command β ρ κ) : Prop := ∀ n, Legal (rows commands n) (commands n)

/-- The accesses of the first `n` commands. -/
def accesses (commands : ℕ → Command β ρ κ) : ℕ → List (Access β ρ κ)
  | 0 => []
  | n + 1 => accesses commands n ++ (access? (rows commands n) (commands n)).toList

/-! ## Times between commands -/

/-- The least times between two commands, in any unit. -/
structure Timing where
  /-- opening a row to reading or writing in it -/
  rcd : ℕ
  /-- opening a row to closing it -/
  ras : ℕ
  /-- opening a row to opening another one -/
  rrd : ℕ
  /-- closing a bank to opening a row of it -/
  rp : ℕ
  /-- reading to closing the bank -/
  rtp : ℕ
  /-- writing to closing the bank -/
  wr : ℕ
  /-- reading to reading, and writing to writing -/
  ccd : ℕ
  /-- writing to reading -/
  wtr : ℕ
  /-- reading to writing -/
  rtw : ℕ
  /-- a refresh to the next command -/
  rfc : ℕ

/-- The command closes the bank. -/
def Command.Closes (bank : β) : Command β ρ κ → Prop
  | .precharge b => b = bank
  | .prechargeAll => True
  | _ => False

/-- The least time from one command to another one. -/
def Timing.between (T : Timing) (first : Command β ρ κ) : Command β ρ κ → ℕ
  | .activate bank _ =>
    match first with
    | .activate _ _ => T.rrd
    | .precharge b => if b = bank then T.rp else 0
    | .prechargeAll => T.rp
    | .refresh => T.rfc
    | _ => 0
  | .read bank _ =>
    match first with
    | .activate b _ => if b = bank then T.rcd else 0
    | .read _ _ => T.ccd
    | .write _ _ => T.wtr
    | _ => 0
  | .write bank _ =>
    match first with
    | .activate b _ => if b = bank then T.rcd else 0
    | .read _ _ => T.rtw
    | .write _ _ => T.ccd
    | _ => 0
  | .precharge bank =>
    match first with
    | .activate b _ => if b = bank then T.ras else 0
    | .read b _ => if b = bank then T.rtp else 0
    | .write b _ => if b = bank then T.wr else 0
    | _ => 0
  | .prechargeAll =>
    match first with
    | .activate _ _ => T.ras
    | .read _ _ => T.rtp
    | .write _ _ => T.wr
    | _ => 0
  | .refresh =>
    match first with
    | .precharge _ | .prechargeAll => T.rp
    | .refresh => T.rfc
    | _ => 0
  | .nop => 0

/-- All commands are far enough apart, if one cycle takes `period`. -/
def Spaced (T : Timing) (period : ℕ) (commands : ℕ → Command β ρ κ) : Prop :=
  ∀ m n, m < n → T.between (commands m) (commands n) ≤ (n - m) * period

/-- The times of `T` are those of `T'` in a smaller unit at most. -/
structure Timing.Within (T T' : Timing) (unit : ℕ) : Prop where
  rcd : T.rcd ≤ T'.rcd * unit
  ras : T.ras ≤ T'.ras * unit
  rrd : T.rrd ≤ T'.rrd * unit
  rp : T.rp ≤ T'.rp * unit
  rtp : T.rtp ≤ T'.rtp * unit
  wr : T.wr ≤ T'.wr * unit
  ccd : T.ccd ≤ T'.ccd * unit
  wtr : T.wtr ≤ T'.wtr * unit
  rtw : T.rtw ≤ T'.rtw * unit
  rfc : T.rfc ≤ T'.rfc * unit

theorem Timing.Within.between {T T' : Timing} {unit : ℕ} (h : T.Within T' unit)
    (first second : Command β ρ κ) :
    T.between first second ≤ T'.between first second * unit := by
  obtain ⟨hrcd, hras, hrrd, hrp, hrtp, hwr, hccd, hwtr, hrtw, hrfc⟩ := h
  cases second <;> cases first <;> simp only [Timing.between, Nat.zero_le] <;> first
    | assumption
    | (split
       · assumption
       · exact Nat.zero_le _)

theorem Spaced.within {T T' : Timing} {unit : ℕ} (h : Spaced T' 1 commands)
    (hwithin : T.Within T' unit) :
    Spaced T unit commands := by
  intro m n hmn
  calc T.between (commands m) (commands n) ≤ T'.between (commands m) (commands n) * unit :=
    hwithin.between _ _
    _ ≤ (n - m) * unit := Nat.mul_le_mul_right unit (by simpa using h m n hmn)

/-- A row stays open until its bank is closed. -/
theorem exists_closes (bank : β) {m : ℕ} (hopen : rows commands (m + 1) bank ≠ none) (k : ℕ)
    (hclosed : rows commands (m + 1 + k) bank = none) :
      ∃ j, m < j ∧ j < m + 1 + k ∧ (commands j).Closes bank := by
  induction k with
  | zero => exact absurd hclosed hopen
  | succ k ih =>
    by_cases hbefore : rows commands (m + 1 + k) bank = none
    · obtain ⟨j, hm, hj, hcloses⟩ := ih hbefore
      exact ⟨j, hm, Nat.lt_succ_of_lt hj, hcloses⟩
    · refine ⟨m + 1 + k, by omega, by omega, ?_⟩
      rw [← Nat.add_assoc, rows] at hclosed
      cases hcommand : commands (m + 1 + k) with
      | precharge b =>
        refine Classical.byContradiction fun hb => hbefore ?_
        rw [hcommand, next, Function.update_of_ne (Ne.symm hb)] at hclosed
        exact hclosed
      | prechargeAll => exact trivial
      | activate b r =>
        by_cases hb : bank = b
        · rw [hcommand, hb, next, Function.update_self] at hclosed
          cases hclosed
        · rw [hcommand, next, Function.update_of_ne hb] at hclosed
          exact absurd hclosed hbefore
      | nop | read | write | refresh =>
        rw [hcommand] at hclosed
        exact absurd hclosed hbefore

/-- **The row cycle**: from opening one row of a bank to opening the next one. -/
theorem row_cycle {T : Timing} {period : ℕ} (haccepts : Accepts commands)
    (hspaced : Spaced T period commands) {m : ℕ} (hmn : m < n) {bank : β} {row row' : ρ}
    (hm : commands m = .activate bank row) (hn : commands n = .activate bank row') :
      T.ras + T.rp ≤ (n - m) * period := by
  have hopen : rows commands (m + 1) bank ≠ none := by
    rw [rows, hm, next, Function.update_self]
    exact Option.some_ne_none row
  have hclosed : rows commands n bank = none := by
    have hlegal := haccepts n
    rw [hn] at hlegal
    exact hlegal
  obtain ⟨k, rfl⟩ := Nat.exists_eq_add_of_lt hmn
  rw [Nat.add_right_comm] at hclosed hn ⊢
  obtain ⟨j, hmj, hjn, hcloses⟩ := exists_closes bank hopen k hclosed
  have hras := hspaced m j hmj
  have hrp := hspaced j _ hjn
  rw [hm] at hras
  rw [hn] at hrp
  have hsum : (m + 1 + k - m) * period = (j - m) * period + (m + 1 + k - j) * period := by
    rw [← Nat.add_mul]
    congr 1
    omega
  have hboth : T.ras ≤ (j - m) * period ∧ T.rp ≤ (m + 1 + k - j) * period := by
    cases hj : commands j with
    | precharge b =>
      rw [hj] at hcloses hras hrp
      obtain rfl : b = bank := hcloses
      simpa [Timing.between] using And.intro hras hrp
    | prechargeAll =>
      rw [hj] at hras hrp
      exact ⟨hras, hrp⟩
    | nop | activate | read | write | refresh =>
      rw [hj] at hcloses
      exact absurd hcloses id
  rw [hsum]
  exact Nat.add_le_add hboth.1 hboth.2

end Sdram
