import Mathlib.Algebra.Group.Nat.Defs
import Mathlib.Data.Nat.Basic
import Mathlib.Logic.Function.Basic

/-!
# `Firmware.Flash` — `flash.h`: the flash memory of the microcontroller

A write can only change bits from `1` to `0`: it stores the old byte AND the new one. `written`
records the addresses of the write operations; no function of the firmware reads it. Words are
little-endian.
-/

namespace ProbableCause

/-- The range of `unsigned long`. -/
def u32 (n : ℕ) : ℕ := n % 2 ^ 32

theorem u32_of_lt {n : ℕ} (h : n < 2 ^ 32) : u32 n = n := Nat.mod_eq_of_lt h

/-- The flash memory and the addresses written so far, the last one first. -/
structure Flash where
  mem : ℕ → BitVec 8
  written : List ℕ

/-- The start of the user data in flash, as `flash.h` sets it. -/
def SEGMENT_DATA_START : ℕ := 0x3A10

/-- The end of the flash memory. -/
def SEGMENT_DATA_END : ℕ := 0x20000

/-! ## Bytes -/

def flashWriteByte (f : Flash) (address : ℕ) (value : BitVec 8) : Flash where
  mem := Function.update f.mem address (f.mem address &&& value)
  written := address :: f.written

def flashReadByte (f : Flash) (address : ℕ) : BitVec 8 := f.mem address

@[simp] theorem written_flashWriteByte (f : Flash) (address : ℕ) (value : BitVec 8) :
    (flashWriteByte f address value).written = address :: f.written := rfl

@[simp] theorem mem_flashWriteByte_self (f : Flash) (address : ℕ) (value : BitVec 8) :
    (flashWriteByte f address value).mem address = f.mem address &&& value :=
  Function.update_self _ _ _

theorem mem_flashWriteByte_of_ne {a address : ℕ} (h : a ≠ address) (f : Flash) (value : BitVec 8) :
    (flashWriteByte f address value).mem a = f.mem a :=
  Function.update_of_ne h _ _

/-! ## Words -/

/-- Byte `i` of a word of `n` bytes. -/
def wordByte {n : ℕ} (value : BitVec n) (i : ℕ) : BitVec 8 := (value >>> (8 * i)).setWidth 8

/-- `__data20_write_short`. -/
def flashWb (f : Flash) (address : ℕ) (value : BitVec 16) : Flash :=
  flashWriteByte (flashWriteByte f address (wordByte value 0)) (address + 1) (wordByte value 1)

/-- `__data20_read_short`. -/
def flashRb (f : Flash) (address : ℕ) : BitVec 16 := f.mem (address + 1) ++ f.mem address

/-- `__data20_write_long`. -/
def flashWriteLong (f : Flash) (address : ℕ) (value : BitVec 32) : Flash :=
  (List.range 4).foldl (fun f i => flashWriteByte f (address + i) (wordByte value i)) f

/-- `__data20_read_long`. -/
def flashReadLong (f : Flash) (address : ℕ) : BitVec 32 :=
  f.mem (address + 3) ++ f.mem (address + 2) ++ f.mem (address + 1) ++ f.mem address

/-! ## The bytes of a word -/

theorem getLsbD_wordByte {n : ℕ} (value : BitVec n) (i : ℕ) {b : ℕ} (hb : b < 8) :
    (wordByte value i).getLsbD b = value.getLsbD (8 * i + b) := by
  unfold wordByte
  rw [BitVec.getLsbD_setWidth, BitVec.getLsbD_ushiftRight, decide_eq_true hb, Bool.true_and]

theorem wordByte_and {n : ℕ} (x y : BitVec n) (i : ℕ) :
    wordByte (x &&& y) i = wordByte x i &&& wordByte y i := by
  apply BitVec.eq_of_getLsbD_eq
  intro b hb
  rw [BitVec.getLsbD_and, getLsbD_wordByte _ _ hb, getLsbD_wordByte _ _ hb, getLsbD_wordByte _ _ hb,
    BitVec.getLsbD_and]

/-- The two bytes of a word. -/
theorem wordByte_append (c : BitVec 16) : wordByte c 1 ++ wordByte c 0 = c := by
  apply BitVec.eq_of_getLsbD_eq
  intro i hi
  rw [BitVec.getLsbD_append]
  by_cases h : i < 8
  · rw [if_pos h, getLsbD_wordByte c 0 h, Nat.mul_zero, Nat.zero_add]
  · rw [if_neg h, getLsbD_wordByte c 1 (by omega), show 8 * 1 + (i - 8) = i by omega]

/-- The low byte of a word to which a byte is appended. -/
theorem wordByte_append_zero {n : ℕ} (x : BitVec n) (y : BitVec 8) : wordByte (x ++ y) 0 = y := by
  apply BitVec.eq_of_getLsbD_eq
  intro b hb
  rw [getLsbD_wordByte _ _ hb, BitVec.getLsbD_append, if_pos (by omega), Nat.mul_zero, Nat.zero_add]

/-- The other bytes of a word to which a byte is appended. -/
theorem wordByte_append_succ {n : ℕ} (x : BitVec n) (y : BitVec 8) (i : ℕ) :
    wordByte (x ++ y) (i + 1) = wordByte x i := by
  apply BitVec.eq_of_getLsbD_eq
  intro b hb
  have hbit : 8 * (i + 1) + b - 8 = 8 * i + b := by omega
  rw [getLsbD_wordByte _ _ hb, getLsbD_wordByte _ _ hb, BitVec.getLsbD_append,
    if_neg (by omega), hbit]

/-- A word of one byte. -/
theorem wordByte_zero (x : BitVec 8) : wordByte x 0 = x := by
  apply BitVec.eq_of_getLsbD_eq
  intro b hb
  rw [getLsbD_wordByte _ _ hb, Nat.mul_zero, Nat.zero_add]

/-- The bytes of a word read from flash. -/
theorem wordByte_flashReadLong (f : Flash) (address : ℕ) {i : ℕ} (hi : i < 4) :
    wordByte (flashReadLong f address) i = f.mem (address + i) := by
  unfold flashReadLong
  obtain rfl | rfl | rfl | rfl : i = 0 ∨ i = 1 ∨ i = 2 ∨ i = 3 := by omega
  · rw [wordByte_append_zero, Nat.add_zero]
  · rw [wordByte_append_succ, wordByte_append_zero]
  · rw [wordByte_append_succ, wordByte_append_succ, wordByte_append_zero]
  · rw [wordByte_append_succ, wordByte_append_succ, wordByte_append_succ, wordByte_zero]

/-- `n` bytes written one after the other: each meets the one that was there, and no other byte
changes. -/
theorem mem_foldl_flashWriteByte (f : Flash) (address : ℕ) (byte : ℕ → BitVec 8) (a n : ℕ) :
    ((List.range n).foldl (fun f i => flashWriteByte f (address + i) (byte i)) f).mem a =
      if address ≤ a ∧ a < address + n then f.mem a &&& byte (a - address) else f.mem a := by
  induction n with
  | zero => rw [List.range_zero, List.foldl_nil, if_neg (by omega)]
  | succ n ih =>
    rw [List.range_succ, List.foldl_append, List.foldl_cons, List.foldl_nil]
    by_cases ha : a = address + n
    · -- the bytes before it leave the last one as it was
      rw [ha] at ih ⊢
      rw [mem_flashWriteByte_self, ih, if_neg (by omega), if_pos (by omega), Nat.add_sub_cancel_left]
    · rw [mem_flashWriteByte_of_ne ha, ih]
      by_cases hlt : address ≤ a ∧ a < address + n
      · rw [if_pos hlt, if_pos (by omega)]
      · rw [if_neg hlt, if_neg (by omega)]

theorem mem_flashWriteLong (f : Flash) (address : ℕ) (value : BitVec 32) (a : ℕ) :
    (flashWriteLong f address value).mem a =
      if address ≤ a ∧ a < address + 4 then f.mem a &&& wordByte value (a - address) else f.mem a :=
  mem_foldl_flashWriteByte f address (wordByte value) a 4

end ProbableCause
