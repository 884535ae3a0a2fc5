import ProbableCause.Lib.Overlay
import ProbableCause.Lib.Text
import ProbableCause.Database.Python

/-!
# `Experiment.Script` — `myscript.py`: the loops over the words of a memory dump

The script reads a dump of the flash as text, splits it into words and cuts a part out of it. The
first word is the address the dump starts at, `@3100`; every further word is one byte. The two loops
that copy bytes to a result file differ in their bounds only (`copyLoop`); the loop that looks for
the delay reads two words.
-/

namespace ProbableCause

open Text Overlay

/-! ## Hexadecimal numbers -/

/-- The value of a hexadecimal digit. -/
def hexValue (c : Char) : ℕ :=
  if c.toNat < 58 then c.toNat - 48 else if c.toNat < 97 then c.toNat - 55 else c.toNat - 87

/-- `int(s,16)`, for a string of hexadecimal digits. -/
def int16 (s : Str) : ℕ := s.foldl (fun n c => 16 * n + hexValue c) 0

/-- `format(n,'x')`. -/
def formatX (n : ℕ) : Str := Nat.toDigits 16 n

/-! ## Constants -/

def MEMORY_START : Str := "3100".toList
def DATA_START : Str := "3610".toList

theorem int16_DATA_START : int16 DATA_START = 13840 := by decide

/-! ## Copying bytes to a result file -/

/-- The loop `for word in words`, from a position on; `r` is what has been written to the file.
    Words are copied from the first position that is not skipped to the position where the loop
    stops. -/
def copyLoop (stop skip : ℕ → Bool) : List Str → ℕ → ℕ → Str → Str
  | [], _, _, r => r
  | word :: words, position, linePos, r =>
    if stop position then r ++ "\r\nq\r\n".toList
    else if skip position then copyLoop stop skip words (position + 1) linePos r
    else
      let r := r ++ word
      let linePos := linePos + 1
      if linePos = 16 then copyLoop stop skip words (position + 1) 0 (r ++ "\r\n".toList)
      else copyLoop stop skip words (position + 1) linePos (r ++ " ".toList)

/-- The fingerprint file, for the text of the dump. -/
def fingerprintFile (f : Str) : Str :=
  copyLoop (fun position => position == int16 DATA_START + 256 * 256 / 2 + 2)
    (fun position => decide (position ≤ int16 DATA_START))
    (words f) (int16 MEMORY_START) 0 ('@' :: DATA_START ++ "\r\n".toList)

def imgOutputLoc : ℕ := int16 DATA_START + 0x10000 / 2 + 2

/-- The image file, for the text of the dump. -/
def imageFile (f : Str) : Str :=
  copyLoop (fun position => decide (position > imgOutputLoc + 30800))
    (fun position => decide (position ≤ imgOutputLoc))
    (words f) (int16 MEMORY_START) 0 ('@' :: formatX imgOutputLoc ++ "\r\n".toList)

/-! ## Looking for the delay -/

/-- The loop `while (words[last_delay+6]!='FF')`; every round reads a later word, so the number of
    words bounds the number of rounds. -/
def delayLoop (words : List Str) : ℕ → ℕ → Except Stop ℕ
  | 0, _ => .error .outOfFuel
  | fuel + 1, last_delay =>
    match words[last_delay + 6]? with
    | none => raise .indexError
    | some word =>
      if word ≠ "FF".toList then delayLoop words fuel (last_delay + 6) else .ok last_delay

/-- `delayLow` and `delayHigh`, for the text of the dump. -/
def findDelay (f : Str) : Except Stop (Str × Str) := do
  let ws := words f
  let last_delay ← delayLoop ws (ws.length + 1) (int16 DATA_START - int16 MEMORY_START + 1)
  match ws[last_delay + 1]?, ws[last_delay]? with
  | some delayHigh, some delayLow => .ok (delayLow, delayHigh)
  | _, _ => raise .indexError

/-! ## The dump -/

/-- A hexadecimal digit as the dump writes it. -/
def hexChar (n : ℕ) : Char := if n < 10 then Char.ofNat (48 + n) else Char.ofNat (55 + n)

/-- The token of a byte. -/
def hexToken (b : BitVec 8) : Str := [hexChar (b.toNat / 16), hexChar (b.toNat % 16)]

/-- The tokens of the bytes from an address on. -/
def byteTokens (mem : ℕ → BitVec 8) (address count : ℕ) : List Str :=
  (List.range count).map fun i => hexToken (mem (address + i))

/-- **The words of a dump** of the flash up to the address `stop`. -/
def dumpWords (mem : ℕ → BitVec 8) (stop : ℕ) : List Str :=
  ('@' :: MEMORY_START) :: (byteTokens mem (int16 MEMORY_START)
    (stop - int16 MEMORY_START) ++ ["q".toList])

/-- A text with these words. -/
def dumpText (mem : ℕ → BitVec 8) (stop : ℕ) : Str := (dumpWords mem stop).flatMap fun w => w ++ [' ']

theorem length_byteTokens (mem : ℕ → BitVec 8) (address count : ℕ) :
    (byteTokens mem address count).length = count := by
  rw [byteTokens, List.length_map, List.length_range]

/-- The address word, the bytes and the final `q`. -/
theorem length_dumpWords (mem : ℕ → BitVec 8) (stop : ℕ) :
    (dumpWords mem stop).length = stop - int16 MEMORY_START + 2 := by
  rw [dumpWords, List.length_cons, List.length_append, length_byteTokens, List.length_singleton]

theorem hexChar_facts : ∀ n < 16, isSpace (hexChar n) = false ∧ hexValue (hexChar n) = n := by decide

theorem isWord_hexToken (b : BitVec 8) : IsWord (hexToken b) := by
  have hb : b.toNat < 256 := b.isLt
  refine ⟨List.cons_ne_nil _ _, ?_⟩
  intro c hc
  rcases List.mem_cons.mp hc with rfl | hc
  · exact (hexChar_facts _ (by omega)).1
  · rw [List.mem_singleton.mp hc]
    exact (hexChar_facts _ (by omega)).1

/-- Reading a token gives back the byte. -/
theorem int16_hexToken (b : BitVec 8) : int16 (hexToken b) = b.toNat := by
  have hb : b.toNat < 256 := b.isLt
  show 16 * (16 * 0 + hexValue (hexChar (b.toNat / 16))) + hexValue (hexChar (b.toNat % 16)) = _
  rw [(hexChar_facts _ (by omega)).2, (hexChar_facts _ (by omega)).2]
  omega

/-- Different bytes have different tokens. -/
theorem hexToken_inj {a b : BitVec 8} : hexToken a = hexToken b ↔ a = b := by
  refine ⟨fun h => BitVec.eq_of_toNat_eq ?_, fun h => h ▸ rfl⟩
  rw [← int16_hexToken a, ← int16_hexToken b, h]

theorem isWord_of_mem_dumpWords {mem : ℕ → BitVec 8} {stop : ℕ} {w : Str}
    (h : w ∈ dumpWords mem stop) : IsWord w := by
  rcases List.mem_cons.mp h with rfl | h
  · decide
  · rcases List.mem_append.mp h with h | h
    · obtain ⟨i, -, rfl⟩ := List.mem_map.mp h
      exact isWord_hexToken _
    · rw [List.mem_singleton.mp h]
      decide

@[simp] theorem words_dumpText (mem : ℕ → BitVec 8) (stop : ℕ) :
    words (dumpText mem stop) = dumpWords mem stop :=
  words_flatMap fun _ h => isWord_of_mem_dumpWords h

/-! ## The words of a result file -/

/-- The words the copying loop writes. -/
def copied (stop skip : ℕ → Bool) : List Str → ℕ → List Str
  | [], _ => []
  | word :: words, position =>
    if stop position then ["q".toList]
    else if skip position then copied stop skip words (position + 1)
    else word :: copied stop skip words (position + 1)

variable {stop skip : ℕ → Bool} {ws : List Str}

/-- What has been written stays at the front. -/
theorem copyLoop_append (ws : List Str) (position linePos : ℕ) (r r' : Str) :
    copyLoop stop skip ws position linePos (r ++ r') =
      r ++ copyLoop stop skip ws position linePos r' := by
  induction ws generalizing position linePos r' with
  | nil => rfl
  | cons word ws ih =>
    rw [copyLoop, copyLoop]
    split
    · rw [List.append_assoc]
    · split
      · exact ih _ _ _
      · dsimp only
        split
        · rw [List.append_assoc, List.append_assoc, ih, List.append_assoc]
        · rw [List.append_assoc, List.append_assoc, ih, List.append_assoc]

/-- **The words written are the words copied**: each is closed by a blank or by a line end. -/
theorem words_copyLoop (hws : ∀ w ∈ ws, IsWord w) (position linePos : ℕ) :
    words (copyLoop stop skip ws position linePos []) = copied stop skip ws position := by
  induction ws generalizing position linePos with
  | nil => exact words_nil
  | cons word ws ih =>
    have hword := hws word List.mem_cons_self
    have hrest : ∀ w ∈ ws, IsWord w := fun w hw => hws w (List.mem_cons_of_mem _ hw)
    rw [copyLoop, copied]
    split
    · decide
    · split
      · exact ih hrest _ _
      · dsimp only
        -- a line end after every sixteenth word, else a blank
        split
        · have happend : [] ++ word ++ "\r\n".toList = (word ++ "\r\n".toList) ++ [] := by simp
          rw [happend, copyLoop_append, List.append_assoc]
          show words (word ++ '\r' :: '\n' :: copyLoop stop skip ws (position + 1) 0 []) = _
          rw [words_append_cons hword (by decide), words_cons_space (by decide), ih hrest]
        · have happend : [] ++ word ++ " ".toList = (word ++ " ".toList) ++ [] := by simp
          rw [happend, copyLoop_append, List.append_assoc]
          show words (word ++ ' ' :: copyLoop stop skip ws (position + 1) (linePos + 1) []) = _
          rw [words_append_cons hword (by decide), ih hrest]

/-- The words of a whole result file: the header and the words copied. -/
theorem words_copyLoop_header {header : Str} (hheader : IsWord header) (hws : ∀ w ∈ ws, IsWord w)
    (position : ℕ) :
    words (copyLoop stop skip ws position 0 (header ++ "\r\n".toList)) =
      header :: copied stop skip ws position := by
  have happend : header ++ "\r\n".toList = (header ++ "\r\n".toList) ++ [] := by simp
  rw [happend, copyLoop_append, List.append_assoc]
  show words (header ++ '\r' :: '\n' :: copyLoop stop skip ws position 0 []) = _
  rw [words_append_cons hheader (by decide), words_cons_space (by decide), words_copyLoop hws]

/-- The window behind the first word, which is in front of it. -/
theorem slice_cons_of_le {α : Type} {x : α} {xs : List α} {a e p : ℕ} (hpa : p ≤ a) (hpe : p < e) :
    slice (x :: xs) (a + 1 - p) (e - p) = slice xs (a + 1 - (p + 1)) (e - (p + 1)) := by
  have hstep : e - p = (e - (p + 1)) + 1 := by omega
  rw [hstep, slice, slice, List.take_succ_cons, show a + 1 - p = (a + 1 - (p + 1)) + 1 by omega,
    List.drop_succ_cons]

/-- The window with the first word. -/
theorem slice_cons_of_lt {α : Type} {x : α} {xs : List α} {a e p : ℕ} (hap : a < p) (hpe : p < e) :
    slice (x :: xs) (a + 1 - p) (e - p) = x :: slice xs (a + 1 - (p + 1)) (e - (p + 1)) := by
  have hstep : e - p = (e - (p + 1)) + 1 := by omega
  rw [hstep, slice, slice, List.take_succ_cons, show a + 1 - p = 0 by omega,
    show a + 1 - (p + 1) = 0 by omega, List.drop_zero, List.drop_zero]

/-- **The window**: when positions up to `a` are skipped and the loop stops at position `e` and not
    before, the words copied are those at the positions in between. -/
theorem copied_eq (stop skip : ℕ → Bool) (ws : List Str) {a e p : ℕ}
    (hskip : ∀ p, skip p = true ↔ p ≤ a) (hstop : stop e = true) (hgo : ∀ p < e, stop p = false)
    (hpe : p ≤ e) (hlen : e - p < ws.length) :
    copied stop skip ws p = slice ws (a + 1 - p) (e - p) ++ ["q".toList] := by
  induction ws generalizing p with
  | nil => simp at hlen
  | cons word ws ih =>
    rw [copied]
    by_cases hend : p = e
    · -- the loop stops: nothing of the window is left
      rw [hend, if_pos hstop, Nat.sub_self, slice, List.take_zero, List.drop_nil, List.nil_append]
    · have hlt : p < e := by omega
      rw [List.length_cons] at hlen
      have hnext := ih (show p + 1 ≤ e by omega) (by omega)
      rw [if_neg (by rw [hgo p hlt]; decide)]
      by_cases hpa : p ≤ a
      · rw [if_pos ((hskip p).mpr hpa), slice_cons_of_le hpa hlt, hnext]
      · rw [if_neg fun h => hpa ((hskip p).mp h), slice_cons_of_lt (by omega) hlt, hnext,
          List.cons_append]

/-- A window of the dump that starts behind the address word holds the bytes one address before. -/
theorem slice_dumpWords (mem : ℕ → BitVec 8) {stop lo hi : ℕ} (hlo : 1 ≤ lo) (hle : lo ≤ hi)
    (hhi : int16 MEMORY_START + hi ≤ stop + 1) :
    slice (dumpWords mem stop) lo hi = byteTokens mem (int16 MEMORY_START + lo - 1) (hi - lo) := by
  apply List.ext_getElem?
  intro i
  rw [getElem?_slice, byteTokens, List.getElem?_map]
  by_cases hi' : lo + i < hi
  · have hindex : lo + i = (lo + i - 1) + 1 := by omega
    rw [if_pos hi', dumpWords, hindex, List.getElem?_cons_succ, List.getElem?_append_left (by
      rw [length_byteTokens]; omega), byteTokens, List.getElem?_map,
      List.getElem?_range (by omega), List.getElem?_range (by omega), Option.map_some,
      Option.map_some, show int16 MEMORY_START + (lo + i - 1) =
        int16 MEMORY_START + lo - 1 + i by omega]
  · rw [if_neg hi', List.getElem?_eq_none (by rw [List.length_range]; omega), Option.map_none]

/-- **A result file cut out of a dump**: when positions up to `a` are skipped and the loop stops at
    position `e` and not before, the file holds the bytes from address `a` on, up to the one at
    `e - 2`. -/
theorem words_copyLoop_dumpWords (mem : ℕ → BitVec 8) (last : ℕ) {header : Str}
    (hheader : IsWord header) (stop skip : ℕ → Bool) {a e : ℕ} (hskip : ∀ p, skip p = true ↔ p ≤ a)
    (hstop : stop e = true) (hgo : ∀ p < e, stop p = false) (ha : int16 MEMORY_START ≤ a)
    (hae : a < e) (he : e ≤ last + 1) :
    words (copyLoop stop skip (dumpWords mem last) (int16 MEMORY_START) 0 (header ++ "\r\n".toList)) =
      header :: (byteTokens mem a (e - a - 1) ++ ["q".toList]) := by
  generalize hstart : int16 MEMORY_START = start at ha
  have hlen := length_dumpWords mem last
  rw [hstart] at hlen
  have hcopied := copied_eq stop skip (dumpWords mem last) hskip hstop hgo (p := start)
    (by omega) (by omega)
  rw [words_copyLoop_header hheader fun _ h => isWord_of_mem_dumpWords h, hcopied,
    slice_dumpWords mem (by omega) (by omega) (by omega), hstart,
    show start + (a + 1 - start) - 1 = a by omega, show e - start - (a + 1 - start) =
      e - a - 1 by omega]

/-- A result file that starts at an address and ends a number of positions behind it: as the address
    word counts as a position, it has one byte less. -/
theorem words_copyLoop_from (mem : ℕ → BitVec 8) {last : ℕ} {header : Str}
    (hheader : IsWord header) {start n : ℕ} (hstart : int16 MEMORY_START ≤ start) (hn : 1 ≤ n)
    (hlast : start + n ≤ last + 1) :
    words (copyLoop (fun position => position == start + n)
        (fun position => decide (position ≤ start)) (dumpWords mem last) (int16 MEMORY_START) 0
          (header ++ "\r\n".toList)) =
      header :: (byteTokens mem start (n - 1) ++ ["q".toList]) := by
  have hgo : ∀ p < start + n, (p == start + n) = false := by
    intro p hp
    rw [beq_eq_false_iff_ne]
    omega
  have hwindow := words_copyLoop_dumpWords mem last hheader (fun position => position == start + n)
    (fun position => decide (position ≤ start)) (fun p => decide_eq_true_iff)
      (beq_self_eq_true _) hgo hstart
    (by omega) hlast
  rwa [Nat.add_sub_cancel_left] at hwindow

end ProbableCause
