import ProbableCause.ResultProcessing.Dump

/-!
# `ResultProcessing.RemoveDelay` — `removeDelayFromFingerprint`

A fingerprint starts with the two bytes of its delay. The program puts the data bytes of a dump into
one list, drops the first two and prints the others, 16 on a line, with a header and a footer.
`Shows p items` is what the printing loop keeps: reading back the text so far gives `items`, some of
them on a line that is still open. The footer closes that line with two bytes of its own, so it is
never short enough to be ignored (`readBytes_main`).
-/

namespace ProbableCause.RemoveDelayFromFingerprint

open Text Java

/-! ## The program -/

/-- `while((line1 = file1.readLine()) != null)`: the bytes of the lines that contain data. -/
def readBytes (file1 : List Str) : List Str :=
  file1.flatMap fun line1 => if ignoreLine line1 then [] else split line1

/-- What is printed, and how many bytes are on the last line. -/
structure Printing where
  out : Str
  count : ℕ

/-- The body of the printing loop. -/
def printItem (p : Printing) (item : Str) : Printing :=
  if p.count = 15 then ⟨p.out ++ item ++ "\n".toList, 0⟩
    else ⟨p.out ++ item ++ " ".toList, p.count + 1⟩

def header : Str := "@FFFF\n".toList

def footer : Str := "FF ".toList ++ "FF\n".toList ++ "FF\n".toList ++ "q\n".toList

/-- What the program prints for a file. With fewer than two bytes, `byteList.remove(0)` is an
exception. -/
def main (text : Str) : Option Str :=
  match readBytes (lines text) with
  | _ :: _ :: byteList => some ((byteList.foldl printItem ⟨header, 0⟩).out ++ footer)
  | _ => none

/-! ## Reading back what is printed -/

/-- Reading the text of `p` back gives `items`; the last of them are on a line that is not ended. -/
def Shows (p : Printing) (items : List Str) : Prop :=
  ∃ ls cur : List Str, p.out = unlines ls ++ cur.flatMap (fun t => t ++ [' ']) ∧
    p.count = cur.length ∧ p.count ≤ 15 ∧ readBytes ls ++ cur = items ∧ (∀ l ∈ ls, OneLine l) ∧
    ∀ t ∈ cur, (hexByte? t).isSome

theorem readBytes_append (ls ls' : List Str) :
    readBytes (ls ++ ls') = readBytes ls ++ readBytes ls' :=
  List.flatMap_append

/-- Bytes on a line of their own are read back, if there are at least two. -/
theorem readBytes_unwords {ts : List Str} (hlength : 2 ≤ ts.length)
    (h : ∀ t ∈ ts, (hexByte? t).isSome) :
    readBytes [unwords ts] = ts := by
  have hne : ts ≠ [] := List.ne_nil_of_length_pos (by omega)
  rw [readBytes, List.flatMap_singleton, ignoreLine_unwords hlength h, split_unwords_hexBytes hne h]
  rfl

/-- The header carries no data. -/
theorem shows_header : Shows ⟨header, 0⟩ [] :=
  ⟨["@FFFF".toList], [], by decide, rfl, Nat.zero_le _, by decide, by decide, by simp⟩

/-- One round of the printing loop. -/
theorem Shows.printItem {p : Printing} {items : List Str} (h : Shows p items) {item : Str}
    (hitem : (hexByte? item).isSome) : Shows (printItem p item) (items ++ [item]) := by
  obtain ⟨ls, cur, hout, hcount, hle, rfl, hls, hcur⟩ := h
  have hall : ∀ t ∈ cur ++ [item], (hexByte? t).isSome :=
    List.forall_mem_append.mpr ⟨hcur, List.forall_mem_singleton.mpr hitem⟩
  rw [RemoveDelayFromFingerprint.printItem]
  split
  · -- the line is full
    have hlength : 2 ≤ (cur ++ [item]).length := by
      rw [List.length_append, ← hcount]
      omega
    refine ⟨ls ++ [unwords (cur ++ [item])], [], ?_, rfl, Nat.zero_le _, ?_, ?_, by simp⟩
    · rw [hout, unlines_append, unlines_cons, unlines_nil, unwords_concat, List.flatMap_nil]
      simp
    · rw [readBytes_append, readBytes_unwords hlength hall, List.append_nil, List.append_assoc]
    · exact List.forall_mem_append.mpr ⟨hls, List.forall_mem_singleton.mpr (oneLine_hexBytes hall)⟩
  · refine ⟨ls, cur ++ [item], ?_, ?_, ?_, ?_, hls, hall⟩
    · rw [hout, List.flatMap_append, List.flatMap_singleton, List.append_assoc, List.append_assoc]
      rfl
    · rw [List.length_append, ← hcount]
      rfl
    · dsimp only
      omega
    · rw [List.append_assoc]

/-- The printing loop. -/
theorem Shows.foldl {byteList : List Str}
    (hbytes : ∀ t ∈ byteList, (hexByte? t).isSome) {p : Printing} {items : List Str}
    (h : Shows p items) :
    Shows (byteList.foldl RemoveDelayFromFingerprint.printItem p) (items ++ byteList) := by
  induction byteList generalizing p items with
  | nil => rwa [List.append_nil]
  | cons item byteList ih =>
    have hrest := ih (fun t ht => hbytes t (List.mem_cons_of_mem _ ht))
      (h.printItem (hbytes item List.mem_cons_self))
    rwa [List.append_assoc] at hrest

/-- The footer adds two bytes, and a short line and a terminator that are ignored. -/
theorem Shows.footer {p : Printing} {items : List Str} (h : Shows p items) :
    readBytes (lines (p.out ++ footer)) = items ++ ["FF".toList, "FF".toList] := by
  obtain ⟨ls, cur, hout, -, -, rfl, hls, hcur⟩ := h
  have hall : ∀ t ∈ cur ++ ["FF".toList, "FF".toList], (hexByte? t).isSome :=
    List.forall_mem_append.mpr ⟨hcur, by decide⟩
  have hlength : 2 ≤ (cur ++ ["FF".toList, "FF".toList]).length := by
    rw [List.length_append]
    exact Nat.le_add_left _ _
  have hlast : unwords (cur ++ ["FF".toList, "FF".toList]) =
      cur.flatMap (fun t => t ++ [' ']) ++ "FF FF".toList := by
    rw [List.append_cons, unwords_concat, List.flatMap_append, List.append_assoc]
    rfl
  have htext : p.out ++ RemoveDelayFromFingerprint.footer =
      unlines (ls ++ [unwords (cur ++ ["FF".toList, "FF".toList])] ++ ["FF".toList, "q".toList]) := by
    rw [hout, hlast, unlines_append, unlines_append, unlines_cons, unlines_nil, List.append_assoc,
      List.append_assoc, List.append_assoc, List.append_assoc (cur.flatMap fun t => t ++ [' '])]
    rfl
  have hignored : readBytes ["FF".toList, "q".toList] = [] := by decide
  rw [htext, lines_unlines, readBytes_append, readBytes_append,
    readBytes_unwords hlength hall, hignored, List.append_nil, List.append_assoc]
  exact List.forall_mem_append.mpr ⟨List.forall_mem_append.mpr
    ⟨hls, List.forall_mem_singleton.mpr (oneLine_hexBytes hall)⟩, by decide⟩

/-- **The output is the input without its first two bytes and with two more at the end**, however
    the bytes are spread over the lines. -/
theorem readBytes_main {text : Str} (hbytes : ∀ t ∈ readBytes (lines text), (hexByte? t).isSome)
    (htwo : 2 ≤ (readBytes (lines text)).length) :
    ∃ out, main text = some out ∧
      readBytes (lines out) = (readBytes (lines text)).drop 2 ++ ["FF".toList, "FF".toList] := by
  match hread : readBytes (lines text), htwo with
  | b0 :: b1 :: byteList, _ =>
    rw [hread] at hbytes
    refine ⟨(byteList.foldl printItem ⟨header, 0⟩).out ++ footer, by rw [main, hread], ?_⟩
    have hrest : ∀ t ∈ byteList, (hexByte? t).isSome := fun t ht =>
      hbytes t (List.mem_cons_of_mem _ (List.mem_cons_of_mem _ ht))
    exact (shows_header.foldl hrest).footer

/-- A dump with a line of two bytes and one of three. -/
theorem readBytes_main_five :
    ∃ out, main "@3600\n03 E8\nab CD EF\nq\n".toList = some out ∧
      readBytes (lines out) = ["ab".toList, "CD".toList, "EF".toList, "FF".toList, "FF".toList] :=
  @readBytes_main "@3600\n03 E8\nab CD EF\nq\n".toList (by decide) (by decide)

end ProbableCause.RemoveDelayFromFingerprint
