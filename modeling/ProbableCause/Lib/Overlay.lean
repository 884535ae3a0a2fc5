import Mathlib.Data.List.Basic
import Mathlib.Order.Lattice

/-!
# `Lib.Overlay` — laying two lists over each other at given positions

Two lists `p`, `q` are aligned so that position `k` of `p` meets position `l` of `q`, and are merged
into one: an entry of `p` where `p` has one, an entry of `q` where only `q` has one.
`stitch p k q l` does this in two parts, as a program would that copies the longer front first and
then walks both lists until both end: the front (`lead`) and the rest (`overlay`). `stitch?` is the
same with reads that may fall off the end of a list (`none`).

The front is taken from the list whose position is larger; when the two positions are *equal* there
is no longer front and `stitch` takes none.
-/

namespace Overlay

variable {α : Type}

/-! ## Reads that may fail -/

/-- The entries at `0, …, k-1`; `none` past the end. -/
def readUpTo (p : List α) (k : ℕ) : List (Option α) := (List.range k).map fun i => p[i]?

/-- The entries before the first `none`. -/
def leading (l : List (Option α)) : List α := (l.takeWhile Option.isSome).filterMap id

@[simp] theorem leading_nil : leading ([] : List (Option α)) = [] := rfl
@[simp] theorem leading_none (l : List (Option α)) : leading (none :: l) = [] := rfl

@[simp] theorem leading_some (a : α) (l : List (Option α)) :
    leading (some a :: l) = a :: leading l := by simp [leading]

@[simp] theorem leading_map_some_append (p : List α) (l : List (Option α)) :
    leading (p.map some ++ l) = p ++ leading l := by
  induction p with
  | nil => rfl
  | cons a p ih => simp [ih]

@[simp] theorem leading_map_some (p : List α) : leading (p.map some) = p := by
  simpa using leading_map_some_append p []

theorem readUpTo_succ (p : List α) (k : ℕ) : readUpTo p (k + 1) = readUpTo p k ++ [p[k]?] := by
  simp [readUpTo, List.range_succ]

/-- Within the list every read succeeds. -/
theorem readUpTo_of_le {p : List α} {k : ℕ} (h : k ≤ p.length) :
    readUpTo p k = (p.take k).map some := by
  induction k with
  | zero => rfl
  | succ k ih =>
    rw [readUpTo_succ, ih (by omega), List.take_add_one, List.getElem?_eq_getElem (by omega),
      List.map_append]
    rfl

/-- Past the end of the list the first failing read comes right after the last entry. -/
theorem readUpTo_of_lt {p : List α} {k : ℕ} (h : p.length < k) :
    ∃ l, readUpTo p k = p.map some ++ none :: l := by
  induction k with
  | zero => omega
  | succ k ih =>
    rw [readUpTo_succ]
    rcases Nat.lt_or_ge p.length k with hk | hk
    · obtain ⟨l, hl⟩ := ih hk
      exact ⟨l ++ [p[k]?], by rw [hl]; simp⟩
    · rw [readUpTo_of_le hk, List.take_of_length_le (by omega), List.getElem?_eq_none (by omega)]
      exact ⟨[], rfl⟩

/-! ## The overlay of two lists that start together -/

/-- The entries of `a`, and of `b` from where `a` ends. -/
def overlay (a b : List α) : List α := a ++ b.drop a.length

@[simp] theorem overlay_nil_left (b : List α) : overlay [] b = b := by simp [overlay]

theorem overlay_cons_left (x : α) (a b : List α) : overlay (x :: a) b = x :: overlay a b.tail := by
  simp [overlay, List.drop_tail]

@[simp] theorem length_overlay (a b : List α) :
    (overlay a b).length = max a.length b.length := by
  simp only [overlay, List.length_append, List.length_drop]
  omega

/-- The overlay of two lists read from positions `k` and `l` on, one entry further. -/
theorem overlay_drop_of_some {p q : List α} {k l : ℕ} {x : α} (h : p[k]? = some x) :
    overlay (p.drop k) (q.drop l) = x :: overlay (p.drop (k + 1)) (q.drop (l + 1)) := by
  obtain ⟨hk, hx⟩ := List.getElem?_eq_some_iff.mp h
  rw [List.drop_eq_getElem_cons hk, hx, overlay_cons_left, List.tail_drop]

theorem overlay_drop_of_none {p q : List α} {k l : ℕ} {y : α} (h : p[k]? = none)
    (h' : q[l]? = some y) :
    overlay (p.drop k) (q.drop l) = y :: overlay (p.drop (k + 1)) (q.drop (l + 1)) := by
  have hk : p.length ≤ k := List.getElem?_eq_none_iff.mp h
  obtain ⟨hl, hy⟩ := List.getElem?_eq_some_iff.mp h'
  rw [List.drop_of_length_le hk, List.drop_of_length_le (Nat.le_succ_of_le hk), overlay_nil_left,
    overlay_nil_left, List.drop_eq_getElem_cons hl, hy]

theorem overlay_drop_of_none_none {p q : List α} {k l : ℕ} (h : p[k]? = none) (h' : q[l]? = none) :
    overlay (p.drop k) (q.drop l) = [] := by
  rw [List.drop_of_length_le (List.getElem?_eq_none_iff.mp h),
    List.drop_of_length_le (List.getElem?_eq_none_iff.mp h'), overlay_nil_left]

/-- An entry of the overlay: of the first list if it has one, else of the second. -/
theorem getElem?_overlay (a b : List α) (i : ℕ) : (overlay a b)[i]? = a[i]?.or b[i]? := by
  rw [overlay, List.getElem?_append]
  by_cases hi : i < a.length
  · rw [if_pos hi, List.getElem?_eq_getElem hi, Option.some_or]
  · have hnone : a[i]? = none := List.getElem?_eq_none (Nat.le_of_not_lt hi)
    rw [if_neg hi, hnone, Option.none_or, List.getElem?_drop,
      Nat.add_sub_cancel' (Nat.le_of_not_lt hi)]

/-! ## Stitching -/

/-- The front of the merged list, read entry by entry. -/
def lead? (p : List α) (k : ℕ) (q : List α) (l : ℕ) : List (Option α) :=
  if k < l then readUpTo q l else if l < k then readUpTo p k else []

/-- The front of the merged list. -/
def lead (p : List α) (k : ℕ) (q : List α) (l : ℕ) : List α :=
  if k < l then q.take l else if l < k then p.take k else []

/-- The merged list as it is read: front and overlay. -/
def stitch? (p : List α) (k : ℕ) (q : List α) (l : ℕ) : List (Option α) :=
  lead? p k q l ++ (overlay (p.drop k) (q.drop l)).map some

/-- The merged list. -/
def stitch (p : List α) (k : ℕ) (q : List α) (l : ℕ) : List α :=
  lead p k q l ++ overlay (p.drop k) (q.drop l)

variable {p q : List α} {k l : ℕ}

/-- **All reads succeed** when the larger position lies inside (or at the end of) its list. -/
theorem stitch?_eq_map_some (hq : l ≤ q.length) (hp : k ≤ l ∨ k ≤ p.length) :
    stitch? p k q l = (stitch p k q l).map some := by
  rw [stitch?, stitch, List.map_append, lead?, lead]
  split
  · rw [readUpTo_of_le hq]
  · split
    · rw [readUpTo_of_le (by omega)]
    · rfl

/-- **A read fails** when the front is taken from `p` and `p` is too short; what was read before is
    all of `p`. -/
theorem stitch?_of_short (hlk : l < k) (hp : p.length < k) :
    ∃ r, stitch? p k q l = p.map some ++ none :: r := by
  obtain ⟨r, hr⟩ := readUpTo_of_lt hp
  exact ⟨r ++ _, by
    rw [stitch?, lead?, if_neg (by omega), if_pos hlk, hr, List.append_assoc, List.cons_append]⟩

/-- The length of the front: equal positions lose it. -/
def frontLen (k l : ℕ) : ℕ := if k = l then 0 else max k l

theorem frontLen_of_ne (h : k ≠ l) : frontLen k l = max k l := if_neg h

theorem length_lead (hq : l ≤ q.length) (hp : k ≤ l ∨ k ≤ p.length) :
    (lead p k q l).length = frontLen k l := by
  rw [lead, frontLen]
  split
  · rw [List.length_take, if_neg (by omega)]
    omega
  · split
    · rw [List.length_take, if_neg (by omega)]
      omega
    · rw [if_pos (by omega), List.length_nil]

/-- The length of the merged list: equal positions lose their common front. -/
def stitchLen (m k n l : ℕ) : ℕ := (if k = l then 0 else max k l) + max (m - k) (n - l)

theorem length_stitch (hq : l ≤ q.length) (hp : k ≤ l ∨ k ≤ p.length) :
    (stitch p k q l).length = stitchLen p.length k q.length l := by
  rw [stitch, List.length_append, length_lead hq hp, length_overlay, List.length_drop,
    List.length_drop]
  rfl

/-- The entries before the larger position, if the two differ: those of the list with the longer
front. -/
theorem getElem?_stitch_of_lt {i : ℕ} (hne : k ≠ l) (hq : l ≤ q.length)
    (hp : k ≤ l ∨ k ≤ p.length) (hi : i < max k l) :
    (stitch p k q l)[i]? = if k < l then q[i]? else p[i]? := by
  have hlead := length_lead hq hp
  rw [frontLen_of_ne hne] at hlead
  rw [stitch, List.getElem?_append_left (hlead ▸ hi), lead]
  split
  · rw [List.getElem?_take_of_lt (by omega)]
  · rw [if_pos (show l < k by omega), List.getElem?_take_of_lt (by omega)]

/-- The entries behind the front: those of the first list from its position on, else those of the
second. -/
theorem getElem?_stitch_front (hq : l ≤ q.length) (hp : k ≤ l ∨ k ≤ p.length) (i : ℕ) :
    (stitch p k q l)[frontLen k l + i]? = p[k + i]?.or q[l + i]? := by
  rw [stitch, ← length_lead hq hp, List.getElem?_append_right (Nat.le_add_right _ _),
    Nat.add_sub_cancel_left, getElem?_overlay, List.getElem?_drop, List.getElem?_drop]

/-- The entries from there on: those of the first list, else those of the second. -/
theorem getElem?_stitch_of_ge {i : ℕ} (hpos : k = l → k = 0) (hq : l ≤ q.length) (hp : k ≤ p.length)
    (hi : max k l ≤ i) :
    (stitch p k q l)[i]? = p[i - (max k l - k)]?.or q[i - (max k l - l)]? := by
  have hfront : frontLen k l = max k l := by
    rw [frontLen]
    split <;> omega
  have hentry := getElem?_stitch_front hq (.inr hp) (i - max k l)
  rwa [hfront, Nat.add_sub_cancel' hi, show k + (i - max k l) = i - (max k l - k) by omega,
    show l + (i - max k l) = i - (max k l - l) by omega] at hentry

/-! ### Where the entries go -/

/-- Where entry `x` of the first list stands in the merged list; `none` if it is left out. -/
def fromFirst (k l x : ℕ) : Option ℕ :=
  if k ≤ x then some (frontLen k l + (x - k)) else if l < k then some x else none

/-- Where entry `y` of the second list stands in the merged list; `none` if it is left out. -/
def fromSecond (k l y : ℕ) : Option ℕ :=
  if l ≤ y then some (frontLen k l + (y - l)) else if k < l then some y else none

theorem fromFirst_self (k l : ℕ) : fromFirst k l k = some (frontLen k l) := by
  rw [fromFirst, if_pos (Nat.le_refl k), Nat.sub_self, Nat.add_zero]

/-- The two entries at the positions given meet. -/
theorem fromSecond_self (k l : ℕ) : fromSecond k l l = fromFirst k l k := by
  rw [fromFirst_self, fromSecond, if_pos (Nat.le_refl l), Nat.sub_self, Nat.add_zero]

/-- Behind a longer front of its own the first list stays where it is. -/
theorem fromFirst_of_lt (h : l < k) (x : ℕ) : fromFirst k l x = some x := by
  have hfront : frontLen k l = k := by
    rw [frontLen, if_neg (Nat.ne_of_gt h), max_eq_left (Nat.le_of_lt h)]
  rw [fromFirst, hfront, if_pos h]
  split
  · next hx => rw [Nat.add_sub_cancel' hx]
  · rfl

/-- Laid at its start it moves as a whole. -/
theorem fromFirst_zero (l x : ℕ) : fromFirst 0 l x = some (x + l) := by
  have hfront : frontLen 0 l = l := by
    rw [frontLen]
    split <;> omega
  rw [fromFirst, if_pos (Nat.zero_le x), hfront, Nat.sub_zero, Nat.add_comm]

/-- An entry before the position is kept only if the front is that of the first list. -/
theorem lt_of_fromFirst {x j : ℕ} (hx : x < k) (h : fromFirst k l x = some j) : l < k := by
  rw [fromFirst, if_neg (Nat.not_le_of_lt hx)] at h
  by_contra hlk
  rw [if_neg hlk] at h
  cases h

/-- The order of the entries is kept. -/
theorem fromFirst_lt {x y i j : ℕ} (hxy : x < y) (hx : fromFirst k l x = some i)
    (hy : fromFirst k l y = some j) : i < j := by
  unfold fromFirst frontLen at hx hy
  grind

/-- **An entry of the first list** is what stands at its place. -/
theorem getElem?_stitch_fromFirst {x j : ℕ} (hq : l ≤ q.length) (hp : k ≤ l ∨ k ≤ p.length)
    (hx : x < p.length) (h : fromFirst k l x = some j) : (stitch p k q l)[j]? = p[x]? := by
  rw [fromFirst] at h
  split at h
  · next hkx =>
    obtain rfl := Option.some.inj h
    rw [getElem?_stitch_front hq hp, Nat.add_sub_cancel' hkx, List.getElem?_eq_getElem hx,
      Option.some_or]
  · next hkx =>
    split at h
    · next hlk =>
      obtain rfl := Option.some.inj h
      rw [getElem?_stitch_of_lt (by omega) hq hp (by omega), if_neg (by omega)]
    · cases h

/-- **An entry of the second list** stands at its place, or an entry of the first list does. -/
theorem getElem?_stitch_fromSecond {y j : ℕ} (hq : l ≤ q.length) (hp : k ≤ l ∨ k ≤ p.length)
    (h : fromSecond k l y = some j) :
    (stitch p k q l)[j]? = q[y]? ∨ ∃ x < p.length, fromFirst k l x = some j := by
  rw [fromSecond] at h
  split at h
  · next hly =>
    obtain rfl := Option.some.inj h
    by_cases hx : k + (y - l) < p.length
    · refine .inr ⟨k + (y - l), hx, ?_⟩
      rw [fromFirst, if_pos (Nat.le_add_right k _), Nat.add_sub_cancel_left]
    · refine .inl ?_
      rw [getElem?_stitch_front hq hp, List.getElem?_eq_none (Nat.le_of_not_lt hx),
        Option.none_or, Nat.add_sub_cancel' hly]
  · next hly =>
    split at h
    · next hkl =>
      obtain rfl := Option.some.inj h
      exact .inl (by rw [getElem?_stitch_of_lt (by omega) hq hp (by omega), if_pos hkl])
    · cases h

/-- A list over itself. -/
theorem stitch?_self (p : List α) : stitch? p 0 p 0 = p.map some := by
  simp [stitch?, lead?, overlay]

/-- Merging invents nothing. -/
theorem mem_of_mem_stitch {x : α} (h : x ∈ stitch p k q l) : x ∈ p ∨ x ∈ q := by
  rw [stitch, List.mem_append, lead, overlay, List.mem_append] at h
  rcases h with h | h | h
  · split at h
    · exact Or.inr (List.mem_of_mem_take h)
    · split at h
      · exact Or.inl (List.mem_of_mem_take h)
      · simp at h
  · exact Or.inl (List.mem_of_mem_drop h)
  · exact Or.inr (List.mem_of_mem_drop (List.mem_of_mem_drop h))

/-- A position of `q` inside `q` leaves something to merge. -/
theorem stitch_ne_nil (hl : l < q.length) : stitch p k q l ≠ [] := by
  intro h
  have hlen := congrArg List.length h
  rw [stitch, List.length_append, length_overlay, List.length_drop, List.length_drop] at hlen
  simp only [List.length_nil] at hlen
  omega

/-! ## Slices of one sequence

Two slices of one sequence that are aligned where they overlap are stitched to the slice of their
union, provided one of the two positions is `0` (a front of equal positions would be lost). -/

/-- The entries `lo, …, hi-1`. -/
def slice (s : List α) (lo hi : ℕ) : List α := (s.take hi).drop lo

variable {s : List α} {lo hi : ℕ}

theorem getElem?_slice (s : List α) (lo hi i : ℕ) :
    (slice s lo hi)[i]? = if lo + i < hi then s[lo + i]? else none := by
  rw [slice, List.getElem?_drop, List.getElem?_take]

theorem length_slice (h : hi ≤ s.length) : (slice s lo hi).length = hi - lo := by
  rw [slice, List.length_drop, List.length_take, min_eq_left h]

theorem slice_sublist (s : List α) (lo hi : ℕ) : (slice s lo hi).Sublist s :=
  (List.drop_sublist _ _).trans (List.take_sublist _ _)

theorem mem_slice {x : α} : x ∈ slice s lo hi ↔ ∃ i, lo ≤ i ∧ i < hi ∧ s[i]? = some x := by
  rw [List.mem_iff_getElem?]
  constructor
  · rintro ⟨i, hi'⟩
    rw [getElem?_slice] at hi'
    split at hi'
    · next hlt => exact ⟨lo + i, Nat.le_add_right _ _, hlt, hi'⟩
    · cases hi'
  · rintro ⟨i, h1, h2, hx⟩
    refine ⟨i - lo, ?_⟩
    rw [getElem?_slice, Nat.add_sub_cancel' h1, if_pos h2, hx]

theorem drop_slice (s : List α) (lo hi k : ℕ) : (slice s lo hi).drop k = slice s (lo + k) hi := by
  rw [slice, List.drop_drop, slice]

theorem take_slice {k : ℕ} (h : lo + k ≤ hi) : (slice s lo hi).take k = slice s lo (lo + k) := by
  rw [slice, slice, List.take_drop, List.take_take, min_eq_left h]

theorem slice_append_slice {m : ℕ} (h1 : lo ≤ m) (h2 : m ≤ hi) :
    slice s lo m ++ slice s m hi = slice s lo hi := by
  have hm : slice s lo m = (slice s lo hi).take (m - lo) := by
    rw [take_slice (by omega), Nat.add_sub_cancel' h1]
  have hd : slice s m hi = (slice s lo hi).drop (m - lo) := by
    rw [drop_slice, Nat.add_sub_cancel' h1]
  rw [hm, hd, List.take_append_drop]

/-- Two slices that start together. -/
theorem overlay_slice {m e h : ℕ} (hm : m ≤ e) (he : e ≤ s.length) :
    overlay (slice s m e) (slice s m h) = slice s m (max e h) := by
  rw [overlay, length_slice he, drop_slice, Nat.add_sub_cancel' hm]
  rcases le_total e h with heh | hhe
  · rw [max_eq_right heh, slice_append_slice hm heh]
  · have hnil : slice s e h = [] := List.drop_of_length_le (by rw [List.length_take]; omega)
    rw [max_eq_left hhe, hnil, List.append_nil]

/-- **Stitching two aligned slices** gives the slice of their union. -/
theorem stitch_slice {a e h : ℕ} (hpos : k = 0 ∨ l = 0) (halign : a + k = lo + l)
    (hke : a + k ≤ e) (hlh : lo + l ≤ h) (he : e ≤ s.length) :
    stitch (slice s a e) k (slice s lo h) l = slice s (min a lo) (max e h) := by
  have hrest : overlay ((slice s a e).drop k) ((slice s lo h).drop l)
      = slice s (a + k) (max e h) := by
    rw [drop_slice, drop_slice, ← halign, overlay_slice hke he]
  have hfront : lead (slice s a e) k (slice s lo h) l = slice s (min a lo) (a + k) := by
    rw [lead]
    rcases Nat.lt_trichotomy k l with hkl | rfl | hlk
    · rw [if_pos hkl, take_slice hlh, halign, min_eq_right (by omega)]
    · have hnil : slice s (min a lo) (a + k) = [] :=
        List.drop_of_length_le (by rw [List.length_take]; omega)
      rw [if_neg (lt_irrefl k), if_neg (lt_irrefl k), hnil]
    · rw [if_neg (by omega), if_pos hlk, take_slice hke, min_eq_left (by omega)]
  rw [stitch, hrest, hfront, slice_append_slice (by omega) (by omega)]

end Overlay
