import ProbableCause.Experiment.Script
import ProbableCause.Lib.Matlab

/-!
# `MatlabPicture.Scale` — `scale.m` and `rscale.m`: an image as a text and back

`scale.m` writes the pixels of an image in hexadecimal, sixteen to a line, as the words of a text
that the programmer of the microcontroller can read; `rscale.m` reads such a text back. `dec2hex`
makes all rows of its result as wide as the largest value needs. So if no pixel is as large as `16`,
there is only one column of digits, and the second digit, which the script takes from the second
column, is an index error. Otherwise the image comes back (`scale_rscale_iff`).

An index error is `none`.
-/

namespace ProbableCause.MatlabPicture

open Text Matlab

/-! ## Numbers and digits -/

/-- The number of digits of the largest value. -/
def hexWidth (values : List ℕ) : ℕ := (values.map fun n => (Nat.toDigits 16 n).length).foldr max 0

/-- The digits, column by column. -/
def hexColumns (values : List ℕ) : List Char :=
  (List.range (hexWidth values)).flatMap fun j => values.map fun n =>
    hexChar (n / 16 ^ (hexWidth values - 1 - j) % 16)

theorem length_hexColumns (values : List ℕ) :
    (hexColumns values).length = values.length * hexWidth values := by
  unfold hexColumns
  rw [List.length_flatMap]
  simp [Nat.mul_comm]

/-- `dec2hex`: a row of digits for each value, with zeros in front. -/
def dec2hex (values : List ℕ) : Mat Char :=
  ⟨values.length, hexWidth values, hexColumns values, length_hexColumns values⟩

/-- `hex2dec`, of one digit. -/
def hex2dec (c : Char) : Option ℕ :=
  if c.isDigit || (decide ('A' ≤ c) && decide (c ≤ 'F')) || (decide ('a' ≤ c) && decide (c ≤ 'f'))
    then some (hexValue c)
  else none

/-- `uint8`: larger numbers saturate. -/
def uint8 (n : ℕ) : BitVec 8 := BitVec.ofNat 8 (min n 255)

/-! ## The scripts -/

/-- The loop `while i<=(200*154)`, with the number of rounds that are left; `file` is what has been
written. -/
def writeLoop (img3 : Mat Char) : ℕ → ℕ → Str → Option Str
  | 0, _, file => some file
  | rounds + 1, i, file => do
    let high ← img3.linear i
    let low ← img3.subscript i 2
    let file := file ++ [high, low, ' ']
    let i := i + 1
    if i % 16 = 1 then writeLoop img3 rounds i (file ++ ['\n']) else writeLoop img3 rounds i file

/-- `scale.m`: the text for an image. -/
def scale (img : Mat (BitVec 8)) : Option Str := do
  let img2 ← img.reshape 1 30800
  let img3 := dec2hex (img2.data.map BitVec.toNat)
  let file ← writeLoop img3 (200 * 154) 1 "@3500\n".toList
  some (file ++ "\nq".toList)

/-- The body of `for i=2:200*154+1`: the two digits of a word. -/
def readWord (res : List Str) (res2 : Mat Char) (i : ℕ) : Option (Mat Char) := do
  let s ← res[i - 1]?
  let first ← s[0]?
  let res2 ← res2.set '\x00' (2 * (i - 1) - 1) first
  let second ← s[1]?
  res2.set '\x00' (2 * (i - 1)) second

/-- The body of `for i=1:200*154`: a pixel from its digits. -/
def readPixel (res2 : Mat Char) (res3 : Mat (BitVec 8)) (i : ℕ) : Option (Mat (BitVec 8)) := do
  let high ← hex2dec (← res2.linear (2 * i - 1))
  let low ← hex2dec (← res2.linear (2 * i))
  res3.set 0 i (uint8 ((uint8 ((uint8 high).toNat * 16)).toNat + (uint8 low).toNat))

/-- `rscale.m`: the image of a text. -/
def rscale (file : Str) : Option (Mat (BitVec 8)) := do
  let res := words file
  let res2 ← (List.range (200 * 154)).foldlM (fun res2 k => readWord res res2 (k + 2)) (Mat.empty 154)
  (List.range (200 * 154)).foldlM (fun res3 k => readPixel res2 res3 (k + 1)) (Mat.const 154 200 0)

/-! ## The digits of pixels -/

/-- A pixel has one digit or two. -/
theorem length_toDigits (p : BitVec 8) :
    (Nat.toDigits 16 p.toNat).length = if 16 ≤ p.toNat then 2 else 1 := by
  revert p
  decide

theorem hexWidth_cons (n : ℕ) (values : List ℕ) :
    hexWidth (n :: values) = max (Nat.toDigits 16 n).length (hexWidth values) := rfl

theorem hexWidth_le (pixels : List (BitVec 8)) : hexWidth (pixels.map BitVec.toNat) ≤ 2 := by
  induction pixels with
  | nil => exact Nat.zero_le 2
  | cons p pixels ih =>
    rw [List.map_cons, hexWidth_cons, length_toDigits]
    refine Nat.max_le.mpr ⟨?_, ih⟩
    split <;> omega

/-- **There are two columns of digits** if and only if some pixel needs two. -/
theorem hexWidth_eq_two_iff (pixels : List (BitVec 8)) :
    hexWidth (pixels.map BitVec.toNat) = 2 ↔ ∃ p ∈ pixels, 16 ≤ p.toNat := by
  induction pixels with
  | nil => exact iff_of_false (by decide) fun ⟨p, hp, _⟩ => List.not_mem_nil hp
  | cons p pixels ih =>
    have hle := hexWidth_le pixels
    rw [List.map_cons, hexWidth_cons, length_toDigits, List.exists_mem_cons_iff, ← ih]
    by_cases hp : 16 ≤ p.toNat
    · rw [if_pos hp]
      exact iff_of_true (by omega) (.inl hp)
    · rw [if_neg hp, or_iff_right hp]
      omega

/-- The two columns. -/
theorem hexColumns_of_two {pixels : List (BitVec 8)} (h : hexWidth (pixels.map BitVec.toNat) = 2) :
    hexColumns (pixels.map BitVec.toNat) =
      pixels.map (fun p => hexChar (p.toNat / 16)) ++ pixels.map fun p => hexChar (p.toNat % 16) := by
  have hhigh : ∀ p : BitVec 8, p.toNat / 16 ^ (2 - 1 - 0) % 16 = p.toNat / 16 := by decide
  have hlow : ∀ p : BitVec 8, p.toNat / 16 ^ (2 - 1 - 1) % 16 = p.toNat % 16 := by decide
  unfold hexColumns
  rw [h]
  simp only [List.map_map, Function.comp_def, List.range_succ, List.range_zero, List.nil_append,
    List.flatMap_append, List.flatMap_singleton, hhigh, hlow]

/-- The digits that the first script takes of pixel `k`. -/
theorem digits_of_two {pixels : List (BitVec 8)} (h : hexWidth (pixels.map BitVec.toNat) = 2) {k : ℕ}
    (hk : k < pixels.length) :
    (dec2hex (pixels.map BitVec.toNat)).linear (k + 1) = some (hexChar (pixels[k].toNat / 16)) ∧
      (dec2hex (pixels.map BitVec.toNat)).subscript (k + 1) 2 =
        some (hexChar (pixels[k].toNat % 16)) := by
  have hlen : (pixels.map BitVec.toNat).length = pixels.length := List.length_map _
  constructor
  · show (hexColumns (pixels.map BitVec.toNat))[k]? = _
    rw [hexColumns_of_two h, List.getElem?_append_left (by rwa [List.length_map]), List.getElem?_map,
      List.getElem?_eq_getElem hk]
    rfl
  · have hin : 1 ≤ k + 1 ∧ k + 1 ≤ (pixels.map BitVec.toNat).length ∧ 1 ≤ 2 ∧
        2 ≤ hexWidth (pixels.map BitVec.toNat) :=
      ⟨Nat.succ_pos k, by rwa [hlen], (by decide), Nat.le_of_eq h.symm⟩
    refine (if_pos hin).trans ?_
    show (hexColumns (pixels.map BitVec.toNat))[1 * (pixels.map BitVec.toNat).length + k]? = _
    rw [hexColumns_of_two h, hlen, Nat.one_mul,
      List.getElem?_append_right (by rw [List.length_map]; exact Nat.le_add_right _ _),
      List.length_map, Nat.add_sub_cancel_left, List.getElem?_map, List.getElem?_eq_getElem hk]
    rfl

/-- With one column there is no second digit. -/
theorem subscript_of_ne_two {pixels : List (BitVec 8)}
    (h : hexWidth (pixels.map BitVec.toNat) ≠ 2) (i : ℕ) :
    (dec2hex (pixels.map BitVec.toNat)).subscript i 2 = none := by
  have hle := hexWidth_le pixels
  unfold Mat.subscript dec2hex
  exact if_neg fun hin => h (Nat.le_antisymm hle hin.2.2.2)

/-! ## The text -/

/-- A token is a word, also at the end of a line. -/
theorem words_token (p : BitVec 8) {line : Str} (hline : line = [] ∨ line = ['\n'])
    (text rest : Str) :
    words (hexToken p ++ ' ' :: (line ++ text) ++ rest) = hexToken p :: words (text ++ rest) := by
  rw [List.append_assoc, List.cons_append, words_append_cons (isWord_hexToken p) (by decide)]
  obtain rfl | rfl := hline
  · rfl
  · exact congrArg (hexToken p :: ·) (words_cons_space (by decide) _)

/-- **The words of the text**: from pixel `k` on, the tokens of the pixels. -/
theorem writeLoop_of_two {pixels : List (BitVec 8)}
    (h : hexWidth (pixels.map BitVec.toNat) = 2) {rounds k : ℕ}
    (hk : k + rounds = pixels.length) (file : Str) :
    ∃ text, writeLoop (dec2hex (pixels.map BitVec.toNat)) rounds (k + 1) file = some (file ++ text) ∧
      ∀ rest, words (text ++ rest) = (pixels.drop k).map hexToken ++ words rest := by
  induction rounds generalizing k file with
  | zero =>
    refine ⟨[], by rw [writeLoop, List.append_nil], fun rest => ?_⟩
    rw [List.drop_of_length_le (by omega)]
    rfl
  | succ rounds ih =>
    have hlt : k < pixels.length := by omega
    obtain ⟨hhigh, hlow⟩ := digits_of_two h hlt
    -- the text of this pixel, with the end of a line or without
    have hround : ∀ line : Str, (line = [] ∨ line = ['\n']) →
        ∃ text, writeLoop (dec2hex (pixels.map BitVec.toNat)) rounds (k + 1 + 1)
            (file ++ [hexChar (pixels[k].toNat / 16), hexChar (pixels[k].toNat % 16), ' '] ++ line) =
              some (file ++ text) ∧
          ∀ rest, words (text ++ rest) = (pixels.drop k).map hexToken ++ words rest := by
      intro line hline
      obtain ⟨text, hrun, hwords⟩ := ih (show k + 1 + rounds = pixels.length by omega)
        (file ++ [hexChar (pixels[k].toNat / 16), hexChar (pixels[k].toNat % 16), ' '] ++ line)
      refine ⟨hexToken pixels[k] ++ ' ' :: (line ++ text), hrun.trans (congrArg some ?_),
        fun rest => ?_⟩
      · simp [hexToken]
      · rw [words_token _ hline, hwords, List.drop_eq_getElem_cons hlt]
        rfl
    rw [writeLoop, hhigh, hlow]
    dsimp only [Option.bind_eq_bind, Option.bind_some]
    by_cases hend : (k + 1 + 1) % 16 = 1
    · rw [if_pos hend]
      exact hround ['\n'] (.inr rfl)
    · rw [if_neg hend]
      have hsame := hround [] (.inl rfl)
      rwa [List.append_nil] at hsame

/-- **What the first script writes**: the words of the text, if there are two columns. -/
theorem scale_of_two {img : Mat (BitVec 8)} (hsize : img.data.length = 200 * 154)
    (h : hexWidth (img.data.map BitVec.toNat) = 2) :
    ∃ file, scale img = some file ∧ words file = "@3500".toList ::
      (img.data.map hexToken ++ ["q".toList]) := by
  obtain ⟨text, hrun, hwords⟩ :=
    writeLoop_of_two h (show 0 + 200 * 154 = img.data.length by omega) "@3500\n".toList
  refine ⟨"@3500\n".toList ++ text ++ "\nq".toList, ?_, ?_⟩
  · unfold scale Mat.reshape
    rw [dif_pos (show img.data.length = 1 * 30800 by omega)]
    dsimp only [Option.bind_eq_bind, Option.bind_some]
    rw [hrun]
    rfl
  · have hheader : "@3500\n".toList = "@3500".toList ++ ['\n'] := rfl
    have hq : words "\nq".toList = ["q".toList] := by decide
    rw [hheader, List.append_assoc, List.append_assoc, List.singleton_append,
      words_append_cons (by decide) (by decide), hwords, List.drop_zero, hq]

/-- The first script stops with an index error if there is one column. -/
theorem scale_of_ne_two {img : Mat (BitVec 8)} (h : hexWidth (img.data.map BitVec.toNat) ≠ 2) :
    scale img = none := by
  unfold scale Mat.reshape
  split
  · dsimp only [Option.bind_eq_bind, Option.bind_some]
    rw [show 200 * 154 = 30799 + 1 from rfl, writeLoop, subscript_of_ne_two h]
    cases (dec2hex (img.data.map BitVec.toNat)).linear 1 <;> rfl
  · rfl

/-! ## The image -/

/-- The elements of a list of pairs. -/
theorem getElem?_pairs {α β : Type} (f g : α → β) (l : List α) (k : ℕ) :
    (l.flatMap fun a => [f a, g a])[2 * k]? = l[k]?.map f ∧
      (l.flatMap fun a => [f a, g a])[2 * k + 1]? = l[k]?.map g := by
  induction l generalizing k with
  | nil => exact ⟨rfl, rfl⟩
  | cons a l ih =>
    cases k with
    | zero => exact ⟨rfl, rfl⟩
    | succ k => exact ih k

theorem length_tokens (pixels : List (BitVec 8)) :
    (pixels.flatMap hexToken).length = 2 * pixels.length := by
  induction pixels with
  | nil => rfl
  | cons p pixels ih =>
    rw [List.flatMap_cons, List.length_append, ih, List.length_cons]
    show 2 + 2 * pixels.length = _
    omega

/-- **The digits that have been read**, of the first `k` tokens. -/
theorem readWord_succ {pixels : List (BitVec 8)} (header : Str) (back : List Str) {k : ℕ}
    (hk : k < pixels.length) {res2 : Mat Char} (hrow : res2.RowLike)
    (hdata : res2.data = (pixels.take k).flatMap hexToken) :
    ∃ res2', readWord (header :: (pixels.map hexToken ++ back)) res2 (k + 2) = some res2' ∧
      res2'.RowLike ∧ res2'.data = (pixels.take (k + 1)).flatMap hexToken := by
  have hword : (header :: (pixels.map hexToken ++ back))[k + 2 - 1]? = some (hexToken pixels[k]) := by
    rw [show k + 2 - 1 = k + 1 by omega, List.getElem?_cons_succ,
      List.getElem?_append_left (by rwa [List.length_map]), List.getElem?_map,
      List.getElem?_eq_getElem hk]
    rfl
  have hlen : res2.data.length = 2 * k := by
    rw [hdata, length_tokens, List.length_take, Nat.min_eq_left (Nat.le_of_lt hk)]
  obtain ⟨res2', hset, hrow', hdata'⟩ := Mat.set_append hrow '\x00' (hexChar (pixels[k].toNat / 16))
  obtain ⟨res2'', hset', hrow'', hdata''⟩ :=
    Mat.set_append hrow' '\x00' (hexChar (pixels[k].toNat % 16))
  have hlen' : res2'.data.length = 2 * k + 1 := by rw [hdata', List.length_append, hlen]; rfl
  refine ⟨res2'', ?_, hrow'', ?_⟩
  · unfold readWord
    rw [hword]
    dsimp only [Option.bind_eq_bind, Option.bind_some, hexToken, List.getElem?_cons_zero,
      List.getElem?_cons_succ]
    rw [show 2 * (k + 2 - 1) - 1 = res2.data.length + 1 by omega, hset]
    dsimp only [Option.bind_some]
    rw [show 2 * (k + 2 - 1) = res2'.data.length + 1 by omega, hset']
  · rw [hdata'', hdata', hdata, List.take_add_one, List.getElem?_eq_getElem hk, List.flatMap_append]
    simp [hexToken]

/-- A pixel from its digits. -/
theorem pixel_of_digits : ∀ p : BitVec 8, hex2dec (hexChar (p.toNat / 16)) = some (p.toNat / 16) ∧
    hex2dec (hexChar (p.toNat % 16)) = some (p.toNat % 16) ∧
    uint8 ((uint8 ((uint8 (p.toNat / 16)).toNat * 16)).toNat + (uint8 (p.toNat % 16)).toNat) = p := by
  decide

/-- **The pixels that have been restored**: the first `k`. -/
theorem readPixel_succ {pixels : List (BitVec 8)} {k : ℕ} (hk : k < pixels.length) {res2 : Mat Char}
    (hres2 : res2.data = pixels.flatMap hexToken) {res3 : Mat (BitVec 8)}
    (hdata : res3.data = pixels.take k ++ List.replicate (pixels.length - k) 0) :
    ∃ res3', readPixel res2 res3 (k + 1) = some res3' ∧ res3'.rows = res3.rows ∧
      res3'.cols = res3.cols ∧ res3'.data = pixels.take (k + 1) ++ List.replicate
        (pixels.length - (k + 1)) 0 := by
  obtain ⟨hhigh, hlow⟩ := getElem?_pairs (fun p : BitVec 8 => hexChar (p.toNat / 16))
    (fun p => hexChar (p.toNat % 16)) pixels k
  have htokens : pixels.flatMap hexToken =
      pixels.flatMap fun p => [hexChar (p.toNat / 16), hexChar (p.toNat % 16)] := rfl
  rw [← htokens, ← hres2, List.getElem?_eq_getElem hk] at hhigh hlow
  obtain ⟨hhighValue, hlowValue, hpixel⟩ := pixel_of_digits pixels[k]
  have hlen : k < res3.data.length := by
    rw [hdata, List.length_append, List.length_take, List.length_replicate]
    omega
  obtain ⟨res3', hset, hrows, hcols, hdata'⟩ := Mat.set_of_le hlen 0 pixels[k]
  refine ⟨res3', ?_, hrows, hcols, ?_⟩
  · have hfirst : res2.linear (2 * (k + 1) - 1) = some (hexChar (pixels[k].toNat / 16)) := by
      rw [show 2 * (k + 1) - 1 = 2 * k + 1 by omega]
      exact hhigh
    have hsecond : res2.linear (2 * (k + 1)) = some (hexChar (pixels[k].toNat % 16)) := hlow
    unfold readPixel
    rw [hfirst, hsecond]
    dsimp only [Option.bind_eq_bind, Option.bind_some]
    rw [hhighValue, hlowValue]
    dsimp only [Option.bind_some]
    rw [hpixel, hset]
  · rw [hdata', hdata, List.set_append_right _ _ (by rw [List.length_take]; omega), List.length_take,
      Nat.min_eq_left (Nat.le_of_lt hk), Nat.sub_self, show pixels.length - k =
      pixels.length - (k + 1) + 1 by omega, List.replicate_succ, List.set_cons_zero,
      List.take_add_one, List.getElem?_eq_getElem hk, List.append_assoc]
    rfl

/-- **What the second script restores.** -/
theorem rscale_of_words {img : Mat (BitVec 8)} (hrows : img.rows = 154)
    (hcols : img.cols = 200) {file : Str}
    (hwords : words file = "@3500".toList :: (img.data.map hexToken ++ ["q".toList])) :
      rscale file = some img := by
  have hsize : img.data.length = 200 * 154 := by rw [img.size, hrows, hcols]
  have hfirst : ∃ res2, (List.range (200 * 154)).foldlM
    (fun res2 k => readWord (words file) res2 (k + 2))
      (Mat.empty 154) = some res2 ∧ res2.RowLike ∧
          res2.data = (img.data.take (200 * 154)).flatMap hexToken := by
    rw [hwords]
    refine foldlM_range_rule
      (I := fun k (res2 : Mat Char) => res2.RowLike ∧ res2.data = (img.data.take k).flatMap hexToken)
      ⟨.inr rfl, rfl⟩ fun k hk res2 ⟨hrow, hdata⟩ => ?_
    exact readWord_succ _ _ (by omega) hrow hdata
  obtain ⟨res2, hrun2, -, hdata2⟩ := hfirst
  rw [List.take_of_length_le (by omega)] at hdata2
  have hsecond : ∃ res3, (List.range (200 * 154)).foldlM (fun res3 k => readPixel res2 res3 (k + 1))
      (Mat.const 154 200 0) = some res3 ∧ res3.rows = 154 ∧ res3.cols = 200 ∧
        res3.data = img.data.take (200 * 154) ++ List.replicate (img.data.length - 200 * 154) 0 := by
    refine foldlM_range_rule (I := fun k (res3 : Mat (BitVec 8)) => res3.rows = 154 ∧
      res3.cols = 200 ∧ res3.data = img.data.take k ++ List.replicate
        (img.data.length - k) 0) ⟨rfl, rfl, ?_⟩
      fun k hk res3 ⟨hrow, hcol, hdata⟩ => ?_
    · rw [hsize]
      rfl
    · obtain ⟨res3', hread, hrow', hcol', hdata'⟩ := readPixel_succ (by omega) hdata2 hdata
      exact ⟨res3', hread, hrow'.trans hrow, hcol'.trans hcol, hdata'⟩
  obtain ⟨res3, hrun3, hrow3, hcol3, hdata3⟩ := hsecond
  rw [List.take_of_length_le (by omega), hsize, Nat.sub_self, List.replicate_zero,
    List.append_nil] at hdata3
  unfold rscale
  dsimp only [Option.bind_eq_bind, Option.bind_some]
  rw [hrun2]
  dsimp only [Option.bind_some]
  rw [hrun3, Mat.ext (hrow3.trans hrows.symm) (hcol3.trans hcols.symm) hdata3]

/-- **When an image comes back**: exactly if one of its pixels is at least `16`. -/
theorem scale_rscale_iff {img : Mat (BitVec 8)} (hrows : img.rows = 154) (hcols : img.cols = 200) :
    (scale img).bind rscale = some img ↔ ∃ p ∈ img.data, 16 ≤ p.toNat := by
  rw [← hexWidth_eq_two_iff]
  constructor
  · intro h
    by_contra hne
    rw [scale_of_ne_two hne] at h
    contradiction
  · intro h
    obtain ⟨file, hscale, hwords⟩ := scale_of_two (by rw [img.size, hrows, hcols]) h
    rw [hscale, Option.bind_some]
    exact rscale_of_words hrows hcols hwords

/-- At a white image. -/
theorem scale_rscale_iff_white :
    (scale (Mat.const 154 200 0xFF)).bind rscale = some (Mat.const 154 200 0xFF) ↔
      ∃ p ∈ (Mat.const 154 200 (0xFF : BitVec 8)).data, 16 ≤ p.toNat :=
  scale_rscale_iff rfl rfl

/-- A black image does not come back: already the first script stops with an index error. -/
theorem black_lost :
    (Mat.const 154 200 (0 : BitVec 8)).rows = 154 ∧ (Mat.const 154 200 (0 : BitVec 8)).cols = 200 ∧
      scale (Mat.const 154 200 0) = none ∧
      (scale (Mat.const 154 200 0)).bind rscale ≠ some (Mat.const 154 200 0) := by
  have hwidth : hexWidth ((Mat.const 154 200 (0 : BitVec 8)).data.map BitVec.toNat) ≠ 2 := by
    rw [Ne, hexWidth_eq_two_iff]
    rintro ⟨p, hp, hle⟩
    obtain rfl := Mat.eq_of_mem_const hp
    exact absurd hle (by decide)
  have hnone := scale_of_ne_two hwidth
  exact ⟨rfl, rfl, hnone, by rw [hnone]; exact nofun⟩

end ProbableCause.MatlabPicture
