import ProbableCause.Database.Python

/-!
# `Database.Page` — `Constants.py` and `approxPage.py`

A page is a string of `PAGE_SIZE` characters that the constructor `approxPage` has accepted; the
object also carries the chip and the location it was read from (or is about to be written to). Two
pages are equal when their Hamming distance is below `NOISE_DISTANCE`.
-/

namespace ProbableCause

open Text

/-! ## `Constants.py` -/

/-- The constants of the database. `NOISE_DISTANCE` is kept as a parameter beside `PAGE_SIZE`
    because the source rounds up a product of floats; all that the program relies on is that it is
    at least `1`. -/
structure Constants where
  PAGE_SIZE : ℕ
  NOISE_DISTANCE : ℕ
  pageSize_pos : 1 ≤ PAGE_SIZE
  noiseDistance_pos : 1 ≤ NOISE_DISTANCE

/-- `NOISE_DISTANCE = ceil(NOISE_MARGIN * PAGE_SIZE)` with `NOISE_MARGIN = 0.0005 = 1/2000`. -/
def Constants.ofPageSize (pageSize : ℕ) (h : 1 ≤ pageSize) : Constants where
  PAGE_SIZE := pageSize
  NOISE_DISTANCE := (pageSize + 1999) / 2000
  pageSize_pos := h
  noiseDistance_pos := by omega

/-- The constants as the repository sets them: `PAGE_SIZE = 5`. -/
def Constants.repository : Constants := .ofPageSize 5 (by decide)

example : Constants.repository.NOISE_DISTANCE = 1 := by decide

/-! ## `approxPage.py` -/

/-- The characters `[0-1]`. -/
def isBit (c : Char) : Bool := c == '0' || c == '1'

/-- `reg.match(data)` with `reg = '^[0-1]+$'`. The anchor `$` holds at the end of the data and also
    before a line feed that ends the data. -/
def regMatch (data : Str) : Bool :=
  (data != [] && data.all isBit) ||
    (data.getLast? == some '\n' && data.dropLast != [] && data.dropLast.all isBit)

/-- A string the constructor `approxPage` accepts. -/
def Valid (K : Constants) (data : Str) : Prop := data.length = K.PAGE_SIZE ∧ regMatch data = true

instance (K : Constants) (data : Str) : Decidable (Valid K data) :=
  inferInstanceAs (Decidable (_ ∧ _))

/-- The class `approxPage`: an accepted string, the chip and the location. -/
structure ApproxPage (K : Constants) where
  errorString : Str
  chip : PyVal
  loc : PyVal
  valid : Valid K errorString

variable {K : Constants}

/-- `approxPage(data, chip, loc)`. -/
def approxPage (K : Constants) (data : Str) (chip loc : PyVal) : Except Stop (ApproxPage K) :=
  if hsize : data.length = K.PAGE_SIZE then
    if hreg : regMatch data = true then .ok ⟨data, chip, loc, hsize, hreg⟩
    else raise (.valueError "Data contains unexpected character")
  else raise (.valueError "Incorrect data size")

/-- `approxPage(data)`: no chip and no location, which the source writes `-1`. -/
def approxPage' (K : Constants) (data : Str) : Except Stop (ApproxPage K) :=
  approxPage K data (.int (-1)) (.int (-1))

/-- Hamming distance of two pages: the positions, up to the shorter length, at which they differ. -/
def distance (s t : Str) : ℕ := (s.zip t).countP fun p => p.1 != p.2

/-- Two strings within the noise distance of each other. -/
def Near (K : Constants) (s t : Str) : Prop := distance s t < K.NOISE_DISTANCE

instance (K : Constants) (s t : Str) : Decidable (Near K s t) :=
  inferInstanceAs (Decidable (_ < _))

/-- `self == other`. -/
def ApproxPage.eq (self other : ApproxPage K) : Bool :=
  decide (Near K self.errorString other.errorString)

/-! ## Elementary facts -/

theorem approxPage_of_valid {data : Str} (h : Valid K data) (chip loc : PyVal) :
    approxPage K data chip loc = .ok ⟨data, chip, loc, h⟩ := by
  rw [approxPage, dif_pos h.1, dif_pos h.2]

@[simp] theorem ApproxPage.eq_iff {self other : ApproxPage K} :
    self.eq other = true ↔ Near K self.errorString other.errorString := by
  simp [ApproxPage.eq]

theorem distance_self (s : Str) : distance s s = 0 := by
  induction s with
  | nil => rfl
  | cons c cs ih => simpa [distance] using ih

/-- A page matches itself: the noise distance is positive. -/
theorem near_self (K : Constants) (s : Str) : Near K s s := by
  rw [Near, distance_self]; exact K.noiseDistance_pos

theorem distance_comm (s t : Str) : distance s t = distance t s := by
  induction s generalizing t with
  | nil => cases t <;> rfl
  | cons c cs ih =>
    cases t with
    | nil => rfl
    | cons d ds =>
      have hih := ih ds
      simp only [distance, List.zip_cons_cons, List.countP_cons] at hih ⊢
      rw [hih, show (c != d) = (d != c) from bne_comm]

theorem near_comm {s t : Str} : Near K s t ↔ Near K t s := by
  rw [Near, Near, distance_comm]

/-- At distance `0`, strings of one length are equal. -/
theorem eq_of_distance_eq_zero {s t : Str} (hlen : s.length = t.length) (h : distance s t = 0) :
    s = t := by
  induction s generalizing t with
  | nil => exact (List.length_eq_zero_iff.mp hlen.symm).symm
  | cons c cs ih =>
    cases t with
    | nil => simp at hlen
    | cons d ds =>
      simp only [distance, List.zip_cons_cons, List.countP_cons] at h
      have hcd : c = d := by
        by_contra hne
        simp [hne] at h
      subst hcd
      rw [ih (by simpa using hlen) (by rw [distance]; omega)]

/-- **With `NOISE_DISTANCE = 1` two pages match only when they are equal.** -/
theorem near_iff_eq (hK : K.NOISE_DISTANCE = 1) {s t : Str} (hs : Valid K s) (ht : Valid K t) :
    Near K s t ↔ s = t := by
  refine ⟨fun h => ?_, fun h => h ▸ near_self K s⟩
  rw [Near, hK] at h
  exact eq_of_distance_eq_zero (hs.1.trans ht.1.symm) (by omega)

end ProbableCause
