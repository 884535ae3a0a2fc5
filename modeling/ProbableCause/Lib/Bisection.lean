import Mathlib.Algebra.Order.Ring.Nat
import Mathlib.Order.Interval.Set.Basic
import Mathlib.Order.Monotone.Basic

/-!
# `Lib.Bisection` — bisection with an unreliable test

A bisection tests points between two ends, and each test moves one of the ends to the point tested.
`Tested x b` says that the point `x` has been tested with the result `b`; the results in `Low` move
the lower end, those in `High` the upper end, and a result in neither stops the search. Nothing is
assumed about the results.

`Bracket` is what holds of the ends all the time, with a rule for each move. If the results are
those of a monotone function, the points where it is in neither set are inside the bracket or at an
end that has not been tested (`inside`).
-/

namespace Bisection

variable {α β : Type*} [LinearOrder α] {Tested : α → β → Prop} {Low High : β → Prop}
    {first last lo hi x : α} {b : β}

/-! ## The ends -/

/-- **What is known of the ends**: each is one of the first ends or has been tested, and those that
    have been tested lie on their side. -/
structure Ends (Tested : α → β → Prop) (Low High : β → Prop) (first last lo hi : α) : Prop where
  lower : ∀ b, Tested lo b → Low b
  upper : ∀ b, Tested hi b → High b
  lower_tested : lo ≠ first → ∃ b, Tested lo b
  upper_tested : hi ≠ last → ∃ b, Tested hi b

/-- **The bracket** of a search that goes on: nothing inside has been tested. -/
structure Bracket (Tested : α → β → Prop) (Low High : β → Prop) (first last lo hi : α) : Prop
    extends Ends Tested Low High first last lo hi where
  outside : ∀ x b, Tested x b → x ≤ lo ∨ hi ≤ x
  lt : lo < hi

/-- One more test. -/
def After (Tested : α → β → Prop) (x : α) (b : β) (y : α) (c : β) : Prop := Tested y c ∨ y = x ∧ c = b

theorem Bracket.start (htested : ∀ x b, ¬ Tested x b) (h : first < last) :
    Bracket Tested Low High first last first last where
  lower b hb := absurd hb (htested first b)
  upper b hb := absurd hb (htested last b)
  lower_tested hne := absurd rfl hne
  upper_tested hne := absurd rfl hne
  outside x b hb := absurd hb (htested x b)
  lt := h

theorem Bracket.not_tested (h : Bracket Tested Low High first last lo hi) (hlo : lo < x)
    (hhi : x < hi) (b : β) :
    ¬ Tested x b := by
  intro hb
  rcases h.outside x b hb with hle | hge
  · exact absurd hlo (not_lt_of_ge hle)
  · exact absurd hhi (not_lt_of_ge hge)

/-- **A low result** moves the lower end. -/
theorem Bracket.raise (h : Bracket Tested Low High first last lo hi) (hlo : lo < x) (hhi : x < hi)
    (hlow : Low b) :
    Bracket (After Tested x b) Low High first last x hi where
  lower c hc := by
    rcases hc with hc | ⟨-, rfl⟩
    · exact absurd hc (h.not_tested hlo hhi c)
    · exact hlow
  upper c hc := by
    rcases hc with hc | ⟨rfl, -⟩
    · exact h.upper c hc
    · exact absurd hhi (lt_irrefl _)
  lower_tested _ := ⟨b, Or.inr ⟨rfl, rfl⟩⟩
  upper_tested hne := by
    obtain ⟨c, hc⟩ := h.upper_tested hne
    exact ⟨c, Or.inl hc⟩
  outside y c hc := by
    rcases hc with hc | ⟨rfl, -⟩
    · exact (h.outside y c hc).imp_left fun hle => hle.trans hlo.le
    · exact Or.inl le_rfl
  lt := hhi

/-- **A high result** moves the upper end. -/
theorem Bracket.cut (h : Bracket Tested Low High first last lo hi) (hlo : lo < x) (hhi : x < hi)
    (hhigh : High b) :
    Bracket (After Tested x b) Low High first last lo x where
  lower c hc := by
    rcases hc with hc | ⟨rfl, -⟩
    · exact h.lower c hc
    · exact absurd hlo (lt_irrefl _)
  upper c hc := by
    rcases hc with hc | ⟨-, rfl⟩
    · exact absurd hc (h.not_tested hlo hhi c)
    · exact hhigh
  lower_tested hne := by
    obtain ⟨c, hc⟩ := h.lower_tested hne
    exact ⟨c, Or.inl hc⟩
  upper_tested _ := ⟨b, Or.inr ⟨rfl, rfl⟩⟩
  outside y c hc := by
    rcases hc with hc | ⟨rfl, -⟩
    · exact (h.outside y c hc).imp_right fun hge => hhi.le.trans hge
    · exact Or.inr le_rfl
  lt := hlo

/-- **The last test** moves no end, whatever its result. -/
theorem Bracket.stop (h : Bracket Tested Low High first last lo hi) (hlo : lo < x)
    (hhi : x < hi) (b : β) :
    Ends (After Tested x b) Low High first last lo hi where
  lower c hc := by
    rcases hc with hc | ⟨rfl, -⟩
    · exact h.lower c hc
    · exact absurd hlo (lt_irrefl _)
  upper c hc := by
    rcases hc with hc | ⟨rfl, -⟩
    · exact h.upper c hc
    · exact absurd hhi (lt_irrefl _)
  lower_tested hne := by
    obtain ⟨c, hc⟩ := h.lower_tested hne
    exact ⟨c, Or.inl hc⟩
  upper_tested hne := by
    obtain ⟨c, hc⟩ := h.upper_tested hne
    exact ⟨c, Or.inl hc⟩

/-! ## What is inside -/

/-- **Inside or at a first end**: a point that is neither below a lower end other than the first,
    nor above an upper end other than the last. `below` and `above` are what is known of such ends,
    and carry over to all points beyond them. -/
theorem inside_or_first {below above : α → Prop}
    (hlo : lo ≠ first → ∀ y, first ≤ y → y ≤ lo → below y)
    (hhi : hi ≠ last → ∀ y, y ≤ last → hi ≤ y → above y) (hfirst : first ≤ x) (hlast : x ≤ last)
    (hbelow : ¬ below x) (habove : ¬ above x) :
    lo < x ∧ x < hi ∨ x = first ∧ lo = first ∨ x = last ∧ hi = last := by
  by_cases hle : x ≤ lo
  · by_cases hne : lo = first
    · exact Or.inr (Or.inl ⟨le_antisymm (hne ▸ hle) hfirst, hne⟩)
    · exact absurd (hlo hne x hfirst hle) hbelow
  · by_cases hge : hi ≤ x
    · by_cases hne : hi = last
      · exact Or.inr (Or.inr ⟨le_antisymm hlast (hne ▸ hge), hne⟩)
      · exact absurd (hhi hne x hlast hge) habove
    · exact Or.inl ⟨lt_of_not_ge hle, lt_of_not_ge hge⟩

/-- **What a search has not excluded**: if the results are those of a function that is monotone
    between the first ends, each point there with a result in neither set is inside the bracket, or
    is an end that has not been tested. -/
theorem Ends.inside [Preorder β] (h : Ends Tested Low High first last lo hi) {f : α → β}
    (hmono : MonotoneOn f (Set.Icc first last)) (hf : ∀ x b, Tested x b → b = f x)
    (hlo : lo ∈ Set.Icc first last) (hhi : hi ∈ Set.Icc first last)
    (hdown : ∀ b c, b ≤ c → Low c → Low b) (hup : ∀ b c, b ≤ c → High b → High c)
    (hx : x ∈ Set.Icc first last) (hlow : ¬ Low (f x)) (hhigh : ¬ High (f x)) :
    lo < x ∧ x < hi ∨ (x = lo ∨ x = hi) ∧ ∀ b, ¬ Tested x b := by
  have hbelow : lo ≠ first → ∀ y, first ≤ y → y ≤ lo → Low (f y) := by
    intro hne y hy hle
    obtain ⟨b, hb⟩ := h.lower_tested hne
    obtain rfl := hf lo b hb
    exact hdown _ _ (hmono ⟨hy, hle.trans hlo.2⟩ hlo hle) (h.lower _ hb)
  have habove : hi ≠ last → ∀ y, y ≤ last → hi ≤ y → High (f y) := by
    intro hne y hy hge
    obtain ⟨b, hb⟩ := h.upper_tested hne
    obtain rfl := hf hi b hb
    exact hup _ _ (hmono hhi ⟨hhi.1.trans hge, hy⟩ hge) (h.upper _ hb)
  rcases inside_or_first hbelow habove hx.1 hx.2 hlow hhigh with hin | ⟨rfl, rfl⟩ | ⟨rfl, rfl⟩
  · exact Or.inl hin
  · -- a test of this end would have been low
    refine Or.inr ⟨Or.inl rfl, fun b hb => hlow ?_⟩
    obtain rfl := hf _ b hb
    exact h.lower _ hb
  · refine Or.inr ⟨Or.inr rfl, fun b hb => hhigh ?_⟩
    obtain rfl := hf _ b hb
    exact h.upper _ hb

/-! ## How often -/

/-- A width that is halved. -/
theorem halved {a b c n : ℕ} (hb : b ≤ a / 2) (ha : a ≤ c / 2 ^ n) : b ≤ c / 2 ^ (n + 1) :=
  calc b ≤ a / 2 := hb
    _ ≤ c / 2 ^ n / 2 := Nat.div_le_div_right ha
    _ = c / 2 ^ (n + 1) := by rw [Nat.div_div_eq_div_mul, ← Nat.pow_succ]

/-- **How often a width can be halved** until it is zero. -/
theorem rounds_lt {a c n m : ℕ} (hpos : 0 < a) (ha : a ≤ c / 2 ^ n) (hc : c < 2 ^ m) : n < m := by
  by_contra hle
  have hzero : c / 2 ^ n = 0 :=
    Nat.div_eq_of_lt (Nat.lt_of_lt_of_le hc (Nat.pow_le_pow_right (by decide) (Nat.le_of_not_lt hle)))
  omega

end Bisection
