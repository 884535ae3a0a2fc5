import Mathlib.Logic.Function.Basic

/-!
# `Lib.WriteBack` — write-back caches

A cache has lines `ι`, each of which may hold the words `ω` of a tag `τ`. What is written goes to
the line only, which is dirty from then on; the memory gets it when the line is written back.

`Represents` says that a cache and the memory behind it stand for the contents `m`. It is kept by
everything that such a cache does: storing a word (`store`), copying a word of a line to the memory
(`copy`), declaring a line clean (`clean`), giving it up (`drop`), writing into a line that is not
in use (`scratch`) and using it for a new tag (`fill`).
-/

namespace WriteBack

variable {ι τ ω δ : Type*}

/-- The lines of a cache: what they hold, which of them are dirty, and their data. -/
@[ext]
structure Cache (ι τ ω δ : Type*) where
  holds : ι → Option τ
  dirty : ι → Bool
  data : ι → ω → δ

variable {c : Cache ι τ ω δ} {mem m : τ → ω → δ} {i : ι} {t : τ} {w : ω} {v : δ}

/-- The cache and the memory behind it stand for `m`. -/
structure Represents (c : Cache ι τ ω δ) (mem m : τ → ω → δ) : Prop where
  unique : ∀ {i j t}, c.holds i = some t → c.holds j = some t → i = j
  line : ∀ {i t}, c.holds i = some t → c.data i = m t
  memory : ∀ {t}, (∀ i, c.holds i = some t → c.dirty i = false) → mem t = m t

namespace Represents

/-- An empty cache stands for the memory. -/
theorem empty (h : ∀ i, c.holds i = none) : Represents c mem mem where
  unique hi := absurd hi (by simp [h])
  line hi := absurd hi (by simp [h])
  memory _ := rfl

/-- What a line returns. -/
theorem read (h : Represents c mem m) (hi : c.holds i = some t) (w : ω) : c.data i w = m t w :=
  congrFun (h.line hi) w

/-- What is not cached is in the memory. -/
theorem memory_of_absent (h : Represents c mem m) (ht : ∀ i, c.holds i ≠ some t) : mem t = m t :=
  h.memory fun i hi => absurd hi (ht i)

/-- Copying words of a line to the memory. -/
theorem copy (h : Represents c mem m) {mem' : τ → ω → δ} (hi : c.holds i = some t)
    (hother : ∀ u, u ≠ t → mem' u = mem u) (hword : ∀ w, mem' t w = mem t w ∨ mem' t w = c.data i w) :
    Represents c mem' m where
  unique := h.unique
  line := h.line
  memory {u} hu := by
    by_cases hut : u = t
    · subst hut
      funext w
      rcases hword w with hw | hw
      · rw [hw, h.memory hu]
      · rw [hw, h.line hi]
    · rw [hother u hut, h.memory hu]

section
variable [DecidableEq ι]

/-- Storing a word in the line that holds its tag. -/
theorem store [DecidableEq τ] [DecidableEq ω] (h : Represents c mem m) (hi : c.holds i = some t)
    (w : ω) (v : δ) :
    Represents
      { c with
        dirty := Function.update c.dirty i true
        data := Function.update c.data i (Function.update (c.data i) w v) }
      mem (Function.update m t (Function.update (m t) w v)) where
  unique := h.unique
  line {j u} hj := by
    by_cases hji : j = i
    · subst hji
      obtain rfl : t = u := Option.some.inj (hi.symm.trans hj)
      simp only [Function.update_self, h.line hi]
    · have hut : u ≠ t := fun hut => hji (h.unique (hut ▸ hj) hi)
      simp only [Function.update_of_ne hji, Function.update_of_ne hut, h.line hj]
  memory {u} hu := by
    have hut : u ≠ t := fun hut => absurd (hu i (hut ▸ hi)) (by simp)
    rw [Function.update_of_ne hut]
    refine h.memory fun j hj => ?_
    have hji : j ≠ i := fun hji => hut (Option.some.inj (hj.symm.trans (hji ▸ hi)))
    simpa only [Function.update_of_ne hji] using hu j hj

/-- A line is clean if the memory has it. -/
theorem clean (h : Represents c mem m) (hi : c.holds i = some t) (hmem : mem t = m t) :
    Represents { c with dirty := Function.update c.dirty i false } mem m where
  unique := h.unique
  line := h.line
  memory {u} hu := by
    by_cases hut : u = t
    · exact hut ▸ hmem
    · refine h.memory fun j hj => ?_
      have hji : j ≠ i := fun hji => hut (Option.some.inj (hj.symm.trans (hji ▸ hi)))
      simpa only [Function.update_of_ne hji] using hu j hj

/-- Giving up a clean line. -/
theorem drop (h : Represents c mem m) (hclean : c.dirty i = false) :
    Represents { c with holds := Function.update c.holds i none } mem m := by
  have hholds : ∀ {j u}, Function.update c.holds i none j = some u → c.holds j = some u :=
    fun {j u} hj => by
    have hji : j ≠ i := by
      rintro rfl
      simp at hj
    rwa [Function.update_of_ne hji] at hj
  refine ⟨fun hj hk => h.unique (hholds hj) (hholds hk), fun hj => h.line (hholds hj),
    fun {u} hu => ?_⟩
  refine h.memory fun j hj => ?_
  by_cases hji : j = i
  · exact hji ▸ hclean
  · exact hu j (by simpa only [Function.update_of_ne hji] using hj)

/-- Writing into a line that holds nothing. -/
theorem scratch (h : Represents c mem m) (hi : c.holds i = none) (d : ω → δ) :
    Represents { c with data := Function.update c.data i d } mem m where
  unique := h.unique
  line {j u} hj := by
    have hji : j ≠ i := by
      rintro rfl
      simp [hi] at hj
    simp only [Function.update_of_ne hji, h.line hj]
  memory := h.memory

/-- Using a line for a tag that is not cached, once it has its data. -/
theorem fill (h : Represents c mem m) (ht : ∀ j, c.holds j ≠ some t) (hdata : c.data i = m t)
    (hclean : c.dirty i = false) :
      Represents { c with holds := Function.update c.holds i (some t) } mem m := by
  refine ⟨fun {j k u} hj hk => ?_, fun {j u} hj => ?_, fun {u} hu => ?_⟩
  · by_cases hji : j = i <;> by_cases hki : k = i
    · rw [hji, hki]
    · simp only [hji, Function.update_self, Function.update_of_ne hki, Option.some.injEq] at hj hk
      exact absurd (hj ▸ hk) (ht k)
    · simp only [hki, Function.update_self, Function.update_of_ne hji, Option.some.injEq] at hj hk
      exact absurd (hk ▸ hj) (ht j)
    · simp only [Function.update_of_ne hji, Function.update_of_ne hki] at hj hk
      exact h.unique hj hk
  · by_cases hji : j = i
    · simp only [hji, Function.update_self, Option.some.injEq] at hj
      rw [hji, hdata, hj]
    · simp only [Function.update_of_ne hji] at hj
      exact h.line hj
  · by_cases hut : u = t
    · exact hut ▸ h.memory_of_absent ht
    · refine h.memory fun j hj => ?_
      by_cases hji : j = i
      · exact hji ▸ hclean
      · exact hu j (by simpa only [Function.update_of_ne hji] using hj)

end

end Represents

end WriteBack
