import Mathlib.Logic.Basic
import Mathlib.Algebra.Order.Ring.Int
import Mathlib.Data.List.Basic

/-!
# `Lib.Exits` — invariants of stateful programs over *every* way they can end

`EStateM ε σ α` keeps the state a program has reached when it stops with an error, without rolling
anything back. `exitState` is that state, whichever way the program ended, and `Keeps I x` says that
the program `x` started in a state with `I` ends in a state with `I`, normally or not. The rules
below follow the constructors a program is built from, so that an invariant of a program is
assembled from the invariants of its parts.
-/

namespace Exits

variable {ε σ α β γ : Type}

/-- The state in which a program stopped, normally or with an error. -/
def exitState : EStateM.Result ε σ α → σ
  | .ok _ s => s
  | .error _ s => s

@[simp] theorem exitState_ok (a : α) (s : σ) : exitState (.ok a s : EStateM.Result ε σ α) = s := rfl
@[simp] theorem exitState_error (e : ε) (s : σ) :
    exitState (.error e s : EStateM.Result ε σ α) = s := rfl

/-- The error a program stopped with, if any. -/
def error? : EStateM.Result ε σ α → Option ε
  | .ok _ _ => none
  | .error e _ => some e

theorem eq_error_of_error? {r : EStateM.Result ε σ α} {e : ε} (h : error? r = some e) :
    r = .error e (exitState r) := by
  cases r with
  | ok a s => cases h
  | error e' s => cases h; rfl

theorem eq_ok_of_error? {r : EStateM.Result ε σ Unit} (h : error? r = none) :
    r = .ok () (exitState r) := by
  cases r with
  | ok a s => rfl
  | error e s => cases h

/-- **`x` keeps `I`**: from every state with `I` it ends in a state with `I`, however it ends. -/
def Keeps (I : σ → Prop) (x : EStateM ε σ α) : Prop := ∀ s, I s → I (exitState (x.run s))

variable {I : σ → Prop}

theorem Keeps.pure (a : α) : Keeps I (Pure.pure a : EStateM ε σ α) := fun _ h => h

theorem Keeps.throw (e : ε) : Keeps I (throw e : EStateM ε σ α) := fun _ h => h

theorem Keeps.get : Keeps I (MonadState.get : EStateM ε σ σ) := fun _ h => h

/-- Sequencing: the second program starts only where the first ended normally. -/
theorem Keeps.bind {x : EStateM ε σ α} {f : α → EStateM ε σ β} (hx : Keeps I x)
    (hf : ∀ a, Keeps I (f a)) : Keeps I (x >>= f) := by
  intro s hs
  have h1 := hx s hs
  rw [EStateM.run_bind]
  cases hrun : x.run s with
  | ok a s1 => rw [hrun] at h1; exact hf a s1 h1
  | error e s1 => rw [hrun] at h1; exact h1

/-- A loop over a list keeps what every round keeps. -/
theorem Keeps.foldlM {f : β → α → EStateM ε σ β} (hf : ∀ b a, Keeps I (f b a)) :
    ∀ (l : List α) (b : β), Keeps I (l.foldlM f b)
  | [], b => Keeps.pure b
  | a :: l, b => by
    rw [List.foldlM_cons]
    exact Keeps.bind (hf b a) fun b' => Keeps.foldlM hf l b'

/-! ## Running a sequence -/

theorem run_bind_ok {x : EStateM ε σ α} {f : α → EStateM ε σ β} {s s1 : σ} {a : α}
    (h : x.run s = .ok a s1) : (x >>= f).run s = (f a).run s1 := by
  rw [EStateM.run_bind, h]

theorem run_bind_error {x : EStateM ε σ α} {f : α → EStateM ε σ β} {s s1 : σ} {e : ε}
    (h : x.run s = .error e s1) : (x >>= f).run s = .error e s1 := by
  rw [EStateM.run_bind, h]

/-! ## Read-only steps -/

@[simp] theorem run_ofExcept_ok (a : α) (s : σ) :
    (ofExcept (.ok a) : EStateM ε σ α).run s = .ok a s := rfl

@[simp] theorem run_ofExcept_error (e : ε) (s : σ) :
    (ofExcept (.error e) : EStateM ε σ α).run s = .error e s := rfl

/-- A computation that only reads keeps every invariant. -/
theorem Keeps.ofExcept : ∀ x : Except ε α, Keeps I (ofExcept x : EStateM ε σ α)
  | .ok a => Keeps.pure a
  | .error e => Keeps.throw e

/-! ## How much a program adds -/

/-- **`x` adds at most** `m` to the size of the state when it ends normally, and at most `e` when it
    does not. Both may be negative. -/
def Adds (size : σ → ℤ) (m e : ℤ) (x : EStateM ε σ α) : Prop :=
  ∀ s, match x.run s with
    | .ok _ s' => size s' ≤ size s + m
    | .error _ s' => size s' ≤ size s + e

variable {size : σ → ℤ} {m m₁ m₂ e e₁ e₂ : ℤ}

theorem Adds.exitState {x : EStateM ε σ α} (h : Adds size m m x) (s : σ) :
    size (Exits.exitState (x.run s)) ≤ size s + m := by
  have hs := h s
  cases hrun : x.run s with
  | ok a s' => rwa [hrun] at hs
  | error e s' => rwa [hrun] at hs

theorem Adds.mono {x : EStateM ε σ α} (h : Adds size m₁ e₁ x) (hm : m₁ ≤ m) (he : e₁ ≤ e) :
    Adds size m e x := by
  intro s
  have hs := h s
  cases hrun : x.run s with
  | ok a s' =>
    rw [hrun] at hs
    exact le_trans hs (Int.add_le_add_left hm _)
  | error err s' =>
    rw [hrun] at hs
    exact le_trans hs (Int.add_le_add_left he _)

theorem Adds.pure (a : α) : Adds size 0 0 (Pure.pure a : EStateM ε σ α) := fun s =>
  (Int.add_zero (size s)).ge

theorem Adds.get : Adds size 0 0 (MonadState.get : EStateM ε σ σ) :=
  fun s => (Int.add_zero (size s)).ge

theorem Adds.ofExcept : ∀ x : Except ε α, Adds size 0 0 (ofExcept x : EStateM ε σ α)
  | .ok a => Adds.pure a
  | .error _ => fun s => (Int.add_zero (size s)).ge

/-- Sequencing: the second program adds to what the first has added, if that has ended normally. -/
theorem Adds.bind {x : EStateM ε σ α} {f : α → EStateM ε σ β} (hx : Adds size m₁ e₁ x)
    (hf : ∀ a, Adds size m₂ e₂ (f a)) (hm : m₁ + m₂ ≤ m) (he : e₁ ≤ e) (hme : m₁ + e₂ ≤ e) :
    Adds size m e (x >>= f) := by
  intro s
  have hfirst := hx s
  rw [EStateM.run_bind]
  cases hrun : x.run s with
  | error err s1 =>
    rw [hrun] at hfirst
    exact le_trans hfirst (Int.add_le_add_left he _)
  | ok a s1 =>
    rw [hrun] at hfirst
    have hsecond := hf a s1
    dsimp only at hfirst ⊢
    cases hrun' : (f a).run s1 with
    | ok b s2 =>
      rw [hrun'] at hsecond
      dsimp only at hsecond ⊢
      omega
    | error err s2 =>
      rw [hrun'] at hsecond
      dsimp only at hsecond ⊢
      omega

/-- Sequencing after a program that adds nothing. -/
theorem Adds.andThen {x : EStateM ε σ α} {f : α → EStateM ε σ β} (hx : Adds size 0 0 x)
    (hf : ∀ a, Adds size m e (f a)) (he : 0 ≤ e) : Adds size m e (x >>= f) :=
  hx.bind hf (zero_add m).le he (zero_add e).le

/-- A loop over a list whose rounds add nothing. -/
theorem Adds.foldlM {f : β → α → EStateM ε σ β} (hf : ∀ b a, Adds size 0 0 (f b a)) :
    ∀ (l : List α) (b : β), Adds size 0 0 (l.foldlM f b)
  | [], b => Adds.pure b
  | a :: l, b => by
    rw [List.foldlM_cons]
    exact (hf b a).andThen (fun b' => Adds.foldlM hf l b') (le_refl 0)

end Exits
