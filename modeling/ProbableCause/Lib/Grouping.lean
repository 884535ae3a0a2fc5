import Mathlib.Data.List.Basic

/-!
# `Lib.Grouping` — a list combined two at a time, in any order and any grouping

A `Grouping` is a binary tree over the elements of a list: which two results are combined at each
step. `eval` combines along it with an operation that may fail. `eval_spec` is its induction rule:
what relates a value to the elements it was made of, and is kept when two values are combined,
relates the result to all the leaves.
-/

/-- In which order the elements at the leaves are combined. -/
inductive Grouping (α : Type) where
  | leaf (a : α)
  | node (l r : Grouping α)

namespace Grouping

variable {α β : Type}

/-- The elements that are combined, from left to right. -/
def leaves : Grouping α → List α
  | leaf a => [a]
  | node l r => l.leaves ++ r.leaves

/-- The result; `none` where one of the combinations fails. -/
def eval (f : α → β) (op : β → β → Option β) : Grouping α → Option β
  | leaf a => some (f a)
  | node l r => do
    let x ← l.eval f op
    let y ← r.eval f op
    op x y

variable {f : α → β} {op : β → β → Option β}

/-- **Induction over a grouping.** -/
theorem eval_spec {P : β → List α → Prop} (T : Grouping α) (hleaf : ∀ a ∈ T.leaves, P (f a) [a])
    (hnode : ∀ x y l l', P x l → P y l' → ∃ z, op x y = some z ∧ P z (l ++ l')) :
    ∃ v, T.eval f op = some v ∧ P v T.leaves := by
  induction T with
  | leaf a => exact ⟨f a, rfl, hleaf a (List.mem_singleton_self a)⟩
  | node l r ihl ihr =>
    obtain ⟨x, hx, hPx⟩ := ihl fun a ha => hleaf a (List.mem_append_left _ ha)
    obtain ⟨y, hy, hPy⟩ := ihr fun a ha => hleaf a (List.mem_append_right _ ha)
    obtain ⟨z, hz, hPz⟩ := hnode x y _ _ hPx hPy
    exact ⟨z, by simp [eval, hx, hy, hz], hPz⟩

end Grouping
