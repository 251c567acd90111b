import Mathlib.Data.List.Induction
import Mathlib.Logic.Function.Basic

/-!
# What a launch leaves in memory

The programs of a launch store values at indices of a tensor that nobody has initialised. What the
tensor holds afterwards at an index that is stored with one value only is that value, whatever the
order of the stores and whatever was there before.

## Main definitions

* `Launch.tensor` — a tensor after some stores.
* `Launch.tensor_eq` — what it holds.
-/

namespace Launch

variable {ι α : Type*} [DecidableEq ι]

/-- A tensor after some stores, in order. -/
def tensor (stores : List (ι × α)) (empty : ι → α) : ι → α :=
  stores.foldl (fun t s => Function.update t s.1 s.2) empty

theorem tensor_concat (stores : List (ι × α)) (s : ι × α) (empty : ι → α) :
    tensor (stores ++ [s]) empty = Function.update (tensor stores empty) s.1 s.2 := by
  rw [tensor, List.foldl_append]
  rfl

/-- An index that is stored with one value only holds it. -/
theorem tensor_eq {stores : List (ι × α)} {empty : ι → α} {i : ι} {v : α} (hmem : (i, v) ∈ stores)
    (hall : ∀ x, (i, x) ∈ stores → x = v) : tensor stores empty i = v := by
  induction stores using List.reverseRecOn with
  | nil => cases hmem
  | append_singleton stores s ih =>
    obtain ⟨j, x⟩ := s
    rw [tensor_concat]
    by_cases hij : i = j
    · subst hij
      rw [Function.update_self]
      exact hall x (List.mem_append_right _ (List.mem_singleton_self _))
    · rw [Function.update_of_ne hij]
      refine ih ?_ fun y hy => hall y (List.mem_append_left _ hy)
      rcases List.mem_append.mp hmem with hmem | hmem
      · exact hmem
      · exact absurd (Prod.mk.inj (List.mem_singleton.mp hmem)).1 hij

end Launch
