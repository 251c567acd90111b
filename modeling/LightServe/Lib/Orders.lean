import Mathlib.Data.Finset.Dedup
import Mathlib.Data.List.Perm.Basic

/-!
# Orders that a program does not choose

The order in which the elements of a set come when it is iterated, and the order that a shuffle
leaves. A theorem about a program takes them as arbitrary.

## Main definitions

* `SetOrder` — the orders of sets, iteration by iteration.
* `Shuffle` — a shuffle of lists.
-/

/-- The order of a set in the `n`-th iteration of a program. -/
structure SetOrder (α : Type*) where
  list : ℕ → Finset α → List α
  nodup : ∀ n s, (list n s).Nodup
  mem_list : ∀ {n s x}, x ∈ list n s ↔ x ∈ s

attribute [simp] SetOrder.mem_list

/-- A shuffle: it changes the order of a list, and nothing else. -/
structure Shuffle (α : Type*) where
  run : List α → List α
  perm : ∀ l, (run l).Perm l

noncomputable instance {α : Type*} : Inhabited (SetOrder α) :=
  ⟨{ list := fun _ s => s.toList, nodup := fun _ s => s.nodup_toList, mem_list := by simp }⟩

instance {α : Type*} : Inhabited (Shuffle α) := ⟨{ run := id, perm := .refl }⟩
