import Mathlib.Data.List.TakeDrop
import Mathlib.Data.Nat.Notation
import Mathlib.Tactic.TypeStar

/-!
# Causal layers

A causal layer turns each row of a sequence into a new one. It keeps one entry for each row, which
depends on the row and its position, and what comes out at a position depends on the row there
and on the entries up to it. Layers are stacked, each on the rows that the one below returns.
Rows that follow others come out the same whether the others are there or only their entries.

## Main definitions

* `CausalLayer` — what an entry is, and what comes out.
* `CausalLayer.entries`, `CausalLayer.extend` — a layer over rows that follow a context.
* `CausalLayer.stack` — layers over a whole sequence.
-/

/-- A layer over rows `σ` with entries `κ`. -/
structure CausalLayer (σ κ : Type*) where
  /-- The entry of a row at a position. -/
  entry : ℕ → σ → κ
  /-- What comes out at a position, from the row there and the entries up to it. -/
  out : ℕ → σ → List κ → σ

namespace CausalLayer
variable {σ κ : Type*} (L : CausalLayer σ κ)

/-- The entries of rows from position `start` on. -/
def entries (start : ℕ) (rows : List σ) : List κ := rows.mapIdx fun i row => L.entry (start + i) row

/-- What comes out of rows that follow a context, of which there are only the entries. -/
def extend (context : List κ) (rows : List σ) : List σ :=
  rows.mapIdx fun i row => L.out (context.length + i) row
    ((context ++ L.entries context.length rows).take (context.length + i + 1))

/-- A layer over a whole sequence. -/
def apply (rows : List σ) : List σ := L.extend [] rows

/-- Layers over a whole sequence, the lowest first. -/
def stack : List (CausalLayer σ κ) → List σ → List σ
  | [], rows => rows
  | L :: layers, rows => stack layers (L.apply rows)

variable (start : ℕ) (context : List κ) (a b rows : List σ)

@[simp] theorem entries_nil : L.entries start [] = [] := rfl

@[simp] theorem length_entries : (L.entries start rows).length = rows.length := by simp [entries]

@[simp] theorem length_extend : (L.extend context rows).length = rows.length := by simp [extend]

@[simp] theorem length_apply : (L.apply rows).length = rows.length := L.length_extend [] rows

theorem entries_append :
    L.entries start (a ++ b) = L.entries start a ++ L.entries (start + a.length) b := by
  simp only [entries, List.mapIdx_append, Nat.add_right_comm start, Nat.add_assoc]

/-- Rows that follow others need only their entries. -/
theorem extend_append : L.extend context (a ++ b) =
    L.extend context a ++ L.extend (context ++ L.entries context.length a) b := by
  simp only [extend, List.mapIdx_append]
  congr 1
  · refine List.ext_getElem (by simp) fun i hi hi' => ?_
    simp only [List.length_mapIdx] at hi
    simp only [List.getElem_mapIdx, entries_append, ← List.append_assoc]
    rw [List.take_append_of_le_length]
    simp only [List.length_append, length_entries]
    omega
  · refine List.ext_getElem (by simp) fun i hi hi' => ?_
    simp only [List.getElem_mapIdx, entries_append, List.length_append, length_entries,
      List.append_assoc]
    rw [Nat.add_comm i a.length, ← Nat.add_assoc]

theorem apply_append : L.apply (a ++ b) = L.apply a ++ L.extend (L.entries 0 a) b :=
  L.extend_append [] a b

@[simp] theorem length_stack (layers : List (CausalLayer σ κ)) :
    (stack layers rows).length = rows.length := by
  induction layers generalizing rows with
  | nil => rfl
  | cons L layers ih => rw [stack, ih, length_apply]

end CausalLayer
