import Mathlib.Algebra.BigOperators.Intervals

/-!
# Tiles

Indices cut into tiles of one size, the last of which may go past the end. A sweep visits the
starts of the tiles; a sum that is taken tile by tile is the sum over the indices, when what lies
past the end adds nothing.

## Main definitions

* `Tiles.cdiv` — how many tiles cover a number of indices.
* `Tiles.sweep` — the starts of the tiles from `lo` on, up to `n`.
* `Tiles.foldl_sweep` — a sum taken tile by tile.
-/

namespace Tiles

open Finset

/-- How many tiles of size `b` cover `n` indices. -/
def cdiv (n b : ℕ) : ℕ := (n + b - 1) / b

/-- The starts of the tiles of size `b` from `lo` on, up to `n`. -/
def sweep (lo n b : ℕ) : List ℕ := (List.range (cdiv (n - lo) b)).map fun t => lo + t * b

variable {lo n b t i : ℕ}

theorem lt_cdiv_iff (hb : 0 < b) : t < cdiv n b ↔ t * b < n := by
  rw [cdiv, Nat.lt_div_iff_mul_lt hb]
  omega

theorem le_cdiv_mul (n : ℕ) (hb : 0 < b) : n ≤ cdiv n b * b := by
  have hcover := Nat.lt_div_mul_add (a := n + b - 1) hb
  rw [cdiv]
  omega

/-- An index is in the tile of its quotient. -/
theorem div_lt_cdiv (hb : 0 < b) (hi : i < n) : i / b < cdiv n b :=
  (lt_cdiv_iff hb).mpr ((Nat.div_mul_le_self i b).trans_lt hi)

/-- The indices of a tile. -/
theorem mem_tile (hb : 0 < b) : i ∈ (List.range b).map (t * b + ·) ↔ i / b = t := by
  rw [List.mem_map]
  constructor
  · rintro ⟨r, hr, rfl⟩
    rw [Nat.add_comm, Nat.add_mul_div_right _ _ hb, Nat.div_eq_of_lt (List.mem_range.mp hr),
      Nat.zero_add]
  · rintro rfl
    exact ⟨i % b, List.mem_range.mpr (Nat.mod_lt i hb), Nat.div_add_mod' i b⟩

theorem nodup_tile : ((List.range b).map (t * b + ·)).Nodup :=
  List.nodup_range.map fun _ _ => Nat.add_left_cancel

/-! ## Sums -/

section Sums
variable {M : Type*} [AddCommMonoid M]

theorem sum_tiles (lo b : ℕ) (f : ℕ → M) (tiles : ℕ) :
    ∑ t ∈ range tiles, ∑ i ∈ Ico (lo + t * b) (lo + t * b + b), f i =
      ∑ i ∈ Ico lo (lo + tiles * b), f i := by
  induction tiles with
  | zero => simp
  | succ tiles ih =>
    rw [sum_range_succ, ih, sum_Ico_consecutive f (Nat.le_add_right _ _) (Nat.le_add_right _ _),
      Nat.succ_mul, Nat.add_assoc]

/-- What lies past the end adds nothing. -/
theorem sum_cdiv (hb : 0 < b) {f : ℕ → M} (hf : ∀ i, n ≤ i → f i = 0) :
    ∑ t ∈ range (cdiv (n - lo) b), ∑ i ∈ Ico (lo + t * b) (lo + t * b + b), f i =
      ∑ i ∈ Ico lo n, f i := by
  have hcover := le_cdiv_mul (n - lo) hb
  rw [sum_tiles]
  refine (sum_subset (Ico_subset_Ico_right (by omega)) fun i hi hi' => hf i ?_).symm
  rw [mem_Ico] at hi hi'
  omega

theorem sum_map_range (n : ℕ) (f : ℕ → M) : ((List.range n).map f).sum = ∑ i ∈ range n, f i :=
  (Multiset.sum_coe _).symm

theorem sum_map_flatMap {α β : Type*} (l : List α) (f : α → List β) (g : β → M) :
    ((l.flatMap f).map g).sum = (l.map fun x => ((f x).map g).sum).sum := by
  induction l with
  | nil => rfl
  | cons x l ih =>
    rw [List.flatMap_cons, List.map_append, List.sum_append, ih, List.map_cons, List.sum_cons]

theorem foldl_add {α : Type*} (l : List α) (g : α → M) (z : M) :
    l.foldl (fun acc x => acc + g x) z = z + (l.map g).sum := by
  induction l generalizing z with
  | nil => simp
  | cons x l ih => rw [List.foldl_cons, ih, List.map_cons, List.sum_cons, add_assoc]

theorem sum_sweep (hb : 0 < b) {g f : ℕ → M}
    (hg : ∀ start, g start = ∑ i ∈ Ico start (start + b), f i) (hf : ∀ i, n ≤ i → f i = 0) :
    ((sweep lo n b).map g).sum = ∑ i ∈ Ico lo n, f i := by
  rw [sweep, List.map_map, sum_map_range, ← sum_cdiv hb hf]
  exact sum_congr rfl fun t _ => hg _

/-- What lies before the start adds nothing either. -/
theorem sum_Ico_range {f : ℕ → M} (hlo : ∀ i < lo, f i = 0) :
    ∑ i ∈ Ico lo n, f i = ∑ i ∈ range n, f i := by
  rw [range_eq_Ico]
  refine sum_subset (Ico_subset_Ico_left (Nat.zero_le lo)) fun i hi hi' => hlo i ?_
  rw [mem_Ico] at hi hi'
  omega

/-- A sum that is taken tile by tile is the sum over the indices. -/
theorem foldl_sweep (hb : 0 < b) {g f : ℕ → M}
    (hg : ∀ start, g start = ∑ i ∈ Ico start (start + b), f i) (hf : ∀ i, n ≤ i → f i = 0)
    (hlo : ∀ i < lo, f i = 0) :
    (sweep lo n b).foldl (fun acc start => acc + g start) 0 = ∑ i ∈ range n, f i := by
  rw [foldl_add, zero_add, sum_sweep hb hg hf, sum_Ico_range hlo]

end Sums

end Tiles
