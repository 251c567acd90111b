import LightServe.Lib.Launch
import Mathlib.Algebra.BigOperators.Group.Finset.Basic
import Mathlib.Algebra.Field.Defs
import Mathlib.Algebra.Order.BigOperators.Group.Finset
import Mathlib.Data.Nat.Log

/-!
# The fused norm

`_fused_add_rmsnorm_kernel` of `kernels/fused_rmsnorm_residual.py` over exact numbers: a program
owns a row, adds the residual to it once, stores the sum as the new residual and norms it by the
root of the mean of its squares. A row is loaded at once, padded to a power of two; what a mask
keeps from being loaded is zero.

## Main definitions

* `FusedRmsNorm.residualStores`, `FusedRmsNorm.outStores` — what a launch stores.
* `rmsNorm` — the norm of a row.
* `FusedRmsNorm.residual_tensor`, `FusedRmsNorm.out_tensor` — what the tensors hold.
-/

namespace LightServe

open Finset

/-- The root-mean-square norm of a row of `n` entries, scaled by a weight. -/
def rmsNorm {K : Type} [Field K] (sqrt : K → K) (eps : K) (n : ℕ) (h weight : ℕ → K) (j : ℕ) : K :=
  h j * (1 / sqrt ((∑ i ∈ range n, h i * h i) / n + eps)) * weight j

/-- A launch of the kernel: the sizes, and the tensors by row and column. -/
structure FusedRmsNorm (K : Type) where
  M : ℕ
  N : ℕ
  x : ℕ → ℕ → K
  residual : ℕ → ℕ → K
  weight : ℕ → K
  eps : K

namespace FusedRmsNorm
variable {K : Type} (l : FusedRmsNorm K)

/-- `next_power_of_2` of the width of a row. -/
def blockN : ℕ := 2 ^ Nat.clog 2 l.N

theorem le_blockN : l.N ≤ l.blockN := Nat.le_pow_clog Nat.one_lt_two _

section Program
variable [Field K] (sqrt : K → K) (row : ℕ)

/-- A masked load of one entry of a row. -/
def load (x : ℕ → K) (n : ℕ) : K := if n < l.N then x n else 0

/-- The sum that a program keeps in registers. -/
def sum (n : ℕ) : K := l.load (l.x row) n + l.load (l.residual row) n

/-- The mean of the squares: the padding adds nothing, and does not count. -/
def variance : K := (∑ n ∈ range l.blockN, l.sum row n * l.sum row n) / l.N

/-- What a program has for an entry of its row. -/
def out (n : ℕ) : K := l.sum row n * (1 / sqrt (l.variance row + l.eps)) * l.load l.weight n

/-- The columns that the mask lets a program store. -/
def offsN : List ℕ := (List.range l.blockN).filter fun n => n < l.N

/-- What a launch stores as the new residual. -/
def residualStores : List ((ℕ × ℕ) × K) :=
  (List.range l.M).flatMap fun row => l.offsN.map fun n => ((row, n), l.sum row n)

/-- What a launch stores as its output. -/
def outStores : List ((ℕ × ℕ) × K) :=
  (List.range l.M).flatMap fun row => l.offsN.map fun n => ((row, n), l.out sqrt row n)

end Program

section Stores
variable [Field K] {l} {sqrt : K → K} {row n : ℕ}

omit [Field K] in
theorem mem_offsN : n ∈ l.offsN ↔ n < l.N := by
  rw [offsN, List.mem_filter, List.mem_range, decide_eq_true_eq]
  exact and_iff_right_of_imp fun h => h.trans_le l.le_blockN

omit [Field K] in
/-- A program stores its row once. -/
theorem mem_rowStores {value : ℕ → ℕ → K} {v : K} :
    ((row, n), v) ∈
        ((List.range l.M).flatMap fun row => l.offsN.map fun n => ((row, n), value row n)) ↔
      row < l.M ∧ n < l.N ∧ v = value row n := by
  simp only [List.mem_flatMap, List.mem_range, List.mem_map, mem_offsN, Prod.mk.injEq]
  constructor
  · rintro ⟨row, hrow, n, hn, ⟨rfl, rfl⟩, rfl⟩
    exact ⟨hrow, hn, rfl⟩
  · rintro ⟨hrow, hn, rfl⟩
    exact ⟨row, hrow, n, hn, ⟨rfl, rfl⟩, rfl⟩

theorem sum_eq (hn : n < l.N) : l.sum row n = l.x row n + l.residual row n := by
  rw [sum, load, load, if_pos hn, if_pos hn]

/-- The padding of a row adds nothing to its squares. -/
theorem variance_eq : l.variance row =
    (∑ n ∈ range l.N, (l.x row n + l.residual row n) * (l.x row n + l.residual row n)) / l.N := by
  rw [variance]
  congr 1
  refine (sum_subset_zero_on_sdiff (range_mono l.le_blockN) (fun n hn => ?_) fun n hn => ?_).symm
  · rw [mem_sdiff, mem_range, mem_range] at hn
    rw [sum, load, load, if_neg hn.2, if_neg hn.2, add_zero, zero_mul]
  · rw [sum_eq (mem_range.mp hn)]

theorem out_eq (hn : n < l.N) : l.out sqrt row n =
    rmsNorm sqrt l.eps l.N (fun j => l.x row j + l.residual row j) l.weight n := by
  rw [out, rmsNorm, sum_eq hn, variance_eq, load, if_pos hn]

/-- The new residual is the sum. -/
theorem residual_tensor {empty : ℕ × ℕ → K} (hrow : row < l.M) (hn : n < l.N) :
    Launch.tensor l.residualStores empty (row, n) = l.x row n + l.residual row n := by
  rw [← sum_eq hn]
  exact Launch.tensor_eq (mem_rowStores.mpr ⟨hrow, hn, rfl⟩) fun x hx => (mem_rowStores.mp hx).2.2

/-- The output is the norm of the sum. -/
theorem out_tensor {empty : ℕ × ℕ → K} (hrow : row < l.M) (hn : n < l.N) :
    Launch.tensor (l.outStores sqrt) empty (row, n) =
      rmsNorm sqrt l.eps l.N (fun j => l.x row j + l.residual row j) l.weight n := by
  rw [← out_eq hn]
  exact Launch.tensor_eq (mem_rowStores.mpr ⟨hrow, hn, rfl⟩) fun x hx => (mem_rowStores.mp hx).2.2

end Stores

end FusedRmsNorm

end LightServe
