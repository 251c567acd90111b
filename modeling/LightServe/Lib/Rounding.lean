import Mathlib.Algebra.Order.Floor.Ring
import Mathlib.Algebra.Order.Field.Basic
import Mathlib.Algebra.Ring.Int.Parity
import Mathlib.Tactic.Linarith

/-!
# Rounding to even

The nearest integer, and of two nearest ones the even; the same to a number of decimal digits.

## Main definitions

* `Rounding.roundEven` — the nearest integer, ties to even.
* `Rounding.round` — the nearest number with some decimal digits.
* `Rounding.roundEven_mono`, `Rounding.round_mono` — they keep the order.
* `Rounding.abs_roundEven_sub_le` — the nearest integer is at most a half away.
-/

namespace Rounding

variable {K : Type*} [Field K] [LinearOrder K] [FloorRing K]

/-- The nearest integer, ties to even. -/
def roundEven (x : K) : ℤ :=
  if 2 * Int.fract x < 1 then ⌊x⌋
  else if 1 < 2 * Int.fract x then ⌊x⌋ + 1
  else if Even ⌊x⌋ then ⌊x⌋ else ⌊x⌋ + 1

/-- The nearest number with some decimal digits, ties to even. -/
def round (digits : ℕ) (x : K) : K := roundEven (x * 10 ^ digits) / 10 ^ digits

theorem floor_le_roundEven (x : K) : ⌊x⌋ ≤ roundEven x := by
  unfold roundEven
  split_ifs <;> omega

theorem roundEven_le_floor_add_one (x : K) : roundEven x ≤ ⌊x⌋ + 1 := by
  unfold roundEven
  split_ifs <;> omega

variable [IsStrictOrderedRing K] {x y : K}

@[simp] theorem roundEven_intCast (n : ℤ) : roundEven (n : K) = n := by
  simp [roundEven]

theorem abs_roundEven_sub_le (x : K) : |(roundEven x : K) - x| ≤ 1 / 2 := by
  have hfloor := Int.self_sub_floor x
  have hnonneg := Int.fract_nonneg x
  have hlt := Int.fract_lt_one x
  unfold roundEven
  split_ifs <;> push_cast <;> rw [abs_le] <;> constructor <;> linarith

theorem roundEven_mono (h : x ≤ y) : roundEven x ≤ roundEven y := by
  rcases (Int.floor_mono h).lt_or_eq with hlt | heq
  · have hx := roundEven_le_floor_add_one x
    have hy := floor_le_roundEven y
    omega
  · have hfract : Int.fract x ≤ Int.fract y := by
      rw [Int.fract, Int.fract, heq]
      linarith
    unfold roundEven
    rw [heq]
    by_cases hy : 2 * Int.fract y < 1
    · rw [if_pos hy, if_pos (by linarith)]
    · rw [if_neg hy]
      split_ifs <;> first | omega | (exfalso; linarith)

/-- What lies between two integers rounds to between them. -/
theorem abs_roundEven_le {n : ℤ} (h : |x| ≤ n) : |roundEven x| ≤ n := by
  obtain ⟨hlo, hhi⟩ := abs_le.mp h
  have hcast : ((-n : ℤ) : K) ≤ x := by
    push_cast
    exact hlo
  have hlow := roundEven_mono hcast
  have hhigh := roundEven_mono hhi
  rw [roundEven_intCast] at hlow hhigh
  exact abs_le.mpr ⟨hlow, hhigh⟩

theorem round_mono (digits : ℕ) (h : x ≤ y) : round digits x ≤ round digits y := by
  have hpow : (0 : K) < 10 ^ digits := by positivity
  refine div_le_div_of_nonneg_right (Int.cast_le.mpr (roundEven_mono ?_)) hpow.le
  exact mul_le_mul_of_nonneg_right h hpow.le

end Rounding
