import LightServe.Lib.Rounding
import Mathlib.Tactic.FieldSimp
import Mathlib.Tactic.Ring

/-!
# Symmetric quantisation

A vector as integer codes and one step, the step taken from the largest magnitude of the vector
and never shorter than that of a guard. The largest magnitude is hit exactly, so the codes of
values that codes stand for are these codes again.

## Main definitions

* `Quantization.Peak` — the largest magnitude of a vector.
* `Quantization.step` — the step with which a magnitude takes `n` codes on either side.
* `Quantization.code` — the code of a number.
* `Quantization.Peak.step_eq` — the values of the codes have the step of the vector.
-/

namespace Quantization

open Rounding

variable {K : Type*} [Field K] [LinearOrder K]

/-- The largest magnitude of a vector. -/
structure Peak (x : List K) (m : K) : Prop where
  exists_mem : ∃ a ∈ x, |a| = m
  le : ∀ a ∈ x, |a| ≤ m

/-- The step with which a magnitude takes `n` codes on either side; magnitudes below the guard
are as the guard. -/
def step (n : ℕ) (guard m : K) : K := max m guard / n

variable [FloorRing K]

/-- The code of a number: the nearest multiple of the step. -/
def code (s a : K) : ℤ := roundEven (a / s)

/-- The codes of a vector. -/
def codes (s : K) (x : List K) : List ℤ := x.map (code s)

/-- The values that codes stand for. -/
def values (s : K) (q : List ℤ) : List K := q.map fun c : ℤ => c * s

variable [IsStrictOrderedRing K] {n : ℕ} {guard m m' s a : K} {x : List K}

/-! ## One number -/

omit [FloorRing K] in
theorem step_pos (hn : 0 < n) (hguard : 0 < guard) : 0 < step n guard m :=
  div_pos (lt_max_of_lt_right hguard) (Nat.cast_pos.mpr hn)

omit [IsStrictOrderedRing K] in
theorem mul_step (hn : 0 < n) : (n : K) * step n guard m = max m guard := by
  have hne : (n : K) ≠ 0 := Nat.cast_ne_zero.mpr hn.ne'
  rw [step]
  field_simp

/-- A number is at most half a step from the value of its code. -/
theorem abs_code_mul_sub_le (hs : 0 < s) (a : K) : |(code s a : K) * s - a| ≤ s / 2 := by
  have hfactor : (code s a : K) * s - a = ((code s a : K) - a / s) * s := by
    rw [sub_mul, div_mul_cancel₀ a hs.ne']
  have hround := mul_le_mul_of_nonneg_right (abs_roundEven_sub_le (a / s)) hs.le
  rw [hfactor, abs_mul, abs_of_pos hs]
  exact hround.trans_eq (by ring)

/-- The value of a code has this code. -/
@[simp] theorem code_mul (hs : s ≠ 0) (c : ℤ) : code s (c * s) = c := by
  rw [code, mul_div_cancel_right₀ _ hs, roundEven_intCast]

/-- No code of a vector is beyond `n`. -/
theorem abs_code_le (hn : 0 < n) (hguard : 0 < guard) (ha : |a| ≤ m) :
    |code (step n guard m) a| ≤ n := by
  have hs := step_pos (m := m) hn hguard
  refine abs_roundEven_le ?_
  rw [abs_div, abs_of_pos hs, div_le_iff₀ hs, Int.cast_natCast, mul_step hn]
  exact ha.trans (le_max_left _ _)

/-- The largest magnitude, unless it is below the guard, has the code `n` or `-n`. -/
theorem abs_code_peak (hn : 0 < n) (hguard : 0 < guard) (hle : guard ≤ m) (ha : |a| = m) :
    |(code (step n guard m) a : K) * step n guard m| = m := by
  have hs := step_pos (m := m) hn hguard
  have htop : (n : K) * step n guard m = m := by rw [mul_step hn, max_eq_left hle]
  have hcode : a = ((if 0 ≤ a then (n : ℤ) else -n : ℤ) : K) * step n guard m := by
    split
    · rename_i hsign
      rw [Int.cast_natCast, htop, ← ha, abs_of_nonneg hsign]
    · rename_i hsign
      rw [Int.cast_neg, Int.cast_natCast, neg_mul, htop, ← ha,
        abs_of_neg (not_le.mp hsign), neg_neg]
  rw [hcode, code_mul hs.ne', ← hcode, ha]

/-! ## Vectors -/

@[simp] theorem codes_values (hs : s ≠ 0) (q : List ℤ) : codes s (values s q) = q := by
  rw [codes, values, List.map_map]
  exact List.map_id'' (code_mul hs) q

/-- The values of the codes of a vector have the step of the vector. -/
theorem Peak.step_eq (h : Peak x m) (hn : 0 < n) (hguard : 0 < guard)
    (h' : Peak (values (step n guard m) (codes (step n guard m) x)) m') :
    step n guard m' = step n guard m := by
  have hs := step_pos (m := m) hn hguard
  have hvalues : values (step n guard m) (codes (step n guard m) x) =
      x.map fun a => (code (step n guard m) a : K) * step n guard m := by
    rw [values, codes, List.map_map]
    rfl
  rw [hvalues] at h'
  have hle : m' ≤ max m guard := by
    obtain ⟨b, hb, rfl⟩ := h'.exists_mem
    obtain ⟨a, ha, rfl⟩ := List.mem_map.mp hb
    have hcode : |(code (step n guard m) a : K)| ≤ n := by
      exact_mod_cast abs_code_le hn hguard (h.le a ha)
    rw [abs_mul, abs_of_pos hs, ← mul_step hn]
    exact mul_le_mul_of_nonneg_right hcode hs.le
  have hge : max m guard ≤ max m' guard := by
    rcases lt_or_ge m guard with hlt | hge
    · exact max_le (hlt.le.trans (le_max_right _ _)) (le_max_right _ _)
    · obtain ⟨a, ha, hpeak⟩ := h.exists_mem
      have hhit := h'.le _ (List.mem_map_of_mem ha)
      rw [abs_code_peak hn hguard hge hpeak] at hhit
      exact max_le_max_right guard hhit
  rw [step, step, le_antisymm (max_le hle (le_max_right _ _)) hge]

end Quantization
