import Mathlib.Algebra.BigOperators.Field
import Mathlib.Algebra.Order.BigOperators.Group.Finset
import Mathlib.Algebra.Order.Field.Basic
import Mathlib.Order.WithBot
import Mathlib.Data.Finset.Lattice.Fold
import Mathlib.Tactic.Ring

/-!
# Online softmax

A softmax-weighted sum, computed tile by tile: the largest score so far, the sum of the weights
relative to it and the weighted sum of the values, all rescaled when the largest score grows. A
score of `⊥` is masked. A state with no score but `⊥` has no weights to be rescaled, and the
next one has no value.

The exponential is any positive function that turns sums into products.

## Main definitions

* `OnlineSoftmax.State.step` — take in a tile of keys.
* `OnlineSoftmax.Summarises` — a state and the keys it has taken in.
* `OnlineSoftmax.Summarises.step`, `OnlineSoftmax.Summarises.foldlM` — it is kept.
* `OnlineSoftmax.Summarises.quotient` — the quotient is the softmax-weighted sum.
* `OnlineSoftmax.Summarises.logSumExp` — and what is left is the logarithm of its denominator.
-/

namespace OnlineSoftmax

open Finset

variable {ι δ K : Type*} [Field K] (exp : K → K)

/-- The weight of a score relative to another; a masked score has none. -/
def weight (x : WithBot K) (m : K) : K := x.recBotCoe 0 fun x => exp (x - m)

/-- The weight of a score relative to the largest, of which there may be none yet. -/
def relative (x m : WithBot K) : K := m.recBotCoe 0 (weight exp x)

/-- The softmax of scores over some keys. -/
def softmax (keys : Finset ι) (x : ι → K) (i : ι) : K := exp (x i) / ∑ j ∈ keys, exp (x j)

/-- The largest score so far, the sum of the weights and the weighted sum of the values. -/
structure State (K δ : Type*) where
  max : WithBot K
  denom : K
  acc : δ → K

/-- The state before any key. -/
def State.start : State K δ where
  max := ⊥
  denom := 0
  acc _ := 0

section Weights
variable {exp}

@[simp] theorem weight_bot (m : K) : weight exp ⊥ m = 0 := rfl

@[simp] theorem weight_coe (x m : K) : weight exp x m = exp (x - m) := rfl

@[simp] theorem relative_bot (x : WithBot K) : relative exp x ⊥ = 0 := rfl

@[simp] theorem relative_coe (x : WithBot K) (m : K) : relative exp x m = weight exp x m := rfl

end Weights

section Order
variable [LinearOrder K]

/-- Take in a tile of keys. Without a score that is not masked the differences of scores are
not numbers, and neither is what comes of them. -/
def State.step (s : ι → WithBot K) (v : ι → δ → K) (st : State K δ) (tile : Finset ι) :
    Option (State K δ) :=
  (st.max ⊔ tile.sup s).recBotCoe none fun m => some
    { max := m
      denom := weight exp st.max m * st.denom + ∑ j ∈ tile, weight exp (s j) m
      acc := fun d => st.acc d * weight exp st.max m + ∑ j ∈ tile, weight exp (s j) m * v j d }

/-- What a state says of the keys that it has taken in. -/
structure Summarises (s : ι → WithBot K) (v : ι → δ → K) (keys : Finset ι) (st : State K δ) :
    Prop where
  max : st.max = keys.sup s
  denom : st.denom = ∑ j ∈ keys, relative exp (s j) st.max
  acc : ∀ d, st.acc d = ∑ j ∈ keys, relative exp (s j) st.max * v j d

variable {exp} {s : ι → WithBot K} {v : ι → δ → K} {keys tile : Finset ι} {st : State K δ}

theorem summarises_start : Summarises exp s v ∅ .start where
  max := sup_empty.symm
  denom := sum_empty.symm
  acc _ := sum_empty.symm

/-- Rescaling a weight to a larger score. -/
theorem weight_mul_relative (hadd : ∀ x y, exp (x + y) = exp x * exp y) {x m : WithBot K}
    (hx : x ≤ m) (m' : K) : weight exp m m' * relative exp x m = weight exp x m' := by
  cases m with
  | bot =>
    rw [le_bot_iff.mp hx]
    simp
  | coe m =>
    cases x with
    | bot => simp
    | coe x =>
      rw [relative_coe, weight_coe, weight_coe, weight_coe, ← hadd]
      congr 1
      ring

namespace Summarises
variable (hadd : ∀ x y, exp (x + y) = exp x * exp y)
include hadd

/-- A step takes in a tile of new keys, as soon as a score is not masked. -/
theorem step [DecidableEq ι] (h : Summarises exp s v keys st) (hnew : Disjoint keys tile)
    (hne : (keys ∪ tile).sup s ≠ ⊥) :
    ∃ st', st.step exp s v tile = some st' ∧ Summarises exp s v (keys ∪ tile) st' := by
  obtain ⟨m, hm⟩ := WithBot.ne_bot_iff_exists.mp hne
  have hmax : st.max ⊔ tile.sup s = m := by
    rw [h.max, ← sup_union, hm]
  have hold : ∀ j ∈ keys, weight exp st.max m * relative exp (s j) st.max = weight exp (s j) m :=
    fun j hj => weight_mul_relative hadd (h.max ▸ le_sup hj) m
  refine ⟨_, by rw [State.step, hmax]; rfl, ⟨hm, ?_, fun d => ?_⟩⟩
  · show weight exp st.max m * st.denom + _ = _
    rw [sum_union hnew, h.denom, mul_sum]
    congr 1
    exact sum_congr rfl hold
  · show st.acc d * weight exp st.max m + _ = _
    rw [sum_union hnew, h.acc, sum_mul]
    congr 1
    refine sum_congr rfl fun j hj => ?_
    rw [mul_right_comm, mul_comm (relative exp _ _), hold j hj]
    rfl

/-- Steps over a row of disjoint tiles, the first of which has a score that is not masked, take
in their keys. -/
theorem foldlM [DecidableEq ι] {tiles : List (Finset ι)} (h : Summarises exp s v keys st)
    (hnew : (keys :: tiles).Pairwise Disjoint)
    (hne : ∀ tile ∈ tiles.head?, (keys ∪ tile).sup s ≠ ⊥) :
    ∃ st', tiles.foldlM (fun st tile => st.step exp s v tile) st = some st' ∧
      Summarises exp s v (tiles.foldl (· ∪ ·) keys) st' := by
  induction tiles generalizing keys st with
  | nil => exact ⟨st, rfl, h⟩
  | cons tile tiles ih =>
    obtain ⟨hkeys, htiles⟩ := List.pairwise_cons.mp hnew
    obtain ⟨htile, hrest⟩ := List.pairwise_cons.mp htiles
    have hfirst := hne tile (by simp)
    obtain ⟨st₁, hstep, h₁⟩ := h.step hadd (hkeys tile List.mem_cons_self) hfirst
    have hnew' : ((keys ∪ tile) :: tiles).Pairwise Disjoint :=
      List.pairwise_cons.mpr ⟨fun t ht =>
        disjoint_union_left.mpr ⟨hkeys t (List.mem_cons_of_mem _ ht), htile t ht⟩, hrest⟩
    obtain ⟨st', hrun, h'⟩ := ih h₁ hnew' fun t _ hbot =>
      hfirst (le_bot_iff.mp (hbot ▸ sup_mono subset_union_left))
    refine ⟨st', ?_, h'⟩
    rw [List.foldlM_cons, hstep]
    exact hrun

/-- Relative to the largest score, the weights are the exponentials, up to one factor. -/
theorem relative_eq (h : Summarises exp s v keys st) {visible : Finset ι} {x : ι → K}
    (hvisible : visible ⊆ keys) (hne : visible.Nonempty) (hs : ∀ j ∈ visible, s j = x j)
    (hmasked : ∀ j ∈ keys, j ∉ visible → s j = ⊥) : ∃ m : K, st.max = m ∧
      (∀ j ∈ visible, relative exp (s j) st.max = exp (-m) * exp (x j)) ∧
      (∀ j ∈ keys, j ∉ visible → relative exp (s j) st.max = 0) ∧
      st.denom = exp (-m) * ∑ j ∈ visible, exp (x j) := by
  obtain ⟨i, hi⟩ := hne
  obtain ⟨m, hm⟩ : ∃ m : K, (m : WithBot K) = st.max := by
    refine WithBot.ne_bot_iff_exists.mp fun hbot => ?_
    have hle : s i ≤ st.max := h.max ▸ le_sup (hvisible hi)
    rw [hbot, hs i hi] at hle
    exact absurd (le_bot_iff.mp hle) WithBot.coe_ne_bot
  have hweight : ∀ j ∈ visible, relative exp (s j) st.max = exp (-m) * exp (x j) := by
    intro j hj
    rw [← hm, hs j hj, relative_coe, weight_coe, ← hadd]
    congr 1
    ring
  have hzero : ∀ j ∈ keys, j ∉ visible → relative exp (s j) st.max = 0 := by
    intro j hj hj'
    rw [← hm, hmasked j hj hj']
    rfl
  refine ⟨m, hm.symm, hweight, hzero, ?_⟩
  rw [h.denom, ← sum_subset hvisible hzero, mul_sum]
  exact sum_congr rfl hweight

/-- The quotient is the softmax-weighted sum over the keys that are not masked. -/
theorem quotient [IsStrictOrderedRing K] (hpos : ∀ x, 0 < exp x) (h : Summarises exp s v keys st)
    {visible : Finset ι} {x : ι → K} (hvisible : visible ⊆ keys) (hne : visible.Nonempty)
    (hs : ∀ j ∈ visible, s j = x j) (hmasked : ∀ j ∈ keys, j ∉ visible → s j = ⊥) (d : δ) :
    st.denom ≠ 0 ∧ st.acc d / st.denom = ∑ j ∈ visible, softmax exp visible x j * v j d := by
  obtain ⟨m, -, hweight, hzero, hdenom⟩ := h.relative_eq hadd hvisible hne hs hmasked
  have hacc : st.acc d = exp (-m) * ∑ j ∈ visible, exp (x j) * v j d := by
    rw [h.acc, ← sum_subset hvisible fun j hj hj' => by rw [hzero j hj hj', zero_mul], mul_sum]
    exact sum_congr rfl fun j hj => by rw [hweight j hj, mul_assoc]
  have hsum : 0 < ∑ j ∈ visible, exp (x j) := sum_pos (fun j _ => hpos _) hne
  refine ⟨?_, ?_⟩
  · rw [hdenom]
    exact (mul_pos (hpos _) hsum).ne'
  · rw [hdenom, hacc, mul_div_mul_left _ _ (hpos _).ne', sum_div]
    refine sum_congr rfl fun j _ => ?_
    rw [softmax, div_mul_eq_mul_div]

/-- The largest score and the logarithm of the sum of the weights make the logarithm of the sum of
the exponentials. -/
theorem logSumExp [IsStrictOrderedRing K] (hpos : ∀ x, 0 < exp x) {log : K → K}
    (hlog : ∀ x, 0 < x → exp (log x) = x) (h : Summarises exp s v keys st) {visible : Finset ι}
    {x : ι → K} (hvisible : visible ⊆ keys) (hne : visible.Nonempty)
    (hs : ∀ j ∈ visible, s j = x j) (hmasked : ∀ j ∈ keys, j ∉ visible → s j = ⊥) :
    0 < st.denom ∧ ∃ m : K, st.max = m ∧ exp (m + log st.denom) = ∑ j ∈ visible, exp (x j) := by
  obtain ⟨m, hm, -, -, hdenom⟩ := h.relative_eq hadd hvisible hne hs hmasked
  have hsum : 0 < ∑ j ∈ visible, exp (x j) := sum_pos (fun j _ => hpos _) hne
  have hdpos : 0 < st.denom := hdenom ▸ mul_pos (hpos _) hsum
  have hone : exp 0 = 1 := by
    have hsq := hadd 0 0
    rw [add_zero] at hsq
    exact (mul_eq_left₀ (hpos 0).ne').mp hsq.symm
  refine ⟨hdpos, m, hm, ?_⟩
  rw [hadd, hlog _ hdpos, hdenom, ← mul_assoc, ← hadd, add_neg_cancel, hone, one_mul]

end Summarises

end Order

end OnlineSoftmax
