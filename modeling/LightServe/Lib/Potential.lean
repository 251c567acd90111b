import LightServe.Lib.Traces
import Mathlib.Algebra.Ring.Nat
import Mathlib.Algebra.BigOperators.Group.List.Basic

/-!
# Potentials under interference

Some of a system's actions are its own work, the others come from outside. If work lowers a
potential wherever the system is not at rest, and what comes from outside raises it by a cost, then
a run with more work in it than the potential at its start and the costs on its way has been at
rest.

## Main definitions

* `Trace.rests` — the argument.
-/

namespace LightServe

namespace Trace
variable {σ α : Type} {Next : σ → α → σ → Prop} {s t : σ} {as : List α}

/-- With enough work in it a run has been at rest. -/
theorem rests {I R : σ → Prop} {potential : σ → ℕ} {works : α → Bool} {cost : α → ℕ}
    (hinv : ∀ s a t, I s → Next s a t → I t)
    (hwork : ∀ s a t, I s → ¬ R s → Next s a t → works a = true → potential t < potential s)
    (hother : ∀ s a t, I s → Next s a t → works a = false → potential t ≤ potential s + cost a)
    (h : Trace Next s as t) (hs : I s)
    (hlt : potential s + (as.map cost).sum < as.countP works) :
    ∃ pre post u, as = pre ++ post ∧ Trace Next s pre u ∧ R u ∧ Trace Next u post t := by
  induction h with
  | nil => exact absurd hlt (Nat.not_lt_zero _)
  | @cons s v u a as hn htail ih =>
    by_cases hrest : R s
    · exact ⟨[], a :: as, s, rfl, .nil s, hrest, .cons hn htail⟩
    · rw [List.map_cons, List.sum_cons] at hlt
      obtain ⟨pre, post, r, rfl, hpre, hr, hpost⟩ := ih (hinv _ _ _ hs hn) (by
        cases hw : works a with
        | true =>
          have hdrop := hwork _ _ _ hs hrest hn hw
          rw [List.countP_cons_of_pos hw] at hlt
          omega
        | false =>
          have hrise := hother _ _ _ hs hn hw
          rw [List.countP_cons_of_neg (by simp [hw])] at hlt
          omega)
      exact ⟨a :: pre, post, r, rfl, .cons hn hpre, hr, hpost⟩

end Trace

end LightServe
