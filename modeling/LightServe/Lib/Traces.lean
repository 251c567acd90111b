import Mathlib.Data.Nat.Notation

/-!
# Traces and scripts

A trace is a run of a system, by its actions. Where the actions are computed, a script of them can
be played, each as long as it meets a condition on the state that it is taken in; what a script
plays is a trace.

## Main definitions

* `Trace` — a run, by its actions.
* `Trace.play` — a script played.
-/

namespace LightServe

/-- A run of a system from one state to another. -/
inductive Trace {σ α : Type} (Next : σ → α → σ → Prop) : σ → List α → σ → Prop
  | nil (s : σ) : Trace Next s [] s
  | cons {s t u : σ} {a : α} {as : List α} (h : Next s a t) (htail : Trace Next t as u) :
      Trace Next s (a :: as) u

namespace Trace
variable {σ α : Type} {Next : σ → α → σ → Prop} {s t : σ} {as : List α}

/-- What every action keeps a run keeps. -/
theorem invariant {I : σ → Prop} (hinv : ∀ s a t, I s → Next s a t → I t)
    (h : Trace Next s as t) (hs : I s) : I t := by
  induction h with
  | nil => exact hs
  | cons hn _ ih => exact ih (hinv _ _ _ hs hn)

/-- A run by actions that tell less. -/
theorem map {β : Type} {Next' : σ → β → σ → Prop} (f : α → β)
    (hnext : ∀ s a t, Next s a t → Next' s (f a) t) (h : Trace Next s as t) :
    Trace Next' s (as.map f) t := by
  induction h with
  | nil s => exact .nil s
  | cons hn _ ih => exact .cons (hnext _ _ _ hn) ih

section Play
variable {act : σ → α → Option σ} {Meets : σ → α → Prop} [∀ s a, Decidable (Meets s a)]

/-- Take the actions of a script in a row, each in a state in which it meets `Meets`. -/
def play (act : σ → α → Option σ) (Meets : σ → α → Prop) [∀ s a, Decidable (Meets s a)] (s : σ) :
    List α → Option σ
  | [] => some s
  | a :: as => if Meets s a then (act s a).bind fun t => play act Meets t as else none

/-- What a script plays is a trace. -/
theorem of_play (hnext : ∀ s a t, act s a = some t → Next s a t)
    (h : play act Meets s as = some t) : Trace (fun s a t => Meets s a ∧ Next s a t) s as t := by
  induction as generalizing s with
  | nil =>
    obtain rfl := Option.some.inj h
    exact .nil s
  | cons a as ih =>
    rw [play] at h
    split at h
    · rename_i hm
      obtain ⟨u, hu, hrest⟩ := Option.bind_eq_some_iff.mp h
      exact .cons ⟨hm, hnext _ _ _ hu⟩ (ih hrest)
    · cases h

/-- What the actions of a script keep its end has. -/
theorem invariant_of_play {I : σ → Prop}
    (hinv : ∀ s, ∀ a ∈ as, ∀ t, I s → Meets s a → act s a = some t → I t)
    (h : play act Meets s as = some t) (hs : I s) : I t := by
  induction as generalizing s with
  | nil =>
    obtain rfl := Option.some.inj h
    exact hs
  | cons a as ih =>
    rw [play] at h
    split at h
    · rename_i hm
      obtain ⟨u, hu, hrest⟩ := Option.bind_eq_some_iff.mp h
      exact ih (fun s a ha => hinv s a (List.mem_cons_of_mem _ ha)) hrest
        (hinv s a List.mem_cons_self u hs hm hu)
    · cases h

end Play

end Trace

end LightServe
