import LightServe.Lib.Dict
import Mathlib.Logic.Relation

/-!
# Union-find

Groups as trees: a dictionary of parents, in which an element without an entry is its own. The root
of an element is found by going from parent to parent, with a bound on the steps; two elements are
united by hanging the root of one below that of the other. After any unions the paths are no longer
than the unions were many, and two elements have one root exactly when the unions connect them.

## Main definitions

* `UnionFind.find` — the root of an element.
* `UnionFind.union`, `UnionFind.unions` — unite two elements, or some pairs of them.
* `UnionFind.Forest` — all roots are found, and they tell which elements are connected.
* `UnionFind.Forest.union`, `UnionFind.Forest.unions` — it is kept.
-/

namespace LightServe

namespace UnionFind

open Relation

variable {α : Type}

/-! ## Classes -/

/-- Sending the class of one element to that of another connects the two. -/
theorem merge_eq_iff {β : Type*} [DecidableEq β] {R : α → α → Prop} {f f' : α → β} {a b : α}
    (hf : ∀ x y, f x = f y ↔ EqvGen R x y)
    (hf' : ∀ x, f' x = if f x = f a then f b else f x) (x y : α) :
    f' x = f' y ↔ EqvGen (fun x y => R x y ∨ (x = a ∧ y = b)) x y := by
  have hmono : ∀ {x y}, f x = f y → EqvGen (fun x y => R x y ∨ (x = a ∧ y = b)) x y :=
    fun h => EqvGen.mono (fun _ _ => Or.inl) _ _ ((hf _ _).mp h)
  have hab : EqvGen (fun x y => R x y ∨ (x = a ∧ y = b)) a b := .rel _ _ (Or.inr ⟨rfl, rfl⟩)
  constructor
  · intro h
    rw [hf', hf'] at h
    split at h
    · rename_i hx
      split at h
      · rename_i hy
        exact hmono (hx.trans hy.symm)
      · exact (hmono hx).trans _ _ _ (hab.trans _ _ _ (hmono h))
    · split at h
      · rename_i hy
        exact (hmono h).trans _ _ _ ((hab.symm _ _).trans _ _ _ (hmono hy.symm))
      · exact hmono h
  · intro h
    induction h with
    | rel x y h =>
      rcases h with h | ⟨rfl, rfl⟩
      · rw [hf', hf', (hf x y).mpr (.rel _ _ h)]
      · rw [hf', hf', if_pos rfl]
        split <;> rfl
    | refl x => rfl
    | symm x y _ ih => exact ih.symm
    | trans x y z _ _ ih ih' => exact ih.trans ih'

/-! ## Trees -/

variable [DecidableEq α]

/-- The parent of an element. -/
def parentOf (d : Dict α α) (x : α) : α := (d.lookup x).getD x

/-- The root of an element, in fewer steps than the bound. -/
def find (d : Dict α α) : ℕ → α → Option α
  | 0, _ => none
  | n + 1, x => if parentOf d x = x then some x else find d n (parentOf d x)

/-- Hang the root of the first below that of the second. -/
def union (fuel : ℕ) (d : Dict α α) (x y : α) : Option (Dict α α) := do
  let ry ← find d fuel y
  let rx ← find d fuel x
  some (d.set rx ry)

/-- Unite some pairs, one after the other. -/
def unions (fuel : ℕ) (pairs : List (α × α)) (d : Dict α α) : Option (Dict α α) :=
  pairs.foldlM (fun d pair => union fuel d pair.1 pair.2) d

section Find
variable {d : Dict α α} {n m : ℕ} {x r s : α}

theorem find_of_root (h : parentOf d x = x) (n : ℕ) : find d (n + 1) x = some x := if_pos h

theorem find_succ (h : parentOf d x ≠ x) (n : ℕ) :
    find d (n + 1) x = find d n (parentOf d x) := if_neg h

theorem parentOf_of_find (h : find d n x = some r) : parentOf d r = r := by
  induction n generalizing x with
  | zero => cases h
  | succ n ih =>
    by_cases hroot : parentOf d x = x
    · rw [find_of_root hroot, Option.some_inj] at h
      exact h ▸ hroot
    · rw [find_succ hroot] at h
      exact ih h

theorem find_mono (h : find d n x = some r) (hnm : n ≤ m) : find d m x = some r := by
  induction n generalizing x m with
  | zero => cases h
  | succ n ih =>
    obtain ⟨m, rfl⟩ := Nat.exists_eq_succ_of_ne_zero
      (Nat.ne_of_gt (Nat.lt_of_lt_of_le n.succ_pos hnm))
    by_cases hroot : parentOf d x = x
    · rwa [find_of_root hroot] at h ⊢
    · rw [find_succ hroot] at h ⊢
      exact ih h (Nat.le_of_succ_le_succ hnm)

theorem parentOf_set (d : Dict α α) (r s x : α) :
    parentOf (d.set r s) x = if x = r then s else parentOf d x := by
  rw [parentOf, Dict.lookup_set]
  split <;> rfl

/-- After a root is hung below another, what had it has the other. -/
theorem find_set (hr : parentOf d r = r) (hs : parentOf d s = s) {y : α}
    (h : find d n x = some y) :
    find (d.set r s) (n + 1) x = some (if y = r then s else y) := by
  induction n generalizing x with
  | zero => cases h
  | succ n ih =>
    by_cases hroot : parentOf d x = x
    · rw [find_of_root hroot, Option.some_inj] at h
      subst h
      by_cases hx : x = r
      · subst hx
        rw [if_pos rfl]
        by_cases hsx : s = x
        · rw [← hsx]
          exact find_of_root (by rw [parentOf_set, hsx, if_pos rfl]) _
        · rw [find_succ (by rwa [parentOf_set, if_pos rfl]), parentOf_set, if_pos rfl]
          exact find_of_root (by rwa [parentOf_set, if_neg hsx]) _
      · rw [if_neg hx]
        exact find_of_root (by rwa [parentOf_set, if_neg hx]) _
    · have hx : x ≠ r := fun heq => hroot (heq ▸ hr)
      have hparent : parentOf (d.set r s) x = parentOf d x := by rw [parentOf_set, if_neg hx]
      rw [find_succ hroot] at h
      rw [find_succ (by rwa [hparent]), hparent]
      exact ih h

end Find

/-! ## Connected elements -/

/-- All roots are found within a number of steps, and two elements have one root exactly when they
are connected. -/
structure Forest (d : Dict α α) (depth : ℕ) (R : α → α → Prop) : Prop where
  root : ∀ x, ∃ r, find d (depth + 1) x = some r
  same : ∀ x y, find d (depth + 1) x = find d (depth + 1) y ↔ EqvGen R x y

namespace Forest
variable {d : Dict α α} {depth fuel : ℕ} {R : α → α → Prop} {x y : α}

theorem empty : Forest (∅ : Dict α α) 0 fun _ _ => False where
  root x := ⟨x, find_of_root rfl 0⟩
  same x y := by
    rw [find_of_root (d := ∅) (x := x) rfl, find_of_root (d := ∅) (x := y) rfl, Option.some_inj]
    constructor
    · rintro rfl
      exact .refl _
    · intro h
      induction h with
      | rel _ _ h => exact h.elim
      | refl _ => rfl
      | symm _ _ _ ih => exact ih.symm
      | trans _ _ _ _ _ ih ih' => exact ih.trans ih'

theorem congr {S : α → α → Prop} (h : Forest d depth R) (hR : ∀ x y, R x y ↔ S x y) :
    Forest d depth S := by
  obtain rfl : R = S := funext₂ fun x y => propext (hR x y)
  exact h

/-- More steps find the same roots. -/
theorem find_eq (h : Forest d depth R) (hfuel : depth < fuel) (x : α) :
    find d fuel x = find d (depth + 1) x := by
  obtain ⟨r, hr⟩ := h.root x
  rw [hr, find_mono hr hfuel]

/-- A union makes the trees higher by one at most. -/
theorem union (h : Forest d depth R) (a b : α) :
    ∃ d', (∀ fuel, depth < fuel → union fuel d a b = some d') ∧
      Forest d' (depth + 1) fun x y => R x y ∨ (x = a ∧ y = b) := by
  obtain ⟨ra, hra⟩ := h.root a
  obtain ⟨rb, hrb⟩ := h.root b
  have hfind : ∀ x, find (d.set ra rb) (depth + 1 + 1) x =
      if find d (depth + 1) x = find d (depth + 1) a then find d (depth + 1) b
      else find d (depth + 1) x := by
    intro x
    obtain ⟨r, hr⟩ := h.root x
    rw [find_set (parentOf_of_find hra) (parentOf_of_find hrb) hr, hr, hra, hrb]
    by_cases heq : r = ra
    · rw [if_pos heq, if_pos (congrArg some heq)]
    · rw [if_neg heq, if_neg fun hc => heq (Option.some_inj.mp hc)]
  refine ⟨d.set ra rb, fun fuel hfuel => ?_, fun x => ?_, merge_eq_iff h.same hfind⟩
  · simp only [UnionFind.union, h.find_eq hfuel, hra, hrb]
    rfl
  · rw [hfind]
    split
    · exact ⟨rb, hrb⟩
    · exact h.root x

/-- Unions connect their pairs. -/
theorem unions (h : Forest d depth R) (pairs : List (α × α)) :
    ∃ d', (∀ fuel, depth + pairs.length ≤ fuel → unions fuel pairs d = some d') ∧
      Forest d' (depth + pairs.length) fun x y => R x y ∨ (x, y) ∈ pairs := by
  induction pairs generalizing d depth R with
  | nil => exact ⟨d, fun _ _ => rfl, by simpa using h⟩
  | cons pair pairs ih =>
    obtain ⟨a, b⟩ := pair
    obtain ⟨d₁, hunion, h₁⟩ := h.union a b
    obtain ⟨d', hrun, h'⟩ := ih h₁
    refine ⟨d', fun fuel hfuel => ?_, ?_⟩
    · rw [List.length_cons] at hfuel
      rw [UnionFind.unions, List.foldlM_cons, hunion fuel (by omega)]
      exact hrun fuel (by omega)
    · rw [List.length_cons, ← Nat.add_assoc, Nat.add_right_comm]
      simpa [or_assoc] using h'

end Forest

end UnionFind

end LightServe
