import Mathlib.Data.List.Nodup
import Mathlib.Tactic.TypeStar

/-!
# Updates by key

A list of records with a key each, and updates that address a record by its key. Updates of
different keys, one after the other, are one map over the list.

## Main definitions

* `updateAll` — apply updates in a row.
* `updateAll_eq_map` — what they do to each record.
-/

namespace Keyed

variable {α κ : Type*} [DecidableEq κ] (key : α → κ)

/-- Apply an update to the records with its key. -/
def update (u : κ × (α → α)) (l : List α) : List α :=
  l.map fun a => if key a = u.1 then u.2 a else a

/-- Among records of different keys, an update changes the one with its key. -/
theorem exists_update {l : List α} (hnodup : (l.map key).Nodup) {a : α} (ha : a ∈ l) (f : α → α) :
    ∃ pre post, l = pre ++ a :: post ∧ update key (key a, f) l = pre ++ f a :: post := by
  obtain ⟨pre, post, rfl⟩ := List.append_of_mem ha
  have hother : ∀ b ∈ pre ++ post, key b ≠ key a := by
    rw [(List.perm_middle.map key).nodup_iff, List.map_cons, List.nodup_cons] at hnodup
    intro b hb hkey
    exact hnodup.1 (hkey ▸ List.mem_map_of_mem hb)
  have hmap : ∀ bs : List α, (∀ b ∈ bs, key b ≠ key a) →
      bs.map (fun b => if key b = key a then f b else b) = bs := fun bs hbs =>
    (List.map_congr_left fun b hb => if_neg (hbs b hb)).trans (List.map_id bs)
  refine ⟨pre, post, rfl, ?_⟩
  rw [update, List.map_append, List.map_cons,
    hmap pre fun b hb => hother b (List.mem_append_left _ hb),
    hmap post fun b hb => hother b (List.mem_append_right _ hb), if_pos rfl]

/-- Apply updates in a row. -/
def updateAll (us : List (κ × (α → α))) (l : List α) : List α :=
  us.foldl (fun l u => update key u l) l

@[simp] theorem updateAll_nil (l : List α) : updateAll key [] l = l := rfl

@[simp] theorem updateAll_cons (u : κ × (α → α)) (us : List (κ × (α → α))) (l : List α) :
    updateAll key (u :: us) l = updateAll key us (update key u l) := rfl

/-- The update that addresses a record, if one does. -/
def updateOf (us : List (κ × (α → α))) (k : κ) : Option (α → α) :=
  (us.find? fun u => u.1 = k).map Prod.snd

theorem updateOf_eq_none {us : List (κ × (α → α))} {k : κ} (h : k ∉ us.map Prod.fst) :
    updateOf us k = none := by
  rw [updateOf, Option.map_eq_none_iff, List.find?_eq_none]
  intro u hu hk
  exact h (List.mem_map.mpr ⟨u, hu, of_decide_eq_true hk⟩)

/-- Among updates of different keys, the one that addresses a record. -/
theorem updateOf_of_mem {us : List (κ × (α → α))} (hnodup : (us.map Prod.fst).Nodup)
    {u : κ × (α → α)} (h : u ∈ us) : updateOf us u.1 = some u.2 := by
  induction us with
  | nil => cases h
  | cons v us ih =>
    obtain ⟨hv, hnodup⟩ := List.nodup_cons.mp hnodup
    rcases List.mem_cons.mp h with rfl | h
    · simp [updateOf]
    · have hne : ¬ v.1 = u.1 := fun heq => hv (heq ▸ List.mem_map_of_mem h)
      simpa [updateOf, hne] using ih hnodup h

/-- Updates of different keys that leave the keys alone are one map. -/
theorem updateAll_eq_map {us : List (κ × (α → α))} (hnodup : (us.map Prod.fst).Nodup)
    (hkey : ∀ u ∈ us, ∀ a, key (u.2 a) = key a) (l : List α) :
    updateAll key us l = l.map fun a => (updateOf us (key a)).elim a fun f => f a := by
  induction us generalizing l with
  | nil => simp [updateOf]
  | cons u us ih =>
    obtain ⟨hu, hnodup⟩ := List.nodup_cons.mp hnodup
    obtain ⟨hukey, hkey⟩ := List.forall_mem_cons.mp hkey
    rw [updateAll_cons, ih hnodup hkey, update, List.map_map]
    refine List.map_congr_left fun a _ => ?_
    by_cases ha : key a = u.1
    · have hnone : updateOf us (key a) = none := updateOf_eq_none (ha ▸ hu)
      have hsome : updateOf (u :: us) (key a) = some u.2 := by simp [updateOf, ha]
      simp only [Function.comp_apply, if_pos ha, hukey, hnone, hsome, Option.elim]
    · have hne : ¬ u.1 = key a := fun h => ha h.symm
      have hskip : updateOf (u :: us) (key a) = updateOf us (key a) := by simp [updateOf, hne]
      simp only [Function.comp_apply, if_neg ha, hskip]

end Keyed
