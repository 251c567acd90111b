import Mathlib.Data.List.AList

/-!
# Insertion-ordered dictionaries

A `Dict κ ν` is an association list without duplicate keys, read as an
insertion-ordered map: overwriting a key keeps its place, a new key goes last and
deletion removes it. The entries are stored newest first, so that Mathlib's
`AList.insert` and `AList.replace` are the two ways to set a key.

## Main definitions

* `Dict.set` — overwrite in place, or add as the newest entry.
* `Dict.values` — the values in insertion order.
* `Dict.lookup_set`, `Dict.mem_values` — the two views agree.
-/

namespace LightServe

universe u v

/-- An insertion-ordered dictionary. -/
abbrev Dict (κ : Type u) (ν : Type v) := AList (fun _ : κ => ν)

namespace Dict
variable {κ : Type u} {ν : Type v} [DecidableEq κ]

/-- `d[k] = v`: a present key keeps its place, an absent one is added last. -/
def set (d : Dict κ ν) (k : κ) (v : ν) : Dict κ ν :=
  if k ∈ d then d.replace k v else d.insert k v

/-- The values in insertion order. -/
def values (d : Dict κ ν) : List ν := (d.entries.map Sigma.snd).reverse

private theorem dlookup_kreplace (k j : κ) (v : ν) (l : List (Σ _ : κ, ν)) (h : k ∈ l.keys) :
    (l.kreplace k v).dlookup j = if j = k then some v else l.dlookup j := by
  induction l with
  | nil => simp at h
  | cons e l ih =>
    obtain ⟨i, w⟩ := e
    unfold List.kreplace at ih ⊢
    by_cases hik : k = i
    · subst hik
      rw [List.lookmap_cons_some _ _ (b := ⟨k, v⟩) (by simp)]
      by_cases hj : j = k
      · subst hj; simp
      · rw [List.dlookup_cons_ne _ _ hj, List.dlookup_cons_ne _ _ hj, if_neg hj]
    · rw [List.lookmap_cons_none _ _ (by simp [hik])]
      have h' : k ∈ l.keys := by simpa [hik] using h
      by_cases hj : j = i
      · subst hj
        rw [if_neg (fun h => hik h.symm)]
        simp
      · rw [List.dlookup_cons_ne _ _ hj, List.dlookup_cons_ne _ _ hj, ih h']

theorem lookup_set (d : Dict κ ν) (k j : κ) (v : ν) :
    (d.set k v).lookup j = if j = k then some v else d.lookup j := by
  unfold set
  split
  · rename_i h
    exact dlookup_kreplace k j v d.entries (AList.mem_keys.mp h)
  · by_cases hj : j = k
    · subst hj; simp
    · rw [AList.lookup_insert_ne hj, if_neg hj]

@[simp] theorem lookup_set_self (d : Dict κ ν) (k : κ) (v : ν) :
    (d.set k v).lookup k = some v := by simp [lookup_set]

theorem lookup_set_ne (d : Dict κ ν) {k j : κ} (v : ν) (h : j ≠ k) :
    (d.set k v).lookup j = d.lookup j := by simp [lookup_set, h]

theorem mem_set {d : Dict κ ν} {k j : κ} {v : ν} : j ∈ d.set k v ↔ j = k ∨ j ∈ d := by
  rw [← AList.lookup_isSome, ← AList.lookup_isSome, lookup_set]
  split
  · simp [*]
  · simp [*]

/-- A new key goes last. -/
theorem values_set_of_notMem (d : Dict κ ν) {k : κ} (v : ν) (h : d.lookup k = none) :
    (d.set k v).values = d.values ++ [v] := by
  have hk : k ∉ d := AList.lookup_eq_none.mp h
  simp only [set, if_neg hk, values]
  rw [AList.insert_of_notMem hk]
  simp

theorem mem_values {d : Dict κ ν} {v : ν} : v ∈ d.values ↔ ∃ k, d.lookup k = some v := by
  simp only [values, List.mem_reverse, List.mem_map]
  constructor
  · rintro ⟨⟨k, w⟩, he, rfl⟩
    exact ⟨k, AList.mem_lookup_iff.mpr he⟩
  · rintro ⟨k, hk⟩
    exact ⟨⟨k, v⟩, AList.mem_lookup_iff.mp hk, rfl⟩

/-- Where no value is there twice, a value has one key. -/
theorem eq_of_lookup_eq {d : Dict κ ν} (hnodup : d.values.Nodup) {k j : κ} {v : ν}
    (hk : d.lookup k = some v) (hj : d.lookup j = some v) : k = j := by
  rw [values, List.nodup_reverse] at hnodup
  have h := List.inj_on_of_nodup_map hnodup (AList.mem_lookup_iff.mp hk)
    (AList.mem_lookup_iff.mp hj) rfl
  exact congrArg Sigma.fst h

/-- Deleting a key deletes its value, once. -/
theorem values_perm_erase {d : Dict κ ν} {k : κ} {v : ν} (h : d.lookup k = some v) :
    d.values.Perm (v :: values (d.erase k)) := by
  have hk : k ∈ d.entries.keys := List.mem_keys_of_mem (AList.mem_lookup_iff.mp h)
  obtain ⟨w, l₁, l₂, hl₁, hl, herase⟩ := List.exists_of_kerase hk
  have hw : w = v := by
    have hmem : (⟨k, w⟩ : Σ _ : κ, ν) ∈ d.entries := by rw [hl]; simp
    exact Option.some.inj ((AList.mem_lookup_iff.mpr hmem).symm.trans h)
  subst hw
  have hrev : ∀ l : List (Σ _ : κ, ν), ((l.map Sigma.snd).reverse).Perm (l.map Sigma.snd) :=
    fun l => List.reverse_perm _
  refine (hrev _).trans (List.Perm.trans ?_ (List.Perm.cons w (hrev _).symm))
  rw [hl, show (AList.erase k d).entries = l₁ ++ l₂ from herase]
  simp only [List.map_append, List.map_cons]
  exact List.perm_middle

/-- Deleting an absent key changes nothing. -/
theorem erase_of_lookup_eq_none {d : Dict κ ν} {k : κ} (h : d.lookup k = none) : d.erase k = d :=
  AList.ext (List.kerase_of_notMem_keys (AList.lookup_eq_none.mp h))

/-! ## Filling a dictionary -/

section Fill
variable {α : Type*} {l : List α} {j : κ}

/-- `d.setdefault(k, []).append(v)`. -/
def append (d : Dict κ (List ν)) (k : κ) (v : ν) : Dict κ (List ν) :=
  d.set k ((d.lookup k).getD [] ++ [v])

/-- The values of some elements, by their keys. -/
def groupBy (key : α → κ) (val : α → ν) (l : List α) : Dict κ (List ν) :=
  l.foldl (fun d x => d.append (key x) (val x)) ∅

/-- A key has the values of its elements, in their order. -/
theorem lookup_groupBy (key : α → κ) (val : α → ν) :
    ((groupBy key val l).lookup j).getD [] = (l.filter (key · = j)).map val ∧
      (j ∈ groupBy key val l ↔ ∃ x ∈ l, key x = j) := by
  suffices hfrom : ∀ d : Dict κ (List ν),
      let d' := l.foldl (fun d x => d.append (key x) (val x)) d
      (d'.lookup j).getD [] = (d.lookup j).getD [] ++ (l.filter (key · = j)).map val ∧
        (j ∈ d' ↔ j ∈ d ∨ ∃ x ∈ l, key x = j) by
    simpa [groupBy] using hfrom ∅
  induction l with
  | nil => simp
  | cons x l ih =>
    intro d
    obtain ⟨hlookup, hmem⟩ := ih (d.append (key x) (val x))
    refine ⟨hlookup.trans ?_, hmem.trans ?_⟩
    · rw [append, lookup_set]
      by_cases hj : j = key x
      · subst hj
        simp
      · simp [hj, Ne.symm hj]
    · simp [append, mem_set, or_assoc, or_left_comm, eq_comm]

/-- Setting some keys changes their values, and no others. -/
theorem lookup_foldl_set (f : κ → ν) (keys : List κ) (d : Dict κ ν) :
    (keys.foldl (fun d k => d.set k (f k)) d).lookup j =
      if j ∈ keys then some (f j) else d.lookup j := by
  induction keys generalizing d with
  | nil => simp
  | cons k keys ih =>
    rw [List.foldl_cons, ih, lookup_set]
    by_cases hj : j = k
    · simp [hj]
    · simp [hj]

end Fill

end Dict

end LightServe
