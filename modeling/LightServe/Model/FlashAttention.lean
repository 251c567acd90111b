import LightServe.Model.Llama

/-!
# What the kernel sees

The keys that the attention kernel keeps for a query row are those up to the row's own position,
whatever the tiles. With the queries padded in front to the length of the keys, the rows that are
not padding are at their own positions, so a chunk that follows cached positions attends as it
does within the whole sequence.

## Main definitions

* `visibleKeys_eq` — the visible keys.
* `Llama.flashAttentionForward_eq` — the kernel on rows that start at position 0.
* `Llama.padded_eq` — the kernel on a padded chunk.
-/

namespace LightServe

private theorem flatMap_tiles (b tiles : ℕ) :
    ((List.range tiles).flatMap fun tile => List.range' (tile * b) b) = List.range (tiles * b) := by
  induction tiles with
  | zero => simp
  | succ tiles ih =>
    rw [List.range_succ, List.flatMap_append, ih, List.flatMap_singleton, Nat.succ_mul,
      List.range_add, List.range_eq_range', List.range_eq_range', List.map_add_range', Nat.add_zero]

private theorem filter_range {m n row : ℕ} (hm : row < m) (hn : row < n) :
    (List.range m).filter (fun key => decide (key < n ∧ key ≤ row)) = List.range (row + 1) := by
  obtain ⟨k, rfl⟩ := Nat.exists_eq_add_of_le (Nat.succ_le_of_lt hm)
  rw [List.range_add, List.filter_append, List.filter_eq_self.mpr, List.filter_eq_nil_iff.mpr,
    List.append_nil]
  · intro key hkey
    obtain ⟨i, -, rfl⟩ := List.mem_map.mp hkey
    simp only [decide_eq_true_eq]
    omega
  · intro key hkey
    have := List.mem_range.mp hkey
    simp only [decide_eq_true_eq]
    omega

/-- The kernel keeps the keys up to the row. -/
theorem visibleKeys_eq {blockM blockN n row : ℕ} (hM : 0 < blockM) (hN : 0 < blockN) (h : row < n) :
    visibleKeys blockM blockN n row = List.range (row + 1) := by
  have htile : row < (row / blockM + 1) * blockM := by
    have := Nat.lt_div_mul_add (a := row) hM
    rw [Nat.add_mul]
    omega
  have hhi : row < min n ((row / blockM + 1) * blockM) := lt_min h htile
  have hcover := Nat.lt_div_mul_add (a := min n ((row / blockM + 1) * blockM) + blockN - 1) hN
  rw [visibleKeys, ← List.filter_flatMap, flatMap_tiles]
  refine filter_range ?_ h
  omega

private theorem filterMap_range {α : Type} (l : List α) {k : ℕ} (h : k ≤ l.length) :
    (List.range k).filterMap (fun i => l[i]?) = l.take k := by
  induction k with
  | zero => simp
  | succ k ih =>
    rw [List.range_succ, List.filterMap_append, ih (by omega), List.take_add_one]
    simp [List.getElem?_eq_getElem (show k < l.length by omega)]

/-- An entry with its key and its value repeated for the query heads. -/
def repeatEntry {η : Type} (nRep : ℕ) (e : List η × List η) : List η × List η :=
  (e.1.flatMap (List.replicate nRep), e.2.flatMap (List.replicate nRep))

@[simp] theorem length_repeatKv {η : Type} (nRep : ℕ) (rows : List (List η)) :
    (repeatKv nRep rows).length = rows.length := by simp [repeatKv]

theorem zip_repeatKv {η : Type} (nRep : ℕ) (entries : List (List η × List η)) :
    (repeatKv nRep (entries.map Prod.fst)).zip (repeatKv nRep (entries.map Prod.snd)) =
      entries.map (repeatEntry nRep) := by
  rw [repeatKv, repeatKv, List.map_map, List.map_map, List.zip_map']
  rfl

namespace Llama
variable {ρ η : Type} (m : Llama ρ η)

/-- On as many queries as there are entries, each row attends to the entries up to its own. -/
theorem flashAttentionForward_eq {q : List (List η)} {entries : List (List η × List η)}
    (h : entries.length = q.length) :
    m.flashAttentionForward q (repeatKv m.nRep (entries.map Prod.fst))
        (repeatKv m.nRep (entries.map Prod.snd)) =
      .ok (q.mapIdx fun row query =>
        m.attend query ((entries.take (row + 1)).map (repeatEntry m.nRep))) := by
  rw [flashAttentionForward, zip_repeatKv, if_pos (by simp [h])]
  refine congrArg Except.ok (List.ext_getElem (by simp) fun row hrow _ => ?_)
  rw [List.length_mapIdx] at hrow
  rw [List.getElem_mapIdx, List.getElem_mapIdx,
    visibleKeys_eq (m.blockM_pos _) (m.blockN_pos _) hrow, filterMap_range _ (by simp; omega),
    List.map_take]

theorem length_padQuery {n : ℕ} {q : List (List η)} (h : q.length ≤ n) :
    (m.padQuery n q).length = n := by
  unfold padQuery
  split
  · rw [List.length_append, List.length_replicate]
    omega
  · omega

/-- Behind `start` positions the rows of a padded chunk are at their own positions. -/
theorem getElem?_padQuery (start : ℕ) (q : List (List η)) (i : ℕ) :
    (m.padQuery (start + q.length) q)[start + i]? = q[i]? := by
  unfold padQuery
  split
  · rw [Nat.add_sub_cancel, List.getElem?_append_right (by simp), List.length_replicate,
      Nat.add_sub_cancel_left]
  · obtain rfl : start = 0 := by omega
    rw [Nat.zero_add]

/-- What is kept of the kernel's rows on a padded chunk: each row attends to the entries up to
its own position. -/
theorem padded_eq {q : List (List η)} {entries : List (List η × List η)} {start : ℕ}
    (h : entries.length = start + q.length) : ∃ out,
    m.flashAttentionForward (m.padQuery (start + q.length) q)
        (repeatKv m.nRep (entries.map Prod.fst)) (repeatKv m.nRep (entries.map Prod.snd)) =
        .ok out ∧
      out.drop (out.length - q.length) = q.mapIdx fun i query =>
        m.attend query ((entries.take (start + i + 1)).map (repeatEntry m.nRep)) := by
  have hlen := m.length_padQuery (n := start + q.length) (q := q) (by omega)
  refine ⟨_, m.flashAttentionForward_eq (h.trans hlen.symm), ?_⟩
  rw [List.length_mapIdx, hlen, Nat.add_sub_cancel]
  refine List.ext_getElem (by simp [hlen]) fun i hi hi' => ?_
  rw [List.length_mapIdx] at hi'
  have hrow := m.getElem?_padQuery start q i
  rw [List.getElem?_eq_getElem hi', List.getElem?_eq_getElem (by omega)] at hrow
  rw [List.getElem_drop, List.getElem_mapIdx, List.getElem_mapIdx, Option.some.inj hrow]

end Llama

end LightServe
