import LightServe.Engine.PrefixCache
import LightServe.Lib.Except
import Mathlib.Data.List.GetD
import Mathlib.Data.List.Nodup

/-!
# The paged KV cache

`PagedKVCache` of `model/kv_cache.py`: a physical store addressed by block and offset, read and
written at the logical positions of a block table. Keys, values and layers are one entry here;
what an entry is stays a parameter.

## Main definitions

* `KvCache.write`, `KvCache.read` — the store at the positions of a table.
* `KvCache.Holds` — the entries at the first positions of a table.
* `KvCache.Holds.write` — appending to what a table holds.
-/

namespace LightServe

/-- The physical store. -/
structure KvCache (κ : Type) where
  blockSize : ℕ
  /-- The entry at a block and an offset in it. -/
  slot : BlockId × ℕ → κ

namespace KvCache
variable {κ : Type}

/-- Where a table puts a logical position. -/
def location (c : KvCache κ) (table : List BlockId) (p : ℕ) : BlockId × ℕ :=
  (table.getD (p / c.blockSize) 0, p % c.blockSize)

/-- Where a table puts the positions from `start` on; a table that is too short raises. -/
def physicalLocations (c : KvCache κ) (table : List BlockId) (start stop : ℕ) :
    Except EngineError (List (BlockId × ℕ)) :=
  let positions := List.range' start (stop - start)
  if ∀ p ∈ positions, p / c.blockSize < table.length then .ok (positions.map (c.location table))
  else .error .indexOutOfRange

def put (c : KvCache κ) (l : BlockId × ℕ) (x : κ) : KvCache κ :=
  { c with slot := Function.update c.slot l x }

/-- Scatter entries to the positions from `start` on. -/
def write (c : KvCache κ) (table : List BlockId) (start : ℕ) (entries : List κ) :
    Except EngineError (KvCache κ) := do
  let locations ← c.physicalLocations table start (start + entries.length)
  return (locations.zip entries).foldl (fun c le => c.put le.1 le.2) c

/-- Gather the entries of the first `seqLen` positions. -/
def read (c : KvCache κ) (table : List BlockId) (seqLen : ℕ) : Except EngineError (List κ) := do
  let locations ← c.physicalLocations table 0 seqLen
  return locations.map c.slot

/-- The entries of a slot's layer. -/
def layer {κ : Type} (kv : KvCache (ℕ → κ)) (layerIdx : ℕ) : KvCache κ where
  blockSize := kv.blockSize
  slot l := kv.slot l layerIdx

/-- `write` to one layer of the cache. -/
def writeLayer {κ : Type} (kv : KvCache (ℕ → κ)) (layerIdx : ℕ) (table : List BlockId)
    (start : ℕ) (entries : List κ) : Except EngineError (KvCache (ℕ → κ)) := do
  let c ← (kv.layer layerIdx).write table start entries
  return { kv with slot := fun l => Function.update (kv.slot l) layerIdx (c.slot l) }

/-! ## Addressing -/

variable {c c' : KvCache κ} {table : List BlockId} {old new : List κ} {start stop p q : ℕ}

/-- Different positions of a table without repetitions are different slots. -/
theorem location_inj (hnodup : table.Nodup) (hp : p / c.blockSize < table.length)
    (hq : q / c.blockSize < table.length) (h : c.location table p = c.location table q) :
    p = q := by
  obtain ⟨hblock, hoffset⟩ := Prod.mk.inj h
  rw [List.getD_eq_getElem _ _ hp, List.getD_eq_getElem _ _ hq] at hblock
  have hdiv := (hnodup.getElem_inj_iff).mp hblock
  rw [← Nat.div_add_mod p c.blockSize, ← Nat.div_add_mod q c.blockSize, hdiv, hoffset]

theorem physicalLocations_eq (h : ∀ p, start ≤ p → p < stop → p / c.blockSize < table.length) :
    c.physicalLocations table start stop =
      .ok ((List.range' start (stop - start)).map (c.location table)) := by
  refine if_pos fun p hp => ?_
  obtain ⟨i, hi, rfl⟩ := List.mem_range'.mp hp
  exact h _ (by omega) (by omega)

/-- A position within the capacity of a table has a block. -/
theorem div_lt_of_lt_capacity (h : p < table.length * c.blockSize) :
    p / c.blockSize < table.length :=
  Nat.div_lt_of_lt_mul (by rwa [Nat.mul_comm])

/-! ## Scattering -/

/-- Scatter entries to given slots, in order. -/
def puts (c : KvCache κ) (les : List ((BlockId × ℕ) × κ)) : KvCache κ :=
  les.foldl (fun c le => c.put le.1 le.2) c

@[simp] theorem blockSize_puts (c : KvCache κ) (les : List ((BlockId × ℕ) × κ)) :
    (c.puts les).blockSize = c.blockSize := by
  induction les generalizing c with
  | nil => rfl
  | cons le les ih => exact ih (c.put le.1 le.2)

theorem slot_puts_of_notMem {l : BlockId × ℕ} {les : List ((BlockId × ℕ) × κ)}
    (h : l ∉ les.map Prod.fst) : (c.puts les).slot l = c.slot l := by
  induction les generalizing c with
  | nil => rfl
  | cons le les ih =>
    rw [List.map_cons, List.mem_cons, not_or] at h
    refine (ih (c := c.put le.1 le.2) h.2).trans ?_
    exact Function.update_of_ne h.1 _ _

theorem slot_puts_of_mem {les : List ((BlockId × ℕ) × κ)} (hnodup : (les.map Prod.fst).Nodup)
    {le : (BlockId × ℕ) × κ} (h : le ∈ les) : (c.puts les).slot le.1 = le.2 := by
  induction les generalizing c with
  | nil => cases h
  | cons le' les ih =>
    obtain ⟨hhead, htail⟩ := List.nodup_cons.mp hnodup
    rcases List.mem_cons.mp h with rfl | h
    · refine (slot_puts_of_notMem (c := c.put le.1 le.2) hhead).trans ?_
      exact Function.update_self _ _ _
    · exact ih htail h

/-- A slot keeps its entry or gets one of those scattered. -/
theorem slot_puts_cases (l : BlockId × ℕ) (les : List ((BlockId × ℕ) × κ)) :
    (c.puts les).slot l = c.slot l ∨ (c.puts les).slot l ∈ les.map Prod.snd := by
  induction les generalizing c with
  | nil => exact .inl rfl
  | cons le les ih =>
    rcases ih (c := c.put le.1 le.2) with hkept | hlater
    · by_cases hl : l = le.1
      · subst hl
        refine .inr (List.mem_cons.mpr (.inl (hkept.trans ?_)))
        exact Function.update_self _ _ _
      · exact .inl (hkept.trans (Function.update_of_ne hl _ _))
    · exact .inr (List.mem_cons_of_mem _ hlater)

/-- After a write a slot has the entry it had or one of those written. -/
theorem write_cases (h : c.write table start new = .ok c') (l : BlockId × ℕ) :
    c'.slot l = c.slot l ∨ c'.slot l ∈ new := by
  obtain ⟨locations, -, hret⟩ := bind_eq_ok.mp h
  obtain rfl : c.puts (locations.zip new) = c' := Except.ok.inj hret
  refine (slot_puts_cases l _).imp_right fun hmem => ?_
  obtain ⟨⟨l', x⟩, hzip, hx⟩ := List.mem_map.mp hmem
  exact hx ▸ (List.of_mem_zip hzip).2

/-- A write touches the slots of the table's blocks only. -/
theorem write_frame (h : c.write table start new = .ok c') :
    c'.blockSize = c.blockSize ∧ ∀ l, l.1 ∉ table → c'.slot l = c.slot l := by
  obtain ⟨locations, hloc, hret⟩ := bind_eq_ok.mp h
  obtain rfl : c.puts (locations.zip new) = c' := Except.ok.inj hret
  refine ⟨blockSize_puts _ _, fun l hl => slot_puts_of_notMem fun hmem => hl ?_⟩
  obtain ⟨⟨l', x⟩, hzip, rfl⟩ := List.mem_map.mp hmem
  have hl' := (List.of_mem_zip hzip).1
  dsimp only [physicalLocations] at hloc
  split at hloc
  · rename_i hcover
    cases hloc
    obtain ⟨p, hp, rfl⟩ := List.mem_map.mp hl'
    rw [location, List.getD_eq_getElem _ _ (hcover p hp)]
    exact List.getElem_mem _
  · cases hloc

/-- A write within the capacity of a table puts its entries at their positions, and touches no
other slot. -/
theorem write_spec (hnodup : table.Nodup)
    (hcap : start + new.length ≤ table.length * c.blockSize) :
    ∃ c', c.write table start new = .ok c' ∧ c'.blockSize = c.blockSize ∧
      (∀ i (hi : i < new.length), c'.slot (c.location table (start + i)) = new[i]) ∧
      ∀ l, (∀ p, start ≤ p → p < start + new.length → l ≠ c.location table p) →
        c'.slot l = c.slot l := by
  have hcover : ∀ p, p < start + new.length → p / c.blockSize < table.length := fun p hp =>
    div_lt_of_lt_capacity (hp.trans_le hcap)
  set locations := (List.range' start new.length).map (c.location table)
  have hlen : locations.length = new.length := by simp [locations]
  have hfst : (locations.zip new).map Prod.fst = locations := List.map_fst_zip hlen.le
  have hget : ∀ i (hi : i < locations.length), locations[i] = c.location table (start + i) := by
    intro i hi
    simp [locations]
  have hinj : locations.Nodup := by
    refine (List.nodup_map_iff_inj_on (List.nodup_range')).mpr fun p hp q hq heq => ?_
    obtain ⟨i, hi, rfl⟩ := List.mem_range'.mp hp
    obtain ⟨j, hj, rfl⟩ := List.mem_range'.mp hq
    exact location_inj hnodup (hcover _ (by omega)) (hcover _ (by omega)) heq
  refine ⟨c.puts (locations.zip new), ?_, blockSize_puts _ _, fun i hi => ?_, fun l hl => ?_⟩
  · rw [KvCache.write, physicalLocations_eq fun p _ => hcover p, ok_bind, Nat.add_sub_cancel_left]
    rfl
  · have hi' : i < locations.length := hlen ▸ hi
    have hmem : (locations[i], new[i]) ∈ locations.zip new := by
      rw [← List.getElem_zip (h := by rw [List.length_zip]; omega)]
      exact List.getElem_mem _
    have hslot := slot_puts_of_mem (c := c) (by rw [hfst]; exact hinj) hmem
    rwa [hget i hi'] at hslot
  · refine slot_puts_of_notMem fun hmem => ?_
    rw [hfst] at hmem
    obtain ⟨i, hi, rfl⟩ := List.getElem_of_mem hmem
    exact hl (start + i) (by omega) (by omega) (hget i hi)

/-! ## What a table holds -/

/-- The first positions of a table hold these entries. -/
structure Holds (c : KvCache κ) (table : List BlockId) (entries : List κ) : Prop where
  covered : entries.length ≤ table.length * c.blockSize
  slot : ∀ p (h : p < entries.length), c.slot (c.location table p) = entries[p]

namespace Holds

theorem nil (c : KvCache κ) (table : List BlockId) : c.Holds table [] :=
  ⟨Nat.zero_le _, fun _ h => absurd h (Nat.not_lt_zero _)⟩

/-- What is held of more is held of less. -/
theorem take (h : c.Holds table old) (n : ℕ) : c.Holds table (old.take n) where
  covered := (List.length_take_le' n old).trans h.covered
  slot p hp := by
    rw [List.length_take] at hp
    rw [List.getElem_take]
    exact h.slot p (by omega)

/-- A table that grows keeps what it holds. -/
theorem append (h : c.Holds table old) (more : List BlockId) : c.Holds (table ++ more) old where
  covered := by
    have := h.covered
    rw [List.length_append, Nat.add_mul]
    omega
  slot p hp := by
    have hlt := div_lt_of_lt_capacity (hp.trans_le h.covered)
    rw [← h.slot p hp, location, location, List.getD_append _ _ _ _ hlt]

/-- Only what happens to the slots of the table matters. -/
theorem congr (h : c.Holds table old) (hsize : c'.blockSize = c.blockSize)
    (hslot : ∀ p, p < old.length → c'.slot (c.location table p) = c.slot (c.location table p)) :
    c'.Holds table old where
  covered := by rw [hsize]; exact h.covered
  slot p hp := by
    rw [← h.slot p hp, ← hslot p hp, location, location, hsize]

/-- A table keeps what it holds as long as its blocks are left alone. -/
theorem frame (h : c.Holds table old) (hsize : c'.blockSize = c.blockSize)
    (hslot : ∀ l, l.1 ∈ table → c'.slot l = c.slot l) : c'.Holds table old := by
  refine h.congr hsize fun p hp => hslot _ ?_
  have hlt := div_lt_of_lt_capacity (hp.trans_le h.covered)
  rw [location, List.getD_eq_getElem _ _ hlt]
  exact List.getElem_mem _

theorem read (h : c.Holds table old) : c.read table old.length = .ok old := by
  have hcover : ∀ p, 0 ≤ p → p < old.length → p / c.blockSize < table.length := fun p _ hp =>
    div_lt_of_lt_capacity (hp.trans_le h.covered)
  rw [KvCache.read, physicalLocations_eq hcover, ok_bind]
  refine congrArg Except.ok (List.ext_getElem (by simp) fun p hp hp' => ?_)
  simpa using h.slot p hp'

/-- Writing behind what a table holds appends to it, and touches no other slot. -/
theorem write (h : c.Holds table old) (hnodup : table.Nodup)
    (hcap : old.length + new.length ≤ table.length * c.blockSize) :
    ∃ c', c.write table old.length new = .ok c' ∧ c'.blockSize = c.blockSize ∧
      c'.Holds table (old ++ new) ∧
      ∀ l, (∀ p, old.length ≤ p → p < old.length + new.length → l ≠ c.location table p) →
        c'.slot l = c.slot l := by
  obtain ⟨c', hwrite, hsize, hnew, hold⟩ := write_spec hnodup hcap
  have hcover : ∀ p, p < old.length + new.length → p / c.blockSize < table.length := fun p hp =>
    div_lt_of_lt_capacity (hp.trans_le hcap)
  refine ⟨c', hwrite, hsize, ⟨?_, fun p hp => ?_⟩, hold⟩
  · rw [hsize, List.length_append]
    exact hcap
  · rw [List.length_append] at hp
    rw [location, hsize, ← location]
    rcases Nat.lt_or_ge p old.length with hlt | hge
    · rw [List.getElem_append_left hlt, ← h.slot p hlt]
      refine hold _ fun q hq hq' heq => ?_
      have := location_inj hnodup (hcover p hp) (hcover q hq') heq
      omega
    · obtain ⟨i, rfl⟩ := Nat.exists_eq_add_of_le hge
      rw [hnew i (by omega), List.getElem_append_right hge]
      congr 1
      omega

end Holds

/-! ## Layers of the cache -/

section Layers
variable {κ : Type} {kv kv' : KvCache (ℕ → κ)} {layerIdx : ℕ} {table : List BlockId}
  {start : ℕ} {entries : List κ}

/-- A write touches one layer, and there the slots of the table's blocks only. -/
theorem writeLayer_frame (h : kv.writeLayer layerIdx table start entries = .ok kv') :
    kv'.blockSize = kv.blockSize ∧
      (∀ l other, other ≠ layerIdx → kv'.slot l other = kv.slot l other) ∧
      ∀ l, l.1 ∉ table → kv'.slot l = kv.slot l := by
  obtain ⟨c, hc, hret⟩ := bind_eq_ok.mp h
  cases hret
  refine ⟨rfl, fun l other hne => Function.update_of_ne hne _ _, fun l hl => ?_⟩
  show Function.update (kv.slot l) layerIdx (c.slot l) = kv.slot l
  rw [(write_frame hc).2 l hl]
  exact Function.update_eq_self _ _

/-- After a write to a layer a slot has the entry it had or one of those written. -/
theorem writeLayer_cases (h : kv.writeLayer layerIdx table start entries = .ok kv')
    (l : BlockId × ℕ) (j : ℕ) : kv'.slot l j = kv.slot l j ∨ kv'.slot l j ∈ entries := by
  by_cases hj : j = layerIdx
  · subst hj
    obtain ⟨c, hc, hret⟩ := bind_eq_ok.mp h
    cases hret
    have hself : Function.update (kv.slot l) j (c.slot l) j = c.slot l := Function.update_self _ _ _
    dsimp only
    rw [hself]
    exact write_cases hc l
  · exact .inl ((writeLayer_frame h).2.1 l j hj)

theorem writeLayer_layer (h : kv.writeLayer layerIdx table start entries = .ok kv') :
    (kv.layer layerIdx).write table start entries = .ok (kv'.layer layerIdx) := by
  obtain ⟨c, hc, hret⟩ := bind_eq_ok.mp h
  cases hret
  rw [hc]
  have hsize : c.blockSize = kv.blockSize := (write_frame hc).1
  have hslot : (fun l => Function.update (kv.slot l) layerIdx (c.slot l) layerIdx) = c.slot :=
    funext fun l => Function.update_self _ _ _
  show Except.ok c = Except.ok _
  rw [KvCache.layer, hslot, ← hsize]

/-- A write that returned was within the capacity of the table. -/
theorem le_capacity_of_write {κ : Type} {c c' : KvCache κ} {entries : List κ}
    (hsize : 0 < c.blockSize) (hne : entries ≠ []) (h : c.write table start entries = .ok c') :
    start + entries.length ≤ table.length * c.blockSize := by
  obtain ⟨locations, hloc, -⟩ := bind_eq_ok.mp h
  dsimp only [physicalLocations] at hloc
  split at hloc
  · rename_i hcover
    have hpos := List.length_pos_of_ne_nil hne
    have hlast := hcover (start + entries.length - 1) (List.mem_range'_1.mpr (by omega))
    have hlt := Nat.lt_mul_of_div_lt hlast hsize
    omega
  · cases hloc

end Layers

end KvCache

end LightServe
