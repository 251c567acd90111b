import LightServe.Model.PagedKVCache

/-!
# The paged cache as plain arrays

Tables of pairwise distinct blocks make a paged cache an array for each request and layer: a
write puts its entries at their positions of one array, and a read gathers the first entries
of one. What a request has in one cache can so be transferred to another, whatever the block
size, the pool and the table there.

## Main definitions

* `KvArrays` — an entry for each request, layer and position.
* `PagedKVCache.Tables` — tables that share no block.
* `PagedKVCache.Refines` — the cache holds what the arrays hold.
* `PagedKVCache.Refines.writeAll` — writes in a row keep it.
-/

namespace LightServe

/-! ## Plain arrays -/

/-- An entry for each request, layer and position. -/
def KvArrays (ι κ : Type) := ι → ℕ → ℕ → κ

/-- Entries to be written to one layer of one request, from a position on. -/
structure KvWrite (ι κ : Type) where
  request : ι
  layerIdx : ℕ
  start : ℕ
  entries : List κ

namespace KvArrays
variable {ι κ : Type} [DecidableEq ι]

/-- The arrays with the entries put at their positions. -/
def write (a : KvArrays ι κ) (w : KvWrite ι κ) : KvArrays ι κ := fun i layerIdx p =>
  if i = w.request ∧ layerIdx = w.layerIdx ∧ w.start ≤ p then
    (w.entries[p - w.start]?).getD (a i layerIdx p)
  else a i layerIdx p

/-- Writes in a row. -/
def writeAll (a : KvArrays ι κ) (ws : List (KvWrite ι κ)) : KvArrays ι κ := ws.foldl write a

/-- The first entries of one array. -/
def read (a : KvArrays ι κ) (i : ι) (layerIdx n : ℕ) : List κ := (List.range n).map (a i layerIdx)

end KvArrays

namespace PagedKVCache
variable {ι η : Type}

/-- The positions that a table has blocks for. -/
def capacity (c : PagedKVCache η) (table : List BlockId) : ℕ := table.length * c.store.blockSize

/-- Block tables of several requests that share no block, in one pool. -/
structure Tables (c : PagedKVCache η) (tables : ι → List BlockId) : Prop where
  nodup : ∀ i, (tables i).Nodup
  disjoint : ∀ i j, i ≠ j → (tables i).Disjoint (tables j)
  inPool : ∀ i, ∀ b ∈ tables i, b < c.numGpuBlocks

/-- A write within the capacity of its request's table. -/
def Within (c : PagedKVCache η) (tables : ι → List BlockId) (w : KvWrite ι (η × η)) : Prop :=
  w.layerIdx < c.nLayers ∧ w.start + w.entries.length ≤ c.capacity (tables w.request)

/-- Writes in a row. -/
def writeAll (tables : ι → List BlockId) :
    List (KvWrite ι (η × η)) → PagedKVCache η → Except EngineError (PagedKVCache η)
  | [], c => .ok c
  | w :: ws, c => do
    let c ← c.write w.layerIdx (tables w.request) w.start w.entries
    writeAll tables ws c

/-- Two caches of the same pool and shape. -/
structure SameShape (c c' : PagedKVCache η) : Prop where
  nLayers : c'.nLayers = c.nLayers
  numGpuBlocks : c'.numGpuBlocks = c.numGpuBlocks
  numKvHeads : c'.numKvHeads = c.numKvHeads
  headDim : c'.headDim = c.headDim
  computeDtype : c'.computeDtype = c.computeDtype
  blockSize : c'.store.blockSize = c.store.blockSize

theorem SameShape.refl (c : PagedKVCache η) : c.SameShape c := ⟨rfl, rfl, rfl, rfl, rfl, rfl⟩

theorem SameShape.trans {c c' c'' : PagedKVCache η} (h : c.SameShape c') (h' : c'.SameShape c'') :
    c.SameShape c'' :=
  ⟨h'.nLayers.trans h.nLayers, h'.numGpuBlocks.trans h.numGpuBlocks,
    h'.numKvHeads.trans h.numKvHeads, h'.headDim.trans h.headDim,
    h'.computeDtype.trans h.computeDtype, h'.blockSize.trans h.blockSize⟩

/-! ## One table -/

section Table
variable {c c' : PagedKVCache η} {table : List BlockId} {layerIdx start n : ℕ}
  {entries : List (η × η)}

/-- Where a table puts its positions, the pool has a block. -/
theorem finds_of_inPool (hpool : ∀ b ∈ table, b < c.numGpuBlocks) (hlayer : layerIdx < c.nLayers)
    {positions : List ℕ} (hcap : ∀ p ∈ positions, p < c.capacity table) :
    c.Finds layerIdx (positions.map (c.store.location table)) := by
  refine ⟨hlayer, fun l hl => hpool _ ?_⟩
  obtain ⟨p, hp, rfl⟩ := List.mem_map.mp hl
  rw [KvCache.location, List.getD_eq_getElem _ _ (KvCache.div_lt_of_lt_capacity (hcap p hp))]
  exact List.getElem_mem _

/-- A write within the capacity of a table puts its entries at their positions of one layer; it
touches no other position of the table, no other layer and no other block. -/
theorem write_spec (hnodup : table.Nodup) (hpool : ∀ b ∈ table, b < c.numGpuBlocks)
    (hlayer : layerIdx < c.nLayers) (hcap : start + entries.length ≤ c.capacity table) :
    ∃ c', c.write layerIdx table start entries = .ok c' ∧ c.SameShape c' ∧
      (∀ p < c.capacity table, c'.store.slot (c.store.location table p) layerIdx =
        if start ≤ p then
          (entries[p - start]?).getD (c.store.slot (c.store.location table p) layerIdx)
        else c.store.slot (c.store.location table p) layerIdx) ∧
      (∀ l other, other ≠ layerIdx → c'.store.slot l other = c.store.slot l other) ∧
      ∀ l, l.1 ∉ table → c'.store.slot l = c.store.slot l := by
  obtain ⟨s, hs, hsize, hnew, hold⟩ := @KvCache.write_spec _ (c.store.layer layerIdx) table entries
    start hnodup hcap
  have hcover : ∀ p, p < c.capacity table → p / c.store.blockSize < table.length := fun p hp =>
    KvCache.div_lt_of_lt_capacity hp
  have hloc := @KvCache.physicalLocations_eq _ c.store table start (start + entries.length)
    fun p _ hp => hcover p (hp.trans_le hcap)
  have hfinds : c.Finds layerIdx ((List.range' start (start + entries.length - start)).map
      (c.store.location table)) := by
    refine finds_of_inPool hpool hlayer fun p hp => ?_
    obtain ⟨i, hi, rfl⟩ := List.mem_range'.mp hp
    omega
  obtain ⟨store, hwrite, hslot⟩ : ∃ store,
      c.store.writeLayer layerIdx table start entries = .ok store ∧
        ∀ l, store.slot l layerIdx = s.slot l :=
    ⟨_, bind_eq_ok.mpr ⟨s, hs, rfl⟩, fun l => Function.update_self _ _ _⟩
  obtain ⟨hsize, hlayers, hblocks⟩ := KvCache.writeLayer_frame hwrite
  refine ⟨{ c with store }, ?_, ⟨rfl, rfl, rfl, rfl, rfl, hsize⟩, fun p hp => ?_, hlayers, hblocks⟩
  · rw [PagedKVCache.write, hloc, ok_bind, if_neg (not_not.mpr hfinds)]
    exact bind_eq_ok.mpr ⟨_, hwrite, rfl⟩
  · -- The entry of the layer at this position is the one the layer's own write leaves.
    show store.slot _ layerIdx = _
    rw [hslot]
    by_cases hstart : start ≤ p
    · rw [if_pos hstart]
      obtain ⟨i, rfl⟩ := Nat.exists_eq_add_of_le hstart
      rw [Nat.add_sub_cancel_left]
      by_cases hi : i < entries.length
      · rw [List.getElem?_eq_getElem hi, Option.getD_some]
        exact hnew i hi
      · rw [List.getElem?_eq_none (not_lt.mp hi), Option.getD_none]
        refine hold _ fun q hq hq' heq => ?_
        have := KvCache.location_inj hnodup (hcover _ hp) (hcover q (by omega)) heq
        omega
    · rw [if_neg hstart]
      refine hold _ fun q hq hq' heq => ?_
      have := KvCache.location_inj hnodup (hcover _ hp) (hcover q (by omega)) heq
      omega

/-- After a write a slot has the entry it had or one of those written. -/
theorem write_cases (h : c.write layerIdx table start entries = .ok c') (l : BlockId × ℕ) (j : ℕ) :
    c'.store.slot l j = c.store.slot l j ∨ c'.store.slot l j ∈ entries := by
  obtain ⟨locations, -, h⟩ := bind_eq_ok.mp h
  split at h
  · cases h
  · obtain ⟨store, hstore, hret⟩ := bind_eq_ok.mp h
    cases hret
    exact KvCache.writeLayer_cases hstore l j

/-- A read gathers as many entries as it is asked for, each from a slot. -/
theorem read_cases (h : c.read layerIdx table n = .ok entries) :
    entries.length = n ∧ ∀ entry ∈ entries, ∃ l, c.store.slot l layerIdx = entry := by
  obtain ⟨locations, hloc, h⟩ := bind_eq_ok.mp h
  split at h
  · cases h
  · obtain ⟨locations', hloc', hret⟩ := bind_eq_ok.mp h
    obtain rfl := pure_eq_ok.mp hret
    refine ⟨?_, fun entry hentry => ?_⟩
    · dsimp only [KvCache.physicalLocations] at hloc'
      split at hloc'
      · cases hloc'
        simp
      · cases hloc'
    · obtain ⟨l, -, rfl⟩ := List.mem_map.mp hentry
      exact ⟨l, rfl⟩

/-- A read within the capacity of a table gathers one layer. -/
theorem read_eq (hpool : ∀ b ∈ table, b < c.numGpuBlocks) (hlayer : layerIdx < c.nLayers)
    (hcap : n ≤ c.capacity table) : c.read layerIdx table n =
      .ok ((List.range n).map fun p => c.store.slot (c.store.location table p) layerIdx) := by
  have hloc := @KvCache.physicalLocations_eq _ c.store table 0 n
    fun p _ hp => KvCache.div_lt_of_lt_capacity (hp.trans_le hcap)
  have hfinds : c.Finds layerIdx ((List.range' 0 (n - 0)).map (c.store.location table)) := by
    refine finds_of_inPool hpool hlayer fun p hp => ?_
    obtain ⟨i, hi, rfl⟩ := List.mem_range'.mp hp
    omega
  rw [PagedKVCache.read, hloc, ok_bind, if_neg (not_not.mpr hfinds)]
  refine bind_eq_ok.mpr ⟨_, hloc, ?_⟩
  rw [Nat.sub_zero, ← List.range_eq_range', List.map_map]
  rfl

end Table

/-! ## Many tables -/

section Refinement
variable {c c' : PagedKVCache η} {tables : ι → List BlockId}
  {a : KvArrays ι (η × η)} {w : KvWrite ι (η × η)}

/-- The cache holds what the arrays hold, as far as the tables reach. -/
def Refines (c : PagedKVCache η) (tables : ι → List BlockId) (a : KvArrays ι (η × η)) : Prop :=
  ∀ i layerIdx, ∀ p < c.capacity (tables i),
    c.store.slot (c.store.location (tables i) p) layerIdx = a i layerIdx p

/-- The arrays that a cache holds through its tables. -/
def arrays (c : PagedKVCache η) (tables : ι → List BlockId) : KvArrays ι (η × η) :=
  fun i layerIdx p => c.store.slot (c.store.location (tables i) p) layerIdx

theorem refines_arrays (c : PagedKVCache η) (tables : ι → List BlockId) :
    c.Refines tables (c.arrays tables) := fun _ _ _ _ => rfl

theorem Tables.congr (h : c.Tables tables) (hs : c.SameShape c') : c'.Tables tables :=
  ⟨h.nodup, h.disjoint, fun i b hb => hs.numGpuBlocks ▸ h.inPool i b hb⟩

theorem SameShape.capacity (hs : c.SameShape c') (table : List BlockId) :
    c'.capacity table = c.capacity table := by
  rw [PagedKVCache.capacity, hs.blockSize]
  rfl

theorem SameShape.location (hs : c.SameShape c') (table : List BlockId) (p : ℕ) :
    c'.store.location table p = c.store.location table p := by
  rw [KvCache.location, hs.blockSize]
  rfl

theorem SameShape.within (hs : c.SameShape c') (h : c.Within tables w) : c'.Within tables w := by
  rw [Within, hs.nLayers, hs.capacity]
  exact h

/-- A block of one table is in no other. -/
theorem Tables.notMem (h : c.Tables tables) {i j : ι} (hne : i ≠ j) {b : BlockId}
    (hb : b ∈ tables i) : b ∉ tables j := fun hb' => h.disjoint i j hne hb hb'

theorem location_mem {table : List BlockId} {p : ℕ} (hp : p < c.capacity table) :
    (c.store.location table p).1 ∈ table := by
  rw [KvCache.location, List.getD_eq_getElem _ _ (KvCache.div_lt_of_lt_capacity hp)]
  exact List.getElem_mem _

/-- A write to the cache is a write to the arrays, and touches no slot of another request. -/
theorem Refines.write [DecidableEq ι] (h : c.Refines tables a) (ht : c.Tables tables)
    (hw : c.Within tables w) :
    ∃ c', c.write w.layerIdx (tables w.request) w.start w.entries = .ok c' ∧ c.SameShape c' ∧
      c'.Refines tables (a.write w) ∧
      ∀ j, j ≠ w.request → ∀ l, l.1 ∈ tables j → c'.store.slot l = c.store.slot l := by
  obtain ⟨c', hwrite, hshape, hnew, hlayers, hblocks⟩ :=
    write_spec (ht.nodup w.request) (ht.inPool w.request) hw.1 hw.2
  have hframe : ∀ j, j ≠ w.request → ∀ l, l.1 ∈ tables j → c'.store.slot l = c.store.slot l :=
    fun j hj l hl => hblocks l (ht.notMem hj hl)
  refine ⟨c', hwrite, hshape, fun i layerIdx p hp => ?_, hframe⟩
  rw [hshape.capacity] at hp
  rw [hshape.location, KvArrays.write, ← h i layerIdx p hp]
  by_cases hi : i = w.request
  · subst hi
    by_cases hlayer : layerIdx = w.layerIdx
    · subst hlayer
      simp only [true_and, hnew p hp]
    · rw [if_neg fun hc => hlayer hc.2.1, hlayers _ _ hlayer]
  · rw [if_neg fun hc => hi hc.1, hframe i hi _ (location_mem hp)]

/-- Writes in a row to the cache are writes in a row to the arrays. -/
theorem Refines.writeAll [DecidableEq ι] (h : c.Refines tables a) (ht : c.Tables tables)
    {ws : List (KvWrite ι (η × η))} (hw : ∀ w ∈ ws, c.Within tables w) :
    ∃ c', PagedKVCache.writeAll tables ws c = .ok c' ∧ c.SameShape c' ∧
      c'.Refines tables (a.writeAll ws) := by
  induction ws generalizing c a with
  | nil => exact ⟨c, rfl, .refl c, h⟩
  | cons w ws ih =>
    obtain ⟨hhead, htail⟩ := List.forall_mem_cons.mp hw
    obtain ⟨c₁, hwrite, hshape, h₁, -⟩ := h.write ht hhead
    obtain ⟨c₂, hrest, hshape', h₂⟩ :=
      ih h₁ (ht.congr hshape) fun w hw => hshape.within (htail w hw)
    exact ⟨c₂, bind_eq_ok.mpr ⟨c₁, hwrite, hrest⟩, hshape.trans hshape', h₂⟩

theorem Refines.read (h : c.Refines tables a) (ht : c.Tables tables) {i : ι} {layerIdx n : ℕ}
    (hlayer : layerIdx < c.nLayers) (hn : n ≤ c.capacity (tables i)) :
    c.read layerIdx (tables i) n = .ok (a.read i layerIdx n) := by
  rw [read_eq (ht.inPool i) hlayer hn]
  refine congrArg Except.ok (List.map_congr_left fun p hp => ?_)
  exact h i layerIdx p ((List.mem_range.mp hp).trans_le hn)

end Refinement

/-! ## Transfer -/

section Transfer
variable {c d : PagedKVCache η} {tables : ι → List BlockId} {a : KvArrays ι (η × η)}
  {table : List BlockId} {n : ℕ}

/-- The export gathers every layer of one array. -/
theorem Refines.exportLoop (h : c.Refines tables a) (ht : c.Tables tables) {i : ι}
    (hn : n ≤ c.capacity (tables i)) {layers : List ℕ} (hlayers : ∀ l ∈ layers, l < c.nLayers) :
    c.exportLoop (tables i) n layers =
      .ok (layers.map fun l => (a.read i l n).map Prod.fst,
        layers.map fun l => (a.read i l n).map Prod.snd) := by
  induction layers with
  | nil => rfl
  | cons l layers ih =>
    obtain ⟨hhead, htail⟩ := List.forall_mem_cons.mp hlayers
    rw [PagedKVCache.exportLoop, h.read ht hhead hn, ok_bind, ih htail]
    rfl

/-- The import puts every layer at the first positions of the table. -/
theorem importLoop_spec (hnodup : table.Nodup) (hpool : ∀ b ∈ table, b < d.numGpuBlocks)
    (hn : n ≤ d.capacity table) {layers : List (List (η × η))}
    (hlen : ∀ entries ∈ layers, entries.length = n) {layerIdx : ℕ}
    (hlayers : layerIdx + layers.length ≤ d.nLayers) :
    ∃ d', importLoop table layerIdx
        (layers.map fun entries => (entries.map Prod.fst, entries.map Prod.snd)) d = .ok d' ∧
      d.SameShape d' ∧
      (∀ l j, j < layerIdx → d'.store.slot l j = d.store.slot l j) ∧
      ∀ j (hj : j < layers.length), ∀ p < n,
        some (d'.store.slot (d.store.location table p) (layerIdx + j)) = layers[j][p]? := by
  induction layers generalizing d layerIdx with
  | nil => exact ⟨d, rfl, .refl d, fun _ _ _ => rfl, fun _ hj => absurd hj (Nat.not_lt_zero _)⟩
  | cons entries layers ih =>
    obtain ⟨hhead, htail⟩ := List.forall_mem_cons.mp hlen
    rw [List.length_cons] at hlayers
    obtain ⟨d₁, hwrite, hshape, hnew, hothers, -⟩ :=
      @write_spec _ d table layerIdx 0 entries hnodup hpool (by omega) (by omega)
    obtain ⟨d', hrest, hshape', hkept, hput⟩ := @ih d₁ (by rw [hshape.numGpuBlocks]; exact hpool)
      (by rw [hshape.capacity]; exact hn) htail (layerIdx + 1) (by rw [hshape.nLayers]; omega)
    refine ⟨d', ?_, hshape.trans hshape', fun l j hj => ?_, fun j hj p hp => ?_⟩
    · have hzip : (entries.map Prod.fst).zip (entries.map Prod.snd) = entries :=
        (List.zip_of_prod rfl rfl).symm
      refine bind_eq_ok.mpr ⟨d₁, ?_, hrest⟩
      rw [hzip]
      exact hwrite
    · rw [hkept l j (by omega), hothers l j hj.ne]
    · cases j with
      | zero =>
        rw [Nat.add_zero, hkept _ _ (Nat.lt_succ_self _), hnew p (by omega), if_pos (Nat.zero_le _),
          Nat.sub_zero, List.getElem_cons_zero, List.getElem?_eq_getElem (by omega),
          Option.getD_some]
      | succ j =>
        have hlater := hput j (Nat.lt_of_succ_lt_succ hj) p hp
        rw [hshape.location] at hlater
        rw [List.getElem_cons_succ, ← hlater, Nat.add_assoc, Nat.add_comm 1 j]

/-- Two caches that serve one model, whatever their blocks. -/
structure SameModel (c d : PagedKVCache η) : Prop where
  nLayers : d.nLayers = c.nLayers
  numKvHeads : d.numKvHeads = c.numKvHeads
  headDim : d.headDim = c.headDim
  computeDtype : d.computeDtype = c.computeDtype

/-- A model with a layer can export whatever its tables have room for. -/
theorem Refines.export_returns (h : c.Refines tables a) (ht : c.Tables tables) {i : ι}
    (hn : n ≤ c.capacity (tables i)) (hpos : 0 < c.nLayers) :
    ∃ k v, c.exportRequestKv (tables i) n = .ok (k, v) := by
  have hstack : ∀ f : η × η → η, ∃ k, KvTensor.stack
      ((List.range c.nLayers).map fun l => (a.read i l n).map f) n c.numKvHeads c.headDim
        c.computeDtype = .ok k := by
    refine fun f => ⟨_, dif_pos ⟨?_, fun layer hlayer => ?_⟩⟩
    · simpa using hpos.ne'
    · obtain ⟨l, -, rfl⟩ := List.mem_map.mp hlayer
      simp [KvArrays.read]
  obtain ⟨k, hk⟩ := hstack Prod.fst
  obtain ⟨v, hv⟩ := hstack Prod.snd
  refine ⟨k, v, ?_⟩
  rw [exportRequestKv, h.exportLoop ht hn fun l hl => List.mem_range.mp hl, ok_bind]
  exact bind_eq_ok.mpr ⟨k, hk, bind_eq_ok.mpr ⟨v, hv, rfl⟩⟩

/-- What is exported of a request is what the importing cache reads back, layer by layer. -/
theorem Refines.transfer (h : c.Refines tables a) (ht : c.Tables tables) {i : ι}
    (hn : n ≤ c.capacity (tables i)) (hm : c.SameModel d) (hnodup : table.Nodup)
    (hpool : ∀ b ∈ table, b < d.numGpuBlocks) (hn' : n ≤ d.capacity table) {k v : KvTensor η}
    (hexport : c.exportRequestKv (tables i) n = .ok (k, v)) :
    ∃ d', d.importRequestKv table k v = .ok d' ∧
      ∀ layerIdx < c.nLayers, d'.read layerIdx table n = .ok (a.read i layerIdx n) := by
  rw [exportRequestKv, h.exportLoop ht hn fun l hl => List.mem_range.mp hl, ok_bind] at hexport
  obtain ⟨k', hk, hexport⟩ := bind_eq_ok.mp hexport
  obtain ⟨v', hv, hret⟩ := bind_eq_ok.mp hexport
  cases hret
  obtain ⟨hkrows, hkshape, hkdtype⟩ := KvTensor.stack_eq_ok hk
  obtain ⟨hvrows, hvshape, hvdtype⟩ := KvTensor.stack_eq_ok hv
  have hzip : k.rows.zip v.rows = ((List.range c.nLayers).map fun l => a.read i l n).map
      fun entries => (entries.map Prod.fst, entries.map Prod.snd) := by
    rw [hkrows, hvrows, List.zip_map', List.map_map]
    rfl
  obtain ⟨d', himport, hshape, -, hput⟩ := @importLoop_spec _ d table n hnodup hpool hn'
    ((List.range c.nLayers).map fun l => a.read i l n)
    (fun entries hentries => by
      obtain ⟨l, -, rfl⟩ := List.mem_map.mp hentries
      simp [KvArrays.read]) 0
    (by simp [hm.nLayers])
  refine ⟨d', ?_, fun layerIdx hlayer => ?_⟩
  · have hlayers : k.nLayers = c.nLayers := by simp [KvTensor.nLayers, hkrows]
    have hheads : k.numKvHeads = c.numKvHeads := by
      simpa [KvTensor.shape] using congrArg (·.2.2.1) hkshape
    have hdim : k.headDim = c.headDim := by simpa [KvTensor.shape] using congrArg (·.2.2.2) hkshape
    rw [importRequestKv, if_neg, if_neg, if_neg, if_neg, hzip]
    · exact himport
    · rw [hvdtype, hm.computeDtype]
      exact fun hc => hc.2 rfl
    · rw [hkdtype, hm.computeDtype]
      exact not_not.mpr rfl
    · rw [hlayers, hheads, hdim, hm.nLayers, hm.numKvHeads, hm.headDim]
      exact not_not.mpr rfl
    · rw [hkshape, hvshape, List.length_map, List.length_map]
      exact not_not.mpr rfl
  · rw [read_eq (by rw [hshape.numGpuBlocks]; exact hpool)
      (by rw [hshape.nLayers, hm.nLayers]; exact hlayer) (by rw [hshape.capacity]; exact hn')]
    refine congrArg Except.ok (List.map_congr_left fun p hp => ?_)
    have hp := List.mem_range.mp hp
    have hentry := hput layerIdx (by simpa using hlayer) p hp
    rw [Nat.zero_add] at hentry
    rw [hshape.location]
    apply Option.some_injective
    rw [hentry]
    simp [KvArrays.read, hp]

end Transfer

/-- Through tables of distinct blocks, a cache written chunk by chunk is read like plain arrays
written the same way; a write to one request touches no slot of another; and another cache of
the same model that imports what this one exports of a request reads the same rows back. -/
theorem refines_arrays_of_writes [DecidableEq ι] {c : PagedKVCache η} {tables : ι → List BlockId}
    (ht : c.Tables tables) {ws : List (KvWrite ι (η × η))} (hw : ∀ w ∈ ws, c.Within tables w) :
    ∃ c', writeAll tables ws c = .ok c' ∧
      (∀ i, ∀ layerIdx < c.nLayers, ∀ n ≤ c.capacity (tables i),
        c'.read layerIdx (tables i) n = .ok (((c.arrays tables).writeAll ws).read i layerIdx n)) ∧
      (∀ w, c.Within tables w → ∀ c'',
        c'.write w.layerIdx (tables w.request) w.start w.entries = .ok c'' →
        ∀ j, j ≠ w.request → ∀ l, l.1 ∈ tables j → c''.store.slot l = c'.store.slot l) ∧
      ∀ i, ∀ n ≤ c.capacity (tables i),
        (0 < c.nLayers → ∃ k v, c'.exportRequestKv (tables i) n = .ok (k, v)) ∧
        ∀ k v, c'.exportRequestKv (tables i) n = .ok (k, v) →
          ∀ (d : PagedKVCache η) (table : List BlockId), c.SameModel d → table.Nodup →
            (∀ b ∈ table, b < d.numGpuBlocks) → n ≤ d.capacity table →
            ∃ d', d.importRequestKv table k v = .ok d' ∧
              ∀ layerIdx < c.nLayers, d'.read layerIdx table n = c'.read layerIdx (tables i) n := by
  obtain ⟨c', hrun, hshape, h⟩ := (c.refines_arrays tables).writeAll ht hw
  have ht' := ht.congr hshape
  refine ⟨c', hrun, fun i layerIdx hlayer n hn => ?_, fun w hww c'' hwrite => ?_, fun i n hn => ?_⟩
  · exact h.read ht' (hshape.nLayers.symm ▸ hlayer) (by rwa [hshape.capacity])
  · obtain ⟨c₂, hwrite', -, -, hframe⟩ := h.write ht' (hshape.within hww)
    cases hwrite.symm.trans hwrite'
    exact hframe
  · have hn' : n ≤ c'.capacity (tables i) := by rwa [hshape.capacity]
    refine ⟨fun hpos => h.export_returns ht' hn' (hshape.nLayers.symm ▸ hpos),
      fun k v hexport d table hm hnodup hpool hcap => ?_⟩
    have hm' : c'.SameModel d := ⟨hm.nLayers.trans hshape.nLayers.symm,
      hm.numKvHeads.trans hshape.numKvHeads.symm, hm.headDim.trans hshape.headDim.symm,
      hm.computeDtype.trans hshape.computeDtype.symm⟩
    obtain ⟨d', himport, hread⟩ := h.transfer ht' hn' hm' hnodup hpool hcap hexport
    refine ⟨d', himport, fun layerIdx hlayer => ?_⟩
    have hlayer' : layerIdx < c'.nLayers := hshape.nLayers.symm ▸ hlayer
    rw [hread layerIdx hlayer', h.read ht' hlayer' hn']

/-- A chunk that crosses a block boundary of one request, and one of another request. A cache with
blocks of another size imports the first request's rows. -/
theorem refines_arrays_of_writes_two : ∃ (c c' d d' : PagedKVCache ℕ) (tables : Bool → List BlockId)
    (k v : KvTensor ℕ), tables true = [2, 0] ∧ tables false = [1] ∧ c.store.blockSize = 2 ∧
      writeAll tables [⟨true, 0, 1, [(1, 1), (2, 2)]⟩, ⟨false, 0, 0, [(3, 3)]⟩] c = .ok c' ∧
      c'.read 0 [2, 0] 3 = .ok [(0, 0), (1, 1), (2, 2)] ∧
      c'.exportRequestKv [2, 0] 3 = .ok (k, v) ∧ d.store.blockSize = 1 ∧
      d.importRequestKv [4, 1, 3] k v = .ok d' ∧
      d'.read 0 [4, 1, 3] 3 = .ok [(0, 0), (1, 1), (2, 2)] := by
  set c : PagedKVCache ℕ :=
    { nLayers := 1, numGpuBlocks := 3, numKvHeads := 1, headDim := 1, computeDtype := .float32
      store := { blockSize := 2, slot := fun _ _ => (0, 0) } }
  set d : PagedKVCache ℕ :=
    { nLayers := 1, numGpuBlocks := 5, numKvHeads := 1, headDim := 1, computeDtype := .float32
      store := { blockSize := 1, slot := fun _ _ => (9, 9) } }
  set tables : Bool → List BlockId := fun i => cond i [2, 0] [1]
  have ht : c.Tables tables := by
    refine ⟨by decide, fun i j hne b hi hj => ?_, by decide⟩
    have hapart : ∀ b ∈ tables true, b ∉ tables false := by decide
    cases i <;> cases j
    · exact absurd rfl hne
    · exact hapart b hj hi
    · exact hapart b hi hj
    · exact absurd rfl hne
  obtain ⟨c', hrun, hread, -, htransfer⟩ := @refines_arrays_of_writes _ _ _ c tables ht
    [⟨true, 0, 1, [(1, 1), (2, 2)]⟩, ⟨false, 0, 0, [(3, 3)]⟩]
    (by simp [Within, capacity, c, tables])
  have hrows : c'.read 0 [2, 0] 3 = .ok [(0, 0), (1, 1), (2, 2)] :=
    hread true 0 (by decide) 3 (by decide)
  obtain ⟨hexports, himports⟩ := htransfer true 3 (by decide)
  obtain ⟨k, v, hexport⟩ := hexports Nat.one_pos
  obtain ⟨d', himport, hread'⟩ := himports k v hexport d [4, 1, 3] ⟨rfl, rfl, rfl, rfl⟩ (by decide)
    (by decide) (by decide)
  exact ⟨c, c', d, d', tables, k, v, rfl, rfl, rfl, hrun, hrows, hexport, rfl, himport,
    (hread' 0 Nat.one_pos).trans hrows⟩

end PagedKVCache

end LightServe
