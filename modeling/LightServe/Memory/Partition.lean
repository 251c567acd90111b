import LightServe.Memory.Accounts

/-!
# Block ownership

Every physical block is in one place: on the free stack, behind one node of the trie, or
private in one table. What makes this stable is that a request's table never holds a block
of the trie but at the place of a node the request holds, so that `free` gives back exactly
the private blocks and a registration hands over blocks nobody else has.

## Main definitions

* `BlockManager.tableOf`, `BlockManager.privateOf` — a table, and what is private in it.
* `Partition` — the accounts hold, and every block is in one place.
* `Partition.free`, `Partition.reserve`, `Partition.allocate`, `Partition.register` — the
  operations keep it.
-/

namespace LightServe

namespace BlockManager

/-- The block table of a request id, empty if it has none. -/
def tableOf (bm : BlockManager) (id : RequestId) : List BlockId :=
  (bm.blockTables.lookup id).getD []

/-- The blocks of a stake's table that back none of its nodes. -/
def privateOf (bm : BlockManager) (s : Stake) : List BlockId :=
  (bm.tableOf s.1).filter fun b => b ∉ s.2.map fun n => (bm.tree.node n).physicalBlockId

theorem privates_eq (bm : BlockManager) (r : Request) : bm.privates r = bm.privateOf r.stake := rfl

theorem tableOf_set (bm : BlockManager) (id id' : RequestId) (table : List BlockId) :
    ((bm.blockTables.set id table).lookup id').getD [] =
      if id' = id then table else bm.tableOf id' := by
  rw [Dict.lookup_set]
  split <;> rfl

end BlockManager

namespace RadixTrie.WellFormed
variable {t : RadixTrie}

theorem mem_blocks (wf : t.WellFormed) {b : BlockId} :
    b ∈ t.blocks ↔ ∃ n, t.Live n ∧ (t.node n).physicalBlockId = b := by
  simp only [RadixTrie.blocks, List.mem_map, wf.live_iff_mem_values]

end RadixTrie.WellFormed

/-- The accounts hold without a leak, and every block is in one place. -/
structure Partition (bm : BlockManager) (stakes : List Stake) : Prop
    extends Accounts bm stakes fun _ => 0 where
  /-- A table holds a block of the trie only where the request holds the node. -/
  held : ∀ (s : Stake), s ∈ stakes → ∀ (i : ℕ) (b : BlockId), (bm.tableOf s.1)[i]? = some b →
    ∀ n, bm.tree.Live n → (bm.tree.node n).physicalBlockId = b → s.2[i]? = some n
  once : ∀ b, bm.freeBlockIds.count b + bm.tree.blocks.count b +
    (stakes.flatMap bm.privateOf).count b = (List.range bm.numGpuBlocks).count b

namespace Partition
variable {bm bm' : BlockManager} {stakes stakes' : List Stake} {s : Stake} {r : Request}

/-- The three kinds of places, side by side, list every block once. -/
theorem perm_range (p : Partition bm stakes) :
    (bm.freeBlockIds ++ bm.tree.blocks ++ stakes.flatMap bm.privateOf).Perm
      (List.range bm.numGpuBlocks) := by
  refine List.perm_iff_count.mpr fun b => ?_
  rw [List.count_append, List.count_append]
  exact p.once b

theorem nodup (p : Partition bm stakes) :
    (bm.freeBlockIds ++ bm.tree.blocks ++ stakes.flatMap bm.privateOf).Nodup :=
  p.perm_range.nodup_iff.mpr List.nodup_range

theorem perm (p : Partition bm stakes) (h : stakes.Perm stakes') : Partition bm stakes' where
  toAccounts := p.toAccounts.perm h
  held s hs := p.held s (h.mem_iff.mpr hs)
  once b := by rw [← (h.flatMap_right bm.privateOf).count_eq]; exact p.once b

/-- Live nodes with one block are one node. -/
theorem eq_of_block_eq (p : Partition bm stakes) {m n : NodeId} (hm : bm.tree.Live m)
    (hn : bm.tree.Live n)
    (h : (bm.tree.node m).physicalBlockId = (bm.tree.node n).physicalBlockId) : m = n := by
  have hnodup : bm.tree.blocks.Nodup :=
    (List.nodup_append.mp (List.nodup_append.mp p.nodup).1).2.1
  exact List.inj_on_of_nodup_map hnodup (p.wellFormed.live_iff_mem_values.mp hm)
    (p.wellFormed.live_iff_mem_values.mp hn) h

/-- Private is what is not in the trie. -/
private theorem privateOf_eq_filter (wf : bm.tree.WellFormed) (hpath : bm.tree.IsPath s.2)
    (held : ∀ (i : ℕ) (b : BlockId), (bm.tableOf s.1)[i]? = some b → ∀ n, bm.tree.Live n →
      (bm.tree.node n).physicalBlockId = b → s.2[i]? = some n) :
    bm.privateOf s = (bm.tableOf s.1).filter fun b => b ∉ bm.tree.blocks := by
  refine List.filter_congr fun b hb => decide_eq_decide.mpr (not_congr ?_)
  rw [wf.mem_blocks, List.mem_map]
  constructor
  · rintro ⟨n, hn, rfl⟩
    exact ⟨n, hpath.live n hn, rfl⟩
  · rintro ⟨n, hn, rfl⟩
    obtain ⟨i, hi⟩ := List.getElem?_of_mem hb
    exact ⟨n, List.mem_of_getElem? (held i _ hi n hn rfl), rfl⟩

theorem privateOf_eq (p : Partition bm stakes) (hs : s ∈ stakes) :
    bm.privateOf s = (bm.tableOf s.1).filter fun b => b ∉ bm.tree.blocks :=
  privateOf_eq_filter p.wellFormed (p.path s hs) (p.held s hs)

/-- A private block is nowhere else. -/
theorem notMem_of_private (p : Partition bm stakes) (hs : s ∈ stakes) {b : BlockId}
    (hb : b ∈ bm.privateOf s) : b ∉ bm.freeBlockIds ∧ b ∉ bm.tree.blocks := by
  have h := p.once b
  have hpos : 0 < (stakes.flatMap bm.privateOf).count b :=
    List.count_pos_iff.mpr (List.mem_flatMap.mpr ⟨s, hs, hb⟩)
  have hle : (List.range bm.numGpuBlocks).count b ≤ 1 :=
    List.nodup_iff_count_le_one.mp List.nodup_range b
  exact ⟨List.count_eq_zero.mp (by omega), List.count_eq_zero.mp (by omega)⟩

/-- Nor is it private to somebody else. -/
theorem notMem_of_private_of_mem (p : Partition bm (s :: stakes)) {b : BlockId}
    (hb : b ∈ bm.privateOf s) {s' : Stake} (hs : s' ∈ stakes) : b ∉ bm.privateOf s' := by
  intro hmem
  have h := p.once b
  have hle : (List.range bm.numGpuBlocks).count b ≤ 1 :=
    List.nodup_iff_count_le_one.mp List.nodup_range b
  have hhead := List.count_pos_iff.mpr hb
  have htail := List.count_pos_iff.mpr (List.mem_flatMap.mpr ⟨s', hs, hmem⟩)
  rw [List.flatMap_cons, List.count_append] at h
  omega

/-- Nor is it in anybody else's table. -/
theorem notMem_tableOf_of_private (p : Partition bm stakes) {s s' : Stake} (hs : s ∈ stakes)
    (hs' : s' ∈ stakes) (hne : s' ≠ s) {b : BlockId} (hb : b ∈ bm.privateOf s) :
    b ∉ bm.tableOf s'.1 := by
  intro hmem
  obtain ⟨pre, post, hsplit⟩ := List.append_of_mem hs
  have hperm : stakes.Perm (s :: (pre ++ post)) := hsplit ▸ List.perm_middle
  have hrest : s' ∈ pre ++ post := (List.mem_cons.mp (hperm.mem_iff.mp hs')).resolve_left hne
  refine (p.perm hperm).notMem_of_private_of_mem hb hrest ?_
  rw [p.privateOf_eq hs']
  exact List.mem_filter.mpr ⟨hmem, decide_eq_true (p.notMem_of_private hs hb).2⟩

theorem notMem_of_free (p : Partition bm stakes) {b : BlockId} (hb : b ∈ bm.freeBlockIds) :
    b ∉ bm.tree.blocks ∧ ∀ s ∈ stakes, b ∉ bm.privateOf s := by
  have h := p.once b
  have hpos := List.count_pos_iff.mpr hb
  have hle : (List.range bm.numGpuBlocks).count b ≤ 1 :=
    List.nodup_iff_count_le_one.mp List.nodup_range b
  refine ⟨List.count_eq_zero.mp (by omega), fun s hs hmem => ?_⟩
  have := List.count_pos_iff.mpr (List.mem_flatMap.mpr ⟨s, hs, hmem⟩)
  omega

/-- A fresh pool: every block is free. -/
theorem new (c : CacheConfig) (hashFn : Option BlockHash → List Token → BlockHash) :
    Partition (.new c hashFn) [] where
  toAccounts := .new c hashFn
  held := by simp
  once b := by
    have hblocks : (BlockManager.new c hashFn).tree.blocks = [] := by
      unfold BlockManager.tree BlockManager.new
      split <;> rfl
    rw [hblocks]
    simp [BlockManager.new, List.count_reverse]

/-! ## Teardown -/

theorem privateOf_congr {s : Stake} (htable : bm'.tableOf s.1 = bm.tableOf s.1)
    (hblock : ∀ n ∈ s.2, (bm'.tree.node n).physicalBlockId = (bm.tree.node n).physicalBlockId) :
    bm'.privateOf s = bm.privateOf s := by
  rw [BlockManager.privateOf, BlockManager.privateOf, htable, List.map_congr_left hblock]

theorem flatMap_privateOf_congr (htable : ∀ s ∈ stakes, bm'.tableOf s.1 = bm.tableOf s.1)
    (hblock : ∀ s ∈ stakes, ∀ n ∈ s.2,
      (bm'.tree.node n).physicalBlockId = (bm.tree.node n).physicalBlockId) :
    stakes.flatMap bm'.privateOf = stakes.flatMap bm.privateOf :=
  List.flatMap_congr fun s hs => privateOf_congr (htable s hs) (hblock s hs)

/-- Freeing a request gives its private blocks back, and nothing else. -/
theorem free (p : Partition bm (r.stake :: stakes)) : ∃ t,
    bm.free r = .ok (bm.givenBack r t, { r with cachedPrefixNodes := [] }) ∧
    bm.tree.SameShape t ∧ (bm.givenBack r t).tree = t ∧ Partition (bm.givenBack r t) stakes := by
  obtain ⟨t, ht, hshape, htree, ha⟩ := p.toAccounts.free
  have hne : ∀ s ∈ stakes, s.1 ≠ r.requestId := by
    intro s hs hid
    refine (List.nodup_cons.mp p.ids_nodup).1 ?_
    rw [show r.stake.1 = s.1 from hid.symm]
    exact List.mem_map_of_mem hs
  have htable : ∀ s ∈ stakes, (bm.givenBack r t).tableOf s.1 = bm.tableOf s.1 := by
    intro s hs
    show ((bm.blockTables.erase r.requestId).lookup s.1).getD [] = _
    rw [AList.lookup_erase_ne (hne s hs)]
    rfl
  refine ⟨t, ht, hshape, htree, ha, fun s hs i b hi n hn hb => ?_, fun b => ?_⟩
  · rw [htree] at hn hb
    rw [htable s hs] at hi
    rw [hshape.physicalBlockId] at hb
    exact p.held s (List.mem_cons_of_mem _ hs) i b hi n (hshape.live.mp hn) hb
  · have honce := p.once b
    have hrest := flatMap_privateOf_congr htable fun s _ n _ => by
      rw [htree, hshape.physicalBlockId]
    rw [htree, hshape.blocks, hrest]
    rw [List.flatMap_cons, List.count_append] at honce
    show ((bm.privates r).reverse ++ bm.freeBlockIds).count b + _ + _ = _
    rw [List.count_append, List.count_reverse, bm.privates_eq r]
    show _ = (List.range bm.numGpuBlocks).count b
    omega

/-! ## Growth -/

theorem ne_of_mem_tail (p : Partition bm (s :: stakes)) {s' : Stake} (hs : s' ∈ stakes) :
    s'.1 ≠ s.1 := fun hid =>
  (List.nodup_cons.mp p.ids_nodup).1 (hid ▸ List.mem_map_of_mem hs)

/-- Blocks that move from the free stack to the end of a table become private there. -/
private theorem grow (p : Partition bm (s :: stakes)) (ha : Accounts bm' (s :: stakes) fun _ => 0)
    (count : ℕ) (hfree : bm'.freeBlockIds = bm.freeBlockIds.drop count) (htree : bm'.tree = bm.tree)
    (htable : bm'.tableOf s.1 = bm.tableOf s.1 ++ bm.freeBlockIds.take count)
    (hother : ∀ s' ∈ stakes, bm'.tableOf s'.1 = bm.tableOf s'.1)
    (hnum : bm'.numGpuBlocks = bm.numGpuBlocks) : Partition bm' (s :: stakes) := by
  have hfresh : ∀ b ∈ bm.freeBlockIds.take count, b ∉ bm.tree.blocks := fun b hb =>
    (p.notMem_of_free (List.mem_of_mem_take hb)).1
  refine ⟨ha, List.forall_mem_cons.mpr ⟨fun i b hi n hn hb => ?_, fun s' hs i b hi n hn hb => ?_⟩,
    fun b => ?_⟩
  · rw [htree] at hn hb
    rw [htable] at hi
    rcases Nat.lt_or_ge i (bm.tableOf s.1).length with hlt | hge
    · rw [List.getElem?_append_left hlt] at hi
      exact p.held s List.mem_cons_self i b hi n hn hb
    · rw [List.getElem?_append_right hge] at hi
      exact absurd (p.wellFormed.mem_blocks.mpr ⟨n, hn, hb⟩) (hfresh b (List.mem_of_getElem? hi))
  · rw [htree] at hn hb
    rw [hother s' hs] at hi
    exact p.held s' (List.mem_cons_of_mem _ hs) i b hi n hn hb
  · have hrest := flatMap_privateOf_congr hother fun s _ n _ => by rw [htree]
    have hprivate : bm'.privateOf s = bm.privateOf s ++ bm.freeBlockIds.take count := by
      rw [BlockManager.privateOf, htable, htree, List.filter_append]
      congr 1
      refine List.filter_eq_self.mpr fun b hb => decide_eq_true fun hmem => hfresh b hb ?_
      obtain ⟨n, hn, rfl⟩ := List.mem_map.mp hmem
      exact p.wellFormed.mem_blocks.mpr ⟨n, (p.path s List.mem_cons_self).live n hn, rfl⟩
    have honce := p.once b
    have hsplit := congrArg (List.count b) (List.take_append_drop count bm.freeBlockIds)
    rw [List.flatMap_cons, List.count_append] at honce ⊢
    rw [List.count_append] at hsplit
    rw [hrest, hprivate, htree, hfree, hnum, List.count_append]
    omega

/-- A chunk that fits takes its blocks from the free stack. -/
theorem reserve (p : Partition bm stakes) (hr : r.stake ∈ stakes) {chunk : ℤ}
    (hfit : Scheduler.fits bm r chunk = true) :
    Scheduler.reserve bm r chunk =
        .ok (bm.handOut r.requestId (bm.getBlockTable r) (bm.growth r chunk)) ∧
      Partition (bm.handOut r.requestId (bm.getBlockTable r) (bm.growth r chunk)) stakes := by
  obtain ⟨hok, ha⟩ := p.toAccounts.reserve hr hfit
  refine ⟨hok, ?_⟩
  obtain ⟨pre, post, hsplit⟩ := List.append_of_mem hr
  have hperm : stakes.Perm (r.stake :: (pre ++ post)) := hsplit ▸ List.perm_middle
  have p' := p.perm hperm
  refine (p'.grow (ha.perm hperm) (bm.growth r chunk) rfl rfl ?_ (fun s' hs => ?_) rfl).perm
    hperm.symm
  · exact (bm.tableOf_set _ _ _).trans (if_pos rfl)
  · exact (bm.tableOf_set _ _ _).trans (if_neg (p'.ne_of_mem_tail hs))

/-! ## Allocation -/

/-- An allocation hands out the matched blocks, which stay the trie's, and fresh ones. -/
theorem allocate (p : Partition bm stakes) (hr : r.cachedPrefixNodes = []) {r' : Request}
    (h : bm.allocate r (bm.matchPrefix r.promptTokenIds) = .ok (bm', r')) :
    Partition bm' (r'.stake :: stakes) := by
  obtain ⟨t, vs, hstake, -, hbm, hle, htree, hpruned, havoid, ha⟩ := p.toAccounts.allocate hr h
  set nodes := (bm.tree.matchTokens r.promptTokenIds).nodes
  have hshape := Accounts.sameShape_heldTree bm r.promptTokenIds
  have hlive : ∀ n, t.Live n ↔ bm.tree.Live n ∧ n ∉ vs := fun n => by
    rw [hpruned.live, hshape.live]
  have hblock : ∀ n, (t.node n).physicalBlockId = (bm.tree.node n).physicalBlockId := fun n => by
    rw [hpruned.physicalBlockId, hshape.physicalBlockId]
  -- first the evictions and the matched blocks, then the fresh ones
  set base := nodes.map fun n => (bm.tree.node n).physicalBlockId
  let mid : BlockManager :=
    { bm.evicted t (vs.map fun n => (bm.tree.node n).physicalBlockId) with
      blockTables := bm.blockTables.set r.requestId base }
  have hmidtree : mid.tree = t := by rw [← htree, hbm]; rfl
  have hid : r.requestId ∉ stakes.map Prod.fst := by
    have := (List.nodup_cons.mp ha.ids_nodup).1
    rwa [hstake] at this
  have hne : ∀ s ∈ stakes, s.1 ≠ r.requestId := fun s hs h =>
    hid (h ▸ List.mem_map_of_mem (f := Prod.fst) hs)
  have hother : ∀ s ∈ stakes, mid.tableOf s.1 = bm.tableOf s.1 := fun s hs =>
    (bm.tableOf_set _ _ _).trans (if_neg (hne s hs))
  have hbase : mid.tableOf r.requestId = base := (bm.tableOf_set _ _ _).trans (if_pos rfl)
  have hpm : Partition mid (r'.stake :: stakes) := by
    refine ⟨⟨ha.ids_nodup, fun id => ?_, ?_, ?_, ?_⟩,
      List.forall_mem_cons.mpr ⟨fun i b hi n hn hb => ?_, fun s hs i b hi n hn hb => ?_⟩,
      fun b => ?_⟩
    · have := ha.tables id
      rw [hbm] at this
      rw [← this]
      show id ∈ bm.blockTables.set _ _ ↔ id ∈ bm.blockTables.set _ _
      rw [Dict.mem_set, Dict.mem_set]
    · rw [hmidtree, ← htree]
      exact ha.keeps
    · rw [hmidtree, ← htree]
      exact ha.path
    · rw [hmidtree, ← htree, ha.blockSize, hbm]
      rfl
    · rw [hstake] at hi ⊢
      rw [hbase, List.getElem?_map] at hi
      obtain ⟨m, hm, rfl⟩ := Option.map_eq_some_iff.mp hi
      rw [hmidtree, hlive] at hn
      rw [hmidtree, hblock] at hb
      have hmlive := ((p.wellFormed.matchTokens r.promptTokenIds).1).live m
        (List.mem_of_getElem? hm)
      rw [p.eq_of_block_eq hn.1 hmlive hb]
      exact hm
    · rw [hmidtree, hlive] at hn
      rw [hmidtree, hblock] at hb
      rw [hother s hs] at hi
      exact p.held s hs i b hi n hn.1 hb
    · have hrest := flatMap_privateOf_congr hother fun s _ n _ => by
        rw [hmidtree, hblock]
      have hnil : mid.privateOf r'.stake = [] := by
        rw [hstake, BlockManager.privateOf, hbase, hmidtree]
        simp only [hblock]
        exact List.filter_eq_nil_iff.mpr fun b hb => by simpa using List.mem_map.mp hb
      have honce := p.once b
      have hblocks := hpruned.blocks.count_eq b
      rw [hshape.blocks, List.count_append] at hblocks
      simp only [hshape.physicalBlockId] at hblocks
      rw [List.flatMap_cons, hnil, List.nil_append, hrest, hmidtree]
      show ((vs.map fun n => (bm.tree.node n).physicalBlockId).reverse ++ bm.freeBlockIds).count b +
        _ + _ = (List.range bm.numGpuBlocks).count b
      rw [List.count_append, List.count_reverse]
      omega
  rw [hbm] at ha ⊢
  refine hpm.grow ha (bm.neededFresh r (bm.matchPrefix r.promptTokenIds)) rfl rfl ?_
    (fun s hs => ?_) rfl
  · rw [hstake, hbase]
    exact (bm.tableOf_set _ _ _).trans (if_pos rfl)
  · rw [hother s hs]
    exact (bm.tableOf_set _ _ _).trans (if_neg (hne s hs))

/-! ## Registration -/

/-- No table lists a block twice. -/
theorem tableOf_nodup (p : Partition bm stakes) (hs : s ∈ stakes) : (bm.tableOf s.1).Nodup := by
  refine List.nodup_iff_getElem?_ne_getElem?.mpr fun i j hij hj heq => ?_
  have hbj := List.getElem?_eq_getElem hj
  set b := (bm.tableOf s.1)[j]
  rw [hbj] at heq
  by_cases hb : b ∈ bm.tree.blocks
  · obtain ⟨n, hn, hnb⟩ := p.wellFormed.mem_blocks.mp hb
    have hi' := p.held s hs i b heq n hn hnb
    have hj' := p.held s hs j b hbj n hn hnb
    have hnodup := p.wellFormed.isPathFrom_nodup (p.path s hs)
    exact List.nodup_iff_getElem?_ne_getElem?.mp hnodup i j hij
      (List.getElem?_eq_some_iff.mp hj').1 (hi'.trans hj'.symm)
  · -- a private block would be counted twice
    have honce := p.once b
    have hle : (List.range bm.numGpuBlocks).count b ≤ 1 :=
      List.nodup_iff_count_le_one.mp List.nodup_range b
    have hsum : (bm.privateOf s).count b ≤ (stakes.flatMap bm.privateOf).count b := by
      obtain ⟨pre, post, rfl⟩ := List.append_of_mem hs
      rw [List.flatMap_append, List.flatMap_cons, List.count_append, List.count_append]
      omega
    have hcount : (bm.privateOf s).count b = (bm.tableOf s.1).count b := by
      rw [p.privateOf_eq hs]
      exact List.count_filter (decide_eq_true hb)
    have hsplit := congrArg (List.count b) (List.take_append_drop j (bm.tableOf s.1))
    rw [List.count_append] at hsplit
    have hfront : 0 < ((bm.tableOf s.1).take j).count b :=
      List.count_pos_iff.mpr
        (List.mem_of_getElem? (by rw [List.getElem?_take_of_lt hij]; exact heq))
    have hback : 0 < ((bm.tableOf s.1).drop j).count b :=
      List.count_pos_iff.mpr (List.mem_of_getElem? (i := 0) (by rw [List.getElem?_drop]; exact hbj))
    omega

/-- Past the nodes a request holds, its table is private. -/
theorem notMem_blocks (p : Partition bm stakes) (hs : s ∈ stakes) {i : ℕ} {b : BlockId}
    (hi : (bm.tableOf s.1)[i]? = some b) (hlen : s.2.length ≤ i) : b ∉ bm.tree.blocks := by
  intro hmem
  obtain ⟨n, hn, hb⟩ := p.wellFormed.mem_blocks.mp hmem
  have := (List.getElem?_eq_some_iff.mp (p.held s hs i b hi n hn hb)).1
  omega

private theorem count_filter_notMem {l new taken : List BlockId} (hnodup : l.Nodup)
    (hsub : new.Sublist l) (hnew : ∀ b ∈ new, b ∉ taken) (b : BlockId) :
    (l.filter fun b => b ∉ taken).count b =
      new.count b + (l.filter fun b => b ∉ taken ++ new).count b := by
  have hone := List.nodup_iff_count_le_one.mp hnodup b
  have hle := hsub.count_le b
  have hzero : ∀ l' : List BlockId, b ∈ l' → (l.filter fun b => b ∉ l').count b = 0 := by
    intro l' hb
    refine List.count_eq_zero.mpr fun hmem => ?_
    exact absurd hb (of_decide_eq_true (List.mem_filter.mp hmem).2)
  have hall : ∀ l' : List BlockId, b ∉ l' → (l.filter fun b => b ∉ l').count b = l.count b :=
    fun l' hb => List.count_filter (decide_eq_true hb)
  by_cases htaken : b ∈ taken
  · rw [hzero taken htaken, hzero _ (List.mem_append_left _ htaken),
      List.count_eq_zero.mpr fun hb => hnew b hb htaken]
  · rw [hall taken htaken]
    by_cases hb : b ∈ new
    · have hpos := List.count_pos_iff.mpr hb
      rw [hzero _ (List.mem_append_right _ hb)]
      omega
    · rw [hall _ (by simp [htaken, hb]), List.count_eq_zero.mpr hb]
      omega

/-- A registration that cuts nothing hands the blocks behind its new nodes to the trie. -/
theorem register (p : Partition bm (r.stake :: stakes)) (hcf : bm.ClashFree r)
    (hkeep : r.cachedPrefixNodes.length ≤ r.numComputedPrompt / bm.blockSize) {r' : Request}
    (h : bm.insertComputedPrefix r = .ok (bm', r')) : Partition bm' (r'.stake :: stakes) := by
  rcases p.toAccounts.registration hcf h with ⟨rfl, rfl⟩ | ⟨-, hle, rfl, rfl⟩ |
    ⟨t, old, new, rfl, rfl, htree, hins, hk⟩
  · exact p
  · have hsame : r.cachedPrefixNodes.take (r.numComputedPrompt / bm'.blockSize) =
        r.cachedPrefixNodes := List.take_of_length_le hkeep
    rw [hsame]
    exact p
  · have wf := p.wellFormed
    have hmem : r.stake ∈ r.stake :: stakes := List.mem_cons_self
    have hold : ∀ n, bm.tree.Live n →
        (t.node n).physicalBlockId = (bm.tree.node n).physicalBlockId :=
      fun n hn => hins.grown.physicalBlockId n (wf.lt_next_of_live hn)
    have hblocks := hins.grown.blocks wf
    set newBlocks := new.map fun n => (t.node n).physicalBlockId with hnew
    have hslice : newBlocks = ((bm.tableOf r.requestId).drop
        (r.cachedPrefixNodes.length + old.length)).take new.length := hins.blocks_new
    have hat : ∀ j (hj : j < new.length), (bm.tableOf r.requestId)[r.cachedPrefixNodes.length +
        old.length + j]? = some ((t.node new[j]).physicalBlockId) := fun j hj => hins.block_new hj
    have hprivate : ∀ b ∈ newBlocks, b ∉ bm.tree.blocks := by
      intro b hb
      obtain ⟨n, hn, rfl⟩ := List.mem_map.mp hb
      obtain ⟨j, hj, rfl⟩ := List.getElem_of_mem hn
      exact p.notMem_blocks hmem (hat j hj) (by show r.cachedPrefixNodes.length ≤ _; omega)
    have htable : ∀ id, (bm.setTree t).tableOf id = bm.tableOf id := fun _ => rfl
    have ha : Accounts (bm.setTree t)
        (Request.stake { r with cachedPrefixNodes := r.cachedPrefixNodes ++ old ++ new } :: stakes)
        fun _ => 0 := by
      refine ⟨p.ids_nodup, p.tables, by rw [htree]; exact hk, ?_, ?_⟩
      · rw [htree]
        refine List.forall_mem_cons.mpr ⟨hins.path, fun s hs => ?_⟩
        exact hins.grown.isPathFrom wf (p.path s (List.mem_cons_of_mem _ hs))
      · rw [htree, hins.grown.blockSize, p.blockSize]
        rfl
    have hheld : ∀ (i : ℕ) (b : BlockId), (bm.tableOf r.requestId)[i]? = some b → ∀ n, t.Live n →
        (t.node n).physicalBlockId = b → (r.cachedPrefixNodes ++ old ++ new)[i]? = some n := by
      intro i b hi n hn hb
      rcases (hins.grown.live n).mp hn with hn | hn
      · rw [hold n hn] at hb
        have hfound : r.cachedPrefixNodes[i]? = some n := p.held r.stake hmem i b hi n hn hb
        have hlt := (List.getElem?_eq_some_iff.mp hfound).1
        rw [List.append_assoc, List.getElem?_append_left hlt]
        exact hfound
      · obtain ⟨j, hj, rfl⟩ := List.getElem_of_mem hn
        have hi' := hat j hj
        rw [hb] at hi'
        have hidx : i = r.cachedPrefixNodes.length + old.length + j := by
          have hnodup := p.tableOf_nodup hmem
          have hlt := (List.getElem?_eq_some_iff.mp hi).1
          exact (List.getElem?_inj hlt hnodup).mp (hi.trans hi'.symm)
        rw [hidx, ← List.length_append, List.getElem?_append_right (Nat.le_add_right _ _),
          Nat.add_sub_cancel_left, List.getElem?_eq_getElem hj]
    refine ⟨ha, List.forall_mem_cons.mpr ⟨?_, fun s hs i b hi n hn hb => ?_⟩, fun b => ?_⟩
    · rw [htree]
      exact hheld
    · rw [htree] at hn hb
      rcases (hins.grown.live n).mp hn with hn | hn
      · rw [hold n hn] at hb
        exact p.held s (List.mem_cons_of_mem _ hs) i b hi n hn hb
      · -- the block of a new node was private to the request that registers it
        have hbnew : b ∈ newBlocks := hb ▸ List.mem_map_of_mem hn
        have hbr : b ∈ bm.privateOf r.stake := by
          rw [p.privateOf_eq hmem]
          refine List.mem_filter.mpr ⟨?_, decide_eq_true (hprivate b hbnew)⟩
          rw [hslice] at hbnew
          exact List.mem_of_mem_drop (List.mem_of_mem_take hbnew)
        refine absurd ?_ (p.notMem_of_private_of_mem hbr hs)
        rw [p.privateOf_eq (List.mem_cons_of_mem _ hs)]
        exact List.mem_filter.mpr ⟨List.mem_of_getElem? hi, decide_eq_true (hprivate b hbnew)⟩
    · have honce := p.once b
      have hrest := flatMap_privateOf_congr
        (fun s _ => htable s.1) fun s hs n hn => by
          rw [htree]
          exact hold n ((p.path s (List.mem_cons_of_mem _ hs)).live n hn)
      have hpriv := privateOf_eq_filter
        (s := (r.requestId, r.cachedPrefixNodes ++ old ++ new)) ha.wellFormed
        (by rw [htree]; exact hins.path) (by rw [htree]; exact hheld)
      rw [htree, hblocks] at hpriv
      have hcount : (bm.privateOf r.stake).count b =
          newBlocks.count b + ((bm.setTree t).privateOf
            (r.requestId, r.cachedPrefixNodes ++ old ++ new)).count b := by
        have hsub : newBlocks.Sublist (bm.tableOf r.requestId) := by
          rw [hslice]
          exact (List.take_sublist _ _).trans (List.drop_sublist _ _)
        rw [hpriv, p.privateOf_eq hmem]
        exact count_filter_notMem (p.tableOf_nodup hmem) hsub hprivate b
      rw [List.flatMap_cons, List.count_append] at honce ⊢
      rw [hrest, htree, hblocks, List.count_append]
      show bm.freeBlockIds.count b + _ + (((bm.setTree t).privateOf
        (r.requestId, r.cachedPrefixNodes ++ old ++ new)).count b + _) =
          (List.range bm.numGpuBlocks).count b
      omega

/-! ## Moves -/

theorem move {x y : BlockManager × List Stake} (h : BlockMove x y) (p : Partition x.1 x.2) :
    Partition y.1 y.2 := by
  cases h with
  | perm h => exact p.perm h
  | free h =>
    obtain ⟨t, ht, -, -, hp⟩ := p.free
    cases ht.symm.trans h
    exact hp
  | reserve hr hfit h =>
    obtain ⟨ht, hp⟩ := p.reserve hr hfit
    cases ht.symm.trans h
    exact hp
  | allocate hr h => exact p.allocate hr h

theorem moves {x y : BlockManager × List Stake} (h : Relation.ReflTransGen BlockMove x y)
    (p : Partition x.1 x.2) : Partition y.1 y.2 := by
  induction h with
  | refl => exact p
  | tail _ hm ih => exact move hm ih

end Partition

/-! ## Without a cache -/

/-- Without holds everything in a table is private. -/
theorem BlockManager.privateOf_nil (bm : BlockManager) (id : RequestId) :
    bm.privateOf (id, []) = bm.tableOf id := by
  simp [privateOf]

namespace Partition
variable {bm : BlockManager} {ids : List RequestId} {id id' : RequestId}

/-- Without a cache every block is free or in a table. -/
theorem total (p : Partition bm (ids.map fun id => (id, []))) (hc : bm.prefixCache = none) :
    bm.freeBlockIds.length + (ids.map fun id => (bm.tableOf id).length).sum = bm.numGpuBlocks := by
  have hblocks : bm.tree.blocks = [] := by rw [BlockManager.tree_of_none hc]; rfl
  have hlen := p.perm_range.length_eq
  simp only [hblocks, List.append_nil, List.length_append, List.length_range, List.flatMap_map,
    BlockManager.privateOf_nil, List.length_flatMap] at hlen
  exact hlen

/-- No block is in two tables. -/
theorem tableOf_disjoint (p : Partition bm (ids.map fun id => (id, []))) (hne : id ≠ id')
    {b : BlockId} (hb : b ∈ bm.tableOf id) : b ∉ bm.tableOf id' := by
  intro hb'
  have hmem : ∀ i, (bm.tableOf i) ≠ [] → ((i, []) : Stake) ∈ ids.map fun id => (id, []) := by
    intro i hi
    have htable : i ∈ bm.blockTables := by
      by_contra h
      exact hi (by rw [BlockManager.tableOf, AList.lookup_eq_none.mpr h]; rfl)
    simpa [List.map_map, Function.comp_def] using (p.tables i).mp htable
  obtain ⟨pre, post, hsplit⟩ := List.append_of_mem (hmem id (List.ne_nil_of_mem hb))
  have p' := p.perm (hsplit ▸ List.perm_middle)
  have hother : ((id', []) : Stake) ∈ pre ++ post := by
    have h := hmem id' (List.ne_nil_of_mem hb')
    rw [hsplit, List.mem_append, List.mem_cons] at h
    rcases h with h | h | h
    · exact List.mem_append_left _ h
    · exact absurd (Prod.mk.inj h).1.symm hne
    · exact List.mem_append_right _ h
  rw [← bm.privateOf_nil] at hb hb'
  exact p'.notMem_of_private_of_mem hb hother hb'

end Partition

/-! ## The pool -/

/-- What no move changes about a block manager. -/
structure SamePool (bm bm' : BlockManager) : Prop where
  blockSize : bm'.blockSize = bm.blockSize
  numGpuBlocks : bm'.numGpuBlocks = bm.numGpuBlocks
  watermarkBlocks : bm'.watermarkBlocks = bm.watermarkBlocks
  caching : bm'.prefixCache.isSome = bm.prefixCache.isSome

namespace SamePool
variable {bm bm' bm'' : BlockManager}

theorem refl (bm : BlockManager) : SamePool bm bm := ⟨rfl, rfl, rfl, rfl⟩

theorem trans (h : SamePool bm bm') (h' : SamePool bm' bm'') : SamePool bm bm'' :=
  ⟨h'.blockSize.trans h.blockSize, h'.numGpuBlocks.trans h.numGpuBlocks,
    h'.watermarkBlocks.trans h.watermarkBlocks, h'.caching.trans h.caching⟩

theorem of_move {x y : BlockManager × List Stake} {leak : NodeId → ℕ} (h : BlockMove x y)
    (a : Accounts x.1 x.2 leak) : SamePool x.1 y.1 := by
  cases h with
  | perm h => exact .refl _
  | free h =>
    obtain ⟨t, ht, -⟩ := a.free
    cases ht.symm.trans h
    exact ⟨rfl, rfl, rfl, BlockManager.setTree_isSome _ t⟩
  | reserve hr hfit h =>
    obtain ⟨ht, -⟩ := a.reserve hr hfit
    cases ht.symm.trans h
    exact ⟨rfl, rfl, rfl, rfl⟩
  | allocate hr h =>
    obtain ⟨t, vs, -, -, rfl, -⟩ := a.allocate hr h
    exact ⟨rfl, rfl, rfl, BlockManager.setTree_isSome _ t⟩

theorem of_moves {x y : BlockManager × List Stake} {leak : NodeId → ℕ}
    (h : Relation.ReflTransGen BlockMove x y) (a : Accounts x.1 x.2 leak) : SamePool x.1 y.1 := by
  induction h with
  | refl => exact .refl _
  | tail hs hm ih => exact ih.trans (of_move hm (a.moves hs))

end SamePool

end LightServe
