import LightServe.Memory.Operations
import LightServe.PrefixCache.Lookup
import Mathlib.Data.Set.Card

/-!
# The block manager's accounts

`Accounts` says that the block manager and the requests it serves agree: a table for every
one of them and for nobody else, and a trie that counts their holds. Holds that no request
knows of any more are allowed for; they are what a registration leaks that cuts a prefix
short. Every operation keeps the accounts, and under them `free` and the growth of a table
never fail.

## Main definitions

* `Request.stake` — what the block manager knows a request by.
* `Accounts` — tables and holds are those of the stakes.
* `Accounts.free`, `Accounts.reserve`, `Accounts.allocate`, `Accounts.insertComputedPrefix`.
* `BlockManager.spare` — the blocks that eviction can free.
-/

namespace LightServe

/-- A request's id and the nodes it holds. -/
abbrev Stake := RequestId × List NodeId

/-- What the block manager knows a request by. -/
def Request.stake (r : Request) : Stake := (r.requestId, r.cachedPrefixNodes)

/-- How many stakes hold a node. -/
def holders (stakes : List Stake) (n : NodeId) : ℕ := (stakes.flatMap Prod.snd).count n

@[simp] theorem holders_nil (n : NodeId) : holders [] n = 0 := rfl

@[simp] theorem holders_cons (s : Stake) (stakes : List Stake) (n : NodeId) :
    holders (s :: stakes) n = s.2.count n + holders stakes n := by
  simp [holders, List.count_append]

theorem holders_perm {stakes stakes' : List Stake} (h : stakes.Perm stakes') (n : NodeId) :
    holders stakes n = holders stakes' n :=
  (h.flatMap_right Prod.snd).count_eq n

/-- The blocks that eviction can free once the match of `tokenIds` is held: those with
nothing held and nothing matched at or below them. -/
noncomputable def BlockManager.spare (bm : BlockManager) (tokenIds : List Token) : ℕ :=
  Set.ncard {v | bm.tree.Live v ∧ ∀ u, bm.tree.AtOrBelow v u →
    (bm.tree.node u).refCount = 0 ∧ u ∉ (bm.tree.matchTokens tokenIds).nodes}

/-- How much of its prompt a request has computed. -/
def Request.numComputedPrompt (r : Request) : ℕ := min r.numComputedTokens r.promptTokenIds.length

/-- Registering a request's progress clashes with no hash in use. -/
def BlockManager.ClashFree (bm : BlockManager) (r : Request) : Prop :=
  ∀ t, bm.prefixCache = some t → t.InsertClashFree r.promptTokenIds (bm.getBlockTable r)
    r.numComputedPrompt r.cachedPrefixNodes

instance (bm : BlockManager) (r : Request) : Decidable (bm.ClashFree r) :=
  inferInstanceAs (Decidable (∀ t ∈ bm.prefixCache, _))

/-- Tables and holds are those of the stakes, and of `leak`. -/
structure Accounts (bm : BlockManager) (stakes : List Stake) (leak : NodeId → ℕ) : Prop where
  ids_nodup : (stakes.map Prod.fst).Nodup
  tables : ∀ id, id ∈ bm.blockTables ↔ id ∈ stakes.map Prod.fst
  keeps : bm.tree.Keeps fun n => leak n + holders stakes n
  path : ∀ s ∈ stakes, bm.tree.IsPath s.2
  blockSize : bm.tree.blockSize = bm.blockSize

namespace Accounts
variable {bm bm' : BlockManager} {stakes stakes' : List Stake} {leak : NodeId → ℕ} {r : Request}

theorem perm (a : Accounts bm stakes leak) (h : stakes.Perm stakes') :
    Accounts bm stakes' leak where
  ids_nodup := (h.map Prod.fst).nodup_iff.mp a.ids_nodup
  tables id := by rw [a.tables]; exact (h.map Prod.fst).mem_iff
  keeps := a.keeps.congr fun n => by rw [holders_perm h]
  path s hs := a.path s (h.mem_iff.mpr hs)
  blockSize := a.blockSize

/-- Without a cache nobody holds a node. -/
theorem nodes_eq_nil (a : Accounts bm stakes leak) (h : bm.prefixCache = none) {s : Stake}
    (hs : s ∈ stakes) : s.2 = [] := by
  have hpath := a.path s hs
  rw [BlockManager.tree_of_none h] at hpath
  cases hn : s.2 with
  | nil => rfl
  | cons n ns =>
    rw [hn] at hpath
    exact absurd hpath.1 (by simp [RadixTrie.Live])

theorem wellFormed (a : Accounts bm stakes leak) : bm.tree.WellFormed := a.keeps.toWellFormed

/-- A fresh pool serves nobody. -/
theorem new (c : CacheConfig) (hashFn : Option BlockHash → List Token → BlockHash) :
    Accounts (.new c hashFn) [] fun _ => 0 where
  ids_nodup := List.nodup_nil
  tables id := by simp [BlockManager.new]
  keeps := by
    unfold BlockManager.tree BlockManager.new
    split <;> exact (RadixTrie.keeps_empty _ _).congr (by simp)
  path := by simp
  blockSize := by
    unfold BlockManager.tree BlockManager.new
    split <;> rfl

/-! ## Teardown -/

/-- A request that is served can be freed. -/
theorem free (a : Accounts bm (r.stake :: stakes) leak) : ∃ t,
    bm.free r = .ok (bm.givenBack r t, { r with cachedPrefixNodes := [] }) ∧
      bm.tree.SameShape t ∧ (bm.givenBack r t).tree = t ∧
      Accounts (bm.givenBack r t) stakes leak := by
  have hkeeps := a.keeps
  have hheld : ∀ n, r.cachedPrefixNodes.count n ≤ leak n + holders (r.stake :: stakes) n := by
    intro n
    rw [holders_cons]
    show _ ≤ leak n + (r.cachedPrefixNodes.count n + _)
    omega
  obtain ⟨t, ht, hshape, hk⟩ := hkeeps.release hheld
  have hcache : bm.prefixCache = none → r.cachedPrefixNodes = [] := fun h =>
    a.nodes_eq_nil h (s := r.stake) List.mem_cons_self
  have htable : r.requestId ∈ bm.blockTables := (a.tables _).mpr (by simp [Request.stake])
  have htree : (bm.givenBack r t).tree = t := by
    refine BlockManager.tree_setTree fun h => ?_
    rw [hcache h] at ht
    exact (Except.ok.inj ht).symm
  have hnodup := List.nodup_cons.mp a.ids_nodup
  refine ⟨t, BlockManager.free_eq hcache htable ht, hshape, htree, hnodup.2, fun id => ?_,
    ?_, ?_, ?_⟩
  · show id ∈ bm.blockTables.erase r.requestId ↔ _
    rw [AList.mem_erase, a.tables, List.map_cons, List.mem_cons]
    constructor
    · rintro ⟨hne, h | h⟩
      · exact absurd h hne
      · exact h
    · intro h
      refine ⟨?_, .inr h⟩
      rintro rfl
      exact hnodup.1 h
  · rw [htree]
    refine hk.congr fun n => ?_
    rw [holders_cons]
    show _ = leak n + (r.cachedPrefixNodes.count n + _) - _
    omega
  · intro s hs
    rw [htree, hshape.isPath]
    exact a.path s (List.mem_cons_of_mem _ hs)
  · rw [htree, hshape.blockSize, a.blockSize]
    rfl

/-! ## Growth -/

/-- A chunk that fits is reserved. -/
theorem reserve (a : Accounts bm stakes leak) (hr : r.stake ∈ stakes) {chunk : ℤ}
    (hfit : Scheduler.fits bm r chunk = true) :
    Scheduler.reserve bm r chunk =
        .ok (bm.handOut r.requestId (bm.getBlockTable r) (bm.growth r chunk)) ∧
      Accounts (bm.handOut r.requestId (bm.getBlockTable r) (bm.growth r chunk)) stakes leak := by
  have hid : r.requestId ∈ stakes.map Prod.fst := List.mem_map_of_mem (f := Prod.fst) hr
  refine ⟨BlockManager.reserve_eq ((a.tables _).mpr hid) ((bm.fits_iff r chunk).mp hfit),
    a.ids_nodup, fun id => ?_, a.keeps, a.path, a.blockSize⟩
  show id ∈ bm.blockTables.set r.requestId _ ↔ _
  rw [Dict.mem_set, a.tables]
  constructor
  · rintro (rfl | h)
    · exact hid
    · exact h
  · exact .inr

/-! ## Allocation -/

section Allocate

theorem sameShape_heldTree (bm : BlockManager) (tokenIds : List Token) :
    bm.tree.SameShape (bm.heldTree tokenIds) := by
  cases hc : bm.prefixCache with
  | none => rw [BlockManager.heldTree_of_none hc]; exact .refl _
  | some t =>
    simp only [BlockManager.heldTree, hc, BlockManager.tree_of_some hc]
    exact RadixTrie.sameShape_acquire ..

/-- Holding the match adds the stake of the request that was looked up. -/
theorem keeps_heldTree (a : Accounts bm stakes leak) (id : RequestId) (tokenIds : List Token) :
    (bm.heldTree tokenIds).Keeps fun n =>
      leak n + holders ((id, (bm.tree.matchTokens tokenIds).nodes) :: stakes) n := by
  have hpath := (a.wellFormed.matchTokens tokenIds).1
  cases hc : bm.prefixCache with
  | none =>
    rw [BlockManager.heldTree_of_none hc]
    refine a.keeps.congr fun n => ?_
    simp [BlockManager.tree_matchTokens_of_none hc]
  | some t =>
    have htree := BlockManager.tree_of_some hc
    rw [htree] at hpath
    have hkeeps := a.keeps
    rw [htree] at hkeeps
    simp only [BlockManager.heldTree, hc, htree]
    refine (hkeeps.acquire hpath.live tokenIds.length).congr fun n => ?_
    rw [holders_cons]
    show leak n + ((t.matchTokens tokenIds).nodes.count n + holders stakes n) = _
    omega

theorem card_reclaimable (a : Accounts bm stakes leak) (id : RequestId) (tokenIds : List Token)
    {F : Forest NodeId} (hF : (bm.heldTree tokenIds).Shows F) :
    (F.reclaimable fun n =>
      0 < leak n + holders ((id, (bm.tree.matchTokens tokenIds).nodes) :: stakes) n).card =
        bm.spare tokenIds := by
  have hshape := sameShape_heldTree bm tokenIds
  have wf := hshape.wellFormed a.wellFormed
  rw [BlockManager.spare, ← Set.ncard_coe_finset]
  congr 1
  ext v
  rw [Finset.mem_coe, Forest.mem_reclaimable, hF.mem_nodes, Set.mem_ofPred_eq, hshape.live]
  refine and_congr_right fun hv => forall_congr' fun u => ?_
  have hv' := hshape.live.mpr hv
  rw [hF.mem_nodes, ← hshape.atOrBelow, ← hF.below_iff wf hv', and_imp]
  refine imp_congr_right fun hu => imp_congr_right fun _ => ?_
  rw [a.keeps.refCount_eq (hshape.live.mp hu), holders_cons, ← List.count_eq_zero]
  show ¬ 0 < leak u + ((bm.tree.matchTokens tokenIds).nodes.count u + holders stakes u) ↔ _
  omega

/-- A request can be allocated exactly when it has no table and there is room for it. -/
theorem allocate_iff (a : Accounts bm stakes leak) :
    (∃ res, bm.allocate r (bm.matchPrefix r.promptTokenIds) = .ok res) ↔
      r.requestId ∉ stakes.map Prod.fst ∧
        bm.neededFresh r (bm.matchPrefix r.promptTokenIds) ≤
          bm.numFreeBlocks + bm.spare r.promptTokenIds := by
  have hkeeps := a.keeps_heldTree r.requestId r.promptTokenIds
  obtain ⟨F, hF⟩ := hkeeps.toWellFormed.exists_shows
  have hcard := a.card_reclaimable r.requestId r.promptTokenIds hF
  set needed := bm.neededFresh r (bm.matchPrefix r.promptTokenIds)
  obtain ⟨t, vs, G, hrun, hev, -, -, -, hdone⟩ := hkeeps.evictTimes hF (needed - bm.numFreeBlocks)
  have hsum := hev.card_add
  rw [← a.tables]
  constructor
  · rintro ⟨res, hres⟩
    obtain ⟨hid, t', freed, hrun', hle, -⟩ := (bm.allocate_eq_ok_iff r res).mp hres
    cases hrun.symm.trans hrun'
    rw [List.length_map] at hle
    exact ⟨hid, by omega⟩
  · rintro ⟨hid, hle⟩
    refine ⟨_, (bm.allocate_eq_ok_iff r _).mpr ⟨hid, t, _, hrun, ?_, rfl⟩⟩
    rw [List.length_map]
    rcases hdone with h | ⟨h, hheld⟩
    · omega
    · -- nothing is left to evict, so everything that could be freed was
      have hall := hev.toFinset_eq hheld
      have := List.toFinset_card_of_nodup hall.1
      rw [hall.2] at this
      omega

/-- Evictions once the match is held: some unheld nodes are gone, and the holds on the match
are there. -/
theorem evictTimes_heldTree (a : Accounts bm stakes leak) (id : RequestId) (tokenIds : List Token)
    {times : ℕ} {t : RadixTrie} {freed : List BlockId}
    (hrun : (bm.heldTree tokenIds).evictTimes times = .ok (t, freed)) :
    ∃ vs, freed = (vs.map fun n => (bm.tree.node n).physicalBlockId) ∧
      (bm.evicted t freed).tree = t ∧ (bm.heldTree tokenIds).Pruned vs t ∧
      t.blockSize = bm.blockSize ∧
      (t.Keeps fun n =>
        leak n + holders ((id, (bm.tree.matchTokens tokenIds).nodes) :: stakes) n) ∧
      ∀ s ∈ (id, (bm.tree.matchTokens tokenIds).nodes) :: stakes,
        (∀ n ∈ s.2, n ∉ vs) ∧ t.IsPath s.2 := by
  have hshape := sameShape_heldTree bm tokenIds
  have hkeeps := a.keeps_heldTree id tokenIds
  obtain ⟨F, hF⟩ := hkeeps.toWellFormed.exists_shows
  obtain ⟨t', vs, G, hrun', hev, -, hpruned, hk, -⟩ := hkeeps.evictTimes hF times
  cases hrun.symm.trans hrun'
  have hpath : ∀ s ∈ (id, (bm.tree.matchTokens tokenIds).nodes) :: stakes,
      (bm.heldTree tokenIds).IsPath s.2 := by
    refine List.forall_mem_cons.mpr ⟨?_, fun s hs => hshape.isPath.mpr (a.path s hs)⟩
    exact hshape.isPath.mpr (a.wellFormed.matchTokens tokenIds).1
  have havoid : ∀ s ∈ (id, (bm.tree.matchTokens tokenIds).nodes) :: stakes,
      ∀ n ∈ s.2, n ∉ vs := by
    -- a node that was evicted is dead, and a held node is alive
    intro s hs n hn hmem
    have hpos : 0 < holders ((id, (bm.tree.matchTokens tokenIds).nodes) :: stakes) n :=
      List.count_pos_iff.mpr (List.mem_flatMap.mpr ⟨s, hs, hn⟩)
    have hlive := hk.live_of_held (n := n) (by omega)
    exact ((hpruned.live n).mp hlive).2 hmem
  refine ⟨vs, by simp only [hshape.physicalBlockId], ?_, hpruned, ?_, hk, fun s hs =>
    ⟨havoid s hs, hpruned.isPath_iff.mpr ⟨hpath s hs, havoid s hs⟩⟩⟩
  · refine BlockManager.tree_setTree fun h => ?_
    rw [BlockManager.heldTree_of_none h, BlockManager.tree_of_none h,
      BlockManager.evictTimes_empty] at hrun
    rw [BlockManager.tree_of_none h]
    exact (Prod.mk.inj (Except.ok.inj hrun)).1.symm
  · rw [hpruned.blockSize, hshape.blockSize, a.blockSize]

/-- What an allocation that returned did: the match is held, some unheld nodes are gone from
the trie, and the table is the match and then the top of the stack. -/
theorem allocate (a : Accounts bm stakes leak) (hr : r.cachedPrefixNodes = []) {r' : Request}
    (h : bm.allocate r (bm.matchPrefix r.promptTokenIds) = .ok (bm', r')) :
    ∃ t vs, r'.stake = (r.requestId, (bm.tree.matchTokens r.promptTokenIds).nodes) ∧
      r' = r.holding (bm.matchPrefix r.promptTokenIds) ∧
      bm' = (bm.evicted t (vs.map fun n => (bm.tree.node n).physicalBlockId)).handOut r.requestId
        ((bm.tree.matchTokens r.promptTokenIds).nodes.map fun n => (bm.tree.node n).physicalBlockId)
        (bm.neededFresh r (bm.matchPrefix r.promptTokenIds)) ∧
      bm.neededFresh r (bm.matchPrefix r.promptTokenIds) ≤ vs.length + bm.numFreeBlocks ∧
      bm'.tree = t ∧ (bm.heldTree r.promptTokenIds).Pruned vs t ∧
      (∀ s ∈ r'.stake :: stakes, ∀ n ∈ s.2, n ∉ vs) ∧ Accounts bm' (r'.stake :: stakes) leak := by
  obtain ⟨hid, t, freed, hrun, hle, hres⟩ := (bm.allocate_eq_ok_iff r _).mp h
  obtain ⟨rfl, rfl⟩ := Prod.mk.inj hres
  obtain ⟨vs, rfl, htree, hpruned, hbs, hk, hpath⟩ :=
    a.evictTimes_heldTree r.requestId r.promptTokenIds hrun
  have hstake : (r.holding (bm.matchPrefix r.promptTokenIds)).stake =
      (r.requestId, (bm.tree.matchTokens r.promptTokenIds).nodes) := by
    rw [Request.stake, Request.holding]
    simp only [bm.matchPrefix_nodes _ _ fun _ => hr]
  rw [hstake]
  refine ⟨t, vs, rfl, rfl, ?_, by simpa using hle, by rw [BlockManager.handOut_tree, htree],
    hpruned, fun s hs => (hpath s hs).1, ?_, fun id => ?_, ?_, fun s hs => ?_, ?_⟩
  · rw [BlockManager.matchedBlockIds_matchPrefix]
  · exact List.nodup_cons.mpr ⟨fun h => hid ((a.tables _).mpr h), a.ids_nodup⟩
  · show id ∈ bm.blockTables.set r.requestId _ ↔ _
    rw [Dict.mem_set, a.tables, List.map_cons, List.mem_cons]
  · rw [BlockManager.handOut_tree, htree]
    exact hk
  · rw [BlockManager.handOut_tree, htree]
    exact (hpath s hs).2
  · rw [BlockManager.handOut_tree, htree]
    exact hbs

/-- An allocation that found too little memory has evicted all the same, and it keeps its holds
on the match. -/
theorem outOfMemory (a : Accounts bm stakes leak) (tokenIds : List Token) {times : ℕ}
    {t : RadixTrie} {freed : List BlockId}
    (hrun : (bm.heldTree tokenIds).evictTimes times = .ok (t, freed)) :
    Accounts (bm.evicted t freed) stakes
      fun n => leak n + (bm.tree.matchTokens tokenIds).nodes.count n := by
  obtain ⟨vs, -, htree, hpruned, hbs, hk, hpath⟩ := a.evictTimes_heldTree 0 tokenIds hrun
  refine ⟨a.ids_nodup, a.tables, ?_, fun s hs => ?_, ?_⟩
  · rw [htree]
    refine hk.congr fun n => ?_
    rw [holders_cons]
    exact Nat.add_assoc ..
  · rw [htree]
    exact (hpath s (List.mem_cons_of_mem _ hs)).2
  · rw [htree]
    exact hbs

end Allocate

/-! ## Registration -/

/-- What a registration did: nothing, cut the held prefix to the computed blocks, or extend
it by nodes that were there and then by new ones. -/
theorem registration (a : Accounts bm (r.stake :: stakes) leak) (hcf : bm.ClashFree r)
    {r' : Request} (h : bm.insertComputedPrefix r = .ok (bm', r')) :
    (bm' = bm ∧ r' = r) ∨
    (bm.blockSize ≤ r.numComputedPrompt ∧
      r.numComputedPrompt / bm.blockSize ≤ r.cachedPrefixNodes.length ∧ bm' = bm ∧
      r' = { r with
        cachedPrefixNodes := r.cachedPrefixNodes.take (r.numComputedPrompt / bm.blockSize) }) ∨
    ∃ t old new, r' = { r with cachedPrefixNodes := r.cachedPrefixNodes ++ old ++ new } ∧
      bm' = bm.setTree t ∧ bm'.tree = t ∧
      bm.tree.Inserted r.promptTokenIds (bm.getBlockTable r) r.numComputedPrompt
        r.cachedPrefixNodes old new t ∧
      t.Keeps fun n => leak n + holders (r'.stake :: stakes) n := by
  unfold BlockManager.insertComputedPrefix at h
  split at h
  · cases h
    exact .inl ⟨rfl, rfl⟩
  · rename_i t hc
    have htree := BlockManager.tree_of_some hc
    have hbs := a.blockSize
    have hkeeps := a.keeps
    have hpath := a.path r.stake List.mem_cons_self
    rw [htree] at hbs hkeeps hpath
    dsimp only at h
    split at h
    · cases h
      exact .inl ⟨rfl, rfl⟩
    · rename_i hge
      obtain ⟨⟨t', nodes⟩, hins, hret⟩ := bind_eq_ok.mp h
      cases hret
      rcases hkeeps.insert hpath (Nat.min_le_right _ _) (hcf t hc) hins with
        ⟨hle, rfl, rfl⟩ | ⟨-, old, new, rfl, hi, hk⟩
      · refine .inr (.inl ⟨Nat.not_lt.mp hge, hbs ▸ hle, ?_, by rw [hbs]; rfl⟩)
        rw [← hc]
      · refine .inr (.inr ⟨t', old, new, rfl, ?_, ?_, htree ▸ hi, hk.congr fun n => ?_⟩)
        · exact (BlockManager.setTree_of_some hc t').symm
        · rfl
        · rw [holders_cons, holders_cons, List.append_assoc]
          simp only [Request.stake, List.count_append]
          omega

/-- A registration keeps the accounts; a prefix that it cuts short leaves its holds behind. -/
theorem insertComputedPrefix (a : Accounts bm (r.stake :: stakes) leak) (hcf : bm.ClashFree r)
    {r' : Request} (h : bm.insertComputedPrefix r = .ok (bm', r')) :
    ∃ leak', Accounts bm' (r'.stake :: stakes) leak' := by
  rcases a.registration hcf h with ⟨rfl, rfl⟩ | ⟨-, -, rfl, rfl⟩ |
    ⟨t, old, new, rfl, rfl, htree, hins, hk⟩
  · exact ⟨leak, a⟩
  · set k := r.numComputedPrompt / bm'.blockSize
    refine ⟨fun n => leak n + (r.cachedPrefixNodes.drop k).count n, a.ids_nodup, a.tables,
      a.keeps.congr fun n => ?_, ?_, a.blockSize⟩
    · have hsplit := congrArg (List.count n) (List.take_append_drop k r.cachedPrefixNodes)
      rw [List.count_append] at hsplit
      rw [holders_cons, holders_cons]
      simp only [Request.stake] at hsplit ⊢
      omega
    · refine List.forall_mem_cons.mpr ⟨?_, fun s hs => a.path s (List.mem_cons_of_mem _ hs)⟩
      exact RadixTrie.IsPath.take (a.path r.stake List.mem_cons_self) k
  · refine ⟨leak, a.ids_nodup, a.tables, by rw [htree]; exact hk, ?_, ?_⟩
    · rw [htree]
      refine List.forall_mem_cons.mpr ⟨hins.path, fun s hs => ?_⟩
      exact hins.grown.isPathFrom a.wellFormed (a.path s (List.mem_cons_of_mem _ hs))
    · rw [htree, hins.grown.blockSize, a.blockSize]
      rfl

end Accounts

/-! ## Moves -/

/-- One operation of the block manager on behalf of the requests it serves. -/
inductive BlockMove : BlockManager × List Stake → BlockManager × List Stake → Prop
  | perm {bm : BlockManager} {stakes stakes' : List Stake} (h : stakes.Perm stakes') :
      BlockMove (bm, stakes) (bm, stakes')
  | free {bm bm' : BlockManager} {stakes : List Stake} {r r' : Request}
      (h : bm.free r = .ok (bm', r')) : BlockMove (bm, r.stake :: stakes) (bm', stakes)
  | reserve {bm bm' : BlockManager} {stakes : List Stake} {r : Request} {chunk : ℤ}
      (hr : r.stake ∈ stakes) (hfit : Scheduler.fits bm r chunk = true)
      (h : Scheduler.reserve bm r chunk = .ok bm') : BlockMove (bm, stakes) (bm', stakes)
  | allocate {bm bm' : BlockManager} {stakes : List Stake} {r r' : Request}
      (hr : r.cachedPrefixNodes = [])
      (h : bm.allocate r (bm.matchPrefix r.promptTokenIds) = .ok (bm', r')) :
      BlockMove (bm, stakes) (bm', r'.stake :: stakes)

namespace BlockMove

/-- A move does not care who else is served. -/
theorem beside {x y : BlockManager × List Stake} (h : BlockMove x y) (others : List Stake) :
    BlockMove (x.1, x.2 ++ others) (y.1, y.2 ++ others) := by
  cases h with
  | perm h => exact .perm (h.append_right others)
  | free h => exact .free h
  | reserve hr hfit h => exact .reserve (List.mem_append_left others hr) hfit h
  | allocate hr h => exact .allocate hr h

theorem all_beside {x y : BlockManager × List Stake} (h : Relation.ReflTransGen BlockMove x y)
    (others : List Stake) :
    Relation.ReflTransGen BlockMove (x.1, x.2 ++ others) (y.1, y.2 ++ others) := by
  induction h with
  | refl => exact .refl
  | tail _ hm ih => exact ih.tail (hm.beside others)

end BlockMove

namespace Accounts
variable {leak : NodeId → ℕ}

theorem move {x y : BlockManager × List Stake} (h : BlockMove x y)
    (a : Accounts x.1 x.2 leak) : Accounts y.1 y.2 leak := by
  cases h with
  | perm h => exact a.perm h
  | free h =>
    obtain ⟨t, ht, -, -, ha⟩ := a.free
    cases ht.symm.trans h
    exact ha
  | reserve hr hfit h =>
    obtain ⟨ht, ha⟩ := a.reserve hr hfit
    cases ht.symm.trans h
    exact ha
  | allocate hr h =>
    obtain ⟨_, _, _, _, _, _, _, _, _, ha⟩ := a.allocate hr h
    exact ha

theorem moves {x y : BlockManager × List Stake} (h : Relation.ReflTransGen BlockMove x y)
    (a : Accounts x.1 x.2 leak) : Accounts y.1 y.2 leak := by
  induction h with
  | refl => exact a
  | tail _ hm ih => exact move hm ih

end Accounts

end LightServe
