import LightServe.Engine.Scheduler
import LightServe.PrefixCache.Eviction

/-!
# The block manager's operations

Each operation of the block manager as one equation about the free stack, the block tables
and the trie. A block manager without prefix caching is read as one whose trie is empty, so
that an operation has one equation, not two.

## Main definitions

* `BlockManager.tree` — the trie, an empty one when caching is off.
* `BlockManager.privates` — the blocks a request gives back.
* `BlockManager.growth` — the blocks that a chunk needs beyond the table.
-/

namespace LightServe

/-- A request that holds its match. -/
def Request.holding (r : Request) (m : Option PrefixMatch) : Request :=
  { r with cachedPrefixNodes := (m.map PrefixMatch.nodes).getD r.cachedPrefixNodes }

namespace BlockManager
variable {bm bm' : BlockManager} {r r' : Request}

/-- The trie; an empty one when caching is off. -/
def tree (bm : BlockManager) : RadixTrie :=
  bm.prefixCache.getD { blockSize := bm.blockSize, hashFn := fun _ _ => 0 }

/-- The same block manager with another trie, if it has one. -/
def setTree (bm : BlockManager) (t : RadixTrie) : BlockManager :=
  { bm with prefixCache := bm.prefixCache.map fun _ => t }

theorem tree_of_some {t : RadixTrie} (h : bm.prefixCache = some t) : bm.tree = t := by
  simp [tree, h]

theorem tree_of_none (h : bm.prefixCache = none) :
    bm.tree = { blockSize := bm.blockSize, hashFn := fun _ _ => 0 } := by
  simp [tree, h]

theorem tree_setTree {t : RadixTrie} (h : bm.prefixCache = none → t = bm.tree) :
    (bm.setTree t).tree = t := by
  cases hc : bm.prefixCache with
  | none => simp [setTree, tree, hc, h hc]
  | some u => simp [setTree, tree, hc]

@[simp] theorem setTree_freeBlockIds (bm : BlockManager) (t : RadixTrie) :
    (bm.setTree t).freeBlockIds = bm.freeBlockIds := rfl
@[simp] theorem setTree_blockTables (bm : BlockManager) (t : RadixTrie) :
    (bm.setTree t).blockTables = bm.blockTables := rfl
@[simp] theorem setTree_blockSize (bm : BlockManager) (t : RadixTrie) :
    (bm.setTree t).blockSize = bm.blockSize := rfl
@[simp] theorem setTree_isSome (bm : BlockManager) (t : RadixTrie) :
    (bm.setTree t).prefixCache.isSome = bm.prefixCache.isSome := by simp [setTree]

theorem setTree_of_some {t : RadixTrie} (h : bm.prefixCache = some t) (t' : RadixTrie) :
    bm.setTree t' = { bm with prefixCache := some t' } := by simp [setTree, h]

theorem setTree_of_none (h : bm.prefixCache = none) (t' : RadixTrie) : bm.setTree t' = bm := by
  obtain ⟨_, _, _, _, _, cache⟩ := bm
  cases h
  rfl

/-! ## Lookup -/

theorem tree_matchTokens_of_none (h : bm.prefixCache = none) (tokenIds : List Token) :
    (bm.tree.matchTokens tokenIds).nodes = [] := by
  rw [tree_of_none h]
  simp only [RadixTrie.matchTokens]
  cases wholeBlocks bm.blockSize tokenIds.length tokenIds <;> simp [RadixTrie.matchWalk]

theorem matchPrefix_nodes (bm : BlockManager) (tokenIds : List Token) (nodes : List NodeId)
    (h : bm.prefixCache = none → nodes = []) :
    ((bm.matchPrefix tokenIds).map PrefixMatch.nodes).getD nodes =
      (bm.tree.matchTokens tokenIds).nodes := by
  cases hc : bm.prefixCache with
  | none => simp [matchPrefix, hc, h hc, tree_matchTokens_of_none hc]
  | some t => simp [matchPrefix, hc, tree_of_some hc]

theorem matchedBlockIds_matchPrefix (bm : BlockManager) (tokenIds : List Token) :
    matchedBlockIds (bm.matchPrefix tokenIds) =
      (bm.tree.matchTokens tokenIds).nodes.map fun n => (bm.tree.node n).physicalBlockId := by
  cases hc : bm.prefixCache with
  | none => simp [matchPrefix, matchedBlockIds, hc, tree_matchTokens_of_none hc]
  | some t => simp [matchPrefix, matchedBlockIds, hc, tree_of_some hc, RadixTrie.matchTokens]

theorem numEvictable_eq (bm : BlockManager) : bm.numEvictable = bm.tree.numEvictableBlocks := by
  cases hc : bm.prefixCache with
  | none => simp [numEvictable, hc, tree, RadixTrie.numEvictableBlocks, Dict.values]
  | some t => simp [numEvictable, hc, tree]

/-! ## Eviction -/

theorem drainLoop_eq (bm : BlockManager) (t : RadixTrie) (missing : ℕ) :
    bm.drainLoop t missing = (t.evictTimes missing).map fun res =>
      { bm with prefixCache := some res.1, freeBlockIds := res.2.reverse ++ bm.freeBlockIds } := by
  induction missing generalizing bm t with
  | zero => rfl
  | succ missing ih =>
    rw [drainLoop, RadixTrie.evictTimes]
    cases h : t.evictOneLru with
    | error e => rfl
    | ok res =>
      obtain ⟨u, _ | b⟩ := res
      · rfl
      · simp only [ok_bind, ih]
        cases u.evictTimes missing with
        | error e => rfl
        | ok res => simp [Except.map, bind, Except.bind, pure, Except.pure]

theorem evictTimes_empty (blockSize : ℕ) (hashFn : Option BlockHash → List Token → BlockHash)
    (k : ℕ) : RadixTrie.evictTimes k { blockSize, hashFn } = .ok ({ blockSize, hashFn }, []) := by
  cases k <;> rfl

/-- Draining is repeated eviction, for as many blocks as are missing. -/
theorem drainEvictions_eq (bm : BlockManager) (numNeeded : ℕ) :
    bm.drainEvictions numNeeded =
      (bm.tree.evictTimes (numNeeded - bm.numFreeBlocks)).map fun res =>
        { bm.setTree res.1 with freeBlockIds := res.2.reverse ++ bm.freeBlockIds } := by
  cases hc : bm.prefixCache with
  | none =>
    rw [drainEvictions, hc, tree_of_none hc, evictTimes_empty]
    simp [Except.map, setTree_of_none hc]
  | some t =>
    rw [drainEvictions, hc, tree_of_some hc]
    simp only [drainLoop_eq]
    simp [setTree, hc]

/-! ## Allocation -/

/-- The trie once the match of `tokenIds` is held. -/
def heldTree (bm : BlockManager) (tokenIds : List Token) : RadixTrie :=
  match bm.prefixCache with
  | none => bm.tree
  | some t => t.acquire (t.matchTokens tokenIds) tokenIds.length

theorem heldTree_of_none (h : bm.prefixCache = none) (tokenIds : List Token) :
    bm.heldTree tokenIds = bm.tree := by
  simp [heldTree, h]

theorem acquireMatch_eq (bm : BlockManager) (r : Request) :
    bm.acquireMatch r (bm.matchPrefix r.promptTokenIds) =
      (bm.setTree (bm.heldTree r.promptTokenIds), r.holding (bm.matchPrefix r.promptTokenIds)) := by
  cases hc : bm.prefixCache with
  | none => simp [acquireMatch, hc, matchPrefix, setTree_of_none hc, Request.holding]
  | some t => simp [acquireMatch, hc, matchPrefix, heldTree, setTree_of_some hc, Request.holding]

/-- Pop `count` blocks for a request and append them to what its table starts with. -/
def handOut (bm : BlockManager) (id : RequestId) (table : List BlockId) (count : ℕ) :
    BlockManager :=
  { bm with
    freeBlockIds := bm.freeBlockIds.drop count
    blockTables := bm.blockTables.set id (table ++ bm.freeBlockIds.take count) }

@[simp] theorem handOut_tree (bm : BlockManager) (id : RequestId) (table : List BlockId)
    (count : ℕ) : (bm.handOut id table count).tree = bm.tree := rfl

/-- The block manager after an eviction run: its trie, and the freed blocks on the stack. -/
def evicted (bm : BlockManager) (t : RadixTrie) (freed : List BlockId) : BlockManager :=
  { bm.setTree t with freeBlockIds := freed.reverse ++ bm.freeBlockIds }

@[simp] theorem evicted_isSome (bm : BlockManager) (t : RadixTrie) (freed : List BlockId) :
    (bm.evicted t freed).prefixCache.isSome = bm.prefixCache.isSome := bm.setTree_isSome t

/-- `allocate` holds the match, evicts what is missing and hands out the rest. -/
theorem allocate_eq_ok_iff (bm : BlockManager) (r : Request) (res : BlockManager × Request) :
    bm.allocate r (bm.matchPrefix r.promptTokenIds) = .ok res ↔
      r.requestId ∉ bm.blockTables ∧ ∃ t freed,
        (bm.heldTree r.promptTokenIds).evictTimes
          (bm.neededFresh r (bm.matchPrefix r.promptTokenIds) - bm.numFreeBlocks) =
            .ok (t, freed) ∧
        bm.neededFresh r (bm.matchPrefix r.promptTokenIds) ≤ freed.length + bm.numFreeBlocks ∧
        res = ((bm.evicted t freed).handOut r.requestId
            (matchedBlockIds (bm.matchPrefix r.promptTokenIds))
            (bm.neededFresh r (bm.matchPrefix r.promptTokenIds)),
          r.holding (bm.matchPrefix r.promptTokenIds)) := by
  have htree : (bm.setTree (bm.heldTree r.promptTokenIds)).tree = bm.heldTree r.promptTokenIds :=
    tree_setTree fun h => heldTree_of_none h _
  have hset : ∀ t t', (bm.setTree t).setTree t' = bm.setTree t' := by
    intro t t'
    cases hc : bm.prefixCache <;> simp [setTree, hc]
  have hor : (bm.matchPrefix r.promptTokenIds).or (bm.matchPrefix r.promptTokenIds) =
      bm.matchPrefix r.promptTokenIds := by cases bm.matchPrefix r.promptTokenIds <;> rfl
  unfold allocate
  split
  · rename_i hmem
    exact ⟨fun h => (by cases h), fun h => absurd hmem h.1⟩
  · rename_i hmem
    simp only [hor, acquireMatch_eq, drainEvictions_eq, htree]
    set needed := bm.neededFresh r (bm.matchPrefix r.promptTokenIds) with hneeded
    constructor
    · intro h
      obtain ⟨bm₁, hdrain, hrest⟩ := bind_eq_ok.mp h
      split at hrest
      · cases hrest
      · rename_i hle
        cases hrest
        refine ⟨hmem, ?_⟩
        cases hev : (bm.heldTree r.promptTokenIds).evictTimes (needed - bm.numFreeBlocks) with
        | error e =>
          rw [show (bm.setTree (bm.heldTree r.promptTokenIds)).numFreeBlocks = bm.numFreeBlocks
            from rfl, hev] at hdrain
          cases hdrain
        | ok res =>
          rw [show (bm.setTree (bm.heldTree r.promptTokenIds)).numFreeBlocks = bm.numFreeBlocks
            from rfl, hev] at hdrain
          cases hdrain
          refine ⟨res.1, res.2, rfl, ?_, ?_⟩
          · simp only [numFreeBlocks, List.length_append, List.length_reverse,
              setTree_freeBlockIds] at hle ⊢
            omega
          · simp only [hset]
            rfl
    · rintro ⟨-, t, freed, hev, hle, rfl⟩
      rw [show (bm.setTree (bm.heldTree r.promptTokenIds)).numFreeBlocks = bm.numFreeBlocks
        from rfl, hev]
      simp only [Except.map, ok_bind, hset]
      rw [if_neg]
      · rfl
      · simp only [numFreeBlocks, List.length_append, List.length_reverse,
          setTree_freeBlockIds] at hle ⊢
        omega

/-! ## Teardown -/

/-- The blocks of a request's table that do not back a node it holds. -/
def privates (bm : BlockManager) (r : Request) : List BlockId :=
  privateBlocks bm.tree r (bm.getBlockTable r)

/-- The block manager after a request gave back its table. -/
def givenBack (bm : BlockManager) (r : Request) (t : RadixTrie) : BlockManager :=
  { bm.setTree t with
    freeBlockIds := (bm.privates r).reverse ++ bm.freeBlockIds
    blockTables := bm.blockTables.erase r.requestId }

/-- `free` gives back the private blocks and the holds. -/
theorem free_eq (hcache : bm.prefixCache = none → r.cachedPrefixNodes = [])
    (htable : r.requestId ∈ bm.blockTables) {t : RadixTrie}
    (hrelease : bm.tree.release r.cachedPrefixNodes = .ok t) :
    bm.free r = .ok (bm.givenBack r t, { r with cachedPrefixNodes := [] }) := by
  obtain ⟨table, ht⟩ := Option.isSome_iff_exists.mp (AList.lookup_isSome.mpr htable)
  have hget : bm.getBlockTable r = table := by simp [getBlockTable, ht]
  unfold free
  rw [ht]
  cases hc : bm.prefixCache with
  | none =>
    have hnil := hcache hc
    simp only [givenBack, privates, privateBlocks, hget, hnil, List.map_nil, List.not_mem_nil,
      not_false_eq_true, decide_true, List.filter_true, setTree_of_none hc]
    rw [← hnil]
    obtain ⟨_, _, _, _, _, cache⟩ := bm
    cases hc
    rfl
  | some u =>
    rw [tree_of_some hc] at hrelease
    simp only [hrelease, ok_bind]
    simp only [givenBack, privates, hget, tree_of_some hc, setTree_of_some hc]
    rfl

/-! ## Growth -/

/-- The blocks that a chunk needs beyond the request's table. -/
def growth (bm : BlockManager) (r : Request) (chunk : ℤ) : ℕ :=
  if Scheduler.isSpec r then
    bm.blocksFor (r.numComputedTokens + chunk).toNat - (bm.getBlockTable r).length
  else if bm.needsNewBlock r then 1 else 0

theorem fits_iff (bm : BlockManager) (r : Request) (chunk : ℤ) :
    Scheduler.fits bm r chunk = true ↔ bm.growth r chunk ≤ bm.numFreeBlocks := by
  unfold Scheduler.fits growth
  split
  · rw [canEnsureCapacity, decide_eq_true_eq]
    omega
  · unfold canAppendSlot
    split <;> simp

theorem growTable_eq (bm : BlockManager) (r : Request) (table : List BlockId) {count : ℕ}
    (h : count ≤ bm.numFreeBlocks) :
    bm.growTable r table count = .ok (bm.handOut r.requestId table count) := by
  induction count generalizing bm table with
  | zero => simp [growTable, handOut]
  | succ count ih =>
    cases hfree : bm.freeBlockIds with
    | nil => simp [numFreeBlocks, hfree] at h
    | cons b free =>
      have hle : count ≤ free.length := by
        rw [numFreeBlocks, hfree, List.length_cons] at h
        omega
      have hrest := ih { bm with freeBlockIds := free } (table ++ [b]) hle
      simp only [growTable, hfree, hrest]
      simp [handOut, hfree]

/-- A chunk that fits gets its blocks from the top of the free stack. -/
theorem reserve_eq (htable : r.requestId ∈ bm.blockTables) {chunk : ℤ}
    (h : bm.growth r chunk ≤ bm.numFreeBlocks) :
    Scheduler.reserve bm r chunk =
      .ok (bm.handOut r.requestId (bm.getBlockTable r) (bm.growth r chunk)) := by
  obtain ⟨table, ht⟩ := Option.isSome_iff_exists.mp (AList.lookup_isSome.mpr htable)
  have hget : bm.getBlockTable r = table := by simp [getBlockTable, ht]
  unfold Scheduler.reserve
  unfold growth at h ⊢
  split
  · rename_i hspec
    rw [if_pos hspec, hget] at h
    simp only [ensureCapacity, ht, hget]
    exact growTable_eq bm r table h
  · rename_i hspec
    rw [if_neg hspec] at h
    simp only [appendSlot, ht, hget]
    exact growTable_eq bm r table h

end BlockManager

end LightServe
