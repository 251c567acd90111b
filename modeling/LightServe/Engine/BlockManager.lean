import LightServe.Engine.Config
import LightServe.Engine.PrefixCache

/-!
# The block manager

The paged KV-cache allocator of `engine/block_manager.py`. It tracks which block ids are
free, which request's table holds which blocks, and, when prefix caching is on, the trie
that owns the shared ones. The free stack is kept top first: the head of `freeBlockIds` is
the last element of the source's list.
-/

namespace LightServe

structure BlockManager where
  blockSize : ℕ
  numGpuBlocks : ℕ
  watermarkBlocks : ℕ
  /-- Stack of free block ids, its top at the head. -/
  freeBlockIds : List BlockId
  /-- Request id to its physical blocks, in logical order. -/
  blockTables : Dict RequestId (List BlockId)
  /-- The trie; `none` when prefix caching is disabled. -/
  prefixCache : Option RadixTrie

namespace BlockManager

/-- A fresh pool: every block free, no table, an empty trie if caching is on. -/
def new (c : CacheConfig) (hashFn : Option BlockHash → List Token → BlockHash) : BlockManager where
  blockSize := c.blockSize
  numGpuBlocks := c.numGpuBlocks
  watermarkBlocks := c.watermarkBlocks
  freeBlockIds := (List.range c.numGpuBlocks).reverse
  blockTables := ∅
  prefixCache := if c.enablePrefixCaching then some { blockSize := c.blockSize, hashFn } else none

def numFreeBlocks (bm : BlockManager) : ℕ := bm.freeBlockIds.length

def getBlockTable (bm : BlockManager) (r : Request) : List BlockId :=
  (bm.blockTables.lookup r.requestId).getD []

/-! ## Admission -/

/-- How much of `tokenIds` is cached; `none` when caching is disabled. -/
def matchPrefix (bm : BlockManager) (tokenIds : List Token) : Option PrefixMatch :=
  bm.prefixCache.map fun t => t.matchTokens tokenIds

/-- Matched blocks, none without a match. -/
def matchedBlockIds (m : Option PrefixMatch) : List BlockId :=
  (m.map PrefixMatch.physicalBlockIds).getD []

/-- Fresh blocks a request needs beyond its match. -/
def neededFresh (bm : BlockManager) (r : Request) (m : Option PrefixMatch) : ℕ :=
  r.numBlocksNeeded bm.blockSize - (matchedBlockIds m).length

/-- Cached blocks that count as available. -/
def numEvictable (bm : BlockManager) : ℕ :=
  (bm.prefixCache.map RadixTrie.numEvictableBlocks).getD 0

/-- Whether a new request may be admitted: the watermark must survive its fresh blocks. -/
def canAllocate (bm : BlockManager) (r : Request) (m : Option PrefixMatch) : Bool :=
  ((bm.numFreeBlocks + bm.numEvictable : ℕ) : ℤ) - bm.neededFresh r m ≥ bm.watermarkBlocks

/-- Evict until `numNeeded` blocks are free or nothing more can be evicted. One eviction
frees one block, so the recursion is on the number of blocks still missing. -/
def drainLoop (bm : BlockManager) (t : RadixTrie) : ℕ → Except EngineError BlockManager
  | 0 => .ok { bm with prefixCache := some t }
  | missing + 1 => do
    match ← t.evictOneLru with
    | (t, none) => return { bm with prefixCache := some t }
    | (t, some freed) => drainLoop { bm with freeBlockIds := freed :: bm.freeBlockIds } t missing

def drainEvictions (bm : BlockManager) (numNeeded : ℕ) : Except EngineError BlockManager :=
  match bm.prefixCache with
  | none => .ok bm
  | some t => bm.drainLoop t (numNeeded - bm.numFreeBlocks)

/-- Hold the match on the request's behalf. -/
def acquireMatch (bm : BlockManager) (r : Request) (m : Option PrefixMatch) :
    BlockManager × Request :=
  match bm.prefixCache, m with
  | some t, some m =>
    ({ bm with prefixCache := some (t.acquire m r.promptTokenIds.length) },
      { r with cachedPrefixNodes := m.nodes })
  | _, _ => (bm, r)

/-- Reserve a whole block table: the matched blocks, then fresh ones. The match is held
before anything is evicted. -/
def allocate (bm : BlockManager) (r : Request) (m : Option PrefixMatch) :
    Except EngineError (BlockManager × Request) := do
  if r.requestId ∈ bm.blockTables then throw (.alreadyAllocated r.requestId)
  let m := m.or (bm.matchPrefix r.promptTokenIds)
  let needed := bm.neededFresh r m
  let (bm, r) := bm.acquireMatch r m
  let bm ← bm.drainEvictions needed
  if bm.numFreeBlocks < needed then
    throw (.outOfMemory r.requestId needed bm.numFreeBlocks)
  let table := matchedBlockIds m ++ bm.freeBlockIds.take needed
  return ({ bm with
    freeBlockIds := bm.freeBlockIds.drop needed
    blockTables := bm.blockTables.set r.requestId table }, r)

/-- Register what has been computed of the request's prompt. -/
def insertComputedPrefix (bm : BlockManager) (r : Request) :
    Except EngineError (BlockManager × Request) :=
  match bm.prefixCache with
  | none => .ok (bm, r)
  | some t =>
    let numComputed := min r.numComputedTokens r.promptTokenIds.length
    if numComputed < bm.blockSize then .ok (bm, r)
    else do
      let (t, nodes) ← t.insert r.promptTokenIds (bm.getBlockTable r) numComputed
        r.cachedPrefixNodes
      return ({ bm with prefixCache := some t }, { r with cachedPrefixNodes := nodes })

/-! ## Growth -/

/-- Whether the request's tokens exceed its table's capacity. -/
def needsNewBlock (bm : BlockManager) (r : Request) : Bool :=
  r.getLen > (bm.getBlockTable r).length * bm.blockSize

def canAppendSlot (bm : BlockManager) (r : Request) : Bool :=
  if bm.needsNewBlock r then bm.numFreeBlocks ≥ 1 else true

/-- Append popped blocks to a table until `count` more are there. -/
def growTable (bm : BlockManager) (r : Request) (table : List BlockId) :
    ℕ → Except EngineError BlockManager
  | 0 => .ok { bm with blockTables := bm.blockTables.set r.requestId table }
  | count + 1 =>
    match bm.freeBlockIds with
    | [] => .error (.outOfMemory r.requestId (count + 1) 0)
    | b :: free => growTable { bm with freeBlockIds := free } r (table ++ [b]) count

/-- Reserve a block for the newest token if the last block is full. -/
def appendSlot (bm : BlockManager) (r : Request) : Except EngineError BlockManager :=
  match bm.blockTables.lookup r.requestId with
  | none => .error (.notAllocated r.requestId)
  | some table => bm.growTable r table (if bm.needsNewBlock r then 1 else 0)

/-- Blocks that cover `targetLen` tokens. -/
def blocksFor (bm : BlockManager) (targetLen : ℕ) : ℕ :=
  (targetLen + bm.blockSize - 1) / bm.blockSize

def canEnsureCapacity (bm : BlockManager) (r : Request) (targetLen : ℕ) : Bool :=
  ((bm.blocksFor targetLen : ℕ) : ℤ) - (bm.getBlockTable r).length ≤ bm.numFreeBlocks

/-- `appendSlot` generalised to an explicit target length. -/
def ensureCapacity (bm : BlockManager) (r : Request) (targetLen : ℕ) :
    Except EngineError BlockManager :=
  match bm.blockTables.lookup r.requestId with
  | none => .error (.notAllocated r.requestId)
  | some table => bm.growTable r table (bm.blocksFor targetLen - table.length)

/-! ## Teardown -/

/-- The blocks of a table that the request owns privately: those not backing a node it
holds. -/
def privateBlocks (t : RadixTrie) (r : Request) (table : List BlockId) : List BlockId :=
  table.filter fun b => b ∉ r.cachedPrefixNodes.map fun n => (t.node n).physicalBlockId

/-- Return the private blocks to the pool and give back the holds; nothing happens to a
request without a table. -/
def free (bm : BlockManager) (r : Request) : Except EngineError (BlockManager × Request) :=
  match bm.blockTables.lookup r.requestId with
  | none => .ok (bm, r)
  | some table =>
    let bm := { bm with blockTables := bm.blockTables.erase r.requestId }
    match bm.prefixCache with
    | none => .ok ({ bm with freeBlockIds := table.reverse ++ bm.freeBlockIds }, r)
    | some t => do
      let table := privateBlocks t r table
      let t ← t.release r.cachedPrefixNodes
      return ({ bm with
        prefixCache := some t
        freeBlockIds := table.reverse ++ bm.freeBlockIds }, { r with cachedPrefixNodes := [] })

end BlockManager

end LightServe
