import LightServe.Engine.Request
import LightServe.Lib.Dict
import Mathlib.Data.List.MinMax
import Mathlib.Logic.Function.Basic

/-!
# The prefix cache

The radix trie of `engine/prefix_cache.py`. Trie nodes are mutable objects shared between
the trie and the requests that hold them, so they live in a heap and are named by `NodeId`;
`children`, `_roots` and `_by_hash` map a block hash to such a name. The hash function is a
field, as in the source, and nothing is assumed about it: a reference stays what it is when
two blocks hash alike, and `_by_hash` then keeps the last one registered.

## Main definitions

* `RadixTrie.matchTokens` — how much of a token list is cached.
* `RadixTrie.acquire`, `RadixTrie.release`, `RadixTrie.insert` — holds on cached blocks.
* `RadixTrie.evictOneLru` — reclaim one unheld leaf.
-/

namespace LightServe

/-- A block hash; hashes are only compared. -/
abbrev BlockHash := ℕ

/-- The exceptions of the engine, with the values their messages carry. -/
inductive EngineError
  /-- `OutOfMemoryError`: a request needs more blocks than are free. -/
  | outOfMemory (request : RequestId) (needed free : ℕ)
  /-- `ValueError`: the request already has a block table. -/
  | alreadyAllocated (request : RequestId)
  /-- `ValueError`: the request has no block table. -/
  | notAllocated (request : RequestId)
  /-- `ValueError`: `release` on a block nobody holds. -/
  | releasedUnheld (block : BlockHash)
  /-- `ValueError`: duplicate request id. -/
  | duplicateRequestId (request : RequestId)
  /-- `KeyError`: a hash that a dictionary of the trie does not have. -/
  | missingKey (hash : BlockHash)
  /-- `KeyError`: a request id that the dictionary of requests does not have. -/
  | unknownRequest
  /-- `IndexError`: a list or a row is shorter than the index asked for. -/
  | indexOutOfRange
  /-- `AssertionError`: scheduled and draft token counts disagree. -/
  | draftMismatch (request : RequestId) (scheduled drafts : ℕ)
  /-- `ValueError`: a position past the rotary table. -/
  | exceedsModelLen (position maxModelLen : ℕ)
  /-- `AssertionError`: queries, keys and values of different lengths. -/
  | shapeMismatch (q k v : ℕ)
  /-- `RuntimeError`: a stack of no tensors, or of tensors of different sizes. -/
  | unstackable
  /-- `AssertionError`, or the `RuntimeError` of an assignment between formats: transferred keys
  and values do not fit the cache. -/
  | kvMismatch
  deriving DecidableEq, Repr

/-- One cached block of tokens. -/
structure TrieNode where
  blockHash : BlockHash
  /-- Hash of the parent block; `none` is the source's `ROOT_HASH`. -/
  parentHash : Option BlockHash
  tokenIds : List Token
  physicalBlockId : BlockId
  /-- How many requests rely on this block. -/
  refCount : ℕ := 0
  children : Dict BlockHash NodeId := ∅
  /-- Clock value of the last touch. -/
  lastUsed : ℕ := 0

instance : Inhabited TrieNode := ⟨⟨0, none, [], 0, 0, ∅, 0⟩⟩

/-- What a lookup found: the blocks to reuse and how many tokens they cover. -/
structure PrefixMatch where
  physicalBlockIds : List BlockId
  numMatchedTokens : ℕ
  nodes : List NodeId
  deriving DecidableEq, Repr

/-- The trie, its node heap, its clock and its hit counters. -/
structure RadixTrie where
  blockSize : ℕ
  hashFn : Option BlockHash → List Token → BlockHash
  /-- The node objects; ids from `next` on are not allocated yet. -/
  node : NodeId → TrieNode := fun _ => default
  next : NodeId := 0
  roots : Dict BlockHash NodeId := ∅
  byHash : Dict BlockHash NodeId := ∅
  clock : ℕ := 0
  numLookupTokens : ℕ := 0
  numHitTokens : ℕ := 0
  numLookups : ℕ := 0
  numHits : ℕ := 0

/-- The whole blocks among the first `n` tokens, in order. -/
def wholeBlocks (blockSize n : ℕ) (tokenIds : List Token) : List (List Token) :=
  (List.range (n / blockSize)).map fun i => (tokenIds.drop (i * blockSize)).take blockSize

namespace RadixTrie

/-- Mutate one node object. -/
def modify (t : RadixTrie) (n : NodeId) (f : TrieNode → TrieNode) : RadixTrie :=
  { t with node := Function.update t.node n (f (t.node n)) }

/-! ## Lookup -/

/-- The walk of `match`: follow the children of `level` block by block, and stop at a
missing hash or at a hash whose tokens differ. -/
def matchWalk (t : RadixTrie) :
    Option BlockHash → Dict BlockHash NodeId → List (List Token) → List NodeId
  | _, _, [] => []
  | parentHash, level, block :: blocks =>
    let h := t.hashFn parentHash block
    match level.lookup h with
    | none => []
    | some n =>
      if (t.node n).tokenIds = block then n :: matchWalk t (some h) (t.node n).children blocks
      else []

/-- How much of `tokenIds` is cached. Nothing changes. -/
def matchTokens (t : RadixTrie) (tokenIds : List Token) : PrefixMatch :=
  let nodes := t.matchWalk none t.roots (wholeBlocks t.blockSize tokenIds.length tokenIds)
  { physicalBlockIds := nodes.map fun n => (t.node n).physicalBlockId
    numMatchedTokens := nodes.length * t.blockSize
    nodes }

/-- One more hold on a node, touched now. -/
def hold (t : RadixTrie) (n : NodeId) : RadixTrie :=
  t.modify n fun node => { node with refCount := node.refCount + 1, lastUsed := t.clock }

/-- Commit to a match: hold every node of it and record the lookup. -/
def acquire (t : RadixTrie) (m : PrefixMatch) (numLookupTokens : ℕ) : RadixTrie :=
  let t := { t with clock := t.clock + 1 }
  let t := m.nodes.foldl hold t
  { t with
    numLookups := t.numLookups + 1
    numLookupTokens := t.numLookupTokens + numLookupTokens
    numHits := if m.nodes = [] then t.numHits else t.numHits + 1
    numHitTokens := if m.nodes = [] then t.numHitTokens else t.numHitTokens + m.numMatchedTokens }

/-- Give back one hold on each node. -/
def release (t : RadixTrie) : List NodeId → Except EngineError RadixTrie
  | [] => .ok t
  | n :: nodes =>
    if (t.node n).refCount = 0 then .error (.releasedUnheld (t.node n).blockHash)
    else (t.modify n fun node => { node with refCount := node.refCount - 1 }).release nodes

/-! ## Insertion -/

/-- `level[h] = n`, where `level` is the children of `parent` or the roots. -/
def setChild (t : RadixTrie) (parent : Option NodeId) (h : BlockHash) (n : NodeId) : RadixTrie :=
  match parent with
  | none => { t with roots := t.roots.set h n }
  | some p => t.modify p fun node => { node with children := node.children.set h n }

/-- The dictionary that `parent`'s children are kept in. -/
def level (t : RadixTrie) : Option NodeId → Dict BlockHash NodeId
  | none => t.roots
  | some p => (t.node p).children

/-- Register a fresh node for `block` under `parent`, backed by `physicalBlockId`. -/
def newNode (t : RadixTrie) (parentHash : Option BlockHash) (parent : Option NodeId)
    (h : BlockHash) (block : List Token) (physicalBlockId : BlockId) : RadixTrie :=
  let t' := { t with
    node := Function.update t.node t.next
      { blockHash := h, parentHash, tokenIds := block, physicalBlockId, lastUsed := t.clock }
    next := t.next + 1 }
  let t' := t'.setChild parent h t.next
  { t' with byHash := t'.byHash.set h t.next }

/-- The walk of `insert` from `parent`: hold what is there, register what is missing, and
stop at a hash whose tokens differ. A missing node takes the physical block of its index. -/
def insertWalk (t : RadixTrie) (parentHash : Option BlockHash) (parent : Option NodeId) :
    List (List Token × Option BlockId) → Except EngineError (RadixTrie × List NodeId)
  | [] => .ok (t, [])
  | (block, physicalBlockId) :: blocks =>
    let h := t.hashFn parentHash block
    match (t.level parent).lookup h with
    | some n =>
      if (t.node n).tokenIds = block then do
        let (t, nodes) ← (t.hold n).insertWalk (some h) (some n) blocks
        return (t, n :: nodes)
      else .ok (t, [])
    | none =>
      match physicalBlockId with
      | none => .error .indexOutOfRange
      | some b => do
        let n := t.next
        let (t, nodes) ← ((t.newNode parentHash parent h block b).hold n).insertWalk
          (some h) (some n) blocks
        return (t, n :: nodes)

/-- The blocks that `insert` walks, each with the physical block of its index. -/
def insertBlocks (t : RadixTrie) (tokenIds : List Token) (physicalBlockIds : List BlockId)
    (numComputedTokens : ℕ) (knownPrefix : List NodeId) : List (List Token × Option BlockId) :=
  let blocks := wholeBlocks t.blockSize numComputedTokens tokenIds
  (blocks.mapIdx fun i block => (block, physicalBlockIds[i]?)).drop knownPrefix.length

/-- Register computed blocks beyond `knownPrefix`. When nothing new was computed the
caller gets its own prefix back, cut to the computed blocks. -/
def insert (t : RadixTrie) (tokenIds : List Token) (physicalBlockIds : List BlockId)
    (numComputedTokens : ℕ) (knownPrefix : List NodeId) :
    Except EngineError (RadixTrie × List NodeId) :=
  let nBlocks := numComputedTokens / t.blockSize
  if nBlocks ≤ knownPrefix.length then .ok (t, knownPrefix.take nBlocks)
  else do
    let t := { t with clock := t.clock + 1 }
    let parent := knownPrefix.getLast?
    let (t, nodes) ← t.insertWalk (parent.map fun n => (t.node n).blockHash) parent
      (t.insertBlocks tokenIds physicalBlockIds numComputedTokens knownPrefix)
    return (t, knownPrefix ++ nodes)

/-! ## Eviction -/

/-- Whether a node can be reclaimed now: nobody holds it and nothing hangs below it. -/
def isEvictable (t : RadixTrie) (n : NodeId) : Bool :=
  (t.node n).refCount = 0 && (t.node n).children.entries.isEmpty

def numEvictableBlocks (t : RadixTrie) : ℕ := t.byHash.values.countP t.isEvictable

/-- Delete a node from the dictionary of its parent's hash and from `_by_hash`. -/
def remove (t : RadixTrie) (n : NodeId) : Except EngineError RadixTrie := do
  let h := (t.node n).blockHash
  let t ← match (t.node n).parentHash with
    | none =>
      if h ∈ t.roots then .ok { t with roots := t.roots.erase h } else .error (.missingKey h)
    | some parentHash =>
      match t.byHash.lookup parentHash with
      | none => .error (.missingKey parentHash)
      | some p =>
        if h ∈ (t.node p).children then
          .ok (t.modify p fun node => { node with children := node.children.erase h })
        else .error (.missingKey h)
  if h ∈ t.byHash then .ok { t with byHash := t.byHash.erase h } else .error (.missingKey h)

/-- The first candidate with the least `lastUsed`. -/
def leastRecentlyUsed (t : RadixTrie) (candidates : List NodeId) : Option NodeId :=
  candidates.argmin fun n => (t.node n).lastUsed

/-- Reclaim the least recently used evictable block, or nothing. -/
def evictOneLru (t : RadixTrie) : Except EngineError (RadixTrie × Option BlockId) := do
  match t.leastRecentlyUsed (t.byHash.values.filter t.isEvictable) with
  | none => return (t, none)
  | some victim => return (← t.remove victim, some (t.node victim).physicalBlockId)

end RadixTrie

end LightServe
