import LightServe.Model.KvCache

/-!
# The KV cache of a model

`PagedKVCache` of `model/kv_cache.py` with what the paged store leaves out: its layers, its
pool of blocks, the shape of its rows, and the transfer of a request's keys and values to
another cache. The rows themselves, one for the keys and one for the values of a position, stay
a parameter; of a quantised cache they are codes and scales, see `Int8KVCache`.

## Main definitions

* `PagedKVCache` — the store, with the shape of the model it serves.
* `KvTensor` — exported keys or values.
* `PagedKVCache.exportRequestKv`, `PagedKVCache.importRequestKv` — the transfer.
-/

namespace LightServe

/-- The floating point formats of a model. -/
inductive Dtype
  | float16
  | bfloat16
  | float32
  | float64
  deriving DecidableEq, Repr

/-- The store of one model. -/
structure PagedKVCache (η : Type) where
  nLayers : ℕ
  numGpuBlocks : ℕ
  numKvHeads : ℕ
  headDim : ℕ
  computeDtype : Dtype
  /-- Keys and values, layer by layer. -/
  store : KvCache (ℕ → η × η)

/-- A tensor of rows, one for each layer and position. -/
structure KvTensor (η : Type) where
  rows : List (List η)
  seqLen : ℕ
  numKvHeads : ℕ
  headDim : ℕ
  dtype : Dtype
  length_rows : ∀ layer ∈ rows, layer.length = seqLen

namespace KvTensor
variable {η : Type}

def nLayers (k : KvTensor η) : ℕ := k.rows.length

/-- The four dimensions of a tensor. -/
def shape (k : KvTensor η) : ℕ × ℕ × ℕ × ℕ := (k.nLayers, k.seqLen, k.numKvHeads, k.headDim)

/-- `torch.stack` of the rows of every layer: there has to be a layer, and all have to be of one
length. -/
def stack (rows : List (List η)) (seqLen numKvHeads headDim : ℕ) (dtype : Dtype) :
    Except EngineError (KvTensor η) :=
  if h : rows ≠ [] ∧ ∀ layer ∈ rows, layer.length = seqLen then
    .ok { rows, seqLen, numKvHeads, headDim, dtype, length_rows := h.2 }
  else .error .unstackable

theorem stack_eq_ok {rows : List (List η)} {seqLen numKvHeads headDim : ℕ} {dtype : Dtype}
    {k : KvTensor η} (h : stack rows seqLen numKvHeads headDim dtype = .ok k) :
    k.rows = rows ∧ k.shape = (rows.length, seqLen, numKvHeads, headDim) ∧ k.dtype = dtype := by
  unfold stack at h
  split at h
  · cases h
    exact ⟨rfl, rfl, rfl⟩
  · cases h

end KvTensor

namespace PagedKVCache
variable {η : Type}

/-- Slots that an indexed access finds: of one of the layers, and of blocks in the pool. -/
def Finds (c : PagedKVCache η) (layerIdx : ℕ) (locations : List (BlockId × ℕ)) : Prop :=
  layerIdx < c.nLayers ∧ ∀ l ∈ locations, l.1 < c.numGpuBlocks

instance (c : PagedKVCache η) (layerIdx : ℕ) (locations : List (BlockId × ℕ)) :
    Decidable (c.Finds layerIdx locations) := inferInstanceAs (Decidable (_ ∧ _))

/-- Scatter entries to one layer, at the positions from `start` on. -/
def write (c : PagedKVCache η) (layerIdx : ℕ) (table : List BlockId) (start : ℕ)
    (entries : List (η × η)) : Except EngineError (PagedKVCache η) := do
  let locations ← c.store.physicalLocations table start (start + entries.length)
  if ¬ c.Finds layerIdx locations then throw .indexOutOfRange
  let store ← c.store.writeLayer layerIdx table start entries
  return { c with store }

/-- Gather the entries of one layer at the first `seqLen` positions. -/
def read (c : PagedKVCache η) (layerIdx : ℕ) (table : List BlockId) (seqLen : ℕ) :
    Except EngineError (List (η × η)) := do
  let locations ← c.store.physicalLocations table 0 seqLen
  if ¬ c.Finds layerIdx locations then throw .indexOutOfRange
  (c.store.layer layerIdx).read table seqLen

/-- The loop of `export_request_kv`, over the layers that are left. -/
def exportLoop (c : PagedKVCache η) (table : List BlockId) (seqLen : ℕ) :
    List ℕ → Except EngineError (List (List η) × List (List η))
  | [] => .ok ([], [])
  | layerIdx :: layers => do
    let entries ← c.read layerIdx table seqLen
    let (ks, vs) ← c.exportLoop table seqLen layers
    return (entries.map Prod.fst :: ks, entries.map Prod.snd :: vs)

/-- A request's first `seqLen` keys and values, across every layer. -/
def exportRequestKv (c : PagedKVCache η) (table : List BlockId) (seqLen : ℕ) :
    Except EngineError (KvTensor η × KvTensor η) := do
  let (ks, vs) ← c.exportLoop table seqLen (List.range c.nLayers)
  let k ← KvTensor.stack ks seqLen c.numKvHeads c.headDim c.computeDtype
  let v ← KvTensor.stack vs seqLen c.numKvHeads c.headDim c.computeDtype
  return (k, v)

/-- The loop of `import_request_kv`, from layer `layerIdx` on. -/
def importLoop (table : List BlockId) (layerIdx : ℕ) :
    List (List η × List η) → PagedKVCache η → Except EngineError (PagedKVCache η)
  | [], c => .ok c
  | (k, v) :: layers, c => do
    let c ← c.write layerIdx table 0 (k.zip v)
    importLoop table (layerIdx + 1) layers c

/-- Scatter exported keys and values to a request's own blocks, once their shape and their
format are found to be this cache's. Nothing is asserted about the format of the values; the
assignment of a layer needs it to be the cache's. -/
def importRequestKv (c : PagedKVCache η) (table : List BlockId) (k v : KvTensor η) :
    Except EngineError (PagedKVCache η) :=
  if k.shape ≠ v.shape then .error .kvMismatch
  else if (k.nLayers, k.numKvHeads, k.headDim) ≠ (c.nLayers, c.numKvHeads, c.headDim) then
    .error .kvMismatch
  else if k.dtype ≠ c.computeDtype then .error .kvMismatch
  else if k.rows ≠ [] ∧ v.dtype ≠ c.computeDtype then .error .kvMismatch
  else importLoop table 0 (k.rows.zip v.rows) c

end PagedKVCache

end LightServe
