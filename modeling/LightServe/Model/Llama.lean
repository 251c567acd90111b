import LightServe.Lib.Layers
import LightServe.Model.KvCache
import LightServe.Model.ModelRunner

/-!
# The Llama forward passes

The two forward passes of `model/minimal_llama.py` and `model/model_runner.py`. The first reads a
whole sequence at once; the second reads the flat batch of a step and keeps keys and values in the
paged cache. Both run the same layers on the same kernels. What a layer does to one row is a
parameter: norms, projections, the rotation of a head by its position, and the attention of a query
to a list of keys and values. A row of `q`, `k` or `v` is the list of its heads.

## Main definitions

* `Llama.flashAttentionForward` — the kernel, with the key tiles that its programs visit.
* `Llama.llamaForward` — the dense pass.
* `Llama.attention` — `_attention`, over the paged cache.
* `Llama.forward` — the pass over the flat batch of a step.
-/

namespace LightServe

/-- What one decoder layer does to a row. -/
structure LlamaLayer (ρ η : Type) where
  /-- `fused_add_rmsnorm` before attention: the normed row and the new residual. -/
  inputLayernorm : ρ → ρ → ρ × ρ
  qProj : ρ → List η
  kProj : ρ → List η
  vProj : ρ → List η
  oProj : List η → ρ
  /-- `fused_add_rmsnorm` before the MLP. -/
  postAttentionLayernorm : ρ → ρ → ρ × ρ
  /-- The gated MLP. -/
  mlp : ρ → ρ

/-- A Llama over hidden rows `ρ` and heads `η`. -/
structure Llama (ρ η : Type) where
  embedTokens : Token → ρ
  /-- A row of `zeros_like`. -/
  zeros : ρ
  layers : List (LlamaLayer ρ η)
  /-- The rotation of a head at an absolute position. -/
  rope : ℕ → η → η
  /-- A padding row of queries. -/
  zeroQuery : List η
  /-- What `empty_like` leaves in a row. -/
  emptyRow : List η
  /-- Query heads to a key head. -/
  nRep : ℕ := 1
  /-- The output of a query over keys and values, in the order of their positions. -/
  attend : List η → List (List η × List η) → List η
  /-- The tile sizes that the kernel is tuned to for a length. -/
  blockM : ℕ → ℕ
  blockN : ℕ → ℕ
  blockM_pos : ∀ n, 0 < blockM n
  blockN_pos : ∀ n, 0 < blockN n
  /-- The last `fused_add_rmsnorm`. -/
  norm : ρ → ρ → ρ × ρ
  /-- The head of the model and the argmax of its logits. -/
  sample : ρ → Token
  maxModelLen : Option ℕ := none
  vocabSize : Option ℕ := none

/-- The keys that the kernel keeps for a query row among `n`: those that its program visits, tile
by tile up to the end of the row's own tile, and that the causal mask admits. -/
def visibleKeys (blockM blockN n row : ℕ) : List ℕ :=
  let hi := min n ((row / blockM + 1) * blockM)
  (List.range ((hi + blockN - 1) / blockN)).flatMap fun tile =>
    (List.range' (tile * blockN) blockN).filter fun key => key < n ∧ key ≤ row

/-- Every key head as often as it has query heads. -/
def repeatKv {η : Type} (nRep : ℕ) (rows : List (List η)) : List (List η) :=
  rows.map fun heads => heads.flatMap (List.replicate nRep)

/-- Rows `start` to `stop` of a tensor. -/
def rowSlice {α : Type} (rows : List α) (start stop : ℕ) : List α := (rows.take stop).drop start

/-- Assign rows `start` to `stop` of a tensor. -/
def setRows {α : Type} (rows : List α) (start stop : ℕ) (new : List α) : List α :=
  rows.take start ++ new ++ rows.drop stop

namespace Llama
variable {ρ η : Type} (m : Llama ρ η)

/-- A cache of keys and values, layer by layer. -/
abbrev Cache (η : Type) := KvCache (ℕ → List η × List η)

/-- `flash_attention_forward` with `causal=True`, on rows of all heads. -/
def flashAttentionForward (q k v : List (List η)) : Except EngineError (List (List η)) :=
  let n := q.length
  if k.length = n ∧ v.length = n then
    .ok (q.mapIdx fun row query => m.attend query
      ((visibleKeys (m.blockM n) (m.blockN n) n row).filterMap fun key => (k.zip v)[key]?))
  else .error (.shapeMismatch n k.length v.length)

/-! ## The layers -/

/-- A norm of every row with its residual. -/
def fusedAddRmsnorm (norm : ρ → ρ → ρ × ρ) (x residual : List ρ) : List ρ × List ρ :=
  (List.zipWith norm x residual).unzip

/-- Rotate every head of a row by the row's position. -/
def applyRope (positions : List ℕ) (rows : List (List η)) : List (List η) :=
  List.zipWith (fun p heads => heads.map (m.rope p)) positions rows

/-- A layer after attention. -/
def mlpBlock (layer : LlamaLayer ρ η) (attnOut : List (List η)) (residual : List ρ) :
    List ρ × List ρ :=
  let (normed, residual) :=
    fusedAddRmsnorm layer.postAttentionLayernorm (attnOut.map layer.oProj) residual
  (normed.map layer.mlp, residual)

/-- The input of the first layer: zeros, and the embeddings as the residual. -/
def embed (inputIds : List Token) : List ρ × List ρ :=
  (inputIds.map fun _ => m.zeros, inputIds.map m.embedTokens)

/-- The hidden rows that `lm_head` reads. -/
def finalNorm (x residual : List ρ) : List ρ := (fusedAddRmsnorm m.norm x residual).1

/-! ## The dense pass -/

def denseLayer (layer : LlamaLayer ρ η) (x residual : List ρ) :
    Except EngineError (List ρ × List ρ) := do
  let (normed, residual) := fusedAddRmsnorm layer.inputLayernorm x residual
  let positions := List.range normed.length
  let q := m.applyRope positions (normed.map layer.qProj)
  let k := m.applyRope positions (normed.map layer.kProj)
  let v := normed.map layer.vProj
  let attnOut ← m.flashAttentionForward q (repeatKv m.nRep k) (repeatKv m.nRep v)
  return mlpBlock layer attnOut residual

def denseLayers : List (LlamaLayer ρ η) → List ρ → List ρ → Except EngineError (List ρ × List ρ)
  | [], x, residual => .ok (x, residual)
  | layer :: layers, x, residual => do
    let (x, residual) ← m.denseLayer layer x residual
    denseLayers layers x residual

/-- `llama_forward` on one sequence, up to the rows that `lm_head` reads. -/
def llamaForward (inputIds : List Token) : Except EngineError (List ρ) := do
  let (x, residual) := m.embed inputIds
  let (x, residual) ← m.denseLayers m.layers x residual
  return m.finalNorm x residual

/-- Greedy decoding by the dense pass: the sample of the last row. -/
def nextToken (ts : List Token) : Token :=
  match m.llamaForward ts with
  | .error _ => 0
  | .ok rows => (rows.getLast?.map m.sample).getD 0

/-- The model as `execute_model` sees it. -/
def toModelRunner : ModelRunner where
  next := m.nextToken
  maxModelLen := m.maxModelLen
  vocabSize := m.vocabSize

/-! ## The flat pass -/

/-- Queries padded in front to the length of the keys. -/
def padQuery (n : ℕ) (q : List (List η)) : List (List η) :=
  if q.length < n then List.replicate (n - q.length) m.zeroQuery ++ q else q

/-- `_attention`: request after request, write the rows' keys and values, read all of the
request's, and keep the last rows of what the kernel returns. -/
def attention (layerIdx : ℕ) (tables : Request → List BlockId) (q k v : List (List η)) :
    List FlatRange → Cache η → List (List η) → Except EngineError (Cache η × List (List η))
  | [], kv, attnOut => .ok (kv, attnOut)
  | f :: ranges, kv, attnOut =>
    let L := f.flatEnd - f.flatStart
    if L = 0 then attention layerIdx tables q k v ranges kv attnOut
    else do
      let table := tables f.request
      let kv ← kv.writeLayer layerIdx table f.seqStart
        ((rowSlice k f.flatStart f.flatEnd).zip (rowSlice v f.flatStart f.flatEnd))
      let full ← (kv.layer layerIdx).read table f.seqEnd
      let qFull := m.padQuery f.seqEnd (rowSlice q f.flatStart f.flatEnd)
      let out ← m.flashAttentionForward qFull (repeatKv m.nRep (full.map Prod.fst))
        (repeatKv m.nRep (full.map Prod.snd))
      attention layerIdx tables q k v ranges kv
        (setRows attnOut f.flatStart f.flatEnd (out.drop (out.length - L)))

def flatLayer (layer : LlamaLayer ρ η) (layerIdx : ℕ) (tables : Request → List BlockId)
    (ranges : List FlatRange) (kv : Cache η) (x residual : List ρ) :
    Except EngineError (Cache η × List ρ × List ρ) := do
  let (normed, residual) := fusedAddRmsnorm layer.inputLayernorm x residual
  let positions := ranges.flatMap ModelRunner.positions
  let q := m.applyRope positions (normed.map layer.qProj)
  let k := m.applyRope positions (normed.map layer.kProj)
  let v := normed.map layer.vProj
  let (kv, attnOut) ← m.attention layerIdx tables q k v ranges kv
    (List.replicate q.length m.emptyRow)
  let (x, residual) := mlpBlock layer attnOut residual
  return (kv, x, residual)

def flatLayers (tables : Request → List BlockId) (ranges : List FlatRange) (layerIdx : ℕ) :
    List (LlamaLayer ρ η) → Cache η → List ρ → List ρ →
      Except EngineError (Cache η × List ρ × List ρ)
  | [], kv, x, residual => .ok (kv, x, residual)
  | layer :: layers, kv, x, residual => do
    let (kv, x, residual) ← m.flatLayer layer layerIdx tables ranges kv x residual
    flatLayers tables ranges (layerIdx + 1) layers kv x residual

/-- The pass over everything scheduled: the cache after it, the ranges of the batch and the hidden
row of every row of it. -/
def forward (tables : Request → List BlockId) (scheduled : List (Request × ℕ)) (kv : Cache η) :
    Except EngineError (Cache η × List FlatRange × List ρ) := do
  let ranges ← m.toModelRunner.buildFlatBatch scheduled
  m.toModelRunner.lookUp ranges
  let (x, residual) := m.embed (ranges.flatMap FlatRange.inputIds)
  let (kv, x, residual) ← m.flatLayers tables ranges 0 m.layers kv x residual
  return (kv, ranges, m.finalNorm x residual)

end Llama

end LightServe
