import LightServe.Engine.Config
import LightServe.Lib.Quantization
import LightServe.Model.FlatStore
import Mathlib.Data.Rat.Floor

/-!
# The quantised KV cache

`PagedKVCache` of `model/kv_cache.py` with `int8_kv`, over exact rationals: every head's vector of
a position is stored as codes and a scale of its own, and read as what these stand for. What a
cache hands out is quantised without loss by the next one, so only the first write rounds.

## Main definitions

* `Int8KVCache.quantize`, `Int8KVCache.dequantize` — `_quantize` and `_dequantize` of one vector.
* `Int8KVCache.write`, `Int8KVCache.read` — the store behind them.
* `Int8KVCache.exportRequestKv`, `Int8KVCache.importRequestKv` — the transfer.
* `Int8KVCache.Kept` — entries that quantising loses nothing of.
* `Int8KVCache.Reachable` — the caches that writes and imports lead to.
-/

namespace LightServe

/-- A vector as it is stored: its codes, within a byte, and their scale. -/
structure QuantizedVector where
  xInt8 : List ℤ
  scale : ℚ
  deriving DecidableEq

/-- The keys, or the values, of a position: a vector for each head. -/
abbrev KvRow := List (List ℚ)

/-- A cache that stores codes and scales. -/
abbrev Int8KVCache := PagedKVCache (List QuantizedVector)

namespace Int8KVCache

open Quantization

/-! ## Vectors -/

/-- The largest magnitude of a vector; there is none in an empty one. -/
def amax (x : List ℚ) : Except EngineError ℚ :=
  match (x.map abs).max? with
  | some m => .ok m
  | none => .error .indexOutOfRange

def clamp (lo hi c : ℤ) : ℤ := min (max c lo) hi

/-- `_quantize`, of the vector of one position and head. -/
def quantize (x : List ℚ) : Except EngineError QuantizedVector := do
  let m ← amax x
  let scale := max m (1 / 10 ^ 8) / 127
  return { xInt8 := x.map fun a => clamp (-127) 127 (Rounding.roundEven (a / scale)), scale }

/-- `_dequantize`, of the vector of one position and head. -/
def dequantize (q : QuantizedVector) : List ℚ := q.xInt8.map fun c : ℤ => c * q.scale

/-- A head's vector in a cache that nothing is written to. -/
def zeroVector (headDim : ℕ) : QuantizedVector := ⟨List.replicate headDim 0, 1⟩

/-! ### What quantising loses -/

section Vectors
variable {x : List ℚ} {m : ℚ} {q : QuantizedVector}

theorem amax_eq_ok : amax x = .ok m ↔ Peak x m := by
  have hpeak : (x.map abs).max? = some m ↔ Peak x m := by
    rw [List.max?_eq_some_iff]
    constructor
    · rintro ⟨hmem, hle⟩
      exact ⟨List.mem_map.mp hmem, fun a ha => hle _ (List.mem_map_of_mem ha)⟩
    · rintro ⟨hmem, hle⟩
      refine ⟨List.mem_map.mpr hmem, fun b hb => ?_⟩
      obtain ⟨a, ha, rfl⟩ := List.mem_map.mp hb
      exact hle a ha
  rw [← hpeak, amax]
  cases (x.map abs).max? <;> simp

theorem exists_peak (hne : x ≠ []) : ∃ m, Peak x m := by
  have hsome : (x.map abs).max? ≠ none := by
    rw [ne_eq, List.max?_eq_none_iff, List.map_eq_nil_iff]
    exact hne
  obtain ⟨m, hm⟩ := Option.ne_none_iff_exists'.mp hsome
  refine ⟨m, amax_eq_ok.mp ?_⟩
  rw [amax, hm]

/-- The step of a vector's codes. -/
def scaleOf (m : ℚ) : ℚ := step 127 (1 / 10 ^ 8) m

theorem scaleOf_pos (m : ℚ) : 0 < scaleOf m := step_pos (by decide) (by norm_num)

theorem abs_roundEven_le_of_peak (h : Peak x m) {a : ℚ} (ha : a ∈ x) :
    -127 ≤ Rounding.roundEven (a / scaleOf m) ∧ Rounding.roundEven (a / scaleOf m) ≤ 127 :=
  abs_le.mp (abs_code_le (n := 127) (by decide) (by norm_num) (h.le a ha))

/-- The clamp never changes a code. -/
theorem quantize_of_peak (h : Peak x m) :
    quantize x = .ok ⟨codes (scaleOf m) x, scaleOf m⟩ := by
  refine bind_eq_ok.mpr ⟨m, amax_eq_ok.mpr h, ?_⟩
  have hclamp : x.map (fun a => clamp (-127) 127 (Rounding.roundEven (a / scaleOf m))) =
      codes (scaleOf m) x := by
    refine List.map_congr_left fun a ha => ?_
    obtain ⟨hlow, hhigh⟩ := abs_roundEven_le_of_peak h ha
    rw [clamp, max_eq_left hlow, min_eq_left hhigh]
    rfl
  exact congrArg (fun q => Except.ok (⟨q, scaleOf m⟩ : QuantizedVector)) hclamp

theorem dequantize_codes (s : ℚ) : dequantize ⟨codes s x, s⟩ = values s (codes s x) := rfl

/-- What codes stand for has these codes, and their scale. -/
theorem quantize_dequantize (h : quantize x = .ok q) : quantize (dequantize q) = .ok q := by
  obtain ⟨m, hm, -⟩ := bind_eq_ok.mp h
  have hpeak := amax_eq_ok.mp hm
  obtain rfl := Except.ok.inj ((quantize_of_peak hpeak).symm.trans h)
  have hne : dequantize ⟨codes (scaleOf m) x, scaleOf m⟩ ≠ [] := by
    obtain ⟨a, ha, -⟩ := hpeak.exists_mem
    simp [dequantize, codes, List.ne_nil_of_mem ha]
  obtain ⟨m', hm'⟩ := exists_peak hne
  have hscale : scaleOf m' = scaleOf m := hpeak.step_eq (by decide) (by norm_num) hm'
  rw [quantize_of_peak hm', hscale, dequantize_codes, codes_values (scaleOf_pos m).ne']

/-- Nothing is lost of zeros. -/
theorem quantize_zeros {n : ℕ} (hn : 0 < n) :
    ∃ q, quantize (List.replicate n 0) = .ok q ∧ dequantize q = List.replicate n 0 := by
  obtain ⟨m, hm⟩ := exists_peak (x := List.replicate n (0 : ℚ)) (by simpa using hn.ne')
  refine ⟨_, quantize_of_peak hm, ?_⟩
  simp [dequantize, codes, code, Rounding.roundEven]

end Vectors

/-! ## Entries -/

/-- `_quantize` of the keys and of the values of a position. -/
def quantizeEntry (entry : KvRow × KvRow) :
    Except EngineError (List QuantizedVector × List QuantizedVector) := do
  let k ← entry.1.mapM quantize
  let v ← entry.2.mapM quantize
  return (k, v)

/-- `_dequantize` of the keys and of the values of a position. -/
def dequantizeEntry (q : List QuantizedVector × List QuantizedVector) : KvRow × KvRow :=
  (q.1.map dequantize, q.2.map dequantize)

/-! ### What quantising loses of entries -/

section Entries
variable {entry : KvRow × KvRow} {entries : List (KvRow × KvRow)} {row : KvRow}
  {q : List QuantizedVector × List QuantizedVector} {qs : List QuantizedVector}

/-- Entries that quantising loses nothing of. -/
def Kept (entry : KvRow × KvRow) : Prop :=
  ∃ q, quantizeEntry entry = .ok q ∧ dequantizeEntry q = entry

theorem quantizeEntry_eq_ok : quantizeEntry entry = .ok q ↔
    entry.1.mapM quantize = .ok q.1 ∧ entry.2.mapM quantize = .ok q.2 := by
  constructor
  · intro h
    obtain ⟨k, hk, h⟩ := bind_eq_ok.mp h
    obtain ⟨v, hv, hret⟩ := bind_eq_ok.mp h
    obtain rfl := pure_eq_ok.mp hret
    exact ⟨hk, hv⟩
  · rintro ⟨hk, hv⟩
    exact bind_eq_ok.mpr ⟨q.1, hk, bind_eq_ok.mpr ⟨q.2, hv, rfl⟩⟩

theorem mapM_quantize_dequantize (h : row.mapM quantize = .ok qs) :
    (qs.map dequantize).mapM quantize = .ok qs := by
  rw [mapM_eq_ok, List.forall₂_map_left_iff, List.forall₂_same]
  intro q hq
  obtain ⟨x, -, hx⟩ := exists_of_mem_mapM h hq
  exact quantize_dequantize hx

/-- Nothing is lost of what was quantised once. -/
theorem kept_dequantizeEntry (h : quantizeEntry entry = .ok q) : Kept (dequantizeEntry q) := by
  obtain ⟨hk, hv⟩ := quantizeEntry_eq_ok.mp h
  exact ⟨q, quantizeEntry_eq_ok.mpr ⟨mapM_quantize_dequantize hk, mapM_quantize_dequantize hv⟩, rfl⟩

/-- Nothing is lost of the entry of a slot that nothing is written to. -/
theorem kept_zeros {numKvHeads headDim : ℕ} (hdim : 0 < headDim) :
    Kept (dequantizeEntry (List.replicate numKvHeads (zeroVector headDim),
      List.replicate numKvHeads (zeroVector headDim))) := by
  have hzero : dequantize (zeroVector headDim) = List.replicate headDim 0 := by
    simp [dequantize, zeroVector]
  have hrow : ∀ x ∈ (List.replicate numKvHeads (zeroVector headDim)).map dequantize,
      ∃ q, quantize x = .ok q ∧ dequantize q = x := by
    intro x hx
    rw [List.map_replicate, hzero] at hx
    rw [List.eq_of_mem_replicate hx]
    exact quantize_zeros hdim
  obtain ⟨qs, hqs, hback⟩ := mapM_of_inverse hrow
  exact ⟨(qs, qs), quantizeEntry_eq_ok.mpr ⟨hqs, hqs⟩, Prod.ext hback hback⟩

end Entries

/-! ## The cache -/

/-- A cache that nothing is written to: codes of zero, scales of one. -/
def new (cacheConfig : CacheConfig) (nLayers numKvHeads headDim : ℕ) (dtype : Dtype) :
    Int8KVCache where
  nLayers
  numGpuBlocks := cacheConfig.numGpuBlocks
  numKvHeads
  headDim
  computeDtype := dtype
  store :=
    { blockSize := cacheConfig.blockSize
      slot := fun _ _ => (List.replicate numKvHeads (zeroVector headDim),
        List.replicate numKvHeads (zeroVector headDim)) }

/-- Quantise entries and scatter them to one layer, at the positions from `start` on. Whatever
fails is an `IndexError`. -/
def write (c : Int8KVCache) (layerIdx : ℕ) (table : List BlockId) (start : ℕ)
    (entries : List (KvRow × KvRow)) : Except EngineError Int8KVCache := do
  let entries ← entries.mapM quantizeEntry
  PagedKVCache.write c layerIdx table start entries

/-- Gather the entries of one layer at the first `seqLen` positions and dequantise them. -/
def read (c : Int8KVCache) (layerIdx : ℕ) (table : List BlockId) (seqLen : ℕ) :
    Except EngineError (List (KvRow × KvRow)) := do
  let entries ← PagedKVCache.read c layerIdx table seqLen
  return entries.map dequantizeEntry

/-- The loop of `export_request_kv`, over the layers that are left. -/
def exportLoop (c : Int8KVCache) (table : List BlockId) (seqLen : ℕ) :
    List ℕ → Except EngineError (List (List KvRow) × List (List KvRow))
  | [] => .ok ([], [])
  | layerIdx :: layers => do
    let entries ← read c layerIdx table seqLen
    let (ks, vs) ← exportLoop c table seqLen layers
    return (entries.map Prod.fst :: ks, entries.map Prod.snd :: vs)

/-- A request's first `seqLen` keys and values, across every layer. -/
def exportRequestKv (c : Int8KVCache) (table : List BlockId) (seqLen : ℕ) :
    Except EngineError (KvTensor KvRow × KvTensor KvRow) := do
  let (ks, vs) ← exportLoop c table seqLen (List.range c.nLayers)
  let k ← KvTensor.stack ks seqLen c.numKvHeads c.headDim c.computeDtype
  let v ← KvTensor.stack vs seqLen c.numKvHeads c.headDim c.computeDtype
  return (k, v)

/-- The loop of `import_request_kv`, from layer `layerIdx` on. -/
def importLoop (table : List BlockId) (layerIdx : ℕ) :
    List (List KvRow × List KvRow) → Int8KVCache → Except EngineError Int8KVCache
  | [], c => .ok c
  | (k, v) :: layers, c => do
    let c ← write c layerIdx table 0 (k.zip v)
    importLoop table (layerIdx + 1) layers c

/-- Scatter exported keys and values to a request's own blocks, once their shape and their format
are found to be this cache's. Values of another format are quantised like any others. -/
def importRequestKv (c : Int8KVCache) (table : List BlockId) (k v : KvTensor KvRow) :
    Except EngineError Int8KVCache :=
  if k.shape ≠ v.shape then .error .kvMismatch
  else if (k.nLayers, k.numKvHeads, k.headDim) ≠ (c.nLayers, c.numKvHeads, c.headDim) then
    .error .kvMismatch
  else if k.dtype ≠ c.computeDtype then .error .kvMismatch
  else importLoop table 0 (k.rows.zip v.rows) c

/-! ### What a cache holds -/

section Caches
variable {c c' d : Int8KVCache} {layerIdx n : ℕ} {table : List BlockId} {k v : KvTensor KvRow}
  {entries : List (KvRow × KvRow)}

/-- Quantising loses nothing of what a cache holds. -/
def Settled (c : Int8KVCache) : Prop :=
  ∀ l layerIdx, Kept (dequantizeEntry (c.store.slot l layerIdx))

/-- The caches that writes and imports lead to; the vectors of a model are not empty. -/
inductive Reachable : Int8KVCache → Prop
  | new (cacheConfig : CacheConfig) (nLayers numKvHeads : ℕ) {headDim : ℕ} (hdim : 0 < headDim)
      (dtype : Dtype) : Reachable (new cacheConfig nLayers numKvHeads headDim dtype)
  | write {c c' : Int8KVCache} (hc : Reachable c) {layerIdx : ℕ} {table : List BlockId} {start : ℕ}
      {entries : List (KvRow × KvRow)} (h : write c layerIdx table start entries = .ok c') :
      Reachable c'
  | importRequestKv {c c' : Int8KVCache} (hc : Reachable c) {table : List BlockId}
      {k v : KvTensor KvRow} (h : importRequestKv c table k v = .ok c') : Reachable c'

theorem Settled.write {start : ℕ} (hc : Settled c)
    (h : Int8KVCache.write c layerIdx table start entries = .ok c') : Settled c' := by
  obtain ⟨qs, hqs, hwrite⟩ := bind_eq_ok.mp h
  intro l j
  rcases PagedKVCache.write_cases hwrite l j with hkept | hmem
  · rw [hkept]
    exact hc l j
  · obtain ⟨entry, -, hentry⟩ := exists_of_mem_mapM hqs hmem
    exact kept_dequantizeEntry hentry

theorem Settled.importLoop {layers : List (List KvRow × List KvRow)} (hc : Settled c)
    (h : Int8KVCache.importLoop table layerIdx layers c = .ok c') : Settled c' := by
  induction layers generalizing c layerIdx with
  | nil =>
    cases h
    exact hc
  | cons layer layers ih =>
    obtain ⟨c₁, hwrite, hrest⟩ := bind_eq_ok.mp h
    exact ih (hc.write hwrite) hrest

theorem Reachable.settled (hc : Reachable c) : Settled c := by
  induction hc with
  | new cacheConfig nLayers numKvHeads hdim dtype => exact fun l j => kept_zeros hdim
  | write hc h ih => exact ih.write h
  | importRequestKv hc h ih =>
    unfold Int8KVCache.importRequestKv at h
    split_ifs at h
    exact ih.importLoop h

/-- What a settled cache hands out is quantised without loss. -/
theorem Settled.read (hc : Settled c) (h : Int8KVCache.read c layerIdx table n = .ok entries) :
    entries.length = n ∧ ∀ entry ∈ entries, Kept entry := by
  obtain ⟨qs, hqs, hret⟩ := bind_eq_ok.mp h
  obtain rfl := pure_eq_ok.mp hret
  obtain ⟨hlen, hslots⟩ := PagedKVCache.read_cases hqs
  refine ⟨by rw [List.length_map, hlen], fun entry hentry => ?_⟩
  obtain ⟨q, hq, rfl⟩ := List.mem_map.mp hentry
  obtain ⟨l, rfl⟩ := hslots q hq
  exact hc l layerIdx

theorem exportLoop_eq_ok {layers : List ℕ} {rows : List (List KvRow) × List (List KvRow)} :
    exportLoop c table n layers = .ok rows ↔
      ∃ es, layers.mapM (fun l => Int8KVCache.read c l table n) = .ok es ∧
        rows = (es.map (List.map Prod.fst), es.map (List.map Prod.snd)) := by
  induction layers generalizing rows with
  | nil =>
    simp only [exportLoop, List.mapM_nil, pure_eq_ok, Except.ok.injEq]
    constructor
    · rintro rfl
      exact ⟨[], rfl, rfl⟩
    · rintro ⟨es, rfl, rfl⟩
      rfl
  | cons l layers ih =>
    rw [exportLoop, List.mapM_cons]
    constructor
    · intro h
      obtain ⟨entries, hentries, h⟩ := bind_eq_ok.mp h
      obtain ⟨rest, hrest, hret⟩ := bind_eq_ok.mp h
      obtain rfl := pure_eq_ok.mp hret
      obtain ⟨es, hes, rfl⟩ := ih.mp hrest
      exact ⟨entries :: es, bind_eq_ok.mpr ⟨entries, hentries, bind_eq_ok.mpr ⟨es, hes, rfl⟩⟩, rfl⟩
    · rintro ⟨es, h, rfl⟩
      obtain ⟨entries, hentries, h⟩ := bind_eq_ok.mp h
      obtain ⟨rest, hrest, hret⟩ := bind_eq_ok.mp h
      obtain rfl := pure_eq_ok.mp hret
      exact bind_eq_ok.mpr ⟨entries, hentries, bind_eq_ok.mpr ⟨_, ih.mpr ⟨rest, hrest, rfl⟩, rfl⟩⟩

end Caches

/-! ## Transfer -/

/-- A cache that receives a request, and the blocks that the request has there. -/
structure Hop where
  cache : Int8KVCache
  table : List BlockId

/-- From each cache to the next: an import of `n` positions, and an export of them. -/
def transferAll (n : ℕ) : List Hop → KvTensor KvRow × KvTensor KvRow →
    Except EngineError (KvTensor KvRow × KvTensor KvRow)
  | [], kv => .ok kv
  | hop :: hops, kv => do
    let d ← importRequestKv hop.cache hop.table kv.1 kv.2
    let kv ← exportRequestKv d hop.table n
    transferAll n hops kv

/-- A cache of the same model, with blocks of its own for `n` positions. -/
structure Hop.Receives (hop : Hop) (c : Int8KVCache) (n : ℕ) : Prop where
  model : c.SameModel hop.cache
  nodup : hop.table.Nodup
  inPool : ∀ b ∈ hop.table, b < hop.cache.numGpuBlocks
  room : n ≤ hop.cache.capacity hop.table

/-- The entries that were exported, layer by layer. -/
structure Exported (c : Int8KVCache) (n : ℕ) (kv : KvTensor KvRow × KvTensor KvRow)
    (es : List (List (KvRow × KvRow))) : Prop where
  layers : es.length = c.nLayers
  lengths : ∀ entries ∈ es, entries.length = n
  kept : ∀ entries ∈ es, ∀ entry ∈ entries, Kept entry
  keys : KvTensor.stack (es.map (List.map Prod.fst)) n c.numKvHeads c.headDim c.computeDtype =
    .ok kv.1
  vals : KvTensor.stack (es.map (List.map Prod.snd)) n c.numKvHeads c.headDim c.computeDtype =
    .ok kv.2

section Transfer
variable {c d : Int8KVCache} {n : ℕ} {table : List BlockId} {hop : Hop} {hops : List Hop}
  {kv : KvTensor KvRow × KvTensor KvRow} {es : List (List (KvRow × KvRow))}

theorem exportRequestKv_eq_ok : exportRequestKv c table n = .ok kv ↔
    ∃ es, (List.range c.nLayers).mapM (fun l => Int8KVCache.read c l table n) = .ok es ∧
      KvTensor.stack (es.map (List.map Prod.fst)) n c.numKvHeads c.headDim c.computeDtype =
        .ok kv.1 ∧
      KvTensor.stack (es.map (List.map Prod.snd)) n c.numKvHeads c.headDim c.computeDtype =
        .ok kv.2 := by
  constructor
  · intro h
    obtain ⟨rows, hrows, h⟩ := bind_eq_ok.mp h
    obtain ⟨es, hes, rfl⟩ := exportLoop_eq_ok.mp hrows
    obtain ⟨k, hk, h⟩ := bind_eq_ok.mp h
    obtain ⟨v, hv, hret⟩ := bind_eq_ok.mp h
    obtain rfl := pure_eq_ok.mp hret
    exact ⟨es, hes, hk, hv⟩
  · rintro ⟨es, hes, hk, hv⟩
    exact bind_eq_ok.mpr ⟨_, exportLoop_eq_ok.mpr ⟨es, hes, rfl⟩,
      bind_eq_ok.mpr ⟨kv.1, hk, bind_eq_ok.mpr ⟨kv.2, hv, rfl⟩⟩⟩

theorem Settled.exported (hc : Settled c) (h : exportRequestKv c table n = .ok kv) :
    ∃ es, Exported c n kv es := by
  obtain ⟨es, hes, hk, hv⟩ := exportRequestKv_eq_ok.mp h
  have hread : ∀ entries ∈ es, entries.length = n ∧ ∀ entry ∈ entries, Kept entry := by
    intro entries hentries
    obtain ⟨l, -, hl⟩ := exists_of_mem_mapM hes hentries
    exact hc.read hl
  refine ⟨es, ?_, fun entries he => (hread entries he).1, fun entries he => (hread entries he).2,
    hk, hv⟩
  rw [← (mapM_eq_ok.mp hes).length_eq, List.length_range]

/-- Importing entries that quantising loses nothing of is importing codes and scales that stand for
them. -/
theorem exists_importLoop_eq (hes : ∀ entries ∈ es, ∀ entry ∈ entries, Kept entry) :
    ∃ qs : List (List (List QuantizedVector × List QuantizedVector)),
      qs.map (List.map dequantizeEntry) = es ∧ ∀ layerIdx d,
        importLoop table layerIdx (es.map fun e => (e.map Prod.fst, e.map Prod.snd)) d =
          PagedKVCache.importLoop table layerIdx
            (qs.map fun q => (q.map Prod.fst, q.map Prod.snd)) d := by
  induction es with
  | nil => exact ⟨[], rfl, fun _ _ => rfl⟩
  | cons entries es ih =>
    obtain ⟨hhead, htail⟩ := List.forall_mem_cons.mp hes
    obtain ⟨q, hq, hback⟩ := mapM_of_inverse hhead
    obtain ⟨qs, hbacks, hrest⟩ := ih htail
    refine ⟨q :: qs, by rw [List.map_cons, hback, hbacks], fun layerIdx d => ?_⟩
    have hzip : (entries.map Prod.fst).zip (entries.map Prod.snd) = entries :=
      (List.zip_of_prod rfl rfl).symm
    have hzip' : (q.map Prod.fst).zip (q.map Prod.snd) = q := (List.zip_of_prod rfl rfl).symm
    rw [List.map_cons, List.map_cons, importLoop, PagedKVCache.importLoop, hzip, hzip',
      Int8KVCache.write, hq, ok_bind]
    exact congrArg _ (funext fun d' => hrest (layerIdx + 1) d')

/-- A cache that receives what another exported reads it back, layer by layer. -/
theorem Exported.importLoop (h : Exported c n kv es) (hr : hop.Receives c n) :
    ∃ d, Int8KVCache.importLoop hop.table 0
        (es.map fun e => (e.map Prod.fst, e.map Prod.snd)) hop.cache = .ok d ∧
      hop.cache.SameShape d ∧
      (List.range d.nLayers).mapM (fun l => Int8KVCache.read d l hop.table n) = .ok es := by
  obtain ⟨qs, rfl, himport⟩ := @exists_importLoop_eq hop.table es h.kept
  have hlen : ∀ q ∈ qs, q.length = n := by
    intro q hq
    rw [← h.lengths _ (List.mem_map_of_mem hq), List.length_map]
  have hlayers : qs.length = hop.cache.nLayers := by
    rw [hr.model.nLayers, ← h.layers, List.length_map]
  obtain ⟨d, hd, hshape, -, hput⟩ := PagedKVCache.importLoop_spec hr.nodup hr.inPool hr.room hlen
    (show 0 + qs.length ≤ hop.cache.nLayers by omega)
  refine ⟨d, (himport 0 hop.cache).trans hd, hshape, mapM_eq_ok.mpr ?_⟩
  refine List.forall₂_iff_get.mpr ⟨?_, fun l hl hl' => ?_⟩
  · rw [List.length_range, List.length_map, hshape.nLayers, hlayers]
  · rw [List.length_range] at hl
    rw [List.length_map] at hl'
    have hslots : (List.range n).map (fun p => d.store.slot (d.store.location hop.table p) l) =
        qs[l] := by
      refine List.ext_getElem (by simp [hlen]) fun p hp hp' => Option.some_injective _ ?_
      have hentry := hput l hl' p (by simpa using hp)
      rw [Nat.zero_add, List.getElem?_eq_getElem hp'] at hentry
      rw [← hentry, List.getElem_map, List.getElem_range, hshape.location]
    have hroom : n ≤ PagedKVCache.capacity d hop.table := by
      rw [hshape.capacity]
      exact hr.room
    have hpool : ∀ b ∈ hop.table, b < d.numGpuBlocks := hshape.numGpuBlocks ▸ hr.inPool
    have hread := PagedKVCache.read_eq hpool hl hroom
    rw [hslots] at hread
    simp only [List.get_eq_getElem, List.getElem_range, List.getElem_map]
    exact bind_eq_ok.mpr ⟨qs[l], hread, rfl⟩

/-- What is exported, imported and exported again is the same. -/
theorem Exported.transfer (h : Exported c n kv es) (hr : hop.Receives c n) :
    ∃ d, importRequestKv hop.cache hop.table kv.1 kv.2 = .ok d ∧
      exportRequestKv d hop.table n = .ok kv := by
  obtain ⟨d, hd, hshape, hread⟩ := h.importLoop hr
  obtain ⟨hkrows, hkshape, hkdtype⟩ := KvTensor.stack_eq_ok h.keys
  obtain ⟨hvrows, hvshape, -⟩ := KvTensor.stack_eq_ok h.vals
  refine ⟨d, ?_, exportRequestKv_eq_ok.mpr ⟨es, hread, ?_, ?_⟩⟩
  · have hfits : (kv.1.nLayers, kv.1.numKvHeads, kv.1.headDim) =
        (hop.cache.nLayers, hop.cache.numKvHeads, hop.cache.headDim) := by
      have hlayers := congrArg Prod.fst hkshape
      have hheads := congrArg (fun shape => shape.2.2) hkshape
      rw [hr.model.nLayers, hr.model.numKvHeads, hr.model.headDim, ← h.layers]
      simp only [KvTensor.shape, List.length_map] at hlayers hheads
      rw [hlayers, hheads]
    rw [importRequestKv, if_neg, if_neg, if_neg, hkrows, hvrows, List.zip_map']
    · exact hd
    · rw [hkdtype, hr.model.computeDtype]
      exact not_not.mpr rfl
    · exact not_not.mpr hfits
    · rw [hkshape, hvshape, List.length_map, List.length_map]
      exact not_not.mpr rfl
  · rw [hshape.numKvHeads, hshape.headDim, hshape.computeDtype, hr.model.numKvHeads,
      hr.model.headDim, hr.model.computeDtype]
    exact h.keys
  · rw [hshape.numKvHeads, hshape.headDim, hshape.computeDtype, hr.model.numKvHeads,
      hr.model.headDim, hr.model.computeDtype]
    exact h.vals

theorem Exported.transferAll (h : Exported c n kv es) (hr : ∀ hop ∈ hops, hop.Receives c n) :
    Int8KVCache.transferAll n hops kv = .ok kv := by
  induction hops with
  | nil => rfl
  | cons hop hops ih =>
    obtain ⟨hhead, htail⟩ := List.forall_mem_cons.mp hr
    obtain ⟨d, hd, hexport⟩ := h.transfer hhead
    rw [Int8KVCache.transferAll, hd, ok_bind, hexport, ok_bind]
    exact ih htail

end Transfer

/-- The clamp changes no code, a component moves by at most half a scale, and quantising what the
codes stand for stands for the same. What a cache exports of a request is hence what every cache
of a row of transfers exports of it. -/
theorem quantize_halfStep_transferAll :
    (∀ x : List ℚ, x ≠ [] → ∃ q, quantize x = .ok q ∧ 0 < q.scale ∧
      (∀ a ∈ x, -127 ≤ Rounding.roundEven (a / q.scale) ∧
        Rounding.roundEven (a / q.scale) ≤ 127) ∧
      q.xInt8 = x.map (fun a => Rounding.roundEven (a / q.scale)) ∧
      List.Forall₂ (fun y a => |y - a| ≤ q.scale / 2) (dequantize q) x ∧
      ∃ q', quantize (dequantize q) = .ok q' ∧ dequantize q' = dequantize q) ∧
    ∀ (c : Int8KVCache) (table : List BlockId) (n : ℕ) (kv : KvTensor KvRow × KvTensor KvRow),
      Reachable c → exportRequestKv c table n = .ok kv →
      ∀ hops : List Hop, (∀ hop ∈ hops, hop.Receives c n) → transferAll n hops kv = .ok kv := by
  refine ⟨fun x hne => ?_, fun c table n kv hc hexport hops hr => ?_⟩
  · obtain ⟨m, hm⟩ := exists_peak hne
    have hq := quantize_of_peak hm
    refine ⟨_, hq, scaleOf_pos m, fun a ha => abs_roundEven_le_of_peak hm ha, rfl, ?_, _,
      quantize_dequantize hq, rfl⟩
    rw [dequantize_codes, values, codes, List.map_map, List.forall₂_map_left_iff, List.forall₂_same]
    exact fun a _ => abs_code_mul_sub_le (scaleOf_pos m) a
  · obtain ⟨es, hes⟩ := hc.settled.exported hexport
    exact hes.transferAll hr

/-- Two positions, one of which nothing is written to, go to a cache of another block size and on
from there. -/
theorem quantize_halfStep_transferAll_two :
    (∃ q, quantize [3, -1 / 3] = .ok q ∧ dequantize q = [3, -42 / 127] ∧
      List.Forall₂ (fun y a => |y - a| ≤ q.scale / 2) (dequantize q) [3, -1 / 3]) ∧
    ∃ (c c' : Int8KVCache) (kv : KvTensor KvRow × KvTensor KvRow) (hop hop' : Hop),
      write c 0 [3] 0 [([[3, -1 / 3]], [[0, 1 / 10 ^ 9]])] = .ok c' ∧
      exportRequestKv c' [3] 2 = .ok kv ∧ kv.1.rows = [[[[3, -42 / 127]], [[0, 0]]]] ∧
      hop.table = [1, 0] ∧ hop'.table = [2] ∧ transferAll 2 [hop, hop'] kv = .ok kv := by
  set c := new (.ofBlocks 4 4 (by decide)) 1 1 2 .float32
  set hop : Hop := ⟨new (.ofBlocks 1 2 (by decide)) 1 1 2 .float32, [1, 0]⟩
  set hop' : Hop := ⟨new (.ofBlocks 16 3 (by decide)) 1 1 2 .float32, [2]⟩
  have hrun : (do
      let c' ← write c 0 [3] 0 [([[3, -1 / 3]], [[0, 1 / 10 ^ 9]])]
      let kv ← exportRequestKv c' [3] 2
      return (kv.1.rows, c'.nLayers, c'.numKvHeads, c'.headDim, c'.computeDtype)).toOption =
        some ([[[[3, -42 / 127]], [[0, 0]]]], 1, 1, 2, .float32) := by decide +kernel
  obtain ⟨c', hwrite, hrest⟩ := bind_eq_ok.mp (toOption_eq_some.mp hrun)
  obtain ⟨kv, hexport, hret⟩ := bind_eq_ok.mp hrest
  obtain ⟨hrows, hlayers, hheads, hdim, hdtype⟩ := by simpa using pure_eq_ok.mp hret
  have hreach : Reachable c' := .write (.new _ _ _ (by decide) _) hwrite
  obtain ⟨hvectors, htransfers⟩ := quantize_halfStep_transferAll
  obtain ⟨q, hq, -, -, -, hnear, -⟩ := hvectors [3, -1 / 3] (by simp)
  have hvalues : (quantize [3, -1 / 3]).toOption.map dequantize = some [3, -42 / 127] := by
    decide +kernel
  rw [hq] at hvalues
  refine ⟨⟨q, hq, Option.some_inj.mp hvalues, hnear⟩, c, c', kv, hop, hop', hwrite, hexport, hrows,
    rfl, rfl, ?_⟩
  refine htransfers c' [3] 2 kv hreach hexport [hop, hop'] ?_
  refine List.forall_mem_cons.mpr ⟨?_, List.forall_mem_singleton.mpr ?_⟩
  · exact ⟨⟨hlayers.symm, hheads.symm, hdim.symm, hdtype.symm⟩, by decide, by decide, by decide⟩
  · exact ⟨⟨hlayers.symm, hheads.symm, hdim.symm, hdtype.symm⟩, by decide, by decide, by decide⟩

end Int8KVCache

end LightServe
