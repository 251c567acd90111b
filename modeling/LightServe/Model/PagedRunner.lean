import LightServe.Lib.Causal
import LightServe.Model.KvCache
import LightServe.Model.ModelRunner

/-!
# The model runner over the paged cache

`ModelRunner` samples from the token prefix of a row. The source's forward pass samples from
cache entries: it writes the entries of a request's new rows through the request's block table
and attends to what it reads back. `PagedRunner` is that pass; where the table holds the entries
of the tokens before the range, its rows are those of `ModelRunner`.

## Main definitions

* `PagedRunner.attend` — the pass over one request's range.
* `PagedRunner.forward` — the pass over a flat batch.
* `PagedRunner.attend_of_holds` — its rows, and what the table holds afterwards.
-/

namespace LightServe

/-- A forward pass over a cache of entries `κ`, with the lengths of the tables it reads. -/
structure PagedRunner (κ : Type) where
  model : CausalModel Token κ
  maxModelLen : Option ℕ := none
  vocabSize : Option ℕ := none

namespace PagedRunner
variable {κ : Type} (m : PagedRunner κ)

/-- The same pass as a function of token prefixes. -/
def toModelRunner : ModelRunner where
  next := m.model.next
  maxModelLen := m.maxModelLen
  vocabSize := m.vocabSize

/-- Write the entries of a request's rows, read everything back and let every row attend to the
positions up to its own. A request without rows is skipped. -/
def attend (table : List BlockId) (f : FlatRange) (kv : KvCache κ) :
    Except EngineError (KvCache κ × List Token) :=
  if f.flatEnd - f.flatStart = 0 then .ok (kv, [])
  else do
    let context ← kv.read table f.seqStart
    let kv ← kv.write table f.seqStart (m.model.entries context f.inputIds)
    let full ← kv.read table f.seqEnd
    return (kv, (List.range f.inputIds.length).map fun j =>
      m.model.sample (full.take (f.seqStart + j + 1)))

/-- One range after the other. -/
def attendAll (tables : Request → List BlockId) :
    List FlatRange → KvCache κ → Except EngineError (KvCache κ × List Token)
  | [], kv => .ok (kv, [])
  | f :: ranges, kv => do
    let (kv, rows) ← m.attend (tables f.request) f kv
    let (kv, more) ← attendAll tables ranges kv
    return (kv, rows ++ more)

/-- The pass over everything scheduled: the cache after it, the ranges and their rows. -/
def forward (tables : Request → List BlockId) (scheduled : List (Request × ℕ)) (kv : KvCache κ) :
    Except EngineError (KvCache κ × List FlatRange × List Token) := do
  let ranges ← m.toModelRunner.buildFlatBatch scheduled
  m.toModelRunner.lookUp ranges
  let (kv, rows) ← m.attendAll tables ranges kv
  return (kv, ranges, rows)

variable {m} {table : List BlockId} {f : FlatRange} {kv kv' : KvCache κ} {context : List Token}

/-- Whatever a table holds, the pass touches the slots of its blocks only. -/
theorem attend_frame {rows : List Token} (h : m.attend table f kv = .ok (kv', rows)) :
    kv'.blockSize = kv.blockSize ∧ ∀ l, l.1 ∉ table → kv'.slot l = kv.slot l := by
  unfold attend at h
  split at h
  · cases h
    exact ⟨rfl, fun _ _ => rfl⟩
  · obtain ⟨context, -, h⟩ := bind_eq_ok.mp h
    obtain ⟨kv₁, hwrite, h⟩ := bind_eq_ok.mp h
    obtain ⟨full, -, hret⟩ := bind_eq_ok.mp h
    cases hret
    exact KvCache.write_frame hwrite

/-- Behind the entries of a context, a range extends them by its inputs and samples what follows
each of them. -/
theorem attend_of_holds (h : kv.Holds table (m.model.cache context)) (hnodup : table.Nodup)
    (hstart : context.length = f.seqStart) (hend : f.seqEnd = f.seqStart + f.inputIds.length)
    (hrows : f.flatEnd - f.flatStart = f.inputIds.length)
    (hcap : f.seqEnd ≤ table.length * kv.blockSize) :
    ∃ kv', m.attend table f kv = .ok (kv', (List.range f.inputIds.length).map fun j =>
        m.model.next (context ++ f.inputIds.take (j + 1))) ∧
      kv'.blockSize = kv.blockSize ∧ kv'.Holds table (m.model.cache (context ++ f.inputIds)) ∧
      ∀ l, (∀ p, f.seqStart ≤ p → p < f.seqEnd → l ≠ kv.location table p) →
        kv'.slot l = kv.slot l := by
  by_cases hnil : f.inputIds = []
  · rw [attend, if_pos (by rw [hrows, hnil]; rfl)]
    exact ⟨kv, by simp [hnil], rfl, by simpa [hnil] using h, fun _ _ => rfl⟩
  · have hpos : 0 < f.inputIds.length := List.length_pos_of_ne_nil hnil
    have hread := h.read
    rw [CausalModel.length_cache, hstart] at hread
    obtain ⟨kv', hwrite, hsize, hholds, hframe⟩ := @KvCache.Holds.write _ _ _ _
      (m.model.entries (m.model.cache context) f.inputIds) h hnodup
      (by simpa [hstart, ← hend] using hcap)
    rw [← CausalModel.cache_append] at hholds
    rw [CausalModel.length_cache, CausalModel.length_entries, hstart, ← hend] at hframe
    rw [CausalModel.length_cache, hstart] at hwrite
    have hfull := hholds.read
    rw [CausalModel.length_cache, List.length_append, hstart, ← hend] at hfull
    refine ⟨kv', ?_, hsize, hholds, hframe⟩
    rw [attend, if_neg (by omega), hread, ok_bind, hwrite, ok_bind, hfull, ok_bind]
    refine congrArg (fun rows => Except.ok (kv', rows)) (List.map_congr_left fun j _ => ?_)
    rw [CausalModel.next, CausalModel.take_cache, List.take_append, hstart,
      List.take_of_length_le (by omega)]
    congr 4
    omega

end PagedRunner

end LightServe
