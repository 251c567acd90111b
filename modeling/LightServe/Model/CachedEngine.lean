import LightServe.Model.LLMEngine
import LightServe.Model.PagedRunner

/-!
# The engine with its cache

`LLMEngine` of `model/llm_engine.py` once more, this time with the physical cache: the forward pass
reads and writes slots behind the block tables that the scheduler hands out.

## Main definitions

* `PagedRunner.executeModel` — the forward pass and the commit of its samples.
* `CachedEngine.step` — one engine iteration, over the scheduler and the cache.
* `CachedEngine.toLLMEngine` — the same engine, as a function of token prefixes.
-/

namespace LightServe

/-- One forward pass over everything scheduled, and the commit of its samples. -/
def PagedRunner.executeModel {κ : Type} (m : PagedRunner κ) (s : Scheduler) (out : SchedulerOutput)
    (kv : KvCache κ) : Except EngineError (Scheduler × KvCache κ) := do
  let (kv, ranges, rows) ← m.forward s.blockManager.getBlockTable (s.resolve out.scheduled) kv
  let s ← s.commitLoop rows ranges
  return (s, kv)

/-- The configuration of an engine whose cache holds entries `κ`. -/
structure CachedEngine (κ : Type) where
  cacheConfig : CacheConfig
  schedulerConfig : SchedulerConfig
  runner : PagedRunner κ
  speculativeConfig : Option SpeculativeConfig := none
  hashFn : Option BlockHash → List Token → BlockHash

namespace CachedEngine
variable {κ : Type} (e : CachedEngine κ)

/-- The same engine without its cache. -/
def toLLMEngine : LLMEngine where
  cacheConfig := e.cacheConfig
  schedulerConfig := e.schedulerConfig
  runner := e.runner.toModelRunner
  speculativeConfig := e.speculativeConfig
  hashFn := e.hashFn

/-- One engine iteration: what it returns, and the cache after it. -/
def step (drafts : Option (RequestId → List Token)) (s : Scheduler) (kv : KvCache κ) :
    Except EngineError ((Scheduler × SchedulerOutput × List Request) × KvCache κ) := do
  let (s, out) ← s.schedule
  let preLen := s.specPreLen out
  let (s, kv) ← e.runner.executeModel s out kv
  let s ← s.registerComputed out
  let s := s.correctLoop preLen out.scheduledRunning
  let (s, finished) ← s.freeFinishedRequests
  let s := match drafts with
    | none => s
    | some d => s.propose d
  return ((s, out, finished), kv)

end CachedEngine

end LightServe
