import LightServe.Model.LLMEngine
import LightServe.Model.PagedRunner

/-!
# The draft proposer

`DraftProposer` of `model/draft_proposer.py`, and `LLMEngine.step` with one. For every request it
ever proposed for, the proposer keeps a shadow request of its own, with a block table in the
draft's pool and entries in the draft's cache. Nothing takes a shadow away again.

## Main definitions

* `DraftProposer.propose` — the next proposals for a request.
* `DraftProposer.rollback` — wind a shadow back after a verify round.
* `LLMEngine.draftedStep` — one engine iteration with a draft model.
-/

namespace LightServe

/-- The draft side of speculative decoding. -/
structure DraftProposer (κ : Type) where
  modelRunner : PagedRunner κ
  numSpeculativeTokens : ℕ
  kvCache : KvCache κ
  blockManager : BlockManager
  /-- Request id to the proposer's own request for it. -/
  shadowRequests : Dict RequestId Request := ∅

namespace DraftProposer
variable {κ : Type}

/-- A fresh proposer over a cache of `numGpuBlocks` blocks. -/
def new (modelRunner : PagedRunner κ) (numSpeculativeTokens numGpuBlocks : ℕ)
    (kvCache : KvCache κ) : DraftProposer κ where
  modelRunner
  numSpeculativeTokens
  kvCache
  blockManager :=
    { blockSize := kvCache.blockSize
      numGpuBlocks
      watermarkBlocks := 0
      freeBlockIds := (List.range numGpuBlocks).reverse
      blockTables := ∅
      prefixCache := none }

/-- The loop of `_ensure_capacity`. Every round adds a block, so the number of blocks missing
at the start is enough fuel. -/
def ensureLoop (shadow : Request) : ℕ → BlockManager → Except EngineError BlockManager
  | 0, bm => .ok bm
  | fuel + 1, bm =>
    if (bm.getBlockTable shadow).length < shadow.numBlocksNeeded bm.blockSize then do
      ensureLoop shadow fuel (← bm.appendSlot shadow)
    else .ok bm

/-- Grow a shadow's table until it covers the shadow's tokens. -/
def ensureCapacity (bm : BlockManager) (shadow : Request) : Except EngineError BlockManager :=
  ensureLoop shadow (shadow.numBlocksNeeded bm.blockSize - (bm.getBlockTable shadow).length) bm

/-- The shadow that a request is given first. -/
def newShadow (r : Request) : Request where
  requestId := r.requestId
  promptTokenIds := r.promptTokenIds
  outputTokenIds := r.outputTokenIds
  samplingParams := r.samplingParams
  status := .running

/-- The shadow of a request, resynced to what is committed. -/
def getOrCreateShadow (dp : DraftProposer κ) (r : Request) :
    Except EngineError (DraftProposer κ × Request) :=
  match dp.shadowRequests.lookup r.requestId with
  | some shadow =>
    let shadow := { shadow with outputTokenIds := r.outputTokenIds }
    .ok ({ dp with shadowRequests := dp.shadowRequests.set r.requestId shadow }, shadow)
  | none => do
    let (blockManager, shadow) ← dp.blockManager.allocate (newShadow r) none
    return ({ dp with
      blockManager
      shadowRequests := dp.shadowRequests.set r.requestId shadow }, shadow)

/-- Wind a shadow back after a verify round that committed `numAccepted` tokens. -/
def rollback (dp : DraftProposer κ) (id : RequestId) (numAccepted : ℕ) : DraftProposer κ :=
  match dp.shadowRequests.lookup id with
  | none => dp
  | some shadow => { dp with
      shadowRequests := dp.shadowRequests.set id { shadow with
        numComputedTokens := shadow.numComputedTokens - (dp.numSpeculativeTokens - numAccepted) } }

/-- The commit of a shadow's samples. -/
def commitShadow (rows : List Token) : List FlatRange → Request → Except EngineError Request
  | [], shadow => .ok shadow
  | f :: ranges, shadow => do
    let tokens ← ModelRunner.committed rows f
    commitShadow rows ranges (ModelRunner.commit tokens shadow)

/-- One round of the proposal loop: cover the shadow's tokens, run the rows that are due and
commit the sample. A shadow that is ahead of its tokens has no rows, and the pass raises. -/
def draftStep (dp : DraftProposer κ) (shadow : Request) :
    Except EngineError (DraftProposer κ × Request) := do
  let blockManager ← ensureCapacity dp.blockManager shadow
  let numNew := shadow.getNumNewTokens
  let shadow := { shadow with numComputedTokens := (shadow.numComputedTokens + numNew).toNat }
  let (kvCache, ranges, rows) ← dp.modelRunner.forward blockManager.getBlockTable
    [(shadow, numNew.toNat)] dp.kvCache
  let shadow ← commitShadow rows ranges shadow
  return ({ dp with
    blockManager
    kvCache
    shadowRequests := dp.shadowRequests.set shadow.requestId shadow }, shadow)

/-- Rounds of the proposal loop, with the tokens proposed so far. -/
def draftLoop : ℕ → DraftProposer κ → Request → List Token →
    Except EngineError (DraftProposer κ × Request × List Token)
  | 0, dp, shadow, proposed => .ok (dp, shadow, proposed)
  | k + 1, dp, shadow, proposed => do
    let (dp, shadow) ← dp.draftStep shadow
    match shadow.outputTokenIds.getLast? with
    | none => throw .indexOutOfRange
    | some t => draftLoop k dp shadow (proposed ++ [t])

/-- The next proposals for a request. -/
def propose (dp : DraftProposer κ) (r : Request) :
    Except EngineError (DraftProposer κ × List Token) := do
  let (dp, shadow) ← dp.getOrCreateShadow r
  let (dp, _, proposed) ← draftLoop dp.numSpeculativeTokens dp shadow []
  return (dp, proposed)

end DraftProposer

/-! ## The engine with a draft model -/

/-- The state of an engine with a draft model. -/
structure DraftedEngine (κ : Type) where
  scheduler : Scheduler
  draftProposer : DraftProposer κ

namespace DraftedEngine
variable {κ : Type}

/-- How many tokens a verify round really commits, cut at the first stop condition. -/
def accepted (preLen : ℕ) (r : Request) : ℕ :=
  let accepted := r.outputTokenIds.length - preLen
  match Scheduler.stopAt r.samplingParams preLen (r.outputTokenIds.drop preLen) with
  | some k => if k + 1 < accepted then k + 1 else accepted
  | none => accepted

/-- The correction loop with its rollbacks. -/
def correctLoop (preLen : List (RequestId × ℕ)) :
    List ScheduledRequest → DraftedEngine κ → DraftedEngine κ
  | [], d => d
  | sr :: scheduled, d =>
    match preLen.lookup sr.request with
    | none => correctLoop preLen scheduled d
    | some n =>
      let numAccepted := ((d.scheduler.findRequest sr.request).map (accepted n)).getD 0
      correctLoop preLen scheduled
        { scheduler := d.scheduler.updateRequest sr.request
            (Scheduler.correctRound n sr.numScheduledTokens)
          draftProposer := d.draftProposer.rollback sr.request numAccepted }

/-- Propose for every running request past its prompt, one after the other. -/
def proposeLoop : List Request → DraftProposer κ →
    Except EngineError (DraftProposer κ × List Request)
  | [], dp => .ok (dp, [])
  | r :: running, dp =>
    if r.isPrefill then do
      let (dp, running) ← proposeLoop running dp
      return (dp, r :: running)
    else do
      let (dp, proposed) ← dp.propose r
      let (dp, running) ← proposeLoop running dp
      return (dp, { r with draftTokenIds := proposed } :: running)

end DraftedEngine

namespace LLMEngine
variable {κ : Type}

/-- An iteration up to the sweep: what is left to do is to propose. -/
def sweptStep (e : LLMEngine) (d : DraftedEngine κ) :
    Except EngineError (DraftedEngine κ × SchedulerOutput × List Request) := do
  let (s, out) ← d.scheduler.schedule
  let preLen := s.specPreLen out
  let s ← e.runner.executeModel s out
  let s ← s.registerComputed out
  let d := DraftedEngine.correctLoop preLen out.scheduledRunning { d with scheduler := s }
  let (s, finished) ← d.scheduler.freeFinishedRequests
  return ({ d with scheduler := s }, out, finished)

/-- One engine iteration with a draft model. -/
def draftedStep (e : LLMEngine) (d : DraftedEngine κ) :
    Except EngineError (DraftedEngine κ × SchedulerOutput × List Request) := do
  let (d, out, finished) ← e.sweptStep d
  let (draftProposer, running) ← DraftedEngine.proposeLoop d.scheduler.running d.draftProposer
  return ({ scheduler := { d.scheduler with running }, draftProposer }, out, finished)

end LLMEngine

end LightServe
