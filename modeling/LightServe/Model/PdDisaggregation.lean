import LightServe.Engine.Scheduler
import LightServe.Model.PagedKVCache

/-!
# Resuming a request on another engine

`resume_decode` of `model/pd_disaggregation.py`: a request whose prompt another engine has
computed is placed among the running ones, past the waiting queue. The function changes the engine
before it may raise, so it is told with the engine that it leaves in either case.

## Main definitions

* `PrefillHandoff` — what crosses from one engine to the other.
* `BlockManager.allocateLeaving` — an allocation, with what it leaves when it raises.
* `Scheduler.resumeDecode` — the resumption.
-/

namespace LightServe

/-- What `resume_decode` needs to continue a request. -/
structure PrefillHandoff (η : Type) where
  requestId : RequestId
  promptTokenIds : List Token
  firstTokenId : Token
  samplingParams : SamplingParams
  k : KvTensor η
  v : KvTensor η

/-- The request that `resume_decode` makes: its first output token is there already. -/
def PrefillHandoff.request {η : Type} (handoff : PrefillHandoff η) : Request where
  requestId := handoff.requestId
  promptTokenIds := handoff.promptTokenIds
  samplingParams := handoff.samplingParams
  outputTokenIds := [handoff.firstTokenId]
  status := .running

/-! ## Allocation -/

/-- `allocate` with the block manager it leaves: once the match is held and blocks are evicted,
nothing takes that back. An eviction that raises is told without the evictions before it. -/
def BlockManager.allocateLeaving (bm : BlockManager) (r : Request) (m : Option PrefixMatch) :
    BlockManager × Except EngineError Request :=
  if r.requestId ∈ bm.blockTables then (bm, .error (.alreadyAllocated r.requestId))
  else
    let m := m.or (bm.matchPrefix r.promptTokenIds)
    let needed := bm.neededFresh r m
    let (bm, r) := bm.acquireMatch r m
    match bm.drainEvictions needed with
    | .error e => (bm, .error e)
    | .ok bm =>
      if bm.numFreeBlocks < needed then
        (bm, .error (.outOfMemory r.requestId needed bm.numFreeBlocks))
      else
        let table := matchedBlockIds m ++ bm.freeBlockIds.take needed
        ({ bm with
          freeBlockIds := bm.freeBlockIds.drop needed
          blockTables := bm.blockTables.set r.requestId table }, .ok r)

/-- It is `allocate`, with what that leaves. -/
theorem BlockManager.allocate_eq_leaving (bm : BlockManager) (r : Request)
    (m : Option PrefixMatch) :
    bm.allocate r m =
      (bm.allocateLeaving r m).2.map fun r' => ((bm.allocateLeaving r m).1, r') := by
  unfold allocate allocateLeaving
  by_cases hid : r.requestId ∈ bm.blockTables
  · simp only [if_pos hid]
    rfl
  · simp only [if_neg hid]
    cases hdrain : (bm.acquireMatch r (m.or (bm.matchPrefix r.promptTokenIds))).1.drainEvictions
        (bm.neededFresh r (m.or (bm.matchPrefix r.promptTokenIds))) with
    | error e => rfl
    | ok bm' =>
      dsimp only
      rw [ok_bind]
      split
      · rfl
      · rfl

/-! ## Resumption -/

namespace Scheduler
variable {η : Type}

/-- `requests[id] = request`: a present key keeps its place. -/
def putRequest (s : Scheduler) (id : RequestId) : Scheduler :=
  { s with requests := if id ∈ s.requests then s.requests else s.requests ++ [id] }

/-- Continue a handoff: allocate its blocks, import its keys and values and put it among the
running requests. Returns the engine that is left, and the cache and the request if nothing was
raised; what a failed import wrote to the cache is not told. -/
def resumeDecode (s : Scheduler) (kv : PagedKVCache η) (handoff : PrefillHandoff η) :
    Scheduler × Except EngineError (PagedKVCache η × Request) :=
  let (blockManager, allocated) := s.blockManager.allocateLeaving handoff.request none
  let s := { s with blockManager }
  match allocated with
  | .error e => (s, .error e)
  | .ok r =>
    match kv.importRequestKv (blockManager.getBlockTable r) handoff.k handoff.v with
    | .error e => (s, .error e)
    | .ok kv =>
      let r := { r with numComputedTokens := handoff.promptTokenIds.length }
      let s := s.putRequest r.requestId
      ({ s with running := s.running ++ [r] }, .ok (kv, r))

/-- `del requests[id]` finds the id of each request that leaves. It may not once two requests
share an id. -/
def Deletes (s : Scheduler) (gone : List Request) : Prop :=
  (gone.map Request.requestId).Nodup ∧ ∀ r ∈ gone, r.requestId ∈ s.requests

instance (s : Scheduler) (gone : List Request) : Decidable (s.Deletes gone) :=
  inferInstanceAs (Decidable (_ ∧ _))

end Scheduler

end LightServe
