import LightServe.Engine.BlockManager
import Mathlib.Algebra.GroupWithZero.Nat

/-!
# The scheduler

The continuous-batching scheduler of `engine/scheduler.py`. Requests are values that live
in `waiting` or `running`; an output refers to a request by its id, where the source shares
the object. `requests` keeps the keys of the source's dictionary in insertion order.

The token budget is an integer: a speculative round may drive it below zero.

## Main definitions

* `Scheduler.scheduleRunning`, `Scheduler.scheduleWaiting` — the two passes of a step.
* `Scheduler.schedule` — one scheduling decision.
* `Scheduler.addRequest`, `Scheduler.freeFinishedRequests`, `Scheduler.abortRequests`.
-/

namespace LightServe

/-- One request's slice of an output. -/
structure ScheduledRequest where
  request : RequestId
  numScheduledTokens : ℕ
  deriving DecidableEq, Repr

/-- What one `schedule` call decided. -/
structure SchedulerOutput where
  /-- Requests admitted from `waiting`. -/
  scheduledNew : List ScheduledRequest := []
  /-- Requests that were already running. -/
  scheduledRunning : List ScheduledRequest := []
  /-- Requests bumped back to `waiting`, in the order they were bumped. -/
  preempted : List RequestId := []
  deriving DecidableEq, Repr

/-- Everything the model runner has to run. -/
def SchedulerOutput.scheduled (out : SchedulerOutput) : List ScheduledRequest :=
  out.scheduledNew ++ out.scheduledRunning

/-- How many tokens a step computes. -/
def SchedulerOutput.totalNumScheduledTokens (out : SchedulerOutput) : ℕ :=
  (out.scheduled.map ScheduledRequest.numScheduledTokens).sum

structure Scheduler where
  schedulerConfig : SchedulerConfig
  blockManager : BlockManager
  waiting : List Request := []
  running : List Request := []
  /-- Ids of the live requests, in the order they were added. -/
  requests : List RequestId := []

namespace Scheduler

def new (cache : CacheConfig) (config : SchedulerConfig)
    (hashFn : Option BlockHash → List Token → BlockHash) : Scheduler where
  schedulerConfig := config
  blockManager := .new cache hashFn

def addRequest (s : Scheduler) (r : Request) : Except EngineError Scheduler :=
  if r.requestId ∈ s.requests then .error (.duplicateRequestId r.requestId)
  else .ok { s with
    requests := s.requests ++ [r.requestId]
    waiting := s.waiting ++ [{ r with status := .waiting }] }

def hasUnfinishedRequests (s : Scheduler) : Bool := s.waiting.length + s.running.length > 0

/-! ## The running pass -/

/-- The mutable state of `_schedule_running`, its `pending` deque apart. -/
structure RunningPass where
  blockManager : BlockManager
  waiting : List Request
  /-- Requests already decided this step. -/
  scheduled : List Request := []
  output : SchedulerOutput := {}
  tokenBudget : ℤ

/-- Free a request's blocks, forget its progress and put it at the front of `waiting`. -/
def RunningPass.preempt (p : RunningPass) (r : Request) : Except EngineError RunningPass := do
  let (blockManager, r) ← p.blockManager.free r
  let r := { r with numComputedTokens := 0, status := .preempted }
  return { p with
    blockManager
    waiting := r :: p.waiting
    output := { p.output with preempted := p.output.preempted ++ [r.requestId] } }

/-- Whether a request is due a speculative verify round. -/
def isSpec (r : Request) : Bool := r.draftTokenIds ≠ []

/-- Tokens the running pass wants to schedule for a request. -/
def numNew (r : Request) : ℤ :=
  if isSpec r then (r.draftTokenIds.length : ℤ) + 1 else r.getNumNewTokens

/-- The part of `numNew` that goes into this step: all of a verify round, and what the
budget leaves of anything else. -/
def chunk (r : Request) (tokenBudget : ℤ) : ℤ :=
  if isSpec r then numNew r else min (numNew r) tokenBudget

/-- The room check of the running pass. -/
def fits (bm : BlockManager) (r : Request) (chunk : ℤ) : Bool :=
  if isSpec r then bm.canEnsureCapacity r (r.numComputedTokens + chunk).toNat
  else bm.canAppendSlot r

/-- Reserve the room that `fits` promised. -/
def reserve (bm : BlockManager) (r : Request) (chunk : ℤ) : Except EngineError BlockManager :=
  if isSpec r then bm.ensureCapacity r (r.numComputedTokens + chunk).toNat
  else bm.appendSlot r

/-- The inner loop: preempt from the tail of `pending` (given last first) until `r` fits,
and `r` itself when nothing else is left. The flag says whether `r` was kept. -/
def makeRoom (r : Request) (chunk : ℤ) :
    List Request → RunningPass → Except EngineError (Bool × List Request × RunningPass)
  | pendingRev, p =>
    if fits p.blockManager r chunk then .ok (true, pendingRev, p)
    else match pendingRev with
      | [] => do return (false, [], ← p.preempt r)
      | victim :: pendingRev => do makeRoom r chunk pendingRev (← p.preempt victim)

/-- Give a request its chunk. -/
def RunningPass.grant (p : RunningPass) (r : Request) (chunk : ℤ) :
    Except EngineError RunningPass := do
  let blockManager ← reserve p.blockManager r chunk
  return { p with
    blockManager
    scheduled := p.scheduled ++
      [{ r with numComputedTokens := (r.numComputedTokens + chunk).toNat }]
    output := { p.output with
      scheduledRunning := p.output.scheduledRunning ++ [⟨r.requestId, chunk.toNat⟩] }
    tokenBudget := p.tokenBudget - chunk }

/-- The outer loop over the `pending` deque. Every round takes at least one request off it,
so its initial length is enough fuel. -/
def runningLoop : ℕ → List Request → RunningPass → Except EngineError RunningPass
  | 0, _, p => .ok p
  | _, [], p => .ok p
  | fuel + 1, r :: pending, p =>
    if numNew r ≤ 0 ∨ p.tokenBudget ≤ 0 then
      runningLoop fuel pending { p with scheduled := p.scheduled ++ [r] }
    else do
      let c := chunk r p.tokenBudget
      let (kept, pendingRev, p) ← makeRoom r c pending.reverse p
      runningLoop fuel pendingRev.reverse (← if kept then p.grant r c else pure p)

def scheduleRunning (s : Scheduler) : Except EngineError RunningPass :=
  runningLoop s.running.length s.running
    { blockManager := s.blockManager, waiting := s.waiting
      tokenBudget := s.schedulerConfig.maxNumBatchedTokens }

/-! ## The waiting pass -/

/-- The mutable state of `_schedule_waiting`, the `waiting` deque apart. -/
structure WaitingPass where
  blockManager : BlockManager
  running : List Request
  scheduledNew : List ScheduledRequest := []
  tokenBudget : ℤ
  cacheHitContextBudget : ℤ

def matchedTokens (m : Option PrefixMatch) : ℕ := (m.map PrefixMatch.numMatchedTokens).getD 0

/-- The admission test of the waiting pass. -/
def admissible (c : SchedulerConfig) (p : WaitingPass) (r : Request) (m : Option PrefixMatch) :
    Bool :=
  p.running.length < c.maxNumSeqs ∧ ¬ p.tokenBudget ≤ 0 ∧
    (matchedTokens m : ℤ) ≤ p.cacheHitContextBudget ∧ p.blockManager.canAllocate r m

/-- Where an admitted request starts computing: after its match, but never past the last
prompt token, so that its step has a row to sample from. -/
def seededTokens (r : Request) (m : Option PrefixMatch) : ℤ :=
  match m with
  | none => r.numComputedTokens
  | some m => min (m.numMatchedTokens : ℤ) ((r.promptTokenIds.length : ℤ) - 1)

/-- Admit a request: allocate its blocks, seed its progress and give it its first chunk. -/
def WaitingPass.enter (p : WaitingPass) (r : Request) (m : Option PrefixMatch) :
    Except EngineError WaitingPass := do
  let (blockManager, r) ← p.blockManager.allocate r m
  let seeded := seededTokens r m
  let chunk := min ((r.getLen : ℤ) - seeded) p.tokenBudget
  return { p with
    blockManager
    running := p.running ++
      [{ r with status := .running, numComputedTokens := (seeded + chunk).toNat }]
    scheduledNew := p.scheduledNew ++ [⟨r.requestId, chunk.toNat⟩]
    tokenBudget := p.tokenBudget - chunk
    cacheHitContextBudget := p.cacheHitContextBudget - matchedTokens m }

/-- The admission loop: first in, first out, stopping at the first request that cannot be
admitted. Returns what still waits. -/
def waitingLoop (c : SchedulerConfig) :
    List Request → WaitingPass → Except EngineError (List Request × WaitingPass)
  | [], p => .ok ([], p)
  | r :: waiting, p =>
    let m := p.blockManager.matchPrefix r.promptTokenIds
    if admissible c p r m then do waitingLoop c waiting (← p.enter r m)
    else .ok (r :: waiting, p)

/-- The waiting pass starts from what the running pass left. -/
def waitingPass (c : SchedulerConfig) (p : RunningPass) : WaitingPass where
  blockManager := p.blockManager
  running := p.scheduled
  tokenBudget := p.tokenBudget
  cacheHitContextBudget := (c.maxCacheHitContextTokens.getD c.maxNumBatchedTokens : ℕ)

/-- One scheduling decision. A step that preempts admits nobody. -/
def schedule (s : Scheduler) : Except EngineError (Scheduler × SchedulerOutput) := do
  let p ← s.scheduleRunning
  if p.output.preempted ≠ [] then
    return ({ s with
      blockManager := p.blockManager, waiting := p.waiting, running := p.scheduled }, p.output)
  else do
    let (waiting, q) ← waitingLoop s.schedulerConfig p.waiting (waitingPass s.schedulerConfig p)
    return ({ s with blockManager := q.blockManager, waiting, running := q.running },
      { p.output with scheduledNew := q.scheduledNew })

/-! ## Teardown -/

/-- Free the blocks of finished requests, one after the other. -/
def freeAll (bm : BlockManager) : List Request → Except EngineError (BlockManager × List Request)
  | [] => .ok (bm, [])
  | r :: rs => do
    let (bm, r) ← bm.free r
    let (bm, rs) ← freeAll bm rs
    return (bm, r :: rs)

/-- Sweep the finished requests out of `running` and return them. -/
def freeFinishedRequests (s : Scheduler) : Except EngineError (Scheduler × List Request) := do
  let finished := s.running.filter Request.isFinished
  let (blockManager, finished) ← freeAll s.blockManager finished
  return ({ s with
    blockManager
    running := s.running.filter fun r => ¬ r.isFinished
    requests := s.requests.filter fun id => id ∉ finished.map Request.requestId }, finished)

/-- Cancel requests wherever they are and return them. -/
def abortRequests (s : Scheduler) (ids : List RequestId) :
    Except EngineError (Scheduler × List Request) := do
  let aborted := (s.waiting.filter fun r => r.requestId ∈ ids).map fun r : Request =>
    { r with status := .finishedAborted }
  let s := { s with
    waiting := s.waiting.filter fun r => r.requestId ∉ ids
    requests := s.requests.filter fun id => id ∉ aborted.map Request.requestId
    running := s.running.map fun r : Request =>
      if r.requestId ∈ ids then { r with status := .finishedAborted } else r }
  let (s, finished) ← s.freeFinishedRequests
  return (s, aborted ++ finished)

end Scheduler

end LightServe
