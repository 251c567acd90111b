import LightServe.Model.ModelRunner

/-!
# The engine

`LLMEngine` of `model/llm_engine.py`: schedule, run the model, register computed prefixes,
correct the speculative over-advance, sweep out what finished and propose the next drafts.
The draft model is a parameter: a step takes the proposals it makes.

## Main definitions

* `LLMEngine.step`, `LLMEngine.generateLoop` — one engine iteration, and the loop over it.
* `LLMEngine.generate` — the batch entry point.
* `LLMEngine.Proposes` — what a draft proposer can return.
-/

namespace LightServe

namespace Scheduler

/-- Register the prompt progress of each scheduled request that started the step inside its
prompt. -/
def registerLoop : List ScheduledRequest → Scheduler → Except EngineError Scheduler
  | [], s => .ok s
  | sr :: scheduled, s =>
    match s.findRequest sr.request with
    | none => registerLoop scheduled s
    | some r =>
      if (r.numComputedTokens : ℤ) - sr.numScheduledTokens < r.promptTokenIds.length then do
        let (blockManager, r') ← s.blockManager.insertComputedPrefix r
        registerLoop scheduled
          ({ s with blockManager }.updateRequest r.requestId fun r =>
            { r with cachedPrefixNodes := r'.cachedPrefixNodes })
      else registerLoop scheduled s

/-- `step`'s registration stage; nothing to do when prefix caching is off. -/
def registerComputed (s : Scheduler) (out : SchedulerOutput) : Except EngineError Scheduler :=
  match s.blockManager.prefixCache with
  | none => .ok s
  | some _ => registerLoop out.scheduled s

/-- The first index of `newTokens` at which a stop condition holds. -/
def stopAt (params : SamplingParams) (preLen : ℕ) (newTokens : List Token) : Option ℕ :=
  newTokens.zipIdx.findIdx? fun (tok, i) =>
    some tok = params.eosTokenId ∨ preLen + i + 1 ≥ params.maxTokens

/-- Wind a request back to what a verify round of `numScheduled` rows really committed, cut
at the first stop condition. -/
def correctRound (preLen numScheduled : ℕ) (r : Request) : Request :=
  let accepted := r.outputTokenIds.length - preLen
  let newTokens := r.outputTokenIds.drop preLen
  let rewind (accepted : ℕ) (r : Request) : Request :=
    { r with
      numComputedTokens := r.numComputedTokens - (numScheduled - accepted)
      draftTokenIds := [] }
  match stopAt r.samplingParams preLen newTokens with
  | some k =>
    if k + 1 < accepted then
      rewind (k + 1) { r with
        outputTokenIds := r.outputTokenIds.take (preLen + k + 1)
        status := if newTokens[k]? = r.samplingParams.eosTokenId then .finishedStopped
          else .finishedLengthCapped }
    else rewind accepted r
  | none => rewind accepted r

/-- Output lengths of the running requests that enter a verify round. -/
def specPreLen (s : Scheduler) (out : SchedulerOutput) : List (RequestId × ℕ) :=
  (s.resolve out.scheduledRunning).filterMap fun (r, _) =>
    if r.draftTokenIds ≠ [] then some (r.requestId, r.outputTokenIds.length) else none

/-- The correction loop over the scheduled running requests. -/
def correctLoop (preLen : List (RequestId × ℕ)) :
    List ScheduledRequest → Scheduler → Scheduler
  | [], s => s
  | sr :: scheduled, s =>
    match preLen.lookup sr.request with
    | none => correctLoop preLen scheduled s
    | some n => correctLoop preLen scheduled
        (s.updateRequest sr.request (correctRound n sr.numScheduledTokens))

/-- Hand out the next proposals to the requests past their prompt. -/
def propose (s : Scheduler) (drafts : RequestId → List Token) : Scheduler :=
  { s with running := s.running.map fun r =>
      if r.isPrefill then r else { r with draftTokenIds := drafts r.requestId } }

end Scheduler

/-- The configuration of an engine. -/
structure LLMEngine where
  cacheConfig : CacheConfig
  schedulerConfig : SchedulerConfig
  runner : ModelRunner
  speculativeConfig : Option SpeculativeConfig := none
  hashFn : Option BlockHash → List Token → BlockHash

namespace LLMEngine

/-- The proposals of one step: none without a draft model, `K` tokens a request with one. -/
def Proposes (e : LLMEngine) (drafts : Option (RequestId → List Token)) : Prop :=
  match e.speculativeConfig, drafts with
  | none, none => True
  | some c, some d => ∀ id, (d id).length = c.numSpeculativeTokens
  | _, _ => False

def start (e : LLMEngine) : Scheduler := .new e.cacheConfig e.schedulerConfig e.hashFn

/-- A new request as `LLMEngine.add_request` builds it. -/
def newRequest (id : RequestId) (promptTokenIds : List Token) (params : SamplingParams) :
    Request :=
  { requestId := id, promptTokenIds, samplingParams := params }

/-- One engine iteration. `drafts` is what the draft proposer returns in it. -/
def step (e : LLMEngine) (drafts : Option (RequestId → List Token)) (s : Scheduler) :
    Except EngineError (Scheduler × SchedulerOutput × List Request) := do
  let (s, out) ← s.schedule
  let preLen := s.specPreLen out
  let s ← e.runner.executeModel s out
  let s ← s.registerComputed out
  let s := s.correctLoop preLen out.scheduledRunning
  let (s, finished) ← s.freeFinishedRequests
  let s := match drafts with
    | none => s
    | some d => s.propose d
  return (s, out, finished)

/-- The loop of `generate`, which steps while a request is unfinished, on an engine without a
draft model. Returns the requests that finished in it. -/
def generateLoop (e : LLMEngine) : ℕ → Scheduler → Except EngineError (Scheduler × List Request)
  | 0, s => .ok (s, [])
  | maxSteps + 1, s =>
    if s.hasUnfinishedRequests then do
      let (s, _, finished) ← e.step none s
      let (s, rest) ← e.generateLoop maxSteps s
      return (s, finished ++ rest)
    else .ok (s, [])

/-- Add a request for every prompt, under ids counted from `nextId`. Returns the ids, for the
objects that the source keeps, and the new count. -/
def addRequests (params : SamplingParams) :
    List (List Token) → ℕ → Scheduler → Except EngineError (Scheduler × ℕ × List RequestId)
  | [], nextId, s => .ok (s, nextId, [])
  | promptTokenIds :: prompts, nextId, s => do
    let s ← s.addRequest (newRequest nextId promptTokenIds params)
    let (s, nextId', ids) ← addRequests params prompts (nextId + 1) s
    return (s, nextId', nextId :: ids)

end LLMEngine

/-- A request's result. The reason is the request's status, also of one that has not finished. -/
structure GenerationOutput where
  requestId : RequestId
  promptTokenIds : List Token
  outputTokenIds : List Token
  finishReason : RequestStatus
  deriving DecidableEq, Repr

def GenerationOutput.of (r : Request) : GenerationOutput where
  requestId := r.requestId
  promptTokenIds := r.promptTokenIds
  outputTokenIds := r.outputTokenIds
  finishReason := r.status

/-- Submit every prompt, step until nothing is left or the cap is reached, and report on the
requests in the order of the prompts. The objects are by then among those that finished, run
or wait. -/
def LLMEngine.generate (e : LLMEngine) (prompts : List (List Token)) (params : SamplingParams)
    (maxSteps nextId : ℕ) (s : Scheduler) :
    Except EngineError (Scheduler × ℕ × List GenerationOutput) := do
  let (s, nextId, ids) ← addRequests params prompts nextId s
  let (s, finished) ← e.generateLoop maxSteps s
  let objects := finished ++ s.running ++ s.waiting
  return (s, nextId, ids.filterMap fun id =>
    (objects.find? fun r => r.requestId = id).map .of)

end LightServe
