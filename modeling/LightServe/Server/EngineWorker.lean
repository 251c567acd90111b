import LightServe.Model.LLMEngine
import Mathlib.Logic.Function.Basic

/-!
# The engine worker

`EngineWorker` of `server/engine_worker.py`: clients put submissions and aborts on a queue, and
one thread drains it, sweeps timeouts, makes steps and hands out what they produced. The engine
is a parameter, the interface that the worker calls. Clients and the thread take turns in any
order; each constructor of `WorkerState.Next` is one action of one of them. Metrics are left out,
and clocks read anything.

## Main definitions

* `ServedEngine`, `LLMEngine.served` — the engine as the worker calls it.
* `WorkerState` — the queue, the stream table, the handles and where the thread is.
* `WorkerState.Next` — the actions of the clients and of the thread.
* `WorkerRun` — the states that actions lead to.
-/

namespace LightServe

/-- An item of a stream. -/
inductive StreamItem
  | streamToken (tokenId : Token)
  | streamEnd (finishReason : RequestStatus)
  deriving DecidableEq, Repr

/-- A stream handle; its queue is in the worker's state. -/
abbrev HandleId := ℕ

/-- What `submit` puts on the queue. -/
structure Submission where
  promptTokenIds : List Token
  samplingParams : SamplingParams
  requestId : RequestId
  timeout : Option ℕ
  handle : HandleId
  deriving DecidableEq

/-- An entry of the incoming queue. -/
inductive Incoming
  | submission (s : Submission)
  | abort (requestId : RequestId)

/-- The engine as the worker calls it. A step is told by its outcomes: the scheduled requests
as they are after it, and the finished ones. -/
structure ServedEngine (σ : Type) where
  addRequest : σ → RequestId → List Token → SamplingParams → Except EngineError σ
  step : σ → Except EngineError (σ × List Request × List Request) → Prop
  abortRequests : σ → List RequestId → Except EngineError (σ × List Request)
  hasUnfinishedRequests : σ → Bool

/-- The scheduled requests of a step as it leaves them. -/
def Scheduler.produced (s : Scheduler) (out : SchedulerOutput) (finished : List Request) :
    List Request :=
  out.scheduled.filterMap fun sr => (s.running ++ finished).find? fun r => r.requestId = sr.request

/-- `LLMEngine` as the worker calls it, with whatever its draft model proposes. -/
def LLMEngine.served (e : LLMEngine) : ServedEngine Scheduler where
  addRequest s id promptTokenIds params := s.addRequest (newRequest id promptTokenIds params)
  step s result := ∃ drafts, e.Proposes drafts ∧ result = do
    let (s', out, finished) ← e.step drafts s
    return (s', s'.produced out finished, finished)
  abortRequests := Scheduler.abortRequests
  hasUnfinishedRequests := Scheduler.hasUnfinishedRequests

/-- Where the engine thread goes on when it has finished some requests. -/
inductive AfterFinish
  | drain
  | step
  deriving DecidableEq

/-- Where the engine thread is. -/
inductive ThreadPhase
  /-- In `_drain_incoming`. -/
  | draining
  /-- Popped a submission. -/
  | handling (s : Submission)
  /-- Popped an abort. -/
  | aborting (requestId : RequestId)
  /-- In `_sweep_timeouts`. -/
  | sweeping
  /-- Before `has_unfinished_requests`. -/
  | stepping
  /-- In `_emit_tokens`. -/
  | emitting (scheduled finished : List Request)
  /-- In `_finish`. -/
  | finishing (requests : List Request) (next : AfterFinish)
  /-- In the drain of `_abort_everything`, with the handles found so far. -/
  | collecting (handles : List HandleId)
  /-- In the last loop of `_abort_everything`. -/
  | ending (handles : List HandleId)
  | dead
  deriving DecidableEq

/-- The phase in which the thread goes on. -/
def AfterFinish.phase : AfterFinish → ThreadPhase
  | .drain => .draining
  | .step => .stepping

/-- The state that clients and the engine thread share. -/
structure WorkerState (σ : Type) where
  engine : σ
  phase : ThreadPhase := .draining
  error : Option EngineError := none
  incoming : List Incoming := []
  streams : Dict RequestId HandleId := ∅
  deadlines : Dict RequestId ℕ := ∅
  /-- What was put on each handle so far. -/
  items : HandleId → List StreamItem := fun _ => []
  /-- The handle that the next `submit` makes. -/
  nextHandle : HandleId := 0
  /-- The handles whose `submit` has yet to read `error`. -/
  reading : List HandleId := []

namespace WorkerState
variable {σ : Type}

def putItem (w : WorkerState σ) (h : HandleId) (x : StreamItem) : WorkerState σ :=
  { w with items := Function.update w.items h (w.items h ++ [x]) }

/-- `submit` up to the put. -/
def put (w : WorkerState σ) (promptTokenIds : List Token) (samplingParams : SamplingParams)
    (requestId : RequestId) (timeout : Option ℕ) : WorkerState σ :=
  { w with
    incoming := w.incoming ++ [.submission
      { promptTokenIds, samplingParams, requestId, timeout, handle := w.nextHandle }]
    nextHandle := w.nextHandle + 1
    reading := w.nextHandle :: w.reading }

/-- The rest of `submit`. -/
def readError (w : WorkerState σ) (h : HandleId) : WorkerState σ :=
  let w := { w with reading := w.reading.erase h }
  if w.error.isSome then w.putItem h (.streamEnd .finishedAborted) else w

/-- `_handle_submission` once the engine has taken the request. -/
def register (w : WorkerState σ) (engine : σ) (s : Submission) (now : ℕ) : WorkerState σ :=
  { w with
    engine
    phase := .draining
    streams := w.streams.set s.requestId s.handle
    deadlines := match s.timeout with
      | some timeout => w.deadlines.set s.requestId (now + timeout)
      | none => w.deadlines }

/-- The ids whose deadline has passed. -/
def expired (w : WorkerState σ) (now : ℕ) : List RequestId :=
  (w.deadlines.entries.reverse.filter fun e => e.2 ≤ now).map Sigma.fst

/-- One request's token in `_emit_tokens`. -/
def emit (w : WorkerState σ) (r : Request) : WorkerState σ :=
  match w.streams.lookup r.requestId, r.outputTokenIds.getLast? with
  | some h, some t => w.putItem h (.streamToken t)
  | _, _ => w

/-- One request's teardown in `_finish`. -/
def finish (w : WorkerState σ) (r : Request) : WorkerState σ :=
  let streams := w.streams
  let w := { w with
    deadlines := w.deadlines.erase r.requestId
    streams := w.streams.erase r.requestId }
  match streams.lookup r.requestId with
  | some h => w.putItem h (.streamEnd r.status)
  | none => w

/-- The thread dies: record the error and take the handles of the stream table. -/
def die (w : WorkerState σ) (err : EngineError) : WorkerState σ :=
  { w with error := some err, phase := .collecting w.streams.values }

/-- Who acts. -/
inductive Action
  | put (promptTokenIds : List Token) (samplingParams : SamplingParams) (requestId : RequestId)
      (timeout : Option ℕ)
  | readError (h : HandleId)
  | abort (requestId : RequestId)
  | thread

/-- One action of a client or of the engine thread. -/
inductive Next (E : ServedEngine σ) : WorkerState σ → Action → WorkerState σ → Prop
  | put {w : WorkerState σ} (promptTokenIds : List Token) (samplingParams : SamplingParams)
      (requestId : RequestId) (timeout : Option ℕ) :
      Next E w (.put promptTokenIds samplingParams requestId timeout)
        (w.put promptTokenIds samplingParams requestId timeout)
  | readError {w : WorkerState σ} {h : HandleId} (hr : h ∈ w.reading) :
      Next E w (.readError h) (w.readError h)
  | abort {w : WorkerState σ} (requestId : RequestId) :
      Next E w (.abort requestId) { w with incoming := w.incoming ++ [.abort requestId] }
  | drainSubmission {w : WorkerState σ} {s : Submission} {rest : List Incoming}
      (hp : w.phase = .draining) (hi : w.incoming = .submission s :: rest) :
      Next E w .thread { w with incoming := rest, phase := .handling s }
  | drainAbort {w : WorkerState σ} {requestId : RequestId} {rest : List Incoming}
      (hp : w.phase = .draining) (hi : w.incoming = .abort requestId :: rest) :
      Next E w .thread { w with incoming := rest, phase := .aborting requestId }
  | drainEmpty {w : WorkerState σ} (hp : w.phase = .draining) (hi : w.incoming = []) :
      Next E w .thread { w with phase := .sweeping }
  | handle {w : WorkerState σ} {s : Submission} {engine : σ} (now : ℕ)
      (hp : w.phase = .handling s)
      (he : E.addRequest w.engine s.requestId s.promptTokenIds s.samplingParams = .ok engine) :
      Next E w .thread (w.register engine s now)
  | handleRaises {w : WorkerState σ} {s : Submission} {err : EngineError}
      (hp : w.phase = .handling s)
      (he : E.addRequest w.engine s.requestId s.promptTokenIds s.samplingParams = .error err) :
      Next E w .thread (w.die err)
  | abortRequests {w : WorkerState σ} {requestId : RequestId} {engine : σ} {gone : List Request}
      (hp : w.phase = .aborting requestId)
      (he : E.abortRequests w.engine [requestId] = .ok (engine, gone)) :
      Next E w .thread { w with engine, phase := .finishing gone .drain }
  | abortRaises {w : WorkerState σ} {requestId : RequestId} {err : EngineError}
      (hp : w.phase = .aborting requestId)
      (he : E.abortRequests w.engine [requestId] = .error err) :
      Next E w .thread (w.die err)
  | sweepNothing {w : WorkerState σ} (now : ℕ) (hp : w.phase = .sweeping)
      (hn : w.expired now = []) : Next E w .thread { w with phase := .stepping }
  | sweep {w : WorkerState σ} {engine : σ} {gone : List Request} (now : ℕ)
      (hp : w.phase = .sweeping) (hn : w.expired now ≠ [])
      (he : E.abortRequests w.engine (w.expired now) = .ok (engine, gone)) :
      Next E w .thread { w with engine, phase := .finishing gone .step }
  | sweepRaises {w : WorkerState σ} {err : EngineError} (now : ℕ)
      (hp : w.phase = .sweeping) (hn : w.expired now ≠ [])
      (he : E.abortRequests w.engine (w.expired now) = .error err) :
      Next E w .thread (w.die err)
  | idle {w : WorkerState σ} (hp : w.phase = .stepping)
      (hu : E.hasUnfinishedRequests w.engine = false) :
      Next E w .thread { w with phase := .draining }
  | step {w : WorkerState σ} {engine : σ} {scheduled finished : List Request}
      (hp : w.phase = .stepping) (hu : E.hasUnfinishedRequests w.engine = true)
      (he : E.step w.engine (.ok (engine, scheduled, finished))) :
      Next E w .thread { w with engine, phase := .emitting scheduled finished }
  | stepRaises {w : WorkerState σ} {err : EngineError} (hp : w.phase = .stepping)
      (hu : E.hasUnfinishedRequests w.engine = true) (he : E.step w.engine (.error err)) :
      Next E w .thread (w.die err)
  | emit {w : WorkerState σ} {r : Request} {scheduled finished : List Request}
      (hp : w.phase = .emitting (r :: scheduled) finished) :
      Next E w .thread { w.emit r with phase := .emitting scheduled finished }
  | emitted {w : WorkerState σ} {finished : List Request} (hp : w.phase = .emitting [] finished) :
      Next E w .thread { w with phase := .finishing finished .drain }
  | finish {w : WorkerState σ} {r : Request} {requests : List Request} {next : AfterFinish}
      (hp : w.phase = .finishing (r :: requests) next) :
      Next E w .thread { w.finish r with phase := .finishing requests next }
  | finished {w : WorkerState σ} {next : AfterFinish} (hp : w.phase = .finishing [] next) :
      Next E w .thread { w with phase := next.phase }
  | collectSubmission {w : WorkerState σ} {handles : List HandleId} {s : Submission}
      {rest : List Incoming} (hp : w.phase = .collecting handles)
      (hi : w.incoming = .submission s :: rest) :
      Next E w .thread { w with incoming := rest, phase := .collecting (handles ++ [s.handle]) }
  | collectAbort {w : WorkerState σ} {handles : List HandleId} {requestId : RequestId}
      {rest : List Incoming} (hp : w.phase = .collecting handles)
      (hi : w.incoming = .abort requestId :: rest) :
      Next E w .thread { w with incoming := rest }
  | collectEmpty {w : WorkerState σ} {handles : List HandleId} (hp : w.phase = .collecting handles)
      (hi : w.incoming = []) : Next E w .thread { w with phase := .ending handles }
  | endOne {w : WorkerState σ} {h : HandleId} {handles : List HandleId}
      (hp : w.phase = .ending (h :: handles)) :
      Next E w .thread { w.putItem h (.streamEnd .finishedAborted) with phase := .ending handles }
  | ended {w : WorkerState σ} (hp : w.phase = .ending []) :
      Next E w .thread { w with streams := ∅, phase := .dead }

end WorkerState

/-- The states that actions lead to when each meets `Meets` in the state it is taken in. -/
inductive WorkerRun {σ : Type} (E : ServedEngine σ)
    (Meets : WorkerState σ → WorkerState.Action → Prop) (start : σ) : WorkerState σ → Prop
  | start : WorkerRun E Meets start { engine := start }
  | next {w w' : WorkerState σ} {a : WorkerState.Action} (h : WorkerRun E Meets start w)
      (hm : Meets w a) (hn : w.Next E a w') : WorkerRun E Meets start w'

end LightServe
