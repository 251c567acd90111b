import LightServe.Lib.Traces
import LightServe.Model.LLMEngine
import LightServe.Model.PdDisaggregation
import Mathlib.Logic.Function.Basic

/-!
# The decode worker

`_DecodeWorker` of `server/pd_role_server.py`: clients put handoffs on a queue, and one thread
drains it, resumes each handoff on the engine, makes steps and answers the handoffs whose requests
have finished. The engine is a parameter, the interface that the worker calls. Clients and the
thread take turns in any order. The log of inter-token latencies and `stop` are left out.

## Main definitions

* `ServedDecoder`, `LLMEngine.decoder` — the engine as the worker calls it.
* `DecodeWorker` — the queue, the pending table, the done-queues and where the thread is.
* `DecodeWorker.Next` — the actions of the clients and of the thread.
* `DecodeWorkerRun` — the states that actions lead to.
* `DecodeWorker.act`, `DecodeWorker.play` — the thread's next action, and scripts of the worker.
-/

namespace LightServe

/-- A done-queue; what was put on it is in the worker's state. -/
abbrev QueueId := ℕ

/-- The engine as the decode worker calls it. A step is told by its outcomes: the requests that
finished in it. Nothing is called any more on an engine that has raised. -/
structure ServedDecoder (σ η : Type) where
  resumeDecode : σ → PrefillHandoff η → Except EngineError (σ × Request)
  step : σ → Except EngineError (σ × List Request) → Prop
  hasUnfinishedRequests : σ → Bool

/-- `LLMEngine` with its cache as the worker calls it, with whatever its draft model proposes and
whatever a step writes to the cache. -/
def LLMEngine.decoder (e : LLMEngine) (η : Type) :
    ServedDecoder (Scheduler × PagedKVCache η) η where
  resumeDecode x handoff :=
    match x.1.resumeDecode x.2 handoff with
    | (_, .error err) => .error err
    | (s, .ok (kv, r)) => .ok ((s, kv), r)
  step x result := ∃ drafts kv, e.Proposes drafts ∧ result = do
    let (s, _, finished) ← e.step drafts x.1
    if ¬ x.1.Deletes finished then throw .unknownRequest
    return ((s, kv), finished)
  hasUnfinishedRequests x := x.1.hasUnfinishedRequests

/-- Where the worker's thread is. -/
inductive DecodePhase (η : Type)
  /-- In `_drain_incoming`. -/
  | draining
  /-- Popped a handoff. -/
  | resuming (handoff : PrefillHandoff η) (queue : QueueId)
  /-- Before `has_unfinished_requests`. -/
  | stepping
  /-- In the last loop of `_check_finished`, with the requests whose ids are left. -/
  | answering (requests : List Request)
  | dead

/-- The state that clients and the worker's thread share. -/
structure DecodeWorker (σ η : Type) where
  engine : σ
  phase : DecodePhase η := .draining
  incoming : List (PrefillHandoff η × QueueId) := []
  /-- The done-queue of each request that is being decoded. -/
  pending : Dict RequestId QueueId := ∅
  /-- What was put on each done-queue so far. -/
  outcomes : QueueId → List (List Token × RequestStatus) := fun _ => []
  /-- The done-queue that the next `submit` makes. -/
  nextQueue : QueueId := 0

namespace DecodeWorker
variable {σ η : Type}

def submit (w : DecodeWorker σ η) (handoff : PrefillHandoff η) : DecodeWorker σ η :=
  { w with
    incoming := w.incoming ++ [(handoff, w.nextQueue)]
    nextQueue := w.nextQueue + 1 }

/-- The pending requests that finished in a step, in the order of the table. -/
def ended (w : DecodeWorker σ η) (finished : List Request) : List Request :=
  w.pending.entries.reverse.filterMap fun e => finished.find? fun r => r.requestId = e.1

/-- Answer one request that has finished. -/
def answer (w : DecodeWorker σ η) (r : Request) (queue : QueueId) : DecodeWorker σ η :=
  { w with
    pending := w.pending.erase r.requestId
    outcomes := Function.update w.outcomes queue
      (w.outcomes queue ++ [(r.outputTokenIds, r.status)]) }

/-- Who acts. -/
inductive Action (η : Type)
  | submit (handoff : PrefillHandoff η)
  | thread

/-- One action of a client or of the worker's thread. -/
inductive Next (E : ServedDecoder σ η) : DecodeWorker σ η → Action η → DecodeWorker σ η → Prop
  | submit {w : DecodeWorker σ η} (handoff : PrefillHandoff η) :
      Next E w (.submit handoff) (w.submit handoff)
  | drain {w : DecodeWorker σ η} {handoff : PrefillHandoff η} {queue : QueueId}
      {rest : List (PrefillHandoff η × QueueId)} (hp : w.phase = .draining)
      (hi : w.incoming = (handoff, queue) :: rest) :
      Next E w .thread { w with incoming := rest, phase := .resuming handoff queue }
  | drainEmpty {w : DecodeWorker σ η} (hp : w.phase = .draining) (hi : w.incoming = []) :
      Next E w .thread { w with phase := .stepping }
  | resume {w : DecodeWorker σ η} {handoff : PrefillHandoff η} {queue : QueueId} {engine : σ}
      {r : Request} (hp : w.phase = .resuming handoff queue)
      (he : E.resumeDecode w.engine handoff = .ok (engine, r)) :
      Next E w .thread
        { w with engine, phase := .draining, pending := w.pending.set r.requestId queue }
  | resumeRaises {w : DecodeWorker σ η} {handoff : PrefillHandoff η} {queue : QueueId}
      {err : EngineError} (hp : w.phase = .resuming handoff queue)
      (he : E.resumeDecode w.engine handoff = .error err) :
      Next E w .thread { w with phase := .dead }
  | idle {w : DecodeWorker σ η} (hp : w.phase = .stepping)
      (hu : E.hasUnfinishedRequests w.engine = false) :
      Next E w .thread { w with phase := .draining }
  | step {w : DecodeWorker σ η} {engine : σ} {finished : List Request} (hp : w.phase = .stepping)
      (hu : E.hasUnfinishedRequests w.engine = true)
      (he : E.step w.engine (.ok (engine, finished))) :
      Next E w .thread { w with engine, phase := .answering (w.ended finished) }
  | stepRaises {w : DecodeWorker σ η} {err : EngineError} (hp : w.phase = .stepping)
      (hu : E.hasUnfinishedRequests w.engine = true) (he : E.step w.engine (.error err)) :
      Next E w .thread { w with phase := .dead }
  | answer {w : DecodeWorker σ η} {r : Request} {requests : List Request} {queue : QueueId}
      (hp : w.phase = .answering (r :: requests)) (hq : w.pending.lookup r.requestId = some queue) :
      Next E w .thread { w.answer r queue with phase := .answering requests }
  | answered {w : DecodeWorker σ η} (hp : w.phase = .answering []) :
      Next E w .thread { w with phase := .draining }

end DecodeWorker

/-- The states that actions lead to when each meets `Meets` in the state it is taken in, with the
handoffs submitted so far; each has the done-queue of its place. -/
inductive DecodeWorkerRun {σ η : Type} (E : ServedDecoder σ η)
    (Meets : DecodeWorker σ η → DecodeWorker.Action η → Prop) (start : σ) :
    DecodeWorker σ η → List (PrefillHandoff η) → Prop
  | start : DecodeWorkerRun E Meets start { engine := start } []
  | submit {w : DecodeWorker σ η} {handoffs : List (PrefillHandoff η)} (handoff : PrefillHandoff η)
      (h : DecodeWorkerRun E Meets start w handoffs) (hm : Meets w (.submit handoff)) :
      DecodeWorkerRun E Meets start (w.submit handoff) (handoffs ++ [handoff])
  | thread {w w' : DecodeWorker σ η} {handoffs : List (PrefillHandoff η)}
      (h : DecodeWorkerRun E Meets start w handoffs) (hm : Meets w .thread)
      (hn : w.Next E .thread w') : DecodeWorkerRun E Meets start w' handoffs

/-! ## Scripted runs -/

namespace DecodeWorker
variable {σ η : Type} {E : ServedDecoder σ η} {w w' : DecodeWorker σ η}
  {result : σ → Except EngineError (σ × List Request)}

/-- The thread's next action when a step has its `result`. -/
def act (E : ServedDecoder σ η) (result : σ → Except EngineError (σ × List Request))
    (w : DecodeWorker σ η) : Option (DecodeWorker σ η) :=
  match w.phase with
  | .draining =>
    match w.incoming with
    | (handoff, queue) :: rest =>
      some { w with incoming := rest, phase := .resuming handoff queue }
    | [] => some { w with phase := .stepping }
  | .resuming handoff queue =>
    match E.resumeDecode w.engine handoff with
    | .ok (engine, r) =>
      some { w with engine, phase := .draining, pending := w.pending.set r.requestId queue }
    | .error _ => some { w with phase := .dead }
  | .stepping =>
    if E.hasUnfinishedRequests w.engine then
      match result w.engine with
      | .ok (engine, finished) => some { w with engine, phase := .answering (w.ended finished) }
      | .error _ => some { w with phase := .dead }
    else some { w with phase := .draining }
  | .answering (r :: requests) => (w.pending.lookup r.requestId).map fun queue =>
      { w.answer r queue with phase := .answering requests }
  | .answering [] => some { w with phase := .draining }
  | .dead => none

/-- What the thread does next is one of its actions. -/
theorem next_of_act (hresult : E.step w.engine (result w.engine))
    (h : w.act E result = some w') : w.Next E .thread w' := by
  cases hp : w.phase with
  | draining =>
    simp only [act, hp] at h
    split at h <;> cases h
    · exact .drain hp ‹_›
    · exact .drainEmpty hp ‹_›
  | resuming handoff queue =>
    simp only [act, hp] at h
    split at h <;> cases h
    · exact .resume hp ‹_›
    · exact .resumeRaises hp ‹_›
  | stepping =>
    simp only [act, hp] at h
    split at h
    · rename_i hu
      split at h <;> cases h
      · rename_i hstep
        exact .step hp hu (hstep ▸ hresult)
      · rename_i hstep
        exact .stepRaises hp hu (hstep ▸ hresult)
    · cases h
      exact .idle hp (Bool.eq_false_iff.mpr ‹_›)
  | answering requests =>
    cases requests with
    | nil =>
      simp only [act, hp] at h
      cases h
      exact .answered hp
    | cons r requests =>
      simp only [act, hp] at h
      obtain ⟨queue, hq, rfl⟩ := Option.map_eq_some_iff.mp h
      exact .answer hp hq
  | dead =>
    simp only [act, hp] at h
    cases h

/-- A client's submission, or the thread's next action, with the handoffs submitted so far. -/
def move (E : ServedDecoder σ η) (result : σ → Except EngineError (σ × List Request))
    (x : DecodeWorker σ η × List (PrefillHandoff η)) :
    Action η → Option (DecodeWorker σ η × List (PrefillHandoff η))
  | .submit handoff => some (x.1.submit handoff, x.2 ++ [handoff])
  | .thread => (x.1.act E result).map (·, x.2)

/-- A script played from an engine's start, of actions that meet `Meets`. -/
def play (E : ServedDecoder σ η) (result : σ → Except EngineError (σ × List Request))
    (Meets : DecodeWorker σ η → Action η → Prop) [∀ w a, Decidable (Meets w a)] (start : σ)
    (script : List (Action η)) : Option (DecodeWorker σ η × List (PrefillHandoff η)) :=
  Trace.play (move E result) (fun x => Meets x.1) ({ engine := start }, []) script

end DecodeWorker

theorem DecodeWorkerRun.of_play {σ η : Type} {E : ServedDecoder σ η}
    {result : σ → Except EngineError (σ × List Request)}
    {Meets : DecodeWorker σ η → DecodeWorker.Action η → Prop} [∀ w a, Decidable (Meets w a)]
    {start : σ} {script : List (DecodeWorker.Action η)} {w : DecodeWorker σ η}
    {handoffs : List (PrefillHandoff η)} (hresult : ∀ x, E.step x (result x))
    (h : DecodeWorker.play E result Meets start script = some (w, handoffs)) :
    DecodeWorkerRun E Meets start w handoffs := by
  have hrun := Trace.invariant_of_play (I := fun x => DecodeWorkerRun E Meets start x.1 x.2)
    (fun x a _ x' hx hm hact => ?_) h .start
  · exact hrun
  · cases a with
    | submit handoff =>
      cases hact
      exact hx.submit handoff hm
    | thread =>
      obtain ⟨w', hw, rfl⟩ := Option.map_eq_some_iff.mp hact
      exact hx.thread hm (DecodeWorker.next_of_act (hresult x.1.engine) hw)

/-- A step of `LLMEngine` as the worker calls it, without a draft model, that leaves the cache. -/
def LLMEngine.decoderOutcome (e : LLMEngine) {η : Type} (x : Scheduler × PagedKVCache η) :
    Except EngineError ((Scheduler × PagedKVCache η) × List Request) := do
  let (s, _, finished) ← e.step none x.1
  if ¬ x.1.Deletes finished then throw .unknownRequest
  return ((s, x.2), finished)

end LightServe
