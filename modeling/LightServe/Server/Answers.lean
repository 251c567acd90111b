import LightServe.Server.Delivery
import LightServe.Server.Responses
import LightServe.Serving.Transparent

/-!
# Answers

The whole stack: handlers, the worker, the engine with its scheduler and blocks, and the forward
pass over the paged cache. In a run whose steps are faithful and give everyone one output each,
whoever reads a response to its end reads the greedy decoding of its own prompt, or what there was
of it when the request was aborted.

## Main definitions

* `CachedEngine.served` — the engine with its cache, as the worker calls it.
* `Request.Answered` — what a finished request owes its client.
* `WorkerState.Answering` — the invariant of the worker, by what was asked on each handle.
* `answers_of_run` — what clients read.
-/

namespace LightServe

open Scheduler

variable {κ : Type}

/-! ## The engine with its cache behind the worker -/

/-- The engine with its cache, as the worker calls it. -/
def CachedEngine.served (e : CachedEngine κ) : ServedEngine (Scheduler × KvCache κ) where
  addRequest s id promptTokenIds params := do
    let engine ← s.1.addRequest (LLMEngine.newRequest id promptTokenIds params)
    return (engine, s.2)
  step s result := ∃ drafts, e.toLLMEngine.Proposes drafts ∧ result = do
    let ((engine, out, finished), kv) ← e.step drafts s.1 s.2
    return ((engine, kv), engine.produced out finished, finished)
  abortRequests s ids := do
    let (engine, gone) ← s.1.abortRequests ids
    return ((engine, s.2), gone)
  hasUnfinishedRequests s := s.1.hasUnfinishedRequests

/-- A step of the engine with its cache, with proposals that depend on the state. -/
def CachedEngine.outcome (e : CachedEngine κ) (drafts : Scheduler → Option (RequestId → List Token))
    (s : Scheduler × KvCache κ) :
    Except EngineError ((Scheduler × KvCache κ) × List Request × List Request) := do
  let ((engine, out, finished), kv) ← e.step (drafts s.1) s.1 s.2
  return ((engine, kv), engine.produced out finished, finished)

theorem CachedEngine.served_step_outcome (e : CachedEngine κ)
    (drafts : Scheduler → Option (RequestId → List Token))
    (hd : ∀ s, e.toLLMEngine.Proposes (drafts s)) (s : Scheduler × KvCache κ) :
    e.served.step s (e.outcome drafts s) := ⟨drafts s.1, hd s.1, rfl⟩

/-- The worker of an engine without its cache. -/
def WorkerState.plain (w : WorkerState (Scheduler × KvCache κ)) : WorkerState Scheduler where
  engine := w.engine.1
  phase := w.phase
  error := w.error
  incoming := w.incoming
  streams := w.streams
  deadlines := w.deadlines
  items := w.items
  nextHandle := w.nextHandle
  reading := w.reading

namespace WorkerState
variable {e : CachedEngine κ} {w w' : WorkerState (Scheduler × KvCache κ)} {a : Action}

theorem plain_emit (r : Request) : (w.emit r).plain = w.plain.emit r := by
  unfold emit
  dsimp only [plain]
  split <;> rfl

theorem plain_finish (r : Request) : (w.finish r).plain = w.plain.finish r := by
  unfold finish
  dsimp only [plain]
  split <;> rfl

theorem plain_readError (h : HandleId) : (w.readError h).plain = w.plain.readError h := by
  unfold readError
  dsimp only [plain]
  split <;> rfl

/-- Where a step of the engine is one without the cache, so is an action. -/
theorem Next.plain (hn : w.Next e.served a w') (he' : w'.error = none)
    (hstep : ∀ {engine : Scheduler × KvCache κ} {scheduled finished : List Request},
      a = .thread → w.phase = .stepping →
        e.served.step w.engine (.ok (engine, scheduled, finished)) →
          e.toLLMEngine.served.step w.engine.1 (.ok (engine.1, scheduled, finished))) :
    w.plain.Next e.toLLMEngine.served a w'.plain := by
  cases hn with
  | put => exact .put ..
  | readError hr =>
    rw [plain_readError]
    exact .readError hr
  | abort => exact .abort _
  | drainSubmission hp hi => exact .drainSubmission hp hi
  | drainAbort hp hi => exact .drainAbort hp hi
  | drainEmpty hp hi => exact .drainEmpty hp hi
  | handle now hp he =>
    obtain ⟨engine, hadd, hret⟩ := bind_eq_ok.mp he
    cases hret
    exact .handle now hp hadd
  | abortRequests hp he =>
    obtain ⟨⟨engine, gone⟩, habort, hret⟩ := bind_eq_ok.mp he
    cases hret
    exact .abortRequests hp habort
  | sweepNothing now hp hn => exact .sweepNothing now hp hn
  | sweep now hp hn he =>
    obtain ⟨⟨engine, gone⟩, habort, hret⟩ := bind_eq_ok.mp he
    cases hret
    exact .sweep now hp hn habort
  | idle hp hu => exact .idle hp hu
  | step hp hu he => exact .step hp hu (hstep rfl hp he)
  | @emit r scheduled finished hp =>
    have htarget : WorkerState.plain { w.emit r with phase := .emitting scheduled finished } =
        { w.plain.emit r with phase := .emitting scheduled finished } := by
      rw [← plain_emit]
      rfl
    rw [htarget]
    exact .emit hp
  | emitted hp => exact .emitted hp
  | @finish r requests next hp =>
    have htarget : WorkerState.plain { w.finish r with phase := .finishing requests next } =
        { w.plain.finish r with phase := .finishing requests next } := by
      rw [← plain_finish]
      rfl
    rw [htarget]
    exact .finish hp
  | finished hp => exact .finished hp
  | collectSubmission hp hi => exact .collectSubmission hp hi
  | collectAbort hp hi => exact .collectAbort hp hi
  | collectEmpty hp hi => exact .collectEmpty hp hi
  | endOne hp => exact .endOne hp
  | ended hp => exact .ended hp
  | handleRaises | abortRaises | sweepRaises | stepRaises => cases he'

end WorkerState

/-! ## Requests and what they were -/

/-- Whatever a step does to a request, it is the one that arrived. -/
theorem LLMEngine.StepSpec.origin {e : LLMEngine} {drafts : Option (RequestId → List Token)}
    {s s' s₁ : Scheduler} {out : SchedulerOutput} {finished : List Request} {plan : List Decision}
    {victims : List Request} {as : List Admission} {turned : Request → Request}
    (st : e.StepSpec drafts s s' out finished s₁ plan victims as turned) {r' : Request}
    (hr : r' ∈ s'.running ++ s'.waiting ++ finished) :
    ∃ r ∈ s.running ++ s.waiting, r'.origin = r.origin := by
  have hturned : ∀ q ∈ s₁.running, ∃ r ∈ s.running ++ s.waiting, (turned q).origin = r.origin := by
    intro q hq
    obtain ⟨r, hr, hc, -⟩ := st.trace.origin (List.mem_append_left _ hq)
    have hsame := e.sameRequest_turn out q
    obtain ⟨nodes, hren⟩ := st.renoded q
    refine ⟨r, hr, ?_⟩
    rw [hren]
    simp only [Request.origin, hsame.requestId, hsame.promptTokenIds, hsame.samplingParams,
      hc.requestId, hc.promptTokenIds, hc.samplingParams]
  rw [List.append_assoc, List.mem_append, List.mem_append] at hr
  rcases hr with hr | hr | hr
  · rw [st.running] at hr
    obtain ⟨q', hq', rfl⟩ := List.mem_map.mp hr
    obtain ⟨q, hq, rfl⟩ := List.mem_map.mp (List.mem_filter.mp hq').1
    obtain ⟨r, hr, horigin⟩ := hturned q hq
    have hsame := sameRequest_proposed drafts (turned q)
    refine ⟨r, hr, horigin ▸ ?_⟩
    simp only [Request.origin, hsame.requestId, hsame.promptTokenIds, hsame.samplingParams]
  · rw [st.waiting] at hr
    obtain ⟨r, hr, hc, -⟩ := st.trace.origin (List.mem_append_right _ hr)
    refine ⟨r, hr, ?_⟩
    simp only [Request.origin, hc.requestId, hc.promptTokenIds, hc.samplingParams]
  · obtain ⟨q, hq, -, nodes, rfl⟩ := st.finished r' hr
    exact hturned q hq

/-- Whom an abort returns was unfinished, and is aborted now. -/
theorem Scheduler.aborted_of_abortRequests {s s' : Scheduler} {ids : List RequestId}
    {gone : List Request} (hunfinished : ∀ r ∈ s.running, r.isFinished = false)
    (h : s.abortRequests ids = .ok (s', gone)) {r' : Request} (hr : r' ∈ gone) :
    ∃ r ∈ s.running ++ s.waiting, r'.origin = r.origin ∧ r'.outputTokenIds = r.outputTokenIds ∧
      r'.status = .finishedAborted := by
  obtain ⟨⟨s₁, finished⟩, hfree, hret⟩ := bind_eq_ok.mp h
  cases hret
  rcases List.mem_append.mp hr with hr | hr
  · obtain ⟨q, hq, rfl⟩ := List.mem_map.mp hr
    exact ⟨q, List.mem_append_right _ (List.mem_filter.mp hq).1, rfl, rfl, rfl⟩
  · obtain ⟨q, hq, hfin, nodes, rfl⟩ := finished_of_sweep hfree hr
    obtain ⟨p, hp, rfl⟩ := List.mem_map.mp hq
    refine ⟨p, List.mem_append_left _ hp, ?_⟩
    by_cases hid : p.requestId ∈ ids
    · rw [if_pos hid]
      exact ⟨rfl, rfl, rfl⟩
    · rw [if_neg hid, hunfinished p hp] at hfin
      cases hfin

/-- What a request that has left the engine owes its client: its greedy decoding, or what there was
of it. -/
def Request.Answered (next : List Token → Token) (r : Request) : Prop :=
  r.Lossless next ∨ r.status = .finishedAborted ∧
    Decode.Decoding next (stopStatus r.samplingParams) r.promptTokenIds r.outputTokenIds

/-! ## What was asked -/

/-- The request of a submission. -/
def Submission.request (s : Submission) : Request :=
  LLMEngine.newRequest s.requestId s.promptTokenIds s.samplingParams

namespace WorkerState

/-- What must hold of an action: a step is faithful and gives everyone one output, and who submits
asks for something. -/
def Answerable (e : CachedEngine κ) (w : WorkerState (Scheduler × KvCache κ)) : Action → Prop
  | .thread => w.phase = .stepping → w.engine.1.OneEach e.toLLMEngine ∧ e.Faithful w.engine.1
  | .put promptTokenIds samplingParams _ _ => promptTokenIds ≠ [] ∧ 0 < samplingParams.maxTokens
  | _ => True

instance (e : CachedEngine κ) (w : WorkerState (Scheduler × KvCache κ)) :
    (a : Action) → Decidable (w.Answerable e a)
  | .put .. => inferInstanceAs (Decidable (_ ∧ _))
  | .thread => inferInstanceAs (Decidable (_ → _))
  | .readError _ | .abort _ => .isTrue trivial

/-- When `asked` was submitted on the handles, in order: the engine has got there by a faithful run,
every stream is that of its own request, and every end has come with an answer. -/
structure Answering (e : CachedEngine κ) (prompts : Set (List Token)) (asked : List Request)
    (w : WorkerState (Scheduler × KvCache κ)) : Prop where
  servable : ∀ r ∈ asked, r.Servable ∧ r.promptTokenIds ∈ prompts
  run : ∃ arrived ran, e.Run Request.Servable e.Faithful w.engine.1 w.engine.2 arrived ran ∧
    ∀ r ∈ arrived, r.promptTokenIds ∈ prompts
  worker : WorkerRun e.toLLMEngine.served (Emits e.toLLMEngine) e.toLLMEngine.start w.plain
  queue : ∀ s, .submission s ∈ w.incoming ∨ w.phase = .handling s →
    asked[s.handle]? = some s.request
  table : ∀ q ∈ w.plain.requests, ∀ h, w.streams.lookup q.requestId = some h →
    asked[h]? = some q.origin
  returned : ∀ r ∈ w.phase.returned, r.Answered e.runner.model.next
  ended : ∀ h, w.Ended h → ∃ r : Request,
    asked[h]? = some r.origin ∧ r.Answered e.runner.model.next ∧
    w.items h = r.outputTokenIds.map .streamToken ++ [.streamEnd r.status]

/-- As long as the thread lives, the streams are exact. -/
theorem Streamed.of_alive {e : LLMEngine} {w : WorkerState Scheduler}
    (h : WorkerRun e.served (Emits e) e.start w) (he : w.error = none) : w.Streamed := by
  induction h with
  | start => exact .start e
  | next hrun hm hn ih =>
    obtain ⟨halive, -⟩ := hn.of_alive he
    obtain ⟨t, hs⟩ := tracked_of_alive e.served_lawful ⟨rfl, List.nodup_nil⟩ hrun halive
    exact (ih halive).next t hs hm hn halive he

namespace Answering
variable {e : CachedEngine κ} {prompts : Set (List Token)} {asked : List Request}
  {w w' : WorkerState (Scheduler × KvCache κ)}

/-- The thread goes on with the same engine, and nothing is put. -/
theorem goOn (h : w.Answering e prompts asked) (hengine : w'.engine = w.engine)
    (hitems : w'.items = w.items) (hstreams : w'.streams = w.streams)
    (hreturned : w'.phase.returned = w.phase.returned)
    (hqueue : ∀ s, .submission s ∈ w'.incoming ∨ w'.phase = .handling s →
      .submission s ∈ w.incoming ∨ w.phase = .handling s)
    (hworker : WorkerRun e.toLLMEngine.served (Emits e.toLLMEngine) e.toLLMEngine.start w'.plain) :
    w'.Answering e prompts asked := by
  have hrequests : w'.plain.requests = w.plain.requests := by
    show w'.engine.1.running ++ w'.engine.1.waiting ++ w'.phase.returned = _
    rw [hengine, hreturned]
    rfl
  refine ⟨h.servable, hengine ▸ h.run, hworker, fun s hs => h.queue s (hqueue s hs), ?_,
    hreturned ▸ h.returned, fun i hi => ?_⟩
  · rw [hrequests, hstreams]
    exact h.table
  · rw [hitems]
    exact h.ended i (by rwa [Ended, hitems] at hi)

/-- A handle that had its end keeps its items. -/
theorem ended_of_ended (h : w.Answering e prompts asked) (t' : w'.plain.Tracked) {i : HandleId}
    (hpre : w.items i <+: w'.items i) (hi : w.Ended i) : ∃ r : Request, asked[i]? = some r.origin ∧
      r.Answered e.runner.model.next ∧
        w'.items i = r.outputTokenIds.map .streamToken ++ [.streamEnd r.status] := by
  obtain ⟨r, hasked, hanswered, hitems⟩ := h.ended i hi
  refine ⟨r, hasked, hanswered, ?_⟩
  obtain ⟨more, hmore⟩ := hpre
  rcases List.eq_nil_or_concat more with rfl | ⟨more, x, rfl⟩
  · rw [← hmore, List.append_nil, hitems]
  · -- an item behind an end
    have hlast := t'.last i
    have hitems' : w'.plain.items i = w.items i ++ more ++ [x] := by
      rw [← List.concat_eq_append, ← List.append_concat]
      exact hmore.symm
    rw [hitems', List.dropLast_concat] at hlast
    exact absurd rfl (hlast (.streamEnd r.status) (by rw [hitems]; simp))

/-- The engine has returned some requests, each of which owes an answer. -/
theorem returns (h : w.Answering e prompts asked) (hitems : w'.items = w.items)
    (hstreams : w'.streams = w.streams)
    (hqueue : ∀ s, .submission s ∈ w'.incoming ∨ w'.phase = .handling s →
      .submission s ∈ w.incoming ∨ w.phase = .handling s)
    (hrun : ∃ arrived ran, e.Run Request.Servable e.Faithful w'.engine.1 w'.engine.2 arrived ran ∧
      ∀ r ∈ arrived, r.promptTokenIds ∈ prompts)
    (hworker : WorkerRun e.toLLMEngine.served (Emits e.toLLMEngine) e.toLLMEngine.start w'.plain)
    (horigin : ∀ r' ∈ w'.plain.requests, ∃ r ∈ w.engine.1.running ++ w.engine.1.waiting,
      r'.origin = r.origin)
    (hreturned : ∀ r ∈ w'.phase.returned, r.Answered e.runner.model.next) :
    w'.Answering e prompts asked := by
  refine ⟨h.servable, hrun, hworker, fun s hs => h.queue s (hqueue s hs), fun q hq i hl => ?_,
    hreturned, fun i hi => ?_⟩
  · obtain ⟨r, hr, heq⟩ := horigin q hq
    have hid : q.requestId = r.requestId := by
      show q.origin.requestId = r.origin.requestId
      rw [heq]
    rw [heq]
    refine h.table r (List.mem_append_left _ hr) i ?_
    rw [← hid, ← hstreams]
    exact hl
  · rw [hitems]
    exact h.ended i (by rwa [Ended, hitems] at hi)

/-- A last output is handed out. -/
theorem emit (h : w.Answering e prompts asked) {r : Request} {scheduled finished : List Request}
    (hp : w.phase = .emitting (r :: scheduled) finished)
    (hw' : w' = { w.emit r with phase := .emitting scheduled finished })
    (hworker : WorkerRun e.toLLMEngine.served (Emits e.toLLMEngine) e.toLLMEngine.start w'.plain)
    (t' : w'.plain.Tracked) (hpre : ∀ i, w.items i <+: w'.items i) :
    w'.Answering e prompts asked := by
  have heq : w' = { w with items := (w.emit r).items, phase := .emitting scheduled finished } := by
    rw [hw', emit_eq]
  have hitems : w'.items = (w.plain.emit r).items := by
    rw [hw', ← plain_emit]
    rfl
  refine ⟨h.servable, ?_, hworker, fun s hs => ?_, ?_, ?_, fun i hi => ?_⟩
  · rw [heq]
    exact h.run
  · rw [heq] at hs
    exact h.queue s (.inl (hs.resolve_right (by simp)))
  · have hrequests : w'.plain.requests = w.plain.requests := by
      rw [heq]
      show _ ++ _ ++ _ = w.engine.1.running ++ w.engine.1.waiting ++ w.phase.returned
      rw [hp]
      rfl
    rw [hrequests, heq]
    exact h.table
  · have hreturned := h.returned
    rw [hp] at hreturned
    rw [heq]
    exact hreturned
  · refine h.ended_of_ended t' (hpre i) ?_
    rw [Ended, hitems] at hi
    by_cases hl : w.plain.streams.lookup r.requestId = some i
    · rw [emit_items_of_lookup hl] at hi
      obtain ⟨x, hx, hend⟩ := hi
      rcases List.mem_append.mp hx with hx | hx
      · exact ⟨x, hx, hend⟩
      · obtain ⟨t, -, rfl⟩ := List.mem_map.mp hx
        cases hend
    · rwa [emit_items_of_ne hl] at hi

/-- A request is finished, and answered. -/
theorem finish (h : w.Answering e prompts asked) (st : w.plain.Streamed) {r : Request}
    {requests : List Request} {next : AfterFinish} (hp : w.phase = .finishing (r :: requests) next)
    (hw' : w' = { w.finish r with phase := .finishing requests next })
    (hworker : WorkerRun e.toLLMEngine.served (Emits e.toLLMEngine) e.toLLMEngine.start w'.plain)
    (t' : w'.plain.Tracked) (hpre : ∀ i, w.items i <+: w'.items i) :
    w'.Answering e prompts asked := by
  obtain ⟨hincoming, -, hengine, -, -, hstreams⟩ := finish_eq w r
  have hreturned : ∀ q ∈ r :: requests, q.Answered e.runner.model.next := by
    have hreturned := h.returned
    rwa [hp] at hreturned
  have hmem : r ∈ w.plain.requests := by
    show r ∈ w.engine.1.running ++ w.engine.1.waiting ++ w.phase.returned
    rw [hp]
    exact List.mem_append_right _ List.mem_cons_self
  have hitems : w'.items = (w.plain.finish r).items := by
    rw [hw', ← plain_finish]
    rfl
  subst hw'
  refine ⟨h.servable, ?_, hworker, fun s hs => ?_, fun q hq i hl => ?_,
    fun q hq => hreturned q (List.mem_cons_of_mem _ hq), fun i hi => ?_⟩
  · show ∃ arrived ran, e.Run _ _ (w.finish r).engine.1 (w.finish r).engine.2 arrived ran ∧ _
    rw [hengine]
    exact h.run
  · refine h.queue s (.inl ?_)
    have hs' := hs.resolve_right (by simp)
    rw [← hincoming]
    exact hs'
  · have hq' : q ∈ w.plain.requests := by
      have hq' : q ∈ w.engine.1.running ++ w.engine.1.waiting ++ requests := hengine ▸ hq
      show q ∈ w.engine.1.running ++ w.engine.1.waiting ++ w.phase.returned
      rw [hp]
      rcases List.mem_append.mp hq' with hq' | hq'
      · exact List.mem_append_left _ hq'
      · exact List.mem_append_right _ (List.mem_cons_of_mem _ hq')
    replace hl : (w.streams.erase r.requestId).lookup q.requestId = some i := hstreams ▸ hl
    by_cases hid : q.requestId = r.requestId
    · rw [hid, AList.lookup_erase] at hl
      cases hl
    · rw [AList.lookup_erase_ne hid] at hl
      exact h.table q hq' i hl
  · by_cases hl : w.plain.streams.lookup r.requestId = some i
    · have hexact := st.exact r hmem i hl
      have howed : w.plain.phase.owed = [] := by
        show w.phase.owed = []
        rw [hp]
        rfl
      rw [howed] at hexact
      refine ⟨r, h.table r hmem i hl, hreturned r List.mem_cons_self, ?_⟩
      rw [hitems, finish_items_of_lookup hl, hexact]
      rfl
    · refine h.ended_of_ended t' (hpre i) ?_
      rw [Ended, hitems, finish_items_of_ne hl] at hi
      exact hi

/-- The engine takes a submission. -/
theorem handle (h : w.Answering e prompts asked)
    (hs : w.plain.Serves InOrder Scheduler.requests) {s : Submission}
    {engine : Scheduler × KvCache κ} (now : ℕ) (hp : w.phase = .handling s)
    (he : e.served.addRequest w.engine s.requestId s.promptTokenIds s.samplingParams = .ok engine)
    (hworker : WorkerRun e.toLLMEngine.served (Emits e.toLLMEngine) e.toLLMEngine.start
      (w.register engine s now).plain) : (w.register engine s now).Answering e prompts asked := by
  have hasked := h.queue s (.inr hp)
  obtain ⟨hservable, hprompt⟩ := h.servable _ (List.mem_of_getElem? hasked)
  obtain ⟨engine', hadd, hret⟩ := bind_eq_ok.mp he
  cases hret
  obtain ⟨-, hnew, -⟩ := e.toLLMEngine.served_lawful.addRequest hs.inv hadd
  have hengine := addRequest_eq hadd
  refine ⟨h.servable, ?_, hworker, fun s' hs' => ?_, fun q hq i hl => ?_,
    fun r hr => absurd hr List.not_mem_nil, h.ended⟩
  · obtain ⟨arrived, ran, hrun, hp⟩ := h.run
    refine ⟨_, ran,
      .addRequest s.requestId s.promptTokenIds s.samplingParams hrun hservable hadd, ?_⟩
    rw [List.forall_mem_append, List.forall_mem_singleton]
    exact ⟨hp, hprompt⟩
  · exact h.queue s' (.inl (hs'.resolve_right (by simp [register])))
  · replace hl : (w.streams.set s.requestId s.handle).lookup q.requestId = some i := hl
    rw [Dict.lookup_set] at hl
    have hq' : q ∈ w.plain.requests ∨ q = s.request := by
      have hq' : q ∈ engine'.running ++ engine'.waiting ++ [] := hq
      show q ∈ w.engine.1.running ++ w.engine.1.waiting ++ w.phase.returned ∨ _
      rw [hengine] at hq'
      rw [hp]
      simpa [ThreadPhase.returned, Submission.request, or_assoc] using hq'
    rcases hq' with hq' | rfl
    · have hne : q.requestId ≠ s.requestId := by
        intro hid
        rw [← hid, ← hs.inv.ids] at hnew
        refine hnew (List.mem_map_of_mem ?_)
        replace hq' : q ∈ w.engine.1.running ++ w.engine.1.waiting ++ w.phase.returned := hq'
        rw [hp] at hq'
        exact (List.append_nil _).subst hq'
      rw [if_neg hne] at hl
      exact h.table q hq' i hl
    · rw [if_pos (by rfl)] at hl
      obtain rfl := Option.some.inj hl
      exact hasked

/-- A submission that asks for something. -/
theorem put (h : w.Answering e prompts asked) {promptTokenIds : List Token}
    {samplingParams : SamplingParams} {requestId : RequestId} {timeout : Option ℕ}
    (hlen : asked.length = w.nextHandle)
    (hservable : (LLMEngine.newRequest requestId promptTokenIds samplingParams).Servable)
    (hprompt : promptTokenIds ∈ prompts)
    (hworker : WorkerRun e.toLLMEngine.served (Emits e.toLLMEngine) e.toLLMEngine.start
      (w.put promptTokenIds samplingParams requestId timeout).plain) :
    (w.put promptTokenIds samplingParams requestId timeout).Answering e prompts
      (asked ++ [LLMEngine.newRequest requestId promptTokenIds samplingParams]) := by
  have hmore : ∀ {i : HandleId} {r : Request}, asked[i]? = some r →
      (asked ++ [LLMEngine.newRequest requestId promptTokenIds samplingParams])[i]? = some r :=
    fun hi => by
      rw [List.getElem?_append_left (List.getElem?_eq_some_iff.mp hi).1]
      exact hi
  refine ⟨?_, h.run, hworker, fun s hs => ?_, fun q hq i hl => hmore (h.table q hq i hl),
    h.returned,
    fun i hi => ?_⟩
  · rw [List.forall_mem_append, List.forall_mem_singleton]
    exact ⟨h.servable, hservable, hprompt⟩
  · have hs' : (.submission s ∈ w.incoming ∨ w.phase = .handling s) ∨
        s = ⟨promptTokenIds, samplingParams, requestId, timeout, w.nextHandle⟩ := by
      simpa [WorkerState.put, or_assoc, or_comm, or_left_comm] using hs
    rcases hs' with hs' | rfl
    · exact hmore (h.queue s hs')
    · show _[w.nextHandle]? = _
      rw [← hlen, List.getElem?_concat_length]
      rfl
  · obtain ⟨r, hasked, hanswered, hitems⟩ := h.ended i hi
    exact ⟨r, hmore hasked, hanswered, hitems⟩

/-- An abort answers with what there was. -/
theorem aborts (h : w.Answering e prompts asked)
    (hinj : Lodging.Injective e.hashFn e.cacheConfig.blockSize prompts) {ids : List RequestId}
    {engine : Scheduler × KvCache κ} {gone : List Request}
    (he : e.served.abortRequests w.engine ids = .ok (engine, gone)) (hengine : w'.engine = engine)
    (hitems : w'.items = w.items) (hstreams : w'.streams = w.streams)
    (hincoming : w'.incoming = w.incoming) {next : AfterFinish}
    (hphase : w'.phase = .finishing gone next)
    (hworker : WorkerRun e.toLLMEngine.served (Emits e.toLLMEngine) e.toLLMEngine.start w'.plain) :
    w'.Answering e prompts asked := by
  obtain ⟨arrived, ran, hrun, hprompts⟩ := h.run
  have hkept := hrun.kept hinj hprompts
  obtain ⟨⟨engine', gone'⟩, habort, hret⟩ := bind_eq_ok.mp he
  cases hret
  obtain ⟨hrunning, hwaiting⟩ := mem_of_abortRequests habort
  have hgone := fun (r : Request) (hr : r ∈ gone) => aborted_of_abortRequests
    (fun r hr => (hkept r (List.mem_append_left _ hr)).onTrack.unfinished) habort hr
  refine h.returns hitems hstreams (fun s hs => ?_) ⟨arrived, ran, ?_, hprompts⟩ hworker
    (fun r hr => ?_) fun r hr => ?_
  · rw [hincoming, hphase] at hs
    exact .inl (hs.resolve_right (by simp))
  · rw [hengine]
    exact .abortRequests ids hrun habort
  · replace hr : r ∈ w'.engine.1.running ++ w'.engine.1.waiting ++ w'.phase.returned := hr
    rw [hengine, hphase, List.append_assoc, List.mem_append, List.mem_append] at hr
    rcases hr with hr | hr | hr
    · exact ⟨r, List.mem_append_left _ (hrunning r hr), rfl⟩
    · exact ⟨r, List.mem_append_right _ (hwaiting r hr), rfl⟩
    · obtain ⟨q, hq, horigin, -⟩ := hgone r hr
      exact ⟨q, hq, horigin⟩
  · rw [hphase] at hr
    obtain ⟨q, hq, horigin, hout, hstatus⟩ := hgone r hr
    refine .inr ⟨hstatus, ?_⟩
    have hdecoding := (hkept q hq).onTrack.decoding
    have hparams : r.samplingParams = q.samplingParams := by
      show r.origin.samplingParams = q.origin.samplingParams
      rw [horigin]
    have hprompt : r.promptTokenIds = q.promptTokenIds := by
      show r.origin.promptTokenIds = q.origin.promptTokenIds
      rw [horigin]
    rwa [hparams, hprompt, hout]

/-- Every action that leaves the thread alive keeps the answers right. -/
theorem next (h : w.Answering e prompts asked)
    (hinj : Lodging.Injective e.hashFn e.cacheConfig.blockSize prompts) {a : Action}
    (ha : ∀ promptTokenIds params id timeout, a ≠ .put promptTokenIds params id timeout)
    (hm : w.Answerable e a) (hn : w.Next e.served a w') (he : w.error = none)
    (he' : w'.error = none) : w'.Answering e prompts asked := by
  obtain ⟨arrived, ran, hrun, hprompts⟩ := h.run
  have hi := (Intact.of_run hinj hrun.keepsDrafts hprompts).1
  have hkept := hrun.kept hinj hprompts
  -- a step over the cache is one without it
  have hsteps : ∀ {drafts : Option (RequestId → List Token)} {engine : Scheduler}
      {out : SchedulerOutput} {finished : List Request} {kv : KvCache κ}, a = .thread →
      w.phase = .stepping → e.toLLMEngine.Proposes drafts →
        e.step drafts w.engine.1 w.engine.2 = .ok ((engine, out, finished), kv) →
          e.toLLMEngine.step drafts w.engine.1 = .ok (engine, out, finished) := by
    rintro drafts engine out finished kv rfl hp hd hstep
    exact (hi.step hinj hd (hm hp).2.keepsDrafts hstep).1
  have hplain : w.plain.Next e.toLLMEngine.served a w'.plain := by
    refine hn.plain he' fun {engine scheduled finished} hthread hp hstep => ?_
    obtain ⟨drafts, hd, hresult⟩ := hstep
    obtain ⟨⟨⟨engine', out, finished'⟩, kv⟩, hstep, hret⟩ := bind_eq_ok.mp hresult.symm
    cases hret
    exact ⟨drafts, hd, by rw [hsteps hthread hp hd hstep]; rfl⟩
  have hemits : Emits e.toLLMEngine w.plain a := by
    cases a with
    | thread => exact fun hp => (hm hp).1
    | put | readError | abort => exact trivial
  have hworker := h.worker.next hemits hplain
  have hstart : InOrder e.toLLMEngine.start := ⟨rfl, List.nodup_nil⟩
  obtain ⟨t, hs⟩ := tracked_of_alive e.toLLMEngine.served_lawful hstart h.worker he
  obtain ⟨t', -⟩ := tracked_of_alive e.toLLMEngine.served_lawful hstart hworker he'
  have st := Streamed.of_alive h.worker he
  have hpre := hn.items_prefix
  have hdying : w.phase.dying ≠ true := by
    rw [show w.phase.dying = w.error.isSome from t.dying, he]
    exact Bool.false_ne_true
  cases hn with
  | put => exact absurd rfl (ha _ _ _ _)
  | @readError i hr =>
    have hread : w.readError i = { w with reading := w.reading.erase i } := by
      unfold WorkerState.readError
      simp [he]
    rw [hread] at hworker ⊢
    exact h.goOn rfl rfl rfl rfl (fun _ hs => hs) hworker
  | abort id =>
    refine h.goOn rfl rfl rfl rfl (fun s hs => ?_) hworker
    simpa using hs
  | drainSubmission hp hq =>
    refine h.goOn rfl rfl rfl (by rw [hp]; rfl) (fun s hs => .inl ?_) hworker
    rw [hq]
    rcases hs with hs | hs
    · exact List.mem_cons_of_mem _ hs
    · cases hs
      exact List.mem_cons_self
  | drainAbort hp hq =>
    refine h.goOn rfl rfl rfl (by rw [hp]; rfl) (fun s hs => .inl ?_) hworker
    rw [hq]
    exact List.mem_cons_of_mem _ (hs.resolve_right (by simp))
  | drainEmpty hp hq =>
    exact h.goOn rfl rfl rfl (by rw [hp]; rfl)
      (fun s hs => .inl (hs.resolve_right (by simp))) hworker
  | handle now hp hadd => exact h.handle hs now hp hadd hworker
  | abortRequests hp habort => exact h.aborts hinj habort rfl rfl rfl rfl rfl hworker
  | sweepNothing now hp hnone =>
    exact h.goOn rfl rfl rfl (by rw [hp]; rfl)
      (fun s hs => .inl (hs.resolve_right (by simp))) hworker
  | sweep now hp hsome habort => exact h.aborts hinj habort rfl rfl rfl rfl rfl hworker
  | idle hp hu =>
    exact h.goOn rfl rfl rfl (by rw [hp]; rfl)
      (fun s hs => .inl (hs.resolve_right (by simp))) hworker
  | step hp hu hstep =>
    obtain ⟨drafts, hd, hresult⟩ := hstep
    obtain ⟨⟨⟨engine, out, finished⟩, kv⟩, hstep, hret⟩ := bind_eq_ok.mp hresult.symm
    cases hret
    have hplainStep := hsteps rfl hp hd hstep
    obtain ⟨s₁, s₂, s₃, s₅, h₁, -⟩ := CachedEngine.step_eq_ok_iff.mp hstep
    obtain ⟨_, plan, victims, as, turned, spec⟩ :=
      LLMEngine.stepSpec_of_step hi.owning.live.inOrder hi.owning.live.queued hplainStep
    obtain ⟨-, hlossless⟩ := hi.kept_of_step (hm hp).2 hkept hplainStep
    exact h.returns rfl rfl (fun s hs => .inl (hs.resolve_right (by simp)))
      ⟨arrived, _, .step drafts hrun hd (hm hp).2 h₁ hstep, hprompts⟩ hworker
      (fun r hr => spec.origin hr) fun r hr => .inl (hlossless r hr).2
  | emit hp => exact h.emit hp rfl hworker t' hpre
  | emitted hp =>
    exact h.goOn rfl rfl rfl (by rw [hp]; rfl)
      (fun s hs => .inl (hs.resolve_right (by simp))) hworker
  | finish hp => exact h.finish st hp rfl hworker t' hpre
  | @finished next hp =>
    refine h.goOn rfl rfl rfl ?_ (fun s hs => .inl (hs.resolve_right ?_)) hworker
    · rw [hp]
      cases next <;> rfl
    · cases next <;> simp [AfterFinish.phase]
  | handleRaises | abortRaises | sweepRaises | stepRaises => cases he'
  | collectSubmission hp | collectAbort hp | collectEmpty hp | endOne hp | ended hp =>
    exact absurd (by rw [hp]; rfl) hdying

end Answering

end WorkerState

/-! ## What clients read -/

/-- What a handler has asked for. -/
def Connection.request (c : Connection) : Request :=
  LLMEngine.newRequest c.requestId c.body.prompt
    { maxTokens := c.body.maxTokens, eosTokenId := c.body.eosTokenId }

theorem Connection.Next.request {model : String} {items : List StreamItem} {c c' : Connection}
    {m m' : HttpMetrics} {a : Option RequestId} (hn : c.Next model items m a c' m') :
    c'.request = c.request := by
  have hcancel : ∀ m, (c.cancelRead m).1.request = c.request := by
    intro m
    unfold Connection.cancelRead
    split <;> rfl
  cases hn with
  | disconnected | cancelled | dropped => exact hcancel _
  | opened | connected | start | take | timedOut | send | sentToken | sentEnd | sentDone | closed
  | collectToken | collectEnd | respond | finalize => rfl

theorem Connection.request_submitted (c : Connection) : c.submitted.request = c.request := by
  unfold Connection.submitted
  split <;> rfl

namespace HttpState
variable {e : CachedEngine κ} {app : AppConfig} {prompts : Set (List Token)}
  {s s' : HttpState (Scheduler × KvCache κ)} {a : Option WorkerState.Action}

/-- What was asked, in the order of the handles. -/
def asked {σ : Type} (s : HttpState σ) : List Request := s.connections.map Connection.request

theorem asked_replace {σ : Type} {s : HttpState σ} {before after : List Connection}
    {c c' : Connection} (hc : s.connections = before ++ c :: after) (hr : c'.request = c.request)
    (w : WorkerState σ) (m : HttpMetrics) : asked ⟨w, before ++ c' :: after, m⟩ = s.asked := by
  rw [asked, asked, hc]
  simp [hr]

theorem asked_prefix (hn : s.Next e.served app a s') : s.asked <+: s'.asked := by
  cases hn with
  | thread => exact List.prefix_rfl
  | submit body fresh =>
    rw [asked, asked, completions, List.map_append]
    exact List.prefix_append _ _
  | submitted hc => rw [asked_replace hc (Connection.request_submitted _)]
  | respond hc hn => rw [asked_replace hc hn.request]
  | abort hc hr => rw [asked_replace hc hr.request]

/-- The handle of a handler is its place in the order. -/
theorem Accounted.asked_handle {σ : Type} {s : HttpState σ} (h : s.Accounted app) {c : Connection}
    (hc : c ∈ s.connections) : s.asked[c.handle]? = some c.request := by
  obtain ⟨i, hi⟩ := List.mem_iff_getElem?.mp hc
  have hhandle : (s.connections.map Connection.handle)[i]? = some c.handle := by
    rw [List.getElem?_map, hi]
    rfl
  rw [h.handles, List.getElem?_eq_some_iff] at hhandle
  obtain ⟨hlt, heq⟩ := hhandle
  rw [List.getElem_range] at heq
  rw [← heq, asked, List.getElem?_map, hi]
  rfl

/-- Every action that leaves the thread alive keeps the answers right. -/
theorem answering_next (h : s.worker.Answering e prompts s.asked) (haccounted : s.Accounted app)
    (hinj : Lodging.Injective e.hashFn e.cacheConfig.blockSize prompts)
    (hprompts : ∀ r ∈ s'.asked, r.promptTokenIds ∈ prompts)
    (hm : ∀ b ∈ a, s.worker.Answerable e b) (hn : s.Next e.served app a s')
    (he : s.worker.error = none) (he' : s'.worker.error = none) :
    s'.worker.Answering e prompts s'.asked := by
  cases hn with
  | thread hn => exact h.next hinj (by simp) (hm _ rfl) hn he he'
  | submit body fresh =>
    have hlen : s.asked.length = s.worker.nextHandle := by
      have hlen := congrArg List.length haccounted.handles
      rwa [List.length_map, List.length_range, ← List.length_map (f := Connection.request)] at hlen
    have hasked : (s.completions app body fresh).asked = s.asked ++
        [LLMEngine.newRequest (body.requestId.getD fresh) body.prompt
          { maxTokens := body.maxTokens, eosTokenId := body.eosTokenId }] := by
      rw [asked, completions, List.map_append]
      rfl
    rw [hasked] at hprompts ⊢
    refine h.put hlen (hm _ rfl) (hprompts _ (List.mem_append_right _ List.mem_cons_self)) ?_
    exact WorkerRun.next (a := .put ..) h.worker trivial (.put ..)
  | submitted hc hp hn =>
    rw [asked_replace hc (Connection.request_submitted _)]
    exact h.next hinj (by simp) (hm _ rfl) hn he he'
  | respond hc hn =>
    rw [asked_replace hc hn.request]
    exact h
  | abort hc hr hn =>
    rw [asked_replace hc hr.request]
    exact h.next hinj (by simp) (hm _ rfl) hn he he'

end HttpState

/-- A live worker was alive before. -/
theorem HttpState.Next.alive {σ : Type} {E : ServedEngine σ} {app : AppConfig} {s s' : HttpState σ}
    {a : Option WorkerState.Action} (hn : s.Next E app a s') (he' : s'.worker.error = none) :
    s.worker.error = none := by
  cases hn with
  | thread hn | submitted hc hp hn | abort hc hr hn => exact (hn.of_alive he').1
  | submit | respond => exact he'

theorem HttpRun.answering {e : CachedEngine κ} {app : AppConfig} {kv : KvCache κ}
    {prompts : Set (List Token)} {s : HttpState (Scheduler × KvCache κ)}
    (hsize : kv.blockSize = e.cacheConfig.blockSize)
    (hinj : Lodging.Injective e.hashFn e.cacheConfig.blockSize prompts)
    (h : HttpRun e.served app (WorkerState.Answerable e) (e.toLLMEngine.start, kv) s)
    (he : s.worker.error = none) (hprompts : ∀ r ∈ s.asked, r.promptTokenIds ∈ prompts) :
    s.worker.Answering e prompts s.asked ∧ s.Accounted app := by
  induction h with
  | start =>
    refine ⟨⟨fun r hr => absurd hr List.not_mem_nil,
      ⟨[], [], .start hsize, fun r hr => absurd hr List.not_mem_nil⟩, .start, fun sub hsub => ?_,
      fun q hq => absurd hq List.not_mem_nil, fun r hr => absurd hr List.not_mem_nil,
      fun i hi => ?_⟩, .new app _⟩
    · simp at hsub
    · obtain ⟨x, hx, -⟩ := hi
      cases hx
  | next hrun hm hn ih =>
    have halive := hn.alive he
    obtain ⟨hanswering, haccounted⟩ := ih halive fun r hr =>
      hprompts r ((HttpState.asked_prefix hn).subset hr)
    exact ⟨HttpState.answering_next hanswering haccounted hinj hprompts hm hn halive he,
      haccounted.next hn⟩

/-- What a client reads to its end: the answer of a request that is its own. -/
def Connection.OwnAnswer (next : List Token → Token) (model : String) (c : Connection) : Prop :=
  (c.place = .streamed → ∃ r : Request, r.origin = c.request ∧ r.Answered next ∧
    c.frames = (r.outputTokenIds.map StreamItem.streamToken ++ [StreamItem.streamEnd r.status]).map
      (StreamItem.frame model c.requestId) ++ [.done]) ∧
  ∀ response, c.place = .responded response → ∃ r : Request, r.origin = c.request ∧
    r.Answered next ∧ response = c.response model r.outputTokenIds (some (finishReason r.status))

/-- Items up to the end are all of them where nothing follows it. -/
theorem StreamItem.uptoEnd_answer (tokenIds : List Token) (status : RequestStatus) :
    uptoEnd (tokenIds.map .streamToken ++ [.streamEnd status]) =
      tokenIds.map .streamToken ++ [.streamEnd status] := by
  induction tokenIds with
  | nil => rfl
  | cons t tokenIds ih =>
    rw [List.map_cons, List.cons_append, uptoEnd, if_neg (by simp [isEnd]), ih]

/-- Tokens and an end are told by the items. -/
theorem StreamItem.answer_inj {tokenIds tokenIds' : List Token} {status status' : RequestStatus}
    (h : tokenIds.map .streamToken ++ [StreamItem.streamEnd status] =
      tokenIds'.map .streamToken ++ [.streamEnd status']) :
    tokenIds = tokenIds' ∧ status = status' := by
  obtain ⟨htokens, hend⟩ := List.append_inj' h rfl
  exact ⟨(List.map_injective_iff.mpr fun _ _ => StreamItem.streamToken.inj) htokens,
    StreamItem.streamEnd.inj (List.singleton_inj.mp hend)⟩

/-- In a run of the server over a paged, shared cache whose steps are faithful and give everyone
one output each, and in which the thread lives, every response that is read to its end is the
greedy decoding of its own prompt, or what there was of it when it was aborted. -/
theorem answers_of_run {e : CachedEngine κ} {app : AppConfig} {kv : KvCache κ}
    {s : HttpState (Scheduler × KvCache κ)} (hsize : kv.blockSize = e.cacheConfig.blockSize)
    (hinj : Lodging.Injective e.hashFn e.cacheConfig.blockSize
      {prompt | ∃ c ∈ s.connections, c.body.prompt = prompt})
    (h : HttpRun e.served app (WorkerState.Answerable e) (e.toLLMEngine.start, kv) s)
    (he : s.worker.error = none) :
    ∀ c ∈ s.connections, c.OwnAnswer e.runner.model.next app.modelName := by
  obtain ⟨hanswering, haccounted⟩ := h.answering hsize hinj he fun r hr => by
    obtain ⟨c, hc, rfl⟩ := List.mem_map.mp hr
    exact ⟨c, hc, rfl⟩
  intro c hc
  -- the request that has answered on the handle is the handler's own
  have hown : ∀ {tokenIds : List Token} {status : RequestStatus},
      StreamItem.uptoEnd (s.worker.items c.handle) =
        tokenIds.map .streamToken ++ [.streamEnd status] →
      ∃ r : Request, r.origin = c.request ∧ r.Answered e.runner.model.next ∧
        r.outputTokenIds = tokenIds ∧ r.status = status := by
    intro tokenIds status hupto
    have hended : s.worker.Ended c.handle := by
      refine ⟨.streamEnd status, (StreamItem.uptoEnd_prefix _).subset ?_, rfl⟩
      rw [hupto]
      exact List.mem_append_right _ List.mem_cons_self
    obtain ⟨r, hasked, hanswered, hitems⟩ := hanswering.ended c.handle hended
    rw [hitems, StreamItem.uptoEnd_answer] at hupto
    obtain ⟨hout, hstatus⟩ := StreamItem.answer_inj hupto
    have hrequest : s.asked[c.handle]? = some c.request := haccounted.asked_handle hc
    exact ⟨r, Option.some.inj (hasked.symm.trans hrequest), hanswered, hout, hstatus⟩
  have hdelivers := (haccounted.follows c hc).delivers
  refine ⟨fun hp => ?_, fun response hp => ?_⟩
  · obtain ⟨tokenIds, status, hupto, hframes⟩ := hdelivers.streamed hp
    obtain ⟨r, horigin, hanswered, rfl, rfl⟩ := hown hupto
    exact ⟨r, horigin, hanswered, by rw [hframes, hupto]⟩
  · obtain ⟨tokenIds, status, hupto, hresponse⟩ := hdelivers.responded response hp
    obtain ⟨r, horigin, hanswered, rfl, rfl⟩ := hown hupto
    exact ⟨r, horigin, hanswered, hresponse⟩

/-- `pairingEngine`, with three tokens a step. -/
def pairingChunks : LLMEngine :=
  { pairingEngine with schedulerConfig :=
      { SchedulerConfig.defaults with
        maxNumBatchedTokens := 3, maxNumBatchedTokens_pos := by decide } }

/-- A streamed request whose prompt comes in two chunks; one that finds two of its blocks in the
cache, next to a verify round of the first; and one that finds them too and runs out of time after
a token. -/
def cachedClients : List HttpMove :=
  [.submit { prompt := [5, 6, 7, 8], maxTokens := 2, stream := true } 0, .submitted 0] ++
  HttpMove.threads 12 ++
  [.submit { prompt := [5, 6, 9], maxTokens := 2 } 1, .submitted 1,
    .submit { prompt := [5, 6, 8], maxTokens := 4, timeoutS := some 5, stream := true } 2,
    .submitted 2] ++
  HttpMove.threads 21 ++ .replicate 6 (.thread 9) ++
  HttpMove.proceeds 0 15 ++ HttpMove.proceeds 1 5 ++ HttpMove.proceeds 2 11

/-- What the three of them read. -/
theorem answers_of_run_three : ∃ s : HttpState (Scheduler × KvCache (List Token)),
    HttpRun pairingChunks.cached.served {} (WorkerState.Answerable pairingChunks.cached)
        (pairingChunks.cached.toLLMEngine.start, ⟨1, fun _ => []⟩) s ∧
      s.connections.map Connection.place = [.streamed,
        .responded { id := 1, model := "lightserve", choices :=
          [{ text := "3 4", tokenIds := [3, 4], finishReason := "length" }] }, .streamed] ∧
      (s.connections.map fun c => c.frames.length) = [4, 0, 3] ∧
      ∀ c ∈ s.connections, c.OwnAnswer pairingChunks.cached.runner.model.next "lightserve" := by
  have h : ((({ worker := { engine :=
        (pairingChunks.cached.toLLMEngine.start, ⟨1, fun _ => []⟩) } } :
      HttpState (Scheduler × KvCache (List Token))).play pairingChunks.cached.served
        (pairingChunks.cached.outcome fun _ => some fun _ => [0]) {}
        (WorkerState.Answerable pairingChunks.cached) cachedClients).any fun s => decide (
          s.worker.error = none ∧
          s.connections.map Connection.place = [.streamed,
            .responded { id := 1, model := "lightserve", choices :=
              [{ text := "3 4", tokenIds := [3, 4], finishReason := "length" }] }, .streamed] ∧
          (s.connections.map fun c => c.frames.length) = [4, 0, 3])) = true := by
    decide +kernel
  simp only [Option.any_eq_true, decide_eq_true_eq] at h
  obtain ⟨s, hplay, halive, hplace, hframes⟩ := h
  have hinj : Lodging.Injective pairingChunks.cached.hashFn
      pairingChunks.cached.cacheConfig.blockSize
      {prompt | ∃ c ∈ s.connections, c.body.prompt = prompt} :=
    Set.injOn_of_injective (Encodable.encode_injective (α := Option BlockHash × List Token))
  have hresult := pairingChunks.cached.served_step_outcome (fun _ => some fun _ => [0])
    fun _ _ => rfl
  have hstart : HttpRun pairingChunks.cached.served {}
    (WorkerState.Answerable pairingChunks.cached)
    (pairingChunks.cached.toLLMEngine.start, ⟨1, fun _ => []⟩) _ := .start
  have hrun := hstart.play hresult hplay
  exact ⟨s, hrun, hplace, hframes, answers_of_run rfl hinj hrun halive⟩

end LightServe
