import LightServe.Lib.Traces
import LightServe.Server.App

/-!
# Scripted runs

The next action of the engine thread, and of a response, as functions of the state and of what
they read: the clock, and the outcome of a step of the engine. A script says who acts, one after
the other; what it plays is a run.

## Main definitions

* `WorkerState.act`, `WorkerState.play` — the thread's next action, and scripts of the worker.
* `Connection.act` — a response's next action.
* `HttpState.play` — scripts of the handlers and the thread.
-/

namespace LightServe

/-! ## The worker -/

namespace WorkerState
variable {σ : Type} {E : ServedEngine σ} {w w' : WorkerState σ} {now : ℕ}
  {result : σ → Except EngineError (σ × List Request × List Request)}

/-- The thread's next action when the clock reads `now` and a step has its `result`. -/
def act (E : ServedEngine σ) (result : σ → Except EngineError (σ × List Request × List Request))
    (now : ℕ) (w : WorkerState σ) : Option (WorkerState σ) :=
  match w.phase with
  | .draining =>
    match w.incoming with
    | .submission s :: rest => some { w with incoming := rest, phase := .handling s }
    | .abort requestId :: rest => some { w with incoming := rest, phase := .aborting requestId }
    | [] => some { w with phase := .sweeping }
  | .handling s =>
    match E.addRequest w.engine s.requestId s.promptTokenIds s.samplingParams with
    | .ok engine => some (w.register engine s now)
    | .error err => some (w.die err)
  | .aborting requestId =>
    match E.abortRequests w.engine [requestId] with
    | .ok (engine, gone) => some { w with engine, phase := .finishing gone .drain }
    | .error err => some (w.die err)
  | .sweeping =>
    if w.expired now = [] then some { w with phase := .stepping }
    else
      match E.abortRequests w.engine (w.expired now) with
      | .ok (engine, gone) => some { w with engine, phase := .finishing gone .step }
      | .error err => some (w.die err)
  | .stepping =>
    if E.hasUnfinishedRequests w.engine then
      match result w.engine with
      | .ok (engine, scheduled, finished) =>
        some { w with engine, phase := .emitting scheduled finished }
      | .error err => some (w.die err)
    else some { w with phase := .draining }
  | .emitting (r :: scheduled) finished =>
    some { w.emit r with phase := .emitting scheduled finished }
  | .emitting [] finished => some { w with phase := .finishing finished .drain }
  | .finishing (r :: requests) next => some { w.finish r with phase := .finishing requests next }
  | .finishing [] next => some { w with phase := next.phase }
  | .collecting handles =>
    match w.incoming with
    | .submission s :: rest =>
      some { w with incoming := rest, phase := .collecting (handles ++ [s.handle]) }
    | .abort _ :: rest => some { w with incoming := rest }
    | [] => some { w with phase := .ending handles }
  | .ending (h :: handles) =>
    some { w.putItem h (.streamEnd .finishedAborted) with phase := .ending handles }
  | .ending [] => some { w with streams := ∅, phase := .dead }
  | .dead => none

/-- What the thread does next is one of its actions. -/
theorem next_of_act (hresult : E.step w.engine (result w.engine))
    (h : w.act E result now = some w') : w.Next E .thread w' := by
  cases hp : w.phase with
  | draining =>
    simp only [act, hp] at h
    split at h <;> cases h
    · exact .drainSubmission hp ‹_›
    · exact .drainAbort hp ‹_›
    · exact .drainEmpty hp ‹_›
  | handling s =>
    simp only [act, hp] at h
    split at h <;> cases h
    · exact .handle now hp ‹_›
    · exact .handleRaises hp ‹_›
  | aborting requestId =>
    simp only [act, hp] at h
    split at h <;> cases h
    · exact .abortRequests hp ‹_›
    · exact .abortRaises hp ‹_›
  | sweeping =>
    simp only [act, hp] at h
    split at h
    · cases h
      exact .sweepNothing now hp ‹_›
    · split at h <;> cases h
      · exact .sweep now hp ‹_› ‹_›
      · exact .sweepRaises now hp ‹_› ‹_›
  | stepping =>
    simp only [act, hp] at h
    split at h
    · rename_i hu
      split at h <;> cases h
      · rename_i hstep
        exact .step hp hu (hstep ▸ hresult)
      · rename_i hstep
        exact .stepRaises hp hu (hstep ▸ hresult)
    · cases h
      exact .idle hp (Bool.eq_false_iff.mpr ‹_›)
  | emitting scheduled finished =>
    cases scheduled with
    | nil =>
      simp only [act, hp] at h
      cases h
      exact .emitted hp
    | cons r scheduled =>
      simp only [act, hp] at h
      cases h
      exact .emit hp
  | finishing requests next =>
    cases requests with
    | nil =>
      simp only [act, hp] at h
      cases h
      exact .finished hp
    | cons r requests =>
      simp only [act, hp] at h
      cases h
      exact .finish hp
  | collecting handles =>
    simp only [act, hp] at h
    split at h <;> cases h
    · exact .collectSubmission hp ‹_›
    · have hnext : w.Next E .thread { w with incoming := _ } := .collectAbort hp ‹_›
      simpa only [hp] using hnext
    · exact .collectEmpty hp ‹_›
  | ending handles =>
    cases handles with
    | nil =>
      simp only [act, hp] at h
      cases h
      exact .ended hp
    | cons handle handles =>
      simp only [act, hp] at h
      cases h
      exact .endOne hp
  | dead =>
    simp only [act, hp] at h
    cases h

/-- The action of a client, or the thread's next one when the clock reads `now`. -/
def move (E : ServedEngine σ) (result : σ → Except EngineError (σ × List Request × List Request))
    (w : WorkerState σ) : Action × ℕ → Option (WorkerState σ)
  | (.put promptTokenIds samplingParams requestId timeout, _) =>
    some (w.put promptTokenIds samplingParams requestId timeout)
  | (.readError h, _) => if h ∈ w.reading then some (w.readError h) else none
  | (.abort requestId, _) => some { w with incoming := w.incoming ++ [.abort requestId] }
  | (.thread, now) => w.act E result now

theorem next_of_move (hresult : E.step w.engine (result w.engine)) {a : Action}
    (h : w.move E result (a, now) = some w') : w.Next E a w' := by
  cases a with
  | put promptTokenIds samplingParams requestId timeout => cases h; exact .put ..
  | readError handle =>
    rw [move] at h
    split at h
    · cases h
      exact .readError ‹_›
    · cases h
  | abort requestId => cases h; exact .abort requestId
  | thread => exact next_of_act hresult h

/-- Who acts, and what the clock reads then. -/
abbrev Script := List (Action × ℕ)

/-- A script played, of actions that meet `Meets`. -/
def play (E : ServedEngine σ) (result : σ → Except EngineError (σ × List Request × List Request))
    (Meets : WorkerState σ → Action → Prop) [∀ w a, Decidable (Meets w a)] (w : WorkerState σ)
    (script : Script) : Option (WorkerState σ) :=
  Trace.play (move E result) (fun w a => Meets w a.1) w script

end WorkerState

theorem WorkerRun.play {σ : Type} {E : ServedEngine σ}
    {result : σ → Except EngineError (σ × List Request × List Request)}
    {Meets : WorkerState σ → WorkerState.Action → Prop} [∀ w a, Decidable (Meets w a)] {start : σ}
    {w w' : WorkerState σ} {script : WorkerState.Script} (h : WorkerRun E Meets start w)
    (hresult : ∀ s, E.step s (result s)) (hplay : w.play E result Meets script = some w') :
    WorkerRun E Meets start w' :=
  Trace.invariant_of_play
    (fun w _ _ _ h hm hact => h.next hm (WorkerState.next_of_move (hresult w.engine) hact)) hplay h

/-- What a script of the worker plays is a trace. -/
theorem WorkerState.trace_of_play {σ : Type} {E : ServedEngine σ}
    {result : σ → Except EngineError (σ × List Request × List Request)}
    {Meets : WorkerState σ → Action → Prop} [∀ w a, Decidable (Meets w a)] {w w' : WorkerState σ}
    {script : Script} (hresult : ∀ s, E.step s (result s))
    (hplay : w.play E result Meets script = some w') :
    Trace (fun w a w' => Meets w a ∧ w.Next E a w') w (script.map Prod.fst) w' := by
  have hnext : ∀ (w : WorkerState σ) (a : Action × ℕ) (w' : WorkerState σ),
      w.move E result a = some w' → w.Next E a.1 w' :=
    fun w _ _ hmove => next_of_move (hresult w.engine) hmove
  exact (Trace.of_play hnext hplay).map Prod.fst fun _ _ _ h => h

/-- A step of `LLMEngine` as the worker calls it, with proposals that depend on the state. -/
def LLMEngine.outcome (e : LLMEngine) (drafts : Scheduler → Option (RequestId → List Token))
    (s : Scheduler) : Except EngineError (Scheduler × List Request × List Request) := do
  let (s', out, finished) ← e.step (drafts s) s
  return (s', s'.produced out finished, finished)

theorem LLMEngine.served_step_outcome (e : LLMEngine)
    (drafts : Scheduler → Option (RequestId → List Token)) (hd : ∀ s, e.Proposes (drafts s))
    (s : Scheduler) : e.served.step s (e.outcome drafts s) := ⟨drafts s, hd s, rfl⟩

/-! ## The responses -/

/-- What a response does next. -/
inductive ResponseTurn
  /-- It goes on. -/
  | proceed
  /-- Its wait times out. -/
  | timeOut
  /-- Its client leaves, or the server tears it down. -/
  | leave
  /-- Its generator is closed. -/
  | finalize

namespace Connection

/-- A response that goes on, when `items` have been put on its handle. -/
def proceed (model : String) (items : List StreamItem) (c : Connection) (m : HttpMetrics) :
    Option (Connection × HttpMetrics) :=
  match c.place with
  | .unopened => some ({ c with place := .checking }, m)
  | .checking => some ({ c with
      place := .waiting
      pending := if c.pending = .idle then .reading else c.pending }, m)
  | .waiting =>
    match c.pending, c.timed.phase with
    | .reading, .unstarted => some ({ c with timed := (c.timed.start m).1 }, (c.timed.start m).2)
    | .reading, .running => items[c.timed.taken]?.map fun x =>
      ({ c with pending := .ready x, timed := (c.timed.pass m c.requestId x).1 },
        (c.timed.pass m c.requestId x).2)
    | .ready x, _ => some ({ c with
        place := .sending x
        pending := .idle
        frames := c.frames ++ [x.frame model c.requestId] }, m)
    | _, _ => none
  | .sending (.streamToken _) => some ({ c with place := .checking }, m)
  | .sending (.streamEnd _) =>
      some ({ c with place := .sendingDone, frames := c.frames ++ [.done] }, m)
  | .sendingDone => some ({ c with place := .streamed }, m)
  | .collecting tokenIds reason =>
    if c.timed.ended then
      some ({ c with
        place := .responded (c.response model tokenIds reason)
        pending := .idle
        timed := (c.timed.close m).1 }, (c.timed.close m).2)
    else
      match c.pending, c.timed.phase with
      | .reading, .unstarted => some ({ c with timed := (c.timed.start m).1 }, (c.timed.start m).2)
      | _, .running => items[c.timed.taken]?.map fun
        | .streamToken t => ({ c with
            place := .collecting (tokenIds ++ [t]) reason
            timed := (c.timed.pass m c.requestId (.streamToken t)).1 },
          (c.timed.pass m c.requestId (.streamToken t)).2)
        | .streamEnd status => ({ c with
            place := .collecting tokenIds (some (finishReason status))
            timed := (c.timed.pass m c.requestId (.streamEnd status)).1 },
          (c.timed.pass m c.requestId (.streamEnd status)).2)
      | _, _ => none
  | .submitting | .streamed | .responded _ | .gone => none

/-- A turn of a response, with the id that it aborts, if it does. -/
def act (model : String) (items : List StreamItem) (c : Connection) (m : HttpMetrics) :
    ResponseTurn → Option (Option RequestId × Connection × HttpMetrics)
  | .proceed => (c.proceed model items m).map (none, ·)
  | .timeOut =>
    if c.place = .waiting ∧ c.pending = .reading then some (none, { c with place := .checking }, m)
    else none
  | .leave =>
    match c.place with
    | .checking | .waiting => some (some c.requestId, (c.cancelRead m).1, (c.cancelRead m).2)
    | .unopened | .sending _ => some (none, { c with place := .gone }, m)
    | .collecting .. => some (none, (c.cancelRead m).1, (c.cancelRead m).2)
    | _ => none
  | .finalize =>
    if (c.place = .gone ∨ c.place = .streamed) ∧ c.timed.phase = .running then
      some (none, { c with timed := (c.timed.close m).1 }, (c.timed.close m).2)
    else none

variable {model : String} {items : List StreamItem} {c c' : Connection} {m m' : HttpMetrics}

/-- A response that goes on takes one of its actions. -/
theorem next_of_proceed (h : c.proceed model items m = some (c', m')) :
    c.Next model items m none c' m' := by
  unfold proceed at h
  split at h
  case h_1 hp => cases h; exact .opened hp
  case h_2 hp => cases h; exact .connected hp
  case h_3 hp =>
    split at h
    case h_1 hr ht => cases h; exact .start hr ht
    case h_2 hr ht =>
      obtain ⟨x, hx, heq⟩ := Option.map_eq_some_iff.mp h
      cases heq
      exact .take (.inr hp) hr ht hx
    case h_3 hr => cases h; exact .send hp hr
    case h_4 => cases h
  case h_4 hp => cases h; exact .sentToken hp
  case h_5 hp => cases h; exact .sentEnd hp
  case h_6 hp => cases h; exact .sentDone hp
  case h_7 hp =>
    split at h
    · cases h
      exact .respond hp ‹_›
    · rename_i he
      rw [Bool.not_eq_true] at he
      split at h
      case h_1 hr ht => cases h; exact .start hr ht
      case h_2 ht =>
        obtain ⟨x, hx, heq⟩ := Option.map_eq_some_iff.mp h
        cases x with
        | streamToken t => cases heq; exact .collectToken hp ht he hx
        | streamEnd status => cases heq; exact .collectEnd hp ht he hx
      case h_3 => cases h
  all_goals cases h

theorem next_of_act {id : Option RequestId} {turn : ResponseTurn}
    (h : c.act model items m turn = some (id, c', m')) : c.Next model items m id c' m' := by
  cases turn with
  | proceed =>
    obtain ⟨_, hgo, heq⟩ := Option.map_eq_some_iff.mp h
    cases heq
    exact next_of_proceed hgo
  | timeOut =>
    rw [act] at h
    split at h
    · rename_i hp
      cases h
      exact .timedOut hp.1 hp.2
    · cases h
  | leave =>
    rw [act] at h
    split at h
    case h_1 hp => cases h; exact .cancelled (.inl hp)
    case h_2 hp => cases h; exact .cancelled (.inr hp)
    case h_3 hp => cases h; exact .closed (.inl hp)
    case h_4 hp => cases h; exact .closed (.inr ⟨_, hp⟩)
    case h_5 hp => cases h; exact .dropped hp
    case h_6 => cases h
  | finalize =>
    rw [act] at h
    split at h
    · rename_i hp
      cases h
      exact .finalize hp.1 hp.2
    · cases h

end Connection

/-! ## The server -/

/-- Who acts: the thread, with what the clock reads; a client that submits; or the handler of a
connection, which returns from `submit` or has a turn. -/
inductive HttpMove
  | thread (now : ℕ)
  | submit (body : CompletionRequest) (fresh : RequestId)
  | submitted (i : ℕ)
  | respond (i : ℕ) (turn : ResponseTurn)

/-- The thread goes on, at the start of time. -/
def HttpMove.threads (n : ℕ) : List HttpMove := .replicate n (.thread 0)

/-- A response goes on. -/
def HttpMove.proceeds (i n : ℕ) : List HttpMove := .replicate n (.respond i .proceed)

namespace HttpState
variable {σ : Type} {E : ServedEngine σ} {app : AppConfig} {s s' : HttpState σ}
  {result : σ → Except EngineError (σ × List Request × List Request)}

/-- An action, with what it does to the worker. -/
def act (E : ServedEngine σ) (result : σ → Except EngineError (σ × List Request × List Request))
    (app : AppConfig) (s : HttpState σ) :
    HttpMove → Option (Option WorkerState.Action × HttpState σ)
  | .thread now => (s.worker.act E result now).map fun worker =>
    (some .thread, { s with worker })
  | .submit body fresh => some (some (.put body.prompt
      { maxTokens := body.maxTokens, eosTokenId := body.eosTokenId } (body.requestId.getD fresh)
      (body.timeoutS <|> app.defaultTimeoutS)), s.completions app body fresh)
  | .submitted i => do
    let c ← s.connections[i]?
    if c.place = .submitting ∧ c.handle ∈ s.worker.reading then
      some (some (.readError c.handle), { s with
        worker := s.worker.readError c.handle
        connections := s.connections.set i c.submitted })
    else none
  | .respond i turn => do
    let c ← s.connections[i]?
    let (id, c', metrics) ← c.act app.modelName (s.worker.items c.handle) s.metrics turn
    return (id.map .abort, {
      worker := match id with
        | none => s.worker
        | some id => { s.worker with incoming := s.worker.incoming ++ [.abort id] }
      connections := s.connections.set i c'
      metrics })

private theorem split_at {cs : List Connection} {i : ℕ} {c : Connection} (h : cs[i]? = some c)
    (c' : Connection) : cs = cs.take i ++ c :: cs.drop (i + 1) ∧
      cs.set i c' = cs.take i ++ c' :: cs.drop (i + 1) := by
  obtain ⟨hi, rfl⟩ := List.getElem?_eq_some_iff.mp h
  refine ⟨?_, ?_⟩
  · rw [← List.drop_eq_getElem_cons hi, List.take_append_drop]
  · rw [List.set_eq_take_append_cons_drop, if_pos hi]

theorem next_of_act (hresult : E.step s.worker.engine (result s.worker.engine)) {move : HttpMove}
    {a : Option WorkerState.Action} (h : s.act E result app move = some (a, s')) :
    s.Next E app a s' := by
  cases move with
  | thread now =>
    obtain ⟨w, hw, heq⟩ := Option.map_eq_some_iff.mp h
    cases heq
    exact .thread (WorkerState.next_of_act hresult hw)
  | submit body fresh => cases h; exact .submit body fresh
  | submitted i =>
    obtain ⟨c, hc, hrest⟩ := Option.bind_eq_some_iff.mp h
    split at hrest
    · rename_i hp
      cases hrest
      obtain ⟨hsplit, hset⟩ := split_at hc c.submitted
      rw [hset]
      exact .submitted hsplit hp.1 (.readError hp.2)
    · cases hrest
  | respond i turn =>
    obtain ⟨c, hc, hrest⟩ := Option.bind_eq_some_iff.mp h
    obtain ⟨⟨id, c', m⟩, hact, hret⟩ := Option.bind_eq_some_iff.mp hrest
    have hnext := Connection.next_of_act hact
    obtain ⟨hsplit, hset⟩ := split_at hc c'
    cases id with
    | none =>
      cases hret
      rw [hset]
      exact .respond hsplit hnext
    | some id =>
      cases hret
      rw [hset]
      exact .abort hsplit hnext (.abort id)

/-- A script played, in which what is done to the worker meets `Meets`. -/
def play (E : ServedEngine σ) (result : σ → Except EngineError (σ × List Request × List Request))
    (app : AppConfig) (Meets : WorkerState σ → WorkerState.Action → Prop)
    [∀ w a, Decidable (Meets w a)] (s : HttpState σ) (script : List HttpMove) :
    Option (HttpState σ) :=
  Trace.play (fun s move => (s.act E result app move).map Prod.snd)
    (fun s move => ∀ next ∈ s.act E result app move, ∀ a ∈ next.1, Meets s.worker a) s script

end HttpState

theorem HttpRun.play {σ : Type} {E : ServedEngine σ} {app : AppConfig}
    {result : σ → Except EngineError (σ × List Request × List Request)}
    {Meets : WorkerState σ → WorkerState.Action → Prop} [∀ w a, Decidable (Meets w a)] {start : σ}
    {s s' : HttpState σ} {script : List HttpMove} (h : HttpRun E app Meets start s)
    (hresult : ∀ s, E.step s (result s)) (hplay : s.play E result app Meets script = some s') :
    HttpRun E app Meets start s' := by
  refine Trace.invariant_of_play (fun s move _ s' h hm hact => ?_) hplay h
  obtain ⟨⟨a, s₁⟩, hmove, rfl⟩ := Option.map_eq_some_iff.mp hact
  exact h.next (hm _ hmove) (HttpState.next_of_act (hresult s.worker.engine) hmove)

end LightServe
