import LightServe.Server.EngineWorker
import Mathlib.Data.List.TakeWhile

/-!
# The HTTP app

`server/app.py` on top of the worker. A handler submits its completion, and its response reads the
handle: token by token as frames, or all of it before it answers. Either reads through `timed`,
which counts. The handlers are coroutines of one loop, and the engine thread runs beside it; each
constructor of `HttpState.Next` is what one of them does between two awaits. A client that leaves
is noticed between two reads, or by a teardown of the connection at an await. Times, traces and
the JSON around the frames are left out.

## Main definitions

* `Timed` — `timed`, and the reads under it.
* `Connection.Next` — what a response does by itself.
* `HttpState.Next` — the actions of the handlers and of the engine thread.
* `HttpRun` — the states that actions lead to.
-/

namespace LightServe

/-! ## Schemas -/

/-- The names of the members of `RequestStatus`. -/
def RequestStatus.name : RequestStatus → String
  | .waiting => "WAITING"
  | .running => "RUNNING"
  | .preempted => "PREEMPTED"
  | .finishedStopped => "FINISHED_STOPPED"
  | .finishedLengthCapped => "FINISHED_LENGTH_CAPPED"
  | .finishedAborted => "FINISHED_ABORTED"

/-- `_finish_reason`. -/
def finishReason : RequestStatus → String
  | .finishedStopped => "stop"
  | .finishedLengthCapped => "length"
  | .finishedAborted => "abort"
  | status => status.name

/-- `_render_text`. -/
def renderText (tokenIds : List Token) : String :=
  " ".intercalate (tokenIds.map toString)

structure CompletionRequest where
  prompt : List Token
  maxTokens : ℤ := 16
  eosTokenId : Option Token := none
  stream : Bool := false
  timeoutS : Option ℕ := none
  requestId : Option RequestId := none

/-- A choice, of a response or of a frame. -/
structure CompletionChoice where
  index : ℕ := 0
  text : String
  tokenIds : List Token
  finishReason : Option String := none
  deriving DecidableEq

structure CompletionResponse where
  id : RequestId
  object : String := "text_completion"
  model : String
  choices : List CompletionChoice
  deriving DecidableEq

structure CompletionStreamChunk where
  id : RequestId
  object : String := "text_completion.chunk"
  model : String
  choices : List CompletionChoice
  deriving DecidableEq

/-- What a streaming response yields. -/
inductive Frame
  | chunk (c : CompletionStreamChunk)
  | done
  deriving DecidableEq

/-- The frame of an item. -/
def StreamItem.frame (model : String) (id : RequestId) : StreamItem → Frame
  | .streamToken t => .chunk { id, model, choices := [{ text := renderText [t], tokenIds := [t] }] }
  | .streamEnd status => .chunk
      { id, model
        choices := [{ text := "", tokenIds := [], finishReason := finishReason status }] }

/-! ## Reading -/

/-- A line of the request log. -/
structure RequestRecord where
  requestId : RequestId
  status : RequestStatus
  tokens : ℕ
  deriving DecidableEq

/-- The app's metrics: what a counter counts, how often a histogram was observed, a gauge. -/
structure HttpMetrics where
  generatedTokens : ℕ := 0
  timeToFirstToken : ℕ := 0
  interToken : ℕ := 0
  request : ℕ := 0
  requestsInFlight : ℤ := 0
  requestLog : List RequestRecord := []

/-- Where the generator `timed` is. -/
inductive TimedPhase
  | unstarted
  | running
  | closed
  deriving DecidableEq

/-- `timed`, and how many items the reads under it have taken off the handle's queue. -/
structure Timed where
  phase : TimedPhase := .unstarted
  first : Bool := false
  nTokens : ℕ := 0
  ended : Bool := false
  taken : ℕ := 0

namespace Timed

/-- Up to the first read. -/
def start (t : Timed) (m : HttpMetrics) : Timed × HttpMetrics :=
  ({ t with phase := .running }, { m with requestsInFlight := m.requestsInFlight + 1 })

/-- One item, up to its yield. -/
def pass (t : Timed) (m : HttpMetrics) (id : RequestId) : StreamItem → Timed × HttpMetrics
  | .streamToken _ =>
    ({ t with first := true, nTokens := t.nTokens + 1, taken := t.taken + 1 },
      { m with
        timeToFirstToken := if t.first then m.timeToFirstToken else m.timeToFirstToken + 1
        interToken := if t.first then m.interToken + 1 else m.interToken
        generatedTokens := m.generatedTokens + 1 })
  | .streamEnd status =>
    ({ t with ended := true, taken := t.taken + 1 },
      { m with
        request := m.request + 1
        requestsInFlight := m.requestsInFlight - 1
        requestLog := m.requestLog ++ [{ requestId := id, status, tokens := t.nTokens }] })

/-- The generator is closed: its `finally`, if it has started. -/
def close (t : Timed) (m : HttpMetrics) : Timed × HttpMetrics :=
  ({ t with phase := .closed },
    if t.phase = .running ∧ t.ended = false then
      { m with requestsInFlight := m.requestsInFlight - 1 }
    else m)

end Timed

/-! ## One response -/

/-- The read that a response waits for. -/
inductive PendingRead
  | idle
  | reading
  | ready (x : StreamItem)
  deriving DecidableEq

/-- Where a handler is. -/
inductive Place
  /-- In `submit`, past the put. -/
  | submitting
  /-- Before the first frame is asked for. -/
  | unopened
  /-- At `is_disconnected`. -/
  | checking
  /-- At `asyncio.wait`. -/
  | waiting
  /-- At the yield of an item's frame. -/
  | sending (x : StreamItem)
  /-- At the yield of the last frame. -/
  | sendingDone
  /-- The stream is over. -/
  | streamed
  /-- In the loop that reads all of it. -/
  | collecting (tokenIds : List Token) (reason : Option String)
  | responded (response : CompletionResponse)
  /-- Torn down, or left by its client. -/
  | gone
  deriving DecidableEq

/-- A handler and its response. -/
structure Connection where
  body : CompletionRequest
  requestId : RequestId
  handle : HandleId
  place : Place := .submitting
  pending : PendingRead := .idle
  timed : Timed := {}
  /-- What was yielded so far. -/
  frames : List Frame := []

namespace Connection

/-- The end of a read that is cancelled: the generator under it ends too. -/
def cancelRead (c : Connection) (m : HttpMetrics) : Connection × HttpMetrics :=
  if c.pending = .reading then
    ({ c with place := .gone, pending := .idle, timed := (c.timed.close m).1 }, (c.timed.close m).2)
  else ({ c with place := .gone }, m)

/-- The answer of a handler that does not stream. -/
def response (c : Connection) (model : String) (tokenIds : List Token) (reason : Option String) :
    CompletionResponse :=
  { id := c.requestId, model
    choices := [{ index := 0, text := renderText tokenIds, tokenIds, finishReason := reason }] }

/-- What a response does by itself, when `items` have been put on its handle so far, and the id
that it aborts, if it does. -/
inductive Next (model : String) (items : List StreamItem) :
    Connection → HttpMetrics → Option RequestId → Connection → HttpMetrics → Prop
  | opened {c : Connection} {m : HttpMetrics} (hp : c.place = .unopened) :
      Next model items c m none { c with place := .checking } m
  | disconnected {c : Connection} {m : HttpMetrics} (hp : c.place = .checking) :
      Next model items c m (some c.requestId) (c.cancelRead m).1 (c.cancelRead m).2
  | connected {c : Connection} {m : HttpMetrics} (hp : c.place = .checking) :
      Next model items c m none
        { c with
          place := .waiting
          pending := if c.pending = .idle then .reading else c.pending } m
  /-- The read begins to run. -/
  | start {c : Connection} {m : HttpMetrics} (hr : c.pending = .reading)
      (ht : c.timed.phase = .unstarted) :
      Next model items c m none { c with timed := (c.timed.start m).1 } (c.timed.start m).2
  /-- The read finds an item. -/
  | take {c : Connection} {m : HttpMetrics} {x : StreamItem}
      (hs : c.place = .checking ∨ c.place = .waiting) (hr : c.pending = .reading)
      (ht : c.timed.phase = .running) (hx : items[c.timed.taken]? = some x) :
      Next model items c m none
        { c with pending := .ready x, timed := (c.timed.pass m c.requestId x).1 }
        (c.timed.pass m c.requestId x).2
  | timedOut {c : Connection} {m : HttpMetrics} (hp : c.place = .waiting)
      (hr : c.pending = .reading) : Next model items c m none { c with place := .checking } m
  | send {c : Connection} {m : HttpMetrics} {x : StreamItem} (hp : c.place = .waiting)
      (hr : c.pending = .ready x) :
      Next model items c m none
        { c with
          place := .sending x
          pending := .idle
          frames := c.frames ++ [x.frame model c.requestId] } m
  | sentToken {c : Connection} {m : HttpMetrics} {t : Token}
      (hp : c.place = .sending (.streamToken t)) :
      Next model items c m none { c with place := .checking } m
  | sentEnd {c : Connection} {m : HttpMetrics} {status : RequestStatus}
      (hp : c.place = .sending (.streamEnd status)) :
      Next model items c m none
        { c with place := .sendingDone, frames := c.frames ++ [.done] } m
  | sentDone {c : Connection} {m : HttpMetrics} (hp : c.place = .sendingDone) :
      Next model items c m none { c with place := .streamed } m
  /-- The server tears the connection down at an await. -/
  | cancelled {c : Connection} {m : HttpMetrics} (hp : c.place = .checking ∨ c.place = .waiting) :
      Next model items c m (some c.requestId) (c.cancelRead m).1 (c.cancelRead m).2
  /-- Or between two frames, or before the first: the generator is closed where it stands. -/
  | closed {c : Connection} {m : HttpMetrics}
      (hp : c.place = .unopened ∨ ∃ x, c.place = .sending x) :
      Next model items c m none { c with place := .gone } m
  | collectToken {c : Connection} {m : HttpMetrics} {tokenIds : List Token}
      {reason : Option String} {t : Token} (hp : c.place = .collecting tokenIds reason)
      (ht : c.timed.phase = .running) (he : c.timed.ended = false)
      (hx : items[c.timed.taken]? = some (.streamToken t)) :
      Next model items c m none
        { c with
          place := .collecting (tokenIds ++ [t]) reason
          timed := (c.timed.pass m c.requestId (.streamToken t)).1 }
        (c.timed.pass m c.requestId (.streamToken t)).2
  | collectEnd {c : Connection} {m : HttpMetrics} {tokenIds : List Token}
      {reason : Option String} {status : RequestStatus} (hp : c.place = .collecting tokenIds reason)
      (ht : c.timed.phase = .running) (he : c.timed.ended = false)
      (hx : items[c.timed.taken]? = some (.streamEnd status)) :
      Next model items c m none
        { c with
          place := .collecting tokenIds (some (finishReason status))
          timed := (c.timed.pass m c.requestId (.streamEnd status)).1 }
        (c.timed.pass m c.requestId (.streamEnd status)).2
  /-- The stream returns after its end. -/
  | respond {c : Connection} {m : HttpMetrics} {tokenIds : List Token} {reason : Option String}
      (hp : c.place = .collecting tokenIds reason) (he : c.timed.ended = true) :
      Next model items c m none
        { c with
          place := .responded (c.response model tokenIds reason)
          pending := .idle
          timed := (c.timed.close m).1 } (c.timed.close m).2
  /-- A handler that does not stream aborts nothing when it is torn down. -/
  | dropped {c : Connection} {m : HttpMetrics} {tokenIds : List Token} {reason : Option String}
      (hp : c.place = .collecting tokenIds reason) :
      Next model items c m none (c.cancelRead m).1 (c.cancelRead m).2
  /-- A generator that nobody will read again is closed. -/
  | finalize {c : Connection} {m : HttpMetrics} (hp : c.place = .gone ∨ c.place = .streamed)
      (ht : c.timed.phase = .running) :
      Next model items c m none { c with timed := (c.timed.close m).1 } (c.timed.close m).2

end Connection

/-! ## The server -/

/-- What `create_app` is given. -/
structure AppConfig where
  modelName : String := "lightserve"
  defaultTimeoutS : Option ℕ := some 60

/-- The worker, the handlers in the order in which they submitted, and the metrics. -/
structure HttpState (σ : Type) where
  worker : WorkerState σ
  connections : List Connection := []
  metrics : HttpMetrics := {}

/-- `completions`, up to the put: the id is the client's, or a new one. -/
def HttpState.completions {σ : Type} (s : HttpState σ) (app : AppConfig) (body : CompletionRequest)
    (fresh : RequestId) : HttpState σ :=
  let requestId := body.requestId.getD fresh
  { s with
    worker := s.worker.put body.prompt
      { maxTokens := body.maxTokens, eosTokenId := body.eosTokenId } requestId
      (body.timeoutS <|> app.defaultTimeoutS)
    connections := s.connections ++ [{ body, requestId, handle := s.worker.nextHandle }] }

/-- `completions`, once `submit` has returned. -/
def Connection.submitted (c : Connection) : Connection :=
  if c.body.stream then { c with place := .unopened }
  else { c with place := .collecting [] none, pending := .reading }

/-- One action, with what it does to the worker. -/
inductive HttpState.Next {σ : Type} (E : ServedEngine σ) (app : AppConfig) :
    HttpState σ → Option WorkerState.Action → HttpState σ → Prop
  | thread {s : HttpState σ} {w : WorkerState σ} (hn : s.worker.Next E .thread w) :
      Next E app s (some .thread) { s with worker := w }
  | submit {s : HttpState σ} (body : CompletionRequest) (fresh : RequestId) :
      Next E app s (some (.put body.prompt
        { maxTokens := body.maxTokens, eosTokenId := body.eosTokenId } (body.requestId.getD fresh)
        (body.timeoutS <|> app.defaultTimeoutS))) (s.completions app body fresh)
  | submitted {s : HttpState σ} {w : WorkerState σ} {before after : List Connection}
      {c : Connection} (hc : s.connections = before ++ c :: after) (hp : c.place = .submitting)
      (hn : s.worker.Next E (.readError c.handle) w) :
      Next E app s (some (.readError c.handle))
        { s with worker := w, connections := before ++ c.submitted :: after }
  | respond {s : HttpState σ} {before after : List Connection} {c c' : Connection}
      {m : HttpMetrics} (hc : s.connections = before ++ c :: after)
      (hn : c.Next app.modelName (s.worker.items c.handle) s.metrics none c' m) :
      Next E app s none { s with connections := before ++ c' :: after, metrics := m }
  | abort {s : HttpState σ} {w : WorkerState σ} {before after : List Connection}
      {c c' : Connection} {m : HttpMetrics} {id : RequestId}
      (hc : s.connections = before ++ c :: after)
      (hr : c.Next app.modelName (s.worker.items c.handle) s.metrics (some id) c' m)
      (hn : s.worker.Next E (.abort id) w) :
      Next E app s (some (.abort id))
        { worker := w, connections := before ++ c' :: after, metrics := m }

/-- The states that actions lead to when what each does to the worker meets `Meets`. -/
inductive HttpRun {σ : Type} (E : ServedEngine σ) (app : AppConfig)
    (Meets : WorkerState σ → WorkerState.Action → Prop) (start : σ) : HttpState σ → Prop
  | start : HttpRun E app Meets start { worker := { engine := start } }
  | next {s s' : HttpState σ} {a : Option WorkerState.Action} (h : HttpRun E app Meets start s)
      (hm : ∀ b ∈ a, Meets s.worker b) (hn : s.Next E app a s') : HttpRun E app Meets start s'

end LightServe
