import LightServe.Engine.Scheduler

/-!
# The model runner

`ModelRunner.execute_model` of `model/model_runner.py`: concatenate the scheduled rows of
every request into one flat batch, run the forward pass over it, and commit the sampled
tokens of the requests that are done prefilling. The forward pass is a parameter, a function
from a token prefix to the argmax of its last row; greedy sampling is that argmax.

`maxModelLen` is the length of the rotary table and `vocabSize` that of the embedding table;
`none` takes the forward pass as a total function of the prefix.
-/

namespace LightServe

/-- The forward pass of a step, with the lengths of the tables it reads. -/
structure ModelRunner where
  /-- The greedy next token after a prefix. -/
  next : List Token → Token
  maxModelLen : Option ℕ := none
  vocabSize : Option ℕ := none

/-- The greedy verify rule: the rows' own tokens up to and including the first that differs
from the draft, and the bonus row after a fully accepted draft. -/
def acceptLoop (bonus : Token) : List Token → List Token → List Token
  | draftId :: drafts, t :: rows => if draftId ≠ t then [t] else t :: acceptLoop bonus drafts rows
  | _, _ => [bonus]

/-- `_accept_reject`: the last row is the bonus row. -/
def acceptReject (draftTokenIds rowTokens : List Token) : Except EngineError (List Token) :=
  match rowTokens.getLast? with
  | none => .error .indexOutOfRange
  | some bonus => .ok (acceptLoop bonus draftTokenIds rowTokens.dropLast)

/-- A scheduled request's part of the flat batch. -/
structure FlatRange where
  /-- The request as `execute_model` finds it. -/
  request : Request
  inputIds : List Token
  seqStart : ℕ
  seqEnd : ℕ
  flatStart : ℕ
  flatEnd : ℕ

namespace ModelRunner

/-- The input tokens of a scheduled request: its own tokens in range, or one own token and
the drafts in a verify round. -/
def inputIds (r : Request) (n seqStart seqEnd : ℕ) : Except EngineError (List Token) :=
  if r.draftTokenIds ≠ [] then
    if n = r.draftTokenIds.length + 1 then
      match r.allTokenIds[seqStart]? with
      | none => .error .indexOutOfRange
      | some t => .ok (t :: r.draftTokenIds)
    else .error (.draftMismatch r.requestId n r.draftTokenIds.length)
  else .ok ((r.allTokenIds.take seqEnd).drop seqStart)

/-- The loop of `_build_flat_batch`, from row `cursor` on. -/
def flatLoop (cursor : ℕ) : List (Request × ℕ) → Except EngineError (List FlatRange)
  | [] => .ok []
  | (r, n) :: scheduled => do
    let seqEnd := r.numComputedTokens
    let seqStart := seqEnd - n
    let inputIds ← inputIds r n seqStart seqEnd
    let ranges ← flatLoop (cursor + n) scheduled
    return { request := r, inputIds, seqStart, seqEnd
             flatStart := cursor, flatEnd := cursor + n } :: ranges

/-- The sequence positions of a request's rows. -/
def positions (f : FlatRange) : List ℕ := List.range' f.seqStart (f.seqEnd - f.seqStart)

/-- The flat batch. Only the last position of the batch is checked against the rotary
table. -/
def buildFlatBatch (m : ModelRunner) (scheduled : List (Request × ℕ)) :
    Except EngineError (List FlatRange) := do
  let ranges ← flatLoop 0 scheduled
  match m.maxModelLen, (ranges.flatMap positions).getLast? with
  | some maxLen, some position =>
    if position ≥ maxLen then throw (.exceedsModelLen position maxLen) else return ranges
  | _, _ => return ranges

/-- Whether the forward pass finds what it looks up for a request: an input token for every
row, the embedding of every token, the angles of every position, and a last row. -/
def Readable (m : ModelRunner) (f : FlatRange) : Prop :=
  f.inputIds.length = f.flatEnd - f.flatStart ∧
    (∀ n ∈ m.vocabSize, ∀ t ∈ f.inputIds, 0 ≤ t ∧ t < n) ∧
    (∀ n ∈ m.maxModelLen, ∀ p ∈ positions f, p < n) ∧ 0 < f.flatEnd

instance (m : ModelRunner) : DecidablePred m.Readable := fun _ => by
  unfold Readable
  infer_instance

/-- The lookups of the forward pass; tensors raise on an index they do not have. -/
def lookUp (m : ModelRunner) (ranges : List FlatRange) : Except EngineError Unit :=
  if ∀ f ∈ ranges, m.Readable f then .ok () else .error .indexOutOfRange

/-- The argmax of every row of a request: each row sees the request's tokens before its
range and the range's inputs up to itself. -/
def rowTokens (m : ModelRunner) (f : FlatRange) : List Token :=
  (List.range f.inputIds.length).map fun j =>
    m.next (f.request.allTokenIds.take f.seqStart ++ f.inputIds.take (j + 1))

/-- What a request commits this step, given the argmax of every row of the batch: nothing
while its prompt is not covered. -/
def committed (rows : List Token) (f : FlatRange) : Except EngineError (List Token) :=
  if f.request.isPrefill then .ok []
  else if f.request.draftTokenIds ≠ [] then
    acceptReject f.request.draftTokenIds ((rows.take f.flatEnd).drop f.flatStart)
  else match rows[f.flatEnd - 1]? with
    | none => .error .indexOutOfRange
    | some t => .ok [t]

/-- Append committed tokens and check the stop conditions. -/
def commit (tokens : List Token) (r : Request) : Request :=
  if tokens = [] then r
  else { r with outputTokenIds := r.outputTokenIds ++ tokens }.maybeFinish

end ModelRunner

namespace Scheduler

/-- Mutate the running request object with this id. -/
def updateRequest (s : Scheduler) (id : RequestId) (f : Request → Request) : Scheduler :=
  { s with running := s.running.map fun r => if r.requestId = id then f r else r }

/-- The running request with this id. -/
def findRequest (s : Scheduler) (id : RequestId) : Option Request :=
  s.running.find? fun r => r.requestId = id

/-- Resolve an output's references to the request objects. -/
def resolve (s : Scheduler) (scheduled : List ScheduledRequest) : List (Request × ℕ) :=
  scheduled.filterMap fun sr => (s.findRequest sr.request).map fun r => (r, sr.numScheduledTokens)

/-- The commit loop over the ranges of the batch. -/
def commitLoop (rows : List Token) :
    List FlatRange → Scheduler → Except EngineError Scheduler
  | [], s => .ok s
  | f :: ranges, s => do
    let tokens ← ModelRunner.committed rows f
    commitLoop rows ranges (s.updateRequest f.request.requestId (ModelRunner.commit tokens))

end Scheduler

/-- One forward pass over everything scheduled, and the commit of its samples. -/
def ModelRunner.executeModel (m : ModelRunner) (s : Scheduler) (out : SchedulerOutput) :
    Except EngineError Scheduler := do
  let ranges ← m.buildFlatBatch (s.resolve out.scheduled)
  m.lookUp ranges
  s.commitLoop (ranges.flatMap m.rowTokens) ranges

end LightServe
