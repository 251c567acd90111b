import Mathlib.Data.Int.Notation
import Mathlib.Data.Nat.Notation

/-!
# Requests

The request record of `engine/request.py` and its lifecycle methods. Request ids
and trie nodes are only ever compared, so they are naturals here; token ids and length caps
are what a client sends, any integers.

`Request.block_table` is the same list object as the block manager's
`block_tables[request_id]`; the model keeps it once, in the block manager.
-/

namespace LightServe

abbrev Token := ℤ
abbrev RequestId := ℕ
abbrev BlockId := ℕ
/-- Identity of a trie node object. -/
abbrev NodeId := ℕ

/-- The lifecycle of a request. -/
inductive RequestStatus
  | waiting
  | running
  | preempted
  /-- Hit `eosTokenId`. -/
  | finishedStopped
  /-- Hit `maxTokens`. -/
  | finishedLengthCapped
  /-- Cancelled by the caller. -/
  | finishedAborted
  deriving DecidableEq, Repr, Inhabited

/-- Whether a status is terminal. -/
def RequestStatus.finished : RequestStatus → Bool
  | .finishedStopped | .finishedLengthCapped | .finishedAborted => true
  | _ => false

/-- When a request is done: the length cap and the optional end-of-sequence token. -/
structure SamplingParams where
  maxTokens : ℤ := 16
  eosTokenId : Option Token := none
  deriving DecidableEq, Repr, Inhabited

/-- One in-flight generation request. -/
structure Request where
  requestId : RequestId
  promptTokenIds : List Token
  samplingParams : SamplingParams := {}
  outputTokenIds : List Token := []
  status : RequestStatus := .waiting
  /-- The trie nodes this request currently holds a reference on, from the root down. -/
  cachedPrefixNodes : List NodeId := []
  /-- Tokens the draft model has proposed for this round. -/
  draftTokenIds : List Token := []
  /-- How many of the request's tokens already have a KV-cache entry. -/
  numComputedTokens : ℕ := 0
  deriving DecidableEq, Repr, Inhabited

namespace Request

def allTokenIds (r : Request) : List Token := r.promptTokenIds ++ r.outputTokenIds

def getLen (r : Request) : ℕ := r.promptTokenIds.length + r.outputTokenIds.length

/-- Tokens that still need a KV-cache entry. -/
def getNumNewTokens (r : Request) : ℤ := (r.getLen : ℤ) - r.numComputedTokens

/-- Whether uncomputed prompt tokens remain. -/
def isPrefill (r : Request) : Bool := r.numComputedTokens < r.promptTokenIds.length

def numBlocksNeeded (r : Request) (blockSize : ℕ) : ℕ :=
  if r.getLen = 0 then 0 else (r.getLen + blockSize - 1) / blockSize

def isFinished (r : Request) : Bool := r.status.finished

/-- The stop condition that fires on an output list, if one does: the end-of-sequence
token first, the length cap second. -/
def stopStatus (params : SamplingParams) (output : List Token) : Option RequestStatus :=
  if params.eosTokenId.isSome ∧ output.getLast? = params.eosTokenId then some .finishedStopped
  else if params.maxTokens ≤ output.length then some .finishedLengthCapped
  else none

/-- Update `status` if a stop condition fires; a finished request is left alone. -/
def maybeFinish (r : Request) : Request :=
  if r.status.finished then r
  else match stopStatus r.samplingParams r.outputTokenIds with
    | some status => { r with status }
    | none => r

@[simp] theorem length_allTokenIds (r : Request) : r.allTokenIds.length = r.getLen := by
  simp [allTokenIds, getLen]

/-- The block count of a request covers it, and no smaller count does. -/
theorem numBlocksNeeded_le_iff (r : Request) {blockSize n : ℕ} (h : 0 < blockSize) :
    r.numBlocksNeeded blockSize ≤ n ↔ r.getLen ≤ n * blockSize := by
  unfold numBlocksNeeded
  split
  · omega
  · rw [Nat.div_le_iff_le_mul_add_pred h, Nat.mul_comm blockSize n]
    omega

end Request

end LightServe
