import LightServe.Serving.Stages

/-!
# Turns

What a step does to one running request between its schedule and its sweep, told from the
request alone: nothing, a chunk of prompt, one sampled token, or a verified draft cut at the
first stop.

## Main definitions

* `Request.grown` — a request after some output tokens, with the stop rule applied.
* `turn_idle`, `turn_prefill`, `turn_sample`, `turn_round`, `turn_verify` — the turns.
-/

namespace LightServe

open Scheduler

/-- The request with more output, and the status that the stop rule gives it. -/
def Request.grown (r : Request) (tokens : List Token) : Request :=
  { r with
    outputTokenIds := r.outputTokenIds ++ tokens
    status := (stopStatus r.samplingParams (r.outputTokenIds ++ tokens)).getD r.status }

/-! ## The stop rule -/

/-- The rule on an output that ends with a given token. -/
theorem stopStatus_concat (params : SamplingParams) (out : List Token) (t : Token) :
    Request.stopStatus params (out ++ [t]) =
      if some t = params.eosTokenId then some .finishedStopped
      else if params.maxTokens ≤ out.length + 1 then some .finishedLengthCapped else none := by
  unfold Request.stopStatus
  rw [List.getLast?_concat, List.length_append, List.length_singleton, Nat.cast_succ]
  by_cases h : some t = params.eosTokenId
  · rw [if_pos ⟨h ▸ rfl, h⟩, if_pos h]
  · rw [if_neg fun hc => h hc.2, if_neg h]

/-- A request that may produce a token has not stopped before its first. -/
theorem stopStatus_nil {params : SamplingParams} (h : 0 < params.maxTokens) :
    Request.stopStatus params [] = none := by
  unfold Request.stopStatus
  rw [List.getLast?_nil, if_neg, if_neg]
  · rw [List.length_nil]
    omega
  · rintro ⟨hsome, hnone⟩
    rw [← hnone] at hsome
    cases hsome

theorem finished_of_stopStatus {params : SamplingParams} {out : List Token} {status : RequestStatus}
    (h : Request.stopStatus params out = some status) : status.finished = true := by
  unfold Request.stopStatus at h
  split at h
  · cases h; rfl
  · split at h
    · cases h; rfl
    · cases h

/-- An output stops at the latest when it is as long as it may be. -/
theorem length_le_of_stopStatus {params : SamplingParams} {out : List Token}
    (h : Request.stopStatus params out = none) : out.length < params.maxTokens := by
  unfold Request.stopStatus at h
  split at h
  · cases h
  · split at h
    · cases h
    · omega

section Cut
variable (params : SamplingParams) (old new : List Token)

/-- The rule after the first tokens of a batch. -/
theorem stopStatus_take {i : ℕ} (hi : i < new.length) :
    Request.stopStatus params (old ++ new.take (i + 1)) =
      if some new[i] = params.eosTokenId then some .finishedStopped
      else if params.maxTokens ≤ old.length + i + 1 then some .finishedLengthCapped else none := by
  rw [List.take_succ_eq_append_getElem hi, ← List.append_assoc, stopStatus_concat,
    List.length_append, List.length_take, Nat.min_eq_left hi.le, Nat.cast_add]

theorem stopStatus_isSome_iff {i : ℕ} (hi : i < new.length) :
    (Request.stopStatus params (old ++ new.take (i + 1))).isSome = true ↔
      some new[i] = params.eosTokenId ∨ old.length + i + 1 ≥ params.maxTokens := by
  rw [stopStatus_take params old new hi]
  by_cases h : some new[i] = params.eosTokenId
  · simp [h]
  · rw [if_neg h]
    split <;> simp_all

/-- Where a batch is not cut, the rule fires nowhere in it. -/
theorem of_stopAt_none (h : stopAt params old.length new = none) {i : ℕ} (hi : i < new.length) :
    Request.stopStatus params (old ++ new.take (i + 1)) = none := by
  rw [← Option.not_isSome_iff_eq_none, stopStatus_isSome_iff params old new hi]
  have := List.findIdx?_eq_none_iff.mp h (new[i], i)
    (List.mem_zipIdx_iff_getElem?.mpr (by simp [hi]))
  simpa using this

/-- A batch is cut where the rule fires first. -/
theorem of_stopAt_some {k : ℕ} (h : stopAt params old.length new = some k) : k < new.length ∧
    Request.stopStatus params (old ++ new.take (k + 1)) =
      some (if new[k]? = params.eosTokenId then .finishedStopped else .finishedLengthCapped) ∧
    ∀ i < k, Request.stopStatus params (old ++ new.take (i + 1)) = none := by
  obtain ⟨hk, hfires, hbefore⟩ := List.findIdx?_eq_some_iff_getElem.mp h
  rw [List.length_zipIdx] at hk
  simp only [List.getElem_zipIdx, Nat.zero_add, decide_eq_true_eq] at hfires hbefore
  refine ⟨hk, ?_, fun i hi => ?_⟩
  · rw [stopStatus_take params old new hk, List.getElem?_eq_getElem hk]
    rcases hfires with heos | hcap
    · rw [if_pos heos, if_pos heos]
    · by_cases heos : some new[k] = params.eosTokenId
      · rw [if_pos heos, if_pos heos]
      · rw [if_neg heos, if_neg heos, if_pos hcap]
  · rw [← Option.not_isSome_iff_eq_none, stopStatus_isSome_iff params old new (hi.trans hk)]
    simpa using hbefore i hi

end Cut

/-! ## Commit and correction -/

section Commit
variable {r : Request} {tokens : List Token}

@[simp] theorem commit_nil (r : Request) : ModelRunner.commit [] r = r := if_pos rfl

/-- A commit to a request that has not finished grows it. -/
theorem commit_eq (h : r.isFinished = false) (hne : tokens ≠ []) :
    ModelRunner.commit tokens r = r.grown tokens := by
  have hst : r.status.finished = false := h
  rw [ModelRunner.commit, if_neg hne, Request.maybeFinish, Request.grown]
  simp only [hst, Bool.false_eq_true, if_false]
  cases Request.stopStatus r.samplingParams (r.outputTokenIds ++ tokens) <;> rfl

/-- Correcting a verify round: what is kept of the batch ends at the first stop, and the
request is wound back to it. -/
theorem correctRound_eq (r : Request) (hne : tokens ≠ []) (n : ℕ) : ∃ j,
    0 < j ∧ j ≤ tokens.length ∧
    (∀ i, 0 < i → i < j →
      Request.stopStatus r.samplingParams (r.outputTokenIds ++ tokens.take i) = none) ∧
    (j < tokens.length →
      (Request.stopStatus r.samplingParams (r.outputTokenIds ++ tokens.take j)).isSome = true) ∧
    correctRound r.outputTokenIds.length n (r.grown tokens) = { r.grown (tokens.take j) with
      numComputedTokens := r.numComputedTokens - (n - j)
      draftTokenIds := [] } := by
  have hlen : (r.grown tokens).outputTokenIds.length - r.outputTokenIds.length = tokens.length := by
    rw [Request.grown, List.length_append, Nat.add_sub_cancel_left]
  have hdrop : (r.grown tokens).outputTokenIds.drop r.outputTokenIds.length = tokens := by
    rw [Request.grown, List.drop_left]
  have hpos : 0 < tokens.length := List.length_pos_iff.mpr hne
  unfold correctRound
  dsimp only
  rw [hlen, hdrop]
  cases hstop : stopAt (r.grown tokens).samplingParams r.outputTokenIds.length tokens with
  | none =>
    refine ⟨tokens.length, hpos, le_rfl, fun i hi hlt => ?_, fun h => absurd h (lt_irrefl _),
      by rw [List.take_length]; rfl⟩
    obtain ⟨i, rfl⟩ := Nat.exists_eq_add_of_le' hi
    exact of_stopAt_none _ _ _ hstop (by omega)
  | some k =>
    obtain ⟨hk, hstatus, hbefore⟩ := of_stopAt_some _ _ _ hstop
    have hgo : ∀ i, 0 < i → i < k + 1 →
        Request.stopStatus r.samplingParams (r.outputTokenIds ++ tokens.take i) = none := by
      intro i hi hlt
      obtain ⟨i, rfl⟩ := Nat.exists_eq_add_of_le' hi
      exact hbefore i (by omega)
    dsimp only
    split
    · have hstatus' : Request.stopStatus r.samplingParams
          (r.outputTokenIds ++ tokens.take (k + 1)) = _ := hstatus
      refine ⟨k + 1, by omega, by omega, hgo, fun _ => ?_, ?_⟩
      · rw [hstatus', Option.isSome_some]
      · simp only [Request.grown, hstatus', Option.getD_some, Nat.add_assoc,
          List.take_length_add_append]
    · have hfull : k + 1 = tokens.length := by omega
      exact ⟨tokens.length, hpos, le_rfl, fun i hi hlt => hgo i hi (by omega),
        fun h => absurd h (lt_irrefl _), by rw [List.take_length]; rfl⟩

/-- A round that committed nothing is undone. -/
theorem correctRound_self (r : Request) (n : ℕ) :
    correctRound r.outputTokenIds.length n r = { r with
      numComputedTokens := r.numComputedTokens - n
      draftTokenIds := [] } := by
  have hnone : stopAt r.samplingParams r.outputTokenIds.length
      (r.outputTokenIds.drop r.outputTokenIds.length) = none := by
    rw [List.drop_length]
    rfl
  unfold correctRound
  dsimp only
  rw [hnone, Nat.sub_self]
  rfl

end Commit

/-! ## Turns -/

namespace LLMEngine
variable {e : LLMEngine} {out : SchedulerOutput} {r : Request} {n : ℕ}

theorem turn_idle (hn : out.tokensOf r.requestId = none) (hround : out.roundOf r = none) :
    e.turn out r = r := by
  rw [turn, hround, Option.elim_none, ModelRunner.serve, hn, Option.elim_none]

/-- Outside a verify round a scheduled request commits its sample. -/
theorem turn_commit (hn : out.tokensOf r.requestId = some n) (hround : out.roundOf r = none) :
    e.turn out r = ModelRunner.commit (e.runner.sample r n) r := by
  rw [turn, hround, Option.elim_none, ModelRunner.serve, hn, Option.elim_some]

/-- Inside its prompt a request commits nothing. -/
theorem turn_prefill (hn : out.tokensOf r.requestId = some n) (hround : out.roundOf r = none)
    (hpre : r.isPrefill = true) : e.turn out r = r := by
  rw [turn_commit hn hround, ModelRunner.sample, if_pos hpre, commit_nil]

/-- Past its prompt, and without a draft, a request commits one token. -/
theorem turn_sample (hn : out.tokensOf r.requestId = some n) (hround : out.roundOf r = none)
    (hpre : r.isPrefill = false) (hd : r.draftTokenIds = []) (hfin : r.isFinished = false) :
    e.turn out r = r.grown [e.runner.next (r.allTokenIds.take r.numComputedTokens)] := by
  rw [turn_commit hn hround, ModelRunner.sample, hpre, if_neg Bool.false_ne_true,
    if_neg (not_not.mpr hd), commit_eq hfin (List.cons_ne_nil _ _)]

/-- A verify round inside the prompt is undone, and its draft is gone. -/
theorem turn_round_prefill (hn : out.tokensOf r.requestId = some n)
    (hround : out.roundOf r = some n) (hpre : r.isPrefill = true) :
    e.turn out r = { r with
      numComputedTokens := r.numComputedTokens - n
      draftTokenIds := [] } := by
  rw [turn, hround, Option.elim_some, ModelRunner.serve, hn, Option.elim_some,
    ModelRunner.sample, if_pos hpre, commit_nil, correctRound_self]

/-- A verify round past the prompt keeps a first part of what a greedy check of the draft
keeps: all of it, or up to the first stop. -/
theorem turn_round (hn : out.tokensOf r.requestId = some n) (hround : out.roundOf r = some n)
    (hpre : r.isPrefill = false) (hd : r.draftTokenIds ≠ []) (hfin : r.isFinished = false)
    {tokens : List Token} (htokens : tokens = Decode.verify e.runner.next
      (r.allTokenIds.take (r.numComputedTokens - n + 1)) r.draftTokenIds) :
    ∃ j, 0 < j ∧ j ≤ tokens.length ∧
      (∀ i, 0 < i → i < j →
        Request.stopStatus r.samplingParams (r.outputTokenIds ++ tokens.take i) = none) ∧
      (j < tokens.length →
        (Request.stopStatus r.samplingParams (r.outputTokenIds ++ tokens.take j)).isSome = true) ∧
      e.turn out r = { r.grown (tokens.take j) with
        numComputedTokens := r.numComputedTokens - (n - j)
        draftTokenIds := [] } := by
  have hne : tokens ≠ [] := htokens ▸ Decode.verify_ne_nil _ _ _
  obtain ⟨j, hpos, hj, hgo, hstop, heq⟩ := correctRound_eq r hne n
  refine ⟨j, hpos, hj, hgo, hstop, ?_⟩
  rw [turn, hround, Option.elim_some, ModelRunner.serve, hn, Option.elim_some,
    ModelRunner.sample, hpre, if_neg Bool.false_ne_true, if_pos hd, ← htokens, commit_eq hfin hne]
  exact heq

/-- A verify round past the prompt keeps greedy tokens. -/
theorem turn_verify (hn : out.tokensOf r.requestId = some n) (hround : out.roundOf r = some n)
    (hpre : r.isPrefill = false) (hd : r.draftTokenIds ≠ []) (hfin : r.isFinished = false) :
    ∃ j, 0 < j ∧ j ≤ r.draftTokenIds.length + 1 ∧ ∃ kept, kept.length = j ∧
      Decode.Greedy e.runner.next (r.allTokenIds.take (r.numComputedTokens - n + 1)) kept ∧
      (∀ i, 0 < i → i < j →
        Request.stopStatus r.samplingParams (r.outputTokenIds ++ kept.take i) = none) ∧
      e.turn out r = { r.grown kept with
        numComputedTokens := r.numComputedTokens - (n - j)
        draftTokenIds := [] } := by
  obtain ⟨j, hpos, hj, hgo, -, hturn⟩ := turn_round (e := e) hn hround hpre hd hfin rfl
  refine ⟨j, hpos, hj.trans (Decode.length_verify_le _ _ _), _, List.length_take_of_le hj,
    (Decode.greedy_verify _ _ _).take j, fun i hi hlt => ?_, hturn⟩
  rw [List.take_take, Nat.min_eq_left hlt.le]
  exact hgo i hi hlt

end LLMEngine

/-- A request and a later state of it: its identity, prompt, parameters and holds stay. -/
structure SameRequest (r r' : Request) : Prop where
  requestId : r'.requestId = r.requestId
  promptTokenIds : r'.promptTokenIds = r.promptTokenIds
  samplingParams : r'.samplingParams = r.samplingParams
  cachedPrefixNodes : r'.cachedPrefixNodes = r.cachedPrefixNodes

theorem SameRequest.refl (r : Request) : SameRequest r r := ⟨rfl, rfl, rfl, rfl⟩

theorem SameRequest.trans {r r' r'' : Request} (h : SameRequest r r') (h' : SameRequest r' r'') :
    SameRequest r r'' :=
  ⟨h'.requestId.trans h.requestId, h'.promptTokenIds.trans h.promptTokenIds,
    h'.samplingParams.trans h.samplingParams, h'.cachedPrefixNodes.trans h.cachedPrefixNodes⟩

theorem sameRequest_commit (tokens : List Token) (r : Request) :
    SameRequest r (ModelRunner.commit tokens r) := by
  unfold ModelRunner.commit Request.maybeFinish
  split
  · exact .refl r
  · split
    · exact ⟨rfl, rfl, rfl, rfl⟩
    · split <;> exact ⟨rfl, rfl, rfl, rfl⟩

@[simp] theorem commit_numComputedTokens (tokens : List Token) (r : Request) :
    (ModelRunner.commit tokens r).numComputedTokens = r.numComputedTokens := by
  unfold ModelRunner.commit Request.maybeFinish
  split
  · rfl
  · split
    · rfl
    · split <;> rfl

@[simp] theorem serve_numComputedTokens (m : ModelRunner) (out : SchedulerOutput) (r : Request) :
    (m.serve out r).numComputedTokens = r.numComputedTokens := by
  unfold ModelRunner.serve
  cases out.tokensOf r.requestId with
  | none => rfl
  | some n => exact commit_numComputedTokens _ r

theorem sameRequest_correctRound (preLen n : ℕ) (r : Request) :
    SameRequest r (correctRound preLen n r) := by
  unfold correctRound
  dsimp only
  split
  · split <;> exact ⟨rfl, rfl, rfl, rfl⟩
  · exact ⟨rfl, rfl, rfl, rfl⟩

namespace LLMEngine

theorem sameRequest_serve (e : LLMEngine) (out : SchedulerOutput) (r : Request) :
    SameRequest r (e.runner.serve out r) := by
  unfold ModelRunner.serve
  cases out.tokensOf r.requestId with
  | none => exact .refl r
  | some n => exact sameRequest_commit _ r

theorem sameRequest_turn (e : LLMEngine) (out : SchedulerOutput) (r : Request) :
    SameRequest r (e.turn out r) := by
  unfold turn
  cases out.roundOf r with
  | none => exact sameRequest_serve e out r
  | some n => exact (sameRequest_serve e out r).trans (sameRequest_correctRound _ _ _)

end LLMEngine

end LightServe
