import LightServe.Lib.Traces
import LightServe.Speculation.Shadows

/-!
# Runs of an engine with a draft model

Arrivals, steps and aborts of an engine that makes its own proposals. Up to the sweep a step is
that of an engine without a draft model, and the shadows of the verified requests are wound back
with them.

## Main definitions

* `DraftedEngine.Run` — the states that calls lead to.
* `LLMEngine.sweptStep_turns` — a step up to the sweep, and what it does to the shadows.
* `LLMEngine.Asks` — the calls of `propose` that a step makes.
-/

namespace LightServe

open Scheduler

/-- A call of an engine with a draft model. -/
inductive DraftedCall
  | addRequest (id : RequestId) (promptTokenIds : List Token) (params : SamplingParams)
  | step
  | abortRequests (ids : List RequestId)

namespace LLMEngine
variable {κ : Type}

/-- A fresh engine with a draft model, whose pool has blocks of the target's size. -/
def draftedStart (e : LLMEngine) (c : SpeculativeConfig) (runner : PagedRunner κ) (numGpuBlocks : ℕ)
    (slot : BlockId × ℕ → κ) : DraftedEngine κ where
  scheduler := e.start
  draftProposer := .new runner c.numSpeculativeTokens numGpuBlocks ⟨e.cacheConfig.blockSize, slot⟩

/-- Make a call; returns the requests that leave with it. -/
def draftedPerform (e : LLMEngine) (d : DraftedEngine κ) :
    DraftedCall → Except EngineError (DraftedEngine κ × List Request)
  | .addRequest id promptTokenIds params => do
    let s ← d.scheduler.addRequest (newRequest id promptTokenIds params)
    return ({ d with scheduler := s }, [])
  | .step => do
    let (d, _, finished) ← e.draftedStep d
    return (d, finished)
  | .abortRequests ids => do
    let (s, gone) ← d.scheduler.abortRequests ids
    return ({ d with scheduler := s }, gone)

/-- The states that calls lead to when each meets `Meets` in the state it is made in. -/
inductive DraftedRun (e : LLMEngine) (Meets : DraftedEngine κ → DraftedCall → Prop)
    (start : DraftedEngine κ) : DraftedEngine κ → Prop
  | start : DraftedRun e Meets start start
  | call {d d' : DraftedEngine κ} {gone : List Request} (c : DraftedCall)
      (h : DraftedRun e Meets start d) (hm : Meets d c)
      (hc : e.draftedPerform d c = .ok (d', gone)) :
      DraftedRun e Meets start d'

/-- Make calls in a row, each in a state in which it meets `Meets`. -/
def draftedPerformAll (e : LLMEngine) (Meets : DraftedEngine κ → DraftedCall → Prop)
    [∀ d c, Decidable (Meets d c)] (d : DraftedEngine κ) (calls : List DraftedCall) :
    Option (DraftedEngine κ) :=
  Trace.play (fun d c => (e.draftedPerform d c).toOption.map Prod.fst) Meets d calls

theorem DraftedRun.performAll {e : LLMEngine} {Meets : DraftedEngine κ → DraftedCall → Prop}
    [∀ d c, Decidable (Meets d c)] {start d d' : DraftedEngine κ} (h : e.DraftedRun Meets start d)
    {calls : List DraftedCall} (hrun : e.draftedPerformAll Meets d calls = some d') :
    e.DraftedRun Meets start d' := by
  refine Trace.invariant_of_play (fun d c _ d' h hm hact => ?_) hrun h
  obtain ⟨⟨d₁, gone⟩, hperform, rfl⟩ := Option.map_eq_some_iff.mp hact
  exact h.call c hm (toOption_eq_some.mp hperform)

/-- In a step from `d`, swept to `d₁`, the proposer is asked about `r` in the state `dp`. -/
structure Asks (e : LLMEngine) (d d₁ : DraftedEngine κ) (r : Request) (dp : DraftProposer κ) :
    Prop where
  swept : ∃ out finished, e.sweptStep d = .ok (d₁, out, finished)
  reached : ∃ pre post proposed, d₁.scheduler.running = pre ++ r :: post ∧
    DraftedEngine.proposeLoop pre d₁.draftProposer = .ok (dp, proposed)
  pastPrompt : r.isPrefill = false

end LLMEngine

/-! ## Correction -/

namespace DraftedEngine
variable {κ : Type}

theorem accepted_le (n : ℕ) (r : Request) : accepted n r ≤ r.outputTokenIds.length - n := by
  unfold accepted
  dsimp only
  split
  · split <;> omega
  · exact le_rfl

theorem accepted_pos {n : ℕ} {r : Request} (h : n < r.outputTokenIds.length) :
    0 < accepted n r := by
  unfold accepted
  dsimp only
  split
  · split <;> omega
  · omega

/-- What a correction leaves of a request is what it accepted. -/
theorem correctRound_eq_accepted {n k : ℕ} {r : Request} (h : n ≤ r.outputTokenIds.length) :
    ∃ status, correctRound n k r = { r with
      outputTokenIds := r.outputTokenIds.take (n + accepted n r)
      numComputedTokens := r.numComputedTokens - (k - accepted n r)
      draftTokenIds := []
      status } := by
  have hfull : r.outputTokenIds.take (n + (r.outputTokenIds.length - n)) = r.outputTokenIds :=
    List.take_of_length_le (by omega)
  unfold correctRound accepted
  dsimp only
  cases stopAt r.samplingParams n (r.outputTokenIds.drop n) with
  | none => exact ⟨r.status, by simp only [hfull]⟩
  | some i =>
    dsimp only
    split
    · exact ⟨_, by simp only [Nat.add_assoc]; rfl⟩
    · exact ⟨r.status, by simp only [hfull]⟩

theorem findRequest_updateRequest_ne {s : Scheduler} {id id' : RequestId} (hne : id' ≠ id)
    {f : Request → Request} (hf : ∀ r, (f r).requestId = r.requestId) :
    (s.updateRequest id f).findRequest id' = s.findRequest id' := by
  show List.find? _ (s.running.map _) = List.find? _ s.running
  induction s.running with
  | nil => rfl
  | cons r rs ih =>
    rw [List.map_cons, List.find?_cons, List.find?_cons, ih]
    by_cases hr : r.requestId = id
    · have hother : ¬ r.requestId = id' := fun h => hne (h.symm.trans hr)
      have hother' : ¬ (f r).requestId = id' := by rwa [hf]
      simp only [if_pos hr, decide_eq_false hother, decide_eq_false hother']
    · simp only [if_neg hr]

/-- By how much the correction loop winds a shadow back. -/
def windBack (K : ℕ) (preLen : List (RequestId × ℕ)) (scheduled : List ScheduledRequest)
    (s : Scheduler) (id : RequestId) : ℕ :=
  if id ∈ scheduled.map ScheduledRequest.request then
    (preLen.lookup id).elim 0 fun n => K - ((s.findRequest id).map (accepted n)).getD 0
  else 0

/-- The correction loop corrects the scheduler and winds shadows back. -/
theorem correctLoop_eq {preLen : List (RequestId × ℕ)} {scheduled : List ScheduledRequest}
    (hnodup : (scheduled.map ScheduledRequest.request).Nodup) (d : DraftedEngine κ)
    (hpool : d.draftProposer.Pooled) :
    (correctLoop preLen scheduled d).scheduler =
      Scheduler.correctLoop preLen scheduled d.scheduler ∧
    (correctLoop preLen scheduled d).draftProposer.Pooled ∧
    (correctLoop preLen scheduled d).draftProposer = { d.draftProposer with
      shadowRequests := (correctLoop preLen scheduled d).draftProposer.shadowRequests } ∧
    ∀ id, (correctLoop preLen scheduled d).draftProposer.shadowRequests.lookup id =
      (d.draftProposer.shadowRequests.lookup id).map fun shadow => { shadow with
        numComputedTokens := shadow.numComputedTokens -
          windBack d.draftProposer.numSpeculativeTokens preLen scheduled d.scheduler id } := by
  induction scheduled generalizing d with
  | nil => exact ⟨rfl, hpool, rfl, fun id => by simp [correctLoop, windBack]⟩
  | cons sr scheduled ih =>
    obtain ⟨hhead, hnodup⟩ := List.nodup_cons.mp hnodup
    rw [correctLoop, Scheduler.correctLoop]
    cases hn : preLen.lookup sr.request with
    | none =>
      obtain ⟨hs, hp, hdp, hl⟩ := ih hnodup d hpool
      refine ⟨hs, hp, hdp, fun id => (hl id).trans ?_⟩
      by_cases hid : id = sr.request
      · subst hid
        simp [windBack, hn, hhead]
      · simp [windBack, hid]
    | some n =>
      dsimp only
      set k := ((d.scheduler.findRequest sr.request).map (accepted n)).getD 0
      obtain ⟨hs, hp, hdp, hl⟩ := ih hnodup
        { scheduler := d.scheduler.updateRequest sr.request (correctRound n sr.numScheduledTokens)
          draftProposer := d.draftProposer.rollback sr.request k } (hpool.rollback _ _)
      have hroll : d.draftProposer.rollback sr.request k = { d.draftProposer with
          shadowRequests := (d.draftProposer.rollback sr.request k).shadowRequests } := by
        unfold DraftProposer.rollback
        split <;> rfl
      refine ⟨hs, hp, hdp.trans (by rw [hroll]), fun id => (hl id).trans ?_⟩
      by_cases hid : id = sr.request
      · subst hid
        have hzero : ∀ (K : ℕ) (s : Scheduler), windBack K preLen scheduled s sr.request = 0 :=
          fun K s =>
          if_neg hhead
        have hself : windBack d.draftProposer.numSpeculativeTokens preLen (sr :: scheduled)
            d.scheduler sr.request = d.draftProposer.numSpeculativeTokens - k := by
          simp [windBack, hn, k]
        simp only [hzero, Nat.sub_zero, hself]
        cases hsh : d.draftProposer.shadowRequests.lookup sr.request with
        | none => simp [DraftProposer.rollback, hsh]
        | some shadow => simp [DraftProposer.rollback, hsh]
      · have hkeep : (d.draftProposer.rollback sr.request k).shadowRequests.lookup id =
            d.draftProposer.shadowRequests.lookup id := by
          unfold DraftProposer.rollback
          split
          · rfl
          · exact Dict.lookup_set_ne _ _ hid
        have hfind := @findRequest_updateRequest_ne d.scheduler sr.request id hid
          (correctRound n sr.numScheduledTokens) (correctRound_requestId n sr.numScheduledTokens)
        have hK : (d.draftProposer.rollback sr.request k).numSpeculativeTokens =
            d.draftProposer.numSpeculativeTokens := by rw [hroll]
        simp only [hkeep, windBack, hfind, hK, List.map_cons, List.mem_cons, hid, false_or]

end DraftedEngine

/-! ## The swept step -/

namespace LLMEngine
variable {κ : Type} {e : LLMEngine} {d d₁ : DraftedEngine κ} {out : SchedulerOutput}
  {finished : List Request}

/-- How far a request's shadow is wound back in a step. -/
def shadowWindBack (K : ℕ) (out : SchedulerOutput) (served : Request → Request) (r : Request) : ℕ :=
  (out.roundOf r).elim 0 fun _ =>
    K - DraftedEngine.accepted r.outputTokenIds.length (served r)

/-- Up to the sweep a step is that of an engine without a draft model, and every shadow is wound
back as its request is. -/
theorem sweptStep_turns (o : InOrder d.scheduler) (hpool : d.draftProposer.Pooled)
    (h : e.sweptStep d = .ok (d₁, out, finished)) : ∃ s₁ s₃ plan victims as served,
      StepTurns none d.scheduler d₁.scheduler out finished s₁ s₃ d₁.scheduler plan victims as
        served ∧
      d₁.draftProposer.Pooled ∧
      d₁.draftProposer = { d.draftProposer with
        shadowRequests := d₁.draftProposer.shadowRequests } ∧
      (∀ r ∈ s₁.running, d₁.draftProposer.shadowRequests.lookup r.requestId =
        (d.draftProposer.shadowRequests.lookup r.requestId).map fun shadow => { shadow with
          numComputedTokens := shadow.numComputedTokens -
            shadowWindBack d.draftProposer.numSpeculativeTokens out served r }) ∧
      ∀ id, id ∉ s₁.running.map Request.requestId → d₁.draftProposer.shadowRequests.lookup id =
        d.draftProposer.shadowRequests.lookup id := by
  obtain ⟨⟨s₁, out'⟩, h₁, h⟩ := bind_eq_ok.mp h
  obtain ⟨s₂, h₂, h⟩ := bind_eq_ok.mp h
  obtain ⟨s₃, h₃, h⟩ := bind_eq_ok.mp h
  obtain ⟨⟨s₅, finished'⟩, h₅, hret⟩ := bind_eq_ok.mp h
  cases hret
  obtain ⟨o₁, -⟩ := o.schedule h₁
  obtain ⟨plan', victims', as', t⟩ := StepTrace.of_schedule h₁
  obtain ⟨hs, hp, hdp, hl⟩ :=
    @DraftedEngine.correctLoop_eq κ (s₁.specPreLen out) out.scheduledRunning
      (t.scheduledRunning_nodup o₁) { d with scheduler := s₃ } hpool
  rw [hs] at h₅
  obtain ⟨plan, victims, as, served, turns, -⟩ := stepTurns_of_stages none o h₁ h₂ h₃ h₅
  refine ⟨s₁, s₃, plan, victims, as, served, turns, hp, hdp, fun r hr => ?_, fun id hid => ?_⟩
  · rw [hl]
    have hfind : s₃.findRequest r.requestId = some (served r) := by
      have hnodup : (s₃.running.map Request.requestId).Nodup := by
        rw [turns.running, List.map_map]
        have hids : Request.requestId ∘ served = Request.requestId := funext turns.ids
        rw [hids]
        exact o₁.running_nodup
      rw [← turns.ids r]
      exact findRequest_of_mem hnodup (turns.running ▸ List.mem_map_of_mem hr)
    have hwind : DraftedEngine.windBack d.draftProposer.numSpeculativeTokens (s₁.specPreLen out)
        out.scheduledRunning s₃ r.requestId =
          shadowWindBack d.draftProposer.numSpeculativeTokens out served r := by
      rw [DraftedEngine.windBack, lookup_specPreLen o₁.running_nodup hr, shadowWindBack,
        SchedulerOutput.roundOf]
      by_cases hd : r.draftTokenIds = []
      · simp [hd]
      · by_cases hin : r.requestId ∈ out.scheduledRunning.map ScheduledRequest.request
        · obtain ⟨sr, hsr, hid⟩ := List.mem_map.mp hin
          have hsome := find?_of_mem_nodup (t.scheduledRunning_nodup o₁) hsr
          rw [hid] at hsome
          simp [hd, hin, hfind, hsome]
        · simp [hd, hin, find?_eq_none_of_notMem hin]
    simp only [hwind]
  · rw [hl]
    have hwind : DraftedEngine.windBack d.draftProposer.numSpeculativeTokens (s₁.specPreLen out)
        out.scheduledRunning s₃ id = 0 :=
      if_neg fun hmem => hid (t.mem_running_of_scheduled (by
        rw [SchedulerOutput.scheduled, List.map_append]
        exact List.mem_append_right _ hmem))
    simp [hwind]

end LLMEngine

end LightServe
