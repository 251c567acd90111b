import LightServe.Lib.Traces
import LightServe.Serving.Turns

/-!
# Runs of the engine

The engine as its callers use it: requests arrive, steps are made, requests are aborted, in
any order. A step that returned is told by its schedule's decisions and by the turns of the
requests it left running.

## Main definitions

* `LLMEngine.Run` — the states of an engine, with all that ever arrived.
* `LLMEngine.StepSpec` — a step, told by decisions and turns.
* `LLMEngine.StepStages` — a step, told by the states between its stages.
* `LLMEngine.stepSpec_of_step` — every step that returned is one of these.
-/

namespace LightServe

open Scheduler

/-- The states that arrivals, steps and aborts lead to when every arrival meets `Admits` and
every step starts from a state that meets `Meets`, with everyone who arrived. -/
inductive LLMEngine.Run (e : LLMEngine) (Admits : Request → Prop) (Meets : Scheduler → Prop) :
    Scheduler → List Request → Prop
  | start : Run e Admits Meets e.start []
  | addRequest {s s' : Scheduler} {arrived : List Request} (id : RequestId)
      (promptTokenIds : List Token) (params : SamplingParams) (h : Run e Admits Meets s arrived)
      (ha : Admits (newRequest id promptTokenIds params))
      (hs : s.addRequest (newRequest id promptTokenIds params) = .ok s') :
      Run e Admits Meets s' (arrived ++ [newRequest id promptTokenIds params])
  | step {s s' : Scheduler} {arrived finished : List Request} {out : SchedulerOutput}
      (drafts : Option (RequestId → List Token)) (h : Run e Admits Meets s arrived)
      (hd : e.Proposes drafts) (hm : Meets s) (hs : e.step drafts s = .ok (s', out, finished)) :
      Run e Admits Meets s' arrived
  | abortRequests {s s' : Scheduler} {arrived gone : List Request} (ids : List RequestId)
      (h : Run e Admits Meets s arrived) (hs : s.abortRequests ids = .ok (s', gone)) :
      Run e Admits Meets s' arrived

/-- A call of an engine. -/
inductive EngineCall
  | addRequest (id : RequestId) (promptTokenIds : List Token) (params : SamplingParams)
  | step (drafts : Option (RequestId → List Token))
  | abortRequests (ids : List RequestId)

/-- Who arrives with a call. -/
def EngineCall.arrivals : EngineCall → List Request
  | .addRequest id promptTokenIds params => [LLMEngine.newRequest id promptTokenIds params]
  | .step _ | .abortRequests _ => []

def EngineCall.isStep : EngineCall → Bool
  | .step _ => true
  | .addRequest .. | .abortRequests _ => false

namespace LLMEngine

/-- Make a call; returns the requests that leave with it. -/
def perform (e : LLMEngine) (s : Scheduler) :
    EngineCall → Except EngineError (Scheduler × List Request)
  | .addRequest id promptTokenIds params => do
    return (← s.addRequest (newRequest id promptTokenIds params), [])
  | .step drafts => do
    let (s, _, finished) ← e.step drafts s
    return (s, finished)
  | .abortRequests ids => s.abortRequests ids

/-- Make a call and follow who arrived. -/
def performArrived (e : LLMEngine) (s : Scheduler × List Request) (c : EngineCall) :
    Option (Scheduler × List Request) :=
  (e.perform s.1 c).toOption.map fun (s', _) => (s', s.2 ++ c.arrivals)

/-- Make calls in a row, each step from a state that meets `Meets`. -/
def performAll (e : LLMEngine) (Meets : Scheduler → Prop) [DecidablePred Meets] (s : Scheduler)
    (arrived : List Request) (calls : List EngineCall) : Option (Scheduler × List Request) :=
  Trace.play e.performArrived (fun s c => c.isStep → Meets s.1) (s, arrived) calls

/-- What a caller has to see to when making a call. -/
def Allows (e : LLMEngine) (Admits : Request → Prop) : EngineCall → Prop
  | .addRequest id promptTokenIds params => Admits (newRequest id promptTokenIds params)
  | .step drafts => e.Proposes drafts
  | .abortRequests _ => True

theorem Run.performAll {e : LLMEngine} {Admits : Request → Prop} {Meets : Scheduler → Prop}
    [DecidablePred Meets] {s s' : Scheduler} {arrived arrived' : List Request}
    (h : e.Run Admits Meets s arrived) {calls : List EngineCall}
    (ha : ∀ c ∈ calls, e.Allows Admits c)
    (hrun : e.performAll Meets s arrived calls = some (s', arrived')) :
    e.Run Admits Meets s' arrived' := by
  refine Trace.invariant_of_play (I := fun s => e.Run Admits Meets s.1 s.2) ?_ hrun h
  intro s c hmem s' h hm hact
  obtain ⟨⟨s₁, gone⟩, hperform, rfl⟩ := Option.map_eq_some_iff.mp hact
  have hc := toOption_eq_some.mp hperform
  have hac := ha c hmem
  cases c with
  | addRequest id promptTokenIds params =>
    obtain ⟨s₂, hadd, hret⟩ := bind_eq_ok.mp hc
    cases hret
    exact .addRequest id promptTokenIds params h hac hadd
  | step drafts =>
    obtain ⟨⟨s₂, out, finished⟩, hstep, hret⟩ := bind_eq_ok.mp hc
    cases hret
    rw [EngineCall.arrivals, List.append_nil]
    exact .step drafts h hac (hm rfl) hstep
  | abortRequests ids =>
    rw [EngineCall.arrivals, List.append_nil]
    exact .abortRequests ids h hc

end LLMEngine

/-- The request as it arrived. -/
def Request.origin (r : Request) : Request :=
  LLMEngine.newRequest r.requestId r.promptTokenIds r.samplingParams

/-- The request once proposals are out. -/
def Request.proposed (drafts : Option (RequestId → List Token)) (r : Request) : Request :=
  drafts.elim r fun d => if r.isPrefill then r else { r with draftTokenIds := d r.requestId }

theorem Scheduler.proposeIf_eq (s : Scheduler) (drafts : Option (RequestId → List Token)) :
    s.proposeIf drafts = { s with running := s.running.map (Request.proposed drafts) } := by
  cases drafts with
  | none =>
    have : s.running.map (Request.proposed none) = s.running := by
      rw [show Request.proposed none = id from rfl, List.map_id]
    rw [this]
    rfl
  | some d => rfl

/-- A proposal is to the draft only. -/
theorem Request.proposed_eq (drafts : Option (RequestId → List Token)) (r : Request) :
    ∃ draft, r.proposed drafts = { r with draftTokenIds := draft } := by
  unfold Request.proposed
  cases drafts with
  | none => exact ⟨_, rfl⟩
  | some d =>
    rw [Option.elim_some]
    split <;> exact ⟨_, rfl⟩

theorem sameRequest_proposed (drafts : Option (RequestId → List Token)) (r : Request) :
    SameRequest r (r.proposed drafts) := by
  obtain ⟨draft, h⟩ := r.proposed_eq drafts
  rw [h]
  exact ⟨rfl, rfl, rfl, rfl⟩

/-! ## Arrivals and aborts -/

theorem Scheduler.addRequest_eq {s s' : Scheduler} {id : RequestId} {promptTokenIds : List Token}
    {params : SamplingParams}
    (h : s.addRequest (LLMEngine.newRequest id promptTokenIds params) = .ok s') :
    s' = { s with
      requests := s.requests ++ [id]
      waiting := s.waiting ++ [LLMEngine.newRequest id promptTokenIds params] } := by
  unfold addRequest at h
  split at h
  · cases h
  · cases h
    rfl

/-- A condition on what a step's schedule returns, tested by running the schedule. -/
instance Scheduler.decidableOnSchedule (s : Scheduler) (P : Scheduler → SchedulerOutput → Prop)
    [∀ s₁ out, Decidable (P s₁ out)] :
    Decidable (∀ s₁ out, s.schedule = .ok (s₁, out) → P s₁ out) :=
  match s.schedule with
  | .error _ => .isTrue fun _ _ h => nomatch h
  | .ok (s₁, out) => decidable_of_iff (P s₁ out)
    ⟨fun hp _ _ h => by cases h; exact hp, fun hall => hall s₁ out rfl⟩

/-- Who is left after an abort is as before, and in the same order. -/
theorem Scheduler.sublist_of_abortRequests {s s' : Scheduler} {ids : List RequestId}
    {gone : List Request} (h : s.abortRequests ids = .ok (s', gone)) :
    s'.running.Sublist s.running ∧ s'.waiting.Sublist s.waiting ∧
      s'.schedulerConfig = s.schedulerConfig := by
  obtain ⟨⟨s₁, finished⟩, hfree, hret⟩ := bind_eq_ok.mp h
  obtain ⟨⟨bm, rs⟩, -, hret'⟩ := bind_eq_ok.mp hfree
  cases hret
  cases hret'
  refine ⟨?_, List.filter_sublist, rfl⟩
  have hkept : (s.running.map fun r : Request =>
      if r.requestId ∈ ids then { r with status := .finishedAborted } else r).filter
        (fun r => ¬ r.isFinished) =
      s.running.filter fun r => r.requestId ∉ ids ∧ ¬ r.isFinished := by
    induction s.running with
    | nil => rfl
    | cons r running ih =>
      by_cases hid : r.requestId ∈ ids
      · simpa [hid, Request.isFinished, RequestStatus.finished] using ih
      · by_cases hfin : r.isFinished = true
        · simpa [hid, hfin] using ih
        · simpa [hid, hfin] using ih
  exact hkept ▸ List.filter_sublist

theorem Scheduler.mem_of_abortRequests {s s' : Scheduler} {ids : List RequestId}
    {gone : List Request} (h : s.abortRequests ids = .ok (s', gone)) :
    (∀ r ∈ s'.running, r ∈ s.running) ∧ ∀ r ∈ s'.waiting, r ∈ s.waiting := by
  obtain ⟨hrunning, hwaiting, -⟩ := sublist_of_abortRequests h
  exact ⟨fun r hr => hrunning.subset hr, fun r hr => hwaiting.subset hr⟩

/-! ## The rows of a step -/

namespace StepTrace
variable {s s' : Scheduler} {out : SchedulerOutput} {plan : List Decision} {victims : List Request}
  {as : List Admission}

/-- A row range of the step belongs to a running request and has the scheduled length. -/
theorem of_mem_resolve (t : StepTrace s s' out plan victims as) (o : InOrder s')
    {r : Request} {n : ℕ} (h : (r, n) ∈ s'.resolve out.scheduled) :
    r ∈ s'.running ∧ out.tokensOf r.requestId = some n := by
  obtain ⟨sr, hsr, hfind, hn⟩ := mem_resolve.mp h
  obtain ⟨hmem, hid⟩ := Scheduler.findRequest_eq_some hfind
  refine ⟨hmem, ?_⟩
  rw [SchedulerOutput.tokensOf, hid, find?_of_mem_nodup (t.scheduled_nodup o) hsr, ← hn]
  rfl

/-- The rows of a step lie within the tokens of its requests. -/
theorem placed (t : StepTrace s s' out plan victims as) (o : InOrder s') (hq : s.Queued)
    {rn : Request × ℕ} (h : rn ∈ s'.resolve out.scheduled) : Placed rn.1 rn.2 := by
  obtain ⟨hmem, htokens⟩ := t.of_mem_resolve o h
  rw [t.running', List.mem_append] at hmem
  rcases hmem with hmem | hmem
  · obtain ⟨d, hd, hr⟩ := List.mem_map.mp hmem
    obtain ⟨budget, hsound⟩ := t.plan_sound' hd
    rw [← hr, Decision.result_requestId, t.tokensOf_plan o hd] at htokens
    rcases hsound.cases with ⟨hg, -⟩ | ⟨n, hpos, -, hg, hres, -, hlen⟩
    · rw [hg] at htokens
      cases htokens
    · obtain rfl : n = rn.2 := by simpa [hg] using htokens
      rw [← hr, hres]
      exact ⟨hpos, Nat.le_add_left _ _, fun hnil => (hlen hnil).1⟩
  · obtain ⟨a, ha, hr⟩ := List.mem_map.mp hmem
    obtain ⟨budget, hsound⟩ := t.admissions_sound' ha
    obtain ⟨hprompt, hnc⟩ := hq _ (t.mem_waiting ha)
    rw [← hr, Admission.result_requestId, t.tokensOf_admission o ha] at htokens
    obtain ⟨k, n, hpos, -, hchunk, -, hres, hlen, -⟩ := hsound.cases hprompt hnc
    obtain rfl : n = rn.2 := by simpa [hchunk] using htokens
    rw [← hr, hres]
    exact ⟨hpos, Nat.le_add_left _ _, fun _ => hlen⟩

end StepTrace

/-! ## The sweep -/

theorem Scheduler.freeAll_renoded {bm bm' : BlockManager} {rs rs' : List Request}
    (h : freeAll bm rs = .ok (bm', rs')) {r' : Request} (hr : r' ∈ rs') :
    ∃ r ∈ rs, Renoded r r' := by
  induction rs generalizing bm rs' with
  | nil => cases h; cases hr
  | cons r rs ih =>
    obtain ⟨⟨bm₁, r₁⟩, hfree, hrest⟩ := bind_eq_ok.mp h
    obtain ⟨⟨bm₂, rs₁⟩, hall, hret⟩ := bind_eq_ok.mp hrest
    cases hret
    rcases List.mem_cons.mp hr with rfl | hr
    · exact ⟨r, List.mem_cons_self, BlockManager.free_request hfree⟩
    · obtain ⟨q, hq, hren⟩ := ih hall hr
      exact ⟨q, List.mem_cons_of_mem _ hq, hren⟩

theorem Scheduler.renoded_of_freeAll {bm bm' : BlockManager} {rs rs' : List Request}
    (h : freeAll bm rs = .ok (bm', rs')) {r : Request} (hr : r ∈ rs) :
    ∃ r' ∈ rs', Renoded r r' := by
  induction rs generalizing bm rs' with
  | nil => cases hr
  | cons q rs ih =>
    obtain ⟨⟨bm₁, q₁⟩, hfree, hrest⟩ := bind_eq_ok.mp h
    obtain ⟨⟨bm₂, rs₁⟩, hall, hret⟩ := bind_eq_ok.mp hrest
    cases hret
    rcases List.mem_cons.mp hr with rfl | hr
    · exact ⟨q₁, List.mem_cons_self, BlockManager.free_request hfree⟩
    · obtain ⟨r', hr', hren⟩ := ih hall hr
      exact ⟨r', List.mem_cons_of_mem _ hr', hren⟩

/-- A sweep returns who finished and keeps the others. -/
theorem Scheduler.mem_of_sweep {s s' : Scheduler} {finished : List Request}
    (h : s.freeFinishedRequests = .ok (s', finished)) {r : Request} (hr : r ∈ s.running) :
    (r.isFinished = true ∧ ∃ r' ∈ finished, Renoded r r') ∨
      (r.isFinished = false ∧ r ∈ s'.running) := by
  obtain ⟨⟨bm, rs⟩, hall, hret⟩ := bind_eq_ok.mp h
  cases hret
  cases hfin : r.isFinished with
  | true => exact .inl ⟨rfl, renoded_of_freeAll hall (List.mem_filter.mpr ⟨hr, hfin⟩)⟩
  | false => exact .inr ⟨rfl, List.mem_filter.mpr ⟨hr, by simp [hfin]⟩⟩

/-- Whom a sweep returns had finished. -/
theorem Scheduler.finished_of_sweep {s s' : Scheduler} {finished : List Request}
    (h : s.freeFinishedRequests = .ok (s', finished)) {r' : Request} (hr : r' ∈ finished) :
    ∃ r ∈ s.running, r.isFinished = true ∧ Renoded r r' := by
  obtain ⟨⟨bm, rs⟩, hall, hret⟩ := bind_eq_ok.mp h
  cases hret
  obtain ⟨r, hmem, hren⟩ := freeAll_renoded hall hr
  obtain ⟨hmem, hfin⟩ := List.mem_filter.mp hmem
  exact ⟨r, hmem, hfin, hren⟩

/-- Among unfinished requests an abort returns only whom it names. -/
theorem Scheduler.mem_ids_of_aborted {s s' : Scheduler} {ids : List RequestId} {gone : List Request}
    (hunfinished : ∀ r ∈ s.running, r.isFinished = false)
    (h : s.abortRequests ids = .ok (s', gone)) {r : Request} (hr : r ∈ gone) :
    r.requestId ∈ ids := by
  obtain ⟨⟨s₁, finished⟩, hfree, hret⟩ := bind_eq_ok.mp h
  cases hret
  rcases List.mem_append.mp hr with hr | hr
  · obtain ⟨q, hq, rfl⟩ := List.mem_map.mp hr
    simpa using (List.mem_filter.mp hq).2
  · obtain ⟨q, hq, hfin, nodes, rfl⟩ := finished_of_sweep hfree hr
    obtain ⟨p, hp, rfl⟩ := List.mem_map.mp hq
    by_cases hid : p.requestId ∈ ids
    · rwa [if_pos hid]
    · rw [if_neg hid, hunfinished p hp] at hfin
      cases hfin

/-! ## The step -/

namespace LLMEngine

/-- A step from `s` to `s'`: its schedule made `plan`, `victims` and `as`, each request then
took its turn, and who had not finished went on. -/
structure StepSpec (e : LLMEngine) (drafts : Option (RequestId → List Token)) (s s' : Scheduler)
    (out : SchedulerOutput) (finished : List Request) (s₁ : Scheduler) (plan : List Decision)
    (victims : List Request) (as : List Admission) (turned : Request → Request) : Prop where
  schedule : s.schedule = .ok (s₁, out)
  trace : StepTrace s s₁ out plan victims as
  inOrder : InOrder s₁
  renoded : ∀ r, Renoded (e.turn out r) (turned r)
  turned_eq : s₁.blockManager.prefixCache = none → turned = e.turn out
  running : s'.running =
    ((s₁.running.map turned).filter fun r => ¬ r.isFinished).map (Request.proposed drafts)
  waiting : s'.waiting = s₁.waiting
  schedulerConfig : s'.schedulerConfig = s.schedulerConfig
  finished : ∀ r ∈ finished, ∃ q ∈ s₁.running, (turned q).isFinished = true ∧ Renoded (turned q) r

/-- The stages of a step from `s` to `s'`: the schedule led to `s₁`, the registration after the
forward pass to `s₃`, and the sweep of the turned requests to `s₅`. -/
structure StepStages (e : LLMEngine) (drafts : Option (RequestId → List Token)) (s s' : Scheduler)
    (out : SchedulerOutput) (finished : List Request) (s₁ s₃ s₅ : Scheduler)
    (turned : Request → Request) : Prop where
  schedule : s.schedule = .ok (s₁, out)
  inOrder : InOrder s₁
  register : { s₁ with running := s₁.running.map (e.runner.serve out) }.registerComputed out =
    .ok s₃
  kept : { s₁ with running := s₁.running.map (e.runner.serve out) }.SameQueues s₃
  registered : s₃.running = s₁.running.map fun r =>
    { e.runner.serve out r with cachedPrefixNodes := (turned r).cachedPrefixNodes }
  renoded : ∀ r, Renoded (e.turn out r) (turned r)
  turned_eq : s₁.blockManager.prefixCache = none → turned = e.turn out
  sweep : { s₃ with running := s₁.running.map turned }.freeFinishedRequests = .ok (s₅, finished)
  propose : s' = s₅.proposeIf drafts

/-- A registration changes prefix nodes only; without a cache, nothing. -/
theorem registered {s s' : Scheduler} {out : SchedulerOutput}
    (h : s.registerComputed out = .ok s') : s.SameQueues s' ∧ ∃ f : Request → Request,
      (∀ r, Renoded r (f r)) ∧ s'.running = s.running.map f ∧
        (s.blockManager.prefixCache = none → f = id) := by
  by_cases hc : s.blockManager.prefixCache = none
  · rw [registerComputed, hc] at h
    cases h
    exact ⟨.refl s, id, Renoded.refl, by simp, fun _ => rfl⟩
  · have hq := sameQueues_registerComputed h
    obtain ⟨f, hf, hrun⟩ := hq.running
    exact ⟨hq, f, hf, hrun, fun h => absurd h hc⟩

theorem stages_of_step {e : LLMEngine} {drafts : Option (RequestId → List Token)}
    {s s' : Scheduler} {out : SchedulerOutput} {finished : List Request} (o : InOrder s)
    (hq : s.Queued) (h : e.step drafts s = .ok (s', out, finished)) :
    ∃ s₁ s₃ s₅ turned, e.StepStages drafts s s' out finished s₁ s₃ s₅ turned := by
  obtain ⟨s₁, s₂, s₃, s₅, h₁, h₂, h₃, h₅, rfl⟩ := step_eq_ok_iff.mp h
  obtain ⟨plan, victims, as, t⟩ := StepTrace.of_schedule h₁
  obtain ⟨o₁, -⟩ := o.schedule h₁
  have hnodup := o₁.running_nodup
  have hsched := t.scheduled_nodup o₁
  obtain rfl := e.runner.executeModel_eq hnodup hsched (fun rn hrn => t.placed o₁ hq hrn) h₂
  obtain ⟨hkept, f, hf, hrun, hnone⟩ := registered h₃
  dsimp only at hrun hnone
  rw [List.map_map] at hrun
  have hid : ∀ r, ((f ∘ e.runner.serve out) r).requestId = r.requestId := by
    intro r
    obtain ⟨nodes, hnodes⟩ := hf (e.runner.serve out r)
    rw [Function.comp_apply, hnodes]
    exact (sameRequest_serve e out r).requestId
  have hcorrect := running_correctLoop hnodup (t.scheduledRunning_nodup o₁) hid hrun
  have hsweep : correctLoop (s₁.specPreLen out) out.scheduledRunning s₃ = { s₃ with
      running := s₁.running.map fun r =>
        (out.roundOf r).elim ((f ∘ e.runner.serve out) r) fun n =>
          correctRound r.outputTokenIds.length n ((f ∘ e.runner.serve out) r) } := by
    rw [← hcorrect, correctLoop_eq]
  rw [hsweep] at h₅
  refine ⟨s₁, s₃, s₅, _, h₁, o₁, h₃, hkept, hrun.trans (List.map_congr_left fun r _ => ?_),
    fun r => ?_, fun hcache => ?_, h₅, rfl⟩
  · have hnodes : ((out.roundOf r).elim ((f ∘ e.runner.serve out) r) fun n =>
        correctRound r.outputTokenIds.length n ((f ∘ e.runner.serve out) r)).cachedPrefixNodes =
          (f (e.runner.serve out r)).cachedPrefixNodes := by
      cases out.roundOf r with
      | none => rfl
      | some n => exact (sameRequest_correctRound _ _ _).cachedPrefixNodes
    rw [hnodes]
    exact (hf (e.runner.serve out r)).eq_with
  · unfold turn
    cases out.roundOf r with
    | none => exact hf _
    | some n => exact (hf _).correctRound _ _
  · obtain rfl := hnone hcache
    rfl

/-- A step, told by decisions and turns. -/
theorem StepStages.spec {e : LLMEngine}
    {drafts : Option (RequestId → List Token)} {s s' : Scheduler} {out : SchedulerOutput}
    {finished : List Request} {s₁ s₃ s₅ : Scheduler} {turned : Request → Request}
    {plan : List Decision} {victims : List Request} {as : List Admission}
    (st : e.StepStages drafts s s' out finished s₁ s₃ s₅ turned)
    (t : StepTrace s s₁ out plan victims as) :
    e.StepSpec drafts s s' out finished s₁ plan victims as turned := by
  obtain ⟨⟨bm, gone⟩, -, hret⟩ := bind_eq_ok.mp st.sweep
  refine ⟨st.schedule, t, st.inOrder, st.renoded, st.turned_eq, ?_, ?_, ?_, fun r hr => ?_⟩
  · rw [st.propose, proposeIf_eq]
    cases hret
    rfl
  · rw [st.propose, proposeIf_eq]
    cases hret
    exact st.kept.waiting
  · rw [st.propose, proposeIf_eq]
    cases hret
    exact st.kept.schedulerConfig.trans t.schedulerConfig
  · obtain ⟨q, hmem, hfin, hren⟩ := finished_of_sweep st.sweep hr
    obtain ⟨q, hq, rfl⟩ := List.mem_map.mp hmem
    exact ⟨q, hq, hfin, hren⟩

theorem stepSpec_of_step {e : LLMEngine} {drafts : Option (RequestId → List Token)}
    {s s' : Scheduler} {out : SchedulerOutput} {finished : List Request} (o : InOrder s)
    (hq : s.Queued) (h : e.step drafts s = .ok (s', out, finished)) :
    ∃ s₁ plan victims as turned,
      e.StepSpec drafts s s' out finished s₁ plan victims as turned := by
  obtain ⟨s₁, s₃, s₅, turned, st⟩ := stages_of_step o hq h
  obtain ⟨plan, victims, as, t⟩ := StepTrace.of_schedule st.schedule
  exact ⟨s₁, plan, victims, as, turned, st.spec t⟩

/-- What is kept request by request is kept by a step: for a request that was preempted, for
one that was served or skipped, and for one that was admitted. -/
theorem StepSpec.forall_requests {e : LLMEngine}
    {drafts : Option (RequestId → List Token)} {s s' s₁ : Scheduler} {out : SchedulerOutput}
    {finished : List Request} {plan : List Decision} {victims : List Request} {as : List Admission}
    {turned : Request → Request}
    (st : e.StepSpec drafts s s' out finished s₁ plan victims as turned)
    {Runs Waits : Request → Prop} (hruns : ∀ r ∈ s.running, Runs r)
    (hwaits : ∀ r ∈ s.waiting, Waits r) (hbump : ∀ r r', Runs r → Bumped r r' → Waits r')
    (hplan : ∀ d ∈ plan, Runs d.request → (turned d.result).isFinished = false →
      Runs ((turned d.result).proposed drafts))
    (hnew : ∀ a ∈ as, Waits a.request → (turned a.result).isFinished = false →
      Runs ((turned a.result).proposed drafts)) :
    (∀ r ∈ s'.running, Runs r) ∧ ∀ r ∈ s'.waiting, Waits r := by
  have t := st.trace
  constructor
  · intro r hr
    rw [st.running] at hr
    obtain ⟨q', hq', rfl⟩ := List.mem_map.mp hr
    obtain ⟨hturned, hunfinished⟩ := List.mem_filter.mp hq'
    have hfin : q'.isFinished = false := by simpa using hunfinished
    obtain ⟨q, hq, rfl⟩ := List.mem_map.mp hturned
    rw [t.running', List.mem_append] at hq
    rcases hq with hq | hq
    · obtain ⟨d, hd, rfl⟩ := List.mem_map.mp hq
      exact hplan d hd (hruns _ (t.running ▸ List.mem_append_left _ (List.mem_map_of_mem hd))) hfin
    · obtain ⟨a, ha, rfl⟩ := List.mem_map.mp hq
      exact hnew a ha (hwaits _ (t.mem_waiting ha)) hfin
  · intro r hr
    rw [st.waiting] at hr
    rcases t.of_mem_waiting hr with hmem | ⟨v, hv, hbumped⟩
    · exact hwaits r hmem
    · exact hbump v r (hruns v (t.running ▸ List.mem_append_right _ hv)) hbumped

end LLMEngine

end LightServe
