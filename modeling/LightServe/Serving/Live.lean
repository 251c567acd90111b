import LightServe.Serving.Run

/-!
# Live requests

What holds of an engine between its calls whatever its configuration: the queues list the
live requests in order of arrival, every request has a prompt, and who waits has no progress.
A step takes exactly the finished requests off the list.

## Main definitions

* `LiveState` — the invariant.
* `LiveState.of_run` — it holds in every run whose requests have prompts.
-/

namespace LightServe

open Scheduler

/-! ## Who is there -/

namespace Scheduler
variable {s s' : Scheduler}

theorem updateRequest_ids (s : Scheduler) (id : RequestId) {f : Request → Request}
    (hf : ∀ r, (f r).requestId = r.requestId) : (s.updateRequest id f).ids = s.ids := by
  simp only [ids, updateRequest, List.map_append, List.map_map]
  congr 1
  refine List.map_congr_left fun r _ => ?_
  simp only [Function.comp_apply]
  split
  · exact hf r
  · rfl

theorem commitLoop_ids {rows : List Token} {ranges : List FlatRange}
    (h : commitLoop rows ranges s = .ok s') : s'.ids = s.ids := by
  induction ranges generalizing s with
  | nil => cases h; rfl
  | cons f ranges ih =>
    obtain ⟨tokens, -, hrest⟩ := bind_eq_ok.mp h
    rw [ih hrest, updateRequest_ids]
    exact fun r => (sameRequest_commit tokens r).requestId

theorem correctLoop_ids (preLen : List (RequestId × ℕ)) (scheduled : List ScheduledRequest)
    (s : Scheduler) : (correctLoop preLen scheduled s).ids = s.ids := by
  induction scheduled generalizing s with
  | nil => rfl
  | cons sr scheduled ih =>
    rw [correctLoop]
    split
    · exact ih s
    · rw [ih, updateRequest_ids]
      exact correctRound_requestId _ _

theorem SameQueues.ids_eq (h : s.SameQueues s') : s'.ids = s.ids := by
  obtain ⟨f, hf, hrunning⟩ := h.running
  simp only [ids, hrunning, h.waiting, List.map_append, List.map_map]
  congr 1
  refine List.map_congr_left fun r _ => ?_
  obtain ⟨nodes, hr⟩ := hf r
  rw [Function.comp_apply, hr]

theorem proposeIf_ids (s : Scheduler) (drafts : Option (RequestId → List Token)) :
    (s.proposeIf drafts).ids = s.ids := by
  rw [proposeIf_eq]
  simp only [ids, List.map_append, List.map_map]
  congr 1
  exact List.map_congr_left fun r _ => (sameRequest_proposed drafts r).requestId

theorem freeFinishedRequests_ids {gone : List Request}
    (h : s.freeFinishedRequests = .ok (s', gone)) :
    s.ids.Perm (s'.ids ++ gone.map Request.requestId) := by
  obtain ⟨⟨bm, rs⟩, hall, hret⟩ := bind_eq_ok.mp h
  have hids := InOrder.freeAll_ids hall
  cases hret
  rw [hids, ids, ids, ← List.map_append]
  refine List.Perm.map _ ?_
  have hsplit := (List.filter_append_perm Request.isFinished s.running).symm.append_right s.waiting
  refine hsplit.trans ?_
  rw [List.append_assoc]
  refine List.perm_append_comm.trans ?_
  simp

end Scheduler

/-- A step takes the requests that it returns off the queues, and nobody else, whatever the order
they are in. -/
theorem LLMEngine.step_ids {e : LLMEngine} {drafts : Option (RequestId → List Token)}
    {s s' : Scheduler} {out : SchedulerOutput} {finished : List Request}
    (h : e.step drafts s = .ok (s', out, finished)) :
    s.ids.Perm (s'.ids ++ finished.map Request.requestId) := by
  obtain ⟨s₁, s₂, s₃, s₅, h₁, h₂, h₃, h₅, rfl⟩ := step_eq_ok_iff.mp h
  obtain ⟨ranges, -, h₂⟩ := bind_eq_ok.mp h₂
  obtain ⟨-, -, h₂⟩ := bind_eq_ok.mp h₂
  have hsweep := freeFinishedRequests_ids h₅
  rw [correctLoop_ids, (sameQueues_registerComputed h₃).ids_eq, commitLoop_ids h₂,
    (schedule_ids h₁).1] at hsweep
  rw [proposeIf_ids]
  exact hsweep

/-! ## Live requests in order -/

/-- A request with a prompt. -/
def Request.Prompted (r : Request) : Prop := r.promptTokenIds ≠ []

instance (r : Request) : Decidable r.Prompted := inferInstanceAs (Decidable (_ ≠ _))

/-- The live requests of an engine. -/
structure LiveState (s : Scheduler) : Prop where
  inOrder : InOrder s
  queued : s.Queued
  prompted : ∀ r ∈ s.running, r.Prompted

theorem InOrder.congr {s s' : Scheduler} (o : InOrder s) (hrunning : s'.running = s.running)
    (hwaiting : s'.waiting = s.waiting) (hrequests : s'.requests = s.requests) : InOrder s' where
  ids := by
    rw [hrunning, hwaiting, hrequests]
    exact o.ids
  nodup := by
    rw [hrequests]
    exact o.nodup

namespace LLMEngine
variable {e : LLMEngine} {drafts : Option (RequestId → List Token)}
  {s s' s₁ s₃ s₅ : Scheduler} {out : SchedulerOutput} {finished : List Request}
  {plan : List Decision} {victims : List Request} {as : List Admission}
  {turned : Request → Request}

/-- A turn keeps who a request is, whatever it registers. -/
theorem turned_keeps {r r' : Request} (h : Renoded (e.turn out r) r') :
    r'.requestId = r.requestId ∧ r'.promptTokenIds = r.promptTokenIds ∧
      r'.samplingParams = r.samplingParams := by
  have hsame := sameRequest_turn e out r
  obtain ⟨nodes, rfl⟩ := h
  exact ⟨hsame.requestId, hsame.promptTokenIds, hsame.samplingParams⟩

/-- A step keeps the order and takes the finished requests off the list. -/
theorem StepStages.inOrder_requests (st : e.StepStages drafts s s' out finished s₁ s₃ s₅ turned)
    (o : InOrder s) : InOrder s' ∧
      s'.requests = s.requests.filter fun id => id ∉ finished.map Request.requestId := by
  obtain ⟨-, hreq₁⟩ := o.schedule st.schedule
  have hupdated := st.inOrder.updateRunning turned fun r _ => (turned_keeps (st.renoded r)).1
  have hturned : InOrder { s₃ with running := s₁.running.map turned } :=
    hupdated.congr rfl st.kept.waiting st.kept.requests
  obtain ⟨ho, -, -, -, hreq⟩ := hturned.freeFinishedRequests st.sweep
  rw [st.propose, proposeIf_eq]
  refine ⟨ho.updateRunning _ fun r _ => (sameRequest_proposed drafts r).requestId, ?_⟩
  rw [← hreq₁, ← st.kept.requests]
  exact hreq

end LLMEngine

namespace LiveState
variable {e : LLMEngine} {drafts : Option (RequestId → List Token)} {s s' : Scheduler}
  {out : SchedulerOutput} {arrived finished gone : List Request}

theorem start (e : LLMEngine) : LiveState e.start :=
  ⟨⟨rfl, List.nodup_nil⟩, fun _ hr => (List.not_mem_nil hr).elim,
    fun _ hr => (List.not_mem_nil hr).elim⟩

theorem addRequest (h : LiveState s) {id : RequestId} {promptTokenIds : List Token}
    {params : SamplingParams} (hp : promptTokenIds ≠ [])
    (hs : s.addRequest (LLMEngine.newRequest id promptTokenIds params) = .ok s') :
    LiveState s' := by
  refine ⟨(h.inOrder.addRequest hs).1, ?_, ?_⟩
  · rw [addRequest_eq hs]
    intro r hr
    rcases List.mem_append.mp hr with hr | hr
    · exact h.queued r hr
    · rw [List.mem_singleton.mp hr]
      exact ⟨hp, rfl⟩
  · rw [addRequest_eq hs]
    exact h.prompted

theorem step (h : LiveState s) (hs : e.step drafts s = .ok (s', out, finished)) :
    LiveState s' ∧
      s'.requests = s.requests.filter fun id => id ∉ finished.map Request.requestId := by
  obtain ⟨s₁, s₃, s₅, turned, st⟩ := LLMEngine.stages_of_step h.inOrder h.queued hs
  obtain ⟨ho, hreq⟩ := st.inOrder_requests h.inOrder
  obtain ⟨_, plan, victims, as, turned', spec⟩ := LLMEngine.stepSpec_of_step h.inOrder h.queued hs
  have hprompt : ∀ r, r.Prompted → ((turned' r).proposed drafts).Prompted := by
    intro r hr
    rw [Request.Prompted, (sameRequest_proposed drafts _).promptTokenIds,
      (LLMEngine.turned_keeps (spec.renoded r)).2.1]
    exact hr
  obtain ⟨hrunning, hwaiting⟩ := spec.forall_requests h.prompted h.queued
    (fun r r' hr hb => by obtain ⟨_, rfl⟩ := hb; exact ⟨hr, rfl⟩)
    (fun d _ hd _ => hprompt _ (by rw [Request.Prompted, Decision.result_promptTokenIds]; exact hd))
    (fun a _ ha _ => hprompt _ ha.1)
  exact ⟨⟨ho, hwaiting, hrunning⟩, hreq⟩

theorem abortRequests (h : LiveState s) {ids : List RequestId}
    (hs : s.abortRequests ids = .ok (s', gone)) :
    LiveState s' ∧
      s'.requests = s.requests.filter fun id => id ∉ gone.map Request.requestId := by
  obtain ⟨ho, hreq⟩ := h.inOrder.abortRequests hs
  obtain ⟨hrunning, hwaiting⟩ := mem_of_abortRequests hs
  exact ⟨⟨ho, fun r hr => h.queued r (hwaiting r hr), fun r hr => h.prompted r (hrunning r hr)⟩,
    hreq⟩

/-- A run whose requests have prompts keeps the live requests in order. -/
theorem of_run {Admits : Request → Prop} {Meets : Scheduler → Prop}
    (hprompt : ∀ r, Admits r → r.Prompted) (h : e.Run Admits Meets s arrived) : LiveState s := by
  induction h with
  | start => exact start e
  | addRequest id promptTokenIds params _ ha hs ih => exact ih.addRequest (hprompt _ ha) hs
  | step drafts _ _ _ hs ih => exact (ih.step hs).1
  | abortRequests ids _ hs ih => exact (ih.abortRequests hs).1

end LiveState

end LightServe
