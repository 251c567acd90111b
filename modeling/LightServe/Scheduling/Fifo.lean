import LightServe.Lib.Traces
import LightServe.Model.LLMEngine
import LightServe.Scheduling.Traces

/-!
# First in, first out

The scheduler as its callers use it, in any order of calls: requests arrive, are scheduled,
have their progress committed and registered, finish or are aborted. Through all of it
`running` followed by `waiting` is the list of live requests in order of arrival.

## Main definitions

* `SchedulerCall`, `Scheduler.perform` — the calls, and what they do.
* `Scheduler.Run` — the states that calls lead to, with the live arrivals.
* `InOrder` — the queues list the request dictionary, in its order.
* `FifoStep` — what a step must respect.
-/

namespace LightServe

open Relation (ReflTransGen)
open Scheduler

/-! ## Calls -/

/-- A call of the scheduler, or a change to one of its running requests by its callers. -/
inductive SchedulerCall
  | addRequest (id : RequestId) (promptTokenIds : List Token) (params : SamplingParams)
  | schedule
  /-- Commit computed and sampled tokens to a running request. -/
  | commit (id : RequestId) (f : Request → Request)
  | insertComputedPrefix (id : RequestId)
  | freeFinishedRequests
  | abortRequests (ids : List RequestId)

/-- Who arrives with a call. -/
def SchedulerCall.arrivals : SchedulerCall → List RequestId
  | .addRequest id _ _ => [id]
  | _ => []

/-- A commit changes neither the identity of a request nor its prompt nor its holds. -/
def SchedulerCall.Permitted : SchedulerCall → Prop
  | .commit _ f => ∀ r, (f r).requestId = r.requestId ∧ (f r).promptTokenIds = r.promptTokenIds ∧
      (f r).cachedPrefixNodes = r.cachedPrefixNodes
  | _ => True

namespace Scheduler

/-- Register what a running request has computed of its prompt. -/
def registerPrefix (s : Scheduler) (id : RequestId) : Except EngineError Scheduler :=
  match s.findRequest id with
  | none => .ok s
  | some r => do
    let (blockManager, r') ← s.blockManager.insertComputedPrefix r
    return { s with blockManager }.updateRequest r.requestId fun q =>
      { q with cachedPrefixNodes := r'.cachedPrefixNodes }

/-- Make a call; returns the requests that leave with it. -/
def perform (s : Scheduler) : SchedulerCall → Except EngineError (Scheduler × List Request)
  | .addRequest id promptTokenIds params => do
    return (← s.addRequest (LLMEngine.newRequest id promptTokenIds params), [])
  | .schedule => do
    let (s, _) ← s.schedule
    return (s, [])
  | .commit id f => .ok (s.updateRequest id f, [])
  | .insertComputedPrefix id => do return (← s.registerPrefix id, [])
  | .freeFinishedRequests => s.freeFinishedRequests
  | .abortRequests ids => s.abortRequests ids

/-- The states that permitted calls lead to when each meets `Meets` in the state it is made
in, with the ids of the live requests in order of arrival. -/
inductive Run (Meets : Scheduler → SchedulerCall → Prop) (start : Scheduler) :
    Scheduler → List RequestId → Prop
  | start : Run Meets start start []
  | call {s s' : Scheduler} {live : List RequestId} {gone : List Request} (c : SchedulerCall)
      (h : Run Meets start s live) (hp : c.Permitted) (hm : Meets s c)
      (hc : s.perform c = .ok (s', gone)) :
      Run Meets start s'
        ((live ++ c.arrivals).filter fun id => id ∉ gone.map Request.requestId)

end Scheduler

namespace Scheduler

/-- Make a call and follow the ids of the live requests. -/
def performLive (s : Scheduler × List RequestId) (c : SchedulerCall) :
    Option (Scheduler × List RequestId) :=
  (s.1.perform c).toOption.map fun (s', gone) =>
    (s', (s.2 ++ c.arrivals).filter fun id => id ∉ gone.map Request.requestId)

/-- Make calls in a row, each in a state in which it meets `Meets`. -/
def performAll (Meets : Scheduler → SchedulerCall → Prop) [∀ s c, Decidable (Meets s c)]
    (s : Scheduler) (live : List RequestId) (calls : List SchedulerCall) :
    Option (Scheduler × List RequestId) :=
  Trace.play performLive (fun s c => Meets s.1 c) (s, live) calls

theorem Run.performAll {Meets : Scheduler → SchedulerCall → Prop} [∀ s c, Decidable (Meets s c)]
    {start s s' : Scheduler} {live live' : List RequestId} (h : Run Meets start s live)
    {calls : List SchedulerCall} (hp : ∀ c ∈ calls, c.Permitted)
    (hrun : s.performAll Meets live calls = some (s', live')) : Run Meets start s' live' := by
  refine Trace.invariant_of_play (I := fun s => Run Meets start s.1 s.2) ?_ hrun h
  intro s c hc s' h hm hact
  obtain ⟨⟨s₁, gone⟩, hperform, rfl⟩ := Option.map_eq_some_iff.mp hact
  exact h.call c (hp c hc) hm (toOption_eq_some.mp hperform)

end Scheduler

/-! ## The order -/

/-- The scheduler that an abort sweeps: what waited is dropped, what runs is marked. -/
def Scheduler.markAborted (s : Scheduler) (ids : List RequestId) : Scheduler :=
  { s with
    waiting := s.waiting.filter fun r => r.requestId ∉ ids
    requests := s.requests.filter fun id =>
      id ∉ (s.waiting.filter fun r => r.requestId ∈ ids).map Request.requestId
    running := s.running.map fun r : Request =>
      if r.requestId ∈ ids then { r with status := .finishedAborted } else r }

/-- An abort sweeps the requests it has marked. -/
theorem Scheduler.sweep_of_abortRequests {s s' : Scheduler} {ids : List RequestId}
    {gone : List Request} (h : s.abortRequests ids = .ok (s', gone)) : ∃ finished,
      (s.markAborted ids).freeFinishedRequests = .ok (s', finished) ∧
      gone.map Request.requestId =
        (s.waiting.filter fun r => r.requestId ∈ ids).map Request.requestId ++
        finished.map Request.requestId := by
  obtain ⟨⟨s₁, finished⟩, hfree, hret⟩ := bind_eq_ok.mp h
  cases hret
  have hids : ((s.waiting.filter fun r => r.requestId ∈ ids).map
      fun r : Request => { r with status := .finishedAborted }).map Request.requestId =
        (s.waiting.filter fun r => r.requestId ∈ ids).map Request.requestId := by
    rw [List.map_map]
    rfl
  simp only [hids] at hfree
  exact ⟨finished, hfree, by rw [List.map_append, hids]⟩

/-- The requests of the queues, the running ones first. -/
def Scheduler.ids (s : Scheduler) : List RequestId := (s.running ++ s.waiting).map Request.requestId

/-- A step keeps the queues in line. -/
theorem Scheduler.schedule_ids {s s' : Scheduler} {out : SchedulerOutput}
    (h : s.schedule = .ok (s', out)) : s'.ids = s.ids ∧ s'.requests = s.requests := by
  obtain ⟨plan, victims, as, t⟩ := StepTrace.of_schedule h
  refine ⟨t.map_queues (fun {_ _} hb => ?_) Decision.result_requestId fun _ => rfl, t.requests⟩
  obtain ⟨nodes, rfl⟩ := hb
  rfl

/-- `running` and then `waiting` list the request dictionary in its order. -/
structure InOrder (s : Scheduler) : Prop where
  ids : (s.running ++ s.waiting).map Request.requestId = s.requests
  nodup : s.requests.Nodup

namespace InOrder
variable {s s' : Scheduler}

theorem running_nodup (o : InOrder s) : (s.running.map Request.requestId).Nodup := by
  have h := o.nodup
  rw [← o.ids, List.map_append] at h
  exact (List.nodup_append.mp h).1

theorem disjoint (o : InOrder s) {r q : Request} (hr : r ∈ s.running) (hq : q ∈ s.waiting) :
    r.requestId ≠ q.requestId := by
  have h := o.nodup
  rw [← o.ids, List.map_append] at h
  exact (List.nodup_append.mp h).2.2 _ (List.mem_map_of_mem hr) _ (List.mem_map_of_mem hq)

theorem eq_of_id_eq (o : InOrder s) {r q : Request} (hr : r ∈ s.running) (hq : q ∈ s.running)
    (hid : r.requestId = q.requestId) : r = q :=
  List.inj_on_of_nodup_map o.running_nodup hr hq hid

theorem addRequest {r : Request} (o : InOrder s) (h : s.addRequest r = .ok s') :
    InOrder s' ∧ s'.requests = s.requests ++ [r.requestId] := by
  unfold Scheduler.addRequest at h
  split at h
  · cases h
  · rename_i hid
    cases h
    refine ⟨⟨by simp [← o.ids], List.nodup_append.mpr ⟨o.nodup, List.nodup_singleton _, ?_⟩⟩, rfl⟩
    intro a ha b hb
    rw [List.mem_singleton.mp hb]
    rintro rfl
    exact hid ha

/-- Mutating running requests without touching their ids. -/
theorem updateRunning (o : InOrder s) (f : Request → Request)
    (hf : ∀ r ∈ s.running, (f r).requestId = r.requestId) :
    InOrder { s with running := s.running.map f } where
  ids := by
    rw [← o.ids, List.map_append, List.map_append, List.map_map]
    congr 1
    exact List.map_congr_left hf
  nodup := o.nodup

theorem updateRequest (o : InOrder s) (id : RequestId) (f : Request → Request)
    (hf : ∀ r ∈ s.running, r.requestId = id → (f r).requestId = id) :
    InOrder (s.updateRequest id f) := by
  refine o.updateRunning _ fun r hr => ?_
  split
  · rename_i hid
    rw [hf r hr hid, hid]
  · rfl

/-- A step keeps the order. -/
theorem schedule (o : InOrder s) {out : SchedulerOutput} (h : s.schedule = .ok (s', out)) :
    InOrder s' ∧ s'.requests = s.requests := by
  obtain ⟨hids, hrequests⟩ := Scheduler.schedule_ids h
  refine ⟨⟨?_, ?_⟩, hrequests⟩
  · rw [hrequests, ← o.ids]
    exact hids
  · rw [hrequests]
    exact o.nodup

theorem freeAll_ids {bm bm' : BlockManager} {rs rs' : List Request}
    (h : freeAll bm rs = .ok (bm', rs')) :
    rs'.map Request.requestId = rs.map Request.requestId := by
  induction rs generalizing bm rs' with
  | nil => cases h; rfl
  | cons r rs ih =>
    obtain ⟨⟨bm₁, r'⟩, hfree, hrest⟩ := bind_eq_ok.mp h
    obtain ⟨⟨bm₂, rs₁⟩, hall, hret⟩ := bind_eq_ok.mp hrest
    obtain ⟨nodes, rfl⟩ := BlockManager.free_request hfree
    cases hret
    rw [List.map_cons, List.map_cons, ih hall]

/-- Sweeping out the finished requests takes exactly them off the list. -/
theorem freeFinishedRequests (o : InOrder s) {gone : List Request}
    (h : s.freeFinishedRequests = .ok (s', gone)) : InOrder s' ∧
      s'.running = s.running.filter (fun r => ¬ r.isFinished) ∧ s'.waiting = s.waiting ∧
      gone.map Request.requestId = (s.running.filter Request.isFinished).map Request.requestId ∧
      s'.requests = s.requests.filter fun id => id ∉ gone.map Request.requestId := by
  obtain ⟨⟨bm, rs⟩, hall, hret⟩ := bind_eq_ok.mp h
  have hids := freeAll_ids hall
  cases hret
  refine ⟨⟨?_, o.nodup.filter _⟩, rfl, rfl, hids, rfl⟩
  show (_ ++ s.waiting).map Request.requestId = s.requests.filter _
  rw [← o.ids, hids, List.map_append, List.map_append, List.filter_append, List.filter_map,
    List.filter_map]
  congr 2
  · refine List.filter_congr fun r hr => ?_
    have hiff : r.requestId ∈ (s.running.filter Request.isFinished).map Request.requestId ↔
        r.isFinished := by
      rw [List.mem_map]
      constructor
      · rintro ⟨q, hq, hid⟩
        obtain ⟨hq, hfin⟩ := List.mem_filter.mp hq
        rwa [← o.eq_of_id_eq hq hr hid]
      · exact fun hfin => ⟨r, List.mem_filter.mpr ⟨hr, hfin⟩, rfl⟩
    simp only [Function.comp_apply, hiff]
  · refine (List.filter_eq_self.mpr fun r hr => ?_).symm
    simp only [Function.comp_apply, decide_eq_true_eq]
    intro hmem
    obtain ⟨q, hq, hid⟩ := List.mem_map.mp hmem
    exact o.disjoint (List.mem_filter.mp hq).1 hr hid

/-- The scheduler that an abort sweeps is in order. -/
theorem markAborted (o : InOrder s) (ids : List RequestId) : InOrder (s.markAborted ids) := by
  have hdrop : InOrder { s with
      waiting := s.waiting.filter fun r => r.requestId ∉ ids
      requests := s.requests.filter fun id =>
        id ∉ (s.waiting.filter fun r => r.requestId ∈ ids).map Request.requestId } := by
    refine ⟨?_, o.nodup.filter _⟩
    show (s.running ++ _).map Request.requestId = s.requests.filter _
    rw [← o.ids, List.map_append, List.map_append, List.filter_append, List.filter_map,
      List.filter_map]
    congr 2
    · refine (List.filter_eq_self.mpr fun r hr => ?_).symm
      simp only [Function.comp_apply, decide_eq_true_eq]
      intro hmem
      obtain ⟨q, hq, hid⟩ := List.mem_map.mp hmem
      exact o.disjoint hr (List.mem_filter.mp hq).1 hid.symm
    · refine List.filter_congr fun r hr => ?_
      have hiff : r.requestId ∈
          (s.waiting.filter fun r => r.requestId ∈ ids).map Request.requestId ↔
          r.requestId ∈ ids := by
        simp only [List.mem_map, List.mem_filter, decide_eq_true_eq]
        constructor
        · rintro ⟨q, ⟨-, hq⟩, hid⟩
          exact hid ▸ hq
        · exact fun h => ⟨r, ⟨hr, h⟩, rfl⟩
      simp only [Function.comp_apply, hiff]
  exact hdrop.updateRunning _ fun r _ => by split <;> rfl

theorem abortRequests (o : InOrder s) {ids : List RequestId} {gone : List Request}
    (h : s.abortRequests ids = .ok (s', gone)) :
    InOrder s' ∧ s'.requests = s.requests.filter fun id => id ∉ gone.map Request.requestId := by
  obtain ⟨finished, hfree, hgone⟩ := sweep_of_abortRequests h
  obtain ⟨ho, -, -, -, hreq⟩ := (o.markAborted ids).freeFinishedRequests hfree
  refine ⟨ho, ?_⟩
  rw [hreq, hgone]
  show (s.requests.filter _).filter _ = _
  rw [List.filter_filter]
  refine List.filter_congr fun id _ => ?_
  simp only [List.mem_append, Bool.decide_and, not_or]
  rw [Bool.and_comm]

theorem registerPrefix (o : InOrder s) {id : RequestId} (h : s.registerPrefix id = .ok s') :
    InOrder s' ∧ s'.requests = s.requests := by
  unfold Scheduler.registerPrefix at h
  split at h
  · cases h
    exact ⟨o, rfl⟩
  · obtain ⟨⟨bm, r'⟩, -, hret⟩ := bind_eq_ok.mp h
    cases hret
    exact ⟨updateRequest (s := { s with blockManager := bm }) ⟨o.ids, o.nodup⟩ _ _
      fun r _ hid => hid, rfl⟩

/-- Every call keeps the order, and the dictionary follows the arrivals and departures. -/
theorem perform (o : InOrder s) {c : SchedulerCall} (hp : c.Permitted) {gone : List Request}
    (h : s.perform c = .ok (s', gone)) : InOrder s' ∧ s'.requests =
      (s.requests ++ c.arrivals).filter fun id => id ∉ gone.map Request.requestId := by
  have hkeep : ∀ l : List RequestId, l = l.filter fun id =>
      id ∉ ([] : List Request).map Request.requestId :=
    fun l => by simp
  cases c with
  | addRequest id promptTokenIds params =>
    obtain ⟨s₁, hadd, hret⟩ := bind_eq_ok.mp h
    cases hret
    obtain ⟨ho, hreq⟩ := o.addRequest hadd
    exact ⟨ho, by rw [← hkeep, hreq]; rfl⟩
  | schedule =>
    obtain ⟨⟨s₁, out⟩, hs, hret⟩ := bind_eq_ok.mp h
    cases hret
    obtain ⟨ho, hreq⟩ := o.schedule hs
    exact ⟨ho, by rw [← hkeep, hreq]; exact (List.append_nil _).symm⟩
  | commit id f =>
    cases h
    refine ⟨o.updateRequest id f fun r _ hid => (hp r).1.trans hid, ?_⟩
    rw [← hkeep]
    exact (List.append_nil _).symm
  | insertComputedPrefix id =>
    obtain ⟨s₁, hs, hret⟩ := bind_eq_ok.mp h
    cases hret
    obtain ⟨ho, hreq⟩ := o.registerPrefix hs
    exact ⟨ho, by rw [← hkeep, hreq]; exact (List.append_nil _).symm⟩
  | freeFinishedRequests =>
    obtain ⟨ho, -, -, -, hreq⟩ := o.freeFinishedRequests h
    exact ⟨ho, hreq.trans (by rw [show SchedulerCall.arrivals _ = [] from rfl, List.append_nil])⟩
  | abortRequests ids =>
    obtain ⟨ho, hreq⟩ := o.abortRequests h
    exact ⟨ho, hreq.trans (by rw [show SchedulerCall.arrivals _ = [] from rfl, List.append_nil])⟩

end InOrder

/-! ## Runs -/

/-- What a step must respect: its victims are a suffix of `running`, bumped from the end, and
got nothing in it; whoever is admitted was first in line; and a step that bumps admits
nobody. -/
structure FifoStep (s s' : Scheduler) (out : SchedulerOutput) : Prop where
  victims_suffix : ∃ kept victims, s.running = kept ++ victims ∧
    out.preempted = victims.reverse.map Request.requestId
  served_not_preempted : ∀ sr ∈ out.scheduled, sr.request ∉ out.preempted
  admits_first : out.scheduledNew ≠ [] → ∃ admitted, s.waiting = admitted ++ s'.waiting ∧
    out.scheduledNew.map ScheduledRequest.request = admitted.map Request.requestId
  preempting_admits_none : out.preempted ≠ [] → out.scheduledNew = []

theorem InOrder.fifoStep {s s' : Scheduler} (o : InOrder s) {out : SchedulerOutput}
    (h : s.schedule = .ok (s', out)) : FifoStep s s' out := by
  obtain ⟨p, hp, hcases⟩ := schedule_cases h
  obtain ⟨plan, victims, tr⟩ := RunningTrace.of_steps hp
  obtain ⟨bumped, hall, hwaiting⟩ := tr.waiting
  have hrunning := tr.running
  rw [List.append_nil] at hrunning
  have houtput := tr.output
  rcases hcases with ⟨hpre, rfl, rfl⟩ | ⟨hpre, waiting, q, hq, -, rfl, rfl⟩
  · rw [houtput]
    refine ⟨⟨_, victims, hrunning, rfl⟩, fun sr hsr hmem => ?_, fun h => absurd rfl h, fun _ => rfl⟩
    -- whoever was served is in the plan, whose requests are not the victims
    have hnodup := o.running_nodup
    rw [hrunning, List.map_append] at hnodup
    obtain ⟨d, hd, hslice⟩ := List.mem_filterMap.mp
      (show sr ∈ plan.filterMap Decision.slice from hsr)
    have hid : sr.request = d.request.requestId := by
      cases hg : d.grant with
      | none => simp [Decision.slice, hg] at hslice
      | some c => simp [Decision.slice, hg] at hslice; rw [← hslice]
    refine (List.nodup_append.mp hnodup).2.2 sr.request ?_ sr.request ?_ rfl
    · rw [hid, List.map_map]
      exact List.mem_map_of_mem (f := Request.requestId ∘ Decision.request) hd
    · simpa using hmem
  · obtain ⟨as, wt⟩ := WaitingTrace.of_steps hq
    have hnil : victims = [] := by
      rw [houtput] at hpre
      simpa using hpre
    subst hnil
    cases hall
    have hnew := wt.scheduledNew
    have hsplit := wt.waiting
    rw [hwaiting, List.nil_append] at hsplit
    refine ⟨⟨_, [], hrunning, by simpa using hpre⟩, fun sr _ => by simp [hpre], fun _ => ?_,
      fun h => absurd hpre h⟩
    refine ⟨as.map Admission.request, hsplit, ?_⟩
    rw [show q.scheduledNew = as.map Admission.slice from hnew.trans (List.nil_append _)]
    simp [Admission.slice, Function.comp_def]

theorem Scheduler.Run.inOrder {Meets : Scheduler → SchedulerCall → Prop} {cache : CacheConfig}
    {config : SchedulerConfig} {hashFn : Option BlockHash → List Token → BlockHash}
    {s : Scheduler} {live : List RequestId} (h : Run Meets (.new cache config hashFn) s live) :
    InOrder s ∧ s.requests = live := by
  induction h with
  | start => exact ⟨⟨rfl, List.nodup_nil⟩, rfl⟩
  | call c _ hp _ hc ih =>
    obtain ⟨ho, hreq⟩ := ih.1.perform hp hc
    exact ⟨ho, by rw [hreq, ih.2]⟩

/-- Whatever the order of calls, the queues list the live requests in order of arrival, and
every step is first in, first out. -/
theorem fifo_of_run {cache : CacheConfig} {config : SchedulerConfig}
    {hashFn : Option BlockHash → List Token → BlockHash} {s : Scheduler} {live : List RequestId}
    (h : Run (fun _ _ => True) (.new cache config hashFn) s live) :
    (s.running ++ s.waiting).map Request.requestId = live ∧
      ∀ s' out, s.schedule = .ok (s', out) → FifoStep s s' out :=
  ⟨h.inOrder.1.ids.trans h.inOrder.2, fun _ _ => h.inOrder.1.fifoStep⟩

/-- Two arrivals, and a step in between. -/
theorem fifo_of_run_two : ∃ s live,
    Run (fun _ _ => True) (.new
      { numGpuBlocks := 4, blockSize_pos := by decide, watermark_le := by decide }
      { maxNumSeqs_pos := by decide, maxNumBatchedTokens_pos := by decide
        maxCacheHit_pos := by simp } fun _ _ => 0) s live ∧ live = [7, 3] ∧
      (s.running ++ s.waiting).map Request.requestId = live ∧
      ∀ s' out, s.schedule = .ok (s', out) → FifoStep s s' out :=
  have hrun := Run.call (.addRequest 3 [1] {})
    (.call .schedule (.call (.addRequest 7 [1, 2] {}) .start trivial trivial rfl)
      trivial trivial rfl) trivial trivial rfl
  ⟨_, _, hrun, rfl, fifo_of_run hrun⟩

end LightServe
