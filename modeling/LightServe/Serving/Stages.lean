import LightServe.Scheduling.Accounting
import LightServe.Serving.ModelStep

/-!
# The stages of an engine step

A step of the engine schedules, runs the model, registers computed prefixes, corrects the
verify rounds, sweeps out what finished and proposes drafts. Between the schedule and the
sweep every running request is changed on its own: `LLMEngine.turn` is that change.

## Main definitions

* `LLMEngine.step_cases` — the stages of a step that returned.
* `LLMEngine.turn` — the change of one request between the schedule and the sweep.
* `Renoded` — a change of nothing but the prefix nodes.
* `Stages` — a step with its schedule told by decisions and its requests told by turns.
-/

namespace LightServe

open Scheduler

/-! ## Decisions, in natural numbers -/

/-- A decision leaves the request alone, or advances it by all of a verify round or by what
the budget leaves of its new tokens. -/
theorem Decision.Sound.cases {budget : ℤ} {d : Decision} (h : d.Sound budget) :
    (d.grant = none ∧ d.result = d.request ∧ (numNew d.request ≤ 0 ∨ budget ≤ 0)) ∨
    ∃ n : ℕ, 0 < n ∧ 0 < budget ∧ d.grant = some (n : ℤ) ∧
      d.result = { d.request with numComputedTokens := d.request.numComputedTokens + n } ∧
      (d.request.draftTokenIds ≠ [] → n = d.request.draftTokenIds.length + 1) ∧
      (d.request.draftTokenIds = [] → d.request.numComputedTokens + n ≤ d.request.getLen ∧
        (d.request.numComputedTokens + n = d.request.getLen ∨ budget = n)) := by
  cases hg : d.grant with
  | none =>
    simp only [Sound, hg] at h
    exact .inl ⟨rfl, by simp only [result, hg], h⟩
  | some c =>
    simp only [Sound, hg] at h
    obtain ⟨hnew, hbudget, rfl⟩ := h
    have hpos : 0 < chunk d.request budget := by
      unfold chunk
      split
      · exact hnew
      · exact lt_min hnew hbudget
    obtain ⟨n, hn⟩ := Int.eq_ofNat_of_zero_le hpos.le
    refine .inr ⟨n, by omega, hbudget, by rw [hn], ?_, fun hd => ?_, fun hd => ?_⟩
    · simp only [result, hg, hn]
      congr 1
    · simp only [chunk, isSpec, numNew, ne_eq, hd, not_false_eq_true, decide_true, if_true] at hn
      omega
    · simp only [chunk, isSpec, numNew, ne_eq, hd, not_true_eq_false, decide_false,
        Bool.false_eq_true, if_false, Request.getNumNewTokens] at hn
      omega

/-- An admitted request starts after its match and gets what the budget leaves of the rest. -/
theorem Admission.Sound.cases {budget : ℤ} {a : Admission} (h : a.Sound budget)
    (hprompt : a.request.promptTokenIds ≠ []) (hnc : a.request.numComputedTokens = 0) :
    ∃ k n : ℕ, 0 < n ∧ 0 < budget ∧ a.chunk = n ∧ k < a.request.promptTokenIds.length ∧
      a.result = { a.request.holding a.found with
        status := .running
        numComputedTokens := k + n } ∧
      k + n ≤ a.request.getLen ∧ (k + n = a.request.getLen ∨ budget = n) ∧
      (a.found = none → k = 0) ∧
      (∀ m, a.found = some m →
        k = min m.numMatchedTokens (a.request.promptTokenIds.length - 1)) := by
  obtain ⟨hbudget, hchunk⟩ := h
  have hpos := List.length_pos_iff.mpr hprompt
  have hlen : a.request.promptTokenIds.length ≤ a.request.getLen := Nat.le_add_right _ _
  obtain ⟨k, hk, hkp, hnone, hsome⟩ : ∃ k : ℕ, seededTokens a.request a.found = k ∧
      k < a.request.promptTokenIds.length ∧ (a.found = none → k = 0) ∧
      (∀ m, a.found = some m →
        k = min m.numMatchedTokens (a.request.promptTokenIds.length - 1)) := by
    cases hf : a.found with
    | none => exact ⟨0, by simp [seededTokens, hnc], hpos, fun _ => rfl, by simp⟩
    | some m =>
      refine ⟨min m.numMatchedTokens (a.request.promptTokenIds.length - 1), ?_, by omega, by simp,
        fun m' hm => by cases hm; rfl⟩
      simp only [seededTokens]
      omega
  rw [hk] at hchunk
  obtain ⟨n, hn⟩ := Int.eq_ofNat_of_zero_le (show 0 ≤ a.chunk by omega)
  refine ⟨k, n, by omega, hbudget, hn, hkp, ?_, by omega, by omega, hnone, hsome⟩
  rw [result, hk, hn]
  rfl

/-! ## Who is scheduled -/

/-- The rows of a verify round that an output schedules for a request. -/
def SchedulerOutput.roundOf (out : SchedulerOutput) (r : Request) : Option ℕ :=
  if r.draftTokenIds ≠ [] then
    (out.scheduledRunning.find? fun sr => sr.request = r.requestId).map
      ScheduledRequest.numScheduledTokens
  else none

theorem find?_of_mem_nodup {l : List ScheduledRequest}
    (hnodup : (l.map ScheduledRequest.request).Nodup) {sr : ScheduledRequest} (h : sr ∈ l) :
    (l.find? fun x => x.request = sr.request) = some sr := by
  cases hx : l.find? fun x => x.request = sr.request with
  | none => simpa using List.find?_eq_none.mp hx sr h
  | some x =>
    have hid : x.request = sr.request := by simpa using List.find?_some hx
    rw [List.inj_on_of_nodup_map hnodup (List.mem_of_find?_eq_some hx) h hid]

theorem find?_eq_none_of_notMem {l : List ScheduledRequest} {id : RequestId}
    (h : id ∉ l.map ScheduledRequest.request) : (l.find? fun x => x.request = id) = none := by
  refine List.find?_eq_none.mpr fun x hx => ?_
  simp only [decide_eq_true_eq]
  rintro rfl
  exact h (List.mem_map_of_mem hx)

namespace StepTrace
variable {s s' : Scheduler} {out : SchedulerOutput} {plan : List Decision} {victims : List Request}
  {as : List Admission}

theorem ids_nodup (t : StepTrace s s' out plan victims as) (o : InOrder s') :
    (plan.map (fun d => d.request.requestId) ++
      as.map fun a => a.request.requestId).Nodup := by
  have h := o.running_nodup
  rw [t.running', List.map_append, List.map_map, List.map_map] at h
  simpa [Function.comp_def] using h

private theorem slice_ids_sublist (plan : List Decision) :
    ((plan.filterMap Decision.slice).map ScheduledRequest.request).Sublist
      (plan.map fun d => d.request.requestId) := by
  induction plan with
  | nil => exact .slnil
  | cons d plan ih =>
    cases hd : d.grant with
    | none => simpa [Decision.slice, hd] using ih.cons d.request.requestId
    | some c => simpa [Decision.slice, hd] using ih.cons_cons d.request.requestId

theorem scheduled_nodup (t : StepTrace s s' out plan victims as) (o : InOrder s') :
    (out.scheduled.map ScheduledRequest.request).Nodup := by
  rw [SchedulerOutput.scheduled, t.scheduledNew, t.scheduledRunning, List.map_append]
  refine List.nodup_append_comm.mp ?_
  refine List.Nodup.sublist ?_ (t.ids_nodup o)
  have has : (as.map Admission.slice).map ScheduledRequest.request =
      as.map fun a => a.request.requestId := by
    rw [List.map_map]
    rfl
  rw [has]
  exact (slice_ids_sublist plan).append_right _

theorem scheduledRunning_nodup (t : StepTrace s s' out plan victims as) (o : InOrder s') :
    (out.scheduledRunning.map ScheduledRequest.request).Nodup := by
  have h := t.scheduled_nodup o
  rw [SchedulerOutput.scheduled, List.map_append] at h
  exact (List.nodup_append.mp h).2.1

/-- A request the plan granted nothing is not in the output. -/
theorem notMem_scheduledRunning (t : StepTrace s s' out plan victims as) (o : InOrder s')
    {d : Decision} (hd : d ∈ plan) (hnone : d.grant = none) :
    d.request.requestId ∉ out.scheduledRunning.map ScheduledRequest.request := by
  have hnodup := (List.nodup_append.mp (t.ids_nodup o)).1
  rw [t.scheduledRunning]
  intro hmem
  obtain ⟨sr, hsr, hid⟩ := List.mem_map.mp hmem
  obtain ⟨e, he, hslice⟩ := List.mem_filterMap.mp hsr
  obtain ⟨c, hc, rfl⟩ := Option.map_eq_some_iff.mp hslice
  rw [List.inj_on_of_nodup_map hnodup he hd hid, hnone] at hc
  cases hc

theorem notMem_scheduledNew (t : StepTrace s s' out plan victims as) (o : InOrder s')
    {d : Decision} (hd : d ∈ plan) :
    d.request.requestId ∉ out.scheduledNew.map ScheduledRequest.request := by
  have hdisj := (List.nodup_append.mp (t.ids_nodup o)).2.2
  rw [t.scheduledNew, List.map_map]
  intro hmem
  exact hdisj _ (List.mem_map_of_mem hd) _ hmem rfl

theorem notMem_scheduledRunning_of_admission (t : StepTrace s s' out plan victims as)
    (o : InOrder s') {a : Admission} (ha : a ∈ as) :
    a.request.requestId ∉ out.scheduledRunning.map ScheduledRequest.request := by
  have hdisj := (List.nodup_append.mp (t.ids_nodup o)).2.2
  rw [t.scheduledRunning]
  intro hmem
  exact hdisj _ ((slice_ids_sublist plan).subset hmem) _ (List.mem_map_of_mem ha) rfl

/-- What the output schedules for a request of the plan. -/
theorem tokensOf_plan (t : StepTrace s s' out plan victims as) (o : InOrder s') {d : Decision}
    (hd : d ∈ plan) : out.tokensOf d.request.requestId = d.grant.map Int.toNat := by
  rw [SchedulerOutput.tokensOf]
  cases hg : d.grant with
  | none =>
    rw [find?_eq_none_of_notMem]
    · rfl
    · rw [SchedulerOutput.scheduled, List.map_append, List.mem_append]
      exact fun h => h.elim (t.notMem_scheduledNew o hd) (t.notMem_scheduledRunning o hd hg)
  | some c =>
    have hmem : (⟨d.request.requestId, c.toNat⟩ : ScheduledRequest) ∈ out.scheduled := by
      rw [SchedulerOutput.scheduled, t.scheduledRunning]
      exact List.mem_append_right _
        (List.mem_filterMap.mpr ⟨d, hd, by rw [Decision.slice, hg]; rfl⟩)
    rw [find?_of_mem_nodup (t.scheduled_nodup o) hmem]
    rfl

theorem tokensOf_admission (t : StepTrace s s' out plan victims as) (o : InOrder s')
    {a : Admission} (ha : a ∈ as) :
    out.tokensOf a.request.requestId = some a.chunk.toNat := by
  have hmem : a.slice ∈ out.scheduled := by
    rw [SchedulerOutput.scheduled, t.scheduledNew]
    exact List.mem_append_left _ (List.mem_map_of_mem ha)
  rw [SchedulerOutput.tokensOf]
  exact congrArg _ (find?_of_mem_nodup (t.scheduled_nodup o) hmem)

/-- A drafted request of the plan that was granted anything enters a verify round. -/
theorem roundOf_plan (t : StepTrace s s' out plan victims as) (o : InOrder s') {d : Decision}
    (hd : d ∈ plan) : out.roundOf d.result =
      if d.request.draftTokenIds ≠ [] then d.grant.map Int.toNat else none := by
  have hdrafts : d.result.draftTokenIds = d.request.draftTokenIds := by
    unfold Decision.result
    split <;> rfl
  rw [SchedulerOutput.roundOf, hdrafts, Decision.result_requestId]
  split
  · have hsplit := t.tokensOf_plan o hd
    rw [SchedulerOutput.tokensOf, SchedulerOutput.scheduled, List.find?_append,
      find?_eq_none_of_notMem (t.notMem_scheduledNew o hd), Option.none_or] at hsplit
    exact hsplit
  · rfl

/-- An admitted request enters no verify round. -/
theorem roundOf_admission (t : StepTrace s s' out plan victims as) (o : InOrder s')
    {a : Admission} (ha : a ∈ as) : out.roundOf a.result = none := by
  rw [SchedulerOutput.roundOf, Admission.result_requestId,
    find?_eq_none_of_notMem (t.notMem_scheduledRunning_of_admission o ha)]
  split <;> rfl

/-- The admitted requests waited. -/
theorem mem_waiting (t : StepTrace s s' out plan victims as) {a : Admission} (ha : a ∈ as) :
    a.request ∈ s.waiting := by
  obtain ⟨bumped, hall, hw⟩ := t.waiting
  have hnil : victims = [] := by
    by_contra h
    rw [t.admits h] at ha
    cases ha
  subst hnil
  cases hall
  rw [List.nil_append] at hw
  rw [hw]
  exact List.mem_append_left _ (List.mem_map_of_mem ha)

/-- Whoever is scheduled runs. -/
theorem mem_running_of_scheduled (t : StepTrace s s' out plan victims as) {id : RequestId}
    (h : id ∈ out.scheduled.map ScheduledRequest.request) :
    id ∈ s'.running.map Request.requestId := by
  rw [SchedulerOutput.scheduled, t.scheduledNew, t.scheduledRunning] at h
  obtain ⟨sr, hsr, rfl⟩ := List.mem_map.mp h
  rw [t.running', List.map_append, List.mem_append]
  rcases List.mem_append.mp hsr with hsr | hsr
  · obtain ⟨a, ha, rfl⟩ := List.mem_map.mp hsr
    exact .inr (List.mem_map.mpr ⟨a.result, List.mem_map_of_mem ha, a.result_requestId⟩)
  · obtain ⟨p, hp, hslice⟩ := List.mem_filterMap.mp hsr
    obtain ⟨c, -, rfl⟩ := Option.map_eq_some_iff.mp hslice
    exact .inl (List.mem_map.mpr ⟨p.result, List.mem_map_of_mem hp, p.result_requestId⟩)

/-- Who waits after the step waited before it or was a victim. -/
theorem of_mem_waiting (t : StepTrace s s' out plan victims as) {r : Request}
    (hr : r ∈ s'.waiting) :
    r ∈ s.waiting ∨ ∃ v ∈ victims, Bumped v r := by
  obtain ⟨bumped, hall, hw⟩ := t.waiting
  have hmem : r ∈ bumped ++ s.waiting := hw ▸ List.mem_append_right _ hr
  rcases List.mem_append.mp hmem with hmem | hmem
  · obtain ⟨i, hi, rfl⟩ := List.getElem_of_mem hmem
    have hlen : i < victims.length := hall.length_eq ▸ hi
    exact .inr ⟨victims[i], List.getElem_mem hlen, List.forall₂_iff_get.mp hall |>.2 i hlen hi⟩
  · exact .inl hmem

theorem plan_sound' (t : StepTrace s s' out plan victims as) {d : Decision} (hd : d ∈ plan) :
    ∃ budget, d.Sound budget := by
  obtain ⟨pre, post, rfl⟩ := List.append_of_mem hd
  exact ⟨_, t.plan_sound pre d post rfl⟩

theorem admissions_sound' (t : StepTrace s s' out plan victims as) {a : Admission} (ha : a ∈ as) :
    ∃ budget, a.Sound budget := by
  obtain ⟨pre, post, rfl⟩ := List.append_of_mem ha
  exact ⟨_, t.admissions_sound pre a post rfl⟩

end StepTrace

/-- Who waits has a prompt and no progress. -/
def Scheduler.Queued (s : Scheduler) : Prop :=
  ∀ r ∈ s.waiting, r.promptTokenIds ≠ [] ∧ r.numComputedTokens = 0

/-! ## Registration -/

/-- A change of nothing but the prefix nodes. -/
def Renoded (r r' : Request) : Prop := ∃ nodes, r' = { r with cachedPrefixNodes := nodes }

theorem Renoded.refl (r : Request) : Renoded r r := ⟨_, rfl⟩

theorem Renoded.eq_with {r r' : Request} (h : Renoded r r') :
    r' = { r with cachedPrefixNodes := r'.cachedPrefixNodes } := by
  obtain ⟨nodes, rfl⟩ := h
  rfl

theorem Renoded.trans {r r' r'' : Request} (h : Renoded r r') (h' : Renoded r' r'') :
    Renoded r r'' := by
  obtain ⟨_, rfl⟩ := h
  obtain ⟨nodes, rfl⟩ := h'
  exact ⟨nodes, rfl⟩

namespace Scheduler
variable {s s' : Scheduler}

/-- Two schedulers that differ in the block manager and in prefix nodes only. -/
structure SameQueues (s s' : Scheduler) : Prop where
  schedulerConfig : s'.schedulerConfig = s.schedulerConfig
  waiting : s'.waiting = s.waiting
  requests : s'.requests = s.requests
  running : ∃ f : Request → Request, (∀ r, Renoded r (f r)) ∧ s'.running = s.running.map f

theorem SameQueues.refl (s : Scheduler) : s.SameQueues s :=
  ⟨rfl, rfl, rfl, id, Renoded.refl, by simp⟩

theorem SameQueues.trans {s'' : Scheduler} (h : s.SameQueues s') (h' : s'.SameQueues s'') :
    s.SameQueues s'' where
  schedulerConfig := h'.schedulerConfig.trans h.schedulerConfig
  waiting := h'.waiting.trans h.waiting
  requests := h'.requests.trans h.requests
  running := by
    obtain ⟨f, hf, hrun⟩ := h.running
    obtain ⟨g, hg, hrun'⟩ := h'.running
    exact ⟨g ∘ f, fun r => (hf r).trans (hg (f r)), by rw [hrun', hrun, List.map_map]⟩

/-- The registration of a scheduled request that started the step inside its prompt. -/
theorem registerLoop_cons {sr : ScheduledRequest} {scheduled : List ScheduledRequest}
    (h : registerLoop (sr :: scheduled) s = .ok s') :
    ∃ s₁, registerLoop scheduled s₁ = .ok s' ∧ (s₁ = s ∨
      (∃ r, s.findRequest sr.request = some r ∧
        (r.numComputedTokens : ℤ) - sr.numScheduledTokens < r.promptTokenIds.length) ∧
      s.registerPrefix sr.request = .ok s₁) := by
  rw [registerLoop] at h
  split at h
  · exact ⟨s, h, .inl rfl⟩
  · rename_i r hr
    split at h
    · rename_i hlt
      obtain ⟨⟨bm, r'⟩, hins, hrest⟩ := bind_eq_ok.mp h
      refine ⟨_, hrest, .inr ⟨⟨r, hr, hlt⟩, ?_⟩⟩
      rw [registerPrefix, hr]
      exact bind_eq_ok.mpr ⟨(bm, r'), hins, rfl⟩
    · exact ⟨s, h, .inl rfl⟩

theorem sameQueues_registerPrefix {id : RequestId} (h : s.registerPrefix id = .ok s') :
    s.SameQueues s' := by
  unfold registerPrefix at h
  split at h
  · cases h
    exact .refl s
  · obtain ⟨⟨bm, r'⟩, -, hret⟩ := bind_eq_ok.mp h
    cases hret
    refine ⟨rfl, rfl, rfl, _, fun q => ?_, rfl⟩
    split
    · exact ⟨_, rfl⟩
    · exact .refl q

theorem sameQueues_registerLoop {scheduled : List ScheduledRequest}
    (h : registerLoop scheduled s = .ok s') : s.SameQueues s' := by
  induction scheduled generalizing s with
  | nil => cases h; exact .refl _
  | cons sr scheduled ih =>
    obtain ⟨s₁, hrest, rfl | ⟨-, hreg⟩⟩ := registerLoop_cons h
    · exact ih hrest
    · exact (sameQueues_registerPrefix hreg).trans (ih hrest)

theorem sameQueues_registerComputed {out : SchedulerOutput} (h : s.registerComputed out = .ok s') :
    s.SameQueues s' := by
  unfold registerComputed at h
  split at h
  · cases h
    exact .refl s
  · exact sameQueues_registerLoop h

end Scheduler

/-! ## Correction -/

@[simp] theorem correctRound_requestId (preLen n : ℕ) (r : Request) :
    (correctRound preLen n r).requestId = r.requestId := by
  unfold correctRound
  dsimp only
  split
  · split <;> rfl
  · rfl

theorem Renoded.correctRound {r r' : Request} (h : Renoded r r') (preLen n : ℕ) :
    Renoded (Scheduler.correctRound preLen n r) (Scheduler.correctRound preLen n r') := by
  obtain ⟨nodes, rfl⟩ := h
  refine ⟨nodes, ?_⟩
  unfold Scheduler.correctRound
  dsimp only
  split
  · split <;> rfl
  · rfl

namespace Scheduler
variable {s s' : Scheduler} {out : SchedulerOutput}

theorem correctLoop_eq (preLen : List (RequestId × ℕ)) (scheduled : List ScheduledRequest)
    (s : Scheduler) : correctLoop preLen scheduled s = { s with
      running := Keyed.updateAll Request.requestId (scheduled.filterMap fun sr =>
        (preLen.lookup sr.request).map fun n => (sr.request, correctRound n sr.numScheduledTokens))
        s.running } := by
  induction scheduled generalizing s with
  | nil => rfl
  | cons sr scheduled ih =>
    rw [correctLoop]
    cases hn : preLen.lookup sr.request with
    | none => simp [ih, hn]
    | some n =>
      simp only [ih, List.filterMap_cons, hn, Option.map_some, Keyed.updateAll_cons]
      rfl

theorem mem_resolve {r : Request} {n : ℕ} {scheduled : List ScheduledRequest} :
    (r, n) ∈ s.resolve scheduled ↔
      ∃ sr ∈ scheduled, s.findRequest sr.request = some r ∧ sr.numScheduledTokens = n := by
  simp [resolve, List.mem_filterMap]

/-- What the output lengths taken before the model step say about a running request. -/
theorem lookup_specPreLen (hnodup : (s.running.map Request.requestId).Nodup) {r : Request}
    (hr : r ∈ s.running) : (s.specPreLen out).lookup r.requestId =
      if r.draftTokenIds ≠ [] ∧ r.requestId ∈ out.scheduledRunning.map ScheduledRequest.request then
        some r.outputTokenIds.length else none := by
  have hmem : ∀ n, (r.requestId, n) ∈ s.specPreLen out ↔ n = r.outputTokenIds.length ∧
      r.draftTokenIds ≠ [] ∧ r.requestId ∈ out.scheduledRunning.map ScheduledRequest.request := by
    intro n
    simp only [specPreLen, List.mem_filterMap, Prod.exists]
    constructor
    · rintro ⟨q, k, hq, hpre⟩
      obtain ⟨sr, hsr, hfind, rfl⟩ := mem_resolve.mp hq
      split at hpre
      · rename_i hd
        obtain ⟨hqid, rfl⟩ := Prod.mk.inj (Option.some.inj hpre)
        obtain ⟨hqmem, hid⟩ := Scheduler.findRequest_eq_some hfind
        obtain rfl := List.inj_on_of_nodup_map hnodup hqmem hr hqid
        exact ⟨rfl, hd, hid ▸ List.mem_map_of_mem hsr⟩
      · cases hpre
    · rintro ⟨rfl, hd, hin⟩
      obtain ⟨sr, hsr, hid⟩ := List.mem_map.mp hin
      exact ⟨r, _, mem_resolve.mpr ⟨sr, hsr, hid ▸ findRequest_of_mem hnodup hr, rfl⟩, if_pos hd⟩
  cases hl : (s.specPreLen out).lookup r.requestId with
  | none =>
    rw [List.lookup_eq_none_iff] at hl
    rw [if_neg]
    rintro ⟨hd, hin⟩
    have := hl _ ((hmem _).mpr ⟨rfl, hd, hin⟩)
    simp at this
  | some n =>
    obtain ⟨l, l', hsplit, -⟩ := List.lookup_eq_some_iff.mp hl
    obtain ⟨rfl, hcond⟩ := (hmem n).mp (hsplit ▸ List.mem_append_right _ List.mem_cons_self)
    rw [if_pos hcond]

private theorem updateOf_corrections (preLen : List (RequestId × ℕ)) (id : RequestId)
    (scheduled : List ScheduledRequest) :
    Keyed.updateOf (scheduled.filterMap fun sr => (preLen.lookup sr.request).map fun n =>
        (sr.request, correctRound n sr.numScheduledTokens)) id =
      (preLen.lookup id).bind fun n => (scheduled.find? fun sr => sr.request = id).map fun sr =>
        correctRound n sr.numScheduledTokens := by
  induction scheduled with
  | nil => cases preLen.lookup id <;> rfl
  | cons sr scheduled ih =>
    by_cases hid : sr.request = id
    · cases hl : preLen.lookup id with
      | none => simpa [hid, hl] using ih
      | some n => simp [hid, hl, Keyed.updateOf]
    · cases hl : preLen.lookup sr.request with
      | none => simpa [hid, hl] using ih
      | some n => simpa [hid, hl, Keyed.updateOf] using ih

/-- The correction of every request that entered a verify round, from what the requests were
before the model step. -/
theorem running_correctLoop (hnodup : (s.running.map Request.requestId).Nodup)
    (hout : (out.scheduledRunning.map ScheduledRequest.request).Nodup) {g : Request → Request}
    (hg : ∀ r, (g r).requestId = r.requestId) (hrun : s'.running = s.running.map g) :
    (correctLoop (s.specPreLen out) out.scheduledRunning s').running = s.running.map fun r =>
      (out.roundOf r).elim (g r) fun n => correctRound r.outputTokenIds.length n (g r) := by
  rw [correctLoop_eq, hrun, Keyed.updateAll_eq_map, List.map_map]
  · refine List.map_congr_left fun r hr => ?_
    rw [Function.comp_apply, hg, updateOf_corrections, lookup_specPreLen hnodup hr,
      SchedulerOutput.roundOf]
    by_cases hd : r.draftTokenIds = []
    · simp [hd]
    · by_cases hin : r.requestId ∈ out.scheduledRunning.map ScheduledRequest.request
      · rw [if_pos ⟨hd, hin⟩, if_pos hd, Option.bind_some, Option.elim_map, Option.elim_map]
        rfl
      · rw [if_neg fun h => hin h.2, if_pos hd, find?_eq_none_of_notMem hin]
        rfl
  · have hsub : ((out.scheduledRunning.filterMap fun sr =>
        ((s.specPreLen out).lookup sr.request).map fun n =>
          (sr.request, correctRound n sr.numScheduledTokens)).map Prod.fst).Sublist
        (out.scheduledRunning.map ScheduledRequest.request) := by
      generalize out.scheduledRunning = scheduled
      induction scheduled with
      | nil => exact .slnil
      | cons sr scheduled ih =>
        cases hl : (s.specPreLen out).lookup sr.request with
        | none => simpa [hl] using ih.cons sr.request
        | some n => simpa [hl] using ih.cons_cons sr.request
    exact hsub.nodup hout
  · intro u hu r
    obtain ⟨sr, -, hu⟩ := List.mem_filterMap.mp hu
    obtain ⟨n, -, rfl⟩ := Option.map_eq_some_iff.mp hu
    exact correctRound_requestId n _ r

/-- Hand out proposals, if there is a draft model. -/
def proposeIf (s : Scheduler) (drafts : Option (RequestId → List Token)) : Scheduler :=
  drafts.elim s s.propose

end Scheduler

/-! ## The step -/

namespace LLMEngine
variable {e : LLMEngine} {s s' : Scheduler} {out : SchedulerOutput} {finished : List Request}
  {drafts : Option (RequestId → List Token)}

/-- The stages of a step that returned. -/
theorem step_eq_ok_iff : e.step drafts s = .ok (s', out, finished) ↔ ∃ s₁ s₂ s₃ s₅,
    s.schedule = .ok (s₁, out) ∧ e.runner.executeModel s₁ out = .ok s₂ ∧
      s₂.registerComputed out = .ok s₃ ∧
      (correctLoop (s₁.specPreLen out) out.scheduledRunning s₃).freeFinishedRequests =
        .ok (s₅, finished) ∧ s' = s₅.proposeIf drafts := by
  constructor
  · intro h
    obtain ⟨⟨s₁, out'⟩, h₁, h⟩ := bind_eq_ok.mp h
    obtain ⟨s₂, h₂, h⟩ := bind_eq_ok.mp h
    obtain ⟨s₃, h₃, h⟩ := bind_eq_ok.mp h
    obtain ⟨⟨s₅, finished'⟩, h₅, h⟩ := bind_eq_ok.mp h
    cases drafts with
    | none => cases h; exact ⟨s₁, s₂, s₃, s₅, h₁, h₂, h₃, h₅, rfl⟩
    | some d => cases h; exact ⟨s₁, s₂, s₃, s₅, h₁, h₂, h₃, h₅, rfl⟩
  · rintro ⟨s₁, s₂, s₃, s₅, h₁, h₂, h₃, h₅, rfl⟩
    refine bind_eq_ok.mpr ⟨_, h₁, bind_eq_ok.mpr ⟨_, h₂, bind_eq_ok.mpr ⟨_, h₃,
      bind_eq_ok.mpr ⟨_, h₅, ?_⟩⟩⟩⟩
    cases drafts <;> rfl

/-- The change of one running request between the schedule and the sweep, its prefix nodes
apart. -/
def turn (e : LLMEngine) (out : SchedulerOutput) (r : Request) : Request :=
  (out.roundOf r).elim (e.runner.serve out r) fun n =>
    correctRound r.outputTokenIds.length n (e.runner.serve out r)

end LLMEngine

end LightServe
