import LightServe.Serving.Lossless

/-!
# Lossless speculative decoding

A verify round commits what a greedy check of the draft keeps, cut at the first stop, and
winds the request back to it, so that speculative decoding serves what plain greedy decoding
serves, whatever the draft model proposes. A preempted request keeps its draft, though; when
it is admitted with it, the rows it gets are not those of a verify round.

## Main definitions

* `Scheduler.Undrafted` — the condition on a step.
* `Request.InPhase` — where a request stands between steps.
* `speculative_lossless_of_run` — the result; `stale_draft_raises` — a run that breaks it.
-/

namespace LightServe

open Scheduler

/-- No request that the step admits holds a draft. -/
def Scheduler.Undrafted (s : Scheduler) : Prop :=
  ∀ s₁ out, s.schedule = .ok (s₁, out) → ∀ r ∈ s.waiting,
    r.requestId ∈ out.scheduledNew.map ScheduledRequest.request → r.draftTokenIds = []

namespace Request

/-- Between steps a request is inside its prompt without a draft, or has one token left to
compute and a draft of `K` tokens after it. -/
def InPhase (K : ℕ) (r : Request) : Prop :=
  (r.draftTokenIds = [] ∧ r.outputTokenIds = [] ∧ r.isPrefill = true) ∨
  (r.draftTokenIds.length = K ∧ r.numComputedTokens + 1 = r.getLen ∧ r.isPrefill = false)

/-- The same before the proposals are out. -/
def Turned (r : Request) : Prop :=
  (r.draftTokenIds = [] ∧ r.outputTokenIds = [] ∧ r.isPrefill = true) ∨
  (r.numComputedTokens + 1 = r.getLen ∧ r.isPrefill = false)

variable {r : Request} {K : ℕ}

theorem InPhase.turned (h : r.InPhase K) : r.Turned := h.imp id And.right

theorem Turned.proposed (h : r.Turned) {drafts : RequestId → List Token}
    (hd : ∀ id, (drafts id).length = K) : (r.proposed (some drafts)).InPhase K := by
  unfold Request.proposed
  rw [Option.elim_some]
  rcases h with ⟨hdrafts, hout, hpre⟩ | ⟨hlen, hpre⟩
  · rw [if_pos hpre]
    exact .inl ⟨hdrafts, hout, hpre⟩
  · rw [hpre, if_neg Bool.false_ne_true]
    exact .inr ⟨hd _, hlen, hpre⟩

end Request

namespace LLMEngine
variable {e : LLMEngine} {out : SchedulerOutput} {arrived : List Request} {r : Request} {n : ℕ}

/-- The turn of a request without outputs and without a draft. -/
theorem turned_of_fresh (h : r.Kept e.runner.next arrived) (hd : r.draftTokenIds = [])
    (hout : r.outputTokenIds = []) (hle : r.numComputedTokens ≤ r.promptTokenIds.length)
    (hn : out.tokensOf r.requestId = some n) : (e.turn out r).Served e.runner.next arrived ∧
      ((e.turn out r).isFinished = false → (e.turn out r).Turned) := by
  have hround : out.roundOf r = none := SchedulerOutput.roundOf_of_undrafted hd
  have hlen : r.getLen = r.promptTokenIds.length := by simp [Request.getLen, hout]
  cases hpre : r.isPrefill with
  | true =>
    rw [turn_prefill hn hround hpre]
    exact ⟨.of_kept h, fun _ => .inl ⟨hd, hout, hpre⟩⟩
  | false =>
    have hfull : r.numComputedTokens = r.getLen := by
      have : ¬ r.numComputedTokens < r.promptTokenIds.length := by
        simpa [Request.isPrefill] using hpre
      omega
    refine ⟨(served_turn h hd hn (.inr hfull)).1, fun _ => .inr ?_⟩
    rw [turn_sample hn hround hpre hd h.onTrack.unfinished]
    refine ⟨?_, hpre⟩
    rw [hlen] at hfull
    simp only [Request.grown, Request.getLen, List.length_append, List.length_singleton, hout,
      List.length_nil, Nat.zero_add]
    omega

/-- The verify round of a request that had one token left to compute. -/
theorem turned_of_round (h : r.Kept e.runner.next arrived) (hd : r.draftTokenIds ≠ [])
    (hdrafts : n = r.draftTokenIds.length + 1) (hle : n ≤ r.numComputedTokens)
    (hone : r.numComputedTokens - n + 1 = r.getLen)
    (hprompt : r.promptTokenIds.length ≤ r.numComputedTokens - n)
    (hn : out.tokensOf r.requestId = some n) (hround : out.roundOf r = some n) :
    (e.turn out r).Served e.runner.next arrived ∧
      ((e.turn out r).isFinished = false → (e.turn out r).Turned) := by
  have hpre : r.isPrefill = false := by
    simp only [Request.isPrefill, decide_eq_false_iff_not]
    omega
  obtain ⟨j, hpos, hj, kept, rfl, hgreedy, hgo, hturn⟩ :=
    turn_verify hn hround hpre hd h.onTrack.unfinished (e := e)
  rw [hone, ← Request.length_allTokenIds, List.take_length] at hgreedy
  obtain ⟨hgoes, hstops⟩ := h.grown (List.length_pos_iff.mp hpos) hgreedy hgo
  rw [hturn]
  refine ⟨⟨h.arrived, fun hf => ?_, hstops⟩, fun _ => .inr ⟨?_, ?_⟩⟩
  · exact (hgoes hf).congr rfl rfl rfl rfl hf
  · simp only [Request.getLen, Request.grown, List.length_append] at hone ⊢
    omega
  · show decide (r.numComputedTokens - (n - kept.length) < r.promptTokenIds.length) = false
    rw [decide_eq_false_iff_not]
    omega

end LLMEngine

/-- The state of an engine that decodes speculatively. -/
structure SpecState (e : LLMEngine) (K : ℕ) (arrived : List Request) (s : Scheduler) : Prop where
  cacheless : Cacheless s
  running : ∀ r ∈ s.running, r.Kept e.runner.next arrived ∧ r.InPhase K
  waiting : ∀ r ∈ s.waiting, r.Kept e.runner.next arrived ∧ r.numComputedTokens = 0 ∧
    (r.draftTokenIds = [] → r.outputTokenIds = [])

namespace SpecState
variable {e : LLMEngine} {K : ℕ} {arrived finished : List Request} {s s' s₁ : Scheduler}
  {out : SchedulerOutput} {plan : List Decision} {victims : List Request} {as : List Admission}

theorem queued (h : SpecState e K arrived s) : s.Queued := fun r hr =>
  ⟨(h.waiting r hr).1.prompt, (h.waiting r hr).2.1⟩

/-- What an admission of a step without stale drafts looks like. -/
theorem admission (h : SpecState e K arrived s) (hm : s.Undrafted) (hs : s.schedule = .ok (s₁, out))
    (t : StepTrace s s₁ out plan victims as) {a : Admission} (ha : a ∈ as) :
    a.result.Kept e.runner.next arrived ∧ a.result.draftTokenIds = [] ∧
      a.result.outputTokenIds = [] ∧
      a.result.numComputedTokens ≤ a.result.promptTokenIds.length := by
  obtain ⟨hkept, hnc, hout⟩ := h.waiting a.request (t.mem_waiting ha)
  have hdrafts : a.request.draftTokenIds = [] := by
    refine hm s₁ out hs a.request (t.mem_waiting ha) ?_
    rw [t.scheduledNew, List.map_map]
    exact List.mem_map_of_mem (f := ScheduledRequest.request ∘ Admission.slice) ha
  obtain ⟨budget, hsound⟩ := t.admissions_sound' ha
  obtain ⟨k, n, -, -, -, -, hres, hle, -⟩ := hsound.cases hkept.prompt hnc
  refine ⟨Admission.kept_result hkept, hdrafts, hout hdrafts, ?_⟩
  rw [hres]
  show k + n ≤ a.request.promptTokenIds.length
  simpa [Request.getLen, hout hdrafts] using hle

theorem served (h : SpecState e K arrived s) (hK : 0 < K) (hm : s.Undrafted)
    (hs : s.schedule = .ok (s₁, out)) (t : StepTrace s s₁ out plan victims as) (o : InOrder s₁)
    {r : Request} (hr : r ∈ s₁.running) : (e.turn out r).Served e.runner.next arrived ∧
      ((e.turn out r).isFinished = false → (e.turn out r).Turned) := by
  rw [t.running', List.mem_append] at hr
  rcases hr with hr | hr
  · obtain ⟨d, hd, rfl⟩ := List.mem_map.mp hr
    obtain ⟨hkept, hphase⟩ := h.running d.request
      (t.running ▸ List.mem_append_left _ (List.mem_map_of_mem hd))
    have hkept' := Decision.kept_result hkept
    have htokens := t.tokensOf_plan o hd
    have hround := t.roundOf_plan o hd
    rw [← Decision.result_requestId] at htokens
    obtain ⟨budget, hsound⟩ := t.plan_sound' hd
    rcases hsound.cases with ⟨hg, hres, -⟩ | ⟨n, hpos, -, hg, hres, hdrafted, hundrafted⟩
    · rw [hg, Option.map_none, ite_self] at hround
      rw [hg] at htokens
      rw [LLMEngine.turn_idle htokens hround]
      refine ⟨.of_kept hkept', fun _ => ?_⟩
      rw [hres]
      exact hphase.turned
    · rw [hg, Option.map_some, Int.toNat_natCast] at htokens hround
      rw [hres] at hkept' htokens hround ⊢
      rcases hphase with ⟨hdrafts, hout, hpre⟩ | ⟨hdrafts, hlen, hpre⟩
      · refine LLMEngine.turned_of_fresh hkept' hdrafts hout ?_ htokens
        have := (hundrafted hdrafts).1
        simpa [Request.getLen, hout] using this
      · have hne : d.request.draftTokenIds ≠ [] := by
          intro hnil
          rw [hnil] at hdrafts
          exact hK.ne hdrafts
        rw [if_pos hne] at hround
        have hprompt : d.request.promptTokenIds.length ≤ d.request.numComputedTokens := by
          simpa [Request.isPrefill] using hpre
        refine LLMEngine.turned_of_round hkept' hne (hdrafted hne) (Nat.le_add_left _ _) ?_ ?_
          htokens hround
        · rw [Nat.add_sub_cancel]
          exact hlen
        · rw [Nat.add_sub_cancel]
          exact hprompt
  · obtain ⟨a, ha, rfl⟩ := List.mem_map.mp hr
    obtain ⟨hkept, hdrafts, hout, hle⟩ := h.admission hm hs t ha
    have htokens := t.tokensOf_admission o ha
    rw [← Admission.result_requestId] at htokens
    exact LLMEngine.turned_of_fresh hkept hdrafts hout hle htokens

/-- Every verify round has its rows, so that a step returns. -/
theorem returns (h : SpecState e K arrived s) (hall : e.runner.Unbounded) (hm : s.Undrafted)
    (drafts : Option (RequestId → List Token)) :
    ∃ s' out finished, e.step drafts s = .ok (s', out, finished) := by
  obtain ⟨s₁, out, hs⟩ := h.cacheless.schedule_returns
  obtain ⟨plan, victims, as, t⟩ := StepTrace.of_schedule hs
  obtain ⟨o, -⟩ := h.cacheless.toInOrder.schedule hs
  obtain ⟨s₂, h₂⟩ : ∃ s₂, e.runner.executeModel s₁ out = .ok s₂ := by
    refine e.runner.executeModel_returns (fun rn hrn => t.placed o h.queued hrn) ?_
      fun rn _ => hall.covers rn.1
    intro rn hrn hdrafts
    obtain ⟨hmem, htokens⟩ := t.of_mem_resolve o hrn
    rw [t.running', List.mem_append] at hmem
    rcases hmem with hmem | hmem
    · obtain ⟨d, hd, hr⟩ := List.mem_map.mp hmem
      obtain ⟨-, hphase⟩ := h.running d.request
        (t.running ▸ List.mem_append_left _ (List.mem_map_of_mem hd))
      obtain ⟨budget, hsound⟩ := t.plan_sound' hd
      rw [← hr, Decision.result_requestId, t.tokensOf_plan o hd] at htokens
      rcases hsound.cases with ⟨hg, -⟩ | ⟨n, -, -, hg, hres, hdrafted, -⟩
      · rw [hg] at htokens
        cases htokens
      · obtain rfl : n = rn.2 := by simpa [hg] using htokens
        rw [← hr, hres] at hdrafts ⊢
        rcases hphase with ⟨hnil, -⟩ | ⟨-, hone, -⟩
        · exact absurd hnil hdrafts
        · refine ⟨hdrafted hdrafts, ?_⟩
          show d.request.numComputedTokens + rn.2 - rn.2 < d.request.getLen
          omega
    · obtain ⟨a, ha, hr⟩ := List.mem_map.mp hmem
      rw [← hr] at hdrafts
      exact absurd (h.admission hm hs t ha).2.1 hdrafts
  obtain ⟨s', finished, hstep⟩ := h.cacheless.step_returns h.queued hs h₂
  exact ⟨s', out, finished, hstep⟩

theorem step (h : SpecState e K arrived s) (hK : 0 < K) (hm : s.Undrafted)
    {drafts : RequestId → List Token} (hd : ∀ id, (drafts id).length = K)
    (hs : e.step (some drafts) s = .ok (s', out, finished)) :
    SpecState e K arrived s' ∧ ∀ r ∈ finished, r.origin ∈ arrived ∧ r.Lossless e.runner.next := by
  obtain ⟨s₁, plan, victims, as, turned, st⟩ :=
    LLMEngine.stepSpec_of_step h.cacheless.toInOrder h.queued hs
  have t := st.trace
  obtain rfl := st.turned_eq (h.cacheless.schedule st.schedule).1.cacheless
  have hserved := fun q (hq : q ∈ s₁.running) => h.served hK hm st.schedule t st.inOrder hq
  have hproposed : ∀ q ∈ s₁.running, (e.turn out q).isFinished = false →
      (Request.proposed (some drafts) (e.turn out q)).Kept e.runner.next arrived ∧
        (Request.proposed (some drafts) (e.turn out q)).InPhase K := fun q hq hf =>
    ⟨((hserved q hq).1.2.1 hf).proposed _, ((hserved q hq).2 hf).proposed hd⟩
  obtain ⟨hrunning, hwaiting⟩ := st.forall_requests
    h.running h.waiting
    (fun r r' ⟨hkept, hphase⟩ hb => ⟨hkept.bumped hb, by obtain ⟨_, rfl⟩ := hb; rfl, by
      obtain ⟨_, rfl⟩ := hb
      intro hnil
      rcases hphase with ⟨-, hout, -⟩ | ⟨hdrafts, -⟩
      · exact hout
      · rw [show r.draftTokenIds = [] from hnil] at hdrafts
        exact absurd hdrafts hK.ne⟩)
    (fun d hd _ hf => hproposed _ (t.running' ▸ List.mem_append_left _ (List.mem_map_of_mem hd)) hf)
    (fun a ha _ hf =>
      hproposed _ (t.running' ▸ List.mem_append_right _ (List.mem_map_of_mem ha)) hf)
  refine ⟨⟨(h.cacheless.step h.queued hs).1, hrunning, hwaiting⟩, fun r hr => ?_⟩
  obtain ⟨q, hq, hfin, hren⟩ := st.finished r hr
  have hlossless := (hserved q hq).1.renoded hren
  have hfin' : r.isFinished = true := by
    obtain ⟨_, rfl⟩ := hren
    exact hfin
  exact ⟨hlossless.1, hlossless.2.2 hfin'⟩

theorem of_run {c : SpeculativeConfig} (hcache : e.cacheConfig.enablePrefixCaching = false)
    (hspec : e.speculativeConfig = some c)
    (h : e.Run Request.Servable Scheduler.Undrafted s arrived) :
    SpecState e c.numSpeculativeTokens arrived s := by
  induction h with
  | start =>
    exact ⟨.new hcache _ _, by simp [LLMEngine.start, Scheduler.new],
      by simp [LLMEngine.start, Scheduler.new]⟩
  | addRequest id promptTokenIds params _ ha hs ih =>
    refine ⟨ih.cacheless.addRequest rfl hs, ?_, ?_⟩ <;> rw [Scheduler.addRequest_eq hs]
    · exact fun r hr => ⟨(ih.running r hr).1.mono _, (ih.running r hr).2⟩
    · intro r hr
      rcases List.mem_append.mp hr with hr | hr
      · obtain ⟨hkept, hrest⟩ := ih.waiting r hr
        exact ⟨hkept.mono _, hrest⟩
      · rw [List.mem_singleton.mp hr]
        exact ⟨.new id ha, rfl, fun _ => rfl⟩
  | step drafts _ hd hm hs ih =>
    obtain ⟨d, rfl, hlen⟩ := e.proposes_some hspec hd
    exact (ih.step c.numSpeculativeTokens_pos hm hlen hs).1
  | abortRequests ids _ hs ih =>
    obtain ⟨hrunning, hwaiting⟩ := Scheduler.mem_of_abortRequests hs
    exact ⟨(ih.cacheless.abortRequests hs).1, fun r hr => ih.running r (hrunning r hr),
      fun r hr => ih.waiting r (hwaiting r hr)⟩

end SpecState

/-- Whatever the draft model proposes, a step that admits nobody with a stale draft returns,
and every request that finishes has the output and the status of its own greedy decoding. -/
theorem speculative_lossless_of_run {e : LLMEngine} {c : SpeculativeConfig}
    (hcache : e.cacheConfig.enablePrefixCaching = false) (hspec : e.speculativeConfig = some c)
    (hall : e.runner.Unbounded) {s : Scheduler} {arrived : List Request}
    (h : e.Run Request.Servable Scheduler.Undrafted s arrived) (hm : s.Undrafted)
    {drafts : Option (RequestId → List Token)} (hd : e.Proposes drafts) :
    ∃ s' out finished, e.step drafts s = .ok (s', out, finished) ∧
      ∀ r ∈ finished, r.origin ∈ arrived ∧ r.Lossless e.runner.next := by
  have hstate := SpecState.of_run hcache hspec h
  obtain ⟨s', out, finished, hs⟩ := hstate.returns hall hm drafts
  obtain ⟨d, rfl, hproposes⟩ := e.proposes_some hspec hd
  exact ⟨s', out, finished, hs, (hstate.step c.numSpeculativeTokens_pos hm hproposes hs).2⟩

instance (s : Scheduler) : Decidable s.Undrafted := s.decidableOnSchedule _

/-- Four blocks of one token, and a draft model that proposes two. -/
def draftedEngine : LLMEngine where
  cacheConfig := .ofBlocks 1 4 Nat.one_pos
  schedulerConfig := .defaults
  runner := { next := fun tokens => tokens.length }
  speculativeConfig := some { numSpeculativeTokens := 2, numSpeculativeTokens_pos := Nat.two_pos }
  hashFn := fun _ _ => 0

/-- Two requests over three steps. The first verify rounds keep one token of the one draft and none
of the other; the second ones keep all of both, and both requests finish. -/
theorem speculative_lossless_of_run_two :
    let e := { draftedEngine with cacheConfig := .ofBlocks 2 8 Nat.two_pos }
    ∃ s₀ arrived s out₀ finished₀ s' out finished,
      e.Run Request.Servable Scheduler.Undrafted s₀ arrived ∧
      s₀.running.map (fun r => (r.outputTokenIds, r.draftTokenIds)) =
        [([1], [2, 9]), ([3], [9, 9])] ∧
      e.step (some fun id => if id = 0 then [4, 5] else [5, 6]) s₀ = .ok (s, out₀, finished₀) ∧
      s.running.map (fun r => (r.outputTokenIds, r.draftTokenIds)) =
        [([1, 2, 3], [4, 5]), ([3, 4], [5, 6])] ∧
      e.step (some fun _ => [0, 0]) s = .ok (s', out, finished) ∧
      finished.map Request.outputTokenIds = [[1, 2, 3, 4, 5, 6], [3, 4, 5, 6]] ∧
      ∀ r ∈ finished, r.origin ∈ arrived ∧ r.Lossless e.runner.next := by
  intro e
  have hround : (e.performAll Scheduler.Undrafted e.start []
      [.addRequest 0 [7] { maxTokens := 6 }, .addRequest 1 [8, 9, 8] { maxTokens := 4 },
        .step (some fun id => if id = 0 then [2, 9] else [9, 9])]).any (fun run =>
      (e.step (some fun id => if id = 0 then [4, 5] else [5, 6]) run.1).toOption.any fun next =>
      (e.step (some fun _ => [0, 0]) next.1).toOption.any fun next' => decide (
        run.1.Undrafted ∧ next.1.Undrafted ∧
        run.1.running.map (fun r => (r.outputTokenIds, r.draftTokenIds)) =
          [([1], [2, 9]), ([3], [9, 9])] ∧
        next.1.running.map (fun r => (r.outputTokenIds, r.draftTokenIds)) =
          [([1, 2, 3], [4, 5]), ([3, 4], [5, 6])] ∧
        next'.2.2.map Request.outputTokenIds = [[1, 2, 3, 4, 5, 6], [3, 4, 5, 6]])) = true := by
    decide +kernel
  simp only [Option.any_eq_true, toOption_eq_some, decide_eq_true_eq] at hround
  obtain ⟨⟨s₀, arrived⟩, hrun, ⟨s, out₀, finished₀⟩, hs, next, hnext, hm₀, hm, hdrafts, hdrafts',
    houts⟩ := hround
  have hproposes (id : RequestId) :
      (if id = 0 then [2, 9] else [9, 9] : List Token).length = 2 := by
    split <;> rfl
  have hd₀ : e.Proposes (some fun id => if id = 0 then [4, 5] else [5, 6]) := by
    intro id
    dsimp only
    split <;> rfl
  have hrun₀ : e.Run Request.Servable Scheduler.Undrafted s₀ arrived := by
    refine .performAll .start ?_ hrun
    simpa [LLMEngine.Allows, LLMEngine.Proposes, Request.Servable, LLMEngine.newRequest, e,
      draftedEngine] using hproposes
  have hd : e.Proposes (some fun _ => [0, 0]) := fun _ => rfl
  obtain ⟨s', out, finished, hs', hlossless⟩ :=
    speculative_lossless_of_run rfl rfl ⟨rfl, rfl⟩ (hrun₀.step _ hd₀ hm₀ hs) hm hd
  obtain rfl := Except.ok.inj (hnext.symm.trans hs')
  exact ⟨s₀, arrived, s, out₀, finished₀, s', out, finished, hrun₀, hdrafts, hs, hdrafts',
    hs', houts, hlossless⟩

/-- A prompt of three tokens leaves no room for a verify round of three more, and the request
preempts itself. It comes back with its draft and all its four tokens in one chunk, and the
assertion on the rows of a verify round fails. -/
theorem stale_draft_raises : ¬ ∀ (e : LLMEngine) (c : SpeculativeConfig) (s : Scheduler)
    (arrived : List Request) (drafts : Option (RequestId → List Token)),
    e.cacheConfig.enablePrefixCaching = false → e.speculativeConfig = some c →
    e.runner.Unbounded → e.Run Request.Servable (fun _ => True) s arrived →
    e.Proposes drafts → ∃ s' out finished, e.step drafts s = .ok (s', out, finished) ∧
      ∀ r ∈ finished, r.Lossless e.runner.next := by
  intro h
  have hraises : (draftedEngine.performAll (fun _ => True) draftedEngine.start []
      [.addRequest 0 [1, 1, 1] { maxTokens := 2 }, .step (some fun _ => [0, 0]),
        .step (some fun _ => [0, 0])]).any
      (fun run => (draftedEngine.step (some fun _ => [0, 0]) run.1).toOption.isNone) = true := by
    decide +kernel
  obtain ⟨⟨s, arrived⟩, hrun, hraises⟩ := (Option.any_eq_true _ _).mp hraises
  have hrun : draftedEngine.Run Request.Servable (fun _ => True) s arrived := .performAll .start
    (by simp [LLMEngine.Allows, LLMEngine.Proposes, Request.Servable, LLMEngine.newRequest,
      draftedEngine]) hrun
  obtain ⟨s', out, finished, hs, -⟩ := h draftedEngine _ s arrived (some fun _ => [0, 0]) rfl rfl
    ⟨rfl, rfl⟩ hrun fun _ => rfl
  rw [hs] at hraises
  cases hraises

end LightServe
