import LightServe.Serving.Run

/-!
# What a step commits

A step told without assuming anything of its requests, not even that they have prompts: every
scheduled request commits something, nothing while its prompt is not covered, a part of its
draft and one more token after a verify round, and one token otherwise.

## Main definitions

* `Request.MayCommit` — what a scheduled request may commit.
* `LLMEngine.StepTurns` — a step, told by what its requests commit.
* `LLMEngine.stepTurns_of_step` — every step that returned is one of these.
* `Request.Continues` — a later state of a request.
* `LLMEngine.StepTurns.continues` — no request is lost, and no output is taken back.
-/

namespace LightServe

open Scheduler
open ModelRunner (commit committed)

/-- What a request may commit when it is scheduled. -/
def Request.MayCommit (r : Request) (tokens : List Token) : Prop :=
  if r.isPrefill then tokens = []
  else if r.draftTokenIds ≠ [] then ∃ bonus rows, tokens = acceptLoop bonus r.draftTokenIds rows
  else ∃ t, tokens = [t]

namespace ModelRunner
variable {m : ModelRunner} {s s' : Scheduler} {out : SchedulerOutput}

theorem mayCommit_of_committed {rows tokens : List Token} {f : FlatRange}
    (h : committed rows f = .ok tokens) : f.request.MayCommit tokens := by
  unfold committed at h
  unfold Request.MayCommit
  split
  · rename_i hpre
    rw [if_pos hpre] at h
    exact (Except.ok.inj h).symm
  · rename_i hpre
    rw [if_neg hpre] at h
    split
    · rename_i hd
      rw [if_pos hd] at h
      unfold acceptReject at h
      split at h
      · cases h
      · exact ⟨_, _, (Except.ok.inj h).symm⟩
    · rename_i hd
      rw [if_neg hd] at h
      split at h
      · cases h
      · exact ⟨_, (Except.ok.inj h).symm⟩

/-- The commit loop over a flat batch updates every scheduled request by what it commits, and a
verify round by what it verified, whatever the rows before the batch. -/
theorem commitLoop_commits {cursor : ℕ} {scheduled : List (Request × ℕ)} {ranges : List FlatRange}
    (h : flatLoop cursor scheduled = .ok ranges) (hread : ∀ f ∈ ranges, m.Readable f)
    {pre : List Token} (hpre : pre.length = cursor)
    (hl : s.commitLoop (pre ++ ranges.flatMap m.rowTokens) ranges = .ok s') :
    ∃ us : List (RequestId × (Request → Request)),
      us.map Prod.fst = scheduled.map (fun rn => rn.1.requestId) ∧
      s' = { s with running := Keyed.updateAll Request.requestId us s.running } ∧
      (∀ u ∈ us, ∃ tokens, u.2 = commit tokens) ∧
      ∀ rn ∈ scheduled, ∃ tokens, rn.1.MayCommit tokens ∧
        (rn.1.draftTokenIds ≠ [] → tokens = m.sample rn.1 rn.2) ∧
          (rn.1.requestId, commit tokens) ∈ us := by
  induction scheduled generalizing cursor ranges pre s with
  | nil =>
    cases h
    cases hl
    exact ⟨[], rfl, rfl, by simp, by simp⟩
  | cons rn scheduled ih =>
    obtain ⟨ids, hids, hrest⟩ := bind_eq_ok.mp h
    obtain ⟨ranges, hranges, hret⟩ := bind_eq_ok.mp hrest
    cases hret
    obtain ⟨⟨hrows, -⟩, hread⟩ := List.forall_mem_cons.mp hread
    obtain ⟨tokens, htokens, hl⟩ := bind_eq_ok.mp hl
    rw [List.flatMap_cons] at htokens hl
    have hrange : IsRange rn.1 rn.2
        { request := rn.1, inputIds := ids, seqStart := rn.1.numComputedTokens - rn.2
          seqEnd := rn.1.numComputedTokens, flatStart := cursor, flatEnd := cursor + rn.2 } :=
      ⟨rfl, hids, rfl, rfl, rfl⟩
    rw [← List.append_assoc] at hl
    obtain ⟨us, hkeys, hs', hcommit, hall⟩ := ih hranges hread (by
      rw [List.length_append, hpre, rowTokens, List.length_map, List.length_range, hrows,
        Nat.add_sub_cancel_left]) hl
    refine ⟨(rn.1.requestId, commit tokens) :: us, by simp [hkeys], hs', ?_, ?_⟩
    · exact List.forall_mem_cons.mpr ⟨⟨tokens, rfl⟩, hcommit⟩
    · refine List.forall_mem_cons.mpr
        ⟨⟨tokens, mayCommit_of_committed htokens, fun hd => ?_, List.mem_cons_self⟩, fun q hq => ?_⟩
      · rw [hrange.committed_drafted hd hpre] at htokens
        exact (Except.ok.inj htokens).symm
      · obtain ⟨ts, hts, hverify, hmem⟩ := hall q hq
        exact ⟨ts, hts, hverify, List.mem_cons_of_mem _ hmem⟩

/-- A forward pass that returned committed something to every scheduled request, to a verify round
what it verified, and nothing to anybody else. -/
theorem executeModel_commits (hnodup : (s.running.map Request.requestId).Nodup)
    (hout : (out.scheduled.map ScheduledRequest.request).Nodup)
    (h : m.executeModel s out = .ok s') : ∃ served : Request → Request,
      s' = { s with running := s.running.map served } ∧
      (∀ r, (served r).requestId = r.requestId) ∧ ∀ r ∈ s.running,
        (out.tokensOf r.requestId = none → served r = r) ∧
        ((out.tokensOf r.requestId).isSome → ∃ tokens, r.MayCommit tokens ∧
          served r = commit tokens r) ∧
        ∀ n, out.tokensOf r.requestId = some n → r.draftTokenIds ≠ [] →
          served r = commit (m.sample r n) r := by
  obtain ⟨ranges, hbatch, hrest⟩ := bind_eq_ok.mp h
  obtain ⟨_, hlook, hloop⟩ := bind_eq_ok.mp hrest
  have hread : ∀ f ∈ ranges, m.Readable f := by
    unfold lookUp at hlook
    split at hlook
    · assumption
    · cases hlook
  obtain ⟨us, hkeys, rfl, hcommit, hall⟩ :=
    commitLoop_commits (flatLoop_of_buildFlatBatch hbatch) hread List.length_nil hloop
  have hids : (us.map Prod.fst).Nodup := by
    rw [hkeys]
    exact (s.resolve_ids_sublist out.scheduled).nodup hout
  have hkeep : ∀ u ∈ us, ∀ r, (u.2 r).requestId = r.requestId := by
    intro u hu r
    obtain ⟨tokens, htokens⟩ := hcommit u hu
    rw [htokens, commit_requestId]
  refine ⟨_, by rw [Keyed.updateAll_eq_map Request.requestId hids hkeep],
    fun r => ?_, fun r hr => ?_⟩
  · cases hu : Keyed.updateOf us r.requestId with
    | none => rfl
    | some f =>
      obtain ⟨u, hfind, rfl⟩ := Option.map_eq_some_iff.mp hu
      exact hkeep u (List.mem_of_find?_eq_some hfind) r
  · have hfound := Scheduler.findRequest_of_mem hnodup hr
    have hscheduled : ∀ n, out.tokensOf r.requestId = some n → ∃ tokens, r.MayCommit tokens ∧
        (r.draftTokenIds ≠ [] → tokens = m.sample r n) ∧
          (Keyed.updateOf us r.requestId).elim r (fun f => f r) = commit tokens r := by
      intro n hn
      obtain ⟨sr, hsr, hlen⟩ := Option.map_eq_some_iff.mp hn
      have hid : sr.request = r.requestId := by simpa using List.find?_some hsr
      have hmem : (r, n) ∈ s.resolve out.scheduled :=
        mem_resolve.mpr ⟨sr, List.mem_of_find?_eq_some hsr, hid ▸ hfound, hlen⟩
      obtain ⟨tokens, htokens, hverify, hu⟩ := hall _ hmem
      refine ⟨tokens, htokens, hverify, ?_⟩
      rw [Keyed.updateOf_of_mem hids hu]
      rfl
    refine ⟨fun hnone => ?_, fun hsome => ?_, fun n hn hd => ?_⟩
    · have hnotMem : r.requestId ∉ us.map Prod.fst := by
        rw [hkeys]
        intro hmem
        obtain ⟨sr, hsr, hid⟩ := List.mem_map.mp ((s.resolve_ids_sublist out.scheduled).subset hmem)
        rw [SchedulerOutput.tokensOf, ← hid, find?_of_mem_nodup hout hsr] at hnone
        cases hnone
      rw [Keyed.updateOf_eq_none hnotMem]
      rfl
    · obtain ⟨n, hn⟩ := Option.isSome_iff_exists.mp hsome
      obtain ⟨tokens, htokens, -, hserved⟩ := hscheduled n hn
      exact ⟨tokens, htokens, hserved⟩
    · obtain ⟨tokens, -, hverify, hserved⟩ := hscheduled n hn
      rw [hverify hd] at hserved
      exact hserved

end ModelRunner

/-! ## The step -/

namespace LLMEngine

/-- The change of one running request from the schedule to the registration: it committed some
tokens if it was scheduled, and its prefix nodes may differ. -/
def Serves (out : SchedulerOutput) (r r' : Request) : Prop :=
  (out.tokensOf r.requestId = none → Renoded r r') ∧
    ((out.tokensOf r.requestId).isSome → ∃ tokens, r.MayCommit tokens ∧
      Renoded (commit tokens r) r')

/-- The correction of a served request: wound back to what its verify round committed, if it was
in one. -/
def corrected (out : SchedulerOutput) (served : Request → Request) (r : Request) : Request :=
  (out.roundOf r).elim (served r) fun n => correctRound r.outputTokenIds.length n (served r)

/-- A step from `s` to `s'`: its schedule made `plan`, `victims` and `as` and led to `s₁`; the
running requests were `served`, which led to `s₃`, and then corrected; and the sweep led to
`s₅`. -/
structure StepTurns (drafts : Option (RequestId → List Token)) (s s' : Scheduler)
    (out : SchedulerOutput) (finished : List Request) (s₁ s₃ s₅ : Scheduler) (plan : List Decision)
    (victims : List Request) (as : List Admission) (served : Request → Request) : Prop where
  schedule : s.schedule = .ok (s₁, out)
  trace : StepTrace s s₁ out plan victims as
  inOrder : InOrder s₁
  ids : ∀ r, (served r).requestId = r.requestId
  serves : ∀ r ∈ s₁.running, Serves out r (served r)
  kept : { s₁ with running := s₁.running.map served }.SameQueues s₃
  running : s₃.running = s₁.running.map served
  sweep : { s₃ with running := s₁.running.map (corrected out served) }.freeFinishedRequests =
    .ok (s₅, finished)
  propose : s' = s₅.proposeIf drafts

variable {e : LLMEngine} {drafts : Option (RequestId → List Token)} {s s' : Scheduler}
  {out : SchedulerOutput} {finished : List Request}

/-- The rounds of a step commit what they verify. -/
def Rounds (e : LLMEngine) (out : SchedulerOutput) (s₁ : Scheduler) (served : Request → Request) :
    Prop :=
  ∀ r ∈ s₁.running, ∀ n, out.tokensOf r.requestId = some n → r.draftTokenIds ≠ [] →
    Renoded (commit (e.runner.sample r n) r) (served r)

/-- The stages of a step serve, correct and sweep. -/
theorem stepTurns_of_stages (drafts : Option (RequestId → List Token)) {s₁ s₂ s₃ s₅ : Scheduler}
    (o : InOrder s) (h₁ : s.schedule = .ok (s₁, out)) (h₂ : e.runner.executeModel s₁ out = .ok s₂)
    (h₃ : s₂.registerComputed out = .ok s₃)
    (h₅ : (correctLoop (s₁.specPreLen out) out.scheduledRunning s₃).freeFinishedRequests =
      .ok (s₅, finished)) : ∃ plan victims as served,
    StepTurns drafts s (s₅.proposeIf drafts) out finished s₁ s₃ s₅ plan victims as served ∧
      e.Rounds out s₁ served := by
  obtain ⟨plan, victims, as, t⟩ := StepTrace.of_schedule h₁
  obtain ⟨o₁, -⟩ := o.schedule h₁
  have hsched := t.scheduled_nodup o₁
  obtain ⟨g, rfl, hid, hserves⟩ := ModelRunner.executeModel_commits o₁.running_nodup hsched h₂
  obtain ⟨hkept, f, hf, hrun, -⟩ := registered h₃
  dsimp only at hrun
  rw [List.map_map] at hrun
  have hids : ∀ r, ((f ∘ g) r).requestId = r.requestId := by
    intro r
    obtain ⟨nodes, hnodes⟩ := hf (g r)
    rw [Function.comp_apply, hnodes]
    exact hid r
  have hcorrect := running_correctLoop o₁.running_nodup (t.scheduledRunning_nodup o₁) hids hrun
  refine ⟨plan, victims, as, f ∘ g, ⟨h₁, t, o₁, hids, fun r hr => ?_, ?_, hrun, ?_, rfl⟩,
    fun r hr n hn hd => ?_⟩
  · obtain ⟨hidle, hcommit, -⟩ := hserves r hr
    refine ⟨fun hnone => ?_, fun hsome => ?_⟩
    · rw [Function.comp_apply, hidle hnone]
      exact hf r
    · obtain ⟨tokens, htokens, hg⟩ := hcommit hsome
      rw [Function.comp_apply, hg]
      exact ⟨tokens, htokens, hf _⟩
  · exact ⟨hkept.schedulerConfig, hkept.waiting, hkept.requests, id, Renoded.refl,
      by rw [hrun, List.map_id]⟩
  · have hmap : s₁.running.map (corrected out (f ∘ g)) =
        (correctLoop (s₁.specPreLen out) out.scheduledRunning s₃).running := hcorrect.symm
    rw [hmap, ← h₅, correctLoop_eq]
  · obtain ⟨-, -, hround⟩ := hserves r hr
    rw [Function.comp_apply, hround n hn hd]
    exact hf _

/-- A commit keeps everything but the outputs, which it extends, and the status. -/
theorem commit_shape (tokens : List Token) (r : Request) : ∃ status,
    commit tokens r = { r with
      outputTokenIds := r.outputTokenIds ++ tokens
      status } := by
  unfold commit Request.maybeFinish
  split
  · rename_i hnil
    exact ⟨r.status, by simp [hnil]⟩
  · split
    · exact ⟨_, rfl⟩
    · split <;> exact ⟨_, rfl⟩

theorem StepTurns.corrected_requestId {s₁ s₃ s₅ : Scheduler} {plan : List Decision}
    {victims : List Request} {as : List Admission} {served : Request → Request}
    (st : StepTurns drafts s s' out finished s₁ s₃ s₅ plan victims as served) (r : Request) :
    (corrected out served r).requestId = r.requestId := by
  unfold corrected
  cases out.roundOf r with
  | none => exact st.ids r
  | some n => exact (correctRound_requestId _ _ _).trans (st.ids r)

/-- The sweep leaves the unfinished requests in order. -/
theorem StepTurns.swept {s₁ s₃ s₅ : Scheduler} {plan : List Decision} {victims : List Request}
    {as : List Admission} {served : Request → Request}
    (st : StepTurns drafts s s' out finished s₁ s₃ s₅ plan victims as served) : InOrder s₅ ∧
      s₅.running = (s₁.running.map (corrected out served)).filter (fun r => ¬ r.isFinished) ∧
      s₅.waiting = s₁.waiting ∧
      finished.map Request.requestId =
        ((s₁.running.map (corrected out served)).filter Request.isFinished).map Request.requestId ∧
      s₅.requests = s₁.requests.filter fun id => id ∉ finished.map Request.requestId := by
  have hid := st.corrected_requestId
  have hupdated := st.inOrder.updateRunning (corrected out served) fun r _ => hid r
  have hcorrected : InOrder { s₃ with running := s₁.running.map (corrected out served) } := by
    refine ⟨?_, ?_⟩
    · show (s₁.running.map (corrected out served) ++ s₃.waiting).map Request.requestId = s₃.requests
      rw [st.kept.waiting, st.kept.requests]
      exact hupdated.ids
    · show s₃.requests.Nodup
      rw [st.kept.requests]
      exact hupdated.nodup
  obtain ⟨o₅, hrunning, hwaiting, hgone, hreq⟩ := hcorrected.freeFinishedRequests st.sweep
  refine ⟨o₅, hrunning, hwaiting.trans st.kept.waiting, hgone, hreq.trans ?_⟩
  rw [← st.kept.requests]

theorem stepTurns_of_step (o : InOrder s) (h : e.step drafts s = .ok (s', out, finished)) :
    ∃ s₁ s₃ s₅ plan victims as served,
      StepTurns drafts s s' out finished s₁ s₃ s₅ plan victims as served ∧
      e.Rounds out s₁ served := by
  obtain ⟨s₁, s₂, s₃, s₅, h₁, h₂, h₃, h₅, rfl⟩ := step_eq_ok_iff.mp h
  exact ⟨s₁, s₃, s₅, stepTurns_of_stages drafts o h₁ h₂ h₃ h₅⟩

end LLMEngine

/-! ## Requests over time -/

/-- A request and a later state of it: its outputs grow at the end. -/
structure Request.Continues (r r' : Request) : Prop where
  requestId : r'.requestId = r.requestId
  promptTokenIds : r'.promptTokenIds = r.promptTokenIds
  samplingParams : r'.samplingParams = r.samplingParams
  outputTokenIds : r.outputTokenIds <+: r'.outputTokenIds

namespace Request.Continues
variable {r r' r'' : Request}

theorem refl (r : Request) : r.Continues r := ⟨rfl, rfl, rfl, List.prefix_refl _⟩

theorem trans (h : r.Continues r') (h' : r'.Continues r'') : r.Continues r'' :=
  ⟨h'.requestId.trans h.requestId, h'.promptTokenIds.trans h.promptTokenIds,
    h'.samplingParams.trans h.samplingParams, h.outputTokenIds.trans h'.outputTokenIds⟩

theorem getLen_le (h : r.Continues r') : r.getLen ≤ r'.getLen := by
  have := h.outputTokenIds.length_le
  rw [Request.getLen, Request.getLen, h.promptTokenIds]
  omega

theorem of_bumped (h : Bumped r r') : r.Continues r' := by
  obtain ⟨nodes, rfl⟩ := h
  exact ⟨rfl, rfl, rfl, List.prefix_refl _⟩

theorem of_renoded (h : Renoded r r') : r.Continues r' := by
  obtain ⟨nodes, rfl⟩ := h
  exact ⟨rfl, rfl, rfl, List.prefix_refl _⟩

theorem decision (d : Decision) : d.request.Continues d.result := by
  unfold Decision.result
  cases d.grant <;> exact ⟨rfl, rfl, rfl, List.prefix_refl _⟩

theorem admission (a : Admission) : a.request.Continues a.result :=
  ⟨rfl, rfl, rfl, List.prefix_refl _⟩

theorem commit (tokens : List Token) (r : Request) : r.Continues (commit tokens r) := by
  obtain ⟨status, h⟩ := LLMEngine.commit_shape tokens r
  rw [h]
  exact ⟨rfl, rfl, rfl, List.prefix_append _ _⟩

theorem proposed (drafts : Option (RequestId → List Token)) (r : Request) :
    r.Continues (r.proposed drafts) := by
  obtain ⟨draft, h⟩ := r.proposed_eq drafts
  rw [h]
  exact ⟨rfl, rfl, rfl, List.prefix_refl _⟩

theorem serves {out : SchedulerOutput} (h : LLMEngine.Serves out r r') : r.Continues r' := by
  cases htokens : out.tokensOf r.requestId with
  | none => exact of_renoded (h.1 htokens)
  | some n =>
    obtain ⟨tokens, -, hren⟩ := h.2 (by rw [htokens]; rfl)
    exact (commit tokens r).trans (of_renoded hren)

/-- A correction keeps the outputs from before the round. -/
theorem correctRound (h : r.Continues r') (n : ℕ) :
    r.Continues (correctRound r.outputTokenIds.length n r') := by
  have hkept : ∀ k, r.outputTokenIds <+: r'.outputTokenIds.take (r.outputTokenIds.length + k) := by
    intro k
    rw [List.prefix_take_iff]
    exact ⟨h.outputTokenIds, by omega⟩
  unfold Scheduler.correctRound
  dsimp only
  split
  · split
    · refine ⟨h.requestId, h.promptTokenIds, h.samplingParams, ?_⟩
      rw [Nat.add_assoc]
      exact hkept _
    · exact ⟨h.requestId, h.promptTokenIds, h.samplingParams, h.outputTokenIds⟩
  · exact ⟨h.requestId, h.promptTokenIds, h.samplingParams, h.outputTokenIds⟩

theorem corrected {out : SchedulerOutput} {served : Request → Request}
    (h : LLMEngine.Serves out r (served r)) : r.Continues (LLMEngine.corrected out served r) := by
  unfold LLMEngine.corrected
  cases out.roundOf r with
  | none => exact serves h
  | some n => exact (serves h).correctRound n

end Request.Continues

/-- A schedule loses no request. -/
theorem StepTrace.continues {s s' : Scheduler} {out : SchedulerOutput} {plan : List Decision}
    {victims : List Request} {as : List Admission} (t : StepTrace s s' out plan victims as)
    {r : Request} (hr : r ∈ s.running ++ s.waiting) :
    ∃ r' ∈ s'.running ++ s'.waiting, r.Continues r' := by
  obtain ⟨bumped, hall, hw⟩ := t.waiting
  have hwaiting : ∀ q ∈ bumped ++ s.waiting, ∃ r' ∈ s'.running ++ s'.waiting, q.Continues r' := by
    intro q hq
    rw [hw, List.mem_append] at hq
    rcases hq with hq | hq
    · obtain ⟨a, ha, rfl⟩ := List.mem_map.mp hq
      refine ⟨a.result, List.mem_append_left _ ?_, .admission a⟩
      rw [t.running']
      exact List.mem_append_right _ (List.mem_map_of_mem ha)
    · exact ⟨q, List.mem_append_right _ hq, .refl q⟩
  rw [t.running, List.mem_append, List.mem_append] at hr
  rcases hr with (hr | hr) | hr
  · obtain ⟨d, hd, rfl⟩ := List.mem_map.mp hr
    refine ⟨d.result, List.mem_append_left _ ?_, .decision d⟩
    rw [t.running']
    exact List.mem_append_left _ (List.mem_map_of_mem hd)
  · obtain ⟨i, hi, rfl⟩ := List.getElem_of_mem hr
    have hi' : i < bumped.length := hall.length_eq ▸ hi
    have hbumped := List.forall₂_iff_get.mp hall |>.2 i hi hi'
    obtain ⟨r', hr', hc⟩ := hwaiting _ (List.mem_append_left _ (List.getElem_mem hi'))
    exact ⟨r', hr', (Request.Continues.of_bumped hbumped).trans hc⟩
  · exact hwaiting r (List.mem_append_right _ hr)

/-- A step loses no request but those that finished in it. -/
theorem LLMEngine.StepTurns.continues {drafts : Option (RequestId → List Token)}
    {s s' : Scheduler} {out : SchedulerOutput} {finished : List Request} {s₁ s₃ s₅ : Scheduler}
    {plan : List Decision} {victims : List Request} {as : List Admission}
    {served : Request → Request}
    (st : StepTurns drafts s s' out finished s₁ s₃ s₅ plan victims as served) {r : Request}
    (hr : r ∈ s.running ++ s.waiting) : r.requestId ∈ finished.map Request.requestId ∨
      ∃ r' ∈ s₅.running ++ s₅.waiting, r.Continues r' := by
  obtain ⟨-, hrunning, hwaiting, hgone, -⟩ := st.swept
  obtain ⟨q, hq, hc⟩ := st.trace.continues hr
  rcases List.mem_append.mp hq with hq | hq
  · have hc' := hc.trans (.corrected (st.serves q hq))
    have hmem := List.mem_map_of_mem (f := corrected out served) hq
    by_cases hfin : (corrected out served q).isFinished = true
    · left
      rw [hgone, ← hc'.requestId]
      exact List.mem_map_of_mem (List.mem_filter.mpr ⟨hmem, hfin⟩)
    · right
      refine ⟨_, List.mem_append_left _ ?_, hc'⟩
      rw [hrunning]
      exact List.mem_filter.mpr ⟨hmem, by simpa using hfin⟩
  · exact .inr ⟨q, List.mem_append_right _ (hwaiting ▸ hq), hc⟩

/-! ## Where requests come from -/

/-- After a schedule every request is one from before, with the same outputs. -/
theorem StepTrace.origin {s s' : Scheduler} {out : SchedulerOutput} {plan : List Decision}
    {victims : List Request} {as : List Admission} (t : StepTrace s s' out plan victims as)
    {r' : Request} (hr : r' ∈ s'.running ++ s'.waiting) : ∃ r ∈ s.running ++ s.waiting,
      r.Continues r' ∧ r'.outputTokenIds = r.outputTokenIds := by
  rcases List.mem_append.mp hr with hr | hr
  · rw [t.running', List.mem_append] at hr
    rcases hr with hr | hr
    · obtain ⟨d, hd, rfl⟩ := List.mem_map.mp hr
      refine ⟨d.request, List.mem_append_left _ ?_, .decision d, ?_⟩
      · rw [t.running]
        exact List.mem_append_left _ (List.mem_map_of_mem hd)
      · unfold Decision.result
        cases d.grant <;> rfl
    · obtain ⟨a, ha, rfl⟩ := List.mem_map.mp hr
      exact ⟨a.request, List.mem_append_right _ (t.mem_waiting ha), .admission a, rfl⟩
  · rcases t.of_mem_waiting hr with hr | ⟨v, hv, hbumped⟩
    · exact ⟨r', List.mem_append_right _ hr, .refl r', rfl⟩
    · refine ⟨v, List.mem_append_left _ ?_, .of_bumped hbumped, ?_⟩
      · rw [t.running]
        exact List.mem_append_right _ hv
      · obtain ⟨nodes, rfl⟩ := hbumped
        rfl

namespace LLMEngine.StepTurns
variable {drafts : Option (RequestId → List Token)} {s s' : Scheduler} {out : SchedulerOutput}
  {finished : List Request} {s₁ s₃ s₅ : Scheduler} {plan : List Decision} {victims : List Request}
  {as : List Admission} {served : Request → Request}

/-- After a step every request is a corrected one, or waited all along. -/
theorem origin (st : StepTurns drafts s s' out finished s₁ s₃ s₅ plan victims as served)
    {r' : Request} (hr : r' ∈ s'.running ++ s'.waiting ++ finished) :
    (∃ r ∈ s₁.running, (corrected out served r).requestId = r'.requestId ∧
      (corrected out served r).outputTokenIds = r'.outputTokenIds) ∨ r' ∈ s₁.waiting := by
  obtain ⟨-, hrunning, hwaiting, -, -⟩ := st.swept
  have hpropose := st.propose
  rw [Scheduler.proposeIf_eq] at hpropose
  rw [List.append_assoc, List.mem_append, List.mem_append] at hr
  rcases hr with hr | hr | hr
  · left
    rw [hpropose, hrunning] at hr
    obtain ⟨q, hq, rfl⟩ := List.mem_map.mp hr
    obtain ⟨r, hmem, rfl⟩ := List.mem_map.mp (List.mem_filter.mp hq).1
    obtain ⟨draft, hdraft⟩ := (corrected out served r).proposed_eq drafts
    rw [hdraft]
    exact ⟨r, hmem, rfl, rfl⟩
  · right
    rw [hpropose] at hr
    exact hwaiting ▸ hr
  · left
    obtain ⟨q, hq, -, nodes, rfl⟩ := Scheduler.finished_of_sweep st.sweep hr
    obtain ⟨r, hmem, rfl⟩ := List.mem_map.mp hq
    exact ⟨r, hmem, rfl, rfl⟩

/-- No id is left over twice by a step. -/
theorem ids_nodup (st : StepTurns drafts s s' out finished s₁ s₃ s₅ plan victims as served) :
    ((s'.running ++ s'.waiting ++ finished).map Request.requestId).Nodup := by
  obtain ⟨o₅, -, -, hgone, hreq⟩ := st.swept
  have hid : ∀ r, (corrected out served r).requestId = r.requestId := st.corrected_requestId
  have hpropose := st.propose
  rw [Scheduler.proposeIf_eq] at hpropose
  have hids : (s'.running ++ s'.waiting).map Request.requestId = s₅.requests := by
    have hsame : Request.requestId ∘ Request.proposed drafts = Request.requestId :=
      funext fun r => (sameRequest_proposed drafts r).requestId
    rw [hpropose, ← o₅.ids, List.map_append, List.map_append, List.map_map, hsame]
  have hfinished : (finished.map Request.requestId).Nodup := by
    have hnodup := st.inOrder.running_nodup
    have hsame : Request.requestId ∘ corrected out served = Request.requestId := funext hid
    rw [← hsame, ← List.map_map] at hnodup
    rw [hgone]
    exact (List.filter_sublist.map _).nodup hnodup
  rw [List.map_append, hids]
  refine List.nodup_append.mpr ⟨o₅.nodup, hfinished, fun id hmem id' hmem' heq => ?_⟩
  rw [hreq, List.mem_filter, decide_eq_true_eq] at hmem
  exact hmem.2 (heq ▸ hmem')

end LLMEngine.StepTurns

end LightServe
