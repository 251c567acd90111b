import LightServe.Scheduling.Admission
import LightServe.Serving.Live
import LightServe.Serving.Lossless

/-!
# Scheduled ranges

Every request that a step schedules gets at least one token, and the range of positions it
computes lies within its own tokens, so that the last row of the request in the flat batch is
a row of its own. A request without a prompt is the exception: it is admitted for no token at
all, or, with the prefix cache on, for the position before its first.

## Main definitions

* `UndraftedState` — what holds of an engine without a draft model between its calls.
* `ModelRunner.OwnRows` — the last row of every request in the batch is its own.
* `scheduled_ranges_of_run` — the result; `empty_prompt_schedules_nothing` — a run that breaks it.
-/

namespace LightServe

open Scheduler

/-- The state of an engine without a draft model. -/
structure UndraftedState (s : Scheduler) : Prop extends LiveState s where
  running_undrafted : ∀ r ∈ s.running, r.draftTokenIds = []
  waiting_undrafted : ∀ r ∈ s.waiting, r.draftTokenIds = []

/-- A turn without a draft leaves none. -/
theorem LLMEngine.turn_undrafted {e : LLMEngine} {out : SchedulerOutput} {r : Request}
    (hd : r.draftTokenIds = []) : (e.turn out r).draftTokenIds = [] := by
  rw [LLMEngine.turn, SchedulerOutput.roundOf_of_undrafted hd, Option.elim_none, ModelRunner.serve]
  cases out.tokensOf r.requestId with
  | none => exact hd
  | some n =>
    rw [Option.elim_some]
    unfold ModelRunner.commit Request.maybeFinish
    split
    · exact hd
    · split
      · exact hd
      · split <;> exact hd

namespace UndraftedState
variable {e : LLMEngine} {s s' s₁ : Scheduler} {out : SchedulerOutput}
  {arrived finished : List Request}

/-- A schedule drafts nothing. -/
theorem schedule (h : UndraftedState s) (hs : s.schedule = .ok (s₁, out)) :
    ∀ r ∈ s₁.running, r.draftTokenIds = [] := by
  obtain ⟨plan, victims, as, t⟩ := StepTrace.of_schedule hs
  intro r hr
  rw [t.running', List.mem_append] at hr
  rcases hr with hr | hr
  · obtain ⟨d, hd, rfl⟩ := List.mem_map.mp hr
    rw [Decision.result_draftTokenIds]
    exact h.running_undrafted _ (t.running ▸ List.mem_append_left _ (List.mem_map_of_mem hd))
  · obtain ⟨a, ha, rfl⟩ := List.mem_map.mp hr
    exact h.waiting_undrafted a.request (t.mem_waiting ha)

theorem step (h : UndraftedState s) (hs : e.step none s = .ok (s', out, finished)) :
    UndraftedState s' := by
  obtain ⟨s₁, plan, victims, as, turned, st⟩ := LLMEngine.stepSpec_of_step h.inOrder h.queued hs
  have hturned : ∀ r, r.draftTokenIds = [] → (turned r).draftTokenIds = [] := by
    intro r hr
    obtain ⟨nodes, hn⟩ := st.renoded r
    rw [hn]
    exact LLMEngine.turn_undrafted hr
  obtain ⟨hrunning, hwaiting⟩ := st.forall_requests h.running_undrafted h.waiting_undrafted
    (fun r r' hr hb => by obtain ⟨_, rfl⟩ := hb; exact hr)
    (fun d _ hd _ => hturned _ (by rw [Decision.result_draftTokenIds]; exact hd))
    (fun a _ ha _ => hturned a.result ha)
  exact ⟨(h.toLiveState.step hs).1, hrunning, hwaiting⟩

/-- Without a draft model nothing is ever drafted. -/
theorem of_run (hspec : e.speculativeConfig = none) {Admits : Request → Prop}
    {Meets : Scheduler → Prop} (hprompt : ∀ r, Admits r → r.Prompted)
    (h : e.Run Admits Meets s arrived) : UndraftedState s := by
  induction h with
  | start =>
    exact ⟨.start e, fun _ hr => (List.not_mem_nil hr).elim, fun _ hr => (List.not_mem_nil hr).elim⟩
  | addRequest id promptTokenIds params _ ha hs ih =>
    refine ⟨ih.toLiveState.addRequest (hprompt _ ha) hs, ?_, ?_⟩
    · rw [addRequest_eq hs]
      exact ih.running_undrafted
    · rw [addRequest_eq hs]
      intro r hr
      rcases List.mem_append.mp hr with hr | hr
      · exact ih.waiting_undrafted r hr
      · rw [List.mem_singleton.mp hr]
        rfl
  | step drafts _ hd _ hs ih =>
    obtain rfl := LLMEngine.proposes_none hspec hd
    exact ih.step hs
  | abortRequests ids _ hs ih =>
    obtain ⟨hrunning, hwaiting⟩ := mem_of_abortRequests hs
    exact ⟨(ih.toLiveState.abortRequests hs).1, fun r hr => ih.running_undrafted r (hrunning r hr),
      fun r hr => ih.waiting_undrafted r (hwaiting r hr)⟩

end UndraftedState

/-! ## The flat batch -/

/-- The index of a request's last row, `flatEnd - 1`, is a row of the request. -/
def FlatRange.OwnsLastRow (f : FlatRange) : Prop := f.flatStart < f.flatEnd

/-- Real work: at least one token, and a range within the request's tokens. -/
structure RealWork (r : Request) (n : ℕ) : Prop where
  pos : 1 ≤ n
  start : n ≤ r.numComputedTokens
  finish : r.numComputedTokens ≤ r.getLen

instance (r : Request) (n : ℕ) : Decidable (RealWork r n) :=
  decidable_of_iff (1 ≤ n ∧ n ≤ r.numComputedTokens ∧ r.numComputedTokens ≤ r.getLen)
    ⟨fun h => ⟨h.1, h.2.1, h.2.2⟩, fun h => ⟨h.pos, h.start, h.finish⟩⟩

theorem ModelRunner.ownsLastRow_of_realWork {m : ModelRunner} {scheduled : List (Request × ℕ)}
    {ranges : List FlatRange} (h : m.buildFlatBatch scheduled = .ok ranges)
    (hwork : ∀ rn ∈ scheduled, RealWork rn.1 rn.2) : ∀ f ∈ ranges, f.OwnsLastRow := by
  have hall := forall_isRange (flatLoop_of_buildFlatBatch h)
  intro f hf
  obtain ⟨rn, hrn, hrange⟩ := exists_of_mem_forall₂ hall hf
  have hpos := (hwork rn hrn).pos
  have hend := hrange.flatEnd
  rw [FlatRange.OwnsLastRow]
  omega

/-- Without a draft model, and as long as every request has a prompt, whatever a step schedules
is real work, and no request's last row is missing or another's. -/
theorem scheduled_ranges_of_run {e : LLMEngine} (hspec : e.speculativeConfig = none) {s : Scheduler}
    {arrived : List Request} (h : e.Run Request.Prompted (fun _ => True) s arrived)
    {s' : Scheduler} {out : SchedulerOutput} (hs : s.schedule = .ok (s', out)) :
    (∀ rn ∈ s'.resolve out.scheduled, RealWork rn.1 rn.2) ∧
      ∀ ranges, e.runner.buildFlatBatch (s'.resolve out.scheduled) = .ok ranges →
        ∀ f ∈ ranges, f.OwnsLastRow := by
  have hstate := UndraftedState.of_run hspec (fun _ h => h) h
  obtain ⟨plan, victims, as, t⟩ := StepTrace.of_schedule hs
  obtain ⟨o, -⟩ := hstate.inOrder.schedule hs
  have hwork : ∀ rn ∈ s'.resolve out.scheduled, RealWork rn.1 rn.2 := by
    intro rn hrn
    have hplaced := t.placed o hstate.queued hrn
    have hd := hstate.schedule hs rn.1 (t.of_mem_resolve o hrn).1
    exact ⟨hplaced.pos, hplaced.le_computed, hplaced.computed_le hd⟩
  exact ⟨hwork, fun ranges hranges => ModelRunner.ownsLastRow_of_realWork hranges hwork⟩

/-- A prompt of three tokens has computed two of them. The next step computes its last one and
admits another request onto the blocks of the two; a third one was aborted in between. -/
theorem scheduled_ranges_of_run_hit :
    let cacheConfig := { CacheConfig.ofBlocks 1 6 Nat.one_pos with enablePrefixCaching := true }
    let e := { countingEngine with cacheConfig, hashFn := digitHash }
    ∃ s arrived s' out, e.Run Request.Prompted (fun _ => True) s arrived ∧
      s.schedule = .ok (s', out) ∧ out.scheduledRunning = [⟨0, 1⟩] ∧ out.scheduledNew = [⟨1, 1⟩] ∧
      s'.running.map Request.numComputedTokens = [3, 3] ∧
      (∀ rn ∈ s'.resolve out.scheduled, RealWork rn.1 rn.2) ∧
      ∀ ranges, e.runner.buildFlatBatch (s'.resolve out.scheduled) = .ok ranges →
        ∀ f ∈ ranges, f.OwnsLastRow := by
  intro cacheConfig e
  have hhit : (e.performAll (fun _ => True) e.start []
      [.addRequest 0 [7, 7, 7] {}, .step none, .addRequest 2 [9] {},
        .addRequest 1 [7, 7, 7, 8, 8] {}, .abortRequests [2]]).any (fun run =>
      run.1.schedule.toOption.any fun next => decide (next.2.scheduledRunning = [⟨0, 1⟩] ∧
        next.2.scheduledNew = [⟨1, 1⟩] ∧ next.1.running.map Request.numComputedTokens = [3, 3])) =
      true := by decide +kernel
  simp only [Option.any_eq_true, toOption_eq_some, decide_eq_true_eq] at hhit
  obtain ⟨⟨s, arrived⟩, hrun, ⟨s', out⟩, hs, hrunning, hnew, hcomputed⟩ := hhit
  have hrun : e.Run Request.Prompted (fun _ => True) s arrived := .performAll .start
    (by simp [LLMEngine.Allows, LLMEngine.Proposes, Request.Prompted, LLMEngine.newRequest, e,
      countingEngine]) hrun
  exact ⟨s, arrived, s', out, hrun, hs, hrunning, hnew, hcomputed,
    scheduled_ranges_of_run rfl hrun hs⟩

/-- A request without a prompt is admitted at once, for no token. -/
theorem empty_prompt_schedules_nothing : ¬ ∀ (e : LLMEngine) (s : Scheduler)
    (arrived : List Request) (s' : Scheduler) (out : SchedulerOutput), e.speculativeConfig = none →
    e.Run (fun _ => True) (fun _ => True) s arrived → s.schedule = .ok (s', out) →
    ∀ rn ∈ s'.resolve out.scheduled, RealWork rn.1 rn.2 := by
  intro h
  have hrun : countingEngine.Run (fun _ => True) (fun _ => True) _ _ :=
    .addRequest 0 [] {} .start trivial rfl
  have hbad := h countingEngine _ _ _ _ rfl hrun rfl
  revert hbad
  decide +kernel

end LightServe
