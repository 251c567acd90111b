import LightServe.Serving.Integrity
import LightServe.Serving.Speculative

/-!
# Serving over a shared cache

An engine may share the blocks of common prompts, evict and recompute them, cut prompts into chunks,
preempt, and verify drafts: what a request is answered is the greedy decoding of its prompt alone.
The forward pass reads entries that other requests have written, and finds its own.

## Main definitions

* `CachedEngine.Faithful` — the condition on a step.
* `Intact.served` — what a turn of a faithful step owes a request.
* `cached_lossless_of_run` — whoever finishes is answered losslessly.
-/

namespace LightServe

open Scheduler

variable {κ : Type}

/-- Without a draft model no chunk of the step ends inside outputs; with one, nobody is preempted
with a draft. -/
def CachedEngine.Faithful (e : CachedEngine κ) (s : Scheduler) : Prop :=
  match e.speculativeConfig with
  | none => s.Uncut
  | some _ => s.BumpsUndrafted

instance (e : CachedEngine κ) : DecidablePred e.Faithful := fun s =>
  match hspec : e.speculativeConfig with
  | none => decidable_of_iff s.Uncut (by rw [CachedEngine.Faithful, hspec])
  | some _ => decidable_of_iff s.BumpsUndrafted (by rw [CachedEngine.Faithful, hspec])

namespace CachedEngine
variable {e : CachedEngine κ} {s : Scheduler} {kv : KvCache κ} {arrived : List Request}
  {ran : List (Request × ℕ)}

theorem Faithful.keepsDrafts (h : e.Faithful s) : e.KeepsDrafts s := by
  unfold Faithful at h
  cases hspec : e.speculativeConfig with
  | none => exact .inl hspec
  | some c =>
    rw [hspec] at h
    exact .inr h

/-- A faithful run of servable requests is one over which the cache stays intact. -/
theorem Run.keepsDrafts (h : e.Run Request.Servable e.Faithful s kv arrived ran) :
    e.Run Request.Prompted e.KeepsDrafts s kv arrived ran := by
  induction h with
  | start hsize => exact .start hsize
  | addRequest id promptTokenIds params _ ha hs ih =>
      exact .addRequest id promptTokenIds params ih ha.1 hs
  | step drafts _ hd hm h₁ hs ih => exact .step drafts ih hd hm.keepsDrafts h₁ hs
  | abortRequests ids _ hs ih => exact .abortRequests ids ih hs

end CachedEngine

/-! ## One step -/

section Step
variable {e : CachedEngine κ} {prompts : Set (List Token)} {s s' s₁ : Scheduler} {kv : KvCache κ}
  {arrived finished : List Request} {out : SchedulerOutput} {r : Request}
  {drafts : Option (RequestId → List Token)}

/-- What a schedule leaves running was kept before. -/
theorem StepTrace.kept {next : List Token → Token} {plan : List Decision} {victims : List Request}
    {as : List Admission} (t : StepTrace s s₁ out plan victims as)
    (hkept : ∀ r ∈ s.running ++ s.waiting, r.Kept next arrived) (hr : r ∈ s₁.running) :
    r.Kept next arrived := by
  rw [t.running', List.mem_append] at hr
  rcases hr with hr | hr
  · obtain ⟨d, hd, rfl⟩ := List.mem_map.mp hr
    exact Decision.kept_result (hkept _ (List.mem_append_left _
      (t.running ▸ List.mem_append_left _ (List.mem_map_of_mem hd))))
  · obtain ⟨a, ha, rfl⟩ := List.mem_map.mp hr
    exact Admission.kept_result (hkept _ (List.mem_append_right _ (t.mem_waiting ha)))

/-- Whoever is scheduled without a draft is inside its prompt, or is computed in full. -/
theorem Intact.uncut (h : Intact e prompts s kv) (hm : e.Faithful s)
    (hs : s.schedule = .ok (s₁, out)) (hr : r ∈ s₁.running) {n : ℕ}
    (hn : out.tokensOf r.requestId = some n) (hd : r.draftTokenIds = []) (hp : Placed r n) :
    r.isPrefill = true ∨ r.numComputedTokens = r.getLen := by
  unfold CachedEngine.Faithful at hm
  cases hspec : e.speculativeConfig with
  | none =>
    rw [hspec] at hm
    exact hm s₁ out hs r hr (SchedulerOutput.mem_of_tokensOf hn)
  | some c =>
    obtain ⟨plan, victims, as, t⟩ := StepTrace.of_schedule hs
    obtain ⟨o, -⟩ := h.owning.live.inOrder.schedule hs
    obtain ⟨q, hq, hout, hdraft⟩ := (h.owning.stale.planned t o h.owning.live.queued hr).before
    have hK : 0 < e.toLLMEngine.lookahead := by
      rw [LLMEngine.lookahead, show e.toLLMEngine.speculativeConfig = some c from hspec]
      exact c.numSpeculativeTokens_pos
    have hnil : r.outputTokenIds = [] := hout.symm.trans (h.phased.fresh hK q hq (hdraft.trans hd))
    cases hpre : r.isPrefill with
    | true => exact .inl rfl
    | false =>
      rw [Request.isPrefill, decide_eq_false_iff_not, not_lt] at hpre
      refine .inr (le_antisymm (hp.computed_le hd) ?_)
      rw [Request.getLen, hnil, List.length_nil, Nat.add_zero]
      exact hpre

/-- The turns of a faithful step. -/
theorem Intact.served (h : Intact e prompts s kv) (hm : e.Faithful s)
    (hs : s.schedule = .ok (s₁, out))
    (hkept : ∀ r ∈ s.running ++ s.waiting, r.Kept e.runner.model.next arrived)
    (hr : r ∈ s₁.running) : (e.toLLMEngine.turn out r).Served e.runner.model.next arrived := by
  obtain ⟨plan, victims, as, t⟩ := StepTrace.of_schedule hs
  obtain ⟨o, -⟩ := h.owning.live.inOrder.schedule hs
  have hkept' : r.Kept e.toLLMEngine.runner.next arrived := t.kept hkept hr
  have hplanned := h.owning.stale.planned t o h.owning.live.queued hr
  cases hn : out.tokensOf r.requestId with
  | none =>
    have hround : out.roundOf r = none := by
      cases hround : out.roundOf r with
      | none => rfl
      | some n =>
        have hsome := (hplanned.round n hround).1
        rw [hn] at hsome
        cases hsome
    rw [LLMEngine.turn_idle hn hround]
    exact .of_kept hkept'
  | some n =>
    rcases h.phased.rows t o h.owning.live.queued hr hn with ⟨hd, hp⟩ | ⟨hround, hv⟩
    · exact (LLMEngine.served_turn hkept' hd hn (h.uncut hm hs hr hn hd hp)).1
    · exact (LLMEngine.turned_of_round hkept' hv.drafted hv.length hv.le_computed hv.last hv.past hn
        hround).1

/-- A faithful step keeps whom it keeps running, and answers whom it finishes losslessly. -/
theorem Intact.kept_of_step (h : Intact e prompts s kv) (hm : e.Faithful s)
    (hkept : ∀ r ∈ s.running ++ s.waiting, r.Kept e.runner.model.next arrived)
    (hs : e.toLLMEngine.step drafts s = .ok (s', out, finished)) :
    (∀ r ∈ s'.running ++ s'.waiting, r.Kept e.runner.model.next arrived) ∧
      ∀ r ∈ finished, r.origin ∈ arrived ∧ r.Lossless e.runner.model.next := by
  obtain ⟨s₁, plan, victims, as, turned, st⟩ :=
    LLMEngine.stepSpec_of_step h.owning.live.inOrder h.owning.live.queued hs
  have t := st.trace
  have hserved : ∀ r ∈ s₁.running, (turned r).Served e.runner.model.next arrived := fun r hr =>
    (h.served hm st.schedule hkept hr).renoded (st.renoded r)
  obtain ⟨hrunning, hwaiting⟩ := List.forall_mem_append.mp hkept
  obtain ⟨hrunning', hwaiting'⟩ := st.forall_requests hrunning hwaiting
    (fun _ _ hr hb => hr.bumped hb)
    (fun d hd _ hf => ((hserved d.result
      (t.running' ▸ List.mem_append_left _ (List.mem_map_of_mem hd))).2.1 hf).proposed drafts)
    (fun a ha _ hf => ((hserved a.result
      (t.running' ▸ List.mem_append_right _ (List.mem_map_of_mem ha))).2.1 hf).proposed drafts)
  refine ⟨List.forall_mem_append.mpr ⟨hrunning', hwaiting'⟩, fun r hr => ?_⟩
  obtain ⟨q, hq, hfin, hren⟩ := st.finished r hr
  have hlossless := (hserved q hq).renoded hren
  have hfin' : r.isFinished = true := by
    obtain ⟨nodes, rfl⟩ := hren
    exact hfin
  exact ⟨hlossless.1, hlossless.2.2 hfin'⟩

end Step

/-! ## Runs -/

/-- In a faithful run every live request is on its own greedy track. -/
theorem CachedEngine.Run.kept {e : CachedEngine κ} {prompts : Set (List Token)} {s : Scheduler}
    {kv : KvCache κ} {arrived : List Request} {ran : List (Request × ℕ)}
    (hinj : Lodging.Injective e.hashFn e.cacheConfig.blockSize prompts)
    (h : e.Run Request.Servable e.Faithful s kv arrived ran)
    (hp : ∀ r ∈ arrived, r.promptTokenIds ∈ prompts) :
    ∀ r ∈ s.running ++ s.waiting, r.Kept e.runner.model.next arrived := by
  induction h with
  | start => simp [LLMEngine.start, Scheduler.new]
  | addRequest id promptTokenIds params _ ha hs ih =>
    rw [addRequest_eq hs, ← List.append_assoc]
    refine List.forall_mem_append.mpr ⟨fun r hr => ?_, ?_⟩
    · exact (ih (fun r hr => hp r (List.mem_append_left _ hr)) r hr).mono _
    · rw [List.forall_mem_singleton]
      exact .new id ha
  | step drafts hr hd hm h₁ hs ih =>
    obtain ⟨hi, -⟩ := Intact.of_run hinj hr.keepsDrafts hp
    exact (hi.kept_of_step hm (ih hp) (hi.step hinj hd hm.keepsDrafts hs).1).1
  | abortRequests ids _ hs ih =>
    obtain ⟨hrunning, hwaiting⟩ := mem_of_abortRequests hs
    obtain ⟨hkept, hkept'⟩ := List.forall_mem_append.mp (ih hp)
    exact List.forall_mem_append.mpr ⟨fun r hr => hkept r (hrunning r hr),
      fun r hr => hkept' r (hwaiting r hr)⟩

/-- Whatever an engine caches, shares, evicts and drafts, every request that finishes has the output
and the status of its own greedy decoding. -/
theorem cached_lossless_of_run {e : CachedEngine κ} {s s' : Scheduler} {kv kv' : KvCache κ}
    {arrived finished : List Request} {ran : List (Request × ℕ)} {out : SchedulerOutput}
    {drafts : Option (RequestId → List Token)}
    (hinj : Lodging.Injective e.hashFn e.cacheConfig.blockSize
      {prompt | ∃ r ∈ arrived, r.promptTokenIds = prompt})
    (h : e.Run Request.Servable e.Faithful s kv arrived ran) (hm : e.Faithful s)
    (hd : e.toLLMEngine.Proposes drafts)
    (hs : e.step drafts s kv = .ok ((s', out, finished), kv')) :
    ∀ r ∈ finished, r.origin ∈ arrived ∧ r.Lossless e.runner.model.next := by
  have hp : ∀ r ∈ arrived, r.promptTokenIds ∈ {prompt | ∃ r ∈ arrived, r.promptTokenIds = prompt} :=
    fun r hr => ⟨r, hr, rfl⟩
  obtain ⟨hi, -⟩ := Intact.of_run hinj h.keepsDrafts hp
  exact (hi.kept_of_step hm (h.kept hinj hp) (hi.step hinj hd hm.keepsDrafts hs).1).2

/-- A step that preempts nobody preempts nobody with a draft. -/
theorem LLMEngine.bumpsUndrafted_of_step {e : LLMEngine} {s s' : Scheduler} {out : SchedulerOutput}
    {finished : List Request} {drafts : Option (RequestId → List Token)}
    (hs : e.step drafts s = .ok (s', out, finished)) (hnil : out.preempted = []) :
    s.BumpsUndrafted := by
  intro s₁ out' h₁ r _ hpre
  obtain ⟨s₁', _, _, _, h₁', -⟩ := LLMEngine.step_eq_ok_iff.mp hs
  obtain ⟨-, rfl⟩ := Prod.mk.inj (Except.ok.inj (h₁.symm.trans h₁'))
  rw [hnil] at hpre
  cases hpre

/-- A request that finds its first block in the cache, and computes one token only. -/
theorem cached_lossless_of_run_hit : ∃ s kv arrived ran s' out finished kv',
    pairingEngine.cached.Run Request.Servable pairingEngine.cached.Faithful s kv arrived ran ∧
      pairingEngine.cached.step (some fun _ => [0]) s kv = .ok ((s', out, finished), kv') ∧
      out.scheduled.map ScheduledRequest.numScheduledTokens = [1] ∧
      finished.map (fun r => (r.promptTokenIds, r.outputTokenIds)) = [([5, 6], [2])] ∧
      ∀ r ∈ finished, r.origin ∈ arrived ∧ r.Lossless pairingEngine.cached.runner.model.next := by
  have hsteps : (pairingEngine.start.addRequest
      (LLMEngine.newRequest 0 [5] { maxTokens := 1 })).toOption.any (fun s₀ =>
      (pairingEngine.step (some fun _ => [0]) s₀).toOption.any fun first =>
        (first.1.addRequest
          (LLMEngine.newRequest 1 [5, 6] { maxTokens := 1 })).toOption.any fun s =>
          (pairingEngine.step (some fun _ => [0]) s).toOption.any fun last =>
            decide (first.2.1.preempted = [] ∧ last.2.1.preempted = [] ∧
              last.2.1.scheduled.map ScheduledRequest.numScheduledTokens = [1] ∧
              last.2.2.map (fun r => (r.promptTokenIds, r.outputTokenIds)) = [([5, 6], [2])])) =
        true := by
    decide +kernel
  simp only [Option.any_eq_true, toOption_eq_some, decide_eq_true_eq] at hsteps
  obtain ⟨s₀, hadd, ⟨s₁, out₁, gone⟩, hstep, s, hadd', ⟨s', out, finished⟩, hstep', hnil, hnil',
    hrows, houtputs⟩ := hsteps
  have hinj : ∀ prompts, Lodging.Injective pairingEngine.cached.hashFn
      pairingEngine.cached.cacheConfig.blockSize prompts := fun _ =>
    Set.injOn_of_injective (Encodable.encode_injective (α := Option BlockHash × List Token))
  have hsize : (⟨1, fun _ => []⟩ : KvCache (List Token)).blockSize = 1 := rfl
  have hproposes : pairingEngine.cached.toLLMEngine.Proposes (some fun _ => [0]) := fun _ => rfl
  have hintact : ∀ {s kv arrived ran}, pairingEngine.cached.Run Request.Servable
      pairingEngine.cached.Faithful s kv arrived ran → Intact pairingEngine.cached Set.univ s kv :=
    fun h => (Intact.of_run (hinj _) h.keepsDrafts fun _ _ => Set.mem_univ _).1
  rw [← pairingEngine.toLLMEngine_cached] at hstep hstep'
  have hstart : pairingEngine.cached.Run Request.Servable pairingEngine.cached.Faithful
      pairingEngine.cached.toLLMEngine.start ⟨1, fun _ => []⟩ [] [] := .start hsize
  have hrun₀ := CachedEngine.Run.addRequest 0 [5] { maxTokens := 1 } hstart (by decide) hadd
  obtain ⟨kv₁, hcached⟩ := (hintact hrun₀).step_returns hstep
  obtain ⟨_, _, _, _, hs, -⟩ := LLMEngine.step_eq_ok_iff.mp hstep
  have hrun := CachedEngine.Run.addRequest 1 [5, 6] { maxTokens := 1 } (.step _ hrun₀ hproposes
    (LLMEngine.bumpsUndrafted_of_step hstep hnil) hs hcached) (by decide) hadd'
  obtain ⟨kv', hcached'⟩ := (hintact hrun).step_returns hstep'
  exact ⟨s, kv₁, _, _, s', out, finished, kv', hrun, hcached', hrows, houtputs,
    cached_lossless_of_run (hinj _) hrun (LLMEngine.bumpsUndrafted_of_step hstep' hnil')
      hproposes hcached'⟩

end LightServe
