import LightServe.Serving.Ranges
import Mathlib.Algebra.Order.BigOperators.Group.List

/-!
# The generation loop ends

Without a prefix cache and without a draft model, and with every request small enough for the
pool, the request that has been there longest gets tokens in every step: the others make room
for it, and it never makes room itself. Preemption throws the progress of the others away, but
the eldest only gains, so that the tokens still to come fall with every step.

## Main definitions

* `Request.Fits` — the longest sequence of a request fits beside the watermark.
* `FittingState` — the state of an engine that serves such requests.
* `StepFor` — what a step does for the eldest request.
* `generateLoop_ends_of_run` — the result.
-/

namespace LightServe

open Relation (ReflTransGen)
open Scheduler

/-- A servable request whose longest sequence fits into the pool beside the watermark. -/
def Request.Fits (c : CacheConfig) (r : Request) : Prop :=
  r.Servable ∧ (r.promptTokenIds.length + r.samplingParams.maxTokens.toNat + c.blockSize - 1) /
    c.blockSize ≤ c.numGpuBlocks - c.watermarkBlocks

instance (c : CacheConfig) (r : Request) : Decidable (r.Fits c) :=
  inferInstanceAs (Decidable (_ ∧ _))

/-- A request of an engine that decodes without a draft, and may still grow. -/
structure Request.Growing (c : CacheConfig) (r : Request) : Prop where
  fits : r.Fits c
  goes_on : (r.outputTokenIds.length : ℤ) < r.samplingParams.maxTokens
  unfinished : r.isFinished = false
  undrafted : r.draftTokenIds = []

/-- The most tokens that a request will ever have. -/
def Request.maxLen (r : Request) : ℕ := r.promptTokenIds.length + r.samplingParams.maxTokens.toNat

namespace Request.Growing
variable {c : CacheConfig} {r r' : Request}

theorem congr (h : r.Growing c) (hprompt : r'.promptTokenIds = r.promptTokenIds)
    (hparams : r'.samplingParams = r.samplingParams)
    (hout : (r'.outputTokenIds.length : ℤ) < r.samplingParams.maxTokens)
    (hfin : r'.isFinished = false) (hd : r'.draftTokenIds = []) : r'.Growing c := by
  refine ⟨?_, by rwa [hparams], hfin, hd⟩
  unfold Fits Servable
  rw [hprompt, hparams]
  exact h.fits

theorem getLen_lt (h : r.Growing c) : r.getLen < r.maxLen := by
  have := h.goes_on
  unfold Request.getLen Request.maxLen
  omega

/-- At no length does a request need more blocks than its admission may take. -/
theorem numBlocksNeeded_le (h : r.Growing c) :
    r.numBlocksNeeded c.blockSize ≤ c.numGpuBlocks - c.watermarkBlocks := by
  have hfits := h.fits.2
  have hlen := h.getLen_lt
  unfold Request.maxLen at hlen
  rw [Nat.div_le_iff_le_mul_add_pred c.blockSize_pos] at hfits
  rw [r.numBlocksNeeded_le_iff c.blockSize_pos, Nat.mul_comm]
  have hpos := c.blockSize_pos
  omega

theorem new (id : RequestId) {promptTokenIds : List Token} {params : SamplingParams}
    (h : (LLMEngine.newRequest id promptTokenIds params).Fits c) :
    (LLMEngine.newRequest id promptTokenIds params).Growing c :=
  ⟨h, h.1.2, rfl, rfl⟩

theorem bumped (h : r.Growing c) (hb : Bumped r r') : r'.Growing c := by
  obtain ⟨nodes, rfl⟩ := hb
  exact h.congr rfl rfl h.goes_on rfl h.undrafted

end Request.Growing

/-! ## A turn -/

namespace LLMEngine
variable {e : LLMEngine} {out : SchedulerOutput} {c : CacheConfig} {r : Request} {n : ℕ}

/-- A scheduled request that goes on has a token left to compute. -/
theorem growing_turn (h : r.Growing c) (hle : r.numComputedTokens ≤ r.getLen)
    (hn : out.tokensOf r.requestId = some n) (hf : (e.turn out r).isFinished = false) :
    (e.turn out r).Growing c ∧ (e.turn out r).numComputedTokens < (e.turn out r).getLen := by
  have hround : out.roundOf r = none := SchedulerOutput.roundOf_of_undrafted h.undrafted
  cases hpre : r.isPrefill with
  | true =>
    rw [turn_prefill hn hround hpre]
    have hlt : r.numComputedTokens < r.promptTokenIds.length := by
      simpa [Request.isPrefill] using hpre
    exact ⟨h, hlt.trans_le (Nat.le_add_right _ _)⟩
  | false =>
    rw [turn_sample hn hround hpre h.undrafted h.unfinished] at hf ⊢
    set t := e.runner.next (r.allTokenIds.take r.numComputedTokens)
    have hstop : Request.stopStatus r.samplingParams (r.outputTokenIds ++ [t]) = none := by
      by_contra hne
      obtain ⟨status, hstatus⟩ := Option.ne_none_iff_exists'.mp hne
      rw [Request.isFinished, Request.grown, hstatus, Option.getD_some,
        finished_of_stopStatus hstatus] at hf
      cases hf
    refine ⟨h.congr rfl rfl (length_le_of_stopStatus hstop) hf h.undrafted, ?_⟩
    simp only [Request.getLen, Request.grown, List.length_append, List.length_singleton] at hle ⊢
    omega

/-- A turn leaves the progress where the schedule put it. -/
theorem turn_numComputedTokens (e : LLMEngine) (hd : r.draftTokenIds = []) :
    (e.turn out r).numComputedTokens = r.numComputedTokens := by
  rw [turn, SchedulerOutput.roundOf_of_undrafted hd, Option.elim_none, ModelRunner.serve]
  cases out.tokensOf r.requestId with
  | none => rfl
  | some n =>
    rw [Option.elim_some]
    unfold ModelRunner.commit Request.maybeFinish
    split
    · rfl
    · split
      · rfl
      · split <;> rfl

end LLMEngine

/-! ## The state -/

/-- The state of an engine that serves requests that fit, without a cache and without a draft. -/
structure FittingState (e : LLMEngine) (s : Scheduler) : Prop where
  cacheless : Cacheless s
  pool : SamePool e.start.blockManager s.blockManager
  running : ∀ r ∈ s.running, r.Growing e.cacheConfig ∧ r.numComputedTokens < r.getLen
  waiting : ∀ r ∈ s.waiting, r.Growing e.cacheConfig ∧ r.numComputedTokens = 0

namespace FittingState
variable {e : LLMEngine} {s s' s₁ : Scheduler} {out : SchedulerOutput} {plan : List Decision}
  {victims : List Request} {as : List Admission} {finished arrived : List Request} {r : Request}

theorem queued (h : FittingState e s) : s.Queued := fun r hr =>
  ⟨(h.waiting r hr).1.fits.1.1, (h.waiting r hr).2⟩

/-- Who runs after the schedule is within its tokens, and has one left to compute if it was
given none. -/
theorem scheduled (h : FittingState e s) (t : StepTrace s s₁ out plan victims as) (o : InOrder s₁)
    (hr : r ∈ s₁.running) : r.Growing e.cacheConfig ∧ r.numComputedTokens ≤ r.getLen ∧
      (out.tokensOf r.requestId = none → r.numComputedTokens < r.getLen) := by
  rw [t.running', List.mem_append] at hr
  rcases hr with hr | hr
  · obtain ⟨d, hd, rfl⟩ := List.mem_map.mp hr
    obtain ⟨hgrowing, hlt⟩ := h.running d.request
      (t.running ▸ List.mem_append_left _ (List.mem_map_of_mem hd))
    obtain ⟨budget, hsound⟩ := t.plan_sound' hd
    rw [Decision.result_requestId, t.tokensOf_plan o hd]
    rcases hsound.cases with ⟨-, hres, -⟩ | ⟨n, -, -, hg, hres, -, hlen⟩
    · rw [hres]
      exact ⟨hgrowing, hlt.le, fun _ => hlt⟩
    · rw [hres, hg]
      exact ⟨hgrowing.congr rfl rfl hgrowing.goes_on hgrowing.unfinished hgrowing.undrafted,
        (hlen hgrowing.undrafted).1, fun hnone => nomatch hnone⟩
  · obtain ⟨a, ha, rfl⟩ := List.mem_map.mp hr
    obtain ⟨hgrowing, hnc⟩ := h.waiting a.request (t.mem_waiting ha)
    obtain ⟨budget, hsound⟩ := t.admissions_sound' ha
    obtain ⟨k, n, -, -, -, -, hres, hlen, -⟩ := hsound.cases hgrowing.fits.1.1 hnc
    rw [Admission.result_requestId, t.tokensOf_admission o ha, hres]
    exact ⟨hgrowing.congr rfl rfl hgrowing.goes_on rfl hgrowing.undrafted, hlen,
      fun hnone => nomatch hnone⟩

/-- Every step returns: no row of the batch is missing. -/
theorem returns (h : FittingState e s) (hall : e.runner.Unbounded) :
    ∃ s' out finished, e.step none s = .ok (s', out, finished) := by
  obtain ⟨s₁, out, hs⟩ := h.cacheless.schedule_returns
  obtain ⟨plan, victims, as, t⟩ := StepTrace.of_schedule hs
  obtain ⟨o, -⟩ := h.cacheless.toInOrder.schedule hs
  obtain ⟨s₂, h₂⟩ : ∃ s₂, e.runner.executeModel s₁ out = .ok s₂ := by
    refine e.runner.executeModel_returns (fun rn hrn => t.placed o h.queued hrn)
      (fun rn hrn hd => ?_) fun rn _ => hall.covers rn.1
    obtain ⟨hmem, -⟩ := t.of_mem_resolve o hrn
    exact absurd (h.scheduled t o hmem).1.undrafted hd
  obtain ⟨s', finished, hstep⟩ := h.cacheless.step_returns h.queued hs h₂
  exact ⟨s', out, finished, hstep⟩

theorem step (h : FittingState e s) (hs : e.step none s = .ok (s', out, finished)) :
    FittingState e s' := by
  obtain ⟨s₁, plan, victims, as, turned, st⟩ :=
    LLMEngine.stepSpec_of_step h.cacheless.toInOrder h.queued hs
  have t := st.trace
  obtain rfl := st.turned_eq (h.cacheless.schedule st.schedule).1.cacheless
  obtain ⟨hcacheless, hpool⟩ := h.cacheless.step h.queued hs
  have hturned : ∀ q ∈ s₁.running, (e.turn out q).isFinished = false →
      (e.turn out q).Growing e.cacheConfig ∧
        (e.turn out q).numComputedTokens < (e.turn out q).getLen := by
    intro q hq hf
    obtain ⟨hgrowing, hle, hidle⟩ := h.scheduled t st.inOrder hq
    cases hn : out.tokensOf q.requestId with
    | none =>
      rw [LLMEngine.turn_idle hn (SchedulerOutput.roundOf_of_undrafted hgrowing.undrafted)]
      exact ⟨hgrowing, hidle hn⟩
    | some n => exact LLMEngine.growing_turn hgrowing hle hn hf
  obtain ⟨hrunning, hwaiting⟩ := st.forall_requests h.running h.waiting
    (fun r r' hr hb => ⟨hr.1.bumped hb, by obtain ⟨_, rfl⟩ := hb; rfl⟩)
    (fun d hd _ hf => hturned _ (t.running' ▸ List.mem_append_left _ (List.mem_map_of_mem hd)) hf)
    (fun a ha _ hf => hturned _ (t.running' ▸ List.mem_append_right _ (List.mem_map_of_mem ha)) hf)
  exact ⟨hcacheless, h.pool.trans hpool, hrunning, hwaiting⟩

theorem of_run (hcache : e.cacheConfig.enablePrefixCaching = false)
    (hspec : e.speculativeConfig = none)
    (h : e.Run (Request.Fits e.cacheConfig) (fun _ => True) s arrived) : FittingState e s := by
  induction h with
  | start =>
    exact ⟨.new hcache _ _, .refl _, by simp [LLMEngine.start, Scheduler.new],
      by simp [LLMEngine.start, Scheduler.new]⟩
  | addRequest id promptTokenIds params _ ha hs ih =>
    refine ⟨ih.cacheless.addRequest rfl hs, ?_, ?_, ?_⟩ <;> rw [Scheduler.addRequest_eq hs]
    · exact ih.pool
    · exact ih.running
    · intro r hr
      rcases List.mem_append.mp hr with hr | hr
      · exact ih.waiting r hr
      · rw [List.mem_singleton.mp hr]
        exact ⟨.new id ha, rfl⟩
  | step drafts _ hd _ hs ih =>
    obtain rfl := LLMEngine.proposes_none hspec hd
    exact ih.step hs
  | abortRequests ids _ hs ih =>
    obtain ⟨hrunning, hwaiting⟩ := Scheduler.mem_of_abortRequests hs
    obtain ⟨hcacheless, hpool, -⟩ := ih.cacheless.abortRequests hs
    exact ⟨hcacheless, ih.pool.trans hpool, fun r hr => ih.running r (hrunning r hr),
      fun r hr => ih.waiting r (hwaiting r hr)⟩

/-! ## The eldest request -/

section Eldest
variable {rest pending : List Request} {p : RunningPass} {bm : BlockManager}

/-- With nobody else to serve the pool has a block for the next token of a request that fits. -/
theorem canAppendSlot_alone (hpool : SamePool e.start.blockManager bm) (hc : bm.prefixCache = none)
    (hp : Partition bm [(r.requestId, [])]) (hr : r.Growing e.cacheConfig) :
    bm.canAppendSlot r = true := by
  unfold BlockManager.canAppendSlot
  split
  · rename_i hneeds
    have htotal := @Partition.total bm [r.requestId] hp hc
    have hblocks := hr.numBlocksNeeded_le
    rw [r.numBlocksNeeded_le_iff e.cacheConfig.blockSize_pos] at hblocks
    have hfull : (bm.tableOf r.requestId).length * e.cacheConfig.blockSize < r.getLen := by
      have hsize : bm.blockSize = e.cacheConfig.blockSize := hpool.blockSize
      rw [← hsize]
      exact of_decide_eq_true hneeds
    have hsize : bm.numGpuBlocks = e.cacheConfig.numGpuBlocks := hpool.numGpuBlocks
    have hlt : (bm.tableOf r.requestId).length <
        e.cacheConfig.numGpuBlocks - e.cacheConfig.watermarkBlocks :=
      Nat.lt_of_mul_lt_mul_right (hfull.trans_le hblocks)
    rw [List.map_singleton, List.sum_singleton] at htotal
    exact decide_eq_true (show 1 ≤ bm.freeBlockIds.length by omega)
  · rfl

/-- Until the running pass has decided something, the eldest request is the next to decide: it
is nobody's victim, and with everyone else gone it has room. -/
theorem eldest_pending (h : FittingState e s) (hr : s.running = r :: rest)
    (hsteps : ReflTransGen RunningStep (s.running, s.runningPass) (pending, p))
    (hnone : p.scheduled = []) : pending.head? = some r := by
  suffices hinv : ReflTransGen RunningStep (s.running, s.runningPass) (pending, p) ∧
      (p.scheduled = [] → pending.head? = some r) from hinv.2 hnone
  clear hnone
  refine inv_of_runningSteps (fun pending p =>
    ReflTransGen RunningStep (s.running, s.runningPass) (pending, p) ∧
      (p.scheduled = [] → pending.head? = some r)) ?_ hsteps ⟨.refl, fun _ => by rw [hr]; rfl⟩
  rintro pending pending' p p' ⟨hsteps, hfirst⟩ hs
  refine ⟨hsteps.tail hs, fun hnone => ?_⟩
  cases hs with
  | skip => simp at hnone
  | bump _ _ hp =>
    obtain ⟨_, -, -, hscheduled, -⟩ := RunningTrace.bumped_of_preempt hp
    exact hfirst (hscheduled ▸ hnone)
  | @yield r' _ _ _ hfit hp =>
    obtain ⟨_, -, -, hscheduled, -⟩ := RunningTrace.bumped_of_preempt hp
    rw [hscheduled] at hnone
    obtain rfl : r' = r := by simpa using hfirst hnone
    have hmem : r' ∈ s.running := hr ▸ List.mem_cons_self
    obtain ⟨hgrowing, -⟩ := h.running r' hmem
    have hmoves := runningSteps_moves hsteps
    rw [hnone, List.nil_append] at hmoves
    have hpool := SamePool.of_moves hmoves h.cacheless.accounts
    have hpart := h.cacheless.partition.moves hmoves
    have hstake : stakes [r'] = [(r'.requestId, [])] := by
      simp [stakes, Request.stake, h.cacheless.nodes_eq_nil hmem]
    have hcache : p.blockManager.prefixCache = none := by
      have hcaching := hpool.caching
      rw [show s.runningPass.blockManager.prefixCache = none from h.cacheless.cacheless] at hcaching
      simpa using hcaching
    have hroom := canAppendSlot_alone (h.pool.trans hpool) hcache (hstake ▸ hpart) hgrowing
    unfold fits at hfit
    rw [isSpec, hgrowing.undrafted] at hfit
    exact absurd (hroom.symm.trans hfit) (by simp)
  | grant _ _ hp =>
    obtain ⟨bm, -, hret⟩ := bind_eq_ok.mp hp
    cases hret
    simp at hnone

/-- The running pass gives the eldest request tokens. -/
theorem eldest_granted (h : FittingState e s) (hs : s.schedule = .ok (s₁, out))
    (t : StepTrace s s₁ out plan victims as) (hr : s.running = r :: rest) :
    ∃ (n : ℕ) (plan' : List Decision), 0 < n ∧ plan = ⟨r, some n⟩ :: plan' := by
  obtain ⟨d, plan', rfl⟩ : ∃ d plan', plan = d :: plan' := by
    refine List.exists_cons_of_ne_nil fun hnil => ?_
    subst hnil
    have hvictims : victims = r :: rest := t.running.symm.trans hr
    obtain ⟨p, hp, hcases⟩ := schedule_cases hs
    have hscheduled : p.scheduled ≠ [] := fun hnone => nomatch h.eldest_pending hr hp hnone
    have hpre : out.preempted ≠ [] := by simp [t.preempted, hvictims]
    rcases hcases with ⟨-, -, rfl⟩ | ⟨hpre', _, _, -, -, rfl, -⟩
    · have hrunning := t.running'
      rw [t.admits (by simp [hvictims])] at hrunning
      exact hscheduled hrunning
    · exact hpre hpre'
  have hd : d.request = r := (List.cons.inj (t.running.symm.trans hr)).1
  obtain ⟨hgrowing, hlt⟩ := h.running r (hr ▸ List.mem_cons_self)
  have hbudget := s.schedulerConfig.maxNumBatchedTokens_pos
  have hsound := t.plan_sound [] d plan' rfl
  rw [Decision.left_nil] at hsound
  rcases hsound.cases with ⟨-, -, hno⟩ | ⟨n, hpos, -, hg, -⟩
  · simp only [numNew, isSpec, hd, hgrowing.undrafted, ne_eq, not_true_eq_false, decide_false,
      Bool.false_eq_true, if_false, Request.getNumNewTokens] at hno
    omega
  · refine ⟨n, plan', hpos, ?_⟩
    rw [← hd, ← hg]

/-- With nobody running, the waiting pass admits the eldest request. -/
theorem eldest_admitted (h : FittingState e s) (hs : s.schedule = .ok (s₁, out))
    (t : StepTrace s s₁ out plan victims as) (hidle : s.running = []) (hw : s.waiting = r :: rest) :
    plan = [] ∧ ∃ (n : ℕ) (a : Admission) (as' : List Admission), 0 < n ∧ as = a :: as' ∧
      a.request = r ∧ a.chunk = n ∧ a.result.numComputedTokens = n := by
  obtain ⟨hplan, hvictims⟩ := List.append_eq_nil_iff.mp (t.running.symm.trans hidle)
  obtain rfl := List.map_eq_nil_iff.mp hplan
  subst hvictims
  obtain ⟨hgrowing, hnc⟩ := h.waiting r (hw ▸ List.mem_cons_self)
  have hp : s.scheduleRunning = .ok s.runningPass := by
    rw [scheduleRunning, hidle]
    rfl
  have hmatch : s.runningPass.blockManager.matchPrefix r.promptTokenIds = none := by
    rw [BlockManager.matchPrefix, show s.runningPass.blockManager.prefixCache = none from
      h.cacheless.cacheless, Option.map_none]
  have hadm : admissible s.schedulerConfig (waitingPass s.schedulerConfig s.runningPass) r
      (s.runningPass.blockManager.matchPrefix r.promptTokenIds) = true := by
    have hseqs := s.schedulerConfig.maxNumSeqs_pos
    have htokens := s.schedulerConfig.maxNumBatchedTokens_pos
    have hpart := h.cacheless.partition
    rw [hidle] at hpart
    have htotal := @Partition.total s.blockManager [] hpart h.cacheless.cacheless
    have hblocks := hgrowing.numBlocksNeeded_le
    have hpool := h.pool
    rw [hmatch]
    simp only [admissible, decide_eq_true_eq, waitingPass, runningPass, List.length_nil, not_le,
      BlockManager.canAllocate, BlockManager.neededFresh, BlockManager.matchedBlockIds,
      BlockManager.numEvictable, h.cacheless.cacheless, matchedTokens, Option.map_none,
      Option.getD_none, hpool.blockSize, hpool.watermarkBlocks, BlockManager.numFreeBlocks]
    have hsize := hpool.numGpuBlocks
    simp only [LLMEngine.start, Scheduler.new, BlockManager.new] at hsize ⊢
    have hwatermark := e.cacheConfig.watermark_le
    rw [List.map_nil, List.sum_nil] at htotal
    refine ⟨hseqs, by omega, by omega, by omega⟩
  have hroom := h.cacheless.toConsistent.schedule_returns_iff.mp ⟨_, hs⟩
  obtain ⟨s', out', hs', hmem⟩ := (h.cacheless.toConsistent.admits_iff hw hp rfl).mpr ⟨hadm, hroom⟩
  cases hs.symm.trans hs'
  obtain ⟨a, as', rfl⟩ : ∃ a as', as = a :: as' := by
    refine List.exists_cons_of_ne_nil fun hnil => ?_
    rw [t.scheduledNew, hnil] at hmem
    cases hmem
  obtain ⟨bumped, hall, hwaiting⟩ := t.waiting
  cases hall
  have ha : a.request = r := (List.cons.inj (hwaiting.symm.trans hw)).1
  obtain ⟨budget, hsound⟩ := t.admissions_sound' List.mem_cons_self
  obtain ⟨k, n, hpos, -, hn, -, hres, -, -, hk, -⟩ :=
    hsound.cases (ha ▸ hgrowing.fits.1.1) (ha ▸ hnc)
  have hfound : a.found = none := by
    have := t.found a List.mem_cons_self
    rw [(h.cacheless.schedule hs).1.cacheless] at this
    simpa using this
  refine ⟨rfl, n, a, as', hpos, rfl, ha, hn, ?_⟩
  rw [hres, hk hfound, Nat.zero_add]

/-- After a schedule the eldest request is the first to run, with new tokens. -/
theorem eldest_scheduled (h : FittingState e s) (hs : s.schedule = .ok (s₁, out))
    (t : StepTrace s s₁ out plan victims as) (hlive : s.running ++ s.waiting = r :: rest) :
    ∃ (q : Request) (running' : List Request) (n : ℕ), s₁.running = q :: running' ∧ 0 < n ∧
      q.requestId = r.requestId ∧ q.numComputedTokens = r.numComputedTokens + n ∧
      (⟨r.requestId, n⟩ : ScheduledRequest) ∈ out.scheduled ∧
      (s.running = [] → out.scheduledNew.head? = some ⟨r.requestId, n⟩) := by
  have hrunning := t.running'
  cases hr : s.running with
  | nil =>
    rw [hr, List.nil_append] at hlive
    obtain ⟨rfl, n, a, as', hpos, rfl, rfl, hn, hnc⟩ := h.eldest_admitted hs t hr hlive
    have hnew : out.scheduledNew = ⟨a.request.requestId, n⟩ :: as'.map Admission.slice := by
      rw [t.scheduledNew, List.map_cons, Admission.slice, hn, Int.toNat_natCast]
    refine ⟨_, _, n, hrunning, hpos, rfl, ?_, ?_, fun _ => by rw [hnew]; rfl⟩
    · rw [hnc, (h.waiting _ (hlive ▸ List.mem_cons_self)).2, Nat.zero_add]
    · rw [SchedulerOutput.scheduled, hnew]
      exact List.mem_append_left _ List.mem_cons_self
  | cons r' running =>
    rw [hr] at hlive
    obtain rfl : r' = r := (List.cons.inj hlive).1
    obtain ⟨n, plan', hpos, rfl⟩ := h.eldest_granted hs t hr
    refine ⟨_, _, n, hrunning, hpos, Decision.result_requestId _, ?_, ?_,
      fun hnil => absurd hnil (List.cons_ne_nil _ _)⟩
    · show ((r'.numComputedTokens : ℤ) + n).toNat = _
      omega
    · rw [SchedulerOutput.scheduled, t.scheduledRunning]
      exact List.mem_append_right _ (List.mem_filterMap.mpr
        ⟨⟨r', some n⟩, List.mem_cons_self, by rw [Decision.slice]; rfl⟩)

end Eldest

end FittingState

/-! ## The work left -/

/-- What a step from `s` to `s'` does for the request `id`. -/
structure StepFor (s s' : Scheduler) (out : SchedulerOutput) (finished : List Request)
    (id : RequestId) : Prop where
  served : ∃ n, 0 < n ∧ (⟨id, n⟩ : ScheduledRequest) ∈ out.scheduled
  admitted_first : id ∈ s.waiting.map Request.requestId →
    out.scheduledNew.head?.map ScheduledRequest.request = some id
  kept : id ∉ out.preempted
  advanced : ∀ r ∈ s.running ++ s.waiting, r.requestId = id →
    ∃ r' ∈ s'.running ++ finished, r'.requestId = id ∧ r.numComputedTokens < r'.numComputedTokens

/-- The most tokens that the live requests will ever have. -/
def Scheduler.maxLen (s : Scheduler) : ℕ := ((s.running ++ s.waiting).map Request.maxLen).sum

/-- These tokens, less those that the eldest request has computed. -/
def Scheduler.workLeft (s : Scheduler) : ℕ :=
  s.maxLen - ((s.running ++ s.waiting).head?.map Request.numComputedTokens).getD 0

namespace FittingState
variable {e : LLMEngine} {s s' : Scheduler} {out : SchedulerOutput} {finished rest : List Request}
  {r : Request}

theorem numComputedTokens_lt (h : FittingState e s) (hr : r ∈ s.running ++ s.waiting) :
    r.numComputedTokens < r.maxLen := by
  rcases List.mem_append.mp hr with hr | hr
  · exact (h.running r hr).2.trans (h.running r hr).1.getLen_lt
  · rw [(h.waiting r hr).2]
    exact (Nat.zero_le _).trans_lt (h.waiting r hr).1.getLen_lt

/-- Who ran goes on or has finished, with the progress that the schedule gave. -/
theorem swept (h : FittingState e s) (hs : e.step none s = .ok (s', out, finished)) {s₁ : Scheduler}
    (h₁ : s.schedule = .ok (s₁, out)) {q : Request} (hq : q ∈ s₁.running) :
    ∃ r' ∈ s'.running ++ finished, r'.requestId = q.requestId ∧
      r'.numComputedTokens = q.numComputedTokens := by
  have o := h.cacheless.toInOrder
  obtain ⟨_, s₃, s₅, turned, st⟩ := LLMEngine.stages_of_step o h.queued hs
  cases h₁.symm.trans st.schedule
  obtain ⟨plan, victims, as, t⟩ := StepTrace.of_schedule h₁
  obtain rfl := st.turned_eq (h.cacheless.schedule h₁).1.cacheless
  have hd := (h.scheduled t st.inOrder hq).1.undrafted
  have hid := (e.sameRequest_turn out q).requestId
  have hnc : (e.turn out q).numComputedTokens = q.numComputedTokens :=
    e.turn_numComputedTokens hd
  rcases mem_of_sweep st.sweep (List.mem_map_of_mem hq) with ⟨-, r', hr', nodes, rfl⟩ | ⟨-, hmem⟩
  · exact ⟨_, List.mem_append_right _ hr', hid, hnc⟩
  · exact ⟨_, List.mem_append_left _ (st.propose ▸ hmem), hid, hnc⟩

/-- A step serves the eldest request. -/
theorem stepFor_eldest (h : FittingState e s) (hs : e.step none s = .ok (s', out, finished))
    (hlive : s.running ++ s.waiting = r :: rest) : StepFor s s' out finished r.requestId := by
  have o := h.cacheless.toInOrder
  obtain ⟨s₁, -, -, -, h₁, -⟩ := LLMEngine.step_eq_ok_iff.mp hs
  obtain ⟨plan, victims, as, t⟩ := StepTrace.of_schedule h₁
  obtain ⟨q, running', n, hrunning, hpos, hid, hnc, hserved, hfirst⟩ :=
    h.eldest_scheduled h₁ t hlive
  refine ⟨⟨n, hpos, hserved⟩, fun hw => ?_, (o.fifoStep h₁).served_not_preempted _ hserved,
    fun r' hr' hid' => ?_⟩
  · cases hr : s.running with
    | nil => rw [hfirst hr]; rfl
    | cons r' running =>
      obtain ⟨w, hmem, hwid⟩ := List.mem_map.mp hw
      rw [hr] at hlive
      have hfirst : r ∈ s.running := by rw [hr, (List.cons.inj hlive).1]; exact List.mem_cons_self
      exact absurd hwid.symm (o.disjoint hfirst hmem)
  · have hnodup : ((s.running ++ s.waiting).map Request.requestId).Nodup := o.ids ▸ o.nodup
    obtain rfl : r' = r :=
      List.inj_on_of_nodup_map hnodup hr' (hlive ▸ List.mem_cons_self) hid'
    obtain ⟨r₁, hr₁, hid₁, hnc₁⟩ := h.swept hs h₁ (hrunning ▸ List.mem_cons_self)
    exact ⟨r₁, hr₁, hid₁.trans hid, by omega⟩

/-- A step leaves less work: the eldest request has gained tokens, or is gone. -/
theorem workLeft_lt (h : FittingState e s) (hs : e.step none s = .ok (s', out, finished))
    (hlive : s.running ++ s.waiting = r :: rest) : s'.workLeft < s.workLeft := by
  have o := h.cacheless.toInOrder
  obtain ⟨s₁, plan, victims, as, turned, st⟩ := LLMEngine.stepSpec_of_step o h.queued hs
  have t := st.trace
  obtain rfl := st.turned_eq (h.cacheless.schedule st.schedule).1.cacheless
  obtain ⟨q, running', n, hrunning, hpos, hid, hnc, hserved, hfirst⟩ :=
    h.eldest_scheduled st.schedule t hlive
  have hturn : ∀ r, (e.turn out r).maxLen = r.maxLen := fun r => by
    have hsame := e.sameRequest_turn out r
    rw [Request.maxLen, Request.maxLen, hsame.promptTokenIds, hsame.samplingParams]
  have hmaxLen : ((s₁.running ++ s₁.waiting).map Request.maxLen) =
      (s.running ++ s.waiting).map Request.maxLen :=
    t.map_queues (fun {_ _} hb => by obtain ⟨_, rfl⟩ := hb; rfl)
      (fun d => by unfold Decision.result; split <;> rfl) fun _ => rfl
  have hsum := congrArg List.sum hmaxLen
  rw [hrunning, List.cons_append, List.map_cons, List.sum_cons] at hsum
  have hrunning' : s'.running =
      ((q :: running').map (e.turn out)).filter fun r => ¬ r.isFinished := by
    rw [st.running, hrunning, show Request.proposed none = id from rfl, List.map_id]
  have hrest : (((running'.map (e.turn out)).filter fun r => ¬ r.isFinished).map Request.maxLen ++
      s₁.waiting.map Request.maxLen).sum ≤ ((running' ++ s₁.waiting).map Request.maxLen).sum := by
    have hsub := (List.filter_sublist (l := running'.map (e.turn out))
      (p := fun r => ¬ r.isFinished)).map Request.maxLen
    rw [List.map_map, show Request.maxLen ∘ e.turn out = Request.maxLen from funext hturn] at hsub
    rw [List.map_append]
    exact (hsub.append_right _).sum_le_sum fun _ _ => Nat.zero_le _
  have hlt := h.numComputedTokens_lt (hlive ▸ List.mem_cons_self)
  have hqmax : q.maxLen = r.maxLen := by
    rw [hlive, hrunning, List.cons_append, List.map_cons, List.map_cons] at hmaxLen
    exact (List.cons.inj hmaxLen).1
  have hnow : s.workLeft = s.maxLen - r.numComputedTokens := by
    rw [workLeft, hlive]
    rfl
  rw [hnow, Scheduler.maxLen, ← hsum]
  unfold workLeft Scheduler.maxLen
  rw [hrunning', st.waiting, List.map_cons]
  cases hfin : (e.turn out q).isFinished with
  | true =>
    rw [List.filter_cons_of_neg (by simp [hfin]), List.map_append]
    omega
  | false =>
    rw [List.filter_cons_of_pos (by simp [hfin]), List.cons_append, List.map_cons, List.sum_cons,
      List.map_append, hturn]
    have hd := (h.scheduled t st.inOrder (hrunning ▸ List.mem_cons_self)).1.undrafted
    simp only [List.head?_cons, Option.map_some, Option.getD_some]
    rw [e.turn_numComputedTokens hd]
    omega

end FittingState

/-! ## The loop -/

theorem Scheduler.hasUnfinishedRequests_iff (s : Scheduler) :
    s.hasUnfinishedRequests = true ↔ ∃ r rest, s.running ++ s.waiting = r :: rest := by
  rw [hasUnfinishedRequests, decide_eq_true_eq, ← List.ne_nil_iff_exists_cons,
    ← List.length_pos_iff, List.length_append, Nat.add_comm]

namespace FittingState
variable {e : LLMEngine} {s s' : Scheduler} {gone : List Request}

/-- The loop keeps the state. -/
theorem generateLoop (h : FittingState e s) {maxSteps : ℕ}
    (hloop : e.generateLoop maxSteps s = .ok (s', gone)) : FittingState e s' := by
  induction maxSteps generalizing s gone with
  | zero => cases hloop; exact h
  | succ maxSteps ih =>
    rw [LLMEngine.generateLoop] at hloop
    split at hloop
    · obtain ⟨⟨s₁, out, finished⟩, hs, hmore⟩ := bind_eq_ok.mp hloop
      obtain ⟨⟨s₂, rest⟩, hrest, hret⟩ := bind_eq_ok.mp hmore
      cases hret
      exact ih (h.step hs) hrest
    · cases hloop; exact h

/-- The work left bounds the steps of the loop. -/
theorem generateLoop_ends (h : FittingState e s) (hall : e.runner.Unbounded) {maxSteps : ℕ}
    (hle : s.workLeft ≤ maxSteps) : ∃ s' gone, e.generateLoop maxSteps s = .ok (s', gone) ∧
      s'.hasUnfinishedRequests = false := by
  induction maxSteps generalizing s with
  | zero =>
    refine ⟨s, [], rfl, Bool.eq_false_iff.mpr fun hu => ?_⟩
    obtain ⟨r, rest, hlive⟩ := s.hasUnfinishedRequests_iff.mp hu
    obtain ⟨s', out, finished, hs⟩ := h.returns hall
    have := h.workLeft_lt hs hlive
    omega
  | succ maxSteps ih =>
    rw [LLMEngine.generateLoop]
    split
    · rename_i hu
      obtain ⟨r, rest, hlive⟩ := s.hasUnfinishedRequests_iff.mp hu
      obtain ⟨s₁, out, finished, hs⟩ := h.returns hall
      have hlt := h.workLeft_lt hs hlive
      obtain ⟨s', gone, hloop, hdone⟩ := ih (h.step hs) (by omega)
      refine ⟨s', finished ++ gone, ?_, hdone⟩
      simp only [hs, ok_bind, hloop]
      rfl
    · rename_i hu
      exact ⟨s, [], rfl, Bool.eq_false_iff.mpr hu⟩

end FittingState

/-- From every state that arrivals of requests that fit, steps and aborts lead to, the loop
ends: after as many steps as the live requests will ever have tokens, at the latest, nobody is
left. While somebody is, a step returns, and serves the eldest. -/
theorem generateLoop_ends_of_run {e : LLMEngine}
    (hcache : e.cacheConfig.enablePrefixCaching = false) (hspec : e.speculativeConfig = none)
    (hall : e.runner.Unbounded) {s : Scheduler} {arrived : List Request}
    (h : e.Run (Request.Fits e.cacheConfig) (fun _ => True) s arrived) :
    (∀ maxSteps ≥ s.maxLen, ∃ s' finished, e.generateLoop maxSteps s = .ok (s', finished) ∧
      s'.hasUnfinishedRequests = false) ∧
    ∀ k sₖ gone, e.generateLoop k s = .ok (sₖ, gone) → sₖ.hasUnfinishedRequests = true →
      ∃ s' out finished id, e.step none sₖ = .ok (s', out, finished) ∧
        sₖ.requests.head? = some id ∧ StepFor sₖ s' out finished id := by
  have hstate := FittingState.of_run hcache hspec h
  refine ⟨fun maxSteps hle => hstate.generateLoop_ends hall ((Nat.sub_le _ _).trans hle),
    fun k sₖ gone hloop hu => ?_⟩
  have hstateₖ := hstate.generateLoop hloop
  obtain ⟨r, rest, hlive⟩ := sₖ.hasUnfinishedRequests_iff.mp hu
  obtain ⟨s', out, finished, hs⟩ := hstateₖ.returns hall
  refine ⟨s', out, finished, r.requestId, hs, ?_, hstateₖ.stepFor_eldest hs hlive⟩
  rw [← hstateₖ.cacheless.ids, hlive]
  rfl

/-- Two requests outgrow a pool of five blocks, and the younger is preempted on the way. -/
theorem generateLoop_ends_of_run_two : ∃ s arrived,
    countingEngine.Run (Request.Fits countingEngine.cacheConfig) (fun _ => True) s arrived ∧
      s.requests = [0, 1] ∧
      (∀ maxSteps ≥ s.maxLen, ∃ s' finished, countingEngine.generateLoop maxSteps s =
        .ok (s', finished) ∧ s'.hasUnfinishedRequests = false) ∧
      ∀ k sₖ gone, countingEngine.generateLoop k s = .ok (sₖ, gone) →
        sₖ.hasUnfinishedRequests = true → ∃ s' out finished id,
          countingEngine.step none sₖ = .ok (s', out, finished) ∧
            sₖ.requests.head? = some id ∧ StepFor sₖ s' out finished id := by
  have hfirst : countingEngine.Run (Request.Fits countingEngine.cacheConfig) (fun _ => True) _ _ :=
    .addRequest 0 [0] { maxTokens := 4 } .start (by decide) rfl
  have hrun : countingEngine.Run (Request.Fits countingEngine.cacheConfig) (fun _ => True) _ _ :=
    .addRequest 1 [0] { maxTokens := 4 } hfirst (by decide) rfl
  exact ⟨_, _, hrun, rfl, generateLoop_ends_of_run rfl rfl ⟨rfl, rfl⟩ hrun⟩

end LightServe
