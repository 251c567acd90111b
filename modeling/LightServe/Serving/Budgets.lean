import LightServe.Serving.Live

/-!
# The budgets of a step

Three budgets bound a step: the tokens it computes, the requests it keeps running, and the
cached tokens of the requests it admits. The token budget may be exceeded once, by the draft
of the verify round that used it up.

## Main definitions

* `Scheduler.hitTokens` — the cached tokens that the admitted requests of a step were given.
* `WithinBudgets` — what a step respects.
* `SeatedState` — what holds of a scheduler between its calls.
* `withinBudgets_of_run` — every step of every run respects its budgets.
-/

namespace LightServe

open Relation (ReflTransGen)
open Scheduler

/-- Tokens that a node of the prefix cache stands for; none when caching is disabled. -/
def BlockManager.nodeTokens (bm : BlockManager) : ℕ :=
  (bm.prefixCache.map RadixTrie.blockSize).getD 0

/-- Cached tokens that an admitted request was given: it holds the nodes of its match. -/
def BlockManager.hitTokensOf (bm : BlockManager) (r : Request) : ℕ :=
  r.cachedPrefixNodes.length * bm.nodeTokens

/-- Cached tokens that the requests which an output admits were given. -/
def Scheduler.hitTokens (s : Scheduler) (out : SchedulerOutput) : ℕ :=
  ((s.resolve out.scheduledNew).map fun rn => s.blockManager.hitTokensOf rn.1).sum

/-- The budget of cached tokens; the token budget where it is unset. -/
def SchedulerConfig.cacheHitContextBudget (c : SchedulerConfig) : ℕ :=
  c.maxCacheHitContextTokens.getD c.maxNumBatchedTokens

/-- A step from which `s'` results respects its budgets. -/
structure WithinBudgets (c : SchedulerConfig) (s' : Scheduler) (out : SchedulerOutput) : Prop where
  /-- The token budget, and at most one draft more. -/
  tokens : out.totalNumScheduledTokens ≤ c.maxNumBatchedTokens ∨
    ∃ rn ∈ s'.resolve out.scheduled, rn.1.draftTokenIds ≠ [] ∧
      out.totalNumScheduledTokens ≤ c.maxNumBatchedTokens + rn.1.draftTokenIds.length
  seqs : s'.running.length ≤ c.maxNumSeqs
  hits : s'.hitTokens out ≤ c.cacheHitContextBudget

/-! ## The token budget -/

/-- Anything but a verify round takes no more than is left. -/
theorem chunk_le_of_undrafted {r : Request} (hd : r.draftTokenIds = []) (budget : ℤ) :
    chunk r budget ≤ budget := by
  have hspec : isSpec r = false := by simp [isSpec, hd]
  rw [chunk, hspec, if_neg Bool.false_ne_true]
  exact min_le_right _ _

/-- What a plan leaves of a budget: nothing is missing, or one draft at most. -/
theorem Decision.left_cases {budget : ℤ} (hb : 0 ≤ budget) {plan : List Decision}
    (h : ∀ pre d post, plan = pre ++ d :: post → d.Sound (left budget pre)) :
    0 ≤ left budget plan ∨ ∃ d ∈ plan, d.grant ≠ none ∧ d.request.draftTokenIds ≠ [] ∧
      -(d.request.draftTokenIds.length : ℤ) ≤ left budget plan := by
  induction plan using List.reverseRecOn with
  | nil => simpa using hb
  | append_singleton plan d ih =>
    have hsound := h plan d [] rfl
    have hplan : ∀ pre e post, plan = pre ++ e :: post → e.Sound (left budget pre) := by
      intro pre e post heq
      exact h pre e (post ++ [d]) (by simp [heq])
    rw [left_concat]
    cases hg : d.grant with
    | none =>
      simp only [Option.getD_none, sub_zero]
      rcases ih hplan with hle | ⟨e, he, hgrant, hdraft, hle⟩
      · exact .inl hle
      · exact .inr ⟨e, List.mem_append_left _ he, hgrant, hdraft, hle⟩
    | some c =>
      simp only [Sound, hg] at hsound
      obtain ⟨-, hbudget, rfl⟩ := hsound
      simp only [Option.getD_some]
      by_cases hd : d.request.draftTokenIds = []
      · have hle := chunk_le_of_undrafted hd (left budget plan)
        exact .inl (by omega)
      · refine .inr ⟨d, List.mem_append_right _ List.mem_cons_self, by simp [hg], hd, ?_⟩
        simp only [chunk, isSpec, numNew, ne_eq, hd, not_false_eq_true, decide_true, if_true]
        omega

/-- Admissions leave a budget that is not overdrawn, or there are none. -/
theorem Admission.left_nonneg {budget : ℤ} {as : List Admission}
    (h : ∀ pre a post, as = pre ++ a :: post → a.Sound (left budget pre)) (hne : as ≠ []) :
    0 ≤ left budget as := by
  obtain ⟨pre, a, rfl⟩ := List.eq_nil_or_concat as |>.resolve_left hne
  rw [List.concat_eq_append] at h ⊢
  obtain ⟨-, hchunk⟩ := h pre a [] rfl
  rw [left_concat]
  omega

/-! ## Between the calls -/

/-- What holds of a scheduler between its calls: who waits has no progress, and no more
requests run than may. -/
structure SeatedState (s : Scheduler) : Prop where
  inOrder : InOrder s
  waiting : ∀ r ∈ s.waiting, r.numComputedTokens = 0
  running : s.running.length ≤ s.schedulerConfig.maxNumSeqs

/-- An admitted request is given at least no token. -/
theorem Admission.chunk_nonneg {budget : ℤ} {a : Admission} (h : a.Sound budget)
    (hnc : a.request.numComputedTokens = 0) : 0 ≤ a.chunk := by
  obtain ⟨hbudget, hchunk⟩ := h
  have hlen : a.request.promptTokenIds.length ≤ a.request.getLen := Nat.le_add_right _ _
  have hseed : seededTokens a.request a.found ≤ a.request.getLen := by
    unfold seededTokens
    split <;> omega
  omega

namespace StepTrace
variable {s s' : Scheduler} {out : SchedulerOutput} {plan : List Decision} {victims : List Request}
  {as : List Admission}

/-- The tokens of a step are what it took off its budget. -/
theorem total_eq (t : StepTrace s s' out plan victims as)
    (hw : ∀ r ∈ s.waiting, r.numComputedTokens = 0) :
    (out.totalNumScheduledTokens : ℤ) = s.schedulerConfig.maxNumBatchedTokens -
      Admission.left (Decision.left s.schedulerConfig.maxNumBatchedTokens plan) as := by
  have hplan : ((plan.filterMap Decision.slice).map ScheduledRequest.numScheduledTokens).sum =
      (plan.map fun d => d.grant.getD 0).sum := by
    have hsound : ∀ d ∈ plan, ∃ budget, d.Sound budget := fun d hd => t.plan_sound' hd
    clear t
    induction plan with
    | nil => rfl
    | cons d plan ih =>
      obtain ⟨⟨budget, hd⟩, hsound⟩ := List.forall_mem_cons.mp hsound
      have hrest := ih hsound
      rcases hd.cases with ⟨hg, -⟩ | ⟨n, -, -, hg, -⟩
      · simp [Decision.slice, hg, hrest]
      · simp [Decision.slice, hg, hrest]
  have hadmissions : ((as.map Admission.slice).map ScheduledRequest.numScheduledTokens).sum =
      (as.map Admission.chunk).sum := by
    have hpos : ∀ a ∈ as, 0 ≤ a.chunk := by
      intro a ha
      obtain ⟨budget, hsound⟩ := t.admissions_sound' ha
      exact Admission.chunk_nonneg hsound (hw _ (t.mem_waiting ha))
    clear t
    induction as with
    | nil => rfl
    | cons a as ih =>
      obtain ⟨ha, hpos⟩ := List.forall_mem_cons.mp hpos
      have hrest := ih hpos
      simp only [List.map_cons, List.sum_cons, Nat.cast_add, hrest]
      simp [Admission.slice, ha]
  rw [SchedulerOutput.totalNumScheduledTokens, SchedulerOutput.scheduled, t.scheduledNew,
    t.scheduledRunning, List.map_append, List.sum_append, Nat.cast_add, hplan, hadmissions,
    Admission.left, Decision.left]
  omega

/-- A step takes its token budget, and at most one draft more. -/
theorem within_tokens (t : StepTrace s s' out plan victims as) (o : InOrder s')
    (hw : ∀ r ∈ s.waiting, r.numComputedTokens = 0) :
    out.totalNumScheduledTokens ≤ s.schedulerConfig.maxNumBatchedTokens ∨
      ∃ rn ∈ s'.resolve out.scheduled, rn.1.draftTokenIds ≠ [] ∧
        out.totalNumScheduledTokens ≤
          s.schedulerConfig.maxNumBatchedTokens + rn.1.draftTokenIds.length := by
  have htotal := t.total_eq hw
  by_cases hnil : as = []
  · subst hnil
    rw [Admission.left_nil] at htotal
    rcases Decision.left_cases (Int.natCast_nonneg _) t.plan_sound with
      hle | ⟨d, hd, hg, hdraft, hle⟩
    · exact .inl (by omega)
    · obtain ⟨c, hc⟩ := Option.ne_none_iff_exists'.mp hg
      have hmem : (⟨d.request.requestId, c.toNat⟩ : ScheduledRequest) ∈ out.scheduled := by
        rw [SchedulerOutput.scheduled, t.scheduledRunning]
        exact List.mem_append_right _
          (List.mem_filterMap.mpr ⟨d, hd, by rw [Decision.slice, hc]; rfl⟩)
      have hrunning : d.result ∈ s'.running :=
        t.running' ▸ List.mem_append_left _ (List.mem_map_of_mem hd)
      refine .inr ⟨(d.result, c.toNat), mem_resolve.mpr ⟨_, hmem, ?_, rfl⟩, ?_, ?_⟩
      · rw [← Decision.result_requestId]
        exact findRequest_of_mem o.running_nodup hrunning
      · rw [Decision.result_draftTokenIds]
        exact hdraft
      · rw [Decision.result_draftTokenIds]
        omega
  · have hle := Admission.left_nonneg t.admissions_sound hnil
    exact .inl (by omega)

end StepTrace

/-! ## The cached tokens -/

theorem RadixTrie.blockSize_of_remove {t t' : RadixTrie} {n : NodeId} (h : t.remove n = .ok t') :
    t'.blockSize = t.blockSize := by
  simp only [RadixTrie.remove] at h
  split at h
  · split at h
    · simp only [ok_bind] at h
      split at h <;> cases h
      rfl
    · cases h
  · split at h
    · cases h
    · split at h
      · simp only [ok_bind] at h
        split at h <;> cases h
        rfl
      · cases h

theorem RadixTrie.blockSize_of_evictTimes {k : ℕ} {t t' : RadixTrie} {freed : List BlockId}
    (h : RadixTrie.evictTimes k t = .ok (t', freed)) : t'.blockSize = t.blockSize := by
  induction k generalizing t freed with
  | zero => cases h; rfl
  | succ k ih =>
    obtain ⟨⟨u, b⟩, hone, hrest⟩ := bind_eq_ok.mp h
    have hsize : u.blockSize = t.blockSize := by
      unfold RadixTrie.evictOneLru at hone
      split at hone
      · cases hone; rfl
      · obtain ⟨v, hv, hret⟩ := bind_eq_ok.mp hone
        cases hret
        exact blockSize_of_remove hv
    cases b with
    | none => cases hrest; exact hsize
    | some b =>
      obtain ⟨⟨v, bs⟩, hmore, hret⟩ := bind_eq_ok.mp hrest
      cases hret
      exact (ih hmore).trans hsize

/-- Allocating keeps the size of a node. -/
theorem BlockManager.nodeTokens_of_allocate {bm bm' : BlockManager} {r r' : Request}
    (h : bm.allocate r (bm.matchPrefix r.promptTokenIds) = .ok (bm', r')) :
    bm'.nodeTokens = bm.nodeTokens := by
  obtain ⟨-, t, freed, hev, -, hres⟩ := (bm.allocate_eq_ok_iff r _).mp h
  cases hres
  have hsize := RadixTrie.blockSize_of_evictTimes hev
  show ((bm.prefixCache.map fun _ => t).map RadixTrie.blockSize).getD 0 = bm.nodeTokens
  cases hc : bm.prefixCache with
  | none => simp [nodeTokens, hc]
  | some u =>
    have hheld := (RadixTrie.sameShape_acquire u (u.matchTokens r.promptTokenIds)
      r.promptTokenIds.length).blockSize
    simp only [heldTree, hc] at hsize
    simp [nodeTokens, hc, hsize, hheld]

/-- The waiting pass has admitted `news` since `q₀`. -/
structure Seats (c : SchedulerConfig) (q₀ q : WaitingPass) (news : List Request) : Prop where
  running : q.running = q₀.running ++ news
  scheduledNew : q.scheduledNew.map ScheduledRequest.request =
    q₀.scheduledNew.map ScheduledRequest.request ++ news.map Request.requestId
  seqs : news ≠ [] → q.running.length ≤ c.maxNumSeqs
  nodeTokens : q.blockManager.nodeTokens = q₀.blockManager.nodeTokens
  budget : ((news.map q₀.blockManager.hitTokensOf).sum : ℤ) + q.cacheHitContextBudget =
    q₀.cacheHitContextBudget
  nonneg : 0 ≤ q₀.cacheHitContextBudget → 0 ≤ q.cacheHitContextBudget

namespace Seats
variable {c : SchedulerConfig} {start waiting waiting' : List Request} {q₀ q q' : WaitingPass}
  {news : List Request}

/-- What an admission charges is what the admitted request holds. -/
theorem matchedTokens_eq (bm : BlockManager) (r : Request) (k : ℕ)
    (hcache : bm.nodeTokens = k) :
    matchedTokens (bm.matchPrefix r.promptTokenIds) =
      (r.holding (bm.matchPrefix r.promptTokenIds)).cachedPrefixNodes.length * k := by
  subst hcache
  cases hc : bm.prefixCache with
  | none => simp [matchedTokens, BlockManager.matchPrefix, BlockManager.nodeTokens, hc]
  | some t => simp [matchedTokens, BlockManager.matchPrefix, BlockManager.nodeTokens, hc,
      Request.holding]

theorem step (h : Seats c q₀ q news) (hs : WaitingStep c (waiting, q) (waiting', q')) :
    ∃ r, Seats c q₀ q' (news ++ [r]) := by
  cases hs with
  | @enter r _ _ _ hadm hq =>
    obtain ⟨bm, halloc, -, rfl⟩ := WaitingTrace.admit_eq hq
    simp only [admissible, decide_eq_true_eq, not_le] at hadm
    obtain ⟨hseqs, -, hhits, -⟩ := hadm
    have hcharge := matchedTokens_eq q.blockManager r _ h.nodeTokens
    have hbudget := h.budget
    refine ⟨(Admission.of q r).result, ?_, ?_, fun _ => ?_, ?_, ?_, fun h₀ => ?_⟩
    · simp [Admission.seat, h.running]
    · simp [Admission.seat, h.scheduledNew, Admission.slice]
    · simp only [Admission.seat, List.length_append, List.length_singleton]
      omega
    · exact (BlockManager.nodeTokens_of_allocate halloc).trans h.nodeTokens
    · simp only [List.map_append, List.sum_append, List.map_cons, List.map_nil, List.sum_singleton,
        Admission.seat, Admission.of, Admission.result, BlockManager.hitTokensOf, Nat.cast_add]
      rw [hcharge]
      omega
    · simp only [Admission.seat, Admission.of]
      omega

theorem of_steps (h : ReflTransGen (WaitingStep c) (start, q₀) (waiting, q)) :
    ∃ news, Seats c q₀ q news := by
  suffices ∀ x, ReflTransGen (WaitingStep c) (start, q₀) x → ∃ news, Seats c q₀ x.2 news
    from this _ h
  intro x hx
  induction hx with
  | refl => exact ⟨[], by simp, by simp, by simp, rfl, by simp, id⟩
  | tail _ hs ih =>
    obtain ⟨news, hnews⟩ := ih
    obtain ⟨r, hr⟩ := hnews.step hs
    exact ⟨news ++ [r], hr⟩

end Seats

/-- References to running requests, in their order, resolve to them. -/
theorem map_fst_resolve {s : Scheduler} {scheduled : List ScheduledRequest} {rs : List Request}
    (hnodup : (s.running.map Request.requestId).Nodup) (hrs : ∀ r ∈ rs, r ∈ s.running)
    (hids : scheduled.map ScheduledRequest.request = rs.map Request.requestId) :
    (s.resolve scheduled).map Prod.fst = rs := by
  induction scheduled generalizing rs with
  | nil =>
    cases rs with
    | nil => rfl
    | cons r rs => simp at hids
  | cons sr scheduled ih =>
    cases rs with
    | nil => simp at hids
    | cons r rs =>
      obtain ⟨hr, hrs⟩ := List.forall_mem_cons.mp hrs
      rw [List.map_cons, List.map_cons, List.cons.injEq] at hids
      have hrest := ih hrs hids.2
      have hfind := findRequest_of_mem hnodup hr
      rw [resolve] at hrest ⊢
      simp [hids.1, hfind, hrest]

/-! ## A step -/

/-- A step seats no more requests than may run, and charges the hits of whom it admits. -/
theorem SeatedState.admits {s s' : Scheduler} {out : SchedulerOutput} (st : SeatedState s)
    (h : s.schedule = .ok (s', out)) : s'.running.length ≤ s.schedulerConfig.maxNumSeqs ∧
      s'.hitTokens out ≤ s.schedulerConfig.cacheHitContextBudget := by
  obtain ⟨o, -⟩ := st.inOrder.schedule h
  obtain ⟨p, hp, hcases⟩ := schedule_cases h
  obtain ⟨plan, victims, tr⟩ := RunningTrace.of_steps hp
  have hrunning := congrArg List.length tr.running
  have hscheduled := congrArg List.length tr.scheduled
  have hseats := st.running
  simp only [List.length_append, List.length_map, List.length_nil] at hrunning hscheduled
  rcases hcases with ⟨-, rfl, rfl⟩ | ⟨-, waiting, q, hq, -, rfl, rfl⟩
  · refine ⟨?_, ?_⟩
    · dsimp only
      omega
    · have hnone : p.output.scheduledNew = [] := by rw [tr.output]
      simp [hitTokens, hnone, resolve]
  · obtain ⟨news, seats⟩ := Seats.of_steps hq
    have hnew : q.running = p.scheduled ++ news := seats.running
    have hids : q.scheduledNew.map ScheduledRequest.request = news.map Request.requestId := by
      simpa [waitingPass] using seats.scheduledNew
    refine ⟨?_, ?_⟩
    · by_cases hnil : news = []
      · subst hnil
        have hlen := congrArg List.length hnew
        simp only [List.append_nil] at hlen
        show q.running.length ≤ _
        omega
      · exact seats.seqs hnil
    · have hres := @map_fst_resolve _ q.scheduledNew news o.running_nodup
        (fun r hr => hnew ▸ List.mem_append_right _ hr) hids
      have hsize : ∀ r : Request, q.blockManager.hitTokensOf r =
          (waitingPass s.schedulerConfig p).blockManager.hitTokensOf r := by
        intro r
        rw [BlockManager.hitTokensOf, BlockManager.hitTokensOf, seats.nodeTokens]
      have hbudget := seats.budget
      have hnonneg := seats.nonneg (Int.natCast_nonneg _)
      have hstart : (waitingPass s.schedulerConfig p).cacheHitContextBudget =
          s.schedulerConfig.cacheHitContextBudget := rfl
      have hsum : ∀ t : Scheduler, t.blockManager = q.blockManager →
          (t.resolve q.scheduledNew).map Prod.fst = news →
          ((t.resolve q.scheduledNew).map fun rn => t.blockManager.hitTokensOf rn.1).sum =
            (news.map (waitingPass s.schedulerConfig p).blockManager.hitTokensOf).sum := by
        intro t hbm hnews
        rw [← hnews, List.map_map, hbm]
        exact congrArg List.sum (List.map_congr_left fun rn _ => hsize rn.1)
      rw [hitTokens, hsum _ rfl hres]
      omega

theorem SeatedState.withinBudgets {s s' : Scheduler} {out : SchedulerOutput} (st : SeatedState s)
    (h : s.schedule = .ok (s', out)) : WithinBudgets s.schedulerConfig s' out := by
  obtain ⟨plan, victims, as, t⟩ := StepTrace.of_schedule h
  obtain ⟨hseqs, hhits⟩ := st.admits h
  exact ⟨t.within_tokens (st.inOrder.schedule h).1 st.waiting, hseqs, hhits⟩

/-! ## Runs -/

namespace SeatedState
variable {s s' : Scheduler}

theorem new (cache : CacheConfig) (config : SchedulerConfig)
    (hashFn : Option BlockHash → List Token → BlockHash) :
    SeatedState (.new cache config hashFn) where
  inOrder := ⟨rfl, List.nodup_nil⟩
  waiting r hr := by cases hr
  running := Nat.zero_le _

theorem schedule {out : SchedulerOutput} (st : SeatedState s) (h : s.schedule = .ok (s', out)) :
    SeatedState s' := by
  obtain ⟨plan, victims, as, t⟩ := StepTrace.of_schedule h
  refine ⟨(st.inOrder.schedule h).1, fun r hr => ?_, ?_⟩
  · rcases t.of_mem_waiting hr with hmem | ⟨v, -, nodes, rfl⟩
    · exact st.waiting r hmem
    · rfl
  · rw [t.schedulerConfig]
    exact (st.admits h).1

/-- Sweeping takes off the list of the running requests only. -/
theorem freeFinishedRequests {gone : List Request} (st : SeatedState s)
    (h : s.freeFinishedRequests = .ok (s', gone)) : SeatedState s' := by
  obtain ⟨o, hrunning, hwaiting, -⟩ := st.inOrder.freeFinishedRequests h
  have hconfig : s'.schedulerConfig = s.schedulerConfig := by
    obtain ⟨⟨bm, rs⟩, -, hret⟩ := bind_eq_ok.mp h
    cases hret
    rfl
  refine ⟨o, fun r hr => st.waiting r (hwaiting ▸ hr), ?_⟩
  rw [hconfig, hrunning]
  exact (List.length_filter_le _ _).trans st.running

theorem perform {c : SchedulerCall} {gone : List Request} (st : SeatedState s) (hp : c.Permitted)
    (h : s.perform c = .ok (s', gone)) : SeatedState s' := by
  obtain ⟨o, -⟩ := st.inOrder.perform hp h
  cases c with
  | addRequest id promptTokenIds params =>
    obtain ⟨s₁, hadd, hret⟩ := bind_eq_ok.mp h
    cases hret
    rw [addRequest_eq hadd]
    refine ⟨addRequest_eq hadd ▸ o, fun r hr => ?_, st.running⟩
    rcases List.mem_append.mp hr with hr | hr
    · exact st.waiting r hr
    · rw [List.mem_singleton.mp hr]
      rfl
  | schedule =>
    obtain ⟨⟨s₁, out⟩, hs, hret⟩ := bind_eq_ok.mp h
    cases hret
    exact st.schedule hs
  | commit id f =>
    cases h
    exact ⟨o, st.waiting, by simpa [updateRequest] using st.running⟩
  | insertComputedPrefix id =>
    obtain ⟨s₁, hs, hret⟩ := bind_eq_ok.mp h
    cases hret
    have hq := sameQueues_registerPrefix hs
    obtain ⟨f, -, hrunning⟩ := hq.running
    refine ⟨o, fun r hr => st.waiting r (hq.waiting ▸ hr), ?_⟩
    rw [hq.schedulerConfig, hrunning, List.length_map]
    exact st.running
  | freeFinishedRequests => exact st.freeFinishedRequests h
  | abortRequests ids =>
    obtain ⟨finished, hfree, -⟩ := sweep_of_abortRequests h
    have hmarked : SeatedState (s.markAborted ids) :=
      ⟨st.inOrder.markAborted ids, fun r hr => st.waiting r (List.mem_filter.mp hr).1,
        by simpa [markAborted] using st.running⟩
    exact hmarked.freeFinishedRequests hfree

theorem of_run {Meets : Scheduler → SchedulerCall → Prop} {cache : CacheConfig}
    {config : SchedulerConfig} {hashFn : Option BlockHash → List Token → BlockHash}
    {live : List RequestId} (h : Run Meets (.new cache config hashFn) s live) : SeatedState s := by
  induction h with
  | start => exact new cache config hashFn
  | call c _ hp _ hc ih => exact ih.perform hp hc

end SeatedState

/-- Whatever the order of calls, no more requests run than may, and every step respects its
budgets. -/
theorem withinBudgets_of_run {cache : CacheConfig} {config : SchedulerConfig}
    {hashFn : Option BlockHash → List Token → BlockHash} {s : Scheduler} {live : List RequestId}
    (h : Run (fun _ _ => True) (.new cache config hashFn) s live) :
    s.running.length ≤ s.schedulerConfig.maxNumSeqs ∧
      ∀ s' out, s.schedule = .ok (s', out) → WithinBudgets s.schedulerConfig s' out :=
  ⟨(SeatedState.of_run h).running, fun _ _ => (SeatedState.of_run h).withinBudgets⟩

/-- Two arrivals with a shared block, the first one registered in between. -/
theorem withinBudgets_of_run_two : ∃ s live,
    Run (fun _ _ => True) (.new
      { blockSize := 2, numGpuBlocks := 4, enablePrefixCaching := true, blockSize_pos := by decide
        watermark_le := by decide }
      { maxNumSeqs_pos := by decide, maxNumBatchedTokens_pos := by decide
        maxCacheHit_pos := by simp } fun _ _ => 0) s live ∧
      s.running.length ≤ s.schedulerConfig.maxNumSeqs ∧
      ∀ s' out, s.schedule = .ok (s', out) → WithinBudgets s.schedulerConfig s' out :=
  have hrun := Run.call (.addRequest 3 [1, 2, 5] {})
    (.call (.insertComputedPrefix 7) (.call .schedule
      (.call (.addRequest 7 [1, 2, 3] {}) .start trivial trivial rfl)
        trivial trivial rfl) trivial trivial rfl) trivial trivial rfl
  ⟨_, _, hrun, withinBudgets_of_run hrun⟩

end LightServe
