import LightServe.Scheduling.Accounting

/-!
# Admission

When a step returns, and whom it admits. `can_allocate` and `allocate` count the cached
blocks differently: the first counts the evictable nodes of the moment, the second holds the
match and then evicts until nothing is evictable. Where the count is too high `allocate`
raises; where it is too low, or a match alone exceeds the cache-hit budget, the head of the
queue is never admitted.

## Main definitions

* `Scheduler.Approves` — the admissions a step comes to and approves.
* `BlockManager.Room` — enough free and reclaimable blocks for an allocation.
* `schedule_returns_iff` — when a step returns.
* `admits_iff` — when a step admits the head of the queue.
* `admits_idle_iff` — the same while nothing runs.
-/

namespace LightServe

open Relation (ReflTransGen)
open Scheduler

/-- There are enough free blocks and blocks that eviction can free once the match is held. -/
def BlockManager.Room (bm : BlockManager) (r : Request) : Prop :=
  bm.neededFresh r (bm.matchPrefix r.promptTokenIds) ≤
    bm.numFreeBlocks + bm.spare r.promptTokenIds

namespace Scheduler

/-- A step from `s` comes to `r`, with the waiting pass in state `q`, and approves it. -/
def Approves (s : Scheduler) (q : WaitingPass) (r : Request) : Prop :=
  ∃ p rest, s.scheduleRunning = .ok p ∧ p.output.preempted = [] ∧
    ReflTransGen (WaitingStep s.schedulerConfig)
      (p.waiting, waitingPass s.schedulerConfig p) (r :: rest, q) ∧
    admissible s.schedulerConfig q r (q.blockManager.matchPrefix r.promptTokenIds) = true

end Scheduler

namespace Consistent
variable {s : Scheduler} {leak : NodeId → ℕ}

/-- The waiting pass keeps the accounts, and whom it comes to has no table. -/
theorem waitingSteps (c : Consistent s leak) {p : RunningPass} (hp : s.scheduleRunning = .ok p)
    (hpre : p.output.preempted = []) {q : WaitingPass} {r : Request} {rest : List Request}
    (hq : ReflTransGen (WaitingStep s.schedulerConfig)
      (p.waiting, waitingPass s.schedulerConfig p) (r :: rest, q)) :
    Accounts q.blockManager (stakes q.running) leak ∧
      r.requestId ∉ (stakes q.running).map Prod.fst := by
  have hsteps := scheduleRunning_steps hp
  obtain ⟨hacc, hw⟩ := c.runningSteps hsteps
  rw [List.append_nil] at hacc
  refine ⟨hacc.moves (waitingSteps_moves hq hw), fun hmem => ?_⟩
  obtain ⟨plan, victims, tr⟩ := RunningTrace.of_steps hsteps
  obtain ⟨as, wt⟩ := WaitingTrace.of_steps hq
  have hnil : victims = [] := by
    rw [tr.output] at hpre
    simpa using hpre
  subst hnil
  obtain ⟨bumped, hall, hwaiting⟩ := tr.waiting
  cases hall
  have hsplit := wt.waiting
  rw [hwaiting, List.nil_append] at hsplit
  -- all ids of `running` and `waiting` differ
  have hnodup := c.nodup
  rw [← c.ids, hsplit, tr.running] at hnodup
  have hrunning : (stakes q.running).map Prod.fst =
      (plan.map Decision.request ++ as.map Admission.request).map Request.requestId := by
    rw [wt.running]
    show (stakes (p.scheduled ++ _)).map Prod.fst = _
    rw [tr.scheduled]
    simp [stakes, Request.stake, Function.comp_def]
  rw [hrunning] at hmem
  have hperm : (plan.map Decision.request ++ [] ++ [] ++
      (as.map Admission.request ++ r :: rest)).map Request.requestId =
      (plan.map Decision.request ++ as.map Admission.request).map Request.requestId ++
        (r :: rest).map Request.requestId := by simp
  rw [hperm] at hnodup
  exact (List.nodup_append.mp hnodup).2.2 _ hmem _ (by simp) rfl

/-- An approved admission succeeds exactly when there is room for it. -/
theorem admit_returns_iff (c : Consistent s leak) {p : RunningPass}
    (hp : s.scheduleRunning = .ok p) (hpre : p.output.preempted = []) {q : WaitingPass}
    {r : Request} {rest : List Request}
    (hq : ReflTransGen (WaitingStep s.schedulerConfig)
      (p.waiting, waitingPass s.schedulerConfig p) (r :: rest, q)) :
    (∃ q', q.enter r (q.blockManager.matchPrefix r.promptTokenIds) = .ok q') ↔
      q.blockManager.Room r := by
  obtain ⟨ha, hid⟩ := c.waitingSteps hp hpre hq
  have hiff := ha.allocate_iff (r := r)
  constructor
  · rintro ⟨q', hq'⟩
    obtain ⟨res, hres, -⟩ := bind_eq_ok.mp hq'
    exact (hiff.mp ⟨res, hres⟩).2
  · intro hroom
    obtain ⟨res, hres⟩ := hiff.mpr ⟨hid, hroom⟩
    exact ⟨_, bind_eq_ok.mpr ⟨res, hres, rfl⟩⟩

/-- A step returns exactly when every admission it approves has room. -/
theorem schedule_returns_iff (c : Consistent s leak) :
    (∃ res, s.schedule = .ok res) ↔ ∀ q r, s.Approves q r → q.blockManager.Room r := by
  obtain ⟨p, hp⟩ := c.scheduleRunning_returns
  have hreturn : (∃ res, s.schedule = .ok res) ↔ (p.output.preempted = [] → ∃ res,
      waitingLoop s.schedulerConfig p.waiting (waitingPass s.schedulerConfig p) = .ok res) := by
    unfold Scheduler.schedule
    rw [hp, ok_bind]
    by_cases hpre : p.output.preempted = []
    · rw [if_neg (not_not.mpr hpre)]
      refine ⟨fun ⟨res, hres⟩ _ => ?_, fun h => ?_⟩
      · obtain ⟨res', hloop, -⟩ := bind_eq_ok.mp hres
        exact ⟨res', hloop⟩
      · obtain ⟨res, hres⟩ := h hpre
        exact ⟨_, bind_eq_ok.mpr ⟨res, hres, rfl⟩⟩
    · rw [if_pos hpre]
      exact ⟨fun _ h => absurd h hpre, fun _ => ⟨_, rfl⟩⟩
  rw [hreturn]
  constructor
  · rintro h q r ⟨p', rest, hp', hpre, hq, hadm⟩
    cases hp.symm.trans hp'
    exact (c.admit_returns_iff hp hpre hq).mp (waitingLoop_returns_iff.mp (h hpre) r rest q hq hadm)
  · intro h hpre
    refine waitingLoop_returns_iff.mpr fun r rest q hq hadm => ?_
    exact (c.admit_returns_iff hp hpre hq).mpr (h q r ⟨p, rest, hp, hpre, hq, hadm⟩)

/-- A step that bumps nobody admits the head of the queue exactly when the head is admissible
and the step returns. -/
theorem admits_iff (c : Consistent s leak) {r : Request} {rest : List Request}
    (hw : s.waiting = r :: rest) {p : RunningPass} (hp : s.scheduleRunning = .ok p)
    (hpre : p.output.preempted = []) :
    (∃ s' out, s.schedule = .ok (s', out) ∧
        r.requestId ∈ out.scheduledNew.map ScheduledRequest.request) ↔
      admissible s.schedulerConfig (waitingPass s.schedulerConfig p) r
          (p.blockManager.matchPrefix r.promptTokenIds) = true ∧
        ∀ q r', s.Approves q r' → q.blockManager.Room r' := by
  obtain ⟨plan, victims, tr⟩ := RunningTrace.of_steps (scheduleRunning_steps hp)
  have hnil : victims = [] := by
    rw [tr.output] at hpre
    simpa using hpre
  subst hnil
  obtain ⟨bumped, hall, hwaiting⟩ := tr.waiting
  cases hall
  rw [List.nil_append, hw] at hwaiting
  have hcases : ∀ {s' out}, s.schedule = .ok (s', out) → ∃ waiting q,
      ReflTransGen (WaitingStep s.schedulerConfig)
        (r :: rest, waitingPass s.schedulerConfig p) (waiting, q) ∧
      (∀ r rest, waiting = r :: rest → admissible s.schedulerConfig q r
        (q.blockManager.matchPrefix r.promptTokenIds) = false) ∧
      out.scheduledNew = q.scheduledNew := by
    intro s' out h
    obtain ⟨p', hp', hrest⟩ := bind_eq_ok.mp h
    cases hp.symm.trans hp'
    rw [if_neg (not_not.mpr hpre)] at hrest
    obtain ⟨⟨waiting, q⟩, hloop, hret⟩ := bind_eq_ok.mp hrest
    cases hret
    rw [hwaiting] at hloop
    obtain ⟨hsteps, hstop⟩ := waitingLoop_steps hloop
    exact ⟨waiting, q, hsteps, hstop, rfl⟩
  constructor
  · rintro ⟨s', out, h, hmem⟩
    refine ⟨?_, c.schedule_returns_iff.mp ⟨_, h⟩⟩
    obtain ⟨waiting, q, hsteps, -, hnew⟩ := hcases h
    rcases Relation.ReflTransGen.cases_head hsteps with heq | ⟨_, hs, -⟩
    · cases heq
      rw [hnew] at hmem
      cases hmem
    · cases hs with
      | enter hadm _ => exact hadm
  · rintro ⟨hadm, hroom⟩
    obtain ⟨⟨s', out⟩, h⟩ := c.schedule_returns_iff.mpr hroom
    refine ⟨s', out, h, ?_⟩
    obtain ⟨waiting, q, hsteps, hstop, hnew⟩ := hcases h
    obtain ⟨as, wt⟩ := WaitingTrace.of_steps hsteps
    have hsplit := wt.waiting
    rw [hnew, wt.scheduledNew]
    cases as with
    | nil =>
      -- the loop stopped at once, although the head is admissible
      rcases Relation.ReflTransGen.cases_head hsteps with heq | ⟨_, hs, hmore⟩
      · cases heq
        exact absurd (hadm.symm.trans (hstop r rest rfl)) (by simp)
      · cases hs with
        | enter _ hq =>
          obtain ⟨bs, wt'⟩ := WaitingTrace.of_steps hmore
          have h₁ := congrArg List.length hsplit
          have h₂ := congrArg List.length wt'.waiting
          simp at h₁ h₂
          omega
    | cons a as =>
      have ha : a.request = r := (List.cons.inj hsplit).1.symm
      refine List.mem_map.mpr ⟨a.slice, by simp, ?_⟩
      rw [← ha]
      rfl

end Consistent

/-! ## When a step returns -/

/-- In a run whose registrations clash with nothing, a step returns exactly when every
admission it approves has room: nothing else in it can fail. -/
theorem schedule_returns_iff_of_run {cache : CacheConfig} {config : SchedulerConfig}
    {hashFn : Option BlockHash → List Token → BlockHash} {s : Scheduler} {live : List RequestId}
    (h : Run ClashFree (.new cache config hashFn) s live) :
    (∃ res, s.schedule = .ok res) ↔ ∀ q r, s.Approves q r → q.blockManager.Room r := by
  obtain ⟨leak, c⟩ := h.consistent
  exact c.schedule_returns_iff

/-- Two blocks of two tokens, with prefix caching on. -/
def smallCache : CacheConfig where
  blockSize := 2
  numGpuBlocks := 2
  enablePrefixCaching := true
  blockSize_pos := Nat.two_pos
  watermark_le := by decide

def smallConfig : SchedulerConfig :=
  { SchedulerConfig.defaults with maxNumBatchedTokens := 8, maxNumBatchedTokens_pos := by decide }

/-- A hash that reads the tokens of the chain as digits. -/
def digitHash (q : Option BlockHash) (block : List Token) : BlockHash :=
  block.foldl (fun h t => 10 * h + t.toNat) (q.getD 0)

/-- What one step of the engine commits to a request that has computed its prompt. -/
def commitToken (t : Token) (r : Request) : Request :=
  { r with outputTokenIds := r.outputTokenIds ++ [t] }

/-- What the last step of the engine commits to a request. -/
def commitLastToken (t : Token) (r : Request) : Request :=
  { r with outputTokenIds := r.outputTokenIds ++ [t], status := .finishedLengthCapped }

/-- Two requests register their prompts, of which they share the first block. For want of a sixth
block the second one is bumped, re-admitted onto its own blocks, and bumped again. When the first
has left, the step comes to it once more and approves it, and so there is room. -/
theorem schedule_returns_iff_of_run_resumed : ∃ s live q r,
    Run ClashFree (.new { smallCache with numGpuBlocks := 5, watermark_le := by decide } smallConfig
      digitHash) s live ∧ live = [1] ∧ s.Approves q r ∧
      matchedTokens (q.blockManager.matchPrefix r.promptTokenIds) = 4 ∧
      (∃ res, s.schedule = .ok res) ∧ q.blockManager.Room r := by
  have hresumes : ((Scheduler.new { smallCache with numGpuBlocks := 5, watermark_le := by decide }
      smallConfig digitHash).performAll ClashFree []
      [.addRequest 0 [1, 1, 1, 1] {}, .addRequest 1 [1, 1, 2, 2] {}, .schedule,
        .commit 0 (commitToken 1), .commit 1 (commitToken 1), .insertComputedPrefix 0,
        .insertComputedPrefix 1, .schedule, .commit 0 (commitToken 1), .schedule,
        .commit 0 (commitToken 1), .commit 1 (commitToken 1), .schedule,
        .commit 0 (commitLastToken 1), .freeFinishedRequests]).any (fun run =>
      run.1.scheduleRunning.toOption.any fun p => p.waiting.head?.any fun r =>
        run.1.schedule.toOption.any fun _ => decide (run.2 = [1] ∧ p.output.preempted = [] ∧
          admissible run.1.schedulerConfig (waitingPass run.1.schedulerConfig p) r
            (p.blockManager.matchPrefix r.promptTokenIds) = true ∧
          matchedTokens (p.blockManager.matchPrefix r.promptTokenIds) = 4)) = true := by
    decide +kernel
  simp only [Option.any_eq_true, toOption_eq_some, List.head?_eq_some_iff, decide_eq_true_eq]
    at hresumes
  obtain ⟨⟨s, live⟩, hrun, p, hp, r, ⟨rest, hw⟩, res, hs, hlive, hpre, hadm, hmatched⟩ := hresumes
  have hrun := Run.performAll .start
    (by simp [SchedulerCall.Permitted, commitToken, commitLastToken]) hrun
  have happroves : s.Approves _ r := ⟨p, rest, hp, hpre, hw ▸ .refl, hadm⟩
  exact ⟨s, live, _, r, hrun, hlive, happroves, hmatched, ⟨res, hs⟩,
    (schedule_returns_iff_of_run hrun).mp ⟨res, hs⟩ _ r happroves⟩

/-- A request fills the pool, registers both its blocks and bumps itself for want of a third.
It comes back to a match whose last block is the only evictable one: `can_allocate` counts
it, `allocate` holds it first, and there is nothing left to evict. -/
theorem schedule_raises : ¬ ∀ (cache : CacheConfig) (config : SchedulerConfig)
    (hashFn : Option BlockHash → List Token → BlockHash) (s : Scheduler) (live : List RequestId),
    Run (fun _ _ => True) (.new cache config hashFn) s live → ∃ res, s.schedule = .ok res := by
  intro h
  have hraises : ((Scheduler.new smallCache smallConfig digitHash).performAll (fun _ _ => True) []
      [.addRequest 0 [1, 1, 1, 1] {}, .schedule, .commit 0 (commitToken 1),
        .insertComputedPrefix 0, .schedule]).any
      (fun run => run.1.schedule.toOption.isNone) = true := by decide +kernel
  obtain ⟨⟨s, live⟩, hrun, hraises⟩ := (Option.any_eq_true _ _).mp hraises
  obtain ⟨res, hres⟩ := h smallCache smallConfig digitHash s live
    (Run.performAll .start (by simp [SchedulerCall.Permitted, commitToken]) hrun)
  rw [hres] at hraises
  cases hraises

/-! ## Whom a step admits -/

/-- A step that bumps nobody, with a slot, budget and blocks for the head of the queue, admits
it exactly when its match is within the budget for matches and the step returns. -/
theorem admits_iff_of_run {cache : CacheConfig} {config : SchedulerConfig}
    {hashFn : Option BlockHash → List Token → BlockHash} {s : Scheduler} {live : List RequestId}
    (h : Run ClashFree (.new cache config hashFn) s live) {r : Request} {rest : List Request}
    (hw : s.waiting = r :: rest) {p : RunningPass} (hp : s.scheduleRunning = .ok p)
    (hpre : p.output.preempted = []) (hslot : p.scheduled.length < s.schedulerConfig.maxNumSeqs)
    (hbudget : 0 < p.tokenBudget)
    (halloc : p.blockManager.canAllocate r (p.blockManager.matchPrefix r.promptTokenIds) = true) :
    (∃ s' out, s.schedule = .ok (s', out) ∧
        r.requestId ∈ out.scheduledNew.map ScheduledRequest.request) ↔
      matchedTokens (p.blockManager.matchPrefix r.promptTokenIds) ≤
          s.schedulerConfig.maxCacheHitContextTokens.getD s.schedulerConfig.maxNumBatchedTokens ∧
        ∀ q r', s.Approves q r' → q.blockManager.Room r' := by
  obtain ⟨leak, c⟩ := h.consistent
  rw [c.admits_iff hw hp hpre]
  refine and_congr_left fun _ => ?_
  simp only [admissible, waitingPass, halloc, hslot, true_and, and_true, decide_eq_true_eq,
    not_le, hbudget]
  exact Nat.cast_le

/-- Eight blocks of two tokens, with prefix caching on. -/
def largeCache : CacheConfig where
  blockSize := 2
  numGpuBlocks := 8
  enablePrefixCaching := true
  blockSize_pos := Nat.two_pos
  watermark_le := by decide

/-- Two tokens a step, and so two matched tokens a step. -/
def narrowConfig : SchedulerConfig :=
  { SchedulerConfig.defaults with maxNumBatchedTokens := 2, maxNumBatchedTokens_pos := Nat.two_pos }

/-- A prompt that shares one of its two blocks with what an earlier request registered: the match
fills the budget for matches, and the request is admitted, with room for the other block. -/
theorem admits_iff_of_run_hit : ∃ s live r p,
    Run ClashFree (.new largeCache narrowConfig digitHash) s live ∧ s.waiting = [r] ∧
      s.scheduleRunning = .ok p ∧
      matchedTokens (p.blockManager.matchPrefix r.promptTokenIds) =
        s.schedulerConfig.maxCacheHitContextTokens.getD s.schedulerConfig.maxNumBatchedTokens ∧
      (∃ s' out, s.schedule = .ok (s', out) ∧
        r.requestId ∈ out.scheduledNew.map ScheduledRequest.request) ∧
      ∀ q r', s.Approves q r' → q.blockManager.Room r' := by
  have hadmits : ((Scheduler.new largeCache narrowConfig digitHash).performAll ClashFree []
      [.addRequest 0 [1, 1, 1, 1] {}, .schedule, .insertComputedPrefix 0, .schedule,
        .commit 0 (commitLastToken 1), .insertComputedPrefix 0, .freeFinishedRequests,
        .addRequest 1 [1, 1, 5, 5] {}]).any (fun run => run.1.waiting.head?.any fun r =>
      run.1.scheduleRunning.toOption.any fun p => run.1.schedule.toOption.any fun next => decide (
        run.1.waiting.length = 1 ∧ p.output.preempted = [] ∧
        p.scheduled.length < run.1.schedulerConfig.maxNumSeqs ∧ 0 < p.tokenBudget ∧
        p.blockManager.canAllocate r (p.blockManager.matchPrefix r.promptTokenIds) = true ∧
        matchedTokens (p.blockManager.matchPrefix r.promptTokenIds) =
          run.1.schedulerConfig.maxCacheHitContextTokens.getD
            run.1.schedulerConfig.maxNumBatchedTokens ∧
        r.requestId ∈ next.2.scheduledNew.map ScheduledRequest.request)) = true := by decide +kernel
  simp only [Option.any_eq_true, toOption_eq_some, List.head?_eq_some_iff, decide_eq_true_eq]
    at hadmits
  obtain ⟨⟨s, live⟩, hrun, r, ⟨rest, hw⟩, p, hp, ⟨s', out⟩, hs, hone, hpre, hslot, hbudget, halloc,
    hmatched, hmem⟩ := hadmits
  obtain rfl : rest = [] := by
    rw [hw, List.length_cons] at hone
    exact List.length_eq_zero_iff.mp (Nat.succ.inj hone)
  have hrun := Run.performAll .start (by simp [SchedulerCall.Permitted, commitLastToken]) hrun
  have hadmitted := (admits_iff_of_run hrun hw hp hpre hslot hbudget halloc).mp ⟨s', out, hs, hmem⟩
  exact ⟨s, live, r, p, hrun, hw, hp, hmatched, ⟨s', out, hs, hmem⟩, hadmitted.2⟩

/-- A prompt of four tokens that an earlier request registered matches more than a step may
match, in this step and in every later one. -/
theorem starves_on_long_match : ¬ ∀ (cache : CacheConfig) (config : SchedulerConfig)
    (hashFn : Option BlockHash → List Token → BlockHash) (s : Scheduler) (live : List RequestId)
    (r : Request) (rest : List Request) (p : RunningPass),
    Run (fun _ _ => True) (.new cache config hashFn) s live → s.waiting = r :: rest →
    s.scheduleRunning = .ok p → p.output.preempted = [] →
    p.scheduled.length < s.schedulerConfig.maxNumSeqs → 0 < p.tokenBudget →
    p.blockManager.canAllocate r (p.blockManager.matchPrefix r.promptTokenIds) = true →
    ∃ s' out, s.schedule = .ok (s', out) ∧
      r.requestId ∈ out.scheduledNew.map ScheduledRequest.request := by
  intro h
  have hstuck : ((Scheduler.new largeCache narrowConfig digitHash).performAll (fun _ _ => True) []
      [.addRequest 0 [1, 1, 1, 1] {}, .schedule, .insertComputedPrefix 0, .schedule,
        .commit 0 (commitLastToken 1), .insertComputedPrefix 0, .freeFinishedRequests,
        .addRequest 1 [1, 1, 1, 1] {}]).any (fun run =>
      run.1.waiting.head?.any fun r => run.1.scheduleRunning.toOption.any fun p =>
        run.1.schedule.toOption.any fun next => decide (p.output.preempted = [] ∧
          p.scheduled.length < run.1.schedulerConfig.maxNumSeqs ∧ 0 < p.tokenBudget ∧
          p.blockManager.canAllocate r (p.blockManager.matchPrefix r.promptTokenIds) = true ∧
          r.requestId ∉ next.2.scheduledNew.map ScheduledRequest.request)) =
            true := by decide +kernel
  simp only [Option.any_eq_true, toOption_eq_some, List.head?_eq_some_iff,
    decide_eq_true_eq] at hstuck
  obtain ⟨⟨s, live⟩, hrun, r, ⟨rest, hw⟩, p, hp, ⟨s₁, out⟩, hs, hpre, hslot, hbudget,
    halloc, hnot⟩ := hstuck
  obtain ⟨s', out', hs', hmem⟩ := h largeCache narrowConfig digitHash s live r rest p
    (Run.performAll .start (by simp [SchedulerCall.Permitted, commitLastToken]) hrun)
    hw hp hpre hslot hbudget halloc
  cases hs.symm.trans hs'
  exact hnot hmem

/-! ## While nothing runs -/

/-- The nodes that can be evicted at once: unheld, with nothing below them. -/
noncomputable def RadixTrie.numLeaves (t : RadixTrie) : ℕ :=
  Set.ncard {v | t.Live v ∧ (t.node v).refCount = 0 ∧ ∀ u, ¬ t.Child v u}

theorem RadixTrie.WellFormed.numEvictableBlocks {t : RadixTrie} (wf : t.WellFormed) :
    t.numEvictableBlocks = t.numLeaves := by
  have hset : {v | t.Live v ∧ (t.node v).refCount = 0 ∧ ∀ u, ¬ t.Child v u} =
      ↑(t.byHash.values.filter t.isEvictable).toFinset := by
    ext v
    rw [Set.mem_ofPred_eq, Finset.mem_coe, List.mem_toFinset, List.mem_filter,
      ← wf.live_iff_mem_values]
    refine and_congr_right fun hv => ?_
    rw [wf.isEvictable_iff hv]
    refine and_congr_right fun _ => ⟨fun h n hn hq => ?_, fun h u hu => ?_⟩
    · exact h n ⟨_, (wf.children_iff hv).mpr ⟨hn, hq⟩⟩
    · obtain ⟨k, hk⟩ := hu
      obtain ⟨hu, hq⟩ := (wf.children_iff hv).mp hk
      exact h u (wf.live_of_lookup hu) hq
  rw [RadixTrie.numEvictableBlocks, RadixTrie.numLeaves, hset, Set.ncard_coe_finset,
    List.toFinset_card_of_nodup (wf.values_nodup.filter _), List.countP_eq_length_filter]

/-- The admission test of the block manager, with the evictable blocks counted as leaves. -/
theorem Accounts.canAllocate_iff {bm : BlockManager} {stakes : List Stake} {leak : NodeId → ℕ}
    (a : Accounts bm stakes leak) (r : Request) (m : Option PrefixMatch) :
    bm.canAllocate r m = true ↔
      bm.neededFresh r m + bm.watermarkBlocks ≤ bm.numFreeBlocks + bm.tree.numLeaves := by
  rw [BlockManager.canAllocate, decide_eq_true_eq, bm.numEvictable_eq,
    a.wellFormed.numEvictableBlocks]
  omega

/-- With nothing running, the head of the queue is admitted exactly when its fresh blocks and
the watermark fit into the free blocks and the leaves of the trie, and the step returns. When
they do not fit, the step changes nothing, and so does every later one. -/
theorem admits_idle_iff_of_run {cache : CacheConfig} {config : SchedulerConfig}
    {hashFn : Option BlockHash → List Token → BlockHash} {s : Scheduler} {live : List RequestId}
    (h : Run ClashFree (.new cache config hashFn) s live) (hidle : s.running = []) {r : Request}
    {rest : List Request} (hw : s.waiting = r :: rest)
    (hmatch : matchedTokens (s.blockManager.matchPrefix r.promptTokenIds) ≤
      s.schedulerConfig.maxCacheHitContextTokens.getD s.schedulerConfig.maxNumBatchedTokens) :
    ((∃ s' out, s.schedule = .ok (s', out) ∧
        r.requestId ∈ out.scheduledNew.map ScheduledRequest.request) ↔
      s.blockManager.neededFresh r (s.blockManager.matchPrefix r.promptTokenIds) +
          s.blockManager.watermarkBlocks ≤
        s.blockManager.numFreeBlocks + s.blockManager.tree.numLeaves ∧
        ∀ q r', s.Approves q r' → q.blockManager.Room r') ∧
    (s.blockManager.numFreeBlocks + s.blockManager.tree.numLeaves <
        s.blockManager.neededFresh r (s.blockManager.matchPrefix r.promptTokenIds) +
          s.blockManager.watermarkBlocks → s.schedule = .ok (s, {})) := by
  obtain ⟨leak, c⟩ := h.consistent
  have hp : s.scheduleRunning = .ok s.runningPass := by
    rw [scheduleRunning, hidle]
    rfl
  have hadm : admissible s.schedulerConfig (waitingPass s.schedulerConfig s.runningPass) r
      (s.blockManager.matchPrefix r.promptTokenIds) = true ↔
        s.blockManager.neededFresh r (s.blockManager.matchPrefix r.promptTokenIds) +
          s.blockManager.watermarkBlocks ≤
        s.blockManager.numFreeBlocks + s.blockManager.tree.numLeaves := by
    rw [← c.accounts.canAllocate_iff]
    simp only [admissible, decide_eq_true_eq, waitingPass, runningPass, List.length_nil, not_le]
    have hseqs := s.schedulerConfig.maxNumSeqs_pos
    have htokens := s.schedulerConfig.maxNumBatchedTokens_pos
    exact ⟨fun h => h.2.2.2, fun h => ⟨hseqs, by omega, Nat.cast_le.mpr hmatch, h⟩⟩
  refine ⟨?_, fun hlt => ?_⟩
  · rw [c.admits_iff hw hp rfl, show s.runningPass.blockManager = s.blockManager from rfl, hadm]
  · have hnot : admissible s.schedulerConfig (waitingPass s.schedulerConfig s.runningPass) r
        (s.blockManager.matchPrefix r.promptTokenIds) ≠ true := by
      rw [ne_eq, hadm]
      omega
    have hloop : waitingLoop s.schedulerConfig s.runningPass.waiting
        (waitingPass s.schedulerConfig s.runningPass) =
          .ok (s.waiting, waitingPass s.schedulerConfig s.runningPass) := by
      show waitingLoop _ s.waiting _ = _
      rw [hw, waitingLoop]
      exact if_neg hnot
    have hpre : ¬ s.runningPass.output.preempted ≠ [] := fun h => h rfl
    rw [Scheduler.schedule, hp, ok_bind, if_neg hpre, hloop, ok_bind]
    obtain ⟨_, _, _, running, _⟩ := s
    cases hidle
    rfl

/-- Four cached blocks of one token. -/
def chainCache : CacheConfig where
  blockSize := 1
  numGpuBlocks := 4
  enablePrefixCaching := true
  blockSize_pos := Nat.one_pos
  watermark_le := by decide

/-- A finished prompt fills the pool with its chain of four blocks. A prompt that shares the first
two is admitted onto them: its one fresh block fits into the leaf of the chain, which is evicted. -/
theorem admits_idle_iff_of_run_hit : ∃ s live r,
    Run ClashFree (.new chainCache smallConfig digitHash) s live ∧ s.running = [] ∧
      s.waiting = [r] ∧ matchedTokens (s.blockManager.matchPrefix r.promptTokenIds) = 2 ∧
      s.blockManager.numFreeBlocks = 0 ∧
      (∃ s' out, s.schedule = .ok (s', out) ∧
        r.requestId ∈ out.scheduledNew.map ScheduledRequest.request) ∧
      s.blockManager.neededFresh r (s.blockManager.matchPrefix r.promptTokenIds) +
          s.blockManager.watermarkBlocks ≤
        s.blockManager.numFreeBlocks + s.blockManager.tree.numLeaves ∧
      ∀ q r', s.Approves q r' → q.blockManager.Room r' := by
  have hadmits : ((Scheduler.new chainCache smallConfig digitHash).performAll ClashFree []
      [.addRequest 0 [1, 2, 3, 4] {}, .schedule, .commit 0 (commitLastToken 1),
        .insertComputedPrefix 0, .freeFinishedRequests, .addRequest 1 [1, 2, 9] {}]).any (fun run =>
      run.1.waiting.head?.any fun r => run.1.schedule.toOption.any fun next => decide (
        run.1.running = [] ∧ run.1.waiting.length = 1 ∧
        matchedTokens (run.1.blockManager.matchPrefix r.promptTokenIds) = 2 ∧
        matchedTokens (run.1.blockManager.matchPrefix r.promptTokenIds) ≤
          run.1.schedulerConfig.maxCacheHitContextTokens.getD
            run.1.schedulerConfig.maxNumBatchedTokens ∧
        run.1.blockManager.numFreeBlocks = 0 ∧
        r.requestId ∈ next.2.scheduledNew.map ScheduledRequest.request)) = true := by decide +kernel
  simp only [Option.any_eq_true, toOption_eq_some, List.head?_eq_some_iff, decide_eq_true_eq]
    at hadmits
  obtain ⟨⟨s, live⟩, hrun, r, ⟨rest, hw⟩, ⟨s', out⟩, hs, hidle, hone, hmatched, hwithin, hfree,
    hmem⟩ := hadmits
  obtain rfl : rest = [] := by
    rw [hw, List.length_cons] at hone
    exact List.length_eq_zero_iff.mp (Nat.succ.inj hone)
  have hrun := Run.performAll .start (by simp [SchedulerCall.Permitted, commitLastToken]) hrun
  have hadmitted := (admits_idle_iff_of_run hrun hidle hw hwithin).1.mp ⟨s', out, hs, hmem⟩
  exact ⟨s, live, r, hrun, hidle, hw, hmatched, hfree, ⟨s', out, hs, hmem⟩, hadmitted⟩

/-- A finished prompt leaves its four blocks in the trie as one chain, of which one block is
evictable at a time; a new prompt of two blocks is never admitted. -/
theorem starves_on_chain : ¬ ∀ (cache : CacheConfig) (config : SchedulerConfig)
    (hashFn : Option BlockHash → List Token → BlockHash) (s : Scheduler) (live : List RequestId)
    (r : Request) (rest : List Request),
    Run (fun _ _ => True) (.new cache config hashFn) s live → s.running = [] →
    s.waiting = r :: rest →
    r.numBlocksNeeded s.blockManager.blockSize ≤
      s.blockManager.numGpuBlocks - s.blockManager.watermarkBlocks →
    matchedTokens (s.blockManager.matchPrefix r.promptTokenIds) ≤
      s.schedulerConfig.maxCacheHitContextTokens.getD s.schedulerConfig.maxNumBatchedTokens →
    ∃ s' out, s.schedule = .ok (s', out) ∧
      r.requestId ∈ out.scheduledNew.map ScheduledRequest.request := by
  intro h
  have hstuck : ((Scheduler.new chainCache smallConfig digitHash).performAll (fun _ _ => True) []
      [.addRequest 0 [1, 2, 3, 4] {}, .schedule, .commit 0 (commitLastToken 1),
        .insertComputedPrefix 0, .freeFinishedRequests, .addRequest 1 [8, 9] {}]).any (fun run =>
      run.1.waiting.head?.any fun r => run.1.schedule.toOption.any fun next => decide (
        run.1.running = [] ∧
        r.numBlocksNeeded run.1.blockManager.blockSize ≤
          run.1.blockManager.numGpuBlocks - run.1.blockManager.watermarkBlocks ∧
        matchedTokens (run.1.blockManager.matchPrefix r.promptTokenIds) ≤
          run.1.schedulerConfig.maxCacheHitContextTokens.getD
            run.1.schedulerConfig.maxNumBatchedTokens ∧
        r.requestId ∉ next.2.scheduledNew.map ScheduledRequest.request)) = true := by decide +kernel
  simp only [Option.any_eq_true, toOption_eq_some, List.head?_eq_some_iff,
    decide_eq_true_eq] at hstuck
  obtain ⟨⟨s, live⟩, hrun, r, ⟨rest, hw⟩, ⟨s₁, out⟩, hs, hidle, hsmall, hmatch, hnot⟩ := hstuck
  obtain ⟨s', out', hs', hmem⟩ := h chainCache smallConfig digitHash s live r rest
    (Run.performAll .start (by simp [SchedulerCall.Permitted, commitLastToken]) hrun)
    hidle hw hsmall hmatch
  cases hs.symm.trans hs'
  exact hnot hmem

end LightServe
