import LightServe.Lib.Keyed
import LightServe.Memory.Tenants
import LightServe.Scheduling.Fifo

/-!
# Accounting for a step

Every decision of a scheduling pass is a few moves of the block manager. So the accounts
hold after every call of the scheduler, the requests in `waiting` hold nothing, and the
running pass never raises.

## Main definitions

* `Accounted` — the block manager serves the running requests.
* `Consistent` — so it is, and the queues and the request dictionary agree.
* `Accounted.schedule_moves` — a step, as the block manager sees it.
* `Accounted.scheduleRunning_returns` — the running pass never raises.
* `Accounted.perform`, `Consistent.perform` — every call keeps them.
-/

namespace LightServe

open Relation (ReflTransGen)
open Scheduler

/-- The stakes of some requests. -/
abbrev stakes (rs : List Request) : List Stake := rs.map Request.stake

theorem BlockManager.insertComputedPrefix_requestId {bm bm' : BlockManager} {r r' : Request}
    (h : bm.insertComputedPrefix r = .ok (bm', r')) : r'.requestId = r.requestId := by
  unfold BlockManager.insertComputedPrefix at h
  split at h
  · cases h; rfl
  · dsimp only at h
    split at h
    · cases h; rfl
    · obtain ⟨⟨t, nodes⟩, -, hret⟩ := bind_eq_ok.mp h
      cases hret
      rfl

/-- A request as a tenant, when `knownOf` says what the tenants of before know. -/
def Request.tenant (knownOf : RequestId → Option (List Token)) (blockSize : ℕ) (r : Request) :
    Tenant where
  requestId := r.requestId
  nodes := r.cachedPrefixNodes
  prompt := r.promptTokenIds
  known := (knownOf r.requestId).getD
    (r.promptTokenIds.take (r.cachedPrefixNodes.length * blockSize))

/-- The running requests as the tenants they are when they come in. -/
def Scheduler.tenants (s : Scheduler) : List Tenant :=
  s.running.map (Request.tenant (fun _ => none) s.blockManager.blockSize)

theorem stakesOf_tenants (knownOf : RequestId → Option (List Token)) (blockSize : ℕ)
    (rs : List Request) : stakesOf (rs.map (Request.tenant knownOf blockSize)) = stakes rs := by
  rw [stakesOf, List.map_map]
  rfl

theorem blockMoves_of_tenantMoves {x y : BlockManager × List Tenant}
    (h : ReflTransGen TenantMove x y) :
    ReflTransGen BlockMove (x.1, stakesOf x.2) (y.1, stakesOf y.2) := by
  induction h with
  | refl => exact .refl
  | tail _ hm ih => exact ih.tail hm.blockMove

/-! ## The passes as moves -/

section Passes
variable {knownOf : RequestId → Option (List Token)} {blockSize : ℕ}

theorem RunningStep.tenantMoves {pending pending' : List Request} {p p' : RunningPass}
    (h : RunningStep (pending, p) (pending', p')) :
    ReflTransGen TenantMove
      (p.blockManager, (p.scheduled ++ pending).map (Request.tenant knownOf blockSize))
      (p'.blockManager, (p'.scheduled ++ pending').map (Request.tenant knownOf blockSize)) := by
  have hpreempt : ∀ (v : Request) (rest : List Request), p.preempt v = .ok p' →
      ReflTransGen TenantMove
        (p.blockManager, (v :: (p.scheduled ++ rest)).map (Request.tenant knownOf blockSize))
        (p'.blockManager, (p'.scheduled ++ rest).map (Request.tenant knownOf blockSize)) := by
    intro v rest hp
    obtain ⟨⟨bm, r⟩, hfree, hret⟩ := bind_eq_ok.mp hp
    cases hret
    exact .single (.free rfl hfree)
  cases h with
  | skip h => simpa using ReflTransGen.refl
  | @bump r v pending _ _ h hfit hp =>
    refine .head (.perm (List.Perm.map _ ?_)) (hpreempt v _ hp)
    rw [← List.cons_append, ← List.append_assoc]
    exact List.perm_append_comm
  | @yield r _ _ h hfit hp =>
    exact .head (.perm (List.Perm.map _ List.perm_append_comm))
      (by simpa using hpreempt r [] hp)
  | @grant r _ _ _ h hfit hp =>
    obtain ⟨bm, hreserve, hret⟩ := bind_eq_ok.mp hp
    cases hret
    have hmem : r ∈ p.scheduled ++ r :: pending' := by simp
    have hmove := TenantMove.reserve (r := r)
      (List.mem_map_of_mem (f := Request.tenant knownOf blockSize) hmem) rfl hfit hreserve
    simpa [Request.tenant] using ReflTransGen.single hmove

theorem BlockManager.allocate_blockSize {bm : BlockManager} {r : Request}
    {res : BlockManager × Request} (h : bm.allocate r (bm.matchPrefix r.promptTokenIds) = .ok res) :
    res.1.blockSize = bm.blockSize := by
  obtain ⟨-, t, freed, -, -, rfl⟩ := (bm.allocate_eq_ok_iff r res).mp h
  rfl

theorem WaitingStep.tenantMoves {c : SchedulerConfig} {waiting waiting' : List Request}
    {q q' : WaitingPass} (h : WaitingStep c (waiting, q) (waiting', q'))
    (hw : ∀ r ∈ waiting, r.cachedPrefixNodes = [] ∧ knownOf r.requestId = none)
    (hb : q.blockManager.blockSize = blockSize) :
    q'.blockManager.blockSize = blockSize ∧
      ReflTransGen TenantMove (q.blockManager, q.running.map (Request.tenant knownOf blockSize))
        (q'.blockManager, q'.running.map (Request.tenant knownOf blockSize)) := by
  cases h with
  | @enter r _ _ _ hadm hq =>
    obtain ⟨bm, halloc, -, rfl⟩ := WaitingTrace.admit_eq hq
    obtain ⟨hnil, hnew⟩ := hw r List.mem_cons_self
    refine ⟨(BlockManager.allocate_blockSize halloc).trans hb,
      .head (.allocate hnil halloc) (.single (.perm ?_))⟩
    have hentrant : Request.tenant knownOf blockSize (Admission.of q r).result =
        (r.holding (q.blockManager.matchPrefix r.promptTokenIds)).entrant
        q.blockManager.blockSize := by
      simp only [Request.tenant, Admission.of, Admission.result, Request.entrant, Request.holding,
        hnew, hb, Option.getD_none]
    simp only [Admission.seat, List.map_append, List.map_cons, List.map_nil, hentrant]
    exact @List.perm_append_comm _ [_] _

namespace Scheduler

theorem waitingSteps_tenantMoves {c : SchedulerConfig} {waiting waiting' : List Request}
    {q q' : WaitingPass} (h : ReflTransGen (WaitingStep c) (waiting, q) (waiting', q'))
    (hw : ∀ r ∈ waiting, r.cachedPrefixNodes = [] ∧ knownOf r.requestId = none)
    (hb : q.blockManager.blockSize = blockSize) :
    ReflTransGen TenantMove (q.blockManager, q.running.map (Request.tenant knownOf blockSize))
      (q'.blockManager, q'.running.map (Request.tenant knownOf blockSize)) := by
  suffices ∀ x, ReflTransGen (WaitingStep c) (waiting, q) x →
      (∀ r ∈ x.1, r.cachedPrefixNodes = [] ∧ knownOf r.requestId = none) ∧
        x.2.blockManager.blockSize = blockSize ∧
        ReflTransGen TenantMove (q.blockManager, q.running.map (Request.tenant knownOf blockSize))
          (x.2.blockManager, x.2.running.map (Request.tenant knownOf blockSize)) from (this _ h).2.2
  intro x hx
  induction hx with
  | refl => exact ⟨hw, hb, .refl⟩
  | tail _ hs ih =>
    obtain ⟨hw', hb', hmoves⟩ := ih
    obtain ⟨hb'', hmove⟩ := hs.tenantMoves hw' hb'
    refine ⟨fun r hr => hw' r ?_, hb'', hmoves.trans hmove⟩
    cases hs with
    | enter => exact List.mem_cons_of_mem _ hr

theorem runningSteps_tenantMoves {pending pending' : List Request} {p p' : RunningPass}
    (h : ReflTransGen RunningStep (pending, p) (pending', p')) :
    ReflTransGen TenantMove
      (p.blockManager, (p.scheduled ++ pending).map (Request.tenant knownOf blockSize))
      (p'.blockManager, (p'.scheduled ++ pending').map (Request.tenant knownOf blockSize)) :=
  inv_of_runningSteps (fun pending' p' => ReflTransGen TenantMove
    (p.blockManager, (p.scheduled ++ pending).map (Request.tenant knownOf blockSize))
    (p'.blockManager, (p'.scheduled ++ pending').map (Request.tenant knownOf blockSize)))
    (fun hm hs => hm.trans hs.tenantMoves) h .refl

theorem freeAll_tenantMoves {bm bm' : BlockManager} {rs rs' : List Request} (rest : List Request)
    (h : freeAll bm rs = .ok (bm', rs')) :
    ReflTransGen TenantMove (bm, (rs ++ rest).map (Request.tenant knownOf blockSize))
      (bm', rest.map (Request.tenant knownOf blockSize)) := by
  induction rs generalizing bm rs' with
  | nil => cases h; exact .refl
  | cons r rs ih =>
    obtain ⟨⟨bm₁, r₁⟩, hfree, hrest⟩ := bind_eq_ok.mp h
    obtain ⟨⟨bm₂, rs₁⟩, hall, hret⟩ := bind_eq_ok.mp hrest
    cases hret
    exact .head (.free rfl hfree) (ih hall)

theorem freeFinishedRequests_tenantMoves {s s' : Scheduler} {finished : List Request}
    (h : s.freeFinishedRequests = .ok (s', finished)) :
    ReflTransGen TenantMove
      (s.blockManager, s.running.map (Request.tenant knownOf blockSize))
      (s'.blockManager, s'.running.map (Request.tenant knownOf blockSize)) := by
  obtain ⟨⟨bm, rs⟩, hall, hret⟩ := bind_eq_ok.mp h
  cases hret
  have hperm : s.running.Perm (s.running.filter Request.isFinished ++
      s.running.filter fun r => ¬ r.isFinished) := by
    simpa using (List.filter_append_perm Request.isFinished s.running).symm
  exact .head (.perm (hperm.map _)) (freeAll_tenantMoves _ hall)

/-- What is not told of the tenants stays true of the stakes. -/
theorem runningSteps_moves {pending pending' : List Request} {p p' : RunningPass}
    (h : ReflTransGen RunningStep (pending, p) (pending', p')) :
    ReflTransGen BlockMove (p.blockManager, stakes (p.scheduled ++ pending))
      (p'.blockManager, stakes (p'.scheduled ++ pending')) := by
  have hm := blockMoves_of_tenantMoves (@runningSteps_tenantMoves (fun _ => none) 0 _ _ _ _ h)
  simpa only [stakesOf_tenants] using hm

theorem waitingSteps_moves {c : SchedulerConfig} {waiting waiting' : List Request}
    {q q' : WaitingPass} (h : ReflTransGen (WaitingStep c) (waiting, q) (waiting', q'))
    (hw : ∀ r ∈ waiting, r.cachedPrefixNodes = []) :
    ReflTransGen BlockMove (q.blockManager, stakes q.running)
      (q'.blockManager, stakes q'.running) := by
  have hm := blockMoves_of_tenantMoves
    (@waitingSteps_tenantMoves (fun _ => none) _ _ _ _ _ _ h (fun r hr => ⟨hw r hr, rfl⟩) rfl)
  simpa only [stakesOf_tenants] using hm

end Scheduler

end Passes

theorem RunningStep.moves {pending pending' : List Request} {p p' : RunningPass}
    (h : RunningStep (pending, p) (pending', p')) :
    ReflTransGen BlockMove (p.blockManager, stakes (p.scheduled ++ pending))
      (p'.blockManager, stakes (p'.scheduled ++ pending')) :=
  runningSteps_moves (.single h)

theorem Scheduler.findRequest_eq_some {s : Scheduler} {id : RequestId} {r : Request}
    (h : s.findRequest id = some r) : r ∈ s.running ∧ r.requestId = id := by
  have hmem := List.mem_of_find?_eq_some h
  have hid := List.find?_some h
  exact ⟨hmem, by simpa using hid⟩

/-! ## The accounts of a scheduler -/

/-- The accounts are those of `running` and of what was lost, and a request that waits holds
nothing. -/
structure Accounted (s : Scheduler) (lost : List Stake) (leak : NodeId → ℕ) : Prop where
  accounts : Accounts s.blockManager (stakes s.running ++ lost) leak
  uncached : ∀ r ∈ s.waiting, r.cachedPrefixNodes = []

namespace Accounted
variable {s s' : Scheduler} {lost : List Stake} {leak : NodeId → ℕ}

theorem new (cache : CacheConfig) (config : SchedulerConfig)
    (hashFn : Option BlockHash → List Token → BlockHash) :
    Accounted (.new cache config hashFn) [] fun _ => 0 where
  accounts := .new cache hashFn
  uncached := by simp [Scheduler.new]

theorem addRequest {r : Request} (c : Accounted s lost leak) (hr : r.cachedPrefixNodes = [])
    (h : s.addRequest r = .ok s') : Accounted s' lost leak := by
  unfold Scheduler.addRequest at h
  split at h
  · cases h
  · cases h
    refine ⟨c.accounts, fun q hq => ?_⟩
    rcases List.mem_append.mp hq with hq | hq
    · exact c.uncached q hq
    · rw [List.mem_singleton.mp hq]
      exact hr

/-- Mutating running requests without touching their ids and holds. -/
theorem updateRunning (c : Accounted s lost leak) (f : Request → Request)
    (hf : ∀ r ∈ s.running, (f r).stake = r.stake) :
    Accounted { s with running := s.running.map f } lost leak where
  accounts := by
    have : stakes (s.running.map f) = stakes s.running := by
      rw [stakes, List.map_map]
      exact List.map_congr_left hf
    rw [this]
    exact c.accounts
  uncached := c.uncached

theorem updateRequest (c : Accounted s lost leak) (id : RequestId) (f : Request → Request)
    (hf : ∀ r ∈ s.running, r.requestId = id → (f r).stake = r.stake) :
    Accounted (s.updateRequest id f) lost leak := by
  refine c.updateRunning _ fun r hr => ?_
  split
  · exact hf r hr ‹_›
  · rfl

/-- The running pass keeps the accounts and clears whom it bumps. -/
theorem runningSteps (c : Accounted s lost leak) {pending : List Request} {p : RunningPass}
    (h : ReflTransGen RunningStep (s.running, s.runningPass) (pending, p)) :
    Accounts p.blockManager (stakes (p.scheduled ++ pending) ++ lost) leak ∧
      ∀ r ∈ p.waiting, r.cachedPrefixNodes = [] := by
  refine inv_of_runningSteps (fun pending p =>
    Accounts p.blockManager (stakes (p.scheduled ++ pending) ++ lost) leak ∧
      ∀ r ∈ p.waiting, r.cachedPrefixNodes = []) ?_ h ⟨c.accounts, c.uncached⟩
  rintro pending pending' p p' ⟨ha, hw⟩ hs
  refine ⟨ha.moves (BlockMove.all_beside hs.moves lost), ?_⟩
  have hpreempt : ∀ (v : Request) (rest : List Request),
      Accounts p.blockManager (stakes (v :: rest) ++ lost) leak →
      p.preempt v = .ok p' → ∀ r ∈ p'.waiting, r.cachedPrefixNodes = [] := by
    intro v rest hv hp
    obtain ⟨t, ht, -⟩ := hv.free
    obtain ⟨⟨bm, v'⟩, hfree, hret⟩ := bind_eq_ok.mp hp
    cases ht.symm.trans hfree
    cases hret
    exact List.forall_mem_cons.mpr ⟨rfl, hw⟩
  cases hs with
  | skip h => exact hw
  | @bump r v pending _ _ h hfit hp =>
    refine hpreempt v (p.scheduled ++ r :: pending)
      (ha.perm ((List.Perm.map _ ?_).append_right lost)) hp
    rw [← List.cons_append, ← List.append_assoc]
    exact List.perm_append_comm
  | @yield r _ _ h hfit hp =>
    exact hpreempt r p.scheduled
      (ha.perm ((List.Perm.map _ List.perm_append_comm).append_right lost)) hp
  | grant h hfit hp =>
    obtain ⟨bm, -, hret⟩ := bind_eq_ok.mp hp
    cases hret
    exact hw

theorem runningSteps_pool (c : Accounted s lost leak) {pending : List Request} {p : RunningPass}
    (h : ReflTransGen RunningStep (s.running, s.runningPass) (pending, p)) :
    SamePool s.blockManager p.blockManager := by
  have ha : Accounts s.runningPass.blockManager
      (stakes (s.runningPass.scheduled ++ s.running) ++ lost) leak := c.accounts
  exact SamePool.of_moves (BlockMove.all_beside (runningSteps_moves h) lost) ha

/-- The running pass never raises: what it frees is served, and what it reserves fits. -/
theorem scheduleRunning_returns (c : Accounted s lost leak) : ∃ p, s.scheduleRunning = .ok p := by
  refine runningLoop_returns
    (fun pending p => Accounts p.blockManager (stakes (p.scheduled ++ pending) ++ lost) leak)
    (fun ha hs => ha.moves (BlockMove.all_beside hs.moves lost)) ?_ ?_ c.accounts
  · intro r pending p v ha hdue hfit hv
    obtain ⟨a, b, hab⟩ := List.append_of_mem (List.mem_append_right p.scheduled hv)
    rw [hab] at ha
    have hperm := ha.perm ((List.Perm.map _ List.perm_middle).append_right lost)
    obtain ⟨t, ht, -⟩ := hperm.free
    exact ⟨_, bind_eq_ok.mpr ⟨_, ht, rfl⟩⟩
  · intro r pending p ha hdue hfit
    have hmem : r.stake ∈ stakes (p.scheduled ++ r :: pending) ++ lost := by simp [stakes]
    obtain ⟨ht, -⟩ := ha.reserve hmem hfit
    exact ⟨_, bind_eq_ok.mpr ⟨_, ht, rfl⟩⟩

/-- A step that returned, as its tenants see it: nobody who waits knows anything. -/
theorem schedule_tenantMoves (c : Accounted s lost leak) {out : SchedulerOutput}
    (h : s.schedule = .ok (s', out)) {bs : ℕ} (hbs : s.blockManager.blockSize = bs)
    {knownOf : RequestId → Option (List Token)}
    (hnew : ∀ r ∈ s.waiting, knownOf r.requestId = none) :
    ReflTransGen TenantMove (s.blockManager, s.running.map (Request.tenant knownOf bs))
      (s'.blockManager, s'.running.map (Request.tenant knownOf bs)) := by
  obtain ⟨p, hp, hcases⟩ := schedule_cases h
  have hrun := @runningSteps_tenantMoves knownOf bs _ _ _ _ hp
  rw [List.append_nil] at hrun
  have hpool := c.runningSteps_pool hp
  rcases hcases with ⟨-, -, rfl⟩ | ⟨hpre, waiting, q, hq, -, -, rfl⟩
  · exact hrun
  · refine hrun.trans (waitingSteps_tenantMoves hq (fun r hr => ⟨(c.runningSteps hp).2 r hr, ?_⟩)
      (hpool.blockSize.trans hbs))
    rw [RunningTrace.waiting_eq hp hpre] at hr
    exact hnew r hr

/-- A step that returned, as the block manager sees it. -/
theorem schedule_moves (c : Accounted s lost leak) {out : SchedulerOutput}
    (h : s.schedule = .ok (s', out)) :
    ReflTransGen BlockMove (s.blockManager, stakes s.running)
      (s'.blockManager, stakes s'.running) := by
  obtain ⟨p, hp, hcases⟩ := schedule_cases h
  have hrun := runningSteps_moves hp
  rw [List.append_nil] at hrun
  rcases hcases with ⟨-, -, rfl⟩ | ⟨-, waiting, q, hq, -, -, rfl⟩
  · exact hrun
  · exact hrun.trans (waitingSteps_moves hq (c.runningSteps hp).2)

theorem schedule (c : Accounted s lost leak) {out : SchedulerOutput}
    (h : s.schedule = .ok (s', out)) : Accounted s' lost leak := by
  refine ⟨c.accounts.moves (BlockMove.all_beside (c.schedule_moves h) lost), ?_⟩
  obtain ⟨p, hp, hcases⟩ := schedule_cases h
  have hw := (c.runningSteps hp).2
  rcases hcases with ⟨-, -, rfl⟩ | ⟨-, waiting, q, hq, -, -, rfl⟩
  · exact hw
  · obtain ⟨as, wt⟩ := WaitingTrace.of_steps hq
    exact fun r hr => hw r (wt.waiting ▸ List.mem_append_right _ hr)

/-- Freeing served requests gives each of them back. -/
theorem freeAll {bm : BlockManager} {rs rest : List Request}
    (a : Accounts bm (stakes (rs ++ rest) ++ lost) leak) : ∃ bm',
      Scheduler.freeAll bm rs = .ok (bm', rs.map fun r => { r with cachedPrefixNodes := [] }) ∧
      ReflTransGen BlockMove (bm, stakes (rs ++ rest)) (bm', stakes rest) := by
  induction rs generalizing bm with
  | nil => exact ⟨bm, rfl, .refl⟩
  | cons r rs ih =>
    obtain ⟨t, ht, -, -, ha⟩ := a.free
    obtain ⟨bm', hrest, hmoves⟩ := ih ha
    refine ⟨bm', ?_, .head (.free ht) hmoves⟩
    rw [Scheduler.freeAll, ht, ok_bind]
    simp only [hrest, ok_bind]
    rfl

/-- Sweeping out the finished requests succeeds and leaves the others. -/
theorem freeFinishedRequests (c : Accounted s lost leak) : ∃ bm,
    s.freeFinishedRequests = .ok ({ s with
        blockManager := bm
        running := s.running.filter fun r => ¬ r.isFinished
        requests := s.requests.filter fun id =>
          id ∉ (s.running.filter Request.isFinished).map Request.requestId },
      (s.running.filter Request.isFinished).map fun r => { r with cachedPrefixNodes := [] }) ∧
    ReflTransGen BlockMove (s.blockManager, stakes s.running)
      (bm, stakes (s.running.filter fun r => ¬ r.isFinished)) := by
  have hperm : (s.running.filter Request.isFinished ++
      s.running.filter fun r => ¬ r.isFinished).Perm s.running := by
    simpa using List.filter_append_perm Request.isFinished s.running
  obtain ⟨bm, hfree, hmoves⟩ := @freeAll lost leak _ (s.running.filter Request.isFinished)
    (s.running.filter fun r => ¬ r.isFinished)
    (c.accounts.perm ((hperm.symm.map _).append_right lost))
  have hall : ReflTransGen BlockMove (s.blockManager, stakes s.running)
      (bm, stakes (s.running.filter fun r => ¬ r.isFinished)) :=
    .head (.perm (hperm.symm.map _)) hmoves
  have hrun : s.freeFinishedRequests = .ok ({ s with
        blockManager := bm
        running := s.running.filter fun r => ¬ r.isFinished
        requests := s.requests.filter fun id =>
          id ∉ (s.running.filter Request.isFinished).map Request.requestId },
      (s.running.filter Request.isFinished).map fun r => { r with cachedPrefixNodes := [] }) := by
    unfold Scheduler.freeFinishedRequests
    simp only [hfree, ok_bind, List.map_map]
    rfl
  exact ⟨bm, hrun, hall⟩

/-- Aborting succeeds: it drops from `waiting`, marks in `running` and sweeps. -/
theorem abortRequests (c : Accounted s lost leak) (ids : List RequestId) : ∃ bm,
    s.abortRequests ids = .ok ({ s.markAborted ids with
        blockManager := bm
        running := (s.markAborted ids).running.filter fun r => ¬ r.isFinished
        requests := (s.markAborted ids).requests.filter fun id =>
          id ∉ ((s.markAborted ids).running.filter Request.isFinished).map Request.requestId },
      (s.waiting.filter fun r => r.requestId ∈ ids).map
          (fun r => { r with status := .finishedAborted }) ++
        ((s.markAborted ids).running.filter Request.isFinished).map
          fun r => { r with cachedPrefixNodes := [] }) ∧
    ReflTransGen BlockMove (s.blockManager, stakes s.running)
      (bm, stakes ((s.markAborted ids).running.filter fun r => ¬ r.isFinished)) := by
  have hstake : ∀ r : Request,
      (if r.requestId ∈ ids then { r with status := .finishedAborted } else r : Request).stake =
        r.stake := by
    intro r
    split <;> rfl
  have hrunning : stakes (s.markAborted ids).running = stakes s.running := by
    show stakes (s.running.map _) = _
    rw [stakes, List.map_map]
    exact List.map_congr_left fun r _ => hstake r
  have hmarked : Accounted (s.markAborted ids) lost leak :=
    ⟨hrunning ▸ c.accounts, fun r hr => c.uncached r (List.mem_filter.mp hr).1⟩
  obtain ⟨bm, hfree, hmoves⟩ := hmarked.freeFinishedRequests
  refine ⟨bm, ?_, ?_⟩
  · have hids : ((s.waiting.filter fun r => r.requestId ∈ ids).map
        fun r : Request => { r with status := .finishedAborted }).map Request.requestId =
          (s.waiting.filter fun r => r.requestId ∈ ids).map Request.requestId := by
      rw [List.map_map]
      rfl
    unfold Scheduler.abortRequests
    simp only [hids]
    exact bind_eq_ok.mpr ⟨_, hfree, rfl⟩
  · rw [← hrunning]
    exact hmoves

/-! ## Registration -/

/-- One request among the running ones, and what updating it does to their stakes. -/
theorem stakes_update (c : Accounted s lost leak) {r : Request} (hr : r ∈ s.running)
    (f : Request → Request) : ∃ rest, (stakes s.running).Perm (r.stake :: rest) ∧
      (stakes (s.updateRequest r.requestId f).running).Perm ((f r).stake :: rest) := by
  have hnodup := c.accounts.ids_nodup
  rw [List.map_append, List.map_map] at hnodup
  obtain ⟨a, b, hab, hupdate⟩ :=
    Keyed.exists_update Request.requestId (List.nodup_append.mp hnodup).1 hr f
  refine ⟨stakes (a ++ b), ?_, ?_⟩
  · rw [hab]
    exact List.perm_middle.map Request.stake
  · show (stakes (Keyed.update Request.requestId (r.requestId, f) s.running)).Perm _
    rw [hupdate]
    exact List.perm_middle.map Request.stake

/-- Replacing a running request and the block manager, when the accounts follow. -/
theorem replace (c : Accounted s lost leak) {r : Request} (hr : r ∈ s.running)
    {f : Request → Request} {bm : BlockManager} {leak' : NodeId → ℕ}
    (hacc : ∀ rest, (stakes s.running).Perm (r.stake :: rest) →
      Accounts bm ((f r).stake :: (rest ++ lost)) leak') :
    Accounted ({ s with blockManager := bm }.updateRequest r.requestId f) lost leak' := by
  obtain ⟨rest, hperm, hperm'⟩ := c.stakes_update hr f
  exact ⟨(hacc rest hperm).perm (hperm'.symm.append_right lost), c.uncached⟩

/-- Registering a running request's progress without a clash. -/
theorem registerPrefix (c : Accounted s lost leak) {id : RequestId}
    (hcf : ∀ r, s.findRequest id = some r → s.blockManager.ClashFree r)
    (h : s.registerPrefix id = .ok s') : ∃ leak', Accounted s' lost leak' := by
  unfold Scheduler.registerPrefix at h
  split at h
  · cases h
    exact ⟨leak, c⟩
  · rename_i r hr
    obtain ⟨⟨bm, r'⟩, hins, hret⟩ := bind_eq_ok.mp h
    cases hret
    obtain ⟨hmem, -⟩ := findRequest_eq_some hr
    have hid : r'.requestId = r.requestId := BlockManager.insertComputedPrefix_requestId hins
    obtain ⟨rest, hperm, -⟩ := c.stakes_update hmem (fun q => q)
    obtain ⟨leak', ha⟩ :=
      (c.accounts.perm (hperm.append_right lost)).insertComputedPrefix (hcf r hr) hins
    refine ⟨leak', c.replace hmem fun rest' hperm' => ?_⟩
    have hrest : rest.Perm rest' := (hperm.symm.trans hperm').cons_inv
    have hstake : r'.stake =
        Request.stake { r with cachedPrefixNodes := r'.cachedPrefixNodes } := by
      rw [Request.stake, Request.stake, hid]
    rw [← hstake]
    exact ha.perm ((hrest.append_right lost).cons _)

end Accounted

/-! ## Consistent schedulers -/

/-- The queues are in order, the accounts are those of `running`, and a request that waits
holds nothing. -/
structure Consistent (s : Scheduler) (leak : NodeId → ℕ) : Prop extends InOrder s where
  accounts : Accounts s.blockManager (stakes s.running) leak
  uncached : ∀ r ∈ s.waiting, r.cachedPrefixNodes = []

namespace Consistent
variable {s s' : Scheduler} {leak : NodeId → ℕ}

theorem accounted (c : Consistent s leak) : Accounted s [] leak where
  accounts := by simpa using c.accounts
  uncached := c.uncached

theorem of_accounted (o : InOrder s) (c : Accounted s [] leak) : Consistent s leak where
  toInOrder := o
  accounts := by simpa using c.accounts
  uncached := c.uncached

theorem new (cache : CacheConfig) (config : SchedulerConfig)
    (hashFn : Option BlockHash → List Token → BlockHash) :
    Consistent (.new cache config hashFn) fun _ => 0 where
  ids := rfl
  nodup := List.nodup_nil
  accounts := .new cache hashFn
  uncached := by simp [Scheduler.new]

theorem addRequest {r : Request} (c : Consistent s leak) (hr : r.cachedPrefixNodes = [])
    (h : s.addRequest r = .ok s') : Consistent s' leak :=
  .of_accounted (c.toInOrder.addRequest h).1 (c.accounted.addRequest hr h)

/-- Mutating running requests without touching their ids and holds. -/
theorem updateRunning (c : Consistent s leak) (f : Request → Request)
    (hf : ∀ r ∈ s.running, (f r).stake = r.stake) :
    Consistent { s with running := s.running.map f } leak :=
  .of_accounted (c.toInOrder.updateRunning f fun r hr => congrArg Prod.fst (hf r hr))
    (c.accounted.updateRunning f hf)

theorem runningSteps (c : Consistent s leak) {pending : List Request} {p : RunningPass}
    (h : ReflTransGen RunningStep (s.running, s.runningPass) (pending, p)) :
    Accounts p.blockManager (stakes (p.scheduled ++ pending)) leak ∧
      ∀ r ∈ p.waiting, r.cachedPrefixNodes = [] := by
  simpa using c.accounted.runningSteps h

theorem scheduleRunning_returns (c : Consistent s leak) : ∃ p, s.scheduleRunning = .ok p :=
  c.accounted.scheduleRunning_returns

theorem schedule_moves (c : Consistent s leak) {out : SchedulerOutput}
    (h : s.schedule = .ok (s', out)) :
    ReflTransGen BlockMove (s.blockManager, stakes s.running)
      (s'.blockManager, stakes s'.running) :=
  c.accounted.schedule_moves h

theorem schedule (c : Consistent s leak) {out : SchedulerOutput}
    (h : s.schedule = .ok (s', out)) : Consistent s' leak :=
  .of_accounted (c.toInOrder.schedule h).1 (c.accounted.schedule h)

/-- Sweeping out the finished requests succeeds and leaves the others. -/
theorem freeFinishedRequests (c : Consistent s leak) : ∃ bm,
    s.freeFinishedRequests = .ok ({ s with
        blockManager := bm
        running := s.running.filter fun r => ¬ r.isFinished
        requests := s.requests.filter fun id =>
          id ∉ (s.running.filter Request.isFinished).map Request.requestId },
      (s.running.filter Request.isFinished).map fun r => { r with cachedPrefixNodes := [] }) ∧
    ReflTransGen BlockMove (s.blockManager, stakes s.running)
      (bm, stakes (s.running.filter fun r => ¬ r.isFinished)) ∧
    Consistent { s with
        blockManager := bm
        running := s.running.filter fun r => ¬ r.isFinished
        requests := s.requests.filter fun id =>
          id ∉ (s.running.filter Request.isFinished).map Request.requestId } leak := by
  obtain ⟨bm, hrun, hmoves⟩ := c.accounted.freeFinishedRequests
  exact ⟨bm, hrun, hmoves, (c.toInOrder.freeFinishedRequests hrun).1, c.accounts.moves hmoves,
    c.uncached⟩

/-- Aborting succeeds: it drops from `waiting`, marks in `running` and sweeps. -/
theorem abortRequests (c : Consistent s leak) (ids : List RequestId) : ∃ bm,
    s.abortRequests ids = .ok ({ s.markAborted ids with
        blockManager := bm
        running := (s.markAborted ids).running.filter fun r => ¬ r.isFinished
        requests := (s.markAborted ids).requests.filter fun id =>
          id ∉ ((s.markAborted ids).running.filter Request.isFinished).map Request.requestId },
      (s.waiting.filter fun r => r.requestId ∈ ids).map
          (fun r => { r with status := .finishedAborted }) ++
        ((s.markAborted ids).running.filter Request.isFinished).map
          fun r => { r with cachedPrefixNodes := [] }) ∧
    ReflTransGen BlockMove (s.blockManager, stakes s.running)
      (bm, stakes ((s.markAborted ids).running.filter fun r => ¬ r.isFinished)) ∧
    Consistent { s.markAborted ids with
        blockManager := bm
        running := (s.markAborted ids).running.filter fun r => ¬ r.isFinished
        requests := (s.markAborted ids).requests.filter fun id =>
          id ∉ ((s.markAborted ids).running.filter Request.isFinished).map Request.requestId }
            leak := by
  obtain ⟨bm, habort, hmoves⟩ := c.accounted.abortRequests ids
  exact ⟨bm, habort, hmoves, (c.toInOrder.abortRequests habort).1, c.accounts.moves hmoves,
    fun r hr => c.uncached r (List.mem_filter.mp hr).1⟩

end Consistent

/-! ## Runs -/

/-- A registration in this state clashes with no hash in use. -/
def Scheduler.ClashFree (s : Scheduler) : SchedulerCall → Prop
  | .insertComputedPrefix id => ∀ r, s.findRequest id = some r → s.blockManager.ClashFree r
  | _ => True

instance (s : Scheduler) : (c : SchedulerCall) → Decidable (s.ClashFree c)
  | .insertComputedPrefix id => inferInstanceAs (Decidable (∀ r ∈ s.findRequest id, _))
  | .addRequest .. | .schedule | .commit .. | .freeFinishedRequests | .abortRequests _ =>
    inferInstanceAs (Decidable True)

theorem Accounted.perform {s s' : Scheduler} {lost : List Stake} {leak : NodeId → ℕ}
    (c : Accounted s lost leak)
    {call : SchedulerCall} (hp : call.Permitted) (hcf : s.ClashFree call) {gone : List Request}
    (h : s.perform call = .ok (s', gone)) : ∃ leak', Accounted s' lost leak' := by
  cases call with
  | addRequest id promptTokenIds params =>
    obtain ⟨s₁, hadd, hret⟩ := bind_eq_ok.mp h
    cases hret
    exact ⟨leak, c.addRequest rfl hadd⟩
  | schedule =>
    obtain ⟨⟨s₁, out⟩, hs, hret⟩ := bind_eq_ok.mp h
    cases hret
    exact ⟨leak, c.schedule hs⟩
  | commit id f =>
    cases h
    refine ⟨leak, c.updateRequest id f fun r _ _ => ?_⟩
    rw [Request.stake, Request.stake, (hp r).1, (hp r).2.2]
  | insertComputedPrefix id =>
    obtain ⟨s₁, hs, hret⟩ := bind_eq_ok.mp h
    cases hret
    exact c.registerPrefix hcf hs
  | freeFinishedRequests =>
    obtain ⟨bm, hfree, hmoves⟩ := c.freeFinishedRequests
    cases hfree.symm.trans h
    exact ⟨leak, c.accounts.moves (BlockMove.all_beside hmoves lost), c.uncached⟩
  | abortRequests ids =>
    obtain ⟨bm, habort, hmoves⟩ := c.abortRequests ids
    cases habort.symm.trans h
    exact ⟨leak, c.accounts.moves (BlockMove.all_beside hmoves lost),
      fun r hr => c.uncached r (List.mem_filter.mp hr).1⟩

theorem Consistent.perform {s s' : Scheduler} {leak : NodeId → ℕ} (c : Consistent s leak)
    {call : SchedulerCall} (hp : call.Permitted) (hcf : s.ClashFree call) {gone : List Request}
    (h : s.perform call = .ok (s', gone)) : ∃ leak', Consistent s' leak' := by
  obtain ⟨leak', ha⟩ := c.accounted.perform hp hcf h
  exact ⟨leak', .of_accounted (c.toInOrder.perform hp h).1 ha⟩

theorem Scheduler.Run.consistent {cache : CacheConfig} {config : SchedulerConfig}
    {hashFn : Option BlockHash → List Token → BlockHash} {s : Scheduler} {live : List RequestId}
    (h : Run ClashFree (.new cache config hashFn) s live) : ∃ leak, Consistent s leak := by
  induction h with
  | start => exact ⟨_, .new cache config hashFn⟩
  | call c _ hp hm hc ih =>
    obtain ⟨leak, hs⟩ := ih
    exact hs.perform hp hm hc

end LightServe
