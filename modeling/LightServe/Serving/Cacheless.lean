import LightServe.Memory.Partition
import LightServe.Scheduling.Admission
import LightServe.Serving.Run

/-!
# Without prefix caching

With prefix caching off nothing is registered and nothing is evicted: a schedule always
returns, a step returns when its forward pass does, and between the schedule and the sweep a
request only takes its turn.

## Main definitions

* `Cacheless` — the state of a scheduler that serves without a cache.
* `Cacheless.schedule_returns` — a schedule never raises.
* `Cacheless.step`, `Cacheless.step_returns` — a step keeps it, and when it returns.
-/

namespace LightServe

open Relation (ReflTransGen)
open Scheduler

/-- The queues, the request dictionary and the block manager agree, and there is no cache. -/
structure Cacheless (s : Scheduler) : Prop extends Consistent s fun _ => 0 where
  partition : Partition s.blockManager (stakes s.running)
  cacheless : s.blockManager.prefixCache = none

namespace Cacheless
variable {s s' : Scheduler}

theorem new {cache : CacheConfig} (h : cache.enablePrefixCaching = false) (config : SchedulerConfig)
    (hashFn : Option BlockHash → List Token → BlockHash) :
    Cacheless (.new cache config hashFn) where
  toConsistent := .new cache config hashFn
  partition := .new cache hashFn
  cacheless := by simp [Scheduler.new, BlockManager.new, h]

theorem nodes_eq_nil (c : Cacheless s) {r : Request} (hr : r ∈ s.running) :
    r.cachedPrefixNodes = [] :=
  c.accounts.nodes_eq_nil c.cacheless (List.mem_map_of_mem (f := Request.stake) hr)

theorem addRequest (c : Cacheless s) {r : Request} (hr : r.cachedPrefixNodes = [])
    (h : s.addRequest r = .ok s') : Cacheless s' := by
  refine ⟨c.toConsistent.addRequest hr h, ?_, ?_⟩ <;> unfold Scheduler.addRequest at h <;>
    split at h <;> cases h
  · exact c.partition
  · exact c.cacheless

theorem updateRunning (c : Cacheless s) (f : Request → Request)
    (hf : ∀ r ∈ s.running, (f r).stake = r.stake) :
    Cacheless { s with running := s.running.map f } where
  toConsistent := c.toConsistent.updateRunning f hf
  partition := by
    have : stakes (s.running.map f) = stakes s.running := by
      rw [stakes, List.map_map]
      exact List.map_congr_left hf
    rw [this]
    exact c.partition
  cacheless := c.cacheless

/-! ## The schedule -/

private theorem caching_eq_none {bm bm' : BlockManager} (h : SamePool bm bm')
    (hnone : bm.prefixCache = none) : bm'.prefixCache = none := by
  have := h.caching
  rw [hnone] at this
  simpa using this

theorem schedule (c : Cacheless s) {out : SchedulerOutput} (h : s.schedule = .ok (s', out)) :
    Cacheless s' ∧ SamePool s.blockManager s'.blockManager := by
  have hmoves := c.toConsistent.schedule_moves h
  have hpool := SamePool.of_moves hmoves c.accounts
  exact ⟨⟨c.toConsistent.schedule h, c.partition.moves hmoves, caching_eq_none hpool c.cacheless⟩,
    hpool⟩

/-- What the admission test approves, the free stack has. -/
theorem schedule_returns (c : Cacheless s) : ∃ s' out, s.schedule = .ok (s', out) := by
  obtain ⟨⟨s', out⟩, h⟩ := c.toConsistent.schedule_returns_iff.mpr fun q r hq => by
    obtain ⟨p, rest, hp, hpre, hsteps, hadm⟩ := hq
    obtain ⟨-, hw⟩ := c.toConsistent.runningSteps (scheduleRunning_steps hp)
    have hrun := runningSteps_moves (scheduleRunning_steps hp)
    have hwait := waitingSteps_moves hsteps hw
    rw [List.append_nil] at hrun
    have hpool := SamePool.of_moves (hrun.trans hwait) c.accounts
    have hnone : q.blockManager.prefixCache = none := caching_eq_none hpool c.cacheless
    obtain ⟨-, -, -, halloc⟩ := of_decide_eq_true hadm
    rw [BlockManager.canAllocate, BlockManager.numEvictable, hnone, decide_eq_true_eq,
      Option.map_none, Option.getD_none] at halloc
    unfold BlockManager.Room
    omega
  exact ⟨s', out, h⟩

/-! ## Teardown -/

theorem freeFinishedRequests (c : Cacheless s) {finished : List Request}
    (h : s.freeFinishedRequests = .ok (s', finished)) :
    Cacheless s' ∧ SamePool s.blockManager s'.blockManager := by
  obtain ⟨bm, hfree, hmoves, hc⟩ := c.toConsistent.freeFinishedRequests
  cases hfree.symm.trans h
  have hpool := SamePool.of_moves hmoves c.accounts
  exact ⟨⟨hc, c.partition.moves hmoves, caching_eq_none hpool c.cacheless⟩, hpool⟩

theorem abortRequests (c : Cacheless s) {ids : List RequestId} {gone : List Request}
    (h : s.abortRequests ids = .ok (s', gone)) :
    Cacheless s' ∧ SamePool s.blockManager s'.blockManager ∧
      s'.schedulerConfig = s.schedulerConfig ∧
      s'.running = (s.markAborted ids).running.filter (fun r => ¬ r.isFinished) ∧
      s'.waiting = (s.markAborted ids).waiting := by
  obtain ⟨bm, habort, hmoves, hc⟩ := c.toConsistent.abortRequests ids
  cases habort.symm.trans h
  have hpool := SamePool.of_moves hmoves c.accounts
  exact ⟨⟨hc, c.partition.moves hmoves, caching_eq_none hpool c.cacheless⟩, hpool, rfl, rfl, rfl⟩

end Cacheless

/-! ## The step -/

namespace Cacheless
variable {e : LLMEngine} {s s' s₁ s₂ : Scheduler} {out : SchedulerOutput} {finished : List Request}
  {drafts : Option (RequestId → List Token)}

/-- After its schedule and its forward pass a step sweeps the turned requests. -/
theorem turns (c : Cacheless s) (hq : s.Queued) (h₁ : s.schedule = .ok (s₁, out))
    (h₂ : e.runner.executeModel s₁ out = .ok s₂) : s₂.registerComputed out = .ok s₂ ∧
      correctLoop (s₁.specPreLen out) out.scheduledRunning s₂ =
        { s₁ with running := s₁.running.map (e.turn out) } := by
  obtain ⟨plan, victims, as, t⟩ := StepTrace.of_schedule h₁
  obtain ⟨o₁, -⟩ := c.toInOrder.schedule h₁
  have hnodup := o₁.running_nodup
  have hsched := t.scheduled_nodup o₁
  obtain rfl := e.runner.executeModel_eq hnodup hsched (fun rn hrn => t.placed o₁ hq hrn) h₂
  refine ⟨by rw [registerComputed, show BlockManager.prefixCache _ = none from
    (c.schedule h₁).1.cacheless], ?_⟩
  rw [SchedulerOutput.scheduled, List.map_append] at hsched
  have hrun := @running_correctLoop _ { s₁ with running := s₁.running.map (e.runner.serve out) }
    out hnodup (List.nodup_append.mp hsched).2.1 _
    (fun r => (e.sameRequest_serve out r).requestId) rfl
  rw [correctLoop_eq] at hrun ⊢
  dsimp only at hrun ⊢
  rw [hrun]
  rfl

theorem sweep (c₁ : Cacheless s₁) :
    Cacheless { s₁ with running := s₁.running.map (e.turn out) } := by
  refine c₁.updateRunning _ fun r _ => ?_
  have h := e.sameRequest_turn out r
  rw [Request.stake, Request.stake, h.requestId, h.cachedPrefixNodes]

/-- A step returns when its schedule and its forward pass do. -/
theorem step_returns (c : Cacheless s) (hq : s.Queued) (h₁ : s.schedule = .ok (s₁, out))
    (h₂ : e.runner.executeModel s₁ out = .ok s₂) :
    ∃ s' finished, e.step drafts s = .ok (s', out, finished) := by
  obtain ⟨h₃, h₄⟩ := c.turns hq h₁ h₂
  obtain ⟨bm, hfree, -⟩ := @sweep e s₁ out (c.schedule h₁).1 |>.toConsistent.freeFinishedRequests
  exact ⟨_, _, LLMEngine.step_eq_ok_iff.mpr
    ⟨s₁, s₂, s₂, _, h₁, h₂, h₃, by rw [h₄]; exact hfree, rfl⟩⟩

theorem step (c : Cacheless s) (hq : s.Queued) (h : e.step drafts s = .ok (s', out, finished)) :
    Cacheless s' ∧ SamePool s.blockManager s'.blockManager := by
  obtain ⟨s₁, s₂, s₃, s₅, h₁, h₂, h₃, h₅, rfl⟩ := LLMEngine.step_eq_ok_iff.mp h
  obtain ⟨hreg, h₄⟩ := c.turns hq h₁ h₂
  cases hreg.symm.trans h₃
  rw [h₄] at h₅
  obtain ⟨c₁, hpool₁⟩ := c.schedule h₁
  obtain ⟨c₅, hpool₅⟩ := (sweep c₁).freeFinishedRequests h₅
  rw [proposeIf_eq]
  refine ⟨c₅.updateRunning _ fun r _ => ?_, hpool₁.trans hpool₅⟩
  have hsame := sameRequest_proposed drafts r
  rw [Request.stake, Request.stake, hsame.requestId, hsame.cachedPrefixNodes]

end Cacheless

end LightServe
