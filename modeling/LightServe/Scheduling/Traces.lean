import LightServe.Memory.Operations
import LightServe.Scheduling.Passes
import Mathlib.Algebra.BigOperators.Group.List.Basic
import Mathlib.Algebra.Ring.Int.Defs
import Mathlib.Data.List.Forall2

/-!
# What a step decides

The running pass splits `running` into the requests it decided, in order, and the victims at
the end of the list; the waiting pass admits a prefix of `waiting`. `RunningTrace` and
`WaitingTrace` say so with every number of the pass: who got how many tokens, under which
budget, and what each request object is afterwards.

## Main definitions

* `Decision` — what the running pass did with a request it kept.
* `RunningTrace`, `WaitingTrace` — the state of the passes, told by their decisions.
* `RunningTrace.of_steps`, `WaitingTrace.of_steps` — every run of the passes is one of these.
-/

namespace LightServe

open Relation (ReflTransGen)
open Scheduler

/-- What the running pass decided about a request it kept: the chunk it granted, if any. -/
structure Decision where
  request : Request
  grant : Option ℤ

namespace Decision

/-- The request after the decision. -/
def result (d : Decision) : Request :=
  match d.grant with
  | none => d.request
  | some c => { d.request with numComputedTokens := (d.request.numComputedTokens + c).toNat }

/-- The decision's slice of the output. -/
def slice (d : Decision) : Option ScheduledRequest :=
  d.grant.map fun c => ⟨d.request.requestId, c.toNat⟩

/-- The budget that some decisions leave. -/
def left (budget : ℤ) (plan : List Decision) : ℤ :=
  budget - (plan.map fun d => d.grant.getD 0).sum

@[simp] theorem result_requestId (d : Decision) : d.result.requestId = d.request.requestId := by
  unfold result; split <;> rfl

@[simp] theorem result_promptTokenIds (d : Decision) :
    d.result.promptTokenIds = d.request.promptTokenIds := by
  unfold result; split <;> rfl

@[simp] theorem result_draftTokenIds (d : Decision) :
    d.result.draftTokenIds = d.request.draftTokenIds := by
  unfold result; split <;> rfl

@[simp] theorem left_nil (budget : ℤ) : left budget [] = budget := by simp [left]

theorem left_concat (budget : ℤ) (plan : List Decision) (d : Decision) :
    left budget (plan ++ [d]) = left budget plan - d.grant.getD 0 := by
  simp only [left, List.map_append, List.sum_append, List.map_cons, List.map_nil,
    List.sum_singleton]
  omega

/-- What the pass may do with a request when `budget` is left. -/
def Sound (budget : ℤ) (d : Decision) : Prop :=
  match d.grant with
  | none => numNew d.request ≤ 0 ∨ budget ≤ 0
  | some c => 0 < numNew d.request ∧ 0 < budget ∧ c = chunk d.request budget

end Decision

/-- The request object after its preemption. -/
def Bumped (v v' : Request) : Prop :=
  ∃ nodes, v' = { v with cachedPrefixNodes := nodes, numComputedTokens := 0, status := .preempted }

/-- The running pass has decided `plan` and bumped `victims`, the last ones first. -/
structure RunningTrace (s : Scheduler) (plan : List Decision) (victims pending : List Request)
    (p : RunningPass) : Prop where
  running : s.running = plan.map Decision.request ++ pending ++ victims
  scheduled : p.scheduled = plan.map Decision.result
  output : p.output =
    { scheduledRunning := plan.filterMap Decision.slice
      preempted := victims.reverse.map Request.requestId }
  waiting : ∃ bumped, List.Forall₂ Bumped victims bumped ∧ p.waiting = bumped ++ s.waiting
  budget : p.tokenBudget = Decision.left s.schedulerConfig.maxNumBatchedTokens plan
  sound : ∀ pre d post, plan = pre ++ d :: post →
    d.Sound (Decision.left s.schedulerConfig.maxNumBatchedTokens pre)

/-- All that `free` does to the request object is to its prefix nodes. -/
theorem BlockManager.free_request {bm bm' : BlockManager} {r r' : Request}
    (h : bm.free r = .ok (bm', r')) : ∃ nodes, r' = { r with cachedPrefixNodes := nodes } := by
  unfold BlockManager.free at h
  split at h
  · cases h; exact ⟨_, rfl⟩
  · dsimp only at h
    split at h
    · cases h; exact ⟨_, rfl⟩
    · obtain ⟨t, -, hret⟩ := bind_eq_ok.mp h
      cases hret
      exact ⟨_, rfl⟩

/-- Allocating for a request that was just looked up gives it the nodes of its match. -/
theorem BlockManager.allocate_request {bm bm' : BlockManager} {r r' : Request}
    (h : bm.allocate r (bm.matchPrefix r.promptTokenIds) = .ok (bm', r')) :
    r' = r.holding (bm.matchPrefix r.promptTokenIds) ∧
      bm'.prefixCache.isSome = bm.prefixCache.isSome := by
  obtain ⟨-, t, freed, -, -, hres⟩ := (bm.allocate_eq_ok_iff r _).mp h
  cases hres
  exact ⟨rfl, evicted_isSome bm t freed⟩

namespace RunningTrace
variable {s : Scheduler} {plan : List Decision} {victims pending pending' : List Request}
  {p p' : RunningPass}

theorem start (s : Scheduler) : RunningTrace s [] [] s.running s.runningPass where
  running := by simp
  scheduled := rfl
  output := rfl
  waiting := ⟨[], .nil, rfl⟩
  budget := by simp [runningPass]
  sound pre d post h := by simp at h

theorem bumped_of_preempt {v : Request} (h : p.preempt v = .ok p') : ∃ v', Bumped v v' ∧
    p'.waiting = v' :: p.waiting ∧ p'.scheduled = p.scheduled ∧
    p'.output = { p.output with preempted := p.output.preempted ++ [v.requestId] } ∧
    p'.tokenBudget = p.tokenBudget := by
  obtain ⟨⟨bm, r⟩, hfree, hret⟩ := bind_eq_ok.mp h
  obtain ⟨nodes, rfl⟩ := BlockManager.free_request hfree
  cases hret
  exact ⟨_, ⟨nodes, rfl⟩, rfl, rfl, rfl, rfl⟩

/-- A decision about the first pending request extends the plan. -/
theorem decide (h : RunningTrace s plan victims (d.request :: pending) p)
    (hsound : d.Sound p.tokenBudget) (hscheduled : p'.scheduled = p.scheduled ++ [d.result])
    (houtput : p'.output = { p.output with
      scheduledRunning := p.output.scheduledRunning ++ d.slice.toList })
    (hwaiting : p'.waiting = p.waiting)
    (hbudget : p'.tokenBudget = p.tokenBudget - d.grant.getD 0) :
    RunningTrace s (plan ++ [d]) victims pending p' where
  running := by simp [h.running]
  scheduled := by simp [hscheduled, h.scheduled]
  output := by
    rw [houtput, h.output, List.filterMap_append]
    cases hd : d.slice <;> simp [hd]
  waiting := by rw [hwaiting]; exact h.waiting
  budget := by rw [hbudget, h.budget, Decision.left_concat]
  sound pre e post heq := by
    rcases List.eq_nil_or_concat post with rfl | ⟨post, e', rfl⟩
    · obtain ⟨rfl, he⟩ := List.append_inj' heq rfl
      cases he
      rw [← h.budget]
      exact hsound
    · rw [List.concat_eq_append, ← List.cons_append, ← List.append_assoc] at heq
      obtain ⟨heq, -⟩ := List.append_inj' heq rfl
      exact h.sound pre e post heq

/-- A victim leaves the end of the pending requests. -/
theorem bump {v : Request} (h : RunningTrace s plan victims (pending ++ [v]) p)
    (hv : p.preempt v = .ok p') : RunningTrace s plan (v :: victims) pending p' := by
  obtain ⟨v', hbumped, hwaiting, hscheduled, houtput, hbudget⟩ := bumped_of_preempt hv
  obtain ⟨bumped, hall, hw⟩ := h.waiting
  refine ⟨by simp [h.running], by rw [hscheduled, h.scheduled], ?_,
    ⟨v' :: bumped, .cons hbumped hall, by rw [hwaiting, hw]; rfl⟩, by rw [hbudget, h.budget],
    h.sound⟩
  rw [houtput, h.output]
  simp

theorem step (h : RunningTrace s plan victims pending p)
    (hs : RunningStep (pending, p) (pending', p')) :
    ∃ plan' victims', RunningTrace s plan' victims' pending' p' := by
  cases hs with
  | @skip r _ _ hskip =>
    refine ⟨plan ++ [⟨r, none⟩], victims, ?_⟩
    refine decide (p := p) (d := ⟨r, none⟩) h (not_not.mp hskip) rfl ?_ rfl ?_
    · simp [Decision.slice]
    · simp
  | bump _ _ hp =>
    rw [← List.cons_append] at h
    exact ⟨plan, _, h.bump hp⟩
  | yield _ _ hp => exact ⟨plan, _, bump h hp⟩
  | @grant r _ _ _ hdue _ hp =>
    obtain ⟨bm, -, hret⟩ := bind_eq_ok.mp hp
    cases hret
    refine ⟨plan ++ [⟨r, some (chunk r p.tokenBudget)⟩], victims, ?_⟩
    refine decide (p := p) (d := ⟨r, some (chunk r p.tokenBudget)⟩) h ?_ rfl ?_ rfl ?_
    · unfold Due at hdue
      exact ⟨lt_of_not_ge fun h => hdue (.inl h), lt_of_not_ge fun h => hdue (.inr h), rfl⟩
    · simp [Decision.slice]
    · simp

theorem of_steps (h : ReflTransGen RunningStep (s.running, s.runningPass) (pending, p)) :
    ∃ plan victims, RunningTrace s plan victims pending p :=
  inv_of_runningSteps (fun pending p => ∃ plan victims, RunningTrace s plan victims pending p)
    (fun ⟨_, _, h⟩ hs => h.step hs) h ⟨[], [], start s⟩

/-- Nobody joins the waiting requests unless somebody is bumped. -/
theorem waiting_eq (h : ReflTransGen RunningStep (s.running, s.runningPass) ([], p))
    (hpre : p.output.preempted = []) : p.waiting = s.waiting := by
  obtain ⟨plan, victims, tr⟩ := of_steps h
  obtain ⟨bumped, hall, hw⟩ := tr.waiting
  have hnil : victims = [] := by
    rw [tr.output] at hpre
    simpa using hpre
  subst hnil
  cases hall
  exact hw

end RunningTrace

/-! ## The waiting pass -/

/-- An admission: the request as it waited, its match and its first chunk. -/
structure Admission where
  request : Request
  found : Option PrefixMatch
  chunk : ℤ

namespace Admission

/-- The request once it runs. -/
def result (a : Admission) : Request :=
  { a.request.holding a.found with
    status := .running
    numComputedTokens := (seededTokens a.request a.found + a.chunk).toNat }

def slice (a : Admission) : ScheduledRequest := ⟨a.request.requestId, a.chunk.toNat⟩

@[simp] theorem result_requestId (a : Admission) : a.result.requestId = a.request.requestId := rfl

/-- What the pass may admit when `budget` is left. -/
def Sound (budget : ℤ) (a : Admission) : Prop :=
  0 < budget ∧ a.chunk = min ((a.request.getLen : ℤ) - seededTokens a.request a.found) budget

/-- The budget that some admissions leave. -/
def left (budget : ℤ) (as : List Admission) : ℤ := budget - (as.map Admission.chunk).sum

@[simp] theorem left_nil (budget : ℤ) : left budget [] = budget := by simp [left]

theorem left_concat (budget : ℤ) (as : List Admission) (a : Admission) :
    left budget (as ++ [a]) = left budget as - a.chunk := by
  simp only [left, List.map_append, List.sum_append, List.map_cons, List.map_nil,
    List.sum_singleton]
  omega

end Admission

/-- The admission that the waiting pass considers for `r`. -/
def Admission.of (q : WaitingPass) (r : Request) : Admission where
  request := r
  found := q.blockManager.matchPrefix r.promptTokenIds
  chunk := min ((r.getLen : ℤ) - seededTokens r (q.blockManager.matchPrefix r.promptTokenIds))
    q.tokenBudget

/-- The pass after an admission that left the block manager `bm`. -/
def Admission.seat (a : Admission) (q : WaitingPass) (bm : BlockManager) : WaitingPass where
  blockManager := bm
  running := q.running ++ [a.result]
  scheduledNew := q.scheduledNew ++ [a.slice]
  tokenBudget := q.tokenBudget - a.chunk
  cacheHitContextBudget := q.cacheHitContextBudget - matchedTokens a.found

/-- The waiting pass has admitted `as`, the first requests of `start`, beginning from `q₀`. -/
structure WaitingTrace (c : SchedulerConfig) (start : List Request) (q₀ : WaitingPass)
    (as : List Admission) (waiting : List Request) (q : WaitingPass) : Prop where
  waiting : start = as.map Admission.request ++ waiting
  running : q.running = q₀.running ++ as.map Admission.result
  scheduledNew : q.scheduledNew = q₀.scheduledNew ++ as.map Admission.slice
  budget : q.tokenBudget = Admission.left q₀.tokenBudget as
  found : ∀ a ∈ as, a.found.isSome = q₀.blockManager.prefixCache.isSome
  caching : q.blockManager.prefixCache.isSome = q₀.blockManager.prefixCache.isSome
  sound : ∀ pre a post, as = pre ++ a :: post → a.Sound (Admission.left q₀.tokenBudget pre)

namespace WaitingTrace
variable {c : SchedulerConfig} {start waiting waiting' : List Request} {q₀ q q' : WaitingPass}
  {as : List Admission}

theorem begin (c : SchedulerConfig) (start : List Request) (q₀ : WaitingPass) :
    WaitingTrace c start q₀ [] start q₀ where
  waiting := rfl
  running := by simp
  scheduledNew := by simp
  budget := by simp
  found := by simp
  caching := rfl
  sound pre a post h := by simp at h

/-- What an admission that returned did. -/
theorem admit_eq {r : Request}
    (h : q.enter r (q.blockManager.matchPrefix r.promptTokenIds) = .ok q') :
    ∃ bm, q.blockManager.allocate r (q.blockManager.matchPrefix r.promptTokenIds) =
        .ok (bm, r.holding (q.blockManager.matchPrefix r.promptTokenIds)) ∧
      bm.prefixCache.isSome = q.blockManager.prefixCache.isSome ∧
      q' = (Admission.of q r).seat q bm := by
  obtain ⟨⟨bm, r'⟩, halloc, hret⟩ := bind_eq_ok.mp h
  obtain ⟨rfl, hcaching⟩ := BlockManager.allocate_request halloc
  cases hret
  exact ⟨bm, halloc, hcaching, rfl⟩

theorem step (h : WaitingTrace c start q₀ as waiting q)
    (hs : WaitingStep c (waiting, q) (waiting', q')) :
    ∃ a, WaitingTrace c start q₀ (as ++ [a]) waiting' q' := by
  cases hs with
  | @enter r _ _ _ hadm hq =>
    obtain ⟨bm, -, hcaching, rfl⟩ := admit_eq hq
    simp only [admissible, decide_eq_true_eq, not_le] at hadm
    refine ⟨Admission.of q r, ?_, ?_, ?_, ?_, ?_, ?_, ?_⟩
    · simp [h.waiting, Admission.of]
    · simp [Admission.seat, h.running]
    · simp [Admission.seat, h.scheduledNew]
    · rw [Admission.left_concat, ← h.budget]
      rfl
    · intro a ha
      rcases List.mem_append.mp ha with ha | ha
      · exact h.found a ha
      · rw [List.mem_singleton.mp ha, ← h.caching]
        simp [Admission.of, BlockManager.matchPrefix]
    · exact hcaching.trans h.caching
    · intro pre a post heq
      rcases List.eq_nil_or_concat post with rfl | ⟨post, a', rfl⟩
      · obtain ⟨rfl, ha⟩ := List.append_inj' heq rfl
        cases ha
        rw [← h.budget]
        exact ⟨hadm.2.1, rfl⟩
      · rw [List.concat_eq_append, ← List.cons_append, ← List.append_assoc] at heq
        obtain ⟨heq, -⟩ := List.append_inj' heq rfl
        exact h.sound pre a post heq

theorem of_steps (h : ReflTransGen (WaitingStep c) (start, q₀) (waiting, q)) :
    ∃ as, WaitingTrace c start q₀ as waiting q := by
  suffices ∀ x, ReflTransGen (WaitingStep c) (start, q₀) x →
      ∃ as, WaitingTrace c start q₀ as x.1 x.2 from this _ h
  intro x hx
  induction hx with
  | refl => exact ⟨[], begin c start q₀⟩
  | tail _ hs ih =>
    obtain ⟨as, has⟩ := ih
    obtain ⟨a, ha⟩ := has.step hs
    exact ⟨as ++ [a], ha⟩

end WaitingTrace

/-! ## The step -/

/-- What a step from `s` to `s'` decided: a plan for the running requests it kept, the victims,
and the admissions. -/
structure StepTrace (s s' : Scheduler) (out : SchedulerOutput) (plan : List Decision)
    (victims : List Request) (as : List Admission) : Prop where
  running : s.running = plan.map Decision.request ++ victims
  running' : s'.running = plan.map Decision.result ++ as.map Admission.result
  waiting : ∃ bumped, List.Forall₂ Bumped victims bumped ∧
    bumped ++ s.waiting = as.map Admission.request ++ s'.waiting
  admits : victims ≠ [] → as = []
  scheduledNew : out.scheduledNew = as.map Admission.slice
  scheduledRunning : out.scheduledRunning = plan.filterMap Decision.slice
  preempted : out.preempted = victims.reverse.map Request.requestId
  plan_sound : ∀ pre d post, plan = pre ++ d :: post →
    d.Sound (Decision.left s.schedulerConfig.maxNumBatchedTokens pre)
  admissions_sound : ∀ pre a post, as = pre ++ a :: post →
    a.Sound (Admission.left (Decision.left s.schedulerConfig.maxNumBatchedTokens plan) pre)
  found : ∀ a ∈ as, a.found.isSome = s'.blockManager.prefixCache.isSome
  schedulerConfig : s'.schedulerConfig = s.schedulerConfig
  requests : s'.requests = s.requests

theorem StepTrace.of_schedule {s s' : Scheduler} {out : SchedulerOutput}
    (h : s.schedule = .ok (s', out)) : ∃ plan victims as, StepTrace s s' out plan victims as := by
  obtain ⟨p, hp, hcases⟩ := schedule_cases h
  obtain ⟨plan, victims, tr⟩ := RunningTrace.of_steps hp
  have hrunning := tr.running
  rw [List.append_nil] at hrunning
  obtain ⟨bumped, hall, hwaiting⟩ := tr.waiting
  rcases hcases with ⟨-, rfl, rfl⟩ | ⟨hpre, waiting, q, hq, -, rfl, rfl⟩
  · exact ⟨plan, victims, [], hrunning, by simp [tr.scheduled], ⟨bumped, hall, by simp [hwaiting]⟩,
      fun _ => rfl, by simp [tr.output], by simp [tr.output], by simp [tr.output], tr.sound,
      fun pre a post h => by simp at h, by simp, rfl, rfl⟩
  · obtain ⟨as, wt⟩ := WaitingTrace.of_steps hq
    have hnil : victims = [] := by
      rw [tr.output] at hpre
      simpa using hpre
    refine ⟨plan, victims, as, hrunning, ?_, ⟨bumped, hall, by rw [← hwaiting, wt.waiting]⟩,
      fun h => absurd hnil h, ?_, by simp [tr.output], by simp [tr.output], tr.sound, ?_,
      fun a ha => (wt.found a ha).trans wt.caching.symm, rfl, rfl⟩
    · show q.running = _
      rw [wt.running, ← tr.scheduled]
      rfl
    · show q.scheduledNew = _
      rw [wt.scheduledNew]
      rfl
    · have hleft : (waitingPass s.schedulerConfig p).tokenBudget =
          Decision.left s.schedulerConfig.maxNumBatchedTokens plan := tr.budget
      rw [← hleft]
      exact wt.sound

/-- What a request keeps in a schedule is told of the queues in one order before and after:
victims go back where they came from, and whoever is admitted was first. -/
theorem StepTrace.map_queues {α : Type*} {f : Request → α} {s s' : Scheduler}
    {out : SchedulerOutput} {plan : List Decision} {victims : List Request} {as : List Admission}
    (t : StepTrace s s' out plan victims as) (hbump : ∀ {v v'}, Bumped v v' → f v' = f v)
    (hplan : ∀ d : Decision, f d.result = f d.request)
    (hnew : ∀ a : Admission, f a.result = f a.request) :
    (s'.running ++ s'.waiting).map f = (s.running ++ s.waiting).map f := by
  obtain ⟨bumped, hall, hwaiting⟩ := t.waiting
  have hvictims : bumped.map f = victims.map f := by
    clear hwaiting t
    induction hall with
    | nil => rfl
    | cons hv _ ih => rw [List.map_cons, List.map_cons, hbump hv, ih]
  calc (s'.running ++ s'.waiting).map f
      = plan.map (f ∘ Decision.request) ++ (as.map Admission.request ++ s'.waiting).map f := by
        rw [t.running']
        simp only [List.map_append, List.map_map, List.append_assoc, Function.comp_def, hplan, hnew]
    _ = plan.map (f ∘ Decision.request) ++ (victims.map f ++ s.waiting.map f) := by
        rw [← hwaiting, List.map_append, hvictims]
    _ = (s.running ++ s.waiting).map f := by
        rw [t.running]
        simp only [List.map_append, List.map_map, List.append_assoc]

end LightServe
