import LightServe.Engine.Scheduler
import LightServe.Lib.Except
import Mathlib.Logic.Relation

/-!
# The passes of a step

The two loops of `schedule` as transition systems over their mutable state. A claim about
every decision of a step is proved for one transition and carried along the loop.

## Main definitions

* `RunningStep` — one decision of the running pass.
* `WaitingStep` — one admission.
* `scheduleRunning_steps`, `waitingLoop_steps` — the loops are runs of these.
* `schedule_cases` — what a step that returned did.
* `runningLoop_returns`, `waitingLoop_returns_iff` — when the loops return.
-/

namespace LightServe

open Relation (ReflTransGen)

/-- A request that the running pass wants to serve. -/
def Due (p : Scheduler.RunningPass) (r : Request) : Prop :=
  ¬ (Scheduler.numNew r ≤ 0 ∨ p.tokenBudget ≤ 0)

open Scheduler in
/-- One decision of the running pass, which still has a list of requests to decide. -/
inductive RunningStep : List Request × RunningPass → List Request × RunningPass → Prop
  /-- Nothing to compute, or no budget: the request stays as it is. -/
  | skip {r : Request} {pending : List Request} {p : RunningPass} (h : ¬ Due p r) :
      RunningStep (r :: pending, p) (pending, { p with scheduled := p.scheduled ++ [r] })
  /-- The last pending request makes room for the first. -/
  | bump {r v : Request} {pending : List Request} {p p' : RunningPass} (h : Due p r)
      (hfit : fits p.blockManager r (chunk r p.tokenBudget) = false)
      (hp : p.preempt v = .ok p') : RunningStep (r :: (pending ++ [v]), p) (r :: pending, p')
  /-- The last request left makes room itself. -/
  | yield {r : Request} {p p' : RunningPass} (h : Due p r)
      (hfit : fits p.blockManager r (chunk r p.tokenBudget) = false)
      (hp : p.preempt r = .ok p') : RunningStep ([r], p) ([], p')
  /-- The request gets its chunk. -/
  | grant {r : Request} {pending : List Request} {p p' : RunningPass} (h : Due p r)
      (hfit : fits p.blockManager r (chunk r p.tokenBudget) = true)
      (hp : p.grant r (chunk r p.tokenBudget) = .ok p') :
      RunningStep (r :: pending, p) (pending, p')

open Scheduler in
/-- One admission of the waiting pass. -/
inductive WaitingStep (c : SchedulerConfig) :
    List Request × WaitingPass → List Request × WaitingPass → Prop
  | enter {r : Request} {waiting : List Request} {q q' : WaitingPass}
      (h : admissible c q r (q.blockManager.matchPrefix r.promptTokenIds) = true)
      (hq : q.enter r (q.blockManager.matchPrefix r.promptTokenIds) = .ok q') :
      WaitingStep c (r :: waiting, q) (waiting, q')

namespace Scheduler

/-- The running pass starts from the state and the whole token budget. -/
def runningPass (s : Scheduler) : RunningPass where
  blockManager := s.blockManager
  waiting := s.waiting
  tokenBudget := s.schedulerConfig.maxNumBatchedTokens

@[simp] theorem preempt_tokenBudget {p p' : RunningPass} {r : Request}
    (h : p.preempt r = .ok p') : p'.tokenBudget = p.tokenBudget := by
  obtain ⟨⟨bm, r'⟩, -, hret⟩ := bind_eq_ok.mp h
  cases hret
  rfl

/-! ## The running pass -/

/-- `makeRoom` bumps from the tail, and ends with room made or the request itself gone. -/
private theorem makeRoom_steps {r : Request} {c : ℤ} {pendingRev pendingRev' : List Request}
    {p p' : RunningPass} {kept : Bool} (hdue : Due p r) (hc : chunk r p.tokenBudget = c)
    (h : makeRoom r c pendingRev p = .ok (kept, pendingRev', p')) :
    (kept = true ∧ pendingRev'.length ≤ pendingRev.length ∧ Due p' r ∧
      chunk r p'.tokenBudget = c ∧ fits p'.blockManager r c = true ∧
      ReflTransGen RunningStep (r :: pendingRev.reverse, p) (r :: pendingRev'.reverse, p')) ∨
    (kept = false ∧ pendingRev' = [] ∧
      ReflTransGen RunningStep (r :: pendingRev.reverse, p) ([], p')) := by
  induction pendingRev generalizing p with
  | nil =>
    rw [makeRoom] at h
    split at h
    · rename_i hfit
      cases h
      exact .inl ⟨rfl, le_rfl, hdue, hc, hfit, .refl⟩
    · rename_i hfit
      obtain ⟨q, hq, hret⟩ := bind_eq_ok.mp h
      cases hret
      refine .inr ⟨rfl, rfl, .single (.yield hdue ?_ hq)⟩
      rw [hc]
      exact Bool.not_eq_true _ ▸ hfit
  | cons v pendingRev ih =>
    rw [makeRoom] at h
    split at h
    · rename_i hfit
      cases h
      exact .inl ⟨rfl, le_rfl, hdue, hc, hfit, .refl⟩
    · rename_i hfit
      obtain ⟨q, hq, hrest⟩ := bind_eq_ok.mp h
      have hbudget := preempt_tokenBudget hq
      have hstep : RunningStep (r :: (v :: pendingRev).reverse, p)
          (r :: pendingRev.reverse, q) := by
        rw [List.reverse_cons]
        exact .bump hdue (by rw [hc]; exact Bool.not_eq_true _ ▸ hfit) hq
      rcases ih (by unfold Due; rwa [hbudget]) (by rwa [hbudget]) hrest with
        ⟨h₁, hlen, h₂, h₃, h₄, hsteps⟩ | ⟨h₁, h₂, hsteps⟩
      · exact .inl ⟨h₁, hlen.trans (Nat.le_succ _), h₂, h₃, h₄, .head hstep hsteps⟩
      · exact .inr ⟨h₁, h₂, .head hstep hsteps⟩

theorem runningLoop_steps {fuel : ℕ} {pending : List Request} {p p' : RunningPass}
    (hfuel : pending.length ≤ fuel) (h : runningLoop fuel pending p = .ok p') :
    ReflTransGen RunningStep (pending, p) ([], p') := by
  induction fuel generalizing pending p with
  | zero =>
    obtain rfl : pending = [] := List.length_eq_zero_iff.mp (Nat.le_zero.mp hfuel)
    cases h
    exact .refl
  | succ fuel ih =>
    cases pending with
    | nil => cases h; exact .refl
    | cons r pending =>
      rw [runningLoop] at h
      have hlen : pending.length ≤ fuel := Nat.le_of_succ_le_succ hfuel
      split at h
      · rename_i hskip
        exact .head (.skip (not_not.mpr hskip)) (ih hlen h)
      · rename_i hdue
        obtain ⟨⟨kept, pendingRev, q⟩, hroom, hrest⟩ := bind_eq_ok.mp h
        rcases makeRoom_steps hdue rfl hroom with
          ⟨rfl, hle, hdue', hc, hfit, hsteps⟩ | ⟨rfl, rfl, hsteps⟩
        · rw [List.reverse_reverse] at hsteps
          obtain ⟨q', hq', hloop⟩ := bind_eq_ok.mp hrest
          rw [← hc] at hfit hq'
          refine hsteps.trans (.head (.grant hdue' hfit hq') (ih ?_ hloop))
          rw [List.length_reverse] at hle ⊢
          exact hle.trans hlen
        · rw [List.reverse_reverse] at hsteps
          exact hsteps.trans (ih (Nat.zero_le _) hrest)

theorem scheduleRunning_steps {s : Scheduler} {p : RunningPass}
    (h : s.scheduleRunning = .ok p) :
    ReflTransGen RunningStep (s.running, s.runningPass) ([], p) :=
  runningLoop_steps le_rfl h

section Returns
variable (Inv : List Request → RunningPass → Prop)
  (hstep : ∀ {pending pending' p p'}, Inv pending p →
    RunningStep (pending, p) (pending', p') → Inv pending' p')
include hstep

theorem inv_of_runningSteps {pending pending' : List Request} {p p' : RunningPass}
    (h : ReflTransGen RunningStep (pending, p) (pending', p')) (hinv : Inv pending p) :
    Inv pending' p' := by
  suffices ∀ x y, ReflTransGen RunningStep x y → Inv x.1 x.2 → Inv y.1 y.2 from this _ _ h hinv
  intro x y hxy hx
  induction hxy with
  | refl => exact hx
  | tail _ hs ih => exact hstep ih hs

variable
  (hpreempt : ∀ {r pending p v}, Inv (r :: pending) p → Due p r →
    fits p.blockManager r (chunk r p.tokenBudget) = false → v ∈ r :: pending →
    ∃ p', p.preempt v = .ok p')
include hpreempt

private theorem makeRoom_returns {r : Request} {c : ℤ} {pendingRev : List Request}
    {p : RunningPass} (hinv : Inv (r :: pendingRev.reverse) p) (hdue : Due p r)
    (hc : chunk r p.tokenBudget = c) : ∃ res, makeRoom r c pendingRev p = .ok res := by
  induction pendingRev generalizing p with
  | nil =>
    rw [makeRoom]
    split
    · exact ⟨_, rfl⟩
    · rename_i hfit
      obtain ⟨p', hp'⟩ := hpreempt hinv hdue (by rw [hc]; exact Bool.not_eq_true _ ▸ hfit)
        List.mem_cons_self
      exact ⟨_, bind_eq_ok.mpr ⟨p', hp', rfl⟩⟩
  | cons v pendingRev ih =>
    rw [makeRoom]
    split
    · exact ⟨_, rfl⟩
    · rename_i hfit
      have hfit : fits p.blockManager r (chunk r p.tokenBudget) = false := by
        rw [hc]
        exact Bool.not_eq_true _ ▸ hfit
      obtain ⟨p', hp'⟩ := hpreempt (v := v) hinv hdue hfit (by simp)
      rw [List.reverse_cons] at hinv
      have hbudget := preempt_tokenBudget hp'
      obtain ⟨res, hres⟩ := ih (hstep hinv (.bump hdue hfit hp')) (by unfold Due; rwa [hbudget])
        (by rwa [hbudget])
      exact ⟨res, bind_eq_ok.mpr ⟨p', hp', hres⟩⟩

/-- The running pass returns when some invariant of its steps lets every preemption and
every reservation it makes succeed. -/
theorem runningLoop_returns
    (hgrant : ∀ {r pending p}, Inv (r :: pending) p → Due p r →
      fits p.blockManager r (chunk r p.tokenBudget) = true →
      ∃ p', p.grant r (chunk r p.tokenBudget) = .ok p')
    {fuel : ℕ} {pending : List Request} {p : RunningPass} (hinv : Inv pending p) :
    ∃ p', runningLoop fuel pending p = .ok p' := by
  induction fuel generalizing pending p with
  | zero => exact ⟨p, rfl⟩
  | succ fuel ih =>
    cases pending with
    | nil => exact ⟨p, rfl⟩
    | cons r pending =>
      rw [runningLoop]
      split
      · rename_i hskip
        exact ih (hstep hinv (.skip (not_not.mpr hskip)))
      · rename_i hdue
        rw [← List.reverse_reverse pending] at hinv
        obtain ⟨⟨kept, pendingRev, q⟩, hroom⟩ := makeRoom_returns Inv hstep hpreempt hinv hdue rfl
        simp only [hroom, ok_bind]
        rcases makeRoom_steps hdue rfl hroom with
          ⟨rfl, -, hdue', hc, hfit, hsteps⟩ | ⟨rfl, rfl, hsteps⟩
        · have hinv' := inv_of_runningSteps Inv hstep hsteps hinv
          rw [← hc] at hfit
          obtain ⟨q', hq'⟩ := hgrant hinv' hdue' hfit
          obtain ⟨p', hp'⟩ := ih (hstep hinv' (.grant hdue' hfit hq'))
          exact ⟨p', bind_eq_ok.mpr ⟨q', hc ▸ hq', hp'⟩⟩
        · exact ih (inv_of_runningSteps Inv hstep hsteps hinv)

end Returns

/-! ## The waiting pass -/

theorem waitingLoop_steps {c : SchedulerConfig} {waiting waiting' : List Request}
    {q q' : WaitingPass} (h : waitingLoop c waiting q = .ok (waiting', q')) :
    ReflTransGen (WaitingStep c) (waiting, q) (waiting', q') ∧
      ∀ r rest, waiting' = r :: rest →
        admissible c q' r (q'.blockManager.matchPrefix r.promptTokenIds) = false := by
  induction waiting generalizing q with
  | nil =>
    cases h
    exact ⟨.refl, by simp⟩
  | cons r waiting ih =>
    simp only [waitingLoop] at h
    split at h
    · rename_i hadm
      obtain ⟨q₁, hq₁, hrest⟩ := bind_eq_ok.mp h
      obtain ⟨hsteps, hstop⟩ := ih hrest
      exact ⟨.head (.enter hadm hq₁) hsteps, hstop⟩
    · rename_i hadm
      cases h
      refine ⟨.refl, fun r' rest heq => ?_⟩
      cases heq
      exact Bool.not_eq_true _ ▸ hadm

/-- The waiting pass returns exactly when every admission it comes to succeeds. -/
theorem waitingLoop_returns_iff {c : SchedulerConfig} {waiting : List Request}
    {q : WaitingPass} : (∃ res, waitingLoop c waiting q = .ok res) ↔
      ∀ r rest q', ReflTransGen (WaitingStep c) (waiting, q) (r :: rest, q') →
        admissible c q' r (q'.blockManager.matchPrefix r.promptTokenIds) = true →
        ∃ q'', q'.enter r (q'.blockManager.matchPrefix r.promptTokenIds) = .ok q'' := by
  induction waiting generalizing q with
  | nil =>
    refine ⟨fun _ r rest q' h => ?_, fun _ => ⟨_, rfl⟩⟩
    rcases Relation.ReflTransGen.cases_head h with heq | ⟨_, hs, -⟩
    · cases heq
    · cases hs
  | cons r waiting ih =>
    simp only [waitingLoop]
    split
    · rename_i hadm
      constructor
      · rintro ⟨res, hres⟩ r' rest q' hsteps hadm'
        obtain ⟨q₁, hq₁, hrest⟩ := bind_eq_ok.mp hres
        rcases Relation.ReflTransGen.cases_head hsteps with heq | ⟨_, hs, hsteps⟩
        · cases heq
          exact ⟨q₁, hq₁⟩
        · cases hs with
          | enter _ hq₂ =>
            cases hq₁.symm.trans hq₂
            exact ih.mp ⟨res, hrest⟩ r' rest q' hsteps hadm'
      · intro hall
        obtain ⟨q₁, hq₁⟩ := hall r waiting q .refl hadm
        obtain ⟨res, hres⟩ := ih.mpr fun r' rest q' hsteps =>
          hall r' rest q' (.head (.enter hadm hq₁) hsteps)
        exact ⟨res, bind_eq_ok.mpr ⟨q₁, hq₁, hres⟩⟩
    · rename_i hadm
      refine ⟨fun _ r' rest q' hsteps hadm' => ?_, fun _ => ⟨_, rfl⟩⟩
      rcases Relation.ReflTransGen.cases_head hsteps with heq | ⟨_, hs, -⟩
      · cases heq
        exact absurd hadm' hadm
      · cases hs with
        | enter h _ => exact absurd h hadm

/-! ## The step -/

/-- What a step that returned did. -/
theorem schedule_cases {s s' : Scheduler} {out : SchedulerOutput}
    (h : s.schedule = .ok (s', out)) : ∃ p,
      ReflTransGen RunningStep (s.running, s.runningPass) ([], p) ∧
      ((p.output.preempted ≠ [] ∧ out = p.output ∧
        s' = { s with
          blockManager := p.blockManager, waiting := p.waiting, running := p.scheduled }) ∨
      (p.output.preempted = [] ∧ ∃ waiting q,
        ReflTransGen (WaitingStep s.schedulerConfig)
          (p.waiting, waitingPass s.schedulerConfig p) (waiting, q) ∧
        (∀ r rest, waiting = r :: rest → admissible s.schedulerConfig q r
          (q.blockManager.matchPrefix r.promptTokenIds) = false) ∧
        out = { p.output with scheduledNew := q.scheduledNew } ∧
        s' = { s with blockManager := q.blockManager, waiting, running := q.running })) := by
  obtain ⟨p, hp, hrest⟩ := bind_eq_ok.mp h
  refine ⟨p, scheduleRunning_steps hp, ?_⟩
  split at hrest
  · rename_i hpre
    cases hrest
    exact .inl ⟨hpre, rfl, rfl⟩
  · rename_i hpre
    obtain ⟨⟨waiting, q⟩, hloop, hret⟩ := bind_eq_ok.mp hrest
    cases hret
    obtain ⟨hsteps, hstop⟩ := waitingLoop_steps hloop
    exact .inr ⟨not_not.mp hpre, waiting, q, hsteps, hstop, rfl, rfl⟩

end Scheduler

end LightServe
