import LightServe.Serving.Budgets
import LightServe.Serving.Lossless
import Mathlib.Algebra.BigOperators.Ring.List
import Mathlib.Algebra.Order.BigOperators.Group.List
import Mathlib.Algebra.Ring.Divisibility.Basic

/-!
# Stale drafts

A request that is preempted between its proposal and its verify round keeps the draft. When it
is admitted again the draft may meet its prompt, and the round that follows winds the request
back behind blocks it has already registered. What keeps this from doing harm is the order of
the queues: whoever is served before such a request takes a whole verify round, so that the
budget left for it is a whole number of rounds.

## Main definitions

* `Turn` — what a turn does to a request.
* `StepTrace.complete` — whoever is scheduled comes after requests that were served in full.
* `StaleDrafts` — the invariant.
* `StaleDrafts.step` — a step keeps it.
-/

namespace LightServe

open Scheduler

/-! ## Turns -/

/-- What a turn does to a request that was scheduled for some tokens, perhaps as a verify
round: nothing, a chunk of prompt, new output, or a round undone or kept in part. -/
inductive Turn (r : Request) : Option ℕ → Option ℕ → Request → Prop
  | idle : Turn r none none r
  | prefill {n : ℕ} (h : r.isPrefill = true) : Turn r (some n) none r
  | sample {n : ℕ} {tokens : List Token} (h : r.isPrefill = false) (hne : tokens ≠ []) :
      Turn r (some n) none (r.grown tokens)
  | undo {n : ℕ} (h : r.isPrefill = true) :
      Turn r (some n) (some n) { r with
        numComputedTokens := r.numComputedTokens - n
        draftTokenIds := [] }
  | keep {n : ℕ} {tokens : List Token} (h : r.isPrefill = false) (hne : tokens ≠ []) :
      Turn r (some n) (some n) { r.grown tokens with
        numComputedTokens := r.numComputedTokens - (n - tokens.length)
        draftTokenIds := [] }

theorem LLMEngine.turn_turn (e : LLMEngine) {out : SchedulerOutput} {r : Request}
    (hfin : r.isFinished = false)
    (hround : out.roundOf r = none ∨ out.roundOf r = out.tokensOf r.requestId) :
    Turn r (out.tokensOf r.requestId) (out.roundOf r) (e.turn out r) := by
  cases hn : out.tokensOf r.requestId with
  | none =>
    rw [hn, or_self] at hround
    rw [hround, turn_idle hn hround]
    exact .idle
  | some n =>
    rw [hn] at hround
    rcases hround with hround | hround
    · rw [hround, turn_commit hn hround]
      cases hpre : r.isPrefill with
      | true =>
        rw [ModelRunner.sample, if_pos hpre, commit_nil]
        exact .prefill hpre
      | false =>
        have hne : e.runner.sample r n ≠ [] := by
          unfold ModelRunner.sample
          rw [hpre, if_neg Bool.false_ne_true]
          split
          · exact Decode.verify_ne_nil _ _ _
          · exact List.cons_ne_nil _ _
        rw [commit_eq hfin hne]
        exact .sample hpre hne
    · have hd : r.draftTokenIds ≠ [] := by
        intro hnil
        rw [SchedulerOutput.roundOf_of_undrafted hnil] at hround
        cases hround
      rw [hround]
      cases hpre : r.isPrefill with
      | true =>
        rw [turn_round_prefill hn hround hpre]
        exact .undo hpre
      | false =>
        obtain ⟨j, hpos, -, kept, rfl, -, -, hturn⟩ := turn_verify (e := e) hn hround hpre hd hfin
        rw [hturn]
        exact .keep hpre (List.length_pos_iff.mp hpos)

/-! ## Budgets -/

theorem pairwise_of_split {α : Type*} {R : α → α → Prop} {l : List α}
    (h : ∀ pre x mid y post, l = pre ++ x :: (mid ++ y :: post) → R x y) : l.Pairwise R := by
  induction l with
  | nil => exact .nil
  | cons x l ih =>
    refine .cons (fun y hy => ?_) (ih fun pre x' mid y post heq => ?_)
    · obtain ⟨mid, post, rfl⟩ := List.append_of_mem hy
      exact h [] x mid y post rfl
    · exact h (x :: pre) x' mid y post (by rw [heq]; rfl)

namespace Decision
variable {budget : ℤ} {plan : List Decision} {d : Decision}

theorem Sound.grant_nonneg (h : d.Sound budget) : 0 ≤ d.grant.getD 0 := by
  rcases h.cases with ⟨hg, -⟩ | ⟨n, -, -, hg, -⟩
  · rw [hg, Option.getD_none]
  · rw [hg, Option.getD_some]
    omega

theorem left_append (budget : ℤ) (plan plan' : List Decision) :
    left budget (plan ++ plan') = left (left budget plan) plan' := by
  simp only [left, List.map_append, List.sum_append]
  omega

theorem left_cons (budget : ℤ) (d : Decision) (plan : List Decision) :
    left budget (d :: plan) = left (budget - d.grant.getD 0) plan := by
  simp only [left, List.map_cons, List.sum_cons]
  omega

/-- Decisions never give budget back. -/
theorem left_le (h : ∀ d ∈ plan, 0 ≤ d.grant.getD 0) (budget : ℤ) : left budget plan ≤ budget := by
  have hsum : 0 ≤ (plan.map fun d => d.grant.getD 0).sum := by
    refine List.sum_nonneg fun c hc => ?_
    obtain ⟨d, hd, rfl⟩ := List.mem_map.mp hc
    exact h d hd
  rw [left]
  omega

/-- Where budget is left, a request that was due got all it wanted. -/
theorem Sound.complete (h : d.Sound budget) (hleft : 0 < budget - d.grant.getD 0)
    (hdue : d.request.draftTokenIds = [] → d.request.numComputedTokens < d.request.getLen) :
    d.grant.isSome = true ∧ (d.request.draftTokenIds = [] →
      d.result.numComputedTokens = d.request.getLen) := by
  rcases h.cases with ⟨hg, -, hskip⟩ | ⟨n, -, -, hg, hres, -, hundrafted⟩
  · rw [hg, Option.getD_none] at hleft
    have hnew : 0 < numNew d.request := by
      unfold numNew isSpec
      by_cases hd : d.request.draftTokenIds = []
      · have := hdue hd
        simp only [hd, ne_eq, not_true_eq_false, decide_false, Bool.false_eq_true, if_false,
          Request.getNumNewTokens]
        omega
      · simp only [ne_eq, hd, not_false_eq_true, decide_true, if_true]
        omega
    omega
  · rw [hg, Option.getD_some] at hleft
    refine ⟨by rw [hg]; rfl, fun hd => ?_⟩
    rw [hres]
    rcases (hundrafted hd).2 with hfull | hall
    · exact hfull
    · omega

/-- Whole rounds leave a whole number of rounds. -/
theorem dvd_left {m : ℤ} (h : ∀ d ∈ plan, m ∣ d.grant.getD 0) :
    m ∣ left budget plan ↔ m ∣ budget := by
  have hsum : m ∣ (plan.map fun d => d.grant.getD 0).sum := by
    refine List.dvd_sum fun c hc => ?_
    obtain ⟨d, hd, rfl⟩ := List.mem_map.mp hc
    exact h d hd
  rw [left]
  exact dvd_sub_left hsum

end Decision

namespace Admission
variable {budget : ℤ} {as : List Admission} {a : Admission}

theorem left_append (budget : ℤ) (as as' : List Admission) :
    left budget (as ++ as') = left (left budget as) as' := by
  simp only [left, List.map_append, List.sum_append]
  omega

theorem left_cons (budget : ℤ) (a : Admission) (as : List Admission) :
    left budget (a :: as) = left (budget - a.chunk) as := by
  simp only [left, List.map_cons, List.sum_cons]
  omega

theorem left_le (h : ∀ a ∈ as, 0 ≤ a.chunk) (budget : ℤ) : left budget as ≤ budget := by
  have hsum : 0 ≤ (as.map Admission.chunk).sum := by
    refine List.sum_nonneg fun c hc => ?_
    obtain ⟨a, ha, rfl⟩ := List.mem_map.mp hc
    exact h a ha
  rw [left]
  omega

theorem dvd_left {m : ℤ} (h : ∀ a ∈ as, m ∣ a.chunk) : m ∣ left budget as ↔ m ∣ budget := by
  have hsum : m ∣ (as.map Admission.chunk).sum := by
    refine List.dvd_sum fun c hc => ?_
    obtain ⟨a, ha, rfl⟩ := List.mem_map.mp hc
    exact h a ha
  rw [left]
  exact dvd_sub_left hsum

end Admission

/-! ## Served in full -/

theorem Decision.result_getLen (d : Decision) : d.result.getLen = d.request.getLen := by
  unfold Decision.result
  split <;> rfl

namespace StepTrace
variable {s s' : Scheduler} {out : SchedulerOutput} {plan : List Decision} {victims : List Request}
  {as : List Admission}

/-- Whoever a step served before it still had budget got all it wanted. -/
private theorem complete_decision (t : StepTrace s s' out plan victims as) (o : InOrder s')
    (hdue : ∀ r ∈ s.running, r.draftTokenIds = [] → r.numComputedTokens < r.getLen)
    {pre post : List Decision} {d : Decision} (hplan : plan = pre ++ d :: post)
    (hleft : 0 < Decision.left s.schedulerConfig.maxNumBatchedTokens pre - d.grant.getD 0) :
    (out.tokensOf d.result.requestId).isSome = true ∧
      (out.roundOf d.result = none → d.result.getLen ≤ d.result.numComputedTokens) := by
  have hd : d ∈ plan := hplan ▸ List.mem_append_right _ List.mem_cons_self
  have hrun : d.request ∈ s.running := t.running ▸ List.mem_append_left _ (List.mem_map_of_mem hd)
  obtain ⟨hgrant, hfull⟩ := (t.plan_sound pre d post hplan).complete hleft (hdue _ hrun)
  refine ⟨?_, fun hround => ?_⟩
  · rw [Decision.result_requestId, t.tokensOf_plan o hd, Option.isSome_map]
    exact hgrant
  · have hnil : d.request.draftTokenIds = [] := by
      by_contra hne
      rw [t.roundOf_plan o hd, if_pos hne, Option.map_eq_none_iff] at hround
      rw [hround] at hgrant
      cases hgrant
    rw [d.result_getLen, hfull hnil]

private theorem complete_admission (t : StepTrace s s' out plan victims as) (o : InOrder s')
    (hq : s.Queued) {pre post : List Admission} {a : Admission} (has : as = pre ++ a :: post)
    (hleft : 0 < Admission.left
      (Decision.left s.schedulerConfig.maxNumBatchedTokens plan) pre - a.chunk) :
    (out.tokensOf a.result.requestId).isSome = true ∧
      a.result.getLen ≤ a.result.numComputedTokens := by
  have ha : a ∈ as := has ▸ List.mem_append_right _ List.mem_cons_self
  obtain ⟨hprompt, hnc⟩ := hq _ (t.mem_waiting ha)
  obtain ⟨k, n, -, -, hchunk, -, hres, -, hfull, -⟩ :=
    (t.admissions_sound pre a post has).cases hprompt hnc
  refine ⟨by rw [Admission.result_requestId, t.tokensOf_admission o ha]; rfl, ?_⟩
  rw [hchunk] at hleft
  rw [hres]
  show a.request.getLen ≤ k + n
  omega

private theorem chunks_nonneg (t : StepTrace s s' out plan victims as) (hq : s.Queued) :
    ∀ a ∈ as, 0 ≤ a.chunk := fun a ha => by
  obtain ⟨budget, hsound⟩ := t.admissions_sound' ha
  exact Admission.chunk_nonneg hsound (hq _ (t.mem_waiting ha)).2

private theorem grants_nonneg (t : StepTrace s s' out plan victims as) :
    ∀ d ∈ plan, 0 ≤ d.grant.getD 0 := fun d hd => by
  obtain ⟨budget, hsound⟩ := t.plan_sound' hd
  exact hsound.grant_nonneg

/-- Where somebody is scheduled, everybody before was scheduled too, and computed all its tokens
unless it went through a verify round. -/
theorem complete (t : StepTrace s s' out plan victims as) (o : InOrder s') (hq : s.Queued)
    (hdue : ∀ r ∈ s.running, r.draftTokenIds = [] → r.numComputedTokens < r.getLen) :
    s'.running.Pairwise fun q r => (out.tokensOf r.requestId).isSome = true →
      (out.tokensOf q.requestId).isSome = true ∧
        (out.roundOf q = none → q.getLen ≤ q.numComputedTokens) := by
  rw [t.running', List.pairwise_append]
  refine ⟨List.pairwise_map.mpr (pairwise_of_split fun pre d mid d' post hplan hr => ?_),
    List.pairwise_map.mpr (pairwise_of_split fun pre a mid a' post has _ => ?_),
    fun q hqm r hr _ => ?_⟩
  · have hd' : d' ∈ plan := by rw [hplan]; simp
    rw [Decision.result_requestId, t.tokensOf_plan o hd', Option.isSome_map] at hr
    refine t.complete_decision o hdue hplan ?_
    -- the later request was granted something, so that budget was left for it
    have hsound := t.plan_sound (pre ++ d :: mid) d' post (by rw [hplan]; simp)
    rw [Decision.left_append, Decision.left_cons] at hsound
    have hmid : ∀ e ∈ mid, 0 ≤ e.grant.getD 0 := fun e he =>
      t.grants_nonneg e (by rw [hplan]; simp [he])
    have hle := Decision.left_le hmid
      (Decision.left s.schedulerConfig.maxNumBatchedTokens pre - d.grant.getD 0)
    rcases hsound.cases with ⟨hg, -⟩ | ⟨n, -, hpos, -⟩
    · rw [hg] at hr
      cases hr
    · omega
  · obtain ⟨htokens, hfull⟩ := t.complete_admission o hq has (by
      have hsound := t.admissions_sound (pre ++ a :: mid) a' post (by rw [has]; simp)
      rw [Admission.left_append, Admission.left_cons] at hsound
      have hmid : ∀ e ∈ mid, 0 ≤ e.chunk := fun e he =>
        t.chunks_nonneg hq e (by rw [has]; simp [he])
      have hle := Admission.left_le hmid (Admission.left
        (Decision.left s.schedulerConfig.maxNumBatchedTokens plan) pre - a.chunk)
      have hpos := hsound.1
      omega)
    exact ⟨htokens, fun _ => hfull⟩
  · obtain ⟨d, hd, rfl⟩ := List.mem_map.mp hqm
    obtain ⟨a, ha, rfl⟩ := List.mem_map.mp hr
    obtain ⟨pre, post, hplan⟩ := List.append_of_mem hd
    obtain ⟨before, after, has⟩ := List.append_of_mem ha
    refine t.complete_decision o hdue hplan ?_
    -- an admission needs budget that the whole running pass has left
    have hpos := (t.admissions_sound before a after has).1
    have hbefore : ∀ e ∈ before, 0 ≤ e.chunk := fun e he =>
      t.chunks_nonneg hq e (by rw [has]; simp [he])
    have hle := Admission.left_le hbefore (Decision.left s.schedulerConfig.maxNumBatchedTokens plan)
    have hpost : ∀ e ∈ post, 0 ≤ e.grant.getD 0 := fun e he =>
      t.grants_nonneg e (by rw [hplan]; simp [he])
    have hle' := Decision.left_le hpost
      (Decision.left s.schedulerConfig.maxNumBatchedTokens pre - d.grant.getD 0)
    rw [hplan, Decision.left_append, Decision.left_cons] at hle hpos
    omega

/-- What the order of `running` says of two requests that the step kept. -/
theorem kept_pairwise (t : StepTrace s s' out plan victims as) (o : InOrder s')
    {R : Request → Request → Prop} (h : s.running.Pairwise R) :
    s'.running.Pairwise fun q r => ∀ d' ∈ plan, r = d'.result →
      ∃ d ∈ plan, q = d.result ∧ R d.request d'.request := by
  rw [t.running, List.pairwise_append] at h
  rw [t.running', List.pairwise_append]
  have hnodup := List.nodup_append.mp (t.ids_nodup o)
  have heq : ∀ d ∈ plan, ∀ d' ∈ plan, d.result = d'.result → d = d' := fun d hd d' hd' hres =>
    List.inj_on_of_nodup_map hnodup.1 hd hd' (by
      rw [← Decision.result_requestId, hres, Decision.result_requestId])
  have hne : ∀ a ∈ as, ∀ d ∈ plan, a.result ≠ d.result := fun a ha d hd hres =>
    hnodup.2.2 _ (List.mem_map_of_mem hd) _ (List.mem_map_of_mem ha) (by
      rw [← Decision.result_requestId, ← hres, Admission.result_requestId])
  refine ⟨List.pairwise_map.mpr ((List.pairwise_map.mp h.1).imp_of_mem
      fun {d e} hd he hde d' hd' hres => ⟨d, hd, rfl, heq e he d' hd' hres ▸ hde⟩),
    List.pairwise_map.mpr (List.pairwise_of_forall_mem_list fun a _ a' ha' d' hd' hres => ?_),
    fun q _ r hr d' hd' hres => ?_⟩
  · exact absurd hres (hne a' ha' d' hd')
  · obtain ⟨a, ha, rfl⟩ := List.mem_map.mp hr
    exact absurd hres (hne a ha d' hd')

/-- Whoever is passed over was running. -/
theorem mem_plan_of_passed (t : StepTrace s s' out plan victims as) (o : InOrder s') {r : Request}
    (hr : r ∈ s'.running) (hnone : out.tokensOf r.requestId = none) : ∃ d ∈ plan, r = d.result := by
  rw [t.running', List.mem_append] at hr
  rcases hr with hr | hr
  · obtain ⟨d, hd, rfl⟩ := List.mem_map.mp hr
    exact ⟨d, hd, rfl⟩
  · obtain ⟨a, ha, rfl⟩ := List.mem_map.mp hr
    rw [Admission.result_requestId, t.tokensOf_admission o ha] at hnone
    cases hnone

/-- So was whoever is in a verify round. -/
theorem mem_plan_of_round (t : StepTrace s s' out plan victims as) (o : InOrder s') {r : Request}
    (hr : r ∈ s'.running) {n : ℕ} (hround : out.roundOf r = some n) : ∃ d ∈ plan, r = d.result := by
  rw [t.running', List.mem_append] at hr
  rcases hr with hr | hr
  · obtain ⟨d, hd, rfl⟩ := List.mem_map.mp hr
    exact ⟨d, hd, rfl⟩
  · obtain ⟨a, ha, rfl⟩ := List.mem_map.mp hr
    rw [t.roundOf_admission o ha] at hround
    cases hround

/-- Where somebody is passed over, whoever holds a draft before it is in a verify round or was
passed over too, and whoever was passed over before it is as before. -/
theorem passed (t : StepTrace s s' out plan victims as) (o : InOrder s') {P : Request → Prop}
    (hlast : s.running.Pairwise fun q _ => P q) :
    s'.running.Pairwise fun q r => out.tokensOf r.requestId = none →
      (q.draftTokenIds ≠ [] → out.roundOf q = out.tokensOf q.requestId) ∧
        (out.tokensOf q.requestId = none → P q) := by
  refine (t.kept_pairwise o hlast).imp_of_mem fun {q r} _ hr hkept hnone => ?_
  obtain ⟨d', hd', hres⟩ := t.mem_plan_of_passed o hr hnone
  obtain ⟨d, hd, rfl, hp⟩ := hkept d' hd' hres
  refine ⟨fun hne => ?_, fun hnone => ?_⟩
  · rw [Decision.result_draftTokenIds] at hne
    rw [Decision.result_requestId, t.tokensOf_plan o hd, t.roundOf_plan o hd, if_pos hne]
  · rw [Decision.result_requestId, t.tokensOf_plan o hd, Option.map_eq_none_iff] at hnone
    rw [Decision.result, hnone]
    exact hp

/-- A forward pass that returned had a row for each draft token of a request just admitted, and
one more. -/
theorem chunk_eq_of_drafted (t : StepTrace s s' out plan victims as) (o : InOrder s')
    {m : ModelRunner} {s₂ : Scheduler} (hm : m.executeModel s' out = .ok s₂) {a : Admission}
    (ha : a ∈ as) (hne : a.request.draftTokenIds ≠ []) :
    a.chunk = (a.request.draftTokenIds.length : ℤ) + 1 := by
  obtain ⟨ranges, hbatch, -⟩ := bind_eq_ok.mp hm
  have hranges := ModelRunner.forall_isRange (ModelRunner.flatLoop_of_buildFlatBatch hbatch)
  have hmem : (a.result, a.chunk.toNat) ∈ s'.resolve out.scheduled := by
    refine mem_resolve.mpr ⟨a.slice, ?_, ?_, rfl⟩
    · rw [SchedulerOutput.scheduled, t.scheduledNew]
      exact List.mem_append_left _ (List.mem_map_of_mem ha)
    · exact findRequest_of_mem o.running_nodup
        (t.running' ▸ List.mem_append_right _ (List.mem_map_of_mem ha))
  obtain ⟨i, hi, hget⟩ := List.getElem_of_mem hmem
  have hlen : i < ranges.length := hranges.length_eq ▸ hi
  have hrange := (List.forall₂_iff_get.mp hranges).2 i hi hlen
  rw [List.get_eq_getElem, hget] at hrange
  obtain ⟨hn, -⟩ := hrange.drafted hne
  have hn' : a.chunk.toNat = a.request.draftTokenIds.length + 1 := hn
  omega

/-- Whoever is admitted stood at the head of the queue. -/
theorem waiting_of_mem (t : StepTrace s s' out plan victims as) {a : Admission} (ha : a ∈ as) :
    s.waiting = as.map Admission.request ++ s'.waiting := by
  obtain ⟨bumped, hall, hw⟩ := t.waiting
  have hnil : victims = [] := by
    by_contra h
    rw [t.admits h] at ha
    cases ha
  subst hnil
  cases hall
  exact hw

end StepTrace

/-! ## The invariant -/

/-- Where drafts and prompts stand in the queues of an engine that proposes `K` tokens a round.
A draft inside the prompt, and an output without a draft, are there only when a step's budget is
a whole number of rounds; and a draft inside the prompt is last. -/
structure StaleDrafts (K : ℕ) (s : Scheduler) : Prop where
  unfinished : ∀ r ∈ s.running, r.isFinished = false
  drafted : ∀ r ∈ s.running ++ s.waiting, r.draftTokenIds ≠ [] →
    r.draftTokenIds.length = K ∧ r.outputTokenIds ≠ []
  begun : ∀ r ∈ s.running, r.outputTokenIds = [] → r.isPrefill = true
  due : ∀ r ∈ s.running, r.draftTokenIds = [] → r.numComputedTokens < r.getLen
  order : ((s.running ++ s.waiting).map Request.outputTokenIds).Pairwise fun q r => r ≠ [] → q ≠ []
  undrafted : ∀ r ∈ s.running ++ s.waiting, r.outputTokenIds ≠ [] → r.draftTokenIds = [] →
    K + 1 ∣ s.schedulerConfig.maxNumBatchedTokens
  inside : ∀ r ∈ s.running, r.draftTokenIds ≠ [] → r.isPrefill = true →
    K + 1 ∣ s.schedulerConfig.maxNumBatchedTokens
  last : s.running.Pairwise fun q _ => q.draftTokenIds ≠ [] → q.isPrefill = false

/-- A request that a step has scheduled for `tokens`, in a verify round of `round`, before the
forward pass. -/
structure Request.Planned (K : ℕ) (s : Scheduler) (tokens round : Option ℕ) (r : Request) :
    Prop where
  unfinished : r.isFinished = false
  drafted : r.draftTokenIds ≠ [] → r.draftTokenIds.length = K ∧ r.outputTokenIds ≠ []
  idle : tokens = none → r ∈ s.running
  round : ∀ n, round = some n → tokens = some n ∧ r.draftTokenIds ≠ [] ∧
    n ≤ r.numComputedTokens ∧ { r with numComputedTokens := r.numComputedTokens - n } ∈ s.running
  computed : r.draftTokenIds = [] → tokens.isSome = true → r.numComputedTokens ≤ r.getLen
  before : ∃ q ∈ s.running ++ s.waiting, q.outputTokenIds = r.outputTokenIds ∧
    q.draftTokenIds = r.draftTokenIds

/-- How many tokens a draft proposes a round. -/
def LLMEngine.lookahead (e : LLMEngine) : ℕ :=
  (e.speculativeConfig.map SpeculativeConfig.numSpeculativeTokens).getD 0

/-- Without a draft model nothing is proposed; with one, a request past its prompt gets a
draft. -/
theorem LLMEngine.Proposes.cases {e : LLMEngine} {drafts : Option (RequestId → List Token)}
    (h : e.Proposes drafts) : (e.lookahead = 0 ∧ drafts = none) ∨
      (0 < e.lookahead ∧ ∃ d : RequestId → List Token, drafts = some d ∧
        ∀ id, (d id).length = e.lookahead) := by
  unfold Proposes at h
  unfold lookahead
  cases hc : e.speculativeConfig with
  | none =>
    rw [hc] at h
    cases drafts with
    | none => exact .inl ⟨rfl, rfl⟩
    | some d => cases h
  | some c =>
    rw [hc] at h
    cases drafts with
    | none => cases h
    | some d => exact .inr ⟨c.numSpeculativeTokens_pos, d, rfl, h⟩

theorem LLMEngine.proposed_cases {e : LLMEngine} {drafts : Option (RequestId → List Token)}
    (h : e.Proposes drafts) (r : Request) : ∃ draft,
      r.proposed drafts = { r with draftTokenIds := draft } ∧
      (r.isPrefill = true ∨ e.lookahead = 0 → draft = r.draftTokenIds) ∧
      (r.isPrefill = false → 0 < e.lookahead → draft.length = e.lookahead) := by
  rcases h.cases with ⟨hzero, rfl⟩ | ⟨hpos, d, rfl, hlen⟩
  · exact ⟨_, rfl, fun _ => rfl, fun _ hpos => absurd hzero hpos.ne'⟩
  · rw [Request.proposed, Option.elim_some]
    cases hpre : r.isPrefill with
    | true => exact ⟨_, if_pos rfl, fun _ => rfl, fun h => (by cases h)⟩
    | false =>
      refine ⟨_, if_neg Bool.false_ne_true, fun h => ?_, fun _ _ => hlen r.requestId⟩
      rcases h with h | h
      · cases h
      · exact absurd h hpos.ne'

/-- A request that a step left running: `r` before its turn and `q` after the proposals. -/
structure Request.Stepped (K : ℕ) (s : Scheduler) (tokens round : Option ℕ) (r q : Request) :
    Prop where
  prompt : q.promptTokenIds = r.promptTokenIds
  outputs : r.outputTokenIds ≠ [] → q.outputTokenIds ≠ []
  drafted : q.draftTokenIds ≠ [] → q.draftTokenIds.length = K ∧ q.outputTokenIds ≠ []
  begun : q.outputTokenIds = [] → q.isPrefill = true
  due : q.draftTokenIds = [] → q.numComputedTokens < q.getLen
  undrafted : q.outputTokenIds ≠ [] → q.draftTokenIds = [] →
    K + 1 ∣ s.schedulerConfig.maxNumBatchedTokens
  inside : q.draftTokenIds ≠ [] → q.isPrefill = true →
    round = none ∧ r.draftTokenIds ≠ [] ∧ r.isPrefill = true
  progress : q.outputTokenIds ≠ [] → r.outputTokenIds ≠ [] ∨ tokens.isSome = true
  sampled : tokens.isSome = true → round = none → r.isPrefill = false → q.outputTokenIds ≠ []

/-- Who runs after a step: whoever was running before the sweep and had not finished. -/
theorem LLMEngine.StepSpec.running_eq {e : LLMEngine} {drafts : Option (RequestId → List Token)}
    {s s' s₁ : Scheduler} {out : SchedulerOutput} {finished : List Request} {plan : List Decision}
    {victims : List Request} {as : List Admission} {turned : Request → Request}
    (st : e.StepSpec drafts s s' out finished s₁ plan victims as turned) :
    s'.running = (s₁.running.filter fun r => ¬ (turned r).isFinished).map fun r =>
      (turned r).proposed drafts := by
  rw [st.running, List.filter_map, List.map_map]
  rfl

namespace StaleDrafts
variable {K : ℕ} {s s₁ : Scheduler} {out : SchedulerOutput} {plan : List Decision}
  {victims : List Request} {as : List Admission}

theorem new (K : ℕ) (cache : CacheConfig) (config : SchedulerConfig)
    (hashFn : Option BlockHash → List Token → BlockHash) :
    StaleDrafts K (.new cache config hashFn) where
  unfinished _ hr := (List.not_mem_nil hr).elim
  drafted _ hr := (List.not_mem_nil hr).elim
  begun _ hr := (List.not_mem_nil hr).elim
  due _ hr := (List.not_mem_nil hr).elim
  order := .nil
  undrafted _ hr := (List.not_mem_nil hr).elim
  inside _ hr := (List.not_mem_nil hr).elim
  last := .nil

theorem addRequest (h : StaleDrafts K s) {s' : Scheduler} {id : RequestId}
    {promptTokenIds : List Token} {params : SamplingParams}
    (hs : s.addRequest (LLMEngine.newRequest id promptTokenIds params) = .ok s') :
    StaleDrafts K s' := by
  rw [addRequest_eq hs]
  refine ⟨h.unfinished, fun r hr hne => ?_, h.begun, h.due, ?_, fun r hr hout hnil => ?_, h.inside,
    h.last⟩
  · rw [← List.append_assoc] at hr
    rcases List.mem_append.mp hr with hr | hr
    · exact h.drafted r hr hne
    · rw [List.mem_singleton.mp hr] at hne
      exact absurd rfl hne
  · rw [← List.append_assoc, List.map_append, List.pairwise_append]
    refine ⟨h.order, List.pairwise_singleton _ _, fun x _ y hy hne => ?_⟩
    rw [List.map_singleton, List.mem_singleton] at hy
    exact absurd hy hne
  · rw [← List.append_assoc] at hr
    rcases List.mem_append.mp hr with hr | hr
    · exact h.undrafted r hr hout hnil
    · rw [List.mem_singleton.mp hr] at hout
      exact absurd rfl hout

theorem abortRequests (h : StaleDrafts K s) {s' : Scheduler} {ids : List RequestId}
    {gone : List Request} (hs : s.abortRequests ids = .ok (s', gone)) : StaleDrafts K s' := by
  obtain ⟨hrunning, hwaiting, hcfg⟩ := sublist_of_abortRequests hs
  have hqueues := hrunning.append hwaiting
  refine ⟨fun r hr => h.unfinished r (hrunning.subset hr),
    fun r hr => h.drafted r (hqueues.subset hr), fun r hr => h.begun r (hrunning.subset hr),
    fun r hr => h.due r (hrunning.subset hr), h.order.sublist (hqueues.map _), fun r hr => ?_,
    fun r hr => ?_, h.last.sublist hrunning⟩
  · rw [hcfg]
    exact h.undrafted r (hqueues.subset hr)
  · rw [hcfg]
    exact h.inside r (hrunning.subset hr)

theorem planned (h : StaleDrafts K s) (t : StepTrace s s₁ out plan victims as) (o : InOrder s₁)
    (hq : s.Queued) {r : Request} (hr : r ∈ s₁.running) :
    r.Planned K s (out.tokensOf r.requestId) (out.roundOf r) := by
  rw [t.running', List.mem_append] at hr
  rcases hr with hr | hr
  · obtain ⟨d, hd, rfl⟩ := List.mem_map.mp hr
    have hmem : d.request ∈ s.running := t.running ▸ List.mem_append_left _ (List.mem_map_of_mem hd)
    have hmem' := List.mem_append_left s.waiting hmem
    have htokens := t.tokensOf_plan o hd
    have hround := t.roundOf_plan o hd
    rw [← Decision.result_requestId] at htokens
    obtain ⟨budget, hsound⟩ := t.plan_sound' hd
    rcases hsound.cases with ⟨hg, hres, -⟩ | ⟨n, hpos, -, hg, hres, -, hundrafted⟩
    · rw [hg, Option.map_none, ite_self] at hround
      rw [hg] at htokens
      refine ⟨?_, ?_, fun _ => ?_, fun n hn => ?_, fun _ hsome => ?_, ⟨_, hmem', ?_, ?_⟩⟩
      · rw [hres]
        exact h.unfinished _ hmem
      · rw [hres]
        exact h.drafted _ hmem'
      · rw [hres]
        exact hmem
      · rw [hround] at hn
        cases hn
      · rw [htokens] at hsome
        cases hsome
      · rw [hres]
      · rw [hres]
    · rw [hg, Option.map_some, Int.toNat_natCast] at htokens hround
      rw [hres] at htokens hround ⊢
      refine ⟨h.unfinished d.request hmem, h.drafted d.request hmem',
        fun hnone => ?_, fun m hm => ?_, fun hd _ => (hundrafted hd).1, ⟨_, hmem', rfl, rfl⟩⟩
      · rw [htokens] at hnone
        cases hnone
      · rw [hround] at hm
        split at hm
        · rename_i hne
          cases hm
          refine ⟨htokens, hne, Nat.le_add_left _ _, ?_⟩
          show { d.request with numComputedTokens := d.request.numComputedTokens + n - n } ∈ _
          rw [Nat.add_sub_cancel]
          exact hmem
        · cases hm
  · obtain ⟨a, ha, rfl⟩ := List.mem_map.mp hr
    have hwait := t.mem_waiting ha
    have hmem' := List.mem_append_right s.running hwait
    obtain ⟨hprompt, hnc⟩ := hq _ hwait
    obtain ⟨budget, hsound⟩ := t.admissions_sound' ha
    obtain ⟨k, n, -, -, -, -, hres, hle, -⟩ := hsound.cases hprompt hnc
    have htokens := t.tokensOf_admission o ha
    rw [← Admission.result_requestId] at htokens
    refine ⟨rfl, h.drafted a.request hmem', fun hnone => ?_, fun m hm => ?_, fun _ _ => ?_,
      ⟨_, hmem', rfl, rfl⟩⟩
    · rw [htokens] at hnone
      cases hnone
    · rw [t.roundOf_admission o ha] at hm
      cases hm
    · rw [hres]
      exact hle

/-- A request past its prompt has a draft after the proposals, if anybody drafts. -/
private theorem ne_nil_of_length {draft : List Token} (h : draft.length = K) (hK : 0 < K) :
    draft ≠ [] := by
  rintro rfl
  rw [List.length_nil] at h
  omega

theorem stepped (h : StaleDrafts K s) {tokens round : Option ℕ} {r x p : Request}
    (hr : r.Planned K s tokens round) (hturn : Turn r tokens round x) (hren : Renoded x p)
    {e : LLMEngine} {drafts : Option (RequestId → List Token)} (hd : e.Proposes drafts)
    (hK : e.lookahead = K) : r.Stepped K s tokens round (p.proposed drafts) := by
  subst hK
  obtain ⟨nodes, rfl⟩ := hren
  obtain ⟨draft, hprop, hsame, hnew⟩ :=
    LLMEngine.proposed_cases hd { x with cachedPrefixNodes := nodes }
  rw [hprop]
  have hlook : r.draftTokenIds ≠ [] → 0 < e.lookahead := by
    intro hne
    rw [← (hr.drafted hne).1]
    exact List.length_pos_iff.mpr hne
  -- who keeps its draft through the turn has one afterwards exactly when it had one, or is new
  have hkept : x.draftTokenIds = r.draftTokenIds → (draft = [] → r.draftTokenIds = []) ∧
      (draft ≠ [] → draft.length = e.lookahead) := by
    intro hx
    by_cases hside : x.isPrefill = true ∨ e.lookahead = 0
    · rw [hsame hside]
      exact ⟨fun hnil => hx ▸ hnil, fun hne => (hx ▸ (hr.drafted (hx ▸ hne)).1)⟩
    · rw [not_or, Bool.not_eq_true] at hside
      have hpos := Nat.pos_of_ne_zero hside.2
      have hlen := hnew hside.1 hpos
      exact ⟨fun hnil => absurd hnil (ne_nil_of_length hlen hpos), fun _ => hlen⟩
  -- who lost its draft in the turn is inside its prompt, or gets a new one
  have hlost : x.draftTokenIds = [] → r.draftTokenIds ≠ [] → (draft = [] → x.isPrefill = true) ∧
      (draft ≠ [] → x.isPrefill = false ∧ draft.length = e.lookahead) := by
    intro hx hne
    cases hpre : x.isPrefill with
    | true => exact ⟨fun _ => rfl, fun hdraft => absurd ((hsame (.inl hpre)).trans hx) hdraft⟩
    | false =>
      have hlen := hnew hpre (hlook hne)
      exact ⟨fun hnil => absurd hnil (ne_nil_of_length hlen (hlook hne)), fun _ => ⟨rfl, hlen⟩⟩
  obtain ⟨q₀, hmem₀, hout₀, hdraft₀⟩ := hr.before
  cases hturn with
  | idle =>
    have hmem := hr.idle rfl
    obtain ⟨hnil, hlen⟩ := hkept rfl
    refine ⟨rfl, fun hne => hne, fun hne => ⟨hlen hne, fun hout => ?_⟩, h.begun r hmem,
      fun hdraft => h.due r hmem (hnil hdraft), fun hout hdraft => ?_, fun hne hpre => ?_,
      fun hout => .inl hout, fun hsome => (by cases hsome)⟩
    · have hpre := h.begun r hmem hout
      rw [hsame (.inl hpre)] at hne
      exact (hr.drafted hne).2 hout
    · exact h.undrafted r (List.mem_append_left _ hmem) hout (hnil hdraft)
    · rw [hsame (.inl hpre)] at hne
      exact ⟨rfl, hne, hpre⟩
  | prefill hpre =>
    obtain ⟨hnil, hlen⟩ := hkept rfl
    refine ⟨rfl, fun hne => hne, fun hne => ?_, fun _ => hpre, fun _ => ?_, fun hout hdraft => ?_,
      fun hne _ => ?_, fun hout => .inl hout, fun _ _ hpast => ?_⟩
    · rw [hsame (.inl hpre)] at hne ⊢
      exact hr.drafted hne
    · exact Nat.lt_add_right _ (of_decide_eq_true hpre)
    · exact h.undrafted q₀ hmem₀ (hout₀ ▸ hout) (hdraft₀ ▸ hnil hdraft)
    · rw [hsame (.inl hpre)] at hne
      exact ⟨rfl, hne, hpre⟩
    · rw [hpre] at hpast
      cases hpast
  | @sample n new hpre hne =>
    obtain ⟨hnil, hlen⟩ := hkept rfl
    have hout : r.outputTokenIds ++ new ≠ [] := fun h => hne (List.append_eq_nil_iff.mp h).2
    refine ⟨rfl, fun _ => hout, fun hdraft => ⟨hlen hdraft, hout⟩, fun h => absurd h hout,
      fun hdraft => ?_, fun _ hdraft => ?_, fun _ hpast => ?_, fun _ => .inr rfl, fun _ _ _ => hout⟩
    · have hle := hr.computed (hnil hdraft) rfl
      have hpos := List.length_pos_iff.mpr hne
      show r.numComputedTokens < r.promptTokenIds.length + (r.outputTokenIds ++ new).length
      rw [List.length_append]
      unfold Request.getLen at hle
      omega
    · by_cases hzero : e.lookahead = 0
      · rw [hzero]
        exact one_dvd _
      · have hpos := Nat.pos_of_ne_zero hzero
        exact absurd hdraft (ne_nil_of_length (hnew hpre hpos) hpos)
    · have hpast' : r.isPrefill = true := hpast
      rw [hpre] at hpast'
      cases hpast'
  | @undo n hpre =>
    obtain ⟨-, hne, hle, hold⟩ := hr.round n rfl
    obtain ⟨hnil, hlen⟩ := hlost rfl hne
    have hlt : r.numComputedTokens < r.promptTokenIds.length := of_decide_eq_true hpre
    have hlt' : r.numComputedTokens - n < r.promptTokenIds.length := by omega
    have hpre' : (decide (r.numComputedTokens - n < r.promptTokenIds.length)) = true := by
      simpa using hlt'
    refine ⟨rfl, fun hout => hout, fun hdraft => ?_, fun _ => hpre', fun _ => ?_, fun _ _ => ?_,
      fun hdraft _ => ?_, fun hout => .inl hout, fun _ hround => (by cases hround)⟩
    · exact absurd (hpre'.symm.trans (hlen hdraft).1) (by decide)
    · exact Nat.lt_add_right _ hlt'
    · exact h.inside _ hold hne hpre'
    · exact absurd (hpre'.symm.trans (hlen hdraft).1) (by decide)
  | @keep n new hpre hne =>
    obtain ⟨-, hdne, hle, hold⟩ := hr.round n rfl
    obtain ⟨hnil, hlen⟩ := hlost rfl hdne
    have hout : r.outputTokenIds ++ new ≠ [] := fun h => hne (List.append_eq_nil_iff.mp h).2
    refine ⟨rfl, fun _ => hout, fun hdraft => ⟨(hlen hdraft).2, hout⟩, fun h => absurd h hout,
      fun hdraft => ?_, fun _ hdraft => ?_, fun hdraft hpast => ?_, fun _ => .inr rfl,
      fun _ hround => (by cases hround)⟩
    · have hlt : r.numComputedTokens - (n - new.length) < r.promptTokenIds.length :=
        of_decide_eq_true (hnil hdraft)
      exact Nat.lt_add_right _ hlt
    · have hlt : r.numComputedTokens - (n - new.length) < r.promptTokenIds.length :=
        of_decide_eq_true (hnil hdraft)
      refine h.inside _ hold hdne ?_
      show decide (r.numComputedTokens - n < r.promptTokenIds.length) = true
      rw [decide_eq_true_eq]
      omega
    · exact absurd (hpast.symm.trans (hlen hdraft).1) (by decide)

/-- A request with a draft is granted a whole round, or nothing. -/
theorem dvd_grant (h : StaleDrafts K s) (t : StepTrace s s₁ out plan victims as) {d : Decision}
    (hd : d ∈ plan) (hne : d.request.draftTokenIds ≠ []) : ((K : ℤ) + 1) ∣ d.grant.getD 0 := by
  have hmem : d.request ∈ s.running := t.running ▸ List.mem_append_left _ (List.mem_map_of_mem hd)
  obtain ⟨budget, hsound⟩ := t.plan_sound' hd
  rcases hsound.cases with ⟨hg, -⟩ | ⟨n, -, -, hg, -, hlen, -⟩
  · rw [hg]
    exact dvd_zero _
  · rw [hg, Option.getD_some, hlen hne, (h.drafted _ (List.mem_append_left _ hmem) hne).1]
    exact dvd_refl _

/-- A verify round is a whole round on top of what was computed. -/
theorem of_round (h : StaleDrafts K s) (t : StepTrace s s₁ out plan victims as) (o : InOrder s₁)
    {d : Decision} (hd : d ∈ plan) {n : ℕ} (hround : out.roundOf d.result = some n) :
    d.request.draftTokenIds ≠ [] ∧ n = K + 1 ∧
      d.result.numComputedTokens = d.request.numComputedTokens + n := by
  have hmem : d.request ∈ s.running := t.running ▸ List.mem_append_left _ (List.mem_map_of_mem hd)
  rw [t.roundOf_plan o hd] at hround
  split at hround
  · rename_i hne
    obtain ⟨budget, hsound⟩ := t.plan_sound' hd
    rcases hsound.cases with ⟨hg, -⟩ | ⟨m, -, -, hg, hres, hlen, -⟩
    · rw [hg] at hround
      cases hround
    · rw [hg, Option.map_some, Int.toNat_natCast] at hround
      obtain rfl := Option.some.inj hround
      rw [hres]
      refine ⟨hne, ?_, rfl⟩
      rw [hlen hne, (h.drafted _ (List.mem_append_left _ hmem) hne).1]
  · cases hround

/-- A draft that is admitted into its prompt takes the last round of a budget of whole rounds. -/
theorem dvd_of_admitted (h : StaleDrafts K s) (t : StepTrace s s₁ out plan victims as)
    (hq : s.Queued) (hrows : ∀ a ∈ as, a.request.draftTokenIds ≠ [] → a.chunk = (K : ℤ) + 1)
    {a : Admission} (ha : a ∈ as) (hne : a.request.draftTokenIds ≠ [])
    (hpre : a.result.isPrefill = true) : K + 1 ∣ s.schedulerConfig.maxNumBatchedTokens := by
  by_contra hdvd
  obtain ⟨before, after, has⟩ := List.append_of_mem ha
  have hwait := t.waiting_of_mem ha
  rw [has, List.map_append, List.map_cons, List.append_assoc, List.cons_append] at hwait
  have horder := h.order
  rw [hwait, ← List.append_assoc, List.map_append, List.map_cons, List.pairwise_append] at horder
  have hout := (h.drafted a.request (List.mem_append_right _ (t.mem_waiting ha)) hne).2
  -- whoever comes before has an output too, and hence a draft: otherwise the budget is whole
  have hdrafted : ∀ q ∈ s.running ++ before.map Admission.request, q.draftTokenIds ≠ [] := by
    intro q hqm hnil
    refine hdvd (h.undrafted q ?_ ?_ hnil)
    · rw [hwait, ← List.append_assoc]
      exact List.mem_append_left _ hqm
    · exact horder.2.2 _ (List.mem_map_of_mem hqm) _ List.mem_cons_self hout
  have hgrants : ∀ d ∈ plan, ((K : ℤ) + 1) ∣ d.grant.getD 0 := by
    intro d hd
    have hmem : d.request ∈ s.running := t.running ▸ List.mem_append_left _ (List.mem_map_of_mem hd)
    exact h.dvd_grant t hd (hdrafted _ (List.mem_append_left _ hmem))
  have hchunks : ∀ b ∈ before, ((K : ℤ) + 1) ∣ b.chunk := by
    intro b hb
    rw [hrows b (has ▸ List.mem_append_left _ hb)
      (hdrafted _ (List.mem_append_right _ (List.mem_map_of_mem hb)))]
  obtain ⟨hprompt, hnc⟩ := hq _ (t.mem_waiting ha)
  obtain ⟨k, n, -, -, hchunk, -, hres, -, hfull, -⟩ :=
    (t.admissions_sound before a after has).cases hprompt hnc
  rw [hrows a ha hne] at hchunk
  have hlt : k + n < a.request.promptTokenIds.length := by
    rw [hres] at hpre
    exact of_decide_eq_true hpre
  have hbudget : Admission.left (Decision.left s.schedulerConfig.maxNumBatchedTokens plan) before =
      (K : ℤ) + 1 := by
    rcases hfull with hfull | hfull
    · unfold Request.getLen at hfull
      omega
    · omega
  have hwhole : ((K : ℤ) + 1) ∣ (s.schedulerConfig.maxNumBatchedTokens : ℤ) := by
    rw [← Decision.dvd_left hgrants, ← Admission.dvd_left hchunks, hbudget]
  exact hdvd (by exact_mod_cast hwhole)

section Step
variable {e : LLMEngine} {drafts : Option (RequestId → List Token)} {s' : Scheduler}
  {finished : List Request} {turned : Request → Request}

theorem turn_of_step (h : StaleDrafts e.lookahead s) (hq : s.Queued)
    (st : e.StepSpec drafts s s' out finished s₁ plan victims as turned) {r : Request}
    (hr : r ∈ s₁.running) :
    Turn r (out.tokensOf r.requestId) (out.roundOf r) (e.turn out r) := by
  have hplanned := h.planned st.trace st.inOrder hq hr
  refine e.turn_turn hplanned.unfinished ?_
  cases hround : out.roundOf r with
  | none => exact .inl rfl
  | some n => exact .inr (hplanned.round n hround).1.symm

theorem stepped_of_step (h : StaleDrafts e.lookahead s) (hq : s.Queued)
    (st : e.StepSpec drafts s s' out finished s₁ plan victims as turned) (hd : e.Proposes drafts)
    {r : Request} (hr : r ∈ s₁.running) :
    r.Stepped e.lookahead s (out.tokensOf r.requestId) (out.roundOf r)
      ((turned r).proposed drafts) :=
  h.stepped (h.planned st.trace st.inOrder hq hr) (h.turn_of_step hq st hr) (st.renoded r) hd rfl

/-- What a draft inside the prompt after the step says about the request before it. -/
private theorem dvd_of_inside (h : StaleDrafts e.lookahead s) (hq : s.Queued)
    (st : e.StepSpec drafts s s' out finished s₁ plan victims as turned)
    (hrows : ∀ a ∈ as, a.request.draftTokenIds ≠ [] → a.chunk = (e.lookahead : ℤ) + 1)
    {r : Request} (hr : r ∈ s₁.running) (hround : out.roundOf r = none)
    (hne : r.draftTokenIds ≠ []) (hpre : r.isPrefill = true) :
    e.lookahead + 1 ∣ s.schedulerConfig.maxNumBatchedTokens := by
  have t := st.trace
  rw [t.running', List.mem_append] at hr
  rcases hr with hr | hr
  · obtain ⟨d, hmem, rfl⟩ := List.mem_map.mp hr
    rw [Decision.result_draftTokenIds] at hne
    rw [t.roundOf_plan st.inOrder hmem, if_pos hne, Option.map_eq_none_iff] at hround
    have hres : d.result = d.request := by rw [Decision.result, hround]
    rw [hres] at hpre
    exact h.inside _ (t.running ▸ List.mem_append_left _ (List.mem_map_of_mem hmem)) hne hpre
  · obtain ⟨a, ha, rfl⟩ := List.mem_map.mp hr
    exact h.dvd_of_admitted t hq hrows ha hne hpre

theorem step (h : StaleDrafts e.lookahead s) (hq : s.Queued)
    (st : e.StepSpec drafts s s' out finished s₁ plan victims as turned) (hd : e.Proposes drafts)
    (hrows : ∀ a ∈ as, a.request.draftTokenIds ≠ [] → a.chunk = (e.lookahead : ℤ) + 1) :
    StaleDrafts e.lookahead s' := by
  have t := st.trace
  have hstepped := fun {r : Request} (hr : r ∈ s₁.running) => h.stepped_of_step hq st hd hr
  have hrun : ∀ q ∈ s'.running, ∃ r ∈ s₁.running, (turned r).isFinished = false ∧
      q = (turned r).proposed drafts := by
    intro q hqm
    rw [st.running_eq] at hqm
    obtain ⟨r, hr, rfl⟩ := List.mem_map.mp hqm
    obtain ⟨hmem, hfin⟩ := List.mem_filter.mp hr
    exact ⟨r, hmem, by simpa using hfin, rfl⟩
  have hwait : ∀ q ∈ s'.waiting, ∃ r ∈ s.running ++ s.waiting,
      r.outputTokenIds = q.outputTokenIds ∧ r.draftTokenIds = q.draftTokenIds := by
    intro q hqm
    rw [st.waiting] at hqm
    rcases t.of_mem_waiting hqm with hmem | ⟨v, hv, hbumped⟩
    · exact ⟨q, List.mem_append_right _ hmem, rfl, rfl⟩
    · obtain ⟨nodes, rfl⟩ := hbumped
      exact ⟨v, List.mem_append_left _ (t.running ▸ List.mem_append_right _ hv), rfl, rfl⟩
  have hcfg := st.schedulerConfig
  have hcomplete := t.complete st.inOrder hq h.due
  have horder₁ : ((s₁.running ++ s₁.waiting).map Request.outputTokenIds).Pairwise
      fun q r => r ≠ [] → q ≠ [] := by
    rw [t.map_queues (f := Request.outputTokenIds) (fun hb => by obtain ⟨_, rfl⟩ := hb; rfl)
      (fun d => by unfold Decision.result; split <;> rfl) fun _ => rfl]
    exact h.order
  refine ⟨fun q hqm => ?_, fun q hqm hne => ?_, fun q hqm => ?_, fun q hqm => ?_, ?_,
    fun q hqm hout hnil => ?_, fun q hqm hne hpre => ?_, ?_⟩
  · obtain ⟨r, -, hfin, rfl⟩ := hrun q hqm
    obtain ⟨draft, hdraft⟩ := (turned r).proposed_eq drafts
    rw [hdraft]
    exact hfin
  · rcases List.mem_append.mp hqm with hqm | hqm
    · obtain ⟨r, hr, -, rfl⟩ := hrun q hqm
      exact (hstepped hr).drafted hne
    · obtain ⟨r, hr, hout, hdraft⟩ := hwait q hqm
      rw [← hout, ← hdraft]
      exact h.drafted r hr (hdraft ▸ hne)
  · obtain ⟨r, hr, -, rfl⟩ := hrun q hqm
    exact (hstepped hr).begun
  · obtain ⟨r, hr, -, rfl⟩ := hrun q hqm
    exact (hstepped hr).due
  · rw [List.map_append, List.pairwise_append, List.pairwise_map] at horder₁
    obtain ⟨hrunning, hwaiting, hcross⟩ := horder₁
    rw [st.running_eq, st.waiting, List.map_append, List.pairwise_append, List.map_map,
      List.pairwise_map]
    refine ⟨?_, hwaiting, fun x hx y hy hne => ?_⟩
    · refine .sublist List.filter_sublist ((hrunning.and hcomplete).imp_of_mem ?_)
      intro q r hqm hr hboth hout
      obtain ⟨hord, hcomp⟩ := hboth
      rcases (hstepped hr).progress hout with hold | hsome
      · exact (hstepped hqm).outputs (hord hold)
      · obtain ⟨htokens, hfull⟩ := hcomp hsome
        have hplanned := h.planned t st.inOrder hq hqm
        cases hround : out.roundOf q with
        | none =>
          have hlen := hfull hround
          refine (hstepped hqm).sampled htokens hround (decide_eq_false (not_lt.mpr ?_))
          exact (Nat.le_add_right _ _).trans hlen
        | some n =>
          exact (hstepped hqm).outputs (hplanned.drafted (hplanned.round n hround).2.1).2
    · obtain ⟨r, hr, rfl⟩ := List.mem_map.mp hx
      have hmem := (List.mem_filter.mp hr).1
      exact (hstepped hmem).outputs (hcross _ (List.mem_map_of_mem hmem) y hy hne)
  · rw [hcfg]
    rcases List.mem_append.mp hqm with hqm | hqm
    · obtain ⟨r, hr, -, rfl⟩ := hrun q hqm
      exact (hstepped hr).undrafted hout hnil
    · obtain ⟨r, hr, hout', hdraft⟩ := hwait q hqm
      exact h.undrafted r hr (hout' ▸ hout) (hdraft ▸ hnil)
  · rw [hcfg]
    obtain ⟨r, hr, -, rfl⟩ := hrun q hqm
    obtain ⟨hround, hdraft, hpre'⟩ := (hstepped hr).inside hne hpre
    exact h.dvd_of_inside hq st hrows hr hround hdraft hpre'
  · rw [st.running_eq, List.pairwise_map]
    refine .sublist List.filter_sublist ((hcomplete.and (t.passed st.inOrder h.last)).imp_of_mem ?_)
    intro q r hqm _ hboth hne
    obtain ⟨hcomp, hpassed⟩ := hboth
    by_contra hpre
    rw [Bool.not_eq_false] at hpre
    obtain ⟨hround, hdraft, hpre'⟩ := (hstepped hqm).inside hne hpre
    have hlt : q.numComputedTokens < q.promptTokenIds.length := of_decide_eq_true hpre'
    cases hr : out.tokensOf r.requestId with
    | none =>
      obtain ⟨htokens, hlast⟩ := hpassed hr
      have hfalse := hlast ((htokens hdraft).symm.trans hround) hdraft
      rw [hpre'] at hfalse
      cases hfalse
    | some n =>
      have hlen := (hcomp (by rw [hr]; rfl)).2 hround
      unfold Request.getLen at hlen
      omega

end Step

end StaleDrafts

end LightServe
