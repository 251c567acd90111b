import LightServe.Serving.Housing
import LightServe.Speculation.StaleDrafts
import Mathlib.Logic.Equiv.List

/-!
# Block ownership in the running engine

Whoever a step schedules has computed, when the step registers it, every token its nodes stand
for. A verify round may wind a request back behind them, but such a request has lost its draft and
waits behind requests that take whole rounds, so that its next chunk makes up for the loss.

## Main definitions

* `Request.Reached` — how far a request may be behind its nodes.
* `Owning` — the invariant.
* `LLMEngine.Visits` — the states an engine goes through, inside its steps too.
* `Scheduler.Owned` — every block is in one place.
* `owned_of_visits` — it is, in every state of every run.
-/

namespace LightServe

open Relation (ReflTransGen)
open Scheduler

/-! ## The invariant -/

/-- The nodes of a request lie within its computed tokens; or within them and one more round, where
a step's budget is a whole number of rounds and the request has no draft. -/
def Request.Reached (K maxNumBatchedTokens blockSize : ℕ) (r : Request) : Prop :=
  r.Grounded blockSize ∨ (r.draftTokenIds = [] ∧ K + 1 ∣ maxNumBatchedTokens ∧
    r.cachedPrefixNodes.length * blockSize ≤ r.numComputedTokens + (K + 1))

section Turns
variable {e : LLMEngine} {drafts : Option (RequestId → List Token)} {B bs : ℕ} {r x p : Request}
  {tokens round : Option ℕ}

/-- Whoever a turn leaves behind its nodes was behind them and passed over, or was in a verify
round. -/
theorem Turn.behind (hturn : Turn r tokens round x) (hren : Renoded x p)
    (hidle : tokens = none → p.cachedPrefixNodes = r.cachedPrefixNodes)
    (hsched : tokens.isSome = true → p.cachedPrefixNodes.length * bs ≤ r.numComputedTokens)
    (hg : ¬ (p.proposed drafts).Grounded bs) :
    (tokens = none ∧ ¬ r.Grounded bs) ∨ round.isSome = true := by
  obtain ⟨nodes, rfl⟩ := hren
  obtain ⟨draft, hprop⟩ := Request.proposed_eq drafts { x with cachedPrefixNodes := nodes }
  rw [hprop] at hg
  cases hturn with
  | idle =>
    obtain rfl := hidle rfl
    exact .inl ⟨rfl, hg⟩
  | prefill => exact absurd (hsched rfl) hg
  | sample => exact absurd (hsched rfl) hg
  | undo => exact .inr rfl
  | keep => exact .inr rfl

/-- How far behind its nodes a turn leaves a request. -/
theorem Turn.reached (hturn : Turn r tokens round x) (hren : Renoded x p) (hd : e.Proposes drafts)
    (hlen : p.cachedPrefixNodes.length * bs ≤ r.promptTokenIds.length)
    (hidle : tokens = none → p.cachedPrefixNodes = r.cachedPrefixNodes ∧ r.Reached e.lookahead B bs)
    (hsched : tokens.isSome = true → p.cachedPrefixNodes.length * bs ≤ r.numComputedTokens)
    (hround : ∀ n, round = some n → n = e.lookahead + 1 ∧ n ≤ r.numComputedTokens ∧
      (r.numComputedTokens - n < r.promptTokenIds.length → e.lookahead + 1 ∣ B)) :
    (p.proposed drafts).Reached e.lookahead B bs := by
  obtain ⟨nodes, rfl⟩ := hren
  obtain ⟨draft, hprop, hsame, -⟩ :=
    LLMEngine.proposed_cases hd { x with cachedPrefixNodes := nodes }
  rw [hprop]
  by_cases hg : nodes.length * bs ≤ x.numComputedTokens
  · exact .inl hg
  · right
    -- whoever is behind its nodes is inside its prompt, and gets no new draft
    have hprompt : x.promptTokenIds = r.promptTokenIds := by cases hturn <;> rfl
    have hinside : x.numComputedTokens < r.promptTokenIds.length := by
      have hlen' : nodes.length * bs ≤ r.promptTokenIds.length := hlen
      omega
    have hdraft : draft = x.draftTokenIds := hsame (.inl (by
      rw [Request.isPrefill, decide_eq_true_eq, hprompt]
      exact hinside))
    subst hdraft
    cases hturn with
    | idle =>
      obtain ⟨rfl, hreach⟩ := hidle rfl
      exact hreach.resolve_left hg
    | prefill => exact absurd (hsched rfl) hg
    | sample => exact absurd (hsched rfl) hg
    | @undo n hpre =>
      obtain ⟨hn, hle, hdvd⟩ := hround n rfl
      have hin : r.numComputedTokens - n < r.promptTokenIds.length := hinside
      have hall := hsched rfl
      refine ⟨rfl, hdvd hin, ?_⟩
      show nodes.length * bs ≤ r.numComputedTokens - n + (e.lookahead + 1)
      have hall' : nodes.length * bs ≤ r.numComputedTokens := hall
      omega
    | @keep n new hpre hne =>
      obtain ⟨hn, hle, hdvd⟩ := hround n rfl
      have hin : r.numComputedTokens - (n - new.length) < r.promptTokenIds.length := hinside
      have hall : nodes.length * bs ≤ r.numComputedTokens := hsched rfl
      refine ⟨rfl, hdvd (by omega), ?_⟩
      show nodes.length * bs ≤ r.numComputedTokens - (n - new.length) + (e.lookahead + 1)
      omega

/-- Whoever is past its prompt before a round, or without one, has a draft after the proposals. -/
theorem Turn.drafted (hturn : Turn r tokens round x) (hren : Renoded x p) (hd : e.Proposes drafts)
    (hK : 0 < e.lookahead) (hpast : r.promptTokenIds.length ≤ r.numComputedTokens)
    (hround : ∀ n, round = some n → r.promptTokenIds.length ≤ r.numComputedTokens - n) :
    (p.proposed drafts).draftTokenIds ≠ [] := by
  obtain ⟨nodes, rfl⟩ := hren
  obtain ⟨draft, hprop, -, hnew⟩ :=
    LLMEngine.proposed_cases hd { x with cachedPrefixNodes := nodes }
  rw [hprop]
  have hprompt : x.promptTokenIds = r.promptTokenIds := by cases hturn <;> rfl
  have hle : r.promptTokenIds.length ≤ x.numComputedTokens := by
    cases hturn with
    | idle => exact hpast
    | prefill => exact hpast
    | sample => exact hpast
    | @undo n => exact hround n rfl
    | @keep n new =>
      have := hround n rfl
      show r.promptTokenIds.length ≤ r.numComputedTokens - (n - new.length)
      omega
  have hlen := hnew (by
    rw [Request.isPrefill, decide_eq_false_iff_not, not_lt, hprompt]
    exact hle) hK
  rintro rfl
  rw [List.length_nil] at hlen
  omega

end Turns

/-- The live requests of an engine, where they lodge, and how far behind their nodes they are.
Whoever is behind stands after requests with drafts only. -/
structure Owning (e : LLMEngine) (prompts : Set (List Token)) (s : Scheduler) : Prop where
  live : LiveState s
  stale : StaleDrafts e.lookahead s
  lodges : Lodges e prompts s
  waiting : ∀ r ∈ s.waiting, r.promptTokenIds ∈ prompts
  reached : ∀ r ∈ s.running,
    r.Reached e.lookahead s.schedulerConfig.maxNumBatchedTokens e.cacheConfig.blockSize
  behind : s.running.Pairwise fun q r =>
    ¬ r.Grounded e.cacheConfig.blockSize → q.draftTokenIds ≠ []

namespace Owning
variable {e : LLMEngine} {prompts : Set (List Token)} {s s' s₁ : Scheduler} {out : SchedulerOutput}
  {plan : List Decision} {victims : List Request} {as : List Admission}

theorem housed (h : Owning e prompts s) : Housed e prompts s := ⟨h.live, h.lodges, h.waiting⟩

theorem start (e : LLMEngine) (prompts : Set (List Token)) : Owning e prompts e.start where
  live := .start e
  stale := .new _ _ _ _
  lodges := .start e prompts
  waiting _ hr := (List.not_mem_nil hr).elim
  reached _ hr := (List.not_mem_nil hr).elim
  behind := .nil

theorem addRequest (h : Owning e prompts s) {id : RequestId} {promptTokenIds : List Token}
    {params : SamplingParams} (hp : promptTokenIds ≠ []) (hmem : promptTokenIds ∈ prompts)
    (hs : s.addRequest (LLMEngine.newRequest id promptTokenIds params) = .ok s') :
    Owning e prompts s' := by
  obtain ⟨hlive, hlodges, hwaiting⟩ := h.housed.addRequest hp hmem hs
  have hstale := h.stale.addRequest hs
  rw [addRequest_eq hs] at *
  exact ⟨hlive, hstale, hlodges, hwaiting, h.reached, h.behind⟩

theorem abortRequests (h : Owning e prompts s) {ids : List RequestId} {gone : List Request}
    (hs : s.abortRequests ids = .ok (s', gone)) : Owning e prompts s' := by
  obtain ⟨hlive, hlodges, hwaiting⟩ := h.housed.abortRequests hs
  obtain ⟨hrunning, -, hcfg⟩ := sublist_of_abortRequests hs
  refine ⟨hlive, h.stale.abortRequests hs, hlodges, hwaiting, fun r hr => ?_,
    h.behind.sublist hrunning⟩
  rw [hcfg]
  exact h.reached r (hrunning.subset hr)

/-! ## The schedule -/

/-- Whomever the plan grants tokens reaches its nodes. -/
theorem grounded_of_granted (h : Owning e prompts s) (t : StepTrace s s₁ out plan victims as)
    {d : Decision} (hd : d ∈ plan) {c : ℤ} (hg : d.grant = some c) :
    d.result.Grounded e.cacheConfig.blockSize := by
  obtain ⟨pre, post, hplan⟩ := List.append_of_mem hd
  have hmem : d.request ∈ s.running := t.running ▸ List.mem_append_left _ (List.mem_map_of_mem hd)
  rcases (t.plan_sound pre d post hplan).cases with ⟨hnone, -⟩ | ⟨n, hpos, -, -, hres, -,
    hundrafted⟩
  · rw [hg] at hnone
    cases hnone
  · rw [hres]
    show d.request.cachedPrefixNodes.length * _ ≤ d.request.numComputedTokens + n
    by_cases hgr : d.request.Grounded e.cacheConfig.blockSize
    · exact hgr.trans (Nat.le_add_right _ _)
    · obtain ⟨hnil, hdvd, hle⟩ := (h.reached _ hmem).resolve_left hgr
      have hlen := h.lodges.length_le hmem
      rcases (hundrafted hnil).2 with hfull | hall
      · unfold Request.getLen at hfull
        omega
      · -- whoever comes before takes whole rounds, and so does what is left
        have hgrants : ∀ d' ∈ pre, ((e.lookahead : ℤ) + 1) ∣ d'.grant.getD 0 := by
          intro d' hd'
          have hbehind := h.behind
          rw [t.running, hplan, List.map_append, List.map_cons, List.append_assoc,
            List.pairwise_append] at hbehind
          refine h.stale.dvd_grant t (hplan ▸ List.mem_append_left _ hd') ?_
          exact hbehind.2.2 _ (List.mem_map_of_mem hd') _ List.mem_cons_self hgr
        have hwhole : ((e.lookahead : ℤ) + 1) ∣ (n : ℤ) := by
          rw [← hall, Decision.dvd_left hgrants]
          exact_mod_cast hdvd
        have hwhole' : e.lookahead + 1 ∣ n := by exact_mod_cast hwhole
        have := Nat.le_of_dvd hpos hwhole'
        omega

/-- Whoever is scheduled reaches its nodes. -/
theorem grounded_of_scheduled (h : Owning e prompts s) (hs : s.schedule = .ok (s₁, out))
    (t : StepTrace s s₁ out plan victims as) (o : InOrder s₁) {r : Request} (hr : r ∈ s₁.running)
    (hsome : (out.tokensOf r.requestId).isSome = true) : r.Grounded e.cacheConfig.blockSize := by
  rw [t.running', List.mem_append] at hr
  rcases hr with hr | hr
  · obtain ⟨d, hd, rfl⟩ := List.mem_map.mp hr
    rw [Decision.result_requestId, t.tokensOf_plan o hd, Option.isSome_map] at hsome
    obtain ⟨c, hg⟩ := Option.isSome_iff_exists.mp hsome
    exact h.grounded_of_granted t hd hg
  · obtain ⟨a, ha, rfl⟩ := List.mem_map.mp hr
    exact h.housed.grounded_of_admitted hs t ha

theorem reaches (h : Owning e prompts s) (hs : s.schedule = .ok (s₁, out)) :
    s₁.Reaches e.cacheConfig.blockSize out := by
  obtain ⟨plan, victims, as, t⟩ := StepTrace.of_schedule hs
  exact fun r hr hsome =>
    h.grounded_of_scheduled hs t (h.live.inOrder.schedule hs).1 hr hsome

/-! ## The step -/

section Step
variable {drafts : Option (RequestId → List Token)} {finished : List Request} {s₃ s₅ : Scheduler}
  {turned : Request → Request}

/-- The rows of a step: a request that is admitted with a draft takes a whole round. -/
theorem rows_of_step (h : Owning e prompts s) (hs : e.step drafts s = .ok (s', out, finished))
    (hsched : s.schedule = .ok (s₁, out)) (t : StepTrace s s₁ out plan victims as)
    (o : InOrder s₁) :
    ∀ a ∈ as, a.request.draftTokenIds ≠ [] → a.chunk = (e.lookahead : ℤ) + 1 := by
  intro a ha hne
  obtain ⟨s₁', s₂, -, -, h₁, h₂, -⟩ := LLMEngine.step_eq_ok_iff.mp hs
  cases hsched.symm.trans h₁
  rw [t.chunk_eq_of_drafted o h₂ ha hne,
    (h.stale.drafted _ (List.mem_append_right _ (t.mem_waiting ha)) hne).1]

/-- Whoever was drafted before somebody else in the queue, or was served in full before a verify
round, has a draft after the step. -/
private theorem drafted_of_kept (h : Owning e prompts s) (hd : e.Proposes drafts)
    (spec : e.StepSpec drafts s s' out finished s₁ plan victims as turned) {d : Decision}
    (hdp : d ∈ plan) (hmem : d.result ∈ s₁.running) (hK : 0 < e.lookahead)
    (hcases : (d.request.draftTokenIds ≠ [] ∧ d.request.isPrefill = false) ∨
      (out.roundOf d.result = none ∧ d.result.getLen ≤ d.result.numComputedTokens)) :
    ((turned d.result).proposed drafts).draftTokenIds ≠ [] := by
  have t := spec.trace
  have hturn := h.stale.turn_of_step h.live.queued spec hmem
  rcases hcases with ⟨-, hpre⟩ | ⟨hround, hfull⟩
  · have hpast : d.result.promptTokenIds.length ≤ d.request.numComputedTokens := by
      rw [Request.isPrefill, decide_eq_false_iff_not, not_lt] at hpre
      rw [Decision.result_promptTokenIds]
      exact hpre
    have hmono : d.request.numComputedTokens ≤ d.result.numComputedTokens := by
      obtain ⟨budget, hsound⟩ := t.plan_sound' hdp
      rcases hsound.cases with ⟨-, hres, -⟩ | ⟨n, -, -, -, hres, -⟩
      · rw [hres]
      · rw [hres]
        exact Nat.le_add_right _ _
    refine hturn.drafted (spec.renoded _) hd hK (hpast.trans hmono) fun n hround => ?_
    obtain ⟨-, -, hnum⟩ := h.stale.of_round t spec.inOrder hdp hround
    rw [hnum, Nat.add_sub_cancel]
    exact hpast
  · refine hturn.drafted (spec.renoded _) hd hK ((Nat.le_add_right _ _).trans hfull) fun n hn => ?_
    rw [hround] at hn
    cases hn

theorem step (h : Owning e prompts s)
    (hinj : Lodging.Injective e.hashFn e.cacheConfig.blockSize prompts) (hd : e.Proposes drafts)
    (hs : e.step drafts s = .ok (s', out, finished)) : Owning e prompts s' := by
  obtain ⟨s₁, s₃, s₅, turned, st⟩ := LLMEngine.stages_of_step h.live.inOrder h.live.queued hs
  obtain ⟨plan, victims, as, t⟩ := StepTrace.of_schedule st.schedule
  have spec := st.spec t
  have o := st.inOrder
  have hreaches := h.reaches st.schedule
  obtain ⟨-, hnodes⟩ := h.housed.registered hinj hreaches st
  have lturned := h.housed.lodges_turned hinj hreaches st
  obtain ⟨hlive, hlodges, hwaiting⟩ := h.housed.step hinj hreaches st hs
  have hkeeps := fun r => LLMEngine.turned_keeps (st.renoded r)
  have hturn := fun {r : Request} (hr : r ∈ s₁.running) =>
    h.stale.turn_of_step h.live.queued spec hr
  have hplanned := fun {r : Request} (hr : r ∈ s₁.running) =>
    h.stale.planned t o h.live.queued hr
  refine ⟨hlive, h.stale.step h.live.queued spec hd (h.rows_of_step hs st.schedule t o), hlodges,
    hwaiting, fun q hq => ?_, ?_⟩
  · rw [spec.schedulerConfig]
    rw [spec.running_eq] at hq
    obtain ⟨r, hr, rfl⟩ := List.mem_map.mp hq
    have hmem := (List.mem_filter.mp hr).1
    have hp := hplanned hmem
    refine (hturn hmem).reached (st.renoded r) hd ?_ (fun hnone => ⟨(hnodes r hmem).1 hnone, ?_⟩)
      (hnodes r hmem).2 fun n hround => ?_
    · have hlen := lturned.length_le (List.mem_map_of_mem hmem)
      rw [(hkeeps r).2.1] at hlen
      exact hlen
    · exact h.reached r (hp.idle hnone)
    · obtain ⟨d, hdp, rfl⟩ := t.mem_plan_of_round o hmem hround
      obtain ⟨-, hn, -⟩ := h.stale.of_round t o hdp hround
      obtain ⟨-, hne, hle, hold⟩ := hp.round n hround
      exact ⟨hn, hle, fun hin => h.stale.inside _ hold hne (decide_eq_true hin)⟩
  · rw [spec.running_eq, List.pairwise_map]
    refine .sublist List.filter_sublist (((t.complete o h.live.queued h.stale.due).and
      (t.kept_pairwise o (h.behind.and h.stale.last))).imp_of_mem ?_)
    intro q r hq hr hboth hg
    obtain ⟨hcomplete, hkept⟩ := hboth
    have hlook : ∀ d ∈ plan, d.request.draftTokenIds ≠ [] → 0 < e.lookahead := by
      intro d hdp hne
      have hmem : d.request ∈ s.running :=
        t.running ▸ List.mem_append_left _ (List.mem_map_of_mem hdp)
      rw [← (h.stale.drafted _ (List.mem_append_left _ hmem) hne).1]
      exact List.length_pos_iff.mpr hne
    rcases (hturn hr).behind (st.renoded r) (hnodes r hr).1 (hnodes r hr).2 hg with
      ⟨hnone, hbehind⟩ | hround
    · -- passed over while it was behind already
      obtain ⟨d', hdp', rfl⟩ := t.mem_plan_of_passed o hr hnone
      obtain ⟨d, hdp, rfl, hb, hlast⟩ := hkept d' hdp' rfl
      have hsame : d'.result = d'.request := by
        rw [Decision.result_requestId, t.tokensOf_plan o hdp', Option.map_eq_none_iff] at hnone
        rw [Decision.result, hnone]
      have hne := hb (hsame ▸ hbehind)
      exact h.drafted_of_kept hd spec hdp hq (hlook d hdp hne) (.inl ⟨hne, hlast hne⟩)
    · -- in a verify round, after requests that were served in full
      obtain ⟨n, hround⟩ := Option.isSome_iff_exists.mp hround
      obtain ⟨d', hdp', rfl⟩ := t.mem_plan_of_round o hr hround
      obtain ⟨d, hdp, rfl, -, hlast⟩ := hkept d' hdp' rfl
      obtain ⟨hne', -, -⟩ := h.stale.of_round t o hdp' hround
      refine h.drafted_of_kept hd spec hdp hq (hlook d' hdp' hne') ?_
      by_cases hne : d.request.draftTokenIds = []
      · have hnone : out.roundOf d.result = none :=
          SchedulerOutput.roundOf_of_undrafted (by rw [Decision.result_draftTokenIds]; exact hne)
        have hsome : (out.tokensOf d'.result.requestId).isSome = true := by
          rw [((hplanned hr).round n hround).1]
          rfl
        exact .inr ⟨hnone, (hcomplete hsome).2 hnone⟩
      · exact .inl ⟨hne, hlast hne⟩

end Step

/-! ## Runs -/

/-- Every run whose prompts hashing tells apart keeps the invariant. -/
theorem of_run (hinj : Lodging.Injective e.hashFn e.cacheConfig.blockSize prompts)
    {arrived : List Request} (h : e.Run Request.Prompted (fun _ => True) s arrived)
    (hp : ∀ r ∈ arrived, r.promptTokenIds ∈ prompts) : Owning e prompts s := by
  induction h with
  | start => exact start e prompts
  | addRequest id promptTokenIds params _ ha hs ih =>
    exact (ih fun r hr => hp r (List.mem_append_left _ hr)).addRequest ha
      (hp _ (List.mem_append_right _ (List.mem_singleton_self _))) hs
  | step drafts _ hd _ hs ih => exact (ih hp).step hinj hd hs
  | abortRequests ids _ hs ih => exact (ih hp).abortRequests hs

end Owning

/-- The states that an engine goes through with requests that have prompts: between its calls, and
inside a step after the schedule, after the forward pass, amid the registrations, amid the
corrections and after the sweep. -/
inductive LLMEngine.Visits (e : LLMEngine) : Scheduler → List Request → Prop
  | between {s : Scheduler} {arrived : List Request}
      (h : e.Run Request.Prompted (fun _ => True) s arrived) : Visits e s arrived
  | schedule {s s₁ : Scheduler} {arrived : List Request} {out : SchedulerOutput}
      (h : e.Run Request.Prompted (fun _ => True) s arrived) (h₁ : s.schedule = .ok (s₁, out)) :
      Visits e s₁ arrived
  | execute {s s₁ s₂ : Scheduler} {arrived : List Request} {out : SchedulerOutput}
      (h : e.Run Request.Prompted (fun _ => True) s arrived) (h₁ : s.schedule = .ok (s₁, out))
      (h₂ : e.runner.executeModel s₁ out = .ok s₂) : Visits e s₂ arrived
  | register {s s₁ s₂ s₃ : Scheduler} {arrived : List Request} {out : SchedulerOutput}
      {done rest : List ScheduledRequest} (h : e.Run Request.Prompted (fun _ => True) s arrived)
      (h₁ : s.schedule = .ok (s₁, out)) (h₂ : e.runner.executeModel s₁ out = .ok s₂)
      (hc : s₂.blockManager.prefixCache.isSome = true) (hout : out.scheduled = done ++ rest)
      (h₃ : registerLoop done s₂ = .ok s₃) : Visits e s₃ arrived
  | correct {s s₁ s₂ s₃ : Scheduler} {arrived : List Request} {out : SchedulerOutput}
      {done rest : List ScheduledRequest} (h : e.Run Request.Prompted (fun _ => True) s arrived)
      (h₁ : s.schedule = .ok (s₁, out)) (h₂ : e.runner.executeModel s₁ out = .ok s₂)
      (h₃ : s₂.registerComputed out = .ok s₃) (hout : out.scheduledRunning = done ++ rest) :
      Visits e (correctLoop (s₁.specPreLen out) done s₃) arrived
  | sweep {s s₁ s₂ s₃ s₅ : Scheduler} {arrived finished : List Request} {out : SchedulerOutput}
      (h : e.Run Request.Prompted (fun _ => True) s arrived) (h₁ : s.schedule = .ok (s₁, out))
      (h₂ : e.runner.executeModel s₁ out = .ok s₂) (h₃ : s₂.registerComputed out = .ok s₃)
      (h₅ : (correctLoop (s₁.specPreLen out) out.scheduledRunning s₃).freeFinishedRequests =
        .ok (s₅, finished)) : Visits e s₅ arrived

namespace Owning
variable {e : LLMEngine} {prompts : Set (List Token)} {s s₁ s₂ s₃ : Scheduler}
  {out : SchedulerOutput}

/-- The forward pass changes neither where a request lodges nor how far it has computed. -/
theorem execute (h : Owning e prompts s) (h₁ : s.schedule = .ok (s₁, out))
    (h₂ : e.runner.executeModel s₁ out = .ok s₂) : Lodges e prompts s₂ ∧
      ∀ r ∈ s₂.running, r.requestId ∈ out.scheduled.map ScheduledRequest.request →
        r.Grounded e.cacheConfig.blockSize := by
  obtain ⟨plan, victims, as, t⟩ := StepTrace.of_schedule h₁
  obtain ⟨o, -⟩ := h.live.inOrder.schedule h₁
  obtain rfl := e.runner.executeModel_eq o.running_nodup (t.scheduled_nodup o)
    (fun rn hrn => t.placed o h.live.queued hrn) h₂
  exact ⟨(h.housed.schedule h₁).serve e.runner out, (h.reaches h₁).serve e⟩

theorem lodges_of_visits {arrived : List Request}
    (hinj : Lodging.Injective e.hashFn e.cacheConfig.blockSize prompts) (h : e.Visits s arrived)
    (hp : ∀ r ∈ arrived, r.promptTokenIds ∈ prompts) : Lodges e prompts s := by
  cases h with
  | between h => exact (of_run hinj h hp).lodges
  | schedule h h₁ => exact (of_run hinj h hp).housed.schedule h₁
  | execute h h₁ h₂ => exact ((of_run hinj h hp).execute h₁ h₂).1
  | register h h₁ h₂ hc hout h₃ =>
    obtain ⟨l₂, hg⟩ := (of_run hinj h hp).execute h₁ h₂
    refine (l₂.registerLoop hinj hc (fun r hr hid => hg r hr ?_) h₃).1
    rw [hout, List.map_append]
    exact List.mem_append_left _ hid
  | correct h h₁ h₂ h₃ hout =>
    obtain ⟨l₂, hg⟩ := (of_run hinj h hp).execute h₁ h₂
    exact (l₂.registerComputed hinj hg h₃).1.correctLoop _ _
  | sweep h h₁ h₂ h₃ h₅ =>
    obtain ⟨l₂, hg⟩ := (of_run hinj h hp).execute h₁ h₂
    exact ((l₂.registerComputed hinj hg h₃).1.correctLoop _ _).freeFinishedRequests h₅

end Owning

/-! ## Ownership -/

/-- The blocks in a request's table that back no node of the trie. -/
def BlockManager.ownBlocks (bm : BlockManager) (r : Request) : List BlockId :=
  (bm.getBlockTable r).filter fun b => b ∉ bm.tree.blocks

/-- Every block is in one place: on the free stack, behind one node of the trie, or at one position
of one table of a running request, where it backs no node. The queues split the request dictionary,
the tables are those of the running requests, and a node counts the running requests that hold
it. -/
structure Scheduler.Owned (numGpuBlocks : ℕ) (s : Scheduler) : Prop where
  blocks : (s.blockManager.freeBlockIds ++ s.blockManager.tree.blocks ++
    s.running.flatMap s.blockManager.ownBlocks).Perm (List.range numGpuBlocks)
  requests : (s.running.map Request.requestId ++ s.waiting.map Request.requestId).Perm s.requests
  nodup : s.requests.Nodup
  tables : ∀ id, id ∈ s.blockManager.blockTables ↔ id ∈ s.running.map Request.requestId
  refCount : ∀ n, s.blockManager.tree.Live n → (s.blockManager.tree.node n).refCount =
    (s.running.filter fun r => n ∈ r.cachedPrefixNodes).length

/-- Stakes without repetitions count once each. -/
theorem holders_eq_length {stakes : List Stake} (h : ∀ s ∈ stakes, s.2.Nodup) (n : NodeId) :
    holders stakes n = (stakes.filter fun s => n ∈ s.2).length := by
  induction stakes with
  | nil => rfl
  | cons s stakes ih =>
    obtain ⟨hs, hstakes⟩ := List.forall_mem_cons.mp h
    rw [holders_cons, ih hstakes]
    by_cases hn : n ∈ s.2
    · rw [List.count_eq_one_of_mem hs hn, List.filter_cons_of_pos (by simpa using hn),
        List.length_cons, Nat.add_comm]
    · rw [List.count_eq_zero.mpr hn, List.filter_cons_of_neg (by simpa using hn), Nat.zero_add]

theorem Lodges.owned {e : LLMEngine} {prompts : Set (List Token)} {s : Scheduler}
    (l : Lodges e prompts s) : s.Owned e.cacheConfig.numGpuBlocks := by
  have p : Partition s.blockManager (stakes s.running) := by
    have h := l.lodging.partition
    rwa [Scheduler.tenants, stakesOf_tenants] at h
  have hids : (stakes s.running).map Prod.fst = s.running.map Request.requestId := by
    rw [stakes, List.map_map]
    rfl
  refine ⟨?_, ?_, l.inOrder.nodup, fun id => ?_, fun n hn => ?_⟩
  · have hown : (stakes s.running).flatMap s.blockManager.privateOf =
        s.running.flatMap s.blockManager.ownBlocks := by
      rw [stakes, List.flatMap_map]
      exact List.flatMap_congr fun r hr => p.privateOf_eq (List.mem_map_of_mem hr)
    rw [← hown, ← show s.blockManager.numGpuBlocks = e.cacheConfig.numGpuBlocks from
      l.pool.numGpuBlocks]
    exact p.perm_range
  · rw [← List.map_append, l.inOrder.ids]
  · rw [← hids]
    exact p.tables id
  · have hnodup : ∀ q ∈ stakes s.running, q.2.Nodup := fun q hq =>
      p.wellFormed.isPathFrom_nodup (p.path q hq)
    rw [p.keeps.refCount_eq hn, Nat.zero_add, holders_eq_length hnodup, stakes, List.filter_map,
      List.length_map]
    rfl

/-- In every state that an engine goes through, every block is in one place: nothing is leaked,
freed twice or given to two owners, as long as hashing tells the blocks of the prompts apart. -/
theorem owned_of_visits {e : LLMEngine} {s : Scheduler} {arrived : List Request}
    (hinj : Lodging.Injective e.hashFn e.cacheConfig.blockSize
      {prompt | ∃ r ∈ arrived, r.promptTokenIds = prompt})
    (h : e.Visits s arrived) : s.Owned e.cacheConfig.numGpuBlocks :=
  (Owning.lodges_of_visits hinj h fun r hr => ⟨r, hr, rfl⟩).owned

/-- Eight blocks of one token, a prefix cache whose hashing tells all keys apart, and a draft model
that proposes one token. -/
def pairingEngine : LLMEngine where
  cacheConfig := { CacheConfig.ofBlocks 1 8 Nat.one_pos with enablePrefixCaching := true }
  schedulerConfig := .defaults
  runner := { next := fun tokens => tokens.length }
  speculativeConfig := some { numSpeculativeTokens := 1, numSpeculativeTokens_pos := Nat.one_pos }
  hashFn := fun parent block => Encodable.encode (parent, block)

/-- A second request shares the blocks of the first one's prompt and registers one of its own. -/
theorem owned_of_visits_shared : ∃ s arrived, pairingEngine.Visits s arrived ∧
    s.running.map s.blockManager.getBlockTable = [[7, 6, 5, 4], [7, 6, 3]] ∧ s.Owned 8 := by
  have hshared : (pairingEngine.performAll (fun _ => True) pairingEngine.start []
      [.addRequest 0 [5, 6] {}, .step (some fun _ => [0]), .addRequest 1 [5, 6, 7] {},
        .step (some fun _ => [0])]).any (fun run =>
      decide (run.1.running.map run.1.blockManager.getBlockTable = [[7, 6, 5, 4], [7, 6, 3]])) =
        true := by decide +kernel
  simp only [Option.any_eq_true, decide_eq_true_eq] at hshared
  obtain ⟨⟨s, arrived⟩, hrun, htables⟩ := hshared
  have hrun : pairingEngine.Run Request.Prompted (fun _ => True) s arrived := .performAll .start
    (by simp [LLMEngine.Allows, LLMEngine.Proposes, Request.Prompted, LLMEngine.newRequest,
      pairingEngine]) hrun
  have hinj : Lodging.Injective pairingEngine.hashFn pairingEngine.cacheConfig.blockSize
      {prompt | ∃ r ∈ arrived, r.promptTokenIds = prompt} :=
    Set.injOn_of_injective (Encodable.encode_injective (α := Option BlockHash × List Token))
  exact ⟨s, arrived, .between hrun, htables, owned_of_visits hinj (.between hrun)⟩

end LightServe
