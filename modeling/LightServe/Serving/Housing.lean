import LightServe.Serving.Budgets
import LightServe.Serving.Lossless
import LightServe.Serving.Registration

/-!
# Who lives in an engine

The live requests of an engine, the blocks they lodge in and the prompts that wait for some. As
long as a schedule gives rows only to requests that reach their nodes with them, a step keeps all
of it.

## Main definitions

* `Housed` — the live requests of an engine, and where they lodge.
* `Scheduler.Reaches` — what a schedule has to see to.
* `Housed.step` — a step that does keeps who is housed.
-/

namespace LightServe

open Relation (ReflTransGen)
open Scheduler

/-! ## Admissions -/

/-- Whom the waiting pass admits starts behind its match, the last token of its prompt apart. -/
theorem Scheduler.waitingSteps_starts {c : SchedulerConfig} {waiting waiting' : List Request}
    {q q' : WaitingPass} {bs : ℕ} (h : ReflTransGen (WaitingStep c) (waiting, q) (waiting', q'))
    (hw : ∀ r ∈ waiting, r.promptTokenIds ≠ [] ∧ r.numComputedTokens = 0 ∧ r.cachedPrefixNodes = [])
    (hb : q.blockManager.prefixCache.isSome = true → q.blockManager.nodeTokens = bs) :
    ∀ r ∈ q'.running, r ∈ q.running ∨ ∃ n, 0 < n ∧ ⟨r.requestId, n⟩ ∈ q'.scheduledNew ∧
      r.numComputedTokens =
        min (r.cachedPrefixNodes.length * bs) (r.promptTokenIds.length - 1) + n := by
  suffices ∀ x, ReflTransGen (WaitingStep c) (waiting, q) x →
      (∀ r ∈ x.1, r ∈ waiting) ∧
      (x.2.blockManager.prefixCache.isSome = true → x.2.blockManager.nodeTokens = bs) ∧
      ∀ r ∈ x.2.running, r ∈ q.running ∨ ∃ n, 0 < n ∧ ⟨r.requestId, n⟩ ∈ x.2.scheduledNew ∧
        r.numComputedTokens =
          min (r.cachedPrefixNodes.length * bs) (r.promptTokenIds.length - 1) + n
    from (this _ h).2.2
  intro x hx
  induction hx with
  | refl => exact ⟨fun r hr => hr, hb, fun r hr => .inl hr⟩
  | tail _ hs ih =>
    obtain ⟨hsub, hnode, hall⟩ := ih
    cases hs with
    | @enter r waiting₁ q₁ _ hadm hq =>
      obtain ⟨bm, halloc, hcaching, rfl⟩ := WaitingTrace.admit_eq hq
      obtain ⟨hprompt, hnc, hnodes⟩ := hw r (hsub r List.mem_cons_self)
      simp only [admissible, decide_eq_true_eq, not_le] at hadm
      obtain ⟨k, n, hpos, -, hchunk, -, hres, -, -, hnone, hsome⟩ :=
        Admission.Sound.cases (a := Admission.of q₁ r) ⟨hadm.2.1, rfl⟩ hprompt hnc
      refine ⟨fun p hp => hsub p (List.mem_cons_of_mem _ hp), fun hc => ?_, fun p hp => ?_⟩
      · exact (BlockManager.nodeTokens_of_allocate halloc).trans (hnode (hcaching.symm.trans hc))
      · rcases List.mem_append.mp hp with hp | hp
        · rcases hall p hp with hold | ⟨m, hm, hmem, hstart⟩
          · exact .inl hold
          · exact .inr ⟨m, hm, List.mem_append_left _ hmem, hstart⟩
        · rw [List.mem_singleton.mp hp]
          refine .inr ⟨n, hpos, List.mem_append_right _ (List.mem_singleton.mpr ?_), ?_⟩
          · rw [Admission.slice, hchunk]
            rfl
          · have hk : k = min
                ((r.holding (q₁.blockManager.matchPrefix
                  r.promptTokenIds)).cachedPrefixNodes.length * bs)
                (r.promptTokenIds.length - 1) := by
              cases hc : q₁.blockManager.prefixCache with
              | none =>
                have hfound : q₁.blockManager.matchPrefix r.promptTokenIds = none := by
                  simp [BlockManager.matchPrefix, hc]
                rw [hnone hfound, hfound]
                show 0 = min (r.cachedPrefixNodes.length * bs) _
                rw [hnodes, List.length_nil, Nat.zero_mul, Nat.zero_min]
              | some t =>
                have hfound : q₁.blockManager.matchPrefix r.promptTokenIds =
                    some (t.matchTokens r.promptTokenIds) := by simp [BlockManager.matchPrefix, hc]
                have hbs : t.blockSize = bs := by
                  have := hnode (by rw [hc]; rfl)
                  simpa [BlockManager.nodeTokens, hc] using this
                rw [hsome _ hfound, hfound, RadixTrie.numMatchedTokens_matchTokens, hbs]
                rfl
            rw [hres]
            exact congrArg (fun k => k + n) hk

/-- The nodes of a request lie within its prompt. -/
theorem Lodges.length_le {e : LLMEngine} {prompts : Set (List Token)} {s : Scheduler}
    (l : Lodges e prompts s) {r : Request} (hr : r ∈ s.running) :
    r.cachedPrefixNodes.length * e.cacheConfig.blockSize ≤ r.promptTokenIds.length := by
  have hlen := l.lodging.length_le (List.mem_map_of_mem hr)
  rw [l.pool.blockSize] at hlen
  exact hlen

/-- The live requests of an engine, where they lodge, and prompts that hashing tells apart. -/
structure Housed (e : LLMEngine) (prompts : Set (List Token)) (s : Scheduler) : Prop where
  live : LiveState s
  lodges : Lodges e prompts s
  waiting : ∀ r ∈ s.waiting, r.promptTokenIds ∈ prompts

/-- Whoever has rows has computed, with them, every token that its nodes stand for. -/
def Scheduler.Reaches (blockSize : ℕ) (s : Scheduler) (out : SchedulerOutput) : Prop :=
  ∀ r ∈ s.running, (out.tokensOf r.requestId).isSome = true → r.Grounded blockSize

/-- So it does once it is served. -/
theorem Scheduler.Reaches.serve {s : Scheduler} {out : SchedulerOutput} {blockSize : ℕ}
    (h : s.Reaches blockSize out) (e : LLMEngine) : ∀ r ∈ s.running.map (e.runner.serve out),
      r.requestId ∈ out.scheduled.map ScheduledRequest.request → r.Grounded blockSize := by
  intro q hq hid
  obtain ⟨r, hr, rfl⟩ := List.mem_map.mp hq
  have hserve := LLMEngine.sameRequest_serve e out r
  rw [hserve.requestId] at hid
  rw [Request.Grounded, hserve.cachedPrefixNodes, serve_numComputedTokens]
  exact h r hr (SchedulerOutput.tokensOf_isSome_iff.mpr hid)

namespace Housed
variable {e : LLMEngine} {prompts : Set (List Token)} {s s' s₁ : Scheduler} {out : SchedulerOutput}
  {plan : List Decision} {victims : List Request} {as : List Admission}

theorem start (e : LLMEngine) (prompts : Set (List Token)) : Housed e prompts e.start where
  live := .start e
  lodges := .start e prompts
  waiting _ hr := (List.not_mem_nil hr).elim

theorem addRequest (h : Housed e prompts s) {id : RequestId} {promptTokenIds : List Token}
    {params : SamplingParams} (hp : promptTokenIds ≠ []) (hmem : promptTokenIds ∈ prompts)
    (hs : s.addRequest (LLMEngine.newRequest id promptTokenIds params) = .ok s') :
    Housed e prompts s' := by
  refine ⟨h.live.addRequest hp hs, h.lodges.addRequest hs, ?_⟩
  rw [addRequest_eq hs]
  intro r hr
  rcases List.mem_append.mp hr with hr | hr
  · exact h.waiting r hr
  · rw [List.mem_singleton.mp hr]
    exact hmem

theorem abortRequests (h : Housed e prompts s) {ids : List RequestId} {gone : List Request}
    (hs : s.abortRequests ids = .ok (s', gone)) : Housed e prompts s' :=
  ⟨(h.live.abortRequests hs).1, h.lodges.abortRequests hs,
    fun r hr => h.waiting r ((mem_of_abortRequests hs).2 r hr)⟩

/-! ## The schedule -/

theorem schedule (h : Housed e prompts s) (hs : s.schedule = .ok (s₁, out)) : Lodges e prompts s₁ :=
  h.lodges.schedule h.waiting hs

/-- Where the rows of whoever is admitted start. -/
theorem starts_of_admitted (h : Housed e prompts s) (hs : s.schedule = .ok (s₁, out))
    (t : StepTrace s s₁ out plan victims as) {a : Admission} (ha : a ∈ as) :
    ∃ n, 0 < n ∧ ⟨a.result.requestId, n⟩ ∈ out.scheduled ∧ a.result.numComputedTokens =
      min (a.result.cachedPrefixNodes.length * e.cacheConfig.blockSize)
        (a.result.promptTokenIds.length - 1) + n := by
  have hr : a.result ∈ s₁.running := t.running' ▸ List.mem_append_right _ (List.mem_map_of_mem ha)
  have hwait := t.mem_waiting ha
  have c := h.lodges.accounted
  -- nobody who was running is admitted
  have hnew : ∀ (p : RunningPass), ReflTransGen RunningStep (s.running, s.runningPass) ([], p) →
      a.result ∉ p.scheduled := by
    intro p hp hmem
    obtain ⟨plan', victims', tr⟩ := RunningTrace.of_steps hp
    rw [tr.scheduled] at hmem
    obtain ⟨d, hd, hres⟩ := List.mem_map.mp hmem
    have hrun : d.request ∈ s.running := by
      rw [tr.running, List.append_nil]
      exact List.mem_append_left _ (List.mem_map_of_mem hd)
    refine h.live.inOrder.disjoint hrun hwait ?_
    rw [← Decision.result_requestId, hres, Admission.result_requestId]
  obtain ⟨p, hp, ⟨-, -, rfl⟩ | ⟨hpre, waiting, q, hq, -, rfl, rfl⟩⟩ := schedule_cases hs
  · exact absurd hr (hnew p hp)
  · have hwaiting := RunningTrace.waiting_eq hp hpre
    have hw : ∀ r ∈ p.waiting, r.promptTokenIds ≠ [] ∧ r.numComputedTokens = 0 ∧
        r.cachedPrefixNodes = [] := by
      rw [hwaiting]
      exact fun r hr => ⟨(h.live.queued r hr).1, (h.live.queued r hr).2, h.lodges.uncached r hr⟩
    have hnode : (waitingPass s.schedulerConfig p).blockManager.prefixCache.isSome = true →
        (waitingPass s.schedulerConfig p).blockManager.nodeTokens = e.cacheConfig.blockSize := by
      intro hc
      have hbs := (c.runningSteps hp).1.blockSize
      rw [(c.runningSteps_pool hp).blockSize, h.lodges.pool.blockSize] at hbs
      obtain ⟨tree, htree⟩ := Option.isSome_iff_exists.mp hc
      have htree' : p.blockManager.prefixCache = some tree := htree
      rw [BlockManager.tree_of_some htree'] at hbs
      rw [BlockManager.nodeTokens, htree]
      exact hbs
    rcases waitingSteps_starts hq hw hnode _ hr with hmem | ⟨n, hpos, hsched, hstart⟩
    · exact absurd hmem (hnew p hp)
    · exact ⟨n, hpos, List.mem_append_left _ hsched, hstart⟩

/-- Whoever is admitted reaches its nodes. -/
theorem grounded_of_admitted (h : Housed e prompts s) (hs : s.schedule = .ok (s₁, out))
    (t : StepTrace s s₁ out plan victims as) {a : Admission} (ha : a ∈ as) :
    a.result.Grounded e.cacheConfig.blockSize := by
  have hr : a.result ∈ s₁.running := t.running' ▸ List.mem_append_right _ (List.mem_map_of_mem ha)
  have hlen := (h.schedule hs).length_le hr
  obtain ⟨n, hpos, -, hstart⟩ := h.starts_of_admitted hs t ha
  rw [Request.Grounded, hstart]
  omega

/-! ## The step -/

section Step
variable {drafts : Option (RequestId → List Token)} {finished : List Request} {s₃ s₅ : Scheduler}
  {turned : Request → Request}

/-- The registration of a step: the blocks stay in one place, whoever was passed over keeps its
nodes, and the nodes of whoever was scheduled lie within its computed tokens. -/
theorem registered (h : Housed e prompts s)
    (hinj : Lodging.Injective e.hashFn e.cacheConfig.blockSize prompts)
    (hg : s₁.Reaches e.cacheConfig.blockSize out)
    (st : e.StepStages drafts s s' out finished s₁ s₃ s₅ turned) :
    Lodges e prompts s₃ ∧ ∀ r ∈ s₁.running,
      (out.tokensOf r.requestId = none → (turned r).cachedPrefixNodes = r.cachedPrefixNodes) ∧
      ((out.tokensOf r.requestId).isSome = true →
        (turned r).cachedPrefixNodes.length * e.cacheConfig.blockSize ≤ r.numComputedTokens) := by
  have o := st.inOrder
  have hserve := LLMEngine.sameRequest_serve e out
  have hserved := hg.serve e
  obtain ⟨l₃, hall⟩ := ((h.schedule st.schedule).serve e.runner out).registerComputed hinj hserved
    st.register
  refine ⟨l₃, fun r hr => ?_⟩
  have hmem : { e.runner.serve out r with cachedPrefixNodes := (turned r).cachedPrefixNodes } ∈
      s₃.running := st.registered ▸ List.mem_map_of_mem hr
  obtain ⟨q, hq, hreg⟩ := hall _ hmem
  obtain ⟨p, hp, rfl⟩ := List.mem_map.mp hq
  obtain rfl : p = r := by
    refine o.eq_of_id_eq hp hr ?_
    obtain ⟨nodes, hnodes⟩ := hreg.renoded
    rw [← (hserve p).requestId, ← (hserve r).requestId]
    exact (congrArg Request.requestId hnodes).symm
  refine ⟨fun hnone => ?_, fun hsome => ?_⟩
  · have hsame := hreg.other (by
      rw [(hserve p).requestId, ← SchedulerOutput.tokensOf_isSome_iff, hnone]
      exact Bool.false_ne_true)
    exact (congrArg Request.cachedPrefixNodes hsame).trans (hserve p).cachedPrefixNodes
  · have hg := hreg.grounded (hserved _ hq ((hserve p).requestId ▸
      SchedulerOutput.tokensOf_isSome_iff.mp hsome))
    rw [Request.Grounded, serve_numComputedTokens] at hg
    exact hg

/-- So it is before the sweep. -/
theorem lodges_turned (h : Housed e prompts s)
    (hinj : Lodging.Injective e.hashFn e.cacheConfig.blockSize prompts)
    (hg : s₁.Reaches e.cacheConfig.blockSize out)
    (st : e.StepStages drafts s s' out finished s₁ s₃ s₅ turned) :
    Lodges e prompts { s₃ with running := s₁.running.map turned } := by
  have hkeeps := fun r => LLMEngine.turned_keeps (st.renoded r)
  refine (h.registered hinj hg st).1.replaceRunning ?_
  rw [st.registered, List.map_map, List.map_map]
  refine List.map_congr_left fun r _ => ?_
  have hserve := LLMEngine.sameRequest_serve e out r
  exact Prod.ext (Prod.ext ((hkeeps r).1.trans hserve.requestId.symm) rfl)
    ((hkeeps r).2.1.trans hserve.promptTokenIds.symm)

theorem step (h : Housed e prompts s)
    (hinj : Lodging.Injective e.hashFn e.cacheConfig.blockSize prompts)
    (hg : s₁.Reaches e.cacheConfig.blockSize out)
    (st : e.StepStages drafts s s' out finished s₁ s₃ s₅ turned)
    (hs : e.step drafts s = .ok (s', out, finished)) : Housed e prompts s' := by
  obtain ⟨plan, victims, as, t⟩ := StepTrace.of_schedule st.schedule
  refine ⟨(h.live.step hs).1, ?_, fun r hr => ?_⟩
  · rw [st.propose]
    exact ((h.lodges_turned hinj hg st).freeFinishedRequests st.sweep).proposeIf drafts
  · rw [(st.spec t).waiting] at hr
    rcases t.of_mem_waiting hr with hmem | ⟨v, hv, hbumped⟩
    · exact h.waiting r hmem
    · obtain ⟨nodes, rfl⟩ := hbumped
      exact h.lodges.prompts v (t.running ▸ List.mem_append_right _ hv)

end Step

end Housed

end LightServe
