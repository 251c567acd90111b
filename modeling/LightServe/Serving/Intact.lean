import LightServe.Serving.CachedPass

/-!
# The cache from step to step

Between steps the table of a running request holds the entries of its computed tokens. A schedule
moves blocks and writes nothing; the forward pass writes what it is run on; a registration hands
blocks to the trie behind which the entries of their path stand already.

## Main definitions

* `Request.Starts` — where the rows of a request start.
* `Furnished` — who lives in an engine, with the entries of their computed tokens.
* `Furnished.step` — a step keeps it, and does what the engine without a cache does.
* `Intact` — the state of an engine and its cache between calls.
-/

namespace LightServe

open Relation (ReflTransGen)
open Scheduler

/-! ## The schedule -/

/-- Where the rows of a running request start: it goes on from where it was, or it comes in and
starts behind its match, the last token of its prompt apart. -/
inductive Request.Starts (blockSize : ℕ) (s : Scheduler) (tokens : Option ℕ) (r : Request) : Prop
  | resumed {q : Request} (hq : q ∈ s.running)
      (hr : r = { q with numComputedTokens := q.numComputedTokens + tokens.getD 0 })
  | admitted {w : Request} {n : ℕ} (hw : w ∈ s.waiting) (hid : w.requestId = r.requestId)
      (hn : tokens = some n) (hstart : r.numComputedTokens =
        min (r.cachedPrefixNodes.length * blockSize) (r.promptTokenIds.length - 1) + n)

section Schedule
variable {e : LLMEngine} {prompts : Set (List Token)} {s s₁ : Scheduler} {out : SchedulerOutput}
  {plan : List Decision} {victims : List Request} {as : List Admission} {r : Request}

theorem Housed.starts (h : Housed e prompts s) (hs : s.schedule = .ok (s₁, out))
    (t : StepTrace s s₁ out plan victims as) (o : InOrder s₁) (hr : r ∈ s₁.running) :
    r.Starts e.cacheConfig.blockSize s (out.tokensOf r.requestId) := by
  rw [t.running', List.mem_append] at hr
  rcases hr with hr | hr
  · obtain ⟨d, hd, rfl⟩ := List.mem_map.mp hr
    have hmem : d.request ∈ s.running := t.running ▸ List.mem_append_left _ (List.mem_map_of_mem hd)
    obtain ⟨budget, hsound⟩ := t.plan_sound' hd
    rw [Decision.result_requestId, t.tokensOf_plan o hd]
    refine .resumed hmem ?_
    rcases hsound.cases with ⟨hg, hres, -⟩ | ⟨n, -, -, hg, hres, -⟩
    · rw [hres, hg]
      rfl
    · rw [hres, hg]
      rfl
  · obtain ⟨a, ha, rfl⟩ := List.mem_map.mp hr
    obtain ⟨n, -, hmem, hstart⟩ := h.starts_of_admitted hs t ha
    refine .admitted (t.mem_waiting ha) rfl ?_ hstart
    rw [SchedulerOutput.tokensOf, find?_of_mem_nodup (t.scheduled_nodup o) hmem]
    rfl

variable {κ : Type} {m : CausalModel Token κ} {kv : KvCache κ}

/-- A schedule moves blocks, and writes nothing. -/
theorem Stored.schedule (h : Housed e prompts s) (hs : s.schedule = .ok (s₁, out))
    (st : Stored m kv s.blockManager (s.running.map fun r => r.knowing r.computed)) :
    Stored m kv s₁.blockManager (s₁.running.map fun r => r.knowing (out.context r)) := by
  obtain ⟨plan, victims, as, t⟩ := StepTrace.of_schedule hs
  obtain ⟨o, -⟩ := h.live.inOrder.schedule hs
  have hfind := fun {r : Request} (hr : r ∈ s.running) =>
    findRequest_of_mem h.live.inOrder.running_nodup hr
  obtain ⟨knownOf, hknown, hnew⟩ : ∃ knownOf : RequestId → Option (List Token),
      (∀ r ∈ s.running, knownOf r.requestId = some r.computed) ∧
      ∀ r ∈ s.waiting, knownOf r.requestId = none := by
    refine ⟨fun id => (s.findRequest id).map Request.computed, fun r hr => ?_, fun r hr => ?_⟩
    · exact congrArg (Option.map Request.computed) (hfind hr)
    · rw [Option.map_eq_none_iff]
      refine List.find?_eq_none.mpr fun q hq hid => ?_
      exact h.live.inOrder.disjoint hq hr (of_decide_eq_true hid)
  have hbs : s.blockManager.blockSize = e.cacheConfig.blockSize := h.lodges.pool.blockSize
  have htenants : (s.running.map fun r => r.knowing r.computed) =
      s.running.map (Request.tenant knownOf e.cacheConfig.blockSize) :=
    List.map_congr_left fun r hr => by
      rw [Request.tenant, hknown r hr]
      rfl
  have l : Lodging prompts s.blockManager
      (s.running.map (Request.tenant knownOf e.cacheConfig.blockSize)) :=
    h.lodges.lodging.retold fun _ => ⟨rfl, rfl⟩
  have hmoves := h.lodges.accounted.schedule_tenantMoves hs hbs hnew
  rw [htenants] at st
  refine (st.moves hmoves l).weaken fun t' ht' => ?_
  obtain ⟨r, hr, rfl⟩ := List.mem_map.mp ht'
  refine ⟨_, List.mem_map_of_mem hr, rfl, ?_⟩
  show r.computedBefore (out.tokensOf r.requestId) <+: (knownOf r.requestId).getD _
  cases h.starts hs t o hr with
  | @resumed q hq hres =>
    have hid : q.requestId = r.requestId := by rw [hres]
    have hcontext : r.computedBefore (out.tokensOf r.requestId) = q.computed := by
      rw [Request.computedBefore, ← hid, hres, hid]
      show q.allTokenIds.take (_ - _) = _
      rw [Nat.add_sub_cancel]
      rfl
    rw [hcontext, ← hid, hknown q hq]
    exact List.prefix_rfl
  | @admitted w n hw hid hn hstart =>
    rw [← hid, hnew w hw, hid, hn, Option.getD_none, Request.computedBefore, Option.getD_some,
      hstart, Nat.add_sub_cancel, Request.allTokenIds, List.take_append_of_le_length]
    · exact List.take_prefix_take_left (Nat.min_le_left _ _)
    · exact (Nat.min_le_right _ _).trans (Nat.sub_le _ _)

end Schedule

/-! ## Registration and the sweep -/

section Stages
variable {κ : Type} {m : CausalModel Token κ} {kv : KvCache κ} {e : LLMEngine}
  {prompts : Set (List Token)} {s s' : Scheduler} {known : RequestId → List Token}

/-- A sweep leaves the cache to whoever stays. -/
theorem Stored.freeFinishedRequests (l : Lodges e prompts s)
    (st : Stored m kv s.blockManager (tenantsKnowing known s.running)) {finished : List Request}
    (h : s.freeFinishedRequests = .ok (s', finished)) :
    Stored m kv s'.blockManager (tenantsKnowing known s'.running) := by
  have hmoves := @freeFinishedRequests_tenantMoves (fun id => some (known id)) 0 _ _ _ h
  exact st.moves hmoves (l.lodging.retold fun _ => ⟨rfl, rfl⟩)

variable (hinj : Lodging.Injective e.hashFn e.cacheConfig.blockSize prompts)
include hinj

/-- A registration hands over blocks behind which the right entries stand. -/
theorem Stored.registerPrefix (l : Lodges e prompts s)
    (hc : s.blockManager.prefixCache.isSome = true) {id : RequestId}
    (hg : ∀ r ∈ s.running, r.requestId = id → r.Grounded e.cacheConfig.blockSize)
    (hknown : ∀ r ∈ s.running, r.requestId = id →
      r.promptTokenIds.take r.numComputedPrompt <+: known id)
    (st : Stored m kv s.blockManager (tenantsKnowing known s.running))
    (h : s.registerPrefix id = .ok s') :
    Stored m kv s'.blockManager (tenantsKnowing known s'.running) := by
  rcases registerPrefix_cases l.inOrder h with rfl | ⟨pre, r, post, bm, r', hsplit, rfl, hins, rfl⟩
  · exact st
  · have hmem : r ∈ s.running := hsplit ▸ List.mem_append_right _ List.mem_cons_self
    obtain ⟨hfirst, hinj', hkeep⟩ := l.registering hinj hc hsplit (hg r hmem rfl)
    have hperm : ∀ q : Request,
        (pre ++ q :: post).Perm (q :: (pre ++ post)) := fun _ => List.perm_middle
    have st' : Stored m kv s.blockManager (tenantsKnowing known (r :: (pre ++ post))) :=
      st.weaken fun t ht => ⟨t, (((hsplit ▸ hperm r).map _).mem_iff).mpr ht, rfl, List.prefix_rfl⟩
    have l' : Lodging prompts s.blockManager (tenantsKnowing known (r :: (pre ++ post))) :=
      hfirst.retold fun _ => ⟨rfl, rfl⟩
    have hreg := st'.register (r := r) l' rfl rfl (l.prompts r hmem) hinj' hkeep (hknown r hmem rfl)
      hins
    exact hreg.weaken fun t ht => ⟨t, ((hperm _).map _).mem_iff.mp ht, rfl, List.prefix_rfl⟩

theorem Stored.registerLoop (l : Lodges e prompts s) (hc : s.blockManager.prefixCache.isSome = true)
    {scheduled : List ScheduledRequest}
    (hg : ∀ r ∈ s.running, r.requestId ∈ scheduled.map ScheduledRequest.request →
      r.Grounded e.cacheConfig.blockSize)
    (hknown : ∀ r ∈ s.running, r.requestId ∈ scheduled.map ScheduledRequest.request →
      r.promptTokenIds.take r.numComputedPrompt <+: known r.requestId)
    (st : Stored m kv s.blockManager (tenantsKnowing known s.running))
    (h : Scheduler.registerLoop scheduled s = .ok s') :
    Stored m kv s'.blockManager (tenantsKnowing known s'.running) := by
  induction scheduled generalizing s with
  | nil =>
    cases h
    exact st
  | cons sr scheduled ih =>
    obtain ⟨s₁, hrest, rfl | ⟨-, hreg⟩⟩ := registerLoop_cons h
    · exact ih l hc (fun r hr hid => hg r hr (List.mem_cons_of_mem _ hid))
        (fun r hr hid => hknown r hr (List.mem_cons_of_mem _ hid)) st hrest
    · have hg₁ : ∀ r ∈ s.running, r.requestId = sr.request → r.Grounded e.cacheConfig.blockSize :=
        fun r hr hid => hg r hr (hid ▸ List.mem_cons_self)
      obtain ⟨l₁, hone⟩ := l.registerPrefix hinj hc hg₁ hreg
      have hc₁ : s₁.blockManager.prefixCache.isSome = true := by
        rw [l₁.pool.caching, ← l.pool.caching]
        exact hc
      refine ih l₁ hc₁ (fun r₁ hr₁ hid => ?_) (fun r₁ hr₁ hid => ?_)
        (st.registerPrefix hinj l hc hg₁
          (fun r hr hid => hid ▸ hknown r hr (hid ▸ List.mem_cons_self)) hreg) hrest
      · obtain ⟨r, hr, hrr⟩ := hone r₁ hr₁
        refine hrr.grounded (hg r hr ?_)
        obtain ⟨_, rfl⟩ := hrr.renoded
        exact List.mem_cons_of_mem _ hid
      · obtain ⟨r, hr, hrr⟩ := hone r₁ hr₁
        obtain ⟨_, rfl⟩ := hrr.renoded
        exact hknown r hr (List.mem_cons_of_mem _ hid)

theorem Stored.registerComputed (l : Lodges e prompts s) {out : SchedulerOutput}
    (hg : ∀ r ∈ s.running, r.requestId ∈ out.scheduled.map ScheduledRequest.request →
      r.Grounded e.cacheConfig.blockSize)
    (hknown : ∀ r ∈ s.running, r.requestId ∈ out.scheduled.map ScheduledRequest.request →
      r.promptTokenIds.take r.numComputedPrompt <+: known r.requestId)
    (st : Stored m kv s.blockManager (tenantsKnowing known s.running))
    (h : s.registerComputed out = .ok s') :
    Stored m kv s'.blockManager (tenantsKnowing known s'.running) := by
  unfold Scheduler.registerComputed at h
  split at h
  · cases h
    exact st
  · rename_i hc
    exact st.registerLoop hinj l (by rw [hc]; rfl) hg hknown h

end Stages

/-! ## Between calls -/

variable {κ : Type}

/-- The stages of a step that returned. -/
theorem CachedEngine.step_eq_ok_iff {e : CachedEngine κ} {drafts : Option (RequestId → List Token)}
    {s s' : Scheduler} {out : SchedulerOutput} {finished : List Request} {kv kv' : KvCache κ} :
    e.step drafts s kv = .ok ((s', out, finished), kv') ↔ ∃ s₁ s₂ s₃ s₅,
      s.schedule = .ok (s₁, out) ∧ e.runner.executeModel s₁ out kv = .ok (s₂, kv') ∧
        s₂.registerComputed out = .ok s₃ ∧
        (correctLoop (s₁.specPreLen out) out.scheduledRunning s₃).freeFinishedRequests =
          .ok (s₅, finished) ∧ s' = s₅.proposeIf drafts := by
  constructor
  · intro h
    obtain ⟨⟨s₁, out'⟩, h₁, h⟩ := bind_eq_ok.mp h
    obtain ⟨⟨s₂, kv₂⟩, h₂, h⟩ := bind_eq_ok.mp h
    obtain ⟨s₃, h₃, h⟩ := bind_eq_ok.mp h
    obtain ⟨⟨s₅, finished'⟩, h₅, h⟩ := bind_eq_ok.mp h
    cases drafts with
    | none => cases h; exact ⟨s₁, s₂, s₃, s₅, h₁, h₂, h₃, h₅, rfl⟩
    | some d => cases h; exact ⟨s₁, s₂, s₃, s₅, h₁, h₂, h₃, h₅, rfl⟩
  · rintro ⟨s₁, s₂, s₃, s₅, h₁, h₂, h₃, h₅, rfl⟩
    refine bind_eq_ok.mpr ⟨_, h₁, bind_eq_ok.mpr ⟨_, h₂, bind_eq_ok.mpr ⟨_, h₃,
      bind_eq_ok.mpr ⟨_, h₅, ?_⟩⟩⟩⟩
    cases drafts <;> rfl

/-- A turn leaves a table that covers all tokens but the newest. -/
theorem Advance.covered {next : List Token → Token} {r x : Request} {out : SchedulerOutput}
    {bm : BlockManager} (h : Advance next r (out.tokensOf r.requestId) x) (hc : r.Covered bm out) :
    x.getLen ≤ bm.capacity r.requestId + 1 := by
  have hlisted : (out.tokensOf r.requestId).isSome = true →
      r.requestId ∈ out.scheduled.map ScheduledRequest.request :=
    SchedulerOutput.tokensOf_isSome_iff.mp
  generalize out.tokensOf r.requestId = tokens at h hlisted
  cases h with
  | idle => exact hc.known
  | chunk => exact hc.known
  | sample _ hd _ =>
    refine le_trans (le_of_eq ?_) (Nat.add_le_add_right (hc.whole (hlisted rfl) hd) 1)
    simp only [Request.getLen, Request.grown, List.length_append, List.length_singleton]
    omega
  | @verify n kept hv hk _ =>
    have hrange := hc.range (hlisted rfl)
    have hlen := hk.length_le.trans (Decode.length_verify_le _ _ _)
    obtain ⟨-, hlength, hcomputed, hlast, -⟩ := hv
    simp only [Request.getLen, Request.grown, List.length_append] at hlast ⊢
    omega

/-- The turns of a step over what its schedule left: whoever has rows reaches its nodes with them,
and goes on from its own tokens. -/
structure LLMEngine.SoundPass (e : LLMEngine) (s : Scheduler) (out : SchedulerOutput) : Prop where
  reaches : s.Reaches e.cacheConfig.blockSize out
  advance : ∀ r ∈ s.running, Advance e.runner.next r (out.tokensOf r.requestId) (e.turn out r)

/-- Rows of its own tokens, or of a verify round. -/
theorem Advance.rowed {next : List Token → Token} {r x : Request} {n : ℕ}
    (h : Advance next r (some n) x) : r.Rowed n := by
  cases h with
  | chunk hp hd => exact .inl ⟨hd, hp⟩
  | sample hp hd => exact .inl ⟨hd, hp⟩
  | verify hv => exact .inr hv

/-- An engine with its cache: a table covers all tokens but the newest of its request, and holds
the entries of the computed ones. -/
structure Furnished (e : CachedEngine κ) (prompts : Set (List Token)) (s : Scheduler)
    (kv : KvCache κ) : Prop where
  housed : Housed e.toLLMEngine prompts s
  covered : ∀ r ∈ s.running, r.getLen ≤ s.blockManager.capacity r.requestId + 1
  stored : Stored e.runner.model kv s.blockManager (s.running.map fun r => r.knowing r.computed)

namespace Furnished
variable {e : CachedEngine κ} {prompts : Set (List Token)} {s s' s₁ : Scheduler}
  {kv kv' : KvCache κ} {out : SchedulerOutput} {drafts : Option (RequestId → List Token)}
  {finished : List Request}

theorem start (prompts : Set (List Token)) (hsize : kv.blockSize = e.cacheConfig.blockSize) :
    Furnished e prompts e.toLLMEngine.start kv where
  housed := .start _ prompts
  covered _ hr := (List.not_mem_nil hr).elim
  stored := .new _ _ hsize

theorem addRequest (h : Furnished e prompts s kv) {id : RequestId} {promptTokenIds : List Token}
    {params : SamplingParams} (hp : promptTokenIds ≠ []) (hmem : promptTokenIds ∈ prompts)
    (hs : s.addRequest (LLMEngine.newRequest id promptTokenIds params) = .ok s') :
    Furnished e prompts s' kv := by
  have hhoused := h.housed.addRequest hp hmem hs
  rw [addRequest_eq hs] at *
  exact ⟨hhoused, h.covered, h.stored⟩

theorem abortRequests (h : Furnished e prompts s kv) {ids : List RequestId} {gone : List Request}
    (hs : s.abortRequests ids = .ok (s', gone)) : Furnished e prompts s' kv := by
  have o := h.housed.live.inOrder
  have hkept := (mem_of_abortRequests hs).1
  obtain ⟨finished, hfree, -⟩ := sweep_of_abortRequests hs
  have hstored : Stored e.runner.model kv (s.markAborted ids).blockManager
      (tenantsKnowing (s.byId Request.computed) (s.markAborted ids).running) := by
    have hmarked : tenantsKnowing (s.byId Request.computed) (s.markAborted ids).running =
        tenantsKnowing (s.byId Request.computed) s.running := by
      rw [tenantsKnowing, tenantsKnowing, markAborted, List.map_map]
      refine List.map_congr_left fun r _ => ?_
      rw [Function.comp_apply]
      split <;> rfl
    rw [hmarked, tenantsKnowing_byId o]
    exact h.stored
  have hswept := hstored.freeFinishedRequests (h.housed.lodges.markAborted ids) hfree
  refine ⟨h.housed.abortRequests hs, fun r hr => ?_, ?_⟩
  · rw [capacity_freeFinishedRequests (o.markAborted ids) hfree hr]
    exact h.covered r (hkept r hr)
  · refine hswept.weaken fun t ht => ⟨t, ?_, rfl, List.prefix_rfl⟩
    obtain ⟨r, hr, rfl⟩ := List.mem_map.mp ht
    have hmem : r.knowing (s.byId Request.computed r.requestId) ∈ tenantsKnowing _ _ :=
      mem_tenantsKnowing hr
    rwa [byId_eq o _ (hkept r hr)] at hmem

/-- After the schedule, `execute_model` finds what it relies on. -/
theorem schedule (h : Furnished e prompts s kv) (hs : s.schedule = .ok (s₁, out))
    (hpass : e.toLLMEngine.SoundPass s₁ out) : s₁.Runnable prompts out ∧
      Stored e.runner.model kv s₁.blockManager
        (s₁.running.map fun r => r.knowing (out.context r)) := by
  obtain ⟨plan, victims, as, t⟩ := StepTrace.of_schedule hs
  obtain ⟨o, -⟩ := h.housed.live.inOrder.schedule hs
  have hsize : 0 < s.blockManager.blockSize := by
    rw [h.housed.lodges.pool.blockSize]
    exact e.cacheConfig.blockSize_pos
  refine ⟨⟨o, (h.housed.schedule hs).lodging, t.scheduled_nodup o, fun r hr n hn => ?_, ?_⟩,
    h.stored.schedule h.housed hs⟩
  · exact (hn ▸ hpass.advance r hr).rowed
  · exact Scheduler.covered h.housed.lodges.accounted hsize h.covered h.housed.live.queued hs

section Step
variable {s₃ s₅ : Scheduler} {turned : Request → Request}

/-- The registration of a step hands over entries of prompts. -/
private theorem registered (h : Furnished e prompts s kv)
    (hinj : Lodging.Injective e.hashFn e.cacheConfig.blockSize prompts)
    (hpass : e.toLLMEngine.SoundPass s₁ out)
    (st : e.toLLMEngine.StepStages drafts s s' out finished s₁ s₃ s₅ turned)
    (hstored : Stored e.runner.model kv' s₁.blockManager
      (s₁.running.map fun r => r.knowing (out.extended r))) :
    Stored e.runner.model kv' s₃.blockManager
      (tenantsKnowing (s₁.byId out.extended) (s₁.running.map turned)) := by
  have o := st.inOrder
  have hserve := LLMEngine.sameRequest_serve e.toLLMEngine out
  have hserved : Stored e.runner.model kv' s₁.blockManager (tenantsKnowing (s₁.byId out.extended)
      (s₁.running.map (e.toLLMEngine.runner.serve out))) := by
    have hsame : tenantsKnowing (s₁.byId out.extended)
        (s₁.running.map (e.toLLMEngine.runner.serve out)) =
        s₁.running.map fun r => r.knowing (out.extended r) := by
      rw [← tenantsKnowing_byId o, tenantsKnowing, tenantsKnowing, List.map_map]
      refine List.map_congr_left fun r _ => ?_
      simp only [Function.comp_apply, Request.knowing, (hserve r).requestId,
        (hserve r).cachedPrefixNodes, (hserve r).promptTokenIds]
    rw [hsame]
    exact hstored
  have hreg := hserved.registerComputed hinj ((h.housed.schedule st.schedule).serve _ out)
    (hpass.reaches.serve _) (fun q hq hid => ?_) st.register
  · have hturned : tenantsKnowing (s₁.byId out.extended) s₃.running =
        tenantsKnowing (s₁.byId out.extended) (s₁.running.map turned) := by
      rw [st.registered, tenantsKnowing, tenantsKnowing, List.map_map, List.map_map]
      refine List.map_congr_left fun r _ => ?_
      obtain ⟨hid, hprompt, -⟩ := LLMEngine.turned_keeps (st.renoded r)
      simp only [Function.comp_apply, Request.knowing, (hserve r).requestId,
        (hserve r).promptTokenIds, hid, hprompt]
    rw [← hturned]
    exact hreg
  · obtain ⟨r, hr, rfl⟩ := List.mem_map.mp hq
    rw [(hserve r).requestId] at hid ⊢
    obtain ⟨n, hn⟩ := Option.isSome_iff_exists.mp (SchedulerOutput.tokensOf_isSome_iff.mpr hid)
    have hrowed := (hn ▸ hpass.advance r hr).rowed.registers
    rw [byId_eq o _ hr, SchedulerOutput.extended, SchedulerOutput.context, hn,
      Request.numComputedPrompt, serve_numComputedTokens, (hserve r).promptTokenIds]
    exact hrowed

theorem step (h : Furnished e prompts s kv)
    (hinj : Lodging.Injective e.hashFn e.cacheConfig.blockSize prompts)
    (hpass : ∀ s₁ out, s.schedule = .ok (s₁, out) → e.toLLMEngine.SoundPass s₁ out)
    (hs : e.step drafts s kv = .ok ((s', out, finished), kv')) :
    e.toLLMEngine.step drafts s = .ok (s', out, finished) ∧ Furnished e prompts s' kv' := by
  obtain ⟨s₁, s₂, s₃, s₅, h₁, h₂, h₃, h₅, rfl⟩ := CachedEngine.step_eq_ok_iff.mp hs
  replace hpass := hpass s₁ out h₁
  obtain ⟨p, st₁⟩ := h.schedule h₁ hpass
  obtain ⟨h₂', st₂⟩ := p.executeModel st₁ h₂
  have hstep : e.toLLMEngine.step drafts s = .ok (s₅.proposeIf drafts, out, finished) :=
    LLMEngine.step_eq_ok_iff.mpr ⟨s₁, s₂, s₃, s₅, h₁, h₂', h₃, h₅, rfl⟩
  obtain ⟨s₁', s₃', s₅', turned, st⟩ :=
    LLMEngine.stages_of_step h.housed.live.inOrder h.housed.live.queued hstep
  obtain ⟨rfl, -⟩ := Prod.mk.inj (Except.ok.inj (h₁.symm.trans st.schedule))
  have o := st.inOrder
  have lturned := h.housed.lodges_turned hinj hpass.reaches st
  have hswept := (h.registered hinj hpass st st₂).freeFinishedRequests lturned st.sweep
  have hcap : ∀ q ∈ s₅'.running,
      s₅'.blockManager.capacity q.requestId = s₁.blockManager.capacity q.requestId := fun q hq =>
    (capacity_freeFinishedRequests lturned.inOrder st.sweep hq).trans
      (capacity_registerComputed st.register _)
  -- what a request that stays has computed, and the table it needs
  have hstays : ∀ q ∈ s₅'.running, (q.proposed drafts).requestId = q.requestId ∧
      (q.proposed drafts).getLen ≤ s₁.blockManager.capacity q.requestId + 1 ∧
      (q.proposed drafts).computed <+: s₁.byId out.extended q.requestId := by
    obtain ⟨-, hrunning, -⟩ := lturned.inOrder.freeFinishedRequests st.sweep
    intro q hq
    rw [hrunning] at hq
    obtain ⟨r, hr, rfl⟩ := List.mem_map.mp (List.mem_filter.mp hq).1
    have ha := hpass.advance r hr
    have hid : (turned r).requestId = r.requestId := (LLMEngine.turned_keeps (st.renoded r)).1
    rw [hid, byId_eq o _ hr]
    obtain ⟨draft, hprop⟩ := Request.proposed_eq drafts (turned r)
    obtain ⟨nodes, hnodes⟩ := st.renoded r
    rw [hprop, hnodes]
    rw [hnodes] at hid
    exact ⟨hid, ha.covered (p.covered r hr), ha.computed⟩
  refine ⟨hstep, h.housed.step hinj hpass.reaches st hstep, ?_, ?_⟩
  · rw [st.propose, proposeIf_eq]
    refine List.forall_mem_map.mpr fun q hq => ?_
    obtain ⟨hid, hlen, -⟩ := hstays q hq
    rw [hid, hcap q hq]
    exact hlen
  · rw [st.propose, proposeIf_eq]
    refine hswept.weaken fun t' ht' => ?_
    obtain ⟨q', hq', rfl⟩ := List.mem_map.mp ht'
    obtain ⟨q, hq, rfl⟩ := List.mem_map.mp hq'
    obtain ⟨hid, -, hcomputed⟩ := hstays q hq
    exact ⟨_, mem_tenantsKnowing hq, hid.symm, hcomputed⟩

/-- A step over the cache returns whenever it does without one. -/
theorem step_returns (h : Furnished e prompts s kv)
    (hpass : ∀ s₁ out, s.schedule = .ok (s₁, out) → e.toLLMEngine.SoundPass s₁ out)
    (hs : e.toLLMEngine.step drafts s = .ok (s', out, finished)) :
    ∃ kv', e.step drafts s kv = .ok ((s', out, finished), kv') := by
  obtain ⟨s₁, s₂, s₃, s₅, h₁, h₂, h₃, h₅, rfl⟩ := LLMEngine.step_eq_ok_iff.mp hs
  obtain ⟨p, st₁⟩ := h.schedule h₁ (hpass s₁ out h₁)
  obtain ⟨kv', h₂'⟩ := p.executeModel_returns st₁ h₂
  exact ⟨kv', CachedEngine.step_eq_ok_iff.mpr ⟨s₁, s₂, s₃, s₅, h₁, h₂', h₃, h₅, rfl⟩⟩

end Step

end Furnished

/-- An engine between its calls: a table covers all tokens but the newest of its request, and holds
the entries of the computed ones. -/
structure Intact (e : CachedEngine κ) (prompts : Set (List Token)) (s : Scheduler)
    (kv : KvCache κ) : Prop where
  owning : Owning e.toLLMEngine prompts s
  phased : Phased e.toLLMEngine.lookahead s
  covered : ∀ r ∈ s.running, r.getLen ≤ s.blockManager.capacity r.requestId + 1
  stored : Stored e.runner.model kv s.blockManager (s.running.map fun r => r.knowing r.computed)

namespace Intact
variable {e : CachedEngine κ} {prompts : Set (List Token)} {s s' s₁ : Scheduler}
  {kv kv' : KvCache κ} {out : SchedulerOutput} {drafts : Option (RequestId → List Token)}
  {finished : List Request}

theorem furnished (h : Intact e prompts s kv) : Furnished e prompts s kv :=
  ⟨h.owning.housed, h.covered, h.stored⟩

theorem start (prompts : Set (List Token)) (hsize : kv.blockSize = e.cacheConfig.blockSize) :
    Intact e prompts e.toLLMEngine.start kv where
  owning := .start _ prompts
  phased := .new _ _ _ _
  covered _ hr := (List.not_mem_nil hr).elim
  stored := .new _ _ hsize

theorem addRequest (h : Intact e prompts s kv) {id : RequestId} {promptTokenIds : List Token}
    {params : SamplingParams} (hp : promptTokenIds ≠ []) (hmem : promptTokenIds ∈ prompts)
    (hs : s.addRequest (LLMEngine.newRequest id promptTokenIds params) = .ok s') :
    Intact e prompts s' kv := by
  obtain ⟨-, hcovered, hstored⟩ := h.furnished.addRequest hp hmem hs
  exact ⟨h.owning.addRequest hp hmem hs, h.phased.addRequest hs, hcovered, hstored⟩

theorem abortRequests (h : Intact e prompts s kv) {ids : List RequestId} {gone : List Request}
    (hs : s.abortRequests ids = .ok (s', gone)) : Intact e prompts s' kv := by
  obtain ⟨-, hcovered, hstored⟩ := h.furnished.abortRequests hs
  exact ⟨h.owning.abortRequests hs, h.phased.abortRequests hs, hcovered, hstored⟩

theorem soundPass (h : Intact e prompts s kv) (hs : s.schedule = .ok (s₁, out)) :
    e.toLLMEngine.SoundPass s₁ out := by
  obtain ⟨plan, victims, as, t⟩ := StepTrace.of_schedule hs
  obtain ⟨o, -⟩ := h.owning.live.inOrder.schedule hs
  exact ⟨h.owning.reaches hs,
    fun r hr => h.phased.advance h.owning.stale h.owning.live.queued t o hr⟩

/-- After the schedule, `execute_model` finds what it relies on. -/
theorem schedule (h : Intact e prompts s kv) (hs : s.schedule = .ok (s₁, out)) :
    s₁.Runnable prompts out ∧
      Stored e.runner.model kv s₁.blockManager
        (s₁.running.map fun r => r.knowing (out.context r)) :=
  h.furnished.schedule hs (h.soundPass hs)

theorem step (h : Intact e prompts s kv)
    (hinj : Lodging.Injective e.hashFn e.cacheConfig.blockSize prompts)
    (hd : e.toLLMEngine.Proposes drafts) (hm : e.speculativeConfig = none ∨ s.BumpsUndrafted)
    (hs : e.step drafts s kv = .ok ((s', out, finished), kv')) :
    e.toLLMEngine.step drafts s = .ok (s', out, finished) ∧ Intact e prompts s' kv' := by
  obtain ⟨hstep, -, hcovered, hstored⟩ := h.furnished.step hinj (fun _ _ => h.soundPass) hs
  obtain ⟨s₁, plan, victims, as, turned, spec⟩ :=
    LLMEngine.stepSpec_of_step h.owning.live.inOrder h.owning.live.queued hstep
  exact ⟨hstep, h.owning.step hinj hd hstep,
    h.phased.step h.owning.stale h.owning.live.queued hm spec hd, hcovered, hstored⟩

/-- A step over the cache returns whenever it does without one. -/
theorem step_returns (h : Intact e prompts s kv)
    (hs : e.toLLMEngine.step drafts s = .ok (s', out, finished)) :
    ∃ kv', e.step drafts s kv = .ok ((s', out, finished), kv') :=
  h.furnished.step_returns (fun _ _ => h.soundPass) hs

end Intact

end LightServe
