import LightServe.Serving.Run

/-!
# Registration

After the forward pass a step registers what its requests have computed of their prompts. A
request whose nodes lie within its computed tokens registers without a cut: no hold is lost, so
that the blocks stay in one place, and its nodes lie within its computed tokens afterwards.

## Main definitions

* `Request.Grounded` — the nodes of a request lie within its computed tokens.
* `Lodges` — every block is in one place, and the trie spells the prompts of its holders.
* `Lodges.schedule`, `Lodges.registerLoop`, `Lodges.freeFinishedRequests` — the stages of a step
  keep it.
-/

namespace LightServe

open Relation (ReflTransGen)
open Scheduler

/-- A registration changes the nodes of the request it is for. -/
theorem Scheduler.registerPrefix_cases {s s' : Scheduler} {id : RequestId} (o : InOrder s)
    (h : s.registerPrefix id = .ok s') : s' = s ∨ ∃ pre r post bm r', s.running = pre ++ r :: post ∧
      r.requestId = id ∧ s.blockManager.insertComputedPrefix r = .ok (bm, r') ∧
      s' = { s with
        blockManager := bm
        running := pre ++ { r with cachedPrefixNodes := r'.cachedPrefixNodes } :: post } := by
  unfold Scheduler.registerPrefix at h
  split at h
  · cases h
    exact .inl rfl
  · rename_i r hfind
    obtain ⟨⟨bm, r'⟩, hins, hret⟩ := bind_eq_ok.mp h
    cases hret
    obtain ⟨hmem, rfl⟩ := findRequest_eq_some hfind
    obtain ⟨pre, post, hsplit, hupdate⟩ :=
      Keyed.exists_update Request.requestId o.running_nodup hmem
      fun q => { q with cachedPrefixNodes := r'.cachedPrefixNodes }
    refine .inr ⟨pre, r, post, bm, r', hsplit, rfl, hins, ?_⟩
    rw [← hupdate]
    rfl

/-- The nodes that a request holds lie within its computed tokens. -/
def Request.Grounded (blockSize : ℕ) (r : Request) : Prop :=
  r.cachedPrefixNodes.length * blockSize ≤ r.numComputedTokens

/-- The running requests lodge with the block manager of an engine: every block is in one place,
and whoever waits holds nothing. -/
structure Lodges (e : LLMEngine) (prompts : Set (List Token)) (s : Scheduler) : Prop where
  inOrder : InOrder s
  lodging : Lodging prompts s.blockManager s.tenants
  prompts : ∀ r ∈ s.running, r.promptTokenIds ∈ prompts
  uncached : ∀ r ∈ s.waiting, r.cachedPrefixNodes = []
  pool : SamePool e.start.blockManager s.blockManager
  hashFn : s.blockManager.prefixCache.isSome = true → s.blockManager.tree.hashFn = e.hashFn

namespace Lodges
variable {e : LLMEngine} {prompts : Set (List Token)} {s s' : Scheduler}

theorem accounted (l : Lodges e prompts s) : Accounted s [] fun _ => 0 where
  accounts := by
    have h := l.lodging.partition.toAccounts
    rw [Scheduler.tenants, stakesOf_tenants] at h
    rw [List.append_nil]
    exact h
  uncached := l.uncached

theorem start (e : LLMEngine) (prompts : Set (List Token)) : Lodges e prompts e.start where
  inOrder := ⟨rfl, List.nodup_nil⟩
  lodging := .new prompts e.cacheConfig e.hashFn
  prompts _ hr := (List.not_mem_nil hr).elim
  uncached _ hr := (List.not_mem_nil hr).elim
  pool := .refl _
  hashFn h := by
    unfold LLMEngine.start Scheduler.new BlockManager.tree BlockManager.new at *
    dsimp only at *
    split at h
    · rename_i hc
      rw [if_pos hc]
      rfl
    · cases h

/-- What moves tenants keeps the lodging. -/
theorem of_moves (l : Lodges e prompts s) (o : InOrder s')
    (h : ReflTransGen TenantMove (s.blockManager, s.tenants) (s'.blockManager,
      s'.running.map (Request.tenant (fun _ => none) s.blockManager.blockSize)))
    (hprompts : ∀ r ∈ s'.running, r.promptTokenIds ∈ prompts)
    (huncached : ∀ r ∈ s'.waiting, r.cachedPrefixNodes = []) : Lodges e prompts s' := by
  obtain ⟨hpool, hhash⟩ := l.lodging.pool_of_moves h
  have hbs : s'.blockManager.blockSize = s.blockManager.blockSize := hpool.blockSize
  refine ⟨o, ?_, hprompts, huncached, l.pool.trans hpool, fun hc => ?_⟩
  · rw [Scheduler.tenants, hbs]
    exact l.lodging.moves h
  · rw [hhash]
    exact l.hashFn (hpool.caching.symm.trans hc)

/-- Running requests with the same ids, holds and prompts lodge as the others did. -/
theorem replaceRunning (l : Lodges e prompts s) {rs : List Request}
    (hrs : rs.map (fun r => (r.stake, r.promptTokenIds)) =
      s.running.map fun r => (r.stake, r.promptTokenIds)) :
    Lodges e prompts { s with running := rs } := by
  have hmap : ∀ {α : Type} (f : Stake × List Token → α),
      rs.map (fun r => f (r.stake, r.promptTokenIds)) =
        s.running.map fun r => f (r.stake, r.promptTokenIds) := by
    intro α f
    simpa only [List.map_map, Function.comp_def] using congrArg (List.map f) hrs
  refine ⟨⟨?_, l.inOrder.nodup⟩, ?_, fun r hr => ?_, l.uncached, l.pool, l.hashFn⟩
  · rw [← l.inOrder.ids, List.map_append, List.map_append]
    congr 1
    exact hmap fun q => q.1.1
  · have htenants : Scheduler.tenants { s with running := rs } = s.tenants :=
      hmap fun q => { requestId := q.1.1, nodes := q.1.2, prompt := q.2,
                      known := q.2.take (q.1.2.length * s.blockManager.blockSize) : Tenant }
    rw [htenants]
    exact l.lodging
  · have hmem : r.promptTokenIds ∈ s.running.map fun q => q.promptTokenIds := by
      rw [← hmap fun q => q.2]
      exact List.mem_map_of_mem hr
    obtain ⟨q, hq, hprompt⟩ := List.mem_map.mp hmem
    rw [← hprompt]
    exact l.prompts q hq

/-- Changing running requests without touching their ids, prompts and holds. -/
theorem updateRunning (l : Lodges e prompts s) (f : Request → Request)
    (hf : ∀ r ∈ s.running, (f r).stake = r.stake ∧ (f r).promptTokenIds = r.promptTokenIds) :
    Lodges e prompts { s with running := s.running.map f } := by
  refine l.replaceRunning ?_
  rw [List.map_map]
  exact List.map_congr_left fun r hr => Prod.ext (hf r hr).1 (hf r hr).2

theorem addRequest (l : Lodges e prompts s) {id : RequestId} {promptTokenIds : List Token}
    {params : SamplingParams}
    (h : s.addRequest (LLMEngine.newRequest id promptTokenIds params) = .ok s') :
    Lodges e prompts s' := by
  have o := (l.inOrder.addRequest h).1
  rw [addRequest_eq h] at o ⊢
  refine ⟨o, l.lodging, l.prompts, fun r hr => ?_, l.pool, l.hashFn⟩
  rcases List.mem_append.mp hr with hr | hr
  · exact l.uncached r hr
  · rw [List.mem_singleton.mp hr]
    rfl

theorem freeFinishedRequests (l : Lodges e prompts s) {finished : List Request}
    (h : s.freeFinishedRequests = .ok (s', finished)) : Lodges e prompts s' := by
  obtain ⟨o, hrunning, hwaiting, -⟩ := l.inOrder.freeFinishedRequests h
  refine l.of_moves o (freeFinishedRequests_tenantMoves h) (fun r hr => ?_) fun r hr => ?_
  · rw [hrunning] at hr
    exact l.prompts r (List.mem_filter.mp hr).1
  · rw [hwaiting] at hr
    exact l.uncached r hr

theorem markAborted (l : Lodges e prompts s) (ids : List RequestId) :
    Lodges e prompts (s.markAborted ids) := by
  have h := l.updateRunning (fun r : Request =>
    if r.requestId ∈ ids then { r with status := .finishedAborted } else r) fun r _ => by
      split <;> exact ⟨rfl, rfl⟩
  exact ⟨l.inOrder.markAborted ids, h.lodging, h.prompts,
    fun r hr => l.uncached r (List.mem_filter.mp hr).1, l.pool, l.hashFn⟩

theorem abortRequests (l : Lodges e prompts s) {ids : List RequestId} {gone : List Request}
    (h : s.abortRequests ids = .ok (s', gone)) : Lodges e prompts s' := by
  obtain ⟨finished, hfree, -⟩ := sweep_of_abortRequests h
  exact (l.markAborted ids).freeFinishedRequests hfree

theorem schedule (l : Lodges e prompts s) (hwaiting : ∀ r ∈ s.waiting, r.promptTokenIds ∈ prompts)
    {out : SchedulerOutput} (h : s.schedule = .ok (s', out)) : Lodges e prompts s' := by
  obtain ⟨plan, victims, as, t⟩ := StepTrace.of_schedule h
  refine l.of_moves (l.inOrder.schedule h).1 (l.accounted.schedule_tenantMoves h rfl fun _ _ => rfl)
    (fun r hr => ?_) (l.accounted.schedule h).uncached
  rw [t.running', List.mem_append] at hr
  rcases hr with hr | hr
  · obtain ⟨d, hd, rfl⟩ := List.mem_map.mp hr
    rw [Decision.result_promptTokenIds]
    exact l.prompts _ (t.running ▸ List.mem_append_left _ (List.mem_map_of_mem hd))
  · obtain ⟨a, ha, rfl⟩ := List.mem_map.mp hr
    exact hwaiting a.request (t.mem_waiting ha)

/-! ## Registration -/

/-- What the registration of some requests makes of a running one. -/
structure Registered (blockSize : ℕ) (ids : List RequestId) (r r' : Request) : Prop where
  renoded : Renoded r r'
  grounded : r.Grounded blockSize → r'.Grounded blockSize
  other : r.requestId ∉ ids → r' = r

theorem Registered.refl (blockSize : ℕ) (ids : List RequestId) (r : Request) :
    Registered blockSize ids r r :=
  ⟨.refl r, id, fun _ => rfl⟩

theorem Registered.trans {blockSize : ℕ} {id : RequestId} {ids : List RequestId}
    {r r' r'' : Request} (h : Registered blockSize [id] r r')
    (h' : Registered blockSize ids r' r'') :
    Registered blockSize (id :: ids) r r'' := by
  refine ⟨h.renoded.trans h'.renoded, fun hg => h'.grounded (h.grounded hg), fun hid => ?_⟩
  obtain ⟨hne, hids⟩ := not_or.mp (mt List.mem_cons.mpr hid)
  obtain rfl := h.other fun hmem => hne (List.mem_singleton.mp hmem)
  exact h'.other hids

section Registration
variable (hinj : Lodging.Injective e.hashFn e.cacheConfig.blockSize prompts)
include hinj

/-- Whoever registers, first among the tenants. -/
theorem registering (l : Lodges e prompts s) (hc : s.blockManager.prefixCache.isSome = true)
    {pre post : List Request} {r : Request} (hsplit : s.running = pre ++ r :: post)
    (hg : r.Grounded e.cacheConfig.blockSize) :
    Lodging prompts s.blockManager
      ((r :: (pre ++ post)).map (Request.tenant (fun _ => none) s.blockManager.blockSize)) ∧
    Lodging.Injective s.blockManager.tree.hashFn s.blockManager.blockSize prompts ∧
    r.cachedPrefixNodes.length ≤ r.numComputedPrompt / s.blockManager.blockSize := by
  have hbs : s.blockManager.blockSize = e.cacheConfig.blockSize := l.pool.blockSize
  have hfirst : Lodging prompts s.blockManager
      ((r :: (pre ++ post)).map (Request.tenant (fun _ => none) s.blockManager.blockSize)) := by
    refine l.lodging.perm (List.Perm.map _ ?_)
    rw [hsplit]
    exact List.perm_middle
  refine ⟨hfirst, ?_, ?_⟩
  · rw [l.hashFn hc, hbs]
    exact hinj
  · have hpos : 0 < s.blockManager.blockSize := hbs ▸ e.cacheConfig.blockSize_pos
    have hlen := hfirst.length_le List.mem_cons_self
    rw [Nat.le_div_iff_mul_le hpos]
    exact le_min (by rw [hbs]; exact hg) hlen

/-- A running request that is grounded is registered without a cut. -/
theorem registerPrefix (l : Lodges e prompts s) (hc : s.blockManager.prefixCache.isSome = true)
    {id : RequestId}
    (hg : ∀ r ∈ s.running, r.requestId = id → r.Grounded e.cacheConfig.blockSize)
    (h : s.registerPrefix id = .ok s') : Lodges e prompts s' ∧
      ∀ r' ∈ s'.running, ∃ r ∈ s.running, Registered e.cacheConfig.blockSize [id] r r' := by
  have o := (l.inOrder.registerPrefix h).1
  rcases registerPrefix_cases l.inOrder h with rfl | ⟨pre, r, post, bm, r', hsplit, rfl, hins, rfl⟩
  · exact ⟨l, fun r hr => ⟨r, hr, .refl _ _ r⟩⟩
  · obtain ⟨hfirst, hinj', hkeep⟩ := l.registering hinj hc hsplit
      (hg r (hsplit ▸ List.mem_append_right _ List.mem_cons_self) rfl)
    have hmem : r ∈ s.running := hsplit ▸ List.mem_append_right _ List.mem_cons_self
    have hbs : s.blockManager.blockSize = e.cacheConfig.blockSize := l.pool.blockSize
    have hprompt := l.prompts r hmem
    obtain ⟨hpool, hhash, hnodes⟩ := hfirst.registered (r := r) rfl rfl hprompt hinj' hins
    have hlodging := hfirst.register (r := r) rfl rfl hprompt hinj' hkeep hins
    have hbs' : bm.blockSize = s.blockManager.blockSize := hpool.blockSize
    refine ⟨⟨o, ?_, fun q hq => ?_, l.uncached, l.pool.trans hpool, fun _ => ?_⟩, fun q hq => ?_⟩
    · show Lodging prompts bm (List.map (Request.tenant (fun _ => none) bm.blockSize)
        (pre ++ _ :: post))
      rw [hbs']
      refine (hlodging.congr ?_ ?_).perm (List.Perm.map _ List.perm_middle.symm)
      · rfl
      · refine List.forall_mem_cons.mpr ⟨⟨_, List.mem_cons_self, rfl, rfl⟩, fun t ht => ?_⟩
        exact ⟨t, List.mem_cons_of_mem _ ht, rfl, rfl⟩
    · rcases List.mem_append.mp hq with hq | hq
      · exact l.prompts q (hsplit ▸ List.mem_append_left _ hq)
      · rcases List.mem_cons.mp hq with rfl | hq
        · exact hprompt
        · exact l.prompts q (hsplit ▸ List.mem_append_right _ (List.mem_cons_of_mem _ hq))
    · exact hhash.trans (l.hashFn hc)
    · rcases List.mem_append.mp hq with hq | hq
      · exact ⟨q, hsplit ▸ List.mem_append_left _ hq, .refl _ _ q⟩
      · rcases List.mem_cons.mp hq with rfl | hq
        · refine ⟨r, hmem, ⟨_, rfl⟩, fun hg => ?_,
            fun hne => absurd (List.mem_singleton.mpr rfl) hne⟩
          rw [← hbs] at hg ⊢
          exact hnodes hg
        · exact ⟨q, hsplit ▸ List.mem_append_right _ (List.mem_cons_of_mem _ hq), .refl _ _ q⟩

/-- So are all of them in a row. -/
theorem registerLoop (l : Lodges e prompts s) (hc : s.blockManager.prefixCache.isSome = true)
    {scheduled : List ScheduledRequest}
    (hg : ∀ r ∈ s.running, r.requestId ∈ scheduled.map ScheduledRequest.request →
      r.Grounded e.cacheConfig.blockSize)
    (h : Scheduler.registerLoop scheduled s = .ok s') : Lodges e prompts s' ∧
      ∀ r' ∈ s'.running, ∃ r ∈ s.running, Registered e.cacheConfig.blockSize
        (scheduled.map ScheduledRequest.request) r r' := by
  induction scheduled generalizing s with
  | nil =>
    cases h
    exact ⟨l, fun r hr => ⟨r, hr, .refl _ _ r⟩⟩
  | cons sr scheduled ih =>
    obtain ⟨s₁, hrest, rfl | ⟨-, hreg⟩⟩ := registerLoop_cons h
    · obtain ⟨l', hall⟩ := ih l hc (fun r hr hid => hg r hr (List.mem_cons_of_mem _ hid)) hrest
      refine ⟨l', fun r' hr' => ?_⟩
      obtain ⟨r, hr, hrr⟩ := hall r' hr'
      exact ⟨r, hr, .trans (.refl _ _ r) hrr⟩
    · obtain ⟨l₁, hone⟩ := l.registerPrefix hinj hc
        (fun r hr hid => hg r hr (hid ▸ List.mem_cons_self)) hreg
      have hc₁ : s₁.blockManager.prefixCache.isSome = true := by
        rw [l₁.pool.caching, ← l.pool.caching]
        exact hc
      obtain ⟨l', hall⟩ := ih l₁ hc₁ (fun r₁ hr₁ hid => by
        obtain ⟨r, hr, hrr⟩ := hone r₁ hr₁
        have hid' : r₁.requestId = r.requestId := by
          obtain ⟨_, rfl⟩ := hrr.renoded
          rfl
        exact hrr.grounded (hg r hr (hid' ▸ List.mem_cons_of_mem _ hid))) hrest
      refine ⟨l', fun r' hr' => ?_⟩
      obtain ⟨r₁, hr₁, hrest'⟩ := hall r' hr'
      obtain ⟨r, hr, hrr⟩ := hone r₁ hr₁
      exact ⟨r, hr, hrr.trans hrest'⟩

theorem registerComputed (l : Lodges e prompts s) {out : SchedulerOutput}
    (hg : ∀ r ∈ s.running, r.requestId ∈ out.scheduled.map ScheduledRequest.request →
      r.Grounded e.cacheConfig.blockSize)
    (h : s.registerComputed out = .ok s') : Lodges e prompts s' ∧
      ∀ r' ∈ s'.running, ∃ r ∈ s.running, Registered e.cacheConfig.blockSize
        (out.scheduled.map ScheduledRequest.request) r r' := by
  unfold Scheduler.registerComputed at h
  split at h
  · cases h
    exact ⟨l, fun r hr => ⟨r, hr, .refl _ _ r⟩⟩
  · rename_i hc
    exact l.registerLoop hinj (by rw [hc]; rfl) hg h

end Registration

/-! ## The forward pass, correction and proposals -/

theorem serve (l : Lodges e prompts s) (m : ModelRunner) (out : SchedulerOutput) :
    Lodges e prompts { s with running := s.running.map (m.serve out) } :=
  l.updateRunning _ fun r _ => by
    have hsame := LLMEngine.sameRequest_serve { e with runner := m } out r
    exact ⟨Prod.ext hsame.requestId hsame.cachedPrefixNodes, hsame.promptTokenIds⟩

theorem correctLoop (l : Lodges e prompts s) (preLen : List (RequestId × ℕ))
    (scheduled : List ScheduledRequest) :
    Lodges e prompts (Scheduler.correctLoop preLen scheduled s) := by
  induction scheduled generalizing s with
  | nil => exact l
  | cons sr scheduled ih =>
    rw [Scheduler.correctLoop]
    split
    · exact ih l
    · refine ih (l.updateRunning _ fun r _ => ?_)
      have hsame := sameRequest_correctRound ‹ℕ› sr.numScheduledTokens r
      split
      · exact ⟨Prod.ext hsame.requestId hsame.cachedPrefixNodes, hsame.promptTokenIds⟩
      · exact ⟨rfl, rfl⟩

theorem proposeIf (l : Lodges e prompts s) (drafts : Option (RequestId → List Token)) :
    Lodges e prompts (s.proposeIf drafts) := by
  rw [proposeIf_eq]
  refine l.updateRunning _ fun r _ => ?_
  have hsame := sameRequest_proposed drafts r
  exact ⟨Prod.ext hsame.requestId hsame.cachedPrefixNodes, hsame.promptTokenIds⟩

end Lodges

end LightServe
