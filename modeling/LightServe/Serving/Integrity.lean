import LightServe.Serving.Intact

/-!
# The cache over whole runs

An engine with its cache makes the runs of the engine that samples from token prefixes, and in every
state of every run the cache holds what tables and nodes stand for. The rows of a request start
where its last ones ended, or one token before its last after a verify round.

## Main definitions

* `CachedEngine.Run` — the states of an engine and its cache, with all rows that were run.
* `CachedEngine.run_iff` — they are the runs of the engine without the cache.
* `cache_intact_of_run` — what the cache holds, and what a step may write.
* `ranges_backed_of_run` — where the rows of a request start and end.
-/

namespace LightServe

open Scheduler

variable {κ : Type}

/-- The states that arrivals, steps and aborts lead to, as in `LLMEngine.Run`, with the cache and,
in order, every request that the forward pass was run on, as it was then, with the number of its
rows. -/
inductive CachedEngine.Run (e : CachedEngine κ) (Admits : Request → Prop)
    (Meets : Scheduler → Prop) :
    Scheduler → KvCache κ → List Request → List (Request × ℕ) → Prop
  | start {kv : KvCache κ} (hsize : kv.blockSize = e.cacheConfig.blockSize) :
      Run e Admits Meets e.toLLMEngine.start kv [] []
  | addRequest {s s' : Scheduler} {kv : KvCache κ} {arrived : List Request}
      {ran : List (Request × ℕ)} (id : RequestId) (promptTokenIds : List Token)
      (params : SamplingParams) (h : Run e Admits Meets s kv arrived ran)
      (ha : Admits (LLMEngine.newRequest id promptTokenIds params))
      (hs : s.addRequest (LLMEngine.newRequest id promptTokenIds params) = .ok s') :
      Run e Admits Meets s' kv (arrived ++ [LLMEngine.newRequest id promptTokenIds params]) ran
  | step {s s₁ s' : Scheduler} {kv kv' : KvCache κ} {arrived finished : List Request}
      {ran : List (Request × ℕ)} {out : SchedulerOutput} (drafts : Option (RequestId → List Token))
      (h : Run e Admits Meets s kv arrived ran) (hd : e.toLLMEngine.Proposes drafts) (hm : Meets s)
      (h₁ : s.schedule = .ok (s₁, out)) (hs : e.step drafts s kv = .ok ((s', out, finished), kv')) :
      Run e Admits Meets s' kv' arrived (ran ++ s₁.resolve out.scheduled)
  | abortRequests {s s' : Scheduler} {kv : KvCache κ} {arrived gone : List Request}
      {ran : List (Request × ℕ)} (ids : List RequestId) (h : Run e Admits Meets s kv arrived ran)
      (hs : s.abortRequests ids = .ok (s', gone)) : Run e Admits Meets s' kv arrived ran

namespace CachedEngine
variable {e : CachedEngine κ} {prompts : Set (List Token)} {Admits : Request → Prop}
  {Meets Meets' : Scheduler → Prop} {s : Scheduler} {kv : KvCache κ} {arrived : List Request}
  {ran : List (Request × ℕ)}

theorem Run.mono (h : e.Run Admits Meets s kv arrived ran) (hm : ∀ s, Meets s → Meets' s) :
    e.Run Admits Meets' s kv arrived ran := by
  induction h with
  | start hsize => exact .start hsize
  | addRequest id promptTokenIds params _ ha hs ih =>
      exact .addRequest id promptTokenIds params ih ha hs
  | step drafts _ hd hms h₁ hs ih => exact .step drafts ih hd (hm _ hms) h₁ hs
  | abortRequests ids _ hs ih => exact .abortRequests ids ih hs

/-- Without a draft model, or where the step preempts nobody who holds a draft. -/
def KeepsDrafts (e : CachedEngine κ) (s : Scheduler) : Prop :=
  e.speculativeConfig = none ∨ s.BumpsUndrafted

end CachedEngine

/-- Every run whose prompts hashing tells apart keeps the cache intact, and is a run of the engine
without it. -/
theorem Intact.of_run {e : CachedEngine κ} {prompts : Set (List Token)} {s : Scheduler}
    {kv : KvCache κ} {arrived : List Request} {ran : List (Request × ℕ)}
    (hinj : Lodging.Injective e.hashFn e.cacheConfig.blockSize prompts)
    (h : e.Run Request.Prompted e.KeepsDrafts s kv arrived ran)
    (hp : ∀ r ∈ arrived, r.promptTokenIds ∈ prompts) :
    Intact e prompts s kv ∧ e.toLLMEngine.Run Request.Prompted e.KeepsDrafts s arrived := by
  induction h with
  | start hsize => exact ⟨.start prompts hsize, .start⟩
  | addRequest id promptTokenIds params _ ha hs ih =>
    obtain ⟨hi, hr⟩ := ih fun r hr => hp r (List.mem_append_left _ hr)
    exact ⟨hi.addRequest ha (hp _ (List.mem_append_right _ (List.mem_singleton_self _))) hs,
      .addRequest id promptTokenIds params hr ha hs⟩
  | step drafts _ hd hm h₁ hs ih =>
    obtain ⟨hi, hr⟩ := ih hp
    obtain ⟨hstep, hi'⟩ := hi.step hinj hd hm hs
    exact ⟨hi', .step drafts hr hd hm hstep⟩
  | abortRequests ids _ hs ih =>
    obtain ⟨hi, hr⟩ := ih hp
    exact ⟨hi.abortRequests hs, .abortRequests ids hr hs⟩

/-- The runs of the engine without the cache are all runs over the cache, whatever is in it at the
start. -/
theorem CachedEngine.exists_run {e : CachedEngine κ} {prompts : Set (List Token)}
    {Meets : Scheduler → Prop} {s : Scheduler} {arrived : List Request} {kv₀ : KvCache κ}
    (hsize : kv₀.blockSize = e.cacheConfig.blockSize)
    (hinj : Lodging.Injective e.hashFn e.cacheConfig.blockSize prompts)
    (hkeeps : ∀ s, Meets s → e.KeepsDrafts s)
    (h : e.toLLMEngine.Run Request.Prompted Meets s arrived)
    (hp : ∀ r ∈ arrived, r.promptTokenIds ∈ prompts) :
    ∃ kv ran, e.Run Request.Prompted Meets s kv arrived ran := by
  induction h with
  | start => exact ⟨kv₀, [], .start hsize⟩
  | addRequest id promptTokenIds params _ ha hs ih =>
    obtain ⟨kv, ran, hr⟩ := ih fun r hr => hp r (List.mem_append_left _ hr)
    exact ⟨kv, ran, .addRequest id promptTokenIds params hr ha hs⟩
  | step drafts _ hd hm hs ih =>
    obtain ⟨kv, ran, hr⟩ := ih hp
    obtain ⟨kv', hs'⟩ := (Intact.of_run hinj (hr.mono hkeeps) hp).1.step_returns hs
    obtain ⟨s₁, s₂, s₃, s₅, h₁, -⟩ := LLMEngine.step_eq_ok_iff.mp hs
    exact ⟨kv', _, .step drafts hr hd hm h₁ hs'⟩
  | abortRequests ids _ hs ih =>
    obtain ⟨kv, ran, hr⟩ := ih hp
    exact ⟨kv, ran, .abortRequests ids hr hs⟩

/-- An engine over a cache that holds token prefixes. -/
def LLMEngine.cached (e : LLMEngine) : CachedEngine (List Token) where
  cacheConfig := e.cacheConfig
  schedulerConfig := e.schedulerConfig
  runner :=
    { model := .prefixes e.runner.next
      maxModelLen := e.runner.maxModelLen
      vocabSize := e.runner.vocabSize }
  speculativeConfig := e.speculativeConfig
  hashFn := e.hashFn

@[simp] theorem LLMEngine.toLLMEngine_cached (e : LLMEngine) : e.cached.toLLMEngine = e := by
  have hnext : (CausalModel.prefixes e.runner.next).next = e.runner.next :=
    funext (CausalModel.next_prefixes _)
  rw [CachedEngine.toLLMEngine, PagedRunner.toModelRunner, cached, hnext]

/-! ## Where rows end -/

/-- The last rows that were run of a request, and the request as it was then. -/
def lastRun (ran : List (Request × ℕ)) (id : RequestId) : Option (Request × ℕ) :=
  (ran.filter fun rn => rn.1.requestId = id).getLast?

/-- The computed tokens of a request end where its last rows did, or one token before its last one
after a verify round. -/
def Request.Follows (q r : Request) : Prop :=
  if q.draftTokenIds = [] then r.numComputedTokens = q.numComputedTokens
  else r.numComputedTokens + 1 = r.getLen

/-- So it is for every running request. -/
def Logged (ran : List (Request × ℕ)) (s : Scheduler) : Prop :=
  ∀ r ∈ s.running, ∃ q n, lastRun ran r.requestId = some (q, n) ∧ q.Follows r

section Log
variable {ran : List (Request × ℕ)} {s s' s₁ : Scheduler} {out : SchedulerOutput}
  {r x : Request} {n : ℕ} {next : List Token → Token}

/-- A turn ends with the rows it was given. -/
theorem Advance.follows (h : Advance next r (some n) x) : r.Follows x := by
  unfold Request.Follows
  cases h with
  | chunk _ hd _ => rw [if_pos hd]
  | sample _ hd _ =>
    rw [if_pos hd]
    rfl
  | @verify n kept hv hk _ =>
    have hlen := hk.length_le.trans (Decode.length_verify_le _ _ _)
    obtain ⟨hd, hlength, hcomputed, hlast, -⟩ := hv
    rw [if_neg hd]
    simp only [Request.getLen, Request.grown, List.length_append] at hlast ⊢
    omega

/-- Rows of others do not count. -/
theorem lastRun_append_of_none (hnone : out.tokensOf r.requestId = none) :
    lastRun (ran ++ s.resolve out.scheduled) r.requestId = lastRun ran r.requestId := by
  have hnil : ((s.resolve out.scheduled).filter fun rn => rn.1.requestId = r.requestId) = [] := by
    refine List.filter_eq_nil_iff.mpr fun rn hrn hid => ?_
    obtain ⟨sr, hsr, hfind, -⟩ := mem_resolve.mp hrn
    have hsr' : sr.request = r.requestId :=
      (findRequest_eq_some hfind).2.symm.trans (of_decide_eq_true hid)
    have hsome := SchedulerOutput.tokensOf_isSome_iff.mpr (List.mem_map.mpr ⟨sr, hsr, hsr'⟩)
    rw [hnone] at hsome
    cases hsome
  rw [lastRun, List.filter_append, hnil, List.append_nil, lastRun]

/-- A request that is scheduled has its last rows in this step. -/
theorem lastRun_append (hnodup : (out.scheduled.map ScheduledRequest.request).Nodup)
    (hrn : (r, n) ∈ s.resolve out.scheduled) :
    lastRun (ran ++ s.resolve out.scheduled) r.requestId = some (r, n) := by
  have hids := (s.resolve_ids_sublist out.scheduled).nodup hnodup
  obtain ⟨pre, post, hsplit⟩ := List.append_of_mem hrn
  have hnone : (post.filter fun rn => rn.1.requestId = r.requestId) = [] := by
    refine List.filter_eq_nil_iff.mpr fun rn hrn hid => ?_
    rw [hsplit, List.map_append, List.map_cons, List.nodup_append] at hids
    refine (List.nodup_cons.mp hids.2.1).1 ?_
    rw [← of_decide_eq_true hid]
    exact List.mem_map_of_mem hrn
  rw [lastRun, hsplit, List.filter_append, List.filter_append, List.filter_cons_of_pos (by simp),
    hnone, ← List.append_assoc, List.getLast?_concat]

variable {e : CachedEngine κ} {prompts : Set (List Token)} {kv : KvCache κ}
  {finished : List Request} {drafts : Option (RequestId → List Token)}

theorem Logged.step (hl : Logged ran s) (h : Intact e prompts s kv)
    (h₁ : s.schedule = .ok (s₁, out)) (hs : e.toLLMEngine.step drafts s = .ok (s', out, finished)) :
    Logged (ran ++ s₁.resolve out.scheduled) s' := by
  obtain ⟨s₁', s₃, s₅, turned, st⟩ :=
    LLMEngine.stages_of_step h.owning.live.inOrder h.owning.live.queued hs
  obtain ⟨rfl, -⟩ := Prod.mk.inj (Except.ok.inj (h₁.symm.trans st.schedule))
  obtain ⟨plan, victims, as, t⟩ := StepTrace.of_schedule h₁
  obtain ⟨p, -⟩ := h.schedule h₁
  have o := st.inOrder
  intro x hx
  rw [(st.spec t).running_eq] at hx
  obtain ⟨r, hr, rfl⟩ := List.mem_map.mp hx
  replace hr := (List.mem_filter.mp hr).1
  have hplanned := h.owning.stale.planned t o h.owning.live.queued hr
  have ha := h.phased.advance h.owning.stale h.owning.live.queued t o hr
  obtain ⟨draft, hprop⟩ := Request.proposed_eq drafts (turned r)
  obtain ⟨nodes, hnodes⟩ := st.renoded r
  have hid : (turned r).requestId = r.requestId := (LLMEngine.turned_keeps (st.renoded r)).1
  rw [hprop]
  show ∃ q n, lastRun _ (turned r).requestId = some (q, n) ∧
    q.Follows { turned r with draftTokenIds := draft }
  rw [hid, hnodes]
  cases hn : out.tokensOf r.requestId with
  | none =>
    rw [lastRun_append_of_none hn]
    rw [hn] at ha
    generalize e.toLLMEngine.turn out r = x at ha
    cases ha
    exact hl r (hplanned.idle hn)
  | some n =>
    rw [hn] at ha
    exact ⟨r, n, lastRun_append p.nodup (p.mem_resolve_iff.mpr ⟨hr, hn⟩), ha.follows⟩

end Log

theorem Logged.of_run {e : CachedEngine κ} {prompts : Set (List Token)} {s : Scheduler}
    {kv : KvCache κ} {arrived : List Request} {ran : List (Request × ℕ)}
    (hinj : Lodging.Injective e.hashFn e.cacheConfig.blockSize prompts)
    (h : e.Run Request.Prompted e.KeepsDrafts s kv arrived ran)
    (hp : ∀ r ∈ arrived, r.promptTokenIds ∈ prompts) : Logged ran s := by
  induction h with
  | start => exact fun r hr => (List.not_mem_nil hr).elim
  | addRequest id promptTokenIds params _ _ hs ih =>
    rw [addRequest_eq hs]
    exact ih fun r hr => hp r (List.mem_append_left _ hr)
  | step drafts hr hd hm h₁ hs ih =>
    have hi := (Intact.of_run hinj hr hp).1
    exact (ih hp).step hi h₁ (hi.step hinj hd hm hs).1
  | abortRequests ids _ hs ih =>
    exact fun r hr => ih hp r ((mem_of_abortRequests hs).1 r hr)

/-! ## Ranges -/

/-- Where the rows of a request start: behind its match on admission, the last token of its prompt
apart; where its last rows ended; or at its last token after a verify round. A request that is
admitted without a match holds no node, and starts at its first token. -/
inductive RowsStart (blockSize : ℕ) (ran : List (Request × ℕ)) (s : Scheduler) (r : Request) :
    ℕ → Prop
  | admitted {w : Request} (hw : w ∈ s.waiting) (hid : w.requestId = r.requestId) :
      RowsStart blockSize ran s r
        (min (r.cachedPrefixNodes.length * blockSize) (r.promptTokenIds.length - 1))
  | resumed {q p : Request} {n : ℕ} (hq : q ∈ s.running) (hid : q.requestId = r.requestId)
      (hp : lastRun ran r.requestId = some (p, n)) (hd : p.draftTokenIds = []) :
      RowsStart blockSize ran s r p.numComputedTokens
  | verified {q p : Request} {n : ℕ} (hq : q ∈ s.running) (hid : q.requestId = r.requestId)
      (hp : lastRun ran r.requestId = some (p, n)) (hd : p.draftTokenIds ≠ []) :
      RowsStart blockSize ran s r (r.getLen - 1)

/-- The `n` rows of a request as `execute_model` finds it: no gap before them, the entries of all
its earlier tokens in the cache, and a table that covers them. -/
structure RowsBacked (e : CachedEngine κ) (ran : List (Request × ℕ)) (s s₁ : Scheduler)
    (kv : KvCache κ) (r : Request) (n : ℕ) : Prop where
  le_computed : n ≤ r.numComputedTokens
  start : RowsStart e.cacheConfig.blockSize ran s r (r.numComputedTokens - n)
  own : r.numComputedTokens - n ≤ r.getLen
  computed : kv.Holds (s₁.blockManager.getBlockTable r)
    (e.runner.model.cache (r.allTokenIds.take (r.numComputedTokens - n)))
  covered : r.numComputedTokens ≤
    (s₁.blockManager.getBlockTable r).length * s₁.blockManager.blockSize

/-- Whatever a step of a run that bumps no draft schedules starts without a gap behind entries of
its own tokens, and ends within its table. -/
theorem ranges_backed_of_run {e : CachedEngine κ} {s s₁ : Scheduler} {kv : KvCache κ}
    {arrived : List Request} {ran : List (Request × ℕ)} {out : SchedulerOutput}
    (hinj : Lodging.Injective e.hashFn e.cacheConfig.blockSize
      {prompt | ∃ r ∈ arrived, r.promptTokenIds = prompt})
    (h : e.Run Request.Prompted e.KeepsDrafts s kv arrived ran) (h₁ : s.schedule = .ok (s₁, out)) :
    ∀ rn ∈ s₁.resolve out.scheduled, RowsBacked e ran s s₁ kv rn.1 rn.2 := by
  rintro ⟨r, n⟩ hrn
  show RowsBacked e ran s s₁ kv r n
  have hp : ∀ r ∈ arrived, r.promptTokenIds ∈ {prompt | ∃ r ∈ arrived, r.promptTokenIds = prompt} :=
    fun r hr => ⟨r, hr, rfl⟩
  have hi := (Intact.of_run hinj h hp).1
  have hl := Logged.of_run hinj h hp
  obtain ⟨plan, victims, as, t⟩ := StepTrace.of_schedule h₁
  obtain ⟨p, st⟩ := hi.schedule h₁
  obtain ⟨hr, hn⟩ := p.mem_resolve_iff.mp hrn
  have hrowed := p.rowed r hr n hn
  obtain ⟨hle, hlen, -⟩ := hrowed.length
  have hcontext : out.context r = r.allTokenIds.take (r.numComputedTokens - n) := by
    rw [SchedulerOutput.context, hn]
    rfl
  refine ⟨hle, ?_, ?_, ?_, (p.covered r hr).range (SchedulerOutput.mem_of_tokensOf hn)⟩
  · cases hi.owning.housed.starts h₁ t p.inOrder hr with
    | @resumed q hq hres =>
      have hid : q.requestId = r.requestId := by rw [hres]
      have hstart : r.numComputedTokens - n = q.numComputedTokens := by
        rw [hn, Option.getD_some] at hres
        rw [hres]
        exact Nat.add_sub_cancel _ _
      obtain ⟨p, m, hlast, hfollows⟩ := hl q hq
      rw [hid] at hlast
      rw [hstart]
      unfold Request.Follows at hfollows
      split at hfollows
      · rename_i hd
        rw [hfollows]
        exact .resumed hq hid hlast hd
      · rename_i hd
        have hsame : r.getLen = q.getLen := by
          rw [hres]
          rfl
        rw [show q.numComputedTokens = r.getLen - 1 by omega]
        exact .verified hq hid hlast hd
    | @admitted w m hw hid hm hstart =>
      obtain rfl : m = n := Option.some.inj (hm.symm.trans hn)
      rw [hstart, Nat.add_sub_cancel]
      exact .admitted hw hid
  · rw [Request.computedBefore, Option.getD_some, List.length_take,
      Request.length_allTokenIds] at hlen
    omega
  · rw [← hcontext]
    exact st.tables _ (List.mem_map_of_mem (f := fun r => Request.knowing (out.context r) r) hr)

/-- The hashing of `pairingEngine` tells the blocks of any prompts apart. -/
private theorem injective_pairing (prompts : Set (List Token)) :
    Lodging.Injective pairingEngine.hashFn pairingEngine.cacheConfig.blockSize prompts :=
  Set.injOn_of_injective (Encodable.encode_injective (α := Option BlockHash × List Token))

/-- A request in its first verify round, after a step that sampled one token. -/
theorem ranges_backed_of_run_round : ∃ s kv arrived ran s₁ out,
    pairingEngine.cached.Run Request.Prompted pairingEngine.cached.KeepsDrafts s kv arrived ran ∧
      s.schedule = .ok (s₁, out) ∧
      (s₁.resolve out.scheduled).map (fun rn => (rn.1.numComputedTokens, rn.2, rn.1.getLen)) =
        [(4, 2, 3)] ∧
      ∀ rn ∈ s₁.resolve out.scheduled, RowsBacked pairingEngine.cached ran s s₁ kv rn.1 rn.2 := by
  have hsteps : (pairingEngine.start.addRequest
      (LLMEngine.newRequest 0 [5, 6] {})).toOption.any (fun s₀ =>
      decide s₀.BumpsUndrafted &&
        (pairingEngine.step (some fun _ => [0]) s₀).toOption.any fun next =>
        next.1.schedule.toOption.any fun sched => decide ((sched.1.resolve sched.2.scheduled).map
          (fun rn => (rn.1.numComputedTokens, rn.2, rn.1.getLen)) = [(4, 2, 3)])) = true := by
    decide +kernel
  simp only [Option.any_eq_true, toOption_eq_some, Bool.and_eq_true, decide_eq_true_eq] at hsteps
  obtain ⟨s₀, hadd, hbumps, ⟨s, out₀, finished⟩, hstep, ⟨s₁, out⟩, hs, hrows⟩ := hsteps
  have hrun : pairingEngine.cached.toLLMEngine.Run Request.Prompted
      pairingEngine.cached.KeepsDrafts s ([] ++ [LLMEngine.newRequest 0 [5, 6] {}]) := by
    rw [LLMEngine.toLLMEngine_cached]
    exact .step (some fun _ => [0]) (.addRequest 0 [5, 6] {} .start (by decide) hadd) (fun _ => rfl)
      (.inr hbumps) hstep
  have hsize : (⟨1, fun _ => []⟩ : KvCache (List Token)).blockSize = 1 := rfl
  obtain ⟨kv, ran, hcached⟩ := CachedEngine.exists_run hsize (injective_pairing Set.univ)
    (fun _ h => h) hrun fun r _ => Set.mem_univ r.promptTokenIds
  exact ⟨s, kv, _, ran, s₁, out, hcached, hs, hrows,
    ranges_backed_of_run (injective_pairing _) hcached hs⟩

/-! ## Content -/

/-- The step from `s` runs the range `f`, which takes the cache from `kv₁` to `kv₂`. -/
def CachedEngine.Writes (e : CachedEngine κ) (s s₁ : Scheduler) (kv : KvCache κ) (f : FlatRange)
    (kv₁ kv₂ : KvCache κ) : Prop :=
  ∃ out ranges pre post rows rows', s.schedule = .ok (s₁, out) ∧
    e.runner.toModelRunner.buildFlatBatch (s₁.resolve out.scheduled) = .ok ranges ∧
    ranges = pre ++ f :: post ∧
    e.runner.attendAll s₁.blockManager.getBlockTable pre kv = .ok (kv₁, rows) ∧
    e.runner.attend (s₁.blockManager.getBlockTable f.request) f kv₁ = .ok (kv₂, rows')

/-- The cache holds, at every computed position of a running request, the entry of the request's own
tokens up to it; behind every node of the trie, the entries of the tokens on its path; and the rows
of a request change no slot behind a node, or in the table of another running request. -/
structure CacheIntact (e : CachedEngine κ) (s : Scheduler) (kv : KvCache κ) : Prop where
  tables : ∀ r ∈ s.running, ∀ p < r.numComputedTokens, p < r.getLen ∧
    p < (s.blockManager.getBlockTable r).length * kv.blockSize ∧
    (e.runner.model.cache (r.allTokenIds.take (p + 1))).getLast? =
      some (kv.slot (kv.location (s.blockManager.getBlockTable r) p))
  nodes : ∀ n, s.blockManager.tree.Live n → ∃ ns, s.blockManager.tree.IsPath (ns ++ [n]) ∧
    ∀ i < s.blockManager.blockSize,
      (e.runner.model.cache ((s.blockManager.tree.content (ns ++ [n])).take
        (ns.length * s.blockManager.blockSize + i + 1))).getLast? =
          some (kv.slot ((s.blockManager.tree.node n).physicalBlockId, i))
  writes : ∀ s₁ f kv₁ kv₂, e.Writes s s₁ kv f kv₁ kv₂ → ∀ l, (l.1 ∈ s₁.blockManager.tree.blocks ∨
    ∃ r ∈ s₁.running, r.requestId ≠ f.request.requestId ∧ l.1 ∈ s₁.blockManager.getBlockTable r) →
      kv₂.slot l = kv₁.slot l

theorem Intact.cacheIntact {e : CachedEngine κ} {prompts : Set (List Token)} {s : Scheduler}
    {kv : KvCache κ} (h : Intact e prompts s kv) : CacheIntact e s kv := by
  have hwf := h.owning.lodges.lodging.partition.wellFormed
  refine ⟨fun r hr p hp => ?_, fun n hn => ?_, ?_⟩
  · have hlt : r.numComputedTokens < r.getLen := by
      by_cases hd : r.draftTokenIds = []
      · exact h.owning.stale.due r hr hd
      · exact Nat.lt_of_succ_le (h.phased.ready r hr hd).1.le
    have hholds : kv.Holds (s.blockManager.getBlockTable r) (e.runner.model.cache r.computed) :=
      h.stored.tables (r.knowing r.computed)
        (List.mem_map_of_mem (f := fun r => Request.knowing r.computed r) hr)
    have hlen : (e.runner.model.cache r.computed).length = r.numComputedTokens := by
      rw [CausalModel.length_cache, Request.computed, List.length_take, Request.length_allTokenIds]
      omega
    have hentry : (e.runner.model.cache r.allTokenIds)[p]? =
        some (kv.slot (kv.location (s.blockManager.getBlockTable r) p)) := by
      rw [hholds.slot p (hlen ▸ hp), ← List.getElem?_eq_getElem]
      exact (e.runner.model.getElem?_cache_take _ _ hp).symm
    exact ⟨hp.trans hlt, (hlen ▸ hp).trans_le hholds.covered,
      e.runner.model.getLast?_cache_take _ hentry⟩
  · obtain ⟨ns, hns⟩ := hwf.exists_path hn
    exact ⟨ns, hns, fun i hi => e.runner.model.getLast?_cache_take _ (h.stored.nodes ns n hns i hi)⟩
  · rintro s₁ f kv₁ kv₂ ⟨out, ranges, pre, post, rows, rows', h₁, hbatch, hsplit, hpre, hf⟩ l hl
    obtain ⟨p, st⟩ := h.schedule h₁
    obtain ⟨kv₁', kv₂', _, _, hpre', hf', hframe⟩ := p.writes st hbatch hsplit
    obtain ⟨rfl, -⟩ := Prod.mk.inj (Except.ok.inj (hpre.symm.trans hpre'))
    obtain ⟨rfl, -⟩ := Prod.mk.inj (Except.ok.inj (hf.symm.trans hf'))
    exact hframe l hl

/-- Without a draft model, the cache is intact in every state of every run, as long as hashing tells
the blocks of the prompts apart. -/
theorem cache_intact_of_run {e : CachedEngine κ} {s : Scheduler} {kv : KvCache κ}
    {arrived : List Request} {ran : List (Request × ℕ)} (hspec : e.speculativeConfig = none)
    (hinj : Lodging.Injective e.hashFn e.cacheConfig.blockSize
      {prompt | ∃ r ∈ arrived, r.promptTokenIds = prompt})
    (h : e.Run Request.Prompted (fun _ => True) s kv arrived ran) : CacheIntact e s kv :=
  (Intact.of_run hinj (h.mono fun _ _ => .inl hspec) fun r hr => ⟨r, hr, rfl⟩).1.cacheIntact

/-- The engine whose hashing tells all keys apart, without its draft model. -/
def sharingEngine : LLMEngine := { pairingEngine with speculativeConfig := none }

/-- A second request reads the blocks of the first one's prompt. -/
theorem cache_intact_of_run_shared : ∃ s kv arrived ran,
    sharingEngine.cached.Run Request.Prompted (fun _ => True) s kv arrived ran ∧
      s.running.map s.blockManager.getBlockTable = [[7, 6, 5], [7, 6, 4]] ∧
      CacheIntact sharingEngine.cached s kv := by
  have hshared : (sharingEngine.performAll (fun _ => True) sharingEngine.start []
      [.addRequest 0 [5, 6] {}, .step none, .addRequest 1 [5, 6, 7] {}, .step none]).any (fun run =>
      decide (run.1.running.map run.1.blockManager.getBlockTable = [[7, 6, 5], [7, 6, 4]])) =
        true := by decide +kernel
  simp only [Option.any_eq_true, decide_eq_true_eq] at hshared
  obtain ⟨⟨s, arrived⟩, hrun, htables⟩ := hshared
  have hrun : sharingEngine.Run Request.Prompted (fun _ => True) s arrived := .performAll .start
    (by simp [LLMEngine.Allows, LLMEngine.Proposes, Request.Prompted, LLMEngine.newRequest,
      sharingEngine]) hrun
  rw [← sharingEngine.toLLMEngine_cached] at hrun
  have hsize : (⟨1, fun _ => []⟩ : KvCache (List Token)).blockSize = 1 := rfl
  obtain ⟨kv, ran, hcached⟩ := CachedEngine.exists_run hsize (injective_pairing Set.univ)
    (fun _ _ => .inl rfl) hrun fun r _ => Set.mem_univ r.promptTokenIds
  exact ⟨s, kv, arrived, ran, hcached, htables,
    cache_intact_of_run rfl (injective_pairing _) hcached⟩

end LightServe
