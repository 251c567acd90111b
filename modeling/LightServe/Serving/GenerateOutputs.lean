import LightServe.Serving.Backing
import LightServe.Serving.Generate
import LightServe.Serving.Lossless
import Mathlib.Algebra.BigOperators.Ring.Finset

/-!
# What a batch call returns

When the pool has room for the longest sequences of all live requests at once, nobody is ever
preempted; when the token budget of a step has, whoever is preempted comes back in one chunk. In
both cases no chunk ends inside a request's outputs, so that `generate` returns the greedy
decodings of its prompts, in their order.

## Main definitions

* `LLMEngine.Ample` — room for the longest sequences of some requests at once.
* `AmpleState` — the state of an engine that serves such requests.
* `generate_outputs` — what a batch call returns.
-/

namespace LightServe

open Relation (ReflTransGen)
open Scheduler

/-- The blocks that the longest sequence of a request takes. -/
def Request.maxBlocks (c : CacheConfig) (r : Request) : ℕ :=
  (r.maxLen + c.blockSize - 1) / c.blockSize

theorem Request.lt_maxBlocks {c : CacheConfig} {r : Request} {n : ℕ}
    (h : n * c.blockSize < r.maxLen) :
    n < r.maxBlocks c := by
  refine (Nat.le_div_iff_mul_le c.blockSize_pos).mpr ?_
  rw [Nat.succ_mul]
  have := c.blockSize_pos
  omega

theorem Request.le_maxBlocks {c : CacheConfig} {r : Request} {n : ℕ}
    (h : n * c.blockSize < r.maxLen + c.blockSize) : n ≤ r.maxBlocks c := by
  refine (Nat.le_div_iff_mul_le c.blockSize_pos).mpr ?_
  omega

/-- Room for the longest sequences of some requests at once, in the pool or in the token budget
of a step. -/
def LLMEngine.Ample (e : LLMEngine) (rs : List Request) : Prop :=
  (rs.map (Request.maxBlocks e.cacheConfig)).sum ≤ e.cacheConfig.numGpuBlocks ∨
    (rs.map Request.maxLen).sum ≤ e.schedulerConfig.maxNumBatchedTokens

instance (e : LLMEngine) (rs : List Request) : Decidable (e.Ample rs) :=
  inferInstanceAs (Decidable (_ ∨ _))

/-! ## Room in the budget -/

/-- Decisions that grant no more than the longest sequences of their requests leave as much. -/
theorem Decision.sub_le_left {plan : List Decision}
    (h : ∀ d ∈ plan, d.grant.getD 0 ≤ d.request.maxLen)
    (budget : ℤ) : budget - ((plan.map fun d => d.request.maxLen).sum : ℕ) ≤ left budget plan := by
  have hle : (plan.map fun d => d.grant.getD 0).sum ≤
      (plan.map fun d => (d.request.maxLen : ℤ)).sum :=
    List.sum_le_sum h
  rw [Nat.cast_list_sum, List.map_map]
  exact sub_le_sub_left hle budget

theorem Admission.sub_le_left {as : List Admission} (h : ∀ a ∈ as, a.chunk ≤ a.request.maxLen)
    (budget : ℤ) : budget - ((as.map fun a => a.request.maxLen).sum : ℕ) ≤ left budget as := by
  have hle : (as.map Admission.chunk).sum ≤ (as.map fun a => (a.request.maxLen : ℤ)).sum :=
    List.sum_le_sum h
  rw [Nat.cast_list_sum, List.map_map]
  exact sub_le_sub_left hle budget

namespace FittingState
variable {e : LLMEngine} {s s' s₁ : Scheduler} {out : SchedulerOutput} {plan : List Decision}
  {victims : List Request} {as : List Admission} {finished : List Request} {r : Request}

/-- When the budget of a step has room for all live requests, everybody who is scheduled is
computed in full. -/
theorem uncut_of_budget (h : FittingState e s)
    (hroom : s.maxLen ≤ s.schedulerConfig.maxNumBatchedTokens) : s.Uncut := by
  intro s₁ out hs r hr hsched
  obtain ⟨plan, victims, as, t⟩ := StepTrace.of_schedule hs
  obtain ⟨o, -⟩ := h.cacheless.toInOrder.schedule hs
  have hplan : ∀ d ∈ plan, d.request.Growing e.cacheConfig := fun d hd =>
    (h.running d.request (t.running ▸ List.mem_append_left _ (List.mem_map_of_mem hd))).1
  have hnew : ∀ a ∈ as, a.request.Growing e.cacheConfig ∧ a.request.numComputedTokens = 0 :=
    fun a ha => h.waiting a.request (t.mem_waiting ha)
  have hgrant : ∀ d ∈ plan, d.grant.getD 0 ≤ d.request.maxLen := by
    intro d hd
    have hlt := (hplan d hd).getLen_lt
    obtain ⟨budget, hsound⟩ := t.plan_sound' hd
    rcases hsound.cases with ⟨hg, -⟩ | ⟨n, -, -, hg, -, -, hlen⟩
    · rw [hg, Option.getD_none]
      exact Int.natCast_nonneg _
    · have := (hlen (hplan d hd).undrafted).1
      rw [hg, Option.getD_some]
      omega
  have hchunk : ∀ a ∈ as, a.chunk ≤ a.request.maxLen := by
    intro a ha
    have hlt := (hnew a ha).1.getLen_lt
    obtain ⟨budget, hsound⟩ := t.admissions_sound' ha
    obtain ⟨k, n, -, -, hn, -, -, hle, -⟩ :=
      hsound.cases (hnew a ha).1.fits.1.1 (hnew a ha).2
    rw [hn]
    omega
  -- the longest sequences of whoever runs now are within the budget
  have htotal : (plan.map fun d => d.request.maxLen).sum + (as.map fun a => a.request.maxLen).sum ≤
      s.schedulerConfig.maxNumBatchedTokens := by
    refine le_trans ?_ hroom
    have hmaxLen := t.map_queues (f := Request.maxLen)
      (fun {_ _} hb => by obtain ⟨_, rfl⟩ := hb; rfl)
      (fun d => by unfold Decision.result; split <;> rfl) fun _ => rfl
    rw [Scheduler.maxLen, ← hmaxLen, t.running']
    simp only [List.map_append, List.map_map, List.sum_append]
    refine (Nat.le_add_right _ _).trans' (Nat.add_le_add (le_of_eq ?_) (le_of_eq ?_))
    · congr 1
      refine List.map_congr_left fun d _ => ?_
      unfold Function.comp Decision.result
      split <;> rfl
    · rfl
  right
  rw [t.running', List.mem_append] at hr
  rcases hr with hr | hr
  · obtain ⟨d, hd, rfl⟩ := List.mem_map.mp hr
    obtain ⟨pre, post, rfl⟩ := List.append_of_mem hd
    have hlt := (hplan d hd).getLen_lt
    have hleft := Decision.sub_le_left (fun d' hd' => hgrant d' (List.mem_append_left _ hd'))
      (s.schedulerConfig.maxNumBatchedTokens : ℤ)
    simp only [List.map_append, List.map_cons, List.sum_append, List.sum_cons] at htotal
    rcases (t.plan_sound pre d post rfl).cases with ⟨hg, -⟩ | ⟨n, -, -, hg, hres, -, hlen⟩
    · obtain ⟨n, hn⟩ := Option.isSome_iff_exists.mp (SchedulerOutput.tokensOf_isSome_iff.mpr hsched)
      rw [Decision.result_requestId, t.tokensOf_plan o hd, hg] at hn
      cases hn
    · obtain ⟨hle, hall | hbudget⟩ := hlen (hplan d hd).undrafted
      · rw [hres]
        exact hall
      · omega
  · obtain ⟨a, ha, rfl⟩ := List.mem_map.mp hr
    obtain ⟨pre, post, rfl⟩ := List.append_of_mem ha
    have hlt := (hnew a ha).1.getLen_lt
    have hleft := Decision.sub_le_left hgrant (s.schedulerConfig.maxNumBatchedTokens : ℤ)
    have hleft' := Admission.sub_le_left (fun a' ha' => hchunk a' (List.mem_append_left _ ha'))
      (Decision.left s.schedulerConfig.maxNumBatchedTokens plan)
    simp only [List.map_append, List.map_cons, List.sum_append, List.sum_cons] at htotal
    obtain ⟨k, n, -, -, -, -, hres, hle, hall | hbudget, -⟩ :=
      (t.admissions_sound pre a post rfl).cases (hnew a ha).1.fits.1.1 (hnew a ha).2
    · rw [hres]
      exact hall
    · omega

end FittingState

/-! ## Room in the pool -/

/-- The state of an engine whose pool has room for the longest sequences of its live requests:
no table has a block to spare, whoever runs has computed all but its newest output, and whoever
waits has none. -/
structure RoomyState (e : LLMEngine) (s : Scheduler) : Prop extends FittingState e s where
  room : ((s.running ++ s.waiting).map (Request.maxBlocks e.cacheConfig)).sum ≤
    e.cacheConfig.numGpuBlocks
  snug : ∀ r ∈ s.running ++ s.waiting,
    s.blockManager.capacity r.requestId < r.maxLen + e.cacheConfig.blockSize
  decoding : ∀ r ∈ s.running, r.outputTokenIds ≠ [] → r.numComputedTokens + 1 = r.getLen
  prefilling : ∀ r ∈ s.waiting, r.outputTokenIds = []

namespace RoomyState
variable {e : LLMEngine} {s s' s₁ : Scheduler} {out : SchedulerOutput} {plan : List Decision}
  {victims : List Request} {as : List Admission} {finished pending pending' : List Request}
  {r : Request} {p p' : RunningPass} {bm : BlockManager}

/-- No table of a live request has a block to spare. -/
def Snug (e : LLMEngine) (s : Scheduler) (bm : BlockManager) : Prop :=
  ∀ r ∈ s.running ++ s.waiting, bm.capacity r.requestId < r.maxLen + e.cacheConfig.blockSize

/-- When everybody has at most the blocks of its longest sequence, there is one for the next token
of everybody. -/
theorem canAppendSlot_of_snug (hpool : SamePool e.start.blockManager bm)
    (hc : bm.prefixCache = none) {rs : List Request}
    (hp : Partition bm ((rs.map Request.requestId).map fun id => (id, [])))
    (hsnug : ∀ q ∈ rs, bm.capacity q.requestId < q.maxLen + e.cacheConfig.blockSize)
    (hroom : (rs.map (Request.maxBlocks e.cacheConfig)).sum ≤ e.cacheConfig.numGpuBlocks)
    (hr : r ∈ rs) (hlt : r.getLen < r.maxLen) : bm.canAppendSlot r = true := by
  have hsize : bm.blockSize = e.cacheConfig.blockSize := hpool.blockSize
  unfold BlockManager.canAppendSlot
  split
  · rename_i hneeds
    have htotal := @Partition.total bm _ hp hc
    rw [List.map_map, show bm.numGpuBlocks = e.cacheConfig.numGpuBlocks from hpool.numGpuBlocks]
      at htotal
    have hfull : (bm.tableOf r.requestId).length * bm.blockSize < r.getLen :=
      of_decide_eq_true hneeds
    have hsum : (rs.map fun q => (bm.tableOf q.requestId).length).sum <
        (rs.map (Request.maxBlocks e.cacheConfig)).sum := by
      refine List.sum_lt_sum _ _ (fun q hq => ?_) ⟨r, hr, ?_⟩
      · have hq := hsnug q hq
        rw [BlockManager.capacity, hsize] at hq
        exact Request.le_maxBlocks hq
      · rw [hsize] at hfull
        exact Request.lt_maxBlocks (hfull.trans hlt)
    have hfree : (rs.map ((fun id => (bm.tableOf id).length) ∘ Request.requestId)).sum =
        (rs.map fun q => (bm.tableOf q.requestId).length).sum := rfl
    rw [hfree] at htotal
    exact decide_eq_true (show 1 ≤ bm.freeBlockIds.length by omega)
  · rfl

/-- As long as nobody was preempted, the next request of the running pass has room. -/
theorem fits_next (h : RoomyState e s)
    (hsteps : ReflTransGen RunningStep (s.running, s.runningPass) (r :: pending, p))
    (hnone : p.output.preempted = []) (hsnug : Snug e s p.blockManager) (n : ℤ) :
    r ∈ s.running ∧ fits p.blockManager r n = true := by
  obtain ⟨plan, victims, tr⟩ := RunningTrace.of_steps hsteps
  have hvictims : victims = [] := by
    rw [tr.output] at hnone
    simpa using hnone
  subst hvictims
  have hrunning := tr.running
  rw [List.append_nil] at hrunning
  have hmem : r ∈ s.running := hrunning ▸ List.mem_append_right _ List.mem_cons_self
  have hgrowing := (h.running r hmem).1
  have hmoves := runningSteps_moves hsteps
  have hpool : SamePool s.blockManager p.blockManager :=
    SamePool.of_moves hmoves h.cacheless.accounts
  have hcache : p.blockManager.prefixCache = none := by
    have hcaching := hpool.caching
    rw [h.cacheless.cacheless] at hcaching
    simpa using hcaching
  have hstakes : stakes (p.scheduled ++ r :: pending) =
      (s.running.map Request.requestId).map fun id => (id, []) := by
    rw [tr.scheduled, hrunning]
    simp only [stakes, List.map_append, List.map_map]
    have hnodes : ∀ q ∈ s.running, q.stake = (q.requestId, []) := fun q hq => by
      rw [Request.stake, h.cacheless.nodes_eq_nil hq]
    refine congrArg₂ (· ++ ·) (List.map_congr_left fun d hd => ?_)
      (List.map_congr_left fun q hq => ?_)
    · have hd := hnodes d.request (hrunning ▸ List.mem_append_left _ (List.mem_map_of_mem hd))
      have hres : d.result.stake = d.request.stake := by
        unfold Decision.result
        split <;> rfl
      exact hres.trans hd
    · exact hnodes q (hrunning ▸ List.mem_append_right _ hq)
  have hpart : Partition p.blockManager (stakes (p.scheduled ++ r :: pending)) :=
    h.cacheless.partition.moves hmoves
  have hroom : (s.running.map (Request.maxBlocks e.cacheConfig)).sum ≤
      e.cacheConfig.numGpuBlocks := by
    have hall := h.room
    rw [List.map_append, List.sum_append] at hall
    omega
  refine ⟨hmem, ?_⟩
  rw [fits, isSpec, hgrowing.undrafted]
  exact canAppendSlot_of_snug (h.pool.trans hpool) hcache (hstakes ▸ hpart)
    (fun q hq => hsnug q (List.mem_append_left _ hq)) hroom hmem hgrowing.getLen_lt

/-- A block is added only when the last one is full. -/
theorem snug_reserve (hsnug : Snug e s bm) (hnodup : ((s.running ++ s.waiting).map
      Request.requestId).Nodup) (hsize : bm.blockSize = e.cacheConfig.blockSize)
    (hr : r ∈ s.running ++ s.waiting) (hlt : r.getLen < r.maxLen) (hd : r.draftTokenIds = [])
    {n : ℤ} (hfit : bm.growth r n ≤ bm.numFreeBlocks) :
    Snug e s (bm.handOut r.requestId (bm.getBlockTable r) (bm.growth r n)) := by
  intro q hq
  by_cases hid : q.requestId = r.requestId
  · obtain rfl := List.inj_on_of_nodup_map hnodup hq hr hid
    rw [BlockManager.capacity_handOut _ _ _ hfit]
    have hold := hsnug q hq
    have hnot : ¬ isSpec q = true := by simp [isSpec, hd]
    rw [BlockManager.growth, if_neg hnot]
    split
    · rename_i hneeds
      have hfull : (bm.getBlockTable q).length * bm.blockSize < q.getLen := of_decide_eq_true hneeds
      rw [Nat.add_mul, Nat.one_mul]
      omega
    · exact hold
  · rw [BlockManager.capacity_handOut_of_ne _ hid]
    exact hsnug q hq

/-- An allocation without a cache takes the blocks of the tokens there are. -/
theorem snug_allocate (hsnug : Snug e s bm) (hnodup : ((s.running ++ s.waiting).map
      Request.requestId).Nodup) (hsize : bm.blockSize = e.cacheConfig.blockSize)
    (hc : bm.prefixCache = none) (hr : r ∈ s.running ++ s.waiting) (hlt : r.getLen < r.maxLen)
    {bm' : BlockManager} {r' : Request}
    (h : bm.allocate r (bm.matchPrefix r.promptTokenIds) = .ok (bm', r')) : Snug e s bm' := by
  have hpos := e.cacheConfig.blockSize_pos
  obtain ⟨-, hother⟩ := BlockManager.capacity_allocate (hsize ▸ hpos) h
  intro q hq
  by_cases hid : q.requestId = r.requestId
  · obtain rfl := List.inj_on_of_nodup_map hnodup hq hr hid
    obtain ⟨-, t, freed, -, hle, hres⟩ := (bm.allocate_eq_ok_iff q _).mp h
    cases hres
    have hnone : bm.matchPrefix q.promptTokenIds = none := by
      rw [BlockManager.matchPrefix, hc, Option.map_none]
    rw [BlockManager.capacity_handOut]
    · have hneeded : ¬ q.getLen ≤ (q.numBlocksNeeded bm.blockSize - 1) * bm.blockSize ∨
          q.numBlocksNeeded bm.blockSize = 0 := by
        rw [← q.numBlocksNeeded_le_iff (hsize ▸ hpos)]
        omega
      show ((BlockManager.matchedBlockIds (bm.matchPrefix q.promptTokenIds)).length +
        bm.neededFresh q (bm.matchPrefix q.promptTokenIds)) * bm.blockSize < _
      rw [hnone, BlockManager.neededFresh, BlockManager.matchedBlockIds, Option.map_none,
        Option.getD_none, List.length_nil, Nat.zero_add, Nat.sub_zero]
      rcases hneeded with hneeded | hneeded
      · rw [Nat.sub_mul, Nat.one_mul] at hneeded
        omega
      · rw [hneeded, Nat.zero_mul]
        omega
    · show _ ≤ (freed.reverse ++ bm.freeBlockIds).length
      rw [List.length_append, List.length_reverse]
      exact hle
  · rw [hother q.requestId hid]
    exact hsnug q hq

/-- The running pass preempts nobody, and adds no block to spare. -/
theorem runningSteps (h : RoomyState e s)
    (hsteps : ReflTransGen RunningStep (s.running, s.runningPass) (pending, p)) :
    p.output.preempted = [] ∧ Snug e s p.blockManager := by
  suffices hinv : ReflTransGen RunningStep (s.running, s.runningPass) (pending, p) ∧
      p.output.preempted = [] ∧ Snug e s p.blockManager from hinv.2
  refine inv_of_runningSteps (fun pending p =>
    ReflTransGen RunningStep (s.running, s.runningPass) (pending, p) ∧
      p.output.preempted = [] ∧ Snug e s p.blockManager) ?_ hsteps ⟨.refl, rfl, h.snug⟩
  rintro pending pending' p p' ⟨hsteps, hnone, hsnug⟩ hs
  refine ⟨hsteps.tail hs, ?_⟩
  cases hs with
  | skip => exact ⟨hnone, hsnug⟩
  | bump _ hfit => exact absurd ((h.fits_next hsteps hnone hsnug _).2.symm.trans hfit) (by simp)
  | yield _ hfit => exact absurd ((h.fits_next hsteps hnone hsnug _).2.symm.trans hfit) (by simp)
  | @grant r _ _ _ _ hfit hp =>
    obtain ⟨hmem, -⟩ := h.fits_next hsteps hnone hsnug 0
    have hgrowing := (h.running r hmem).1
    have hmoves := runningSteps_moves hsteps
    have hpool : SamePool s.blockManager p.blockManager :=
      SamePool.of_moves hmoves h.cacheless.accounts
    obtain ⟨bm, hreserve, hret⟩ := bind_eq_ok.mp hp
    have hstake : r.stake ∈ stakes (p.scheduled ++ r :: pending') := by simp [stakes]
    obtain ⟨hok, -⟩ := (h.cacheless.accounts.moves hmoves).reserve hstake hfit
    cases hok.symm.trans hreserve
    cases hret
    have hnodup : ((s.running ++ s.waiting).map Request.requestId).Nodup :=
      h.cacheless.ids ▸ h.cacheless.nodup
    exact ⟨hnone, snug_reserve hsnug hnodup (h.pool.trans hpool).blockSize
      (List.mem_append_left _ hmem) hgrowing.getLen_lt hgrowing.undrafted
      ((p.blockManager.fits_iff r _).mp hfit)⟩

/-- A schedule preempts nobody, and adds no block to spare. -/
theorem schedule (h : RoomyState e s) (hs : s.schedule = .ok (s₁, out)) :
    out.preempted = [] ∧ Snug e s s₁.blockManager := by
  obtain ⟨p, hp, hcases⟩ := schedule_cases hs
  obtain ⟨hnone, hsnug⟩ := h.runningSteps hp
  rcases hcases with ⟨hpre, -, -⟩ | ⟨-, waiting, q, hq, -, rfl, rfl⟩
  · exact absurd hnone hpre
  · refine ⟨hnone, ?_⟩
    have hmoves := runningSteps_moves hp
    rw [List.append_nil] at hmoves
    have hw : ∀ r ∈ p.waiting, r.cachedPrefixNodes = [] := by
      rw [RunningTrace.waiting_eq hp hnone]
      exact fun r hr => h.cacheless.uncached r hr
    have hnodup : ((s.running ++ s.waiting).map Request.requestId).Nodup :=
      h.cacheless.ids ▸ h.cacheless.nodup
    suffices ∀ x, ReflTransGen (WaitingStep s.schedulerConfig)
        (p.waiting, waitingPass s.schedulerConfig p) x →
        (∀ r ∈ x.1, r ∈ s.waiting) ∧ Snug e s x.2.blockManager from (this _ hq).2
    intro x hx
    induction hx with
    | refl => exact ⟨fun r hr => RunningTrace.waiting_eq hp hnone ▸ hr, hsnug⟩
    | @tail y z hy hs ih =>
      obtain ⟨hsub, hsnug⟩ := ih
      have hpool : SamePool s.blockManager y.2.blockManager :=
        SamePool.of_moves (hmoves.trans (waitingSteps_moves hy hw)) h.cacheless.accounts
      have hcache : y.2.blockManager.prefixCache = none := by
        have hcaching := hpool.caching
        rw [h.cacheless.cacheless] at hcaching
        simpa using hcaching
      cases hs with
      | @enter r waiting q q' hadm hq =>
        refine ⟨fun r' hr' => hsub r' (List.mem_cons_of_mem _ hr'), ?_⟩
        obtain ⟨bm, halloc, -, rfl⟩ := WaitingTrace.admit_eq hq
        have hmem := hsub r List.mem_cons_self
        exact snug_allocate hsnug hnodup (h.pool.trans hpool).blockSize hcache
          (List.mem_append_right _ hmem) (h.waiting r hmem).1.getLen_lt halloc

/-- Whoever runs after the schedule and has outputs has computed all of its tokens, or all but
the newest if it was given none. -/
theorem decided (h : RoomyState e s) (t : StepTrace s s₁ out plan victims as) (o : InOrder s₁)
    (hr : r ∈ s₁.running) : r.outputTokenIds = [] ∨ r.numComputedTokens = r.getLen ∨
      out.tokensOf r.requestId = none ∧ r.numComputedTokens + 1 = r.getLen := by
  rw [t.running', List.mem_append] at hr
  rcases hr with hr | hr
  · obtain ⟨d, hd, rfl⟩ := List.mem_map.mp hr
    have hmem : d.request ∈ s.running := t.running ▸ List.mem_append_left _ (List.mem_map_of_mem hd)
    obtain ⟨budget, hsound⟩ := t.plan_sound' hd
    by_cases hout : d.request.outputTokenIds = []
    · left
      unfold Decision.result
      split <;> exact hout
    · have hnewest := h.decoding _ hmem hout
      right
      rw [Decision.result_requestId, t.tokensOf_plan o hd]
      rcases hsound.cases with ⟨hg, hres, -⟩ | ⟨n, hpos, -, -, hres, -, hlen⟩
      · rw [hg, hres]
        exact .inr ⟨rfl, hnewest⟩
      · have hle := (hlen (h.running _ hmem).1.undrafted).1
        rw [hres]
        left
        show d.request.numComputedTokens + n = d.request.getLen
        omega
  · obtain ⟨a, ha, rfl⟩ := List.mem_map.mp hr
    have hout : a.request.outputTokenIds = [] := h.prefilling _ (t.mem_waiting ha)
    exact .inl hout

/-- Whoever is scheduled is still inside its prompt or is computed in full. -/
theorem uncut (h : RoomyState e s) : s.Uncut := by
  intro s₁ out hs r hr hsched
  obtain ⟨plan, victims, as, t⟩ := StepTrace.of_schedule hs
  obtain ⟨o, -⟩ := h.cacheless.toInOrder.schedule hs
  obtain ⟨-, hle, -⟩ := h.scheduled t o hr
  rcases h.decided t o hr with hout | hall | ⟨hnone, -⟩
  · simp only [Request.isPrefill, Request.getLen, hout, List.length_nil, Nat.add_zero,
      decide_eq_true_eq] at hle ⊢
    omega
  · exact .inr hall
  · rw [← SchedulerOutput.tokensOf_isSome_iff, hnone] at hsched
    cases hsched

/-- A turn leaves all but the newest output computed. -/
theorem decoding_turn (h : RoomyState e s) (hs : s.schedule = .ok (s₁, out))
    (t : StepTrace s s₁ out plan victims as) (o : InOrder s₁) (hr : r ∈ s₁.running)
    (hout : (e.turn out r).outputTokenIds ≠ []) :
    (e.turn out r).numComputedTokens + 1 = (e.turn out r).getLen := by
  obtain ⟨hgrowing, -, hidle⟩ := h.scheduled t o hr
  have hround : out.roundOf r = none := SchedulerOutput.roundOf_of_undrafted hgrowing.undrafted
  cases hn : out.tokensOf r.requestId with
  | none =>
    rw [LLMEngine.turn_idle hn hround] at hout ⊢
    rcases h.decided t o hr with hnil | hall | ⟨-, hnewest⟩
    · exact absurd hnil hout
    · exact absurd hall (hidle hn).ne
    · exact hnewest
  | some n =>
    cases hpre : r.isPrefill with
    | true =>
      rw [LLMEngine.turn_prefill hn hround hpre] at hout ⊢
      have hlt : r.numComputedTokens < r.promptTokenIds.length := by
        simpa [Request.isPrefill] using hpre
      rcases h.decided t o hr with hnil | hall | ⟨hnone, -⟩
      · exact absurd hnil hout
      · exact absurd hall (hlt.trans_le (Nat.le_add_right _ _)).ne
      · rw [hn] at hnone
        cases hnone
    | false =>
      have hall := (h.uncut s₁ out hs r hr (SchedulerOutput.mem_of_tokensOf hn)).resolve_left
        (by simp [hpre])
      rw [LLMEngine.turn_sample hn hround hpre hgrowing.undrafted hgrowing.unfinished]
      simp only [Request.getLen, Request.grown, List.length_append, List.length_singleton] at hall ⊢
      omega

end RoomyState

/-! ## A step -/

/-- What the requests are known by comes out of a step as it went in, less those that finished. -/
theorem FittingState.live_sublist {e : LLMEngine} {s s' : Scheduler} {out : SchedulerOutput}
    {finished : List Request} (h : FittingState e s) (hs : e.step none s = .ok (s', out, finished))
    {α : Type} {f : Request → α} (hf : ∀ r r' : Request, r'.requestId = r.requestId →
      r'.promptTokenIds = r.promptTokenIds → r'.samplingParams = r.samplingParams → f r' = f r) :
    ((s'.running ++ s'.waiting).map f).Sublist ((s.running ++ s.waiting).map f) := by
  obtain ⟨s₁, plan, victims, as, turned, st⟩ :=
    LLMEngine.stepSpec_of_step h.cacheless.toInOrder h.queued hs
  obtain rfl := st.turned_eq (h.cacheless.schedule st.schedule).1.cacheless
  have hscheduled : ((s₁.running ++ s₁.waiting).map f) = (s.running ++ s.waiting).map f :=
    st.trace.map_queues (fun {_ _} hb => by obtain ⟨_, rfl⟩ := hb; exact hf _ _ rfl rfl rfl)
      (fun d => hf _ _ d.result_requestId d.result_promptTokenIds
        (by unfold Decision.result; split <;> rfl)) fun _ => hf _ _ rfl rfl rfl
  have hrunning : s'.running = (s₁.running.map (e.turn out)).filter fun r => ¬ r.isFinished := by
    rw [st.running, show Request.proposed none = id from rfl, List.map_id]
  have hturn : ∀ r, f (e.turn out r) = f r := fun r => by
    have hsame := e.sameRequest_turn out r
    exact hf _ _ hsame.requestId hsame.promptTokenIds hsame.samplingParams
  have hsub := (List.filter_sublist (l := s₁.running.map (e.turn out))
    (p := fun r => ¬ r.isFinished)).map f
  rw [List.map_map, show f ∘ e.turn out = f from funext hturn] at hsub
  rw [← hscheduled, hrunning, st.waiting, List.map_append, List.map_append]
  exact hsub.append_right _

/-- A sweep leaves the tables of everybody else. -/
theorem Scheduler.capacity_of_sweep {s s' : Scheduler} {finished : List Request}
    (h : s.freeFinishedRequests = .ok (s', finished)) {id : RequestId}
    (hid : id ∉ finished.map Request.requestId) :
    s'.blockManager.capacity id = s.blockManager.capacity id := by
  obtain ⟨⟨bm, rs⟩, hall, hret⟩ := bind_eq_ok.mp h
  cases hret
  refine BlockManager.capacity_freeAll hall fun r hr heq => hid ?_
  rw [InOrder.freeAll_ids hall, heq]
  exact List.mem_map_of_mem hr

namespace RoomyState
variable {e : LLMEngine} {s s' : Scheduler} {out : SchedulerOutput} {finished : List Request}

theorem step (h : RoomyState e s) (hs : e.step none s = .ok (s', out, finished)) :
    RoomyState e s' := by
  have o := h.cacheless.toInOrder
  obtain ⟨s₁, s₃, s₅, turned, stages⟩ := LLMEngine.stages_of_step o h.queued hs
  obtain ⟨plan, victims, as, t⟩ := StepTrace.of_schedule stages.schedule
  have st := stages.spec t
  obtain rfl := stages.turned_eq (h.cacheless.schedule stages.schedule).1.cacheless
  obtain ⟨hnone, hsnug⟩ := h.schedule stages.schedule
  have hvictims : victims = [] := by
    rw [t.preempted] at hnone
    simpa using hnone
  have hids : (s'.ids ++ finished.map Request.requestId).Nodup := by
    have hlive : s.ids = s.requests := o.ids
    exact (LLMEngine.step_ids hs).nodup_iff.mp (hlive ▸ o.nodup)
  refine ⟨h.toFittingState.step hs, ?_, fun r hr => ?_, fun r hr hout => ?_, fun r hr => ?_⟩
  · have hsub := h.toFittingState.live_sublist hs (f := Request.maxBlocks e.cacheConfig)
      fun r r' _ hprompt hparams => by
        rw [Request.maxBlocks, Request.maxBlocks, Request.maxLen, Request.maxLen, hprompt, hparams]
    exact (hsub.sum_le_sum fun _ _ => Nat.zero_le _).trans h.room
  · have hsub := h.toFittingState.live_sublist hs (f := fun r => (r.requestId, r.maxLen))
      fun r r' hid hprompt hparams => by
        rw [hid, Request.maxLen, Request.maxLen, hprompt, hparams]
    obtain ⟨q, hq, hfq⟩ := List.mem_map.mp (hsub.subset (List.mem_map_of_mem hr))
    obtain ⟨hid, hmax⟩ := Prod.mk.inj hfq
    have hgone : r.requestId ∉ finished.map Request.requestId := by
      refine fun hmem => (List.nodup_append.mp hids).2.2 _ ?_ _ hmem rfl
      exact List.mem_map_of_mem hr
    have hcap : s'.blockManager.capacity r.requestId = s₁.blockManager.capacity r.requestId := by
      have hreg := Scheduler.capacity_registerComputed stages.register r.requestId
      have hsweep := Scheduler.capacity_of_sweep stages.sweep hgone
      rw [stages.propose, Scheduler.proposeIf_eq]
      exact hsweep.trans hreg
    rw [hcap, ← hid, ← hmax]
    exact hsnug q hq
  · rw [st.running, show Request.proposed none = id from rfl, List.map_id] at hr
    obtain ⟨q, hq, rfl⟩ := List.mem_map.mp (List.mem_filter.mp hr).1
    exact h.decoding_turn stages.schedule t stages.inOrder hq hout
  · rw [st.waiting] at hr
    rcases t.of_mem_waiting hr with hmem | ⟨v, hv, -⟩
    · exact h.prefilling r hmem
    · rw [hvictims] at hv
      exact absurd hv List.not_mem_nil

end RoomyState

/-- The state of an engine that serves greedy decodings of requests that it has room for. -/
structure AmpleState (e : LLMEngine) (arrived : List Request) (s : Scheduler) : Prop where
  fitting : FittingState e s
  plain : PlainState e arrived s
  schedulerConfig : s.schedulerConfig = e.schedulerConfig
  room : RoomyState e s ∨ s.maxLen ≤ e.schedulerConfig.maxNumBatchedTokens

namespace AmpleState
variable {e : LLMEngine} {s s' : Scheduler} {out : SchedulerOutput}
  {arrived finished gone : List Request}

theorem uncut (h : AmpleState e arrived s) : s.Uncut := by
  rcases h.room with hroomy | hbudget
  · exact hroomy.uncut
  · exact h.fitting.uncut_of_budget (h.schedulerConfig ▸ hbudget)

theorem step (h : AmpleState e arrived s) (hs : e.step none s = .ok (s', out, finished)) :
    AmpleState e arrived s' ∧ ∀ r ∈ finished, r.origin ∈ arrived ∧ r.Lossless e.runner.next := by
  obtain ⟨hplain, hlossless⟩ := h.plain.step h.uncut hs
  obtain ⟨s₁, plan, victims, as, turned, st⟩ :=
    LLMEngine.stepSpec_of_step h.fitting.cacheless.toInOrder h.fitting.queued hs
  refine ⟨⟨h.fitting.step hs, hplain, st.schedulerConfig.trans h.schedulerConfig, ?_⟩, hlossless⟩
  refine h.room.imp (fun hroomy => hroomy.step hs) fun hbudget => ?_
  have hsub := h.fitting.live_sublist hs (f := Request.maxLen) fun r r' _ hprompt hparams => by
    rw [Request.maxLen, Request.maxLen, hprompt, hparams]
  exact (hsub.sum_le_sum fun _ _ => Nat.zero_le _).trans hbudget

/-- However many steps the loop may take, it returns, and whoever left has its greedy decoding. -/
theorem generateLoop (h : AmpleState e arrived s) (hall : e.runner.Unbounded) (maxSteps : ℕ) :
    ∃ s' gone, e.generateLoop maxSteps s = .ok (s', gone) ∧ AmpleState e arrived s' ∧
      s.ids.Perm (s'.ids ++ gone.map Request.requestId) ∧
      ∀ r ∈ gone, r.origin ∈ arrived ∧ r.Lossless e.runner.next := by
  induction maxSteps generalizing s with
  | zero => exact ⟨s, [], rfl, h, by simp, fun r hr => absurd hr List.not_mem_nil⟩
  | succ maxSteps ih =>
    rw [LLMEngine.generateLoop]
    split
    · obtain ⟨s₁, out, finished, hs⟩ := h.fitting.returns hall
      obtain ⟨h₁, hlossless⟩ := h.step hs
      obtain ⟨s', gone, hloop, h', hids, hgone⟩ := ih h₁
      refine ⟨s', finished ++ gone, ?_, h', ?_, fun r hr => ?_⟩
      · simp only [hs, ok_bind, hloop]
        rfl
      · have hstep := (LLMEngine.step_ids hs).trans (hids.append_right _)
        rw [List.map_append]
        refine hstep.trans ?_
        rw [List.append_assoc]
        exact List.perm_append_comm.append_left _
      · rcases List.mem_append.mp hr with hr | hr
        · exact hlossless r hr
        · exact hgone r hr
    · exact ⟨s, [], rfl, h, by simp, fun r hr => absurd hr List.not_mem_nil⟩

end AmpleState

/-! ## The requests of a call -/

/-- The requests that a call submits. -/
def LLMEngine.submitted (params : SamplingParams) (prompts : List (List Token)) (nextId : ℕ) :
    List Request :=
  (prompts.zipIdx nextId).map fun x => newRequest x.2 x.1 params

namespace LLMEngine
variable {e : LLMEngine} {params : SamplingParams} {prompts : List (List Token)} {nextId : ℕ}
  {s : Scheduler} {arrived : List Request}

theorem submitted_ids (params : SamplingParams) (prompts : List (List Token)) (nextId : ℕ) :
    (submitted params prompts nextId).map Request.requestId =
    (prompts.zipIdx nextId).map Prod.snd := by
  rw [submitted, List.map_map]
  rfl

/-- The next id that is counted is new. -/
theorem addRequest_next (hfresh : ∀ id ∈ s.requests, id < nextId) (promptTokenIds : List Token)
    (params : SamplingParams) :
    s.addRequest (newRequest nextId promptTokenIds params) = .ok { s with
        requests := s.requests ++ [nextId]
        waiting := s.waiting ++ [newRequest nextId promptTokenIds params] } ∧
      ∀ id ∈ s.requests ++ [nextId], id < nextId + 1 := by
  refine ⟨if_neg fun hmem => (hfresh nextId hmem).false, fun id hid => ?_⟩
  rcases List.mem_append.mp hid with hid | hid
  · exact (hfresh id hid).trans (Nat.lt_succ_self _)
  · rw [List.mem_singleton.mp hid]
    exact Nat.lt_succ_self _

theorem addRequests_eq (params : SamplingParams) (prompts : List (List Token))
    (hfresh : ∀ id ∈ s.requests, id < nextId) :
    addRequests params prompts nextId s = .ok ({ s with
        requests := s.requests ++ (prompts.zipIdx nextId).map Prod.snd
        waiting := s.waiting ++ submitted params prompts nextId },
      nextId + prompts.length, (prompts.zipIdx nextId).map Prod.snd) := by
  induction prompts generalizing nextId s with
  | nil => simp [addRequests, submitted]
  | cons p prompts ih =>
    obtain ⟨hadd, hfresh'⟩ := addRequest_next hfresh p params
    rw [addRequests, hadd, ok_bind, ih hfresh']
    simp only [ok_bind, List.zipIdx_cons, List.map_cons, submitted, List.append_assoc,
      List.singleton_append, List.length_cons, Nat.add_comm prompts.length 1, Nat.add_assoc]
    rfl

/-- Submissions are arrivals. -/
theorem Run.addRequests {Admits : Request → Prop} {Meets : Scheduler → Prop}
    (h : e.Run Admits Meets s arrived) (hfresh : ∀ id ∈ s.requests, id < nextId)
    (hadm : ∀ r ∈ submitted params prompts nextId, Admits r) :
    e.Run Admits Meets { s with
      requests := s.requests ++ (prompts.zipIdx nextId).map Prod.snd
      waiting := s.waiting ++ submitted params prompts nextId }
      (arrived ++ submitted params prompts nextId) := by
  induction prompts generalizing nextId s arrived with
  | nil => simpa [submitted] using h
  | cons p prompts ih =>
    obtain ⟨hadd, hfresh'⟩ := addRequest_next hfresh p params
    have hrest := ih (h.addRequest nextId p params (hadm _ List.mem_cons_self) hadd) hfresh'
      fun r hr => hadm r (List.mem_cons_of_mem _ hr)
    simpa only [submitted, List.append_assoc, List.zipIdx_cons, List.map_cons,
      List.singleton_append] using hrest

end LLMEngine

theorem FittingState.schedulerConfig_of_run {e : LLMEngine}
    (hcache : e.cacheConfig.enablePrefixCaching = false) (hspec : e.speculativeConfig = none)
    {s : Scheduler} {arrived : List Request}
    (h : e.Run (Request.Fits e.cacheConfig) (fun _ => True) s arrived) :
    s.schedulerConfig = e.schedulerConfig := by
  induction h with
  | start => rfl
  | addRequest id promptTokenIds params _ _ hs ih =>
    rw [Scheduler.addRequest_eq hs]
    exact ih
  | step drafts hrun _ _ hs ih =>
    have hstate := FittingState.of_run hcache hspec hrun
    obtain ⟨s₁, plan, victims, as, turned, st⟩ :=
      LLMEngine.stepSpec_of_step hstate.cacheless.toInOrder hstate.queued hs
    exact st.schedulerConfig.trans ih
  | abortRequests ids hrun hs ih =>
    have hstate := FittingState.of_run hcache hspec hrun
    exact (hstate.cacheless.abortRequests hs).2.2.1.trans ih

/-- An idle engine takes on whatever it has room for. -/
theorem AmpleState.of_idle {e : LLMEngine} (hcache : e.cacheConfig.enablePrefixCaching = false)
    (hspec : e.speculativeConfig = none) {s : Scheduler} {arrived : List Request}
    (h : e.Run (Request.Fits e.cacheConfig) (fun _ => True) s arrived)
    (hrunning : s.running = []) (hwaiting : s.waiting = []) (hrequests : s.requests = [])
    {params : SamplingParams} {prompts : List (List Token)} {nextId : ℕ}
    (hfits : ∀ r ∈ LLMEngine.submitted params prompts nextId, r.Fits e.cacheConfig)
    (hample : e.Ample (LLMEngine.submitted params prompts nextId)) :
    AmpleState e (LLMEngine.submitted params prompts nextId) { s with
      requests := s.requests ++ (prompts.zipIdx nextId).map Prod.snd
      waiting := s.waiting ++ LLMEngine.submitted params prompts nextId } := by
  have hfresh : ∀ id ∈ s.requests, id < nextId := by
    rw [hrequests]
    exact fun id hid => absurd hid List.not_mem_nil
  have hrun := h.addRequests hfresh hfits
  have hfitting := FittingState.of_run hcache hspec hrun
  have hnew : ∀ r ∈ LLMEngine.submitted params prompts nextId, ∃ id promptTokenIds,
      r = LLMEngine.newRequest id promptTokenIds params := fun r hr => by
    obtain ⟨x, -, rfl⟩ := List.mem_map.mp hr
    exact ⟨_, _, rfl⟩
  refine ⟨hfitting, ⟨hfitting.cacheless, fun r hr => ?_, fun r hr => ?_⟩,
    FittingState.schedulerConfig_of_run hcache hspec hrun, ?_⟩
  · rw [hrunning] at hr
    exact absurd hr List.not_mem_nil
  · rw [hwaiting, List.nil_append] at hr
    obtain ⟨id, promptTokenIds, rfl⟩ := hnew r hr
    have hfit := (hfits _ hr).1
    exact ⟨⟨⟨hr, hfit.1, Request.onTrack_origin id promptTokenIds hfit.2⟩, rfl⟩, rfl⟩
  · refine hample.imp (fun hroom => ⟨hfitting, ?_, fun r hr => ?_, fun r hr => ?_, fun r hr => ?_⟩)
      fun hroom => ?_
    · simpa only [hrunning, hwaiting, List.nil_append] using hroom
    · have hstate := FittingState.of_run hcache hspec h
      have htable : r.requestId ∉ s.blockManager.blockTables := by
        rw [hstate.cacheless.accounts.tables, hrunning]
        exact List.not_mem_nil
      have hcap : s.blockManager.capacity r.requestId = 0 := by
        rw [BlockManager.capacity, BlockManager.tableOf, AList.lookup_eq_none.mpr htable,
          Option.getD_none, List.length_nil, Nat.zero_mul]
      rw [hcap]
      exact Nat.add_pos_right _ e.cacheConfig.blockSize_pos
    · rw [hrunning] at hr
      exact absurd hr List.not_mem_nil
    · rw [hwaiting, List.nil_append] at hr
      obtain ⟨id, promptTokenIds, rfl⟩ := hnew r hr
      rfl
    · simpa only [Scheduler.maxLen, hrunning, hwaiting, List.nil_append] using hroom

/-! ## What comes back -/

/-- Greedy decoding of a prompt, of at most `n` tokens. -/
def LLMEngine.decode (e : LLMEngine) (params : SamplingParams) (promptTokenIds : List Token)
    (n : ℕ) : List Token × Option RequestStatus :=
  Decode.decode e.runner.next (Request.stopStatus params) promptTokenIds n []

/-- A result of a prompt has its greedy decoding, or as much of it as there is so far. -/
structure GenerationOutput.Reports (e : LLMEngine) (params : SamplingParams)
    (promptTokenIds : List Token) (o : GenerationOutput) : Prop where
  prompt : o.promptTokenIds = promptTokenIds
  tokens : e.decode params promptTokenIds params.maxTokens.toNat =
      (o.outputTokenIds, some o.finishReason) ∨
    o.finishReason.finished = false ∧
      e.decode params promptTokenIds o.outputTokenIds.length = (o.outputTokenIds, none)

instance (e : LLMEngine) (params : SamplingParams) (promptTokenIds : List Token)
    (o : GenerationOutput) :
    Decidable (o.Reports e params promptTokenIds) :=
  decidable_of_iff (_ ∧ _) ⟨fun h => ⟨h.1, h.2⟩, fun h => ⟨h.1, h.2⟩⟩

theorem forall₂_filterMap {α β : Type} {R : α → β → Prop} {f : α → Option β} {l : List α}
    (h : ∀ x ∈ l, ∃ y, f x = some y ∧ R x y) : List.Forall₂ R l (l.filterMap f) := by
  induction l with
  | nil => exact .nil
  | cons x l ih =>
    obtain ⟨y, hy, hxy⟩ := h x List.mem_cons_self
    rw [List.filterMap_cons, hy]
    exact .cons hxy (ih fun x hx => h x (List.mem_cons_of_mem _ hx))

/-- What `generate` returns when its loop does. -/
theorem LLMEngine.generate_eq {e : LLMEngine}
    {prompts : List (List Token)} {params : SamplingParams} {maxSteps nextId nextId' : ℕ}
    {s s₁ s' : Scheduler} {ids : List RequestId} {gone : List Request}
    (hadd : addRequests params prompts nextId s = .ok (s₁, nextId', ids))
    (hloop : e.generateLoop maxSteps s₁ = .ok (s', gone)) :
    e.generate prompts params maxSteps nextId s = .ok (s', nextId', ids.filterMap fun id =>
      ((gone ++ s'.running ++ s'.waiting).find? fun r => r.requestId = id).map .of) :=
  bind_eq_ok.mpr ⟨_, hadd, bind_eq_ok.mpr ⟨_, hloop, rfl⟩⟩

namespace AmpleState
variable {e : LLMEngine} {s : Scheduler} {params : SamplingParams} {prompts : List (List Token)}
  {nextId : ℕ} {gone : List Request}

/-- Among the objects of a call there is one for every prompt, which has what it should. -/
theorem report (h : AmpleState e (LLMEngine.submitted params prompts nextId) s)
    (hids : ((prompts.zipIdx nextId).map Prod.snd).Perm (s.ids ++ gone.map Request.requestId))
    (hgone : ∀ r ∈ gone, r.origin ∈ LLMEngine.submitted params prompts nextId ∧
      r.Lossless e.runner.next) {x : List Token × ℕ} (hx : x ∈ prompts.zipIdx nextId) :
    ∃ o, ((gone ++ s.running ++ s.waiting).find? fun r => r.requestId = x.2).map
        GenerationOutput.of = some o ∧ o.requestId = x.2 ∧ o.Reports e params x.1 ∧
      (s.hasUnfinishedRequests = false → o.finishReason.finished = true) := by
  have hmem : x.2 ∈ (gone ++ s.running ++ s.waiting).map Request.requestId := by
    have hmem := hids.subset (List.mem_map_of_mem hx)
    rw [Scheduler.ids, ← List.map_append] at hmem
    rw [List.append_assoc]
    exact (List.perm_append_comm.map _).subset hmem
  obtain ⟨q, hq, hqid⟩ := List.mem_map.mp hmem
  cases hfind : (gone ++ s.running ++ s.waiting).find? fun r => r.requestId = x.2 with
  | none => exact absurd (List.find?_eq_none.mp hfind q hq) (by simp [hqid])
  | some r =>
    have hrid : r.requestId = x.2 := by simpa using List.find?_some hfind
    -- the object is that of the prompt, since the call counts its ids
    have horigin : r.origin ∈ LLMEngine.submitted params prompts nextId →
        r.promptTokenIds = x.1 ∧ r.samplingParams = params := fun hmem => by
      obtain ⟨y, hy, hyr⟩ := List.mem_map.mp hmem
      have hyid : y.2 = r.requestId := congrArg Request.requestId hyr
      have hprompt : y.1 = r.promptTokenIds := congrArg Request.promptTokenIds hyr
      have hparams : params = r.samplingParams := congrArg Request.samplingParams hyr
      have hnodup : ((prompts.zipIdx nextId).map Prod.snd).Nodup := by
        rw [List.zipIdx_map_snd]
        exact List.nodup_range'
      obtain rfl := List.inj_on_of_nodup_map hnodup hy hx (hyid.trans hrid)
      exact ⟨hprompt.symm, hparams.symm⟩
    have hlive : r.Kept e.runner.next (LLMEngine.submitted params prompts nextId) →
        r.origin ∈ LLMEngine.submitted params prompts nextId ∧ r.status.finished = false ∧
          Decode.decode e.runner.next (Request.stopStatus r.samplingParams) r.promptTokenIds
            r.outputTokenIds.length [] = (r.outputTokenIds, none) := fun hkept =>
      ⟨hkept.arrived, hkept.onTrack.unfinished,
        hkept.onTrack.decoding.decode_length hkept.onTrack.goes_on⟩
    obtain ⟨hmem, htokens, hidle⟩ : r.origin ∈ LLMEngine.submitted params prompts nextId ∧
        (r.Lossless e.runner.next ∨ r.status.finished = false ∧
          Decode.decode e.runner.next (Request.stopStatus r.samplingParams) r.promptTokenIds
            r.outputTokenIds.length [] = (r.outputTokenIds, none)) ∧
        (s.hasUnfinishedRequests = false → r.Lossless e.runner.next) := by
      have hempty : r ∈ s.running ++ s.waiting →
          s.hasUnfinishedRequests ≠ false := fun hr hidle => by
        obtain ⟨q, rest, hlive⟩ := List.exists_cons_of_ne_nil (List.ne_nil_of_mem hr)
        exact Bool.false_ne_true
          (hidle.symm.trans (s.hasUnfinishedRequests_iff.mpr ⟨q, rest, hlive⟩))
      have hr := List.mem_of_find?_eq_some hfind
      rw [List.append_assoc, List.mem_append] at hr
      rcases hr with hr | hr
      · exact ⟨(hgone r hr).1, .inl (hgone r hr).2, fun _ => (hgone r hr).2⟩
      · refine ⟨?_, .inr ?_, fun hidle => absurd hidle (hempty hr)⟩ <;>
          rcases List.mem_append.mp hr with hr | hr
        · exact (hlive (h.plain.running r hr).1).1
        · exact (hlive (h.plain.waiting r hr).1.1).1
        · exact (hlive (h.plain.running r hr).1).2
        · exact (hlive (h.plain.waiting r hr).1.1).2
    obtain ⟨hprompt, hparams⟩ := horigin hmem
    refine ⟨.of r, rfl, hrid, ⟨hprompt, ?_⟩, fun hs => ?_⟩
    · rw [Request.Lossless, hprompt, hparams] at htokens
      exact htokens
    · exact finished_of_stopStatus (Decode.stop_of_decode (hidle hs))

end AmpleState

/-- From every idle state, and for prompts that the engine has room for at once, `generate` returns
a result for every prompt, in their order and under the ids it counts. However many steps it may
take, each has the greedy decoding of its own prompt, or as much of it as there is so far; with as
many steps as there are tokens to come, each has all of it, and the engine is idle again. -/
theorem generate_outputs {e : LLMEngine} (hcache : e.cacheConfig.enablePrefixCaching = false)
    (hspec : e.speculativeConfig = none) (hall : e.runner.Unbounded) {s : Scheduler}
    {arrived : List Request} (h : e.Run (Request.Fits e.cacheConfig) (fun _ => True) s arrived)
    (hidle : s.hasUnfinishedRequests = false) (prompts : List (List Token))
    (params : SamplingParams) (nextId : ℕ)
    (hfits : ∀ r ∈ LLMEngine.submitted params prompts nextId, r.Fits e.cacheConfig)
    (hample : e.Ample (LLMEngine.submitted params prompts nextId)) (maxSteps : ℕ) :
    ∃ s' outs, e.generate prompts params maxSteps nextId s =
        .ok (s', nextId + prompts.length, outs) ∧
      List.Forall₂ (fun x o => o.requestId = x.2 ∧ o.Reports e params x.1)
        (prompts.zipIdx nextId) outs ∧
      ((prompts.map fun p => p.length + params.maxTokens.toNat).sum ≤ maxSteps →
        s'.hasUnfinishedRequests = false ∧ ∀ o ∈ outs, o.finishReason.finished = true) := by
  have hstate := FittingState.of_run hcache hspec h
  obtain ⟨hrunning, hwaiting⟩ : s.running = [] ∧ s.waiting = [] := by
    rw [← List.append_eq_nil_iff]
    by_contra hne
    obtain ⟨r, rest, hlive⟩ := List.exists_cons_of_ne_nil hne
    exact Bool.false_ne_true (hidle.symm.trans (s.hasUnfinishedRequests_iff.mpr ⟨r, rest, hlive⟩))
  have hrequests : s.requests = [] := by
    rw [← hstate.cacheless.ids, hrunning, hwaiting]
    rfl
  have hstart := AmpleState.of_idle hcache hspec h hrunning hwaiting hrequests hfits hample
  have hfresh : ∀ id ∈ s.requests, id < nextId := by
    rw [hrequests]
    exact fun id hid => absurd hid List.not_mem_nil
  have hadd := LLMEngine.addRequests_eq params prompts hfresh
  obtain ⟨s', gone, hloop, h', hids, hgone⟩ := hstart.generateLoop hall maxSteps
  have hreport := fun x hx => h'.report (x := x) (by
    refine List.Perm.trans (List.Perm.of_eq ?_) hids
    rw [← LLMEngine.submitted_ids, Scheduler.ids, hrunning, hwaiting]
    rfl) hgone hx
  have hreturn := LLMEngine.generate_eq hadd hloop
  rw [List.filterMap_map] at hreturn
  refine ⟨s', _, hreturn, forall₂_filterMap fun x hx => ?_, fun hle => ?_⟩
  · obtain ⟨o, hfound, hid, ho, -⟩ := hreport x hx
    exact ⟨o, hfound, hid, ho⟩
  · have hwork : (LLMEngine.submitted params prompts nextId).map Request.maxLen =
        prompts.map fun p => p.length + params.maxTokens.toNat := by
      conv_rhs => rw [← List.zipIdx_map_fst nextId prompts, List.map_map]
      rw [LLMEngine.submitted, List.map_map]
      rfl
    obtain ⟨s₂, gone₂, hloop₂, hdone⟩ := hstart.fitting.generateLoop_ends hall
      (show _ ≤ maxSteps from (Nat.sub_le _ _).trans (by
        simpa only [Scheduler.maxLen, hrunning, hwaiting, List.nil_append, hwork] using hle))
    cases hloop.symm.trans hloop₂
    refine ⟨hdone, fun o ho => ?_⟩
    obtain ⟨x, hx, hfound⟩ := List.mem_filterMap.mp ho
    obtain ⟨o', hfound', -, -, hfinished⟩ := hreport x hx
    cases hfound'.symm.trans hfound
    exact hfinished hdone

/-- `countingEngine`, with eight tokens a step. -/
def crowdedEngine : LLMEngine :=
  { countingEngine with schedulerConfig :=
      { SchedulerConfig.defaults with
        maxNumBatchedTokens := 10, maxNumBatchedTokens_pos := by decide } }

/-- An engine that has served one request and aborted another is called with two prompts whose
longest sequences fit into a step but not into the pool: one is bumped by the other and comes
back. -/
theorem generate_outputs_two : ∃ s arrived s' outs,
    crowdedEngine.Run (Request.Fits crowdedEngine.cacheConfig) (fun _ => True) s arrived ∧
      arrived.map Request.promptTokenIds = [[5], [6]] ∧
      crowdedEngine.generate [[7, 7], [8, 8]] { maxTokens := 2 } 8 2 s = .ok (s', 2 + 2, outs) ∧
      outs = [⟨2, [7, 7], [2, 3], .finishedLengthCapped⟩,
        ⟨3, [8, 8], [2, 3], .finishedLengthCapped⟩] ∧
      List.Forall₂ (fun x o => o.requestId = x.2 ∧ o.Reports crowdedEngine { maxTokens := 2 } x.1)
        ([[7, 7], [8, 8]].zipIdx 2) outs ∧
      s'.hasUnfinishedRequests = false ∧ ∀ o ∈ outs, o.finishReason.finished = true := by
  have h : (crowdedEngine.performAll (fun _ => True) crowdedEngine.start []
      [.addRequest 0 [5] { maxTokens := 1 }, .addRequest 1 [6] { maxTokens := 2 }, .step none,
        .abortRequests [1]]).any (fun run =>
      (crowdedEngine.generate [[7, 7], [8, 8]] { maxTokens := 2 } 8 2
        run.1).toOption.any fun result =>
        decide (run.2.map Request.promptTokenIds = [[5], [6]] ∧
          run.1.hasUnfinishedRequests = false ∧ result.2.2 =
            [⟨2, [7, 7], [2, 3], .finishedLengthCapped⟩,
              ⟨3, [8, 8], [2, 3], .finishedLengthCapped⟩])) = true := by
    decide +kernel
  simp only [Option.any_eq_true, toOption_eq_some, decide_eq_true_eq] at h
  obtain ⟨⟨s, arrived⟩, hplay, ⟨_, _, _⟩, hgenerate, hprompts, hidle, rfl⟩ := h
  have hrun :
      crowdedEngine.Run (Request.Fits crowdedEngine.cacheConfig) (fun _ => True) s arrived :=
    .performAll .start (by
      simp only [List.mem_cons, List.not_mem_nil, or_false, forall_eq_or_imp, forall_eq]
      exact ⟨by unfold LLMEngine.Allows; decide, by unfold LLMEngine.Allows; decide, trivial,
        trivial⟩) hplay
  obtain ⟨s', outs, hall, hreports, hends⟩ := generate_outputs rfl rfl ⟨rfl, rfl⟩ hrun hidle
    [[7, 7], [8, 8]] { maxTokens := 2 } 2 (by decide) (by decide) 8
  cases hgenerate.symm.trans hall
  exact ⟨s, arrived, _, _, hrun, hprompts, hall, rfl, hreports, hends (by decide)⟩

end LightServe
