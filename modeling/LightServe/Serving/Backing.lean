import LightServe.Serving.Stages

/-!
# Room for what is scheduled

The table of a running request covers all of its tokens but the newest. When the request is
scheduled it covers the whole range, draft positions included: an admission allocates for every
token, `append_slot` adds a block for the newest one, and `ensure_capacity` as many as a verify
round needs.

## Main definitions

* `BlockManager.capacity` — the positions that a table covers.
* `Request.Covered` — what a table covers once its request is decided.
* `Accounted.covered` — a schedule covers whatever it schedules.
-/

namespace LightServe

open Relation (ReflTransGen)
open Scheduler

namespace BlockManager
variable {bm : BlockManager} {r : Request} {id : RequestId}

/-- The positions that the table of a request covers. -/
def capacity (bm : BlockManager) (id : RequestId) : ℕ := (bm.tableOf id).length * bm.blockSize

/-- Blocks at the end of a table cover more positions. -/
theorem capacity_handOut (bm : BlockManager) (id : RequestId) (table : List BlockId) {count : ℕ}
    (h : count ≤ bm.numFreeBlocks) :
    (bm.handOut id table count).capacity id = (table.length + count) * bm.blockSize := by
  have htable : (bm.handOut id table count).tableOf id = table ++ bm.freeBlockIds.take count :=
    (bm.tableOf_set _ _ _).trans (if_pos rfl)
  have hlen : (bm.freeBlockIds.take count).length = count := List.length_take_of_le h
  rw [capacity, htable, List.length_append, hlen]
  rfl

theorem capacity_handOut_of_ne (bm : BlockManager) {id id' : RequestId} (hne : id' ≠ id)
    (table : List BlockId) (count : ℕ) :
    (bm.handOut id table count).capacity id' = bm.capacity id' := by
  have htable : (bm.handOut id table count).tableOf id' = bm.tableOf id' :=
    (bm.tableOf_set _ _ _).trans (if_neg hne)
  rw [capacity, htable]
  rfl

theorem le_blocksFor (hb : 0 < bm.blockSize) (n : ℕ) : n ≤ bm.blocksFor n * bm.blockSize := by
  have hle := (Nat.div_le_iff_le_mul_add_pred hb).mp (Nat.le_refl (bm.blocksFor n))
  rw [Nat.mul_comm] at hle
  omega

/-- The blocks that a chunk needs make room for it, and without a draft for all tokens. -/
theorem le_capacity_of_growth (hb : 0 < bm.blockSize)
    (hlen : r.getLen ≤ bm.capacity r.requestId + 1) {budget : ℤ}
    (hfit : bm.growth r (chunk r budget) ≤ bm.numFreeBlocks) :
    (r.numComputedTokens + chunk r budget).toNat ≤
      (bm.handOut r.requestId (bm.getBlockTable r) (bm.growth r (chunk r budget))).capacity
        r.requestId ∧
    (isSpec r = false → r.getLen ≤
      (bm.handOut r.requestId (bm.getBlockTable r) (bm.growth r (chunk r budget))).capacity
        r.requestId) := by
  rw [capacity_handOut _ _ _ hfit]
  have hcap : bm.capacity r.requestId = (bm.getBlockTable r).length * bm.blockSize := rfl
  cases hspec : isSpec r with
  | true =>
    refine ⟨(le_blocksFor hb _).trans (Nat.mul_le_mul_right _ ?_), fun h => by cases h⟩
    rw [growth, if_pos hspec]
    omega
  | false =>
    have hnot : ¬ isSpec r = true := by simp [hspec]
    have hchunk : chunk r budget ≤ (r.getLen : ℤ) - r.numComputedTokens := by
      rw [chunk, if_neg hnot, numNew, if_neg hnot]
      exact min_le_left _ _
    have hall : r.getLen ≤ ((bm.getBlockTable r).length + bm.growth r (chunk r budget)) *
        bm.blockSize := by
      rw [growth, if_neg hnot, needsNewBlock]
      by_cases hfull : r.getLen > (bm.getBlockTable r).length * bm.blockSize
      · rw [decide_eq_true hfull, if_pos rfl, Nat.add_mul, Nat.one_mul, ← hcap]
        omega
      · rw [decide_eq_false hfull, if_neg Bool.false_ne_true, Nat.add_zero]
        omega
    refine ⟨?_, fun _ => hall⟩
    omega

/-- An allocation covers every token of its request, and leaves the other tables. -/
theorem capacity_allocate {bm' : BlockManager} {r' : Request} (hb : 0 < bm.blockSize)
    (h : bm.allocate r (bm.matchPrefix r.promptTokenIds) = .ok (bm', r')) :
    r.getLen ≤ bm'.capacity r.requestId ∧
      ∀ id, id ≠ r.requestId → bm'.capacity id = bm.capacity id := by
  obtain ⟨-, t, freed, -, hle, hres⟩ := (bm.allocate_eq_ok_iff r _).mp h
  cases hres
  refine ⟨?_, fun id hne => capacity_handOut_of_ne _ hne _ _⟩
  rw [capacity_handOut]
  · refine (r.numBlocksNeeded_le_iff hb).mp ?_
    rw [neededFresh]
    omega
  · show _ ≤ (freed.reverse ++ bm.freeBlockIds).length
    rw [List.length_append, List.length_reverse]
    exact hle

end BlockManager

/-- The table covers all tokens but the newest; of whoever is scheduled it covers the range, and all
tokens if there is no draft. -/
structure Request.Covered (bm : BlockManager) (out : SchedulerOutput) (r : Request) : Prop where
  known : r.getLen ≤ bm.capacity r.requestId + 1
  range : r.requestId ∈ out.scheduled.map ScheduledRequest.request →
    r.numComputedTokens ≤ bm.capacity r.requestId
  whole : r.requestId ∈ out.scheduled.map ScheduledRequest.request → r.draftTokenIds = [] →
    r.getLen ≤ bm.capacity r.requestId

theorem Request.Covered.mono {bm bm' : BlockManager} {out out' : SchedulerOutput} {r : Request}
    (h : r.Covered bm out) (hcap : bm.capacity r.requestId ≤ bm'.capacity r.requestId)
    (hout : r.requestId ∈ out'.scheduled.map ScheduledRequest.request →
      r.requestId ∈ out.scheduled.map ScheduledRequest.request) : r.Covered bm' out' where
  known := h.known.trans (Nat.add_le_add_right hcap 1)
  range hid := (h.range (hout hid)).trans hcap
  whole hid hd := (h.whole (hout hid) hd).trans hcap

/-! ## The running pass -/

/-- The running pass so far: whoever is decided is covered. -/
structure Scheduler.RunningPass.Backed (pending : List Request) (p : RunningPass) : Prop where
  accounts : Accounts p.blockManager (stakes (p.scheduled ++ pending)) fun _ => 0
  blockSize : 0 < p.blockManager.blockSize
  pending : ∀ r ∈ pending, r.getLen ≤ p.blockManager.capacity r.requestId + 1
  scheduled : ∀ r ∈ p.scheduled, r.Covered p.blockManager p.output
  listed : ∀ id ∈ p.output.scheduled.map ScheduledRequest.request,
    id ∈ p.scheduled.map Request.requestId

namespace Scheduler.RunningPass.Backed
variable {pending pending' : List Request} {p p' : RunningPass} {r v : Request}

/-- Whoever is still pending is not listed. -/
theorem notMem_listed (h : Backed (r :: pending) p) :
    r.requestId ∉ p.output.scheduled.map ScheduledRequest.request := by
  intro hmem
  have hnodup := h.accounts.ids_nodup
  rw [stakes, List.map_map, List.map_append, List.nodup_append] at hnodup
  exact hnodup.2.2 _ (h.listed _ hmem) _ (List.mem_map_of_mem List.mem_cons_self) rfl

/-- A victim takes its own table only. -/
theorem preempt (h : Backed pending p) {rest : List Request}
    (hperm : (p.scheduled ++ pending).Perm (v :: (p.scheduled ++ rest)))
    (hrest : ∀ r ∈ rest, r ∈ pending) (hp : p.preempt v = .ok p') : Backed rest p' := by
  obtain ⟨⟨bm, v'⟩, hfree, hret⟩ := bind_eq_ok.mp hp
  have ha : Accounts p.blockManager (v.stake :: stakes (p.scheduled ++ rest)) fun _ => 0 :=
    h.accounts.perm (hperm.map Request.stake)
  obtain ⟨t, ht, -, -, ha'⟩ := ha.free
  cases ht.symm.trans hfree
  cases hret
  have hcap : ∀ r ∈ p.scheduled ++ rest,
      (p.blockManager.givenBack v t).capacity r.requestId =
      p.blockManager.capacity r.requestId := by
    intro r hr
    have hne : r.requestId ≠ v.requestId := by
      intro heq
      refine (List.nodup_cons.mp ha.ids_nodup).1 ?_
      rw [show v.stake.1 = r.requestId from heq.symm, List.map_map]
      exact List.mem_map_of_mem (f := Prod.fst ∘ Request.stake) hr
    rw [BlockManager.capacity, BlockManager.tableOf_givenBack hne]
    rfl
  refine ⟨ha', h.blockSize, fun r hr => ?_, fun r hr => ?_, h.listed⟩
  · exact (h.pending r (hrest r hr)).trans_eq
      (congrArg (· + 1) (hcap r (List.mem_append_right _ hr)).symm)
  · exact (h.scheduled r hr).mono (hcap r (List.mem_append_left _ hr)).ge id

theorem step (h : Backed pending p) (hs : RunningStep (pending, p) (pending', p')) :
    Backed pending' p' := by
  cases hs with
  | @skip r _ _ hskip =>
    refine ⟨?_, h.blockSize, fun q hq => h.pending q (List.mem_cons_of_mem _ hq), fun q hq => ?_,
      fun id hid => ?_⟩
    · have ha := h.accounts
      rwa [List.append_cons] at ha
    · rcases List.mem_append.mp hq with hq | hq
      · exact h.scheduled q hq
      · rw [List.mem_singleton.mp hq]
        exact ⟨h.pending r List.mem_cons_self, fun hid => absurd hid h.notMem_listed,
          fun hid => absurd hid h.notMem_listed⟩
    · rw [List.map_append]
      exact List.mem_append_left _ (h.listed id hid)
  | @bump r v rest _ _ _ _ hp =>
    refine h.preempt ?_ (fun q hq => ?_) hp
    · rw [← List.cons_append, ← List.append_assoc]
      exact List.perm_append_comm
    · rw [← List.cons_append]
      exact List.mem_append_left _ hq
  | @yield r _ _ _ _ hp =>
    refine h.preempt ?_ (fun q hq => (List.not_mem_nil hq).elim) hp
    rw [List.append_nil]
    exact List.perm_append_comm
  | @grant r _ _ _ _ hfit hp =>
    obtain ⟨bm, hreserve, hret⟩ := bind_eq_ok.mp hp
    have hmem : r.stake ∈ stakes (p.scheduled ++ r :: pending') := by simp [stakes]
    obtain ⟨hok, ha⟩ := h.accounts.reserve hmem hfit
    cases hok.symm.trans hreserve
    cases hret
    have hgrowth := (p.blockManager.fits_iff r _).mp hfit
    have hlen := h.pending r List.mem_cons_self
    obtain ⟨hroom, hall⟩ := BlockManager.le_capacity_of_growth h.blockSize hlen hgrowth
    have hcap : ∀ id, p.blockManager.capacity id ≤ (p.blockManager.handOut r.requestId
        (p.blockManager.getBlockTable r)
        (p.blockManager.growth r (chunk r p.tokenBudget))).capacity id := by
      intro id
      by_cases hid : id = r.requestId
      · rw [hid, BlockManager.capacity_handOut _ _ _ hgrowth]
        exact Nat.mul_le_mul_right _ (Nat.le_add_right _ _)
      · rw [BlockManager.capacity_handOut_of_ne _ hid]
    refine ⟨?_, h.blockSize, fun q hq => ?_, fun q hq => ?_, fun id hid => ?_⟩
    · simpa [stakes, Request.stake] using ha
    · exact (h.pending q (List.mem_cons_of_mem _ hq)).trans (Nat.add_le_add_right (hcap _) 1)
    · rcases List.mem_append.mp hq with hq | hq
      · refine (h.scheduled q hq).mono (hcap _) fun hid => ?_
        simp only [SchedulerOutput.scheduled, List.map_append, List.mem_append, List.map_cons,
          List.map_nil, List.mem_singleton] at hid ⊢
        rcases hid with hid | hid | hid
        · exact .inl hid
        · exact .inr hid
        · -- the request that was granted its chunk was not decided before
          have hnodup := h.accounts.ids_nodup
          rw [stakes, List.map_map, List.map_append, List.nodup_append] at hnodup
          exact absurd hid (hnodup.2.2 _ (List.mem_map_of_mem (f := Prod.fst ∘ Request.stake) hq) _
            (List.mem_map_of_mem List.mem_cons_self))
      · rw [List.mem_singleton.mp hq]
        refine ⟨hlen.trans (Nat.add_le_add_right (hcap _) 1), fun _ => hroom, fun _ hd => hall ?_⟩
        rw [isSpec, decide_eq_false_iff_not, not_not]
        exact hd
    · simp only [SchedulerOutput.scheduled, List.map_append, List.mem_append, List.map_cons,
        List.map_nil, List.mem_singleton] at hid ⊢
      rcases hid with hid | hid | hid
      · exact .inl (h.listed id (by simp [SchedulerOutput.scheduled, hid]))
      · exact .inl (h.listed id (by simp [SchedulerOutput.scheduled, hid]))
      · exact .inr hid

end Scheduler.RunningPass.Backed

/-! ## The waiting pass -/

/-- The waiting pass so far, after what the running pass put out. -/
structure Scheduler.WaitingPass.Backed (out : SchedulerOutput) (q : WaitingPass) : Prop where
  accounts : Accounts q.blockManager (stakes q.running) fun _ => 0
  blockSize : 0 < q.blockManager.blockSize
  running : ∀ r ∈ q.running, r.Covered q.blockManager { out with scheduledNew := q.scheduledNew }

/-- An admission covers whom it admits. -/
theorem Scheduler.WaitingPass.Backed.step {out : SchedulerOutput} {c : SchedulerConfig}
    {waiting waiting' : List Request} {q q' : WaitingPass} (h : q.Backed out)
    (hw : ∀ r ∈ waiting, r.promptTokenIds ≠ [] ∧ r.numComputedTokens = 0 ∧ r.cachedPrefixNodes = [])
    (hs : WaitingStep c (waiting, q) (waiting', q')) : q'.Backed out := by
  cases hs with
  | @enter r _ _ _ hadm hq =>
    obtain ⟨bm, halloc, -, rfl⟩ := WaitingTrace.admit_eq hq
    obtain ⟨hprompt, hnc, hnil⟩ := hw r List.mem_cons_self
    obtain ⟨hcap, hother⟩ := BlockManager.capacity_allocate h.blockSize halloc
    obtain ⟨t, vs, hstake, -, -, -, -, -, -, ha⟩ := h.accounts.allocate hnil halloc
    simp only [admissible, decide_eq_true_eq, not_le] at hadm
    obtain ⟨k, n, -, -, -, -, hres, hle, -⟩ :=
      Admission.Sound.cases (a := Admission.of q r) ⟨hadm.2.1, rfl⟩ hprompt hnc
    have hne : ∀ p ∈ q.running, p.requestId ≠ r.requestId := by
      intro p hp hid
      have hnodup := ha.ids_nodup
      rw [hstake, List.map_cons, List.nodup_cons] at hnodup
      refine hnodup.1 ?_
      show r.requestId ∈ _
      rw [← hid, stakes, List.map_map]
      exact List.mem_map_of_mem (f := Prod.fst ∘ Request.stake) hp
    refine ⟨?_, ?_, fun p hp => ?_⟩
    · refine ha.perm ?_
      show (Request.stake _ :: stakes q.running).Perm
        (stakes (q.running ++ [(Admission.of q r).result]))
      rw [stakes, stakes, List.map_append]
      exact (List.perm_append_singleton _ _).symm
    · show 0 < bm.blockSize
      rw [BlockManager.allocate_blockSize halloc]
      exact h.blockSize
    · rcases List.mem_append.mp hp with hp | hp
      · refine (h.running p hp).mono (hother _ (hne p hp)).ge fun hid => ?_
        simp only [SchedulerOutput.scheduled, Admission.seat, List.map_append, List.mem_append,
          List.map_cons, List.map_nil, List.mem_singleton] at hid ⊢
        rcases hid with (hid | hid) | hid
        · exact .inl hid
        · exact absurd hid (hne p hp)
        · exact .inr hid
      · rw [List.mem_singleton.mp hp, hres]
        exact ⟨hcap.trans (Nat.le_add_right _ 1), fun _ => hle.trans hcap, fun _ _ => hcap⟩

/-! ## The schedule -/

/-- What a schedule leaves running is covered, as long as the tables covered all tokens but the
newest before. -/
theorem Scheduler.covered {s s' : Scheduler} {out : SchedulerOutput}
    (c : Accounted s [] fun _ => 0) (hb : 0 < s.blockManager.blockSize)
    (hknown : ∀ r ∈ s.running, r.getLen ≤ s.blockManager.capacity r.requestId + 1)
    (hqueued : ∀ r ∈ s.waiting, r.promptTokenIds ≠ [] ∧ r.numComputedTokens = 0)
    (h : s.schedule = .ok (s', out)) : ∀ r ∈ s'.running, r.Covered s'.blockManager out := by
  have hstart : RunningPass.Backed s.running s.runningPass := by
    refine ⟨?_, hb, hknown, fun r hr => (List.not_mem_nil hr).elim,
      fun id hid => (List.not_mem_nil hid).elim⟩
    have ha := c.accounts
    rwa [List.append_nil] at ha
  obtain ⟨p, hp, hcases⟩ := schedule_cases h
  have hrun := inv_of_runningSteps RunningPass.Backed RunningPass.Backed.step hp hstart
  rcases hcases with ⟨-, rfl, rfl⟩ | ⟨hpre, waiting, q, hq, -, rfl, rfl⟩
  · exact hrun.scheduled
  · have hw : ∀ r ∈ p.waiting, r.promptTokenIds ≠ [] ∧ r.numComputedTokens = 0 ∧
        r.cachedPrefixNodes = [] := by
      rw [RunningTrace.waiting_eq hp hpre]
      exact fun r hr => ⟨(hqueued r hr).1, (hqueued r hr).2, c.uncached r hr⟩
    have hstart' : WaitingPass.Backed p.output (waitingPass s.schedulerConfig p) := by
      refine ⟨?_, hrun.blockSize, fun r hr => (hrun.scheduled r hr).mono le_rfl fun hid => ?_⟩
      · have ha := hrun.accounts
        rwa [List.append_nil] at ha
      · rw [SchedulerOutput.scheduled, List.map_append]
        exact List.mem_append_right _ (by simpa [SchedulerOutput.scheduled, waitingPass] using hid)
    suffices ∀ x, ReflTransGen (WaitingStep s.schedulerConfig)
        (p.waiting, waitingPass s.schedulerConfig p) x →
        (∀ r ∈ x.1, r ∈ p.waiting) ∧ x.2.Backed p.output from (this _ hq).2.running
    intro x hx
    induction hx with
    | refl => exact ⟨fun r hr => hr, hstart'⟩
    | @tail y z _ hs ih =>
      obtain ⟨hsub, hbacked⟩ := ih
      refine ⟨fun r hr => hsub r ?_, hbacked.step (fun r hr => hw r (hsub r hr)) hs⟩
      cases hs with
      | enter => exact List.mem_cons_of_mem _ hr

/-! ## The other stages -/

namespace BlockManager
variable {bm bm' : BlockManager} {r r' : Request} {id : RequestId}

/-- Whoever stays keeps its table when another request is freed. -/
theorem capacity_free (h : bm.free r = .ok (bm', r')) (hne : id ≠ r.requestId) :
    bm'.capacity id = bm.capacity id := by
  have htable : ((bm.blockTables.erase r.requestId).lookup id).getD [] = bm.tableOf id := by
    rw [AList.lookup_erase_ne hne]
    rfl
  unfold free at h
  split at h
  · cases h
    rfl
  · dsimp only at h
    split at h
    · cases h
      exact congrArg (fun table => table.length * bm.blockSize) htable
    · obtain ⟨t, -, hret⟩ := bind_eq_ok.mp h
      cases hret
      exact congrArg (fun table => table.length * bm.blockSize) htable

/-- A registration leaves all tables alone. -/
theorem capacity_insertComputedPrefix
    (h : bm.insertComputedPrefix r = .ok (bm', r')) (id : RequestId) :
    bm'.capacity id = bm.capacity id := by
  unfold insertComputedPrefix at h
  split at h
  · cases h
    rfl
  · dsimp only at h
    split at h
    · cases h
      rfl
    · obtain ⟨⟨t, nodes⟩, -, hret⟩ := bind_eq_ok.mp h
      cases hret
      rfl

theorem capacity_freeAll {rs rs' : List Request} (h : freeAll bm rs = .ok (bm', rs'))
    (hne : ∀ r ∈ rs, id ≠ r.requestId) : bm'.capacity id = bm.capacity id := by
  induction rs generalizing bm rs' with
  | nil =>
    cases h
    rfl
  | cons r rs ih =>
    obtain ⟨hr, hrs⟩ := List.forall_mem_cons.mp hne
    obtain ⟨⟨bm₁, r₁⟩, hfree, hrest⟩ := bind_eq_ok.mp h
    obtain ⟨⟨bm₂, rs₁⟩, hall, hret⟩ := bind_eq_ok.mp hrest
    cases hret
    exact (ih hall hrs).trans (capacity_free hfree hr)

end BlockManager

namespace Scheduler
variable {s s' : Scheduler}

theorem capacity_registerLoop {scheduled : List ScheduledRequest}
    (h : registerLoop scheduled s = .ok s') (id : RequestId) :
    s'.blockManager.capacity id = s.blockManager.capacity id := by
  induction scheduled generalizing s with
  | nil =>
    cases h
    rfl
  | cons sr scheduled ih =>
    obtain ⟨s₁, hrest, rfl | ⟨-, hreg⟩⟩ := registerLoop_cons h
    · exact ih hrest
    · refine (ih hrest).trans ?_
      unfold registerPrefix at hreg
      split at hreg
      · cases hreg
        rfl
      · obtain ⟨⟨bm, r'⟩, hins, hret⟩ := bind_eq_ok.mp hreg
        cases hret
        exact BlockManager.capacity_insertComputedPrefix hins id

theorem capacity_registerComputed {out : SchedulerOutput} (h : s.registerComputed out = .ok s')
    (id : RequestId) : s'.blockManager.capacity id = s.blockManager.capacity id := by
  unfold registerComputed at h
  split at h
  · cases h
    rfl
  · exact capacity_registerLoop h id

/-- A sweep leaves the tables of whoever stays. -/
theorem capacity_freeFinishedRequests (o : InOrder s) {finished : List Request}
    (h : s.freeFinishedRequests = .ok (s', finished)) {r : Request} (hr : r ∈ s'.running) :
    s'.blockManager.capacity r.requestId = s.blockManager.capacity r.requestId := by
  obtain ⟨⟨bm, rs⟩, hall, hret⟩ := bind_eq_ok.mp h
  cases hret
  obtain ⟨hmem, hunfinished⟩ := List.mem_filter.mp hr
  refine BlockManager.capacity_freeAll hall fun q hq hid => ?_
  obtain ⟨hq, hfin⟩ := List.mem_filter.mp hq
  obtain rfl := o.eq_of_id_eq hmem hq hid
  rw [hfin] at hunfinished
  cases of_decide_eq_true hunfinished rfl

end Scheduler

end LightServe
