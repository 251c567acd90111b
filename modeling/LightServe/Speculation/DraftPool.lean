import LightServe.Speculation.Runs
import Mathlib.Algebra.Order.BigOperators.Group.List

/-!
# The draft pool over a run

Every block of the draft pool is free or in the table of a shadow. As long as no request leaves
that has a shadow, the shadows are those of live requests, and a proposal fails for want of
blocks only when the live requests need more than there are.

## Main definitions

* `DraftProposer.need` — the blocks that a request's next proposals need.
* `DraftProposer.Backed` — a shadow of a request, and no more blocks than it needs.
* `DraftedEngine.PoolState` — what holds between the calls of an engine.
* `draft_pool_of_run` — where the blocks of the pool are.
-/

namespace LightServe

open Scheduler

/-! ## Errors of the forward pass -/

/-- The error for want of blocks. -/
def EngineError.isOutOfMemory : EngineError → Bool
  | .outOfMemory .. => true
  | _ => false

namespace KvCache
variable {κ : Type} {c : KvCache κ} {table : List BlockId} {err : EngineError}

theorem physicalLocations_error {start stop : ℕ}
    (h : c.physicalLocations table start stop = .error err) : err = .indexOutOfRange := by
  unfold physicalLocations at h
  dsimp only at h
  split at h
  · cases h
  · cases h
    rfl

theorem write_error {start : ℕ} {entries : List κ} (h : c.write table start entries = .error err) :
    err = .indexOutOfRange := by
  rcases bind_eq_error.mp h with h | ⟨locations, -, h⟩
  · exact physicalLocations_error h
  · cases h

theorem read_error {n : ℕ} (h : c.read table n = .error err) : err = .indexOutOfRange := by
  rcases bind_eq_error.mp h with h | ⟨locations, -, h⟩
  · exact physicalLocations_error h
  · cases h

end KvCache

namespace ModelRunner
variable {m : ModelRunner} {err : EngineError}

theorem flatLoop_error {cursor : ℕ} {scheduled : List (Request × ℕ)}
    (h : flatLoop cursor scheduled = .error err) : err.isOutOfMemory = false := by
  induction scheduled generalizing cursor with
  | nil => cases h
  | cons rn scheduled ih =>
    rcases bind_eq_error.mp h with h | ⟨ids, -, h⟩
    · unfold inputIds at h
      split at h
      · split at h
        · split at h <;> cases h
          rfl
        · cases h
          rfl
      · cases h
    · rcases bind_eq_error.mp h with h | ⟨ranges, -, h⟩
      · exact ih h
      · cases h

theorem buildFlatBatch_error {scheduled : List (Request × ℕ)}
    (h : m.buildFlatBatch scheduled = .error err) : err.isOutOfMemory = false := by
  rcases bind_eq_error.mp h with h | ⟨ranges, -, h⟩
  · exact flatLoop_error h
  · split at h
    · split at h
      · cases h
        rfl
      · cases h
    · cases h

theorem committed_error {rows : List Token} {f : FlatRange} (h : committed rows f = .error err) :
    err.isOutOfMemory = false := by
  unfold committed acceptReject at h
  split at h
  · cases h
  · split at h
    · split at h <;> cases h
      rfl
    · split at h <;> cases h
      rfl

end ModelRunner

namespace PagedRunner
variable {κ : Type} {m : PagedRunner κ} {tables : Request → List BlockId} {kv : KvCache κ}
  {err : EngineError}

theorem attend_error {table : List BlockId} {f : FlatRange} (h : m.attend table f kv = .error err) :
    err = .indexOutOfRange := by
  unfold attend at h
  split at h
  · cases h
  · rcases bind_eq_error.mp h with h | ⟨context, -, h⟩
    · exact KvCache.read_error h
    · rcases bind_eq_error.mp h with h | ⟨kv', -, h⟩
      · exact KvCache.write_error h
      · rcases bind_eq_error.mp h with h | ⟨full, -, h⟩
        · exact KvCache.read_error h
        · cases h

theorem attendAll_error {ranges : List FlatRange} (h : m.attendAll tables ranges kv = .error err) :
    err = .indexOutOfRange := by
  induction ranges generalizing kv with
  | nil => cases h
  | cons f ranges ih =>
    rcases bind_eq_error.mp h with h | ⟨⟨kv', rows⟩, -, h⟩
    · exact attend_error h
    · rcases bind_eq_error.mp h with h | ⟨⟨kv'', more⟩, -, h⟩
      · exact ih h
      · cases h

theorem forward_error {scheduled : List (Request × ℕ)}
    (h : m.forward tables scheduled kv = .error err) : err.isOutOfMemory = false := by
  rcases bind_eq_error.mp h with h | ⟨ranges, -, h⟩
  · exact ModelRunner.buildFlatBatch_error h
  · rcases bind_eq_error.mp h with h | ⟨-, -, h⟩
    · unfold ModelRunner.lookUp at h
      split at h
      · cases h
      · cases h
        rfl
    · rcases bind_eq_error.mp h with h | ⟨⟨kv', rows⟩, -, h⟩
      · cases attendAll_error h
        rfl
      · cases h

end PagedRunner

/-! ## Loads of the pool -/

/-- The blocks that hold `n` tokens. -/
def blocksFor (blockSize n : ℕ) : ℕ := (n + blockSize - 1) / blockSize

theorem blocksFor_mono (blockSize : ℕ) {n n' : ℕ} (h : n ≤ n') :
    blocksFor blockSize n ≤ blocksFor blockSize n' :=
  Nat.div_le_div_right (by omega)

theorem Request.numBlocksNeeded_le_blocksFor (r : Request) (blockSize : ℕ) {n : ℕ}
    (h : r.getLen ≤ n) : r.numBlocksNeeded blockSize ≤ blocksFor blockSize n := by
  unfold Request.numBlocksNeeded
  split
  · exact Nat.zero_le _
  · exact blocksFor_mono blockSize h

namespace DraftProposer
variable {κ : Type} {dp dp' : DraftProposer κ} {r shadow shadow' : Request} {id : RequestId}

/-- The blocks that a request's tokens need while its next proposals are made; the last of these
is never stored. -/
def need (dp : DraftProposer κ) (r : Request) : ℕ :=
  blocksFor dp.blockManager.blockSize (r.getLen + (dp.numSpeculativeTokens - 1))

/-- The blocks in the tables of all other shadows. -/
def loadBut (dp : DraftProposer κ) (id : RequestId) : ℕ :=
  ((dp.shadowed.erase id).map fun id' => (dp.tableOf id').length).sum

theorem nodup_shadowed (dp : DraftProposer κ) : dp.shadowed.Nodup := dp.shadowRequests.nodupKeys

theorem mem_erase_shadowed {id' : RequestId} :
    id' ∈ dp.shadowed.erase id ↔ id' ≠ id ∧ id' ∈ dp.shadowed :=
  dp.nodup_shadowed.mem_erase_iff

/-- A call for one request leaves the load of the others. -/
theorem LeavesOthers.loadBut (h : LeavesOthers id dp dp') : dp'.loadBut id = dp.loadBut id := by
  have hperm : (dp'.shadowed.erase id).Perm (dp.shadowed.erase id) := by
    refine (List.perm_ext_iff_of_nodup (dp'.nodup_shadowed.erase id)
      (dp.nodup_shadowed.erase id)).mpr fun id' => ?_
    rw [mem_erase_shadowed, mem_erase_shadowed, mem_shadowed, mem_shadowed]
    exact and_congr_right fun hne => by rw [h.shadow id' hne]
  rw [DraftProposer.loadBut, (hperm.map _).sum_eq, DraftProposer.loadBut]
  refine congrArg List.sum (List.map_congr_left fun id' hid' => ?_)
  rw [h.table id' (mem_erase_shadowed.mp hid').1]

namespace Pooled

/-- A shadow that cannot grow: the others leave less than it needs. -/
theorem draftStep_error (h : dp.Pooled)
    (hl : dp.shadowRequests.lookup shadow.requestId = some shadow) {err : EngineError}
    (hs : dp.draftStep shadow = .error err) (hmem : err.isOutOfMemory = true) :
    dp.blockManager.numGpuBlocks <
      dp.loadBut shadow.requestId + shadow.numBlocksNeeded dp.blockManager.blockSize := by
  obtain ⟨-, hd, -⟩ := h.shadow _ shadow hl
  rcases bind_eq_error.mp hs with hensure | ⟨bm, -, hs⟩
  · obtain ⟨bm', hrun, -⟩ | ⟨bm', -, hgrows, hfree, hshort⟩ := ensureLoop_cases h.partition
      (h.stake_mem hl) hd h.blockSize_pos (le_add_tsub)
    · cases hrun.symm.trans hensure
    · have htotal := hgrows.partition.total (hgrows.uncached.trans h.uncached)
      rw [hfree, List.length_nil, Nat.zero_add, hgrows.numGpuBlocks,
        ← List.sum_map_erase _ (mem_shadowed.mpr ⟨shadow, hl⟩)] at htotal
      have hothers : ((dp.shadowed.erase shadow.requestId).map fun id' =>
          (bm'.tableOf id').length).sum = dp.loadBut shadow.requestId := by
        refine congrArg List.sum (List.map_congr_left fun id' hid' => ?_)
        rw [hgrows.others id' (mem_erase_shadowed.mp hid').1]
        rfl
      rw [hothers] at htotal
      omega
  · dsimp only at hs
    rcases bind_eq_error.mp hs with hforward | ⟨⟨kv, ranges, rows⟩, -, hs⟩
    · rw [PagedRunner.forward_error hforward] at hmem
      cases hmem
    · rcases bind_eq_error.mp hs with hcommit | ⟨shadow', -, hret⟩
      · have hfalse : ∀ {ranges : List FlatRange} {shadow : Request},
            commitShadow rows ranges shadow = .error err → err.isOutOfMemory = false := by
          intro ranges shadow hcommit
          induction ranges generalizing shadow with
          | nil => cases hcommit
          | cons f ranges ih =>
            rcases bind_eq_error.mp hcommit with hone | ⟨tokens, -, hrest⟩
            · exact ModelRunner.committed_error hone
            · exact ih hrest
        rw [hfalse hcommit] at hmem
        cases hmem
      · cases hret

/-- The proposal loop, however its shadow stands. -/
theorem draftLoop (h : dp.Pooled) (hl : dp.shadowRequests.lookup shadow.requestId = some shadow)
    {k B : ℕ} (hB : 0 < k → blocksFor dp.blockManager.blockSize (shadow.getLen + (k - 1)) ≤ B)
    {proposed proposed' : List Token} (htable : (dp.tableOf shadow.requestId).length ≤ B)
    (hs : DraftProposer.draftLoop k dp shadow proposed = .ok (dp', shadow', proposed')) :
    dp'.Pooled ∧ LeavesOthers shadow.requestId dp dp' ∧
      dp'.shadowRequests.lookup shadow.requestId = some shadow' ∧
      shadow'.promptTokenIds = shadow.promptTokenIds ∧
      (dp'.tableOf shadow.requestId).length ≤ B := by
  induction k generalizing dp shadow proposed with
  | zero =>
    cases hs
    exact ⟨h, .refl _ _, hl, rfl, htable⟩
  | succ k ih =>
    obtain ⟨⟨dp₁, shadow₁⟩, hstep, hrest⟩ := bind_eq_ok.mp hs
    obtain ⟨hpool, hleaves, hl₁, ⟨tokens, status, hlen, hshape⟩, -, -, hgrown⟩ :=
      h.draftStep hl hstep
    have hid : shadow₁.requestId = shadow.requestId := by rw [hshape]; rfl
    have hgetLen : shadow₁.getLen ≤ shadow.getLen + 1 := by
      rw [hshape]
      simp only [Request.getLen, caughtUp, List.length_append]
      omega
    have hB' := hB (Nat.succ_pos k)
    have hneed := shadow.numBlocksNeeded_le_blocksFor dp.blockManager.blockSize
      (Nat.le_add_right shadow.getLen (k + 1 - 1))
    dsimp only at hrest
    split at hrest
    · cases hrest
    · obtain ⟨hpool', hleaves', hl', hprompt, htable'⟩ := ih hpool (hid ▸ hl₁)
        (fun hk => by
          rw [hleaves.blockSize]
          exact (blocksFor_mono _ (by omega)).trans hB')
        (hid ▸ hgrown.trans (max_le htable (hneed.trans hB'))) hrest
      rw [hid] at hleaves' hl' htable'
      refine ⟨hpool', hleaves.trans hleaves', hl', ?_, htable'⟩
      rw [hprompt, hshape]
      rfl

/-- The loop runs out of blocks when the other shadows leave less than it needs. -/
theorem draftLoop_error (h : dp.Pooled)
    (hl : dp.shadowRequests.lookup shadow.requestId = some shadow) {k B : ℕ}
    (hB : 0 < k → blocksFor dp.blockManager.blockSize (shadow.getLen + (k - 1)) ≤ B)
    {proposed : List Token} {err : EngineError}
    (hs : DraftProposer.draftLoop k dp shadow proposed = .error err)
    (hmem : err.isOutOfMemory = true) :
    dp.blockManager.numGpuBlocks < dp.loadBut shadow.requestId + B := by
  induction k generalizing dp shadow proposed with
  | zero => cases hs
  | succ k ih =>
    have hB' := hB (Nat.succ_pos k)
    rcases bind_eq_error.mp hs with hstep | ⟨⟨dp₁, shadow₁⟩, hstep, hrest⟩
    · have hshort := h.draftStep_error hl hstep hmem
      have hneed := shadow.numBlocksNeeded_le_blocksFor dp.blockManager.blockSize
        (Nat.le_add_right shadow.getLen (k + 1 - 1))
      omega
    · obtain ⟨hpool, hleaves, hl₁, ⟨tokens, status, hlen, hshape⟩, -⟩ := h.draftStep hl hstep
      have hid : shadow₁.requestId = shadow.requestId := by rw [hshape]; rfl
      have hgetLen : shadow₁.getLen ≤ shadow.getLen + 1 := by
        rw [hshape]
        simp only [Request.getLen, caughtUp, List.length_append]
        omega
      dsimp only at hrest
      split at hrest
      · cases hrest
        cases hmem
      · have hshort := ih hpool (hid ▸ hl₁) (fun hk => by
          rw [hleaves.blockSize]
          exact (blocksFor_mono _ (by omega)).trans hB') hrest
        rw [hid, hleaves.numGpuBlocks, hleaves.loadBut] at hshort
        exact hshort

end Pooled

/-- A shadow of a request, if it has one, is of its prompt and has no more blocks than the
request needs. -/
def Backed (dp : DraftProposer κ) (r : Request) : Prop :=
  ∀ shadow, dp.shadowRequests.lookup r.requestId = some shadow →
    shadow.promptTokenIds = r.promptTokenIds ∧ (dp.tableOf r.requestId).length ≤ dp.need r

/-- What a call of `propose` starts the loop with. -/
theorem Backed.start (hb : dp.Backed r) (h : dp.Pooled)
    (hs : dp.getOrCreateShadow r = .ok (dp', shadow)) :
    dp'.Pooled ∧ LeavesOthers r.requestId dp dp' ∧
      shadow.requestId = r.requestId ∧ dp'.shadowRequests.lookup r.requestId = some shadow ∧
      shadow.promptTokenIds = r.promptTokenIds ∧ shadow.getLen = r.getLen ∧
      (dp'.tableOf r.requestId).length ≤ dp.need r := by
  obtain ⟨hpool, hleaves, -, hl, hcases⟩ := h.getOrCreateShadow hs
  have hid := (hpool.shadow _ _ hl).1
  rcases hcases with ⟨old, hold, rfl, htable⟩ | ⟨-, rfl, htable⟩
  · obtain ⟨hprompt, hle⟩ := hb old hold
    refine ⟨hpool, hleaves, hid, hl, hprompt, ?_, htable ▸ hle⟩
    show old.promptTokenIds.length + _ = _
    rw [hprompt]
    rfl
  · exact ⟨hpool, hleaves, hid, hl, rfl, rfl,
      htable ▸ (newShadow r).numBlocksNeeded_le_blocksFor _ (Nat.le_add_right _ _)⟩

/-- A call for a backed request leaves it backed. -/
theorem Backed.propose (hb : dp.Backed r) (h : dp.Pooled) {proposed : List Token}
    (hp : dp.propose r = .ok (dp', proposed)) :
    dp'.Pooled ∧ LeavesOthers r.requestId dp dp' ∧ dp'.Backed r := by
  obtain ⟨⟨dp₀, shadow₀⟩, hs, hrest⟩ := bind_eq_ok.mp hp
  obtain ⟨⟨dp₁, shadow₁, proposed₁⟩, hloop, hret⟩ := bind_eq_ok.mp hrest
  cases hret
  obtain ⟨hpool, hleaves, hid, hl, hprompt, hlen, htable⟩ := hb.start h hs
  have hneed : blocksFor dp₀.blockManager.blockSize
      (shadow₀.getLen + (dp₀.numSpeculativeTokens - 1)) = dp.need r := by
    rw [need, hlen, hleaves.blockSize, hleaves.numSpeculativeTokens]
  obtain ⟨hpool', hleaves', hl', hprompt', htable'⟩ := hpool.draftLoop (hid ▸ hl)
    (fun _ => hneed.le) (hid ▸ htable) hloop
  rw [hid] at hleaves' hl' htable'
  have hall := hleaves.trans hleaves'
  refine ⟨hpool', hall, fun shadow hshadow => ?_⟩
  rw [hl'] at hshadow
  cases hshadow
  refine ⟨hprompt'.trans hprompt, ?_⟩
  rw [need, hall.blockSize, hall.numSpeculativeTokens]
  exact htable'

/-- A call for a backed request runs out of blocks only when the other shadows leave less than it
needs. -/
theorem Backed.propose_error (hb : dp.Backed r) (h : dp.Pooled) {err : EngineError}
    (hp : dp.propose r = .error err) (hmem : err.isOutOfMemory = true) :
    dp.blockManager.numGpuBlocks < dp.loadBut r.requestId + dp.need r := by
  rcases bind_eq_error.mp hp with hs | ⟨⟨dp₀, shadow₀⟩, hs, hrest⟩
  · obtain ⟨hnotMem, hshort⟩ := h.getOrCreateShadow_error hs
    have htotal := h.partition.total h.uncached
    have hload : dp.loadBut r.requestId =
        (dp.shadowed.map fun id => (dp.blockManager.tableOf id).length).sum := by
      rw [loadBut, List.erase_of_not_mem hnotMem]
      rfl
    have hneed : (newShadow r).numBlocksNeeded dp.blockManager.blockSize ≤ dp.need r :=
      (newShadow r).numBlocksNeeded_le_blocksFor _ (Nat.le_add_right _ _)
    rw [BlockManager.numFreeBlocks] at hshort
    omega
  · rcases bind_eq_error.mp hrest with hloop | ⟨⟨dp₁, shadow₁, proposed₁⟩, -, hret⟩
    · obtain ⟨hpool, hleaves, hid, hl, -, hlen, -⟩ := hb.start h hs
      have hneed : blocksFor dp₀.blockManager.blockSize
          (shadow₀.getLen + (dp₀.numSpeculativeTokens - 1)) = dp.need r := by
        rw [need, hlen, hleaves.blockSize, hleaves.numSpeculativeTokens]
      have hshort := hpool.draftLoop_error (hid ▸ hl) (fun _ => hneed.le) hloop hmem
      rw [hid, hleaves.numGpuBlocks, hleaves.loadBut] at hshort
      exact hshort
    · cases hret

theorem Backed.of_continues {r' : Request} (hb : dp.Backed r) (h : r.Continues r') :
    dp.Backed r' := by
  intro shadow hshadow
  rw [h.requestId] at hshadow ⊢
  obtain ⟨hprompt, hle⟩ := hb shadow hshadow
  refine ⟨hprompt.trans h.promptTokenIds.symm, hle.trans ?_⟩
  exact blocksFor_mono _ (Nat.add_le_add_right h.getLen_le _)

theorem Backed.of_leavesOthers (hb : dp.Backed r) (h : LeavesOthers id dp dp')
    (hne : r.requestId ≠ id) : dp'.Backed r := by
  intro shadow hshadow
  rw [h.shadow _ hne] at hshadow
  rw [h.table _ hne, need, h.blockSize, h.numSpeculativeTokens]
  exact hb shadow hshadow

theorem Pooled.tableOf_eq_nil (h : dp.Pooled) (hnone : dp.shadowRequests.lookup id = none) :
    dp.tableOf id = [] := by
  have hnotMem : id ∉ dp.blockManager.blockTables := by
    rw [h.partition.tables, List.map_map]
    have hid : id ∉ dp.shadowed := by simp [mem_shadowed, hnone]
    simpa [Function.comp_def] using hid
  rw [tableOf, BlockManager.tableOf, AList.lookup_eq_none.mpr hnotMem]
  rfl

/-- The shadows of backed requests hold no more than the requests need. -/
theorem loadBut_le (h : dp.Pooled) {live : List Request}
    (hnodup : (live.map Request.requestId).Nodup)
    (hlive : ∀ id' ∈ dp.shadowed, id' ∈ live.map Request.requestId) (hb : ∀ q ∈ live, dp.Backed q)
    (hr : r ∈ live) : dp.loadBut r.requestId + dp.need r ≤ (live.map dp.need).sum := by
  obtain ⟨pre, post, rfl⟩ := List.append_of_mem hr
  set rest := pre ++ post
  have hperm : (pre ++ r :: post).Perm (r :: rest) := List.perm_middle
  have hnodup' : (r.requestId :: rest.map Request.requestId).Nodup :=
    (hperm.map Request.requestId).nodup_iff.mp hnodup
  have hsub : (dp.shadowed.erase r.requestId).Subperm (rest.map Request.requestId) := by
    refine (dp.nodup_shadowed.erase _).subperm fun id' hid' => ?_
    obtain ⟨hne, hmem⟩ := mem_erase_shadowed.mp hid'
    have hmem' := (hperm.map Request.requestId).subset (hlive id' hmem)
    exact (List.mem_cons.mp hmem').resolve_left hne
  have hload : dp.loadBut r.requestId ≤
      (rest.map fun q => (dp.tableOf q.requestId).length).sum := by
    obtain ⟨ids, hids, hsubl⟩ := hsub
    rw [loadBut, ← (hids.map _).sum_eq]
    exact (hsubl.map fun id' => (dp.tableOf id').length).sum_le_sum (fun _ _ => Nat.zero_le _)
      |>.trans_eq (by rw [List.map_map]; rfl)
  have hneed : (rest.map fun q => (dp.tableOf q.requestId).length).sum ≤
      (rest.map dp.need).sum := by
    refine List.sum_le_sum fun q hq => ?_
    have hq' : q ∈ pre ++ r :: post := hperm.mem_iff.mpr (List.mem_cons_of_mem _ hq)
    cases hl : dp.shadowRequests.lookup q.requestId with
    | none =>
      rw [h.tableOf_eq_nil hl]
      exact Nat.zero_le _
    | some shadow => exact (hb q hq' shadow hl).2
  rw [(hperm.map dp.need).sum_eq, List.map_cons, List.sum_cons]
  omega

end DraftProposer

/-! ## The states of a run -/

namespace DraftedEngine
variable {κ : Type} {e : LLMEngine} {d d₁ d' : DraftedEngine κ} {out : SchedulerOutput}
  {finished : List Request}

/-- What must hold of a call: no request with a shadow leaves with it. -/
def Releases (e : LLMEngine) (d : DraftedEngine κ) : DraftedCall → Prop
  | .addRequest .. => True
  | .step => ∀ d₁ out finished, e.sweptStep d = .ok (d₁, out, finished) → ∀ r ∈ finished,
      d.draftProposer.shadowRequests.lookup r.requestId = none
  | .abortRequests ids => ∀ id ∈ ids, d.draftProposer.shadowRequests.lookup id = none

instance (e : LLMEngine) (d : DraftedEngine κ) : (c : DraftedCall) → Decidable (Releases e d c)
  | .addRequest .. => .isTrue trivial
  | .step => decidable_of_iff (∀ next ∈ (e.sweptStep d).toOption, ∀ r ∈ next.2.2,
      d.draftProposer.shadowRequests.lookup r.requestId = none)
    ⟨fun h _ _ _ hs => h _ (toOption_eq_some.mpr hs), fun h _ hs =>
      h _ _ _ (toOption_eq_some.mp hs)⟩
  | .abortRequests _ => inferInstanceAs (Decidable (∀ id ∈ _, _))

/-- The shadows are those of live requests, which back them. -/
structure PoolState (d : DraftedEngine κ) : Prop where
  inOrder : InOrder d.scheduler
  unfinished : ∀ r ∈ d.scheduler.running, r.isFinished = false
  pooled : d.draftProposer.Pooled
  live : ∀ id ∈ d.draftProposer.shadowed, id ∈ d.scheduler.requests
  backed : ∀ r ∈ d.scheduler.running ++ d.scheduler.waiting, d.draftProposer.Backed r

/-- A proposal is to the draft only. -/
theorem mem_of_proposeLoop {running running' : List Request} {dp dp' : DraftProposer κ}
    (h : proposeLoop running dp = .ok (dp', running')) {r' : Request} (hr : r' ∈ running') :
    ∃ r ∈ running, ∃ draft, r' = { r with draftTokenIds := draft } := by
  induction running generalizing dp running' with
  | nil =>
    cases h
    cases hr
  | cons r running ih =>
    have hrest : ∀ {dp₁ rest}, proposeLoop running dp₁ = .ok (dp', rest) → r' ∈ rest →
        ∃ q ∈ r :: running, ∃ draft, r' = { q with draftTokenIds := draft } := by
      intro dp₁ rest hloop hmem
      obtain ⟨q, hq, hdraft⟩ := ih hloop hmem
      exact ⟨q, List.mem_cons_of_mem _ hq, hdraft⟩
    rw [proposeLoop] at h
    split at h
    · obtain ⟨⟨dp₁, rest⟩, hloop, hret⟩ := bind_eq_ok.mp h
      cases hret
      rcases List.mem_cons.mp hr with rfl | hr
      · exact ⟨r', List.mem_cons_self, _, rfl⟩
      · exact hrest hloop hr
    · obtain ⟨⟨dp₁, proposed⟩, -, hnext⟩ := bind_eq_ok.mp h
      obtain ⟨⟨dp₂, rest⟩, hloop, hret⟩ := bind_eq_ok.mp hnext
      cases hret
      rcases List.mem_cons.mp hr with rfl | hr
      · exact ⟨r, List.mem_cons_self, _, rfl⟩
      · exact hrest hloop hr

/-- The proposals of a step are for running requests, which stay backed. -/
theorem proposeLoop_backed {running running' : List Request} {dp dp' : DraftProposer κ}
    (hids : (running.map Request.requestId).Nodup) (hpool : dp.Pooled)
    (hb : ∀ r ∈ running, dp.Backed r) (h : proposeLoop running dp = .ok (dp', running')) :
    dp'.Pooled ∧ running'.map Request.requestId = running.map Request.requestId ∧
      (∀ r ∈ running, dp'.Backed r) ∧ (∀ r' ∈ running', dp'.Backed r') ∧
      (∀ r, r.requestId ∉ running.map Request.requestId → dp.Backed r → dp'.Backed r) ∧
      ∀ id ∈ dp'.shadowed, id ∈ dp.shadowed ∨ id ∈ running.map Request.requestId := by
  induction running generalizing dp running' with
  | nil =>
    cases h
    exact ⟨hpool, rfl, by simp, by simp, fun _ _ h => h, fun _ h => .inl h⟩
  | cons r running ih =>
    obtain ⟨hhead, hids⟩ := List.nodup_cons.mp hids
    obtain ⟨hbr, hb⟩ := List.forall_mem_cons.mp hb
    rw [proposeLoop] at h
    split at h
    · obtain ⟨⟨dp₁, rest⟩, hrest, hret⟩ := bind_eq_ok.mp h
      cases hret
      obtain ⟨hpool', hids', hb', hb'', hkeep, hshadowed⟩ := ih hids hpool hb hrest
      have hbr' := hkeep r hhead hbr
      refine ⟨hpool', by simp [hids'], List.forall_mem_cons.mpr ⟨hbr', hb'⟩,
        List.forall_mem_cons.mpr ⟨hbr', hb''⟩, fun q hq => ?_, fun id hid => ?_⟩
      · exact hkeep q fun hmem => hq (List.mem_cons_of_mem _ hmem)
      · exact (hshadowed id hid).imp_right (List.mem_cons_of_mem _)
    · obtain ⟨⟨dp₁, proposed⟩, hp, hrest⟩ := bind_eq_ok.mp h
      obtain ⟨⟨dp₂, rest⟩, hloop, hret⟩ := bind_eq_ok.mp hrest
      cases hret
      obtain ⟨hpool₁, hleaves, hbr₁⟩ := hbr.propose hpool hp
      have hne : ∀ q ∈ running, q.requestId ≠ r.requestId := fun q hq heq =>
        hhead (heq ▸ List.mem_map_of_mem hq)
      obtain ⟨hpool', hids', hb', hb'', hkeep, hshadowed⟩ := ih hids hpool₁
        (fun q hq => (hb q hq).of_leavesOthers hleaves (hne q hq)) hloop
      have hbr' := hkeep r hhead hbr₁
      refine ⟨hpool', by simp [hids'], List.forall_mem_cons.mpr ⟨hbr', hb'⟩,
        List.forall_mem_cons.mpr ⟨hbr'.of_continues ⟨rfl, rfl, rfl, List.prefix_refl _⟩, hb''⟩,
        fun q hq hbq => ?_, fun id hid => ?_⟩
      · rw [List.map_cons, List.mem_cons, not_or] at hq
        exact hkeep q hq.2 (hbq.of_leavesOthers hleaves hq.1)
      · rcases hshadowed id hid with hmem | hmem
        · by_cases hid' : id = r.requestId
          · exact .inr (hid' ▸ List.mem_cons_self)
          · rw [DraftProposer.mem_shadowed, hleaves.shadow id hid'] at hmem
            exact .inl (DraftProposer.mem_shadowed.mpr hmem)
        · exact .inr (List.mem_cons_of_mem _ hmem)

namespace PoolState

theorem start (e : LLMEngine) (c : SpeculativeConfig) (runner : PagedRunner κ) (numGpuBlocks : ℕ)
    (slot : BlockId × ℕ → κ) : PoolState (e.draftedStart c runner numGpuBlocks slot) where
  inOrder := ⟨rfl, List.nodup_nil⟩
  unfinished _ hr := by cases hr
  pooled := .new runner _ numGpuBlocks e.cacheConfig.blockSize_pos
  live _ hid := by cases hid
  backed _ hr := by cases hr

theorem addRequest (st : PoolState d) {id : RequestId} {promptTokenIds : List Token}
    {params : SamplingParams} {s : Scheduler}
    (hs : d.scheduler.addRequest (LLMEngine.newRequest id promptTokenIds params) = .ok s) :
    PoolState { d with scheduler := s } := by
  obtain ⟨o, hreq⟩ := st.inOrder.addRequest hs
  have hnew : id ∉ d.scheduler.requests := by
    have hnodup := o.nodup
    rw [hreq] at hnodup
    exact fun hmem => (List.nodup_append.mp hnodup).2.2 _ hmem _ (List.mem_singleton_self _) rfl
  have heq := addRequest_eq hs
  refine ⟨o, heq ▸ st.unfinished, st.pooled, fun id' hid' => ?_, fun r hr => ?_⟩
  · show id' ∈ s.requests
    rw [hreq]
    exact List.mem_append_left _ (st.live id' hid')
  · rw [heq, ← List.append_assoc] at hr
    rcases List.mem_append.mp hr with hr | hr
    · exact st.backed r hr
    · rw [List.mem_singleton.mp hr]
      intro shadow hshadow
      exact absurd (st.live id (DraftProposer.mem_shadowed.mpr ⟨shadow, hshadow⟩)) hnew

theorem abortRequests (st : PoolState d) {ids : List RequestId}
    (hr : Releases e d (.abortRequests ids)) {s : Scheduler} {gone : List Request}
    (hs : d.scheduler.abortRequests ids = .ok (s, gone)) : PoolState { d with scheduler := s } := by
  obtain ⟨o, hreq⟩ := st.inOrder.abortRequests hs
  obtain ⟨hrunning, hwaiting⟩ := mem_of_abortRequests hs
  refine ⟨o, fun r hr => st.unfinished r (hrunning r hr), st.pooled, fun id hid => ?_,
    fun r hr => st.backed r ?_⟩
  · show id ∈ s.requests
    rw [hreq, List.mem_filter]
    refine ⟨st.live id hid, ?_⟩
    rw [decide_eq_true_eq, List.mem_map]
    rintro ⟨q, hq, rfl⟩
    obtain ⟨shadow, hshadow⟩ := DraftProposer.mem_shadowed.mp hid
    rw [hr _ (mem_ids_of_aborted st.unfinished hs hq)] at hshadow
    cases hshadow
  · exact (List.mem_append.mp hr).elim (fun h => List.mem_append_left _ (hrunning r h))
      fun h => List.mem_append_right _ (hwaiting r h)

/-- A step up to the sweep keeps the shadows, and loses no request that has one. -/
theorem swept (st : PoolState d) (hr : Releases e d .step)
    (h : e.sweptStep d = .ok (d₁, out, finished)) : PoolState d₁ := by
  obtain ⟨s₁, s₃, plan, victims, as, served, turns, hpool, hdp, hlookup, hother⟩ :=
    LLMEngine.sweptStep_turns st.inOrder st.pooled h
  obtain ⟨o₁, hrunning, -⟩ := turns.swept
  have hshadow : ∀ id shadow, d₁.draftProposer.shadowRequests.lookup id = some shadow →
      ∃ old, d.draftProposer.shadowRequests.lookup id = some old ∧
        shadow.promptTokenIds = old.promptTokenIds := by
    intro id shadow hl
    by_cases hmem : id ∈ s₁.running.map Request.requestId
    · obtain ⟨r, hr, rfl⟩ := List.mem_map.mp hmem
      rw [hlookup r hr] at hl
      obtain ⟨old, hold, rfl⟩ := Option.map_eq_some_iff.mp hl
      exact ⟨old, hold, rfl⟩
    · exact ⟨shadow, (hother id hmem) ▸ hl, rfl⟩
  -- whoever has a shadow is still live, for nobody finished who has one
  have hlive : ∀ id shadow, d₁.draftProposer.shadowRequests.lookup id = some shadow →
      ∃ r ∈ d.scheduler.running ++ d.scheduler.waiting, ∃ r' ∈
        d₁.scheduler.running ++ d₁.scheduler.waiting, r.Continues r' ∧ r'.requestId = id := by
    intro id shadow hl
    obtain ⟨old, hold, -⟩ := hshadow id shadow hl
    have hmem := st.live id (DraftProposer.mem_shadowed.mpr ⟨old, hold⟩)
    rw [← st.inOrder.ids, List.mem_map] at hmem
    obtain ⟨r, hmem, rfl⟩ := hmem
    rcases turns.continues hmem with hfin | ⟨r', hr', hc⟩
    · obtain ⟨q, hq, hid⟩ := List.mem_map.mp hfin
      have hnone := hr d₁ out finished h q hq
      rw [hid, hold] at hnone
      cases hnone
    · exact ⟨r, hmem, r', hr', hc, hc.requestId⟩
  refine ⟨o₁, fun r hr => ?_, hpool, fun id hid => ?_, fun r' hr' shadow hl => ?_⟩
  · rw [hrunning] at hr
    simpa using (List.mem_filter.mp hr).2
  · obtain ⟨shadow, hl⟩ := DraftProposer.mem_shadowed.mp hid
    obtain ⟨-, -, r', hr', -, rfl⟩ := hlive id shadow hl
    rw [← o₁.ids]
    exact List.mem_map_of_mem hr'
  · obtain ⟨r, hmem, r'', hr'', hc, hid⟩ := hlive _ shadow hl
    have hnodup : ((d₁.scheduler.running ++ d₁.scheduler.waiting).map Request.requestId).Nodup := by
      rw [o₁.ids]
      exact o₁.nodup
    obtain rfl := List.inj_on_of_nodup_map hnodup hr'' hr' hid
    obtain ⟨old, hold, hprompt⟩ := hshadow _ shadow hl
    obtain ⟨hprompt', hle⟩ := ((st.backed r hmem).of_continues hc) old hold
    rw [hdp]
    exact ⟨hprompt.trans hprompt', hle⟩

/-- The proposals of a step keep the pool in order. -/
theorem propose (st : PoolState d) {dp : DraftProposer κ} {running : List Request}
    (h : proposeLoop d.scheduler.running d.draftProposer = .ok (dp, running)) :
    PoolState { scheduler := { d.scheduler with running }, draftProposer := dp } := by
  obtain ⟨hpool, hids, -, hb, hkeep, hshadowed⟩ := proposeLoop_backed st.inOrder.running_nodup
    st.pooled (fun r hr => st.backed r (List.mem_append_left _ hr)) h
  refine ⟨⟨?_, st.inOrder.nodup⟩, fun r hr => ?_, hpool, fun id hid => ?_, fun r hr => ?_⟩
  · rw [← st.inOrder.ids, List.map_append, List.map_append, ← hids]
  · obtain ⟨q, hq, draft, rfl⟩ := mem_of_proposeLoop h hr
    exact st.unfinished q hq
  · show id ∈ d.scheduler.requests
    rcases hshadowed id hid with hmem | hmem
    · exact st.live id hmem
    · rw [← st.inOrder.ids, List.map_append]
      exact List.mem_append_left _ hmem
  · rcases List.mem_append.mp hr with hr | hr
    · exact hb r hr
    · refine hkeep r (fun hmem => ?_) (st.backed r (List.mem_append_right _ hr))
      obtain ⟨q, hq, hid⟩ := List.mem_map.mp hmem
      exact st.inOrder.disjoint hq hr hid

theorem perform (st : PoolState d) {c : DraftedCall} (hr : Releases e d c) {gone : List Request}
    (h : e.draftedPerform d c = .ok (d', gone)) : PoolState d' := by
  cases c with
  | addRequest id promptTokenIds params =>
    obtain ⟨s, hs, hret⟩ := bind_eq_ok.mp h
    cases hret
    exact st.addRequest hs
  | step =>
    obtain ⟨⟨d₁, out, finished⟩, hs, hret⟩ := bind_eq_ok.mp h
    cases hret
    obtain ⟨⟨d₂, out', finished'⟩, hswept, hrest⟩ := bind_eq_ok.mp hs
    obtain ⟨⟨dp, running⟩, hloop, hret⟩ := bind_eq_ok.mp hrest
    cases hret
    exact (st.swept hr hswept).propose hloop
  | abortRequests ids =>
    obtain ⟨⟨s, gone'⟩, hs, hret⟩ := bind_eq_ok.mp h
    cases hret
    exact st.abortRequests hr hs

theorem of_run {start : DraftedEngine κ} (hstart : PoolState start)
    (h : e.DraftedRun (Releases e) start d) : PoolState d := by
  induction h with
  | start => exact hstart
  | call c _ hm hc ih => exact ih.perform hm hc

end PoolState

/-- When a step runs out of blocks for a proposal, the live requests need more than there are. -/
theorem PoolState.asked (st : PoolState d) {r : Request} {pre post proposed : List Request}
    {dp : DraftProposer κ} (hsplit : d.scheduler.running = pre ++ r :: post)
    (h : proposeLoop pre d.draftProposer = .ok (dp, proposed)) {err : EngineError}
    (hp : dp.propose r = .error err) (hmem : err.isOutOfMemory = true) :
    dp.blockManager.numGpuBlocks <
      ((d.scheduler.running ++ d.scheduler.waiting).map dp.need).sum := by
  set live := d.scheduler.running ++ d.scheduler.waiting with hlive
  have hpre : ∀ q ∈ pre, q ∈ live := fun q hq => by simp [hlive, hsplit, hq]
  have hr : r ∈ live := by simp [hlive, hsplit]
  have hnodup : (pre.map Request.requestId).Nodup := by
    have := st.inOrder.running_nodup
    rw [hsplit, List.map_append] at this
    exact (List.nodup_append.mp this).1
  obtain ⟨hpool, -, hb, -, hkeep, hshadowed⟩ := proposeLoop_backed hnodup st.pooled
    (fun q hq => st.backed q (hpre q hq)) h
  have hbacked : ∀ q ∈ live, dp.Backed q := by
    intro q hq
    by_cases hmem : q.requestId ∈ pre.map Request.requestId
    · obtain ⟨q', hq', hid⟩ := List.mem_map.mp hmem
      obtain rfl := List.inj_on_of_nodup_map (st.inOrder.ids.symm ▸ st.inOrder.nodup)
        (hpre q' hq') hq hid
      exact hb q' hq'
    · exact hkeep q hmem (st.backed q hq)
  have hids : ∀ id ∈ dp.shadowed, id ∈ live.map Request.requestId := by
    intro id hid
    rcases hshadowed id hid with hmem | hmem
    · exact st.inOrder.ids.symm ▸ st.live id hmem
    · obtain ⟨q, hq, rfl⟩ := List.mem_map.mp hmem
      exact List.mem_map_of_mem (hpre q hq)
  exact ((hbacked r hr).propose_error hpool hp hmem).trans_le
    (DraftProposer.loadBut_le hpool (st.inOrder.ids.symm ▸ st.inOrder.nodup) hids hbacked hr)

/-- Every block of the draft pool is free or in the table of a live request's shadow. -/
def Owned (d : DraftedEngine κ) : Prop :=
  ∀ b < d.draftProposer.blockManager.numGpuBlocks,
    b ∈ d.draftProposer.blockManager.freeBlockIds ∨
      ∃ id ∈ d.scheduler.requests, id ∈ d.draftProposer.shadowed ∧ b ∈ d.draftProposer.tableOf id

theorem PoolState.owned (st : PoolState d) : Owned d := by
  intro b hb
  have hmem := st.pooled.partition.perm_range.mem_iff.mpr (List.mem_range.mpr hb)
  have hblocks : d.draftProposer.blockManager.tree.blocks = [] := by
    rw [BlockManager.tree_of_none st.pooled.uncached]
    rfl
  simp only [hblocks, List.append_nil, List.mem_append, List.flatMap_map, List.mem_flatMap,
    BlockManager.privateOf_nil] at hmem
  rcases hmem with hmem | ⟨id, hid, hmem⟩
  · exact .inl hmem
  · exact .inr ⟨id, st.live id hid, hid, hmem⟩

end DraftedEngine

/-- As long as no request leaves that has a shadow, every block of the draft pool is free or a
live request's, an id that is not live has no shadow, and a step runs out of blocks for a proposal
only when the live requests need more than there are. -/
theorem draft_pool_of_run {κ : Type} {e : LLMEngine} {c : SpeculativeConfig}
    {runner : PagedRunner κ} {numGpuBlocks : ℕ} {slot : BlockId × ℕ → κ} {d : DraftedEngine κ}
    (h : e.DraftedRun (DraftedEngine.Releases e) (e.draftedStart c runner numGpuBlocks slot) d) :
    d.Owned ∧
      (∀ id, id ∉ d.scheduler.requests → d.draftProposer.shadowRequests.lookup id = none) ∧
      (DraftedEngine.Releases e d .step → ∀ d₁ r dp err, e.Asks d d₁ r dp →
        dp.propose r = .error err → err.isOutOfMemory = true → dp.blockManager.numGpuBlocks <
          ((d₁.scheduler.running ++ d₁.scheduler.waiting).map dp.need).sum) := by
  have st := DraftedEngine.PoolState.of_run (.start e c runner numGpuBlocks slot) h
  refine ⟨st.owned, fun id hid => ?_, fun hr d₁ r dp err ha hp hmem => ?_⟩
  · by_contra hne
    obtain ⟨shadow, hshadow⟩ := Option.ne_none_iff_exists'.mp hne
    exact hid (st.live id (DraftProposer.mem_shadowed.mpr ⟨shadow, hshadow⟩))
  · obtain ⟨out, finished, hswept⟩ := ha.swept
    obtain ⟨pre, post, proposed, hsplit, hloop⟩ := ha.reached
    exact (st.swept hr hswept).asked hsplit hloop hp hmem

/-- Blocks of one token, and a draft model with four of them. -/
def leakingEngine : LLMEngine where
  cacheConfig := .ofBlocks 1 8 Nat.one_pos
  schedulerConfig := .defaults
  runner := { next := fun tokens => tokens.length }
  speculativeConfig := some { numSpeculativeTokens := 1, numSpeculativeTokens_pos := Nat.one_pos }
  hashFn := fun _ _ => 0

def leakingStart : DraftedEngine Unit :=
  leakingEngine.draftedStart { numSpeculativeTokens := 1, numSpeculativeTokens_pos := Nat.one_pos }
    { model := { encode := fun _ _ => (), sample := fun entries => entries.length } } 4 fun _ => ()

/-- The shadow of a request holds two of the four blocks, and a request that has none is aborted. In
the next step the first request's shadow takes the other two, and a second live request asks for
two more than there are. -/
theorem draft_pool_of_run_dry : ∃ d d₁ r dp err,
    leakingEngine.DraftedRun (DraftedEngine.Releases leakingEngine) leakingStart d ∧
      d.scheduler.requests = [0, 1] ∧ d.draftProposer.tableOf 0 = [3, 2] ∧
      d.draftProposer.blockManager.freeBlockIds = [1, 0] ∧ d.Owned ∧
      (∀ id, id ∉ d.scheduler.requests → d.draftProposer.shadowRequests.lookup id = none) ∧
      leakingEngine.Asks d d₁ r dp ∧ r.requestId = 1 ∧
      dp.propose r = .error err ∧ err.isOutOfMemory = true ∧ dp.blockManager.numGpuBlocks <
        ((d₁.scheduler.running ++ d₁.scheduler.waiting).map dp.need).sum := by
  have hdry : (leakingEngine.draftedPerformAll (DraftedEngine.Releases leakingEngine) leakingStart
      [.addRequest 0 [7] {}, .addRequest 2 [9] {}, .abortRequests [2], .step,
        .addRequest 1 [8] {}]).any (fun d =>
      (leakingEngine.sweptStep d).toOption.any fun next =>
        next.1.scheduler.running.head?.any fun r₀ =>
        next.1.scheduler.running.tail.head?.any fun r₁ =>
          (DraftedEngine.proposeLoop [r₀] next.1.draftProposer).toOption.any fun asked => decide (
            d.scheduler.requests = [0, 1] ∧ d.draftProposer.tableOf 0 = [3, 2] ∧
            d.draftProposer.blockManager.freeBlockIds = [1, 0] ∧
            DraftedEngine.Releases leakingEngine d .step ∧ r₁.isPrefill = false ∧ r₁.requestId = 1 ∧
            (match asked.1.propose r₁ with
              | .error err => err.isOutOfMemory
              | .ok _ => false) = true)) = true := by decide +kernel
  simp only [Option.any_eq_true, toOption_eq_some, List.head?_eq_some_iff,
    decide_eq_true_eq] at hdry
  obtain ⟨d, hcalls, ⟨d₁, rest⟩, hstep, r₀, ⟨after₀, hrunning⟩, r₁, ⟨after₁, htail⟩, ⟨dp, proposed⟩,
    hloop, hlive, htable, hfree, hreleases, hpast, hid, hraises⟩ := hdry
  obtain ⟨err, herr, hmem⟩ : ∃ err, dp.propose r₁ = .error err ∧ err.isOutOfMemory = true := by
    split at hraises
    · exact ⟨_, ‹_›, hraises⟩
    · cases hraises
  obtain rfl : after₀ = r₁ :: after₁ := by rw [← htail, hrunning, List.tail_cons]
  have hrun := LLMEngine.DraftedRun.performAll .start hcalls
  have ha : leakingEngine.Asks d d₁ r₁ dp :=
    ⟨⟨_, _, hstep⟩, ⟨[r₀], after₁, _, hrunning, hloop⟩, hpast⟩
  obtain ⟨howned, hgone, hdry⟩ := draft_pool_of_run hrun
  exact ⟨d, d₁, r₁, dp, err, hrun, hlive, htable, hfree, howned, hgone, ha, hid, herr, hmem,
    hdry hreleases d₁ r₁ dp err ha herr hmem⟩

/-- A request that was proposed for finishes, and its shadow keeps its blocks. -/
theorem finished_shadow_leaks :
    ¬ ∀ (e : LLMEngine) (c : SpeculativeConfig) (runner : PagedRunner Unit)
    (numGpuBlocks : ℕ) (slot : BlockId × ℕ → Unit) (d : DraftedEngine Unit),
    e.DraftedRun (fun _ _ => True) (e.draftedStart c runner numGpuBlocks slot) d → d.Owned := by
  intro h
  have hbad : (leakingEngine.draftedPerformAll (fun _ _ => True) leakingStart
      [.addRequest 0 [1] { maxTokens := 2 }, .step, .step]).any (fun d =>
        decide (d.scheduler.requests = [] ∧ d.draftProposer.blockManager.numGpuBlocks = 4 ∧
          3 ∉ d.draftProposer.blockManager.freeBlockIds)) = true := by decide +kernel
  simp only [Option.any_eq_true, decide_eq_true_eq] at hbad
  obtain ⟨d, hcalls, hnobody, hsize, htaken⟩ := hbad
  rcases h leakingEngine _ _ _ _ d (.performAll .start hcalls) 3 (by omega) with
    hfree | ⟨id, hid, -⟩
  · exact htaken hfree
  · rw [hnobody] at hid
    cases hid

end LightServe
