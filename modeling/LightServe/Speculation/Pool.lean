import LightServe.Memory.Partition
import LightServe.Model.DraftProposer

/-!
# The draft pool

The draft's block manager serves the shadows: a table for every shadow, every block on the free
stack or in one of these tables. What a proposal does for one request leaves the shadows, the
tables and the cache entries of all others alone.

## Main definitions

* `DraftProposer.Pooled` — the accounts of the draft pool.
* `DraftProposer.LeavesOthers` — what a call for one request leaves alone.
* `DraftProposer.Pooled.ensureCapacity` — growing a shadow's table.
-/

namespace LightServe

namespace DraftProposer
variable {κ : Type}

def tableOf (dp : DraftProposer κ) (id : RequestId) : List BlockId := dp.blockManager.tableOf id

/-- Who has a shadow. -/
def shadowed (dp : DraftProposer κ) : List RequestId := dp.shadowRequests.keys

/-- The draft's block manager serves the shadows and nobody else. -/
structure Pooled (dp : DraftProposer κ) : Prop where
  uncached : dp.blockManager.prefixCache = none
  blockSize_pos : 0 < dp.blockManager.blockSize
  sameSize : dp.kvCache.blockSize = dp.blockManager.blockSize
  shadow : ∀ id shadow, dp.shadowRequests.lookup id = some shadow →
    shadow.requestId = id ∧ shadow.draftTokenIds = [] ∧ shadow.cachedPrefixNodes = []
  partition : Partition dp.blockManager (dp.shadowed.map fun id => (id, []))

/-- What a call for the request `id` leaves alone. -/
structure LeavesOthers (id : RequestId) (dp dp' : DraftProposer κ) : Prop where
  modelRunner : dp'.modelRunner = dp.modelRunner
  numSpeculativeTokens : dp'.numSpeculativeTokens = dp.numSpeculativeTokens
  blockSize : dp'.blockManager.blockSize = dp.blockManager.blockSize
  numGpuBlocks : dp'.blockManager.numGpuBlocks = dp.blockManager.numGpuBlocks
  shadow : ∀ id', id' ≠ id → dp'.shadowRequests.lookup id' = dp.shadowRequests.lookup id'
  table : ∀ id', id' ≠ id → dp'.tableOf id' = dp.tableOf id'
  slot : ∀ id', id' ≠ id → ∀ l, l.1 ∈ dp.tableOf id' → dp'.kvCache.slot l = dp.kvCache.slot l

theorem LeavesOthers.refl (id : RequestId) (dp : DraftProposer κ) : LeavesOthers id dp dp :=
  ⟨rfl, rfl, rfl, rfl, fun _ _ => rfl, fun _ _ => rfl, fun _ _ _ _ => rfl⟩

theorem LeavesOthers.trans {id : RequestId} {dp dp' dp'' : DraftProposer κ}
    (h : LeavesOthers id dp dp') (h' : LeavesOthers id dp' dp'') : LeavesOthers id dp dp'' where
  modelRunner := h'.modelRunner.trans h.modelRunner
  numSpeculativeTokens := h'.numSpeculativeTokens.trans h.numSpeculativeTokens
  blockSize := h'.blockSize.trans h.blockSize
  numGpuBlocks := h'.numGpuBlocks.trans h.numGpuBlocks
  shadow id' hne := (h'.shadow id' hne).trans (h.shadow id' hne)
  table id' hne := (h'.table id' hne).trans (h.table id' hne)
  slot id' hne l hl := (h'.slot id' hne l (h.table id' hne ▸ hl)).trans (h.slot id' hne l hl)

theorem keys_set_of_mem {ν : Type} {d : Dict RequestId ν} {id : RequestId} (v : ν) (h : id ∈ d) :
    (d.set id v).keys = d.keys := by
  rw [Dict.set, if_pos h, AList.keys_replace]

theorem keys_set_of_notMem {ν : Type} {d : Dict RequestId ν} {id : RequestId} (v : ν) (h : id ∉ d) :
    (d.set id v).keys = id :: d.keys := by
  rw [Dict.set, if_neg h, AList.keys_insert, List.erase_of_not_mem h]

/-! ## Growing a table -/

section Ensure
variable {bm bm' : BlockManager} {shadow : Request} {stakes : List Stake} {fuel : ℕ}

/-- Appending a slot to a shadow whose table is too short takes one block. -/
private theorem appendSlot_eq (p : Partition bm stakes) (hs : shadow.stake ∈ stakes)
    (hd : shadow.draftTokenIds = []) (hbs : 0 < bm.blockSize)
    (hlt : (bm.getBlockTable shadow).length < shadow.numBlocksNeeded bm.blockSize) :
    (bm.freeBlockIds = [] ∧
      bm.appendSlot shadow = .error (.outOfMemory shadow.requestId 1 0)) ∨
    (bm.freeBlockIds ≠ [] ∧
      bm.appendSlot shadow = .ok (bm.handOut shadow.requestId (bm.getBlockTable shadow) 1) ∧
      Partition (bm.handOut shadow.requestId (bm.getBlockTable shadow) 1) stakes) := by
  have hspec : Scheduler.isSpec shadow = false := by simp [Scheduler.isSpec, hd]
  have hneeds : bm.needsNewBlock shadow = true := by
    have hle := shadow.numBlocksNeeded_le_iff (n := (bm.getBlockTable shadow).length) hbs
    simp only [BlockManager.needsNewBlock, decide_eq_true_eq]
    omega
  have hgrowth : bm.growth shadow 0 = 1 := by
    rw [BlockManager.growth, hspec, if_neg Bool.false_ne_true, if_pos hneeds]
  have hreserve : Scheduler.reserve bm shadow 0 = bm.appendSlot shadow := by
    rw [Scheduler.reserve, hspec, if_neg Bool.false_ne_true]
  by_cases hfree : bm.freeBlockIds = []
  · have htable : shadow.requestId ∈ bm.blockTables :=
      (p.tables _).mpr (List.mem_map_of_mem (f := Prod.fst) hs)
    obtain ⟨table, ht⟩ := Option.isSome_iff_exists.mp (AList.lookup_isSome.mpr htable)
    refine .inl ⟨hfree, ?_⟩
    simp [BlockManager.appendSlot, ht, hneeds, BlockManager.growTable, hfree]
  · have hpos : 1 ≤ bm.numFreeBlocks := List.length_pos_of_ne_nil hfree
    have hfit : Scheduler.fits bm shadow 0 = true := (bm.fits_iff shadow 0).mpr (hgrowth ▸ hpos)
    obtain ⟨hok, hp⟩ := p.reserve hs hfit
    rw [hgrowth] at hok hp
    exact .inr ⟨hfree, hreserve ▸ hok, hp⟩

/-- What growing a shadow's table did. -/
structure Grows (shadow : Request) (stakes : List Stake) (bm bm' : BlockManager) : Prop where
  partition : Partition bm' stakes
  uncached : bm'.prefixCache = bm.prefixCache
  blockSize : bm'.blockSize = bm.blockSize
  numGpuBlocks : bm'.numGpuBlocks = bm.numGpuBlocks
  table : ∃ more, bm'.tableOf shadow.requestId = bm.tableOf shadow.requestId ++ more
  others : ∀ id, id ≠ shadow.requestId → bm'.tableOf id = bm.tableOf id
  length_le : (bm'.tableOf shadow.requestId).length ≤
    max (bm.tableOf shadow.requestId).length (shadow.numBlocksNeeded bm.blockSize)

theorem Grows.refl (p : Partition bm stakes) : Grows shadow stakes bm bm :=
  ⟨p, rfl, rfl, rfl, ⟨[], by simp⟩, fun _ _ => rfl, le_max_left _ _⟩

/-- The loop ends with the tokens covered, or with no block left. -/
theorem ensureLoop_cases (p : Partition bm stakes) (hs : shadow.stake ∈ stakes)
    (hd : shadow.draftTokenIds = []) (hbs : 0 < bm.blockSize)
    (hfuel : shadow.numBlocksNeeded bm.blockSize ≤ (bm.tableOf shadow.requestId).length + fuel) :
    (∃ bm', ensureLoop shadow fuel bm = .ok bm' ∧ Grows shadow stakes bm bm' ∧
      shadow.numBlocksNeeded bm.blockSize ≤ (bm'.tableOf shadow.requestId).length) ∨
    (∃ bm', ensureLoop shadow fuel bm = .error (.outOfMemory shadow.requestId 1 0) ∧
      Grows shadow stakes bm bm' ∧ bm'.freeBlockIds = [] ∧
      (bm'.tableOf shadow.requestId).length < shadow.numBlocksNeeded bm.blockSize) := by
  induction fuel generalizing bm with
  | zero => exact .inl ⟨bm, rfl, .refl p, by simpa using hfuel⟩
  | succ fuel ih =>
    rw [ensureLoop]
    by_cases hlt : (bm.getBlockTable shadow).length < shadow.numBlocksNeeded bm.blockSize
    · rw [if_pos hlt]
      rcases appendSlot_eq p hs hd hbs hlt with ⟨hfree, herr⟩ | ⟨hfree, hok, hp⟩
      · exact .inr ⟨bm, by rw [herr]; rfl, .refl p, hfree, hlt⟩
      · set mid := bm.handOut shadow.requestId (bm.getBlockTable shadow) 1 with hmid
        have hone : (bm.freeBlockIds.take 1).length = 1 := by
          have := List.length_pos_of_ne_nil hfree
          rw [List.length_take]
          omega
        have hself : mid.tableOf shadow.requestId =
            bm.tableOf shadow.requestId ++ bm.freeBlockIds.take 1 :=
          (bm.tableOf_set _ _ _).trans (if_pos rfl)
        have hother : ∀ id, id ≠ shadow.requestId → mid.tableOf id = bm.tableOf id := fun id hne =>
          (bm.tableOf_set _ _ _).trans (if_neg hne)
        have hlen : (mid.tableOf shadow.requestId).length =
            (bm.tableOf shadow.requestId).length + 1 := by
          rw [hself, List.length_append, hone]
        have hlt' : (bm.tableOf shadow.requestId).length < shadow.numBlocksNeeded bm.blockSize :=
          hlt
        have hgrows : ∀ bm', Grows shadow stakes mid bm' → Grows shadow stakes bm bm' := by
          intro bm' h
          obtain ⟨more, hmore⟩ := h.table
          refine ⟨h.partition, h.uncached, h.blockSize, h.numGpuBlocks,
            ⟨bm.freeBlockIds.take 1 ++ more, by rw [hmore, hself, List.append_assoc]⟩,
            fun id hne => (h.others id hne).trans (hother id hne), ?_⟩
          have hle := h.length_le
          have hsize : shadow.numBlocksNeeded mid.blockSize = shadow.numBlocksNeeded bm.blockSize :=
            rfl
          omega
        rw [hok, ok_bind]
        rcases ih hp hbs (by show shadow.numBlocksNeeded bm.blockSize ≤ _; omega) with
          ⟨bm', hrun, hg, hcover⟩ | ⟨bm', hrun, hg, hnil, hshort⟩
        · exact .inl ⟨bm', hrun, hgrows bm' hg, hcover⟩
        · exact .inr ⟨bm', hrun, hgrows bm' hg, hnil, hshort⟩
    · rw [if_neg hlt]
      exact .inl ⟨bm, rfl, .refl p, Nat.not_lt.mp hlt⟩

end Ensure

variable {dp dp' : DraftProposer κ} {r shadow : Request} {id : RequestId}

theorem mem_shadowed : id ∈ dp.shadowed ↔ ∃ shadow, dp.shadowRequests.lookup id = some shadow := by
  rw [shadowed, ← AList.mem_keys, ← AList.lookup_isSome, Option.isSome_iff_exists]

/-! ## Shadows -/

/-- Without a cache an allocation is the blocks that the tokens need, or it raises. -/
theorem allocate_uncached {bm : BlockManager} (hc : bm.prefixCache = none) (r : Request) :
    bm.allocate r none =
      if r.requestId ∈ bm.blockTables then .error (.alreadyAllocated r.requestId)
      else if bm.numFreeBlocks < r.numBlocksNeeded bm.blockSize then
        .error (.outOfMemory r.requestId (r.numBlocksNeeded bm.blockSize) bm.numFreeBlocks)
      else .ok (bm.handOut r.requestId [] (r.numBlocksNeeded bm.blockSize), r) := by
  unfold BlockManager.allocate
  simp only [BlockManager.matchPrefix, hc, BlockManager.acquireMatch, BlockManager.drainEvictions,
    BlockManager.neededFresh, BlockManager.matchedBlockIds, Option.map_none, Option.or_none,
    Option.getD_none, List.length_nil, Nat.sub_zero, ok_bind]
  split
  · rfl
  · split
    · rfl
    · simp only [BlockManager.handOut, hc]
      rfl

namespace Pooled

/-- The pool stays in order when only shadows change that were there. -/
theorem setShadow (h : dp.Pooled) (hmem : id ∈ dp.shadowed) (hid : shadow.requestId = id)
    (hd : shadow.draftTokenIds = []) (hn : shadow.cachedPrefixNodes = []) :
    Pooled { dp with shadowRequests := dp.shadowRequests.set id shadow } where
  uncached := h.uncached
  blockSize_pos := h.blockSize_pos
  sameSize := h.sameSize
  shadow id' shadow' hl := by
    rw [Dict.lookup_set] at hl
    split at hl
    · rename_i heq
      cases hl
      exact ⟨hid.trans heq.symm, hd, hn⟩
    · exact h.shadow id' shadow' hl
  partition := by
    rw [shadowed, keys_set_of_mem shadow (AList.mem_keys.mpr hmem)]
    exact h.partition

theorem stake_mem (h : dp.Pooled) (hl : dp.shadowRequests.lookup id = some shadow) :
    shadow.stake ∈ dp.shadowed.map fun id => ((id, []) : Stake) := by
  obtain ⟨hid, -, hn⟩ := h.shadow id shadow hl
  refine List.mem_map.mpr ⟨id, mem_shadowed.mpr ⟨shadow, hl⟩, ?_⟩
  rw [Request.stake, hid, hn]

/-- Looking up a shadow, or creating it. -/
theorem getOrCreateShadow (h : dp.Pooled) (hs : dp.getOrCreateShadow r = .ok (dp', shadow)) :
    dp'.Pooled ∧ LeavesOthers r.requestId dp dp' ∧ dp'.kvCache = dp.kvCache ∧
      dp'.shadowRequests.lookup r.requestId = some shadow ∧
      ((∃ old, dp.shadowRequests.lookup r.requestId = some old ∧
          shadow = { old with outputTokenIds := r.outputTokenIds } ∧
          dp'.tableOf r.requestId = dp.tableOf r.requestId) ∨
        (dp.shadowRequests.lookup r.requestId = none ∧ shadow = newShadow r ∧
          (dp'.tableOf r.requestId).length =
            (newShadow r).numBlocksNeeded dp.blockManager.blockSize)) := by
  unfold DraftProposer.getOrCreateShadow at hs
  split at hs
  · rename_i old hold
    cases hs
    obtain ⟨hid, hd, hn⟩ := h.shadow _ old hold
    refine ⟨h.setShadow (mem_shadowed.mpr ⟨old, hold⟩) hid hd hn, ?_, rfl, by simp,
      .inl ⟨old, hold, rfl, rfl⟩⟩
    exact ⟨rfl, rfl, rfl, rfl, fun id' hne => Dict.lookup_set_ne _ _ hne, fun _ _ => rfl,
      fun _ _ _ _ => rfl⟩
  · rename_i hnone
    obtain ⟨⟨bm, shadow'⟩, halloc, hret⟩ := bind_eq_ok.mp hs
    have hmatch : dp.blockManager.matchPrefix (newShadow r).promptTokenIds = none := by
      simp [BlockManager.matchPrefix, h.uncached]
    have hp : Partition bm (shadow'.stake :: _) :=
      h.partition.allocate (r := newShadow r) rfl (by rw [hmatch]; exact halloc)
    rw [allocate_uncached h.uncached] at halloc
    split at halloc
    · cases halloc
    · split at halloc
      · cases halloc
      · rename_i hfits
        cases halloc
        cases hret
        set n := (newShadow r).numBlocksNeeded dp.blockManager.blockSize
        have hid : r.requestId ∉ dp.shadowRequests := AList.lookup_eq_none.mp hnone
        have hself : ((dp.blockManager.handOut (newShadow r).requestId [] n).tableOf
            r.requestId) = dp.blockManager.freeBlockIds.take n :=
          (dp.blockManager.tableOf_set _ _ _).trans (if_pos rfl)
        refine ⟨⟨h.uncached, h.blockSize_pos, h.sameSize, fun id' shadow' hl => ?_, ?_⟩,
          ⟨rfl, rfl, rfl, rfl, fun id' hne => Dict.lookup_set_ne _ _ hne, fun id' hne => ?_,
            fun _ _ _ _ => rfl⟩, rfl, by simp, .inr ⟨hnone, rfl, ?_⟩⟩
        · rw [Dict.lookup_set] at hl
          split at hl
          · rename_i heq
            cases hl
            exact ⟨heq.symm, rfl, rfl⟩
          · exact h.shadow id' shadow' hl
        · rw [shadowed, keys_set_of_notMem _ hid]
          exact hp
        · exact (dp.blockManager.tableOf_set _ _ _).trans (if_neg hne)
        · rw [tableOf, hself, List.length_take]
          exact Nat.min_eq_left (Nat.not_lt.mp hfits)

/-- A shadow is refused only for want of blocks. -/
theorem getOrCreateShadow_error (h : dp.Pooled) {err : EngineError}
    (hs : dp.getOrCreateShadow r = .error err) : r.requestId ∉ dp.shadowed ∧
      dp.blockManager.numFreeBlocks < (newShadow r).numBlocksNeeded dp.blockManager.blockSize := by
  unfold DraftProposer.getOrCreateShadow at hs
  split at hs
  · cases hs
  · rename_i hnone
    have hid : r.requestId ∉ dp.shadowed := fun hmem => by
      obtain ⟨shadow, hshadow⟩ := mem_shadowed.mp hmem
      rw [hnone] at hshadow
      cases hshadow
    have htable : (newShadow r).requestId ∉ dp.blockManager.blockTables := by
      rw [h.partition.tables, List.map_map]
      have hid' : (newShadow r).requestId ∉ dp.shadowed := hid
      simpa [Function.comp_def] using hid'
    rw [allocate_uncached h.uncached, if_neg htable] at hs
    split at hs
    · rename_i hlt
      exact ⟨hid, hlt⟩
    · cases hs

/-- A fresh proposer has nobody's shadow and every block free. -/
theorem new (runner : PagedRunner κ) (K numGpuBlocks : ℕ)
    {kv : KvCache κ} (hbs : 0 < kv.blockSize) :
    (DraftProposer.new runner K numGpuBlocks kv).Pooled where
  uncached := rfl
  blockSize_pos := hbs
  sameSize := rfl
  shadow _ _ h := by cases h
  partition := .new
    { blockSize := kv.blockSize, numGpuBlocks, blockSize_pos := hbs, watermark_le := Nat.zero_le _ }
    fun _ _ => 0

/-- Winding a shadow back touches nothing else. -/
theorem rollback (h : dp.Pooled) (id : RequestId) (n : ℕ) : (dp.rollback id n).Pooled := by
  unfold DraftProposer.rollback
  split
  · exact h
  · rename_i shadow hl
    obtain ⟨hid, hd, hn⟩ := h.shadow id shadow hl
    exact h.setShadow (mem_shadowed.mpr ⟨shadow, hl⟩) hid hd hn

end Pooled

end DraftProposer

end LightServe
