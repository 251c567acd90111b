import LightServe.Model.PdDisaggregation
import LightServe.Scheduling.Admission

/-!
# Resumptions that fail

A `resume_decode` that raises takes nothing back. Only two failures leave the engine as it was: a
request id that has a block table, and a pool too small for the request where nothing of its
prompt is cached and nothing is evictable. Every other failure leaves evicted blocks, a hold on
the match or a whole block table behind.

## Main definitions

* `Scheduler.DecodeRun` — the states of an engine that resumes handoffs.
* `Scheduler.Unchanged` — what a failed resumption is to leave.
* `Scheduler.Refuses` — when it does.
* `resumeDecode_unchanged_iff_of_run` — it does so exactly then.
-/

namespace LightServe

open Scheduler

/-! ## Allocation -/

section Allocate
variable {bm : BlockManager} {r : Request}

/-- An allocation that gets past the id evicts, and then has enough or has not. -/
theorem BlockManager.allocateLeaving_eq (hid : r.requestId ∉ bm.blockTables) {t : RadixTrie}
    {freed : List BlockId}
    (hrun : (bm.heldTree r.promptTokenIds).evictTimes
      (bm.neededFresh r (bm.matchPrefix r.promptTokenIds) - bm.numFreeBlocks) = .ok (t, freed)) :
    bm.allocateLeaving r none =
      if freed.length + bm.numFreeBlocks < bm.neededFresh r (bm.matchPrefix r.promptTokenIds) then
        (bm.evicted t freed, .error (.outOfMemory r.requestId
          (bm.neededFresh r (bm.matchPrefix r.promptTokenIds)) (freed.length + bm.numFreeBlocks)))
      else
        ((bm.evicted t freed).handOut r.requestId
            (matchedBlockIds (bm.matchPrefix r.promptTokenIds))
            (bm.neededFresh r (bm.matchPrefix r.promptTokenIds)),
          .ok (r.holding (bm.matchPrefix r.promptTokenIds))) := by
  have htree : (bm.setTree (bm.heldTree r.promptTokenIds)).tree = bm.heldTree r.promptTokenIds :=
    tree_setTree fun h => heldTree_of_none h _
  have hdrain : (bm.setTree (bm.heldTree r.promptTokenIds)).drainEvictions
      (bm.neededFresh r (bm.matchPrefix r.promptTokenIds)) = .ok (bm.evicted t freed) := by
    have hfree : (bm.setTree (bm.heldTree r.promptTokenIds)).numFreeBlocks = bm.numFreeBlocks := rfl
    rw [drainEvictions_eq, htree, hfree, hrun]
    cases hc : bm.prefixCache <;> simp [Except.map, evicted, setTree, hc]
  have hfree : (bm.evicted t freed).numFreeBlocks = freed.length + bm.numFreeBlocks := by
    simp [evicted, numFreeBlocks]
  unfold allocateLeaving
  simp only [if_neg hid, Option.none_or, acquireMatch_eq, hdrain, hfree]
  split
  · rfl
  · rfl

/-- An allocation refuses the id, finds too little memory after what it evicted, or returns. -/
theorem Accounts.allocateLeaving_cases {stakes : List Stake} {leak : NodeId → ℕ}
    (a : Accounts bm stakes leak) (r : Request) :
    (r.requestId ∈ bm.blockTables ∧
      bm.allocateLeaving r none = (bm, .error (.alreadyAllocated r.requestId))) ∨
    r.requestId ∉ bm.blockTables ∧ ∃ t freed,
      (bm.heldTree r.promptTokenIds).evictTimes
        (bm.neededFresh r (bm.matchPrefix r.promptTokenIds) - bm.numFreeBlocks) = .ok (t, freed) ∧
      ((freed.length + bm.numFreeBlocks < bm.neededFresh r (bm.matchPrefix r.promptTokenIds) ∧
          ∃ e, bm.allocateLeaving r none = (bm.evicted t freed, .error e)) ∨
        bm.neededFresh r (bm.matchPrefix r.promptTokenIds) ≤ freed.length + bm.numFreeBlocks ∧
          ∃ bm' r', bm.allocate r (bm.matchPrefix r.promptTokenIds) = .ok (bm', r') ∧
            bm.allocateLeaving r none = (bm', .ok r')) := by
  by_cases hid : r.requestId ∈ bm.blockTables
  · exact .inl ⟨hid, by rw [BlockManager.allocateLeaving, if_pos hid]⟩
  · refine .inr ⟨hid, ?_⟩
    have hkeeps := a.keeps_heldTree r.requestId r.promptTokenIds
    obtain ⟨F, hF⟩ := hkeeps.toWellFormed.exists_shows
    obtain ⟨t, vs, G, hrun, -⟩ := hkeeps.evictTimes hF
      (bm.neededFresh r (bm.matchPrefix r.promptTokenIds) - bm.numFreeBlocks)
    refine ⟨t, _, hrun, ?_⟩
    have heq := BlockManager.allocateLeaving_eq hid hrun
    split at heq
    · rename_i hlt
      exact .inl ⟨hlt, _, heq⟩
    · rename_i hle
      exact .inr ⟨Nat.not_lt.mp hle, _, _,
        (bm.allocate_eq_ok_iff r _).mpr ⟨hid, t, _, hrun, Nat.not_lt.mp hle, rfl⟩, heq⟩

/-- Where nothing of the prompt is cached, nothing is held. -/
theorem BlockManager.heldTree_node {tokenIds : List Token}
    (h : (bm.tree.matchTokens tokenIds).nodes = []) :
    (bm.heldTree tokenIds).node = bm.tree.node := by
  cases hc : bm.prefixCache with
  | none => rw [heldTree_of_none hc]
  | some t =>
    rw [tree_of_some hc] at h ⊢
    simp only [heldTree, hc, RadixTrie.acquire, h, List.foldl_nil]

theorem BlockManager.heldTree_numEvictableBlocks {tokenIds : List Token}
    (h : (bm.tree.matchTokens tokenIds).nodes = []) :
    (bm.heldTree tokenIds).numEvictableBlocks = bm.numEvictable := by
  rw [numEvictable_eq, RadixTrie.numEvictableBlocks, RadixTrie.numEvictableBlocks,
    (Accounts.sameShape_heldTree bm tokenIds).byHash]
  refine List.countP_congr fun n _ => ?_
  rw [RadixTrie.isEvictable, RadixTrie.isEvictable, heldTree_node h]

theorem BlockManager.neededFresh_of_unmatched
    (h : (bm.tree.matchTokens r.promptTokenIds).nodes = []) :
    bm.neededFresh r (bm.matchPrefix r.promptTokenIds) = r.numBlocksNeeded bm.blockSize := by
  rw [neededFresh, matchedBlockIds_matchPrefix, h]
  rfl

theorem BlockManager.allocate_requestId {bm' : BlockManager} {r' : Request} {m : Option PrefixMatch}
    (h : bm.allocate r m = .ok (bm', r')) : r'.requestId = r.requestId := by
  unfold allocate at h
  split at h
  · cases h
  · obtain ⟨bm₁, -, hrest⟩ := bind_eq_ok.mp h
    dsimp only at hrest
    split at hrest
    · cases hrest
    · cases hrest
      show (bm.acquireMatch r _).2.requestId = r.requestId
      unfold acquireMatch
      split <;> rfl

end Allocate

namespace Scheduler
variable {η : Type} {s s' : Scheduler} {kv : PagedKVCache η} {handoff : PrefillHandoff η}
  {e : EngineError} {lost : List Stake} {leak : NodeId → ℕ}

/-! ## What a failure leaves -/

/-- Nothing changed but clocks and counters of the trie. -/
structure Unchanged (s s' : Scheduler) : Prop where
  freeBlockIds : s'.blockManager.freeBlockIds = s.blockManager.freeBlockIds
  blockTables : s'.blockManager.blockTables = s.blockManager.blockTables
  nodes : s.blockManager.tree.SameShape s'.blockManager.tree
  refCount : ∀ n, (s'.blockManager.tree.node n).refCount = (s.blockManager.tree.node n).refCount
  waiting : s'.waiting = s.waiting
  running : s'.running = s.running
  requests : s'.requests = s.requests

/-- The id has a block table, or the pool is too small for the whole request while nothing of its
prompt is cached and nothing is evictable. -/
def Refuses (s : Scheduler) (handoff : PrefillHandoff η) : Prop :=
  handoff.requestId ∈ s.blockManager.blockTables ∨
    (s.blockManager.tree.matchTokens handoff.promptTokenIds).nodes = [] ∧
      s.blockManager.numEvictable = 0 ∧
      s.blockManager.numFreeBlocks < handoff.request.numBlocksNeeded s.blockManager.blockSize

/-- A resumption that raised left what the allocation left. -/
theorem resumeDecode_error (h : s.resumeDecode kv handoff = (s', .error e)) :
    s' = { s with blockManager := (s.blockManager.allocateLeaving handoff.request none).1 } := by
  unfold resumeDecode at h
  dsimp only at h
  split at h
  · exact (Prod.mk.inj h).1.symm
  · split at h
    · exact (Prod.mk.inj h).1.symm
    · cases (Prod.mk.inj h).2

/-- A failed allocation that evicted leaves the engine as it was exactly if it found nothing to
hold and nothing to evict. -/
theorem unchanged_outOfMemory_iff (a : Accounted s lost leak) {t : RadixTrie} {freed : List BlockId}
    (hrun : (s.blockManager.heldTree handoff.promptTokenIds).evictTimes
      (s.blockManager.neededFresh handoff.request
        (s.blockManager.matchPrefix handoff.promptTokenIds) - s.blockManager.numFreeBlocks) =
          .ok (t, freed))
    (hlt : freed.length + s.blockManager.numFreeBlocks < s.blockManager.neededFresh handoff.request
      (s.blockManager.matchPrefix handoff.promptTokenIds)) :
    s.Unchanged { s with blockManager := s.blockManager.evicted t freed } ↔
      (s.blockManager.tree.matchTokens handoff.promptTokenIds).nodes = [] ∧
        s.blockManager.numEvictable = 0 ∧
        s.blockManager.numFreeBlocks <
        handoff.request.numBlocksNeeded s.blockManager.blockSize := by
  obtain ⟨-, -, htree, -, -, -, -⟩ := a.accounts.evictTimes_heldTree 0 handoff.promptTokenIds hrun
  constructor
  · intro hu
    have hfreed : freed = [] := by
      have hfree := hu.freeBlockIds
      simpa [BlockManager.evicted] using hfree
    subst hfreed
    obtain ⟨rfl, hnone⟩ := RadixTrie.eq_of_evictTimes_nil hrun
    have hnodes : (s.blockManager.tree.matchTokens handoff.promptTokenIds).nodes = [] := by
      refine List.eq_nil_iff_forall_not_mem.mpr fun n hn => ?_
      have hlive := (a.accounts.wellFormed.matchTokens handoff.promptTokenIds).1.live n hn
      have hheld := a.accounts.keeps_heldTree 0 handoff.promptTokenIds
      have hcount := hu.refCount n
      rw [htree, hheld.refCount_eq ((Accounts.sameShape_heldTree _ _).live.mpr hlive),
        a.accounts.keeps.refCount_eq hlive, holders_cons] at hcount
      have hpos := List.count_pos_iff.mpr hn
      dsimp only at hcount
      omega
    have hneeded := BlockManager.neededFresh_of_unmatched (r := handoff.request) hnodes
    rw [List.length_nil, Nat.zero_add] at hlt
    refine ⟨hnodes, ?_, hneeded ▸ hlt⟩
    rw [← BlockManager.heldTree_numEvictableBlocks hnodes]
    exact hnone (Nat.sub_pos_of_lt hlt)
  · rintro ⟨hnodes, hnone, -⟩
    rw [← BlockManager.heldTree_numEvictableBlocks hnodes] at hnone
    cases (RadixTrie.evictTimes_of_not_evictable hnone _).symm.trans hrun
    refine ⟨rfl, rfl, ?_, fun n => ?_, rfl, rfl, rfl⟩
    · show s.blockManager.tree.SameShape (s.blockManager.evicted _ []).tree
      rw [htree]
      exact Accounts.sameShape_heldTree _ _
    · show ((s.blockManager.evicted _ []).tree.node n).refCount = _
      rw [htree, BlockManager.heldTree_node hnodes]

/-- A resumption that raises leaves the engine as it was exactly if it was refused. -/
theorem unchanged_iff (a : Accounted s lost leak) (h : s.resumeDecode kv handoff = (s', .error e)) :
    s.Unchanged s' ↔ s.Refuses handoff := by
  obtain rfl := resumeDecode_error h
  rcases a.accounts.allocateLeaving_cases handoff.request with
    ⟨hid, hres⟩ | ⟨hid, t, freed, hrun, ⟨hlt, e', hres⟩ | ⟨hle, bm', r', halloc, hres⟩⟩
  · rw [hres]
    exact ⟨fun _ => .inl hid, fun _ => ⟨rfl, rfl, .refl _, fun _ => rfl, rfl, rfl, rfl⟩⟩
  · rw [hres, unchanged_outOfMemory_iff a hrun hlt]
    exact ⟨.inr, fun hr => hr.resolve_left hid⟩
  · rw [hres]
    obtain ⟨_, _, _, _, rfl, _⟩ := a.accounts.allocate rfl halloc
    refine ⟨fun hu => absurd ?_ hid, fun hr => ?_⟩
    · -- the table is there, whatever became of the import
      rw [← hu.blockTables]
      exact Dict.mem_set.mpr (.inl rfl)
    · obtain ⟨hnodes, hnone, hlt⟩ := hr.resolve_left hid
      rw [← BlockManager.heldTree_numEvictableBlocks hnodes] at hnone
      cases (RadixTrie.evictTimes_of_not_evictable hnone _).symm.trans hrun
      rw [BlockManager.neededFresh_of_unmatched hnodes, List.length_nil, Nat.zero_add] at hle
      exact absurd hlt (Nat.not_lt.mpr hle)

/-! ## Over a run -/

/-- A resumption that returned put the request it allocated among the running ones. -/
theorem resumeDecode_ok {kv' : PagedKVCache η} {r' : Request}
    (h : s.resumeDecode kv handoff = (s', .ok (kv', r'))) :
    ∃ bm r, s.blockManager.allocateLeaving handoff.request none = (bm, .ok r) ∧
      r' = { r with numComputedTokens := handoff.promptTokenIds.length } ∧
      s' = { ({ s with blockManager := bm }.putRequest r.requestId) with
        running := s.running ++ [r'] } := by
  unfold resumeDecode at h
  dsimp only at h
  split at h
  · cases (Prod.mk.inj h).2
  · rename_i r halloc
    split at h
    · cases (Prod.mk.inj h).2
    · obtain ⟨rfl, hr⟩ := Prod.mk.inj h
      cases hr
      exact ⟨_, r, Prod.ext rfl halloc, rfl, rfl⟩

/-- It has the id of the handoff. -/
theorem resumeDecode_ids {kv' : PagedKVCache η} {r : Request}
    (h : s.resumeDecode kv handoff = (s', .ok (kv', r))) :
    r.requestId = handoff.requestId ∧ s'.ids.Perm (handoff.requestId :: s.ids) := by
  obtain ⟨bm, r, halloc, rfl, rfl⟩ := resumeDecode_ok h
  have hid : r.requestId = handoff.requestId := by
    have hret := s.blockManager.allocate_eq_leaving handoff.request none
    rw [halloc] at hret
    exact BlockManager.allocate_requestId hret
  refine ⟨hid, ?_⟩
  simp only [ids, putRequest, List.map_append, List.map_cons, List.map_nil, hid, List.append_assoc]
  exact List.perm_middle

/-- The states that calls which return and resumptions, returning or not, lead to when no
registration clashes with a hash in use. -/
inductive DecodeRun (η : Type) (start : Scheduler) : Scheduler → Prop
  | start : DecodeRun η start start
  | call {s s' : Scheduler} {gone : List Request} (c : SchedulerCall) (h : DecodeRun η start s)
      (hp : c.Permitted) (hm : s.ClashFree c) (hc : s.perform c = .ok (s', gone))
      (hd : s.Deletes gone) : DecodeRun η start s'
  | resume {s s' : Scheduler} {result : Except EngineError (PagedKVCache η × Request)}
      (kv : PagedKVCache η) (handoff : PrefillHandoff η) (h : DecodeRun η start s)
      (hr : s.resumeDecode kv handoff = (s', result)) : DecodeRun η start s'

end Scheduler

/-- A resumption keeps the accounts, up to what a failure loses: its holds on the match if memory
ran out, and its whole stake if the import failed. -/
theorem Accounted.resumeDecode {η : Type} {s s' : Scheduler} {lost : List Stake}
    {leak : NodeId → ℕ} (a : Accounted s lost leak) {kv : PagedKVCache η}
    {handoff : PrefillHandoff η} {result : Except EngineError (PagedKVCache η × Request)}
    (h : s.resumeDecode kv handoff = (s', result)) : ∃ lost' leak', Accounted s' lost' leak' := by
  have hcases := a.accounts.allocateLeaving_cases handoff.request
  cases result with
  | error e =>
    obtain rfl := resumeDecode_error h
    rcases hcases with ⟨-, hres⟩ | ⟨-, t, freed, hrun, ⟨-, e', hres⟩ | ⟨-, bm', r', halloc, hres⟩⟩
    · rw [hres]
      exact ⟨lost, leak, a⟩
    · rw [hres]
      exact ⟨lost, _, a.accounts.outOfMemory handoff.promptTokenIds hrun, a.uncached⟩
    · rw [hres]
      obtain ⟨_, _, -, -, -, -, -, -, -, ha⟩ := a.accounts.allocate rfl halloc
      exact ⟨r'.stake :: lost, leak, ha.perm List.perm_middle.symm, a.uncached⟩
  | ok res =>
    obtain ⟨bm', r', hleaving, hr', rfl⟩ := resumeDecode_ok h
    rw [hr']
    rcases hcases with ⟨-, hres⟩ | ⟨-, t, freed, hrun, ⟨-, e', hres⟩ | ⟨-, bm', r', halloc, hres⟩⟩
    · cases hleaving.symm.trans hres
    · cases hleaving.symm.trans hres
    · cases hleaving.symm.trans hres
      obtain ⟨_, _, -, -, -, -, -, -, -, ha⟩ := a.accounts.allocate rfl halloc
      refine ⟨lost, leak, ha.perm ?_, a.uncached⟩
      rw [stakes, stakes, List.map_append, List.append_assoc]
      exact List.perm_middle.symm

theorem Scheduler.DecodeRun.accounted {η : Type} {cache : CacheConfig} {config : SchedulerConfig}
    {hashFn : Option BlockHash → List Token → BlockHash} {s : Scheduler}
    (h : DecodeRun η (.new cache config hashFn) s) : ∃ lost leak, Accounted s lost leak := by
  induction h with
  | start => exact ⟨[], _, .new cache config hashFn⟩
  | call c _ hp hm hc _ ih =>
    obtain ⟨lost, leak, a⟩ := ih
    obtain ⟨leak', a'⟩ := a.perform hp hm hc
    exact ⟨lost, leak', a'⟩
  | resume kv handoff _ hr ih =>
    obtain ⟨lost, leak, a⟩ := ih
    exact a.resumeDecode hr

/-- In every state that an engine reaches, whatever resumptions failed before, a resumption that
raises leaves the engine as it was exactly if it was refused. -/
theorem resumeDecode_unchanged_iff_of_run {η : Type} {cache : CacheConfig}
    {config : SchedulerConfig} {hashFn : Option BlockHash → List Token → BlockHash}
    {s s' : Scheduler} (h : DecodeRun η (.new cache config hashFn) s) {kv : PagedKVCache η}
    {handoff : PrefillHandoff η} {e : EngineError}
    (hr : s.resumeDecode kv handoff = (s', .error e)) : s.Unchanged s' ↔ s.Refuses handoff := by
  obtain ⟨lost, leak, a⟩ := h.accounted
  exact unchanged_iff a hr

/-- Keys or values of no layer. -/
def KvTensor.none : KvTensor Unit where
  rows := []
  seqLen := 0
  numKvHeads := 1
  headDim := 1
  dtype := .bfloat16
  length_rows := by simp

/-- A cache of one layer. -/
def oneLayer : PagedKVCache Unit where
  nLayers := 1
  numGpuBlocks := 4
  numKvHeads := 1
  headDim := 1
  computeDtype := .bfloat16
  store := { blockSize := 2, slot := fun _ _ => ((), ()) }

/-- A handoff of another model. -/
def foreignHandoff : PrefillHandoff Unit where
  requestId := 0
  promptTokenIds := [1]
  firstTokenId := 1
  samplingParams := {}
  k := .none
  v := .none

theorem resumeDecode_unchanged_iff_of_run_foreign : ∃ (s s' : Scheduler) (e : EngineError),
    DecodeRun Unit (.new smallCache smallConfig digitHash) s ∧
      s.resumeDecode oneLayer foreignHandoff = (s', .error e) ∧
      (s.Unchanged s' ↔ s.Refuses foreignHandoff) :=
  have hraise : (Scheduler.new smallCache smallConfig digitHash).resumeDecode
      oneLayer foreignHandoff = (_, .error .kvMismatch) := rfl
  ⟨_, _, _, .start, hraise, resumeDecode_unchanged_iff_of_run .start hraise⟩

/-- Keys and values of another model: the import raises, and the block table stays. -/
theorem resumeDecode_not_unchanged : ¬ ∀ (η : Type) (cache : CacheConfig) (config : SchedulerConfig)
    (hashFn : Option BlockHash → List Token → BlockHash) (s s' : Scheduler) (kv : PagedKVCache η)
    (handoff : PrefillHandoff η) (e : EngineError), DecodeRun η (.new cache config hashFn) s →
    s.resumeDecode kv handoff = (s', .error e) → s.Unchanged s' := by
  intro h
  have hu := h Unit smallCache smallConfig digitHash _ _ oneLayer foreignHandoff .kvMismatch
    .start rfl
  exact absurd (congrArg (fun d => d.lookup 0) hu.blockTables) (by decide)

end LightServe
