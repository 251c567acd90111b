import LightServe.Scheduling.Admission

/-!
# The watermark

An admission is to leave the watermark in free blocks and in cached blocks that nobody holds.
`can_allocate` counts the evictable blocks, and may count one that the match itself will hold:
the last block of the match, if it is an unheld leaf. An admission that has nothing to spare then
goes below the watermark, unless the trie has an unheld block that is not evictable yet.

## Main definitions

* `RadixTrie.numUnheld` — the cached blocks that nobody holds.
* `BlockManager.Overcounted` — when the admission test is wrong.
* `watermark_kept_iff_of_run` — when an admission keeps the watermark.
-/

namespace LightServe

open Scheduler

/-- How many nodes nobody holds. -/
def RadixTrie.numUnheld (t : RadixTrie) : ℕ :=
  t.byHash.values.countP fun n => (t.node n).refCount = 0

namespace RadixTrie
variable {t t' : RadixTrie}

/-! ## Eviction -/

/-- What eviction frees, nobody held. -/
theorem Keeps.numUnheld_evictTimes {H : NodeId → ℕ} (k : t.Keeps H) {times : ℕ}
    {freed : List BlockId} (h : RadixTrie.evictTimes times t = .ok (t', freed)) :
    freed.length + t'.numUnheld = t.numUnheld := by
  induction times generalizing t freed with
  | zero =>
    cases h
    exact Nat.zero_add _
  | succ times ih =>
    rw [RadixTrie.evictTimes] at h
    rcases k.evictOneLru with ⟨hnone, -⟩ | ⟨v, u, hsome, hv, -, h0, hpruned, ku, -⟩
    · rw [hnone] at h
      cases h
      exact Nat.zero_add _
    · rw [hsome, ok_bind] at h
      obtain ⟨⟨t'', bs⟩, hrun, hret⟩ := bind_eq_ok.mp h
      cases hret
      have hvalues : t.byHash.values.Perm (v :: u.byHash.values) := by
        have hdead : v ∉ u.byHash.values := fun hmem =>
          ((hpruned.live v).mp (ku.toWellFormed.live_iff_mem_values.mpr hmem)).2
            (List.mem_singleton_self v)
        refine (List.perm_ext_iff_of_nodup k.toWellFormed.values_nodup
          (List.nodup_cons.mpr ⟨hdead, ku.toWellFormed.values_nodup⟩)).mpr fun n => ?_
        rw [List.mem_cons, ← k.toWellFormed.live_iff_mem_values,
          ← ku.toWellFormed.live_iff_mem_values, hpruned.live, List.mem_singleton]
        by_cases hn : n = v
        · simp [hn, hv]
        · simp [hn]
      have hu : u.numUnheld + 1 = t.numUnheld := by
        rw [numUnheld, numUnheld, hvalues.countP_eq, List.countP_cons_of_pos]
        · simp only [hpruned.refCount]
        · exact decide_eq_true ((k.refCount_eq hv).trans h0)
      have := ih ku hrun
      rw [List.length_cons]
      omega

/-! ## Evictable blocks of a match -/

/-- On a path only the last node can be evictable. -/
theorem WellFormed.isEvictable_of_isPath (wf : t.WellFormed) {ns : List NodeId} {v : NodeId}
    (h : t.IsPath (ns ++ [v])) : ∀ n ∈ ns, t.isEvictable n = false := by
  intro n hn
  obtain ⟨a, b, rfl⟩ := List.append_of_mem hn
  have hlive := h.live n (List.mem_append_left _ hn)
  refine Bool.eq_false_iff.mpr fun he => ?_
  obtain ⟨w, c, hw⟩ :=
    List.exists_cons_of_ne_nil (List.append_ne_nil_of_right_ne_nil b (List.cons_ne_nil v []))
  rw [List.append_assoc, List.cons_append, hw, List.append_cons] at h
  have hpar := (isPath_append.mp h).2
  rw [List.getLast?_append, List.getLast?_singleton, Option.some_or] at hpar
  exact ((wf.isEvictable_iff hlive).mp he).2 w hpar.1 hpar.2.1

/-- At most one block of a match is evictable. -/
theorem WellFormed.countP_isEvictable (wf : t.WellFormed) {ns : List NodeId} (h : t.IsPath ns) :
    ns.countP t.isEvictable ≤ 1 ∧
      (ns.countP t.isEvictable = 1 ↔ ∃ n ∈ ns, t.isEvictable n = true) := by
  have hle : ns.countP t.isEvictable ≤ 1 := by
    rcases List.eq_nil_or_concat ns with rfl | ⟨a, v, rfl⟩
    · exact Nat.zero_le _
    · rw [List.concat_eq_append] at h ⊢
      have hnone : a.countP t.isEvictable = 0 := List.countP_eq_zero.mpr fun n hn => by
        rw [wf.isEvictable_of_isPath h n hn]
        exact Bool.false_ne_true
      rw [List.countP_append, hnone, Nat.zero_add]
      exact List.countP_le_length
  rw [← List.countP_pos_iff]
  omega

/-- The evictable blocks exceed the unheld blocks outside a match by one at most, and do so if
one of the match is evictable and all of those outside are. -/
theorem WellFormed.numEvictableBlocks_le (wf : t.WellFormed) {ns : List NodeId} (h : t.IsPath ns) :
    t.numEvictableBlocks ≤ (t.byHash.values.countP fun u => (t.node u).refCount = 0 ∧ u ∉ ns) + 1 ∧
    (t.numEvictableBlocks = (t.byHash.values.countP fun u => (t.node u).refCount = 0 ∧ u ∉ ns) + 1 ↔
      (∃ n ∈ ns, t.isEvictable n = true) ∧
        ∀ u ∈ t.byHash.values, (t.node u).refCount = 0 → u ∉ ns → t.isEvictable u = true) := by
  have hunheld : ∀ u, t.isEvictable u = true → (t.node u).refCount = 0 := fun u hu => by
    rw [isEvictable, Bool.and_eq_true, decide_eq_true_eq] at hu
    exact hu.1
  -- the evictable blocks are those of the match and those outside it
  have hsplit : t.numEvictableBlocks = ns.countP t.isEvictable +
      t.byHash.values.countP fun u => t.isEvictable u ∧ u ∉ ns := by
    have hperm : (t.byHash.values.filter (· ∈ ns)).Perm ns := by
      refine (List.perm_ext_iff_of_nodup (wf.values_nodup.filter _) (wf.isPathFrom_nodup h)).mpr
        fun u => ?_
      rw [List.mem_filter, ← wf.live_iff_mem_values, decide_eq_true_eq]
      exact and_iff_right_of_imp (h.live u)
    rw [RadixTrie.numEvictableBlocks, List.countP_eq_countP_filter_add _ _ (· ∈ ns),
      hperm.countP_eq,
      List.countP_filter]
    simp
  -- the unheld blocks outside are the evictable ones and the others
  have hrest : (t.byHash.values.countP fun u => (t.node u).refCount = 0 ∧ u ∉ ns) =
      (t.byHash.values.countP fun u => t.isEvictable u ∧ u ∉ ns) +
        t.byHash.values.countP fun u => ((t.node u).refCount = 0 ∧ u ∉ ns) ∧ ¬ t.isEvictable u := by
    rw [List.countP_eq_countP_filter_add _ _ t.isEvictable, List.countP_filter, List.countP_filter]
    congr 1
    · refine List.countP_congr fun u _ => ?_
      have := hunheld u
      simp only [Bool.and_eq_true, decide_eq_true_eq]
      tauto
    · refine List.countP_congr fun u _ => ?_
      simp
  obtain ⟨hle, hone⟩ := wf.countP_isEvictable h
  have hall : (t.byHash.values.countP fun u =>
        ((t.node u).refCount = 0 ∧ u ∉ ns) ∧ ¬ t.isEvictable u) = 0 ↔
      ∀ u ∈ t.byHash.values, (t.node u).refCount = 0 → u ∉ ns → t.isEvictable u = true := by
    simp [List.countP_eq_zero]
  rw [← hone, ← hall]
  omega

end RadixTrie

/-! ## One admission -/

namespace BlockManager

/-- The watermark is there in free blocks and in cached blocks that nobody holds. -/
def WatermarkKept (bm : BlockManager) : Prop :=
  bm.watermarkBlocks ≤ bm.numFreeBlocks + bm.tree.numUnheld

/-- The admission test has nothing to spare, and it counts a block of the match; outside the
match nothing unheld has gone uncounted. -/
structure Overcounted (bm : BlockManager) (r : Request) : Prop where
  exactly : bm.neededFresh r (bm.matchPrefix r.promptTokenIds) + bm.watermarkBlocks =
    bm.numFreeBlocks + bm.numEvictable
  matched : ∃ n ∈ (bm.tree.matchTokens r.promptTokenIds).nodes, bm.tree.isEvictable n = true
  counted : ∀ u ∈ bm.tree.byHash.values, (bm.tree.node u).refCount = 0 →
    u ∉ (bm.tree.matchTokens r.promptTokenIds).nodes → bm.tree.isEvictable u = true

end BlockManager

namespace Accounts
variable {bm bm' : BlockManager} {stakes : List Stake} {leak : NodeId → ℕ} {r r' : Request}

/-- Holding the match leaves the unheld nodes outside it. -/
theorem numUnheld_heldTree (a : Accounts bm stakes leak) (tokenIds : List Token) :
    (bm.heldTree tokenIds).numUnheld = bm.tree.byHash.values.countP fun u =>
      (bm.tree.node u).refCount = 0 ∧ u ∉ (bm.tree.matchTokens tokenIds).nodes := by
  have hshape := sameShape_heldTree bm tokenIds
  have hheld := a.keeps_heldTree 0 tokenIds
  rw [RadixTrie.numUnheld, hshape.byHash]
  refine List.countP_congr fun u hu => ?_
  have hlive := a.wellFormed.live_iff_mem_values.mpr hu
  rw [decide_eq_true_eq, decide_eq_true_eq, hheld.refCount_eq (hshape.live.mpr hlive),
    a.keeps.refCount_eq hlive, holders_cons, ← List.count_eq_zero]
  show leak u + ((bm.tree.matchTokens tokenIds).nodes.count u + holders stakes u) = 0 ↔ _
  omega

/-- An admission that passed the test goes below the watermark exactly when the test counted
what the match holds. -/
theorem watermarkKept_iff (a : Accounts bm stakes leak)
    (hcan : bm.canAllocate r (bm.matchPrefix r.promptTokenIds) = true)
    (h : bm.allocate r (bm.matchPrefix r.promptTokenIds) = .ok (bm', r')) :
    bm'.WatermarkKept ↔ ¬ bm.Overcounted r := by
  obtain ⟨-, t, freed, hrun, hle, hres⟩ := (bm.allocate_eq_ok_iff r _).mp h
  obtain ⟨rfl, -⟩ := Prod.mk.inj hres
  have htree : (bm.evicted t freed).tree = t := by
    refine BlockManager.tree_setTree fun hnone => ?_
    rw [BlockManager.heldTree_of_none hnone, BlockManager.tree_of_none hnone,
      BlockManager.evictTimes_empty] at hrun
    rw [BlockManager.tree_of_none hnone]
    exact (Prod.mk.inj (Except.ok.inj hrun)).1.symm
  have hunheld := (a.keeps_heldTree 0 r.promptTokenIds).numUnheld_evictTimes hrun
  rw [a.numUnheld_heldTree] at hunheld
  obtain ⟨hcount, hover⟩ :=
    a.wellFormed.numEvictableBlocks_le (a.wellFormed.matchTokens r.promptTokenIds).1
  rw [BlockManager.canAllocate, decide_eq_true_eq, bm.numEvictable_eq] at hcan
  have hkept : BlockManager.WatermarkKept ((bm.evicted t freed).handOut r.requestId
      (BlockManager.matchedBlockIds (bm.matchPrefix r.promptTokenIds))
      (bm.neededFresh r (bm.matchPrefix r.promptTokenIds))) ↔ bm.watermarkBlocks ≤
        (freed.length + bm.numFreeBlocks - bm.neededFresh r (bm.matchPrefix r.promptTokenIds)) +
          t.numUnheld := by
    rw [BlockManager.WatermarkKept, BlockManager.handOut_tree, htree]
    simp only [BlockManager.handOut, BlockManager.evicted, BlockManager.numFreeBlocks,
      List.length_drop, List.length_append, List.length_reverse, BlockManager.setTree]
  have hiff : bm.Overcounted r ↔ bm.neededFresh r (bm.matchPrefix r.promptTokenIds) +
      bm.watermarkBlocks = bm.numFreeBlocks + bm.tree.numEvictableBlocks ∧
      bm.tree.numEvictableBlocks = (bm.tree.byHash.values.countP fun u =>
        (bm.tree.node u).refCount = 0 ∧ u ∉ (bm.tree.matchTokens r.promptTokenIds).nodes) + 1 := by
    rw [hover, ← bm.numEvictable_eq]
    exact ⟨fun ho => ⟨ho.exactly, ho.matched, ho.counted⟩, fun ho => ⟨ho.1, ho.2.1, ho.2.2⟩⟩
  rw [hkept, hiff]
  omega

end Accounts

/-! ## Over a run -/

namespace Scheduler

/-- A step from `s` admits `r`: the waiting pass goes from `q` to `q'`. -/
def Admits (s : Scheduler) (q : WaitingPass) (r : Request) (q' : WaitingPass) : Prop :=
  s.Approves q r ∧ q.enter r (q.blockManager.matchPrefix r.promptTokenIds) = .ok q'

end Scheduler

/-- In a run whose registrations clash with nothing, an admission keeps the watermark exactly
when the admission test did not count what the match holds. -/
theorem watermark_kept_iff_of_run {cache : CacheConfig} {config : SchedulerConfig}
    {hashFn : Option BlockHash → List Token → BlockHash} {s : Scheduler} {live : List RequestId}
    (h : Run ClashFree (.new cache config hashFn) s live) {q q' : WaitingPass}
    {r : Request} (hadmits : s.Admits q r q') :
    q'.blockManager.WatermarkKept ↔ ¬ q.blockManager.Overcounted r := by
  obtain ⟨⟨p, rest, hp, hpre, hq, hadm⟩, henter⟩ := hadmits
  obtain ⟨leak, c⟩ := h.consistent
  obtain ⟨ha, -⟩ := c.waitingSteps hp hpre hq
  obtain ⟨⟨bm, r'⟩, halloc, hret⟩ := bind_eq_ok.mp henter
  cases hret
  rw [admissible, decide_eq_true_eq] at hadm
  exact ha.watermarkKept_iff hadm.2.2.2 halloc

/-- Three blocks of two tokens, one of them kept back. -/
def watermarkCache : CacheConfig where
  blockSize := 2
  numGpuBlocks := 3
  watermarkBlocks := 1
  enablePrefixCaching := true
  blockSize_pos := Nat.two_pos
  watermark_le := by decide

/-- A finished prompt leaves its two blocks in the trie. A prompt that shares the first of them is
admitted with nothing to spare above the watermark, takes the last free block, and leaves the other
cached block unheld. -/
theorem watermark_kept_iff_of_run_hit : ∃ s live q r q',
    Run ClashFree (.new watermarkCache smallConfig digitHash) s live ∧ s.Admits q r q' ∧
      matchedTokens (q.blockManager.matchPrefix r.promptTokenIds) = 2 ∧
      q.blockManager.neededFresh r (q.blockManager.matchPrefix r.promptTokenIds) +
          q.blockManager.watermarkBlocks =
        q.blockManager.numFreeBlocks + q.blockManager.numEvictable ∧
      q'.blockManager.watermarkBlocks = 1 ∧ q'.blockManager.numFreeBlocks = 0 ∧
      q'.blockManager.WatermarkKept ∧ ¬ q.blockManager.Overcounted r := by
  have hkeeps : ((Scheduler.new watermarkCache smallConfig digitHash).performAll ClashFree []
      [.addRequest 0 [1, 1, 1, 1] {}, .schedule, .commit 0 (commitLastToken 1),
        .insertComputedPrefix 0, .freeFinishedRequests, .addRequest 1 [1, 1, 3] {}]).any
      (fun run => run.1.scheduleRunning.toOption.any fun p => p.waiting.head?.any fun r =>
        ((waitingPass run.1.schedulerConfig p).enter r
          (p.blockManager.matchPrefix r.promptTokenIds)).toOption.any fun q' => decide (
            p.output.preempted = [] ∧ admissible run.1.schedulerConfig
              (waitingPass run.1.schedulerConfig p) r (p.blockManager.matchPrefix
                r.promptTokenIds) = true ∧
            matchedTokens (p.blockManager.matchPrefix r.promptTokenIds) = 2 ∧
            p.blockManager.neededFresh r (p.blockManager.matchPrefix r.promptTokenIds) +
              p.blockManager.watermarkBlocks =
                p.blockManager.numFreeBlocks + p.blockManager.numEvictable ∧
            q'.blockManager.watermarkBlocks = 1 ∧ q'.blockManager.numFreeBlocks = 0 ∧
            q'.blockManager.watermarkBlocks ≤
              q'.blockManager.numFreeBlocks + q'.blockManager.tree.numUnheld)) = true := by
    decide +kernel
  simp only [Option.any_eq_true, toOption_eq_some, List.head?_eq_some_iff,
    decide_eq_true_eq] at hkeeps
  obtain ⟨⟨s, live⟩, hrun, p, hp, r, ⟨rest, hw⟩, q', hq', hpre, hadm, hmatched, hexact, hwatermark,
    hfree, hkept⟩ := hkeeps
  have hrun := Run.performAll .start (by simp [SchedulerCall.Permitted, commitLastToken]) hrun
  have hadmits : s.Admits _ r q' := ⟨⟨p, rest, hp, hpre, hw ▸ .refl, hadm⟩, hq'⟩
  exact ⟨s, live, _, r, q', hrun, hadmits, hmatched, hexact, hwatermark, hfree, hkept,
    (watermark_kept_iff_of_run hrun hadmits).mp hkept⟩

/-- A finished prompt leaves its two blocks in the trie. A longer prompt that begins with it
matches both and takes the free block: the test counts the second of them, and the admission
leaves neither a free block nor an unheld one. -/
theorem watermark_not_kept : ¬ ∀ (cache : CacheConfig) (config : SchedulerConfig)
    (hashFn : Option BlockHash → List Token → BlockHash) (s : Scheduler) (live : List RequestId)
    (q : WaitingPass) (r : Request) (q' : WaitingPass),
    Run (fun _ _ => True) (.new cache config hashFn) s live → s.Admits q r q' →
    q'.blockManager.WatermarkKept := by
  intro h
  have hbelow : ((Scheduler.new watermarkCache smallConfig digitHash).performAll
      (fun _ _ => True) []
      [.addRequest 0 [1, 1, 1, 1] {}, .schedule, .commit 0 (commitLastToken 1),
        .insertComputedPrefix 0, .freeFinishedRequests, .addRequest 1 [1, 1, 1, 1, 1] {}]).any
      (fun run => run.1.scheduleRunning.toOption.any fun p => p.waiting.head?.any fun r =>
        ((waitingPass run.1.schedulerConfig p).enter r
          (p.blockManager.matchPrefix r.promptTokenIds)).toOption.any fun q' => decide (
            p.output.preempted = [] ∧ admissible run.1.schedulerConfig
              (waitingPass run.1.schedulerConfig p) r (p.blockManager.matchPrefix
                r.promptTokenIds) = true ∧
            q'.blockManager.numFreeBlocks + q'.blockManager.tree.numUnheld <
              q'.blockManager.watermarkBlocks)) = true := by decide +kernel
  simp only [Option.any_eq_true, toOption_eq_some, List.head?_eq_some_iff,
    decide_eq_true_eq] at hbelow
  obtain ⟨⟨s, live⟩, hrun, p, hp, r, ⟨rest, hw⟩, q', hq', hpre, hadm, hlt⟩ := hbelow
  have hkept := h watermarkCache smallConfig digitHash s live _ r q'
    (Run.performAll .start (by simp [SchedulerCall.Permitted, commitLastToken]) hrun)
    ⟨⟨p, rest, hp, hpre, hw ▸ .refl, hadm⟩, hq'⟩
  exact Nat.not_lt.mpr hkept hlt

end LightServe
