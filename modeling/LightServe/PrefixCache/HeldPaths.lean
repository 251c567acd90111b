import LightServe.PrefixCache.Eviction
import LightServe.PrefixCache.Lookup
import Mathlib.Algebra.Order.BigOperators.Group.List
import Mathlib.Algebra.Order.Ring.Nat

/-!
# Held paths

The trie with its holders told apart: each holds a path from the root, which it acquired or
inserted, and gives back as a whole. Counts then fall along every edge, so what nobody holds is
what has nothing held below it, and repeated eviction takes just that.

## Main definitions

* `HeldTrie` — the trie and the path of every holder.
* `HeldTrie.Run` — what calls lead to that insert some prompts.
* `HeldTrie.EvictsUnheld` — what eviction takes, and what it leaves.
-/

namespace LightServe

/-- The trie, and the path of every holder. -/
structure HeldTrie where
  trie : RadixTrie
  held : List (List NodeId) := []

/-- A call on behalf of one holder, or an eviction. -/
inductive HolderCall
  | acquire (m : PrefixMatch) (numLookupTokens : ℕ)
  | release (path : List NodeId)
  | insert (tokenIds : List Token) (ids : List BlockId) (n : ℕ) (known : List NodeId)
  | evict

namespace HeldTrie

/-- Run a call. An insertion replaces the path it started from, an empty one if the holder is
new; where it cuts that path the holder still holds all of it. -/
def exec (L : HeldTrie) : HolderCall → Except EngineError HeldTrie
  | .acquire m numLookupTokens =>
    .ok { trie := L.trie.acquire m numLookupTokens, held := m.nodes :: L.held }
  | .release path => do
    let trie ← L.trie.release path
    return { trie, held := L.held.erase path }
  | .insert tokenIds ids n known => do
    let (trie, nodes) ← L.trie.insert tokenIds ids n known
    return { trie, held := (known ++ nodes.drop known.length) :: L.held.erase known }
  | .evict => do
    let (trie, _) ← L.trie.evictOneLru
    return { L with trie }

/-- What the trie asks of its callers: acquire a path that is there, give back exactly a path
that is held, and insert computed tokens of a prompt beyond a held path of that prompt. -/
def Permitted (prompts : Set (List Token)) (L : HeldTrie) : HolderCall → Prop
  | .acquire m _ => L.trie.IsPath m.nodes
  | .release path => path ∈ L.held
  | .insert tokenIds _ n known =>
    tokenIds ∈ prompts ∧ n ≤ tokenIds.length ∧ (known = [] ∨ known ∈ L.held) ∧
      L.trie.content known = tokenIds.take (known.length * L.trie.blockSize)
  | .evict => True

def empty (blockSize : ℕ) (hashFn : Option BlockHash → List Token → BlockHash) : HeldTrie where
  trie := { blockSize, hashFn }

/-- What permitted calls lead to. -/
inductive Run (prompts : Set (List Token)) (start : HeldTrie) : HeldTrie → Prop
  | start : Run prompts start start
  | call {L L' : HeldTrie} (c : HolderCall) (h : Run prompts start L) (hp : L.Permitted prompts c)
      (hc : L.exec c = .ok L') : Run prompts start L'

/-- How many holders hold a node. -/
def holds (L : HeldTrie) (n : NodeId) : ℕ := (L.held.map fun path => path.count n).sum

/-! ## What calls preserve -/

/-- The trie counts its holders, each of which holds a path. -/
structure Rooted (prompts : Set (List Token)) (L : HeldTrie) : Prop where
  keeps : L.trie.Keeps L.holds
  isPath : ∀ path ∈ L.held, L.trie.IsPath path
  registers : L.trie.Registers prompts
  /-- The hash is injective on the keys that occur. -/
  injOn : Set.InjOn (fun key => L.trie.hashFn key.1 key.2)
    (blockKeys L.trie.hashFn L.trie.blockSize prompts)

variable {prompts : Set (List Token)} {L L' : HeldTrie}

theorem rooted_empty {blockSize : ℕ} {hashFn : Option BlockHash → List Token → BlockHash}
    (hinj : Set.InjOn (fun key => hashFn key.1 key.2) (blockKeys hashFn blockSize prompts)) :
    (empty blockSize hashFn).Rooted prompts where
  keeps := RadixTrie.keeps_empty blockSize hashFn
  isPath := by simp [empty]
  registers n hn := by simp [empty, RadixTrie.Live] at hn
  injOn := hinj

/-- A path that is put down and taken up counts once. -/
theorem holds_erase {path : List NodeId} (h : path = [] ∨ path ∈ L.held) (n : NodeId) :
    path.count n + ((L.held.erase path).map fun path => path.count n).sum = L.holds n := by
  by_cases hmem : path ∈ L.held
  · exact ((List.perm_cons_erase hmem).map fun path => path.count n).sum_nat.symm
  · obtain rfl := h.resolve_right hmem
    rw [List.erase_of_not_mem hmem, List.count_nil, Nat.zero_add]
    rfl

theorem holds_pos {path : List NodeId} (hpath : path ∈ L.held) {n : NodeId}
    (hn : n ∈ path) : 0 < L.holds n := by
  rw [← L.holds_erase (.inr hpath) n]
  exact Nat.add_pos_left (List.count_pos_iff.mpr hn) _

namespace Rooted

theorem acquire (h : L.Rooted prompts) {m : PrefixMatch} (hm : L.trie.IsPath m.nodes) (k : ℕ) :
    Rooted prompts { trie := L.trie.acquire m k, held := m.nodes :: L.held } where
  keeps := by
    refine (h.keeps.acquire hm.live k).congr fun n => ?_
    rw [holds, List.map_cons, List.sum_cons, Nat.add_comm]
    rfl
  isPath := by
    have hshape := RadixTrie.sameShape_acquire L.trie m k
    exact List.forall_mem_cons.mpr
      ⟨hshape.isPath.mpr hm, fun path hpath => hshape.isPath.mpr (h.isPath path hpath)⟩
  registers := h.registers.sameShape (RadixTrie.sameShape_acquire ..)
  injOn := by
    have hshape := RadixTrie.sameShape_acquire L.trie m k
    rw [hshape.hashFn, hshape.blockSize]
    exact h.injOn

theorem release (h : L.Rooted prompts) {path : List NodeId} (hpath : path ∈ L.held)
    {t' : RadixTrie} (hrun : L.trie.release path = .ok t') :
    Rooted prompts { trie := t', held := L.held.erase path } := by
  have hcount := L.holds_erase (.inr hpath)
  obtain ⟨t, ht, hshape, hkeeps⟩ := @RadixTrie.Keeps.release _ _ h.keeps path fun n => by
    rw [← hcount n]
    exact Nat.le_add_right _ _
  rw [hrun] at ht
  cases ht
  refine ⟨hkeeps.congr fun n => ?_, fun p hp => ?_, h.registers.sameShape hshape, ?_⟩
  · rw [← hcount n, Nat.add_sub_cancel_left]
    rfl
  · exact hshape.isPath.mpr (h.isPath p (List.mem_of_mem_erase hp))
  · rw [hshape.hashFn, hshape.blockSize]
    exact h.injOn

theorem insert (h : L.Rooted prompts) {tokenIds : List Token} {ids : List BlockId} {n : ℕ}
    {known nodes : List NodeId} {t' : RadixTrie}
    (hp : L.Permitted prompts (.insert tokenIds ids n known))
    (hrun : L.trie.insert tokenIds ids n known = .ok (t', nodes)) :
    Rooted prompts
      { trie := t', held := (known ++ nodes.drop known.length) :: L.held.erase known } := by
  obtain ⟨hprompt, hn, hknown, hcontent⟩ := hp
  have wf := h.keeps.toWellFormed
  have hpath : L.trie.IsPath known := by
    rcases hknown with rfl | hmem
    · trivial
    · exact h.isPath known hmem
  have hcf := wf.insertClashFree h.registers h.injOn hprompt ids hn hpath hcontent
  have hcount := L.holds_erase hknown
  rcases h.keeps.insert hpath hn hcf hrun with ⟨-, rfl, rfl⟩ | ⟨-, old, new, rfl, hins, hkeeps⟩
  · have hdrop : (known.take (n / L.trie.blockSize)).drop known.length = [] := by simp
    rw [hdrop, List.append_nil]
    refine ⟨h.keeps.congr fun m => hcount m, ?_, h.registers, h.injOn⟩
    exact List.forall_mem_cons.mpr ⟨hpath, fun p hp => h.isPath p (List.mem_of_mem_erase hp)⟩
  · rw [List.append_assoc, List.drop_left]
    refine ⟨hkeeps.congr fun m => ?_, ?_,
      hins.registers wf hkeeps.toWellFormed h.registers hprompt hn hcontent, ?_⟩
    · rw [holds, List.map_cons, List.sum_cons, List.count_append, ← hcount m]
      omega
    · refine List.forall_mem_cons.mpr ⟨?_, fun p hp => ?_⟩
      · rw [← List.append_assoc]
        exact hins.path
      · exact hins.grown.isPathFrom wf (h.isPath p (List.mem_of_mem_erase hp))
    · show Set.InjOn (fun key => t'.hashFn key.1 key.2) (blockKeys t'.hashFn t'.blockSize prompts)
      rw [hins.grown.hashFn, hins.grown.blockSize]
      exact h.injOn

/-- Nodes that nobody holds can go. -/
theorem pruned (h : L.Rooted prompts) {t' : RadixTrie} {vs : List NodeId}
    (hpruned : L.trie.Pruned vs t') (hkeeps : t'.Keeps L.holds) (hvs : ∀ v ∈ vs, L.holds v = 0) :
    Rooted prompts { L with trie := t' } where
  keeps := hkeeps
  isPath path hpath := by
    refine hpruned.isPath_iff.mpr ⟨h.isPath path hpath, fun n hn hv => ?_⟩
    have : 0 < L.holds n := L.holds_pos hpath hn
    rw [hvs n hv] at this
    exact Nat.lt_irrefl 0 this
  registers n hn := by
    rw [hpruned.parentHash, hpruned.tokenIds, hpruned.hashFn, hpruned.blockSize]
    exact h.registers n ((hpruned.live n).mp hn).1
  injOn := by
    rw [hpruned.hashFn, hpruned.blockSize]
    exact h.injOn

theorem exec (h : L.Rooted prompts) {c : HolderCall} (hp : L.Permitted prompts c)
    (hc : L.exec c = .ok L') : L'.Rooted prompts := by
  cases c with
  | acquire m k =>
    cases hc
    exact h.acquire hp k
  | release path =>
    obtain ⟨t', hrun, hret⟩ := bind_eq_ok.mp hc
    cases hret
    exact h.release hp hrun
  | insert tokenIds ids n known =>
    obtain ⟨⟨t', nodes⟩, hrun, hret⟩ := bind_eq_ok.mp hc
    cases hret
    exact h.insert hp hrun
  | evict =>
    obtain ⟨⟨t', freed⟩, hrun, hret⟩ := bind_eq_ok.mp hc
    cases hret
    rcases h.keeps.evictOneLru with ⟨hnone, -⟩ | ⟨v, u, hsome, -, -, h0, hpruned, hkeeps, -⟩
    · rw [hrun] at hnone
      cases hnone
      exact h
    · rw [hrun] at hsome
      cases hsome
      refine h.pruned hpruned hkeeps fun w hw => ?_
      rw [List.mem_singleton.mp hw]
      exact h0

end Rooted

theorem Run.rooted {start : HeldTrie} (h : Run prompts start L) (hstart : start.Rooted prompts) :
    L.Rooted prompts := by
  induction h with
  | start => exact hstart
  | call c _ hp hc ih => exact ih.exec hp hc

/-! ## Counts fall along edges -/

namespace Rooted

/-- Who holds a node holds its parent. -/
theorem holds_le (h : L.Rooted prompts) {a b : NodeId} (ha : L.trie.Live a)
    (hq : (L.trie.node b).parentHash = some (L.trie.node a).blockHash) : L.holds b ≤ L.holds a := by
  have wf := h.keeps.toWellFormed
  refine List.sum_le_sum fun path hpath => ?_
  by_cases hb : b ∈ path
  · have hmem := wf.parent_mem_path (h.isPath path hpath) hb ha hq
    rw [List.count_eq_one_of_mem (wf.isPathFrom_nodup (h.isPath path hpath)) hb]
    exact List.count_pos_iff.mpr hmem
  · rw [List.count_eq_zero_of_not_mem hb]
    exact Nat.zero_le _

/-- What nobody holds has nothing held below it. -/
theorem holds_eq_zero (h : L.Rooted prompts) {F : Forest NodeId} (hF : L.trie.Shows F)
    {a b : NodeId} (hb : b ∈ F.nodes) (hab : F.Below a b) (h0 : L.holds a = 0) : L.holds b = 0 := by
  induction hab with
  | refl => exact h0
  | @tail c d _ hp ih =>
    have hc := F.parent_mem hb hp
    obtain ⟨hlive, hq⟩ := (hF.parent_iff ((hF.mem_nodes d).mp hb)).mp hp
    exact Nat.eq_zero_of_le_zero ((ih hc) ▸ h.holds_le hlive hq)

/-- What repeated eviction takes off the forest is what nobody holds. -/
theorem mem_reclaimable (h : L.Rooted prompts) {F : Forest NodeId} (hF : L.trie.Shows F)
    {v : NodeId} : v ∈ F.reclaimable (fun n => 0 < L.holds n) ↔
      L.trie.Live v ∧ (L.trie.node v).refCount = 0 := by
  rw [Forest.mem_reclaimable, hF.mem_nodes]
  refine and_congr_right fun hv => ?_
  rw [h.keeps.refCount_eq hv]
  constructor
  · exact fun hall => Nat.eq_zero_of_not_pos (hall v ((hF.mem_nodes v).mpr hv) .refl)
  · exact fun h0 b hb hvb => (h.holds_eq_zero hF hb hvb h0).not_gt

end Rooted

/-! ## Eviction -/

/-- What eviction does to a trie, and what it leaves of it. -/
structure EvictsUnheld (L : HeldTrie) : Prop where
  /-- The nodes of the tree are those of `_by_hash`. -/
  indexed : ∀ n, L.trie.InTree n ↔ n ∈ L.trie.byHash.values
  refCount_le : ∀ a b, L.trie.InTree a → L.trie.Child a b →
    (L.trie.node b).refCount ≤ (L.trie.node a).refCount
  /-- One call takes an unheld childless node that was used least recently, or finds none. -/
  evictOneLru :
    (L.trie.evictOneLru = .ok (L.trie, none) ∧
      ∀ u ∈ L.trie.byHash.values, L.trie.isEvictable u = false) ∨
    ∃ v t', L.trie.evictOneLru = .ok (t', some (L.trie.node v).physicalBlockId) ∧
      v ∈ L.trie.byHash.values ∧ L.trie.isEvictable v = true ∧
      (∀ u ∈ L.trie.byHash.values, L.trie.isEvictable u = true →
        (L.trie.node v).lastUsed ≤ (L.trie.node u).lastUsed) ∧
      ∀ n, n ∈ t'.byHash.values ↔ n ∈ L.trie.byHash.values ∧ n ≠ v
  /-- Repeated calls end, and take the unheld nodes, each once. -/
  exhausts : ∃ t' freed,
    (∀ times, freed.length < times → RadixTrie.evictTimes times L.trie = .ok (t', freed)) ∧
    t'.evictOneLru = .ok (t', none) ∧
    freed.Perm ((L.trie.byHash.values.filter fun n => (L.trie.node n).refCount = 0).map
      fun n => (L.trie.node n).physicalBlockId)
  /-- However many calls are made, a lookup of what a holder's path begins finds its blocks. -/
  matchable : ∀ times t' freed, RadixTrie.evictTimes times L.trie = .ok (t', freed) →
    ∀ path ∈ L.held, ∀ tokenIds, L.trie.content path <+: tokenIds →
      (path.map fun n => (L.trie.node n).physicalBlockId) <+:
        (t'.matchTokens tokenIds).physicalBlockIds

namespace Rooted

/-- One call, in terms of what the source looks at. -/
theorem evictOneLru_cases (h : L.Rooted prompts) :
    (L.trie.evictOneLru = .ok (L.trie, none) ∧
      ∀ u ∈ L.trie.byHash.values, L.trie.isEvictable u = false) ∨
    ∃ v t', L.trie.evictOneLru = .ok (t', some (L.trie.node v).physicalBlockId) ∧
      v ∈ L.trie.byHash.values ∧ L.trie.isEvictable v = true ∧
      (∀ u ∈ L.trie.byHash.values, L.trie.isEvictable u = true →
        (L.trie.node v).lastUsed ≤ (L.trie.node u).lastUsed) ∧
      ∀ n, n ∈ t'.byHash.values ↔ n ∈ L.trie.byHash.values ∧ n ≠ v := by
  have wf := h.keeps.toWellFormed
  have hevictable : ∀ {u}, L.trie.Live u → (L.trie.isEvictable u = true ↔
      L.holds u = 0 ∧ L.trie.Childless u) := fun hu => by
    rw [wf.isEvictable_iff hu, h.keeps.refCount_eq hu]
  simp only [← wf.live_iff_mem_values]
  rcases h.keeps.evictOneLru with
    ⟨hnone, hheld⟩ | ⟨v, t', hsome, hv, hchild, h0, hpruned, hkeeps, hleast⟩
  · refine .inl ⟨hnone, fun u hu => Bool.eq_false_iff.mpr fun he => ?_⟩
    obtain ⟨h0, hchild⟩ := (hevictable hu).mp he
    exact (hheld u hu hchild).ne' h0
  · refine .inr ⟨v, t', hsome, hv, (hevictable hv).mpr ⟨h0, hchild⟩, fun u hu he => ?_, fun n => ?_⟩
    · obtain ⟨h0', hchild'⟩ := (hevictable hu).mp he
      exact hleast u hu hchild' h0'
    · rw [← hkeeps.toWellFormed.live_iff_mem_values, hpruned.live, List.mem_singleton]

/-- Repeated calls take exactly the unheld nodes. -/
theorem exhausts (h : L.Rooted prompts) : ∃ t' freed,
    (∀ times, freed.length < times → RadixTrie.evictTimes times L.trie = .ok (t', freed)) ∧
    t'.evictOneLru = .ok (t', none) ∧
    freed.Perm ((L.trie.byHash.values.filter fun n => (L.trie.node n).refCount = 0).map
      fun n => (L.trie.node n).physicalBlockId) := by
  have wf := h.keeps.toWellFormed
  obtain ⟨F, hF⟩ := wf.exists_shows
  obtain ⟨t', vs, G, hrun, hev, hG, -, hkeeps, hdone⟩ :=
    h.keeps.evictTimes hF ((F.reclaimable fun n => 0 < L.holds n).card + 1)
  have hcard := hev.card_add
  obtain ⟨hlt, hheld⟩ := hdone.resolve_left (by omega)
  obtain ⟨hnodup, hset⟩ := hev.toFinset_eq hheld
  refine ⟨t', _, fun times ht => RadixTrie.evictTimes_of_lt hrun ?_ ht, ?_, List.Perm.map _ ?_⟩
  · rw [List.length_map]
    exact hlt
  · rcases hkeeps.evictOneLru with ⟨hnone, -⟩ | ⟨v, _, -, hv, hchild, h0, -⟩
    · exact hnone
    · exact absurd (hheld v (hG.leaf_iff.mpr ⟨hv, hchild⟩)) (by omega)
  · refine (List.perm_ext_iff_of_nodup hnodup (wf.values_nodup.filter _)).mpr fun v => ?_
    rw [← List.mem_toFinset, hset, h.mem_reclaimable hF, List.mem_filter,
      ← wf.live_iff_mem_values, decide_eq_true_eq]

/-- A lookup finds what is held, in the trie and in what repeated calls leave of it. -/
theorem matchable (h : L.Rooted prompts) {times : ℕ} {t' : RadixTrie} {freed : List BlockId}
    (hrun : RadixTrie.evictTimes times L.trie = .ok (t', freed)) {path : List NodeId}
    (hpath : path ∈ L.held) {tokenIds : List Token} (htokens : L.trie.content path <+: tokenIds) :
    (path.map fun n => (L.trie.node n).physicalBlockId) <+:
      (t'.matchTokens tokenIds).physicalBlockIds := by
  obtain ⟨F, hF⟩ := h.keeps.toWellFormed.exists_shows
  obtain ⟨u, vs, G, hrun', hev, -, hpruned, hkeeps, -⟩ := h.keeps.evictTimes hF times
  rw [hrun] at hrun'
  cases hrun'
  have hrooted := h.pruned hpruned hkeeps fun v hv => Nat.eq_zero_of_not_pos (hev.not_held v hv)
  have hmatch : path <+: (t'.matchTokens tokenIds).nodes := by
    refine hkeeps.toWellFormed.prefix_matchTokens (hrooted.isPath path hpath) ?_ ?_
    · cases path with
      | nil => exact Nat.zero_le _
      | cons n path =>
        have hlen := h.keeps.toWellFormed.length_content (h.isPath _ hpath)
        have hpos := h.registers.blockSize_pos ((h.isPath _ hpath).live n List.mem_cons_self)
        rw [hpruned.blockSize, Nat.le_div_iff_mul_le hpos, ← hlen]
        exact htokens.length_le
    · rw [hpruned.content]
      exact htokens
  rw [RadixTrie.physicalBlockIds_matchTokens]
  simp only [← hpruned.physicalBlockId]
  exact hmatch.map _

theorem evictsUnheld (h : L.Rooted prompts) : L.EvictsUnheld where
  indexed n := by
    have wf := h.keeps.toWellFormed
    rw [← wf.live_iff_mem_values]
    exact ⟨wf.live_of_inTree, wf.inTree_of_live⟩
  refCount_le a b ha hc := by
    have wf := h.keeps.toWellFormed
    have hlive := wf.live_of_inTree ha
    obtain ⟨k, hk⟩ := id hc
    rw [h.keeps.refCount_eq hlive, h.keeps.refCount_eq (wf.live_of_child hlive hc)]
    exact h.holds_le hlive ((wf.children_iff hlive).mp hk).2
  evictOneLru := h.evictOneLru_cases
  exhausts := h.exhausts
  matchable _ _ _ hrun _ hpath _ htokens := h.matchable hrun hpath htokens

end Rooted

/-- Eviction takes exactly what nobody holds: with a hash injective on the keys of the prompts
that are inserted, whatever calls led to the trie. -/
theorem evictsUnheld_of_run {blockSize : ℕ} {hashFn : Option BlockHash → List Token → BlockHash}
    (hinj : Set.InjOn (fun key => hashFn key.1 key.2) (blockKeys hashFn blockSize prompts))
    (h : Run prompts (empty blockSize hashFn) L) : L.EvictsUnheld :=
  (h.rooted (rooted_empty hinj)).evictsUnheld

/-- A block's hash is how deep it is. -/
def depthHash (q : Option BlockHash) (_ : List Token) : BlockHash := q.elim 0 Nat.succ

/-- One prompt of two blocks, hashed by their depth: a holder inserts both, a second one acquires
the first, and the first gives back its path. -/
theorem evictsUnheld_of_run_three : ∃ L : HeldTrie, L.held = [[0]] ∧ L.EvictsUnheld := by
  have hinj : Set.InjOn (fun key => depthHash key.1 key.2) (blockKeys depthHash 1 {[5, 6]}) := by
    have hkeys : ∀ key ∈ blockKeys depthHash 1 {[5, 6]},
        key = (none, [5]) ∨ key = (some 0, [6]) := by
      rintro ⟨q, block⟩ ⟨prompt, rfl, before, after, hblocks, hq⟩
      have htwo : [[5], [6]] = before ++ block :: after := hblocks
      match before with
      | [] =>
        rw [List.nil_append, List.cons.injEq] at htwo
        exact .inl (Prod.ext hq htwo.1.symm)
      | [first] =>
        rw [List.singleton_append, List.cons.injEq, List.cons.injEq] at htwo
        exact .inr (Prod.ext hq htwo.2.1.symm)
      | _ :: _ :: _ =>
        have hlen := congrArg List.length htwo
        simp at hlen
    intro a ha b hb hab
    rcases hkeys a ha with rfl | rfl <;> rcases hkeys b hb with rfl | rfl <;>
      first | rfl | exact absurd hab (by decide)
  have hinsert : Run {[5, 6]} (empty 1 depthHash) _ :=
    .call (.insert [5, 6] [0, 1] 2 []) .start ⟨rfl, by decide, .inl rfl, rfl⟩ rfl
  have hacquire : Run {[5, 6]} (empty 1 depthHash) _ :=
    .call (.acquire ⟨[0], 1, [0]⟩ 1) hinsert ⟨rfl, rfl, trivial⟩ rfl
  have hrelease : Run {[5, 6]} (empty 1 depthHash) _ :=
    .call (.release [0, 1]) hacquire (List.mem_cons_of_mem _ (List.mem_singleton_self _)) rfl
  exact ⟨_, rfl, evictsUnheld_of_run hinj hrelease⟩

end HeldTrie

end LightServe
