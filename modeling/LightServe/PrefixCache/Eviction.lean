import LightServe.Lib.Except
import LightServe.Lib.Forest
import LightServe.PrefixCache.Holds

/-!
# Eviction

`evict_one_lru` removes one childless node nobody holds, or finds none. In a well-formed
trie it never fails, and repeating it is the leaf reclamation of `Lib.Forest`: it takes
exactly the nodes with no held node at or below them.

## Main definitions

* `RadixTrie.Pruned` — a trie without some of its nodes.
* `RadixTrie.Removed` — what one removal changes.
* `RadixTrie.Shows` — the forest a well-formed trie is.
* `RadixTrie.Keeps.evictOneLru` — what one call does.
* `RadixTrie.Keeps.evictTimes` — what repeated calls do.
-/

namespace LightServe

namespace RadixTrie

/-- `t'` is `t` without the nodes `vs`; nothing else about a node changed. -/
structure Pruned (t : RadixTrie) (vs : List NodeId) (t' : RadixTrie) : Prop where
  blockSize : t'.blockSize = t.blockSize
  hashFn : t'.hashFn = t.hashFn
  next : t'.next = t.next
  live : ∀ n, t'.Live n ↔ t.Live n ∧ n ∉ vs
  blockHash : ∀ n, (t'.node n).blockHash = (t.node n).blockHash
  parentHash : ∀ n, (t'.node n).parentHash = (t.node n).parentHash
  tokenIds : ∀ n, (t'.node n).tokenIds = (t.node n).tokenIds
  physicalBlockId : ∀ n, (t'.node n).physicalBlockId = (t.node n).physicalBlockId
  refCount : ∀ n, (t'.node n).refCount = (t.node n).refCount
  blocks : t.blocks.Perm ((vs.map fun n => (t.node n).physicalBlockId) ++ t'.blocks)

namespace Pruned
variable {t t' t'' : RadixTrie} {vs ws : List NodeId}

theorem refl (t : RadixTrie) : t.Pruned [] t := by
  constructor <;> first | (intros; rfl) | simp

theorem trans (h : t.Pruned vs t') (h' : t'.Pruned ws t'') : t.Pruned (vs ++ ws) t'' where
  blockSize := h'.blockSize.trans h.blockSize
  hashFn := h'.hashFn.trans h.hashFn
  next := h'.next.trans h.next
  live n := by rw [h'.live, h.live, List.mem_append]; tauto
  blockHash n := (h'.blockHash n).trans (h.blockHash n)
  parentHash n := (h'.parentHash n).trans (h.parentHash n)
  tokenIds n := (h'.tokenIds n).trans (h.tokenIds n)
  physicalBlockId n := (h'.physicalBlockId n).trans (h.physicalBlockId n)
  refCount n := (h'.refCount n).trans (h.refCount n)
  blocks := by
    refine h.blocks.trans ?_
    rw [List.map_append, List.append_assoc]
    refine List.Perm.append_left _ (h'.blocks.trans ?_)
    simp only [h.physicalBlockId]
    exact List.Perm.refl _

/-- A chain that avoids the removed nodes stays a chain. -/
theorem isPathFrom_iff (h : t.Pruned vs t') {ns : List NodeId} {q : Option BlockHash} :
    t'.IsPathFrom q ns ↔ t.IsPathFrom q ns ∧ ∀ n ∈ ns, n ∉ vs := by
  induction ns generalizing q with
  | nil => simp
  | cons n ns ih =>
    rw [isPathFrom_cons, isPathFrom_cons, h.live, h.parentHash, h.blockHash, ih,
      List.forall_mem_cons]
    tauto

theorem isPath_iff (h : t.Pruned vs t') {ns : List NodeId} :
    t'.IsPath ns ↔ t.IsPath ns ∧ ∀ n ∈ ns, n ∉ vs := h.isPathFrom_iff

theorem content (h : t.Pruned vs t') (ns : List NodeId) : t'.content ns = t.content ns := by
  simp only [RadixTrie.content, h.tokenIds]

end Pruned

/-- A node nothing in the tree hangs below. -/
def Childless (t : RadixTrie) (v : NodeId) : Prop :=
  ∀ n, t.Live n → (t.node n).parentHash ≠ some (t.node v).blockHash

theorem lookup_eq_none_of_isEmpty {κ ν : Type} [DecidableEq κ] {d : Dict κ ν}
    (h : d.entries.isEmpty = true) (k : κ) : d.lookup k = none := by
  rw [AList.lookup_eq_none, AList.mem_keys, AList.keys, List.isEmpty_iff.mp h]
  simp

/-- What `isEvictable` tests, in a well-formed trie. -/
theorem WellFormed.isEvictable_iff {t : RadixTrie} (wf : t.WellFormed) {v : NodeId}
    (hv : t.Live v) : t.isEvictable v = true ↔ (t.node v).refCount = 0 ∧ t.Childless v := by
  simp only [isEvictable, Bool.and_eq_true, decide_eq_true_eq]
  refine and_congr_right fun _ => ⟨fun hempty n hn hp => ?_, fun hchild => ?_⟩
  · have hlook := (wf.children_iff hv).mpr ⟨hn, hp⟩
    rw [lookup_eq_none_of_isEmpty hempty] at hlook
    cases hlook
  · rw [List.isEmpty_iff]
    refine List.eq_nil_iff_forall_not_mem.mpr fun e he => ?_
    obtain ⟨h, n⟩ := e
    obtain ⟨hn, hp⟩ := (wf.children_iff hv).mp (AList.mem_lookup_iff.mpr he)
    exact hchild n (wf.live_of_lookup hn) hp

/-! ## One node less -/

/-- What a removal changes: `v` is in no dictionary any more. -/
structure Removed (t t' : RadixTrie) (v : NodeId) : Prop where
  blockHash : ∀ n, (t'.node n).blockHash = (t.node n).blockHash
  parentHash : ∀ n, (t'.node n).parentHash = (t.node n).parentHash
  tokenIds : ∀ n, (t'.node n).tokenIds = (t.node n).tokenIds
  physicalBlockId : ∀ n, (t'.node n).physicalBlockId = (t.node n).physicalBlockId
  refCount : ∀ n, (t'.node n).refCount = (t.node n).refCount
  children : ∀ p h, t.Live p → (t'.node p).children.lookup h =
    if (t.node v).parentHash = some (t.node p).blockHash ∧ h = (t.node v).blockHash then none
    else (t.node p).children.lookup h
  roots : ∀ h, t'.roots.lookup h =
    if (t.node v).parentHash = none ∧ h = (t.node v).blockHash then none else t.roots.lookup h
  byHash : t'.byHash = t.byHash.erase (t.node v).blockHash
  next : t'.next = t.next
  blockSize : t'.blockSize = t.blockSize
  hashFn : t'.hashFn = t.hashFn

section Remove
variable {t : RadixTrie} {v : NodeId}

/-- A root is taken from the roots. -/
theorem WellFormed.remove_root (wf : t.WellFormed) (hv : t.Live v)
    (hq : (t.node v).parentHash = none) : ∃ t', t.remove v = .ok t' ∧ t.Removed t' v := by
  have hmem : (t.node v).blockHash ∈ t.byHash := AList.lookup_isSome.mp (by rw [hv]; rfl)
  have hroot : (t.node v).blockHash ∈ t.roots :=
    AList.lookup_isSome.mp (by rw [wf.roots_iff.mpr ⟨hv, hq⟩]; rfl)
  refine ⟨{ t with
    roots := t.roots.erase (t.node v).blockHash
    byHash := t.byHash.erase (t.node v).blockHash }, ?_, ?_⟩
  · simp only [RadixTrie.remove, hq, if_pos hroot]
    exact if_pos hmem
  · refine ⟨fun _ => rfl, fun _ => rfl, fun _ => rfl, fun _ => rfl, fun _ => rfl, fun p h _ => ?_,
      fun h => ?_, rfl, rfl, rfl, rfl⟩
    · simp [hq]
    · by_cases hh : h = (t.node v).blockHash
      · subst hh
        simp [hq]
      · simp [hh, AList.lookup_erase_ne]

/-- Any other node is taken from the children of its parent. -/
theorem WellFormed.remove_child (wf : t.WellFormed) (hv : t.Live v) {q : BlockHash}
    (hq : (t.node v).parentHash = some q) : ∃ t', t.remove v = .ok t' ∧ t.Removed t' v := by
  have hmem : (t.node v).blockHash ∈ t.byHash := AList.lookup_isSome.mp (by rw [hv]; rfl)
  obtain ⟨p, hp, -⟩ := wf.parent_lt hv hq
  have hkid : (t.node v).blockHash ∈ (t.node p).children :=
    AList.lookup_isSome.mp (by rw [(wf.children_iff hp).mpr ⟨hv, hq⟩]; rfl)
  set u := t.modify p fun node =>
    { node with children := node.children.erase (t.node v).blockHash } with hu
  have hfields : ∀ n, (u.node n).blockHash = (t.node n).blockHash ∧
      (u.node n).parentHash = (t.node n).parentHash ∧ (u.node n).tokenIds = (t.node n).tokenIds ∧
      (u.node n).physicalBlockId = (t.node n).physicalBlockId ∧
      (u.node n).refCount = (t.node n).refCount := by
    intro n
    by_cases hn : n = p
    · subst hn
      simp [hu, modify]
    · simp [hu, modify, hn]
  refine ⟨{ u with byHash := t.byHash.erase (t.node v).blockHash }, ?_,
    fun n => (hfields n).1, fun n => (hfields n).2.1, fun n => (hfields n).2.2.1,
    fun n => (hfields n).2.2.2.1, fun n => (hfields n).2.2.2.2, fun p' h hp' => ?_,
    fun h => by simp [hu, modify, hq], rfl, rfl, rfl, rfl⟩
  · simp only [RadixTrie.remove, hq, hp, if_pos hkid]
    exact if_pos hmem
  · by_cases hpp : p' = p
    · subst hpp
      by_cases hh : h = (t.node v).blockHash
      · subst hh
        simp [hu, modify, hq, wf.hash_eq hp]
      · simp [hu, modify, hh, AList.lookup_erase_ne]
    · have hne : q ≠ (t.node p').blockHash := by
        rintro rfl
        exact hpp (Option.some.inj (hp'.symm.trans hp))
      simp [hu, modify, hpp, hq, hne]

namespace Removed
variable {t' : RadixTrie} {k q : BlockHash} {n p : NodeId}

theorem lookup (hr : t.Removed t' v) : t'.byHash.lookup k = some n ↔
    t.byHash.lookup k = some n ∧ k ≠ (t.node v).blockHash := by
  rw [hr.byHash]
  by_cases hk : k = (t.node v).blockHash
  · subst hk
    simp
  · simp [hk, AList.lookup_erase_ne]

theorem roots_iff (hr : t.Removed t' v) (wf : t.WellFormed) (hv : t.Live v) :
    t'.roots.lookup k = some n ↔
      t'.byHash.lookup k = some n ∧ (t'.node n).parentHash = none := by
  rw [hr.roots, hr.lookup, hr.parentHash]
  by_cases hk : k = (t.node v).blockHash
  · subst hk
    by_cases hq : (t.node v).parentHash = none
    · simp [hq]
    · simp only [hq, false_and, if_false, ne_eq, not_true_eq_false, and_false, iff_false]
      intro hroot
      obtain ⟨hn, hnq⟩ := wf.roots_iff.mp hroot
      exact hq (Option.some.inj (hn.symm.trans hv) ▸ hnq)
  · simp [hk, wf.roots_iff]

theorem children_iff (hr : t.Removed t' v) (wf : t.WellFormed) (hv : t.Live v)
    (hpq : t'.byHash.lookup q = some p) : (t'.node p).children.lookup k = some n ↔
      t'.byHash.lookup k = some n ∧ (t'.node n).parentHash = some q := by
  have hp := (hr.lookup.mp hpq).1
  rw [hr.children p k (wf.live_of_lookup hp), hr.lookup, hr.parentHash, wf.hash_eq hp]
  by_cases hk : k = (t.node v).blockHash
  · subst hk
    by_cases hq : (t.node v).parentHash = some q
    · simp [hq]
    · simp only [hq, false_and, if_false, ne_eq, not_true_eq_false, and_false, iff_false]
      intro hchild
      obtain ⟨hn, hnq⟩ := (wf.children_iff hp).mp hchild
      exact hq (Option.some.inj (hn.symm.trans hv) ▸ hnq)
  · simp [hk, wf.children_iff hp]

theorem wellFormed (hr : t.Removed t' v) (wf : t.WellFormed) (hv : t.Live v)
    (hchild : t.Childless v) : t'.WellFormed where
  hash_eq {k n} hn := (hr.blockHash n).trans (wf.hash_eq (hr.lookup.mp hn).1)
  lt_next {k n} hn := hr.next ▸ wf.lt_next (hr.lookup.mp hn).1
  roots_iff := hr.roots_iff wf hv
  children_iff := hr.children_iff wf hv
  parent_lt {k n q} hn hq := by
    rw [hr.parentHash] at hq
    have hold := (hr.lookup.mp hn).1
    obtain ⟨p, hp, hlt⟩ := wf.parent_lt hold hq
    refine ⟨p, hr.lookup.mpr ⟨hp, ?_⟩, hlt⟩
    rintro rfl
    exact hchild n (wf.live_of_lookup hold) hq
  hash_def {k n} hn := by
    rw [hr.hashFn, hr.parentHash, hr.tokenIds]
    exact wf.hash_def (hr.lookup.mp hn).1
  width {k n} hn := by
    rw [hr.blockSize, hr.tokenIds]
    exact wf.width (hr.lookup.mp hn).1

theorem pruned (hr : t.Removed t' v) (wf : t.WellFormed) (hv : t.Live v) :
    t.Pruned [v] t' where
  blockSize := hr.blockSize
  hashFn := hr.hashFn
  next := hr.next
  live n := by
    rw [Live, hr.lookup, hr.blockHash, List.mem_singleton]
    refine and_congr_right fun hn => not_congr ?_
    exact ⟨fun he => wf.eq_of_hash_eq hn hv he, fun he => by rw [he]⟩
  blockHash := hr.blockHash
  parentHash := hr.parentHash
  tokenIds := hr.tokenIds
  physicalBlockId := hr.physicalBlockId
  refCount := hr.refCount
  blocks := by
    have hperm := (Dict.values_perm_erase hv).map fun n => (t.node n).physicalBlockId
    simp only [RadixTrie.blocks, hr.byHash, hr.physicalBlockId]
    simpa using hperm

end Removed

/-- Removing a childless node of a well-formed trie succeeds and removes just it. -/
theorem WellFormed.remove (wf : t.WellFormed) (hv : t.Live v) (hchild : t.Childless v) :
    ∃ t', t.remove v = .ok t' ∧ t'.WellFormed ∧ t.Pruned [v] t' := by
  obtain ⟨t', ht', hr⟩ : ∃ t', t.remove v = .ok t' ∧ t.Removed t' v := by
    cases hq : (t.node v).parentHash with
    | none => exact wf.remove_root hv hq
    | some q => exact wf.remove_child hv hq
  exact ⟨t', ht', hr.wellFormed wf hv hchild, hr.pruned wf hv⟩

end Remove

/-- One call of `evict_one_lru`: nothing is evictable, or the least recently used of the
unheld childless nodes is gone and its block returned. -/
theorem Keeps.evictOneLru {t : RadixTrie} {H : NodeId → ℕ} (k : t.Keeps H) :
    (t.evictOneLru = .ok (t, none) ∧ ∀ v, t.Live v → t.Childless v → 0 < H v) ∨
    ∃ v t', t.evictOneLru = .ok (t', some (t.node v).physicalBlockId) ∧
      t.Live v ∧ t.Childless v ∧ H v = 0 ∧ t.Pruned [v] t' ∧ t'.Keeps H ∧
      ∀ u, t.Live u → t.Childless u → H u = 0 → (t.node v).lastUsed ≤ (t.node u).lastUsed := by
  have wf := k.toWellFormed
  have hcand : ∀ {v}, v ∈ t.byHash.values.filter t.isEvictable ↔
      t.Live v ∧ t.Childless v ∧ H v = 0 := by
    intro v
    rw [List.mem_filter, ← wf.live_iff_mem_values]
    refine and_congr_right fun hv => ?_
    rw [wf.isEvictable_iff hv, k.refCount_eq hv]
    tauto
  cases hmin : t.leastRecentlyUsed (t.byHash.values.filter t.isEvictable) with
  | none =>
    refine .inl ⟨by simp [RadixTrie.evictOneLru, hmin], fun v hv hc => ?_⟩
    have hnil := List.argmin_eq_none.mp hmin
    have hnot := mt hcand.mpr (hnil ▸ List.not_mem_nil : v ∉ _)
    exact Nat.pos_of_ne_zero fun h0 => hnot ⟨hv, hc, h0⟩
  | some v =>
    obtain ⟨hv, hc, h0⟩ := hcand.mp (List.argmin_mem hmin)
    obtain ⟨t', ht', wf', hpruned⟩ := wf.remove hv hc
    refine .inr ⟨v, t', ?_, hv, hc, h0, hpruned, ⟨wf', fun {n} hn => ?_, fun {n} hn => ?_⟩, ?_⟩
    · simp only [RadixTrie.evictOneLru, hmin, ht']
      rfl
    · rw [hpruned.refCount]
      exact k.refCount_eq ((hpruned.live n).mp hn).1
    · refine (hpruned.live n).mpr ⟨k.live_of_held hn, ?_⟩
      rw [List.mem_singleton]
      rintro rfl
      omega
    · intro u hu huc hu0
      have hle := List.not_lt_of_mem_argmin (hcand.mpr ⟨hu, huc, hu0⟩) hmin
      omega

/-! ## The forest of a trie -/

/-- `F` is the forest that `t` is. -/
structure Shows (t : RadixTrie) (F : Forest NodeId) : Prop where
  mem_nodes : ∀ n, n ∈ F.nodes ↔ t.Live n
  parent_iff : ∀ {n p}, t.Live n → (F.parent n = some p ↔
    t.Live p ∧ (t.node n).parentHash = some (t.node p).blockHash)

/-- A well-formed trie shows a forest; ids serve as ranks. -/
theorem WellFormed.exists_shows {t : RadixTrie} (wf : t.WellFormed) : ∃ F, t.Shows F := by
  have hparent : ∀ {n p}, ((t.node n).parentHash.bind t.byHash.lookup = some p) ↔
      t.Live p ∧ (t.node n).parentHash = some (t.node p).blockHash := by
    intro n p
    rw [Option.bind_eq_some_iff]
    constructor
    · rintro ⟨q, hq, hp⟩
      exact ⟨wf.live_of_lookup hp, by rw [hq, wf.hash_eq hp]⟩
    · rintro ⟨hp, hq⟩
      exact ⟨_, hq, hp⟩
  refine ⟨{
    nodes := t.byHash.values.toFinset
    parent := fun n => (t.node n).parentHash.bind t.byHash.lookup
    rank := id
    parent_mem := ?_
    rank_lt := ?_ }, ⟨fun n => ?_, fun _ => hparent⟩⟩
  · intro a b _ hp
    exact List.mem_toFinset.mpr (wf.live_iff_mem_values.mp (hparent.mp hp).1)
  · intro a b hb hp
    obtain ⟨ha, hq⟩ := hparent.mp hp
    obtain ⟨p, hp', hlt⟩ :=
      wf.parent_lt (wf.live_iff_mem_values.mpr (List.mem_toFinset.mp hb)) hq
    exact Option.some.inj (hp'.symm.trans ha) ▸ hlt
  · rw [List.mem_toFinset, wf.live_iff_mem_values]

namespace Shows
variable {t t' : RadixTrie} {F : Forest NodeId}

theorem leaf_iff (h : t.Shows F) {v : NodeId} : F.Leaf v ↔ t.Live v ∧ t.Childless v := by
  simp only [Forest.Leaf, h.mem_nodes]
  refine and_congr_right fun hv => forall₂_congr fun n hn => ?_
  rw [ne_eq, h.parent_iff hn]
  tauto

theorem congr (h : t.Shows F) (hs : t.SameShape t') : t'.Shows F where
  mem_nodes n := by rw [hs.live]; exact h.mem_nodes n
  parent_iff hn := by rw [hs.live, hs.parentHash, hs.blockHash]; exact h.parent_iff (hs.live.mp hn)

theorem erase (h : t.Shows F) {v : NodeId} (hl : F.Leaf v) (hp : t.Pruned [v] t') :
    t'.Shows (F.erase hl) where
  mem_nodes n := by
    rw [hp.live, Forest.erase, Finset.mem_erase, h.mem_nodes, List.mem_singleton]
    tauto
  parent_iff {n p} hn := by
    have hn' := (hp.live n).mp hn
    rw [hp.live, hp.parentHash, hp.blockHash]
    show F.parent n = some p ↔ _
    rw [h.parent_iff hn'.1, List.mem_singleton]
    constructor
    · rintro ⟨hlive, hq⟩
      refine ⟨⟨hlive, ?_⟩, hq⟩
      rintro rfl
      exact (h.leaf_iff.mp hl).2 n hn'.1 hq
    · rintro ⟨⟨hlive, -⟩, hq⟩
      exact ⟨hlive, hq⟩

end Shows

/-! ## The tree as the children dictionaries show it -/

/-- `b` hangs directly below `a`. -/
def Child (t : RadixTrie) (a b : NodeId) : Prop := ∃ h, (t.node a).children.lookup h = some b

/-- `b` is `a` or hangs below it. -/
def AtOrBelow (t : RadixTrie) (a b : NodeId) : Prop := Relation.ReflTransGen t.Child a b

/-- Hanging in the tree, below one of the roots. -/
def InTree (t : RadixTrie) (n : NodeId) : Prop :=
  ∃ h r, t.roots.lookup h = some r ∧ t.AtOrBelow r n

theorem WellFormed.live_of_child {t : RadixTrie} (wf : t.WellFormed) {a b : NodeId}
    (ha : t.Live a) (h : t.Child a b) : t.Live b := by
  obtain ⟨k, hk⟩ := h
  exact wf.live_of_lookup ((wf.children_iff ha).mp hk).1

theorem WellFormed.live_of_atOrBelow {t : RadixTrie} (wf : t.WellFormed) {a b : NodeId}
    (ha : t.Live a) (h : t.AtOrBelow a b) : t.Live b := by
  induction h with
  | refl => exact ha
  | tail _ hc ih => exact wf.live_of_child ih hc

/-- In a well-formed trie the tree is what `_by_hash` indexes. -/
theorem WellFormed.live_of_inTree {t : RadixTrie} (wf : t.WellFormed) {n : NodeId}
    (h : t.InTree n) : t.Live n := by
  obtain ⟨k, r, hr, hbelow⟩ := h
  exact wf.live_of_atOrBelow (wf.live_of_lookup (wf.roots_iff.mp hr).1) hbelow

theorem WellFormed.inTree_of_live {t : RadixTrie} (wf : t.WellFormed) {n : NodeId}
    (hn : t.Live n) : t.InTree n := by
  induction n using Nat.strong_induction_on with
  | _ n ih =>
    cases hq : (t.node n).parentHash with
    | none => exact ⟨_, n, wf.roots_iff.mpr ⟨hn, hq⟩, .refl⟩
    | some q =>
      obtain ⟨p, hp, hlt⟩ := wf.parent_lt hn hq
      obtain ⟨k, r, hr, hbelow⟩ := ih p hlt (wf.live_of_lookup hp)
      exact ⟨k, r, hr, hbelow.tail ⟨_, (wf.children_iff hp).mpr ⟨hn, hq⟩⟩⟩

/-- Being below in the forest is hanging below in the tree. -/
theorem Shows.below_iff {t : RadixTrie} {F : Forest NodeId} (hF : t.Shows F)
    (wf : t.WellFormed) {a b : NodeId} (ha : t.Live a) :
    (t.Live b ∧ F.Below a b) ↔ t.AtOrBelow a b := by
  constructor
  · rintro ⟨hb, h⟩
    induction h with
    | refl => exact .refl
    | @tail c d _ hp ih =>
      obtain ⟨hc, hq⟩ := (hF.parent_iff hb).mp hp
      exact (ih hc).tail ⟨_, (wf.children_iff hc).mpr ⟨hb, hq⟩⟩
  · intro h
    induction h with
    | refl => exact ⟨ha, .refl⟩
    | tail _ hchild ih =>
      obtain ⟨hc, hbelow⟩ := ih
      have hd := wf.live_of_child hc hchild
      obtain ⟨k, hk⟩ := hchild
      exact ⟨hd, hbelow.tail ((hF.parent_iff hd).mpr ⟨hc, ((wf.children_iff hc).mp hk).2⟩)⟩

theorem SameShape.atOrBelow {t t' : RadixTrie} (h : t.SameShape t') {a b : NodeId} :
    t'.AtOrBelow a b ↔ t.AtOrBelow a b := by
  have hchild : t'.Child = t.Child := by
    funext x y
    simp only [Child, h.children]
  rw [AtOrBelow, AtOrBelow, hchild]

/-! ## Repeated eviction -/

/-- Up to `k` calls of `evictOneLru`, ending early when nothing is evictable, with the
blocks they return in order. -/
def evictTimes : ℕ → RadixTrie → Except EngineError (RadixTrie × List BlockId)
  | 0, t => .ok (t, [])
  | k + 1, t => do
    match ← t.evictOneLru with
    | (t, none) => return (t, [])
    | (t, some b) => do
      let (t, bs) ← evictTimes k t
      return (t, b :: bs)

/-- Repeated eviction takes leaves off the forest until it is done or stuck. -/
theorem Keeps.evictTimes {t : RadixTrie} {H : NodeId → ℕ} (k : t.Keeps H) {F : Forest NodeId}
    (hF : t.Shows F) (times : ℕ) : ∃ t' vs G,
      RadixTrie.evictTimes times t = .ok (t', vs.map fun n => (t.node n).physicalBlockId) ∧
      F.Evicts (fun n => 0 < H n) vs G ∧ t'.Shows G ∧ t.Pruned vs t' ∧ t'.Keeps H ∧
      (vs.length = times ∨ (vs.length < times ∧ ∀ v, G.Leaf v → 0 < H v)) := by
  induction times generalizing t F with
  | zero => exact ⟨t, [], F, rfl, .nil F, hF, .refl t, k, .inl rfl⟩
  | succ times ih =>
    rcases k.evictOneLru with ⟨hnone, hheld⟩ | ⟨v, u, hsome, hv, hchild, h0, hpruned, ku, -⟩
    · refine ⟨t, [], F, ?_, .nil F, hF, .refl t, k, .inr ⟨Nat.succ_pos _, fun v hl => ?_⟩⟩
      · rw [RadixTrie.evictTimes, hnone]
        rfl
      · obtain ⟨hv, hc⟩ := hF.leaf_iff.mp hl
        exact hheld v hv hc
    · have hl := hF.leaf_iff.mpr ⟨hv, hchild⟩
      obtain ⟨t', vs, G, hrun, hev, hG, hp, k', hdone⟩ := ih ku (hF.erase hl hpruned)
      refine ⟨t', v :: vs, G, ?_, .cons hl (by omega) hev, hG, hpruned.trans hp, k', ?_⟩
      · rw [RadixTrie.evictTimes, hsome, ok_bind]
        simp only [hrun, ok_bind, hpruned.physicalBlockId, List.map_cons]
        rfl
      · rw [List.length_cons]
        rcases hdone with h | ⟨h, hheld⟩
        · exact .inl (by omega)
        · exact .inr ⟨by omega, hheld⟩

theorem leastRecentlyUsed_eq_none {t : RadixTrie} :
    t.leastRecentlyUsed (t.byHash.values.filter t.isEvictable) = none ↔
      t.numEvictableBlocks = 0 := by
  rw [leastRecentlyUsed, List.argmin_eq_none, numEvictableBlocks, List.countP_eq_length_filter,
    List.length_eq_zero_iff]

/-- Where nothing is evictable, nothing is evicted. -/
theorem evictTimes_of_not_evictable {t : RadixTrie} (h : t.numEvictableBlocks = 0) (times : ℕ) :
    RadixTrie.evictTimes times t = .ok (t, []) := by
  cases times with
  | zero => rfl
  | succ times =>
    simp only [RadixTrie.evictTimes, RadixTrie.evictOneLru, leastRecentlyUsed_eq_none.mpr h]
    rfl

/-- An eviction run that freed nothing found nothing, and left the trie. -/
theorem eq_of_evictTimes_nil {t t' : RadixTrie} {times : ℕ}
    (h : RadixTrie.evictTimes times t = .ok (t', [])) :
    t' = t ∧ (0 < times → t.numEvictableBlocks = 0) := by
  cases times with
  | zero => cases h; exact ⟨rfl, fun h => absurd h (Nat.lt_irrefl 0)⟩
  | succ times =>
    obtain ⟨⟨u, b⟩, hone, hrest⟩ := bind_eq_ok.mp h
    cases b with
    | some b =>
      obtain ⟨⟨u', bs⟩, -, hret⟩ := bind_eq_ok.mp hrest
      cases hret
    | none =>
      cases hrest
      cases hmin : t.leastRecentlyUsed (t.byHash.values.filter t.isEvictable) with
      | none =>
        rw [RadixTrie.evictOneLru, hmin] at hone
        cases hone
        exact ⟨rfl, fun _ => leastRecentlyUsed_eq_none.mp hmin⟩
      | some v =>
        rw [RadixTrie.evictOneLru, hmin] at hone
        obtain ⟨u, -, hret⟩ := bind_eq_ok.mp hone
        cases hret

/-- Calls past the one that finds nothing do nothing. -/
theorem evictTimes_of_lt {t t' : RadixTrie} {k times : ℕ} {freed : List BlockId}
    (h : RadixTrie.evictTimes k t = .ok (t', freed)) (hk : freed.length < k)
    (htimes : freed.length < times) : RadixTrie.evictTimes times t = .ok (t', freed) := by
  induction k generalizing t freed times with
  | zero => exact absurd hk (Nat.not_lt_zero _)
  | succ k ih =>
    obtain ⟨times, rfl⟩ := Nat.exists_eq_succ_of_ne_zero (Nat.ne_zero_of_lt htimes)
    obtain ⟨⟨u, b⟩, hone, hrest⟩ := bind_eq_ok.mp h
    rw [RadixTrie.evictTimes, hone, ok_bind]
    cases b with
    | none => exact hrest
    | some b =>
      obtain ⟨⟨u', bs⟩, hrun, hret⟩ := bind_eq_ok.mp hrest
      cases hret
      rw [List.length_cons] at hk htimes
      exact bind_eq_ok.mpr ⟨_, ih hrun (by omega) (by omega), rfl⟩

/-- Repeated eviction ends, with every node gone that has no held node at or below it. -/
theorem Keeps.evictTimes_exhausts {t : RadixTrie} {H : NodeId → ℕ} (k : t.Keeps H)
    {F : Forest NodeId} (hF : t.Shows F) : ∃ (times : ℕ) (t' : RadixTrie) (vs : List NodeId),
      RadixTrie.evictTimes times t = .ok (t', vs.map fun n => (t.node n).physicalBlockId) ∧
      ∀ v ∈ F.reclaimable fun n => 0 < H n, v ∈ vs := by
  obtain ⟨t', vs, G, hrun, hev, -, -, -, hdone⟩ :=
    k.evictTimes hF ((F.reclaimable fun n => 0 < H n).card + 1)
  refine ⟨_, t', vs, hrun, fun v hv => ?_⟩
  have hcard := hev.card_add
  rcases hdone with h | ⟨-, hheld⟩
  · omega
  · rw [← List.mem_toFinset, (hev.toFinset_eq hheld).2]
    exact hv

end RadixTrie

end LightServe
