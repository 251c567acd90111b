import LightServe.Lib.Except
import LightServe.PrefixCache.Holds

/-!
# Insertion

`insert` walks down the tree, holds the nodes it finds and registers the ones it misses. As
long as no node is registered under a hash that `_by_hash` already has, the trie stays well
formed, and the walk adds one chain of nodes below the part it found.

## Main definitions

* `RadixTrie.Grown` — a trie with some more nodes.
* `RadixTrie.Added` — what one registration changes.
* `RadixTrie.ClashFree` — no node of the walk is registered under a hash already in use.
* `RadixTrie.Keeps.insertWalk` — what the walk does.
-/

namespace LightServe

namespace RadixTrie

/-- `t'` is `t` with the nodes `ns` added last; nothing else about a node changed but its
holds and its children. -/
structure Grown (t : RadixTrie) (ns : List NodeId) (t' : RadixTrie) : Prop where
  blockSize : t'.blockSize = t.blockSize
  hashFn : t'.hashFn = t.hashFn
  next_le : t.next ≤ t'.next
  fresh : ∀ n ∈ ns, t.next ≤ n
  live : ∀ n, t'.Live n ↔ t.Live n ∨ n ∈ ns
  blockHash : ∀ n < t.next, (t'.node n).blockHash = (t.node n).blockHash
  parentHash : ∀ n < t.next, (t'.node n).parentHash = (t.node n).parentHash
  tokenIds : ∀ n < t.next, (t'.node n).tokenIds = (t.node n).tokenIds
  physicalBlockId : ∀ n < t.next, (t'.node n).physicalBlockId = (t.node n).physicalBlockId
  values : t'.byHash.values = t.byHash.values ++ ns

namespace WellFormed
variable {t : RadixTrie}

theorem lt_next_of_live (wf : t.WellFormed) {n : NodeId} (hn : t.Live n) : n < t.next :=
  wf.lt_next hn

end WellFormed

theorem SameShape.grown {t t' : RadixTrie} (h : t.SameShape t') : t.Grown [] t' where
  blockSize := h.blockSize
  hashFn := h.hashFn
  next_le := h.next.ge
  fresh := by simp
  live n := by simp [h.live]
  blockHash n _ := h.blockHash n
  parentHash n _ := h.parentHash n
  tokenIds n _ := h.tokenIds n
  physicalBlockId n _ := h.physicalBlockId n
  values := by rw [h.byHash, List.append_nil]

namespace Grown
variable {t t' t'' : RadixTrie} {ns ms : List NodeId}

theorem trans (h : t.Grown ns t') (h' : t'.Grown ms t'') : t.Grown (ns ++ ms) t'' where
  blockSize := h'.blockSize.trans h.blockSize
  hashFn := h'.hashFn.trans h.hashFn
  next_le := h.next_le.trans h'.next_le
  fresh n hn := by
    rcases List.mem_append.mp hn with hn | hn
    · exact h.fresh n hn
    · exact h.next_le.trans (h'.fresh n hn)
  live n := by rw [h'.live, h.live, List.mem_append, or_assoc]
  blockHash n hn := (h'.blockHash n (hn.trans_le h.next_le)).trans (h.blockHash n hn)
  parentHash n hn := (h'.parentHash n (hn.trans_le h.next_le)).trans (h.parentHash n hn)
  tokenIds n hn := (h'.tokenIds n (hn.trans_le h.next_le)).trans (h.tokenIds n hn)
  physicalBlockId n hn :=
    (h'.physicalBlockId n (hn.trans_le h.next_le)).trans (h.physicalBlockId n hn)
  values := by rw [h'.values, h.values, List.append_assoc]

/-- Chains stay chains. -/
theorem isPathFrom (h : t.Grown ns t') (wf : t.WellFormed) {ms : List NodeId}
    {q : Option BlockHash} (hms : t.IsPathFrom q ms) : t'.IsPathFrom q ms := by
  induction ms generalizing q with
  | nil => trivial
  | cons n ms ih =>
    have hn := wf.lt_next_of_live hms.1
    refine ⟨(h.live n).mpr (.inl hms.1), (h.parentHash n hn).trans hms.2.1, ?_⟩
    rw [h.blockHash n hn]
    exact ih hms.2.2

theorem content (h : t.Grown ns t') (wf : t.WellFormed) {ms : List NodeId}
    (hms : ∀ n ∈ ms, t.Live n) : t'.content ms = t.content ms :=
  List.flatMap_congr fun n hn => h.tokenIds n (wf.lt_next_of_live (hms n hn))

theorem blocks (h : t.Grown ns t') (wf : t.WellFormed) :
    t'.blocks = t.blocks ++ ns.map fun n => (t'.node n).physicalBlockId := by
  rw [RadixTrie.blocks, h.values, List.map_append, RadixTrie.blocks]
  congr 1
  refine List.map_congr_left fun n hn => ?_
  exact h.physicalBlockId n (wf.lt_next_of_live (wf.live_iff_mem_values.mpr hn))

end Grown

/-! ## One new node -/

section NewNode
variable {t : RadixTrie} {parent : Option NodeId} {h : BlockHash} {block : List Token}
  {b : BlockId}

/-- The heap after a registration: the new node, and one more child under its parent. -/
theorem node_newNode (hp : ∀ p ∈ parent, t.Live p) (hlt : ∀ p ∈ parent, p < t.next)
    (n : NodeId) : (t.newNode (t.levelHash parent) parent h block b).node n =
      if n = t.next then
        { blockHash := h, parentHash := t.levelHash parent, tokenIds := block
          physicalBlockId := b, lastUsed := t.clock }
      else if parent = some n then
        { t.node n with children := (t.node n).children.set h t.next }
      else t.node n := by
  cases parent with
  | none =>
    by_cases hn : n = t.next
    · subst hn; simp [newNode, setChild]
    · simp [newNode, setChild, hn]
  | some p =>
    have hpn : p ≠ t.next := (hlt p rfl).ne
    by_cases hn : n = t.next
    · subst hn; simp [newNode, setChild, modify, hpn.symm]
    · by_cases hnp : n = p
      · subst hnp; simp [newNode, setChild, modify, hn]
      · have : ¬ p = n := fun e => hnp e.symm
        simp [newNode, setChild, modify, hn, hnp, this]

/-- What a registration changes: one node more, under `h` below `parent`. -/
structure Added (t t' : RadixTrie) (parent : Option NodeId) (h : BlockHash) (block : List Token) :
    Prop where
  new_blockHash : (t'.node t.next).blockHash = h
  new_parentHash : (t'.node t.next).parentHash = t.levelHash parent
  new_tokenIds : (t'.node t.next).tokenIds = block
  new_children : (t'.node t.next).children = ∅
  blockHash : ∀ n < t.next, (t'.node n).blockHash = (t.node n).blockHash
  parentHash : ∀ n < t.next, (t'.node n).parentHash = (t.node n).parentHash
  tokenIds : ∀ n < t.next, (t'.node n).tokenIds = (t.node n).tokenIds
  physicalBlockId : ∀ n < t.next, (t'.node n).physicalBlockId = (t.node n).physicalBlockId
  children : ∀ n < t.next, (t'.node n).children =
    if parent = some n then (t.node n).children.set h t.next else (t.node n).children
  roots : t'.roots = if parent = none then t.roots.set h t.next else t.roots
  byHash : t'.byHash = t.byHash.set h t.next
  next : t'.next = t.next + 1
  blockSize : t'.blockSize = t.blockSize
  hashFn : t'.hashFn = t.hashFn

theorem added_newNode (hp : ∀ p ∈ parent, t.Live p) (hlt : ∀ p ∈ parent, p < t.next) :
    t.Added (t.newNode (t.levelHash parent) parent h block b) parent h block := by
  have hnew : (t.newNode (t.levelHash parent) parent h block b).node t.next = _ :=
    (node_newNode hp hlt t.next).trans (if_pos rfl)
  have hold : ∀ n < t.next, (t.newNode (t.levelHash parent) parent h block b).node n = _ :=
    fun n hn => (node_newNode hp hlt n).trans (if_neg hn.ne)
  refine ⟨by rw [hnew], by rw [hnew], by rw [hnew], by rw [hnew], fun n hn => ?_, fun n hn => ?_,
    fun n hn => ?_, fun n hn => ?_, fun n hn => ?_, ?_, ?_, ?_, ?_, ?_⟩
  all_goals first
    | rw [hold n hn]; split <;> rfl
    | cases parent <;> rfl

/-- A hash in use is not the new one, and its node is not the new node. -/
theorem WellFormed.lookup_lt (wf : t.WellFormed) (hfree : t.byHash.lookup h = none)
    {k : BlockHash} {n : NodeId} (hk : t.byHash.lookup k = some n) : k ≠ h ∧ n < t.next := by
  refine ⟨?_, wf.lt_next hk⟩
  rintro rfl
  rw [hfree] at hk
  cases hk

/-- The hash of a level is that of a live node, unless it is the roots'. -/
theorem exists_of_levelHash (hp : ∀ p ∈ parent, t.Live p) {q : BlockHash}
    (hq : t.levelHash parent = some q) : ∃ p, parent = some p ∧ t.byHash.lookup q = some p := by
  cases hpar : parent with
  | none =>
    rw [hpar] at hq
    cases hq
  | some p =>
    rw [hpar] at hq
    exact ⟨p, rfl, Option.some.inj hq ▸ hp p hpar⟩

namespace Added
variable {t' : RadixTrie} {k q : BlockHash} {n p : NodeId}

theorem lookup (ha : t.Added t' parent h block) (hfree : t.byHash.lookup h = none) :
    t'.byHash.lookup k = some n ↔ (k = h ∧ n = t.next) ∨ t.byHash.lookup k = some n := by
  rw [ha.byHash, Dict.lookup_set]
  by_cases hk : k = h
  · subst hk
    simp [hfree, eq_comm]
  · simp [hk]

theorem roots_iff (ha : t.Added t' parent h block) (wf : t.WellFormed)
    (hfree : t.byHash.lookup h = none) : t'.roots.lookup k = some n ↔
      t'.byHash.lookup k = some n ∧ (t'.node n).parentHash = none := by
  rw [ha.roots, ha.lookup hfree]
  cases hpar : parent with
  | none =>
    rw [if_pos rfl, Dict.lookup_set]
    by_cases hk : k = h
    · subst hk
      rw [if_pos rfl, hfree]
      simp only [Option.some.injEq, reduceCtorEq, or_false, true_and]
      constructor
      · rintro rfl
        rw [ha.new_parentHash, hpar]
        exact ⟨rfl, rfl⟩
      · exact fun hn => hn.1.symm
    · rw [if_neg hk, wf.roots_iff]
      simp only [hk, false_and, false_or]
      exact and_congr_right fun hn => by rw [ha.parentHash n (wf.lookup_lt hfree hn).2]
  | some p =>
    rw [if_neg (by simp), wf.roots_iff]
    constructor
    · rintro ⟨hn, hq⟩
      exact ⟨.inr hn, by rw [ha.parentHash n (wf.lookup_lt hfree hn).2, hq]⟩
    · rintro ⟨⟨rfl, rfl⟩ | hn, hq⟩
      · rw [ha.new_parentHash, hpar] at hq
        cases hq
      · exact ⟨hn, by rw [← ha.parentHash n (wf.lookup_lt hfree hn).2, hq]⟩

/-- The new node has no children, and no node has the new hash for a parent. -/
theorem not_parent (ha : t.Added t' parent h block) (wf : t.WellFormed)
    (hp : ∀ p ∈ parent, t.Live p) (hfree : t.byHash.lookup h = none)
    (hk : t'.byHash.lookup k = some n) : (t'.node n).parentHash ≠ some h := by
  intro hq
  rcases (ha.lookup hfree).mp hk with ⟨rfl, rfl⟩ | hk
  · rw [ha.new_parentHash] at hq
    obtain ⟨p, -, hpq⟩ := exists_of_levelHash hp hq
    exact (wf.lookup_lt hfree hpq).1 rfl
  · rw [ha.parentHash n (wf.lookup_lt hfree hk).2] at hq
    obtain ⟨p, hpq, -⟩ := wf.parent_lt hk hq
    exact (wf.lookup_lt hfree hpq).1 rfl

/-- The children of a node that was there before. -/
theorem children_old_iff (ha : t.Added t' parent h block) (wf : t.WellFormed)
    (hp : ∀ p ∈ parent, t.Live p) (hfree : t.byHash.lookup h = none)
    (hpq : t.byHash.lookup q = some p) : (t'.node p).children.lookup k = some n ↔
      t'.byHash.lookup k = some n ∧ (t'.node n).parentHash = some q := by
  rw [ha.children p (wf.lookup_lt hfree hpq).2, ha.lookup hfree]
  by_cases hpar : parent = some p
  · have hlevel : t.levelHash parent = some q := by
      rw [hpar, levelHash, Option.map_some, wf.hash_eq hpq]
    rw [if_pos hpar, Dict.lookup_set]
    by_cases hk : k = h
    · subst hk
      rw [if_pos rfl, hfree]
      simp only [Option.some.injEq, reduceCtorEq, or_false, true_and]
      constructor
      · rintro rfl
        exact ⟨rfl, ha.new_parentHash.trans hlevel⟩
      · exact fun hn => hn.1.symm
    · rw [if_neg hk, wf.children_iff hpq]
      simp only [hk, false_and, false_or]
      exact and_congr_right fun hn => by rw [ha.parentHash n (wf.lookup_lt hfree hn).2]
  · rw [if_neg hpar, wf.children_iff hpq]
    constructor
    · rintro ⟨hn, hq⟩
      exact ⟨.inr hn, by rw [ha.parentHash n (wf.lookup_lt hfree hn).2, hq]⟩
    · rintro ⟨⟨rfl, rfl⟩ | hn, hq⟩
      · rw [ha.new_parentHash] at hq
        obtain ⟨p', hpar', hpq'⟩ := exists_of_levelHash hp hq
        rw [hpq] at hpq'
        exact absurd (Option.some.inj hpq' ▸ hpar') hpar
      · exact ⟨hn, by rw [← ha.parentHash n (wf.lookup_lt hfree hn).2, hq]⟩

theorem wellFormed (ha : t.Added t' parent h block) (wf : t.WellFormed)
    (hp : ∀ p ∈ parent, t.Live p) (hh : t.hashFn (t.levelHash parent) block = h)
    (hw : block.length = t.blockSize) (hfree : t.byHash.lookup h = none) : t'.WellFormed where
  hash_eq hk := by
    rcases (ha.lookup hfree).mp hk with ⟨rfl, rfl⟩ | hk
    · exact ha.new_blockHash
    · exact (ha.blockHash _ (wf.lookup_lt hfree hk).2).trans (wf.hash_eq hk)
  lt_next hk := by
    rw [ha.next]
    rcases (ha.lookup hfree).mp hk with ⟨rfl, rfl⟩ | hk
    · exact Nat.lt_succ_self _
    · exact (wf.lookup_lt hfree hk).2.trans (Nat.lt_succ_self _)
  roots_iff := ha.roots_iff wf hfree
  children_iff hpq := by
    rcases (ha.lookup hfree).mp hpq with ⟨rfl, rfl⟩ | hpq
    · rw [ha.new_children]
      simp only [AList.lookup_empty, reduceCtorEq, false_iff, not_and]
      exact fun hk => ha.not_parent wf hp hfree hk
    · exact ha.children_old_iff wf hp hfree hpq
  parent_lt {k n q} hk hq := by
    rcases (ha.lookup hfree).mp hk with ⟨rfl, rfl⟩ | hk
    · rw [ha.new_parentHash] at hq
      obtain ⟨p, hpar, hpq⟩ := exists_of_levelHash hp hq
      exact ⟨p, (ha.lookup hfree).mpr (.inr hpq), wf.lt_next_of_live (hp p hpar)⟩
    · rw [ha.parentHash n (wf.lookup_lt hfree hk).2] at hq
      obtain ⟨p, hpq, hpn⟩ := wf.parent_lt hk hq
      exact ⟨p, (ha.lookup hfree).mpr (.inr hpq), hpn⟩
  hash_def {k n} hk := by
    rw [ha.hashFn]
    rcases (ha.lookup hfree).mp hk with ⟨rfl, rfl⟩ | hk
    · rw [ha.new_parentHash, ha.new_tokenIds]
      exact hh
    · have hn := (wf.lookup_lt hfree hk).2
      rw [ha.parentHash n hn, ha.tokenIds n hn]
      exact wf.hash_def hk
  width {k n} hk := by
    rw [ha.blockSize]
    rcases (ha.lookup hfree).mp hk with ⟨rfl, rfl⟩ | hk
    · rw [ha.new_tokenIds]
      exact hw
    · rw [ha.tokenIds n (wf.lookup_lt hfree hk).2]
      exact wf.width hk

theorem grown (ha : t.Added t' parent h block) (wf : t.WellFormed)
    (hfree : t.byHash.lookup h = none) : t.Grown [t.next] t' where
  blockSize := ha.blockSize
  hashFn := ha.hashFn
  next_le := ha.next ▸ Nat.le_succ _
  fresh := by simp
  live n := by
    rw [Live, ha.lookup hfree, List.mem_singleton]
    constructor
    · rintro (⟨-, hn⟩ | hn)
      · exact .inr hn
      · exact .inl (wf.live_of_lookup hn)
    · rintro (hn | rfl)
      · rw [ha.blockHash n (wf.lt_next_of_live hn)]
        exact .inr hn
      · exact .inl ⟨ha.new_blockHash, rfl⟩
  blockHash := ha.blockHash
  parentHash := ha.parentHash
  tokenIds := ha.tokenIds
  physicalBlockId := ha.physicalBlockId
  values := by rw [ha.byHash, Dict.values_set_of_notMem _ _ hfree]

end Added

/-- Registering a node under an unused hash keeps the trie well formed. -/
theorem WellFormed.newNode (wf : t.WellFormed) (hp : ∀ p ∈ parent, t.Live p)
    (hh : t.hashFn (t.levelHash parent) block = h) (hw : block.length = t.blockSize)
    (hfree : t.byHash.lookup h = none) :
    (t.newNode (t.levelHash parent) parent h block b).WellFormed ∧
      t.Grown [t.next] (t.newNode (t.levelHash parent) parent h block b) :=
  have ha := added_newNode hp fun p hpp => wf.lt_next_of_live (hp p hpp)
  ⟨ha.wellFormed wf hp hh hw hfree, ha.grown wf hfree⟩

end NewNode

/-! ## The walk -/

/-- No node that the walk registers gets a hash that `_by_hash` already has. -/
def ClashFree (t : RadixTrie) (parentHash : Option BlockHash) (parent : Option NodeId) :
    List (List Token × Option BlockId) → Prop
  | [] => True
  | (block, physicalBlockId) :: blocks =>
    let h := t.hashFn parentHash block
    match (t.level parent).lookup h, physicalBlockId with
    | some n, _ =>
      (t.node n).tokenIds = block → (t.hold n).ClashFree (some h) (some n) blocks
    | none, none => True
    | none, some b => t.byHash.lookup h = none ∧
      ((t.newNode parentHash parent h block b).hold t.next).ClashFree (some h) (some t.next) blocks

/-- Whether a walk clashes is found out by walking. -/
instance decidableClashFree (t : RadixTrie) (parentHash : Option BlockHash)
    (parent : Option NodeId) :
    (blocks : List (List Token × Option BlockId)) → Decidable (t.ClashFree parentHash parent blocks)
  | [] => inferInstanceAs (Decidable True)
  | (block, physicalBlockId) :: blocks =>
    let h := t.hashFn parentHash block
    match hfound : (t.level parent).lookup h, physicalBlockId with
    | some n, _ =>
      have := decidableClashFree (t.hold n) (some h) (some n) blocks
      decidable_of_iff ((t.node n).tokenIds = block → (t.hold n).ClashFree (some h) (some n) blocks)
        (by simp only [ClashFree, h, hfound])
    | none, none => .isTrue (by simp only [ClashFree, h, hfound])
    | none, some b =>
      have := decidableClashFree ((t.newNode parentHash parent h block b).hold t.next) (some h)
        (some t.next) blocks
      decidable_of_iff (t.byHash.lookup h = none ∧ ((t.newNode parentHash parent h block b).hold
        t.next).ClashFree (some h) (some t.next) blocks) (by simp only [ClashFree, h, hfound])

/-- What a walk from below `q` over `blocks` did: it held the nodes `old`, which were there,
and below them the nodes `new`, which it registered. -/
structure Walked (t : RadixTrie) (q : Option BlockHash)
    (blocks : List (List Token × Option BlockId)) (old new : List NodeId) (t' : RadixTrie) :
    Prop where
  grown : t.Grown new t'
  path : t'.IsPathFrom q (old ++ new)
  old_live : ∀ n ∈ old, t.Live n
  content : t'.content (old ++ new) = ((blocks.take (old ++ new).length).map Prod.fst).flatten
  length_le : (old ++ new).length ≤ blocks.length
  blocks_new : (new.map fun n => some (t'.node n).physicalBlockId) =
    ((blocks.drop old.length).take new.length).map Prod.snd

/-- The walk raises only for want of a physical block. -/
theorem insertWalk_isOk (t : RadixTrie) (parentHash : Option BlockHash) (parent : Option NodeId)
    {blocks : List (List Token × Option BlockId)} (h : ∀ b ∈ blocks, b.2.isSome) :
    ∃ res, t.insertWalk parentHash parent blocks = .ok res := by
  induction blocks generalizing t parentHash parent with
  | nil => exact ⟨_, rfl⟩
  | cons entry blocks ih =>
    obtain ⟨block, physicalBlockId⟩ := entry
    have hrest := List.forall_mem_cons.mp h
    obtain ⟨b, hb⟩ := Option.isSome_iff_exists.mp hrest.1
    simp only at hb
    subst hb
    simp only [insertWalk]
    split
    · split
      · obtain ⟨res, hres⟩ := ih _ _ _ hrest.2
        rw [hres]
        exact ⟨_, rfl⟩
      · exact ⟨_, rfl⟩
    · obtain ⟨res, hres⟩ := ih _ _ _ hrest.2
      rw [hres]
      exact ⟨_, rfl⟩

theorem Keeps.hold {t : RadixTrie} {H : NodeId → ℕ} (k : t.Keeps H) {n : NodeId}
    (hn : t.Live n) : (t.hold n).Keeps fun m => H m + if m = n then 1 else 0 where
  toWellFormed := (sameShape_hold t n).wellFormed k.toWellFormed
  refCount_eq hm := by rw [refCount_hold, k.refCount_eq ((sameShape_hold t n).live.mp hm)]
  live_of_held {m} hm := by
    rw [(sameShape_hold t n).live]
    by_cases hmn : m = n
    · exact hmn ▸ hn
    · exact k.live_of_held (by simpa [hmn] using hm)

/-- A registered node starts with no hold. -/
theorem Keeps.newNode {t : RadixTrie} {H : NodeId → ℕ} (k : t.Keeps H) {parent : Option NodeId}
    {h : BlockHash} {block : List Token} {b : BlockId} (hp : ∀ p ∈ parent, t.Live p)
    (hh : t.hashFn (t.levelHash parent) block = h) (hw : block.length = t.blockSize)
    (hfree : t.byHash.lookup h = none) :
    (t.newNode (t.levelHash parent) parent h block b).Keeps H := by
  have wf := k.toWellFormed
  obtain ⟨wf', hgrown⟩ := wf.newNode (b := b) hp hh hw hfree
  have hnode : ∀ n, (t.newNode (t.levelHash parent) parent h block b).node n = _ :=
    node_newNode hp fun p hpp => wf.lt_next_of_live (hp p hpp)
  refine ⟨wf', fun {n} hn => ?_, fun hn => (hgrown.live _).mpr (.inl (k.live_of_held hn))⟩
  rw [hnode]
  by_cases hnew : n = t.next
  · rw [if_pos hnew]
    show 0 = H n
    have hdead : ¬ t.Live n := fun hlive => absurd (wf.lt_next_of_live hlive) hnew.not_lt
    exact (Nat.eq_zero_of_not_pos fun hpos => hdead (k.live_of_held hpos)).symm
  · rw [if_neg hnew]
    have hlive : t.Live n := by
      rcases (hgrown.live n).mp hn with h | h
      · exact h
      · exact absurd (List.mem_singleton.mp h) hnew
    split
    · exact k.refCount_eq hlive
    · exact k.refCount_eq hlive

namespace Walked
variable {t u t' : RadixTrie} {q : Option BlockHash} {h : BlockHash} {n : NodeId}
  {block : List Token} {blocks : List (List Token × Option BlockId)} {old new : List NodeId}

/-- A walk that stops. -/
theorem stop (t : RadixTrie) (q : Option BlockHash)
    (blocks : List (List Token × Option BlockId)) : t.Walked q blocks [] [] t :=
  ⟨(SameShape.refl _).grown, trivial, by simp, rfl, Nat.zero_le _, rfl⟩

/-- A found node, and the walk below it. -/
theorem found (w : (t.hold n).Walked (some h) blocks old new t') (wf : t.WellFormed)
    (hn : t.byHash.lookup h = some n) (physicalBlockId : Option BlockId) :
    t.Walked (t.node n).parentHash (((t.node n).tokenIds, physicalBlockId) :: blocks) (n :: old)
      new t' := by
  have hshape := sameShape_hold t n
  have hlive := wf.live_of_lookup hn
  have hlt : n < (t.hold n).next := hshape.next ▸ wf.lt_next_of_live hlive
  have hg := w.grown
  refine ⟨hshape.grown.trans hg, ⟨(hg.live n).mpr (.inl (hshape.live.mpr hlive)), ?_, ?_⟩, ?_, ?_,
    by simpa using w.length_le, by simpa using w.blocks_new⟩
  · rw [hg.parentHash n hlt, hshape.parentHash]
  · rw [hg.blockHash n hlt, hshape.blockHash, wf.hash_eq hn]
    exact w.path
  · exact List.forall_mem_cons.mpr ⟨hlive, fun m hm => hshape.live.mp (w.old_live m hm)⟩
  · have hc := w.content
    simp only [RadixTrie.content, List.cons_append, List.flatMap_cons, List.length_cons,
      List.take_succ_cons, List.map_cons, List.flatten_cons] at hc ⊢
    rw [hc, hg.tokenIds n hlt, hshape.tokenIds]

/-- Below a node without children nothing is found. -/
theorem old_eq_nil (w : (u.hold n).Walked (some h) blocks old new t') (wf : u.WellFormed)
    (hn : u.byHash.lookup h = some n) (hchildren : (u.node n).children = ∅) : old = [] := by
  cases old with
  | nil => rfl
  | cons m old =>
    have hshape := sameShape_hold u n
    have hm := w.old_live m List.mem_cons_self
    have hpar := w.path.2.1
    rw [w.grown.parentHash m ((hshape.wellFormed wf).lt_next_of_live hm), hshape.parentHash] at hpar
    have hkid := (wf.children_iff hn).mpr ⟨hshape.live.mp hm, hpar⟩
    rw [hchildren] at hkid
    cases hkid

/-- A registered node, and the walk below it. -/
theorem registered {parent : Option NodeId} (ha : t.Added u parent h block)
    (hgrown : t.Grown [t.next] u) (wf : u.WellFormed)
    (w : (u.hold t.next).Walked (some h) blocks [] new t') :
    t.Walked (t.levelHash parent) ((block, some (u.node t.next).physicalBlockId) :: blocks) []
      (t.next :: new) t' := by
  have hshape := sameShape_hold u t.next
  have hlive : u.Live t.next := (hgrown.live _).mpr (.inr (List.mem_singleton_self _))
  have hlt : t.next < (u.hold t.next).next := hshape.next ▸ wf.lt_next_of_live hlive
  have hg := w.grown
  refine ⟨hgrown.trans (hshape.grown.trans hg),
    ⟨(hg.live _).mpr (.inl (hshape.live.mpr hlive)), ?_, ?_⟩, by simp, ?_,
    by simpa using w.length_le, ?_⟩
  · rw [hg.parentHash _ hlt, hshape.parentHash, ha.new_parentHash]
  · rw [hg.blockHash _ hlt, hshape.blockHash, ha.new_blockHash]
    exact w.path
  · have hc := w.content
    simp only [RadixTrie.content, List.nil_append, List.flatMap_cons, List.length_cons,
      List.take_succ_cons, List.map_cons, List.flatten_cons] at hc ⊢
    rw [hc, hg.tokenIds _ hlt, hshape.tokenIds, ha.new_tokenIds]
  · have hb := w.blocks_new
    simp only [List.length_nil, List.drop_zero, List.map_cons, List.length_cons,
      List.take_succ_cons] at hb ⊢
    rw [hb, hg.physicalBlockId _ hlt, hshape.physicalBlockId]

end Walked

/-- One hold more, counted with the nodes that a walk returns. -/
theorem add_count_cons (H : NodeId → ℕ) (n m : NodeId) (ns : List NodeId) :
    H m + (n :: ns).count m = (H m + if m = n then 1 else 0) + ns.count m := by
  by_cases hm : n = m
  · subst hm
    simp [Nat.add_comm, Nat.add_left_comm]
  · simp [hm, Ne.symm hm]

/-- The walk adds one hold on each node it returns and registers a chain below the part it
found. -/
theorem Keeps.insertWalk {t t' : RadixTrie} {H : NodeId → ℕ} (k : t.Keeps H)
    {parent : Option NodeId} (hp : ∀ p ∈ parent, t.Live p)
    {blocks : List (List Token × Option BlockId)} {nodes : List NodeId}
    (hw : ∀ b ∈ blocks, b.1.length = t.blockSize)
    (hcf : t.ClashFree (t.levelHash parent) parent blocks)
    (hrun : t.insertWalk (t.levelHash parent) parent blocks = .ok (t', nodes)) :
    (t'.Keeps fun n => H n + nodes.count n) ∧
      ∃ old new, nodes = old ++ new ∧ t.Walked (t.levelHash parent) blocks old new t' := by
  induction blocks generalizing t H parent nodes with
  | nil =>
    cases hrun
    exact ⟨k.congr (by simp), [], [], rfl, .stop ..⟩
  | cons entry blocks ih =>
    obtain ⟨block, physicalBlockId⟩ := entry
    have wf := k.toWellFormed
    have hw' := List.forall_mem_cons.mp hw
    simp only [RadixTrie.insertWalk] at hrun
    simp only [ClashFree] at hcf
    set h := t.hashFn (t.levelHash parent) block with hh
    cases hlevel : (t.level parent).lookup h with
    | some n =>
      simp only [hlevel] at hrun hcf
      obtain ⟨hn, hq⟩ := (wf.level_iff hp).mp hlevel
      have hlive := wf.live_of_lookup hn
      split at hrun
      · -- the block is there: hold it and go on below it
        rename_i htok
        have hshape := sameShape_hold t n
        have hbelow : (t.hold n).levelHash (some n) = some h := by
          rw [levelHash, Option.map_some, hshape.blockHash, wf.hash_eq hn]
        obtain ⟨⟨t'', rest⟩, hrest, hret⟩ := bind_eq_ok.mp hrun
        cases hret
        obtain ⟨hkeeps, old, new, rfl, hwalk⟩ := ih (k.hold hlive)
          (fun p hpp => Option.some.inj hpp ▸ hshape.live.mpr hlive)
          (by simpa [hshape.blockSize] using hw'.2)
          (by rw [hbelow]; exact hcf htok) (by rw [hbelow]; exact hrest)
        rw [hbelow] at hwalk
        have hfound := hwalk.found wf hn physicalBlockId
        rw [hq, htok] at hfound
        exact ⟨hkeeps.congr fun m => add_count_cons .., n :: old, new, rfl, hfound⟩
      · cases hrun
        exact ⟨k.congr (by simp), [], [], rfl, .stop ..⟩
    | none =>
      cases physicalBlockId with
      | none =>
        simp only [hlevel] at hrun
        cases hrun
      | some b =>
        -- the block is missing: register it and go on below it
        simp only [hlevel] at hrun hcf
        obtain ⟨hfree, hcf⟩ := hcf
        have hkeeps := k.newNode (b := b) hp rfl hw'.1 hfree
        obtain ⟨wf', hgrown⟩ := wf.newNode (b := b) hp rfl hw'.1 hfree
        have hlt : ∀ p ∈ parent, p < t.next := fun p hpp => wf.lt_next_of_live (hp p hpp)
        have ha : t.Added (t.newNode (t.levelHash parent) parent h block b) parent h block :=
          added_newNode hp hlt
        have hblock : ((t.newNode (t.levelHash parent) parent h block b).node
            t.next).physicalBlockId = b := by
          rw [node_newNode hp hlt, if_pos rfl]
        set u := t.newNode (t.levelHash parent) parent h block b with hu
        have hshape := sameShape_hold u t.next
        have hlive : u.Live t.next := (hgrown.live _).mpr (.inr (List.mem_singleton_self _))
        have hbelow : (u.hold t.next).levelHash (some t.next) = some h := by
          rw [levelHash, Option.map_some, hshape.blockHash, ha.new_blockHash]
        obtain ⟨⟨t'', rest⟩, hrest, hret⟩ := bind_eq_ok.mp hrun
        cases hret
        obtain ⟨hkeeps', old, new, rfl, hwalk⟩ := ih (hkeeps.hold hlive)
          (fun p hpp => Option.some.inj hpp ▸ hshape.live.mpr hlive)
          (by simpa [hshape.blockSize, hgrown.blockSize] using hw'.2)
          (by rw [hbelow]; exact hcf) (by rw [hbelow]; exact hrest)
        rw [hbelow] at hwalk
        obtain rfl := hwalk.old_eq_nil wf' ((ha.lookup hfree).mpr (.inl ⟨rfl, rfl⟩)) ha.new_children
        have hregistered := Walked.registered ha hgrown wf' hwalk
        rw [hblock] at hregistered
        exact ⟨hkeeps'.congr fun m => add_count_cons .., [], t.next :: new, rfl, hregistered⟩

/-! ## The whole insertion -/

/-- The first `k` whole blocks are the first `k * blockSize` tokens. -/
theorem flatten_take_wholeBlocks (blockSize n : ℕ) (tokenIds : List Token) {k : ℕ}
    (hk : k ≤ n / blockSize) :
    ((wholeBlocks blockSize n tokenIds).take k).flatten = tokenIds.take (k * blockSize) := by
  rw [wholeBlocks, ← List.map_take, List.take_range, Nat.min_eq_left hk]
  clear hk
  induction k with
  | zero => simp
  | succ k ih =>
    rw [List.range_succ, List.map_append, List.flatten_append, ih, Nat.succ_mul, List.take_add]
    simp

@[simp] theorem length_wholeBlocks (blockSize n : ℕ) (tokenIds : List Token) :
    (wholeBlocks blockSize n tokenIds).length = n / blockSize := by simp [wholeBlocks]

theorem length_of_mem_wholeBlocks {blockSize n : ℕ} {tokenIds block : List Token}
    (hn : n ≤ tokenIds.length) (h : block ∈ wholeBlocks blockSize n tokenIds) :
    block.length = blockSize := by
  obtain ⟨i, hi, rfl⟩ := List.mem_map.mp h
  have hi := List.mem_range.mp hi
  rw [List.length_take, List.length_drop, Nat.min_eq_left]
  have hmul : (i + 1) * blockSize ≤ n := (Nat.mul_le_mul_right _ hi).trans (Nat.div_mul_le_self n _)
  rw [Nat.succ_mul] at hmul
  omega

section InsertBlocks
variable (t : RadixTrie) (tokenIds : List Token) (ids : List BlockId) (n : ℕ) (known : List NodeId)

theorem map_fst_insertBlocks : (t.insertBlocks tokenIds ids n known).map Prod.fst =
    (wholeBlocks t.blockSize n tokenIds).drop known.length := by
  simp only [insertBlocks, List.map_drop, List.mapIdx_eq_zipIdx_map, List.map_map]
  congr 1
  rw [← List.zipIdx_map_fst 0 (wholeBlocks t.blockSize n tokenIds)]
  simp [Function.comp_def]

theorem length_insertBlocks :
    (t.insertBlocks tokenIds ids n known).length = n / t.blockSize - known.length := by
  simp [insertBlocks, wholeBlocks]

theorem getElem?_insertBlocks_snd {i : ℕ} (hi : i < n / t.blockSize - known.length) :
    ((t.insertBlocks tokenIds ids n known).map Prod.snd)[i]? = some ids[known.length + i]? := by
  have hlen : known.length + i < n / t.blockSize := by omega
  simp [insertBlocks, wholeBlocks, List.getElem?_range hlen]

end InsertBlocks

/-- What an insertion that had something to walk did. -/
structure Inserted (t : RadixTrie) (tokenIds : List Token) (ids : List BlockId) (n : ℕ)
    (known old new : List NodeId) (t' : RadixTrie) : Prop where
  grown : t.Grown new t'
  path : t'.IsPath (known ++ old ++ new)
  old_live : ∀ m ∈ old, t.Live m
  content : t.content known = tokenIds.take (known.length * t.blockSize) →
    t'.content (known ++ old ++ new) =
      tokenIds.take ((known ++ old ++ new).length * t.blockSize)
  length_le : (known ++ old ++ new).length ≤ n / t.blockSize
  blocks_new : (new.map fun m => (t'.node m).physicalBlockId) =
    (ids.drop (known.length + old.length)).take new.length

/-- A new node is backed by the block of its index. -/
theorem Inserted.block_new {t t' : RadixTrie} {tokenIds : List Token} {ids : List BlockId} {n : ℕ}
    {known old new : List NodeId} (h : t.Inserted tokenIds ids n known old new t') {j : ℕ}
    (hj : j < new.length) :
    ids[known.length + old.length + j]? = some (t'.node new[j]).physicalBlockId := by
  have hblock := congrArg (·[j]?) h.blocks_new
  simp only [List.getElem?_map, List.getElem?_eq_getElem hj, Option.map_some, List.getElem?_take,
    if_pos hj, List.getElem?_drop] at hblock
  exact hblock.symm

/-- The path of a new node spells the tokens up to its own. -/
theorem Inserted.content_new {t t' : RadixTrie} {tokenIds : List Token} {ids : List BlockId} {n : ℕ}
    {known old new : List NodeId} (h : t.Inserted tokenIds ids n known old new t')
    (wf' : t'.WellFormed) (hold : t.content known = tokenIds.take (known.length * t.blockSize))
    {j : ℕ} (hj : j < new.length) {ns : List NodeId} (hpath : t'.IsPath (ns ++ [new[j]])) :
    ns.length = known.length + old.length + j ∧ (ns.length + 1) * t.blockSize ≤ n ∧
      t'.content (ns ++ [new[j]]) = tokenIds.take ((ns.length + 1) * t.blockSize) := by
  have hwhole := h.path
  have hcontent := h.content hold
  have hle := h.length_le
  have hsum : (known ++ old).length = known.length + old.length := List.length_append
  generalize known ++ old = front at hwhole hcontent hle hsum
  have htake : (front ++ new).take (front.length + (j + 1)) = front ++ new.take j ++ [new[j]] := by
    rw [List.take_length_add_append, List.take_succ_eq_append_getElem hj, List.append_assoc]
  obtain rfl := wf'.path_unique hpath (htake ▸ hwhole.take _)
  have hlen : (front ++ new.take j).length = front.length + j := by
    rw [List.length_append, List.length_take, Nat.min_eq_left hj.le]
  have hcount : front.length + (j + 1) ≤ (front ++ new).length := by
    rw [List.length_append]
    omega
  refine ⟨hlen.trans (by rw [hsum]), ?_, ?_⟩
  · rw [hlen]
    exact (Nat.mul_le_mul_right _ (hcount.trans hle)).trans (Nat.div_mul_le_self _ _)
  · rw [hlen, ← htake, wf'.content_take hwhole, hcontent, h.grown.blockSize, List.take_take,
      Nat.add_assoc, Nat.min_eq_left (Nat.mul_le_mul_right _ hcount)]

section Fresh
variable {t t' : RadixTrie} {tokenIds : List Token} {ids : List BlockId} {n : ℕ}
  {known old new : List NodeId} {i j : ℕ} {m m' : NodeId}

/-- The nodes that were not there before are behind the known and the found ones. -/
theorem Inserted.le_of_fresh (h : t.Inserted tokenIds ids n known old new t') (wf : t.WellFormed)
    (hknown : ∀ m ∈ known, t.Live m) (hm : (known ++ old ++ new)[i]? = some m)
    (hle : t.next ≤ m) : known.length + old.length ≤ i := by
  by_contra hlt
  rw [List.getElem?_append_left (by simpa using Nat.not_le.mp hlt)] at hm
  refine absurd (wf.lt_next_of_live ?_) (Nat.not_lt.mpr hle)
  rcases List.mem_append.mp (List.mem_of_getElem? hm) with hm | hm
  · exact hknown m hm
  · exact h.old_live m hm

/-- Each of them is backed by the block of its index. -/
theorem Inserted.id_fresh (h : t.Inserted tokenIds ids n known old new t') (wf : t.WellFormed)
    (hknown : ∀ m ∈ known, t.Live m) (hm : (known ++ old ++ new)[i]? = some m)
    (hle : t.next ≤ m) : ids[i]? = some (t'.node m).physicalBlockId := by
  have hi := h.le_of_fresh wf hknown hm hle
  rw [List.getElem?_append_right (by simpa using hi), List.length_append] at hm
  obtain ⟨hj, rfl⟩ := List.getElem?_eq_some_iff.mp hm
  rw [← h.block_new hj]
  congr 1
  omega

/-- Each of them has a block of its own, if no block is handed in twice. -/
theorem Inserted.index_fresh (h : t.Inserted tokenIds ids n known old new t') (wf : t.WellFormed)
    (hknown : ∀ m ∈ known, t.Live m) (hnodup : (ids.drop known.length).Nodup) {b : BlockId}
    (hm : (known ++ old ++ new)[i]? = some m) (hle : t.next ≤ m) (hb : ids[i]? = some b)
    (hm' : (known ++ old ++ new)[j]? = some m') (hle' : t.next ≤ m') (hb' : ids[j]? = some b) :
    j = i := by
  have hi := h.le_of_fresh wf hknown hm hle
  have hj := h.le_of_fresh wf hknown hm' hle'
  have hdrop : ∀ k : ℕ, known.length + old.length ≤ k →
      (ids.drop known.length)[k - known.length]? = ids[k]? := by
    intro k hk
    rw [List.getElem?_drop]
    congr 1
    omega
  have hsame := (hdrop i hi).trans (hb.trans (hb'.symm.trans (hdrop j hj).symm))
  have hlt : i - known.length < (ids.drop known.length).length :=
    (List.getElem?_eq_some_iff.mp ((hdrop i hi).trans hb)).1
  have := (List.getElem?_inj hlt hnodup).mp hsame
  omega

end Fresh

/-- The condition under which an insertion keeps the trie well formed. -/
def InsertClashFree (t : RadixTrie) (tokenIds : List Token) (ids : List BlockId) (n : ℕ)
    (known : List NodeId) : Prop :=
  ClashFree { t with clock := t.clock + 1 } (t.levelHash known.getLast?) known.getLast?
    (t.insertBlocks tokenIds ids n known)

instance (t : RadixTrie) (tokenIds : List Token) (ids : List BlockId) (n : ℕ)
    (known : List NodeId) : Decidable (t.InsertClashFree tokenIds ids n known) :=
  decidableClashFree _ _ _ _

/-- `insert` cuts the prefix it was given, or extends it. -/
theorem Keeps.insert {t t' : RadixTrie} {H : NodeId → ℕ} (k : t.Keeps H)
    {tokenIds : List Token} {ids : List BlockId} {n : ℕ} {known nodes : List NodeId}
    (hknown : t.IsPath known) (hn : n ≤ tokenIds.length)
    (hcf : t.InsertClashFree tokenIds ids n known)
    (hrun : t.insert tokenIds ids n known = .ok (t', nodes)) :
    (n / t.blockSize ≤ known.length ∧ t' = t ∧ nodes = known.take (n / t.blockSize)) ∨
    (known.length < n / t.blockSize ∧ ∃ old new, nodes = known ++ old ++ new ∧
      t.Inserted tokenIds ids n known old new t' ∧
      t'.Keeps fun m => H m + (old ++ new).count m) := by
  rw [RadixTrie.insert] at hrun
  split at hrun
  · rename_i hle
    cases hrun
    exact .inl ⟨hle, rfl, rfl⟩
  · rename_i hlt
    rw [Nat.not_le] at hlt
    set u : RadixTrie := { t with clock := t.clock + 1 } with hu
    have hshape : t.SameShape u := by constructor <;> intros <;> rfl
    have hku : u.Keeps H := ⟨hshape.wellFormed k.toWellFormed, k.refCount_eq, k.live_of_held⟩
    obtain ⟨⟨t'', rest⟩, hwalk, hret⟩ := bind_eq_ok.mp hrun
    cases hret
    have hblocks : ∀ b ∈ u.insertBlocks tokenIds ids n known, b.1.length = u.blockSize := by
      intro b hb
      refine length_of_mem_wholeBlocks hn (List.mem_of_mem_drop (i := known.length) ?_)
      rw [← map_fst_insertBlocks]
      exact List.mem_map_of_mem hb
    obtain ⟨hkeeps, old, new, rfl, hw⟩ := hku.insertWalk
      (fun p hp => hknown.live p (List.mem_of_getLast? hp)) hblocks hcf hwalk
    have wf := hku.toWellFormed
    have hlen : (old ++ new).length ≤ n / t.blockSize - known.length :=
      (length_insertBlocks t tokenIds ids n known) ▸ hw.length_le
    refine .inr ⟨hlt, old, new, (List.append_assoc ..).symm, ⟨hshape.grown.trans hw.grown, ?_,
      hw.old_live, fun hcontent => ?_, ?_, ?_⟩, hkeeps⟩
    · rw [List.append_assoc, isPath_append]
      refine ⟨hw.grown.isPathFrom wf (hshape.isPath.mpr hknown), ?_⟩
      rw [show t'.levelHash known.getLast? = u.levelHash known.getLast? from ?_]
      · exact hw.path
      · cases hlast : known.getLast? with
        | none => rfl
        | some p =>
          have hp := hknown.live p (List.mem_of_getLast? hlast)
          simp [levelHash, hw.grown.blockHash p (wf.lt_next_of_live (hshape.live.mpr hp))]
    · have hk : u.content known = tokenIds.take (known.length * u.blockSize) := hcontent
      rw [List.append_assoc, content_append, hw.grown.content wf
        (fun m hm => hshape.live.mpr (hknown.live m hm)), hk, hw.content, List.map_take,
        map_fst_insertBlocks]
      have htotal : known.length + (old ++ new).length ≤ n / t.blockSize := by omega
      rw [@List.length_append _ known, ← flatten_take_wholeBlocks u.blockSize n tokenIds hlt.le,
        ← flatten_take_wholeBlocks u.blockSize n tokenIds htotal, List.take_add,
        List.flatten_append]
    · rw [List.append_assoc, List.length_append]
      omega
    · refine List.ext_getElem? fun i => ?_
      rw [List.length_append] at hlen
      have hi := congrArg (·[i]?) hw.blocks_new
      by_cases hin : i < new.length
      · have hsnd := getElem?_insertBlocks_snd u tokenIds ids n known (i := old.length + i)
          (by show _ < n / t.blockSize - _; omega)
        rw [List.getElem?_map] at hsnd
        simp only [List.getElem?_map, List.getElem?_take, List.getElem?_drop, if_pos hin,
          List.getElem?_eq_getElem hin, Option.map_some, hsnd, Option.some.injEq] at hi ⊢
        rw [hi, Nat.add_assoc]
      · simp [hin]

/-- `insert` returns when every block it looks at has a physical block. -/
theorem insert_isOk (t : RadixTrie) (tokenIds : List Token) {ids : List BlockId} {n : ℕ}
    (known : List NodeId) (h : n / t.blockSize ≤ ids.length) :
    ∃ res, t.insert tokenIds ids n known = .ok res := by
  rw [RadixTrie.insert]
  split
  · exact ⟨_, rfl⟩
  · obtain ⟨res, hres⟩ := insertWalk_isOk { t with clock := t.clock + 1 }
      (t.levelHash known.getLast?) known.getLast?
      (fun b hb => by
        obtain ⟨i, hi, rfl⟩ := List.getElem_of_mem hb
        rw [length_insertBlocks] at hi
        have hsnd := getElem?_insertBlocks_snd t tokenIds ids n known hi
        rw [List.getElem?_map, List.getElem?_eq_getElem ‹_›, Option.map_some,
          Option.some.injEq] at hsnd
        rw [hsnd, List.getElem?_eq_getElem (by omega : known.length + i < ids.length)]
        rfl)
    refine ⟨(res.1, known ++ res.2), ?_⟩
    show (RadixTrie.insertWalk _ _ _ _ >>= _) = _
    exact bind_eq_ok.mpr ⟨res, hres, rfl⟩

end RadixTrie

end LightServe
