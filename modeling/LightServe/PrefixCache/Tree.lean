import LightServe.Engine.PrefixCache
import Mathlib.Data.List.Chain
import Mathlib.Order.Basic

/-!
# The trie as a tree

`RadixTrie.WellFormed` says that `_by_hash` indexes the tree: its entries are the tree's
nodes, `_roots` and every `children` dictionary are what the parent hashes say, and parents
are older than their children. It holds as long as no two nodes of the tree share a hash.
Under it every node has exactly one path from the root, which is what a content path and a
request's hold are stated with.

## Main definitions

* `RadixTrie.Live` — a node of the tree.
* `RadixTrie.WellFormed` — the index and the tree agree.
* `RadixTrie.IsPath` — a chain of live nodes from the root.
* `RadixTrie.content` — the tokens of a chain.
* `RadixTrie.SameShape` — two tries that differ in holds and clocks only.
-/

namespace LightServe

namespace RadixTrie

/-- A node of the tree: one registered under its own hash. -/
def Live (t : RadixTrie) (n : NodeId) : Prop := t.byHash.lookup (t.node n).blockHash = some n

instance (t : RadixTrie) (n : NodeId) : Decidable (t.Live n) :=
  inferInstanceAs (Decidable (_ = _))

/-- The hash that children of `parent` are registered under. -/
def levelHash (t : RadixTrie) (parent : Option NodeId) : Option BlockHash :=
  parent.map fun n => (t.node n).blockHash

/-- The index and the tree agree. -/
structure WellFormed (t : RadixTrie) : Prop where
  hash_eq : ∀ {h n}, t.byHash.lookup h = some n → (t.node n).blockHash = h
  lt_next : ∀ {h n}, t.byHash.lookup h = some n → n < t.next
  roots_iff : ∀ {h n}, t.roots.lookup h = some n ↔
    t.byHash.lookup h = some n ∧ (t.node n).parentHash = none
  children_iff : ∀ {q p h n}, t.byHash.lookup q = some p →
    ((t.node p).children.lookup h = some n ↔
      t.byHash.lookup h = some n ∧ (t.node n).parentHash = some q)
  parent_lt : ∀ {h n q}, t.byHash.lookup h = some n → (t.node n).parentHash = some q →
    ∃ p, t.byHash.lookup q = some p ∧ p < n
  hash_def : ∀ {h n}, t.byHash.lookup h = some n →
    t.hashFn (t.node n).parentHash (t.node n).tokenIds = h
  width : ∀ {h n}, t.byHash.lookup h = some n → (t.node n).tokenIds.length = t.blockSize

/-- A chain of live nodes below the hash `q`. -/
def IsPathFrom (t : RadixTrie) : Option BlockHash → List NodeId → Prop
  | _, [] => True
  | q, n :: ns =>
    t.Live n ∧ (t.node n).parentHash = q ∧ t.IsPathFrom (some (t.node n).blockHash) ns

/-- A chain of live nodes from the root. -/
def IsPath (t : RadixTrie) (ns : List NodeId) : Prop := t.IsPathFrom none ns

/-- The tokens of a chain. -/
def content (t : RadixTrie) (ns : List NodeId) : List Token :=
  ns.flatMap fun n => (t.node n).tokenIds

/-- The physical blocks the tree owns, in `_by_hash` order. -/
def blocks (t : RadixTrie) : List BlockId := t.byHash.values.map fun n => (t.node n).physicalBlockId

@[simp] theorem isPathFrom_nil (t : RadixTrie) (q : Option BlockHash) : t.IsPathFrom q [] := trivial
@[simp] theorem isPathFrom_cons {t : RadixTrie} {q : Option BlockHash} {n : NodeId}
    {ns : List NodeId} : t.IsPathFrom q (n :: ns) ↔
      t.Live n ∧ (t.node n).parentHash = q ∧ t.IsPathFrom (some (t.node n).blockHash) ns := Iff.rfl
@[simp] theorem isPath_nil (t : RadixTrie) : t.IsPath [] := trivial
@[simp] theorem content_nil (t : RadixTrie) : t.content [] = [] := rfl
@[simp] theorem content_append (t : RadixTrie) (a b : List NodeId) :
    t.content (a ++ b) = t.content a ++ t.content b := List.flatMap_append ..

namespace WellFormed
variable {t : RadixTrie}

theorem live_of_lookup (wf : t.WellFormed) {h : BlockHash} {n : NodeId}
    (hn : t.byHash.lookup h = some n) : t.Live n := by rwa [Live, wf.hash_eq hn]

theorem live_iff_mem_values (wf : t.WellFormed) {n : NodeId} :
    t.Live n ↔ n ∈ t.byHash.values := by
  rw [Dict.mem_values]
  exact ⟨fun h => ⟨_, h⟩, fun ⟨_, h⟩ => wf.live_of_lookup h⟩

/-- Live nodes with one hash are one node. -/
theorem eq_of_hash_eq (_wf : t.WellFormed) {a b : NodeId} (ha : t.Live a) (hb : t.Live b)
    (h : (t.node a).blockHash = (t.node b).blockHash) : a = b := by
  unfold Live at ha hb
  rw [h] at ha
  exact Option.some.inj (ha.symm.trans hb)

/-- What a level's dictionary holds, the root level and a node's children alike. -/
theorem level_iff (wf : t.WellFormed) {parent : Option NodeId} (hp : ∀ p ∈ parent, t.Live p)
    {h : BlockHash} {n : NodeId} : (t.level parent).lookup h = some n ↔
      t.byHash.lookup h = some n ∧ (t.node n).parentHash = t.levelHash parent := by
  cases parent with
  | none => exact wf.roots_iff
  | some p => exact wf.children_iff (hp p rfl)

theorem values_nodup (wf : t.WellFormed) : t.byHash.values.Nodup := by
  rw [Dict.values, List.nodup_reverse, List.nodup_map_iff_inj_on t.byHash.nodupKeys.nodup]
  intro x hx y hy hxy
  have hx' := wf.hash_eq (AList.mem_lookup_iff.mpr hx)
  have hy' := wf.hash_eq (AList.mem_lookup_iff.mpr hy)
  obtain ⟨a, n⟩ := x
  obtain ⟨b, m⟩ := y
  simp only at hxy
  subst hxy
  simp only at hx' hy'
  rw [← hx', ← hy']

/-! ## Paths -/

/-- Nodes get younger along a chain. -/
theorem lt_of_isPathFrom (wf : t.WellFormed) {ns : List NodeId} {a : NodeId} (ha : t.Live a)
    (h : t.IsPathFrom (some (t.node a).blockHash) ns) : ∀ m ∈ ns, a < m := by
  induction ns generalizing a with
  | nil => simp
  | cons n ns ih =>
    obtain ⟨hn, hpar, hrest⟩ := h
    obtain ⟨p, hp, hlt⟩ := wf.parent_lt hn hpar
    have hpa : p = a := Option.some.inj (hp.symm.trans ha)
    subst hpa
    intro m hm
    rcases List.mem_cons.mp hm with rfl | hm
    · exact hlt
    · exact hlt.trans (ih hn hrest m hm)

theorem isPathFrom_nodup (wf : t.WellFormed) {ns : List NodeId} {q : Option BlockHash}
    (h : t.IsPathFrom q ns) : ns.Nodup := by
  induction ns generalizing q with
  | nil => exact List.nodup_nil
  | cons n ns ih =>
    obtain ⟨hn, -, hrest⟩ := h
    refine List.nodup_cons.mpr ⟨fun hmem => ?_, ih hrest⟩
    exact lt_irrefl _ (wf.lt_of_isPathFrom hn hrest n hmem)

end WellFormed

theorem IsPathFrom.live {t : RadixTrie} {ns : List NodeId} {q : Option BlockHash}
    (h : t.IsPathFrom q ns) : ∀ n ∈ ns, t.Live n := by
  induction ns generalizing q with
  | nil => simp
  | cons n ns ih =>
    intro m hm
    rcases List.mem_cons.mp hm with rfl | hm
    · exact h.1
    · exact ih h.2.2 m hm

theorem isPathFrom_append {t : RadixTrie} {a b : List NodeId} {q : Option BlockHash} :
    t.IsPathFrom q (a ++ b) ↔
      t.IsPathFrom q a ∧ t.IsPathFrom ((t.levelHash a.getLast?).or q) b := by
  induction a generalizing q with
  | nil => simp [levelHash]
  | cons n a ih =>
    have hlast : (t.levelHash (n :: a).getLast?).or q =
        (t.levelHash a.getLast?).or (some (t.node n).blockHash) := by
      cases a with
      | nil => simp [levelHash]
      | cons m a =>
        rw [List.getLast?_cons_cons, List.getLast?_eq_some_getLast (List.cons_ne_nil m a)]
        simp [levelHash]
    rw [List.cons_append, isPathFrom_cons, isPathFrom_cons, ih, hlast]
    tauto

theorem isPath_append {t : RadixTrie} {a b : List NodeId} :
    t.IsPath (a ++ b) ↔ t.IsPath a ∧ t.IsPathFrom (t.levelHash a.getLast?) b := by
  simp [IsPath, isPathFrom_append]

theorem isPath_concat {t : RadixTrie} {a : List NodeId} {n : NodeId} :
    t.IsPath (a ++ [n]) ↔
      t.IsPath a ∧ t.Live n ∧ (t.node n).parentHash = t.levelHash a.getLast? := by
  simp [isPath_append]

theorem IsPath.take {t : RadixTrie} {ns : List NodeId} (h : t.IsPath ns) (k : ℕ) :
    t.IsPath (ns.take k) := by
  rw [← List.take_append_drop k ns] at h
  exact (isPath_append.mp h).1

namespace WellFormed
variable {t : RadixTrie}

/-- A live node ends a chain from the root. -/
theorem exists_path (wf : t.WellFormed) {n : NodeId} (hn : t.Live n) :
    ∃ a, t.IsPath (a ++ [n]) := by
  induction n using Nat.strong_induction_on with
  | _ n ih =>
    cases hq : (t.node n).parentHash with
    | none => exact ⟨[], isPath_concat.mpr ⟨trivial, hn, hq⟩⟩
    | some q =>
      obtain ⟨p, hp, hlt⟩ := wf.parent_lt hn hq
      obtain ⟨a, ha⟩ := ih p hlt (wf.live_of_lookup hp)
      refine ⟨a ++ [p], isPath_concat.mpr ⟨ha, hn, ?_⟩⟩
      simp [levelHash, hq, wf.hash_eq hp]

/-- That chain is unique. -/
theorem path_unique (wf : t.WellFormed) {a b : List NodeId} {n : NodeId}
    (ha : t.IsPath (a ++ [n])) (hb : t.IsPath (b ++ [n])) : a = b := by
  induction a using List.reverseRecOn generalizing b n with
  | nil =>
    have hroot := (isPath_concat.mp ha).2.2
    have hroot' := (isPath_concat.mp hb).2.2
    rw [hroot] at hroot'
    rcases List.eq_nil_or_concat b with rfl | ⟨b, p, rfl⟩
    · rfl
    · simp [levelHash] at hroot'
  | append_singleton a p ih =>
    have hpar := (isPath_concat.mp ha).2.2
    have hpar' := (isPath_concat.mp hb).2.2
    rw [hpar] at hpar'
    rcases List.eq_nil_or_concat b with rfl | ⟨b, p', rfl⟩
    · simp [levelHash] at hpar'
    · rw [List.concat_eq_append] at *
      have hpath := (isPath_concat.mp ha).1
      have hpath' := (isPath_concat.mp hb).1
      have hp : p = p' := wf.eq_of_hash_eq (isPath_concat.mp hpath).2.1
        (isPath_concat.mp hpath').2.1 (by simpa [levelHash] using hpar')
      subst hp
      rw [ih hpath hpath']

/-- A chain from the root contains the parents of its nodes. -/
theorem parent_mem_path (wf : t.WellFormed) {ns : List NodeId} (h : t.IsPath ns) {n p : NodeId}
    (hn : n ∈ ns) (hp : t.Live p) (hq : (t.node n).parentHash = some (t.node p).blockHash) :
    p ∈ ns := by
  obtain ⟨a, b, rfl⟩ := List.append_of_mem hn
  have h' : t.IsPath ((a ++ [n]) ++ b) := by simpa using h
  have hpar := (isPath_concat.mp (isPath_append.mp h').1).2.2
  rw [hq] at hpar
  rcases List.eq_nil_or_concat a with rfl | ⟨a, m, rfl⟩
  · simp [levelHash] at hpar
  · rw [List.concat_eq_append] at *
    have hm : t.Live m := (isPath_append.mp h').1.live m (by simp)
    have : p = m := wf.eq_of_hash_eq hp hm (by simpa [levelHash] using hpar)
    subst this
    simp

theorem length_content (wf : t.WellFormed) {ns : List NodeId} {q : Option BlockHash}
    (h : t.IsPathFrom q ns) : (t.content ns).length = ns.length * t.blockSize := by
  induction ns generalizing q with
  | nil => simp
  | cons n ns ih =>
    have hw := wf.width h.1
    have ih := ih h.2.2
    simp only [content, List.flatMap_cons, List.length_append, List.length_cons] at ih ⊢
    rw [hw, ih, Nat.succ_mul, Nat.add_comm]

/-- The tokens of the first `k` nodes are the first `k` blocks of the tokens. -/
theorem content_take (wf : t.WellFormed) {ns : List NodeId} (h : t.IsPath ns) (k : ℕ) :
    t.content (ns.take k) = (t.content ns).take (k * t.blockSize) := by
  rcases Nat.le_total k ns.length with hk | hk
  · have hlen := wf.length_content (h.take k)
    rw [List.length_take, Nat.min_eq_left hk] at hlen
    conv_rhs => rw [← List.take_append_drop k ns, content_append]
    rw [List.take_left' hlen]
  · rw [List.take_of_length_le hk, List.take_of_length_le]
    rw [wf.length_content h]
    exact Nat.mul_le_mul_right _ hk

end WellFormed

/-! ## Tries of one shape -/

/-- Equal up to hold counts, clocks and counters. -/
structure SameShape (t t' : RadixTrie) : Prop where
  blockSize : t'.blockSize = t.blockSize
  hashFn : t'.hashFn = t.hashFn
  next : t'.next = t.next
  roots : t'.roots = t.roots
  byHash : t'.byHash = t.byHash
  blockHash : ∀ n, (t'.node n).blockHash = (t.node n).blockHash
  parentHash : ∀ n, (t'.node n).parentHash = (t.node n).parentHash
  tokenIds : ∀ n, (t'.node n).tokenIds = (t.node n).tokenIds
  physicalBlockId : ∀ n, (t'.node n).physicalBlockId = (t.node n).physicalBlockId
  children : ∀ n, (t'.node n).children = (t.node n).children

namespace SameShape
variable {t t' t'' : RadixTrie}

theorem refl (t : RadixTrie) : t.SameShape t := by constructor <;> intros <;> rfl

theorem trans (h : t.SameShape t') (h' : t'.SameShape t'') : t.SameShape t'' where
  blockSize := h'.blockSize.trans h.blockSize
  hashFn := h'.hashFn.trans h.hashFn
  next := h'.next.trans h.next
  roots := h'.roots.trans h.roots
  byHash := h'.byHash.trans h.byHash
  blockHash n := (h'.blockHash n).trans (h.blockHash n)
  parentHash n := (h'.parentHash n).trans (h.parentHash n)
  tokenIds n := (h'.tokenIds n).trans (h.tokenIds n)
  physicalBlockId n := (h'.physicalBlockId n).trans (h.physicalBlockId n)
  children n := (h'.children n).trans (h.children n)

theorem live (h : t.SameShape t') {n : NodeId} : t'.Live n ↔ t.Live n := by
  rw [Live, Live, h.byHash, h.blockHash]

theorem wellFormed (h : t.SameShape t') (wf : t.WellFormed) : t'.WellFormed where
  hash_eq := by rw [h.byHash]; intro k n hk; rw [h.blockHash]; exact wf.hash_eq hk
  lt_next := by rw [h.byHash, h.next]; exact wf.lt_next
  roots_iff := by intro k n; rw [h.byHash, h.roots, h.parentHash]; exact wf.roots_iff
  children_iff := by
    rw [h.byHash]; intro q p k n hp; rw [h.children, h.parentHash]; exact wf.children_iff hp
  parent_lt := by
    rw [h.byHash]; intro k n q hk hq; rw [h.parentHash] at hq; exact wf.parent_lt hk hq
  hash_def := by
    rw [h.byHash]; intro k n hk; rw [h.hashFn, h.parentHash, h.tokenIds]; exact wf.hash_def hk
  width := by rw [h.byHash]; intro k n hk; rw [h.tokenIds, h.blockSize]; exact wf.width hk

theorem isPathFrom (h : t.SameShape t') {ns : List NodeId} {q : Option BlockHash} :
    t'.IsPathFrom q ns ↔ t.IsPathFrom q ns := by
  induction ns generalizing q with
  | nil => simp
  | cons n ns ih => rw [isPathFrom_cons, isPathFrom_cons, h.live, h.parentHash, h.blockHash, ih]

theorem isPath (h : t.SameShape t') {ns : List NodeId} : t'.IsPath ns ↔ t.IsPath ns :=
  h.isPathFrom

theorem content (h : t.SameShape t') (ns : List NodeId) : t'.content ns = t.content ns := by
  simp only [RadixTrie.content, h.tokenIds]

theorem blocks (h : t.SameShape t') : t'.blocks = t.blocks := by
  simp only [RadixTrie.blocks, h.byHash, h.physicalBlockId]

end SameShape

theorem sameShape_modify (t : RadixTrie) (n : NodeId) (f : TrieNode → TrieNode)
    (hf : ∀ node, (f node).blockHash = node.blockHash ∧ (f node).parentHash = node.parentHash ∧
      (f node).tokenIds = node.tokenIds ∧ (f node).physicalBlockId = node.physicalBlockId ∧
      (f node).children = node.children) : t.SameShape (t.modify n f) := by
  obtain ⟨h₁, h₂, h₃, h₄, h₅⟩ := hf (t.node n)
  constructor <;> try rfl
  all_goals
    intro m
    by_cases hm : m = n
    · subst hm
      simp [modify, *]
    · simp [modify, hm]

end RadixTrie

end LightServe
