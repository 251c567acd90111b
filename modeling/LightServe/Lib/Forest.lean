import Mathlib.Data.Finset.Card
import Mathlib.Data.Finset.Max
import Mathlib.Logic.Relation

/-!
# Reclaiming a forest from its leaves

A finite forest is a set of nodes closed under a parent function along which ranks
decrease. Some nodes are held. The only move is to remove a leaf nobody holds. However the
moves are chosen, they remove exactly the nodes with no held node at or below them.

## Main definitions

* `Forest` — a node set closed under `parent`, with decreasing ranks.
* `Forest.Below` — being an ancestor of a node or that node.
* `Forest.reclaimable` — the nodes with no held node at or below them.
* `Forest.Evicts` — a sequence of moves.
* `Forest.Evicts.card_add`, `Forest.Evicts.toFinset_eq` — what the moves remove.
-/

namespace LightServe

variable {ι : Type*}

/-- A finite node set closed under the parent function, parents ranked below children. -/
structure Forest (ι : Type*) where
  nodes : Finset ι
  parent : ι → Option ι
  rank : ι → ℕ
  parent_mem : ∀ {a b}, b ∈ nodes → parent b = some a → a ∈ nodes
  rank_lt : ∀ {a b}, b ∈ nodes → parent b = some a → rank a < rank b

namespace Forest

/-- `a` is `b` or an ancestor of `b`. -/
def Below (F : Forest ι) (a b : ι) : Prop :=
  Relation.ReflTransGen (fun x y => F.parent y = some x) a b

/-- A node without children. -/
def Leaf (F : Forest ι) (a : ι) : Prop := a ∈ F.nodes ∧ ∀ b ∈ F.nodes, F.parent b ≠ some a

open Classical in
/-- The nodes with no held node at or below them. -/
noncomputable def reclaimable (F : Forest ι) (held : ι → Prop) : Finset ι :=
  {a ∈ F.nodes | ∀ b ∈ F.nodes, F.Below a b → ¬ held b}

theorem mem_reclaimable {F : Forest ι} {held : ι → Prop} {a : ι} :
    a ∈ F.reclaimable held ↔ a ∈ F.nodes ∧ ∀ b ∈ F.nodes, F.Below a b → ¬ held b := by
  simp [reclaimable]

/-- Below a leaf there is only the leaf. -/
theorem Leaf.eq_of_below {F : Forest ι} {a b : ι} (h : F.Leaf a) (hb : b ∈ F.nodes)
    (hab : F.Below a b) : b = a := by
  induction hab with
  | refl => rfl
  | tail _ hp ih =>
    have := ih (F.parent_mem hb hp)
    subst this
    exact absurd hp (h.2 _ hb)

theorem Leaf.mem_reclaimable {F : Forest ι} {held : ι → Prop} {a : ι} (h : F.Leaf a)
    (ha : ¬ held a) : a ∈ F.reclaimable held :=
  Forest.mem_reclaimable.mpr ⟨h.1, fun b hb hab => by rwa [h.eq_of_below hb hab]⟩

/-- The reclaimable nodes are closed downwards. -/
theorem child_mem_reclaimable {F : Forest ι} {held : ι → Prop} {a b : ι}
    (ha : a ∈ F.reclaimable held) (hb : b ∈ F.nodes) (hp : F.parent b = some a) :
    b ∈ F.reclaimable held := by
  rw [mem_reclaimable] at ha ⊢
  exact ⟨hb, fun c hc hbc => ha.2 c hc (Relation.ReflTransGen.head hp hbc)⟩

/-- While something is reclaimable, some leaf is: the one of greatest rank. -/
theorem exists_leaf {F : Forest ι} {held : ι → Prop} (h : (F.reclaimable held).Nonempty) :
    ∃ a, F.Leaf a ∧ ¬ held a := by
  obtain ⟨a, ha, hmax⟩ := (F.reclaimable held).exists_max_image F.rank h
  have ha' := mem_reclaimable.mp ha
  refine ⟨a, ⟨ha'.1, fun b hb hp => ?_⟩, ha'.2 a ha'.1 Relation.ReflTransGen.refl⟩
  have hlt := F.rank_lt hb hp
  have hle := hmax b (child_mem_reclaimable ha hb hp)
  omega

section Erase
variable [DecidableEq ι]

/-- The forest without one of its leaves. -/
def erase (F : Forest ι) {a : ι} (h : F.Leaf a) : Forest ι where
  nodes := F.nodes.erase a
  parent := F.parent
  rank := F.rank
  parent_mem := by
    intro x b hb hp
    have hb' := Finset.mem_of_mem_erase hb
    refine Finset.mem_erase.mpr ⟨fun hxa => ?_, F.parent_mem hb' hp⟩
    exact h.2 b hb' (hxa ▸ hp)
  rank_lt := fun hb hp => F.rank_lt (Finset.mem_of_mem_erase hb) hp

/-- Removing an unheld leaf takes that leaf, and nothing else, off the reclaimable nodes. -/
theorem reclaimable_erase {F : Forest ι} {held : ι → Prop} {a : ι} (h : F.Leaf a)
    (ha : ¬ held a) : (F.erase h).reclaimable held = (F.reclaimable held).erase a := by
  ext x
  simp only [mem_reclaimable, Finset.mem_erase]
  constructor
  · rintro ⟨hx, hall⟩
    have hx := Finset.mem_erase.mp hx
    refine ⟨hx.1, hx.2, fun b hb hxb => ?_⟩
    by_cases hba : b = a
    · rwa [hba]
    · exact hall b (Finset.mem_erase.mpr ⟨hba, hb⟩) hxb
  · rintro ⟨hxa, hx, hall⟩
    exact ⟨Finset.mem_erase.mpr ⟨hxa, hx⟩,
      fun b hb hxb => hall b (Finset.mem_of_mem_erase hb) hxb⟩

/-- A sequence of moves: each removes an unheld leaf of what is left. -/
inductive Evicts (held : ι → Prop) : Forest ι → List ι → Forest ι → Prop
  | nil (F : Forest ι) : Evicts held F [] F
  | cons {F G : Forest ι} {a : ι} {as : List ι} (h : F.Leaf a) (ha : ¬ held a)
      (rest : Evicts held (F.erase h) as G) : Evicts held F (a :: as) G

/-- No held node is removed. -/
theorem Evicts.not_held {held : ι → Prop} {F G : Forest ι} {as : List ι} (h : Evicts held F as G) :
    ∀ a ∈ as, ¬ held a := by
  induction h with
  | nil F => simp
  | cons _ ha _ ih => exact List.forall_mem_cons.mpr ⟨ha, ih⟩

/-- Every move removes one reclaimable node. -/
theorem Evicts.card_add {held : ι → Prop} {F G : Forest ι} {as : List ι}
    (h : Evicts held F as G) :
    as.length + (G.reclaimable held).card = (F.reclaimable held).card := by
  induction h with
  | nil F => simp
  | cons hl ha _ ih =>
    have hmem := hl.mem_reclaimable ha
    have hpos := Finset.card_pos.mpr ⟨_, hmem⟩
    rw [reclaimable_erase hl ha, Finset.card_erase_of_mem hmem] at ih
    rw [List.length_cons]
    omega

/-- A sequence that cannot be continued has removed every reclaimable node, each once. -/
theorem Evicts.toFinset_eq {held : ι → Prop} {F G : Forest ι} {as : List ι}
    (h : Evicts held F as G) (hdone : ∀ a, G.Leaf a → held a) :
    as.Nodup ∧ as.toFinset = F.reclaimable held := by
  induction h with
  | nil F =>
    refine ⟨List.nodup_nil, ?_⟩
    by_contra hne
    obtain ⟨a, hl, ha⟩ := exists_leaf (Finset.nonempty_iff_ne_empty.mpr (Ne.symm hne))
    exact ha (hdone a hl)
  | cons hl ha _ ih =>
    obtain ⟨hnodup, hset⟩ := ih hdone
    rw [reclaimable_erase hl ha] at hset
    have hmem := hl.mem_reclaimable ha
    refine ⟨List.nodup_cons.mpr ⟨?_, hnodup⟩, ?_⟩
    · rw [← List.mem_toFinset, hset]
      exact Finset.notMem_erase _ _
    · rw [List.toFinset_cons, hset, Finset.insert_erase hmem]

end Erase

end Forest

end LightServe
