import LightServe.PrefixCache.Tree

/-!
# Holds on cached blocks

`RadixTrie.Keeps t H` says that the trie is well formed and counts the holds `H` exactly,
and that only nodes of the tree are held. `acquire` and `release` move `H` by the nodes
they name and leave the shape of the tree alone.
-/

namespace LightServe

namespace RadixTrie

/-- The trie counts the holds `H`: every node's `refCount` is its holds, and only nodes of
the tree are held. -/
structure Keeps (t : RadixTrie) (H : NodeId → ℕ) : Prop extends t.WellFormed where
  refCount_eq : ∀ {n}, t.Live n → (t.node n).refCount = H n
  live_of_held : ∀ {n}, 0 < H n → t.Live n

theorem Keeps.congr {t : RadixTrie} {H H' : NodeId → ℕ} (k : t.Keeps H) (h : ∀ n, H' n = H n) :
    t.Keeps H' := (funext h : H' = H) ▸ k

/-- The empty trie keeps no holds. -/
theorem keeps_empty (blockSize : ℕ) (hashFn : Option BlockHash → List Token → BlockHash) :
    Keeps { blockSize, hashFn } fun _ => 0 := by
  constructor
  · constructor <;> simp
  · exact fun _ => rfl
  · simp

/-! ## Acquire -/

theorem sameShape_hold (t : RadixTrie) (n : NodeId) : t.SameShape (t.hold n) :=
  sameShape_modify t n _ fun _ => ⟨rfl, rfl, rfl, rfl, rfl⟩

theorem refCount_hold (t : RadixTrie) (n m : NodeId) :
    ((t.hold n).node m).refCount = (t.node m).refCount + if m = n then 1 else 0 := by
  by_cases h : m = n
  · subst h; simp [hold, modify]
  · simp [hold, modify, h]

private theorem sameShape_foldl_hold (ns : List NodeId) (t : RadixTrie) :
    t.SameShape (ns.foldl hold t) := by
  induction ns generalizing t with
  | nil => exact .refl t
  | cons n ns ih => exact (sameShape_hold t n).trans (ih (t.hold n))

private theorem refCount_foldl_hold (ns : List NodeId) (t : RadixTrie) (m : NodeId) :
    ((ns.foldl hold t).node m).refCount = (t.node m).refCount + ns.count m := by
  induction ns generalizing t with
  | nil => simp
  | cons n ns ih =>
    rw [List.foldl_cons, ih, refCount_hold, List.count_cons]
    by_cases h : m = n
    · subst h; simp; omega
    · have : ¬ n = m := fun e => h e.symm
      simp [h, this]

theorem sameShape_acquire (t : RadixTrie) (m : PrefixMatch) (k : ℕ) :
    t.SameShape (t.acquire m k) := by
  have h := sameShape_foldl_hold m.nodes { t with clock := t.clock + 1 }
  exact ⟨h.1, h.2, h.3, h.4, h.5, h.6, h.7, h.8, h.9, h.10⟩

theorem refCount_acquire (t : RadixTrie) (m : PrefixMatch) (k : ℕ) (n : NodeId) :
    ((t.acquire m k).node n).refCount = (t.node n).refCount + m.nodes.count n :=
  refCount_foldl_hold m.nodes { t with clock := t.clock + 1 } n

/-- `acquire` adds a hold on each node of the match. -/
theorem Keeps.acquire {t : RadixTrie} {H : NodeId → ℕ} (k : t.Keeps H) {m : PrefixMatch}
    (hm : ∀ n ∈ m.nodes, t.Live n) (tokens : ℕ) :
    (t.acquire m tokens).Keeps fun n => H n + m.nodes.count n where
  toWellFormed := (sameShape_acquire t m tokens).wellFormed k.toWellFormed
  refCount_eq hn := by
    rw [refCount_acquire, k.refCount_eq ((sameShape_acquire t m tokens).live.mp hn)]
  live_of_held {n} hn := by
    rw [(sameShape_acquire t m tokens).live]
    rcases Nat.eq_zero_or_pos (H n) with h0 | hpos
    · exact hm n (List.count_pos_iff.mp (by omega))
    · exact k.live_of_held hpos

/-! ## Release -/

/-- `release` succeeds when every node has the holds it gives back, and takes exactly
those. -/
theorem Keeps.release {t : RadixTrie} {H : NodeId → ℕ} (k : t.Keeps H) {ns : List NodeId}
    (hns : ∀ n, ns.count n ≤ H n) :
    ∃ t', t.release ns = .ok t' ∧ t.SameShape t' ∧ t'.Keeps fun n => H n - ns.count n := by
  induction ns generalizing t H with
  | nil => exact ⟨t, rfl, .refl t, k.congr (by simp)⟩
  | cons n ns ih =>
    have hn : 0 < H n := by
      have := hns n
      rw [List.count_cons_self] at this
      omega
    have hlive := k.live_of_held hn
    have href := k.refCount_eq hlive
    set u := t.modify n fun node => { node with refCount := node.refCount - 1 } with hu
    have hshape : t.SameShape u := sameShape_modify t n _ fun _ => ⟨rfl, rfl, rfl, rfl, rfl⟩
    have hcount : ∀ m, (u.node m).refCount = (t.node m).refCount - if m = n then 1 else 0 := by
      intro m
      by_cases h : m = n
      · subst h; simp [hu, modify]
      · simp [hu, modify, h]
    have hkeeps : u.Keeps fun m => H m - if m = n then 1 else 0 :=
      { toWellFormed := hshape.wellFormed k.toWellFormed
        refCount_eq := fun {m} hm => by rw [hcount, k.refCount_eq (hshape.live.mp hm)]
        live_of_held := fun {m} hm => hshape.live.mpr (k.live_of_held (by omega)) }
    obtain ⟨t', ht', hs', hk'⟩ := ih hkeeps fun m => by
      have := hns m
      rw [List.count_cons] at this
      by_cases h : m = n
      · subst h; simp at this ⊢; omega
      · have h' : ¬ n = m := fun e => h e.symm
        simpa [h, h'] using this
    refine ⟨t', ?_, hshape.trans hs', hk'.congr fun m => ?_⟩
    · rw [RadixTrie.release, if_neg (by omega)]
      exact ht'
    · rw [List.count_cons]
      by_cases h : m = n
      · subst h; simp; omega
      · have h' : ¬ n = m := fun e => h e.symm
        simp [h, h']

end RadixTrie

end LightServe
