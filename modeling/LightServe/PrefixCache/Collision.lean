import LightServe.Lib.Traces
import LightServe.PrefixCache.Eviction
import LightServe.PrefixCache.Lookup

/-!
# Hash collisions

The trie as its callers use it: look up and acquire, release what is held, insert computed
blocks, evict. A `Ledger` runs the trie next to two ghost records, the holds that are out
and the content path each block was last registered for. As long as no block is registered
under a hash that another node of the tree has, a lookup finds only what was registered for
it, nothing raises and nothing is lost, whatever the hash function; one block registered
under another's hash is enough to break `_by_hash`.

## Main definitions

* `Ledger.exec` — one call, with its bookkeeping.
* `Ledger.Permitted` — what the trie asks of its callers.
* `Ledger.Run` — the ledgers that calls meeting a condition lead to.
* `Ledger.Correct` — what a collision must not break.
-/

namespace LightServe

/-- A call of the trie. -/
inductive TrieCall
  | acquire (tokenIds : List Token) (m : PrefixMatch)
  | release (nodes : List NodeId)
  | insert (tokenIds : List Token) (ids : List BlockId) (n : ℕ) (known : List NodeId)
  | evict

/-- The trie, the holds that are out, and the content path each block is registered for:
the tokens from the root through the block. -/
structure Ledger where
  trie : RadixTrie
  holds : NodeId → ℕ := fun _ => 0
  registered : BlockId → Option (List Token) := fun _ => none

namespace Ledger

def empty (blockSize : ℕ) (hashFn : Option BlockHash → List Token → BlockHash) : Ledger where
  trie := { blockSize, hashFn }

/-- The blocks that an insertion registered, with their content paths: the nodes it returned
that were not there before. -/
def registrations (t : RadixTrie) (tokenIds : List Token) (ids : List BlockId)
    (nodes : List NodeId) : List (BlockId × List Token) :=
  (nodes.zip ids).zipIdx.filterMap fun ((m, b), i) =>
    if t.next ≤ m then some (b, tokenIds.take ((i + 1) * t.blockSize)) else none

/-- Run a call and keep the books. -/
def exec (L : Ledger) : TrieCall → Except EngineError Ledger
  | .acquire tokenIds m =>
    .ok { L with
      trie := L.trie.acquire m tokenIds.length
      holds := fun n => L.holds n + m.nodes.count n }
  | .release nodes => do
    let trie ← L.trie.release nodes
    return { L with trie, holds := fun n => L.holds n - nodes.count n }
  | .insert tokenIds ids n known => do
    let (trie, nodes) ← L.trie.insert tokenIds ids n known
    return {
      trie
      holds := fun m => L.holds m + (nodes.drop known.length).count m
      registered := fun b =>
        ((registrations L.trie tokenIds ids nodes).lookup b).or (L.registered b) }
  | .evict => do
    let (trie, freed) ← L.trie.evictOneLru
    return { L with
      trie
      registered := fun b => if freed = some b then none else L.registered b }

/-- What the trie asks of its callers: acquire what a lookup finds, release what is held,
insert beyond a held path of the same tokens, computed blocks with a block id each, ids that
are not registered yet. -/
def Permitted (L : Ledger) : TrieCall → Prop
  | .acquire tokenIds m => m.nodes <+: (L.trie.matchTokens tokenIds).nodes
  | .release nodes => ∀ n, nodes.count n ≤ L.holds n
  | .insert tokenIds ids n known =>
    n ≤ tokenIds.length ∧ n / L.trie.blockSize ≤ ids.length ∧
      known <+: (L.trie.matchTokens tokenIds).nodes ∧ (∀ m ∈ known, 0 < L.holds m) ∧
      (ids.drop known.length).Nodup ∧ ∀ b ∈ ids.drop known.length, L.registered b = none
  | .evict => True

instance (L : Ledger) : (c : TrieCall) → Decidable (L.Permitted c)
  | .acquire _ _ => inferInstanceAs (Decidable (_ <+: _))
  | .release nodes => decidable_of_iff (∀ n ∈ nodes, nodes.count n ≤ L.holds n)
    ⟨fun h n => if hn : n ∈ nodes then h n hn else List.count_eq_zero_of_not_mem hn ▸ Nat.zero_le _,
      fun h n _ => h n⟩
  | .insert _ _ _ _ => inferInstanceAs (Decidable (_ ∧ _ ∧ _ <+: _ ∧ _))
  | .evict => .isTrue trivial

/-- No block is registered under a hash that `_by_hash` already has. -/
def ClashFree (L : Ledger) : TrieCall → Prop
  | .insert tokenIds ids n known => L.trie.InsertClashFree tokenIds ids n known
  | _ => True

instance (L : Ledger) : (c : TrieCall) → Decidable (L.ClashFree c)
  | .insert _ _ _ _ => inferInstanceAs (Decidable (L.trie.InsertClashFree _ _ _ _))
  | .acquire _ _ | .release _ | .evict => .isTrue trivial

/-- The ledgers that permitted calls lead to, from the empty trie, when every call meets
`Meets` in the state it is made in. -/
inductive Run (Meets : Ledger → TrieCall → Prop) (start : Ledger) : Ledger → Prop
  | start : Run Meets start start
  | call {L L' : Ledger} (c : TrieCall) (h : Run Meets start L) (hp : L.Permitted c)
      (hm : Meets L c) (hc : L.exec c = .ok L') : Run Meets start L'

/-- Make calls in a row, each permitted and meeting `Meets` in the state it is made in. -/
def execAll (Meets : Ledger → TrieCall → Prop) [∀ L c, Decidable (Meets L c)] (L : Ledger)
    (calls : List TrieCall) : Option Ledger :=
  Trace.play (fun L c => (L.exec c).toOption) (fun L c => L.Permitted c ∧ Meets L c) L calls

theorem Run.execAll {Meets : Ledger → TrieCall → Prop} [∀ L c, Decidable (Meets L c)]
    {start L L' : Ledger} (h : Run Meets start L) {calls : List TrieCall}
    (hrun : L.execAll Meets calls = some L') : Run Meets start L' :=
  Trace.invariant_of_play
    (fun _ c _ _ h hm hexec => h.call c hm.1 hm.2 (toOption_eq_some.mp hexec)) hrun h

end Ledger

/-- What a collision must not break. -/
structure Ledger.Correct (L : Ledger) : Prop where
  /-- A lookup returns blocks registered for the prefix they are returned for, and so none
  that was evicted since. -/
  match_registered : ∀ tokenIds i b,
    (L.trie.matchTokens tokenIds).physicalBlockIds[i]? = some b →
      L.registered b = some (tokenIds.take ((i + 1) * L.trie.blockSize))
  evict_returns : ∃ res, L.trie.evictOneLru = .ok res
  insert_returns : ∀ tokenIds ids n known, L.Permitted (.insert tokenIds ids n known) →
    ∃ res, L.trie.insert tokenIds ids n known = .ok res
  /-- Repeated eviction returns every node with nothing held at or below it. -/
  reclaims : ∀ v, L.trie.InTree v → (∀ u, L.trie.AtOrBelow v u → L.holds u = 0) →
    ∃ times t' freed, RadixTrie.evictTimes times L.trie = .ok (t', freed) ∧
      (L.trie.node v).physicalBlockId ∈ freed

namespace Ledger

/-- What clash-free calls preserve. -/
structure Balanced (L : Ledger) : Prop where
  keeps : L.trie.Keeps L.holds
  registered : ∀ a n, L.trie.IsPath (a ++ [n]) →
    L.registered (L.trie.node n).physicalBlockId = some (L.trie.content (a ++ [n]))
  injective : ∀ n m, L.trie.Live n → L.trie.Live m →
    (L.trie.node n).physicalBlockId = (L.trie.node m).physicalBlockId → n = m

theorem balanced_empty (blockSize : ℕ) (hashFn : Option BlockHash → List Token → BlockHash) :
    (empty blockSize hashFn).Balanced where
  keeps := RadixTrie.keeps_empty blockSize hashFn
  registered a n h := by
    have := h.live n (by simp)
    simp [empty, RadixTrie.Live] at this
  injective n m hn := by simp [empty, RadixTrie.Live] at hn

/-- Holds come and go without touching what is registered. -/
theorem Balanced.sameShape {L L' : Ledger} (h : L.Balanced) (hs : L.trie.SameShape L'.trie)
    (hr : L'.registered = L.registered) (hk : L'.trie.Keeps L'.holds) : L'.Balanced where
  keeps := hk
  registered a n hpath := by
    rw [hr, hs.physicalBlockId, hs.content]
    exact h.registered a n (hs.isPath.mp hpath)
  injective n m hn hm := by
    rw [hs.physicalBlockId, hs.physicalBlockId]
    exact h.injective n m (hs.live.mp hn) (hs.live.mp hm)

theorem Balanced.evict {L : Ledger} (h : L.Balanced) {t' : RadixTrie} {freed : Option BlockId}
    (hrun : L.trie.evictOneLru = .ok (t', freed)) :
    Balanced { L with
      trie := t', registered := fun b => if freed = some b then none else L.registered b } := by
  rcases h.keeps.evictOneLru with ⟨hnone, -⟩ | ⟨v, u, hsome, hv, -, -, hp, ku, -⟩
  · rw [hrun] at hnone
    cases hnone
    simpa using h
  · rw [hrun] at hsome
    cases hsome
    refine ⟨ku, fun a n hpath => ?_, fun n m hn hm => ?_⟩
    · obtain ⟨hpath, havoid⟩ := hp.isPath_iff.mp hpath
      have hn : n ≠ v := fun e => havoid n (by simp) (by simp [e])
      have hlive := hpath.live n (by simp)
      simp only [hp.physicalBlockId, hp.content]
      rw [if_neg fun e => hn (h.injective n v hlive hv (Option.some.inj e).symm)]
      exact h.registered a n hpath
    · simp only [hp.physicalBlockId]
      exact h.injective n m ((hp.live n).mp hn).1 ((hp.live m).mp hm).1

theorem mem_registrations {t : RadixTrie} {tokenIds : List Token} {ids : List BlockId}
    {nodes : List NodeId} {b : BlockId} {path : List Token} :
    (b, path) ∈ registrations t tokenIds ids nodes ↔ ∃ (i : ℕ) (m : NodeId), nodes[i]? = some m ∧
      ids[i]? = some b ∧ t.next ≤ m ∧ path = tokenIds.take ((i + 1) * t.blockSize) := by
  simp only [registrations, List.mem_filterMap, List.mem_zipIdx_iff_getElem?, Prod.exists,
    List.getElem?_zip_eq_some]
  constructor
  · rintro ⟨m, b', i, ⟨hm, hb⟩, h⟩
    split at h
    · cases h
      exact ⟨i, m, hm, hb, ‹_›, rfl⟩
    · cases h
  · rintro ⟨i, m, hm, hb, hle, rfl⟩
    exact ⟨m, b, i, ⟨hm, hb⟩, by rw [if_pos hle]⟩

/-- A block registered before is not among the new ones. -/
private theorem lookup_registrations_none {t : RadixTrie} {tokenIds : List Token}
    {ids : List BlockId} {nodes : List NodeId} {b : BlockId}
    (h : ∀ (i : ℕ) m, nodes[i]? = some m → t.next ≤ m → ids[i]? ≠ some b) :
    (registrations t tokenIds ids nodes).lookup b = none := by
  rw [List.lookup_eq_none_iff]
  rintro ⟨b', path⟩ hmem
  obtain ⟨i, m, hm, hb, hle, -⟩ := mem_registrations.mp hmem
  rw [bne_iff_ne]
  rintro rfl
  exact h i m hm hle hb

/-- A new block is registered for its own prefix. -/
private theorem lookup_registrations {t : RadixTrie} {tokenIds : List Token}
    {ids : List BlockId} {nodes : List NodeId} {i : ℕ} {m : NodeId} {b : BlockId}
    (hm : nodes[i]? = some m) (hle : t.next ≤ m) (hb : ids[i]? = some b)
    (honly : ∀ (j : ℕ) m', nodes[j]? = some m' → t.next ≤ m' → ids[j]? = some b → j = i) :
    (registrations t tokenIds ids nodes).lookup b =
      some (tokenIds.take ((i + 1) * t.blockSize)) := by
  have hmem : (b, tokenIds.take ((i + 1) * t.blockSize)) ∈ registrations t tokenIds ids nodes :=
    mem_registrations.mpr ⟨i, m, hm, hb, hle, rfl⟩
  cases hlook : (registrations t tokenIds ids nodes).lookup b with
  | none =>
    have := (List.lookup_eq_none_iff.mp hlook) _ hmem
    simp at this
  | some path =>
    obtain ⟨l₁, l₂, hl, -⟩ := List.lookup_eq_some_iff.mp hlook
    have hpath : (b, path) ∈ registrations t tokenIds ids nodes := by rw [hl]; simp
    obtain ⟨j, m', hm', hb', hle', rfl⟩ := mem_registrations.mp hpath
    rw [honly j m' hm' hle' hb']

theorem Balanced.insert {L : Ledger} (h : L.Balanced) {tokenIds : List Token}
    {ids : List BlockId} {n : ℕ} {known : List NodeId}
    (hp : L.Permitted (.insert tokenIds ids n known))
    (hcf : L.ClashFree (.insert tokenIds ids n known)) {t' : RadixTrie} {nodes : List NodeId}
    (hrun : L.trie.insert tokenIds ids n known = .ok (t', nodes)) :
    Balanced {
      trie := t'
      holds := fun m => L.holds m + (nodes.drop known.length).count m
      registered := fun b =>
        ((registrations L.trie tokenIds ids nodes).lookup b).or (L.registered b) } := by
  obtain ⟨hn, hids, hprefix, -, hnodup, hfresh⟩ := hp
  have wf := h.keeps.toWellFormed
  obtain ⟨hpath, hcontent, hlen⟩ := wf.matchTokens tokenIds
  obtain ⟨rest, hrest⟩ := hprefix
  have hknown : L.trie.IsPath known := by
    rw [← hrest] at hpath
    exact (RadixTrie.isPath_append.mp hpath).1
  have hknownContent : L.trie.content known =
      tokenIds.take (known.length * L.trie.blockSize) := by
    have htake : known = (L.trie.matchTokens tokenIds).nodes.take known.length := by
      rw [← hrest, List.take_left]
    have hle : known.length ≤ (L.trie.matchTokens tokenIds).nodes.length := by
      rw [← hrest, List.length_append]
      exact Nat.le_add_right _ _
    conv_lhs => rw [htake, wf.content_take hpath, hcontent]
    rw [RadixTrie.numMatchedTokens_matchTokens, List.take_take,
      Nat.min_eq_left (Nat.mul_le_mul_right _ hle)]
  rcases h.keeps.insert hknown hn hcf hrun with ⟨-, rfl, rfl⟩ | ⟨-, old, new, rfl, hins, hkeeps⟩
  · -- nothing was computed: the books do not change
    have hdead : ∀ b, (registrations L.trie tokenIds ids
        (known.take (n / L.trie.blockSize))).lookup b = none := fun b =>
      lookup_registrations_none fun i m hm hle =>
        absurd (wf.lt_next_of_live (hknown.live m
          (List.mem_of_mem_take (List.mem_of_getElem? hm)))) (Nat.not_lt.mpr hle)
    have hdrop : (known.take (n / L.trie.blockSize)).drop known.length = [] := by simp
    simpa only [hdead, hdrop, List.count_nil, Nat.add_zero, Option.none_or] using h
  · have wf' := hkeeps.toWellFormed
    have hg := hins.grown
    have hcontent' := hins.content hknownContent
    have hfresh' : ∀ (i : ℕ) m b, (known ++ old ++ new)[i]? = some m → L.trie.next ≤ m →
        ids[i]? = some b → L.registered b = none := by
      intro i m b hm hle hb
      have hi := hins.le_of_fresh wf hknown.live hm hle
      refine hfresh b (List.mem_iff_getElem?.mpr ⟨i - known.length, ?_⟩)
      rw [List.getElem?_drop, ← hb]
      congr 1
      omega
    have hid : ∀ (i : ℕ) m, (known ++ old ++ new)[i]? = some m → L.trie.next ≤ m →
        ids[i]? = some (t'.node m).physicalBlockId :=
      fun i m hm hle => hins.id_fresh wf hknown.live hm hle
    have hfound : ∀ m ∈ new, ∃ i : ℕ, (known ++ old ++ new)[i]? = some m ∧ L.trie.next ≤ m := by
      intro m hm
      obtain ⟨i, hi⟩ := List.mem_iff_getElem?.mp (List.mem_append_right (known ++ old) hm)
      exact ⟨i, hi, hg.fresh m hm⟩
    refine ⟨hkeeps.congr fun m => ?_, fun a m ha => ?_, fun m m' hm hm' heq => ?_⟩
    · rw [List.append_assoc, List.drop_left]
    · show ((registrations _ _ _ _).lookup (t'.node m).physicalBlockId).or _ = _
      rcases (hg.live m).mp (ha.live m (by simp)) with hold | hm
      · -- a node that was there keeps its chain and its registration
        obtain ⟨a', ha'⟩ := wf.exists_path hold
        have : a' = a := wf'.path_unique (hg.isPathFrom wf ha') ha
        subst this
        have hreg := h.registered a' m ha'
        rw [hg.physicalBlockId m (wf.lt_next_of_live hold), hg.content wf ha'.live,
          lookup_registrations_none, hreg, Option.none_or]
        intro i m' hm' hle hb
        rw [hfresh' i m' _ hm' hle hb] at hreg
        cases hreg
      · -- a new node is registered for the prefix it ends
        obtain ⟨i, hi, hle⟩ := hfound m hm
        rw [lookup_registrations hi hle (hid i m hi hle)
          fun j m' hm' hle' hb' =>
            hins.index_fresh wf hknown.live hnodup hi hle (hid i m hi hle) hm' hle' hb']
        have hsplit : (known ++ old ++ new).take (i + 1) = (known ++ old ++ new).take i ++ [m] := by
          rw [List.take_add_one, hi, Option.toList_some]
        have hpath' := hins.path.take (i + 1)
        rw [hsplit] at hpath'
        have hi' : i + 1 ≤ (known ++ old ++ new).length :=
          (List.getElem?_eq_some_iff.mp hi).1
        rw [wf'.path_unique ha hpath', ← hsplit, Option.some_or, wf'.content_take hins.path,
          hcontent', hg.blockSize, List.take_take, Nat.min_eq_left (Nat.mul_le_mul_right _ hi')]
    · show m = m'
      have hcross : ∀ {x y}, L.trie.Live x → y ∈ new →
          (t'.node x).physicalBlockId ≠ (t'.node y).physicalBlockId := by
        intro x y hx hy hxy
        obtain ⟨a, ha⟩ := wf.exists_path hx
        obtain ⟨i, hi, hle⟩ := hfound y hy
        have hnone := hfresh' i y _ hi hle (hid i y hi hle)
        rw [← hxy, hg.physicalBlockId x (wf.lt_next_of_live hx), h.registered a x ha] at hnone
        cases hnone
      rcases (hg.live m).mp hm with hold | hn <;> rcases (hg.live m').mp hm' with hold' | hn'
      · rw [hg.physicalBlockId m (wf.lt_next_of_live hold),
          hg.physicalBlockId m' (wf.lt_next_of_live hold')] at heq
        exact h.injective m m' hold hold' heq
      · exact absurd heq (hcross hold hn')
      · exact absurd heq.symm (hcross hold' hn)
      · obtain ⟨i, hi, hle⟩ := hfound m hn
        obtain ⟨j, hj, hle'⟩ := hfound m' hn'
        have hb := hid i m hi hle
        have hb' := hid j m' hj hle'
        rw [show (t'.node m).physicalBlockId = (t'.node m').physicalBlockId from heq] at hb
        rw [hins.index_fresh wf hknown.live hnodup hi hle hb hj hle' hb', hi] at hj
        exact Option.some.inj hj

/-- Permitted clash-free calls keep the books balanced. -/
theorem Balanced.exec {L L' : Ledger} (h : L.Balanced) {c : TrieCall} (hp : L.Permitted c)
    (hcf : L.ClashFree c) (hc : L.exec c = .ok L') : L'.Balanced := by
  cases c with
  | acquire tokenIds m =>
    cases hc
    have hlive : ∀ n ∈ m.nodes, L.trie.Live n := fun n hn =>
      (h.keeps.toWellFormed.matchTokens tokenIds).1.live n (hp.subset hn)
    exact h.sameShape (RadixTrie.sameShape_acquire ..) rfl (h.keeps.acquire hlive _)
  | release nodes =>
    obtain ⟨t', ht', hs, hk⟩ := h.keeps.release hp
    simp only [Ledger.exec, ht', ok_bind, pure_eq_ok] at hc
    subst hc
    exact h.sameShape hs rfl hk
  | insert tokenIds ids n known =>
    obtain ⟨⟨t', nodes⟩, hrun, hret⟩ := bind_eq_ok.mp hc
    cases hret
    exact h.insert hp hcf hrun
  | evict =>
    obtain ⟨⟨t', freed⟩, hrun, hret⟩ := bind_eq_ok.mp hc
    cases hret
    exact h.evict hrun

theorem Run.balanced {blockSize : ℕ} {hashFn : Option BlockHash → List Token → BlockHash}
    {L : Ledger} (h : Run ClashFree (empty blockSize hashFn) L) : L.Balanced := by
  induction h with
  | start => exact balanced_empty blockSize hashFn
  | call c _ hp hm hc ih => exact ih.exec hp hm hc

/-- Balanced books are correct. -/
theorem Balanced.correct {L : Ledger} (h : L.Balanced) : L.Correct where
  match_registered tokenIds i b hb := by
    have wf := h.keeps.toWellFormed
    obtain ⟨hpath, hcontent, -⟩ := wf.matchTokens tokenIds
    rw [RadixTrie.physicalBlockIds_matchTokens, List.getElem?_map, Option.map_eq_some_iff] at hb
    obtain ⟨m, hm, rfl⟩ := hb
    have hi : i + 1 ≤ (L.trie.matchTokens tokenIds).nodes.length :=
      (List.getElem?_eq_some_iff.mp hm).1
    have hsplit : (L.trie.matchTokens tokenIds).nodes.take (i + 1) =
        (L.trie.matchTokens tokenIds).nodes.take i ++ [m] := by
      rw [List.take_add_one, hm, Option.toList_some]
    have hpath' := hpath.take (i + 1)
    rw [hsplit] at hpath'
    rw [h.registered _ m hpath', ← hsplit, wf.content_take hpath, hcontent,
      RadixTrie.numMatchedTokens_matchTokens, List.take_take,
      Nat.min_eq_left (Nat.mul_le_mul_right _ hi)]
  evict_returns := by
    rcases h.keeps.evictOneLru with ⟨hnone, -⟩ | ⟨_, _, hsome, -⟩
    · exact ⟨_, hnone⟩
    · exact ⟨_, hsome⟩
  insert_returns _ _ _ known hp := RadixTrie.insert_isOk _ _ known hp.2.1
  reclaims v hv hheld := by
    have wf := h.keeps.toWellFormed
    obtain ⟨F, hF⟩ := wf.exists_shows
    obtain ⟨times, t', vs, hrun, hall⟩ := h.keeps.evictTimes_exhausts hF
    refine ⟨times, t', _, hrun, List.mem_map_of_mem (hall v ?_)⟩
    have hlive := wf.live_of_inTree hv
    refine Forest.mem_reclaimable.mpr ⟨(hF.mem_nodes v).mpr hlive, fun b hb hvb => ?_⟩
    rw [hheld b ((hF.below_iff wf hlive).mp ⟨(hF.mem_nodes b).mp hb, hvb⟩)]
    exact Nat.lt_irrefl 0

/-- Whatever the hash function, a run without a clash leaves a correct trie: collisions
within one level included, where the walks stop at the tokens that differ. -/
theorem correct_of_run {blockSize : ℕ} {hashFn : Option BlockHash → List Token → BlockHash}
    {L : Ledger} (h : Run ClashFree (empty blockSize hashFn) L) : L.Correct :=
  h.balanced.correct

/-- A hash that depends on nothing but the depth of the block. -/
def depthHash (parent : Option BlockHash) (_ : List Token) : BlockHash := parent.elim 0 (· + 1)

/-- Under a hash of the depth alone every two children of a node collide. The second of two prompts
that part after a block shares that block only, until the other's last block is evicted: then its
own is registered in the place. -/
theorem correct_of_run_collide : ∃ L L', Run ClashFree (empty 1 depthHash) L ∧
    (L.trie.matchTokens [5, 7]).physicalBlockIds = [0] ∧ L.holds 0 = 3 ∧ L.Correct ∧
    L.execAll ClashFree [.release [0, 1], .release [0, 1], .release [0], .evict,
      .insert [5, 7] [2, 3] 2 []] = some L' ∧
    (L'.trie.matchTokens [5, 7]).physicalBlockIds = [0, 3] ∧
    (L'.trie.matchTokens [5, 6]).physicalBlockIds = [0] ∧ L'.registered 1 = none ∧ L'.Correct := by
  have hcollide : ((empty 1 depthHash).execAll ClashFree
      [.insert [5, 6] [0, 1] 2 [], .insert [5, 7] [2, 3] 2 [],
        .acquire [5, 6, 9] ⟨[0, 1], 2, [0, 1]⟩]).any (fun L =>
      (L.execAll ClashFree [.release [0, 1], .release [0, 1], .release [0], .evict,
        .insert [5, 7] [2, 3] 2 []]).any fun L' => decide (
          (L.trie.matchTokens [5, 7]).physicalBlockIds = [0] ∧ L.holds 0 = 3 ∧
          (L'.trie.matchTokens [5, 7]).physicalBlockIds = [0, 3] ∧
          (L'.trie.matchTokens [5, 6]).physicalBlockIds = [0] ∧ L'.registered 1 = none)) =
            true := by
    decide +kernel
  simp only [Option.any_eq_true, decide_eq_true_eq] at hcollide
  obtain ⟨L, hrun, L', hrest, hfirst, hheld, hsecond, hother, hgone⟩ := hcollide
  have hrun := Run.execAll .start hrun
  exact ⟨L, L', hrun, hfirst, hheld, correct_of_run hrun, hrest, hsecond, hother, hgone,
    correct_of_run (hrun.execAll hrest)⟩

/-- A block that hashes like its parent takes the parent's place in `_by_hash`, and evicting
it looks for it among its own children. -/
theorem not_correct_of_clash : ¬ ∀ (blockSize : ℕ)
    (hashFn : Option BlockHash → List Token → BlockHash) (L : Ledger),
    Run (fun _ _ => True) (empty blockSize hashFn) L → L.Correct := by
  intro h
  have hraises : ((empty 1 fun _ _ => 0).execAll (fun _ _ => True)
      [.insert [5, 6] [0, 1] 2 [], .release [0, 1]]).any
      (fun L => L.trie.evictOneLru.toOption.isNone) = true := by decide +kernel
  obtain ⟨L, hrun, hraises⟩ := (Option.any_eq_true _ _).mp hraises
  obtain ⟨res, hres⟩ := (h 1 (fun _ _ => 0) L (Run.execAll .start hrun)).evict_returns
  rw [hres] at hraises
  cases hraises

end Ledger

end LightServe
