import LightServe.Memory.Tenants
import LightServe.Model.PagedRunner

/-!
# What the cache holds

Behind the table of a tenant the cache holds the entries of the tokens it knows, and behind a node
of the trie those of the tokens on the node's path. The block manager never touches a slot, and a
forward pass changes slots of private blocks only: where a request writes to a block of the trie,
it writes what is there.

## Main definitions

* `Stored` — the entries behind tables and nodes.
* `Stored.moves`, `Stored.register` — the operations of the block manager keep it.
* `Stored.attend` — a request computes its next tokens, and leaves everybody else's slots alone.
-/

namespace LightServe

variable {κ : Type} {m : CausalModel Token κ} {kv kv' : KvCache κ} {bm bm' : BlockManager}
  {ts ts' : List Tenant} {t : Tenant} {r r' : Request} {prompts : Set (List Token)}

/-- The slots of tables hold what their tenants know, and those of a node's block the entries of the
last tokens on its path. -/
structure Stored (m : CausalModel Token κ) (kv : KvCache κ) (bm : BlockManager) (ts : List Tenant) :
    Prop where
  blockSize : kv.blockSize = bm.blockSize
  tables : ∀ t ∈ ts, kv.Holds (bm.tableOf t.requestId) (m.cache t.known)
  nodes : ∀ ns n, bm.tree.IsPath (ns ++ [n]) → ∀ i < bm.blockSize,
    (m.cache (bm.tree.content (ns ++ [n])))[ns.length * bm.blockSize + i]? =
      some (kv.slot ((bm.tree.node n).physicalBlockId, i))

/-- What a table holds of a sequence it holds of its prefixes. -/
theorem KvCache.Holds.shorten {table : List BlockId} {a b : List Token}
    (h : kv.Holds table (m.cache b)) (hab : a <+: b) : kv.Holds table (m.cache a) := by
  rw [List.prefix_iff_eq_take.mp hab, ← m.take_cache]
  exact h.take _

namespace Stored

/-- An empty pool has no nodes and no tables. -/
theorem new (m : CausalModel Token κ) {c : CacheConfig}
    (hashFn : Option BlockHash → List Token → BlockHash) (hsize : kv.blockSize = c.blockSize) :
    Stored m kv (.new c hashFn) [] where
  blockSize := hsize
  tables t ht := (List.not_mem_nil ht).elim
  nodes ns n hpath := by
    have hempty : (BlockManager.new c hashFn).tree.byHash = ∅ := by
      unfold BlockManager.tree BlockManager.new
      split <;> rfl
    have hlive := hpath.live n (List.mem_append_right _ (List.mem_singleton_self n))
    rw [RadixTrie.Live, hempty] at hlive
    cases hlive

/-- Tenants may come to know less. -/
theorem weaken (st : Stored m kv bm ts)
    (h : ∀ t' ∈ ts', ∃ t ∈ ts, t.requestId = t'.requestId ∧ t'.known <+: t.known) :
    Stored m kv bm ts' := by
  refine ⟨st.blockSize, fun t' ht' => ?_, st.nodes⟩
  obtain ⟨t, ht, hid, hknown⟩ := h t' ht'
  rw [← hid]
  exact (st.tables t ht).shorten hknown

/-- The blocks of a path hold the entries of its tokens. -/
theorem path (st : Stored m kv bm ts) (p : Partition bm (stakesOf ts)) {ns : List NodeId}
    (h : bm.tree.IsPath ns) :
    kv.Holds (ns.map fun n => (bm.tree.node n).physicalBlockId) (m.cache (bm.tree.content ns)) := by
  have hlen := p.wellFormed.length_content h
  rw [p.blockSize] at hlen
  refine ⟨by rw [m.length_cache, hlen, List.length_map, st.blockSize], fun q hq => ?_⟩
  rw [m.length_cache, hlen] at hq
  have hdiv : q / bm.blockSize < ns.length := Nat.div_lt_of_lt_mul (by rwa [Nat.mul_comm])
  have hpos : 0 < bm.blockSize := Nat.pos_of_ne_zero fun hzero => by simp [hzero] at hq
  have htake : ns.take (q / bm.blockSize + 1) =
      ns.take (q / bm.blockSize) ++ [ns[q / bm.blockSize]] :=
    List.take_succ_eq_append_getElem hdiv
  have hnode := st.nodes (ns.take (q / bm.blockSize)) ns[q / bm.blockSize] (htake ▸ h.take _)
    (q % bm.blockSize) (Nat.mod_lt _ hpos)
  rw [← htake, p.wellFormed.content_take h, p.blockSize, List.length_take,
    Nat.min_eq_left hdiv.le, Nat.div_add_mod'] at hnode
  have hlt : q < (q / bm.blockSize + 1) * bm.blockSize := by
    rw [Nat.mul_comm]
    exact Nat.lt_mul_div_succ q hpos
  rw [m.getElem?_cache_take _ _ hlt,
    List.getElem?_eq_getElem (by rw [m.length_cache, hlen]; exact hq)]
    at hnode
  rw [KvCache.location, st.blockSize, List.getD_eq_getElem _ _ (by rwa [List.length_map]),
    List.getElem_map]
  exact (Option.some.inj hnode).symm

/-! ## The block manager -/

theorem move {x y : BlockManager × List Tenant} (h : TenantMove x y)
    (p : Partition x.1 (stakesOf x.2)) (st : Stored m kv x.1 x.2) : Stored m kv y.1 y.2 := by
  have hm := h.moved p
  refine ⟨st.blockSize.trans hm.blockSize.symm, fun t ht => ?_, fun ns n hpath => ?_⟩
  · rcases hm.tenants t ht with ⟨hmem, more, htable⟩ | ⟨hpath, -, hknown, more, htable⟩
    · rw [htable]
      exact (st.tables t hmem).append more
    · rw [htable, hknown]
      exact (st.path p hpath).append more
  · rw [hm.content, hm.blockSize, hm.physicalBlockId]
    exact st.nodes ns n (hm.path _ hpath)

theorem moves {x y : BlockManager × List Tenant} (h : Relation.ReflTransGen TenantMove x y)
    (l : Lodging prompts x.1 x.2) (st : Stored m kv x.1 x.2) : Stored m kv y.1 y.2 := by
  induction h with
  | refl => exact st
  | tail hs hm ih => exact ih.move hm (l.moves hs).partition

/-- A new node takes the block where the request that registers it computed its tokens. -/
theorem register (st : Stored m kv bm (t :: ts)) (l : Lodging prompts bm (t :: ts))
    (hr : r.stake = t.stake) (hprompt : r.promptTokenIds = t.prompt) (hmem : t.prompt ∈ prompts)
    (hinj : Lodging.Injective bm.tree.hashFn bm.blockSize prompts)
    (hkeep : r.cachedPrefixNodes.length ≤ r.numComputedPrompt / bm.blockSize)
    (hknown : r.promptTokenIds.take r.numComputedPrompt <+: t.known)
    (h : bm.insertComputedPrefix r = .ok (bm', r')) :
    Stored m kv bm' ({ t with nodes := r'.cachedPrefixNodes } :: ts) := by
  have hcf := l.clashFree hr hprompt hmem hinj
  have p : Partition bm (r.stake :: stakesOf ts) := hr ▸ l.partition
  have p' := p.register hcf hkeep h
  have hid : r.requestId = t.requestId := congrArg Prod.fst hr
  have hnodes : r.cachedPrefixNodes = t.nodes := congrArg Prod.snd hr
  have htables : ∀ u ∈ { t with nodes := r'.cachedPrefixNodes } :: ts,
      kv.Holds (bm.tableOf u.requestId) (m.cache u.known) :=
    List.forall_mem_cons.mpr ⟨st.tables t List.mem_cons_self,
      fun u hu => st.tables u (List.mem_cons_of_mem _ hu)⟩
  rcases p.toAccounts.registration hcf h with ⟨rfl, rfl⟩ | ⟨-, -, rfl, rfl⟩ |
    ⟨tree, old, new, rfl, rfl, htree, hins, -⟩
  · exact ⟨st.blockSize, htables, st.nodes⟩
  · exact ⟨st.blockSize, htables, st.nodes⟩
  · have hwf := p.wellFormed
    have hwf' := p'.wellFormed
    rw [htree] at hwf'
    refine ⟨st.blockSize, htables, fun ns n hpath i hi => ?_⟩
    rw [htree] at hpath ⊢
    replace hi : i < bm.blockSize := hi
    show (m.cache (tree.content (ns ++ [n])))[ns.length * bm.blockSize + i]? = _
    have hlive := hpath.live n (List.mem_append_right _ (List.mem_singleton_self n))
    rcases (hins.grown.live n).mp hlive with hn | hn
    · -- the path of a node that was there is what it was
      obtain ⟨a, ha⟩ := hwf.exists_path hn
      obtain rfl := hwf'.path_unique hpath (hins.grown.isPathFrom hwf ha)
      rw [hins.grown.content hwf (RadixTrie.IsPathFrom.live ha),
        hins.grown.physicalBlockId n (hwf.lt_next_of_live hn)]
      exact st.nodes ns n ha i hi
    · obtain ⟨j, hj, rfl⟩ := List.getElem_of_mem hn
      have hold : bm.tree.content r.cachedPrefixNodes =
          r.promptTokenIds.take (r.cachedPrefixNodes.length * bm.tree.blockSize) := by
        rw [hnodes, hprompt, l.partition.blockSize]
        exact l.spelled t List.mem_cons_self
      obtain ⟨hlen, hle, hcontent⟩ := hins.content_new hwf' hold hj hpath
      have hblock : (bm.tableOf t.requestId)[ns.length]? =
          some (tree.node new[j]).physicalBlockId := by
        rw [hlen, ← hid]
        exact hins.block_new hj
      rw [p.blockSize] at hle hcontent
      -- the node's tokens are among those that the request has computed
      have hheld := (st.tables t List.mem_cons_self).shorten
        ((List.take_prefix_take_left hle).trans hknown)
      have hlt : ns.length * bm.blockSize + i <
          (m.cache (r.promptTokenIds.take ((ns.length + 1) * bm.blockSize))).length := by
        rw [m.length_cache, List.length_take, Nat.min_eq_left (hle.trans (Nat.min_le_right _ _)),
          Nat.succ_mul]
        omega
      have hloc : kv.location (bm.tableOf t.requestId) (ns.length * bm.blockSize + i) =
          ((tree.node new[j]).physicalBlockId, i) := by
        rw [KvCache.location, st.blockSize, Nat.mul_comm, Nat.mul_add_div (Nat.zero_lt_of_lt hi),
          Nat.div_eq_of_lt hi, Nat.add_zero, Nat.mul_add_mod, Nat.mod_eq_of_lt hi,
          List.getD_eq_getElem?_getD, hblock, Option.getD_some]
      rw [hcontent, List.getElem?_eq_getElem hlt, ← hheld.slot _ hlt, hloc]

/-! ## The forward pass -/

/-- Where a table names the block of a node, it holds an entry of the prompt. -/
theorem slot_of_node (st : Stored m kv bm ts) (l : Lodging prompts bm ts) (ht : t ∈ ts) {q : ℕ}
    (hq : q < (bm.tableOf t.requestId).length * bm.blockSize)
    (hb : (kv.location (bm.tableOf t.requestId) q).1 ∉ bm.privateOf t.stake) :
    q < t.prompt.length ∧
      (m.cache t.prompt)[q]? = some (kv.slot (kv.location (bm.tableOf t.requestId) q)) := by
  have p := l.partition
  have hmem : t.stake ∈ stakesOf ts := List.mem_map_of_mem ht
  have hdiv : q / bm.blockSize < (bm.tableOf t.requestId).length :=
    Nat.div_lt_of_lt_mul (by rwa [Nat.mul_comm])
  have hpos : 0 < bm.blockSize := Nat.pos_of_ne_zero fun hzero => by simp [hzero] at hq
  have hblock : (bm.tableOf t.requestId)[q / bm.blockSize]? =
      some (kv.location (bm.tableOf t.requestId) q).1 := by
    rw [KvCache.location, st.blockSize, List.getD_eq_getElem _ _ hdiv,
      List.getElem?_eq_getElem hdiv]
  have htree : (kv.location (bm.tableOf t.requestId) q).1 ∈ bm.tree.blocks := by
    by_contra hnot
    refine hb ?_
    rw [p.privateOf_eq hmem]
    exact List.mem_filter.mpr ⟨List.mem_of_getElem? hblock, decide_eq_true hnot⟩
  obtain ⟨n, hn, hnb⟩ := p.wellFormed.mem_blocks.mp htree
  have hheld : t.nodes[q / bm.blockSize]? = some n := p.held t.stake hmem _ _ hblock n hn hnb
  obtain ⟨hlt, hget⟩ := List.getElem?_eq_some_iff.mp hheld
  have hpath : bm.tree.IsPath t.nodes := p.path t.stake hmem
  have htake : t.nodes.take (q / bm.blockSize + 1) = t.nodes.take (q / bm.blockSize) ++ [n] := by
    rw [List.take_succ_eq_append_getElem hlt, hget]
  have hnode := st.nodes _ n (htake ▸ hpath.take _) (q % bm.blockSize) (Nat.mod_lt _ hpos)
  have hle : (q / bm.blockSize + 1) * bm.blockSize ≤ t.nodes.length * bm.blockSize :=
    Nat.mul_le_mul_right _ hlt
  have hqlt : q < (q / bm.blockSize + 1) * bm.blockSize := by
    rw [Nat.mul_comm]
    exact Nat.lt_mul_div_succ q hpos
  rw [← htake, p.wellFormed.content_take hpath, p.blockSize, l.spelled t ht, List.take_take,
    Nat.min_eq_left hle, m.getElem?_cache_take _ _ (by rwa [List.length_take,
      Nat.min_eq_left hlt.le, Nat.div_add_mod']), List.length_take, Nat.min_eq_left hlt.le,
    Nat.div_add_mod'] at hnode
  refine ⟨hqlt.trans_le (hle.trans (l.length_le ht)), ?_⟩
  rw [hnode, hnb, KvCache.location, st.blockSize]

/-- A request computes its next tokens: its rows see the tokens that it knows, and no slot changes
but in its private blocks. -/
theorem attend {pr : PagedRunner κ} {f : FlatRange} (st : Stored pr.model kv bm ts)
    (l : Lodging prompts bm ts) (ht : t ∈ ts) (hstart : t.known.length = f.seqStart)
    (hend : f.seqEnd = f.seqStart + f.inputIds.length)
    (hrows : f.flatEnd - f.flatStart = f.inputIds.length)
    (hcap : f.seqEnd ≤ (bm.tableOf t.requestId).length * bm.blockSize)
    (hprompt : t.known ++ f.inputIds <+: t.prompt ∨ t.prompt <+: t.known ++ f.inputIds) :
    ∃ kv', pr.attend (bm.tableOf t.requestId) f kv = .ok (kv', (List.range f.inputIds.length).map
        fun j => pr.model.next (t.known ++ f.inputIds.take (j + 1))) ∧
      kv'.blockSize = kv.blockSize ∧
      kv'.Holds (bm.tableOf t.requestId) (pr.model.cache (t.known ++ f.inputIds)) ∧
      ∀ l, l.1 ∉ bm.privateOf t.stake → kv'.slot l = kv.slot l := by
  have hnodup := l.partition.tableOf_nodup (List.mem_map_of_mem (f := Tenant.stake) ht)
  obtain ⟨kv', hattend, hsize, hholds, hframe⟩ := PagedRunner.attend_of_holds (st.tables t ht)
    hnodup hstart hend hrows (by rw [st.blockSize]; exact hcap)
  refine ⟨kv', hattend, hsize, hholds, fun loc hloc => ?_⟩
  by_cases hwritten : ∃ q, f.seqStart ≤ q ∧ q < f.seqEnd ∧
    loc = kv.location (bm.tableOf t.requestId) q
  · obtain ⟨q, -, hq, rfl⟩ := hwritten
    -- the block is that of a node, and the entry written is the one that is there
    obtain ⟨hqp, hslot⟩ := st.slot_of_node l ht (hq.trans_le hcap) hloc
    have hlen : q < (pr.model.cache (t.known ++ f.inputIds)).length := by
      rw [CausalModel.length_cache, List.length_append, hstart, ← hend]
      exact hq
    have hnew := hholds.slot q hlen
    have hsame : (pr.model.cache (t.known ++ f.inputIds))[q]? = (pr.model.cache t.prompt)[q]? := by
      rcases hprompt with ⟨more, hmore⟩ | ⟨more, hmore⟩
      · rw [← hmore]
        exact (pr.model.getElem?_cache_append _ _ (by simpa using hlen)).symm
      · rw [← hmore]
        exact pr.model.getElem?_cache_append _ _ hqp
    rw [hslot, List.getElem?_eq_getElem hlen, ← hnew] at hsame
    rw [KvCache.location, hsize, ← KvCache.location] at hsame
    exact Option.some.inj hsame
  · exact hframe loc fun q hq hq' heq => hwritten ⟨q, hq, hq', heq⟩

/-- Nobody else notices a request that writes to its private blocks. -/
theorem frame (st : Stored m kv bm ts) (p : Partition bm (stakesOf ts)) (ht : t ∈ ts)
    (hsize : kv'.blockSize = kv.blockSize)
    (hframe : ∀ l, l.1 ∉ bm.privateOf t.stake → kv'.slot l = kv.slot l)
    (h : ∀ t' ∈ ts', (t' ∈ ts ∧ t'.stake ≠ t.stake) ∨
      kv'.Holds (bm.tableOf t'.requestId) (m.cache t'.known)) : Stored m kv' bm ts' := by
  have hmem : t.stake ∈ stakesOf ts := List.mem_map_of_mem ht
  refine ⟨hsize.trans st.blockSize, fun t' ht' => ?_, fun ns n hpath i hi => ?_⟩
  · rcases h t' ht' with ⟨hold, hne⟩ | hholds
    · refine (st.tables t' hold).frame hsize fun l hl => hframe l fun hpriv => ?_
      exact p.notMem_tableOf_of_private hmem (List.mem_map_of_mem hold) hne hpriv hl
    · exact hholds
  · have hlive := hpath.live n (List.mem_append_right _ (List.mem_singleton_self n))
    rw [hframe _ fun hpriv => (p.notMem_of_private hmem hpriv).2
      (p.wellFormed.mem_blocks.mpr ⟨n, hlive, rfl⟩)]
    exact st.nodes ns n hpath i hi

end Stored

end LightServe
