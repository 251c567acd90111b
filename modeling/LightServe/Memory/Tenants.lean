import LightServe.Memory.Partition

/-!
# Tenants

A tenant is a request as the memory sees it: the blocks of its table, the nodes it holds, its
prompt, and the tokens whose entries it has written. The operations of the block manager never
change a table but at its end, and never a node of the trie that stays; so what was true of the
tokens behind a node or in a table stays true.

## Main definitions

* `Tenant` — what the memory knows of a request.
* `TenantMove` — the operations, on behalf of tenants.
* `Moved` — what a move leaves as it was.
* `Lodging` — blocks in one place, and nodes that spell the prompts of their holders.
-/

namespace LightServe

/-- A request as the memory sees it. -/
structure Tenant where
  requestId : RequestId
  /-- The trie nodes it holds. -/
  nodes : List NodeId
  prompt : List Token
  /-- The tokens whose entries its table holds. -/
  known : List Token

def Tenant.stake (t : Tenant) : Stake := (t.requestId, t.nodes)

/-- A request that comes in with the nodes of its match, and so knows their tokens. -/
def Request.entrant (r : Request) (blockSize : ℕ) : Tenant where
  requestId := r.requestId
  nodes := r.cachedPrefixNodes
  prompt := r.promptTokenIds
  known := r.promptTokenIds.take (r.cachedPrefixNodes.length * blockSize)

/-- One operation of the block manager on behalf of its tenants. -/
inductive TenantMove : BlockManager × List Tenant → BlockManager × List Tenant → Prop
  | perm {bm : BlockManager} {ts ts' : List Tenant} (h : ts.Perm ts') :
      TenantMove (bm, ts) (bm, ts')
  | free {bm bm' : BlockManager} {ts : List Tenant} {t : Tenant} {r r' : Request}
      (hr : r.stake = t.stake) (h : bm.free r = .ok (bm', r')) : TenantMove (bm, t :: ts) (bm', ts)
  | reserve {bm bm' : BlockManager} {ts : List Tenant} {t : Tenant} {r : Request} {chunk : ℤ}
      (ht : t ∈ ts) (hr : r.stake = t.stake) (hfit : Scheduler.fits bm r chunk = true)
      (h : Scheduler.reserve bm r chunk = .ok bm') : TenantMove (bm, ts) (bm', ts)
  | allocate {bm bm' : BlockManager} {ts : List Tenant} {r r' : Request}
      (hr : r.cachedPrefixNodes = [])
      (h : bm.allocate r (bm.matchPrefix r.promptTokenIds) = .ok (bm', r')) :
      TenantMove (bm, ts) (bm', r'.entrant bm.blockSize :: ts)

/-- The stakes of some tenants. -/
abbrev stakesOf (ts : List Tenant) : List Stake := ts.map Tenant.stake

theorem TenantMove.blockMove {x y : BlockManager × List Tenant} (h : TenantMove x y) :
    BlockMove (x.1, stakesOf x.2) (y.1, stakesOf y.2) := by
  cases h with
  | perm h => exact .perm (h.map Tenant.stake)
  | free hr h =>
    rw [stakesOf, List.map_cons, ← hr]
    exact .free h
  | reserve ht hr hfit h => exact .reserve (hr ▸ List.mem_map_of_mem ht) hfit h
  | allocate hr h => exact .allocate hr h

/-- What a move leaves as it was: no node is new, none that stays has changed, and the table of
whoever stays has at most grown. Whoever is new sits on the blocks of the nodes it holds. -/
structure Moved (x y : BlockManager × List Tenant) : Prop where
  blockSize : y.1.blockSize = x.1.blockSize
  treeBlockSize : y.1.tree.blockSize = x.1.tree.blockSize
  hashFn : y.1.tree.hashFn = x.1.tree.hashFn
  live : ∀ n, y.1.tree.Live n → x.1.tree.Live n
  parentHash : ∀ n, (y.1.tree.node n).parentHash = (x.1.tree.node n).parentHash
  tokenIds : ∀ n, (y.1.tree.node n).tokenIds = (x.1.tree.node n).tokenIds
  physicalBlockId : ∀ n, (y.1.tree.node n).physicalBlockId = (x.1.tree.node n).physicalBlockId
  path : ∀ ns, y.1.tree.IsPath ns → x.1.tree.IsPath ns
  tenants : ∀ t ∈ y.2,
    (t ∈ x.2 ∧ ∃ more, y.1.tableOf t.requestId = x.1.tableOf t.requestId ++ more) ∨
    (x.1.tree.IsPath t.nodes ∧
      t.prompt.take (t.nodes.length * x.1.blockSize) = x.1.tree.content t.nodes ∧
      t.known = x.1.tree.content t.nodes ∧
      ∃ more, y.1.tableOf t.requestId =
        (t.nodes.map fun n => (x.1.tree.node n).physicalBlockId) ++ more)

namespace Moved
variable {x y : BlockManager × List Tenant}

theorem content (h : Moved x y) (ns : List NodeId) : y.1.tree.content ns = x.1.tree.content ns := by
  simp only [RadixTrie.content, h.tokenIds]

end Moved

/-! ## Moves -/

section Moves
variable {bm bm' : BlockManager} {ts : List Tenant} {t : Tenant} {r r' : Request}

theorem ne_of_mem_tenants (p : Partition bm (stakesOf (t :: ts))) {u : Tenant} (hu : u ∈ ts) :
    u.requestId ≠ t.requestId :=
  Partition.ne_of_mem_tail (s := t.stake) p (List.mem_map_of_mem (f := Tenant.stake) hu)

/-- The table of somebody else stays when a request is freed. -/
theorem BlockManager.tableOf_givenBack {id : RequestId} (hne : id ≠ r.requestId)
    (tree : RadixTrie) :
    (bm.givenBack r tree).tableOf id = bm.tableOf id := by
  show ((bm.blockTables.erase r.requestId).lookup id).getD [] = _
  rw [AList.lookup_erase_ne hne]
  rfl

private theorem moved_free (p : Partition bm (stakesOf (t :: ts))) (hr : r.stake = t.stake)
    (h : bm.free r = .ok (bm', r')) : Moved (bm, t :: ts) (bm', ts) := by
  have p' : Partition bm (r.stake :: stakesOf ts) := hr ▸ p
  obtain ⟨tree, ht, hshape, htree, -⟩ := p'.free
  cases ht.symm.trans h
  refine ⟨rfl, ?_, ?_, fun n hn => ?_, fun n => ?_, fun n => ?_, fun n => ?_, fun ns hns => ?_,
    fun u hu => .inl ⟨List.mem_cons_of_mem _ hu, [], ?_⟩⟩
  · rw [htree, hshape.blockSize]
  · rw [htree, hshape.hashFn]
  · exact hshape.live.mp (htree ▸ hn)
  · rw [htree, hshape.parentHash]
  · rw [htree, hshape.tokenIds]
  · rw [htree, hshape.physicalBlockId]
  · exact hshape.isPath.mp (htree ▸ hns)
  · rw [List.append_nil]
    refine BlockManager.tableOf_givenBack ?_ tree
    rw [show r.requestId = t.requestId from congrArg Prod.fst hr]
    exact ne_of_mem_tenants p hu

private theorem moved_reserve (p : Partition bm (stakesOf ts)) (ht : t ∈ ts)
    (hr : r.stake = t.stake) {chunk : ℤ} (hfit : Scheduler.fits bm r chunk = true)
    (h : Scheduler.reserve bm r chunk = .ok bm') : Moved (bm, ts) (bm', ts) := by
  obtain ⟨hok, -⟩ := p.reserve (hr ▸ List.mem_map_of_mem ht) hfit
  cases hok.symm.trans h
  refine ⟨rfl, rfl, rfl, fun _ hn => hn, fun _ => rfl, fun _ => rfl, fun _ => rfl, fun _ hns => hns,
    fun u hu => .inl ⟨hu, ?_⟩⟩
  by_cases hid : u.requestId = r.requestId
  · rw [hid]
    exact ⟨_, (bm.tableOf_set _ _ _).trans (if_pos rfl)⟩
  · refine ⟨[], ((bm.tableOf_set _ _ _).trans (if_neg hid)).trans ?_⟩
    rw [List.append_nil]

private theorem moved_allocate (p : Partition bm (stakesOf ts)) (hr : r.cachedPrefixNodes = [])
    (h : bm.allocate r (bm.matchPrefix r.promptTokenIds) = .ok (bm', r')) :
    Moved (bm, ts) (bm', r'.entrant bm.blockSize :: ts) := by
  obtain ⟨tree, vs, hstake, rfl, hbm, -, htree, hpruned, -, ha⟩ := p.toAccounts.allocate hr h
  have hshape := Accounts.sameShape_heldTree bm r.promptTokenIds
  obtain ⟨hpath, hcontent, hlen⟩ := p.wellFormed.matchTokens r.promptTokenIds
  rw [RadixTrie.numMatchedTokens_matchTokens, p.blockSize] at hcontent
  have hnodes : (r.holding (bm.matchPrefix r.promptTokenIds)).cachedPrefixNodes =
      (bm.tree.matchTokens r.promptTokenIds).nodes := congrArg Prod.snd hstake
  have hother : ∀ u ∈ ts, u.requestId ≠ r.requestId := by
    have hnodup := ha.ids_nodup
    rw [hstake, List.map_cons, List.nodup_cons] at hnodup
    intro u hu hid
    refine hnodup.1 ?_
    show r.requestId ∈ _
    rw [← hid]
    exact List.mem_map_of_mem (f := Prod.fst) (List.mem_map_of_mem (f := Tenant.stake) hu)
  refine ⟨by rw [hbm]; rfl, ?_, ?_, fun n hn => ?_, fun n => ?_, fun n => ?_, fun n => ?_,
    fun ns hns => ?_, List.forall_mem_cons.mpr ⟨.inr ⟨?_, ?_, ?_, ?_⟩, fun u hu => .inl
      ⟨hu, [], ?_⟩⟩⟩
  · rw [htree, hpruned.blockSize, hshape.blockSize]
  · rw [htree, hpruned.hashFn, hshape.hashFn]
  · rw [htree, hpruned.live] at hn
    exact hshape.live.mp hn.1
  · rw [htree, hpruned.parentHash, hshape.parentHash]
  · rw [htree, hpruned.tokenIds, hshape.tokenIds]
  · rw [htree, hpruned.physicalBlockId, hshape.physicalBlockId]
  · rw [htree, hpruned.isPath_iff] at hns
    exact hshape.isPath.mp hns.1
  · show bm.tree.IsPath (r.holding _).cachedPrefixNodes
    rw [hnodes]
    exact hpath
  · show r.promptTokenIds.take ((r.holding _).cachedPrefixNodes.length * bm.blockSize) =
      bm.tree.content (r.holding _).cachedPrefixNodes
    rw [hnodes, hcontent]
  · show r.promptTokenIds.take ((r.holding _).cachedPrefixNodes.length * bm.blockSize) =
      bm.tree.content (r.holding _).cachedPrefixNodes
    rw [hnodes, hcontent]
  · show ∃ more, bm'.tableOf r.requestId = ((r.holding _).cachedPrefixNodes.map _) ++ more
    rw [hnodes, hbm]
    exact ⟨_, (bm.tableOf_set _ _ _).trans (if_pos rfl)⟩
  · rw [List.append_nil, hbm]
    exact (bm.tableOf_set _ _ _).trans (if_neg (hother u hu))

theorem TenantMove.moved {x y : BlockManager × List Tenant} (h : TenantMove x y)
    (p : Partition x.1 (stakesOf x.2)) : Moved x y := by
  cases h with
  | perm h =>
    exact ⟨rfl, rfl, rfl, fun _ hn => hn, fun _ => rfl, fun _ => rfl, fun _ => rfl,
      fun _ hns => hns,
      fun t ht => .inl ⟨h.mem_iff.mpr ht, [], (List.append_nil _).symm⟩⟩
  | free hr h => exact moved_free p hr h
  | reserve ht hr hfit h => exact moved_reserve p ht hr hfit h
  | allocate hr h => exact moved_allocate p hr h

end Moves

/-! ## Lodging -/

/-- Blocks are in one place, the nodes of a tenant spell its prompt, and every node was registered
for one of `prompts`. -/
structure Lodging (prompts : Set (List Token)) (bm : BlockManager) (ts : List Tenant) : Prop where
  partition : Partition bm (stakesOf ts)
  spelled : ∀ t ∈ ts, bm.tree.content t.nodes = t.prompt.take (t.nodes.length * bm.blockSize)
  registers : bm.tree.Registers prompts

namespace Lodging
variable {prompts : Set (List Token)} {bm bm' : BlockManager} {ts : List Tenant} {t : Tenant}
  {r r' : Request}

theorem new (prompts : Set (List Token)) (c : CacheConfig)
    (hashFn : Option BlockHash → List Token → BlockHash) : Lodging prompts (.new c hashFn) [] := by
  refine ⟨.new c hashFn, fun t ht => ?_, fun n hn => ?_⟩
  · cases ht
  · have hempty : (BlockManager.new c hashFn).tree.byHash = ∅ := by
      unfold BlockManager.tree BlockManager.new
      split <;> rfl
    rw [RadixTrie.Live, hempty] at hn
    cases hn

theorem move {x y : BlockManager × List Tenant} (h : TenantMove x y) (l : Lodging prompts x.1 x.2) :
    Lodging prompts y.1 y.2 := by
  have hm := h.moved l.partition
  refine ⟨l.partition.move h.blockMove, fun t ht => ?_, fun n hn => ?_⟩
  · rw [hm.content, hm.blockSize]
    rcases hm.tenants t ht with ⟨hmem, -⟩ | ⟨-, hspelled, -⟩
    · exact l.spelled t hmem
    · exact hspelled.symm
  · rw [hm.parentHash, hm.tokenIds, hm.hashFn, hm.treeBlockSize]
    exact l.registers n (hm.live n hn)

theorem perm {ts' : List Tenant} (l : Lodging prompts bm ts) (h : ts.Perm ts') :
    Lodging prompts bm ts' :=
  move (.perm h) l

theorem moves {x y : BlockManager × List Tenant} (h : Relation.ReflTransGen TenantMove x y)
    (l : Lodging prompts x.1 x.2) : Lodging prompts y.1 y.2 := by
  induction h with
  | refl => exact l
  | tail _ hm ih => exact ih.move hm

/-- Moves keep the pool and the hashing. -/
theorem pool_of_moves {x y : BlockManager × List Tenant} (h : Relation.ReflTransGen TenantMove x y)
    (l : Lodging prompts x.1 x.2) : SamePool x.1 y.1 ∧ y.1.tree.hashFn = x.1.tree.hashFn := by
  induction h with
  | refl => exact ⟨.refl _, rfl⟩
  | tail hs hm ih =>
    have p := (l.moves hs).partition
    exact ⟨ih.1.trans (.of_move hm.blockMove p.toAccounts), (hm.moved p).hashFn.trans ih.2⟩

/-- What tenants know is not told of where they lodge. -/
theorem congr {ts' : List Tenant} (l : Lodging prompts bm ts) (hstakes : stakesOf ts' = stakesOf ts)
    (h : ∀ t' ∈ ts', ∃ t ∈ ts, t.nodes = t'.nodes ∧ t.prompt = t'.prompt) :
    Lodging prompts bm ts' := by
  refine ⟨hstakes ▸ l.partition, fun t' ht' => ?_, l.registers⟩
  obtain ⟨t, ht, hnodes, hprompt⟩ := h t' ht'
  rw [← hnodes, ← hprompt]
  exact l.spelled t ht

/-- The nodes of a tenant lie within its prompt. -/
theorem length_le (l : Lodging prompts bm ts) (ht : t ∈ ts) :
    t.nodes.length * bm.blockSize ≤ t.prompt.length := by
  have hpath := l.partition.path t.stake (List.mem_map_of_mem ht)
  have hlen := l.partition.wellFormed.length_content hpath
  rw [show t.stake.2 = t.nodes from rfl, l.spelled t ht, l.partition.blockSize] at hlen
  rw [← hlen]
  exact List.length_take_le' _ _

/-- More prompts may come. -/
theorem mono {prompts' : Set (List Token)} (l : Lodging prompts bm ts) (h : prompts ⊆ prompts') :
    Lodging prompts' bm ts := by
  refine ⟨l.partition, l.spelled, fun n hn => ?_⟩
  obtain ⟨prompt, hp, hkey⟩ := l.registers n hn
  exact ⟨prompt, h hp, hkey⟩

/-- Hashing that tells the keys of the prompts apart. -/
def Injective (hashFn : Option BlockHash → List Token → BlockHash) (blockSize : ℕ)
    (prompts : Set (List Token)) : Prop :=
  Set.InjOn (fun key : Option BlockHash × List Token => hashFn key.1 key.2)
    (blockKeys hashFn blockSize prompts)

/-- Then a registration never clashes. -/
theorem clashFree (l : Lodging prompts bm (t :: ts)) (hr : r.stake = t.stake)
    (hprompt : r.promptTokenIds = t.prompt) (hmem : t.prompt ∈ prompts)
    (hinj : Injective bm.tree.hashFn bm.blockSize prompts) : bm.ClashFree r := by
  intro tree hc
  have htree := BlockManager.tree_of_some hc
  have hbs := l.partition.blockSize
  have hnodes : r.cachedPrefixNodes = t.nodes := congrArg Prod.snd hr
  have hspelled := l.spelled t List.mem_cons_self
  have hpath := l.partition.path t.stake List.mem_cons_self
  rw [← htree]
  refine l.partition.wellFormed.insertClashFree l.registers ?_ (hprompt ▸ hmem) _
    (Nat.min_le_right _ _) ?_ ?_
  · rw [hbs]
    exact hinj
  · rw [hnodes]
    exact hpath
  · rw [hnodes, hprompt, hbs]
    exact hspelled

/-- A registration keeps the pool and the hashing, and the nodes within the computed tokens. -/
theorem registered (l : Lodging prompts bm (t :: ts)) (hr : r.stake = t.stake)
    (hprompt : r.promptTokenIds = t.prompt) (hmem : t.prompt ∈ prompts)
    (hinj : Injective bm.tree.hashFn bm.blockSize prompts)
    (h : bm.insertComputedPrefix r = .ok (bm', r')) :
    SamePool bm bm' ∧ bm'.tree.hashFn = bm.tree.hashFn ∧
      (r.cachedPrefixNodes.length * bm.blockSize ≤ r.numComputedTokens →
        r'.cachedPrefixNodes.length * bm.blockSize ≤ r.numComputedTokens) := by
  have p : Partition bm (r.stake :: stakesOf ts) := hr ▸ l.partition
  have hle : r.numComputedPrompt / bm.blockSize * bm.blockSize ≤ r.numComputedTokens :=
    (Nat.div_mul_le_self _ _).trans (Nat.min_le_left _ _)
  rcases p.toAccounts.registration (l.clashFree hr hprompt hmem hinj) h with ⟨rfl, rfl⟩ |
    ⟨-, -, rfl, rfl⟩ | ⟨tree, old, new, rfl, rfl, htree, hins, -⟩
  · exact ⟨.refl _, rfl, id⟩
  · refine ⟨.refl _, rfl, fun _ => le_trans (Nat.mul_le_mul_right _ ?_) hle⟩
    exact List.length_take_le _ _
  · refine ⟨⟨rfl, rfl, rfl, bm.setTree_isSome tree⟩, by rw [htree, hins.grown.hashFn], fun _ => ?_⟩
    have hlen := hins.length_le
    rw [p.blockSize] at hlen
    exact le_trans (Nat.mul_le_mul_right _ hlen) hle

/-- A registration that cuts nothing. -/
theorem register (l : Lodging prompts bm (t :: ts)) (hr : r.stake = t.stake)
    (hprompt : r.promptTokenIds = t.prompt) (hmem : t.prompt ∈ prompts)
    (hinj : Injective bm.tree.hashFn bm.blockSize prompts)
    (hkeep : r.cachedPrefixNodes.length ≤ r.numComputedPrompt / bm.blockSize)
    (h : bm.insertComputedPrefix r = .ok (bm', r')) :
    Lodging prompts bm' ({ t with nodes := r'.cachedPrefixNodes } :: ts) := by
  have hcf := l.clashFree hr hprompt hmem hinj
  have p : Partition bm (r.stake :: stakesOf ts) := hr ▸ l.partition
  have p' := p.register hcf hkeep h
  have hid : r.requestId = t.requestId := congrArg Prod.fst hr
  have hnodes : r.cachedPrefixNodes = t.nodes := congrArg Prod.snd hr
  have hspelled := l.spelled
  rcases p.toAccounts.registration hcf h with ⟨rfl, rfl⟩ | ⟨-, hle, rfl, rfl⟩ |
    ⟨tree, old, new, rfl, rfl, htree, hins, -⟩
  · have hsame : { t with nodes := r'.cachedPrefixNodes } = t := by rw [hnodes]
    rw [hsame]
    exact l
  · have hsame : { t with nodes :=
        r.cachedPrefixNodes.take (r.numComputedPrompt / bm'.blockSize) } = t := by
      rw [List.take_of_length_le hkeep, hnodes]
    rw [hsame]
    exact l
  · have hwf := p.wellFormed
    have hstake : Request.stake { r with cachedPrefixNodes := r.cachedPrefixNodes ++ old ++ new } =
        Tenant.stake { t with nodes := r.cachedPrefixNodes ++ old ++ new } := Prod.ext hid rfl
    have hold : bm.tree.content r.cachedPrefixNodes =
        r.promptTokenIds.take (r.cachedPrefixNodes.length * bm.tree.blockSize) := by
      rw [hnodes, hprompt, l.partition.blockSize]
      exact hspelled t List.mem_cons_self
    refine ⟨by rw [stakesOf, List.map_cons, ← hstake]; exact p',
      List.forall_mem_cons.mpr ⟨?_, fun u hu => ?_⟩, ?_⟩
    · rw [htree]
      have hnew := hins.content hold
      rw [l.partition.blockSize, hprompt] at hnew
      exact hnew
    · have hpath : bm.tree.IsPath u.nodes :=
        l.partition.path u.stake (List.mem_cons_of_mem _ (List.mem_map_of_mem hu))
      rw [htree, hins.grown.content hwf hpath.live]
      exact hspelled u (List.mem_cons_of_mem _ hu)
    · have hwf' := p'.wellFormed
      rw [htree] at hwf' ⊢
      exact hins.registers hwf hwf' l.registers (hprompt ▸ hmem) (Nat.min_le_right _ _) hold

end Lodging

end LightServe
