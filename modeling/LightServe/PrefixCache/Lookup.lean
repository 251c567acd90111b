import LightServe.PrefixCache.Insertion
import Mathlib.Data.Set.Function

/-!
# Lookup, and hashes without collisions

A match is a chain of the tree whose tokens are a prefix of the tokens looked up. The
second half is about hash functions that are injective on the keys that occur: for them no
insertion ever clashes.

## Main definitions

* `RadixTrie.WellFormed.matchTokens` — what a match is.
* `blockKeys` — the (parent hash, block) pairs of a set of prompts.
* `RadixTrie.Registers` — every node was registered for a block of one of the prompts.
* `RadixTrie.Keeps.insertClashFree` — injective keys do not clash.
-/

namespace LightServe

namespace RadixTrie

/-! ## Matches -/

theorem WellFormed.matchWalk {t : RadixTrie} (wf : t.WellFormed) {parent : Option NodeId}
    (hp : ∀ p ∈ parent, t.Live p) (blocks : List (List Token)) :
    t.IsPathFrom (t.levelHash parent) (t.matchWalk (t.levelHash parent) (t.level parent) blocks) ∧
      (t.matchWalk (t.levelHash parent) (t.level parent) blocks).map
          (fun n => (t.node n).tokenIds) =
        blocks.take (t.matchWalk (t.levelHash parent) (t.level parent) blocks).length := by
  induction blocks generalizing parent with
  | nil => exact ⟨trivial, rfl⟩
  | cons block blocks ih =>
    rw [RadixTrie.matchWalk]
    cases hlevel : (t.level parent).lookup (t.hashFn (t.levelHash parent) block) with
    | none => simp
    | some n =>
      obtain ⟨hn, hq⟩ := (wf.level_iff hp).mp hlevel
      simp only
      split
      · rename_i htok
        obtain ⟨hpath, hcontent⟩ := ih fun p hpp => Option.some.inj hpp ▸ wf.live_of_lookup hn
        rw [levelHash, Option.map_some, wf.hash_eq hn] at hpath hcontent
        refine ⟨⟨wf.live_of_lookup hn, hq, ?_⟩, ?_⟩
        · rw [wf.hash_eq hn]
          exact hpath
        · rw [List.map_cons, List.length_cons, List.take_succ_cons, htok]
          exact congrArg _ hcontent
      · exact ⟨trivial, rfl⟩

/-- A match is a chain from the root whose tokens are the tokens asked for. -/
theorem WellFormed.matchTokens {t : RadixTrie} (wf : t.WellFormed) (tokenIds : List Token) :
    t.IsPath (t.matchTokens tokenIds).nodes ∧
      t.content (t.matchTokens tokenIds).nodes =
        tokenIds.take (t.matchTokens tokenIds).numMatchedTokens ∧
      (t.matchTokens tokenIds).nodes.length ≤ tokenIds.length / t.blockSize := by
  obtain ⟨hpath, hmap⟩ := @matchWalk t wf none (by simp)
    (wholeBlocks t.blockSize tokenIds.length tokenIds)
  have hlen := congrArg List.length hmap
  rw [List.length_map, List.length_take, length_wholeBlocks] at hlen
  have hle : (t.matchTokens tokenIds).nodes.length ≤ tokenIds.length / t.blockSize :=
    hlen ▸ Nat.min_le_right _ _
  refine ⟨hpath, ?_, hle⟩
  rw [RadixTrie.content, List.flatMap_def]
  exact (congrArg List.flatten hmap).trans (flatten_take_wholeBlocks _ _ _ hle)

@[simp] theorem numMatchedTokens_matchTokens (t : RadixTrie) (tokenIds : List Token) :
    (t.matchTokens tokenIds).numMatchedTokens =
      (t.matchTokens tokenIds).nodes.length * t.blockSize := rfl

@[simp] theorem physicalBlockIds_matchTokens (t : RadixTrie) (tokenIds : List Token) :
    (t.matchTokens tokenIds).physicalBlockIds =
      (t.matchTokens tokenIds).nodes.map fun n => (t.node n).physicalBlockId := rfl

/-- A walk follows the chains of the tree. -/
theorem WellFormed.prefix_matchWalk {t : RadixTrie} (wf : t.WellFormed) {parent : Option NodeId}
    (hp : ∀ p ∈ parent, t.Live p) {ns : List NodeId} (h : t.IsPathFrom (t.levelHash parent) ns)
    (rest : List (List Token)) :
    ns <+: t.matchWalk (t.levelHash parent) (t.level parent)
      ((ns.map fun n => (t.node n).tokenIds) ++ rest) := by
  induction ns generalizing parent with
  | nil => exact List.nil_prefix
  | cons n ns ih =>
    obtain ⟨hn, hq, hrest⟩ := h
    have hhash : t.hashFn (t.levelHash parent) (t.node n).tokenIds = (t.node n).blockHash := by
      rw [← hq]
      exact wf.hash_def hn
    rw [List.map_cons, List.cons_append, RadixTrie.matchWalk, hhash, (wf.level_iff hp).mpr ⟨hn, hq⟩]
    simp only [if_true]
    exact List.cons_prefix_cons.mpr ⟨rfl,
      @ih (some n) (fun p hpn => Option.some.inj hpn ▸ hn) hrest⟩

/-! ## Keys -/

end RadixTrie

/-- The hash that a chain of blocks ends in. -/
def chainHash (hashFn : Option BlockHash → List Token → BlockHash) (q : Option BlockHash)
    (blocks : List (List Token)) : Option BlockHash :=
  blocks.foldl (fun q block => some (hashFn q block)) q

/-- The (parent hash, block) pairs that occur when `prompts` are registered. -/
def blockKeys (hashFn : Option BlockHash → List Token → BlockHash) (blockSize : ℕ)
    (prompts : Set (List Token)) : Set (Option BlockHash × List Token) :=
  {key | ∃ prompt ∈ prompts, ∃ before after,
    wholeBlocks blockSize prompt.length prompt = before ++ key.2 :: after ∧
      key.1 = chainHash hashFn none before}

namespace RadixTrie

/-- Every node was registered for a block of one of `prompts`. -/
def Registers (t : RadixTrie) (prompts : Set (List Token)) : Prop :=
  ∀ n, t.Live n → ((t.node n).parentHash, (t.node n).tokenIds) ∈
    blockKeys t.hashFn t.blockSize prompts

/-- A trie of empty blocks has no node. -/
theorem Registers.blockSize_pos {t : RadixTrie} {prompts : Set (List Token)}
    (h : t.Registers prompts) {n : NodeId} (hn : t.Live n) : 0 < t.blockSize := by
  obtain ⟨prompt, -, before, after, hblocks, -⟩ := h n hn
  have hlen := congrArg List.length hblocks
  rw [length_wholeBlocks, List.length_append, List.length_cons] at hlen
  refine Nat.pos_of_ne_zero fun h0 => ?_
  rw [h0, Nat.div_zero] at hlen
  omega

/-- A chain ends in the hash of its blocks. -/
theorem WellFormed.levelHash_getLast? {t : RadixTrie} (wf : t.WellFormed) {ns : List NodeId}
    {q : Option BlockHash} (h : t.IsPathFrom q ns) :
    (t.levelHash ns.getLast?).or q =
      chainHash t.hashFn q (ns.map fun n => (t.node n).tokenIds) := by
  induction ns using List.reverseRecOn with
  | nil => rfl
  | append_singleton ns n ih =>
    obtain ⟨hns, hn, hq, -⟩ := isPathFrom_append.mp h
    rw [ih hns] at hq
    rw [List.getLast?_append, List.map_append, chainHash, List.foldl_append]
    show _ = some (t.hashFn (chainHash t.hashFn q _) (t.node n).tokenIds)
    rw [← hq, wf.hash_def hn]
    simp [levelHash]

/-- A chain whose tokens are a prefix of a prompt has the prompt's blocks. -/
theorem WellFormed.map_tokenIds {t : RadixTrie} (wf : t.WellFormed) {prompt : List Token}
    {ns : List NodeId} (h : t.IsPath ns) (hlen : ns.length ≤ prompt.length / t.blockSize)
    (hcontent : t.content ns = prompt.take (ns.length * t.blockSize)) :
    (ns.map fun n => (t.node n).tokenIds) =
      (wholeBlocks t.blockSize prompt.length prompt).take ns.length := by
  rw [List.eq_iff_flatten_eq, ← List.flatMap_def, flatten_take_wholeBlocks _ _ _ hlen]
  refine ⟨hcontent, List.ext_getElem (by simp [hlen]) fun i hi hi' => ?_⟩
  simp only [List.getElem_map]
  rw [wf.width (h.live _ (List.getElem_mem _)),
    length_of_mem_wholeBlocks le_rfl (List.mem_of_mem_take (List.getElem_mem _))]

/-- A lookup of tokens that a chain begins finds the chain. -/
theorem WellFormed.prefix_matchTokens {t : RadixTrie} (wf : t.WellFormed) {tokenIds : List Token}
    {ns : List NodeId} (h : t.IsPath ns) (hlen : ns.length ≤ tokenIds.length / t.blockSize)
    (hcontent : t.content ns <+: tokenIds) : ns <+: (t.matchTokens tokenIds).nodes := by
  have htake : t.content ns = tokenIds.take (ns.length * t.blockSize) := by
    rw [← wf.length_content h]
    exact List.prefix_iff_eq_take.mp hcontent
  have hsplit := List.take_append_drop ns.length (wholeBlocks t.blockSize tokenIds.length tokenIds)
  rw [← wf.map_tokenIds h hlen htake] at hsplit
  rw [RadixTrie.matchTokens, ← hsplit]
  exact @prefix_matchWalk t wf none (fun _ hp => nomatch hp) ns h _

/-- The keys of such a chain are keys of the prompt. -/
theorem WellFormed.mem_blockKeys {t : RadixTrie} (wf : t.WellFormed) {prompts : Set (List Token)}
    {prompt : List Token} (hprompt : prompt ∈ prompts) {ns : List NodeId} (h : t.IsPath ns)
    (hlen : ns.length ≤ prompt.length / t.blockSize)
    (hcontent : t.content ns = prompt.take (ns.length * t.blockSize)) {n : NodeId} (hn : n ∈ ns) :
    ((t.node n).parentHash, (t.node n).tokenIds) ∈ blockKeys t.hashFn t.blockSize prompts := by
  have hmap := wf.map_tokenIds h hlen hcontent
  obtain ⟨a, b, rfl⟩ := List.append_of_mem hn
  have hpath : t.IsPath (a ++ [n]) := by
    rw [List.append_cons] at h
    exact (isPath_append.mp h).1
  have hq := (isPath_concat.mp hpath).2.2
  have hlast := wf.levelHash_getLast? (isPath_concat.mp hpath).1
  rw [Option.or_none, ← hq] at hlast
  refine ⟨prompt, hprompt, a.map fun n => (t.node n).tokenIds,
    (b.map fun n => (t.node n).tokenIds) ++
    (wholeBlocks t.blockSize prompt.length prompt).drop (a ++ n :: b).length, ?_, hlast⟩
  rw [List.map_append, List.map_cons] at hmap
  rw [← List.cons_append, ← List.append_assoc, hmap, List.take_append_drop]

theorem Registers.sameShape {t t' : RadixTrie} {prompts : Set (List Token)}
    (h : t.Registers prompts) (hs : t.SameShape t') : t'.Registers prompts := by
  intro n hn
  rw [hs.parentHash, hs.tokenIds, hs.hashFn, hs.blockSize]
  exact h n (hs.live.mp hn)

/-- A walk whose keys are keys of the prompts does not clash. -/
private theorem WellFormed.clashFree {t : RadixTrie} (wf : t.WellFormed)
    {prompts : Set (List Token)} (hreg : t.Registers prompts)
    (hinj : Set.InjOn (fun key => t.hashFn key.1 key.2) (blockKeys t.hashFn t.blockSize prompts))
    {parent : Option NodeId} (hp : ∀ p ∈ parent, t.Live p)
    {blocks : List (List Token × Option BlockId)} (hw : ∀ b ∈ blocks, b.1.length = t.blockSize)
    (hkeys : ∀ before block after, blocks.map Prod.fst = before ++ block :: after →
      (chainHash t.hashFn (t.levelHash parent) before, block) ∈
        blockKeys t.hashFn t.blockSize prompts) :
    t.ClashFree (t.levelHash parent) parent blocks := by
  induction blocks generalizing t parent with
  | nil => trivial
  | cons entry blocks ih =>
    obtain ⟨block, physicalBlockId⟩ := entry
    have hw' := List.forall_mem_cons.mp hw
    have hkey := hkeys [] block _ rfl
    have hkeys' : ∀ before block' after, blocks.map Prod.fst = before ++ block' :: after →
        (chainHash t.hashFn (some (t.hashFn (t.levelHash parent) block)) before, block') ∈
          blockKeys t.hashFn t.blockSize prompts := fun before block' after h =>
      hkeys (block :: before) block' after (by rw [List.map_cons, h]; rfl)
    simp only [ClashFree]
    set h := t.hashFn (t.levelHash parent) block with hh
    cases hlevel : (t.level parent).lookup h with
    | some n =>
      intro _
      obtain ⟨hn, -⟩ := (wf.level_iff hp).mp hlevel
      have hshape := sameShape_hold t n
      have hbelow : (t.hold n).levelHash (some n) = some h := by
        rw [levelHash, Option.map_some, hshape.blockHash, wf.hash_eq hn]
      rw [← hbelow]
      refine ih (hshape.wellFormed wf) (hreg.sameShape hshape) ?_ ?_ ?_ ?_
      · rw [hshape.hashFn, hshape.blockSize]; exact hinj
      · simpa using hshape.live.mpr (wf.live_of_lookup hn)
      · rw [hshape.blockSize]; exact hw'.2
      · rw [hbelow, hshape.hashFn, hshape.blockSize]; exact hkeys'
    | none =>
      cases physicalBlockId with
      | none => trivial
      | some b =>
        have hfree : t.byHash.lookup h = none := by
          -- the node under this hash would be the one the level lacks
          rw [Option.eq_none_iff_forall_not_mem]
          intro n hn
          have heq := hinj (hreg n (wf.live_of_lookup hn)) hkey (wf.hash_def hn)
          have hmem := (wf.level_iff hp).mpr ⟨hn, congrArg Prod.fst heq⟩
          rw [hlevel] at hmem
          cases hmem
        refine ⟨hfree, ?_⟩
        obtain ⟨wf', hgrown⟩ := wf.newNode (b := b) hp rfl hw'.1 hfree
        have hnew : (t.newNode (t.levelHash parent) parent h block b).node t.next = _ :=
          node_newNode hp (fun p hpp => wf.lt_next_of_live (hp p hpp)) t.next
        rw [if_pos rfl] at hnew
        set u := t.newNode (t.levelHash parent) parent h block b with hu
        have hshape := sameShape_hold u t.next
        have hbelow : (u.hold t.next).levelHash (some t.next) = some h := by
          rw [levelHash, Option.map_some, hshape.blockHash, hnew]
        have hlive : u.Live t.next := (hgrown.live _).mpr (.inr (List.mem_singleton_self _))
        have hreg' : u.Registers prompts := by
          intro n hn
          rw [hgrown.hashFn, hgrown.blockSize]
          rcases (hgrown.live n).mp hn with hold | hn
          · have hlt := wf.lt_next_of_live hold
            rw [hgrown.parentHash n hlt, hgrown.tokenIds n hlt]
            exact hreg n hold
          · rw [List.mem_singleton.mp hn, hnew]
            exact hkey
        rw [← hbelow]
        refine ih (hshape.wellFormed wf') (hreg'.sameShape hshape) ?_ ?_ ?_ ?_
        · rw [hshape.hashFn, hshape.blockSize, hgrown.hashFn, hgrown.blockSize]; exact hinj
        · simpa using hshape.live.mpr hlive
        · rw [hshape.blockSize, hgrown.blockSize]; exact hw'.2
        · rw [hbelow, hshape.hashFn, hshape.blockSize, hgrown.hashFn, hgrown.blockSize]
          exact hkeys'

/-- With keys that do not collide, registering a prompt never clashes. -/
theorem WellFormed.insertClashFree {t : RadixTrie} (wf : t.WellFormed)
    {prompts : Set (List Token)} (hreg : t.Registers prompts)
    (hinj : Set.InjOn (fun key => t.hashFn key.1 key.2) (blockKeys t.hashFn t.blockSize prompts))
    {tokenIds : List Token} (htokens : tokenIds ∈ prompts) (ids : List BlockId) {n : ℕ}
    (hn : n ≤ tokenIds.length) {known : List NodeId} (hknown : t.IsPath known)
    (hcontent : t.content known = tokenIds.take (known.length * t.blockSize)) :
    t.InsertClashFree tokenIds ids n known := by
  set u : RadixTrie := { t with clock := t.clock + 1 } with hu
  have hshape : t.SameShape u := by constructor <;> intros <;> rfl
  have hblocks := map_fst_insertBlocks t tokenIds ids n known
  refine (hshape.wellFormed wf).clashFree (hreg.sameShape hshape) hinj
    (fun p hp => hshape.live.mpr (hknown.live p (List.mem_of_getLast? hp))) (fun b hb => ?_) ?_
  · refine length_of_mem_wholeBlocks hn (List.mem_of_mem_drop (i := known.length) ?_)
    rw [← hblocks]
    exact List.mem_map_of_mem hb
  · intro before block after h
    rw [hblocks] at h
    have hlt : known.length < n / t.blockSize := by
      have := congrArg List.length h
      simp at this
      omega
    have hle : n / t.blockSize ≤ tokenIds.length / t.blockSize := Nat.div_le_div_right hn
    have hprefix : wholeBlocks t.blockSize n tokenIds =
        (wholeBlocks t.blockSize tokenIds.length tokenIds).take (n / t.blockSize) := by
      simp only [wholeBlocks, ← List.map_take, List.take_range, Nat.min_eq_left hle]
    have hmap := wf.map_tokenIds hknown (hlt.le.trans hle) hcontent
    have hlast := wf.levelHash_getLast? hknown
    rw [Option.or_none] at hlast
    refine ⟨tokenIds, htokens, (known.map fun n => (t.node n).tokenIds) ++ before,
      after ++ (wholeBlocks t.blockSize tokenIds.length tokenIds).drop (n / t.blockSize), ?_, ?_⟩
    · have hsplit := List.take_append_drop known.length (wholeBlocks t.blockSize n tokenIds)
      rw [h, hprefix, List.take_take, Nat.min_eq_left hlt.le, ← hmap] at hsplit
      rw [← List.cons_append, ← List.append_assoc, @List.append_assoc _ _ before, hsplit]
      exact (List.take_append_drop _ _).symm
    · show chainHash t.hashFn (t.levelHash known.getLast?) before = _
      rw [hlast, chainHash, chainHash, chainHash, List.foldl_append]

/-- What is registered after an insertion of one of the prompts. -/
theorem Inserted.registers {t t' : RadixTrie} {prompts : Set (List Token)}
    {tokenIds : List Token} {ids : List BlockId} {n : ℕ} {known old new : List NodeId}
    (h : t.Inserted tokenIds ids n known old new t') (wf : t.WellFormed) (wf' : t'.WellFormed)
    (hreg : t.Registers prompts) (htokens : tokenIds ∈ prompts) (hn : n ≤ tokenIds.length)
    (hcontent : t.content known = tokenIds.take (known.length * t.blockSize)) :
    t'.Registers prompts := by
  intro m hm
  rcases (h.grown.live m).mp hm with hold | hnew
  · have hlt := wf.lt_next_of_live hold
    rw [h.grown.parentHash m hlt, h.grown.tokenIds m hlt, h.grown.hashFn, h.grown.blockSize]
    exact hreg m hold
  · refine wf'.mem_blockKeys htokens h.path ?_ ?_ (List.mem_append_right _ hnew)
    · rw [h.grown.blockSize]
      exact h.length_le.trans (Nat.div_le_div_right hn)
    · rw [h.grown.blockSize]
      exact h.content hcontent

end RadixTrie

end LightServe
