import LightServe.Lib.Orders
import LightServe.Lib.Text
import LightServe.Lib.UnionFind
import Mathlib.Data.Finset.Card
import Mathlib.Data.Finset.Union
import Mathlib.Data.List.Sort

/-!
# Documents and splits

`link_overlapping_documents` and `split` of `training/qlora_financial/prepare_dataset.py`: examples
of one document have one group key, a document of ConvFinQA that shares two long sentences with a
page of FinQA gets the group of the page, and groups go as a whole to training, validation or test.
Sets are iterated in any order, and groups and training examples are shuffled in any way.

## Main definitions

* `Documents.longSentences` — the fingerprint of a document.
* `Documents.linkOverlappingDocuments` — the examples with their groups united.
* `Documents.split` — the three parts.
* `Documents.SameDocument` — groups that are connected by shared sentences.
* `Documents.no_leak` — no connected groups are in two parts.
-/

namespace LightServe

namespace Documents

open Text

/-! ## Fingerprints -/

/-- `\s\.\s|\n`. -/
def sentenceEnd : Matcher Unit where
  run
    | c :: '.' :: d :: s =>
      if isSpace c && isSpace d then some ((), s)
      else if c = '\n' then some ((), '.' :: d :: s)
      else none
    | c :: s => if c = '\n' then some ((), s) else none
    | [] => none
  shorter {s a rest} h := by
    split at h
    · split at h
      · simp only [Option.some.injEq, Prod.mk.injEq, true_and] at h
        simp only [← h, List.length_cons]
        omega
      · split at h
        · simp only [Option.some.injEq, Prod.mk.injEq, true_and] at h
          simp only [← h, List.length_cons]
          omega
        · cases h
    · split at h
      · simp only [Option.some.injEq, Prod.mk.injEq, true_and] at h
        simp only [← h, List.length_cons]
        omega
      · cases h
    · cases h

/-- The letter `a` to `z` or digit that is left of a character in lower case, if any. Beyond ASCII
only the Kelvin sign and the dotted capital I leave one. -/
def normalizeChar (c : Char) : Option Char :=
  let c := if c.toNat = 0x212a then 'k' else if c.toNat = 0x130 then 'i' else c.toLower
  if c.isLower || c.isDigit then some c else none

/-- The long sentences of a text, normalized. -/
def longSentences (text : Chars) : Finset Chars :=
  ((sentenceEnd.split text).map (·.filterMap normalizeChar)).toFinset.filter (60 ≤ ·.length)

/-! ## Linking -/

inductive Source
  | financialQA10K
  | convFinQA
  | finQA
  | tatQA
  deriving DecidableEq

/-- An example: the text of the user, where it comes from, and the key of its document. -/
structure Example (G : Type) where
  user : Chars
  source : Source
  group : G

section Link
variable {G : Type} [DecidableEq G]

/-- The FinQA groups that have a long sentence. -/
def index (examples : List (Example G)) : Chars → Finset G :=
  examples.foldl (fun index ex => if ex.source = .finQA then
    fun s => if s ∈ longSentences ex.user then insert ex.group (index s) else index s
    else index) fun _ => ∅

/-- In how many of some sentences a group is found. -/
def hits (index : Chars → Finset G) (sentences : Finset Chars) (g : G) : ℕ :=
  (sentences.filter (g ∈ index ·)).card

/-- The groups that are found in two of some sentences. -/
def matched (index : Chars → Finset G) (sentences : Finset Chars) : Finset G :=
  (sentences.biUnion index).filter (2 ≤ hits index sentences ·)

/-- The ConvFinQA groups seen so far, and the parents of the groups. -/
structure LinkState (G : Type) [DecidableEq G] where
  seen : Finset G
  parent : Dict G G

/-- Link the document of an example, at the first example of it. -/
def linkStep (order : SetOrder G) (fuel : ℕ) (index : Chars → Finset G) (st : LinkState G)
    (ex : Example G × ℕ) : Option (LinkState G) :=
  if ex.1.source ≠ .convFinQA ∨ ex.1.group ∈ st.seen then some st
  else do
    let groups := order.list ex.2 (matched index (longSentences ex.1.user))
    let parent ← UnionFind.unions fuel (groups.map (·, ex.1.group)) st.parent
    some { seen := insert ex.1.group st.seen, parent := parent }

/-- The examples with the groups of overlapping documents united, unless the search for a root takes
too many steps. -/
def linkOverlappingDocuments (order : SetOrder G) (fuel : ℕ) (examples : List (Example G)) :
    Option (List (Example G)) := do
  let st ← examples.zipIdx.foldlM (linkStep order fuel (index examples)) ⟨∅, ∅⟩
  examples.mapM fun ex => do
    let group ← UnionFind.find st.parent fuel ex.group
    some { ex with group := group }

end Link

/-! ## Splitting -/

section Split
variable {G : Type}

/-- The parts of a dataset. -/
inductive Part
  | train
  | val
  | test
  deriving DecidableEq

/-- The examples of each part. -/
abbrev Parts (G : Type) := Part → List (Example G)

variable [LinearOrder G]

/-- The examples of each group. -/
def byGroup (examples : List (Example G)) : Dict G (List (Example G)) :=
  Dict.groupBy (·.group) id examples

/-- The part that gets the next group. -/
def bucket (target : ℕ) (parts : Parts G) : Part :=
  if (parts .val).length < target then .val
  else if (parts .test).length < target then .test
  else .train

/-- Put a group into a part. -/
def place (target : ℕ) (d : Dict G (List (Example G))) (parts : Parts G) (g : G) : Parts G :=
  fun part =>
    if part = bucket target parts then parts part ++ (d.lookup g).getD [] else parts part

/-- The groups of a part. -/
def seen (parts : Parts G) (part : Part) : Finset G := ((parts part).map (·.group)).toFinset

/-- The parts with the training examples mixed. -/
def mix (trainShuffle : Shuffle (Example G)) (parts : Parts G) : Parts G := fun part =>
  if part = .train then trainShuffle.run (parts .train) else parts part

/-- Whole groups into validation and test, up to a target for each, and the others into training;
a group in two parts would be an error. -/
def split (target : ℕ) (groupShuffle : Shuffle G) (trainShuffle : Shuffle (Example G))
    (examples : List (Example G)) : Option (Parts G) :=
  let groups := groupShuffle.run ((byGroup examples).keys.mergeSort (· ≤ ·))
  let parts := mix trainShuffle (groups.foldl (place target (byGroup examples)) fun _ => [])
  if (seen parts .train ∩ seen parts .val).Nonempty ∨
    (seen parts .train ∩ seen parts .test).Nonempty ∨
      (seen parts .val ∩ seen parts .test).Nonempty then none
  else some parts

end Split

/-! ## Documents -/

section SameDocument
variable {G : Type} [DecidableEq G]

/-- The examples of a FinQA group and the first example of a ConvFinQA group share two long
sentences. -/
def Overlaps (examples : List (Example G)) (f c : G) : Prop :=
  ∃ ex, examples.find? (fun ex => ex.source = .convFinQA ∧ ex.group = c) = some ex ∧
    2 ≤ ((longSentences ex.user).filter fun s =>
      ∃ page ∈ examples, page.source = .finQA ∧ page.group = f ∧ s ∈ longSentences page.user).card

/-- Equal groups, and groups that overlaps connect. -/
def SameDocument (examples : List (Example G)) : G → G → Prop :=
  Relation.EqvGen (Overlaps examples)

variable {examples pre rest : List (Example G)} {s : Chars} {g : G}

/-- The index has the FinQA groups of a sentence. -/
theorem mem_index : g ∈ index examples s ↔
    ∃ page ∈ examples, page.source = .finQA ∧ page.group = g ∧ s ∈ longSentences page.user := by
  suffices hfrom : ∀ found : Chars → Finset G, g ∈ examples.foldl (fun index ex =>
      if ex.source = .finQA then
        fun s => if s ∈ longSentences ex.user then insert ex.group (index s) else index s
      else index) found s ↔ g ∈ found s ∨
        ∃ page ∈ examples, page.source = .finQA ∧ page.group = g ∧ s ∈ longSentences page.user by
    rw [index, hfrom]
    simp
  induction examples with
  | nil => simp
  | cons ex examples ih =>
    intro found
    rw [List.foldl_cons, ih]
    simp only [List.mem_cons, exists_eq_or_imp, ← or_assoc]
    refine or_congr_left ?_
    by_cases hsource : ex.source = .finQA
    · by_cases hs : s ∈ longSentences ex.user
      · simp [hsource, hs, eq_comm, or_comm]
      · simp [hsource, hs]
    · simp [hsource]

/-- The matched groups share two of the sentences. -/
theorem mem_matched {sentences : Finset Chars} : g ∈ matched (index examples) sentences ↔
    2 ≤ (sentences.filter fun s => ∃ page ∈ examples,
      page.source = .finQA ∧ page.group = g ∧ s ∈ longSentences page.user).card := by
  have hhits : hits (index examples) sentences g = (sentences.filter fun s => ∃ page ∈ examples,
      page.source = .finQA ∧ page.group = g ∧ s ∈ longSentences page.user).card := by
    rw [hits]
    exact congrArg Finset.card (Finset.filter_congr fun s _ => mem_index)
  rw [matched, Finset.mem_filter, hhits, and_iff_right_iff_imp]
  intro htwo
  obtain ⟨s, hs⟩ := Finset.card_pos.mp (Nat.zero_lt_two.trans_le htwo)
  obtain ⟨hmem, hpage⟩ := Finset.mem_filter.mp hs
  exact Finset.mem_biUnion.mpr ⟨s, hmem, mem_index.mpr hpage⟩

/-- What linking the documents of the first examples leaves. -/
structure Linked (examples pre : List (Example G)) (st : LinkState G) (depth : ℕ) : Prop where
  seen : ∀ c, c ∈ st.seen ↔ ∃ ex ∈ pre, ex.source = .convFinQA ∧ ex.group = c
  forest : UnionFind.Forest st.parent depth fun f c => c ∈ st.seen ∧ Overlaps examples f c

theorem Linked.start : Linked examples [] ⟨∅, ∅⟩ 0 where
  seen c := by simp
  forest := by simpa using UnionFind.Forest.empty

/-- A group that is new has its first example here, and overlaps with what matches. -/
theorem overlaps_iff {ex : Example G} (hsplit : examples = pre ++ ex :: rest)
    (hsource : ex.source = .convFinQA)
    (hnew : ¬ ∃ e ∈ pre, e.source = .convFinQA ∧ e.group = ex.group) (f : G) :
    Overlaps examples f ex.group ↔ f ∈ matched (index examples) (longSentences ex.user) := by
  have hpre : pre.find? (fun e => e.source = .convFinQA ∧ e.group = ex.group) = none :=
    List.find?_eq_none.mpr fun e he hc => hnew ⟨e, he, by simpa using hc⟩
  have hfirst : examples.find? (fun e => e.source = .convFinQA ∧ e.group = ex.group) = some ex := by
    rw [hsplit, List.find?_append, hpre, Option.none_or, List.find?_cons_of_pos (by simp [hsource])]
  rw [Overlaps, hfirst, mem_matched]
  simp only [Option.some_inj, exists_eq_left']

/-- The document of the next example is linked. -/
theorem Linked.step {st : LinkState G} {depth : ℕ} {ex : Example G}
    (h : Linked examples pre st depth) (hsplit : examples = pre ++ ex :: rest) (order : SetOrder G)
    (i : ℕ) : ∃ st' depth',
      (∀ fuel, depth' ≤ fuel → linkStep order fuel (index examples) st (ex, i) = some st') ∧
        Linked examples (pre ++ [ex]) st' depth' ∧ depth ≤ depth' := by
  by_cases hold : ex.source ≠ .convFinQA ∨ ex.group ∈ st.seen
  · refine ⟨st, depth, fun fuel _ => if_pos hold, ⟨fun c => ?_, h.forest⟩, le_rfl⟩
    rw [h.seen]
    constructor
    · rintro ⟨e, he, hc⟩
      exact ⟨e, List.mem_append_left _ he, hc⟩
    · rintro ⟨e, he, hsource, rfl⟩
      rcases List.mem_append.mp he with he | he
      · exact ⟨e, he, hsource, rfl⟩
      · obtain rfl := List.mem_singleton.mp he
        exact (h.seen _).mp (hold.resolve_left (not_not.mpr hsource))
  · obtain ⟨hsource, hnew⟩ := not_or.mp hold
    rw [not_not] at hsource
    have hmatch := overlaps_iff hsplit hsource fun hc => hnew ((h.seen _).mpr hc)
    set groups := order.list i (matched (index examples) (longSentences ex.user)) with hgroups
    obtain ⟨d, hrun, hforest⟩ := h.forest.unions (groups.map (·, ex.group))
    refine ⟨⟨insert ex.group st.seen, d⟩, depth + (groups.map (·, ex.group)).length,
      fun fuel hfuel => ?_, ⟨fun c => ?_, ?_⟩,
      Nat.le_add_right _ _⟩
    · rw [linkStep, if_neg hold]
      exact congrArg (Option.bind · _) (hrun fuel hfuel)
    · rw [Finset.mem_insert, h.seen]
      simp only [List.mem_append, List.mem_singleton, or_and_right, exists_or, exists_eq_left,
        hsource, true_and]
      rw [or_comm, eq_comm]
    · refine hforest.congr fun f c => ?_
      simp only [hgroups, List.mem_map, SetOrder.mem_list, Prod.mk.injEq,
        Finset.mem_insert, ← hmatch]
      constructor
      · rintro (⟨hc, hover⟩ | ⟨f, hover, rfl, rfl⟩)
        · exact ⟨Or.inr hc, hover⟩
        · exact ⟨Or.inl rfl, hover⟩
      · rintro ⟨rfl | hc, hover⟩
        · exact Or.inr ⟨f, hover, rfl, rfl⟩
        · exact Or.inl ⟨hc, hover⟩

/-- Linking the documents of all examples. -/
theorem exists_linked (order : SetOrder G) (examples : List (Example G)) : ∃ st depth,
    (∀ fuel, depth ≤ fuel →
      examples.zipIdx.foldlM (linkStep order fuel (index examples)) ⟨∅, ∅⟩ = some st) ∧
        Linked examples examples st depth := by
  suffices hrun : ∀ rest pre st depth, examples = pre ++ rest → Linked examples pre st depth →
      ∀ i, ∃ st' depth', depth ≤ depth' ∧ (∀ fuel, depth' ≤ fuel →
        (rest.zipIdx i).foldlM (linkStep order fuel (index examples)) st = some st') ∧
          Linked examples examples st' depth' by
    obtain ⟨st, depth, -, hrun, hlinked⟩ := hrun examples [] ⟨∅, ∅⟩ 0 rfl .start 0
    exact ⟨st, depth, hrun, hlinked⟩
  intro rest
  induction rest with
  | nil =>
    intro pre st depth hsplit hlinked i
    rw [List.append_nil] at hsplit
    exact ⟨st, depth, le_rfl, fun _ _ => rfl, hsplit ▸ hlinked⟩
  | cons ex rest ih =>
    intro pre st depth hsplit hlinked i
    obtain ⟨st₁, depth₁, hstep, hlinked₁, hle⟩ := hlinked.step hsplit order i
    obtain ⟨st', depth', hle', hrun, hlinked'⟩ :=
      ih (pre ++ [ex]) st₁ depth₁ (by simpa using hsplit)
      hlinked₁ (i + 1)
    refine ⟨st', depth', hle.trans hle', fun fuel hfuel => ?_, hlinked'⟩
    rw [List.zipIdx_cons, List.foldlM_cons, hstep fuel (hle'.trans hfuel)]
    exact hrun fuel hfuel

/-- The groups of some examples, under other names. -/
def relabel (root : G → G) (ex : Example G) : Example G := { ex with group := root ex.group }

/-- Linking ends, and unites the groups of one document. -/
theorem exists_root (order : SetOrder G) (examples : List (Example G)) :
    ∃ (root : G → G) (bound : ℕ),
    (∀ fuel, bound ≤ fuel →
      linkOverlappingDocuments order fuel examples = some (examples.map (relabel root))) ∧
        ∀ g g', root g = root g' ↔ SameDocument examples g g' := by
  obtain ⟨st, depth, hrun, hlinked⟩ := exists_linked order examples
  choose root hroot using hlinked.forest.root
  refine ⟨root, depth + 1, fun fuel hfuel => ?_, fun g g' => ?_⟩
  · have hfind : (fun ex : Example G => do
        let group ← UnionFind.find st.parent fuel ex.group
        some { ex with group := group }) = fun ex => some (relabel root ex) := by
      funext ex
      rw [hlinked.forest.find_eq hfuel, hroot]
      rfl
    rw [linkOverlappingDocuments, hrun fuel (by omega)]
    show examples.mapM _ = _
    rw [hfind]
    exact List.mapM_pure
  · have hforest := hlinked.forest.congr (S := Overlaps examples) fun f c => and_iff_right_of_imp ?_
    · rw [← Option.some_inj, ← hroot g, ← hroot g', hforest.same, SameDocument]
    · rintro ⟨ex, hfind, -⟩
      have hex : ex.source = .convFinQA ∧ ex.group = c := by simpa using List.find?_some hfind
      exact (hlinked.seen c).mpr ⟨ex, List.mem_of_find?_eq_some hfind, hex⟩

end SameDocument

/-! ## Parts -/

section Placed
variable {G : Type} [LinearOrder G] {examples : List (Example G)} {g : G} {target : ℕ}

theorem lookup_byGroup : ((byGroup examples).lookup g).getD [] =
    examples.filter (·.group = g) ∧ (g ∈ byGroup examples ↔ ∃ ex ∈ examples, ex.group = g) := by
  simpa [byGroup] using Dict.lookup_groupBy (l := examples) (j := g) (·.group) id

/-- Examples come together again from their groups. -/
theorem flatMap_filter_perm {groups : List G} (hnodup : groups.Nodup)
    (hmem : ∀ ex ∈ examples, ex.group ∈ groups) :
    (groups.flatMap fun g => examples.filter (·.group = g)).Perm examples := by
  induction groups generalizing examples with
  | nil =>
    obtain rfl := List.eq_nil_iff_forall_not_mem.mpr fun ex hex => List.not_mem_nil (hmem ex hex)
    exact .refl _
  | cons g groups ih =>
    obtain ⟨hg, hrest⟩ := List.nodup_cons.mp hnodup
    have hothers : (groups.flatMap fun g' => examples.filter (·.group = g')) =
        groups.flatMap fun g' => (examples.filter fun ex => !decide (ex.group = g)).filter
          (·.group = g') := by
      refine List.flatMap_congr fun g' hg' => ?_
      rw [List.filter_filter]
      refine List.filter_congr fun ex _ => ?_
      have hne : g' ≠ g := fun heq => hg (heq ▸ hg')
      by_cases h : ex.group = g' <;> simp [h, hne]
    rw [List.flatMap_cons, hothers]
    refine ((ih hrest fun ex hex => ?_).append_left _).trans (List.filter_append_perm _ _)
    obtain ⟨hex, hne⟩ := List.mem_filter.mp hex
    exact (List.mem_cons.mp (hmem ex hex)).resolve_left (by simpa using hne)

/-- What putting some groups into parts leaves: their examples, those of a group in one part. -/
structure Placed (d : Dict G (List (Example G))) (groups : List G) (parts : Parts G) : Prop where
  perm : (parts .train ++ parts .val ++ parts .test).Perm
    (groups.flatMap fun g => (d.lookup g).getD [])
  part : ∃ part : G → Part, ∀ p, ∀ ex ∈ parts p, ex.group ∈ groups ∧ part ex.group = p

variable {d : Dict G (List (Example G))} {groups : List G} {parts : Parts G}

/-- A new group goes into one part. -/
theorem Placed.place (h : Placed d groups parts) (hg : g ∉ groups)
    (hd : ∀ ex ∈ (d.lookup g).getD [], ex.group = g) :
    Placed d (groups ++ [g]) (place target d parts g) where
  perm := by
    have hperm : (Documents.place target d parts g .train ++
        Documents.place target d parts g .val ++ Documents.place target d parts g .test).Perm
        (parts .train ++ parts .val ++ parts .test ++ (d.lookup g).getD []) := by
      unfold Documents.place
      cases bucket target parts with
      | train =>
        simp only [if_true, reduceCtorEq, if_false, List.append_assoc]
        exact (List.perm_append_comm.trans (by simp)).append_left _
      | val =>
        simp only [if_true, reduceCtorEq, if_false, List.append_assoc]
        exact (List.perm_append_comm.append_left _).append_left _
      | test => simp
    rw [List.flatMap_append, List.flatMap_singleton]
    exact hperm.trans (h.perm.append_right _)
  part := by
    obtain ⟨part, hpart⟩ := h.part
    refine ⟨Function.update part g (bucket target parts), fun p ex hex => ?_⟩
    have hcases : ex ∈ parts p ∨ (p = bucket target parts ∧ ex ∈ (d.lookup g).getD []) := by
      unfold Documents.place at hex
      split at hex
      · rename_i hp
        exact (List.mem_append.mp hex).imp_right fun hex => ⟨hp, hex⟩
      · exact Or.inl hex
    rcases hcases with hold | ⟨rfl, hnew⟩
    · obtain ⟨hgroup, hp⟩ := hpart p ex hold
      refine ⟨List.mem_append_left _ hgroup, ?_⟩
      have hne : ex.group ≠ g := fun heq => hg (heq ▸ hgroup)
      rw [Function.update_of_ne hne, hp]
    · rw [hd ex hnew]
      exact ⟨List.mem_append_right _ (List.mem_singleton_self g), Function.update_self ..⟩

/-- Putting new groups into parts, one after the other. -/
theorem Placed.foldl (h : Placed d groups parts) {more : List G} (hnodup : (groups ++ more).Nodup)
    (hd : ∀ g, ∀ ex ∈ (d.lookup g).getD [], ex.group = g) :
    Placed d (groups ++ more) (more.foldl (Documents.place target d) parts) := by
  induction more generalizing groups parts with
  | nil => simpa using h
  | cons g more ih =>
    have hg : g ∉ groups := fun hmem =>
      (List.nodup_append.mp hnodup).2.2 g hmem g List.mem_cons_self rfl
    rw [List.append_cons] at hnodup ⊢
    exact ih (h.place hg (hd g)) hnodup

/-- A split is a partition of the examples, with every group in one part. -/
theorem split_eq (target : ℕ) (groupShuffle : Shuffle G) (trainShuffle : Shuffle (Example G))
    (examples : List (Example G)) : ∃ parts,
      split target groupShuffle trainShuffle examples = some parts ∧
        (parts .train ++ parts .val ++ parts .test).Perm examples ∧
          ∃ part : G → Part, ∀ p, ∀ ex ∈ parts p, part ex.group = p := by
  set groups := groupShuffle.run ((byGroup examples).keys.mergeSort (· ≤ ·)) with hgroups
  have hkeys : groups.Perm (byGroup examples).keys :=
    (groupShuffle.perm _).trans (List.mergeSort_perm _ _)
  have hplaced : Placed (byGroup examples) groups
      (groups.foldl (place target (byGroup examples)) fun _ => []) := by
    have hstart : Placed (byGroup examples) [] fun _ => [] := ⟨.refl _, fun _ => .train, by simp⟩
    refine hstart.foldl ?_ fun g ex hex => ?_
    · exact hkeys.nodup_iff.mpr (byGroup examples).keys_nodup
    · rw [lookup_byGroup.1] at hex
      simpa using (List.mem_filter.mp hex).2
  obtain ⟨part, hpart⟩ := hplaced.part
  set parts := groups.foldl (place target (byGroup examples)) fun _ => []
  have hmixed : ∀ p, (mix trainShuffle parts p).Perm (parts p) := by
    intro p
    cases p with
    | train => exact trainShuffle.perm _
    | val => exact .refl _
    | test => exact .refl _
  have hpart' : ∀ p, ∀ ex ∈ mix trainShuffle parts p, part ex.group = p := fun p ex hex =>
    (hpart p ex ((hmixed p).mem_iff.mp hex)).2
  have hdisjoint : ∀ p q, p ≠ q →
      ¬ (seen (mix trainShuffle parts) p ∩ seen (mix trainShuffle parts) q).Nonempty := by
    rintro p q hne ⟨g, hg⟩
    simp only [seen, Finset.mem_inter, List.mem_toFinset, List.mem_map] at hg
    obtain ⟨⟨ex, hex, rfl⟩, ex', hex', heq⟩ := hg
    exact hne (by rw [← hpart' p ex hex, ← hpart' q ex' hex', heq])
  refine ⟨mix trainShuffle parts, if_neg ?_, ?_, part, hpart'⟩
  · rintro (h | h | h)
    · exact hdisjoint .train .val (by decide) h
    · exact hdisjoint .train .test (by decide) h
    · exact hdisjoint .val .test (by decide) h
  · have hgroups' : (groups.flatMap fun g =>
      ((byGroup examples).lookup g).getD []).Perm examples := by
      simp only [lookup_byGroup.1]
      refine flatMap_filter_perm
        (hkeys.nodup_iff.mpr (byGroup examples).keys_nodup) fun ex hex => ?_
      exact hkeys.mem_iff.mpr (AList.mem_keys.mp (lookup_byGroup.2.mpr ⟨ex, hex, rfl⟩))
    exact ((((hmixed .train).append (hmixed .val)).append (hmixed .test)).trans hplaced.perm).trans
      hgroups'

end Placed

/-- Linking ends and unites exactly the groups of one document, in whatever order the examples come,
and every split afterwards is a partition of the examples with every document in one part. -/
theorem no_leak {G : Type} [LinearOrder G] (order : SetOrder G) (target : ℕ)
    (groupShuffle : Shuffle G) (trainShuffle : Shuffle (Example G)) (examples : List (Example G)) :
    ∃ (root : G → G) (bound : ℕ) (parts : Parts G),
      (∀ fuel, bound ≤ fuel →
        linkOverlappingDocuments order fuel examples = some (examples.map (relabel root))) ∧
      (∀ g g', root g = root g' ↔ SameDocument examples g g') ∧
      split target groupShuffle trainShuffle (examples.map (relabel root)) = some parts ∧
      (parts .train ++ parts .val ++ parts .test).Perm (examples.map (relabel root)) ∧
      ∀ x ∈ examples, ∀ y ∈ examples, SameDocument examples x.group y.group →
        ∀ p q, relabel root x ∈ parts p → relabel root y ∈ parts q → p = q := by
  obtain ⟨root, bound, hlink, hsame⟩ := exists_root order examples
  obtain ⟨parts, hsplit, hperm, part, hpart⟩ :=
    split_eq target groupShuffle trainShuffle (examples.map (relabel root))
  refine ⟨root, bound, parts, hlink, hsame, hsplit, hperm, fun x _ y _ hxy p q hx hy => ?_⟩
  rw [← hpart p _ hx, ← hpart q _ hy]
  exact congrArg part ((hsame _ _).mpr hxy)

end Documents

end LightServe
