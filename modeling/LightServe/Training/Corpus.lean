import LightServe.Training.Filings

/-!
# The corpus

The two passes of `training/corpus_prep/prepare_corpus.py`. The first takes notes on every filing,
training filings before held-out ones, and keeps what is neither junk nor a copy nor, once all
filings are known, contaminated by a rare sentence of the evaluation data. The second writes the
tokens of the survivors into shards. Workers hand their results back in order, so they are left out.

## Main definitions

* `Corpus.pass1` — what is kept in each split, and the counts.
* `Corpus.ShardWriter` — the files of a split.
* `Corpus.prepareCorpus` — both passes.
* `Corpus.Sifts` — what the first pass keeps of a stream of filings.
* `Corpus.prepareCorpus_writes_kept` — what is written.
-/

namespace LightServe

namespace Corpus

open Text NearCopy Filings

/-- `SPLITS`, in order. -/
inductive Split
  | train
  | val
  deriving DecidableEq, Repr

inductive Outcome
  | problem (p : Problem)
  | exactCopy
  | nearCopy
  | kept
  | contaminated
  deriving DecidableEq, Repr

def Outcome.all : List Outcome :=
  [.problem .tooFewWords, .problem .oddWordLength, .problem .fewAlphaWords, .problem .repeatedLines,
    .exactCopy, .nearCopy, .kept, .contaminated]

/-- A `Counter`. -/
abbrev Counts := Outcome → ℤ

def Counts.total (counts : Counts) : ℤ := (Outcome.all.map counts).sum

/-! ## The first pass -/

def MAX_LEAK_COMPANIES : ℕ := 2

/-- Which evaluation sentences the filings share, and in which companies' filings they are. -/
structure EvalOverlap where
  byFiling : Dict String (Finset Chars)
  companies : Chars → Finset String

namespace EvalOverlap

def add (o : EvalOverlap) (id cik : String) (shared : Finset Chars) : EvalOverlap :=
  if shared = ∅ then o
  else
    { byFiling := o.byFiling.set id shared
      companies := fun s => if s ∈ shared then insert cik (o.companies s) else o.companies s }

/-- A sentence that is in some companies' filings, and in few. -/
def rare (o : EvalOverlap) (s : Chars) : Bool :=
  0 < (o.companies s).card && (o.companies s).card ≤ MAX_LEAK_COMPANIES

/-- Whether a filing is among those that share a rare sentence. -/
def contaminated (o : EvalOverlap) (id : String) : Bool :=
  (o.byFiling.lookup id).any fun shared => (shared.filter (o.rare ·)).Nonempty

end EvalOverlap

/-- What the first pass knows. -/
structure Pass (H : Type) where
  seen : Finset H := ∅
  index : Index := .new
  /-- How often the index was asked. -/
  checks : ℕ := 0
  keep : Split → Finset String := fun _ => ∅
  counts : Split → Counts := fun _ _ => 0
  overlap : EvalOverlap := ⟨∅, fun _ => ∅⟩

section Build
variable {H : Type} (h : Hashes H) (order : SetOrder ℕ) (evals : Finset Chars)

def Pass.count (st : Pass H) (split : Split) (why : Outcome) : Pass H :=
  { st with counts := fun s o =>
      if s = split ∧ o = why then st.counts s o + 1 else st.counts s o }

/-- A filing that is kept. -/
def Pass.keepFiling (st : Pass H) (split : Split) (d : Filing) (shared : Finset Chars) : Pass H :=
  { st with
    keep := fun s => if s = split then insert d.id (st.keep s) else st.keep s
    overlap := st.overlap.add d.id d.cik shared }

/-- One turn of the first pass, on the next filing's notes. -/
def takeNotes [DecidableEq H] (st : Pass H) (x : Split × Filing) : Option (Pass H) :=
  match analyze h evals x.2 with
  | .error problem => some (st.count x.1 (.problem problem))
  | .ok notes =>
    if notes.hash ∈ st.seen then some (st.count x.1 .exactCopy)
    else do
      let (index, found) ← checkAndAdd order st.checks st.index notes.sig
      let st := { st with seen := insert notes.hash st.seen, index, checks := st.checks + 1 }
      if found.isSome then some (st.count x.1 .nearCopy)
      else some ((st.keepFiling x.1 x.2 notes.shared).count x.1 .kept)

/-- The filings of both splits, as they come. -/
def stream (filings : Split → List Filing) : List (Split × Filing) :=
  (filings .train).map (Prod.mk .train) ++ (filings .val).map (Prod.mk .val)

/-- `keep[split] -= bad`, and the counts with it. -/
def Pass.decontaminate (st : Pass H) (split : Split) : Pass H :=
  let bad := (st.keep split).filter (st.overlap.contaminated ·)
  { st with
    keep := fun s => if s = split then st.keep s \ bad else st.keep s
    counts := fun s o =>
      if s = split then
        if o = .kept then st.counts s o - bad.card
        else if o = .contaminated then bad.card else st.counts s o
      else st.counts s o }

def pass1 [DecidableEq H] (filings : Split → List Filing) : Option (Pass H) := do
  let st ← (stream filings).foldlM (takeNotes h order evals) {}
  some ((st.decontaminate .train).decontaminate .val)

end Build

/-! ## The second pass -/

def SHARD_TOKENS : ℕ := 100000000

/-- A file of a split: its number, its count of tokens and what was written. -/
structure Shard where
  number : ℕ
  tokens : ℕ
  data : List UInt32

/-- The full files, and the open one. -/
structure ShardWriter where
  full : List Shard := []
  file : Option Shard := none

namespace ShardWriter

def shards (w : ShardWriter) : List Shard := w.full ++ w.file.toList

/-- The file that a filing goes into: a new one where none is open or the open one has enough. -/
def next (w : ShardWriter) : ShardWriter :=
  match w.file with
  | none => { w with file := some ⟨w.shards.length, 0, []⟩ }
  | some shard =>
    if SHARD_TOKENS ≤ shard.tokens then
      { full := w.full ++ [shard], file := some ⟨w.shards.length, 0, []⟩ }
    else w

def writeIds (w : ShardWriter) (ids : List UInt32) : ShardWriter :=
  { w.next with file := w.next.file.map fun shard =>
      { shard with tokens := shard.tokens + ids.length, data := shard.data ++ ids } }

end ShardWriter

/-- The tokenizer, and its end of a document. -/
structure Tokenizer where
  inputIds : Chars → List UInt32
  eod : UInt32

section Build
variable {H : Type} (h : Hashes H) (tok : Tokenizer) (order : SetOrder ℕ)
  (evals : Finset Chars)

/-- The tokens of a filing and the end of the document. -/
def encode (d : Filing) : List UInt32 := tok.inputIds (clean h d.text) ++ [tok.eod]

/-- The shards of a split. -/
def pass2 (keep : Finset String) (filings : List Filing) : List Shard :=
  (((filings.filter (·.id ∈ keep)).map (encode h tok)).foldl ShardWriter.writeIds {}).shards

/-- Both passes: the counts and the shards of each split. -/
def build [DecidableEq H] (filings : Split → List Filing) :
    Option ((Split → Counts) × (Split → List Shard)) := do
  let st ← pass1 h order evals filings
  some (st.counts, fun split => pass2 h tok (st.keep split) (filings split))

/-- The filings of a split, year by year. -/
def readFilings (years : List ℕ) (maxDocs : Option ℕ) (files : ℕ → Split → List Row)
    (split : Split) : List Filing :=
  years.flatMap fun year => iterFilings maxDocs (files year split)

/-- `main`, from the reports of the evaluation examples and the downloaded files. -/
def prepareCorpus [DecidableEq H] (reports : List Chars) (years : List ℕ) (maxDocs : Option ℕ)
    (files : ℕ → Split → List Row) : Option ((Split → Counts) × (Split → List Shard)) :=
  build h tok order (evalSentences reports) (readFilings years maxDocs files)

end Build

/-! ## What the first pass keeps -/

section Sift
variable {H : Type} (h : Hashes H) (evals : Finset Chars)

/-- The sentences that a filing shares with the evaluation data. -/
def shared (d : Filing) : Finset Chars := sentenceKeys (clean h d.text) ∩ evals

/-- The companies among whose filings a sentence is. -/
def companies (kept : List (Split × Filing)) (s : Chars) : Finset String :=
  ((kept.filter fun x => s ∈ shared h evals x.2).map fun x => x.2.cik).toFinset

/-- Filings of different texts, pieces and signatures. -/
structure Apart (d d' : Filing) : Prop where
  hash : h.textHash (clean h d.text) ≠ h.textHash (clean h d'.text)
  pieces : ¬ ∀ sh, sh ∈ shingles h (clean h d.text) ↔ sh ∈ shingles h (clean h d'.text)
  sig : BANDS ≤ differences (minhash h (clean h d.text)) (minhash h (clean h d'.text))

/-- Why a filing behind others is not kept. -/
inductive Dropped (before kept : List (Split × Filing)) (d : Filing) : Prop
  | problem (hd : qualityProblem h (clean h d.text) ≠ none)
  | exactCopy (x : Split × Filing) (hx : x ∈ before)
      (hpasses : qualityProblem h (clean h x.2.text) = none)
      (hhash : h.textHash (clean h x.2.text) = h.textHash (clean h d.text))
  | nearCopy (x : Split × Filing) (hx : x ∈ before) (hkept : x ∈ kept)
      (hsim : 4 * NUM_PERM ≤
        5 * agreement (minhash h (clean h x.2.text)) (minhash h (clean h d.text)))

/-- What is kept of a stream before the sentences are looked at: what passes, apart from each
other, and whatever is not kept is dropped for a reason before it. -/
structure Sifts (all kept : List (Split × Filing)) : Prop where
  sublist : kept.Sublist all
  passes : ∀ x ∈ kept, qualityProblem h (clean h x.2.text) = none
  apart : kept.Pairwise fun x y => Apart h x.2 y.2
  dropped : ∀ before x after, all = before ++ x :: after → x ∉ kept → Dropped h before kept x.2

/-- The kept filings of a split without a sentence of the evaluation data that few companies'
filings have. -/
def written (kept : List (Split × Filing)) (filings : Split → List Filing) (split : Split) :
    List Filing :=
  (filings split).filter fun d => (split, d) ∈ kept ∧
    ∀ s ∈ shared h evals d, MAX_LEAK_COMPANIES < (companies h evals kept s).card

/-- The state of the first pass behind some filings. -/
structure Sifted (pre kept : List (Split × Filing)) (st : Pass H) : Prop where
  sifts : Sifts h pre kept
  indexed : Indexed st.index
  sigs : st.index.sigs = kept.map fun x => minhash h (clean h x.2.text)
  seen : ∀ hash, hash ∈ st.seen ↔ ∃ x ∈ pre, qualityProblem h (clean h x.2.text) = none ∧
    h.textHash (clean h x.2.text) = hash
  keep : ∀ split id, id ∈ st.keep split ↔ ∃ d, (split, d) ∈ kept ∧ d.id = id
  total : ∀ split, (st.counts split).total = (pre.countP (·.1 = split) : ℕ)
  kept_eq : ∀ split, st.counts split .kept = (kept.countP (·.1 = split) : ℕ)
  contaminated_eq : ∀ split, st.counts split .contaminated = 0
  byFiling : ∀ x ∈ kept, (st.overlap.byFiling.lookup x.2.id).getD ∅ = shared h evals x.2
  unfiled : ∀ id, (∀ x ∈ kept, x.2.id ≠ id) → (st.overlap.byFiling.lookup id).getD ∅ = ∅
  companies : ∀ s, st.overlap.companies s = companies h evals kept s

variable {h evals} {pre kept : List (Split × Filing)} {st : Pass H}

theorem counts_count (st : Pass H) (split split' : Split) (why o : Outcome) :
    (st.count split why).counts split' o =
      if split' = split ∧ o = why then st.counts split' o + 1 else st.counts split' o := rfl

theorem keep_keepFiling (st : Pass H) (split split' : Split) (why : Outcome) (d : Filing)
    (shared : Finset Chars) : ((st.keepFiling split d shared).count split why).keep split' =
      if split' = split then insert d.id (st.keep split') else st.keep split' := rfl

theorem overlap_keepFiling (st : Pass H) (split : Split) (why : Outcome) (d : Filing)
    (shared : Finset Chars) : ((st.keepFiling split d shared).count split why).overlap =
      st.overlap.add d.id d.cik shared := rfl

theorem total_count (split split' : Split) (why : Outcome) :
    ((st.count split why).counts split').total =
      (st.counts split').total + if split = split' then 1 else 0 := by
  by_cases hs : split = split'
  · subst hs
    rcases why with ⟨⟨⟩⟩ | _ | _ | _ | _ <;>
      simp [Pass.count, Counts.total, Outcome.all] <;> omega
  · simp [Pass.count, hs, Ne.symm hs]

theorem total_eq (st : Pass H) (x : Split × Filing) (why : Outcome)
    (htotal : ∀ split, (st.counts split).total = (pre.countP (·.1 = split) : ℕ)) (split : Split) :
    ((st.count x.1 why).counts split).total = ((pre ++ [x]).countP (·.1 = split) : ℕ) := by
  rw [total_count, htotal, List.countP_append, List.countP_singleton]
  by_cases hx : x.1 = split
  · simp [hx]
  · simp [hx]

theorem Apart.of_differences {d d' : Filing}
    (hhash : h.textHash (clean h d.text) ≠ h.textHash (clean h d'.text))
    (hsig : BANDS ≤ differences (minhash h (clean h d.text)) (minhash h (clean h d'.text))) :
    Apart h d d' := by
  refine ⟨hhash, fun hsame => ?_, hsig⟩
  rw [minhash_eq_of_shingles hsame, differences,
    Finset.filter_false_of_mem fun p _ => not_not.mpr rfl] at hsig
  exact absurd hsig (by decide)

theorem Dropped.mono {before kept' : List (Split × Filing)} {d : Filing}
    (hd : Dropped h before kept d) (hkept : ∀ x ∈ kept, x ∈ kept') : Dropped h before kept' d := by
  cases hd with
  | problem hd => exact .problem hd
  | exactCopy x hx hpasses hhash => exact .exactCopy x hx hpasses hhash
  | nearCopy x hx hk hsim => exact .nearCopy x hx (hkept x hk) hsim

/-- A place in a list with one more element is the last one or an old one. -/
theorem append_singleton_cases {α : Type} {l before after : List α} {x y : α}
    (heq : l ++ [x] = before ++ y :: after) :
    before = l ∧ y = x ∨ ∃ after', l = before ++ y :: after' := by
  rcases List.eq_nil_or_concat after with rfl | ⟨after', z, rfl⟩
  · obtain ⟨rfl, hy⟩ := List.append_inj' heq rfl
    exact .inl ⟨rfl, (List.cons.inj hy).1.symm⟩
  · refine .inr ⟨after', ?_⟩
    rw [List.concat_eq_append, ← List.cons_append, ← List.append_assoc] at heq
    exact (List.append_inj' heq rfl).1

section Sifts
variable {x : Split × Filing}

theorem Sifts.skip (hs : Sifts h pre kept) (hd : Dropped h pre kept x.2) :
    Sifts h (pre ++ [x]) kept where
  sublist := hs.sublist.trans (List.sublist_append_left _ _)
  passes := hs.passes
  apart := hs.apart
  dropped before y after heq hy := by
    rcases append_singleton_cases heq with ⟨rfl, rfl⟩ | ⟨after', rfl⟩
    · exact hd
    · exact hs.dropped before y after' rfl hy

theorem Sifts.take (hs : Sifts h pre kept) (hpasses : qualityProblem h (clean h x.2.text) = none)
    (hapart : ∀ y ∈ kept, Apart h y.2 x.2) : Sifts h (pre ++ [x]) (kept ++ [x]) where
  sublist := hs.sublist.append (List.Sublist.refl _)
  passes y hy := by
    rcases List.mem_append.mp hy with hy | hy
    · exact hs.passes y hy
    · rw [List.mem_singleton.mp hy]
      exact hpasses
  apart := List.pairwise_append.mpr ⟨hs.apart, List.pairwise_singleton _ _, fun y hy z hz => by
    rw [List.mem_singleton.mp hz]
    exact hapart y hy⟩
  dropped before y after heq hy := by
    rw [List.mem_append, List.mem_singleton, not_or] at hy
    rcases append_singleton_cases heq with ⟨-, rfl⟩ | ⟨after', rfl⟩
    · exact absurd rfl hy.2
    · exact (hs.dropped before y after' rfl hy.1).mono fun z hz => List.mem_append_left _ hz

theorem companies_append (s : Chars) : companies h evals (kept ++ [x]) s =
    if s ∈ shared h evals x.2 then insert x.2.cik (companies h evals kept s)
    else companies h evals kept s := by
  rw [companies, List.filter_append, List.map_append, List.toFinset_append]
  by_cases hs : s ∈ shared h evals x.2
  · rw [if_pos hs, List.filter_cons_of_pos (by simpa using hs)]
    simp only [List.filter_nil, List.map_cons, List.map_nil, List.toFinset_cons,
      List.toFinset_nil, insert_empty_eq]
    rw [Finset.union_comm]
    rfl
  · rw [if_neg hs, List.filter_cons_of_neg (by simpa using hs)]
    simp only [List.filter_nil, List.map_nil, List.toFinset_nil, Finset.union_empty]
    rfl

theorem EvalOverlap.companies_add (o : EvalOverlap) (id cik : String) (shared : Finset Chars)
    (s : Chars) : (o.add id cik shared).companies s =
      if s ∈ shared then insert cik (o.companies s) else o.companies s := by
  unfold add
  split
  · rename_i hempty
    rw [hempty, if_neg (Finset.notMem_empty s)]
  · rfl

theorem EvalOverlap.lookup_add (o : EvalOverlap) (id cik : String) (shared : Finset Chars)
    (id' : String) : ((o.add id cik shared).byFiling.lookup id').getD ∅ =
      if id' = id ∧ shared ≠ ∅ then shared else (o.byFiling.lookup id').getD ∅ := by
  unfold add
  by_cases hempty : shared = ∅
  · simp [hempty]
  · by_cases hid : id' = id
    · simp [hempty, hid, Dict.lookup_set]
    · simp [hempty, hid, Dict.lookup_set]

/-- A filing for which only the counts, the hashes and the index's state of mind change. -/
theorem Sifted.skip (hst : Sifted h evals pre kept st) (why : Outcome) (hwhy : why ≠ .kept)
    (hwhy' : why ≠ .contaminated) (hd : Dropped h pre kept x.2) {seen : Finset H} (checks : ℕ)
    (hseen : ∀ hash, hash ∈ seen ↔ ∃ y ∈ pre ++ [x], qualityProblem h (clean h y.2.text) = none ∧
      h.textHash (clean h y.2.text) = hash) :
    Sifted h evals (pre ++ [x]) kept (Pass.count { st with seen, checks } x.1 why) where
  sifts := hst.sifts.skip hd
  indexed := hst.indexed
  sigs := hst.sigs
  seen := hseen
  keep := hst.keep
  total := total_eq _ x why hst.total
  kept_eq split := by
    rw [counts_count, if_neg fun heq => hwhy heq.2.symm]
    exact hst.kept_eq split
  contaminated_eq split := by
    rw [counts_count, if_neg fun heq => hwhy' heq.2.symm]
    exact hst.contaminated_eq split
  byFiling := hst.byFiling
  unfiled := hst.unfiled
  companies := hst.companies

/-- A filing that is kept. -/
theorem Sifted.take (hst : Sifted h evals pre kept st)
    (hpasses : qualityProblem h (clean h x.2.text) = none)
    (hapart : ∀ y ∈ kept, Apart h y.2 x.2) (hfresh : ∀ y ∈ kept, y.2.id ≠ x.2.id)
    {seen : Finset H} {index : Index} (checks : ℕ) (hindexed : Indexed index)
    (hsigs : index.sigs = st.index.sigs ++ [minhash h (clean h x.2.text)])
    (hseen : ∀ hash, hash ∈ seen ↔ ∃ y ∈ pre ++ [x], qualityProblem h (clean h y.2.text) = none ∧
      h.textHash (clean h y.2.text) = hash) :
    Sifted h evals (pre ++ [x]) (kept ++ [x])
      ((Pass.keepFiling { st with seen, index, checks } x.1 x.2 (shared h evals x.2)).count
        x.1 .kept) where
  sifts := hst.sifts.take hpasses hapart
  indexed := hindexed
  sigs := by
    rw [List.map_append, ← hst.sigs]
    exact hsigs
  seen := hseen
  keep split id := by
    rw [keep_keepFiling]
    simp only [List.mem_append, List.mem_singleton]
    by_cases hsplit : split = x.1
    · rw [if_pos hsplit, Finset.mem_insert, hst.keep]
      constructor
      · rintro (rfl | ⟨d, hd, rfl⟩)
        · exact ⟨x.2, .inr (Prod.ext hsplit rfl), rfl⟩
        · exact ⟨d, .inl hd, rfl⟩
      · rintro ⟨d, hd | hd, rfl⟩
        · exact .inr ⟨d, hd, rfl⟩
        · exact .inl (by rw [← hd])
    · rw [if_neg hsplit, hst.keep]
      constructor
      · rintro ⟨d, hd, rfl⟩
        exact ⟨d, .inl hd, rfl⟩
      · rintro ⟨d, hd | hd, rfl⟩
        · exact ⟨d, hd, rfl⟩
        · exact absurd (by rw [← hd]) hsplit
  total := total_eq _ x .kept hst.total
  kept_eq split := by
    have hkept : (Pass.keepFiling { st with seen, index, checks } x.1 x.2
        (shared h evals x.2)).counts split .kept = (kept.countP (·.1 = split) : ℕ) :=
      hst.kept_eq split
    rw [counts_count, hkept, List.countP_append, List.countP_singleton]
    by_cases hsplit : split = x.1
    · simp [hsplit]
    · simp [hsplit, Ne.symm hsplit]
  contaminated_eq split := by
    rw [counts_count, if_neg (by simp)]
    exact hst.contaminated_eq split
  byFiling y hy := by
    rw [overlap_keepFiling, EvalOverlap.lookup_add]
    rcases List.mem_append.mp hy with hy | hy
    · rw [if_neg fun hid => hfresh y hy hid.1, hst.byFiling y hy]
    · rw [List.mem_singleton.mp hy]
      split
      · rfl
      · rename_i hempty
        rw [hst.unfiled x.2.id hfresh]
        by_contra hne
        exact hempty ⟨rfl, Ne.symm hne⟩
  unfiled id hid := by
    rw [overlap_keepFiling, EvalOverlap.lookup_add, if_neg,
      hst.unfiled id fun y hy => hid y (List.mem_append_left _ hy)]
    exact fun hx => hid x (List.mem_append_right _ List.mem_cons_self) hx.1.symm
  companies s := by
    rw [overlap_keepFiling, EvalOverlap.companies_add, companies_append, hst.companies]

/-- One turn of the first pass. -/
theorem Sifted.step [DecidableEq H] (hst : Sifted h evals pre kept st)
    (hfresh : ∀ y ∈ kept, y.2.id ≠ x.2.id) (order : SetOrder ℕ) :
    ∃ st' kept', takeNotes h order evals st x = some st' ∧
      Sifted h evals (pre ++ [x]) kept' st' := by
  cases hproblem : qualityProblem h (clean h x.2.text) with
  | some problem =>
    have hseen : ∀ hash, hash ∈ st.seen ↔ ∃ y ∈ pre ++ [x],
        qualityProblem h (clean h y.2.text) = none ∧ h.textHash (clean h y.2.text) = hash := by
      intro hash
      simp only [hst.seen, List.mem_append, List.mem_singleton, or_and_right, exists_or,
        exists_eq_left, hproblem, reduceCtorEq, false_and, or_false]
    have hd : Dropped h pre kept x.2 := .problem (by simp [hproblem])
    refine ⟨_, kept, ?_, hst.skip (.problem problem) (by simp) (by simp) hd
      st.checks hseen⟩
    simp only [takeNotes, analyze, hproblem]
  | none =>
    have hnotes : analyze h evals x.2 = .ok ⟨h.textHash (clean h x.2.text),
        minhash h (clean h x.2.text), shared h evals x.2⟩ := by
      simp only [analyze, hproblem, shared]
    have hseen : ∀ hash, hash ∈ insert (h.textHash (clean h x.2.text)) st.seen ↔ ∃ y ∈ pre ++ [x],
        qualityProblem h (clean h y.2.text) = none ∧ h.textHash (clean h y.2.text) = hash := by
      intro hash
      simp only [Finset.mem_insert, hst.seen, List.mem_append, List.mem_singleton, or_and_right,
        exists_or, exists_eq_left, hproblem, true_and, eq_comm (a := hash)]
      exact or_comm
    by_cases hcopy : h.textHash (clean h x.2.text) ∈ st.seen
    · obtain ⟨y, hy, hpasses, hhash⟩ := (hst.seen _).mp hcopy
      rw [Finset.insert_eq_of_mem hcopy] at hseen
      refine ⟨_, kept, ?_, hst.skip .exactCopy (by simp) (by simp)
        (.exactCopy y hy hpasses hhash) st.checks hseen⟩
      simp only [takeNotes, hnotes, if_pos hcopy]
    · obtain ⟨index, result, hcheck, hindexed, hdrop, hkeep⟩ :=
        checkAndAdd_eq hst.indexed order st.checks (minhash h (clean h x.2.text))
      cases result with
      | some found =>
        obtain ⟨rfl, sig, hsig, hsim, hle⟩ := hdrop found.1 found.2 rfl
        rw [hst.sigs, List.getElem?_map, Option.map_eq_some_iff] at hsig
        obtain ⟨y, hy, rfl⟩ := hsig
        have hy' : y ∈ kept := List.mem_of_getElem? hy
        have hd : Dropped h pre kept x.2 := .nearCopy y (hst.sifts.sublist.subset hy') hy'
          (NEAR_COPY_le_similarity.mp (hsim ▸ hle))
        refine ⟨_, kept, ?_, hst.skip .nearCopy (by simp) (by simp) hd
          (st.checks + 1) hseen⟩
        simp only [takeNotes, hnotes, if_neg hcopy, hcheck]
        rfl
      | none =>
        obtain ⟨hsigs, happart⟩ := hkeep rfl
        have hapart : ∀ y ∈ kept, Apart h y.2 x.2 := by
          intro y hy
          refine .of_differences (fun heq => hcopy ((hst.seen _).mpr ⟨y, ?_, ?_, heq⟩)) ?_
          · exact hst.sifts.sublist.subset hy
          · exact hst.sifts.passes y hy
          · exact happart _ (hst.sigs ▸ List.mem_map_of_mem hy)
        refine ⟨_, kept ++ [x], ?_, hst.take hproblem hapart hfresh (st.checks + 1) hindexed
          hsigs hseen⟩
        simp only [takeNotes, hnotes, if_neg hcopy, hcheck]
        rfl

end Sifts

/-- The first pass over a stream of filings with different ids, up to the contamination. -/
theorem exists_sifted [DecidableEq H] (h : Hashes H) (order : SetOrder ℕ) (evals : Finset Chars)
    (all : List (Split × Filing)) (hids : (all.map (·.2.id)).Nodup) :
    ∃ st kept, all.foldlM (takeNotes h order evals) {} = some st ∧ Sifted h evals all kept st := by
  induction all using List.reverseRecOn with
  | nil =>
    refine ⟨{}, [], rfl, ⟨⟨List.Sublist.refl _, by simp, List.Pairwise.nil, by simp⟩,
      indexed_new, rfl, by simp, by simp, fun _ => rfl, fun _ => rfl, fun _ => rfl, by simp,
      fun _ _ => rfl, fun _ => rfl⟩⟩
  | append_singleton all x ih =>
    rw [List.map_append, List.nodup_append] at hids
    obtain ⟨st, kept, hrun, hst⟩ := ih hids.1
    have hfresh : ∀ y ∈ kept, y.2.id ≠ x.2.id := fun y hy =>
      hids.2.2 _ (List.mem_map_of_mem (hst.sifts.sublist.subset hy)) _ (by simp)
    obtain ⟨st', kept', hstep, hst'⟩ := hst.step hfresh order
    refine ⟨st', kept', ?_, hst'⟩
    rw [List.foldlM_append, hrun]
    simp [hstep]

end Sift

/-! ## Contamination -/

section Contamination
variable {H : Type} {h : Hashes H} {evals : Finset Chars} {all kept : List (Split × Filing)}
  {st : Pass H}

theorem sdiff_filter_eq (ids : Finset String) (p : String → Bool) :
    ids \ ids.filter (p ·) = ids.filter (! p ·) := by
  ext id
  simp only [Finset.mem_sdiff, Finset.mem_filter, not_and, Bool.not_eq_true, Bool.not_eq_true']
  exact and_congr_right fun hid => ⟨fun hclean => hclean hid, fun hclean _ => hclean⟩

theorem decontaminate_keep (st : Pass H) (split : Split) :
    ((st.decontaminate .train).decontaminate .val).keep split =
      (st.keep split).filter (! st.overlap.contaminated ·) := by
  cases split with
  | train => exact sdiff_filter_eq _ _
  | val => exact sdiff_filter_eq _ _

theorem decontaminate_counts (st : Pass H) (split : Split) (o : Outcome) :
    ((st.decontaminate .train).decontaminate .val).counts split o =
      if o = .kept then
        st.counts split .kept - ((st.keep split).filter (st.overlap.contaminated ·)).card
      else if o = .contaminated then ((st.keep split).filter (st.overlap.contaminated ·)).card
      else st.counts split o := by
  cases split with
  | train => by_cases ho : o = .kept <;> simp [Pass.decontaminate, ho]
  | val => by_cases ho : o = .kept <;> simp [Pass.decontaminate, ho]

theorem decontaminate_total (hst : Sifted h evals all kept st) (split : Split) :
    (((st.decontaminate .train).decontaminate .val).counts split).total =
      (st.counts split).total := by
  have hzero := hst.contaminated_eq split
  simp only [Counts.total, Outcome.all, List.map_cons, List.map_nil, decontaminate_counts,
    reduceCtorEq, if_false, if_true, hzero, List.sum_cons, List.sum_nil]
  omega

/-- A kept filing is contaminated by a sentence that few companies' filings have. -/
theorem Sifted.contaminated_iff (hst : Sifted h evals all kept st) {x : Split × Filing}
    (hx : x ∈ kept) :
    st.overlap.contaminated x.2.id = true ↔
      ∃ s ∈ shared h evals x.2, (Corpus.companies h evals kept s).card ≤ MAX_LEAK_COMPANIES := by
  have hrare : ∀ s ∈ shared h evals x.2, (st.overlap.rare s = true ↔
      (Corpus.companies h evals kept s).card ≤ MAX_LEAK_COMPANIES) := by
    intro s hs
    have hpos : 0 < (Corpus.companies h evals kept s).card := by
      refine Finset.card_pos.mpr ⟨x.2.cik, List.mem_toFinset.mpr (List.mem_map.mpr ⟨x, ?_, rfl⟩)⟩
      exact List.mem_filter.mpr ⟨hx, decide_eq_true hs⟩
    rw [EvalOverlap.rare, hst.companies, Bool.and_eq_true, decide_eq_true_iff, decide_eq_true_iff]
    exact and_iff_right hpos
  have hfiled := hst.byFiling x hx
  rw [EvalOverlap.contaminated]
  cases hlookup : st.overlap.byFiling.lookup x.2.id with
  | none =>
    rw [hlookup, Option.getD_none] at hfiled
    simp [← hfiled]
  | some filed =>
    rw [hlookup, Option.getD_some] at hfiled
    subst hfiled
    rw [Option.any_some, decide_eq_true_iff, Finset.filter_nonempty_iff]
    exact exists_congr fun s => and_congr_right fun hs => hrare s hs

end Contamination

/-! ## Shards -/

section Shards
variable {α : Type} (f : α → List UInt32)

/-- The file of a number that holds some filings. -/
def Shard.of (number : ℕ) (part : List α) : Shard where
  number
  tokens := (part.flatMap f).length
  data := part.flatMap f

/-- Filings in files, in order, each in one: a file is full with its last filing and no sooner, and
only the last file need not be full. -/
structure Packs (docs : List α) (shards : List Shard) (parts : List (List α)) : Prop where
  flatten : parts.flatten = docs
  shards : shards = parts.mapIdx (Shard.of f)
  ne_nil : ∀ part ∈ parts, part ≠ []
  short : ∀ part ∈ parts, (part.dropLast.flatMap f).length < SHARD_TOKENS
  full : ∀ part ∈ parts.dropLast, SHARD_TOKENS ≤ (part.flatMap f).length

variable {f} {docs : List α} {w : ShardWriter} {parts : List (List α)}

/-- A filing in a file of its own. -/
theorem Packs.cons_file (hw : Packs f docs w.shards parts) (d : α)
    (hfull : ∀ part ∈ parts.getLast?, SHARD_TOKENS ≤ (part.flatMap f).length) :
    Packs f (docs ++ [d]) (w.shards ++ [Shard.of f w.shards.length [d]]) (parts ++ [[d]]) where
  flatten := by simp [hw.flatten]
  shards := by
    rw [List.mapIdx_append, ← hw.shards]
    simp [hw.shards]
  ne_nil part hpart := by
    rcases List.mem_append.mp hpart with hpart | hpart
    · exact hw.ne_nil part hpart
    · rw [List.mem_singleton.mp hpart]
      exact List.cons_ne_nil _ _
  short part hpart := by
    rcases List.mem_append.mp hpart with hpart | hpart
    · exact hw.short part hpart
    · rw [List.mem_singleton.mp hpart]
      exact Nat.zero_lt_of_ne_zero (by decide)
  full part hpart := by
    rw [List.dropLast_concat] at hpart
    rcases List.eq_nil_or_concat parts with rfl | ⟨parts, last, rfl⟩
    · cases hpart
    · rw [List.concat_eq_append] at hpart hfull
      rcases List.mem_append.mp hpart with hpart | hpart
      · refine hw.full part ?_
        rwa [List.concat_eq_append, List.dropLast_concat]
      · rw [List.mem_singleton.mp hpart]
        exact hfull last (by simp)

/-- A filing behind the others of the open file. -/
theorem Packs.grow {last : List α} (hw : Packs f docs w.shards (parts ++ [last])) (d : α)
    (hroom : (last.flatMap f).length < SHARD_TOKENS) :
    Packs f (docs ++ [d]) (parts.mapIdx (Shard.of f) ++ [Shard.of f parts.length (last ++ [d])])
      (parts ++ [last ++ [d]]) where
  flatten := by simp [← hw.flatten]
  shards := by simp [List.mapIdx_append]
  ne_nil part hpart := by
    rcases List.mem_append.mp hpart with hpart | hpart
    · exact hw.ne_nil part (List.mem_append_left _ hpart)
    · rw [List.mem_singleton.mp hpart]
      exact List.append_ne_nil_of_right_ne_nil _ (List.cons_ne_nil _ _)
  short part hpart := by
    rcases List.mem_append.mp hpart with hpart | hpart
    · exact hw.short part (List.mem_append_left _ hpart)
    · rw [List.mem_singleton.mp hpart, List.dropLast_concat]
      exact hroom
  full part hpart := by
    rw [List.dropLast_concat] at hpart
    exact hw.full part (by rwa [List.dropLast_concat])

theorem Shard.of_append (n : ℕ) (part : List α) (d : α) : Shard.of f n (part ++ [d]) =
    ⟨n, (part.flatMap f).length + (f d).length, part.flatMap f ++ f d⟩ := by
  rw [Shard.of, List.flatMap_append, List.flatMap_singleton, List.length_append]

theorem ShardWriter.writeIds_new (hfile : ∀ shard ∈ w.file, SHARD_TOKENS ≤ shard.tokens)
    (ids : List UInt32) :
    w.writeIds ids = { full := w.shards, file := some ⟨w.shards.length, ids.length, ids⟩ } := by
  obtain ⟨full, file⟩ := w
  cases file with
  | none => simp [writeIds, next, shards]
  | some shard =>
    have hfull : SHARD_TOKENS ≤ shard.tokens := hfile shard rfl
    simp [writeIds, next, shards, hfull]

theorem ShardWriter.writeIds_open {full : List Shard} {shard : Shard}
    (hfile : shard.tokens < SHARD_TOKENS) (ids : List UInt32) :
    ShardWriter.writeIds ⟨full, some shard⟩ ids =
      ⟨full, some ⟨shard.number, shard.tokens + ids.length, shard.data ++ ids⟩⟩ := by
  have hroom : ¬ SHARD_TOKENS ≤ shard.tokens := not_le.mpr hfile
  simp [writeIds, next, hroom]

/-- One more filing. -/
theorem Packs.writeIds (hw : Packs f docs w.shards parts)
    (hnew : w.file = none → parts = []) (d : α) :
    ∃ parts', Packs f (docs ++ [d]) (w.writeIds (f d)).shards parts' ∧
      (w.writeIds (f d)).file ≠ none := by
  have hsingle : Shard.of f w.shards.length [d] = ⟨w.shards.length, (f d).length, f d⟩ := by
    rw [Shard.of, List.flatMap_singleton]
  rcases List.eq_nil_or_concat parts with rfl | ⟨parts, last, rfl⟩
  · have hfile : w.file = none := by
      have hnil := hw.shards
      rw [ShardWriter.shards, List.mapIdx_nil, List.append_eq_nil_iff] at hnil
      exact Option.toList_eq_nil_iff.mp hnil.2
    have hpacks := hw.cons_file d (by simp)
    rw [ShardWriter.writeIds_new (by simp [hfile])]
    exact ⟨_, hsingle ▸ hpacks, by simp⟩
  · rw [List.concat_eq_append] at hw hnew
    obtain ⟨full, file⟩ := w
    cases file with
    | none => simp at hnew
    | some shard =>
      have hshards := hw.shards
      rw [ShardWriter.shards, List.mapIdx_append, List.mapIdx_singleton, Nat.zero_add] at hshards
      obtain ⟨rfl, hlast⟩ := List.append_inj' hshards rfl
      obtain rfl : shard = Shard.of f parts.length last := List.singleton_inj.mp hlast
      by_cases hfull : SHARD_TOKENS ≤ (last.flatMap f).length
      · have hpacks := hw.cons_file d (by simpa using hfull)
        rw [ShardWriter.writeIds_new (by simpa [Shard.of] using hfull)]
        exact ⟨_, hsingle ▸ hpacks, by simp⟩
      · have hpacks := hw.grow d (not_le.mp hfull)
        rw [ShardWriter.writeIds_open (not_le.mp hfull)]
        rw [Shard.of_append] at hpacks
        exact ⟨_, hpacks, by simp⟩

/-- All filings of a split. -/
theorem exists_packs (f : α → List UInt32) (docs : List α) :
    ∃ parts, Packs f docs ((docs.map f).foldl ShardWriter.writeIds {}).shards parts := by
  have hpacks : ∃ parts, Packs f docs ((docs.map f).foldl ShardWriter.writeIds {}).shards parts ∧
      (((docs.map f).foldl ShardWriter.writeIds {}).file = none → parts = []) := by
    induction docs using List.reverseRecOn with
    | nil => exact ⟨[], ⟨rfl, rfl, by simp, by simp, by simp⟩, fun _ => rfl⟩
    | append_singleton docs d ih =>
      obtain ⟨parts, hw, hnew⟩ := ih
      obtain ⟨parts', hw', hfile⟩ := hw.writeIds hnew d
      rw [List.map_append, List.foldl_append]
      exact ⟨parts', hw', fun hnone => absurd hnone hfile⟩
  obtain ⟨parts, hw, -⟩ := hpacks
  exact ⟨parts, hw⟩

end Shards

/-! ## Both passes -/

section Survivors
variable {H : Type} {h : Hashes H} {evals : Finset Chars} {kept : List (Split × Filing)}
  {st : Pass H} {filings : Split → List Filing} {split : Split}

theorem mem_stream {d : Filing} : (split, d) ∈ stream filings ↔ d ∈ filings split := by
  cases split with
  | train => simp [stream]
  | val => simp [stream]

theorem countP_stream (split : Split) :
    (stream filings).countP (·.1 = split) = (filings split).length := by
  cases split with
  | train => simp [stream, List.countP_map, Function.comp_def]
  | val => simp [stream, List.countP_map, Function.comp_def]

variable (hids : ((stream filings).map (·.2.id)).Nodup)
include hids

theorem nodup_ids (split : Split) : ((filings split).map (·.id)).Nodup := by
  have hsub : ((filings split).map (Prod.mk split)).Sublist (stream filings) := by
    cases split with
    | train => exact List.sublist_append_left _ _
    | val => exact List.sublist_append_right _ _
  have hmap := (hsub.map (·.2.id)).nodup hids
  rwa [List.map_map] at hmap

/-- What the second pass finds in its set of ids. -/
theorem Sifted.mem_keep (hst : Sifted h evals (stream filings) kept st) {d : Filing}
    (hd : d ∈ filings split) : d.id ∈ (st.keep split).filter (! st.overlap.contaminated ·) ↔
      (split, d) ∈ kept ∧ ∀ s ∈ shared h evals d,
        MAX_LEAK_COMPANIES < (Corpus.companies h evals kept s).card := by
  rw [Finset.mem_filter, hst.keep]
  constructor
  · rintro ⟨⟨d', hd', hid⟩, hclean⟩
    have heq : d' = d := List.inj_on_of_nodup_map (nodup_ids hids split)
      (mem_stream.mp (hst.sifts.sublist.subset hd')) hd hid
    subst heq
    refine ⟨hd', fun s hs => not_le.mp fun hfew => ?_⟩
    have hbad := (hst.contaminated_iff hd').mpr ⟨s, hs, hfew⟩
    rw [Bool.not_eq_true', hbad] at hclean
    cases hclean
  · rintro ⟨hkept, hrare⟩
    refine ⟨⟨d, hkept, rfl⟩, ?_⟩
    rw [Bool.not_eq_true']
    refine Bool.eq_false_iff.mpr fun hbad => ?_
    obtain ⟨s, hs, hfew⟩ := (hst.contaminated_iff hkept).mp hbad
    exact absurd (hrare s hs) (not_lt.mpr hfew)

theorem Sifted.filter_keep (hst : Sifted h evals (stream filings) kept st) (split : Split) :
    (filings split).filter (·.id ∈ ((st.decontaminate .train).decontaminate .val).keep split) =
      written h evals kept filings split := by
  refine List.filter_congr fun d hd => ?_
  rw [decontaminate_keep]
  exact decide_eq_decide.mpr (hst.mem_keep hids hd)

/-- A kept filing is contaminated, or written. -/
theorem Sifted.card_contaminated (hst : Sifted h evals (stream filings) kept st) (split : Split) :
    ((st.keep split).filter (st.overlap.contaminated ·)).card +
      (written h evals kept filings split).length = kept.countP (·.1 = split) := by
  have hkept : (st.keep split).card = kept.countP (·.1 = split) := by
    have heq : st.keep split = ((kept.filter (·.1 = split)).map (·.2.id)).toFinset := by
      ext id
      rw [hst.keep, List.mem_toFinset, List.mem_map]
      constructor
      · rintro ⟨d, hd, rfl⟩
        exact ⟨_, List.mem_filter.mpr ⟨hd, decide_eq_true rfl⟩, rfl⟩
      · rintro ⟨x, hx, rfl⟩
        obtain ⟨hx, hsplit⟩ := List.mem_filter.mp hx
        exact ⟨x.2, of_decide_eq_true hsplit ▸ hx, rfl⟩
    have hnodup : ((kept.filter (·.1 = split)).map (·.2.id)).Nodup :=
      ((List.filter_sublist.trans hst.sifts.sublist).map _).nodup hids
    rw [heq, List.toFinset_card_of_nodup hnodup, List.length_map, List.countP_eq_length_filter]
  have hwritten : ((st.keep split).filter (! st.overlap.contaminated ·)).card =
      (written h evals kept filings split).length := by
    have heq : (st.keep split).filter (! st.overlap.contaminated ·) =
        ((written h evals kept filings split).map (·.id)).toFinset := by
      ext id
      rw [List.mem_toFinset, List.mem_map]
      constructor
      · intro hid
        obtain ⟨d, hd, rfl⟩ := (hst.keep split id).mp (Finset.mem_of_mem_filter id hid)
        have hmem := mem_stream.mp (hst.sifts.sublist.subset hd)
        exact ⟨d, List.mem_filter.mpr ⟨hmem, decide_eq_true ((hst.mem_keep hids hmem).mp hid)⟩, rfl⟩
      · rintro ⟨d, hd, rfl⟩
        obtain ⟨hmem, hd⟩ := List.mem_filter.mp hd
        exact (hst.mem_keep hids hmem).mpr (of_decide_eq_true hd)
    have hnodup : ((written h evals kept filings split).map (·.id)).Nodup :=
      (List.filter_sublist.map _).nodup (nodup_ids hids split)
    rw [heq, List.toFinset_card_of_nodup hnodup, List.length_map]
  rw [← hwritten, ← hkept,
    ← Finset.card_filter_add_card_filter_not (s := st.keep split) (st.overlap.contaminated ·)]
  simp only [Bool.not_eq_true, Bool.not_eq_true']

theorem Sifted.build [DecidableEq H] (hst : Sifted h evals (stream filings) kept st)
    {order : SetOrder ℕ} (tok : Tokenizer)
    (hrun : (stream filings).foldlM (takeNotes h order evals) {} = some st) :
    ∃ counts shards, build h tok order evals filings = some (counts, shards) ∧ ∀ split,
      (∃ parts, Packs (encode h tok) (written h evals kept filings split) (shards split) parts) ∧
      (counts split).total = (filings split).length ∧
      counts split .kept = (written h evals kept filings split).length ∧
      counts split .contaminated =
        kept.countP (·.1 = split) - (written h evals kept filings split).length := by
  refine ⟨((st.decontaminate .train).decontaminate .val).counts,
    fun split => pass2 h tok (((st.decontaminate .train).decontaminate .val).keep split)
      (filings split), ?_, fun split => ?_⟩
  · simp only [Corpus.build, pass1, hrun]
    rfl
  · have hcard := hst.card_contaminated hids split
    refine ⟨?_, ?_, ?_, ?_⟩
    · rw [← hst.filter_keep hids split]
      exact exists_packs _ _
    · rw [decontaminate_total hst, hst.total, countP_stream]
    · rw [decontaminate_counts, if_pos rfl, hst.kept_eq, ← hcard]
      omega
    · rw [decontaminate_counts, if_neg (by simp), if_pos rfl, ← hcard]
      omega

end Survivors

/-- What is built of filings with different ids. The first pass keeps, of both splits together, what
passes and differs from all that is kept, and drops every other filing for junk, a copy or a near
copy before it. The second pass writes, of these, the filings without a rare sentence of the
evaluation data, whole and in order, into numbered files; and every filing is counted once, as what
became of it. -/
theorem prepareCorpus_writes_kept {H : Type} [DecidableEq H] (h : Hashes H) (tok : Tokenizer)
    (order : SetOrder ℕ) (reports : List Chars) (years : List ℕ) (maxDocs : Option ℕ)
    (files : ℕ → Split → List Row)
    (hids : ((stream (readFilings years maxDocs files)).map (·.2.id)).Nodup) :
    let evals := evalSentences reports
    let filings := readFilings years maxDocs files
    ∃ counts shards kept,
      prepareCorpus h tok order reports years maxDocs files = some (counts, shards) ∧
      Sifts h (stream filings) kept ∧ ∀ split,
        (∃ parts, Packs (encode h tok) (written h evals kept filings split) (shards split) parts) ∧
        (counts split).total = (filings split).length ∧
        counts split .kept = (written h evals kept filings split).length ∧
        counts split .contaminated =
          kept.countP (·.1 = split) - (written h evals kept filings split).length := by
  intro evals filings
  obtain ⟨st, kept, hrun, hst⟩ := exists_sifted h order evals (stream filings) hids
  obtain ⟨counts, shards, hbuild, hwritten⟩ := hst.build hids tok hrun
  exact ⟨counts, shards, kept, hbuild, hst.sifts, hwritten⟩

/-- Two training filings of one text and a held-out one of two words. -/
theorem prepareCorpus_writes_kept_three :
    let h : Hashes Chars :=
      { nfkc := id, lower := List.map Char.toLower, isAlpha := Char.isAlpha
        isDigit := Char.isDigit, textHash := id
        crc32 := List.foldl (fun crc c => crc * 31 + c.val) 0
        a := fun p => 2 * p.val.toUInt64 + 1, b := fun p => p.val.toUInt64 }
    let tok : Tokenizer := ⟨List.map Char.val, 0⟩
    let report : Chars := (List.replicate 250 "revenue ".toList).flatten
    let files : ℕ → Split → List Row := fun _ split => if split = .train then
      [⟨"1_2019.htm", "1", [some report]⟩, ⟨"2_2019.htm", "2", [none, some report]⟩]
    else [⟨"3_2019.htm", "3", [some "no report".toList]⟩]
    let filings := readFilings [2019] none files
    ∃ counts shards kept, prepareCorpus h tok default [] [2019] none files = some (counts, shards) ∧
      Sifts h (stream filings) kept ∧ ∀ split,
        (∃ parts, Packs (encode h tok) (written h ∅ kept filings split) (shards split) parts) ∧
        (counts split).total = (filings split).length ∧
        counts split .kept = (written h ∅ kept filings split).length ∧
        counts split .contaminated =
          kept.countP (·.1 = split) - (written h ∅ kept filings split).length :=
  prepareCorpus_writes_kept _ _ _ _ _ _ _ (by decide)

end Corpus

end LightServe
