import LightServe.Model.FlatPass
import Mathlib.Algebra.Ring.Int.Defs

/-!
# Feeding a sequence in chunks

A sequence is fed to the flat pass chunk by chunk, step after step, each chunk in a batch with
whatever other requests are scheduled. Its hidden rows are those of the dense pass over the whole
sequence.

## Main definitions

* `Llama.Fed` — the steps that feed a sequence.
* `Llama.llamaForward_of_fed` — the rows they leave.
-/

namespace LightServe

open CausalLayer

/-- The other requests of a batch: what is scheduled of each is among its computed tokens, and none
has a block of `table`. -/
def Apart (tables : Request → List BlockId) (table : List BlockId) (others : List (Request × ℕ)) :
    Prop :=
  ∀ rn ∈ others, rn.2 ≤ rn.1.numComputedTokens ∧ ∀ b ∈ tables rn.1, b ∉ table

instance (tables : Request → List BlockId) (table : List BlockId) (others : List (Request × ℕ)) :
    Decidable (Apart tables table others) :=
  inferInstanceAs (Decidable (∀ rn ∈ others, _))

namespace Llama
variable {ρ η : Type} {m : Llama ρ η} {tables : Request → List BlockId} {table : List BlockId}
  {kv kv' : Cache η} {ranges : List FlatRange} {hidden rows : List ρ} {ts : List Token}

/-- The steps that feed a sequence `ts` to the flat pass: each step is a batch in which the request
of the sequence has its next chunk, or none. In the end its block table is `table`, the cache is
`kv`, and `rows` are the hidden rows of its chunks in order. -/
inductive Fed (m : Llama ρ η) : List Token → List BlockId → Cache η → List ρ → Prop
  | start (table : List BlockId) (kv : Cache η) (hsize : 0 < kv.blockSize) : Fed m [] table kv []
  | chunk {ts ids : List Token} {table more : List BlockId} {kv kv' : Cache η}
      {rows hidden : List ρ}
      {tables : Request → List BlockId} {before after : List (Request × ℕ)} {r : Request} {n : ℕ}
      {ranges : List FlatRange} {f : FlatRange} (h : Fed m ts table kv rows)
      (hnodup : (table ++ more).Nodup) (htable : tables r = table ++ more)
      (hstart : r.numComputedTokens = ts.length + n)
      (hids : ModelRunner.inputIds r n ts.length r.numComputedTokens = .ok ids)
      (hothers : Apart tables (table ++ more) (before ++ after))
      (hforward : m.forward tables (before ++ (r, n) :: after) kv = .ok (kv', ranges, hidden))
      (hf : ranges[before.length]? = some f) :
      Fed m (ts ++ ids) (table ++ more) kv' (rows ++ rowSlice hidden f.flatStart f.flatEnd)
  | rest {ts : List Token} {table : List BlockId} {kv kv' : Cache η} {rows hidden : List ρ}
      {tables : Request → List BlockId} {others : List (Request × ℕ)} {ranges : List FlatRange}
      (h : Fed m ts table kv rows) (hothers : Apart tables table others)
      (hforward : m.forward tables others kv = .ok (kv', ranges, hidden)) : Fed m ts table kv' rows

/-! ## The cache between steps -/

/-- Every layer of a table holds the entries of a sequence. -/
def Filled (m : Llama ρ η) (kv : Cache η) (table : List BlockId) (ts : List Token) : Prop :=
  m.Cached kv table 0 m.layers (ts.map fun t => (m.zeros, m.embedTokens t))

/-- A range of a batch in which the other requests are apart. -/
theorem alone_of_forward {before after : List (Request × ℕ)} {r : Request} {n : ℕ} {f : FlatRange}
    (h : m.forward tables (before ++ (r, n) :: after) kv = .ok (kv', ranges, hidden))
    (hn : n ≤ r.numComputedTokens) (hnodup : (tables r).Nodup)
    (hothers : Apart tables (tables r) (before ++ after)) (hf : ranges[before.length]? = some f) :
    ∃ front back, ranges = front ++ f :: back ∧ ModelRunner.IsRange r n f ∧
      Alone tables front back f := by
  obtain ⟨hloop, hread, -⟩ := forward_eq_ok h
  have hall := ModelRunner.forall_isRange hloop
  have hlaid := laid_of_flatLoop hloop hread fun rn hrn => by
    rcases List.mem_append.mp hrn with hrn | hrn
    · exact (hothers rn (List.mem_append_left _ hrn)).1
    · rcases List.mem_cons.mp hrn with rfl | hrn
      · exact hn
      · exact (hothers rn (List.mem_append_right _ hrn)).1
  have hfront := List.forall₂_take before.length hall
  have hback := List.forall₂_drop before.length hall
  rw [List.take_left] at hfront
  rw [List.drop_left] at hback
  obtain ⟨f', back, hrange, hrest, hdrop⟩ := List.forall₂_cons_left_iff.mp hback
  have hhead : (ranges.drop before.length)[0]? = some f := by
    rw [List.getElem?_drop, Nat.add_zero, hf]
  rw [hdrop, List.getElem?_cons_zero, Option.some.injEq] at hhead
  subst hhead
  have hsplit : ranges = ranges.take before.length ++ f' :: back := by
    rw [← hdrop, List.take_append_drop]
  generalize ranges.take before.length = front at hfront hsplit
  subst hsplit
  have happart : ∀ (l : List (Request × ℕ)) (l' : List FlatRange),
      List.Forall₂ (fun rn f => ModelRunner.IsRange rn.1 rn.2 f) l l' →
      (∀ rn ∈ l, ∀ b ∈ tables rn.1, b ∉ tables r) →
      ∀ g ∈ l', ∀ b ∈ tables g.request, b ∉ tables r := by
    intro l l' hl hapart g hg
    obtain ⟨rn, hrn, hrange⟩ := exists_of_mem_forall₂ hl hg
    rw [hrange.request]
    exact hapart rn hrn
  refine ⟨front, back, rfl, hrange, hlaid, by rwa [hrange.request], fun g hg => ?_⟩
  rw [hrange.request]
  rcases List.mem_append.mp hg with hg | hg
  · exact happart before front hfront
      (fun rn hrn => (hothers rn (List.mem_append_left _ hrn)).2) g hg
  · exact happart after back hrest
      (fun rn hrn => (hothers rn (List.mem_append_right _ hrn)).2) g hg

/-- A step that feeds the next chunk. -/
theorem Filled.chunk {before after : List (Request × ℕ)} {r : Request} {n : ℕ} {ids : List Token}
    {f : FlatRange} (hfilled : m.Filled kv (tables r) ts) (hsize : 0 < kv.blockSize)
    (hnodup : (tables r).Nodup) (hstart : r.numComputedTokens = ts.length + n)
    (hids : ModelRunner.inputIds r n ts.length r.numComputedTokens = .ok ids)
    (hothers : Apart tables (tables r) (before ++ after))
    (h : m.forward tables (before ++ (r, n) :: after) kv = .ok (kv', ranges, hidden))
    (hf : ranges[before.length]? = some f) :
    kv'.blockSize = kv.blockSize ∧ f.inputIds = ids ∧
      (m.states m.layers (ts ++ ids)).map m.hiddenRow =
        (m.states m.layers ts).map m.hiddenRow ++ rowSlice hidden f.flatStart f.flatEnd ∧
      m.Filled kv' (tables r) (ts ++ ids) := by
  obtain ⟨front, back, rfl, hrange, halone⟩ := alone_of_forward h (by omega) hnodup hothers hf
  have hseq : f.seqStart = ts.length := by
    rw [hrange.seqStart, hstart, Nat.add_sub_cancel]
  have hin : f.inputIds = ids := by
    have := hrange.inputIds
    rw [hseq, hrange.seqEnd, hids] at this
    exact (Except.ok.inj this).symm
  have htable : tables f.request = tables r := by rw [hrange.request]
  have hspec := forward_range h halone hsize hseq.symm (by rw [htable]; exact hfilled)
  rw [htable, hin] at hspec
  exact ⟨hspec.1, hin, hspec.2⟩

/-- A step of others. -/
theorem Filled.rest {others : List (Request × ℕ)} (hfilled : m.Filled kv table ts)
    (hothers : Apart tables table others)
    (h : m.forward tables others kv = .ok (kv', ranges, hidden)) :
    kv'.blockSize = kv.blockSize ∧ m.Filled kv' table ts := by
  obtain ⟨hloop, hread, x, residual, hlayers, -⟩ := forward_eq_ok h
  have hlaid := laid_of_flatLoop hloop hread fun rn hrn => (hothers rn hrn).1
  obtain ⟨-, -, hsize, -, hslots⟩ :=
    flatLayers_frame hlaid (by simp [embed]) (by simp [embed]) hlayers
  have hall := ModelRunner.forall_isRange hloop
  refine ⟨hsize, Cached.congr hfilled hsize fun l other hl _ => ?_⟩
  refine congrFun (hslots l fun g hg hmem => ?_) other
  obtain ⟨rn, hrn, hrange⟩ := exists_of_mem_forall₂ hall hg
  rw [hrange.request] at hmem
  exact (hothers rn hrn).2 _ hmem hl

/-- What the steps that feed a sequence leave. -/
theorem Fed.filled (h : m.Fed ts table kv rows) : 0 < kv.blockSize ∧ m.Filled kv table ts ∧
    rows = (m.states m.layers ts).map m.hiddenRow := by
  induction h with
  | start table kv hsize =>
    refine ⟨hsize, .nil _ _ _ _, ?_⟩
    rw [eq_comm, ← List.length_eq_zero_iff]
    simp [states]
  | @chunk ts ids table more kv kv' rows hidden tables before after r n ranges f _ hnodup
      htable hstart
      hids hothers hforward hf ih =>
    obtain ⟨hsize, hfilled, rfl⟩ := ih
    have hheld : m.Filled kv (tables r) ts := htable ▸ Cached.append hfilled more
    obtain ⟨hsize', -, hrows, hfilled'⟩ := hheld.chunk hsize (htable ▸ hnodup) hstart hids
      (htable ▸ hothers) hforward hf
    exact ⟨hsize' ▸ hsize, htable ▸ hfilled', hrows.symm⟩
  | rest _ hothers hforward ih =>
    obtain ⟨hsize, hfilled, hrows⟩ := ih
    obtain ⟨hsize', hfilled'⟩ := hfilled.rest hothers hforward
    exact ⟨hsize' ▸ hsize, hfilled', hrows⟩

/-- However a sequence is cut into chunks, and whatever else is in the batches, the hidden rows of
the chunks are those of the dense pass over the sequence at once; and the keys that the kernel keeps
for a row of a padded chunk are those up to the row's own position. -/
theorem llamaForward_of_fed (h : m.Fed ts table kv rows) : m.llamaForward ts = .ok rows ∧
    ∀ (q : List (List η)) (start i : ℕ), i < q.length →
      (m.padQuery (start + q.length) q)[start + i]? = q[i]? ∧
        visibleKeys (m.blockM (start + q.length)) (m.blockN (start + q.length)) (start + q.length)
          (start + i) = List.range (start + i + 1) := by
  refine ⟨by rw [llamaForward_eq, h.filled.2.2],
    fun q start i hi => ⟨m.getElem?_padQuery start q i, ?_⟩⟩
  exact visibleKeys_eq (m.blockM_pos _) (m.blockN_pos _) (by omega)

end Llama

/-- One layer over integers, in which a head's rotation adds its position. -/
def tinyLlama : Llama ℤ ℤ where
  embedTokens t := t
  zeros := 0
  layers := [{
    inputLayernorm := fun x residual => (x + residual, x + residual)
    qProj := fun x => [x]
    kProj := fun x => [x]
    vProj := fun x => [2 * x]
    oProj := List.sum
    postAttentionLayernorm := fun x residual => (x + residual, x + residual)
    mlp := fun x => 3 * x }]
  rope p head := head + p
  zeroQuery := [0]
  emptyRow := [0]
  attend q entries := [q.sum + (entries.map fun e => e.1.sum * e.2.sum).sum]
  blockM _ := 2
  blockN _ := 2
  blockM_pos _ := by decide
  blockN_pos _ := by decide
  norm x residual := (x + residual, x + residual)
  sample row := row

/-- A prompt of three tokens in chunks of two and one, the first next to another request. -/
theorem llamaForward_of_fed_three : ∃ table kv rows,
    tinyLlama.Fed [3, 5, 7] table kv rows ∧ tinyLlama.llamaForward [3, 5, 7] = .ok rows := by
  have hfirst : tinyLlama.Fed [3, 5] [4] _ _ :=
    @Llama.Fed.chunk _ _ tinyLlama _ _ _ [] _ _ _ _ (fun r => if r.requestId = 0 then [4] else [1])
      [({ requestId := 1, promptTokenIds := [2], numComputedTokens := 1 }, 1)] []
      { requestId := 0, promptTokenIds := [3, 5, 7], numComputedTokens := 2 } 2 _ _
      (.start [4] ⟨2, fun _ _ => ([], [])⟩ (by decide)) (by decide) rfl rfl rfl (by decide) rfl rfl
  have hsecond : tinyLlama.Fed [3, 5, 7] [4, 2] _ _ :=
    @Llama.Fed.chunk _ _ tinyLlama _ _ _ [2] _ _ _ _ (fun _ => [4, 2]) [] []
      { requestId := 0, promptTokenIds := [3, 5, 7], numComputedTokens := 3 } 1 _ _
      hfirst (by decide) rfl rfl rfl (by decide) rfl rfl
  exact ⟨_, _, _, hsecond, (Llama.llamaForward_of_fed hsecond).1⟩

end LightServe
