import LightServe.Model.LlamaKernels
import Mathlib.Data.List.GetD

/-!
# Decoding in a static buffer

The two decode loops of `model/cuda_graph_decode.py`. A step runs the pass over the whole buffer,
whose columns from `cur_len` on are a filler, reads the row before `cur_len` and writes the token it
finds there into the next column. One loop calls the pass; the other replays a graph of it, which
leaves the logits in the memory of the capture.

## Main definitions

* `LlamaKernels.runEager`, `LlamaKernels.runCudaGraph` — the loops.
* `LlamaKernels.greedyIds` — what is decoded from a sequence that grows.
* `LlamaKernels.decode_loops_eq_greedy` — what both leave in the buffer.
-/

namespace LightServe

open Finset OnlineSoftmax

/-- The buffer of a decode loop, by batch and column, and how many of its columns are real. -/
structure DecodeState where
  inputIds : ℕ → ℕ → ℕ
  curLen : ℕ

/-- A decode loop with a captured graph: what the capture's logits hold, too. -/
structure GraphState (K : Type) extends DecodeState where
  staticLogits : ℕ → ℕ → ℕ → K

namespace LlamaKernels
variable {K : Type} [Field K] [LinearOrder K]

def seedTokenId : ℕ := 1

omit [Field K] in
/-- `argmax` of a row of logits: the first of the largest. -/
def argmax (n : ℕ) (logits : ℕ → K) : ℕ :=
  (List.range n).foldl (fun best v => if logits best < logits v then v else best) 0

/-- `input_ids[:, i] = tokens`, which fails outside the buffer. -/
def setColumn (maxSeqLen i : ℕ) (tokens : ℕ → ℕ) (inputIds : ℕ → ℕ → ℕ) : Option (ℕ → ℕ → ℕ) :=
  if i < maxSeqLen then some fun b j => if j = i then tokens b else inputIds b j else none

/-- `_make_seeded_buffer`. -/
def makeSeededBuffer (maxSeqLen : ℕ) : Option (ℕ → ℕ → ℕ) :=
  setColumn maxSeqLen 0 (fun _ => seedTokenId) fun _ _ => 0

/-- The end of a step: write the token that the last real row of the logits asks for. -/
def writeNext (vocabSize maxSeqLen : ℕ) (logits : ℕ → ℕ → ℕ → K) (s : DecodeState) :
    Option DecodeState := do
  let nextTok := fun b => argmax vocabSize (logits b (s.curLen - 1))
  let inputIds ← setColumn maxSeqLen s.curLen nextTok s.inputIds
  some { inputIds, curLen := s.curLen + 1 }

/-- So many steps. -/
def steps {σ : Type} (step : σ → Option σ) : ℕ → σ → Option σ
  | 0, s => some s
  | n + 1, s => do
    let s ← step s
    steps step n s

/-- `_time_decode_loop`. -/
def timeDecodeLoop {σ : Type} (step : σ → Option σ) (numSteps warmupSteps : ℕ) (s : σ) :
    Option σ := do
  let s ← steps step warmupSteps s
  steps step numSteps s

section Loops
variable (m : LlamaMath K) (c : LlamaConfig K) (t : LlamaTuning K) (B maxSeqLen : ℕ)
  (weights : LlamaWeights K)

/-- A step of `run_eager`. -/
def eagerStep (s : DecodeState) : Option DecodeState :=
  writeNext c.vocabSize maxSeqLen (llamaForward m c t B maxSeqLen true weights s.inputIds) s

/-- `graph.replay()`: the captured pass over what the buffer holds now. -/
def replay (s : GraphState K) : GraphState K :=
  { s with staticLogits := llamaForward m c t B maxSeqLen true weights s.inputIds }

/-- A step of `run_cuda_graph`. -/
def graphStep (s : GraphState K) : Option (GraphState K) := do
  let s := replay m c t B maxSeqLen weights s
  let decoded ← writeNext c.vocabSize maxSeqLen s.staticLogits s.toDecodeState
  some { s with toDecodeState := decoded }

/-- `run_eager`: the buffer that its steps leave. -/
def runEager (numSteps warmupSteps : ℕ) : Option DecodeState := do
  let inputIds ← makeSeededBuffer maxSeqLen
  timeDecodeLoop (eagerStep m c t B maxSeqLen weights) numSteps warmupSteps
    { inputIds, curLen := 1 }

/-- `run_cuda_graph`, whose capture finds some logits in memory and computes none. -/
def runCudaGraph (memory : ℕ → ℕ → ℕ → K) (numSteps warmupSteps : ℕ) : Option (GraphState K) := do
  let inputIds ← makeSeededBuffer maxSeqLen
  timeDecodeLoop (graphStep m c t B maxSeqLen weights) numSteps warmupSteps
    { inputIds, curLen := 1, staticLogits := memory }

end Loops

/-! ## A sequence that grows -/

section Greedy
variable (m : LlamaMath K) (c : LlamaConfig K) (weights : LlamaWeights K)

/-- What the plain pass over a sequence alone asks for after it. -/
def greedyNext (ids : List ℕ) : ℕ :=
  argmax c.vocabSize (referenceLlamaForward m c ids.length true weights
    (fun _ i => ids.getD i 0) 0 (ids.length - 1))

/-- The seed and what is decoded after it. -/
def greedyIds : ℕ → List ℕ
  | 0 => [seedTokenId]
  | n + 1 => greedyIds n ++ [greedyNext m c weights (greedyIds n)]

@[simp] theorem length_greedyIds (n : ℕ) : (greedyIds m c weights n).length = n + 1 := by
  induction n with
  | zero => rfl
  | succ n ih => rw [greedyIds, List.length_append, ih, List.length_singleton]

end Greedy

/-! ## The largest logit -/

section Argmax
variable {n : ℕ} {f g : ℕ → K}

omit [Field K] in
private theorem argmax_fold (hsame : ∀ v < n, f v = g v) {vs : List ℕ} (hvs : ∀ v ∈ vs, v < n)
    {best : ℕ} (hbest : best < n) :
    vs.foldl (fun best v => if f best < f v then v else best) best < n ∧
      vs.foldl (fun best v => if f best < f v then v else best) best =
        vs.foldl (fun best v => if g best < g v then v else best) best := by
  induction vs generalizing best with
  | nil => exact ⟨hbest, rfl⟩
  | cons v vs ih =>
    have hv : v < n := hvs v List.mem_cons_self
    have hvs' : ∀ v ∈ vs, v < n := fun v hv => hvs v (List.mem_cons_of_mem _ hv)
    rw [List.foldl_cons, List.foldl_cons, ← hsame v hv, ← hsame best hbest]
    split
    · exact ih hvs' hv
    · exact ih hvs' hbest

omit [Field K] in
theorem argmax_lt (hn : 0 < n) (f : ℕ → K) : argmax n f < n :=
  (argmax_fold (fun _ _ => rfl) (fun _ hv => List.mem_range.mp hv) hn).1

omit [Field K] in
theorem argmax_congr (hsame : ∀ v < n, f v = g v) : argmax n f = argmax n g := by
  cases n with
  | zero => rfl
  | succ n => exact (argmax_fold hsame (fun _ hv => List.mem_range.mp hv) n.succ_pos).2

end Argmax

/-! ## Causality -/

section Causality
variable {m : LlamaMath K} {c : LlamaConfig K} {N N' n b b' : ℕ}

/-- Two sequences have the same rows up to a position. -/
def SameUpto {α : Type} (n b b' : ℕ) (x x' : ℕ → ℕ → α) : Prop := ∀ i ≤ n, x b i = x' b' i

theorem keys_causal (hn : n < N) (hn' : n < N') : keys N true n = keys N' true n := by
  ext i
  simp only [keys, mem_filter, mem_range, forall_const]
  omega

omit [LinearOrder K] in
theorem SameUpto.linear {x x' : ℕ → ℕ → ℕ → K} (h : SameUpto n b b' x x') (k : ℕ) (w : ℕ → ℕ → K) :
    SameUpto n b b' (linear k x w) (linear k x' w) := by
  intro i hi
  funext j
  simp only [LlamaKernels.linear, h i hi]

theorem SameUpto.norm {x x' : ℕ → ℕ → ℕ → K} (h : SameUpto n b b' x x') (weight : ℕ → K) :
    SameUpto n b b' (referenceNorm m c x weight) (referenceNorm m c x' weight) := by
  intro i hi
  simp only [referenceNorm, h i hi]

/-- A row of the plain attention reads no row behind it. -/
theorem SameUpto.selfAttention (hn : n < N) (hn' : n < N') {x x' : ℕ → ℕ → ℕ → K}
    (h : SameUpto n b b' x x') (w : LayerWeights K) :
    SameUpto n b b' (referenceSelfAttention m c N true x w)
      (referenceSelfAttention m c N' true x' w) := by
  have hheads : ∀ (w : ℕ → ℕ → K) {i : ℕ}, i ≤ n → ∀ head,
      viewHeads c (LlamaKernels.linear c.hiddenSize x w) b head i =
        viewHeads c (LlamaKernels.linear c.hiddenSize x' w) b' head i := by
    intro w i hi head
    funext d
    exact congrFun (h.linear c.hiddenSize w i hi) _
  have hrope : ∀ (w : ℕ → ℕ → K) {i : ℕ}, i ≤ n → ∀ head,
      applyRope m c (viewHeads c (LlamaKernels.linear c.hiddenSize x w)) b head i =
        applyRope m c (viewHeads c (LlamaKernels.linear c.hiddenSize x' w)) b' head i := by
    intro w i hi head
    funext d
    simp only [applyRope, hheads w hi]
  refine SameUpto.linear (fun i hi => ?_) _ w.oProj
  have hkeys : keys N true i = keys N' true i := keys_causal (hi.trans_lt hn) (hi.trans_lt hn')
  have hkey : ∀ key ∈ keys N' true i, key ≤ n := fun key hkey =>
    ((mem_filter.mp hkey).2 rfl).trans hi
  funext col
  simp only [scaledDotProductAttention, softmax, repeatKv, hkeys, hrope w.qProj hi]
  have hdenom : ∀ head, ∑ key ∈ keys N' true i, m.exp (1 / m.sqrt c.headDim *
        ∑ d ∈ range c.headDim,
          applyRope m c (viewHeads c (LlamaKernels.linear c.hiddenSize x' w.qProj)) b' head i d *
          applyRope m c (viewHeads c (LlamaKernels.linear c.hiddenSize x w.kProj)) b
            (head / c.nRep) key d) =
      ∑ key ∈ keys N' true i, m.exp (1 / m.sqrt c.headDim * ∑ d ∈ range c.headDim,
          applyRope m c (viewHeads c (LlamaKernels.linear c.hiddenSize x' w.qProj)) b' head i d *
          applyRope m c (viewHeads c (LlamaKernels.linear c.hiddenSize x' w.kProj)) b'
            (head / c.nRep) key d) := fun head =>
    sum_congr rfl fun key hk => by rw [hrope w.kProj (hkey key hk)]
  rw [hdenom]
  exact sum_congr rfl fun key hk => by rw [hrope w.kProj (hkey key hk),
    hheads w.vProj (hkey key hk)]

theorem SameUpto.mlp {x x' : ℕ → ℕ → ℕ → K} (h : SameUpto n b b' x x') (w : LayerWeights K) :
    SameUpto n b b' (referenceMlp m c x w) (referenceMlp m c x' w) := by
  refine SameUpto.linear (fun i hi => ?_) _ w.downProj
  funext j
  rw [h.linear c.hiddenSize w.gateProj i hi, h.linear c.hiddenSize w.upProj i hi]

theorem SameUpto.layer (hn : n < N) (hn' : n < N') {x x' : ℕ → ℕ → ℕ → K}
    (h : SameUpto n b b' x x') (w : LayerWeights K) :
    SameUpto n b b' (referenceLayer m c N true x w) (referenceLayer m c N' true x' w) := by
  have hattended := (h.norm (m := m) (c := c) w.inputLayernormWeight).selfAttention
    (m := m) (c := c) hn hn' w
  have hadded : SameUpto n b b'
      (fun b n j => x b n j + referenceSelfAttention m c N true
        (referenceNorm m c x w.inputLayernormWeight) w b n j)
      (fun b n j => x' b n j + referenceSelfAttention m c N' true
        (referenceNorm m c x' w.inputLayernormWeight) w b n j) := by
    intro i hi
    funext j
    simp only [h i hi, hattended i hi]
  have hmlp := (hadded.norm (m := m) (c := c) w.postAttentionLayernormWeight).mlp (m := m)
    (c := c) w
  intro i hi
  funext j
  exact congrArg₂ (· + ·) (congrFun (hadded i hi) j) (congrFun (hmlp i hi) j)

/-- A row of the plain pass depends on its sequence up to it. -/
theorem referenceLlamaForward_causal (hn : n < N) (hn' : n < N') {ids ids' : ℕ → ℕ → ℕ}
    (h : SameUpto n b b' ids ids') (weights : LlamaWeights K) :
    referenceLlamaForward m c N true weights ids b n =
      referenceLlamaForward m c N' true weights ids' b' n := by
  have hlayers : ∀ (ws : List (LayerWeights K)) {x x' : ℕ → ℕ → ℕ → K}, SameUpto n b b' x x' →
      SameUpto n b b' (ws.foldl (referenceLayer m c N true) x)
        (ws.foldl (referenceLayer m c N' true) x') := by
    intro ws
    induction ws with
    | nil => exact fun hx => hx
    | cons w ws ih => exact fun hx => ih (hx.layer hn hn' w)
  have hembedded : SameUpto n b b' (fun b n => weights.embedTokens (ids b n))
      (fun b n => weights.embedTokens (ids' b n)) := fun i hi =>
    congrArg weights.embedTokens (h i hi)
  exact ((hlayers weights.layers hembedded).norm weights.normWeight).linear _
    weights.lmHead n le_rfl

end Causality

/-! ## The loops -/

section Run
variable {m : LlamaMath K} {c : LlamaConfig K} {B maxSeqLen : ℕ} {weights : LlamaWeights K}

/-- Every sequence of the buffer has been decoded for so many steps. -/
structure Decoded (m : LlamaMath K) (c : LlamaConfig K) (B maxSeqLen : ℕ) (weights : LlamaWeights K)
    (k : ℕ) (s : DecodeState) : Prop where
  curLen : s.curLen = k + 1
  inputIds : ∀ b < B, ∀ i < maxSeqLen, s.inputIds b i = (greedyIds m c weights k).getD i 0

theorem decoded_seeded (m : LlamaMath K) (c : LlamaConfig K) (B : ℕ) (weights : LlamaWeights K)
    (hpos : 0 < maxSeqLen) : ∃ inputIds,
    makeSeededBuffer maxSeqLen = some inputIds ∧
      Decoded m c B maxSeqLen weights 0 ⟨inputIds, 1⟩ := by
  refine ⟨_, if_pos hpos, rfl, fun b _ i _ => ?_⟩
  cases i with
  | zero => rfl
  | succ i => rfl

/-- The logits of the last real row, over the buffer and over the sequence alone. -/
theorem Decoded.logits [IsStrictOrderedRing K] {k : ℕ} {s : DecodeState}
    (h : Decoded m c B maxSeqLen weights k s) (t : LlamaTuning K) (hk : k < maxSeqLen) {b v : ℕ}
    (hb : b < B) (hv : v < c.vocabSize) :
    llamaForward m c t B maxSeqLen true weights s.inputIds b k v =
      referenceLlamaForward m c (k + 1) true weights
        (fun _ i => (greedyIds m c weights k).getD i 0) 0 k v := by
  have hkernels : llamaForward m c t B maxSeqLen true weights s.inputIds b k v =
      referenceLlamaForward m c maxSeqLen true weights s.inputIds b k v :=
    (hidden_agrees m c t B maxSeqLen true weights s.inputIds).matmul (t := t) weights.lmHead
      b hb k hk v hv
  have hsame : SameUpto k b 0 s.inputIds fun _ i => (greedyIds m c weights k).getD i 0 :=
    fun i hi => h.inputIds b hb i (hi.trans_lt hk)
  rw [hkernels, referenceLlamaForward_causal hk k.lt_succ_self hsame]

/-- A step writes what is decoded next, whatever runs the pass. -/
theorem Decoded.writeNext [IsStrictOrderedRing K] {k : ℕ} {s : DecodeState}
    (h : Decoded m c B maxSeqLen weights k s) (t : LlamaTuning K) (hk : k + 1 < maxSeqLen) :
    ∃ s',
      writeNext c.vocabSize maxSeqLen
        (llamaForward m c t B maxSeqLen true weights s.inputIds) s = some s' ∧
      Decoded m c B maxSeqLen weights (k + 1) s' := by
  have hcol : s.curLen < maxSeqLen := by
    rw [h.curLen]
    exact hk
  refine ⟨_, by simp only [LlamaKernels.writeNext, setColumn, if_pos hcol]; rfl,
    congrArg (· + 1) h.curLen, fun b hb i hi => ?_⟩
  have hnext : argmax c.vocabSize
      (llamaForward m c t B maxSeqLen true weights s.inputIds b (s.curLen - 1)) =
        greedyNext m c weights (greedyIds m c weights k) := by
    rw [greedyNext, length_greedyIds, h.curLen, Nat.add_sub_cancel]
    exact argmax_congr fun v hv => h.logits t (k.lt_succ_self.trans hk) hb hv
  have hlen := length_greedyIds m c weights k
  simp only [h.curLen, greedyIds] at hnext ⊢
  by_cases hik : i = k + 1
  · rw [if_pos hik, hnext, hik, List.getD_append_right _ _ _ _ hlen.le, hlen, Nat.sub_self]
    rfl
  · rw [if_neg hik, h.inputIds b hb i hi]
    rcases Nat.lt_or_ge i (k + 1) with hlt | hge
    · rw [List.getD_append _ _ _ _ (hlen ▸ hlt)]
    · have hgt : k + 1 < i := lt_of_le_of_ne hge (Ne.symm hik)
      rw [List.getD_eq_default _ _ (hlen ▸ hge), List.getD_eq_default]
      rw [List.length_append, hlen]
      exact hgt

/-- A loop whose steps decode decodes, as long as the buffer lasts. -/
theorem decoded_steps {σ : Type} {step : σ → Option σ} {D : ℕ → σ → Prop}
    (hstep : ∀ k s, D k s → k + 1 < maxSeqLen → ∃ s', step s = some s' ∧ D (k + 1) s')
    {n k : ℕ} {s : σ} (h : D k s) (hlt : k + n < maxSeqLen) :
    ∃ s', steps step n s = some s' ∧ D (k + n) s' := by
  induction n generalizing k s with
  | zero => exact ⟨s, rfl, h⟩
  | succ n ih =>
    obtain ⟨s', hs', h'⟩ := hstep k s h (by omega)
    obtain ⟨s'', hs'', h''⟩ := ih h' (by omega)
    refine ⟨s'', ?_, by rwa [Nat.add_right_comm] at h''⟩
    rw [steps, hs']
    exact hs''

/-- A loop that decodes fails where the buffer ends. -/
theorem exhausted_steps {σ : Type} {step : σ → Option σ} {D : ℕ → σ → Prop}
    (hstep : ∀ k s, D k s → k + 1 < maxSeqLen → ∃ s', step s = some s' ∧ D (k + 1) s')
    (hfull : ∀ k s, D k s → maxSeqLen ≤ k + 1 → step s = none)
    {n k : ℕ} {s : σ} (h : D k s) (hk : k < maxSeqLen) (hle : maxSeqLen ≤ k + n) :
    steps step n s = none := by
  induction n generalizing k s with
  | zero => omega
  | succ n ih =>
    rw [steps]
    by_cases hlt : k + 1 < maxSeqLen
    · obtain ⟨s', hs', h'⟩ := hstep k s h hlt
      rw [hs']
      exact ih h' hlt (by omega)
    · rw [hfull k s h (not_lt.mp hlt)]
      rfl

theorem steps_add {σ : Type} (step : σ → Option σ) (n k : ℕ) (s : σ) :
    steps step (n + k) s = (steps step n s).bind (steps step k) := by
  induction n generalizing s with
  | zero => rw [Nat.zero_add, steps, Option.bind_some]
  | succ n ih =>
    rw [Nat.succ_add, steps, steps]
    cases step s with
    | none => rfl
    | some s' => exact ih s'

theorem Decoded.full {k : ℕ} {s : DecodeState} (h : Decoded m c B maxSeqLen weights k s)
    (hk : maxSeqLen ≤ k + 1) (logits : ℕ → ℕ → ℕ → K) :
    LlamaKernels.writeNext c.vocabSize maxSeqLen logits s = none := by
  have hcol : ¬ s.curLen < maxSeqLen := by
    rw [h.curLen]
    exact not_lt.mpr hk
  simp only [LlamaKernels.writeNext, setColumn, if_neg hcol]
  rfl

theorem greedyIds_lt (hvocab : seedTokenId < c.vocabSize) (k : ℕ) :
    ∀ id ∈ greedyIds m c weights k, id < c.vocabSize := by
  induction k with
  | zero => simpa [greedyIds] using hvocab
  | succ k ih =>
    intro id hid
    rcases List.mem_append.mp hid with hid | hid
    · exact ih id hid
    · rw [List.mem_singleton.mp hid]
      exact argmax_lt (Nat.zero_lt_of_lt hvocab) _

end Run

/-- Both loops leave in every row of the buffer what the plain pass decodes from the seed alone,
one token of a sequence that grows after the other, and the filler behind it: whatever the tiles,
the other rows and what the capture found in memory. They fail where the steps outnumber the columns
behind the seed, and no sooner. -/
theorem decode_loops_eq_greedy [IsStrictOrderedRing K] (m : LlamaMath K) (c : LlamaConfig K)
    (hvocab : seedTokenId < c.vocabSize) (weights : LlamaWeights K) (t t' : LlamaTuning K)
    (memory : ℕ → ℕ → ℕ → K) (B maxSeqLen numSteps warmupSteps : ℕ) :
    (warmupSteps + numSteps < maxSeqLen → ∃ s s',
      runEager m c t B maxSeqLen weights numSteps warmupSteps = some s ∧
      runCudaGraph m c t' B maxSeqLen weights memory numSteps warmupSteps = some s' ∧
      ∀ b < B, ∀ i < maxSeqLen,
        s.inputIds b i = (greedyIds m c weights (warmupSteps + numSteps)).getD i 0 ∧
        s'.inputIds b i = s.inputIds b i ∧ s.inputIds b i < c.vocabSize) ∧
    (maxSeqLen ≤ warmupSteps + numSteps →
      runEager m c t B maxSeqLen weights numSteps warmupSteps = none ∧
      runCudaGraph m c t' B maxSeqLen weights memory numSteps warmupSteps = none) := by
  have heager : ∀ k s, Decoded m c B maxSeqLen weights k s → k + 1 < maxSeqLen →
      ∃ s', eagerStep m c t B maxSeqLen weights s = some s' ∧
        Decoded m c B maxSeqLen weights (k + 1) s' := fun k s h hk => h.writeNext t hk
  have hgraph : ∀ k (s : GraphState K), Decoded m c B maxSeqLen weights k s.toDecodeState →
      k + 1 < maxSeqLen → ∃ s', graphStep m c t' B maxSeqLen weights s = some s' ∧
        Decoded m c B maxSeqLen weights (k + 1) s'.toDecodeState := by
    intro k s h hk
    obtain ⟨decoded, hdecoded, h'⟩ := h.writeNext t' hk
    refine ⟨{ replay m c t' B maxSeqLen weights s with toDecodeState := decoded }, ?_, h'⟩
    simp only [graphStep, replay, hdecoded]
    rfl
  constructor
  · intro hlt
    obtain ⟨inputIds, hseeded, h⟩ := decoded_seeded m c B weights (Nat.zero_lt_of_lt hlt)
    have hlt' : 0 + (warmupSteps + numSteps) < maxSeqLen := by rwa [Nat.zero_add]
    obtain ⟨s, hs, hdecoded⟩ := decoded_steps heager h hlt'
    obtain ⟨s', hs', hdecoded'⟩ := decoded_steps hgraph
      (s := { inputIds, curLen := 1, staticLogits := memory }) h hlt'
    rw [Nat.zero_add] at hdecoded hdecoded'
    refine ⟨s, s', ?_, ?_, fun b hb i hi => ⟨hdecoded.inputIds b hb i hi, ?_, ?_⟩⟩
    · rw [runEager, hseeded]
      exact (steps_add _ _ _ _).symm.trans hs
    · rw [runCudaGraph, hseeded]
      exact (steps_add _ _ _ _).symm.trans hs'
    · rw [hdecoded.inputIds b hb i hi, hdecoded'.inputIds b hb i hi]
    · rw [hdecoded.inputIds b hb i hi, List.getD_eq_getElem?_getD]
      cases hid : (greedyIds m c weights (warmupSteps + numSteps))[i]? with
      | none => exact Nat.zero_lt_of_lt hvocab
      | some id => exact greedyIds_lt hvocab _ id (List.mem_of_getElem? hid)
  · intro hle
    rcases Nat.eq_zero_or_pos maxSeqLen with rfl | hpos
    · exact ⟨rfl, rfl⟩
    · obtain ⟨inputIds, hseeded, h⟩ := decoded_seeded m c B weights hpos
      have hle' : maxSeqLen ≤ 0 + (warmupSteps + numSteps) := by rwa [Nat.zero_add]
      have hs := exhausted_steps heager (fun k s h hk => h.full hk _) h hpos hle'
      have hs' := exhausted_steps hgraph (fun k s h hk => by
        simp only [graphStep,
          Decoded.full (s := (replay m c t' B maxSeqLen weights s).toDecodeState) h hk]
        rfl) (s := { inputIds, curLen := 1, staticLogits := memory }) h hpos hle'
      constructor
      · rw [runEager, hseeded]
        exact (steps_add _ _ _ _).symm.trans hs
      · rw [runCudaGraph, hseeded]
        exact (steps_add _ _ _ _).symm.trans hs'

/-- One layer of one head, two sequences, a warm-up step and two more in a buffer of four
columns. -/
theorem decode_loops_eq_greedy_two :
    let c : LlamaConfig ℝ :=
      { vocabSize := 3, hiddenSize := 2, intermediateSize := 3, nHeads := 1, headDim := 2
        numKvHeads := 1, ropeTheta := 500000, ropeScaling := none, rmsEps := 1 / 100000
        hiddenSize_eq := by decide, numKvHeads_pos := by decide, numKvHeads_dvd := by decide }
    let proj : ℕ → ℕ → ℝ := fun i j => i - j
    let weights : LlamaWeights ℝ :=
      ⟨proj, [⟨fun _ => 1, proj, proj, proj, proj, fun _ => 1, proj, proj, proj⟩], fun _ => 1, proj⟩
    let t : LlamaTuning ℝ :=
      { matmul := fun _ _ _ => ⟨2, 3, 3, 2, by decide, by decide, by decide, by decide⟩
        attention := fun _ _ => ⟨2, 3, by decide, by decide⟩
        empty := fun _ => 7, emptyHeads := fun _ => none, nan := 7 }
    let run := runEager LlamaMath.real c t 2 4 weights 2 1
    let run' := runCudaGraph LlamaMath.real c t 2 4 weights (fun _ _ _ => 7) 2 1
    (1 + 2 < 4 → ∃ s s', run = some s ∧ run' = some s' ∧ ∀ b < 2, ∀ i < 4,
      s.inputIds b i = (greedyIds LlamaMath.real c weights (1 + 2)).getD i 0 ∧
      s'.inputIds b i = s.inputIds b i ∧ s.inputIds b i < 3) ∧
    (4 ≤ 1 + 2 → run = none ∧ run' = none) :=
  decode_loops_eq_greedy LlamaMath.real _ (by decide) _ _ _ _ 2 4 2 1

end LlamaKernels

end LightServe
