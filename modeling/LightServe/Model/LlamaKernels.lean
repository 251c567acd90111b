import LightServe.Kernels.FlashAttention
import LightServe.Kernels.FusedRmsNorm
import LightServe.Kernels.TiledMatmul
import Mathlib.Analysis.SpecialFunctions.Pow.Real
import Mathlib.Analysis.SpecialFunctions.Trigonometric.Basic

/-!
# A Llama on kernels

`llama_forward` of `model/minimal_llama.py`, launch by launch, and the plain pass that it is checked
against, over exact numbers. The kernels work on rows of all sequences at once, and leave in memory
what they have stored; the plain pass works on sequences. The kernels' pass adds what a layer's MLP
put out to the residual only in the next norm.

## Main definitions

* `LlamaKernels.llamaForward` — the pass on kernels.
* `LlamaKernels.referenceLlamaForward` — the plain pass.
* `LlamaKernels.llamaForward_agrees` — they agree on every logit.
-/

namespace LightServe

open Finset OnlineSoftmax

/-- A `rope_scaling` of type `llama3`. -/
structure RopeScaling (K : Type) where
  factor : K
  lowFreqFactor : K
  highFreqFactor : K
  originalMaxPositionEmbeddings : K

/-- `LlamaConfig`, with what it asserts. -/
structure LlamaConfig (K : Type) where
  vocabSize : ℕ
  hiddenSize : ℕ
  intermediateSize : ℕ
  nHeads : ℕ
  headDim : ℕ
  numKvHeads : ℕ
  ropeTheta : K
  ropeScaling : Option (RopeScaling K)
  rmsEps : K
  hiddenSize_eq : hiddenSize = nHeads * headDim
  numKvHeads_pos : 0 < numKvHeads
  numKvHeads_dvd : numKvHeads ∣ nHeads

/-- Query heads to a key head. -/
def LlamaConfig.nRep {K : Type} (c : LlamaConfig K) : ℕ := c.nHeads / c.numKvHeads

structure LayerWeights (K : Type) where
  inputLayernormWeight : ℕ → K
  qProj : ℕ → ℕ → K
  kProj : ℕ → ℕ → K
  vProj : ℕ → ℕ → K
  oProj : ℕ → ℕ → K
  postAttentionLayernormWeight : ℕ → K
  gateProj : ℕ → ℕ → K
  upProj : ℕ → ℕ → K
  downProj : ℕ → ℕ → K

structure LlamaWeights (K : Type) where
  embedTokens : ℕ → ℕ → K
  layers : List (LayerWeights K)
  normWeight : ℕ → K
  lmHead : ℕ → ℕ → K

/-- The functions of numbers that both passes take from elsewhere. -/
structure LlamaMath (K : Type) [Field K] [LinearOrder K] where
  exp : K → K
  sqrt : K → K
  pow : K → K → K
  cos : K → K
  sin : K → K
  pi : K
  exp_pos : ∀ x, 0 < exp x
  exp_add : ∀ x y, exp (x + y) = exp x * exp y

/-- The real ones. -/
noncomputable def LlamaMath.real : LlamaMath ℝ where
  exp := Real.exp
  sqrt := Real.sqrt
  pow := Real.rpow
  cos := Real.cos
  sin := Real.sin
  pi := Real.pi
  exp_pos := Real.exp_pos
  exp_add := Real.exp_add

/-- The tiles of a matrix product. -/
structure MatmulTiles where
  blockM : ℕ
  blockN : ℕ
  blockK : ℕ
  groupM : ℕ
  blockM_pos : 0 < blockM
  blockN_pos : 0 < blockN
  blockK_pos : 0 < blockK
  groupM_pos : 0 < groupM

/-- The tiles of an attention launch. -/
structure AttentionTiles where
  blockM : ℕ
  blockN : ℕ
  blockM_pos : 0 < blockM
  blockN_pos : 0 < blockN

/-- What the tuner picks for a launch of some sizes, and what memory holds before one. -/
structure LlamaTuning (K : Type) where
  matmul : ℕ → ℕ → ℕ → MatmulTiles
  attention : ℕ → ℕ → AttentionTiles
  empty : ℕ × ℕ → K
  emptyHeads : ℕ × ℕ × ℕ × ℕ → Option K
  nan : K

namespace LlamaKernels
variable {K : Type} [Field K]

/-! ## What both passes compute on heads -/

/-- `_rotate_half`: the second half of a head, negated, before the first. -/
def rotateHalf (n : ℕ) (x : ℕ → K) (d : ℕ) : K :=
  if d < n / 2 then -x (d + (n + 1) / 2) else x (d - n / 2)

/-- `repeat_kv`, by batch, head, position and dimension. -/
def repeatKv (nRep : ℕ) (x : ℕ → ℕ → ℕ → ℕ → K) : ℕ → ℕ → ℕ → ℕ → K := fun b h n d =>
  x b (h / nRep) n d

variable [LinearOrder K] (m : LlamaMath K) (c : LlamaConfig K)

/-- `_llama3_rope_scaling` of one frequency. -/
def llama3RopeScaling (r : RopeScaling K) (invFreq : K) : K :=
  let oldContextLen := r.originalMaxPositionEmbeddings
  let lowFreqWavelen := oldContextLen / r.lowFreqFactor
  let highFreqWavelen := oldContextLen / r.highFreqFactor
  let wavelen := (2 : ℕ) * m.pi / invFreq
  let scaled := if lowFreqWavelen < wavelen then invFreq / r.factor else invFreq
  let smooth := (oldContextLen / wavelen - r.lowFreqFactor) / (r.highFreqFactor - r.lowFreqFactor)
  let smoothed := smooth * scaled / r.factor + (1 - smooth) * scaled
  if wavelen < highFreqWavelen then scaled
  else if lowFreqWavelen < wavelen then scaled
  else smoothed

/-- The angle of `precompute_rope` at a position and dimension. -/
def ropeFreq (n d : ℕ) : K :=
  let half := c.headDim / 2
  let invFreq := 1 / m.pow c.ropeTheta ((d % half : ℕ) / half)
  n * c.ropeScaling.elim invFreq fun r => llama3RopeScaling m r invFreq

/-- `apply_rope`, of one of its two tensors. -/
def applyRope (x : ℕ → ℕ → ℕ → ℕ → K) : ℕ → ℕ → ℕ → ℕ → K := fun b h n d =>
  x b h n d * m.cos (ropeFreq m c n d) +
    rotateHalf c.headDim (x b h n) d * m.sin (ropeFreq m c n d)

def silu (x : K) : K := x / (1 + m.exp (-x))

/-! ## The kernels -/

section Kernels
variable (t : LlamaTuning K)

/-- `matmul`: an `[M, k]` by a `[k, N]` matrix. -/
def matmul (M N k : ℕ) (a b : ℕ → ℕ → K) (i j : ℕ) : K :=
  let tiles := t.matmul M N k
  Launch.tensor ({ M, N, K := k, blockM := tiles.blockM, blockN := tiles.blockN
                   blockK := tiles.blockK, groupM := tiles.groupM, a, b } : TiledMatmul K).stores
    t.empty (i, j)

/-- `fused_add_rmsnorm`: the norm of the sum, and the sum. -/
def fusedAddRmsnorm (M : ℕ) (x residual : ℕ → ℕ → K) (weight : ℕ → K) :
    (ℕ → ℕ → K) × (ℕ → ℕ → K) :=
  let launch : FusedRmsNorm K := { M, N := c.hiddenSize, x, residual, weight, eps := c.rmsEps }
  (fun i j => Launch.tensor (launch.outStores m.sqrt) t.empty (i, j),
    fun i j => Launch.tensor launch.residualStores t.empty (i, j))

/-- `flash_attention_forward`, by batch, head, position and dimension. -/
def flashAttentionForward (B N : ℕ) (causal : Bool) (q k v : ℕ → ℕ → ℕ → ℕ → K) (b h n d : ℕ) : K :=
  let tiles := t.attention N c.headDim
  let launch : FlashAttention K :=
    { B, H := c.nHeads, N, D := c.headDim, scale := 1 / m.sqrt c.headDim, causal
      blockM := tiles.blockM, blockN := tiles.blockN
      blockD := max 16 (2 ^ Nat.clog 2 c.headDim), q, k, v }
  (Launch.tensor (launch.stores m.exp) t.emptyHeads (b, h, n, d)).getD t.nan

end Kernels

/-! ## The pass on kernels -/

section Pass
variable (t : LlamaTuning K) (B N : ℕ) (causal : Bool)

/-- `reshape(B, N, heads, head_dim).transpose(1, 2)` of the rows of all sequences. -/
def toHeads (x : ℕ → ℕ → K) : ℕ → ℕ → ℕ → ℕ → K := fun b h n d => x (b * N + n) (h * c.headDim + d)

/-- `transpose(1, 2).reshape(B * N, heads * head_dim)`. -/
def fromHeads (x : ℕ → ℕ → ℕ → ℕ → K) : ℕ → ℕ → K := fun row col =>
  x (row / N) (col / c.headDim) (row % N) (col % c.headDim)

/-- Attention, from the projections of the normed rows to that of its output. -/
def selfAttention (normed : ℕ → ℕ → K) (w : LayerWeights K) : ℕ → ℕ → K :=
  let rows := B * N
  let width := c.nHeads * c.headDim
  let kvWidth := c.numKvHeads * c.headDim
  let q := applyRope m c (toHeads c N (matmul t rows width c.hiddenSize normed w.qProj))
  let k := applyRope m c (toHeads c N (matmul t rows kvWidth c.hiddenSize normed w.kProj))
  let v := toHeads c N (matmul t rows kvWidth c.hiddenSize normed w.vProj)
  let attnOut := flashAttentionForward m c t B N causal q (repeatKv c.nRep k) (repeatKv c.nRep v)
  matmul t rows c.hiddenSize width (fromHeads c N attnOut) w.oProj

/-- The gated MLP. -/
def gatedMlp (normed : ℕ → ℕ → K) (w : LayerWeights K) : ℕ → ℕ → K :=
  let gate := matmul t (B * N) c.intermediateSize c.hiddenSize normed w.gateProj
  let up := matmul t (B * N) c.intermediateSize c.hiddenSize normed w.upProj
  let hidden := fun i j => silu m (gate i j) * up i j
  matmul t (B * N) c.hiddenSize c.intermediateSize hidden w.downProj

/-- A layer: what its MLP puts out, and the residual without it. -/
def layer (x residual : ℕ → ℕ → K) (w : LayerWeights K) : (ℕ → ℕ → K) × (ℕ → ℕ → K) :=
  let (normed, residual) := fusedAddRmsnorm m c t (B * N) x residual w.inputLayernormWeight
  let x := selfAttention m c t B N causal normed w
  let (normed, residual) := fusedAddRmsnorm m c t (B * N) x residual w.postAttentionLayernormWeight
  (gatedMlp m c t B N normed w, residual)

/-- `llama_forward` on `B` sequences of `N` tokens. -/
def llamaForward (weights : LlamaWeights K) (inputIds : ℕ → ℕ → ℕ) (b n v : ℕ) : K :=
  let residual := fun row j => weights.embedTokens (inputIds (row / N) (row % N)) j
  let (x, residual) := weights.layers.foldl
    (fun st w => layer m c t B N causal st.1 st.2 w) (fun _ _ => 0, residual)
  let (normed, _) := fusedAddRmsnorm m c t (B * N) x residual weights.normWeight
  matmul t (B * N) c.vocabSize c.hiddenSize normed weights.lmHead (b * N + n) v

end Pass

/-! ## The plain pass -/

section Reference
variable (N : ℕ) (causal : Bool)

/-- `F.linear` with a transposed weight. -/
def linear (k : ℕ) (x : ℕ → ℕ → ℕ → K) (w : ℕ → ℕ → K) : ℕ → ℕ → ℕ → K := fun b n j =>
  ∑ i ∈ range k, x b n i * w i j

/-- The keys of a query row. -/
def keys (n : ℕ) : Finset ℕ := {i ∈ range N | causal = true → i ≤ n}

/-- `F.scaled_dot_product_attention`. -/
def scaledDotProductAttention (q k v : ℕ → ℕ → ℕ → ℕ → K) : ℕ → ℕ → ℕ → ℕ → K := fun b h n d =>
  ∑ i ∈ keys N causal n, softmax m.exp (keys N causal n)
    (fun i => 1 / m.sqrt c.headDim * ∑ d ∈ range c.headDim, q b h n d * k b h i d) i * v b h i d

/-- `view(B, N, heads, head_dim).transpose(1, 2)`. -/
def viewHeads (x : ℕ → ℕ → ℕ → K) : ℕ → ℕ → ℕ → ℕ → K := fun b h n d => x b n (h * c.headDim + d)

/-- Attention in the plain pass. -/
def referenceSelfAttention (normed : ℕ → ℕ → ℕ → K) (w : LayerWeights K) : ℕ → ℕ → ℕ → K :=
  let q := applyRope m c (viewHeads c (linear c.hiddenSize normed w.qProj))
  let k := applyRope m c (viewHeads c (linear c.hiddenSize normed w.kProj))
  let v := viewHeads c (linear c.hiddenSize normed w.vProj)
  let attnOut := scaledDotProductAttention m c N causal q (repeatKv c.nRep k) (repeatKv c.nRep v)
  linear (c.nHeads * c.headDim) (fun b n col => attnOut b (col / c.headDim) n (col % c.headDim))
    w.oProj

/-- The gated MLP in the plain pass. -/
def referenceMlp (normed : ℕ → ℕ → ℕ → K) (w : LayerWeights K) : ℕ → ℕ → ℕ → K :=
  let gate := linear c.hiddenSize normed w.gateProj
  let up := linear c.hiddenSize normed w.upProj
  linear c.intermediateSize (fun b n j => silu m (gate b n j) * up b n j) w.downProj

/-- The norm of every row. -/
def referenceNorm (residual : ℕ → ℕ → ℕ → K) (weight : ℕ → K) : ℕ → ℕ → ℕ → K := fun b n =>
  rmsNorm m.sqrt c.rmsEps c.hiddenSize (residual b n) weight

/-- A layer of the plain pass, on its residual. -/
def referenceLayer (residual : ℕ → ℕ → ℕ → K) (w : LayerWeights K) : ℕ → ℕ → ℕ → K :=
  let x := referenceSelfAttention m c N causal (referenceNorm m c residual w.inputLayernormWeight) w
  let residual := fun b n j => residual b n j + x b n j
  let x := referenceMlp m c (referenceNorm m c residual w.postAttentionLayernormWeight) w
  fun b n j => residual b n j + x b n j

/-- `reference_llama_forward`. -/
def referenceLlamaForward (weights : LlamaWeights K) (inputIds : ℕ → ℕ → ℕ) : ℕ → ℕ → ℕ → K :=
  let embedded := fun b n => weights.embedTokens (inputIds b n)
  let residual := weights.layers.foldl (referenceLayer m c N causal) embedded
  linear c.hiddenSize (referenceNorm m c residual weights.normWeight) weights.lmHead

end Reference

/-! ## One launch -/

section Launches
variable {m c} {t : LlamaTuning K}

omit [LinearOrder K] in
theorem matmul_eq {M N k i j : ℕ} {a b : ℕ → ℕ → K} (hi : i < M) (hj : j < N) :
    matmul t M N k a b i j = ∑ l ∈ range k, a i l * b l j := by
  refine Launch.tensor_eq ?_ fun x hx => ?_
  · exact (TiledMatmul.mem_stores (t.matmul M N k).blockM_pos (t.matmul M N k).blockN_pos
      (t.matmul M N k).blockK_pos (t.matmul M N k).groupM_pos).mpr ⟨i, hi, j, hj, rfl⟩
  · obtain ⟨i', -, j', -, heq⟩ := (TiledMatmul.mem_stores (t.matmul M N k).blockM_pos
      (t.matmul M N k).blockN_pos (t.matmul M N k).blockK_pos (t.matmul M N k).groupM_pos).mp hx
    obtain ⟨hij, rfl⟩ := Prod.mk.inj heq
    obtain ⟨rfl, rfl⟩ := Prod.mk.inj hij
    rfl

theorem flashAttentionForward_eq [IsStrictOrderedRing K] {B N : ℕ} {causal : Bool}
    {q k v : ℕ → ℕ → ℕ → ℕ → K} {b h n d : ℕ} (hb : b < B) (hh : h < c.nHeads) (hn : n < N)
    (hd : d < c.headDim) : flashAttentionForward m c t B N causal q k v b h n d =
      scaledDotProductAttention m c N causal q k v b h n d := by
  have hD : c.headDim ≤ max 16 (2 ^ Nat.clog 2 c.headDim) :=
    (Nat.le_pow_clog Nat.one_lt_two _).trans (le_max_right _ _)
  rw [flashAttentionForward, Launch.tensor_eq
    ((FlashAttention.mem_stores_iff _ m.exp m.exp_pos m.exp_add (t.attention N c.headDim).blockM_pos
      (t.attention N c.headDim).blockN_pos hD).mpr ⟨hb, hh, hn, hd, rfl⟩)
    fun x hx => ((FlashAttention.mem_stores_iff _ m.exp m.exp_pos m.exp_add
      (t.attention N c.headDim).blockM_pos (t.attention N c.headDim).blockN_pos hD).mp hx).2.2.2.2]
  rfl

end Launches

/-! ## Agreement -/

/-- The rows of all sequences and the sequences hold the same, up to a width. -/
def Agrees (B N width : ℕ) (x : ℕ → ℕ → K) (y : ℕ → ℕ → ℕ → K) : Prop :=
  ∀ b < B, ∀ n < N, ∀ j < width, x (b * N + n) j = y b n j

/-- Two tensors of heads hold the same. -/
def AgreesHeads (B H N D : ℕ) (x y : ℕ → ℕ → ℕ → ℕ → K) : Prop :=
  ∀ b < B, ∀ h < H, ∀ n < N, ∀ d < D, x b h n d = y b h n d

section Agreement
variable {m c} {t : LlamaTuning K} {B N : ℕ} {causal : Bool}

private theorem row_lt {b n : ℕ} (hb : b < B) (hn : n < N) : b * N + n < B * N :=
  calc b * N + n < b * N + N := Nat.add_lt_add_left hn _
    _ = (b + 1) * N := (Nat.succ_mul b N).symm
    _ ≤ B * N := Nat.mul_le_mul_right _ hb

private theorem row_div {b n : ℕ} (hn : n < N) : (b * N + n) / N = b := by
  rw [Nat.add_comm, Nat.add_mul_div_right _ _ (Nat.zero_lt_of_lt hn), Nat.div_eq_of_lt hn,
    Nat.zero_add]

private theorem row_mod {b n : ℕ} (hn : n < N) : (b * N + n) % N = n := by
  rw [Nat.add_comm, Nat.add_mul_mod_self_right, Nat.mod_eq_of_lt hn]

omit [LinearOrder K] in
theorem Agrees.matmul {k width : ℕ} {x : ℕ → ℕ → K} {y : ℕ → ℕ → ℕ → K} (h : Agrees B N k x y)
    (w : ℕ → ℕ → K) : Agrees B N width (matmul t (B * N) width k x w) (linear k y w) := by
  intro b hb n hn j hj
  rw [matmul_eq (row_lt hb hn) hj]
  exact sum_congr rfl fun i hi => by rw [h b hb n hn i (mem_range.mp hi)]

omit [LinearOrder K] in
theorem rmsNorm_congr {sqrt : K → K} {eps : K} {n j : ℕ} {h h' weight : ℕ → K}
    (hsame : ∀ i < n, h i = h' i) (hj : j < n) :
    rmsNorm sqrt eps n h weight j = rmsNorm sqrt eps n h' weight j := by
  have hsum : ∑ i ∈ range n, h i * h i = ∑ i ∈ range n, h' i * h' i :=
    sum_congr rfl fun i hi => by rw [hsame i (mem_range.mp hi)]
  rw [rmsNorm, rmsNorm, hsame j hj, hsum]

/-- The norm of a sum, and the sum. -/
theorem Agrees.fusedAddRmsnorm {x residual : ℕ → ℕ → K} {y : ℕ → ℕ → ℕ → K}
    (h : Agrees B N c.hiddenSize (fun i j => x i j + residual i j) y) (weight : ℕ → K) :
    Agrees B N c.hiddenSize (fusedAddRmsnorm m c t (B * N) x residual weight).1
        (referenceNorm m c y weight) ∧
      Agrees B N c.hiddenSize (fusedAddRmsnorm m c t (B * N) x residual weight).2 y := by
  constructor
  · intro b hb n hn j hj
    refine (FusedRmsNorm.out_tensor (l := ⟨B * N, c.hiddenSize, x, residual, weight, c.rmsEps⟩)
      (row_lt hb hn) hj).trans ?_
    exact rmsNorm_congr (h b hb n hn) hj
  · intro b hb n hn j hj
    exact (FusedRmsNorm.residual_tensor (l := ⟨B * N, c.hiddenSize, x, residual, weight, c.rmsEps⟩)
      (row_lt hb hn) hj).trans (h b hb n hn j hj)

omit [Field K] [LinearOrder K] in
theorem Agrees.toHeads {H : ℕ} {x : ℕ → ℕ → K} {y : ℕ → ℕ → ℕ → K}
    (h : Agrees B N (H * c.headDim) x y) :
    AgreesHeads B H N c.headDim (toHeads c N x) (viewHeads c y) := by
  intro b hb i hi n hn d hd
  exact h b hb n hn _ (row_lt hi hd)

omit [LinearOrder K] in
theorem rotateHalf_congr {D d : ℕ} {x y : ℕ → K} (h : ∀ i < D, x i = y i) (hd : d < D) :
    rotateHalf D x d = rotateHalf D y d := by
  unfold rotateHalf
  split
  · rw [h _ (by omega)]
  · rw [h _ (by omega)]

theorem AgreesHeads.applyRope {H : ℕ} {x y : ℕ → ℕ → ℕ → ℕ → K}
    (h : AgreesHeads B H N c.headDim x y) :
    AgreesHeads B H N c.headDim (applyRope m c x) (applyRope m c y) := by
  intro b hb i hi n hn d hd
  show x b i n d * _ + _ = y b i n d * _ + _
  rw [h b hb i hi n hn d hd, rotateHalf_congr (h b hb i hi n hn) hd]

omit [Field K] [LinearOrder K] in
theorem AgreesHeads.repeatKv {D : ℕ} {x y : ℕ → ℕ → ℕ → ℕ → K}
    (h : AgreesHeads B c.numKvHeads N D x y) :
    AgreesHeads B c.nHeads N D (repeatKv c.nRep x) (repeatKv c.nRep y) := by
  intro b hb i hi n hn d hd
  refine h b hb _ (Nat.div_lt_of_lt_mul ?_) n hn d hd
  rwa [LlamaConfig.nRep, Nat.div_mul_cancel c.numKvHeads_dvd]

theorem AgreesHeads.attention [IsStrictOrderedRing K] {q k v q' k' v' : ℕ → ℕ → ℕ → ℕ → K}
    (hq : AgreesHeads B c.nHeads N c.headDim q q') (hk : AgreesHeads B c.nHeads N c.headDim k k')
    (hv : AgreesHeads B c.nHeads N c.headDim v v') : AgreesHeads B c.nHeads N c.headDim
      (flashAttentionForward m c t B N causal q k v)
      (scaledDotProductAttention m c N causal q' k' v') := by
  intro b hb h hh n hn d hd
  have hlt : ∀ i ∈ keys N causal n, i < N := fun i hi => mem_range.mp (mem_filter.mp hi).1
  have hscore : ∀ i ∈ keys N causal n, ∑ d ∈ range c.headDim, q b h n d * k b h i d =
      ∑ d ∈ range c.headDim, q' b h n d * k' b h i d := fun i hi =>
    sum_congr rfl fun d hd => by
      rw [hq b hb h hh n hn d (mem_range.mp hd), hk b hb h hh i (hlt i hi) d (mem_range.mp hd)]
  have hdenom : ∑ i ∈ keys N causal n,
        m.exp (1 / m.sqrt c.headDim * ∑ d ∈ range c.headDim, q b h n d * k b h i d) =
      ∑ i ∈ keys N causal n,
        m.exp (1 / m.sqrt c.headDim * ∑ d ∈ range c.headDim, q' b h n d * k' b h i d) :=
    sum_congr rfl fun i hi => by rw [hscore i hi]
  rw [flashAttentionForward_eq hb hh hn hd]
  refine sum_congr rfl fun i hi => ?_
  rw [softmax, softmax, hdenom, hscore i hi, hv b hb h hh i (hlt i hi) d hd]

omit [Field K] [LinearOrder K] in
theorem AgreesHeads.fromHeads {H : ℕ} {x y : ℕ → ℕ → ℕ → ℕ → K}
    (h : AgreesHeads B H N c.headDim x y) :
    Agrees B N (H * c.headDim) (fromHeads c N x)
      (fun b n col => y b (col / c.headDim) n (col % c.headDim)) := by
  intro b hb n hn col hcol
  have hD : 0 < c.headDim := Nat.pos_of_ne_zero fun h0 => by simp [h0] at hcol
  show x _ _ _ _ = _
  rw [row_div hn, row_mod hn]
  exact h b hb _ (Nat.div_lt_of_lt_mul (by rwa [Nat.mul_comm])) n hn _ (Nat.mod_lt _ hD)

theorem Agrees.selfAttention [IsStrictOrderedRing K] {x : ℕ → ℕ → K} {y : ℕ → ℕ → ℕ → K}
    (h : Agrees B N c.hiddenSize x y) (causal : Bool) (w : LayerWeights K) :
    Agrees B N c.hiddenSize (selfAttention m c t B N causal x w)
      (referenceSelfAttention m c N causal y w) := by
  have hq : AgreesHeads B c.nHeads N c.headDim _ _ := (h.matmul (t := t) w.qProj).toHeads
  have hk : AgreesHeads B c.numKvHeads N c.headDim _ _ := (h.matmul (t := t) w.kProj).toHeads
  have hv : AgreesHeads B c.numKvHeads N c.headDim _ _ := (h.matmul (t := t) w.vProj).toHeads
  exact (hq.applyRope.attention hk.applyRope.repeatKv hv.repeatKv).fromHeads.matmul w.oProj

theorem Agrees.gatedMlp {x : ℕ → ℕ → K} {y : ℕ → ℕ → ℕ → K} (h : Agrees B N c.hiddenSize x y)
    (w : LayerWeights K) :
    Agrees B N c.hiddenSize (gatedMlp m c t B N x w) (referenceMlp m c y w) := by
  have hgate : Agrees B N c.intermediateSize _ _ := h.matmul (t := t) w.gateProj
  have hup : Agrees B N c.intermediateSize _ _ := h.matmul (t := t) w.upProj
  refine Agrees.matmul (fun b hb n hn j hj => ?_) w.downProj
  rw [hgate b hb n hn j hj, hup b hb n hn j hj]

/-- A layer whose input and residual add up to the plain pass's residual leaves such a pair. -/
theorem Agrees.layer [IsStrictOrderedRing K] {x residual : ℕ → ℕ → K} {y : ℕ → ℕ → ℕ → K}
    (h : Agrees B N c.hiddenSize (fun i j => x i j + residual i j) y) (causal : Bool)
    (w : LayerWeights K) :
    Agrees B N c.hiddenSize
      (fun i j => (layer m c t B N causal x residual w).1 i j +
        (layer m c t B N causal x residual w).2 i j)
      (referenceLayer m c N causal y w) := by
  obtain ⟨hnormed, hresidual⟩ := h.fusedAddRmsnorm (m := m) (t := t) w.inputLayernormWeight
  have hattended := hnormed.selfAttention (m := m) (t := t) causal w
  have hadded : Agrees B N c.hiddenSize
      (fun i j => LlamaKernels.selfAttention m c t B N causal
          (LlamaKernels.fusedAddRmsnorm m c t (B * N) x residual w.inputLayernormWeight).1 w i j +
        (LlamaKernels.fusedAddRmsnorm m c t (B * N) x residual w.inputLayernormWeight).2 i j)
      (fun b n j => y b n j + referenceSelfAttention m c N causal
        (referenceNorm m c y w.inputLayernormWeight) w b n j) := by
    intro b hb n hn j hj
    exact (congrArg₂ (· + ·) (hattended b hb n hn j hj) (hresidual b hb n hn j hj)).trans
      (add_comm _ _)
  obtain ⟨hnormed', hresidual'⟩ :=
    hadded.fusedAddRmsnorm (m := m) (t := t) w.postAttentionLayernormWeight
  intro b hb n hn j hj
  exact (congrArg₂ (· + ·) (hnormed'.gatedMlp (m := m) (t := t) w b hb n hn j hj)
    (hresidual' b hb n hn j hj)).trans (add_comm _ _)

/-- So do all the layers. -/
theorem Agrees.layers [IsStrictOrderedRing K] {x residual : ℕ → ℕ → K} {y : ℕ → ℕ → ℕ → K}
    (h : Agrees B N c.hiddenSize (fun i j => x i j + residual i j) y) (causal : Bool)
    (ws : List (LayerWeights K)) :
    Agrees B N c.hiddenSize
      (fun i j =>
        (ws.foldl (fun st w => LlamaKernels.layer m c t B N causal st.1 st.2 w)
          (x, residual)).1 i j +
        (ws.foldl (fun st w => LlamaKernels.layer m c t B N causal st.1 st.2 w)
          (x, residual)).2 i j)
      (ws.foldl (referenceLayer m c N causal) y) := by
  induction ws generalizing x residual y with
  | nil => exact h
  | cons w ws ih => exact ih (h.layer causal w)

end Agreement

/-- The rows that `lm_head` reads. -/
theorem hidden_agrees [IsStrictOrderedRing K] (t : LlamaTuning K) (B N : ℕ) (causal : Bool)
    (weights : LlamaWeights K) (inputIds : ℕ → ℕ → ℕ) :
    let st := weights.layers.foldl (fun st w => layer m c t B N causal st.1 st.2 w)
      (fun _ _ => 0, fun row j => weights.embedTokens (inputIds (row / N) (row % N)) j)
    Agrees B N c.hiddenSize (fusedAddRmsnorm m c t (B * N) st.1 st.2 weights.normWeight).1
      (referenceNorm m c (weights.layers.foldl (referenceLayer m c N causal)
        fun b n => weights.embedTokens (inputIds b n)) weights.normWeight) := by
  have hembedded : Agrees B N c.hiddenSize
      (fun row j => 0 + weights.embedTokens (inputIds (row / N) (row % N)) j)
      (fun b n => weights.embedTokens (inputIds b n)) := by
    intro b hb n hn j hj
    show 0 + weights.embedTokens (inputIds ((b * N + n) / N) ((b * N + n) % N)) j = _
    rw [row_div hn, row_mod hn, zero_add]
  exact ((hembedded.layers (m := m) (t := t) causal weights.layers).fusedAddRmsnorm
    (m := m) (t := t) weights.normWeight).1

/-- The pass on kernels computes every logit of the plain pass, whatever the tiles and whatever
memory held before. -/
theorem llamaForward_agrees [IsStrictOrderedRing K] (t : LlamaTuning K) (B N : ℕ) (causal : Bool)
    (weights : LlamaWeights K) (inputIds : ℕ → ℕ → ℕ) {b n v : ℕ} (hb : b < B) (hn : n < N)
    (hv : v < c.vocabSize) : llamaForward m c t B N causal weights inputIds b n v =
      referenceLlamaForward m c N causal weights inputIds b n v :=
  (hidden_agrees m c t B N causal weights inputIds).matmul (t := t) weights.lmHead b hb n hn v hv

/-- One layer, two query heads on one key head, and tiles that fit nothing. -/
theorem llamaForward_agrees_grouped :
    let c : LlamaConfig ℝ :=
      { vocabSize := 3, hiddenSize := 4, intermediateSize := 5, nHeads := 2, headDim := 2
        numKvHeads := 1, ropeTheta := 500000, ropeScaling := none, rmsEps := 1 / 100000
        hiddenSize_eq := by decide, numKvHeads_pos := by decide, numKvHeads_dvd := by decide }
    let proj : ℕ → ℕ → ℝ := fun i j => i - j
    let w : LayerWeights ℝ := ⟨fun _ => 1, proj, proj, proj, proj, fun _ => 1, proj, proj, proj⟩
    let t : LlamaTuning ℝ :=
      { matmul := fun _ _ _ => ⟨2, 3, 3, 2, by decide, by decide, by decide, by decide⟩
        attention := fun _ _ => ⟨2, 3, by decide, by decide⟩
        empty := fun _ => 7, emptyHeads := fun _ => none, nan := 7 }
    llamaForward LlamaMath.real c t 2 3 true ⟨proj, [w], fun _ => 1, proj⟩ (fun b n => (b + n) % 3)
        1 2 2 =
      referenceLlamaForward LlamaMath.real c 3 true ⟨proj, [w], fun _ => 1, proj⟩
        (fun b n => (b + n) % 3) 1 2 2 :=
  llamaForward_agrees _ _ _ 2 3 true _ _ (by decide) (by decide) (by decide)

end LlamaKernels

end LightServe
