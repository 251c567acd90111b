import LightServe.Kernels.FlashAttention
import LightServe.Lib.Tiles
import Mathlib.Analysis.SpecialFunctions.Log.Basic

/-!
# The backward attention kernels

The kernels of `kernels/flash_attention_backward.py` over exact numbers. The forward kernel is the
key loop of the attention kernel, and stores the log-sum-exp of every query row besides. The
preprocess kernel sums the products of a row of outputs with its gradients. A program of the
backward kernel owns a tile of keys and sweeps the queries tile by tile: it recomputes the weights
from the log-sum-exp, accumulates the gradients of its keys and values, and adds to those of the
queries in a buffer that all programs share.

## Main definitions

* `FlashAttention.lseStores` — what the forward kernel stores besides its output.
* `FlashAttentionBackward.deltaStores` — what the preprocess kernel stores.
* `FlashAttentionBackward.dkStores`, `dvStores`, `dqAdds` — what the backward kernel stores and
  adds.
* `FlashAttentionBackward.Gradients` — the dense formulas, and how the kernels meet them.
* `FlashAttentionBackward.gradients` — they do, in whatever order the additions are made.
-/

namespace LightServe

open Finset OnlineSoftmax

/-- What a launch with one program for each tile of `block` rows and each head writes, row by
row. -/
def FlashAttention.launch {K β : Type} (a : FlashAttention K) (block : ℕ)
    (write : ℕ → ℕ → ℕ → ℕ → List β) : List β :=
  (List.range (Tiles.cdiv a.N block)).flatMap fun pid =>
    (List.range (a.B * a.H)).flatMap fun pidBh =>
      (List.range block).flatMap fun r => write pid (pidBh / a.H) (pidBh % a.H) (pid * block + r)

namespace FlashAttention
variable {K : Type} {a : FlashAttention K}

/-- The heads of a launch are all heads of all batches. -/
theorem exists_pidBh {b h : ℕ} : (∃ pidBh < a.B * a.H, pidBh / a.H = b ∧ pidBh % a.H = h) ↔
    b < a.B ∧ h < a.H := by
  constructor
  · rintro ⟨pidBh, hpid, rfl, rfl⟩
    have hH : 0 < a.H := Nat.pos_of_ne_zero fun h0 => by simp [h0] at hpid
    exact ⟨Nat.div_lt_of_lt_mul (by rwa [Nat.mul_comm]), Nat.mod_lt _ hH⟩
  · rintro ⟨hb, hh⟩
    refine ⟨b * a.H + h, ?_, ?_, ?_⟩
    · calc b * a.H + h < b * a.H + a.H := Nat.add_lt_add_left hh _
        _ = (b + 1) * a.H := (Nat.succ_mul b a.H).symm
        _ ≤ a.B * a.H := Nat.mul_le_mul_right _ hb
    · rw [Nat.add_comm, Nat.add_mul_div_right _ _ (Nat.zero_lt_of_lt hh), Nat.div_eq_of_lt hh,
        Nat.zero_add]
    · rw [Nat.add_comm, Nat.add_mul_mod_self_right, Nat.mod_eq_of_lt hh]

/-- What is written for a row within the tensor is what its program writes. -/
theorem mem_launch {β : Type} {block : ℕ} (hblock : 0 < block) {write : ℕ → ℕ → ℕ → ℕ → List β}
    (hN : ∀ pid b h m, a.N ≤ m → write pid b h m = []) {y : β} :
    y ∈ a.launch block write ↔ ∃ b < a.B, ∃ h < a.H, ∃ m < a.N, y ∈ write (m / block) b h m := by
  simp only [launch, List.mem_flatMap, List.mem_range]
  constructor
  · rintro ⟨pid, hpid, pidBh, hbh, r, hr, hy⟩
    obtain ⟨hb, hh⟩ := exists_pidBh.mp ⟨pidBh, hbh, rfl, rfl⟩
    have hm : pid * block + r < a.N := not_le.mp fun hle => by
      rw [hN _ _ _ _ hle] at hy
      cases hy
    have hdiv : (pid * block + r) / block = pid := by
      rw [Nat.add_comm, Nat.add_mul_div_right _ _ hblock, Nat.div_eq_of_lt hr, Nat.zero_add]
    exact ⟨_, hb, _, hh, _, hm, by rwa [hdiv]⟩
  · rintro ⟨b, hb, h, hh, m, hm, hy⟩
    obtain ⟨pidBh, hbh, rfl, rfl⟩ := exists_pidBh.mpr ⟨hb, hh⟩
    refine ⟨m / block, Tiles.div_lt_cdiv hblock hm, pidBh, hbh, m % block, Nat.mod_lt _ hblock, ?_⟩
    rwa [Nat.div_add_mod']

/-- A query row has its own key. -/
theorem self_mem_keys {m : ℕ} (hm : m < a.N) : m ∈ a.keys m :=
  mem_filter.mpr ⟨mem_range.mpr hm, fun _ => le_rfl⟩

section Forward
variable [Field K]

/-- The scaled score of a key for a query row. -/
def logit (a : FlashAttention K) (b h m n : ℕ) : K :=
  a.scale * ∑ d ∈ range a.D, a.q b h m d * a.k b h n d

/-- The softmax weight of a key for a query row. -/
def prob (a : FlashAttention K) (exp : K → K) (b h m n : ℕ) : K :=
  if n ∈ a.keys m then softmax exp (a.keys m) (a.logit b h m) n else 0

variable [LinearOrder K] (exp log : K → K)

/-- `m_i + log(l_i)` of a query row. -/
def rowLse (a : FlashAttention K) (pidM b h m : ℕ) : Option K := do
  let st ← a.rowLoop exp pidM b h m
  st.max.recBotCoe none fun x => if 0 < st.denom then some (x + log st.denom) else none

/-- What the forward kernel stores besides its output. -/
def lseStores (a : FlashAttention K) : List ((ℕ × ℕ × ℕ) × Option K) :=
  a.launch a.blockM fun pidM b h m =>
    if m < a.N then [((b, h, m), a.rowLse exp log pidM b h m)] else []

variable {exp log} {b h m : ℕ}

/-- A program stores the logarithm of the sum of the exponentials of the scores of a row. -/
theorem rowLse_eq [IsStrictOrderedRing K] (hpos : ∀ x, 0 < exp x)
    (hadd : ∀ x y, exp (x + y) = exp x * exp y) (hlog : ∀ x, 0 < x → exp (log x) = x)
    (hN : 0 < a.blockN) (hD : a.D ≤ a.blockD) {pidM : ℕ} (hm : m < a.N)
    (hm' : m < (pidM + 1) * a.blockM) : ∃ x, a.rowLse exp log pidM b h m = some x ∧
      exp x = ∑ n ∈ a.keys m, exp (a.logit b h m n) := by
  obtain ⟨st, hrun, hst⟩ := rowLoop_summarises (b := b) (h := h) hadd hN hm (hi_pos hm hm')
  obtain ⟨hdenom, x, hmax, hlse⟩ := hst.logSumExp hadd hpos hlog (keys_subset hN hm')
    ⟨m, self_mem_keys hm⟩ (fun n hn => score_eq hD hm hn) (fun n _ hn => score_eq_bot hn)
  refine ⟨x + log st.denom, ?_, hlse⟩
  rw [rowLse, hrun]
  show (st.max.recBotCoe none fun x => if 0 < st.denom then some (x + log st.denom) else none :
    Option K) = _
  rw [hmax, WithBot.recBotCoe_coe, if_pos hdenom]

/-- The forward kernel stores the log-sum-exp of every query row, and nothing else. -/
theorem mem_lseStores [IsStrictOrderedRing K] (hM : 0 < a.blockM) {y : (ℕ × ℕ × ℕ) × Option K} :
    y ∈ a.lseStores exp log ↔ ∃ b < a.B, ∃ h < a.H, ∃ m < a.N,
      y = ((b, h, m), a.rowLse exp log (m / a.blockM) b h m) := by
  rw [lseStores, mem_launch hM fun pid b h m hm => if_neg (not_lt.mpr hm)]
  refine exists_congr fun b => and_congr_right fun _ => exists_congr fun h => and_congr_right
    fun _ => exists_congr fun m => and_congr_right fun hm => ?_
  rw [if_pos hm, List.mem_singleton]

end Forward

end FlashAttention

/-! ## The kernels -/

/-- The memory that the backward kernels read: the tensors of the forward launch, its output and
log-sum-exps, the gradient of the output, and what the preprocess kernel stored. -/
structure FlashAttentionBackward (K : Type) extends FlashAttention K where
  o : ℕ → ℕ → ℕ → ℕ → K
  dO : ℕ → ℕ → ℕ → ℕ → K
  l : ℕ → ℕ → ℕ → K
  delta : ℕ → ℕ → ℕ → K

namespace FlashAttentionBackward
variable {K : Type}

section Masks
variable (a : FlashAttentionBackward K)

/-- Where the query sweep of a program starts. -/
def lo (pidN : ℕ) : ℕ := if a.causal then pidN * a.blockN / a.blockM * a.blockM else 0

/-- The sweep of a program over the tiles of queries. -/
def sweep (pidN : ℕ) : List ℕ := Tiles.sweep (a.lo pidN) a.N a.blockM

/-- The rows of a tile of queries. -/
def offsM (startM : ℕ) : Finset ℕ := Ico startM (startM + a.blockM)

/-- Whether a score is masked in. -/
def scoreMask (m n : ℕ) : Prop := (m < a.N ∧ n < a.N) ∧ (a.causal = true → n ≤ m)

instance (m n : ℕ) : Decidable (a.scoreMask m n) := inferInstanceAs (Decidable (_ ∧ _))

variable {a} {m n pidN : ℕ}

/-- An index is in the tile of its quotient. -/
theorem mem_offsN (hN : 0 < a.blockN) : n ∈ a.offsN (n / a.blockN * a.blockN) :=
  mem_Ico.mpr ⟨Nat.div_mul_le_self n a.blockN, Nat.lt_div_mul_add hN⟩

theorem scoreMask_iff (hm : m < a.N) : a.scoreMask m n ↔ n ∈ a.keys m := by
  rw [scoreMask, FlashAttention.keys, mem_filter, mem_range]
  exact and_congr_left fun _ => and_iff_right hm

/-- The sweep of a tile of keys skips only rows above its diagonal. -/
theorem not_scoreMask_of_lt_lo (hm : m < a.lo pidN) (hn : n ∈ a.offsN (pidN * a.blockN)) :
    ¬ a.scoreMask m n := by
  intro hc
  have hle := (mem_Ico.mp hn).1
  unfold lo at hm
  split at hm
  · rename_i hcausal
    have hfloor := Nat.div_mul_le_self (pidN * a.blockN) a.blockM
    exact absurd (hc.2 hcausal) (by omega)
  · exact absurd hm (Nat.not_lt_zero m)

end Masks

/-- What a launch stores for the keys, from what its programs have accumulated. -/
def kvStores (a : FlashAttentionBackward K) (acc : ℕ → ℕ → ℕ → ℕ → ℕ → K) :
    List ((ℕ × ℕ × ℕ × ℕ) × K) :=
  a.launch a.blockN fun pidN b h n =>
    ((List.range a.blockD).filter fun d => n < a.N ∧ d < a.D).map fun d =>
      ((b, h, n, d), acc b h pidN n d)

/-- A launch stores for every key within the tensors what the program of its tile has. -/
theorem mem_kvStores {a : FlashAttentionBackward K} (hN : 0 < a.blockN) (hD : a.D ≤ a.blockD)
    {acc : ℕ → ℕ → ℕ → ℕ → ℕ → K}
    {y : (ℕ × ℕ × ℕ × ℕ) × K} : y ∈ a.kvStores acc ↔ ∃ b < a.B, ∃ h < a.H, ∃ n < a.N, ∃ d < a.D,
      y = ((b, h, n, d), acc b h (n / a.blockN) n d) := by
  rw [kvStores, FlashAttention.mem_launch hN]
  · refine exists_congr fun b => and_congr_right fun _ => exists_congr fun h => and_congr_right
      fun _ => exists_congr fun n => and_congr_right fun hn => ?_
    simp only [List.mem_map, List.mem_filter, List.mem_range, decide_eq_true_eq]
    constructor
    · rintro ⟨d, ⟨-, -, hd⟩, rfl⟩
      exact ⟨d, hd, rfl⟩
    · rintro ⟨d, hd, rfl⟩
      exact ⟨d, ⟨hd.trans_le hD, hn, hd⟩, rfl⟩
  · intro pid b h n hn
    rw [List.filter_eq_nil_iff.mpr fun d _ => by simp [hn.not_gt], List.map_nil]

variable [Field K]

/-- A masked load of one entry of a row. -/
def loadRow (a : FlashAttentionBackward K) (x : ℕ → K) (m : ℕ) : K := if m < a.N then x m else 0

/-- What the preprocess kernel stores. -/
def deltaStores (a : FlashAttentionBackward K) : List ((ℕ × ℕ × ℕ) × K) :=
  a.launch a.blockM fun _ b h m =>
    if m < a.N then
      [((b, h, m), ∑ d ∈ range a.blockD, a.load (a.o b h) m d * a.load (a.dO b h) m d)]
    else []

section Program
variable (a : FlashAttentionBackward K) (exp : K → K) (b h : ℕ)

/-- The recomputed score. -/
def s (m n : ℕ) : K :=
  (∑ d ∈ range a.blockD, a.load (a.q b h) m d * a.load (a.k b h) n d) * a.scale

/-- The recomputed weight; what is masked does not go through the exponential. -/
def p (m n : ℕ) : K := if a.scoreMask m n then exp (a.s b h m n - a.loadRow (a.l b h) m) else 0

def dp (m n : ℕ) : K := ∑ d ∈ range a.blockD, a.load (a.dO b h) m d * a.load (a.v b h) n d

def ds (m n : ℕ) : K := a.p exp b h m n * (a.dp b h m n - a.loadRow (a.delta b h) m)

/-- The gradient of a value that a program has accumulated at its end. -/
def dvAcc (pidN n d : ℕ) : K :=
  (a.sweep pidN).foldl
    (fun acc startM => acc + ∑ m ∈ a.offsM startM, a.p exp b h m n * a.load (a.dO b h) m d) 0

/-- The gradient of a key that a program has accumulated at its end. -/
def dkAcc (pidN n d : ℕ) : K :=
  (a.sweep pidN).foldl
    (fun acc startM =>
      acc + (∑ m ∈ a.offsM startM, a.ds exp b h m n * a.load (a.q b h) m d) * a.scale) 0

/-- What a program adds to the gradient of a query. -/
def dqPartial (pidN m d : ℕ) : K :=
  (∑ n ∈ a.offsN (pidN * a.blockN), a.ds exp b h m n * a.load (a.k b h) n d) * a.scale

/-- The atomic additions of a program to a row of queries. -/
def rowAdds (pidN m : ℕ) : List ((ℕ × ℕ × ℕ × ℕ) × K) :=
  ((List.range a.blockD).filter fun d => m < a.N ∧ d < a.D).map fun d =>
    ((b, h, m, d), a.dqPartial exp b h pidN m d)

/-- The atomic additions of a program. -/
def programAdds (pidN : ℕ) : List ((ℕ × ℕ × ℕ × ℕ) × K) :=
  (a.sweep pidN).flatMap fun startM => (List.range a.blockM).flatMap fun r =>
    a.rowAdds exp b h pidN (startM + r)

end Program

section Launch
variable (a : FlashAttentionBackward K) (exp : K → K)

def dkStores : List ((ℕ × ℕ × ℕ × ℕ) × K) := a.kvStores (a.dkAcc exp)

def dvStores : List ((ℕ × ℕ × ℕ × ℕ) × K) := a.kvStores (a.dvAcc exp)

/-- The atomic additions of a launch, program by program. -/
def dqAdds : List ((ℕ × ℕ × ℕ × ℕ) × K) :=
  (List.range (Tiles.cdiv a.N a.blockN)).flatMap fun pidN =>
    (List.range (a.B * a.H)).flatMap fun pidBh => a.programAdds exp (pidBh / a.H) (pidBh % a.H) pidN

end Launch

/-- A buffer of zeros after some atomic additions. -/
def atomicAdds {ι : Type} [DecidableEq ι] (adds : List (ι × K)) : ι → K :=
  adds.foldl (fun x add => Function.update x add.1 (x add.1 + add.2)) fun _ => 0

/-! ## The dense formulas -/

section Dense
variable (a : FlashAttentionBackward K) (exp : K → K) (b h : ℕ)

/-- The products of an output row with its gradient, summed. -/
def rowDelta (m : ℕ) : K := ∑ d ∈ range a.D, a.attention exp b h m d * a.dO b h m d

/-- The gradient of a score. -/
def gradS (m n : ℕ) : K :=
  a.prob exp b h m n * (∑ d ∈ range a.D, a.dO b h m d * a.v b h n d - a.rowDelta exp b h m)

def gradV (n d : ℕ) : K := ∑ m ∈ range a.N, a.prob exp b h m n * a.dO b h m d

def gradK (n d : ℕ) : K := a.scale * ∑ m ∈ range a.N, a.gradS exp b h m n * a.q b h m d

def gradQ (m d : ℕ) : K := a.scale * ∑ n ∈ range a.N, a.gradS exp b h m n * a.k b h n d

end Dense

section Masked
variable {a : FlashAttentionBackward K} {exp : K → K} {b h m n d pidN : ℕ}

theorem load_eq {x : ℕ → ℕ → K} (hm : m < a.N) (hd : d < a.D) : a.load x m d = x m d :=
  if_pos ⟨hm, hd⟩

theorem s_eq (hD : a.D ≤ a.blockD) (hm : m < a.N) (hn : n < a.N) :
    a.s b h m n = a.logit b h m n := by
  rw [s, FlashAttention.logit, FlashAttention.sum_load_mul hD hm hn, mul_comm]

theorem p_of_ge (hm : a.N ≤ m) : a.p exp b h m n = 0 := if_neg fun hc => not_lt.mpr hm hc.1.1

theorem ds_of_ge (hm : a.N ≤ m) : a.ds exp b h m n = 0 := by rw [ds, p_of_ge hm, zero_mul]

theorem p_of_lt_lo (hm : m < a.lo pidN) (hn : n ∈ a.offsN (pidN * a.blockN)) :
    a.p exp b h m n = 0 := if_neg (not_scoreMask_of_lt_lo hm hn)

theorem ds_of_lt_lo (hm : m < a.lo pidN) (hn : n ∈ a.offsN (pidN * a.blockN)) :
    a.ds exp b h m n = 0 := by rw [ds, p_of_lt_lo hm hn, zero_mul]

end Masked

/-- The preprocess kernel stores the sum of the products of every query row, and nothing else. -/
theorem mem_deltaStores {a : FlashAttentionBackward K} (hM : 0 < a.blockM)
    {y : (ℕ × ℕ × ℕ) × K} : y ∈ a.deltaStores ↔ ∃ b < a.B, ∃ h < a.H, ∃ m < a.N, y = ((b, h, m),
      ∑ d ∈ range a.blockD, a.load (a.o b h) m d * a.load (a.dO b h) m d) := by
  rw [deltaStores, FlashAttention.mem_launch hM fun _ _ _ m hm => if_neg (not_lt.mpr hm)]
  refine exists_congr fun b => and_congr_right fun _ => exists_congr fun h => and_congr_right
    fun _ => exists_congr fun m => and_congr_right fun hm => ?_
  rw [if_pos hm, List.mem_singleton]

section Adds
variable {a : FlashAttentionBackward K} {exp : K → K} {b h m d pidN : ℕ}

/-- What atomic additions leave in an entry is the sum of those to it. -/
theorem atomicAdds_apply {ι : Type} [DecidableEq ι] (adds : List (ι × K)) (i : ι) :
    atomicAdds adds i = (adds.map fun x => if x.1 = i then x.2 else 0).sum := by
  suffices hfrom : ∀ x : ι → K,
      adds.foldl (fun x add => Function.update x add.1 (x add.1 + add.2)) x i =
        x i + (adds.map fun x => if x.1 = i then x.2 else 0).sum by
    rw [atomicAdds, hfrom, zero_add]
  induction adds with
  | nil => simp
  | cons add adds ih =>
    intro x
    rw [List.foldl_cons, ih, List.map_cons, List.sum_cons, Function.update_apply, ← add_assoc]
    by_cases heq : add.1 = i
    · rw [if_pos heq.symm, if_pos heq, heq]
    · rw [if_neg (Ne.symm heq), if_neg heq, add_zero]

/-- Above the diagonal a program would add nothing. -/
theorem dqPartial_of_lt_lo (hm : m < a.lo pidN) : a.dqPartial exp b h pidN m d = 0 := by
  rw [dqPartial, sum_eq_zero fun n hn => ?_, zero_mul]
  rw [ds_of_lt_lo hm hn, zero_mul]

/-- A program adds to an entry of a row once, if it is of its head. -/
theorem sum_rowAdds (hD : a.D ≤ a.blockD) (hm : m < a.N) (hd : d < a.D) (b' h' i : ℕ) :
    ((a.rowAdds exp b' h' pidN i).map fun x => if x.1 = (b, h, m, d) then x.2 else 0).sum =
      if i = m ∧ b' = b ∧ h' = h then a.dqPartial exp b h pidN m d else 0 := by
  rw [rowAdds, List.map_map]
  by_cases hentry : i = m ∧ b' = b ∧ h' = h
  · obtain ⟨rfl, rfl, rfl⟩ := hentry
    have hmem : d ∈ (List.range a.blockD).filter fun d => i < a.N ∧ d < a.D :=
      List.mem_filter.mpr ⟨List.mem_range.mpr (hd.trans_le hD), by simp [hm, hd]⟩
    rw [List.sum_map_eq_nsmul_single d, List.count_eq_one_of_mem (List.nodup_range.filter _) hmem,
      one_nsmul, if_pos ⟨rfl, rfl, rfl⟩]
    · exact if_pos rfl
    · intro d' hd' _
      refine if_neg fun heq => hd' ?_
      simpa using heq
  · rw [if_neg hentry]
    refine List.sum_eq_zero fun y hy => ?_
    obtain ⟨d', -, rfl⟩ := List.mem_map.mp hy
    refine if_neg fun heq => hentry ?_
    simp only [Prod.mk.injEq] at heq
    exact ⟨heq.2.2.1, heq.1, heq.2.1⟩

/-- A program adds to an entry of its head what it has for it. -/
theorem sum_programAdds (hM : 0 < a.blockM) (hD : a.D ≤ a.blockD) (hm : m < a.N) (hd : d < a.D)
    (b' h' : ℕ) : ((a.programAdds exp b' h' pidN).map
      fun x => if x.1 = (b, h, m, d) then x.2 else 0).sum =
        if b' = b ∧ h' = h then a.dqPartial exp b h pidN m d else 0 := by
  rw [programAdds, Tiles.sum_map_flatMap, sweep, Tiles.sum_sweep (f := fun i =>
    if i = m ∧ b' = b ∧ h' = h then a.dqPartial exp b h pidN m d else 0) hM]
  · by_cases hlo : m < a.lo pidN
    · simp [dqPartial_of_lt_lo hlo]
    · rw [sum_eq_single_of_mem m (mem_Ico.mpr ⟨not_lt.mp hlo, hm⟩)
        fun i _ hi => if_neg fun hc => hi hc.1]
      simp
  · intro start
    rw [Tiles.sum_map_flatMap, Tiles.sum_map_range, sum_Ico_eq_sum_range, Nat.add_sub_cancel_left]
    exact sum_congr rfl fun r _ => sum_rowAdds hD hm hd b' h' (start + r)
  · exact fun i hi => if_neg fun hc => absurd (hc.1 ▸ hi) (not_le.mpr hm)

/-- The additions of a launch to an entry, over the tiles of keys. -/
theorem sum_dqAdds (hM : 0 < a.blockM) (hD : a.D ≤ a.blockD) (hb : b < a.B) (hh : h < a.H)
    (hm : m < a.N) (hd : d < a.D) :
    ((a.dqAdds exp).map fun x => if x.1 = (b, h, m, d) then x.2 else 0).sum =
      ∑ pidN ∈ range (Tiles.cdiv a.N a.blockN), a.dqPartial exp b h pidN m d := by
  rw [dqAdds, Tiles.sum_map_flatMap, Tiles.sum_map_range]
  refine sum_congr rfl fun pidN _ => ?_
  rw [Tiles.sum_map_flatMap, Tiles.sum_map_range]
  obtain ⟨pidBh, hpid, hdiv, hmod⟩ := FlashAttention.exists_pidBh.mpr ⟨hb, hh⟩
  rw [sum_eq_single_of_mem pidBh (mem_range.mpr hpid) fun i _ hi => ?_, sum_programAdds hM hD hm hd,
    if_pos ⟨hdiv, hmod⟩]
  rw [sum_programAdds hM hD hm hd]
  refine if_neg fun hc => hi ?_
  rw [← Nat.div_add_mod' i a.H, hc.1, hc.2, ← hdiv, ← hmod, Nat.div_add_mod']

end Adds

section Kernels
variable [LinearOrder K] {a : FlashAttentionBackward K} {exp log : K → K} {b h m n d pidN : ℕ}

/-- The backward kernels read what the forward and the preprocess kernel stored. -/
structure Fed (a : FlashAttentionBackward K) (exp log : K → K) : Prop where
  o : ∀ b h m d y, ((b, h, m, d), y) ∈ a.stores exp → y = some (a.o b h m d)
  l : ∀ b h m y, ((b, h, m), y) ∈ a.lseStores exp log → y = some (a.l b h m)
  delta : ∀ b h m y, ((b, h, m), y) ∈ a.deltaStores → y = a.delta b h m

/-- What the kernels compute: the weights of the forward pass, and the dense gradients from them,
whatever the order of the additions; the sweep leaves out nothing but masked scores. -/
structure Gradients (a : FlashAttentionBackward K) (exp : K → K) : Prop where
  p : ∀ b < a.B, ∀ h < a.H, ∀ m < a.N, ∀ n, a.p exp b h m n = a.prob exp b h m n
  delta : ∀ y, y ∈ a.deltaStores ↔ ∃ b < a.B, ∃ h < a.H, ∃ m < a.N,
    y = ((b, h, m), a.rowDelta exp b h m)
  dv : ∀ y, y ∈ a.dvStores exp ↔ ∃ b < a.B, ∃ h < a.H, ∃ n < a.N, ∃ d < a.D,
    y = ((b, h, n, d), a.gradV exp b h n d)
  dk : ∀ y, y ∈ a.dkStores exp ↔ ∃ b < a.B, ∃ h < a.H, ∃ n < a.N, ∃ d < a.D,
    y = ((b, h, n, d), a.gradK exp b h n d)
  dq : ∀ adds, adds.Perm (a.dqAdds exp) → ∀ b < a.B, ∀ h < a.H, ∀ m < a.N, ∀ d < a.D,
    atomicAdds adds (b, h, m, d) = a.gradQ exp b h m d
  skipped : ∀ pidN, ∀ m < a.lo pidN, ∀ n ∈ a.offsN (pidN * a.blockN), ¬ a.scoreMask m n

/-! ## The statistics -/

section Statistics
variable [IsStrictOrderedRing K] (hpos : ∀ x, 0 < exp x)
  (hadd : ∀ x y, exp (x + y) = exp x * exp y) (hM : 0 < a.blockM) (hN : 0 < a.blockN)
  (hD : a.D ≤ a.blockD) (hfed : a.Fed exp log) (hb : b < a.B) (hh : h < a.H)

include hpos hadd hM hN hD hfed hb hh

/-- The kernels read the outputs of the forward pass. -/
theorem o_eq (hm : m < a.N) (hd : d < a.D) : a.o b h m d = a.attention exp b h m d :=
  (Option.some_inj.mp (hfed.o b h m d _
    ((a.mem_stores_iff exp hpos hadd hM hN hD).mpr ⟨hb, hh, hm, hd, rfl⟩))).symm

/-- The kernels read the logarithm of the sum of the exponentials of a row. -/
theorem exp_l (hlog : ∀ x, 0 < x → exp (log x) = x) (hm : m < a.N) :
    exp (a.l b h m) = ∑ n ∈ a.keys m, exp (a.logit b h m n) := by
  have hlast : m < (m / a.blockM + 1) * a.blockM := by
    rw [Nat.succ_mul]
    exact Nat.lt_div_mul_add hM
  obtain ⟨x, hx, hsum⟩ := FlashAttention.rowLse_eq (b := b) (h := h) hpos hadd hlog hN hD hm hlast
  have hl := hfed.l b h m _ ((FlashAttention.mem_lseStores hM).mpr ⟨b, hb, h, hh, m, hm, rfl⟩)
  rw [hx, Option.some_inj] at hl
  rw [← hl, hsum]

/-- The recomputed weights are those of the forward pass. -/
theorem p_eq (hlog : ∀ x, 0 < x → exp (log x) = x) (hm : m < a.N) (n : ℕ) :
    a.p exp b h m n = a.prob exp b h m n := by
  rw [p, FlashAttention.prob]
  simp only [scoreMask_iff hm]
  split
  · rename_i hn
    have hnN : n < a.N := mem_range.mp (mem_filter.mp hn).1
    have hl := exp_l hpos hadd hM hN hD hfed hb hh hlog hm
    rw [softmax, ← hl, eq_div_iff (hpos _).ne', ← hadd, loadRow, if_pos hm, sub_add_cancel,
      s_eq hD hm hnN]
  · rfl

/-- The sum of products of a row. -/
theorem sum_o_mul (hm : m < a.N) :
    ∑ d ∈ range a.blockD, a.load (a.o b h) m d * a.load (a.dO b h) m d = a.rowDelta exp b h m := by
  rw [FlashAttention.sum_load_mul hD hm hm]
  refine sum_congr rfl fun d hd => ?_
  rw [o_eq hpos hadd hM hN hD hfed hb hh hm (mem_range.mp hd)]

theorem delta_eq (hm : m < a.N) : a.delta b h m = a.rowDelta exp b h m := by
  rw [← sum_o_mul hpos hadd hM hN hD hfed hb hh hm]
  exact (hfed.delta b h m _ ((mem_deltaStores hM).mpr ⟨b, hb, h, hh, m, hm, rfl⟩)).symm

/-- The recomputed gradients of the scores. -/
theorem ds_eq (hlog : ∀ x, 0 < x → exp (log x) = x) (hm : m < a.N) (hn : n < a.N) :
    a.ds exp b h m n = a.gradS exp b h m n := by
  rw [ds, gradS, p_eq hpos hadd hM hN hD hfed hb hh hlog hm, dp,
    FlashAttention.sum_load_mul hD hm hn, loadRow, if_pos hm,
    delta_eq hpos hadd hM hN hD hfed hb hh hm]

/-! ## The keys and the values -/

/-- A program accumulates the gradients of its values. -/
theorem dvAcc_eq (hlog : ∀ x, 0 < x → exp (log x) = x) (hn : n ∈ a.offsN (pidN * a.blockN))
    (hd : d < a.D) : a.dvAcc exp b h pidN n d = a.gradV exp b h n d := by
  refine (Tiles.foldl_sweep (f := fun m => a.p exp b h m n * a.load (a.dO b h) m d) hM
    (fun _ => rfl) (fun m hm => ?_) fun m hm => ?_).trans (sum_congr rfl fun m hm => ?_)
  · rw [p_of_ge hm, zero_mul]
  · rw [p_of_lt_lo hm hn, zero_mul]
  · rw [mem_range] at hm
    rw [p_eq hpos hadd hM hN hD hfed hb hh hlog hm, load_eq hm hd]

/-- A program accumulates the gradients of its keys. -/
theorem dkAcc_eq (hlog : ∀ x, 0 < x → exp (log x) = x) (hn : n ∈ a.offsN (pidN * a.blockN))
    (hnN : n < a.N) (hd : d < a.D) : a.dkAcc exp b h pidN n d = a.gradK exp b h n d := by
  rw [gradK, mul_sum]
  refine (Tiles.foldl_sweep (f := fun m => a.ds exp b h m n * a.load (a.q b h) m d * a.scale) hM
    (fun _ => sum_mul _ _ _) (fun m hm => ?_) fun m hm => ?_).trans (sum_congr rfl fun m hm => ?_)
  · rw [ds_of_ge hm, zero_mul, zero_mul]
  · rw [ds_of_lt_lo hm hn, zero_mul, zero_mul]
  · rw [mem_range] at hm
    rw [ds_eq hpos hadd hM hN hD hfed hb hh hlog hm hnN, load_eq hm hd, mul_comm]

/-! ## The queries -/

/-- The additions of all programs, in any order, make the gradient of a query. -/
theorem atomicAdds_eq (hlog : ∀ x, 0 < x → exp (log x) = x)
    {adds : List ((ℕ × ℕ × ℕ × ℕ) × K)} (hadds : adds.Perm (a.dqAdds exp)) (hm : m < a.N)
    (hd : d < a.D) : atomicAdds adds (b, h, m, d) = a.gradQ exp b h m d := by
  have hterm : ∀ pidN, a.dqPartial exp b h pidN m d =
      ∑ n ∈ Ico (0 + pidN * a.blockN) (0 + pidN * a.blockN + a.blockN),
        a.ds exp b h m n * a.load (a.k b h) n d * a.scale := by
    intro pidN
    rw [Nat.zero_add, ← sum_mul]
    rfl
  rw [atomicAdds_apply, (hadds.map _).sum_eq, sum_dqAdds hM hD hb hh hm hd,
    sum_congr rfl fun pidN _ => hterm pidN, ← Nat.sub_zero a.N, Tiles.sum_cdiv hN, ← range_eq_Ico,
    gradQ, mul_sum]
  · refine sum_congr rfl fun n hn => ?_
    rw [mem_range] at hn
    rw [ds_eq hpos hadd hM hN hD hfed hb hh hlog hm hn, load_eq hn hd, mul_comm]
  · intro n hn
    rw [FlashAttention.load, if_neg fun hc => not_lt.mpr hn hc.1, mul_zero, zero_mul]

end Statistics

/-- The backward kernels compute the dense gradients. -/
theorem Fed.gradients_eq [IsStrictOrderedRing K] (hpos : ∀ x, 0 < exp x)
    (hadd : ∀ x y, exp (x + y) = exp x * exp y)
    (hlog : ∀ x, 0 < x → exp (log x) = x) (hM : 0 < a.blockM) (hN : 0 < a.blockN)
    (hD : a.D ≤ a.blockD) (hfed : a.Fed exp log) : a.Gradients exp where
  p b hb h hh m hm n := p_eq hpos hadd hM hN hD hfed hb hh hlog hm n
  delta y := by
    rw [mem_deltaStores hM]
    refine exists_congr fun b => and_congr_right fun hb => exists_congr fun h => and_congr_right
      fun hh => exists_congr fun m => and_congr_right fun hm => ?_
    rw [sum_o_mul hpos hadd hM hN hD hfed hb hh hm]
  dv y := by
    rw [dvStores, mem_kvStores hN hD]
    refine exists_congr fun b => and_congr_right fun hb => exists_congr fun h => and_congr_right
      fun hh => exists_congr fun n => and_congr_right fun hn => exists_congr fun d =>
        and_congr_right fun hd => ?_
    rw [dvAcc_eq hpos hadd hM hN hD hfed hb hh hlog (mem_offsN hN) hd]
  dk y := by
    rw [dkStores, mem_kvStores hN hD]
    refine exists_congr fun b => and_congr_right fun hb => exists_congr fun h => and_congr_right
      fun hh => exists_congr fun n => and_congr_right fun hn => exists_congr fun d =>
        and_congr_right fun hd => ?_
    rw [dkAcc_eq hpos hadd hM hN hD hfed hb hh hlog (mem_offsN hN) hn hd]
  dq _ hadds _ hb _ hh _ hm _ hd := atomicAdds_eq hpos hadd hM hN hD hfed hb hh hlog hadds hm hd
  skipped _ _ hm _ hn := not_scoreMask_of_lt_lo hm hn

end Kernels

/-! ## After a forward launch -/

/-- The memory after a forward launch and the preprocess kernel. -/
def ofForward (a : FlashAttention K) (exp log : K → K) (dO : ℕ → ℕ → ℕ → ℕ → K) :
    FlashAttentionBackward K where
  toFlashAttention := a
  o := a.attention exp
  dO := dO
  l b h m := log (∑ n ∈ a.keys m, exp (a.logit b h m n))
  delta b h m := ∑ d ∈ range a.D, a.attention exp b h m d * dO b h m d

/-- It is what the kernels stored. -/
theorem fed_ofForward [LinearOrder K] [IsStrictOrderedRing K] {a : FlashAttention K}
    {exp log : K → K} (dO : ℕ → ℕ → ℕ → ℕ → K) (hpos : ∀ x, 0 < exp x)
    (hadd : ∀ x y, exp (x + y) = exp x * exp y) (hlog : ∀ x, 0 < x → exp (log x) = x)
    (hexp : ∀ x, log (exp x) = x) (hM : 0 < a.blockM) (hN : 0 < a.blockN) (hD : a.D ≤ a.blockD) :
    (ofForward a exp log dO).Fed exp log where
  o _ _ _ _ _ hy := ((a.mem_stores_iff exp hpos hadd hM hN hD).mp hy).2.2.2.2
  l b h m y hy := by
    obtain ⟨b', -, h', -, m', hm, heq⟩ := (FlashAttention.mem_lseStores hM).mp hy
    simp only [Prod.mk.injEq] at heq
    obtain ⟨⟨rfl, rfl, rfl⟩, rfl⟩ := heq
    have hlast : m < (m / a.blockM + 1) * a.blockM := by
      rw [Nat.succ_mul]
      exact Nat.lt_div_mul_add hM
    obtain ⟨x, hx, hsum⟩ := FlashAttention.rowLse_eq (b := b) (h := h) hpos hadd hlog hN hD hm hlast
    exact hx.trans (congrArg some ((hexp x).symm.trans (congrArg log hsum)))
  delta b h m y hy := by
    obtain ⟨b', -, h', -, m', hm, heq⟩ := (mem_deltaStores hM).mp hy
    simp only [Prod.mk.injEq] at heq
    obtain ⟨⟨rfl, rfl, rfl⟩, rfl⟩ := heq
    exact FlashAttention.sum_load_mul hD hm hm

/-- The kernels compute the weights of the forward pass and the dense gradients from them, over the
real numbers. -/
theorem gradients (a : FlashAttentionBackward ℝ) (hM : 0 < a.blockM) (hN : 0 < a.blockN)
    (hD : a.D ≤ a.blockD) (hfed : a.Fed Real.exp Real.log) : a.Gradients Real.exp :=
  hfed.gradients_eq Real.exp_pos Real.exp_add (fun _ hx => Real.exp_log hx) hM hN hD

/-- Three rows of queries in tiles of two, and their keys one by one. -/
theorem gradients_three : ∃ a : FlashAttentionBackward ℝ, a.N = 3 ∧ a.blockM = 2 ∧ a.blockN = 1 ∧
    a.Gradients Real.exp := by
  set a : FlashAttention ℝ :=
    { B := 1, H := 1, N := 3, D := 1, scale := 1, causal := true, blockM := 2, blockN := 1
      blockD := 16, q := fun _ _ n _ => n, k := fun _ _ n _ => n, v := fun _ _ n _ => n }
  have hfed : (ofForward a Real.exp Real.log fun _ _ n _ => n).Fed Real.exp Real.log :=
    fed_ofForward _ Real.exp_pos Real.exp_add (fun _ hx => Real.exp_log hx) Real.log_exp
      (by decide) (by decide) (by decide)
  exact ⟨_, rfl, rfl, rfl, gradients _ (by decide) (by decide) (by decide) hfed⟩

end FlashAttentionBackward

end LightServe
