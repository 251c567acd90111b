import LightServe.Lib.OnlineSoftmax
import Mathlib.Algebra.BigOperators.Intervals
import Mathlib.Analysis.SpecialFunctions.Exp

/-!
# The attention kernel

`_flash_attn_fwd_kernel` of `kernels/flash_attention.py` over exact numbers: a program owns a
tile of query rows of one head and sweeps the keys tile by tile, with a running maximum,
denominator and accumulator for each row. Tensors are functions of their indices; loads outside
a tensor give zero, and scores outside it, or beyond the diagonal of a causal launch, are `⊥`.
A result that is not a number is `none`.

## Main definitions

* `FlashAttention.keys` — the keys of a query row.
* `FlashAttention.rowLoop` — the key loop of one query row.
* `FlashAttention.stores` — what the programs of a launch write.
* `FlashAttention.attention` — softmax attention.
* `FlashAttention.mem_stores_iff` — a launch writes softmax attention.
-/

namespace LightServe

open Finset OnlineSoftmax

/-- A launch of the kernel: the sizes, the tiles and the tensors, by batch, head, row and
dimension. -/
structure FlashAttention (K : Type) where
  B : ℕ
  H : ℕ
  N : ℕ
  D : ℕ
  scale : K
  causal : Bool
  blockM : ℕ
  blockN : ℕ
  blockD : ℕ
  q : ℕ → ℕ → ℕ → ℕ → K
  k : ℕ → ℕ → ℕ → ℕ → K
  v : ℕ → ℕ → ℕ → ℕ → K

namespace FlashAttention
variable {K : Type} (a : FlashAttention K)

/-- Where the key loop of a program ends. -/
def hi (pidM : ℕ) : ℕ := if a.causal then min a.N ((pidM + 1) * a.blockM) else a.N

/-- The keys of a tile. -/
def offsN (startN : ℕ) : Finset ℕ := Ico startN (startN + a.blockN)

/-- The starts of the tiles in `range(0, hi, BLOCK_N)`. -/
def starts (pidM : ℕ) : List ℕ :=
  (List.range ((a.hi pidM + a.blockN - 1) / a.blockN)).map (· * a.blockN)

/-- The keys of a query row. -/
def keys (m : ℕ) : Finset ℕ := {n ∈ range a.N | a.causal = true → n ≤ m}

section Tiles
variable {a} {pidM m : ℕ}

private theorem disjoint_tiles {size t t' : ℕ} (h : t < t') :
    Disjoint (Ico (t * size) (t * size + size)) (Ico (t' * size) (t' * size + size)) := by
  refine Ico_disjoint_Ico_consecutive _ _ _ |>.mono_right (Ico_subset_Ico_left ?_)
  rw [← Nat.succ_mul]
  exact Nat.mul_le_mul_right size h

private theorem union_tiles (size tiles : ℕ) :
    ((List.range tiles).map fun t => Ico (t * size) (t * size + size)).foldl (· ∪ ·) ∅ =
      Ico 0 (tiles * size) := by
  induction tiles with
  | zero => simp
  | succ tiles ih =>
    rw [List.range_succ, List.map_append, List.foldl_append, ih, Nat.succ_mul]
    exact Ico_union_Ico_eq_Ico (Nat.zero_le _) (Nat.le_add_right _ _)

/-- The key loop of a program with a row in the tensor has a tile. -/
theorem hi_pos (hm : m < a.N) (hm' : m < (pidM + 1) * a.blockM) : 0 < a.hi pidM := by
  unfold hi
  split
  · exact lt_min ((Nat.zero_le m).trans_lt hm) ((Nat.zero_le m).trans_lt hm')
  · exact (Nat.zero_le m).trans_lt hm

/-- The keys of a row end before the key loop of its program does. -/
theorem keys_subset (hN : 0 < a.blockN) (hm' : m < (pidM + 1) * a.blockM) :
    a.keys m ⊆ Ico 0 ((a.hi pidM + a.blockN - 1) / a.blockN * a.blockN) := by
  intro n hn
  obtain ⟨hnN, hcausal⟩ := mem_filter.mp hn
  rw [mem_range] at hnN
  have hlt : n < a.hi pidM := by
    unfold hi
    split
    · rename_i hc
      exact lt_min hnN ((hcausal hc).trans_lt hm')
    · exact hnN
  have hcover := Nat.lt_div_mul_add (a := a.hi pidM + a.blockN - 1) hN
  rw [mem_Ico]
  omega

end Tiles

section Scores
variable [Field K]

/-- A masked load of one entry of a head. -/
def load (x : ℕ → ℕ → K) (n d : ℕ) : K := if n < a.N ∧ d < a.D then x n d else 0

/-- The masked score of a key for a query row. -/
def score (b h m n : ℕ) : WithBot K :=
  if (m < a.N ∧ n < a.N) ∧ (a.causal = true → n ≤ m) then
    (((∑ d ∈ range a.blockD, a.load (a.q b h) m d * a.load (a.k b h) n d) * a.scale : K) :
      WithBot K)
  else ⊥

section Score
variable {a} {b h m : ℕ}

/-- Within the tensors, a product of two loaded rows is the product of the rows. -/
theorem sum_load_mul (hD : a.D ≤ a.blockD) {x y : ℕ → ℕ → K} (hm : m < a.N) {n : ℕ} (hn : n < a.N) :
    ∑ d ∈ range a.blockD, a.load x m d * a.load y n d = ∑ d ∈ range a.D, x m d * y n d := by
  refine (sum_subset_zero_on_sdiff (range_mono hD) (fun d hd => ?_) fun d hd => ?_).symm
  · rw [mem_sdiff, mem_range, mem_range] at hd
    rw [load, if_neg fun hc => hd.2 hc.2, zero_mul]
  · rw [mem_range] at hd
    rw [load, load, if_pos ⟨hm, hd⟩, if_pos ⟨hn, hd⟩]

theorem score_eq (hD : a.D ≤ a.blockD) (hm : m < a.N) {n : ℕ} (hn : n ∈ a.keys m) :
    a.score b h m n =
      ((a.scale * ∑ d ∈ range a.D, a.q b h m d * a.k b h n d : K) : WithBot K) := by
  obtain ⟨hnN, hcausal⟩ := mem_filter.mp hn
  rw [mem_range] at hnN
  rw [score, if_pos ⟨⟨hm, hnN⟩, hcausal⟩, mul_comm a.scale, sum_load_mul hD hm hnN]

theorem score_eq_bot {n : ℕ} (hn : n ∉ a.keys m) : a.score b h m n = ⊥ := by
  refine if_neg fun hc => hn (mem_filter.mpr ⟨mem_range.mpr hc.1.2, hc.2⟩)

end Score

variable [LinearOrder K] (exp : K → K)

/-- The key loop of one query row, from the starts of its tiles. -/
def rowLoop (pidM b h m : ℕ) : Option (State K ℕ) :=
  (a.starts pidM).foldlM
    (fun st startN => st.step exp (a.score b h m) (a.load (a.v b h)) (a.offsN startN)) .start

/-- What a query row gets in one dimension. -/
def rowValue (pidM b h m d : ℕ) : Option K := do
  let st ← a.rowLoop exp pidM b h m
  if st.denom = 0 then none else some (st.acc d / st.denom)

/-- What one program writes: to the entries of its rows that are within the tensor. -/
def programStores (pidM pidBh : ℕ) : List ((ℕ × ℕ × ℕ × ℕ) × Option K) :=
  let b := pidBh / a.H
  let h := pidBh % a.H
  (List.range a.blockM).flatMap fun r =>
    let m := pidM * a.blockM + r
    ((List.range a.blockD).filter fun d => m < a.N ∧ d < a.D).map fun d =>
      ((b, h, m, d), a.rowValue exp pidM b h m d)

/-- What a launch writes, over its grid of query tiles and heads. -/
def stores : List ((ℕ × ℕ × ℕ × ℕ) × Option K) :=
  (List.range ((a.N + a.blockM - 1) / a.blockM)).flatMap fun pidM =>
    (List.range (a.B * a.H)).flatMap fun pidBh => a.programStores exp pidM pidBh

/-! ## Softmax attention -/

/-- Softmax attention of one query row, in one dimension. -/
def attention (b h m d : ℕ) : K :=
  ∑ n ∈ a.keys m,
    softmax exp (a.keys m) (fun n => a.scale * ∑ d ∈ range a.D, a.q b h m d * a.k b h n d) n *
      a.v b h n d

/-! ## The key loop -/

section Loop
variable {exp} {a} {pidM b h m d : ℕ}

/-- The key loop sweeps all keys up to the end of its last tile. -/
theorem rowLoop_summarises (hadd : ∀ x y, exp (x + y) = exp x * exp y) (hN : 0 < a.blockN)
    (hm : m < a.N) (hhi : 0 < a.hi pidM) : ∃ st, a.rowLoop exp pidM b h m = some st ∧
      Summarises exp (a.score b h m) (a.load (a.v b h))
        (Ico 0 ((a.hi pidM + a.blockN - 1) / a.blockN * a.blockN)) st := by
  set tiles := (List.range ((a.hi pidM + a.blockN - 1) / a.blockN)).map fun t =>
    Ico (t * a.blockN) (t * a.blockN + a.blockN)
  have hpairwise : (∅ :: tiles).Pairwise Disjoint := by
    refine List.pairwise_cons.mpr ⟨fun _ _ => disjoint_empty_left _, List.pairwise_map.mpr ?_⟩
    exact List.pairwise_lt_range.imp disjoint_tiles
  have hhead : ∀ tile ∈ tiles.head?, (∅ ∪ tile).sup (a.score b h m) ≠ ⊥ := by
    obtain ⟨T, hT⟩ := Nat.exists_eq_succ_of_ne_zero
      (Nat.div_pos (by omega : a.blockN ≤ a.hi pidM + a.blockN - 1) hN).ne'
    intro tile htile hbot
    simp only [tiles, hT, List.range_succ_eq_map, List.map_cons, List.head?_cons,
      Option.mem_some_iff] at htile
    -- Key 0 is in the first tile, and no mask hides it from a row of the tensor.
    have hzero : (0 : ℕ) ∈ ∅ ∪ tile := by
      rw [← htile]
      simpa using hN
    have hle := le_sup (f := a.score b h m) hzero
    rw [hbot, le_bot_iff, score, if_pos ⟨⟨hm, (Nat.zero_le m).trans_lt hm⟩, fun _ => Nat.zero_le m⟩]
      at hle
    exact WithBot.coe_ne_bot hle
  obtain ⟨st, hrun, hst⟩ := summarises_start.foldlM hadd hpairwise hhead
  refine ⟨st, ?_, union_tiles a.blockN _ ▸ hst⟩
  rw [← hrun, rowLoop, starts, List.foldlM_map, List.foldlM_map]
  rfl

/-- A program stores softmax attention in each of its rows within the tensor. -/
theorem rowValue_eq [IsStrictOrderedRing K] (hpos : ∀ x, 0 < exp x)
    (hadd : ∀ x y, exp (x + y) = exp x * exp y) (hN : 0 < a.blockN) (hD : a.D ≤ a.blockD)
    (hm : m < a.N) (hm' : m < (pidM + 1) * a.blockM) (hd : d < a.D) :
    a.rowValue exp pidM b h m d = some (a.attention exp b h m d) := by
  have hself : m ∈ a.keys m := mem_filter.mpr ⟨mem_range.mpr hm, fun _ => le_rfl⟩
  obtain ⟨st, hrun, hst⟩ := rowLoop_summarises hadd hN hm (hi_pos hm hm')
  obtain ⟨hne, hquot⟩ := hst.quotient hadd hpos (keys_subset hN hm') ⟨m, hself⟩
    (fun n hn => score_eq hD hm hn) (fun n _ hn => score_eq_bot hn) d
  rw [rowValue, hrun]
  show (if st.denom = 0 then none else some (st.acc d / st.denom)) = _
  rw [if_neg hne, hquot]
  refine congrArg some (sum_congr rfl fun n hn => ?_)
  obtain ⟨hnN, -⟩ := mem_filter.mp hn
  rw [load, if_pos ⟨mem_range.mp hnN, hd⟩]

end Loop

/-- A launch stores softmax attention in every entry of its rows, and nothing else: no stored
row divides by zero. -/
theorem mem_stores_iff [IsStrictOrderedRing K] (hpos : ∀ x, 0 < exp x)
    (hadd : ∀ x y, exp (x + y) = exp x * exp y) (hM : 0 < a.blockM) (hN : 0 < a.blockN)
    (hD : a.D ≤ a.blockD) {b h m d : ℕ} {x : Option K} : ((b, h, m, d), x) ∈ a.stores exp ↔
      b < a.B ∧ h < a.H ∧ m < a.N ∧ d < a.D ∧ x = some (a.attention exp b h m d) := by
  simp only [stores, programStores, List.mem_flatMap, List.mem_map, List.mem_filter, List.mem_range,
    decide_eq_true_eq, Prod.mk.injEq]
  constructor
  · rintro ⟨pidM, -, pidBh, hpid, r, hr, d', ⟨-, hm, hd⟩, ⟨rfl, rfl, rfl, rfl⟩, rfl⟩
    have hH : 0 < a.H := Nat.pos_of_ne_zero fun h0 => by simp [h0] at hpid
    refine ⟨Nat.div_lt_of_lt_mul (by rwa [Nat.mul_comm]), Nat.mod_lt _ hH, hm, hd, ?_⟩
    exact rowValue_eq hpos hadd hN hD hm (by rw [Nat.succ_mul]; omega) hd
  · rintro ⟨hb, hh, hm, hd, rfl⟩
    have hrow : m / a.blockM * a.blockM + m % a.blockM = m := Nat.div_add_mod' m a.blockM
    have hlast : m < (m / a.blockM + 1) * a.blockM := by
      rw [Nat.succ_mul]
      exact Nat.lt_div_mul_add hM
    have hbatch : (b * a.H + h) / a.H = b := by
      rw [Nat.add_comm, Nat.add_mul_div_right _ _ (Nat.zero_lt_of_lt hh), Nat.div_eq_of_lt hh,
        Nat.zero_add]
    have hhead : (b * a.H + h) % a.H = h := by
      rw [Nat.add_comm, Nat.add_mul_mod_self_right, Nat.mod_eq_of_lt hh]
    refine ⟨m / a.blockM, ?_, b * a.H + h, ?_, m % a.blockM, Nat.mod_lt _ hM, d,
      ⟨hd.trans_le hD, hrow.symm ▸ hm, hd⟩, ⟨hbatch, hhead, hrow, rfl⟩, ?_⟩
    · rw [Nat.lt_div_iff_mul_lt hM]
      omega
    · calc b * a.H + h < b * a.H + a.H := Nat.add_lt_add_left hh _
        _ = (b + 1) * a.H := (Nat.succ_mul b a.H).symm
        _ ≤ a.B * a.H := Nat.mul_le_mul_right _ hb
    · rw [hbatch, hhead, hrow]
      exact rowValue_eq hpos hadd hN hD hm hlast hd

/-- Three rows in tiles of two, the last of them partial. -/
theorem mem_stores_iff_three : ∃ a : FlashAttention ℝ, a.N = 3 ∧ a.blockM = 2 ∧ a.blockN = 2 ∧
    ((0, 0, 2, 0), some (a.attention Real.exp 0 0 2 0)) ∈ a.stores Real.exp := by
  set a : FlashAttention ℝ :=
    { B := 1, H := 1, N := 3, D := 1, scale := 1, causal := true, blockM := 2, blockN := 2
      blockD := 16, q := fun _ _ n _ => n, k := fun _ _ n _ => n, v := fun _ _ n _ => n }
  refine ⟨a, rfl, rfl, rfl, (mem_stores_iff a Real.exp Real.exp_pos Real.exp_add (by decide)
    (by decide) (by decide)).mpr ⟨?_, ?_, ?_, ?_, rfl⟩⟩ <;> decide

end Scores

end FlashAttention

end LightServe
