import LightServe.Lib.Tiles
import Mathlib.Data.Finset.Prod
import Mathlib.Data.Nat.ModEq
import Mathlib.Data.Set.Function
import Mathlib.Algebra.BigOperators.Ring.Finset

/-!
# The tiled matrix product

`_matmul_kernel` of `kernels/tiled_matmul.py` over exact numbers: a program owns one tile of the
product, steps along the inner dimension with a pointer into each factor, and stores its tile. The
programs are numbered in groups of rows of tiles; the last group may be lower than the others.
Loads and stores are masked at every edge, and a load that is masked out gives zero.

## Main definitions

* `TiledMatmul.pids` — the tile of a program.
* `TiledMatmul.step`, `TiledMatmul.run` — the inner loop of a program.
* `TiledMatmul.stores` — what a launch stores.
* `TiledMatmul.Covers` — every tile has its program, and the product is stored once.
* `TiledMatmul.tiles_cover` — it is so for all sizes.
-/

namespace LightServe

open Finset

/-- A launch of the kernel: the sizes, the tiles and the factors, by row and column. -/
structure TiledMatmul (R : Type) where
  M : ℕ
  N : ℕ
  K : ℕ
  blockM : ℕ
  blockN : ℕ
  blockK : ℕ
  groupM : ℕ
  a : ℕ → ℕ → R
  b : ℕ → ℕ → R

namespace TiledMatmul
variable {R : Type}

/-! ## The numbering of the tiles -/

section Grid
variable (t : TiledMatmul R) (pid : ℕ)

def gridM : ℕ := Tiles.cdiv t.M t.blockM

def gridN : ℕ := Tiles.cdiv t.N t.blockN

def numPidInGroup : ℕ := t.groupM * t.gridN

def groupId : ℕ := pid / t.numPidInGroup

def firstPidM : ℕ := t.groupId pid * t.groupM

def groupSizeM : ℕ := min (t.gridM - t.firstPidM pid) t.groupM

def pidM : ℕ := t.firstPidM pid + pid % t.groupSizeM pid

def pidN : ℕ := pid % t.numPidInGroup / t.groupSizeM pid

/-- The tile of a program. -/
def pids : ℕ × ℕ := (t.pidM pid, t.pidN pid)

end Grid

section Swizzle
variable {t : TiledMatmul R} {pid pid' : ℕ}

/-- A group of a program has a row of tiles. -/
theorem firstPidM_lt (hpid : pid < t.gridM * t.gridN) : t.firstPidM pid < t.gridM := by
  have hle : t.groupId pid * t.groupM * t.gridN ≤ pid := by
    rw [Nat.mul_assoc]
    exact Nat.div_mul_le_self pid t.numPidInGroup
  exact Nat.lt_of_mul_lt_mul_right (hle.trans_lt hpid)

theorem groupSizeM_pos (hG : 0 < t.groupM) (hpid : pid < t.gridM * t.gridN) :
    0 < t.groupSizeM pid :=
  lt_min (Nat.sub_pos_of_lt (firstPidM_lt hpid)) hG

/-- The programs of a group are as many as its tiles, also in the last one. -/
theorem mod_numPidInGroup_lt (hG : 0 < t.groupM) (hpid : pid < t.gridM * t.gridN) :
    pid % t.numPidInGroup < t.groupSizeM pid * t.gridN := by
  have hN : 0 < t.gridN := Nat.pos_of_ne_zero fun h0 => by simp [h0] at hpid
  rcases min_choice (t.gridM - t.firstPidM pid) t.groupM with hlast | hfull
  · rw [groupSizeM, hlast, Nat.sub_mul, firstPidM, Nat.mul_assoc]
    have hpos := Nat.div_add_mod' pid t.numPidInGroup
    rw [groupId, ← numPidInGroup]
    omega
  · rw [groupSizeM, hfull]
    exact Nat.mod_lt _ (Nat.mul_pos hG hN)

/-- A program has a tile of the grid. -/
theorem pids_mapsTo (hG : 0 < t.groupM) : Set.MapsTo t.pids (range (t.gridM * t.gridN))
    (range t.gridM ×ˢ range t.gridN : Finset (ℕ × ℕ)) := by
  intro pid hpid
  rw [mem_coe, mem_range] at hpid
  rw [mem_coe, mem_product, mem_range, mem_range]
  have hsize := groupSizeM_pos hG hpid
  refine ⟨?_, ?_⟩
  · have hmod := Nat.mod_lt pid hsize
    have hfit : t.groupSizeM pid ≤ t.gridM - t.firstPidM pid := min_le_left _ _
    show t.firstPidM pid + pid % t.groupSizeM pid < t.gridM
    omega
  · exact Nat.div_lt_of_lt_mul (mod_numPidInGroup_lt hG hpid)

/-- The row of a tile tells its group. -/
theorem pidM_div (hG : 0 < t.groupM) (hpid : pid < t.gridM * t.gridN) :
    t.pidM pid / t.groupM = t.groupId pid := by
  have hlt : pid % t.groupSizeM pid < t.groupM :=
    (Nat.mod_lt pid (groupSizeM_pos hG hpid)).trans_le (min_le_right _ _)
  rw [pidM, firstPidM, Nat.add_comm, Nat.add_mul_div_right _ _ hG, Nat.div_eq_of_lt hlt,
    Nat.zero_add]

/-- No two programs share a tile. The remainder that gives the row is of the number of the program
and not of its place in the group, which differ by the programs of the groups before. -/
theorem pids_injOn (hG : 0 < t.groupM) : Set.InjOn t.pids (range (t.gridM * t.gridN)) := by
  intro pid hpid pid' hpid' heq
  rw [mem_coe, mem_range] at hpid hpid'
  obtain ⟨hM, hN⟩ := Prod.mk.inj heq
  have hgroup : t.groupId pid = t.groupId pid' := by
    rw [← pidM_div hG hpid, ← pidM_div hG hpid', hM]
  have hfirst : t.firstPidM pid = t.firstPidM pid' := congrArg (· * t.groupM) hgroup
  have hsize : t.groupSizeM pid = t.groupSizeM pid' := by rw [groupSizeM, groupSizeM, hfirst]
  have hmod : pid ≡ pid' [MOD t.groupSizeM pid'] := by
    rw [pidM, pidM, hfirst, hsize] at hM
    exact Nat.add_left_cancel hM
  have hdiv : pid % t.numPidInGroup / t.groupSizeM pid' =
      pid' % t.numPidInGroup / t.groupSizeM pid' := by
    rw [pidN, pidN, hsize] at hN
    exact hN
  have hplace : pid % t.numPidInGroup ≡ pid' % t.numPidInGroup [MOD t.groupSizeM pid'] := by
    refine Nat.ModEq.add_left_cancel' (t.groupId pid' * t.numPidInGroup) ?_
    rw [← hgroup]
    show pid / _ * _ + _ ≡ _ [MOD _]
    rw [Nat.div_add_mod', hgroup]
    show pid ≡ pid' / _ * _ + _ [MOD _]
    rwa [Nat.div_add_mod']
  have hrem : pid % t.numPidInGroup = pid' % t.numPidInGroup := by
    rw [← Nat.div_add_mod' (pid % t.numPidInGroup) (t.groupSizeM pid'), hdiv, hplace,
      Nat.div_add_mod']
  rw [← Nat.div_add_mod' pid t.numPidInGroup, hrem]
  show t.groupId pid * _ + _ = _
  rw [hgroup]
  exact Nat.div_add_mod' pid' t.numPidInGroup

/-- Every tile has one program. -/
theorem pids_bijOn (hG : 0 < t.groupM) : Set.BijOn t.pids (range (t.gridM * t.gridN))
    (range t.gridM ×ˢ range t.gridN : Finset (ℕ × ℕ)) := by
  refine ⟨pids_mapsTo hG, pids_injOn hG,
    surjOn_of_injOn_of_card_le t.pids (pids_mapsTo hG) (pids_injOn hG) ?_⟩
  rw [card_product, card_range, card_range, card_range]

end Swizzle

/-! ## The inner loop -/

section Program
variable [NonUnitalNonAssocSemiring R] (t : TiledMatmul R) (pid : ℕ)

/-- The rows of a program. -/
def offsM : List ℕ := (List.range t.blockM).map (t.pidM pid * t.blockM + ·)

/-- The columns of a program. -/
def offsN : List ℕ := (List.range t.blockN).map (t.pidN pid * t.blockN + ·)

/-- Whether an entry of the first factor is loaded in a step, by its row and its place in the
tile. -/
def maskA (k i offsK : ℕ) : Prop := i < t.M ∧ offsK < t.K - k * t.blockK

/-- Whether an entry of the second factor is loaded in a step. -/
def maskB (k offsK j : ℕ) : Prop := offsK < t.K - k * t.blockK ∧ j < t.N

instance (k i offsK : ℕ) : Decidable (t.maskA k i offsK) := inferInstanceAs (Decidable (_ ∧ _))

instance (k offsK j : ℕ) : Decidable (t.maskB k offsK j) := inferInstanceAs (Decidable (_ ∧ _))

/-- The inner loop of a program: how far its pointers have moved, what it has accumulated, and the
entries of the factors that it has read. -/
structure State (R : Type) where
  ptr : ℕ
  acc : ℕ → ℕ → R
  readA : List (ℕ × ℕ)
  readB : List (ℕ × ℕ)

/-- One step of the inner loop. -/
def step (st : State R) (k : ℕ) : State R where
  ptr := st.ptr + t.blockK
  acc i j := st.acc i j + ∑ offsK ∈ range t.blockK,
    (if t.maskA k i offsK then t.a i (st.ptr + offsK) else 0) *
      (if t.maskB k offsK j then t.b (st.ptr + offsK) j else 0)
  readA := st.readA ++ (t.offsM pid).flatMap fun i =>
    ((List.range t.blockK).filter fun offsK => t.maskA k i offsK).map fun offsK =>
      (i, st.ptr + offsK)
  readB := st.readB ++ (t.offsN pid).flatMap fun j =>
    ((List.range t.blockK).filter fun offsK => t.maskB k offsK j).map fun offsK =>
      (st.ptr + offsK, j)

/-- The inner loop of a program. -/
def run : State R :=
  (List.range (Tiles.cdiv t.K t.blockK)).foldl (t.step pid) ⟨0, fun _ _ => 0, [], []⟩

/-- What a program stores. -/
def programStores : List ((ℕ × ℕ) × R) :=
  (t.offsM pid).flatMap fun i => ((t.offsN pid).filter fun j => i < t.M ∧ j < t.N).map fun j =>
    ((i, j), (t.run pid).acc i j)

/-- What a launch stores, over its programs. -/
def stores : List ((ℕ × ℕ) × R) := (List.range (t.gridM * t.gridN)).flatMap t.programStores

end Program

/-- Every tile of the product has one program; the launch stores the product, every entry once, and
reads nothing outside its factors. -/
structure Covers [NonUnitalNonAssocSemiring R] (t : TiledMatmul R) : Prop where
  bijOn : Set.BijOn t.pids (range (t.gridM * t.gridN))
    (range t.gridM ×ˢ range t.gridN : Finset (ℕ × ℕ))
  stores : ∀ y, y ∈ t.stores ↔ ∃ i < t.M, ∃ j < t.N,
    y = ((i, j), ∑ k ∈ range t.K, t.a i k * t.b k j)
  once : (t.stores.map Prod.fst).Nodup
  readA : ∀ pid < t.gridM * t.gridN, ∀ x ∈ (t.run pid).readA, x.1 < t.M ∧ x.2 < t.K
  readB : ∀ pid < t.gridM * t.gridN, ∀ x ∈ (t.run pid).readB, x.1 < t.K ∧ x.2 < t.N

section Run
variable [NonUnitalNonAssocSemiring R] {t : TiledMatmul R} {pid : ℕ}

/-- What a number of steps leaves: the pointers at the next tile, the products of the tiles behind
it, and reads within the factors. -/
structure Stepped (t : TiledMatmul R) (k : ℕ) (st : State R) : Prop where
  ptr : st.ptr = k * t.blockK
  acc : ∀ i < t.M, ∀ j < t.N, st.acc i j = ∑ s ∈ range k,
    ∑ l ∈ Ico (0 + s * t.blockK) (0 + s * t.blockK + t.blockK),
      if l < t.K then t.a i l * t.b l j else 0
  readA : ∀ x ∈ st.readA, x.1 < t.M ∧ x.2 < t.K
  readB : ∀ x ∈ st.readB, x.1 < t.K ∧ x.2 < t.N

theorem Stepped.step {k : ℕ} {st : State R} (h : t.Stepped k st) :
    t.Stepped (k + 1) (t.step pid st k) where
  ptr := by
    rw [Nat.succ_mul, ← h.ptr]
    rfl
  acc i hi j hj := by
    rw [sum_range_succ, ← h.acc i hi j hj, Nat.zero_add, sum_Ico_eq_sum_range,
      Nat.add_sub_cancel_left, ← h.ptr]
    refine congrArg (st.acc i j + ·) (sum_congr rfl fun offsK _ => ?_)
    by_cases hK : st.ptr + offsK < t.K
    · have hrem : offsK < t.K - k * t.blockK := by
        rw [← h.ptr]
        omega
      rw [if_pos hK, if_pos ⟨hi, hrem⟩, if_pos ⟨hrem, hj⟩]
    · rw [if_neg hK, if_neg fun hc => hK ?_, zero_mul]
      have hrem := hc.2
      rw [← h.ptr] at hrem
      omega
  readA x hx := by
    rcases List.mem_append.mp hx with hx | hx
    · exact h.readA x hx
    · simp only [List.mem_flatMap, List.mem_map, List.mem_filter, decide_eq_true_eq] at hx
      obtain ⟨i, -, offsK, ⟨-, hi, hK⟩, rfl⟩ := hx
      rw [← h.ptr] at hK
      exact ⟨hi, by show st.ptr + offsK < t.K; omega⟩
  readB x hx := by
    rcases List.mem_append.mp hx with hx | hx
    · exact h.readB x hx
    · simp only [List.mem_flatMap, List.mem_map, List.mem_filter, decide_eq_true_eq] at hx
      obtain ⟨j, -, offsK, ⟨-, hK, hj⟩, rfl⟩ := hx
      rw [← h.ptr] at hK
      exact ⟨by show st.ptr + offsK < t.K; omega, hj⟩

/-- The inner loop takes all its steps. -/
theorem stepped_run : t.Stepped (Tiles.cdiv t.K t.blockK) (t.run pid) := by
  unfold run
  induction Tiles.cdiv t.K t.blockK with
  | zero => exact ⟨(Nat.zero_mul _).symm, fun _ _ _ _ => rfl, by simp, by simp⟩
  | succ k ih =>
    rw [List.range_succ, List.foldl_append]
    exact ih.step

/-- A program accumulates the entries of the product. -/
theorem run_acc (hK : 0 < t.blockK) {i j : ℕ} (hi : i < t.M) (hj : j < t.N) :
    (t.run pid).acc i j = ∑ k ∈ range t.K, t.a i k * t.b k j := by
  rw [stepped_run.acc i hi j hj, ← Nat.sub_zero t.K, Tiles.sum_cdiv hK, ← range_eq_Ico]
  · exact sum_congr rfl fun l hl => if_pos (mem_range.mp hl)
  · exact fun l hl => if_neg (not_lt.mpr hl)

end Run

/-! ## The stores -/

section Stores
variable [NonUnitalNonAssocSemiring R] {t : TiledMatmul R} {pid : ℕ}

/-- A program stores the entries of its tile that are within the product. -/
theorem mem_programStores (hM : 0 < t.blockM) (hN : 0 < t.blockN) (hK : 0 < t.blockK)
    {y : (ℕ × ℕ) × R} : y ∈ t.programStores pid ↔ ∃ i < t.M, ∃ j < t.N,
      (i / t.blockM, j / t.blockN) = t.pids pid ∧
        y = ((i, j), ∑ k ∈ range t.K, t.a i k * t.b k j) := by
  simp only [programStores, List.mem_flatMap, List.mem_map, List.mem_filter, decide_eq_true_eq,
    offsM, offsN, Tiles.mem_tile hM, Tiles.mem_tile hN]
  constructor
  · rintro ⟨i, hi, j, ⟨hj, hiM, hjN⟩, rfl⟩
    exact ⟨i, hiM, j, hjN, Prod.ext hi hj, by rw [run_acc hK hiM hjN]⟩
  · rintro ⟨i, hiM, j, hjN, htile, rfl⟩
    obtain ⟨hi, hj⟩ := Prod.mk.inj htile
    exact ⟨i, hi, j, ⟨hj, hiM, hjN⟩, by rw [run_acc hK hiM hjN]⟩

/-- A launch stores the product. -/
theorem mem_stores (hM : 0 < t.blockM) (hN : 0 < t.blockN) (hK : 0 < t.blockK)
    (hG : 0 < t.groupM) {y : (ℕ × ℕ) × R} : y ∈ t.stores ↔ ∃ i < t.M, ∃ j < t.N,
      y = ((i, j), ∑ k ∈ range t.K, t.a i k * t.b k j) := by
  simp only [stores, List.mem_flatMap, List.mem_range, mem_programStores hM hN hK]
  constructor
  · rintro ⟨pid, -, i, hi, j, hj, -, rfl⟩
    exact ⟨i, hi, j, hj, rfl⟩
  · rintro ⟨i, hi, j, hj, rfl⟩
    have htile : (i / t.blockM, j / t.blockN) ∈ range t.gridM ×ˢ range t.gridN := by
      rw [mem_product, mem_range, mem_range]
      exact ⟨Tiles.div_lt_cdiv hM hi, Tiles.div_lt_cdiv hN hj⟩
    obtain ⟨pid, hpid, heq⟩ := (pids_bijOn hG).surjOn (mem_coe.mpr htile)
    exact ⟨pid, mem_range.mp (mem_coe.mp hpid), i, hi, j, hj, heq.symm, rfl⟩

/-- A program stores every entry of its tile once. -/
theorem nodup_programStores : ((t.programStores pid).map Prod.fst).Nodup := by
  rw [programStores, List.map_flatMap, List.nodup_flatMap]
  constructor
  · intro i _
    rw [List.map_map]
    exact (Tiles.nodup_tile.filter _).map fun j j' heq => (Prod.mk.inj heq).2
  · refine Tiles.nodup_tile.pairwise_of_forall_ne fun i _ i' _ hne x hx hx' => hne ?_
    simp only [List.mem_map] at hx hx'
    obtain ⟨-, ⟨j, -, rfl⟩, rfl⟩ := hx
    obtain ⟨-, ⟨j', -, rfl⟩, heq⟩ := hx'
    exact (Prod.mk.inj heq).1.symm

/-- A launch stores every entry once. -/
theorem nodup_stores (hM : 0 < t.blockM) (hN : 0 < t.blockN) (hK : 0 < t.blockK)
    (hG : 0 < t.groupM) : (t.stores.map Prod.fst).Nodup := by
  rw [stores, List.map_flatMap, List.nodup_flatMap]
  refine ⟨fun pid _ => nodup_programStores, List.nodup_range.pairwise_of_forall_ne ?_⟩
  intro pid hpid pid' hpid' hne x hx hx'
  obtain ⟨y, hy, rfl⟩ := List.mem_map.mp hx
  obtain ⟨y', hy', heq⟩ := List.mem_map.mp hx'
  obtain ⟨i, -, j, -, htile, rfl⟩ := (mem_programStores hM hN hK).mp hy
  obtain ⟨i', -, j', -, htile', rfl⟩ := (mem_programStores hM hN hK).mp hy'
  obtain ⟨rfl, rfl⟩ := Prod.mk.inj heq
  rw [List.mem_range] at hpid hpid'
  exact hne (pids_injOn hG (mem_coe.mpr (mem_range.mpr hpid)) (mem_coe.mpr (mem_range.mpr hpid'))
    (htile.symm.trans htile'))

end Stores

/-- The kernel computes the matrix product, every entry once. -/
theorem tiles_cover [NonUnitalNonAssocSemiring R] (t : TiledMatmul R) (hM : 0 < t.blockM)
    (hN : 0 < t.blockN) (hK : 0 < t.blockK) (hG : 0 < t.groupM) : t.Covers where
  bijOn := pids_bijOn hG
  stores _ := mem_stores hM hN hK hG
  once := nodup_stores hM hN hK hG
  readA _ _ := stepped_run.readA
  readB _ _ := stepped_run.readB

/-- Five rows of tiles in groups of two. -/
theorem tiles_cover_five :
    ∃ t : TiledMatmul ℤ, t.gridM = 5 ∧ t.gridN = 3 ∧ t.groupM = 2 ∧ t.Covers :=
  ⟨{ M := 9, N := 5, K := 3, blockM := 2, blockN := 2, blockK := 2, groupM := 2
     a := fun i k => i + k, b := fun k j => k * j }, by decide, by decide, rfl,
    tiles_cover _ (by decide) (by decide) (by decide) (by decide)⟩

end TiledMatmul

end LightServe
