import LightServe.Lib.Dict
import LightServe.Lib.Orders
import Mathlib.Algebra.Order.Field.Rat
import Mathlib.Data.Fintype.Pi
import Mathlib.Data.Finset.Union
import Mathlib.Tactic.NormNum

/-!
# The near-copy index

`NearCopyIndex` of `training/corpus_prep/prepare_corpus.py`: a signature is filed under a key for
each of its bands and compared with the signatures that share a key, in any order. One that agrees
with a kept one in enough positions is dropped, and the others are kept.

## Main definitions

* `NearCopy.checkAndAdd` — look a signature up, and keep it if it is new.
* `NearCopy.run` — offer the signatures of a stream.
* `NearCopy.Indexed` — what the buckets hold.
* `NearCopy.Separates` — what a run drops and keeps.
* `NearCopy.separates` — every run does.
-/

namespace LightServe

namespace NearCopy

open Finset

def NUM_PERM : ℕ := 128

def BANDS : ℕ := 16

def ROWS : ℕ := 8

def NEAR_COPY : ℚ := 4 / 5

/-- A signature. -/
abbrev Sig := Fin NUM_PERM → UInt32

/-- The values of a band, whose bytes are its key. -/
abbrev Key := Fin ROWS → UInt32

theorem band_lt (b : Fin BANDS) (r : Fin ROWS) : b * ROWS + r < NUM_PERM := by
  have hb : (b : ℕ) < 16 := b.isLt
  have hr : (r : ℕ) < 8 := r.isLt
  show (b : ℕ) * 8 + r < 128
  omega

/-- `sig[b * ROWS:(b + 1) * ROWS]`. -/
def band (sig : Sig) (b : Fin BANDS) : Key := fun r => sig ⟨b * ROWS + r, band_lt b r⟩

/-- In how many positions two signatures agree. -/
def agreement (x y : Sig) : ℕ := (univ.filter fun p => x p = y p).card

/-- In how many positions two signatures differ. -/
def differences (x y : Sig) : ℕ := (univ.filter fun p => x p ≠ y p).card

/-- The fraction of positions in which two signatures agree. -/
def similarity (x y : Sig) : ℚ := agreement x y / NUM_PERM

/-- The buckets of the bands, and the kept signatures. -/
structure Index where
  buckets : Fin BANDS → Dict Key (List ℕ)
  sigs : List Sig

def Index.new : Index where
  buckets _ := ∅
  sigs := []

/-- The kept signatures that share a key with a new one. -/
def candidates (st : Index) (sig : Sig) : Finset ℕ :=
  univ.biUnion fun b => (((st.buckets b).lookup (band sig b)).getD []).toFinset

/-- The first candidate that a signature nearly copies. -/
def search (sigs : List Sig) (sig : Sig) : List ℕ → Option (Option (ℕ × ℚ))
  | [] => some none
  | i :: is => do
    let kept ← sigs[i]?
    let sim := similarity kept sig
    if NEAR_COPY ≤ sim then some (some (i, sim)) else search sigs sig is

/-- File a signature under its keys. -/
def add (st : Index) (sig : Sig) : Index where
  buckets b := (st.buckets b).set (band sig b)
    (((st.buckets b).lookup (band sig b)).getD [] ++ [st.sigs.length])
  sigs := st.sigs ++ [sig]

/-- The kept signature that a new one nearly copies, if any; else it is kept. -/
def checkAndAdd (order : SetOrder ℕ) (n : ℕ) (st : Index) (sig : Sig) :
    Option (Index × Option (ℕ × ℚ)) := do
  let found ← search st.sigs sig (order.list n (candidates st sig))
  if found.isSome then some (st, found) else some (add st sig, none)

/-- Offer the signatures of a stream; the results are those of `checkAndAdd`, in order. -/
def run (order : SetOrder ℕ) (stream : List Sig) : Option (Index × List (Option (ℕ × ℚ))) :=
  stream.foldlM (fun st sig => do
    let (index, result) ← checkAndAdd order st.2.length st.1 sig
    some (index, st.2 ++ [result])) (.new, [])

/-! ## Bands -/

section Bands
variable {x y : Sig}

theorem agreement_add_differences (x y : Sig) : agreement x y + differences x y = NUM_PERM := by
  rw [agreement, differences, card_filter_add_card_filter_not, card_univ, Fintype.card_fin]

theorem NEAR_COPY_le_similarity :
    NEAR_COPY ≤ similarity x y ↔ 4 * NUM_PERM ≤ 5 * agreement x y := by
  have hpos : (0 : ℚ) < NUM_PERM := by
    rw [NUM_PERM]
    norm_num
  rw [NEAR_COPY, similarity, div_le_div_iff₀ (by norm_num) hpos, mul_comm (agreement x y : ℚ)]
  exact_mod_cast Iff.rfl

/-- Signatures that differ in fewer positions than there are bands agree in a whole band. -/
theorem exists_band_eq (h : differences x y < BANDS) : ∃ b, band x b = band y b := by
  by_contra hnone
  choose r hr using fun b => Function.ne_iff.mp (not_exists.mp hnone b)
  have hle : (univ : Finset (Fin BANDS)).card ≤ differences x y := by
    refine card_le_card_of_injOn (fun b => ⟨b * ROWS + r b, band_lt b (r b)⟩) (fun b _ => ?_) ?_
    · exact mem_coe.mpr (mem_filter.mpr ⟨mem_univ _, hr b⟩)
    · intro b _ b' _ heq
      have hval : (b : ℕ) * 8 + r b = b' * 8 + r b' := congrArg Fin.val heq
      have hlt : (r b : ℕ) < 8 := (r b).isLt
      have hlt' : (r b' : ℕ) < 8 := (r b').isLt
      exact Fin.ext (by omega)
  rw [card_univ, Fintype.card_fin] at hle
  exact absurd h (not_lt.mpr hle)

/-- They are similar, too. -/
theorem NEAR_COPY_le_of_differences (h : differences x y < BANDS) : NEAR_COPY ≤ similarity x y := by
  have hsum := agreement_add_differences x y
  rw [NEAR_COPY_le_similarity]
  simp only [NUM_PERM, BANDS] at *
  omega

end Bands

/-! ## The index -/

/-- The buckets hold the kept signatures under the keys of their bands. -/
def Indexed (st : Index) : Prop := ∀ b key i, i ∈ ((st.buckets b).lookup key).getD [] ↔
  ∃ sig, st.sigs[i]? = some sig ∧ band sig b = key

section Step
variable {st : Index} {sig : Sig} {is : List ℕ}

theorem indexed_new : Indexed .new := by
  intro b key i
  simp [Index.new]

/-- The candidates are the kept signatures with a band in common. -/
theorem mem_candidates (h : Indexed st) {i : ℕ} : i ∈ candidates st sig ↔
    ∃ kept, st.sigs[i]? = some kept ∧ ∃ b, band kept b = band sig b := by
  simp only [candidates, mem_biUnion, mem_univ, true_and, List.mem_toFinset, h _ _ i]
  exact ⟨fun ⟨b, kept, hkept, hb⟩ => ⟨kept, hkept, b, hb⟩, fun ⟨kept, hkept, b, hb⟩ =>
    ⟨b, kept, hkept, hb⟩⟩

/-- A signature that is added is filed under its keys. -/
theorem indexed_add (h : Indexed st) : Indexed (add st sig) := by
  intro b key i
  have hold := h b key i
  have hsigs : (add st sig).sigs[i]? = if i = st.sigs.length then some sig else st.sigs[i]? := by
    rw [add]
    rcases Nat.lt_trichotomy i st.sigs.length with hlt | rfl | hgt
    · rw [List.getElem?_append_left hlt, if_neg hlt.ne]
    · simp
    · rw [if_neg hgt.ne', List.getElem?_eq_none hgt.le, List.getElem?_eq_none]
      rw [List.length_append, List.length_singleton]
      exact hgt
  have hlast : i = st.sigs.length → ¬ ∃ s, st.sigs[i]? = some s ∧ band s b = key := by
    rintro rfl ⟨s, hs, -⟩
    simp at hs
  rw [hsigs, add, Dict.lookup_set]
  by_cases hi : i = st.sigs.length
  · by_cases hkey : key = band sig b
    · simp [hi, hkey]
    · rw [if_neg hkey, if_pos hi, hold]
      simp [hlast hi, Ne.symm hkey]
  · by_cases hkey : key = band sig b
    · rw [if_pos hkey, if_neg hi, ← hold, hkey]
      simp [hi]
    · rw [if_neg hkey, if_neg hi, hold]

/-- The search returns a signature that is nearly copied, or there is none. -/
theorem search_eq (sig : Sig) (his : ∀ i ∈ is, ∃ kept, st.sigs[i]? = some kept) :
    ∃ found, search st.sigs sig is = some found ∧
      (∀ i sim, found = some (i, sim) → ∃ kept, st.sigs[i]? = some kept ∧
        sim = similarity kept sig ∧ NEAR_COPY ≤ sim) ∧
      (found = none → ∀ i ∈ is, ∀ kept, st.sigs[i]? = some kept →
        ¬ NEAR_COPY ≤ similarity kept sig) := by
  induction is with
  | nil => exact ⟨none, rfl, by simp, by simp⟩
  | cons i is ih =>
    obtain ⟨kept, hkept⟩ := his i List.mem_cons_self
    by_cases hsim : NEAR_COPY ≤ similarity kept sig
    · refine ⟨some (i, similarity kept sig), ?_, ?_, by simp⟩
      · simp [search, hkept, hsim]
      · rintro j sim heq
        obtain ⟨rfl, rfl⟩ := Prod.mk.inj (Option.some_inj.mp heq)
        exact ⟨kept, hkept, rfl, hsim⟩
    · obtain ⟨found, hfound, hsound, hnone⟩ := ih fun j hj => his j (List.mem_cons_of_mem _ hj)
      refine ⟨found, by simp [search, hkept, hsim, hfound], hsound, fun hn j hj kept' hkept' => ?_⟩
      rcases List.mem_cons.mp hj with rfl | hj
      · rw [hkept, Option.some_inj] at hkept'
        exact hkept' ▸ hsim
      · exact hnone hn j hj kept' hkept'

/-- A signature is dropped for a kept one that it nearly copies; one that is kept differs from all
kept ones in as many positions as there are bands. -/
theorem checkAndAdd_eq (h : Indexed st) (order : SetOrder ℕ) (n : ℕ) (sig : Sig) :
    ∃ st' result, checkAndAdd order n st sig = some (st', result) ∧ Indexed st' ∧
      (∀ i sim, result = some (i, sim) → st' = st ∧ ∃ kept, st.sigs[i]? = some kept ∧
        sim = similarity kept sig ∧ NEAR_COPY ≤ sim) ∧
      (result = none → st'.sigs = st.sigs ++ [sig] ∧
        ∀ kept ∈ st.sigs, BANDS ≤ differences kept sig) := by
  have hkept : ∀ i ∈ order.list n (candidates st sig), ∃ kept, st.sigs[i]? = some kept := by
    intro i hi
    obtain ⟨kept, hkept, -⟩ := (mem_candidates h).mp (order.mem_list.mp hi)
    exact ⟨kept, hkept⟩
  obtain ⟨found, hsearch, hsound, hnone⟩ := search_eq sig hkept
  cases found with
  | some found =>
    refine ⟨st, some found, by simp [checkAndAdd, hsearch], h, fun i sim heq => ?_, by simp⟩
    exact ⟨rfl, hsound i sim heq⟩
  | none =>
    refine ⟨add st sig, none, by simp [checkAndAdd, hsearch], indexed_add h, by simp, fun _ => ?_⟩
    refine ⟨rfl, fun kept hkept => not_lt.mp fun hfew => ?_⟩
    obtain ⟨i, hi⟩ := List.mem_iff_getElem?.mp hkept
    obtain ⟨b, hb⟩ := exists_band_eq hfew
    exact hnone rfl i (order.mem_list.mpr ((mem_candidates h).mpr ⟨kept, hi, b, hb⟩)) kept hi
      (NEAR_COPY_le_of_differences hfew)

end Step

/-! ## Runs -/

/-- The signatures among the first `k` of a stream that were kept. -/
def keptBefore (stream : List Sig) (results : List (Option (ℕ × ℚ))) (k : ℕ) : List Sig :=
  ((stream.zip results).take k).filterMap fun x => if x.2.isNone then some x.1 else none

/-- What a run drops and keeps. A dropped signature agrees in enough positions with the kept one of
its result, which came earlier; a signature that comes after a kept one is dropped if it differs in
fewer positions than there are bands, and so is the kept one itself; and kept signatures differ in
as many. -/
structure Separates (stream : List Sig) (results : List (Option (ℕ × ℚ))) : Prop where
  length : results.length = stream.length
  sound : ∀ k sig i sim, stream[k]? = some sig → results[k]? = some (some (i, sim)) →
    ∃ kept, (keptBefore stream results k)[i]? = some kept ∧ sim = similarity kept sig ∧
      4 * NUM_PERM ≤ 5 * agreement kept sig
  complete : ∀ (j k : ℕ) sig sig', j < k → stream[j]? = some sig → stream[k]? = some sig' →
    results[j]? = some none → differences sig sig' < BANDS →
    ∃ found, results[k]? = some (some found)
  again : ∀ (j k : ℕ) sig, j < k → stream[j]? = some sig → stream[k]? = some sig →
    results[j]? = some none → ∃ found, results[k]? = some (some found)
  apart : ∀ (j k : ℕ) sig sig', j < k → stream[j]? = some sig → stream[k]? = some sig' →
    results[j]? = some none → results[k]? = some none → BANDS ≤ differences sig sig'

section Run
variable {stream : List Sig} {results : List (Option (ℕ × ℚ))} {sig : Sig}
  {result : Option (ℕ × ℚ)}

theorem keptBefore_append (hlength : results.length = stream.length) {k : ℕ}
    (hk : k ≤ stream.length) :
    keptBefore (stream ++ [sig]) (results ++ [result]) k = keptBefore stream results k := by
  rw [keptBefore, List.zip_append hlength.symm, List.take_append_of_le_length, keptBefore]
  rwa [List.length_zip, hlength, Nat.min_self]

theorem keptBefore_concat (hlength : results.length = stream.length) :
    keptBefore (stream ++ [sig]) (results ++ [result]) (stream ++ [sig]).length =
      keptBefore stream results stream.length ++ if result.isNone then [sig] else [] := by
  have hzip : (stream.zip results).length = stream.length := by
    rw [List.length_zip, hlength, Nat.min_self]
  rw [keptBefore, List.zip_append hlength.symm, List.take_of_length_le, keptBefore,
    List.take_of_length_le hzip.le, List.filterMap_append]
  · cases result <;> rfl
  · simp [hlength]

/-- An index into a stream with one more signature is an old one, or the last. -/
theorem getElem?_concat_cases {α : Type} {l : List α} {x y : α} {k : ℕ}
    (h : (l ++ [x])[k]? = some y) : l[k]? = some y ∧ k < l.length ∨ k = l.length ∧ x = y := by
  rcases Nat.lt_trichotomy k l.length with hlt | rfl | hgt
  · rw [List.getElem?_append_left hlt] at h
    exact Or.inl ⟨h, hlt⟩
  · rw [List.getElem?_concat_length, Option.some_inj] at h
    exact Or.inr ⟨rfl, h⟩
  · rw [List.getElem?_eq_none] at h
    · cases h
    · rw [List.length_append, List.length_singleton]
      exact hgt

/-- What a run leaves: the kept signatures in the index, and results that drop near copies and keep
what is apart. -/
structure Ran (stream : List Sig) (st : Index) (results : List (Option (ℕ × ℚ))) : Prop where
  indexed : Indexed st
  sigs : st.sigs = keptBefore stream results stream.length
  length : results.length = stream.length
  dropped : ∀ (k : ℕ) sig i sim, stream[k]? = some sig → results[k]? = some (some (i, sim)) →
    ∃ kept, (keptBefore stream results k)[i]? = some kept ∧ sim = similarity kept sig ∧
      NEAR_COPY ≤ sim
  kept : ∀ (k : ℕ) sig, stream[k]? = some sig → results[k]? = some none →
    ∀ kept ∈ keptBefore stream results k, BANDS ≤ differences kept sig

/-- The next signature of a stream. -/
theorem Ran.step {st : Index} (h : Ran stream st results) (order : SetOrder ℕ) (sig : Sig) :
    ∃ st' result, checkAndAdd order results.length st sig = some (st', result) ∧
      Ran (stream ++ [sig]) st' (results ++ [result]) := by
  obtain ⟨st', result, hstep, hindexed, hdrop, hkeep⟩ :=
    checkAndAdd_eq h.indexed order results.length sig
  refine ⟨st', result, hstep, hindexed, ?_, by simp [h.length], ?_, ?_⟩
  · rw [keptBefore_concat h.length, ← h.sigs]
    cases result with
    | none => exact (hkeep rfl).1
    | some found =>
      rw [(hdrop _ _ rfl).1, Option.isNone_some, if_neg Bool.false_ne_true, List.append_nil]
  · intro k sig' i sim hsig hresult
    rcases getElem?_concat_cases hsig with ⟨hsig, hk⟩ | ⟨rfl, rfl⟩
    · rw [List.getElem?_append_left (h.length ▸ hk)] at hresult
      rw [keptBefore_append h.length hk.le]
      exact h.dropped k sig' i sim hsig hresult
    · rw [← h.length, List.getElem?_concat_length, Option.some_inj] at hresult
      rw [keptBefore_append h.length le_rfl, ← h.sigs]
      exact (hdrop i sim hresult).2
  · intro k sig' hsig hresult
    rcases getElem?_concat_cases hsig with ⟨hsig, hk⟩ | ⟨rfl, rfl⟩
    · rw [List.getElem?_append_left (h.length ▸ hk)] at hresult
      rw [keptBefore_append h.length hk.le]
      exact h.kept k sig' hsig hresult
    · rw [← h.length, List.getElem?_concat_length, Option.some_inj] at hresult
      rw [keptBefore_append h.length le_rfl, ← h.sigs]
      exact (hkeep hresult).2

/-- A run succeeds. -/
theorem exists_ran (order : SetOrder ℕ) (stream : List Sig) : ∃ st results,
    run order stream = some (st, results) ∧ Ran stream st results := by
  induction stream using List.reverseRecOn with
  | nil => exact ⟨_, _, rfl, indexed_new, rfl, rfl, by simp, by simp⟩
  | append_singleton stream sig ih =>
    obtain ⟨st, results, hrun, hran⟩ := ih
    obtain ⟨st', result, hstep, hran'⟩ := hran.step order sig
    refine ⟨st', results ++ [result], ?_, hran'⟩
    rw [run, List.foldlM_append, ← run, hrun]
    simp [hstep]

theorem mem_keptBefore {j k : ℕ} (hjk : j < k) (hsig : stream[j]? = some sig)
    (hkept : results[j]? = some none) : sig ∈ keptBefore stream results k := by
  refine List.mem_filterMap.mpr ⟨(sig, none), ?_, rfl⟩
  refine List.mem_of_getElem? (i := j) ?_
  rw [List.getElem?_take_of_lt hjk]
  exact List.getElem?_zip_eq_some.mpr ⟨hsig, hkept⟩

/-- A signature that differs from an earlier kept one in fewer positions than there are bands is
dropped. -/
theorem Ran.dropped_of_differences {st : Index} (h : Ran stream st results) {j k : ℕ} {sig' : Sig}
    (hjk : j < k) (hsig : stream[j]? = some sig) (hsig' : stream[k]? = some sig')
    (hkept : results[j]? = some none) (hfew : differences sig sig' < BANDS) :
    ∃ found, results[k]? = some (some found) := by
  have hk : k < results.length := h.length ▸ (List.getElem?_eq_some_iff.mp hsig').1
  rcases hresult : results[k] with _ | found
  · have happart := h.kept k sig' hsig' (List.getElem?_eq_some_iff.mpr ⟨hk, hresult⟩) sig
      (mem_keptBefore hjk hsig hkept)
    exact absurd hfew (not_lt.mpr happart)
  · exact ⟨found, List.getElem?_eq_some_iff.mpr ⟨hk, hresult⟩⟩

end Run

/-- Every run of the index separates the signatures. -/
theorem separates (order : SetOrder ℕ) (stream : List Sig) : ∃ st results,
    run order stream = some (st, results) ∧ Separates stream results := by
  obtain ⟨st, results, hrun, hran⟩ := exists_ran order stream
  refine ⟨st, results, hrun, hran.length, fun k sig i sim hsig hresult => ?_, ?_, ?_, ?_⟩
  · obtain ⟨kept, hkept, hsim, hle⟩ := hran.dropped k sig i sim hsig hresult
    exact ⟨kept, hkept, hsim, NEAR_COPY_le_similarity.mp (hsim ▸ hle)⟩
  · intro j k sig sig' hjk hsig hsig' hkept hfew
    exact hran.dropped_of_differences hjk hsig hsig' hkept hfew
  · intro j k sig hjk hsig hsig' hkept
    refine hran.dropped_of_differences hjk hsig hsig' hkept ?_
    rw [differences, filter_false_of_mem fun p _ => not_not.mpr rfl]
    decide
  · intro j k sig sig' hjk hsig hsig' hkept hkept'
    refine not_lt.mp fun hfew => ?_
    obtain ⟨found, hfound⟩ := hran.dropped_of_differences hjk hsig hsig' hkept hfew
    rw [hkept'] at hfound
    cases hfound

end NearCopy

end LightServe
