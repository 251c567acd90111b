import LightServe.Lib.Dict
import LightServe.Lib.Except
import LightServe.Lib.Rounding
import Mathlib.Algebra.BigOperators.Intervals
import Mathlib.Data.List.Sort
import Mathlib.Data.Nat.Choose.Sum
import Mathlib.Data.Rat.Floor
import Mathlib.Data.String.Basic

/-!
# The promotion gate

`sign_test` and `decide` of `training/qlora_financial/promote.py`, with `scores` of `registry.py`,
over graded answers and exact numbers: a candidate passes if it wins more questions than it loses
against the champion, if that is not likely to be luck, and if no source drops by too much. A right
answer instead of a wrong one never makes it fail.

## Main definitions

* `Promote.signTest` — how likely a split at least as lopsided is.
* `Promote.scores` — the accuracy on each source.
* `Promote.decide` — pass or reject, with the reasons.
* `Promote.correct` — an answer that is right instead.
* `Promote.pass_of_correct` — it keeps a pass.
-/

namespace LightServe

namespace Promote

/-! ## The sign test -/

/-- The share of the subsets of `n` questions that have at most `k`. -/
def tail (n k : ℕ) : ℚ := (∑ i ∈ Finset.range (k + 1), (n.choose i : ℚ)) / 2 ^ n

/-- The exact two-sided sign test. -/
def signTest (onlyA onlyB : ℕ) : ℚ :=
  let n := onlyA + onlyB
  let k := min onlyA onlyB
  if n = 0 then 1 else min 1 (2 * tail n k)

section SignTest
variable {n k w l w' l' : ℕ}

theorem tail_mono (h : l ≤ k) : tail n l ≤ tail n k := by
  refine div_le_div_of_nonneg_right ?_ (by positivity)
  exact Finset.sum_le_sum_of_subset_of_nonneg (Finset.range_mono (by omega))
    fun _ _ _ => by positivity

/-- Pascal's rule for the tails. -/
theorem tail_succ_succ (n k : ℕ) : tail (n + 1) (k + 1) = (tail n (k + 1) + tail n k) / 2 := by
  have hsum : ∑ i ∈ Finset.range (k + 1 + 1), ((n + 1).choose i : ℚ) =
      ∑ i ∈ Finset.range (k + 1 + 1), (n.choose i : ℚ) +
        ∑ i ∈ Finset.range (k + 1), (n.choose i : ℚ) := by
    rw [Finset.sum_range_succ', Finset.sum_range_succ' (fun i => (n.choose i : ℚ))]
    simp only [Nat.choose_succ_succ, Nat.cast_add, Finset.sum_add_distrib, Nat.choose_zero_right]
    ring
  rw [tail, tail, tail, hsum, pow_succ]
  field_simp

theorem tail_succ_zero (n : ℕ) : tail (n + 1) 0 = tail n 0 / 2 := by
  simp only [tail, zero_add, Finset.sum_range_one, Nat.choose_zero_right, Nat.cast_one, pow_succ]
  field_simp

theorem tail_nonneg (n k : ℕ) : 0 ≤ tail n k :=
  div_nonneg (Finset.sum_nonneg fun _ _ => by positivity) (by positivity)

/-- One more question makes a tail no longer. -/
theorem tail_succ_le (n k : ℕ) : tail (n + 1) k ≤ tail n k := by
  cases k with
  | zero =>
    rw [tail_succ_zero]
    linarith [tail_nonneg n 0]
  | succ k =>
    rw [tail_succ_succ]
    linarith [tail_mono (n := n) (Nat.le_succ k)]

/-- One question less, and one less of the tail. -/
theorem tail_le_succ_succ (n k : ℕ) : tail n k ≤ tail (n + 1) (k + 1) := by
  rw [tail_succ_succ]
  linarith [tail_mono (n := n) (Nat.le_succ k)]

/-- When there are no fewer wins than losses, the losses are the tail. -/
theorem signTest_eq (h : l ≤ w) : signTest w l = min 1 (2 * tail (w + l) l) := by
  rw [signTest, min_eq_right h]
  split
  · rename_i hzero
    obtain ⟨rfl, rfl⟩ := Nat.add_eq_zero_iff.mp hzero
    norm_num [tail]
  · rfl

/-- A loss that becomes a tie does not raise the p-value. -/
theorem signTest_le_of_tie (h : l + 1 ≤ w) : signTest w l ≤ signTest w (l + 1) := by
  rw [signTest_eq (Nat.le_of_succ_le h), signTest_eq h]
  exact min_le_min_left _ (mul_le_mul_of_nonneg_left (tail_le_succ_succ _ _) zero_le_two)

/-- A tie that becomes a win does not raise the p-value. -/
theorem signTest_le_of_win (h : l ≤ w) : signTest (w + 1) l ≤ signTest w l := by
  rw [signTest_eq (Nat.le_succ_of_le h), signTest_eq h, Nat.succ_add]
  exact min_le_min_left _ (mul_le_mul_of_nonneg_left (tail_succ_le _ _) zero_le_two)

/-- More wins and fewer losses do not raise the p-value. -/
theorem signTest_anti (hw : w ≤ w') (hl : l' ≤ l) (h : l ≤ w) : signTest w' l' ≤ signTest w l := by
  have hlosses : signTest w l' ≤ signTest w l := by
    induction l, hl using Nat.le_induction with
    | base => exact le_rfl
    | succ l _ ih => exact (ih (by omega)).trans (signTest_le_of_tie h)
  refine le_trans ?_ hlosses
  induction w', hw using Nat.le_induction with
  | base => exact le_rfl
  | succ w' _ ih => exact (signTest_le_of_win (by omega)).trans ih

end SignTest

/-! ## The gate -/

/-- A graded answer: its question, the source of the question, and whether it is right. -/
structure Row (Q : Type) where
  id : Q
  source : String
  ok : Bool

inductive Who
  | candidate
  | champion

/-- The errors that are raised. -/
inductive Error
  | repeated (who : Who)
  | differentQuestions
  | zeroDivision

/-- The reasons for a rejection. -/
inductive Reason
  | notMore (wins losses : ℕ)
  | couldBeLuck (wins losses : ℕ) (p alpha : ℚ)
  | drops (src : String) (drop maxDrop : ℚ)
  deriving DecidableEq

/-- What the gate says. -/
structure Decision where
  passed : Bool
  reasons : List Reason
  onlyCandidate : ℕ
  onlyChampion : ℕ
  p : ℚ
  candidate : Dict String ℚ
  champion : Dict String ℚ

/-- The share of right answers. -/
def accuracy (oks : List Bool) : ℚ := oks.count true / oks.length

section Gate
variable {Q : Type} [DecidableEq Q]

/-- The answers of each source. -/
def bySource (rows : List (Row Q)) : Dict String (List Bool) := Dict.groupBy (·.source) (·.ok) rows

/-- The number of answers, their accuracy, and that on each source. -/
def scores (rows : List (Row Q)) : Except Error (Dict String ℚ) :=
  let every := ((bySource rows).values).flatten
  if every.length = 0 then .error .zeroDivision
  else
    let d := (Dict.set ∅ "n" (every.length : ℚ)).set "ALL" (accuracy every)
    .ok (((bySource rows).keys.insertionSort (· ≤ ·)).foldl
      (fun d src => d.set src (accuracy (((bySource rows).lookup src).getD []))) d)

/-- Whether each question is answered right. -/
def graded (rows : List (Row Q)) : Dict Q Bool := rows.foldl (fun d r => d.set r.id r.ok) ∅

/-- On how many questions the first is right and the second is not. -/
def only (ids : List Q) (a b : Dict Q Bool) : ℕ :=
  ids.countP fun i => a.lookup i = some true && b.lookup i = some false

/-- On how many questions only the candidate is right. -/
def wins (candidateRows championRows : List (Row Q)) : ℕ :=
  only (graded candidateRows).keys (graded candidateRows) (graded championRows)

/-- On how many questions only the champion is right. -/
def losses (candidateRows championRows : List (Row Q)) : ℕ :=
  only (graded candidateRows).keys (graded championRows) (graded candidateRows)

/-- The sources on which the candidate drops by more than the limit. -/
def drops (candidate champion : Dict String ℚ) (maxDrop : ℚ) : List Reason :=
  champion.keys.reverse.filterMap fun src =>
    if src = "n" ∨ src = "ALL" then none
    else
      let drop := Rounding.round 9
        ((champion.lookup src).getD 0 - (candidate.lookup src).getD 0)
      if maxDrop < drop then some (.drops src drop maxDrop) else none

/-- Too few wins, or a split that could be luck. -/
def lopsided (wins losses : ℕ) (p alpha : ℚ) : List Reason :=
  if wins ≤ losses then [.notMore wins losses]
  else if alpha ≤ p then [.couldBeLuck wins losses p alpha]
  else []

/-- Pass or reject, from the wins and the losses and the scores of the two. -/
def judge (wins losses : ℕ) (sCand sChamp : Dict String ℚ) (alpha maxDrop : ℚ) : Decision :=
  let p := signTest wins losses
  let reasons := lopsided wins losses p alpha ++ drops sCand sChamp maxDrop
  { passed := reasons.isEmpty, reasons, onlyCandidate := wins, onlyChampion := losses, p
    candidate := sCand, champion := sChamp }

/-- The gate: both must have answered the same questions, each of them once. -/
def decide (candidateRows championRows : List (Row Q)) (alpha maxDrop : ℚ) :
    Except Error Decision :=
  let cand := graded candidateRows
  let champ := graded championRows
  if cand.keys.length ≠ candidateRows.length then .error (.repeated .candidate)
  else if champ.keys.length ≠ championRows.length then .error (.repeated .champion)
  else if cand.keys.toFinset ≠ champ.keys.toFinset then .error .differentQuestions
  else do
    let sCand ← scores candidateRows
    let sChamp ← scores championRows
    .ok (judge (wins candidateRows championRows) (losses candidateRows championRows) sCand sChamp
      alpha maxDrop)

/-- The answers with that to one question right. -/
def correct (q : Q) (rows : List (Row Q)) : List (Row Q) :=
  rows.map fun r => if r.id = q then { r with ok := true } else r

variable {rows candidateRows championRows : List (Row Q)} {q : Q} {alpha maxDrop : ℚ}

/-- When the gate lets a candidate pass. -/
structure Passes (candidateRows championRows : List (Row Q)) (alpha maxDrop : ℚ) : Prop where
  candidate : (graded candidateRows).keys.length = candidateRows.length
  champion : (graded championRows).keys.length = championRows.length
  same : (graded candidateRows).keys.toFinset = (graded championRows).keys.toFinset
  more : losses candidateRows championRows < wins candidateRows championRows
  noLuck : signTest (wins candidateRows championRows) (losses candidateRows championRows) < alpha
  noDrop : ∃ sCand sChamp, scores candidateRows = .ok sCand ∧ scores championRows = .ok sChamp ∧
    drops sCand sChamp maxDrop = []

theorem lopsided_eq_nil {wins losses : ℕ} {p : ℚ} :
    lopsided wins losses p alpha = [] ↔ losses < wins ∧ p < alpha := by
  unfold lopsided
  split_ifs with hmore hluck
  · simp [hmore]
  · simp [hluck]
  · simp [not_le.mp hmore, not_le.mp hluck]

theorem passes_iff : Passes candidateRows championRows alpha maxDrop ↔
    ∃ d, decide candidateRows championRows alpha maxDrop = .ok d ∧ d.passed := by
  constructor
  · rintro ⟨hcand, hchamp, hsame, hmore, hluck, sCand, sChamp, hscand, hschamp, hdrop⟩
    have hreasons := lopsided_eq_nil.mpr ⟨hmore, hluck⟩
    refine ⟨judge (wins candidateRows championRows) (losses candidateRows championRows) sCand sChamp
      alpha maxDrop, ?_, ?_⟩
    · rw [decide, if_neg (not_not.mpr hcand), if_neg (not_not.mpr hchamp),
        if_neg (not_not.mpr hsame),
        hscand, ok_bind, hschamp, ok_bind]
    · rw [judge, hreasons, hdrop]
      rfl
  · rintro ⟨d, hd, hpassed⟩
    dsimp only [decide] at hd
    split at hd
    · cases hd
    · rename_i hcand
      split at hd
      · cases hd
      · rename_i hchamp
        split at hd
        · cases hd
        · rename_i hsame
          obtain ⟨sCand, hscand, hd⟩ := bind_eq_ok.mp hd
          obtain ⟨sChamp, hschamp, hd⟩ := bind_eq_ok.mp hd
          cases hd
          obtain ⟨hlopsided, hdrop⟩ := List.append_eq_nil_iff.mp (List.isEmpty_iff.mp hpassed)
          obtain ⟨hmore, hluck⟩ := lopsided_eq_nil.mp hlopsided
          exact ⟨not_not.mp hcand, not_not.mp hchamp, not_not.mp hsame, hmore, hluck, sCand, sChamp,
            hscand, hschamp, hdrop⟩

/-! ## A corrected answer -/

theorem lookup_graded_correct (q : Q) (rows : List (Row Q)) (i : Q) :
    (graded (correct q rows)).lookup i =
      ((graded rows).lookup i).map fun ok => if i = q then true else ok := by
  suffices hfrom : ∀ d d' : Dict Q Bool,
      (∀ i, d'.lookup i = (d.lookup i).map fun ok => if i = q then true else ok) → ∀ i,
        ((correct q rows).foldl (fun d r => d.set r.id r.ok) d').lookup i =
          ((rows.foldl (fun d r => d.set r.id r.ok) d).lookup i).map
            fun ok => if i = q then true else ok from
    hfrom ∅ ∅ (fun i => by simp) i
  induction rows with
  | nil => exact fun d d' h => h
  | cons r rows ih =>
    intro d d' h
    refine ih _ _ fun i => ?_
    have hid : (if r.id = q then { r with ok := true } else r).id = r.id := by split <;> rfl
    rw [Dict.lookup_set, Dict.lookup_set, hid]
    by_cases hi : i = r.id
    · by_cases hq : r.id = q <;> simp [hi, hq]
    · rw [if_neg hi, if_neg hi, h]

/-- A corrected answer is to a question that was answered. -/
theorem keys_graded_correct (q : Q) (rows : List (Row Q)) :
    (graded (correct q rows)).keys.Perm (graded rows).keys := by
  refine (List.perm_ext_iff_of_nodup (AList.keys_nodup _) (AList.keys_nodup _)).mpr fun i => ?_
  rw [← AList.mem_keys, ← AList.mem_keys, ← AList.lookup_isSome, ← AList.lookup_isSome,
    lookup_graded_correct, Option.isSome_map]

/-- It makes no win less and no loss more. -/
theorem wins_correct (q : Q) (a b : List (Row Q)) :
    wins a b ≤ wins (correct q a) b ∧ losses (correct q a) b ≤ losses a b := by
  have hkeys := keys_graded_correct q a
  constructor
  · rw [wins, wins, only, only, hkeys.countP_eq]
    refine List.countP_mono_left fun i _ hi => ?_
    simp only [Bool.and_eq_true, decide_eq_true_eq] at hi ⊢
    rw [lookup_graded_correct, hi.1]
    exact ⟨by simp, hi.2⟩
  · rw [losses, losses, only, only, hkeys.countP_eq]
    refine List.countP_mono_left fun i _ hi => ?_
    simp only [Bool.and_eq_true, decide_eq_true_eq] at hi ⊢
    refine ⟨hi.1, ?_⟩
    obtain ⟨ok, hok, hfalse⟩ := Option.map_eq_some_iff.mp (lookup_graded_correct q a i ▸ hi.2)
    rw [hok]
    split at hfalse
    · cases hfalse
    · rw [hfalse]

section Scores
variable {q : Q} {src : String}

/-- The sources are those of the questions. -/
theorem filter_correct (q : Q) (rows : List (Row Q)) (src : String) :
    (correct q rows).filter (·.source = src) = correct q (rows.filter (·.source = src)) := by
  rw [correct, correct, List.filter_map]
  refine congrArg (List.map _) (List.filter_congr fun r _ => ?_)
  show Decidable.decide ((if r.id = q then { r with ok := true } else r).source = src) = _
  split <;> rfl

/-- The accuracy of answers does not fall. -/
theorem accuracy_le_correct (q : Q) (rows : List (Row Q)) :
    accuracy (rows.map (·.ok)) ≤ accuracy ((correct q rows).map (·.ok)) := by
  rw [accuracy, accuracy, correct, List.map_map, List.length_map, List.length_map]
  refine div_le_div_of_nonneg_right (Nat.cast_le.mpr ?_) (Nat.cast_nonneg _)
  rw [List.count_eq_countP, List.count_eq_countP, List.countP_map, List.countP_map]
  refine List.countP_mono_left fun r _ hr => ?_
  simp only [Function.comp_apply, beq_iff_eq] at hr ⊢
  split
  · rfl
  · exact hr

omit [DecidableEq Q] in
/-- Scores are given for any answers, and say the accuracy on their sources. -/
theorem scores_eq (hne : rows ≠ []) : ∃ s, scores rows = .ok s ∧ ∀ src, src ≠ "n" → src ≠ "ALL" →
    (s.lookup src).getD 0 = if ∃ r ∈ rows, r.source = src then
      accuracy ((rows.filter (·.source = src)).map (·.ok)) else 0 := by
  have hevery : ((bySource rows).values).flatten.length ≠ 0 := by
    obtain ⟨r, hr⟩ := List.exists_mem_of_ne_nil rows hne
    obtain ⟨hlookup, hmem⟩ := Dict.lookup_groupBy (l := rows) (j := r.source) Row.source Row.ok
    obtain ⟨oks, hoks⟩ := Option.isSome_iff_exists.mp
      (AList.lookup_isSome.mpr (hmem.mpr ⟨r, hr, rfl⟩))
    rw [hoks, Option.getD_some] at hlookup
    have hok : r.ok ∈ oks := by
      rw [hlookup]
      exact List.mem_map_of_mem (List.mem_filter.mpr ⟨hr, by simp⟩)
    have hflat : r.ok ∈ ((bySource rows).values).flatten :=
      List.mem_flatten.mpr ⟨oks, Dict.mem_values.mpr ⟨_, hoks⟩, hok⟩
    exact (List.length_pos_of_mem hflat).ne'
  refine ⟨_, if_neg hevery, fun src hn hall => ?_⟩
  obtain ⟨hlookup, hmem⟩ := Dict.lookup_groupBy (l := rows) (j := src) Row.source Row.ok
  have hkeys : src ∈ (bySource rows).keys.insertionSort (· ≤ ·) ↔ ∃ r ∈ rows, r.source = src := by
    rw [List.mem_insertionSort, ← AList.mem_keys]
    exact hmem
  rw [Dict.lookup_foldl_set]
  by_cases hsrc : ∃ r ∈ rows, r.source = src
  · rw [if_pos (hkeys.mpr hsrc), if_pos hsrc, Option.getD_some]
    exact congrArg accuracy hlookup
  · rw [if_neg fun h => hsrc (hkeys.mp h), if_neg hsrc, Dict.lookup_set_ne _ _ hall,
      Dict.lookup_set_ne _ _ hn]
    rfl

/-- No score falls. -/
theorem scores_correct {s : Dict String ℚ} (q : Q) (h : scores rows = .ok s) :
    ∃ s', scores (correct q rows) = .ok s' ∧ ∀ src, src ≠ "n" → src ≠ "ALL" →
      (s.lookup src).getD 0 ≤ (s'.lookup src).getD 0 := by
  have hne : rows ≠ [] := by
    rintro rfl
    cases h
  have hne' : correct q rows ≠ [] := fun hnil => hne (List.map_eq_nil_iff.mp hnil)
  obtain ⟨s₁, hs₁, hlookup⟩ := scores_eq hne
  obtain rfl : s₁ = s := Except.ok.inj (hs₁.symm.trans h)
  obtain ⟨s', hs', hlookup'⟩ := scores_eq hne'
  refine ⟨s', hs', fun src hn hall => ?_⟩
  have hsource : (∃ r ∈ correct q rows, r.source = src) ↔ ∃ r ∈ rows, r.source = src := by
    simp only [correct, List.mem_map, exists_exists_and_eq_and]
    refine exists_congr fun r => and_congr_right fun _ => ?_
    split <;> rfl
  rw [hlookup src hn hall, hlookup' src hn hall, filter_correct]
  simp only [hsource]
  split
  · exact accuracy_le_correct q _
  · exact le_rfl

/-- A better candidate drops on no more sources. -/
theorem drops_eq_nil {sCand sCand' sChamp : Dict String ℚ}
    (hle : ∀ src, src ≠ "n" → src ≠ "ALL" → (sCand.lookup src).getD 0 ≤ (sCand'.lookup src).getD 0)
    (h : drops sCand sChamp maxDrop = []) : drops sCand' sChamp maxDrop = [] := by
  rw [drops, List.filterMap_eq_nil_iff] at h ⊢
  intro src hsrc
  have hnone := h src hsrc
  split at hnone
  · rename_i hskip
    exact if_pos hskip
  · rename_i hskip
    rw [if_neg hskip]
    obtain ⟨hn, hall⟩ := not_or.mp hskip
    refine if_neg fun hdrop => ?_
    have hround := Rounding.round_mono 9 (sub_le_sub_left (hle src hn hall)
      ((sChamp.lookup src).getD 0))
    simp only [hdrop.trans_le hround, if_true] at hnone
    cases hnone

end Scores

/-- A candidate that passes passes with another right answer. -/
theorem Passes.correct (h : Passes candidateRows championRows alpha maxDrop) (q : Q) :
    Passes (correct q candidateRows) championRows alpha maxDrop := by
  obtain ⟨sCand, sChamp, hscand, hschamp, hdrop⟩ := h.noDrop
  obtain ⟨sCand', hscand', hle⟩ := scores_correct q hscand
  obtain ⟨hwins, hlosses⟩ := wins_correct q candidateRows championRows
  have hkeys := keys_graded_correct q candidateRows
  refine ⟨?_, h.champion, ?_, hlosses.trans_lt (h.more.trans_le hwins), ?_, sCand', sChamp, hscand',
    hschamp, drops_eq_nil hle hdrop⟩
  · rw [hkeys.length_eq, h.candidate, Promote.correct, List.length_map]
  · rw [List.toFinset_eq_of_perm _ _ hkeys, h.same]
  · exact (signTest_anti hwins hlosses h.more.le).trans_lt h.noLuck

end Gate

/-- The gate is monotone: a loss that becomes a tie, or a tie that becomes a win, does not raise the
p-value, and an answer that becomes right never turns a pass into a rejection or an error. -/
theorem pass_of_correct {Q : Type} [DecidableEq Q] {candidateRows championRows : List (Row Q)}
    {alpha maxDrop : ℚ} {d : Decision}
    (h : decide candidateRows championRows alpha maxDrop = .ok d) (hpassed : d.passed) (q : Q) :
    (∀ w l, l + 1 < w → signTest w l ≤ signTest w (l + 1)) ∧
    (∀ w l, l < w → signTest (w + 1) l ≤ signTest w l) ∧
    losses (correct q candidateRows) championRows < wins (correct q candidateRows) championRows ∧
    ∃ d', decide (correct q candidateRows) championRows alpha maxDrop = .ok d' ∧ d'.passed := by
  have hpasses := (passes_iff.mpr ⟨d, h, hpassed⟩).correct q
  exact ⟨fun _ _ hw => signTest_le_of_tie hw.le, fun _ _ hw => signTest_le_of_win hw.le,
    hpasses.more, passes_iff.mp hpasses⟩

/-- Two questions that only the candidate gets right, and a third. -/
theorem pass_of_correct_two :
    ∃ d', decide (correct 2 [⟨0, "tatqa", true⟩, ⟨1, "tatqa", true⟩, ⟨2, "tatqa", false⟩])
      [⟨0, "tatqa", false⟩, ⟨1, "tatqa", false⟩, ⟨2, "tatqa", false⟩] 1 0 = .ok d' ∧ d'.passed := by
  have hpasses : Passes [⟨0, "tatqa", true⟩, ⟨1, "tatqa", true⟩, ⟨2, "tatqa", false⟩]
      [⟨0, "tatqa", false⟩, ⟨1, "tatqa", false⟩, ⟨2, "tatqa", false⟩] 1 0 := by
    refine ⟨by decide, by decide, by decide, by decide, ?_, ?_⟩
    · rw [show wins _ _ = 2 by decide, show losses _ _ = 0 by decide, signTest_eq (Nat.zero_le 2)]
      norm_num [tail]
    · exact ⟨_, _, rfl, rfl, by decide +kernel⟩
  obtain ⟨d, hd, hpassed⟩ := passes_iff.mp hpasses
  exact (pass_of_correct hd hpassed 2).2.2.2

end Promote

end LightServe
