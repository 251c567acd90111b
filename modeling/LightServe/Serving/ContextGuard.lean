import LightServe.Serving.ModelStep

/-!
# The context-length guard

`_build_flat_batch` checks the last position of the flattened batch against the rotary table. The
positions of a request ascend, so the check covers the last request that has rows. A request before
it that runs past the table goes unnoticed.

## Main definitions

* `ModelRunner.Guarded` — the guard raises exactly when some position is past the table.
* `ModelRunner.LastDecides` — the last request with rows is past the table if any is.
* `ModelRunner.guarded_iff` — the guard is right exactly on these batches.
-/

namespace LightServe

namespace ModelRunner
variable {m : ModelRunner} {maxLen : ℕ} {scheduled : List (Request × ℕ)}

/-- Some row of the batch is at position `p`. -/
def Schedules (scheduled : List (Request × ℕ)) (p : ℕ) : Prop :=
  ∃ rn ∈ scheduled, rn.1.numComputedTokens - rn.2 ≤ p ∧ p < rn.1.numComputedTokens

/-- What the guard is for: it raises exactly when some row of the batch is past the table, and every
position of a batch that it lets through is in the table. -/
structure Guarded (m : ModelRunner) (maxLen : ℕ) (scheduled : List (Request × ℕ)) : Prop where
  raises : (∃ p, m.buildFlatBatch scheduled = .error (.exceedsModelLen p maxLen)) ↔
    ∃ p, Schedules scheduled p ∧ maxLen ≤ p
  returns : ∀ ranges, m.buildFlatBatch scheduled = .ok ranges →
    ∀ f ∈ ranges, ∀ p ∈ positions f, p < maxLen

/-- A request's share of a batch: rows among its computed tokens, and in a verify round one for each
draft token and one more, from a committed token. -/
def Batched (rn : Request × ℕ) : Prop := rn.2 ≤ rn.1.numComputedTokens ∧ Rowed rn.1 rn.2

instance (rn : Request × ℕ) : Decidable (Batched rn) :=
  inferInstanceAs (Decidable (_ ≤ _ ∧ (_ ≠ [] → _ = _ ∧ _ < _)))

/-- Where the requests of a batch that have rows end. -/
def ends (scheduled : List (Request × ℕ)) : List ℕ :=
  (scheduled.filter fun rn => 0 < rn.2).map fun rn => rn.1.numComputedTokens

/-- The last request that has rows ends past the table, or none does. -/
def LastDecides (maxLen : ℕ) (scheduled : List (Request × ℕ)) : Prop :=
  (∃ last ∈ (ends scheduled).getLast?, maxLen < last) ∨ ∀ e ∈ ends scheduled, e ≤ maxLen

/-! ## The last position -/

theorem mem_ends {e : ℕ} :
    e ∈ ends scheduled ↔ ∃ rn ∈ scheduled, 0 < rn.2 ∧ rn.1.numComputedTokens = e := by
  simp only [ends, List.mem_map, List.mem_filter, decide_eq_true_eq, and_assoc]

theorem ends_cons (rn : Request × ℕ) (scheduled : List (Request × ℕ)) : ends (rn :: scheduled) =
    if 0 < rn.2 then rn.1.numComputedTokens :: ends scheduled else ends scheduled := by
  rw [ends, List.filter_cons]
  by_cases hpos : 0 < rn.2 <;> simp [hpos, ends]

/-- The last row of a request is right before its end. -/
private theorem getLast?_positions {r : Request} {n : ℕ} {f : FlatRange} (h : IsRange r n f)
    (hn : n ≤ r.numComputedTokens) :
    (positions f).getLast? = if 0 < n then some (r.numComputedTokens - 1) else none := by
  have hlen : f.seqEnd - f.seqStart = n := by
    rw [h.seqEnd, h.seqStart]
    omega
  rw [positions, hlen]
  by_cases hpos : 0 < n
  · obtain ⟨k, rfl⟩ := Nat.exists_eq_add_of_le' hpos
    rw [if_pos hpos, List.range'_concat, List.getLast?_concat, h.seqStart, Nat.one_mul]
    congr 1
    omega
  · obtain rfl : n = 0 := by omega
    rfl

/-- The last position of the batch is right before the end of the last request with rows. -/
private theorem getLast?_flatMap_positions {ranges : List FlatRange}
    (h : List.Forall₂ (fun rn f => IsRange rn.1 rn.2 f) scheduled ranges)
    (hb : ∀ rn ∈ scheduled, Batched rn) :
    (ranges.flatMap positions).getLast? = (ends scheduled).getLast?.map fun e => e - 1 := by
  induction h with
  | nil => rfl
  | @cons rn f scheduled ranges hrange _ ih =>
    obtain ⟨hrn, hb⟩ := List.forall_mem_cons.mp hb
    rw [List.flatMap_cons, List.getLast?_append, ih hb, getLast?_positions hrange hrn.1, ends_cons]
    by_cases hpos : 0 < rn.2
    · rw [if_pos hpos, if_pos hpos, List.getLast?_cons]
      cases (ends scheduled).getLast? <;> rfl
    · rw [if_neg hpos, if_neg hpos, Option.or_none]

/-- A batch goes past the table exactly when one of its requests ends past it. -/
theorem exists_schedules_iff (hb : ∀ rn ∈ scheduled, Batched rn) :
    (∃ p, Schedules scheduled p ∧ maxLen ≤ p) ↔ ∃ e ∈ ends scheduled, maxLen < e := by
  constructor
  · rintro ⟨p, ⟨rn, hrn, hlo, hhi⟩, hp⟩
    exact ⟨_, mem_ends.mpr ⟨rn, hrn, by omega, rfl⟩, by omega⟩
  · rintro ⟨e, he, hlt⟩
    obtain ⟨rn, hrn, hpos, rfl⟩ := mem_ends.mp he
    have := (hb rn hrn).1
    exact ⟨rn.1.numComputedTokens - 1, ⟨rn, hrn, by omega, by omega⟩, by omega⟩

/-! ## The guard -/

/-- What the guard looks at. -/
theorem buildFlatBatch_eq (hlen : m.maxModelLen = some maxLen) (hb : ∀ rn ∈ scheduled, Batched rn) :
    ∃ ranges, List.Forall₂ (fun rn f => IsRange rn.1 rn.2 f) scheduled ranges ∧
      m.buildFlatBatch scheduled = match (ends scheduled).getLast? with
        | none => .ok ranges
        | some e =>
          if e - 1 ≥ maxLen then .error (.exceedsModelLen (e - 1) maxLen) else .ok ranges := by
  obtain ⟨ranges, hranges⟩ := flatLoop_returns (fun rn hrn => (hb rn hrn).2) 0
  have hall := forall_isRange hranges
  refine ⟨ranges, hall, ?_⟩
  rw [buildFlatBatch, hranges, ok_bind, hlen, getLast?_flatMap_positions hall hb]
  cases (ends scheduled).getLast? with
  | none => rfl
  | some e =>
    rw [Option.map_some]
    dsimp only
    split <;> rfl

/-- An end is past the table when its last row is. -/
private theorem past_iff (hb : ∀ rn ∈ scheduled, Batched rn) {e : ℕ} (he : e ∈ ends scheduled) :
    e - 1 ≥ maxLen ↔ maxLen < e := by
  obtain ⟨rn, hrn, hpos, rfl⟩ := mem_ends.mp he
  have := (hb rn hrn).1
  omega

/-- The guard is right about a batch exactly when the last request with rows is past the table as
soon as any request is. -/
theorem guarded_iff (hlen : m.maxModelLen = some maxLen) (hb : ∀ rn ∈ scheduled, Batched rn) :
    m.Guarded maxLen scheduled ↔ LastDecides maxLen scheduled := by
  obtain ⟨ranges, hall, hbatch⟩ := buildFlatBatch_eq hlen hb
  have hraises : (∃ p, m.buildFlatBatch scheduled = .error (.exceedsModelLen p maxLen)) ↔
      ∃ last ∈ (ends scheduled).getLast?, maxLen < last := by
    rw [hbatch]
    cases hlast : (ends scheduled).getLast? with
    | none => simp
    | some e =>
      have hpast := @past_iff maxLen _ hb _ (List.mem_of_getLast? hlast)
      by_cases h : e - 1 ≥ maxLen
      · simp [h, hpast.mp h]
      · simp [h, not_lt.mp (mt hpast.mpr h)]
  constructor
  · intro hg
    by_cases hlast : ∃ last ∈ (ends scheduled).getLast?, maxLen < last
    · exact .inl hlast
    · refine .inr fun e he => not_lt.mp fun hlt => hlast ?_
      exact hraises.mp (hg.raises.mpr ((exists_schedules_iff hb).mpr ⟨e, he, hlt⟩))
  · intro hd
    have hmem : (∃ last ∈ (ends scheduled).getLast?, maxLen < last) ↔
        ∃ e ∈ ends scheduled, maxLen < e := by
      constructor
      · rintro ⟨last, hlast, hlt⟩
        exact ⟨last, List.mem_of_getLast? hlast, hlt⟩
      · rintro ⟨e, he, hlt⟩
        rcases hd with hlast | hnone
        · exact hlast
        · exact absurd hlt (not_lt.mpr (hnone e he))
    refine ⟨hraises.trans (hmem.trans (exists_schedules_iff hb).symm),
      fun ranges' hok f hf p hp => ?_⟩
    by_contra hge
    have hno : ¬ ∃ last ∈ (ends scheduled).getLast?, maxLen < last := by
      rw [← hraises]
      rintro ⟨q, hq⟩
      cases hq.symm.trans hok
    have hranges : ranges' = ranges := by
      rw [hbatch] at hok
      split at hok
      · exact (Except.ok.inj hok).symm
      · split at hok
        · cases hok
        · exact (Except.ok.inj hok).symm
    subst hranges
    obtain ⟨rn, hrn, hrange⟩ := exists_of_mem_forall₂ hall hf
    rw [positions, List.mem_range'_1, hrange.seqStart, hrange.seqEnd] at hp
    refine hno (hmem.mpr ((exists_schedules_iff hb).mp ⟨p, ⟨rn, hrn, hp.1, ?_⟩, ?_⟩))
    · have := (hb rn hrn).1
      omega
    · omega

/-- A decode step and, first in the batch, the chunk of a prompt that runs past the table. -/
def longThenShort : List (Request × ℕ) :=
  [({ requestId := 0, promptTokenIds := [1, 1, 1, 1], numComputedTokens := 4 }, 2),
    ({ requestId := 1, promptTokenIds := [1], numComputedTokens := 1 }, 1)]

/-- In the other order the guard raises. -/
theorem guarded_iff_of_short_first :
    Guarded { next := fun _ => 0, maxModelLen := some 3 } 3 longThenShort.reverse :=
  (guarded_iff rfl (by decide)).mpr (.inl ⟨4, by decide⟩)

/-- A long request in front of a short one passes the guard. -/
theorem long_request_passes : ¬ ∀ (m : ModelRunner) (maxLen : ℕ) (scheduled : List (Request × ℕ)),
    m.maxModelLen = some maxLen → (∀ rn ∈ scheduled, Batched rn) → m.Guarded maxLen scheduled := by
  intro h
  have hguarded := h { next := fun _ => 0, maxModelLen := some 3 } 3 longThenShort rfl (by decide)
  have hno : ¬ ∃ p, buildFlatBatch { next := fun _ => 0, maxModelLen := some 3 } longThenShort =
      .error (.exceedsModelLen p 3) := by
    rintro ⟨p, hp⟩
    cases hp
  exact hno (hguarded.raises.mpr ⟨3, ⟨longThenShort[0], by decide, by decide, by decide⟩, le_rfl⟩)

end ModelRunner

end LightServe
