import LightServe.Lib.Decode
import LightServe.Lib.Except
import LightServe.Lib.Keyed
import LightServe.Model.LLMEngine
import Mathlib.Data.List.Basic

/-!
# The model step

What one forward pass commits. The flat batch gives every scheduled request the rows of its
own tokens, whatever else is in it, so that a request commits the same tokens as it would if
it were scheduled alone.

## Main definitions

* `ModelRunner.sample` — what a request commits, from its own tokens alone.
* `Placed` — the rows of a scheduled request lie within its tokens.
* `ModelRunner.executeModel_eq` — a pass that returned committed every request's own sample.
* `ModelRunner.Covers` — the tables of the forward pass cover a request.
* `ModelRunner.executeModel_returns` — when a pass returns.
-/

namespace LightServe

open Decode

namespace ModelRunner

/-- What a request commits when the last `n` of its computed tokens are run: nothing inside
the prompt, a verified draft in a verify round, and the next token otherwise. -/
def sample (m : ModelRunner) (r : Request) (n : ℕ) : List Token :=
  if r.isPrefill then []
  else if r.draftTokenIds ≠ [] then
    verify m.next (r.allTokenIds.take (r.numComputedTokens - n + 1)) r.draftTokenIds
  else [m.next (r.allTokenIds.take r.numComputedTokens)]

end ModelRunner

/-- The rows of a scheduled request: at least one, and the request's own tokens unless it
verifies a draft. -/
structure Placed (r : Request) (n : ℕ) : Prop where
  pos : 0 < n
  le_computed : n ≤ r.numComputedTokens
  computed_le : r.draftTokenIds = [] → r.numComputedTokens ≤ r.getLen

/-! ## The verify rule -/

private theorem acceptLoop_eq (next : List Token → Token) (ctx draft : List Token) :
    acceptLoop (next (ctx ++ draft)) draft
      ((List.range draft.length).map fun j => next (ctx ++ draft.take j)) =
        verify next ctx draft := by
  induction draft generalizing ctx with
  | nil => simp [acceptLoop, verify]
  | cons d draft ih =>
    have hrest : (List.range draft.length).map
        ((fun j => next (ctx ++ (d :: draft).take j)) ∘ Nat.succ) =
        (List.range draft.length).map fun j => next (ctx ++ [d] ++ draft.take j) :=
      List.map_congr_left fun j _ => by simp
    rw [List.length_cons, List.range_succ_eq_map, List.map_cons, List.map_map, hrest, acceptLoop,
      List.append_cons, ih, verify]
    simp

/-- Over the rows of a verify round, the accept rule keeps what a greedy check keeps. -/
theorem acceptReject_eq (next : List Token → Token) (ctx draft : List Token) :
    acceptReject draft ((List.range (draft.length + 1)).map fun j => next (ctx ++ draft.take j)) =
      .ok (verify next ctx draft) := by
  rw [List.range_succ, List.map_append, List.map_singleton, acceptReject, List.getLast?_concat,
    List.dropLast_concat, List.take_length, ← acceptLoop_eq]

/-! ## The flat batch -/

namespace ModelRunner

/-- The part of the flat batch that belongs to `n` rows of a request. -/
structure IsRange (r : Request) (n : ℕ) (f : FlatRange) : Prop where
  request : f.request = r
  inputIds : inputIds r n f.seqStart f.seqEnd = .ok f.inputIds
  seqStart : f.seqStart = r.numComputedTokens - n
  seqEnd : f.seqEnd = r.numComputedTokens
  flatEnd : f.flatEnd = f.flatStart + n

variable {m : ModelRunner} {r : Request} {n : ℕ} {f : FlatRange}

/-- A drafted request runs one row for each draft token and one more. -/
theorem IsRange.drafted (h : IsRange r n f) (hd : r.draftTokenIds ≠ []) :
    n = r.draftTokenIds.length + 1 ∧ ∃ t, r.allTokenIds[f.seqStart]? = some t ∧
      f.inputIds = t :: r.draftTokenIds := by
  have hin := h.inputIds
  unfold ModelRunner.inputIds at hin
  rw [if_pos hd] at hin
  split at hin
  · rename_i hn
    split at hin
    · cases hin
    · rename_i t ht
      exact ⟨hn, t, ht, (Except.ok.inj hin).symm⟩
  · cases hin

theorem IsRange.undrafted (h : IsRange r n f) (hd : r.draftTokenIds = []) :
    f.inputIds = (r.allTokenIds.take f.seqEnd).drop f.seqStart := by
  have hin := h.inputIds
  unfold ModelRunner.inputIds at hin
  rw [if_neg (not_not.mpr hd)] at hin
  exact (Except.ok.inj hin).symm

theorem IsRange.length_rowTokens (h : IsRange r n f) (hp : Placed r n) :
    (m.rowTokens f).length = n := by
  rw [rowTokens, List.length_map, List.length_range]
  by_cases hd : r.draftTokenIds = []
  · rw [h.undrafted hd, List.length_drop, List.length_take, h.seqStart, h.seqEnd,
      Request.length_allTokenIds]
    have := hp.le_computed
    have := hp.computed_le hd
    omega
  · obtain ⟨hn, t, -, hin⟩ := h.drafted hd
    rw [hin, List.length_cons, hn]

/-- The rows of a verify round see the request's tokens up to the first row, and then the
drafts. -/
private theorem IsRange.rowTokens_drafted (h : IsRange r n f) (hd : r.draftTokenIds ≠ []) :
    m.rowTokens f = (List.range (r.draftTokenIds.length + 1)).map fun j =>
      m.next (r.allTokenIds.take (r.numComputedTokens - n + 1) ++ r.draftTokenIds.take j) := by
  obtain ⟨hn, t, ht, hin⟩ := h.drafted hd
  rw [rowTokens, hin, List.length_cons, h.request, ← h.seqStart]
  refine List.map_congr_left fun j _ => ?_
  rw [List.take_succ_cons, List.take_add_one (i := f.seqStart), ht, Option.toList_some,
    List.append_assoc, List.singleton_append]

/-- The last row of plain rows sees all computed tokens. -/
private theorem IsRange.rowTokens_last (h : IsRange r n f) (hp : Placed r n)
    (hd : r.draftTokenIds = []) :
    (m.rowTokens f)[n - 1]? = some (m.next (r.allTokenIds.take r.numComputedTokens)) := by
  have hlen := h.length_rowTokens (m := m) hp
  rw [rowTokens, List.length_map, List.length_range] at hlen
  have hpos := hp.pos
  rw [rowTokens, List.getElem?_map, List.getElem?_range (by omega), Option.map_some,
    Nat.sub_add_cancel hpos, ← hlen, List.take_length, h.undrafted hd, h.request, h.seqEnd,
    h.seqStart]
  congr 2
  have hdrop := List.take_append_drop (r.numComputedTokens - n)
    (r.allTokenIds.take r.numComputedTokens)
  rwa [List.take_take, Nat.min_eq_left (Nat.sub_le _ _)] at hdrop

/-- Among the rows of the batch, a verify round finds its own. -/
theorem IsRange.committed_drafted (h : IsRange r n f) (hd : r.draftTokenIds ≠ [])
    {pre post : List Token} (hpre : pre.length = f.flatStart) :
    committed (pre ++ (m.rowTokens f ++ post)) f = .ok (m.sample r n) := by
  have hlen : (m.rowTokens f).length = n := by
    obtain ⟨hn, t, -, hin⟩ := h.drafted hd
    rw [rowTokens, List.length_map, List.length_range, hin, List.length_cons, hn]
  have hslice : ((pre ++ (m.rowTokens f ++ post)).take f.flatEnd).drop f.flatStart =
      m.rowTokens f := by
    rw [h.flatEnd, ← hpre, List.take_length_add_append, List.drop_left, ← hlen, List.take_left]
  rw [committed, h.request, sample, if_pos hd, if_pos hd, hslice, h.rowTokens_drafted hd,
    acceptReject_eq]
  split <;> rfl

/-- Among the rows of the batch, a request finds its own. -/
theorem IsRange.committed_eq (h : IsRange r n f) (hp : Placed r n) {pre post : List Token}
    (hpre : pre.length = f.flatStart) :
    committed (pre ++ (m.rowTokens f ++ post)) f = .ok (m.sample r n) := by
  by_cases hd : r.draftTokenIds = []
  · have hlen := h.length_rowTokens (m := m) hp
    have hrow : (pre ++ (m.rowTokens f ++ post))[f.flatEnd - 1]? = (m.rowTokens f)[n - 1]? := by
      have hpos := hp.pos
      rw [h.flatEnd, ← hpre, Nat.add_sub_assoc hpos, List.getElem?_append_right (by omega),
        Nat.add_sub_cancel_left, List.getElem?_append_left (by omega)]
    rw [committed, h.request, sample, if_neg (not_not.mpr hd), if_neg (not_not.mpr hd), hrow,
      h.rowTokens_last hp hd]
    split <;> rfl
  · exact h.committed_drafted hd hpre

/-- The commit of a scheduled request's own sample. -/
def commitOf (m : ModelRunner) (rn : Request × ℕ) : RequestId × (Request → Request) :=
  (rn.1.requestId, commit (m.sample rn.1 rn.2))

/-- The commit loop over a flat batch commits every request's own sample, whatever the rows
before the batch. -/
theorem commitLoop_eq {cursor : ℕ} {scheduled : List (Request × ℕ)} {ranges : List FlatRange}
    (h : flatLoop cursor scheduled = .ok ranges) (hp : ∀ rn ∈ scheduled, Placed rn.1 rn.2)
    (pre : List Token) (hpre : pre.length = cursor) (s : Scheduler) :
    s.commitLoop (pre ++ ranges.flatMap m.rowTokens) ranges = .ok { s with
      running := Keyed.updateAll Request.requestId (scheduled.map m.commitOf) s.running } := by
  induction scheduled generalizing cursor ranges pre s with
  | nil => cases h; rfl
  | cons rn scheduled ih =>
    obtain ⟨hplaced, hp⟩ := List.forall_mem_cons.mp hp
    obtain ⟨ids, hids, hrest⟩ := bind_eq_ok.mp h
    obtain ⟨ranges, hranges, hret⟩ := bind_eq_ok.mp hrest
    cases hret
    have hrange : IsRange rn.1 rn.2
        { request := rn.1, inputIds := ids, seqStart := rn.1.numComputedTokens - rn.2
          seqEnd := rn.1.numComputedTokens, flatStart := cursor, flatEnd := cursor + rn.2 } :=
      ⟨rfl, hids, rfl, rfl, rfl⟩
    rw [Scheduler.commitLoop, List.flatMap_cons, hrange.committed_eq hplaced hpre, ok_bind,
      ← List.append_assoc]
    refine (ih hranges hp _ ?_ _).trans rfl
    rw [List.length_append, hpre, hrange.length_rowTokens hplaced]

end ModelRunner

/-! ## The pass -/

/-- How many tokens an output schedules for a request. -/
def SchedulerOutput.tokensOf (out : SchedulerOutput) (id : RequestId) : Option ℕ :=
  (out.scheduled.find? fun sr => sr.request = id).map ScheduledRequest.numScheduledTokens

namespace Scheduler
variable {s : Scheduler} {r : Request}

theorem updateOf_resolve (m : ModelRunner) (hr : s.findRequest r.requestId = some r)
    (scheduled : List ScheduledRequest) :
    Keyed.updateOf ((s.resolve scheduled).map m.commitOf) r.requestId =
      (scheduled.find? fun sr => sr.request = r.requestId).map fun sr =>
        ModelRunner.commit (m.sample r sr.numScheduledTokens) := by
  induction scheduled with
  | nil => rfl
  | cons sr scheduled ih =>
    by_cases hid : sr.request = r.requestId
    · simp [resolve, Keyed.updateOf, hid, hr, ModelRunner.commitOf]
    · rw [List.find?_cons_of_neg (by simpa using hid), ← ih]
      cases hq : s.findRequest sr.request with
      | none => simp [resolve, hq]
      | some q =>
        have hqid : q.requestId = sr.request := by simpa using List.find?_some hq
        simp [resolve, Keyed.updateOf, hq, ModelRunner.commitOf, hqid, hid]

theorem resolve_ids_sublist (s : Scheduler) (scheduled : List ScheduledRequest) :
    ((s.resolve scheduled).map fun rn => rn.1.requestId).Sublist
      (scheduled.map ScheduledRequest.request) := by
  induction scheduled with
  | nil => simp [resolve]
  | cons sr scheduled ih =>
    cases hq : s.findRequest sr.request with
    | none => simpa [resolve, hq] using ih.cons sr.request
    | some q =>
      have hqid : q.requestId = sr.request := by simpa using List.find?_some hq
      simpa [resolve, hq, hqid] using ih.cons_cons sr.request

theorem findRequest_of_mem (hnodup : (s.running.map Request.requestId).Nodup) (hr : r ∈ s.running) :
    s.findRequest r.requestId = some r := by
  cases hq : s.findRequest r.requestId with
  | none =>
    have hnone := List.find?_eq_none.mp hq r hr
    simp at hnone
  | some q =>
    have hqid : q.requestId = r.requestId := by simpa using List.find?_some hq
    rw [List.inj_on_of_nodup_map hnodup (List.mem_of_find?_eq_some hq) hr hqid]

end Scheduler

namespace ModelRunner
variable {m : ModelRunner} {s s' : Scheduler} {out : SchedulerOutput}

@[simp] theorem commit_requestId (tokens : List Token) (r : Request) :
    (commit tokens r).requestId = r.requestId := by
  unfold commit Request.maybeFinish
  split
  · rfl
  · split
    · rfl
    · split <;> rfl

/-- Commit what a request samples, if it is scheduled. -/
def serve (m : ModelRunner) (out : SchedulerOutput) (r : Request) : Request :=
  (out.tokensOf r.requestId).elim r fun n => commit (m.sample r n) r

/-- A flat batch is what the loop built; the check on its last position changes nothing. -/
theorem flatLoop_of_buildFlatBatch {scheduled : List (Request × ℕ)} {ranges : List FlatRange}
    (h : m.buildFlatBatch scheduled = .ok ranges) : flatLoop 0 scheduled = .ok ranges := by
  obtain ⟨ranges', hranges, hcheck⟩ := bind_eq_ok.mp h
  rw [hranges]
  split at hcheck
  · split at hcheck
    · cases hcheck
    · exact hcheck
  · exact hcheck

/-- A forward pass that returned committed to every scheduled request its own sample. -/
theorem executeModel_eq (hnodup : (s.running.map Request.requestId).Nodup)
    (hout : (out.scheduled.map ScheduledRequest.request).Nodup)
    (hp : ∀ rn ∈ s.resolve out.scheduled, Placed rn.1 rn.2)
    (h : m.executeModel s out = .ok s') :
    s' = { s with running := s.running.map (m.serve out) } := by
  obtain ⟨ranges, hbatch, hrest⟩ := bind_eq_ok.mp h
  obtain ⟨-, -, hloop⟩ := bind_eq_ok.mp hrest
  have hloop' := commitLoop_eq (m := m) (flatLoop_of_buildFlatBatch hbatch) hp [] rfl s
  rw [List.nil_append] at hloop'
  rw [← Except.ok.inj (hloop'.symm.trans hloop)]
  congr 1
  rw [Keyed.updateAll_eq_map]
  · refine List.map_congr_left fun r hr => ?_
    rw [s.updateOf_resolve m (Scheduler.findRequest_of_mem hnodup hr), serve,
      SchedulerOutput.tokensOf, Option.elim_map, Option.elim_map]
    rfl
  · rw [List.map_map]
    exact (s.resolve_ids_sublist out.scheduled).nodup hout
  · intro u hu r
    obtain ⟨rn, -, rfl⟩ := List.mem_map.mp hu
    exact commit_requestId _ r

/-! ## When a pass returns -/

/-- The tables of the forward pass cover a request: its computed positions and its tokens. -/
def Covers (m : ModelRunner) (r : Request) : Prop :=
  (∀ n ∈ m.maxModelLen, r.numComputedTokens ≤ n) ∧
    ∀ n ∈ m.vocabSize, ∀ t ∈ r.allTokenIds ++ r.draftTokenIds, 0 ≤ t ∧ t < n

/-- The forward pass as a total function of the prefix. -/
def Unbounded (m : ModelRunner) : Prop := m.maxModelLen = none ∧ m.vocabSize = none

theorem Unbounded.covers (h : m.Unbounded) (r : Request) : m.Covers r := by
  refine ⟨fun n hn => ?_, fun n hn => ?_⟩
  · rw [h.1] at hn
    cases hn
  · rw [h.2] at hn
    cases hn

/-- A verify round runs one row for each draft token and one more, from a committed token. -/
def Rowed (r : Request) (n : ℕ) : Prop :=
  r.draftTokenIds ≠ [] → n = r.draftTokenIds.length + 1 ∧ r.numComputedTokens - n < r.getLen

private theorem inputIds_isOk {r : Request} {n : ℕ} (h : Rowed r n) :
    ∃ ids, inputIds r n (r.numComputedTokens - n) r.numComputedTokens = .ok ids := by
  unfold inputIds
  split
  · rename_i hd
    obtain ⟨hn, hlt⟩ := h hd
    rw [if_pos hn, List.getElem?_eq_getElem (by rwa [Request.length_allTokenIds])]
    exact ⟨_, rfl⟩
  · exact ⟨_, rfl⟩

/-- The ranges of the flat batch belong to the scheduled requests, one each. -/
theorem forall_isRange {cursor : ℕ} {scheduled : List (Request × ℕ)} {ranges : List FlatRange}
    (h : flatLoop cursor scheduled = .ok ranges) :
    List.Forall₂ (fun rn f => IsRange rn.1 rn.2 f) scheduled ranges := by
  induction scheduled generalizing cursor ranges with
  | nil => cases h; exact .nil
  | cons rn scheduled ih =>
    obtain ⟨ids, hids, hrest⟩ := bind_eq_ok.mp h
    obtain ⟨ranges, hranges, hret⟩ := bind_eq_ok.mp hrest
    cases hret
    exact .cons ⟨rfl, hids, rfl, rfl, rfl⟩ (ih hranges)

/-- A flat batch is built when every verify round has its rows. -/
theorem flatLoop_returns {scheduled : List (Request × ℕ)}
    (h : ∀ rn ∈ scheduled, Rowed rn.1 rn.2) (cursor : ℕ) :
    ∃ ranges, flatLoop cursor scheduled = .ok ranges := by
  induction scheduled generalizing cursor with
  | nil => exact ⟨[], rfl⟩
  | cons rn scheduled ih =>
    obtain ⟨hrn, h⟩ := List.forall_mem_cons.mp h
    obtain ⟨ranges, hranges⟩ := ih h (cursor + rn.2)
    obtain ⟨ids, hids⟩ := inputIds_isOk hrn
    exact ⟨_, bind_eq_ok.mpr ⟨ids, hids, bind_eq_ok.mpr ⟨ranges, hranges, rfl⟩⟩⟩

/-- The tables cover the rows of a request they cover. -/
theorem IsRange.readable {r : Request} {n : ℕ} {f : FlatRange} (h : IsRange r n f)
    (hp : Placed r n) (hc : m.Covers r) : m.Readable f := by
  have hpos := hp.pos
  have hlen := h.length_rowTokens (m := m) hp
  rw [rowTokens, List.length_map, List.length_range] at hlen
  refine ⟨?_, fun v hv t ht => hc.2 v hv t ?_, fun v hv p hpos => ?_, ?_⟩
  · rw [hlen, h.flatEnd, Nat.add_sub_cancel_left]
  · by_cases hd : r.draftTokenIds = []
    · rw [h.undrafted hd] at ht
      exact List.mem_append_left _ (List.mem_of_mem_take (List.mem_of_mem_drop ht))
    · obtain ⟨-, t', ht', hin⟩ := h.drafted hd
      rw [hin] at ht
      rcases List.mem_cons.mp ht with rfl | ht
      · exact List.mem_append_left _ (List.mem_of_getElem? ht')
      · exact List.mem_append_right _ ht
  · have hle := hc.1 v hv
    rw [positions, List.mem_range'_1, h.seqEnd] at hpos
    omega
  · rw [h.flatEnd]
    omega

/-- A pass returns when the tables cover every scheduled request and every verify round has
its rows. -/
theorem executeModel_returns (hp : ∀ rn ∈ s.resolve out.scheduled, Placed rn.1 rn.2)
    (hd : ∀ rn ∈ s.resolve out.scheduled, Rowed rn.1 rn.2)
    (hc : ∀ rn ∈ s.resolve out.scheduled, m.Covers rn.1) : ∃ s', m.executeModel s out = .ok s' := by
  obtain ⟨ranges, hranges⟩ := flatLoop_returns hd 0
  have hread : ∀ f ∈ ranges, m.Readable f := by
    intro f hf
    obtain ⟨rn, hrn, hrange⟩ := exists_of_mem_forall₂ (forall_isRange hranges) hf
    exact hrange.readable (hp rn hrn) (hc rn hrn)
  have hbatch : m.buildFlatBatch (s.resolve out.scheduled) = .ok ranges := by
    rw [buildFlatBatch, hranges, ok_bind]
    split
    · rename_i maxLen position hlen hlast
      obtain ⟨f, hf, hpos⟩ := List.mem_flatMap.mp (List.mem_of_getLast? hlast)
      rw [if_neg (not_le.mpr ((hread f hf).2.2.1 _ hlen _ hpos))]
      rfl
    · rfl
  have hlook : m.lookUp ranges = .ok () := if_pos hread
  exact ⟨_, bind_eq_ok.mpr ⟨ranges, hbatch,
    bind_eq_ok.mpr ⟨(), hlook, commitLoop_eq hranges hp [] rfl s⟩⟩⟩

end ModelRunner

end LightServe
