import LightServe.Serving.Commits
import LightServe.Serving.Live
import LightServe.Serving.Speculative

/-!
# A verify round and plain steps

A verify round advances a request by its whole draft and one token more, commits what it
accepts of it and winds the request back to the first stop. Told in single-token decode steps,
it makes as many of them as it keeps tokens, and it stops only where it has to: at the first
draft token that is not the model's own choice, at the first stop, or after the bonus token.

## Main definitions

* `Request.plainStep` — a single-token decode step of one request.
* `plainStep_of_step` — the engine makes one of these for a request without a draft.
* `plainSteps_of_round` — it makes several for a request with one.
-/

namespace LightServe

open Scheduler

/-- A single-token decode step: the request advances by one token, and commits the one it
samples. -/
def Request.plainStep (m : ModelRunner) (r : Request) : Request :=
  let r := { r with numComputedTokens := r.numComputedTokens + 1 }
  ModelRunner.commit (m.sample r 1) r

/-- The request after it committed tokens one by one. -/
def Request.stepped (r : Request) (tokens : List Token) : Request :=
  { r.grown tokens with numComputedTokens := r.numComputedTokens + tokens.length }

namespace Request
variable {m : ModelRunner} {r : Request} {t : Token} {tokens : List Token}

theorem isFinished_stepped (hfin : r.isFinished = false)
    (hgo : stopStatus r.samplingParams (r.outputTokenIds ++ tokens) = none) :
    (r.stepped tokens).isFinished = false := by
  rw [stepped, grown, isFinished, hgo, Option.getD_none]
  exact hfin

@[simp] theorem allTokenIds_stepped (r : Request) (tokens : List Token) :
    (r.stepped tokens).allTokenIds = r.allTokenIds ++ tokens := (List.append_assoc _ _ _).symm

/-- Committing one token and then more, where the first does not stop the request. -/
theorem stepped_cons (hgo : stopStatus r.samplingParams (r.outputTokenIds ++ [t]) = none) :
    (r.stepped [t]).stepped tokens = r.stepped (t :: tokens) := by
  simp only [stepped, grown, hgo, Option.getD_none, List.append_assoc, List.singleton_append,
    List.length_cons, List.length_nil]
  congr 1
  omega

/-- A request whose last token alone is not computed commits the next one. -/
theorem plainStep_eq (hd : r.draftTokenIds = []) (hone : r.numComputedTokens + 1 = r.getLen)
    (hprompt : r.promptTokenIds.length ≤ r.numComputedTokens) (hfin : r.isFinished = false) :
    r.plainStep m = r.stepped [m.next r.allTokenIds] := by
  set r₁ : Request := { r with numComputedTokens := r.numComputedTokens + 1 }
  have hpre : r₁.isPrefill = false := by
    simp only [isPrefill, decide_eq_false_iff_not]
    exact not_lt.mpr (hprompt.trans (Nat.le_succ _))
  have htake : r₁.allTokenIds.take r₁.numComputedTokens = r.allTokenIds := by
    show r.allTokenIds.take (r.numComputedTokens + 1) = _
    rw [hone, ← length_allTokenIds, List.take_length]
  have hsample : m.sample r₁ 1 = [m.next r.allTokenIds] := by
    rw [ModelRunner.sample, hpre, if_neg Bool.false_ne_true, if_neg (not_not.mpr hd), htake]
  show ModelRunner.commit (m.sample r₁ 1) r₁ = _
  rw [hsample]
  exact commit_eq hfin (List.cons_ne_nil _ _)

/-- Greedy tokens without a stop before the last are committed one by one. -/
theorem iterate_plainStep (hne : tokens ≠ []) (hd : r.draftTokenIds = [])
    (hone : r.numComputedTokens + 1 = r.getLen)
    (hprompt : r.promptTokenIds.length ≤ r.numComputedTokens) (hfin : r.isFinished = false)
    (hgreedy : Decode.Greedy m.next r.allTokenIds tokens)
    (hgo : ∀ i, 0 < i → i < tokens.length →
      stopStatus r.samplingParams (r.outputTokenIds ++ tokens.take i) = none) :
    (plainStep m)^[tokens.length] r = r.stepped tokens := by
  induction tokens generalizing r with
  | nil => exact absurd rfl hne
  | cons t tokens ih =>
    obtain ⟨ht, hgreedy⟩ := hgreedy
    rw [List.length_cons, Function.iterate_succ_apply, plainStep_eq hd hone hprompt hfin, ← ht]
    by_cases hlast : tokens = []
    · subst hlast
      rfl
    · have hstop : stopStatus r.samplingParams (r.outputTokenIds ++ [t]) = none :=
        hgo 1 Nat.one_pos (Nat.succ_lt_succ (List.length_pos_iff.mpr hlast))
      rw [← @stepped_cons r t tokens hstop]
      apply @ih (r.stepped [t]) hlast hd
      · simp only [stepped, grown, getLen, List.length_append, List.length_singleton] at hone ⊢
        omega
      · exact hprompt.trans (Nat.le_add_right _ _)
      · exact isFinished_stepped hfin hstop
      · rw [allTokenIds_stepped]
        exact hgreedy
      · intro i hi hlt
        show stopStatus r.samplingParams (r.outputTokenIds ++ [t] ++ tokens.take i) = none
        rw [List.append_assoc, List.singleton_append, ← List.take_succ_cons]
        exact hgo (i + 1) (Nat.succ_pos i) (Nat.succ_lt_succ hlt)

/-- Single-token decode steps of a request, its draft put aside. -/
def plainSteps (m : ModelRunner) (r : Request) (i : ℕ) : Request :=
  (plainStep m)^[i] { r with draftTokenIds := [] }

/-- Where a verify round ends, in plain steps: no step before the last finishes the request or
samples another token than the draft's, and there is a reason to go no further. -/
structure EndsAfter (m : ModelRunner) (r : Request) (j : ℕ) : Prop where
  pos : 0 < j
  le : j ≤ r.draftTokenIds.length + 1
  unfinished : ∀ i < j, (r.plainSteps m i).isFinished = false
  agrees : ∀ i, i + 1 < j →
    r.draftTokenIds[i]? = (r.plainSteps m j).outputTokenIds[r.outputTokenIds.length + i]?
  ends : j = r.draftTokenIds.length + 1 ∨ (r.plainSteps m j).isFinished = true ∨
    r.draftTokenIds[j - 1]? ≠
      (r.plainSteps m j).outputTokenIds[r.outputTokenIds.length + (j - 1)]?

/-- The tokens of a verified draft, up to the first stop, are those of as many plain steps. -/
theorem endsAfter_of_verify (hone : r.numComputedTokens + 1 = r.getLen)
    (hprompt : r.promptTokenIds.length ≤ r.numComputedTokens) (hfin : r.isFinished = false)
    (htokens : tokens = Decode.verify m.next r.allTokenIds r.draftTokenIds) {j : ℕ} (hpos : 0 < j)
    (hj : j ≤ tokens.length)
    (hgo : ∀ i, 0 < i → i < j →
      stopStatus r.samplingParams (r.outputTokenIds ++ tokens.take i) = none)
    (hstop : j < tokens.length →
      (stopStatus r.samplingParams (r.outputTokenIds ++ tokens.take j)).isSome = true) :
    r.EndsAfter m j ∧
      r.plainSteps m j = stepped { r with draftTokenIds := [] } (tokens.take j) := by
  have hgreedy : Decode.Greedy m.next r.allTokenIds tokens := htokens ▸ Decode.greedy_verify _ _ _
  have hsteps : ∀ i, 0 < i → i ≤ j →
      r.plainSteps m i = stepped { r with draftTokenIds := [] } (tokens.take i) := by
    intro i hi hle
    have hlen : (tokens.take i).length = i := List.length_take_of_le (hle.trans hj)
    have hrun := @iterate_plainStep m { r with draftTokenIds := [] } (tokens.take i)
      (List.ne_nil_of_length_pos (hlen.symm ▸ hi)) rfl hone hprompt hfin (hgreedy.take i)
    rw [hlen] at hrun
    refine hrun fun k hk hlt => ?_
    rw [List.take_take, Nat.min_eq_left hlt.le]
    exact hgo k hk (hlt.trans_le hle)
  have hlast := hsteps j hpos le_rfl
  have hout : ∀ i, (r.plainSteps m j).outputTokenIds[r.outputTokenIds.length + i]? =
      (tokens.take j)[i]? := by
    intro i
    rw [hlast]
    show (r.outputTokenIds ++ tokens.take j)[r.outputTokenIds.length + i]? = _
    rw [List.getElem?_append_right (Nat.le_add_right _ _), Nat.add_sub_cancel_left]
  refine ⟨⟨hpos, ?_, fun i hi => ?_, fun i hi => ?_, ?_⟩, hlast⟩
  · rw [htokens] at hj
    exact hj.trans (Decode.length_verify_le _ _ _)
  · rcases Nat.eq_zero_or_pos i with rfl | hi'
    · exact hfin
    · rw [hsteps i hi' hi.le]
      exact isFinished_stepped hfin (hgo i hi' hi)
  · rw [hout, List.getElem?_take_of_lt (by omega), htokens]
    apply Decode.getElem?_verify
    rw [← htokens]
    omega
  · by_cases hcut : j < tokens.length
    · obtain ⟨status, hstatus⟩ := Option.isSome_iff_exists.mp (hstop hcut)
      refine .inr (.inl ?_)
      rw [hlast, stepped, grown, isFinished, hstatus]
      exact finished_of_stopStatus hstatus
    · obtain rfl : j = tokens.length := by omega
      rw [hout, List.take_length, htokens]
      rcases Decode.verify_ends m.next r.allTokenIds r.draftTokenIds with hend | hend
      · exact .inl hend
      · exact .inr (.inr hend)

/-- A later state of a request with the same outputs, status and count of computed tokens. -/
structure SameProgress (r r' : Request) : Prop where
  requestId : r'.requestId = r.requestId
  outputTokenIds : r'.outputTokenIds = r.outputTokenIds
  status : r'.status = r.status
  numComputedTokens : r'.numComputedTokens = r.numComputedTokens

theorem SameProgress.of_renoded {r r' r'' : Request} (h : Renoded r r') (h' : r'.SameProgress r'') :
    r.SameProgress r'' := by
  obtain ⟨nodes, rfl⟩ := h
  exact ⟨h'.requestId, h'.outputTokenIds, h'.status, h'.numComputedTokens⟩

end Request

/-- The decision behind a slice of the output. -/
theorem StepTrace.plan_of_scheduled {s s₁ : Scheduler} {out : SchedulerOutput}
    {plan : List Decision} {victims : List Request} {as : List Admission}
    (t : StepTrace s s₁ out plan victims as) (o : InOrder s) {r : Request} {n : ℕ}
    (hr : r ∈ s.running) (hsched : ⟨r.requestId, n⟩ ∈ out.scheduledRunning) :
    ∃ d ∈ plan, d.request = r ∧ d.grant = some (n : ℤ) ∧ 0 < n ∧
      d.result = { r with numComputedTokens := r.numComputedTokens + n } ∧
      (r.draftTokenIds ≠ [] → n = r.draftTokenIds.length + 1) ∧
      (r.draftTokenIds = [] → r.numComputedTokens + n ≤ r.getLen) := by
  rw [t.scheduledRunning] at hsched
  obtain ⟨d, hd, hslice⟩ := List.mem_filterMap.mp hsched
  obtain ⟨c, hc, hscheduled⟩ := Option.map_eq_some_iff.mp hslice
  obtain ⟨hid, hn⟩ := ScheduledRequest.mk.inj hscheduled
  obtain rfl : d.request = r :=
    o.eq_of_id_eq (t.running ▸ List.mem_append_left _ (List.mem_map_of_mem hd)) hr hid
  obtain ⟨budget, hsound⟩ := t.plan_sound' hd
  rcases hsound.cases with ⟨hg, -⟩ | ⟨k, hpos, -, hg, hres, hdrafted, hundrafted⟩
  · rw [hg] at hc
    cases hc
  · obtain rfl : k = n := by
      rw [hg] at hc
      cases hc
      exact hn
    exact ⟨d, hd, rfl, hg, hpos, hres, hdrafted, fun hnil => (hundrafted hnil).1⟩

namespace LLMEngine
variable {e : LLMEngine} {drafts : Option (RequestId → List Token)} {s s' : Scheduler}
  {out : SchedulerOutput} {finished : List Request} {r : Request} {n : ℕ}

/-- What the sweep and the proposals leave of a request. -/
theorem sameProgress_of_sweep {s₄ s₅ : Scheduler}
    (hsweep : s₄.freeFinishedRequests = .ok (s₅, finished)) (hs' : s' = s₅.proposeIf drafts)
    (hr : r ∈ s₄.running) : ∃ r' ∈ s'.running ++ finished, r.SameProgress r' := by
  rcases mem_of_sweep hsweep hr with ⟨-, r', hr', nodes, rfl⟩ | ⟨-, hmem⟩
  · exact ⟨_, List.mem_append_right _ hr', rfl, rfl, rfl, rfl⟩
  · obtain ⟨draft, hdraft⟩ := r.proposed_eq drafts
    refine ⟨r.proposed drafts, List.mem_append_left _ ?_, ?_⟩
    · rw [hs', proposeIf_eq]
      exact List.mem_map_of_mem hmem
    · rw [hdraft]
      exact ⟨rfl, rfl, rfl, rfl⟩

/-- The engine makes a plain step for a scheduled request without a draft. -/
theorem plainStep_of_step (l : LiveState s) (h : e.step drafts s = .ok (s', out, finished))
    (hr : r ∈ s.running) (hone : r.numComputedTokens + 1 = r.getLen) (hd : r.draftTokenIds = [])
    (hsched : ⟨r.requestId, n⟩ ∈ out.scheduledRunning) :
    n = 1 ∧ ∃ r' ∈ s'.running ++ finished, (r.plainStep e.runner).SameProgress r' := by
  obtain ⟨s₁, s₃, s₅, turned, st⟩ := stages_of_step l.inOrder l.queued h
  obtain ⟨plan, victims, as, t⟩ := StepTrace.of_schedule st.schedule
  obtain ⟨d, hdmem, rfl, hg, hpos, hres, -, hlen⟩ := t.plan_of_scheduled l.inOrder hr hsched
  have htokens := t.tokensOf_plan st.inOrder hdmem
  have hround := t.roundOf_plan st.inOrder hdmem
  rw [hg, Option.map_some, Int.toNat_natCast, ← d.result_requestId] at htokens
  rw [if_neg (not_not.mpr hd)] at hround
  obtain rfl : n = 1 := by
    have := hlen hd
    omega
  have hmem : d.result ∈ s₁.running := by
    rw [t.running']
    exact List.mem_append_left _ (List.mem_map_of_mem hdmem)
  have hturn : e.turn out d.result = d.request.plainStep e.runner := by
    rw [turn_commit htokens hround, hres]
    rfl
  obtain ⟨r', hr', hsame⟩ :=
    sameProgress_of_sweep st.sweep st.propose (List.mem_map_of_mem (f := turned) hmem)
  exact ⟨rfl, r', hr', hturn ▸ hsame.of_renoded (st.renoded _)⟩

/-- A verify round of the engine equals the plain steps it ends after: in the request's
outputs, its status and its count of computed tokens. -/
theorem plainSteps_of_round (o : InOrder s) (h : e.step drafts s = .ok (s', out, finished))
    (hr : r ∈ s.running) (hfin : r.isFinished = false) (hone : r.numComputedTokens + 1 = r.getLen)
    (hprompt : r.promptTokenIds.length ≤ r.numComputedTokens) (hd : r.draftTokenIds ≠ [])
    (hsched : ⟨r.requestId, n⟩ ∈ out.scheduledRunning) :
    n = r.draftTokenIds.length + 1 ∧ ∃ j, r.EndsAfter e.runner j ∧
      ∃ r' ∈ s'.running ++ finished, (r.plainSteps e.runner j).SameProgress r' := by
  obtain ⟨s₁, s₃, s₅, plan, victims, as, served, st, hrounds⟩ := stepTurns_of_step o h
  have t := st.trace
  obtain ⟨d, hdmem, rfl, hg, -, hres, hdrafted, -⟩ := t.plan_of_scheduled o hr hsched
  have hn := hdrafted hd
  have htokens := t.tokensOf_plan st.inOrder hdmem
  have hround := t.roundOf_plan st.inOrder hdmem
  rw [hg, Option.map_some, Int.toNat_natCast] at htokens hround
  rw [← d.result_requestId] at htokens
  rw [if_pos hd] at hround
  have hmem : d.result ∈ s₁.running := by
    rw [t.running']
    exact List.mem_append_left _ (List.mem_map_of_mem hdmem)
  have hdraft : d.result.draftTokenIds ≠ [] := by
    rw [hres]
    exact hd
  have hturned : Renoded (e.turn out d.result) (corrected out served d.result) := by
    rw [turn, corrected, hround, Option.elim_some, Option.elim_some, ModelRunner.serve, htokens,
      Option.elim_some]
    exact (hrounds _ hmem n htokens hdraft).correctRound _ _
  have hpre : d.result.isPrefill = false := by
    rw [hres]
    simp only [Request.isPrefill, decide_eq_false_iff_not]
    omega
  have hctx : d.result.allTokenIds.take (d.result.numComputedTokens - n + 1) =
      d.request.allTokenIds := by
    rw [hres]
    show d.request.allTokenIds.take (d.request.numComputedTokens + n - n + 1) = _
    rw [Nat.add_sub_cancel, hone, ← Request.length_allTokenIds, List.take_length]
  obtain ⟨j, hpos, hj, hgo, hstop, hturn⟩ := @turn_round e out d.result n htokens hround hpre hdraft
    (by rw [hres]; exact hfin) _ rfl
  rw [hctx] at hj hgo hstop hturn
  rw [hres] at hj hgo hstop hturn
  obtain ⟨hends, hplain⟩ := Request.endsAfter_of_verify hone hprompt hfin rfl hpos hj hgo hstop
  obtain ⟨r', hr', hsame⟩ :=
    sameProgress_of_sweep st.sweep st.propose (List.mem_map_of_mem (f := corrected out served) hmem)
  have hround := hsame.of_renoded hturned
  rw [hres, hturn] at hround
  refine ⟨hn, j, hends, r', hr', ?_⟩
  rw [hplain]
  refine ⟨hround.requestId, hround.outputTokenIds, hround.status, hround.numComputedTokens.trans ?_⟩
  -- Wound back by what the round did not keep, the count is as far as the tokens it kept.
  show d.request.numComputedTokens + n - (n - j) =
    d.request.numComputedTokens + (List.take j _).length
  have hle := hends.le
  rw [List.length_take_of_le hj]
  omega

/-- One accepted draft token, and the model's own choice in place of the second. -/
theorem plainSteps_of_round_two : ∃ s s' out finished r, ∃ n : ℕ,
    draftedEngine.step (some fun _ => [2, 0]) s = .ok (s', out, finished) ∧ s.running = [r] ∧
      r.draftTokenIds = [2, 0] ∧ n = r.draftTokenIds.length + 1 ∧
      ∃ j, r.EndsAfter draftedEngine.runner j ∧
        ∃ r' ∈ s'.running ++ finished, (r.plainSteps draftedEngine.runner j).SameProgress r' := by
  set r : Request := { newRequest 0 [1] {} with
    outputTokenIds := [1], status := .running, draftTokenIds := [2, 0], numComputedTokens := 1 }
  have hruns : (draftedEngine.performAll (fun _ => True) draftedEngine.start []
      [.addRequest 0 [1] {}, .step (some fun _ => [2, 0])]).any (fun run =>
      (draftedEngine.step (some fun _ => [2, 0]) run.1).toOption.any fun next =>
        decide (run.1.running = [r] ∧ ⟨0, 3⟩ ∈ next.2.1.scheduledRunning)) =
          true := by decide +kernel
  simp only [Option.any_eq_true, toOption_eq_some, decide_eq_true_eq] at hruns
  obtain ⟨⟨s, arrived⟩, hrun, ⟨s', out, finished⟩, hs, hr, hsched⟩ := hruns
  have hrun : draftedEngine.Run Request.Prompted (fun _ => True) s arrived := .performAll .start
    (by simp [Allows, Proposes, Request.Prompted, newRequest, draftedEngine]) hrun
  have o := (LiveState.of_run (fun _ => id) hrun).inOrder
  obtain ⟨hn, hround⟩ := plainSteps_of_round (r := r) (n := 3) o hs (by rw [hr]; simp) rfl rfl
    (by decide) (by decide) hsched
  exact ⟨s, s', out, finished, r, 3, hs, hr, rfl, hn, hround⟩

end LLMEngine

end LightServe
