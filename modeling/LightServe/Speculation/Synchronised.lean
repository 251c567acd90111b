import LightServe.Speculation.Runs

/-!
# Shadows in sync

A proposal leaves a shadow ahead of its request by a draft; the verify round that follows winds
it back. As long as every draft is verified in the step after its proposal, and no id is used
again, the shadow of a request is behind the request's tokens whenever it is asked about, with
nothing computed from a rejected token, and what is proposed is the greedy continuation.

## Main definitions

* `DraftProposer.InSync` — the shadow of a request is behind its tokens.
* `DraftProposer.Sound` — what a call of `propose` is when it is.
* `DraftedEngine.SyncState` — what holds between the calls of an engine.
* `sound_of_run` — every call of `propose` in a run is sound.
-/

namespace LightServe

open Scheduler

namespace DraftProposer
variable {κ : Type} {dp dp' : DraftProposer κ} {r shadow : Request} {proposed : List Token}

/-- The shadow of a request, if it has one, has a row due and computed the request's tokens. -/
def InSync (dp : DraftProposer κ) (r : Request) : Prop :=
  ∀ shadow, dp.shadowRequests.lookup r.requestId = some shadow →
    shadow.promptTokenIds = r.promptTokenIds ∧ shadow.numComputedTokens + 1 ≤ r.getLen ∧
      dp.Computed shadow r.allTokenIds

/-- A call of `propose` for `r` in the state `dp`: the shadow is in sync, every round of the loop
has a row due, and the proposals are what the draft model decodes greedily. -/
structure Sound (dp : DraftProposer κ) (r : Request) : Prop where
  inSync : dp.InSync r
  rows : ∀ dp₀ shadow₀, dp.getOrCreateShadow r = .ok (dp₀, shadow₀) →
    ∀ i dp' shadow' proposed, draftLoop i dp₀ shadow₀ [] = .ok (dp', shadow', proposed) →
      1 ≤ shadow'.getNumNewTokens
  greedy : ∀ dp' proposed, dp.propose r = .ok (dp', proposed) →
    proposed.length = dp.numSpeculativeTokens ∧
      Decode.Greedy dp.modelRunner.model.next r.allTokenIds proposed

/-- A shadow in sync is ready for the loop. -/
theorem InSync.ready (h : dp.InSync r) (hpool : dp.Pooled) (hpos : 0 < r.getLen)
    (hs : dp.getOrCreateShadow r = .ok (dp', shadow)) : dp'.Ready shadow ∧
      shadow.requestId = r.requestId ∧ shadow.promptTokenIds = r.promptTokenIds ∧
      shadow.outputTokenIds = r.outputTokenIds ∧ LeavesOthers r.requestId dp dp' := by
  obtain ⟨hpool', hleaves, hkv, hl, hcases⟩ := hpool.getOrCreateShadow hs
  have hid := (hpool'.shadow _ _ hl).1
  rcases hcases with ⟨old, hold, rfl, htable⟩ | ⟨hnone, rfl, -⟩
  · obtain ⟨hprompt, hbehind, hcomputed⟩ := h old hold
    have hall : ({ old with outputTokenIds := r.outputTokenIds } : Request).allTokenIds =
        r.allTokenIds := by
      show old.promptTokenIds ++ _ = _
      rw [hprompt]
      rfl
    have hlen : ({ old with outputTokenIds := r.outputTokenIds } : Request).getLen = r.getLen := by
      rw [← Request.length_allTokenIds, hall, Request.length_allTokenIds]
    refine ⟨⟨hpool', hid ▸ hl, ?_, ?_⟩, hid, hprompt, rfl, hleaves⟩
    · have hold' : old.requestId = r.requestId := hid
      rw [Computed, hall, hkv, hleaves.modelRunner]
      show dp.kvCache.Holds (dp'.tableOf old.requestId) _
      rw [hold', htable, ← hold']
      exact hcomputed
    · rw [hlen]
      exact hbehind
  · refine ⟨⟨hpool', hl, ?_, hpos⟩, rfl, rfl, rfl, hleaves⟩
    rw [Computed]
    exact .nil _ _

/-- A shadow in sync makes a sound call. -/
theorem InSync.sound (h : dp.InSync r) (hpool : dp.Pooled) (hpos : 0 < r.getLen) : dp.Sound r := by
  refine ⟨h, fun dp₀ shadow₀ hs i dp' shadow' proposed hloop => ?_, fun dp' proposed hp => ?_⟩
  · obtain ⟨hready, -⟩ := h.ready hpool hpos hs
    have hbehind := (hready.draftLoop hloop).1.behind
    rw [Request.getNumNewTokens]
    omega
  · obtain ⟨⟨dp₀, shadow₀⟩, hs, hrest⟩ := bind_eq_ok.mp hp
    obtain ⟨⟨dp₁, shadow₁, proposed₁⟩, hloop, hret⟩ := bind_eq_ok.mp hrest
    cases hret
    obtain ⟨hready, -, hprompt, hout, hleaves⟩ := h.ready hpool hpos hs
    obtain ⟨-, -, -, -, -, new, hnew, hlen, -, hgreedy⟩ := hready.draftLoop hloop
    rw [List.nil_append] at hnew
    rw [hnew, ← hleaves.numSpeculativeTokens]
    refine ⟨hlen, ?_⟩
    rw [hleaves.modelRunner, Request.allTokenIds, hprompt, hout] at hgreedy
    exact hgreedy

/-- The shadow of a request that was proposed for is ahead by the proposal. -/
structure Ahead (dp : DraftProposer κ) (r : Request) : Prop where
  length : r.draftTokenIds.length = dp.numSpeculativeTokens
  pastPrompt : r.isPrefill = false
  shadow : ∃ shadow, dp.shadowRequests.lookup r.requestId = some shadow ∧
    shadow.promptTokenIds = r.promptTokenIds ∧
    shadow.numComputedTokens + 1 = r.getLen + dp.numSpeculativeTokens ∧
    dp.Computed shadow (r.allTokenIds ++ r.draftTokenIds)

/-- A proposal for a request in sync leaves its shadow ahead. -/
theorem InSync.propose (h : dp.InSync r) (hpool : dp.Pooled) (hpos : 0 < r.getLen)
    (hK : 0 < dp.numSpeculativeTokens) (hpre : r.isPrefill = false)
    (hp : dp.propose r = .ok (dp', proposed)) : dp'.Pooled ∧ LeavesOthers r.requestId dp dp' ∧
      dp'.Ahead { r with draftTokenIds := proposed } := by
  obtain ⟨⟨dp₀, shadow₀⟩, hs, hrest⟩ := bind_eq_ok.mp hp
  obtain ⟨⟨dp₁, shadow₁, proposed₁⟩, hloop, hret⟩ := bind_eq_ok.mp hrest
  cases hret
  obtain ⟨hready, hid, hprompt, hout, hleaves⟩ := h.ready hpool hpos hs
  obtain ⟨hready', hleaves', hid', hprompt', hdone, new, hnew, hlen, hout', -⟩ :=
    hready.draftLoop hloop
  rw [List.nil_append] at hnew
  rw [hid] at hleaves'
  have hall : shadow₁.allTokenIds = r.allTokenIds ++ proposed := by
    rw [Request.allTokenIds, hprompt', hprompt, hout', hout, hnew, Request.allTokenIds,
      List.append_assoc]
  have hK' : dp'.numSpeculativeTokens = dp₀.numSpeculativeTokens := hleaves'.numSpeculativeTokens
  have hlast := hdone (by rw [hleaves.numSpeculativeTokens]; exact hK)
  refine ⟨hready'.pooled, hleaves.trans hleaves', ?_, hpre, shadow₁, ?_, hprompt'.trans hprompt,
    ?_, ?_⟩
  · rw [hK', ← hlen, hnew]
  · rw [← hid, ← hid']
    exact hready'.lookup
  · have hlen₁ : shadow₁.getLen = r.getLen + dp₀.numSpeculativeTokens := by
      rw [← Request.length_allTokenIds, hall, List.length_append, Request.length_allTokenIds,
        hnew, hlen]
    rw [hK', hlast, hlen₁]
    rfl
  · show dp'.Computed shadow₁ (r.allTokenIds ++ proposed)
    rw [← hall]
    exact hready'.computed

/-- A call for another request leaves a shadow in sync or ahead. -/
theorem InSync.of_leavesOthers {id : RequestId} (h : dp.InSync r) (hpool : dp.Pooled)
    (hpool' : dp'.Pooled) (hl : LeavesOthers id dp dp') (hne : r.requestId ≠ id) :
    dp'.InSync r := by
  intro shadow hshadow
  rw [hl.shadow _ hne] at hshadow
  obtain ⟨hprompt, hbehind, hcomputed⟩ := h shadow hshadow
  have hid := (hpool.shadow _ _ hshadow).1
  exact ⟨hprompt, hbehind, hcomputed.of_leavesOthers hpool hpool' hl (hid ▸ hne)⟩

theorem Ahead.of_leavesOthers {id : RequestId} (h : dp.Ahead r) (hpool : dp.Pooled)
    (hpool' : dp'.Pooled) (hl : LeavesOthers id dp dp') (hne : r.requestId ≠ id) : dp'.Ahead r := by
  obtain ⟨shadow, hshadow, hprompt, hnc, hcomputed⟩ := h.shadow
  have hid := (hpool.shadow _ _ hshadow).1
  refine ⟨hl.numSpeculativeTokens ▸ h.length, h.pastPrompt, shadow, ?_, hprompt, ?_, ?_⟩
  · rw [hl.shadow _ hne]
    exact hshadow
  · rw [hl.numSpeculativeTokens]
    exact hnc
  · exact hcomputed.of_leavesOthers hpool hpool' hl (hid ▸ hne)

end DraftProposer

/-! ## The states of a run -/

namespace DraftedEngine
variable {κ : Type} {d d₁ d' : DraftedEngine κ} {e : LLMEngine} {out : SchedulerOutput}
  {finished : List Request}

/-- What must hold of a call: an id that arrives has no shadow, and a step schedules every
running request that holds a draft. -/
def Verifies (d : DraftedEngine κ) : DraftedCall → Prop
  | .addRequest id _ _ => d.draftProposer.shadowRequests.lookup id = none
  | .step => ∀ s₁ out, d.scheduler.schedule = .ok (s₁, out) →
      ∀ r ∈ d.scheduler.running, r.draftTokenIds ≠ [] →
        r.requestId ∈ out.scheduled.map ScheduledRequest.request
  | .abortRequests _ => True

instance (d : DraftedEngine κ) : (c : DraftedCall) → Decidable (Verifies d c)
  | .addRequest .. => inferInstanceAs (Decidable (_ = none))
  | .step => d.scheduler.decidableOnSchedule fun _ out => ∀ r ∈ d.scheduler.running,
      r.draftTokenIds ≠ [] → r.requestId ∈ out.scheduled.map ScheduledRequest.request
  | .abortRequests _ => .isTrue trivial

/-- Between the calls the shadows are those of requests that hold a draft, and ahead by it. -/
structure SyncState (d : DraftedEngine κ) : Prop where
  inOrder : InOrder d.scheduler
  pooled : d.draftProposer.Pooled
  proposes : 0 < d.draftProposer.numSpeculativeTokens
  nonempty : ∀ r ∈ d.scheduler.running, 0 < r.getLen
  waiting : ∀ r ∈ d.scheduler.waiting,
    r.draftTokenIds = [] ∧ d.draftProposer.shadowRequests.lookup r.requestId = none
  undrafted : ∀ r ∈ d.scheduler.running, r.draftTokenIds = [] →
    d.draftProposer.shadowRequests.lookup r.requestId = none
  drafted : ∀ r ∈ d.scheduler.running, r.draftTokenIds ≠ [] → d.draftProposer.Ahead r

/-- After the sweep every draft is verified, and the shadows are in sync. -/
structure SweptState (d : DraftedEngine κ) : Prop where
  inOrder : InOrder d.scheduler
  pooled : d.draftProposer.Pooled
  proposes : 0 < d.draftProposer.numSpeculativeTokens
  nonempty : ∀ r ∈ d.scheduler.running, 0 < r.getLen
  waiting : ∀ r ∈ d.scheduler.waiting,
    r.draftTokenIds = [] ∧ d.draftProposer.shadowRequests.lookup r.requestId = none
  undrafted : ∀ r ∈ d.scheduler.running, r.draftTokenIds = []
  unshadowed : ∀ r ∈ d.scheduler.running, r.isPrefill = true →
    d.draftProposer.shadowRequests.lookup r.requestId = none
  inSync : ∀ r ∈ d.scheduler.running, d.draftProposer.InSync r

/-- A verify round keeps a part of the draft and at most one token more. -/
theorem acceptLoop_shape (bonus : Token) (draft rows : List Token) : ∃ i t, i ≤ draft.length ∧
    acceptLoop bonus draft rows = draft.take i ++ [t] := by
  induction draft generalizing rows with
  | nil => exact ⟨0, bonus, le_rfl, by simp [acceptLoop]⟩
  | cons x draft ih =>
    cases rows with
    | nil => exact ⟨0, bonus, Nat.zero_le _, by simp [acceptLoop]⟩
    | cons y rows =>
      rw [acceptLoop]
      by_cases hxy : x = y
      · obtain ⟨i, t, hi, heq⟩ := ih rows
        refine ⟨i + 1, t, Nat.succ_le_succ hi, ?_⟩
        simp [hxy, heq]
      · exact ⟨0, y, Nat.zero_le _, by simp [hxy]⟩

/-- A request that a step leaves undrafted keeps its tokens, and samples if it is past its
prompt. -/
theorem serves_undrafted {r r' : Request}
    (hd : r.draftTokenIds = []) (h : LLMEngine.Serves out r r') :
    r'.requestId = r.requestId ∧ r'.draftTokenIds = [] ∧ r.getLen ≤ r'.getLen ∧
      ((out.tokensOf r.requestId).isSome → r.isPrefill = false → r.getLen < r'.getLen) := by
  by_cases hsome : (out.tokensOf r.requestId).isSome
  · obtain ⟨tokens, hmay, nodes, rfl⟩ := h.2 hsome
    obtain ⟨status, hshape⟩ := LLMEngine.commit_shape tokens r
    rw [hshape]
    refine ⟨rfl, hd, by simp [Request.getLen], fun _ hpre => ?_⟩
    unfold Request.MayCommit at hmay
    rw [hpre, if_neg Bool.false_ne_true, if_neg (not_not.mpr hd)] at hmay
    obtain ⟨t, rfl⟩ := hmay
    simp [Request.getLen]
  · obtain ⟨nodes, rfl⟩ := h.1 (by simpa using hsome)
    exact ⟨rfl, hd, le_rfl, fun h => absurd h hsome⟩

/-- A verified request keeps a part of its draft, and its shadow, wound back, is in sync. -/
theorem inSync_of_ahead {dp dp' : DraftProposer κ} {q r r' : Request} {n : ℕ}
    {served : Request → Request} (hpos : 0 < dp.numSpeculativeTokens)
    (hahead : dp.Ahead q) (hn : n = q.draftTokenIds.length + 1)
    (hr : r = { q with numComputedTokens := q.numComputedTokens + n })
    (htokens : (out.tokensOf r.requestId).isSome) (hround : out.roundOf r = some n)
    (hserves : LLMEngine.Serves out r (served r)) (hr' : r' = LLMEngine.corrected out served r)
    (hdp : dp' = { dp with shadowRequests := dp'.shadowRequests })
    (hl : dp'.shadowRequests.lookup r.requestId =
      (dp.shadowRequests.lookup r.requestId).map fun shadow => { shadow with
        numComputedTokens := shadow.numComputedTokens -
          LLMEngine.shadowWindBack dp.numSpeculativeTokens out served r }) :
    dp'.InSync r' ∧ r'.draftTokenIds = [] ∧ r'.isPrefill = false ∧ q.getLen < r'.getLen := by
  obtain ⟨shadow, hshadow, hprompt, hnc, hcomputed⟩ := hahead.shadow
  have hpast : q.promptTokenIds.length ≤ q.numComputedTokens := by
    have := hahead.pastPrompt
    simpa [Request.isPrefill] using this
  have hpre : r.isPrefill = false := by
    rw [hr]
    simp only [Request.isPrefill, decide_eq_false_iff_not]
    omega
  have hd : r.draftTokenIds ≠ [] := by
    rw [hr]
    refine List.ne_nil_of_length_pos ?_
    rw [hahead.length]
    exact hpos
  obtain ⟨tokens, hmay, nodes, hserved⟩ := hserves.2 htokens
  unfold Request.MayCommit at hmay
  rw [hpre, if_neg Bool.false_ne_true, if_pos hd] at hmay
  obtain ⟨bonus, rows, rfl⟩ := hmay
  obtain ⟨i, t, hi, hshape⟩ := acceptLoop_shape bonus r.draftTokenIds rows
  rw [hshape] at hserved
  obtain ⟨status, hcommit⟩ := LLMEngine.commit_shape (r.draftTokenIds.take i ++ [t]) r
  have hout : (served r).outputTokenIds = r.outputTokenIds ++ (r.draftTokenIds.take i ++ [t]) := by
    rw [hserved, hcommit]
  set kept := r.draftTokenIds.take i ++ [t] with hkept
  set j := accepted r.outputTokenIds.length (served r) with hj
  have hdraft : r.draftTokenIds = q.draftTokenIds := by rw [hr]
  have hkeptlen : kept.length = i + 1 := by
    rw [hkept, List.length_append, List.length_take_of_le hi, List.length_singleton]
  have hjpos : 0 < j := accepted_pos (by rw [hout, List.length_append]; omega)
  have hjle : j ≤ kept.length := by
    have := accepted_le r.outputTokenIds.length (served r)
    rw [hout, List.length_append] at this
    omega
  obtain ⟨status', hround'⟩ := @correctRound_eq_accepted r.outputTokenIds.length n (served r)
    (by rw [hout, List.length_append]; omega)
  rw [← hj, hout, List.take_length_add_append] at hround'
  have hr'' : r' = correctRound r.outputTokenIds.length n (served r) := by
    rw [hr', LLMEngine.corrected, hround]
    rfl
  rw [hround'] at hr''
  have hlen' : r'.getLen = q.getLen + j := by
    rw [hr'', Request.getLen, hserved, hcommit, List.length_append, List.length_take_of_le hjle, hr,
      Request.getLen]
    exact (Nat.add_assoc _ _ _).symm
  have hall' : r'.allTokenIds = q.allTokenIds ++ kept.take j := by
    rw [hr'', Request.allTokenIds, hserved, hcommit, hr, Request.allTokenIds, List.append_assoc]
  have hid' : r'.requestId = r.requestId := by rw [hr'', hserved, hcommit]
  have hrid : r.requestId = q.requestId := by rw [hr]
  have hwind : LLMEngine.shadowWindBack dp.numSpeculativeTokens out served r =
      dp.numSpeculativeTokens - j := by
    rw [LLMEngine.shadowWindBack, hround]
    rfl
  rw [hrid, hshadow, Option.map_some, hwind] at hl
  rw [hdraft] at hi
  have hK := hahead.length
  refine ⟨fun shadow' hshadow' => ?_, by rw [hr''], ?_, by omega⟩
  · rw [hid', hrid, hl] at hshadow'
    obtain rfl := Option.some.inj hshadow'
    refine ⟨?_, ?_, ?_⟩
    · rw [hr'', hserved, hcommit, hr]
      exact hprompt
    · rw [hlen']
      show shadow.numComputedTokens - (dp.numSpeculativeTokens - j) + 1 ≤ _
      omega
    · set m := shadow.numComputedTokens - (dp.numSpeculativeTokens - j) with hm
      have htake := hcomputed.take m
      rw [CausalModel.take_cache, List.take_take, Nat.min_eq_left (by omega)] at htake
      have hagree : (q.allTokenIds ++ q.draftTokenIds).take m = r'.allTokenIds.take m := by
        have hqlen := q.length_allTokenIds
        rw [hall', List.take_append, List.take_append]
        congr 1
        rw [List.take_take, hkept, hdraft, List.take_append_of_le_length (by
          rw [List.length_take_of_le hi]; omega), List.take_take]
        congr 1
        omega
      rw [hagree] at htake
      rw [DraftProposer.Computed, hdp]
      exact htake
  · have hprompt' : r'.promptTokenIds = q.promptTokenIds := by rw [hr'', hserved, hcommit, hr]
    have hnc' : q.numComputedTokens ≤ r'.numComputedTokens := by
      rw [hr'', hserved, hcommit, hr]
      show _ ≤ q.numComputedTokens + n - (n - j)
      omega
    rw [Request.isPrefill, hprompt', decide_eq_false_iff_not]
    omega

/-- Nobody who is bumped is scheduled. -/
theorem notMem_scheduled_of_victim {s s₁ : Scheduler} {plan : List Decision}
    {victims : List Request} {as : List Admission} (t : StepTrace s s₁ out plan victims as)
    (o : InOrder s) {v : Request}
    (hv : v ∈ victims) : v.requestId ∉ out.scheduled.map ScheduledRequest.request := by
  have hnil := t.admits (List.ne_nil_of_mem hv)
  have hnodup := o.running_nodup
  rw [t.running, List.map_append, List.map_map] at hnodup
  intro hmem
  rw [SchedulerOutput.scheduled, t.scheduledNew, hnil, List.map_nil, List.nil_append,
    t.scheduledRunning] at hmem
  obtain ⟨sr, hsr, hid⟩ := List.mem_map.mp hmem
  obtain ⟨p, hp, hslice⟩ := List.mem_filterMap.mp hsr
  obtain ⟨c, -, rfl⟩ := Option.map_eq_some_iff.mp hslice
  exact (List.nodup_append.mp hnodup).2.2 _ (List.mem_map_of_mem hp) _ (List.mem_map_of_mem hv) hid

theorem isSome_tokensOf {id : RequestId} (h : id ∈ out.scheduled.map ScheduledRequest.request) :
    (out.tokensOf id).isSome := by
  obtain ⟨sr, hsr, hid⟩ := List.mem_map.mp h
  rw [SchedulerOutput.tokensOf, Option.isSome_map, List.find?_isSome]
  exact ⟨sr, hsr, by simpa using hid⟩

/-- A step that verifies every draft leaves the shadows in sync. -/
theorem SyncState.swept (st : SyncState d) (hv : Verifies d .step)
    (h : e.sweptStep d = .ok (d₁, out, finished)) : SweptState d₁ := by
  obtain ⟨s₁, s₃, plan, victims, as, served, turns, hpool, hdp, hlookup, hother⟩ :=
    LLMEngine.sweptStep_turns st.inOrder st.pooled h
  have t := turns.trace
  have hverify := hv s₁ out turns.schedule
  obtain ⟨o₁, hrunning, hwaiting, -⟩ := turns.swept
  have hK : d₁.draftProposer.numSpeculativeTokens = d.draftProposer.numSpeculativeTokens := by
    rw [hdp]
  have hnone : ∀ r ∈ s₁.running, d.draftProposer.shadowRequests.lookup r.requestId = none →
      d₁.draftProposer.shadowRequests.lookup r.requestId = none := by
    intro r hr hl
    rw [hlookup r hr, hl]
    rfl
  -- every running request comes from a decision or an admission
  have hall : ∀ r' ∈ d₁.scheduler.running, r'.draftTokenIds = [] ∧ 0 < r'.getLen ∧
      (r'.isPrefill = true → d₁.draftProposer.shadowRequests.lookup r'.requestId = none) ∧
      d₁.draftProposer.InSync r' := by
    intro r' hr'
    rw [hrunning] at hr'
    obtain ⟨r, hr, rfl⟩ := List.mem_map.mp (List.mem_filter.mp hr').1
    have hundrafted : r.draftTokenIds = [] →
        d.draftProposer.shadowRequests.lookup r.requestId = none →
        (0 < r.getLen ∨ (out.tokensOf r.requestId).isSome) →
        (LLMEngine.corrected out served r).draftTokenIds = [] ∧
        0 < (LLMEngine.corrected out served r).getLen ∧
        ((LLMEngine.corrected out served r).isPrefill = true →
          d₁.draftProposer.shadowRequests.lookup (LLMEngine.corrected out served r).requestId =
            none) ∧
        d₁.draftProposer.InSync (LLMEngine.corrected out served r) := by
      intro hd hl hlen
      have hround : out.roundOf r = none := by rw [SchedulerOutput.roundOf, if_neg (not_not.mpr hd)]
      rw [LLMEngine.corrected, hround, Option.elim_none]
      obtain ⟨hid, hdraft, hle, hlt⟩ := serves_undrafted hd (turns.serves r hr)
      have hl' := hnone r hr hl
      refine ⟨hdraft, ?_, fun _ => by rw [hid]; exact hl', fun shadow hshadow => ?_⟩
      · rcases hlen with hlen | hlen
        · omega
        · by_cases hpre : r.isPrefill = true
          · have : 0 < r.getLen := by
              simp only [Request.isPrefill, decide_eq_true_eq] at hpre
              rw [Request.getLen]
              omega
            omega
          · have := hlt hlen (by simpa using hpre)
            omega
      · rw [hid, hl'] at hshadow
        cases hshadow
    rcases List.mem_append.mp (t.running' ▸ hr) with hmem | hmem
    · obtain ⟨p, hp, rfl⟩ := List.mem_map.mp hmem
      have hq : p.request ∈ d.scheduler.running :=
        t.running ▸ List.mem_append_left _ (List.mem_map_of_mem hp)
      by_cases hd : p.request.draftTokenIds = []
      · refine hundrafted (by rw [Decision.result_draftTokenIds]; exact hd)
          (by rw [Decision.result_requestId]; exact st.undrafted _ hq hd) (.inl ?_)
        have hlen : p.result.getLen = p.request.getLen := by
          unfold Decision.result
          split <;> rfl
        rw [hlen]
        exact st.nonempty _ hq
      · have hsome := isSome_tokensOf (hverify _ hq hd)
        have htokens := t.tokensOf_plan turns.inOrder hp
        rw [htokens, Option.isSome_map] at hsome
        obtain ⟨c, hc⟩ := Option.isSome_iff_exists.mp hsome
        obtain ⟨budget, hsound⟩ := t.plan_sound' hp
        simp only [Decision.Sound, hc] at hsound
        have hspec : isSpec p.request = true := by simp [isSpec, hd]
        have hchunk : c = ((p.request.draftTokenIds.length + 1 : ℕ) : ℤ) := by
          rw [hsound.2.2, chunk, hspec, if_pos rfl, numNew, hspec, if_pos rfl]
          rfl
        have hresult : p.result = { p.request with
            numComputedTokens :=
              p.request.numComputedTokens + (p.request.draftTokenIds.length + 1) } := by
          rw [Decision.result, hc, hchunk]
          rfl
        have hround := t.roundOf_plan turns.inOrder hp
        rw [if_pos hd, hc, hchunk, Option.map_some, Int.toNat_natCast] at hround
        obtain ⟨hsync, hdraft, hpre, hlt⟩ := inSync_of_ahead st.proposes (st.drafted _ hq hd) rfl
          hresult (by rw [Decision.result_requestId, htokens, hc]; rfl) hround (turns.serves _ hr)
          rfl hdp (hlookup _ hr)
        refine ⟨hdraft, by omega, fun h => ?_, hsync⟩
        rw [hpre] at h
        cases h
    · obtain ⟨a, ha, rfl⟩ := List.mem_map.mp hmem
      obtain ⟨hd, hl⟩ := st.waiting _ (t.mem_waiting ha)
      refine hundrafted hd hl (.inr ?_)
      rw [Admission.result_requestId, t.tokensOf_admission turns.inOrder ha]
      rfl
  refine ⟨o₁, hpool, hK ▸ st.proposes, fun r hr => (hall r hr).2.1, fun r hr => ?_,
    fun r hr => (hall r hr).1, fun r hr => (hall r hr).2.2.1, fun r hr => (hall r hr).2.2.2⟩
  -- who waits held no draft, for whoever holds one is scheduled
  rw [hwaiting] at hr
  have hnotMem : r.requestId ∉ s₁.running.map Request.requestId := by
    intro hmem
    obtain ⟨q, hq, hid⟩ := List.mem_map.mp hmem
    exact turns.inOrder.disjoint hq hr hid
  rw [hother _ hnotMem]
  rcases t.of_mem_waiting hr with hr | ⟨v, hv, nodes, rfl⟩
  · exact st.waiting r hr
  · have hrun : v ∈ d.scheduler.running := t.running ▸ List.mem_append_right _ hv
    have hd : v.draftTokenIds = [] := by
      by_contra hd
      exact notMem_scheduled_of_victim t st.inOrder hv (hverify v hrun hd)
    exact ⟨hd, st.undrafted v hrun hd⟩

/-! ## The proposals of a step -/

/-- The loop asks about every request in sync, and leaves every shadow ahead. -/
theorem proposeLoop_spec {running running' : List Request} {dp dp' : DraftProposer κ}
    (hids : (running.map Request.requestId).Nodup) (hpool : dp.Pooled)
    (hK : 0 < dp.numSpeculativeTokens) (hpos : ∀ r ∈ running, 0 < r.getLen)
    (hd : ∀ r ∈ running, r.draftTokenIds = [])
    (hsync : ∀ r ∈ running, dp.InSync r)
    (hl : ∀ r ∈ running, r.isPrefill = true → dp.shadowRequests.lookup r.requestId = none)
    (h : proposeLoop running dp = .ok (dp', running')) : dp'.Pooled ∧
      dp'.numSpeculativeTokens = dp.numSpeculativeTokens ∧
      running'.map Request.requestId = running.map Request.requestId ∧
      (∀ r ∈ running', 0 < r.getLen) ∧
      (∀ r ∈ running', (r.draftTokenIds = [] ∧ dp'.shadowRequests.lookup r.requestId = none) ∨
        dp'.Ahead r) ∧
      (∀ r, r.requestId ∉ running.map Request.requestId → dp.InSync r → dp'.InSync r) ∧
      (∀ r, r.requestId ∉ running.map Request.requestId → dp.Ahead r → dp'.Ahead r) ∧
      ∀ id, id ∉ running.map Request.requestId →
        dp'.shadowRequests.lookup id = dp.shadowRequests.lookup id := by
  induction running generalizing dp running' with
  | nil =>
    cases h
    exact ⟨hpool, rfl, rfl, by simp, by simp, fun _ _ h => h, fun _ _ h => h, fun _ _ => rfl⟩
  | cons r running ih =>
    obtain ⟨hhead, hids⟩ := List.nodup_cons.mp hids
    obtain ⟨hposr, hpos⟩ := List.forall_mem_cons.mp hpos
    obtain ⟨hdr, hd⟩ := List.forall_mem_cons.mp hd
    obtain ⟨hsyncr, hsync⟩ := List.forall_mem_cons.mp hsync
    obtain ⟨hlr, hl⟩ := List.forall_mem_cons.mp hl
    rw [proposeLoop] at h
    split at h
    · rename_i hpre
      obtain ⟨⟨dp₁, rest⟩, hrest, hret⟩ := bind_eq_ok.mp h
      cases hret
      obtain ⟨hpool', hK', hids', hpos', hcases, hkeep, hkeep', hlookup⟩ :=
        ih hids hpool hK hpos hd hsync hl hrest
      refine ⟨hpool', hK', by simp [hids'], List.forall_mem_cons.mpr ⟨hposr, hpos'⟩,
        List.forall_mem_cons.mpr ⟨.inl ⟨hdr, (hlookup _ hhead).trans (hlr hpre)⟩, hcases⟩,
        fun q hq => ?_, fun q hq => ?_, fun id hid => ?_⟩
      · exact hkeep q fun hmem => hq (List.mem_cons_of_mem _ hmem)
      · exact hkeep' q fun hmem => hq (List.mem_cons_of_mem _ hmem)
      · exact hlookup id fun hmem => hid (List.mem_cons_of_mem _ hmem)
    · rename_i hpre
      obtain ⟨⟨dp₁, proposed⟩, hp, hrest⟩ := bind_eq_ok.mp h
      obtain ⟨⟨dp₂, rest⟩, hloop, hret⟩ := bind_eq_ok.mp hrest
      cases hret
      obtain ⟨hpool₁, hleaves, hahead⟩ := hsyncr.propose hpool hposr hK (by simpa using hpre) hp
      have hne : ∀ q ∈ running, q.requestId ≠ r.requestId := fun q hq heq =>
        hhead (heq ▸ List.mem_map_of_mem hq)
      obtain ⟨hpool', hK', hids', hpos', hcases, hkeep, hkeep', hlookup⟩ :=
        ih hids hpool₁ (hleaves.numSpeculativeTokens ▸ hK) hpos hd
          (fun q hq => (hsync q hq).of_leavesOthers hpool hpool₁ hleaves (hne q hq))
          (fun q hq hpre => (hleaves.shadow _ (hne q hq)).trans (hl q hq hpre)) hloop
      refine ⟨hpool', hK'.trans hleaves.numSpeculativeTokens, by simp [hids'],
        List.forall_mem_cons.mpr ⟨hposr, hpos'⟩,
        List.forall_mem_cons.mpr ⟨.inr (hkeep' _ hhead hahead), hcases⟩,
        fun q hq hs => ?_, fun q hq ha => ?_, fun id hid => ?_⟩
      · rw [List.map_cons, List.mem_cons, not_or] at hq
        exact hkeep q hq.2 (hs.of_leavesOthers hpool hpool₁ hleaves hq.1)
      · rw [List.map_cons, List.mem_cons, not_or] at hq
        exact hkeep' q hq.2 (ha.of_leavesOthers hpool hpool₁ hleaves hq.1)
      · rw [List.map_cons, List.mem_cons, not_or] at hid
        exact (hlookup id hid.2).trans (hleaves.shadow id hid.1)

/-- Proposing for the swept requests leads back to a state between the calls. -/
theorem SweptState.propose (st : SweptState d) {dp : DraftProposer κ} {running : List Request}
    (h : proposeLoop d.scheduler.running d.draftProposer = .ok (dp, running)) :
    SyncState { scheduler := { d.scheduler with running }, draftProposer := dp } := by
  obtain ⟨hpool, hK, hids, hpos, hcases, -, -, hlookup⟩ := proposeLoop_spec
    st.inOrder.running_nodup st.pooled st.proposes st.nonempty st.undrafted st.inSync
    st.unshadowed h
  have hK' : 0 < dp.numSpeculativeTokens := hK ▸ st.proposes
  refine ⟨⟨?_, st.inOrder.nodup⟩, hpool, hK', hpos, fun r hr => ?_, fun r hr hd => ?_,
    fun r hr hd => ?_⟩
  · rw [← st.inOrder.ids, List.map_append, List.map_append, ← hids]
  · obtain ⟨hd, hl⟩ := st.waiting r hr
    refine ⟨hd, (hlookup _ fun hmem => ?_).trans hl⟩
    obtain ⟨q, hq, hid⟩ := List.mem_map.mp hmem
    exact st.inOrder.disjoint hq hr hid
  · rcases hcases r hr with ⟨-, hl⟩ | hahead
    · exact hl
    · have hlen := hahead.length
      rw [hd] at hlen
      exact absurd hlen hK'.ne
  · rcases hcases r hr with ⟨hnil, -⟩ | hahead
    · exact absurd hnil hd
    · exact hahead

/-- The calls of `propose` in a step ask about requests in sync. -/
theorem SweptState.asked (st : SweptState d) {r : Request} {pre post proposed : List Request}
    {dp : DraftProposer κ} (hsplit : d.scheduler.running = pre ++ r :: post)
    (h : proposeLoop pre d.draftProposer = .ok (dp, proposed)) : dp.Sound r := by
  have hmem : ∀ q ∈ pre, q ∈ d.scheduler.running := fun q hq =>
    hsplit ▸ List.mem_append_left _ hq
  have hr : r ∈ d.scheduler.running := by simp [hsplit]
  have hnodup := st.inOrder.running_nodup
  rw [hsplit, List.map_append, List.map_cons] at hnodup
  have hpre := List.nodup_append.mp hnodup
  have hne : r.requestId ∉ pre.map Request.requestId := fun hmem =>
    hpre.2.2 _ hmem _ List.mem_cons_self rfl
  obtain ⟨hpool, -, -, -, -, hkeep, -⟩ := proposeLoop_spec hpre.1 st.pooled st.proposes
    (fun q hq => st.nonempty q (hmem q hq)) (fun q hq => st.undrafted q (hmem q hq))
    (fun q hq => st.inSync q (hmem q hq)) (fun q hq => st.unshadowed q (hmem q hq)) h
  exact (hkeep r hne (st.inSync r hr)).sound hpool (st.nonempty r hr)

/-! ## The calls -/

namespace SyncState

theorem start (e : LLMEngine) (c : SpeculativeConfig) (runner : PagedRunner κ) (numGpuBlocks : ℕ)
    (slot : BlockId × ℕ → κ) : SyncState (e.draftedStart c runner numGpuBlocks slot) where
  inOrder := ⟨rfl, List.nodup_nil⟩
  pooled := .new runner _ numGpuBlocks e.cacheConfig.blockSize_pos
  proposes := c.numSpeculativeTokens_pos
  nonempty _ hr := (List.not_mem_nil hr).elim
  waiting _ hr := (List.not_mem_nil hr).elim
  undrafted _ hr := (List.not_mem_nil hr).elim
  drafted _ hr := (List.not_mem_nil hr).elim

theorem addRequest (st : SyncState d) {id : RequestId} {promptTokenIds : List Token}
    {params : SamplingParams} (hv : Verifies d (.addRequest id promptTokenIds params))
    {s : Scheduler}
    (hs : d.scheduler.addRequest (LLMEngine.newRequest id promptTokenIds params) = .ok s) :
    SyncState { d with scheduler := s } := by
  obtain ⟨o, -⟩ := st.inOrder.addRequest hs
  cases addRequest_eq hs
  refine ⟨o, st.pooled, st.proposes, st.nonempty, fun r hr => ?_, st.undrafted, st.drafted⟩
  rcases List.mem_append.mp hr with hr | hr
  · exact st.waiting r hr
  · rw [List.mem_singleton.mp hr]
    exact ⟨rfl, hv⟩

theorem abortRequests (st : SyncState d) {ids : List RequestId} {s : Scheduler}
    {gone : List Request}
    (hs : d.scheduler.abortRequests ids = .ok (s, gone)) : SyncState { d with scheduler := s } := by
  obtain ⟨o, -⟩ := st.inOrder.abortRequests hs
  obtain ⟨hrunning, hwaiting⟩ := mem_of_abortRequests hs
  exact ⟨o, st.pooled, st.proposes, fun r hr => st.nonempty r (hrunning r hr),
    fun r hr => st.waiting r (hwaiting r hr), fun r hr => st.undrafted r (hrunning r hr),
    fun r hr => st.drafted r (hrunning r hr)⟩

theorem step (st : SyncState d) (hv : Verifies d .step)
    (h : e.draftedStep d = .ok (d', out, finished)) : SyncState d' := by
  obtain ⟨⟨d₁, out', finished'⟩, hswept, hrest⟩ := bind_eq_ok.mp h
  obtain ⟨⟨dp, running⟩, hloop, hret⟩ := bind_eq_ok.mp hrest
  cases hret
  exact (st.swept hv hswept).propose hloop

theorem perform (st : SyncState d) {c : DraftedCall} (hv : Verifies d c) {gone : List Request}
    (h : e.draftedPerform d c = .ok (d', gone)) : SyncState d' := by
  cases c with
  | addRequest id promptTokenIds params =>
    obtain ⟨s, hs, hret⟩ := bind_eq_ok.mp h
    cases hret
    exact st.addRequest hv hs
  | step =>
    obtain ⟨⟨d₁, out, finished⟩, hs, hret⟩ := bind_eq_ok.mp h
    cases hret
    exact st.step hv hs
  | abortRequests ids =>
    obtain ⟨⟨s, gone'⟩, hs, hret⟩ := bind_eq_ok.mp h
    cases hret
    exact st.abortRequests hs

theorem of_run {start : DraftedEngine κ} (hstart : SyncState start)
    (h : e.DraftedRun Verifies start d) : SyncState d := by
  induction h with
  | start => exact hstart
  | call c _ hm hc ih => exact ih.perform hm hc

end SyncState

end DraftedEngine

/-- In a run that verifies every draft in the step after its proposal and uses no id of a shadow
again, every call of `propose` finds the shadow behind the request's tokens with nothing computed
from a rejected one, has a row due in every round, and returns the draft model's greedy
continuation of the committed tokens. -/
theorem sound_of_run {κ : Type} {e : LLMEngine} {c : SpeculativeConfig} {runner : PagedRunner κ}
    {numGpuBlocks : ℕ} {slot : BlockId × ℕ → κ} {d d₁ : DraftedEngine κ}
    (h : e.DraftedRun DraftedEngine.Verifies (e.draftedStart c runner numGpuBlocks slot) d)
    (hv : DraftedEngine.Verifies d .step) {r : Request} {dp : DraftProposer κ}
    (ha : e.Asks d d₁ r dp) : dp.Sound r := by
  obtain ⟨out, finished, hswept⟩ := ha.swept
  obtain ⟨pre, post, proposed, hsplit, hloop⟩ := ha.reached
  have st := DraftedEngine.SyncState.of_run (.start e c runner numGpuBlocks slot) h
  exact (st.swept hv hswept).asked hsplit hloop

/-- A budget of two tokens a step, which is one verify round. -/
def tightEngine : LLMEngine where
  cacheConfig := .ofBlocks 2 8 Nat.two_pos
  schedulerConfig :=
    { SchedulerConfig.defaults with
      maxNumBatchedTokens := 2, maxNumBatchedTokens_pos := Nat.two_pos }
  runner := { next := fun tokens => tokens.length }
  speculativeConfig := some { numSpeculativeTokens := 1, numSpeculativeTokens_pos := Nat.one_pos }
  hashFn := fun _ _ => 0

/-- The engine with a draft model of its own kind, which proposes one token. -/
def tightStart : DraftedEngine Unit :=
  tightEngine.draftedStart { numSpeculativeTokens := 1, numSpeculativeTokens_pos := Nat.one_pos }
    { model := { encode := fun _ _ => (), sample := fun entries => entries.length } } 4 fun _ => ()

/-- The engine with the default budget. -/
def roomyEngine : LLMEngine :=
  { tightEngine with
    schedulerConfig := .defaults
    speculativeConfig :=
      some { numSpeculativeTokens := 2, numSpeculativeTokens_pos := Nat.two_pos } }

/-- With a draft model that proposes two tokens and gets every third one wrong. -/
def roomyStart : DraftedEngine Unit :=
  roomyEngine.draftedStart { numSpeculativeTokens := 2, numSpeculativeTokens_pos := Nat.two_pos }
    { model := {
        encode := fun _ _ => ()
        sample := fun entries => if entries.length % 3 = 0 then 0 else entries.length } }
    8 fun _ => ()

/-- Two requests hold drafts; a third one comes and is aborted. The verify rounds keep one token of
the first draft and both of the second, and the second request is asked about again: its shadow is
two tokens behind. -/
theorem sound_of_run_verified : ∃ d d₁ r dp,
    roomyEngine.DraftedRun DraftedEngine.Verifies roomyStart d ∧
      d.scheduler.running.map Request.draftTokenIds = [[2, 0], [4, 5]] ∧
      DraftedEngine.Verifies d .step ∧ roomyEngine.Asks d d₁ r dp ∧
      d₁.scheduler.running.map Request.outputTokenIds = [[1, 2, 3], [3, 4, 5, 6]] ∧
      r.requestId = 1 ∧ (dp.shadowRequests.lookup 1).map Request.numComputedTokens = some 5 ∧
      dp.Sound r := by
  have hasks : (roomyEngine.draftedPerformAll DraftedEngine.Verifies roomyStart
      [.addRequest 0 [7] {}, .addRequest 1 [8, 8, 8] {}, .step, .addRequest 2 [9] {},
        .abortRequests [2]]).any (fun d =>
      (roomyEngine.sweptStep d).toOption.any fun next =>
        next.1.scheduler.running.head?.any fun r₀ =>
        next.1.scheduler.running.tail.head?.any fun r₁ =>
          (DraftedEngine.proposeLoop [r₀] next.1.draftProposer).toOption.any fun asked => decide (
            d.scheduler.running.map Request.draftTokenIds = [[2, 0], [4, 5]] ∧
            DraftedEngine.Verifies d .step ∧
            next.1.scheduler.running.map Request.outputTokenIds = [[1, 2, 3], [3, 4, 5, 6]] ∧
            r₁.isPrefill = false ∧ r₁.requestId = 1 ∧
            (asked.1.shadowRequests.lookup 1).map Request.numComputedTokens = some 5)) = true := by
    decide +kernel
  simp only [Option.any_eq_true, toOption_eq_some, List.head?_eq_some_iff,
    decide_eq_true_eq] at hasks
  obtain ⟨d, hcalls, ⟨d₁, rest⟩, hstep, r₀, ⟨after₀, hrunning⟩, r₁, ⟨after₁, htail⟩, ⟨dp, proposed⟩,
    hloop, hdrafts, hv, houts, hpast, hid, hshadow⟩ := hasks
  obtain rfl : after₀ = r₁ :: after₁ := by rw [← htail, hrunning, List.tail_cons]
  have hrun := LLMEngine.DraftedRun.performAll .start hcalls
  have ha : roomyEngine.Asks d d₁ r₁ dp :=
    ⟨⟨_, _, hstep⟩, ⟨[r₀], after₁, _, hrunning, hloop⟩, hpast⟩
  exact ⟨d, d₁, r₁, dp, hrun, hdrafts, hv, ha, houts, hid, hshadow, sound_of_run hrun hv ha⟩

/-- Two requests are proposed for in one step, and the next step has a budget for one verify
round only. The other request's shadow is not wound back, and is ahead when it is asked about. -/
theorem skipped_round_desyncs :
    ¬ ∀ (e : LLMEngine) (c : SpeculativeConfig) (runner : PagedRunner Unit)
    (numGpuBlocks : ℕ) (slot : BlockId × ℕ → Unit) (d d₁ : DraftedEngine Unit) (r : Request)
    (dp : DraftProposer Unit), e.DraftedRun (fun _ _ => True)
      (e.draftedStart c runner numGpuBlocks slot) d → e.Asks d d₁ r dp → dp.Sound r := by
  intro h
  have hbad : (tightEngine.draftedPerformAll (fun _ _ => True) tightStart
      [.addRequest 0 [1] {}, .addRequest 1 [2] {}, .step]).any (fun d =>
      (tightEngine.sweptStep d).toOption.any fun next =>
        next.1.scheduler.running.head?.any fun r₀ =>
        next.1.scheduler.running.tail.head?.any fun r₁ =>
          (DraftedEngine.proposeLoop [r₀] next.1.draftProposer).toOption.any fun asked =>
            (asked.1.shadowRequests.lookup r₁.requestId).any fun shadow =>
              decide (r₁.isPrefill = false ∧ r₁.getLen < shadow.numComputedTokens + 1)) = true := by
    decide +kernel
  simp only [Option.any_eq_true, toOption_eq_some, List.head?_eq_some_iff,
    decide_eq_true_eq] at hbad
  obtain ⟨d, hcalls, ⟨d₁, rest⟩, hstep, r₀, ⟨after₀, hrunning⟩, r₁, ⟨after₁, htail⟩, ⟨dp, proposed⟩,
    hloop, shadow, hshadow, hpast, hahead⟩ := hbad
  obtain rfl : after₀ = r₁ :: after₁ := by rw [← htail, hrunning, List.tail_cons]
  have hasks : tightEngine.Asks d d₁ r₁ dp :=
    ⟨⟨_, _, hstep⟩, ⟨[r₀], after₁, _, hrunning, hloop⟩, hpast⟩
  have hsound := h tightEngine _ _ _ _ d d₁ r₁ dp (.performAll .start hcalls) hasks
  obtain ⟨-, hbehind, -⟩ := hsound.inSync shadow hshadow
  omega

end LightServe
