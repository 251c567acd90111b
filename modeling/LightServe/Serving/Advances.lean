import LightServe.Serving.Ownership

/-!
# What a step computes

As long as nobody is preempted with a draft, a draft stands only at the end of a request's tokens:
a verify round starts at the last token, past the prompt, and is wound back to what it kept. So
every row that a request keeps was computed from its own tokens.

## Main definitions

* `Scheduler.BumpsUndrafted` — the condition on a step.
* `Advance` — the turn of a request in a step that meets it.
* `Phased` — where drafts stand between steps.
* `Request.computed`, `Advance.computed` — the tokens with entries, before a step and after it.
-/

namespace LightServe

open Scheduler

/-- Nobody that the step preempts holds a draft. -/
def Scheduler.BumpsUndrafted (s : Scheduler) : Prop :=
  ∀ s₁ out, s.schedule = .ok (s₁, out) → ∀ r ∈ s.running,
    r.requestId ∈ out.preempted → r.draftTokenIds = []

instance (s : Scheduler) : Decidable s.BumpsUndrafted := s.decidableOnSchedule _

/-- A verify round from the last token of a request that is past its prompt. -/
structure Request.Verifies (r : Request) (n : ℕ) : Prop where
  drafted : r.draftTokenIds ≠ []
  length : n = r.draftTokenIds.length + 1
  le_computed : n ≤ r.numComputedTokens
  last : r.numComputedTokens - n + 1 = r.getLen
  past : r.promptTokenIds.length ≤ r.numComputedTokens - n

/-- The turn of a request that is scheduled for some tokens, or for none: it stays, computes a
chunk of its prompt, samples a token, or keeps a first part of a verified draft. -/
inductive Advance (next : List Token → Token) (r : Request) : Option ℕ → Request → Prop
  | idle : Advance next r none r
  | chunk {n : ℕ} (hp : Placed r n) (hd : r.draftTokenIds = []) (h : r.isPrefill = true) :
      Advance next r (some n) r
  | sample {n : ℕ} (hp : Placed r n) (hd : r.draftTokenIds = []) (h : r.isPrefill = false) :
      Advance next r (some n) (r.grown [next (r.allTokenIds.take r.numComputedTokens)])
  | verify {n : ℕ} {kept : List Token} (h : r.Verifies n)
      (hk : kept <+: Decode.verify next r.allTokenIds r.draftTokenIds) (hne : kept ≠ []) :
      Advance next r (some n) { r.grown kept with
        numComputedTokens := r.numComputedTokens - (n - kept.length)
        draftTokenIds := [] }

/-! ## One turn -/

section Turn
variable {e : LLMEngine} {out : SchedulerOutput} {r : Request} {n : ℕ}

/-- A request without a draft computes a chunk, or samples a token. -/
theorem LLMEngine.advance_undrafted (hn : out.tokensOf r.requestId = some n) (hp : Placed r n)
    (hd : r.draftTokenIds = []) (hfin : r.isFinished = false) :
    Advance e.runner.next r (some n) (e.turn out r) := by
  have hround : out.roundOf r = none := SchedulerOutput.roundOf_of_undrafted hd
  cases hpre : r.isPrefill with
  | true =>
    rw [turn_prefill hn hround hpre]
    exact .chunk hp hd hpre
  | false =>
    rw [turn_sample hn hround hpre hd hfin]
    exact .sample hp hd hpre

/-- A verify round keeps a first part of the verified draft. -/
theorem LLMEngine.advance_round (hn : out.tokensOf r.requestId = some n)
    (hround : out.roundOf r = some n) (h : r.Verifies n) (hfin : r.isFinished = false) :
    Advance e.runner.next r (some n) (e.turn out r) := by
  have hpre : r.isPrefill = false := by
    rw [Request.isPrefill, decide_eq_false_iff_not, not_lt]
    exact h.past.trans (Nat.sub_le _ _)
  have hall : r.allTokenIds.take (r.numComputedTokens - n + 1) = r.allTokenIds := by
    rw [h.last, ← Request.length_allTokenIds, List.take_length]
  obtain ⟨j, hpos, hj, -, -, hturn⟩ := turn_round (e := e) hn hround hpre h.drafted hfin rfl
  rw [hall] at hj hturn
  have hlen := List.length_take_of_le hj
  rw [hturn, show n - j = n - (List.take j _).length by rw [hlen]]
  refine .verify h (List.take_prefix _ _) (List.length_pos_iff.mp ?_)
  rw [hlen]
  exact hpos

end Turn

namespace Advance
variable {next : List Token → Token} {r x : Request} {tokens : Option ℕ}

theorem promptTokenIds (h : Advance next r tokens x) : x.promptTokenIds = r.promptTokenIds := by
  cases h <;> rfl

end Advance

/-! ## Between steps -/

/-- Where drafts stand between steps: at the last token of a request that is past its prompt, and
nowhere in the waiting queue. Where `K` tokens are drafted, a request without a draft has no
output. -/
structure Phased (K : ℕ) (s : Scheduler) : Prop where
  ready : ∀ r ∈ s.running, r.draftTokenIds ≠ [] →
    r.numComputedTokens + 1 = r.getLen ∧ r.isPrefill = false
  queued : ∀ r ∈ s.waiting, r.draftTokenIds = []
  fresh : 0 < K → ∀ r ∈ s.running ++ s.waiting, r.draftTokenIds = [] → r.outputTokenIds = []

namespace Phased
variable {K : ℕ} {s s₁ s' : Scheduler} {out : SchedulerOutput} {plan : List Decision}
  {victims : List Request} {as : List Admission}

theorem new (K : ℕ) (cache : CacheConfig) (config : SchedulerConfig)
    (hashFn : Option BlockHash → List Token → BlockHash) : Phased K (.new cache config hashFn) where
  ready _ hr := (List.not_mem_nil hr).elim
  queued _ hr := (List.not_mem_nil hr).elim
  fresh _ _ hr := (List.not_mem_nil hr).elim

theorem addRequest (h : Phased K s) {id : RequestId} {promptTokenIds : List Token}
    {params : SamplingParams}
    (hs : s.addRequest (LLMEngine.newRequest id promptTokenIds params) = .ok s') : Phased K s' := by
  rw [addRequest_eq hs]
  refine ⟨h.ready, fun r hr => ?_, fun hK r hr hnil => ?_⟩
  · rcases List.mem_append.mp hr with hr | hr
    · exact h.queued r hr
    · rw [List.mem_singleton.mp hr]
      rfl
  · rw [← List.append_assoc] at hr
    rcases List.mem_append.mp hr with hr | hr
    · exact h.fresh hK r hr hnil
    · rw [List.mem_singleton.mp hr]
      rfl

theorem abortRequests (h : Phased K s) {ids : List RequestId} {gone : List Request}
    (hs : s.abortRequests ids = .ok (s', gone)) : Phased K s' := by
  obtain ⟨hrunning, hwaiting, -⟩ := sublist_of_abortRequests hs
  exact ⟨fun r hr => h.ready r (hrunning.subset hr), fun r hr => h.queued r (hwaiting.subset hr),
    fun hK r hr => h.fresh hK r ((hrunning.append hwaiting).subset hr)⟩

/-- The rows of whoever is scheduled: its own tokens, or a verify round from its last one. -/
theorem rows (h : Phased K s) (t : StepTrace s s₁ out plan victims as) (o : InOrder s₁)
    (hq : s.Queued) {r : Request} (hr : r ∈ s₁.running) {n : ℕ}
    (hn : out.tokensOf r.requestId = some n) :
    (r.draftTokenIds = [] ∧ Placed r n) ∨ (out.roundOf r = some n ∧ r.Verifies n) := by
  rw [t.running', List.mem_append] at hr
  rcases hr with hr | hr
  · obtain ⟨d, hd, rfl⟩ := List.mem_map.mp hr
    have hmem : d.request ∈ s.running := t.running ▸ List.mem_append_left _ (List.mem_map_of_mem hd)
    have hround := t.roundOf_plan o hd
    rw [Decision.result_requestId, t.tokensOf_plan o hd] at hn
    obtain ⟨budget, hsound⟩ := t.plan_sound' hd
    rcases hsound.cases with ⟨hg, -⟩ | ⟨m, hpos, -, hg, hres, hdrafted, hundrafted⟩
    · rw [hg] at hn
      cases hn
    · obtain rfl : m = n := by simpa [hg] using hn
      rw [hg, Option.map_some, Int.toNat_natCast] at hround
      rw [hres] at hround ⊢
      by_cases hd : d.request.draftTokenIds = []
      · exact .inl ⟨hd, hpos, Nat.le_add_left _ _, fun _ => (hundrafted hd).1⟩
      · rw [if_pos hd] at hround
        obtain ⟨hlast, hpre⟩ := h.ready _ hmem hd
        rw [Request.isPrefill, decide_eq_false_iff_not, not_lt] at hpre
        refine .inr ⟨hround, hd, hdrafted hd, Nat.le_add_left _ _, ?_, ?_⟩
        · show d.request.numComputedTokens + m - m + 1 = _
          rw [Nat.add_sub_cancel]
          exact hlast
        · show _ ≤ d.request.numComputedTokens + m - m
          rw [Nat.add_sub_cancel]
          exact hpre
  · obtain ⟨a, ha, rfl⟩ := List.mem_map.mp hr
    obtain ⟨hprompt, hnc⟩ := hq _ (t.mem_waiting ha)
    rw [Admission.result_requestId, t.tokensOf_admission o ha] at hn
    obtain ⟨budget, hsound⟩ := t.admissions_sound' ha
    obtain ⟨k, m, hpos, -, hchunk, -, hres, hle, -⟩ := hsound.cases hprompt hnc
    obtain rfl : m = n := by simpa [hchunk] using hn
    have hnil : a.request.draftTokenIds = [] := h.queued _ (t.mem_waiting ha)
    rw [hres]
    exact .inl ⟨hnil, hpos, Nat.le_add_left _ _, fun _ => hle⟩

section Step
variable {e : LLMEngine} {drafts : Option (RequestId → List Token)} {finished : List Request}
  {turned : Request → Request}

/-- The turns of a step. -/
theorem advance (h : Phased e.lookahead s) (hstale : StaleDrafts e.lookahead s) (hq : s.Queued)
    (t : StepTrace s s₁ out plan victims as) (o : InOrder s₁) {r : Request} (hr : r ∈ s₁.running) :
    Advance e.runner.next r (out.tokensOf r.requestId) (e.turn out r) := by
  have hplanned := hstale.planned t o hq hr
  cases hn : out.tokensOf r.requestId with
  | none =>
    have hround : out.roundOf r = none := by
      cases hround : out.roundOf r with
      | none => rfl
      | some n =>
        have := (hplanned.round n hround).1
        rw [hn] at this
        cases this
    rw [LLMEngine.turn_idle hn hround]
    exact .idle
  | some n =>
    rcases h.rows t o hq hr hn with ⟨hd, hp⟩ | ⟨hround, hv⟩
    · exact LLMEngine.advance_undrafted hn hp hd hplanned.unfinished
    · exact LLMEngine.advance_round hn hround hv hplanned.unfinished

/-- Where a turn and the proposals leave a draft. -/
theorem ready_of_advance (h : Phased e.lookahead s) (hstale : StaleDrafts e.lookahead s)
    {tokens round : Option ℕ} {r x p : Request} (hr : r.Planned e.lookahead s tokens round)
    (ha : Advance e.runner.next r tokens x) (hren : Renoded x p) (hd : e.Proposes drafts)
    (hne : (p.proposed drafts).draftTokenIds ≠ []) :
    (p.proposed drafts).numComputedTokens + 1 = (p.proposed drafts).getLen ∧
      (p.proposed drafts).isPrefill = false := by
  obtain ⟨nodes, rfl⟩ := hren
  obtain ⟨draft, hprop, hsame, -⟩ :=
    LLMEngine.proposed_cases hd { x with cachedPrefixNodes := nodes }
  rw [hprop] at hne ⊢
  show x.numComputedTokens + 1 = x.getLen ∧ x.isPrefill = false
  have hout : r.draftTokenIds = [] → 0 < e.lookahead → r.outputTokenIds = [] := by
    intro hnil hK
    obtain ⟨q, hq, hout, hdraft⟩ := hr.before
    rw [← hout]
    exact h.fresh hK q hq (hdraft.trans hnil)
  -- a draft that is new is past the prompt
  have hnew : x.draftTokenIds = [] → x.isPrefill = false ∧ 0 < e.lookahead := by
    intro hx
    have hside : ¬ (x.isPrefill = true ∨ e.lookahead = 0) := fun hside =>
      hne ((hsame hside).trans hx)
    rw [not_or, Bool.not_eq_true] at hside
    exact ⟨hside.1, Nat.pos_of_ne_zero hside.2⟩
  cases ha with
  | idle =>
    have hmem := hr.idle rfl
    by_cases hnil : r.draftTokenIds = []
    · obtain ⟨hpre, hK⟩ := hnew hnil
      have hbegun := hstale.begun r hmem (hout hnil hK)
      rw [hpre] at hbegun
      cases hbegun
    · exact h.ready r hmem hnil
  | chunk hp hnil hpre =>
    rw [hpre] at hnew
    cases (hnew hnil).1
  | sample hp hnil hpre =>
    obtain ⟨-, hK⟩ := hnew hnil
    have hle := hp.computed_le hnil
    have hpast : r.promptTokenIds.length ≤ r.numComputedTokens := by
      rwa [Request.isPrefill, decide_eq_false_iff_not, not_lt] at hpre
    refine ⟨?_, hpre⟩
    simp only [Request.getLen, Request.grown, hout hnil hK, List.nil_append, List.length_singleton,
      List.length_nil] at hle ⊢
    omega
  | @verify n kept hv hk _ =>
    have hlen := hk.length_le.trans (Decode.length_verify_le _ _ _)
    obtain ⟨-, hlength, hle, hlast, hpast⟩ := hv
    refine ⟨?_, (hnew rfl).1⟩
    simp only [Request.getLen, Request.grown, List.length_append] at hlast ⊢
    omega

/-- Whoever is without a draft after the proposals has no output. -/
theorem fresh_of_advance (h : Phased e.lookahead s) (hK : 0 < e.lookahead)
    {tokens round : Option ℕ} {r x p : Request} (hr : r.Planned e.lookahead s tokens round)
    (ha : Advance e.runner.next r tokens x) (hren : Renoded x p) (hd : e.Proposes drafts)
    (hnil : (p.proposed drafts).draftTokenIds = []) :
    (p.proposed drafts).outputTokenIds = [] := by
  obtain ⟨nodes, rfl⟩ := hren
  obtain ⟨draft, hprop, hsame, hnew⟩ :=
    LLMEngine.proposed_cases hd { x with cachedPrefixNodes := nodes }
  rw [hprop] at hnil ⊢
  show x.outputTokenIds = []
  have hpre : x.isPrefill = true := by
    by_contra hpre
    have hlen := hnew ((Bool.not_eq_true _).mp hpre) hK
    rw [show draft = [] from hnil, List.length_nil] at hlen
    omega
  have hx : x.draftTokenIds = [] := (hsame (.inl hpre)).symm.trans hnil
  have hout : r.draftTokenIds = [] → r.outputTokenIds = [] := by
    intro hnil
    obtain ⟨q, hq, hout, hdraft⟩ := hr.before
    rw [← hout]
    exact h.fresh hK q hq (hdraft.trans hnil)
  cases ha with
  | idle => exact hout hx
  | chunk _ hnil' _ => exact hout hnil'
  | sample _ _ hpast =>
    have hpre' : r.isPrefill = true := hpre
    rw [hpast] at hpre'
    cases hpre'
  | @verify n kept hv hk hne =>
    have hlt : r.numComputedTokens - (n - kept.length) < r.promptTokenIds.length :=
      of_decide_eq_true hpre
    have hpast := hv.past
    omega

theorem step (h : Phased e.lookahead s) (hstale : StaleDrafts e.lookahead s) (hq : s.Queued)
    (hm : e.speculativeConfig = none ∨ s.BumpsUndrafted)
    (st : e.StepSpec drafts s s' out finished s₁ plan victims as turned) (hd : e.Proposes drafts) :
    Phased e.lookahead s' := by
  have t := st.trace
  have hrun : ∀ q ∈ s'.running, ∃ r ∈ s₁.running, q = (turned r).proposed drafts := by
    intro q hqm
    rw [st.running_eq] at hqm
    obtain ⟨r, hr, rfl⟩ := List.mem_map.mp hqm
    exact ⟨r, (List.mem_filter.mp hr).1, rfl⟩
  have hbumped : ∀ v ∈ victims, v.draftTokenIds = [] := by
    intro v hv
    have hmem : v ∈ s.running := t.running ▸ List.mem_append_right _ hv
    rcases hm with hspec | hm
    · by_contra hne
      have hlen := (hstale.drafted v (List.mem_append_left _ hmem) hne).1
      rw [LLMEngine.lookahead, hspec] at hlen
      exact hne (List.length_eq_zero_iff.mp hlen)
    · refine hm s₁ out st.schedule v hmem ?_
      rw [t.preempted]
      exact List.mem_map_of_mem (List.mem_reverse.mpr hv)
  have hplanned := fun {r : Request} (hr : r ∈ s₁.running) => hstale.planned t st.inOrder hq hr
  have hadvance := fun {r : Request} (hr : r ∈ s₁.running) => h.advance hstale hq t st.inOrder hr
  refine ⟨fun q hqm hne => ?_, fun q hqm => ?_, fun hK q hqm hnil => ?_⟩
  · obtain ⟨r, hr, rfl⟩ := hrun q hqm
    exact h.ready_of_advance hstale (hplanned hr) (hadvance hr) (st.renoded r) hd hne
  · rw [st.waiting] at hqm
    rcases t.of_mem_waiting hqm with hmem | ⟨v, hv, nodes, rfl⟩
    · exact h.queued q hmem
    · exact hbumped v hv
  · rcases List.mem_append.mp hqm with hqm | hqm
    · obtain ⟨r, hr, rfl⟩ := hrun q hqm
      exact h.fresh_of_advance hK (hplanned hr) (hadvance hr) (st.renoded r) hd hnil
    · rw [st.waiting] at hqm
      rcases t.of_mem_waiting hqm with hmem | ⟨v, hv, nodes, rfl⟩
      · exact h.fresh hK q (List.mem_append_right _ hmem) hnil
      · exact h.fresh hK v (List.mem_append_left _ (t.running ▸ List.mem_append_right _ hv)) hnil

end Step

end Phased

/-! ## Computed tokens -/

/-- The tokens of a request that have entries. -/
def Request.computed (r : Request) : List Token := r.allTokenIds.take r.numComputedTokens

/-- Those that had entries before the request was scheduled for some tokens. -/
def Request.computedBefore (tokens : Option ℕ) (r : Request) : List Token :=
  r.allTokenIds.take (r.numComputedTokens - tokens.getD 0)

/-- The tokens that a scheduled request is run on. -/
def Request.inputs (tokens : Option ℕ) (r : Request) : List Token :=
  tokens.elim [] fun n =>
    if r.draftTokenIds = [] then
      (r.allTokenIds.take r.numComputedTokens).drop (r.numComputedTokens - n)
    else (r.allTokenIds.drop (r.numComputedTokens - n)).take 1 ++ r.draftTokenIds

namespace Advance
variable {next : List Token → Token} {r x : Request} {tokens : Option ℕ}

/-- A request without a draft is run on its own tokens. -/
theorem run_undrafted {n : ℕ} (hd : r.draftTokenIds = []) :
    r.computedBefore (some n) ++ r.inputs (some n) = r.computed := by
  rw [Request.computedBefore, Request.inputs, Option.getD_some, Option.elim_some, if_pos hd]
  have hsplit := List.take_append_drop (r.numComputedTokens - n)
    (r.allTokenIds.take r.numComputedTokens)
  rwa [List.take_take, Nat.min_eq_left (Nat.sub_le _ _)] at hsplit

/-- A verify round is run on the draft behind all tokens. -/
theorem run_verifies {n : ℕ} (h : r.Verifies n) :
    r.computedBefore (some n) ++ r.inputs (some n) = r.allTokenIds ++ r.draftTokenIds := by
  rw [Request.computedBefore, Request.inputs, Option.getD_some, Option.elim_some,
    if_neg h.drafted, ← List.append_assoc]
  congr 1
  have hone : (r.allTokenIds.drop (r.numComputedTokens - n)).take 1 =
      r.allTokenIds.drop (r.numComputedTokens - n) := by
    refine List.take_of_length_le ?_
    have hlast := h.last
    rw [List.length_drop, Request.length_allTokenIds]
    omega
  rw [hone, List.take_append_drop]

/-- Whatever a request keeps was computed from its own tokens. -/
theorem computed (h : Advance next r tokens x) :
    x.computed <+: r.computedBefore tokens ++ r.inputs tokens := by
  cases h with
  | idle => exact List.prefix_append _ _
  | chunk _ hd _ =>
    rw [run_undrafted hd]
  | @sample n hp hd _ =>
    rw [run_undrafted hd]
    have hle := hp.computed_le hd
    have hsame : (r.grown [next (r.allTokenIds.take r.numComputedTokens)]).computed =
        r.computed := by
      show ((r.promptTokenIds ++ (r.outputTokenIds ++ _)).take r.numComputedTokens) = _
      rw [← List.append_assoc, List.take_append_of_le_length]
      · rfl
      · rw [List.length_append]
        exact hle
    rw [hsame]
  | @verify n kept hv hk hne =>
    rw [run_verifies hv]
    have hpos := List.length_pos_iff.mpr hne
    have hlen := hk.length_le
    have hle := hlen.trans (Decode.length_verify_le _ _ _)
    -- but for the last token, what is kept is drafted
    have hdrafted : kept.dropLast <+: r.draftTokenIds := by
      refine List.prefix_iff_getElem?.mpr fun i hi => ?_
      rw [List.length_dropLast] at hi
      rw [Decode.getElem?_verify next r.allTokenIds _ (by omega), List.getElem_dropLast]
      exact List.prefix_iff_getElem?.mp hk i (by omega)
    have hsame : Request.computed { r.grown kept with
        numComputedTokens := r.numComputedTokens - (n - kept.length)
        draftTokenIds := [] } = r.allTokenIds ++ kept.dropLast := by
      show (r.promptTokenIds ++ (r.outputTokenIds ++ kept)).take _ = _
      have htake : r.numComputedTokens - (n - kept.length) =
          r.allTokenIds.length + (kept.length - 1) := by
        have hlast := hv.last
        have hcomputed := hv.le_computed
        have hlength := hv.length
        rw [Request.length_allTokenIds]
        omega
      rw [htake, ← List.append_assoc, List.dropLast_eq_take]
      exact List.take_length_add_append _
    rw [hsame, List.prefix_append_right_inj]
    exact hdrafted

end Advance

end LightServe
