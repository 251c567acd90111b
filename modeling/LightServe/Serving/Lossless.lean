import LightServe.Serving.Cacheless

/-!
# Lossless serving

Whatever the schedule, a request's output is the greedy decoding of its prompt alone, as long
as no chunk of a preempted request ends inside its outputs. A chunk that does commits a token
sampled in the middle of them.

## Main definitions

* `Request.Lossless` — the output and the status are those of the greedy decoding.
* `Request.OnTrack` — the output so far is greedy and has not stopped.
* `Request.Kept`, `Request.Served` — what a step keeps of a request, and what a turn owes it.
* `Scheduler.Uncut` — the condition on a step.
* `finished_lossless_of_run` — the result; `cut_chunk_diverges` — a run that breaks it.
-/

namespace LightServe

open Scheduler

/-! ## One request -/

namespace Request

/-- The output and the status are those of greedy decoding from the prompt alone. -/
def Lossless (next : List Token → Token) (r : Request) : Prop :=
  Decode.decode next (stopStatus r.samplingParams) r.promptTokenIds
      r.samplingParams.maxTokens.toNat [] =
    (r.outputTokenIds, some r.status)

instance (next : List Token → Token) (r : Request) : Decidable (r.Lossless next) :=
  inferInstanceAs (Decidable (_ = _))

/-- The output so far is greedy, and the stop rule lets it grow. -/
structure OnTrack (next : List Token → Token) (r : Request) : Prop where
  decoding : Decode.Decoding next (stopStatus r.samplingParams) r.promptTokenIds r.outputTokenIds
  goes_on : stopStatus r.samplingParams r.outputTokenIds = none
  unfinished : r.isFinished = false

variable {next : List Token → Token} {r : Request}

/-- Where a request's progress, holds and draft stand says nothing about its output. -/
theorem OnTrack.congr {r' : Request} (h : r.OnTrack next)
    (hprompt : r'.promptTokenIds = r.promptTokenIds)
    (hparams : r'.samplingParams = r.samplingParams) (hout : r'.outputTokenIds = r.outputTokenIds)
    (hfin : r'.isFinished = false) : r'.OnTrack next := by
  refine ⟨?_, ?_, hfin⟩
  · rw [hparams, hprompt, hout]
    exact h.decoding
  · rw [hparams, hout]
    exact h.goes_on

theorem onTrack_origin (id : RequestId) (promptTokenIds : List Token) {params : SamplingParams}
    (h : 0 < params.maxTokens) : (LLMEngine.newRequest id promptTokenIds params).OnTrack next :=
  ⟨.nil, stopStatus_nil h, rfl⟩

/-- Greedy tokens up to the first stop keep a request on track or finish it losslessly. -/
theorem OnTrack.grown (h : r.OnTrack next) {tokens : List Token} (hne : tokens ≠ [])
    (hgreedy : Decode.Greedy next r.allTokenIds tokens)
    (hgo : ∀ i, 0 < i → i < tokens.length →
      stopStatus r.samplingParams (r.outputTokenIds ++ tokens.take i) = none) :
    ((r.grown tokens).isFinished = false → (r.grown tokens).OnTrack next) ∧
      ((r.grown tokens).isFinished = true → (r.grown tokens).Lossless next) := by
  have hdec : Decode.Decoding next (stopStatus r.samplingParams) r.promptTokenIds
      (r.outputTokenIds ++ tokens) := by
    refine h.decoding.append hgreedy fun k hk => ?_
    rcases Nat.eq_zero_or_pos k with rfl | hpos
    · simpa using h.goes_on
    · exact hgo k hpos hk
  cases hstop : stopStatus r.samplingParams (r.outputTokenIds ++ tokens) with
  | none =>
    have hstatus : (r.grown tokens).status = r.status := by
      simp only [Request.grown, hstop, Option.getD_none]
    have hfin : (r.grown tokens).isFinished = false := by
      rw [isFinished, hstatus]
      exact h.unfinished
    refine ⟨fun _ => ⟨hdec, hstop, hfin⟩, fun hf => ?_⟩
    rw [hfin] at hf
    cases hf
  | some status =>
    have hstatus : (r.grown tokens).status = status := by
      simp only [Request.grown, hstop, Option.getD_some]
    have hfin : (r.grown tokens).isFinished = true := by
      rw [isFinished, hstatus]
      exact finished_of_stopStatus hstop
    refine ⟨fun hf => ?_, fun _ => ?_⟩
    · rw [hfin] at hf
      cases hf
    · have hlen : (r.outputTokenIds ++ tokens).length ≤ r.samplingParams.maxTokens.toNat := by
        have hpos := List.length_pos_iff.mpr hne
        have hlt : (r.outputTokenIds ++ tokens).length - 1 <
            (r.outputTokenIds ++ tokens).length := by
          rw [List.length_append]
          omega
        have hshort := length_le_of_stopStatus (hdec.goes_on _ hlt)
        rw [List.length_take, Nat.min_eq_left (Nat.sub_le _ _)] at hshort
        omega
      rw [Lossless, hstatus]
      exact hdec.decode_eq (by simp [hne]) hstop hlen

end Request

/-- A request that the engine can serve: a prompt, and room for a token. -/
def Request.Servable (r : Request) : Prop :=
  r.promptTokenIds ≠ [] ∧ 0 < r.samplingParams.maxTokens

instance (r : Request) : Decidable r.Servable := inferInstanceAs (Decidable (_ ∧ _))

/-- A served request arrived, has a prompt and is on track. -/
structure Request.Kept (next : List Token → Token) (arrived : List Request) (r : Request) :
    Prop where
  arrived : r.origin ∈ arrived
  prompt : r.promptTokenIds ≠ []
  onTrack : r.OnTrack next

namespace Request.Kept
variable {next : List Token → Token} {arrived : List Request} {r r' : Request}

theorem congr (h : r.Kept next arrived) (hid : r'.requestId = r.requestId)
    (hprompt : r'.promptTokenIds = r.promptTokenIds)
    (hparams : r'.samplingParams = r.samplingParams) (hout : r'.outputTokenIds = r.outputTokenIds)
    (hfin : r'.isFinished = false) :
    r'.Kept next arrived := by
  refine ⟨?_, by rw [hprompt]; exact h.prompt, h.onTrack.congr hprompt hparams hout hfin⟩
  rw [Request.origin, hid, hprompt, hparams]
  exact h.arrived

theorem mono (h : r.Kept next arrived) (q : Request) : r.Kept next (arrived ++ [q]) :=
  ⟨List.mem_append_left _ h.arrived, h.prompt, h.onTrack⟩

theorem new (id : RequestId) {promptTokenIds : List Token} {params : SamplingParams}
    (h : (LLMEngine.newRequest id promptTokenIds params).Servable) :
    (LLMEngine.newRequest id promptTokenIds params).Kept next
      (arrived ++ [LLMEngine.newRequest id promptTokenIds params]) :=
  ⟨List.mem_append_right _ List.mem_cons_self, h.1, onTrack_origin id promptTokenIds h.2⟩

theorem bumped (h : r.Kept next arrived) (hb : Bumped r r') : r'.Kept next arrived := by
  obtain ⟨nodes, rfl⟩ := hb
  exact h.congr rfl rfl rfl rfl rfl

theorem proposed (h : r.Kept next arrived) (drafts : Option (RequestId → List Token)) :
    (r.proposed drafts).Kept next arrived := by
  obtain ⟨draft, hr⟩ := r.proposed_eq drafts
  rw [hr]
  exact h.congr rfl rfl rfl rfl h.onTrack.unfinished

/-- What a turn owes a request: it stays on track, or finishes losslessly. -/
theorem grown (h : r.Kept next arrived) {tokens : List Token} (hne : tokens ≠ [])
    (hgreedy : Decode.Greedy next r.allTokenIds tokens)
    (hgo : ∀ i, 0 < i → i < tokens.length →
      Request.stopStatus r.samplingParams (r.outputTokenIds ++ tokens.take i) = none) :
    ((r.grown tokens).isFinished = false → (r.grown tokens).Kept next arrived) ∧
      ((r.grown tokens).isFinished = true → (r.grown tokens).Lossless next) := by
  obtain ⟨hgoes, hstops⟩ := h.onTrack.grown hne hgreedy hgo
  exact ⟨fun hf => ⟨h.arrived, h.prompt, hgoes hf⟩, hstops⟩

end Request.Kept

/-- A turn keeps a request on track, or finishes it losslessly. -/
def Request.Served (next : List Token → Token) (arrived : List Request) (r : Request) : Prop :=
  r.origin ∈ arrived ∧ (r.isFinished = false → r.Kept next arrived) ∧
    (r.isFinished = true → r.Lossless next)

namespace Request.Served
variable {next : List Token → Token} {arrived : List Request} {r : Request}

theorem of_kept (h : r.Kept next arrived) : r.Served next arrived := by
  refine ⟨h.arrived, fun _ => h, fun hf => ?_⟩
  rw [h.onTrack.unfinished] at hf
  cases hf

theorem renoded {r' : Request} (h : r.Served next arrived) (hr : Renoded r r') :
    r'.Served next arrived := by
  obtain ⟨nodes, rfl⟩ := hr
  exact ⟨h.1, fun hf => (h.2.1 hf).congr rfl rfl rfl rfl hf, h.2.2⟩

end Request.Served

/-- What the decisions of a step left of a request that was kept. -/
theorem Decision.kept_result {next : List Token → Token} {arrived : List Request} {d : Decision}
    (h : d.request.Kept next arrived) : d.result.Kept next arrived := by
  unfold Decision.result
  split
  · exact h
  · exact h.congr rfl rfl rfl rfl h.onTrack.unfinished

theorem Admission.kept_result {next : List Token → Token} {arrived : List Request} {a : Admission}
    (h : a.request.Kept next arrived) : a.result.Kept next arrived :=
  h.congr rfl rfl rfl rfl rfl

/-! ## Plain decoding -/

/-- The step's schedule gives no chunk that ends inside a request's outputs: whom it schedules
is still inside the prompt, or is computed in full. -/
def Scheduler.Uncut (s : Scheduler) : Prop :=
  ∀ s₁ out, s.schedule = .ok (s₁, out) → ∀ r ∈ s₁.running,
    r.requestId ∈ out.scheduled.map ScheduledRequest.request →
      r.isPrefill = true ∨ r.numComputedTokens = r.getLen

instance (s : Scheduler) : Decidable s.Uncut := s.decidableOnSchedule _

theorem SchedulerOutput.mem_of_tokensOf {out : SchedulerOutput} {id : RequestId} {n : ℕ}
    (h : out.tokensOf id = some n) : id ∈ out.scheduled.map ScheduledRequest.request := by
  obtain ⟨sr, hsr, -⟩ := Option.map_eq_some_iff.mp h
  have hid : sr.request = id := by simpa using List.find?_some hsr
  exact hid ▸ List.mem_map_of_mem (List.mem_of_find?_eq_some hsr)

theorem SchedulerOutput.tokensOf_isSome_iff {out : SchedulerOutput} {id : RequestId} :
    (out.tokensOf id).isSome = true ↔ id ∈ out.scheduled.map ScheduledRequest.request := by
  refine ⟨fun h => ?_, fun h => ?_⟩
  · obtain ⟨n, hn⟩ := Option.isSome_iff_exists.mp h
    exact mem_of_tokensOf hn
  · obtain ⟨sr, hsr, hid⟩ := List.mem_map.mp h
    rw [tokensOf, Option.isSome_map, List.find?_isSome]
    exact ⟨sr, hsr, by simpa using hid⟩

theorem SchedulerOutput.roundOf_of_undrafted {out : SchedulerOutput} {r : Request}
    (h : r.draftTokenIds = []) : out.roundOf r = none := if_neg (not_not.mpr h)

namespace LLMEngine
variable {e : LLMEngine} {out : SchedulerOutput} {arrived : List Request} {r : Request} {n : ℕ}

/-- The turn of a scheduled request without a draft. -/
theorem served_turn (h : r.Kept e.runner.next arrived) (hd : r.draftTokenIds = [])
    (hn : out.tokensOf r.requestId = some n)
    (huncut : r.isPrefill = true ∨ r.numComputedTokens = r.getLen) :
    (e.turn out r).Served e.runner.next arrived ∧ (e.turn out r).draftTokenIds = [] := by
  have hround : out.roundOf r = none := SchedulerOutput.roundOf_of_undrafted hd
  cases hpre : r.isPrefill with
  | true =>
    rw [turn_prefill hn hround hpre]
    exact ⟨.of_kept h, hd⟩
  | false =>
    have hlen : r.numComputedTokens = r.getLen := huncut.resolve_left (by simp [hpre])
    rw [turn_sample hn hround hpre hd h.onTrack.unfinished, hlen, ← Request.length_allTokenIds,
      List.take_length]
    refine ⟨⟨h.arrived, h.grown (List.cons_ne_nil _ _) ⟨rfl, trivial⟩ fun i hi hlt => ?_⟩, hd⟩
    rw [List.length_singleton] at hlt
    omega

end LLMEngine

namespace LLMEngine

theorem proposes_none {e : LLMEngine} (h : e.speculativeConfig = none)
    {drafts : Option (RequestId → List Token)} (hd : e.Proposes drafts) : drafts = none := by
  unfold Proposes at hd
  rw [h] at hd
  cases drafts with
  | none => rfl
  | some d => exact hd.elim

theorem proposes_some {e : LLMEngine} {c : SpeculativeConfig} (h : e.speculativeConfig = some c)
    {drafts : Option (RequestId → List Token)} (hd : e.Proposes drafts) :
    ∃ d, drafts = some d ∧ ∀ id, (d id).length = c.numSpeculativeTokens := by
  unfold Proposes at hd
  rw [h] at hd
  cases drafts with
  | none => exact hd.elim
  | some d => exact ⟨d, rfl, hd⟩

end LLMEngine

/-- The state of an engine that decodes without a draft. -/
structure PlainState (e : LLMEngine) (arrived : List Request) (s : Scheduler) : Prop where
  cacheless : Cacheless s
  running : ∀ r ∈ s.running, r.Kept e.runner.next arrived ∧ r.draftTokenIds = []
  waiting : ∀ r ∈ s.waiting, (r.Kept e.runner.next arrived ∧ r.draftTokenIds = []) ∧
    r.numComputedTokens = 0

namespace PlainState
variable {e : LLMEngine} {arrived finished : List Request} {s s' : Scheduler}
  {out : SchedulerOutput}

theorem queued (h : PlainState e arrived s) : s.Queued := fun r hr =>
  ⟨(h.waiting r hr).1.1.prompt, (h.waiting r hr).2⟩

/-- After an uncut schedule every running request is served by its turn. -/
theorem served (h : PlainState e arrived s) (hm : s.Uncut) {s₁ : Scheduler} {plan : List Decision}
    {victims : List Request} {as : List Admission} {turned : Request → Request}
    (st : e.StepSpec none s s' out finished s₁ plan victims as turned) {r : Request}
    (hr : r ∈ s₁.running) :
    (e.turn out r).Served e.runner.next arrived ∧ (e.turn out r).draftTokenIds = [] := by
  have t := st.trace
  have huncut := hm s₁ out st.schedule r hr
  rw [t.running', List.mem_append] at hr
  rcases hr with hr | hr
  · obtain ⟨d, hd, rfl⟩ := List.mem_map.mp hr
    obtain ⟨hkept, hdrafts⟩ := h.running d.request
      (t.running ▸ List.mem_append_left _ (List.mem_map_of_mem hd))
    have hkept' := Decision.kept_result hkept
    have hdrafts' : d.result.draftTokenIds = [] := by
      unfold Decision.result
      split <;> exact hdrafts
    have htokens := t.tokensOf_plan st.inOrder hd
    rw [← Decision.result_requestId] at htokens
    cases hg : d.grant with
    | none =>
      rw [hg] at htokens
      rw [LLMEngine.turn_idle htokens (SchedulerOutput.roundOf_of_undrafted hdrafts')]
      exact ⟨.of_kept hkept', hdrafts'⟩
    | some c =>
      rw [hg] at htokens
      exact LLMEngine.served_turn hkept' hdrafts' htokens
        (huncut (SchedulerOutput.mem_of_tokensOf htokens))
  · obtain ⟨a, ha, rfl⟩ := List.mem_map.mp hr
    obtain ⟨⟨hkept, hdrafts⟩, -⟩ := h.waiting a.request (t.mem_waiting ha)
    have htokens := t.tokensOf_admission st.inOrder ha
    rw [← Admission.result_requestId] at htokens
    exact LLMEngine.served_turn (Admission.kept_result hkept) hdrafts htokens
      (huncut (SchedulerOutput.mem_of_tokensOf htokens))

theorem step (h : PlainState e arrived s) (hm : s.Uncut)
    (hs : e.step none s = .ok (s', out, finished)) :
    PlainState e arrived s' ∧ ∀ r ∈ finished, r.origin ∈ arrived ∧ r.Lossless e.runner.next := by
  obtain ⟨s₁, plan, victims, as, turned, st⟩ :=
    LLMEngine.stepSpec_of_step h.cacheless.toInOrder h.queued hs
  have t := st.trace
  obtain rfl := st.turned_eq (h.cacheless.schedule st.schedule).1.cacheless
  have hserved : ∀ q ∈ s₁.running, (e.turn out q).isFinished = false →
      (Request.proposed none (e.turn out q)).Kept e.runner.next arrived ∧
        (Request.proposed none (e.turn out q)).draftTokenIds = [] := fun q hq hf =>
    ⟨((h.served hm st hq).1.2.1 hf).proposed none, (h.served hm st hq).2⟩
  obtain ⟨hrunning, hwaiting⟩ := st.forall_requests
    h.running h.waiting
    (fun r r' hr hb => ⟨⟨hr.1.bumped hb, by obtain ⟨_, rfl⟩ := hb; exact hr.2⟩,
      by obtain ⟨_, rfl⟩ := hb; rfl⟩)
    (fun d hd _ hf => hserved _ (t.running' ▸ List.mem_append_left _ (List.mem_map_of_mem hd)) hf)
    (fun a ha _ hf => hserved _ (t.running' ▸ List.mem_append_right _ (List.mem_map_of_mem ha)) hf)
  refine ⟨⟨(h.cacheless.step h.queued hs).1, hrunning, hwaiting⟩, fun r hr => ?_⟩
  obtain ⟨q, hq, hfin, hren⟩ := st.finished r hr
  have hlossless := (h.served hm st hq).1.renoded hren
  have hfin' : r.isFinished = true := by
    obtain ⟨_, rfl⟩ := hren
    exact hfin
  exact ⟨hlossless.1, hlossless.2.2 hfin'⟩

theorem of_run (hcache : e.cacheConfig.enablePrefixCaching = false)
    (hspec : e.speculativeConfig = none) (h : e.Run Request.Servable Scheduler.Uncut s arrived) :
    PlainState e arrived s := by
  induction h with
  | start =>
    exact ⟨.new hcache _ _, by simp [LLMEngine.start, Scheduler.new],
      by simp [LLMEngine.start, Scheduler.new]⟩
  | addRequest id promptTokenIds params _ ha hs ih =>
    refine ⟨ih.cacheless.addRequest rfl hs, ?_, ?_⟩ <;> rw [Scheduler.addRequest_eq hs]
    · exact fun r hr => ⟨(ih.running r hr).1.mono _, (ih.running r hr).2⟩
    · intro r hr
      rcases List.mem_append.mp hr with hr | hr
      · obtain ⟨⟨hkept, hd⟩, hnc⟩ := ih.waiting r hr
        exact ⟨⟨hkept.mono _, hd⟩, hnc⟩
      · rw [List.mem_singleton.mp hr]
        exact ⟨⟨.new id ha, rfl⟩, rfl⟩
  | step drafts _ hd hm hs ih =>
    obtain rfl := LLMEngine.proposes_none hspec hd
    exact (ih.step hm hs).1
  | abortRequests ids _ hs ih =>
    obtain ⟨hrunning, hwaiting⟩ := Scheduler.mem_of_abortRequests hs
    exact ⟨(ih.cacheless.abortRequests hs).1, fun r hr => ih.running r (hrunning r hr),
      fun r hr => ih.waiting r (hwaiting r hr)⟩

end PlainState

/-- Without a cache and without a draft, every request that finishes has the output and the
status of its own greedy decoding: batching, chunking and recomputing add, drop and change
nothing, as long as no chunk ends inside outputs. -/
theorem finished_lossless_of_run {e : LLMEngine}
    (hcache : e.cacheConfig.enablePrefixCaching = false) (hspec : e.speculativeConfig = none)
    {s : Scheduler} {arrived : List Request} (h : e.Run Request.Servable Scheduler.Uncut s arrived)
    (hm : s.Uncut) {s' : Scheduler} {out : SchedulerOutput} {finished : List Request}
    (hs : e.step none s = .ok (s', out, finished)) :
    ∀ r ∈ finished, r.origin ∈ arrived ∧ r.Lossless e.runner.next :=
  ((PlainState.of_run hcache hspec h).step hm hs).2

/-- Five blocks of one token and two tokens a step. The next token counts the tokens before
it. -/
def countingEngine : LLMEngine where
  cacheConfig := .ofBlocks 1 5 Nat.one_pos
  schedulerConfig :=
    { SchedulerConfig.defaults with
      maxNumBatchedTokens := 2, maxNumBatchedTokens_pos := Nat.two_pos }
  runner := { next := fun tokens => tokens.length }
  hashFn := fun _ _ => 0

/-- A prompt of three tokens comes in two chunks, the second next to another request. The step that
finishes it bumps the other, which comes back with its one output and finishes two steps later. -/
theorem finished_lossless_of_run_resumed : ∃ s arrived s₁ out finished s₂ s₃ out' finished',
    countingEngine.Run Request.Servable Scheduler.Uncut s arrived ∧
      arrived.map Request.promptTokenIds = [[7, 7, 7], [8]] ∧
      countingEngine.step none s = .ok (s₁, out, finished) ∧ out.preempted = [1] ∧
      finished.map Request.outputTokenIds = [[3, 4]] ∧
      (∀ r ∈ finished, r.origin ∈ arrived ∧ r.Lossless countingEngine.runner.next) ∧
      countingEngine.Run Request.Servable Scheduler.Uncut s₂ arrived ∧
      countingEngine.step none s₂ = .ok (s₃, out', finished') ∧
      finished'.map Request.outputTokenIds = [[1, 2, 3]] ∧
      ∀ r ∈ finished', r.origin ∈ arrived ∧ r.Lossless countingEngine.runner.next := by
  have hfinish : (countingEngine.performAll Scheduler.Uncut countingEngine.start []
      [.addRequest 0 [7, 7, 7] { maxTokens := 2 }, .addRequest 1 [8] { maxTokens := 3 },
        .step none, .step none]).any (fun run =>
      (countingEngine.performAll Scheduler.Uncut run.1 run.2 [.step none, .step none]).any
        fun run' => (countingEngine.step none run.1).toOption.any fun next =>
        (countingEngine.step none run'.1).toOption.any fun next' => decide (
          run.2.map Request.promptTokenIds = [[7, 7, 7], [8]] ∧ run.1.Uncut ∧ run'.1.Uncut ∧
          run.2 = run'.2 ∧ next.2.1.preempted = [1] ∧
          next.2.2.map Request.outputTokenIds = [[3, 4]] ∧
          next'.2.2.map Request.outputTokenIds = [[1, 2, 3]])) = true := by decide +kernel
  simp only [Option.any_eq_true, toOption_eq_some, decide_eq_true_eq] at hfinish
  obtain ⟨⟨s, arrived⟩, hrun, ⟨s₂, _⟩, hrest, ⟨s₁, out, finished⟩, hs, ⟨s₃, out', finished'⟩,
    hs', hprompts, hm, hm', rfl, hbumped, houts, houts'⟩ := hfinish
  have hallows : ∀ c ∈ ([.step none, .step none] : List EngineCall),
      countingEngine.Allows Request.Servable c := by
    simp [LLMEngine.Allows, LLMEngine.Proposes, countingEngine]
  have hrun : countingEngine.Run Request.Servable Scheduler.Uncut s arrived := .performAll .start
    (by simp [LLMEngine.Allows, LLMEngine.Proposes, Request.Servable, LLMEngine.newRequest,
      countingEngine]) hrun
  have hrun' := hrun.performAll hallows hrest
  exact ⟨s, arrived, s₁, out, finished, s₂, s₃, out', finished', hrun, hprompts, hs, hbumped, houts,
    finished_lossless_of_run rfl rfl hrun hm hs, hrun', hs', houts',
    finished_lossless_of_run rfl rfl hrun' hm' hs'⟩

/-- Two requests of one prompt token outgrow the pool; the younger is preempted with two
outputs. Its three tokens come back in chunks of two and one, and the first chunk samples its
second output once more. -/
theorem cut_chunk_diverges : ¬ ∀ (e : LLMEngine) (s : Scheduler) (arrived : List Request)
    (s' : Scheduler) (out : SchedulerOutput) (finished : List Request),
    e.cacheConfig.enablePrefixCaching = false → e.speculativeConfig = none →
    e.Run Request.Servable (fun _ => True) s arrived → e.step none s = .ok (s', out, finished) →
    ∀ r ∈ finished, r.Lossless e.runner.next := by
  intro h
  have hdiverges : (countingEngine.performAll (fun _ => True) countingEngine.start []
      ([.addRequest 0 [0] { maxTokens := 4 }, .addRequest 1 [0] { maxTokens := 4 }] ++
        List.replicate 5 (.step none))).any (fun run =>
      (countingEngine.step none run.1).toOption.any fun next => next.2.2.any fun r =>
        decide (r.outputTokenIds = [1, 2, 2, 4] ∧ ¬ r.Lossless countingEngine.runner.next)) =
          true := by
    decide +kernel
  simp only [Option.any_eq_true, List.any_eq_true, toOption_eq_some, decide_eq_true_eq] at hdiverges
  obtain ⟨⟨s, arrived⟩, hrun, ⟨s', out, finished⟩, hs, r, hr, -, hlossy⟩ := hdiverges
  have hrun : countingEngine.Run Request.Servable (fun _ => True) s arrived := .performAll .start
    (by simp [LLMEngine.Allows, LLMEngine.Proposes, Request.Servable, LLMEngine.newRequest,
      countingEngine]) hrun
  exact hlossy (h countingEngine s arrived s' out finished rfl rfl hrun hs r hr)

end LightServe
