import LightServe.Server.Streams
import LightServe.Serving.Speculative
import LightServe.Speculation.Runs

/-!
# What streams deliver

The worker hands out the last output of every request that a step scheduled. A step that gives
each of these one new output, or leaves it without any, is delivered exactly; and a stream that
was delivered exactly in every step carries the outputs of its request.

## Main definitions

* `Scheduler.OneEach` — the steps that are delivered exactly.
* `LLMEngine.step_outputs` — what such a step does to the outputs.
* `WorkerState.Streamed` — the streams carry the outputs so far.
* `streams_exactly_of_run` — a stream that ends carries the outputs of its request.
-/

namespace LightServe

open Scheduler

/-- Every request that the schedule picks gets one output, or has none: nobody with outputs gets a
chunk that ends inside the prompt, and a draft goes wrong at its first token, or that token ends
the request. -/
def Scheduler.OneEach (e : LLMEngine) (s : Scheduler) : Prop :=
  ∀ s₁ out, s.schedule = .ok (s₁, out) → ∀ r ∈ s₁.running, ∀ n ∈ out.tokensOf r.requestId,
    (r.isPrefill = true → r.outputTokenIds = []) ∧
      (r.isPrefill = false → ∀ d ∈ r.draftTokenIds.head?,
        let t := e.runner.next (r.allTokenIds.take (r.numComputedTokens - n + 1))
        d ≠ t ∨ (out.roundOf r).isSome ∧
          (stopAt r.samplingParams r.outputTokenIds.length [t]).isSome)

instance (e : LLMEngine) (s : Scheduler) : Decidable (s.OneEach e) := s.decidableOnSchedule _

/-- A batch that is one token, or whose first token stops the request, is cut to that token. -/
theorem DraftedEngine.accepted_eq_one {n : ℕ} {r : Request} {t : Token} {more : List Token}
    (h : r.outputTokenIds.drop n = t :: more)
    (hone : more = [] ∨ (stopAt r.samplingParams n [t]).isSome) : accepted n r = 1 := by
  have hlen : r.outputTokenIds.length - n = more.length + 1 := by
    rw [← List.length_drop, h, List.length_cons]
  rcases hone with rfl | hstop
  · have hpos := accepted_pos (n := n) (r := r) (by simp at hlen; omega)
    have hle := accepted_le n r
    simp at hlen
    omega
  · have hfirst : stopAt r.samplingParams n (t :: more) = some 0 := by
      simp only [stopAt, List.zipIdx_cons, List.findIdx?_cons] at hstop ⊢
      split at hstop
      · rename_i hfires
        rw [if_pos hfires]
      · cases hstop
    unfold accepted
    rw [h, hfirst]
    dsimp only
    split <;> omega

namespace LLMEngine
variable {e : LLMEngine} {drafts : Option (RequestId → List Token)} {s s' : Scheduler}
  {out : SchedulerOutput} {finished : List Request}

namespace StepTurns
variable {s₁ s₃ s₅ : Scheduler} {plan : List Decision} {victims : List Request}
  {as : List Admission} {served : Request → Request}

/-- Every running request is still there after the step, corrected. -/
theorem descends (st : StepTurns drafts s s' out finished s₁ s₃ s₅ plan victims as served)
    {r : Request} (hr : r ∈ s₁.running) : ∃ r' ∈ s'.running ++ finished,
      r'.requestId = r.requestId ∧ r'.outputTokenIds = (corrected out served r).outputTokenIds := by
  obtain ⟨o₅, hrunning, -, hgone, -⟩ := st.swept
  have hpropose := st.propose
  rw [Scheduler.proposeIf_eq] at hpropose
  have hmem := List.mem_map_of_mem (f := corrected out served) hr
  have hid := st.corrected_requestId r
  have hexists : ∃ r' ∈ s'.running ++ finished, r'.requestId = r.requestId := by
    by_cases hfin : (corrected out served r).isFinished = true
    · have hids : r.requestId ∈ finished.map Request.requestId := by
        rw [hgone, ← hid]
        exact List.mem_map_of_mem (List.mem_filter.mpr ⟨hmem, hfin⟩)
      obtain ⟨r', hr', heq⟩ := List.mem_map.mp hids
      exact ⟨r', List.mem_append_right _ hr', heq⟩
    · refine ⟨(corrected out served r).proposed drafts, List.mem_append_left _ ?_, ?_⟩
      · rw [hpropose, hrunning]
        exact List.mem_map_of_mem (List.mem_filter.mpr ⟨hmem, by simpa using hfin⟩)
      · rw [(sameRequest_proposed drafts _).requestId, hid]
  obtain ⟨r', hr', heq⟩ := hexists
  have hall : r' ∈ s'.running ++ s'.waiting ++ finished := by
    rcases List.mem_append.mp hr' with h | h
    · exact List.mem_append_left _ (List.mem_append_left _ h)
    · exact List.mem_append_right _ h
  refine ⟨r', hr', heq, ?_⟩
  rcases st.origin hall with ⟨q, hq, hqid, hqout⟩ | hwaiting
  · have hsame : q.requestId = r.requestId := by rw [← st.corrected_requestId q, hqid, heq]
    obtain rfl := List.inj_on_of_nodup_map st.inOrder.running_nodup hq hr hsame
    exact hqout.symm
  · exact absurd heq.symm (st.inOrder.disjoint hr hwaiting)

/-- Nobody who is not scheduled gets an output. -/
theorem outputs_of_idle (st : StepTurns drafts s s' out finished s₁ s₃ s₅ plan victims as served)
    {r : Request} (hr : r ∈ s₁.running) (hidle : out.tokensOf r.requestId = none) :
    (corrected out served r).outputTokenIds = r.outputTokenIds := by
  have hround : out.roundOf r = none := by
    rw [SchedulerOutput.roundOf]
    split
    · rw [find?_eq_none_of_notMem]
      · rfl
      · intro hmem
        have hmem' : r.requestId ∈ out.scheduled.map ScheduledRequest.request := by
          rw [SchedulerOutput.scheduled, List.map_append]
          exact List.mem_append_right _ hmem
        obtain ⟨sr, hsr, hid⟩ := List.mem_map.mp hmem'
        rw [SchedulerOutput.tokensOf, Option.map_eq_none_iff, List.find?_eq_none] at hidle
        exact hidle sr hsr (by simpa using hid)
    · rfl
  obtain ⟨nodes, hserved⟩ := (st.serves r hr).1 hidle
  rw [corrected, hround, Option.elim_none, hserved]

/-- Whoever is scheduled gets one output, or has none. -/
theorem outputs_of_scheduled
    (st : StepTurns drafts s s' out finished s₁ s₃ s₅ plan victims as served)
    (hrounds : e.Rounds out s₁ served) (hone : s.OneEach e) {r : Request} (hr : r ∈ s₁.running)
    {n : ℕ} (hn : out.tokensOf r.requestId = some n) :
    (corrected out served r).outputTokenIds.dropLast = r.outputTokenIds := by
  obtain ⟨hpre, hround⟩ := hone s₁ out st.schedule r hr n hn
  obtain ⟨tokens, hmay, nodes, hserved⟩ := (st.serves r hr).2 (by rw [hn]; rfl)
  obtain ⟨status, hcommit⟩ := commit_shape tokens r
  unfold Request.MayCommit at hmay
  cases hp : r.isPrefill with
  | true =>
    -- inside the prompt nothing is committed, and a correction takes nothing away
    have hnil := hpre hp
    rw [hp, if_pos rfl] at hmay
    subst hmay
    have hout : (served r).outputTokenIds = [] := by rw [hserved, hcommit, hnil]; rfl
    rw [hnil, corrected]
    cases out.roundOf r with
    | none => rw [Option.elim_none, hout]; rfl
    | some k =>
      rw [Option.elim_some]
      obtain ⟨status', hcorrect⟩ :=
        @DraftedEngine.correctRound_eq_accepted r.outputTokenIds.length k (served r)
          (by rw [hout, hnil])
      rw [hcorrect, hout]
      simp
  | false =>
    rw [hp, if_neg Bool.false_ne_true] at hmay
    cases hd : r.draftTokenIds with
    | nil =>
      rw [if_neg (not_not.mpr hd)] at hmay
      obtain ⟨t, rfl⟩ := hmay
      rw [corrected, SchedulerOutput.roundOf, if_neg (not_not.mpr hd), Option.elim_none, hserved,
        hcommit, List.dropLast_concat]
    | cons d ds =>
      have hne : r.draftTokenIds ≠ [] := by rw [hd]; exact List.cons_ne_nil d ds
      replace hround := hround hp d (by rw [hd]; rfl)
      obtain ⟨nodes', hserved'⟩ := hrounds r hr n hn hne
      obtain ⟨status', hcommit'⟩ := commit_shape (e.runner.sample r n) r
      have hout : (served r).outputTokenIds = r.outputTokenIds ++ e.runner.sample r n := by
        rw [hserved', hcommit']
      have hparams : (served r).samplingParams = r.samplingParams := by rw [hserved', hcommit']
      obtain ⟨more, hsample⟩ : ∃ more, e.runner.sample r n =
          e.runner.next (r.allTokenIds.take (r.numComputedTokens - n + 1)) :: more ∧
            (d ≠ e.runner.next (r.allTokenIds.take (r.numComputedTokens - n + 1)) → more = []) := by
        rw [ModelRunner.sample, hp, if_neg Bool.false_ne_true, if_pos hne, hd, Decode.verify]
        split
        · exact ⟨[], rfl, fun _ => rfl⟩
        · rename_i heq
          exact ⟨_, rfl, fun hne => absurd hne heq⟩
      obtain ⟨hsample, hwrong⟩ := hsample
      rw [hsample] at hout
      rw [corrected]
      cases hk : out.roundOf r with
      | none =>
        have hnil : more = [] := by
          rcases hround with hd | ⟨hsome, -⟩
          · exact hwrong hd
          · rw [hk] at hsome
            cases hsome
        rw [Option.elim_none, hout, hnil, List.dropLast_concat]
      | some k =>
        rw [Option.elim_some]
        obtain ⟨status'', hcorrect⟩ := @DraftedEngine.correctRound_eq_accepted
          r.outputTokenIds.length k (served r) (by rw [hout, List.length_append]; omega)
        have hdrop : (served r).outputTokenIds.drop r.outputTokenIds.length =
            e.runner.next (r.allTokenIds.take (r.numComputedTokens - n + 1)) :: more := by
          rw [hout, List.drop_left]
        have haccepted : DraftedEngine.accepted r.outputTokenIds.length (served r) = 1 :=
          DraftedEngine.accepted_eq_one hdrop
            (hround.imp hwrong fun hstop => by rw [hparams]; exact hstop.2)
        rw [hcorrect, haccepted, hout, List.take_length_add_append]
        simp

end StepTurns

/-- What the worker is told of a step is the scheduled requests, each once. -/
theorem produced_spec (s' : Scheduler) (out : SchedulerOutput) (finished : List Request) :
    (∀ r ∈ s'.produced out finished, r ∈ s'.running ++ finished) ∧
      ((s'.produced out finished).map Request.requestId).Sublist
        (out.scheduled.map ScheduledRequest.request) ∧
      ∀ id ∈ out.scheduled.map ScheduledRequest.request,
        id ∈ (s'.running ++ finished).map Request.requestId →
          id ∈ (s'.produced out finished).map Request.requestId := by
  unfold Scheduler.produced
  refine ⟨fun r hr => ?_, ?_, fun id hid hmem => ?_⟩
  · obtain ⟨sr, -, hfind⟩ := List.mem_filterMap.mp hr
    exact List.mem_of_find?_eq_some hfind
  · induction out.scheduled with
    | nil => exact List.Sublist.slnil
    | cons sr scheduled ih =>
      rw [List.filterMap_cons]
      split
      · exact ih.cons _
      · rename_i r hfind
        have hid : r.requestId = sr.request := by simpa using List.find?_some hfind
        rw [List.map_cons, List.map_cons, hid]
        exact ih.cons_cons _
  · obtain ⟨sr, hsr, rfl⟩ := List.mem_map.mp hid
    obtain ⟨q, hq, hqid⟩ := List.mem_map.mp hmem
    cases hfind : (s'.running ++ finished).find? fun r => r.requestId = sr.request with
    | none =>
      rw [List.find?_eq_none] at hfind
      exact absurd (by simpa using hqid) (hfind q hq)
    | some r =>
      have hrid : r.requestId = sr.request := by simpa using List.find?_some hfind
      exact List.mem_map.mpr ⟨r, List.mem_filterMap.mpr ⟨sr, hsr, hfind⟩, hrid⟩

/-- In a step of one output each, what is new of the outputs is the last output of the scheduled
requests. -/
theorem step_outputs (o : InOrder s) (hone : s.OneEach e)
    (h : e.step drafts s = .ok (s', out, finished)) :
    ((s'.running ++ s'.waiting ++ finished).map Request.requestId).Nodup ∧
      ((s'.produced out finished).map Request.requestId).Nodup ∧
      ∀ r' ∈ s'.running ++ s'.waiting ++ finished, ∃ r ∈ s.running ++ s.waiting,
        r'.requestId = r.requestId ∧ r.outputTokenIds =
          if r'.requestId ∈ (s'.produced out finished).map Request.requestId then
            r'.outputTokenIds.dropLast
          else r'.outputTokenIds := by
  obtain ⟨s₁, s₃, s₅, plan, victims, as, served, st, hrounds⟩ := stepTurns_of_step o h
  obtain ⟨hmem, hsub, hback⟩ := produced_spec s' out finished
  refine ⟨st.ids_nodup, hsub.nodup (st.trace.scheduled_nodup st.inOrder), fun r' hr' => ?_⟩
  rcases st.origin hr' with ⟨q, hq, hid, hout⟩ | hwaiting
  · obtain ⟨r, hr, hc, hkept⟩ := st.trace.origin (List.mem_append_left _ hq)
    have hqid : q.requestId = r'.requestId := by rw [← st.corrected_requestId q, hid]
    refine ⟨r, hr, hqid.symm.trans hc.requestId, ?_⟩
    rw [← hkept, ← hout]
    cases htokens : out.tokensOf q.requestId with
    | none =>
      have hnot : r'.requestId ∉ (s'.produced out finished).map Request.requestId := by
        intro hin
        obtain ⟨sr, hsr, hsid⟩ := List.mem_map.mp (hsub.subset hin)
        rw [SchedulerOutput.tokensOf, Option.map_eq_none_iff, List.find?_eq_none] at htokens
        exact htokens sr hsr (by simpa [hqid] using hsid)
      rw [if_neg hnot, st.outputs_of_idle hq htokens]
    | some n =>
      obtain ⟨q', hq', hqid', -⟩ := st.descends hq
      have hin : r'.requestId ∈ (s'.produced out finished).map Request.requestId := by
        rw [← hqid]
        exact hback _ (SchedulerOutput.mem_of_tokensOf htokens) (hqid' ▸ List.mem_map_of_mem hq')
      rw [if_pos hin, st.outputs_of_scheduled hrounds hone hq htokens]
  · obtain ⟨r, hr, hc, hkept⟩ := st.trace.origin (List.mem_append_right _ hwaiting)
    refine ⟨r, hr, hc.requestId, ?_⟩
    have hnot : r'.requestId ∉ (s'.produced out finished).map Request.requestId := by
      intro hin
      obtain ⟨q, hq, hqid⟩ := List.mem_map.mp (st.trace.mem_running_of_scheduled (hsub.subset hin))
      exact st.inOrder.disjoint hq hwaiting hqid
    rw [if_neg hnot, hkept]

/-- An abort gives nobody an output. -/
theorem abort_outputs {ids : List RequestId} {gone : List Request}
    (h : s.abortRequests ids = .ok (s', gone)) {r' : Request}
    (hr : r' ∈ s'.running ++ s'.waiting ++ gone) : ∃ r ∈ s.running ++ s.waiting,
      r'.requestId = r.requestId ∧ r.outputTokenIds = r'.outputTokenIds := by
  obtain ⟨hrunning, hwaiting⟩ := mem_of_abortRequests h
  rw [List.append_assoc, List.mem_append, List.mem_append] at hr
  rcases hr with hr | hr | hr
  · exact ⟨r', List.mem_append_left _ (hrunning r' hr), rfl, rfl⟩
  · exact ⟨r', List.mem_append_right _ (hwaiting r' hr), rfl, rfl⟩
  · obtain ⟨⟨s₁, finished⟩, hfree, hret⟩ := bind_eq_ok.mp h
    cases hret
    rcases List.mem_append.mp hr with hr | hr
    · obtain ⟨q, hq, rfl⟩ := List.mem_map.mp hr
      exact ⟨q, List.mem_append_right _ (List.mem_filter.mp hq).1, rfl, rfl⟩
    · obtain ⟨q, hq, -, nodes, rfl⟩ := finished_of_sweep hfree hr
      obtain ⟨p, hp, rfl⟩ := List.mem_map.mp hq
      refine ⟨p, List.mem_append_left _ hp, ?_, ?_⟩
      · dsimp only
        split <;> rfl
      · dsimp only
        split <;> rfl

end LLMEngine

/-! ## Streams -/

/-- The requests whose last output is yet to be handed out. -/
def ThreadPhase.owed : ThreadPhase → List Request
  | .emitting scheduled _ => scheduled
  | _ => []

/-- The requests that the engine has returned and that are yet to be finished. -/
def ThreadPhase.returned : ThreadPhase → List Request
  | .emitting _ finished => finished
  | .finishing requests _ => requests
  | _ => []

namespace WorkerState
variable {w w' : WorkerState Scheduler} {e : LLMEngine}

/-- The requests whose streams are open. -/
def requests (w : WorkerState Scheduler) : List Request :=
  w.engine.running ++ w.engine.waiting ++ w.phase.returned

/-- Every stream carries the outputs of its request, all of them or all but the last. -/
structure Streamed (w : WorkerState Scheduler) : Prop where
  silent : ∀ h ∈ w.queued ++ w.phase.hand, w.items h = []
  owed_nodup : (w.phase.owed.map Request.requestId).Nodup
  owed : ∀ r ∈ w.phase.owed, ∀ q ∈ w.requests, q.requestId = r.requestId → q = r
  exact : ∀ q ∈ w.requests, ∀ h, w.streams.lookup q.requestId = some h →
    w.items h = (if q.requestId ∈ w.phase.owed.map Request.requestId then q.outputTokenIds.dropLast
      else q.outputTokenIds).map .streamToken

/-- What must hold of an action: a step is one of one output each. -/
def Emits (e : LLMEngine) (w : WorkerState Scheduler) : Action → Prop
  | .thread => w.phase = .stepping → w.engine.OneEach e
  | _ => True

instance (e : LLMEngine) (w : WorkerState Scheduler) : (a : Action) → Decidable (w.Emits e a)
  | .thread => inferInstanceAs (Decidable (_ → _))
  | .put .. | .readError _ | .abort _ => .isTrue trivial

/-- The thread goes on and nothing is put. -/
theorem Streamed.goOn (st : w.Streamed) (hitems : w'.items = w.items)
    (hsilent : ∀ h ∈ w'.queued ++ w'.phase.hand, h ∈ w.queued ++ w.phase.hand ∨ w.items h = [])
    (hengine : w'.engine = w.engine) (hstreams : w'.streams = w.streams)
    (howed : w'.phase.owed = w.phase.owed) (hreturned : w'.phase.returned = w.phase.returned) :
    w'.Streamed := by
  have hrequests : w'.requests = w.requests := by rw [requests, requests, hengine, hreturned]
  refine ⟨fun h hh => ?_, howed ▸ st.owed_nodup, ?_, ?_⟩
  · rw [hitems]
    exact (hsilent h hh).elim (st.silent h) id
  · rw [howed, hrequests]
    exact st.owed
  · rw [howed, hrequests, hstreams, hitems]
    exact st.exact

/-- The engine returned some requests, and owes the last outputs of others. -/
theorem Streamed.returns (st : w.Streamed) (hitems : w'.items = w.items)
    (hqueued : w'.queued = w.queued) (hhand : w'.phase.hand = [])
    (hstreams : w'.streams = w.streams) (howed : w.phase.owed = [])
    (hnodup : (w'.phase.owed.map Request.requestId).Nodup)
    (hids : w'.phase.owed = [] ∨ (w'.requests.map Request.requestId).Nodup)
    (hmem : ∀ r ∈ w'.phase.owed, r ∈ w'.requests)
    (hout : ∀ r' ∈ w'.requests, ∃ r ∈ w.engine.running ++ w.engine.waiting,
      r'.requestId = r.requestId ∧ r.outputTokenIds =
        if r'.requestId ∈ w'.phase.owed.map Request.requestId then r'.outputTokenIds.dropLast
        else r'.outputTokenIds) : w'.Streamed := by
  refine ⟨fun h hh => ?_, hnodup, fun r hr q hq hid => ?_, fun q hq h hl => ?_⟩
  · rw [hqueued, hhand, List.append_nil] at hh
    rw [hitems]
    exact st.silent h (List.mem_append_left _ hh)
  · rcases hids with hnil | hnodup'
    · rw [hnil] at hr
      cases hr
    · exact List.inj_on_of_nodup_map hnodup' hq (hmem r hr) hid
  · obtain ⟨r, hr, hid, hkept⟩ := hout q hq
    rw [hstreams, hid] at hl
    have hexact := st.exact r (List.mem_append_left _ hr) h hl
    rw [howed] at hexact
    rw [hitems, hexact, ← hkept]
    rfl

theorem emit_items_of_lookup {r : Request} {h : HandleId}
    (hl : w.streams.lookup r.requestId = some h) :
    (w.emit r).items h = w.items h ++ r.outputTokenIds.getLast?.toList.map .streamToken := by
  unfold emit
  rw [hl]
  cases r.outputTokenIds.getLast? with
  | none => simp
  | some t => simp

theorem emit_items_of_ne {r : Request} {h : HandleId} (hl : w.streams.lookup r.requestId ≠ some h) :
    (w.emit r).items h = w.items h := by
  unfold emit
  split
  · rename_i h' t hl' _
    exact putItem_items_ne w _ fun heq => hl (heq ▸ hl')
  · rfl

theorem finish_items_of_lookup {r : Request} {h : HandleId}
    (hl : w.streams.lookup r.requestId = some h) :
    (w.finish r).items h = w.items h ++ [.streamEnd r.status] := by
  unfold finish
  simp [hl, putItem]

theorem finish_items_of_ne {r : Request} {h : HandleId}
    (hl : w.streams.lookup r.requestId ≠ some h) :
    (w.finish r).items h = w.items h := by
  unfold finish
  dsimp only
  split
  · rename_i h' hl'
    exact putItem_items_ne _ _ fun heq => hl (heq ▸ hl')
  · rfl

/-- The handles of the table are not on the queue, and none is there twice. -/
theorem Tracked.table_nodup (t : w.Tracked) (hd : w.phase.dying = false) :
    w.streams.values.Nodup ∧ ∀ h ∈ w.queued, h ∉ w.streams.values := by
  have hnodup := t.nodup
  rw [places, table, t.error_eq_none hd] at hnodup
  obtain ⟨-, hrest, hdisjoint⟩ := List.nodup_append.mp hnodup
  refine ⟨(List.nodup_append.mp hrest).2.1, fun h hq hv => ?_⟩
  exact hdisjoint h hq h (List.mem_append_right _ hv) rfl

/-- One last output is handed out. -/
theorem Streamed.emit (st : w.Streamed) (t : w.Tracked) {r : Request}
    {scheduled finished : List Request} (hp : w.phase = .emitting (r :: scheduled) finished) :
    Streamed { w.emit r with phase := .emitting scheduled finished } := by
  obtain ⟨hvalues, hqueue⟩ := t.table_nodup (by rw [hp]; rfl)
  have hrest : w.emit r = { w with items := (w.emit r).items } := emit_eq w r
  have hengine : (w.emit r).engine = w.engine := by rw [hrest]
  have hstreams : (w.emit r).streams = w.streams := by rw [hrest]
  have hincoming : (w.emit r).incoming = w.incoming := by rw [hrest]
  have hrequests :
      requests { w.emit r with phase := .emitting scheduled finished } = w.requests := by
    rw [requests, requests, hengine, hp]
    rfl
  have howed := st.owed
  have hnodup := st.owed_nodup
  have hexact := st.exact
  simp only [hp, ThreadPhase.owed] at howed hnodup hexact
  obtain ⟨hhead, hnodup⟩ := List.nodup_cons.mp hnodup
  refine ⟨fun h hh => ?_, hnodup, fun q hq => ?_, fun q hq h hl => ?_⟩
  · have hq : h ∈ w.queued := by
      simpa [queued, hincoming, ThreadPhase.hand] using hh
    have hne : w.streams.lookup r.requestId ≠ some h := fun hl =>
      hqueue h hq (Dict.mem_values.mpr ⟨_, hl⟩)
    show (w.emit r).items h = []
    rw [emit_items_of_ne hne]
    exact st.silent h (List.mem_append_left _ hq)
  · rw [hrequests]
    exact howed q (List.mem_cons_of_mem _ hq)
  · rw [hrequests] at hq
    replace hl : w.streams.lookup q.requestId = some h := hstreams ▸ hl
    show (w.emit r).items h = (if q.requestId ∈ scheduled.map Request.requestId then
      q.outputTokenIds.dropLast else q.outputTokenIds).map .streamToken
    have hold := hexact q hq h hl
    by_cases hid : q.requestId = r.requestId
    · obtain rfl := howed r List.mem_cons_self q hq hid
      rw [if_pos (by simp)] at hold
      rw [emit_items_of_lookup hl, hold, if_neg hhead, ← List.map_append]
      congr 1
      cases hlast : q.outputTokenIds.getLast? with
      | none => simp [List.getLast?_eq_none_iff.mp hlast]
      | some x => exact List.dropLast_append_getLast? x hlast
    · have hne : w.streams.lookup r.requestId ≠ some h := fun hl' =>
        hid (Dict.eq_of_lookup_eq hvalues hl hl')
      rw [emit_items_of_ne hne, hold]
      simp [hid]

/-- One request is finished. -/
theorem Streamed.finish (st : w.Streamed) (t : w.Tracked) {r : Request} {requests : List Request}
    {next : AfterFinish} (hp : w.phase = .finishing (r :: requests) next) :
    Streamed { w.finish r with phase := .finishing requests next } := by
  obtain ⟨hvalues, hqueue⟩ := t.table_nodup (by rw [hp]; rfl)
  obtain ⟨hincoming, -, hengine, -, -, hstreams⟩ := finish_eq w r
  have hexact := st.exact
  simp only [hp, ThreadPhase.owed] at hexact
  refine ⟨fun h hh => ?_, List.nodup_nil, fun q hq => ?_, fun q hq h hl => ?_⟩
  · have hq : h ∈ w.queued := by
      simpa [queued, hincoming, ThreadPhase.hand] using hh
    have hne : w.streams.lookup r.requestId ≠ some h := fun hl =>
      hqueue h hq (Dict.mem_values.mpr ⟨_, hl⟩)
    show (w.finish r).items h = []
    rw [finish_items_of_ne hne]
    exact st.silent h (List.mem_append_left _ hq)
  · cases hq
  · replace hl : (w.streams.erase r.requestId).lookup q.requestId = some h := hstreams ▸ hl
    have hid : q.requestId ≠ r.requestId := by
      intro heq
      rw [heq, AList.lookup_erase] at hl
      cases hl
    rw [AList.lookup_erase_ne hid] at hl
    have hq' : q ∈ w.requests := by
      rw [WorkerState.requests, hp, ThreadPhase.returned]
      rw [WorkerState.requests] at hq
      have hall : q ∈ w.engine.running ++ w.engine.waiting ++ requests := hengine ▸ hq
      rcases List.mem_append.mp hall with hq | hq
      · exact List.mem_append_left _ hq
      · exact List.mem_append_right _ (List.mem_cons_of_mem _ hq)
    have hne : w.streams.lookup r.requestId ≠ some h := fun hl' =>
      hid (Dict.eq_of_lookup_eq hvalues hl hl')
    show (w.finish r).items h = _
    rw [finish_items_of_ne hne]
    exact hexact q hq' h hl

/-- A new request has no output, and nothing was put on its handle. -/
theorem Streamed.handle (st : w.Streamed) (hs : w.Serves InOrder Scheduler.requests)
    {s : Submission} {engine : Scheduler} (now : ℕ) (hp : w.phase = .handling s)
    (he : e.served.addRequest w.engine s.requestId s.promptTokenIds s.samplingParams = .ok engine) :
    (w.register engine s now).Streamed := by
  obtain ⟨-, hnew, -⟩ := e.served_lawful.addRequest hs.inv he
  obtain rfl := addRequest_eq he
  have hhand : s.handle ∈ w.phase.hand := by rw [hp]; exact List.mem_cons_self
  refine ⟨fun h hh => ?_, List.nodup_nil, fun r hr => ?_, fun q hq h hl => ?_⟩
  · refine st.silent h (List.mem_append_left _ ?_)
    simpa [ThreadPhase.hand, register, queued] using hh
  · cases hr
  · show w.items h = _
    rw [WorkerState.register, Dict.lookup_set] at hl
    have hq' : q ∈ w.requests ∨
        q = LLMEngine.newRequest s.requestId s.promptTokenIds s.samplingParams := by
      simpa [WorkerState.requests, register, hp, ThreadPhase.returned, or_assoc] using hq
    rcases hq' with hq' | rfl
    · have hne : q.requestId ≠ s.requestId := by
        intro hid
        rw [← hid, ← hs.inv.ids] at hnew
        simp only [WorkerState.requests, hp, ThreadPhase.returned, List.append_nil] at hq'
        exact hnew (List.mem_map_of_mem hq')
      rw [if_neg hne] at hl
      have hexact := st.exact q hq' h hl
      rw [hp] at hexact
      exact hexact
    · have hhandle : some s.handle = some h := by simpa [LLMEngine.newRequest] using hl
      obtain rfl := Option.some.inj hhandle
      exact st.silent _ (List.mem_append_right _ hhand)

/-- Every action that leaves the thread alive keeps the streams exact. -/
theorem Streamed.next (st : w.Streamed) (t : w.Tracked) (hs : w.Serves InOrder Scheduler.requests)
    {a : Action} (hm : w.Emits e a) (hn : w.Next e.served a w') (he : w.error = none)
    (he' : w'.error = none) : w'.Streamed := by
  have halive : w.phase.dying ≠ true := by
    rw [t.dying, he]
    exact Bool.false_ne_true
  cases hn with
  | put promptTokenIds samplingParams requestId timeout =>
    refine st.goOn rfl (fun h hh => ?_) rfl rfl rfl rfl
    have hmem : h ∈ w.queued ++ w.phase.hand ∨ h = w.nextHandle := by
      simpa [WorkerState.put, queued, Incoming.handle?, or_assoc, or_comm, or_left_comm] using hh
    rcases hmem with hmem | rfl
    · exact .inl hmem
    · exact .inr (t.fresh _ le_rfl)
  | readError hr =>
    unfold WorkerState.readError
    simp only [he, Option.isSome_none, Bool.false_eq_true, if_false]
    exact st.goOn rfl (fun h hh => .inl hh) rfl rfl rfl rfl
  | abort requestId =>
    refine st.goOn rfl (fun h hh => .inl ?_) rfl rfl rfl rfl
    simpa [queued, Incoming.handle?] using hh
  | @drainSubmission s rest hp hi =>
    refine st.goOn rfl (fun h hh => .inl ?_) rfl rfl (by rw [hp]; rfl) (by rw [hp]; rfl)
    rw [queued, hi]
    simpa [queued, Incoming.handle?, hp, ThreadPhase.hand, or_comm] using hh
  | drainAbort hp hi =>
    refine st.goOn rfl (fun h hh => .inl ?_) rfl rfl (by rw [hp]; rfl) (by rw [hp]; rfl)
    rw [queued, hi]
    simpa [queued, Incoming.handle?, hp, ThreadPhase.hand] using hh
  | drainEmpty hp hi =>
    exact st.goOn rfl (fun h hh => .inl (by rw [hp]; exact hh)) rfl rfl (by rw [hp]; rfl)
      (by rw [hp]; rfl)
  | handle now hp he => exact st.handle hs now hp he
  | @abortRequests requestId engine gone hp he =>
    refine st.returns rfl rfl rfl rfl (by rw [hp]; rfl) List.nodup_nil (.inl rfl) (fun r hr => ?_)
      fun r' hr' => LLMEngine.abort_outputs he hr'
    cases hr
  | sweepNothing now hp hn =>
    exact st.goOn rfl (fun h hh => .inl (by rw [hp]; exact hh)) rfl rfl (by rw [hp]; rfl)
      (by rw [hp]; rfl)
  | @sweep engine gone now hp hn he =>
    refine st.returns rfl rfl rfl rfl (by rw [hp]; rfl) List.nodup_nil (.inl rfl) (fun r hr => ?_)
      fun r' hr' => LLMEngine.abort_outputs he hr'
    cases hr
  | idle hp hu =>
    exact st.goOn rfl (fun h hh => .inl (by rw [hp]; exact hh)) rfl rfl (by rw [hp]; rfl)
      (by rw [hp]; rfl)
  | @step engine scheduled finished hp hu he =>
    obtain ⟨drafts, -, hresult⟩ := he
    obtain ⟨⟨s', out, finished'⟩, hstep, hret⟩ := bind_eq_ok.mp hresult.symm
    cases hret
    obtain ⟨hnodup, hproduced, hout⟩ := LLMEngine.step_outputs hs.inv (hm hp) hstep
    refine st.returns rfl rfl rfl rfl (by rw [hp]; rfl) hproduced (.inr hnodup)
      (fun r hr => ?_) hout
    have hmem := (LLMEngine.produced_spec engine out finished).1 r hr
    rcases List.mem_append.mp hmem with hmem | hmem
    · exact List.mem_append_left _ (List.mem_append_left _ hmem)
    · exact List.mem_append_right _ hmem
  | emit hp => exact st.emit t hp
  | emitted hp =>
    exact st.goOn rfl (fun h hh => .inl (by rw [hp]; exact hh)) rfl rfl (by rw [hp]; rfl)
      (by rw [hp]; rfl)
  | finish hp => exact st.finish t hp
  | @finished next hp =>
    have hphase : next.phase.hand = [] ∧ next.phase.owed = [] ∧ next.phase.returned = [] := by
      cases next <;> exact ⟨rfl, rfl, rfl⟩
    obtain ⟨hhand, howed, hreturned⟩ := hphase
    refine st.goOn rfl (fun h hh => .inl ?_) rfl rfl (by rw [hp]; exact howed)
      (by rw [hp]; exact hreturned)
    rw [hp]
    show h ∈ w.queued ++ []
    rw [← hhand]
    exact hh
  | handleRaises => cases he'
  | abortRaises => cases he'
  | sweepRaises => cases he'
  | stepRaises => cases he'
  | collectSubmission hp => exact absurd (by rw [hp]; rfl) halive
  | collectAbort hp => exact absurd (by rw [hp]; rfl) halive
  | collectEmpty hp => exact absurd (by rw [hp]; rfl) halive
  | endOne hp => exact absurd (by rw [hp]; rfl) halive
  | ended hp => exact absurd (by rw [hp]; rfl) halive

theorem Streamed.start (e : LLMEngine) : Streamed { engine := e.start } := by
  refine ⟨fun h hh => ?_, List.nodup_nil, fun r hr => ?_, fun q hq => ?_⟩
  · cases hh
  · cases hr
  · cases hq

end WorkerState

/-- In a run whose steps give every request they schedule one output, or leave it without any, a
stream carries the outputs of its request so far, and one that ends, all of them and the end. -/
theorem streams_exactly_of_run {e : LLMEngine} {w : WorkerState Scheduler}
    (h : WorkerRun e.served (WorkerState.Emits e) e.start w) (he : w.error = none) :
    (w.phase.owed = [] → ∀ q ∈ w.requests, ∀ h, w.streams.lookup q.requestId = some h →
      w.items h = q.outputTokenIds.map .streamToken) ∧
      ∀ r rest next, w.phase = .finishing (r :: rest) next →
        ∀ h, w.streams.lookup r.requestId = some h →
          (w.finish r).items h = r.outputTokenIds.map .streamToken ++ [.streamEnd r.status] := by
  have hstart : InOrder e.start := ⟨rfl, List.nodup_nil⟩
  have st : w.Streamed := by
    induction h with
    | start => exact .start e
    | next hrun hm hn ih =>
      obtain ⟨halive, -⟩ := hn.of_alive he
      obtain ⟨t, hs⟩ := tracked_of_alive e.served_lawful hstart hrun halive
      exact (ih halive).next t hs hm hn halive he
  have hexact : w.phase.owed = [] → ∀ q ∈ w.requests, ∀ h, w.streams.lookup q.requestId = some h →
      w.items h = q.outputTokenIds.map .streamToken := by
    intro howed q hq h hl
    have := st.exact q hq h hl
    rwa [howed] at this
  refine ⟨hexact, fun r rest next hp h hl => ?_⟩
  have hmem : r ∈ w.requests := by
    rw [WorkerState.requests, hp]
    exact List.mem_append_right _ List.mem_cons_self
  rw [WorkerState.finish_items_of_lookup hl, hexact (by rw [hp]; rfl) r hmem h hl]

/-- Prompts of more than four tokens come in chunks, and drafts are two tokens long. -/
def chunkingEngine : LLMEngine :=
  { draftedEngine with
    cacheConfig := .ofBlocks 2 8 Nat.two_pos
    schedulerConfig := { SchedulerConfig.defaults with
      maxNumBatchedTokens := 4, maxNumBatchedTokens_pos := by decide } }

/-- Every draft is rejected. A request has got its three tokens when it finishes, next to a second
one whose prompt came in three chunks; a third one was aborted in between. -/
theorem streams_exactly_of_run_rejected : ∃ (w : WorkerState Scheduler) (r : Request),
    WorkerRun chunkingEngine.served (WorkerState.Emits chunkingEngine) chunkingEngine.start w ∧
      w.engine.running.map (fun q => (q.requestId, q.outputTokenIds, q.draftTokenIds)) =
        [(1, [5], [99, 99])] ∧ w.items 1 = [.streamToken 5] ∧
      w.items 2 = [.streamEnd .finishedAborted] ∧
      w.phase = .finishing [r] .drain ∧ w.streams.lookup r.requestId = some 0 ∧
      r.outputTokenIds = [1, 2, 3] ∧
      (w.finish r).items 0 = r.outputTokenIds.map .streamToken ++ [.streamEnd r.status] := by
  have hplays : (WorkerState.play chunkingEngine.served
      (chunkingEngine.outcome fun _ => some fun _ => [99, 99]) (WorkerState.Emits chunkingEngine)
      { engine := chunkingEngine.start }
      ([(.put [7] { maxTokens := 3 } 0 none, 0), (.readError 0, 0),
        (.put [8, 8, 8, 8, 8] {} 1 none, 0),
        (.readError 1, 0), (.put [9] {} 2 none, 0), (.readError 2, 0)] ++
        List.replicate 12 (.thread, 0) ++ [(.abort 2, 0)] ++ List.replicate 18 (.thread, 0))).any
      (fun w => w.phase.returned.head?.any fun r => decide (w.error = none ∧
        w.engine.running.map (fun q => (q.requestId, q.outputTokenIds, q.draftTokenIds)) =
          [(1, [5], [99, 99])] ∧ w.items 1 = [.streamToken 5] ∧
        w.items 2 = [.streamEnd .finishedAborted] ∧ w.phase = .finishing [r] .drain ∧
        w.streams.lookup r.requestId = some 0 ∧ r.outputTokenIds = [1, 2, 3])) = true := by
    decide +kernel
  simp only [Option.any_eq_true, decide_eq_true_eq] at hplays
  obtain ⟨w, hrun, r, -, halive, hrunning, hone, haborted, hp, hl, hout⟩ := hplays
  have hrun := WorkerRun.play .start
    (chunkingEngine.served_step_outcome (fun _ => some fun _ => [99, 99]) fun _ _ => rfl) hrun
  exact ⟨w, r, hrun, hrunning, hone, haborted, hp, hl, hout,
    (streams_exactly_of_run hrun halive).2 r [] .drain hp 0 hl⟩

/-- The draft model is right, and a verify round commits its two tokens and one more. -/
theorem accepted_drafts_undelivered : ¬ ∀ (e : LLMEngine) (w : WorkerState Scheduler),
    WorkerRun e.served (fun _ _ => True) e.start w → w.error = none →
      ∀ r rest next, w.phase = .finishing (r :: rest) next →
        ∀ h, w.streams.lookup r.requestId = some h →
          (w.finish r).items h = r.outputTokenIds.map .streamToken ++ [.streamEnd r.status] := by
  intro h
  have hplays : (WorkerState.play draftedEngine.served
      (draftedEngine.outcome fun _ => some fun _ => [2, 3]) (fun _ _ => True)
      { engine := draftedEngine.start }
      ((.put [7] { maxTokens := 4 } 0 none, 0) :: List.replicate 13 (.thread, 0))).any
      (fun w => w.phase.returned.head?.any fun r => decide (w.error = none ∧
        w.phase = .finishing [r] .drain ∧ w.streams.lookup r.requestId = some 0 ∧
        r.outputTokenIds = [1, 2, 3, 4] ∧ (w.finish r).items 0 =
          [.streamToken 1, .streamToken 4, .streamEnd .finishedLengthCapped])) = true := by
    decide +kernel
  simp only [Option.any_eq_true, decide_eq_true_eq] at hplays
  obtain ⟨w, hrun, r, -, halive, hp, hl, hout, hitems⟩ := hplays
  have hrun := WorkerRun.play .start
    (draftedEngine.served_step_outcome (fun _ => some fun _ => [2, 3]) fun _ _ => rfl) hrun
  have hexact := h draftedEngine w hrun halive r [] .drain hp 0 hl
  -- the second and the third token were put by nobody
  rw [hitems, hout] at hexact
  simp at hexact

end LightServe
