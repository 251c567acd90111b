import LightServe.Server.DecodeWorker
import LightServe.Serving.Live
import LightServe.Serving.ResumeDecode

/-!
# Answering handoffs

A handoff whose resumption raises stops the decode worker's thread: nothing catches it. A handoff
that is resumed under an id which is still pending takes over the entry of the pending table, and
the first handoff is never answered. In runs without either, every handoff is in one place until
it is answered, once, with what its request ended with.

## Main definitions

* `ServedDecoder.Lawful` — what the worker relies on: the engine's live requests.
* `DecodeWorker.Tracked` — every handoff is in one place until it is answered.
* `DecodeWorker.AnswersOnce` — what a client is promised.
* `answersOnce_of_run` — the promise is kept.
-/

namespace LightServe

/-- The requests that the engine has: a resumption adds one, and a step returns those that
leave. -/
structure ServedDecoder.Lawful {σ η : Type} (E : ServedDecoder σ η) (live : σ → List RequestId) :
    Prop where
  resumeDecode {x x' : σ} {handoff : PrefillHandoff η} {r : Request}
    (h : E.resumeDecode x handoff = .ok (x', r)) :
    r.requestId = handoff.requestId ∧ (live x').Perm (handoff.requestId :: live x)
  step {x x' : σ} {finished : List Request} (h : E.step x (.ok (x', finished))) :
    (live x).Perm (live x' ++ finished.map Request.requestId)

namespace DecodePhase
variable {η : Type}

/-- The done-queue in the thread's hands. -/
def hand : DecodePhase η → List QueueId
  | .resuming _ queue => [queue]
  | _ => []

/-- The requests that have finished and are yet to be answered. -/
def leaving : DecodePhase η → List RequestId
  | .answering requests => requests.map Request.requestId
  | _ => []

end DecodePhase

namespace DecodeWorker
variable {σ η : Type} {w w' : DecodeWorker σ η} {handoffs : List (PrefillHandoff η)}
  {live : σ → List RequestId} {E : ServedDecoder σ η}

theorem answer_outcomes_self (w : DecodeWorker σ η) (r : Request) (queue : QueueId) :
    (w.answer r queue).outcomes queue = w.outcomes queue ++ [(r.outputTokenIds, r.status)] :=
  Function.update_self ..

theorem answer_outcomes_ne (w : DecodeWorker σ η) (r : Request) {queue queue' : QueueId}
    (h : queue' ≠ queue) : (w.answer r queue).outcomes queue' = w.outcomes queue' :=
  Function.update_of_ne h ..

/-- The pending requests that a step returned. -/
theorem ended_ids (w : DecodeWorker σ η) (finished : List Request) :
    ((w.ended finished).map Request.requestId).Nodup ∧
      ∀ id, id ∈ (w.ended finished).map Request.requestId ↔
        id ∈ w.pending ∧ id ∈ finished.map Request.requestId := by
  have hids : (w.ended finished).map Request.requestId =
      (w.pending.entries.reverse.map Sigma.fst).filter (· ∈ finished.map Request.requestId) := by
    rw [ended, List.map_filterMap, ← List.filterMap_eq_filter, List.filterMap_map]
    refine List.filterMap_congr fun e _ => ?_
    rw [Function.comp_apply, Option.guard]
    cases hfind : finished.find? fun r => r.requestId = e.1 with
    | none =>
      have hno := List.find?_eq_none.mp hfind
      rw [Option.map_none, if_neg]
      simpa [eq_comm] using hno
    | some r =>
      have hid : r.requestId = e.1 := by simpa using List.find?_some hfind
      have hmem := List.mem_map_of_mem (f := Request.requestId) (List.mem_of_find?_eq_some hfind)
      rw [Option.map_some, if_pos (by simpa [hid] using hmem), hid]
  rw [hids, List.map_reverse]
  refine ⟨(List.nodup_reverse.mpr w.pending.nodupKeys).filter _, fun id => ?_⟩
  rw [List.mem_filter, List.mem_reverse, decide_eq_true_eq, AList.mem_keys]
  rfl

/-- Where done-queues are kept. -/
def places (w : DecodeWorker σ η) : List QueueId :=
  w.incoming.map Prod.snd ++ (w.phase.hand ++ w.pending.values)

/-- The handoff of this done-queue is yet to be resumed. -/
def Unresumed (w : DecodeWorker σ η) (queue : QueueId) : Prop :=
  queue ∈ w.incoming.map Prod.snd ++ w.phase.hand

/-- The request of this done-queue is being decoded, or it has ended just now. -/
def Decoding (w : DecodeWorker σ η) (live : σ → List RequestId) (id : RequestId)
    (queue : QueueId) : Prop :=
  w.pending.lookup id = some queue ∧ (id ∈ live w.engine ∨ id ∈ w.phase.leaving)

/-- A handoff has no outcome until its request has ended, and one from then on. -/
structure AnswersOnce (w : DecodeWorker σ η) (live : σ → List RequestId)
    (handoffs : List (PrefillHandoff η)) : Prop where
  before : ∀ queue handoff, handoffs[queue]? = some handoff →
    w.Unresumed queue ∨ w.Decoding live handoff.requestId queue → w.outcomes queue = []
  after : ∀ queue handoff, handoffs[queue]? = some handoff →
    ¬ (w.Unresumed queue ∨ w.Decoding live handoff.requestId queue) →
    ∃ outcome, w.outcomes queue = [outcome]

/-- The engine takes the handoff in hand, and its id is not pending. -/
def Takes (E : ServedDecoder σ η) (w : DecodeWorker σ η) : Action η → Prop
  | .submit _ => True
  | .thread => ∀ handoff queue, w.phase = .resuming handoff queue →
      handoff.requestId ∉ w.pending ∧ ∃ res, E.resumeDecode w.engine handoff = .ok res

instance (E : ServedDecoder σ η) (w : DecodeWorker σ η) : (a : Action η) → Decidable (w.Takes E a)
  | .submit _ => .isTrue trivial
  | .thread =>
    match hp : w.phase with
    | .resuming handoff queue =>
      decidable_of_iff (handoff.requestId ∉ w.pending ∧
        (E.resumeDecode w.engine handoff).toOption.isSome)
        (by simp [Takes, hp, Option.isSome_iff_exists])
    | .draining | .stepping | .answering _ | .dead =>
      .isTrue fun _ _ h => nomatch hp.symm.trans h

/-- Every handoff is in one place until it is answered, and the pending requests are those that
the engine has or has just returned. -/
structure Tracked (w : DecodeWorker σ η) (live : σ → List RequestId)
    (handoffs : List (PrefillHandoff η)) : Prop where
  nextQueue : w.nextQueue = handoffs.length
  incoming : ∀ e ∈ w.incoming, handoffs[e.2]? = some e.1
  hand : ∀ handoff queue, w.phase = .resuming handoff queue → handoffs[queue]? = some handoff
  pending : ∀ id queue, w.pending.lookup id = some queue →
    ∃ handoff, handoffs[queue]? = some handoff ∧ handoff.requestId = id
  nodup : w.places.Nodup
  live_nodup : (live w.engine ++ w.phase.leaving).Nodup
  mem_pending : ∀ id, id ∈ w.pending ↔ id ∈ live w.engine ++ w.phase.leaving
  before : ∀ queue, queue ∈ w.places ∨ handoffs.length ≤ queue → w.outcomes queue = []
  after : ∀ queue < handoffs.length, queue ∉ w.places → ∃ outcome, w.outcomes queue = [outcome]

namespace Tracked

/-- What is in a place was submitted. -/
theorem lt (t : w.Tracked live handoffs) : ∀ queue ∈ w.places, queue < handoffs.length := by
  intro queue hq
  rcases List.mem_append.mp hq with hq | hq
  · obtain ⟨e, he, rfl⟩ := List.mem_map.mp hq
    exact (List.getElem?_eq_some_iff.mp (t.incoming e he)).1
  · rcases List.mem_append.mp hq with hq | hq
    · cases hp : w.phase with
      | resuming handoff queue' =>
        rw [hp] at hq
        rw [List.mem_singleton.mp hq]
        exact (List.getElem?_eq_some_iff.mp (t.hand handoff queue' hp)).1
      | draining => rw [hp] at hq; cases hq
      | stepping => rw [hp] at hq; cases hq
      | answering requests => rw [hp] at hq; cases hq
      | dead => rw [hp] at hq; cases hq
    · obtain ⟨id, hid⟩ := Dict.mem_values.mp hq
      obtain ⟨handoff, hh, -⟩ := t.pending id queue hid
      exact (List.getElem?_eq_some_iff.mp hh).1

/-- The promise, told by places. -/
theorem answersOnce (t : w.Tracked live handoffs) : w.AnswersOnce live handoffs := by
  have hiff : ∀ queue handoff, handoffs[queue]? = some handoff →
      (w.Unresumed queue ∨ w.Decoding live handoff.requestId queue ↔ queue ∈ w.places) := by
    intro queue handoff hh
    rw [places, ← List.append_assoc, List.mem_append (s := w.incoming.map Prod.snd ++ w.phase.hand),
      Dict.mem_values]
    refine or_congr_right ⟨fun hd => ⟨_, hd.1⟩, ?_⟩
    rintro ⟨id, hid⟩
    obtain ⟨handoff', hh', rfl⟩ := t.pending id queue hid
    cases hh.symm.trans hh'
    have hmem := (t.mem_pending _).mp (AList.lookup_isSome.mp (by rw [hid]; rfl))
    exact ⟨hid, List.mem_append.mp hmem⟩
  refine ⟨fun queue handoff hh ho => ?_, fun queue handoff hh hno => ?_⟩
  · exact t.before queue (.inl ((hiff queue handoff hh).mp ho))
  · exact t.after queue (List.getElem?_eq_some_iff.mp hh).1 fun hq =>
      hno ((hiff queue handoff hh).mpr hq)

theorem start (x : σ) (hx : live x = []) :
    ({ engine := x } : DecodeWorker σ η).Tracked live [] where
  nextQueue := rfl
  incoming := by simp
  hand := by simp
  pending := by simp
  nodup := List.nodup_nil
  live_nodup := by simp [hx, DecodePhase.leaving]
  mem_pending := by simp [hx, DecodePhase.leaving]
  before _ _ := rfl
  after _ h := absurd h (Nat.not_lt_zero _)

theorem submit (t : w.Tracked live handoffs) (handoff : PrefillHandoff η) :
    (w.submit handoff).Tracked live (handoffs ++ [handoff]) := by
  have hold : ∀ {queue : QueueId} {h : PrefillHandoff η}, handoffs[queue]? = some h →
      (handoffs ++ [handoff])[queue]? = some h := fun hh => by
    rw [List.getElem?_append_left (List.getElem?_eq_some_iff.mp hh).1, hh]
  have hplaces : (w.submit handoff).places.Perm (w.nextQueue :: w.places) := by
    simp only [places, DecodeWorker.submit, List.map_append, List.map_cons, List.map_nil,
      List.append_assoc]
    exact List.perm_middle
  have hmem : ∀ queue, queue ∈ (w.submit handoff).places ↔
      queue = handoffs.length ∨ queue ∈ w.places :=
    fun queue => by rw [hplaces.mem_iff, List.mem_cons, t.nextQueue]
  refine ⟨?_, ?_, fun h q hp => hold (t.hand h q hp), fun id q hq => ?_, ?_, t.live_nodup,
    t.mem_pending, fun queue hq => ?_, fun queue hlt hq => ?_⟩
  · rw [List.length_append, List.length_singleton, ← t.nextQueue]
    rfl
  · intro e he
    rcases List.mem_append.mp he with he | he
    · exact hold (t.incoming e he)
    · rw [List.mem_singleton.mp he, t.nextQueue]
      simp
  · obtain ⟨h, hh, hid⟩ := t.pending id q hq
    exact ⟨h, hold hh, hid⟩
  · refine hplaces.nodup_iff.mpr (List.nodup_cons.mpr ⟨fun hq => ?_, t.nodup⟩)
    exact absurd (t.lt _ hq) (by rw [t.nextQueue]; exact Nat.lt_irrefl _)
  · refine t.before queue ?_
    rw [hmem, List.length_append, List.length_singleton] at hq
    rcases hq with (hq | hq) | hq
    · exact .inr hq.ge
    · exact .inl hq
    · exact .inr (Nat.le_of_succ_le hq)
  · rw [hmem, not_or] at hq
    rw [List.length_append, List.length_singleton] at hlt
    exact t.after queue (lt_of_le_of_ne (Nat.lt_succ_iff.mp hlt) hq.1) hq.2

/-- An action of the thread that only moves done-queues and requests around. -/
theorem moved (t : w.Tracked live handoffs) (hnext : w'.nextQueue = w.nextQueue)
    (hout : w'.outcomes = w.outcomes)
    (hincoming : ∀ e ∈ w'.incoming, handoffs[e.2]? = some e.1)
    (hhand : ∀ handoff queue, w'.phase = .resuming handoff queue → handoffs[queue]? = some handoff)
    (hpending : ∀ id queue, w'.pending.lookup id = some queue →
      ∃ handoff, handoffs[queue]? = some handoff ∧ handoff.requestId = id)
    (hplaces : w'.places.Perm w.places)
    (hnodup : (live w'.engine ++ w'.phase.leaving).Nodup)
    (hmem : ∀ id, id ∈ w'.pending ↔ id ∈ live w'.engine ++ w'.phase.leaving) :
    w'.Tracked live handoffs where
  nextQueue := hnext.trans t.nextQueue
  incoming := hincoming
  hand := hhand
  pending := hpending
  nodup := hplaces.nodup_iff.mpr t.nodup
  live_nodup := hnodup
  mem_pending := hmem
  before queue hq := by
    rw [hout]
    exact t.before queue (by rwa [hplaces.mem_iff] at hq)
  after queue hlt hq := by
    rw [hout]
    exact t.after queue hlt (by rwa [hplaces.mem_iff] at hq)

/-- The thread goes on to a phase in which it holds nothing. -/
theorem goOn (t : w.Tracked live handoffs) {phase : DecodePhase η} (hh : w.phase.hand = [])
    (hl : w.phase.leaving = []) (hh' : phase.hand = []) (hl' : phase.leaving = []) :
    ({ w with phase } : DecodeWorker σ η).Tracked live handoffs := by
  have hnodup := t.live_nodup
  have hmem := t.mem_pending
  rw [hl] at hnodup hmem
  refine t.moved rfl rfl t.incoming (fun handoff queue hp => ?_) t.pending ?_ ?_ ?_
  · rw [show phase = .resuming handoff queue from hp] at hh'
    cases hh'
  · rw [places, places, hh, hh']
  · rw [hl']
    exact hnodup
  · rw [hl']
    exact hmem

/-- A handoff is popped. -/
theorem drain (t : w.Tracked live handoffs) {handoff : PrefillHandoff η} {queue : QueueId}
    {rest : List (PrefillHandoff η × QueueId)} (hp : w.phase = .draining)
    (hi : w.incoming = (handoff, queue) :: rest) :
    ({ w with incoming := rest, phase := .resuming handoff queue } :
      DecodeWorker σ η).Tracked live handoffs := by
  have hnodup := t.live_nodup
  have hmem := t.mem_pending
  rw [hp] at hnodup hmem
  refine t.moved rfl rfl (fun e he => t.incoming e ?_) (fun handoff' queue' hr => ?_) t.pending ?_
    hnodup hmem
  · rw [hi]
    exact List.mem_cons_of_mem _ he
  · cases hr
    exact t.incoming _ (by rw [hi]; exact List.mem_cons_self)
  · rw [places, places, hp, hi]
    exact List.perm_middle

/-- A handoff is resumed under an id that is not pending. -/
theorem resume (hE : E.Lawful live) (t : w.Tracked live handoffs) {handoff : PrefillHandoff η}
    {queue : QueueId} {engine : σ} {r : Request} (hp : w.phase = .resuming handoff queue)
    (hnew : handoff.requestId ∉ w.pending)
    (he : E.resumeDecode w.engine handoff = .ok (engine, r)) :
    ({ w with engine, phase := .draining, pending := w.pending.set r.requestId queue } :
      DecodeWorker σ η).Tracked live handoffs := by
  obtain ⟨hid, hlive⟩ := hE.resumeDecode he
  rw [hid]
  have hnodup := t.live_nodup
  have hmem := t.mem_pending
  rw [hp] at hnodup hmem
  simp only [DecodePhase.leaving, List.append_nil] at hnodup hmem
  refine t.moved rfl rfl t.incoming (fun _ _ hr => nomatch hr) (fun id queue' hq => ?_) ?_ ?_ ?_
  · rw [Dict.lookup_set] at hq
    split at hq
    · rename_i heq
      cases hq
      exact ⟨handoff, t.hand handoff queue hp, heq.symm⟩
    · exact t.pending id queue' hq
  · rw [places, places, hp, Dict.values_set_of_notMem _ _ (AList.lookup_eq_none.mpr hnew)]
    simp only [DecodePhase.hand, List.nil_append]
    exact List.perm_append_comm.append_left _
  · simp only [DecodePhase.leaving, List.append_nil]
    exact hlive.nodup_iff.mpr (List.nodup_cons.mpr ⟨fun h => hnew ((hmem _).mpr h), hnodup⟩)
  · intro id
    simp only [DecodePhase.leaving, List.append_nil]
    rw [Dict.mem_set, hmem, hlive.mem_iff, List.mem_cons]

/-- A step returned. -/
theorem step (hE : E.Lawful live) (t : w.Tracked live handoffs) {engine : σ}
    {finished : List Request} (hp : w.phase = .stepping)
    (he : E.step w.engine (.ok (engine, finished))) :
    ({ w with engine, phase := .answering (w.ended finished) } :
      DecodeWorker σ η).Tracked live handoffs := by
  have hlive := hE.step he
  obtain ⟨hended, hmemEnded⟩ := ended_ids w finished
  have hnodup := t.live_nodup
  have hmem := t.mem_pending
  rw [hp] at hnodup hmem
  simp only [DecodePhase.leaving, List.append_nil] at hnodup hmem
  obtain ⟨hnodup', -, hdisjoint⟩ := List.nodup_append.mp (hlive.nodup_iff.mp hnodup)
  refine t.moved rfl rfl t.incoming (fun _ _ hr => nomatch hr) t.pending ?_ ?_ ?_
  · rw [places, places, hp]
    exact List.Perm.refl _
  · refine List.nodup_append.mpr ⟨hnodup', hended, fun a ha b hb => ?_⟩
    exact hdisjoint a ha b ((hmemEnded b).mp hb).2
  · intro id
    simp only [DecodePhase.leaving, List.mem_append, hmemEnded, hmem, hlive.mem_iff]
    tauto

/-- A request that has finished is answered. -/
theorem answer (t : w.Tracked live handoffs) {r : Request} {requests : List Request}
    {queue : QueueId} (hp : w.phase = .answering (r :: requests))
    (hq : w.pending.lookup r.requestId = some queue) :
    ({ w.answer r queue with phase := .answering requests } :
      DecodeWorker σ η).Tracked live handoffs := by
  have hnodup := t.live_nodup
  have hmem := t.mem_pending
  rw [hp] at hnodup hmem
  simp only [DecodePhase.leaving, List.map_cons] at hnodup hmem
  have hmiddle := (List.perm_middle.nodup_iff.mp hnodup)
  obtain ⟨hnot, hrest⟩ := List.nodup_cons.mp hmiddle
  have hplaces : w.places.Perm (queue ::
      ({ w.answer r queue with phase := .answering requests } : DecodeWorker σ η).places) := by
    simp only [places, hp, DecodePhase.hand, DecodeWorker.answer, List.nil_append]
    exact ((Dict.values_perm_erase hq).append_left _).trans List.perm_middle
  have hplacesNodup := hplaces.nodup_iff.mp t.nodup
  obtain ⟨hgone, hleft⟩ := List.nodup_cons.mp hplacesNodup
  have hempty : w.outcomes queue = [] :=
    t.before queue (.inl (hplaces.mem_iff.mpr List.mem_cons_self))
  refine ⟨t.nextQueue, t.incoming, (fun _ _ hr => nomatch hr), fun id queue' hl => ?_, hleft, hrest,
    fun id => ?_, fun queue' hq' => ?_, fun queue' hlt hq' => ?_⟩
  · refine t.pending id queue' ?_
    by_cases hid : id = r.requestId
    · subst hid
      rw [DecodeWorker.answer, AList.lookup_erase] at hl
      cases hl
    · rwa [DecodeWorker.answer, AList.lookup_erase_ne hid] at hl
  · rw [DecodeWorker.answer, AList.mem_erase, hmem, List.mem_append, List.mem_append, List.mem_cons]
    constructor
    · rintro ⟨hne, h | h | h⟩
      · exact .inl h
      · exact absurd h hne
      · exact .inr h
    · intro h
      refine ⟨?_, h.imp_right .inr⟩
      rintro rfl
      exact hnot (List.mem_append.mpr h)
  · by_cases heq : queue' = queue
    · subst heq
      rcases hq' with hq' | hq'
      · exact absurd hq' hgone
      · exact absurd (t.lt queue' (hplaces.mem_iff.mpr List.mem_cons_self)) (Nat.not_lt.mpr hq')
    · refine (answer_outcomes_ne w r heq).trans (t.before queue' (hq'.imp_left fun h => ?_))
      exact hplaces.mem_iff.mpr (List.mem_cons_of_mem _ h)
  · by_cases heq : queue' = queue
    · subst heq
      exact ⟨_, (answer_outcomes_self w r queue').trans (by rw [hempty, List.nil_append])⟩
    · obtain ⟨outcome, ho⟩ := t.after queue' hlt fun h => by
        rcases List.mem_cons.mp (hplaces.mem_iff.mp h) with h | h
        · exact heq h
        · exact hq' h
      exact ⟨outcome, (answer_outcomes_ne w r heq).trans ho⟩

/-- Every action of the thread that meets the condition keeps every handoff in one place. -/
theorem next (hE : E.Lawful live) (t : w.Tracked live handoffs) (hm : w.Takes E .thread)
    (hn : w.Next E .thread w') : w'.Tracked live handoffs := by
  cases hn with
  | drain hp hi => exact t.drain hp hi
  | drainEmpty hp hi => exact t.goOn (by rw [hp]; rfl) (by rw [hp]; rfl) rfl rfl
  | resume hp he => exact t.resume hE hp (hm _ _ hp).1 he
  | resumeRaises hp he =>
    obtain ⟨-, res, hok⟩ := hm _ _ hp
    cases hok.symm.trans he
  | idle hp hu => exact t.goOn (by rw [hp]; rfl) (by rw [hp]; rfl) rfl rfl
  | step hp hu he => exact t.step hE hp he
  | stepRaises hp hu he => exact t.goOn (by rw [hp]; rfl) (by rw [hp]; rfl) rfl rfl
  | answer hp hq => exact t.answer hp hq
  | answered hp => exact t.goOn (by rw [hp]; rfl) (by rw [hp]; rfl) rfl rfl

end Tracked

end DecodeWorker

/-! ## Over a run -/

theorem DecodeWorkerRun.tracked {σ η : Type} {E : ServedDecoder σ η} {live : σ → List RequestId}
    (hE : E.Lawful live) {start : σ} (hstart : live start = []) {w : DecodeWorker σ η}
    {handoffs : List (PrefillHandoff η)}
    (h : DecodeWorkerRun E (DecodeWorker.Takes E) start w handoffs) : w.Tracked live handoffs := by
  induction h with
  | start => exact .start start hstart
  | submit handoff _ _ ih => exact ih.submit handoff
  | thread _ hm hn ih => exact ih.next hE hm hn

/-- The requests of `LLMEngine` are those of its queues. -/
theorem LLMEngine.decoder_lawful (e : LLMEngine) (η : Type) :
    (e.decoder η).Lawful fun x => x.1.ids where
  resumeDecode {x x' handoff r} h := by
    simp only [decoder] at h
    split at h
    · cases h
    · rename_i s kv r' hr
      cases h
      exact Scheduler.resumeDecode_ids hr
  step {x x' finished} h := by
    obtain ⟨drafts, kv, -, hresult⟩ := h
    obtain ⟨⟨s, out, finished'⟩, hstep, hrest⟩ := bind_eq_ok.mp hresult.symm
    dsimp only at hrest
    split at hrest
    · cases hrest
    · cases hrest
      exact step_ids hstep

/-- In a run in which the engine takes every handoff and no id is taken while it is pending, each
handoff is answered once, when its request has ended. -/
theorem answersOnce_of_run {η : Type} (e : LLMEngine) (kv : PagedKVCache η)
    {w : DecodeWorker (Scheduler × PagedKVCache η) η} {handoffs : List (PrefillHandoff η)}
    (h : DecodeWorkerRun (e.decoder η) (DecodeWorker.Takes (e.decoder η)) (e.start, kv) w
      handoffs) :
    w.AnswersOnce (fun x => x.1.ids) handoffs :=
  (h.tracked (e.decoder_lawful η) rfl).answersOnce

/-- A small engine that samples zeros. -/
def smallEngine : LLMEngine where
  cacheConfig := smallCache
  schedulerConfig := smallConfig
  runner := { next := fun _ => 0 }
  hashFn := digitHash

/-- A handoff that fits `oneLayer`. -/
def fittingHandoff : PrefillHandoff Unit where
  requestId := 0
  promptTokenIds := [1]
  firstTokenId := 1
  samplingParams := {}
  k := { KvTensor.none with rows := [[()]], seqLen := 1, length_rows := by simp }
  v := { KvTensor.none with rows := [[()]], seqLen := 1, length_rows := by simp }

/-- A handoff that ends with its second token. -/
def shortHandoff : PrefillHandoff Unit :=
  { fittingHandoff with samplingParams := { maxTokens := 2 } }

/-- A handoff whose request goes on for longer. -/
def longHandoff : PrefillHandoff Unit :=
  { fittingHandoff with requestId := 1, promptTokenIds := [2] }

/-- Two handoffs, the second of which is put while the first is being decoded. The first ends, is
answered, and the second is resumed on the blocks that it leaves and decodes. -/
theorem answersOnce_of_run_two : ∃ (w : DecodeWorker (Scheduler × PagedKVCache Unit) Unit)
    (handoffs : List (PrefillHandoff Unit)),
    DecodeWorkerRun (smallEngine.decoder Unit) (DecodeWorker.Takes (smallEngine.decoder Unit))
      (smallEngine.start, oneLayer) w handoffs ∧
      handoffs.map PrefillHandoff.requestId = [0, 1] ∧
      w.outcomes 0 = [([1, 0], .finishedLengthCapped)] ∧ w.outcomes 1 = [] ∧
      w.pending.lookup 1 = some 1 ∧ w.engine.1.running.map Request.outputTokenIds = [[1, 0]] ∧
      w.AnswersOnce (fun x => x.1.ids) handoffs := by
  have hended : ((DecodeWorker.play (smallEngine.decoder Unit) smallEngine.decoderOutcome
      (DecodeWorker.Takes (smallEngine.decoder Unit)) (smallEngine.start, oneLayer)
      ([.submit shortHandoff] ++ .replicate 3 .thread ++ [.submit longHandoff] ++
        .replicate 7 .thread)).any fun x =>
        decide (x.2.map PrefillHandoff.requestId = [0, 1] ∧
          x.1.outcomes 0 = [([1, 0], .finishedLengthCapped)] ∧ x.1.outcomes 1 = [] ∧
          x.1.pending.lookup 1 = some 1 ∧
          x.1.engine.1.running.map Request.outputTokenIds = [[1, 0]])) = true := by
    decide +kernel
  simp only [Option.any_eq_true, decide_eq_true_eq] at hended
  obtain ⟨⟨w, handoffs⟩, hplay, hids, hfirst, hsecond, hpending, hrunning⟩ := hended
  have hresult : ∀ x, (smallEngine.decoder Unit).step x (smallEngine.decoderOutcome x) :=
    fun x => ⟨none, x.2, trivial, rfl⟩
  have hrun := DecodeWorkerRun.of_play hresult hplay
  exact ⟨w, handoffs, hrun, hids, hfirst, hsecond, hpending, hrunning,
    answersOnce_of_run smallEngine oneLayer hrun⟩

/-- A handoff of another model stops the thread, and is in nobody's place then. -/
theorem foreign_never_answered : ¬ ∀ (η : Type) (e : LLMEngine) (kv : PagedKVCache η)
    (w : DecodeWorker (Scheduler × PagedKVCache η) η) (handoffs : List (PrefillHandoff η)),
    DecodeWorkerRun (e.decoder η) (fun _ _ => True) (e.start, kv) w handoffs →
    w.AnswersOnce (fun x => x.1.ids) handoffs := by
  intro h
  have hstart : DecodeWorkerRun (smallEngine.decoder Unit) (fun _ _ => True)
    (smallEngine.start, oneLayer) _ _ := .start
  have hsubmit := hstart.submit foreignHandoff trivial
  have hsubmit' := hsubmit.submit fittingHandoff trivial
  have hdrain := hsubmit'.thread trivial (.drain rfl rfl)
  have hraise : (smallEngine.decoder Unit).resumeDecode
      (smallEngine.start, oneLayer) foreignHandoff = .error .kvMismatch := rfl
  have hdead := hdrain.thread trivial (.resumeRaises rfl hraise)
  have honce := h Unit smallEngine oneLayer _ _ hdead
  obtain ⟨outcome, ho⟩ := honce.after 0 foreignHandoff rfl (by
    rintro (hq | ⟨hq, -⟩)
    · have hone : 0 ∈ [1] := hq
      cases List.mem_singleton.mp hone
    · cases hq)
  cases ho

end LightServe
