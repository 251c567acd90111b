import LightServe.Server.Scripts
import LightServe.Serving.Commits
import LightServe.Serving.Lossless
import Mathlib.Data.List.Nodup

/-!
# Streams and their ends

Every handle is in one place: its submission on the queue, in the thread's hands, or in the
stream table. It leaves when its end is put. When the thread dies it collects what it finds; a
client whose submission it did not find ends the handle itself.

## Main definitions

* `ServedEngine.Lawful` — what the worker relies on: the engine's live requests.
* `WorkerState.Open` — the handles that still wait for their end.
* `WorkerState.Tracked` — every handle is in one place until it has its end.
* `endsOnce_of_run` — every handle gets one end, and nothing after it.
-/

namespace LightServe

/-- The requests that the engine has. It takes no id twice, and a request leaves when it is
returned. -/
structure ServedEngine.Lawful {σ : Type} (E : ServedEngine σ) (Inv : σ → Prop)
    (live : σ → List RequestId) : Prop where
  addRequest {s s' : σ} {id : RequestId} {promptTokenIds : List Token} {params : SamplingParams}
    (hs : Inv s) (h : E.addRequest s id promptTokenIds params = .ok s') :
    Inv s' ∧ id ∉ live s ∧ ∀ id', id' ∈ live s' ↔ id' ∈ live s ∨ id' = id
  step {s s' : σ} {scheduled finished : List Request} (hs : Inv s)
    (h : E.step s (.ok (s', scheduled, finished))) :
    Inv s' ∧ ∀ id, id ∈ live s' ↔ id ∈ live s ∧ id ∉ finished.map Request.requestId
  abortRequests {s s' : σ} {ids : List RequestId} {gone : List Request} (hs : Inv s)
    (h : E.abortRequests s ids = .ok (s', gone)) :
    Inv s' ∧ ∀ id, id ∈ live s' ↔ id ∈ live s ∧ id ∉ gone.map Request.requestId
  hasUnfinishedRequests {s : σ} (hs : Inv s) : E.hasUnfinishedRequests s = true ↔ live s ≠ []

def StreamItem.isEnd : StreamItem → Bool
  | .streamToken _ => false
  | .streamEnd _ => true

def Incoming.handle? : Incoming → Option HandleId
  | .submission s => some s.handle
  | .abort _ => none

namespace ThreadPhase

/-- The handles in the thread's hands. -/
def hand : ThreadPhase → List HandleId
  | .handling s => [s.handle]
  | .collecting handles => handles
  | .ending handles => handles
  | _ => []

/-- Whether the thread has died. -/
def dying : ThreadPhase → Bool
  | .collecting _ | .ending _ | .dead => true
  | _ => false

/-- Whether the thread has looked at the queue for the last time. -/
def drained : ThreadPhase → Bool
  | .ending _ | .dead => true
  | _ => false

/-- The requests that have left the engine and are yet to be finished. -/
def leaving : ThreadPhase → List RequestId
  | .emitting _ finished => finished.map Request.requestId
  | .finishing requests _ => requests.map Request.requestId
  | _ => []

theorem drained_eq_false {phase : ThreadPhase} (h : phase.dying = false) :
    phase.drained = false := by
  cases phase <;> simp_all [dying, drained]

end ThreadPhase

namespace WorkerState
variable {σ : Type} {w w' : WorkerState σ} {h h' : HandleId}

/-- The handles on the queue. -/
def queued (w : WorkerState σ) : List HandleId := w.incoming.filterMap Incoming.handle?

/-- The handles in the stream table of a thread that is alive. -/
def table (w : WorkerState σ) : List HandleId := if w.error.isSome then [] else w.streams.values

def places (w : WorkerState σ) : List HandleId := w.queued ++ (w.phase.hand ++ w.table)

/-- The end of a handle was put. -/
def Ended (w : WorkerState σ) (h : HandleId) : Prop := ∃ x ∈ w.items h, x.isEnd

/-- A handle that the thread will find, or its client end. -/
def Open (w : WorkerState σ) (h : HandleId) : Prop :=
  h ∈ w.phase.hand ++ w.table ∨ h ∈ w.queued ∧ (w.phase.drained → h ∈ w.reading)

/-- Every handle is in one place until it has its end. -/
structure Tracked (w : WorkerState σ) : Prop where
  fresh : ∀ h, w.nextHandle ≤ h → w.items h = []
  reading_nodup : w.reading.Nodup
  reading_lt : ∀ h ∈ w.reading, h < w.nextHandle
  nodup : w.places.Nodup
  lt : ∀ h ∈ w.places, h < w.nextHandle
  last : ∀ h, ∀ x ∈ (w.items h).dropLast, ¬ x.isEnd
  ended_iff : ∀ h < w.nextHandle, w.Ended h ↔ ¬ w.Open h
  dying : w.phase.dying = w.error.isSome

/-! ## Putting items -/

@[simp] theorem putItem_items_self (w : WorkerState σ) (h : HandleId) (x : StreamItem) :
    (w.putItem h x).items h = w.items h ++ [x] := Function.update_self ..

theorem putItem_items_ne (w : WorkerState σ) (x : StreamItem) (hne : h' ≠ h) :
    (w.putItem h x).items h' = w.items h' := Function.update_of_ne hne ..

/-- Behind items without an end, any item may come. -/
theorem last_of_putItem {x : StreamItem} (hlast : ∀ h, ∀ x ∈ (w.items h).dropLast, ¬ x.isEnd)
    (hnot : ¬ w.Ended h) (h' : HandleId) :
    ∀ y ∈ ((w.putItem h x).items h').dropLast, ¬ y.isEnd := by
  by_cases hh : h' = h
  · subst hh
    rw [putItem_items_self, List.dropLast_concat]
    exact fun y hy hend => hnot ⟨y, hy, hend⟩
  · rw [putItem_items_ne w x hh]
    exact hlast h'

namespace Tracked

theorem error_eq_none (t : w.Tracked) (hd : w.phase.dying = false) : w.error = none := by
  have he := t.dying.symm.trans hd
  simpa using he

/-- An open handle has no end yet. -/
theorem not_ended (t : w.Tracked) (ho : w.Open h) (hlt : h < w.nextHandle) : ¬ w.Ended h :=
  fun hend => (t.ended_iff h hlt).mp hend ho

theorem mem_places_of_open (ho : w.Open h) : h ∈ w.places := by
  rcases ho with ho | ⟨ho, -⟩
  · exact List.mem_append_right _ ho
  · exact List.mem_append_left _ ho

/-- Before the thread's last look at the queue, every handle in a place is open. -/
theorem open_iff (hover : w.phase.drained = false) : w.Open h ↔ h ∈ w.places := by
  simp only [Open, places, hover, Bool.false_eq_true, false_imp_iff, and_true, List.mem_append]
  rw [or_comm]

/-- Handles may change their place. -/
theorem moved (t : w.Tracked) (hitems : w'.items = w.items) (hnext : w'.nextHandle = w.nextHandle)
    (hreading : w'.reading = w.reading) (hperm : w'.places.Perm w.places)
    (hopen : ∀ h, w'.Open h ↔ w.Open h) (hdying : w'.phase.dying = w'.error.isSome) :
    w'.Tracked where
  fresh := by rw [hitems, hnext]; exact t.fresh
  reading_nodup := hreading ▸ t.reading_nodup
  reading_lt := by rw [hreading, hnext]; exact t.reading_lt
  nodup := hperm.nodup_iff.mpr t.nodup
  lt h hh := hnext ▸ t.lt h (hperm.mem_iff.mp hh)
  last := by rw [hitems]; exact t.last
  ended_iff h hlt := by
    rw [hopen, Ended, hitems]
    exact t.ended_iff h (hnext ▸ hlt)
  dying := hdying

/-- A handle that gets its end leaves its place. -/
theorem closed (t : w.Tracked) (reason : RequestStatus)
    (hitems : w'.items = (w.putItem h (.streamEnd reason)).items)
    (hnext : w'.nextHandle = w.nextHandle) (hreading : w'.reading.Sublist w.reading)
    (hnodup : w'.places.Nodup) (hsub : ∀ h' ∈ w'.places, h' ∈ w.places) (ho : w.Open h)
    (hopen : ∀ h', w'.Open h' ↔ w.Open h' ∧ h' ≠ h)
    (hdying : w'.phase.dying = w'.error.isSome) : w'.Tracked := by
  have hlt := t.lt h (mem_places_of_open ho)
  have hnot := t.not_ended ho hlt
  refine ⟨fun h' hle => ?_, hreading.nodup t.reading_nodup,
    fun h' hh => hnext ▸ t.reading_lt h' (hreading.subset hh), hnodup,
    fun h' hh => hnext ▸ t.lt h' (hsub h' hh), ?_, fun h' hlt' => ?_, hdying⟩
  · rw [hnext] at hle
    rw [hitems, putItem_items_ne w _ (hlt.trans_le hle).ne']
    exact t.fresh h' hle
  · rw [hitems]
    exact last_of_putItem t.last hnot
  · rw [hnext] at hlt'
    rw [hopen, Ended, hitems]
    by_cases hh : h' = h
    · subst hh
      rw [putItem_items_self]
      exact ⟨fun _ hno => hno.2 rfl, fun _ => ⟨_, List.mem_append_right _ List.mem_cons_self, rfl⟩⟩
    · rw [putItem_items_ne w _ hh]
      exact (t.ended_iff h' hlt').trans (not_congr (by simp [hh]))

end Tracked

/-! ## The table -/

/-- The ids of the stream table are those of live requests, or of requests that are about to be
finished. -/
structure Serves (Inv : σ → Prop) (live : σ → List RequestId) (w : WorkerState σ) : Prop where
  inv : Inv w.engine
  streams : ∀ id ∈ w.streams, id ∈ live w.engine ∨ id ∈ w.phase.leaving

/-- What must hold of an action: the engine takes what the thread handles, and a client that reads
the error reads it when the thread is past the client's submission. -/
def Isolates (E : ServedEngine σ) (w : WorkerState σ) : Action → Prop
  | .thread => ∀ s, w.phase = .handling s →
      ∃ engine, E.addRequest w.engine s.requestId s.promptTokenIds s.samplingParams = .ok engine
  | .readError h => w.error.isSome → w.phase.drained ∧ h ∈ w.queued
  | _ => True

instance (E : ServedEngine σ) (w : WorkerState σ) : (a : Action) → Decidable (w.Isolates E a)
  | .thread =>
    match hp : w.phase with
    | .handling s =>
      decidable_of_iff (E.addRequest w.engine s.requestId s.promptTokenIds
        s.samplingParams).toOption.isSome (by simp [Isolates, hp, Option.isSome_iff_exists])
    | .draining | .aborting _ | .sweeping | .stepping | .emitting _ _ | .finishing _ _
    | .collecting _ | .ending _ | .dead => .isTrue fun s hs => by rw [hp] at hs; cases hs
  | .readError _ => inferInstanceAs (Decidable (_ → _))
  | .put .. | .abort _ => .isTrue trivial

section Table
variable {r : Request} {streams : Dict RequestId HandleId}

theorem finish_eq (w : WorkerState σ) (r : Request) :
    (w.finish r).incoming = w.incoming ∧ (w.finish r).error = w.error ∧
      (w.finish r).engine = w.engine ∧ (w.finish r).nextHandle = w.nextHandle ∧
      (w.finish r).reading = w.reading ∧ (w.finish r).streams = w.streams.erase r.requestId := by
  unfold finish
  dsimp only
  split <;> exact ⟨rfl, rfl, rfl, rfl, rfl, rfl⟩

theorem emit_eq (w : WorkerState σ) (r : Request) :
    w.emit r = { w with items := (w.emit r).items } := by
  unfold emit
  split <;> rfl

end Table

/-- A token comes to an open handle. -/
theorem Tracked.emit (t : w.Tracked) (hp : w.phase.drained = false) (he : w.error = none)
    (r : Request) :
    (w.emit r).Tracked := by
  unfold WorkerState.emit
  split
  · rename_i h tok hl hlast
    have hplace : h ∈ w.places := by
      rw [places, table, he]
      refine List.mem_append_right _ (List.mem_append_right _ ?_)
      exact Dict.mem_values.mpr ⟨r.requestId, hl⟩
    have hlt := t.lt h hplace
    have hnot := t.not_ended ((Tracked.open_iff hp).mpr hplace) hlt
    refine ⟨fun h' hle => ?_, t.reading_nodup, t.reading_lt, t.nodup, t.lt,
      last_of_putItem t.last hnot, fun h' hlt' => ?_, t.dying⟩
    · rw [putItem_items_ne w _ (hlt.trans_le hle).ne']
      exact t.fresh h' hle
    · refine Iff.trans ?_ (t.ended_iff h' hlt')
      unfold Ended
      by_cases hh : h' = h
      · subst hh
        rw [putItem_items_self]
        simp [StreamItem.isEnd]
      · rw [putItem_items_ne w _ hh]
  · exact t

/-- As long as the thread looks at the queue, handles only change their place. -/
theorem Tracked.goOn (t : w.Tracked) (hover : w.phase.drained = false)
    (hover' : w'.phase.drained = false) (hitems : w'.items = w.items)
    (hnext : w'.nextHandle = w.nextHandle) (hreading : w'.reading = w.reading)
    (hperm : w'.places.Perm w.places) (hdying : w'.phase.dying = w'.error.isSome) : w'.Tracked :=
  t.moved hitems hnext hreading hperm
    (fun _ => (open_iff hover').trans (hperm.mem_iff.trans (open_iff hover).symm)) hdying

/-- A submission brings a new handle. -/
theorem Tracked.put (t : w.Tracked) (promptTokenIds : List Token) (samplingParams : SamplingParams)
    (requestId : RequestId) (timeout : Option ℕ) :
    (w.put promptTokenIds samplingParams requestId timeout).Tracked := by
  set w' := w.put promptTokenIds samplingParams requestId timeout with hw'
  have hqueued : w'.queued = w.queued ++ [w.nextHandle] := by
    simp [hw', WorkerState.put, queued, Incoming.handle?]
  have hrest : w'.phase.hand ++ w'.table = w.phase.hand ++ w.table := rfl
  have hplaces : w'.places.Perm (w.nextHandle :: w.places) := by
    rw [places, hqueued, hrest, places, List.append_assoc]
    exact List.perm_middle
  have hnew : w.nextHandle ∉ w.places := fun hmem => Nat.lt_irrefl _ (t.lt _ hmem)
  have hnewReading : w.nextHandle ∉ w.reading := fun hmem => Nat.lt_irrefl _ (t.reading_lt _ hmem)
  refine ⟨fun h hle => t.fresh h (Nat.le_of_succ_le hle), ?_, fun h hh => ?_,
    ?_, fun h hh => ?_, t.last,
    fun h hlt => ?_, t.dying⟩
  · exact List.nodup_cons.mpr ⟨hnewReading, t.reading_nodup⟩
  · rcases List.mem_cons.mp hh with rfl | hh
    · exact Nat.lt_succ_self _
    · exact (t.reading_lt h hh).trans (Nat.lt_succ_self _)
  · exact hplaces.nodup_iff.mpr (List.nodup_cons.mpr ⟨hnew, t.nodup⟩)
  · rcases List.mem_cons.mp (hplaces.mem_iff.mp hh) with rfl | hh
    · exact Nat.lt_succ_self _
    · exact (t.lt h hh).trans (Nat.lt_succ_self _)
  · rcases Nat.lt_succ_iff_lt_or_eq.mp hlt with hlt | rfl
    · refine (t.ended_iff h hlt).trans (not_congr ?_)
      have hne : h ≠ w.nextHandle := hlt.ne
      have hreading : h ∈ w'.reading ↔ h ∈ w.reading := by
        show h ∈ w.nextHandle :: w.reading ↔ _
        simp [hne]
      have hqueue : h ∈ w'.queued ↔ h ∈ w.queued := by simp [hqueued, hne]
      rw [Open, Open, hrest, hqueue, hreading]
      rfl
    · have hopen : w'.Open w.nextHandle :=
        .inr ⟨by rw [hqueued]; simp, fun _ => List.mem_cons_self⟩
      have hitems : w'.items w.nextHandle = [] := t.fresh _ le_rfl
      simp [Ended, hitems, hopen]

/-- A client that reads the error ends a handle that nobody else will. -/
theorem Tracked.readError (t : w.Tracked) (hr : h ∈ w.reading)
    (hm : w.error.isSome → w.phase.drained ∧ h ∈ w.queued) : (w.readError h).Tracked := by
  have hmem : ∀ h', h' ≠ h → (h' ∈ w.reading.erase h ↔ h' ∈ w.reading) := fun h' hne =>
    List.mem_erase_of_ne hne
  unfold WorkerState.readError
  dsimp only
  by_cases he : w.error.isSome
  · obtain ⟨hover, hq⟩ := hm he
    have hnotHand : h ∉ w.phase.hand ++ w.table := fun hmem =>
      (List.nodup_append.mp t.nodup).2.2 _ hq _ hmem rfl
    have hnotReading : h ∉ w.reading.erase h := t.reading_nodup.not_mem_erase
    rw [if_pos he]
    refine t.closed (h := h) .finishedAborted rfl rfl List.erase_sublist t.nodup (fun _ h => h)
      (.inr ⟨hq, fun _ => hr⟩) (fun h' => ?_) t.dying
    show (h' ∈ w.phase.hand ++ w.table ∨ h' ∈ w.queued ∧
      (w.phase.drained → h' ∈ w.reading.erase h)) ↔ _
    by_cases hne : h' = h
    · subst hne
      simp [hnotHand, hnotReading, hover]
    · rw [hmem h' hne]
      simp only [ne_eq, hne, not_false_eq_true, and_true]
      rfl
  · rw [if_neg he]
    have hover := ThreadPhase.drained_eq_false (t.dying.trans (by simpa using he))
    refine ⟨t.fresh, t.reading_nodup.erase h,
      fun h' hh => t.reading_lt h' (List.mem_of_mem_erase hh), t.nodup, t.lt, t.last,
      fun h' hlt => (t.ended_iff h' hlt).trans (not_congr ?_), t.dying⟩
    exact (open_iff hover).trans (open_iff (w := { w with reading := w.reading.erase h })
      hover).symm

/-- A thread that dies has the handles of the table in its hands. -/
theorem Tracked.die (t : w.Tracked) (hp : w.phase.hand = []) (hdying : w.phase.dying = false)
    (err : EngineError) : (w.die err).Tracked := by
  have he : w.error.isSome = false := t.dying ▸ hdying
  have hover := ThreadPhase.drained_eq_false hdying
  refine t.goOn hover rfl rfl rfl rfl ?_ rfl
  rw [places, places, table, table, he, hp]
  simp [WorkerState.die, ThreadPhase.hand, queued]

/-- Finishing a request ends its handle. -/
theorem Tracked.finish (t : w.Tracked) (he : w.error = none) (hp : w.phase.hand = [])
    (hover : w.phase.drained = false) (r : Request) {phase : ThreadPhase} (hp' : phase.hand = [])
    (hdying : phase.dying = false) : Tracked { w.finish r with phase } := by
  have hover' := ThreadPhase.drained_eq_false hdying
  have htable : w.table = w.streams.values := by rw [table, he]; rfl
  unfold WorkerState.finish
  dsimp only
  cases hl : w.streams.lookup r.requestId with
  | none =>
    have herase := Dict.erase_of_lookup_eq_none hl
    refine t.goOn hover hover' rfl rfl rfl ?_ (by rw [hdying]; simp [he])
    rw [places, places, htable, hp, table]
    simp [he, hp', herase, queued]
  | some h =>
    have hperm := Dict.values_perm_erase hl
    have hplaces : w.places = w.queued ++ w.streams.values := by rw [places, hp, htable]; rfl
    set w' : WorkerState σ := { (WorkerState.putItem { w with
      deadlines := w.deadlines.erase r.requestId
      streams := w.streams.erase r.requestId } h (.streamEnd r.status)) with phase }
    have hplaces' : w'.places = w.queued ++ Dict.values (w.streams.erase r.requestId) := by
      rw [places, table]
      simp [w', putItem, he, hp', queued]
    have hcons : w.places.Perm (h :: w'.places) := by
      rw [hplaces, hplaces']
      exact (hperm.append_left _).trans List.perm_middle
    obtain ⟨hnotMem, hnodup⟩ := List.nodup_cons.mp (hcons.nodup_iff.mp t.nodup)
    refine t.closed (h := h) r.status rfl rfl (List.Sublist.refl _) hnodup
      (fun h' hh => hcons.mem_iff.mpr (List.mem_cons_of_mem _ hh))
      ((open_iff hover).mpr (hcons.mem_iff.mpr List.mem_cons_self)) (fun h' => ?_)
      (by rw [show w'.phase = phase from rfl, hdying]; simp [w', putItem, he])
    rw [open_iff hover, open_iff (w := w') hover', hcons.mem_iff, List.mem_cons]
    by_cases hne : h' = h
    · subst hne
      simp [hnotMem]
    · simp [hne]

/-- A living thread goes on with the same handles. -/
theorem Tracked.alive (t : w.Tracked) (hd : w.phase.dying = false) {phase : ThreadPhase}
    (hd' : phase.dying = false) {incoming : List Incoming} {streams : Dict RequestId HandleId}
    {deadlines : Dict RequestId ℕ} {engine : σ}
    (hperm : (incoming.filterMap Incoming.handle? ++ (phase.hand ++ streams.values)).Perm
      (w.queued ++ (w.phase.hand ++ w.streams.values))) :
    Tracked { w with phase, incoming, streams, deadlines, engine } := by
  have he : w.error.isSome = false := t.dying ▸ hd
  refine t.goOn (ThreadPhase.drained_eq_false hd) (ThreadPhase.drained_eq_false hd') rfl rfl rfl ?_
    (hd'.trans he.symm)
  rw [places, places, table, table, he]
  exact hperm

/-- Every action keeps every handle in one place until it has its end. -/
theorem Tracked.next {E : ServedEngine σ} {Inv : σ → Prop} {live : σ → List RequestId}
    (hE : E.Lawful Inv live) (t : w.Tracked) (hs : w.error = none → w.Serves Inv live) {a : Action}
    (hm : w.Isolates E a) (hn : w.Next E a w') : w'.Tracked := by
  cases hn with
  | put promptTokenIds samplingParams requestId timeout =>
    exact t.put promptTokenIds samplingParams requestId timeout
  | readError hr => exact t.readError hr hm
  | abort requestId =>
    have hq : queued { w with incoming := w.incoming ++ [.abort requestId] } = w.queued := by
      simp [queued, Incoming.handle?]
    refine t.moved rfl rfl rfl ?_ (fun h => ?_) t.dying
    · rw [places, hq]
      exact List.Perm.refl _
    · rw [Open, hq]
      rfl
  | @drainSubmission s rest hp hi =>
    refine t.alive (by rw [hp]; rfl) rfl ?_
    simp only [queued, hp, hi, List.filterMap_cons, Incoming.handle?, ThreadPhase.hand]
    exact List.perm_middle
  | drainAbort hp hi =>
    refine t.alive (by rw [hp]; rfl) rfl ?_
    simp only [queued, hp, hi, List.filterMap_cons, Incoming.handle?]
    exact List.Perm.refl _
  | drainEmpty hp hi =>
    exact t.alive (by rw [hp]; rfl) rfl (by rw [hp]; exact List.Perm.refl _)
  | @handle s engine now hp he =>
    have halive := t.error_eq_none (by rw [hp]; rfl)
    have hserves := hs halive
    obtain ⟨-, hnotMem, -⟩ := hE.addRequest hserves.inv he
    have hfree : w.streams.lookup s.requestId = none := by
      refine AList.lookup_eq_none.mpr fun hmem => ?_
      rcases hserves.streams _ hmem with hlive | hleaving
      · exact hnotMem hlive
      · rw [hp] at hleaving
        cases hleaving
    refine t.alive (by rw [hp]; rfl) rfl ?_
    rw [hp, Dict.values_set_of_notMem _ _ hfree]
    exact List.Perm.append_left w.queued (List.perm_append_singleton _ _)
  | handleRaises hp he =>
    obtain ⟨engine, hok⟩ := hm _ hp
    cases he.symm.trans hok
  | abortRequests hp he =>
    exact t.alive (by rw [hp]; rfl) rfl (by rw [hp]; exact List.Perm.refl _)
  | abortRaises hp he => exact t.die (by rw [hp]; rfl) (by rw [hp]; rfl) _
  | sweepNothing now hp hn =>
    exact t.alive (by rw [hp]; rfl) rfl (by rw [hp]; exact List.Perm.refl _)
  | sweep now hp hn he =>
    exact t.alive (by rw [hp]; rfl) rfl (by rw [hp]; exact List.Perm.refl _)
  | sweepRaises now hp hn he => exact t.die (by rw [hp]; rfl) (by rw [hp]; rfl) _
  | idle hp hu => exact t.alive (by rw [hp]; rfl) rfl (by rw [hp]; exact List.Perm.refl _)
  | step hp hu he => exact t.alive (by rw [hp]; rfl) rfl (by rw [hp]; exact List.Perm.refl _)
  | stepRaises hp hu he => exact t.die (by rw [hp]; rfl) (by rw [hp]; rfl) _
  | @emit r scheduled finished hp =>
    have halive := t.error_eq_none (by rw [hp]; rfl)
    have t' := t.emit (by rw [hp]; rfl) halive r
    have hphase : (w.emit r).phase = w.phase := by rw [emit_eq]
    exact t'.alive (by rw [hphase, hp]; rfl) rfl (by rw [hphase, hp]; exact List.Perm.refl _)
  | emitted hp => exact t.alive (by rw [hp]; rfl) rfl (by rw [hp]; exact List.Perm.refl _)
  | @finish r requests next hp =>
    have halive := t.error_eq_none (by rw [hp]; rfl)
    exact t.finish halive (by rw [hp]; rfl) (by rw [hp]; rfl) r rfl rfl
  | @finished next hp =>
    exact t.alive (by rw [hp]; rfl) (by cases next <;> rfl)
      (by rw [hp]; cases next <;> exact List.Perm.refl _)
  | @collectSubmission handles s rest hp hi =>
    have herr : w.error.isSome := by rw [← t.dying, hp]; rfl
    refine t.goOn (by rw [hp]; rfl) rfl rfl rfl rfl ?_ herr.symm
    rw [places, places, table, table, herr, queued, queued, hp, hi]
    simp only [List.filterMap_cons, Incoming.handle?, ThreadPhase.hand, if_true, List.append_nil]
    rw [← List.append_assoc]
    exact List.perm_append_singleton _ _
  | collectAbort hp hi =>
    refine t.goOn (by rw [hp]; rfl) (by rw [hp]; rfl) rfl rfl rfl ?_ t.dying
    rw [places, places]
    simp only [queued, hi, List.filterMap_cons, Incoming.handle?]
    exact List.Perm.refl _
  | @collectEmpty handles hp hi =>
    have herr : w.error.isSome := by rw [← t.dying, hp]; rfl
    refine t.moved rfl rfl rfl ?_ (fun h => ?_) herr.symm
    · rw [places, places, hp]
      exact List.Perm.refl _
    · rw [Open, Open, hp, queued, queued, hi]
      simp only [List.filterMap_nil, List.not_mem_nil, false_and, or_false]
      rfl
  | @endOne h handles hp =>
    have herr : w.error.isSome := by rw [← t.dying, hp]; rfl
    have hplaces : w.places = w.queued ++ h :: handles := by
      rw [places, table, herr, hp]
      simp [ThreadPhase.hand]
    set w' : WorkerState σ := { w.putItem h (.streamEnd .finishedAborted) with
      phase := .ending handles }
    have hplaces' : w'.places = w.queued ++ handles := by
      rw [places, table]
      simp [w', putItem, herr, queued, ThreadPhase.hand]
    have hcons : w.places.Perm (h :: w'.places) := by
      rw [hplaces, hplaces']
      exact List.perm_middle
    obtain ⟨hnotMem, hnodup⟩ := List.nodup_cons.mp (hcons.nodup_iff.mp t.nodup)
    have hopen : ∀ h', w.Open h' ↔ h' ∈ h :: handles ∨ h' ∈ w.queued ∧ h' ∈ w.reading := by
      intro h'
      rw [Open, table, herr, hp]
      simp [ThreadPhase.hand, ThreadPhase.drained]
    have hopen' : ∀ h', w'.Open h' ↔ h' ∈ handles ∨ h' ∈ w.queued ∧ h' ∈ w.reading := by
      intro h'
      rw [Open, table]
      simp [w', putItem, herr, queued, ThreadPhase.hand, ThreadPhase.drained]
    refine t.closed (h := h) .finishedAborted rfl rfl (List.Sublist.refl _) hnodup
      (fun h' hh => hcons.mem_iff.mpr (List.mem_cons_of_mem _ hh))
      ((hopen h).mpr (.inl List.mem_cons_self)) (fun h' => ?_) herr.symm
    rw [hopen', hopen, List.mem_cons]
    rw [hplaces', List.mem_append, not_or] at hnotMem
    by_cases hne : h' = h
    · subst hne
      simp [hnotMem]
    · simp [hne]
  | ended hp =>
    have herr : w.error.isSome := by rw [← t.dying, hp]; rfl
    refine t.moved rfl rfl rfl ?_ (fun h => ?_) herr.symm
    · rw [places, places, table, table, herr, hp]
      exact List.Perm.refl _
    · rw [Open, Open, table, table, herr, hp]
      rfl

/-- The thread goes on with the same requests. -/
theorem Serves.goOn {Inv : σ → Prop} {live : σ → List RequestId} (hs : w.Serves Inv live)
    (hengine : w'.engine = w.engine) (hstreams : w'.streams = w.streams)
    (hleaving : w'.phase.leaving = w.phase.leaving) : w'.Serves Inv live := by
  refine ⟨hengine ▸ hs.inv, fun id hid => ?_⟩
  rw [hengine, hleaving]
  exact hs.streams id (hstreams ▸ hid)

/-- The engine returned some requests, which are now to be finished. -/
theorem Serves.release {Inv : σ → Prop} {live : σ → List RequestId} (hs : w.Serves Inv live)
    (hnone : w.phase.leaving = []) {gone : List Request}
    (hlive : Inv w'.engine ∧
      ∀ id, id ∈ live w'.engine ↔ id ∈ live w.engine ∧ id ∉ gone.map Request.requestId)
    (hstreams : w'.streams = w.streams) (hleaving : w'.phase.leaving = gone.map Request.requestId) :
    w'.Serves Inv live := by
  refine ⟨hlive.1, fun id hid => ?_⟩
  have hold := hs.streams id (hstreams ▸ hid)
  rw [hnone] at hold
  rw [hlive.2, hleaving]
  by_cases hgone : id ∈ gone.map Request.requestId
  · exact .inr hgone
  · exact .inl ⟨hold.resolve_right List.not_mem_nil, hgone⟩

/-- As long as the thread lives, the stream table follows the engine. -/
theorem Serves.next {E : ServedEngine σ} {Inv : σ → Prop} {live : σ → List RequestId}
    (hE : E.Lawful Inv live) (t : w.Tracked) (hs : w.error = none → w.Serves Inv live) {a : Action}
    (hn : w.Next E a w') (he' : w'.error = none) : w'.Serves Inv live := by
  have hdead : w.phase.dying = true → w.error ≠ none := by
    intro hd hnone
    have := t.dying
    rw [hd, hnone] at this
    cases this
  cases hn with
  | put => exact (hs he').goOn rfl rfl rfl
  | @readError h hr =>
    have heq : (w.readError h).error = w.error ∧ (w.readError h).engine = w.engine ∧
        (w.readError h).streams = w.streams ∧ (w.readError h).phase = w.phase := by
      unfold WorkerState.readError
      dsimp only
      split <;> exact ⟨rfl, rfl, rfl, rfl⟩
    obtain ⟨herr, hengine, hstreams, hphase⟩ := heq
    exact (hs (herr ▸ he')).goOn hengine hstreams (by rw [hphase])
  | abort => exact (hs he').goOn rfl rfl rfl
  | drainSubmission hp hi => exact (hs he').goOn rfl rfl (by rw [hp]; rfl)
  | drainAbort hp hi => exact (hs he').goOn rfl rfl (by rw [hp]; rfl)
  | drainEmpty hp hi => exact (hs he').goOn rfl rfl (by rw [hp]; rfl)
  | @handle s engine now hp he =>
    have hserves := hs he'
    obtain ⟨hinv, -, hlive⟩ := hE.addRequest hserves.inv he
    refine ⟨hinv, fun id hid => .inl ((hlive id).mpr ?_)⟩
    rw [WorkerState.register, Dict.mem_set] at hid
    rcases hid with rfl | hid
    · exact .inr rfl
    · have hstreams := hserves.streams id hid
      rw [hp] at hstreams
      exact .inl (hstreams.resolve_right List.not_mem_nil)
  | abortRequests hp he =>
    exact (hs he').release (by rw [hp]; rfl) (hE.abortRequests (hs he').inv he) rfl rfl
  | sweepNothing now hp hn => exact (hs he').goOn rfl rfl (by rw [hp]; rfl)
  | sweep now hp hn he =>
    exact (hs he').release (by rw [hp]; rfl) (hE.abortRequests (hs he').inv he) rfl rfl
  | idle hp hu => exact (hs he').goOn rfl rfl (by rw [hp]; rfl)
  | step hp hu he => exact (hs he').release (by rw [hp]; rfl) (hE.step (hs he').inv he) rfl rfl
  | @emit r scheduled finished hp =>
    rw [emit_eq] at he'
    refine (hs he').goOn ?_ ?_ (by rw [hp]; rfl)
    · rw [emit_eq]
    · rw [emit_eq]
  | emitted hp => exact (hs he').goOn rfl rfl (by rw [hp]; rfl)
  | @finish r requests next hp =>
    obtain ⟨-, herr, hengine, -, -, hstreams⟩ := finish_eq w r
    have hserves := hs (herr ▸ he')
    refine ⟨hengine ▸ hserves.inv, fun id hid => ?_⟩
    show id ∈ live (w.finish r).engine ∨ id ∈ requests.map Request.requestId
    replace hid : id ∈ (w.finish r).streams := hid
    rw [hstreams, AList.mem_erase] at hid
    have hold := hserves.streams id hid.2
    rw [hp] at hold
    rw [hengine]
    refine hold.imp_right fun hmem => ?_
    exact (List.mem_cons.mp hmem).resolve_left hid.1
  | @finished next hp =>
    refine (hs he').goOn rfl rfl ?_
    rw [hp]
    cases next <;> rfl
  | handleRaises => cases he'
  | abortRaises => cases he'
  | sweepRaises => cases he'
  | stepRaises => cases he'
  | collectSubmission hp => exact absurd he' (hdead (by rw [hp]; rfl))
  | collectAbort hp => exact absurd he' (hdead (by rw [hp]; rfl))
  | collectEmpty hp => exact absurd he' (hdead (by rw [hp]; rfl))
  | endOne hp => exact absurd he' (hdead (by rw [hp]; rfl))
  | ended hp => exact absurd he' (hdead (by rw [hp]; rfl))

/-! ## Runs -/

/-- Every submitted handle gets its end, once, when its request has ended or the thread has
died. -/
structure EndsOnce (live : σ → List RequestId) (w : WorkerState σ) : Prop where
  /-- Nothing follows an end. -/
  last : ∀ h, ∀ x ∈ (w.items h).dropLast, ¬ x.isEnd
  /-- While the thread lives, the handles without an end are those of submissions that are yet to
  be handled, and those of the stream table. -/
  alive : w.error = none → ∀ h < w.nextHandle,
    (¬ w.Ended h ↔ h ∈ w.queued ∨ h ∈ w.phase.hand ∨ ∃ id, w.streams.lookup id = some h)
  /-- The stream table is of requests that the engine has, or has just returned. -/
  streams : w.error = none → ∀ id ∈ w.streams, id ∈ live w.engine ∨ id ∈ w.phase.leaving
  /-- Once the thread has died, the handles without an end are those that it will find, and those
  whose client will. -/
  dying : w.error ≠ none → ∀ h < w.nextHandle,
    (¬ w.Ended h ↔ h ∈ w.phase.hand ∨ h ∈ w.queued ∧ (w.phase.drained → h ∈ w.reading))
  /-- And when it is gone, every handle that `submit` has returned has its end. -/
  dead : w.phase = .dead → ∀ h < w.nextHandle, h ∉ w.reading → w.Ended h

theorem Tracked.endsOnce {Inv : σ → Prop} {live : σ → List RequestId} (t : w.Tracked)
    (hs : w.error = none → w.Serves Inv live) : w.EndsOnce live where
  last := t.last
  alive he h hlt := by
    have hover := ThreadPhase.drained_eq_false (t.dying.trans (by rw [he]; rfl))
    rw [t.ended_iff h hlt, not_not, open_iff hover, places, table, he]
    simp only [Option.isSome_none, Bool.false_eq_true, if_false, List.mem_append, Dict.mem_values]
  streams he := (hs he).streams
  dying he h hlt := by
    have herr : w.error.isSome := Option.isSome_iff_ne_none.mpr he
    rw [t.ended_iff h hlt, not_not, Open, table, if_pos herr, List.append_nil]
  dead hp h hlt hr := by
    have herr : w.error.isSome := by rw [← t.dying, hp]; rfl
    rw [t.ended_iff h hlt, Open, table, if_pos herr, hp]
    simp [ThreadPhase.hand, ThreadPhase.drained, hr]

end WorkerState

/-- A fresh worker has no handle in any place. -/
theorem WorkerState.Tracked.start {σ : Type} (start : σ) :
    WorkerState.Tracked { engine := start } := by
  refine ⟨fun _ _ => rfl, List.nodup_nil, ?_, List.nodup_nil, ?_, ?_, fun h hlt => ?_, rfl⟩
  · intro h hh
    cases hh
  · intro h hh
    cases hh
  · intro h x hx
    cases hx
  · exact absurd hlt (Nat.not_lt_zero h)

theorem WorkerState.Serves.start {σ : Type} {Inv : σ → Prop} {live : σ → List RequestId} {start : σ}
    (hstart : Inv start) : WorkerState.Serves Inv live { engine := start } := by
  refine ⟨hstart, fun id hid => ?_⟩
  cases hid

/-- An action that leaves the thread alive found it alive, and met the condition. -/
theorem WorkerState.Next.of_alive {σ : Type} {E : ServedEngine σ} {w w' : WorkerState σ}
    {a : WorkerState.Action} (hn : w.Next E a w') (he' : w'.error = none) :
    w.error = none ∧ w.Isolates E a := by
  cases hn with
  | put => exact ⟨he', trivial⟩
  | readError hr =>
    have he : w.error = none := by
      rw [← he']
      unfold WorkerState.readError
      dsimp only
      split <;> rfl
    refine ⟨he, fun hsome => ?_⟩
    rw [he] at hsome
    cases hsome
  | abort => exact ⟨he', trivial⟩
  | handle now hp he =>
    refine ⟨he', fun s hs => ?_⟩
    rw [hp] at hs
    cases hs
    exact ⟨_, he⟩
  | handleRaises => cases he'
  | abortRaises => cases he'
  | sweepRaises => cases he'
  | stepRaises => cases he'
  | emit hp =>
    rw [emit_eq] at he'
    exact ⟨he', fun s hs => by rw [hp] at hs; cases hs⟩
  | @finish r requests next hp =>
    exact ⟨(finish_eq w r).2.1 ▸ he', fun s hs => by rw [hp] at hs; cases hs⟩
  | drainSubmission hp | drainAbort hp | drainEmpty hp | abortRequests hp | sweepNothing now hp
  | sweep now hp | idle hp | step hp | emitted hp | finished hp | collectSubmission hp
  | collectAbort hp | collectEmpty hp | endOne hp | ended hp =>
    exact ⟨he', fun s hs => by rw [hp] at hs; cases hs⟩

namespace WorkerState
variable {σ : Type} {E : ServedEngine σ} {w w' : WorkerState σ} {a : Action}

theorem items_prefix_putItem (w : WorkerState σ) (h : HandleId) (x : StreamItem) (h' : HandleId) :
    w.items h' <+: (w.putItem h x).items h' := by
  by_cases hne : h' = h
  · subst hne
    rw [putItem_items_self]
    exact List.prefix_append _ _
  · rw [putItem_items_ne w x hne]

/-- Nothing is taken off a handle's queue but by its reader. -/
theorem Next.items_prefix (hn : w.Next E a w') (h : HandleId) : w.items h <+: w'.items h := by
  cases hn with
  | @readError h' hr =>
    unfold WorkerState.readError
    dsimp only
    split
    · exact items_prefix_putItem { w with reading := _ } ..
    · exact List.prefix_rfl
  | emit =>
    unfold WorkerState.emit
    dsimp only
    split
    · exact items_prefix_putItem ..
    · exact List.prefix_rfl
  | @finish r =>
    unfold WorkerState.finish
    dsimp only
    split
    · exact items_prefix_putItem { w with deadlines := _, streams := _ } ..
    · exact List.prefix_rfl
  | endOne => exact items_prefix_putItem ..
  | put | abort | drainSubmission | drainAbort | drainEmpty | handle | handleRaises | abortRequests
  | abortRaises | sweepNothing | sweep | sweepRaises | idle | step | stepRaises | emitted | finished
  | collectSubmission | collectAbort | collectEmpty | ended => exact List.prefix_rfl

end WorkerState

section Runs
variable {σ : Type} {E : ServedEngine σ} {Inv : σ → Prop} {live : σ → List RequestId} {start : σ}
  {w : WorkerState σ}

/-- As long as the thread lives, every run keeps the handles in their places. -/
theorem tracked_of_alive {Meets : WorkerState σ → WorkerState.Action → Prop}
    (hE : E.Lawful Inv live) (hstart : Inv start) (h : WorkerRun E Meets start w)
    (he : w.error = none) : w.Tracked ∧ w.Serves Inv live := by
  induction h with
  | start => exact ⟨.start start, .start hstart⟩
  | next _ _ hn ih =>
    obtain ⟨halive, hm⟩ := hn.of_alive he
    obtain ⟨t, hs⟩ := ih halive
    exact ⟨t.next hE (fun _ => hs) hm hn, WorkerState.Serves.next hE t (fun _ => hs) hn he⟩

/-- In a run in which the engine takes every submission and no client reads the error while the
thread may still find its submission, every handle gets its end, once. -/
theorem endsOnce_of_run (hE : E.Lawful Inv live) (hstart : Inv start)
    (h : WorkerRun E (WorkerState.Isolates E) start w) : w.EndsOnce live := by
  have hall : w.Tracked ∧ (w.error = none → w.Serves Inv live) := by
    induction h with
    | start => exact ⟨.start start, fun _ => .start hstart⟩
    | next _ hm hn ih =>
      exact ⟨ih.1.next hE ih.2 hm hn, fun he => WorkerState.Serves.next hE ih.1 ih.2 hn he⟩
  exact hall.1.endsOnce hall.2

end Runs

/-! ## The engine behind the worker -/

/-- A step keeps the order and takes the finished requests off the list. -/
theorem LLMEngine.StepTurns.inOrder_requests {drafts : Option (RequestId → List Token)}
    {s s' : Scheduler} {out : SchedulerOutput} {finished : List Request} {s₁ s₃ s₅ : Scheduler}
    {plan : List Decision} {victims : List Request} {as : List Admission}
    {served : Request → Request}
    (st : StepTurns drafts s s' out finished s₁ s₃ s₅ plan victims as served) : InOrder s' ∧
      s'.requests = s.requests.filter fun id => id ∉ finished.map Request.requestId := by
  obtain ⟨o₅, -, -, -, hreq⟩ := st.swept
  rw [st.propose, Scheduler.proposeIf_eq]
  refine ⟨o₅.updateRunning _ fun r _ => (sameRequest_proposed drafts r).requestId, ?_⟩
  rw [← st.trace.requests]
  exact hreq

/-- The requests of `LLMEngine` are those of its scheduler's dictionary. -/
theorem LLMEngine.served_lawful (e : LLMEngine) : e.served.Lawful InOrder Scheduler.requests where
  addRequest {s s' id promptTokenIds params} hs h := by
    obtain ⟨o, hreq⟩ := hs.addRequest h
    have hnodup := o.nodup
    rw [hreq] at hnodup
    refine ⟨o, fun hmem => ?_, fun id' => ?_⟩
    · exact (List.nodup_append.mp hnodup).2.2 _ hmem _ (List.mem_singleton_self _) rfl
    · rw [hreq, List.mem_append, List.mem_singleton]
      rfl
  step {s s' scheduled finished} hs h := by
    obtain ⟨drafts, -, hresult⟩ := h
    obtain ⟨⟨s'', out, finished'⟩, hstep, hret⟩ := bind_eq_ok.mp hresult.symm
    cases hret
    obtain ⟨_, _, _, _, _, _, _, st, -⟩ := stepTurns_of_step hs hstep
    obtain ⟨o, hreq⟩ := st.inOrder_requests
    exact ⟨o, fun id => by simp [hreq]⟩
  abortRequests hs h := by
    obtain ⟨o, hreq⟩ := hs.abortRequests h
    exact ⟨o, fun id => by simp [hreq]⟩
  hasUnfinishedRequests {s} hs := by
    rw [← hs.ids, ne_eq, List.map_eq_nil_iff, List.append_eq_nil_iff]
    show Scheduler.hasUnfinishedRequests s = true ↔ _
    simp only [Scheduler.hasUnfinishedRequests, decide_eq_true_eq, ← List.length_eq_zero_iff]
    omega

/-- Nine blocks, and no position from four on. -/
def boundedEngine : LLMEngine :=
  { countingEngine with
    cacheConfig := .ofBlocks 1 9 Nat.one_pos
    runner := { countingEngine.runner with maxModelLen := some 4 } }

/-- Of four requests one finishes, one times out, one is aborted by its client, and the last one,
whose prompt comes in two chunks, is decoded until it is too long and the step raises. The thread
dies with a submission on the queue, which it still finds, and a client that submits later finds
the error. -/
theorem endsOnce_of_run_died : ∃ w w' : WorkerState Scheduler,
    WorkerRun boundedEngine.served (WorkerState.Isolates boundedEngine.served)
        boundedEngine.start w ∧
      w.error = none ∧ w.items 0 = [.streamToken 1, .streamEnd .finishedLengthCapped] ∧
      w.items 1 = [.streamToken 1, .streamToken 2, .streamEnd .finishedAborted] ∧
      w.items 2 = [.streamEnd .finishedAborted] ∧ w.items 3 = [.streamToken 2] ∧
      w.EndsOnce Scheduler.requests ∧
      WorkerRun boundedEngine.served (WorkerState.Isolates boundedEngine.served)
        boundedEngine.start w' ∧
      w'.phase = .dead ∧ w'.items 3 =
        [.streamToken 2, .streamToken 3, .streamToken 4, .streamEnd .finishedAborted] ∧
      w'.items 4 = [.streamEnd .finishedAborted] ∧ w'.items 5 = [.streamEnd .finishedAborted] ∧
      w'.EndsOnce Scheduler.requests := by
  have hplays : (WorkerState.play boundedEngine.served (boundedEngine.outcome fun _ => none)
      (WorkerState.Isolates boundedEngine.served) { engine := boundedEngine.start }
      ([(.put [1] { maxTokens := 1 } 7 none, 0), (.readError 0, 0), (.put [3] {} 9 (some 5), 0),
        (.readError 1, 0), (.put [4] {} 12 none, 0), (.readError 2, 0), (.put [2, 2] {} 8 none, 0),
        (.readError 3, 0), (.abort 12, 0)] ++ List.replicate 26 (.thread, 3) ++
        List.replicate 11 (.thread, 9))).any (fun w =>
      (w.play boundedEngine.served (boundedEngine.outcome fun _ => none)
        (WorkerState.Isolates boundedEngine.served) (List.replicate 12 (.thread, 9) ++
          [(.put [5] {} 10 none, 9), (.readError 4, 9), (.thread, 9), (.thread, 9), (.thread, 9),
            (.put [6] {} 11 none, 9), (.readError 5, 9), (.thread, 9), (.thread, 9),
            (.thread, 9)])).any fun w' => decide (
        w.error.isNone ∧ w.items 0 = [.streamToken 1, .streamEnd .finishedLengthCapped] ∧
        w.items 1 = [.streamToken 1, .streamToken 2, .streamEnd .finishedAborted] ∧
        w.items 2 = [.streamEnd .finishedAborted] ∧ w.items 3 = [.streamToken 2] ∧
        w'.phase matches .dead ∧ w'.items 3 =
          [.streamToken 2, .streamToken 3, .streamToken 4, .streamEnd .finishedAborted] ∧
        w'.items 4 = [.streamEnd .finishedAborted] ∧
        w'.items 5 = [.streamEnd .finishedAborted])) = true := by decide +kernel
  simp only [Option.any_eq_true, decide_eq_true_eq] at hplays
  obtain ⟨w, hrun, w', hrest, halive, h₀, h₁, h₂, h₃, hdead, h₃', h₄, h₅⟩ := hplays
  have hresult := boundedEngine.served_step_outcome (fun _ => none) fun _ => trivial
  have hrun := WorkerRun.play .start hresult hrun
  have hrun' := hrun.play hresult hrest
  have hstart : InOrder boundedEngine.start := ⟨rfl, List.nodup_nil⟩
  have hphase : w'.phase = .dead := by
    cases hp : w'.phase <;> simp_all
  exact ⟨w, w', hrun, Option.isNone_iff_eq_none.mp halive, h₀, h₁, h₂, h₃,
    endsOnce_of_run boundedEngine.served_lawful hstart hrun, hrun', hphase, h₃', h₄, h₅,
    endsOnce_of_run boundedEngine.served_lawful hstart hrun'⟩

/-- The second of two submissions under one id kills the thread; it is in nobody's place then, and
its client is told nothing. -/
theorem duplicate_never_ends : ¬ ∀ (σ : Type) (E : ServedEngine σ) (Inv : σ → Prop)
    (live : σ → List RequestId) (start : σ) (w : WorkerState σ), E.Lawful Inv live → Inv start →
    WorkerRun E (fun _ _ => True) start w → w.EndsOnce live := by
  intro h
  have hstart : WorkerRun countingEngine.served (fun _ _ => True) countingEngine.start _ := .start
  have hput := hstart.next trivial (.put [1] {} 7 none)
  have hput' := hput.next trivial (.put [2] {} 7 none)
  have hread := hput'.next trivial (.readError (h := 0) (by decide))
  have hread' := hread.next trivial (.readError (h := 1) (by decide))
  have hdrain := hread'.next trivial (.drainSubmission rfl rfl)
  have hhandle := hdrain.next trivial (.handle 0 rfl rfl)
  have hdrain' := hhandle.next trivial (.drainSubmission rfl rfl)
  have hdie := hdrain'.next trivial (.handleRaises rfl rfl)
  have hcollect := hdie.next trivial (.collectEmpty rfl rfl)
  have hend := hcollect.next trivial (.endOne rfl)
  have hdead := hend.next trivial (.ended rfl)
  have hends := h Scheduler _ _ _ _ _ countingEngine.served_lawful ⟨rfl, List.nodup_nil⟩ hdead
  obtain ⟨x, hx, -⟩ := hends.dead rfl 1 (by decide) (by decide)
  have hnothing : x ∈ ([] : List StreamItem) := hx
  cases hnothing

end LightServe
