import LightServe.Lib.Potential
import LightServe.Server.Streams
import LightServe.Serving.Budgets
import LightServe.Serving.GenerateOutputs

/-!
# The worker gets through its work

Whatever clients submit and abort in between, the engine thread answers everybody after so many
actions of its own: a potential counts the tokens that may still come, the queue, and what is left
of the thread's round, and every action of the thread lowers it until there is nothing to do.

## Main definitions

* `ServedEngine.Productive` — an engine that never fails and gets through its work.
* `WorkerState.Submits` — what clients see to.
* `WorkerState.due` — the potential.
* `ServedEngine.Productive.ends_within` — the argument for every such engine.
* `ended_within` — the result.
-/

namespace LightServe

/-- An engine that takes every new request that it admits and never fails, whose steps leave less
work and schedule no more than `batch` requests. -/
structure ServedEngine.Productive {σ : Type} (E : ServedEngine σ) (Inv : σ → Prop)
    (live : σ → List RequestId) (Admits : RequestId → List Token → SamplingParams → Prop)
    (work : σ → ℕ) (size : List Token → SamplingParams → ℕ) (batch : ℕ) : Prop where
  addRequest {s : σ} {id : RequestId} {promptTokenIds : List Token} {params : SamplingParams}
    (hs : Inv s) (ha : Admits id promptTokenIds params) (hid : id ∉ live s) :
    ∃ s', E.addRequest s id promptTokenIds params = .ok s' ∧ Inv s' ∧ live s' = live s ++ [id] ∧
      work s' ≤ work s + size promptTokenIds params
  step {s : σ} (hs : Inv s) (hlive : live s ≠ []) : (∃ result, E.step s result) ∧
    ∀ result, E.step s result → ∃ s' scheduled finished, result = .ok (s', scheduled, finished) ∧
      Inv s' ∧ work s' < work s ∧ scheduled.length ≤ batch ∧ (live s').Sublist (live s) ∧
      (live s').length + finished.length ≤ (live s).length
  abortRequests {s : σ} (hs : Inv s) (ids : List RequestId) :
    ∃ s' gone, E.abortRequests s ids = .ok (s', gone) ∧ Inv s' ∧ work s' ≤ work s ∧
      (live s').Sublist (live s) ∧ (live s').length + gone.length ≤ (live s).length
  hasUnfinishedRequests {s : σ} (hs : Inv s) : E.hasUnfinishedRequests s = true ↔ live s ≠ []

/-! ## What the worker has to do -/

def Incoming.submission? : Incoming → Option Submission
  | .submission s => some s
  | .abort _ => none

/-- The submission in the thread's hands. -/
def ThreadPhase.inHand : ThreadPhase → List Submission
  | .handling s => [s]
  | _ => []

section Due
variable (size : List Token → SamplingParams → ℕ) (batch : ℕ)

/-- What a token that may still come is worth: a round of the thread. -/
def roundLength : ℕ := batch + 8

/-- The actions that an entry of the queue leads to. -/
def Incoming.due : Incoming → ℕ
  | .submission s => roundLength batch * size s.promptTokenIds s.samplingParams + 3
  | .abort _ => 3

/-- The actions that are left of the thread's round. -/
def ThreadPhase.due : ThreadPhase → ℕ
  | .draining => 4
  | .handling s => roundLength batch * size s.promptTokenIds s.samplingParams + 6
  | .aborting _ => 6
  | .sweeping => 3
  | .stepping => 1
  | .emitting scheduled finished => scheduled.length + finished.length + 6
  | .finishing requests .drain => requests.length + 5
  | .finishing requests .step => requests.length + 2
  | .collecting _ | .ending _ | .dead => 0

/-- Past the queue, the thread may have to make an idle round before it comes to it. -/
def ThreadPhase.idleRound (incoming : List Incoming) : ThreadPhase → ℕ
  | .sweeping | .stepping | .finishing _ .step => if incoming.isEmpty then 0 else 4
  | _ => 0

end Due

namespace WorkerState
variable {σ : Type}

/-- The submissions that the engine has yet to take. -/
def pending (w : WorkerState σ) : List Submission :=
  w.phase.inHand ++ w.incoming.filterMap Incoming.submission?

/-- The ids in use. -/
def ids (live : σ → List RequestId) (w : WorkerState σ) : List RequestId :=
  live w.engine ++ w.pending.map Submission.requestId

/-- What must hold of an action: a submission is of a request that the engine admits, under an id
that is not in use. -/
def Submits (live : σ → List RequestId) (Admits : RequestId → List Token → SamplingParams → Prop)
    (w : WorkerState σ) : Action → Prop
  | .put promptTokenIds params id _ => Admits id promptTokenIds params ∧ id ∉ w.ids live
  | _ => True

instance (live : σ → List RequestId) (Admits : RequestId → List Token → SamplingParams → Prop)
    [∀ id promptTokenIds params, Decidable (Admits id promptTokenIds params)] (w : WorkerState σ) :
    (a : Action) → Decidable (w.Submits live Admits a)
  | .put .. => inferInstanceAs (Decidable (_ ∧ _))
  | .readError _ | .abort _ | .thread => .isTrue trivial

/-- A worker whose thread is alive and knows its submissions apart. -/
structure Steady (Inv : σ → Prop) (live : σ → List RequestId)
    (Admits : RequestId → List Token → SamplingParams → Prop) (w : WorkerState σ) : Prop where
  alive : w.error = none
  phase : w.phase.dying = false
  inv : Inv w.engine
  nodup : (w.ids live).Nodup
  admitted : ∀ s ∈ w.pending, Admits s.requestId s.promptTokenIds s.samplingParams

/-- The actions that the thread has to make before there is nothing to do. -/
def due (live : σ → List RequestId) (work : σ → ℕ) (size : List Token → SamplingParams → ℕ)
    (batch : ℕ) (w : WorkerState σ) : ℕ :=
  roundLength batch * work w.engine + (live w.engine).length +
    (w.incoming.map (Incoming.due size batch)).sum + w.phase.due size batch +
    w.phase.idleRound w.incoming

/-- What an action of a client adds. -/
def Action.cost (size : List Token → SamplingParams → ℕ) (batch : ℕ) : Action → ℕ
  | .put promptTokenIds params _ _ => roundLength batch * size promptTokenIds params + 7
  | .abort _ => 7
  | .readError _ | .thread => 0

def Action.isThread : Action → Bool
  | .thread => true
  | _ => false

/-- There is nothing to do. -/
structure Resting (live : σ → List RequestId) (w : WorkerState σ) : Prop where
  incoming : w.incoming = []
  engine : live w.engine = []
  phase : w.phase = .draining ∨ w.phase = .sweeping ∨ w.phase = .stepping

variable {E : ServedEngine σ} {Inv : σ → Prop} {live : σ → List RequestId}
  {Admits : RequestId → List Token → SamplingParams → Prop} {work : σ → ℕ}
  {size : List Token → SamplingParams → ℕ} {batch : ℕ} {w w' : WorkerState σ} {a : Action}

/-! ## The thread stays alive -/

theorem pending_eq (hhand : w'.phase.inHand = w.phase.inHand)
    (hincoming : w'.incoming = w.incoming) :
    w'.pending = w.pending := by
  rw [pending, pending, hhand, hincoming]

theorem pending_handling {s : Submission} (hp : w.phase = .handling s) :
    w.pending = s :: w.incoming.filterMap Incoming.submission? := by
  rw [pending, hp]
  rfl

/-- The engine takes what the thread has in its hands. -/
theorem Steady.takes (hE : E.Productive Inv live Admits work size batch)
    (st : w.Steady Inv live Admits) {s : Submission} (hp : w.phase = .handling s) :
    ∃ s', E.addRequest w.engine s.requestId s.promptTokenIds s.samplingParams = .ok s' ∧ Inv s' ∧
      live s' = live w.engine ++ [s.requestId] ∧
      work s' ≤ work w.engine + size s.promptTokenIds s.samplingParams := by
  have hpending := pending_handling hp
  have hfresh := st.nodup
  rw [ids, hpending] at hfresh
  exact hE.addRequest st.inv (st.admitted s (hpending ▸ List.mem_cons_self)) fun hmem =>
    (List.nodup_append.mp hfresh).2.2 _ hmem _ List.mem_cons_self rfl

/-- The thread goes on, with an engine that has no more requests than before. -/
theorem Steady.goOn (st : w.Steady Inv live Admits) (herror : w'.error = none)
    (hphase : w'.phase.dying = false) (hinv : Inv w'.engine)
    (hlive : (live w'.engine).Sublist (live w.engine)) (hpending : w'.pending = w.pending) :
    w'.Steady Inv live Admits := by
  refine ⟨herror, hphase, hinv, ?_, hpending ▸ st.admitted⟩
  rw [ids, hpending]
  exact (hlive.append_right _).nodup st.nodup

theorem Steady.next (hE : E.Productive Inv live Admits work size batch)
    (st : w.Steady Inv live Admits) (hm : w.Submits live Admits a) (hn : w.Next E a w') :
    w'.Steady Inv live Admits := by
  have hdying : ∀ {phase : ThreadPhase}, w.phase = phase → phase.dying = false := fun hp =>
    hp ▸ st.phase
  cases hn with
  | put promptTokenIds params id timeout =>
    have hpending : (w.put promptTokenIds params id timeout).pending = w.pending ++
        [{ promptTokenIds, samplingParams := params, requestId := id, timeout
           handle := w.nextHandle }] := by
      simp [pending, WorkerState.put, Incoming.submission?]
    refine ⟨st.alive, st.phase, st.inv, ?_, fun s hs => ?_⟩
    · rw [ids, hpending, List.map_append, ← List.append_assoc]
      exact List.Nodup.append st.nodup (List.nodup_singleton _)
        (List.disjoint_singleton.mpr hm.2)
    · rw [hpending, List.mem_append, List.mem_singleton] at hs
      rcases hs with hs | rfl
      · exact st.admitted s hs
      · exact hm.1
  | readError =>
    have hread : ∀ h, w.readError h = { w with reading := w.reading.erase h } := fun h => by
      simp [WorkerState.readError, st.alive]
    rw [hread]
    exact st.goOn st.alive st.phase st.inv (.refl _) rfl
  | abort =>
    exact st.goOn st.alive st.phase st.inv (.refl _) (by simp [pending, Incoming.submission?])
  | drainSubmission hp hi =>
    refine st.goOn st.alive rfl st.inv (.refl _) ?_
    rw [pending, pending, hp, hi]
    rfl
  | drainAbort hp hi =>
    refine st.goOn st.alive rfl st.inv (.refl _) ?_
    rw [pending, pending, hp, hi]
    rfl
  | drainEmpty hp hi =>
      exact st.goOn st.alive rfl st.inv (.refl _) (pending_eq (by rw [hp]; rfl) rfl)
  | @handle s engine now hp he =>
    obtain ⟨s', hok, hinv, hlive, -⟩ := st.takes hE hp
    cases hok.symm.trans he
    have hpending := pending_handling hp
    refine ⟨st.alive, rfl, hinv, ?_, fun s' hs' => st.admitted s' (hpending ▸ .tail _ hs')⟩
    show (live engine ++ _).Nodup
    rw [hlive, List.append_assoc]
    have hnodup := st.nodup
    rwa [ids, hpending] at hnodup
  | handleRaises hp he =>
    obtain ⟨s', hok, -⟩ := st.takes hE hp
    cases hok.symm.trans he
  | abortRequests hp he =>
    obtain ⟨s', gone', hok, hinv, -, hlive, -⟩ := hE.abortRequests st.inv _
    cases hok.symm.trans he
    exact st.goOn st.alive rfl hinv hlive (pending_eq (by rw [hp]; rfl) rfl)
  | abortRaises hp he =>
    obtain ⟨s', gone', hok, -⟩ := hE.abortRequests st.inv _
    cases hok.symm.trans he
  | sweepNothing now hp =>
      exact st.goOn st.alive rfl st.inv (.refl _) (pending_eq (by rw [hp]; rfl) rfl)
  | sweep now hp hn he =>
    obtain ⟨s', gone', hok, hinv, -, hlive, -⟩ := hE.abortRequests st.inv _
    cases hok.symm.trans he
    exact st.goOn st.alive rfl hinv hlive (pending_eq (by rw [hp]; rfl) rfl)
  | sweepRaises now hp hn he =>
    obtain ⟨s', gone', hok, -⟩ := hE.abortRequests st.inv _
    cases hok.symm.trans he
  | idle hp => exact st.goOn st.alive rfl st.inv (.refl _) (pending_eq (by rw [hp]; rfl) rfl)
  | step hp hu he =>
    obtain ⟨s', scheduled', finished', hok, hinv, -, -, hlive, -⟩ :=
      (hE.step st.inv ((hE.hasUnfinishedRequests st.inv).mp hu)).2 _ he
    cases hok
    exact st.goOn st.alive rfl hinv hlive (pending_eq (by rw [hp]; rfl) rfl)
  | stepRaises hp hu he =>
    obtain ⟨s', scheduled', finished', hok, -⟩ :=
      (hE.step st.inv ((hE.hasUnfinishedRequests st.inv).mp hu)).2 _ he
    cases hok
  | @emit r scheduled finished hp =>
    have heq := emit_eq w r
    exact st.goOn (by rw [heq]; exact st.alive) rfl (by rw [heq]; exact st.inv)
      (by rw [heq]) (pending_eq (by rw [hp]; rfl) (by rw [heq]))
  | emitted hp => exact st.goOn st.alive rfl st.inv (.refl _) (pending_eq (by rw [hp]; rfl) rfl)
  | @finish r requests next hp =>
    obtain ⟨hincoming, herror, hengine, -⟩ := finish_eq w r
    exact st.goOn (herror.trans st.alive) rfl (by rw [hengine]; exact st.inv) (by rw [hengine])
      (pending_eq (by rw [hp]; rfl) hincoming)
  | @finished next hp =>
    refine st.goOn st.alive ?_ st.inv (.refl _) (pending_eq ?_ rfl)
    · cases next <;> rfl
    · rw [hp]
      cases next <;> rfl
  | collectSubmission hp | collectAbort hp | collectEmpty hp | endOne hp | ended hp =>
    cases hdying hp

/-! ## The potential falls -/

theorem idleRound_le (incoming : List Incoming) (phase : ThreadPhase) :
    phase.idleRound incoming ≤ 4 := by
  unfold ThreadPhase.idleRound
  split <;> (try split) <;> omega

/-- The actions of clients raise the potential by their cost. -/
theorem Steady.due_le (st : w.Steady Inv live Admits) (hn : w.Next E a w')
    (ha : a.isThread = false) :
    w'.due live work size batch ≤ w.due live work size batch + a.cost size batch := by
  have hidle := idleRound_le w'.incoming w'.phase
  cases hn with
  | put promptTokenIds params id timeout =>
    simp only [due, WorkerState.put, List.map_append, List.sum_append, List.map_cons, List.map_nil,
      List.sum_singleton, Incoming.due, Action.cost] at hidle ⊢
    omega
  | readError =>
    have hread : ∀ h, w.readError h = { w with reading := w.reading.erase h } := fun h => by
      simp [WorkerState.readError, st.alive]
    rw [hread]
    exact Nat.le_add_right _ _
  | abort =>
    simp only [due, List.map_append, List.sum_append, List.map_cons, List.map_nil,
      List.sum_singleton, Incoming.due, Action.cost] at hidle ⊢
    omega
  | _ => cases ha

/-- The thread goes on with the same engine, and less is left of its round. -/
theorem due_lt_of_phase (hengine : w'.engine = w.engine) (hincoming : w'.incoming = w.incoming)
    (hphase : w'.phase.due size batch + w'.phase.idleRound w.incoming <
      w.phase.due size batch + w.phase.idleRound w.incoming) :
    w'.due live work size batch < w.due live work size batch := by
  rw [due, due, hengine, hincoming]
  omega

/-- The engine returned requests, which leave no more work than there was. -/
theorem due_lt_of_returned {gone : List Request} (hincoming : w'.incoming = w.incoming)
    (hwork : work w'.engine ≤ work w.engine)
    (hlive : (live w'.engine).length + gone.length ≤ (live w.engine).length)
    (hphase : w'.phase.due size batch + w'.phase.idleRound w.incoming <
      w.phase.due size batch + w.phase.idleRound w.incoming + gone.length) :
    w'.due live work size batch < w.due live work size batch := by
  have hround := Nat.mul_le_mul_left (roundLength batch) hwork
  rw [due, due, hincoming]
  omega

/-- Those of the thread lower it, unless there is nothing to do. -/
theorem Steady.due_lt (hE : E.Productive Inv live Admits work size batch)
    (st : w.Steady Inv live Admits) (hrest : ¬ w.Resting live) (hn : w.Next E .thread w') :
    w'.due live work size batch < w.due live work size batch := by
  have hdying : ∀ {phase : ThreadPhase}, w.phase = phase → phase.dying = false := fun hp =>
    hp ▸ st.phase
  cases hn with
  | drainSubmission hp hi | drainAbort hp hi =>
    simp only [due, hp, hi, List.map_cons, List.sum_cons, Incoming.due, ThreadPhase.due,
      ThreadPhase.idleRound]
    omega
  | drainEmpty hp hi =>
    refine due_lt_of_phase rfl rfl ?_
    simp only [hp, hi, ThreadPhase.due, ThreadPhase.idleRound, List.isEmpty_nil, if_true]
    omega
  | @handle s engine now hp he =>
    obtain ⟨s', hok, -, hlive, hwork⟩ := st.takes hE hp
    cases hok.symm.trans he
    have hround := Nat.mul_le_mul_left (roundLength batch) hwork
    rw [Nat.mul_add] at hround
    simp only [due, register, hp, hlive, List.length_append, List.length_singleton, ThreadPhase.due,
      ThreadPhase.idleRound]
    omega
  | abortRequests hp he =>
    obtain ⟨s', gone', hok, -, hwork, -, hlen⟩ := hE.abortRequests st.inv _
    cases hok.symm.trans he
    refine due_lt_of_returned rfl hwork hlen ?_
    simp only [hp, ThreadPhase.due, ThreadPhase.idleRound]
    omega
  | sweepNothing now hp =>
    refine due_lt_of_phase rfl rfl ?_
    simp only [hp, ThreadPhase.due, ThreadPhase.idleRound]
    omega
  | sweep now hp hn he =>
    obtain ⟨s', gone', hok, -, hwork, -, hlen⟩ := hE.abortRequests st.inv _
    cases hok.symm.trans he
    refine due_lt_of_returned rfl hwork hlen ?_
    simp only [hp, ThreadPhase.due, ThreadPhase.idleRound]
    omega
  | idle hp hu =>
    -- the idle round of somebody who came in the meantime
    have hlive : live w.engine = [] := by
      by_contra hne
      exact Bool.false_ne_true (hu.symm.trans ((hE.hasUnfinishedRequests st.inv).mpr hne))
    have hincoming : w.incoming.isEmpty = false := by
      rw [List.isEmpty_eq_false_iff]
      exact fun hnil => hrest ⟨hnil, hlive, .inr (.inr hp)⟩
    refine due_lt_of_phase rfl rfl ?_
    simp only [hp, ThreadPhase.due, ThreadPhase.idleRound, hincoming, Bool.false_eq_true, if_false]
    omega
  | step hp hu he =>
    obtain ⟨s', scheduled', finished', hok, -, hwork, hbatch, -, hlen⟩ :=
      (hE.step st.inv ((hE.hasUnfinishedRequests st.inv).mp hu)).2 _ he
    cases hok
    have hround := Nat.mul_le_mul_left (roundLength batch) hwork
    rw [Nat.mul_succ] at hround
    simp only [due, hp, ThreadPhase.due, ThreadPhase.idleRound]
    unfold roundLength at hround ⊢
    omega
  | @emit r scheduled finished hp =>
    refine due_lt_of_phase (by rw [emit_eq]) (by rw [emit_eq]) ?_
    simp only [hp, ThreadPhase.due, ThreadPhase.idleRound, List.length_cons]
    omega
  | emitted hp =>
    refine due_lt_of_phase rfl rfl ?_
    simp only [hp, ThreadPhase.due, ThreadPhase.idleRound, List.length_nil]
    omega
  | @finish r requests next hp =>
    obtain ⟨hincoming, -, hengine, -⟩ := finish_eq w r
    refine due_lt_of_phase hengine hincoming ?_
    cases next <;>
      simp only [hp, ThreadPhase.due, ThreadPhase.idleRound, List.length_cons] <;>
      omega
  | @finished next hp =>
    refine due_lt_of_phase rfl rfl ?_
    cases next <;>
      simp only [hp, ThreadPhase.due, ThreadPhase.idleRound, AfterFinish.phase, List.length_nil] <;>
      omega
  | stepRaises hp hu he =>
    obtain ⟨s', scheduled', finished', hok, -⟩ :=
      (hE.step st.inv ((hE.hasUnfinishedRequests st.inv).mp hu)).2 _ he
    cases hok
  | handleRaises hp he =>
    obtain ⟨s', hok, -⟩ := st.takes hE hp
    cases hok.symm.trans he
  | abortRaises hp he =>
    obtain ⟨s', gone', hok, -⟩ := hE.abortRequests st.inv _
    cases hok.symm.trans he
  | sweepRaises now hp hn he =>
    obtain ⟨s', gone', hok, -⟩ := hE.abortRequests st.inv _
    cases hok.symm.trans he
  | collectSubmission hp | collectAbort hp | collectEmpty hp | endOne hp | ended hp =>
    cases hdying hp

/-- The thread of a steady worker can always go on. -/
theorem Steady.enabled (hE : E.Productive Inv live Admits work size batch)
    (st : w.Steady Inv live Admits) : ∃ w', w.Next E .thread w' := by
  have hphase := st.phase
  cases hp : w.phase with
  | draining =>
    cases hi : w.incoming with
    | nil => exact ⟨_, .drainEmpty hp hi⟩
    | cons x rest =>
      cases x with
      | submission s => exact ⟨_, .drainSubmission hp hi⟩
      | abort id => exact ⟨_, .drainAbort hp hi⟩
  | handling s =>
    obtain ⟨s', hok, -⟩ := st.takes hE hp
    exact ⟨_, .handle 0 hp hok⟩
  | aborting id =>
    obtain ⟨s', gone, hok, -⟩ := hE.abortRequests st.inv [id]
    exact ⟨_, .abortRequests hp hok⟩
  | sweeping =>
    by_cases hnone : w.expired 0 = []
    · exact ⟨_, .sweepNothing 0 hp hnone⟩
    · obtain ⟨s', gone, hok, -⟩ := hE.abortRequests st.inv (w.expired 0)
      exact ⟨_, .sweep 0 hp hnone hok⟩
  | stepping =>
    cases hu : E.hasUnfinishedRequests w.engine with
    | false => exact ⟨_, .idle hp hu⟩
    | true =>
      obtain ⟨⟨result, hstep⟩, hresult⟩ := hE.step st.inv ((hE.hasUnfinishedRequests st.inv).mp hu)
      obtain ⟨s', scheduled, finished, rfl, -⟩ := hresult result hstep
      exact ⟨_, .step hp hu hstep⟩
  | emitting scheduled finished =>
    cases scheduled with
    | nil => exact ⟨_, .emitted hp⟩
    | cons r scheduled => exact ⟨_, .emit hp⟩
  | finishing requests next =>
    cases requests with
    | nil => exact ⟨_, .finished hp⟩
    | cons r requests => exact ⟨_, .finish hp⟩
  | collecting | ending | dead =>
    rw [hp] at hphase
    cases hphase

/-! ## Everybody is answered -/

/-- A worker with nothing to do has answered everybody. -/
theorem Resting.ended (hrest : w.Resting live) (t : w.Tracked) (hs : w.Serves Inv live)
    (he : w.error = none) {h : HandleId} (hlt : h < w.nextHandle) : w.Ended h := by
  by_contra hopen
  obtain ⟨hhand, hleaving⟩ : w.phase.hand = [] ∧ w.phase.leaving = [] := by
    rcases hrest.phase with hp | hp | hp <;> rw [hp] <;> exact ⟨rfl, rfl⟩
  rcases ((t.endsOnce fun _ => hs).alive he h hlt).mp hopen with hq | hh | ⟨id, hl⟩
  · rw [queued, hrest.incoming] at hq
    exact absurd hq List.not_mem_nil
  · rw [hhand] at hh
    exact absurd hh List.not_mem_nil
  · have hid := hs.streams id (AList.lookup_isSome.mp (by rw [hl]; rfl))
    rw [hrest.engine, hleaving] at hid
    exact hid.elim (fun h => absurd h List.not_mem_nil) fun h => absurd h List.not_mem_nil

theorem Next.nextHandle_le (hn : w.Next E a w') : w.nextHandle ≤ w'.nextHandle := by
  cases hn with
  | put => exact Nat.le_succ _
  | readError =>
    unfold WorkerState.readError
    dsimp only
    split <;> exact Nat.le_refl _
  | emit =>
    rw [emit_eq]
  | @finish r =>
    have := (finish_eq w r).2.2.2.1
    exact this.ge
  | _ => exact Nat.le_refl _

/-- An end stays. -/
theorem Next.ended_mono (hn : w.Next E a w') {h : HandleId} (he : w.Ended h) : w'.Ended h := by
  obtain ⟨x, hx, hend⟩ := he
  exact ⟨x, (hn.items_prefix h).subset hx, hend⟩

end WorkerState

open WorkerState

/-- Every engine that gets through its work has a worker that does: from every state of a run in
which clients submit what the engine admits, under new ids, the thread can always go on, and once it
has made more actions than were due, with what clients have added since, everybody who had submitted
something by then has been answered. -/
theorem ServedEngine.Productive.ends_within {σ : Type} {E : ServedEngine σ} {Inv : σ → Prop}
    {live : σ → List RequestId} {Admits : RequestId → List Token → SamplingParams → Prop}
    {work : σ → ℕ} {size : List Token → SamplingParams → ℕ} {batch : ℕ} {start : σ}
    (hE : E.Productive Inv live Admits work size batch) {Lawful : σ → Prop}
    (hlawful : E.Lawful Lawful live) (hstart : Inv start) (hstart' : Lawful start)
    (hempty : live start = []) {w w' : WorkerState σ} {actions : List Action}
    (h : WorkerRun E (Submits live Admits) start w)
    (ht : Trace (fun w a w' => w.Submits live Admits a ∧ w.Next E a w') w actions w') :
    w'.error = none ∧ (∃ w'', w'.Next E .thread w'') ∧
      (w.due live work size batch + (actions.map (Action.cost size batch)).sum <
        actions.countP Action.isThread → ∀ h < w.nextHandle, w'.Ended h) := by
  have hsteady : ∀ {w}, WorkerRun E (Submits live Admits) start w → w.Steady Inv live Admits := by
    intro w h
    induction h with
    | start =>
      exact ⟨rfl, rfl, hstart, by simp [WorkerState.ids, hempty, pending, ThreadPhase.inHand],
        fun s hs => absurd hs List.not_mem_nil⟩
    | next _ hm hn ih => exact ih.next hE hm hn
  have hrun : ∀ {w w' actions}, WorkerRun E (Submits live Admits) start w →
      Trace (fun w a w' => w.Submits live Admits a ∧ w.Next E a w') w actions w' →
      WorkerRun E (Submits live Admits) start w' := fun h ht =>
    ht.invariant (fun _ _ _ h hn => h.next hn.1 hn.2) h
  have hst' := hsteady (hrun h ht)
  refine ⟨hst'.alive, hst'.enabled hE, fun hlt => ?_⟩
  obtain ⟨pre, post, u, rfl, hpre, hrest, hpost⟩ := ht.rests
    (I := fun w => WorkerRun E (Submits live Admits) start w) (R := Resting live)
    (fun _ _ _ h hn => h.next hn.1 hn.2)
    (fun _ a _ h hrest hn ha => by
      cases a with
      | thread => exact (hsteady h).due_lt hE hrest hn.2
      | put | readError | abort => cases ha)
    (fun _ _ _ h hn ha => (hsteady h).due_le hn.2 ha) h hlt
  obtain ⟨t, hs⟩ := tracked_of_alive hlawful hstart' (hrun h hpre) (hsteady (hrun h hpre)).alive
  intro i hi
  have hle : w.nextHandle ≤ u.nextHandle :=
    hpre.invariant (I := fun u => w.nextHandle ≤ u.nextHandle)
      (fun _ _ _ h hn => h.trans hn.2.nextHandle_le) le_rfl
  exact hpost.invariant (I := fun w' => w'.Ended i) (fun _ _ _ h hn => hn.2.ended_mono h)
    (hrest.ended t hs (hsteady (hrun h hpre)).alive (hi.trans_le hle))

/-! ## The engine -/

/-- Whoever leaves takes its tokens along, and the eldest of the others has no more ahead of it than
there was. -/
theorem FittingState.workLeft_le {e : LLMEngine} {s s' : Scheduler} (h : FittingState e s)
    (hsub : (s'.running ++ s'.waiting).Sublist (s.running ++ s.waiting)) :
    s'.workLeft ≤ s.workLeft := by
  have hsum : ∀ {l l' : List Request}, l'.Sublist l →
      (l'.map Request.maxLen).sum ≤ (l.map Request.maxLen).sum := fun hsub =>
    (hsub.map _).sum_le_sum fun _ _ => Nat.zero_le _
  unfold Scheduler.workLeft Scheduler.maxLen
  cases hl : s.running ++ s.waiting with
  | nil =>
    rw [hl, List.sublist_nil] at hsub
    rw [hsub]
  | cons r rest =>
    have hlt := h.numComputedTokens_lt (hl ▸ List.mem_cons_self)
    rw [hl, List.sublist_cons_iff] at hsub
    simp only [List.map_cons, List.sum_cons, List.head?_cons, Option.map_some, Option.getD_some]
    rcases hsub with hsub | ⟨rest', hl', hsub⟩
    · have := hsum hsub
      omega
    · have := hsum hsub
      rw [hl']
      simp only [List.map_cons, List.sum_cons, List.head?_cons, Option.map_some, Option.getD_some]
      omega

/-- A newcomer brings its own tokens only. -/
theorem Scheduler.workLeft_addRequest {s s' : Scheduler} {id : RequestId}
    {promptTokenIds : List Token} {params : SamplingParams}
    (hs : s.addRequest (LLMEngine.newRequest id promptTokenIds params) = .ok s') :
    s'.workLeft ≤ s.workLeft + (promptTokenIds.length + params.maxTokens.toNat) := by
  have hnew : (LLMEngine.newRequest id promptTokenIds params).maxLen =
      promptTokenIds.length + params.maxTokens.toNat := rfl
  rw [Scheduler.addRequest_eq hs]
  unfold workLeft Scheduler.maxLen
  rw [← List.append_assoc, List.map_append, List.sum_append, List.map_singleton, List.sum_singleton,
    hnew]
  cases s.running ++ s.waiting with
  | nil => exact Nat.le_of_eq rfl
  | cons r rest =>
    simp only [List.cons_append, List.head?_cons]
    omega

/-- Who is scheduled runs. -/
theorem StepTrace.scheduled_length_le {s s' : Scheduler} {out : SchedulerOutput}
    {plan : List Decision} {victims : List Request} {as : List Admission}
    (t : StepTrace s s' out plan victims as) :
    out.scheduled.length ≤ s'.running.length := by
  have hle := List.length_filterMap_le Decision.slice plan
  rw [SchedulerOutput.scheduled, t.scheduledNew, t.scheduledRunning, t.running']
  simp only [List.length_append, List.length_map]
  omega

/-- An abort returns whoever leaves with it. -/
theorem Scheduler.length_of_abortRequests {s s' : Scheduler} {ids : List RequestId}
    {gone : List Request} (hs : s.abortRequests ids = .ok (s', gone)) :
    s'.ids.length + gone.length = s.ids.length := by
  obtain ⟨finished, hfree, hgone⟩ := sweep_of_abortRequests hs
  have hswept := (freeFinishedRequests_ids hfree).length_eq
  have hlen := congrArg List.length hgone
  have hsplit :=
    (List.filter_append_perm (fun r : Request => r.requestId ∈ ids) s.waiting).length_eq
  have hids : ∀ s : Scheduler, s.ids.length = s.running.length + s.waiting.length := fun s => by
    rw [Scheduler.ids, List.length_map, List.length_append]
  have hrunning : (s.markAborted ids).running.length = s.running.length := List.length_map _
  have hwaiting : (s.markAborted ids).waiting = s.waiting.filter fun r => r.requestId ∉ ids := rfl
  simp only [List.length_append, List.length_map] at hswept hlen hsplit
  simp only [hids, hrunning, hwaiting, decide_not] at hswept ⊢
  omega

/-- The engine that the worker serves: requests that fit have led to its state, and no more run than
may. -/
structure ServingState (e : LLMEngine) (s : Scheduler) : Prop where
  run : ∃ arrived, e.Run (Request.Fits e.cacheConfig) (fun _ => True) s arrived
  seats : s.running.length ≤ e.schedulerConfig.maxNumSeqs

/-- The submissions of requests that fit. -/
def LLMEngine.Accepts (e : LLMEngine) (id : RequestId) (promptTokenIds : List Token)
    (params : SamplingParams) : Prop := (newRequest id promptTokenIds params).Fits e.cacheConfig

instance (e : LLMEngine) (id : RequestId) (promptTokenIds : List Token) (params : SamplingParams) :
    Decidable (e.Accepts id promptTokenIds params) := inferInstanceAs (Decidable (Request.Fits _ _))

/-- The most tokens that a submission will ever have. -/
def Submission.size (promptTokenIds : List Token) (params : SamplingParams) : ℕ :=
  promptTokenIds.length + params.maxTokens.toNat

/-- Without a cache and without a draft, the engine gets through its work. -/
theorem LLMEngine.served_productive {e : LLMEngine}
    (hcache : e.cacheConfig.enablePrefixCaching = false) (hspec : e.speculativeConfig = none)
    (hall : e.runner.Unbounded) :
    e.served.Productive (ServingState e) Scheduler.requests e.Accepts Scheduler.workLeft
      Submission.size e.schedulerConfig.maxNumSeqs where
  addRequest {s id promptTokenIds params} hs ha hid := by
    obtain ⟨⟨arrived, hrun⟩, hseats⟩ := hs
    have hadd : s.addRequest (newRequest id promptTokenIds params) = .ok { s with
        requests := s.requests ++ [id]
        waiting := s.waiting ++ [newRequest id promptTokenIds params] } := if_neg hid
    exact ⟨_, hadd, ⟨⟨_, hrun.addRequest id promptTokenIds params ha hadd⟩, hseats⟩, rfl,
      Scheduler.workLeft_addRequest hadd⟩
  step {s} hs hlive := by
    obtain ⟨⟨arrived, hrun⟩, hseats⟩ := hs
    have hstate := FittingState.of_run hcache hspec hrun
    have hconfig := FittingState.schedulerConfig_of_run hcache hspec hrun
    have o := hstate.cacheless.toInOrder
    have hproposes : e.Proposes none := by
      unfold Proposes
      rw [hspec]
      trivial
    obtain ⟨s', out, finished, hstep⟩ := hstate.returns hall
    refine ⟨⟨_, none, hproposes, rfl⟩, ?_⟩
    rintro result ⟨drafts, hd, rfl⟩
    obtain rfl := proposes_none hspec hd
    rw [hstep, ok_bind]
    obtain ⟨s₁, plan, victims, as, turned, st⟩ := stepSpec_of_step o hstate.queued hstep
    have hseated := (SeatedState.admits ⟨o, fun r hr => (hstate.waiting r hr).2, hconfig ▸ hseats⟩
      st.schedule).1
    rw [hconfig] at hseated
    obtain ⟨-, hrequests⟩ := LiveState.step
      ⟨o, hstate.queued, fun r hr => (hstate.running r hr).1.fits.1.1⟩ hstep
    have hids := (step_ids hstep).length_eq
    have o' := (hstate.step hstep).cacheless.toInOrder
    rw [List.length_append, List.length_map, show s.ids = s.requests from o.ids,
      show s'.ids = s'.requests from o'.ids] at hids
    refine ⟨s', _, finished, rfl, ⟨⟨arrived, hrun.step none hproposes trivial hstep⟩, ?_⟩,
      ?_, ?_, ?_, hids.ge⟩
    · refine le_trans ?_ hseated
      rw [st.running, List.length_map]
      exact (List.length_filter_le _ _).trans_eq (List.length_map _)
    · obtain ⟨r, rest, hrest⟩ :=
        List.exists_cons_of_ne_nil (l := s.running ++ s.waiting) fun hnil => by
        rw [← o.ids, hnil] at hlive
        exact hlive rfl
      exact hstate.workLeft_lt hstep hrest
    · exact (List.length_filterMap_le _ _).trans (st.trace.scheduled_length_le.trans hseated)
    · rw [hrequests]
      exact List.filter_sublist
  abortRequests {s} hs ids := by
    obtain ⟨⟨arrived, hrun⟩, hseats⟩ := hs
    have hstate := FittingState.of_run hcache hspec hrun
    have o := hstate.cacheless.toInOrder
    obtain ⟨bm, habort, -⟩ := hstate.cacheless.toConsistent.abortRequests ids
    have hrun' := hrun.abortRequests ids habort
    obtain ⟨hrunning, hwaiting, -⟩ := Scheduler.sublist_of_abortRequests habort
    obtain ⟨o', hrequests⟩ := o.abortRequests habort
    have hlen := Scheduler.length_of_abortRequests habort
    rw [show s.ids = s.requests from o.ids] at hlen
    refine ⟨_, _, habort, ⟨⟨arrived, hrun'⟩, hrunning.length_le.trans hseats⟩,
      hstate.workLeft_le (hrunning.append hwaiting), ?_, ?_⟩
    · rw [hrequests]
      exact List.filter_sublist
    · rw [← o'.ids]
      exact hlen.le
  hasUnfinishedRequests {s} hs := by
    obtain ⟨arrived, hrun⟩ := hs.run
    exact e.served_lawful.hasUnfinishedRequests
      (FittingState.of_run hcache hspec hrun).cacheless.toInOrder

/-- The actions of the engine thread before there is nothing to do. -/
def LLMEngine.threadDue (e : LLMEngine) (w : WorkerState Scheduler) : ℕ :=
  w.due Scheduler.requests Scheduler.workLeft Submission.size e.schedulerConfig.maxNumSeqs

/-- What an action of a client adds to them. -/
def LLMEngine.clientCost (e : LLMEngine) (a : Action) : ℕ :=
  a.cost Submission.size e.schedulerConfig.maxNumSeqs

/-- An action under which submissions are of requests that fit, under new ids. -/
def LLMEngine.Acts (e : LLMEngine) (w : WorkerState Scheduler) (a : Action)
    (w' : WorkerState Scheduler) : Prop :=
  w.Submits Scheduler.requests e.Accepts a ∧ w.Next e.served a w'

/-- Without a cache and without a draft, and with submissions of requests that fit, under new ids:
whatever clients do, whatever times out and whoever is preempted, the thread never dies and can
always go on, and once it has made more actions than were due, with what clients have added since,
everybody who had submitted something by then has the end of its stream. -/
theorem ended_within {e : LLMEngine} (hcache : e.cacheConfig.enablePrefixCaching = false)
    (hspec : e.speculativeConfig = none) (hall : e.runner.Unbounded) {w w' : WorkerState Scheduler}
    {actions : List Action}
    (h : WorkerRun e.served (Submits Scheduler.requests e.Accepts) e.start w)
    (ht : Trace e.Acts w actions w') :
    w'.error = none ∧ (∃ w'', w'.Next e.served .thread w'') ∧
      (e.threadDue w + (actions.map e.clientCost).sum < actions.countP Action.isThread →
        ∀ h < w.nextHandle, w'.Ended h) :=
  (e.served_productive hcache hspec hall).ends_within e.served_lawful ⟨⟨[], .start⟩, Nat.zero_le _⟩
    ⟨rfl, List.nodup_nil⟩ rfl h ht

/-- `countingEngine`, with two requests at a time. -/
def twoSeatEngine : LLMEngine :=
  { countingEngine with schedulerConfig :=
      { countingEngine.schedulerConfig with maxNumSeqs := 2, maxNumSeqs_pos := Nat.two_pos } }

/-- Two submissions, and the thread until the first step has computed a part of the first prompt. -/
def submitting : Script :=
  [(.put [7, 7, 7] { maxTokens := 2 } 0 none, 0), (.put [8] { maxTokens := 3 } 1 (some 5), 0)] ++
    .replicate 9 (.thread, 0)

/-- A submission and an abort in between, and the thread for longer than they may take. -/
def interfering : Script :=
  [(.put [9] { maxTokens := 2 } 2 none, 0)] ++ .replicate 6 (.thread, 0) ++ [(.abort 0, 0)] ++
    .replicate 12 (.thread, 0) ++ .replicate 110 (.thread, 9)

/-- Two clients have submitted when somebody else does, the first one leaves with one token, and the
second one's time is over after two. When the thread has made more actions than all of that may
take, both have the end of their streams. -/
theorem ended_within_interference : ∃ (w w' : WorkerState Scheduler) (actions : List Action),
    WorkerRun twoSeatEngine.served (Submits Scheduler.requests twoSeatEngine.Accepts)
        twoSeatEngine.start w ∧
      Trace twoSeatEngine.Acts w actions w' ∧ w.nextHandle = 2 ∧
      w.engine.running.map Request.numComputedTokens = [2] ∧ w'.error = none ∧
      (∀ h < 2, w'.Ended h) ∧
      w'.items 0 = [.streamToken 3, .streamEnd .finishedAborted] ∧
      w'.items 1 = [.streamToken 1, .streamToken 2, .streamEnd .finishedAborted] ∧
      w'.items 2 = [.streamToken 1, .streamToken 2, .streamEnd .finishedLengthCapped] := by
  have h : ((({ engine := twoSeatEngine.start } : WorkerState Scheduler).play twoSeatEngine.served
      (twoSeatEngine.outcome fun _ => none) (Submits Scheduler.requests twoSeatEngine.Accepts)
      submitting).any fun w => (w.play twoSeatEngine.served (twoSeatEngine.outcome fun _ => none)
        (Submits Scheduler.requests twoSeatEngine.Accepts) interfering).any fun w' => decide (
          w.nextHandle = 2 ∧ w.engine.running.map Request.numComputedTokens = [2] ∧
          twoSeatEngine.threadDue w +
          ((interfering.map Prod.fst).map twoSeatEngine.clientCost).sum <
            (interfering.map Prod.fst).countP Action.isThread ∧
          w'.items 0 = [.streamToken 3, .streamEnd .finishedAborted] ∧
          w'.items 1 = [.streamToken 1, .streamToken 2, .streamEnd .finishedAborted] ∧
          w'.items 2 = [.streamToken 1, .streamToken 2, .streamEnd .finishedLengthCapped])) =
        true := by
    decide +kernel
  simp only [Option.any_eq_true, decide_eq_true_eq] at h
  obtain ⟨w, hsubmitting, w', hinterfering, hnext, hrunning, hdue, hfirst, hsecond, hthird⟩ := h
  have hresult := twoSeatEngine.served_step_outcome (fun _ => none) fun _ => trivial
  have hstart : WorkerRun twoSeatEngine.served (Submits Scheduler.requests twoSeatEngine.Accepts)
    twoSeatEngine.start _ := .start
  have hrun := hstart.play hresult hsubmitting
  have htrace := trace_of_play hresult hinterfering
  obtain ⟨herror, -, hended⟩ := ended_within rfl rfl ⟨rfl, rfl⟩ hrun htrace
  exact ⟨w, w', _, hrun, htrace, hnext, hrunning, herror, hnext ▸ hended hdue, hfirst, hsecond,
    hthird⟩

end LightServe
