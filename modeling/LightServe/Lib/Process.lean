import Mathlib.Data.Nat.Notation
import Mathlib.Init

/-!
# Processes that may be cut off

A process makes atomic calls to a state that outlives it, and may raise. It may also be cut off
between any two of its calls, and then be started again from the state it left. What holds of a
process however often it was cut off before is proved of the states it may stop in.

## Main definitions

* `Process` — a process and its monad, with exceptions.
* `Process.outcome`, `Process.stops` — an attempt that ends, and where one may be cut off.
* `Process.retry` — attempts in a row, each cut off after some number of calls.
* `Process.Runs` — conditions on where it stops and how it ends, with a rule for each construct.
* `Process.retry_induction` — what every stop keeps, attempts in a row keep.
-/

/-- A process over a state `σ` that returns an `α` or raises an `ε`. -/
inductive Process (σ ε α : Type) : Type
  | pure (a : α)
  | throw (e : ε)
  /-- An atomic call: its effect on the state, and what follows, which may depend on the state
  that the call finds. -/
  | call (effect : σ → σ) (next : σ → Process σ ε α)

namespace Process
variable {σ ρ ε α β : Type}

/-! ## Building processes -/

def bind : Process σ ε α → (α → Process σ ε β) → Process σ ε β
  | pure a, f => f a
  | throw e, _ => throw e
  | call effect next, f => call effect fun s => (next s).bind f

def handle : Process σ ε α → (ε → Process σ ε α) → Process σ ε α
  | pure a, _ => pure a
  | throw e, f => f e
  | call effect next, f => call effect fun s => (next s).handle f

instance : Monad (Process σ ε) where
  pure := pure
  bind := bind

instance : MonadExceptOf ε (Process σ ε) where
  throw := throw
  tryCatch := handle

/-- One atomic call, which may raise. A call that raises leaves the state alone. -/
def atomic (f : σ → Except ε (α × σ)) : Process σ ε α :=
  call (fun s => match f s with | .ok (_, s') => s' | .error _ => s)
    fun s => match f s with | .ok (a, _) => pure a | .error e => throw e

/-- A call that only looks at the state. -/
def look (f : σ → α) : Process σ ε α := atomic fun s => .ok (f s, s)

/-- A call that only changes the state. -/
def modify (f : σ → σ) : Process σ ε Unit := atomic fun s => .ok ((), f s)

/-- A process on a part of the state. -/
def zoom (get : σ → ρ) (set : ρ → σ → σ) : Process ρ ε α → Process σ ε α
  | pure a => pure a
  | throw e => throw e
  | call effect next => call (fun s => set (effect (get s)) s) fun s => (next (get s)).zoom get set

/-- Another name for what a process raises. -/
def mapError {ε' : Type} (g : ε → ε') : Process σ ε α → Process σ ε' α
  | pure a => pure a
  | throw e => throw (g e)
  | call effect next => call effect fun s => (next s).mapError g

/-! ## Running processes -/

/-- An attempt that is not cut off. -/
def outcome : Process σ ε α → σ → Except ε α × σ
  | pure a, s => (.ok a, s)
  | throw e, s => (.error e, s)
  | call effect next, s => (next s).outcome (effect s)

@[simp] theorem outcome_pure (a : α) (s : σ) :
    (Pure.pure a : Process σ ε α).outcome s = (.ok a, s) := rfl

@[simp] theorem outcome_throw (e : ε) (s : σ) :
    (MonadExcept.throw e : Process σ ε α).outcome s = (.error e, s) := rfl

@[simp] theorem outcome_look (f : σ → α) (s : σ) :
    (look f : Process σ ε α).outcome s = (.ok (f s), s) := rfl

@[simp] theorem outcome_modify (f : σ → σ) (s : σ) :
    (modify f : Process σ ε Unit).outcome s = (.ok (), f s) := rfl

theorem outcome_atomic_ok {f : σ → Except ε (α × σ)} {a : α} {s s' : σ} (h : f s = .ok (a, s')) :
    (atomic f).outcome s = (.ok a, s') := by
  simp only [atomic, outcome, h]

theorem outcome_atomic_error {f : σ → Except ε (α × σ)} {e : ε} {s : σ} (h : f s = .error e) :
    (atomic f).outcome s = (.error e, s) := by
  simp only [atomic, outcome, h]

/-- A sequence whose first part returns. -/
theorem outcome_bind_ok {p : Process σ ε α} {f : α → Process σ ε β} {a : α} {s s' : σ}
    (h : p.outcome s = (.ok a, s')) : (p >>= f).outcome s = (f a).outcome s' := by
  induction p generalizing s with
  | pure b =>
    cases h
    rfl
  | throw e => cases h
  | call effect next ih => exact ih s h

/-- A sequence whose first part raises. -/
theorem outcome_bind_error {p : Process σ ε α} {f : α → Process σ ε β} {e : ε} {s s' : σ}
    (h : p.outcome s = (.error e, s')) : (p >>= f).outcome s = (.error e, s') := by
  induction p generalizing s with
  | pure b => cases h
  | throw e' =>
    cases h
    rfl
  | call effect next ih => exact ih s h

/-- A handler of what is not raised. -/
theorem outcome_tryCatch_ok {p : Process σ ε α} {f : ε → Process σ ε α} {a : α} {s s' : σ}
    (h : p.outcome s = (.ok a, s')) : (tryCatch p f).outcome s = (.ok a, s') := by
  induction p generalizing s with
  | pure b => exact h
  | throw e => cases h
  | call effect next ih => exact ih s h

/-- A handler of what is raised. -/
theorem outcome_tryCatch_error {p : Process σ ε α} {f : ε → Process σ ε α} {e : ε} {s s' : σ}
    (h : p.outcome s = (.error e, s')) : (tryCatch p f).outcome s = (f e).outcome s' := by
  induction p generalizing s with
  | pure b => cases h
  | throw e' =>
    cases h
    rfl
  | call effect next ih => exact ih s h

/-- The states after each number of calls: where an attempt may be cut off. -/
def stops : Process σ ε α → σ → List σ
  | pure _, s => [s]
  | throw _, s => [s]
  | call effect next, s => s :: (next s).stops (effect s)

/-- The state after an attempt that is cut off after some calls, if it makes as many. -/
def cut (p : Process σ ε α) (n : ℕ) (s : σ) : σ := (p.stops s)[n]?.getD (p.outcome s).2

/-- The state after attempts in a row. -/
def retry (p : Process σ ε α) (cuts : List ℕ) (s : σ) : σ := cuts.foldl (fun s n => p.cut n s) s

/-! ## Rules -/

/-- What a process does from a state: `crash` holds wherever it may be cut off, and `post` of
what it returns or raises and the state it leaves. -/
structure Runs (p : Process σ ε α) (s : σ) (crash : σ → Prop) (post : Except ε α → σ → Prop) :
    Prop where
  stops : ∀ s' ∈ p.stops s, crash s'
  outcome : post (p.outcome s).1 (p.outcome s).2

section Rules
variable {p : Process σ ε α} {s s' : σ} {crash crash' : σ → Prop}
  {mid post post' : Except ε α → σ → Prop}

theorem Runs.of_pure {a : α} (hcrash : crash s) (hpost : post (.ok a) s) :
    Runs (Pure.pure a : Process σ ε α) s crash post :=
  ⟨fun _ hs => List.mem_singleton.mp hs ▸ hcrash, hpost⟩

theorem Runs.of_throw {e : ε} (hcrash : crash s) (hpost : post (.error e) s) :
    Runs (MonadExcept.throw e : Process σ ε α) s crash post :=
  ⟨fun _ hs => List.mem_singleton.mp hs ▸ hcrash, hpost⟩

/-- A call that returns can be cut off before it and after it. -/
theorem Runs.of_atomic {f : σ → Except ε (α × σ)} {a : α} (h : f s = .ok (a, s'))
    (hcrash : crash s) (hcrash' : crash s') (hpost : post (.ok a) s') :
    Runs (atomic f) s crash post := by
  unfold atomic
  constructor
  · intro t ht
    simp only [Process.stops, h, List.mem_cons, List.not_mem_nil, or_false] at ht
    rcases ht with rfl | rfl
    · exact hcrash
    · exact hcrash'
  · simpa only [Process.outcome, h] using hpost

theorem Runs.of_raise {f : σ → Except ε (α × σ)} {e : ε} (h : f s = .error e)
    (hcrash : crash s) (hpost : post (.error e) s) : Runs (atomic f) s crash post := by
  unfold atomic
  constructor
  · intro t ht
    simp only [Process.stops, h, List.mem_cons, List.not_mem_nil, or_false, or_self] at ht
    exact ht ▸ hcrash
  · simpa only [Process.outcome, h] using hpost

theorem Runs.of_modify {g : σ → σ} {post : Except ε Unit → σ → Prop} (hcrash : crash s)
    (hcrash' : crash (g s)) (hpost : post (.ok ()) (g s)) :
    Runs (modify g : Process σ ε Unit) s crash post :=
  .of_atomic rfl hcrash hcrash' hpost

theorem Runs.mono (h : Runs p s crash post) (hcrash : ∀ s', crash s' → crash' s')
    (hpost : ∀ r s', post r s' → post' r s') : Runs p s crash' post' :=
  ⟨fun s' hs' => hcrash s' (h.stops s' hs'), hpost _ _ h.outcome⟩

private theorem Runs.of_call {effect : σ → σ} {next : σ → Process σ ε α}
    (hcrash : crash s) (h : Runs (next s) (effect s) crash post) :
    Runs (.call effect next) s crash post :=
  ⟨fun _ hs' => (List.mem_cons.mp hs').elim (fun he => he ▸ hcrash) (h.stops _), h.outcome⟩

/-- A sequence runs its second part from where the first returns. -/
theorem Runs.bind {f : α → Process σ ε β} {post : Except ε β → σ → Prop}
    (h : Runs p s crash mid)
    (hok : ∀ a s', mid (.ok a) s' → Runs (f a) s' crash post)
    (herror : ∀ e s', mid (.error e) s' → post (.error e) s') : Runs (p >>= f) s crash post := by
  induction p generalizing s with
  | pure a => exact hok a s h.outcome
  | throw e => exact ⟨h.stops, herror e s h.outcome⟩
  | call effect next ih =>
    exact .of_call (h.stops s List.mem_cons_self)
      (ih s ⟨fun s' hs' => h.stops s' (List.mem_cons_of_mem _ hs'), h.outcome⟩)

theorem Runs.start (h : Runs p s crash post) : crash s := by
  cases p <;> exact h.stops s List.mem_cons_self

/-- A sequence that begins with a call that returns. -/
theorem Runs.bind_atomic {g : σ → Except ε (α × σ)} {f : α → Process σ ε β}
    {post : Except ε β → σ → Prop} {a : α} (h : g s = .ok (a, s')) (hcrash : crash s)
    (hf : Runs (f a) s' crash post) : Runs (atomic g >>= f) s crash post := by
  have hg : Runs (atomic g) s crash fun r t => r = .ok a ∧ t = s' :=
    .of_atomic h hcrash hf.start ⟨rfl, rfl⟩
  refine hg.bind ?_ fun e t ht => nomatch ht.1
  rintro b t ⟨hb, rfl⟩
  cases hb
  exact hf

theorem Runs.bind_look {g : σ → α} {f : α → Process σ ε β} {post : Except ε β → σ → Prop}
    (h : Runs (f (g s)) s crash post) : Runs (look g >>= f) s crash post :=
  .bind_atomic rfl h.start h

theorem Runs.bind_modify {g : σ → σ} {f : Unit → Process σ ε β} {post : Except ε β → σ → Prop}
    (hcrash : crash s) (h : Runs (f ()) (g s) crash post) :
    Runs (modify g >>= f) s crash post :=
  .bind_atomic rfl hcrash h

/-- A handler runs from where the process raises. -/
theorem Runs.tryCatch {f : ε → Process σ ε α} (h : Runs p s crash mid)
    (hok : ∀ a s', mid (.ok a) s' → post (.ok a) s')
    (herror : ∀ e s', mid (.error e) s' → Runs (f e) s' crash post) :
    Runs (tryCatch p f) s crash post := by
  induction p generalizing s with
  | pure a => exact ⟨h.stops, hok a s h.outcome⟩
  | throw e => exact herror e s h.outcome
  | call effect next ih =>
    exact .of_call (h.stops s List.mem_cons_self)
      (ih s ⟨fun s' hs' => h.stops s' (List.mem_cons_of_mem _ hs'), h.outcome⟩)

/-- Discarding what a process returns. -/
theorem Runs.discard {post : Except ε Unit → σ → Prop} (h : Runs p s crash mid)
    (hok : ∀ a s', mid (.ok a) s' → post (.ok ()) s')
    (herror : ∀ e s', mid (.error e) s' → post (.error e) s') :
    Runs (Functor.discard p) s crash post := by
  induction p generalizing s with
  | pure a => exact ⟨h.stops, hok a s h.outcome⟩
  | throw e => exact ⟨h.stops, herror e s h.outcome⟩
  | call effect next ih =>
    exact .of_call (h.stops s List.mem_cons_self)
      (ih s ⟨fun s' hs' => h.stops s' (List.mem_cons_of_mem _ hs'), h.outcome⟩)

/-! ## Attempts in a row -/

/-- An attempt ends where it is cut off last. -/
theorem outcome_mem_stops (p : Process σ ε α) (s : σ) : (p.outcome s).2 ∈ p.stops s := by
  induction p generalizing s with
  | pure a => exact List.mem_singleton_self s
  | throw e => exact List.mem_singleton_self s
  | call effect next ih => exact List.mem_cons_of_mem _ (ih s (effect s))

theorem cut_mem_stops (p : Process σ ε α) (n : ℕ) (s : σ) : p.cut n s ∈ p.stops s := by
  unfold cut
  cases h : (p.stops s)[n]? with
  | none => exact p.outcome_mem_stops s
  | some s' => exact List.mem_of_getElem? h

/-- What an attempt keeps wherever it is cut off, attempts in a row keep. -/
theorem retry_induction {motive : σ → Prop} {p : Process σ ε α}
    (hstep : ∀ s, motive s → ∀ s' ∈ p.stops s, motive s') (cuts : List ℕ) (h : motive s) :
    motive (p.retry cuts s) := by
  induction cuts generalizing s with
  | nil => exact h
  | cons n cuts ih => exact ih (hstep s h _ (p.cut_mem_stops n s))

@[simp] theorem stops_mapError {ε' : Type} (g : ε → ε') (p : Process σ ε α) (s : σ) :
    (p.mapError g).stops s = p.stops s := by
  induction p generalizing s with
  | pure a => rfl
  | throw e => rfl
  | call effect next ih => exact congrArg (s :: ·) (ih s (effect s))

/-- Where a process on a part of the state is cut off, the rest is as it was. -/
theorem stops_zoom {γ : Type} {get : σ → ρ} {set : ρ → σ → σ} {view : σ → γ}
    (hview : ∀ r s, view (set r s) = view s) {p : Process ρ ε α}
    (h : s' ∈ (p.zoom get set).stops s) :
    view s' = view s := by
  induction p generalizing s with
  | pure a => rw [List.mem_singleton.mp h]
  | throw e => rw [List.mem_singleton.mp h]
  | call effect next ih =>
    rcases List.mem_cons.mp h with rfl | h
    · rfl
    · exact (ih _ h).trans (hview _ _)

end Rules

end Process
