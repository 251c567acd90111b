import LightServe.Infra.Topology
import LightServe.Lib.Dict

/-!
# Steering interrupts

`steer_irqs` and `restore_irqs` of `infra/os/isolate.py`: every interrupt that may run on reserved
cores is moved to the housekeeping cores, and put back later. What an interrupt had before the first
steer that moved it is saved in a file; a restore puts it back and forgets it.

## Main definitions

* `Isolate.steerIrqs`, `Isolate.restoreIrqs` — the two calls.
* `Isolate.run` — any history of steers, with interrupts that come and go in between.
* `Isolate.original` — what an interrupt had before the first steer that moved it.
* `Isolate.restore_run` — a restore puts that back.
-/

namespace LightServe

namespace Isolate

open Text (Chars)
open CpuTopology (Irq cpulist irqs)

/-! ## The calls -/

/-- What the state file holds. -/
structure Saved where
  /-- The affinities of interrupts, by their numbers. -/
  irqs : Dict ℕ Chars
  irqbalanceWasRunning : Bool

structure Machine where
  /-- The list of interrupts. -/
  interrupts : Option Chars
  /-- The affinity file of an interrupt, if it exists. -/
  affinity : ℕ → Option Chars
  /-- The state file. -/
  state : Option Saved

/-- The cores of the parts, as far as they matter here. -/
structure Layout where
  engine : ℕ
  engineTwinIdle : List ℕ
  server : List ℕ
  housekeeping : List ℕ

def Layout.reserved (layout : Layout) : List ℕ :=
  layout.engine :: (layout.engineTwinIdle ++ layout.server)

/-- `d.setdefault(k, v)` -/
def setDefault (d : Dict ℕ Chars) (k : ℕ) (v : Chars) : Dict ℕ Chars :=
  if k ∈ d then d else d.set k v

/-- How far a steer is. -/
structure Steering where
  affinity : ℕ → Option Chars
  saved : Dict ℕ Chars
  moved : List ℕ
  failed : List ℕ

/-- One interrupt is moved; Linux may refuse. -/
def steerIrq (refuses : ℕ → Bool) (layout : Layout) (s : Steering) (irq : Irq) : Steering :=
  if ¬ ∃ c ∈ irq.cpus, c ∈ layout.reserved then s
  else
    match s.affinity irq.irq with
    | none => { s with failed := s.failed ++ [irq.irq] }
    | some text =>
      if refuses irq.irq then { s with failed := s.failed ++ [irq.irq] }
      else
        { s with
          affinity := Function.update s.affinity irq.irq
            (some (cpulist layout.housekeeping ++ ['\n']))
          saved := setDefault s.saved irq.irq (Text.strip Text.isSpace text)
          moved := s.moved ++ [irq.irq] }

/-- What the state file holds, or would from now on. -/
def Machine.saved (m : Machine) (irqbalanceRunning : Bool) : Saved :=
  m.state.getD { irqs := ∅, irqbalanceWasRunning := irqbalanceRunning }

/-- The loop of a steer; `none` if the interrupts cannot be read. -/
def steering (refuses : ℕ → Bool) (layout : Layout) (saved : Saved) (m : Machine) :
    Option Steering := do
  let irqs ← irqs m.interrupts m.affinity
  return irqs.foldl (steerIrq refuses layout)
    { affinity := m.affinity, saved := saved.irqs, moved := [], failed := [] }

/-- Every interrupt that may run on reserved cores is moved to the housekeeping cores; those moved
and those that failed. -/
def steerIrqs (refuses : ℕ → Bool) (layout : Layout) (irqbalanceRunning : Bool) (m : Machine) :
    Option (List ℕ × List ℕ) × Machine :=
  let saved := m.saved irqbalanceRunning
  match steering refuses layout saved m with
  | none => (none, m)
  | some s => (some (s.moved, s.failed),
      { m with affinity := s.affinity, state := some { saved with irqs := s.saved } })

/-- What a restore says. -/
structure Restored where
  restored : List ℕ
  startIrqbalance : Bool

/-- One saved interrupt is put back; it may be gone, or the write be refused. -/
def restoreIrq (refuses : ℕ → Bool) (s : (ℕ → Option Chars) × List ℕ) (saved : ℕ × Chars) :
    (ℕ → Option Chars) × List ℕ :=
  if (s.1 saved.1).isSome ∧ ¬ refuses saved.1 then
    (Function.update s.1 saved.1 (some (saved.2 ++ ['\n'])), s.2 ++ [saved.1])
  else s

/-- The saved affinities, in the order in which they were saved. -/
def items (d : Dict ℕ Chars) : List (ℕ × Chars) := (d.entries.map fun e => (e.1, e.2)).reverse

/-- The saved interrupts are put back and forgotten. -/
def restoreIrqs (refuses : ℕ → Bool) (m : Machine) : Restored × Machine :=
  match m.state with
  | none => ({ restored := [], startIrqbalance := false }, m)
  | some saved =>
    let (affinity, restored) := (items saved.irqs).foldl (restoreIrq refuses) (m.affinity, [])
    ({ restored := restored.insertionSort (· ≤ ·), startIrqbalance := saved.irqbalanceWasRunning },
      { m with affinity, state := none })

/-! ## Histories -/

/-- A steer, or what happens to the interrupts between two calls. -/
inductive Event
  | steer (refuses : ℕ → Bool) (layout : Layout) (irqbalanceRunning : Bool)
  | appear (irq : ℕ) (text : Chars)
  | vanish (irq : ℕ)
  | list (interrupts : Option Chars)

def Event.isSteer : Event → Bool
  | .steer .. => true
  | _ => false

/-- One event. Nothing but a steer changes an affinity. -/
def Event.step (m : Machine) : Event → Machine
  | .steer refuses layout irqbalanceRunning => (steerIrqs refuses layout irqbalanceRunning m).2
  | .appear irq text =>
    if (m.affinity irq).isSome then m
    else { m with affinity := Function.update m.affinity irq (some text) }
  | .vanish irq => { m with affinity := Function.update m.affinity irq none }
  | .list interrupts => { m with interrupts }

/-- A history. -/
def run (m : Machine) (events : List Event) : Machine := events.foldl Event.step m

/-- The affinity of an interrupt that exists. -/
def Machine.affinityOf (m : Machine) (irq : ℕ) : Option Chars :=
  (m.affinity irq).map (Text.strip Text.isSpace)

/-- The event moves the interrupt. -/
def Event.moves (m : Machine) (irq : ℕ) : Event → Bool
  | .steer refuses layout irqbalanceRunning =>
    (steerIrqs refuses layout irqbalanceRunning m).1.any fun report => irq ∈ report.1
  | _ => false

/-- What an interrupt had before the first steer that moved it. -/
def original (irq : ℕ) : Machine → List Event → Option Chars
  | _, [] => none
  | m, e :: events => if e.moves m irq then m.affinityOf irq else original irq (e.step m) events

/-! ## One steer -/

section Steer
variable {refuses : ℕ → Bool} {layout : Layout} {irqbalanceRunning : Bool} {m : Machine} {n : ℕ}

theorem lookup_setDefault (d : Dict ℕ Chars) (k : ℕ) (v : Chars) (j : ℕ) :
    (setDefault d k v).lookup j = (d.lookup j).or (if j = k then some v else none) := by
  unfold setDefault
  by_cases hk : k ∈ d
  · rw [if_pos hk]
    by_cases hj : j = k
    · obtain ⟨w, hw⟩ := Option.isSome_iff_exists.mp (AList.lookup_isSome.mpr hk)
      rw [hj, hw, Option.some_or]
    · rw [if_neg hj, Option.or_none]
  · rw [if_neg hk, Dict.lookup_set]
    by_cases hj : j = k
    · rw [if_pos hj, if_pos hj, hj, AList.lookup_eq_none.mpr hk, Option.none_or]
    · rw [if_neg hj, if_neg hj, Option.or_none]

/-- What a steer has moved so far, from the affinities and the saved ones at its start. -/
structure SteerInv (layout : Layout) (before : ℕ → Option Chars) (kept : Dict ℕ Chars)
    (s : Steering) : Prop where
  affinity : ∀ n, s.affinity n =
    if n ∈ s.moved then some (cpulist layout.housekeeping ++ ['\n']) else before n
  saved : ∀ n, s.saved.lookup n = (kept.lookup n).or
    (if n ∈ s.moved then (before n).map (Text.strip Text.isSpace) else none)
  moved : ∀ n ∈ s.moved, (before n).isSome

theorem steerIrq_inv {before : ℕ → Option Chars} {kept : Dict ℕ Chars} {s : Steering}
    (h : SteerInv layout before kept s) (irq : Irq) :
    SteerInv layout before kept (steerIrq refuses layout s irq) := by
  unfold steerIrq
  split
  · exact h
  · split
    · exact ⟨h.affinity, h.saved, h.moved⟩
    · rename_i text htext
      split
      · exact ⟨h.affinity, h.saved, h.moved⟩
      · have hmoved : (before irq.irq).isSome := by
          rw [h.affinity] at htext
          by_cases hmem : irq.irq ∈ s.moved
          · exact h.moved _ hmem
          · rw [if_neg hmem] at htext
            simp [htext]
        refine ⟨fun n => ?_, fun n => ?_, fun n hn => ?_⟩
        · by_cases hn : n = irq.irq
          · simp [hn]
          · simp [hn, h.affinity n]
        · rw [lookup_setDefault, h.saved]
          by_cases hn : n = irq.irq
          · subst hn
            -- A second move of an interrupt keeps what the first one saved.
            by_cases hmem : irq.irq ∈ s.moved
            · obtain ⟨text', htext'⟩ := Option.isSome_iff_exists.mp hmoved
              simp [hmem, htext']
            · rw [h.affinity, if_neg hmem] at htext
              simp [hmem, htext]
          · simp [hn]
        · rcases List.mem_append.mp hn with hn | hn
          · exact h.moved n hn
          · rwa [List.mem_singleton.mp hn]

theorem steering_inv {saved : Saved} {s : Steering} (h : steering refuses layout saved m = some s) :
    SteerInv layout m.affinity saved.irqs s := by
  unfold steering at h
  cases hirqs : irqs m.interrupts m.affinity with
  | none => simp [hirqs] at h
  | some irqs =>
    simp only [hirqs, Option.bind_eq_bind, Option.bind_some, Option.pure_def, Option.some_inj] at h
    rw [← h]
    have hstart : SteerInv layout m.affinity saved.irqs
        { affinity := m.affinity, saved := saved.irqs, moved := [], failed := [] } :=
      ⟨by simp, by simp, by simp⟩
    exact List.foldlRecOn irqs (steerIrq refuses layout) hstart
      fun s hs irq _ => steerIrq_inv hs irq

/-- What is saved of an interrupt. -/
def Machine.savedOf (m : Machine) (irq : ℕ) : Option Chars := m.state.bind (·.irqs.lookup irq)

theorem lookup_saved : (m.saved irqbalanceRunning).irqs.lookup n = m.savedOf n := by
  unfold Machine.saved Machine.savedOf
  cases m.state <;> rfl

end Steer

/-! ## Histories -/

section Run
variable {m : Machine} {e : Event} {events : List Event} {n : ℕ}

theorem run_cons (m : Machine) (e : Event) (events : List Event) :
    run m (e :: events) = run (e.step m) events := rfl

theorem isSome_of_moves (h : e.moves m n) : (m.affinityOf n).isSome := by
  cases e with
  | steer refuses layout irqbalanceRunning =>
    simp only [Event.moves, steerIrqs] at h
    split at h
    · cases h
    · rename_i s hs
      rw [Machine.affinityOf, Option.isSome_map]
      exact (steering_inv hs).moved n (by simpa using h)
  | appear | vanish | list => cases h

/-- An event saves what it moves, if it is not saved. -/
theorem savedOf_step (m : Machine) (e : Event) (n : ℕ) :
    (e.step m).savedOf n = (m.savedOf n).or (if e.moves m n then m.affinityOf n else none) := by
  cases e with
  | steer refuses layout irqbalanceRunning =>
    cases hs : steering refuses layout (m.saved irqbalanceRunning) m with
    | none => simp [Event.step, Event.moves, steerIrqs, hs]
    | some s =>
      have hsaved := (steering_inv hs).saved n
      rw [lookup_saved] at hsaved
      simpa [Event.step, Event.moves, steerIrqs, hs, Machine.savedOf, Machine.affinityOf]
        using hsaved
  | appear irq text =>
    simp only [Event.step, Event.moves]
    split <;> simp [Machine.savedOf]
  | vanish | list => simp [Event.step, Event.moves, Machine.savedOf]

/-- A steer leaves what it does not move. -/
theorem affinity_step (hsteer : e.isSteer) (hmoves : ¬ e.moves m n) :
    (e.step m).affinity n = m.affinity n := by
  cases e with
  | steer refuses layout irqbalanceRunning =>
    cases hs : steering refuses layout (m.saved irqbalanceRunning) m with
    | none => simp only [Event.step, steerIrqs, hs]
    | some s =>
      simp only [Event.moves, steerIrqs, hs] at hmoves
      simp only [Event.step, steerIrqs, hs]
      rw [(steering_inv hs).affinity, if_neg (by simpa using hmoves)]
  | appear | vanish | list => cases hsteer

/-- A history saves what each interrupt had before the first steer that moved it. -/
theorem savedOf_run (m : Machine) (events : List Event) (n : ℕ) :
    (run m events).savedOf n = (m.savedOf n).or (original n m events) := by
  induction events generalizing m with
  | nil => simp [run, original]
  | cons e events ih =>
    rw [run_cons, ih, savedOf_step, Option.or_assoc, original]
    by_cases hmoves : e.moves m n
    · obtain ⟨text, htext⟩ := Option.isSome_iff_exists.mp (isSome_of_moves hmoves)
      rw [if_pos hmoves, if_pos hmoves, htext, Option.some_or]
    · rw [if_neg hmoves, if_neg hmoves, Option.none_or]

/-- What is saved has no space at its ends. -/
theorem strip_original {a : Chars} (h : original n m events = some a) :
    Text.strip Text.isSpace (a ++ ['\n']) = a := by
  induction events generalizing m with
  | nil => cases h
  | cons e events ih =>
    rw [original] at h
    split at h
    · obtain ⟨text, -, rfl⟩ := Option.map_eq_some_iff.mp h
      exact Text.strip_line text
    · exact ih h

/-- An interrupt that is never moved has what it had without the steers. -/
theorem affinity_run {m' : Machine} (h : original n m events = none)
    (heq : m.affinity n = m'.affinity n) :
    (run m events).affinity n = (run m' (events.filter (!·.isSteer))).affinity n := by
  induction events generalizing m m' with
  | nil => exact heq
  | cons e events ih =>
    rw [original] at h
    have hmoves : ¬ e.moves m n := by
      intro hmoves
      rw [if_pos hmoves] at h
      exact absurd (isSome_of_moves hmoves) (by simp [h])
    rw [if_neg hmoves] at h
    by_cases hsteer : e.isSteer
    · rw [List.filter_cons_of_neg (by simp [hsteer]), run_cons]
      exact ih h ((affinity_step hsteer hmoves).trans heq)
    · rw [List.filter_cons_of_pos (by simp [hsteer]), run_cons, run_cons]
      refine ih h ?_
      cases e with
      | steer => simp [Event.isSteer] at hsteer
      | appear irq text =>
        by_cases hirq : n = irq
        · subst hirq
          simp only [Event.step, heq]
          split
          · exact heq
          · simp
        · simp only [Event.step]
          split <;> split <;> simp [hirq, heq]
      | vanish irq =>
        by_cases hirq : n = irq
        · simp [Event.step, hirq]
        · simp [Event.step, hirq, heq]
      | list => exact heq

end Run

/-! ## A restore -/

section Restore
variable {refuses : ℕ → Bool} {m : Machine} {n : ℕ}

theorem mem_items {d : Dict ℕ Chars} {a : Chars} : (n, a) ∈ items d ↔ d.lookup n = some a := by
  rw [items, List.mem_reverse, List.mem_map, ← Option.mem_def, AList.mem_lookup_iff]
  constructor
  · rintro ⟨e, he, heq⟩
    cases heq
    exact he
  · exact fun h => ⟨_, h, rfl⟩

theorem nodup_items (d : Dict ℕ Chars) : ((items d).map Prod.fst).Nodup := by
  rw [items, List.map_reverse, List.nodup_reverse, List.map_map]
  exact AList.keys_nodup d

theorem restoreIrq_other {s : (ℕ → Option Chars) × List ℕ} {saved : ℕ × Chars} (h : n ≠ saved.1) :
    (restoreIrq refuses s saved).1 n = s.1 n := by
  unfold restoreIrq
  split
  · exact Function.update_of_ne h _ _
  · rfl

/-- The loop of a restore leaves what is not saved. -/
theorem restoreIrqs_other {l : List (ℕ × Chars)} (h : n ∉ l.map Prod.fst)
    (s : (ℕ → Option Chars) × List ℕ) : (l.foldl (restoreIrq refuses) s).1 n = s.1 n := by
  induction l generalizing s with
  | nil => rfl
  | cons saved l ih =>
    obtain ⟨hne, hl⟩ := not_or.mp (mt List.mem_cons.mpr h)
    rw [List.foldl_cons, ih hl, restoreIrq_other hne]

/-- It puts back what is saved, where the interrupt exists and the write is not refused. -/
theorem restoreIrqs_of_mem {l : List (ℕ × Chars)} {a : Chars} (hnodup : (l.map Prod.fst).Nodup)
    (h : (n, a) ∈ l) (hrefuses : ¬ refuses n) {s : (ℕ → Option Chars) × List ℕ}
    (hexists : (s.1 n).isSome) : (l.foldl (restoreIrq refuses) s).1 n = some (a ++ ['\n']) := by
  induction l generalizing s with
  | nil => cases h
  | cons saved l ih =>
    obtain ⟨hnot, hnodup⟩ := List.nodup_cons.mp hnodup
    rw [List.foldl_cons]
    rcases List.mem_cons.mp h with rfl | h
    · rw [restoreIrqs_other hnot, restoreIrq, if_pos ⟨hexists, hrefuses⟩]
      exact Function.update_self n _ s.1
    · have hne : n ≠ saved.1 := fun heq => hnot (heq ▸ List.mem_map_of_mem h)
      refine ih hnodup h ?_
      rwa [restoreIrq_other hne]

end Restore

/-- A restore after any history of steers that starts without a saved state: an interrupt that
exists and whose write is not refused has what it had before the first steer that moved it, one that
was never moved has what it had without the steers, and a second restore changes nothing. -/
theorem restore_run {m : Machine} (h : m.state = none) (events : List Event)
    (refuses : ℕ → Bool) :
    let m' := (restoreIrqs refuses (run m events)).2
    (∀ n a, original n m events = some a → ((run m events).affinity n).isSome → ¬ refuses n →
      m'.affinityOf n = some a) ∧
    (∀ n, original n m events = none →
      m'.affinity n = (run m (events.filter (!·.isSteer))).affinity n) ∧
    ∀ refuses', (restoreIrqs refuses' m') = ({ restored := [], startIrqbalance := false }, m') := by
  intro m'
  have hsaved (n : ℕ) : (run m events).savedOf n = original n m events := by
    rw [savedOf_run, Machine.savedOf, h]
    rfl
  cases hstate : (run m events).state with
  | none =>
    have hm' : m' = run m events := by simp only [m', restoreIrqs, hstate]
    have hnone (n : ℕ) : original n m events = none := by
      rw [← hsaved, Machine.savedOf, hstate]
      rfl
    refine ⟨fun n a ha => ?_, fun n hn => ?_, fun refuses' => ?_⟩
    · rw [hnone n] at ha
      cases ha
    · rw [hm']
      exact affinity_run hn rfl
    · simp only [restoreIrqs, hm', hstate]
  | some saved =>
    have hlookup (n : ℕ) : saved.irqs.lookup n = original n m events := by
      rw [← hsaved, Machine.savedOf, hstate]
      rfl
    have haffinity (n : ℕ) : m'.affinity n =
        ((items saved.irqs).foldl (restoreIrq refuses) ((run m events).affinity, [])).1 n := by
      simp only [m', restoreIrqs, hstate]
    have hstate' : m'.state = none := by simp only [m', restoreIrqs, hstate]
    refine ⟨fun n a ha hexists hrefuses => ?_, fun n hn => ?_, fun refuses' => ?_⟩
    · have hmem : (n, a) ∈ items saved.irqs := mem_items.mpr ((hlookup n).trans ha)
      rw [Machine.affinityOf, haffinity,
        restoreIrqs_of_mem (nodup_items _) hmem hrefuses (s := (_, _)) hexists, Option.map_some,
        strip_original ha]
    · have hnot : n ∉ (items saved.irqs).map Prod.fst := by
        intro hmem
        obtain ⟨⟨n', a⟩, hitem, rfl⟩ := List.mem_map.mp hmem
        rw [mem_items, hlookup, hn] at hitem
        cases hitem
      rw [haffinity, restoreIrqs_other hnot]
      exact affinity_run hn rfl
    · simp only [restoreIrqs, hstate']

/-- Two steers with different layouts, before the second of which the interrupt is where the first
moved it. -/
theorem restore_run_twice :
    let m : Machine :=
      { interrupts := some "           CPU0       CPU1\n 24:   1   2   PCI-MSI   nvidia\n".toList
        affinity := fun n => if n = 24 then some "0-23\n".toList else none
        state := none }
    let events : List Event :=
      [.steer (fun _ => false) ⟨2, [14], [3, 15], [0, 12]⟩ true,
        .steer (fun _ => false) ⟨0, [12], [1], [5]⟩ false]
    (run m events).affinityOf 24 = some "5".toList ∧
      (restoreIrqs (fun _ => false) (run m events)).2.affinityOf 24 = some "0-23".toList := by
  intro m events
  have hevents : original 24 m events = some "0-23".toList ∧
      (run m events).affinityOf 24 = some "5".toList ∧ ((run m events).affinity 24).isSome := by
    decide +kernel
  exact ⟨hevents.2.1, (restore_run (m := m) rfl events fun _ => false).1 24 _ hevents.1 hevents.2.2
    (by simp)⟩

end Isolate

end LightServe
