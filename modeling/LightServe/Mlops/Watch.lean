import LightServe.Lib.Rounding
import Mathlib.Algebra.Order.Archimedean.Basic
import Mathlib.Data.List.Chain
import Mathlib.Data.Rat.Floor

/-!
# The deploy watch

`watch_verdict` and `add_round` of `mlops/retrain.py` and the task `watch` of
`mlops/dags/drift_retrain.py`, over exact numbers: after a deploy the canary is read again and
again, its rounds are recorded, and the new model passes or is rolled back. A poll that lacks the
normal is judged against 0.0, so that two low rounds in a row can go unseen; and what is below
normal is rounded to nine digits before it is compared with the margin.

## Main definitions

* `Watch.addRound` — a reading's round, if it is a new one of the new model.
* `Watch.watchVerdict` — wait, pass or roll back.
* `Watch.watch` — the loop, over the polls.
* `Watch.MissesLow` — a poll that cannot see the second low round that it records.
* `Watch.KeepsBelow` — rounding hides no two rounds in a row.
* `Watch.register_iff` — the loop ends, and when it does not pass a model that it saw failing.
-/

namespace LightServe

namespace Watch

/-! ## Rounds and readings -/

/-- A complete round of the canary. -/
structure Round where
  finishedAt : ℚ
  accuracy : ℚ
  deriving DecidableEq

/-- The canary as Prometheus last scraped it; any of it may be missing. -/
structure Reading where
  /-- Since when it asks the new model. -/
  switchedAt : Option ℚ
  accuracy : Option ℚ
  /-- The normal. -/
  expected : Option ℚ
  /-- When its last complete round finished. -/
  lastRun : Option ℚ

/-- The rounds, with the reading's if it is a new, scored round of the new model. -/
def addRound (rounds : List Round) (r : Reading) : List Round :=
  match r.switchedAt, r.accuracy, r.lastRun with
  | some switchedAt, some accuracy, some lastRun =>
    if switchedAt < lastRun ∧ ∀ x ∈ rounds.getLast?, x.finishedAt < lastRun then
      rounds ++ [⟨lastRun, accuracy⟩]
    else rounds
  | _, _, _ => rounds

section AddRound
variable {rounds : List Round} {r : Reading}

/-- What a reading can do to the rounds. -/
theorem addRound_cases (rounds : List Round) (r : Reading) :
    addRound rounds r = rounds ∨ ∃ switchedAt x,
    addRound rounds r = rounds ++ [x] ∧ r.switchedAt = some switchedAt ∧
    r.accuracy = some x.accuracy ∧ r.lastRun = some x.finishedAt ∧ switchedAt < x.finishedAt ∧
    ∀ y ∈ rounds.getLast?, y.finishedAt < x.finishedAt := by
  unfold addRound
  split
  · rename_i switchedAt accuracy lastRun hswitched haccuracy hlast
    split
    · rename_i hnew
      exact .inr ⟨switchedAt, ⟨lastRun, accuracy⟩, rfl, hswitched, haccuracy, hlast, hnew.1, hnew.2⟩
    · exact .inl rfl
  · exact .inl rfl

/-- The finish times increase strictly. -/
theorem addRound_pairwise (h : (rounds.map (·.finishedAt)).Pairwise (· < ·)) :
    ((addRound rounds r).map (·.finishedAt)).Pairwise (· < ·) := by
  rcases addRound_cases rounds r with heq | ⟨s, x, heq, -, -, -, -, hlast⟩
  · rwa [heq]
  · rw [← List.isChain_iff_pairwise, List.isChain_map] at h ⊢
    rw [heq]
    refine h.append (List.isChain_singleton x) fun y hy z hz => ?_
    obtain rfl : x = z := Option.some.inj hz
    exact hlast y hy

end AddRound

/-! ## The verdict -/

/-- What the watch is run with. -/
structure Limits where
  window : ℚ
  staleAfter : ℚ
  margin : ℚ := 1 / 10
  minRounds : ℕ := 2

inductive Verdict
  | wait
  | pass
  | rollback
  deriving DecidableEq

/-- The reason for a verdict. -/
inductive Why
  | lowTwice (margin first second expected : ℚ)
  | noCompleteRound (since limit : ℚ)
  | tooFew (rounds minRounds : ℕ)
  | noneLowTwice (rounds : ℕ)
  | soFar (rounds : ℕ)
  deriving DecidableEq

variable (c : Limits)

/-- The round is more than the margin below normal, to nine digits. -/
def Low (expected : ℚ) (x : Round) : Prop := c.margin < Rounding.round 9 (expected - x.accuracy)

instance (expected : ℚ) (x : Round) : Decidable (Low c expected x) :=
  inferInstanceAs (Decidable (_ < _))

/-- The round is more than the margin below normal. -/
def Below (expected : ℚ) (x : Round) : Prop := c.margin < expected - x.accuracy

instance (expected : ℚ) (x : Round) : Decidable (Below c expected x) :=
  inferInstanceAs (Decidable (_ < _))

/-- The first two rounds in a row that are low. -/
def lowTwice (expected : ℚ) : List Round → Option (Round × Round)
  | x :: y :: rounds =>
    if Low c expected x ∧ Low c expected y then some (x, y) else lowTwice expected (y :: rounds)
  | _ => none

/-- No two rounds in a row are low. -/
def NoneLowTwice (expected : ℚ) (rounds : List Round) : Prop :=
  rounds.IsChain fun x y => ¬ (Low c expected x ∧ Low c expected y)

/-- No two rounds in a row are below normal. -/
def NoneBelowTwice (expected : ℚ) (rounds : List Round) : Prop :=
  rounds.IsChain fun x y => ¬ (Below c expected x ∧ Below c expected y)

/-- Two rounds in a row that are below normal are so to nine digits. -/
def KeepsBelow (expected : ℚ) (rounds : List Round) : Prop :=
  rounds.IsChain fun x y =>
    Below c expected x ∧ Below c expected y → Low c expected x ∧ Low c expected y

/-- Since when there was no complete round. -/
def since (rounds : List Round) (started : ℚ) (switchedAt : Option ℚ) : ℚ :=
  match rounds.getLast? with
  | some x => x.finishedAt
  | none => match switchedAt with
    | none => started
    | some switchedAt => max started switchedAt

/-- The verdict if no two rounds in a row are low. -/
def ageVerdict (rounds : List Round) (started : ℚ) (switchedAt : Option ℚ) (now : ℚ) :
    Verdict × Why :=
  let elapsed := now - since rounds started switchedAt
  if c.staleAfter < elapsed then (.rollback, .noCompleteRound elapsed c.staleAfter)
  else if c.window ≤ now - started then
    if rounds.length < c.minRounds then (.rollback, .tooFew rounds.length c.minRounds)
    else (.pass, .noneLowTwice rounds.length)
  else (.wait, .soFar rounds.length)

/-- After a deploy: wait, pass or roll back, and why. -/
def watchVerdict (rounds : List Round) (expected started : ℚ) (switchedAt : Option ℚ) (now : ℚ) :
    Verdict × Why :=
  match lowTwice c expected rounds with
  | some (x, y) => (.rollback, .lowTwice c.margin x.accuracy y.accuracy expected)
  | none => ageVerdict c rounds started switchedAt now

section Verdict
variable {c : Limits} {rounds : List Round} {expected started now : ℚ} {switchedAt : Option ℚ}

theorem lowTwice_eq_none : lowTwice c expected rounds = none ↔ NoneLowTwice c expected rounds := by
  induction rounds with
  | nil => simp [lowTwice, NoneLowTwice]
  | cons x rounds ih =>
    cases rounds with
    | nil => simp [lowTwice, NoneLowTwice]
    | cons y rounds =>
      rw [lowTwice, NoneLowTwice, List.isChain_cons_cons, ← NoneLowTwice, ← ih]
      split
      · rename_i hlow
        simp [hlow]
      · rename_i hlow
        simp [hlow]

theorem watchVerdict_of_low (h : ¬ NoneLowTwice c expected rounds) :
    (watchVerdict c rounds expected started switchedAt now).1 = .rollback := by
  rw [watchVerdict]
  cases hlow : lowTwice c expected rounds with
  | none => exact absurd (lowTwice_eq_none.mp hlow) h
  | some xy => rfl

theorem watchVerdict_of_noneLow (h : NoneLowTwice c expected rounds) :
    watchVerdict c rounds expected started switchedAt now =
      ageVerdict c rounds started switchedAt now := by
  rw [watchVerdict, lowTwice_eq_none.mpr h]

/-- A verdict other than a rollback has seen no two low rounds in a row. -/
theorem noneLow_of_verdict
    (h : (watchVerdict c rounds expected started switchedAt now).1 ≠ .rollback) :
    NoneLowTwice c expected rounds := by
  by_contra hlow
  exact h (watchVerdict_of_low hlow)

theorem NoneBelowTwice.keepsBelow (h : NoneBelowTwice c expected rounds) :
    KeepsBelow c expected rounds :=
  h.imp fun _ _ hnone hbelow => absurd hbelow hnone

/-- Where rounding hides nothing, no two low rounds are no two below normal. -/
theorem NoneLowTwice.noneBelowTwice (h : NoneLowTwice c expected rounds)
    (hkeeps : KeepsBelow c expected rounds) : NoneBelowTwice c expected rounds := by
  induction rounds with
  | nil => exact .nil
  | cons x rounds ih =>
    cases rounds with
    | nil => exact List.isChain_singleton x
    | cons y rounds =>
      rw [NoneLowTwice, List.isChain_cons_cons] at h
      rw [KeepsBelow, List.isChain_cons_cons] at hkeeps
      rw [NoneBelowTwice, List.isChain_cons_cons]
      exact ⟨fun hbelow => h.1 (hkeeps.1 hbelow), ih h.2 hkeeps.2⟩

/-- Once the window is over the watch does not wait. -/
theorem watchVerdict_ne_wait (h : c.window ≤ now - started) :
    (watchVerdict c rounds expected started switchedAt now).1 ≠ .wait := by
  by_cases hlow : NoneLowTwice c expected rounds
  · rw [watchVerdict_of_noneLow hlow, ageVerdict, if_pos h]
    split_ifs <;> simp
  · rw [watchVerdict_of_low hlow]
    simp

theorem minRounds_le (h : (watchVerdict c rounds expected started switchedAt now).1 = .pass) :
    c.minRounds ≤ rounds.length := by
  have hlow : NoneLowTwice c expected rounds := noneLow_of_verdict (h.trans_ne (by decide))
  rw [watchVerdict_of_noneLow hlow, ageVerdict] at h
  split_ifs at h with hstale hwindow hfew
  exact not_lt.mp hfew

end Verdict

/-! ## The loop -/

/-- A poll of the canary. -/
structure Poll where
  reading : Reading
  now : ℚ

/-- What the watch writes down at its end. -/
structure Outcome where
  verdict : Verdict
  why : Why
  rounds : List Round
  deriving DecidableEq

/-- The canary is polled until the verdict says pass or rollback; `none` if it has not yet. -/
def watch (c : Limits) (started : ℚ) : List Round → List Poll → Option Outcome
  | _, [] => none
  | rounds, p :: polls =>
    let rounds := addRound rounds p.reading
    let (verdict, why) := watchVerdict c rounds (p.reading.expected.getD 0) started
      p.reading.switchedAt p.now
    if verdict = .wait then watch c started rounds polls else some { verdict, why, rounds }

/-- The task after the watch. -/
inductive Next
  | registerChampion
  | rollback
  deriving DecidableEq

def Outcome.next (out : Outcome) : Next :=
  if out.verdict = .pass then .registerChampion else .rollback

theorem Outcome.next_eq {out : Outcome} : out.next = .registerChampion ↔ out.verdict = .pass := by
  unfold Outcome.next
  split <;> simp [*]

/-- The rounds that some polls record. -/
def recorded (polls : List Poll) : List Round :=
  polls.foldl (fun rounds p => addRound rounds p.reading) []

section Run
variable {c : Limits} {started : ℚ} {polls : ℕ → Poll} {n : ℕ}

/-- The first polls. -/
def upTo (polls : ℕ → Poll) (n : ℕ) : List Poll := (List.range n).map polls

/-- The verdict at a poll. -/
def verdictAt (c : Limits) (started : ℚ) (polls : ℕ → Poll) (n : ℕ) : Verdict × Why :=
  watchVerdict c (recorded (upTo polls (n + 1))) ((polls n).reading.expected.getD 0) started
    (polls n).reading.switchedAt (polls n).now

theorem upTo_succ (polls : ℕ → Poll) (n : ℕ) : upTo polls (n + 1) = upTo polls n ++ [polls n] := by
  rw [upTo, List.range_succ, List.map_append, ← upTo, List.map_singleton]

theorem recorded_succ (polls : ℕ → Poll) (n : ℕ) : recorded (upTo polls (n + 1)) =
    addRound (recorded (upTo polls n)) (polls n).reading := by
  rw [upTo_succ, recorded, List.foldl_append, ← recorded, List.foldl_cons, List.foldl_nil]

theorem watch_append (rounds : List Round) (polls more : List Poll) :
    watch c started rounds (polls ++ more) = (watch c started rounds polls).or
      (watch c started (polls.foldl (fun rounds p => addRound rounds p.reading) rounds) more) := by
  induction polls generalizing rounds with
  | nil => rfl
  | cons p polls ih =>
    simp only [List.cons_append, watch, List.foldl_cons]
    split
    · exact ih _
    · rfl

/-- One more poll. -/
theorem watch_succ (h : watch c started [] (upTo polls n) = none) :
    watch c started [] (upTo polls (n + 1)) =
      if (verdictAt c started polls n).1 = .wait then none
      else some ⟨(verdictAt c started polls n).1, (verdictAt c started polls n).2,
        recorded (upTo polls (n + 1))⟩ := by
  rw [upTo_succ, watch_append, h, Option.none_or, ← recorded, watch, ← recorded_succ, watch,
    ← upTo_succ]
  rfl

/-- The loop goes on while the verdict is to wait. -/
theorem watch_eq_none :
    watch c started [] (upTo polls n) = none ↔
    ∀ i < n, (verdictAt c started polls i).1 = .wait := by
  induction n with
  | zero => simp [upTo, watch]
  | succ n ih =>
    rw [Nat.forall_lt_succ_right, ← ih]
    constructor
    · intro h
      have hbefore : watch c started [] (upTo polls n) = none := by
        rw [upTo_succ, watch_append] at h
        exact (Option.or_eq_none_iff.mp h).1
      rw [watch_succ hbefore] at h
      exact ⟨hbefore, by_contra fun hne => by simp [hne] at h⟩
    · rintro ⟨hbefore, hwait⟩
      rw [watch_succ hbefore, if_pos hwait]

theorem watch_mono {m : ℕ} {out : Outcome} (hm : m ≤ n)
    (h : watch c started [] (upTo polls m) = some out) :
    watch c started [] (upTo polls n) = some out := by
  induction n, hm using Nat.le_induction with
  | base => exact h
  | succ n _ ih => rw [upTo_succ, watch_append, ih, Option.some_or]

/-- The loop ends at a poll whose verdict is not to wait. -/
theorem watch_ends (c : Limits) (started : ℚ) (h : ∀ b, ∃ i, b ≤ (polls i).now) :
    ∃ n, watch c started [] (upTo polls n) = none ∧ (verdictAt c started polls n).1 ≠ .wait := by
  have hend : ∃ n, (verdictAt c started polls n).1 ≠ .wait := by
    obtain ⟨i, hi⟩ := h (started + c.window)
    exact ⟨i, watchVerdict_ne_wait (by linarith)⟩
  refine ⟨Nat.find hend, watch_eq_none.mpr fun i hi => ?_, Nat.find_spec hend⟩
  exact not_not.mp (Nat.find_min hend hi)

/-- A recorded round was read after the switch to the new model. -/
theorem exists_of_mem_recorded {x : Round} (hx : x ∈ recorded (upTo polls n)) :
    ∃ i < n, ∃ switchedAt, (polls i).reading.switchedAt = some switchedAt ∧
      (polls i).reading.accuracy = some x.accuracy ∧
      (polls i).reading.lastRun = some x.finishedAt ∧ switchedAt < x.finishedAt := by
  induction n with
  | zero => cases hx
  | succ n ih =>
    have hearlier (hx : x ∈ recorded (upTo polls n)) := ih hx
    rw [recorded_succ] at hx
    rcases addRound_cases (recorded (upTo polls n)) (polls n).reading with
      heq | ⟨s, y, heq, hs, haccuracy, hlast, hlt, -⟩
    · rw [heq] at hx
      obtain ⟨i, hi, h⟩ := hearlier hx
      exact ⟨i, Nat.lt_succ_of_lt hi, h⟩
    · rw [heq] at hx
      rcases List.mem_append.mp hx with hx | hx
      · obtain ⟨i, hi, h⟩ := hearlier hx
        exact ⟨i, Nat.lt_succ_of_lt hi, h⟩
      · obtain rfl := List.mem_singleton.mp hx
        exact ⟨n, Nat.lt_succ_self n, s, hs, haccuracy, hlast, hlt⟩

theorem recorded_pairwise (polls : ℕ → Poll) (n : ℕ) :
    ((recorded (upTo polls n)).map (·.finishedAt)).Pairwise (· < ·) := by
  induction n with
  | zero => exact .nil
  | succ n ih =>
    rw [recorded_succ]
    exact addRound_pairwise ih

/-! ## A missing normal -/

/-- The normal that was last reported; before any was, it is taken to be `first`. -/
def normal (first : ℚ) (polls : List Poll) : ℚ :=
  polls.foldl (fun n p => p.reading.expected.getD n) first

theorem normal_succ (first : ℚ) (polls : ℕ → Poll) (n : ℕ) : normal first (upTo polls (n + 1)) =
    (polls n).reading.expected.getD (normal first (upTo polls n)) := by
  rw [upTo_succ, normal, List.foldl_append]
  rfl

/-- The polls with the normal last reported where one is missing. -/
def carried (first : ℚ) (polls : ℕ → Poll) (n : ℕ) : Poll :=
  { polls n with
    reading := { (polls n).reading with expected := normal first (upTo polls (n + 1)) } }

/-- The poll lacks the normal, and the round that it records is the second in a row that is low
under the normal last reported. -/
def MissesLow (c : Limits) (first : ℚ) (polls : ℕ → Poll) (n : ℕ) : Prop :=
  (polls n).reading.expected = none ∧ ∃ x ∈ (recorded (upTo polls n)).getLast?, ∃ y,
    addRound (recorded (upTo polls n)) (polls n).reading = recorded (upTo polls n) ++ [y] ∧
    Low c (normal first (upTo polls n)) x ∧ Low c (normal first (upTo polls n)) y

variable {first : ℚ}

theorem recorded_carried (first : ℚ) (polls : ℕ → Poll) (n : ℕ) :
    recorded (upTo (carried first polls) n) = recorded (upTo polls n) := by
  induction n with
  | zero => rfl
  | succ n ih =>
    rw [recorded_succ, recorded_succ, ih]
    rfl

theorem verdictAt_carried (first : ℚ) (polls : ℕ → Poll) (n : ℕ) :
    verdictAt c started (carried first polls) n =
      watchVerdict c (recorded (upTo polls (n + 1))) (normal first (upTo polls (n + 1))) started
        (polls n).reading.switchedAt (polls n).now := by
  rw [verdictAt, recorded_carried]
  rfl

/-- Where no poll misses a low round, none are low under the normal last reported either. -/
theorem noneLow_carried (hown : ∀ i ≤ n, NoneLowTwice c ((polls i).reading.expected.getD 0)
    (recorded (upTo polls (i + 1)))) (h : ∀ i ≤ n, ¬ MissesLow c first polls i) :
    NoneLowTwice c (normal first (upTo polls (n + 1))) (recorded (upTo polls (n + 1))) := by
  -- what a poll without a normal adds to rounds of which no two in a row are low
  have hadd : ∀ k, NoneLowTwice c (normal first (upTo polls k)) (recorded (upTo polls k)) →
      (polls k).reading.expected = none → ¬ MissesLow c first polls k →
      NoneLowTwice c (normal first (upTo polls k)) (recorded (upTo polls (k + 1))) := by
    intro k hbefore hexpected hnot
    rw [recorded_succ]
    rcases addRound_cases (recorded (upTo polls k)) (polls k).reading with heq | ⟨-, y, heq, -⟩
    · rwa [heq]
    · rw [heq]
      refine hbefore.append (List.isChain_singleton y) fun x hx z hz hlow => ?_
      obtain rfl : y = z := Option.some.inj hz
      exact hnot ⟨hexpected, x, hx, y, heq, hlow⟩
  induction n with
  | zero =>
    have hnow := hown 0 le_rfl
    rw [normal_succ]
    cases hexpected : (polls 0).reading.expected with
    | some expected => rwa [hexpected] at hnow
    | none => exact hadd 0 .nil hexpected (h 0 le_rfl)
  | succ n ih =>
    have hbefore := ih (fun i hi => hown i (Nat.le_succ_of_le hi))
      fun i hi => h i (Nat.le_succ_of_le hi)
    have hnow := hown (n + 1) le_rfl
    rw [normal_succ]
    cases hexpected : (polls (n + 1)).reading.expected with
    | some expected => rwa [hexpected] at hnow
    | none => exact hadd (n + 1) hbefore hexpected (h (n + 1) le_rfl)

/-- A poll that misses a low round would be a rollback under the normal last reported. -/
theorem low_of_missesLow (h : MissesLow c first polls n) :
    ¬ NoneLowTwice c (normal first (upTo polls (n + 1))) (recorded (upTo polls (n + 1))) := by
  obtain ⟨hexpected, x, hx, y, heq, hlow⟩ := h
  rw [normal_succ, hexpected, recorded_succ, heq, Option.getD_none]
  intro hnone
  exact (List.isChain_append.mp hnone).2.2 x hx y rfl hlow

/-- Without two low rounds in a row a missing normal does not matter. -/
theorem verdictAt_carried_eq (started : ℚ)
    (hown : NoneLowTwice c ((polls n).reading.expected.getD 0) (recorded (upTo polls (n + 1))))
    (hcarried : NoneLowTwice c (normal first (upTo polls (n + 1)))
      (recorded (upTo polls (n + 1)))) :
    verdictAt c started (carried first polls) n = verdictAt c started polls n := by
  rw [verdictAt_carried, watchVerdict_of_noneLow hcarried, verdictAt, watchVerdict_of_noneLow hown]

/-- With the normal last reported the watch rolls back where a poll misses a low round. -/
theorem rollback_of_missesLow (hwait : ∀ i < n, (verdictAt c started polls i).1 = .wait) {i : ℕ}
    (hi : i ≤ n) (hown : ∀ i ≤ n, NoneLowTwice c ((polls i).reading.expected.getD 0)
      (recorded (upTo polls (i + 1)))) (hmisses : MissesLow c first polls i) : ∃ out,
      watch c started [] (upTo (carried first polls) (n + 1)) = some out ∧
        out.verdict = .rollback := by
  have hend : ∃ k, (verdictAt c started (carried first polls) k).1 ≠ .wait := by
    refine ⟨i, ?_⟩
    rw [verdictAt_carried, watchVerdict_of_low (low_of_missesLow hmisses)]
    decide
  have hbefore : watch c started [] (upTo (carried first polls) (Nat.find hend)) = none :=
    watch_eq_none.mpr fun k hk => not_not.mp (Nat.find_min hend hk)
  have hle : Nat.find hend ≤ i := by
    refine Nat.find_min' hend ?_
    rw [verdictAt_carried, watchVerdict_of_low (low_of_missesLow hmisses)]
    decide
  refine ⟨_, watch_mono (Nat.succ_le_succ (hle.trans hi))
    ((watch_succ hbefore).trans (if_neg (Nat.find_spec hend))), ?_⟩
  by_contra hverdict
  have hcarried := noneLow_of_verdict hverdict
  have hnormal : (carried first polls (Nat.find hend)).reading.expected.getD 0 =
      normal first (upTo polls (Nat.find hend + 1)) := rfl
  rw [recorded_carried, hnormal] at hcarried
  rcases hle.lt_or_eq with hlt | heq
  · have hsame := verdictAt_carried_eq started (hown _ (hle.trans hi)) hcarried
    exact Nat.find_spec hend (by rw [hsame, hwait _ (hlt.trans_le hi)])
  · rw [heq] at hcarried
    exact low_of_missesLow hmisses hcarried

end Run

/-- The loop ends. When it passes the model there are rounds enough, their finish times increase,
and each was read after the switch. Whatever the normal was before the first report: no two rounds
in a row are below the normal last reported, and the same polls with that normal where one is
missing pass too, exactly if no poll misses a low round and rounding hides no two rounds in a
row. -/
theorem register_iff (c : Limits) (started : ℚ) (polls : ℕ → Poll)
    (h : ∀ b, ∃ i, b ≤ (polls i).now) :
    ∃ n out, watch c started [] (upTo polls n) = none ∧
      watch c started [] (upTo polls (n + 1)) = some out ∧
      (out.next = .registerChampion → c.minRounds ≤ out.rounds.length ∧
        (out.rounds.map (·.finishedAt)).Pairwise (· < ·) ∧
        (∀ x ∈ out.rounds, ∃ i ≤ n, ∃ switchedAt, (polls i).reading.switchedAt = some switchedAt ∧
          (polls i).reading.accuracy = some x.accuracy ∧
          (polls i).reading.lastRun = some x.finishedAt ∧ switchedAt < x.finishedAt) ∧
        ∀ first, (NoneBelowTwice c (normal first (upTo polls (n + 1))) out.rounds ∧
            ∀ out', watch c started [] (upTo (carried first polls) (n + 1)) = some out' →
              out'.next = .registerChampion) ↔
          (∀ i ≤ n, ¬ MissesLow c first polls i) ∧
            KeepsBelow c (normal first (upTo polls (n + 1))) (recorded (upTo polls (n + 1)))) := by
  obtain ⟨n, hbefore, hend⟩ := watch_ends c started h
  refine ⟨n, _, hbefore, (watch_succ hbefore).trans (if_neg hend), fun hnext => ?_⟩
  have hpass : (verdictAt c started polls n).1 = .pass := Outcome.next_eq.mp hnext
  have hwait := watch_eq_none.mp hbefore
  have hown : ∀ i ≤ n, NoneLowTwice c ((polls i).reading.expected.getD 0)
      (recorded (upTo polls (i + 1))) := by
    intro i hi
    have hverdict : (verdictAt c started polls i).1 ≠ .rollback := by
      rcases hi.lt_or_eq with hlt | rfl
      · simp [hwait i hlt]
      · simp [hpass]
    exact noneLow_of_verdict hverdict
  refine ⟨minRounds_le hpass, recorded_pairwise polls (n + 1), fun x hx => ?_, fun first => ?_⟩
  · obtain ⟨i, hi, hx⟩ := exists_of_mem_recorded hx
    exact ⟨i, Nat.le_of_lt_succ hi, hx⟩
  constructor
  · rintro ⟨hbelow, hcarried⟩
    refine ⟨fun i hi hmisses => ?_, hbelow.keepsBelow⟩
    obtain ⟨out', hout', hrollback⟩ := rollback_of_missesLow hwait hi hown hmisses
    have hpassed := Outcome.next_eq.mp (hcarried out' hout')
    exact absurd (hpassed.symm.trans hrollback) (by decide)
  · rintro ⟨hnone, hkeeps⟩
    have hcarried : ∀ i ≤ n,
        verdictAt c started (carried first polls) i = verdictAt c started polls i :=
      fun i hi => verdictAt_carried_eq started (hown i hi)
        (noneLow_carried (fun j hj => hown j (hj.trans hi)) fun j hj => hnone j (hj.trans hi))
    refine ⟨(noneLow_carried hown hnone).noneBelowTwice hkeeps, fun out' hout' => ?_⟩
    have hnone' : watch c started [] (upTo (carried first polls) n) = none :=
      watch_eq_none.mpr fun i hi => by rw [hcarried i hi.le, hwait i hi]
    rw [watch_succ hnone', hcarried n le_rfl, if_neg hend] at hout'
    cases hout'
    exact Outcome.next_eq.mpr hpass

/-- A healthy model whose normal is missing at first: its two rounds, at the normal, are recorded
before the first report. -/
theorem register_iff_healthy :
    let c : Limits := { window := 60, staleAfter := 900 }
    let polls : ℕ → Poll := fun i => ⟨⟨some 10, some (4 / 5), if i < 2 then none else some (4 / 5),
      some (25 * i + 20)⟩, 25 * i + 25⟩
    ∃ n out, watch c 0 [] (upTo polls (n + 1)) = some out ∧ out.next = .registerChampion ∧
      out.rounds.map Round.accuracy = [4 / 5, 4 / 5, 4 / 5] ∧
      ∀ first, (NoneBelowTwice c (normal first (upTo polls (n + 1))) out.rounds ∧
          ∀ out', watch c 0 [] (upTo (carried first polls) (n + 1)) = some out' →
            out'.next = .registerChampion) ↔
        (∀ i ≤ n, ¬ MissesLow c first polls i) ∧
          KeepsBelow c (normal first (upTo polls (n + 1))) (recorded (upTo polls (n + 1))) := by
  intro c polls
  obtain ⟨n, out, hbefore, hout, hnext⟩ := register_iff c 0 polls fun b => by
    obtain ⟨i, hi⟩ := exists_nat_ge b
    exact ⟨i, show b ≤ 25 * i + 25 by linarith [(Nat.cast_nonneg i : (0 : ℚ) ≤ i)]⟩
  have hthird : (watch c 0 [] (upTo polls 3)).any (fun out => decide
      (out.next = .registerChampion ∧ out.rounds.map Round.accuracy = [4 / 5, 4 / 5, 4 / 5])) =
        true := by
    decide +kernel
  have hsecond : watch c 0 [] (upTo polls 2) = none := by decide +kernel
  obtain ⟨out', hout', hchecked⟩ := (Option.any_eq_true _ _).mp hthird
  obtain ⟨hchampion, hrounds⟩ := of_decide_eq_true hchecked
  -- the loop ends at the third poll
  have hn : n = 2 := by
    rcases lt_trichotomy n 2 with hlt | heq | hgt
    · have hmono := watch_mono (Nat.succ_le_of_lt hlt) hout
      rw [hsecond] at hmono
      cases hmono
    · exact heq
    · have hmono := watch_mono (Nat.succ_le_of_lt hgt) hout'
      rw [hbefore] at hmono
      cases hmono
  subst hn
  obtain rfl := Option.some.inj (hout'.symm.trans hout)
  exact ⟨2, out', hout', hchampion, hrounds, (hnext hchampion).2.2.2⟩

/-- Polls of a model that scores low; the second and all later ones lack the normal. -/
def failing (i : ℕ) : Poll where
  reading := ⟨some 10, some (1 / 2), if i = 0 then some (4 / 5) else none, some (30 * i + 20)⟩
  now := 30 * i + 30

/-- Two rounds in a row are below the normal last reported, and the second poll lacks the normal:
the model passes, and with the normal there it would not. -/
theorem register_failing : ∃ out, (∀ b, ∃ i, b ≤ (failing i).now) ∧
    watch { window := 60, staleAfter := 900 } 0 [] (upTo failing 2) = some out ∧
    out.next = .registerChampion ∧ (∀ first, normal first (upTo failing 2) = 4 / 5) ∧
    ¬ NoneBelowTwice { window := 60, staleAfter := 900 } (4 / 5) out.rounds ∧
    ∀ first, ∃ out',
      watch { window := 60, staleAfter := 900 } 0 [] (upTo (carried first failing) 2) = some out' ∧
      out'.next = .rollback := by
  refine ⟨⟨.pass, .noneLowTwice 2, [⟨20, 1 / 2⟩, ⟨50, 1 / 2⟩]⟩, fun b => ?_, by decide +kernel, rfl,
    fun _ => rfl, fun hnone => ?_, fun first =>
    ⟨⟨.rollback, .lowTwice (1 / 10) (1 / 2) (1 / 2) (4 / 5), [⟨20, 1 / 2⟩, ⟨50, 1 / 2⟩]⟩, ?_, rfl⟩⟩
  · obtain ⟨i, hi⟩ := exists_nat_ge b
    exact ⟨i, show b ≤ 30 * i + 30 by linarith [(Nat.cast_nonneg i : (0 : ℚ) ≤ i)]⟩
  · exact (List.isChain_cons_cons.mp hnone).1 ⟨by norm_num [Below], by norm_num [Below]⟩
  · -- what the first normal is taken to be makes no difference
    have hcarried : upTo (carried first failing) 2 = upTo (carried 0 failing) 2 := rfl
    rw [hcarried]
    decide +kernel

end Watch

end LightServe
