import LightServe.Lib.Dict
import LightServe.Mlops.Watch
import Mathlib.Data.List.Perm.Subperm

/-!
# The canary and the watch

The loop of `training/qlora_financial/canary.py`, the scrapes of its gauges, and the queries of
`canary_reading` in `mlops/retrain.py`, as interleaved steps. The canary sets one gauge after the
other and the watch asks for one after the other, so that a reading can mix two rounds, or two
models; the rounds recorded from readings of one whole scrape are real.

## Main definitions

* `Canary.System` — the canary, its gauges, the scrapes and the watch.
* `Canary.step`, `Canary.run` — one step, and any interleaving.
* `Canary.Whole` — a round is recorded from one scrape, not taken halfway through an update.
* `Canary.rounds_subperm` — the rounds recorded are complete ones of the new model, none of them
  twice.
-/

namespace LightServe

namespace Canary

open Watch

/-- What the canary publishes; `none` is NaN. -/
structure Gauges where
  accuracy : Option ℚ
  lastRun : ℚ
  expected : ℚ
  /-- Since when it asks a model, by its name. -/
  model : Dict String ℚ

/-- Where the canary's loop is. -/
inductive Point
  /-- `follow` -/
  | following
  /-- `expected.set` -/
  | switching
  /-- `model.clear` -/
  | clearing
  /-- `model.labels` -/
  | labelling
  /-- `set` of the label's value -/
  | stamping
  /-- `run_once` -/
  | asking
  /-- `accuracy.set` -/
  | recording (score : Option ℚ)
  /-- `last_run.set` -/
  | timing (score : ℚ)
  deriving DecidableEq

/-- An update is half done: the accuracy is set and the finish time is not, or there is a label
without its time. -/
def Point.halfDone : Point → Bool
  | .timing _ => true
  | .stamping => true
  | _ => false

/-- A copy of the gauges, and where the canary was then. -/
structure Scrape where
  gauges : Gauges
  point : Point

/-- How many of its queries the watch has made, and their answers. -/
inductive Stage
  | start
  | switched (switchedAt : Option ℚ)
  | scored (switchedAt accuracy : Option ℚ)
  | normal (switchedAt accuracy expected : Option ℚ)
  | read (r : Reading)

/-- The canary, the scrapes of its gauges, and the watch. -/
structure System where
  now : ℚ
  /-- The model that the pointer file names and its normal. -/
  current : Option (String × ℚ)
  point : Point
  /-- The model that the canary asks. -/
  asks : String
  expected : ℚ
  gauges : Gauges
  /-- The complete rounds so far, with the model that was asked. -/
  complete : List (String × Round)
  /-- The scrapes, the latest first. -/
  scrapes : List Scrape
  stage : Stage
  /-- What the watch has recorded. -/
  rounds : List Round

/-- The canary's next step; `score` is what a round would give. -/
def canaryStep (score : Option ℚ) (s : System) : System :=
  match s.point with
  | .following =>
    match s.current with
    | none => { s with point := .asking }
    | some (model, expected) =>
      if model = s.asks then { s with point := .asking }
      else { s with point := .switching, asks := model, expected }
  | .switching => { s with point := .clearing, gauges := { s.gauges with expected := s.expected } }
  | .clearing => { s with point := .labelling, gauges := { s.gauges with model := ∅ } }
  | .labelling =>
    { s with
      point := .stamping
      gauges := { s.gauges with
        model := s.gauges.model.set s.asks ((s.gauges.model.lookup s.asks).getD 0) } }
  | .stamping =>
    { s with
      point := .asking
      gauges := { s.gauges with model := s.gauges.model.set s.asks s.now } }
  | .asking => { s with point := .recording score }
  | .recording none =>
    { s with point := .following, gauges := { s.gauges with accuracy := none } }
  | .recording (some a) =>
    { s with point := .timing a, gauges := { s.gauges with accuracy := some a } }
  | .timing a =>
    { s with
      point := .following
      gauges := { s.gauges with lastRun := s.now }
      complete := s.complete ++ [(s.asks, ⟨s.now, a⟩)] }

/-- One number of the latest scrape. -/
def promValue (s : System) (query : Gauges → Option ℚ) : Option ℚ :=
  s.scrapes.head?.bind fun x => query x.gauges

/-- The watch's next step: a query, or the round of the reading. -/
def watchStep (name : String) (s : System) : System :=
  match s.stage with
  | .start => { s with stage := .switched (promValue s (·.model.lookup name)) }
  | .switched switchedAt => { s with stage := .scored switchedAt (promValue s (·.accuracy)) }
  | .scored switchedAt accuracy =>
    { s with stage := .normal switchedAt accuracy (promValue s fun g => some g.expected) }
  | .normal switchedAt accuracy expected =>
    { s with stage := .read ⟨switchedAt, accuracy, expected, promValue s fun g => some g.lastRun⟩ }
  | .read r => { s with stage := .start, rounds := addRound s.rounds r }

inductive Action
  /-- Time passes. -/
  | tick (time : ℚ)
  /-- The pointer file changes. -/
  | point (current : Option (String × ℚ))
  | canary (score : Option ℚ)
  | scrape
  | watch

/-- One step of any of them. -/
def step (name : String) (s : System) : Action → System
  | .tick time => { s with now := max s.now time }
  | .point current => { s with current }
  | .canary score => canaryStep score s
  | .scrape => { s with scrapes := ⟨s.gauges, s.point⟩ :: s.scrapes }
  | .watch => watchStep name s

/-- Any interleaving. -/
def run (name : String) (s : System) (actions : List Action) : System :=
  actions.foldl (step name) s

/-- The canary has just begun to publish, and the watch has not begun. -/
structure System.Initial (s : System) : Prop where
  point : s.point = .following
  accuracy : s.gauges.accuracy = none
  lastRun : s.gauges.lastRun ≤ s.now
  model : ∃ switchedAt, s.gauges.lastRun ≤ switchedAt ∧
    s.gauges.model = Dict.set ∅ s.asks switchedAt
  complete : s.complete = []
  scrapes : s.scrapes = []
  stage : s.stage = .start
  rounds : s.rounds = []

/-- Where the step records a round, the answers to the three queries that it is made of are those of
one scrape, which was not taken halfway through an update. -/
def Whole (name : String) (s : System) (a : Action) : Prop :=
  match a, s.stage with
  | .watch, .read r => addRound s.rounds r ≠ s.rounds → ∃ x ∈ s.scrapes, x.point.halfDone = false ∧
      r.switchedAt = x.gauges.model.lookup name ∧ r.accuracy = x.gauges.accuracy ∧
      r.lastRun = some x.gauges.lastRun
  | _, _ => True

instance (name : String) (s : System) : ∀ a, Decidable (Whole name s a)
  | .watch => by
    unfold Whole
    split <;> infer_instance
  | .tick _ | .point _ | .canary _ | .scrape => isTrue trivial

/-- Every step of an interleaving is so. -/
def AllWhole (name : String) : System → List Action → Prop
  | _, [] => True
  | s, a :: actions => Whole name s a ∧ AllWhole name (step name s a) actions

instance (name : String) : ∀ s actions, Decidable (AllWhole name s actions)
  | _, [] => isTrue trivial
  | s, a :: actions =>
    have := instDecidableAllWhole name (step name s a) actions
    inferInstanceAs (Decidable (_ ∧ _))

/-! ## What the gauges say -/

section Published
variable {name : String} {s : System} {score : Option ℚ}

/-- The gauges are about the last complete round, where no update is half done. -/
structure System.Published (s : System) : Prop where
  lastRun_le : s.gauges.lastRun ≤ s.now
  finished : ∀ x ∈ s.complete.getLast?, x.2.finishedAt = s.gauges.lastRun
  score : (∀ a, s.point ≠ .timing a) →
    ∀ a ∈ s.gauges.accuracy, ∀ x ∈ s.complete.getLast?, x.2.accuracy = a
  asked : s.point ≠ .stamping → ∀ m since, s.gauges.model.lookup m = some since →
    since < s.gauges.lastRun → ∃ x ∈ s.complete.getLast?, x.1 = m
  model : s.point ≠ .switching → s.point ≠ .clearing → ∀ m ∈ s.gauges.model, m = s.asks
  timed : ∀ a, s.point = .timing a → s.gauges.accuracy = some a

theorem System.Initial.published (h : s.Initial) : s.Published := by
  obtain ⟨switchedAt, hle, hmodel⟩ := h.model
  refine ⟨h.lastRun, ?_, ?_, ?_, ?_, ?_⟩
  · simp [h.complete]
  · simp [h.accuracy]
  · intro _ m since hm hlt
    rw [hmodel, Dict.lookup_set] at hm
    split at hm
    · obtain rfl := Option.some.inj hm
      exact absurd hlt (not_lt.mpr hle)
    · cases hm
  · intro _ _ m hm
    rw [hmodel, Dict.mem_set] at hm
    exact hm.resolve_right (AList.notMem_empty m)
  · simp [h.point]

/-- The canary keeps that. -/
theorem canaryStep_published (h : s.Published) : (canaryStep score s).Published := by
  obtain ⟨hle, hfinished, hscore, hasked, hmodel, htimed⟩ := h
  cases hpoint : s.point with
  | following =>
    have hscore' := hscore (by simp [hpoint])
    have hasked' := hasked (by simp [hpoint])
    have hmodel' := hmodel (by simp [hpoint]) (by simp [hpoint])
    cases hcurrent : s.current with
    | none =>
      simp only [canaryStep, hpoint, hcurrent]
      exact ⟨hle, hfinished, fun _ => hscore', fun _ => hasked', fun _ _ => hmodel',
        fun _ => Point.noConfusion⟩
    | some current =>
      simp only [canaryStep, hpoint, hcurrent]
      split
      · exact ⟨hle, hfinished, fun _ => hscore', fun _ => hasked', fun _ _ => hmodel',
          fun _ => Point.noConfusion⟩
      · exact ⟨hle, hfinished, fun _ => hscore', fun _ => hasked', fun h => absurd rfl h,
          fun _ => Point.noConfusion⟩
  | switching =>
    simp only [canaryStep, hpoint]
    exact ⟨hle, hfinished, fun _ => hscore (by simp [hpoint]), fun _ => hasked (by simp [hpoint]),
      fun _ h => absurd rfl h, fun _ => Point.noConfusion⟩
  | clearing =>
    simp only [canaryStep, hpoint]
    refine ⟨hle, hfinished, fun _ => hscore (by simp [hpoint]), fun _ m since hm => ?_,
      fun _ _ m hm => absurd hm (AList.notMem_empty m), fun _ => Point.noConfusion⟩
    cases hm
  | labelling =>
    simp only [canaryStep, hpoint]
    refine ⟨hle, hfinished, fun _ => hscore (by simp [hpoint]), fun h => absurd rfl h,
      fun _ _ m hm => ?_, fun _ => Point.noConfusion⟩
    exact (Dict.mem_set.mp hm).elim id (hmodel (by simp [hpoint]) (by simp [hpoint]) m)
  | stamping =>
    have hmodel' := hmodel (by simp [hpoint]) (by simp [hpoint])
    simp only [canaryStep, hpoint]
    refine ⟨hle, hfinished, fun _ => hscore (by simp [hpoint]), fun _ m since hm hlt => ?_,
      fun _ _ m hm => (Dict.mem_set.mp hm).elim id (hmodel' m), fun _ => Point.noConfusion⟩
    -- The label's time is now, and the last round finished before.
    rw [Dict.lookup_set] at hm
    split at hm
    · obtain rfl := Option.some.inj hm
      exact absurd hlt (not_lt.mpr hle)
    · rename_i hm'
      exact absurd (hmodel' m (AList.lookup_isSome.mp (by simp [hm]))) hm'
  | asking =>
    simp only [canaryStep, hpoint]
    exact ⟨hle, hfinished, fun _ => hscore (by simp [hpoint]), fun _ => hasked (by simp [hpoint]),
      fun _ _ => hmodel (by simp [hpoint]) (by simp [hpoint]), fun _ => Point.noConfusion⟩
  | recording result =>
    have hasked' := hasked (by simp [hpoint])
    have hmodel' := hmodel (by simp [hpoint]) (by simp [hpoint])
    cases result with
    | none =>
      simp only [canaryStep, hpoint]
      refine ⟨hle, hfinished, fun _ a ha => ?_, fun _ => hasked', fun _ _ => hmodel',
        fun _ => Point.noConfusion⟩
      cases ha
    | some a =>
      simp only [canaryStep, hpoint]
      refine ⟨hle, hfinished, fun h => absurd rfl (h a), fun _ => hasked', fun _ _ => hmodel',
        fun b hb => ?_⟩
      rw [Point.timing.inj hb]
  | timing a =>
    have hmodel' := hmodel (by simp [hpoint]) (by simp [hpoint])
    simp only [canaryStep, hpoint]
    refine ⟨le_rfl, fun x hx => ?_, fun _ b hb x hx => ?_, fun _ m since hm _ => ?_,
      fun _ _ => hmodel', fun _ => Point.noConfusion⟩
    · rw [List.getLast?_concat] at hx
      rw [← Option.some.inj hx]
    · rw [List.getLast?_concat] at hx
      rw [← Option.some.inj hx]
      exact Option.some.inj ((htimed a hpoint).symm.trans hb)
    · have hm' := hmodel' m (AList.lookup_isSome.mp (by simp [hm]))
      exact ⟨(s.asks, ⟨s.now, a⟩), by simp, hm'.symm⟩

theorem canaryStep_complete (score : Option ℚ) (s : System) :
    s.complete ⊆ (canaryStep score s).complete := by
  unfold canaryStep
  split
  · split
    · exact List.Subset.refl _
    · split <;> exact List.Subset.refl _
  all_goals first | exact List.Subset.refl _ | exact List.subset_append_left _ _

theorem canaryStep_other (score : Option ℚ) (s : System) :
    (canaryStep score s).scrapes = s.scrapes ∧ (canaryStep score s).rounds = s.rounds := by
  unfold canaryStep
  split
  · split
    · exact ⟨rfl, rfl⟩
    · split <;> exact ⟨rfl, rfl⟩
  all_goals exact ⟨rfl, rfl⟩

/-- A scrape that is not taken halfway through an update shows a complete round of the model. -/
theorem System.Published.round (h : s.Published) (hwhole : s.point.halfDone = false) {since a : ℚ}
    (hmodel : s.gauges.model.lookup name = some since) (hscore : s.gauges.accuracy = some a)
    (hlt : since < s.gauges.lastRun) : (name, ⟨s.gauges.lastRun, a⟩) ∈ s.complete := by
  have hstamping : s.point ≠ .stamping := by
    rintro heq
    simp [heq, Point.halfDone] at hwhole
  have htiming (b : ℚ) : s.point ≠ .timing b := by
    rintro heq
    simp [heq, Point.halfDone] at hwhole
  obtain ⟨⟨m, x⟩, hx, hm⟩ := h.asked hstamping name since hmodel hlt
  obtain rfl : m = name := hm
  rw [← h.finished _ hx, ← h.score htiming a hscore _ hx]
  exact List.mem_of_getLast? hx

end Published

/-! ## What the watch records -/

section Run
variable {name : String} {s : System} {a : Action} {actions : List Action}

/-- What the scrapes and the watch have is of complete rounds. -/
structure Inv (name : String) (s : System) : Prop extends s.Published where
  scraped : ∀ x ∈ s.scrapes, x.point.halfDone = false → ∀ since score,
    x.gauges.model.lookup name = some since → x.gauges.accuracy = some score →
    since < x.gauges.lastRun → (name, ⟨x.gauges.lastRun, score⟩) ∈ s.complete
  increasing : (s.rounds.map (·.finishedAt)).Pairwise (· < ·)
  real : ∀ x ∈ s.rounds, (name, x) ∈ s.complete

theorem System.Initial.inv (h : s.Initial) : Inv name s where
  toPublished := h.published
  scraped := by simp [h.scrapes]
  increasing := by simp [h.rounds]
  real := by simp [h.rounds]

/-- The watch changes nothing but what it knows. -/
theorem watchStep_inv (h : Inv name s) (hwhole : Whole name s .watch) :
    Inv name (watchStep name s) := by
  cases hstage : s.stage with
  | start | switched | scored | normal =>
    simp only [watchStep, hstage]
    exact ⟨⟨h.lastRun_le, h.finished, h.score, h.asked, h.model, h.timed⟩, h.scraped, h.increasing,
      h.real⟩
  | read r =>
    simp only [watchStep, hstage]
    refine ⟨⟨h.lastRun_le, h.finished, h.score, h.asked, h.model, h.timed⟩, h.scraped,
      addRound_pairwise h.increasing, fun x hx => ?_⟩
    simp only [Whole, hstage] at hwhole
    rcases addRound_cases s.rounds r with
      heq | ⟨since, y, heq, hsince, hscore, hlast, hlt, -⟩
    · exact h.real x (heq ▸ hx)
    · obtain ⟨z, hz, hz', hswitched, haccuracy, hlast'⟩ := hwhole (by simp [heq])
      rcases List.mem_append.mp (heq ▸ hx) with hx | hx
      · exact h.real x hx
      · obtain rfl := List.mem_singleton.mp hx
        have htime : x.finishedAt = z.gauges.lastRun := Option.some.inj (hlast.symm.trans hlast')
        have hround := h.scraped z hz hz' since x.accuracy (hswitched.symm.trans hsince)
          (haccuracy.symm.trans hscore) (htime ▸ hlt)
        rwa [← htime] at hround

/-- One step of an interleaving. -/
theorem step_inv (h : Inv name s) (hwhole : Whole name s a) : Inv name (step name s a) := by
  cases a with
  | tick time =>
    exact ⟨⟨h.lastRun_le.trans (le_max_left _ _), h.finished, h.score, h.asked, h.model, h.timed⟩,
      h.scraped, h.increasing, h.real⟩
  | point current =>
    exact ⟨⟨h.lastRun_le, h.finished, h.score, h.asked, h.model, h.timed⟩, h.scraped, h.increasing,
      h.real⟩
  | canary score =>
    have hmono := canaryStep_complete score s
    obtain ⟨hscrapes, hrounds⟩ := canaryStep_other score s
    refine ⟨canaryStep_published h.toPublished, ?_, ?_, ?_⟩
    · rw [step, hscrapes]
      exact fun x hx hx' since b hsince hb hlt => hmono (h.scraped x hx hx' since b hsince hb hlt)
    · rw [step, hrounds]
      exact h.increasing
    · rw [step, hrounds]
      exact fun x hx => hmono (h.real x hx)
  | scrape =>
    refine ⟨⟨h.lastRun_le, h.finished, h.score, h.asked, h.model, h.timed⟩, fun x hx => ?_,
      h.increasing, h.real⟩
    rcases List.mem_cons.mp hx with rfl | hx
    · exact fun hwhole since b hsince hb hlt => h.round hwhole hsince hb hlt
    · exact h.scraped x hx
  | watch => exact watchStep_inv h hwhole

theorem run_inv (h : Inv name s) (hwhole : AllWhole name s actions) :
    Inv name (run name s actions) := by
  induction actions generalizing s with
  | nil => exact h
  | cons a actions ih => exact ih (step_inv h hwhole.1) hwhole.2

end Run

/-- The complete rounds of a model. -/
def System.completeOf (s : System) (name : String) : List Round :=
  (s.complete.filter (·.1 = name)).map (·.2)

/-- In every interleaving in which the rounds are recorded from whole scrapes, those recorded are
complete rounds of the new model, each with its own finish time and score, and none is there
twice. -/
theorem rounds_subperm {name : String} {s : System} (h : s.Initial) {actions : List Action}
    (hwhole : AllWhole name s actions) :
    ((run name s actions).rounds.map (·.finishedAt)).Pairwise (· < ·) ∧
    (run name s actions).rounds.Subperm ((run name s actions).completeOf name) := by
  have hinv := run_inv h.inv hwhole
  refine ⟨hinv.increasing, List.subperm_of_subset ?_ fun x hx => ?_⟩
  · exact List.Nodup.of_map _ (hinv.increasing.imp ne_of_lt)
  · exact List.mem_map.mpr ⟨(name, x), List.mem_filter.mpr ⟨hinv.real x hx, by simp⟩, rfl⟩

/-- The canary, asking the champion. -/
def champion : System where
  now := 0
  current := none
  point := .following
  asks := "v3"
  expected := 4 / 5
  gauges := ⟨none, 0, 4 / 5, Dict.set ∅ "v3" 0⟩
  complete := []
  scrapes := []
  stage := .start
  rounds := []

theorem champion_initial : champion.Initial where
  point := rfl
  accuracy := rfl
  lastRun := le_rfl
  model := ⟨0, le_rfl, rfl⟩
  complete := rfl
  scrapes := rfl
  stage := rfl
  rounds := rfl

/-- The canary switches to a model at 10, and asks it until 20. -/
def switch (model : String) : List Action :=
  [.point (some (model, 4 / 5)), .tick 10] ++ List.replicate 5 (.canary none) ++
    [.canary (some (4 / 5)), .tick 20, .canary none, .canary none]

/-- A scrape after the round. -/
theorem rounds_subperm_switch :
    (run "run1" champion (switch "run1" ++ [.scrape] ++ List.replicate 5 .watch)).rounds.Subperm
      ((run "run1" champion (switch "run1" ++ [.scrape] ++ List.replicate 5 .watch)).completeOf
        "run1") :=
  (rounds_subperm champion_initial (by decide +kernel)).2

/-- A scrape between the score and the finish time of the next round: the score of the second is
recorded with the finish time of the first, and then with its own. -/
theorem rounds_mixed :
    champion.Initial ∧
    let s := run "run1" champion (switch "run1" ++ [.canary none, .canary (some (1 / 2)), .tick 30,
      .canary none, .scrape] ++ List.replicate 5 .watch ++ [.canary none, .scrape] ++
      List.replicate 5 .watch)
    s.rounds = [⟨20, 1 / 2⟩, ⟨30, 1 / 2⟩] ∧ s.completeOf "run1" = [⟨20, 4 / 5⟩, ⟨30, 1 / 2⟩] ∧
      ¬ s.rounds.Subperm (s.completeOf "run1") :=
  ⟨champion_initial, by decide +kernel⟩

end Canary

end LightServe
