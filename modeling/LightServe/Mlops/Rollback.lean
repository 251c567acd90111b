import LightServe.Mlops.Deploy

/-!
# Rolling back a deploy

Both tasks may be cut off anywhere and started again. An attempt of `deploy` that comes after one
that had moved the pointer finds the candidate there and records it as its own previous model, so
a rollback undoes a deploy exactly if no earlier attempt had come that far.

## Main definitions

* `PipelineState.currentModel` — the model that the pointer names.
* `rollback_undoes_iff` — when a rollback undoes a deploy.
-/

namespace LightServe

open Process (look atomic stops outcome)

/-- The current model: the pointer's or, without a pointer file, the champion. -/
def PipelineState.currentModel (s : PipelineState) : Option String :=
  match s.current with
  | some pointer => some pointer.model
  | none => (championInfo s.registry).map fun champ => champ.model

/-! ## The pointer -/

section SetCurrent
variable {s : PipelineState} {new champ : ModelEntry}

/-- Once the pointer is moved: the model before it is its previous one. -/
def PipelineState.moved (new champ : ModelEntry) (s : PipelineState) : PipelineState :=
  { s with
    current := some { new with previous := some (readCurrent champ s).toModelEntry }
    tmp := none }

/-- A reader sees the pointer before or the pointer after, and nothing else changes. -/
theorem setCurrent_runs (crash : PipelineState → Prop)
    (hcrash : ∀ tmp, crash { s with tmp }) (hmoved : crash (s.moved new champ)) :
    (setCurrent new champ).Runs s crash fun r s' => r = .ok () ∧ s' = s.moved new champ := by
  refine .bind_look (.bind_modify (hcrash s.tmp) ?_)
  exact .of_modify (hcrash _) hmoved ⟨rfl, rfl⟩

end SetCurrent

/-! ## Deploy -/

section Deploy
variable {s : PipelineState} {champ : ChampionInfo} {candidate : ModelEntry} {cuts : List ℕ}

/-- There is a champion and the candidate is loaded. -/
def PipelineState.Ready (candidate : ModelEntry) (champ : ChampionInfo) (s : PipelineState) :
    Prop :=
  championInfo s.registry = some champ ∧ candidate.model ∈ s.loaded

/-- Where an attempt may be cut off: five of its seven stops are before the pointer is moved. -/
theorem deploy_stops (h : s.Ready candidate champ) :
    (deploy candidate).stops s =
      [s, s, s, s,
        { s with tmp := some { candidate with
          previous := some (readCurrent champ.toModelEntry s).toModelEntry } },
        s.moved candidate champ.toModelEntry,
        { s.moved candidate champ.toModelEntry with approved := true }] := by
  obtain ⟨hchamp, hloaded⟩ := h
  simp [deploy, champion, setCurrent, look, Process.modify, atomic, Bind.bind, Process.bind, stops,
    hchamp, hloaded, PipelineState.moved]

theorem deploy_outcome (h : s.Ready candidate champ) :
    (deploy candidate).outcome s =
      (.ok (), { s.moved candidate champ.toModelEntry with approved := true }) := by
  obtain ⟨hchamp, hloaded⟩ := h
  simp [deploy, champion, setCurrent, look, Process.modify, atomic, Bind.bind,
    Process.bind, outcome,
    hchamp, hloaded, PipelineState.moved]

/-- An attempt that succeeds, or that is cut off after it wrote anything, found the pipeline
ready. -/
theorem deploy_of_not_ready (h : ∀ champ, ¬ s.Ready candidate champ) :
    (deploy candidate).Runs s (· = s) fun r s' => r ≠ .ok () ∧ s' = s := by
  cases hchamp : championInfo s.registry with
  | none =>
    have hraise : champion.Runs s (· = s) fun r s' => (∃ e, r = .error e) ∧ s' = s :=
      .of_raise (by rw [hchamp]) rfl ⟨⟨_, rfl⟩, rfl⟩
    refine hraise.bind (fun _ _ hr => nomatch hr.1.choose_spec) fun e s' hr => ⟨?_, hr.2⟩
    exact fun he => nomatch he
  | some champ =>
    have hloaded : candidate.model ∉ s.loaded := fun hl => h champ ⟨hchamp, hl⟩
    refine .bind_atomic (by rw [hchamp]) rfl (.bind_look ?_)
    rw [if_pos hloaded]
    exact .of_throw rfl ⟨(nomatch ·), rfl⟩

/-- Whether the pointer names the candidate. -/
def PipelineState.Named (name : String) (s : PipelineState) : Prop :=
  ∃ pointer, s.current = some pointer ∧ pointer.model = name

/-- Once the pointer names the candidate, no attempt changes that. -/
theorem deploy_keeps (h : s.Ready candidate champ) (hnamed : s.Named candidate.model) :
    ∀ s' ∈ (deploy candidate).stops s, s'.Ready candidate champ ∧ s'.Named candidate.model := by
  intro s' hs'
  rw [deploy_stops h] at hs'
  simp only [List.mem_cons, List.not_mem_nil, or_false] at hs'
  rcases hs' with rfl | rfl | rfl | rfl | rfl | rfl | rfl
  iterate 5 exact ⟨h, hnamed⟩
  all_goals exact ⟨h, _, rfl, rfl⟩

/-- An attempt that is cut off before the pointer is moved leaves it, and a later cut finds it at
the candidate. -/
theorem deploy_cut (h : s.Ready candidate champ) (n : ℕ) :
    ((deploy candidate).cut n s).Ready candidate champ ∧
      (n < 5 → ((deploy candidate).cut n s).current = s.current) ∧
      (5 ≤ n → ((deploy candidate).cut n s).Named candidate.model) := by
  rw [Process.cut, deploy_stops h, deploy_outcome h]
  rcases n with _ | _ | _ | _ | _ | _ | _ | n
  any_goals exact ⟨h, fun _ => rfl, fun hn => absurd hn (by decide)⟩
  all_goals exact ⟨h, fun hn => absurd hn (by omega), fun _ => ⟨_, rfl, rfl⟩⟩

/-- After attempts that were cut off before the pointer was moved it is as it was, and after
others it names the candidate. -/
theorem deploy_retry (h : s.Ready candidate champ) (cuts : List ℕ) :
    ((deploy candidate).retry cuts s).Ready candidate champ ∧
      ((∀ n ∈ cuts, n < 5) → ((deploy candidate).retry cuts s).current = s.current) ∧
      (¬ (∀ n ∈ cuts, n < 5) → ((deploy candidate).retry cuts s).Named candidate.model) := by
  induction cuts generalizing s with
  | nil => exact ⟨h, fun _ => rfl, fun hc => absurd (fun n hn => nomatch hn) hc⟩
  | cons n cuts ih =>
    obtain ⟨hready, hearly, hlate⟩ := deploy_cut h n
    by_cases hn : n < 5
    · obtain ⟨hready', hsame, hmoved⟩ := ih hready
      refine ⟨hready', fun hc => ?_, fun hc => hmoved fun hc' => hc ?_⟩
      · exact (hsame fun m hm => hc m (List.mem_cons_of_mem n hm)).trans (hearly hn)
      · exact List.forall_mem_cons.mpr ⟨hn, hc'⟩
    · have hkeep := Process.retry_induction
        (motive := fun s : PipelineState => s.Ready candidate champ ∧ s.Named candidate.model)
        (fun s hs => deploy_keeps hs.1 hs.2) cuts ⟨hready, hlate (by omega)⟩
      exact ⟨hkeep.1, fun hc => absurd (hc n List.mem_cons_self) hn, fun _ => hkeep.2⟩

end Deploy

/-! ## Rollback -/

section Rollback
variable {mlflow : Mlflow} {a : Adapter} {why old : String} {s : PipelineState}

/-- The model before the candidate is still to be found: in the pointer that names the candidate
or, once that is switched back, as the current model. -/
def PipelineState.Recoverable (name old : String) (s : PipelineState) : Prop :=
  ∃ pointer, s.current = some pointer ∧
    ((pointer.model = name ∧ ∃ previous, pointer.previous = some previous ∧ previous.model = old) ∨
      (pointer.model = old ∧ old ≠ name))

/-- The rest of the pipeline does not matter. -/
theorem PipelineState.Recoverable.of_current {name : String} {s' : PipelineState}
    (h : s.Recoverable name old) (hs : s'.current = s.current) : s'.Recoverable name old := by
  unfold Recoverable
  rwa [hs]

/-- Switching back happens once. -/
theorem switchBack_runs {name : String} {champ : ModelEntry} (h : s.Recoverable name old) :
    (switchBack name champ).Runs s (·.Recoverable name old)
      fun r s' => r = .ok () ∧ s'.Recoverable name old ∧ s'.Named old := by
  obtain ⟨pointer, hcurrent, hpointer⟩ := id h
  have hread : readCurrent champ s = pointer := by rw [readCurrent, hcurrent, Option.getD_some]
  refine .bind_look ?_
  rw [hread]
  rcases hpointer with ⟨hname, previous, hprevious, hold⟩ | ⟨hold, hne⟩
  · rw [if_pos hname, hprevious]
    have hmoved : (s.moved previous champ).Recoverable name old := by
      refine ⟨_, rfl, ?_⟩
      by_cases heq : old = name
      · exact .inl ⟨hold.trans heq, _, rfl, by rw [hread, hname, heq]⟩
      · exact .inr ⟨hold, heq⟩
    refine (setCurrent_runs _ (fun _ => h) hmoved).mono (fun _ => id) ?_
    rintro r s' ⟨hr, rfl⟩
    exact ⟨hr, hmoved, _, rfl, hold⟩
  · rw [if_neg fun he => hne (hold.symm.trans he)]
    exact .of_pure h ⟨rfl, h, pointer, hcurrent, hold⟩

/-- The pointer stays where it is. -/
theorem unloadCandidate_runs (name : String) :
    (unloadCandidate name).Runs s (·.current = s.current) fun _ s' => s'.current = s.current := by
  refine .bind_look ?_
  by_cases hloaded : name ∈ s.loaded
  · rw [if_pos hloaded]
    exact .of_modify rfl rfl rfl
  · rw [if_neg hloaded]
    exact .of_pure rfl rfl

theorem recordRejected_runs (champ : ChampionInfo) :
    (recordRejected mlflow a champ why).Runs s (·.current = s.current)
      fun _ s' => s'.current = s.current := by
  have hstops : ∀ s' ∈ (recordRejected mlflow a champ why).stops s, s'.current = s.current := by
    intro s' hs'
    rw [recordRejected, Process.stops_mapError] at hs'
    refine Process.stops_zoom ?_ hs'
    exact fun _ _ => rfl
  exact ⟨hstops, hstops _ (Process.outcome_mem_stops _ s)⟩

/-- Wherever a rollback is cut off the model before can be recovered, and it is current once a
rollback succeeds. -/
theorem rollback_runs (h : s.Recoverable a.versionName old) :
    (rollback mlflow a why).Runs s (·.Recoverable a.versionName old)
      fun r s' => r = .ok () → s'.Named old := by
  cases hchamp : championInfo s.registry with
  | none =>
    have hraise : champion.Runs s (·.Recoverable a.versionName old) fun r _ => ∃ e, r = .error e :=
      .of_raise (by rw [hchamp]) h ⟨_, rfl⟩
    exact hraise.bind (fun _ _ hr => nomatch hr.choose_spec) fun _ _ _ he => nomatch he
  | some champ =>
    refine .bind_atomic (by rw [hchamp]) h ?_
    refine ((switchBack_runs h).mono (fun _ => id) fun _ _ => id).bind ?_
      fun _ _ _ he => nomatch he
    rintro _ s₁ ⟨-, hs₁, hnamed⟩
    have hkeep : ∀ {s' : PipelineState}, s'.current = s₁.current →
        s'.Recoverable a.versionName old := hs₁.of_current
    refine ((unloadCandidate_runs _).mono (fun _ => hkeep) fun _ _ => id).bind ?_
      fun _ _ _ he => nomatch he
    intro _ s₂ hs₂
    refine ((recordRejected_runs champ).mono (fun _ hs => hkeep (hs.trans hs₂))
      fun _ _ => id).bind ?_ fun _ _ _ he => nomatch he
    intro _ s₃ hs₃
    have hcurrent : s₃.current = s₁.current := hs₃.trans hs₂
    refine .of_modify (hkeep hcurrent) (hkeep hcurrent) fun _ => ?_
    obtain ⟨pointer, hpointer, hold⟩ := hnamed
    exact ⟨pointer, hcurrent.trans hpointer, hold⟩

/-- However often a rollback was cut off, one that succeeds makes the previous model current. -/
theorem rollback_of_retries (h : s.Recoverable a.versionName old) {cuts : List ℕ}
    {s' : PipelineState}
    (hs' : (rollback mlflow a why).outcome ((rollback mlflow a why).retry cuts s) = (.ok (), s')) :
    s'.Named old := by
  have hruns : ∀ s : PipelineState, s.Recoverable a.versionName old →
      (rollback mlflow a why).Runs s (·.Recoverable a.versionName old)
        fun r s' => r = .ok () → s'.Named old := fun _ => rollback_runs
  have hlast := Process.retry_induction (motive := fun s : PipelineState =>
    s.Recoverable a.versionName old)
    (fun s hs => (hruns s hs).stops) cuts h
  have hdone := (hruns _ hlast).outcome
  rw [hs'] at hdone
  exact hdone rfl

end Rollback

/-! ## A deploy and its rollback -/

section Undoes
variable {mlflow : Mlflow} {a : Adapter} {why : String} {s₀ s₁ s₂ : PipelineState}
  {cuts cuts' : List ℕ}

theorem PipelineState.currentModel_eq {s : PipelineState} {champ : ChampionInfo}
    (h : championInfo s.registry = some champ) :
    s.currentModel = some (readCurrent champ.toModelEntry s).model := by
  unfold currentModel readCurrent
  cases s.current with
  | none => rw [h, Option.map_some, Option.getD_none]
  | some pointer => rw [Option.getD_some]

theorem PipelineState.Named.currentModel_eq {s : PipelineState} {name : String} (h : s.Named name) :
    s.currentModel = some name := by
  obtain ⟨pointer, hcurrent, hname⟩ := h
  rw [currentModel, hcurrent, ← hname]

/-- An attempt that succeeds says that the pipeline was ready from the start. -/
theorem ready_of_deploy {candidate : ModelEntry}
    (h : (deploy candidate).outcome ((deploy candidate).retry cuts s₀) = (.ok (), s₁)) :
    ∃ champ, s₀.Ready candidate champ := by
  by_contra hready
  have hruns := deploy_of_not_ready (not_exists.mp hready)
  have hsame : (deploy candidate).retry cuts s₀ = s₀ :=
    Process.retry_induction (motive := (· = s₀)) (fun s hs => hs ▸ hruns.stops) cuts rfl
  rw [hsame] at h
  exact hruns.outcome.1 (congrArg Prod.fst h)

/-- Once a deploy has succeeded and a rollback has, the current model is the one before the first
attempt of the deploy if and only if no attempt was cut off after it had moved the pointer. -/
theorem rollback_undoes_iff (hnew : s₀.currentModel ≠ some a.versionName)
    (hdeploy : (deploy a.candidate).outcome ((deploy a.candidate).retry cuts s₀) = (.ok (), s₁))
    (hrollback : (rollback mlflow a why).outcome ((rollback mlflow a why).retry cuts' s₁) =
      (.ok (), s₂)) :
    s₂.currentModel = s₀.currentModel ↔ ∀ n ∈ cuts, n < 5 := by
  obtain ⟨champ, hready₀⟩ := ready_of_deploy hdeploy
  obtain ⟨hready, hsame, hmoved⟩ := deploy_retry hready₀ cuts
  rw [deploy_outcome hready] at hdeploy
  have hcurrent := (congrArg (PipelineState.current ∘ Prod.snd) hdeploy).symm
  constructor
  · intro hundone
    by_contra hlate
    obtain ⟨pointer, hpointer, hname⟩ := hmoved hlate
    have hrecoverable : s₁.Recoverable a.versionName a.versionName := by
      refine ⟨_, hcurrent, .inl ⟨rfl, _, rfl, ?_⟩⟩
      rw [readCurrent, hpointer, Option.getD_some, hname]
      rfl
    rw [(rollback_of_retries hrecoverable hrollback).currentModel_eq] at hundone
    exact hnew hundone.symm
  · intro hearly
    have hrecoverable : s₁.Recoverable a.versionName (readCurrent champ.toModelEntry s₀).model := by
      refine ⟨_, hcurrent, .inl ⟨rfl, _, rfl, ?_⟩⟩
      rw [readCurrent, hsame hearly, readCurrent]
    rw [(rollback_of_retries hrecoverable hrollback).currentModel_eq,
      PipelineState.currentModel_eq hready₀.1]

end Undoes

/-! ## A retried deploy -/

/-- A run whose candidate is `run1`. -/
def retrained : Adapter :=
  { versionName := "run1", samples := "answers", adapterPath := "adapter", baseModel := "base"
    loraR := "16", loraAlpha := "32", gitCommit := "unknown", dataDir := "data", splits := []
    accuracies := [], nScored := "300" }

/-- No deploy so far, the champion is `run0`, and the candidate is loaded. -/
def beforeDeploy : PipelineState :=
  { current := none, tmp := none, loaded := ["run0", "run1"], approved := false, alerts := []
    registry :=
      { registered := true, aliases := fun _ => some 1, experiment := true, runs := []
        versions :=
          [⟨1, dictOf [("version_name", "run0"), ("data_dir", "full"), ("samples", "old")]⟩]
        versions_nodup := List.nodup_singleton _ } }

/-- Cut off before the pointer is moved: the rollback undoes the deploy. -/
theorem rollback_undoes_iff_early : ∃ s₁ s₂,
    (deploy retrained.candidate).outcome
      ((deploy retrained.candidate).retry [4] beforeDeploy) = (.ok (), s₁) ∧
    (rollback numbered retrained "worse").outcome
      ((rollback numbered retrained "worse").retry [9] s₁) = (.ok (), s₂) ∧
    s₂.currentModel = beforeDeploy.currentModel := by
  have hnew : beforeDeploy.currentModel ≠ some retrained.versionName := by decide +kernel
  refine ⟨_, _, rfl, rfl, ?_⟩
  exact (@rollback_undoes_iff numbered retrained "worse" beforeDeploy _ _ [4] [9] hnew rfl rfl).mpr
    (by decide)

/-- Cut off once the pointer is moved: after the rollback the candidate is still current. -/
theorem rollback_keeps_candidate : ∃ s₁ s₂,
    beforeDeploy.currentModel = some "run0" ∧
    (deploy retrained.candidate).outcome
      ((deploy retrained.candidate).retry [5] beforeDeploy) = (.ok (), s₁) ∧
    (rollback numbered retrained "worse").outcome s₁ = (.ok (), s₂) ∧
    s₂.currentModel = some "run1" := by
  refine ⟨_, _, ?_, rfl, rfl, ?_⟩
  · decide +kernel
  · decide +kernel

end LightServe
