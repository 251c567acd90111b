import LightServe.Mlops.Registry

/-!
# Registering once

However often a registration is cut off and started again, an attempt that completes leaves
exactly one version of the run, the versions before it as they were, and the champion label at
the run's version if that was asked for.

## Main definitions

* `Registry.Progress` — what an attempt may have done of a registration.
* `registerOnce_of_retries` — what the attempts that end with a completed one have done.
-/

namespace LightServe

open Registry

/-! ## The facts of a version -/

private theorem lookup_foldl_set {k : String} (items : List (String × String))
    (d : Dict String String) (h : k ∉ items.map Prod.fst) :
    (items.foldl (fun d kv => d.set kv.1 kv.2) d).lookup k = d.lookup k := by
  induction items generalizing d with
  | nil => rfl
  | cons item items ih =>
    rw [List.map_cons, List.mem_cons, not_or] at h
    rw [List.foldl_cons, ih _ h.2, Dict.lookup_set_ne d _ h.1]

/-- A version carries the name of its run. -/
theorem Adapter.lookup_facts (a : Adapter) {tags : List (String × String)}
    (h : "version_name" ∉ tags.map Prod.fst) :
    (dictOf (a.facts tags)).lookup "version_name" = some a.versionName := by
  have hrest : "version_name" ∉ ((a.facts tags).tail).map Prod.fst := by
    have hacc : ∀ k : String, "acc." ++ k ≠ "version_name" := fun k hk => by
      have := congrArg String.toList hk
      simp at this
    have hdata : ∀ k suffix : String,
        "version_name" ≠ "data." ++ k ++ suffix := fun k suffix hk => by
      have := congrArg String.toList hk
      simp at this
    simpa [Adapter.facts, Adapter.lineage, hacc, hdata] using h
  have hcons : a.facts tags = ("version_name", a.versionName) :: (a.facts tags).tail := rfl
  rw [hcons, dictOf, List.foldl_cons, lookup_foldl_set _ _ hrest, Dict.lookup_set_self]

/-! ## One attempt -/

section Attempt
variable {mlflow : Mlflow} {a : Adapter} {champion : Bool} {tags : List (String × String)}
  {s : Registry} {mv : ModelVersion}

/-- A registration that finds its version writes nothing. -/
theorem register_of_found (h : s.versions.find? (ModelVersion.named a.versionName) = some mv) :
    (register mlflow a champion tags).Runs s (· = s) fun r s' =>
      r = .error (.alreadyRegistered a.versionName mv.version) ∧ s' = s := by
  refine .bind_look ?_
  rw [h]
  exact .of_throw rfl ⟨rfl, rfl⟩

theorem logRun_same : (logRun a).Runs s s.Same fun r s' => r = .ok () ∧ s.Same s' := by
  have hlog : ∀ t, s.Same t → (Process.modify fun s => { s with
      runs := s.runs ++ ["register-" ++ a.versionName] } : RegistryProcess Unit).Runs t s.Same
        fun r s' => r = .ok () ∧ s.Same s' := fun t ht => .of_modify ht ht ⟨rfl, ht⟩
  refine .bind_look ?_
  by_cases hexp : s.experiment = true
  · rw [if_neg (not_not.mpr hexp)]
    exact hlog s ⟨rfl, rfl⟩
  · rw [if_pos hexp]
    exact .bind_modify ⟨rfl, rfl⟩ (hlog _ ⟨rfl, rfl⟩)

theorem ensureModel_same :
    (ensureModel mlflow).Runs s s.Same fun r s' => r = .ok () ∧ s.Same s' ∧
    s'.registered = true := by
  by_cases hreg : s.registered = true
  · have hraise : (Process.atomic mlflow.createRegisteredModel : RegistryProcess Unit).Runs s s.Same
        fun r s' => r = .error .modelExists ∧ s' = s :=
      .of_raise (mlflow.createRegisteredModel_exists s hreg) ⟨rfl, rfl⟩ ⟨rfl, rfl⟩
    refine hraise.tryCatch (fun _ _ h => nomatch h.1) ?_
    rintro e s' ⟨he, rfl⟩
    cases he
    exact .of_pure ⟨rfl, rfl⟩ ⟨rfl, ⟨rfl, rfl⟩, hreg⟩
  · obtain ⟨s', hcreate, hsame, hreg'⟩ :=
      mlflow.createRegisteredModel_new s (Bool.eq_false_iff.mpr hreg)
    have hcreated :
        (Process.atomic mlflow.createRegisteredModel : RegistryProcess Unit).Runs s s.Same
        fun r s' => r = .ok () ∧ s.Same s' ∧ s'.registered = true :=
      .of_atomic hcreate ⟨rfl, rfl⟩ hsame ⟨rfl, hsame, hreg'⟩
    exact hcreated.tryCatch (fun _ _ h => h) fun _ _ h => nomatch h.1

/-- A registration that finds no version of the run creates one, and then moves the label if
that is asked for. -/
theorem register_of_new (h : s.versions.find? (ModelVersion.named a.versionName) = none)
    (htags : "version_name" ∉ tags.map Prod.fst) :
    (register mlflow a champion tags).Runs s
      (fun s' => s.Same s' ∨ ∃ v, v.named a.versionName = true ∧ s'.versions = s.versions ++ [v] ∧
        (s'.aliases = s.aliases ∨
          champion = true ∧ s'.aliases = Function.update s.aliases "champion" (some v.version)))
      fun r s' => (∃ n, r = .ok n) ∧ ∃ v, v.named a.versionName = true ∧
        s'.versions = s.versions ++ [v] ∧
        s'.aliases =
          if champion then Function.update s.aliases "champion" (some v.version)
          else s.aliases := by
  refine .bind_look ?_
  rw [h]
  refine (logRun_same.mono (fun _ => .inl) fun _ _ => id).bind ?_ fun _ _ he => nomatch he.1
  rintro _ s₁ ⟨-, hs₁⟩
  refine (ensureModel_same.mono (fun t ht => .inl ⟨ht.1.trans hs₁.1, ht.2.trans hs₁.2⟩)
    fun _ _ => id).bind ?_ fun _ _ he => nomatch he.1
  rintro _ s₂ ⟨-, hs₂, hreg⟩
  have hversions : s₂.versions = s.versions := hs₂.1.trans hs₁.1
  have haliases : s₂.aliases = s.aliases := hs₂.2.trans hs₁.2
  obtain ⟨d, hd⟩ : ∃ d, d = dictOf (a.facts tags) := ⟨_, rfl⟩
  have hname := a.lookup_facts htags
  rw [← hd] at hname ⊢
  obtain ⟨version, s₃, hcreate, hversions₃, haliases₃⟩ :=
    mlflow.createModelVersion_appends s₂ d hreg
  have hnamed : ModelVersion.named a.versionName ⟨version, d⟩ = true :=
    ModelVersion.named_of_lookup hname
  rw [hversions] at hversions₃
  rw [haliases] at haliases₃
  refine .bind_atomic hcreate (.inl ⟨hversions, haliases⟩) ?_
  cases champion with
  | false =>
    exact .of_pure (.inr ⟨_, hnamed, hversions₃, .inl haliases₃⟩)
      ⟨⟨_, rfl⟩, _, hnamed, hversions₃, haliases₃⟩
  | true =>
    obtain ⟨s₄, hmove, hversions₄, haliases₄⟩ :=
      mlflow.setRegisteredModelAlias_moves s₃ "champion" version (by simp [hversions₃])
    rw [hversions₃] at hversions₄
    rw [haliases₃] at haliases₄
    refine .bind_atomic hmove (.inr ⟨_, hnamed, hversions₃, .inl haliases₃⟩) ?_
    exact .of_pure (.inr ⟨_, hnamed, hversions₄, .inr ⟨rfl, haliases₄⟩⟩)
      ⟨⟨_, rfl⟩, _, hnamed, hversions₄, haliases₄⟩

/-- Finishing the label moves it once, and not at all when it is there already. -/
theorem finishChampion_of_one {versionName : String}
    (h : s.versions.filter (ModelVersion.named versionName) = [mv]) :
    (finishChampion mlflow versionName).Runs s
      (fun s' => s' = s ∨ s.aliases "champion" ≠ some mv.version ∧ s'.versions = s.versions ∧
        s'.aliases = Function.update s.aliases "champion" (some mv.version))
      fun r s' => (∃ n, r = .ok n) ∧ (s.aliases "champion" = some mv.version → s' = s) ∧
        s'.versions = s.versions ∧
        s'.aliases = Function.update s.aliases "champion" (some mv.version) := by
  have hmem : mv.version ∈ s.versions.map ModelVersion.version :=
    List.mem_map_of_mem (List.mem_filter.mp (h ▸ List.mem_singleton_self mv)).1
  have hheld : (tryCatch (some <$> .atomic (mlflow.getModelVersionByAlias "champion"))
      fun _ => pure none : RegistryProcess (Option ℕ)).Runs s (· = s)
        fun r s' => r = .ok (s.aliases "champion") ∧ s' = s := by
    cases hc : s.aliases "champion" with
    | none =>
      have hget : (Process.atomic (mlflow.getModelVersionByAlias "champion") :
          RegistryProcess ℕ).Runs s (· = s) fun r s' => r = .error .notFound ∧ s' = s :=
        .of_raise (mlflow.getModelVersionByAlias_none s _ hc) rfl ⟨rfl, rfl⟩
      have hraise : (some <$> .atomic (mlflow.getModelVersionByAlias "champion") :
          RegistryProcess (Option ℕ)).Runs s (· = s)
          fun r s' => r = .error .notFound ∧ s' = s := by
        refine hget.bind (fun _ _ he => nomatch he.1) ?_
        rintro e s' ⟨he, rfl⟩
        cases he
        exact ⟨rfl, rfl⟩
      refine hraise.tryCatch (fun _ _ he => nomatch he.1) ?_
      rintro e s' ⟨-, rfl⟩
      exact .of_pure rfl ⟨rfl, rfl⟩
    | some n =>
      have hget : (some <$> .atomic (mlflow.getModelVersionByAlias "champion") :
          RegistryProcess (Option ℕ)).Runs s (· = s) fun r s' => r = .ok (some n) ∧ s' = s :=
        .bind_atomic (mlflow.getModelVersionByAlias_some s _ n hc) rfl (.of_pure rfl ⟨rfl, rfl⟩)
      exact hget.tryCatch (fun _ _ he => he) fun _ _ he => nomatch he.1
  refine .bind_look ?_
  rw [h]
  refine (hheld.mono (fun _ => .inl) fun _ _ => id).bind ?_ fun _ _ he => nomatch he.1
  rintro held s' ⟨hr, rfl⟩
  cases hr
  by_cases hc : s'.aliases "champion" = some mv.version
  · rw [if_pos hc]
    refine .of_pure (.inl rfl) ⟨⟨_, rfl⟩, fun _ => rfl, rfl, ?_⟩
    rw [← hc, Function.update_eq_self]
  · obtain ⟨s₁, hmove, hversions, haliases⟩ :=
      mlflow.setRegisteredModelAlias_moves s' "champion" mv.version hmem
    rw [if_neg hc]
    refine .bind_atomic hmove (.inl rfl) ?_
    exact .of_pure (.inr ⟨hc, hversions, haliases⟩)
      ⟨⟨_, rfl⟩, fun hc' => absurd hc' hc, hversions, haliases⟩

end Attempt

/-! ## Attempts in a row -/

section Retries
variable {mlflow : Mlflow} {a : Adapter} {champion : Bool} {tags : List (String × String)}
  {s₀ s : Registry}

/-- The labels once the registration is complete. -/
def Registry.labelled (champion : Bool) (s₀ : Registry) (v : ModelVersion) : String → Option ℕ :=
  if champion then Function.update s₀.aliases "champion" (some v.version) else s₀.aliases

@[simp] theorem Registry.labelled_true (s₀ : Registry) (v : ModelVersion) :
    s₀.labelled true v = Function.update s₀.aliases "champion" (some v.version) := rfl

@[simp] theorem Registry.labelled_false (s₀ : Registry) (v : ModelVersion) :
    s₀.labelled false v = s₀.aliases := rfl

/-- The registry once the registration is complete: exactly one version of the run, the other
versions as they were, and the champion label moved if that was asked for. -/
structure Registry.Complete (a : Adapter) (champion : Bool) (s₀ s : Registry) (v : ModelVersion) :
    Prop where
  version : s.versions.filter (ModelVersion.named a.versionName) = [v]
  others : (s.versions.filter fun u => !u.named a.versionName) =
    s₀.versions.filter fun u => !u.named a.versionName
  aliases : s.aliases = s₀.labelled champion v

/-- What attempts may have done of a registration: nothing, or all but the label, or all. -/
def Registry.Progress (a : Adapter) (champion : Bool) (s₀ s : Registry) : Prop :=
  s₀.Same s ∨ ∃ v, s.versions.filter (ModelVersion.named a.versionName) = [v] ∧
    (s.versions.filter fun u => !u.named a.versionName) =
      (s₀.versions.filter fun u => !u.named a.versionName) ∧
    (s.aliases = s₀.aliases ∨ s.aliases = s₀.labelled champion v)

/-- An attempt that finds a version of the run finishes the label. -/
theorem registerOnce_of_found {v : ModelVersion}
    (h : s.versions.filter (ModelVersion.named a.versionName) = [v]) :
    (registerOnce mlflow a champion tags).Runs s
      (fun s' => s' = s ∨ s.aliases ≠ s.labelled champion v ∧ s'.versions = s.versions ∧
        s'.aliases = s.labelled champion v)
      fun r s' => r = .ok () ∧ (s.aliases = s.labelled champion v → s' = s) ∧
        s'.versions = s.versions ∧ s'.aliases = s.labelled champion v := by
  have hfind : s.versions.find? (ModelVersion.named a.versionName) = some v := by
    rw [← List.head?_filter, h]
    rfl
  have hregister : (Functor.discard (register mlflow a champion tags) : RegistryProcess Unit).Runs s
      (· = s) fun r s' => r = .error (.alreadyRegistered a.versionName v.version) ∧ s' = s :=
    (register_of_found hfind).discard (fun _ _ he => nomatch he.1) fun e s' he =>
      ⟨congrArg _ (Except.error.inj he.1), he.2⟩
  refine (hregister.mono (fun _ => .inl) fun _ _ => id).tryCatch (fun _ _ he => nomatch he.1) ?_
  rintro e s' ⟨he, rfl⟩
  cases he
  cases champion with
  | false => exact .of_pure (.inl rfl) ⟨rfl, fun _ => rfl, rfl, rfl⟩
  | true =>
    have hmoved : s'.aliases = s'.labelled true v ↔ s'.aliases "champion" = some v.version := by
      rw [labelled_true, Function.eq_update_iff]
      simp
    refine ((finishChampion_of_one h).mono (fun t ht => ht.imp_right fun ht =>
      ⟨fun hc => ht.1 (hmoved.mp hc), ht.2⟩) fun _ _ => id).discard ?_ fun _ _ he => nomatch he.1
    rintro n t ⟨-, hsame, hversions, haliases⟩
    exact ⟨rfl, fun hc => hsame (hmoved.mp hc), hversions, haliases⟩

private theorem filter_concat {l : List ModelVersion} {n : String} {v : ModelVersion}
    (h : v.named n = true) :
    ((l ++ [v]).filter fun u => !u.named n) = l.filter fun u => !u.named n := by
  rw [List.filter_append, List.filter_singleton, h]
  simp

/-- An attempt that finds no version of the run creates it. -/
theorem registerOnce_of_new (h : s.versions.filter (ModelVersion.named a.versionName) = [])
    (htags : "version_name" ∉ tags.map Prod.fst) :
    (registerOnce mlflow a champion tags).Runs s (Progress a champion s)
      fun r s' => r = .ok () ∧ ∃ v, Complete a champion s s' v := by
  have hfind : s.versions.find? (ModelVersion.named a.versionName) = none := by
    rw [← List.head?_filter, h]
    rfl
  have hone : ∀ v : ModelVersion, v.named a.versionName = true →
      (s.versions ++ [v]).filter (ModelVersion.named a.versionName) = [v] := by
    intro v hv
    rw [List.filter_append, h, List.nil_append, List.filter_singleton, hv]
    rfl
  have hregister : (Functor.discard (register mlflow a champion tags) : RegistryProcess Unit).Runs s
      (Progress a champion s) fun r s' => r = .ok () ∧ ∃ v, Complete a champion s s' v := by
    refine ((register_of_new hfind htags).mono ?_ fun _ _ => id).discard ?_
      fun _ _ he => nomatch he.1.choose_spec
    · rintro t (ht | ⟨v, hv, hversions, haliases⟩)
      · exact .inl ht
      · refine .inr ⟨v, hversions ▸ hone v hv, hversions ▸ filter_concat hv, ?_⟩
        refine haliases.imp_right fun ⟨hc, ha⟩ => ?_
        rw [ha, Registry.labelled, if_pos hc]
    · rintro n t ⟨-, v, hv, hversions, haliases⟩
      exact ⟨rfl, v, hversions ▸ hone v hv, hversions ▸ filter_concat hv, haliases⟩
  exact hregister.tryCatch (fun _ _ he => he) fun _ _ he => nomatch he.1

/-- What attempts have done of a registration says how many versions of the run there are, and
where the label ends up. -/
theorem Registry.Progress.cases (h : Progress a champion s₀ s)
    (hone : (s₀.versions.filter (ModelVersion.named a.versionName)).length ≤ 1) :
    (s₀.Same s ∧ s.versions.filter (ModelVersion.named a.versionName) = []) ∨
    ∃ v, s.versions.filter (ModelVersion.named a.versionName) = [v] ∧
      ((s.versions.filter fun u => !u.named a.versionName) =
        s₀.versions.filter fun u => !u.named a.versionName) ∧
      (s.aliases = s₀.aliases ∨ s.aliases = s₀.labelled champion v) ∧
      s.labelled champion v = s₀.labelled champion v := by
  rcases h with ⟨hversions, haliases⟩ | ⟨v, hv, hothers, haliases⟩
  · cases hnamed : s.versions.filter (ModelVersion.named a.versionName) with
    | nil => exact .inl ⟨⟨hversions, haliases⟩, rfl⟩
    | cons v rest =>
      rw [← hversions, hnamed, List.length_cons] at hone
      obtain rfl : rest = [] := List.length_eq_zero_iff.mp (by omega)
      exact .inr ⟨v, rfl, by rw [hversions], .inl haliases, by rw [labelled, haliases, ← labelled]⟩
  · refine .inr ⟨v, hv, hothers, haliases, ?_⟩
    rcases haliases with ha | ha
    · rw [labelled, ha, ← labelled]
    · cases champion with
      | false => exact ha
      | true => rw [labelled_true, ha, labelled_true, Function.update_idem]

/-- An attempt completes the registration, from wherever earlier ones were cut off. -/
theorem Registry.Progress.runs (h : Progress a champion s₀ s)
    (hone : (s₀.versions.filter (ModelVersion.named a.versionName)).length ≤ 1)
    (htags : "version_name" ∉ tags.map Prod.fst) :
    (registerOnce mlflow a champion tags).Runs s (Progress a champion s₀)
      fun r s' => r = .ok () ∧ ∃ v, Complete a champion s₀ s' v := by
  rcases h.cases hone with ⟨⟨hversions, haliases⟩, hnone⟩ | ⟨v, hv, hothers, haliases, hlabel⟩
  · refine (registerOnce_of_new hnone htags).mono (fun t ht => ?_) fun r t ht => ?_
    · simpa only [Progress, Same, labelled, hversions, haliases] using ht
    · obtain ⟨hr, v, hc⟩ := ht
      refine ⟨hr, v, hc.version, by rw [hc.others, hversions], ?_⟩
      rw [hc.aliases, labelled, labelled, haliases]
  · refine (registerOnce_of_found hv).mono (fun t ht => ?_) fun r t ht => ?_
    · rcases ht with rfl | ⟨-, hversions, ha⟩
      · exact h
      · exact .inr ⟨v, hversions ▸ hv, hversions ▸ hothers, .inr (ha.trans hlabel)⟩
    · obtain ⟨hr, -, hversions, ha⟩ := ht
      exact ⟨hr, v, hversions ▸ hv, hversions ▸ hothers, ha.trans hlabel⟩

/-- A complete registration is left alone. -/
theorem Registry.Complete.runs {v : ModelVersion} (h : Complete a champion s₀ s v) :
    (registerOnce mlflow a champion tags).Runs s (· = s) fun r s' => r = .ok () ∧ s' = s := by
  have hlabel : s.aliases = s.labelled champion v := by
    cases champion with
    | false => rfl
    | true =>
      have ha := h.aliases
      rw [labelled_true] at ha ⊢
      rw [ha, Function.update_idem]
  exact (registerOnce_of_found h.version).mono
    (fun t ht => ht.elim id fun hne => absurd hlabel hne.1) fun r t ht => ⟨ht.1, ht.2.1 hlabel⟩

/-- However often a registration was cut off, an attempt that is not completes it: there is
exactly one version of the run, the other versions are as they were, and the champion label is
at the run's version if that was asked for, and otherwise where it was. Further attempts, cut
off or not, change nothing. -/
theorem registerOnce_of_retries
    (hone : (s₀.versions.filter (ModelVersion.named a.versionName)).length ≤ 1)
    (htags : "version_name" ∉ tags.map Prod.fst) (cuts : List ℕ) : ∃ s v,
    (registerOnce mlflow a champion tags).outcome
        ((registerOnce mlflow a champion tags).retry cuts s₀) = (.ok (), s) ∧
      Complete a champion s₀ s v ∧
      (∀ further, (registerOnce mlflow a champion tags).retry further s = s) ∧
      (registerOnce mlflow a champion tags).outcome s = (.ok (), s) := by
  have hprogress : Progress a champion s₀ ((registerOnce mlflow a champion tags).retry cuts s₀) :=
    Process.retry_induction (motive := Progress a champion s₀)
      (fun s hs => (hs.runs hone htags).stops) cuts (.inl ⟨rfl, rfl⟩)
  have hlast : (registerOnce mlflow a champion tags).Runs _ _ _ := hprogress.runs hone htags
  obtain ⟨hok, v, hcomplete⟩ := hlast.outcome
  have hdone : (registerOnce mlflow a champion tags).Runs _ _ _ := hcomplete.runs
  refine ⟨_, v, Prod.ext hok rfl, hcomplete, fun further => ?_, Prod.ext hdone.outcome.1
    hdone.outcome.2⟩
  exact Process.retry_induction (motive := (· = _)) (fun s hs s' hs' => by
    subst hs
    exact hdone.stops s' hs') further rfl

end Retries

/-- A registration that is cut off with its version created and the label not moved. -/
theorem registerOnce_of_retries_cut : ∃ (a : Adapter) (s₀ s : Registry) (v : ModelVersion),
    s₀.versions = [] ∧
      (registerOnce numbered a true [("pool_data_dir", "full")]).outcome
        ((registerOnce numbered a true [("pool_data_dir", "full")]).retry [6] s₀) = (.ok (), s) ∧
      s.versions.filter (ModelVersion.named a.versionName) = [v] ∧
      s.aliases "champion" = some v.version := by
  set a : Adapter :=
    { versionName := "run1", samples := "answers.jsonl", adapterPath := "adapter"
      baseModel := "base", loraR := "16", loraAlpha := "32", gitCommit := "unknown"
      dataDir := "data", splits := []
      accuracies := [("ALL", "0.8")], nScored := "300" }
  set s₀ : Registry :=
    { registered := false, versions := [], aliases := fun _ => none, experiment := false, runs := []
      versions_nodup := List.nodup_nil }
  obtain ⟨s, v, hrun, hcomplete, -⟩ := @registerOnce_of_retries numbered a true
    [("pool_data_dir", "full")] s₀ (Nat.zero_le _) (by decide) [6]
  refine ⟨a, s₀, s, v, rfl, hrun, hcomplete.version, ?_⟩
  rw [hcomplete.aliases, labelled_true, Function.update_self]

end LightServe
