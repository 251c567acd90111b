import LightServe.Lib.Dict
import LightServe.Lib.Process

/-!
# The model registry

`register` and `finish_champion` of `training/qlora_financial/registry.py`, and `register_once`
of `mlops/dags/drift_retrain.py`: an adapter becomes the next version of the served model, a
retry finds it there and only finishes the champion label. The registry is an MLflow server's: its
calls are a parameter, with what MLflow documents of them.

## Main definitions

* `Registry` — what the server keeps of the model.
* `Mlflow` — the calls of the server.
* `register`, `finishChampion`, `registerOnce` — the processes.
-/

namespace LightServe

/-- One registered adapter. -/
structure ModelVersion where
  version : ℕ
  tags : Dict String String

/-- Whether a version is a run's. -/
def ModelVersion.named (versionName : String) (v : ModelVersion) : Bool :=
  v.tags.lookup "version_name" = some versionName

theorem ModelVersion.named_of_lookup {versionName : String} {v : ModelVersion}
    (h : v.tags.lookup "version_name" = some versionName) : v.named versionName = true :=
  decide_eq_true h

/-- What the server keeps: the versions of the model and its labels, and the runs that hold the
scores. -/
structure Registry where
  /-- Whether the registered model exists. -/
  registered : Bool
  versions : List ModelVersion
  aliases : String → Option ℕ
  experiment : Bool
  runs : List String
  versions_nodup : (versions.map ModelVersion.version).Nodup

/-- Why a registry call or a registration raises. -/
inductive RegistryError
  /-- `ValueError`: "is already". -/
  | alreadyRegistered (versionName : String) (version : ℕ)
  /-- `RESOURCE_ALREADY_EXISTS`. -/
  | modelExists
  /-- No such model, version or label. -/
  | notFound
  /-- `ValueError`: not exactly one version to unpack. -/
  | notOne (found : ℕ)

namespace Registry

/-- Two registries with the same versions and labels. -/
def Same (s s' : Registry) : Prop := s'.versions = s.versions ∧ s'.aliases = s.aliases

end Registry

/-- The calls of an MLflow server, each of which is atomic, and what is documented of them. Which
number a new version has is up to the server. -/
structure Mlflow where
  createRegisteredModel : Registry → Except RegistryError (Unit × Registry)
  createModelVersion : Dict String String → Registry → Except RegistryError (ℕ × Registry)
  setRegisteredModelAlias : String → ℕ → Registry → Except RegistryError (Unit × Registry)
  getModelVersionByAlias : String → Registry → Except RegistryError (ℕ × Registry)
  createRegisteredModel_new : ∀ s, s.registered = false → ∃ s',
    createRegisteredModel s = .ok ((), s') ∧ s.Same s' ∧ s'.registered = true
  createRegisteredModel_exists : ∀ s, s.registered = true →
    createRegisteredModel s = .error .modelExists
  createModelVersion_appends : ∀ s tags, s.registered = true → ∃ version s',
    createModelVersion tags s = .ok (version, s') ∧
      s'.versions = s.versions ++ [⟨version, tags⟩] ∧ s'.aliases = s.aliases
  setRegisteredModelAlias_moves : ∀ s label, ∀ version ∈ s.versions.map ModelVersion.version,
    ∃ s', setRegisteredModelAlias label version s = .ok ((), s') ∧ s'.versions = s.versions ∧
      s'.aliases = Function.update s.aliases label (some version)
  getModelVersionByAlias_some : ∀ s label version, s.aliases label = some version →
    getModelVersionByAlias label s = .ok (version, s)
  getModelVersionByAlias_none : ∀ s label, s.aliases label = none →
    getModelVersionByAlias label s = .error .notFound

/-- What is known of an adapter: its scores by source, and its lineage. -/
structure Adapter where
  versionName : String
  samples : String
  adapterPath : String
  baseModel : String
  loraR : String
  loraAlpha : String
  gitCommit : String
  dataDir : String
  /-- Content hash and row count by data split. -/
  splits : List (String × String × String)
  accuracies : List (String × String)
  nScored : String

namespace Adapter

/-- Where a version came from. -/
def lineage (a : Adapter) : List (String × String) :=
  [("base_model", a.baseModel), ("lora_r", a.loraR), ("lora_alpha", a.loraAlpha),
    ("git_commit", a.gitCommit), ("data_dir", a.dataDir)] ++
  a.splits.flatMap fun (split, sha256, rows) =>
    [("data." ++ split ++ ".sha256", sha256), ("data." ++ split ++ ".rows", rows)]

/-- The facts of a version, in the order in which they are merged; a later one of the same key
replaces an earlier one. -/
def facts (a : Adapter) (tags : List (String × String)) : List (String × String) :=
  [("version_name", a.versionName), ("samples", a.samples), ("adapter_path", a.adapterPath)] ++
    a.lineage ++ a.accuracies.map (fun (k, v) => ("acc." ++ k, v)) ++
    [("n_scored", a.nScored)] ++ tags

end Adapter

/-- A dictionary from its items. -/
def dictOf (items : List (String × String)) : Dict String String :=
  items.foldl (fun d kv => d.set kv.1 kv.2) ∅

/-- A process over the registry. -/
abbrev RegistryProcess := Process Registry RegistryError

/-- Find or create the experiment, and start a run in it with the scores, the lineage, the
training data and the adapter. -/
def logRun (a : Adapter) : RegistryProcess Unit := do
  if ¬ (← .look Registry.experiment) then .modify fun s => { s with experiment := true }
  .modify fun s => { s with runs := s.runs ++ ["register-" ++ a.versionName] }

/-- Find or create the registered model. -/
def ensureModel (mlflow : Mlflow) : RegistryProcess Unit :=
  try .atomic mlflow.createRegisteredModel catch
    | .modelExists => pure ()
    | e => throw e

/-- Register one adapter as the next version. Nothing is written before it is known to be new. -/
def register (mlflow : Mlflow) (a : Adapter) (champion : Bool) (tags : List (String × String)) :
    RegistryProcess ℕ := do
  match (← .look Registry.versions).find? (ModelVersion.named a.versionName) with
  | some mv => throw (.alreadyRegistered a.versionName mv.version)
  | none => do
    logRun a
    ensureModel mlflow
    let version ← .atomic (mlflow.createModelVersion (dictOf (a.facts tags)))
    if champion then .atomic (mlflow.setRegisteredModelAlias "champion" version)
    return version

/-- Point the champion label at an already registered version. -/
def finishChampion (mlflow : Mlflow) (versionName : String) : RegistryProcess ℕ := do
  match (← .look Registry.versions).filter (ModelVersion.named versionName) with
  | [mv] => do
    let held ← try some <$> .atomic (mlflow.getModelVersionByAlias "champion") catch _ => pure none
    if held = some mv.version then return mv.version
    .atomic (mlflow.setRegisteredModelAlias "champion" mv.version)
    return mv.version
  | found => throw (.notOne found.length)

/-- Register a run's candidate; a retry that finds it registered only finishes the label. -/
def registerOnce (mlflow : Mlflow) (a : Adapter) (championAlias : Bool)
    (tags : List (String × String)) : RegistryProcess Unit := do
  try discard (register mlflow a championAlias tags) catch
    | .alreadyRegistered _ _ => if championAlias then discard (finishChampion mlflow a.versionName)
    | e => throw e

/-! ## A server -/

namespace Registry

/-- The number after the last one. -/
def nextVersion (s : Registry) : ℕ := (s.versions.map ModelVersion.version).max?.getD 0 + 1

theorem nextVersion_notMem (s : Registry) : s.nextVersion ∉ s.versions.map ModelVersion.version :=
  fun hmem => absurd (List.le_max?_getD_of_mem hmem) (Nat.not_succ_le_self _)

/-- One more version. -/
def addVersion (s : Registry) (tags : Dict String String) : Registry :=
  { s with
    versions := s.versions ++ [⟨s.nextVersion, tags⟩]
    versions_nodup := by
      rw [List.map_append, List.map_singleton]
      refine List.nodup_append.mpr ⟨s.versions_nodup, List.nodup_singleton _, fun n hn m hm => ?_⟩
      rintro rfl
      rw [List.mem_singleton.mp hm] at hn
      exact s.nextVersion_notMem hn }

end Registry

/-- A server that numbers versions upwards. -/
def numbered : Mlflow where
  createRegisteredModel s :=
    if s.registered then .error .modelExists else .ok ((), { s with registered := true })
  createModelVersion tags s :=
    if s.registered then .ok (s.nextVersion, s.addVersion tags) else .error .notFound
  setRegisteredModelAlias label version s :=
    if version ∈ s.versions.map ModelVersion.version then
      .ok ((), { s with aliases := Function.update s.aliases label (some version) })
    else .error .notFound
  getModelVersionByAlias label s := match s.aliases label with
    | some version => .ok (version, s)
    | none => .error .notFound
  createRegisteredModel_new s h := ⟨{ s with registered := true }, by simp [h], ⟨rfl, rfl⟩, rfl⟩
  createRegisteredModel_exists s h := if_pos h
  createModelVersion_appends s tags h := ⟨_, _, if_pos h, rfl, rfl⟩
  setRegisteredModelAlias_moves s label version h := ⟨_, if_pos h, rfl, rfl⟩
  getModelVersionByAlias_some s label version h := by rw [h]
  getModelVersionByAlias_none s label h := by rw [h]

end LightServe
