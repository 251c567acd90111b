import LightServe.Mlops.Registry

/-!
# Deploy and rollback

The "current model" pointer of `mlops/retrain.py` and the tasks `deploy` and `rollback` of
`mlops/dags/drift_retrain.py`. The pointer names the current model and the one before it; it is
written to a temporary file that is then renamed over it.

## Main definitions

* `PipelineState` — the files, the server and the registry that the tasks work on.
* `readCurrent`, `setCurrent` — the pointer.
* `deploy`, `rollback` — the tasks.
-/

namespace LightServe

/-- A model as the pointer names it. -/
structure ModelEntry where
  model : String
  samples : String
  deriving DecidableEq

/-- The run's candidate, as `deploy` names it. -/
def Adapter.candidate (a : Adapter) : ModelEntry := { model := a.versionName, samples := a.samples }

/-- The pointer: the current model and, once one was deployed, the model before it. -/
structure Pointer extends ModelEntry where
  previous : Option ModelEntry := none
  deriving DecidableEq

/-- What the tasks of the pipeline work on. -/
structure PipelineState where
  /-- The pointer file, if there is one. -/
  current : Option Pointer
  /-- The temporary file next to it. -/
  tmp : Option Pointer
  /-- The names the serving vLLM answers to. -/
  loaded : List String
  /-- Whether the run folder has its approval. -/
  approved : Bool
  registry : Registry
  /-- The models and reasons of the alerts that were sent. -/
  alerts : List (String × String)

/-- Why a task raises. -/
inductive PipelineError
  /-- The registry has no champion, or one without a name or saved answers. -/
  | noChampion
  /-- `RuntimeError`: the candidate is no longer loaded. -/
  | notLoaded (name : String)
  /-- `KeyError`: the pointer has no previous model. -/
  | noPrevious
  | registry (e : RegistryError)

/-- A task of the pipeline. -/
abbrev PipelineTask := Process PipelineState PipelineError

/-- The registry's champion: its name, its saved answers and the pool that the pipeline draws
from. -/
structure ChampionInfo extends ModelEntry where
  poolDataDir : String

/-- `champion_info`, with the paths as the registry has them. -/
def championInfo (r : Registry) : Option ChampionInfo := do
  let version ← r.aliases "champion"
  let mv ← r.versions.find? fun v => v.version = version
  let dataDir ← mv.tags.lookup "data_dir"
  let model ← mv.tags.lookup "version_name"
  let samples ← mv.tags.lookup "samples"
  return { model, samples, poolDataDir := (mv.tags.lookup "pool_data_dir").getD dataDir }

/-- `champion()`. -/
def champion : PipelineTask ChampionInfo :=
  .atomic fun s => match championInfo s.registry with
    | some info => .ok (info, s)
    | none => .error .noChampion

/-- Which model is current; without a pointer file, the champion. -/
def readCurrent (champion : ModelEntry) (s : PipelineState) : Pointer :=
  s.current.getD { champion with }

/-- Point at a model and keep the one before it as the previous one: the temporary file is
written, and renamed over the pointer. -/
def setCurrent (new champion : ModelEntry) : PipelineTask Unit := do
  let before ← .look (readCurrent champion)
  let pointer : Pointer := { new with previous := some before.toModelEntry }
  .modify fun s => { s with tmp := some pointer }
  .modify fun s => { s with current := some pointer, tmp := none }

/-- Move the pointer to the candidate, if it is still loaded. -/
def deploy (candidate : ModelEntry) : PipelineTask Unit := do
  let champ ← champion
  if candidate.model ∉ (← .look PipelineState.loaded) then throw (.notLoaded candidate.model)
  setCurrent candidate champ.toModelEntry
  .modify fun s => { s with approved := true }

/-- The pointer back to the model before, unless an earlier attempt moved it. -/
def switchBack (name : String) (champ : ModelEntry) : PipelineTask Unit := do
  let current ← .look (readCurrent champ)
  if current.model = name then
    match current.previous with
    | none => throw .noPrevious
    | some previous => setCurrent previous champ

/-- The candidate out of the server, if it is loaded. -/
def unloadCandidate (name : String) : PipelineTask Unit := do
  if name ∈ (← .look PipelineState.loaded) then
    .modify fun s => { s with loaded := s.loaded.erase name }

/-- `register_once` on the registry of the pipeline. -/
def recordRejected (mlflow : Mlflow) (a : Adapter) (champ : ChampionInfo) (why : String) :
    PipelineTask Unit :=
  ((registerOnce mlflow a false [("pool_data_dir", champ.poolDataDir),
      ("status", "rejected-after-deploy"), ("rollback_reason", why)]).zoom PipelineState.registry
    fun registry s => { s with registry }).mapError .registry

/-- The pointer back to the model before, the candidate out of the server, recorded as rejected,
and an alert. -/
def rollback (mlflow : Mlflow) (a : Adapter) (why : String) : PipelineTask Unit := do
  let champ ← champion
  switchBack a.versionName champ.toModelEntry
  unloadCandidate a.versionName
  recordRejected mlflow a champ why
  .modify fun s => { s with alerts := s.alerts ++ [(a.versionName, why)] }

end LightServe
