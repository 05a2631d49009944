import ProotDistro.BuildEngine.Stage

/-!
# `build_engine/engine`: the config of a base image

A pulled image's config is a stranger's JSON. It is held to the shapes the engine reads before
anything of it is used, and loses the variables of the host's name spaces on the way
(`adoptImageConfig_env`). A field of the wrong kind ends the build; missing and `null` are the
same.
-/

namespace ProotDistro

namespace BuildEngine

def cfgObject : Json → Except Failure (Dict Str Json)
  | .obj fields => .ok fields
  | _ => .error .build

def cfgStrList : Json → Except Failure (List Str)
  | .arr items =>
    match Json.strList? items with
    | some strs => .ok strs
    | none => .error .build
  | _ => .error .build

def cfgStr : Json → Except Failure Str
  | .str s => .ok s
  | _ => .error .build

/-- The names of an object whose values say nothing. -/
def cfgNames (j : Json) : Except Failure (List Str) := (cfgObject j).map Dict.keys

def labelValue : Json → Except Failure Str
  | .null => .ok []
  | .str s => .ok s
  | _ => .error .build

def cfgLabels (j : Json) : Except Failure (Dict Str Str) := do
  let fields ← cfgObject j
  fields.mapM fun x => do
    let v ← labelValue x.2
    .ok (x.1, v)

/-- A field that may be missing, read by `read` if it is there. -/
def optField {α : Type} (fields : Dict Str Json) (key : String) (read : Json → Except Failure α) :
    Except Failure (Option α) :=
  match Dict.get fields key.toList with
  | none => .ok none
  | some v => if v.isNull then .ok none else (read v).map some

/-- Whether an entry of `Env` is adopted. -/
def keepsEnv (entry : Str) : Bool :=
  match Execenv.envPair entry with
  | none => true
  | some (k, v) => !Execenv.isHostExecVar k && Execenv.isExportable k v

def adoptEnv (j : Json) : Except Failure (List Str) := (cfgStrList j).map (·.filter keepsEnv)

def adoptRunConfig (j : Json) : Except Failure RunConfig := do
  let cfg ← cfgObject j
  let cmd ← optField cfg "Cmd" cfgStrList
  let entrypoint ← optField cfg "Entrypoint" cfgStrList
  let onBuild ← optField cfg "OnBuild" cfgStrList
  let shell ← optField cfg "Shell" cfgStrList
  let user ← optField cfg "User" cfgStr
  let workingDir ← optField cfg "WorkingDir" cfgStr
  let exposedPorts ← optField cfg "ExposedPorts" cfgNames
  let volumes ← optField cfg "Volumes" cfgNames
  let labels ← optField cfg "Labels" cfgLabels
  let env ← optField cfg "Env" adoptEnv
  .ok { RunConfig.empty with
    cmd, entrypoint, onBuild, shell, user, workingDir, exposedPorts, volumes, labels, env }

def historyList : Json → Except Failure (List Json)
  | .arr items => .ok items
  | _ => .error .build

def adoptDiffIds (j : Json) : Except Failure (Option (List Str)) := do
  let rootfs ← cfgObject j
  optField rootfs "diff_ids" cfgStrList

def adoptImageConfig (doc : Json) : Except Failure ImageConfig := do
  let doc ← cfgObject doc
  let history ← optField doc "history" historyList
  let diffIds ← optField doc "rootfs" adoptDiffIds
  let config ← optField doc "config" adoptRunConfig
  .ok { config := config.getD .empty, history, diffIds := diffIds.join }

end BuildEngine

end ProotDistro
