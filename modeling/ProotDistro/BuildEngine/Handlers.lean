import ProotDistro.BuildEngine.RunStep

/-!
# `build_engine/handlers`: one function for each instruction

A handler is given the stage the instruction belongs to and the world, and answers both as the
instruction leaves them. Most only write a field of the stage and its copy in the image config;
RUN, COPY, ADD and WORKDIR may add a layer.

COPY and ADD take the files they name as a map (`Build.enumerate`); how their operands are read
and walked is not part of this module.
-/

namespace ProotDistro

open Posix Dirfd TarExtract LayerDiff Dockerfile

namespace BuildEngine

/-- What handlers have in common: the build, the instruction, the stage and the world. -/
abbrev Handler := Build → Instr → Stage → World → Except Failure (Stage × World)

/-- Change the object under `config`. -/
def Stage.setConfig (stage : Stage) (f : RunConfig → RunConfig) : Stage :=
  { stage with
    imageConfig := { stage.imageConfig with config := f stage.imageConfig.config } }

/-- `to_argv`: the exec form, or the text behind the shell. -/
def toArgv (b : Build) (instr : Instr) (shell : List Str) : List Str :=
  match instr.value with
  | .exec argv => argv
  | v => shell ++ [b.valueText v]

/-- What an argument is worth: the command line, the default, the global ARG of the name, the
host for a predefined one, and nothing. -/
def argValue (b : Build) (globalArgs : Dict Str Str) (key : Str) (default : Option Str) : Str :=
  match Dict.get b.userBuildArgs key, default, Dict.get globalArgs key with
  | some v, _, _ => v
  | none, some v, _ => v
  | none, none, some v => v
  | none, none, none => if key ∈ predefinedArgs then b.environGet key else []

def doArg (globalArgs : Dict Str Str) : Handler := fun b instr stage w =>
  let (key, default) := splitArg (spaceJoined instr.value)
  if key = [] then .error .build
  else
    .ok ({ stage with
      declaredArgs := if key ∈ stage.declaredArgs then stage.declaredArgs
        else stage.declaredArgs ++ [key]
      args := Dict.set stage.args key (argValue b globalArgs key default) }, w)

/-- The variables a config says, the last entry of a name for its value. -/
def configEnv (cfg : RunConfig) : Dict Str Str :=
  Dict.ofPairs ((cfg.env.getD []).filterMap Execenv.envPair)

/-- The pairs of an ENV that count: a trigger of the base image may not set the host's. -/
def allowedPairs (fromImage : Bool) (pairs : List (Str × Str)) : List (Str × Str) :=
  pairs.filter fun x => !(fromImage && Execenv.isHostExecVar x.1)

def doEnv : Handler := fun _ instr stage w => do
  let pairs ← parseKvList (spaceJoined instr.value)
  let allowed := allowedPairs w.firingOnbuild pairs
  let envMap := Dict.update (configEnv stage.imageConfig.config) allowed
  let stage := { stage with env := Dict.update stage.env allowed }
  .ok (stage.setConfig fun cfg => { cfg with env := some (envMap.map Execenv.envEntry) }, w)

def doLabel : Handler := fun _ instr stage w => do
  let pairs ← parseKvList (spaceJoined instr.value)
  .ok (stage.setConfig fun cfg =>
    { cfg with labels := some (Dict.update (cfg.labels.getD []) pairs) }, w)

def doMaintainer : Handler := fun b instr stage w =>
  .ok (stage.setConfig fun cfg => { cfg with
    labels := some (Dict.set (cfg.labels.getD []) "maintainer".toList
      (Text.strip (b.valueText instr.value))) }, w)

def doUser : Handler := fun b instr stage w =>
  let user := Text.strip (b.valueText instr.value)
  .ok (({ stage with user }).setConfig fun cfg => { cfg with user := some user }, w)

/-- The levels of `parts` that are missing below `fd`; below one that is no directory
everything is. -/
def missingBelow (fs : Fs) : Option Path → Path → List Name → List Path
  | _, _, [] => []
  | none, done, name :: rest =>
    (done ++ [name]) :: missingBelow fs none (done ++ [name]) rest
  | some fd, done, name :: rest =>
    match fs.lstatAt fd name with
    | .error _ => (done ++ [name]) :: missingBelow fs none (done ++ [name]) rest
    | .ok _ => missingBelow fs (fs.openDirAt fd name).toOption (done ++ [name]) rest

def missingLevels (fs : Fs) (rootfs : Path) (parts : List Name) : List Path :=
  missingBelow fs (some rootfs) [] parts

/-- The map of a WORKDIR that made directories. -/
def workdirMap (newDirs : List Path) : FileMap :=
  Dict.ofPairs (newDirs.map fun q => (joinPath q, MapEntry.dir (some 0o755) 0))

/-- Pack a map into a layer and put it on the stage. -/
def addMapLayer (b : Build) (fileMap : FileMap) (stage : Stage) (w : World) : Stage × World :=
  let members := writeFilesLayer w.fs fileMap
  let layer := b.pack members
  (stage.addLayer layer, w.publish layer members)

def doWorkdir : Handler := fun b instr stage w =>
  let path := Text.strip (b.valueText instr.value)
  if path = [] then .error .build
  else
    let path := normPath (osJoin (osJoin ['/'] stage.workdir) path)
    let rootfs := rootfsDir b stage.index
    let stage := ({ stage with workdir := path }).setConfig fun cfg =>
      { cfg with workingDir := some path }
    let trimmed := (path.dropWhile (· = '/')).rdropWhile (· = '/')
    match safeResolvePartsAt w.fs rootfs (splitPath trimmed) with
    | none => .ok (stage, w)
    | some parts => do
      let newDirs := missingLevels w.fs rootfs parts
      let (made, w) ← w.sys (makedirsAt b.umask rootfs parts 0o755)
      if made = none ∨ newDirs = [] then .ok (stage, w)
      else .ok (addMapLayer b (workdirMap newDirs) stage w)

def doCmd : Handler := fun b instr stage w =>
  .ok (stage.setConfig fun cfg => { cfg with cmd := some (toArgv b instr stage.shell) }, w)

def doEntrypoint : Handler := fun b instr stage w =>
  .ok (stage.setConfig fun cfg =>
    { cfg with entrypoint := some (toArgv b instr stage.shell), cmd := none }, w)

/-- Names added to those there already. -/
def addNames (names : Option (List Str)) (new : List Str) : List Str :=
  new.foldl (fun names n => if n ∈ names then names else names ++ [n]) (names.getD [])

def doExpose : Handler := fun b instr stage w => do
  let tokens ← splitOperands (b.valueText instr.value)
  let ports := tokens.map fun t => if '/' ∈ t then t else t ++ "/tcp".toList
  .ok (stage.setConfig fun cfg => { cfg with exposedPorts := some (addNames cfg.exposedPorts ports) }, w)

def volumePaths (b : Build) : Value → Except Failure (List Str)
  | .exec argv => .ok argv
  | v => splitOperands (b.valueText v)

def doVolume : Handler := fun b instr stage w => do
  let paths ← volumePaths b instr.value
  .ok (stage.setConfig fun cfg => { cfg with volumes := some (addNames cfg.volumes paths) }, w)

def doStopsignal : Handler := fun b instr stage w =>
  .ok (stage.setConfig fun cfg =>
    { cfg with stopSignal := some (Text.strip (b.valueText instr.value)) }, w)

def doShell : Handler := fun _ instr stage w =>
  match instr.value with
  | .exec argv =>
    .ok (({ stage with shell := argv }).setConfig fun cfg => { cfg with shell := some argv }, w)
  | .text _ | .trigger _ => .error .build

def asciiUpper (s : Str) : Str := s.map Char.toUpper

/-- The `Test` of a health check. -/
def healthcheckTest (b : Build) (value : Str) : Except Failure (List Json) :=
  let first := asciiUpper (value.takeWhile (!Text.isSpace ·))
  if first = "NONE".toList then .ok [.str "NONE".toList]
  else if !"CMD".toList.isPrefixOf first then .error .build
  else
    let rest := Text.strip (value.drop 3)
    match b.jsonLoads rest with
    | some (.arr items) => .ok (.str "CMD".toList :: items)
    | _ => .ok [.str "CMD-SHELL".toList, .str rest]

def doHealthcheck : Handler := fun b instr stage w => do
  let test ← healthcheckTest b (Text.strip (b.valueText instr.value))
  .ok (stage.setConfig fun cfg => { cfg with healthcheck := some test }, w)

def doOnbuild : Handler := fun _ instr stage w =>
  match instr.value with
  | .trigger raw =>
    .ok (stage.setConfig fun cfg => { cfg with onBuild := some (cfg.onBuild.getD [] ++ [raw]) }, w)
  | .text _ | .exec _ => .error .build

/-- COPY and ADD: write the files of the map into the rootfs and pack them. -/
def doCopyOrAdd (stages : List Stage) : Handler := fun b instr stage w => do
  let fileMap ← b.enumerate instr stages stage w
  if fileMap = [] then .ok (stage, w)
  else
    match CopyStep.materialiseFiles b.umask (rootfsDir b stage.index) fileMap w.fs with
    | (.error _, _) => .error .build
    | (.ok (), fs) => .ok (addMapLayer b fileMap stage { w with fs })

/-- The handlers by keyword; FROM and ONBUILD have none. -/
def handlers (globalArgs : Dict Str Str) (stages : List Stage) : Keyword → Option Handler
  | .ADD => some (doCopyOrAdd stages)
  | .ARG => some (doArg globalArgs)
  | .CMD => some doCmd
  | .COPY => some (doCopyOrAdd stages)
  | .ENTRYPOINT => some doEntrypoint
  | .ENV => some doEnv
  | .EXPOSE => some doExpose
  | .HEALTHCHECK => some doHealthcheck
  | .LABEL => some doLabel
  | .MAINTAINER => some doMaintainer
  | .RUN => some doRun
  | .SHELL => some doShell
  | .STOPSIGNAL => some doStopsignal
  | .USER => some doUser
  | .VOLUME => some doVolume
  | .WORKDIR => some doWorkdir
  | .FROM | .ONBUILD => none

end BuildEngine

end ProotDistro
