import ProotDistro.BuildCache
import ProotDistro.LayerDiff.RoundTrip

/-!
# `build_engine/run_step`: RUN

The one instruction that runs what the Dockerfile says. A step whose recipe is recorded, with a
layer that is still there, is not run again; otherwise proot is executed over the rootfs, and
what changed becomes the layer.

What a step is given on Termux besides (a store for linked files, a `/tmp`) is part of
executing proot. Killing what a step leaves behind and the arguments of proot other than the
step's are left out.
-/

namespace ProotDistro

open Posix Dirfd TarExtract LayerDiff Dockerfile

namespace BuildEngine

def predefinedArgs : List Str :=
  ["TARGETPLATFORM", "TARGETOS", "TARGETARCH", "TARGETVARIANT", "BUILDPLATFORM", "BUILDOS",
    "BUILDARCH", "BUILDVARIANT", "HTTP_PROXY", "HTTPS_PROXY", "NO_PROXY", "FTP_PROXY",
    "ALL_PROXY", "http_proxy", "https_proxy", "no_proxy", "ftp_proxy", "all_proxy"].map
    String.toList

/-- The architecture annotations, where the scope has none. -/
def setArchDefaults (b : Build) (scope : Dict Str Str) : Dict Str Str :=
  [("TARGETARCH".toList, b.targetArch), ("BUILDARCH".toList, b.hostArch),
    ("TARGETOS".toList, "linux".toList), ("BUILDOS".toList, "linux".toList),
    ("TARGETPLATFORM".toList, "linux/".toList ++ b.targetArch),
    ("BUILDPLATFORM".toList, "linux/".toList ++ b.hostArch)].foldl
    (fun scope x => Dict.setDefault scope x.1 x.2) scope

/-- What the host's environment says of the predefined arguments. -/
def hostArgs (b : Build) : List (Str × Str) :=
  (predefinedArgs.map fun k => (k, b.environGet k)).filter fun x => x.2 ≠ []

/-- The variables `${VAR}` means in a stage: the predefined arguments, the architecture, the
stage's ARGs, and its ENVs over all of them. -/
def expansionScope (b : Build) (stage : Stage) : Dict Str Str :=
  Dict.update (Dict.update (setArchDefaults b (Dict.ofPairs (hostArgs b))) stage.args) stage.env

/-- What a step is told about where it is running. -/
def identityEnv (stage : Stage) : List (Str × Str) :=
  [("container".toList, Execenv.containerMarker)] ++
    (if stage.baseRef ≠ [] ∧ Execenv.isExportable "PD_IMAGE".toList stage.baseRef then
      [("PD_IMAGE".toList, stage.baseRef)] else []) ++
    (if stage.baseImageId ≠ [] then [("PD_IMAGE_ID".toList, stage.baseImageId)] else [])

/-- The variables a recipe is taken over. -/
def runScope (b : Build) (stage : Stage) : Dict Str Str :=
  Dict.update (expansionScope b stage) (identityEnv stage)

def runExtraInputs (b : Build) (stage : Stage) : Str :=
  ['\n'].intercalate (BuildCache.sortedEntries (runScope b stage))

/-- The user's own switches of proot. -/
def prootToggles (b : Build) : List (Str × Str) :=
  (["PROOT_NO_SECCOMP".toList, "PROOT_VERBOSE".toList].map fun k => (k, b.environGet k)).filter
    fun x => x.2 ≠ []

/-- A variable the Dockerfile may set for the exec. -/
def exports (x : Str × Str) : Bool := !Execenv.isHostExecVar x.1 && Execenv.isExportable x.1 x.2

/-- The declared arguments that have a value. -/
def declaredPairs (stage : Stage) : List (Str × Str) :=
  stage.declaredArgs.filterMap fun k => (Dict.get stage.args k).map fun v => (k, v)

def baseEnv (b : Build) (stage : Stage) : List (Str × Str) :=
  let path := (Dict.get stage.env "PATH".toList).getD []
  let term := b.environGet "TERM".toList
  let colorterm := b.environGet "COLORTERM".toList
  [("PATH".toList, if path = [] then Execenv.defaultPathEnv b.isTermux b.termuxPrefix else path),
    ("HOME".toList, (Dict.get stage.env "HOME".toList).getD "/root".toList),
    ("TERM".toList, if term = [] then "xterm-256color".toList else term)] ++
    if colorterm = [] then [] else [("COLORTERM".toList, colorterm)]

/-- The environment proot is executed with over the tree `fs`. -/
def buildChildEnv (b : Build) (stage : Stage) (fs : Fs) : Dict Str Str :=
  let env := Dict.ofPairs (baseEnv b stage ++ hostArgs b ++ (declaredPairs stage).filter exports ++
    stage.env.filter exports ++ identityEnv stage ++ prootToggles b)
  if b.isTermux then
    match b.l2sDir (rootfsDir b stage.index) fs with
    | some dir => Dict.set env Execenv.l2sDirVar dir
    | none => env.filter fun x => x.1 ≠ Execenv.l2sDirVar
  else env

/-- The command of a RUN: its exec form, or the shell with the here-documents' text or else the
instruction's. -/
def runCommand (b : Build) (stage : Stage) (instr : Instr) : List Str :=
  match instr.value with
  | .exec argv => argv
  | v =>
    if instr.heredocs ≠ [] then stage.shell ++ [['\n'].intercalate instr.heredocs]
    else stage.shell ++ [b.valueText v]

def prootCall (b : Build) (stage : Stage) (instr : Instr) (fs : Fs) : ProotCall where
  command := runCommand b stage instr
  user := stage.user
  cwd := if stage.workdir = [] then ['/'] else stage.workdir
  env := buildChildEnv b stage fs

def runRecipe (b : Build) (stage : Stage) (instr : Instr) : Str :=
  BuildCache.computeRecipeHash b stage.parentLayerDigest instr (runExtraInputs b stage)

/-- Put a layer on a stage. -/
def Stage.addLayer (stage : Stage) (layer : Layer) : Stage :=
  { stage with layers := stage.layers ++ [layer], parentLayerDigest := layer.digest }

/-- Publish what was packed, and put it on the stage. -/
def World.publish (w : World) (layer : Layer) (members : List Member) : World :=
  { w with blobs := Dict.set w.blobs layer.digest members }

/-- A recorded layer that can still be read. -/
def cachedStep (b : Build) (w : World) (recipe : Str) : Option (CacheEntry × List Member) :=
  if b.noCache then none
  else
    match BuildCache.lookup w recipe with
    | none => none
    | some hit => (Dict.get w.blobs hit.layerDigest).map fun members => (hit, members)

def doRun (b : Build) (instr : Instr) (stage : Stage) (w : World) :
    Except Failure (Stage × World) :=
  let rootfs := rootfsDir b stage.index
  let recipe := runRecipe b stage instr
  match cachedStep b w recipe with
  | some (hit, members) => do
    let (_, w') ← w.sys (applyLayer (b.refuses w.fs) b.umask rootfs members)
    .ok (stage.addLayer ⟨hit.layerDigest, hit.size, hit.diffId⟩, w')
  | none =>
    let call := prootCall b stage instr w.fs
    let (exitCode, after) := b.execProot rootfs call w.fs
    if exitCode ≠ 0 then .error .build
    else
      let members := runLayer ⟨w.fs, after, rootfs, b.refuses w.fs, b.refuses after⟩
      let layer := b.pack members
      let w' := { w with fs := after, calls := w.calls ++ [call] }
      .ok (stage.addLayer layer,
        BuildCache.record (w'.publish layer members) recipe
          ⟨layer.digest, layer.diffId, layer.size⟩)

end BuildEngine

end ProotDistro
