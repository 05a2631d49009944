import ProotDistro.Docker.Digest
import ProotDistro.Guestfile

/-!
# `login/env` and `commands/login`: the environment of a session

`login` and `run` start proot over a container with an environment put together here: what the
image and the container say, the options of the session, and what the launching process has
itself. `sessionEnv` is the environment proot is executed with.

The manifest of a container is what reading its file answers, `none` where that fails. How the
user of a session is looked up in the container is left out: the session is given the name and
the home that came of it.
-/

namespace ProotDistro

open Posix Dirfd

namespace Login

def androidHostEnvVars : List Str :=
  ["ANDROID_ART_ROOT", "ANDROID_DATA", "ANDROID_I18N_ROOT", "ANDROID_ROOT", "ANDROID_RUNTIME_ROOT",
    "ANDROID_TZDATA_ROOT", "BOOTCLASSPATH", "DEX2OATBOOTCLASSPATH", "EXTERNAL_STORAGE"].map
    String.toList

def imageEnvBlocked : List Str :=
  androidHostEnvVars ++ Execenv.identityEnvKeys ++
    ["MOZ_FAKE_NO_SANDBOX", "MOZ_SHM_NO_SEALS", "PULSE_SERVER", "TERM", "COLORTERM"].map
      String.toList

/-- The launching process and the options of a session. -/
structure Session where
  isTermux : Bool
  termuxPrefix : Str
  termuxHome : Str
  umask : Mode
  environ : Dict Str Str
  /-- the `--env` flags -/
  extraEnv : List Str
  minimal : Bool
  isolated : Bool

def Session.environGet (s : Session) (key : Str) : Str := (Dict.get s.environ key).getD []

/-- A container as a session finds it. -/
structure Container where
  name : Str
  manifest : Option (Dict Str Json)
  fs : Fs
  rootfs : Path
  loginUser : Str
  loginHome : Str

/-- `read_manifest_env` -/
def readManifestEnv (c : Container) : List Str :=
  let config := (c.manifest.bind fun data => (Json.obj data).field "image_config".toList).bind
    (·.field "config".toList)
  match (config.bind (·.field "Env".toList)).bind Json.asArr? with
  | none => []
  | some entries => (entries.filterMap Json.asStr?).filter ('=' ∈ ·)

/-- Whether an image may set a variable of the session. -/
def imageMaySet (x : Str × Str) : Bool :=
  x.1 ≠ [] && x.1 ∉ imageEnvBlocked && !Execenv.isHostExecVar x.1 && Execenv.isExportable x.1 x.2

def imageEnvPairs (c : Container) : List (Str × Str) :=
  ((readManifestEnv c).filterMap Execenv.envPair).filter imageMaySet

/-- A string that is not empty. -/
def nonempty? (s : Str) : Option Str := if s = [] then none else some s

def identityEnvPairs (c : Container) : List (Str × Str) :=
  [("PD_CONTAINER".toList, c.name), ("container".toList, Execenv.containerMarker)] ++
    match c.manifest with
    | none => []
    | some data =>
      let ref := (((Json.obj data).field "image_ref".toList).bind Json.asStr?).bind nonempty?
      let imageId := ((Json.obj data).field "manifest".toList).bind fun m =>
        nonempty? (Docker.manifestConfigDigest m)
      ((ref.filter (Execenv.isExportable "PD_IMAGE".toList)).map
        fun ref => ("PD_IMAGE".toList, ref)).toList ++
        (imageId.map fun imageId => ("PD_IMAGE_ID".toList, imageId)).toList

/-- What the launching process has of the names given. -/
def inherited (s : Session) (keys : List Str) : List (Str × Str) :=
  (keys.map fun k => (k, s.environGet k)).filter fun x => x.2 ≠ []

def androidEnv (s : Session) : List (Str × Str) :=
  if s.isTermux ∧ !s.isolated ∧ !s.minimal then inherited s androidHostEnvVars else []

/-- The variables of the `--env` flags. -/
def extraPairs (s : Session) : List (Str × Str) :=
  (s.extraEnv.map (Text.partition '=')).filter fun x => x.1 ≠ []

def buildTermuxEnv (s : Session) (c : Container) : Dict Str Str :=
  let bin := s.termuxPrefix ++ "/bin".toList
  let baseline := if s.minimal then []
    else [("HOME".toList, s.termuxHome), ("PATH".toList, bin), ("PREFIX".toList, s.termuxPrefix),
      ("TMPDIR".toList, s.termuxPrefix ++ "/tmp".toList)]
  Dict.ofPairs (baseline ++ imageEnvPairs c ++ identityEnvPairs c ++ androidEnv s ++ extraPairs s ++
    inherited s ["TERM".toList, "COLORTERM".toList])

def buildNormalEnv (s : Session) (c : Container) : Dict Str Str :=
  let hints := if s.isTermux then [("MOZ_FAKE_NO_SANDBOX".toList, ['1']),
      ("MOZ_SHM_NO_SEALS".toList, ['1']), ("PULSE_SERVER".toList, "127.0.0.1".toList)]
    else []
  let baseline := if s.minimal then []
    else ("PATH".toList, Execenv.defaultPathEnv s.isTermux s.termuxPrefix) :: hints
  let user := if s.minimal then []
    else [("HOME".toList, c.loginHome), ("USER".toList, c.loginUser)]
  let term := s.environGet "TERM".toList
  Dict.ofPairs (baseline ++ imageEnvPairs c ++ identityEnvPairs c ++ androidEnv s ++ extraPairs s ++
    user ++ [("TERM".toList, if term = [] then "xterm-256color".toList else term)] ++
    inherited s ["COLORTERM".toList])

/-- `guest_file_exists`, where the file may be looked at -/
def guestFileExists (fs : Fs) (rootfs : Path) (path : Str) : Bool :=
  match Guestfile.resolve noRefusals fs rootfs path with
  | some (_, _, .file _ _) => true
  | some (_, _, .dir _) | some (_, _, .symlink _) | none => false

/-- `_detect_dist_type` -/
def isTermuxContainer (s : Session) (c : Container) : Bool :=
  guestFileExists c.fs c.rootfs (s.termuxPrefix ++ "/bin/login".toList)

/-- The host's binaries last in `PATH`. -/
def withTermuxBin (s : Session) (env : Dict Str Str) : Dict Str Str :=
  if s.isTermux ∧ !s.isolated ∧ !s.minimal then
    let bin := s.termuxPrefix ++ "/bin".toList
    let components := (((Dict.get env "PATH".toList).getD []).splitOn ':').filter fun c =>
      c ≠ [] && c ≠ bin
    Dict.set env "PATH".toList ([':'].intercalate (components ++ [bin]))
  else env

/-- The switches of proot the launching process has set. -/
def prootToggles (s : Session) : List (Str × Str) :=
  if s.minimal then [] else inherited s ["PROOT_NO_SECCOMP".toList, "PROOT_VERBOSE".toList]

/-- Where linked files go, in the rootfs. -/
def withL2sDir (s : Session) (c : Container) (env : Dict Str Str) : Dict Str Str :=
  if s.isTermux ∧ !isTermuxContainer s c then
    match (descendAt s.umask true c.rootfs [".l2s".toList] c.fs).1 with
    | .ok dir => Dict.set env Execenv.l2sDirVar ('/' :: joinPath dir)
    | .error _ => Dict.erase env Execenv.l2sDirVar
  else env

/-- The environment proot is executed with for a session. -/
def sessionEnv (s : Session) (c : Container) : Dict Str Str :=
  let built := if isTermuxContainer s c then buildTermuxEnv s c else buildNormalEnv s c
  let env := Dict.update (withTermuxBin s built) (prootToggles s)
  Dict.erase (withL2sDir s c env) "LD_PRELOAD".toList

end Login

end ProotDistro
