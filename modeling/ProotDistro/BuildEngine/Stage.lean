import ProotDistro.BuildEngine.CopyStep
import ProotDistro.BuildEngine.Parsing
import ProotDistro.Lib.JsonChars

/-!
# `build_engine/stage`: the state of a build

One `Stage` per FROM, the `World` the stages share, and the `Build` a run of the engine is
given: its options, the host, and what the engine calls that is no part of it. The config of an
image is a record of the fields the engine reads; it has gone through `adoptImageConfig`, or
the engine has made it itself. Descriptors of a stage are its paths.

Left out: step numbers, messages, file modes of the scratch tree, the fields of a config that are
carried along unread, and a trigger's line that is continued between two surrogates that join, in the
history.
-/

namespace ProotDistro

open Posix Dirfd TarExtract LayerDiff Dockerfile

namespace BuildEngine

structure Layer where
  digest : Str
  size : Int
  diffId : Str
  deriving DecidableEq

/-- The object under `config`. -/
structure RunConfig where
  env : Option (List Str)
  user : Option Str
  workingDir : Option Str
  shell : Option (List Str)
  cmd : Option (List Str)
  entrypoint : Option (List Str)
  onBuild : Option (List Str)
  exposedPorts : Option (List Str)
  volumes : Option (List Str)
  labels : Option (Dict Str Str)
  stopSignal : Option Str
  healthcheck : Option (List Json)

def RunConfig.empty : RunConfig :=
  ⟨none, none, none, none, none, none, none, none, none, none, none, none⟩

/-- The keys of an object of empty values that was written as JSON and read. -/
def rereadKeys (ks : List Str) : List Str :=
  Dict.keys (Dict.ofPairs (ks.map fun k => (JsonText.rereadChars k, ())))

/-- `json.loads(json.dumps(config))`: in every text the surrogates that join are one character. A trigger
stays as it is: it came out of JSON, or is a line of a Dockerfile, decoded with `errors="replace"`. -/
def RunConfig.reread (cfg : RunConfig) : RunConfig where
  env := cfg.env.map (·.map JsonText.rereadChars)
  user := cfg.user.map JsonText.rereadChars
  workingDir := cfg.workingDir.map JsonText.rereadChars
  shell := cfg.shell.map (·.map JsonText.rereadChars)
  cmd := cfg.cmd.map (·.map JsonText.rereadChars)
  entrypoint := cfg.entrypoint.map (·.map JsonText.rereadChars)
  onBuild := cfg.onBuild
  exposedPorts := cfg.exposedPorts.map rereadKeys
  volumes := cfg.volumes.map rereadKeys
  labels := cfg.labels.map fun labels =>
    Dict.ofPairs (labels.map fun x => (JsonText.rereadChars x.1, JsonText.rereadChars x.2))
  stopSignal := cfg.stopSignal.map JsonText.rereadChars
  healthcheck := cfg.healthcheck.map (·.map JsonText.rereadValue)

structure ImageConfig where
  config : RunConfig
  history : Option (List Json)
  diffIds : Option (List Str)

def ImageConfig.empty : ImageConfig := ⟨.empty, none, none⟩

structure Stage where
  index : Nat
  name : Option Str
  imageConfig : ImageConfig
  layers : List Layer
  parentLayerDigest : Str
  env : Dict Str Str
  args : Dict Str Str
  declaredArgs : List Str
  workdir : Str
  user : Str
  shell : List Str
  baseRef : Str
  baseImageId : Str

def defaultShell : List Str := ["/bin/sh".toList, "-c".toList]

def Stage.new (index : Nat) (name : Option Str) : Stage :=
  { index, name, imageConfig := .empty, layers := [], parentLayerDigest := [], env := [],
    args := [], declaredArgs := [], workdir := ['/'], user := [], shell := defaultShell,
    baseRef := [], baseImageId := [] }

/-- A recorded step of the build cache. -/
structure CacheEntry where
  layerDigest : Str
  diffId : Str
  size : Int
  deriving DecidableEq

/-- proot as it is executed for one RUN. -/
structure ProotCall where
  command : List Str
  user : Str
  cwd : Str
  env : Dict Str Str
  deriving DecidableEq

/-- What the stages of a build share. -/
structure World where
  fs : Fs
  /-- the layer cache -/
  blobs : Dict Str (List Member)
  /-- the build-cache index -/
  cacheIndex : Dict Str CacheEntry
  /-- while the base image's triggers run -/
  firingOnbuild : Bool
  /-- the calls of proot so far, oldest first -/
  calls : List ProotCall

/-- What a pull answers. -/
structure Pulled where
  imageConfig : Json
  /-- digest and size of the manifest's layers -/
  layers : List (Str × Json)
  configDigest : Str

/-- The options of a build, its host, and the code around the engine. -/
structure Build where
  umask : Mode
  /-- what the system refuses the build, by the tree as it is -/
  refuses : Fs → Refusals
  tmpRoot : Path
  isTermux : Bool
  termuxPrefix : Str
  environ : Dict Str Str
  targetArch : Str
  hostArch : Str
  userBuildArgs : Dict Str Str
  targetStage : Option Str
  noCache : Bool
  isAlnum : Char → Bool
  /-- Python's `str` of a list of strings -/
  strOfList : List Str → Str
  jsonLoads : Str → Option Json
  /-- SHA-256 of a message, in hexadecimal digits -/
  sha256 : Str → Str
  parseDockerfile : Str → Except Failure (List Instr)
  /-- the layer a list of members is published as -/
  pack : List Member → Layer
  pullImage : Str → Path → Fs → Except Failure (Pulled × Fs)
  /-- the files a COPY or ADD names, from the context, a stage or an image -/
  enumerate : Instr → List Stage → Stage → World → Except Failure FileMap
  configureDns : Path → Fs → Fs
  /-- the store for linked files in a rootfs, where it can be made -/
  l2sDir : Path → Fs → Option Str
  /-- run proot over a rootfs; the exit status and the tree it leaves -/
  execProot : Path → ProotCall → Fs → Int × Fs

def Build.environGet (b : Build) (key : Str) : Str := (Dict.get b.environ key).getD []

/-- `str(instr["value"])` -/
def Build.valueText (b : Build) : Value → Str
  | .text s => s
  | .exec argv => b.strOfList argv
  | .trigger raw => raw

def rootfsDir (b : Build) (index : Nat) : Path :=
  b.tmpRoot ++ [("stage-" ++ toString index).toList, "rootfs".toList]

/-- `" ".join(value)` of an exec form, the text of any other. -/
def spaceJoined : Value → Str
  | .text s => s
  | .exec argv => [' '].intercalate argv
  | .trigger raw => raw

/-- Run a procedure on the file system; its error ends the build. -/
def World.sys {α : Type} (w : World) (p : Sys α) : Except Failure (α × World) :=
  match p w.fs with
  | (.ok a, fs) => .ok (a, { w with fs })
  | (.error _, _) => .error .os

end BuildEngine

end ProotDistro
