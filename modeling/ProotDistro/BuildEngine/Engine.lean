import ProotDistro.BuildEngine.Adopt
import ProotDistro.BuildEngine.Handlers
import ProotDistro.Lib.Result
import Mathlib.Logic.Relation

/-!
# `build_engine/engine`: the interpreter of a Dockerfile

`Engine.run` walks the instructions and dispatches each to its handler. The current stage is the
last one begun; a stage is known by its number and its name from the moment FROM has given it
its base, so before the triggers of the base image run.

The state between two instructions is an `Engine`. `Step` is what happens between two of
them, and `Reaches` the states a run goes through, triggers included; what is said about every
state of a run is said over these (`run_reaches`).
-/

namespace ProotDistro

open Posix Dirfd TarExtract LayerDiff Dockerfile

namespace BuildEngine

structure Engine where
  /-- the stages begun, the current one last -/
  stages : List Stage
  /-- the stage a name or a number stands for -/
  named : Dict Str Nat
  globalArgs : Dict Str Str
  stopAfter : Bool
  world : World

namespace Engine

def current (e : Engine) : Option Stage := e.stages.getLast?

def setCurrent (e : Engine) (stage : Stage) : Engine :=
  { e with stages := e.stages.dropLast ++ [stage] }

/-! ## Variables -/

def expandsVars : Keyword → Bool
  | .ADD | .ARG | .ENV | .EXPOSE | .FROM | .LABEL | .STOPSIGNAL | .USER | .VOLUME | .WORKDIR
  | .COPY => true
  | .CMD | .ENTRYPOINT | .HEALTHCHECK | .MAINTAINER | .ONBUILD | .RUN | .SHELL => false

def expand (b : Build) (text : Str) (scope : Dict Str Str) : Except Failure Str :=
  match expandVars b.isAlnum text scope with
  | .ok s => .ok s
  | .error _ => .error .dockerfile

def expandValue (b : Build) (scope : Dict Str Str) : Value → Except Failure Value
  | .text s => (expand b s scope).map .text
  | .exec argv => .ok (.exec argv)
  | .trigger raw => .ok (.trigger raw)

/-- `_expand_instruction`, of one whose keyword takes variables and that has no exec form. -/
def expandInstruction (b : Build) (stage : Stage) (instr : Instr) : Except Failure Instr :=
  if expandsVars instr.name && !instr.value.isExec then do
    let scope := expansionScope b stage
    let value ← expandValue b scope instr.value
    let flags ← instr.flags.mapM fun x => do
      let v ← expand b x.2 scope
      .ok (x.1, v)
    .ok { instr with value, flags }
  else .ok instr

def expandForFrom (b : Build) (scope : Dict Str Str) (value : Str) : Except Failure Str :=
  expand b value (setArchDefaults b scope)

/-! ## History -/

def createdKey : Str := "created".toList

def epoch : Json := .str "1970-01-01T00:00:00Z".toList

/-- The history entry of an instruction. -/
def historyEntry (instr : Instr) (layerAdded : Bool) : Json :=
  .obj ([(createdKey, epoch),
    ("created_by".toList, .str (if instr.raw = [] then instr.name.name else instr.raw))] ++
    if layerAdded then [] else [("empty_layer".toList, .bool true)])

def recordHistory (instr : Instr) (layerAdded : Bool) (stage : Stage) : Stage :=
  { stage with imageConfig := { stage.imageConfig with
      history := some (stage.imageConfig.history.getD [] ++ [historyEntry instr layerAdded]) } }

/-- `_run_with_history` -/
def runWithHistory (handler : Handler) (b : Build) (instr : Instr) (stage : Stage) (w : World) :
    Except Failure (Stage × World) := do
  let (stage', w') ← handler b instr stage w
  .ok (recordHistory instr (stage.layers.length < stage'.layers.length) stage', w')

/-- Expand an instruction of the current stage and run its handler. -/
def runInstruction (b : Build) (e : Engine) (stage : Stage) (instr : Instr) :
    Except Failure Engine := do
  let instr ← expandInstruction b stage instr
  match handlers e.globalArgs e.stages instr.name with
  | none => .error .build
  | some handler => do
    let (stage', w') ← runWithHistory handler b instr stage e.world
    .ok { e.setCurrent stage' with world := w' }

/-! ## FROM -/

def isAs (word : Str) : Bool :=
  match word with
  | [a, s] => (a == 'A' || a == 'a') && (s == 'S' || s == 's' || s == 'ſ')
  | _ => false

/-- The base and the name of a FROM. -/
def fromParts (value : Str) : Option (Str × Option Str) :=
  match Text.words value with
  | [base] => some (base, none)
  | [base, as, name] => if isAs as then some (base, some name) else none
  | _ => none

def isScratch (base : Str) : Bool := base.map Char.toLower = "scratch".toList

/-- What a stage reads out of the config it starts with. -/
def decodeConfig (stage : Stage) : Stage :=
  let cfg := stage.imageConfig.config
  { stage with
    env := configEnv cfg
    workdir := if cfg.workingDir.getD [] = [] then stage.workdir else cfg.workingDir.getD []
    user := if cfg.user.getD [] = [] then stage.user else cfg.user.getD []
    shell := if cfg.shell.getD [] = [] then stage.shell else cfg.shell.getD []
    args := []
    declaredArgs := [] }

/-- Apply a chain of layers, each out of the layer cache. -/
def applyLayers (b : Build) (rootfs : Path) (layers : List Layer) (w : World) :
    Except Failure World :=
  layers.foldlM (fun w layer =>
    match Dict.get w.blobs layer.digest with
    | none => .error .build
    | some members => do
      let (_, w') ← w.sys (applyLayer (b.refuses w.fs) b.umask rootfs members)
      .ok w') w

/-- `_inherit_from_stage`. The history and the diff ids go through JSON like the config, which leaves
them as they are: they came out of JSON, or hold the lines of a Dockerfile. -/
def inheritFromStage (b : Build) (stage parent : Stage) (w : World) :
    Except Failure (Stage × World) := do
  let w' ← applyLayers b (rootfsDir b stage.index) parent.layers w
  .ok ({ stage with
    imageConfig := { parent.imageConfig with config := parent.imageConfig.config.reread }
    layers := parent.layers
    parentLayerDigest := parent.parentLayerDigest
    baseRef := parent.baseRef
    baseImageId := parent.baseImageId }, w')

/-- The layers of a pulled manifest; one the config names no diff id for gets its digest. -/
def pulledLayers (layers : List (Str × Json)) (diffIds : List Str) : List Layer :=
  layers.zipIdx.map fun x =>
    { digest := x.1.1
      size := match x.1.2 with
        | .int n => n
        | _ => 0
      diffId := diffIds.getD x.2 x.1.1 }

/-- `_pull_base_image` -/
def pullBaseImage (b : Build) (stage : Stage) (base : Str) (w : World) :
    Except Failure (Stage × World) := do
  let (pulled, fs) ← b.pullImage base (rootfsDir b stage.index) w.fs
  let doc := if pulled.imageConfig.truthy then pulled.imageConfig
    else .obj [("config".toList, .obj [])]
  let imageConfig ← adoptImageConfig doc
  let layers := pulledLayers pulled.layers (imageConfig.diffIds.getD [])
  .ok ({ stage with
    imageConfig
    layers
    parentLayerDigest := ((layers.getLast?).map (·.digest)).getD stage.parentLayerDigest
    baseRef := base
    baseImageId := pulled.configDigest }, { w with fs })

/-- The base of a new stage: nothing, an earlier stage, or an image. -/
def startStage (b : Build) (e : Engine) (stage : Stage) (base : Str) :
    Except Failure (Stage × World) :=
  if isScratch base then .ok (stage, e.world)
  else
    match (Dict.get e.named base).bind (e.stages[·]?) with
    | some parent => inheritFromStage b stage parent e.world
    | none => pullBaseImage b stage base e.world

/-- Make the new stage the current one and known. -/
def register (e : Engine) (stage : Stage) (w : World) : Engine :=
  { e with
    stages := e.stages ++ [stage]
    named := Dict.set (match stage.name with
      | none => e.named
      | some name => Dict.set e.named name stage.index) (toString stage.index).toList stage.index
    world := w }

/-- FROM up to the triggers: the new stage is current and has its base. -/
def beginStage (b : Build) (e : Engine) (value : Value) : Except Failure Engine := do
  let text := match value with
    | .text s => s
    | .exec _ | .trigger _ => []
  let expanded ← expandForFrom b e.globalArgs text
  match fromParts expanded with
  | none => .error .build
  | some (base, name) => do
    let stage := Stage.new e.stages.length name
    let (_, w) ← e.world.sys (descendAt b.umask true b.tmpRoot
      [("stage-" ++ toString stage.index).toList, "rootfs".toList])
    let (stage, w) ← startStage b { e with world := w } stage base
    let w := { w with fs := b.configureDns (rootfsDir b stage.index) w.fs }
    .ok (e.register (decodeConfig stage) w)

def setFiring (e : Engine) (firing : Bool) : Engine :=
  { e with world := { e.world with firingOnbuild := firing } }

/-- One instruction of a trigger. -/
def runTriggered (b : Build) (e : Engine) (instr : Instr) : Except Failure Engine :=
  match e.current with
  | none => .error .build
  | some stage => runInstruction b e stage instr

/-- One trigger: what it parses to, in order. -/
def fireTrigger (b : Build) (e : Engine) (trigger : Str) : Except Failure Engine := do
  let instrs ← b.parseDockerfile (trigger ++ ['\n'])
  instrs.foldlM (runTriggered b) e

def fireTriggers (b : Build) (e : Engine) (triggers : List Str) : Except Failure Engine :=
  if triggers = [] then .ok e
  else do
    let e ← triggers.foldlM (fireTrigger b) (e.setFiring true)
    .ok (e.setFiring false)

/-- `_do_from` -/
def doFrom (b : Build) (e : Engine) (instr : Instr) : Except Failure Engine :=
  if b.targetStage.getD [] ≠ [] ∧ e.current.bind (·.name) = b.targetStage then
    .ok { e with stopAfter := true }
  else do
    let e ← beginStage b e instr.value
    fireTriggers b e ((e.current.bind (·.imageConfig.config.onBuild)).getD [])

/-! ## The run -/

def runOnbuild (b : Build) (e : Engine) (stage : Stage) (instr : Instr) :
    Except Failure Engine := do
  let (stage', w') ← doOnbuild b instr stage e.world
  .ok { e.setCurrent (recordHistory instr false stage') with world := w' }

/-- `_dispatch` -/
def dispatch (b : Build) (e : Engine) (instr : Instr) : Except Failure Engine :=
  if instr.name = .FROM then doFrom b e instr
  else
    match e.current with
    | none => if instr.name = .ARG then .ok e else .error .build
    | some stage =>
      if instr.name = .ONBUILD then runOnbuild b e stage instr
      else runInstruction b e stage instr

/-- What the first pass over the instructions collects. -/
structure Prescan where
  seenFrom : Bool
  globalArgs : Dict Str Str
  namedStages : List Str

/-- The name behind the last `AS` of a FROM. -/
def fromAsName (value : Str) : Option Str :=
  match (Text.words value).reverse with
  | name :: as :: rest =>
    if isAs as ∧ (rest ≠ [] ∨ value.head?.any Text.isSpace) then some name else none
  | _ => none

/-- `expand_vars` of a list, which it takes for a text of words: a dollar before a name or a brace
is an AttributeError or a TypeError, and `none`. -/
def expandList (isAlnum : Char → Bool) : List Str → Option Str
  | [] => some []
  | ['\\'] :: word :: words => (expandList isAlnum words).map (word ++ ·)
  | ['$'] :: word :: words =>
    if word = ['{'] ∨ word = ['_'] ∨ (word ≠ [] ∧ word.all isAlnum = true) then none
    else (expandList isAlnum (word :: words)).map ('$' :: ·)
  | word :: words => (expandList isAlnum words).map (word ++ ·)

/-- `_expand_for_from` of the value of a FROM. -/
def expandValueForFrom (b : Build) (scope : Dict Str Str) : Value → Except Failure Str
  | .text s => expandForFrom b scope s
  | .exec argv =>
    match expandList b.isAlnum argv with
    | none => .error .other
    | some s => .ok s
  | .trigger raw => expandForFrom b scope raw

def prescanStep (b : Build) (p : Prescan) (instr : Instr) : Except Failure Prescan :=
  match instr.name with
  | .FROM => do
    let value ← expandValueForFrom b (Dict.ofPairs b.userBuildArgs) instr.value
    .ok { p with seenFrom := true, namedStages := p.namedStages ++ (fromAsName value).toList }
  | .ARG =>
    if p.seenFrom then .ok p
    else
      let (key, default) := splitArg (spaceJoined instr.value)
      let value := (Dict.get b.userBuildArgs key).getD (default.getD [])
      if key = [] then .ok p
      else .ok { p with globalArgs := Dict.set p.globalArgs key value }
  | _ => .ok p

def prescan (b : Build) (instrs : List Instr) : Except Failure (Dict Str Str) := do
  let p ← instrs.foldlM (prescanStep b) ⟨false, [], []⟩
  if b.targetStage.getD [] ≠ [] ∧ b.targetStage.getD [] ∉ p.namedStages then .error .build
  else .ok p.globalArgs

/-- The engine before the first instruction. -/
def start (globalArgs : Dict Str Str) (w : World) : Engine :=
  { stages := [], named := [], globalArgs, stopAfter := false, world := w }

/-- One turn of the loop of `run`. -/
def step (b : Build) (e : Engine) (instr : Instr) : Except Failure Engine :=
  if e.stopAfter then .ok e else dispatch b e instr

/-- `_target`, of a run that begun a stage. -/
def target (b : Build) (e : Engine) : Except Failure Stage :=
  match e.current with
  | none => .error .build
  | some stage =>
    if b.targetStage.getD [] = [] then .ok stage
    else
      match (Dict.get e.named (b.targetStage.getD [])).bind (e.stages[·]?) with
      | none => .error .build
      | some stage => .ok stage

/-- `BuildEngine.run` -/
def run (b : Build) (instrs : List Instr) (w : World) : Except Failure (Stage × Engine) := do
  let globalArgs ← prescan b instrs
  let e ← instrs.foldlM (step b) (start globalArgs w)
  let stage ← target b e
  .ok (stage, e)

/-! ## Steps

A run, its triggers included, is a sequence of steps: a stage is begun, an instruction of the
current stage is carried out, or a mark is set that touches no stage. -/

/-- One step, with the instruction it carries out. -/
inductive Step (b : Build) : Engine → Option Instr → Engine → Prop
  | begin {e e' : Engine} {value : Value} (h : beginStage b e value = .ok e') : Step b e none e'
  | instr {e e' : Engine} {stage : Stage} {i : Instr} (hcur : e.current = some stage)
      (h : runInstruction b e stage i = .ok e') : Step b e (some i) e'
  | onbuild {e e' : Engine} {stage : Stage} {i : Instr} (hcur : e.current = some stage)
      (h : runOnbuild b e stage i = .ok e') : Step b e (some i) e'
  | firing (e : Engine) (on : Bool) : Step b e none (e.setFiring on)
  | stop (e : Engine) : Step b e none { e with stopAfter := true }

/-- The states a run may go through whose instructions are all in `ok`. -/
def Reaches (b : Build) (ok : Instr → Prop) : Engine → Engine → Prop :=
  Relation.ReflTransGen fun e e' => ∃ label, Step b e label e' ∧ ∀ i ∈ label, ok i

section Reaching

variable {b : Build} {ok : Instr → Prop} {e e' : Engine} {i : Instr}

/-- One step more. -/
theorem Reaches.step {label : Option Instr} (h : Step b e label e') (hok : ∀ i ∈ label, ok i) :
    Reaches b ok e e' :=
  Relation.ReflTransGen.single ⟨label, h, hok⟩

/-- What every step preserves holds of every state reached. -/
theorem Reaches.invariant {I : Engine → Prop} (h : Reaches b ok e e') (he : I e)
    (hstep : ∀ e label e', Step b e label e' → (∀ i ∈ label, ok i) → I e → I e') : I e' := by
  induction h with
  | refl => exact he
  | tail _ hlast ih =>
    obtain ⟨label, hs, hok⟩ := hlast
    exact hstep _ label _ hs hok ih

/-- An instruction run by a trigger is a step. -/
theorem runTriggered_reaches (hok : ok i) (h : runTriggered b e i = .ok e') : Reaches b ok e e' := by
  unfold runTriggered at h
  split at h
  · cases h
  · rename_i stage hcur
    refine .step (.instr hcur h) fun j hj => ?_
    rw [Option.mem_some_iff] at hj
    exact hj ▸ hok

/-- A loop whose turns reach what they answer reaches what it answers. -/
theorem reaches_foldlM {α : Type} {f : Engine → α → Except Failure Engine} {l : List α}
    (hf : ∀ e a e', a ∈ l → f e a = .ok e' → Reaches b ok e e') (h : l.foldlM f e = .ok e') :
    Reaches b ok e e' :=
  Result.foldlM_invariant (I := fun e' => Reaches b ok e e') .refl
    (fun _ a _ ha hr hs => hr.trans (hf _ a _ ha hs)) h

/-- The triggers that fire are a run. -/
theorem fireTriggers_reaches {triggers : List Str}
    (hok : ∀ t ∈ triggers, ∀ instrs, b.parseDockerfile (t ++ ['\n']) = .ok instrs →
      ∀ i ∈ instrs, ok i)
    (h : fireTriggers b e triggers = .ok e') : Reaches b ok e e' := by
  unfold fireTriggers at h
  split at h
  · cases h
    exact .refl
  · obtain ⟨e₁, hfold, hlast⟩ := Result.bind_ok h
    cases hlast
    have hloop : Reaches b ok (e.setFiring true) e₁ := by
      refine reaches_foldlM (fun e₂ t e₃ ht hfire => ?_) hfold
      obtain ⟨instrs, hparse, hrun⟩ := Result.bind_ok hfire
      exact reaches_foldlM (fun _ i _ hi => runTriggered_reaches (hok t ht instrs hparse i hi)) hrun
    have hon : Reaches b ok e (e.setFiring true) := .step (.firing e true) (by simp)
    have hoff : Reaches b ok e₁ (e₁.setFiring false) := .step (.firing e₁ false) (by simp)
    exact (hon.trans hloop).trans hoff

/-- The instructions of a Dockerfile and of every trigger are in `ok`. -/
structure Admits (b : Build) (ok : Instr → Prop) (instrs : List Instr) : Prop where
  own : ∀ i ∈ instrs, ok i
  triggered : ∀ text parsed, b.parseDockerfile text = .ok parsed → ∀ i ∈ parsed, ok i

theorem dispatch_reaches {instrs : List Instr} (hok : Admits b ok instrs) (hi : i ∈ instrs)
    (h : dispatch b e i = .ok e') : Reaches b ok e e' := by
  have hlabel : ∀ j ∈ some i, ok j := by
    intro j hj
    rw [Option.mem_some_iff] at hj
    exact hj ▸ hok.own i hi
  unfold dispatch at h
  split at h
  · unfold doFrom at h
    split at h
    · cases h
      exact .step (.stop e) (by simp)
    · obtain ⟨e₁, hbegin, hfire⟩ := Result.bind_ok h
      have hbase : Reaches b ok e e₁ := .step (.begin hbegin) (by simp)
      exact hbase.trans (fireTriggers_reaches (fun t _ => hok.triggered _) hfire)
  · split at h
    · split at h
      · cases h
        exact .refl
      · cases h
    · rename_i stage hcur
      split at h
      · exact .step (.onbuild hcur h) hlabel
      · exact .step (.instr hcur h) hlabel

/-- The loop of a run is made of steps. -/
theorem foldlM_step_reaches {instrs : List Instr} (hok : Admits b ok instrs)
    (h : instrs.foldlM (step b) e = .ok e') : Reaches b ok e e' := by
  refine reaches_foldlM (fun e₂ i e₃ hi hs => ?_) h
  unfold step at hs
  split at hs
  · cases hs
    exact .refl
  · exact dispatch_reaches hok hi hs

/-- **A run is made of steps.** Where it answers, its last state is one it reaches. -/
theorem run_reaches {instrs : List Instr} {w : World} {stage : Stage} (hok : Admits b ok instrs)
    (h : run b instrs w = .ok (stage, e)) :
    ∃ globalArgs, Reaches b ok (start globalArgs w) e ∧ target b e = .ok stage := by
  unfold run at h
  obtain ⟨globalArgs, -, h⟩ := Result.bind_ok h
  obtain ⟨e₁, hfold, h⟩ := Result.bind_ok h
  obtain ⟨stage₁, htarget, h⟩ := Result.bind_ok h
  cases h
  exact ⟨globalArgs, foldlM_step_reaches hok hfold, htarget⟩

end Reaching

/-! ### A build on paper

No registry, no triggers, and a proot that succeeds and changes nothing. -/

def onPaper : Build where
  umask := 0o022
  refuses := fun _ => noRefusals
  tmpRoot := ["tmp".toList]
  isTermux := false
  termuxPrefix := []
  environ := []
  targetArch := "amd64".toList
  hostArch := "amd64".toList
  userBuildArgs := []
  targetStage := none
  noCache := false
  isAlnum := Char.isAlphanum
  strOfList := Json.dumpsStrList
  jsonLoads := fun _ => none
  sha256 := id
  parseDockerfile := fun _ => .error .dockerfile
  pack := fun _ => ⟨"sha256:0".toList, 0, "sha256:0".toList⟩
  pullImage := fun _ _ _ => .error .build
  enumerate := fun _ _ _ _ => .ok []
  configureDns := fun _ fs => fs
  l2sDir := fun _ _ => none
  execProot := fun _ _ fs => (0, fs)

def emptyWorld : World where
  fs := Fs.ofList [(["tmp".toList], .dir 0o755)]
  blobs := []
  cacheIndex := []
  firingOnbuild := false
  calls := []

/-- An instruction with one line of text. -/
def textInstr (name : Keyword) (text : String) : Instr :=
  ⟨name, [], .text text.toList, [], name.name ++ ' ' :: text.toList⟩

def execInstr (name : Keyword) (argv : List String) : Instr :=
  ⟨name, [], .exec (argv.map String.toList), [], name.name⟩

end Engine

end BuildEngine

end ProotDistro
