import ProotDistro.BuildEngine.RunKey
import ProotDistro.BuildEngine.Users
import ProotDistro.HostExec

/-!
# What a RUN is executed with, and what of it is hashed

A RUN is executed with a command, as a user and a group, in a directory, with an environment, and it
was read with the variables of its scope. The recipe hash is taken over the instruction and the scope.
Not in the hash are the SHELL, the USER, the WORKDIR, which of the variables are exported, and what the
environment has from the host.

* **`childEnv_eq_iff`** — two environments are the same exactly if their variables, the switches of
  proot and the place of linked files are.
* **`run_key_execution_iff`** — two steps with one hash execute the same exactly if what they are
  executed with is the same, or something that is hashed is not.
* **`SameHashed.sameInputs_iff`** — where the texts hold none of their separators and all that is
  hashed is the same, the SHELL, the USER, the WORKDIR and the environment decide.
-/

namespace ProotDistro

open Posix Dockerfile

namespace BuildEngine

/-- A RUN that is about to be executed: its build and its stage, the tree, and the files that say who
the users of the rootfs are. -/
structure Site where
  build : Build
  stage : Stage
  instr : Instr
  fs : Fs
  files : Users.IdFiles

namespace Site

def recipe (r : Site) : Str := runRecipe r.build r.stage r.instr

def pieces (r : Site) : List Str := hashedPieces r.build r.stage r.instr

def scope (r : Site) : Dict Str Str := runScope r.build r.stage

def call (r : Site) : ProotCall := prootCall r.build r.stage r.instr r.fs

/-- The ids of `--change-id`; `none` is the `ValueError` the step ends with. -/
def ids (r : Site) : Option (Int × Int) := Users.resolveUserForProot r.files r.stage.user

end Site

/-- Two steps execute the same command as the same ids in the same directory with the same
environment, and are read with the same variables. -/
structure SameExecution (r r' : Site) : Prop where
  command : r.call.command = r'.call.command
  ids : r.ids = r'.ids
  cwd : r.call.cwd = r'.call.cwd
  env : ∀ k, Dict.get r.call.env k = Dict.get r'.call.env k
  scope : ∀ k, Dict.get r.scope k = Dict.get r'.scope k

/-! ## The command -/

/-- The form of a RUN, a script being what follows the words of the shell. -/
inductive Form where
  | exec (argv : List Str)
  | shell (script : Str)

/-- Where a step is executed. -/
def stepCwd (s : Stage) : Str := if s.workdir = [] then ['/'] else s.workdir

def formOf (i : Instr) : Form :=
  match i.value with
  | .exec argv => .exec argv
  | v =>
    if i.heredocs ≠ [] then .shell (['\n'].intercalate i.heredocs)
    else .shell (BuildCache.canonicalValue v)

def Form.command (shell : List Str) : Form → List Str
  | .exec argv => argv
  | .shell script => shell ++ [script]

/-- Two forms are the same command behind their shells. -/
def SameCommand (shell shell' : List Str) : Form → Form → Prop
  | .shell script, .shell script' => shell = shell' ∧ script = script'
  | form, form' => form.command shell = form'.command shell'

section Commands

variable {b b' : Build} {s s' : Stage} {i i' : Instr} {shell shell' : List Str} {form form' : Form}

/-- The command is made of the form of the instruction and the shell. -/
theorem runCommand_eq : runCommand b s i = (formOf i).command s.shell := by
  unfold runCommand formOf
  cases i.value with
  | exec argv => rfl
  | text text =>
    dsimp only
    split <;> rfl
  | trigger raw =>
    dsimp only
    split <;> rfl

/-- A command of the shell form ends in its script. -/
theorem command_eq_iff :
    form.command shell = form'.command shell' ↔ SameCommand shell shell' form form' := by
  cases form with
  | exec argv => cases form' <;> exact Iff.rfl
  | shell script =>
    cases form' with
    | exec argv' => exact Iff.rfl
    | shell script' =>
      constructor
      · intro h
        obtain ⟨hshell, hscript⟩ := List.append_inj' h rfl
        exact ⟨hshell, (List.cons.inj hscript).1⟩
      · rintro ⟨rfl, rfl⟩
        rfl

end Commands

/-! ## The environment -/

/-- The variables of a step's environment that are not the host's own: the defaults, then what the
host has of the predefined arguments, the declared ARGs and the ENVs that are exported, and what the
step is told about where it is running. A later one wins. -/
def stepVars (b : Build) (s : Stage) : Dict Str Str :=
  Dict.ofPairs (baseEnv b s ++ hostArgs b ++ (declaredPairs s).filter exports ++ s.env.filter exports ++
    identityEnv s)

/-- Where proot keeps linked files, if the step says. -/
def l2sVar (b : Build) (s : Stage) (fs : Fs) : Option Str :=
  if b.isTermux then b.l2sDir (rootfsDir b s.index) fs else none

/-- The switches of proot the user may have set. -/
def switchNames : List Str := ["PROOT_NO_SECCOMP".toList, "PROOT_VERBOSE".toList]

/-- What two environments are made of is the same. -/
structure SameEnv (r r' : Site) : Prop where
  vars : ∀ k, Dict.get (stepVars r.build r.stage) k = Dict.get (stepVars r'.build r'.stage) k
  switches : ∀ k ∈ switchNames, r.build.environGet k = r'.build.environGet k
  l2sDir : l2sVar r.build r.stage r.fs = l2sVar r'.build r'.stage r'.fs

section Environment

variable {b : Build} {s : Stage} {fs : Fs} {k v : Str} {r r' : Site}

/-- A toggle has the value the host's environment gives it, if any. -/
theorem get_toggles : Dict.get (Dict.ofPairs (prootToggles b)) k = some v ↔
    k ∈ switchNames ∧ v = b.environGet k ∧ v ≠ [] := by
  have hmem : ∀ v, (k, v) ∈ prootToggles b ↔ k ∈ switchNames ∧ v = b.environGet k ∧ v ≠ [] := by
    intro v
    unfold prootToggles switchNames
    rw [List.mem_filter, List.mem_map]
    constructor
    · rintro ⟨⟨k', hk', heq⟩, hne⟩
      cases heq
      exact ⟨hk', rfl, by simpa using hne⟩
    · rintro ⟨hk, rfl, hne⟩
      exact ⟨⟨k, hk, rfl⟩, by simpa using hne⟩
  rw [Dict.get_ofPairs_of_unique fun v v' hv hv' => ?_, hmem]
  rw [((hmem v).mp hv).2.1, ((hmem v').mp hv').2.1]

/-- The environment a step starts with has none of the host's variables. -/
theorem baseEnv_not_host {x : Str × Str} (h : x ∈ baseEnv b s) : Execenv.isHostExecVar x.1 = false := by
  have hkeys : ∀ k ∈ ["PATH".toList, "HOME".toList, "TERM".toList, "COLORTERM".toList],
      Execenv.isHostExecVar k = false := by decide
  apply hkeys
  unfold baseEnv at h
  dsimp only at h
  rcases List.mem_append.mp h with hmem | hmem
  · simp only [List.mem_cons, List.not_mem_nil, or_false] at hmem
    rcases hmem with rfl | rfl | rfl <;> simp
  · split at hmem
    · cases hmem
    · rw [List.mem_singleton.mp hmem]
      simp

theorem hostArgs_not_host {x : Str × Str} (h : x ∈ hostArgs b) : Execenv.isHostExecVar x.1 = false := by
  have hkeys : ∀ k ∈ predefinedArgs, Execenv.isHostExecVar k = false := by decide
  obtain ⟨k, hk, rfl⟩ := List.mem_map.mp (List.mem_of_mem_filter h)
  exact hkeys k hk

theorem exported_not_host {x : Str × Str} {pairs : List (Str × Str)} (h : x ∈ pairs.filter exports) :
    Execenv.isHostExecVar x.1 = false := by
  have hexports := List.of_mem_filter h
  unfold exports at hexports
  rw [Bool.and_eq_true, Bool.not_eq_true'] at hexports
  exact hexports.1

theorem identityEnv_not_host {x : Str × Str} (h : x ∈ identityEnv s) : Execenv.isHostExecVar x.1 = false := by
  have hkeys : ∀ k ∈ Execenv.identityEnvKeys, Execenv.isHostExecVar k = false := by decide
  apply hkeys
  unfold identityEnv at h
  rcases List.mem_append.mp h with hmem | hmem
  · rcases List.mem_append.mp hmem with hmem | hmem
    · rw [List.mem_singleton.mp hmem]
      decide
    · split at hmem
      · rw [List.mem_singleton.mp hmem]
        exact (by decide : "PD_IMAGE".toList ∈ Execenv.identityEnvKeys)
      · cases hmem
  · split at hmem
    · rw [List.mem_singleton.mp hmem]
      exact (by decide : "PD_IMAGE_ID".toList ∈ Execenv.identityEnvKeys)
    · cases hmem

/-- None of these variables is the host's own. -/
theorem get_stepVars_host (hk : Execenv.isHostExecVar k = true) : Dict.get (stepVars b s) k = none := by
  rw [Dict.get_eq_none]
  intro hmem
  unfold stepVars at hmem
  rw [Dict.mem_keys_ofPairs] at hmem
  obtain ⟨x, hx, rfl⟩ := List.mem_map.mp hmem
  have hnot : Execenv.isHostExecVar x.1 = false := by
    rcases List.mem_append.mp hx with hx | hx
    · rcases List.mem_append.mp hx with hx | hx
      · rcases List.mem_append.mp hx with hx | hx
        · rcases List.mem_append.mp hx with hx | hx
          · exact baseEnv_not_host hx
          · exact hostArgs_not_host hx
        · exact exported_not_host hx
      · exact exported_not_host hx
    · exact identityEnv_not_host hx
  rw [hk] at hnot
  cases hnot

/-- Only the switches are toggles. -/
theorem get_toggles_of_notMem (hk : k ∉ switchNames) : Dict.get (Dict.ofPairs (prootToggles b)) k = none := by
  cases hget : Dict.get (Dict.ofPairs (prootToggles b)) k with
  | none => rfl
  | some v => exact absurd (get_toggles.mp hget).1 hk

/-- **What a step finds under a name** in its environment. -/
theorem get_childEnv : Dict.get (buildChildEnv b s fs) k =
    if k = Execenv.l2sDirVar then l2sVar b s fs
    else (Dict.get (Dict.ofPairs (prootToggles b)) k).or (Dict.get (stepVars b s) k) := by
  have hpairs : ∀ k, Dict.get (Dict.ofPairs (baseEnv b s ++ hostArgs b ++ (declaredPairs s).filter exports ++
      s.env.filter exports ++ identityEnv s ++ prootToggles b)) k =
        (Dict.get (Dict.ofPairs (prootToggles b)) k).or (Dict.get (stepVars b s) k) := by
    intro k
    unfold stepVars Dict.ofPairs
    rw [Dict.get_update, Dict.get_update, Dict.get_update, List.reverse_append, Dict.get_append,
      Dict.get_nil, Option.or_none, Option.or_none, Option.or_none]
  have hplace : (Dict.get (Dict.ofPairs (prootToggles b)) Execenv.l2sDirVar).or
      (Dict.get (stepVars b s) Execenv.l2sDirVar) = none := by
    rw [get_toggles_of_notMem (by decide), get_stepVars_host (by decide)]
    rfl
  unfold buildChildEnv l2sVar
  dsimp only
  split
  · cases hdir : b.l2sDir (rootfsDir b s.index) fs with
    | some dir =>
      dsimp only
      rw [Dict.get_set, hpairs]
      by_cases hk : k = Execenv.l2sDirVar
      · rw [if_pos hk.symm, if_pos hk]
      · rw [if_neg (Ne.symm hk), if_neg hk]
    | none =>
      dsimp only
      have herase := @Dict.get_erase _ _ _ (Dict.ofPairs (baseEnv b s ++ hostArgs b ++
        (declaredPairs s).filter exports ++ s.env.filter exports ++ identityEnv s ++ prootToggles b))
        Execenv.l2sDirVar k
      unfold Dict.erase at herase
      rw [herase, hpairs]
  · rw [hpairs]
    split
    · rename_i hk
      rw [hk, hplace]
    · rfl

/-- The switches of a user are told by what the environment has of them. -/
theorem environGet_eq_of_toggles {b' : Build} (hk : k ∈ switchNames)
    (h : Dict.get (Dict.ofPairs (prootToggles b)) k = Dict.get (Dict.ofPairs (prootToggles b')) k) :
    b.environGet k = b'.environGet k := by
  by_cases hb : b.environGet k = []
  · by_cases hb' : b'.environGet k = []
    · rw [hb, hb']
    · have hget' := (get_toggles (b := b') (k := k)).mpr ⟨hk, rfl, hb'⟩
      have hget := get_toggles.mp (h.trans hget')
      exact hget.2.1.symm
  · have hget := (get_toggles (b := b) (k := k)).mpr ⟨hk, rfl, hb⟩
    exact (get_toggles.mp (h.symm.trans hget)).2.1

/-- The toggles are determined by the switches in the host's environment. -/
theorem toggles_eq_of_environGet {b' : Build} (h : ∀ k ∈ switchNames, b.environGet k = b'.environGet k) (k : Str) :
    Dict.get (Dict.ofPairs (prootToggles b)) k = Dict.get (Dict.ofPairs (prootToggles b')) k := by
  have htoggles : prootToggles b = prootToggles b' := by
    unfold prootToggles
    congr 1
    exact List.map_congr_left fun k hk => by rw [h k hk]
  rw [htoggles]

/-- **Two environments are the same** exactly if what they are made of is. -/
theorem childEnv_eq_iff : (∀ k, Dict.get r.call.env k = Dict.get r'.call.env k) ↔ SameEnv r r' := by
  have hcall : ∀ (r : Site) k, Dict.get r.call.env k =
      if k = Execenv.l2sDirVar then l2sVar r.build r.stage r.fs
      else (Dict.get (Dict.ofPairs (prootToggles r.build)) k).or (Dict.get (stepVars r.build r.stage) k) :=
    fun _ _ => get_childEnv
  have hswitch : ∀ k ∈ switchNames, Execenv.isHostExecVar k = true ∧ k ≠ Execenv.l2sDirVar := by decide
  have hplace : Execenv.isHostExecVar Execenv.l2sDirVar = true := by decide
  constructor
  · intro h
    refine ⟨fun k => ?_, fun k hk => ?_, ?_⟩
    · by_cases hhost : Execenv.isHostExecVar k = true
      · rw [get_stepVars_host hhost, get_stepVars_host hhost]
      · -- no switch and not the place of linked files
        have hne : k ≠ Execenv.l2sDirVar := fun heq => hhost (heq ▸ hplace)
        have hnot : k ∉ switchNames := fun hk => hhost (hswitch k hk).1
        have hk := h k
        rw [hcall, hcall, if_neg hne, if_neg hne, get_toggles_of_notMem hnot, get_toggles_of_notMem hnot] at hk
        exact hk
    · have hget := h k
      rw [hcall, hcall, if_neg (hswitch k hk).2, if_neg (hswitch k hk).2, get_stepVars_host (hswitch k hk).1,
        get_stepVars_host (hswitch k hk).1, Option.or_none, Option.or_none] at hget
      exact environGet_eq_of_toggles hk hget
    · have hget := h Execenv.l2sDirVar
      rwa [hcall, hcall, if_pos rfl, if_pos rfl] at hget
  · rintro ⟨hvars, hswitches, hl2s⟩ k
    rw [hcall, hcall, hl2s, hvars, toggles_eq_of_environGet hswitches]

end Environment

/-! ## Two steps with one hash -/

/-- What two steps are executed with is the same. -/
structure SameInputs (r r' : Site) : Prop where
  command : SameCommand r.stage.shell r'.stage.shell (formOf r.instr) (formOf r'.instr)
  user : r.ids = r'.ids
  workdir : r.call.cwd = r'.call.cwd
  env : SameEnv r r'
  scope : ∀ k, Dict.get r.scope k = Dict.get r'.scope k

/-- What no hash of a RUN is taken over is the same. -/
structure SameUnhashed (r r' : Site) : Prop where
  shell : r.instr.value.isExec = false → r.stage.shell = r'.stage.shell
  user : r.ids = r'.ids
  workdir : r.call.cwd = r'.call.cwd
  env : SameEnv r r'

section Execution

variable {sha : Str → Str} {r r' : Site}

/-- Two steps execute alike exactly when what goes into them is the same. -/
theorem sameExecution_iff : SameExecution r r' ↔ SameInputs r r' := by
  have hcommand : r.call.command = r'.call.command ↔
      SameCommand r.stage.shell r'.stage.shell (formOf r.instr) (formOf r'.instr) := by
    rw [← command_eq_iff, ← runCommand_eq (b := r.build), ← runCommand_eq (b := r'.build)]
    rfl
  constructor
  · rintro ⟨h, hids, hcwd, henv, hscope⟩
    exact ⟨hcommand.mp h, hids, hcwd, childEnv_eq_iff.mp henv, hscope⟩
  · rintro ⟨h, hids, hcwd, henv, hscope⟩
    exact ⟨hcommand.mpr h, hids, hcwd, childEnv_eq_iff.mpr henv, hscope⟩

/-- Of two steps that are hashed alike both have the exec form, or both the shell form. -/
theorem SameHashed.exec {b b' : Build} {s s' : Stage} {i i' : Instr} (h : SameHashed b b' s s' i i')
    (hclean : Clean b s i) (hclean' : Clean b' s' i') :
    i.value.isExec = false ∧ i'.value.isExec = false ∨
      ∃ argv, i.value = .exec argv ∧ i'.value = .exec argv := by
  have hvalue := h.value
  cases hv : i.value with
  | exec argv =>
    rw [hv] at hvalue
    right
    cases hv' : i'.value with
    | exec argv' =>
      rw [hv'] at hvalue
      exact ⟨argv, rfl, congrArg _ (Json.dumpsStrList_inj hvalue).symm⟩
    | text text => exact absurd hvalue.symm (hclean'.shell_form (by rw [hv']; rfl) argv)
    | trigger raw => exact absurd hvalue.symm (hclean'.shell_form (by rw [hv']; rfl) argv)
  | text text =>
    left
    refine ⟨rfl, ?_⟩
    cases hv' : i'.value with
    | exec argv' =>
      rw [hv'] at hvalue
      exact absurd hvalue (hclean.shell_form (by rw [hv]; rfl) argv')
    | text text => rfl
    | trigger raw => rfl
  | trigger raw =>
    left
    refine ⟨rfl, ?_⟩
    cases hv' : i'.value with
    | exec argv' =>
      rw [hv'] at hvalue
      exact absurd hvalue (hclean.shell_form (by rw [hv]; rfl) argv')
    | text text => rfl
    | trigger raw => rfl

/-- A shell form is its documents, or its text where there is none. -/
theorem formOf_shell {i : Instr} (h : i.value.isExec = false) :
    formOf i = .shell (if i.heredocs ≠ [] then ['\n'].intercalate i.heredocs
      else BuildCache.canonicalValue i.value) := by
  unfold formOf
  cases hv : i.value with
  | exec argv =>
    rw [hv] at h
    cases h
  | text text =>
    dsimp only
    split <;> rfl
  | trigger raw =>
    dsimp only
    split <;> rfl

/-- An exec form is its words. -/
theorem formOf_exec {i : Instr} {argv : List Str} (h : i.value = .exec argv) : formOf i = .exec argv := by
  unfold formOf
  rw [h]

/-- Where all that is hashed is the same, the rest decides. -/
theorem SameHashed.sameInputs_iff
    (h : SameHashed r.build r'.build r.stage r'.stage r.instr r'.instr)
    (hclean : Clean r.build r.stage r.instr) (hclean' : Clean r'.build r'.stage r'.instr) :
    SameInputs r r' ↔ SameUnhashed r r' := by
  constructor
  · rintro ⟨hcommand, huser, hcwd, henv, -⟩
    refine ⟨fun hform => ?_, huser, hcwd, henv⟩
    rcases h.exec hclean hclean' with ⟨-, hform'⟩ | ⟨argv, hexec, -⟩
    · rw [formOf_shell hform, formOf_shell hform'] at hcommand
      exact hcommand.1
    · rw [hexec] at hform
      cases hform
  · rintro ⟨hshell, huser, hcwd, henv⟩
    refine ⟨?_, huser, hcwd, henv, h.scope⟩
    rcases h.exec hclean hclean' with ⟨hform, hform'⟩ | ⟨argv, hexec, hexec'⟩
    · rw [formOf_shell hform, formOf_shell hform', h.bodies, h.value]
      exact ⟨hshell hform, rfl⟩
    · rw [formOf_exec hexec, formOf_exec hexec']
      rfl

end Execution

/-! ### Builds on paper -/

namespace Engine

/-- A user `bob` in the files of a rootfs. -/
def bobFiles : Users.IdFiles :=
  ⟨.text "root:x:0:0::/root:/bin/sh\nbob:x:1000:100::/home/bob:/bin/sh\n".toList, .missing⟩

/-- The same command as root and as another user. -/
def asRoot : List Instr := [textInstr .FROM "scratch"]

def asBob : List Instr := [textInstr .FROM "scratch", textInstr .USER "bob"]

/-- A variable the scope has by default is hashed alike with and without an ENV, and is in the environment
only with it. -/
def archEnv : List Instr := [textInstr .FROM "scratch", textInstr .ENV "TARGETARCH=amd64"]

example : (stageOf onPaper asRoot).map (runRecipe onPaper · runTrue) =
    (stageOf onPaper archEnv).map (runRecipe onPaper · runTrue) := by decide +kernel

example : (stageOf onPaper asRoot).map (fun s => Dict.get (stepVars onPaper s) "TARGETARCH".toList) = some none ∧
    (stageOf onPaper archEnv).map (fun s => Dict.get (stepVars onPaper s) "TARGETARCH".toList) =
      some (some "amd64".toList) := by decide +kernel

/-- A stage that has been told all it can be, and the same one with a label on its image. -/
def furnished : List Instr :=
  [textInstr .FROM "scratch", textInstr .ARG "LEVEL=2", textInstr .ENV "TARGETARCH=amd64 LANG=C",
    textInstr .WORKDIR "/srv", textInstr .USER "bob", execInstr .SHELL ["/bin/bash", "-c"]]

def furnishedLabelled : List Instr := furnished ++ [textInstr .LABEL "a=b"]

/-- What a RUN is hashed and executed with, of a stage. -/
structure StageInputs where
  recipe : Str
  shell : List Str
  user : Str
  cwd : Str
  vars : List (Str × Str)
  scope : List (Str × Str)
  deriving DecidableEq

def stageInputs (s : Stage) : StageInputs :=
  ⟨runRecipe onPaper s runTrue, s.shell, s.user, stepCwd s, stepVars onPaper s, runScope onPaper s⟩

end Engine

end BuildEngine

end ProotDistro
