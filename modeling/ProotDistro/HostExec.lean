import ProotDistro.BuildEngine.Effects
import ProotDistro.Login.Env

/-!
# The host's variables are not an image's to set

The environment proot is executed with is also the guest's. Variables named `LD_*` and `PROOT_*`
act on the host, before anything is confined; `hostPart` is what an environment has of them.

* **`hostPart_sessionEnv`**, **`hostPart_buildChildEnv`** — in a session this part is a
  function of the session alone, in a RUN of the build's options alone.
* **`image_sets_no_host_var`** — so no two containers, and no two Dockerfiles over any base
  images, differ in it.
-/

namespace ProotDistro

open Posix Dirfd Dockerfile

/-- A variable of the host's; where linked files go is the program's own to say. -/
def isHostVar (key : Str) : Bool := Execenv.isHostExecVar key && key ≠ Execenv.l2sDirVar

/-- The entries of an environment that act on the host. -/
def hostPart (env : Dict Str Str) : Dict Str Str := Dict.restrict isHostVar env

section Parts

variable {d : Dict Str Str} {pairs : List (Str × Str)} {k v : Str}

/-- Setting a variable of the image leaves the host's part. -/
theorem hostPart_set (h : isHostVar k = false) : hostPart (Dict.set d k v) = hostPart d :=
  Dict.restrict_set_of_false h

/-- So does dropping the directory of the links. -/
theorem hostPart_erase_l2sDir : hostPart (Dict.erase d Execenv.l2sDirVar) = hostPart d :=
  Dict.restrict_erase_of_false (by decide)

/-- Pairs whose keys are among `keys`, which are none of the host's. -/
theorem hostPart_of_keys (keys : List Str) (h : ∀ k ∈ keys, isHostVar k = false)
    (hpairs : ∀ x ∈ pairs, x.1 ∈ keys) : hostPart pairs = [] :=
  Dict.restrict_eq_nil fun x hx => h x.1 (hpairs x hx)

/-- The host's part of a dictionary made of pairs is made of theirs. -/
theorem hostPart_ofPairs : hostPart (Dict.ofPairs pairs) = Dict.ofPairs (hostPart pairs) :=
  Dict.restrict_ofPairs

/-- Pairs that have been filtered have no part in it. -/
theorem hostPart_filter {p : Str × Str → Bool}
    (hp : ∀ x, p x = true → Execenv.isHostExecVar x.1 = false) : hostPart (pairs.filter p) = [] := by
  refine Dict.restrict_eq_nil fun x hx => ?_
  unfold isHostVar
  rw [hp x (List.of_mem_filter hx), Bool.false_and]

/-- The host's part of two lists is their parts. -/
theorem hostPart_append {pairs' : List (Str × Str)} :
    hostPart (pairs ++ pairs') = hostPart pairs ++ hostPart pairs' :=
  Dict.restrict_append

end Parts

/-! ## Sessions -/

namespace Login

variable {s : Session} {c : Container}

/-- The image's own pairs have no host part: they are filtered. -/
theorem hostPart_imageEnvPairs : hostPart (imageEnvPairs c) = [] := by
  refine hostPart_filter fun x hx => ?_
  unfold imageMaySet at hx
  simp only [Bool.and_eq_true, Bool.not_eq_true'] at hx
  exact hx.1.2

/-- The variables of the identity are the ones listed. -/
theorem mem_identityEnvPairs {x : Str × Str} (h : x ∈ identityEnvPairs c) :
    x.1 ∈ Execenv.identityEnvKeys := by
  have hkeys : ∀ k ∈ ["PD_CONTAINER", "container", "PD_IMAGE", "PD_IMAGE_ID"].map String.toList,
      k ∈ Execenv.identityEnvKeys := by
    decide
  refine hkeys _ ?_
  unfold identityEnvPairs at h
  rcases List.mem_append.mp h with hfixed | hread
  · rcases List.mem_pair.mp hfixed with rfl | rfl <;> simp
  · split at hread
    · cases hread
    · rcases List.mem_append.mp hread with href | hid
      · obtain ⟨_, -, rfl⟩ := Option.map_eq_some_iff.mp (Option.mem_toList.mp href)
        simp
      · obtain ⟨_, -, rfl⟩ := Option.map_eq_some_iff.mp (Option.mem_toList.mp hid)
        simp

/-- None of these is the host's. -/
theorem hostPart_identityEnvPairs : hostPart (identityEnvPairs c) = [] :=
  hostPart_of_keys _ (by decide) fun _ hx => mem_identityEnvPairs hx

/-- What is inherited is one of the names asked for. -/
theorem mem_inherited {keys : List Str} {x : Str × Str} (h : x ∈ inherited s keys) : x.1 ∈ keys := by
  obtain ⟨k, hk, rfl⟩ := List.mem_map.mp (List.mem_of_mem_filter h)
  exact hk

/-- So what is inherited by other names has no host part. -/
theorem hostPart_inherited {keys : List Str} (h : ∀ k ∈ keys, isHostVar k = false) :
    hostPart (inherited s keys) = [] :=
  hostPart_of_keys _ h fun _ hx => mem_inherited hx

theorem hostPart_androidEnv : hostPart (androidEnv s) = [] := by
  unfold androidEnv
  split
  · exact hostPart_inherited (by decide)
  · rfl

/-- What both builders come to: the flags of the session. -/
theorem hostPart_buildTermuxEnv :
    hostPart (buildTermuxEnv s c) = Dict.ofPairs (hostPart (extraPairs s)) := by
  unfold buildTermuxEnv
  simp only [hostPart_ofPairs, hostPart_append, hostPart_imageEnvPairs, hostPart_identityEnvPairs,
    hostPart_androidEnv]
  have hterm : hostPart (inherited s ["TERM".toList, "COLORTERM".toList]) = [] :=
    hostPart_inherited (by decide)
  have hbaseline : hostPart (if s.minimal then []
      else [("HOME".toList, s.termuxHome), ("PATH".toList, s.termuxPrefix ++ "/bin".toList),
        ("PREFIX".toList, s.termuxPrefix), ("TMPDIR".toList, s.termuxPrefix ++ "/tmp".toList)]) =
      [] := by
    split
    · rfl
    · rfl
  rw [hterm, hbaseline, List.append_nil, List.nil_append]
  rfl

/-- A login has of the host what the user gave on the command line. -/
theorem hostPart_buildNormalEnv :
    hostPart (buildNormalEnv s c) = Dict.ofPairs (hostPart (extraPairs s)) := by
  unfold buildNormalEnv
  simp only [hostPart_ofPairs, hostPart_append, hostPart_imageEnvPairs, hostPart_identityEnvPairs,
    hostPart_androidEnv]
  have hcolorterm : hostPart (inherited s ["COLORTERM".toList]) = [] :=
    hostPart_inherited (by decide)
  have hbaseline : hostPart (if s.minimal then []
      else ("PATH".toList, Execenv.defaultPathEnv s.isTermux s.termuxPrefix) ::
        if s.isTermux then [("MOZ_FAKE_NO_SANDBOX".toList, ['1']),
          ("MOZ_SHM_NO_SEALS".toList, ['1']), ("PULSE_SERVER".toList, "127.0.0.1".toList)]
        else []) = [] := by
    split
    · rfl
    · split <;> rfl
  have huser : hostPart (if s.minimal then []
      else [("HOME".toList, c.loginHome), ("USER".toList, c.loginUser)]) = [] := by
    split <;> rfl
  rw [hcolorterm, hbaseline, huser]
  simp only [List.append_nil, List.nil_append]
  exact congrArg Dict.ofPairs (List.append_nil _)

/-- The search path is no variable of the host's. -/
theorem hostPart_withTermuxBin {env : Dict Str Str} :
    hostPart (withTermuxBin s env) = hostPart env := by
  unfold withTermuxBin
  split
  · exact hostPart_set (by decide)
  · rfl

theorem hostPart_withL2sDir {env : Dict Str Str} : hostPart (withL2sDir s c env) = hostPart env := by
  unfold withL2sDir
  split
  · split
    · exact hostPart_set (by decide)
    · exact hostPart_erase_l2sDir
  · rfl

/-- The host's part of a session: its flags and the switches the process has set. -/
def sessionHostPart (s : Session) : Dict Str Str :=
  Dict.erase (Dict.update (Dict.ofPairs (hostPart (extraPairs s))) (hostPart (prootToggles s)))
    "LD_PRELOAD".toList

/-- **In a session the host's part comes from the session.** -/
theorem hostPart_sessionEnv : hostPart (sessionEnv s c) = sessionHostPart s := by
  have hbuilt : hostPart (if isTermuxContainer s c then buildTermuxEnv s c
      else buildNormalEnv s c) = Dict.ofPairs (hostPart (extraPairs s)) := by
    split
    · exact hostPart_buildTermuxEnv
    · exact hostPart_buildNormalEnv
  have hupdate : ∀ env pairs, hostPart (Dict.update env pairs) =
      Dict.update (hostPart env) (hostPart pairs) := fun _ _ => Dict.restrict_update
  have herase : ∀ env k, hostPart (Dict.erase env k) = Dict.erase (hostPart env) k :=
    fun _ _ => Dict.restrict_erase
  unfold sessionEnv sessionHostPart
  simp only [herase, hostPart_withL2sDir, hupdate, hostPart_withTermuxBin, hbuilt]

end Login

/-! ## RUN -/

namespace BuildEngine

variable {b : Build} {stage : Stage} {fs : Fs}

/-- A step starts with nothing of the host. -/
theorem hostPart_baseEnv : hostPart (baseEnv b stage) = [] := by
  have hcolorterm : ∀ s : Str,
      hostPart (if s = [] then [] else [("COLORTERM".toList, s)]) = [] := by
    intro s
    split <;> rfl
  unfold baseEnv
  simp only [hostPart_append, hcolorterm]
  rfl

/-- The arguments handed on have no host part. -/
theorem hostPart_hostArgs : hostPart (hostArgs b) = [] := by
  refine hostPart_of_keys predefinedArgs (by decide) fun x hx => ?_
  obtain ⟨k, hk, rfl⟩ := List.mem_map.mp (List.mem_of_mem_filter hx)
  exact hk

theorem hostPart_exported {pairs : List (Str × Str)} : hostPart (pairs.filter exports) = [] := by
  refine hostPart_filter fun x hx => ?_
  unfold exports at hx
  simp only [Bool.and_eq_true, Bool.not_eq_true'] at hx
  exact hx.1

theorem hostPart_identityEnv : hostPart (identityEnv stage) = [] := by
  unfold identityEnv
  simp only [hostPart_append]
  split <;> split <;> rfl

/-- **In a RUN the host's part is what the process has set itself**, whatever the stage. -/
theorem hostPart_buildChildEnv :
    hostPart (buildChildEnv b stage fs) = Dict.ofPairs (hostPart (prootToggles b)) := by
  have hpairs : hostPart (Dict.ofPairs (baseEnv b stage ++ hostArgs b ++
      (declaredPairs stage).filter exports ++ stage.env.filter exports ++ identityEnv stage ++
      prootToggles b)) = Dict.ofPairs (hostPart (prootToggles b)) := by
    simp only [hostPart_ofPairs, hostPart_append, hostPart_baseEnv, hostPart_hostArgs,
      hostPart_exported, hostPart_identityEnv, List.nil_append]
  unfold buildChildEnv
  simp only
  split
  · split
    · rw [hostPart_set (by decide)]
      exact hpairs
    · exact hostPart_erase_l2sDir.trans hpairs
  · exact hpairs

namespace Engine

variable {e e' : Engine} {label : Option Instr}

/-- Every call of proot so far has this part. -/
def CallsHave (part : Dict Str Str) (e : Engine) : Prop :=
  ∀ call ∈ e.world.calls, hostPart call.env = part

/-- A step of the engine runs its command with the host part of the toggles only. -/
theorem Step.callsHave (h : Step b e label e')
    (hcalls : CallsHave (Dict.ofPairs (hostPart (prootToggles b))) e) :
    CallsHave (Dict.ofPairs (hostPart (prootToggles b))) e' := by
  intro call hcall
  rcases h.calls with hsame | ⟨s, instr, -, hnew⟩
  · exact hcalls call (hsame ▸ hcall)
  · rw [hnew] at hcall
    rcases List.mem_append.mp hcall with hold | hlast
    · exact hcalls call hold
    · rw [List.mem_singleton.mp hlast]
      exact hostPart_buildChildEnv

/-- In every state of every run all calls of proot have the same. -/
theorem callsHave_of_reaches {ok : Instr → Prop} {globalArgs : Dict Str Str} {w : World}
    (h : Reaches b ok (start globalArgs w) e) (hw : w.calls = []) :
    CallsHave (Dict.ofPairs (hostPart (prootToggles b))) e := by
  refine h.invariant ?_ fun e label e' hstep _ => hstep.callsHave
  intro call hcall
  change call ∈ w.calls at hcall
  rw [hw] at hcall
  cases hcall

end Engine

end BuildEngine

open BuildEngine Engine in
/-- **An image sets none of the host's variables.** Over any two containers a session executes
proot with the same `LD_*` and `PROOT_*` variables, the place of linked files aside; and so do
any two steps of any two builds, whatever their Dockerfiles, arguments, base images and
triggers, where the process that builds has the same environment. -/
theorem image_sets_no_host_var :
    (∀ (s : Login.Session) (c c' : Login.Container),
      hostPart (Login.sessionEnv s c) = hostPart (Login.sessionEnv s c')) ∧
    ∀ (b b' : Build) (globalArgs globalArgs' : Dict Str Str) (w w' : World) (e e' : Engine),
      b.environ = b'.environ → w.calls = [] → w'.calls = [] →
      Reaches b (fun _ => True) (start globalArgs w) e →
      Reaches b' (fun _ => True) (start globalArgs' w') e' →
      ∀ call ∈ e.world.calls, ∀ call' ∈ e'.world.calls,
        hostPart call.env = hostPart call'.env := by
  refine ⟨fun s c c' => ?_, fun b b' _ _ w w' e e' henv hw hw' h h' call hcall call' hcall' => ?_⟩
  · rw [Login.hostPart_sessionEnv, Login.hostPart_sessionEnv]
  · have htoggles : prootToggles b = prootToggles b' := by
      unfold prootToggles Build.environGet
      rw [henv]
    rw [callsHave_of_reaches h hw call hcall, callsHave_of_reaches h' hw' call' hcall', htoggles]

/-! ### Two Dockerfiles -/

namespace BuildEngine.Engine

def verbose : Build := { onPaper with environ := [("PROOT_VERBOSE".toList, ['1'])] }

def plainRun : List Instr := [textInstr .FROM "scratch", execInstr .RUN ["true"]]

/-- A Dockerfile that tries: with an ENV, and with an ARG that has a default. -/
def preloadingRun : List Instr :=
  [textInstr .FROM "scratch", textInstr .ENV "LD_PRELOAD=/evil.so PROOT_VERBOSE=9 X=1",
    textInstr .ARG "LD_AUDIT=/evil.so", execInstr .RUN ["true"]]

/-- The calls of proot that `instrs` make. -/
def callsOf (instrs : List Instr) : List ProotCall :=
  ((instrs.foldlM (step verbose) (start [] emptyWorld)).toOption.map (·.world.calls)).getD []

/-- The calls of a run that made some are those of an engine reached. -/
theorem callsOf_reached {instrs : List Instr} (h : callsOf instrs ≠ []) :
    ∃ e, Reaches verbose (fun _ => True) (start [] emptyWorld) e ∧
      e.world.calls = callsOf instrs := by
  unfold callsOf at h ⊢
  rcases hrun : instrs.foldlM (step verbose) (start [] emptyWorld) with _ | e
  · rw [hrun] at h
    exact absurd rfl h
  · exact ⟨e, foldlM_step_reaches ⟨fun _ _ => trivial, fun _ _ h => by cases h⟩ hrun, rfl⟩

theorem image_sets_no_host_var_preloadingRun :
    (∀ call ∈ callsOf preloadingRun, ('X' :: [], ['1']) ∈ call.env) ∧ callsOf plainRun ≠ [] ∧
      ∀ call ∈ callsOf plainRun, ∀ call' ∈ callsOf preloadingRun,
        hostPart call.env = hostPart call'.env ∧
          hostPart call.env = [("PROOT_VERBOSE".toList, ['1'])] := by
  have hplain : callsOf plainRun ≠ [] := by decide +kernel
  have hpreloading : callsOf preloadingRun ≠ [] := by decide +kernel
  have hpart : ∀ call ∈ callsOf plainRun, hostPart call.env = [("PROOT_VERBOSE".toList, ['1'])] := by
    decide +kernel
  obtain ⟨e, hreach, hcalls⟩ := callsOf_reached hplain
  obtain ⟨e', hreach', hcalls'⟩ := callsOf_reached hpreloading
  refine ⟨by decide +kernel, hplain, fun call hcall call' hcall' => ⟨?_, hpart call hcall⟩⟩
  exact image_sets_no_host_var.2 verbose verbose [] [] emptyWorld emptyWorld e e' rfl rfl rfl hreach
    hreach' call (hcalls ▸ hcall) call' (hcalls' ▸ hcall')

end BuildEngine.Engine

end ProotDistro
