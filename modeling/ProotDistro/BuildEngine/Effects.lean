import ProotDistro.BuildEngine.Engine

/-!
# What an instruction can do to its stage

The handlers are sixteen functions, and what they do to a stage is one of eight things
(`StageEffect`). Everything that is said about all runs of the engine is said about these, by
way of the step lemma of this module:

* **`handlers_effect`** — the effect of every handler, and the call of proot it makes, if any.
* **`runInstruction_effect`**, **`beginStage_effect`** — the same one level up: what a step of
  the engine does to its list of stages.
-/

namespace ProotDistro

open Posix Dirfd TarExtract LayerDiff Dockerfile

namespace BuildEngine

/-- The effects of an instruction on its stage. -/
inductive StageEffect (instr : Instr) (s : Stage) : Stage → Prop
  | none : StageEffect instr s s
  | args (args : Dict Str Str) (declaredArgs : List Str) :
      StageEffect instr s { s with args, declaredArgs }
  | env (pairs : List (Str × Str)) (hkeys : ∀ x ∈ pairs, '=' ∉ x.1) :
      StageEffect instr s (({ s with env := Dict.update s.env pairs }).setConfig fun cfg =>
        { cfg with
          env := some ((Dict.update (configEnv s.imageConfig.config) pairs).map Execenv.envEntry) })
  | user (user : Str) :
      StageEffect instr s (({ s with user }).setConfig fun cfg => { cfg with user := some user })
  | workdir (path : Str) (layer : Option Layer) (hpath : path ≠ []) :
      StageEffect instr s (layer.elim id (fun l s => s.addLayer l)
        (({ s with workdir := path }).setConfig fun cfg => { cfg with workingDir := some path }))
  | shell (argv : List Str) (hname : instr.name = .SHELL) (hvalue : instr.value = .exec argv) :
      StageEffect instr s
        (({ s with shell := argv }).setConfig fun cfg => { cfg with shell := some argv })
  /-- a field of the config that no stage reads -/
  | unread (f : RunConfig → RunConfig)
      (hf : ∀ cfg, (f cfg).env = cfg.env ∧ (f cfg).user = cfg.user ∧
        (f cfg).workingDir = cfg.workingDir ∧ (f cfg).shell = cfg.shell) :
      StageEffect instr s (s.setConfig f)
  | layer (layer : Layer) : StageEffect instr s (s.addLayer layer)

/-- What an instruction does to the calls of proot: none, or the one of its stage. -/
def CallEffect (b : Build) (instr : Instr) (s : Stage) (w w' : World) : Prop :=
  w'.calls = w.calls ∨ w'.calls = w.calls ++ [prootCall b s instr w.fs]

/-- What a handler does. -/
structure Effect (b : Build) (instr : Instr) (s : Stage) (w : World) (s' : Stage) (w' : World) :
    Prop where
  stage : StageEffect instr s s'
  calls : CallEffect b instr s w w'
  firing : w'.firingOnbuild = w.firingOnbuild

section Handlers

variable {b : Build} {instr : Instr} {s s' : Stage} {w w' : World}

/-- A call of the system changes the files of the world and nothing else. -/
theorem World.sys_ok {α : Type} {p : Sys α} {a : α} (h : w.sys p = .ok (a, w')) :
    ∃ fs, w' = { w with fs } := by
  unfold World.sys at h
  split at h
  · cases h
    exact ⟨_, rfl⟩
  · cases h

/-- A handler that only touches its stage. -/
theorem Effect.pure (h : StageEffect instr s s') : Effect b instr s w s' w :=
  ⟨h, .inl rfl, rfl⟩

/-- A normalised path is not empty. -/
theorem normPath_ne_nil (path : Str) : normPath path ≠ [] := by
  have hite : ∀ result : Str, (if result = [] then ['.'] else result) ≠ [] := by
    intro result
    split
    · simp
    · assumption
  exact hite _

/-- What `RUN` does to a stage. -/
theorem doRun_effect (h : doRun b instr s w = .ok (s', w')) : Effect b instr s w s' w' := by
  unfold doRun at h
  simp only at h
  split at h
  · obtain ⟨⟨reads, w₁⟩, hsys, h⟩ := Result.bind_ok h
    cases h
    obtain ⟨fs, rfl⟩ := World.sys_ok hsys
    exact ⟨.layer _, .inl rfl, rfl⟩
  · split at h
    · cases h
    · cases h
      exact ⟨.layer _, .inr rfl, rfl⟩

/-- What `COPY` and `ADD` do. -/
theorem doCopyOrAdd_effect {stages : List Stage} (h : doCopyOrAdd stages b instr s w = .ok (s', w')) :
    Effect b instr s w s' w' := by
  unfold doCopyOrAdd at h
  obtain ⟨fileMap, -, h⟩ := Result.bind_ok h
  split at h
  · cases h
    exact .pure .none
  · split at h
    · cases h
    · cases h
      exact ⟨.layer _, .inl rfl, rfl⟩

/-- What `WORKDIR` does. -/
theorem doWorkdir_effect (h : doWorkdir b instr s w = .ok (s', w')) : Effect b instr s w s' w' := by
  unfold doWorkdir at h
  simp only at h
  split at h
  · cases h
  · split at h
    · cases h
      exact .pure (.workdir _ none (normPath_ne_nil _))
    · obtain ⟨⟨made, w₁⟩, hsys, h⟩ := Result.bind_ok h
      obtain ⟨fs, rfl⟩ := World.sys_ok hsys
      simp only at h
      split at h
      · cases h
        exact ⟨.workdir _ none (normPath_ne_nil _), .inl rfl, rfl⟩
      · cases h
        exact ⟨.workdir _ (some _) (normPath_ne_nil _), .inl rfl, rfl⟩

/-- What `ENV` does. -/
theorem doEnv_effect (h : doEnv b instr s w = .ok (s', w')) : Effect b instr s w s' w' := by
  unfold doEnv at h
  obtain ⟨pairs, hpairs, h⟩ := Result.bind_ok h
  cases h
  refine .pure (.env _ fun x hx => ?_)
  exact notMem_of_parseKvList hpairs x (List.mem_of_mem_filter hx)

/-- What `ARG` does. -/
theorem doArg_effect {globalArgs : Dict Str Str} (h : doArg globalArgs b instr s w = .ok (s', w')) :
    Effect b instr s w s' w' := by
  unfold doArg at h
  simp only at h
  split at h
  · cases h
  · cases h
    exact .pure (.args _ _)

/-- What `SHELL` does. -/
theorem doShell_effect (hname : instr.name = .SHELL) (h : doShell b instr s w = .ok (s', w')) :
    Effect b instr s w s' w' := by
  unfold doShell at h
  split at h
  · rename_i argv hvalue
    cases h
    exact .pure (.shell argv hname hvalue)
  · cases h
  · cases h

/-- What `ONBUILD` does. -/
theorem doOnbuild_effect (h : doOnbuild b instr s w = .ok (s', w')) : Effect b instr s w s' w' := by
  unfold doOnbuild at h
  split at h
  · cases h
    exact .pure (.unread _ fun cfg => ⟨rfl, rfl, rfl, rfl⟩)
  · cases h
  · cases h

/-- **Every handler has one of the effects.** -/
theorem handlers_effect {globalArgs : Dict Str Str} {stages : List Stage} {handler : Handler}
    (hh : handlers globalArgs stages instr.name = some handler)
    (h : handler b instr s w = .ok (s', w')) : Effect b instr s w s' w' := by
  have hunread : ∀ cfg : RunConfig, cfg.env = cfg.env ∧ cfg.user = cfg.user ∧
      cfg.workingDir = cfg.workingDir ∧ cfg.shell = cfg.shell := fun _ => ⟨rfl, rfl, rfl, rfl⟩
  cases hname : instr.name <;> rw [hname] at hh <;> cases hh
  case ADD => exact doCopyOrAdd_effect h
  case COPY => exact doCopyOrAdd_effect h
  case ARG => exact doArg_effect h
  case ENV => exact doEnv_effect h
  case RUN => exact doRun_effect h
  case SHELL => exact doShell_effect hname h
  case WORKDIR => exact doWorkdir_effect h
  case USER =>
    cases h
    exact .pure (.user _)
  case CMD =>
    cases h
    exact .pure (.unread _ hunread)
  case ENTRYPOINT =>
    cases h
    exact .pure (.unread _ hunread)
  case MAINTAINER =>
    cases h
    exact .pure (.unread _ hunread)
  case STOPSIGNAL =>
    cases h
    exact .pure (.unread _ hunread)
  case LABEL =>
    unfold doLabel at h
    obtain ⟨pairs, -, h⟩ := Result.bind_ok h
    cases h
    exact .pure (.unread _ hunread)
  case EXPOSE =>
    unfold doExpose at h
    obtain ⟨tokens, -, h⟩ := Result.bind_ok h
    cases h
    exact .pure (.unread _ hunread)
  case VOLUME =>
    unfold doVolume at h
    obtain ⟨paths, -, h⟩ := Result.bind_ok h
    cases h
    exact .pure (.unread _ hunread)
  case HEALTHCHECK =>
    unfold doHealthcheck at h
    obtain ⟨test, -, h⟩ := Result.bind_ok h
    cases h
    exact .pure (.unread _ hunread)

end Handlers

/-! ## One step of the engine -/

namespace Engine

/-- A stage that FROM has just begun: its base, and what it reads out of the config. -/
def Started (b : Build) (e : Engine) (s : Stage) : Prop :=
  ∃ name base w w' s₀,
    startStage b { e with world := w } (Stage.new e.stages.length name) base = .ok (s₀, w') ∧
      s = decodeConfig s₀

/-- What a step does to the stages. -/
inductive StagesEffect (b : Build) (e : Engine) (label : Option Instr) : List Stage → Prop
  | same : StagesEffect b e label e.stages
  | begun (s : Stage) (h : Started b e s) : StagesEffect b e label (e.stages ++ [s])
  | changed (init : List Stage) (s s' : Stage) (raw instr : Instr) (w' : World)
      (hs : e.stages = init ++ [s]) (hlabel : label = some raw)
      (hname : instr.name = raw.name)
      (hexec : ∀ argv, instr.value = .exec argv → raw.value = .exec argv)
      (heff : Effect b instr s e.world s' w') :
      StagesEffect b e label
        (init ++ [recordHistory instr (s.layers.length < s'.layers.length) s'])

section Steps

variable {b : Build} {e e' : Engine} {s s' : Stage} {instr raw : Instr} {w w' : World}
  {label : Option Instr}

/-- An exec form is never expanded. -/
theorem expandValue_exec {scope : Dict Str Str} {v : Value} {argv : List Str}
    (h : expandValue b scope v = .ok (.exec argv)) : v = .exec argv := by
  cases v with
  | text s =>
    obtain ⟨s, -, hs⟩ := Result.map_ok h
    cases hs
  | exec l =>
    cases h
    rfl
  | trigger raw => cases h

/-- Only an exec form expands to one, to itself. -/
theorem expandInstruction_exec (h : expandInstruction b s raw = .ok instr) {argv : List Str}
    (hv : instr.value = .exec argv) : raw.value = .exec argv := by
  unfold expandInstruction at h
  split at h
  · obtain ⟨value, hvalue, h⟩ := Result.bind_ok h
    obtain ⟨flags, -, h⟩ := Result.bind_ok h
    cases h
    change value = .exec argv at hv
    rw [hv] at hvalue
    exact expandValue_exec hvalue
  · cases h
    exact hv

/-- Expansion leaves the instruction's name. -/
theorem expandInstruction_name (h : expandInstruction b s raw = .ok instr) :
    instr.name = raw.name := by
  unfold expandInstruction at h
  split at h
  · obtain ⟨value, -, h⟩ := Result.bind_ok h
    obtain ⟨flags, -, h⟩ := Result.bind_ok h
    cases h
    rfl
  · cases h
    rfl

/-- An instruction is expanded, has its effect on the current stage, and is recorded. -/
theorem runInstruction_effect (h : runInstruction b e s raw = .ok e') :
    ∃ instr s' w', expandInstruction b s raw = .ok instr ∧ Effect b instr s e.world s' w' ∧
      e' = { e.setCurrent (recordHistory instr (s.layers.length < s'.layers.length) s') with
        world := w' } := by
  unfold runInstruction at h
  obtain ⟨instr, hexpand, h⟩ := Result.bind_ok h
  split at h
  · cases h
  · rename_i handler hhandler
    obtain ⟨⟨s₁, w₁⟩, hrun, h⟩ := Result.bind_ok h
    cases h
    unfold runWithHistory at hrun
    obtain ⟨⟨s', w'⟩, hh, hrun⟩ := Result.bind_ok hrun
    cases hrun
    exact ⟨instr, s', w₁, hexpand, handlers_effect hhandler hh, rfl⟩

/-- So is `ONBUILD`, which is not expanded and adds no layer. -/
theorem runOnbuild_effect (h : runOnbuild b e s raw = .ok e') :
    ∃ s' w', Effect b raw s e.world s' w' ∧ s'.layers = s.layers ∧
      e' = { e.setCurrent (recordHistory raw false s') with world := w' } := by
  unfold runOnbuild at h
  obtain ⟨⟨s', w'⟩, hrun, h⟩ := Result.bind_ok h
  cases h
  refine ⟨s', w', doOnbuild_effect hrun, ?_, rfl⟩
  unfold doOnbuild at hrun
  split at hrun
  · cases hrun
    rfl
  · cases hrun
  · cases hrun

/-- Applying layers calls nothing. -/
theorem applyLayers_calls {rootfs : Path} {layers : List Layer}
    (h : applyLayers b rootfs layers w = .ok w') : w'.calls = w.calls := by
  refine Result.foldlM_invariant (I := fun w' => w'.calls = w.calls) rfl ?_ h
  intro w₁ layer w₂ _ hw₁ hlayer
  split at hlayer
  · cases hlayer
  · obtain ⟨⟨paths, w₃⟩, hsys, hlayer⟩ := Result.bind_ok hlayer
    cases hlayer
    obtain ⟨fs, rfl⟩ := World.sys_ok hsys
    exact hw₁

/-- No command runs while a stage starts. -/
theorem startStage_calls {base : Str} (h : startStage b e s base = .ok (s', w')) :
    w'.calls = e.world.calls := by
  unfold startStage at h
  split at h
  · cases h
    rfl
  · split at h
    · obtain ⟨w₁, happly, h⟩ := Result.bind_ok h
      cases h
      exact applyLayers_calls happly
    · obtain ⟨⟨pulled, fs⟩, -, h⟩ := Result.bind_ok h
      obtain ⟨imageConfig, -, h⟩ := Result.bind_ok h
      cases h
      rfl

/-- FROM begins a stage and leaves the others alone; no step of it calls proot. -/
theorem beginStage_effect {value : Value} (h : beginStage b e value = .ok e') :
    ∃ s, Started b e s ∧ e'.stages = e.stages ++ [s] ∧ e'.world.calls = e.world.calls := by
  unfold beginStage at h
  simp only at h
  obtain ⟨expanded, -, h⟩ := Result.bind_ok h
  split at h
  · cases h
  · rename_i base name _
    obtain ⟨⟨made, w⟩, hsys, h⟩ := Result.bind_ok h
    obtain ⟨⟨s₀, w'⟩, hstart, h⟩ := Result.bind_ok h
    cases h
    obtain ⟨fs, rfl⟩ := World.sys_ok hsys
    have hcalls := startStage_calls hstart
    exact ⟨_, ⟨name, base, _, w', s₀, hstart, rfl⟩, rfl, hcalls⟩

/-- The current stage is the last. -/
theorem stages_of_current (h : e.current = some s) :
    e.stages = e.stages.dropLast ++ [s] := by
  obtain ⟨init, hinit⟩ := List.getLast?_eq_some_iff.mp h
  rw [hinit, List.dropLast_concat]

/-- **The effect of a step on the stages.** -/
theorem Step.stages (h : Step b e label e') : StagesEffect b e label e'.stages := by
  cases h with
  | begin h =>
    obtain ⟨s, hs, hstages, -⟩ := beginStage_effect h
    rw [hstages]
    exact .begun s hs
  | @instr _ s raw hcur h =>
    obtain ⟨instr, s', w', hexpand, heff, rfl⟩ := runInstruction_effect h
    exact .changed _ s s' raw instr w' (stages_of_current hcur) rfl
      (expandInstruction_name hexpand) (fun argv => expandInstruction_exec hexpand) heff
  | @onbuild _ s raw hcur h =>
    obtain ⟨s', w', heff, hlayers, rfl⟩ := runOnbuild_effect h
    have hfalse : decide (s.layers.length < s'.layers.length) = false := by
      rw [hlayers]
      simp
    have hchanged : StagesEffect b e (some raw) _ :=
      .changed _ s s' raw raw w' (stages_of_current hcur) rfl rfl (fun _ => id) heff
    rw [hfalse] at hchanged
    exact hchanged
  | firing on => exact .same
  | stop => exact .same

/-- **The effect of a step on the calls of proot**: at most one more, of the current stage. -/
theorem Step.calls (h : Step b e label e') :
    e'.world.calls = e.world.calls ∨
      ∃ s instr, e.current = some s ∧
        e'.world.calls = e.world.calls ++ [prootCall b s instr e.world.fs] := by
  cases h with
  | begin h =>
    obtain ⟨s, -, -, hcalls⟩ := beginStage_effect h
    exact .inl hcalls
  | @instr _ s raw hcur h =>
    obtain ⟨instr, s', w', -, heff, rfl⟩ := runInstruction_effect h
    exact heff.calls.imp id fun hcall => ⟨s, instr, hcur, hcall⟩
  | @onbuild _ s raw hcur h =>
    obtain ⟨s', w', heff, -, rfl⟩ := runOnbuild_effect h
    exact heff.calls.imp id fun hcall => ⟨s, raw, hcur, hcall⟩
  | firing on => exact .inl rfl
  | stop => exact .inl rfl

end Steps

end Engine

end BuildEngine

end ProotDistro
