import ProotDistro.BuildEngine.Inherit
import ProotDistro.BuildEngine.History
import ProotDistro.BuildEngine.OnbuildText

/-!
# ONBUILD

`ONBUILD X` appends `X` to the list `OnBuild` of the stage's config, and FROM carries out the
list that its base's config holds. That config becomes the new stage's own, the list with it,
so the triggers of a base are offered again by whatever is built on it.

The run is repeated with a log beside it (`Trace`): for each stage the config its base gave it,
the triggers that were carried out for it, and those its own ONBUILDs recorded. The log changes
nothing (`traceStep_engine`).

* **`handlers_triggers`** — no handler touches the list; it changes by ONBUILD alone.
* **`logged_of_trace`** — in every run, a FROM carries out the triggers of its base, each once
  and in order, before any instruction of the stage; the stage then carries them, followed by
  its own.
* **`onbuild_fires_once_iff`** — so its own are all it carries exactly where no base had any.
* **`triggers_of_chain`** — down a chain of images the list only grows.
-/

namespace ProotDistro

open Posix Dirfd TarExtract LayerDiff Dockerfile OciWriter

namespace BuildEngine

/-- The triggers a config holds. -/
def ImageConfig.triggers (c : ImageConfig) : List Str := c.config.onBuild.getD []

section Handlers

variable {b : Build} {instr : Instr} {s s' : Stage} {w w' : World}

/-- `RUN` leaves the image's configuration. -/
theorem doRun_imageConfig (h : doRun b instr s w = .ok (s', w')) :
    s'.imageConfig = s.imageConfig := by
  unfold doRun at h
  simp only at h
  split at h
  · obtain ⟨⟨reads, w₁⟩, -, h⟩ := Result.bind_ok h
    cases h
    rfl
  · split at h
    · cases h
    · cases h
      rfl

theorem doCopyOrAdd_imageConfig {stages : List Stage}
    (h : doCopyOrAdd stages b instr s w = .ok (s', w')) : s'.imageConfig = s.imageConfig := by
  unfold doCopyOrAdd at h
  obtain ⟨fileMap, -, h⟩ := Result.bind_ok h
  split at h
  · cases h
    rfl
  · split at h
    · cases h
    · cases h
      rfl

/-- `WORKDIR` leaves the triggers. -/
theorem doWorkdir_triggers (h : doWorkdir b instr s w = .ok (s', w')) :
    s'.imageConfig.triggers = s.imageConfig.triggers := by
  unfold doWorkdir at h
  simp only at h
  split at h
  · cases h
  · split at h
    · cases h
      rfl
    · obtain ⟨⟨made, w₁⟩, -, h⟩ := Result.bind_ok h
      simp only at h
      split at h
      · cases h
        rfl
      · cases h
        rfl

/-- **No handler touches the triggers.** -/
theorem handlers_triggers {globalArgs : Dict Str Str} {stages : List Stage} {name : Keyword}
    {handler : Handler} (hh : handlers globalArgs stages name = some handler)
    (h : handler b instr s w = .ok (s', w')) :
    s'.imageConfig.triggers = s.imageConfig.triggers := by
  cases name <;> cases hh
  case ADD => rw [doCopyOrAdd_imageConfig h]
  case COPY => rw [doCopyOrAdd_imageConfig h]
  case RUN => rw [doRun_imageConfig h]
  case WORKDIR => exact doWorkdir_triggers h
  case ARG =>
    unfold doArg at h
    simp only at h
    split at h
    · cases h
    · cases h
      rfl
  case SHELL =>
    unfold doShell at h
    split at h
    · cases h
      rfl
    · cases h
    · cases h
  case ENV =>
    obtain ⟨pairs, -, h⟩ := Result.bind_ok h
    cases h
    rfl
  case LABEL =>
    obtain ⟨pairs, -, h⟩ := Result.bind_ok h
    cases h
    rfl
  case EXPOSE =>
    obtain ⟨tokens, -, h⟩ := Result.bind_ok h
    cases h
    rfl
  case VOLUME =>
    obtain ⟨paths, -, h⟩ := Result.bind_ok h
    cases h
    rfl
  case HEALTHCHECK =>
    obtain ⟨test, -, h⟩ := Result.bind_ok h
    cases h
    rfl
  case USER =>
    cases h
    rfl
  case CMD =>
    cases h
    rfl
  case ENTRYPOINT =>
    cases h
    rfl
  case MAINTAINER =>
    cases h
    rfl
  case STOPSIGNAL =>
    cases h
    rfl

/-- ONBUILD appends the text it wraps. -/
theorem doOnbuild_triggers (h : doOnbuild b instr s w = .ok (s', w')) :
    ∃ raw, instr.value = .trigger raw ∧
      s'.imageConfig.triggers = s.imageConfig.triggers ++ [raw] := by
  unfold doOnbuild at h
  split at h
  · rename_i raw hvalue
    cases h
    exact ⟨raw, hvalue, rfl⟩
  · cases h
  · cases h

end Handlers

namespace Engine

/-- What each stage carries. -/
def carried (e : Engine) : List (List Str) := e.stages.map (·.imageConfig.triggers)

section Steps

variable {b : Build} {e e' : Engine} {s : Stage} {instr : Instr}

/-- Putting back a stage with the same triggers changes nothing that is carried. -/
theorem carried_setCurrent (e : Engine) (s' : Stage) :
    (e.setCurrent s').carried = e.carried.dropLast ++ [s'.imageConfig.triggers] := by
  unfold carried setCurrent
  rw [List.map_append, List.map_dropLast]
  rfl

/-- The triggers of the current stage are the last carried. -/
theorem carried_of_current (hcur : e.current = some s) :
    e.carried = e.carried.dropLast ++ [s.imageConfig.triggers] := by
  have hlast : e.carried.getLast? = some s.imageConfig.triggers := by
    unfold carried
    rw [List.getLast?_map]
    unfold current at hcur
    rw [hcur]
    rfl
  obtain ⟨init, hinit⟩ := List.getLast?_eq_some_iff.mp hlast
  rw [hinit, List.dropLast_concat]

/-- No instruction of a stage changes what is carried. -/
theorem runInstruction_carried (hcur : e.current = some s)
    (h : runInstruction b e s instr = .ok e') : e'.carried = e.carried := by
  unfold runInstruction at h
  obtain ⟨expanded, -, h⟩ := Result.bind_ok h
  split at h
  · cases h
  · rename_i handler hhandler
    obtain ⟨⟨s₁, w₁⟩, hrun, h⟩ := Result.bind_ok h
    cases h
    unfold runWithHistory at hrun
    obtain ⟨⟨s', w'⟩, hh, hrun⟩ := Result.bind_ok hrun
    cases hrun
    have hsame : s'.imageConfig.triggers = s.imageConfig.triggers := handlers_triggers hhandler hh
    have hset := carried_setCurrent e
      (recordHistory expanded (s.layers.length < s'.layers.length) s')
    rw [carried_of_current hcur, ← hsame]
    exact hset

theorem runTriggered_carried (h : runTriggered b e instr = .ok e') : e'.carried = e.carried := by
  unfold runTriggered at h
  split at h
  · cases h
  · rename_i s hcur
    exact runInstruction_carried hcur h

/-- So firing a trigger leaves what is carried. -/
theorem fireTrigger_carried {trigger : Str} (h : fireTrigger b e trigger = .ok e') :
    e'.carried = e.carried := by
  unfold fireTrigger at h
  obtain ⟨instrs, -, h⟩ := Result.bind_ok h
  refine Result.foldlM_invariant (I := fun e' => e'.carried = e.carried) rfl ?_ h
  intro e₁ i e₂ _ he₁ hi
  exact (runTriggered_carried hi).trans he₁

/-- `ONBUILD` adds its own text to what the current stage carries. -/
theorem runOnbuild_carried (h : runOnbuild b e s instr = .ok e') :
    ∃ raw, instr.value = .trigger raw ∧
      e'.carried = e.carried.dropLast ++ [s.imageConfig.triggers ++ [raw]] := by
  unfold runOnbuild at h
  obtain ⟨⟨s', w'⟩, hrun, h⟩ := Result.bind_ok h
  cases h
  obtain ⟨raw, hraw, htriggers⟩ := doOnbuild_triggers hrun
  refine ⟨raw, hraw, ?_⟩
  rw [← htriggers]
  exact carried_setCurrent e (recordHistory instr false s')

/-- A new stage carries what its base configuration does. -/
theorem beginStage_carried {value : Value} (h : beginStage b e value = .ok e') :
    ∃ s, e'.current = some s ∧ e'.carried = e.carried ++ [s.imageConfig.triggers] := by
  obtain ⟨s, -, hstages, -⟩ := beginStage_effect h
  refine ⟨s, ?_, ?_⟩
  · unfold current
    rw [hstages, List.getLast?_concat]
  · unfold carried
    rw [hstages, List.map_append]
    rfl

end Steps

/-! ## A run with its log -/

/-- What happened to the triggers of a stage. -/
structure StageLog where
  /-- the config FROM put in place -/
  base : ImageConfig
  /-- the triggers carried out for the stage, in order -/
  fired : List Str
  /-- what the stage's own ONBUILDs recorded, in order -/
  recorded : List Str

structure Trace where
  engine : Engine
  /-- one entry for each stage begun -/
  log : List StageLog

/-- Change the entry of the current stage. -/
def note (log : List StageLog) (f : StageLog → StageLog) : List StageLog :=
  log.dropLast ++ (log.getLast?.map f).toList

def noteFired (trigger : Str) (l : StageLog) : StageLog := { l with fired := l.fired ++ [trigger] }

def noteRecorded (trigger : Str) (l : StageLog) : StageLog :=
  { l with recorded := l.recorded ++ [trigger] }

/-- `fireTrigger`, and the trigger goes on the log. -/
def traceFire (b : Build) (t : Trace) (trigger : Str) : Except Failure Trace := do
  let e ← fireTrigger b t.engine trigger
  .ok ⟨e, note t.log (noteFired trigger)⟩

/-- `fireTriggers` -/
def traceTriggers (b : Build) (t : Trace) (triggers : List Str) : Except Failure Trace :=
  if triggers = [] then .ok t
  else do
    let t ← triggers.foldlM (traceFire b) ⟨t.engine.setFiring true, t.log⟩
    .ok ⟨t.engine.setFiring false, t.log⟩

/-- `doFrom`, with a new entry for the stage it begins. -/
def traceFrom (b : Build) (t : Trace) (instr : Instr) : Except Failure Trace :=
  if b.targetStage.getD [] ≠ [] ∧ t.engine.current.bind (·.name) = b.targetStage then
    .ok ⟨{ t.engine with stopAfter := true }, t.log⟩
  else do
    let e ← beginStage b t.engine instr.value
    let base := (e.current.map (·.imageConfig)).getD .empty
    traceTriggers b ⟨e, t.log ++ [⟨base, [], []⟩]⟩
      ((e.current.bind (·.imageConfig.config.onBuild)).getD [])

/-- `runOnbuild`, and the text goes on the log. -/
def traceOnbuild (b : Build) (t : Trace) (stage : Stage) (instr : Instr) : Except Failure Trace := do
  let e ← runOnbuild b t.engine stage instr
  .ok ⟨e, match instr.value with
    | .trigger raw => note t.log (noteRecorded raw)
    | .text _ | .exec _ => t.log⟩

/-- `dispatch` -/
def traceDispatch (b : Build) (t : Trace) (instr : Instr) : Except Failure Trace :=
  if instr.name = .FROM then traceFrom b t instr
  else
    match t.engine.current with
    | none => if instr.name = .ARG then .ok t else .error .build
    | some stage =>
      if instr.name = .ONBUILD then traceOnbuild b t stage instr
      else do
        let e ← runInstruction b t.engine stage instr
        .ok ⟨e, t.log⟩

/-- `step` -/
def traceStep (b : Build) (t : Trace) (instr : Instr) : Except Failure Trace :=
  if t.engine.stopAfter then .ok t else traceDispatch b t instr

def startTrace (globalArgs : Dict Str Str) (w : World) : Trace := ⟨start globalArgs w, []⟩

section Erasure

variable {b : Build}

/-- The traced run of a trigger is the run. -/
theorem traceFire_engine (t : Trace) (trigger : Str) :
    (traceFire b t trigger).map (·.engine) = fireTrigger b t.engine trigger := by
  unfold traceFire
  cases fireTrigger b t.engine trigger <;> rfl

theorem traceTriggers_engine (t : Trace) (triggers : List Str) :
    (traceTriggers b t triggers).map (·.engine) = fireTriggers b t.engine triggers := by
  unfold traceTriggers fireTriggers
  split
  · rfl
  · have hloop := Result.foldlM_map Trace.engine (traceFire b) (fireTrigger b) traceFire_engine
      triggers ⟨t.engine.setFiring true, t.log⟩
    rw [← hloop]
    cases triggers.foldlM (traceFire b) ⟨t.engine.setFiring true, t.log⟩ <;> rfl

theorem traceFrom_engine (t : Trace) (instr : Instr) :
    (traceFrom b t instr).map (·.engine) = doFrom b t.engine instr := by
  unfold traceFrom doFrom
  split
  · rfl
  · cases beginStage b t.engine instr.value with
    | error f => rfl
    | ok e => exact traceTriggers_engine _ _

/-- **The log changes nothing**: a step with it is the step. -/
theorem traceStep_engine (t : Trace) (instr : Instr) :
    (traceStep b t instr).map (·.engine) = step b t.engine instr := by
  unfold traceStep step
  split
  · rfl
  · unfold traceDispatch dispatch
    split
    · exact traceFrom_engine t instr
    · cases t.engine.current with
      | none =>
        simp only
        split
        · rfl
        · rfl
      | some stage =>
        simp only
        split
        · unfold traceOnbuild
          cases runOnbuild b t.engine stage instr <;> rfl
        · cases runInstruction b t.engine stage instr <;> rfl

end Erasure

/-! ## What the log says -/

/-- Each FROM carried out what its base held, and each stage carries that and its own. -/
structure Logged (t : Trace) : Prop where
  fired : ∀ l ∈ t.log, l.fired = l.base.triggers
  carried : t.engine.carried = t.log.map fun l => l.base.triggers ++ l.recorded

section Log

variable {b : Build} {t t' : Trace} {log : List StageLog} {l : StageLog} {instr : Instr}

/-- What is noted is noted of the last stage. -/
theorem note_concat (f : StageLog → StageLog) : note (log ++ [l]) f = log ++ [f l] := by
  unfold note
  rw [List.dropLast_concat, List.getLast?_concat]
  rfl

/-- The loop over the triggers puts each of them on the log of the current stage, once and in
order. -/
theorem foldlM_traceFire {triggers : List Str} (hlog : t.log = log ++ [l])
    (h : triggers.foldlM (traceFire b) t = .ok t') :
    t'.log = log ++ [{ l with fired := l.fired ++ triggers }] ∧
      t'.engine.carried = t.engine.carried := by
  induction triggers generalizing t l with
  | nil =>
    cases h
    rw [List.append_nil]
    exact ⟨hlog, rfl⟩
  | cons trigger rest ih =>
    rw [List.foldlM_cons] at h
    obtain ⟨t₁, hfire, hrest⟩ := Result.bind_ok h
    obtain ⟨e, hfired, hfire⟩ := Result.bind_ok hfire
    cases hfire
    have hlog₁ : note t.log (noteFired trigger) = log ++ [noteFired trigger l] := by
      rw [hlog, note_concat]
    obtain ⟨hend, hcarried⟩ := ih hlog₁ hrest
    refine ⟨?_, hcarried.trans (fireTrigger_carried hfired)⟩
    rw [hend]
    unfold noteFired
    rw [List.append_assoc, List.singleton_append]

/-- Triggers that fire are noted in order, and nothing else is. -/
theorem traceTriggers_log {triggers : List Str} (hlog : t.log = log ++ [l])
    (h : traceTriggers b t triggers = .ok t') :
    t'.log = log ++ [{ l with fired := l.fired ++ triggers }] ∧
      t'.engine.carried = t.engine.carried := by
  unfold traceTriggers at h
  split at h
  · rename_i hnil
    cases h
    rw [hnil, List.append_nil]
    exact ⟨hlog, rfl⟩
  · obtain ⟨t₁, hloop, h⟩ := Result.bind_ok h
    cases h
    obtain ⟨hend, hcarried⟩ := foldlM_traceFire (t := ⟨t.engine.setFiring true, t.log⟩) hlog hloop
    exact ⟨hend, hcarried⟩

/-- The log is right after a `FROM`. -/
theorem Logged.from (ht : Logged t) (h : traceFrom b t instr = .ok t') : Logged t' := by
  unfold traceFrom at h
  split at h
  · cases h
    exact ⟨ht.fired, ht.carried⟩
  · obtain ⟨e, hbegin, h⟩ := Result.bind_ok h
    obtain ⟨s, hcur, hcarried⟩ := beginStage_carried hbegin
    rw [hcur] at h
    obtain ⟨hlog, hsame⟩ := traceTriggers_log rfl h
    refine ⟨fun l hl => ?_, ?_⟩
    · rw [hlog] at hl
      rcases List.mem_append.mp hl with hold | hnew
      · exact ht.fired l hold
      · rw [List.mem_singleton.mp hnew]
        rfl
    · rw [hsame, hlog, hcarried, ht.carried, List.map_append, List.map_singleton, List.append_nil]
      rfl

/-- It is right after an `ONBUILD`. -/
theorem Logged.onbuild {s : Stage} (ht : Logged t) (hcur : t.engine.current = some s)
    (h : traceOnbuild b t s instr = .ok t') : Logged t' := by
  unfold traceOnbuild at h
  obtain ⟨e, hrun, h⟩ := Result.bind_ok h
  obtain ⟨raw, hraw, hcarried⟩ := runOnbuild_carried hrun
  cases h
  rw [hraw]
  -- the log has an entry for the current stage, since the stage is carried
  have hbefore := carried_of_current hcur
  rw [ht.carried] at hbefore hcarried
  have hne : t.log ≠ [] := by
    rintro hnil
    rw [hnil] at hbefore
    simp at hbefore
  obtain ⟨init, l, hlog⟩ := (List.eq_nil_or_concat' t.log).resolve_left hne
  rw [hlog, List.map_append, List.map_singleton, List.dropLast_concat] at hbefore hcarried
  have hcurrent : l.base.triggers ++ l.recorded = s.imageConfig.triggers := by
    simpa using List.append_cancel_left hbefore
  refine ⟨fun l' hl' => ?_, ?_⟩
  · change l' ∈ note t.log (noteRecorded raw) at hl'
    rw [hlog, note_concat] at hl'
    rcases List.mem_append.mp hl' with hold | hnew
    · exact ht.fired l' (hlog ▸ List.mem_append_left _ hold)
    · rw [List.mem_singleton.mp hnew]
      exact ht.fired l (hlog ▸ List.mem_append_right _ (List.mem_singleton.mpr rfl))
  · change e.carried = (note t.log (noteRecorded raw)).map _
    rw [hcarried, hlog, note_concat, List.map_append, ← hcurrent, List.append_assoc]
    rfl

/-- Every step keeps the log. -/
theorem Logged.step (ht : Logged t) (h : traceStep b t instr = .ok t') : Logged t' := by
  unfold traceStep at h
  split at h
  · cases h
    exact ht
  · unfold traceDispatch at h
    split at h
    · exact ht.from h
    · split at h
      · split at h
        · cases h
          exact ht
        · cases h
      · rename_i s hcur
        split at h
        · exact ht.onbuild hcur h
        · obtain ⟨e, hrun, h⟩ := Result.bind_ok h
          cases h
          exact ⟨ht.fired, (runInstruction_carried hcur hrun).trans ht.carried⟩

theorem logged_of_trace {globalArgs : Dict Str Str} {w : World} {instrs : List Instr}
    (h : instrs.foldlM (traceStep b) (startTrace globalArgs w) = .ok t) : Logged t := by
  refine Result.foldlM_invariant (I := Logged) ⟨fun l hl => ?_, rfl⟩ ?_ h
  · cases hl
  · intro t₁ i t₂ _ ht₁ hi
    exact ht₁.step hi

end Log

/-! ## Firing once -/

/-- `c` is a config that a later FROM of the stage, or of an image made of it, puts in place. -/
inductive PutInPlace (s : Stage) : ImageConfig → Prop
  | stage {b : Build} {e e' : Engine} {text : Str} {cur : Stage} (h : FromStage b e text s e')
      (hcur : e'.current = some cur) : PutInPlace s cur.imageConfig
  | image {sha256 : Bytes → Str} {archName : Str} {c : ImageConfig}
      (h : adoptImageConfig (.obj (imageOf sha256 archName s).2) = .ok c) : PutInPlace s c

/-- The triggers of a run fire once: for each stage those of its base, and what is left for a
later FROM are those the stage has recorded itself. -/
def FiresOnce (t : Trace) : Prop :=
  ∀ (k : Nat) (s : Stage) (l : StageLog), t.engine.stages[k]? = some s → t.log[k]? = some l →
    l.fired = l.base.triggers ∧ s.imageConfig.triggers = l.recorded ∧
      ∀ c, PutInPlace s c → c.triggers = l.recorded

section Documents

/-- An optional field is there when its value is. -/
theorem get_optional {α : Type} (key : String) (f : α → Json) (value : Option α) (q : Str) :
    Dict.get (OciWriter.optional key f value) q =
      if key.toList = q then value.map f else none := by
  unfold OciWriter.optional
  cases value with
  | none => simp
  | some v =>
    change Dict.get (Dict.set [] key.toList (f v)) q = _
    rw [Dict.get_set]
    rfl

/-- A list of strings is read back from its JSON. -/
theorem strList?_map (l : List Str) : Json.strList? (l.map .str) = some l := by
  unfold Json.strList?
  induction l with
  | nil => rfl
  | cons x l ih =>
    rw [List.map_cons, List.mapM_cons, ih]
    rfl

/-- The triggers of a config as they are written. -/
theorem get_runConfigJson (cfg : RunConfig) (fields : Dict Str Json)
    (h : runConfigJson cfg = .obj fields) :
    Dict.get fields "OnBuild".toList = cfg.onBuild.map strList := by
  cases h
  have hother : ∀ (key : String), key.toList ≠ "OnBuild".toList →
      ∀ (α : Type) (f : α → Json) (value : Option α),
        Dict.get (OciWriter.optional key f value) "OnBuild".toList = none := by
    intro key hkey α f value
    rw [get_optional, if_neg hkey]
  simp only [Dict.get_append]
  rw [hother "Env" (by decide), hother "User" (by decide), hother "WorkingDir" (by decide),
    hother "Shell" (by decide), hother "Cmd" (by decide), hother "Entrypoint" (by decide),
    hother "ExposedPorts" (by decide), hother "Volumes" (by decide), hother "Labels" (by decide),
    hother "StopSignal" (by decide), hother "Healthcheck" (by decide), get_optional, if_pos rfl]
  cases cfg.onBuild <;> rfl

/-- A config that has been written is adopted with its triggers. -/
theorem adoptRunConfig_onBuild {cfg cfg' : RunConfig}
    (h : adoptRunConfig (runConfigJson cfg) = .ok cfg') : cfg'.onBuild = cfg.onBuild := by
  obtain ⟨fields, hfields⟩ : ∃ fields, runConfigJson cfg = .obj fields := ⟨_, rfl⟩
  have hget := get_runConfigJson cfg fields hfields
  rw [hfields] at h
  unfold adoptRunConfig at h
  obtain ⟨fields', hobject, h⟩ := Result.bind_ok h
  cases hobject
  obtain ⟨cmd, -, h⟩ := Result.bind_ok h
  obtain ⟨entrypoint, -, h⟩ := Result.bind_ok h
  obtain ⟨onBuild, honBuild, h⟩ := Result.bind_ok h
  obtain ⟨shell, -, h⟩ := Result.bind_ok h
  obtain ⟨user, -, h⟩ := Result.bind_ok h
  obtain ⟨workingDir, -, h⟩ := Result.bind_ok h
  obtain ⟨exposedPorts, -, h⟩ := Result.bind_ok h
  obtain ⟨volumes, -, h⟩ := Result.bind_ok h
  obtain ⟨labels, -, h⟩ := Result.bind_ok h
  obtain ⟨env, -, h⟩ := Result.bind_ok h
  cases h
  change onBuild = cfg.onBuild
  unfold optField at honBuild
  rw [hget] at honBuild
  cases hcfg : cfg.onBuild with
  | none =>
    rw [hcfg] at honBuild
    cases honBuild
    rfl
  | some l =>
    rw [hcfg] at honBuild
    change (cfgStrList (strList l)).map some = .ok onBuild at honBuild
    unfold cfgStrList strList at honBuild
    simp only [strList?_map] at honBuild
    cases honBuild
    rfl

/-- The same of the document of an image. -/
theorem adoptImageConfig_triggers {sha256 : Bytes → Str} {archName : Str} {s : Stage}
    {c : ImageConfig} (h : adoptImageConfig (.obj (imageOf sha256 archName s).2) = .ok c) :
    c.triggers = s.imageConfig.triggers := by
  have hget : Dict.get (imageOf sha256 archName s).2 "config".toList =
      some (runConfigJson s.imageConfig.config) := by
    unfold imageOf
    rw [get_build (by decide) (by decide), Dict.get_setDefault_of_ne (by decide),
      Dict.get_set_of_ne (by decide)]
    rfl
  unfold adoptImageConfig at h
  obtain ⟨doc, hobject, h⟩ := Result.bind_ok h
  cases hobject
  obtain ⟨history, -, h⟩ := Result.bind_ok h
  obtain ⟨diffIds, -, h⟩ := Result.bind_ok h
  obtain ⟨config, hconfig, h⟩ := Result.bind_ok h
  cases h
  unfold optField at hconfig
  rw [hget] at hconfig
  change (adoptRunConfig (runConfigJson s.imageConfig.config)).map some = .ok config at hconfig
  obtain ⟨cfg, hadopt, hcfg⟩ := Result.map_ok hconfig
  cases hcfg
  change cfg.onBuild.getD [] = s.imageConfig.config.onBuild.getD []
  rw [adoptRunConfig_onBuild hadopt]

/-- A later FROM is given the triggers the stage carries. -/
theorem PutInPlace.triggers {s : Stage} {c : ImageConfig} (h : PutInPlace s c) :
    c.triggers = s.imageConfig.triggers := by
  cases h with
  | stage hfrom hcur =>
    obtain ⟨index, name, hnew⟩ := hfrom.current
    rw [hnew] at hcur
    cases hcur
    rfl
  | image h => exact adoptImageConfig_triggers h

end Documents

section Once

variable {b : Build} {t : Trace} {globalArgs : Dict Str Str} {w : World} {instrs : List Instr}
  {e : Engine}

/-- The entry of a stage says what the stage carries. -/
theorem Logged.getElem? (ht : Logged t) {k : Nat} {s : Stage} {l : StageLog}
    (hs : t.engine.stages[k]? = some s) (hl : t.log[k]? = some l) :
    s.imageConfig.triggers = l.base.triggers ++ l.recorded := by
  have hcarried := congrArg (·[k]?) ht.carried
  unfold Engine.carried at hcarried
  simp only [List.getElem?_map, hs, hl, Option.map_some] at hcarried
  exact Option.some.inj hcarried

/-- The log has one line for each stage. -/
theorem Logged.length (ht : Logged t) : t.engine.stages.length = t.log.length := by
  have hlength := congrArg List.length ht.carried
  unfold Engine.carried at hlength
  rwa [List.length_map, List.length_map] at hlength

/-- A stage is left with its own triggers only where its base had none. -/
theorem Logged.firesOnce_iff (ht : Logged t) :
    FiresOnce t ↔ ∀ l ∈ t.log, l.base.triggers = [] := by
  constructor
  · intro honce l hl
    obtain ⟨k, hk⟩ := List.mem_iff_getElem?.mp hl
    have hlt : k < t.engine.stages.length := by
      rw [ht.length]
      exact (List.getElem?_eq_some_iff.mp hk).1
    have hs := List.getElem?_eq_getElem hlt
    have hown := (honce k _ l hs hk).2.1
    rw [ht.getElem? hs hk] at hown
    exact List.append_left_eq_self.mp hown
  · intro hnone k s l hs hl
    have hmem : l ∈ t.log := List.mem_of_getElem? hl
    have hown : s.imageConfig.triggers = l.recorded := by
      rw [ht.getElem? hs hl, hnone l hmem, List.nil_append]
    exact ⟨ht.fired l hmem, hown, fun c hc => hc.triggers.trans hown⟩

/-- A run has a trace. -/
theorem trace_of_run (h : instrs.foldlM (step b) (start globalArgs w) = .ok e) :
    ∃ t, instrs.foldlM (traceStep b) (startTrace globalArgs w) = .ok t ∧ t.engine = e := by
  have herase := Result.foldlM_map Trace.engine (traceStep b) (step b) traceStep_engine instrs
    (startTrace globalArgs w)
  rw [show (startTrace globalArgs w).engine = start globalArgs w from rfl, h] at herase
  exact Result.map_ok herase

/-- **When the triggers of a run fire once.** At every FROM of every run, the triggers which the
config of the base holds are carried out, each once and in order, before any instruction of the
stage. The stage carries them on, though, and they are offered again to whatever is built FROM
the stage or an image of it: what a later FROM is given is what the stages have recorded
themselves if and only if no base of the run held a trigger. -/
theorem onbuild_fires_once_iff (b : Build) (globalArgs : Dict Str Str) (w : World)
    (instrs : List Instr) (e : Engine)
    (h : instrs.foldlM (step b) (start globalArgs w) = .ok e) :
    ∃ t, instrs.foldlM (traceStep b) (startTrace globalArgs w) = .ok t ∧ t.engine = e ∧
      (∀ l ∈ t.log, l.fired = l.base.triggers) ∧
      (FiresOnce t ↔ ∀ l ∈ t.log, l.base.triggers = []) := by
  obtain ⟨t, htrace, hengine⟩ := trace_of_run h
  have hlogged := logged_of_trace htrace
  exact ⟨t, htrace, hengine, hlogged.fired, hlogged.firesOnce_iff⟩

/-! ## Chains of images -/

/-- `c'` is the config of a stage built on the config `c`, or of what is made of that stage. -/
inductive BuiltOn (c : ImageConfig) : ImageConfig → Prop
  | stage {t : Trace} {k : Nat} {s : Stage} {l : StageLog} (ht : Logged t)
      (hs : t.engine.stages[k]? = some s) (hl : t.log[k]? = some l) (hbase : l.base = c)
      {c' : ImageConfig} (h : PutInPlace s c') : BuiltOn c c'

/-- **Down a chain of images the triggers only add up**: those of every ancestor are still
there, in front, so that every FROM of the chain carries them out. -/
theorem triggers_of_chain {c c' : ImageConfig} (h : Relation.ReflTransGen BuiltOn c c') :
    c.triggers <+: c'.triggers := by
  induction h with
  | refl => exact List.prefix_refl _
  | tail _ hlast ih =>
    cases hlast with
    | stage ht hs hl hbase hc =>
      subst hbase
      rw [hc.triggers, ht.getElem? hs hl]
      exact ih.trans (List.prefix_append _ _)

/-! ### A stage that records, and an image that brings a trigger -/

def labelTrigger : Str := "LABEL x=y".toList

/-- A registry with one image, made elsewhere, that has recorded a trigger. -/
def withTrigger : Build :=
  { onPaper with
    parseDockerfile := parseForEngine noJson
    pullImage := fun _ _ fs => .ok (⟨.obj [("config".toList,
      .obj [("OnBuild".toList, .arr [.str labelTrigger])])], [], []⟩, fs) }

def recordTrigger : Instr :=
  ⟨.ONBUILD, [], .trigger "ONBUILD LABEL x=y".toList, [], "ONBUILD LABEL x=y".toList⟩

def recording : List Instr := [textInstr .FROM "scratch AS a", recordTrigger]

theorem onbuild_fires_once_iff_recording :
    ∃ e, recording.foldlM (step withTrigger) (start [] emptyWorld) = .ok e ∧
      ∃ t, recording.foldlM (traceStep withTrigger) (startTrace [] emptyWorld) = .ok t ∧
        t.engine = e ∧ t.log ≠ [] ∧ FiresOnce t := by
  have hruns : (recording.foldlM (step withTrigger) (start [] emptyWorld)).toOption.isSome = true := by
    decide +kernel
  have hcheck : ((recording.foldlM (traceStep withTrigger) (startTrace [] emptyWorld)).toOption.all
      fun t => t.log.map (·.base.triggers) = [[]]) = true := by
    decide +kernel
  obtain ⟨e, he⟩ := Result.ok_of_isSome hruns
  obtain ⟨t, ht, hengine, -, honce⟩ := onbuild_fires_once_iff withTrigger [] emptyWorld recording e he
  have hbases : t.log.map (·.base.triggers) = [[]] := by
    have hall := Result.all_of_ok ht hcheck
    exact of_decide_eq_true hall
  refine ⟨e, he, t, ht, hengine, ?_, honce.mpr fun l hl => ?_⟩
  · rintro hnil
    rw [hnil] at hbases
    cases hbases
  · have hmem := List.mem_map_of_mem (f := (·.base.triggers)) hl
    rw [hbases] at hmem
    exact List.mem_singleton.mp hmem

/-- `FROM base AS b`, `FROM b`. -/
def fromTwice : List Instr := [textInstr .FROM "base AS b", textInstr .FROM "b"]

/-- **A trigger fires again.** It is recorded in the image `base`, and is carried out for the stage
that is `FROM b` as well as for `b`, which has recorded nothing. -/
theorem onbuild_fires_twice :
    ∃ t, fromTwice.foldlM (traceStep withTrigger) (startTrace [] emptyWorld) = .ok t ∧
      t.log.map (·.recorded) = [[], []] ∧
      t.log.map (·.fired) = [[labelTrigger], [labelTrigger]] ∧ ¬ FiresOnce t := by
  have hruns : (fromTwice.foldlM (traceStep withTrigger) (startTrace [] emptyWorld)).toOption.isSome =
      true := by
    decide +kernel
  have hcheck : ((fromTwice.foldlM (traceStep withTrigger) (startTrace [] emptyWorld)).toOption.all
      fun t => t.log.map (·.recorded) = [[], []] ∧
        t.log.map (·.fired) = [[labelTrigger], [labelTrigger]]) = true := by
    decide +kernel
  obtain ⟨t, ht⟩ := Result.ok_of_isSome hruns
  have hlog : t.log.map (·.recorded) = [[], []] ∧
      t.log.map (·.fired) = [[labelTrigger], [labelTrigger]] := by
    have hall := Result.all_of_ok ht hcheck
    exact of_decide_eq_true hall
  have hfired := hlog.2
  have hlogged := logged_of_trace ht
  refine ⟨t, ht, hlog.1, hfired, fun honce => ?_⟩
  have hnone := hlogged.firesOnce_iff.mp honce
  have hmem : [labelTrigger] ∈ t.log.map (·.fired) := by
    rw [hfired]
    exact List.mem_cons_self
  obtain ⟨l, hl, hlfired⟩ := List.mem_map.mp hmem
  rw [hlogged.fired l hl, hnone l hl] at hlfired
  cases hlfired

end Once

end Engine

end BuildEngine

end ProotDistro
