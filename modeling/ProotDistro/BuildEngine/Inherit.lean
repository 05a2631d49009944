import ProotDistro.BuildEngine.Effects

/-!
# `FROM` of an earlier stage

A stage keeps its environment, working directory, user and shell twice: in the fields its own
instructions read, and in the image config, which is all that a later `FROM` of the stage reads,
after it went through JSON. `Coherent` says that the two are the same, `Unjoined` that JSON leaves
what is read as it was.

* **`coherent_of_reaches`** — every stage of every run is coherent, as long as no `SHELL []` is
  carried out.
* **`from_stage_continues`** — then a `FROM` of an unjoined stage starts with what the stage ended with.
* **`from_stage_loses`** — after a `SHELL []` it does not, nor where two surrogates join.
-/

namespace ProotDistro

open Posix Dirfd TarExtract LayerDiff Dockerfile

namespace BuildEngine

namespace Engine

/-! ## The two copies -/

/-- A stage with nothing but the config of `s`, which is read. -/
def decoded (s : Stage) : Stage :=
  decodeConfig { Stage.new s.index s.name with imageConfig := s.imageConfig }

theorem decoded_env (s : Stage) : (decoded s).env = configEnv s.imageConfig.config := rfl

theorem decoded_workdir (s : Stage) : (decoded s).workdir =
    if s.imageConfig.config.workingDir.getD [] = [] then ['/']
    else s.imageConfig.config.workingDir.getD [] := rfl

theorem decoded_user (s : Stage) : (decoded s).user =
    if s.imageConfig.config.user.getD [] = [] then [] else s.imageConfig.config.user.getD [] := rfl

theorem decoded_shell (s : Stage) : (decoded s).shell =
    if s.imageConfig.config.shell.getD [] = [] then defaultShell
    else s.imageConfig.config.shell.getD [] := rfl

/-- What the next instruction of a stage uses is what its config decodes to, and the next layer
goes on top of its last one. -/
structure Coherent (s : Stage) : Prop where
  env : s.env = (decoded s).env
  workdir : s.workdir = (decoded s).workdir
  user : s.user = (decoded s).user
  shell : s.shell = (decoded s).shell
  chain : s.parentLayerDigest = ((s.layers.getLast?).map (·.digest)).getD []

/-- An instruction that does not make the shell empty. -/
def KeepsShell (instr : Instr) : Prop := instr.name = .SHELL → instr.value ≠ .exec []

section Env

variable {cfg : RunConfig} {d : Dict Str Str} {pairs : List (Str × Str)}

/-- No variable of a configuration has an equals sign in its name. -/
theorem notMem_key_configEnv : ∀ k ∈ Dict.keys (configEnv cfg), '=' ∉ k := by
  intro k hk
  obtain ⟨x, hx, rfl⟩ := List.mem_map.mp (Dict.mem_keys_ofPairs.mp hk)
  obtain ⟨entry, -, hpair⟩ := List.mem_filterMap.mp hx
  exact Execenv.notMem_of_envPair hpair

/-- An environment written to the config is read back from it, in its order. -/
theorem configEnv_env (hkeys : ∀ k ∈ Dict.keys d, '=' ∉ k) (hnodup : (Dict.keys d).Nodup) :
    configEnv { cfg with env := some (d.map Execenv.envEntry) } = d := by
  have hread : (d.map Execenv.envEntry).filterMap Execenv.envPair = d :=
    Execenv.filterMap_envPair fun x hx => hkeys x.1 (List.mem_map_of_mem hx)
  change Dict.ofPairs ((d.map Execenv.envEntry).filterMap Execenv.envPair) = d
  rw [hread, Dict.ofPairs_of_nodup hnodup]

/-- The same after an ENV. -/
theorem configEnv_update (hpairs : ∀ x ∈ pairs, '=' ∉ x.1) :
    configEnv { cfg with env := some ((Dict.update (configEnv cfg) pairs).map Execenv.envEntry) } =
      Dict.update (configEnv cfg) pairs := by
  refine configEnv_env (fun k hk => ?_) (Dict.nodup_update Dict.nodup_ofPairs)
  rcases Dict.mem_keys_update.mp hk with hold | hnew
  · exact notMem_key_configEnv k hold
  · obtain ⟨x, hx, rfl⟩ := List.mem_map.mp hnew
    exact hpairs x hx

/-- An entry of the environment that went through JSON: its name and its value did. -/
theorem envPair_rereadChars (entry : Str) : Execenv.envPair (JsonText.rereadChars entry) =
    (Execenv.envPair entry).map fun x => (JsonText.rereadChars x.1, JsonText.rereadChars x.2) := by
  by_cases hsep : '=' ∈ entry
  · -- the first `=` of the entry is the first one of what is read
    obtain ⟨k, v, rfl, hk⟩ := List.eq_append_cons_of_mem hsep
    have hk' : '=' ∉ JsonText.rereadChars k := fun hmem =>
      hk (JsonText.mem_of_mem_rereadChars (by decide) hmem)
    rw [JsonText.rereadChars_append (by decide) (by decide)]
    have hold : Execenv.envPair (k ++ '=' :: v) = some (k, v) :=
      Execenv.envPair_envEntry (show '=' ∉ (k, v).1 from hk)
    have hnew : Execenv.envPair (JsonText.rereadChars k ++ '=' :: JsonText.rereadChars v) =
        some (JsonText.rereadChars k, JsonText.rereadChars v) :=
      Execenv.envPair_envEntry (show '=' ∉ (JsonText.rereadChars k, JsonText.rereadChars v).1 from hk')
    rw [hold, hnew]
    rfl
  · have hsep' : '=' ∉ JsonText.rereadChars entry := fun hmem =>
      hsep (JsonText.mem_of_mem_rereadChars (by decide) hmem)
    unfold Execenv.envPair
    rw [if_neg hsep, if_neg hsep']
    rfl

/-- An environment in which nothing joins is read out of the config as before. -/
theorem configEnv_reread (h : ∀ x ∈ configEnv cfg, ¬ JsonText.Joins x.1 ∧ ¬ JsonText.Joins x.2) :
    configEnv cfg.reread = configEnv cfg := by
  obtain ⟨entries, hentries⟩ : ∃ entries, cfg.env.getD [] = entries := ⟨_, rfl⟩
  have henv : configEnv cfg = Dict.ofPairs (entries.filterMap Execenv.envPair) := by
    unfold configEnv
    rw [hentries]
  have hread : configEnv cfg.reread = Dict.ofPairs ((entries.filterMap Execenv.envPair).map fun x =>
      (JsonText.rereadChars x.1, JsonText.rereadChars x.2)) := by
    have hmap : (cfg.reread.env.getD []) = entries.map JsonText.rereadChars := by
      rw [← hentries]
      cases henv : cfg.env <;> simp [RunConfig.reread, henv]
    unfold configEnv
    rw [hmap, List.filterMap_map, List.map_filterMap]
    exact congrArg _ (List.filterMap_congr fun entry _ => envPair_rereadChars entry)
  rw [henv] at h
  rw [hread, henv]
  -- no name joins, since every one of them is in the environment
  have hkeys : ((entries.filterMap Execenv.envPair).map fun x =>
      (JsonText.rereadChars x.1, JsonText.rereadChars x.2)) =
      (entries.filterMap Execenv.envPair).map fun x => (x.1, JsonText.rereadChars x.2) := by
    refine List.map_congr_left fun x hx => ?_
    have hkey : x.1 ∈ Dict.keys (Dict.ofPairs (entries.filterMap Execenv.envPair)) :=
      Dict.mem_keys_ofPairs.mpr (List.mem_map_of_mem hx)
    obtain ⟨y, hy, heq⟩ := List.mem_map.mp hkey
    rw [JsonText.rereadChars_eq_self (heq ▸ (h y hy).1)]
  rw [hkeys, Dict.ofPairs_mapValues]
  conv => rhs; rw [← List.map_id (Dict.ofPairs _)]
  exact List.map_congr_left fun x hx => by rw [JsonText.rereadChars_eq_self (h x hx).2]; rfl

end Env

/-- No text that a later `FROM` of the stage reads holds two surrogates that join. -/
structure Unjoined (s : Stage) : Prop where
  env : ∀ x ∈ s.env, ¬ JsonText.Joins x.1 ∧ ¬ JsonText.Joins x.2
  workdir : ¬ JsonText.Joins s.workdir
  user : ¬ JsonText.Joins s.user
  shell : ∀ word ∈ s.shell, ¬ JsonText.Joins word

instance (s : Stage) : Decidable (Unjoined s) :=
  decidable_of_iff
    ((∀ x ∈ s.env, ¬ JsonText.Joins x.1 ∧ ¬ JsonText.Joins x.2) ∧ ¬ JsonText.Joins s.workdir ∧
      ¬ JsonText.Joins s.user ∧ ∀ word ∈ s.shell, ¬ JsonText.Joins word)
    ⟨fun h => ⟨h.1, h.2.1, h.2.2.1, h.2.2.2⟩, fun h => ⟨h.env, h.workdir, h.user, h.shell⟩⟩

/-- A stage with the config of `s` as a `FROM` of `s` reads it. -/
def inherited (s : Stage) : Stage :=
  decoded { s with imageConfig := { s.imageConfig with config := s.imageConfig.config.reread } }

/-- **JSON leaves a coherent stage as it was**, where nothing in it joins. -/
theorem Coherent.inherited {s : Stage} (h : Coherent s) (hjoin : Unjoined s) :
    (inherited s).env = s.env ∧ (inherited s).workdir = s.workdir ∧ (inherited s).user = s.user ∧
      (inherited s).shell = s.shell := by
  -- a text that is read unless it is empty, in its default's place
  have htext : ∀ (text : Option Str) (default live : Str),
      live = (if text.getD [] = [] then default else text.getD []) → ¬ JsonText.Joins live →
      (if (text.map JsonText.rereadChars).getD [] = [] then default
        else (text.map JsonText.rereadChars).getD []) = live := by
    intro text default live hlive hjoins
    cases text with
    | none => exact hlive.symm
    | some text =>
      change (if JsonText.rereadChars text = [] then default else JsonText.rereadChars text) = live
      have hlive : live = if text = [] then default else text := hlive
      by_cases hempty : text = []
      · subst hempty
        exact hlive.symm
      · rw [if_neg hempty] at hlive
        rw [JsonText.rereadChars_eq_self (hlive ▸ hjoins), if_neg hempty, hlive]
  refine ⟨?_, htext _ _ _ h.workdir hjoin.workdir, htext _ _ _ h.user hjoin.user, ?_⟩
  · have henv : s.env = configEnv s.imageConfig.config := h.env
    change configEnv s.imageConfig.config.reread = s.env
    rw [configEnv_reread (henv ▸ hjoin.env), henv]
  · have hshell := h.shell
    rw [decoded_shell] at hshell
    change (if (s.imageConfig.config.shell.map (·.map JsonText.rereadChars)).getD [] = [] then
      defaultShell else (s.imageConfig.config.shell.map (·.map JsonText.rereadChars)).getD []) = s.shell
    cases hcfg : s.imageConfig.config.shell with
    | none =>
      rw [hcfg] at hshell
      exact hshell.symm
    | some words =>
      rw [hcfg] at hshell
      have hshell : s.shell = if words = [] then defaultShell else words := hshell
      change (if words.map JsonText.rereadChars = [] then defaultShell
        else words.map JsonText.rereadChars) = s.shell
      by_cases hempty : words = []
      · subst hempty
        exact hshell.symm
      · rw [if_neg hempty] at hshell
        have hsame : words.map JsonText.rereadChars = words := by
          conv => rhs; rw [← List.map_id words]
          exact List.map_congr_left fun word hword =>
            JsonText.rereadChars_eq_self (hjoin.shell word (hshell ▸ hword))
        rw [hsame, if_neg hempty, hshell]

/-! ## What keeps a stage coherent -/

section Steps

variable {b : Build} {e e' : Engine} {s s' : Stage} {instr : Instr} {w' : World}
  {label : Option Instr}

/-- A stage is coherent when its history is written. -/
theorem Coherent.recordHistory (h : Coherent s) (added : Bool) :
    Coherent (recordHistory instr added s) :=
  ⟨h.env, h.workdir, h.user, h.shell, h.chain⟩

/-- It is coherent when a layer is added. -/
theorem Coherent.addLayer (h : Coherent s) (layer : Layer) : Coherent (s.addLayer layer) := by
  refine ⟨h.env, h.workdir, h.user, h.shell, ?_⟩
  change layer.digest = (((s.layers ++ [layer]).getLast?).map (·.digest)).getD []
  rw [List.getLast?_concat]
  rfl

/-- An instruction keeps its stage coherent, one case for each effect. -/
theorem Coherent.effect (h : Coherent s) (heff : StageEffect instr s s')
    (hshell : KeepsShell instr) : Coherent s' := by
  cases heff with
  | none => exact h
  | args args declaredArgs => exact ⟨h.env, h.workdir, h.user, h.shell, h.chain⟩
  | env pairs hkeys =>
    refine ⟨?_, h.workdir, h.user, h.shell, h.chain⟩
    change Dict.update s.env pairs = configEnv { s.imageConfig.config with env := _ }
    have henv : s.env = configEnv s.imageConfig.config := h.env
    rw [configEnv_update hkeys, henv]
  | user user =>
    refine ⟨h.env, h.workdir, ?_, h.shell, h.chain⟩
    change user = if user = [] then [] else user
    split
    · assumption
    · rfl
  | workdir path layer hpath =>
    have hbare : Coherent (({ s with workdir := path }).setConfig fun cfg =>
        { cfg with workingDir := some path }) := by
      refine ⟨h.env, ?_, h.user, h.shell, h.chain⟩
      change path = if path = [] then ['/'] else path
      rw [if_neg hpath]
    cases layer with
    | none => exact hbare
    | some layer => exact hbare.addLayer layer
  | shell argv hname hvalue =>
    refine ⟨h.env, h.workdir, h.user, ?_, h.chain⟩
    change argv = if argv = [] then defaultShell else argv
    rw [if_neg]
    rintro rfl
    exact hshell hname hvalue
  | unread f hf =>
    obtain ⟨henv, huser, hworkdir, hcfgShell⟩ := hf s.imageConfig.config
    obtain ⟨hlive, hliveWorkdir, hliveUser, hliveShell, hchain⟩ := h
    rw [decoded_env] at hlive
    rw [decoded_workdir, ← hworkdir] at hliveWorkdir
    rw [decoded_user, ← huser] at hliveUser
    rw [decoded_shell, ← hcfgShell] at hliveShell
    unfold configEnv at hlive
    rw [← henv] at hlive
    exact ⟨hlive, hliveWorkdir, hliveUser, hliveShell, hchain⟩
  | layer layer => exact h.addLayer layer

/-- What a base gives a stage: a config and a chain of layers, and nothing the config is read
into. -/
theorem startStage_fresh {base : Str} (h : startStage b e s base = .ok (s', w')) :
    s'.workdir = s.workdir ∧ s'.user = s.user ∧ s'.shell = s.shell := by
  unfold startStage at h
  split at h
  · cases h
    exact ⟨rfl, rfl, rfl⟩
  · split at h
    · obtain ⟨w₁, -, h⟩ := Result.bind_ok h
      cases h
      exact ⟨rfl, rfl, rfl⟩
    · obtain ⟨⟨pulled, fs⟩, -, h⟩ := Result.bind_ok h
      obtain ⟨imageConfig, -, h⟩ := Result.bind_ok h
      cases h
      exact ⟨rfl, rfl, rfl⟩

/-- A stage starts its chain from the last layer of its base. -/
theorem startStage_chain {base : Str} {name : Option Str} {index : Nat}
    (hstages : ∀ s ∈ e.stages, Coherent s)
    (h : startStage b e (Stage.new index name) base = .ok (s', w')) :
    s'.parentLayerDigest = ((s'.layers.getLast?).map (·.digest)).getD [] := by
  unfold startStage at h
  split at h
  · cases h
    rfl
  · split at h
    · rename_i parent hparent
      obtain ⟨w₁, -, h⟩ := Result.bind_ok h
      cases h
      obtain ⟨k, -, hk⟩ := Option.bind_eq_some_iff.mp hparent
      exact (hstages parent (List.mem_of_getElem? hk)).chain
    · obtain ⟨⟨pulled, fs⟩, -, h⟩ := Result.bind_ok h
      obtain ⟨imageConfig, -, h⟩ := Result.bind_ok h
      cases h
      rfl

/-- A stage that has just begun is coherent. -/
theorem Started.coherent (hstages : ∀ s ∈ e.stages, Coherent s) (h : Started b e s) :
    Coherent s := by
  obtain ⟨name, base, w, w', s₀, hstart, rfl⟩ := h
  obtain ⟨hworkdir, huser, hshell⟩ := startStage_fresh hstart
  refine ⟨rfl, ?_, ?_, ?_, ?_⟩
  · change (if s₀.imageConfig.config.workingDir.getD [] = [] then s₀.workdir else _) = _
    rw [hworkdir]
    rfl
  · change (if s₀.imageConfig.config.user.getD [] = [] then s₀.user else _) = _
    rw [huser]
    rfl
  · change (if s₀.imageConfig.config.shell.getD [] = [] then s₀.shell else _) = _
    rw [hshell]
    rfl
  · change s₀.parentLayerDigest = ((s₀.layers.getLast?).map (·.digest)).getD []
    exact startStage_chain (e := { e with world := w }) hstages hstart

/-- A step that keeps the shell keeps every stage coherent. -/
theorem Step.coherent (h : Step b e label e') (hshell : ∀ i ∈ label, KeepsShell i)
    (hstages : ∀ s ∈ e.stages, Coherent s) : ∀ s ∈ e'.stages, Coherent s := by
  have heffect := h.stages
  generalize e'.stages = after at heffect
  cases heffect with
  | same => exact hstages
  | begun s hs =>
    intro t ht
    rcases List.mem_append.mp ht with hold | hnew
    · exact hstages t hold
    · rw [List.mem_singleton.mp hnew]
      exact hs.coherent hstages
  | changed init s s' raw instr w' hs hlabel hname hexec heff =>
    have hkeeps : KeepsShell instr := fun hshellName hvalue =>
      hshell raw hlabel (hname ▸ hshellName) (hexec [] hvalue)
    intro t ht
    rcases List.mem_append.mp ht with hold | hnew
    · exact hstages t (hs ▸ List.mem_append_left _ hold)
    · rw [List.mem_singleton.mp hnew]
      have hcur : Coherent s := hstages s (hs ▸ List.mem_append_right _ (List.mem_singleton.mpr rfl))
      exact (hcur.effect heff.stage hkeeps).recordHistory _

end Steps

/-! ## Runs -/

section Runs

variable {b : Build} {e e' : Engine} {globalArgs : Dict Str Str} {w : World}

theorem coherent_of_reaches (h : Reaches b KeepsShell (start globalArgs w) e) :
    ∀ s ∈ e.stages, Coherent s := by
  refine h.invariant (I := fun e => ∀ s ∈ e.stages, Coherent s) ?_ ?_
  · intro s hs
    cases hs
  · intro e label e' hstep hok hstages
    exact hstep.coherent hok hstages

/-- A `FROM` of a stage. -/
structure FromStage (b : Build) (e : Engine) (text : Str) (parent : Stage) (e' : Engine) : Prop where
  begun : beginStage b e (.text text) = .ok e'
  isStage : ∃ expanded base name, expandForFrom b e.globalArgs text = .ok expanded ∧
    fromParts expanded = some (base, name) ∧ isScratch base = false ∧
    (Dict.get e.named base).bind (e.stages[·]?) = some parent

/-- The new stage: the parent's config, which went through JSON, its layers, and what is read out of the
config. -/
theorem FromStage.current {text : Str} {parent : Stage} (h : FromStage b e text parent e') :
    ∃ index name, e'.current = some (decodeConfig { Stage.new index name with
      imageConfig := { parent.imageConfig with config := parent.imageConfig.config.reread }
      layers := parent.layers
      parentLayerDigest := parent.parentLayerDigest
      baseRef := parent.baseRef
      baseImageId := parent.baseImageId }) := by
  obtain ⟨expanded, base, name, hexpand, hparts, hscratch, hparent⟩ := h.isStage
  have hbegun := h.begun
  unfold beginStage at hbegun
  simp only [hexpand] at hbegun
  obtain ⟨expanded', hexpanded, hbegun⟩ := Result.bind_ok hbegun
  cases hexpanded
  rw [hparts] at hbegun
  obtain ⟨⟨made, w⟩, -, hbegun⟩ := Result.bind_ok hbegun
  obtain ⟨⟨s₀, w'⟩, hstart, hbegun⟩ := Result.bind_ok hbegun
  cases hbegun
  unfold startStage at hstart
  simp only [hscratch] at hstart
  rw [if_neg Bool.false_ne_true, hparent] at hstart
  obtain ⟨w₁, -, hstart⟩ := Result.bind_ok hstart
  cases hstart
  exact ⟨_, _, List.getLast?_concat⟩

/-- The new stage is read out of the parent's config and has its layers. -/
theorem FromStage.inherits {text : Str} {parent : Stage} (h : FromStage b e text parent e') :
    ∃ t, e'.current = some t ∧ t.env = (inherited parent).env ∧
      t.workdir = (inherited parent).workdir ∧ t.user = (inherited parent).user ∧
      t.shell = (inherited parent).shell ∧ t.layers = parent.layers ∧
      t.parentLayerDigest = parent.parentLayerDigest := by
  obtain ⟨index, name, hcur⟩ := h.current
  exact ⟨_, hcur, rfl, rfl, rfl, rfl, rfl, rfl⟩

/-- **A `FROM` of a stage continues the stage.** In every run that carries out no `SHELL []`, at
all times what the next instruction uses is what the image config decodes to, and the next
stage that is `FROM` a stage starts with the environment, working directory, user, shell and
layers which that stage ended with, where no two surrogates in these join. -/
theorem from_stage_continues (b : Build) (globalArgs : Dict Str Str) (w : World) (e : Engine)
    (h : Reaches b KeepsShell (start globalArgs w) e) :
    (∀ s ∈ e.stages, Coherent s) ∧
      ∀ text parent e', FromStage b e text parent e' → Unjoined parent →
        ∃ t, e'.current = some t ∧ t.env = parent.env ∧ t.workdir = parent.workdir ∧
          t.user = parent.user ∧ t.shell = parent.shell ∧ t.layers = parent.layers ∧
          t.parentLayerDigest = parent.parentLayerDigest := by
  refine ⟨coherent_of_reaches h, fun text parent e' hfrom hjoin => ?_⟩
  obtain ⟨expanded, base, name, -, -, -, hparent⟩ := hfrom.isStage
  obtain ⟨k, -, hk⟩ := Option.bind_eq_some_iff.mp hparent
  have hcoherent := coherent_of_reaches h parent (List.mem_of_getElem? hk)
  obtain ⟨t, hcur, henv, hworkdir, huser, hshell, hlayers, hchain⟩ := hfrom.inherits
  obtain ⟨henv', hworkdir', huser', hshell'⟩ := hcoherent.inherited hjoin
  exact ⟨t, hcur, henv.trans henv', hworkdir.trans hworkdir', huser.trans huser',
    hshell.trans hshell', hlayers, hchain⟩

/-- Whether a `FROM text` is one of the stage `parent`. -/
def fromStageTo (b : Build) (e : Engine) (text : Str) : Option (Stage × Engine) :=
  match expandForFrom b e.globalArgs text with
  | .error _ => none
  | .ok expanded =>
    match fromParts expanded with
    | none => none
    | some (base, _) =>
      if isScratch base then none
      else
        match (Dict.get e.named base).bind (e.stages[·]?), beginStage b e (.text text) with
        | some parent, .ok e' => some (parent, e')
        | _, _ => none

/-- The `FROM` that is run begins a stage from the parent that is found. -/
theorem fromStageTo_some {text : Str} {parent : Stage}
    (h : fromStageTo b e text = some (parent, e')) : FromStage b e text parent e' := by
  unfold fromStageTo at h
  split at h
  · cases h
  · rename_i expanded hexpand
    split at h
    · cases h
    · rename_i base name hparts
      split at h
      · cases h
      · rename_i hscratch
        split at h
        · rename_i hparent hbegun
          cases h
          exact ⟨hbegun, expanded, base, name, hexpand, hparts, by simpa using hscratch, hparent⟩
        · cases h

/-! ### Two stages -/

/-- What `instrs` come to, and the stage that a `FROM a` continues then. -/
def thenFrom (instrs : List Instr) : Option (Engine × Stage × Engine) :=
  match instrs.foldlM (step onPaper) (start [] emptyWorld) with
  | .error _ => none
  | .ok e => (fromStageTo onPaper e "a".toList).map fun x => (e, x)

/-- A run and the `FROM` behind it, of a fixed file. -/
theorem thenFrom_some {instrs : List Instr} {parent : Stage} {ok : Instr → Prop}
    (hok : ∀ i ∈ instrs, ok i) (h : thenFrom instrs = some (e, parent, e')) :
    Reaches onPaper ok (start [] emptyWorld) e ∧ FromStage onPaper e "a".toList parent e' := by
  unfold thenFrom at h
  split at h
  · cases h
  · rename_i e₁ hrun
    obtain ⟨x, hx, heq⟩ := Option.map_eq_some_iff.mp h
    cases heq
    have hadmits : Admits onPaper ok instrs := ⟨hok, fun text parsed hparsed => by cases hparsed⟩
    exact ⟨foldlM_step_reaches hadmits hrun, fromStageTo_some hx⟩

/-- A stage with an environment, a working directory, a user and a shell of its own. -/
def stageOfItsOwn : List Instr :=
  [textInstr .FROM "scratch AS a", textInstr .ENV "X=1 Y=2 X=3", textInstr .WORKDIR "/srv",
    textInstr .USER "nobody", execInstr .SHELL ["/bin/bash", "-c"]]

theorem from_stage_continues_stageOfItsOwn :
    ∃ e parent e', FromStage onPaper e "a".toList parent e' ∧ parent.user = "nobody".toList ∧
      parent.layers ≠ [] ∧ Coherent parent ∧
      ∃ t, e'.current = some t ∧ t.env = parent.env ∧ t.workdir = parent.workdir ∧
        t.user = parent.user ∧ t.shell = parent.shell ∧ t.layers = parent.layers := by
  have hcheck : (thenFrom stageOfItsOwn).any fun x =>
      x.2.1.user = "nobody".toList ∧ x.2.1.layers ≠ [] ∧ Unjoined x.2.1 := by
    decide +kernel
  have hok : ∀ i ∈ stageOfItsOwn, KeepsShell i := by
    simp [stageOfItsOwn, KeepsShell, textInstr, execInstr]
  rcases hthen : thenFrom stageOfItsOwn with _ | ⟨e, parent, e'⟩
  · rw [hthen] at hcheck
    cases hcheck
  · rw [hthen] at hcheck
    obtain ⟨huser, hlayers, hjoin⟩ := of_decide_eq_true hcheck
    obtain ⟨hreach, hfrom⟩ := thenFrom_some hok hthen
    obtain ⟨hcoherent, hcontinues⟩ := from_stage_continues onPaper [] emptyWorld e hreach
    obtain ⟨t, hcur, henv, hworkdir, ht, hshell, hchain, -⟩ := hcontinues _ parent e' hfrom hjoin
    obtain ⟨expanded, base, name, -, -, -, hparent⟩ := hfrom.isStage
    obtain ⟨k, -, hk⟩ := Option.bind_eq_some_iff.mp hparent
    exact ⟨e, parent, e', hfrom, huser, hlayers, hcoherent parent (List.mem_of_getElem? hk),
      t, hcur, henv, hworkdir, ht, hshell, hchain⟩

/-- A stage that empties its shell. -/
def stageWithoutShell : List Instr := [textInstr .FROM "scratch AS a", execInstr .SHELL []]

/-- The two surrogates of a character, on two sides of a quote that goes away. -/
def halves : String :=
  String.ofList ['A', '=', '"', Char.ofNat 0x10f83d, '"', Char.ofNat 0x10fc80]

/-- A stage whose environment holds the two. -/
def stageOfHalves : List Instr := [textInstr .FROM "scratch AS a", execInstr .ENV [halves]]

/-- With a `SHELL []` neither holds: the stage's shell is not what its config decodes to, and a
`FROM` of the stage starts with another one. Without, a `FROM` of the stage may still start with
another environment: JSON makes one character of two surrogates. -/
theorem from_stage_loses :
    (¬ ∀ b globalArgs w e, Reaches b (fun _ => True) (start globalArgs w) e →
      ∀ s ∈ e.stages, Coherent s) ∧
    (¬ ∀ b globalArgs w e, Reaches b (fun _ => True) (start globalArgs w) e →
      ∀ text parent e', FromStage b e text parent e' →
        ∃ t, e'.current = some t ∧ t.shell = parent.shell) ∧
    ¬ ∀ b globalArgs w e, Reaches b KeepsShell (start globalArgs w) e →
      ∀ text parent e', FromStage b e text parent e' →
        ∃ t, e'.current = some t ∧ t.env = parent.env := by
  have hshell : (thenFrom stageWithoutShell).any fun x =>
      x.2.1.shell = [] ∧ (decoded x.2.1).shell ≠ [] ∧ (inherited x.2.1).shell ≠ [] := by
    decide +kernel
  have hhalves : (thenFrom stageOfHalves).any fun x => (inherited x.2.1).env ≠ x.2.1.env := by
    decide +kernel
  rcases hthen : thenFrom stageWithoutShell with _ | ⟨e, parent, e'⟩
  · rw [hthen] at hshell
    cases hshell
  rcases hjoined : thenFrom stageOfHalves with _ | ⟨e₂, parent₂, e₂'⟩
  · rw [hjoined] at hhalves
    cases hhalves
  rw [hthen] at hshell
  rw [hjoined] at hhalves
  obtain ⟨hlive, hdecoded, hinherited⟩ := of_decide_eq_true hshell
  obtain ⟨hreach, hfrom⟩ : Reaches onPaper (fun _ => True) _ e ∧ _ :=
    thenFrom_some (fun _ _ => trivial) hthen
  refine ⟨fun hall => ?_, fun hall => ?_, fun hall => ?_⟩
  · obtain ⟨expanded, base, name, -, -, -, hparent⟩ := hfrom.isStage
    obtain ⟨k, -, hk⟩ := Option.bind_eq_some_iff.mp hparent
    have hcoherent := hall onPaper [] emptyWorld e hreach parent (List.mem_of_getElem? hk)
    exact hdecoded (hcoherent.shell.symm.trans hlive)
  · obtain ⟨t, hcur, hsame⟩ := hall onPaper [] emptyWorld e hreach _ parent e' hfrom
    obtain ⟨t', hcur', -, -, -, hread, -⟩ := hfrom.inherits
    rw [hcur] at hcur'
    cases hcur'
    exact hinherited (hread.symm.trans (hsame.trans hlive))
  · have hok : ∀ i ∈ stageOfHalves, KeepsShell i := by
      simp [stageOfHalves, KeepsShell, textInstr, execInstr]
    obtain ⟨hreach₂, hfrom₂⟩ := thenFrom_some hok hjoined
    obtain ⟨t, hcur, hsame⟩ := hall onPaper [] emptyWorld e₂ hreach₂ _ parent₂ e₂' hfrom₂
    obtain ⟨t', hcur', hread, -⟩ := hfrom₂.inherits
    rw [hcur] at hcur'
    cases hcur'
    exact of_decide_eq_true hhalves (hread.symm.trans hsame)

end Runs

end Engine

end BuildEngine

end ProotDistro
