import ProotDistro.BuildEngine.Effects

/-!
# `--target`

The pass before the run collects the names that FROM lines give, and refuses a target that is not
among them. It expands a FROM with the build arguments alone, where the run expands it with the
global ARGs, so what a FROM is called can differ between the two (`scanName`, `stageName`).

* **`refused_iff`** — the target is refused where no FROM line ends in its name as the pass reads
  it.
* **`tracks_foldlM`** — as long as the run goes on, the stages are those the FROM lines name, and
  only the last can be the target; at the FROM behind the target the run stops.
* **`builtAs_of_run`** — a run whose FROM lines name the target answers the first stage of that
  name, and carries out nothing behind it.
* **`target_agrees_iff`** — the refusal agrees with the run if and only if both passes find the
  name, or neither does.
-/

namespace ProotDistro

open Posix Dirfd TarExtract LayerDiff Dockerfile

namespace BuildEngine

/-- An instruction leaves its stage the number and the name. -/
theorem StageEffect.label {instr : Instr} {s s' : Stage} (h : StageEffect instr s s') :
    s'.index = s.index ∧ s'.name = s.name := by
  cases h with
  | workdir path layer => cases layer <;> exact ⟨rfl, rfl⟩
  | _ => exact ⟨rfl, rfl⟩

namespace Engine

/-! ## Names of stages -/

/-- The text of a FROM. -/
def fromText : Value → Str
  | .text s => s
  | .exec _ | .trigger _ => []

/-- The name a FROM gives its stage, when it is carried out. -/
def stageName (b : Build) (globalArgs : Dict Str Str) (instr : Instr) : Option Str :=
  ((expandForFrom b globalArgs (fromText instr.value)).toOption.bind fromParts).bind (·.2)

/-- The name the pass before the run reads at its end. -/
def scanName (b : Build) (instr : Instr) : Option Str :=
  (expandValueForFrom b (Dict.ofPairs b.userBuildArgs) instr.value).toOption.bind fromAsName

/-- A FROM the pass cannot expand. -/
def scanFails (b : Build) (instr : Instr) : Bool :=
  !(expandValueForFrom b (Dict.ofPairs b.userBuildArgs) instr.value).toOption.isSome

/-- The FROM lines. -/
def froms (instrs : List Instr) : List Instr := instrs.filter (·.name = .FROM)

/-- A global ARG, declared. -/
def declareGlobal (b : Build) (globalArgs : Dict Str Str) (instr : Instr) : Dict Str Str :=
  let (key, default) := splitArg (spaceJoined instr.value)
  if instr.name ≠ .ARG ∨ key = [] then globalArgs
  else Dict.set globalArgs key ((Dict.get b.userBuildArgs key).getD (default.getD []))

/-- The global ARGs: those in front of the first FROM. -/
def globalArgsOf (b : Build) (instrs : List Instr) : Dict Str Str :=
  (instrs.takeWhile (·.name ≠ .FROM)).foldl (declareGlobal b) []

section Names

/-- **A FROM that is well formed is read alike**: where both passes expand it to one text, they
read one name. -/
theorem fromAsName_of_fromParts {text base : Str} {name : Option Str}
    (h : fromParts text = some (base, name)) : fromAsName text = name := by
  unfold fromParts at h
  unfold fromAsName
  split at h
  · rename_i hwords
    cases h
    rw [hwords]
    rfl
  · rename_i base' as name' hwords
    split at h
    · rename_i has
      cases h
      rw [hwords]
      show (if isAs as = true ∧ ([base] ≠ [] ∨ _) then some name' else none) = some name'
      rw [if_pos ⟨has, .inl (by simp)⟩]
    · cases h
  · cases h

/-- So the two names of a line agree where its variables have one value in both scopes. -/
theorem scanName_eq_stageName {b : Build} {globalArgs : Dict Str Str} {instr : Instr}
    {text base : Str} {name : Option Str} (hvalue : instr.value = .text text)
    (hscope : expandForFrom b (Dict.ofPairs b.userBuildArgs) text = expandForFrom b globalArgs text)
    {expanded : Str} (hexpand : expandForFrom b globalArgs text = .ok expanded)
    (hparts : fromParts expanded = some (base, name)) :
    scanName b instr = stageName b globalArgs instr := by
  unfold scanName stageName
  rw [hvalue]
  show (expandForFrom b _ text).toOption.bind fromAsName =
    ((expandForFrom b globalArgs text).toOption.bind fromParts).bind (·.2)
  rw [hscope, hexpand]
  show fromAsName expanded = (fromParts expanded).bind (·.2)
  rw [hparts, fromAsName_of_fromParts hparts]
  rfl

end Names

/-! ## The pass before the run -/

section Scan

variable {b : Build} {instrs : List Instr} {p p' : Prescan} {T : Str}

/-- One instruction behind the first FROM. -/
theorem prescanStep_seen {instr : Instr} (hseen : p.seenFrom = true)
    (h : prescanStep b p instr = .ok p') : p'.seenFrom = true ∧ p'.globalArgs = p.globalArgs := by
  unfold prescanStep at h
  split at h
  · obtain ⟨value, -, h⟩ := Result.bind_ok h
    cases h
    exact ⟨rfl, rfl⟩
  · rw [if_pos hseen] at h
    cases h
    exact ⟨hseen, rfl⟩
  · cases h
    exact ⟨hseen, rfl⟩

/-- One instruction in front of it. -/
theorem prescanStep_unseen {instr : Instr} (hseen : p.seenFrom = false)
    (hname : instr.name ≠ .FROM) (h : prescanStep b p instr = .ok p') :
    p' = { p with globalArgs := declareGlobal b p.globalArgs instr } := by
  unfold prescanStep at h
  unfold declareGlobal
  split at h
  · rename_i hfrom
    exact absurd hfrom hname
  · rename_i harg
    rw [if_neg (by simp [hseen])] at h
    dsimp only at h ⊢
    split at h
    · rename_i hkey
      cases h
      rw [if_pos (.inr hkey)]
    · rename_i hkey
      cases h
      rw [if_neg (by simp [harg, hkey])]
  · rename_i hother
    cases h
    dsimp only
    rw [if_pos (.inl hother)]

/-- The names the pass adds. -/
theorem prescanStep_named {instr : Instr} (h : prescanStep b p instr = .ok p') :
    T ∈ p'.namedStages ↔ T ∈ p.namedStages ∨ instr.name = .FROM ∧ scanName b instr = some T := by
  unfold prescanStep at h
  split at h
  · rename_i hfrom
    obtain ⟨value, hvalue, h⟩ := Result.bind_ok h
    cases h
    unfold scanName
    rw [hvalue]
    show T ∈ p.namedStages ++ (fromAsName value).toList ↔ _ ∨ _ ∧ fromAsName value = some T
    rw [List.mem_append, Option.mem_toList]
    simp [hfrom]
  · rename_i harg
    have hsame : p'.namedStages = p.namedStages := by
      split at h
      · cases h
        rfl
      · dsimp only at h
        split at h
        · cases h
          rfl
        · cases h
          rfl
    rw [hsame]
    simp [harg]
  · rename_i hfrom _
    cases h
    simp [show instr.name ≠ .FROM from hfrom]

/-- **What the pass collects.** -/
theorem prescan_foldlM (hseen : p.seenFrom = false)
    (h : instrs.foldlM (prescanStep b) p = .ok p') :
    p'.globalArgs = (instrs.takeWhile (·.name ≠ .FROM)).foldl (declareGlobal b) p.globalArgs := by
  induction instrs generalizing p with
  | nil =>
    cases h
    rfl
  | cons instr instrs ih =>
    rw [List.foldlM_cons] at h
    obtain ⟨p₁, hstep, h⟩ := Result.bind_ok h
    by_cases hname : instr.name = .FROM
    · -- from here on the ARGs are of stages
      rw [List.takeWhile_cons_of_neg (by simp [hname])]
      have hglobals : p₁.seenFrom = true ∧ p₁.globalArgs = p.globalArgs := by
        unfold prescanStep at hstep
        rw [hname] at hstep
        obtain ⟨value, -, hstep⟩ := Result.bind_ok hstep
        cases hstep
        exact ⟨rfl, rfl⟩
      refine Result.foldlM_invariant
        (I := fun q => q.seenFrom = true ∧ q.globalArgs = p.globalArgs) hglobals ?_ h |>.2
      intro q i q' _ hq hs
      obtain ⟨hseen', hsame⟩ := prescanStep_seen hq.1 hs
      exact ⟨hseen', hsame.trans hq.2⟩
    · rw [List.takeWhile_cons_of_pos (by simp [hname]), List.foldl_cons]
      have hp₁ := prescanStep_unseen hseen hname hstep
      rw [hp₁] at h
      refine ih ?_ h
      exact hseen

/-- The stages found by the scan are those the `FROM` lines name. -/
theorem mem_namedStages (h : instrs.foldlM (prescanStep b) p = .ok p') :
    T ∈ p'.namedStages ↔ T ∈ p.namedStages ∨ ∃ i ∈ froms instrs, scanName b i = some T := by
  unfold froms
  induction instrs generalizing p with
  | nil =>
    cases h
    simp
  | cons instr instrs ih =>
    rw [List.foldlM_cons] at h
    obtain ⟨p₁, hstep, h⟩ := Result.bind_ok h
    rw [ih h, prescanStep_named hstep]
    simp only [List.mem_filter, List.mem_cons, decide_eq_true_eq]
    constructor
    · rintro ((hold | hhere) | ⟨i, hi, hname⟩)
      · exact .inl hold
      · exact .inr ⟨instr, ⟨.inl rfl, hhere.1⟩, hhere.2⟩
      · exact .inr ⟨i, ⟨.inr hi.1, hi.2⟩, hname⟩
    · rintro (hold | ⟨i, ⟨heq | hi, hfrom⟩, hname⟩)
      · exact .inl (.inl hold)
      · exact .inl (.inr (heq ▸ ⟨hfrom, hname⟩))
      · exact .inr ⟨i, ⟨hi, hfrom⟩, hname⟩

/-- An expansion that fails is no refusal. -/
theorem expandValueForFrom_error {scope : Dict Str Str} {value : Value} {f : Failure}
    (h : expandValueForFrom b scope value = .error f) : f ≠ .build := by
  rintro rfl
  unfold expandValueForFrom expandForFrom expand at h
  split at h
  · split at h <;> cases h
  · split at h <;> cases h
  · split at h <;> cases h

/-- The scan never fails as a build does. -/
theorem prescan_foldlM_error {f : Failure} (h : instrs.foldlM (prescanStep b) p = .error f) :
    f ≠ .build := by
  induction instrs generalizing p with
  | nil => cases h
  | cons instr instrs ih =>
    rw [List.foldlM_cons] at h
    cases hstep : prescanStep b p instr with
    | ok p₁ =>
      rw [hstep] at h
      exact ih h
    | error g =>
      rw [hstep] at h
      cases h
      unfold prescanStep at hstep
      split at hstep
      · cases hvalue : expandValueForFrom b (Dict.ofPairs b.userBuildArgs) instr.value with
        | ok value =>
          rw [hvalue] at hstep
          cases hstep
        | error g =>
          rw [hvalue] at hstep
          cases hstep
          exact expandValueForFrom_error hvalue
      · split at hstep
        · cases hstep
        · dsimp only at hstep
          split at hstep
          · cases hstep
          · cases hstep
      · cases hstep

/-- **When the pass comes to its end.** -/
theorem prescan_foldlM_iff :
    (∃ p', instrs.foldlM (prescanStep b) p = .ok p') ↔ ∀ i ∈ froms instrs, scanFails b i = false := by
  unfold froms
  induction instrs generalizing p with
  | nil => simp [pure, Except.pure]
  | cons instr instrs ih =>
    rw [List.foldlM_cons, List.forall_mem_filter, List.forall_mem_cons]
    simp only [List.forall_mem_filter] at ih
    constructor
    · rintro ⟨p', h⟩
      obtain ⟨p₁, hstep, h⟩ := Result.bind_ok h
      refine ⟨fun hfrom => ?_, ih.mp ⟨p', h⟩⟩
      unfold prescanStep at hstep
      rw [of_decide_eq_true hfrom] at hstep
      obtain ⟨value, hvalue, -⟩ := Result.bind_ok hstep
      unfold scanFails
      rw [hvalue]
      rfl
    · rintro ⟨hhere, hrest⟩
      have hstep : ∃ p₁, prescanStep b p instr = .ok p₁ := by
        unfold prescanStep
        split
        · rename_i hfrom
          have hok := hhere (decide_eq_true hfrom)
          unfold scanFails at hok
          rw [Bool.not_eq_false'] at hok
          obtain ⟨value, hvalue⟩ := Result.ok_of_isSome hok
          rw [hvalue]
          exact ⟨_, rfl⟩
        · split
          · exact ⟨_, rfl⟩
          · dsimp only
            split
            · exact ⟨_, rfl⟩
            · exact ⟨_, rfl⟩
        · exact ⟨_, rfl⟩
      obtain ⟨p₁, hp₁⟩ := hstep
      obtain ⟨p', hp'⟩ := (ih (p := p₁)).mpr hrest
      exact ⟨p', by rw [hp₁]; exact hp'⟩

/-- **When the target is refused.** -/
theorem refused_iff (hT : b.targetStage = some T) (hne : T ≠ []) :
    prescan b instrs = .error .build ↔
      ∀ i ∈ froms instrs, scanFails b i = false ∧ scanName b i ≠ some T := by
  have htarget : b.targetStage.getD [] = T := by rw [hT]; rfl
  unfold prescan
  rw [htarget]
  cases hfold : instrs.foldlM (prescanStep b) ⟨false, [], []⟩ with
  | error f =>
    -- the pass breaks off at a FROM
    constructor
    · intro h
      have hf : f = .build := by
        injection h
      exact absurd hf (prescan_foldlM_error hfold)
    · intro h
      have hok := (prescan_foldlM_iff (p := ⟨false, [], []⟩)).mpr fun i hi => (h i hi).1
      obtain ⟨p', hp'⟩ := hok
      rw [hp'] at hfold
      cases hfold
  | ok p' =>
    have hclosed := prescan_foldlM_iff.mp ⟨p', hfold⟩
    have hnamed : T ∈ p'.namedStages ↔ ∃ i ∈ froms instrs, scanName b i = some T := by
      rw [mem_namedStages hfold]
      simp
    show (if T ≠ [] ∧ T ∉ p'.namedStages then .error .build else .ok p'.globalArgs) =
      (.error .build : Except Failure (Dict Str Str)) ↔ _
    constructor
    · intro h i hi
      refine ⟨hclosed i hi, fun hname => ?_⟩
      rw [if_neg fun hboth => hboth.2 (hnamed.mpr ⟨i, hi, hname⟩)] at h
      cases h
    · intro h
      rw [if_pos]
      refine ⟨hne, fun hmem => ?_⟩
      obtain ⟨i, hi, hname⟩ := hnamed.mp hmem
      exact (h i hi).2 hname

end Scan

/-! ## Stages and their names -/

/-- Number and name of each stage. -/
def labels (e : Engine) : List (Nat × Option Str) := e.stages.map fun s => (s.index, s.name)

/-- The stages are the same by number and name, and so is what the run knows of them. -/
structure SameStages (e e' : Engine) : Prop where
  labels : e'.labels = e.labels
  named : e'.named = e.named
  globalArgs : e'.globalArgs = e.globalArgs
  stopAfter : e'.stopAfter = e.stopAfter

section Labels

variable {b : Build} {e e' : Engine} {s s' : Stage} {instr : Instr} {w' : World}

/-- An engine has its own stages. -/
theorem SameStages.self : SameStages e e := ⟨rfl, rfl, rfl, rfl⟩

/-- Stages that stay the same twice are the same. -/
theorem SameStages.trans {e'' : Engine} (h : SameStages e e') (h' : SameStages e' e'') :
    SameStages e e'' :=
  ⟨h'.labels.trans h.labels, h'.named.trans h.named, h'.globalArgs.trans h.globalArgs,
    h'.stopAfter.trans h.stopAfter⟩

/-- The current stage, replaced by one of its number and name. -/
theorem SameStages.setCurrent (hcur : e.current = some s)
    (hlabel : s'.index = s.index ∧ s'.name = s.name) :
    SameStages e { e.setCurrent s' with world := w' } := by
  refine ⟨?_, rfl, rfl, rfl⟩
  show (e.stages.dropLast ++ [s']).map (fun s => (s.index, s.name)) = _
  unfold Engine.labels
  conv_rhs => rw [stages_of_current hcur]
  rw [List.map_append, List.map_append, List.map_singleton, List.map_singleton, hlabel.1, hlabel.2]

/-- An instruction leaves the stages, apart from the current one's content. -/
theorem runInstruction_same (hcur : e.current = some s) (h : runInstruction b e s instr = .ok e') :
    SameStages e e' := by
  obtain ⟨_, s', w', -, heff, rfl⟩ := runInstruction_effect h
  exact .setCurrent hcur heff.stage.label

theorem runOnbuild_same (hcur : e.current = some s) (h : runOnbuild b e s instr = .ok e') :
    SameStages e e' := by
  obtain ⟨s', w', heff, -, rfl⟩ := runOnbuild_effect h
  exact .setCurrent hcur heff.stage.label

/-- No instruction but FROM changes what stages there are. -/
theorem dispatch_same (hname : instr.name ≠ .FROM) (h : dispatch b e instr = .ok e') :
    SameStages e e' := by
  unfold dispatch at h
  rw [if_neg hname] at h
  split at h
  · split at h
    · cases h
      exact .self
    · cases h
  · rename_i s hcur
    split at h
    · exact runOnbuild_same hcur h
    · exact runInstruction_same hcur h

/-- Triggers change none of it either. -/
theorem fireTriggers_same {triggers : List Str} (h : fireTriggers b e triggers = .ok e') :
    SameStages e e' := by
  unfold fireTriggers at h
  split at h
  · cases h
    exact .self
  · obtain ⟨e₁, hfold, h⟩ := Result.bind_ok h
    cases h
    have hfire : SameStages (e.setFiring true) e₁ := by
      refine Result.foldlM_invariant (I := SameStages (e.setFiring true)) .self ?_ hfold
      intro e₂ trigger e₃ _ hsame htrigger
      obtain ⟨instrs, -, htrigger⟩ := Result.bind_ok htrigger
      refine Result.foldlM_invariant (I := SameStages (e.setFiring true)) hsame ?_ htrigger
      intro e₄ i e₅ _ hsame hrun
      unfold runTriggered at hrun
      split at hrun
      · cases hrun
      · rename_i s hcur
        exact hsame.trans (runInstruction_same hcur hrun)
    exact ⟨hfire.labels, hfire.named, hfire.globalArgs, hfire.stopAfter⟩

/-- A stage starts with the index and the name it was given. -/
theorem startStage_label {base : Str} (h : startStage b e s base = .ok (s', w')) :
    s'.index = s.index ∧ s'.name = s.name := by
  unfold startStage at h
  split at h
  · cases h
    exact ⟨rfl, rfl⟩
  · split at h
    · obtain ⟨w₁, -, h⟩ := Result.bind_ok h
      cases h
      exact ⟨rfl, rfl⟩
    · obtain ⟨⟨pulled, fs⟩, -, h⟩ := Result.bind_ok h
      obtain ⟨imageConfig, -, h⟩ := Result.bind_ok h
      cases h
      exact ⟨rfl, rfl⟩

/-- What a FROM that is carried out adds. -/
structure Begins (b : Build) (e : Engine) (name : Option Str) (e' : Engine) : Prop where
  labels : e'.labels = e.labels ++ [(e.stages.length, name)]
  named : ∀ T, name = some T → Dict.get e'.named T = some e.stages.length
  globalArgs : e'.globalArgs = e.globalArgs
  stopAfter : e'.stopAfter = e.stopAfter

/-- **A FROM names its stage.** -/
theorem beginStage_begins (h : beginStage b e instr.value = .ok e') :
    Begins b e (stageName b e.globalArgs instr) e' := by
  unfold beginStage at h
  simp only at h
  obtain ⟨expanded, hexpand, h⟩ := Result.bind_ok h
  split at h
  · cases h
  · rename_i base name hparts
    obtain ⟨⟨made, w⟩, hsys, h⟩ := Result.bind_ok h
    obtain ⟨⟨s₀, w'⟩, hstart, h⟩ := Result.bind_ok h
    cases h
    have hlabel := startStage_label hstart
    have hname : stageName b e.globalArgs instr = name := by
      have htext : expandForFrom b e.globalArgs (fromText instr.value) = .ok expanded := by
        rw [← hexpand]
        cases instr.value <;> exact rfl
      unfold stageName
      rw [htext]
      show (fromParts expanded).bind (·.2) = name
      rw [hparts]
      exact rfl
    refine ⟨?_, fun T hT => ?_, rfl, rfl⟩
    · show (e.stages ++ [decodeConfig s₀]).map (fun s => (s.index, s.name)) = _
      rw [List.map_append, List.map_singleton, hname]
      show _ ++ [(s₀.index, s₀.name)] = _
      rw [hlabel.1, hlabel.2]
      exact rfl
    · rw [hname] at hT
      have hn : (decodeConfig s₀).name = some T := hlabel.2.trans hT
      have hi : (decodeConfig s₀).index = e.stages.length := hlabel.1
      unfold register
      dsimp only
      rw [hn, hi, Dict.get_set]
      split
      · exact rfl
      · exact Dict.get_set_self

/-- The same with the triggers of its base. -/
theorem doFrom_begins (hgo : ¬(b.targetStage.getD [] ≠ [] ∧ e.current.bind (·.name) = b.targetStage))
    (h : doFrom b e instr = .ok e') : Begins b e (stageName b e.globalArgs instr) e' := by
  unfold doFrom at h
  rw [if_neg hgo] at h
  obtain ⟨e₁, hbegin, h⟩ := Result.bind_ok h
  have hbegins := beginStage_begins hbegin
  have hsame := fireTriggers_same h
  refine ⟨hsame.labels.trans hbegins.labels, fun T hT => ?_,
    hsame.globalArgs.trans hbegins.globalArgs, hsame.stopAfter.trans hbegins.stopAfter⟩
  rw [hsame.named]
  exact hbegins.named T hT

end Labels

/-! ## The run -/

/-- Where a run has come to, behind the instructions `done`: its stages are those of their FROM
lines, and none but the last of these is the target. -/
structure Tracks (b : Build) (globalArgs : Dict Str Str) (T : Str) (done : List Instr)
    (e : Engine) : Prop where
  globals : e.globalArgs = globalArgs
  running : e.stopAfter = false
  labels : e.labels = (froms done).zipIdx.map fun x => (x.2, stageName b globalArgs x.1)
  first : ∀ i ∈ (froms done).dropLast, stageName b globalArgs i ≠ some T
  named : ∀ k, e.labels.getLast? = some (k, some T) → Dict.get e.named T = some k

/-- The last FROM line is the target's. -/
def AtTarget (b : Build) (globalArgs : Dict Str Str) (T : Str) (done : List Instr) : Prop :=
  (froms done).getLast?.bind (stageName b globalArgs) = some T

section Run

variable {b : Build} {globalArgs : Dict Str Str} {T : Str} {done instrs : List Instr}
  {e e' : Engine} {instr : Instr} {w : World}

/-- An instruction that is no `FROM` adds none. -/
theorem froms_concat_of_ne (h : instr.name ≠ .FROM) : froms (done ++ [instr]) = froms done := by
  unfold froms
  rw [List.filter_append, List.filter_singleton, decide_eq_false h]
  exact List.append_nil _

/-- A `FROM` adds itself. -/
theorem froms_concat (h : instr.name = .FROM) : froms (done ++ [instr]) = froms done ++ [instr] := by
  unfold froms
  rw [List.filter_append, List.filter_singleton, decide_eq_true h]
  rfl

/-- The engine starts on track. -/
theorem tracks_start : Tracks b globalArgs T [] (start globalArgs w) where
  globals := rfl
  running := rfl
  labels := rfl
  first := fun _ hi => absurd hi List.not_mem_nil
  named := fun _ h => by cases h

/-- The current stage is called what the last FROM line says. -/
theorem Tracks.current_name (h : Tracks b globalArgs T done e) :
    e.current.bind (·.name) = (froms done).getLast?.bind (stageName b globalArgs) := by
  have hlast := congrArg List.getLast? h.labels
  unfold Engine.labels at hlast
  rw [List.getLast?_map, List.getLast?_map, List.getLast?_zipIdx] at hlast
  unfold current
  cases hs : e.stages.getLast? with
  | none =>
    rw [hs] at hlast
    cases hf : (froms done).getLast? with
    | none => rfl
    | some i =>
      rw [hf] at hlast
      cases hlast
  | some s =>
    rw [hs] at hlast
    cases hf : (froms done).getLast? with
    | none =>
      rw [hf] at hlast
      cases hlast
    | some i =>
      rw [hf] at hlast
      exact congrArg Prod.snd (Option.some.inj hlast)

/-- **One instruction.** Either the run goes on, or the target was begun last and a FROM ends
it. -/
theorem Tracks.step (hT : b.targetStage = some T) (hne : T ≠ []) (h : Tracks b globalArgs T done e)
    (hstep : step b e instr = .ok e') :
    Tracks b globalArgs T (done ++ [instr]) e' ∨
      instr.name = .FROM ∧ AtTarget b globalArgs T done ∧ e' = { e with stopAfter := true } := by
  unfold Engine.step at hstep
  rw [h.running, if_neg (by simp)] at hstep
  -- by the instruction: only a FROM line begins a stage
  by_cases hname : instr.name = .FROM
  · unfold dispatch at hstep
    rw [if_pos hname] at hstep
    by_cases hat : AtTarget b globalArgs T done
    · -- the FROM behind the target
      right
      refine ⟨hname, hat, ?_⟩
      unfold doFrom at hstep
      rw [h.current_name, hT, if_pos ⟨hne, hat⟩] at hstep
      cases hstep
      rfl
    -- a FROM line that begins one more stage
    · left
      have hgo : ¬(b.targetStage.getD [] ≠ [] ∧ e.current.bind (·.name) = b.targetStage) := by
        rw [h.current_name, hT]
        exact fun hboth => hat hboth.2
      have hbegins := doFrom_begins hgo hstep
      have hlength : e.stages.length = (froms done).length := by
        have hlabels := congrArg List.length h.labels
        unfold Engine.labels at hlabels
        simpa using hlabels
      have hlabels : e'.labels = (froms done ++ [instr]).zipIdx.map
          fun x => (x.2, stageName b globalArgs x.1) := by
        rw [hbegins.labels, h.labels, h.globals, List.zipIdx_append, List.map_append, hlength]
        simp
      refine ⟨hbegins.globalArgs.trans h.globals, hbegins.stopAfter.trans h.running, ?_, ?_, ?_⟩
      · rw [froms_concat hname]
        exact hlabels
      -- the target is not among the names before the last
      · rw [froms_concat hname, List.dropLast_concat]
        intro i hi hTi
        rcases List.eq_nil_or_concat' (froms done) with hnil | ⟨init, last, hconcat⟩
        · rw [hnil] at hi
          cases hi
        · -- the last FROM line was not the target's, and those before it are known
          have hfirst := h.first
          unfold AtTarget at hat
          rw [hconcat] at hi hfirst hat
          rw [List.dropLast_concat] at hfirst
          rw [List.getLast?_concat] at hat
          rcases List.mem_append.mp hi with hinit | hlast
          · exact hfirst i hinit hTi
          · rw [List.mem_singleton.mp hlast] at hTi
            exact hat hTi
      · intro k hk
        rw [hbegins.labels, List.getLast?_concat] at hk
        injection hk with hk
        rw [hbegins.named T (congrArg Prod.snd hk)]
        exact congrArg some (congrArg Prod.fst hk)
  -- any other instruction keeps the stages' names
  · left
    have hsame := dispatch_same hname hstep
    refine ⟨hsame.globalArgs.trans h.globals, hsame.stopAfter.trans h.running, ?_, ?_, ?_⟩
    · rw [froms_concat_of_ne hname, hsame.labels]
      exact h.labels
    · rw [froms_concat_of_ne hname]
      exact h.first
    · intro k hk
      rw [hsame.named]
      rw [hsame.labels] at hk
      exact h.named k hk

/-- A run that has stopped does nothing more. -/
theorem foldlM_step_stopped (hstop : e.stopAfter = true) (h : instrs.foldlM (step b) e = .ok e') :
    e' = e := by
  refine Result.foldlM_invariant (I := fun e' => e' = e) rfl ?_ h
  rintro e₁ i e₂ - rfl hs
  unfold Engine.step at hs
  rw [if_pos hstop] at hs
  cases hs
  rfl

/-- **A whole run**: it has carried out everything, or it has stopped at the FROM behind the
target. -/
theorem Tracks.foldlM (hT : b.targetStage = some T) (hne : T ≠ [])
    (h : Tracks b globalArgs T done e) (hfold : instrs.foldlM (Engine.step b) e = .ok e') :
    Tracks b globalArgs T (done ++ instrs) e' ∨
      ∃ own next rest e₁, instrs = own ++ next :: rest ∧ next.name = .FROM ∧
        own.foldlM (Engine.step b) e = .ok e₁ ∧ Tracks b globalArgs T (done ++ own) e₁ ∧
        AtTarget b globalArgs T (done ++ own) ∧ e' = { e₁ with stopAfter := true } := by
  induction instrs generalizing done e with
  | nil =>
    cases hfold
    left
    rw [List.append_nil]
    exact h
  | cons instr instrs ih =>
    rw [List.foldlM_cons] at hfold
    obtain ⟨e₁, hstep, hfold⟩ := Result.bind_ok hfold
    rcases h.step hT hne hstep with hgo | ⟨hname, hat, hstop⟩
    · rcases ih hgo hfold with hall | ⟨own, next, rest, e₂, hinstrs, hnext, hown, htracks, hat, he'⟩
      · left
        rw [List.append_assoc] at hall
        exact hall
      · right
        rw [List.append_assoc] at htracks hat
        refine ⟨instr :: own, next, rest, e₂, by rw [hinstrs]; rfl, hnext, ?_, htracks, hat, he'⟩
        rw [List.foldlM_cons, hstep]
        exact hown
    · right
      have hsame := foldlM_step_stopped (by rw [hstop]) hfold
      refine ⟨[], instr, instrs, e, rfl, hname, rfl, ?_, ?_, hsame.trans hstop⟩
      · rw [List.append_nil]
        exact h
      · rw [List.append_nil]
        exact hat

end Run

/-! ## The target -/

/-- The build of the target `T`: the lines up to the end of its stage are carried out, nothing
behind them, and the stage of the first FROM line of that name is the answer. -/
def BuiltAs (b : Build) (globalArgs : Dict Str Str) (T : Str) (instrs : List Instr) (w : World)
    (s : Stage) (e : Engine) : Prop :=
  ∃ before own rest : List Instr, ∃ line : Instr, ∃ e₁ : Engine,
    instrs = before ++ line :: own ++ rest ∧
    (∀ i ∈ froms before, stageName b globalArgs i ≠ some T) ∧
    line.name = .FROM ∧ stageName b globalArgs line = some T ∧
    froms own = [] ∧ (∀ i ∈ rest.head?, i.name = .FROM) ∧
    (before ++ line :: own).foldlM (step b) (start globalArgs w) = .ok e₁ ∧
    e = { e₁ with stopAfter := e.stopAfter } ∧
    e₁.current = some s ∧ s.name = some T ∧ s.index = (froms before).length

/-- The refusal agrees with the run: the target is refused exactly where the FROM lines, as they are
carried out, name no such stage, and otherwise it is what a build answers. -/
def TargetAgrees (b : Build) (T : Str) (instrs : List Instr) : Prop :=
  (prescan b instrs = .error .build ↔
    ∀ i ∈ froms instrs, stageName b (globalArgsOf b instrs) i ≠ some T) ∧
  (prescan b instrs ≠ .error .build → ∀ w s e, run b instrs w = .ok (s, e) →
    BuiltAs b (globalArgsOf b instrs) T instrs w s e)

section Targets

variable {b : Build} {globalArgs : Dict Str Str} {T : Str} {done instrs : List Instr}
  {e : Engine} {s : Stage} {w : World}

/-- The last FROM line, with what is in front of it and behind it. -/
theorem split_last_from {line : Instr} (h : (froms done).getLast? = some line) :
    ∃ before own, done = before ++ line :: own ∧ line.name = .FROM ∧ froms own = [] ∧
      froms before = (froms done).dropLast := by
  induction done using List.reverseRecOn with
  | nil => cases h
  | append_singleton done instr ih =>
    by_cases hname : instr.name = .FROM
    · rw [froms_concat hname, List.getLast?_concat] at h
      cases h
      refine ⟨done, [], rfl, hname, rfl, ?_⟩
      rw [froms_concat hname, List.dropLast_concat]
    · rw [froms_concat_of_ne hname] at h
      obtain ⟨before, own, hdone, hline, hown, hbefore⟩ := ih h
      refine ⟨before, own ++ [instr], ?_, hline, ?_, ?_⟩
      · rw [hdone, List.append_assoc]
        rfl
      · rw [froms_concat_of_ne hname]
        exact hown
      · rw [froms_concat_of_ne hname]
        exact hbefore

/-- **The stage a run answers**, where it has begun the target last. -/
theorem Tracks.target (hT : b.targetStage = some T) (hne : T ≠ [])
    (h : Tracks b globalArgs T done e) (hat : AtTarget b globalArgs T done)
    (htarget : target b e = .ok s) :
    e.current = some s ∧ s.name = some T ∧ s.index + 1 = (froms done).length := by
  have hname := h.current_name
  rw [hat] at hname
  cases hcur : e.current with
  | none =>
    rw [hcur] at hname
    cases hname
  | some s' =>
    rw [hcur] at hname
    change s'.name = some T at hname
    have hlabel : e.labels.getLast? = some (s'.index, s'.name) := by
      unfold Engine.labels
      rw [List.getLast?_map]
      unfold current at hcur
      rw [hcur]
      rfl
    have hnamed := h.named s'.index (by rw [hlabel, hname])
    have hlength : s'.index + 1 = (froms done).length := by
      rw [h.labels, List.getLast?_map, List.getLast?_zipIdx] at hlabel
      unfold AtTarget at hat
      cases hlast : (froms done).getLast? with
      | none =>
        rw [hlast] at hat
        cases hat
      | some line =>
        rw [hlast] at hlabel
        have hindex := congrArg Prod.fst (Option.some.inj hlabel)
        have hpos : (froms done).length ≠ 0 := by
          intro hzero
          rw [List.length_eq_zero_iff.mp hzero] at hlast
          cases hlast
        change 0 + (froms done).length - 1 = s'.index at hindex
        omega
    have hstages : e.stages.length = (froms done).length := by
      have hlabels := congrArg List.length h.labels
      unfold Engine.labels at hlabels
      simpa using hlabels
    have hget : e.stages[s'.index]? = some s' := by
      unfold current at hcur
      rw [List.getLast?_eq_getElem?] at hcur
      rw [← hcur]
      congr 1
      omega
    unfold Engine.target at htarget
    rw [hcur, hT] at htarget
    simp only [Option.getD_some, if_neg hne, hnamed, Option.bind_some, hget] at htarget
    cases htarget
    exact ⟨rfl, hname, hlength⟩

/-- **A run that begins the target last answers it.** -/
theorem Tracks.builtAs (rest : List Instr) (hT : b.targetStage = some T) (hne : T ≠ [])
    {e' : Engine} (h : Tracks b globalArgs T done e) (hat : AtTarget b globalArgs T done)
    (hrest : ∀ i ∈ rest.head?, i.name = .FROM)
    (hfold : done.foldlM (Engine.step b) (start globalArgs w) = .ok e)
    (he' : e' = { e with stopAfter := e'.stopAfter }) (htarget : Engine.target b e' = .ok s) :
    BuiltAs b globalArgs T (done ++ rest) w s e' := by
  have htarget' : Engine.target b e = .ok s := by
    rw [← htarget, he']
    rfl
  obtain ⟨hcur, hname, hindex⟩ := h.target hT hne hat htarget'
  unfold AtTarget at hat
  obtain ⟨line, hlast, hline⟩ := Option.bind_eq_some_iff.mp hat
  obtain ⟨before, own, hdone, hfrom, hown, hbefore⟩ := split_last_from hlast
  have hfirst := h.first
  rw [← hbefore] at hfirst
  have hlength := congrArg List.length hbefore
  rw [List.length_dropLast] at hlength
  refine ⟨before, own, rest, line, e, ?_, hfirst, hfrom, hline, hown, hrest, ?_, he', hcur, hname, ?_⟩
  · rw [hdone]
  · rw [← hdone]
    exact hfold
  · omega

/-- **A run whose FROM lines name the target answers it.** -/
theorem builtAs_of_run (hT : b.targetStage = some T) (hne : T ≠ [])
    (hnames : ∃ i ∈ froms instrs, stageName b (globalArgsOf b instrs) i = some T) {e' : Engine}
    (h : run b instrs w = .ok (s, e')) : BuiltAs b (globalArgsOf b instrs) T instrs w s e' := by
  unfold run at h
  obtain ⟨globals, hscan, h⟩ := Result.bind_ok h
  obtain ⟨e₂, hfold, h⟩ := Result.bind_ok h
  obtain ⟨s₂, htarget, h⟩ := Result.bind_ok h
  cases h
  have hglobals : globals = globalArgsOf b instrs := by
    unfold prescan at hscan
    obtain ⟨p, hp, hscan⟩ := Result.bind_ok hscan
    split at hscan
    · cases hscan
    · cases hscan
      exact prescan_foldlM rfl hp
  rw [hglobals] at hfold
  rcases Tracks.foldlM hT hne tracks_start hfold with hall | hstopped
  · -- the run came to its end, with the target its last stage
    rw [List.nil_append] at hall
    obtain ⟨i, hi, hname⟩ := hnames
    have hat : AtTarget b (globalArgsOf b instrs) T instrs := by
      rcases List.eq_nil_or_concat' (froms instrs) with hnil | ⟨init, last, hconcat⟩
      · rw [hnil] at hi
        cases hi
      · have hfirst := hall.first
        unfold AtTarget
        rw [hconcat] at hi hfirst ⊢
        rw [List.dropLast_concat] at hfirst
        rw [List.getLast?_concat]
        rcases List.mem_append.mp hi with hinit | hlast
        · exact absurd hname (hfirst i hinit)
        · rw [List.mem_singleton.mp hlast] at hname
          exact hname
    have hbuilt := hall.builtAs [] hT hne hat (by simp) hfold rfl htarget
    rw [List.append_nil] at hbuilt
    exact hbuilt
  · obtain ⟨own, next, rest, e₁, hinstrs, hnext, hown, htracks, hat, he'⟩ := hstopped
    rw [List.nil_append] at htracks hat
    have hbuilt := htracks.builtAs (next :: rest) hT hne hat
      (fun i hi => by
        rw [Option.mem_def, List.head?_cons] at hi
        exact (Option.some.inj hi) ▸ hnext)
      hown (by rw [he']) htarget
    rw [hinstrs] at hbuilt ⊢
    exact hbuilt

/-- **When the refusal of a target agrees with the run.** The pass before the run reads the FROM
lines with the build arguments alone. It refuses a target exactly where none of the lines names it
as they are carried out, and a build that is not refused answers the first stage of that name and
carries out nothing of a later one, if and only if the target is the name of a line as it is
carried out exactly where it is the name at the end of a line as the pass reads it (or the pass
breaks off at a line). -/
theorem target_agrees_iff (b : Build) (T : Str) (hT : b.targetStage = some T) (hne : T ≠ [])
    (instrs : List Instr) :
    TargetAgrees b T instrs ↔
      ((∃ i ∈ froms instrs, stageName b (globalArgsOf b instrs) i = some T) ↔
        ∃ i ∈ froms instrs, scanFails b i = true ∨ scanName b i = some T) := by
  have hrefused := @refused_iff b instrs T hT hne
  have hscan : prescan b instrs = .error .build ↔
      ¬ ∃ i ∈ froms instrs, scanFails b i = true ∨ scanName b i = some T := by
    rw [hrefused]
    push Not
    simp
  have hnone : (∀ i ∈ froms instrs, stageName b (globalArgsOf b instrs) i ≠ some T) ↔
      ¬ ∃ i ∈ froms instrs, stageName b (globalArgsOf b instrs) i = some T := by
    push Not
    rfl
  constructor
  · rintro ⟨hiff, -⟩
    rw [hscan, hnone] at hiff
    exact (not_iff_not.mp hiff).symm
  · intro hiff
    refine ⟨?_, fun hgo w s e hrun => ?_⟩
    · rw [hscan, hnone]
      exact not_iff_not.mpr hiff.symm
    · apply builtAs_of_run hT hne _ hrun
      rw [ne_eq, hscan, not_not] at hgo
      exact hiff.mpr hgo

/-! ### A target named by a global ARG -/

def targetBuild : Build := { onPaper with targetStage := some "foo".toList }

/-- `ARG N=foo`, `FROM scratch AS $N`. -/
def computedName : List Instr := [textInstr .ARG "N=foo", textInstr .FROM "scratch AS $N"]

/-- `FROM scratch AS foo`, `FROM scratch AS foo`, `FROM scratch`. -/
def namedTwice : List Instr :=
  [textInstr .FROM "scratch AS foo", textInstr .FROM "scratch AS foo", textInstr .FROM "scratch"]

theorem target_agrees_iff_namedTwice :
    targetBuild.targetStage = some "foo".toList ∧ TargetAgrees targetBuild "foo".toList namedTwice := by
  refine ⟨rfl, (target_agrees_iff targetBuild "foo".toList rfl (by decide) namedTwice).mpr ?_⟩
  decide +kernel

/-- **A target that is refused though the run would build it**: the name is the default of a global
ARG, which the pass before the run does not look at. -/
theorem target_refused_wrongly :
    prescan targetBuild computedName = .error .build ∧
    (∃ i ∈ froms computedName,
      stageName targetBuild (globalArgsOf targetBuild computedName) i = some "foo".toList) ∧
    ¬ TargetAgrees targetBuild "foo".toList computedName := by
  have hname : ∃ i ∈ froms computedName,
      stageName targetBuild (globalArgsOf targetBuild computedName) i = some "foo".toList := by
    decide +kernel
  have hrefused : prescan targetBuild computedName = .error .build := by
    apply (refused_iff rfl (by decide)).mpr
    decide +kernel
  refine ⟨hrefused, hname, fun hagrees => ?_⟩
  obtain ⟨i, hi, hstage⟩ := hname
  exact hagrees.1.mp hrefused i hi hstage

end Targets

end Engine

end BuildEngine

end ProotDistro
