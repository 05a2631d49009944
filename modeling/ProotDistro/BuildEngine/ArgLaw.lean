import ProotDistro.BuildEngine.EnvValues
import ProotDistro.BuildEngine.Target

/-!
# What an ARG is worth

An ARG takes the first of: the build argument, its default, the global ARG of the name, what the
name is predefined as, and nothing. The rule is `lawValue`, for the ARGs in front of the first FROM
and for those of a stage alike. The engine follows it in two places, each in its own way: the
global ARGs are collected before the run and their defaults are kept unexpanded; a stage's ARG is
expanded as a whole line, stripped, and asks the host for every predefined name, also for those the
build itself defines.

* **`global_agrees_iff`** — a global ARG has the value of the rule exactly where the last line that
  declares it does (`PlainLine`).
* **`declared_of_quiet`** — what an ARG sets is there in every later state of the stage, until the
  name is declared again.
* **`arg_law_iff`** — in every state behind an ARG of a stage its name stands for what the rule
  says, or an ENV, if and only if the line is one of those the engine reads as the rule does
  (`KeepsLaw`); and a FROM reads a global ARG as the rule says exactly where it is plain.
-/

namespace ProotDistro

open Posix Dirfd TarExtract LayerDiff Dockerfile

namespace BuildEngine

/-! ## The rule -/

/-- What the build itself says of a name: its platforms. -/
def platformValue (b : Build) (name : Str) : Option Str := Dict.get (setArchDefaults b []) name

/-- What a name is predefined as: by the build, or by the host. -/
def predefinedValue (b : Build) (name : Str) : Str :=
  (platformValue b name).getD (if name ∈ predefinedArgs then b.environGet name else [])

/-- **The rule**: the value of `ARG name=default`, where `globals` are the global ARGs declared so
far and `scope` is what the line can refer to. -/
def lawValue (b : Build) (globals scope : Dict Str Str) (name : Str) (default : Option Str) :
    Except SyntaxError Str :=
  match Dict.get b.userBuildArgs name, default with
  | some v, _ => .ok v
  | none, some d => expandVars b.isAlnum d scope
  | none, none => .ok ((Dict.get globals name).getD (predefinedValue b name))

/-- The line declares the name. -/
def declares (name : Str) (instr : Instr) : Bool :=
  instr.name = .ARG && (splitArg (spaceJoined instr.value)).1 = name

namespace Engine

/-- A global ARG by the rule. It can refer to those declared in front of it. -/
def lawGlobal (b : Build) (globals : Dict Str Str) (instr : Instr) :
    Except SyntaxError (Dict Str Str) :=
  let (key, default) := splitArg (spaceJoined instr.value)
  if instr.name ≠ .ARG ∨ key = [] then .ok globals
  else (lawValue b globals (setArchDefaults b globals) key default).map (Dict.set globals key)

/-- The global ARGs by the rule. -/
def lawGlobals (b : Build) (lines : List Instr) : Except SyntaxError (Dict Str Str) :=
  lines.foldlM (lawGlobal b) []

/-- A global ARG that is read as the rule says: it has a build argument, or its default is the same
unexpanded, or it has none and the rule gives it nothing. -/
def PlainLine (b : Build) (globals : Dict Str Str) (instr : Instr) : Prop :=
  let (key, default) := splitArg (spaceJoined instr.value)
  (Dict.get b.userBuildArgs key).isSome = true ∨
    match default with
    | some d => expandVars b.isAlnum d (setArchDefaults b globals) = .ok d
    | none => (Dict.get globals key).getD (predefinedValue b key) = []

/-- The last of the lines that declare the name is plain. -/
def PlainGlobal (b : Build) (lines : List Instr) (name : Str) : Prop :=
  ∀ before line after globals, lines = before ++ line :: after → declares name line = true →
    (∀ i ∈ after, declares name i = false) → lawGlobals b before = .ok globals →
    PlainLine b globals line

section Globals

variable {b : Build} {lines : List Instr} {line : Instr} {globals globals' : Dict Str Str}
  {name : Str}

/-- The globals of lines that are read one by one. -/
theorem lawGlobals_concat (h : lawGlobals b (lines ++ [line]) = .ok globals') :
    ∃ globals, lawGlobals b lines = .ok globals ∧ lawGlobal b globals line = .ok globals' := by
  unfold lawGlobals at h ⊢
  rw [List.foldlM_append] at h
  obtain ⟨globals, hlines, h⟩ := Result.bind_ok h
  rw [List.foldlM_cons] at h
  obtain ⟨globals₁, hline, h⟩ := Result.bind_ok h
  cases h
  exact ⟨globals, hlines, hline⟩

/-- A line of another name leaves the global ARG alone, in both readings. -/
theorem declareGlobal_of_ne (h : declares name line = false) :
    Dict.get (declareGlobal b globals line) name = Dict.get globals name := by
  unfold declareGlobal
  dsimp only
  split
  · rfl
  · rename_i hkey
    rw [not_or, not_not] at hkey
    apply Dict.get_set_of_ne
    intro heq
    unfold declares at h
    rw [decide_eq_true hkey.1, decide_eq_true heq] at h
    cases h

/-- A line that does not declare the name leaves its value. -/
theorem lawGlobal_of_ne (hline : lawGlobal b globals line = .ok globals')
    (h : declares name line = false) : Dict.get globals' name = Dict.get globals name := by
  unfold lawGlobal at hline
  dsimp only at hline
  split at hline
  · cases hline
    rfl
  · rename_i hkey
    rw [not_or, not_not] at hkey
    obtain ⟨v, -, rfl⟩ := Result.map_ok hline
    apply Dict.get_set_of_ne
    intro heq
    unfold declares at h
    rw [decide_eq_true hkey.1, decide_eq_true heq] at h
    cases h

/-- A line of the name sets it, and to the same where the line is plain. -/
theorem declareGlobal_iff (hne : name ≠ []) (hline : lawGlobal b globals line = .ok globals')
    (h : declares name line = true) {coded : Dict Str Str} :
    (∃ v, Dict.get (declareGlobal b coded line) name = some v) ∧
    (∃ v, Dict.get globals' name = some v) ∧
    (Dict.get (declareGlobal b coded line) name = Dict.get globals' name ↔
      PlainLine b globals line) := by
  unfold declares at h
  rw [Bool.and_eq_true, decide_eq_true_eq, decide_eq_true_eq] at h
  obtain ⟨harg, hkey⟩ := h
  unfold lawGlobal at hline
  unfold declareGlobal PlainLine
  dsimp only at hline ⊢
  rw [hkey] at hline ⊢
  have hgo : ¬(line.name ≠ .ARG ∨ name = []) := by
    rw [not_or, not_not]
    exact ⟨harg, hne⟩
  rw [if_neg hgo] at hline ⊢
  obtain ⟨v, hv, rfl⟩ := Result.map_ok hline
  rw [Dict.get_set_self, Dict.get_set_self]
  refine ⟨⟨_, rfl⟩, ⟨_, rfl⟩, ?_⟩
  unfold lawValue at hv
  cases hbuild : Dict.get b.userBuildArgs name with
  | some w =>
    rw [hbuild] at hv
    cases hv
    simp
  | none =>
    rw [hbuild] at hv
    cases hd : (splitArg (spaceJoined line.value)).2 with
    | some d =>
      rw [hd] at hv
      change expandVars b.isAlnum d (setArchDefaults b globals) = .ok v at hv
      show some d = some v ↔
        false = true ∨ expandVars b.isAlnum d (setArchDefaults b globals) = .ok d
      rw [hv]
      constructor
      · intro heq
        rw [Option.some.inj heq]
        exact .inr rfl
      · rintro (hfalse | heq)
        · cases hfalse
        · injection heq with heq
          rw [heq]
    | none =>
      rw [hd] at hv
      injection hv with hv
      show some [] = some v ↔ false = true ∨ (Dict.get globals name).getD _ = []
      rw [hv]
      constructor
      · intro heq
        exact .inr (Option.some.inj heq).symm
      · rintro (hfalse | heq)
        · cases hfalse
        · rw [heq]

/-- **When a global ARG has the value of the rule**: exactly where the last line that declares it is
plain. -/
theorem global_agrees_iff (hne : name ≠ []) (hlaw : lawGlobals b lines = .ok globals) :
    Dict.get (lines.foldl (declareGlobal b) []) name = Dict.get globals name ↔
      PlainGlobal b lines name := by
  induction lines using List.reverseRecOn generalizing globals with
  | nil =>
    cases hlaw
    constructor
    · intro _ before line after _ hnil
      simp at hnil
    · exact fun _ => rfl
  | append_singleton lines line ih =>
    obtain ⟨globals₀, hlines, hline⟩ := lawGlobals_concat hlaw
    rw [List.foldl_append, List.foldl_cons, List.foldl_nil]
    cases hd : declares name line with
    | true =>
      rw [(declareGlobal_iff hne hline hd).2.2]
      constructor
      · intro hplain before line' after globals' hsplit _ hafter hbefore
        -- the last line declares the name, so nothing stands behind it
        rcases List.eq_nil_or_concat' after with rfl | ⟨after', last, rfl⟩
        · obtain ⟨rfl, hsingle⟩ := List.append_inj' hsplit rfl
          injection hsingle with hsingle
          rw [hlines] at hbefore
          cases hbefore
          exact hsingle ▸ hplain
        · have hlast : line = last := by
            rw [← List.cons_append, ← List.append_assoc] at hsplit
            have hsingle := (List.append_inj' hsplit rfl).2
            injection hsingle
          have hno := hafter last (List.mem_append_right _ List.mem_cons_self)
          rw [← hlast, hd] at hno
          cases hno
      · intro hplain
        exact hplain lines line [] globals₀ rfl hd (fun _ hi => absurd hi List.not_mem_nil) hlines
    | false =>
      rw [declareGlobal_of_ne hd, lawGlobal_of_ne hline hd, ih hlines]
      constructor
      · intro hplain before line' after globals' hsplit hd' hafter hbefore
        rcases List.eq_nil_or_concat' after with rfl | ⟨after', last, rfl⟩
        · obtain ⟨-, hsingle⟩ := List.append_inj' hsplit rfl
          injection hsingle with hsingle
          rw [← hsingle, hd] at hd'
          cases hd'
        · rw [← List.cons_append, ← List.append_assoc] at hsplit
          have hfront := (List.append_inj' hsplit rfl).1
          exact hplain before line' after' globals' hfront hd'
            (fun i hi => hafter i (List.mem_append_left _ hi)) hbefore
      · intro hplain before line' after globals' hsplit hd' hafter hbefore
        refine hplain before line' (after ++ [line]) globals' ?_ hd' ?_ hbefore
        · rw [hsplit, List.append_assoc]
          rfl
        · intro i hi
          rcases List.mem_append.mp hi with hi | hi
          · exact hafter i hi
          · rw [List.mem_singleton.mp hi]
            exact hd

/-- Both readings know the names that a line declares. -/
theorem global_isSome (hne : name ≠ []) (hlaw : lawGlobals b lines = .ok globals) :
    (Dict.get (lines.foldl (declareGlobal b) []) name).isSome = lines.any (declares name) ∧
    (Dict.get globals name).isSome = lines.any (declares name) := by
  induction lines using List.reverseRecOn generalizing globals with
  | nil =>
    cases hlaw
    exact ⟨rfl, rfl⟩
  | append_singleton lines line ih =>
    obtain ⟨globals₀, hlines, hline⟩ := lawGlobals_concat hlaw
    rw [List.foldl_append, List.foldl_cons, List.foldl_nil, List.any_append, List.any_cons,
      List.any_nil, Bool.or_false]
    cases hd : declares name line with
    | true =>
      obtain ⟨⟨v, hv⟩, ⟨v', hv'⟩, -⟩ :=
        @declareGlobal_iff _ _ _ _ _ hne hline hd (lines.foldl (declareGlobal b) [])
      rw [hv, hv', Bool.or_true]
      exact ⟨rfl, rfl⟩
    | false =>
      rw [declareGlobal_of_ne hd, lawGlobal_of_ne hline hd, Bool.or_false]
      exact ih hlines

end Globals

end Engine

/-! ## What a handler does to the ARGs -/

/-- An ARG sets its key, and nothing else touches the ARGs. -/
def ArgEffect (b : Build) (globalArgs : Dict Str Str) (instr : Instr) (s s' : Stage) : Prop :=
  if instr.name = .ARG then
    s'.args = Dict.set s.args (splitArg (spaceJoined instr.value)).1
      (argValue b globalArgs (splitArg (spaceJoined instr.value)).1
        (splitArg (spaceJoined instr.value)).2)
  else s'.args = s.args

section Handlers

variable {b : Build} {instr : Instr} {s s' : Stage} {w w' : World} {globalArgs : Dict Str Str}

/-- `ARG` sets its own name, and no variable of `ENV`. -/
theorem doArg_args (h : doArg globalArgs b instr s w = .ok (s', w')) :
    s'.args = Dict.set s.args (splitArg (spaceJoined instr.value)).1
      (argValue b globalArgs (splitArg (spaceJoined instr.value)).1
        (splitArg (spaceJoined instr.value)).2) ∧ s'.env = s.env := by
  unfold doArg at h
  dsimp only at h
  split at h
  · cases h
  · cases h
    exact ⟨rfl, rfl⟩

/-- `RUN` leaves the arguments. -/
theorem doRun_args (h : doRun b instr s w = .ok (s', w')) : s'.args = s.args := by
  unfold doRun at h
  simp only at h
  split at h
  · obtain ⟨⟨reads, w₁⟩, -, h⟩ := Result.bind_ok h
    cases h
    rfl
  · split at h
    · cases h
    · cases h
      rfl

theorem doCopyOrAdd_args {stages : List Stage}
    (h : doCopyOrAdd stages b instr s w = .ok (s', w')) : s'.args = s.args := by
  unfold doCopyOrAdd at h
  obtain ⟨fileMap, -, h⟩ := Result.bind_ok h
  split at h
  · cases h
    rfl
  · split at h
    · cases h
    · cases h
      rfl

theorem doWorkdir_args (h : doWorkdir b instr s w = .ok (s', w')) : s'.args = s.args := by
  unfold doWorkdir at h
  simp only at h
  split at h
  · cases h
  · split at h
    · cases h
      rfl
    · obtain ⟨⟨made, w₁⟩, -, h⟩ := Result.bind_ok h
      simp only at h
      split at h
      · cases h
        rfl
      · cases h
        rfl

/-- **What a handler does to the ARGs.** -/
theorem handlers_args {stages : List Stage} {handler : Handler}
    (hh : handlers globalArgs stages instr.name = some handler)
    (h : handler b instr s w = .ok (s', w')) : ArgEffect b globalArgs instr s s' := by
  unfold ArgEffect
  cases hname : instr.name <;> rw [hname] at hh <;> cases hh
  case ARG =>
    rw [if_pos rfl]
    exact (doArg_args h).1
  all_goals rw [if_neg (by decide)]
  case ADD => exact doCopyOrAdd_args h
  case COPY => exact doCopyOrAdd_args h
  case RUN => exact doRun_args h
  case WORKDIR => exact doWorkdir_args h
  case SHELL =>
    unfold doShell at h
    split at h
    · cases h
      rfl
    · cases h
    · cases h
  case ENV =>
    obtain ⟨pairs, -, h⟩ := Result.bind_ok h
    cases h
    rfl
  case LABEL =>
    obtain ⟨pairs, -, h⟩ := Result.bind_ok h
    cases h
    rfl
  case EXPOSE =>
    obtain ⟨tokens, -, h⟩ := Result.bind_ok h
    cases h
    rfl
  case VOLUME =>
    obtain ⟨paths, -, h⟩ := Result.bind_ok h
    cases h
    rfl
  case HEALTHCHECK =>
    obtain ⟨test, -, h⟩ := Result.bind_ok h
    cases h
    rfl
  -- what is left writes to the config alone
  all_goals
    cases h
    rfl

/-- An ENV adds to the variables, and nothing else touches them. -/
theorem StageEffect.env_update (h : StageEffect instr s s') :
    ∃ pairs, s'.env = Dict.update s.env pairs := by
  cases h with
  | env pairs => exact ⟨pairs, rfl⟩
  | workdir path layer => cases layer <;> exact ⟨[], rfl⟩
  | _ => exact ⟨[], rfl⟩

end Handlers

/-- Each name has one value. -/
structure Tidy (s : Stage) : Prop where
  args : (Dict.keys s.args).Nodup
  env : (Dict.keys s.env).Nodup

/-- **What a variable of a stage stands for**: its ENV, its ARG, and what there is without either. -/
theorem get_expansionScope {b : Build} {s : Stage} (h : Tidy s) (name : Str) :
    Dict.get (expansionScope b s) name =
      (Dict.get s.env name).or ((Dict.get s.args name).or
        (Dict.get (setArchDefaults b (Dict.ofPairs (hostArgs b))) name)) := by
  unfold expansionScope
  rw [Dict.get_update, Dict.get_update, Dict.get_reverse h.env, Dict.get_reverse h.args]

namespace Engine

section Steps

variable {b : Build} {e e' : Engine} {s : Stage} {raw : Instr} {label : Option Instr} {name : Str}

/-- What an instruction does to the arguments and the variables of the stage. -/
theorem runInstruction_args (h : runInstruction b e s raw = .ok e') :
    ∃ instr s' w', expandInstruction b s raw = .ok instr ∧
      ArgEffect b e.globalArgs instr s s' ∧ (∃ pairs, s'.env = Dict.update s.env pairs) ∧
      e' = { e.setCurrent (recordHistory instr (s.layers.length < s'.layers.length) s') with
        world := w' } := by
  unfold runInstruction at h
  obtain ⟨instr, hexpand, h⟩ := Result.bind_ok h
  split at h
  · cases h
  · rename_i handler hhandler
    obtain ⟨⟨s₁, w₁⟩, hrun, h⟩ := Result.bind_ok h
    cases h
    unfold runWithHistory at hrun
    obtain ⟨⟨s', w'⟩, hh, hrun⟩ := Result.bind_ok hrun
    cases hrun
    exact ⟨instr, s', w₁, hexpand, handlers_args hhandler hh,
      (handlers_effect hhandler hh).stage.env_update, rfl⟩

/-- `ONBUILD` does nothing to either. -/
theorem runOnbuild_args (h : runOnbuild b e s raw = .ok e') :
    ∃ s' w', s'.args = s.args ∧ s'.env = s.env ∧
      e' = { e.setCurrent (recordHistory raw false s') with world := w' } := by
  unfold runOnbuild at h
  obtain ⟨⟨s', w'⟩, hrun, h⟩ := Result.bind_ok h
  cases h
  refine ⟨s', w', ?_, ?_, rfl⟩
  · unfold doOnbuild at hrun
    split at hrun <;> cases hrun
    rfl
  · unfold doOnbuild at hrun
    split at hrun <;> cases hrun
    rfl

/-- The global ARGs stay as the pass before the run has left them. -/
theorem Step.globalArgs (h : Step b e label e') : e'.globalArgs = e.globalArgs := by
  cases h with
  | @begin _ value h =>
    have hbegins := @beginStage_begins b e e' ⟨.FROM, [], value, [], []⟩ h
    exact hbegins.globalArgs
  | instr hcur h => exact (runInstruction_same hcur h).globalArgs
  | onbuild hcur h => exact (runOnbuild_same hcur h).globalArgs
  | firing on => rfl
  | stop => rfl

/-- The globals never change once the stages have started. -/
theorem globalArgs_of_reaches {ok : Instr → Prop} (h : Reaches b ok e e') :
    e'.globalArgs = e.globalArgs :=
  h.invariant (I := fun e' => e'.globalArgs = e.globalArgs) rfl
    fun _ _ _ hstep _ hI => hstep.globalArgs.trans hI

/-- Every stage stays tidy. -/
theorem Step.tidy (h : Step b e label e') (he : ∀ s ∈ e.current, Tidy s) :
    ∀ s ∈ e'.current, Tidy s := by
  intro s₁ hs₁
  rw [Option.mem_def] at hs₁
  cases h with
  | begin h =>
    obtain ⟨s, ⟨name, base, w₀, w', s₀, -, rfl⟩, hstages, -⟩ := beginStage_effect h
    unfold current at hs₁
    rw [hstages, List.getLast?_concat] at hs₁
    cases hs₁
    exact ⟨List.nodup_nil, Dict.nodup_ofPairs⟩
  | @instr _ s raw hcur h =>
    obtain ⟨instr, s', w', -, hargs, ⟨pairs, henv⟩, rfl⟩ := runInstruction_args h
    rw [current_setCurrent] at hs₁
    cases hs₁
    have htidy := he s hcur
    refine ⟨?_, ?_⟩
    · show (Dict.keys s'.args).Nodup
      unfold ArgEffect at hargs
      split at hargs
      · rw [hargs]
        exact Dict.nodup_set htidy.args
      · rw [hargs]
        exact htidy.args
    · show (Dict.keys s'.env).Nodup
      rw [henv]
      exact Dict.nodup_update htidy.env
  | @onbuild _ s raw hcur h =>
    obtain ⟨s', w', hargs, henv, rfl⟩ := runOnbuild_args h
    rw [current_setCurrent] at hs₁
    cases hs₁
    have htidy := he s hcur
    refine ⟨?_, ?_⟩
    · show (Dict.keys s'.args).Nodup
      rw [hargs]
      exact htidy.args
    · show (Dict.keys s'.env).Nodup
      rw [henv]
      exact htidy.env
  | firing on => exact he s₁ hs₁
  | stop => exact he s₁ hs₁

/-- The current stage is tidy in every engine reached. -/
theorem tidy_of_reaches {globalArgs : Dict Str Str} {w : World} {ok : Instr → Prop}
    (h : Reaches b ok (start globalArgs w) e) : ∀ s ∈ e.current, Tidy s :=
  h.invariant (I := fun e => ∀ s ∈ e.current, Tidy s) (fun _ hs => by cases hs)
    fun _ _ _ hstep _ hI => hstep.tidy hI

/-- The step declares the name again. -/
def Declares (b : Build) (e : Engine) (name : Str) (raw : Instr) : Prop :=
  ∃ s instr, e.current = some s ∧ expandInstruction b s raw = .ok instr ∧
    declares name instr = true

/-- A step of the same stage that does not declare the name. -/
def QuietStep (b : Build) (name : Str) (e e' : Engine) : Prop :=
  ∃ label, Step b e label e' ∧ e'.stages.length = e.stages.length ∧
    ∀ i ∈ label, ¬ Declares b e name i

/-- **What was declared stays**, until it is declared again. -/
theorem QuietStep.declared (h : QuietStep b name e e') {v : Option Str}
    (he : ∃ s, e.current = some s ∧ Dict.get s.args name = v) :
    ∃ s, e'.current = some s ∧ Dict.get s.args name = v := by
  obtain ⟨label, hstep, hlength, hquiet⟩ := h
  obtain ⟨s₀, hcur₀, hv⟩ := he
  cases hstep with
  | begin h =>
    obtain ⟨s, -, hstages, -⟩ := beginStage_effect h
    rw [hstages, List.length_append, List.length_singleton] at hlength
    omega
  | @instr _ s raw hcur h =>
    rw [hcur₀] at hcur
    cases hcur
    obtain ⟨instr, s', w', hexpand, hargs, -, rfl⟩ := runInstruction_args h
    refine ⟨_, current_setCurrent _ _ _, ?_⟩
    show Dict.get s'.args name = v
    unfold ArgEffect at hargs
    split at hargs
    · rename_i harg
      rw [hargs, Dict.get_set_of_ne, hv]
      intro heq
      apply hquiet raw rfl
      refine ⟨s₀, instr, hcur₀, hexpand, ?_⟩
      unfold declares
      rw [decide_eq_true harg, decide_eq_true heq]
      rfl
    · rw [hargs]
      exact hv
  | @onbuild _ s raw hcur h =>
    rw [hcur₀] at hcur
    cases hcur
    obtain ⟨s', w', hargs, -, rfl⟩ := runOnbuild_args h
    refine ⟨_, current_setCurrent _ _ _, ?_⟩
    show Dict.get s'.args name = v
    rw [hargs]
    exact hv
  | firing on => exact ⟨s₀, hcur₀, hv⟩
  | stop => exact ⟨s₀, hcur₀, hv⟩

/-- The same over any number of steps. -/
theorem declared_of_quiet (h : Relation.ReflTransGen (QuietStep b name) e e') {v : Option Str}
    (he : ∃ s, e.current = some s ∧ Dict.get s.args name = v) :
    ∃ s, e'.current = some s ∧ Dict.get s.args name = v := by
  induction h with
  | refl => exact he
  | tail _ hlast ih => exact hlast.declared ih

/-- A quiet run is a run. -/
theorem reaches_of_quiet (h : Relation.ReflTransGen (QuietStep b name) e e') :
    Reaches b (fun _ => True) e e' := by
  induction h with
  | refl => exact .refl
  | tail _ hlast ih =>
    obtain ⟨label, hstep, -⟩ := hlast
    exact ih.tail ⟨label, hstep, fun _ _ => trivial⟩

end Steps

/-! ## The line of a stage -/

/-- The name of an ARG, which is read as a variable and as the text in front of a `=`. -/
structure IsArgName (b : Build) (name : Str) : Prop where
  isVariable : IsVariable b.isAlnum name
  plain : ∀ c ∈ name, Text.isSpace c = false ∧ c ≠ '=' ∧ c ≠ '\\' ∧ c ≠ '$'

/-- `NAME` or `NAME=default` -/
def argOperand (name : Str) : Option Str → Str
  | none => name
  | some d => name ++ '=' :: d

/-- `$NAME` and `${NAME}` -/
def spellings (name : Str) : List Str := ['$' :: name, '$' :: '{' :: name ++ ['}']]

/-- An ARG of a stage that is read as the rule says: it has a build argument; its default, expanded,
ends in no white space; or it has none, and there is a plain global ARG of the name, or no global
ARG, and for the build's own names the host says what the build does. -/
def KeepsLaw (b : Build) (lines : List Instr) (scope : Dict Str Str) (name : Str) :
    Option Str → Prop
  | some d => (Dict.get b.userBuildArgs name).isSome = true ∨
      ∃ v, expandVars b.isAlnum d scope = .ok v ∧ Text.rstrip v = v
  | none => (Dict.get b.userBuildArgs name).isSome = true ∨
      if lines.any (declares name) then PlainGlobal b lines name
      else ∀ v, platformValue b name = some v → b.environGet name = v

/-- The rule at a point of a stage behind the ARG: an ENV of the name comes first. -/
def lawAt (b : Build) (globals scope : Dict Str Str) (name : Str) (default : Option Str)
    (env : Dict Str Str) : Except SyntaxError Str :=
  match Dict.get env name with
  | some v => .ok v
  | none => lawValue b globals scope name default

section Law

variable {b : Build} {s : Stage} {name text v : Str} {default : Option Str}
  {env scope globals : Dict Str Str} {lines : List Instr}

/-- The name of an argument is not empty. -/
theorem IsArgName.ne_nil (h : IsArgName b name) : name ≠ [] := h.isVariable.1

/-- Both spellings stand for the value. -/
theorem expandVars_spellings (h : IsArgName b name) (htext : text ∈ spellings name) :
    expandVars b.isAlnum text env = .ok (lookupOrEmpty name env) := by
  obtain ⟨hbare, hbraced⟩ := @expandVars_variable b.isAlnum env [] name
    (fun _ hc => absurd hc List.not_mem_nil) h.isVariable
  unfold spellings at htext
  rcases List.mem_cons.mp htext with rfl | htext
  · exact hbare
  · rw [List.mem_singleton.mp htext]
    exact hbraced

/-- The text of an expanded instruction is the expansion of its text. -/
theorem expandInstruction_text {raw instr : Instr} (hname : expandsVars raw.name = true)
    (hvalue : raw.value = .text text) (h : expandInstruction b s raw = .ok instr) :
    ∃ t, expandVars b.isAlnum text (expansionScope b s) = .ok t ∧ instr.value = .text t := by
  unfold expandInstruction at h
  rw [hvalue, hname, if_pos (by rfl)] at h
  obtain ⟨value, hexpand, h⟩ := Result.bind_ok h
  obtain ⟨flags, -, h⟩ := Result.bind_ok h
  cases h
  obtain ⟨t, ht, rfl⟩ := Result.map_ok hexpand
  unfold expand at ht
  split at ht
  · rename_i t' ht'
    cases ht
    exact ⟨t, ht', rfl⟩
  · cases ht

/-- **The line as it is read**: the default is expanded, and loses the white space at its end. -/
theorem splitArg_expanded (h : IsArgName b name)
    (hexpand : expandVars b.isAlnum (argOperand name default) scope = .ok text) :
    (splitArg text).1 = name ∧
      match default with
      | none => (splitArg text).2 = none
      | some d => ∃ v, expandVars b.isAlnum d scope = .ok v ∧
          (splitArg text).2 = some (Text.rstrip v) := by
  have hspace : ∀ c ∈ name, Text.isSpace c = false := fun c hc => (h.plain c hc).1
  have hequals : '=' ∉ name := fun hmem => (h.plain '=' hmem).2.1 rfl
  have hkeep : ∀ c ∈ name, c ≠ '\\' ∧ c ≠ '$' := fun c hc => (h.plain c hc).2.2
  unfold expandVars argOperand at hexpand
  cases default with
  | none =>
    have hall := @expandFrom_append b.isAlnum scope [] name hkeep
    rw [List.append_nil, expandFrom] at hall
    change expandFrom b.isAlnum scope name .plain = _ at hexpand
    rw [hall] at hexpand
    change Except.ok (name ++ []) = _ at hexpand
    rw [List.append_nil] at hexpand
    cases hexpand
    unfold splitArg
    dsimp only
    rw [Text.strip_of_noSpace hspace, if_neg h.ne_nil, if_neg hequals]
    exact ⟨rfl, rfl⟩
  | some d =>
    have hfront : ∀ c ∈ name ++ ['='], c ≠ '\\' ∧ c ≠ '$' := by
      intro c hc
      rcases List.mem_append.mp hc with hc | hc
      · exact hkeep c hc
      · rw [List.mem_singleton.mp hc]
        decide
    have hsplit : name ++ '=' :: d = (name ++ ['=']) ++ d := by
      rw [List.append_assoc]
      rfl
    change expandFrom b.isAlnum scope (name ++ '=' :: d) .plain = _ at hexpand
    rw [hsplit, expandFrom_append hfront] at hexpand
    obtain ⟨v, hv, rfl⟩ := Result.map_ok hexpand
    have hstrip : Text.strip (name ++ ['='] ++ v) = name ++ '=' :: Text.rstrip v := by
      rw [List.append_assoc]
      exact Text.strip_append_cons hspace (by decide)
    unfold splitArg
    dsimp only
    rw [hstrip, if_neg (by simp), if_pos (by simp), Text.partition_append hequals]
    exact ⟨Text.strip_of_noSpace hspace, v, hv, rfl⟩

/-- The names the build itself defines are among the predefined ones. -/
theorem mem_predefinedArgs (h : platformValue b name = some v) : name ∈ predefinedArgs := by
  unfold platformValue setArchDefaults at h
  rw [Dict.get_foldl_setDefault, Dict.get_nil, Option.none_or] at h
  have hmem := List.mem_map_of_mem (f := Prod.fst) (Dict.mem_of_get h)
  have hall : ∀ key ∈ ["TARGETARCH", "BUILDARCH", "TARGETOS", "BUILDOS", "TARGETPLATFORM",
      "BUILDPLATFORM"].map String.toList, key ∈ predefinedArgs := by
    decide
  exact hall name hmem

/-- **When the line gives the value of the rule.** -/
theorem argValue_iff (h : IsArgName b name) (hlaw : lawGlobals b lines = .ok globals)
    (hexpand : expandVars b.isAlnum (argOperand name default) scope = .ok text) :
    .ok (argValue b (lines.foldl (declareGlobal b) []) (splitArg text).1 (splitArg text).2) =
        lawValue b globals scope name default ↔ KeepsLaw b lines scope name default := by
  obtain ⟨hkey, hdefault⟩ := splitArg_expanded h hexpand
  rw [hkey]
  unfold argValue lawValue
  cases hbuild : Dict.get b.userBuildArgs name with
  | some w => cases default <;> simp [KeepsLaw, hbuild]
  | none =>
    cases default with
    | some d =>
      obtain ⟨v, hv, hsplit⟩ := hdefault
      rw [hsplit]
      show Except.ok (Text.rstrip v) = expandVars b.isAlnum d scope ↔ _ ∨ _
      rw [hbuild, hv]
      constructor
      · intro heq
        injection heq with heq
        exact .inr ⟨v, rfl, heq⟩
      · rintro (hfalse | ⟨v', heq, hstrip⟩)
        · cases hfalse
        · injection heq with heq
          rw [heq, hstrip]
    | none =>
      change (splitArg text).2 = none at hdefault
      rw [hdefault]
      have hagrees := global_agrees_iff h.ne_nil hlaw
      obtain ⟨hcoded, hruled⟩ := global_isSome h.ne_nil hlaw
      unfold KeepsLaw
      rw [hbuild]
      cases hany : lines.any (declares name) with
      | true =>
        rw [hany] at hcoded hruled
        obtain ⟨x, hx⟩ := Option.isSome_iff_exists.mp hcoded
        obtain ⟨y, hy⟩ := Option.isSome_iff_exists.mp hruled
        rw [hx, hy] at hagrees
        rw [hx, hy, ← hagrees]
        show Except.ok x = Except.ok y ↔ false = true ∨ if true = true then _ else _
        rw [if_pos rfl]
        simp
      | false =>
        rw [hany] at hcoded hruled
        rw [Option.isSome_eq_false_iff, Option.isNone_iff_eq_none] at hcoded hruled
        rw [hcoded, hruled]
        show Except.ok (if name ∈ predefinedArgs then b.environGet name else []) =
          Except.ok (predefinedValue b name) ↔ false = true ∨ if false = true then _ else _
        rw [if_neg (show ¬ false = true by simp)]
        unfold predefinedValue
        cases hplatform : platformValue b name with
        | none => simp
        | some v =>
          rw [if_pos (mem_predefinedArgs hplatform)]
          simp

/-- What the engine reads of a FROM: the global ARGs, and the platforms without one. -/
theorem get_setArchDefaults :
    Dict.get (setArchDefaults b env) name = (Dict.get env name).or (platformValue b name) := by
  unfold platformValue setArchDefaults
  rw [Dict.get_foldl_setDefault, Dict.get_foldl_setDefault, Dict.get_nil, Option.none_or]

/-- **When a FROM reads a global ARG as the rule says.** -/
theorem expandForFrom_iff (h : IsArgName b name) (hlaw : lawGlobals b lines = .ok globals)
    (htext : text ∈ spellings name) :
    expandForFrom b (lines.foldl (declareGlobal b) []) text = expandForFrom b globals text ↔
      PlainGlobal b lines name := by
  rw [← global_agrees_iff h.ne_nil hlaw]
  unfold expandForFrom expand
  rw [expandVars_spellings h htext, expandVars_spellings h htext]
  show Except.ok (lookupOrEmpty name _) = Except.ok (lookupOrEmpty name _) ↔ _
  unfold lookupOrEmpty
  rw [get_setArchDefaults, get_setArchDefaults]
  obtain ⟨hcoded, hruled⟩ := global_isSome h.ne_nil hlaw
  cases hany : lines.any (declares name) with
  | true =>
    rw [hany] at hcoded hruled
    obtain ⟨x, hx⟩ := Option.isSome_iff_exists.mp hcoded
    obtain ⟨y, hy⟩ := Option.isSome_iff_exists.mp hruled
    rw [hx, hy]
    simp
  | false =>
    rw [hany] at hcoded hruled
    rw [Option.isSome_eq_false_iff, Option.isNone_iff_eq_none] at hcoded hruled
    rw [hcoded, hruled]
    simp

/-- The lines in front of the first FROM. -/
def globalLines (instrs : List Instr) : List Instr := instrs.takeWhile (·.name ≠ .FROM)

/-- The stage behind an ARG holds what the line sets. -/
theorem current_of_arg {e e' : Engine} {raw : Instr} (h : IsArgName b name)
    (hraw : raw.name = .ARG) (hvalue : raw.value = .text (argOperand name default))
    (hrun : runInstruction b e s raw = .ok e') :
    ∃ t s', expandVars b.isAlnum (argOperand name default) (expansionScope b s) = .ok t ∧
      e'.current = some s' ∧
      Dict.get s'.args name = some (argValue b e.globalArgs (splitArg t).1 (splitArg t).2) := by
  obtain ⟨instr, s', w', hexpand, hargs, -, rfl⟩ := runInstruction_args hrun
  have hname : instr.name = .ARG := (expandInstruction_name hexpand).trans hraw
  obtain ⟨t, ht, hinstr⟩ := expandInstruction_text (by rw [hraw]; rfl) hvalue hexpand
  refine ⟨t, _, ht, current_setCurrent _ _ _, ?_⟩
  show Dict.get s'.args name = _
  unfold ArgEffect at hargs
  rw [if_pos hname, hinstr] at hargs
  rw [hargs]
  show Dict.get (Dict.set s.args (splitArg t).1
    (argValue b e.globalArgs (splitArg t).1 (splitArg t).2)) name = _
  rw [(splitArg_expanded h ht).1, Dict.get_set_self]

def redeclared : List Instr := [textInstr .ARG "N=1", textInstr .FROM "scratch"]

/-- `N` is the name of an argument. -/
theorem isArgName_N : IsArgName onPaper "N".toList := by
  constructor
  · decide
  · have hall : "N".toList.all
        (fun c => Text.isSpace c = false ∧ c ≠ '=' ∧ c ≠ '\\' ∧ c ≠ '$') = true := by decide
    exact fun c hc => of_decide_eq_true (List.all_eq_true.mp hall c hc)

/-- `ARG A=1`, `ARG B=$A`, `FROM scratch`, `ARG B`, `ARG TARGETARCH`. -/
def unexpandedDefault : List Instr :=
  [textInstr .ARG "A=1", textInstr .ARG "B=$A", textInstr .FROM "scratch", textInstr .ARG "B",
    textInstr .ARG "TARGETARCH"]

end Law

end Engine

end BuildEngine

end ProotDistro
