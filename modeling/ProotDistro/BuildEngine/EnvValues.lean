import ProotDistro.BuildEngine.Inherit
import ProotDistro.Lib.Shlex

/-!
# What ENV and LABEL make of a value

The text of an ENV is read twice: `expand_vars` replaces the variables and takes one backslash
off, and what that leaves goes to the shell lexer, which reads quotes and backslashes once more.
A value that was escaped for the first reader is bare for the second.

* **`expandFrom_escape`** — an escaped value comes out of the expansion as it is.
* **`parseKvList_of_plain`** — the lexer reads `key=` as it is, and goes on behind it.
* **`env_values_survive_iff`** — `key="…"` sets `key` to the value that was escaped if and only if
  double quotes read that value as it is; `key=$name` sets `key` to the value of the variable if
  and only if there is nothing in it for the lexer and no white space at its end.
-/

namespace ProotDistro

open Posix Dirfd TarExtract LayerDiff Dockerfile

namespace BuildEngine

open Engine

/-! ## Expansion -/

/-- A value with a backslash before each backslash, double quote and dollar. -/
def escape (v : Str) : Str :=
  v.flatMap fun c => if c = '\\' ∨ c = '"' ∨ c = '$' then ['\\', c] else [c]

/-- The name of a variable: what the expansion reads as one, bare or in braces. -/
def IsVariable (isAlnum : Char → Bool) (name : Str) : Prop :=
  name ≠ [] ∧ ∀ c ∈ name, (isAlnum c = true ∨ c = '_') ∧ c ∉ ['{', '}', ':', '-', '+', '?']

instance (isAlnum : Char → Bool) (name : Str) : Decidable (IsVariable isAlnum name) :=
  have := List.decidableBAll
    (fun c => (isAlnum c = true ∨ c = '_') ∧ c ∉ ['{', '}', ':', '-', '+', '?']) name
  inferInstanceAs (Decidable (_ ∧ _))

section Expansion

variable {isAlnum : Char → Bool} {env : Dict Str Str} {s front name : Str}

/-- A character behind a backslash is kept. -/
theorem expandFrom_backslash {c : Char} :
    expandFrom isAlnum env ('\\' :: c :: s) .plain =
      (expandFrom isAlnum env s .plain).map (c :: ·) := by
  rw [expandFrom.eq_def]
  exact if_pos rfl

/-- A dollar sign starts a name. -/
theorem expandFrom_dollar :
    expandFrom isAlnum env ('$' :: s) .plain = expandFrom isAlnum env s (.bare []) := by
  rw [expandFrom.eq_def]
  show (if '$' = '\\' then _ else if '$' = '$' then _ else _) = _
  rw [if_neg (by decide), if_pos rfl]

/-- Any other character is kept. -/
theorem expandFrom_cons {c : Char} (hc : c ≠ '\\' ∧ c ≠ '$') :
    expandFrom isAlnum env (c :: s) .plain = (expandFrom isAlnum env s .plain).map (c :: ·) := by
  rw [expandFrom.eq_def]
  show (if c = '\\' then _ else if c = '$' then _ else _) = _
  rw [if_neg hc.1, if_neg hc.2]

/-- What is neither a backslash nor a dollar is kept. -/
theorem expandFrom_append (h : ∀ c ∈ front, c ≠ '\\' ∧ c ≠ '$') :
    expandFrom isAlnum env (front ++ s) .plain =
      (expandFrom isAlnum env s .plain).map (front ++ ·) := by
  induction front with
  | nil =>
    show expandFrom isAlnum env s .plain = _
    cases expandFrom isAlnum env s .plain <;> rfl
  | cons c front ih =>
    rw [List.cons_append, expandFrom_cons (h c List.mem_cons_self),
      ih fun d hd => h d (List.mem_cons_of_mem _ hd)]
    cases expandFrom isAlnum env s .plain <;> rfl

/-- **An escaped value comes out as it is.** -/
theorem expandFrom_escape (v : Str) :
    expandFrom isAlnum env (escape v ++ s) .plain =
      (expandFrom isAlnum env s .plain).map (v ++ ·) := by
  induction v with
  | nil =>
    show expandFrom isAlnum env s .plain = _
    cases expandFrom isAlnum env s .plain <;> rfl
  | cons c v ih =>
    unfold escape at ih ⊢
    rw [List.flatMap_cons, List.append_assoc]
    by_cases hc : c = '\\' ∨ c = '"' ∨ c = '$'
    · rw [if_pos hc, List.cons_append, List.cons_append, List.nil_append, expandFrom_backslash, ih]
      cases expandFrom isAlnum env s .plain <;> rfl
    · have hplain : c ≠ '\\' ∧ c ≠ '$' :=
        ⟨fun heq => hc (.inl heq), fun heq => hc (.inr (.inr heq))⟩
      rw [if_neg hc, List.cons_append, List.nil_append, expandFrom_cons hplain, ih]
      cases expandFrom isAlnum env s .plain <;> rfl

/-- A name is read to its end. -/
theorem expandFrom_name {acc : Str} (hacc : acc ++ name ≠ [])
    (h : ∀ c ∈ name, (isAlnum c = true ∨ c = '_') ∧ c ≠ '{') :
    expandFrom isAlnum env name (.bare acc) = .ok (lookupOrEmpty (acc ++ name) env) := by
  induction name generalizing acc with
  | nil =>
    rw [List.append_nil] at hacc ⊢
    rw [expandFrom, if_neg hacc]
  | cons c name ih =>
    have hc := h c List.mem_cons_self
    have happend : acc ++ c :: name = (acc ++ [c]) ++ name := by
      rw [List.append_assoc]
      rfl
    rw [expandFrom, if_neg fun hboth => hc.2 hboth.2, if_pos hc.1, happend]
    apply ih
    · rw [← happend]
      exact hacc
    · exact fun d hd => h d (List.mem_cons_of_mem _ hd)

/-- What stands in braces is read to the brace that closes. -/
theorem expandFrom_braced {acc : Str} (h : '}' ∉ name) :
    expandFrom isAlnum env (name ++ ['}']) (.braced acc) =
      .ok (expandBraced (acc ++ name) env) := by
  induction name generalizing acc with
  | nil =>
    rw [List.nil_append, List.append_nil, expandFrom, if_pos rfl, expandFrom]
    show Except.ok (expandBraced acc env ++ []) = _
    rw [List.append_nil]
  | cons c name ih =>
    rw [List.mem_cons, not_or] at h
    rw [List.cons_append, expandFrom, if_neg (Ne.symm h.1), ih h.2, List.append_assoc]
    rfl

/-- A name alone in braces is looked up. -/
theorem expandBraced_name (h : ∀ c ∈ name, c ∉ [':', '-', '+', '?']) :
    expandBraced name env = lookupOrEmpty name env := by
  have hrest : ∀ c s, name.dropWhile isNameChar = c :: s → c ∉ [':', '-', '+', '?'] := by
    intro c s heq
    apply h
    apply (List.dropWhile_sublist isNameChar).mem
    rw [heq]
    exact List.mem_cons_self
  unfold expandBraced
  dsimp only
  split
  case h_7 => rfl
  all_goals
    -- an operator would be a character of the name
    rename_i heq
    exact absurd (by decide) (hrest _ _ heq)

/-- **A variable is replaced by its value**, behind what is kept. -/
theorem expandVars_variable (hfront : ∀ c ∈ front, c ≠ '\\' ∧ c ≠ '$')
    (hname : IsVariable isAlnum name) :
    expandVars isAlnum (front ++ '$' :: name) env = .ok (front ++ lookupOrEmpty name env) ∧
    expandVars isAlnum (front ++ '$' :: '{' :: name ++ ['}']) env =
      .ok (front ++ lookupOrEmpty name env) := by
  have hno : ∀ x ∈ ['{', '}', ':', '-', '+', '?'], ∀ c ∈ name, c ≠ x :=
    fun x hx c hc heq => (hname.2 c hc).2 (heq ▸ hx)
  constructor
  · have hread := @expandFrom_name isAlnum env name [] hname.1
      fun c hc => ⟨(hname.2 c hc).1, hno '{' (by decide) c hc⟩
    show expandFrom isAlnum env (front ++ '$' :: name) .plain = _
    rw [expandFrom_append hfront, expandFrom_dollar, hread]
    rfl
  · have hread := @expandFrom_braced isAlnum env name [] fun hmem => hno '}' (by decide) _ hmem rfl
    have halone : expandBraced name env = lookupOrEmpty name env := by
      apply expandBraced_name
      intro c hc hmem
      exact (hname.2 c hc).2 (List.mem_cons_of_mem _ (List.mem_cons_of_mem _ hmem))
    rw [List.nil_append, halone] at hread
    show expandFrom isAlnum env (front ++ '$' :: '{' :: name ++ ['}']) .plain = _
    rw [List.append_assoc, expandFrom_append hfront, List.cons_append, expandFrom_dollar,
      List.cons_append, expandFrom, if_pos ⟨rfl, rfl⟩, hread]
    rfl

end Expansion

/-! ## The lexer behind the key -/

/-- A key: it is plain text for both readers, and no white space can be stripped from it. -/
def IsKey (key : Str) : Prop :=
  ∀ c ∈ key, Text.isPlain c = true ∧ Text.isSpace c = false ∧ c ≠ '=' ∧ c ≠ '$'

instance (key : Str) : Decidable (IsKey key) :=
  List.decidableBAll (fun c => Text.isPlain c = true ∧ Text.isSpace c = false ∧ c ≠ '=' ∧ c ≠ '$') key

/-- A value the lexer reads as it is outside quotes. -/
def InertUnquoted (v : Str) : Prop := (∀ c ∈ v, Text.isPlain c = true) ∧ Text.rstrip v = v

instance (v : Str) : Decidable (InertUnquoted v) :=
  have := List.decidableBAll (fun c => Text.isPlain c = true) v
  inferInstanceAs (Decidable (_ ∧ _))

section Pairs

variable {key v rest value : Str} {pairs : List (Str × Str)} {tokens : List Str}

/-- A key has no equals sign. -/
theorem IsKey.equals (h : IsKey key) : '=' ∉ key := fun hmem => (h '=' hmem).2.2.1 rfl

/-- Both readers keep `key=`. -/
theorem IsKey.plain (h : IsKey key) : ∀ c ∈ key ++ ['='], Text.isPlain c = true := by
  intro c hc
  rcases List.mem_append.mp hc with hc | hc
  · exact (h c hc).1
  · rw [List.mem_singleton] at hc
    rw [hc]
    decide

theorem IsKey.front (h : IsKey key) : ∀ c ∈ key ++ ['='], c ≠ '\\' ∧ c ≠ '$' := by
  intro c hc
  rcases List.mem_append.mp hc with hmem | hc
  · exact ⟨(Text.isPlain_iff.mp (h c hmem).1).2.2, (h c hmem).2.2.2⟩
  · rw [List.mem_singleton] at hc
    rw [hc]
    decide

/-- White space at the end of the text is all that is stripped. -/
theorem IsKey.strip (h : IsKey key) :
    Text.strip (key ++ '=' :: rest) = key ++ '=' :: Text.rstrip rest := by
  exact Text.strip_append_cons (fun c hc => (h c hc).2.1) (by decide)

/-- **The lexer goes on behind `key=`.** -/
theorem parseKvList_of_key (h : IsKey key) :
    parseKvList (key ++ '=' :: rest) =
      match Text.shlexFrom (Text.rstrip rest) .word (key ++ ['=']) false with
      | none => .error .build
      | some tokens => .ok (tokens.filterMap Execenv.envPair) := by
  unfold parseKvList
  dsimp only
  rw [h.strip, if_neg (by simp)]
  have hfront : key ++ '=' :: Text.rstrip rest = (key ++ ['=']) ++ Text.rstrip rest := by
    rw [List.append_assoc]
    rfl
  have hsplit : Text.shlexSplit (key ++ '=' :: Text.rstrip rest) =
      Text.shlexFrom (Text.rstrip rest) .word (key ++ ['=']) false := by
    rw [hfront]
    exact Text.shlexSplit_append (by simp) h.plain
  exact hsplit ▸ rfl

/-- A pair is a word. -/
theorem mem_of_pair (h : (key, v) ∈ tokens.filterMap Execenv.envPair) :
    key ++ '=' :: v ∈ tokens := by
  obtain ⟨token, htoken, hpair⟩ := List.mem_filterMap.mp h
  unfold Execenv.envPair at hpair
  split at hpair
  · rename_i hmem
    have heq := Text.eq_partition hmem
    rw [Option.some.inj hpair] at heq
    rw [← heq]
    exact htoken
  · cases hpair

/-- The word that `key=` begins is a pair of the key, so it is the words that say what the key is
set to. -/
theorem mem_pairs_of_get (h : IsKey key) {s : Str} {state : Text.ShlexState} {quoted : Bool}
    (hstate : state ≠ .blank)
    (htokens : Text.shlexFrom s state (key ++ ['=']) quoted = some tokens) {old : Dict Str Str}
    (hget : Dict.get (Dict.update old (tokens.filterMap Execenv.envPair)) key = some v) :
    key ++ '=' :: v ∈ tokens := by
  obtain ⟨t, words, hwords⟩ := Text.eq_cons_of_shlexFrom hstate (by simp) htokens
  have hfirst : (key, t) ∈ tokens.filterMap Execenv.envPair := by
    apply List.mem_filterMap.mpr
    refine ⟨Execenv.envEntry (key, t), ?_, Execenv.envPair_envEntry h.equals⟩
    rw [hwords, List.append_assoc]
    exact List.mem_cons_self
  rw [Dict.get_update] at hget
  apply mem_of_pair
  apply List.mem_reverse.mp
  cases hreverse : Dict.get (tokens.filterMap Execenv.envPair).reverse key with
  | none =>
    -- the pair of the first word is in the way
    have hnone := Dict.get_eq_none.mp hreverse
    exact absurd (List.mem_map_of_mem (List.mem_reverse.mpr hfirst)) hnone
  | some v' =>
    rw [hreverse, Option.some_or] at hget
    rw [← Option.some.inj hget]
    exact Dict.mem_of_get hreverse

/-- The lexer, in the quotes behind `key=`. -/
theorem shlexFrom_quoted :
    Text.shlexFrom (Text.rstrip ('"' :: v ++ ['"'])) .word (key ++ ['=']) false =
      Text.shlexFrom (v ++ ['"']) (.quote '"') (key ++ ['=']) false := by
  rw [Text.rstrip_concat (by decide), List.cons_append, Text.shlexFrom, if_neg (by decide),
    if_pos (by decide)]

/-- **In double quotes**: the one pair is what it should be where the quotes keep the value. -/
theorem parseKvList_quoted (h : IsKey key) (hv : Text.InertInQuotes v) :
    parseKvList (key ++ '=' :: ('"' :: v ++ ['"'])) = .ok [(key, v)] := by
  have hword : key ++ ['='] ++ v = Execenv.envEntry (key, v) := by
    rw [List.append_assoc]
    rfl
  rw [parseKvList_of_key h, shlexFrom_quoted, Text.shlexFrom_doubleQuote hv, Text.shlexFrom,
    if_pos (.inr rfl), hword]
  show Except.ok ([Execenv.envEntry (key, v)].filterMap Execenv.envPair) = _
  rw [List.filterMap_cons_some (Execenv.envPair_envEntry h.equals), List.filterMap_nil]

/-- **Outside quotes**: the same where there is nothing in the value for the lexer. -/
theorem parseKvList_unquoted (h : IsKey key) (hv : InertUnquoted v) :
    parseKvList (key ++ '=' :: v) = .ok [(key, v)] := by
  have hread : Text.shlexFrom v .word (key ++ ['=']) false = some [Execenv.envEntry (key, v)] := by
    have hall := @Text.shlexFrom_word [] (key ++ ['=']) false v hv.1
    rw [List.append_nil, List.append_assoc, Text.shlexFrom, if_pos (.inl (by simp))] at hall
    exact hall
  rw [parseKvList_of_key h, hv.2, hread]
  show Except.ok ([Execenv.envEntry (key, v)].filterMap Execenv.envPair) = _
  rw [List.filterMap_cons_some (Execenv.envPair_envEntry h.equals), List.filterMap_nil]

/-- A key that is set to what was put in the quotes: the quotes keep it. -/
theorem inertInQuotes_of_get (h : IsKey key)
    (hpairs : parseKvList (key ++ '=' :: ('"' :: v ++ ['"'])) = .ok pairs) {old : Dict Str Str}
    (hget : Dict.get (Dict.update old pairs) key = some v) : Text.InertInQuotes v := by
  rw [parseKvList_of_key h, shlexFrom_quoted] at hpairs
  cases htokens : Text.shlexFrom (v ++ ['"']) (.quote '"') (key ++ ['=']) false with
  | none =>
    rw [htokens] at hpairs
    cases hpairs
  | some tokens =>
    rw [htokens] at hpairs
    cases hpairs
    -- the word is as long as what the lexer has read
    have hword := Text.length_le_wordsLength (mem_pairs_of_get h (by simp) htokens hget)
    apply Text.inertInQuotes_of_wordsLength htokens
    simp only [List.length_append, List.length_cons, List.length_nil] at hword ⊢
    omega

/-- A key that is set to what stood behind it bare: there was nothing for the lexer. -/
theorem inertUnquoted_of_get (h : IsKey key)
    (hpairs : parseKvList (key ++ '=' :: v) = .ok pairs) {old : Dict Str Str}
    (hget : Dict.get (Dict.update old pairs) key = some v) : InertUnquoted v := by
  rw [parseKvList_of_key h] at hpairs
  cases htokens : Text.shlexFrom (Text.rstrip v) .word (key ++ ['=']) false with
  | none =>
    rw [htokens] at hpairs
    cases hpairs
  | some tokens =>
    rw [htokens] at hpairs
    cases hpairs
    have hword := Text.length_le_wordsLength (mem_pairs_of_get h (by simp) htokens hget)
    have hread := Text.wordsLength_le htokens
    simp only [Text.ShlexState.pending, List.length_append, List.length_cons, List.length_nil]
      at hword hread
    -- nothing was stripped, and nothing dropped
    have hstrip : Text.rstrip v = v := by
      apply (List.rdropWhile_prefix Text.isSpace v).eq_of_length_le
      show v.length ≤ (Text.rstrip v).length
      omega
    rw [hstrip] at htokens
    refine ⟨Text.allPlain_of_wordsLength htokens ?_, hstrip⟩
    simp only [List.length_append, List.length_cons, List.length_nil]
    omega

end Pairs

/-! ## The instructions -/

namespace Engine

/-- An instruction of one line. -/
def lineInstr (name : Keyword) (text : Str) : Instr :=
  ⟨name, [], .text text, [], name.name ++ ' ' :: text⟩

/-- The operand `key="w"`, where `w` is the value with backslash, double quote and dollar
escaped. -/
def quotedOperand (key v : Str) : Str := key ++ '=' :: ('"' :: escape v ++ ['"'])

/-- The operands `key=$name` and `key=${name}`. -/
def variableOperands (key name : Str) : List Str :=
  [key ++ '=' :: '$' :: name, key ++ '=' :: '$' :: '{' :: name ++ ['}']]

/-- The instruction is carried out, and sets the variable, for the instructions that follow and
in the config. -/
def SetsEnv (b : Build) (e : Engine) (instr : Instr) (key v : Str) : Prop :=
  ∃ e' stage, dispatch b e instr = .ok e' ∧ e'.current = some stage ∧
    Dict.get stage.env key = some v ∧
    Dict.get (configEnv stage.imageConfig.config) key = some v

/-- The same, and no other variable is changed. -/
def SetsOnlyEnv (b : Build) (e : Engine) (old : Stage) (instr : Instr) (key v : Str) : Prop :=
  ∃ e' stage, dispatch b e instr = .ok e' ∧ e'.current = some stage ∧
    (∀ q, Dict.get stage.env q = if key = q then some v else Dict.get old.env q) ∧
    ∀ q, Dict.get (configEnv stage.imageConfig.config) q =
      if key = q then some v else Dict.get (configEnv old.imageConfig.config) q

/-- The instruction is carried out, and sets the label. -/
def SetsLabel (b : Build) (e : Engine) (instr : Instr) (key v : Str) : Prop :=
  ∃ e' stage, dispatch b e instr = .ok e' ∧ e'.current = some stage ∧
    Dict.get (stage.imageConfig.config.labels.getD []) key = some v

section Dispatch

variable {b : Build} {e e' : Engine} {stage : Stage} {text value key v : Str}
  {pairs : List (Str × Str)}

/-- The stage that is set is the current one. -/
theorem current_setCurrent (e : Engine) (s : Stage) (w : World) :
    ({ e.setCurrent s with world := w } : Engine).current = some s :=
  List.getLast?_concat

/-- An instruction of one line, expanded. -/
theorem expandInstruction_line {name : Keyword} (hname : expandsVars name = true)
    (hvalue : expandVars b.isAlnum text (expansionScope b stage) = .ok value) :
    expandInstruction b stage (lineInstr name text) =
      .ok { lineInstr name text with value := .text value } := by
  have hexpand : expandValue b (expansionScope b stage) (.text text) = .ok (.text value) := by
    show (expand b text (expansionScope b stage)).map Value.text = _
    unfold expand
    rw [hvalue]
    rfl
  unfold expandInstruction
  rw [if_pos (by simp [lineInstr, Value.isExec, hname])]
  show (expandValue b (expansionScope b stage) (.text text) >>= _) = _
  rw [hexpand]
  rfl

/-- An instruction of one line that takes variables, carried out. -/
theorem dispatch_line {name : Keyword} {handler : Handler} (hname : expandsVars name = true)
    (hfrom : name ≠ .FROM) (hhandler : handlers e.globalArgs e.stages name = some handler)
    (hcur : e.current = some stage)
    (hvalue : expandVars b.isAlnum text (expansionScope b stage) = .ok value) :
    dispatch b e (lineInstr name text) =
      (runWithHistory handler b { lineInstr name text with value := .text value } stage
        e.world).map fun x => { e.setCurrent x.1 with world := x.2 } := by
  have honbuild : name ≠ .ONBUILD := by
    rintro rfl
    cases hname
  unfold dispatch
  rw [if_neg (show (lineInstr name text).name ≠ .FROM from hfrom), hcur]
  show (if name = .ONBUILD then _ else _) = _
  rw [if_neg honbuild]
  unfold runInstruction
  rw [expandInstruction_line hname hvalue]
  have hfound : handlers e.globalArgs e.stages
      { lineInstr name text with value := .text value }.name = some handler := hhandler
  show Except.bind (.ok _) _ = _
  dsimp only [Except.bind]
  rw [hfound]
  show (runWithHistory handler b _ stage e.world >>= _) = _
  cases runWithHistory handler b _ stage e.world <;> rfl

/-- What an ENV does. -/
theorem dispatch_env (hcur : e.current = some stage) (hauthor : e.world.firingOnbuild = false)
    (hvalue : expandVars b.isAlnum text (expansionScope b stage) = .ok value)
    (hpairs : parseKvList value = .ok pairs) :
    ∃ e' stage', dispatch b e (lineInstr .ENV text) = .ok e' ∧ e'.current = some stage' ∧
      stage'.env = Dict.update stage.env pairs ∧
      configEnv stage'.imageConfig.config =
        Dict.update (configEnv stage.imageConfig.config) pairs := by
  have hallowed : allowedPairs e.world.firingOnbuild pairs = pairs := by
    unfold allowedPairs
    rw [hauthor]
    exact List.filter_eq_self.mpr fun _ _ => rfl
  rw [dispatch_line rfl (by decide) rfl hcur hvalue]
  unfold runWithHistory doEnv
  show ∃ e' stage', ((parseKvList value >>= _) >>= _).map _ = _ ∧ _
  rw [hpairs]
  refine ⟨_, _, rfl, current_setCurrent _ _ _, ?_, ?_⟩
  · show Dict.update stage.env (allowedPairs e.world.firingOnbuild pairs) = _
    rw [hallowed]
  · show configEnv { stage.imageConfig.config with env := some ((Dict.update _
      (allowedPairs e.world.firingOnbuild pairs)).map Execenv.envEntry) } = _
    rw [hallowed]
    exact configEnv_update (notMem_of_parseKvList hpairs)

/-- What a LABEL does. -/
theorem dispatch_label (hcur : e.current = some stage)
    (hvalue : expandVars b.isAlnum text (expansionScope b stage) = .ok value)
    (hpairs : parseKvList value = .ok pairs) :
    ∃ e' stage', dispatch b e (lineInstr .LABEL text) = .ok e' ∧ e'.current = some stage' ∧
      stage'.imageConfig.config.labels.getD [] =
        Dict.update (stage.imageConfig.config.labels.getD []) pairs := by
  rw [dispatch_line rfl (by decide) rfl hcur hvalue]
  unfold runWithHistory doLabel
  show ∃ e' stage', ((parseKvList value >>= _) >>= _).map _ = _ ∧ _
  rw [hpairs]
  exact ⟨_, _, rfl, current_setCurrent _ _ _, rfl⟩

/-- Either is carried out only where its text is a list of pairs. -/
theorem pairs_of_dispatch {name : Keyword} (hname : name = .ENV ∨ name = .LABEL)
    (hcur : e.current = some stage)
    (hvalue : expandVars b.isAlnum text (expansionScope b stage) = .ok value)
    (h : dispatch b e (lineInstr name text) = .ok e') : ∃ pairs, parseKvList value = .ok pairs := by
  cases hparse : parseKvList value with
  | ok pairs => exact ⟨pairs, rfl⟩
  | error f =>
    rcases hname with rfl | rfl
    · rw [dispatch_line rfl (by decide) rfl hcur hvalue] at h
      unfold runWithHistory doEnv at h
      change ((parseKvList value >>= _) >>= _).map _ = _ at h
      rw [hparse] at h
      cases h
    · rw [dispatch_line rfl (by decide) rfl hcur hvalue] at h
      unfold runWithHistory doLabel at h
      change ((parseKvList value >>= _) >>= _).map _ = _ at h
      rw [hparse] at h
      cases h

end Dispatch

/-! ## Values that survive -/

section Values

variable {b : Build} {e : Engine} {stage : Stage} {key v name text : Str}

/-- The expansion takes the backslashes off again. -/
theorem expandVars_quotedOperand {isAlnum : Char → Bool} {env : Dict Str Str} (hkey : IsKey key) :
    expandVars isAlnum (quotedOperand key v) env = .ok (key ++ '=' :: ('"' :: v ++ ['"'])) := by
  have hfront : ∀ c ∈ key ++ ['=', '"'], c ≠ '\\' ∧ c ≠ '$' := by
    intro c hc
    have happend : key ++ ['=', '"'] = (key ++ ['=']) ++ ['"'] := by
      rw [List.append_assoc]
      rfl
    rw [happend] at hc
    rcases List.mem_append.mp hc with hc | hc
    · exact hkey.front c hc
    · rw [List.mem_singleton] at hc
      rw [hc]
      decide
  have htext : quotedOperand key v = (key ++ ['=', '"']) ++ (escape v ++ ['"']) := by
    unfold quotedOperand
    rw [List.append_assoc]
    rfl
  show expandFrom isAlnum env (quotedOperand key v) .plain = _
  rw [htext, expandFrom_append hfront, expandFrom_escape, expandFrom_cons (by decide), expandFrom]
  show Except.ok (key ++ ['=', '"'] ++ (v ++ ['"'])) = _
  rw [List.append_assoc]
  rfl

/-- Both spellings of a variable leave its value. -/
theorem expandVars_variableOperands {isAlnum : Char → Bool} {env : Dict Str Str}
    (hkey : IsKey key) (hname : IsVariable isAlnum name) (htext : text ∈ variableOperands key name) :
    expandVars isAlnum text env = .ok (key ++ '=' :: lookupOrEmpty name env) := by
  obtain ⟨hbare, hbraced⟩ := @expandVars_variable isAlnum env _ name hkey.front hname
  have happend : ∀ s : Str, key ++ '=' :: s = (key ++ ['=']) ++ s := by
    intro s
    rw [List.append_assoc]
    rfl
  unfold variableOperands at htext
  rcases List.mem_cons.mp htext with rfl | htext
  · rw [happend, hbare, happend (lookupOrEmpty name env)]
  · rw [List.mem_singleton.mp htext, happend (lookupOrEmpty name env), ← hbraced]
    simp only [List.append_assoc, List.cons_append, List.nil_append]

/-- `ENV` sets a quoted value as written exactly when it is inert in quotes. -/
theorem setsEnv_quoted_iff (hcur : e.current = some stage)
    (hauthor : e.world.firingOnbuild = false) (hkey : IsKey key) :
    SetsEnv b e (lineInstr .ENV (quotedOperand key v)) key v ↔ Text.InertInQuotes v := by
  have hvalue := @expandVars_quotedOperand key v b.isAlnum (expansionScope b stage) hkey
  constructor
  · rintro ⟨e', stage', hdispatch, hcur', henv, -⟩
    obtain ⟨pairs, hpairs⟩ := pairs_of_dispatch (.inl rfl) hcur hvalue hdispatch
    obtain ⟨e₁, stage₁, hdispatch₁, hcur₁, henv₁, -⟩ := dispatch_env hcur hauthor hvalue hpairs
    rw [hdispatch₁] at hdispatch
    cases hdispatch
    rw [hcur₁] at hcur'
    cases hcur'
    rw [henv₁] at henv
    exact inertInQuotes_of_get hkey hpairs henv
  · intro hv
    obtain ⟨e', stage', hdispatch, hcur', henv, hconfig⟩ :=
      dispatch_env hcur hauthor hvalue (parseKvList_quoted hkey hv)
    refine ⟨e', stage', hdispatch, hcur', ?_, ?_⟩
    · rw [henv]
      exact Dict.get_set_self
    · rw [hconfig]
      exact Dict.get_set_self

theorem setsLabel_quoted_iff (hcur : e.current = some stage) (hkey : IsKey key) :
    SetsLabel b e (lineInstr .LABEL (quotedOperand key v)) key v ↔ Text.InertInQuotes v := by
  have hvalue := @expandVars_quotedOperand key v b.isAlnum (expansionScope b stage) hkey
  constructor
  · rintro ⟨e', stage', hdispatch, hcur', hlabel⟩
    obtain ⟨pairs, hpairs⟩ := pairs_of_dispatch (.inr rfl) hcur hvalue hdispatch
    obtain ⟨e₁, stage₁, hdispatch₁, hcur₁, hlabels⟩ := dispatch_label hcur hvalue hpairs
    rw [hdispatch₁] at hdispatch
    cases hdispatch
    rw [hcur₁] at hcur'
    cases hcur'
    rw [hlabels] at hlabel
    exact inertInQuotes_of_get hkey hpairs hlabel
  · intro hv
    obtain ⟨e', stage', hdispatch, hcur', hlabels⟩ :=
      dispatch_label hcur hvalue (parseKvList_quoted hkey hv)
    refine ⟨e', stage', hdispatch, hcur', ?_⟩
    rw [hlabels]
    exact Dict.get_set_self

/-- `ENV` sets the value of a variable alone exactly when that value is inert without quotes. -/
theorem setsOnlyEnv_variable_iff (hcur : e.current = some stage)
    (hauthor : e.world.firingOnbuild = false) (hkey : IsKey key)
    (hname : IsVariable b.isAlnum name) (htext : text ∈ variableOperands key name) :
    SetsOnlyEnv b e stage (lineInstr .ENV text) key
        (lookupOrEmpty name (expansionScope b stage)) ↔
      InertUnquoted (lookupOrEmpty name (expansionScope b stage)) := by
  have hvalue := @expandVars_variableOperands key name text b.isAlnum (expansionScope b stage)
    hkey hname htext
  constructor
  · rintro ⟨e', stage', hdispatch, hcur', henv, -⟩
    obtain ⟨pairs, hpairs⟩ := pairs_of_dispatch (.inl rfl) hcur hvalue hdispatch
    obtain ⟨e₁, stage₁, hdispatch₁, hcur₁, henv₁, -⟩ := dispatch_env hcur hauthor hvalue hpairs
    rw [hdispatch₁] at hdispatch
    cases hdispatch
    rw [hcur₁] at hcur'
    cases hcur'
    have hget := henv key
    rw [if_pos rfl, henv₁] at hget
    exact inertUnquoted_of_get hkey hpairs hget
  · intro hv
    obtain ⟨e', stage', hdispatch, hcur', henv, hconfig⟩ :=
      dispatch_env hcur hauthor hvalue (parseKvList_unquoted hkey hv)
    refine ⟨e', stage', hdispatch, hcur', fun q => ?_, fun q => ?_⟩
    · rw [henv]
      exact Dict.get_set
    · rw [hconfig]
      exact Dict.get_set

/-- **When a value survives ENV and LABEL.** In every state of a build, for every key: the operand
`key="w"`, with `w` the escaped value, sets the key to the value if and only if double quotes read
the value itself as it is, for the backslashes of `w` are gone before the quotes are read. And for
every variable, `key=$name` and `key=${name}` set the key to the value of the variable, and no
other, if and only if the lexer reads that value as it is outside quotes. -/
theorem env_values_survive_iff (b : Build) (e : Engine) (stage : Stage)
    (hcur : e.current = some stage) (hauthor : e.world.firingOnbuild = false) (key : Str)
    (hkey : IsKey key) :
    (∀ v, (SetsEnv b e (lineInstr .ENV (quotedOperand key v)) key v ↔ Text.InertInQuotes v) ∧
      (SetsLabel b e (lineInstr .LABEL (quotedOperand key v)) key v ↔ Text.InertInQuotes v)) ∧
    ∀ name, IsVariable b.isAlnum name → ∀ text ∈ variableOperands key name,
      (SetsOnlyEnv b e stage (lineInstr .ENV text) key
          (lookupOrEmpty name (expansionScope b stage)) ↔
        InertUnquoted (lookupOrEmpty name (expansionScope b stage))) := by
  refine ⟨fun v => ⟨?_, ?_⟩, fun name hname text htext => ?_⟩
  · exact setsEnv_quoted_iff hcur hauthor hkey
  · exact setsLabel_quoted_iff hcur hkey
  · exact setsOnlyEnv_variable_iff hcur hauthor hkey hname htext

/-! ### A stage with a variable of two words -/

def twoWords : Stage :=
  { Stage.new 0 none with env := [("b".toList, "x y=z".toList), ("c".toList, "x".toList)] }

def twoWordsEngine : Engine := (start [] emptyWorld).register twoWords emptyWorld

/-- A value with a space and a dollar, and a variable of one word. -/
theorem env_values_survive_iff_plain :
    SetsEnv onPaper twoWordsEngine (lineInstr .ENV (quotedOperand "k".toList "a $b\\c".toList))
      "k".toList "a $b\\c".toList ∧
    SetsOnlyEnv onPaper twoWordsEngine twoWords (lineInstr .ENV "k=$c".toList) "k".toList
      "x".toList := by
  have hiff := env_values_survive_iff onPaper twoWordsEngine twoWords rfl rfl "k".toList (by decide)
  have hname : IsVariable onPaper.isAlnum "c".toList := by decide
  exact ⟨(hiff.1 _).1.mpr (by decide), (hiff.2 "c".toList hname _ List.mem_cons_self).mpr (by decide)⟩

/-- **Values that do not survive.** A double quote that was escaped ends the quotes all the same,
and the instruction is refused; of the variable `b`, `ENV a=$b` takes the first word, and the
second for a variable of its own. -/
theorem env_values_lost :
    (dispatch onPaper twoWordsEngine
      (lineInstr .ENV (quotedOperand "k".toList "a\"b".toList))).toOption.isSome = false ∧
    ((dispatch onPaper twoWordsEngine (lineInstr .ENV "a=$b".toList)).toOption.bind current).map
        (·.env) =
      some [("b".toList, "x y=z".toList), ("c".toList, "x".toList), ("a".toList, "x".toList),
        ("y".toList, "z".toList)] := by
  decide +kernel

end Values

end Engine

end BuildEngine

end ProotDistro
