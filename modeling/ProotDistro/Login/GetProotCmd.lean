import ProotDistro.Lib.Shell
import ProotDistro.Message

/-!
# `login --get-proot-cmd`: the command of a session, for a shell

The command line is `env -i`, the variables of the session and the arguments of proot, one to a line
with line continuations. A value and an argument is put between double quotes where it needs any; the
name of a variable stands as it is. A text is printed as the bytes its characters are encoded as, and
where one of them has no encoding, with visible escapes.

The environment and the arguments are arbitrary; a name of the environment holds no equals sign, since
it was what stood before the first one.

* **`lex_part`** — how a part of the line is read back.
* **`getProotCmd_faithful_iff`** — the environments and arguments whose command line a shell reads as one
  simple command with exactly the words of the session.
-/

namespace ProotDistro

open Shell

namespace Login

/-! ## Quoting -/

/-- `_SAFE_CHARS` -/
def isSafe (c : CodePoint) : Bool :=
  c ∈ ofText "abcdefghijklmnopqrstuvwxyzABCDEFGHIJKLMNOPQRSTUVWXYZ0123456789_-+./:@="

/-- A text that is left without quotes. -/
def isBare (s : CodePoints) : Bool := !s.isEmpty && s.all isSafe

/-- `s.replace(old, new)` of one character. -/
def replace (old : CodePoint) (new s : CodePoints) : CodePoints :=
  s.flatMap fun c => if c = old then new else [c]

/-- `dq` -/
def dq (s : CodePoints) : CodePoints :=
  if isBare s then s
  else
    let escaped := replace (ofChar '\x60') (ofText "\\\x60") (replace (ofChar '$') (ofText "\\$")
      (replace doubleQuote (ofText "\\\"") (replace backslash (ofText "\\\\") s)))
    doubleQuote :: escaped ++ [doubleQuote]

/-! ## The command -/

/-- The name of a variable. -/
abbrev EnvName := { s : CodePoints // equals ∉ s }

/-- The variables of a session, in order. -/
abbrev ChildEnv := List (EnvName × CodePoints)

/-- What stands between the parts of the command. -/
def separator : CodePoints := ofText " \\\n  "

/-- The parts of the command. -/
def parts (childEnv : ChildEnv) (prootArgs : List CodePoints) : List CodePoints :=
  [ofText "env", ofText "-i"] ++ childEnv.map (fun x => x.1.val ++ [equals] ++ dq x.2) ++
    prootArgs.map dq

/-- The text of the command. -/
def commandText (childEnv : ChildEnv) (prootArgs : List CodePoints) : CodePoints :=
  separator.intercalate (parts childEnv prootArgs) ++ [newline]

/-- A character `os.fsencode` encodes. -/
def isEncodable (c : CodePoint) : Bool :=
  !Message.isSurrogate c || (0xdc80 ≤ c.val && c.val ≤ 0xdcff)

/-- `_print_command` -/
def printCommand (text : CodePoints) : CodePoints :=
  if text.all isEncodable then text
  else
    text.flatMap fun c =>
      if Message.isSurrogate c then ofText "\\u" ++ Message.hex 4 c.val else [c]

/-- What `--get-proot-cmd` prints. -/
def getProotCmd (childEnv : ChildEnv) (prootArgs : List CodePoints) : CodePoints :=
  printCommand (commandText childEnv prootArgs)

/-- The words of `env -i NAME=VALUE … proot …`. `prootArgs` is as it was built for printing, with the path
of the rootfs: a session that is started passes `--rootfs=.` in that word's place, from inside the
directory it has validated. -/
def sessionWords (childEnv : ChildEnv) (prootArgs : List CodePoints) : List CodePoints :=
  [ofText "env", ofText "-i"] ++ childEnv.map (fun x => x.1.val ++ [equals] ++ x.2) ++ prootArgs

/-! ## One part -/

/-- A part: what stands as it is, and what is quoted where it needs to be. -/
abbrev Part := CodePoints × CodePoints

namespace Part

def text (p : Part) : CodePoints := p.1 ++ dq p.2

/-- The word a part is meant to be. -/
def word (p : Part) : Word := p.1.map (fun c => (c, false)) ++ p.2.map fun c => (c, !isBare p.2)

/-- A part that is read back as it is meant. -/
def Good (p : Part) : Prop :=
  (∀ c ∈ p.1, isLiteral c = true) ∧ p.1.head? ≠ some hash ∧ 0 ∉ p.2 ∧ expands p.word = false

end Part

def partsOf (childEnv : ChildEnv) (prootArgs : List CodePoints) : List Part :=
  [([], ofText "env"), ([], ofText "-i")] ++ childEnv.map (fun x => (x.1.val ++ [equals], x.2)) ++
    prootArgs.map fun s => ([], s)

section Parts

variable {p : Part} {ps : List Part} {s t : CodePoints} {c : CodePoint} {w : Word}

/-- A character is replaced in two texts apart. -/
theorem replace_append (old : CodePoint) (new s t : CodePoints) :
    replace old new (s ++ t) = replace old new s ++ replace old new t := List.flatMap_append

/-- The four replacements come to one escape a character. -/
theorem replace_eq_escapeDouble (s : CodePoints) :
    replace (ofChar '\x60') (ofText "\\\x60") (replace (ofChar '$') (ofText "\\$")
      (replace doubleQuote (ofText "\\\"") (replace backslash (ofText "\\\\") s))) =
      escapeDouble s := by
  have hone : ∀ c : CodePoint, replace (ofChar '\x60') (ofText "\\\x60") (replace (ofChar '$')
      (ofText "\\$") (replace doubleQuote (ofText "\\\"") (replace backslash (ofText "\\\\") [c]))) =
      if isDoubleSpecial c then [backslash, c] else [c] := by
    intro c
    by_cases hspecial : isDoubleSpecial c = true
    · rw [if_pos hspecial]
      have hcases : c = ofChar '$' ∨ c = ofChar '\x60' ∨ c = doubleQuote ∨ c = backslash := by
        have hmem : c ∈ ofText "$\x60\"\\" := by simpa [isDoubleSpecial] using hspecial
        have htext : ofText "$\x60\"\\" = [ofChar '$', ofChar '\x60', doubleQuote, backslash] := by decide
        rw [htext] at hmem
        simpa using hmem
      rcases hcases with rfl | rfl | rfl | rfl <;> decide
    · rw [if_neg hspecial]
      have hne : ∀ d, isDoubleSpecial d = true → c ≠ d := by
        intro d hd heq
        rw [heq] at hspecial
        exact hspecial hd
      have hkeep : ∀ d new, isDoubleSpecial d = true → replace d new [c] = [c] := by
        intro d new hd
        unfold replace
        rw [List.flatMap_cons, if_neg (hne d hd)]
        rfl
      rw [hkeep _ _ (by decide), hkeep _ _ (by decide), hkeep _ _ (by decide), hkeep _ _ (by decide)]
  induction s with
  | nil => rfl
  | cons c s ih =>
    have hcons : c :: s = [c] ++ s := rfl
    have hescape : escapeDouble ([c] ++ s) = escapeDouble [c] ++ escapeDouble s := List.flatMap_append
    rw [hcons, replace_append, replace_append, replace_append, replace_append, hone, ih, hescape]
    unfold escapeDouble
    rw [List.flatMap_cons, List.flatMap_nil, List.append_nil]

/-- What `dq` does, in one step. -/
theorem dq_eq (s : CodePoints) :
    dq s = if isBare s then s else doubleQuote :: escapeDouble s ++ [doubleQuote] := by
  unfold dq
  rw [replace_eq_escapeDouble]

/-- What is safe without quotes is literal to the shell, and starts neither a comment nor a pattern. -/
theorem isLiteral_of_isSafe (h : isSafe c = true) : isLiteral c = true ∧ c ≠ hash ∧
    c ∉ ofText "~*?[" := by
  have hall : (ofText "abcdefghijklmnopqrstuvwxyzABCDEFGHIJKLMNOPQRSTUVWXYZ0123456789_-+./:@=").all
      (fun c => isLiteral c && c ≠ hash && c ∉ ofText "~*?[") = true := by
    decide +kernel
  have hmem : c ∈ ofText "abcdefghijklmnopqrstuvwxyzABCDEFGHIJKLMNOPQRSTUVWXYZ0123456789_-+./:@=" := by
    simpa [isSafe] using h
  have hc := List.all_eq_true.mp hall c hmem
  rw [Bool.and_eq_true, Bool.and_eq_true, decide_eq_true_eq, decide_eq_true_eq] at hc
  exact ⟨hc.1.1, hc.1.2, hc.2⟩

/-- A part, behind which the word goes on or ends. -/
theorem lex_part (hliteral : ∀ c ∈ p.1, isLiteral c = true) (hhash : p.1.head? ≠ some hash)
    (hnull : 0 ∉ p.2) :
    lex .plain none (p.text ++ t) = lex .plain (some p.word) t := by
  obtain ⟨pre, s⟩ := p
  dsimp only at hliteral hhash hnull
  unfold Part.text Part.word
  dsimp only
  rw [dq_eq]
  have hnull' : ∀ c ∈ s, c ≠ 0 := fun c hc heq => hnull (by rw [← heq]; exact hc)
  cases hbare : isBare s with
  | true =>
    rw [if_pos rfl]
    have hboth := hbare
    unfold isBare at hboth
    rw [Bool.and_eq_true, Bool.not_eq_true', List.isEmpty_eq_false_iff, List.all_eq_true] at hboth
    have hsafe : ∀ c ∈ pre ++ s, isLiteral c = true := by
      intro c hc
      rcases List.mem_append.mp hc with hc | hc
      · exact hliteral c hc
      · exact (isLiteral_of_isSafe (hboth.2 c hc)).1
    have hhead : (pre ++ s).head? ≠ some hash := by
      cases pre with
      | nil =>
        cases s with
        | nil => exact absurd rfl hboth.1
        | cons c s =>
          intro heq
          exact (isLiteral_of_isSafe (hboth.2 c List.mem_cons_self)).2.1 (Option.some.inj heq)
      | cons c pre => exact hhash
    have hne : pre ++ s ≠ [] := fun h => hboth.1 (List.append_eq_nil_iff.mp h).2
    rw [lex_literal hsafe hne hhead, List.map_append]
    rfl
  | false =>
    rw [if_neg (by simp)]
    -- the quote begins a word or goes on with one
    have hquote : ∀ cur, lex .plain cur (doubleQuote :: escapeDouble s ++ [doubleQuote] ++ t) =
        lex .plain (some (cur.getD [] ++ s.map fun c => (c, true))) t := by
      intro cur
      have hstep : step .plain cur doubleQuote = some ([], .double, some (cur.getD [])) := by
        cases cur <;> rfl
      rw [List.cons_append, List.cons_append, List.append_assoc, lex_cons_nil hstep]
      exact lex_double hnull'
    rw [List.append_assoc]
    cases pre with
    | nil => exact hquote none
    | cons c pre =>
      rw [lex_literal hliteral (List.cons_ne_nil _ _) hhash]
      exact hquote _

/-- The separator ends a word. -/
theorem lex_separator : lex .plain (some w) (separator ++ t) = (lex .plain none t).map (.word w :: ·) := by
  have htext : separator ++ t = ofChar ' ' :: backslash :: newline :: ofChar ' ' :: ofChar ' ' :: t := rfl
  rw [htext, lex_cons (show step .plain (some w) (ofChar ' ') = some ([.word w], .plain, none) from rfl),
    lex_cons_nil (show step .plain none backslash = some ([], .escaped, none) from rfl),
    lex_cons_nil (show step .escaped none newline = some ([], .plain, none) from rfl),
    lex_cons_nil (show step .plain none (ofChar ' ') = some ([], .plain, none) from rfl),
    lex_cons_nil (show step .plain none (ofChar ' ') = some ([], .plain, none) from rfl)]
  rfl

/-- The end of the line ends the last. -/
theorem lex_end : lex .plain (some w) [newline] = some [.word w, .newline] := rfl

/-- The text of some parts, each with what separates it from the next. -/
def leading (ps : List Part) : CodePoints := ps.flatMap fun p => p.text ++ separator

/-- Good parts in front are read back as they are meant. -/
theorem lex_leading (h : ∀ p ∈ ps, p.Good) :
    lex .plain none (leading ps ++ t) =
      (lex .plain none t).map ((ps.map fun p => Token.word p.word) ++ ·) := by
  induction ps with
  | nil =>
    show lex .plain none t = (lex .plain none t).map (fun tokens => tokens)
    rw [Option.map_id']
  | cons p ps ih =>
    obtain ⟨hliteral, hhash, hnull, -⟩ := h p List.mem_cons_self
    have htext : leading (p :: ps) ++ t = p.text ++ (separator ++ (leading ps ++ t)) := by
      unfold leading
      rw [List.flatMap_cons]
      simp only [List.append_assoc]
    rw [htext, lex_part hliteral hhash hnull, lex_separator,
      ih fun q hq => h q (List.mem_cons_of_mem _ hq), Option.map_map]
    rfl

/-- The text of a list of parts, cut at one of them. -/
theorem intercalate_split (ps qs : List Part) :
    separator.intercalate ((ps ++ p :: qs).map Part.text) =
      leading ps ++ separator.intercalate ((p :: qs).map Part.text) := by
  induction ps with
  | nil => rfl
  | cons q ps ih =>
    have hmore : (q :: ps ++ p :: qs).map Part.text =
        q.text :: ((ps ++ p :: qs).map Part.text) := rfl
    have hne : (ps ++ p :: qs).map Part.text ≠ [] := by simp
    unfold leading at ih ⊢
    rw [hmore, List.intercalate_cons_of_ne_nil hne, ih, List.flatMap_cons]
    simp only [List.append_assoc]

/-- The first word of a text that begins with a good part is that part. -/
theorem first_of_good (hliteral : ∀ c ∈ p.1, isLiteral c = true) (hhash : p.1.head? ≠ some hash)
    (hnull : 0 ∉ p.2) :
    ∃ next, lex .plain none (separator.intercalate ((p :: ps).map Part.text) ++ [newline]) =
      (next : Option (List Token)).map (.word p.word :: ·) := by
  cases ps with
  | nil =>
    refine ⟨some [.newline], ?_⟩
    show lex .plain none (separator.intercalate [p.text] ++ [newline]) = _
    rw [List.intercalate_singleton, lex_part hliteral hhash hnull, lex_end]
    rfl
  | cons q ps =>
    refine ⟨lex .plain none (separator.intercalate ((q :: ps).map Part.text) ++ [newline]), ?_⟩
    have htext : separator.intercalate ((p :: q :: ps).map Part.text) ++ [newline] =
        p.text ++ (separator ++ (separator.intercalate ((q :: ps).map Part.text) ++ [newline])) := by
      rw [List.map_cons, List.intercalate_cons_of_ne_nil (by simp)]
      simp only [List.append_assoc]
    rw [htext, lex_part hliteral hhash hnull, lex_separator]

/-- A list of good parts is read back as it is meant. -/
theorem lex_good (h : ∀ p ∈ ps, p.Good) (hne : ps ≠ []) :
    lex .plain none (separator.intercalate (ps.map Part.text) ++ [newline]) =
      some ((ps.map fun p => Token.word p.word) ++ [.newline]) := by
  rcases List.eq_nil_or_concat' ps with rfl | ⟨init, last, rfl⟩
  · exact absurd rfl hne
  · obtain ⟨hliteral, hhash, hnull, -⟩ := h last (by simp)
    rw [intercalate_split, List.append_assoc,
      lex_leading fun p hp => h p (List.mem_append_left _ hp), List.map_singleton,
      List.intercalate_singleton, lex_part hliteral hhash hnull, lex_end, List.map_append,
      List.append_assoc]
    rfl

end Parts

/-! ## The whole command -/

section Commands

variable {cmd : List Word} {words : List CodePoints} {tokens : List Token} {w : Word}

/-- A command that has begun stays in front. -/
theorem prefix_of_commandsFrom (hne : cmd ≠ []) {rest : List (List Word)} {c : List Word}
    (h : commandsFrom cmd tokens = c :: rest) : cmd <+: c := by
  induction tokens generalizing cmd with
  | nil =>
    rw [commandsFrom, if_neg hne] at h
    exact (List.cons.inj h).1 ▸ List.prefix_refl cmd
  | cons token tokens ih =>
    cases token with
    | word w =>
      have hgrown := ih (by simp) h
      exact (List.prefix_append _ _).trans hgrown
    | newline =>
      rw [commandsFrom, if_neg hne] at h
      exact (List.cons.inj h).1 ▸ List.prefix_refl cmd

/-- Words are added to the command that is read. -/
theorem commandsFrom_append (ws : List Word) :
    commandsFrom cmd (ws.map .word ++ tokens) = commandsFrom (cmd ++ ws) tokens := by
  induction ws generalizing cmd with
  | nil => rw [List.append_nil, List.map_nil, List.nil_append]
  | cons w ws ih =>
    rw [List.map_cons, List.cons_append, commandsFrom, ih, List.append_assoc, List.singleton_append]

/-- A reading that is one command: its words, none of which stands for something else. -/
theorem readCommands_eq_singleton {text : CodePoints} (hne : words ≠ [])
    (h : readCommands text = some [words]) :
    ∃ tokens cmd, lex .plain none text = some tokens ∧ commandsFrom [] tokens = [cmd] ∧
      words = cmd.map (·.map Prod.fst) ∧ ∀ w ∈ cmd, expands w = false := by
  obtain ⟨tokens, htokens, hcommands⟩ := Option.bind_eq_some_iff.mp h
  refine ⟨tokens, ?_⟩
  cases hlist : commandsFrom [] tokens with
  | nil =>
    rw [hlist] at hcommands
    cases hcommands
  | cons cmd rest =>
    rw [hlist, List.mapM_cons] at hcommands
    obtain ⟨first, hfirst, hcommands⟩ := Option.bind_eq_some_iff.mp hcommands
    obtain ⟨others, hothers, heq⟩ := Option.bind_eq_some_iff.mp hcommands
    obtain ⟨rfl, rfl⟩ := List.cons.inj (Option.some.inj heq)
    have hrest : rest = [] := by
      cases rest with
      | nil => rfl
      | cons c rest =>
        rw [List.mapM_cons] at hothers
        obtain ⟨x, -, hothers⟩ := Option.bind_eq_some_iff.mp hothers
        obtain ⟨y, -, hothers⟩ := Option.bind_eq_some_iff.mp hothers
        cases hothers
    refine ⟨cmd, htokens, by rw [hrest], ?_⟩
    unfold readCommand at hfirst
    cases cmd with
    | nil => exact absurd (Option.some.inj hfirst).symm hne
    | cons w cmd =>
      dsimp only at hfirst
      split at hfirst
      · cases hfirst
      · exact mapM_readWord.mp hfirst

end Commands

/-- A name that a shell reads as it stands, in front of its value: none of its characters means anything
to a shell, it does not begin with a hash, and with the value the word stands for nothing else. -/
def Clean (name : EnvName) (value : CodePoints) : Prop :=
  (∀ c ∈ name.val, isLiteral c = true) ∧ name.val.head? ≠ some hash ∧
    expands (Part.word (name.val ++ [equals], value)) = false

/-- A string that can be handed to a process: no null character, and nothing that has no encoding. -/
def Passable (s : CodePoints) : Prop := ∀ c ∈ s, c ≠ 0 ∧ isEncodable c = true

section Faithful

variable {childEnv : ChildEnv} {prootArgs : List CodePoints} {p : Part} {s : CodePoints} {c : CodePoint}

/-- The parts printed are the texts of the parts. -/
theorem parts_eq : parts childEnv prootArgs = (partsOf childEnv prootArgs).map Part.text := by
  unfold parts partsOf
  rw [List.map_append, List.map_append, List.map_map, List.map_map]
  rfl

/-- The session's words are the parts with nothing quoted. -/
theorem sessionWords_eq :
    sessionWords childEnv prootArgs = (partsOf childEnv prootArgs).map fun p => p.1 ++ p.2 := by
  unfold sessionWords partsOf
  rw [List.map_append, List.map_append, List.map_map, List.map_map]
  have hid : prootArgs.map ((fun p : Part => p.1 ++ p.2) ∘ fun s => ([], s)) = prootArgs :=
    List.map_id prootArgs
  rw [hid]
  rfl

/-- The characters of a word are those of its part. -/
theorem map_fst_word : p.word.map Prod.fst = p.1 ++ p.2 := by
  unfold Part.word
  rw [List.map_append, List.map_map, List.map_map]
  have hpre : p.1.map (Prod.fst ∘ fun c => (c, false)) = p.1 := List.map_id p.1
  have hrest : p.2.map (Prod.fst ∘ fun c => (c, !isBare p.2)) = p.2 := List.map_id p.2
  rw [hpre, hrest]

/-- A part with nothing in front of the quotes stands for itself. -/
theorem good_of_nil (hnull : 0 ∉ s) : Part.Good ([], s) := by
  refine ⟨fun c hc => (List.not_mem_nil hc).elim, nofun, hnull, ?_⟩
  apply expands_of_forall
  intro x hx
  unfold Part.word at hx
  rw [List.map_nil, List.nil_append, List.mem_map] at hx
  obtain ⟨c, hc, rfl⟩ := hx
  cases hbare : isBare s with
  | false => exact .inl rfl
  | true =>
    unfold isBare at hbare
    rw [Bool.and_eq_true, List.all_eq_true] at hbare
    exact .inr (isLiteral_of_isSafe (hbare.2 c hc)).2.2

/-- A clean name makes a good part. -/
theorem good_of_clean {name : EnvName} {value : CodePoints} (h : Clean name value) (hnull : 0 ∉ value) :
    Part.Good (name.val ++ [equals], value) := by
  obtain ⟨hliteral, hhash, hexpands⟩ := h
  refine ⟨?_, ?_, hnull, hexpands⟩
  · intro c hc
    rcases List.mem_append.mp hc with hc | hc
    · exact hliteral c hc
    · rw [List.mem_singleton.mp hc]
      decide
  · cases hname : name.val with
    | nil =>
      show some equals ≠ some hash
      decide
    | cons c s =>
      rw [hname] at hhash
      exact hhash

/-- What is in a part is in its text. -/
theorem mem_text (h : c ∈ p.1 ++ p.2) : c ∈ p.text := by
  unfold Part.text
  rcases List.mem_append.mp h with h | h
  · exact List.mem_append_left _ h
  · apply List.mem_append_right
    rw [dq_eq]
    split
    · exact h
    · apply List.mem_append_left
      apply List.mem_cons_of_mem
      apply List.mem_flatMap.mpr
      refine ⟨c, h, ?_⟩
      split <;> simp

/-- The text of a part holds no other characters than the part, quotes and backslashes. -/
theorem mem_of_mem_text (h : c ∈ p.text) : c ∈ p.1 ++ p.2 ∨ c = doubleQuote ∨ c = backslash := by
  unfold Part.text at h
  rw [dq_eq] at h
  rcases List.mem_append.mp h with h | h
  · exact .inl (List.mem_append_left _ h)
  · split at h
    · exact .inl (List.mem_append_right _ h)
    · rcases List.mem_append.mp h with h | h
      · rcases List.mem_cons.mp h with rfl | h
        · exact .inr (.inl rfl)
        · obtain ⟨d, hd, hc⟩ := List.mem_flatMap.mp h
          split at hc
          · rcases List.mem_cons.mp hc with rfl | hc
            · exact .inr (.inr rfl)
            · rw [List.mem_singleton.mp hc]
              exact .inl (List.mem_append_right _ hd)
          · rw [List.mem_singleton.mp hc]
            exact .inl (List.mem_append_right _ hd)
      · exact .inr (.inl (List.mem_singleton.mp h))

/-- Where the characters of the command come from. -/
theorem mem_intercalate_text {ps : List Part} (h : c ∈ separator.intercalate (ps.map Part.text)) :
    c ∈ separator ∨ ∃ p ∈ ps, c ∈ p.text := by
  induction ps with
  | nil => cases h
  | cons p ps ih =>
    cases ps with
    | nil =>
      rw [List.map_singleton, List.intercalate_singleton] at h
      exact .inr ⟨p, List.mem_singleton_self _, h⟩
    | cons q ps =>
      rw [List.map_cons, List.intercalate_cons_of_ne_nil (by simp), List.append_assoc,
        List.mem_append, List.mem_append] at h
      rcases h with h | h | h
      · exact .inr ⟨p, List.mem_cons_self, h⟩
      · exact .inl h
      · rcases ih h with h | ⟨r, hr, hc⟩
        · exact .inl h
        · exact .inr ⟨r, List.mem_cons_of_mem _ hr, hc⟩

/-- The text of every part is in the command. -/
theorem mem_commandText (hp : p ∈ partsOf childEnv prootArgs) (h : c ∈ p.text) :
    c ∈ commandText childEnv prootArgs := by
  obtain ⟨ps, rest, hsplit⟩ := List.append_of_mem hp
  unfold commandText
  rw [parts_eq, hsplit, intercalate_split, List.append_assoc]
  apply List.mem_append_right
  apply List.mem_append_left
  cases rest with
  | nil =>
    rw [List.map_singleton, List.intercalate_singleton]
    exact h
  | cons q rest =>
    rw [List.map_cons, List.intercalate_cons_of_ne_nil (by simp), List.append_assoc]
    exact List.mem_append_left _ h

/-- There is a first word. -/
theorem partsOf_ne_nil : partsOf childEnv prootArgs ≠ [] := by
  unfold partsOf
  simp

/-- A variable whose part is read back as the word of the session has a clean name. The parts in front
of it are good. -/
theorem clean_of_read {name : EnvName} {value : CodePoints} {ps rest : List Part} {cmd : List Word}
    {tokens : List Token} (hgood : ∀ p ∈ ps, p.Good) (hne : ps ≠ []) (hnull : 0 ∉ value)
    (hlex : lex .plain none (separator.intercalate
      ((ps ++ (name.val ++ [equals], value) :: rest).map Part.text) ++ [newline]) = some tokens)
    (hcommands : commandsFrom [] tokens = [cmd])
    (hwords : (ps ++ (name.val ++ [equals], value) :: rest).map (fun p : Part => p.1 ++ p.2) =
      cmd.map (·.map Prod.fst))
    (hexpands : ∀ w ∈ cmd, expands w = false) : Clean name value := by
  have hfst : (ps.map Part.word).map (·.map Prod.fst) = ps.map fun p => p.1 ++ p.2 := by
    rw [List.map_map]
    apply List.map_congr_left
    intro p _
    exact map_fst_word
  rw [intercalate_split, List.append_assoc, lex_leading hgood] at hlex
  obtain ⟨tokens', hlex', rfl⟩ := Option.map_eq_some_iff.mp hlex
  have hmap : (ps.map fun p => Token.word p.word) = (ps.map Part.word).map Token.word := by
    rw [List.map_map]
    rfl
  rw [hmap, commandsFrom_append, List.nil_append] at hcommands
  have hwne : ps.map Part.word ≠ [] := by simpa using hne
  -- a command that ends here has too few words
  have hshort : cmd ≠ ps.map Part.word := by
    intro heq
    have hlength := congrArg List.length hwords
    rw [heq, List.length_map, List.length_append, List.length_cons, List.length_map,
      List.length_map] at hlength
    omega
  -- the text ends after the parts in front
  cases tokens' with
  | nil =>
    rw [commandsFrom, if_neg hwne] at hcommands
    exact absurd (List.cons.inj hcommands).1.symm hshort
  | cons token tokens' =>
    -- the next token is the assignment's word
    cases token with
    | newline =>
      rw [commandsFrom, if_neg hwne] at hcommands
      exact absurd (List.cons.inj hcommands).1.symm hshort
    | word u =>
      rw [commandsFrom] at hcommands
      obtain ⟨more, rfl⟩ := prefix_of_commandsFrom (by simp) hcommands
      -- its characters are the name, the equals sign and the value
      have hword : u.map Prod.fst = name.val ++ equals :: value := by
        rw [List.map_append, List.map_append, List.map_append, hfst, List.append_assoc] at hwords
        have hcancel := List.append_cancel_left hwords
        have hhead : name.val ++ [equals] ++ value = u.map Prod.fst := (List.cons.inj hcancel).1
        rw [← hhead, List.append_assoc]
        rfl
      have hu : expands u = false := by
        apply hexpands
        simp
      -- up to the equals sign the word is the name, so no character of it was a quote or an
      -- escape
      have hfront : (front (u.map Prod.fst)).length = size none + name.val.length := by
        rw [hword, front_append_equals name.property]
        show name.val.length = 0 + name.val.length
        omega
      obtain ⟨next, hfirst⟩ : ∃ t, separator.intercalate
          (((name.val ++ [equals], value) :: rest).map Part.text) ++ [newline] =
          name.val ++ equals :: t := by
        have htext : Part.text (name.val ++ [equals], value) = name.val ++ equals :: dq value := by
          show name.val ++ [equals] ++ dq value = _
          rw [List.append_assoc]
          rfl
        cases rest with
        | nil =>
          refine ⟨dq value ++ [newline], ?_⟩
          rw [List.map_singleton, List.intercalate_singleton, htext, List.append_assoc]
          rfl
        | cons q rest =>
          rw [List.map_cons, List.intercalate_cons_of_ne_nil (by simp), htext]
          refine ⟨dq value ++ (separator ++ (separator.intercalate ((q :: rest).map Part.text) ++
            [newline])), ?_⟩
          simp only [List.append_assoc, List.cons_append]
      have hread := hlex'
      rw [hfirst] at hread
      obtain ⟨hliteral, hhash⟩ :=
        literal_of_first_word hread (fun x hx => by cases hx) name.property hfront
      have hliteral' : ∀ c ∈ name.val ++ [equals], isLiteral c = true := by
        intro c hc
        rcases List.mem_append.mp hc with hc | hc
        · exact hliteral c hc
        · rw [List.mem_singleton.mp hc]
          decide
      have hhash' : (name.val ++ [equals]).head? ≠ some hash := by
        cases hname : name.val with
        | nil =>
          show some equals ≠ some hash
          decide
        | cons c s =>
          have hhead := hhash rfl
          rw [hname] at hhead
          exact hhead
      -- the reading of a good part gives the word, so nothing in its value expands
      obtain ⟨after, hafter⟩ : ∃ next, lex .plain none (separator.intercalate
          (((name.val ++ [equals], value) :: rest).map Part.text) ++ [newline]) =
          (next : Option (List Token)).map (.word (Part.word (name.val ++ [equals], value)) :: ·) :=
        first_of_good hliteral' hhash' hnull
      rw [hafter] at hlex'
      obtain ⟨tokens'', -, heq⟩ := Option.map_eq_some_iff.mp hlex'
      have hsame : Part.word (name.val ++ [equals], value) = u :=
        Token.word.inj (List.cons.inj heq).1
      refine ⟨hliteral, hhash rfl, ?_⟩
      rw [hsame]
      exact hu

/-- A command that is read as the words of the session has good parts only. -/
theorem good_of_read (h : readCommands (commandText childEnv prootArgs) =
    some [sessionWords childEnv prootArgs]) :
    ∀ p ∈ partsOf childEnv prootArgs, p.Good := by
  have hne : sessionWords childEnv prootArgs ≠ [] := by
    unfold sessionWords
    simp
  obtain ⟨tokens, cmd, hlex, hcommands, hwords, hexpands⟩ := readCommands_eq_singleton hne h
  rw [sessionWords_eq] at hwords
  unfold commandText at hlex
  rw [parts_eq] at hlex
  have hnull : ∀ p ∈ partsOf childEnv prootArgs, 0 ∉ p.2 := by
    intro p hp hmem
    have hfree := notMem_null_of_lex hlex
    rw [← parts_eq] at hfree
    exact hfree (mem_commandText hp (mem_text (List.mem_append_right _ hmem)))
  -- by induction on the parts that remain, those in front being good
  have hall : ∀ rest ps : List Part, partsOf childEnv prootArgs = ps ++ rest → (∀ p ∈ ps, p.Good) →
      ∀ p ∈ rest, p.Good := by
    intro rest
    induction rest with
    | nil =>
      intro ps _ _ p hp
      cases hp
    | cons q rest ih =>
      intro ps hsplit hgood
      have hmem : q ∈ partsOf childEnv prootArgs := by
        rw [hsplit]
        simp
      -- the part is a plain word, or an assignment after at least two plain words
      have hq : q.Good := by
        have hcases : q.1 = [] ∨ ∃ x ∈ childEnv, q = (x.1.val ++ [equals], x.2) := by
          unfold partsOf at hmem
          rw [List.mem_append, List.mem_append, List.mem_map, List.mem_map] at hmem
          rcases hmem with (hmem | ⟨x, hx, rfl⟩) | ⟨s, -, rfl⟩
          · left
            have hboth : q = ([], ofText "env") ∨ q = ([], ofText "-i") := by simpa using hmem
            rcases hboth with rfl | rfl <;> rfl
          · exact .inr ⟨x, hx, rfl⟩
          · exact .inl rfl
        rcases hcases with hnil | ⟨x, hx, rfl⟩
        · have hpair : q = ([], q.2) := Prod.ext hnil rfl
          rw [hpair]
          exact good_of_nil (hnull q hmem)
        · have hps : ps ≠ [] := by
            intro hps
            rw [hps] at hsplit
            have hfirst := (List.cons.inj hsplit).1
            have hlength := congrArg (fun p : Part => p.1.length) hfirst
            dsimp only at hlength
            rw [List.length_append, List.length_singleton, List.length_nil] at hlength
            omega
          rw [hsplit] at hlex hwords
          exact good_of_clean (clean_of_read hgood hps (hnull _ hmem) hlex hcommands hwords hexpands)
            (hnull _ hmem)
      intro p hp
      rcases List.mem_cons.mp hp with rfl | hp
      · exact hq
      · apply ih (ps ++ [q]) _ _ p hp
        · rw [hsplit, List.append_assoc]
          rfl
        · intro p hp
          rcases List.mem_append.mp hp with hp | hp
          · exact hgood p hp
          · rw [List.mem_singleton.mp hp]
            exact hq
  exact hall _ [] rfl fun p hp => by cases hp

/-- A command of good parts is read as the words of the session. -/
theorem read_of_good (h : ∀ p ∈ partsOf childEnv prootArgs, p.Good) :
    readCommands (commandText childEnv prootArgs) = some [sessionWords childEnv prootArgs] := by
  have hlex : lex .plain none (commandText childEnv prootArgs) =
      some (((partsOf childEnv prootArgs).map Part.word).map Token.word ++ [.newline]) := by
    unfold commandText
    rw [parts_eq, lex_good h partsOf_ne_nil, List.map_map]
    rfl
  have hwords : ((partsOf childEnv prootArgs).map Part.word).mapM readWord =
      some (sessionWords childEnv prootArgs) := by
    apply mapM_readWord.mpr
    constructor
    · rw [sessionWords_eq, List.map_map]
      apply List.map_congr_left
      intro p _
      exact map_fst_word.symm
    · intro w hw
      obtain ⟨p, hp, rfl⟩ := List.mem_map.mp hw
      exact (h p hp).2.2.2
  have hcommand : readCommand ((partsOf childEnv prootArgs).map Part.word) =
      some (sessionWords childEnv prootArgs) := by
    unfold readCommand
    cases hlist : (partsOf childEnv prootArgs).map Part.word with
    | nil => exact absurd (List.map_eq_nil_iff.mp hlist) partsOf_ne_nil
    | cons w cmd =>
      have henv : w = Part.word ([], ofText "env") := (List.cons.inj hlist).1.symm
      have hfree : ¬ ((w.all (fun x => !x.2) && w.map Prod.fst ∈ reserved) = true) := by
        rw [henv]
        decide
      dsimp only
      rw [if_neg hfree, ← hlist]
      exact hwords
  unfold readCommands
  rw [hlex]
  show (commandsFrom [] _).mapM readCommand = _
  rw [commandsFrom_words _ (by simpa using partsOf_ne_nil), List.nil_append, List.mapM_cons, hcommand]
  rfl

/-- What is printed in place of a character without an encoding is no surrogate. -/
theorem not_surrogate_of_printed {text : CodePoints} (hall : text.all isEncodable = false)
    (h : c ∈ printCommand text) : Message.isSurrogate c = false := by
  unfold printCommand at h
  rw [if_neg (by rw [hall]; simp)] at h
  obtain ⟨d, -, hc⟩ := List.mem_flatMap.mp h
  split at hc
  · have hprinting : Message.isPrinting c = true := by
      rcases List.mem_append.mp hc with hc | hc
      · have hu : (ofText "\\u").all Message.isPrinting = true := by decide
        exact List.all_eq_true.mp hu c hc
      · exact Message.isPrinting_hex 4 hc
    exact (Message.takenLiterally_of_isPrinting hprinting).2.2
  · rename_i hd
    rw [List.mem_singleton.mp hc]
    simpa using hd

/-- A word of a command was a token. -/
theorem mem_of_commandsFrom {cmd : List Word} {tokens : List Token} {c : List Word} {w : Word}
    (hc : c ∈ commandsFrom cmd tokens) (hw : w ∈ c) : w ∈ cmd ∨ .word w ∈ tokens := by
  induction tokens generalizing cmd with
  | nil =>
    rw [commandsFrom] at hc
    split at hc
    · cases hc
    · rw [List.mem_singleton.mp hc] at hw
      exact .inl hw
  | cons token tokens ih =>
    cases token with
    | word v =>
      rcases ih hc with hmem | hmem
      · rcases List.mem_append.mp hmem with hmem | hmem
        · exact .inl hmem
        · rw [List.mem_singleton.mp hmem]
          exact .inr List.mem_cons_self
      · exact .inr (List.mem_cons_of_mem _ hmem)
    | newline =>
      rw [commandsFrom] at hc
      split at hc
      · rcases ih hc with hmem | hmem
        · cases hmem
        · exact .inr (List.mem_cons_of_mem _ hmem)
      · rcases List.mem_cons.mp hc with rfl | hc
        · exact .inl hw
        · rcases ih hc with hmem | hmem
          · cases hmem
          · exact .inr (List.mem_cons_of_mem _ hmem)

/-- A command with a character that has no encoding is not printed as it is. -/
theorem encodable_of_read (h : readCommands (getProotCmd childEnv prootArgs) =
    some [sessionWords childEnv prootArgs]) :
    (commandText childEnv prootArgs).all isEncodable = true := by
  by_contra hall
  rw [Bool.not_eq_true] at hall
  obtain ⟨c, hc, hbad⟩ := List.all_eq_false.mp hall
  rw [Bool.not_eq_true] at hbad
  have hsurrogate : Message.isSurrogate c = true := by
    unfold isEncodable at hbad
    rw [Bool.or_eq_false_iff, Bool.not_eq_false'] at hbad
    exact hbad.1
  have hascii : ∀ d, isEncodable d = true → c ≠ d := by
    intro d hd heq
    rw [heq, hd] at hbad
    cases hbad
  -- the character is in a part, and so in a word of the session
  have hpart : ∃ p ∈ partsOf childEnv prootArgs, c ∈ p.1 ++ p.2 := by
    unfold commandText at hc
    rw [parts_eq] at hc
    rcases List.mem_append.mp hc with hc | hc
    · rcases mem_intercalate_text hc with hc | ⟨p, hp, hc⟩
      · have hsep : separator.all isEncodable = true := by decide
        exact absurd rfl (hascii c (List.all_eq_true.mp hsep c hc))
      · rcases mem_of_mem_text hc with hc | rfl | rfl
        · exact ⟨p, hp, hc⟩
        · exact absurd rfl (hascii doubleQuote (by decide))
        · exact absurd rfl (hascii backslash (by decide))
    · rw [List.mem_singleton] at hc
      exact absurd hc (hascii newline (by decide))
  obtain ⟨p, hp, hcp⟩ := hpart
  have hne : sessionWords childEnv prootArgs ≠ [] := by
    unfold sessionWords
    simp
  obtain ⟨tokens, cmd, hlex, hcommands, hwords, -⟩ := readCommands_eq_singleton hne h
  rw [sessionWords_eq] at hwords
  have hmem : p.1 ++ p.2 ∈ cmd.map (·.map Prod.fst) := by
    rw [← hwords]
    exact List.mem_map.mpr ⟨p, hp, rfl⟩
  obtain ⟨w, hw, hwp⟩ := List.mem_map.mp hmem
  rw [← hwp] at hcp
  obtain ⟨x, hx, hxc⟩ := List.mem_map.mp hcp
  have htoken : .word w ∈ tokens := by
    rcases mem_of_commandsFrom (by rw [hcommands]; exact List.mem_singleton_self _) hw with hnil | htoken
    · cases hnil
    · exact htoken
  rcases mem_of_lex hlex htoken hx with hnil | htext | hbackslash
  · cases hnil
  · have hprinted := not_surrogate_of_printed hall htext
    rw [hxc, hsurrogate] at hprinted
    cases hprinted
  · rw [hxc] at hbackslash
    exact absurd hbackslash (hascii backslash (by decide))

/-- **When the printed command is faithful**: a shell reads it as one simple command with exactly the
words of the session, if and only if every name is clean and every string can be handed to a process. -/
theorem getProotCmd_faithful_iff (childEnv : ChildEnv) (prootArgs : List CodePoints) :
    readCommands (getProotCmd childEnv prootArgs) = some [sessionWords childEnv prootArgs] ↔
      (∀ x ∈ childEnv, Clean x.1 x.2) ∧ ∀ s ∈ sessionWords childEnv prootArgs, Passable s := by
  constructor
  -- a command that is read as the session's words has good parts only
  · intro h
    have hall := encodable_of_read h
    have htext : getProotCmd childEnv prootArgs = commandText childEnv prootArgs := by
      unfold getProotCmd printCommand
      rw [if_pos hall]
    rw [htext] at h
    have hgood := good_of_read h
    constructor
    · intro x hx
      have hmem : (x.1.val ++ [equals], x.2) ∈ partsOf childEnv prootArgs := by
        unfold partsOf
        apply List.mem_append_left
        apply List.mem_append_right
        exact List.mem_map.mpr ⟨x, hx, rfl⟩
      obtain ⟨hliteral, hhash, -, hexpands⟩ := hgood _ hmem
      refine ⟨fun c hc => hliteral c (List.mem_append_left _ hc), ?_, hexpands⟩
      cases hname : x.1.val with
      | nil => nofun
      | cons c s =>
        dsimp only at hhash
        rw [hname] at hhash
        exact hhash
    · intro s hs c hc
      rw [sessionWords_eq] at hs
      obtain ⟨p, hp, rfl⟩ := List.mem_map.mp hs
      have hmem := mem_commandText hp (mem_text hc)
      obtain ⟨tokens, htokens, -⟩ := Option.bind_eq_some_iff.mp h
      have hfree := notMem_null_of_lex htokens
      refine ⟨?_, List.all_eq_true.mp hall c hmem⟩
      intro heq
      rw [heq] at hmem
      exact hfree hmem
  -- and good parts are read back as they are
  · rintro ⟨hclean, hpassable⟩
    have hstrings : ∀ p ∈ partsOf childEnv prootArgs, ∀ c ∈ p.1 ++ p.2, c ≠ 0 ∧ isEncodable c = true := by
      intro p hp
      apply hpassable
      rw [sessionWords_eq]
      exact List.mem_map.mpr ⟨p, hp, rfl⟩
    have hnull : ∀ p ∈ partsOf childEnv prootArgs, 0 ∉ p.2 := fun p hp hmem =>
      (hstrings p hp 0 (List.mem_append_right _ hmem)).1 rfl
    have hgood : ∀ p ∈ partsOf childEnv prootArgs, p.Good := by
      intro p hp
      have hp' := hp
      unfold partsOf at hp'
      rw [List.mem_append, List.mem_append, List.mem_map, List.mem_map] at hp'
      rcases hp' with (hp' | ⟨x, hx, rfl⟩) | ⟨s, -, rfl⟩
      · have hboth : p = ([], ofText "env") ∨ p = ([], ofText "-i") := by simpa using hp'
        rcases hboth with rfl | rfl
        · exact good_of_nil (hnull _ hp)
        · exact good_of_nil (hnull _ hp)
      · exact good_of_clean (hclean x hx) (hnull _ hp)
      · exact good_of_nil (hnull _ hp)
    have hall : (commandText childEnv prootArgs).all isEncodable = true := by
      rw [List.all_eq_true]
      intro c hc
      unfold commandText at hc
      rw [parts_eq] at hc
      rcases List.mem_append.mp hc with hc | hc
      · rcases mem_intercalate_text hc with hc | ⟨p, hp, hc⟩
        · have hsep : separator.all isEncodable = true := by decide
          exact List.all_eq_true.mp hsep c hc
        · rcases mem_of_mem_text hc with hc | rfl | rfl
          · exact (hstrings p hp c hc).2
          · decide
          · decide
      · rw [List.mem_singleton.mp hc]
        decide
    unfold getProotCmd printCommand
    rw [if_pos hall]
    exact read_of_good hgood

end Faithful

/-- A variable of an image, with a second command in its name. -/
def injected : ChildEnv := [(⟨ofText "A;touch B", by decide⟩, ofText "x")]

/-- The printed line is more than one command. -/
theorem getProotCmd_injects :
    getProotCmd injected [ofText "proot"] = ofText "env \\\n  -i \\\n  A;touch B=x \\\n  proot\n" ∧
      readCommands (getProotCmd injected [ofText "proot"]) ≠
        some [sessionWords injected [ofText "proot"]] := by
  have hnone : readCommands (getProotCmd injected [ofText "proot"]) = none := by decide +kernel
  refine ⟨by decide +kernel, ?_⟩
  rw [hnone]
  nofun

end Login

end ProotDistro
