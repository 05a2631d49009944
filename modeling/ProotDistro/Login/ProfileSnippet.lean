import ProotDistro.Login.GetProotCmd
import Mathlib.Data.List.Sort

/-!
# `login/env`: the snippet login shells source

`/etc/profile` sources a file with the variables of the session, one `export` to a line, the value
between single quotes. Names are held to a regular expression first. In front may stand a fixed block
that appends a directory to `PATH`; a shell that reads the snippet reads that block, and then commands.

How the file is put in its place is left out.

* **`read_exportLine`** — what a shell makes of one line.
* **`profileSnippet_faithful_iff`** — the environments whose snippet is read as the block and exactly one
  `export` for each variable that is to be exported.
-/

namespace ProotDistro

open Shell

namespace Login

/-! ## The snippet -/

/-- `_PROFILE_INJECT_SKIP` -/
def profileInjectSkip : List CodePoints :=
  ["HOME", "USER", "TERM", "COLORTERM", "PATH", "PROOT_NO_SECCOMP", "PROOT_VERBOSE", "PROOT_L2S_DIR",
    "LD_PRELOAD", "LD_LIBRARY_PATH"].map ofText

/-- `_VALID_ENV_KEY_RE`, whose `$` also stands before a newline at the end. -/
def validEnvKey (key : CodePoints) : Bool :=
  isName key || (key.getLast? = some newline && isName key.dropLast)

/-- The bytes `os.fsencode` makes of a character. -/
def encodedSize (c : CodePoint) : Nat :=
  if c.val < 0x80 then 1
  else if c.val < 0x800 then 2
  else if Message.isSurrogate c then 1
  else if c.val < 0x10000 then 3
  else 4

/-- MAX_ENV_STRING_BYTES -/
def maxEnvStringBytes : Nat := 32 * 4096

/-- `is_exportable` -/
def isExportable (key value : CodePoints) : Bool :=
  0 ∉ key && 0 ∉ value && key.all isEncodable && value.all isEncodable &&
    (key.map encodedSize).sum + 1 + (value.map encodedSize).sum < maxEnvStringBytes

/-- The lines that append a directory to `PATH`. -/
def pathBlock (termuxBin : CodePoints) : List CodePoints :=
  [ofText "case \":$\x7bPATH\x7d:\" in",
    ofText "  *\":" ++ termuxBin ++ ofText ":\"*) ;;",
    ofText "  *) export PATH=\"$\x7bPATH\x7d:" ++ termuxBin ++ ofText "\" ;;",
    ofText "esac"]

/-- The line of a variable. -/
def exportLine (x : CodePoints × CodePoints) : CodePoints :=
  ofText "export " ++ x.1 ++ ofText "='" ++ replace singleQuote (ofText "'\\''") x.2 ++ ofText "'"

/-- The variables in the order of their names. -/
def sortedEntries (env : List (CodePoints × CodePoints)) : List (CodePoints × CodePoints) :=
  env.mergeSort fun x y => x.1 ≤ y.1

/-- The variables whose lines are written. -/
def written (x : CodePoints × CodePoints) : Bool :=
  x.1 ∉ profileInjectSkip && validEnvKey x.1 && isExportable x.1 x.2

/-- The content `_write_profile_snippet` composes; `termuxBin` is there when the block is wanted. -/
def profileSnippet (env : List (CodePoints × CodePoints)) (termuxBin : Option CodePoints) :
    CodePoints :=
  let lines := (termuxBin.map pathBlock).getD [] ++ ((sortedEntries env).filter written).map exportLine
  [newline].intercalate lines ++ [newline]

/-! ## What it should be -/

/-- Lines as a text. -/
def unlines (lines : List CodePoints) : CodePoints := lines.flatMap (· ++ [newline])

/-- A snippet read by a shell: the block, if there is one, and the commands behind it. -/
def readSnippet (termuxBin : Option CodePoints) (text : CodePoints) :
    Option (List (List CodePoints)) :=
  let block := unlines ((termuxBin.map pathBlock).getD [])
  if block <+: text then readCommands (text.drop block.length) else none

/-- A variable that is to be exported: its name is one of the shell's, it is not among those that are
left out, and it can be exported. -/
def exported (x : CodePoints × CodePoints) : Bool :=
  isName x.1 && x.1 ∉ profileInjectSkip && isExportable x.1 x.2

/-- One `export` for each variable that is to be exported. -/
def exports (env : List (CodePoints × CodePoints)) : List (List CodePoints) :=
  ((sortedEntries env).filter exported).map fun x => [ofText "export", x.1 ++ [equals] ++ x.2]

/-! ## One line -/

section Lines

variable {key name value s t : CodePoints} {c : CodePoint} {w : Word} {tokens : List Token}
  {x : CodePoints × CodePoints}

/-- The characters of a name need no quotes. -/
theorem isLiteral_of_isNameChar (h : isNameChar c = true) :
    isLiteral c = true ∧ c ≠ hash ∧ c ∉ ofText "~*?[" := by
  have hrange : (ofChar '0' ≤ c ∧ c ≤ ofChar '9') ∨ (ofChar 'A' ≤ c ∧ c ≤ ofChar 'Z') ∨
      (ofChar 'a' ≤ c ∧ c ≤ ofChar 'z') ∨ c = ofChar '_' := by
    unfold isNameChar isNameStart at h
    simp only [Bool.or_eq_true, Bool.and_eq_true, decide_eq_true_eq] at h
    rcases h with ((h | h) | h) | h
    · exact .inr (.inl h)
    · exact .inr (.inr (.inl h))
    · exact .inr (.inr (.inr h))
    · exact .inl h
  have hsafe : isSafe c = true := by
    have hall : ∀ n : Fin 128, (48 ≤ n.val ∧ n.val ≤ 57) ∨ (65 ≤ n.val ∧ n.val ≤ 90) ∨
        (97 ≤ n.val ∧ n.val ≤ 122) ∨ n.val = 95 → isSafe (Fin.ofNat 0x110000 n.val) = true := by
      decide +kernel
    have hval : (48 ≤ c.val ∧ c.val ≤ 57) ∨ (65 ≤ c.val ∧ c.val ≤ 90) ∨
        (97 ≤ c.val ∧ c.val ≤ 122) ∨ c.val = 95 := by
      rcases hrange with ⟨h₁, h₂⟩ | ⟨h₁, h₂⟩ | ⟨h₁, h₂⟩ | h
      · exact .inl ⟨h₁, h₂⟩
      · exact .inr (.inl ⟨h₁, h₂⟩)
      · exact .inr (.inr (.inl ⟨h₁, h₂⟩))
      · right
        right
        right
        rw [h]
        rfl
    have hlt : c.val < 128 := by omega
    have hc := hall ⟨c.val, hlt⟩ hval
    rw [Fin.ofNat_val_eq_self] at hc
    exact hc
  exact isLiteral_of_isSafe hsafe

/-- The characters of a variable's name. -/
theorem isNameChar_of_mem (h : isName name = true) (hc : c ∈ name) : isNameChar c = true := by
  cases name with
  | nil => cases hc
  | cons d s =>
    unfold isName at h
    rw [Bool.and_eq_true, List.all_eq_true] at h
    rcases List.mem_cons.mp hc with rfl | hc
    · unfold isNameChar
      rw [h.1]
      rfl
    · exact h.2 c hc

/-- No variable has the empty name. -/
theorem ne_nil_of_isName (h : isName name = true) : name ≠ [] := by
  intro hnil
  rw [hnil] at h
  cases h

/-- The characters of a name, read as they are. -/
theorem lex_name (h : isName name = true) :
    lex .plain none (name ++ t) = lex .plain (some (name.map fun c => (c, false))) t := by
  apply lex_literal
  · intro c hc
    exact (isLiteral_of_isNameChar (isNameChar_of_mem h hc)).1
  · exact ne_nil_of_isName h
  · intro hhead
    have hmem : hash ∈ name := List.mem_of_mem_head? hhead
    exact (isLiteral_of_isNameChar (isNameChar_of_mem h hmem)).2.1 rfl

/-- A value between single quotes, each quote of its own behind a backslash. -/
theorem lex_quoted (h : 0 ∉ s) :
    lex .single (some w) (replace singleQuote (ofText "'\\''") s ++ singleQuote :: t) =
      lex .plain (some (w ++ s.map fun c => (c, true))) t := by
  induction s generalizing w with
  | nil =>
    rw [List.map_nil, List.append_nil]
    exact lex_cons_nil rfl
  | cons c s ih =>
    rw [List.mem_cons, not_or] at h
    have hrest : w ++ [(c, true)] ++ s.map (fun c => (c, true)) = w ++ (c :: s).map fun c => (c, true) := by
      rw [List.append_assoc]
      rfl
    unfold replace at ih ⊢
    rw [List.flatMap_cons]
    by_cases hquote : c = singleQuote
    · -- the quotes are closed, the quote is read behind a backslash, and they are opened again
      rw [if_pos hquote]
      show lex .single (some w) (singleQuote :: backslash :: singleQuote :: singleQuote ::
        (s.flatMap _ ++ singleQuote :: t)) = _
      rw [lex_cons_nil (show step .single (some w) singleQuote = some ([], .plain, some w) from rfl),
        lex_cons_nil (show step .plain (some w) backslash = some ([], .escaped, some w) from rfl),
        lex_cons_nil (show step .escaped (some w) singleQuote =
          some ([], .plain, some (w ++ [(singleQuote, true)])) from rfl),
        lex_cons_nil (show step .plain (some (w ++ [(singleQuote, true)])) singleQuote =
          some ([], .single, some (w ++ [(singleQuote, true)])) from rfl),
        ih h.2, ← hrest, hquote]
    · rw [if_neg hquote]
      have hstep : step .single (some w) c = some ([], .single, some (w ++ [(c, true)])) := by
        unfold step
        rw [if_neg (Ne.symm h.1)]
        dsimp only
        rw [if_neg hquote]
        rfl
      show lex .single (some w) (c :: (s.flatMap _ ++ singleQuote :: t)) = _
      rw [lex_cons_nil hstep, ih h.2, hrest]

/-- The word `export`. -/
def exportWord : Word := (ofText "export").map fun c => (c, false)

/-- An equals sign and a value between quotes, behind what has been read of the word. -/
theorem lex_assigned (cur : Option Word) (h : 0 ∉ value) :
    lex .plain cur (ofText "='" ++ replace singleQuote (ofText "'\\''") value ++ ofText "'" ++
        newline :: t) =
      (lex .plain none t).map ([.word (cur.getD [] ++ [(equals, false)] ++ value.map fun c => (c, true)),
        .newline] ++ ·) := by
  have htext : ofText "='" ++ replace singleQuote (ofText "'\\''") value ++ ofText "'" ++ newline :: t =
      equals :: singleQuote :: (replace singleQuote (ofText "'\\''") value ++ singleQuote ::
        (newline :: t)) := by
    have hopen : ofText "='" = [equals, singleQuote] := by decide
    have hclose : ofText "'" = [singleQuote] := by decide
    rw [hopen, hclose]
    simp only [List.cons_append, List.nil_append, List.append_assoc]
  have hequals : step .plain cur equals = some ([], .plain, add cur equals false) :=
    step_literal (by decide) (.inl (by decide))
  have hquote : step .plain (add cur equals false) singleQuote =
      some ([], .single, some (cur.getD [] ++ [(equals, false)])) := rfl
  have hline : step .plain (some (cur.getD [] ++ [(equals, false)] ++ value.map fun c => (c, true)))
      newline = some ([.word (cur.getD [] ++ [(equals, false)] ++ value.map fun c => (c, true)), .newline],
        .plain, none) := rfl
  rw [htext, lex_cons_nil hequals, lex_cons_nil hquote, lex_quoted h]
  exact lex_cons hline

/-- The word of an assignment whose value is quoted. -/
def assignment (name value : CodePoints) : Word :=
  name.map (fun c => (c, false)) ++ [(equals, false)] ++ value.map fun c => (c, true)

/-- The keyword is read as a word. -/
theorem lex_export :
    lex .plain none (ofText "export " ++ t) = (lex .plain none t).map (.word exportWord :: ·) := by
  have htext : ofText "export " ++ t = ofText "export" ++ ofChar ' ' :: t := by
    have hsplit : ofText "export " = ofText "export" ++ [ofChar ' '] := by decide
    rw [hsplit, List.append_assoc]
    rfl
  have hblank : step .plain (some exportWord) (ofChar ' ') = some ([.word exportWord], .plain, none) := rfl
  rw [htext, lex_name (by decide)]
  exact lex_cons hblank

/-- The line of a variable with a name of the shell's. -/
theorem lex_exportLine (hname : isName x.1 = true) (hnull : 0 ∉ x.2) :
    lex .plain none (exportLine x ++ newline :: t) =
      (lex .plain none t).map ([.word exportWord, .word (assignment x.1 x.2), .newline] ++ ·) := by
  have htext : exportLine x ++ newline :: t = ofText "export " ++ (x.1 ++ (ofText "='" ++
      replace singleQuote (ofText "'\\''") x.2 ++ ofText "'" ++ newline :: t)) := by
    unfold exportLine
    simp only [List.append_assoc]
  rw [htext, lex_export, lex_name hname, lex_assigned _ hnull, Option.map_map]
  rfl

/-- A newline at the end of the name cuts the line in two. -/
theorem lex_exportLine_cut (hx : x.1 = name ++ [newline]) (hname : isName name = true)
    (hnull : 0 ∉ x.2) :
    lex .plain none (exportLine x ++ newline :: t) =
      (lex .plain none t).map ([.word exportWord, .word (name.map fun c => (c, false)), .newline,
        .word (assignment [] x.2), .newline] ++ ·) := by
  have htext : exportLine x ++ newline :: t = ofText "export " ++ (name ++ (newline :: (ofText "='" ++
      replace singleQuote (ofText "'\\''") x.2 ++ ofText "'" ++ newline :: t))) := by
    unfold exportLine
    rw [hx]
    simp only [List.append_assoc, List.cons_append, List.nil_append]
  have hstep : step .plain (some (name.map fun c => (c, false))) newline =
      some ([.word (name.map fun c => (c, false)), .newline], .plain, none) := rfl
  rw [htext, lex_export, lex_name hname, lex_cons hstep, lex_assigned _ hnull, Option.map_map,
    Option.map_map]
  rfl

/-- The characters of an assignment, without their marks. -/
theorem map_fst_assignment : (assignment name value).map Prod.fst = name ++ [equals] ++ value := by
  unfold assignment
  rw [List.map_append, List.map_append, List.map_map, List.map_map]
  have hname : name.map (Prod.fst ∘ fun c => (c, false)) = name := List.map_id name
  have hvalue : value.map (Prod.fst ∘ fun c => (c, true)) = value := List.map_id value
  rw [hname, hvalue]
  rfl

/-- The words of a line stand for themselves. -/
theorem expands_plain (h : ∀ c ∈ name, isNameChar c = true) :
    expands (name.map fun c => (c, false)) = false := by
  apply expands_of_forall
  intro x hx
  obtain ⟨c, hc, rfl⟩ := List.mem_map.mp hx
  exact .inr (isLiteral_of_isNameChar (h c hc)).2.2

/-- The assignment to a plain name expands nothing. -/
theorem expands_assignment (h : ∀ c ∈ name, isNameChar c = true) :
    expands (assignment name value) = false := by
  apply expands_of_forall
  intro x hx
  unfold assignment at hx
  rw [List.mem_append, List.mem_append, List.mem_map, List.mem_singleton, List.mem_map] at hx
  rcases hx with (⟨c, hc, rfl⟩ | rfl) | ⟨c, -, rfl⟩
  · exact .inr (isLiteral_of_isNameChar (h c hc)).2.2
  · exact .inr (by decide)
  · exact .inl rfl

/-- A command that begins with `export`. -/
theorem readCommand_export {v : Word} (h : expands v = false) :
    readCommand [exportWord, v] = some [ofText "export", v.map Prod.fst] := by
  have hfree : ¬ ((exportWord.all (fun x => !x.2) && exportWord.map Prod.fst ∈ reserved) = true) := by
    decide
  have hwords : [exportWord, v].mapM readWord = some [ofText "export", v.map Prod.fst] := by
    apply mapM_readWord.mpr
    constructor
    · have hexport : exportWord.map Prod.fst = ofText "export" := by decide
      rw [List.map_cons, List.map_singleton, hexport]
    · intro w hw
      rcases List.mem_cons.mp hw with rfl | hw
      · decide
      · rw [List.mem_singleton.mp hw]
        exact h
  unfold readCommand
  dsimp only
  rw [if_neg hfree, hwords]

/-- A command whose one word begins with an equals sign. -/
theorem readCommand_assigned :
    readCommand [assignment [] value] = some [[equals] ++ value] := by
  have hfirst : (assignment [] value).map Prod.fst = equals :: value := map_fst_assignment
  have hfree : ¬ (((assignment [] value).all (fun x => !x.2) &&
      (assignment [] value).map Prod.fst ∈ reserved) = true) := by
    rw [hfirst, Bool.and_eq_true, not_and]
    intro _ hmem
    have hnone : reserved.all (fun s => s.head? ≠ some equals) = true := by decide +kernel
    have hhead := List.all_eq_true.mp hnone _ (of_decide_eq_true hmem)
    rw [decide_eq_true_eq] at hhead
    exact hhead rfl
  have hwords : [assignment [] value].mapM readWord = some [[equals] ++ value] := by
    apply mapM_readWord.mpr
    constructor
    · rw [List.map_singleton, hfirst]
      rfl
    · intro w hw
      rw [List.mem_singleton.mp hw]
      exact expands_assignment fun c hc => (List.not_mem_nil hc).elim
  unfold readCommand
  dsimp only
  rw [if_neg hfree, hwords]

/-- The commands a shell reads in the line of a variable. -/
def commandsOf (x : CodePoints × CodePoints) : List (List CodePoints) :=
  if isName x.1 then [[ofText "export", x.1 ++ [equals] ++ x.2]]
  else [[ofText "export", x.1.dropLast], [[equals] ++ x.2]]

/-- A shell reads these commands in a line that is written. -/
theorem read_exportLine (hwritten : written x = true) (htokens : lex .plain none t = some tokens) :
    ∃ tokens', lex .plain none (exportLine x ++ newline :: t) = some tokens' ∧
      (commandsFrom [] tokens').mapM readCommand =
        ((commandsFrom [] tokens).mapM readCommand).map (commandsOf x ++ ·) := by
  unfold written at hwritten
  rw [Bool.and_eq_true, Bool.and_eq_true] at hwritten
  obtain ⟨⟨-, hvalid⟩, hexportable⟩ := hwritten
  have hnull : 0 ∉ x.2 := by
    unfold isExportable at hexportable
    simp only [Bool.and_eq_true, decide_eq_true_eq] at hexportable
    exact hexportable.1.1.1.2
  -- a name that the shell takes is exported with its value
  cases hname : isName x.1 with
  | true =>
    refine ⟨[.word exportWord, .word (assignment x.1 x.2), .newline] ++ tokens, ?_, ?_⟩
    · rw [lex_exportLine hname hnull, htokens]
      rfl
    · have hcommands : commandsFrom [] ([.word exportWord, .word (assignment x.1 x.2), .newline] ++ tokens) =
          [exportWord, assignment x.1 x.2] :: commandsFrom [] tokens :=
        commandsFrom_words [exportWord, assignment x.1 x.2] (by simp)
      have hplain : expands (assignment x.1 x.2) = false :=
        expands_assignment fun c hc => isNameChar_of_mem hname hc
      have hread := readCommand_export hplain
      rw [map_fst_assignment] at hread
      unfold commandsOf
      rw [hcommands, List.mapM_cons, hread, if_pos hname]
      cases (commandsFrom [] tokens).mapM readCommand <;> rfl
  -- one that ends in a line feed is cut there, and its value begins a command
  | false =>
    unfold validEnvKey at hvalid
    rw [hname, Bool.false_or, Bool.and_eq_true, decide_eq_true_eq] at hvalid
    obtain ⟨hlast, hfront⟩ := hvalid
    have hx : x.1 = x.1.dropLast ++ [newline] := by
      obtain ⟨init, hinit⟩ := List.getLast?_eq_some_iff.mp hlast
      rw [hinit, List.dropLast_concat]
    refine ⟨[.word exportWord, .word (x.1.dropLast.map fun c => (c, false)), .newline,
      .word (assignment [] x.2), .newline] ++ tokens, ?_, ?_⟩
    · rw [lex_exportLine_cut hx hfront hnull, htokens]
      rfl
    · have hcommands : commandsFrom [] ([.word exportWord, .word (x.1.dropLast.map fun c => (c, false)),
          .newline, .word (assignment [] x.2), .newline] ++ tokens) =
          [exportWord, x.1.dropLast.map fun c => (c, false)] :: [assignment [] x.2] ::
            commandsFrom [] tokens := by
        show commandsFrom [] ([exportWord, x.1.dropLast.map fun c => (c, false)].map Token.word ++
          .newline :: ([assignment [] x.2].map Token.word ++ .newline :: tokens)) = _
        rw [commandsFrom_words _ (by simp), commandsFrom_words _ (by simp)]
        rfl
      have hread := readCommand_export (expands_plain fun c hc => isNameChar_of_mem hfront hc)
      have hid : (x.1.dropLast.map fun c => (c, false)).map Prod.fst = x.1.dropLast := by
        rw [List.map_map]
        exact List.map_id _
      rw [hid] at hread
      unfold commandsOf
      rw [hcommands, List.mapM_cons, hread, List.mapM_cons, readCommand_assigned,
        if_neg (by rw [hname]; simp)]
      cases (commandsFrom [] tokens).mapM readCommand <;> rfl

/-- A shell reads the lines one after the other. -/
theorem read_exportLines (xs : List (CodePoints × CodePoints)) (h : ∀ x ∈ xs, written x = true) :
    readCommands (unlines (xs.map exportLine)) = some (xs.flatMap commandsOf) := by
  have hlines : ∃ tokens, lex .plain none (unlines (xs.map exportLine)) = some tokens ∧
      (commandsFrom [] tokens).mapM readCommand = some (xs.flatMap commandsOf) := by
    induction xs with
    | nil => exact ⟨[], rfl, rfl⟩
    | cons x xs ih =>
      obtain ⟨tokens, hlex, hcommands⟩ := ih fun y hy => h y (List.mem_cons_of_mem _ hy)
      obtain ⟨tokens', hlex', hcommands'⟩ := read_exportLine (h x List.mem_cons_self) hlex
      refine ⟨tokens', ?_, ?_⟩
      · rw [← hlex']
        unfold unlines
        rw [List.map_cons, List.flatMap_cons, List.append_assoc]
        rfl
      · rw [hcommands', hcommands, List.flatMap_cons]
        rfl
  obtain ⟨tokens, hlex, hcommands⟩ := hlines
  unfold readCommands
  rw [hlex]
  exact hcommands

end Lines

/-! ## The whole snippet -/

section Snippet

variable {env xs : List (CodePoints × CodePoints)} {termuxBin : Option CodePoints}
  {x : CodePoints × CodePoints} {lines : List CodePoints}

/-- The content is its lines, or one newline. -/
theorem intercalate_lines (hne : lines ≠ []) : [newline].intercalate lines ++ [newline] = unlines lines := by
  induction lines with
  | nil => exact absurd rfl hne
  | cons line lines ih =>
    unfold unlines at ih ⊢
    cases lines with
    | nil => rw [List.intercalate_singleton, List.flatMap_singleton]
    | cons next lines =>
      rw [List.intercalate_cons_of_ne_nil (by simp), List.append_assoc, List.append_assoc,
        ih (by simp), @List.flatMap_cons _ _ line, List.append_assoc]

/-- The commands a shell reads in the snippet. -/
theorem read_profileSnippet :
    readSnippet termuxBin (profileSnippet env termuxBin) =
      some (((sortedEntries env).filter written).flatMap commandsOf) := by
  have hwritten : ∀ x ∈ (sortedEntries env).filter written, written x = true :=
    fun x hx => (List.mem_filter.mp hx).2
  unfold readSnippet profileSnippet
  dsimp only
  by_cases hlines : (termuxBin.map pathBlock).getD [] ++
      ((sortedEntries env).filter written).map exportLine = []
  · obtain ⟨hblock, hexports⟩ := List.append_eq_nil_iff.mp hlines
    have hnone := List.map_eq_nil_iff.mp hexports
    rw [hblock, hnone, List.flatMap_nil]
    decide
  · have hsplit : unlines ((termuxBin.map pathBlock).getD [] ++
        ((sortedEntries env).filter written).map exportLine) =
        unlines ((termuxBin.map pathBlock).getD []) ++
          unlines (((sortedEntries env).filter written).map exportLine) := List.flatMap_append
    rw [intercalate_lines hlines, hsplit, if_pos (List.prefix_append _ _), List.drop_left]
    exact read_exportLines _ hwritten

/-- A variable that is exported is written, as one command. -/
theorem commandsOf_exported (h : exported x = true) :
    written x = true ∧ commandsOf x = [[ofText "export", x.1 ++ [equals] ++ x.2]] := by
  unfold exported at h
  rw [Bool.and_eq_true, Bool.and_eq_true] at h
  constructor
  · unfold written validEnvKey
    rw [h.1.1, h.1.2, h.2]
    rfl
  · unfold commandsOf
    rw [if_pos h.1.1]

/-- A variable that is written and not exported has a newline behind its name. -/
theorem written_not_exported : written x = true ∧ exported x = false ↔
    (x.1 ∉ profileInjectSkip ∧ isExportable x.1 x.2 = true) ∧
      ∃ name, isName name = true ∧ x.1 = name ++ [newline] := by
  have hnot : ∀ name, isName (name ++ [newline]) = false := by
    intro name
    by_contra hname
    rw [Bool.not_eq_false] at hname
    have hmem : newline ∈ name ++ [newline] := List.mem_append_right _ List.mem_cons_self
    have hchar := isNameChar_of_mem hname hmem
    exact absurd hchar (by decide)
  unfold written exported validEnvKey
  constructor
  · rintro ⟨hwritten, hexported⟩
    simp only [Bool.and_eq_true, Bool.or_eq_true, decide_eq_true_eq] at hwritten
    obtain ⟨⟨hskip, hkey⟩, hexportable⟩ := hwritten
    refine ⟨⟨hskip, hexportable⟩, ?_⟩
    rcases hkey with hname | ⟨hlast, hfront⟩
    · rw [hname, hexportable, decide_eq_true hskip] at hexported
      cases hexported
    · obtain ⟨init, hinit⟩ := List.getLast?_eq_some_iff.mp hlast
      rw [hinit, List.dropLast_concat] at hfront
      exact ⟨init, hfront, hinit⟩
  · rintro ⟨⟨hskip, hexportable⟩, name, hname, hx⟩
    have hlast : x.1.getLast? = some newline := by
      rw [hx, List.getLast?_concat]
    have hfront : isName x.1.dropLast = true := by
      rw [hx, List.dropLast_concat]
      exact hname
    have hwhole : isName x.1 = false := by
      rw [hx]
      exact hnot name
    rw [hwhole, hexportable, decide_eq_true hskip, decide_eq_true hlast, hfront]
    exact ⟨rfl, rfl⟩

/-- The commands of some variables number no fewer than those that are to be exported, and as many only
where nothing else is written. -/
theorem length_commandsOf (xs : List (CodePoints × CodePoints)) :
    (xs.filter exported).length + (xs.filter fun x => written x && !exported x).length ≤
      ((xs.filter written).flatMap commandsOf).length := by
  induction xs with
  | nil => exact le_refl _
  | cons x xs ih =>
    cases hexported : exported x with
    | true =>
      obtain ⟨hwritten, hcommands⟩ := commandsOf_exported hexported
      rw [List.filter_cons_of_pos hexported, List.filter_cons_of_neg (by rw [hexported, hwritten]; simp),
        List.filter_cons_of_pos hwritten, List.flatMap_cons, hcommands, List.length_append,
        List.length_cons, List.length_singleton]
      omega
    | false =>
      rw [List.filter_cons_of_neg (by rw [hexported]; simp)]
      cases hwritten : written x with
      | true =>
        have hpos : 1 ≤ (commandsOf x).length := by
          unfold commandsOf
          split <;> simp
        rw [List.filter_cons_of_pos (by rw [hexported, hwritten]; rfl), List.filter_cons_of_pos hwritten,
          List.flatMap_cons, List.length_append, List.length_cons]
        omega
      | false =>
        rw [List.filter_cons_of_neg (by rw [hwritten]; simp),
          List.filter_cons_of_neg (by rw [hwritten]; simp)]
        exact ih

/-- **When the snippet is faithful**: a shell reads the block and exactly one `export` for each variable
that is to be exported, if and only if no variable that can be exported has a newline behind its name. -/
theorem profileSnippet_faithful_iff (env : List (CodePoints × CodePoints))
    (termuxBin : Option CodePoints) :
    readSnippet termuxBin (profileSnippet env termuxBin) = some (exports env) ↔
      ∀ x ∈ env, x.1 ∉ profileInjectSkip → isExportable x.1 x.2 = true →
        ∀ name, isName name = true → x.1 ≠ name ++ [newline] := by
  have hmem : ∀ x, x ∈ sortedEntries env ↔ x ∈ env := fun x => by
    unfold sortedEntries
    rw [List.mem_mergeSort]
  rw [read_profileSnippet, Option.some.injEq]
  constructor
  · intro h x hx hskip hexportable name hname heq
    obtain ⟨hwritten, hexported⟩ := written_not_exported.mpr ⟨⟨hskip, hexportable⟩, name, hname, heq⟩
    have hcount : 0 < ((sortedEntries env).filter fun x => written x && !exported x).length := by
      apply List.length_pos_of_mem
      exact List.mem_filter.mpr ⟨(hmem x).mpr hx, by rw [hwritten, hexported]; rfl⟩
    have hlength := congrArg List.length h
    have hle := length_commandsOf (sortedEntries env)
    unfold exports at hlength
    rw [List.length_map] at hlength
    omega
  · intro h
    have hsame : (sortedEntries env).filter written = (sortedEntries env).filter exported := by
      apply List.filter_congr
      intro x hx
      cases hexported : exported x with
      | true => exact (commandsOf_exported hexported).1
      | false =>
        by_contra hwritten
        rw [Bool.not_eq_false] at hwritten
        obtain ⟨⟨hskip, hexportable⟩, name, hname, heq⟩ :=
          written_not_exported.mp ⟨hwritten, hexported⟩
        exact h x ((hmem x).mp hx) hskip hexportable name hname heq
    unfold exports
    rw [hsame, ← List.flatMap_singleton' ((sortedEntries env).filter exported), List.flatMap_assoc,
      List.map_flatMap]
    apply List.flatMap_congr
    intro x hx
    rw [List.flatMap_singleton]
    exact (commandsOf_exported (List.mem_filter.mp hx).2).2

end Snippet

/-- A variable whose name ends with a newline is written as two commands. -/
theorem profileSnippet_splits :
    readSnippet none (profileSnippet [(ofText "A\n", ofText "x")] none) =
        some [[ofText "export", ofText "A"], [ofText "=x"]] ∧
      exports [(ofText "A\n", ofText "x")] = [] := by
  refine ⟨by decide +kernel, by decide +kernel⟩

end Login

end ProotDistro
