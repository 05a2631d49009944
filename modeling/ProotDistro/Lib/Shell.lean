import ProotDistro.Lib.CodePoint

/-!
# How a shell reads simple commands

The token rules and the grammar of the POSIX shell, as far as a text is a list of simple commands: words
separated by blanks, commands by newlines, backslashes, single and double quotes, line continuations
and comments. A text that is anything else has no reading here: one with an expansion or a
substitution in it, an operator (a second command in a line, a redirection, a subshell), a reserved
word for its command, an open quote or a null character.

* **`lex_single`, `lex_double`, `lex_literal`** — what is quoted, or needs no quotes, is read as it is.
* **`first_word`** — a word whose text is read short cannot be the text itself: the reading of a text up
  to a mark the word must hold never runs ahead of it.
-/

namespace Shell

/-! ## Tokens -/

/-- Whether a character is quoted stays with it. -/
abbrev Word := List (CodePoint × Bool)

inductive Token where
  | word (w : Word)
  | newline
  deriving DecidableEq

inductive Mode where
  | plain
  /-- after a backslash -/
  | escaped
  | single
  | double
  /-- after a backslash within double quotes -/
  | doubleEscaped
  | comment
  deriving DecidableEq

def newline : CodePoint := ofChar '\n'
def backslash : CodePoint := ofChar '\\'
def doubleQuote : CodePoint := ofChar '"'
def singleQuote : CodePoint := ofChar '\''
def hash : CodePoint := ofChar '#'
def equals : CodePoint := ofChar '='

def isBlank (c : CodePoint) : Bool := c ∈ ofText " \t"

/-- What begins an expansion or a substitution. -/
def isExpansion (c : CodePoint) : Bool := c ∈ ofText "$\x60"

def isOperator (c : CodePoint) : Bool := c ∈ ofText "|&;<>()"

/-- What a backslash quotes within double quotes. -/
def isDoubleSpecial (c : CodePoint) : Bool := c ∈ ofText "$\x60\"\\"

/-- A character more of the word that is being read. -/
def add (cur : Option Word) (c : CodePoint) (quoted : Bool) : Option Word :=
  some (cur.getD [] ++ [(c, quoted)])

/-- The word that has been read, if one has begun. -/
def flush : Option Word → List Token → List Token
  | none, tokens => tokens
  | some w, tokens => .word w :: tokens

/-- One character: the tokens it ends, and the state it leaves. -/
def step (mode : Mode) (cur : Option Word) (c : CodePoint) :
    Option (List Token × Mode × Option Word) :=
  if c = 0 then none
  else
    match mode with
    | .plain =>
      if c = newline then some (flush cur [.newline], .plain, none)
      else if isBlank c then some (flush cur [], .plain, none)
      else if c = backslash then some ([], .escaped, cur)
      else if c = doubleQuote then some ([], .double, some (cur.getD []))
      else if c = singleQuote then some ([], .single, some (cur.getD []))
      else if isExpansion c || isOperator c then none
      else if c = hash && cur.isNone then some ([], .comment, none)
      else some ([], .plain, add cur c false)
    | .escaped =>
      -- a line continuation is as if it were not there
      if c = newline then some ([], .plain, cur) else some ([], .plain, add cur c true)
    | .single =>
      if c = singleQuote then some ([], .plain, cur) else some ([], .single, add cur c true)
    | .double =>
      if c = doubleQuote then some ([], .plain, cur)
      else if c = backslash then some ([], .doubleEscaped, cur)
      else if isExpansion c then none
      else some ([], .double, add cur c true)
    | .doubleEscaped =>
      if c = newline then some ([], .double, cur)
      else if isDoubleSpecial c then some ([], .double, add cur c true)
      else some ([], .double, add (add cur backslash true) c true)
    | .comment =>
      if c = newline then some ([.newline], .plain, none) else some ([], .comment, none)

/-- The tokens of a text. -/
def lex : Mode → Option Word → CodePoints → Option (List Token)
  | .plain, cur, [] => some (flush cur [])
  | .comment, _, [] => some []
  | _, _, [] => none
  | mode, cur, c :: t =>
    match step mode cur c with
    | none => none
    | some (tokens, mode', cur') => (lex mode' cur' t).map (tokens ++ ·)

/-! ## Words and commands -/

/-- A leading tilde stands for a directory where all up to the first slash is unquoted. -/
def startsTilde : Word → Bool
  | [] => false
  | x :: w =>
    x = (ofChar '~', false) && ((x :: w).takeWhile (· ≠ (ofChar '/', false))).all fun x => !x.2

def isNameStart (c : CodePoint) : Bool :=
  (ofChar 'A' ≤ c && c ≤ ofChar 'Z') || (ofChar 'a' ≤ c && c ≤ ofChar 'z') || c = ofChar '_'

def isNameChar (c : CodePoint) : Bool := isNameStart c || (ofChar '0' ≤ c && c ≤ ofChar '9')

/-- A name of the shell. -/
def isName : CodePoints → Bool
  | [] => false
  | c :: s => isNameStart c && s.all isNameChar

/-- A tilde in the value of what looks like an assignment. -/
def assignsTilde (w : Word) : Bool :=
  let name := w.takeWhile fun x => x.1 ≠ equals
  isName (name.map Prod.fst) && name.all (fun x => !x.2) &&
    (w.drop name.length).any (· = (ofChar '~', false))

/-- A bracket that is closed again, not at once and not behind a slash. -/
def closes (w : Word) : Bool :=
  let inner := if w.head? = some (ofChar '!', false) then w.drop 2 else w.drop 1
  (inner.takeWhile fun x => x.1 ≠ ofChar '/').any (· = (ofChar ']', false))

/-- A pattern for the names of files. -/
def hasPattern : Word → Bool
  | [] => false
  | x :: w =>
    (!x.2 && (x.1 = ofChar '*' || x.1 = ofChar '?' || (x.1 = ofChar '[' && closes w))) || hasPattern w

/-- A word that stands for something else. -/
def expands (w : Word) : Bool := startsTilde w || assignsTilde w || hasPattern w

/-- The text of a word. -/
def readWord (w : Word) : Option CodePoints := if expands w then none else some (w.map Prod.fst)

/-- The reserved words, which begin no simple command. -/
def reserved : List CodePoints :=
  ["!", "\x7b", "\x7d", "case", "do", "done", "elif", "else", "esac", "fi", "for", "if", "in", "then",
    "until", "while"].map ofText

/-- The commands of a list of tokens, of which one has begun with `cmd`. -/
def commandsFrom (cmd : List Word) : List Token → List (List Word)
  | [] => if cmd = [] then [] else [cmd]
  | .word w :: tokens => commandsFrom (cmd ++ [w]) tokens
  | .newline :: tokens => if cmd = [] then commandsFrom [] tokens else cmd :: commandsFrom [] tokens

/-- A simple command: the text of its words. -/
def readCommand (cmd : List Word) : Option (List CodePoints) :=
  match cmd with
  | [] => some []
  | w :: _ =>
    if w.all (fun x => !x.2) && w.map Prod.fst ∈ reserved then none else cmd.mapM readWord

/-- A text read as a list of simple commands. -/
def readCommands (text : CodePoints) : Option (List (List CodePoints)) :=
  (lex .plain none text).bind fun tokens => (commandsFrom [] tokens).mapM readCommand

/-! ## Reading what is quoted -/

/-- A character that is read as it is outside quotes, where no word begins with a hash. -/
def isLiteral (c : CodePoint) : Bool :=
  c ∉ [0, newline, backslash, doubleQuote, singleQuote] && !isBlank c && !isExpansion c &&
    !isOperator c

/-- A text as it stands between double quotes. -/
def escapeDouble (s : CodePoints) : CodePoints :=
  s.flatMap fun c => if isDoubleSpecial c then [backslash, c] else [c]

section Quoting

variable {mode mode' : Mode} {cur cur' : Option Word} {c : CodePoint} {s t : CodePoints} {w : Word}
  {tokens : List Token}

/-- The lexer takes a character, and goes on from the state it leaves. -/
theorem lex_cons (h : step mode cur c = some (tokens, mode', cur')) :
    lex mode cur (c :: t) = (lex mode' cur' t).map (tokens ++ ·) := by
  rw [lex, h]

/-- A character that ends no token. -/
theorem lex_cons_nil (h : step mode cur c = some ([], mode', cur')) :
    lex mode cur (c :: t) = lex mode' cur' t := by
  rw [lex_cons h]
  show (lex mode' cur' t).map (fun tokens => tokens) = _
  rw [Option.map_id']

/-- A literal character is added to the word. -/
theorem step_literal (h : isLiteral c = true) (hhash : c ≠ hash ∨ cur ≠ none) :
    step .plain cur c = some ([], .plain, add cur c false) := by
  unfold isLiteral at h
  simp only [Bool.and_eq_true, decide_eq_true_eq, List.mem_cons, List.not_mem_nil, or_false, not_or,
    Bool.not_eq_true'] at h
  obtain ⟨⟨⟨⟨h0, hnewline, hbackslash, hdouble, hsingle⟩, hblank⟩, hexpansion⟩, hoperator⟩ := h
  have hcomment : ¬ ((c = hash && cur.isNone) = true) := by
    rw [Bool.and_eq_true, decide_eq_true_eq, Option.isNone_iff_eq_none]
    rintro ⟨hc, hcur⟩
    rcases hhash with h | h
    · exact h hc
    · exact h hcur
  unfold step
  dsimp only
  rw [if_neg h0, if_neg hnewline, if_neg (by rw [hblank]; simp), if_neg hbackslash, if_neg hdouble,
    if_neg hsingle, if_neg (by rw [hexpansion, hoperator]; simp), if_neg hcomment]

/-- What needs no quotes is read as it is. -/
theorem lex_literal_from (hs : ∀ c ∈ s, isLiteral c = true) :
    lex .plain (some w) (s ++ t) = lex .plain (some (w ++ s.map fun c => (c, false))) t := by
  induction s generalizing w with
  | nil => rw [List.map_nil, List.append_nil, List.nil_append]
  | cons c s ih =>
    have hstep : step .plain (some w) c = some ([], .plain, some (w ++ [(c, false)])) :=
      step_literal (hs c List.mem_cons_self) (.inr (by simp))
    rw [List.cons_append, lex_cons_nil hstep, ih fun x hx => hs x (List.mem_cons_of_mem _ hx),
      List.append_assoc, List.map_cons]
    rfl

/-- A word that needs no quotes is read as it is, where it does not begin with a hash. -/
theorem lex_literal (hs : ∀ c ∈ s, isLiteral c = true) (hne : s ≠ []) (hhash : s.head? ≠ some hash) :
    lex .plain none (s ++ t) = lex .plain (some (s.map fun c => (c, false))) t := by
  cases s with
  | nil => exact absurd rfl hne
  | cons c s =>
    have hc : c ≠ hash := fun h => hhash (by rw [h]; rfl)
    have hstep : step .plain none c = some ([], .plain, some [(c, false)]) :=
      step_literal (hs c List.mem_cons_self) (.inl hc)
    rw [List.cons_append, lex_cons_nil hstep,
      lex_literal_from fun x hx => hs x (List.mem_cons_of_mem _ hx)]
    rfl

/-- What is escaped between double quotes is read as it was. -/
theorem lex_double (hs : ∀ c ∈ s, c ≠ 0) :
    lex .double (some w) (escapeDouble s ++ doubleQuote :: t) =
      lex .plain (some (w ++ s.map fun c => (c, true))) t := by
  induction s generalizing w with
  | nil =>
    rw [List.map_nil, List.append_nil]
    exact lex_cons_nil rfl
  | cons c s ih =>
    have h0 := hs c List.mem_cons_self
    have hrest := ih (w := w ++ [(c, true)]) fun x hx => hs x (List.mem_cons_of_mem _ hx)
    have happend : w ++ [(c, true)] ++ s.map (fun c => (c, true)) =
        w ++ (c :: s).map fun c => (c, true) := by
      rw [List.append_assoc, List.map_cons]
      rfl
    rw [happend] at hrest
    unfold escapeDouble at hrest ⊢
    rw [List.flatMap_cons]
    cases hspecial : isDoubleSpecial c with
    | true =>
      have hstep₁ : step .double (some w) backslash = some ([], .doubleEscaped, some w) := rfl
      have hnewline : c ≠ newline := by
        intro h
        rw [h] at hspecial
        exact absurd hspecial (by decide)
      have hstep₂ : step .doubleEscaped (some w) c = some ([], .double, some (w ++ [(c, true)])) := by
        unfold step
        rw [if_neg h0]
        dsimp only
        rw [if_neg hnewline, if_pos hspecial]
        rfl
      rw [if_pos rfl]
      show lex .double (some w) (backslash :: c :: (s.flatMap _ ++ doubleQuote :: t)) = _
      rw [lex_cons_nil hstep₁, lex_cons_nil hstep₂]
      exact hrest
    | false =>
      have hstep : step .double (some w) c = some ([], .double, some (w ++ [(c, true)])) := by
        unfold step
        rw [if_neg h0]
        dsimp only
        rw [if_neg, if_neg, if_neg]
        · rfl
        · intro hexpansion
          have hmem : c ∈ ofText "$\x60" := by simpa [isExpansion] using hexpansion
          have hin : isDoubleSpecial c = true := by
            have hsub : (ofText "$\x60").all isDoubleSpecial = true := by decide
            exact List.all_eq_true.mp hsub c hmem
          rw [hspecial] at hin
          cases hin
        · intro h
          rw [h] at hspecial
          exact absurd hspecial (by decide)
        · intro h
          rw [h] at hspecial
          exact absurd hspecial (by decide)
      rw [if_neg (by simp)]
      show lex .double (some w) (c :: (s.flatMap _ ++ doubleQuote :: t)) = _
      rw [lex_cons_nil hstep]
      exact hrest

end Quoting

/-! ## A word that is read short -/

/-- What a word holds before its first equals sign. -/
def front (s : CodePoints) : CodePoints := s.takeWhile (· ≠ equals)

/-- How many characters a state owes: a backslash within double quotes may yet stand for itself. -/
def owed : Mode → Nat
  | .doubleEscaped => 1
  | _ => 0

/-- The length of the word so far. -/
def size (cur : Option Word) : Nat := (cur.getD []).length

/-- No equals sign has been read. -/
def Unmarked (cur : Option Word) : Prop := ∀ x ∈ cur.getD [], x.1 ≠ equals

section FirstWord

variable {mode mode' : Mode} {cur cur' : Option Word} {c : CodePoint} {k r s t : CodePoints} {u w : Word}
  {token : Token} {tokens : List Token}

/-- What stands in front of the first equals sign. -/
theorem front_append_equals (h : equals ∉ k) : front (k ++ equals :: s) = k := by
  unfold front
  rw [List.takeWhile_append_of_pos]
  · rw [List.takeWhile_cons_of_neg (by simp), List.append_nil]
  · intro x hx
    have hne : x ≠ equals := fun heq => h (by rw [← heq]; exact hx)
    simpa using hne

/-- A word is one longer with a character more. -/
theorem size_add {quoted : Bool} : size (add cur c quoted) = size cur + 1 := by
  unfold size add
  rw [Option.getD_some, List.length_append, List.length_singleton]

/-- A word has no mark still after another character. -/
theorem unmarked_add {quoted : Bool} (h : Unmarked cur) (hc : c ≠ equals) :
    Unmarked (add cur c quoted) := by
  intro x hx
  unfold add at hx
  rw [Option.getD_some, List.mem_append, List.mem_singleton] at hx
  rcases hx with hx | rfl
  · exact h x hx
  · exact hc

/-- What one character does to a word: it may begin, it grows by what is read, or it ends. -/
theorem step_grows (h : step mode cur c = some (tokens, mode', cur')) (hcur : Unmarked cur)
    (hc : c ≠ equals) :
    (tokens = [] ∧ Unmarked cur' ∧ size cur' + owed mode' ≤ size cur + owed mode + 1) ∨
      (∃ w rest, tokens = .word w :: rest ∧ cur = some w) ∨ ∃ rest, tokens = .newline :: rest := by
  have hbackslash : backslash ≠ equals := by decide
  have hadd : ∀ quoted, Unmarked (add cur c quoted) := fun _ => unmarked_add hcur hc
  have hnone : Unmarked none := fun x hx => by cases hx
  -- a separator ends the word, when there is one
  have hbegin : Unmarked (some (cur.getD [])) := hcur
  have hflush : ∀ tokens', flush cur tokens' = tokens → tokens' = [] ∨ tokens' = [.newline] →
      (tokens = [] ∧ size (none : Option Word) ≤ size cur) ∨
        (∃ w rest, tokens = .word w :: rest ∧ cur = some w) ∨ ∃ rest, tokens = .newline :: rest := by
    intro tokens' heq hshape
    cases cur with
    | none =>
      rcases hshape with rfl | rfl
      · exact .inl ⟨heq.symm, le_refl _⟩
      · exact .inr (.inr ⟨[], heq.symm⟩)
    | some w => exact .inr (.inl ⟨w, tokens', heq.symm, rfl⟩)
  unfold step at h
  split at h
  · cases h
  cases mode with
  -- outside of quotes: a newline, a blank, an escape, the two quotes, a comment and any other
  | plain =>
    dsimp only at h
    split_ifs at h <;> cases h
    · exact .inr (by
        rcases hflush _ rfl (.inr rfl) with ⟨hnil, -⟩ | hrest
        · cases cur <;> cases hnil
        · exact hrest)
    · rcases hflush _ rfl (.inl rfl) with ⟨hnil, hsize⟩ | hrest
      · exact .inl ⟨hnil, hnone, by show size none + 0 ≤ size cur + 0 + 1; omega⟩
      · exact .inr hrest
    · exact .inl ⟨rfl, hcur, by show size cur + 0 ≤ size cur + 0 + 1; omega⟩
    · exact .inl ⟨rfl, hbegin, by show size cur + 0 ≤ size cur + 0 + 1; omega⟩
    · exact .inl ⟨rfl, hbegin, by show size cur + 0 ≤ size cur + 0 + 1; omega⟩
    · exact .inl ⟨rfl, hnone, by show 0 + 0 ≤ size cur + 0 + 1; omega⟩
    · exact .inl ⟨rfl, hadd _, by rw [size_add]; exact le_refl _⟩
  -- after a backslash a newline is dropped, and any other character is kept
  | escaped =>
    dsimp only at h
    split_ifs at h <;> cases h
    · exact .inl ⟨rfl, hcur, by show size cur + 0 ≤ size cur + 0 + 1; omega⟩
    · exact .inl ⟨rfl, hadd _, by rw [size_add]; exact le_refl _⟩
  | single =>
    dsimp only at h
    split_ifs at h <;> cases h
    · exact .inl ⟨rfl, hcur, by show size cur + 0 ≤ size cur + 0 + 1; omega⟩
    · exact .inl ⟨rfl, hadd _, by rw [size_add]; exact le_refl _⟩
  -- in double quotes the backslash is owed until the next character is known
  | double =>
    dsimp only at h
    split_ifs at h <;> cases h
    · exact .inl ⟨rfl, hcur, by show size cur + 0 ≤ size cur + 0 + 1; omega⟩
    · exact .inl ⟨rfl, hcur, by show size cur + 1 ≤ size cur + 0 + 1; omega⟩
    · exact .inl ⟨rfl, hadd _, by rw [size_add]; exact le_refl _⟩
  | doubleEscaped =>
    dsimp only at h
    split_ifs at h <;> cases h
    · exact .inl ⟨rfl, hcur, by show size cur + 0 ≤ size cur + 1 + 1; omega⟩
    · exact .inl ⟨rfl, hadd _, by rw [size_add]; show size cur + 1 + 0 ≤ size cur + 1 + 1; omega⟩
    · refine .inl ⟨rfl, unmarked_add (unmarked_add hcur hbackslash) hc, ?_⟩
      rw [size_add, size_add]
      exact le_refl _
  | comment =>
    dsimp only at h
    split_ifs at h <;> cases h
    · exact .inr (.inr ⟨[], rfl⟩)
    · exact .inl ⟨rfl, hnone, by show 0 + 0 ≤ size cur + 0 + 1; omega⟩

/-- A character that is not literal is not read into the word. -/
theorem step_special (h : step .plain cur c = some (tokens, mode', cur')) (hcur : Unmarked cur)
    (hspecial : isLiteral c = false ∨ (c = hash ∧ cur = none)) :
    (tokens = [] ∧ Unmarked cur' ∧ size cur' + owed mode' ≤ size cur) ∨
      (∃ w rest, tokens = .word w :: rest ∧ cur = some w) ∨ ∃ rest, tokens = .newline :: rest := by
  have hnone : Unmarked none := fun x hx => by cases hx
  unfold step at h
  split at h
  · cases h
  rename_i h0
  dsimp only at h
  split_ifs at h with hnewline hblank hbackslash hdouble hsingle hother hcomment <;> cases h
  · right
    cases cur with
    | none => exact .inr ⟨[], rfl⟩
    | some w => exact .inl ⟨w, _, rfl, rfl⟩
  · cases cur with
    | none => exact .inl ⟨rfl, hnone, le_refl _⟩
    | some w => exact .inr (.inl ⟨w, _, rfl, rfl⟩)
  · exact .inl ⟨rfl, hcur, le_refl _⟩
  · exact .inl ⟨rfl, hcur, le_refl _⟩
  · exact .inl ⟨rfl, hcur, le_refl _⟩
  · exact .inl ⟨rfl, hnone, Nat.zero_le _⟩
  · -- no other character is special
    exfalso
    rcases hspecial with hspecial | ⟨hhash, hbegin⟩
    · rw [Bool.or_eq_true, not_or, Bool.not_eq_true, Bool.not_eq_true] at hother
      have hliteral : isLiteral c = true := by
        unfold isLiteral
        simp [h0, hnewline, hbackslash, hdouble, hsingle, hblank, hother]
      rw [hliteral] at hspecial
      cases hspecial
    · apply hcomment
      rw [hhash, hbegin]
      rfl

/-- A word that has begun goes on or ends as it is. -/
theorem step_started (h : step mode (some w) c = some (tokens, mode', cur')) (hmode : mode ≠ .comment) :
    (tokens = [] ∧ mode' ≠ .comment ∧ ∃ u, cur' = some (w ++ u)) ∨ ∃ rest, tokens = .word w :: rest := by
  have hsame : ∃ u, some w = some (w ++ u) := ⟨[], by rw [List.append_nil]⟩
  have hadd : ∀ quoted, ∃ u, add (some w) c quoted = some (w ++ u) := fun quoted => ⟨_, rfl⟩
  unfold step at h
  split at h
  · cases h
  cases mode with
  | plain =>
    dsimp only at h
    split_ifs at h with _ _ _ _ _ _ hcomment <;> cases h
    · exact .inr ⟨_, rfl⟩
    · exact .inr ⟨_, rfl⟩
    · exact .inl ⟨rfl, by decide, hsame⟩
    · exact .inl ⟨rfl, by decide, hsame⟩
    · exact .inl ⟨rfl, by decide, hsame⟩
    · rw [Option.isNone_some, Bool.and_false] at hcomment
      cases hcomment
    · exact .inl ⟨rfl, by decide, hadd _⟩
  | escaped =>
    dsimp only at h
    split_ifs at h <;> cases h
    · exact .inl ⟨rfl, by decide, hsame⟩
    · exact .inl ⟨rfl, by decide, hadd _⟩
  | single =>
    dsimp only at h
    split_ifs at h <;> cases h
    · exact .inl ⟨rfl, by decide, hsame⟩
    · exact .inl ⟨rfl, by decide, hadd _⟩
  | double =>
    dsimp only at h
    split_ifs at h <;> cases h
    · exact .inl ⟨rfl, by decide, hsame⟩
    · exact .inl ⟨rfl, by decide, hsame⟩
    · exact .inl ⟨rfl, by decide, hadd _⟩
  | doubleEscaped =>
    dsimp only at h
    split_ifs at h <;> cases h
    · exact .inl ⟨rfl, by decide, hsame⟩
    · exact .inl ⟨rfl, by decide, hadd _⟩
    · refine .inl ⟨rfl, by decide, [(backslash, true), (c, true)], ?_⟩
      show some (w ++ [(backslash, true)] ++ [(c, true)]) = _
      rw [List.append_assoc]
      rfl
  | comment => exact absurd rfl hmode

/-- The word that comes of one that has begun. -/
theorem lex_started (h : lex mode (some w) t = some (.word u :: tokens)) (hmode : mode ≠ .comment) :
    ∃ v, u = w ++ v := by
  induction t generalizing mode w with
  | nil =>
    cases mode with
    | plain =>
      have heq := List.cons.inj (Option.some.inj h)
      refine ⟨[], ?_⟩
      rw [List.append_nil]
      exact (Token.word.inj heq.1).symm
    | comment => exact absurd rfl hmode
    | _ => cases h
  | cons c t ih =>
    rw [lex] at h
    split at h
    · cases h
    · rename_i tokens' mode' cur' hstep
      rcases step_started hstep hmode with ⟨rfl, hmode', v, rfl⟩ | ⟨rest, rfl⟩
      · rw [show ([] ++ · : List Token → List Token) = id from rfl, Option.map_id, id] at h
        obtain ⟨v', hv'⟩ := ih h hmode'
        exact ⟨v ++ v', by rw [hv', List.append_assoc]⟩
      · obtain ⟨tokens'', -, heq⟩ := Option.map_eq_some_iff.mp h
        refine ⟨[], ?_⟩
        rw [List.append_nil]
        exact (Token.word.inj (List.cons.inj heq).1).symm

/-- After a comment comes a newline. -/
theorem lex_comment (h : lex .comment cur t = some (token :: tokens)) : token = .newline := by
  induction t generalizing cur with
  | nil => cases h
  | cons c t ih =>
    rw [lex] at h
    split at h
    · cases h
    · rename_i tokens' mode' cur' hstep
      unfold step at hstep
      split at hstep
      · cases hstep
      · dsimp only at hstep
        split_ifs at hstep <;> cases hstep
        · obtain ⟨tokens'', -, heq⟩ := Option.map_eq_some_iff.mp h
          exact (List.cons.inj heq).1.symm
        · rw [show ([] ++ · : List Token → List Token) = id from rfl, Option.map_id, id] at h
          exact ih h

/-- The name of an assignment is as long as the word was at its mark. -/
theorem front_started (hcur : Unmarked cur) {quoted : Bool} {v : Word}
    (h : u = cur.getD [] ++ [(equals, quoted)] ++ v) :
    (front (u.map Prod.fst)).length = size cur := by
  have hfree : equals ∉ (cur.getD []).map Prod.fst := by
    rw [List.mem_map]
    rintro ⟨x, hx, heq⟩
    exact hcur x hx heq
  have hu : u.map Prod.fst = (cur.getD []).map Prod.fst ++ equals :: v.map Prod.fst := by
    rw [h, List.map_append, List.map_append, List.append_assoc]
    rfl
  rw [hu, front_append_equals hfree, List.length_map]
  rfl

/-- The reading of a text up to an equals sign never runs ahead of it: by induction on that text. -/
theorem first_word (h : lex mode cur (r ++ equals :: t) = some (.word u :: tokens))
    (hcur : Unmarked cur) (hr : equals ∉ r) :
    (front (u.map Prod.fst)).length ≤ size cur + owed mode + r.length := by
  -- by induction on what stands before the equals sign
  induction r generalizing mode cur with
  | nil =>
    rw [List.nil_append] at h
    have hadd : ∀ {mode' : Mode} {cur₀ : Option Word} {quoted : Bool}, Unmarked cur₀ →
        mode' ≠ .comment → lex mode' (add cur₀ equals quoted) t = some (.word u :: tokens) →
        (front (u.map Prod.fst)).length = size cur₀ := by
      intro mode' cur₀ quoted hfree hmode' hlex
      obtain ⟨v, hv⟩ := lex_started hlex hmode'
      exact front_started hfree hv
    -- the sign is next: in every mode but a comment it is added to the word
    cases mode with
    | plain =>
      have hstep : step .plain cur equals = some ([], .plain, add cur equals false) :=
        step_literal (by decide) (.inl (by decide))
      rw [lex_cons_nil hstep] at h
      have heq := hadd hcur (by decide) h
      show _ ≤ size cur + 0 + 0
      omega
    | escaped =>
      rw [lex_cons_nil (show step .escaped cur equals = some ([], .plain, add cur equals true) from rfl)]
        at h
      have heq := hadd hcur (by decide) h
      show _ ≤ size cur + 0 + 0
      omega
    | single =>
      rw [lex_cons_nil (show step .single cur equals = some ([], .single, add cur equals true) from rfl)]
        at h
      have heq := hadd hcur (by decide) h
      show _ ≤ size cur + 0 + 0
      omega
    | double =>
      rw [lex_cons_nil (show step .double cur equals = some ([], .double, add cur equals true) from rfl)]
        at h
      have heq := hadd hcur (by decide) h
      show _ ≤ size cur + 0 + 0
      omega
    | doubleEscaped =>
      rw [lex_cons_nil (show step .doubleEscaped cur equals =
        some ([], .double, add (add cur backslash true) equals true) from rfl)] at h
      have heq := hadd (unmarked_add hcur (by decide)) (by decide) h
      rw [size_add] at heq
      show _ ≤ size cur + 1 + 0
      omega
    | comment =>
      rw [lex_cons_nil (show step .comment cur equals = some ([], .comment, none) from rfl)] at h
      cases lex_comment h
  -- one character on: no token ends, the word ends or the line does
  | cons c r ih =>
    rw [List.mem_cons, not_or] at hr
    rw [List.cons_append, lex] at h
    split at h
    · cases h
    · rename_i tokens' mode' cur' hstep
      rcases step_grows hstep hcur (Ne.symm hr.1) with
        ⟨rfl, hfree, hsize⟩ | ⟨v, rest, rfl, rfl⟩ | ⟨rest, rfl⟩
      · rw [show ([] ++ · : List Token → List Token) = id from rfl, Option.map_id, id] at h
        have hle := ih h hfree hr.2
        rw [List.length_cons]
        omega
      · obtain ⟨tokens'', -, heq⟩ := Option.map_eq_some_iff.mp h
        have hu : v = u := Token.word.inj (List.cons.inj heq).1
        have hle : (front (u.map Prod.fst)).length ≤ u.length := by
          rw [← List.length_map Prod.fst]
          exact (List.takeWhile_prefix _).length_le
        rw [← hu] at hle ⊢
        show _ ≤ v.length + owed mode + _
        omega
      · obtain ⟨tokens'', -, heq⟩ := Option.map_eq_some_iff.mp h
        cases (List.cons.inj heq).1

/-- **A name that is read back whole** needs no quotes. -/
theorem literal_of_first_word (h : lex .plain cur (k ++ equals :: t) = some (.word u :: tokens))
    (hcur : Unmarked cur) (hk : equals ∉ k)
    (hwhole : (front (u.map Prod.fst)).length = size cur + k.length) :
    (∀ c ∈ k, isLiteral c = true) ∧ (cur = none → k.head? ≠ some hash) := by
  induction k generalizing cur with
  | nil => exact ⟨fun c hc => (List.not_mem_nil hc).elim, fun _ => nofun⟩
  | cons c k ih =>
    rw [List.mem_cons, not_or] at hk
    rw [List.length_cons] at hwhole
    by_cases hspecial : isLiteral c = false ∨ (c = hash ∧ cur = none)
    · exfalso
      rw [List.cons_append, lex] at h
      split at h
      · cases h
      · rename_i tokens' mode' cur' hstep
        rcases step_special hstep hcur hspecial with
          ⟨rfl, hfree, hsize⟩ | ⟨v, rest, rfl, rfl⟩ | ⟨rest, rfl⟩
        · rw [show ([] ++ · : List Token → List Token) = id from rfl, Option.map_id, id] at h
          have hle := first_word h hfree hk.2
          omega
        · obtain ⟨tokens'', -, heq⟩ := Option.map_eq_some_iff.mp h
          have hu : v = u := Token.word.inj (List.cons.inj heq).1
          have hle : (front (u.map Prod.fst)).length ≤ u.length := by
            rw [← List.length_map Prod.fst]
            exact (List.takeWhile_prefix _).length_le
          rw [← hu] at hle hwhole
          have hsize : size (some v) = v.length := rfl
          omega
        · obtain ⟨tokens'', -, heq⟩ := Option.map_eq_some_iff.mp h
          cases (List.cons.inj heq).1
    · rw [not_or, Bool.not_eq_false] at hspecial
      have hhash : c ≠ hash ∨ cur ≠ none := by
        by_contra hboth
        rw [not_or, not_not, not_not] at hboth
        exact hspecial.2 hboth
      rw [List.cons_append, lex_cons_nil (step_literal hspecial.1 hhash)] at h
      obtain ⟨hrest, -⟩ := ih h (unmarked_add hcur (Ne.symm hk.1)) hk.2 (by
        rw [size_add]
        omega)
      constructor
      · intro x hx
        rcases List.mem_cons.mp hx with rfl | hx
        · exact hspecial.1
        · exact hrest x hx
      · intro hnone hhead
        have hc : c = hash := Option.some.inj hhead
        rcases hhash with hne | hne
        · exact hne hc
        · exact hne hnone

end FirstWord

/-! ## What a reading holds -/

section Contents

variable {mode : Mode} {cur : Option Word} {t : CodePoints} {w : Word} {cmd : List Word}
  {words : List CodePoints} {tokens : List Token} {x : CodePoint × Bool}

/-- A text that is read holds no null character. -/
theorem notMem_null_of_lex (h : lex mode cur t = some tokens) : 0 ∉ t := by
  induction t generalizing mode cur tokens with
  | nil => exact List.not_mem_nil
  | cons c t ih =>
    rw [lex] at h
    split at h
    · cases h
    · rename_i tokens' mode' cur' hstep
      obtain ⟨tokens'', hrest, -⟩ := Option.map_eq_some_iff.mp h
      rw [List.mem_cons, not_or]
      refine ⟨?_, ih hrest⟩
      intro hc
      unfold step at hstep
      rw [if_pos hc.symm] at hstep
      cases hstep

/-- A character comes into a word from the text, or is a backslash. -/
theorem step_mem {mode' : Mode} {cur' : Option Word} {c : CodePoint}
    (h : step mode cur c = some (tokens, mode', cur')) :
    (∀ w, .word w ∈ tokens → cur = some w) ∧
      ∀ x ∈ cur'.getD [], x ∈ cur.getD [] ∨ x.1 = c ∨ x.1 = backslash := by
  have hkeep : ∀ x ∈ cur.getD [], x ∈ cur.getD [] ∨ x.1 = c ∨ x.1 = backslash := fun x hx => .inl hx
  have hnone : ∀ x ∈ (none : Option Word).getD [], x ∈ cur.getD [] ∨ x.1 = c ∨ x.1 = backslash :=
    fun x hx => by cases hx
  have hadd : ∀ quoted, ∀ x ∈ (add cur c quoted).getD [],
      x ∈ cur.getD [] ∨ x.1 = c ∨ x.1 = backslash := by
    intro quoted x hx
    unfold add at hx
    rw [Option.getD_some, List.mem_append, List.mem_singleton] at hx
    rcases hx with hx | rfl
    · exact .inl hx
    · exact .inr (.inl rfl)
  have hnil : ∀ w, Token.word w ∈ ([] : List Token) → cur = some w := fun w hw => by cases hw
  -- a separator gives the word that it ends, and no other
  have hflush : ∀ tokens', (∀ w, Token.word w ∉ tokens') →
      ∀ w, Token.word w ∈ flush cur tokens' → cur = some w := by
    intro tokens' hfree w hw
    cases cur with
    | none => exact absurd hw (hfree w)
    | some v =>
      rcases List.mem_cons.mp hw with heq | hw
      · rw [Token.word.inj heq]
      · exact absurd hw (hfree w)
  -- one case for each mode, in the order of its branches
  unfold step at h
  split at h
  · cases h
  cases mode with
  | plain =>
    dsimp only at h
    split_ifs at h <;> cases h
    · exact ⟨hflush _ (by simp), hnone⟩
    · exact ⟨hflush _ (by simp), hnone⟩
    · exact ⟨hnil, hkeep⟩
    · exact ⟨hnil, hkeep⟩
    · exact ⟨hnil, hkeep⟩
    · exact ⟨hnil, hnone⟩
    · exact ⟨hnil, hadd _⟩
  | escaped =>
    dsimp only at h
    split_ifs at h <;> cases h
    · exact ⟨hnil, hkeep⟩
    · exact ⟨hnil, hadd _⟩
  | single =>
    dsimp only at h
    split_ifs at h <;> cases h
    · exact ⟨hnil, hkeep⟩
    · exact ⟨hnil, hadd _⟩
  | double =>
    dsimp only at h
    split_ifs at h <;> cases h
    · exact ⟨hnil, hkeep⟩
    · exact ⟨hnil, hkeep⟩
    · exact ⟨hnil, hadd _⟩
  | doubleEscaped =>
    dsimp only at h
    split_ifs at h <;> cases h
    · exact ⟨hnil, hkeep⟩
    · exact ⟨hnil, hadd _⟩
    · refine ⟨hnil, ?_⟩
      intro x hx
      unfold add at hx
      rw [Option.getD_some, Option.getD_some, List.mem_append, List.mem_append, List.mem_singleton,
        List.mem_singleton] at hx
      rcases hx with (hx | rfl) | rfl
      · exact .inl hx
      · exact .inr (.inr rfl)
      · exact .inr (.inl rfl)
  | comment =>
    dsimp only at h
    split_ifs at h <;> cases h
    · refine ⟨?_, hnone⟩
      intro w hw
      rw [List.mem_singleton] at hw
      cases hw
    · exact ⟨hnil, hnone⟩

/-- What a word of a reading holds, the text holds, but for backslashes. -/
theorem mem_of_lex (h : lex mode cur t = some tokens) (hw : .word w ∈ tokens) (hx : x ∈ w) :
    x ∈ cur.getD [] ∨ x.1 ∈ t ∨ x.1 = backslash := by
  induction t generalizing mode cur tokens with
  | nil =>
    cases mode with
    | plain =>
      have heq : flush cur [] = tokens := Option.some.inj h
      cases cur with
      | none =>
        rw [← heq] at hw
        cases hw
      | some v =>
        rw [← heq] at hw
        have hv : w = v := Token.word.inj (List.mem_singleton.mp hw)
        left
        rw [← hv]
        exact hx
    | comment =>
      have heq : [] = tokens := Option.some.inj h
      rw [← heq] at hw
      cases hw
    | _ => cases h
  | cons c t ih =>
    rw [lex] at h
    split at h
    · cases h
    · rename_i tokens' mode' cur' hstep
      obtain ⟨tokens'', hrest, rfl⟩ := Option.map_eq_some_iff.mp h
      obtain ⟨hended, hheld⟩ := step_mem hstep
      rcases List.mem_append.mp hw with hw | hw
      · left
        rw [hended w hw]
        exact hx
      · rcases ih hrest hw with hcur | ht | hbackslash
        · rcases hheld x hcur with hcur | hc | hbackslash
          · exact .inl hcur
          · right
            left
            rw [hc]
            exact List.mem_cons_self
          · exact .inr (.inr hbackslash)
        · exact .inr (.inl (List.mem_cons_of_mem _ ht))
        · exact .inr (.inr hbackslash)

/-- What is quoted, and is none of the characters that stand for something else, stands for itself. -/
theorem expands_of_forall (h : ∀ x ∈ w, x.2 = true ∨ x.1 ∉ ofText "~*?[") : expands w = false := by
  have htilde : (ofChar '~', false) ∉ w := by
    intro hmem
    rcases h _ hmem with hquoted | hfree
    · cases hquoted
    · exact hfree (by decide)
  have hstarts : startsTilde w = false := by
    cases w with
    | nil => rfl
    | cons x w =>
      have hne : x ≠ (ofChar '~', false) := fun heq => htilde (by rw [heq]; exact List.mem_cons_self)
      unfold startsTilde
      dsimp only
      rw [decide_eq_false hne, Bool.false_and]
  have hassigns : assignsTilde w = false := by
    unfold assignsTilde
    dsimp only
    rw [Bool.and_eq_false_iff]
    right
    rw [List.any_eq_false]
    intro x hx
    have hne : x ≠ (ofChar '~', false) := fun heq => htilde (by rw [← heq]; exact List.mem_of_mem_drop hx)
    simpa using hne
  have hpattern : hasPattern w = false := by
    clear hstarts hassigns htilde
    induction w with
    | nil => rfl
    | cons x w ih =>
      unfold hasPattern
      rw [ih fun y hy => h y (List.mem_cons_of_mem _ hy), Bool.or_false]
      rcases h x List.mem_cons_self with hquoted | hfree
      · rw [hquoted]
        rfl
      · have hnone : x.1 ≠ ofChar '*' ∧ x.1 ≠ ofChar '?' ∧ x.1 ≠ ofChar '[' := by
          refine ⟨?_, ?_, ?_⟩ <;>
          · intro heq
            rw [heq] at hfree
            exact hfree (by decide)
        rw [decide_eq_false hnone.1, decide_eq_false hnone.2.1, decide_eq_false hnone.2.2]
        cases x.2 <;> rfl
  unfold expands
  rw [hstarts, hassigns, hpattern]
  rfl

/-- The words of a command are its texts, where none stands for something else. -/
theorem mapM_readWord :
    cmd.mapM readWord = some words ↔
      words = cmd.map (·.map Prod.fst) ∧ ∀ w ∈ cmd, expands w = false := by
  induction cmd generalizing words with
  | nil =>
    rw [List.mapM_nil]
    constructor
    · intro h
      refine ⟨(Option.some.inj h).symm, ?_⟩
      intro w hw
      cases hw
    · rintro ⟨rfl, -⟩
      rfl
  | cons w cmd ih =>
    rw [List.mapM_cons, List.map_cons, List.forall_mem_cons]
    cases hexpands : expands w with
    | true =>
      have hnone : readWord w = none := by
        unfold readWord
        rw [hexpands, if_pos rfl]
      rw [hnone]
      constructor
      · intro h
        cases h
      · rintro ⟨-, h, -⟩
        cases h
    | false =>
      have hsome : readWord w = some (w.map Prod.fst) := by
        unfold readWord
        rw [hexpands, if_neg (by simp)]
      rw [hsome]
      constructor
      · intro h
        obtain ⟨first, hfirst, h⟩ := Option.bind_eq_some_iff.mp h
        obtain ⟨rest, hrest, heq⟩ := Option.bind_eq_some_iff.mp h
        obtain ⟨rfl, hall⟩ := ih.mp hrest
        rw [← Option.some.inj heq, Option.some.inj hfirst]
        exact ⟨rfl, rfl, hall⟩
      · rintro ⟨rfl, -, hall⟩
        show (cmd.mapM readWord).bind _ = _
        rw [ih.mpr ⟨rfl, hall⟩]
        rfl

/-- A command that ends with its line. -/
theorem commandsFrom_words (ws : List Word) (hne : cmd ++ ws ≠ []) :
    commandsFrom cmd (ws.map .word ++ .newline :: tokens) = (cmd ++ ws) :: commandsFrom [] tokens := by
  induction ws generalizing cmd with
  | nil =>
    rw [List.append_nil] at hne
    rw [List.append_nil, List.map_nil, List.nil_append, commandsFrom, if_neg hne]
  | cons w ws ih =>
    have happend : cmd ++ [w] ++ ws = cmd ++ w :: ws := by
      rw [List.append_assoc, List.singleton_append]
    rw [List.map_cons, List.cons_append, commandsFrom, ih (by rw [happend]; exact hne), happend]

end Contents

end Shell
