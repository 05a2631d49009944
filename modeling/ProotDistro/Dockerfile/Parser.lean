import ProotDistro.Dockerfile
import ProotDistro.Lib.Json
import ProotDistro.Lib.Result

/-!
# `dockerfile`: the parser

`parseDockerfile` reads the text of a Dockerfile into its directives and its instructions. The
lines are a list, and a place in the file is the list of the lines from there on, so the parser's
index is read off the length of what is left.

* **`parseStep`** — one turn of the loop over the lines: a line that is passed over, or one
  instruction with its continuations and here-documents.
* **`parseInstructions`** — the loop. A turn takes a line at least (`parseStep_suffix`), so it
  ends on every text.
* **`Instruction.instr`** — what the engine reads of an instruction.

`json.loads` is a parameter, `none` being its ValueError. Of an error that names the word the
file has in place of a keyword only the line is kept.
-/

namespace ProotDistro

namespace Dockerfile

/-! ## Records -/

structure Heredoc where
  tag : Str
  stripIndent : Bool
  body : Str
  deriving DecidableEq

/-- One instruction other than ONBUILD. -/
structure Record where
  name : Keyword
  flags : Dict Str Str
  value : Value
  heredocs : List Heredoc
  lineno : Nat
  raw : Str
  deriving DecidableEq

/-- An instruction; the wrapper an ONBUILD puts around its inner record has the line and the text
of that record. -/
inductive Instruction where
  | plain (record : Record)
  | onbuild (inner : Record)
  deriving DecidableEq

def Instruction.record : Instruction → Record
  | .plain r => r
  | .onbuild r => r

def Instruction.lineno (i : Instruction) : Nat := i.record.lineno

/-- What the engine reads. -/
def Instruction.instr : Instruction → Instr
  | .plain r => ⟨r.name, r.flags, r.value, r.heredocs.map (·.body), r.raw⟩
  | .onbuild r => ⟨.ONBUILD, [], .trigger r.raw, [], r.raw⟩

/-- `DockerfileSyntaxError` -/
inductive ParseError where
  | unknownInstruction (lineno : Nat)
  | onbuildWithoutInner (lineno : Nat)
  | invalidOnbuildInner (lineno : Nat)
  | unterminatedHeredoc (tag : Str)
  deriving DecidableEq

/-! ## Words -/

/-- The upper case of a character, where ASCII letters make it up. Any other character is left as
it is: no keyword has it. -/
def upperChar (c : Char) : Str :=
  if c = 'ı' then ['I']
  else if c = 'ſ' then ['S']
  else if c = 'ß' then ['S', 'S']
  else if c = 'ﬀ' then ['F', 'F']
  else if c = 'ﬁ' then ['F', 'I']
  else if c = 'ﬂ' then ['F', 'L']
  else if c = 'ﬃ' then ['F', 'F', 'I']
  else if c = 'ﬄ' then ['F', 'F', 'L']
  else if c = 'ﬅ' ∨ c = 'ﬆ' then ['S', 'T']
  else [c.toUpper]

def upper (s : Str) : Str := s.flatMap upperChar

/-- `_INSTRUCTIONS` -/
def keywords : List Keyword :=
  [.ADD, .ARG, .CMD, .COPY, .ENTRYPOINT, .ENV, .EXPOSE, .FROM, .HEALTHCHECK, .LABEL, .MAINTAINER,
    .ONBUILD, .RUN, .SHELL, .STOPSIGNAL, .USER, .VOLUME, .WORKDIR]

def Keyword.ofName (s : Str) : Option Keyword := keywords.find? fun k => k.name = s

def takesHeredocs : Keyword → Bool
  | .ADD | .COPY | .RUN => true
  | .ARG | .CMD | .ENTRYPOINT | .ENV | .EXPOSE | .FROM | .HEALTHCHECK | .LABEL | .MAINTAINER
  | .ONBUILD | .SHELL | .STOPSIGNAL | .USER | .VOLUME | .WORKDIR => false

/-- The first word of a text that begins with one, and what stands behind the space after it. -/
def splitWord (s : Str) : Str × Str :=
  (s.takeWhile (!Text.isSpace ·), (s.dropWhile (!Text.isSpace ·)).dropWhile Text.isSpace)

/-! ## Lines -/

/-- `\r\n` and `\r` are line ends too. -/
def normalizeNewlines : Str → Str
  | [] => []
  | '\r' :: '\n' :: s => '\n' :: normalizeNewlines s
  | '\r' :: s => '\n' :: normalizeNewlines s
  | c :: s => c :: normalizeNewlines s

/-- A byte-order mark at the very front is none of the text. -/
def dropBom : Str → Str
  | '\ufeff' :: s => s
  | s => s

def rawLines (text : Str) : List Str := (dropBom (normalizeNewlines text)).splitOn '\n'

/-- A blank line or a comment. -/
def isSkipped (line : Str) : Bool :=
  match Text.lstrip line with
  | [] => true
  | c :: _ => c == '#'

/-! ## Directives -/

def directiveNames : List Str := ["syntax".toList, "escape".toList, "check".toList]

/-- `# key=value` -/
def directive (line : Str) : Option (Str × Str) :=
  match Text.strip line with
  | '#' :: inner =>
    let s := Text.lstrip inner
    let key := s.takeWhile isNameChar
    match key.head?.any isNameStart, (s.dropWhile isNameChar).dropWhile Text.isSpace with
    | true, '=' :: value =>
      if value = [] then none else some (key.map Char.toLower, Text.strip value)
    | _, _ => none
  | _ => none

/-- The directives at the top, and the number of lines they take. -/
def parseDirectives : List Str → Dict Str Str → Dict Str Str × Nat
  | [], found => (found, 0)
  | line :: rest, found =>
    if Text.strip line = [] then
      ((parseDirectives rest found).1, (parseDirectives rest found).2 + 1)
    else
      match directive line with
      | none => (found, 0)
      | some (key, value) =>
        if key ∉ directiveNames ∨ key ∈ Dict.keys found then (found, 0)
        else ((parseDirectives rest (Dict.set found key value)).1,
          (parseDirectives rest (Dict.set found key value)).2 + 1)

/-- The escape character a Dockerfile asks for, if it is one of the two there are. -/
def escapeChar (directives : Dict Str Str) : Char :=
  if Dict.get directives "escape".toList = some ['`'] then '`' else '\\'

/-- The directives without an escape character that is none. -/
def keptDirectives (directives : Dict Str Str) : Dict Str Str :=
  if Dict.get directives "escape".toList ∈ [some ['`'], some ['\\']] then directives
  else Dict.erase directives "escape".toList

/-! ## Continuations -/

/-- Whether a line goes on: an odd number of escape characters stands at its end. -/
def endsWithEscape (esc : Char) (line : Str) : Bool :=
  ((Text.rstrip line).reverse.takeWhile (· == esc)).length % 2 == 1

def stripTrailingEscape (esc : Char) (line : Str) : Str :=
  let s := Text.rstrip line
  Text.rstrip (if s.getLast? = some esc then s.dropLast else s)

/-- The parts of the logical line that begins with `cur`, and the lines from its last one on;
none where the file ends inside the continuation. -/
def logicalLine (esc : Char) (cur : Str) (rest : List Str) : List Str × List Str :=
  if endsWithEscape esc cur then
    match _h : rest.dropWhile isSkipped with
    | [] => ([stripTrailingEscape esc cur], [])
    | next :: rest' =>
      let (parts, last) := logicalLine esc next rest'
      (stripTrailingEscape esc cur :: parts, last)
  else ([cur], cur :: rest)
termination_by rest.length
decreasing_by
  have hle : (rest.dropWhile isSkipped).length ≤ rest.length :=
    (List.dropWhile_sublist isSkipped).length_le
  rw [_h, List.length_cons] at hle
  omega

/-- A logical line as one text. -/
def joinParts (parts : List Str) : Str := Text.strip ([' '].intercalate (parts.map Text.strip))

/-! ## Flags -/

def isLetter (c : Char) : Bool := ('A' ≤ c && c ≤ 'Z') || ('a' ≤ c && c ≤ 'z')

def isFlagChar (c : Char) : Bool := isNameChar c || c == '-'

/-- `_FLAG_RE`: the key, whether a `=` follows it, and what stands behind. -/
def matchFlag (text : Str) : Option (Str × Bool × Str) :=
  match Text.lstrip text with
  | '-' :: '-' :: s =>
    let key := s.takeWhile isFlagChar
    let rest := s.dropWhile isFlagChar
    if key.head?.any isLetter then
      match rest with
      | [] => some (key, false, [])
      | c :: rest' =>
        if c = '=' then some (key, true, rest')
        else if Text.isSpace c then some (key, false, rest)
        else none
    else none
  | _ => none

/-- How far the closing quote is. -/
def quotedLen (q : Char) : Str → Nat
  | [] => 0
  | [c] => if c = q then 0 else 1
  | c :: d :: s =>
    if c = q then 0
    else if q = '"' ∧ c = '\\' then quotedLen q s + 2
    else quotedLen q (d :: s) + 1

/-- `_shlex_consumed_len` -/
def shlexConsumedLen (source token : Str) : Nat :=
  match source with
  | [] => 0
  | q :: s => if Text.isQuote q then quotedLen q s + 2 else token.length

/-- The value of a flag, from behind its `=`, and what stands behind the value. -/
def flagValue (rest : Str) : Str × Str :=
  let bare := (rest.takeWhile (!Text.isSpace ·), rest.dropWhile (!Text.isSpace ·))
  if rest.head?.any Text.isQuote then
    match Text.shlexWord rest .blank [] false with
    | some (some value) => (value, rest.drop (shlexConsumedLen rest value))
    | _ => bare
  else bare

/-- A flag that is read takes some of the text. -/
theorem matchFlag_length {text key rest : Str} {hasValue : Bool}
    (h : matchFlag text = some (key, hasValue, rest)) : rest.length < text.length := by
  have hstrip : (Text.lstrip text).length ≤ text.length :=
    (List.dropWhile_sublist _).length_le
  unfold matchFlag at h
  split at h
  · rename_i s hs
    rw [hs, List.length_cons, List.length_cons] at hstrip
    have hdrop : (s.dropWhile isFlagChar).length ≤ s.length :=
      (List.dropWhile_sublist _).length_le
    simp only at h
    split at h
    · split at h
      · cases h
        show 0 < text.length
        omega
      · rename_i c rest' hrest
        rw [hrest, List.length_cons] at hdrop
        split at h
        · cases h
          omega
        · split at h
          · cases h
            rw [hrest, List.length_cons]
            omega
          · cases h
    · cases h
  · cases h

/-- Its value takes no more than there is. -/
theorem flagValue_length (rest : Str) : (flagValue rest).2.length ≤ rest.length := by
  have hbare : (rest.dropWhile (!Text.isSpace ·)).length ≤ rest.length :=
    (List.dropWhile_sublist _).length_le
  unfold flagValue
  simp only
  split
  · split
    · show (rest.drop _).length ≤ rest.length
      rw [List.length_drop]
      omega
    · exact hbare
  · exact hbare

/-- `_parse_flags` -/
def parseFlags (text : Str) (flags : Dict Str Str) : Dict Str Str × Str :=
  match _h : matchFlag text with
  | none => (flags, text)
  | some (key, false, rest) => parseFlags rest (Dict.set flags key [])
  | some (key, true, rest) => parseFlags (flagValue rest).2 (Dict.set flags key (flagValue rest).1)
termination_by text.length
decreasing_by
  · exact matchFlag_length _h
  · exact Nat.lt_of_le_of_lt (flagValue_length rest) (matchFlag_length _h)

/-! ## Here-documents -/

/-- The dash of an opener, if it has one. -/
def takeDash : Str → Bool × Str
  | '-' :: s => (true, s)
  | s => (false, s)

/-- The quote in front of a tag, if there is one. -/
def takeQuote : Str → Option Char × Str
  | [] => (none, [])
  | c :: s => if Text.isQuote c then (some c, s) else (none, c :: s)

/-- `_HEREDOC_RE` at the front of a text: whether tabs are stripped, the tag, and what stands
behind. -/
def matchOpener (s : Str) : Option (Bool × Str × Str) :=
  match s with
  | '<' :: '<' :: s =>
    let dash := takeDash s
    let quote := takeQuote dash.2
    let tag := quote.2.takeWhile isNameChar
    let rest := quote.2.dropWhile isNameChar
    if tag.head?.any isNameStart then
      match quote.1 with
      | none => some (dash.1, tag, rest)
      | some q => if rest.head? = some q then some (dash.1, tag, rest.tail) else none
    else none
  | _ => none

theorem takeDash_length (s : Str) : (takeDash s).2.length ≤ s.length := by
  unfold takeDash
  split
  · exact Nat.le_succ _
  · exact Nat.le_refl _

theorem takeQuote_length (s : Str) : (takeQuote s).2.length ≤ s.length := by
  unfold takeQuote
  split
  · exact Nat.le_refl _
  · split
    · exact Nat.le_succ _
    · exact Nat.le_refl _

/-- An opener takes some of the text. -/
theorem matchOpener_length {s tag rest : Str} {dash : Bool}
    (h : matchOpener s = some (dash, tag, rest)) : rest.length < s.length := by
  unfold matchOpener at h
  split at h
  · rename_i s
    have hdash := takeDash_length s
    have hquote := takeQuote_length (takeDash s).2
    have hrest : ((takeQuote (takeDash s).2).2.dropWhile isNameChar).length ≤
        (takeQuote (takeDash s).2).2.length := (List.dropWhile_sublist _).length_le
    simp only at h
    show rest.length < s.length + 1 + 1
    split at h
    · split at h
      · cases h
        omega
      · split at h
        · cases h
          rw [List.length_tail]
          omega
        · cases h
    · cases h
  · cases h

/-- `_extract_heredoc_tags` -/
def extractHeredocTags (value : Str) : List (Bool × Str) :=
  match value with
  | [] => []
  | c :: s =>
    match _h : matchOpener (c :: s) with
    | some (dash, tag, rest) => (dash, tag) :: extractHeredocTags rest
    | none => extractHeredocTags s
termination_by value.length
decreasing_by
  · exact matchOpener_length _h
  · exact Nat.lt_succ_self _

/-- A line of a body as it is compared and kept. -/
def bodyLine (stripIndent : Bool) (line : Str) : Str :=
  if stripIndent then line.dropWhile (· == '\t') else line

/-- Whether a line closes a here-document. -/
def isTerminator (stripIndent : Bool) (tag line : Str) : Bool :=
  bodyLine stripIndent line == tag || Text.rstrip (bodyLine stripIndent line) == tag

/-- The text of a body, each of its lines ended. -/
def bodyText (lines : List Str) : Str :=
  ['\n'].intercalate lines ++ if lines = [] then [] else ['\n']

/-- `_collect_heredoc_body`, with the lines of the body so far: its text, and the lines behind the
closing one. -/
def collectHeredocBody (stripIndent : Bool) (tag : Str) :
    List Str → List Str → Except ParseError (Str × List Str)
  | [], _ => .error (.unterminatedHeredoc tag)
  | line :: rest, body =>
    if isTerminator stripIndent tag line then .ok (bodyText body, rest)
    else collectHeredocBody stripIndent tag rest (body ++ [bodyLine stripIndent line])

/-- The bodies of the here-documents opened, one after the other: each is read from the line
behind the one the parser stands at, which is the opening line for the first and, for any other,
the line behind the close of the one before. -/
def collectBodies : List (Bool × Str) → List Str → Except ParseError (List Heredoc × List Str)
  | [], lines => .ok ([], lines)
  | (stripIndent, tag) :: tags, lines => do
    let (body, lines) ← collectHeredocBody stripIndent tag lines.tail []
    let (heredocs, lines) ← collectBodies tags lines
    .ok (⟨tag, stripIndent, body⟩ :: heredocs, lines)

/-! ## Instructions -/

section Parse

variable (loads : Str → Option Json)

/-- `_try_exec_form`; the value is stripped already. -/
def tryExecForm (value : Str) : Option (List Str) :=
  if value.head? = some '[' ∧ value.getLast? = some ']' then
    match loads value with
    | some (.arr items) => Json.strList? items
    | _ => none
  else none

/-- What stands on the logical line of an instruction. -/
structure Header where
  onbuild : Bool
  name : Keyword
  flags : Dict Str Str
  value : Str
  deriving DecidableEq

def Header.of (onbuild : Bool) (name : Keyword) (rest : Str) : Header :=
  ⟨onbuild, name, (parseFlags rest []).1, Text.strip (parseFlags rest []).2⟩

def readHeader (text : Str) (lineno : Nat) : Except ParseError Header :=
  match Keyword.ofName (upper (splitWord text).1) with
  | none => .error (.unknownInstruction lineno)
  | some .ONBUILD =>
    if (splitWord text).2 = [] then .error (.onbuildWithoutInner lineno)
    else
      match Keyword.ofName (upper (splitWord (splitWord text).2).1) with
      | none | some .ONBUILD => .error (.invalidOnbuildInner lineno)
      | some name => .ok (.of true name (splitWord (splitWord text).2).2)
  | some name => .ok (.of false name (splitWord text).2)

/-- The here-documents an instruction opens. -/
def Header.tags (h : Header) : List (Bool × Str) :=
  if takesHeredocs h.name then extractHeredocTags h.value else []

/-- The here-documents, and the lines behind the instruction; `lines` begins with the last line
of the logical line. -/
def readHeredocs (h : Header) (lines : List Str) : Except ParseError (List Heredoc × List Str) :=
  if h.tags = [] then .ok ([], lines.tail) else collectBodies h.tags lines

def Header.instruction (h : Header) (heredocs : List Heredoc) (lineno : Nat) (raw : Str) :
    Instruction :=
  let record : Record :=
    { name := h.name
      flags := h.flags
      value := match tryExecForm loads h.value with
        | some argv => .exec argv
        | none => .text h.value
      heredocs, lineno, raw }
  if h.onbuild then .onbuild record else .plain record

def readInstruction (text : Str) (lineno : Nat) (lines : List Str) :
    Except ParseError (Instruction × List Str) := do
  let h ← readHeader text lineno
  let (heredocs, lines) ← readHeredocs h lines
  .ok (h.instruction loads heredocs lineno text, lines)

/-- One turn of `_parse_instructions`: the instruction that begins on `line`, if one does, and the
lines to go on with. -/
def parseStep (esc : Char) (line : Str) (rest : List Str) (lineno : Nat) :
    Except ParseError (Option Instruction × List Str) :=
  if isSkipped line then .ok (none, rest)
  else
    let logical := logicalLine esc line rest
    let text := joinParts logical.1
    if text = [] then .ok (none, logical.2.tail)
    else (readInstruction loads text lineno logical.2).map fun r => (some r.1, r.2)

end Parse

/-! ## The loop ends

What each reader leaves is a suffix of the lines it was given. -/

section Suffix

variable {loads : Str → Option Json} {esc : Char} {lineno : Nat} {lines rest next : List Str}

/-- What is left of a logical line is the end of the lines. -/
theorem logicalLine_suffix (esc : Char) (cur : Str) (rest : List Str) :
    (logicalLine esc cur rest).2 <:+ cur :: rest := by
  fun_induction logicalLine esc cur rest with
  | case1 cur rest => exact List.nil_suffix
  | case2 cur rest _ next rest' hdrop parts last hlast ih =>
    rw [hlast] at ih
    have hsuffix : next :: rest' <:+ rest := hdrop ▸ List.dropWhile_suffix isSkipped
    show last <:+ cur :: rest
    exact (ih.trans hsuffix).trans (List.suffix_cons cur rest)
  | case3 cur rest => exact List.suffix_refl _

/-- So is what a document leaves, and it takes a line. -/
theorem collectHeredocBody_suffix {stripIndent : Bool} {tag text : Str} {body : List Str}
    (h : collectHeredocBody stripIndent tag lines body = .ok (text, rest)) :
    rest <:+ lines.tail ∧ lines ≠ [] := by
  induction lines generalizing body with
  | nil => cases h
  | cons line lines ih =>
    rw [collectHeredocBody] at h
    show rest <:+ lines ∧ line :: lines ≠ []
    split at h
    · cases h
      exact ⟨List.suffix_refl _, List.cons_ne_nil _ _⟩
    · exact ⟨(ih h).1.trans (List.tail_suffix lines), List.cons_ne_nil _ _⟩

theorem collectBodies_suffix {tags : List (Bool × Str)} {heredocs : List Heredoc}
    (h : collectBodies tags lines = .ok (heredocs, rest)) :
    rest <:+ lines ∧ (tags ≠ [] → rest <:+ lines.tail) := by
  induction tags generalizing lines heredocs with
  | nil =>
    cases h
    exact ⟨List.suffix_refl _, fun hne => absurd rfl hne⟩
  | cons tag tags ih =>
    obtain ⟨⟨body, lines₁⟩, hbody, h⟩ := Result.bind_ok h
    obtain ⟨⟨heredocs₁, lines₂⟩, hbodies, h⟩ := Result.bind_ok h
    cases h
    have hfirst : lines₁ <:+ lines.tail :=
      (collectHeredocBody_suffix hbody).1.trans (List.tail_suffix _)
    have hall : rest <:+ lines.tail := (ih hbodies).1.trans hfirst
    exact ⟨hall.trans (List.tail_suffix lines), fun _ => hall⟩

/-- So is what all documents of an instruction leave. -/
theorem readHeredocs_suffix {h : Header} {heredocs : List Heredoc}
    (hread : readHeredocs h lines = .ok (heredocs, rest)) : rest <:+ lines.tail := by
  unfold readHeredocs at hread
  split at hread
  · cases hread
    exact List.suffix_refl _
  · rename_i hne
    exact (collectBodies_suffix hread).2 hne

theorem readInstruction_suffix {text : Str} {i : Instruction}
    (h : readInstruction loads text lineno lines = .ok (i, rest)) : rest <:+ lines.tail := by
  obtain ⟨header, -, h⟩ := Result.bind_ok h
  obtain ⟨⟨heredocs, lines₁⟩, hread, h⟩ := Result.bind_ok h
  cases h
  exact readHeredocs_suffix hread

/-- **A turn takes a line at least.** -/
theorem parseStep_suffix {line : Str} {o : Option Instruction}
    (h : parseStep loads esc line rest lineno = .ok (o, next)) : next <:+ rest := by
  have hlogical : (logicalLine esc line rest).2.tail <:+ rest := by
    rcases List.suffix_cons_iff.mp (logicalLine_suffix esc line rest) with heq | hsuffix
    · rw [heq]
      exact List.suffix_refl _
    · exact (List.tail_suffix _).trans hsuffix
  unfold parseStep at h
  split at h
  · cases h
    exact List.suffix_refl _
  · simp only at h
    split at h
    · cases h
      exact hlogical
    · obtain ⟨⟨i, lines⟩, hread, h⟩ := Result.map_ok h
      cases h
      exact (readInstruction_suffix hread).trans hlogical

end Suffix

/-- `_parse_instructions`, from line number `lineno` on. -/
def parseInstructions (loads : Str → Option Json) (esc : Char) (lines : List Str) (lineno : Nat) :
    Except ParseError (List Instruction) :=
  match lines with
  | [] => .ok []
  | line :: rest =>
    match _h : parseStep loads esc line rest lineno with
    | .error e => .error e
    | .ok (o, next) =>
      (parseInstructions loads esc next (lineno + (rest.length + 1 - next.length))).map
        (o.toList ++ ·)
termination_by lines.length
decreasing_by
  show next.length < rest.length + 1
  exact Nat.lt_succ_of_le (parseStep_suffix _h).length_le

/-- `parse_dockerfile` -/
def parseDockerfile (loads : Str → Option Json) (text : Str) :
    Except ParseError (Dict Str Str × List Instruction) :=
  let lines := rawLines text
  let (directives, taken) := parseDirectives lines []
  (parseInstructions loads (escapeChar directives) (lines.drop taken) (taken + 1)).map
    (keptDirectives directives, ·)

end Dockerfile

end ProotDistro
