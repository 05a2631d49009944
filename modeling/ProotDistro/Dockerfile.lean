import ProotDistro.Lib.Text
import ProotDistro.Execenv

/-!
# `dockerfile`: instructions and their variables

The record the parser makes of an instruction, and the expansion of variables, which the engine
does when it comes to the instruction and not the parser.

A record keeps what the engine reads: of a here-document its body, of an instruction wrapped in
ONBUILD its text. `isAlnum` is Python's `str.isalnum` of one character, a table that is no part
of the program.
-/

namespace ProotDistro

namespace Dockerfile

inductive Keyword where
  | ADD | ARG | CMD | COPY | ENTRYPOINT | ENV | EXPOSE | FROM | HEALTHCHECK | LABEL | MAINTAINER
  | ONBUILD | RUN | SHELL | STOPSIGNAL | USER | VOLUME | WORKDIR
  deriving DecidableEq

def Keyword.name : Keyword → Str
  | .ADD => "ADD".toList
  | .ARG => "ARG".toList
  | .CMD => "CMD".toList
  | .COPY => "COPY".toList
  | .ENTRYPOINT => "ENTRYPOINT".toList
  | .ENV => "ENV".toList
  | .EXPOSE => "EXPOSE".toList
  | .FROM => "FROM".toList
  | .HEALTHCHECK => "HEALTHCHECK".toList
  | .LABEL => "LABEL".toList
  | .MAINTAINER => "MAINTAINER".toList
  | .ONBUILD => "ONBUILD".toList
  | .RUN => "RUN".toList
  | .SHELL => "SHELL".toList
  | .STOPSIGNAL => "STOPSIGNAL".toList
  | .USER => "USER".toList
  | .VOLUME => "VOLUME".toList
  | .WORKDIR => "WORKDIR".toList

/-- The value of an instruction: its text, the list of its exec form, or the text of the
instruction an ONBUILD wraps. -/
inductive Value where
  | text (s : Str)
  | exec (argv : List Str)
  | trigger (raw : Str)
  deriving DecidableEq

structure Instr where
  name : Keyword
  flags : Dict Str Str
  value : Value
  /-- the bodies of its here-documents -/
  heredocs : List Str
  raw : Str

def Value.isExec : Value → Bool
  | .exec _ => true
  | .text _ | .trigger _ => false

/-- A `${...}` that does not end. -/
structure SyntaxError where

/-! ## Variables -/

def lookupOrEmpty (name : Str) (env : Dict Str Str) : Str := (Dict.get env name).getD []

def isNameStart (c : Char) : Bool := ('A' ≤ c && c ≤ 'Z') || ('a' ≤ c && c ≤ 'z') || c == '_'

def isNameChar (c : Char) : Bool := isNameStart c || ('0' ≤ c && c ≤ '9')

/-- What stands between `${` and `}`. -/
def expandBraced (inner : Str) (env : Dict Str Str) : Str :=
  let name := inner.takeWhile isNameChar
  let raw := Dict.get env name
  let isName := name.head?.any isNameStart
  match isName, inner.dropWhile isNameChar with
  | true, ':' :: '-' :: arg => if raw.getD [] = [] then arg else raw.getD []
  | true, ':' :: '+' :: arg => if raw.getD [] = [] then [] else arg
  | true, '-' :: arg => raw.getD arg
  | true, '+' :: arg => if raw.isSome then arg else []
  | true, ':' :: '?' :: _ => lookupOrEmpty name env
  | true, '?' :: _ => lookupOrEmpty name env
  | _, _ => lookupOrEmpty inner env

inductive ExpandState where
  | plain
  /-- after `$`, with the name read so far -/
  | bare (name : Str)
  /-- after `${`, with what was read since -/
  | braced (inner : Str)

/-- One pass over the text. A name ends where a character is no part of it, and that character
is read again as plain text. -/
def expandFrom (isAlnum : Char → Bool) (env : Dict Str Str) :
    Str → ExpandState → Except SyntaxError Str
  | [], .plain => .ok []
  | [], .bare name => .ok (if name = [] then ['$'] else lookupOrEmpty name env)
  | [], .braced _ => .error {}
  | c :: s, .braced inner =>
    if c = '}' then (expandFrom isAlnum env s .plain).map (expandBraced inner env ++ ·)
    else expandFrom isAlnum env s (.braced (inner ++ [c]))
  | c :: s, .plain =>
    if c = '\\' then
      match s with
      | [] => .ok ['\\']
      | d :: s' => (expandFrom isAlnum env s' .plain).map (d :: ·)
    else if c = '$' then expandFrom isAlnum env s (.bare [])
    else (expandFrom isAlnum env s .plain).map (c :: ·)
  | c :: s, .bare name =>
    if name = [] ∧ c = '{' then expandFrom isAlnum env s (.braced [])
    else if isAlnum c ∨ c = '_' then expandFrom isAlnum env s (.bare (name ++ [c]))
    else
      let value := if name = [] then ['$'] else lookupOrEmpty name env
      if c = '\\' then
        match s with
        | [] => .ok (value ++ ['\\'])
        | d :: s' => (expandFrom isAlnum env s' .plain).map fun out => value ++ d :: out
      else if c = '$' then (expandFrom isAlnum env s (.bare [])).map (value ++ ·)
      else (expandFrom isAlnum env s .plain).map fun out => value ++ c :: out

def expandVars (isAlnum : Char → Bool) (text : Str) (env : Dict Str Str) :
    Except SyntaxError Str :=
  expandFrom isAlnum env text .plain

end Dockerfile

end ProotDistro
