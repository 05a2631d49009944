import ProotDistro.Dockerfile

/-!
# `build_engine/parsing`: operands of instructions

The small readers the handlers share. A `Failure` is an exception that ends the build; the text
of a `BuildError` is left out.
-/

namespace ProotDistro

open Dockerfile

namespace BuildEngine

inductive Failure where
  /-- BuildError -/
  | build
  /-- OSError -/
  | os
  /-- DockerfileSyntaxError -/
  | dockerfile
  /-- any other exception -/
  | other
  deriving DecidableEq

/-- `ARG K[=V]`: the key and the default. -/
def splitArg (value : Str) : Str × Option Str :=
  let s := Text.strip value
  if s = [] then ([], none)
  else if '=' ∈ s then
    let kv := Text.partition '=' s
    (Text.strip kv.1, some kv.2)
  else (s, none)

def splitOperands (value : Str) : Except Failure (List Str) :=
  match Text.shlexSplit value with
  | none => .error .build
  | some tokens => .ok tokens

/-- The `key=value` pairs of ENV and LABEL; without a `=` anywhere it is the old form with one
key and the rest of the line. -/
def parseKvList (value : Str) : Except Failure (List (Str × Str)) :=
  let s := Text.strip value
  if '=' ∉ s then
    .ok [(s.takeWhile (!Text.isSpace ·), (s.dropWhile (!Text.isSpace ·)).dropWhile Text.isSpace)]
  else
    match Text.shlexSplit s with
    | none => .error .build
    | some tokens => .ok (tokens.filterMap Execenv.envPair)

/-- No key has a `=` in it. -/
theorem notMem_of_parseKvList {value : Str} {pairs : List (Str × Str)}
    (h : parseKvList value = .ok pairs) : ∀ x ∈ pairs, '=' ∉ x.1 := by
  unfold parseKvList at h
  simp only at h
  split at h
  · rename_i hno
    cases h
    intro x hx
    rw [List.mem_singleton] at hx
    rw [hx]
    exact fun hmem => hno ((List.takeWhile_sublist _).mem hmem)
  · split at h
    · cases h
    · rename_i tokens _
      cases h
      intro x hx
      obtain ⟨token, -, hpair⟩ := List.mem_filterMap.mp hx
      exact Execenv.notMem_of_envPair hpair

end BuildEngine

end ProotDistro
