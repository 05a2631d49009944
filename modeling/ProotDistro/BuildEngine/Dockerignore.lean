import ProotDistro.Posix.PathString
import ProotDistro.Execenv

/-!
# `build_engine/dockerignore`: which names a context leaves out

A pattern is a shell pattern of `fnmatch`, where a star also matches a slash. It speaks of a name
and of everything below it (`matchesPattern`); the patterns are tried in their order, each one that
matches giving the verdict, and a `!` in front turns the verdict round.

* **`isIgnored_eq`** — the verdict is that of the last pattern that matches, but for the two
  names that are never left out (`leftOut`).
-/

namespace ProotDistro

open Posix

namespace Dockerignore

/-! ## `fnmatch` -/

/-- One item of a shell pattern. -/
inductive GlobItem where
  | star
  | any
  | set (negated : Bool) (ranges : List (Char × Char))
  | char (c : Char)
  deriving DecidableEq

/-- The ranges of a set. A dash behind the end of a range begins no other. -/
def readRanges : Str → List (Char × Char)
  | lo :: '-' :: hi :: s => (lo, hi) :: readRanges s
  | c :: s => (c, c) :: readRanges s
  | [] => []

/-- What stands in front of the `]` that closes a set, which is not its first character, and what
follows. -/
def readClosed : Str → Option (Str × Str)
  | [] => none
  | c :: s =>
    if ']' ∈ s then some (c :: s.takeWhile (· ≠ ']'), (s.dropWhile (· ≠ ']')).tail) else none

/-- A set behind its `[`: whether it is negated, what it holds, and what follows. -/
def readSet : Str → Option (Bool × Str × Str)
  | '!' :: s => (readClosed s).map (true, ·)
  | s => (readClosed s).map (false, ·)

/-- What is left of a class is no longer. -/
theorem readClosed_length {s body rest : Str} (h : readClosed s = some (body, rest)) :
    rest.length ≤ s.length := by
  unfold readClosed at h
  split at h
  · cases h
  · rename_i c s
    split at h
    · cases h
      have htail := (List.tail_sublist (s.dropWhile (· ≠ ']'))).length_le
      have hdrop := (List.dropWhile_sublist (· ≠ ']') (l := s)).length_le
      rw [List.length_cons]
      omega
    · cases h

/-- A set ends behind its beginning. -/
theorem readSet_length {s body rest : Str} {negated : Bool}
    (h : readSet s = some (negated, body, rest)) : rest.length ≤ s.length := by
  unfold readSet at h
  split at h
  · rename_i s
    obtain ⟨x, hx, heq⟩ := Option.map_eq_some_iff.mp h
    cases heq
    have hle := readClosed_length hx
    rw [List.length_cons]
    omega
  · obtain ⟨x, hx, heq⟩ := Option.map_eq_some_iff.mp h
    cases heq
    exact readClosed_length hx

/-- `fnmatch.translate`: the items of a pattern. -/
def translate (pattern : Str) : List GlobItem :=
  match pattern with
  | [] => []
  | '*' :: s => .star :: translate s
  | '?' :: s => .any :: translate s
  | '[' :: s =>
    match _h : readSet s with
    | some (negated, body, rest) => .set negated (readRanges body) :: translate rest
    | none => .char '[' :: translate s
  | c :: s => .char c :: translate s
termination_by pattern.length
decreasing_by
  all_goals simp only [List.length_cons]
  all_goals first
    | omega
    | exact Nat.lt_succ_of_le (readSet_length _h)

def GlobItem.accepts : GlobItem → Char → Bool
  | .star, _ => true
  | .any, _ => true
  | .set negated ranges, c => negated != ranges.any fun r => r.1 ≤ c && c ≤ r.2
  | .char d, c => c = d

/-- The items match the whole text. -/
def accepts : List GlobItem → Str → Bool
  | [], s => s.isEmpty
  | .star :: items, [] => accepts items []
  | .star :: items, c :: s => accepts items (c :: s) || accepts (.star :: items) s
  | _ :: _, [] => false
  | item :: items, c :: s => item.accepts c && accepts items s
termination_by items s => items.length + s.length

/-- `fnmatch.fnmatchcase` -/
def fnmatchcase (name pattern : Str) : Bool := accepts (translate pattern) name

/-! ## Patterns -/

def stripSlashes (s : Str) : Str := (s.dropWhile (· = '/')).rdropWhile (· = '/')

/-- `pattern.replace("**", "*")` -/
def collapseStars : Str → Str
  | '*' :: '*' :: s => '*' :: collapseStars s
  | c :: s => c :: collapseStars s
  | [] => []

/-- `_match`: the pattern matches the name or one of the directories it is in. -/
def matchesPattern (relPath pattern : Str) : Bool :=
  let pat := collapseStars (stripSlashes pattern)
  let rel := stripSlashes relPath
  let parts := splitPath rel
  fnmatchcase rel pat ||
    (List.range parts.length).any fun i => fnmatchcase (joinPath (parts.take (i + 1))) pat

def isNegated (pattern : Str) : Bool := pattern.head? = some '!'

/-- The pattern without its `!`. -/
def bare (pattern : Str) : Str := if isNegated pattern then pattern.tail else pattern

/-- The names that are never left out. -/
def exempt (relPath : Str) : Bool :=
  relPath = "Dockerfile".toList ∨ relPath = ".dockerignore".toList

def isIgnored (relPath : Str) (patterns : List Str) : Bool :=
  if patterns = [] then false
  else if exempt relPath then false
  else patterns.foldl
    (fun ignored pat => if matchesPattern relPath (bare pat) then !isNegated pat else ignored) false

/-! ## The last pattern decides -/

/-- The last pattern that matches decides. -/
def ignoredBy (patterns : List Str) (relPath : Str) : Bool :=
  ((patterns.filter fun pat => matchesPattern relPath (bare pat)).getLast?).any fun pat =>
    !isNegated pat

/-- The rule the patterns are written in: the last pattern that matches a path decides, but for the
two names that are never left out. -/
def leftOut (patterns : List Str) (relPath : Str) : Bool :=
  ignoredBy patterns relPath && !exempt relPath

section Last

variable {relPath : Str} {patterns : List Str}

/-- The loop over the patterns decides as the last that matches. -/
theorem foldl_eq_ignoredBy :
    patterns.foldl
        (fun ignored pat => if matchesPattern relPath (bare pat) then !isNegated pat else ignored)
        false =
      ignoredBy patterns relPath := by
  unfold ignoredBy
  induction patterns using List.reverseRecOn with
  | nil => rfl
  | append_singleton patterns pat ih =>
    rw [List.foldl_append, List.foldl_cons, List.foldl_nil, List.filter_append, ih]
    cases hmatch : matchesPattern relPath (bare pat) with
    | true =>
      have hone : [pat].filter (fun pat => matchesPattern relPath (bare pat)) = [pat] := by
        simp [hmatch]
      rw [hone, List.getLast?_concat]
      rfl
    | false =>
      have hnone : [pat].filter (fun pat => matchesPattern relPath (bare pat)) = [] := by
        simp [hmatch]
      rw [hnone, List.append_nil]
      rfl

/-- **The verdict of `is_ignored`** on one path is that of the rule. -/
theorem isIgnored_eq : isIgnored relPath patterns = leftOut patterns relPath := by
  unfold isIgnored leftOut
  split
  · rename_i hnil
    rw [hnil]
    rfl
  · cases exempt relPath with
    | true => simp
    | false =>
      rw [if_neg (by simp), foldl_eq_ignoredBy]
      simp

end Last

end Dockerignore

end ProotDistro
