import Mathlib.Algebra.GroupWithZero.Nat
import Mathlib.Data.Char
import Mathlib.Data.List.DropRight
import Mathlib.Data.List.Infix
import Mathlib.Data.List.Lex

/-!
# Strings as Python reads them

A string is the list of its characters. Beside the usual ways of trimming and cutting one there
is `shlexSplit`, the POSIX mode of Python's shell lexer with words split at white space only and
no comments: quotes join, a backslash escapes, and inside double quotes only for itself and the
quote.
-/

namespace Text

/-! ## Lists of strings

What membership in a list of strings, and of lists of strings, is decided by. -/

instance lawfulBEqText : LawfulBEq (List Char) := inferInstance

instance lawfulBEqTexts : LawfulBEq (List (List Char)) := inferInstance

/-! ## Blanks -/

/-- `str.isspace` of one character; also the class `\s` of a pattern. -/
def isSpace (c : Char) : Bool :=
  c ∈ ['\t', '\n', '\x0b', '\x0c', '\r', '\x1c', '\x1d', '\x1e', '\x1f', ' ', '\u0085', '\u00a0',
    '\u1680', '\u2028', '\u2029', '\u202f', '\u205f', '\u3000'] ||
  ('\u2000' ≤ c && c ≤ '\u200a')

def strip (s : List Char) : List Char := (s.dropWhile isSpace).rdropWhile isSpace

def lstrip (s : List Char) : List Char := s.dropWhile isSpace

def rstrip (s : List Char) : List Char := s.rdropWhile isSpace

/-- Blanks at the end are stripped. -/
theorem rstrip_append {s t : List Char} (h : ∀ c ∈ t, isSpace c = true) :
    rstrip (s ++ t) = rstrip s := by
  unfold rstrip List.rdropWhile
  rw [List.reverse_append, List.dropWhile_append_of_pos]
  intro c hc
  exact h c (List.mem_reverse.mp hc)

/-- What ends with another character is not. -/
theorem rstrip_concat {s : List Char} {c : Char} (h : isSpace c = false) :
    rstrip (s ++ [c]) = s ++ [c] :=
  List.rdropWhile_concat_neg isSpace s c (by simp [h])

/-- A character that is no space ends what can be stripped. -/
theorem rstrip_append_cons {s t : List Char} {c : Char} (h : isSpace c = false) :
    rstrip (s ++ c :: t) = s ++ c :: rstrip t := by
  induction t using List.reverseRecOn with
  | nil => exact rstrip_concat h
  | append_singleton t d ih =>
    have happend : s ++ c :: (t ++ [d]) = (s ++ c :: t) ++ [d] := by
      rw [List.append_assoc]
      rfl
    rw [happend]
    cases hd : isSpace d with
    | true =>
      have hspace : ∀ x ∈ [d], isSpace x = true := by
        intro x hx
        rw [List.mem_singleton.mp hx]
        exact hd
      rw [rstrip_append hspace, rstrip_append hspace, ih]
    | false => rw [rstrip_concat hd, rstrip_concat hd, ← happend]

theorem lstrip_cons {s : List Char} {c : Char} (h : isSpace c = false) :
    lstrip (c :: s) = c :: s :=
  List.dropWhile_cons_of_neg (by simp [h])

/-- Of a text that goes on without white space, only the end is stripped. -/
theorem strip_append_cons {s t : List Char} {c : Char} (hs : ∀ x ∈ s, isSpace x = false)
    (hc : isSpace c = false) : strip (s ++ c :: t) = s ++ c :: rstrip t := by
  have hfront : lstrip (s ++ c :: t) = s ++ c :: t := by
    cases s with
    | nil => exact lstrip_cons hc
    | cons x s => exact lstrip_cons (hs x List.mem_cons_self)
  show rstrip (lstrip (s ++ c :: t)) = _
  rw [hfront]
  exact rstrip_append_cons hc

/-- A text without blanks is stripped of none. -/
theorem strip_of_noSpace {s : List Char} (h : ∀ x ∈ s, isSpace x = false) : strip s = s := by
  induction s using List.reverseRecOn with
  | nil => rfl
  | append_singleton s c _ =>
    have hs : ∀ x ∈ s, isSpace x = false := fun x hx => h x (List.mem_append_left _ hx)
    have hc : isSpace c = false := h c (List.mem_append_right _ List.mem_cons_self)
    exact strip_append_cons hs hc

/-- What is left of the front begins with no space. -/
theorem lstrip_head {s t : List Char} {c : Char} (h : lstrip s = c :: t) : isSpace c = false := by
  have hhead := List.head?_dropWhile_not isSpace s
  unfold lstrip at h
  rw [h] at hhead
  simpa using hhead

/-- A character that is no space is not stripped. -/
theorem mem_strip {s : List Char} {c : Char} (hc : c ∈ s) (h : isSpace c = false) :
    c ∈ strip s := by
  have hdrop : ∀ t : List Char, c ∈ t → c ∈ t.dropWhile isSpace := by
    intro t ht
    rw [← @List.takeWhile_append_dropWhile _ isSpace t, List.mem_append] at ht
    rcases ht with htake | hdrop
    · rw [List.mem_takeWhile_imp htake] at h
      cases h
    · exact hdrop
  exact List.mem_reverse.mpr (hdrop _ (List.mem_reverse.mpr (hdrop s hc)))

/-- There is nothing to strip from what was stripped. -/
theorem strip_strip (s : List Char) : strip (strip s) = strip s := by
  have hfront : lstrip (strip s) = strip s := by
    show lstrip (rstrip (lstrip s)) = rstrip (lstrip s)
    cases hr : rstrip (lstrip s) with
    | nil => rfl
    | cons c t =>
      -- the first character is the one the front was stripped to
      obtain ⟨u, hu⟩ : rstrip (lstrip s) <+: lstrip s := List.rdropWhile_prefix isSpace _
      rw [hr] at hu
      exact lstrip_cons (lstrip_head hu.symm)
  show rstrip (lstrip (strip s)) = strip s
  rw [hfront]
  exact List.rdropWhile_idempotent isSpace _

/-- `s.split()` -/
def words (s : List Char) : List (List Char) :=
  (s.splitBy fun a b => isSpace a == isSpace b).filter fun w => !w.all isSpace

/-- `s.partition(c)` without the separator. -/
def partition (c : Char) (s : List Char) : List Char × List Char :=
  (s.takeWhile (· ≠ c), (s.dropWhile (· ≠ c)).tail)

/-- The cut is at the first separator. -/
theorem partition_append {c : Char} {k v : List Char} (h : c ∉ k) :
    partition c (k ++ c :: v) = (k, v) := by
  have hall : ∀ a ∈ k, decide (a ≠ c) = true := by
    intro a ha
    rw [decide_eq_true_eq]
    rintro rfl
    exact h ha
  unfold partition
  rw [List.takeWhile_append_of_pos hall, List.dropWhile_append_of_pos hall]
  simp

/-- The first side has none. -/
theorem notMem_partition_fst (c : Char) (s : List Char) : c ∉ (partition c s).1 := by
  intro h
  have := List.mem_takeWhile_imp h
  simp at this

/-- A text without one is all on the first side. -/
theorem partition_of_notMem {c : Char} {s : List Char} (h : c ∉ s) : partition c s = (s, []) := by
  have hall : ∀ a ∈ s, decide (a ≠ c) = true := by
    intro a ha
    rw [decide_eq_true_eq]
    rintro rfl
    exact h ha
  unfold partition
  rw [List.takeWhile_eq_self_iff.mpr hall, List.dropWhile_eq_nil_iff.mpr hall, List.tail_nil]

/-- Where the separator occurs, the two sides give the string back. -/
theorem eq_partition {c : Char} {s : List Char} (h : c ∈ s) :
    s = (partition c s).1 ++ c :: (partition c s).2 := by
  obtain ⟨k, v, rfl, hk⟩ := List.eq_append_cons_of_mem h
  rw [partition_append hk]

/-- A character between parts is the separator or one of theirs. -/
theorem mem_of_mem_intercalate {α : Type} {c x : α} {parts : List (List α)}
    (h : c ∈ [x].intercalate parts) : c = x ∨ ∃ part ∈ parts, c ∈ part := by
  induction parts with
  | nil => cases h
  | cons part parts ih =>
    cases parts with
    | nil =>
      rw [List.intercalate_singleton] at h
      exact .inr ⟨part, List.mem_singleton.mpr rfl, h⟩
    | cons part' parts =>
      rw [List.intercalate_cons_cons] at h
      rcases List.mem_append.mp h with hmem | htail
      · rcases List.mem_append.mp hmem with hpart | hsep
        · exact .inr ⟨part, List.mem_cons_self, hpart⟩
        · exact .inl (List.mem_singleton.mp hsep)
      · rcases ih htail with hx | ⟨p, hp, hc⟩
        · exact .inl hx
        · exact .inr ⟨p, List.mem_cons_of_mem _ hp, hc⟩

/-- Every character of a part is there. -/
theorem mem_intercalate {c x : Char} {parts : List (List Char)} {part : List Char}
    (hpart : part ∈ parts) (hc : c ∈ part) : c ∈ [x].intercalate parts := by
  induction parts with
  | nil => cases hpart
  | cons first parts ih =>
    cases parts with
    | nil =>
      rw [List.intercalate_singleton, ← List.mem_singleton.mp hpart]
      exact hc
    | cons second parts =>
      rw [List.intercalate_cons_cons]
      rcases List.mem_cons.mp hpart with rfl | hrest
      · exact List.mem_append_left _ (List.mem_append_left _ hc)
      · exact List.mem_append_right _ (ih hrest)

/-- A split brings no character in. -/
theorem mem_of_mem_splitOn {c x : Char} {s part : List Char} (hpart : part ∈ s.splitOn x)
    (hc : c ∈ part) : c ∈ s := by
  have hs : [x].intercalate (s.splitOn x) = s := List.intercalate_splitOn x
  rw [← hs]
  exact mem_intercalate hpart hc

/-- The separator stands in none of the parts. -/
theorem notMem_of_mem_splitOn {x : Char} {s part : List Char} (h : part ∈ s.splitOn x) :
    x ∉ part := by
  induction s generalizing part with
  | nil =>
    rw [List.splitOn_nil, List.mem_singleton] at h
    rw [h]
    exact List.not_mem_nil
  | cons c s ih =>
    rw [List.splitOn_cons_eq_if_modifyHead] at h
    split at h
    · rcases List.mem_cons.mp h with rfl | h
      · exact List.not_mem_nil
      · exact ih h
    · rename_i hc
      -- the first part gains `c`, which is not the separator; the others are as before
      cases hsplit : s.splitOn x with
      | nil => exact absurd hsplit (List.splitOn_ne_nil _ _)
      | cons first parts =>
        rw [hsplit, List.modifyHead_cons] at h
        rcases List.mem_cons.mp h with rfl | h
        · have hfirst : x ∉ first := ih (by rw [hsplit]; exact List.mem_cons_self)
          intro hmem
          rcases List.mem_cons.mp hmem with rfl | hmem
          · exact hc (beq_self_eq_true x)
          · exact hfirst hmem
        · exact ih (by rw [hsplit]; exact List.mem_cons_of_mem _ h)

/-- A character of a string is the separator or stands in one of the parts. -/
theorem mem_splitOn {c x : Char} {s : List Char} (h : c ∈ s) :
    c = x ∨ ∃ part ∈ s.splitOn x, c ∈ part := by
  have hs : [x].intercalate (s.splitOn x) = s := List.intercalate_splitOn x
  rw [← hs] at h
  exact mem_of_mem_intercalate h

/-! ## The shell lexer -/

inductive ShlexState where
  | blank
  | word
  | quote (q : Char)
  /-- after a backslash, inside double quotes or not -/
  | escape (quoted : Bool)
  deriving DecidableEq

def isShlexSpace (c : Char) : Bool := c ∈ [' ', '\t', '\r', '\n']

def isQuote (c : Char) : Bool := c ∈ ['\'', '"']

/-- The words in `s`, read from a state with the word begun and whether it had quotes. -/
def shlexFrom : List Char → ShlexState → List Char → Bool → Option (List (List Char))
  | [], .blank, _, _ => some []
  | [], .word, token, quoted => some (if token ≠ [] ∨ quoted then [token] else [])
  | [], .quote _, _, _ => none
  | [], .escape _, _, _ => none
  | c :: s, .blank, _, _ =>
    if isShlexSpace c then shlexFrom s .blank [] false
    else if c = '\\' then shlexFrom s (.escape false) [] false
    else if isQuote c then shlexFrom s (.quote c) [] false
    else shlexFrom s .word [c] false
  | c :: s, .word, token, quoted =>
    if isShlexSpace c then
      if token ≠ [] ∨ quoted then (shlexFrom s .blank [] false).map (token :: ·)
      else shlexFrom s .blank [] false
    else if isQuote c then shlexFrom s (.quote c) token quoted
    else if c = '\\' then shlexFrom s (.escape false) token quoted
    else shlexFrom s .word (token ++ [c]) quoted
  | c :: s, .quote q, token, _ =>
    if c = q then shlexFrom s .word token true
    else if c = '\\' ∧ q = '"' then shlexFrom s (.escape true) token true
    else shlexFrom s (.quote q) (token ++ [c]) true
  | c :: s, .escape true, token, quoted =>
    if c ≠ '\\' ∧ c ≠ '"' then shlexFrom s (.quote '"') (token ++ ['\\', c]) quoted
    else shlexFrom s (.quote '"') (token ++ [c]) quoted
  | c :: s, .escape false, token, quoted => shlexFrom s .word (token ++ [c]) quoted

/-- `shlex.split(s)`; `none` is its ValueError. -/
def shlexSplit (s : List Char) : Option (List (List Char)) := shlexFrom s .blank [] false

/-- The first word alone, which the lexer answers before it has seen what follows; `none` is its
ValueError. -/
def shlexWord : List Char → ShlexState → List Char → Bool → Option (Option (List Char))
  | [], .blank, _, _ => some none
  | [], .word, token, quoted => some (if token ≠ [] ∨ quoted then some token else none)
  | [], .quote _, _, _ => none
  | [], .escape _, _, _ => none
  | c :: s, .blank, _, _ =>
    if isShlexSpace c then shlexWord s .blank [] false
    else if c = '\\' then shlexWord s (.escape false) [] false
    else if isQuote c then shlexWord s (.quote c) [] false
    else shlexWord s .word [c] false
  | c :: s, .word, token, quoted =>
    if isShlexSpace c then
      if token ≠ [] ∨ quoted then some (some token) else shlexWord s .blank [] false
    else if isQuote c then shlexWord s (.quote c) token quoted
    else if c = '\\' then shlexWord s (.escape false) token quoted
    else shlexWord s .word (token ++ [c]) quoted
  | c :: s, .quote q, token, _ =>
    if c = q then shlexWord s .word token true
    else if c = '\\' ∧ q = '"' then shlexWord s (.escape true) token true
    else shlexWord s (.quote q) (token ++ [c]) true
  | c :: s, .escape true, token, quoted =>
    if c ≠ '\\' ∧ c ≠ '"' then shlexWord s (.quote '"') (token ++ ['\\', c]) quoted
    else shlexWord s (.quote '"') (token ++ [c]) quoted
  | c :: s, .escape false, token, quoted => shlexWord s .word (token ++ [c]) quoted

end Text
