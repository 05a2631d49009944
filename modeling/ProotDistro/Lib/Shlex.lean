import ProotDistro.Lib.Text

/-!
# What the shell lexer leaves of a text

`Text.shlexSplit` drops quotes, backslashes and the white space between words. A text it drops
nothing of is therefore recognised by its length: the words hold at most as many characters as
the text (`wordsLength_le`), and as many only where there was nothing to drop.

* **`shlexFrom_word`**, **`allPlain_of_wordsLength`** — outside quotes: a word of plain
  characters is read as it is, and no other text keeps its length.
* **`shlexFrom_doubleQuote`**, **`inertInQuotes_of_wordsLength`** — inside double quotes: a text
  with no double quote in it, no two backslashes side by side and none at its end (`InertInQuotes`)
  is read as it is, and no other text keeps its length.
-/

namespace Text

/-- A character that stands for itself in a word. -/
def isPlain (c : Char) : Bool := !isShlexSpace c && !isQuote c && c != '\\'

/-- How many characters the words hold. -/
def wordsLength (words : List (List Char)) : Nat := (words.map List.length).sum

/-- The length of the words, one by one. -/
theorem wordsLength_cons {token : List Char} {words : List (List Char)} :
    wordsLength (token :: words) = token.length + wordsLength words := by
  unfold wordsLength
  rw [List.map_cons, List.sum_cons]

/-- No word is longer than all. -/
theorem length_le_wordsLength {token : List Char} {words : List (List Char)}
    (h : token ∈ words) : token.length ≤ wordsLength words := by
  induction h with
  | head words =>
    rw [wordsLength_cons]
    omega
  | tail word _ ih =>
    rw [wordsLength_cons]
    omega

/-- What is still to be dropped: an open quote will be closed. -/
def ShlexState.pending : ShlexState → Nat
  | .quote _ => 1
  | .blank | .word | .escape _ => 0

section Lengths

variable {s token : List Char} {state : ShlexState} {quoted : Bool} {words : List (List Char)}

/-- **No character is made up**: the words are no longer than what there was to read. -/
theorem wordsLength_le (h : shlexFrom s state token quoted = some words) :
    wordsLength words + state.pending ≤ token.length + s.length := by
  fun_induction shlexFrom s state token quoted generalizing words
  case case1 =>
    cases h
    exact Nat.zero_le _
  case case2 token quoted =>
    cases h
    show wordsLength (if token ≠ [] ∨ quoted then [token] else []) + 0 ≤ token.length + 0
    split
    · rw [wordsLength_cons]
      exact Nat.le_refl _
    · exact Nat.zero_le _
  case case3 => cases h
  case case4 => cases h
  case case9 c s token quoted _ _ ih =>
    -- the word that ends here, and what follows it
    obtain ⟨rest, hrest, rfl⟩ := Option.map_eq_some_iff.mp h
    have hle := ih hrest
    rw [wordsLength_cons]
    simp only [ShlexState.pending, List.length_cons, List.length_nil] at hle ⊢
    omega
  -- every other turn reads one character and keeps no more than it has read
  all_goals
    rename_i ih
    have hle := ih h
    simp only [ShlexState.pending, List.length_append, List.length_cons, List.length_nil] at hle ⊢
    omega

/-- A word that has been begun is the first of the words. -/
theorem eq_cons_of_shlexFrom (hstate : state ≠ .blank) (htoken : token ≠ [])
    (h : shlexFrom s state token quoted = some words) :
    ∃ t rest, words = (token ++ t) :: rest := by
  fun_induction shlexFrom s state token quoted generalizing words
  case case2 token quoted =>
    rw [if_pos (.inl htoken)] at h
    cases h
    exact ⟨[], [], by rw [List.append_nil]⟩
  case case3 => cases h
  case case4 => cases h
  case case9 =>
    obtain ⟨rest, -, rfl⟩ := Option.map_eq_some_iff.mp h
    exact ⟨[], rest, by rw [List.append_nil]⟩
  case case10 hnone _ => exact absurd (.inl htoken) hnone
  all_goals first
    | exact absurd rfl hstate
    | -- the word grows
      rename_i ih
      obtain ⟨t, rest, hwords⟩ := ih (by simp) (by simp [htoken]) h
      exact ⟨_, rest, hwords.trans (by rw [List.append_assoc])⟩
    | -- the word waits
      rename_i ih
      exact ih (by simp) htoken h

end Lengths

/-! ## Outside quotes -/

section Word

variable {s token : List Char} {quoted : Bool} {words : List (List Char)}

/-- What neither separates words nor quotes. -/
theorem isPlain_iff {c : Char} :
    isPlain c = true ↔ isShlexSpace c = false ∧ isQuote c = false ∧ c ≠ '\\' := by
  unfold isPlain
  simp [and_assoc]

/-- A plain character is read into the word. -/
theorem shlexFrom_word_cons {c : Char} (hc : isPlain c = true) :
    shlexFrom (c :: s) .word token quoted = shlexFrom s .word (token ++ [c]) quoted := by
  obtain ⟨hspace, hquote, hescape⟩ := isPlain_iff.mp hc
  rw [shlexFrom, if_neg (by simp [hspace]), if_neg (by simp [hquote]), if_neg hescape]

/-- Plain characters are read into the word. -/
theorem shlexFrom_word {front : List Char} (h : ∀ c ∈ front, isPlain c = true) :
    shlexFrom (front ++ s) .word token quoted = shlexFrom s .word (token ++ front) quoted := by
  induction front generalizing token with
  | nil => rw [List.nil_append, List.append_nil]
  | cons c front ih =>
    rw [List.cons_append, shlexFrom_word_cons (h c List.mem_cons_self),
      ih fun d hd => h d (List.mem_cons_of_mem _ hd), List.append_assoc]
    rfl

/-- A text that begins with plain characters begins with a word. -/
theorem shlexSplit_append {front : List Char} (hne : front ≠ [])
    (h : ∀ c ∈ front, isPlain c = true) :
    shlexSplit (front ++ s) = shlexFrom s .word front false := by
  cases front with
  | nil => exact absurd rfl hne
  | cons c front =>
    obtain ⟨hspace, hquote, hescape⟩ := isPlain_iff.mp (h c List.mem_cons_self)
    show shlexFrom (c :: (front ++ s)) .blank [] false = _
    rw [shlexFrom, if_neg (by simp [hspace]), if_neg hescape, if_neg (by simp [hquote]),
      shlexFrom_word fun d hd => h d (List.mem_cons_of_mem _ hd)]
    rfl

/-- Nothing but plain characters keeps its length. -/
theorem allPlain_of_wordsLength (h : shlexFrom s .word token quoted = some words)
    (hlength : token.length + s.length ≤ wordsLength words) : ∀ c ∈ s, isPlain c = true := by
  induction s generalizing token with
  | nil => exact fun _ hc => absurd hc List.not_mem_nil
  | cons c s ih =>
    -- what is dropped here is missing from the words
    have hplain : isPlain c = true := by
      by_contra hnot
      rw [List.length_cons] at hlength
      unfold shlexFrom at h
      split at h
      · split at h
        · obtain ⟨rest, hrest, rfl⟩ := Option.map_eq_some_iff.mp h
          have hle := wordsLength_le hrest
          rw [wordsLength_cons] at hlength
          simp only [ShlexState.pending, List.length_nil] at hle
          omega
        · have hle := wordsLength_le h
          simp only [ShlexState.pending, List.length_nil] at hle
          omega
      · split at h
        · have hle := wordsLength_le h
          simp only [ShlexState.pending] at hle
          omega
        · split at h
          · have hle := wordsLength_le h
            simp only [ShlexState.pending] at hle
            omega
          · rename_i hspace hquote hescape
            exact hnot (isPlain_iff.mpr ⟨by simpa using hspace, by simpa using hquote, hescape⟩)
    rw [shlexFrom_word_cons hplain] at h
    have hrest := ih h (by simp only [List.length_append, List.length_cons, List.length_nil] at *; omega)
    intro d hd
    rcases List.mem_cons.mp hd with rfl | hd
    · exact hplain
    · exact hrest d hd

end Word

/-! ## Inside double quotes -/

/-- What double quotes read as it is: no double quote, and no backslash where one escapes, that is
before another or before the quote that closes. -/
def InertInQuotes (s : List Char) : Prop :=
  '"' ∉ s ∧ ¬ ['\\', '\\'] <:+: s ∧ s.getLast? ≠ some '\\'

instance (s : List Char) : Decidable (InertInQuotes s) := by
  unfold InertInQuotes
  infer_instance

section DoubleQuote

variable {s rest token : List Char} {quoted : Bool} {words : List (List Char)}

/-- What is inert is so from its second character on. -/
theorem InertInQuotes.tail {c : Char} (h : InertInQuotes (c :: s)) : InertInQuotes s := by
  obtain ⟨hquote, hpair, hlast⟩ := h
  refine ⟨fun hmem => hquote (List.mem_cons_of_mem _ hmem), fun hwithin => hpair ?_, ?_⟩
  · exact hwithin.trans (List.suffix_cons c s).isInfix
  · cases s with
    | nil => exact fun hnone => by cases hnone
    | cons d s => rwa [List.getLast?_cons_cons] at hlast

theorem InertInQuotes.nil : InertInQuotes [] := by decide

/-- A character that is neither quote nor backslash may stand in front. -/
theorem InertInQuotes.cons {c : Char} (h : InertInQuotes s) (hquote : c ≠ '"') (hc : c ≠ '\\') :
    InertInQuotes (c :: s) := by
  refine ⟨?_, ?_, ?_⟩
  · intro hmem
    rcases List.mem_cons.mp hmem with heq | hmem
    · exact hquote heq.symm
    · exact h.1 hmem
  · intro hwithin
    rcases List.infix_cons_iff.mp hwithin with hfront | hwithin
    · exact hc (List.cons_prefix_cons.mp hfront).1.symm
    · exact h.2.1 hwithin
  · cases s with
    | nil => exact fun heq => hc (Option.some.inj heq)
    | cons d s =>
      rw [List.getLast?_cons_cons]
      exact h.2.2

/-- So may a backslash, where it escapes nothing. -/
theorem InertInQuotes.cons_backslash {d : Char} (h : InertInQuotes (d :: s)) (hd : d ≠ '\\') :
    InertInQuotes ('\\' :: d :: s) := by
  refine ⟨?_, ?_, ?_⟩
  · intro hmem
    rcases List.mem_cons.mp hmem with heq | hmem
    · cases heq
    · exact h.1 hmem
  · intro hwithin
    rcases List.infix_cons_iff.mp hwithin with hfront | hwithin
    · have hsecond := (List.cons_prefix_cons.mp hfront).2
      exact hd (List.cons_prefix_cons.mp hsecond).1.symm
    · exact h.2.1 hwithin
  · rw [List.getLast?_cons_cons]
    exact h.2.2

/-- An inert text goes on behind a backslash, with nothing to escape. -/
theorem InertInQuotes.after_escape (h : InertInQuotes ('\\' :: s)) :
    ∃ d t, s = d :: t ∧ d ≠ '\\' ∧ d ≠ '"' := by
  obtain ⟨hquote, hpair, hlast⟩ := h
  cases s with
  | nil => exact absurd rfl hlast
  | cons d t =>
    refine ⟨d, t, rfl, ?_, ?_⟩
    · rintro rfl
      exact hpair ⟨[], t, rfl⟩
    · rintro rfl
      exact hquote (List.mem_cons_of_mem _ List.mem_cons_self)

/-- **What double quotes keep.** -/
theorem shlexFrom_doubleQuote (h : InertInQuotes s) :
    shlexFrom (s ++ '"' :: rest) (.quote '"') token quoted =
      shlexFrom rest .word (token ++ s) true := by
  -- over the text, beside the state behind a backslash
  suffices hboth :
      (∀ token quoted, shlexFrom (s ++ '"' :: rest) (.quote '"') token quoted =
        shlexFrom rest .word (token ++ s) true) ∧
      (∀ token d t, s = d :: t → d ≠ '\\' ∧ d ≠ '"' →
        shlexFrom (s ++ '"' :: rest) (.escape true) token true =
          shlexFrom rest .word (token ++ '\\' :: s) true) from hboth.1 token quoted
  induction s with
  | nil =>
    refine ⟨fun token quoted => ?_, fun token d t hs => by cases hs⟩
    rw [List.nil_append, List.append_nil, shlexFrom, if_pos rfl]
  | cons c s ih =>
    obtain ⟨hquotes, hescape⟩ := ih h.tail
    constructor
    · intro token quoted
      have hc : c ≠ '"' := fun heq => h.1 (heq ▸ List.mem_cons_self)
      rw [List.cons_append, shlexFrom, if_neg hc]
      by_cases hb : c = '\\'
      · subst hb
        obtain ⟨d, t, hs, hd⟩ := h.after_escape
        rw [if_pos ⟨rfl, rfl⟩, hescape token d t hs hd]
      · rw [if_neg fun hboth => hb hboth.1, hquotes, List.append_assoc]
        rfl
    · intro token d t hs hd
      cases hs
      rw [List.cons_append, shlexFrom, if_pos hd, hquotes, List.append_assoc]
      rfl

/-- **Nothing else keeps its length in double quotes.** -/
theorem inertInQuotes_of_wordsLength
    (h : shlexFrom (s ++ ['"']) (.quote '"') token quoted = some words)
    (hlength : token.length + s.length ≤ wordsLength words) : InertInQuotes s := by
  -- over the text, beside the state behind a backslash
  suffices hboth :
      (∀ token quoted words, shlexFrom (s ++ ['"']) (.quote '"') token quoted = some words →
        token.length + s.length ≤ wordsLength words → InertInQuotes s) ∧
      (∀ token words, shlexFrom (s ++ ['"']) (.escape true) token true = some words →
        token.length + 1 + s.length ≤ wordsLength words → InertInQuotes ('\\' :: s)) from
    hboth.1 token quoted words h hlength
  clear h hlength
  induction s with
  | nil =>
    refine ⟨fun _ _ _ _ _ => .nil, fun token words h _ => ?_⟩
    -- the quote that should close is escaped, and none is left
    rw [List.nil_append, shlexFrom, if_neg (by simp)] at h
    cases h
  | cons c s ih =>
    obtain ⟨hquotes, hescape⟩ := ih
    constructor
    · intro token quoted words h hlength
      rw [List.length_cons] at hlength
      rw [List.cons_append, shlexFrom] at h
      by_cases hc : c = '"'
      · -- the quotes end here, and the last one opens others
        rw [if_pos hc] at h
        have hplain := allPlain_of_wordsLength h
          (by rw [List.length_append, List.length_singleton]; omega)
        exact absurd (hplain '"' (List.mem_append_right _ List.mem_cons_self)) (by decide)
      · rw [if_neg hc] at h
        by_cases hb : c = '\\'
        · rw [if_pos ⟨hb, rfl⟩] at h
          rw [hb]
          exact hescape token words h (by omega)
        · rw [if_neg fun hboth => hb hboth.1] at h
          apply InertInQuotes.cons _ hc hb
          exact hquotes _ _ _ h (by rw [List.length_append, List.length_singleton]; omega)
    · intro token words h hlength
      rw [List.length_cons] at hlength
      rw [List.cons_append, shlexFrom] at h
      by_cases hd : c ≠ '\\' ∧ c ≠ '"'
      · rw [if_pos hd] at h
        have hrest := hquotes _ _ _ h
          (by rw [List.length_append, List.length_cons, List.length_singleton]; omega)
        exact (hrest.cons hd.2 hd.1).cons_backslash hd.1
      · -- the backslash is dropped
        rw [if_neg hd] at h
        have hle := wordsLength_le h
        simp only [ShlexState.pending, List.length_append, List.length_singleton] at hle
        omega

end DoubleQuote

end Text
