import ProotDistro.Dockerfile.Compose

/-!
# `dockerfile`: here-documents

The text of an instruction with here-documents, put together from its line, the bodies and the
lines that close them, and what the parser reads of it. `collectBodies` steps over one line before
each body: over the line of the instruction before the first, and over the first line of the body
(or the line that closes it) before any other.

* **`Doc`** — a here-document as it is written: opener, body and closing line.
* **`extractHeredocTags_openLine`** — the openers on a line are found, in order.
* **`collectHeredocBody_doc`** — a body is read back up to its closing line.
* **`collectBodies_count`** — how many lines the loop over the openers takes: one too many for
  every here-document behind the first.
* **`heredocs_round_trip_iff`** — the text is read back if and only if it has one here-document.
-/

namespace ProotDistro

namespace Dockerfile

/-! ## Openers -/

/-- `<<TAG`, with a dash, with the tag in quotes, or both. -/
structure Opener where
  dash : Bool
  quote : Option Char
  tag : Str
  quote_isQuote : ∀ q ∈ quote, Text.isQuote q = true
  tag_head : tag.head?.any isNameStart = true
  tag_chars : ∀ c ∈ tag, isNameChar c = true

def Opener.text (o : Opener) : Str :=
  '<' :: '<' :: ((if o.dash then ['-'] else []) ++ (o.quote.toList ++ (o.tag ++ o.quote.toList)))

/-- No quote is part of a tag. -/
theorem isNameChar_of_isQuote {q : Char} (h : Text.isQuote q = true) : isNameChar q = false := by
  unfold Text.isQuote at h
  simp only [List.mem_cons, List.not_mem_nil, or_false, decide_eq_true_eq] at h
  rcases h with rfl | rfl <;> decide

theorem isNameStart_of_isQuote {q : Char} (h : Text.isQuote q = true) : isNameStart q = false := by
  unfold Text.isQuote at h
  simp only [List.mem_cons, List.not_mem_nil, or_false, decide_eq_true_eq] at h
  rcases h with rfl | rfl <;> decide

/-- What starts a tag is no quote. -/
theorem not_isQuote_of_isNameStart {c : Char} (h : isNameStart c = true) :
    Text.isQuote c = false := by
  cases hq : Text.isQuote c with
  | false => rfl
  | true =>
    rw [isNameStart_of_isQuote hq] at h
    cases h

/-- A tag, and the character behind it that is no part of it. -/
theorem takeWhile_tag {tag rest : Str} (htag : ∀ c ∈ tag, isNameChar c = true)
    (hrest : rest.head?.any isNameChar = false) :
    (tag ++ rest).takeWhile isNameChar = tag ∧ (tag ++ rest).dropWhile isNameChar = rest := by
  rw [List.takeWhile_append_of_pos htag, List.dropWhile_append_of_pos htag]
  cases rest with
  | nil => simp
  | cons c rest =>
    have hc : isNameChar c = false := hrest
    rw [List.takeWhile_cons_of_neg (by simp [hc]), List.dropWhile_cons_of_neg (by simp [hc]),
      List.append_nil]
    exact ⟨rfl, rfl⟩

/-- Without a dash none is taken. -/
theorem takeDash_of_head {s : Str} (h : s.head? ≠ some '-') : takeDash s = (false, s) := by
  unfold takeDash
  split
  · exact absurd rfl h
  · rfl

/-- An opener's text, up to where its tag begins. -/
theorem takeQuote_takeDash (o : Opener) (rest : Str) :
    takeDash ((if o.dash then ['-'] else []) ++ (o.quote.toList ++ (o.tag ++ rest))) =
      (o.dash, o.quote.toList ++ (o.tag ++ rest)) ∧
    takeQuote (o.quote.toList ++ (o.tag ++ rest)) = (o.quote, o.tag ++ rest) := by
  obtain ⟨c, tag, htag⟩ : ∃ c tag, o.tag = c :: tag := by
    cases ht : o.tag with
    | nil =>
      have hhead := o.tag_head
      rw [ht] at hhead
      cases hhead
    | cons c tag => exact ⟨c, tag, rfl⟩
  have hstart : isNameStart c = true := by
    have hhead := o.tag_head
    rw [htag] at hhead
    exact hhead
  constructor
  · have hfront : (o.quote.toList ++ (o.tag ++ rest)).head? ≠ some '-' := by
      intro hhead
      cases hq : o.quote with
      | none =>
        rw [hq, htag] at hhead
        rw [Option.some.inj hhead] at hstart
        cases hstart
      | some q =>
        rw [hq] at hhead
        have hquote := o.quote_isQuote q hq
        rw [Option.some.inj hhead] at hquote
        cases hquote
    cases o.dash with
    | true => rfl
    | false => exact takeDash_of_head hfront
  · cases hq : o.quote with
    | none =>
      rw [htag]
      exact if_neg (by simp [not_isQuote_of_isNameStart hstart])
    | some q => exact if_pos (o.quote_isQuote q hq)

/-- **An opener is found** where it stands; the tag must not run on if it has no quotes. -/
theorem matchOpener_text (o : Opener) (rest : Str)
    (hrest : o.quote = none → rest.head?.any isNameChar = false) :
    matchOpener (o.text ++ rest) = some (o.dash, o.tag, rest) := by
  have htext : o.text ++ rest = '<' :: '<' :: ((if o.dash then ['-'] else []) ++
      (o.quote.toList ++ (o.tag ++ (o.quote.toList ++ rest)))) := by
    unfold Opener.text
    simp only [List.cons_append, List.append_assoc]
  have hend : (o.quote.toList ++ rest).head?.any isNameChar = false := by
    cases hq : o.quote with
    | none => exact hrest hq
    | some q => exact isNameChar_of_isQuote (o.quote_isQuote q hq)
  obtain ⟨hdash, hquote⟩ := takeQuote_takeDash o (o.quote.toList ++ rest)
  obtain ⟨htake, hdrop⟩ := takeWhile_tag o.tag_chars hend
  rw [htext]
  unfold matchOpener
  simp only
  rw [hdash, hquote]
  simp only
  rw [htake, hdrop, if_pos o.tag_head]
  cases hq : o.quote with
  | none => rfl
  | some q => exact if_pos rfl

/-! ## The line -/

/-- A here-document as it is written. -/
structure Doc where
  /-- what stands on the line in front of the opener -/
  gap : Str
  opener : Opener
  body : List Str
  /-- the line that closes it -/
  close : Str
  body_open : ∀ l ∈ body, isTerminator opener.dash opener.tag l = false
  closes : isTerminator opener.dash opener.tag close = true
  body_lines : ∀ l ∈ body, '\n' ∉ l ∧ '\r' ∉ l
  close_line : '\n' ∉ close ∧ '\r' ∉ close

/-- What the parser is to make of it. -/
def Doc.heredoc (d : Doc) : Heredoc :=
  ⟨d.opener.tag, d.opener.dash, bodyText (d.body.map (bodyLine d.opener.dash))⟩

def Doc.lines (d : Doc) : List Str := d.body ++ [d.close]

/-- The operands of the instruction: the openers, and what is written around them. -/
def openLine : List Doc → Str → Str
  | [], tail => tail
  | d :: docs, tail => d.gap ++ (d.opener.text ++ openLine docs tail)

/-- Nothing around the openers is one or a part of one. -/
def Spaced : List Doc → Str → Prop
  | [], tail => ¬ ['<', '<'] <:+: tail
  | d :: docs, tail => ¬ ['<', '<'] <:+: d.gap ++ ['<'] ∧
    (d.opener.quote = none → (openLine docs tail).head?.any isNameChar = false) ∧ Spaced docs tail

/-- A character that opens no document is passed over. -/
theorem extractHeredocTags_cons {c : Char} {s : Str} (h : matchOpener (c :: s) = none) :
    extractHeredocTags (c :: s) = extractHeredocTags s := by
  rw [extractHeredocTags]
  split
  · rename_i hsome
    rw [h] at hsome
    cases hsome
  · rfl

/-- An opener gives its tag, and the search goes on behind it. -/
theorem extractHeredocTags_of_match {s tag rest : Str} {dash : Bool}
    (h : matchOpener s = some (dash, tag, rest)) :
    extractHeredocTags s = (dash, tag) :: extractHeredocTags rest := by
  cases s with
  | nil => cases h
  | cons c s =>
    rw [extractHeredocTags]
    split
    · rename_i hsome
      rw [h] at hsome
      cases hsome
      rfl
    · rename_i hnone
      rw [h] at hnone
      cases hnone

/-- There is no opener without its two signs. -/
theorem matchOpener_eq_none {s : Str} (h : ∀ t, s ≠ '<' :: '<' :: t) : matchOpener s = none := by
  unfold matchOpener
  split
  · exact absurd rfl (h _)
  · rfl

/-- Text without `<<` is passed over. -/
theorem extractHeredocTags_gap {gap rest : Str} (hgap : ¬ ['<', '<'] <:+: gap ++ ['<'])
    (hrest : ∀ c s, rest = c :: s → c = '<' ∨ gap = []) :
    extractHeredocTags (gap ++ rest) = extractHeredocTags rest := by
  induction gap with
  | nil => rfl
  | cons c gap ih =>
    have hnone : matchOpener (c :: (gap ++ rest)) = none := by
      apply matchOpener_eq_none
      intro t ht
      injection ht with hc ht
      apply hgap
      cases gap with
      | nil => exact ⟨[], [], by rw [hc]; rfl⟩
      | cons c' gap =>
        injection ht with hc'
        exact ⟨[], gap ++ ['<'], by rw [hc, hc']; rfl⟩
    rw [List.cons_append, extractHeredocTags_cons hnone]
    apply ih
    · intro hwithin
      exact hgap (hwithin.trans (List.suffix_cons c _).isInfix)
    · intro c' s hs
      rcases hrest c' s hs with h | h
      · exact .inl h
      · cases h

theorem extractHeredocTags_of_no_opener {s : Str} (h : ¬ ['<', '<'] <:+: s) :
    extractHeredocTags s = [] := by
  induction s with
  | nil => rw [extractHeredocTags]
  | cons c s ih =>
    have hnone : matchOpener (c :: s) = none := by
      apply matchOpener_eq_none
      intro t ht
      apply h
      rw [ht]
      exact ⟨[], t, rfl⟩
    rw [extractHeredocTags_cons hnone]
    exact ih fun hwithin => h (hwithin.trans (List.suffix_cons c s).isInfix)

/-- **The openers of a line**, in order. -/
theorem extractHeredocTags_openLine {docs : List Doc} {tail : Str} (h : Spaced docs tail) :
    extractHeredocTags (openLine docs tail) = docs.map fun d => (d.opener.dash, d.opener.tag) := by
  induction docs with
  | nil => exact extractHeredocTags_of_no_opener h
  | cons d docs ih =>
    obtain ⟨hgap, hquote, hrest⟩ := h
    have hhead : ∀ c s, d.opener.text ++ openLine docs tail = c :: s → c = '<' ∨ d.gap = [] := by
      intro c s hs
      injection hs with hc
      exact .inl hc.symm
    show extractHeredocTags (d.gap ++ (d.opener.text ++ openLine docs tail)) = _
    rw [extractHeredocTags_gap hgap hhead,
      extractHeredocTags_of_match (matchOpener_text d.opener _ hquote), ih hrest]
    rfl

/-! ## Bodies -/

/-- **A body is read back**, up to the line that closes it. -/
theorem collectHeredocBody_doc (d : Doc) (more acc : List Str) :
    collectHeredocBody d.opener.dash d.opener.tag (d.lines ++ more) acc =
      .ok (bodyText (acc ++ d.body.map (bodyLine d.opener.dash)), more) := by
  have hopen := d.body_open
  unfold Doc.lines
  generalize d.body = body at hopen
  induction body generalizing acc with
  | nil =>
    show collectHeredocBody _ _ (d.close :: more) acc = _
    rw [collectHeredocBody, if_pos d.closes, List.map_nil, List.append_nil]
  | cons line body ih =>
    have hline := hopen line List.mem_cons_self
    show collectHeredocBody _ _ (line :: (body ++ [d.close] ++ more)) acc = _
    rw [collectHeredocBody, if_neg (by simp [hline]),
      ih _ fun l hl => hopen l (List.mem_cons_of_mem _ hl), List.append_assoc]
    rfl

/-- What was read is a body and a line that closes it. -/
theorem collectHeredocBody_eq_ok {stripIndent : Bool} {tag text : Str} {lines acc rest : List Str}
    (h : collectHeredocBody stripIndent tag lines acc = .ok (text, rest)) :
    ∃ body close, lines = body ++ close :: rest ∧ isTerminator stripIndent tag close = true ∧
      text = bodyText (acc ++ body.map (bodyLine stripIndent)) := by
  induction lines generalizing acc with
  | nil => cases h
  | cons line lines ih =>
    rw [collectHeredocBody] at h
    split at h
    · rename_i hterm
      cases h
      exact ⟨[], line, rfl, hterm, by rw [List.map_nil, List.append_nil]⟩
    · obtain ⟨body, close, rfl, hclose, rfl⟩ := ih h
      refine ⟨line :: body, close, rfl, hclose, ?_⟩
      rw [List.map_cons, List.append_assoc]
      rfl

/-- Stripping a line brings no character into it. -/
theorem notMem_bodyLine {c : Char} {stripIndent : Bool} {line : Str} (h : c ∉ line) :
    c ∉ bodyLine stripIndent line := by
  unfold bodyLine
  split
  · exact fun hmem => h ((List.dropWhile_sublist _).mem hmem)
  · exact h

/-- The text of a body is its lines, each with its end. -/
theorem bodyText_cons (line : Str) (lines : List Str) :
    bodyText (line :: lines) = line ++ '\n' :: bodyText lines := by
  unfold bodyText
  cases lines with
  | nil =>
    rw [List.intercalate_singleton]
    rfl
  | cons line' lines =>
    rw [List.intercalate_cons_cons, if_neg (List.cons_ne_nil _ _), if_neg (List.cons_ne_nil _ _)]
    simp only [List.append_assoc, List.nil_append, List.cons_append]

/-- The number of a body's lines can be read off its text. -/
theorem count_bodyText {lines : List Str} (h : ∀ l ∈ lines, '\n' ∉ l) :
    (bodyText lines).count '\n' = lines.length := by
  induction lines with
  | nil => rfl
  | cons line lines ih =>
    rw [bodyText_cons, List.count_append, List.count_cons_self,
      List.count_eq_zero.mpr (h line List.mem_cons_self),
      ih fun l hl => h l (List.mem_cons_of_mem _ hl), List.length_cons]
    omega

/-- The lines the loop over the openers takes: for each here-document the one it steps over, the
body, and the line that closes it. -/
theorem collectBodies_count {tags : List (Bool × Str)} {lines rest : List Str}
    {heredocs : List Heredoc} (hlines : ∀ l ∈ lines, '\n' ∉ l)
    (h : collectBodies tags lines = .ok (heredocs, rest)) :
    lines.length = rest.length + (heredocs.map fun hd => hd.body.count '\n' + 2).sum := by
  induction tags generalizing lines heredocs with
  | nil =>
    cases h
    rfl
  | cons tag tags ih =>
    obtain ⟨⟨text, lines₁⟩, hbody, h⟩ := Result.bind_ok h
    obtain ⟨⟨heredocs₁, lines₂⟩, hbodies, h⟩ := Result.bind_ok h
    cases h
    obtain ⟨body, close, htail, -, rfl⟩ := collectHeredocBody_eq_ok hbody
    cases lines with
    | nil => cases body <;> cases htail
    | cons line lines =>
      have htail : lines = body ++ close :: lines₁ := htail
      have hmem : ∀ l ∈ lines, '\n' ∉ l := fun l hl => hlines l (List.mem_cons_of_mem _ hl)
      have hrest := ih (fun l hl => hmem l (by rw [htail]; simp [hl])) hbodies
      have hcount : (bodyText ([] ++ body.map (bodyLine tag.1))).count '\n' = body.length := by
        rw [List.nil_append, count_bodyText, List.length_map]
        intro l hl
        obtain ⟨l', hl', rfl⟩ := List.mem_map.mp hl
        exact notMem_bodyLine (hmem l' (by rw [htail]; simp [hl']))
      show lines.length + 1 = _
      rw [htail, List.map_cons, List.sum_cons, hcount, List.length_append, List.length_cons, hrest]
      omega

/-- The loop ends behind a line that closes the last here-document. -/
theorem collectBodies_close {tags : List (Bool × Str)} {lines rest : List Str}
    {heredocs : List Heredoc} (hne : tags ≠ [])
    (h : collectBodies tags lines = .ok (heredocs, rest)) :
    ∃ before close, lines = before ++ close :: rest ∧
      ∃ tag ∈ tags, isTerminator tag.1 tag.2 close = true := by
  induction tags generalizing lines heredocs with
  | nil => exact absurd rfl hne
  | cons tag tags ih =>
    obtain ⟨⟨text, lines₁⟩, hbody, h⟩ := Result.bind_ok h
    obtain ⟨⟨heredocs₁, lines₂⟩, hbodies, h⟩ := Result.bind_ok h
    cases h
    obtain ⟨body, close, htail, hclose, -⟩ := collectHeredocBody_eq_ok hbody
    cases lines with
    | nil => cases body <;> cases htail
    | cons line lines =>
      have htail : lines = body ++ close :: lines₁ := htail
      by_cases htags : tags = []
      · subst htags
        cases hbodies
        exact ⟨line :: body, close, by rw [htail]; rfl, tag, List.mem_cons_self, hclose⟩
      · obtain ⟨before, close', hlines, tag', htag', hclose'⟩ := ih htags hbodies
        refine ⟨line :: (body ++ close :: before), close', ?_, tag', List.mem_cons_of_mem _ htag',
          hclose'⟩
        rw [htail, hlines]
        simp

/-! ## The lines that close -/

/-- A line that closes a here-document is its tag, with tabs in front and space behind. -/
theorem eq_of_isTerminator {stripIndent : Bool} {tag line : Str}
    (h : isTerminator stripIndent tag line = true) :
    ∃ tabs space, line = tabs ++ (tag ++ space) ∧ (∀ c ∈ tabs, Text.isSpace c = true) ∧
      ∀ c ∈ space, Text.isSpace c = true := by
  have hbare : ∃ space, bodyLine stripIndent line = tag ++ space ∧
      ∀ c ∈ space, Text.isSpace c = true := by
    unfold isTerminator at h
    rcases Bool.or_eq_true_iff.mp h with heq | heq
    · exact ⟨[], by rw [List.append_nil, beq_iff_eq.mp heq], fun c hc => absurd hc List.not_mem_nil⟩
    · have hr := beq_iff_eq.mp heq
      unfold Text.rstrip at hr
      refine ⟨(bodyLine stripIndent line).rtakeWhile Text.isSpace, ?_, ?_⟩
      · rw [← hr, List.rdropWhile_append_rtakeWhile]
      · intro c hc
        exact List.mem_rtakeWhile_imp hc
  obtain ⟨space, hline, hspace⟩ := hbare
  unfold bodyLine at hline
  split at hline
  · refine ⟨line.takeWhile (· == '\t'), space, ?_, ?_, hspace⟩
    · rw [← hline, List.takeWhile_append_dropWhile]
    · intro c hc
      have htab := @List.mem_takeWhile_imp _ (· == '\t') line c hc
      rw [beq_iff_eq.mp htab]
      decide
  · exact ⟨[], space, hline, fun c hc => absurd hc List.not_mem_nil, hspace⟩

/-- The characters of a tag lie in the ASCII range. -/
theorem isNameChar_toNat {c : Char} (h : isNameChar c = true) : 48 ≤ c.toNat ∧ c.toNat ≤ 122 := by
  have hle : ∀ a b : Char, a ≤ b → a.toNat ≤ b.toNat := fun a b hab => hab
  unfold isNameChar isNameStart at h
  simp only [Bool.or_eq_true, Bool.and_eq_true, decide_eq_true_eq, beq_iff_eq] at h
  rcases h with ((⟨hlo, hhi⟩ | ⟨hlo, hhi⟩) | rfl) | ⟨hlo, hhi⟩
  · have hlo := hle _ _ hlo
    have hhi := hle _ _ hhi
    have : 'A'.toNat = 65 ∧ 'Z'.toNat = 90 := ⟨rfl, rfl⟩
    omega
  · have hlo := hle _ _ hlo
    have hhi := hle _ _ hhi
    have : 'a'.toNat = 97 ∧ 'z'.toNat = 122 := ⟨rfl, rfl⟩
    omega
  · decide
  · have hlo := hle _ _ hlo
    have hhi := hle _ _ hhi
    have : '0'.toNat = 48 ∧ '9'.toNat = 57 := ⟨rfl, rfl⟩
    omega

/-- Those that are blank lie outside its letters and digits. -/
theorem isSpace_toNat {c : Char} (h : Text.isSpace c = true) : c.toNat ≤ 32 ∨ 133 ≤ c.toNat := by
  unfold Text.isSpace at h
  rcases Bool.or_eq_true_iff.mp h with hmem | hrange
  · simp only [List.mem_cons, List.not_mem_nil, or_false, decide_eq_true_eq] at hmem
    rcases hmem with rfl | rfl | rfl | rfl | rfl | rfl | rfl | rfl | rfl | rfl | rfl | rfl | rfl |
      rfl | rfl | rfl | rfl | rfl <;> decide
  · have hlo : '\u2000' ≤ c := of_decide_eq_true (Bool.and_eq_true_iff.mp hrange).1
    have hle : '\u2000'.toNat ≤ c.toNat := hlo
    have : '\u2000'.toNat = 8192 := rfl
    omega

theorem not_isSpace_of_isNameChar {c : Char} (h : isNameChar c = true) : Text.isSpace c = false := by
  cases hs : Text.isSpace c with
  | false => rfl
  | true =>
    have hname := isNameChar_toNat h
    have hspace := isSpace_toNat hs
    omega

/-- Such a line is neither blank nor a comment, and does not go on. -/
theorem isTerminator_plain {stripIndent : Bool} {tag line : Str}
    (h : isTerminator stripIndent tag line = true) (hhead : tag.head?.any isNameStart = true)
    (htag : ∀ c ∈ tag, isNameChar c = true) :
    isSkipped line = false ∧ endsWithEscape '\\' line = false := by
  obtain ⟨tabs, space, rfl, htabs, hspace⟩ := eq_of_isTerminator h
  cases hcases : tag with
  | nil =>
    rw [hcases] at hhead
    cases hhead
  | cons c tag' =>
    have hstart : isNameStart c = true := by
      rw [hcases] at hhead
      exact hhead
    have hname : ∀ d ∈ c :: tag', isNameChar d = true := hcases ▸ htag
    have hc : Text.isSpace c = false := not_isSpace_of_isNameChar (hname c List.mem_cons_self)
    -- the tag starts with a letter or an underscore, so the line is no comment
    constructor
    · have hstrip : Text.lstrip (tabs ++ (c :: tag' ++ space)) = c :: tag' ++ space := by
        unfold Text.lstrip
        rw [List.dropWhile_append_of_pos htabs, List.cons_append,
          List.dropWhile_cons_of_neg (by simp [hc])]
      unfold isSkipped
      rw [hstrip]
      show (c == '#') = false
      rw [beq_eq_false_iff_ne]
      rintro rfl
      cases hstart
    · -- the last character that is no space belongs to the tag
      have hlast : Text.rstrip (tabs ++ (c :: tag' ++ space)) = tabs ++ c :: tag' := by
        rw [← List.append_assoc, Text.rstrip_append hspace]
        obtain ⟨init, d, hd⟩ : ∃ init d, c :: tag' = init ++ [d] :=
          ⟨_, _, (List.dropLast_append_getLast (List.cons_ne_nil c tag')).symm⟩
        have hmem : d ∈ c :: tag' := by
          rw [hd]
          simp
        rw [hd, ← List.append_assoc]
        exact Text.rstrip_concat (not_isSpace_of_isNameChar (hname d hmem))
      unfold endsWithEscape
      rw [hlast, List.reverse_append]
      have hnone : ((c :: tag').reverse ++ tabs.reverse).takeWhile (· == '\\') = [] := by
        cases hrev : (c :: tag').reverse with
        | nil => exact absurd (List.reverse_eq_nil_iff.mp hrev) (List.cons_ne_nil c tag')
        | cons d rest =>
          have hd : isNameChar d = true := hname d (List.mem_reverse.mp (by rw [hrev]; simp))
          rw [List.cons_append, List.takeWhile_cons_of_neg]
          intro heq
          rw [beq_iff_eq.mp heq] at hd
          cases hd
      rw [hnone]
      rfl

/-! ## Instructions in front of a line -/

section Before

variable {loads : Str → Option Json} {esc : Char} {lineno : Nat}

/-- A continuation does not go past a line that stands for itself. -/
theorem logicalLine_ne_nil {cur c : Str} {rest : List Str} (hc : c ∈ cur :: rest)
    (hskip : isSkipped c = false) (hends : endsWithEscape esc c = false) :
    (logicalLine esc cur rest).2 ≠ [] := by
  fun_induction logicalLine esc cur rest with
  | case1 cur rest hescape hdrop =>
    rcases List.mem_cons.mp hc with rfl | hc
    · rw [hends] at hescape
      cases hescape
    · rw [List.dropWhile_eq_nil_iff.mp hdrop c hc] at hskip
      cases hskip
  | case2 cur rest hescape next rest' hdrop parts last hlast ih =>
    rcases List.mem_cons.mp hc with rfl | hc
    · rw [hends] at hescape
      cases hescape
    · rw [← @List.takeWhile_append_dropWhile _ isSkipped rest, hdrop, List.mem_append] at hc
      rw [hlast] at ih
      rcases hc with htake | hmem
      · rw [List.mem_takeWhile_imp htake] at hskip
        cases hskip
      · exact ih hmem
  | case3 cur rest => exact List.cons_ne_nil _ _

/-- The last part of a logical line that ends is the line as it stands. -/
theorem logicalLine_part {cur : Str} {rest : List Str} (hcur : isSkipped cur = false)
    (h : (logicalLine esc cur rest).2 ≠ []) :
    ∃ t ∈ (logicalLine esc cur rest).1, isSkipped t = false := by
  fun_induction logicalLine esc cur rest with
  | case1 => exact absurd rfl h
  | case2 cur rest _ next rest' hdrop parts last hlast ih =>
    have hnext : isSkipped next = false := by
      have hhead := List.head?_dropWhile_not isSkipped rest
      rw [hdrop] at hhead
      simpa using hhead
    rw [hlast] at ih
    obtain ⟨t, ht, hskip⟩ := ih hnext h
    exact ⟨t, List.mem_cons_of_mem _ ht, hskip⟩
  | case3 cur rest => exact ⟨cur, List.mem_singleton.mpr rfl, hcur⟩

/-- A line that is not passed over has a character that is no space. -/
theorem exists_char_of_not_skipped {line : Str} (h : isSkipped line = false) :
    ∃ c ∈ line, Text.isSpace c = false := by
  unfold isSkipped at h
  split at h
  · cases h
  · rename_i c s hs
    exact ⟨c, (List.dropWhile_sublist _).mem (by rw [show line.dropWhile _ = c :: s from hs]; simp),
      Text.lstrip_head hs⟩

/-- A logical line that starts with an instruction is not empty. -/
theorem joinParts_ne_nil {cur : Str} {rest : List Str} (hcur : isSkipped cur = false)
    (h : (logicalLine esc cur rest).2 ≠ []) : joinParts (logicalLine esc cur rest).1 ≠ [] := by
  obtain ⟨t, ht, hskip⟩ := logicalLine_part hcur h
  obtain ⟨c, hc, hspace⟩ := exists_char_of_not_skipped hskip
  have hpart : c ∈ Text.strip t := Text.mem_strip hc hspace
  have hmem : c ∈ joinParts (logicalLine esc cur rest).1 :=
    Text.mem_strip (Text.mem_intercalate (List.mem_map.mpr ⟨t, ht, rfl⟩) hpart) hspace
  exact List.ne_nil_of_mem hmem

/-- **An instruction begins** no later than on a line that stands for itself. -/
theorem exists_instruction_before {before after : List Str} {c : Str} {is : List Instruction}
    (hskip : isSkipped c = false) (hends : endsWithEscape esc c = false)
    (h : parseInstructions loads esc (before ++ c :: after) lineno = .ok is) :
    ∃ i ∈ is, i.lineno ≤ lineno + before.length := by
  induction before generalizing lineno is with
  | nil =>
    obtain ⟨o, next, is', hstep, -, rfl⟩ := parseInstructions_cons_eq_ok h
    cases o with
    | some i => exact ⟨i, List.mem_cons_self, Nat.le_of_eq (parseStep_lineno hstep)⟩
    | none =>
      have hne := logicalLine_ne_nil (@List.mem_cons_self _ c after) hskip hends
      unfold parseStep at hstep
      rw [if_neg (by simp [hskip])] at hstep
      simp only at hstep
      rw [if_neg (joinParts_ne_nil hskip hne)] at hstep
      obtain ⟨r, -, hr⟩ := Result.map_ok hstep
      cases hr
  | cons line before ih =>
    rw [List.cons_append] at h
    obtain ⟨o, next, is', hstep, his, rfl⟩ := parseInstructions_cons_eq_ok h
    cases o with
    | some i =>
      have hi := parseStep_lineno hstep
      exact ⟨i, List.mem_cons_self, by omega⟩
    | none =>
      -- without an instruction the turn passed over one line only
      have hnext : next = before ++ c :: after := by
        unfold parseStep at hstep
        split at hstep
        · cases hstep
          rfl
        · rename_i hline
          have hline : isSkipped line = false := Bool.eq_false_iff.mpr hline
          have hmem : c ∈ line :: (before ++ c :: after) := by simp
          have hne := logicalLine_ne_nil hmem hskip hends
          simp only at hstep
          rw [if_neg (joinParts_ne_nil hline hne)] at hstep
          obtain ⟨r, -, hr⟩ := Result.map_ok hstep
          cases hr
      rw [hnext] at his
      obtain ⟨i, hi, hle⟩ := ih his
      refine ⟨i, hi, ?_⟩
      rw [List.length_cons]
      omega

end Before

/-! ## The text -/

section Text

/-- A text without CR keeps its line ends. -/
theorem normalizeNewlines_of_notMem {s : Str} (h : '\r' ∉ s) : normalizeNewlines s = s := by
  fun_induction normalizeNewlines s with
  | case1 => rfl
  | case2 s ih => exact absurd List.mem_cons_self h
  | case3 s hnot ih => exact absurd List.mem_cons_self h
  | case4 c s hnot hnot' ih => rw [ih fun hmem => h (List.mem_cons_of_mem _ hmem)]

/-- Lines, each of them ended, and a text behind them. -/
def endLines (lines : List Str) (R : Str) : Str := lines.foldr (fun l t => l ++ '\n' :: t) R

/-- The lines of a text that stands behind another. -/
def restLines (R : Str) : List Str := (normalizeNewlines R).splitOn '\n'

/-- Lines that are written are the lines read. -/
theorem restLines_endLines {lines : List Str} (h : ∀ l ∈ lines, '\n' ∉ l ∧ '\r' ∉ l) (R : Str) :
    restLines (endLines lines R) = lines ++ restLines R := by
  induction lines with
  | nil => rfl
  | cons l lines ih =>
    obtain ⟨hlf, hcr⟩ := h l List.mem_cons_self
    have hlast : l.getLast? ≠ some '\r' := fun hl => hcr (List.mem_of_getLast? hl)
    have hih := ih fun l' hl' => h l' (List.mem_cons_of_mem _ hl')
    show (normalizeNewlines (l ++ '\n' :: endLines lines R)).splitOn '\n' = _
    rw [normalizeNewlines_append hlast, normalizeNewlines_of_notMem hcr,
      List.splitOn_append_cons_self]
    show l.splitOn '\n' ++ restLines (endLines lines R) = _
    rw [hih, List.splitOn_eq_singleton hlf]
    rfl

/-- The text of an instruction with here-documents, and a text behind it. -/
def docText (line : Str) (docs : List Doc) (R : Str) : Str :=
  endLines (line :: docs.flatMap Doc.lines) R

/-- The lines of the documents have no line end inside. -/
theorem docLines_plain {docs : List Doc} : ∀ l ∈ docs.flatMap Doc.lines, '\n' ∉ l ∧ '\r' ∉ l := by
  intro l hl
  obtain ⟨d, -, hd⟩ := List.mem_flatMap.mp hl
  rcases List.mem_append.mp hd with hbody | hclose
  · exact d.body_lines l hbody
  · rw [List.mem_singleton.mp hclose]
    exact d.close_line

/-- A keyword begins with a letter. -/
theorem ofName_upper {w : Str} {k : Keyword} (h : Keyword.ofName (upper w) = some k) :
    ∃ c s, w = c :: s ∧ c ≠ '#' ∧ c ≠ '\ufeff' := by
  have hname : k.name = upper w := by
    have hfound := List.find?_some h
    exact of_decide_eq_true hfound
  have hletter : ∀ c s, k.name = c :: s → c ≠ '#' ∧ c ≠ '\ufeff' := by
    intro c s hk
    cases k <;> (injection hk with hc; rw [← hc]; decide)
  cases w with
  | nil =>
    cases k <;> cases hname
  | cons c s =>
    refine ⟨c, s, rfl, ?_, ?_⟩
    · rintro rfl
      exact (hletter '#' (upper s) hname).1 rfl
    · rintro rfl
      exact (hletter '\ufeff' (upper s) hname).2 rfl

/-- What the line of an instruction looks like to the readers that come before its own. -/
theorem readHeader_line {line : Str} {lineno : Nat} {h : Header}
    (hline : readHeader (joinParts [line]) lineno = .ok h) :
    ∃ c s, Text.strip line = c :: s ∧ isSkipped line = false ∧ directive line = none ∧
      line.head? ≠ some '\ufeff' ∧ joinParts [line] ≠ [] := by
  -- a keyword is read, so the line starts with its first character
  have hjoin : joinParts [line] = Text.strip line := by
    unfold joinParts
    rw [List.map_singleton, List.intercalate_singleton, Text.strip_strip]
  obtain ⟨k, hk⟩ : ∃ k, Keyword.ofName (upper (splitWord (joinParts [line])).1) = some k := by
    unfold readHeader at hline
    split at hline
    · cases hline
    · rename_i hk
      exact ⟨_, hk⟩
    · rename_i hk
      exact ⟨_, hk⟩
  obtain ⟨c, s, hword, hhash, hbom⟩ := ofName_upper hk
  rw [hjoin] at hword ⊢
  have hstrip : ∃ t, Text.strip line = c :: t := by
    cases ht : Text.strip line with
    | nil =>
      rw [ht] at hword
      cases hword
    | cons d t =>
      unfold splitWord at hword
      rw [ht] at hword
      have hd : ∃ u, (d :: t).takeWhile (!Text.isSpace ·) ++ u = d :: t :=
        ⟨_, List.takeWhile_append_dropWhile⟩
      obtain ⟨u, hu⟩ := hd
      rw [show (d :: t).takeWhile (!Text.isSpace ·) = c :: s from hword] at hu
      injection hu with hc
      exact ⟨t, by rw [hc]⟩
  obtain ⟨t, ht⟩ := hstrip
  obtain ⟨u, hfront⟩ : ∃ u, Text.lstrip line = c :: u := by
    obtain ⟨u, hu⟩ : Text.strip line <+: Text.lstrip line := List.rdropWhile_prefix _ _
    rw [ht] at hu
    exact ⟨t ++ u, hu.symm⟩
  -- which is neither a hash nor a byte order mark
  refine ⟨c, t, ht, ?_, ?_, ?_, ?_⟩
  · unfold isSkipped
    rw [hfront]
    exact beq_eq_false_iff_ne.mpr hhash
  · unfold directive
    rw [ht]
    split
    · rename_i inner heq
      injection heq with hc
      exact absurd hc hhash
    · rfl
  · intro hhead
    cases line with
    | nil => cases hhead
    | cons d rest =>
      have hd : d = '\ufeff' := Option.some.inj hhead
      rw [hd, Text.lstrip_cons (by decide)] at hfront
      injection hfront with hc
      exact hbom hc.symm
  · rw [ht]
    exact List.cons_ne_nil _ _

variable {loads : Str → Option Json} {line R tail : Str} {docs : List Doc} {h : Header}

/-- The text is read by the loop over the openers and the parser's loop behind it. -/
theorem parseDockerfile_docText (hline : readHeader (joinParts [line]) 1 = .ok h)
    (hname : takesHeredocs h.name = true) (hvalue : h.value = openLine docs tail)
    (hspaced : Spaced docs tail) (hne : docs ≠ []) (hends : endsWithEscape '\\' line = false)
    (hplain : '\n' ∉ line ∧ '\r' ∉ line) :
    parseDockerfile loads (docText line docs R) =
      match collectBodies (docs.map fun d => (d.opener.dash, d.opener.tag))
        (line :: (docs.flatMap Doc.lines ++ restLines R)) with
      | .error e => .error e
      | .ok (heredocs, last) =>
        (parseInstructions loads '\\' last
          (1 + ((docs.flatMap Doc.lines ++ restLines R).length + 1 - last.length))).map fun is =>
            ([], h.instruction loads heredocs 1 (joinParts [line]) :: is) := by
  obtain ⟨c, s, hstrip, hskip, hdir, hbom, htext⟩ := readHeader_line hline
  have hall : ∀ l ∈ line :: docs.flatMap Doc.lines, '\n' ∉ l ∧ '\r' ∉ l := by
    intro l hl
    rcases List.mem_cons.mp hl with rfl | hl
    · exact hplain
    · exact docLines_plain l hl
  -- the text is split where it was joined
  have hlines : rawLines (docText line docs R) =
      line :: (docs.flatMap Doc.lines ++ restLines R) := by
    have hhead : (docText line docs R).head? ≠ some '\ufeff' := by
      cases hl : line with
      | nil =>
        rw [hl] at hstrip
        cases hstrip
      | cons d rest =>
        rw [hl] at hbom
        exact hbom
    have hrest := restLines_endLines hall R
    unfold rawLines
    rw [dropBom_of_head (normalizeNewlines_head hhead)]
    exact hrest
  -- the instruction's line ends the directives, and is a logical line of its own
  have hzone : parseDirectives (line :: (docs.flatMap Doc.lines ++ restLines R)) [] = ([], 0) := by
    rw [parseDirectives, if_neg (by rw [hstrip]; exact List.cons_ne_nil _ _), hdir]
  have htags : h.tags = docs.map fun d => (d.opener.dash, d.opener.tag) := by
    unfold Header.tags
    rw [if_pos hname, hvalue, extractHeredocTags_openLine hspaced]
  have hread : ∀ lines, readHeredocs h lines =
      collectBodies (docs.map fun d => (d.opener.dash, d.opener.tag)) lines := by
    intro lines
    unfold readHeredocs
    rw [htags, if_neg]
    exact fun hnil => hne (List.map_eq_nil_iff.mp hnil)
  have hlogical : ∀ rest, logicalLine '\\' line rest = ([line], line :: rest) := by
    intro rest
    rw [logicalLine, if_neg (by simp [hends])]
  -- the first step reads the bodies behind it
  have hstep : ∀ rest, parseStep loads '\\' line rest 1 =
      (collectBodies (docs.map fun d => (d.opener.dash, d.opener.tag)) (line :: rest)).map fun r =>
        (some (h.instruction loads r.1 1 (joinParts [line])), r.2) := by
    intro rest
    unfold parseStep
    rw [if_neg (by simp [hskip])]
    simp only
    rw [hlogical, if_neg htext]
    unfold readInstruction
    rw [hline]
    show (((readHeredocs h (line :: rest)).bind _).map _) = _
    rw [hread]
    cases collectBodies (docs.map fun d => (d.opener.dash, d.opener.tag)) (line :: rest) <;> rfl
  unfold parseDockerfile
  simp only
  rw [hlines, hzone]
  show (parseInstructions loads '\\' (line :: (docs.flatMap Doc.lines ++ restLines R)) 1).map _ = _
  have hone := hstep (docs.flatMap Doc.lines ++ restLines R)
  cases hcollect : collectBodies (docs.map fun d => (d.opener.dash, d.opener.tag))
      (line :: (docs.flatMap Doc.lines ++ restLines R)) with
  | error e =>
    rw [hcollect] at hone
    rw [parseInstructions_cons_error hone]
    rfl
  | ok r =>
    rw [hcollect] at hone
    rw [parseInstructions_cons hone]
    show Except.map _ (Except.map _ (parseInstructions loads '\\' r.2 _)) =
      Except.map _ (parseInstructions loads '\\' r.2 _)
    cases parseInstructions loads '\\' r.2
      (1 + ((docs.flatMap Doc.lines ++ restLines R).length + 1 - r.2.length)) <;> rfl

/-! ## The law -/

/-- What the text of one instruction with here-documents and a text behind it is to be read as:
one instruction with those here-documents, and behind it the instructions of the rest. -/
def ReadsBack (loads : Str → Option Json) (line : Str) (docs : List Doc) (R : Str) : Prop :=
  ∀ rest, parseInstructions loads '\\' (restLines R) 1 = .ok rest →
    ∃ r : Record, r.heredocs = docs.map Doc.heredoc ∧
      parseDockerfile loads (docText line docs R) =
        .ok ([], .plain r :: rest.map (·.shift (1 + (docs.flatMap Doc.lines).length)))

/-- The instruction that is not `ONBUILD` has the documents it was given. -/
theorem instruction_plain (honbuild : h.onbuild = false) (heredocs : List Heredoc) (lineno : Nat)
    (raw : Str) : ∃ r : Record, h.instruction loads heredocs lineno raw = .plain r ∧
      r.heredocs = heredocs := by
  unfold Header.instruction
  rw [honbuild]
  exact ⟨_, rfl, rfl⟩

/-- One here-document is read back. -/
theorem readsBack_one {d : Doc} (hline : readHeader (joinParts [line]) 1 = .ok h)
    (hname : takesHeredocs h.name = true) (honbuild : h.onbuild = false)
    (hvalue : h.value = openLine [d] tail) (hspaced : Spaced [d] tail)
    (hends : endsWithEscape '\\' line = false) (hplain : '\n' ∉ line ∧ '\r' ∉ line) :
    ReadsBack loads line [d] R := by
  intro rest hrest
  obtain ⟨r, hr, hheredocs⟩ := @instruction_plain loads h honbuild [d.heredoc] 1 (joinParts [line])
  have hcollect : collectBodies ([d].map fun d => (d.opener.dash, d.opener.tag))
      (line :: ([d].flatMap Doc.lines ++ restLines R)) = .ok ([d.heredoc], restLines R) := by
    have hbody := collectHeredocBody_doc d (restLines R) []
    show (collectHeredocBody d.opener.dash d.opener.tag
      ([d].flatMap Doc.lines ++ restLines R) []).bind _ = _
    rw [List.flatMap_singleton, hbody]
    rfl
  have hcount : 1 + (([d].flatMap Doc.lines ++ restLines R).length + 1 - (restLines R).length) =
      1 + (1 + ([d].flatMap Doc.lines).length) := by
    rw [List.length_append]
    omega
  refine ⟨r, hheredocs, ?_⟩
  rw [parseDockerfile_docText hline hname hvalue hspaced (List.cons_ne_nil _ _) hends hplain,
    hcollect]
  show Except.map _ (parseInstructions loads '\\' (restLines R) _) = _
  rw [hcount, parseInstructions_add, hrest, hr]
  rfl

/-- The lines of a here-document that is read as it was written. -/
theorem sum_heredocs (docs : List Doc) :
    ((docs.map Doc.heredoc).map fun hd => hd.body.count '\n' + 2).sum =
      (docs.flatMap Doc.lines).length + docs.length := by
  induction docs with
  | nil => rfl
  | cons d docs ih =>
    have hcount : d.heredoc.body.count '\n' = d.body.length := by
      unfold Doc.heredoc
      simp only
      rw [count_bodyText, List.length_map]
      intro l hl
      obtain ⟨l', hl', rfl⟩ := List.mem_map.mp hl
      exact notMem_bodyLine (d.body_lines l' hl').1
    rw [List.map_cons, List.map_cons, List.sum_cons, ih, List.flatMap_cons, List.length_append,
      hcount, List.length_cons]
    unfold Doc.lines
    rw [List.length_append, List.length_singleton]
    omega

/-- Behind the first here-document the parser's place is off by a line, and by one more behind
each other. So it would end in the text that follows, behind an instruction of it. -/
theorem not_readsBack {rest : List Instruction} (hline : readHeader (joinParts [line]) 1 = .ok h)
    (hname : takesHeredocs h.name = true) (honbuild : h.onbuild = false)
    (hvalue : h.value = openLine docs tail) (hspaced : Spaced docs tail) (hmany : 2 ≤ docs.length)
    (hends : endsWithEscape '\\' line = false) (hplain : '\n' ∉ line ∧ '\r' ∉ line)
    (hrest : parseInstructions loads '\\' (restLines R) 1 = .ok rest) :
    ¬ ReadsBack loads line docs R := by
  intro hback
  have hne : docs ≠ [] := List.ne_nil_of_length_pos (by omega)
  obtain ⟨r, hheredocs, hparse⟩ := hback rest hrest
  rw [parseDockerfile_docText hline hname hvalue hspaced hne hends hplain] at hparse
  cases hcollect : collectBodies (docs.map fun d => (d.opener.dash, d.opener.tag))
      (line :: (docs.flatMap Doc.lines ++ restLines R)) with
  | error e =>
    rw [hcollect] at hparse
    cases hparse
  | ok collected =>
    obtain ⟨heredocs, last⟩ := collected
    rw [hcollect] at hparse
    obtain ⟨is, his, heq⟩ := Result.map_ok hparse
    obtain ⟨r', hr', hdocs'⟩ :=
      @instruction_plain loads h honbuild heredocs 1 (joinParts [line])
    rw [hr', Prod.mk.injEq, List.cons.injEq, Instruction.plain.injEq] at heq
    obtain ⟨-, hrr, hshift⟩ := heq
    have hread : heredocs = docs.map Doc.heredoc := by
      rw [← hdocs', hrr, hheredocs]
    -- how many lines were taken, and how many there are
    have hlf : ∀ l ∈ line :: (docs.flatMap Doc.lines ++ restLines R), '\n' ∉ l := by
      intro l hl
      rcases List.mem_cons.mp hl with rfl | hl
      · exact hplain.1
      · rcases List.mem_append.mp hl with hdoc | hafter
        · exact (docLines_plain l hdoc).1
        · exact Text.notMem_of_mem_splitOn hafter
    have hcount := collectBodies_count hlf hcollect
    rw [hread, sum_heredocs, List.length_cons, List.length_append] at hcount
    -- the line in front of where it ended closes a here-document and stands in the text behind
    have htags : (docs.map fun d => (d.opener.dash, d.opener.tag)) ≠ [] := fun hnil =>
      hne (List.map_eq_nil_iff.mp hnil)
    obtain ⟨before, close, hlines, tag, htag, hclose⟩ := collectBodies_close htags hcollect
    obtain ⟨d, -, rfl⟩ := List.mem_map.mp htag
    obtain ⟨hskip, hescape⟩ := isTerminator_plain hclose d.opener.tag_head d.opener.tag_chars
    have hsuffix : close :: last <:+ restLines R := by
      have hall : close :: last <:+ line :: (docs.flatMap Doc.lines ++ restLines R) :=
        ⟨before, hlines.symm⟩
      have hrestSuffix : restLines R <:+ line :: (docs.flatMap Doc.lines ++ restLines R) :=
        ⟨line :: docs.flatMap Doc.lines, rfl⟩
      apply List.suffix_of_suffix_length_le hall hrestSuffix
      rw [List.length_cons]
      omega
    obtain ⟨front, hfront⟩ := hsuffix
    -- an instruction of the text behind begins there or before, and is not among those read
    rw [← hfront] at hrest
    obtain ⟨i, hi, hle⟩ := exists_instruction_before hskip hescape hrest
    have hmem : i.shift (1 + (docs.flatMap Doc.lines).length) ∈ is := by
      rw [hshift]
      exact List.mem_map.mpr ⟨i, hi, rfl⟩
    have hge := (parseInstructions_increasing his).1 _ hmem
    have hline' : (i.shift (1 + (docs.flatMap Doc.lines).length)).lineno =
        i.lineno + (1 + (docs.flatMap Doc.lines).length) := by cases i <;> rfl
    have hlen : front.length + (1 + last.length) = (restLines R).length := by
      rw [← hfront, List.length_append, List.length_cons, Nat.add_comm 1]
    rw [hline', List.length_append] at hge
    omega

/-- **Here-documents are read back** as they were written, with the text behind them, if and only
if there is one of them. -/
theorem heredocs_round_trip_iff (loads : Str → Option Json) (line R tail : Str) (docs : List Doc)
    (h : Header) (rest : List Instruction) (hline : readHeader (joinParts [line]) 1 = .ok h)
    (hname : takesHeredocs h.name = true) (honbuild : h.onbuild = false)
    (hvalue : h.value = openLine docs tail) (hspaced : Spaced docs tail) (hne : docs ≠ [])
    (hends : endsWithEscape '\\' line = false) (hplain : '\n' ∉ line ∧ '\r' ∉ line)
    (hrest : parseInstructions loads '\\' (restLines R) 1 = .ok rest) :
    ReadsBack loads line docs R ↔ docs.length = 1 := by
  constructor
  · intro hback
    by_contra hone
    have hpos : 0 < docs.length := List.length_pos_of_ne_nil hne
    exact not_readsBack hline hname honbuild hvalue hspaced (by omega) hends hplain hrest hback
  · intro hone
    obtain ⟨d, rfl⟩ := List.length_eq_one_iff.mp hone
    exact readsBack_one hline hname honbuild hvalue hspaced hends hplain

/-- `<<A` with one line. -/
def docA : Doc where
  gap := []
  opener := ⟨false, none, ['A'], nofun, rfl, List.all_eq_true.mp rfl⟩
  body := ["x".toList]
  close := ['A']
  body_open := by decide
  closes := by decide
  body_lines := by decide
  close_line := by decide

/-- ` <<-"B"` with two lines, the first of them behind a tab. -/
def docB : Doc where
  gap := [' ']
  opener := ⟨true, some '"', ['B'], fun q hq => by cases hq; rfl, rfl, List.all_eq_true.mp rfl⟩
  body := ["\ty".toList, "z".toList]
  close := ['B']
  body_open := by decide
  closes := by decide
  body_lines := by decide
  close_line := by decide

theorem heredocs_round_trip_iff_one : ReadsBack noJson "RUN cat <<A".toList
    [{ docA with gap := "cat ".toList }] "CMD q".toList :=
  (heredocs_round_trip_iff noJson "RUN cat <<A".toList "CMD q".toList []
    [{ docA with gap := "cat ".toList }] ⟨false, .RUN, [], "cat <<A".toList⟩
    [.plain ⟨.CMD, [], .text "q".toList, [], 1, "CMD q".toList⟩] (by decide +kernel) rfl rfl
    (by decide +kernel) ⟨by decide, fun _ => rfl, show ¬ ['<', '<'] <:+: [] by decide⟩ (by decide)
    (by decide +kernel)
    (by decide) (by decide +kernel)).mpr rfl

/-- **The second body loses its first line.** -/
theorem heredocs_lose_line :
    parseDockerfile noJson "RUN <<A <<-\"B\"\nx\nA\n\ty\nz\nB\nCMD q".toList =
      .ok ([], [.plain ⟨.RUN, [], .text "<<A <<-\"B\"".toList,
          [⟨['A'], false, "x\n".toList⟩, ⟨['B'], true, "z\n".toList⟩], 1,
          "RUN <<A <<-\"B\"".toList⟩,
        .plain ⟨.CMD, [], .text "q".toList, [], 7, "CMD q".toList⟩]) ∧
    docText "RUN <<A <<-\"B\"".toList [docA, docB] "CMD q".toList =
      "RUN <<A <<-\"B\"\nx\nA\n\ty\nz\nB\nCMD q".toList ∧
    [docA, docB].map Doc.heredoc =
      [⟨['A'], false, "x\n".toList⟩, ⟨['B'], true, "y\nz\n".toList⟩] := by
  refine ⟨?_, ?_, ?_⟩ <;> decide +kernel

end Text

end Dockerfile

end ProotDistro
