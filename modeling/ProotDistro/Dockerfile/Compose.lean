import ProotDistro.Dockerfile.Parser

/-!
# `dockerfile`: one text behind the other

The parser carries nothing from one instruction to the next but the escape character and the
number of the line, so what stands in a file is read no matter what follows it, as long as no
continuation is open at the end.

* **`parseStep_append`** — a turn on more lines is the turn on fewer, with the rest left over.
* **`parseInstructions_append`** — and so for the loop.
* **`parseInstructions_add`** — where in the file the lines stand shows in the line numbers only.
* **`parseInstructions_increasing`** — line numbers strictly increase.
* **`parseDockerfile_append`** — two texts with a line end between them.
* **`parseDockerfile_directive_reaches_back`** — blank lines do not end the directives, so the
  first line of the second text is not all there is to ask about.
-/

namespace ProotDistro

namespace Dockerfile

variable {loads : Str → Option Json} {esc : Char} {lineno : Nat}

/-! ## Open continuations -/

/-- Whether the last line that is neither blank nor a comment goes on. -/
def pendingContinuation (esc : Char) (lines : List Str) : Bool :=
  ((lines.filter (!isSkipped ·)).getLast?).any (endsWithEscape esc)

/-- A continuation pending at the end of a suffix is pending at the end of the lines. -/
theorem pendingContinuation_of_suffix {lines next : List Str} (h : next <:+ lines)
    (hnext : pendingContinuation esc next = true) : pendingContinuation esc lines = true := by
  obtain ⟨before, rfl⟩ := h
  unfold pendingContinuation at hnext ⊢
  rw [List.filter_append, List.getLast?_append]
  cases hlast : (next.filter (!isSkipped ·)).getLast? with
  | none =>
    rw [hlast] at hnext
    cases hnext
  | some line =>
    rw [hlast] at hnext
    exact hnext

/-- Lines that are all skipped leave none to read. -/
theorem dropWhile_isSkipped_eq_nil {lines : List Str} (h : lines.dropWhile isSkipped = []) :
    lines.filter (!isSkipped ·) = [] := by
  rw [List.filter_eq_nil_iff]
  intro line hline
  have hskipped := List.dropWhile_eq_nil_iff.mp h line hline
  rw [hskipped]
  decide

/-- A logical line that runs out of lines was one that goes on. -/
theorem pendingContinuation_of_logicalLine {cur : Str} {rest : List Str}
    (hcur : isSkipped cur = false) (h : (logicalLine esc cur rest).2 = []) :
    pendingContinuation esc (cur :: rest) = true := by
  fun_induction logicalLine esc cur rest with
  | case1 cur rest hescape hdrop =>
    unfold pendingContinuation
    rw [List.filter_cons_of_pos (by simp [hcur]), dropWhile_isSkipped_eq_nil hdrop]
    exact hescape
  | case2 cur rest _ next rest' hdrop parts last hlast ih =>
    have hnext : isSkipped next = false := by
      have hhead := List.head?_dropWhile_not isSkipped rest
      rw [hdrop] at hhead
      simpa using hhead
    have hsuffix : next :: rest' <:+ cur :: rest :=
      (hdrop ▸ List.dropWhile_suffix isSkipped).trans (List.suffix_cons cur rest)
    apply pendingContinuation_of_suffix hsuffix
    apply ih hnext
    rw [hlast]
    exact h
  | case3 cur rest => cases h

/-! ## More lines -/

section Append

variable {lines more : List Str}

/-- A logical line that ends before the lines do is the same with more of them. -/
theorem logicalLine_append {cur : Str} {rest : List Str} (h : (logicalLine esc cur rest).2 ≠ []) :
    logicalLine esc cur (rest ++ more) =
      ((logicalLine esc cur rest).1, (logicalLine esc cur rest).2 ++ more) := by
  fun_induction logicalLine esc cur rest with
  | case1 cur rest => exact absurd rfl h
  | case2 cur rest hescape next rest' hdrop parts last hlast ih =>
    have hmore : (rest ++ more).dropWhile isSkipped = next :: (rest' ++ more) := by
      rw [List.dropWhile_append, hdrop]
      rfl
    rw [hlast] at ih
    have hih := ih h
    rw [logicalLine, if_pos hescape]
    split
    · rename_i hnil
      rw [hmore] at hnil
      cases hnil
    · rename_i next' rest'' hcons
      rw [hmore] at hcons
      cases hcons
      rw [hih]
  | case3 cur rest hescape =>
    rw [logicalLine, if_neg hescape]
    rfl

/-- So is the body of a document that is closed. -/
theorem collectHeredocBody_append {stripIndent : Bool} {tag text : Str} {body rest : List Str}
    (h : collectHeredocBody stripIndent tag lines body = .ok (text, rest)) :
    collectHeredocBody stripIndent tag (lines ++ more) body = .ok (text, rest ++ more) := by
  induction lines generalizing body with
  | nil => cases h
  | cons line lines ih =>
    rw [List.cons_append, collectHeredocBody]
    rw [collectHeredocBody] at h
    split at h
    · rename_i hterm
      cases h
      rw [if_pos hterm]
    · rename_i hterm
      rw [if_neg hterm]
      exact ih h

/-- The tail of lines that go on. -/
theorem tail_append_of_ne_nil {lines : List Str} (h : lines ≠ []) :
    (lines ++ more).tail = lines.tail ++ more := by
  cases lines with
  | nil => exact absurd rfl h
  | cons line lines => rfl

/-- The loop over the openers, each of which steps over the line it stands at. -/
theorem collectBodies_append {tags : List (Bool × Str)} {heredocs : List Heredoc}
    {rest : List Str} (h : collectBodies tags lines = .ok (heredocs, rest)) :
    collectBodies tags (lines ++ more) = .ok (heredocs, rest ++ more) := by
  induction tags generalizing lines heredocs with
  | nil =>
    cases h
    rfl
  | cons tag tags ih =>
    obtain ⟨⟨body, lines₁⟩, hbody, h⟩ := Result.bind_ok h
    obtain ⟨⟨heredocs₁, lines₂⟩, hbodies, h⟩ := Result.bind_ok h
    cases h
    -- at the end of the file there is no line to step over, and no body either
    have hne : lines ≠ [] := by
      intro hnil
      rw [hnil] at hbody
      cases hbody
    have htail : collectHeredocBody tag.1 tag.2 (lines ++ more).tail [] =
        .ok (body, lines₁ ++ more) := by
      rw [tail_append_of_ne_nil hne]
      exact collectHeredocBody_append hbody
    unfold collectBodies
    rw [htail]
    show (collectBodies tags (lines₁ ++ more)).bind _ = _
    rw [ih hbodies]
    rfl

theorem readHeredocs_append {h : Header} {heredocs : List Heredoc} {rest : List Str}
    (hne : lines ≠ []) (hread : readHeredocs h lines = .ok (heredocs, rest)) :
    readHeredocs h (lines ++ more) = .ok (heredocs, rest ++ more) := by
  unfold readHeredocs at hread ⊢
  split at hread
  · rename_i htags
    cases hread
    rw [if_pos htags, tail_append_of_ne_nil hne]
  · rename_i htags
    rw [if_neg htags]
    exact collectBodies_append hread

theorem readInstruction_append {text : Str} {i : Instruction} {rest : List Str}
    (hne : lines ≠ []) (h : readInstruction loads text lineno lines = .ok (i, rest)) :
    readInstruction loads text lineno (lines ++ more) = .ok (i, rest ++ more) := by
  obtain ⟨header, hheader, h⟩ := Result.bind_ok h
  obtain ⟨⟨heredocs, lines₁⟩, hread, h⟩ := Result.bind_ok h
  cases h
  unfold readInstruction
  rw [hheader]
  show (readHeredocs header (lines ++ more)).bind _ = _
  rw [readHeredocs_append hne hread]
  rfl

/-- **A turn** looks no further than it goes. -/
theorem parseStep_append {line : Str} {rest next : List Str} {o : Option Instruction}
    (hpending : pendingContinuation esc (line :: rest) = false)
    (h : parseStep loads esc line rest lineno = .ok (o, next)) :
    parseStep loads esc line (rest ++ more) lineno = .ok (o, next ++ more) := by
  unfold parseStep at h ⊢
  split at h
  · rename_i hskip
    cases h
    rw [if_pos hskip]
  · rename_i hskip
    have hne : (logicalLine esc line rest).2 ≠ [] := by
      intro hnil
      have := pendingContinuation_of_logicalLine (Bool.eq_false_iff.mpr hskip) hnil
      rw [hpending] at this
      cases this
    rw [if_neg hskip]
    simp only at h ⊢
    rw [logicalLine_append hne]
    split at h
    · rename_i htext
      cases h
      rw [if_pos htext, tail_append_of_ne_nil hne]
    · rename_i htext
      obtain ⟨⟨i, lines⟩, hread, h⟩ := Result.map_ok h
      cases h
      rw [if_neg htext, readInstruction_append hne hread]
      rfl

/-- What the loop does on lines that begin with one. -/
theorem parseInstructions_cons {line : Str} {rest next : List Str} {o : Option Instruction}
    (h : parseStep loads esc line rest lineno = .ok (o, next)) :
    parseInstructions loads esc (line :: rest) lineno =
      (parseInstructions loads esc next (lineno + (rest.length + 1 - next.length))).map
        (o.toList ++ ·) := by
  rw [parseInstructions]
  split
  · rename_i hstep
    rw [h] at hstep
    cases hstep
  · rename_i hstep
    rw [h] at hstep
    cases hstep
    rfl

/-- The instruction that fails is the answer. -/
theorem parseInstructions_cons_error {line : Str} {rest : List Str} {e : ParseError}
    (h : parseStep loads esc line rest lineno = .error e) :
    parseInstructions loads esc (line :: rest) lineno = .error e := by
  rw [parseInstructions]
  split
  · rename_i hstep
    rw [h] at hstep
    cases hstep
    rfl
  · rename_i hstep
    rw [h] at hstep
    cases hstep

/-- A parse that answers took a turn, and went on from where the turn ended. -/
theorem parseInstructions_cons_eq_ok {line : Str} {rest : List Str} {is : List Instruction}
    (h : parseInstructions loads esc (line :: rest) lineno = .ok is) :
    ∃ o next is', parseStep loads esc line rest lineno = .ok (o, next) ∧
      parseInstructions loads esc next (lineno + (rest.length + 1 - next.length)) = .ok is' ∧
      is = o.toList ++ is' := by
  cases hstep : parseStep loads esc line rest lineno with
  | error e =>
    rw [parseInstructions_cons_error hstep] at h
    cases h
  | ok r =>
    rw [parseInstructions_cons hstep] at h
    obtain ⟨is', his, rfl⟩ := Result.map_ok h
    exact ⟨r.1, r.2, is', rfl, his, rfl⟩

/-- **The loop**: what comes behind complete lines is parsed as if it stood alone there. -/
theorem parseInstructions_append {is : List Instruction}
    (hpending : pendingContinuation esc lines = false)
    (h : parseInstructions loads esc lines lineno = .ok is) :
    parseInstructions loads esc (lines ++ more) lineno =
      (parseInstructions loads esc more (lineno + lines.length)).map (is ++ ·) := by
  induction hn : lines.length using Nat.strong_induction_on generalizing lines lineno is with
  | _ n ih =>
  cases lines with
  | nil =>
    rw [parseInstructions, Except.ok.injEq] at h
    subst h hn
    show parseInstructions loads esc more lineno = _
    cases parseInstructions loads esc more lineno <;> rfl
  | cons line rest =>
    obtain ⟨o, next, is', hstep, his, rfl⟩ := parseInstructions_cons_eq_ok h
    have hsuffix := parseStep_suffix hstep
    have hle : next.length ≤ rest.length := hsuffix.length_le
    have hnext : pendingContinuation esc next = false := by
      cases hp : pendingContinuation esc next with
      | false => rfl
      | true =>
        have := pendingContinuation_of_suffix (hsuffix.trans (List.suffix_cons line rest)) hp
        rw [hpending] at this
        cases this
    rw [List.length_cons] at hn
    have hrest := ih next.length (by omega) hnext his rfl
    rw [List.cons_append, parseInstructions_cons (parseStep_append hpending hstep),
      List.length_append, List.length_append]
    have hline : lineno + (rest.length + more.length + 1 - (next.length + more.length)) =
        lineno + (rest.length + 1 - next.length) := by omega
    have hend : lineno + (rest.length + 1 - next.length) + next.length = lineno + n := by omega
    rw [hline, hrest, hend]
    cases parseInstructions loads esc more (lineno + n) with
    | error e => rfl
    | ok js =>
      show Except.ok (o.toList ++ (is' ++ js)) = Except.ok (o.toList ++ is' ++ js)
      rw [List.append_assoc]

end Append

/-! ## Line numbers -/

section Lineno

def Record.shift (k : Nat) (r : Record) : Record := { r with lineno := r.lineno + k }

/-- The same instruction `k` lines further down. -/
def Instruction.shift (k : Nat) : Instruction → Instruction
  | .plain r => .plain (r.shift k)
  | .onbuild r => .onbuild (r.shift k)

def ParseError.shift (k : Nat) : ParseError → ParseError
  | .unknownInstruction n => .unknownInstruction (n + k)
  | .onbuildWithoutInner n => .onbuildWithoutInner (n + k)
  | .invalidOnbuildInner n => .invalidOnbuildInner (n + k)
  | .unterminatedHeredoc tag => .unterminatedHeredoc tag

/-- The header is read alike further down, with its errors moved there. -/
theorem readHeader_add (text : Str) (lineno k : Nat) :
    readHeader text (lineno + k) = (readHeader text lineno).mapError (·.shift k) := by
  unfold readHeader
  split
  · rfl
  · split
    · rfl
    · split <;> rfl
  · rfl

theorem instruction_add (h : Header) (heredocs : List Heredoc) (lineno k : Nat) (raw : Str) :
    h.instruction loads heredocs (lineno + k) raw =
      (h.instruction loads heredocs lineno raw).shift k := by
  unfold Header.instruction
  cases h.onbuild <;> rfl

/-- A document fails in one way: its tag is not found. -/
theorem collectHeredocBody_error {stripIndent : Bool} {tag : Str} {lines body : List Str}
    {e : ParseError} (h : collectHeredocBody stripIndent tag lines body = .error e) :
    e = .unterminatedHeredoc tag := by
  induction lines generalizing body with
  | nil =>
    cases h
    rfl
  | cons line lines ih =>
    rw [collectHeredocBody] at h
    split at h
    · cases h
    · exact ih h

theorem collectBodies_error {tags : List (Bool × Str)} {lines : List Str} {e : ParseError}
    (h : collectBodies tags lines = .error e) : ∃ tag, e = .unterminatedHeredoc tag := by
  induction tags generalizing lines with
  | nil => cases h
  | cons tag tags ih =>
    unfold collectBodies at h
    cases hbody : collectHeredocBody tag.1 tag.2 lines.tail [] with
    | error e' =>
      rw [hbody] at h
      cases h
      exact ⟨_, collectHeredocBody_error hbody⟩
    | ok r =>
      rw [hbody] at h
      cases hbodies : collectBodies tags r.2 with
      | error e' =>
        have herr : (collectBodies tags r.2).bind
            (fun x => .ok (⟨tag.2, tag.1, r.1⟩ :: x.1, x.2)) = .error e := h
        rw [hbodies] at herr
        cases herr
        exact ih hbodies
      | ok r' =>
        have herr : (collectBodies tags r.2).bind
            (fun x => .ok (⟨tag.2, tag.1, r.1⟩ :: x.1, x.2)) = .error e := h
        rw [hbodies] at herr
        cases herr

/-- The error of a document names no line, so none is to be moved. -/
theorem readHeredocs_error {h : Header} {lines : List Str} {e : ParseError} (k : Nat)
    (hread : readHeredocs h lines = .error e) : e.shift k = e := by
  unfold readHeredocs at hread
  split at hread
  · cases hread
  · obtain ⟨tag, rfl⟩ := collectBodies_error hread
    rfl

/-- An instruction is read alike further down, its line and its errors moved. -/
theorem readInstruction_add (text : Str) (lineno k : Nat) (lines : List Str) :
    readInstruction loads text (lineno + k) lines =
      ((readInstruction loads text lineno lines).map fun r => (r.1.shift k, r.2)).mapError
        (·.shift k) := by
  unfold readInstruction
  rw [readHeader_add]
  cases readHeader text lineno with
  | error e => rfl
  | ok h =>
    show (readHeredocs h lines).bind _ =
      (((readHeredocs h lines).bind _).map _).mapError _
    cases hread : readHeredocs h lines with
    | error e =>
      show Except.error e = Except.error (e.shift k)
      rw [readHeredocs_error k hread]
    | ok r =>
      show Except.ok (h.instruction loads r.1 (lineno + k) text, r.2) = _
      rw [instruction_add]
      rfl

theorem parseStep_add (esc : Char) (line : Str) (rest : List Str) (lineno k : Nat) :
    parseStep loads esc line rest (lineno + k) =
      ((parseStep loads esc line rest lineno).map fun r =>
        (r.1.map (·.shift k), r.2)).mapError (·.shift k) := by
  unfold parseStep
  split
  · rfl
  · simp only
    split
    · rfl
    · rw [readInstruction_add]
      cases readInstruction loads (joinParts (logicalLine esc line rest).1) lineno
        (logicalLine esc line rest).2 <;> rfl

/-- A result as it is `k` lines further down. -/
def shiftParsed (k : Nat) (r : Except ParseError (List Instruction)) :
    Except ParseError (List Instruction) :=
  (r.map (·.map (·.shift k))).mapError (·.shift k)

/-- **Where lines stand** shows in the numbers only. -/
theorem parseInstructions_add (lines : List Str) (lineno k : Nat) :
    parseInstructions loads esc lines (lineno + k) =
      shiftParsed k (parseInstructions loads esc lines lineno) := by
  induction hn : lines.length using Nat.strong_induction_on generalizing lines lineno with
  | _ n ih =>
  cases lines with
  | nil =>
    rw [parseInstructions, parseInstructions]
    rfl
  | cons line rest =>
    have hadd : parseStep loads esc line rest (lineno + k) = _ := parseStep_add esc line rest lineno k
    cases hstep : parseStep loads esc line rest lineno with
    | error e =>
      rw [hstep] at hadd
      rw [parseInstructions_cons_error hstep, parseInstructions_cons_error hadd]
      rfl
    | ok r =>
      rw [hstep] at hadd
      have hle : r.2.length ≤ rest.length := (parseStep_suffix (o := r.1) hstep).length_le
      rw [List.length_cons] at hn
      have hrest := ih r.2.length (by omega) r.2 (lineno + (rest.length + 1 - r.2.length)) rfl
      have hline : lineno + k + (rest.length + 1 - r.2.length) =
          lineno + (rest.length + 1 - r.2.length) + k := by omega
      rw [parseInstructions_cons (o := r.1) hstep, parseInstructions_cons hadd, hline, hrest]
      cases parseInstructions loads esc r.2 (lineno + (rest.length + 1 - r.2.length)) with
      | error e => rfl
      | ok is =>
        show Except.ok ((r.1.map (·.shift k)).toList ++ is.map (·.shift k)) =
          Except.ok ((r.1.toList ++ is).map (·.shift k))
        rw [List.map_append]
        cases r.1 <;> rfl

/-- An instruction has the line its header was read at. -/
theorem instruction_lineno (h : Header) (heredocs : List Heredoc) (lineno : Nat) (raw : Str) :
    (h.instruction loads heredocs lineno raw).lineno = lineno := by
  unfold Header.instruction
  cases h.onbuild <;> rfl

/-- An instruction has the number of the line its turn began on. -/
theorem parseStep_lineno {line : Str} {rest next : List Str} {i : Instruction}
    (h : parseStep loads esc line rest lineno = .ok (some i, next)) : i.lineno = lineno := by
  unfold parseStep at h
  split at h
  · cases h
  · simp only at h
    split at h
    · cases h
    · obtain ⟨⟨j, lines⟩, hread, h⟩ := Result.map_ok h
      cases h
      obtain ⟨header, -, hread⟩ := Result.bind_ok hread
      obtain ⟨⟨heredocs, lines₁⟩, -, hread⟩ := Result.bind_ok hread
      cases hread
      exact instruction_lineno header heredocs lineno _

/-- **Line numbers strictly increase**, from the number of the first line on. -/
theorem parseInstructions_increasing {lines : List Str} {is : List Instruction}
    (h : parseInstructions loads esc lines lineno = .ok is) :
    (∀ i ∈ is, lineno ≤ i.lineno) ∧ is.Pairwise fun i j => i.lineno < j.lineno := by
  induction hn : lines.length using Nat.strong_induction_on generalizing lines lineno is with
  | _ n ih =>
  cases lines with
  | nil =>
    rw [parseInstructions, Except.ok.injEq] at h
    subst h
    exact ⟨fun i hi => absurd hi List.not_mem_nil, List.Pairwise.nil⟩
  | cons line rest =>
    obtain ⟨o, next, is', hstep, his, rfl⟩ := parseInstructions_cons_eq_ok h
    have hle : next.length ≤ rest.length := (parseStep_suffix hstep).length_le
    rw [List.length_cons] at hn
    obtain ⟨hfrom, hpairs⟩ := ih next.length (by omega) his rfl
    -- the turn took a line at least, so what follows begins further down
    have hlater : ∀ i ∈ is', lineno < i.lineno := by
      intro i hi
      have := hfrom i hi
      omega
    cases o with
    | none => exact ⟨fun i hi => Nat.le_of_lt (hlater i hi), hpairs⟩
    | some i =>
      have hi := parseStep_lineno hstep
      constructor
      · intro j hj
        rcases List.mem_cons.mp hj with rfl | hj
        · omega
        · exact Nat.le_of_lt (hlater j hj)
      · apply List.Pairwise.cons
        · intro j hj
          rw [hi]
          exact hlater j hj
        · exact hpairs

end Lineno

/-! ## Texts -/

/-- The line ends of two texts are read apart where no CR stands at the cut. -/
theorem normalizeNewlines_append {A B : Str} (hA : A.getLast? ≠ some '\r') :
    normalizeNewlines (A ++ '\n' :: B) = normalizeNewlines A ++ '\n' :: normalizeNewlines B := by
  fun_induction normalizeNewlines A with
  | case1 => rfl
  | case2 s ih =>
    have hs : s.getLast? ≠ some '\r' := by
      intro hlast
      apply hA
      rw [List.getLast?_cons, List.getLast?_cons, hlast]
      rfl
    show '\n' :: normalizeNewlines (s ++ '\n' :: B) = _
    rw [ih hs]
    rfl
  | case3 s hnot ih =>
    cases s with
    | nil => exact absurd rfl hA
    | cons c s =>
      have hc : c ≠ '\n' := fun h => hnot s (by rw [h])
      have hs : (c :: s).getLast? ≠ some '\r' := by
        intro hlast
        apply hA
        rw [List.getLast?_cons, hlast]
        rfl
      have hstep : normalizeNewlines ('\r' :: (c :: s ++ '\n' :: B)) =
          '\n' :: normalizeNewlines (c :: s ++ '\n' :: B) := by
        rw [normalizeNewlines]
        intro t ht
        cases ht
        exact hc rfl
      show normalizeNewlines ('\r' :: (c :: s ++ '\n' :: B)) = _
      rw [hstep, ih hs]
      rfl
  | case4 c s hnot hnot' ih =>
    have hs : s.getLast? ≠ some '\r' := by
      intro hlast
      apply hA
      rw [List.getLast?_cons, hlast]
      rfl
    have hc : c ≠ '\r' := fun h => hnot' h
    have hstep : normalizeNewlines (c :: (s ++ '\n' :: B)) = c :: normalizeNewlines (s ++ '\n' :: B) := by
      rw [normalizeNewlines]
      · exact fun t h => absurd h hc
      · exact hc
    rw [List.cons_append, hstep, ih hs]
    rfl

/-- Reading the line ends brings no mark to the front. -/
theorem normalizeNewlines_head {B : Str} (hB : B.head? ≠ some '\ufeff') :
    (normalizeNewlines B).head? ≠ some '\ufeff' := by
  fun_cases normalizeNewlines B with
  | case1 => exact hB
  | case2 s =>
    show some '\n' ≠ some '\ufeff'
    decide
  | case3 s =>
    show some '\n' ≠ some '\ufeff'
    decide
  | case4 c s => exact hB

/-- A text without the mark keeps all it has. -/
theorem dropBom_of_head {s : Str} (h : s.head? ≠ some '\ufeff') : dropBom s = s := by
  unfold dropBom
  split
  · exact absurd rfl h
  · rfl

/-- A mark is dropped from the first of two texts only. -/
theorem dropBom_append {s t : Str} : dropBom (s ++ '\n' :: t) = dropBom s ++ '\n' :: t := by
  cases s with
  | nil => rfl
  | cons c s =>
    by_cases hc : c = '\ufeff'
    · rw [hc]
      rfl
    · have hhead : ∀ u : Str, (c :: u).head? ≠ some '\ufeff' := by
        intro u hu
        exact hc (Option.some.inj hu)
      rw [List.cons_append, dropBom_of_head (hhead _), dropBom_of_head (hhead _)]
      rfl

/-- The lines of two texts with a line end between them. -/
theorem rawLines_append {A B : Str} (hA : A.getLast? ≠ some '\r')
    (hB : B.head? ≠ some '\ufeff') : rawLines (A ++ '\n' :: B) = rawLines A ++ rawLines B := by
  unfold rawLines
  rw [normalizeNewlines_append hA, dropBom_append, List.splitOn_append_cons_self,
    dropBom_of_head (normalizeNewlines_head hB)]

/-! ## Directives -/

def isDirective (line : Str) : Bool := (directive line).any fun d => d.1 ∈ directiveNames

/-- Whether the first line that is not blank is a directive. -/
def opensWithDirective (lines : List Str) : Bool :=
  (lines.find? fun line => Text.strip line ≠ []).any isDirective

/-- Whether a line that is neither blank nor a new directive has ended the directives. -/
def directivesEnded (lines : List Str) : Bool :=
  (parseDirectives lines []).2 < lines.length

/-- The directives take no more lines than there are. -/
theorem parseDirectives_le (lines : List Str) (found : Dict Str Str) :
    (parseDirectives lines found).2 ≤ lines.length := by
  fun_induction parseDirectives lines found with
  | case1 => exact Nat.le_refl _
  | case2 line rest found hblank ih => exact Nat.succ_le_succ ih
  | case3 => exact Nat.zero_le _
  | case4 => exact Nat.zero_le _
  | case5 line rest found hblank key value hdir hnew ih => exact Nat.succ_le_succ ih

/-- Once a line has ended the directives, nothing behind it is one. -/
theorem parseDirectives_append_of_lt {lines more : List Str} {found : Dict Str Str}
    (h : (parseDirectives lines found).2 < lines.length) :
    parseDirectives (lines ++ more) found = parseDirectives lines found := by
  fun_induction parseDirectives lines found with
  | case1 => exact absurd h (Nat.lt_irrefl _)
  | case2 line rest found hblank ih =>
    rw [List.cons_append, parseDirectives, if_pos hblank, ih (Nat.lt_of_succ_lt_succ h)]
  | case3 line rest found hblank hdir =>
    rw [List.cons_append, parseDirectives, if_neg hblank, hdir]
  | case4 line rest found hblank key value hdir hnew =>
    rw [List.cons_append, parseDirectives, if_neg hblank, hdir]
    exact if_pos hnew
  | case5 line rest found hblank key value hdir hnew ih =>
    rw [List.cons_append, parseDirectives, if_neg hblank, hdir]
    show (if _ then _ else _) = _
    rw [if_neg hnew, ih (Nat.lt_of_succ_lt_succ h)]

/-- Where every line is blank or a directive, the reading goes on behind. -/
theorem parseDirectives_append_of_eq {lines more : List Str} {found : Dict Str Str}
    (h : (parseDirectives lines found).2 = lines.length) :
    parseDirectives (lines ++ more) found =
      ((parseDirectives more (parseDirectives lines found).1).1,
        (parseDirectives more (parseDirectives lines found).1).2 + lines.length) := by
  fun_induction parseDirectives lines found with
  | case1 => rfl
  | case2 line rest found hblank ih =>
    rw [List.cons_append, parseDirectives, if_pos hblank, ih (Nat.succ_inj.mp h)]
    rfl
  | case3 line rest found hblank hdir => cases h
  | case4 line rest found hblank key value hdir hnew => cases h
  | case5 line rest found hblank key value hdir hnew ih =>
    rw [List.cons_append, parseDirectives, if_neg hblank, hdir]
    show (if _ then _ else _) = _
    rw [if_neg hnew, ih (Nat.succ_inj.mp h)]
    rfl

/-- Lines that open with no directive add none, and what is taken of them is blank. -/
theorem parseDirectives_of_not_opens {lines : List Str} {found : Dict Str Str}
    (h : opensWithDirective lines = false) :
    (parseDirectives lines found).1 = found ∧
      ∀ line ∈ lines.take (parseDirectives lines found).2, isSkipped line = true := by
  fun_induction parseDirectives lines found with
  | case1 => exact ⟨rfl, fun line hline => absurd hline List.not_mem_nil⟩
  | case2 line rest found hblank ih =>
    have hrest : opensWithDirective rest = false := by
      unfold opensWithDirective at h ⊢
      rw [List.find?_cons_of_neg (by simp [hblank])] at h
      exact h
    refine ⟨(ih hrest).1, ?_⟩
    intro line' hline'
    rcases List.mem_cons.mp hline' with rfl | hline'
    · unfold isSkipped Text.lstrip
      have hall : line'.dropWhile Text.isSpace = [] := by
        cases hd : line'.dropWhile Text.isSpace with
        | nil => rfl
        | cons c s =>
          -- the first character that is no space is the last one stripping would take
          have hc := List.head?_dropWhile_not Text.isSpace line'
          rw [hd] at hc
          unfold Text.strip at hblank
          rw [hd, List.rdropWhile_eq_nil_iff] at hblank
          have hspace := hblank c List.mem_cons_self
          rw [List.head?_cons] at hc
          have hnot : Text.isSpace c = false := hc
          rw [hspace] at hnot
          cases hnot
      rw [hall]
    · exact (ih hrest).2 line' hline'
  | case3 => exact ⟨rfl, fun line hline => absurd hline List.not_mem_nil⟩
  | case4 => exact ⟨rfl, fun line hline => absurd hline List.not_mem_nil⟩
  | case5 line rest found hblank key value hdir hnew ih =>
    have hopens : opensWithDirective (line :: rest) = true := by
      unfold opensWithDirective isDirective
      rw [List.find?_cons_of_pos (by simp [hblank])]
      show (directive line).any _ = true
      rw [hdir]
      have hkey : key ∈ directiveNames := by
        by_contra hkey
        exact hnew (.inl hkey)
      simpa using hkey
    rw [h] at hopens
    cases hopens

/-- Lines that are skipped may be dropped, the line number moved. -/
theorem parseInstructions_drop_skipped {lines : List Str} {n : Nat}
    (h : ∀ line ∈ lines.take n, isSkipped line = true) (hn : n ≤ lines.length) :
    parseInstructions loads esc lines lineno =
      parseInstructions loads esc (lines.drop n) (lineno + n) := by
  induction n generalizing lines lineno with
  | zero => rfl
  | succ n ih =>
    cases lines with
    | nil => cases hn
    | cons line rest =>
      have hstep : parseStep loads esc line rest lineno = .ok (none, rest) := by
        unfold parseStep
        rw [if_pos (h line (by simp))]
      have hline : lineno + (rest.length + 1 - rest.length) = lineno + 1 := by omega
      have hrest := @ih (lineno + 1) rest (fun l hl => h l (List.mem_cons_of_mem _ hl))
        (Nat.le_of_succ_le_succ hn)
      have hnone : ∀ r : Except ParseError (List Instruction),
          r.map ((none : Option Instruction).toList ++ ·) = r := by
        intro r
        cases r <;> rfl
      rw [parseInstructions_cons hstep, hline, hrest, hnone, Nat.add_right_comm,
        Nat.add_assoc lineno n 1]
      rfl

/-- The directives that are kept hold the escape character. -/
theorem escapeChar_keptDirectives (directives : Dict Str Str) :
    escapeChar (keptDirectives directives) = escapeChar directives := by
  unfold keptDirectives
  split
  · rfl
  · rename_i hnot
    have hne : Dict.get directives "escape".toList ≠ some ['`'] := fun h =>
      hnot (List.mem_cons.mpr (.inl h))
    unfold escapeChar
    rw [Dict.get_erase, if_pos rfl, if_neg hne, if_neg (by decide)]

/-! ## The law -/

/-- What stands behind `A` and a line end is read as it would be on the lines behind `A`. -/
theorem parseDockerfile_append {A B : Str} {dirs : Dict Str Str} {is : List Instruction}
    (hA : parseDockerfile loads A = .ok (dirs, is))
    (hclosed : pendingContinuation (escapeChar dirs) (rawLines A) = false)
    (hend : A.getLast? ≠ some '\r') (hbom : B.head? ≠ some '\ufeff')
    (hdirs : directivesEnded (rawLines A) = true ∨ opensWithDirective (rawLines B) = false) :
    parseDockerfile loads (A ++ '\n' :: B) =
      (shiftParsed (rawLines A).length
        (parseInstructions loads (escapeChar dirs) (rawLines B) 1)).map fun js =>
          (dirs, is ++ js) := by
  unfold parseDockerfile at hA ⊢
  rw [rawLines_append hend hbom]
  simp only at hA ⊢
  have hle := parseDirectives_le (rawLines A) []
  obtain ⟨is', his, heq⟩ := Result.map_ok hA
  cases heq
  rw [escapeChar_keptDirectives] at hclosed ⊢
  rw [← parseInstructions_add]
  generalize hfound : parseDirectives (rawLines A) [] = found at *
  -- `A` has ended the directives, or `B` might add to them
  rcases Nat.lt_or_eq_of_le hle with hlt | heq
  · have hsame := @parseDirectives_append_of_lt _ (rawLines B) _ (hfound.symm ▸ hlt)
    have hopen : pendingContinuation (escapeChar found.1) ((rawLines A).drop found.2) = false := by
      cases hp : pendingContinuation (escapeChar found.1) ((rawLines A).drop found.2) with
      | false => rfl
      | true =>
        rw [pendingContinuation_of_suffix (List.drop_suffix _ _) hp] at hclosed
        cases hclosed
    have hline : found.2 + 1 + ((rawLines A).drop found.2).length = 1 + (rawLines A).length := by
      rw [List.length_drop]
      omega
    rw [hsame, hfound, List.drop_append_of_le_length hle, parseInstructions_append hopen his, hline]
    cases parseInstructions loads (escapeChar found.1) (rawLines B) (1 + (rawLines A).length) <;> rfl
  · -- nothing of `A` has ended the directives, so `B` must not open with one
    have hopens : opensWithDirective (rawLines B) = false := by
      rcases hdirs with hended | hopens
      · unfold directivesEnded at hended
        rw [hfound, heq] at hended
        exact absurd (of_decide_eq_true hended) (Nat.lt_irrefl _)
      · exact hopens
    have hsame : parseDirectives (rawLines A ++ rawLines B) [] = _ :=
      parseDirectives_append_of_eq (hfound.symm ▸ heq)
    rw [hfound] at hsame
    obtain ⟨hkept, hblank⟩ := @parseDirectives_of_not_opens (rawLines B) found.1 hopens
    have hnil : is = [] := by
      rw [heq, List.drop_length, parseInstructions, Except.ok.injEq] at his
      exact his.symm
    have hdrop : (rawLines A ++ rawLines B).drop
        ((parseDirectives (rawLines B) found.1).2 + (rawLines A).length) =
          (rawLines B).drop (parseDirectives (rawLines B) found.1).2 := by
      rw [Nat.add_comm, List.drop_append]
      simp
    have hline : 1 + (rawLines A).length + (parseDirectives (rawLines B) found.1).2 =
        (parseDirectives (rawLines B) found.1).2 + (rawLines A).length + 1 := by omega
    rw [hsame, hnil]
    show (parseInstructions loads (escapeChar (parseDirectives (rawLines B) found.1).1) _ _).map _ = _
    rw [hkept, hdrop, parseInstructions_drop_skipped hblank (parseDirectives_le _ _), hline]
    cases parseInstructions loads (escapeChar found.1)
      ((rawLines B).drop (parseDirectives (rawLines B) found.1).2)
      ((parseDirectives (rawLines B) found.1).2 + (rawLines A).length + 1) <;> rfl

/-- **The parser is compositional.** A text that parses and leaves no continuation open, a line
end, and any text: the instructions of the first and behind them those of the second, read under
the first one's escape character with its lines counted. The second has a directive in front only
where a line of the first has ended the directives. In every text that parses the line numbers
strictly increase. -/
theorem parser_compositional (loads : Str → Option Json) :
    (∀ (A B : Str) (dirs : Dict Str Str) (is : List Instruction),
      parseDockerfile loads A = .ok (dirs, is) →
      pendingContinuation (escapeChar dirs) (rawLines A) = false →
      A.getLast? ≠ some '\r' → B.head? ≠ some '\ufeff' →
      (directivesEnded (rawLines A) = true ∨ opensWithDirective (rawLines B) = false) →
      parseDockerfile loads (A ++ '\n' :: B) =
        (shiftParsed (rawLines A).length
          (parseInstructions loads (escapeChar dirs) (rawLines B) 1)).map fun js =>
            (dirs, is ++ js)) ∧
    ∀ (text : Str) (dirs : Dict Str Str) (is : List Instruction),
      parseDockerfile loads text = .ok (dirs, is) →
      is.Pairwise fun i j => i.lineno < j.lineno := by
  constructor
  · intro A B dirs is hA hclosed hend hbom hdirs
    exact parseDockerfile_append hA hclosed hend hbom hdirs
  · intro text dirs is h
    unfold parseDockerfile at h
    obtain ⟨is', his, heq⟩ := Result.map_ok h
    cases heq
    exact (parseInstructions_increasing his).2

/-- No JSON at all. -/
def noJson : Str → Option Json := fun _ => none

theorem parser_compositional_steps :
    parseDockerfile noJson ("# escape=`\nRUN a `\n b".toList ++ '\n' :: "\nUSER u".toList) =
      .ok ([("escape".toList, ['`'])],
        [.plain ⟨.RUN, [], .text "a b".toList, [], 2, "RUN a b".toList⟩,
          .plain ⟨.USER, [], .text "u".toList, [], 5, "USER u".toList⟩]) := by
  rw [(parser_compositional noJson).1 "# escape=`\nRUN a `\n b".toList "\nUSER u".toList
    [("escape".toList, ['`'])] [.plain ⟨.RUN, [], .text "a b".toList, [], 2, "RUN a b".toList⟩]
    (by decide +kernel) (by decide +kernel) (by decide +kernel) (by decide +kernel)
    (.inr (by decide +kernel))]
  decide +kernel

/-- **A directive behind a blank line.** The empty text and a text whose first line is blank: the
second line sets the escape character of the whole, and there is one instruction where the second
text has two. -/
theorem parseDockerfile_directive_reaches_back :
    parseDockerfile noJson [] = .ok ([], []) ∧
    pendingContinuation '\\' (rawLines []) = false ∧
    (rawLines "\n# escape=`\nRUN a `\nRUN b".toList).head?.any isDirective = false ∧
    parseInstructions noJson '\\' (rawLines "\n# escape=`\nRUN a `\nRUN b".toList) 1 =
      .ok [.plain ⟨.RUN, [], .text "a `".toList, [], 3, "RUN a `".toList⟩,
        .plain ⟨.RUN, [], .text "b".toList, [], 4, "RUN b".toList⟩] ∧
    parseDockerfile noJson ([] ++ '\n' :: "\n# escape=`\nRUN a `\nRUN b".toList) =
      .ok ([("escape".toList, ['`'])],
        [.plain ⟨.RUN, [], .text "a RUN b".toList, [], 4, "RUN a RUN b".toList⟩]) := by
  refine ⟨?_, ?_, ?_, ?_, ?_⟩ <;> decide +kernel

end Dockerfile

end ProotDistro
