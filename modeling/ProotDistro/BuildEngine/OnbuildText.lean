import ProotDistro.BuildEngine.Engine
import ProotDistro.Dockerfile.Heredocs

/-!
# The text of a trigger

ONBUILD records the text of its inner record, and that is the whole logical line: the word ONBUILD
is still in front. A FROM parses the text again and finds an ONBUILD, which is no instruction a
trigger may be.

* **`parsed_onbuild`** — the text an ONBUILD of a Dockerfile records begins with that word, in
  whatever case, and has no line end.
* **`parseDockerfile_trigger`** — such a text parses to an ONBUILD or not at all.
* **`onbuild_never_round_trips`** — no trigger that an ONBUILD has recorded is read back as the
  inner record, and none is carried out.
-/

namespace ProotDistro

open Posix Dirfd TarExtract LayerDiff Dockerfile

namespace BuildEngine

/-- The parser as the engine calls it. -/
def parseForEngine (loads : Str → Option Json) (text : Str) : Except Failure (List Instr) :=
  match parseDockerfile loads text with
  | .error _ => .error .dockerfile
  | .ok (_, is) => .ok (is.map (·.instr))

variable {loads : Str → Option Json} {esc : Char} {lineno : Nat}

/-! ## What is recorded -/

/-- A text that begins with the word ONBUILD and a space, and is one stripped line. -/
structure OnbuildLine (raw : Str) : Prop where
  word : Keyword.ofName (upper (splitWord raw).1) = some .ONBUILD
  rest : (splitWord raw).2 ≠ []
  stripped : Text.strip raw = raw
  plain : '\n' ∉ raw ∧ '\r' ∉ raw

/-- A trigger is read from a line of its keyword and a text. -/
theorem readHeader_onbuild {text : Str} {h : Header} (hread : readHeader text lineno = .ok h)
    (honbuild : h.onbuild = true) :
    Keyword.ofName (upper (splitWord text).1) = some .ONBUILD ∧ (splitWord text).2 ≠ [] := by
  unfold readHeader at hread
  split at hread
  · cases hread
  · rename_i hword
    split at hread
    · cases hread
    · rename_i hrest
      exact ⟨hword, hrest⟩
  · cases hread
    cases honbuild

/-- A line with an ONBUILD is read as one, or not at all. -/
theorem readHeader_of_word {text : Str}
    (hword : Keyword.ofName (upper (splitWord text).1) = some .ONBUILD) :
    (∃ e, readHeader text lineno = .error e) ∨
      ∃ h, readHeader text lineno = .ok h ∧ h.onbuild = true := by
  unfold readHeader
  rw [hword]
  simp only
  split
  · exact .inl ⟨_, rfl⟩
  · split
    · exact .inl ⟨_, rfl⟩
    · exact .inl ⟨_, rfl⟩
    · exact .inr ⟨_, rfl, rfl⟩

/-- Stripping brings no character in. -/
theorem mem_of_mem_strip {c : Char} {s : Str} (h : c ∈ Text.strip s) : c ∈ s := by
  have hfront : c ∈ Text.lstrip s := (List.rdropWhile_prefix _ _).sublist.mem h
  exact (List.dropWhile_sublist _).mem hfront

theorem mem_stripTrailingEscape {c : Char} {line : Str} (h : c ∈ stripTrailingEscape esc line) :
    c ∈ line := by
  unfold stripTrailingEscape at h
  have hinner := (List.rdropWhile_prefix _ _).sublist.mem h
  split at hinner
  · exact (List.rdropWhile_prefix _ _).sublist.mem (List.mem_of_mem_dropLast hinner)
  · exact (List.rdropWhile_prefix _ _).sublist.mem hinner

/-- The parts of a logical line are made of the characters of its lines. -/
theorem logicalLine_chars {cur : Str} {rest : List Str} {p : Char → Prop}
    (h : ∀ l ∈ cur :: rest, ∀ c ∈ l, p c) :
    ∀ part ∈ (logicalLine esc cur rest).1, ∀ c ∈ part, p c := by
  have hcur : ∀ c ∈ stripTrailingEscape esc cur, p c := fun c hc =>
    h cur List.mem_cons_self c (mem_stripTrailingEscape hc)
  fun_induction logicalLine esc cur rest with
  | case1 cur rest =>
    intro part hpart
    rw [List.mem_singleton.mp hpart]
    exact hcur
  | case2 cur rest _ next rest' hdrop parts last hlast ih =>
    have hsuffix : next :: rest' <:+ cur :: rest :=
      (hdrop ▸ List.dropWhile_suffix isSkipped).trans (List.suffix_cons cur rest)
    have hnext : ∀ l ∈ next :: rest', ∀ c ∈ l, p c := fun l hl => h l (hsuffix.mem hl)
    have hparts := ih hnext fun c hc =>
      hnext next List.mem_cons_self c (mem_stripTrailingEscape hc)
    rw [hlast] at hparts
    intro part hpart
    rcases List.mem_cons.mp hpart with rfl | hpart
    · exact hcur
    · exact hparts part hpart
  | case3 cur rest =>
    intro part hpart
    rw [List.mem_singleton.mp hpart]
    exact h cur List.mem_cons_self

/-- Joining the parts of a line brings in spaces only. -/
theorem joinParts_chars {parts : List Str} {p : Char → Prop} (hspace : p ' ')
    (h : ∀ part ∈ parts, ∀ c ∈ part, p c) : ∀ c ∈ joinParts parts, p c := by
  intro c hc
  unfold joinParts at hc
  rcases Text.mem_of_mem_intercalate (mem_of_mem_strip hc) with rfl | ⟨part, hpart, hmem⟩
  · exact hspace
  · obtain ⟨line, hline, rfl⟩ := List.mem_map.mp hpart
    exact h line hline c (mem_of_mem_strip hmem)

/-- The trigger of an instruction has its text. -/
theorem instruction_onbuild {h : Header} {heredocs : List Heredoc} {raw : Str} {inner : Record}
    (hi : h.instruction loads heredocs lineno raw = .onbuild inner) :
    h.onbuild = true ∧ inner.raw = raw := by
  unfold Header.instruction at hi
  cases honbuild : h.onbuild with
  | true =>
    rw [honbuild] at hi
    cases hi
    exact ⟨rfl, rfl⟩
  | false =>
    rw [honbuild] at hi
    cases hi

/-- The trigger read in a step is the text of one line. -/
theorem parseStep_onbuild {line : Str} {rest next : List Str} {inner : Record}
    (hlines : ∀ l ∈ line :: rest, ∀ c ∈ l, c ≠ '\n' ∧ c ≠ '\r')
    (h : parseStep loads esc line rest lineno = .ok (some (.onbuild inner), next)) :
    OnbuildLine inner.raw := by
  unfold parseStep at h
  split at h
  · cases h
  · simp only at h
    split at h
    · cases h
    · obtain ⟨⟨j, lines⟩, hread, h⟩ := Result.map_ok h
      cases h
      obtain ⟨header, hheader, hread⟩ := Result.bind_ok hread
      obtain ⟨⟨heredocs, lines₁⟩, -, hread⟩ := Result.bind_ok hread
      rw [Except.ok.injEq, Prod.mk.injEq] at hread
      obtain ⟨honbuild, hraw⟩ := instruction_onbuild hread.1
      obtain ⟨hword, hrest⟩ := readHeader_onbuild hheader honbuild
      have hchars : ∀ c ∈ joinParts (logicalLine esc line rest).1, c ≠ '\n' ∧ c ≠ '\r' :=
        joinParts_chars (by decide) (logicalLine_chars hlines)
      rw [hraw]
      refine ⟨hword, hrest, ?_, fun hmem => (hchars _ hmem).1 rfl, fun hmem => (hchars _ hmem).2 rfl⟩
      unfold joinParts
      exact Text.strip_strip _

/-- What every ONBUILD on these lines records. -/
theorem parsed_onbuild {lines : List Str} {is : List Instruction} {inner : Record}
    (hlines : ∀ l ∈ lines, ∀ c ∈ l, c ≠ '\n' ∧ c ≠ '\r')
    (h : parseInstructions loads esc lines lineno = .ok is) (hmem : .onbuild inner ∈ is) :
    OnbuildLine inner.raw := by
  induction hn : lines.length using Nat.strong_induction_on generalizing lines lineno is with
  | _ n ih =>
  cases lines with
  | nil =>
    rw [parseInstructions, Except.ok.injEq] at h
    subst h
    cases hmem
  | cons line rest =>
    obtain ⟨o, next, is', hstep, his, rfl⟩ := parseInstructions_cons_eq_ok h
    have hsuffix := parseStep_suffix hstep
    have hle : next.length ≤ rest.length := hsuffix.length_le
    rw [List.length_cons] at hn
    rcases List.mem_append.mp hmem with ho | hmem
    · rw [Option.mem_toList] at ho
      rw [Option.mem_def.mp ho] at hstep
      exact parseStep_onbuild hlines hstep
    · exact ih next.length (by omega)
        (fun l hl => hlines l (List.mem_cons_of_mem _ (hsuffix.mem hl))) his hmem rfl

/-- No CR is left by reading the line ends. -/
theorem notMem_normalizeNewlines (s : Str) : '\r' ∉ normalizeNewlines s := by
  fun_induction normalizeNewlines s with
  | case1 => exact List.not_mem_nil
  | case2 s ih =>
    intro hmem
    rcases List.mem_cons.mp hmem with heq | hmem
    · cases heq
    · exact ih hmem
  | case3 s hnot ih =>
    intro hmem
    rcases List.mem_cons.mp hmem with heq | hmem
    · cases heq
    · exact ih hmem
  | case4 c s hnot hnot' ih =>
    intro hmem
    rcases List.mem_cons.mp hmem with heq | hmem
    · exact hnot' heq.symm
    · exact ih hmem

/-- No line of a text has a line end in it. -/
theorem rawLines_chars (text : Str) : ∀ l ∈ rawLines text, ∀ c ∈ l, c ≠ '\n' ∧ c ≠ '\r' := by
  intro l hl c hc
  constructor
  · rintro rfl
    exact Text.notMem_of_mem_splitOn hl hc
  · rintro rfl
    have hbom : '\r' ∈ dropBom (normalizeNewlines text) := Text.mem_of_mem_splitOn hl hc
    apply notMem_normalizeNewlines text
    unfold dropBom at hbom
    split at hbom
    · rename_i s hs
      rw [hs]
      exact List.mem_cons_of_mem _ hbom
    · exact hbom

/-- So every trigger of a file is the text of one line. -/
theorem parseDockerfile_onbuild {text : Str} {dirs : Dict Str Str} {is : List Instruction}
    {inner : Record} (h : parseDockerfile loads text = .ok (dirs, is))
    (hmem : .onbuild inner ∈ is) : OnbuildLine inner.raw := by
  unfold parseDockerfile at h
  obtain ⟨is', his, heq⟩ := Result.map_ok h
  cases heq
  exact parsed_onbuild (fun l hl => rawLines_chars text l (List.mem_of_mem_drop hl)) his hmem

/-! ## What is read back -/

/-- The first word, and that a space or nothing stands behind it. -/
theorem splitWord_append {w t : Str} (hw : ∀ c ∈ w, Text.isSpace c = false)
    (ht : t.head?.all Text.isSpace = true) : (splitWord (w ++ t)).1 = w := by
  have hpos : ∀ c ∈ w, (!Text.isSpace c) = true := by
    intro c hc
    rw [hw c hc]
    rfl
  unfold splitWord
  rw [List.takeWhile_append_of_pos hpos]
  cases t with
  | nil => simp
  | cons c t =>
    have hc : Text.isSpace c = true := ht
    rw [List.takeWhile_cons_of_neg (by simp [hc]), List.append_nil]

/-- The first word has no blank. -/
theorem splitWord_word (s : Str) : ∀ c ∈ (splitWord s).1, Text.isSpace c = false := by
  intro c hc
  have hmem := @List.mem_takeWhile_imp _ (!Text.isSpace ·) s c hc
  simpa using hmem

/-- Trimming the end of a text that has more than its first word leaves that word. -/
theorem splitWord_prefix {s t : Str} (hpre : t <+: s) (hlong : (splitWord s).1 <+: t) :
    (splitWord t).1 = (splitWord s).1 := by
  obtain ⟨u, hu⟩ := hlong
  rw [← hu]
  apply splitWord_append (splitWord_word s)
  cases u with
  | nil => rfl
  | cons c u =>
    -- what stands behind the word in `t` is what stands behind it in `s`
    obtain ⟨v, hv⟩ := hpre
    have hs : (splitWord s).1 ++ s.dropWhile (!Text.isSpace ·) = s :=
      List.takeWhile_append_dropWhile
    have hdrop : s.dropWhile (!Text.isSpace ·) = c :: (u ++ v) := by
      apply @List.append_cancel_left _ (splitWord s).1
      calc (splitWord s).1 ++ s.dropWhile (!Text.isSpace ·) = s := hs
        _ = t ++ v := hv.symm
        _ = ((splitWord s).1 ++ c :: u) ++ v := by rw [hu]
        _ = (splitWord s).1 ++ c :: (u ++ v) := by rw [List.append_assoc]; rfl
    have hhead := List.head?_dropWhile_not (!Text.isSpace ·) s
    rw [hdrop] at hhead
    show Text.isSpace c = true
    simpa using hhead

/-- Trimming space off the end takes nothing off a word in front. -/
theorem prefix_rstrip {w t : Str} (hw : ∀ c ∈ w, Text.isSpace c = false) (h : w <+: t) :
    w <+: Text.rstrip t := by
  have htrim : Text.rstrip t <+: t := List.rdropWhile_prefix _ _
  rcases List.prefix_or_prefix_of_prefix h htrim with hpre | hpre
  · exact hpre
  · obtain ⟨x, hx⟩ := hpre
    obtain ⟨u, hu⟩ := h
    have hsplit : Text.rstrip t ++ t.rtakeWhile Text.isSpace = t :=
      List.rdropWhile_append_rtakeWhile
    have htail : t.rtakeWhile Text.isSpace = x ++ u := by
      apply @List.append_cancel_left _ (Text.rstrip t)
      rw [hsplit, ← List.append_assoc, hx, hu]
    -- what was trimmed is space, and no character of the word is
    cases x with
    | nil =>
      rw [← hx, List.append_nil]
    | cons c x =>
      have hspace : Text.isSpace c = true :=
        List.mem_rtakeWhile_imp (by rw [htail]; exact List.mem_cons_self)
      rw [hw c (by rw [← hx]; simp)] at hspace
      cases hspace

section Trigger

variable {raw : Str}

/-- The line of a trigger starts with no blank, comment or mark. -/
theorem OnbuildLine.head (h : OnbuildLine raw) :
    ∃ c s, raw = c :: s ∧ c ≠ '#' ∧ c ≠ '\ufeff' ∧ Text.isSpace c = false := by
  obtain ⟨c, w, hword, hhash, hbom⟩ := ofName_upper h.word
  have hc : Text.isSpace c = false := splitWord_word raw c (by rw [hword]; exact List.mem_cons_self)
  have hraw : (splitWord raw).1 ++ raw.dropWhile (!Text.isSpace ·) = raw :=
    List.takeWhile_append_dropWhile
  rw [hword] at hraw
  exact ⟨c, w ++ raw.dropWhile (!Text.isSpace ·), hraw.symm, hhash, hbom, hc⟩

/-- The word does not reach the last character: a space stands behind it, and more. -/
theorem OnbuildLine.word_dropLast (h : OnbuildLine raw) : (splitWord raw).1 <+: raw.dropLast := by
  have hraw : (splitWord raw).1 ++ raw.dropWhile (!Text.isSpace ·) = raw :=
    List.takeWhile_append_dropWhile
  have hne : raw.dropWhile (!Text.isSpace ·) ≠ [] := by
    intro hnil
    apply h.rest
    unfold splitWord
    simp only
    rw [hnil]
    rfl
  refine ⟨(raw.dropWhile (!Text.isSpace ·)).dropLast, ?_⟩
  rw [← List.dropLast_append_of_ne_nil hne, hraw]

/-- Cutting a continuation off the end leaves the first word. -/
theorem OnbuildLine.word_joinParts (h : OnbuildLine raw) {part : Str}
    (hpart : part = raw ∨ part = stripTrailingEscape '\\' raw) :
    Keyword.ofName (upper (splitWord (joinParts [part])).1) = some .ONBUILD := by
  have hfull : (splitWord raw).1 <+: raw := ⟨_, List.takeWhile_append_dropWhile⟩
  have hboth : part <+: raw ∧ (splitWord raw).1 <+: part := by
    rcases hpart with rfl | rfl
    · exact ⟨List.prefix_refl _, hfull⟩
    · have htrim : Text.rstrip raw <+: raw := List.rdropWhile_prefix _ _
      have hlong := prefix_rstrip (splitWord_word raw) hfull
      have hshort : Text.rstrip raw = raw := by
        obtain ⟨c, s, hraw, -, -, hc⟩ := h.head
        have hfront : Text.lstrip raw = raw := by
          rw [hraw]
          exact Text.lstrip_cons hc
        have hstrip : Text.rstrip (Text.lstrip raw) = raw := h.stripped
        rwa [hfront] at hstrip
      unfold stripTrailingEscape
      simp only
      rw [hshort]
      split
      · exact ⟨(List.rdropWhile_prefix _ _).trans (List.dropLast_prefix raw),
          prefix_rstrip (splitWord_word raw) h.word_dropLast⟩
      · rw [hshort]
        exact ⟨List.prefix_refl _, hfull⟩
  obtain ⟨hpre, hlong⟩ := hboth
  have hjoin : joinParts [part] = Text.rstrip part := by
    obtain ⟨c, w, hword, -, -⟩ := ofName_upper h.word
    obtain ⟨u, hu⟩ := hlong
    have hc : Text.isSpace c = false :=
      splitWord_word raw c (by rw [hword]; exact List.mem_cons_self)
    have hfront : Text.lstrip part = part := by
      rw [← hu, hword]
      exact Text.lstrip_cons hc
    unfold joinParts
    rw [List.map_singleton, List.intercalate_singleton, Text.strip_strip]
    show Text.rstrip (Text.lstrip part) = _
    rw [hfront]
  have htrim : Text.rstrip part <+: part := List.rdropWhile_prefix _ _
  rw [hjoin, splitWord_prefix (htrim.trans hpre) (prefix_rstrip (splitWord_word raw) hlong)]
  exact h.word

/-- **A recorded trigger is an ONBUILD**, as it is read back, or does not parse. -/
theorem parseDockerfile_trigger (h : OnbuildLine raw) :
    (∃ e, parseDockerfile loads (raw ++ ['\n']) = .error e) ∨
      ∃ r, parseDockerfile loads (raw ++ ['\n']) = .ok ([], [.onbuild r]) := by
  obtain ⟨c, s, hraw, hhash, hbom, hc⟩ := h.head
  -- the text is one line, with an empty one behind it
  have hlines : rawLines (raw ++ ['\n']) = [raw, []] := by
    have hlast : raw.getLast? ≠ some '\r' := fun hl => h.plain.2 (List.mem_of_getLast? hl)
    rw [rawLines_append hlast (by simp)]
    have hone : rawLines raw = [raw] := by
      unfold rawLines
      rw [normalizeNewlines_of_notMem h.plain.2, dropBom_of_head, List.splitOn_eq_singleton h.plain.1]
      rw [hraw]
      intro hhead
      exact hbom (Option.some.inj hhead)
    rw [hone]
    rfl
  -- the line is no comment and no directive
  have hskip : isSkipped raw = false := by
    unfold isSkipped
    rw [hraw, Text.lstrip_cons hc]
    exact beq_eq_false_iff_ne.mpr hhash
  have hdir : directive raw = none := by
    unfold directive
    rw [h.stripped, hraw]
    split
    · rename_i inner heq
      injection heq with heq
      exact absurd heq hhash
    · rfl
  have hzone : parseDirectives [raw, []] [] = ([], 0) := by
    rw [parseDirectives, if_neg, hdir]
    rw [h.stripped, hraw]
    exact List.cons_ne_nil _ _
  -- and it goes on to no other line
  obtain ⟨part, last, hlogical, hpart⟩ : ∃ part last, logicalLine '\\' raw [[]] = ([part], last) ∧
      (part = raw ∨ part = stripTrailingEscape '\\' raw) := by
    rw [logicalLine]
    split
    · exact ⟨_, _, rfl, .inr rfl⟩
    · exact ⟨_, _, rfl, .inl rfl⟩
  have hword := h.word_joinParts hpart
  have htext : joinParts [part] ≠ [] := by
    intro hnil
    rw [hnil] at hword
    cases hword
  -- the step reads an ONBUILD or fails, and behind it there is a blank line at most
  have hstep : (∃ e, parseStep loads '\\' raw [[]] 1 = .error e) ∨
      ∃ r next, parseStep loads '\\' raw [[]] 1 = .ok (some (.onbuild r), next) := by
    unfold parseStep
    rw [if_neg (by simp [hskip])]
    simp only
    rw [hlogical, if_neg htext]
    unfold readInstruction
    rcases @readHeader_of_word 1 _ hword with ⟨e, he⟩ | ⟨header, hheader, honbuild⟩
    · rw [he]
      exact .inl ⟨e, rfl⟩
    · rw [hheader]
      cases hread : readHeredocs header last with
      | error e =>
        left
        refine ⟨e, ?_⟩
        show Except.map _ ((readHeredocs header last).bind _) = _
        rw [hread]
        rfl
      | ok r =>
        right
        refine ⟨(header.instruction loads r.1 1 (joinParts [part])).record, r.2, ?_⟩
        show Except.map _ ((readHeredocs header last).bind _) = _
        rw [hread]
        show Except.ok (some (header.instruction loads r.1 1 (joinParts [part])), r.2) = _
        unfold Header.instruction
        rw [honbuild]
        rfl
  unfold parseDockerfile
  simp only
  rw [hlines, hzone]
  show (∃ e, Except.map _ (parseInstructions loads '\\' [raw, []] 1) = .error e) ∨
    ∃ r, Except.map _ (parseInstructions loads '\\' [raw, []] 1) = .ok _
  rcases hstep with ⟨e, he⟩ | ⟨r, next, hr⟩
  · rw [parseInstructions_cons_error he]
    exact .inl ⟨e, rfl⟩
  · right
    refine ⟨r, ?_⟩
    have hnext : ∀ n, parseInstructions loads '\\' next n = .ok [] := by
      intro n
      have hsuffix : next <:+ [[]] := parseStep_suffix hr
      rcases List.suffix_cons_iff.mp hsuffix with rfl | hnil
      · rw [parseInstructions_cons (show parseStep loads '\\' [] [] n = .ok (none, []) from rfl),
          parseInstructions]
        rfl
      · rw [List.suffix_nil.mp hnil, parseInstructions]
    rw [parseInstructions_cons hr, hnext]
    rfl

end Trigger

/-! ## What is carried out -/

/-- The text `inner` was recorded as is read back as one instruction equal to it. -/
def RoundTrips (loads : Str → Option Json) (inner : Record) : Prop :=
  ∃ dirs r, parseDockerfile loads (inner.raw ++ ['\n']) = .ok (dirs, [.plain r]) ∧
    r.name = inner.name ∧ r.flags = inner.flags ∧ r.value = inner.value ∧
    r.heredocs = inner.heredocs

/-- A trigger that is an ONBUILD ends the build. -/
theorem fireTrigger_onbuild {b : Build} {e : Engine} {raw : Str} {r : Record}
    (hb : b.parseDockerfile = parseForEngine loads)
    (hparse : parseDockerfile loads (raw ++ ['\n']) = .ok ([], [.onbuild r])) :
    Engine.fireTrigger b e raw = .error .build := by
  unfold Engine.fireTrigger
  have hinstrs : b.parseDockerfile (raw ++ ['\n']) = .ok [(Instruction.onbuild r).instr] := by
    rw [hb]
    unfold parseForEngine
    rw [hparse]
    rfl
  rw [hinstrs]
  show [(Instruction.onbuild r).instr].foldlM (Engine.runTriggered b) e = _
  rw [List.foldlM_cons]
  unfold Engine.runTriggered
  cases e.current with
  | none => rfl
  | some stage => rfl

/-- **No ONBUILD round-trips.** Whatever the Dockerfile and whatever is behind the word ONBUILD in
it: the text that is recorded is not read back as the inner record, and a FROM that fires it ends
the build. -/
theorem onbuild_never_round_trips (loads : Str → Option Json) (b : Build)
    (hb : b.parseDockerfile = parseForEngine loads) (text : Str) (dirs : Dict Str Str)
    (is : List Instruction) (inner : Record) (hparse : parseDockerfile loads text = .ok (dirs, is))
    (hmem : .onbuild inner ∈ is) :
    (∀ stage w, doOnbuild b (Instruction.onbuild inner).instr stage w =
      .ok (stage.setConfig fun cfg =>
        { cfg with onBuild := some (cfg.onBuild.getD [] ++ [inner.raw]) }, w)) ∧
    ¬ RoundTrips loads inner ∧ ∀ e, ∃ f, Engine.fireTrigger b e inner.raw = .error f := by
  have hline := parseDockerfile_onbuild hparse hmem
  refine ⟨fun _ _ => rfl, ?_, ?_⟩
  · rintro ⟨dirs', r, hr, -⟩
    rcases @parseDockerfile_trigger loads _ hline with ⟨e, he⟩ | ⟨r', hr'⟩
    · rw [he] at hr
      cases hr
    · rw [hr'] at hr
      cases hr
  · intro e
    rcases @parseDockerfile_trigger loads _ hline with ⟨err, herr⟩ | ⟨r, hr⟩
    · refine ⟨.dockerfile, ?_⟩
      have hinstrs : b.parseDockerfile (inner.raw ++ ['\n']) = .error .dockerfile := by
        rw [hb]
        unfold parseForEngine
        rw [herr]
      unfold Engine.fireTrigger
      rw [hinstrs]
      rfl
    · exact ⟨.build, fireTrigger_onbuild hb hr⟩

/-- `ONBUILD RUN make`, as the parser reads it. -/
def onbuildMake : Record :=
  ⟨.RUN, [], .text "make".toList, [], 2, "ONBUILD RUN make".toList⟩

theorem onbuild_never_round_trips_make : ¬ RoundTrips noJson onbuildMake :=
  (onbuild_never_round_trips noJson
    { Engine.onPaper with parseDockerfile := parseForEngine noJson } rfl
    "FROM scratch\nONBUILD RUN make".toList []
    [.plain ⟨.FROM, [], .text "scratch".toList, [], 1, "FROM scratch".toList⟩, .onbuild onbuildMake]
    onbuildMake (by decide +kernel) (by simp)).2.1

/-- **`ONBUILD RUN make`** is recorded with the word in front, is read back as an ONBUILD, and ends
the build of whoever builds on it. -/
theorem onbuild_reads_back_onbuild :
    parseDockerfile noJson "FROM scratch\nONBUILD RUN make".toList =
      .ok ([], [.plain ⟨.FROM, [], .text "scratch".toList, [], 1, "FROM scratch".toList⟩,
        .onbuild onbuildMake]) ∧
    parseDockerfile noJson (onbuildMake.raw ++ ['\n']) =
      .ok ([], [.onbuild { onbuildMake with lineno := 1 }]) ∧
    ∀ e, Engine.fireTrigger { Engine.onPaper with parseDockerfile := parseForEngine noJson } e
      onbuildMake.raw = .error .build := by
  have hread : parseDockerfile noJson (onbuildMake.raw ++ ['\n']) =
      .ok ([], [.onbuild { onbuildMake with lineno := 1 }]) := by decide +kernel
  exact ⟨by decide +kernel, hread, fun _ => fireTrigger_onbuild rfl hread⟩

end BuildEngine

end ProotDistro
