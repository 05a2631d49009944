import ProotDistro.BuildEngine.Engine
import ProotDistro.Dockerfile.Heredocs

/-!
# `build_engine/run_step`: what a RUN with here-documents executes

A shell-form RUN that carries here-documents hands the shell the text of their bodies, joined by
line ends, and nothing of the command its line says.

* **`parsed_bodies`** — the body of a here-document is the text of its lines.
* **`intercalate_bodyText`** — the joined bodies are the text of one list of lines, with an empty
  line between one body and the next.
* **`run_heredocs_told_iff`** — two steps that differ are told apart if and only if these lines
  differ.
* **`run_heredocs_merged`** — `cat <<EOF > /f` and `python3 <<EOF` execute the same.
-/

namespace ProotDistro

open Dockerfile

namespace BuildEngine

/-! ## Bodies as lines -/

/-- The lines of a text each of whose lines is ended. -/
def bodyLines (body : Str) : List Str := (body.splitOn '\n').dropLast

/-- The text of a body splits into its lines and the empty end. -/
theorem splitOn_bodyText {lines : List Str} (h : ∀ l ∈ lines, '\n' ∉ l) :
    (bodyText lines).splitOn '\n' = lines ++ [[]] := by
  induction lines with
  | nil => rfl
  | cons l lines ih =>
    rw [bodyText_cons, List.splitOn_append_cons_self,
      List.splitOn_eq_singleton (h l List.mem_cons_self),
      ih fun l' hl' => h l' (List.mem_cons_of_mem _ hl')]
    rfl

/-- The lines of a body are read back from its text. -/
theorem bodyLines_bodyText {lines : List Str} (h : ∀ l ∈ lines, '\n' ∉ l) :
    bodyLines (bodyText lines) = lines := by
  unfold bodyLines
  rw [splitOn_bodyText h, List.dropLast_concat]

/-- The text of two bodies is their texts. -/
theorem bodyText_append (lines more : List Str) :
    bodyText (lines ++ more) = bodyText lines ++ bodyText more := by
  induction lines with
  | nil => rfl
  | cons l lines ih =>
    rw [List.cons_append, bodyText_cons, bodyText_cons, ih, List.append_assoc, List.cons_append]

/-- **Joined bodies** are the text of their lines with an empty line between two of them. -/
theorem intercalate_bodyText (bodies : List (List Str)) (hne : bodies ≠ []) :
    ['\n'].intercalate (bodies.map bodyText) = bodyText ([[]].intercalate bodies) := by
  induction bodies with
  | nil => exact absurd rfl hne
  | cons lines bodies ih =>
    cases bodies with
    | nil =>
      rw [List.map_singleton, List.intercalate_singleton, List.intercalate_singleton]
    | cons lines' bodies =>
      rw [List.map_cons, List.map_cons, List.intercalate_cons_cons, List.intercalate_cons_cons,
        bodyText_append, bodyText_append, ← ih (List.cons_ne_nil _ _)]
      rfl

/-! ## What the parser promises -/

/-- A text that is the text of lines. -/
def IsBody (body : Str) : Prop := ∃ lines, body = bodyText lines ∧ ∀ l ∈ lines, '\n' ∉ l

/-- What is collected are bodies: whole lines. -/
theorem collectBodies_isBody {tags : List (Bool × Str)} {lines rest : List Str}
    {heredocs : List Heredoc} (hlines : ∀ l ∈ lines, '\n' ∉ l)
    (h : collectBodies tags lines = .ok (heredocs, rest)) : ∀ hd ∈ heredocs, IsBody hd.body := by
  induction tags generalizing lines heredocs with
  | nil =>
    cases h
    exact fun hd hhd => absurd hhd List.not_mem_nil
  | cons tag tags ih =>
    obtain ⟨⟨text, lines₁⟩, hbody, h⟩ := Result.bind_ok h
    obtain ⟨⟨heredocs₁, lines₂⟩, hbodies, h⟩ := Result.bind_ok h
    cases h
    obtain ⟨body, close, htail, -, htext⟩ := collectHeredocBody_eq_ok hbody
    have htailLines : ∀ l ∈ body ++ close :: lines₁, '\n' ∉ l := fun l hl =>
      hlines l (List.mem_of_mem_tail (by rw [htail]; exact hl))
    intro hd hhd
    rcases List.mem_cons.mp hhd with rfl | hhd
    · refine ⟨body.map (bodyLine tag.1), htext, ?_⟩
      intro l hl
      obtain ⟨l', hl', rfl⟩ := List.mem_map.mp hl
      exact notMem_bodyLine (htailLines l' (List.mem_append_left _ hl'))
    · exact ih (fun l hl => htailLines l (by simp [hl])) hbodies hd hhd

/-- The record of an instruction has the documents read with it. -/
theorem instruction_heredocs {loads : Str → Option Json} (h : Header) (heredocs : List Heredoc)
    (lineno : Nat) (raw : Str) :
    (h.instruction loads heredocs lineno raw).record.heredocs = heredocs := by
  unfold Header.instruction
  cases h.onbuild <;> rfl

theorem parseStep_isBody {loads : Str → Option Json} {esc : Char} {line : Str}
    {rest next : List Str} {lineno : Nat} {i : Instruction}
    (hlines : ∀ l ∈ line :: rest, '\n' ∉ l)
    (h : parseStep loads esc line rest lineno = .ok (some i, next)) :
    ∀ hd ∈ i.record.heredocs, IsBody hd.body := by
  unfold parseStep at h
  split at h
  · cases h
  · simp only at h
    split at h
    · cases h
    · obtain ⟨⟨j, lines⟩, hread, h⟩ := Result.map_ok h
      cases h
      obtain ⟨header, -, hread⟩ := Result.bind_ok hread
      obtain ⟨⟨heredocs, lines₁⟩, hheredocs, hread⟩ := Result.bind_ok hread
      cases hread
      rw [instruction_heredocs]
      have hsuffix := logicalLine_suffix esc line rest
      unfold readHeredocs at hheredocs
      split at hheredocs
      · cases hheredocs
        exact fun hd hhd => absurd hhd List.not_mem_nil
      · exact collectBodies_isBody (fun l hl => hlines l (hsuffix.mem hl)) hheredocs

/-- **The bodies of a Dockerfile** are texts of lines. -/
theorem parsed_bodies {loads : Str → Option Json} {esc : Char} {lines : List Str} {lineno : Nat}
    {is : List Instruction} (hlines : ∀ l ∈ lines, '\n' ∉ l)
    (h : parseInstructions loads esc lines lineno = .ok is) :
    ∀ i ∈ is, ∀ hd ∈ i.record.heredocs, IsBody hd.body := by
  induction hn : lines.length using Nat.strong_induction_on generalizing lines lineno is with
  | _ n ih =>
  cases lines with
  | nil =>
    rw [parseInstructions, Except.ok.injEq] at h
    subst h
    exact fun i hi => absurd hi List.not_mem_nil
  | cons line rest =>
    obtain ⟨o, next, is', hstep, his, rfl⟩ := parseInstructions_cons_eq_ok h
    have hsuffix := parseStep_suffix hstep
    have hle : next.length ≤ rest.length := hsuffix.length_le
    rw [List.length_cons] at hn
    have hrest := ih next.length (by omega)
      (fun l hl => hlines l (List.mem_cons_of_mem _ (hsuffix.mem hl))) his rfl
    intro i hi
    rcases List.mem_append.mp hi with ho | hi
    · rw [Option.mem_toList] at ho
      rw [Option.mem_def.mp ho] at hstep
      exact parseStep_isBody hlines hstep
    · exact hrest i hi

theorem parseDockerfile_bodies {loads : Str → Option Json} {text : Str} {dirs : Dict Str Str}
    {is : List Instruction} (h : parseDockerfile loads text = .ok (dirs, is)) :
    ∀ i ∈ is, ∀ hd ∈ i.record.heredocs, IsBody hd.body := by
  unfold parseDockerfile at h
  obtain ⟨is', his, heq⟩ := Result.map_ok h
  cases heq
  exact parsed_bodies (fun l hl => Text.notMem_of_mem_splitOn (List.mem_of_mem_drop hl)) his

/-! ## The step -/

/-- The command text around the openers. -/
def outsideOpeners (value : Str) : Str :=
  match value with
  | [] => []
  | c :: s =>
    match _h : matchOpener (c :: s) with
    | some (_, _, rest) => outsideOpeners rest
    | none => c :: outsideOpeners s
termination_by value.length
decreasing_by
  · exact matchOpener_length _h
  · exact Nat.lt_succ_self _

/-- Two RUN instructions with different commands around the openers, or different bodies. -/
def Differ (r r' : Record) (command command' : Str) : Prop :=
  outsideOpeners command ≠ outsideOpeners command' ∨
    r.heredocs.map (·.body) ≠ r'.heredocs.map (·.body)

/-- The lines of all bodies, with an empty line between one body and the next. -/
def scriptLines (r : Record) : List Str :=
  [[]].intercalate (r.heredocs.map fun hd => bodyLines hd.body)

/-- The joined bodies of an instruction. -/
theorem joined_eq {r : Record} (hne : r.heredocs ≠ []) (h : ∀ hd ∈ r.heredocs, IsBody hd.body) :
    ['\n'].intercalate (r.heredocs.map (·.body)) = bodyText (scriptLines r) ∧
      ∀ l ∈ scriptLines r, '\n' ∉ l := by
  have hbody : ∀ hd ∈ r.heredocs, hd.body = bodyText (bodyLines hd.body) ∧
      ∀ l ∈ bodyLines hd.body, '\n' ∉ l := by
    intro hd hhd
    obtain ⟨lines, hlines, hlf⟩ := h hd hhd
    rw [hlines, bodyLines_bodyText hlf]
    exact ⟨rfl, hlf⟩
  constructor
  · have hmap : r.heredocs.map (·.body) =
        (r.heredocs.map fun hd => bodyLines hd.body).map bodyText := by
      rw [List.map_map]
      exact List.map_congr_left fun hd hhd => (hbody hd hhd).1
    unfold scriptLines
    rw [hmap, intercalate_bodyText]
    exact fun hnil => hne (List.map_eq_nil_iff.mp hnil)
  · intro l hl
    rcases Text.mem_of_mem_intercalate hl with rfl | ⟨part, hpart, hmem⟩
    · exact List.not_mem_nil
    · obtain ⟨hd, hhd, rfl⟩ := List.mem_map.mp hpart
      exact (hbody hd hhd).2 l hmem

/-- The command of a step with documents is the shell's and the bodies, joined. -/
theorem runCommand_heredocs (b : Build) (stage : Stage) {r : Record} {command : Str}
    (hvalue : r.value = .text command) (hne : r.heredocs ≠ []) :
    runCommand b stage (Instruction.plain r).instr =
      stage.shell ++ [['\n'].intercalate (r.heredocs.map (·.body))] := by
  unfold runCommand Instruction.instr
  simp only
  rw [hvalue]
  exact if_pos fun hnil => hne (List.map_eq_nil_iff.mp hnil)

/-- **Two steps are told apart** by what they execute if and only if the lines of their bodies,
with an empty line between one body and the next, are not the same. -/
theorem run_heredocs_told_iff (loads : Str → Option Json) (b : Build) (stage : Stage)
    (text text' command command' : Str) (dirs dirs' : Dict Str Str) (is is' : List Instruction)
    (r r' : Record) (hparse : parseDockerfile loads text = .ok (dirs, is))
    (hparse' : parseDockerfile loads text' = .ok (dirs', is')) (hr : .plain r ∈ is)
    (hr' : .plain r' ∈ is') (hvalue : r.value = .text command)
    (hvalue' : r'.value = .text command') (hne : r.heredocs ≠ []) (hne' : r'.heredocs ≠ []) :
    (Differ r r' command command' →
      runCommand b stage (Instruction.plain r).instr ≠
        runCommand b stage (Instruction.plain r').instr) ↔
      (Differ r r' command command' → scriptLines r ≠ scriptLines r') := by
  obtain ⟨hjoined, hlf⟩ := joined_eq hne (parseDockerfile_bodies hparse _ hr)
  obtain ⟨hjoined', hlf'⟩ := joined_eq hne' (parseDockerfile_bodies hparse' _ hr')
  have hsame : runCommand b stage (Instruction.plain r).instr =
      runCommand b stage (Instruction.plain r').instr ↔ scriptLines r = scriptLines r' := by
    rw [runCommand_heredocs b stage hvalue hne, runCommand_heredocs b stage hvalue' hne', hjoined,
      hjoined', List.append_cancel_left_eq, List.cons.injEq, and_iff_left rfl]
    constructor
    · intro heq
      rw [← bodyLines_bodyText hlf, heq, bodyLines_bodyText hlf']
    · intro heq
      rw [heq]
  constructor
  · intro htold hdiffer heq
    exact htold hdiffer (hsame.mpr heq)
  · intro hlines hdiffer heq
    exact hlines hdiffer (hsame.mp heq)

/-- The step of a line and a body of one line. -/
def catRecord (line command : String) (body : List String) : Record :=
  ⟨.RUN, [], .text command.toList, body.map fun t => ⟨"EOF".toList, false, t.toList⟩, 1,
    line.toList⟩

theorem run_heredocs_told_iff_bodies :
    Differ (catRecord "RUN cat <<EOF" "cat <<EOF" ["x\n"])
        (catRecord "RUN cat <<EOF" "cat <<EOF" ["y\n"]) "cat <<EOF".toList "cat <<EOF".toList ∧
      runCommand Engine.onPaper (Stage.new 0 none)
          (Instruction.plain (catRecord "RUN cat <<EOF" "cat <<EOF" ["x\n"])).instr ≠
        runCommand Engine.onPaper (Stage.new 0 none)
          (Instruction.plain (catRecord "RUN cat <<EOF" "cat <<EOF" ["y\n"])).instr := by
  have hdiffer : Differ (catRecord "RUN cat <<EOF" "cat <<EOF" ["x\n"])
      (catRecord "RUN cat <<EOF" "cat <<EOF" ["y\n"]) "cat <<EOF".toList "cat <<EOF".toList :=
    .inr (by decide)
  refine ⟨hdiffer, ?_⟩
  exact (run_heredocs_told_iff noJson Engine.onPaper (Stage.new 0 none) "RUN cat <<EOF\nx\nEOF".toList
    "RUN cat <<EOF\ny\nEOF".toList "cat <<EOF".toList "cat <<EOF".toList [] []
    [.plain (catRecord "RUN cat <<EOF" "cat <<EOF" ["x\n"])]
    [.plain (catRecord "RUN cat <<EOF" "cat <<EOF" ["y\n"])] _ _ (by decide +kernel)
    (by decide +kernel) List.mem_cons_self List.mem_cons_self rfl rfl (by decide) (by decide)).mpr
    (fun _ => by decide +kernel) hdiffer

/-- **The command is not executed**: writing a file and running a program are the same step. -/
theorem run_heredocs_merged :
    parseDockerfile noJson "RUN cat <<EOF > /f\nx\nEOF".toList =
      .ok ([], [.plain (catRecord "RUN cat <<EOF > /f" "cat <<EOF > /f" ["x\n"])]) ∧
    parseDockerfile noJson "RUN python3 <<EOF\nx\nEOF".toList =
      .ok ([], [.plain (catRecord "RUN python3 <<EOF" "python3 <<EOF" ["x\n"])]) ∧
    outsideOpeners "cat <<EOF > /f".toList ≠ outsideOpeners "python3 <<EOF".toList ∧
    ∀ (b : Build) (stage : Stage),
      runCommand b stage
          (Instruction.plain (catRecord "RUN cat <<EOF > /f" "cat <<EOF > /f" ["x\n"])).instr =
        runCommand b stage
          (Instruction.plain (catRecord "RUN python3 <<EOF" "python3 <<EOF" ["x\n"])).instr := by
  refine ⟨by decide +kernel, by decide +kernel, by decide +kernel, ?_⟩
  intro b stage
  rfl

end BuildEngine

end ProotDistro
