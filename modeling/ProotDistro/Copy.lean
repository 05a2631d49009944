import ProotDistro.Dirfd.CopyTree

/-!
# `copy --move` across devices

`_move_pinned` with the copy and the removal it falls back to where `rename` cannot do it, over a
kernel that may refuse any call. Both ends are names in directories that were pinned; the file
system is one map, so that they are on different devices is the `EXDEV` of the `rename`.

* **`MoveSafe`** — what a move owes its files, at every moment and however it ends.
* **`moveDir_kept`** / **`moveOther_kept`** — at every moment of the move the source is as it was
  or the whole copy is at the destination.
* **`move_safe_iff`** — a move is safe whatever fails on the way, if and only if it is not one of a
  file or a link onto another: that one takes the destination away before it reads the source.
* **`move_loses_destination`** — such a move that fails, and the destination is gone.
-/

namespace ProotDistro.Copy

open Posix CopyTree
open Removal (statDir makeWritable rmtreeAt refuseOnly)

/-! ## The commands -/

/-- `_copy_tree_pinned`. -/
def copyTreePinned (K : Kernel) (merge : Bool) (srcDir : Path) (srcLeaf : Name) (dstDir : Path)
    (dstLeaf : Name) : HostSys Report := do
  let src ← query K.faults (·.openDirAt srcDir srcLeaf)
  let stat ← fstatDir K.faults src
  (act K.faults (·.mkdirAt dstDir dstLeaf (0o700 &&& ~~~K.umask))).handle fun e =>
    if e = .EEXIST ∧ merge = true then pure () else .fail e
  let dst ← query K.faults (·.openDirAt dstDir dstLeaf)
  makeWritable K.faults dst
  let r ← copyTreeAt K merge src dst
  copyDirMetadata K dst stat
  pure r

/-- `rmtree_at` with `force` and without an `on_error` handler. -/
def rmtreeRaising (K : Kernel) (d : Path) (name : Name) : HostSys Unit := fun h =>
  match rmtreeAt K.faults true false d name h with
  | none => (.error .ENOTEMPTY, h)
  | some out =>
    match out.report.errors with
    | [] => (.ok (), out.host)
    | (_, e) :: _ => (.error e, out.host)

/-- The move of a directory: nothing is removed unless the copy is complete. -/
def moveDir (K : Kernel) (srcDir : Path) (srcLeaf : Name) (dstDir : Path) (dstLeaf : Name) :
    HostSys Nat := do
  let r ← copyTreePinned K false srcDir srcLeaf dstDir dstLeaf
  if r.errors.length + r.skipped.length = 0 then do
    rmtreeRaising K srcDir srcLeaf
    pure 0
  else pure (r.errors.length + r.skipped.length)

/-- The move of anything else: what holds the destination name goes first. -/
def moveOther (K : Kernel) (copy : HostSys Unit) (srcDir : Path) (srcLeaf : Name) (dstDir : Path)
    (dstLeaf : Name) : HostSys Nat := do
  (act K.faults (·.unlinkAt dstDir dstLeaf)).quietly
  copy
  act K.faults (·.unlinkAt srcDir srcLeaf)
  pure 0

/-- `_move_pinned` between two devices. -/
def movePinned (K : Kernel) (srcDir : Path) (srcLeaf : Name) (dstDir : Path) (dstLeaf : Name) :
    HostSys Nat := do
  (act K.faults fun _ => .error .EXDEV).handle fun e => if e = .EXDEV then pure () else .fail e
  match ← query K.faults (·.lstatAt srcDir srcLeaf) with
  | .dir _ => moveDir K srcDir srcLeaf dstDir dstLeaf
  | .symlink _ =>
    moveOther K (copySymlinkAt K false srcDir srcLeaf dstDir dstLeaf) srcDir srcLeaf dstDir dstLeaf
  | .file _ _ =>
    moveOther K (copyFileAt K false srcDir srcLeaf dstDir dstLeaf) srcDir srcLeaf dstDir dstLeaf

/-! ## What a move owes -/

/-- Everything the source had is at the destination, up to modes. -/
def Complete (S : Fs) (src dst : Path) (fs : Fs) : Prop :=
  ∀ r e, S.get (src ++ r) = some e → ∃ e', fs.get (dst ++ r) = some e' ∧ Alike False e e'

/-- The source is as it was. -/
def Intact (S : Fs) (src : Path) (fs : Fs) : Prop :=
  ∀ r, fs.get (src ++ r) = S.get (src ++ r)

/-- A file with the given content stands at a path. -/
def HasContent (fs : Fs) (p : Path) (content : Bytes) : Prop :=
  ∃ i data, fs.get p = some (.file i data) ∧ data.content = content

/-- A move reports failure by raising or by the number of entries it did not carry across. -/
def reportsFailure : Except Errno Nat → Bool
  | .ok n => n ≠ 0
  | .error _ => true

/-- What a move from `src` to `dst` that starts on `S` owes. -/
structure MoveSafe (S : Fs) (src dst : Path) (out : Except Errno Nat × Host) : Prop where
  /-- at every moment each file's content is at the source or at the destination -/
  content : ∀ fs ∈ out.2.states, ∀ r i data, S.get (src ++ r) = some (.file i data) →
    HasContent fs (src ++ r) data.content ∨ HasContent fs (dst ++ r) data.content
  /-- no moment lacks a part of the source before the copy is complete -/
  removal : ∀ fs ∈ out.2.states, ∀ r, S.get (src ++ r) ≠ none → fs.get (src ++ r) = none →
    Complete S src dst fs
  /-- a failed move leaves a destination that was there as it was -/
  failure : reportsFailure out.1 = true → S.get dst ≠ none →
    ∀ q, dst <+: q → out.2.fs.get q = S.get q

/-- Where every moment has the source or the whole copy, nothing is lost. -/
theorem MoveSafe.of_states {S : Fs} {src dst : Path} {out : Except Errno Nat × Host}
    (hstates : ∀ fs ∈ out.2.states, Intact S src fs ∨ Complete S src dst fs)
    (hfailure : reportsFailure out.1 = true → S.get dst ≠ none →
      ∀ q, dst <+: q → out.2.fs.get q = S.get q) : MoveSafe S src dst out where
  content := by
    intro fs hfs r i data hfile
    rcases hstates fs hfs with hintact | hcomplete
    · exact .inl ⟨i, data, (hintact r).trans hfile, rfl⟩
    · right
      obtain ⟨e', he', hlike⟩ := hcomplete r _ hfile
      cases e' with
      | file i' data' => exact ⟨i', data', he', hlike.1⟩
      | dir m => cases hlike
      | symlink t => cases hlike
  removal := by
    intro fs hfs r hthere hnone
    rcases hstates fs hfs with hintact | hcomplete
    · rw [hintact r] at hnone
      exact absurd hnone hthere
    · exact hcomplete
  failure := hfailure

/-! ## The copy -/

section Move

variable {K : Kernel} {S : Fs} {h₀ h : Host} {srcDir dstDir : Path} {srcLeaf dstLeaf : Name}

/-- What is opened as a directory is one. -/
theorem openDirAt_ok {fs : Fs} {d p : Path} {name : Name} (hv : ValidName name)
    (h : fs.openDirAt d name = .ok p) : p = d ++ [name] ∧ fs.IsDir (d ++ [name]) := by
  unfold Fs.openDirAt at h
  rw [Fs.locate_valid hv] at h
  split at h
  · rename_i m hm
    cases h
    exact ⟨rfl, m, hm⟩
  all_goals cases h

/-- The contents and the mode of a directory that was made at the destination. -/
theorem copyContents_spec {src dst : Path} {h₁ : Host} {stat : DirStat} (hapart : Apart src dst)
    (hsrc : h₀.fs.IsDir src) (hw : Within (dst <+: ·) h₀ h₁) (hdst : h₁.fs.IsDir dst) :
    Proc.Triple (fun s => s = h₁)
      (do
        let r ← copyTreeAt K false src dst
        copyDirMetadata K dst stat
        pure r)
      (fun r h => Within (dst <+: ·) h₀ h ∧
        (r.errors = [] → r.skipped = [] → Complete h₀.fs src dst h.fs))
      (Within (dst <+: ·) h₀) := by
  have hsource : Source h₀.fs src h₁ := Source.within (fun _ => rfl) hw hapart fun _ hq => hq
  have hsrc₁ : h₁.fs.IsDir src := by
    obtain ⟨m, hm⟩ := hsrc
    have hroot := hsource []
    rw [List.append_nil, hm] at hroot
    exact ⟨m, hroot⟩
  have hbelow : ∀ h, Within (fun q => Below (dst ++ []) q) h₁ h → Within (dst <+: ·) h₀ h :=
    fun h hb => hw.trans (hb.mono fun q hq => below_prefix hq)
  -- the copy goes below the destination, and leaves the source as it was
  have hcopy := copyTreeAt_spec K false hapart hsrc₁
  apply Proc.Triple.bind (Proc.Triple.conseq hcopy (fun _ hs => hs) (fun _ _ hp => hp)
    fun h hb => hbelow h hb.within)
  intro r h₂ hp
  have hdst₂ : h₂.fs.IsDir dst := by
    obtain ⟨m, hm⟩ := hdst
    refine ⟨m, ?_⟩
    rw [← hm]
    apply hp.bounded.within.now
    rintro ⟨t, ht, heq⟩
    rw [List.append_nil, List.self_eq_append_right] at heq
    exact ht heq
  -- the mode is set last, on the destination itself
  apply Proc.Triple.bind (copyDirMetadata_spec hdst₂) ?_ h₂ (Within.refl _ _)
  intro _
  apply Proc.Triple.pure
  rintro h₃ ⟨hw₃, m', hm', -⟩
  refine ⟨(hbelow h₂ hp.bounded.within).trans (hw₃.mono fun q hq => ?_), ?_⟩
  · show dst <+: q
    rw [hq]
  -- the root has its mode, what is below it was copied
  · intro herrors hskipped t e he
    by_cases ht : t = []
    · subst ht
      obtain ⟨m, hm⟩ := hsrc
      rw [List.append_nil, hm, Option.some.injEq] at he
      rw [List.append_nil, ← he]
      exact ⟨_, hm', False.elim⟩
    · have hmirror := hp.mirrored herrors t ⟨t, ht, rfl⟩ (by rintro ⟨p, n, hmerge, -⟩; cases hmerge)
      have hplain : ¬ Special K h₁.fs (src ++ t) := by
        intro hspecial
        have hnoted := hp.noted herrors t ⟨t, ht, rfl⟩ hspecial
        rw [hskipped] at hnoted
        cases hnoted
      obtain ⟨e', he', hlike⟩ := hmirror.copied e ((hsource t).trans he) hplain
      refine ⟨e', ?_, hlike.weaken⟩
      rw [hw₃.now _ fun heq => ht (List.append_right_eq_self.mp heq), he']

/-- The copy of a directory onto a free name, and what it leaves of the source where it reports
neither an error nor an entry left out. -/
theorem copyTreePinned_spec (hv : ValidName srcLeaf) (hv' : ValidName dstLeaf)
    (hapart : Apart (srcDir ++ [srcLeaf]) (dstDir ++ [dstLeaf])) :
    Proc.Triple (Within (fun _ => False) h₀) (copyTreePinned K false srcDir srcLeaf dstDir dstLeaf)
      (fun r h => Within (dstDir ++ [dstLeaf] <+: ·) h₀ h ∧
        (r.errors = [] → r.skipped = [] →
          Complete h₀.fs (srcDir ++ [srcLeaf]) (dstDir ++ [dstLeaf]) h.fs))
      (Within (dstDir ++ [dstLeaf] <+: ·) h₀) := by
  unfold copyTreePinned
  -- the source opens, so it was a directory
  apply Proc.Triple.bind (Q := fun src h => (Within (dstDir ++ [dstLeaf] <+: ·) h₀ h) ∧
    src = srcDir ++ [srcLeaf] ∧ h₀.fs.IsDir (srcDir ++ [srcLeaf]))
  · apply Triple.query
    · intro h src hw hopen
      obtain ⟨hsrc, m, hm⟩ := openDirAt_ok hv hopen
      exact ⟨hw.of_unchanged.tick, hsrc, m, by rw [← hw.unchanged, hm]⟩
    · intro h hw
      exact hw.of_unchanged.tick
  · intro src
    apply Proc.Triple.assuming
    rintro ⟨rfl, hsrc⟩
    apply Proc.Keeps.bind_triple fstatDir_within (fun _ hw => hw)
    intro stat _
    -- the destination is made, and is new
    have hmkdir : Proc.Keeps (Within (dstDir ++ [dstLeaf] <+: ·) h₀)
        ((act K.faults (·.mkdirAt dstDir dstLeaf (0o700 &&& ~~~K.umask))).handle fun e =>
          if e = .EEXIST ∧ false = true then pure () else .fail e) fun _ => True := by
      apply Proc.Keeps.handle
      · apply Within.act
        intro fs fs' hfs q hq
        rw [(Fs.mknodAt_ok hfs).2.2.2, if_neg]
        rintro rfl
        exact hq (List.prefix_refl _)
      · intro e
        rw [if_neg (by simp)]
        exact Proc.Keeps.fail
    apply Proc.Keeps.bind_triple hmkdir (fun _ hw => hw)
    intro _ _
    apply Proc.Triple.bind (Q := fun dst h => (Within (dstDir ++ [dstLeaf] <+: ·) h₀ h ∧
      h.fs.IsDir (dstDir ++ [dstLeaf])) ∧ dst = dstDir ++ [dstLeaf])
    · apply Triple.query
      · intro h dst hw hopen
        obtain ⟨hdst, hdir⟩ := openDirAt_ok hv' hopen
        exact ⟨⟨hw.tick, hdir⟩, hdst⟩
      · intro h hw
        exact hw.tick
    · intro dst
      apply Proc.Triple.assuming
      rintro rfl
      -- it is made writable before anything is copied into it
      have hwritable : Proc.Keeps (fun h => Within (dstDir ++ [dstLeaf] <+: ·) h₀ h ∧
          h.fs.IsDir (dstDir ++ [dstLeaf])) (makeWritable K.faults (dstDir ++ [dstLeaf]))
          fun _ => True := by
        apply makeWritable_dir
        · rintro h ⟨hw, hdir⟩
          exact ⟨hw.tick, hdir⟩
        · rintro h fs mode ⟨hw, -⟩ hfs
          have hget := chmodDir_get hfs
          refine ⟨hw.turn fun q hq => ?_, mode, ?_⟩
          · rw [hget, if_neg]
            rintro rfl
            exact hq (List.prefix_refl _)
          · rw [Host.turn_fs, hget, if_pos rfl]
      apply Proc.Keeps.bind_triple hwritable (fun _ hh => hh.1)
      rintro _ - h₁ ⟨hw, hdst⟩
      exact copyContents_spec hapart hsrc hw hdst h₁ rfl

/-! ## The moments of a move -/

/-- Every moment has the source as it was or the whole copy. -/
def Kept (S : Fs) (src dst : Path) (h : Host) : Prop :=
  ∀ fs ∈ h.states, Intact S src fs ∨ Complete S src dst fs

/-- While only the destination changes the source is as it was. -/
theorem Kept.of_within {src dst : Path} {X : Path → Prop} (hX : ∀ r, ¬ X (src ++ r))
    (hw : Within X (Host.start S) h) : Kept S src dst h := by
  intro fs hfs
  left
  intro r
  rcases hw.trail fs hfs with hmem | hsame
  · rw [List.mem_singleton.mp hmem]
    rfl
  · exact hsame _ (hX r)

/-- A complete copy stays complete while only the source changes. -/
theorem Complete.of_bare {src dst : Path} {fs fs' : Fs} (hapart : Apart src dst)
    (hc : Complete S src dst fs)
    (hbare : ∀ q, ¬ src <+: q → Removal.bare fs' q = Removal.bare fs q) :
    Complete S src dst fs' := by
  intro r e he
  obtain ⟨e', he', hlike⟩ := hc r e he
  have hout : ¬ src <+: dst ++ r := fun hpre =>
    hapart.not_below hpre (List.prefix_append dst r)
  have hsame := hbare _ hout
  unfold Removal.bare at hsame
  rw [he'] at hsame
  obtain ⟨e'', he'', hentry⟩ := Option.map_eq_some_iff.mp hsame
  refine ⟨e'', he'', ?_⟩
  cases e' <;> cases e'' <;> cases hentry <;> first | exact hlike | skip
  cases e with
  | dir m => exact False.elim
  | file i data => cases hlike
  | symlink t => cases hlike

/-- The removal of a source whose copy is complete. -/
theorem rmtreeRaising_kept (hv : ValidName srcLeaf) {dst : Path}
    (hapart : Apart (srcDir ++ [srcLeaf]) dst)
    (hk : Kept S (srcDir ++ [srcLeaf]) dst h)
    (hc : Complete S (srcDir ++ [srcLeaf]) dst h.fs) :
    Kept S (srcDir ++ [srcLeaf]) dst (rmtreeRaising K srcDir srcLeaf h).2 := by
  obtain ⟨out, hout, haccounted, -⟩ := Removal.rmtreeAt_sound K.faults true false srcDir h hv
  have hstate : (rmtreeRaising K srcDir srcLeaf h).2 = out.host := by
    unfold rmtreeRaising
    rw [hout]
    show (match out.report.errors with
      | [] => (.ok (), out.host)
      | (_, e) :: _ => (.error e, out.host) : Except Errno Unit × Host).2 = out.host
    split <;> rfl
  rw [hstate]
  intro fs hfs
  rcases haccounted.trail fs hfs with hmem | hbare
  · exact hk fs hmem
  · exact .inr (hc.of_bare hapart hbare)

/-- **The move of a directory** onto a free name. -/
theorem moveDir_kept (hv : ValidName srcLeaf) (hv' : ValidName dstLeaf)
    (hapart : Apart (srcDir ++ [srcLeaf]) (dstDir ++ [dstLeaf])) :
    Proc.Triple (Within (fun _ => False) (Host.start S))
      (moveDir K srcDir srcLeaf dstDir dstLeaf)
      (fun _ => Kept S (srcDir ++ [srcLeaf]) (dstDir ++ [dstLeaf]))
      (Kept S (srcDir ++ [srcLeaf]) (dstDir ++ [dstLeaf])) := by
  have hwithin : ∀ h, Within (dstDir ++ [dstLeaf] <+: ·) (Host.start S) h →
      Kept S (srcDir ++ [srcLeaf]) (dstDir ++ [dstLeaf]) h := fun h =>
    Kept.of_within fun r => hapart.not_below (List.prefix_append _ r)
  unfold moveDir
  apply Proc.Triple.bind (Proc.Triple.conseq (copyTreePinned_spec hv hv' hapart)
    (fun _ hw => hw) (fun _ _ hh => hh) fun h hw => hwithin h hw)
  rintro r h ⟨hw, hcomplete⟩
  by_cases hclean : r.errors.length + r.skipped.length = 0
  · rw [if_pos hclean]
    have hc := hcomplete (List.eq_nil_of_length_eq_zero (by omega))
      (List.eq_nil_of_length_eq_zero (by omega))
    have hk : Kept S (srcDir ++ [srcLeaf]) (dstDir ++ [dstLeaf])
        (rmtreeRaising K srcDir srcLeaf h).2 := rmtreeRaising_kept hv hapart (hwithin h hw) hc
    rcases hrun : rmtreeRaising K srcDir srcLeaf h with ⟨result, h'⟩
    rw [hrun] at hk
    cases result with
    | ok u =>
      rw [Proc.bind_of_ok hrun]
      exact hk
    | error e =>
      rw [Proc.bind_of_error hrun]
      exact hk
  · rw [if_neg hclean]
    exact hwithin h hw

/-- A directory is not copied onto anything that is there. -/
theorem moveDir_onto (hthere : h₀.fs.get (dstDir ++ [dstLeaf]) ≠ none) :
    Proc.Triple (Within (fun _ => False) h₀) (moveDir K srcDir srcLeaf dstDir dstLeaf)
      (fun _ _ => False) (Within (fun _ => False) h₀) := by
  unfold moveDir copyTreePinned
  apply Proc.Triple.bind (Q := fun _ _ => False)
  · apply Proc.Keeps.bind_triple Within.query (fun _ hw => hw)
    intro src _
    apply Proc.Keeps.bind_triple fstatDir_within (fun _ hw => hw)
    intro stat _
    apply Proc.Triple.bind (Q := fun _ _ => False)
    · have hact : Proc.Triple (Within (fun _ => False) h₀)
          (act K.faults (·.mkdirAt dstDir dstLeaf (0o700 &&& ~~~K.umask))) (fun _ _ => False)
          (Within (fun _ => False) h₀) := by
        apply Triple.act
        · intro h fs hw hfs
          have hfree := (Fs.mknodAt_ok hfs).2.2.1
          rw [hw.unchanged] at hfree
          exact hthere hfree
        · intro h hw _
          exact hw.tick
      apply Proc.Triple.handle hact
      intro e
      rw [if_neg (by simp)]
      exact Proc.Triple.fail fun _ hw => hw
    · intro _ h hfalse
      exact hfalse.elim
  · intro _ h hfalse
    exact hfalse.elim

/-- What the copy of a file or a link does, in the terms of a move. -/
structure CopiesOne (copy : HostSys Unit) (src dst : Path) : Prop where
  spec : ∀ h₁, Proc.Triple (Within (fun _ => False) h₁) copy
    (fun _ h => Within (· = dst) h₁ h ∧ ∃ e e', h₁.fs.get src = some e ∧
      h.fs.get dst = some e' ∧ Alike False e e') (Within (· = dst) h₁)
  stays : ∀ h₁, Proc.Keeps (Stayed h₁) copy fun _ => True

/-- The copy of a link writes to its place alone. -/
theorem copiesOne_symlink (hv' : ValidName dstLeaf) :
    CopiesOne (copySymlinkAt K false srcDir srcLeaf dstDir dstLeaf) (srcDir ++ [srcLeaf])
      (dstDir ++ [dstLeaf]) where
  spec := by
    intro h₁
    apply Proc.Triple.conseq (copySymlinkAt_spec h₁ hv') (fun _ hw => hw)
    · rintro _ h ⟨hw, target, hsrc, hdst⟩
      exact ⟨hw, _, _, hsrc, hdst, rfl⟩
    · intro h hw
      exact hw
  stays := fun _ => copySymlinkAt_stayed

theorem copiesOne_file (hv : ValidName srcLeaf) (hv' : ValidName dstLeaf) :
    CopiesOne (copyFileAt K false srcDir srcLeaf dstDir dstLeaf) (srcDir ++ [srcLeaf])
      (dstDir ++ [dstLeaf]) where
  spec := by
    intro h₁
    apply Proc.Triple.conseq (copyFileAt_spec h₁ hv hv') (fun _ hw => hw)
    · rintro _ h ⟨hw, i, data, hsrc, i', f, hdst, hcontent, -⟩
      refine ⟨hw.mono ?_, _, _, hsrc, hdst, hcontent, False.elim⟩
      rintro q (hq | ⟨hfalse, -⟩)
      · exact hq
      · cases hfalse
    · intro h hw
      apply hw.mono
      rintro q (hq | ⟨hfalse, -⟩)
      · exact hq
      · cases hfalse
  stays := fun _ => copyFileAt_stayed

/-- Of a file or a link there is nothing but itself to be copied. -/
theorem complete_of_root {src dst : Path} {fs : Fs} {e e' : Entry} (hsrc : S.get src = some e)
    (hdir : e.isDir = false) (hdst : fs.get dst = some e') (hlike : Alike False e e') :
    Complete S src dst fs := by
  intro r e₁ he₁
  by_cases hr : r = []
  · rw [hr, List.append_nil] at he₁ ⊢
    rw [hsrc, Option.some.injEq] at he₁
    exact ⟨e', hdst, he₁ ▸ hlike⟩
  · have hnone : S.get (src ++ r) = none := by
      apply Fs.get_append_eq_none hr
      rintro ⟨m, hm⟩
      rw [hsrc, Option.some.injEq] at hm
      rw [hm] at hdir
      cases hdir
    rw [hnone] at he₁
    cases he₁

/-- **The move of a file or a link.** -/
theorem moveOther_kept {copy : HostSys Unit} {e : Entry} (hv : ValidName srcLeaf)
    (hv' : ValidName dstLeaf) (hone : CopiesOne copy (srcDir ++ [srcLeaf]) (dstDir ++ [dstLeaf]))
    (hsrc : S.get (srcDir ++ [srcLeaf]) = some e) (hdir : e.isDir = false)
    (hout : ¬ srcDir ++ [srcLeaf] <+: dstDir ++ [dstLeaf]) :
    Proc.Triple (Within (fun _ => False) (Host.start S))
      (moveOther K copy srcDir srcLeaf dstDir dstLeaf)
      (fun n h => Kept S (srcDir ++ [srcLeaf]) (dstDir ++ [dstLeaf]) h ∧ n = 0)
      (Kept S (srcDir ++ [srcLeaf]) (dstDir ++ [dstLeaf])) := by
  have hne : ∀ r, srcDir ++ [srcLeaf] ++ r ≠ dstDir ++ [dstLeaf] := fun r heq =>
    hout ⟨r, heq⟩
  have hroot : srcDir ++ [srcLeaf] ≠ dstDir ++ [dstLeaf] := by
    have := hne []
    rwa [List.append_nil] at this
  have hwithin : ∀ h, Within (· = dstDir ++ [dstLeaf]) (Host.start S) h →
      Kept S (srcDir ++ [srcLeaf]) (dstDir ++ [dstLeaf]) h := fun h =>
    Kept.of_within hne
  unfold moveOther
  -- the destination is unlinked first, whatever stands there
  have hunlink : Proc.Keeps (Within (· = dstDir ++ [dstLeaf]) (Host.start S))
      (act K.faults (·.unlinkAt dstDir dstLeaf)).quietly fun _ => True := by
    apply Proc.Keeps.quietly
    apply unlink_within hv'
    rfl
  intro h hw
  refine Proc.Keeps.bind_triple hunlink (fun h hw => hwithin h hw) ?_ h hw.of_unchanged
  rintro _ - h₁ hw₁
  -- the copy reads the source, which the unlink has left
  have hcopied : Proc.Triple (Within (fun _ => False) h₁) copy
      (fun _ h => Within (· = dstDir ++ [dstLeaf]) (Host.start S) h ∧
        ∃ e', h.fs.get (dstDir ++ [dstLeaf]) = some e' ∧ Alike False e e')
      (Kept S (srcDir ++ [srcLeaf]) (dstDir ++ [dstLeaf])) := by
    apply Proc.Triple.conseq (hone.spec h₁) (fun _ hw => hw)
    · rintro _ h₂ ⟨hw₂, e₁, e', he₁, he', hlike⟩
      have heq : e₁ = e := by
        rw [hw₁.now _ hroot] at he₁
        exact Option.some.inj (he₁.symm.trans hsrc)
      exact ⟨hw₁.trans hw₂, e', he', heq ▸ hlike⟩
    · intro h₂ hw₂
      exact hwithin h₂ (hw₁.trans hw₂)
  refine Proc.Triple.bind hcopied ?_ h₁ (Within.refl _ _)
  intro _
  -- the source is unlinked last: by then the destination is complete
  apply Proc.Triple.bind (Q := fun _ => Kept S (srcDir ++ [srcLeaf]) (dstDir ++ [dstLeaf]))
  · apply Triple.act
    · rintro h₂ fs ⟨hw₂, e', he', hlike⟩ hfs
      have hget := (Fs.unlinkAt_ok hfs).2
      rw [Fs.locate_valid hv] at hget
      intro fs' hfs'
      rw [Host.turn_states] at hfs'
      rcases List.mem_cons.mp hfs' with rfl | hmem
      · right
        apply complete_of_root hsrc hdir ?_ hlike
        rw [hget, if_neg hroot.symm]
        exact he'
      · exact hwithin h₂ hw₂ fs' hmem
    · rintro h₂ ⟨hw₂, -⟩ _
      exact hwithin h₂ hw₂
  · intro _
    exact Proc.Triple.pure fun _ hk => ⟨hk, rfl⟩

/-- A file or a link is not moved onto a directory: the move fails and nothing has changed. -/
theorem moveOther_onto_dir {copy : HostSys Unit} {e : Entry} (hv' : ValidName dstLeaf)
    (hone : CopiesOne copy (srcDir ++ [srcLeaf]) (dstDir ++ [dstLeaf]))
    (hsrc : h₀.fs.get (srcDir ++ [srcLeaf]) = some e) (hdir : e.isDir = false)
    (hdst : h₀.fs.IsDir (dstDir ++ [dstLeaf])) :
    Proc.Triple (Within (fun _ => False) h₀) (moveOther K copy srcDir srcLeaf dstDir dstLeaf)
      (fun _ _ => False) (fun h => ∀ q, h.fs.get q = h₀.fs.get q) := by
  obtain ⟨m, hm⟩ := hdst
  unfold moveOther
  have hunlink : Proc.Keeps (Within (fun _ => False) h₀)
      (act K.faults (·.unlinkAt dstDir dstLeaf)).quietly fun _ => True := by
    apply Proc.Keeps.quietly
    apply Triple.act
    · intro h fs hw hfs
      have hisdir : h.fs.IsDir (Fs.locate dstDir dstLeaf) := by
        rw [Fs.locate_valid hv']
        exact ⟨m, by rw [hw.unchanged, hm]⟩
      rw [Fs.unlinkAt_of_dir hisdir] at hfs
      cases hfs
    · intro h hw _
      exact hw.tick
  apply Proc.Keeps.bind_triple hunlink (fun _ hw q => hw.now q id)
  intro _ _
  -- the copy leaves the directory alone, so it cannot have put anything in its place
  apply Proc.Triple.bind (Q := fun _ _ => False)
  · apply Proc.Triple.conseq ((hone.spec h₀).both (hone.stays h₀))
    · intro h hw
      exact ⟨hw, fun q m hq => by rw [hw.unchanged, hq]⟩
    · rintro _ h ⟨⟨-, e₁, e', he₁, he', hlike⟩, hstays, -⟩
      rw [hstays _ m hm, Option.some.injEq] at he'
      have heq : e₁ = e := Option.some.inj (he₁.symm.trans hsrc)
      have hkind := hlike.isDir_eq
      rw [heq, hdir, ← he'] at hkind
      cases hkind
    · rintro h ⟨hw, hstays⟩ q
      by_cases hq : q = dstDir ++ [dstLeaf]
      · rw [hq, hstays _ m hm, hm]
      · exact hw.now q hq
  · intro _ h hfalse
    exact hfalse.elim

/-! ## The law -/

/-- Something that is no directory stands at `p`. -/
def NonDir (fs : Fs) (p : Path) : Prop := ∃ e, fs.get p = some e ∧ e.isDir = false

instance (fs : Fs) (p : Path) : Decidable (NonDir fs p) :=
  match h : fs.get p with
  | none => .isFalse fun ⟨e, he, _⟩ => by rw [h] at he; cases he
  | some e =>
    if hdir : e.isDir = false then .isTrue ⟨e, h, hdir⟩
    else .isFalse fun ⟨e', he, hdir'⟩ => by
      rw [h, Option.some.injEq] at he
      exact hdir (he ▸ hdir')

/-- What holds after every run of a move holds after this one. -/
theorem MoveSafe.of_triple {P : Host → Prop} {src dst : Path} {move : HostSys Nat}
    (hmove : Proc.Triple P move (fun n h => MoveSafe S src dst (.ok n, h))
      fun h => ∀ e, MoveSafe S src dst (.error e, h)) (hP : P h) :
    MoveSafe S src dst (move h) := by
  have hend := hmove h hP
  rcases hrun : move h with ⟨result, h'⟩
  rw [hrun] at hend
  cases result with
  | ok n => exact hend
  | error e => exact hend e

/-- Why a run failed makes no difference to what it owes. -/
theorem MoveSafe.triple {P : Host → Prop} {src dst : Path} {move : HostSys Nat}
    (hmove : ∀ h, P h → MoveSafe S src dst (move h)) :
    Proc.Triple P move (fun n h => MoveSafe S src dst (.ok n, h))
      fun h => ∀ e, MoveSafe S src dst (.error e, h) := by
  intro h hP
  have hsafe := hmove h hP
  rcases hrun : move h with ⟨result, h'⟩
  rw [hrun] at hsafe
  cases result with
  | ok n => exact hsafe
  | error e => exact fun _ => ⟨hsafe.content, hsafe.removal, hsafe.failure⟩

/-- Onto a free name there is nothing a failure could destroy. -/
theorem MoveSafe.of_free {src dst : Path} {result : Except Errno Nat} (hfree : S.get dst = none)
    (hk : Kept S src dst h) : MoveSafe S src dst (result, h) :=
  .of_states hk fun _ hthere => absurd hfree hthere

/-- A move that has changed nothing has harmed nothing. -/
theorem MoveSafe.of_unchanged {src dst : Path} {result : Except Errno Nat}
    (hw : Within (fun _ => False) (Host.start S) h) : MoveSafe S src dst (result, h) :=
  .of_states (Kept.of_within (fun _ => id) hw) fun _ _ q _ => hw.unchanged q

/-- A directory, moved onto anything or onto nothing. -/
theorem moveDir_safe (hv : ValidName srcLeaf) (hv' : ValidName dstLeaf)
    (hsrc : S.IsDir (srcDir ++ [srcLeaf])) (hnot : ¬ srcDir ++ [srcLeaf] <+: dstDir ++ [dstLeaf])
    (hw : Within (fun _ => False) (Host.start S) h) :
    MoveSafe S (srcDir ++ [srcLeaf]) (dstDir ++ [dstLeaf])
      (moveDir K srcDir srcLeaf dstDir dstLeaf h) := by
  refine MoveSafe.of_triple ?_ hw
  by_cases hfree : S.get (dstDir ++ [dstLeaf]) = none
  · have hapart : Apart (srcDir ++ [srcLeaf]) (dstDir ++ [dstLeaf]) := by
      refine ⟨hnot, ?_⟩
      rintro ⟨r, hr⟩
      obtain ⟨m, hm⟩ := hsrc
      -- a directory stands in directories only, and the destination is none
      have hne : r ≠ [] := by
        intro hnil
        apply hnot
        rw [← hr, hnil, List.append_nil]
      have hnone : S.get (dstDir ++ [dstLeaf] ++ r) = none := by
        apply Fs.get_append_eq_none hne
        rintro ⟨m', hm'⟩
        rw [hfree] at hm'
        cases hm'
      rw [hr, hm] at hnone
      cases hnone
    exact Proc.Triple.conseq (moveDir_kept hv hv' hapart) (fun _ hw => hw)
      (fun _ _ hk => .of_free hfree hk) fun _ hk _ => .of_free hfree hk
  · have honto := @moveDir_onto K (Host.start S) srcDir dstDir srcLeaf dstLeaf hfree
    exact Proc.Triple.conseq honto (fun _ hw => hw)
      (fun _ _ hfalse => hfalse.elim) fun _ hw _ => .of_unchanged hw

/-- A file or a link, moved onto a directory or onto nothing. -/
theorem moveOther_safe {copy : HostSys Unit} (hv : ValidName srcLeaf) (hv' : ValidName dstLeaf)
    (hone : CopiesOne copy (srcDir ++ [srcLeaf]) (dstDir ++ [dstLeaf]))
    (hsrc : NonDir S (srcDir ++ [srcLeaf])) (hdst : ¬ NonDir S (dstDir ++ [dstLeaf]))
    (hnot : ¬ srcDir ++ [srcLeaf] <+: dstDir ++ [dstLeaf])
    (hw : Within (fun _ => False) (Host.start S) h) :
    MoveSafe S (srcDir ++ [srcLeaf]) (dstDir ++ [dstLeaf])
      (moveOther K copy srcDir srcLeaf dstDir dstLeaf h) := by
  obtain ⟨e, he, hdir⟩ := hsrc
  refine MoveSafe.of_triple ?_ hw
  have hkept := moveOther_kept (K := K) hv hv' hone he hdir hnot
  cases hthere : S.get (dstDir ++ [dstLeaf]) with
  | none =>
    exact Proc.Triple.conseq hkept (fun _ hw => hw) (fun _ _ hk => .of_free hthere hk.1)
      fun _ hk _ => .of_free hthere hk
  | some e' =>
    have hisdir : S.IsDir (dstDir ++ [dstLeaf]) := by
      cases e' with
      | dir m => exact ⟨m, hthere⟩
      | file i data => exact absurd ⟨_, hthere, rfl⟩ hdst
      | symlink t => exact absurd ⟨_, hthere, rfl⟩ hdst
    have honto := @moveOther_onto_dir K (Host.start S) srcDir dstDir srcLeaf dstLeaf copy e hv' hone
      he hdir hisdir
    apply Proc.Triple.conseq (hkept.both honto) (fun _ hw => ⟨hw, hw⟩)
    · rintro _ _ ⟨-, hfalse⟩
      exact hfalse.elim
    · rintro _ ⟨hk, hsame⟩ _
      exact .of_states hk fun _ _ q _ => hsame q

/-- The condition is enough. -/
theorem movePinned_safe (hv : ValidName srcLeaf) (hv' : ValidName dstLeaf)
    (hnot : ¬ srcDir ++ [srcLeaf] <+: dstDir ++ [dstLeaf])
    (hcond : ¬ (NonDir S (srcDir ++ [srcLeaf]) ∧ NonDir S (dstDir ++ [dstLeaf]))) :
    MoveSafe S (srcDir ++ [srcLeaf]) (dstDir ++ [dstLeaf])
      (movePinned K srcDir srcLeaf dstDir dstLeaf (Host.start S)) := by
  refine MoveSafe.of_triple (P := Within (fun _ => False) (Host.start S)) ?_ (Within.refl _ _)
  unfold movePinned
  -- the rename crosses devices, so it does nothing
  have hrename : Proc.Keeps (Within (fun _ => False) (Host.start S))
      ((act K.faults fun _ => .error .EXDEV).handle fun e =>
        if e = .EXDEV then pure () else .fail e) fun _ => True := by
    apply Proc.Keeps.handle
    · apply Within.act
      intro fs fs' hfs
      cases hfs
    · intro e
      split
      · exact Proc.Keeps.pure trivial
      · exact Proc.Keeps.fail
  apply Proc.Keeps.bind_triple hrename (fun _ hw _ => .of_unchanged hw)
  intro _ _
  apply Proc.Triple.bind (Q := fun e h => Within (fun _ => False) (Host.start S) h ∧
    S.get (srcDir ++ [srcLeaf]) = some e)
  · apply Triple.query
    · intro h e hw hlstat
      unfold Fs.lstatAt at hlstat
      rw [Fs.locate_valid hv, hw.unchanged] at hlstat
      refine ⟨hw.tick, ?_⟩
      split at hlstat
      · rename_i e' he'
        cases hlstat
        exact he'
      · cases hlstat
    · intro h hw _
      exact .of_unchanged hw.tick
  -- by the kind of the source, which the condition pairs with that of the destination
  · intro e
    apply Proc.Triple.assuming
    intro he
    have hdst : e.isDir = false → ¬ NonDir S (dstDir ++ [dstLeaf]) := fun hdir hd =>
      hcond ⟨⟨e, he, hdir⟩, hd⟩
    cases e with
    | dir m => exact MoveSafe.triple fun h hw => moveDir_safe hv hv' ⟨m, he⟩ hnot hw
    | file i data =>
      exact MoveSafe.triple fun h hw =>
        moveOther_safe hv hv' (copiesOne_file hv hv') ⟨_, he, rfl⟩ (hdst rfl) hnot hw
    | symlink t =>
      exact MoveSafe.triple fun h hw =>
        moveOther_safe hv hv' (copiesOne_symlink hv') ⟨_, he, rfl⟩ (hdst rfl) hnot hw

/-- Where the first call of the copy is refused the destination is gone already. -/
theorem moveOther_loses {copy : HostSys Unit} {e : Errno} {n : Nat} (hn : h.calls + 1 = n)
    (hcopy : ∀ h', h'.calls = n → copy h' = (.error e, h'.tick))
    (hF : K.faults h.calls = none) (hdst : NonDir h.fs (dstDir ++ [dstLeaf])) :
    ∃ h', moveOther K copy srcDir srcLeaf dstDir dstLeaf h = (.error e, h') ∧
      h'.fs.get (dstDir ++ [dstLeaf]) = none := by
  obtain ⟨e', he', hdir⟩ := hdst
  obtain ⟨fs, hfs⟩ := Fs.unlinkAt_of_some he' hdir
  have hunlink : (act K.faults (·.unlinkAt dstDir dstLeaf)).quietly h = (.ok (), h.turn fs) :=
    Proc.quietly_of_ok (act_of_allowed hF hfs)
  refine ⟨(h.turn fs).tick, ?_, ?_⟩
  · unfold moveOther
    rw [Proc.bind_of_ok hunlink]
    exact Proc.bind_of_error (hcopy _ hn)
  · show fs.get (dstDir ++ [dstLeaf]) = none
    rw [(Fs.unlinkAt_ok hfs).2, Fs.locate_valid (Fs.validName_of_get he'), if_pos rfl]

/-- A kernel that refuses the first call of the copy; the three before it are the `rename`, the
`lstat` of the source and the removal of the destination. -/
def refuseCopy (M : Faults) (umask : Mode) (special : Path → Bool) : Kernel :=
  ⟨refuseOnly 3, M, umask, special⟩

/-- The condition is necessary. -/
theorem movePinned_loses {M : Faults} {umask : Mode} {special : Path → Bool}
    (hsrc : NonDir S (srcDir ++ [srcLeaf])) (hdst : NonDir S (dstDir ++ [dstLeaf])) :
    ∃ e h, movePinned (refuseCopy M umask special) srcDir srcLeaf dstDir dstLeaf (Host.start S) =
        (.error e, h) ∧ h.fs.get (dstDir ++ [dstLeaf]) = none := by
  obtain ⟨e, he, hdir⟩ := hsrc
  have hv := Fs.validName_of_get he
  have hstat : S.lstatAt srcDir srcLeaf = .ok e := by
    unfold Fs.lstatAt
    rw [Fs.locate_valid hv, he]
  -- the first three calls: the rename, the look and the unlink of the destination
  have hrename : ((act (refuseCopy M umask special).faults fun _ => .error .EXDEV).handle fun e =>
      if e = .EXDEV then pure () else .fail e : HostSys Unit) (Host.start S) =
        (.ok (), (Host.start S).tick) := rfl
  have hquery : query (refuseCopy M umask special).faults (·.lstatAt srcDir srcLeaf)
      (Host.start S).tick = (.ok e, (Host.start S).tick.tick) := by
    rw [query_of_allowed rfl]
    exact Prod.ext hstat rfl
  have hrefused : ∀ h' : Host, h'.calls = 3 →
      (refuseCopy M umask special).faults h'.calls = some ⟨.EACCES, by decide⟩ := by
    intro h' hn
    rw [hn]
    rfl
  unfold movePinned
  rw [Proc.bind_of_ok hrename, Proc.bind_of_ok hquery]
  -- the fourth is refused, in either kind of copy
  cases e with
  | dir m => cases hdir
  | file i data =>
    have hcopy : ∀ h' : Host, h'.calls = 3 →
        copyFileAt (refuseCopy M umask special) false srcDir srcLeaf dstDir dstLeaf h' =
          (.error .EACCES, h'.tick) := by
      intro h' hn
      unfold copyFileAt openRegularAt
      exact Proc.bind_of_error (query_of_refused (hrefused h' hn))
    obtain ⟨h, hrun, hgone⟩ := @moveOther_loses (refuseCopy M umask special)
      (Host.start S).tick.tick srcDir dstDir srcLeaf dstLeaf _ .EACCES 3 rfl hcopy rfl hdst
    exact ⟨_, h, hrun, hgone⟩
  | symlink t =>
    have hcopy : ∀ h' : Host, h'.calls = 3 →
        copySymlinkAt (refuseCopy M umask special) false srcDir srcLeaf dstDir dstLeaf h' =
          (.error .EACCES, h'.tick) := by
      intro h' hn
      unfold copySymlinkAt
      exact Proc.bind_of_error (query_of_refused (hrefused h' hn))
    obtain ⟨h, hrun, hgone⟩ := @moveOther_loses (refuseCopy M umask special)
      (Host.start S).tick.tick srcDir dstDir srcLeaf dstLeaf _ .EACCES 3 rfl hcopy rfl hdst
    exact ⟨_, h, hrun, hgone⟩

/-- **A move loses nothing, whatever fails on the way**, if and only if it is none of a file or a
link onto another. -/
theorem move_safe_iff (S : Fs) (umask : Mode) (special : Path → Bool) (srcDir dstDir : Path)
    (srcLeaf dstLeaf : Name) (hv : ValidName srcLeaf) (hv' : ValidName dstLeaf)
    (hnot : ¬ srcDir ++ [srcLeaf] <+: dstDir ++ [dstLeaf]) :
    (∀ F M : Faults, MoveSafe S (srcDir ++ [srcLeaf]) (dstDir ++ [dstLeaf])
      (movePinned ⟨F, M, umask, special⟩ srcDir srcLeaf dstDir dstLeaf (Host.start S))) ↔
      ¬ (NonDir S (srcDir ++ [srcLeaf]) ∧ NonDir S (dstDir ++ [dstLeaf])) := by
  constructor
  · rintro hsafe ⟨hsrc, hdst⟩
    obtain ⟨e, h, hrun, hgone⟩ := @movePinned_loses S srcDir dstDir srcLeaf dstLeaf noFaults umask
      special hsrc hdst
    have hmove := hsafe (refuseOnly 3) noFaults
    unfold refuseCopy at hrun
    rw [hrun] at hmove
    obtain ⟨e', he', -⟩ := hdst
    have hkept := hmove.failure rfl (by rw [he']; exact Option.some_ne_none e') _
      (List.prefix_refl _)
    rw [hgone, he'] at hkept
    cases hkept
  · intro hcond F M
    exact movePinned_safe hv hv' hnot hcond

/-- A file to be moved, with another one, a directory and nothing to move it onto. -/
def moveTree : Fs :=
  Fs.ofList [(["a".toList], .dir 0o755), (["a".toList, "f".toList], .file 0 ⟨[104], 0o644, 0⟩),
    (["b".toList], .dir 0o755), (["b".toList, "f".toList], .file 1 ⟨[105], 0o644, 0⟩),
    (["b".toList, "d".toList], .dir 0o755)]

/-- A move to a place where nothing is. -/
theorem move_safe_iff_free :
    MoveSafe moveTree ["a".toList, "f".toList] ["b".toList, "g".toList]
      (movePinned ⟨noFaults, noFaults, 0o022, fun _ => false⟩ ["a".toList] "f".toList ["b".toList] "g".toList
        (Host.start moveTree)) :=
  (move_safe_iff moveTree 0o022 (fun _ => false) ["a".toList] ["b".toList] "f".toList "g".toList
    (by decide) (by decide) (by decide)).mpr (by decide +kernel) noFaults noFaults

/-- **A failed move takes the destination away.** The file `/a/f` is moved onto the file `/b/f`
and cannot be opened: the move fails, and nothing is at `/b/f` any more. -/
theorem move_loses_destination :
    ¬ MoveSafe moveTree ["a".toList, "f".toList] ["b".toList, "f".toList]
      (movePinned (refuseCopy noFaults 0o022 fun _ => false) ["a".toList] "f".toList ["b".toList]
        "f".toList (Host.start moveTree)) := by
  intro hsafe
  have hkept := hsafe.failure (by decide +kernel) (by decide +kernel) ["b".toList, "f".toList]
    (List.prefix_refl _)
  revert hkept
  decide +kernel

end Move

end ProotDistro.Copy
