import ProotDistro.Restore

/-!
# The manifest a restore leaves

The manifest of the archive is held back while the members go by, and written when the rootfs is there.
Nothing takes the old manifest of the container away: where the archive has none, or where the write is
turned down, it stays beside a rootfs it does not describe. The write itself is one call, whose answer
nobody looks at.

* **`manifest_restored_iff`** — when the manifest a successful restore leaves is the archive's.
* **`stale_manifest_stays`** — an archive without one.
-/

namespace ProotDistro

open Posix Dirfd TarExtract

namespace Restore

/-! ## Renaming a file of one name -/

section Rename

variable {fs : Fs} {d : Path} {name newName : Name} {i : Nat} {data : FileData}

/-- A file of one name takes the place of anything but a directory. -/
theorem renameAt_of_fresh (hne : newName ≠ name) (hv : ValidName newName)
    (hfile : fs.get (d ++ [name]) = some (.file i data))
    (hunique : ∀ q data', fs.get q = some (.file i data') → q = d ++ [name])
    (hfree : ¬ fs.IsDir (d ++ [newName])) :
    ∃ fs', fs.renameAt d name newName = .ok fs' ∧ ∀ q, fs'.get q =
      if q = d ++ [newName] then some (.file i data) else if q = d ++ [name] then none else fs.get q := by
  have hpaths : d ++ [newName] ≠ d ++ [name] := by simpa using hne
  have hl : Fs.locate d name = d ++ [name] := Fs.locate_valid (Fs.validName_of_get hfile)
  have hl' : Fs.locate d newName = d ++ [newName] := Fs.locate_valid hv
  -- the two names are not those of one file, so the rename is not the one that does nothing
  have hsame : Fs.sameFile (.file i data) (fs.get (d ++ [newName])) = false := by
    cases hg : fs.get (d ++ [newName]) with
    | none => rfl
    | some e =>
      cases e with
      | dir m => rfl
      | symlink t => rfl
      | file j data' =>
        show decide (i = j) = false
        rw [decide_eq_false_iff_not]
        rintro rfl
        exact hpaths (hunique _ _ hg)
  obtain ⟨fs₁, hfs₁⟩ := Fs.unlinkAt_of_some hfile rfl
  obtain ⟨-, hget₁⟩ := Fs.unlinkAt_ok hfs₁
  rw [hl] at hget₁
  have hnew : fs₁.get (d ++ [newName]) = fs.get (d ++ [newName]) := by
    rw [hget₁, if_neg hpaths]
  -- whatever stands under the new name goes
  have hcleared : ∃ fs₂, fs₁.unlinkIfThere d newName = .ok fs₂ ∧ ∀ q, fs₂.get q =
      if q = d ++ [newName] then none else if q = d ++ [name] then none else fs.get q := by
    unfold Fs.unlinkIfThere
    rw [hl', hnew]
    cases hg : fs.get (d ++ [newName]) with
    | none =>
      refine ⟨fs₁, if_pos rfl, fun q => ?_⟩
      rw [hget₁]
      by_cases hq : q = d ++ [newName]
      · rw [if_pos hq, hq, if_neg hpaths, hg]
      · rw [if_neg hq]
    | some e =>
      have he : e.isDir = false := by
        cases e with
        | dir m => exact absurd ⟨m, hg⟩ hfree
        | file j data' => rfl
        | symlink t => rfl
      obtain ⟨fs₂, hfs₂⟩ := Fs.unlinkAt_of_some (hnew.trans hg) he
      obtain ⟨-, hget₂⟩ := Fs.unlinkAt_ok hfs₂
      rw [hl'] at hget₂
      refine ⟨fs₂, ?_, fun q => ?_⟩
      · rw [if_neg (by simp)]
        exact hfs₂
      · rw [hget₂, hget₁]
  obtain ⟨fs₂, hfs₂, hget₂⟩ := hcleared
  -- with both names gone the directory is still there, and the file is linked in it again
  have hdir : fs₂.IsDir d := by
    obtain ⟨m, hm⟩ := Fs.isDir_parent hfile
    refine ⟨m, ?_⟩
    rw [hget₂, if_neg (by simp), if_neg (by simp), hm]
  obtain ⟨fs₃, hfs₃⟩ := Fs.mknodAt_of_free (e := .file i data) hv hdir (by nofun) (by rw [hget₂, if_pos rfl])
  obtain ⟨-, -, -, hget₃⟩ := Fs.mknodAt_ok hfs₃
  refine ⟨fs₃, ?_, fun q => ?_⟩
  · unfold Fs.renameAt
    rw [hl, hfile, hl']
    dsimp only
    rw [hsame, if_neg (by simp [hne]), hfs₁]
    show (fs₁.unlinkIfThere d newName >>= _) = _
    rw [hfs₂]
    exact hfs₃
  · rw [hget₃, hget₂]
    by_cases hq : q = d ++ [newName]
    · rw [if_pos hq, if_pos hq]
    · rw [if_neg hq, if_neg hq, if_neg hq]

/-- It never takes the place of a directory. -/
theorem renameAt_of_dir (hv : ValidName newName) (hfile : fs.get (d ++ [name]) = some (.file i data))
    (hdir : fs.IsDir (d ++ [newName])) : ∃ e, fs.renameAt d name newName = .error e := by
  have hl : Fs.locate d name = d ++ [name] := Fs.locate_valid (Fs.validName_of_get hfile)
  have hl' : Fs.locate d newName = d ++ [newName] := Fs.locate_valid hv
  obtain ⟨m, hm⟩ := hdir
  have hne : newName ≠ name := by
    rintro rfl
    rw [hfile] at hm
    cases hm
  obtain ⟨fs₁, hfs₁⟩ := Fs.unlinkAt_of_some hfile rfl
  obtain ⟨-, hget₁⟩ := Fs.unlinkAt_ok hfs₁
  have hm₁ : fs₁.get (d ++ [newName]) = some (.dir m) := by
    rw [hget₁, hl, if_neg (by simpa using hne), hm]
  have hunlink : fs₁.unlinkIfThere d newName = .error .EISDIR := by
    unfold Fs.unlinkIfThere
    rw [hl', hm₁, if_neg (by simp)]
    exact Fs.unlinkAt_of_dir (by rw [hl']; exact ⟨m, hm₁⟩)
  refine ⟨.EISDIR, ?_⟩
  unfold Fs.renameAt
  rw [hl, hfile, hl', hm]
  dsimp only
  rw [if_neg (by simp [hne, Fs.sameFile]), hfs₁]
  show (fs₁.unlinkIfThere d newName >>= _) = _
  rw [hunlink]
  rfl

end Rename

/-! ## The write of the manifest -/

/-- The name of the temporary file is longer than that of the manifest. -/
theorem tmpName_length (env : Env) : manifestName.length < (tmpName env).length := by
  unfold tmpName
  rw [List.length_append, List.length_append, List.length_cons]
  omega

/-- It is the name of a file. -/
theorem tmpName_valid (env : Env) : ValidName (tmpName env) := by
  have hlength := tmpName_length env
  have hmanifest : manifestName.length = 13 := by decide
  refine ⟨fun h => ?_, fun h => ?_, fun h => ?_, fun h => ?_⟩
  · rw [h, hmanifest] at hlength
    cases hlength
  · rw [h, hmanifest] at hlength
    exact absurd hlength (by decide)
  · rw [h, hmanifest] at hlength
    exact absurd hlength (by decide)
  · unfold tmpName at h
    rcases List.mem_append.mp h with h | h
    · rcases List.mem_append.mp h with h | h
      · exact manifestName_valid.no_slash h
      · rcases List.mem_cons.mp h with h | h
        · cases h
        · exact env.tag_plain h
    · exact absurd h (by decide)

/-- No name that short is the temporary one. -/
theorem tmpName_ne_short (env : Env) {sub : Name} (h : sub.length ≤ manifestName.length) :
    tmpName env ≠ sub := by
  intro heq
  have hlength := tmpName_length env
  rw [heq] at hlength
  omega

section Write

variable {env : Env} {fs : Fs} {d : Path} {data : Bytes} {mode : Mode}

/-- The two files are not one. -/
theorem man_ne_tmp : d ++ [manifestName] ≠ d ++ [tmpName env] := by
  simpa using (tmpName_ne_short env le_rfl).symm

/-- Where nothing is in the way, what one call of `write` takes of the data becomes the manifest. -/
theorem replaceManifest_taken {n : Nat} (hd : fs.IsDir d) (htmp : ¬ fs.IsDir (d ++ [tmpName env]))
    (hman : ¬ fs.IsDir (d ++ [manifestName])) (haccepts : env.accepts = .ok n) :
    ∃ ino, (replaceManifest env d data mode fs).2.get (d ++ [manifestName]) =
      some (.file ino ⟨data.take n, mode, 0⟩) := by
  -- the temporary file is new, so no other path has its inode
  obtain ⟨fs₁, ino, hrun₁, hget₁, hunique⟩ :=
    openNewAt_of_not_isDir env.umask 0o600 (tmpName_valid env) hd htmp
  obtain ⟨fs₂, hrun₂, hget₂⟩ := change_fresh (fun f => { f with content := data.take n }) hunique hget₁
  obtain ⟨fs₃, hrun₃, hget₃⟩ := change_fresh (fun f => { f with mode }) hunique hget₂
  have hfile : fs₃.get (d ++ [tmpName env]) = some (.file ino ⟨data.take n, mode, 0⟩) := by
    rw [hget₃, if_pos rfl]
  have honly : ∀ q data', fs₃.get q = some (.file ino data') → q = d ++ [tmpName env] := by
    intro q data' hq
    by_contra hne
    rw [hget₃, if_neg hne] at hq
    exact hne (hunique q data' hq)
  -- the manifest's place holds no directory, so the rename takes it
  have hfree : ¬ fs₃.IsDir (d ++ [manifestName]) := by
    rintro ⟨m, hm⟩
    rw [hget₃, if_neg man_ne_tmp] at hm
    exact hman ⟨m, hm⟩
  obtain ⟨fs₄, hfs₄, hget₄⟩ := renameAt_of_fresh (tmpName_ne_short env le_rfl).symm manifestName_valid
    hfile honly hfree
  have hpublish : publish env d data mode fs₁ = (.ok (), fs₄) := by
    unfold publish writeOnce
    rw [haccepts]
    dsimp only
    rw [Proc.bind_of_ok hrun₂]
    unfold fchmod
    rw [Proc.bind_of_ok (Proc.quietly_of_ok hrun₃)]
    exact Proc.change_of_ok hfs₄
  refine ⟨ino, ?_⟩
  unfold replaceManifest
  rw [Proc.bind_of_ok hrun₁, Proc.handle_of_ok hpublish]
  rw [hget₄, if_pos rfl]

/-- Where something is, the manifest stays what it was. -/
theorem replaceManifest_refused (hd : fs.IsDir d) (hrefused : fs.IsDir (d ++ [tmpName env]) ∨
    fs.IsDir (d ++ [manifestName]) ∨ ∃ e, env.accepts = .error e) :
    (replaceManifest env d data mode fs).2.get (d ++ [manifestName]) = fs.get (d ++ [manifestName]) := by
  -- a directory under the temporary name refuses the open
  by_cases htmp : fs.IsDir (d ++ [tmpName env])
  · unfold replaceManifest
    rw [Proc.bind_of_error (openNewAt_of_isDir htmp)]
  -- else the write is refused, or a directory in the manifest's place refuses the rename
  · have hrefused' := hrefused.resolve_left htmp
    obtain ⟨fs₁, ino, hrun₁, hget₁, hunique⟩ :=
      openNewAt_of_not_isDir env.umask 0o600 (tmpName_valid env) hd htmp
    -- the file under the temporary name is published in no case
    have hpublish : ∃ e fs₂ f, publish env d data mode fs₁ = (.error e, fs₂) ∧
        ∀ q, fs₂.get q = if q = d ++ [tmpName env] then some (.file ino f) else fs.get q := by
      unfold publish writeOnce
      cases haccepts : env.accepts with
      | error e => exact ⟨e, fs₁, _, Proc.bind_of_error rfl, hget₁⟩
      | ok n =>
        have hman : fs.IsDir (d ++ [manifestName]) := by
          rcases hrefused' with hman | ⟨e, he⟩
          · exact hman
          · rw [he] at haccepts
            cases haccepts
        obtain ⟨fs₂, hrun₂, hget₂⟩ :=
          change_fresh (fun f => { f with content := data.take n }) hunique hget₁
        obtain ⟨fs₃, hrun₃, hget₃⟩ := change_fresh (fun f => { f with mode }) hunique hget₂
        have hdir : fs₃.IsDir (d ++ [manifestName]) := by
          obtain ⟨m, hm⟩ := hman
          exact ⟨m, by rw [hget₃, if_neg man_ne_tmp, hm]⟩
        obtain ⟨e, he⟩ := renameAt_of_dir manifestName_valid (by rw [hget₃, if_pos rfl]) hdir
        refine ⟨e, fs₃, _, ?_, hget₃⟩
        dsimp only
        rw [Proc.bind_of_ok hrun₂]
        unfold fchmod
        rw [Proc.bind_of_ok (Proc.quietly_of_ok hrun₃)]
        exact Proc.change_of_error he
    -- the temporary file is removed again, and it is not the manifest
    obtain ⟨e, fs₂, f, hrun₂, hget₂⟩ := hpublish
    have htmpfile : fs₂.get (d ++ [tmpName env]) = some (.file ino f) := by rw [hget₂, if_pos rfl]
    obtain ⟨fs₃, hfs₃⟩ := Fs.unlinkAt_of_some htmpfile rfl
    obtain ⟨-, hget₃⟩ := Fs.unlinkAt_ok hfs₃
    rw [Fs.locate_valid (tmpName_valid env)] at hget₃
    have hunlink : unlinkQuietly d (tmpName env) fs₂ = (.ok (), fs₃) :=
      Proc.quietly_of_ok (Proc.change_of_ok hfs₃)
    unfold replaceManifest
    rw [Proc.bind_of_ok hrun₁, Proc.handle_of_error hrun₂, Proc.bind_of_ok hunlink]
    show fs₃.get (d ++ [manifestName]) = _
    rw [hget₃, if_neg man_ne_tmp, hget₂, if_neg man_ne_tmp]

end Write

/-! ## The manifest that is held back -/

/-- The manifest a member is. -/
def manifestOf (m : Member) : Option (Bytes × Mode) :=
  match m.kind, destPath m.name with
  | .reg content, some (_, parts) => if parts = [manifestName] then some (content, m.mode) else none
  | _, _ => none

/-- The manifest of an archive: the last one it has. -/
def archiveManifest (members : List Member) : Option (Bytes × Mode) :=
  (members.filterMap manifestOf).getLast?

/-- The manifest that is asked to be written. -/
def Ask.manifest? : Ask → Option (Bytes × Mode)
  | .manifest data mode => some (data, mode)
  | _ => none

section Pending

variable {before : Fs} {env : Env} {name : Name} {parts : List Name} {m : Member} {p p' : Progress}
  {ask : Ask}

/-- A member asks for a manifest where it is the container's own. -/
theorem askOf_manifest? {container : Name} (hdest : destPath m.name = some (container, parts))
    (h : askOf name parts m = .ok ask) : ask.manifest? = manifestOf m := by
  unfold manifestOf
  rw [hdest]
  unfold askOf at h
  split at h
  -- in the rootfs, so not the manifest
  · rename_i hroot
    have hne : parts ≠ [manifestName] := by
      rintro rfl
      exact absurd hroot (by decide)
    cases hkind : m.kind with
    | lnk linkname =>
      rw [hkind] at h
      dsimp only at h
      split at h
      · split at h <;> cases h <;> rfl
      · cases h
        rfl
    | reg content =>
      rw [hkind] at h
      cases h
      exact (if_neg hne).symm
    | _ =>
      rw [hkind] at h
      cases h
      rfl
  -- outside the rootfs only a regular file counts
  · cases hkind : m.kind with
    | reg content =>
      rw [hkind] at h
      dsimp only at h ⊢
      split at h
      · rename_i hparts
        split at h
        · cases h
        · cases h
          exact (if_pos hparts).symm
      · rename_i hparts
        cases h
        exact (if_neg hparts).symm
    | _ =>
      rw [hkind] at h
      cases h
      rfl

/-- The same of a member whose container is checked first. -/
theorem examine_manifest? {restoreName restoreName' : Option Name}
    (h : examine env restoreName m = .ok (restoreName', ask)) : ask.manifest? = manifestOf m := by
  -- the container is fixed in two ways, and the question is the same
  have hmap : ∀ {container name : Name} {places : List Name} {o : Option Name},
      destPath m.name = some (container, places) →
      (askOf name places m).map (fun ask => (o, ask)) = .ok (restoreName', ask) →
      ask.manifest? = manifestOf m := by
    intro container name places o hdest hmap
    cases hask : askOf name places m with
    | error why =>
      rw [hask] at hmap
      cases hmap
    | ok ask' =>
      rw [hask] at hmap
      cases hmap
      exact askOf_manifest? hdest hask
  unfold examine at h
  split at h
  · rename_i hdevice
    cases h
    unfold manifestOf
    rw [hdevice]
    rfl
  · split at h
    · cases h
    · split at h
      · rename_i hnone
        cases h
        unfold manifestOf
        rw [hnone]
        cases m.kind <;> rfl
      · rename_i hdest
        split at h
        · split at h
          · exact hmap hdest h
          · cases h
        · split at h
          · exact hmap hdest h
          · cases h

/-- A stream that breaks in a member ends the restore. -/
theorem breakIn_fails :
    Proc.Triple (fun _ => True) (breakIn env m p) (fun _ _ => False) fun _ => True := by
  have hfail : ∀ {α : Type} (q : Proc Fs Failure α), Proc.Triple (fun _ => True)
      (q >>= fun _ => (.fail .unreadable : Proc Fs Failure Progress)) (fun _ _ => False) fun _ => True := by
    intro α q fs _
    cases hq : q fs with
    | mk r fs₁ =>
      cases r with
      | ok a =>
        rw [Proc.bind_of_ok hq]
        trivial
      | error e =>
        rw [Proc.bind_of_error hq]
        trivial
  unfold breakIn
  split
  · exact hfail _
  · exact Proc.Triple.fail fun _ _ => trivial
  · exact hfail _

/-- The last manifest of the archive is the one that is kept for the end. -/
theorem restoreMember_pending (hp : Sealed p) :
    Proc.Keeps (Within (Touches env) before) (restoreMember env m p) fun p' =>
      p'.pendingManifest = (manifestOf m).or p.pendingManifest ∧ Sealed p' := by
  unfold restoreMember
  split
  · exact Proc.Keeps.fail
  · rename_i hexamine
    exact Proc.Keeps.pure ⟨by rw [← examine_manifest? hexamine]; rfl, hp⟩
  · rename_i hexamine
    exact Proc.Keeps.pure ⟨by rw [← examine_manifest? hexamine]; rfl, hp⟩
  · rename_i name parts what hexamine
    obtain ⟨⟨name', hname', hvalid⟩, hroot, hparts⟩ := examine_content hexamine
    cases hname'
    apply checked_keeps
    apply (place_within hvalid (touches_permits env name) hroot hparts hp).mono
    rintro p' ⟨-, -, hpending, hsealed⟩
    exact ⟨by rw [← examine_manifest? hexamine, hpending]; rfl, hsealed⟩
  · rename_i hexamine
    exact Proc.Keeps.pure ⟨by rw [← examine_manifest? hexamine]; rfl, hp⟩

/-- What a stream that ends leaves is the last manifest among its members. -/
theorem stream_pending {ending : Ending} {members : List Member} (hp : Sealed p) :
    Proc.Triple (Within (Touches env) before) (restoreStream env ending members p)
      (fun p' fs => Within (Touches env) before fs ∧
        p'.pendingManifest = (archiveManifest members).or p.pendingManifest ∧ Sealed p') fun _ => True := by
  induction members generalizing p with
  | nil =>
    unfold restoreStream finishStream
    split
    · exact Proc.Triple.pure fun _ h => ⟨h, rfl, hp⟩
    · exact Proc.Triple.fail fun _ _ => trivial
    · exact breakIn_fails.conseq (fun _ _ => trivial) (fun _ _ h => h.elim) fun _ h => h
  | cons m members ih =>
    apply (restoreMember_pending hp).bind_triple fun _ _ => trivial
    rintro p₁ ⟨hpending₁, hp₁⟩
    apply (ih hp₁).conseq (fun _ h => h) _ fun _ h => h
    rintro p' fs ⟨hwithin, hpending, hsealed⟩
    refine ⟨hwithin, ?_, hsealed⟩
    rw [hpending, hpending₁]
    unfold archiveManifest
    cases hm : manifestOf m with
    | none => rw [List.filterMap_cons_none hm, Option.none_or]
    | some x =>
      rw [List.filterMap_cons_some hm, List.getLast?_cons]
      cases (members.filterMap manifestOf).getLast? <;> rfl

end Pending

/-! ## After the members -/

section Finish

variable {S : Path → Prop} {before : Fs} {env : Env} {name : Name} {p : Progress} {m : Member}

/-- Setting the modes that were put off touches directories of the rootfs alone. -/
theorem sealDirs_within (hp : Sealed p) (hS : ∀ r, S (env.containerDir name ++ rootfsName :: r)) :
    Proc.Keeps (Within S before) (sealDirs env name p) fun _ => True := by
  unfold sealDirs
  apply Proc.Keeps.each
  intro x hx
  obtain ⟨⟨inner, heq⟩, hv⟩ := hp x (List.mem_reverse.mp hx)
  unfold chmodLater
  apply Proc.Keeps.quietly
  apply (descendAt_within (fun n hn => hv n (List.mem_append_left _ hn)) fun hfalse => by cases hfalse).bind
  rintro d rfl
  apply chmodDirAt_within (hv _ (by simp))
  rw [List.append_assoc, heq]
  exact hS inner

/-- A step that succeeds is calls that do. -/
theorem checked_eq_ok {α : Type} {q : Sys α} {a : α} {fs fs' : Fs} (h : checked q fs = (.ok a, fs')) :
    q fs = (.ok a, fs') := by
  unfold checked at h
  cases hq : q fs with
  | mk r fs₁ =>
    rw [hq] at h
    cases r with
    | ok b =>
      cases h
      rfl
    | error e => cases h

/-- A restore that succeeds has a rootfs, sets the modes that were left, and writes what was held back. -/
theorem finish_ok {fs fs' : Fs} (h : finish env p fs = (.ok name, fs')) :
    rootfsIsADirectory (env.containerDir name) fs = true ∧ ∃ fs₁,
      sealDirs env name p fs = (.ok (), fs₁) ∧
        writePending env name p.pendingManifest fs₁ = (.ok (), fs') := by
  unfold finish at h
  cases hname : p.restoreName with
  | none =>
    rw [hname] at h
    cases h
  | some n =>
    cases hcommitted : p.committed with
    | false =>
      rw [hname, hcommitted] at h
      cases h
    | true =>
      rw [hname, hcommitted] at h
      obtain ⟨b, fs₀, hlook, hthen⟩ := Proc.bind_eq_ok h
      obtain ⟨hb, rfl⟩ := Proc.look_eq_ok hlook
      cases b with
      | false =>
        obtain ⟨_, _, _, hfail⟩ := Proc.bind_eq_ok hthen
        cases hfail
      | true =>
        obtain ⟨u, fs₁, hseal, hthen⟩ := Proc.bind_eq_ok hthen
        obtain ⟨u', fs₂, hwrite, hpure⟩ := Proc.bind_eq_ok hthen
        cases hpure
        exact ⟨Except.ok.inj hb, fs₁, checked_eq_ok hseal, checked_eq_ok hwrite⟩

end Finish

/-! ## The result -/

/-- What stands at a path is the manifest, or nothing where there is none. -/
def ManifestIs (fs : Fs) (p : Path) : Option Bytes → Prop
  | none => fs.get p = none
  | some data => ∃ ino f, fs.get p = some (.file ino f) ∧ f.content = data

/-- The manifest of the archive can take the place of what is there: nothing is in the way and one call of
`write` takes all of it. What is there may also be the same. -/
def Arrives (env : Env) (fs : Fs) (c : Path) (data : Bytes) : Prop :=
  match env.accepts with
  | .ok n =>
    if fs.IsDir (c ++ [tmpName env]) ∨ fs.IsDir (c ++ [manifestName]) then
      ManifestIs fs (c ++ [manifestName]) (some data)
    else data.length ≤ n
  | .error _ => ManifestIs fs (c ++ [manifestName]) (some data)

/-- The check at the end asks for a directory. -/
theorem rootfsIsADirectory_iff {c : Path} {fs : Fs} :
    rootfsIsADirectory c fs = true ↔ fs.IsDir (c ++ [rootfsName]) := by
  unfold rootfsIsADirectory Fs.lstatAt
  rw [Fs.locate_valid rootfsName_valid]
  cases hget : fs.get (c ++ [rootfsName]) with
  | none => simp [Fs.IsDir, hget]
  | some e => cases e <;> simp [Fs.IsDir, hget, Entry.isDir]

/-- The manifest is replaced in the container's directory, where that is one. -/
theorem writeManifest_state {env : Env} {name : Name} {data : Bytes} {mode : Mode} {fs : Fs}
    (hd : fs.IsDir (env.containerDir name))
    (hparts : ∀ n ∈ ["containers".toList, name], ValidName n) :
    (writeManifest env name data mode fs).2 =
      (replaceManifest env (env.containerDir name) data mode fs).2 := by
  have hc : env.runtime ++ ["containers".toList, name] = env.containerDir name := by
    unfold Env.containerDir Env.containers
    simp
  have hdescend : descendAt env.umask true env.runtime ["containers".toList, name] fs =
      (.ok (env.containerDir name), fs) := by
    rw [← hc] at hd ⊢
    exact descendAt_of_isDir hparts hd
  unfold writeManifest
  rw [Proc.quietly_ok, Proc.bind_of_ok hdescend]

/-- What the write leaves, where the entries it meets are those the restore began with. -/
theorem replaceManifest_iff {env : Env} {fs before : Fs} {c : Path} {data : Bytes} {mode : Mode}
    (hd : fs.IsDir c) (hman : fs.get (c ++ [manifestName]) = before.get (c ++ [manifestName]))
    (htmp : fs.get (c ++ [tmpName env]) = before.get (c ++ [tmpName env])) :
    ManifestIs (replaceManifest env c data mode fs).2 (c ++ [manifestName]) (some data) ↔
      Arrives env before c data := by
  -- the checks of the run see what the restore began with
  have hisDir : ∀ {p}, fs.get p = before.get p → (fs.IsDir p ↔ before.IsDir p) := by
    intro p hp
    unfold Fs.IsDir
    rw [hp]
  -- where something is in the way the manifest is what it was
  have hkept : (fs.IsDir (c ++ [tmpName env]) ∨ fs.IsDir (c ++ [manifestName]) ∨
      ∃ e, env.accepts = .error e) →
      (ManifestIs (replaceManifest env c data mode fs).2 (c ++ [manifestName]) (some data) ↔
        ManifestIs before (c ++ [manifestName]) (some data)) := by
    intro hrefused
    unfold ManifestIs
    rw [replaceManifest_refused hd hrefused, hman]
  unfold Arrives
  cases haccepts : env.accepts with
  | error e => exact hkept (.inr (.inr ⟨e, haccepts⟩))
  | ok n =>
    dsimp only
    by_cases hway : before.IsDir (c ++ [tmpName env]) ∨ before.IsDir (c ++ [manifestName])
    · rw [if_pos hway]
      exact hkept (hway.imp (hisDir htmp).mpr fun h => .inl ((hisDir hman).mpr h))
    · rw [if_neg hway]
      rw [not_or] at hway
      obtain ⟨ino, hino⟩ : ∃ ino, (replaceManifest env c data mode fs).2.get (c ++ [manifestName]) =
          some (.file ino ⟨data.take n, mode, 0⟩) :=
        replaceManifest_taken hd (fun h => hway.1 ((hisDir htmp).mp h))
          (fun h => hway.2 ((hisDir hman).mp h)) haccepts
      -- else it is what one `write` took, which is all of the data or less
      constructor
      · rintro ⟨ino', f, hf, hcontent⟩
        rw [hino] at hf
        rw [← (Entry.file.inj (Option.some.inj hf)).2] at hcontent
        exact List.take_eq_self_iff _ |>.mp hcontent
      · intro hall
        exact ⟨ino, _, hino, List.take_of_length_le hall⟩

/-- **The manifest a successful restore leaves is the archive's** exactly if the archive has one that
arrives, or it has none and neither had the container. -/
theorem manifest_restored_iff (env : Env) (archive : Archive) (fs fs' : Fs) (name : Name)
    (hrun : commandRestore env archive fs = (.ok name, fs')) :
    ManifestIs fs' (env.containerDir name ++ [manifestName])
        ((archiveManifest archive.members).map Prod.fst) ↔
      match archiveManifest archive.members with
      | none => fs.get (env.containerDir name ++ [manifestName]) = none
      | some (data, _) => Arrives env fs (env.containerDir name) data := by
  -- the members only touch the rootfs, and the manifest is kept for the end
  obtain ⟨p, fs₁, hstream, hfinish⟩ := Proc.bind_eq_ok hrun
  have hframe := (stream_pending (fun x hx => by cases hx) : Proc.Triple (Within (Touches env) fs)
    (restoreStream env archive.ending archive.members restoreStart) _ _) fs (Within.refl (Touches env) fs)
  rw [hstream] at hframe
  obtain ⟨hwithin, hpending, hsealed⟩ := hframe
  rw [show restoreStart.pendingManifest = none from rfl, Option.or_none] at hpending
  obtain ⟨hrootfs, fs₂, hseal, hwrite⟩ := finish_ok hfinish
  rw [hpending] at hwrite
  -- the manifest and the temporary name are as they were, and the directory is there
  have hsealing := (sealDirs_within hsealed fun r => ⟨r, rfl⟩ : Proc.Keeps
    (Within (fun q => ∃ r, q = env.containerDir name ++ rootfsName :: r) fs₁) (sealDirs env name p) _)
    fs₁ (Within.refl _ fs₁)
  rw [hseal] at hsealing
  have hentry : ∀ {sub}, sub ≠ rootfsName → sub ≠ shmDirName →
      fs₂.get (env.containerDir name ++ [sub]) = fs.get (env.containerDir name ++ [sub]) := by
    intro sub hroot hshm
    refine (hsealing.1 _ ?_).trans (hwithin _ (not_touches hroot hshm))
    rintro ⟨r, hr⟩
    exact hroot (List.cons.inj (List.append_cancel_left hr)).1
  have hman : fs₂.get (env.containerDir name ++ [manifestName]) =
      fs.get (env.containerDir name ++ [manifestName]) := hentry (by decide) (by decide)
  have htmp : fs₂.get (env.containerDir name ++ [tmpName env]) =
      fs.get (env.containerDir name ++ [tmpName env]) :=
    hentry (tmpName_ne_short env (by decide)) (tmpName_ne_short env (by decide))
  have hdir : fs₂.IsDir (env.containerDir name) := by
    have hdir₁ : fs₁.IsDir (env.containerDir name) :=
      Fs.IsDir.of_append (rootfsIsADirectory_iff.mp hrootfs)
    obtain ⟨m, hm⟩ := hdir₁
    refine ⟨m, (hsealing.1 _ ?_).trans hm⟩
    rintro ⟨r, hr⟩
    have := congrArg List.length hr
    simp at this
  have hparts : ∀ n ∈ ["containers".toList, name], ValidName n := by
    intro n hn
    rcases List.mem_cons.mp hn with rfl | hn
    · decide
    · obtain ⟨m, hm⟩ := hdir
      exact List.mem_singleton.mp hn ▸ Fs.validName_of_get hm
  -- without a manifest in the archive the old one stays
  cases hpend : archiveManifest archive.members with
  | none =>
    rw [hpend] at hwrite
    rw [show fs' = fs₂ from (congrArg Prod.snd hwrite).symm]
    show fs₂.get _ = none ↔ _
    rw [hman]
  -- with one, it is written as the last step
  | some x =>
    obtain ⟨data, mode⟩ := x
    rw [hpend] at hwrite
    have hstate : fs' = (replaceManifest env (env.containerDir name) data mode fs₂).2 := by
      rw [← writeManifest_state hdir hparts]
      exact (congrArg Prod.snd hwrite).symm
    rw [hstate]
    exact replaceManifest_iff hdir hman htmp

/-! ### Restores over a container that has a manifest -/

def smallEnv : Env where
  umask := 0o022
  runtime := ["r".toList]
  lockGranted := true
  tag := "1".toList
  tag_plain := by decide
  accepts := .ok 4096

/-- The container `c`, whose manifest is a byte, and whose rootfs has a file. -/
def oldContainer : Fs :=
  .ofList [(["r".toList], .dir 0o755), (["r".toList, "containers".toList], .dir 0o755),
    (["r".toList, "containers".toList, ['c']], .dir 0o755),
    (["r".toList, "containers".toList, ['c'], "manifest.json".toList], .file 1 ⟨[111], 0o644, 0⟩),
    (["r".toList, "containers".toList, ['c'], "rootfs".toList], .dir 0o755),
    (["r".toList, "containers".toList, ['c'], "rootfs".toList, ['f']], .file 2 ⟨[102], 0o644, 0⟩)]

def rootfsMember : Member := ⟨"c/rootfs".toList, .dir, 0o755, 0⟩

def manifestMember : Member := ⟨"c/manifest.json".toList, .reg [110], 0o644, 0⟩

/-- An archive with a manifest and a rootfs, restored over a container with another manifest. -/
theorem manifest_restored_iff_new : ∃ fs', commandRestore smallEnv ⟨[manifestMember, rootfsMember], .eof⟩
      oldContainer = (.ok ['c'], fs') ∧
    ManifestIs fs' (smallEnv.containerDir ['c'] ++ [manifestName]) (some [110]) := by
  have hrun : (commandRestore smallEnv ⟨[manifestMember, rootfsMember], .eof⟩ oldContainer).1.toOption =
      some ['c'] := by decide +kernel
  cases hres : commandRestore smallEnv ⟨[manifestMember, rootfsMember], .eof⟩ oldContainer with
  | mk r fs' =>
    rw [hres] at hrun
    cases r with
    | error e => cases hrun
    | ok name =>
      cases hrun
      refine ⟨fs', rfl, ?_⟩
      have hiff := manifest_restored_iff smallEnv ⟨[manifestMember, rootfsMember], .eof⟩ oldContainer fs'
        ['c'] hres
      have hmanifest : archiveManifest [manifestMember, rootfsMember] = some ([110], 0o644) := by
        decide +kernel
      rw [hmanifest] at hiff
      apply hiff.mpr
      show Arrives smallEnv oldContainer (smallEnv.containerDir ['c']) [110]
      unfold Arrives
      rw [show smallEnv.accepts = .ok 4096 from rfl]
      dsimp only
      rw [if_neg (by decide +kernel)]
      decide

/-- **The old manifest stays** where the archive has none: the restore succeeds, and the new rootfs stands
beside the manifest of the old one. -/
theorem stale_manifest_stays : ¬ ∀ (env : Env) (archive : Archive) (fs fs' : Fs) (name : Name),
    commandRestore env archive fs = (.ok name, fs') →
      ManifestIs fs' (env.containerDir name ++ [manifestName])
        ((archiveManifest archive.members).map Prod.fst) := by
  intro hall
  have hrun : (commandRestore smallEnv ⟨[rootfsMember], .eof⟩ oldContainer).1.toOption = some ['c'] := by
    decide +kernel
  have hstays : ((commandRestore smallEnv ⟨[rootfsMember], .eof⟩ oldContainer).2.get
      (smallEnv.containerDir ['c'] ++ [manifestName])).isSome = true := by decide +kernel
  cases hres : commandRestore smallEnv ⟨[rootfsMember], .eof⟩ oldContainer with
  | mk r fs' =>
    rw [hres] at hrun hstays
    cases r with
    | error e => cases hrun
    | ok name =>
      cases hrun
      have hnone : fs'.get (smallEnv.containerDir ['c'] ++ [manifestName]) = none := by
        have hmanifest : archiveManifest [rootfsMember] = none := by decide +kernel
        have h := hall smallEnv ⟨[rootfsMember], .eof⟩ oldContainer fs' ['c'] hres
        rw [hmanifest] at h
        exact h
      rw [hnone] at hstays
      cases hstays

end Restore

end ProotDistro
