import ProotDistro.Restore.Manifest

/-!
# A restore stays in one container

The container a restore is for is the one its archive names first, and every member that names another
stops it. What the command changes, whether it succeeds or breaks off, is the directory of that container
and what lies below; the directory that holds the containers is made where it is missing.

To take the container's lock the command makes the state directory and the directory of the locks in it
where they are missing, and writes the lock's own file. That is not followed here (`Env.lockGranted` is its
answer), so nothing is said of these paths.

* **`Archive.container`** — the container an archive names first.
* **`restore_confined`** — every archive, from every tree.
-/

namespace ProotDistro

open Posix Dirfd TarExtract

namespace Restore

/-! ## The container of an archive -/

/-- The container a member names, if it passes the checks before its kind is looked at. -/
def namedBy (m : Member) : Option Name :=
  if m.kind = .device ∨ checkBareRoot m.name = true then none else (destPath m.name).map Prod.fst

/-- The member in whose data a stream breaks. -/
def Ending.last : Ending → List Member
  | .brokenIn m => [m]
  | _ => []

/-- The container an archive names first. -/
def Archive.container (archive : Archive) : Option Name :=
  (archive.members ++ archive.ending.last).findSome? namedBy

/-- Where the lock is taken: the directory of the locks with what is in it, and the levels above it. -/
def LockPlace (env : Env) (q : Path) : Prop := q <+: env.runtime ∨ env.runtime ++ ["locks".toList] <+: q

/-- What a restore of a container may change. -/
def Only (env : Env) (o : Option Name) (q : Path) : Prop :=
  ∃ name, o = some name ∧ (q = env.containers ∨ env.containerDir name <+: q)

/-- The container a member names has a valid name. -/
theorem namedBy_valid {m : Member} {name : Name} (h : namedBy m = some name) : isValidName name = true := by
  unfold namedBy at h
  split at h
  · cases h
  · obtain ⟨⟨container, parts⟩, hdest, rfl⟩ := Option.map_eq_some_iff.mp h
    exact (destPath_spec hdest).1

theorem container_valid {archive : Archive} {name : Name} (h : archive.container = some name) :
    isValidName name = true := by
  obtain ⟨m, -, hm⟩ := List.exists_of_findSome?_eq_some h
  exact namedBy_valid hm

section Members

variable {before : Fs} {env : Env} {name : Name} {parts : List Name} {m : Member} {p : Progress}
  {o : Option Name}

/-- The checks on a member fix the container it names, where none was fixed, and pass no other. -/
theorem examine_named {restoreName restoreName' : Option Name} {ask : Ask}
    (h : examine env restoreName m = .ok (restoreName', ask)) :
    restoreName' = restoreName.or (namedBy m) ∧ ∀ n, namedBy m = some n → restoreName' = some n := by
  have hmap : ∀ {r : Except Refusal Ask} {o : Option Name},
      r.map (fun ask => (o, ask)) = .ok (restoreName', ask) → restoreName' = o := by
    intro r o hr
    cases r with
    | error why => cases hr
    | ok ask' =>
      cases hr
      rfl
  unfold namedBy
  unfold examine at h
  split at h
  -- a device is passed over, whatever its name
  · rename_i hdevice
    cases h
    rw [if_pos (.inl hdevice), Option.or_none]
    exact ⟨rfl, fun n hn => by cases hn⟩
  · rename_i hdevice
    -- so is a name with one component
    split at h
    · cases h
    · rename_i hbare
      rw [if_neg (by simp [hdevice, hbare])]
      split at h
      · rename_i hdest
        cases h
        rw [hdest, Option.map_none, Option.or_none]
        exact ⟨rfl, fun n hn => by cases hn⟩
      · rename_i container places hdest
        rw [hdest]
        -- the container is compared with the fixed one, or fixed by this member
        split at h
        · split at h
          · exact ⟨hmap h, fun n hn => (hmap h).trans hn⟩
          · cases h
        · split at h
          · rename_i name heq
            refine ⟨hmap h, fun n hn => (hmap h).trans ?_⟩
            rw [← hn, ← heq]
            rfl
          · cases h

/-- What is below the container's directory may change. -/
theorem only_below (ho : o = some name) (r : List Name) : Only env o (env.containerDir name ++ r) :=
  ⟨name, ho, .inr ⟨r, rfl⟩⟩

/-- What may change is enough for a restore of the container. -/
theorem only_permits (ho : o = some name) : Permits env name (Only env o) where
  containers := ⟨name, ho, .inl rfl⟩
  dir := ⟨name, ho, .inr List.prefix_rfl⟩
  rootfs := fun r => only_below ho (rootfsName :: r)
  shm := fun r => only_below ho (shmDirName :: r)

/-- Where part of a file goes: the same place as all of it. -/
theorem placePart_within {S : Path → Prop} {content : Bytes} (hname : isValidName name = true)
    (hS : Permits env name S) (hroot : isRootfsDest parts = true) (hparts : ∀ x ∈ parts, ValidName x) :
    Proc.Keeps (Within S before) (placePart env name parts content p) fun _ => True := by
  unfold placePart
  apply (commitOnce_within hname hS).bind
  intro _ _
  apply (parentOf_within hroot hparts hS.rootfs).bind
  intro o ho
  cases o with
  | none => exact Proc.Keeps.pure trivial
  | some x =>
    obtain ⟨key, leaf⟩ := x
    obtain ⟨⟨inner, heq⟩, hv⟩ := ho key leaf rfl
    have hleaf : ValidName leaf := hv leaf (by simp)
    have hat : ∀ r, S (env.containerDir name ++ key ++ leaf :: r) := by
      intro r
      have hpath : env.containerDir name ++ key ++ leaf :: r =
          env.containerDir name ++ rootfsName :: (inner ++ r) := by
        rw [← List.cons_append, ← heq]
        simp
      rw [hpath]
      exact hS.rootfs _
    apply (removeExisting_within hleaf hat).bind
    intro _ _
    exact (writeData_within hleaf (hat [])).conseq (fun _ h => h) (fun _ _ h => ⟨h.1, trivial⟩) fun _ h => h

/-- A member changes only what the container it names, or the one named before, may change. -/
theorem restoreMember_only (hp : Sealed p)
    (ho : ∀ name, p.restoreName.or (namedBy m) = some name → o = some name) :
    Proc.Keeps (Within (Only env o) before) (restoreMember env m p) fun p' =>
      (p'.restoreName = p.restoreName.or (namedBy m) ∧ ∀ n, namedBy m = some n → p'.restoreName = some n) ∧
        Sealed p' := by
  unfold restoreMember
  split
  · exact Proc.Keeps.fail
  · rename_i hexamine
    exact Proc.Keeps.pure ⟨examine_named hexamine, hp⟩
  · rename_i hexamine
    exact Proc.Keeps.pure ⟨examine_named hexamine, hp⟩
  · rename_i name parts what hexamine
    have hnamed := examine_named hexamine
    have hname := ho name hnamed.1.symm
    obtain ⟨⟨name', hname', hvalid⟩, hroot, hparts⟩ := examine_content hexamine
    cases hname'
    apply checked_keeps
    apply (place_within hvalid (only_permits hname) hroot hparts hp).mono
    rintro p' ⟨hrestore, -, -, hsealed⟩
    rw [hrestore]
    exact ⟨hnamed, hsealed⟩
  · rename_i hexamine
    obtain ⟨⟨name', hname', -⟩, -⟩ := examine_content hexamine
    cases hname'

/-- Whatever comes of the data of a member, the stream stops. -/
theorem breakIn_only (hp : Sealed p)
    (ho : ∀ name, p.restoreName.or (namedBy m) = some name → o = some name) :
    Proc.Keeps (Within (Only env o) before) (breakIn env m p) fun _ => False := by
  unfold breakIn
  split
  · rename_i name parts content hexamine
    have hname := ho name (examine_named hexamine).1.symm
    obtain ⟨⟨name', hname', hvalid⟩, hroot, hparts⟩ := examine_content hexamine
    cases hname'
    apply (checked_keeps (placePart_within hvalid (only_permits hname) hroot hparts)).bind
    intro _ _
    exact Proc.Keeps.fail
  · exact Proc.Keeps.fail
  · exact (restoreMember_only hp ho).bind fun _ _ => Proc.Keeps.fail

/-- Every member is of the one container, or ends the restore. -/
theorem stream_only {ending : Ending} {members : List Member} (hp : Sealed p)
    (ho : p.restoreName.or ((members ++ ending.last).findSome? namedBy) = o) :
    Proc.Keeps (Within (Only env o) before) (restoreStream env ending members p) fun p' =>
      (p'.restoreName = o ∧ ∀ m ∈ members, ∀ n, namedBy m = some n → o = some n) ∧ Sealed p' := by
  induction members generalizing p with
  | nil =>
    unfold restoreStream finishStream
    cases ending with
    | eof =>
      have hname : p.restoreName = o := by
        rw [← ho]
        exact Option.or_none.symm
      exact Proc.Keeps.pure ⟨⟨hname, fun m hm => by cases hm⟩, hp⟩
    | broken => exact Proc.Keeps.fail
    | brokenIn m =>
      apply (breakIn_only hp _).mono fun _ hfalse => hfalse.elim
      intro name hname
      rw [← ho]
      show p.restoreName.or ([m].findSome? namedBy) = some name
      rw [List.findSome?_singleton]
      exact hname
  | cons m members ih =>
    -- the container fixed after the member is the one fixed by the first that names any
    have hstep : p.restoreName.or (((m :: members) ++ ending.last).findSome? namedBy) =
        (p.restoreName.or (namedBy m)).or ((members ++ ending.last).findSome? namedBy) := by
      rw [List.cons_append, List.findSome?_cons, Option.or_assoc]
      cases namedBy m <;> rfl
    unfold restoreStream
    apply (restoreMember_only hp fun name hname => ?_).bind
    · rintro p₁ ⟨⟨hname₁, hnamed⟩, hp₁⟩
      have ho₁ : p₁.restoreName.or ((members ++ ending.last).findSome? namedBy) = o := by
        rw [hname₁, ← hstep, ho]
      apply (ih hp₁ ho₁).mono
      rintro p' ⟨⟨hname', hrest⟩, hp'⟩
      refine ⟨⟨hname', fun m' hm' n hn => ?_⟩, hp'⟩
      rcases List.mem_cons.mp hm' with rfl | hm'
      · rw [← ho₁, hnamed n hn]
        rfl
      · exact hrest m' hm' n hn
    · rw [← ho, hstep, hname]
      rfl

end Members

/-! ## After the members -/

section Finish

variable {before : Fs} {env : Env} {name : Name} {p : Progress} {o : Option Name} {S : Path → Prop}
  {data : Bytes} {mode : Mode} {d : Path}

/-- The new manifest takes the place of the old one, and of nothing else. -/
theorem replaceManifest_within (htmp : S (d ++ [tmpName env])) (hman : S (d ++ [manifestName])) :
    Proc.Keeps (Within S before) (replaceManifest env d data mode) fun _ => True := by
  have hv := tmpName_valid env
  -- the temporary file has one name, which is what the write and the rename go by
  have hwrite : Proc.Triple (fun fs => Within S before fs ∧ Fresh d (tmpName env) fs) (writeOnce env d data)
      (fun _ fs => Within S before fs ∧ Fresh d (tmpName env) fs) (Within S before) := by
    unfold writeOnce
    split
    · exact Proc.Triple.fail fun _ h => h.1
    · exact modifyAt_within htmp
  have hrename : Proc.Triple (fun fs => Within S before fs ∧ Fresh d (tmpName env) fs)
      (Proc.change (·.renameAt d (tmpName env) manifestName) : Sys Unit)
      (fun _ fs => Within S before fs ∧ True) (Within S before) := by
    apply Proc.Triple.change
    · rintro fs fs' ⟨h, ino, data, hfile, hunique⟩ hfs'
      obtain ⟨-, hget⟩ := Fs.renameAt_ok manifestName_valid hfile hunique hfs'
      refine ⟨h.of_get fun q hq => ?_, trivial⟩
      rw [hget, if_neg, if_neg]
      · rintro rfl
        exact hq htmp
      · rintro rfl
        exact hq hman
    · exact fun _ h => h.1
  have hpublish : Proc.Triple (fun fs => Within S before fs ∧ Fresh d (tmpName env) fs)
      (publish env d data mode) (fun _ fs => Within S before fs ∧ True) (Within S before) :=
    hwrite.bind fun _ => (fchmod_within htmp).bind fun _ => hrename
  unfold replaceManifest
  apply Proc.Triple.bind (openNewAt_within hv htmp)
  intro _
  apply hpublish.handle
  intro e
  exact (unlinkAt_within hv htmp).quietly.bind fun _ _ => Proc.Keeps.fail

/-- Writing the manifest at the end stays in the container's directory. -/
theorem writePending_within {pending : Option (Bytes × Mode)} (hname : isValidName name = true)
    (hS : Permits env name S) (hbelow : ∀ r, S (env.containerDir name ++ r)) :
    Proc.Keeps (Within S before) (writePending env name pending) fun _ => True := by
  unfold writePending
  split
  · exact Proc.Keeps.pure trivial
  · unfold writeManifest
    apply Proc.Keeps.quietly
    apply (descendContainer_within hname hS).bind
    rintro c rfl
    exact replaceManifest_within (hbelow _) (hbelow _)

theorem removeContainer_within (hname : isValidName name = true)
    (hbelow : ∀ r, S (env.containerDir name ++ r)) :
    Proc.Keeps (Within S before) (removeContainer env name) fun _ => True := by
  unfold removeContainer
  apply Proc.Keeps.quietly
  have hparts : ∀ n ∈ ["containers".toList], ValidName n := by decide
  apply (descendAt_within hparts fun hfalse => by cases hfalse).bind
  rintro d rfl
  apply rmtreeAt_within (isValidName_validName hname)
  intro r
  have h := hbelow r
  rw [Env.containerDir, List.append_assoc] at h
  exact h

/-- So does all that is done at the end of the stream. -/
theorem finish_only (hp : Sealed p) (hname : p.restoreName = o)
    (hvalid : ∀ name, o = some name → isValidName name = true) :
    Proc.Keeps (Within (Only env o) before) (finish env p) fun name => o = some name := by
  unfold finish
  split
  · rename_i name hrestore _
    have ho : o = some name := hname.symm.trans hrestore
    have hlook : Proc.Keeps (Within (Only env o) before)
        (.look fun fs => .ok (rootfsIsADirectory (env.containerDir name) fs) : Proc Fs Failure Bool)
        fun _ => True := Proc.Keeps.look fun _ _ _ _ => trivial
    apply hlook.bind
    intro b _
    split
    · apply (checked_keeps (sealDirs_within hp fun r => only_below ho _)).bind
      intro _ _
      apply (checked_keeps (writePending_within (hvalid name ho) (only_permits ho)
        (only_below ho))).bind
      intro _ _
      exact Proc.Keeps.pure ho
    · exact (checked_keeps (removeContainer_within (hvalid name ho) (only_below ho))).bind fun _ _ =>
        Proc.Keeps.fail
  · exact Proc.Keeps.fail

end Finish

/-- **A restore stays in one container**: whatever the archive has and however its stream ends, nothing
changes, where the lock is taken aside, but what lies in the directory of the container the archive names
first; and where it names none, nothing changes at all. A restore that succeeds is of that container, and no
member names another. -/
theorem restore_confined (env : Env) (archive : Archive) (fs : Fs) :
    (∀ q, ¬ LockPlace env q → ¬ Only env archive.container q →
      (commandRestore env archive fs).2.get q = fs.get q) ∧
      (archive.container = none → ∀ q, (commandRestore env archive fs).2.get q = fs.get q) ∧
      ∀ name, (commandRestore env archive fs).1 = .ok name → archive.container = some name ∧
        ∀ m ∈ archive.members, ∀ other, namedBy m = some other → other = name := by
  -- from the start on, every change is of the one container
  have hstart : Sealed restoreStart := fun x hx => by cases hx
  have hstream : Proc.Keeps (Within (Only env archive.container) fs)
      (restoreStream env archive.ending archive.members restoreStart) fun p' =>
        (p'.restoreName = archive.container ∧
          ∀ m ∈ archive.members, ∀ n, namedBy m = some n → archive.container = some n) ∧ Sealed p' :=
    stream_only hstart rfl
  have hrun : Proc.Keeps (Within (Only env archive.container) fs) (commandRestore env archive)
      fun name => archive.container = some name ∧
        ∀ m ∈ archive.members, ∀ other, namedBy m = some other → other = name := by
    unfold commandRestore
    apply hstream.bind
    rintro p ⟨⟨hname, hall⟩, hp⟩
    apply (finish_only hp hname fun name => container_valid).mono
    intro name hcontainer
    refine ⟨hcontainer, fun m hm other hother => ?_⟩
    have hsame := hall m hm other hother
    rw [hcontainer, Option.some.injEq] at hsame
    exact hsame.symm
  -- what is checked at the end of the run is the same for every outcome
  have hwithin := Within.refl (Only env archive.container) fs
  have hfinal : Within (Only env archive.container) fs (commandRestore env archive fs).2 :=
    Proc.Triple.final hrun hwithin (fun _ _ h => h.1) fun _ h => h
  refine ⟨fun q _ hq => hfinal q hq, fun hnone q => hfinal q ?_,
    fun name hname => (hrun.answer hwithin hname).2⟩
  rintro ⟨name, hname, -⟩
  rw [hnone] at hname
  cases hname

end Restore

end ProotDistro
