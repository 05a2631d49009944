import ProotDistro.Restore.Manifest

/-!
# When a restore leaves a container alone

The old rootfs goes at the first member that asks for content of the rootfs, before it is known whether
the member leaves anything there: of a hard link, the source is opened after the commit. So an archive
that has nothing to put into a rootfs may still cost the container its own.

* **`stream_idle`** — a stream that asks for no content changes nothing.
* **`stream_cleared`** — a stream of hard links whose sources never appear leaves directories only.
* **`restore_left_alone_iff`** — of archives with nothing to restore, the container is left alone and the
  command fails exactly for those that ask for no content at all.
-/

namespace ProotDistro

open Posix Dirfd TarExtract

namespace Restore

/-! ## What an archive asks for -/

/-- What is asked to be put into the rootfs of a container. -/
def contentOf : Option Name → Ask → Option (Name × Content)
  | some name, .content _ what => some (name, what)
  | _, _ => none

/-- What one member asks for, behind those that fix the container. -/
def askedBy (env : Env) (restoreName : Option Name) (m : Member) : List (Name × Content) :=
  match examine env restoreName m with
  | .error _ => []
  | .ok (restoreName', ask) => (contentOf restoreName' ask).toList

/-- What the members ask for, as far as the checks let the stream come. -/
def asked (env : Env) (ending : Ending) : List Member → Option Name → List (Name × Content)
  | [], restoreName =>
    match ending with
    | .eof | .broken => []
    | .brokenIn m => askedBy env restoreName m
  | m :: members, restoreName =>
    match examine env restoreName m with
    | .error _ => []
    | .ok (restoreName', ask) =>
      (contentOf restoreName' ask).toList ++ asked env ending members restoreName'

def Archive.asked (env : Env) (archive : Archive) : List (Name × Content) :=
  Restore.asked env archive.ending archive.members none

/-- A hard link whose source is in the rootfs, which is empty when it is looked for, or is a manifest the
container does not have. -/
def Sourceless (env : Env) (fs : Fs) (x : Name × Content) : Prop :=
  ∃ source, x.2 = .lnk source ∧ (source = [manifestName] →
    ∀ ino f, fs.get (env.containerDir x.1 ++ [manifestName]) ≠ some (.file ino f))

/-- No member of the archive can be materialised. -/
def NothingToRestore (env : Env) (archive : Archive) (fs : Fs) : Prop :=
  ∀ x ∈ archive.asked env, Sourceless env fs x

/-- The command fails, and what is in the directories of the containers is as it was. -/
def LeftAlone (env : Env) (before : Fs) (run : Except Failure Name × Fs) : Prop :=
  (∃ e, run.1 = .error e) ∧
    ∀ name r, run.2.get (env.containerDir name ++ r) = before.get (env.containerDir name ++ r)

/-! ## Streams that ask for nothing -/

section Idle

variable {env : Env} {ending : Ending} {members : List Member} {p : Progress}

/-- A member without content for the container changes nothing in the tree. -/
theorem restoreMember_idle (fs : Fs) {m : Member} {restoreName' : Option Name} {ask : Ask}
    (hexamine : examine env p.restoreName m = .ok (restoreName', ask))
    (hnone : contentOf restoreName' ask = none) :
    ∃ p', restoreMember env m p fs = (.ok p', fs) ∧ p'.restoreName = restoreName' ∧
      p'.committed = p.committed := by
  unfold restoreMember
  rw [hexamine]
  cases ask with
  | skip => exact ⟨_, rfl, rfl, rfl⟩
  | manifest data mode => exact ⟨_, rfl, rfl, rfl⟩
  | content parts what =>
    cases restoreName' with
    | none =>
      obtain ⟨⟨name, hname, -⟩, -⟩ := examine_content hexamine
      cases hname
    | some name => cases hnone

/-- Nor does a stream that breaks in the data of a member that asks for nothing. -/
theorem breakIn_idle (fs : Fs) {m : Member} (h : askedBy env p.restoreName m = []) :
    ∃ e, breakIn env m p fs = (.error e, fs) := by
  unfold askedBy at h
  cases hexamine : examine env p.restoreName m with
  | error why =>
    refine ⟨.refused why, ?_⟩
    unfold breakIn restoreMember
    rw [hexamine]
    rfl
  | ok x =>
    obtain ⟨restoreName', ask⟩ := x
    rw [hexamine] at h
    have hnone : contentOf restoreName' ask = none := by
      simpa using h
    obtain ⟨p', hmember, -⟩ := restoreMember_idle fs hexamine hnone
    refine ⟨.unreadable, ?_⟩
    unfold breakIn
    rw [hexamine]
    cases ask with
    | skip =>
      cases restoreName' <;> exact Proc.bind_of_ok hmember
    | manifest data mode =>
      cases restoreName' <;> rfl
    | content parts what =>
      cases restoreName' with
      | none => exact Proc.bind_of_ok hmember
      | some name => cases hnone

/-- **A stream that asks for no content** changes nothing, and commits to nothing. -/
theorem stream_idle (fs : Fs) (h : asked env ending members p.restoreName = []) :
    ∃ r, restoreStream env ending members p fs = (r, fs) ∧
      ∀ p', r = .ok p' → p'.committed = p.committed := by
  induction members generalizing p with
  | nil =>
    unfold restoreStream finishStream
    cases ending with
    | eof =>
      refine ⟨_, rfl, fun p' hp' => ?_⟩
      cases hp'
      rfl
    | broken => exact ⟨_, rfl, fun p' hp' => by cases hp'⟩
    -- the member it breaks in asks for nothing either
    | brokenIn m =>
      obtain ⟨e, he⟩ := breakIn_idle fs (show askedBy env p.restoreName m = [] from h)
      exact ⟨_, he, fun p' hp' => by cases hp'⟩
  | cons m members ih =>
    unfold restoreStream
    unfold asked at h
    -- a member that is refused ends the stream where it stands
    cases hexamine : examine env p.restoreName m with
    | error why =>
      have hmember : restoreMember env m p fs = (.error (.refused why), fs) := by
        unfold restoreMember
        rw [hexamine]
        rfl
      exact ⟨_, Proc.bind_of_error hmember, fun p' hp' => by cases hp'⟩
    | ok x =>
      obtain ⟨restoreName', ask⟩ := x
      rw [hexamine] at h
      obtain ⟨hnone, hrest⟩ := List.append_eq_nil_iff.mp h
      -- one that passes asks for nothing, so the rest starts from the same tree
      have hnone' : contentOf restoreName' ask = none := by
        simpa using hnone
      obtain ⟨p₁, hmember, hname, hcommitted⟩ := restoreMember_idle fs hexamine hnone'
      obtain ⟨r, hrun, hr⟩ := ih (p := p₁) (hname ▸ hrest)
      refine ⟨r, ?_, fun p' hp' => (hr p' hp').trans hcommitted⟩
      rw [Proc.bind_of_ok hmember]
      exact hrun

/-- Such a stream ends in a failure. -/
theorem commandRestore_idle (fs : Fs) {archive : Archive} (h : archive.asked env = []) :
    ∃ e, commandRestore env archive fs = (.error e, fs) := by
  obtain ⟨r, hrun, hr⟩ := stream_idle (p := restoreStart) fs h
  unfold commandRestore
  cases r with
  | error e => exact ⟨e, Proc.bind_of_error hrun⟩
  | ok p =>
    have hcommitted : p.committed = false := hr p rfl
    refine ⟨.refused .noRootfs, ?_⟩
    rw [Proc.bind_of_ok hrun]
    unfold finish
    rw [hcommitted]
    cases p.restoreName <;> rfl

end Idle

/-! ## What the commit leaves -/

/-- The rootfs has nothing but directories. -/
def Bare (c : Path) (fs : Fs) : Prop :=
  ∀ r e, fs.get (c ++ rootfsName :: r) = some e → e.isDir = true

/-- The rootfs has nothing but directories, and a file is the manifest only where one was. -/
structure Cleared (c : Path) (before fs : Fs) : Prop where
  bare : Bare c fs
  manifest : (∀ ino f, before.get (c ++ [manifestName]) ≠ some (.file ino f)) →
    ∀ ino f, fs.get (c ++ [manifestName]) ≠ some (.file ino f)

section Cleared

variable {c d : Path} {before fs fs' : Fs} {name : Name} {mode umask : Mode} {parts key : List Name}
  {env : Env} {p : Progress}

/-- A directory more. -/
theorem Cleared.mkdirAt (h : Cleared c before fs) (hmk : fs.mkdirAt d name mode = .ok fs') :
    Cleared c before fs' := by
  obtain ⟨-, -, -, hget⟩ := Fs.mknodAt_ok hmk
  constructor
  · intro r e he
    rw [hget] at he
    split at he
    · cases he
      rfl
    · exact h.bare r e he
  · intro hnone ino f hf
    rw [hget] at hf
    split at hf
    · cases hf
    · exact h.manifest hnone ino f hf

/-- Entries less. -/
theorem Cleared.of_removed (h : Cleared c before fs) (hget : ∀ q, fs'.get q = none ∨ fs'.get q = fs.get q) :
    Cleared c before fs' := by
  constructor
  · intro r e he
    rcases hget (c ++ rootfsName :: r) with hq | hq
    · rw [hq] at he
      cases he
    · exact h.bare r e (hq ▸ he)
  · intro hnone ino f hf
    rcases hget (c ++ [manifestName]) with hq | hq
    · rw [hq] at hf
      cases hf
    · exact h.manifest hnone ino f (hq ▸ hf)

/-- A removal takes entries away and changes none. -/
theorem rmtreeAt_removed (fs : Fs) (d : Path) (hv : ValidName name) :
    ∃ fs', rmtreeAt d name fs = (.ok (), fs') ∧ ∀ q, fs'.get q = none ∨ fs'.get q = fs.get q := by
  obtain ⟨fs', hrun, hget⟩ := rmtreeAt_spec fs d hv
  refine ⟨fs', hrun, fun q => ?_⟩
  rw [hget]
  split
  · exact .inl rfl
  · exact .inr rfl

/-- A walk that makes what is missing. -/
theorem descendAt_cleared {create : Bool} :
    Proc.Keeps (Cleared c before) (descendAt umask create d parts) fun _ => True := by
  have hopen : ∀ {d name}, Proc.Keeps (Cleared c before) (opendirAt d name) fun _ => True :=
    Proc.Keeps.look fun _ _ _ _ => trivial
  induction parts generalizing d with
  | nil => exact Proc.Keeps.pure trivial
  | cons part parts ih =>
    unfold descendAt
    have hlevel : Proc.Keeps (Cleared c before) (descendLevel umask create d part) fun _ => True := by
      apply hopen.handle
      intro e
      split
      · have hmkdir : Proc.Keeps (Cleared c before) (Dirfd.mkdirAt umask d part) fun _ => True :=
          Proc.Keeps.change fun fs fs' h hfs' => h.mkdirAt hfs'
        exact hmkdir.ignoring.bind fun _ _ => hopen
      · exact Proc.Keeps.fail
    exact hlevel.bind fun fd _ => ih

/-- **The commit** clears the rootfs of a container that is there. -/
theorem commit_cleared (hname : isValidName name = true) (hdir : before.IsDir (env.containerDir name)) :
    ∃ fs, commit env name before = (.ok (), fs) ∧ Cleared (env.containerDir name) before fs := by
  have hparts : ∀ n ∈ ["containers".toList, name], ValidName n := by
    intro n hn
    rcases List.mem_cons.mp hn with rfl | hn
    · decide
    · exact List.mem_singleton.mp hn ▸ isValidName_validName hname
  have hc : env.runtime ++ ["containers".toList, name] = env.containerDir name := by
    unfold Env.containerDir Env.containers
    simp
  -- both levels are directories already, so the descent makes none
  have hdescend : descendAt env.umask true env.runtime ["containers".toList, name] before =
      (.ok (env.containerDir name), before) := by
    rw [← hc] at hdir ⊢
    exact descendAt_of_isDir hparts hdir
  obtain ⟨fs₁, hrun₁, hget₁⟩ := rmtreeAt_spec before (env.containerDir name) rootfsName_valid
  obtain ⟨fs₂, hrun₂, hget₂⟩ := rmtreeAt_removed fs₁ (env.containerDir name) shmDirName_valid
  -- the old rootfs is gone whole, and what goes afterwards brings no file back
  have hcleared : Cleared (env.containerDir name) before fs₁ := by
    constructor
    · intro r e he
      rw [hget₁, if_pos ⟨r, by simp⟩] at he
      cases he
    · intro hnone ino f hf
      rw [hget₁] at hf
      split at hf
      · cases hf
      · exact hnone ino f hf
  refine ⟨fs₂, ?_, hcleared.of_removed hget₂⟩
  unfold commit
  rw [Proc.bind_of_ok hdescend]
  unfold clearExistingRootfs
  rw [Proc.bind_of_ok (Proc.quietly_of_ok hrun₁)]
  exact Proc.quietly_of_ok hrun₂

/-! ### Hard links without a source -/

/-- Where a hard link may say its source is. -/
def SourcePlace (source : List Name) : Prop :=
  (∀ x ∈ source, ValidName x) ∧ (source = [] ∨ source = [manifestName] ∨ isRootfsDest source = true)

/-- What is opened is no file. -/
theorem split_cleared {source : List Name} (hplace : SourcePlace source) (h : Cleared c before fs)
    (hnone : source = [manifestName] → ∀ ino f, before.get (c ++ [manifestName]) ≠ some (.file ino f))
    (hsplit : split c source true fs = some (key, name)) :
    ValidName name ∧ (∀ n ∈ key, ValidName n) ∧ ∀ ino f, fs.get (c ++ key ++ [name]) ≠ some (.file ino f) := by
  obtain ⟨hvalid, hcases⟩ := hplace
  have hfile : ∀ r ino f, fs.get (c ++ rootfsName :: r) ≠ some (.file ino f) := by
    intro r ino f hf
    cases h.bare r _ hf
  unfold split at hsplit
  split at hsplit
  -- a path of one name is the rootfs itself or the manifest
  · rename_i hshort
    obtain ⟨leaf, hlast, heq⟩ := Option.map_eq_some_iff.mp hsplit
    cases heq
    refine ⟨hvalid _ (List.mem_of_getLast? hlast), (fun n hn => by cases hn), ?_⟩
    rw [List.append_nil]
    rcases hcases with rfl | rfl | hroot
    · cases hlast
    · cases hlast
      exact h.manifest (hnone rfl)
    · have hhead : source.head? = some rootfsName := of_decide_eq_true hroot
      obtain ⟨x, rfl⟩ := List.length_eq_one_iff.mp (hshort.resolve_right (not_not.mpr hhead))
      cases hlast
      cases hhead
      exact hfile []
  -- a longer one ends in the rootfs, which has no entry left but directories
  · rename_i hlong
    dsimp only at hsplit
    rw [if_pos rfl] at hsplit
    split at hsplit
    · cases hsplit
    · rename_i resolved hresolved
      rw [if_pos rfl] at hsplit
      obtain ⟨leaf, hlast, heq⟩ := Option.map_eq_some_iff.mp hsplit
      cases heq
      have hresolvedValid := safeResolveParts_valid
        (fun x hx => (hvalid x (List.mem_of_mem_drop hx)).no_slash) hresolved
      refine ⟨hresolvedValid _ (List.mem_of_getLast? hlast), fun n hn => ?_, ?_⟩
      · rcases List.mem_cons.mp hn with rfl | hn
        · exact rootfsName_valid
        · exact hresolvedValid n (List.mem_of_mem_dropLast hn)
      · rw [List.append_assoc]
        exact hfile _

/-- **No source is opened.** -/
theorem openSource_cleared {source : List Name} (hplace : SourcePlace source)
    (hnone : source = [manifestName] → ∀ ino f, before.get (c ++ [manifestName]) ≠ some (.file ino f)) :
    Proc.Keeps (Cleared c before) (openSource umask c source) fun o => o = none := by
  intro fs h
  have hstate : (openSource umask c source fs).2 = fs ∧ (openSource umask c source fs).1 = .ok none := by
    unfold openSource
    have hlook : (Proc.look fun fs => .ok (split c source true fs) : Sys _) fs =
        (.ok (split c source true fs), fs) := rfl
    rw [Proc.bind_of_ok hlook]
    cases hsplit : split c source true fs with
    | none => exact ⟨rfl, rfl⟩
    | some x =>
      obtain ⟨key, name⟩ := x
      obtain ⟨hname, hkey, hfile⟩ := split_cleared hplace h hnone hsplit
      have hwithin := (descendAt_within hkey (fun hc => by cases hc) : Proc.Keeps
        (Within (fun _ => True) fs) (descendAt umask false c key) _) fs (Within.refl _ fs)
      -- the descent opens what is there, or fails; it makes nothing
      have hsame : (descendAt umask false c key fs).2 = fs := descendAt_false_state
      cases hrun : descendAt umask false c key fs with
      | mk r fs₁ =>
        rw [hrun] at hwithin hsame
        dsimp only at hsame
        subst hsame
        cases r with
        | error e =>
          have hfail : (do
              let fd ← descendAt umask false c key
              openRegularAt fd name : Sys FileData) fs₁ = (.error e, fs₁) := Proc.bind_of_error hrun
          dsimp only
          rw [Proc.optional_of_error hfail]
          exact ⟨rfl, rfl⟩
        | ok fd =>
          have hfd : fd = c ++ key := hwithin.2
          -- and what it leads to is no file, so it does not open
          obtain ⟨e, he⟩ : ∃ e, readRegular fd name fs₁ = .error e := by
            unfold readRegular
            rw [hfd, Fs.locate_valid hname]
            cases hget : fs₁.get (c ++ key ++ [name]) with
            | none => exact ⟨_, rfl⟩
            | some entry =>
              cases entry with
              | dir m => exact ⟨_, rfl⟩
              | symlink t => exact ⟨_, rfl⟩
              | file ino f => exact absurd hget (hfile ino f)
          have hfail : (do
              let fd ← descendAt umask false c key
              openRegularAt fd name : Sys FileData) fs₁ = (.error e, fs₁) := by
            rw [Proc.bind_of_ok hrun]
            show (readRegular fd name fs₁, fs₁) = _
            rw [he]
          dsimp only
          rw [Proc.optional_of_error hfail]
          exact ⟨rfl, rfl⟩
  cases hrun : openSource umask c source fs with
  | mk r fs₁ =>
    rw [hrun] at hstate
    obtain ⟨rfl, rfl⟩ := hstate
    exact ⟨h, rfl⟩

/-! ### Members -/

/-- Behind the commit: the container is fixed, and cleared. -/
structure Committed (env : Env) (name : Name) (before : Fs) (p : Progress) (fs : Fs) : Prop where
  cleared : Cleared (env.containerDir name) before fs
  restoreName : p.restoreName = some name
  committed : p.committed = true

/-- The way to the parent of an entry keeps the old rootfs cleared. -/
theorem parentOf_cleared : Proc.Keeps (Cleared c before) (parentOf umask c parts) fun _ => True := by
  unfold parentOf
  have hlook : Proc.Keeps (Cleared c before) (.look fun fs => .ok (split c parts false fs) : Sys _)
      fun _ => True := Proc.Keeps.look fun _ _ _ _ => trivial
  apply hlook.bind
  intro o _
  cases o with
  | none => exact Proc.Keeps.pure trivial
  | some x =>
    apply descendAt_cleared.optional.bind
    intro fd _
    cases fd with
    | none => exact Proc.Keeps.pure trivial
    | some fd => exact Proc.Keeps.pure trivial

/-- A hard link without a source leaves its parents at most. -/
theorem place_cleared {P : Fs → Prop} {source : List Name} (hplace : SourcePlace source)
    (hnone : source = [manifestName] →
      ∀ ino f, before.get (env.containerDir name ++ [manifestName]) ≠ some (.file ino f))
    (hcommit : Proc.Triple P (commitOnce env name p) (fun _ fs => Cleared (env.containerDir name) before fs)
      (Cleared (env.containerDir name) before)) :
    Proc.Triple P (place env name parts mode (.lnk source) p) (Committed env name before)
      (Cleared (env.containerDir name) before) := by
  unfold place
  apply hcommit.bind
  intro _
  apply parentOf_cleared.bind_triple fun _ hs => hs
  intro o _
  cases o with
  | none => exact Proc.Triple.pure fun _ hs => ⟨hs, rfl, rfl⟩
  | some x =>
    unfold extract
    apply (openSource_cleared hplace hnone).bind_triple fun _ hs => hs
    intro found hfound
    rw [hfound]
    exact Proc.Triple.pure fun _ hs => ⟨hs, rfl, rfl⟩

/-- What holds around the calls of a step holds around the step that stops at their errors. -/
theorem checked_triple {α : Type} {P E : Fs → Prop} {q : Sys α} {Q : α → Fs → Prop}
    (h : Proc.Triple P q Q E) : Proc.Triple P (checked q) Q E := by
  intro fs hfs
  have hq := h fs hfs
  unfold checked
  cases hr : q fs with
  | mk r fs' =>
    rw [hr] at hq
    cases r with
    | ok a => exact hq
    | error e => exact hq

end Cleared

section Streams

variable {env : Env} {ending : Ending} {members : List Member} {p : Progress} {before : Fs} {name : Name}
  {m : Member}

/-- A name that is fixed stays. -/
theorem examine_fixed {restoreName' : Option Name} {ask : Ask}
    (h : examine env (some name) m = .ok (restoreName', ask)) : restoreName' = some name := by
  have hmap : ∀ {r : Except Refusal Ask}, r.map (fun ask => (some name, ask)) = .ok (restoreName', ask) →
      restoreName' = some name := by
    intro r hr
    cases r with
    | error why => cases hr
    | ok ask' =>
      cases hr
      rfl
  unfold examine at h
  split at h
  · cases h
    rfl
  · split at h
    · cases h
    · split at h
      · cases h
        rfl
      · dsimp only at h
        split at h
        · exact hmap h
        · cases h

/-- The source of a hard link has gone through the checks on names. -/
theorem examine_source {restoreName restoreName' : Option Name} {parts source : List Name}
    (h : examine env restoreName m = .ok (restoreName', .content parts (.lnk source))) :
    SourcePlace source := by
  -- only a hard link has a source, and it went through the same checks as a destination
  have hask : ∀ {container : Name} {places : List Name},
      askOf container places m = .ok (.content parts (.lnk source)) → SourcePlace source := by
    intro container places hask
    unfold askOf at hask
    split at hask
    · split at hask
      · cases hask
      · cases hask
      · cases hask
      · split at hask
        · rename_i hdest
          split at hask
          · cases hask
            obtain ⟨-, hvalid, hcases⟩ := destPath_spec hdest
            exact ⟨hvalid, hcases⟩
          · cases hask
        · cases hask
      · cases hask
      · cases hask
    · split at hask
      · split at hask
        · split at hask
          · cases hask
          · cases hask
        · cases hask
      · cases hask
  have hmap : ∀ {container : Name} {places : List Name} {o : Option Name},
      (askOf container places m).map (fun ask => (o, ask)) =
        .ok (restoreName', .content parts (.lnk source)) → SourcePlace source := by
    intro container places o hmap
    cases hr : askOf container places m with
    | error why =>
      rw [hr] at hmap
      cases hmap
    | ok ask =>
      rw [hr] at hmap
      cases hmap
      exact hask hr
  -- the refusals name no content; the two branches left differ in the container alone
  unfold examine at h
  split at h
  · cases h
  · split at h
    · cases h
    · split at h
      · cases h
      · split at h
        · split at h
          · exact hmap h
          · cases h
        · split at h
          · exact hmap h
          · cases h

/-- What a member asks for that is without a source. -/
theorem restoreMember_cleared {P : Fs → Prop} {restoreName' : Option Name} {ask : Ask} {x : Name × Content}
    (hexamine : examine env p.restoreName m = .ok (restoreName', ask)) (hcontent : contentOf restoreName' ask = some x)
    (hx : Sourceless env before x)
    (hcommit : Proc.Triple P (commitOnce env x.1 p) (fun _ fs => Cleared (env.containerDir x.1) before fs)
      (Cleared (env.containerDir x.1) before)) :
    Proc.Triple P (restoreMember env m p) (Committed env x.1 before)
      (Cleared (env.containerDir x.1) before) := by
  unfold restoreMember
  rw [hexamine]
  cases ask with
  | skip => cases restoreName' <;> cases hcontent
  | manifest data mode => cases restoreName' <;> cases hcontent
  | content parts what =>
    cases restoreName' with
    | none => cases hcontent
    | some name =>
      cases hcontent
      obtain ⟨source, rfl, hnone⟩ := hx
      exact checked_triple (place_cleared (examine_source hexamine) hnone hcommit)

/-- What the stream breaks in is without a source. -/
theorem breakIn_cleared {P : Fs → Prop} {restoreName' : Option Name} {ask : Ask} {x : Name × Content}
    (hexamine : examine env p.restoreName m = .ok (restoreName', ask)) (hcontent : contentOf restoreName' ask = some x)
    (hx : Sourceless env before x)
    (hcommit : Proc.Triple P (commitOnce env x.1 p) (fun _ fs => Cleared (env.containerDir x.1) before fs)
      (Cleared (env.containerDir x.1) before)) {Q : Progress → Fs → Prop} :
    Proc.Triple P (breakIn env m p) Q (Cleared (env.containerDir x.1) before) := by
  have hmember : Proc.Triple P (do
      let _ ← restoreMember env m p
      .fail .unreadable : Proc Fs Failure Progress) Q (Cleared (env.containerDir x.1) before) :=
    (restoreMember_cleared hexamine hcontent hx hcommit).bind fun _ => Proc.Triple.fail fun _ hs => hs.cleared
  unfold breakIn
  rw [hexamine]
  cases ask with
  | skip => cases restoreName' <;> cases hcontent
  | manifest data mode => cases restoreName' <;> cases hcontent
  | content parts what =>
    cases restoreName' with
    | none => cases hcontent
    | some name =>
      cases hcontent
      obtain ⟨source, rfl, -⟩ := hx
      exact hmember

/-- A member that asks for nothing. -/
theorem restoreMember_kept {I : Fs → Prop} {restoreName' : Option Name} {ask : Ask}
    (hexamine : examine env p.restoreName m = .ok (restoreName', ask)) (hnone : contentOf restoreName' ask = none) :
    Proc.Triple I (restoreMember env m p)
      (fun p' fs => I fs ∧ p'.restoreName = restoreName' ∧ p'.committed = p.committed) fun _ => False := by
  intro fs hfs
  obtain ⟨p', hrun, hname, hcommitted⟩ := restoreMember_idle fs hexamine hnone
  rw [hrun]
  exact ⟨hfs, hname, hcommitted⟩

/-- After the container was committed nothing is cleared again. -/
theorem commitOnce_done {I : Fs → Prop} (hcommitted : p.committed = true) :
    Proc.Triple I (commitOnce env name p) (fun _ fs => I fs) I := by
  unfold commitOnce
  rw [if_pos hcommitted]
  exact Proc.Triple.pure fun _ hs => hs

/-- The container that is asked for is the one that is fixed. -/
theorem contentOf_name {ask : Ask} {x : Name × Content} (h : contentOf (some name) ask = some x) :
    x.1 = name := by
  cases ask with
  | skip => cases h
  | manifest data mode => cases h
  | content parts what =>
    cases h
    rfl

/-- Behind the commit a member leaves directories at most. -/
theorem restoreMember_committed (hp : p.restoreName = some name) (hcommitted : p.committed = true)
    (h : ∀ x ∈ askedBy env (some name) m, Sourceless env before x) :
    Proc.Triple (Cleared (env.containerDir name) before) (restoreMember env m p) (Committed env name before)
      (Cleared (env.containerDir name) before) := by
  unfold askedBy at h
  cases hexamine : examine env (some name) m with
  | error why =>
    unfold restoreMember
    rw [hp, hexamine]
    exact Proc.Triple.fail fun _ hs => hs
  | ok y =>
    obtain ⟨restoreName', ask⟩ := y
    cases examine_fixed hexamine
    rw [hexamine] at h
    dsimp only at h
    rw [← hp] at hexamine
    cases hcontent : contentOf (some name) ask with
    | none =>
      have hkept := restoreMember_kept (I := Cleared (env.containerDir name) before) hexamine (hp ▸ hcontent)
      exact hkept.conseq (fun _ hs => hs)
        (fun p' fs hs => ⟨hs.1, hs.2.1.trans hp, hs.2.2.trans hcommitted⟩) fun _ hs => hs.elim
    | some x =>
      have hx : Sourceless env before x := by
        apply h
        rw [hcontent]
        exact List.mem_singleton.mpr rfl
      have hmember := restoreMember_cleared hexamine (hp ▸ hcontent) hx (commitOnce_done hcommitted)
      rw [contentOf_name hcontent] at hmember
      exact hmember

/-- A stream that breaks after the commit leaves the old entries cleared. -/
theorem breakIn_committed {Q : Progress → Fs → Prop} (hp : p.restoreName = some name)
    (hcommitted : p.committed = true) (h : ∀ x ∈ askedBy env (some name) m, Sourceless env before x) :
    Proc.Triple (Cleared (env.containerDir name) before) (breakIn env m p) Q
      (Cleared (env.containerDir name) before) := by
  unfold askedBy at h
  cases hasked : askedBy env p.restoreName m with
  | nil =>
    intro fs hfs
    obtain ⟨e, he⟩ := breakIn_idle fs hasked
    rw [he]
    exact hfs
  | cons x rest =>
    unfold askedBy at hasked
    cases hexamine : examine env (some name) m with
    | error why =>
      rw [hp, hexamine] at hasked
      cases hasked
    | ok y =>
      obtain ⟨restoreName', ask⟩ := y
      cases examine_fixed hexamine
      rw [hp, hexamine] at hasked
      rw [hexamine] at h
      dsimp only at h hasked
      rw [← hp] at hexamine
      cases hcontent : contentOf (some name) ask with
      | none =>
        rw [hcontent] at hasked
        cases hasked
      | some x' =>
        -- the one content asked for is the one the stream breaks in
        have hx : Sourceless env before x' := by
          apply h
          rw [hcontent]
          exact List.mem_singleton.mpr rfl
        have hbreak := breakIn_cleared hexamine (hp ▸ hcontent) hx (commitOnce_done hcommitted) (Q := Q)
        rw [contentOf_name hcontent] at hbreak
        exact hbreak

/-- What the members of an archive ask for, member by member. -/
theorem asked_cons {restoreName : Option Name} : asked env ending (m :: members) restoreName =
    match examine env restoreName m with
    | .error _ => []
    | .ok (restoreName', ask) =>
      (contentOf restoreName' ask).toList ++ asked env ending members restoreName' := rfl

/-- **Behind the commit**, a stream of hard links whose sources never appear leaves directories only. -/
theorem stream_cleared (hp : p.restoreName = some name) (hcommitted : p.committed = true)
    (h : ∀ x ∈ asked env ending members (some name), Sourceless env before x) :
    Proc.Triple (Cleared (env.containerDir name) before) (restoreStream env ending members p)
      (Committed env name before) (Cleared (env.containerDir name) before) := by
  induction members generalizing p with
  | nil =>
    cases ending with
    | eof => exact Proc.Triple.pure fun _ hs => ⟨hs, hp, hcommitted⟩
    | broken => exact Proc.Triple.fail fun _ hs => hs
    | brokenIn m => exact breakIn_committed hp hcommitted h
  | cons m members ih =>
    rw [asked_cons] at h
    cases hexamine : examine env (some name) m with
    | error why =>
      unfold restoreStream restoreMember
      rw [hp, hexamine]
      exact (Proc.Triple.fail fun _ hs => hs : Proc.Triple _ _ (fun _ _ => False) _).bind fun _ _ hs => hs.elim
    | ok y =>
      obtain ⟨restoreName', ask⟩ := y
      cases examine_fixed hexamine
      rw [hexamine] at h
      have hfirst : ∀ x ∈ askedBy env (some name) m, Sourceless env before x := by
        unfold askedBy
        rw [hexamine]
        exact fun x hx => h x (List.mem_append_left _ hx)
      apply (restoreMember_committed hp hcommitted hfirst).bind
      intro p' fs hfs
      exact ih hfs.restoreName hfs.committed (fun x hx => h x (List.mem_append_right _ hx)) fs hfs.cleared

/-- The first member that asks for content commits. -/
theorem commitOnce_first (hcommitted : p.committed = false) (hname : isValidName name = true)
    (hdir : before.IsDir (env.containerDir name)) :
    Proc.Triple (fun fs => fs = before) (commitOnce env name p)
      (fun _ fs => Cleared (env.containerDir name) before fs) (Cleared (env.containerDir name) before) := by
  rintro fs rfl
  obtain ⟨fs', hrun, hcleared⟩ := commit_cleared hname hdir
  unfold commitOnce
  rw [if_neg (by rw [hcommitted]; decide), hrun]
  exact hcleared

/-- **A stream that asks for content it cannot get** has cleared the rootfs when it ends, or stops. -/
theorem stream_commits {x : Name × Content} {rest : List (Name × Content)} (hcommitted : p.committed = false)
    (hasked : asked env ending members p.restoreName = x :: rest)
    (h : ∀ y ∈ x :: rest, Sourceless env before y) (hdir : before.IsDir (env.containerDir x.1)) :
    Proc.Triple (fun fs => fs = before) (restoreStream env ending members p) (Committed env x.1 before)
      (Cleared (env.containerDir x.1) before) := by
  -- whoever asks for content has the container fixed, and its name is one
  have hvalid : ∀ {m : Member} {restoreName restoreName' : Option Name} {ask : Ask},
      examine env restoreName m = .ok (restoreName', ask) → contentOf restoreName' ask = some x →
      restoreName' = some x.1 ∧ isValidName x.1 = true := by
    intro m restoreName restoreName' ask hexamine hcontent
    cases ask with
    | skip => cases restoreName' <;> cases hcontent
    | manifest data mode => cases restoreName' <;> cases hcontent
    | content parts what =>
      cases restoreName' with
      | none => cases hcontent
      | some name =>
        cases hcontent
        obtain ⟨⟨name', hname', hok⟩, -⟩ := examine_content hexamine
        cases hname'
        exact ⟨rfl, hok⟩
  -- the stream is followed to the first member that asks for content
  induction members generalizing p with
  | nil =>
    cases ending with
    | eof => cases hasked
    | broken => cases hasked
    | brokenIn m =>
      have hby : askedBy env p.restoreName m = x :: rest := hasked
      unfold askedBy at hby
      cases hexamine : examine env p.restoreName m with
      | error why =>
        rw [hexamine] at hby
        cases hby
      | ok y =>
        obtain ⟨restoreName', ask⟩ := y
        rw [hexamine] at hby
        dsimp only at hby
        cases hcontent : contentOf restoreName' ask with
        | none =>
          rw [hcontent] at hby
          cases hby
        | some x' =>
          rw [hcontent] at hby
          cases hby
          exact breakIn_cleared hexamine hcontent (h x List.mem_cons_self)
            (commitOnce_first hcommitted (hvalid hexamine hcontent).2 hdir)
  | cons m members ih =>
    rw [asked_cons] at hasked
    cases hexamine : examine env p.restoreName m with
    | error why =>
      rw [hexamine] at hasked
      cases hasked
    | ok y =>
      obtain ⟨restoreName', ask⟩ := y
      rw [hexamine] at hasked
      dsimp only at hasked
      cases hcontent : contentOf restoreName' ask with
      | none =>
        -- a member that asks for none has changed nothing
        rw [hcontent] at hasked
        apply (restoreMember_kept hexamine hcontent).conseq (fun _ hs => hs) (fun _ _ hs => hs)
          (fun _ hs => hs.elim) |>.bind
        intro p' fs hfs
        exact ih (hfs.2.2.trans hcommitted) (hfs.2.1 ▸ hasked) fs hfs.1
      | some x' =>
        rw [hcontent] at hasked
        -- the first that asks commits, and no later source is found in the cleared tree
        obtain ⟨rfl, hrest⟩ := List.cons.inj hasked
        obtain ⟨rfl, hok⟩ := hvalid hexamine hcontent
        apply (restoreMember_cleared hexamine hcontent (h _ List.mem_cons_self)
          (commitOnce_first hcommitted hok hdir)).bind
        intro p' fs hfs
        have hall : ∀ y ∈ asked env ending members (some x'.1), Sourceless env before y :=
          fun y hy => h y (List.mem_cons_of_mem _ (hrest ▸ hy))
        exact stream_cleared hfs.restoreName hfs.committed hall fs hfs.cleared

/-- Calls that succeed succeed as a step. -/
theorem checked_ok {α : Type} {q : Sys α} {a : α} {fs fs' : Fs} (h : q fs = (.ok a, fs')) :
    checked q fs = (.ok a, fs') := by
  unfold checked
  rw [h]

/-- Removing the container brings nothing of the old tree back. -/
theorem removeContainer_cleared (hname : ValidName name) :
    Proc.Keeps (Cleared (env.containerDir name) before) (removeContainer env name) fun _ => True := by
  unfold removeContainer
  apply Proc.Keeps.quietly
  apply descendAt_cleared.bind
  intro d _ fs hfs
  obtain ⟨fs', hremove, hget⟩ := rmtreeAt_removed fs d hname
  rw [hremove]
  exact ⟨hfs.of_removed hget, trivial⟩

/-- What follows the members either succeeds or takes the container away. -/
theorem finish_cleared {fs : Fs} (h : Committed env name before p fs) (hname : ValidName name) :
    (∃ name', (finish env p fs).1 = .ok name') ∨
      Cleared (env.containerDir name) before (finish env p fs).2 := by
  have hlook : (Proc.look fun fs => .ok (rootfsIsADirectory (env.containerDir name) fs) :
      Proc Fs Failure Bool) fs = (.ok (rootfsIsADirectory (env.containerDir name) fs), fs) := rfl
  unfold finish
  rw [h.restoreName, h.committed]
  dsimp only
  rw [Proc.bind_of_ok hlook]
  cases rootfsIsADirectory (env.containerDir name) fs with
  | true =>
    -- whatever the modes and the manifest meet is passed over
    have hchmod : ∀ x, Proc.Total (chmodLater env.umask (env.containerDir name) x) :=
      fun x => Proc.Total.quietly _
    have hwrite : Proc.Total (writePending env name p.pendingManifest) := by
      cases p.pendingManifest with
      | none => exact Proc.Total.pure ()
      | some x => exact Proc.Total.quietly _
    obtain ⟨u, fs₁, hseal⟩ := Proc.Total.each hchmod p.deferredDirModes.reverse fs
    obtain ⟨u', fs₂, hwritten⟩ := hwrite fs₁
    refine .inl ⟨name, ?_⟩
    rw [if_pos rfl, Proc.bind_of_ok (checked_ok (show sealDirs env name p fs = (.ok u, fs₁) from hseal)),
      Proc.bind_of_ok (checked_ok hwritten)]
    rfl
  | false =>
    right
    rw [if_neg (by decide)]
    have hfail : Proc.Keeps (Cleared (env.containerDir name) before) (do
        checked (removeContainer env name)
        .fail (.refused .invalidRootfs) : Proc Fs Failure Name) fun _ => True :=
      (checked_keeps (removeContainer_cleared hname)).bind fun _ _ => Proc.Keeps.fail
    exact Proc.Triple.final hfail h.cleared (fun _ _ hs => hs.1) fun _ hs => hs

/-- **A container is left alone by an archive that has nothing to restore** exactly if the archive asks for
no content at all before it ends or is refused; the rootfs that is asked for has an entry that is no
directory. -/
theorem restore_left_alone_iff (env : Env) (archive : Archive) (fs : Fs)
    (h : NothingToRestore env archive fs)
    (hfull : ∀ name what, (archive.asked env).head? = some (name, what) →
      ∃ r e, fs.get (env.containerDir name ++ rootfsName :: r) = some e ∧ e.isDir = false) :
    LeftAlone env fs (commandRestore env archive fs) ↔ archive.asked env = [] := by
  constructor
  · rintro ⟨⟨why, hwhy⟩, hsame⟩
    cases hasked : archive.asked env with
    | nil => rfl
    | cons x rest =>
      exfalso
      obtain ⟨r, e, he, hkind⟩ := hfull x.1 x.2 (by rw [hasked]; rfl)
      have hdir : fs.IsDir (env.containerDir x.1) := Fs.isDir_of_append (by simp) he
      have hname : ValidName x.1 := by
        obtain ⟨m, hm⟩ := hdir
        exact Fs.validName_of_get hm
      have hsourceless : ∀ y ∈ x :: rest, Sourceless env fs y := fun y hy => h y (hasked ▸ hy)
      have hstream := stream_commits (p := restoreStart) rfl hasked hsourceless hdir fs rfl
      -- the entry that is no directory is gone
      have hgone : ¬ Cleared (env.containerDir x.1) fs (commandRestore env archive fs).2 := by
        intro hcleared
        have hstays := hcleared.bare r e ((hsame x.1 (rootfsName :: r)).trans he)
        rw [hkind] at hstays
        cases hstays
      cases hrun : restoreStream env archive.ending archive.members restoreStart fs with
      | mk result fs₁ =>
        rw [hrun] at hstream
        cases result with
        -- the stream stops after the commit
        | error e' =>
          apply hgone
          unfold commandRestore
          rw [Proc.bind_of_error hrun]
          exact hstream
        -- the stream ends, and the container has no rootfs in the end, or the restore succeeds
        | ok p =>
          have hthen : commandRestore env archive fs = finish env p fs₁ := Proc.bind_of_ok hrun
          rw [hthen] at hwhy hgone
          rcases finish_cleared hstream hname with ⟨name', hok⟩ | hcleared
          · rw [hok] at hwhy
            cases hwhy
          · exact hgone hcleared
  · intro hnone
    obtain ⟨e, hrun⟩ := commandRestore_idle fs hnone
    rw [hrun]
    exact ⟨⟨e, rfl⟩, fun _ _ => rfl⟩

/-- A hard link into the same rootfs, with a source that no member brings. -/
def danglingMember : Member := ⟨"c/rootfs/a".toList, .lnk "c/rootfs/b".toList, 0o644, 0⟩

/-- An archive that is cut off after its manifest leaves the container alone. -/
theorem restore_left_alone_iff_truncated :
    LeftAlone smallEnv oldContainer (commandRestore smallEnv ⟨[manifestMember], .broken⟩ oldContainer) := by
  have hasked : (Archive.mk [manifestMember] .broken).asked smallEnv = [] := by decide +kernel
  apply (restore_left_alone_iff smallEnv ⟨[manifestMember], .broken⟩ oldContainer ?_ ?_).mpr hasked
  · intro x hx
    rw [hasked] at hx
    cases hx
  · intro name what hhead
    rw [hasked] at hhead
    cases hhead

/-- **The old rootfs goes** for a hard link whose source is not there, and the restore succeeds. -/
theorem dangling_link_clears : ¬ ∀ (env : Env) (archive : Archive) (fs : Fs),
    NothingToRestore env archive fs → LeftAlone env fs (commandRestore env archive fs) := by
  intro hall
  have hasked : (Archive.mk [danglingMember] .eof).asked smallEnv =
      [(['c'], .lnk [rootfsName, ['b']])] := by decide +kernel
  have hnothing : NothingToRestore smallEnv ⟨[danglingMember], .eof⟩ oldContainer := by
    intro x hx
    rw [hasked] at hx
    cases List.mem_singleton.mp hx
    exact ⟨_, rfl, fun heq => absurd heq (by decide)⟩
  obtain ⟨-, hsame⟩ := hall smallEnv ⟨[danglingMember], .eof⟩ oldContainer hnothing
  have hbefore : (oldContainer.get (smallEnv.containerDir ['c'] ++ [rootfsName, ['f']])).isSome = true := by
    decide +kernel
  rw [← hsame ['c'] [rootfsName, ['f']]] at hbefore
  have hgone : (commandRestore smallEnv ⟨[danglingMember], .eof⟩ oldContainer).2.get
      (smallEnv.containerDir ['c'] ++ [rootfsName, ['f']]) = none := by decide +kernel
  rw [hgone] at hbefore
  cases hbefore

end Streams

end Restore

end ProotDistro
