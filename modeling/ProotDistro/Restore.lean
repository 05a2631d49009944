import ProotDistro.Dirfd.Within
import ProotDistro.TarExtract

/-!
# `commands/restore`: a container from a backup

The members of the archive come one at a time. The first one that names a container fixes the target;
the first one that asks for content of its rootfs is the commit point, where the old rootfs goes. The
manifest is held back, and written when all is over.

The stream ends at its end, or breaks: between two members, or in the data of one. The lock is granted or
not, and the write of the manifest is turned down or takes so many bytes. Everything else fails for what
stands at a path only. Times, the progress bar and the one-deep cache of parent descriptors are left out:
what is removed lies below the directory the cached descriptor is open on.

* **`destPath_spec`**, **`split_spec`** — the names that come out of the checks.
* **`place_within`** — a member changes nothing in a container but its rootfs and its shm store.
-/

namespace ProotDistro

open Posix Dirfd TarExtract

namespace Restore

/-! ## Names -/

/-- `is_valid_name` -/
def isValidName : Name → Bool
  | [] => false
  | c :: cs => c.isAlphanum && cs.all fun c => c.isAlphanum || c = '_' || c = '.' || c = '-'

def legacyPrefix : Name := "installed-rootfs".toList

def rootfsName : Name := "rootfs".toList

def manifestName : Name := "manifest.json".toList

def shmDirName : Name := "shm".toList

/-- `_check_bare_root` -/
def checkBareRoot (memberName : List Char) : Bool :=
  let name := memberName.dropWhile (· = '/')
  name ≠ [] && (splitPath name).length = 1 && name.getLast? ≠ some '/'

/-- `_dest_path`: the container a member is of, and where in its directory it goes -/
def destPath (memberName : List Char) : Option (Name × List Name) :=
  let name := memberName.dropWhile (· = '/')
  if name = [] ∨ name = ['.'] then none
  else if (splitPath name).any fun p => p = ['.', '.'] || p = ['.'] || p = [] then none
  else if (splitPath name).length = 1 ∧ name.getLast? ≠ some '/' then none
  else
    match splitPath name with
    | [] => none
    | first :: parts =>
      if first = legacyPrefix then
        match parts with
        | [] => none
        | containerName :: inner =>
          if isValidName containerName then some (containerName, rootfsName :: inner) else none
      else if isValidName first then
        match parts with
        | [] => some (first, [])
        | sub :: rest =>
          if sub = manifestName ∧ rest = [] then some (first, [manifestName])
          else if sub = rootfsName then some (first, rootfsName :: rest)
          else some (first, rootfsName :: sub :: rest)
      else none

/-- `_is_rootfs_dest` -/
def isRootfsDest (parts : List Name) : Bool := parts.head? = some rootfsName

/-! ## What a member asks for -/

/-- Why a restore stops with a message of its own. -/
inductive Refusal where
  /-- the archive has no directory of a container -/
  | bareRoot
  | busy
  | twoContainers
  | manifestTooLarge
  | noRootfs
  | invalidRootfs
  deriving DecidableEq

inductive Failure where
  | refused (why : Refusal)
  | os (e : Errno)
  /-- the stream breaks -/
  | unreadable
  deriving DecidableEq

structure Env where
  umask : Mode
  /-- the program's own state directory -/
  runtime : Path
  /-- whether the lock of the container is granted -/
  lockGranted : Bool
  /-- what makes the name of a temporary file its own -/
  tag : Name
  tag_plain : '/' ∉ tag
  /-- how many bytes a write of the manifest takes, if it is not turned down -/
  accepts : Except Errno Nat

def Env.containers (env : Env) : Path := env.runtime ++ ["containers".toList]

/-- `container_dir` -/
def Env.containerDir (env : Env) (name : Name) : Path := env.containers ++ [name]

def maxManifestBytes : Nat := 16 * 1024 * 1024

/-- What a member puts into the rootfs. -/
inductive Content where
  | dir
  | sym (linkname : List Char)
  | reg (content : Bytes)
  /-- a hard link, with where its source is in the directory of the container -/
  | lnk (source : List Name)
  deriving DecidableEq

/-- What comes of a member before anything is written. -/
inductive Ask where
  | skip
  | manifest (data : Bytes) (mode : Mode)
  | content (parts : List Name) (what : Content)
  deriving DecidableEq

/-- What a member of the container that is restored asks for. -/
def askOf (name : Name) (parts : List Name) (m : Member) : Except Refusal Ask :=
  if isRootfsDest parts then
    match m.kind with
    | .dir => .ok (.content parts .dir)
    | .sym linkname => .ok (.content parts (.sym linkname))
    | .reg content => .ok (.content parts (.reg content))
    | .lnk linkname =>
      match destPath linkname with
      | some (container, source) =>
        -- a link may not read out of another container
        if container = name then .ok (.content parts (.lnk source)) else .ok .skip
      | none => .ok .skip
    | .device | .other => .ok .skip
  else
    match m.kind with
    | .reg content =>
      if parts = [manifestName] then
        if maxManifestBytes < content.length then .error .manifestTooLarge
        else .ok (.manifest content m.mode)
      else .ok .skip
    | _ => .ok .skip

/-- The checks on a member: the name of the container it leaves fixed, and what it asks for. -/
def examine (env : Env) (restoreName : Option Name) (m : Member) : Except Refusal (Option Name × Ask) :=
  if m.kind = .device then .ok (restoreName, .skip)
  else if checkBareRoot m.name then .error .bareRoot
  else
    match destPath m.name with
    | none => .ok (restoreName, .skip)
    | some (container, parts) =>
      match restoreName with
      | none =>
        if env.lockGranted then (askOf container parts m).map fun ask => (some container, ask)
        else .error .busy
      | some name =>
        if container = name then (askOf name parts m).map fun ask => (some name, ask)
        else .error .twoContainers

/-! ## Where a member goes -/

/-- `_Destinations._split`, below the directory `c` of the container -/
def split (c : Path) (parts : List Name) (derefLeaf : Bool) (fs : Fs) : Option (List Name × Name) :=
  if parts.length = 1 ∨ parts.head? ≠ some rootfsName then parts.getLast?.map fun leaf => ([], leaf)
  else
    let inner := if derefLeaf then parts.drop 1 else (parts.drop 1).dropLast
    match safeResolveParts fs (c ++ [rootfsName]) inner with
    | none => none
    | some resolved =>
      if derefLeaf then resolved.getLast?.map fun leaf => (rootfsName :: resolved.dropLast, leaf)
      else parts.getLast?.map fun leaf => (rootfsName :: resolved, leaf)

/-- `_Destinations.parent_of`: the components of the parent, which is made where it is missing, and the
name of the entry -/
def parentOf (umask : Mode) (c : Path) (parts : List Name) : Sys (Option (List Name × Name)) := do
  match ← (.look fun fs => .ok (split c parts false fs)) with
  | none => pure none
  | some (key, leaf) => do
    match ← (descendAt umask true c key).optional with
    | none => pure none
    | some _ => pure (some (key, leaf))

/-- `_Destinations.open_source` -/
def openSource (umask : Mode) (c : Path) (parts : List Name) : Sys (Option FileData) := do
  match ← (.look fun fs => .ok (split c parts true fs)) with
  | none => pure none
  | some (key, name) =>
    .optional do
      let fd ← descendAt umask false c key
      openRegularAt fd name

/-! ## Writing -/

/-- `_remove_existing` -/
def removeExisting (d : Path) (name : Name) (isDir : Bool) : Sys Unit := do
  match ← (lstatAt d name).optional with
  | none => pure ()
  | some (.dir _) => if isDir then pure () else (rmtreeAt d name).quietly
  | some _ => unlinkQuietly d name

/-- A new file with the given content, and the mode files are made with. -/
def writeData (umask : Mode) (d : Path) (name : Name) (content : Bytes) : Sys Unit := do
  openNewAt umask d name 0o600
  .change (·.modifyAt d name fun f => { f with content })

def fchmod (d : Path) (name : Name) (mode : Mode) : Sys Unit :=
  (Proc.change (·.modifyAt d name fun f => { f with mode })).quietly

/-- `chmod_at` of nothing but a directory, best effort -/
def chmodDirAt (d : Path) (name : Name) (mode : Mode) : Sys Unit :=
  (Proc.change fun fs => if fs.IsDir (Fs.locate d name) then fs.chmodAt d name mode
    else .error .ENOTDIR).quietly

def ownerBits : Mode := 0o700

/-- `_write_directory`: whether the mode is left for later -/
def writeDirectory (umask : Mode) (d : Path) (name : Name) (mode : Mode) : Sys Bool := do
  (Proc.change (·.mkdirAt d name (0o700 &&& ~~~umask))).ignoring .EEXIST
  if mode &&& ownerBits ≠ ownerBits then do
    chmodDirAt d name (mode ||| ownerBits)
    pure true
  else do
    chmodDirAt d name mode
    pure false

/-- `_write_regular` -/
def writeRegular (umask : Mode) (d : Path) (name : Name) (content : Bytes) (mode : Mode) : Sys Unit := do
  writeData umask d name content
  fchmod d name mode

/-- `_write_hardlink` -/
def writeHardlink (umask : Mode) (d : Path) (name : Name) (mode : Mode) (source : FileData) : Sys Unit := do
  match ← (openNewAt umask d name 0o600).attempt with
  | .error _ => pure ()
  | .ok () => do
    .change (·.modifyAt d name fun f => { f with content := source.content })
    fchmod d name (if mode ≠ 0 then mode else source.mode)

/-- What is left of the archive for later. -/
structure Progress where
  restoreName : Option Name
  committed : Bool
  pendingManifest : Option (Bytes × Mode)
  deferredDirModes : List (List Name × Name × Mode)

/-- Put what a member asks for under its name. -/
def extract (umask : Mode) (c : Path) (key : List Name) (leaf : Name) (mode : Mode) (what : Content)
    (p : Progress) : Sys Progress :=
  match what with
  | .lnk source => do
    match ← openSource umask c source with
    | none => pure p
    | some data => do
      removeExisting (c ++ key) leaf false
      writeHardlink umask (c ++ key) leaf mode data
      pure p
  | .dir => do
    removeExisting (c ++ key) leaf true
    let deferred ← writeDirectory umask (c ++ key) leaf mode
    pure (if deferred then { p with deferredDirModes := p.deferredDirModes ++ [(key, leaf, mode)] } else p)
  | .sym linkname => do
    removeExisting (c ++ key) leaf false
    .change (·.symlinkAt linkname (c ++ key) leaf)
    pure p
  | .reg content => do
    removeExisting (c ++ key) leaf false
    writeRegular umask (c ++ key) leaf content mode
    pure p

/-- `_clear_existing_rootfs` -/
def clearExistingRootfs (c : Path) : Sys Unit := do
  (rmtreeAt c rootfsName).quietly
  (rmtreeAt c shmDirName).quietly

/-- The commit point: the container directory is opened, or made, and the old rootfs goes. -/
def commit (env : Env) (name : Name) : Sys Unit := do
  let c ← descendAt env.umask true env.runtime ["containers".toList, name]
  clearExistingRootfs c

/-- The old rootfs goes once. -/
def commitOnce (env : Env) (name : Name) (p : Progress) : Sys Unit :=
  if p.committed then pure () else commit env name

def place (env : Env) (name : Name) (parts : List Name) (mode : Mode) (what : Content) (p : Progress) :
    Sys Progress := do
  commitOnce env name p
  let p := { p with restoreName := some name, committed := true }
  match ← parentOf env.umask (env.containerDir name) parts with
  | none => pure p
  | some (key, leaf) => extract env.umask (env.containerDir name) key leaf mode what p

/-- A file whose data breaks off: what is there is written, and the mode is not. -/
def placePart (env : Env) (name : Name) (parts : List Name) (content : Bytes) (p : Progress) : Sys Unit := do
  commitOnce env name p
  match ← parentOf env.umask (env.containerDir name) parts with
  | none => pure ()
  | some (key, leaf) => do
    removeExisting (env.containerDir name ++ key) leaf false
    writeData env.umask (env.containerDir name ++ key) leaf content

/-! ## The command -/

/-- A system call that fails stops the command. -/
def checked {α : Type} (p : Sys α) : Proc Fs Failure α := fun fs =>
  match p fs with
  | (.ok a, fs') => (.ok a, fs')
  | (.error e, fs') => (.error (.os e), fs')

/-- One member whose data is all there. -/
def restoreMember (env : Env) (m : Member) (p : Progress) : Proc Fs Failure Progress :=
  match examine env p.restoreName m with
  | .error why => .fail (.refused why)
  | .ok (restoreName, .skip) => pure { p with restoreName }
  | .ok (restoreName, .manifest data mode) =>
    pure { p with restoreName, pendingManifest := some (data, mode) }
  | .ok (some name, .content parts what) => checked (place env name parts m.mode what p)
  -- what asks for content has named a container
  | .ok (none, .content _ _) => pure p

/-- The member in whose data the stream breaks. -/
def breakIn (env : Env) (m : Member) (p : Progress) : Proc Fs Failure Progress :=
  match examine env p.restoreName m with
  | .ok (some name, .content parts (.reg content)) => do
    checked (placePart env name parts content p)
    .fail .unreadable
  | .ok (_, .manifest _ _) => .fail .unreadable
  | _ => do
    let _ ← restoreMember env m p
    .fail .unreadable

/-- How a stream ends. -/
inductive Ending where
  | eof
  | broken
  /-- in the data of a last member -/
  | brokenIn (m : Member)

structure Archive where
  members : List Member
  ending : Ending

def finishStream (env : Env) (p : Progress) : Ending → Proc Fs Failure Progress
  | .eof => pure p
  | .broken => .fail .unreadable
  | .brokenIn m => breakIn env m p

/-- `_rootfs_is_a_directory` -/
def rootfsIsADirectory (c : Path) (fs : Fs) : Bool :=
  match fs.lstatAt c rootfsName with
  | .ok e => e.isDir
  | .error _ => false

/-- `remove_state_tree` of the directory of a container -/
def removeContainer (env : Env) (name : Name) : Sys Unit :=
  .quietly do
    let d ← descendAt env.umask false env.runtime ["containers".toList]
    rmtreeAt d name

/-- `_Destinations.chmod` -/
def chmodLater (umask : Mode) (c : Path) (x : List Name × Name × Mode) : Sys Unit :=
  .quietly do
    let d ← descendAt umask false c x.1
    chmodDirAt d x.2.1 x.2.2

def tmpName (env : Env) : Name := manifestName ++ '.' :: env.tag ++ ".tmp".toList

/-- One call of `write`, whatever it answers. -/
def writeOnce (env : Env) (d : Path) (data : Bytes) : Sys Unit :=
  match env.accepts with
  | .error e => .fail e
  | .ok n => .change (·.modifyAt d (tmpName env) fun f => { f with content := data.take n })

def publish (env : Env) (d : Path) (data : Bytes) (mode : Mode) : Sys Unit := do
  writeOnce env d data
  fchmod d (tmpName env) mode
  .change (·.renameAt d (tmpName env) manifestName)

/-- `atomic_replace` of the manifest, with what is written through it -/
def replaceManifest (env : Env) (d : Path) (data : Bytes) (mode : Mode) : Sys Unit := do
  openNewAt env.umask d (tmpName env) 0o600
  (publish env d data mode).handle fun e => do
    unlinkQuietly d (tmpName env)
    .fail e

/-- `_write_manifest`: a failure is passed over -/
def writeManifest (env : Env) (name : Name) (data : Bytes) (mode : Mode) : Sys Unit :=
  .quietly do
    let d ← descendAt env.umask true env.runtime ["containers".toList, name]
    replaceManifest env d data mode

/-- The manifest that was held back. -/
def writePending (env : Env) (name : Name) : Option (Bytes × Mode) → Sys Unit
  | none => pure ()
  | some (data, mode) => writeManifest env name data mode

def sealDirs (env : Env) (name : Name) (p : Progress) : Sys Unit :=
  .each (chmodLater env.umask (env.containerDir name)) p.deferredDirModes.reverse

/-- What follows once the members are through. -/
def finish (env : Env) (p : Progress) : Proc Fs Failure Name := do
  match p.restoreName, p.committed with
  | some name, true => do
    if ← (.look fun fs => .ok (rootfsIsADirectory (env.containerDir name) fs)) then do
      checked (sealDirs env name p)
      checked (writePending env name p.pendingManifest)
      pure name
    else do
      checked (removeContainer env name)
      .fail (.refused .invalidRootfs)
  | _, _ => .fail (.refused .noRootfs)

def restoreStart : Progress := ⟨none, false, none, []⟩

/-- The loop over the members. -/
def restoreStream (env : Env) (ending : Ending) : List Member → Progress → Proc Fs Failure Progress
  | [], p => finishStream env p ending
  | m :: members, p => do
    let p' ← restoreMember env m p
    restoreStream env ending members p'

/-- `command_restore`: the container that was restored -/
def commandRestore (env : Env) (archive : Archive) : Proc Fs Failure Name := do
  let p ← restoreStream env archive.ending archive.members restoreStart
  finish env p

/-! ## Names that come out of the checks -/

/-- The name of a container is the name of a directory. -/
theorem isValidName_validName {name : Name} (h : isValidName name = true) : ValidName name := by
  cases name with
  | nil => cases h
  | cons c cs =>
    rw [isValidName, Bool.and_eq_true, List.all_eq_true] at h
    constructor
    · simp
    · rintro ⟨rfl, -⟩
      exact absurd h.1 (by decide)
    · rintro ⟨rfl, -⟩
      exact absurd h.1 (by decide)
    · intro hslash
      rcases List.mem_cons.mp hslash with rfl | hslash
      · exact absurd h.1 (by decide)
      · exact absurd (h.2 '/' hslash) (by decide)

/-- The name of the manifest is the name of a file. -/
theorem manifestName_valid : ValidName manifestName := by decide

/-- And that of the rootfs the name of a directory. -/
theorem rootfsName_valid : ValidName rootfsName := by decide

/-- As is that of the shared memory. -/
theorem shmDirName_valid : ValidName shmDirName := by decide

/-- What the checks on a name promise: a container that can be named, and a place in its directory. -/
theorem destPath_spec {memberName : List Char} {container : Name} {parts : List Name}
    (h : destPath memberName = some (container, parts)) :
    isValidName container = true ∧ (∀ x ∈ parts, ValidName x) ∧
      (parts = [] ∨ parts = [manifestName] ∨ isRootfsDest parts = true) := by
  unfold destPath at h
  dsimp only at h
  split at h
  · cases h
  · split at h
    · cases h
    · rename_i hclean
      split at h
      · cases h
      · -- the components are names, and none of them is a dot
        have hparts : ∀ x ∈ splitPath (memberName.dropWhile (· = '/')), ValidName x := by
          intro x hx
          have hx' : ¬ (x = ['.', '.'] ∨ x = ['.'] ∨ x = []) := by
            intro hbad
            apply hclean
            rw [List.any_eq_true]
            exact ⟨x, hx, by simpa [or_assoc] using hbad⟩
          rw [not_or, not_or] at hx'
          exact ⟨hx'.2.2, hx'.2.1, hx'.1, Fs.noSlash_of_mem_splitPath hx⟩
        split at h
        · cases h
        · rename_i first rest heq
          rw [heq] at hparts
          have hrest : ∀ x ∈ rest, ValidName x := fun x hx => hparts x (List.mem_cons_of_mem first hx)
          -- the first component may be the directory of the containers, or the container itself
          split at h
          · split at h
            · cases h
            · rename_i inner
              split at h
              · rename_i hvalid
                cases h
                refine ⟨hvalid, fun x hx => ?_, .inr (.inr rfl)⟩
                rcases List.mem_cons.mp hx with rfl | hx
                · exact rootfsName_valid
                · exact hrest x (List.mem_cons_of_mem _ hx)
              · cases h
          -- an old archive has the container in front, with a place in it or none
          · split at h
            · rename_i hvalid
              split at h
              · cases h
                exact ⟨hvalid, fun x hx => (by cases hx), .inl rfl⟩
              · split at h
                · cases h
                  exact ⟨hvalid, fun x hx => List.mem_singleton.mp hx ▸ manifestName_valid, .inr (.inl rfl)⟩
                · split at h
                  · cases h
                    refine ⟨hvalid, fun x hx => ?_, .inr (.inr rfl)⟩
                    rcases List.mem_cons.mp hx with rfl | hx
                    · exact rootfsName_valid
                    · exact hrest x (List.mem_cons_of_mem _ hx)
                  · cases h
                    refine ⟨hvalid, fun x hx => ?_, .inr (.inr rfl)⟩
                    rcases List.mem_cons.mp hx with rfl | hx
                    · exact rootfsName_valid
                    · exact hrest x hx
            · cases h

/-- The resolver answers with names. -/
theorem safeResolveParts_valid {fs : Fs} {root : Path} {parts resolved : List Name}
    (hparts : ∀ x ∈ parts, Fs.NoSlash x) (h : safeResolveParts fs root parts = some resolved) :
    ∀ x ∈ resolved, ValidName x :=
  (safeResolvePartsIn_resolved hparts h).valid

/-- Where a member of the rootfs goes lies in the rootfs. -/
theorem split_spec {c : Path} {parts : List Name} {fs : Fs} {key : List Name} {leaf : Name}
    (hroot : isRootfsDest parts = true) (hparts : ∀ x ∈ parts, ValidName x)
    (h : split c parts false fs = some (key, leaf)) :
    (∃ inner, key ++ [leaf] = rootfsName :: inner) ∧ ∀ x ∈ key ++ [leaf], ValidName x := by
  have hhead : parts.head? = some rootfsName := of_decide_eq_true hroot
  have hleaf : ∀ {leaf}, parts.getLast? = some leaf → ValidName leaf :=
    fun hl => hparts _ (List.mem_of_getLast? hl)
  unfold split at h
  -- a short path is the rootfs itself
  split at h
  · rename_i hshort
    obtain ⟨l, hl, heq⟩ := Option.map_eq_some_iff.mp h
    cases heq
    have hlength : parts.length = 1 := hshort.resolve_right (not_not.mpr hhead)
    obtain ⟨x, rfl⟩ := List.length_eq_one_iff.mp hlength
    cases hl
    cases hhead
    exact ⟨⟨[], rfl⟩, fun y hy => List.mem_singleton.mp hy ▸ rootfsName_valid⟩
  -- a longer one is resolved below the rootfs, so its parts are names
  · dsimp only at h
    rw [if_neg (by decide)] at h
    split at h
    · cases h
    · rename_i resolved hresolved
      rw [if_neg (by decide)] at h
      obtain ⟨l, hl, heq⟩ := Option.map_eq_some_iff.mp h
      cases heq
      have hinner : ∀ x ∈ (parts.drop 1).dropLast, Fs.NoSlash x :=
        fun x hx => (hparts x (List.mem_of_mem_drop (List.mem_of_mem_dropLast hx))).no_slash
      have hvalid := safeResolveParts_valid hinner hresolved
      refine ⟨⟨resolved ++ [leaf], rfl⟩, fun x hx => ?_⟩
      rw [List.mem_append, List.mem_singleton, List.mem_cons] at hx
      rcases hx with (rfl | hx) | rfl
      · exact rootfsName_valid
      · exact hvalid x hx
      · exact hleaf hl

/-! ## What a restore may change -/

/-- What a restore may change before the manifest: the directory that holds the containers, the
directory of a container, and what is in its rootfs or its shm store. -/
def Touches (env : Env) (q : Path) : Prop :=
  q = env.containers ∨ ∃ name, q = env.containerDir name ∨
    ∃ sub r, (sub = rootfsName ∨ sub = shmDirName) ∧ q = env.containerDir name ++ sub :: r

/-- Such a set holds what the members of a container change. -/
structure Permits (env : Env) (name : Name) (S : Path → Prop) : Prop where
  containers : S env.containers
  dir : S (env.containerDir name)
  rootfs : ∀ r, S (env.containerDir name ++ rootfsName :: r)
  shm : ∀ r, S (env.containerDir name ++ shmDirName :: r)

/-- The containers and the directory that holds them are enough for a restore. -/
theorem touches_permits (env : Env) (name : Name) : Permits env name (Touches env) where
  containers := .inl rfl
  dir := .inr ⟨name, .inl rfl⟩
  rootfs := fun r => .inr ⟨name, .inr ⟨rootfsName, r, .inl rfl, rfl⟩⟩
  shm := fun r => .inr ⟨name, .inr ⟨shmDirName, r, .inr rfl, rfl⟩⟩

/-- Every other entry of a container stays as it was. -/
theorem not_touches {env : Env} {name sub : Name} (hroot : sub ≠ rootfsName) (hshm : sub ≠ shmDirName) :
    ¬ Touches env (env.containerDir name ++ [sub]) := by
  have hlength : (env.containerDir name ++ [sub]).length = env.containers.length + 2 := by
    unfold Env.containerDir
    simp
  rintro (h | ⟨other, h | ⟨sub', r, hsub, h⟩⟩)
  · have := congrArg List.length h
    omega
  · have := congrArg List.length h
    unfold Env.containerDir at this
    simp at this
  · unfold Env.containerDir at h
    rw [List.append_assoc, List.append_assoc] at h
    have htail := List.append_cancel_left h
    simp only [List.cons_append, List.nil_append, List.cons.injEq] at htail
    rcases hsub with rfl | rfl
    · exact hroot htail.2.1
    · exact hshm htail.2.1

section Steps

variable {S : Path → Prop} {before : Fs} {env : Env} {umask mode : Mode} {c d : Path} {name leaf : Name}
  {key parts : List Name} {content : Bytes} {p : Progress} {m : Member}

/-- Making room for a member changes what is at its place and below it. -/
theorem removeExisting_within {isDir : Bool} (hv : ValidName name) (hS : ∀ r, S (d ++ name :: r)) :
    Proc.Keeps (Within S before) (removeExisting d name isDir) fun _ => True := by
  unfold removeExisting
  apply lstatAt_within.optional.bind
  intro o _
  split
  · exact Proc.Keeps.pure trivial
  · split
    · exact Proc.Keeps.pure trivial
    · exact (rmtreeAt_within hv hS).quietly
  · exact (unlinkAt_within hv (hS [])).quietly

/-- Setting the mode of a directory changes that directory. -/
theorem chmodDirAt_within (hv : ValidName name) (hS : S (d ++ [name])) :
    Proc.Keeps (Within S before) (chmodDirAt d name mode) fun _ => True := by
  apply Proc.Keeps.quietly
  apply Proc.Keeps.change
  intro fs fs' h hfs'
  split at hfs'
  · rename_i hdir
    rw [Fs.locate_valid hv] at hdir
    obtain ⟨fs₁, hfs₁, hget⟩ := Fs.chmodAt_of_dir mode hdir
    rw [hfs₁] at hfs'
    cases hfs'
    exact h.of_ite hS hget
  · cases hfs'

/-- A directory member changes its place alone. -/
theorem writeDirectory_within (hv : ValidName name) (hS : S (d ++ [name])) :
    Proc.Keeps (Within S before) (writeDirectory umask d name mode) fun _ => True := by
  unfold writeDirectory
  apply (mkdirAt_within hS).ignoring.bind
  intro _ _
  split
  · exact (chmodDirAt_within hv hS).bind fun _ _ => Proc.Keeps.pure trivial
  · exact (chmodDirAt_within hv hS).bind fun _ _ => Proc.Keeps.pure trivial

/-- So does writing data, which leaves a file of one name there. -/
theorem writeData_within (hv : ValidName name) (hS : S (d ++ [name])) :
    Proc.Triple (Within S before) (writeData umask d name content)
      (fun _ fs => Within S before fs ∧ Fresh d name fs) (Within S before) :=
  (openNewAt_within hv hS).bind fun _ => modifyAt_within hS

/-- The mode of such a file is that of no other entry. -/
theorem fchmod_within {E : Fs → Prop} (hS : S (d ++ [name])) :
    Proc.Triple (fun fs => Within S before fs ∧ Fresh d name fs) (fchmod d name mode)
      (fun _ fs => Within S before fs ∧ Fresh d name fs) E := by
  have hmodify : Proc.Triple (fun fs => Within S before fs ∧ Fresh d name fs)
      (Proc.change (·.modifyAt d name fun f => { f with mode }) : Sys Unit)
      (fun _ fs => Within S before fs ∧ Fresh d name fs) fun _ => False := modifyAt_within hS
  exact hmodify.handle fun _ _ hfalse => hfalse.elim

/-- A file member changes its place alone. -/
theorem writeRegular_within (hv : ValidName name) (hS : S (d ++ [name])) :
    Proc.Keeps (Within S before) (writeRegular umask d name content mode) fun _ => True := by
  have hwrite : Proc.Triple (Within S before) (writeRegular umask d name content mode)
      (fun _ fs => Within S before fs ∧ Fresh d name fs) (Within S before) :=
    (writeData_within hv hS).bind fun _ => fchmod_within hS
  exact hwrite.conseq (fun _ h => h) (fun _ _ h => ⟨h.1, trivial⟩) fun _ h => h

/-- As does a hard link, which is a copy of its source. -/
theorem writeHardlink_within {source : FileData} (hv : ValidName name) (hS : S (d ++ [name])) :
    Proc.Keeps (Within S before) (writeHardlink umask d name mode source) fun _ => True := by
  unfold writeHardlink
  apply Proc.Triple.bind (Proc.Triple.attempt (openNewAt_within hv hS))
  intro r
  cases r with
  | error e => exact Proc.Triple.pure fun _ h => ⟨h, trivial⟩
  | ok u =>
    have hwrite : Proc.Triple (fun fs => Within S before fs ∧ Fresh d name fs)
        (do
          .change (·.modifyAt d name fun f => { f with content := source.content })
          fchmod d name (if mode ≠ 0 then mode else source.mode) : Sys Unit)
        (fun _ fs => Within S before fs ∧ Fresh d name fs) (Within S before) :=
      (modifyAt_within hS).bind fun _ => fchmod_within hS
    exact hwrite.conseq (fun _ h => h) (fun _ _ h => ⟨h.1, trivial⟩) fun _ h => h

/-- Looking for the source of a hard link changes nothing. -/
theorem openSource_within : Proc.Keeps (Within S before) (openSource umask c parts) fun _ => True := by
  unfold openSource
  have hlook : Proc.Keeps (Within S before) (.look fun fs => .ok (split c parts true fs) : Sys _)
      fun _ => True := Proc.Keeps.look fun _ _ _ _ => trivial
  apply hlook.bind
  intro o _
  split
  · exact Proc.Keeps.pure trivial
  · rename_i key leaf
    have hdescend : Proc.Keeps (Within S before) (descendAt umask false c key) fun _ => True :=
      Proc.Keeps.of_state fun fs => descendAt_false_state
    have hopen : Proc.Keeps (Within S before) (do
        let fd ← descendAt umask false c key
        openRegularAt fd leaf) fun _ => True :=
      hdescend.bind fun _ _ => Proc.Keeps.look fun _ _ _ _ => trivial
    exact hopen.optional.mono fun _ _ => trivial

/-- Directories whose mode is left for later lie in the rootfs. -/
def Sealed (p : Progress) : Prop :=
  ∀ x ∈ p.deferredDirModes, (∃ inner, x.1 ++ [x.2.1] = rootfsName :: inner) ∧
    ∀ n ∈ x.1 ++ [x.2.1], ValidName n

/-- One member goes where its parent leads, and nowhere else. -/
theorem extract_within {what : Content} (hinner : ∃ inner, key ++ [leaf] = rootfsName :: inner)
    (hv : ∀ n ∈ key ++ [leaf], ValidName n) (hS : ∀ r, S (c ++ rootfsName :: r)) (hp : Sealed p) :
    Proc.Keeps (Within S before) (extract umask c key leaf mode what p) fun p' =>
      p'.restoreName = p.restoreName ∧ p'.committed = p.committed ∧
        p'.pendingManifest = p.pendingManifest ∧ Sealed p' := by
  obtain ⟨inner, heq⟩ := hinner
  have hleaf : ValidName leaf := hv leaf (by simp)
  -- all that is written lies at the leaf or below it, in the rootfs
  have hbelow : ∀ r, S (c ++ key ++ leaf :: r) := by
    intro r
    have hpath : c ++ key ++ leaf :: r = c ++ rootfsName :: (inner ++ r) := by
      rw [← List.cons_append, ← heq]
      simp
    rw [hpath]
    exact hS _
  have hat : S (c ++ key ++ [leaf]) := hbelow []
  unfold extract
  -- a hard link is a copy of what its source is opened as
  cases what with
  | lnk source =>
    apply openSource_within.bind
    intro o _
    cases o with
    | none => exact Proc.Keeps.pure ⟨rfl, rfl, rfl, hp⟩
    | some data =>
      apply (removeExisting_within hleaf hbelow).bind
      intro _ _
      apply (writeHardlink_within hleaf hat).bind
      intro _ _
      exact Proc.Keeps.pure ⟨rfl, rfl, rfl, hp⟩
  | dir =>
    apply (removeExisting_within hleaf hbelow).bind
    intro _ _
    apply (writeDirectory_within hleaf hat).bind
    intro deferred _
    apply Proc.Keeps.pure
    cases deferred with
    -- the mode that is set later is that of a directory just made
    | false => exact ⟨rfl, rfl, rfl, hp⟩
    | true =>
      refine ⟨rfl, rfl, rfl, fun x hx => ?_⟩
      rcases List.mem_append.mp hx with hx | hx
      · exact hp x hx
      · rw [List.mem_singleton.mp hx]
        exact ⟨⟨inner, heq⟩, hv⟩
  | sym linkname =>
    apply (removeExisting_within hleaf hbelow).bind
    intro _ _
    apply (symlinkAt_within hat).bind
    intro _ _
    exact Proc.Keeps.pure ⟨rfl, rfl, rfl, hp⟩
  | reg content =>
    apply (removeExisting_within hleaf hbelow).bind
    intro _ _
    apply (writeRegular_within hleaf hat).bind
    intro _ _
    exact Proc.Keeps.pure ⟨rfl, rfl, rfl, hp⟩

/-- The parent of an entry of the rootfs is made in the rootfs. -/
theorem parentOf_within (hroot : isRootfsDest parts = true) (hparts : ∀ x ∈ parts, ValidName x)
    (hS : ∀ r, S (c ++ rootfsName :: r)) :
    Proc.Keeps (Within S before) (parentOf umask c parts) fun o => ∀ key leaf, o = some (key, leaf) →
      (∃ inner, key ++ [leaf] = rootfsName :: inner) ∧ ∀ n ∈ key ++ [leaf], ValidName n := by
  unfold parentOf
  have hlook : Proc.Keeps (Within S before) (.look fun fs => .ok (split c parts false fs) : Sys _)
      fun o => ∀ key leaf, o = some (key, leaf) →
        (∃ inner, key ++ [leaf] = rootfsName :: inner) ∧ ∀ n ∈ key ++ [leaf], ValidName n := by
    apply Proc.Keeps.look
    intro fs o _ ho key leaf hsome
    exact split_spec hroot hparts ((Except.ok.inj ho).trans hsome)
  apply hlook.bind
  intro o ho
  cases o with
  | none => exact Proc.Keeps.pure fun _ _ h => by cases h
  | some x =>
    obtain ⟨key, leaf⟩ := x
    obtain ⟨⟨inner, heq⟩, hv⟩ := ho key leaf rfl
    -- each level of the way down is in the rootfs
    have hlevels : ∀ r, r ≠ [] → r <+: key → S (c ++ r) := by
      rintro r hr ⟨t, ht⟩
      cases r with
      | nil => exact absurd rfl hr
      | cons n r =>
        rw [← ht, List.cons_append, List.cons_append] at heq
        rw [(List.cons.inj heq).1]
        exact hS r
    apply (descendAt_within (fun n hn => hv n (List.mem_append_left _ hn)) fun _ => hlevels).optional.bind
    intro fd _
    cases fd with
    | none => exact Proc.Keeps.pure fun _ _ h => by cases h
    | some fd =>
      apply Proc.Keeps.pure
      intro key' leaf' h
      cases h
      exact ⟨⟨inner, heq⟩, hv⟩

/-- The directory of a container is opened, or made with the directory that holds it. -/
theorem descendContainer_within (hname : isValidName name = true) (hS : Permits env name S) :
    Proc.Keeps (Within S before) (descendAt env.umask true env.runtime ["containers".toList, name])
      fun fd => fd = env.containerDir name := by
  have hparts : ∀ n ∈ ["containers".toList, name], ValidName n := by
    intro n hn
    rcases List.mem_cons.mp hn with rfl | hn
    · decide
    · exact List.mem_singleton.mp hn ▸ isValidName_validName hname
  have hc : env.runtime ++ ["containers".toList, name] = env.containerDir name := by
    unfold Env.containerDir Env.containers
    simp
  have hlevels : ∀ r, r ≠ [] → r <+: ["containers".toList, name] → S (env.runtime ++ r) := by
    intro r hr hpre
    rcases List.prefix_cons_iff.mp hpre with rfl | ⟨r', rfl, hpre'⟩
    · exact absurd rfl hr
    · rcases List.prefix_cons_iff.mp hpre' with rfl | ⟨r'', rfl, hpre''⟩
      · exact hS.containers
      · rw [List.prefix_nil.mp hpre'', hc]
        exact hS.dir
  apply (descendAt_within hparts fun _ => hlevels).mono
  exact fun fd hfd => hfd.trans hc

/-- The commit point touches the directory of the container, its rootfs and its shm store. -/
theorem commit_within (hname : isValidName name = true) (hS : Permits env name S) :
    Proc.Keeps (Within S before) (commit env name) fun _ => True := by
  unfold commit
  apply (descendContainer_within hname hS).bind
  rintro c rfl
  unfold clearExistingRootfs
  apply (rmtreeAt_within rootfsName_valid hS.rootfs).quietly.bind
  intro _ _
  exact (rmtreeAt_within shmDirName_valid hS.shm).quietly

/-- Clearing the old rootfs stays where a restore may change something. -/
theorem commitOnce_within (hname : isValidName name = true) (hS : Permits env name S) :
    Proc.Keeps (Within S before) (commitOnce env name p) fun _ => True := by
  unfold commitOnce
  split
  · exact Proc.Keeps.pure trivial
  · exact commit_within hname hS

/-- Placing the content of a member does too, and marks the container as committed. -/
theorem place_within {what : Content} (hname : isValidName name = true) (hS : Permits env name S)
    (hroot : isRootfsDest parts = true) (hparts : ∀ x ∈ parts, ValidName x) (hp : Sealed p) :
    Proc.Keeps (Within S before) (place env name parts mode what p) fun p' =>
      p'.restoreName = some name ∧ p'.committed = true ∧ p'.pendingManifest = p.pendingManifest ∧
        Sealed p' := by
  unfold place
  apply (commitOnce_within hname hS).bind
  intro _ _
  apply (parentOf_within hroot hparts hS.rootfs).bind
  intro o ho
  cases o with
  | none => exact Proc.Keeps.pure ⟨rfl, rfl, rfl, hp⟩
  | some x =>
    obtain ⟨key, leaf⟩ := x
    obtain ⟨hinner, hv⟩ := ho key leaf rfl
    have hp' : Sealed { p with restoreName := some name, committed := true } := hp
    exact extract_within hinner hv hS.rootfs hp'

/-- What a call of the system keeps, it keeps where a failure stops the command. -/
theorem checked_keeps {α : Type} {I : Fs → Prop} {q : Sys α} {Q : α → Prop} (h : Proc.Keeps I q Q) :
    Proc.Keeps I (checked q) Q := by
  intro fs hfs
  have hq := h fs hfs
  unfold checked
  cases hr : q fs with
  | mk r fs' =>
    rw [hr] at hq
    cases r with
    | ok a => exact hq
    | error e => exact hq

/-! ## What the checks leave of a member -/

/-- The content of a member goes where the member says, within the rootfs. -/
theorem askOf_content {parts' : List Name} {what : Content}
    (h : askOf name parts m = .ok (.content parts' what)) : parts' = parts ∧ isRootfsDest parts = true := by
  unfold askOf at h
  split at h
  · rename_i hroot
    split at h
    · cases h
      exact ⟨rfl, hroot⟩
    · cases h
      exact ⟨rfl, hroot⟩
    · cases h
      exact ⟨rfl, hroot⟩
    · split at h
      · split at h
        · cases h
          exact ⟨rfl, hroot⟩
        · cases h
      · cases h
    · cases h
    · cases h
  · split at h
    · split at h
      · split at h
        · cases h
        · cases h
      · cases h
    · cases h

/-- What asks for content is of a container, and has a place in its rootfs. -/
theorem examine_content {restoreName restoreName' : Option Name} {parts : List Name} {what : Content}
    (h : examine env restoreName m = .ok (restoreName', .content parts what)) :
    (∃ name, restoreName' = some name ∧ isValidName name = true) ∧ isRootfsDest parts = true ∧
      ∀ x ∈ parts, ValidName x := by
  -- the container is checked in two ways, with the same consequence
  have hfinish : ∀ {container : Name} {places : List Name} {o : Option Name},
      isValidName container = true → (∀ x ∈ places, ValidName x) → o = some container →
      (askOf container places m).map (fun ask => (o, ask)) = .ok (restoreName', .content parts what) →
      (∃ name, restoreName' = some name ∧ isValidName name = true) ∧ isRootfsDest parts = true ∧
        ∀ x ∈ parts, ValidName x := by
    intro container places o hvalid hplaces ho hmap
    cases hask : askOf container places m with
    | error why =>
      rw [hask] at hmap
      cases hmap
    | ok ask =>
      rw [hask] at hmap
      cases hmap
      obtain ⟨hparts, hroot⟩ := askOf_content hask
      rw [hparts]
      exact ⟨⟨container, ho, hvalid⟩, hroot, hplaces⟩
  -- refused members ask for nothing
  unfold examine at h
  split at h
  · cases h
  · split at h
    · cases h
    · split at h
      · cases h
      · rename_i container places hdest
        obtain ⟨hvalid, hplaces, -⟩ := destPath_spec hdest
        split at h
        · split at h
          · exact hfinish hvalid hplaces rfl h
          · cases h
        · split at h
          · rename_i heq
            exact hfinish (heq ▸ hvalid) hplaces rfl h
          · cases h

end Steps

end Restore

end ProotDistro
