import ProotDistro.Dirfd
import ProotDistro.Posix.PathString
import ProotDistro.Posix.Refusals

/-!
# `tar_extract`: a tar stream onto a rootfs

The extractor behind layer application and plain rootfs installs. The members of the stream
come one at a time; each is named, resolved below the rootfs (`safeResolveParts`), walked to
off the rootfs descriptor (`Dirfd.descendAt`) and then written, removed or deferred.

The one-deep cache of parent descriptors is left out: a cached descriptor is dropped before
anything can happen to its directory's name, so it is the one the walk would open again.
Times of directories and links are not modelled, those of files are. A member's data is
read whole; the digest and the progress bar are no part of the extraction. The system refuses a
call of the stream for what stands at the path only; one that copies a hard link, which the program
passes over, may be refused anywhere (`Refusals`), a look-up on the way to it included.
-/

namespace ProotDistro

open Posix Dirfd

namespace TarExtract

/-- What a member is, with what comes with it. -/
inductive Kind where
  /-- block and character devices, FIFOs -/
  | device
  | dir
  | sym (linkname : List Char)
  | lnk (linkname : List Char)
  | reg (content : Bytes)
  /-- a type tarfile does not know -/
  | other
  deriving DecidableEq

structure Member where
  name : List Char
  kind : Kind
  mode : Mode
  mtime : Int
  deriving DecidableEq

/-- What is left for after the stream: links as (destination, source), directories with
their times. -/
structure Deferred where
  links : List (Path × Path)
  dirs : List (Path × Int)

def Deferred.empty : Deferred := ⟨[], []⟩

/-! ## Names -/

/-- `name.lstrip("/").rstrip("/").split("/")` -/
def nameParts (name : List Char) : Path :=
  splitPath ((name.dropWhile (· = '/')).rdropWhile (· = '/'))

/-- The components left after `strip` of them are dropped; `none` drops the member. -/
def stripParts (strip : Nat) (name : List Char) : Option Path :=
  let parts := nameParts name
  if parts.length ≤ strip then none
  else
    let relParts := parts.drop strip
    if ['.', '.'] ∈ relParts ∨ [] ∈ relParts then none else some relParts

/-- The components of a member's parent and its own name. A trailing dot names the parent
itself and drops the member. -/
def memberPath (strip : Nat) (name : List Char) : Option (Path × Name) :=
  match stripParts strip name with
  | none => none
  | some relParts =>
    match relParts.getLast? with
    | none => none
    | some last => if last = ['.'] then none else some (relParts.dropLast, last)

def whPrefix : Name := ".wh.".toList

def opaqueName : Name := ".wh..wh..opq".toList

def isWhiteout (name : Name) : Bool := name == opaqueName || whPrefix.isPrefixOf name

/-! ## Resolving -/

/-- One turn of the loop of `safe_resolve_parts`. A level is named from `base`: the root's
descriptor with nothing in between, or `/` with the root's own path. A component that may not
be looked up is taken for one that is not there. -/
def safeResolveStepIn (R : Refusals) (fs : Fs) (base under resolved : Path) (comp : Name) :
    Walk.Step Path Name Unit :=
  if comp = [] ∨ comp = ['.'] then .next resolved
  else if comp = ['.', '.'] then .next resolved.dropLast
  else
    match fs.lstatPathIn R base (under ++ (resolved ++ [comp])) with
    | .error _ => .next (resolved ++ [comp])
    | .ok (.symlink _) =>
      match fs.readlinkPathIn R base (under ++ (resolved ++ [comp])) with
      | .error _ => .fail ()
      | .ok target => .link (if target.head? = some '/' then [] else resolved) (splitPath target)
    | .ok _ => .next (resolved ++ [comp])

/-- The components `parts` resolves to beneath the path `root`; `none` past 40 links. -/
def safeResolvePartsIn (R : Refusals) (fs : Fs) (root : Path) (parts : List Name) : Option Path :=
  (Walk.run (safeResolveStepIn R fs [] root) () 40 [] parts).toOption

/-- The same beneath a root the caller has pinned. -/
def safeResolvePartsAtIn (R : Refusals) (fs : Fs) (rootFd : Path) (parts : List Name) :
    Option Path :=
  (Walk.run (safeResolveStepIn R fs rootFd []) () 40 [] parts).toOption

/-- The two where every name may be looked up. -/
def safeResolveParts (fs : Fs) (root : Path) (parts : List Name) : Option Path :=
  safeResolvePartsIn noRefusals fs root parts

def safeResolvePartsAt (fs : Fs) (rootFd : Path) (parts : List Name) : Option Path :=
  safeResolvePartsAtIn noRefusals fs rootFd parts

def resolveAtIn (R : Refusals) (root : Path) (parts : List Name) : Sys (Option Path) :=
  .look fun fs => .ok (safeResolvePartsAtIn R fs root parts)

def resolveAt (root : Path) (parts : List Name) : Sys (Option Path) :=
  .look fun fs => .ok (safeResolvePartsAt fs root parts)

/-! ## Members -/

/-- Apply a whiteout inside the directory `parentFd`. -/
def applyWhiteout (parentFd : Path) (basename : Name) : Sys Unit :=
  if basename = opaqueName then do
    let entries ← listdirAt parentFd
    .each (rmtreeAt parentFd) entries
  else
    let target := basename.drop 4
    if target = [] ∨ target = ['.'] ∨ target = ['.', '.'] then pure ()
    else rmtreeAt parentFd target

def writeDir (umask : Mode) (parentFd : Path) (name : Name) (m : Member) : Sys Unit :=
  replaceDir umask parentFd name (m.mode ||| 0o700)

/-- Whatever holds the name goes first; a link that cannot be made is left out. -/
def writeSymlink (parentFd : Path) (name : Name) (linkname : List Char) : Sys Unit := do
  match ← (lstatAt parentFd name).optional with
  | some _ => rmtreeAt parentFd name
  | none => pure ()
  (Proc.change (·.symlinkAt linkname parentFd name)).quietly

def writeRegular (umask : Mode) (parentFd : Path) (name : Name) (content : Bytes) (m : Member) :
    Sys Unit :=
  fillNew umask parentFd name ⟨content, m.mode, m.mtime⟩

/-- Queue a hard link; its link name is filtered like a member's. -/
def deferHardlink (strip : Nat) (linkname : List Char) (relParts : Path) (acc : Deferred) :
    Deferred :=
  match stripParts strip linkname with
  | none => acc
  | some relLparts => { acc with links := acc.links ++ [(relParts, relLparts)] }

/-- The entry a member asks for, in the directory its parent was walked to. -/
def writeMember (umask : Mode) (strip : Nat) (parentFd : Path) (parentParts parent : Path)
    (name : Name) (m : Member) (acc : Deferred) : Sys Deferred :=
  match m.kind with
  | .dir => do
    writeDir umask parentFd name m
    pure { acc with dirs := acc.dirs ++ [(parentParts ++ [name], m.mtime)] }
  | .sym linkname => do
    writeSymlink parentFd name linkname
    pure acc
  | .lnk linkname => pure (deferHardlink strip linkname (parent ++ [name]) acc)
  | .reg content => do
    writeRegular umask parentFd name content m
    pure acc
  | .device | .other => pure acc

/-- A whiteout member; no parent is made for it, and one that is not there holds nothing. -/
def readWhiteout (umask : Mode) (root parentParts : Path) (name : Name) (acc : Deferred) :
    Sys Deferred := do
  match ← (descendAt umask false root parentParts).optional with
  | none => pure acc
  | some parentFd => do
    applyWhiteout parentFd name
    pure acc

def processMember (umask : Mode) (strip : Nat) (handleWhiteouts : Bool) (root : Path)
    (m : Member) (acc : Deferred) : Sys Deferred :=
  if m.kind = .device then pure acc
  else
    match memberPath strip m.name with
    | none => pure acc
    | some (parent, name) => do
      match ← resolveAt root parent with
      | none => pure acc
      | some parentParts =>
        if handleWhiteouts && isWhiteout name then
          readWhiteout umask root parentParts name acc
        else do
          let parentFd ← descendAt umask true root parentParts
          writeMember umask strip parentFd parentParts parent name m acc

/-! ## The stream -/

/-- Materialise one deferred hard link as a copy. The answer is the source file it goes to open, if
it comes that far. -/
def copyHardlink (R : Refusals) (umask : Mode) (root : Path) (dest src : Path) :
    Sys (Option Path) := do
  let srcResolved ← resolveAtIn R root src
  let destResolved ← resolveAtIn R root dest
  match srcResolved.bind (·.getLast?), destResolved.bind (·.getLast?) with
  | some srcName, some destName => do
    match ← (descendIn R umask false root (srcResolved.getD []).dropLast).optional with
    | none => pure none
    | some srcFd => do
      match ← (refusing (R .lstat (srcFd ++ [srcName])) (lstatAt srcFd srcName)).optional with
      | some (.file _ _) => do
        match ← (descendIn R umask true root (destResolved.getD []).dropLast).optional with
        | none => pure none
        | some dstFd => do
          (unlinkIn R dstFd destName).quietly
          (copyFileAt R umask srcFd srcName dstFd destName).quietly
          pure (some (srcFd ++ [srcName]))
      | _ => pure none
  | _, _ => pure none

/-- Set the time of what a directory member left behind; only a file has one here. -/
def stampDir (umask : Mode) (root : Path) (parts : Path) (mtime : Int) : Sys Unit :=
  match parts.getLast? with
  | none => pure ()
  | some name =>
    Proc.quietly do
      let parentFd ← descendAt umask false root parts.dropLast
      .change (·.modifyAt parentFd name fun f => { f with mtime })

/-- One turn of the loop over the deferred links, with the sources gone to so far. -/
def copyNext (R : Refusals) (umask : Mode) (root : Path) (link : Path × Path) (reads : List Path) :
    Sys (List Path) := do
  let read ← copyHardlink R umask root link.1 link.2
  pure (reads ++ read.toList)

/-- The extraction. Its answer lists the files it went to as hard-link sources. -/
def extractStream (R : Refusals) (umask : Mode) (strip : Nat) (handleWhiteouts : Bool) (root : Path)
    (members : List Member) : Sys (List Path) := do
  let deferred ← .thread (processMember umask strip handleWhiteouts root) members .empty
  let reads ← .thread (copyNext R umask root) deferred.links []
  .each (fun d => stampDir umask root d.1 d.2) deferred.dirs.reverse
  pure reads

/-- Apply one layer: nothing stripped, whiteouts handled. -/
def applyLayer (R : Refusals) (umask : Mode) (root : Path) (members : List Member) :
    Sys (List Path) :=
  extractStream R umask 0 true root members

/-! ## Names that come out of the filters -/

/-- No part of a member's name has a slash. -/
theorem nameParts_noSlash {name : List Char} {c : Name} (h : c ∈ nameParts name) :
    Fs.NoSlash c :=
  Fs.noSlash_of_mem_splitPath h

theorem stripParts_noSlash {strip : Nat} {name : List Char} {parts : Path} {c : Name}
    (h : stripParts strip name = some parts) (hc : c ∈ parts) : Fs.NoSlash c := by
  unfold stripParts at h
  simp only at h
  split at h
  · cases h
  · split at h
    · cases h
    · cases h
      exact nameParts_noSlash (List.mem_of_mem_drop hc)

/-- What a member's name leads to is its parts, and the last is not the dot. -/
theorem memberPath_some {strip : Nat} {name : List Char} {parent : Path} {last : Name}
    (h : memberPath strip name = some (parent, last)) :
    stripParts strip name = some (parent ++ [last]) ∧ last ≠ ['.'] := by
  unfold memberPath at h
  split at h
  · cases h
  · rename_i relParts hparts
    split at h
    · cases h
    · rename_i l hl
      split at h
      · cases h
      · rename_i hdot
        cases h
        obtain ⟨init, rfl⟩ := List.getLast?_eq_some_iff.mp hl
        rw [List.dropLast_concat]
        exact ⟨hparts, hdot⟩

/-- A member's own name is one an entry can carry. -/
theorem memberPath_validName {strip : Nat} {name : List Char} {parent : Path} {last : Name}
    (h : memberPath strip name = some (parent, last)) : ValidName last := by
  obtain ⟨hparts, hdot⟩ := memberPath_some h
  have hslash := stripParts_noSlash hparts (by simp : last ∈ parent ++ [last])
  unfold stripParts at hparts
  simp only at hparts
  split at hparts
  · cases hparts
  · split at hparts
    · cases hparts
    · rename_i hno
      rw [Option.some.injEq] at hparts
      rw [hparts] at hno
      refine ⟨?_, hdot, ?_, hslash⟩ <;> rintro rfl <;> exact hno (by simp)

/-- Its parents are names without slashes. -/
theorem memberPath_noSlash {strip : Nat} {name : List Char} {parent : Path} {last : Name}
    (h : memberPath strip name = some (parent, last)) : ∀ c ∈ parent, Fs.NoSlash c :=
  fun _ hc => stripParts_noSlash (memberPath_some h).1 (by simp [hc])

/-- The path of an entry, written as a string, comes through the filters. -/
theorem memberPath_joinPath {p : Path} {x : Name} (hv : ∀ c ∈ p ++ [x], ValidName c) :
    memberPath 0 (joinPath (p ++ [x])) = some (p, x) := by
  obtain ⟨hfirst, hlast⟩ := joinPath_ends (by simp) hv
  have hparts : nameParts (joinPath (p ++ [x])) = p ++ [x] := by
    unfold nameParts
    rw [hfirst, hlast]
    exact splitPath_joinPath (by simp) fun c hc => (hv c hc).no_slash
  have hclean : ¬ (['.', '.'] ∈ p ++ [x] ∨ [] ∈ p ++ [x]) := by
    rintro (h | h)
    · exact (hv _ h).not_dotdot rfl
    · exact (hv _ h).nonempty rfl
  have hstrip : stripParts 0 (joinPath (p ++ [x])) = some (p ++ [x]) := by
    unfold stripParts
    simp only [hparts, List.drop_zero]
    rw [if_neg (by simp), if_neg hclean]
  have hdot : x ≠ ['.'] := (hv x (by simp)).not_dot
  unfold memberPath
  rw [hstrip]
  simp [hdot]

/-! ## The resolver is the chroot rule -/

section Resolver

variable {R : Refusals} {fs : Fs} {base under root p p' : Path} {c : Name} {parts comps : List Name}

/-- What a turn of the loop resolves has ordinary names, and links that were looked up and followed
are no part of it: one that stands there stands where the lookup was refused. -/
structure ResolvedIn (R : Refusals) (fs : Fs) (root p : Path) : Prop where
  valid : ∀ c ∈ p, ValidName c
  link : ∀ r t, r <+: p → r ≠ [] → fs.get (root ++ r) = some (.symlink t) →
    R .lstat (root ++ r) = true

/-- The root is resolved. -/
theorem ResolvedIn.nil : ResolvedIn R fs root [] :=
  ⟨by simp, fun r _ hr hne => absurd (List.prefix_nil.mp hr) hne⟩

theorem ResolvedIn.dropLast (h : ResolvedIn R fs root p) : ResolvedIn R fs root p.dropLast :=
  ⟨fun c hc => h.valid c (List.mem_of_mem_dropLast hc),
    fun r t hr => h.link r t (hr.trans (List.dropLast_prefix p))⟩

/-- One more name: looked up and no link, or not looked up. -/
theorem ResolvedIn.snoc (h : ResolvedIn R fs root p) (hc : ValidName c)
    (hlink : ∀ t, fs.get (root ++ (p ++ [c])) = some (.symlink t) →
      R .lstat (root ++ (p ++ [c])) = true) :
    ResolvedIn R fs root (p ++ [c]) := by
  refine ⟨fun x hx => ?_, fun r t hr hne ht => ?_⟩
  · rcases List.mem_append.mp hx with hx | hx
    · exact h.valid x hx
    · rw [List.mem_singleton.mp hx]
      exact hc
  · rcases List.prefix_concat_iff.mp hr with rfl | hr
    · exact hlink t ht
    · exact h.link r t hr hne ht

/-- A component that moves the walk on is no link, or it was not looked up. -/
theorem safeResolveStepIn_next (h : ResolvedIn R fs root p) (hc : Fs.NoSlash c)
    (hstep : safeResolveStepIn R fs [] root p c = .next p') :
    ResolvedIn R fs root p' := by
  unfold safeResolveStepIn at hstep
  split at hstep
  · cases hstep
    exact h
  · rename_i h₁
    split at hstep
    · cases hstep
      exact h.dropLast
    · rename_i h₂
      have hv := Fs.validName_of_noSlash hc h₁ h₂
      unfold Fs.lstatPathIn at hstep
      rw [List.nil_append] at hstep
      cases hrefused : R .lstat (root ++ (p ++ [c])) with
      | true =>
        rw [hrefused, if_pos rfl] at hstep
        cases hstep
        exact h.snoc hv fun _ _ => hrefused
      | false =>
        rw [hrefused, if_neg (by simp)] at hstep
        -- the component was looked up and is no link
        have hnolink : ∀ t, fs.get (root ++ (p ++ [c])) ≠ some (.symlink t) := by
          intro t ht
          rw [← List.append_assoc] at ht hstep
          rw [Fs.lstatPath_of_get ht] at hstep
          dsimp only at hstep
          split at hstep <;> cases hstep
        have hnext : p' = p ++ [c] := by
          split at hstep
          · exact (Walk.Step.next.inj hstep).symm
          · split at hstep <;> cases hstep
          · exact (Walk.Step.next.inj hstep).symm
        rw [hnext]
        exact h.snoc hv fun t ht => absurd ht (hnolink t)

/-- The parts of a link's target have no slashes. -/
theorem safeResolveStepIn_comps (hstep : safeResolveStepIn R fs base under p c = .link p' comps) :
    ∀ c' ∈ comps, Fs.NoSlash c' := by
  unfold safeResolveStepIn at hstep
  split at hstep
  · cases hstep
  · split at hstep
    · cases hstep
    · split at hstep
      · cases hstep
      · split at hstep
        · cases hstep
        · cases hstep
          exact fun x hx => Fs.noSlash_of_mem_splitPath hx
      · cases hstep

/-- A link is followed from the root or from where it stands. -/
theorem safeResolveStepIn_link (h : ResolvedIn R fs root p)
    (hstep : safeResolveStepIn R fs base under p c = .link p' comps) :
    ResolvedIn R fs root p' ∧ ∀ c' ∈ comps, Fs.NoSlash c' := by
  refine ⟨?_, safeResolveStepIn_comps hstep⟩
  unfold safeResolveStepIn at hstep
  split at hstep
  · cases hstep
  · split at hstep
    · cases hstep
    · split at hstep
      · cases hstep
      · split at hstep
        · cases hstep
        · cases hstep
          split
          · exact .nil
          · exact h
      · cases hstep

/-- What the resolver answers. -/
theorem safeResolvePartsIn_resolved (hparts : ∀ x ∈ parts, Fs.NoSlash x)
    (h : safeResolvePartsIn R fs root parts = some p) : ResolvedIn R fs root p := by
  unfold safeResolvePartsIn at h
  cases hrun : Walk.run (safeResolveStepIn R fs [] root) () 40 [] parts with
  | error e =>
    rw [hrun] at h
    cases h
  | ok t =>
    rw [hrun] at h
    cases h
    exact Walk.run_invariant (ResolvedIn R fs root) Fs.NoSlash
      (fun _ _ _ hs hc hstep => safeResolveStepIn_next hs hc hstep)
      (fun _ _ _ _ hs _ hstep => safeResolveStepIn_link hs hstep) 40 [] parts _ .nil hparts hrun

/-- A root that is a directory is the same under its descriptor and under its path. -/
theorem safeResolvePartsAtIn_eq (hroot : fs.IsDir root) :
    safeResolvePartsAtIn R fs root parts = safeResolvePartsIn R fs root parts := by
  have hlook : ∀ p c, fs.lstatPath root ([] ++ (p ++ [c])) = fs.lstatPath [] (root ++ (p ++ [c])) := by
    intro p c
    rw [Fs.lstatPath_append (Fs.resolved_of_isDir hroot).valid (by simpa using hroot) (by simp)]
    rfl
  have hstep : safeResolveStepIn R fs root [] = safeResolveStepIn R fs [] root := by
    funext p c
    unfold safeResolveStepIn Fs.lstatPathIn Fs.readlinkPathIn Fs.readlinkPath
    rw [hlook p c]
    rfl
  unfold safeResolvePartsAtIn safeResolvePartsIn
  rw [hstep]

/-- What the resolver off a descriptor answers. -/
theorem safeResolvePartsAtIn_resolved (hroot : fs.IsDir root) (hparts : ∀ x ∈ parts, Fs.NoSlash x)
    (h : safeResolvePartsAtIn R fs root parts = some p) : ResolvedIn R fs root p :=
  safeResolvePartsIn_resolved hparts ((safeResolvePartsAtIn_eq hroot).symm.trans h)

/-- One more name in a directory that is there is taken as it is, unless it is a link that is seen. -/
theorem safeResolvePartsAtIn_concat (hroot : fs.IsDir root) (hdir : fs.IsDir (root ++ p))
    (h : safeResolvePartsAtIn R fs root parts = some p) (hc : ValidName c)
    (hlink : ∀ t, fs.get (root ++ (p ++ [c])) = some (.symlink t) →
      R .lstat (root ++ (p ++ [c])) = true) :
    safeResolvePartsAtIn R fs root (parts ++ [c]) = some (p ++ [c]) := by
  have hlook : (fs.lstatPath [] (root ++ (p ++ [c]))).toOption = fs.get (root ++ (p ++ [c])) := by
    have hget := Fs.lstat_of_resolved fs.isDir_root (Fs.resolved_of_isDir hdir) hc
    rwa [List.append_assoc] at hget
  have hstep : safeResolveStepIn R fs [] root p c = .next (p ++ [c]) := by
    unfold safeResolveStepIn
    rw [if_neg (by simp [hc.nonempty, hc.not_dot]), if_neg hc.not_dotdot]
    unfold Fs.lstatPathIn
    rw [List.nil_append]
    cases hseen : R .lstat (root ++ (p ++ [c])) with
    | true => rw [if_pos rfl]
    | false =>
      rw [if_neg (by simp)]
      cases hl : fs.lstatPath [] (root ++ (p ++ [c])) with
      | error e => rfl
      | ok e =>
        rw [hl] at hlook
        cases e with
        | dir m => rfl
        | file i data => rfl
        | symlink t =>
          rw [hlink t hlook.symm] at hseen
          cases hseen
  rw [safeResolvePartsAtIn_eq hroot] at h ⊢
  unfold safeResolvePartsIn at h ⊢
  cases hrun : Walk.run (safeResolveStepIn R fs [] root) () 40 [] parts with
  | error e =>
    rw [hrun] at h
    cases h
  | ok t =>
    rw [hrun] at h
    cases h
    rw [Walk.run_concat_of_next 40 [] parts _ hrun hstep]
    rfl

/-- On components resolved so far the loop looks at the entry a chroot looks at. -/
theorem safeResolveStep_eq (hroot : fs.IsDir root) (h : fs.Resolved root p) (hc : Fs.NoSlash c) :
    safeResolveStepIn noRefusals fs [] root p c = fs.chrootStep root p c := by
  unfold safeResolveStepIn Fs.chrootStep
  split
  · rfl
  · split
    · rfl
    · rename_i h₁ h₂
      rw [Fs.lstatPathIn_noRefusals, Fs.readlinkPathIn_noRefusals]
      have hbelow : fs.Resolved [] (root ++ p) := (Fs.resolved_of_isDir hroot).append h
      have hlook := Fs.lstat_of_resolved fs.isDir_root hbelow (Fs.validName_of_noSlash hc h₁ h₂)
      rw [List.append_assoc, List.nil_append] at hlook
      cases hl : fs.lstatPath [] (root ++ (p ++ [c])) with
      | error e =>
        rw [hl] at hlook
        rw [← hlook]
        rfl
      | ok e =>
        rw [hl] at hlook
        rw [← hlook]
        cases e with
        | dir m => rfl
        | file i data => rfl
        | symlink t =>
          have hread : fs.readlinkPath [] (root ++ (p ++ [c])) = .ok t :=
            Fs.readlinkPath_eq_ok.mpr hl
          simp only [hread]
          rfl

/-- With no call refused, the resolver resolves as in a chroot. -/
theorem safeResolveParts_eq_chroot (hroot : fs.IsDir root) (hparts : ∀ c ∈ parts, Fs.NoSlash c) :
    safeResolveParts fs root parts = fs.chroot root parts := by
  have hrun := Walk.run_map id (fs.Resolved root) Fs.NoSlash
    (safeResolveStepIn noRefusals fs [] root) (fs.chrootStep root) ()
    (fun p c hp hc => (safeResolveStep_eq hroot hp hc).trans (by
      cases fs.chrootStep root p c <;> rfl))
    (fun _ _ _ hs hc hstep => Fs.chrootStep_next hs hc hstep)
    (fun _ _ _ _ hs _ hstep => Fs.chrootStep_link hs hstep)
    40 [] parts (Fs.Resolved.nil fs _) hparts
  rw [id_eq] at hrun
  unfold safeResolveParts safeResolvePartsIn Fs.chroot
  rw [hrun]
  cases Walk.run (fs.chrootStep root) () 40 [] parts <;> rfl

/-- So does the one that walks by descriptors. -/
theorem safeResolvePartsAt_eq_chroot (hroot : fs.IsDir root)
    (hparts : ∀ c ∈ parts, Fs.NoSlash c) :
    safeResolvePartsAt fs root parts = fs.chroot root parts :=
  (safeResolvePartsAtIn_eq hroot).trans (safeResolveParts_eq_chroot hroot hparts)

end Resolver

/-! ## What one write leaves

Each is exact: where it succeeds and what stands at every path then. -/

section Writes

variable {umask : Mode} {fs : Fs} {d : Path} {name : Name} {m : Member}

/-- A plain file in the way ends the extraction. -/
theorem writeDir_of_file {i : Nat} {data : FileData}
    (h : fs.get (d ++ [name]) = some (.file i data)) :
    writeDir umask d name m fs = (.error .EEXIST, fs) :=
  replaceDir_of_file h

/-- A directory member takes the place of anything else. -/
theorem writeDir_of_not_file (hv : ValidName name) (hd : fs.IsDir d)
    (h : ∀ i data, fs.get (d ++ [name]) ≠ some (.file i data)) :
    ∃ fs', writeDir umask d name m fs = (.ok (), fs') ∧
      ∀ q, fs'.get q =
        if q = d ++ [name] then some (.dir (m.mode ||| 0o700)) else fs.get q :=
  replaceDir_of_not_file umask (m.mode ||| 0o700) hv hd h

/-- What `symlink` makes: nothing, where the target is empty. -/
def linkEntry (linkname : List Char) : Option Entry :=
  if linkname = [] then none else some (.symlink linkname)

/-- A link takes the place of whatever held its name, and of all that was below; one to the empty path
leaves the place free. -/
theorem writeSymlink_spec (linkname : List Char) (hv : ValidName name) (hd : fs.IsDir d) :
    ∃ fs', writeSymlink d name linkname fs = (.ok (), fs') ∧
      ∀ q, fs'.get q =
        if q = d ++ [name] then linkEntry linkname
        else if d ++ [name] <+: q then none else fs.get q := by
  -- once the place is free, the link is made there; an empty target is refused and swallowed
  have fresh : ∀ fs₀ : Fs,
      (∀ q, fs₀.get q = if d ++ [name] <+: q then none else fs.get q) →
      ∃ fs', (Proc.change (·.symlinkAt linkname d name) : Sys Unit).quietly fs₀ = (.ok (), fs') ∧
        ∀ q, fs'.get q =
          if q = d ++ [name] then linkEntry linkname
          else if d ++ [name] <+: q then none else fs.get q := by
    intro fs₀ hget₀
    unfold linkEntry
    by_cases hlink : linkname = []
    · subst hlink
      refine ⟨fs₀, Proc.quietly_of_error (Proc.change_of_error Fs.mknodAt_of_emptyLink), fun q => ?_⟩
      rw [hget₀, if_pos rfl]
      split
      · split <;> rfl
      · rename_i hpre
        rw [if_neg]
        rintro rfl
        exact hpre (List.prefix_refl _)
    · obtain ⟨mode, hmode⟩ := hd
      have hd₀ : fs₀.IsDir d := by
        refine ⟨mode, ?_⟩
        rw [hget₀, if_neg, hmode]
        intro hpre
        have := hpre.length_le
        simp at this
      obtain ⟨fs', hfs'⟩ := Fs.mknodAt_of_free (e := .symlink linkname) hv hd₀ (by simpa using hlink)
        (by rw [hget₀, if_pos (List.prefix_refl _)])
      obtain ⟨-, -, -, hget⟩ := Fs.mknodAt_ok hfs'
      refine ⟨fs', Proc.quietly_of_ok (Proc.change_of_ok hfs'), fun q => ?_⟩
      rw [hget, hget₀, if_neg hlink]
  unfold writeSymlink
  -- the place is free already, or what stands there is removed first
  cases hg : fs.get (d ++ [name]) with
  | none =>
    rw [Proc.bind_of_ok (Proc.optional_of_error (lstatAt_of_none hv hg))]
    refine fresh fs fun q => ?_
    split
    · rename_i hpre
      obtain ⟨r, rfl⟩ := hpre
      by_cases hr : r = []
      · rw [hr, List.append_nil, hg]
      · refine Fs.get_append_eq_none hr ?_
        rintro ⟨mode, hmode⟩
        rw [hg] at hmode
        cases hmode
    · rfl
  | some e =>
    rw [Proc.bind_of_ok (Proc.optional_of_ok (lstatAt_of_get hg))]
    obtain ⟨fs₀, hrun₀, hget₀⟩ := rmtreeAt_spec fs d hv
    obtain ⟨fs', hrun, hget⟩ := fresh fs₀ hget₀
    refine ⟨fs', ?_, hget⟩
    show (rmtreeAt d name >>= _) fs = _
    rw [Proc.bind_of_ok hrun₀]
    exact hrun

/-- An opaque marker clears the directory it stands in. -/
theorem applyWhiteout_opaque (fs : Fs) (d : Path) :
    ∃ fs', applyWhiteout d opaqueName fs = (.ok (), fs') ∧
      ∀ q, fs'.get q = if d <+: q ∧ q ≠ d then none else fs.get q := by
  have hlist : listdirAt d fs = (.ok (fs.listdir d), fs) := rfl
  obtain ⟨fs', hrun, hget⟩ := each_remove fs d (rmtreeAt d) (fs.listdir d)
    fun n hn fs₁ _ => by
      obtain ⟨e, he⟩ := Option.isSome_iff_exists.mp (Fs.mem_listdir.mp hn)
      exact rmtreeAt_spec fs₁ d (Fs.validName_of_get he)
  refine ⟨fs', ?_, fun q => ?_⟩
  · unfold applyWhiteout
    rw [if_pos rfl, Proc.bind_of_ok hlist, hrun]
  · rw [hget]
    by_cases hq : d <+: q ∧ q ≠ d
    · rw [if_pos hq]
      split
      · rfl
      · rename_i hno
        -- what is below `d` stands under one of its names, or not at all
        obtain ⟨⟨r, rfl⟩, hne⟩ := hq
        cases r with
        | nil => simp at hne
        | cons n r =>
          have hnone : fs.get (d ++ [n]) = none := by
            by_contra hsome
            exact hno ⟨n, Fs.mem_listdir.mpr (Option.isSome_iff_ne_none.mpr hsome), r, by simp⟩
          have happ : d ++ n :: r = d ++ [n] ++ r := by simp
          rw [happ]
          by_cases hr : r = []
          · rw [hr, List.append_nil, hnone]
          · refine Fs.get_append_eq_none hr ?_
            rintro ⟨mode, hmode⟩
            rw [hnone] at hmode
            cases hmode
    · rw [if_neg hq, if_neg]
      rintro ⟨n, -, hpre⟩
      refine hq ⟨(List.prefix_append d [n]).trans hpre, ?_⟩
      rintro rfl
      have := hpre.length_le
      simp at this

/-- A plain whiteout removes the entry it names, if that is a name at all. -/
theorem applyWhiteout_plain (fs : Fs) (d : Path) {basename : Name} (hne : basename ≠ opaqueName)
    (hv : ValidName (basename.drop 4)) :
    ∃ fs', applyWhiteout d basename fs = (.ok (), fs') ∧
      ∀ q, fs'.get q = if d ++ [basename.drop 4] <+: q then none else fs.get q := by
  unfold applyWhiteout
  rw [if_neg hne, if_neg (by simp [hv.nonempty, hv.not_dot, hv.not_dotdot])]
  exact rmtreeAt_spec fs d hv

/-- A whiteout that names no entry of its own does nothing. -/
theorem applyWhiteout_nameless (fs : Fs) (d : Path) {basename : Name}
    (hne : basename ≠ opaqueName) (hslash : Fs.NoSlash basename)
    (hv : ¬ ValidName (basename.drop 4)) : applyWhiteout d basename fs = (.ok (), fs) := by
  have htarget : basename.drop 4 = [] ∨ basename.drop 4 = ['.'] ∨
      basename.drop 4 = ['.', '.'] := by
    by_contra hno
    rw [not_or, not_or] at hno
    exact hv ⟨hno.1, hno.2.1, hno.2.2, fun hmem => hslash (List.mem_of_mem_drop hmem)⟩
  unfold applyWhiteout
  rw [if_neg hne, if_pos htarget]
  rfl

end Writes

/-! ## What one member does -/

/-- The paths the whiteout `name` removes when it is read in the directory `d`: all that is
below `d`, or the sibling it names with what is below that. -/
def Hides (d : Path) (name : Name) (q : Path) : Prop :=
  if name = opaqueName then d <+: q ∧ q ≠ d
  else ValidName (name.drop 4) ∧ d ++ [name.drop 4] <+: q

instance (d : Path) (name : Name) (q : Path) : Decidable (Hides d name q) := by
  unfold Hides
  infer_instance

section Members

variable {umask : Mode} {strip : Nat} {handleWhiteouts : Bool} {fs : Fs} {root : Path}
  {m : Member} {acc : Deferred} {parent parentParts : Path} {name : Name}

/-- A whiteout removes what it hides, and fails never. -/
theorem applyWhiteout_spec (fs : Fs) (d : Path) (hslash : Fs.NoSlash name) :
    ∃ fs', applyWhiteout d name fs = (.ok (), fs') ∧
      ∀ q, fs'.get q = if Hides d name q then none else fs.get q := by
  unfold Hides
  by_cases ho : name = opaqueName
  · simp only [if_pos ho]
    rw [ho]
    exact applyWhiteout_opaque fs d
  · simp only [if_neg ho]
    by_cases hv : ValidName (name.drop 4)
    · obtain ⟨fs', hrun, hget⟩ := applyWhiteout_plain fs d ho hv
      refine ⟨fs', hrun, fun q => ?_⟩
      rw [hget]
      simp only [hv, true_and]
    · exact ⟨fs, applyWhiteout_nameless fs d ho hslash hv, fun q => by simp [hv]⟩

/-- A member that is no entry, or whose name the filters drop, passes by. -/
theorem processMember_dropped (h : m.kind = .device ∨ memberPath strip m.name = none) :
    processMember umask strip handleWhiteouts root m acc fs = (.ok acc, fs) := by
  unfold processMember
  split
  · rfl
  · rename_i hk
    rcases h with h | h
    · exact absurd h hk
    · rw [h]
      rfl

/-- So does one whose parent takes too many links. -/
theorem processMember_unresolved (hpath : memberPath strip m.name = some (parent, name))
    (hres : safeResolvePartsAt fs root parent = none) :
    processMember umask strip handleWhiteouts root m acc fs = (.ok acc, fs) := by
  unfold processMember
  split
  · rfl
  · rw [hpath]
    have hlook : resolveAt root parent fs = (.ok none, fs) := by
      unfold resolveAt
      rw [Proc.look_apply, hres]
    exact Proc.bind_of_ok hlook

/-- A whiteout removes what it hides in the directory its parent resolves to, where that is
a directory, and never fails. -/
theorem processMember_whiteout (hroot : fs.IsDir root) (hk : m.kind ≠ .device)
    (hpath : memberPath strip m.name = some (parent, name)) (hwh : isWhiteout name = true)
    (hres : safeResolvePartsAt fs root parent = some parentParts) :
    ∃ fs', processMember umask strip true root m acc fs = (.ok acc, fs') ∧
      ∀ q, fs'.get q =
        if fs.IsDir (root ++ parentParts) ∧ Hides (root ++ parentParts) name q then none
        else fs.get q := by
  have hparent := memberPath_noSlash hpath
  have hv : ∀ c ∈ parentParts, ValidName c := by
    rw [safeResolvePartsAt_eq_chroot hroot hparent] at hres
    exact (Fs.chroot_resolved hparent hres).valid
  have hlook : resolveAt root parent fs = (.ok (some parentParts), fs) := by
    unfold resolveAt
    rw [Proc.look_apply, hres]
  unfold processMember
  rw [if_neg hk, hpath]
  show ∃ fs', (resolveAt root parent >>= _) fs = _ ∧ _
  rw [Proc.bind_of_ok hlook]
  simp only [hwh, Bool.and_self, if_true]
  unfold readWhiteout
  by_cases hdir : fs.IsDir (root ++ parentParts)
  · rw [Proc.bind_of_ok (Proc.optional_of_ok (descendAt_of_isDir hv hdir))]
    obtain ⟨fs', hrun, hget⟩ := applyWhiteout_spec fs (root ++ parentParts)
      (memberPath_validName hpath).no_slash
    refine ⟨fs', Proc.bind_of_ok hrun, fun q => ?_⟩
    rw [hget]
    simp only [hdir, true_and]
  · obtain ⟨e, he⟩ : ∃ e, descendAt umask false root parentParts fs = (.error e, fs) :=
      descendAt_of_not_isDir hv hroot hdir
    rw [Proc.bind_of_ok (Proc.optional_of_error he)]
    exact ⟨fs, rfl, fun q => by simp [hdir]⟩

/-- A directory is made, and waits for its time. -/
theorem writeMember_dir {fd : Path} (h : m.kind = .dir) :
    writeMember umask strip fd parentParts parent name m acc =
      (do writeDir umask fd name m
          pure { acc with dirs := acc.dirs ++ [(parentParts ++ [name], m.mtime)] }) := by
  unfold writeMember
  rw [h]

/-- A link is made at once. -/
theorem writeMember_sym {fd : Path} {linkname : List Char} (h : m.kind = .sym linkname) :
    writeMember umask strip fd parentParts parent name m acc =
      (do writeSymlink fd name linkname
          pure acc) := by
  unfold writeMember
  rw [h]

theorem writeMember_reg {fd : Path} {content : Bytes} (h : m.kind = .reg content) :
    writeMember umask strip fd parentParts parent name m acc =
      (do fillNew umask fd name ⟨content, m.mode, m.mtime⟩
          pure acc) := by
  unfold writeMember
  rw [h]
  rfl

/-- Any other member is written in the directory its parent resolves to. -/
theorem processMember_entry (hk : m.kind ≠ .device)
    (hpath : memberPath strip m.name = some (parent, name))
    (hwh : (handleWhiteouts && isWhiteout name) = false)
    (hres : safeResolvePartsAt fs root parent = some parentParts) :
    processMember umask strip handleWhiteouts root m acc fs =
      (do let parentFd ← descendAt umask true root parentParts
          writeMember umask strip parentFd parentParts parent name m acc : Sys Deferred) fs := by
  have hlook : resolveAt root parent fs = (.ok (some parentParts), fs) := by
    unfold resolveAt
    rw [Proc.look_apply, hres]
  unfold processMember
  rw [if_neg hk, hpath]
  show (resolveAt root parent >>= _) fs = _
  rw [Proc.bind_of_ok hlook]
  simp only [hwh, Bool.false_eq_true, if_false]

/-- Where the path of an entry's parent is a directory of the tree, the entry is written
there. -/
theorem processMember_literal {p : Path} (hroot : fs.IsDir root)
    (hname : m.name = joinPath (p ++ [name])) (hv : ∀ c ∈ p ++ [name], ValidName c)
    (hk : m.kind ≠ .device) (hwh : isWhiteout name = false) (hdir : fs.IsDir (root ++ p)) :
    processMember umask 0 handleWhiteouts root m acc fs =
      writeMember umask 0 (root ++ p) p p name m acc fs := by
  have hp : ∀ c ∈ p, ValidName c := fun c hc => hv c (by simp [hc])
  have hres : safeResolvePartsAt fs root p = some p := by
    rw [safeResolvePartsAt_eq_chroot hroot fun c hc => (hp c hc).no_slash]
    exact Fs.chroot_of_isDir hp hdir
  have hpath : memberPath 0 m.name = some (p, name) := by
    rw [hname]
    exact memberPath_joinPath hv
  rw [processMember_entry hk hpath (by simp [hwh]) hres]
  exact Proc.bind_of_ok (descendAt_of_isDir hp hdir)

/-- What a directory, link or file member leaves at its path; a directory keeps its owner's
bits whatever the member says, and a link to the empty path is not made. -/
def Member.shape (m : Member) : Option Shape :=
  match m.kind with
  | .dir => some (.dir (m.mode ||| 0o700))
  | .sym linkname => if linkname = [] then none else some (.symlink linkname)
  | .reg content => some (.file content m.mode)
  | .device | .lnk _ | .other => none

/-- Such a member takes the place of what holds its name, with what is below that unless it
is a directory itself; a file does not replace a directory, nor a directory a file. -/
theorem writeMember_writes {d : Path} {s : Shape} (umask : Mode) (strip : Nat)
    (parentParts parent : Path) (acc : Deferred) (hd : fs.IsDir d) (hv : ValidName name)
    (hs : m.shape = some s)
    (hfile : ∀ content mode, s = .file content mode → ¬ fs.IsDir (d ++ [name]))
    (hfree : s.isDir = true → ∀ i data, fs.get (d ++ [name]) ≠ some (.file i data)) :
    ∃ acc' fs', writeMember umask strip d parentParts parent name m acc fs = (.ok acc', fs') ∧
      acc'.links = acc.links ∧
      ∀ q, fs'.shape q =
        if q = d ++ [name] then some s
        else if s.isDir = false ∧ d ++ [name] <+: q then none
        else fs.shape q := by
  unfold Member.shape at hs
  cases hkind : m.kind with
  | device => rw [hkind] at hs; cases hs
  | other => rw [hkind] at hs; cases hs
  | lnk linkname => rw [hkind] at hs; cases hs
  -- a directory keeps what is below it
  | dir =>
    rw [hkind] at hs
    cases hs
    obtain ⟨fs', hrun, hget⟩ : ∃ fs', writeDir umask d name m fs = (.ok (), fs') ∧ _ :=
      writeDir_of_not_file hv hd (hfree rfl)
    rw [writeMember_dir hkind, Proc.bind_of_ok hrun]
    refine ⟨_, fs', rfl, rfl, fun q => ?_⟩
    unfold Fs.shape
    rw [hget]
    split
    · rfl
    · simp [Shape.isDir]
  -- a link and a file leave nothing below them
  | sym linkname =>
    rw [hkind] at hs
    obtain ⟨hlink, hs⟩ : linkname ≠ [] ∧ s = .symlink linkname := by
      dsimp only at hs
      split at hs
      · cases hs
      · rename_i hlink
        exact ⟨hlink, (Option.some.inj hs).symm⟩
    subst hs
    obtain ⟨fs', hrun, hget⟩ := writeSymlink_spec linkname hv hd
    rw [show linkEntry linkname = some (.symlink linkname) from if_neg hlink] at hget
    rw [writeMember_sym hkind, Proc.bind_of_ok hrun]
    refine ⟨_, fs', rfl, rfl, fun q => ?_⟩
    unfold Fs.shape
    rw [hget]
    split
    · rfl
    · simp only [Shape.isDir, true_and]
      split <;> rfl
  | reg content =>
    rw [hkind] at hs
    cases hs
    have hnot := hfile _ _ rfl
    obtain ⟨fs', ino, hrun, hget, -⟩ :=
      fillNew_of_not_isDir umask ⟨content, m.mode, m.mtime⟩ hv hd hnot
    rw [writeMember_reg hkind, Proc.bind_of_ok hrun]
    refine ⟨_, fs', rfl, rfl, fun q => ?_⟩
    unfold Fs.shape
    rw [hget]
    split
    · rfl
    · rename_i hq
      -- nothing stood below a name that was no directory's
      simp only [Shape.isDir, true_and]
      split
      · rename_i hpre
        obtain ⟨r, rfl⟩ := hpre
        have hr : r ≠ [] := by
          rintro rfl
          exact hq (List.append_nil _)
        rw [Fs.get_append_eq_none hr hnot]
        rfl
      · rfl

/-- The same at the path of the entry, where that leads through directories only. -/
theorem processMember_writes {p : Path} {s : Shape} (umask : Mode) (acc : Deferred)
    (hroot : fs.IsDir root) (hname : m.name = joinPath (p ++ [name]))
    (hv : ∀ c ∈ p ++ [name], ValidName c) (hs : m.shape = some s)
    (hwh : isWhiteout name = false) (hdir : fs.IsDir (root ++ p))
    (hfile : ∀ content mode, s = .file content mode → ¬ fs.IsDir (root ++ (p ++ [name])))
    (hfree : s.isDir = true → ∀ i data, fs.get (root ++ (p ++ [name])) ≠ some (.file i data)) :
    ∃ acc' fs', processMember umask 0 true root m acc fs = (.ok acc', fs') ∧
      acc'.links = acc.links ∧
      ∀ q, fs'.shape q =
        if q = root ++ (p ++ [name]) then some s
        else if s.isDir = false ∧ root ++ (p ++ [name]) <+: q then none
        else fs.shape q := by
  have happ : root ++ (p ++ [name]) = root ++ p ++ [name] := by simp
  have hk : m.kind ≠ .device := by
    intro hk
    unfold Member.shape at hs
    rw [hk] at hs
    cases hs
  rw [happ] at hfile hfree ⊢
  rw [processMember_literal hroot hname hv hk hwh hdir]
  exact writeMember_writes umask 0 p p acc hdir (hv name (by simp)) hs hfile hfree

end Members

/-! ## The end of the stream -/

section Stamps

variable {umask : Mode} {root : Path}

/-- Setting a directory's time fails never. -/
theorem stampDir_total (parts : Path) (mtime : Int) :
    Proc.Total (stampDir umask root parts mtime) := by
  unfold stampDir
  split
  · exact Proc.Total.pure _
  · exact Proc.Total.quietly _

/-- A stamp sets a time and nothing else. -/
theorem stampDir_shape (shape : Path → Option Shape) (parts : Path) (mtime : Int) :
    Proc.Keeps (fun fs : Fs => ∀ q, fs.shape q = shape q) (stampDir umask root parts mtime)
      fun _ => True := by
  unfold stampDir
  split
  · exact Proc.Keeps.pure trivial
  · refine Proc.Keeps.quietly
      ((Proc.Keeps.of_state fun fs => descendAt_false_state).bind fun fd _ => ?_)
    refine Proc.Keeps.change fun fs fs' h hfs' q => ?_
    obtain ⟨i, data, -, rfl⟩ := Fs.modifyAt_ok hfs'
    rw [← h q]
    unfold Fs.shape
    rw [Fs.get_mapInode, Option.map_map]
    congr 1
    funext e
    cases e with
    | dir mode => rfl
    | symlink t => rfl
    | file j d =>
      simp only [Function.comp_apply, Fs.onInode]
      split <;> rfl

/-- A layer without hard links leaves the tree its members have made. -/
theorem applyLayer_of_thread (R : Refusals) {members : List Member} {acc : Deferred} {before fs : Fs}
    (h : Proc.thread (processMember umask 0 true root) members .empty before = (.ok acc, fs))
    (hlinks : acc.links = []) :
    ∃ fs', applyLayer R umask root members before = (.ok [], fs') ∧
      ∀ q, fs'.shape q = fs.shape q := by
  have htotal : Proc.Total
      (.each (fun d : Path × Int => stampDir umask root d.1 d.2) acc.dirs.reverse) :=
    Proc.Total.each (fun (d : Path × Int) => stampDir_total d.1 d.2) _
  obtain ⟨⟨⟩, fs', hstamps, hshape, -⟩ := htotal.run
    (Proc.Keeps.each fun (d : Path × Int) _ => stampDir_shape fs.shape d.1 d.2) fun q => rfl
  refine ⟨fs', ?_, hshape⟩
  unfold applyLayer extractStream
  rw [Proc.bind_of_ok h, hlinks, Proc.bind_of_ok (Proc.thread_nil _ _ _), Proc.bind_of_ok hstamps]
  rfl

end Stamps

end TarExtract

end ProotDistro
