import ProotDistro.Dirfd.RemovalFrame

/-!
# `sync`: one tree mirrored onto another

The passes of a directory's `sync` over a kernel that may refuse any call: the first records what the
source has, the second writes, and with `--delete` a third one removes what the source does not have.

* An entry that cannot be read or written is noted and stepped over; `Ctx` is what the passes know of it.
* A file is written to a sibling that bears its temporary name (`tempName`) and renamed into place; what
  stood at that name goes.
* The calls on the source, those on the destination, those that set modes and times (whose failure nobody
  hears of) and the looks and removals of the third pass are refused by patterns of their own, so that one
  side can be taken to refuse nothing.
* A path relative to one of the two directories is the list of its names; the source joins them by `/`,
  which no name has.
* The walks' stacks are the recursion of `collectRels`, `mirrorAt` and `removeExtrasAt`.

Messages, the progress bar and what `--verbose` adds to them are left out.
-/

namespace ProotDistro.Sync

open Posix Removal CopyTree

/-- The kernel a `sync` runs on, and what it compares by. -/
structure Kernel extends CopyTree.Kernel where
  /-- the calls on the source -/
  reads : Faults
  /-- the calls the pass that deletes looks with -/
  looks : Faults
  /-- those it deletes with -/
  prunes : Faults
  /-- `int(st_mtime)` -/
  seconds : Int → Int
  /-- `zlib.crc32` -/
  crc : Bytes → Nat
  useChecksum : Bool

/-- The calls that open a file of the source. -/
def Kernel.source (K : Kernel) : CopyTree.Kernel := { K.toKernel with faults := K.reads }

/-- `_TMP_SUFFIX` -/
def tmpSuffix : Name := ".~pd_sync".toList

/-- `temp_name` with this suffix: it fits into `NAME_MAX` bytes. -/
def tempName (name : Name) : Name := name.take (255 - tmpSuffix.length) ++ tmpSuffix

/-- What the passes know. -/
structure Ctx where
  srcRels : List Path
  skippedRels : List Path
  failures : Nat
  rootUnreadable : Bool
  deriving DecidableEq

namespace Ctx

def start : Ctx := ⟨[], [], 0, false⟩

def saw (c : Ctx) (rel : Path) : Ctx := { c with srcRels := rel :: c.srcRels }

/-- An entry is counted once. -/
def noteFailure (c : Ctx) (rel : Path) : Ctx :=
  if rel ∈ c.skippedRels then c
  else { c with skippedRels := rel :: c.skippedRels, failures := c.failures + 1 }

/-- A device, a pipe or a socket: passed over, and no failure. -/
def skip (c : Ctx) (rel : Path) : Ctx := { c with skippedRels := rel :: c.skippedRels }

/-- The root of the source could not be listed. -/
def lostRoot (c : Ctx) : Ctx := { c with rootUnreadable := true, failures := c.failures + 1 }

end Ctx

/-! ## Comparing -/

/-- `_needs_update`; `srcData` is what `lstat` saw of the source. -/
def needsUpdate (K : Kernel) (src : Path) (srcName : Name) (srcData : FileData) (dst : Path) (dstName : Name) :
    HostSys Bool := do
  match ← (query K.faults (·.lstatAt dst dstName)).attempt with
  | .ok (.file _ data) =>
    if K.special (dst ++ [dstName]) then pure true
    else if srcData.content.length ≠ data.content.length then pure true
    else if K.useChecksum then
      Proc.handle (do
        let a ← openRegularAt K.source src srcName
        let b ← openRegularAt K.toKernel dst dstName
        pure (decide (K.crc a.content ≠ K.crc b.content))) fun _ => pure true
    else pure (decide (K.seconds srcData.mtime ≠ K.seconds data.mtime))
  | _ => pure true

/-- What `_refresh_file_metadata` found. -/
inductive Meta where
  | ok
  | fixed
  | rewrite
  deriving DecidableEq

/-- The path is a name of the inode. -/
def namesInode (fs : Fs) (ino : Nat) (q : Path) : Bool :=
  match fs.get q with
  | some (.file i _) => decide (i = ino)
  | _ => false

/-- `st_nlink` -/
def linkCount (fs : Fs) (ino : Nat) : Nat := fs.table.keys.countP (namesInode fs ino)

/-- A regular file's data with the number of its names. -/
def statRegular (K : Kernel) (d : Path) (name : Name) (fs : Fs) : Except Errno (FileData × Nat) :=
  if K.special (d ++ [name]) then .error .EINVAL
  else
    match fs.get (d ++ [name]) with
    | some (.file i data) => .ok (data, linkCount fs i)
    | some (.dir _) => .error .EINVAL
    | some (.symlink _) => .error .ELOOP
    | none => .error .ENOENT

/-- The `fchmod` of a file that needs no update. -/
def fixMode (K : Kernel) (srcData data : FileData) (d : Path) (name : Name) : HostSys Unit :=
  if data.mode ≠ srcData.mode then
    act K.metadata (·.modifyAt d name fun f => { f with mode := srcData.mode })
  else pure ()

/-- Its `utime`. -/
def fixTime (K : Kernel) (srcData data : FileData) (d : Path) (name : Name) : HostSys Unit :=
  if K.seconds data.mtime ≠ K.seconds srcData.mtime then
    act K.metadata (·.modifyAt d name fun f => { f with mtime := srcData.mtime })
  else pure ()

/-- The mode and the time of a file that needs no update, set in place. -/
def fixMetadata (K : Kernel) (srcData data : FileData) (d : Path) (name : Name) : HostSys Unit := do
  fixMode K srcData data d name
  fixTime K srcData data d name

/-- `_refresh_file_metadata`: a file with a second name is not touched. -/
def refreshFileMetadata (K : Kernel) (srcData : FileData) (d : Path) (name : Name) : HostSys Meta := do
  match ← (query K.metadata (statRegular K d name)).attempt with
  | .error _ => pure .ok
  | .ok (data, nlink) =>
    if data.mode = srcData.mode ∧ K.seconds data.mtime = K.seconds srcData.mtime then pure .ok
    else if nlink ≠ 1 then pure .rewrite
    else
      Proc.handle (do
        fixMetadata K srcData data d name
        pure Meta.fixed) fun _ => pure .ok

/-! ## Writing single entries -/

/-- `rmtree_at` without a handler: the first error is raised. -/
def rmtree (F : Faults) (force : Bool) (d : Path) (name : Name) : HostSys Unit := fun h =>
  match rmtreeAt F force false d name h with
  | some out => (if out.gone then .ok () else .error (raised out), out.host)
  | none => (.error .EINVAL, h)
where
  raised (out : Outcome) : Errno := (out.report.errors.head?.map Prod.snd).getD .EINVAL

/-- A call, made again in a directory that is made writable where it was not permitted. -/
def persistently {α : Type} (F : Faults) (d : Path) (call again : HostSys α) : HostSys α :=
  call.handle fun e =>
    if isPermission e then do
      makeWritable F d
      again
    else .fail e

def unlinkOnce (F : Faults) (d : Path) (name : Name) (isDir force : Bool) : HostSys Unit :=
  if isDir then rmtree F force d name else act F (·.unlinkAt d name)

/-- `_unlink_robust` -/
def unlinkRobust (F : Faults) (d : Path) (name : Name) (isDir : Bool) : HostSys Unit :=
  persistently F d (unlinkOnce F d name isDir false) (unlinkOnce F d name isDir true)

/-- `os.mkdir` of a directory that is written to before it gets its mode. -/
def makeDir (K : Kernel) (d : Path) (name : Name) : HostSys Unit :=
  persistently K.faults d call call
where
  call : HostSys Unit := act K.faults (·.mkdirAt d name (0o700 &&& ~~~K.umask))

/-- `_sync_dir` -/
def syncDir (K : Kernel) (d : Path) (name : Name) : HostSys Unit := do
  match ← (query K.faults (·.lstatAt d name)).attempt with
  | .ok (.dir _) => pure ()
  | .ok _ => do
    unlinkRobust K.faults d name false
    makeDir K d name
  | .error _ => makeDir K d name

/-- A link under a name that is free. -/
def makeLink (K : Kernel) (target : List Char) (d : Path) (name : Name) : HostSys Unit :=
  persistently K.faults d call call
where
  call : HostSys Unit := act K.faults (·.symlinkAt target d name)

/-- `_sync_symlink`; links carry no time in this model. -/
def syncSymlink (K : Kernel) (src : Path) (srcName : Name) (dst : Path) (dstName : Name) : HostSys Unit := do
  let target ← query K.reads (readlinkAt src srcName)
  match ← (query K.faults (·.lstatAt dst dstName)).attempt with
  | .error _ => makeLink K target dst dstName
  | .ok (.symlink _) => do
    let there ← query K.faults (readlinkAt dst dstName)
    if there = target then pure ()
    else do
      unlinkRobust K.faults dst dstName false
      makeLink K target dst dstName
  | .ok e => do
    unlinkRobust K.faults dst dstName e.isDir
    makeLink K target dst dstName

/-- What a call that may fail leaves to report. -/
def reported (call : HostSys Unit) (rel : Path) (ctx : Ctx) : HostSys Ctx := do
  match ← call.attempt with
  | .error _ => pure (ctx.noteFailure rel)
  | .ok _ => pure ctx

/-- The part of `_sync_file` that is undone where it fails. -/
def writeFile (K : Kernel) (d : Path) (name : Name) (data : FileData) : HostSys Unit := do
  persistently K.faults d (openNewAt K.toKernel d (tempName name) data.mode)
    (openNewAt K.toKernel d (tempName name) data.mode)
  copyData K.toKernel d (tempName name) data.content
  copyFileMetadata K.toKernel d (tempName name) data
  act K.faults (·.renameAt d (tempName name) name)

def replaceFile (K : Kernel) (d : Path) (name : Name) (data : FileData) : HostSys Unit :=
  (writeFile K d name data).handle fun e => do
    (act K.faults (·.unlinkAt d (tempName name))).quietly
    .fail e

/-- `_sync_file` from where the source is opened; mode and time are those of the descriptor. -/
def transferFile (K : Kernel) (src : Path) (srcName : Name) (dst : Path) (dstName : Name) (rel : Path) (ctx : Ctx) :
    HostSys Ctx := do
  match ← (openRegularAt K.source src srcName).attempt with
  | .error _ => pure (ctx.noteFailure rel)
  | .ok data => reported (replaceFile K dst dstName data) rel ctx

/-- `_sync_file`: a directory is not replaced by a file. -/
def syncFile (K : Kernel) (src : Path) (srcName : Name) (dst : Path) (dstName : Name) (rel : Path) (ctx : Ctx) :
    HostSys Ctx := do
  match ← (query K.faults (·.lstatAt dst dstName)).attempt with
  | .ok (.dir _) => pure (ctx.noteFailure rel)
  | _ => transferFile K src srcName dst dstName rel ctx

/-! ## The first pass -/

/-- One entry of a level, its name under `rel`. -/
def recordEntry (K : Kernel) (rel src : Path) (name : Name) (x : Ctx × List Name) : HostSys (Ctx × List Name) := do
  let ctx := x.1.saw (rel ++ [name])
  match ← (query K.reads (·.lstatAt src name)).attempt with
  | .error _ => pure (ctx.noteFailure (rel ++ [name]), x.2)
  | .ok (.dir _) => pure (ctx, x.2 ++ [name])
  | .ok _ => pure (ctx, x.2)

/-- `_record_level`: the names of the subdirectories. -/
def recordLevel (K : Kernel) (rel src : Path) (ctx : Ctx) : HostSys (Ctx × List Name) := do
  match ← (query K.reads fun fs => .ok (fs.listdir src)).attempt with
  | .error _ => pure (if rel = [] then ctx.lostRoot else ctx.noteFailure rel, [])
  | .ok names => .thread (recordEntry K rel src) names (ctx, [])

/-- `Levels.pop`: a level that was parked is opened again. -/
def popLevel (F : Faults) : HostSys Unit := query F fun _ => .ok ()

/-- A subdirectory; `level` records what is in it. -/
def recordSub (K : Kernel) (level : Path → Path → Ctx → HostSys Ctx) (rel src : Path) (name : Name) (ctx : Ctx) :
    HostSys Ctx := do
  match ← (query K.reads (·.openDirAt src name)).attempt with
  | .error _ => pure (ctx.noteFailure (rel ++ [name]))
  | .ok sub => do
    let ctx ← level (rel ++ [name]) sub ctx
    popLevel K.reads
    pure ctx

/-- `_collect_rels`, `n` levels deep at most. -/
def collectRels (K : Kernel) : Nat → Path → Path → Ctx → HostSys Ctx
  | 0, _, _, ctx => pure ctx
  | n + 1, rel, src, ctx => do
    let x ← recordLevel K rel src ctx
    .thread (recordSub K (collectRels K n) rel src) x.2 x.1

/-! ## The second pass -/

/-- What is to be done about a regular file that `lstat` saw as `data`. -/
def fileOutcome (K : Kernel) (src : Path) (srcName : Name) (data : FileData) (dst : Path) (dstName : Name) :
    HostSys Meta := do
  if ← needsUpdate K src srcName data dst dstName then pure .rewrite
  else refreshFileMetadata K data dst dstName

/-- A regular file's turn. -/
def mirrorFile (K : Kernel) (src : Path) (srcName : Name) (data : FileData) (dst : Path) (dstName : Name) (rel : Path)
    (ctx : Ctx) : HostSys Ctx := do
  let outcome ← fileOutcome K src srcName data dst dstName
  if outcome = .rewrite then syncFile K src srcName dst dstName rel ctx else pure ctx

/-- A directory's turn: it goes on to the subdirectories unless it cannot be made. -/
def mirrorDir (K : Kernel) (dst : Path) (name : Name) (rel : Path) (x : Ctx × List Name) :
    HostSys (Ctx × List Name) := do
  match ← (syncDir K dst name).attempt with
  | .error _ => pure (x.1.noteFailure rel, x.2)
  | .ok _ => pure (x.1, x.2 ++ [name])

/-- One entry of `_mirror_entries`. -/
def mirrorEntry (K : Kernel) (rel src dst : Path) (name : Name) (x : Ctx × List Name) :
    HostSys (Ctx × List Name) := do
  let ctx := x.1.saw (rel ++ [name])
  match ← (query K.reads (·.lstatAt src name)).attempt with
  | .error _ => pure (ctx.noteFailure (rel ++ [name]), x.2)
  | .ok (.dir _) => mirrorDir K dst name (rel ++ [name]) (ctx, x.2)
  | .ok (.symlink _) => do
    let ctx ← reported (syncSymlink K src name dst name) (rel ++ [name]) ctx
    pure (ctx, x.2)
  | .ok (.file _ data) =>
    if K.special (src ++ [name]) then pure (ctx.skip (rel ++ [name]), x.2)
    else do
      let ctx ← mirrorFile K src name data dst name (rel ++ [name]) ctx
      pure (ctx, x.2)

/-- `_mirror_entries`: the names of the subdirectories that are there on both sides. -/
def mirrorEntries (K : Kernel) (rel src dst : Path) (ctx : Ctx) : HostSys (Ctx × List Name) := do
  match ← (query K.reads fun fs => .ok (fs.listdir src)).attempt with
  | .error _ => pure (ctx.noteFailure rel, [])
  | .ok names => .thread (mirrorEntry K rel src dst) names (ctx, [])

/-- `_apply_dir_metadata`: `copy_metadata` between two directories. -/
def applyDirMetadata (K : Kernel) (src dst : Path) : HostSys Unit := do
  let stat ← fstatDir K.reads src
  copyDirMetadata K.toKernel dst stat

/-- `Levels.pop` where a level has two descriptors. -/
def popBoth (K : Kernel) : HostSys Unit := do
  popLevel K.reads
  popLevel K.faults

/-- A subdirectory; `level` mirrors what is in it. -/
def mirrorSub (K : Kernel) (level : Path → Path → Path → Ctx → HostSys Ctx) (rel src dst : Path) (name : Name)
    (ctx : Ctx) : HostSys Ctx := do
  match ← (query K.reads (·.openDirAt src name)).attempt with
  | .error _ => pure (ctx.noteFailure (rel ++ [name]))
  | .ok subSrc => do
    match ← (query K.faults (·.openDirAt dst name)).attempt with
    | .error _ => do
      popBoth K
      pure (ctx.noteFailure (rel ++ [name]))
    | .ok subDst => do
      let ctx ← level (rel ++ [name]) subSrc subDst ctx
      popBoth K
      applyDirMetadata K subSrc subDst
      pure ctx

/-- `_mirror_at`, `n` levels deep at most. -/
def mirrorAt (K : Kernel) : Nat → Path → Path → Path → Ctx → HostSys Ctx
  | 0, _, _, _, ctx => pure ctx
  | n + 1, rel, src, dst, ctx => do
    let x ← mirrorEntries K rel src dst ctx
    .thread (mirrorSub K (mirrorAt K n) rel src dst) x.2 x.1

/-! ## The third pass -/

/-- `_listing_at` -/
def listingAt (F : Faults) (d : Path) : HostSys (List Name) := do
  match ← (query F fun fs => .ok (fs.listdir d)).attempt with
  | .error _ => pure []
  | .ok names => pure names

/-- What the third pass is to remove, and whether it is a directory. -/
abbrev Extras := List (Path × Bool)

/-- One entry of the destination; `level` collects from a directory. -/
def collectExtra (K : Kernel) (ctx : Ctx) (level : Path → Path → Extras → HostSys Extras) (rel d : Path)
    (name : Name) (extras : Extras) : HostSys Extras :=
  if rel ++ [name] ∈ ctx.skippedRels then pure extras
  else do
    match ← (query K.looks (·.lstatAt d name)).attempt with
    | .error _ => pure extras
    | .ok e =>
      if rel ++ [name] ∉ ctx.srcRels then pure (extras ++ [(rel ++ [name], e.isDir)])
      else if e.isDir then do
        match ← (query K.looks (·.openDirAt d name)).attempt with
        | .error _ => pure extras
        | .ok sub => do
          let extras ← level (rel ++ [name]) sub extras
          popLevel K.looks
          pure extras
      else pure extras

/-- `_collect_extras_at`, `n` levels deep at most. -/
def collectExtrasAt (K : Kernel) (ctx : Ctx) : Nat → Path → Path → Extras → HostSys Extras
  | 0, _, _, extras => pure extras
  | n + 1, rel, d, extras => do
    let names ← listingAt K.looks d
    .thread (collectExtra K ctx (collectExtrasAt K ctx n) rel d) names extras

/-- `_restore_dir_metadata` -/
def restoreDirMetadata (K : Kernel) (d : Path) : Option DirStat → HostSys Unit
  | none => pure ()
  | some stat => copyDirMetadata K.toKernel d stat

/-- A directory that is no target: `level` goes through it, and it gets back the mode and the time it
had. -/
def removeBelow (K : Kernel) (level : Path → Path → Ctx → HostSys (Ctx × Option DirStat)) (rel d : Path)
    (name : Name) (ctx : Ctx) : HostSys Ctx := do
  match ← (query K.looks (·.openDirAt d name)).attempt with
  | .error _ => pure ctx
  | .ok sub => do
    let x ← level (rel ++ [name]) sub ctx
    popLevel K.looks
    restoreDirMetadata K sub x.2
    pure x.1

/-- One entry of `_remove_extras_at`. -/
def removeExtra (K : Kernel) (targets : Extras) (level : Path → Path → Ctx → HostSys (Ctx × Option DirStat))
    (rel d : Path) (name : Name) (ctx : Ctx) : HostSys Ctx :=
  match targets.lookup (rel ++ [name]) with
  | some isDir => reported (unlinkRobust K.prunes d name isDir) (rel ++ [name]) ctx
  | none =>
    if rel ++ [name] ∈ ctx.skippedRels then pure ctx
    else do
      match ← (query K.looks (·.lstatAt d name)).attempt with
      | .ok (.dir _) => removeBelow K level rel d name ctx
      | _ => pure ctx

/-- `_remove_extras_at`, `n` levels deep at most: with what `fstat` said of the directory at first. -/
def removeExtrasAt (K : Kernel) (targets : Extras) : Nat → Path → Path → Ctx → HostSys (Ctx × Option DirStat)
  | 0, _, _, ctx => pure (ctx, none)
  | n + 1, rel, d, ctx => do
    let names ← listingAt K.looks d
    let saved ← (fstatDir K.looks d).optional
    let ctx ← Proc.thread (removeExtra K targets (removeExtrasAt K targets n) rel d) names ctx
    pure (ctx, saved)

/-- `_prune`. No entry is deeper than `depth`. -/
def prune (K : Kernel) (dst : Path) (ctx : Ctx) : HostSys Ctx := fun h =>
  if ctx.rootUnreadable then (.ok ctx, h)
  else
    (do
      let extras ← collectExtrasAt K ctx (Dirfd.depth h.fs + 1) [] dst []
      let x ← removeExtrasAt K extras (Dirfd.depth h.fs + 1) [] dst ctx
      restoreDirMetadata K dst x.2
      pure x.1 : HostSys Ctx) h

/-! ## A directory's transfer -/

/-- The first two passes. -/
def mirror (K : Kernel) (src dst : Path) : HostSys Ctx := fun h =>
  (do
    let ctx ← collectRels K (Dirfd.depth h.fs + 1) [] src .start
    mirrorAt K (Dirfd.depth h.fs + 1) [] src dst ctx : HostSys Ctx) h

/-- `_sync_directory` -/
def syncDirectory (K : Kernel) (delete : Bool) (src dst : Path) : HostSys Ctx := do
  let ctx ← mirror K src dst
  let ctx ← if delete then prune K dst ctx else pure ctx
  applyDirMetadata K src dst
  pure ctx

end ProotDistro.Sync
