import ProotDistro.Dirfd
import ProotDistro.Posix.PathString

/-!
# `l2s`: proot's stand-ins for hard links

`--link2symlink` replaces a hard link with a symbolic link to an intermediate file, known by
the prefix of its name. Its target is a path of the *host*, so it is the one kind of link a
walk below the rootfs does not re-root.
-/

namespace ProotDistro

open Posix

namespace L2s

def namePrefixes : List Name := [".proot.l2s.".toList, ".l2s.".toList]

/-- A link target that looks like an intermediate file. -/
def isL2sTarget (target : List Char) : Bool :=
  namePrefixes.any (·.isPrefixOf (basename target))

/-- An entry that is an l2s link. -/
def isL2sLink : Entry → Bool
  | .symlink target => isL2sTarget target
  | _ => false

/-- The file an l2s link stands for, when it lies within the rootfs; `linkDir` is the
directory the link is in. -/
def resolveL2sTarget (R : Refusals) (fs : Fs) (linkDir : Path) (target : List Char)
    (rootfs : Path) : Option Path :=
  if isL2sTarget target = false then none
  else
    let absTarget :=
      if target.head? = some '/' then splitPath target else linkDir ++ splitPath target
    if fs.realpathIn R rootfs <+: fs.realpathIn R absTarget then some (fs.realpathIn R absTarget)
    else none

/-- A target that is not one of the extension's is not resolved. -/
theorem resolveL2sTarget_of_not_l2s {R : Refusals} {fs : Fs} {linkDir rootfs : Path}
    {target : List Char} (h : isL2sTarget target = false) :
    resolveL2sTarget R fs linkDir target rootfs = none := by
  unfold resolveL2sTarget
  rw [if_pos h]

/-- What the file named by `resolveL2sTarget` holds, read through a walk off the rootfs
descriptor that follows no link. -/
def openL2sBacking (R : Refusals) (fs : Fs) (rootfs l2sPath : Path) : Option FileData :=
  if fs.realpathIn R rootfs <+: l2sPath then
    let parts := l2sPath.drop (fs.realpathIn R rootfs).length
    match parts.getLast? with
    | none => none
    | some name =>
      if R .opendir rootfs then none
      else
        match fs.openDirsIn R rootfs parts.dropLast with
        | none => none
        | some fd =>
          if R .read (fd ++ [name]) then none else (Dirfd.readRegular fd name fs).toOption
  else none

end L2s

end ProotDistro
