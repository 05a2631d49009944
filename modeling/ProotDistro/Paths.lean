import ProotDistro.TarExtract

/-!
# `paths`: specs resolved below a container's root

A command names a file inside a container as `NAME:path`; `resolveWithinRoot` walks the
path below the container's root. It carries one absolute path along and asks the kernel
whether what it has composed is a link, and so is a different program from the extractor's
resolver for the same rule (`resolveWithinRoot_eq`).
-/

namespace ProotDistro

open Posix TarExtract

namespace Paths

def maxSymlinkHops : Nat := 40

/-- One turn of the loop of `_resolve_within_root`: `resolved` is absolute and starts as
`root`. -/
def resolveStep (R : Refusals) (fs : Fs) (root resolved : Path) (part : Name) :
    Walk.Step Path Name Unit :=
  if part = [] ∨ part = ['.'] then .next resolved
  else if part = ['.', '.'] then
    if resolved ≠ root then .next resolved.dropLast else .next resolved
  else
    match fs.readlinkPathIn R [] (resolved ++ [part]) with
    | .error _ => .next (resolved ++ [part])
    | .ok target => .link (if target.head? = some '/' then root else resolved) (splitPath target)

/-- The absolute path `relPath` leads to under `root`; `none` where the program exits. -/
def resolveWithinRoot (R : Refusals) (fs : Fs) (root : Path) (relPath : List Char) : Option Path :=
  (Walk.run (resolveStep R fs root) () maxSymlinkHops root (splitPath relPath)).toOption

section Resolve

variable {R : Refusals} {fs : Fs} {root : Path}

/-- The two programs take the same turns, if a link that may be looked up may be read. -/
theorem resolveStep_eq (halike : ∀ q, R .readlink q = R .lstat q) (p : Path) (c : Name) :
    resolveStep R fs root (root ++ p) c = (safeResolveStepIn R fs [] root p c).map (root ++ ·) := by
  unfold resolveStep safeResolveStepIn
  by_cases h₁ : c = [] ∨ c = ['.']
  · rw [if_pos h₁, if_pos h₁]
    rfl
  · rw [if_neg h₁, if_neg h₁]
    by_cases h₂ : c = ['.', '.']
    · rw [if_pos h₂, if_pos h₂]
      by_cases hp : p = []
      · rw [if_neg (by simp [hp]), hp]
        rfl
      · rw [if_pos (by simpa using hp), List.dropLast_append_of_ne_nil hp]
        rfl
    · rw [if_neg h₂, if_neg h₂]
      have happ : root ++ p ++ [c] = root ++ (p ++ [c]) := List.append_assoc root p [c]
      unfold Fs.readlinkPathIn Fs.lstatPathIn
      rw [happ, halike, List.nil_append]
      -- one program looks and then reads, the other reads at once
      cases R .lstat (root ++ (p ++ [c])) with
      | true => rfl
      | false =>
        rw [if_neg (by simp), if_neg (by simp)]
        unfold Fs.readlinkPath
        cases fs.lstatPath [] (root ++ (p ++ [c])) with
        | error e => rfl
        | ok e =>
          cases e with
          | dir m => rfl
          | file i data => rfl
          | symlink t =>
            show Walk.Step.link (if t.head? = some '/' then root else root ++ p) (splitPath t) =
              Walk.Step.link (root ++ if t.head? = some '/' then [] else p) (splitPath t)
            congr 1
            split <;> simp

/-- The command's resolver is the extractor's, spelled with absolute paths. -/
theorem resolveWithinRoot_eq (halike : ∀ q, R .readlink q = R .lstat q) (relPath : List Char) :
    resolveWithinRoot R fs root relPath =
      (safeResolvePartsIn R fs root (splitPath relPath)).map (root ++ ·) := by
  have hrun := Walk.run_map (root ++ ·) (fun _ => True) (fun _ => True) (resolveStep R fs root)
    (safeResolveStepIn R fs [] root) () (fun p c _ _ => resolveStep_eq halike p c)
    (fun _ _ _ _ _ _ => trivial) (fun _ _ _ _ _ _ _ => ⟨trivial, fun _ _ => trivial⟩)
    40 [] (splitPath relPath) trivial fun _ _ => trivial
  rw [List.append_nil] at hrun
  unfold resolveWithinRoot safeResolvePartsIn maxSymlinkHops
  rw [hrun]
  cases Walk.run (safeResolveStepIn R fs [] root) () 40 [] (splitPath relPath) <;> rfl

end Resolve

end Paths

end ProotDistro
