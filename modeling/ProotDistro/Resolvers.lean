import ProotDistro.Guestfile
import ProotDistro.Paths

/-!
# The three resolvers agree

The extractor, the commands and the guest-file reader each walk a guest path on their own:
over components or absolute paths, by name or by descriptor, literal or strict about what is
missing. The commands' resolver takes the turns of the extractor's, and the guest-file reader
only goes where that one goes.

Lookups may be refused, for want of permission or because a path grows too long. Which ones is
given by the path looked up, and the two programs that take what is refused for missing then take a
link they could not see for a plain component.
-/

namespace ProotDistro

open Posix

/-- **The resolvers agree**, on every tree without l2s links, every path and every pattern of
refused lookups. The extractor's resolver (by name and off a descriptor) and the commands' refuse
together or give the same path below the root; that path has ordinary names, and a component of it
that is a link stands where the lookup was refused; what the guest-file resolver reaches is the
entry at that very path; and no loop of the three can go on for ever. -/
theorem resolvers_agree (R G : Refusals) (fs : Fs) (root : Path) (path : List Char)
    (hroot : fs.IsDir root) (hl2s : Guestfile.NoL2s fs root)
    (halike : ∀ q, R .readlink q = R .lstat q)
    (hwider : ∀ q, R .lstat q = true → G .lstat q = true) :
    let safe := TarExtract.safeResolvePartsIn R fs root (splitPath path)
    TarExtract.safeResolvePartsAtIn R fs root (splitPath path) = safe ∧
      Paths.resolveWithinRoot R fs root path = safe.map (root ++ ·) ∧
      (∀ p, safe = some p → (∀ c ∈ p, ValidName c) ∧
        ∀ r t, r <+: p → fs.get (root ++ r) = some (.symlink t) → R .lstat (root ++ r) = true) ∧
      (∀ dir name entry, Guestfile.resolve G fs root path = some (dir, name, entry) →
        ∃ p, safe = some p ∧ root ++ p = dir ++ [name] ∧ fs.get (root ++ p) = some entry) ∧
      WellFounded (fun after before =>
        Walk.Turn (TarExtract.safeResolveStepIn R fs [] root) before after) ∧
      WellFounded (fun after before => Walk.Turn (Paths.resolveStep R fs root) before after) ∧
      WellFounded fun after before =>
        Walk.Turn (Guestfile.resolveStep G fs root) before after := by
  intro safe
  have hslash : ∀ c ∈ splitPath path, Fs.NoSlash c := fun _ => Fs.noSlash_of_mem_splitPath
  refine ⟨TarExtract.safeResolvePartsAtIn_eq hroot, Paths.resolveWithinRoot_eq halike path,
    fun p hp => ?_, fun dir name entry h => Guestfile.resolve_spec halike hwider hl2s hroot h,
    Walk.turn_wellFounded _, Walk.turn_wellFounded _, Walk.turn_wellFounded _⟩
  have hres := TarExtract.safeResolvePartsIn_resolved hslash hp
  refine ⟨hres.valid, fun r t hr ht => ?_⟩
  by_cases hne : r = []
  · -- the root itself is a directory
    obtain ⟨m, hm⟩ := hroot
    rw [hne, List.append_nil, hm] at ht
    cases ht
  · exact hres.link r t hr hne ht

/-- A tree with an absolute link that a chroot re-roots, a cycle, and a link in a directory that
may be closed. -/
def linkedTree : Fs :=
  Fs.ofList [([['r']], .dir 0o755), ([['r'], ['d']], .dir 0o755),
    ([['r'], ['d'], ['f']], .file 0 ⟨[1], 0o644, 0⟩), ([['r'], ['x']], .dir 0o600),
    ([['r'], ['x'], ['l']], .symlink "/d".toList), ([['r'], ['a']], .symlink "/d".toList),
    ([['r'], ['c']], .symlink "c".toList)]

/-- Nothing below the directory `x` may be looked at. -/
def closedBelow : Refusals := fun _ q => [['r'], ['x']].isPrefixOf q && q.length != 2

theorem linkedTree_noL2s : Guestfile.NoL2s linkedTree [['r']] := by
  have hall : linkedTree.table.entries.all (fun x => !L2s.isL2sLink x.2) = true := by
    decide +kernel
  intro p t ht
  have := Fs.forall_get (P := fun _ e => (!L2s.isL2sLink e) = true) (List.all_eq_true.mp hall) ht
  simpa [L2s.isL2sLink] using this

theorem resolvers_agree_linkedTree :
    Paths.resolveWithinRoot closedBelow linkedTree [['r']] "/../a/f".toList =
        some [['r'], ['d'], ['f']] ∧
      Paths.resolveWithinRoot closedBelow linkedTree [['r']] "c/x".toList = none ∧
      Paths.resolveWithinRoot closedBelow linkedTree [['r']] "x/l".toList =
        some [['r'], ['x'], ['l']] := by
  have hroot : linkedTree.IsDir [['r']] := ⟨0o755, by decide +kernel⟩
  have hall := fun path => (resolvers_agree closedBelow closedBelow linkedTree [['r']] path hroot
    linkedTree_noL2s (fun _ => rfl) fun _ h => h).2.1
  exact ⟨(hall "/../a/f".toList).trans (by decide +kernel),
    (hall "c/x".toList).trans (by decide +kernel), (hall "x/l".toList).trans (by decide +kernel)⟩

/-- A link in a directory that may not be searched is a component of the answer. Where the reader of
guest files may look it up nevertheless, it reaches another entry; and where a link is seen but
may not be read, one of the two programs refuses and the other does not. -/
theorem refused_link_kept :
    (TarExtract.safeResolvePartsIn closedBelow linkedTree [['r']] [['x'], ['l']] =
        some [['x'], ['l']] ∧
      linkedTree.get [['r'], ['x'], ['l']] = some (.symlink "/d".toList)) ∧
      (TarExtract.safeResolvePartsIn closedBelow linkedTree [['r']] [['x'], ['l'], ['f']] =
        some [['x'], ['l'], ['f']] ∧
      Guestfile.resolve noRefusals linkedTree [['r']] "x/l/f".toList =
        some ([['r'], ['d']], ['f'], .file 0 ⟨[1], 0o644, 0⟩)) ∧
      let unread : Refusals := fun look q => look == .readlink && closedBelow look q
      TarExtract.safeResolvePartsIn unread linkedTree [['r']] (splitPath "x/l".toList) = none ∧
        Paths.resolveWithinRoot unread linkedTree [['r']] "x/l".toList =
          some [['r'], ['x'], ['l']] := by
  refine ⟨⟨?_, ?_⟩, ⟨?_, ?_⟩, ?_, ?_⟩ <;> decide +kernel

end ProotDistro
