import ProotDistro.LayerDiff.FilesLayer

/-!
# `copy_step`: a file map written into the rootfs

`materialiseFiles` is the half of COPY and ADD that changes the stage's rootfs: every entry of
the map, in the order of the names, is resolved below the rootfs like a guest path, walked to
off the rootfs descriptor and written there.

A `BuildError` stands for the error it reports; its text is left out. Files get the time of
the write, which is not modelled.

* **`materialiseItem_cases`** — all that one entry of the map can do to the tree.
-/

namespace ProotDistro

open Posix Dirfd TarExtract LayerDiff

namespace CopyStep

def dropEntryAt (d : Path) (name : Name) : Sys Unit := unlinkQuietly d name

/-- Write one entry of the map into the directory `d`. -/
def materialiseEntry (umask : Mode) (d : Path) (name : Name) (entry : MapEntry) : Sys Unit :=
  match entry with
  | .dir mode _ => replaceDir umask d name (mode.getD 0o755)
  | .symlink target _ _ => do
    dropEntryAt d name
    .change (·.symlinkAt target d name)
  | .file root rel mode => do
    let data ← .look (openSource root rel)
    writeNew umask d name data.content (mode.getD 0o644)

/-- One turn of the loop of `_materialise_files`. -/
def materialiseItem (umask : Mode) (rootfs : Path) (item : List Char × MapEntry) : Sys Unit :=
  match layerPathParts item.1 with
  | none => pure ()
  | some parts => do
    match ← resolveAt rootfs parts.dropLast with
    | none => pure ()
    | some resolved => do
      let d ← descendAt umask true rootfs resolved
      materialiseEntry umask d (parts.getLastD []) item.2

def materialiseFiles (umask : Mode) (rootfs : Path) (fileMap : FileMap) : Sys Unit :=
  .each (materialiseItem umask rootfs) (sortedItems fileMap)

/-! ## One entry -/

/-- What an entry puts at its place, if it can be written. -/
def entryShape (fs : Fs) : MapEntry → Option Shape
  | .dir mode _ => some (.dir (mode.getD 0o755))
  | .symlink target _ _ => if target = [] then none else some (.symlink target)
  | .file root rel mode =>
    (openSource root rel fs).toOption.map fun data => .file data.content (mode.getD 0o644)

section Entries

variable {umask : Mode} {fs fs' : Fs} {d rootfs : Path} {name : Name} {entry : MapEntry}
  {item : List Char × MapEntry}

/-- An entry that is written stands at its place alone; a directory has not replaced a file,
nor anything else a directory. -/
theorem materialiseEntry_ok (hv : ValidName name) (hd : fs.IsDir d)
    (h : materialiseEntry umask d name entry fs = (.ok (), fs')) :
    ∃ s, entryShape fs entry = some s ∧ fs'.shape (d ++ [name]) = some s ∧
      (∀ q, q ≠ d ++ [name] → fs'.get q = fs.get q) ∧
      (s.isDir = false → ¬ fs.IsDir (d ++ [name])) ∧
      (s.isDir = true → ∀ i data, fs.get (d ++ [name]) ≠ some (.file i data)) := by
  unfold materialiseEntry at h
  cases entry with
  | dir mode mtime =>
    simp only at h
    have hfile : ∀ i data, fs.get (d ++ [name]) ≠ some (.file i data) := by
      intro i data hi
      rw [replaceDir_of_file hi, Prod.mk.injEq] at h
      cases h.1
    obtain ⟨fs₁, hrun, hget⟩ := replaceDir_of_not_file umask (mode.getD 0o755) hv hd hfile
    rw [hrun, Prod.mk.injEq] at h
    obtain ⟨-, rfl⟩ := h
    refine ⟨.dir (mode.getD 0o755), rfl, ?_, fun q hq => by rw [hget, if_neg hq],
      fun hs => absurd hs (by simp [Shape.isDir]), fun _ => hfile⟩
    exact Fs.shape_of_get (by rw [hget, if_pos rfl])
  | symlink target mode mtime =>
    simp only [dropEntryAt] at h
    -- a directory keeps the name, so the link is not made
    have hfree : ¬ fs.IsDir (d ++ [name]) := by
      rintro ⟨m, hm⟩
      have hunlink : unlinkAt d name fs = (.error .EISDIR, fs) :=
        Proc.change_of_error (Fs.unlinkAt_of_dir (by rw [Fs.locate_valid hv]; exact ⟨m, hm⟩))
      obtain ⟨e, hlink⟩ : ∃ e, (Proc.change (·.symlinkAt target d name) : Sys Unit) fs = (.error e, fs) := by
        obtain ⟨e, herr⟩ := Fs.mknodAt_of_taken hm
        exact ⟨e, Proc.change_of_error herr⟩
      have hrun := (Proc.bind_of_ok (Proc.quietly_of_error hunlink)).symm.trans h
      rw [hlink, Prod.mk.injEq] at hrun
      cases hrun.1
    -- the name is free after the unlink, whatever held it
    obtain ⟨fs₁, hunlink, hget₁⟩ : ∃ fs₁, unlinkQuietly d name fs = (.ok (), fs₁) ∧
        ∀ q, fs₁.get q = if q = d ++ [name] then none else fs.get q := by
      cases hg : fs.get (d ++ [name]) with
      | none =>
        refine ⟨fs, ?_, fun q => ?_⟩
        · rw [unlinkQuietly, Proc.quietly_ok]
          have herr : fs.unlinkAt d name = .error .ENOENT := by
            unfold Fs.unlinkAt
            split <;> rename_i hl <;> rw [Fs.locate_valid hv, hg] at hl <;> first | rfl | cases hl
          rw [show unlinkAt d name fs = (.error .ENOENT, fs) from Proc.change_of_error herr]
        · split
          · rename_i hq
            rw [hq, hg]
          · rfl
      | some e =>
        have he : e.isDir = false := by
          cases e with
          | dir m => exact absurd ⟨m, hg⟩ hfree
          | file i data => rfl
          | symlink t => rfl
        obtain ⟨fs₁, hfs₁⟩ := Fs.unlinkAt_of_some hg he
        obtain ⟨-, hget⟩ := Fs.unlinkAt_ok hfs₁
        rw [Fs.locate_valid hv] at hget
        exact ⟨fs₁, Proc.quietly_of_ok (Proc.change_of_ok hfs₁), hget⟩
    rw [Proc.bind_of_ok hunlink] at h
    have hsym : fs₁.mknodAt d name (.symlink target) = .ok fs' := by
      rcases hmk : fs₁.symlinkAt target d name with e | fs₂
      · rw [Proc.change_of_error hmk, Prod.mk.injEq] at h
        cases h.1
      · rw [Proc.change_of_ok hmk, Prod.mk.injEq] at h
        rw [← h.2]
        exact hmk
    obtain ⟨-, -, -, hget₂⟩ := Fs.mknodAt_ok hsym
    have hthere : fs'.get (d ++ [name]) = some (.symlink target) := by rw [hget₂, if_pos rfl]
    refine ⟨.symlink target, if_neg (Fs.target_of_get hthere), Fs.shape_of_get hthere,
      fun q hq => by rw [hget₂, if_neg hq, hget₁, if_neg hq], fun _ => hfree,
      fun hs => absurd hs (by simp [Shape.isDir])⟩
  | file root rel mode =>
    simp only at h
    cases hsrc : openSource root rel fs with
    | error e =>
      rw [Proc.bind_look_of_error hsrc, Prod.mk.injEq] at h
      cases h.1
    | ok data =>
      rw [Proc.bind_look_of_ok hsrc] at h
      -- nor is a file written over a directory
      have hfree : ¬ fs.IsDir (d ++ [name]) := by
        intro hdir
        rw [writeNew_of_isDir hdir, Prod.mk.injEq] at h
        cases h.1
      obtain ⟨fs₁, ino, hrun, hget, -⟩ :=
        writeNew_of_not_isDir umask data.content (mode.getD 0o644) hv hd hfree
      rw [hrun, Prod.mk.injEq] at h
      obtain ⟨-, rfl⟩ := h
      refine ⟨.file data.content (mode.getD 0o644), ?_,
        Fs.shape_of_get (by rw [hget, if_pos rfl]), fun q hq => by rw [hget, if_neg hq],
        fun _ => hfree, fun hs => absurd hs (by simp [Shape.isDir])⟩
      show (openSource root rel fs).toOption.map _ = _
      rw [hsrc]
      rfl

/-- Directories on the way to `pp`: the levels that are missing are made. -/
structure Descended (umask : Mode) (rootfs pp : Path) (fs fs₁ : Fs) : Prop where
  levels : ∀ r, r <+: pp → fs.get (rootfs ++ r) = none ∨ fs.IsDir (rootfs ++ r)
  get : ∀ q, fs₁.get q =
    if fs.get q = none ∧ rootfs <+: q ∧ q <+: rootfs ++ pp then some (.dir (newDirMode umask))
    else fs.get q

/-- Every part of the way down is a directory. -/
theorem Descended.isDir {pp : Path} {fs₁ : Fs} (h : Descended umask rootfs pp fs fs₁) {r : Path}
    (hr : r <+: pp) : fs₁.IsDir (rootfs ++ r) := by
  rcases h.levels r hr with hnone | ⟨m, hm⟩
  · refine ⟨newDirMode umask, ?_⟩
    rw [h.get, if_pos ⟨hnone, List.prefix_append _ _, (List.prefix_append_right_inj _).mpr hr⟩]
  · refine ⟨m, ?_⟩
    rw [h.get, hm, if_neg (by simp)]

/-- A walk that arrives has met directories and free names only. -/
theorem descended_of_ok {pp d : Path} (hv : ∀ c ∈ pp, ValidName c) (hroot : fs.IsDir rootfs)
    (h : descendAt umask true rootfs pp fs = (.ok d, fs')) :
    d = rootfs ++ pp ∧ Descended umask rootfs pp fs fs' := by
  have hlevels : ∀ r, r <+: pp → fs.get (rootfs ++ r) = none ∨ fs.IsDir (rootfs ++ r) := by
    intro r hr
    by_contra hno
    rw [not_or] at hno
    obtain ⟨e, he⟩ := Option.ne_none_iff_exists'.mp hno.1
    obtain ⟨err, herr⟩ : ∃ err, descendAt umask true rootfs pp fs = (.error err, fs) :=
      descendAt_blocked hv hr he hno.2 hroot
    rw [herr, Prod.mk.injEq] at h
    cases h.1
  obtain ⟨fs₁, hrun, hget⟩ : ∃ fs₁,
      descendAt umask true rootfs pp fs = (.ok (rootfs ++ pp), fs₁) ∧ _ :=
    descendAt_create hv hroot hlevels
  rw [hrun, Prod.mk.injEq, Except.ok.injEq] at h
  exact ⟨h.1.symm, hlevels, h.2 ▸ hget⟩

/-- What one item of the map does, where it does not end the step: nothing, if its name
escapes or its parent does not resolve; otherwise it is written where its parent leads. -/
theorem materialiseItem_cases (hroot : fs.IsDir rootfs)
    (h : materialiseItem umask rootfs item fs = (.ok (), fs')) :
    (layerPathParts item.1 = none ∧ fs' = fs) ∨
    (∃ p x, layerPathParts item.1 = some (p ++ [x]) ∧ fs.chroot rootfs p = none ∧ fs' = fs) ∨
    ∃ p x pp fs₁ s, layerPathParts item.1 = some (p ++ [x]) ∧
      fs.chroot rootfs p = some pp ∧ Descended umask rootfs pp fs fs₁ ∧
      entryShape fs₁ item.2 = some s ∧ fs'.shape (rootfs ++ (pp ++ [x])) = some s ∧
      (∀ q, q ≠ rootfs ++ (pp ++ [x]) → fs'.get q = fs₁.get q) ∧
      (s.isDir = false → ¬ fs₁.IsDir (rootfs ++ (pp ++ [x]))) ∧
      (s.isDir = true → ∀ i data, fs₁.get (rootfs ++ (pp ++ [x])) ≠ some (.file i data)) := by
  unfold materialiseItem at h
  cases hparts : layerPathParts item.1 with
  | none =>
    rw [hparts] at h
    simp only [Proc.pure_apply, Prod.mk.injEq] at h
    exact .inl ⟨rfl, h.2.symm⟩
  | some parts =>
    rw [hparts] at h
    right
    obtain ⟨hne, hv⟩ := layerPathParts_some hparts
    obtain ⟨p, x, rfl⟩ := (List.eq_nil_or_concat' parts).resolve_left hne
    have hp : ∀ c ∈ p, ValidName c := fun c hc => hv c (by simp [hc])
    have hlook : resolveAt rootfs p fs = (.ok (fs.chroot rootfs p), fs) := by
      unfold resolveAt
      rw [Proc.look_apply, safeResolvePartsAt_eq_chroot hroot fun c hc => (hp c hc).no_slash]
    simp only [List.dropLast_concat, List.getLastD_concat] at h
    rw [Proc.bind_of_ok hlook] at h
    cases hres : fs.chroot rootfs p with
    | none =>
      rw [hres] at h
      simp only [Proc.pure_apply, Prod.mk.injEq] at h
      exact .inl ⟨p, x, rfl, hres, h.2.symm⟩
    | some pp =>
      rw [hres] at h
      simp only at h
      have hpp : ∀ c ∈ pp, ValidName c :=
        (Fs.chroot_resolved (fun c hc => (hp c hc).no_slash) hres).valid
      rcases hdesc : descendAt umask true rootfs pp fs with ⟨r, fs₁⟩
      cases r with
      | error e =>
        rw [Proc.bind_of_error hdesc, Prod.mk.injEq] at h
        cases h.1
      | ok d =>
        rw [Proc.bind_of_ok hdesc] at h
        obtain ⟨rfl, hdescended⟩ := descended_of_ok hpp hroot hdesc
        have hdir := hdescended.isDir (List.prefix_refl pp)
        obtain ⟨s, hs, hshape, hrest⟩ := materialiseEntry_ok (hv x (by simp)) hdir h
        rw [List.append_assoc] at hshape hrest
        exact .inr ⟨p, x, pp, fs₁, s, rfl, hres, hdescended, hs, hshape, hrest⟩

end Entries

end CopyStep

end ProotDistro
