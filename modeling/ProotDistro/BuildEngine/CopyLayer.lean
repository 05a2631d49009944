import ProotDistro.BuildEngine.CopyStep
import ProotDistro.LayerDiff.RoundTrip

/-!
# A COPY or ADD step and its layer

The step writes the files of its map into the rootfs and packs the same map into a layer; a
later build or an install applies that layer to the tree the step started from.
`copy_layer_agrees` says when both leave the same tree, for maps of any shape, with links
among their entries that later entries are written through.

The two differ in one thing: the layer names every directory above an entry in front of the
entries, with mode 755, and the rootfs gets these directories when an entry needs them, with
the mode the umask leaves, or has them already. `Alike` is what holds of the two trees in
between: the same everywhere but at such directories, and there only as long as an entry is
still to come that makes the directory, or gives it its mode, in the rootfs too (`Pending`).
-/

namespace ProotDistro

open Posix Dirfd TarExtract LayerDiff

namespace CopyStep

/-- The directories the layer names above the entries of the map. -/
def mapParents (fileMap : FileMap) : List Path := parentDirs ((sortedItems fileMap).map (·.1))

/-- The map has a directory of its own at `q`. -/
def DirEntryAt (items : FileMap) (q : Path) : Prop :=
  ∃ mode mtime, (joinPath q, .dir mode mtime) ∈ items

/-- The rootfs after the first `k` items. -/
def materialisedTo (umask : Mode) (rootfs : Path) (fileMap : FileMap) (before : Fs) (k : Nat) : Fs :=
  (Proc.each (materialiseItem umask rootfs) ((sortedItems fileMap).take k) before).2

/-- Where an item is written in a tree. -/
def landing (fs : Fs) (rootfs : Path) (item : List Char × MapEntry) : Option Path :=
  match layerPathParts item.1 with
  | none => none
  | some parts =>
    (safeResolvePartsAt fs rootfs parts.dropLast).map fun pp => pp ++ [parts.getLastD []]

/-- A file has a mode, and its source is not in the rootfs. -/
def FromOutside (rootfs : Path) : MapEntry → Prop
  | .file root rel mode =>
    mode.isSome ∧ (∀ c ∈ rel, ValidName c) ∧ ¬ rootfs <+: root ++ rel
  | .dir _ _ | .symlink _ _ _ => True

instance (rootfs : Path) (entry : MapEntry) : Decidable (FromOutside rootfs entry) := by
  cases entry <;> unfold FromOutside <;> infer_instance

/-- What a map and a tree have to be like for the layer to do what the step does. -/
structure Agreeable (umask : Mode) (rootfs : Path) (fileMap : FileMap) (before : Fs) : Prop where
  /-- names are written the way the enumeration writes them -/
  canonical : ∀ item ∈ fileMap, ∀ parts, layerPathParts item.1 = some parts →
    item.1 = joinPath parts
  /-- no component of a name reads as a whiteout -/
  no_marker : ∀ item ∈ fileMap, ∀ parts, layerPathParts item.1 = some parts →
    ∀ c ∈ parts, isWhiteout c = false
  /-- files come with a mode, from outside the rootfs -/
  source : ∀ item ∈ fileMap, FromOutside rootfs item.2
  /-- a directory above an entry is no link or file, and has mode 755 in the end: because the
  map says which mode it has, or has it already, or gets it from the umask -/
  parent : ∀ s ∈ mapParents fileMap,
    (before.get (rootfs ++ s) = none ∧
      (newDirMode umask ||| 0o700 = 0o755 ∨ DirEntryAt fileMap s)) ∨
    ∃ m, before.get (rootfs ++ s) = some (.dir m) ∧ (m ||| 0o700 = 0o755 ∨ DirEntryAt fileMap s)
  /-- no file is written, through a link, where the layer has such a directory -/
  no_overlap : ∀ k, (hk : k < (sortedItems fileMap).length) →
    (sortedItems fileMap)[k].2.isFile = true →
    ∀ q ∈ landing (materialisedTo umask rootfs fileMap before k) rootfs (sortedItems fileMap)[k],
      q ∉ mapParents fileMap

/-! ## The two trees in between -/

/-- A directory the layer has made already, and what is still to come: an entry below it,
for which the rootfs will have it too, or the map's own entry for it. -/
def Pending (umask : Mode) (rootfs : Path) (todo : FileMap) (made : Fs) (q : Path) : Prop :=
  (made.get (rootfs ++ q) = none ∧
    (∃ item ∈ todo, ∃ parts, layerPathParts item.1 = some parts ∧ q <+: parts ∧ q ≠ parts) ∧
    (newDirMode umask ||| 0o700 = 0o755 ∨ DirEntryAt todo q)) ∨
  made.IsDir (rootfs ++ q) ∧ DirEntryAt todo q

structure Alike (umask : Mode) (rootfs root : Path) (parents : List Path) (todo : FileMap)
    (made layered : Fs) : Prop where
  made_root : made.IsDir rootfs
  layered_root : layered.IsDir root
  same : ∀ q, viewAt layered root q = viewAt made rootfs q ∨
    q ∈ parents ∧ viewAt layered root q = some (.dir 0o755) ∧ Pending umask rootfs todo made q

section Trees

variable {umask : Mode} {rootfs root p q pp : Path} {parents : List Path} {todo : FileMap}
  {item : List Char × MapEntry} {made layered fs : Fs} {x : Name}

/-- A link is seen with its target. -/
theorem viewAt_eq_link {t : List Char} :
    viewAt fs root q = some (.symlink t) ↔ fs.get (root ++ q) = some (.symlink t) := by
  constructor
  · intro h
    unfold viewAt Fs.shape at h
    rw [Option.map_map] at h
    obtain ⟨e, he, howned⟩ := Option.map_eq_some_iff.mp h
    cases e with
    | dir m => cases howned
    | file i d => cases howned
    | symlink t' =>
      cases howned
      exact he
  · intro h
    rw [viewAt_of_get h]
    rfl

/-- The two trees have the same links, so a path leads to the same place in both. -/
theorem Alike.chroot_eq (h : Alike umask rootfs root parents todo made layered)
    (parts : List Name) : layered.chroot root parts = made.chroot rootfs parts := by
  refine Fs.chroot_congr (fun q t => ?_) parts
  rw [← viewAt_eq_link, ← viewAt_eq_link]
  rcases h.same q with heq | ⟨-, hdir, hpending⟩
  · rw [heq]
  · have hmade : viewAt made rootfs q ≠ some (.symlink t) := by
      rw [Ne, viewAt_eq_link]
      rcases hpending with ⟨hnone, -⟩ | ⟨⟨m, hm⟩, -⟩
      · rw [hnone]
        simp
      · rw [hm]
        simp
    rw [hdir]
    simp [hmade]

/-- An entry below a directory that only the layer has made is written under its own path. -/
theorem Alike.chroot_of_pending (h : Alike umask rootfs root parents todo made layered)
    (hv : ∀ c ∈ p, ValidName c) (hq : q <+: p) (hnone : made.get (rootfs ++ q) = none)
    (hdir : layered.IsDir (root ++ q)) : made.chroot rootfs p = some p := by
  refine Fs.chroot_of_noLink hv fun r t hr _ ht => ?_
  rcases List.prefix_or_prefix_of_prefix hq hr with hqr | hrq
  · -- what stands at `r` has `q` above it
    obtain ⟨u, rfl⟩ := hqr
    by_cases hu : u = []
    · rw [hu, List.append_nil, hnone] at ht
      cases ht
    · rw [← List.append_assoc] at ht
      obtain ⟨m, hm⟩ := Fs.isDir_of_append hu ht
      rw [hnone] at hm
      cases hm
  · -- a link above `q` would be one in the layer's tree too
    obtain ⟨u, rfl⟩ := hrq
    rw [← List.append_assoc] at hdir
    obtain ⟨m, hm⟩ := hdir.of_append
    have hview := viewAt_eq_link.mpr ht
    rcases h.same r with heq | ⟨-, -, hpending⟩
    · rw [← heq, viewAt_eq_link, hm] at hview
      cases hview
    · rcases hpending with ⟨hn, -⟩ | ⟨⟨m', hm'⟩, -⟩
      · rw [hn] at ht
        cases ht
      · rw [hm'] at ht
        cases ht

/-- So is the map's own entry for a directory the layer has. -/
theorem Alike.chroot_of_isDir (h : Alike umask rootfs root parents todo made layered)
    (hv : ∀ c ∈ p, ValidName c) (hdir : layered.IsDir (root ++ (p ++ [x]))) :
    made.chroot rootfs p = some p := by
  rw [← h.chroot_eq]
  rw [← List.append_assoc] at hdir
  exact Fs.chroot_of_isDir hv hdir.of_append

/-- An item that has nothing to do with a directory is not what it waits for. -/
theorem pending_tail (h : Pending umask rootfs (item :: todo) made q)
    (hbelow : made.get (rootfs ++ q) = none → ∀ parts, layerPathParts item.1 = some parts →
      q <+: parts → q ≠ parts → False)
    (hself : ∀ mode mtime, item ≠ (joinPath q, .dir mode mtime)) :
    Pending umask rootfs todo made q := by
  have hentry : DirEntryAt (item :: todo) q → DirEntryAt todo q := by
    rintro ⟨mode, mtime, hmem⟩
    exact ⟨mode, mtime, (List.mem_cons.mp hmem).resolve_left fun heq => hself mode mtime heq.symm⟩
  rcases h with ⟨hnone, ⟨item', hmem, parts, hparts, hpre, hne⟩, hmode⟩ | ⟨hdir, hde⟩
  · refine .inl ⟨hnone, ⟨item', ?_, parts, hparts, hpre, hne⟩, hmode.imp_right hentry⟩
    refine (List.mem_cons.mp hmem).resolve_left ?_
    rintro rfl
    exact hbelow hnone parts hparts hpre hne
  · exact .inr ⟨hdir, hentry hde⟩

/-- An item that is passed over changes neither tree. -/
theorem Alike.skip (hparents : ∀ s ∈ parents, s ≠ [] ∧ ∀ c ∈ s, ValidName c)
    (h : Alike umask rootfs root parents (item :: todo) made layered)
    (hskip : ∀ p x, layerPathParts item.1 = some (p ++ [x]) → made.chroot rootfs p = none) :
    Alike umask rootfs root parents todo made layered := by
  refine ⟨h.made_root, h.layered_root, fun q => ?_⟩
  rcases h.same q with heq | ⟨hq, hview, hpending⟩
  · exact .inl heq
  · refine .inr ⟨hq, hview, pending_tail hpending ?_ ?_⟩
    · intro hnone parts hparts hpre hne
      obtain ⟨hnil, hv⟩ := layerPathParts_some hparts
      obtain ⟨p, x, rfl⟩ := (List.eq_nil_or_concat' parts).resolve_left hnil
      have hqp := (List.prefix_concat_iff.mp hpre).resolve_left hne
      have hres := h.chroot_of_pending (fun c hc => hv c (by simp [hc])) hqp hnone
        (isDir_iff_viewAt.mpr ⟨_, hview⟩)
      rw [hskip p x hparts] at hres
      cases hres
    · rintro mode mtime rfl
      obtain ⟨hnil, hv⟩ := hparents q hq
      obtain ⟨p, x, rfl⟩ := (List.eq_nil_or_concat' q).resolve_left hnil
      have hres := h.chroot_of_isDir (fun c hc => hv c (by simp [hc]))
        (isDir_iff_viewAt.mpr ⟨_, hview⟩)
      rw [hskip p x (layerPathParts_joinPath hnil hv)] at hres
      cases hres

/-- The descent shows the directories it made, and nothing else new. -/
theorem Descended.viewAt_eq {made₁ : Fs} (h : Descended umask rootfs pp made made₁) (q : Path) :
    viewAt made₁ rootfs q =
      if made.get (rootfs ++ q) = none ∧ q <+: pp then some (owned (.dir (newDirMode umask)))
      else viewAt made rootfs q := by
  unfold viewAt Fs.shape
  rw [h.get]
  simp only [List.prefix_append, true_and, List.prefix_append_right_inj]
  split <;> rfl

/-- The walk to an entry's directory arrives in the layer's tree as well. -/
theorem Alike.descend {made₁ : Fs} (h : Alike umask rootfs root parents todo made layered)
    (hv : ∀ c ∈ pp, ValidName c) (hmade : Descended umask rootfs pp made made₁) :
    ∃ layered₁, descendAt umask true root pp layered = (.ok (root ++ pp), layered₁) ∧
      Descended umask root pp layered layered₁ := by
  have hlevels : ∀ r, r <+: pp → layered.get (root ++ r) = none ∨ layered.IsDir (root ++ r) := by
    intro r hr
    rcases h.same r with heq | ⟨-, hdir, -⟩
    · rcases hmade.levels r hr with hnone | hdir
      · rw [viewAt_eq_none.mpr hnone] at heq
        exact .inl (viewAt_eq_none.mp heq)
      · obtain ⟨m, hm⟩ := isDir_iff_viewAt.mp hdir
        rw [hm] at heq
        exact .inr (isDir_iff_viewAt.mpr ⟨m, heq⟩)
    · exact .inr (isDir_iff_viewAt.mpr ⟨_, hdir⟩)
  obtain ⟨layered₁, hrun, hget⟩ : ∃ layered₁,
      descendAt umask true root pp layered = (.ok (root ++ pp), layered₁) ∧ _ :=
    descendAt_create hv h.layered_root hlevels
  exact ⟨layered₁, hrun, hlevels, hget⟩

/-- An entry that is written in the rootfs is written by its member, and the trees go on
alike. -/
theorem Alike.write {made₁ made' : Fs} {s s' : Shape} {m : Member} (acc : Deferred)
    (hparents : ∀ s ∈ parents, s ≠ [] ∧ ∀ c ∈ s, ValidName c)
    (h : Alike umask rootfs root parents (item :: todo) made layered)
    (hparts : layerPathParts item.1 = some (p ++ [x])) (hres : made.chroot rootfs p = some pp)
    (hmade : Descended umask rootfs pp made made₁)
    (hshape : made'.shape (rootfs ++ (pp ++ [x])) = some s)
    (hframe : ∀ q, q ≠ rootfs ++ (pp ++ [x]) → made'.get q = made₁.get q)
    (hleaf : s.isDir = false → ¬ made₁.IsDir (rootfs ++ (pp ++ [x])))
    (hdir : s.isDir = true → ∀ i data, made₁.get (rootfs ++ (pp ++ [x])) ≠ some (.file i data))
    (hname : m.name = joinPath (p ++ [x])) (hmarker : isWhiteout x = false)
    (hm : m.shape = some s') (howned : owned s' = owned s) (hsdir : s'.isDir = s.isDir)
    (hoverlap : ∀ content mode, s' = .file content mode → pp ++ [x] ∉ parents) :
    ∃ acc' layered', processMember umask 0 true root m acc layered = (.ok acc', layered') ∧
      acc'.links = acc.links ∧ Alike umask rootfs root parents todo made' layered' := by
  obtain ⟨-, hv⟩ := layerPathParts_some hparts
  have hp : ∀ c ∈ p, ValidName c := fun c hc => hv c (by simp [hc])
  have hvx : ValidName x := hv x (by simp)
  have hpp : ∀ c ∈ pp, ValidName c :=
    (Fs.chroot_resolved (fun c hc => (hp c hc).no_slash) hres).valid
  have hw : ¬ pp ++ [x] <+: pp := by
    intro hpre
    have := hpre.length_le
    simp at this
  -- both trees are walked down to the parent by the same directories
  obtain ⟨layered₁, hwalk, hlayered⟩ := h.descend hpp hmade
  have hviewMade := hmade.viewAt_eq
  have hviewLayered := hlayered.viewAt_eq
  -- at the entry's place the walk has changed nothing
  have hmadeHere : viewAt made₁ rootfs (pp ++ [x]) = viewAt made rootfs (pp ++ [x]) := by
    rw [hviewMade, if_neg fun hh => hw hh.2]
  have hlayeredHere : viewAt layered₁ root (pp ++ [x]) = viewAt layered root (pp ++ [x]) := by
    rw [hviewLayered, if_neg fun hh => hw hh.2]
  have hk : m.kind ≠ .device := by
    intro hk
    unfold Member.shape at hm
    rw [hk] at hm
    cases hm
  have hsafe : safeResolvePartsAt layered root p = some pp := by
    rw [safeResolvePartsAt_eq_chroot h.layered_root fun c hc => (hp c hc).no_slash,
      h.chroot_eq]
    exact hres
  have happ : root ++ pp ++ [x] = root ++ (pp ++ [x]) := by simp
  -- the member is written in the layered tree: no directory stands in the way of a file, nor a
  -- file in that of a directory
  obtain ⟨acc', layered', hwrite, hlinks, hshape'⟩ :=
    writeMember_writes umask 0 pp p acc (hlayered.isDir (List.prefix_refl pp)) hvx hm
      (by
        rintro content mode rfl ⟨m', hm'⟩
        rw [happ] at hm'
        have hnot := hleaf hsdir.symm
        have hdirView := viewAt_of_get hm'
        rw [hlayeredHere] at hdirView
        rcases h.same (pp ++ [x]) with heq | ⟨hin, -, -⟩
        · rw [← heq, hdirView] at hmadeHere
          exact hnot (isDir_iff_viewAt.mpr ⟨_, hmadeHere⟩)
        · exact hoverlap content mode rfl hin)
      (by
        intro hs' i data hfile
        rw [happ] at hfile
        have hfileView := viewAt_of_get hfile
        rw [hlayeredHere] at hfileView
        rcases h.same (pp ++ [x]) with heq | ⟨-, hdirView, -⟩
        · rw [← heq, hfileView] at hmadeHere
          cases hg : made₁.get (rootfs ++ (pp ++ [x])) with
          | none =>
            rw [viewAt_eq_none.mpr hg] at hmadeHere
            cases hmadeHere
          | some e =>
            rw [viewAt_of_get hg, Option.some.injEq] at hmadeHere
            cases e with
            | file j d => exact hdir (hsdir.symm.trans hs') j d hg
            | dir m' => cases hmadeHere
            | symlink t => cases hmadeHere
        · rw [hdirView] at hfileView
          cases hfileView)
  rw [happ] at hshape'
  -- the member is read; the roots stay; the two trees look alike at every path
  refine ⟨acc', layered', ?_, hlinks, ?_, ?_, fun q => ?_⟩
  · have hpath : memberPath 0 m.name = some (p, x) := by
      rw [hname]
      exact memberPath_joinPath hv
    rw [processMember_entry hk hpath (by simp [hmarker]) hsafe, Proc.bind_of_ok hwalk]
    exact hwrite
  · have hroot := hmade.isDir (List.nil_prefix)
    rw [List.append_nil] at hroot
    obtain ⟨mode, hmode⟩ := hroot
    exact ⟨mode, by rw [hframe rootfs (by simp), hmode]⟩
  · have hroot := hlayered.isDir (List.nil_prefix)
    rw [List.append_nil, Fs.isDir_iff_shape] at hroot
    have hlong : ¬ root ++ (pp ++ [x]) <+: root := by
      intro hpre
      have := hpre.length_le
      simp at this
    rw [Fs.isDir_iff_shape, hshape', if_neg (by simp), if_neg fun hh => hlong hh.2]
    exact hroot
  · have hviewMade' : q ≠ pp ++ [x] → viewAt made' rootfs q = viewAt made₁ rootfs q := by
      intro hq
      unfold viewAt Fs.shape
      rw [hframe _ (by simpa using hq)]
    -- the layered tree shows the entry, nothing below it unless it is a directory, and all else as
    -- after the walk
    have hviewLayered' : viewAt layered' root q =
        if q = pp ++ [x] then some (owned s')
        else if s.isDir = false ∧ pp ++ [x] <+: q then none
        else viewAt layered₁ root q := by
      unfold viewAt
      rw [hshape', hsdir]
      simp only [List.append_right_inj, List.prefix_append_right_inj]
      split
      · rfl
      · split <;> rfl
    by_cases hq : q = pp ++ [x]
    · left
      rw [hviewLayered', if_pos hq, howned, hq]
      unfold viewAt
      rw [hshape]
      rfl
    · rw [hviewLayered', if_neg hq, hviewMade' hq]
      by_cases hbelow : s.isDir = false ∧ pp ++ [x] <+: q
      · -- nothing is left below an entry that is no directory
        left
        rw [if_pos hbelow]
        obtain ⟨r, rfl⟩ := hbelow.2
        have hr : r ≠ [] := by
          rintro rfl
          exact hq (List.append_nil _)
        have hnone : made₁.get (rootfs ++ (pp ++ [x]) ++ r) = none :=
          Fs.get_append_eq_none hr (hleaf hbelow.1)
        rw [List.append_assoc] at hnone
        exact (viewAt_eq_none.mpr hnone).symm
      · rw [if_neg hbelow, hviewLayered, hviewMade]
        rcases h.same q with heq | ⟨hin, hview, hpending⟩
        · have hiff : layered.get (root ++ q) = none ↔ made.get (rootfs ++ q) = none := by
            rw [← viewAt_eq_none, heq, viewAt_eq_none]
          left
          simp only [hiff, heq]
        · -- a directory of the layer: either the walk has made it in the rootfs, or it waits on
          have hlayeredDir := isDir_iff_viewAt.mpr ⟨_, hview⟩
          have hsome : ¬ (layered.get (root ++ q) = none ∧ q <+: pp) := by
            rintro ⟨hnone, -⟩
            rw [viewAt_eq_none.mpr hnone] at hview
            cases hview
          have hself : ∀ mode mtime, item ≠ (joinPath q, .dir mode mtime) := by
            rintro mode mtime rfl
            obtain ⟨hnil, hvq⟩ := hparents q hin
            rw [layerPathParts_joinPath hnil hvq, Option.some.injEq] at hparts
            have hres' := h.chroot_of_isDir hp (hparts ▸ hlayeredDir)
            rw [hres, Option.some.injEq] at hres'
            exact hq (by rw [hparts, hres'])
          rw [if_neg hsome]
          by_cases hmadeNow : made.get (rootfs ++ q) = none ∧ q <+: pp
          · rw [if_pos hmadeNow]
            have hmadeDir : made₁.IsDir (rootfs ++ q) := hmade.isDir hmadeNow.2
            have hmadeDir' : made'.IsDir (rootfs ++ q) := by
              obtain ⟨mode, hmode⟩ := hmadeDir
              exact ⟨mode, by rw [hframe _ (by simpa using hq), hmode]⟩
            rcases hpending with ⟨-, -, humask | hentry⟩ | ⟨⟨mode, hmode⟩, -⟩
            · left
              rw [hview]
              show _ = some (Shape.dir (newDirMode umask ||| 0o700))
              rw [humask]
            · right
              have hpending' : Pending umask rootfs (item :: todo) made' q :=
                .inr ⟨hmadeDir', hentry⟩
              refine ⟨hin, hview, pending_tail hpending' (fun hnone => ?_) hself⟩
              obtain ⟨mode, hmode⟩ := hmadeDir'
              rw [hmode] at hnone
              cases hnone
            · rw [hmode] at hmadeNow
              cases hmadeNow.1
          · rw [if_neg hmadeNow]
            have hsame : made'.get (rootfs ++ q) = made.get (rootfs ++ q) := by
              rw [hframe _ (by simpa using hq), hmade.get, if_neg]
              rintro ⟨hnone, -, hpre⟩
              exact hmadeNow ⟨hnone, (List.prefix_append_right_inj rootfs).mp hpre⟩
            right
            refine ⟨hin, hview, ?_⟩
            have hpending' : Pending umask rootfs (item :: todo) made' q := by
              unfold Pending Fs.IsDir
              rw [hsame]
              exact hpending
            refine pending_tail hpending' (fun hnone parts hparts' hpre hne => ?_) hself
            rw [hparts, Option.some.injEq] at hparts'
            rw [← hparts'] at hpre hne
            rw [hsame] at hnone
            have hqp := (List.prefix_concat_iff.mp hpre).resolve_left hne
            have hres' := h.chroot_of_pending hp hqp hnone hlayeredDir
            rw [hres, Option.some.injEq] at hres'
            exact hmadeNow ⟨hnone, hres' ▸ hqp⟩

end Trees

/-! ## The directories in front -/

section Parents

variable {umask : Mode} {rootfs root : Path} {fileMap : FileMap} {before target : Fs}

/-- A parent is written as a directory of mode `0755`. -/
theorem parentMember_shape (s : Path) : (parentMember s).shape = some (.dir 0o755) := by
  have hmode : (0o755 ||| 0o700 : Mode) = 0o755 := by decide
  unfold Member.shape parentMember
  simp only [hmode]

/-- Directories a layer lists one after another, each in one that it has made before, come to
stand with mode 755; nothing else changes. -/
theorem parents_thread (umask : Mode) (target : Fs) {todo : List Path} (done : List Path)
    (acc : Deferred) (layered : Fs) (hfirst : ParentsFirst done todo) (hroot : layered.IsDir root)
    (hv : ∀ s ∈ todo, s ≠ [] ∧ ∀ c ∈ s, ValidName c ∧ isWhiteout c = false)
    (hfree : ∀ s ∈ todo, target.get (root ++ s) = none ∨ target.IsDir (root ++ s))
    (hshape : ∀ q, layered.shape q =
      if ∃ s ∈ done, q = root ++ s then some (.dir 0o755) else target.shape q) :
    ∃ acc' layered', Proc.thread (processMember umask 0 true root) (todo.map parentMember) acc
        layered = (.ok acc', layered') ∧
      acc'.links = acc.links ∧ layered'.IsDir root ∧
      ∀ q, layered'.shape q =
        if ∃ s ∈ done ++ todo, q = root ++ s then some (.dir 0o755) else target.shape q := by
  induction todo generalizing done acc layered with
  | nil => exact ⟨acc, layered, rfl, rfl, hroot, by simpa using hshape⟩
  -- by induction on the parents that are left, each after its own parent
  | cons s todo ih =>
    obtain ⟨hnil, hs⟩ := hv s (by simp)
    obtain ⟨p, x, rfl⟩ := (List.eq_nil_or_concat' s).resolve_left hnil
    obtain ⟨hparent, hrest⟩ := hfirst
    rw [List.dropLast_concat] at hparent
    -- the parent of this one is the root or was made before
    have hdir : layered.IsDir (root ++ p) := by
      rcases hparent with rfl | hp
      · rw [List.append_nil]
        exact hroot
      · rw [Fs.isDir_iff_shape, hshape, if_pos ⟨p, hp, rfl⟩]
        exact ⟨_, rfl⟩
    -- no file stands there: it is free in the target, or a directory
    have hnofile : ∀ i data, layered.get (root ++ (p ++ [x])) ≠ some (.file i data) := by
      intro i data hfile
      have hfileShape := Fs.shape_of_get hfile
      rw [hshape] at hfileShape
      split at hfileShape
      · cases hfileShape
      · rcases hfree _ List.mem_cons_self with hnone | hisDir
        · rw [Fs.shape_eq_none.mpr hnone] at hfileShape
          cases hfileShape
        · obtain ⟨m, hm⟩ := Fs.isDir_iff_shape.mp hisDir
          rw [hm] at hfileShape
          cases hfileShape
    obtain ⟨acc₁, layered₁, hstep, hlinks₁, hshape₁⟩ :=
      processMember_writes (s := .dir 0o755) umask acc hroot (m := parentMember (p ++ [x])) rfl
        (fun c hc => (hs c hc).1) (parentMember_shape _) (hs x (by simp)).2 hdir (fun content mode h => by cases h)
        fun _ => hnofile
    have hroot₁ : layered₁.IsDir root := by
      rw [Fs.isDir_iff_shape] at hroot ⊢
      rw [hshape₁, if_neg (by simp), if_neg fun h => by cases h.1]
      exact hroot
    -- what stands afterwards is one directory more
    have hdone₁ : ∀ q, layered₁.shape q =
        if ∃ s ∈ done ++ [p ++ [x]], q = root ++ s then some (.dir 0o755) else target.shape q := by
      intro q
      have hstepShape : layered₁.shape q =
          if q = root ++ (p ++ [x]) then some (.dir 0o755) else layered.shape q := by
        rw [hshape₁]
        simp only [Shape.isDir, Bool.true_eq_false, false_and, if_false]
      have hmem : (∃ s ∈ done ++ [p ++ [x]], q = root ++ s) ↔
          (∃ s ∈ done, q = root ++ s) ∨ q = root ++ (p ++ [x]) := by
        simp only [List.mem_append, List.mem_singleton, or_and_right, exists_or, exists_eq_left]
      rw [hstepShape, hshape]
      by_cases hq : q = root ++ (p ++ [x])
      · rw [if_pos hq, if_pos (hmem.mpr (.inr hq))]
      · rw [if_neg hq]
        by_cases hold : ∃ s ∈ done, q = root ++ s
        · rw [if_pos hold, if_pos (hmem.mpr (.inl hold))]
        · rw [if_neg hold, if_neg fun h => (hmem.mp h).elim hold hq]
    obtain ⟨acc', layered', hrun, hlinks', hroot', hshape'⟩ :=
      ih (done ++ [p ++ [x]]) acc₁ layered₁ hrest hroot₁ (fun s hs' => hv s (by simp [hs']))
        (fun s hs' => hfree s (by simp [hs'])) hdone₁
    refine ⟨acc', layered', ?_, hlinks'.trans hlinks₁, hroot', ?_⟩
    · rw [List.map_cons, Proc.thread_cons_of_ok hstep]
      exact hrun
    · rw [List.append_assoc, List.singleton_append] at hshape'
      exact hshape'

/-- Sorting keeps the items. -/
theorem mem_sortedItems {item : List Char × MapEntry} :
    item ∈ sortedItems fileMap ↔ item ∈ fileMap :=
  List.mem_insertionSort _

/-- A directory above an entry, as a path: its components are those of the entry's name. -/
theorem mem_mapParents {s : Path} :
    s ∈ mapParents fileMap ↔ ∃ item ∈ sortedItems fileMap, ∃ parts,
      layerPathParts item.1 = some parts ∧ s ≠ [] ∧ s <+: parts ∧ s ≠ parts := by
  unfold mapParents
  rw [mem_parentDirs]
  simp only [List.mem_map, exists_exists_and_eq_and]

/-- The parents of a map without whiteout names are directories' names. -/
theorem mapParents_valid (hno : ∀ item ∈ fileMap, ∀ parts, layerPathParts item.1 = some parts →
      ∀ c ∈ parts, isWhiteout c = false) :
    ∀ s ∈ mapParents fileMap, s ≠ [] ∧ ∀ c ∈ s, ValidName c ∧ isWhiteout c = false := by
  intro s hs
  obtain ⟨item, hitem, parts, hparts, hnil, hpre, -⟩ := mem_mapParents.mp hs
  refine ⟨hnil, fun c hc => ⟨(layerPathParts_some hparts).2 c (hpre.subset hc), ?_⟩⟩
  exact hno item (mem_sortedItems.mp hitem) parts hparts c (hpre.subset hc)

/-- After its directories the layer's tree is like the rootfs the step starts from. -/
theorem parents_alike (h : Agreeable umask rootfs fileMap before) (hbefore : before.IsDir rootfs)
    (htarget : target.IsDir root) (hsame : ∀ q, viewAt target root q = viewAt before rootfs q) :
    ∃ acc layered, Proc.thread (processMember umask 0 true root)
        ((mapParents fileMap).map parentMember) .empty target = (.ok acc, layered) ∧
      acc.links = [] ∧
      Alike umask rootfs root (mapParents fileMap) (sortedItems fileMap) before layered := by
  obtain ⟨acc, layered, hrun, hlinks, hroot, hshape⟩ :=
    parents_thread umask target [] .empty target (parentsFirst_parentDirs _) htarget
      (mapParents_valid h.no_marker)
      (fun s hs => by
        rcases h.parent s hs with ⟨hnone, -⟩ | ⟨m, hm, -⟩
        · left
          rw [← viewAt_eq_none, hsame]
          exact viewAt_eq_none.mpr hnone
        · right
          rw [isDir_iff_viewAt, hsame]
          exact ⟨_, viewAt_of_get hm⟩)
      fun q => by simp
  have hview : ∀ q, viewAt layered root q =
      if q ∈ [] ++ mapParents fileMap then some (.dir 0o755) else viewAt target root q := by
    intro q
    have hdirs : layered.shape (root ++ q) =
        if ∃ s ∈ [] ++ mapParents fileMap, root ++ q = root ++ s then some (.dir 0o755)
        else target.shape (root ++ q) := hshape (root ++ q)
    have hmem : (∃ s ∈ [] ++ mapParents fileMap, root ++ q = root ++ s) ↔
        q ∈ [] ++ mapParents fileMap := by
      simp only [List.append_right_inj, exists_eq_right']
    unfold viewAt
    rw [hdirs]
    by_cases hq : q ∈ [] ++ mapParents fileMap
    · rw [if_pos hq, if_pos (hmem.mpr hq)]
      rfl
    · rw [if_neg hq, if_neg fun h => hq (hmem.mp h)]
  have hsorted : ∀ s, DirEntryAt fileMap s → DirEntryAt (sortedItems fileMap) s := by
    rintro s ⟨mode, mtime, hmem⟩
    exact ⟨mode, mtime, mem_sortedItems.mpr hmem⟩
  refine ⟨acc, layered, hrun, hlinks, hbefore, hroot, fun q => ?_⟩
  rw [hview, List.nil_append]
  split
  · rename_i hq
    rcases h.parent q hq with ⟨hnone, hmode⟩ | ⟨m, hm, hmode⟩
    · obtain ⟨item, hitem, parts, hparts, -, hpre, hne⟩ := mem_mapParents.mp hq
      exact .inr ⟨hq, rfl, .inl
        ⟨hnone, ⟨item, hitem, parts, hparts, hpre, hne⟩, hmode.imp_right (hsorted q)⟩⟩
    · rcases hmode with hmode | hentry
      · left
        rw [viewAt_of_get hm, ← hmode]
        rfl
      · exact .inr ⟨hq, rfl, .inr ⟨⟨m, hm⟩, hsorted q hentry⟩⟩
  · exact .inl (hsame q)

end Parents

/-! ## The entries -/

section Items

variable {umask : Mode} {rootfs root : Path} {fileMap : FileMap} {before fs fs' : Fs}
  {item : List Char × MapEntry}

/-- An item leaves the rootfs a directory, and all that is outside it. -/
theorem materialiseItem_frame (hroot : fs.IsDir rootfs)
    (h : materialiseItem umask rootfs item fs = (.ok (), fs')) :
    fs'.IsDir rootfs ∧ ∀ q, ¬ rootfs <+: q → fs'.get q = fs.get q := by
  rcases materialiseItem_cases hroot h with ⟨-, rfl⟩ | ⟨p, x, -, -, rfl⟩ |
    ⟨p, x, pp, fs₁, s, -, -, hmade, -, -, hframe, -, -⟩
  · exact ⟨hroot, fun _ _ => rfl⟩
  · exact ⟨hroot, fun _ _ => rfl⟩
  · constructor
    · have hdir := hmade.isDir List.nil_prefix
      rw [List.append_nil] at hdir
      obtain ⟨m, hm⟩ := hdir
      exact ⟨m, by rw [hframe rootfs (by simp), hm]⟩
    · intro q hq
      have hne : q ≠ rootfs ++ (pp ++ [x]) := by
        rintro rfl
        exact hq (List.prefix_append _ _)
      rw [hframe q hne, hmade.get, if_neg fun hh => hq hh.2.1]

/-- What is made is made below the rootfs. -/
theorem materialiseFiles_frame {items : FileMap} (hroot : fs.IsDir rootfs)
    (h : Proc.each (materialiseItem umask rootfs) items fs = (.ok (), fs')) :
    ∀ q, ¬ rootfs <+: q → fs'.get q = fs.get q := by
  induction items generalizing fs with
  | nil =>
    rw [Proc.each_nil, Prod.mk.injEq] at h
    rw [h.2]
    exact fun _ _ => rfl
  | cons item items ih =>
    obtain ⟨fs₁, hitem, hrest⟩ := Proc.each_cons_eq_ok h
    obtain ⟨hroot₁, hframe⟩ := materialiseItem_frame hroot hitem
    exact fun q hq => (ih hroot₁ hrest q hq).trans (hframe q hq)

/-- An item is packed under its own name. -/
theorem packItem_name {m : Member} (h : packItem fs item = some m) : m.name = item.1 := by
  unfold packItem at h
  split at h
  · cases h
  · unfold addFileMapEntry at h
    split at h
    · cases h
      rfl
    · cases h
      rfl
    · split at h
      · cases h
      · cases h
        rfl

/-- The member of an entry asks for what the entry puts at its place. -/
theorem packItem_of_entryShape {final : Fs} {parts : Path} {s : Shape}
    (h : Agreeable umask rootfs fileMap before) (hitem : item ∈ fileMap)
    (hparts : layerPathParts item.1 = some parts) (hs : entryShape fs item.2 = some s)
    (hsame : ∀ q, ¬ rootfs <+: q → final.get q = fs.get q) :
    ∃ m s', packItem final item = some m ∧ m.name = item.1 ∧ m.shape = some s' ∧
      owned s' = owned s ∧ s'.isDir = s.isDir ∧
      ∀ content mode, s' = .file content mode → item.2.isFile = true := by
  obtain ⟨arcname, entry⟩ := item
  unfold packItem
  rw [hparts]
  cases entry with
  | dir mode mtime =>
    cases hs
    exact ⟨_, .dir (mode.getD 0o755 ||| 0o700), rfl, rfl, rfl, owned_owned (.dir (mode.getD 0o755)),
      rfl, fun _ _ hfile => by cases hfile⟩
  | symlink target mode mtime =>
    change (if target = [] then none else some (Shape.symlink target)) = some s at hs
    split at hs
    · cases hs
    · rename_i htarget
      cases hs
      exact ⟨_, .symlink target, rfl, rfl, if_neg htarget, rfl, rfl, fun _ _ hfile => by cases hfile⟩
  | file src rel mode =>
    obtain ⟨hmode, hrel, hout⟩ : FromOutside rootfs (.file src rel mode) := h.source _ hitem
    obtain ⟨mode, rfl⟩ := Option.isSome_iff_exists.mp hmode
    have hread : openSource src rel final = openSource src rel fs :=
      openSource_congr hrel hout hsame
    change (openSource src rel fs).toOption.map _ = some s at hs
    cases hdata : openSource src rel fs with
    | error e =>
      rw [hdata] at hs
      cases hs
    | ok data =>
      rw [hdata] at hs
      cases hs
      unfold addFileMapEntry
      simp only [hread, hdata]
      exact ⟨_, .file data.content mode, rfl, rfl, rfl, rfl, rfl, fun _ _ _ => rfl⟩

/-- One item of the map and its member, if it has one, keep the trees alike. -/
theorem item_thread {done todo : FileMap} {made made' layered final : Fs} (acc : Deferred)
    (h : Agreeable umask rootfs fileMap before) (hitems : done ++ item :: todo = sortedItems fileMap)
    (hdone : Proc.each (materialiseItem umask rootfs) done before = (.ok (), made))
    (hstep : materialiseItem umask rootfs item made = (.ok (), made'))
    (hsame : ∀ q, ¬ rootfs <+: q → final.get q = made.get q)
    (halike : Alike umask rootfs root (mapParents fileMap) (item :: todo) made layered) :
    ∃ acc' layered', Proc.thread (processMember umask 0 true root) (packItem final item).toList acc
        layered = (.ok acc', layered') ∧
      acc'.links = acc.links ∧
      Alike umask rootfs root (mapParents fileMap) todo made' layered' := by
  have hitem : item ∈ fileMap := by
    rw [← mem_sortedItems, ← hitems]
    simp
  have hparents : ∀ s ∈ mapParents fileMap, s ≠ [] ∧ ∀ c ∈ s, ValidName c := fun s hs =>
    ⟨(mapParents_valid h.no_marker s hs).1, fun c hc => ((mapParents_valid h.no_marker s hs).2 c hc).1⟩
  rcases materialiseItem_cases halike.made_root hstep with ⟨hnone, rfl⟩ | ⟨p, x, hparts, hres, rfl⟩ |
    ⟨p, x, pp, fs₁, s, hparts, hres, hmade, hs, hshape, hframe, hleaf, hdir⟩
  · -- the name escapes: neither half looks at the item
    have hpack : packItem final item = none := by
      unfold packItem
      rw [hnone]
    rw [hpack]
    refine ⟨acc, layered, rfl, rfl, halike.skip hparents fun p x hp => ?_⟩
    rw [hnone] at hp
    cases hp
  · -- the parent runs into a loop of links, in both trees
    have halike' := halike.skip hparents fun p' x' hp => by
      rw [hparts, Option.some.injEq] at hp
      obtain ⟨rfl, -⟩ := List.append_inj' hp rfl
      exact hres
    obtain ⟨-, hv⟩ := layerPathParts_some hparts
    cases hpack : packItem final item with
    | none => exact ⟨acc, layered, rfl, rfl, halike'⟩
    | some m =>
      have hname : m.name = joinPath (p ++ [x]) := by
        rw [← h.canonical item hitem _ hparts]
        exact packItem_name hpack
      have hpath : memberPath 0 m.name = some (p, x) := by
        rw [hname]
        exact memberPath_joinPath hv
      have hunresolved : safeResolvePartsAt layered root p = none := by
        rw [safeResolvePartsAt_eq_chroot halike.layered_root fun c hc =>
          (hv c (by simp [hc])).no_slash, halike.chroot_eq]
        exact hres
      refine ⟨acc, layered, ?_, rfl, halike'⟩
      rw [Option.toList_some, Proc.thread_cons_of_ok (processMember_unresolved hpath hunresolved)]
      rfl
  -- the item has been made in the rootfs, so it is packed and read back
  · obtain ⟨m, s', hpack, hname, hm, howned, hsdir, hfile⟩ :=
      packItem_of_entryShape h hitem hparts hs fun q hq => by
        rw [hsame q hq, hmade.get, if_neg fun hh => hq hh.2.1]
    rw [hpack]
    have hp : ∀ c ∈ p, Fs.NoSlash c := fun c hc =>
      ((layerPathParts_some hparts).2 c (by simp [hc])).no_slash
    obtain ⟨acc', layered', hrun, hlinks, halike'⟩ :=
      halike.write acc hparents hparts hres hmade hshape hframe hleaf hdir
        (by rw [hname]; exact h.canonical item hitem _ hparts)
        (h.no_marker item hitem _ hparts x (by simp)) hm howned hsdir
        -- no file of the map lands on a parent of another item
        (by
          intro content mode hs' hin
          have hk : done.length < (sortedItems fileMap).length := by
            rw [← hitems]
            simp
          have hget : (sortedItems fileMap)[done.length] = item := by
            simp [← hitems]
          have hto : materialisedTo umask rootfs fileMap before done.length = made := by
            unfold materialisedTo
            rw [← hitems, List.take_left', hdone]
            rfl
          refine h.no_overlap done.length hk (by rw [hget]; exact hfile content mode hs') _ ?_ hin
          rw [hget, hto]
          unfold landing
          rw [hparts]
          simp only [List.dropLast_concat, List.getLastD_concat]
          rw [safeResolvePartsAt_eq_chroot halike.made_root hp, hres]
          rfl)
    refine ⟨acc', layered', ?_, hlinks, halike'⟩
    rw [Option.toList_some, Proc.thread_cons_of_ok hrun]
    rfl

/-- The items still to be made, and the members still to be read, lead to the same view. -/
theorem items_thread {todo : FileMap} {final : Fs} (h : Agreeable umask rootfs fileMap before)
    (done : FileMap) (made layered : Fs) (acc : Deferred)
    (hitems : done ++ todo = sortedItems fileMap)
    (hdone : Proc.each (materialiseItem umask rootfs) done before = (.ok (), made))
    (htodo : Proc.each (materialiseItem umask rootfs) todo made = (.ok (), final))
    (halike : Alike umask rootfs root (mapParents fileMap) todo made layered) :
    ∃ acc' layered', Proc.thread (processMember umask 0 true root)
        (todo.filterMap (packItem final)) acc layered = (.ok acc', layered') ∧
      acc'.links = acc.links ∧
      Alike umask rootfs root (mapParents fileMap) [] final layered' := by
  induction todo generalizing done made layered acc with
  | nil =>
    rw [Proc.each_nil, Prod.mk.injEq] at htodo
    exact ⟨acc, layered, rfl, rfl, htodo.2 ▸ halike⟩
  | cons item todo ih =>
    obtain ⟨made', hstep, hrest⟩ := Proc.each_cons_eq_ok htodo
    obtain ⟨acc₁, layered₁, hrun, hlinks, halike'⟩ :=
      item_thread acc h hitems hdone hstep
        (materialiseFiles_frame halike.made_root htodo) halike
    have hdone' : Proc.each (materialiseItem umask rootfs) (done ++ [item]) before =
        (.ok (), made') := by
      rw [Proc.each_append hdone, Proc.each_cons_of_ok hstep]
      rfl
    obtain ⟨acc', layered', hrun', hlinks', halike''⟩ :=
      ih (done ++ [item]) made' layered₁ acc₁ (by simpa using hitems) hdone' hrest halike'
    refine ⟨acc', layered', ?_, hlinks'.trans hlinks, halike''⟩
    have hsplit : (item :: todo).filterMap (packItem final) =
        (packItem final item).toList ++ todo.filterMap (packItem final) := by
      rw [List.filterMap_cons]
      cases packItem final item <;> rfl
    rw [hsplit, Proc.thread_append hrun]
    exact hrun'

/-- **The step and its layer agree.** Applied to a tree that looks like the rootfs before the
step, the layer of an agreeable map succeeds and gives what the step has made of the rootfs:
the same paths with the same kinds, contents, link targets and modes, up to the owner's bits
of directories. -/
theorem copy_layer_agrees (R : Refusals) (umask : Mode) (rootfs root : Path) (fileMap : FileMap)
    (before target made : Fs) (h : Agreeable umask rootfs fileMap before)
    (hbefore : before.IsDir rootfs) (htarget : target.IsDir root)
    (hsame : ∀ q, viewAt target root q = viewAt before rootfs q)
    (hmade : materialiseFiles umask rootfs fileMap before = (.ok (), made)) :
    ∃ result, applyLayer R umask root (writeFilesLayer made fileMap) target = (.ok [], result) ∧
      ∀ q, viewAt result root q = viewAt made rootfs q := by
  obtain ⟨acc, layered, hparents, hlinks, halike⟩ := parents_alike h hbefore htarget hsame
  obtain ⟨acc', layered', hitems, hlinks', hdone⟩ :=
    items_thread h [] before layered acc (List.nil_append _) rfl hmade halike
  have hthread : Proc.thread (processMember umask 0 true root) (writeFilesLayer made fileMap)
      .empty target = (.ok acc', layered') := by
    unfold writeFilesLayer
    exact (Proc.thread_append hparents).trans hitems
  obtain ⟨result, happly, hshape⟩ := applyLayer_of_thread R hthread (hlinks'.trans hlinks)
  refine ⟨result, happly, fun q => ?_⟩
  have hview : viewAt result root q = viewAt layered' root q := by
    unfold viewAt
    rw [hshape]
  rw [hview]
  -- with no entry to come nothing is pending
  rcases hdone.same q with heq | ⟨-, -, ⟨-, ⟨item, hmem, -⟩, -⟩ | ⟨-, mode, mtime, hmem⟩⟩
  · exact heq
  · cases hmem
  · cases hmem

/-! ### Steps written down -/

/-- A file system with a rootfs and a build context side by side. -/
def besideContext (rootfs context : List (String × Option (String ⊕ String))) : Fs :=
  treeOf ([("rootfs", dirEntry), ("context", dirEntry)] ++
    rootfs.map (fun x => ("rootfs/" ++ x.1, x.2)) ++ context.map fun x => ("context/" ++ x.1, x.2))

def inRootfs : Path := ["rootfs".toList]

def fromContext (name : String) : MapEntry :=
  .file ["context".toList] [name.toList] (some 0o644)

def linkTo (target : String) : MapEntry := .symlink target.toList (some 0o777) 0

def nested : Fs :=
  besideContext [("etc", dirEntry), ("motd", linkEntry "etc/motd")]
    [("f", fileEntry "one"), ("g", fileEntry "two")]

/-- A file next to others, one in directories that are not there yet, a directory of the map's
own, a link, and a file written through that link. -/
def nestedMap : FileMap :=
  [("etc/motd".toList, fromContext "f"), ("opt/a/f".toList, fromContext "g"),
    ("srv".toList, .dir (some 0o700) 0), ("srv/f".toList, fromContext "f"),
    ("l".toList, linkTo "/opt/../etc"), ("l/x".toList, fromContext "g")]

/-- The nested map is one that agrees. -/
theorem nestedMap_agreeable : Agreeable 0o022 inRootfs nestedMap nested := by
  refine ⟨fun item hitem parts hparts => ?_, fun item hitem parts hparts => ?_, by decide +kernel,
    fun s hs => ?_, by decide +kernel⟩
  · have hall : ∀ item ∈ nestedMap, ∀ parts ∈ layerPathParts item.1, item.1 = joinPath parts := by
      decide +kernel
    exact hall item hitem parts hparts
  · have hall : ∀ item ∈ nestedMap, ∀ parts ∈ layerPathParts item.1,
        ∀ c ∈ parts, isWhiteout c = false := by
      decide +kernel
    exact hall item hitem parts hparts
  · have hall : ∀ s ∈ mapParents nestedMap, s = ["srv".toList] ∨
        nested.get (inRootfs ++ s) = none ∨
        nested.get (inRootfs ++ s) = some (.dir 0o755) := by
      decide +kernel
    have humask : newDirMode 0o022 ||| 0o700 = 0o755 := by decide
    rcases hall s hs with rfl | hnone | hdir
    · exact .inl ⟨by decide +kernel, .inl humask⟩
    · exact .inl ⟨hnone, .inl humask⟩
    · exact .inr ⟨_, hdir, .inl (by decide)⟩

theorem copy_layer_agrees_nested :
    ∃ made, materialiseFiles 0o022 inRootfs nestedMap nested = (.ok (), made) ∧
      ∃ result, applyLayer noRefusals 0o022 inRootfs (writeFilesLayer made nestedMap) nested =
        (.ok [], result) ∧ ∀ q, viewAt result inRootfs q = viewAt made inRootfs q := by
  have hrun : (materialiseFiles 0o022 inRootfs nestedMap nested).1.toOption = some () := by
    decide +kernel
  have hroot : nested.IsDir inRootfs := ⟨0o755, by decide +kernel⟩
  rcases hmade : materialiseFiles 0o022 inRootfs nestedMap nested with ⟨r, made⟩
  rw [hmade] at hrun
  cases r with
  | error e => cases hrun
  | ok u =>
    exact ⟨made, rfl, copy_layer_agrees noRefusals 0o022 inRootfs inRootfs nestedMap nested nested
      made nestedMap_agreeable hroot hroot (fun _ => rfl) hmade⟩

/-! ### Steps that differ from their layers -/

/-- The agreement as one would like to have it. -/
def CopyAgrees (umask : Mode) (before : Fs) (fileMap : FileMap) : Prop :=
  ∀ made, materialiseFiles umask inRootfs fileMap before = (.ok (), made) →
    ∃ result, applyLayer noRefusals umask inRootfs (writeFilesLayer made fileMap) before =
      (.ok [], result) ∧ ∀ q, result.shape (inRootfs ++ q) = made.shape (inRootfs ++ q)

/-- The step ends, and its layer gives something else at `q`. -/
def differsAt (umask : Mode) (before : Fs) (fileMap : FileMap) (q : Path) : Bool :=
  match materialiseFiles umask inRootfs fileMap before with
  | (.error _, _) => false
  | (.ok (), made) =>
    match applyLayer noRefusals umask inRootfs (writeFilesLayer made fileMap) before with
    | (.error _, _) => true
    | (.ok _, result) => result.shape (inRootfs ++ q) != made.shape (inRootfs ++ q)

theorem not_copyAgrees {umask : Mode} {before : Fs} {fileMap : FileMap} {q : Path}
    (h : differsAt umask before fileMap q = true) : ¬ CopyAgrees umask before fileMap := by
  intro hagrees
  unfold differsAt at h
  split at h
  · cases h
  · rename_i made hmade
    obtain ⟨result, happly, hshape⟩ := hagrees made hmade
    rw [happly] at h
    simp [hshape q] at h

/-- Steps that their layers do not repeat, each with a place where one sees it: a link above an
entry, a directory above one with a mode of its own, a directory that gets the mode of another
umask, a name that reads as a whiteout, a directory its owner may not write, a file that a link
puts where the layer has a directory, sources that the step itself writes, a name that is not
written plainly and a file without a mode. -/
def differingSteps : List ((Mode × Fs × FileMap) × Path) :=
  [((0o022, besideContext [("usr", dirEntry), ("lib", linkEntry "usr")] [("f", fileEntry "f")],
      [("lib/f".toList, fromContext "f")]), ["lib".toList]),
   ((0o022, Fs.ofList [(inRootfs, .dir 0o755), (inRootfs ++ ["tmp".toList], .dir 0o1777),
        (["context".toList], .dir 0o755),
        (["context".toList, ['f']], .file 0 ⟨[], 0o644, 0⟩)],
      [("tmp/f".toList, fromContext "f")]), ["tmp".toList]),
   ((0o077, besideContext [] [("f", fileEntry "f")], [("d/f".toList, fromContext "f")]), [['d']]),
   ((0o022, besideContext [] [("f", fileEntry "f")], [(".wh.f".toList, fromContext "f")]),
      [".wh.f".toList]),
   ((0o022, besideContext [] [], [(['d'], .dir (some 0o555) 0)]), [['d']]),
   ((0o022, besideContext [("usr", dirEntry)] [("f", fileEntry "f")],
      [("-".toList, linkTo "."), ("-/a".toList, fromContext "f"), ("0".toList, linkTo "."),
        ("0/a".toList, linkTo "usr"), ("a/f".toList, fromContext "f")]), []),
   ((0o022, besideContext [("b", fileEntry "one"), ("c", fileEntry "two")] [],
      [(['a'], .file inRootfs [['b']] (some 0o644)),
        (['b'], .file inRootfs [['c']] (some 0o644))]), [['a']]),
   ((0o022, besideContext [] [("f", fileEntry "f")], [("d//f".toList, fromContext "f")]),
      [['d'], ['f']]),
   ((0o022, Fs.ofList [(inRootfs, .dir 0o755), (["context".toList], .dir 0o755),
        (["context".toList, ['f']], .file 0 ⟨[], 0o600, 0⟩)],
      [(['f'], .file ["context".toList] [['f']] none)]), [['f']])]

/-- Not every step and its layer agree: none of `differingSteps` does. -/
theorem copy_layer_differs :
    (¬ ∀ umask before fileMap, before.IsDir inRootfs → CopyAgrees umask before fileMap) ∧
      ∀ step ∈ differingSteps, ¬ CopyAgrees step.1.1 step.1.2.1 step.1.2.2 := by
  have hdiffer : ∀ step ∈ differingSteps,
      differsAt step.1.1 step.1.2.1 step.1.2.2 step.2 = true := by
    decide +kernel
  have hroot : (besideContext [] []).IsDir inRootfs := ⟨0o755, by decide +kernel⟩
  refine ⟨fun h => ?_, fun step hstep => not_copyAgrees (hdiffer step hstep)⟩
  exact not_copyAgrees (hdiffer ((0o022, besideContext [] [], [(['d'], .dir (some 0o555) 0)]),
    [['d']]) (by simp [differingSteps])) (h 0o022 _ _ hroot)

end Items

end CopyStep

end ProotDistro
