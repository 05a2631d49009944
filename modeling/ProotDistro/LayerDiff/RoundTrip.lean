import ProotDistro.LayerDiff

/-!
# From a RUN step to its layer and back

A RUN step leaves the rootfs as it is and a layer that records the difference. A later build
does not run the step again but applies the layer to the tree the step started from, and an
install applies it to the tree the layers below it gave. `run_layer_round_trip` says what that
gives: the tree the step left, for every pair of trees the layer can carry.

The proof follows the layer. Its members come in the order of their paths, so a directory is
in place before anything below it is read (`Packed`, `packed_step`); when they are through,
the tree holds all that the step left and besides that only what was there before (`Held`).
The whiteouts then take away what is gone, as long as none of them reaches, through a link
the step has put in a directory's place, something the step has kept (`held_step`).

`Carries` lists what has to hold for that, and `run_layer_loses` shows for each of it a pair
of trees without it whose layer gives another tree or cannot be applied.
-/

namespace ProotDistro

open Posix Dirfd TarExtract

namespace LayerDiff

/-- A shape with the owner's bits extraction always gives a directory. -/
def owned : Shape → Shape
  | .dir mode => .dir (mode ||| 0o700)
  | s => s

/-- Kind, content, target and permissions of the entry at `q` below `root`. -/
def viewAt (fs : Fs) (root q : Path) : Option Shape := (fs.shape (root ++ q)).map owned

/-- The same, of what a snapshot sees. -/
def seenView (fs : Fs) (rootfs q : Path) : Option Shape :=
  (seen fs rootfs q).map fun e => owned e.shape

/-- The layer of a step. -/
def runLayer (s : Step) : List Member :=
  writeLayerTar s.atLast s.after s.rootfs (s.delta.added ++ s.delta.modified) s.delta.deleted []

/-- A tree on the way: all that the step left is in it, and the rest comes from the tree the
layer is applied to. -/
structure Held (s : Step) (target : Fs) (root : Path) (tree : Fs) : Prop where
  root_dir : tree.IsDir root
  kept : ∀ q v, seenView s.after s.rootfs q = some v → viewAt tree root q = some v
  left : ∀ q v, viewAt tree root q = some v →
    seenView s.after s.rootfs q = some v ∨ viewAt target root q = some v

/-- What the layer of a step can carry to a target. -/
structure Carries (s : Step) (target : Fs) (root : Path) : Prop where
  /-- what the last walk passes over, the first passed over too, and it is as it was -/
  missed_after : ∀ q e, seen s.after s.rootfs q = some e → s.metAfter q = none →
    s.metBefore q = none ∧ ∃ e', seen s.before s.rootfs q = some e' ∧ e'.shape = e.shape
  /-- the first walk got to everything that is gone -/
  missed_before : ∀ q, (seen s.before s.rootfs q).isSome → seen s.after s.rootfs q = none →
    (s.metBefore q).isSome
  /-- every file that is new or changed may be opened -/
  readable : ∀ q i d, s.Changed q → seen s.after s.rootfs q = some (.file i d) →
    s.atLast .read (s.rootfs ++ q) = false
  /-- no file was given other content of the same size, time, mode and checksum -/
  no_collision : ∀ q i j d d', s.metBefore q = some (.file i d) → s.metAfter q = some (.file j d') →
    fingerprint s.atFirst (s.rootfs ++ q) (.file i d) =
      fingerprint s.atLast (s.rootfs ++ q) (.file j d') → d.content = d'.content
  /-- nothing that is new or changed is named like a whiteout -/
  no_marker : ∀ p x, s.Changed (p ++ [x]) → isWhiteout x = false
  /-- nothing that is gone has a name whose whiteout is the opaque marker -/
  no_opaque : ∀ p x, s.Gone (p ++ [x]) → whPrefix ++ x ≠ opaqueName
  /-- no new or changed link stands for a hard link -/
  no_stand_in : ∀ p x t, s.Changed (p ++ [x]) →
    seen s.after s.rootfs (p ++ [x]) = some (.symlink t) →
    l2sBacking s.atLast s.after s.rootfs (joinPath p) t = none
  /-- no directory became a regular file -/
  no_file_for_dir : ∀ q i d, seen s.after s.rootfs q = some (.file i d) → ¬ target.IsDir (root ++ q)
  /-- no regular file became a directory -/
  no_dir_for_file : ∀ q m i d, seen s.after s.rootfs q = some (.dir m) →
    target.get (root ++ q) ≠ some (.file i d)
  /-- no whiteout, read in a tree on the way, names what the step has kept -/
  no_crossing : ∀ tree, Held s target root tree → ∀ p x pp,
    s.Gone (p ++ [x]) → tree.chroot root p = some pp →
    tree.IsDir (root ++ pp) → seen s.after s.rootfs (pp ++ [x]) = none

/-! ## Seen trees -/

section Seen

variable {fs : Fs} {rootfs root p q : Path} {x : Name} {e : Entry} {s : Shape}

/-- Adding the owner's bits once more changes nothing. -/
@[simp] theorem owned_owned (s : Shape) : owned (owned s) = owned s := by
  cases s with
  | dir mode => simp [owned, BitVec.or_assoc]
  | file content mode => rfl
  | symlink t => rfl

/-- Only a directory is seen as one. -/
theorem owned_eq_dir {mode : Mode} (h : owned s = .dir mode) : ∃ m, s = .dir m := by
  cases s with
  | dir m => exact ⟨m, rfl⟩
  | file content m => cases h
  | symlink t => cases h

/-- What is there is seen with the owner's bits. -/
theorem viewAt_of_get (h : fs.get (root ++ q) = some e) :
    viewAt fs root q = some (owned e.shape) := by
  unfold viewAt
  rw [Fs.shape_of_get h]
  rfl

/-- Where nothing is seen there is nothing. -/
theorem viewAt_eq_none : viewAt fs root q = none ↔ fs.get (root ++ q) = none := by
  unfold viewAt
  rw [Option.map_eq_none_iff, Fs.shape_eq_none]

/-- A directory is seen as one, with some mode. -/
theorem isDir_iff_viewAt : fs.IsDir (root ++ q) ↔ ∃ m, viewAt fs root q = some (.dir m) := by
  rw [Fs.isDir_iff_shape]
  unfold viewAt
  constructor
  · rintro ⟨m, hm⟩
    exact ⟨m ||| 0o700, by rw [hm]; rfl⟩
  · rintro ⟨m, hm⟩
    obtain ⟨s, hs, howned⟩ := Option.map_eq_some_iff.mp hm
    obtain ⟨m', rfl⟩ := owned_eq_dir howned
    exact ⟨m', hs⟩

/-- What a snapshot shows at a path is an entry of the tree. -/
theorem seenView_some {v : Shape} (h : seenView fs rootfs q = some v) :
    ∃ e, seen fs rootfs q = some e ∧ owned e.shape = v :=
  Option.map_eq_some_iff.mp h

/-- An entry the snapshot meets is shown with the owner's bits. -/
theorem seenView_of_seen (h : seen fs rootfs q = some e) :
    seenView fs rootfs q = some (owned e.shape) := by
  unfold seenView
  rw [h]
  rfl

/-- The snapshot shows nothing where it meets nothing. -/
theorem seenView_eq_none : seenView fs rootfs q = none ↔ seen fs rootfs q = none := by
  unfold seenView
  rw [Option.map_eq_none_iff]

/-- What is seen stands in a directory that is seen. -/
theorem seen_of_append {r : Path} (hp : p ≠ []) (hr : r ≠ [])
    (h : seen fs rootfs (p ++ r) = some e) : ∃ m, seen fs rootfs p = some (.dir m) := by
  obtain ⟨-, hget, hstore⟩ := seen_some h
  rw [← List.append_assoc] at hget
  obtain ⟨m, hm⟩ := Fs.isDir_of_append hr hget
  refine ⟨m, ?_⟩
  rw [seen_eq_get hp, hm]
  rintro ⟨hpre, hdir⟩
  exact hstore ⟨hpre.trans (List.prefix_append p r), hdir⟩

/-- Below what is seen as something else than a directory nothing is seen. -/
theorem seen_below (h : seen fs rootfs p = some e) (he : e.isDir = false) (hpq : p <+: q)
    (hne : q ≠ p) : seen fs rootfs q = none := by
  obtain ⟨r, rfl⟩ := hpq
  have hr : r ≠ [] := by
    rintro rfl
    exact hne (List.append_nil p)
  by_contra hsome
  obtain ⟨e', he'⟩ := Option.ne_none_iff_exists'.mp hsome
  obtain ⟨m, hm⟩ := seen_of_append (seen_some h).1 hr he'
  rw [h, Option.some.injEq] at hm
  rw [hm] at he
  cases he

/-- Paths that are met are told apart by how they are written. -/
theorem seen_joinPath_inj {e' : Entry} (h : seen fs rootfs p = some e)
    (h' : seen fs rootfs q = some e') (heq : joinPath p = joinPath q) : p = q := by
  obtain ⟨hp, hget, -⟩ := seen_some h
  obtain ⟨hq, hget', -⟩ := seen_some h'
  exact joinPath_inj hp hq (fun c hc => (Fs.validName_of_get_append hget c hc).no_slash)
    (fun c hc => (Fs.validName_of_get_append hget' c hc).no_slash) heq

/-- What is seen stands where it is seen. -/
theorem viewAt_of_seenView {v : Shape} (h : seenView fs rootfs q = some v) :
    viewAt fs rootfs q = some v := by
  obtain ⟨e, he, rfl⟩ := seenView_some h
  exact viewAt_of_get (seen_some he).2.1

/-- What is seen in one tree is seen in every tree that looks the same there: the store is
no path a snapshot sees. -/
theorem seenView_of_viewAt {fs' : Fs} (h : seen fs rootfs q = some e)
    (hview : viewAt fs' root q = some (owned e.shape)) :
    seenView fs' root q = some (owned e.shape) := by
  obtain ⟨hq, hget, hstore⟩ := seen_some h
  have hseen : seen fs' root q = fs'.get (root ++ q) := by
    refine seen_eq_get hq ?_
    rintro ⟨hpre, hdir⟩
    by_cases hql : q = [l2sDir]
    · obtain ⟨m, hm⟩ := isDir_iff_viewAt.mp hdir
      rw [← hql, hview, Option.some.injEq] at hm
      obtain ⟨m', hm'⟩ := owned_eq_dir hm
      exact hstore ⟨hpre, Fs.isDir_iff_shape.mpr ⟨m', by rw [← hql, Fs.shape_of_get hget, hm']⟩⟩
    · obtain ⟨r, rfl⟩ := hpre
      obtain ⟨m, hm⟩ := seen_of_append (by simp) (by rintro rfl; simp at hql) h
      exact hstore ⟨List.prefix_append _ _, m, (seen_some hm).2.1⟩
  unfold seenView
  unfold viewAt Fs.shape at hview
  rw [hseen, ← hview, Option.map_map]
  rfl

/-- What is seen depends on the shapes alone. -/
theorem seenView_congr {fs' : Fs} (h : ∀ q, fs'.shape q = fs.shape q) (q : Path) :
    seenView fs' root q = seenView fs root q := by
  have hdir : fs'.IsDir (root ++ [l2sDir]) ↔ fs.IsDir (root ++ [l2sDir]) := by
    rw [Fs.isDir_iff_shape, Fs.isDir_iff_shape, h]
  have hget := congrArg (Option.map owned) (h (root ++ q))
  unfold Fs.shape at hget
  rw [Option.map_map, Option.map_map] at hget
  unfold seenView seen
  simp only [hdir]
  split
  · rfl
  · exact hget

/-- The root itself is not met. -/
theorem seen_concat (h : seen fs rootfs q = some e) : ∃ p x, q = p ++ [x] := by
  obtain ⟨p, x, rfl⟩ := (List.eq_nil_or_concat' q).resolve_left (seen_some h).1
  exact ⟨p, x, rfl⟩

end Seen

/-! ## The members -/

/-- The tree once the entries at `done` are unpacked: what the step left is there as far as
it is unpacked or was there already, and what is not unpacked is as in the target or gone. -/
structure Packed (s : Step) (target : Fs) (root : Path) (done : List (List Char)) (tree : Fs) :
    Prop where
  root_dir : tree.IsDir root
  settled : ∀ q e, seen s.after s.rootfs q = some e →
    joinPath q ∈ done ∨ ¬ s.Changed q →
    viewAt tree root q = some (owned e.shape)
  rest : ∀ q v, viewAt tree root q = some v →
    (joinPath q ∈ done ∧ (seen s.after s.rootfs q).isSome) ∨ viewAt target root q = some v

section Members

variable {umask : Mode} {s : Step} {target tree : Fs} {root p q : Path} {x : Name} {e : Entry}
  {acc : Deferred} {done : List (List Char)}

/-- What changed is there now. -/
theorem Step.Changed.seen (h : s.Changed q) : ∃ e, LayerDiff.seen s.after s.rootfs q = some e := by
  obtain ⟨e, hmet, -⟩ := h
  exact ⟨e, seen_of_met hmet⟩

/-- What is gone was there. -/
theorem Step.Gone.seen (h : s.Gone q) : ∃ e, LayerDiff.seen s.before s.rootfs q = some e := by
  obtain ⟨e, hmet⟩ := Option.isSome_iff_exists.mp h.1
  exact ⟨e, seen_of_met hmet⟩

/-- Equal fingerprints mean equal entries, to what is compared. -/
theorem Carries.shape_eq (hc : Carries s target root) {e' : Entry}
    (h : s.metBefore q = some e') (h' : s.metAfter q = some e)
    (heq : fingerprint s.atFirst (s.rootfs ++ q) e' = fingerprint s.atLast (s.rootfs ++ q) e) :
    e'.shape = e.shape := by
  cases e' with
  | dir m =>
    cases e with
    | dir m' => cases heq; rfl
    | symlink t => cases heq
    | file j d => cases heq
  | symlink t =>
    cases e with
    | dir m' => cases heq
    | symlink t' => cases heq; rfl
    | file j d => cases heq
  | file i d =>
    cases e with
    | dir m' => cases heq
    | symlink t' => cases heq
    | file j d' =>
      have hcontent := hc.no_collision q i j d d' h h' heq
      unfold fingerprint at heq
      rw [Fingerprint.file.injEq] at heq
      show Shape.file d.content d.mode = Shape.file d'.content d'.mode
      rw [hcontent, heq.2.2.1]

/-- What is there and did not change was there before, whether the walks got to it or not. -/
theorem Carries.unchanged (hc : Carries s target root) (h : seen s.after s.rootfs q = some e)
    (hq : ¬ s.Changed q) : ∃ e', seen s.before s.rootfs q = some e' ∧ e'.shape = e.shape := by
  cases hmet : s.metAfter q with
  | none => exact (hc.missed_after q e h hmet).2
  | some e₁ =>
    have hsame : e₁ = e := Option.some.inj ((seen_of_met hmet).symm.trans h)
    subst hsame
    have hold : (s.metBefore q).map (fingerprint s.atFirst (s.rootfs ++ q)) =
        some (fingerprint s.atLast (s.rootfs ++ q) e₁) := by
      by_contra hne
      exact hq ⟨e₁, hmet, hne⟩
    obtain ⟨e', he', heq⟩ := Option.map_eq_some_iff.mp hold
    exact ⟨e', seen_of_met he', hc.shape_eq he' hmet heq⟩

/-- What is gone the walks take for gone. -/
theorem Carries.gone (hc : Carries s target root) (h : seen s.before s.rootfs q = some e)
    (hnone : seen s.after s.rootfs q = none) : s.Gone q := by
  refine ⟨hc.missed_before q (by rw [h]; rfl) hnone, ?_⟩
  unfold Step.metAfter met
  rw [hnone]
  rfl

/-- At first, all that did not change is in place. -/
theorem packed_nil (hc : Carries s target root) (hroot : target.IsDir root)
    (hsame : ∀ q, seenView target root q = seenView s.before s.rootfs q) :
    Packed s target root [] target := by
  refine ⟨hroot, fun q e hseen hq => ?_, fun q v hv => .inr hv⟩
  obtain ⟨e', he', hshape⟩ := hc.unchanged hseen (hq.resolve_left List.not_mem_nil)
  rw [← hshape]
  exact viewAt_of_seenView ((hsame q).trans (seenView_of_seen he'))

/-- One entry is unpacked. -/
theorem packed_step (umask : Mode) (acc : Deferred) (hc : Carries s target root)
    (h : Packed s target root done tree)
    (hseen : seen s.after s.rootfs (p ++ [x]) = some e)
    (hchanged : s.Changed (p ++ [x]))
    (hparent : p ≠ [] → s.Changed p → joinPath p ∈ done) :
    ∃ acc' tree', processMember umask 0 true root (entryMember (joinPath (p ++ [x])) e) acc tree =
        (.ok acc', tree') ∧ acc'.links = acc.links ∧
      Packed s target root (done ++ [joinPath (p ++ [x])]) tree' := by
  obtain ⟨-, hget, -⟩ := seen_some hseen
  have hv := Fs.validName_of_get_append hget
  -- the parent stands as a directory: it is unpacked already, or it never changed
  have hdir : tree.IsDir (root ++ p) := by
    by_cases hp : p = []
    · rw [hp, List.append_nil]
      exact h.root_dir
    · obtain ⟨m, hm⟩ := seen_of_append hp (by simp) hseen
      have hsettled : joinPath p ∈ done ∨ ¬ s.Changed p := by
        by_cases hpc : s.Changed p
        · exact .inl (hparent hp hpc)
        · exact .inr hpc
      exact isDir_iff_viewAt.mpr ⟨_, h.settled p _ hm hsettled⟩
  -- what stands at the path is the entry already, or as in the target
  have hfrom : ∀ v, viewAt tree root (p ++ [x]) = some v →
      v = owned e.shape ∨ viewAt target root (p ++ [x]) = some v := by
    intro v hv
    refine (h.rest _ v hv).imp_left fun hdone => ?_
    rw [h.settled _ e hseen (.inl hdone.1), Option.some.injEq] at hv
    exact hv.symm
  -- the member is written with the shape of the entry, up to the owner bits of a directory
  obtain ⟨s, hs, howned, hkind⟩ : ∃ s, (entryMember (joinPath (p ++ [x])) e).shape = some s ∧
      owned s = owned e.shape ∧ s.isDir = e.isDir := by
    cases e with
    | dir m => exact ⟨_, rfl, owned_owned (.dir m), rfl⟩
    | file i d => exact ⟨_, rfl, rfl, rfl⟩
    | symlink t => exact ⟨.symlink t, if_neg (Fs.target_of_get hget), rfl, rfl⟩
  obtain ⟨acc', tree', hrun, hlinks, hshape⟩ := processMember_writes umask acc h.root_dir
    (by cases e <;> rfl) hv hs (hc.no_marker p x hchanged) hdir
    -- a file meets no directory in its place, neither its own nor the target's
    (by
      intro content mode hfile hisdir
      obtain ⟨m, hm⟩ := isDir_iff_viewAt.mp hisdir
      cases e with
      | dir m => rw [hfile] at hkind; cases hkind
      | symlink t => rw [hfile] at howned; cases howned
      | file i d =>
        rcases hfrom _ hm with hsame | htarget
        · cases hsame
        · exact hc.no_file_for_dir _ i d hseen (isDir_iff_viewAt.mpr ⟨m, htarget⟩))
    -- and a directory meets no file
    (by
      intro hsdir i d hfile
      cases e with
      | file i d => rw [hkind] at hsdir; cases hsdir
      | symlink t => rw [hkind] at hsdir; cases hsdir
      | dir m =>
        rcases hfrom _ (viewAt_of_get hfile) with hsame | hview
        · cases hsame
        · obtain ⟨e', htarget, howned'⟩ : ∃ e', target.get (root ++ (p ++ [x])) = some e' ∧
              owned e'.shape = .file d.content d.mode := by
            cases htarget : target.get (root ++ (p ++ [x])) with
            | none => rw [viewAt_eq_none.mpr htarget] at hview; cases hview
            | some e' =>
              rw [viewAt_of_get htarget, Option.some.injEq] at hview
              exact ⟨e', rfl, hview⟩
          cases e' with
          | file j d' => exact hc.no_dir_for_file _ m j d' hseen htarget
          | dir m' => cases howned'
          | symlink t => cases howned')
  -- so the tree shows the entry, nothing below it unless it is a directory, and all else as before
  have hview : ∀ q, viewAt tree' root q =
      if q = p ++ [x] then some (owned e.shape)
      else if e.isDir = false ∧ p ++ [x] <+: q then none
      else viewAt tree root q := by
    intro q
    unfold viewAt
    rw [hshape, hkind]
    simp only [List.append_right_inj, List.prefix_append_right_inj]
    split
    · rw [← howned]
      rfl
    · split <;> rfl
  refine ⟨acc', tree', hrun, hlinks, ?_, ?_, ?_⟩
  · have hrootview := hview []
    rw [if_neg (by simp), if_neg (by simp)] at hrootview
    have hroot := h.root_dir
    rw [← List.append_nil root] at hroot ⊢
    rw [isDir_iff_viewAt] at hroot ⊢
    rw [hrootview]
    exact hroot
  -- what was settled before is not below the path, or the entry there is a directory
  · intro q e' hseen' hq
    rw [hview]
    by_cases hpq : q = p ++ [x]
    · rw [hpq, hseen, Option.some.injEq] at hseen'
      rw [if_pos hpq, hseen']
    · rw [if_neg hpq, if_neg]
      · refine h.settled q e' hseen' (hq.imp_left fun hmem => ?_)
        rcases List.mem_append.mp hmem with hmem | hmem
        · exact hmem
        · rw [List.mem_singleton] at hmem
          exact absurd (seen_joinPath_inj hseen' hseen hmem) hpq
      · rintro ⟨hnot, hpre⟩
        rw [seen_below hseen hnot hpre hpq] at hseen'
        cases hseen'
  -- what the step did not leave is still of the target
  · intro q v hv'
    rw [hview] at hv'
    by_cases hpq : q = p ++ [x]
    · left
      rw [hpq, hseen]
      exact ⟨by simp, rfl⟩
    · rw [if_neg hpq] at hv'
      split at hv'
      · cases hv'
      · exact (h.rest q v hv').imp_left fun hd => ⟨by simp [hd.1], hd.2⟩

/-- All entries are unpacked, in the order of their paths. -/
theorem packed_thread (umask : Mode)
    (hc : Carries s target root) {todo : List (List Char)}
    (hsorted : (done ++ todo).Pairwise (· ≤ ·))
    (hall : ∀ rel, rel ∈ done ++ todo ↔ ∃ q, s.Changed q ∧ rel = joinPath q)
    (h : Packed s target root done tree) :
    ∃ acc' tree', Proc.thread (processMember umask 0 true root)
        (todo.filterMap (addEntry s.atLast s.after s.rootfs)) acc tree = (.ok acc', tree') ∧
      acc'.links = acc.links ∧ Packed s target root (done ++ todo) tree' := by
  induction todo generalizing done tree acc with
  | nil => exact ⟨acc, tree, rfl, rfl, by rwa [List.append_nil]⟩
  | cons rel todo ih =>
    obtain ⟨q, hchanged, rfl⟩ := (hall rel).mp (by simp)
    obtain ⟨e, hmet⟩ : ∃ e, s.metAfter q = some e := hchanged.imp fun e h => h.1
    have hseen := seen_of_met hmet
    obtain ⟨p, x, rfl⟩ := seen_concat hseen
    have hentry : addEntry s.atLast s.after s.rootfs (joinPath (p ++ [x])) =
        some (entryMember (joinPath (p ++ [x])) e) := by
      refine addEntry_eq hmet (fun t ht => hc.no_stand_in p x t hchanged (ht ▸ hseen))
        fun hdir hlink => ?_
      cases e with
      | file i d => exact hc.readable _ i d hchanged hseen
      | dir m => cases hdir
      | symlink t => cases hlink
    obtain ⟨acc₁, tree₁, hrun, hlinks, hpacked⟩ := packed_step umask acc hc h hseen hchanged
      (by
        -- a changed parent sorts in front, so it is not among what is still to do
        intro hp hpc
        obtain ⟨m, hm⟩ := seen_of_append hp (by simp) hseen
        have hmem := (hall (joinPath p)).mpr ⟨p, hpc, rfl⟩
        rcases List.mem_append.mp hmem with hmem | hmem
        · exact hmem
        · exfalso
          have hle : joinPath (p ++ [x]) ≤ joinPath p := by
            rcases List.mem_cons.mp hmem with heq | hmem
            · exact le_of_eq heq.symm
            · exact List.rel_of_pairwise_cons (List.pairwise_append.mp hsorted).2.1 hmem
          have hge : joinPath p ≤ joinPath (p ++ [x]) :=
            le_of_prefix (isPrefix_joinPath (List.prefix_append p [x]))
          have heq := seen_joinPath_inj hm hseen (le_antisymm hge hle)
          simp at heq)
    have happ : done ++ joinPath (p ++ [x]) :: todo = done ++ [joinPath (p ++ [x])] ++ todo := by
      simp
    rw [happ] at hsorted hall ⊢
    obtain ⟨acc₂, tree₂, hrun₂, hlinks₂, hpacked₂⟩ := ih hsorted hall hpacked
    refine ⟨acc₂, tree₂, ?_, hlinks₂.trans hlinks, hpacked₂⟩
    rw [List.filterMap_cons_some hentry, Proc.thread_cons_of_ok hrun]
    exact hrun₂

/-- With all of them unpacked, the tree holds what the step left. -/
theorem Packed.held (hall : ∀ q, s.Changed q → joinPath q ∈ done)
    (h : Packed s target root done tree) :
    Held s target root tree := by
  -- with nothing left to do, every path the step left is settled
  have hkept : ∀ q e, seen s.after s.rootfs q = some e → viewAt tree root q = some (owned e.shape) := by
    intro q e hseen
    refine h.settled q e hseen ?_
    by_cases hq : s.Changed q
    · exact .inl (hall q hq)
    · exact .inr hq
  refine ⟨h.root_dir, fun q v hv => ?_, fun q v hv => ?_⟩
  · obtain ⟨e, he, rfl⟩ := seenView_some hv
    exact hkept q e he
  · refine (h.rest q v hv).imp_left fun hdone => ?_
    obtain ⟨e, he⟩ := Option.isSome_iff_exists.mp hdone.2
    rw [seenView_of_seen he, ← hkept q e he]
    exact hv

end Members

/-! ## The whiteouts -/

section Whiteouts

variable {umask : Mode} {s : Step} {target tree : Fs} {root p q : Path} {x : Name}
  {acc : Deferred}

/-- The name of a whiteout is the name of a file. -/
theorem validName_whiteout (h : ValidName x) : ValidName (whPrefix ++ x) :=
  ⟨by simp [whPrefix], by simp [whPrefix], by simp [whPrefix], by simp [whPrefix, h.no_slash]⟩

/-- A whiteout takes away what is gone, and what the step has kept stays. -/
theorem held_step (umask : Mode) (acc : Deferred)
    (hc : Carries s target root) (h : Held s target root tree)
    (hgone : s.Gone (p ++ [x])) :
    ∃ tree', processMember umask 0 true root (addWhiteout (joinPath (p ++ [whPrefix ++ x]))) acc
        tree = (.ok acc, tree') ∧
      Held s target root tree' ∧
      (∀ q, tree'.get q = none ∨ tree'.get q = tree.get q) ∧
      tree'.get (root ++ (p ++ [x])) = none := by
  obtain ⟨e, hbefore⟩ := hgone.seen
  have hv := Fs.validName_of_get_append (seen_some hbefore).2.1
  have hp : ∀ c ∈ p, ValidName c := fun c hc => hv c (by simp [hc])
  have hvx : ValidName x := hv x (by simp)
  have hpath : memberPath 0 (addWhiteout (joinPath (p ++ [whPrefix ++ x]))).name =
      some (p, whPrefix ++ x) := by
    refine memberPath_joinPath fun c hc => ?_
    rcases List.mem_append.mp hc with hc | hc
    · exact hp c hc
    · rw [List.mem_singleton] at hc
      rw [hc]
      exact validName_whiteout hvx
  -- what stands at the path stands in directories, so it is found under its own path
  have hliteral : tree.get (root ++ (p ++ [x])) ≠ none →
      safeResolvePartsAt tree root p = some p ∧ tree.IsDir (root ++ p) := by
    intro hsome
    obtain ⟨e', he'⟩ := Option.ne_none_iff_exists'.mp hsome
    rw [← List.append_assoc] at he'
    have hdir := Fs.isDir_parent he'
    rw [safeResolvePartsAt_eq_chroot h.root_dir fun c hc => (hp c hc).no_slash]
    exact ⟨Fs.chroot_of_isDir hp hdir, hdir⟩
  -- a path that does not resolve has nothing standing at its end
  cases hres : safeResolvePartsAt tree root p with
  | none =>
    refine ⟨tree, processMember_unresolved hpath hres, h, fun q => .inr rfl, ?_⟩
    by_contra hsome
    rw [(hliteral hsome).1] at hres
    cases hres
  | some pp =>
    obtain ⟨tree', hrun, hget⟩ : ∃ tree', processMember umask 0 true root
        (addWhiteout (joinPath (p ++ [whPrefix ++ x]))) acc tree = (.ok acc, tree') ∧ _ :=
      processMember_whiteout h.root_dir (by simp [addWhiteout]) hpath
        (by simp [isWhiteout, List.isPrefixOf_iff_prefix]) hres
    have hhides : ∀ q, Hides (root ++ pp) (whPrefix ++ x) q ↔ root ++ pp ++ [x] <+: q := by
      intro q
      have hdrop : (whPrefix ++ x).drop 4 = x := rfl
      unfold Hides
      rw [if_neg (hc.no_opaque p x hgone), hdrop]
      simp [hvx]
    rw [safeResolvePartsAt_eq_chroot h.root_dir fun c hc => (hp c hc).no_slash] at hres
    have hview : ∀ q, viewAt tree' root q =
        if tree.IsDir (root ++ pp) ∧ pp ++ [x] <+: q then none else viewAt tree root q := by
      intro q
      unfold viewAt Fs.shape
      rw [hget]
      simp only [hhides, List.append_assoc, List.prefix_append_right_inj]
      split <;> rfl
    -- the root stays; what the step left is not below the whiteout; the rest was there before
    refine ⟨tree', hrun, ⟨?_, fun q v hv => ?_, fun q v hv => ?_⟩, fun q => ?_, ?_⟩
    · have hroot := h.root_dir
      rw [← List.append_nil root, isDir_iff_viewAt] at hroot ⊢
      rw [hview, if_neg (by simp)]
      exact hroot
    · rw [hview, if_neg]
      · exact h.kept q v hv
      · rintro ⟨hdir, hpre⟩
        have hnone := hc.no_crossing tree h p x pp hgone hres hdir
        obtain ⟨e', he', -⟩ := seenView_some hv
        by_cases hq : q = pp ++ [x]
        · rw [← hq, he'] at hnone
          cases hnone
        · obtain ⟨r, rfl⟩ := hpre
          obtain ⟨m, hm⟩ := seen_of_append (by simp) (by rintro rfl; simp at hq) he'
          rw [hnone] at hm
          cases hm
    · rw [hview] at hv
      split at hv
      · cases hv
      · exact h.left q v hv
    · rw [hget]
      split
      · exact .inl rfl
      · exact .inr rfl
    · by_contra hsome
      rw [hget] at hsome
      split at hsome
      · exact hsome rfl
      · rename_i hkept
        obtain ⟨hsafe, hdir⟩ := hliteral hsome
        rw [safeResolvePartsAt_eq_chroot h.root_dir fun c hc => (hp c hc).no_slash, hres,
          Option.some.injEq] at hsafe
        obtain rfl := hsafe
        exact hkept ⟨hdir, (hhides _).mpr (by rw [List.append_assoc])⟩

/-- All whiteouts together take away everything that is gone. -/
theorem held_thread (umask : Mode) (acc : Deferred)
    (hc : Carries s target root) {arcnames : List (List Char)}
    (harc : ∀ a ∈ arcnames, ∃ p x, s.Gone (p ++ [x]) ∧
      a = joinPath (p ++ [whPrefix ++ x]))
    (h : Held s target root tree) :
    ∃ tree', Proc.thread (processMember umask 0 true root) (arcnames.map addWhiteout) acc tree =
        (.ok acc, tree') ∧
      Held s target root tree' ∧
      (∀ q, tree'.get q = none ∨ tree'.get q = tree.get q) ∧
      ∀ p x, s.Gone (p ++ [x]) → joinPath (p ++ [whPrefix ++ x]) ∈ arcnames →
        tree'.get (root ++ (p ++ [x])) = none := by
  induction arcnames generalizing tree with
  | nil => exact ⟨tree, rfl, h, fun q => .inr rfl, fun p x _ hmem => absurd hmem (by simp)⟩
  | cons a arcnames ih =>
    obtain ⟨p, x, hgone, rfl⟩ := harc _ List.mem_cons_self
    obtain ⟨tree₁, hrun₁, hheld₁, hless₁, hnone₁⟩ : ∃ tree₁, processMember umask 0 true root
        (addWhiteout (joinPath (p ++ [whPrefix ++ x]))) acc tree = (.ok acc, tree₁) ∧ _ :=
      held_step umask acc hc h hgone
    obtain ⟨tree₂, hrun₂, hheld₂, hless₂, hnone₂⟩ :=
      ih (fun a ha => harc a (List.mem_cons_of_mem _ ha)) hheld₁
    -- the second run leaves less than the first, and each path is gone after its own whiteout
    refine ⟨tree₂, ?_, hheld₂, fun q => ?_, fun p' x' hgone' hmem => ?_⟩
    · rw [List.map_cons, Proc.thread_cons_of_ok hrun₁]
      exact hrun₂
    · rcases hless₂ q with hq | hq
      · exact .inl hq
      · rw [hq]
        exact hless₁ q
    · rcases List.mem_cons.mp hmem with heq | hmem
      · -- the whiteout of one path only: the names say which
        have hslash : ∀ p x, s.Gone (p ++ [x]) →
            ∀ c ∈ p ++ [whPrefix ++ x], Fs.NoSlash c := by
          intro p x hgone c hcmem
          obtain ⟨e, hbefore⟩ := hgone.seen
          have hv := Fs.validName_of_get_append (seen_some hbefore).2.1
          rcases List.mem_append.mp hcmem with hcmem | hcmem
          · exact (hv c (by simp [hcmem])).no_slash
          · rw [List.mem_singleton.mp hcmem]
            exact (validName_whiteout (hv x (by simp))).no_slash
        have hsame := joinPath_inj (by simp) (by simp) (hslash p' x' hgone') (hslash p x hgone) heq
        obtain ⟨rfl, hlast⟩ := List.append_inj' hsame rfl
        rw [List.cons.injEq, List.append_cancel_left_eq] at hlast
        rw [hlast.1]
        rcases hless₂ (root ++ (p' ++ [x])) with hq | hq
        · exact hq
        · rw [hq]
          exact hnone₁
      · exact hnone₂ p' x' hgone' hmem

end Whiteouts

/-! ## The round trip -/

section RoundTrip

variable {umask : Mode} {s : Step} {target : Fs} {root : Path}

/-- With everything that is gone taken away, what is seen of the tree is what the step left. -/
theorem Held.seenView_eq {tree : Fs} (hc : Carries s target root)
    (hsame : ∀ q, seenView target root q = seenView s.before s.rootfs q)
    (h : Held s target root tree)
    (hgone : ∀ q, s.Gone q → tree.get (root ++ q) = none) (q : Path) :
    seenView tree root q = seenView s.after s.rootfs q := by
  cases hafter : seenView s.after s.rootfs q with
  | some v =>
    obtain ⟨e, he, rfl⟩ := seenView_some hafter
    exact seenView_of_viewAt he (h.kept q _ hafter)
  | none =>
    rw [seenView_eq_none]
    by_contra hsome
    obtain ⟨e, he⟩ := Option.ne_none_iff_exists'.mp hsome
    have hget := (seen_some he).2.1
    -- it was seen in the target too, so it is among what is gone
    have htarget : seenView target root q = some (owned e.shape) :=
      seenView_of_viewAt he ((h.left q _ (viewAt_of_get hget)).resolve_left (by rw [hafter]; simp))
    rw [hsame] at htarget
    obtain ⟨e', he', -⟩ := seenView_some htarget
    rw [hgone q (hc.gone he' (seenView_eq_none.mp hafter))] at hget
    cases hget

/-- The members of a layer: where the rootfs may not be opened, nothing has changed either. -/
theorem runLayer_eq (hb : s.before.IsDir s.rootfs) (ha : s.after.IsDir s.rootfs) :
    runLayer s =
      (sorted (s.delta.added ++ s.delta.modified)).filterMap
          (addEntry s.atLast s.after s.rootfs) ++
        (whiteoutPaths s.delta.deleted []).map addWhiteout := by
  unfold runLayer writeLayerTar
  cases hopen : s.atLast .opendir s.rootfs with
  | false => rw [if_pos ⟨ha, rfl⟩]
  | true =>
    have hnone : sorted (s.delta.added ++ s.delta.modified) = [] := by
      rw [List.eq_nil_iff_forall_not_mem]
      intro rel hrel
      obtain ⟨q, ⟨e, hmet, -⟩, -⟩ := (mem_changed hb ha).mp ((List.mem_insertionSort _).mp hrel)
      rw [(meets_of_met hmet).1] at hopen
      cases hopen
    rw [hnone, if_neg (by simp)]
    rfl

/-- **The round trip of a RUN layer.** For every step, whatever is refused while its trees are
walked, and every target that looks like the tree the step started from: if the layer of the step
`Carries`, applying it succeeds and leaves the tree the step left. The same paths are seen, each
with its kind, its content, its link target and its permissions, a directory's owner bits aside. -/
theorem run_layer_round_trip (R : Refusals) (umask : Mode) (s : Step) (target : Fs) (root : Path)
    (hb : s.before.IsDir s.rootfs) (ha : s.after.IsDir s.rootfs) (hroot : target.IsDir root)
    (hsame : ∀ q, seenView target root q = seenView s.before s.rootfs q)
    (hc : Carries s target root) :
    ∃ result, applyLayer R umask root (runLayer s) target = (.ok [], result) ∧
      ∀ q, seenView result root q = seenView s.after s.rootfs q := by
  let rels := sorted (s.delta.added ++ s.delta.modified)
  have hrels : ∀ rel, rel ∈ rels ↔ ∃ q, s.Changed q ∧ rel = joinPath q :=
    fun rel => (List.mem_insertionSort _).trans (mem_changed hb ha)
  -- first the members: what changed is unpacked over the target
  obtain ⟨acc, packed, hmembers, hlinks, hpacked⟩ : ∃ acc packed,
      Proc.thread (processMember umask 0 true root)
        (rels.filterMap (addEntry s.atLast s.after s.rootfs)) .empty target =
          (.ok acc, packed) ∧ _ ∧ _ :=
    packed_thread umask hc (List.sortedLE_insertionSort).pairwise hrels
      (packed_nil hc hroot hsame)
  have hdeleted : ∀ rel ∈ s.delta.deleted, ∃ p x,
      (∀ c ∈ p ++ [x], ValidName c) ∧ rel = joinPath (p ++ [x]) := by
    intro rel hrel
    obtain ⟨q, hgone, rfl⟩ := (mem_deleted hb ha).mp hrel
    obtain ⟨e, he⟩ := hgone.seen
    obtain ⟨p, x, rfl⟩ := seen_concat he
    exact ⟨p, x, Fs.validName_of_get_append (seen_some he).2.1, rfl⟩
  -- then the whiteouts: they find the tree with what the step left in it, and the remains
  have hheld := hpacked.held fun q hq => (hrels _).mpr ⟨q, hq, rfl⟩
  obtain ⟨tree, hwhiteouts, hheld', -, hnone⟩ : ∃ tree,
      Proc.thread (processMember umask 0 true root)
        ((whiteoutPaths s.delta.deleted []).map addWhiteout) acc packed =
          (.ok acc, tree) ∧ _ :=
    held_thread umask acc hc (by
      intro a hmem
      obtain ⟨p, x, hv, hrel, rfl⟩ := (mem_whiteoutPaths hdeleted).mp hmem
      obtain ⟨q, hgone, heq⟩ := (mem_deleted hb ha).mp hrel
      obtain ⟨e, he⟩ := hgone.seen
      have hq := joinPath_inj (by simp) (seen_some he).1 (fun c hc => (hv c hc).no_slash)
        (fun c hc => (Fs.validName_of_get_append (seen_some he).2.1 c hc).no_slash) heq
      exact ⟨p, x, hq ▸ hgone, rfl⟩) hheld
  have hgone : ∀ q, s.Gone q → tree.get (root ++ q) = none := by
    intro q hq
    obtain ⟨e, he⟩ := hq.seen
    obtain ⟨p, x, rfl⟩ := seen_concat he
    exact hnone p x hq ((mem_whiteoutPaths hdeleted).mpr
      ⟨p, x, Fs.validName_of_get_append (seen_some he).2.1, (mem_deleted hb ha).mpr ⟨_, hq, rfl⟩, rfl⟩)
  -- no hard link waits in a layer, so the times are all that is set at the end
  obtain ⟨result, happly, hshape⟩ : ∃ result,
      applyLayer R umask root (runLayer s) target = (.ok [], result) ∧
        ∀ q, result.shape q = tree.shape q := by
    refine applyLayer_of_thread R ?_ hlinks
    rw [runLayer_eq hb ha, Proc.thread_append hmembers]
    exact hwhiteouts
  refine ⟨result, happly, fun q => ?_⟩
  rw [← hheld'.seenView_eq hc hsame hgone q]
  exact seenView_congr hshape q

/-- No whiteout crosses a link where no directory that lost an entry has become one. -/
theorem no_crossing_of_noLink (hc : ∀ q, s.Gone q → seen s.after s.rootfs q = none)
    (hsame : ∀ q, seenView target root q = seenView s.before s.rootfs q)
    (hlink : ∀ p x r t, s.Gone (p ++ [x]) → r <+: p →
      seen s.after s.rootfs r ≠ some (.symlink t)) :
    ∀ tree, Held s target root tree → ∀ p x pp, s.Gone (p ++ [x]) →
      tree.chroot root p = some pp → tree.IsDir (root ++ pp) →
      seen s.after s.rootfs (pp ++ [x]) = none := by
  intro tree hheld p x pp hgone hres _
  obtain ⟨e, he⟩ := hgone.seen
  have hv := Fs.validName_of_get_append (seen_some he).2.1
  have hnolink : tree.NoLinkOn root p := by
    intro r t hr hne ht
    have hview : viewAt tree root r = some (.symlink t) := viewAt_of_get ht
    rcases hheld.left r _ hview with hafter | htarget
    · obtain ⟨e', he', howned⟩ := seenView_some hafter
      cases e' with
      | dir m => cases howned
      | file i d => cases howned
      | symlink t' => exact hlink p x r t' hgone hr he'
    · -- a level of what is gone was a directory
      obtain ⟨s, rfl⟩ := hr
      rw [List.append_assoc] at he
      obtain ⟨m, hm⟩ := seen_of_append hne (by simp) he
      have hdir := viewAt_of_seenView ((hsame r).trans (seenView_of_seen hm))
      rw [htarget] at hdir
      cases hdir
  rw [Fs.chroot_of_noLink (fun c hc => hv c (by simp [hc])) hnolink, Option.some.injEq] at hres
  rw [← hres]
  exact hc _ hgone

/-! ### Trees written down -/

/-- A tree of files, directories and links; every file has an inode of its own, mode 644 and
time 0. -/
def treeOf (entries : List (String × Option (String ⊕ String))) : Fs :=
  Fs.ofList (entries.zipIdx.map fun x =>
    (splitPath x.1.1.toList, match x.1.2 with
      | none => .dir 0o755
      | some (.inl content) => .file x.2 ⟨content.toUTF8.toList, 0o644, 0⟩
      | some (.inr target) => .symlink target.toList))

def dirEntry : Option (String ⊕ String) := none

def fileEntry (content : String) : Option (String ⊕ String) := some (.inl content)

def linkEntry (target : String) : Option (String ⊕ String) := some (.inr target)

/-- A step between two trees that may be walked everywhere. -/
def Step.between (before after : Fs) : Step := ⟨before, after, [], noRefusals, noRefusals⟩

/-- A process that may not do one thing. -/
def refusedAt (call : Call) (q : Path) : Refusals := fun call' q' => call' = call && q' = q

/-- A file rewritten in place, a link turned, a directory with a file made, a file removed; one
file may not be read, before and after. -/
def mixedStep : Step where
  before := treeOf [("d", dirEntry), ("d/x", fileEntry "x"), ("f", fileEntry "one"),
    ("l", linkEntry "f"), ("k", fileEntry "key")]
  after := treeOf [("d", dirEntry), ("f", fileEntry "two"), ("l", linkEntry "d"), ("g", dirEntry),
    ("g/y", fileEntry "y"), ("k", fileEntry "key")]
  rootfs := []
  atFirst := refusedAt .read [['k']]
  atLast := refusedAt .read [['k']]

/-- What is seen of a tree from its root is in its table. -/
theorem forall_seen {fs : Fs} {P : Path → Entry → Prop}
    (h : ∀ y ∈ fs.table.entries, P y.1 y.2) {q : Path} {e : Entry} (hq : seen fs [] q = some e) :
    P q e :=
  Fs.forall_get h (seen_some hq).2.1

/-- Where no more is refused than reading files, a snapshot records all it is to record. -/
theorem met_eq_seen {R : Refusals} {fs : Fs} {rootfs : Path} (h : ∀ c q, R c q = true → c = .read)
    (q : Path) : met R fs rootfs q = seen fs rootfs q := by
  have hfalse : ∀ c q, c ≠ .read → R c q = false := by
    intro c q hne
    rw [← Bool.not_eq_true]
    exact fun hr => hne (h c q hr)
  have hreach : ∀ d r, R.reaches d r = true := by
    intro d r
    induction r generalizing d with
    | nil => rfl
    | cons c r ih => simp [Refusals.reaches, hfalse, ih]
  unfold met
  cases seen fs rootfs q with
  | none => rfl
  | some e => simp [meets, hreach, hfalse]

/-- Nothing is refused before the step, so that its walk meets what is there. -/
theorem mixedStep_metBefore (q : Path) : mixedStep.metBefore q = seen mixedStep.before [] q :=
  met_eq_seen (by simp +contextual [mixedStep, refusedAt]) q

/-- The same after the step. -/
theorem mixedStep_metAfter (q : Path) : mixedStep.metAfter q = seen mixedStep.after [] q :=
  met_eq_seen (by simp +contextual [mixedStep, refusedAt]) q

/-- A step that adds, changes and removes entries, and what its layer restores. -/
theorem run_layer_round_trip_mixed :
    ∃ result, applyLayer noRefusals 0o022 [] (runLayer mixedStep) mixedStep.before =
        (.ok [], result) ∧ ∀ q, seenView result [] q = seenView mixedStep.after [] q := by
  have hgone : ∀ p x, mixedStep.Gone (p ++ [x]) → p = [['d']] ∧ x = ['x'] := by
    intro p x hgone
    obtain ⟨e, he⟩ := hgone.seen
    have hnone := hgone.2
    rw [mixedStep_metAfter] at hnone
    have hq := forall_seen (P := fun q _ => seen mixedStep.after [] q = none →
      q = [] ∨ q = [['d'], ['x']]) (by decide +kernel) he hnone
    have happ : p ++ [x] = [['d']] ++ [['x']] := hq.resolve_left (by simp)
    obtain ⟨hp, hx⟩ := List.append_inj' happ rfl
    exact ⟨hp, by simpa using hx⟩
  refine run_layer_round_trip noRefusals 0o022 mixedStep mixedStep.before [] (Fs.isDir_root _)
    (Fs.isDir_root _) (Fs.isDir_root _) (fun q => rfl) ⟨?_, ?_, ?_, ?_, ?_, ?_, ?_, ?_, ?_, ?_⟩
  · intro q e hseen hmet
    rw [mixedStep_metAfter] at hmet
    rw [show seen mixedStep.after [] q = some e from hseen] at hmet
    cases hmet
  · intro q hseen _
    rw [mixedStep_metBefore]
    exact hseen
  · intro q i d hchanged hseen
    -- only the file that did not change may not be read
    have hq : q ≠ [['k']] := by
      rintro rfl
      obtain ⟨e, hmet, hne⟩ := hchanged
      have hsome : mixedStep.metAfter [['k']] =
          some (.file 5 ⟨"key".toUTF8.toList, 0o644, 0⟩) := by decide +kernel
      obtain rfl := Option.some.inj (hmet.symm.trans hsome)
      exact hne (by decide +kernel)
    simp [mixedStep, refusedAt, hq]
  · intro q i j d d' hbefore hafter heq
    rw [mixedStep_metBefore] at hbefore
    rw [mixedStep_metAfter] at hafter
    have hall := forall_seen (P := fun q e => ∀ z ∈ mixedStep.after.table.entries, z.1 = q →
      fingerprint mixedStep.atFirst q e = fingerprint mixedStep.atLast q z.2 →
      e.shape = z.2.shape) (by decide +kernel) hbefore
    have hshape := hall ⟨q, .file j d'⟩ (List.of_mem_dlookup (seen_some hafter).2.1) rfl heq
    exact (Shape.file.injEq _ _ _ _).mp hshape |>.1
  · intro p x hchanged
    obtain ⟨e, he⟩ := hchanged.seen
    have hname := forall_seen (P := fun q _ => isWhiteout (q.getLastD []) = false)
      (by decide +kernel) he
    simpa using hname
  · intro p x h
    rw [(hgone p x h).2]
    decide
  · intro p x t _ ht
    have hl2s := forall_seen (P := fun _ e => L2s.isL2sLink e = false) (by decide +kernel) ht
    exact l2sBacking_of_not_l2s hl2s
  · intro q i d hq
    exact forall_seen (P := fun q e => e.isDir = false → e.isLink = false →
      ¬ mixedStep.before.IsDir ([] ++ q)) (by decide +kernel) hq rfl rfl
  · intro q m i d hq hfile
    have hall := forall_seen (P := fun q e => e.isDir = true →
      ∀ z ∈ mixedStep.before.table.entries, z.1 = q → z.2.isDir = true) (by decide +kernel) hq rfl
    exact absurd (hall ⟨q, .file i d⟩ (List.of_mem_dlookup hfile) rfl) (by simp [Entry.isDir])
  · refine no_crossing_of_noLink (fun q h => ?_) (fun q => rfl) fun p x r t h hr ht => ?_
    · have hnone := h.2
      rw [mixedStep_metAfter] at hnone
      exact hnone
    · rw [(hgone p x h).1] at hr
      have hlink := forall_seen (P := fun q e => e.isLink = true → ¬ q <+: [['d']])
        (by decide +kernel) ht rfl
      exact hlink hr

/-! ### Steps whose layers give another tree

For each thing `Carries` asks for, a step without it. -/

/-- The round trip as one would like to have it, of a rootfs that is all there is. -/
def RoundTrip (umask : Mode) (s : Step) : Prop :=
  ∃ result, applyLayer noRefusals umask s.rootfs (runLayer s) s.before = (.ok [], result) ∧
    ∀ q ≠ [], viewAt result s.rootfs q = viewAt s.after s.rootfs q

/-- A layer that cannot be applied restores nothing. -/
theorem not_roundTrip_of_error
    (h : (applyLayer noRefusals umask s.rootfs (runLayer s) s.before).1.toOption = none) :
    ¬ RoundTrip umask s := by
  rintro ⟨result, hrun, -⟩
  rw [hrun] at h
  cases h

/-- Nor does one that leaves a path looking otherwise. -/
theorem not_roundTrip_of_view {q : Path} (hq : q ≠ [])
    (h : viewAt (applyLayer noRefusals umask s.rootfs (runLayer s) s.before).2 s.rootfs q ≠
      viewAt s.after s.rootfs q) : ¬ RoundTrip umask s := by
  rintro ⟨result, hrun, hview⟩
  rw [hrun] at h
  exact h (hview q hq)

/-- A directory `d` of the given mode, with a file in it or without. -/
def dirOf (mode : Mode) (entry : Bool) : Fs :=
  Fs.ofList ((([['d']], .dir mode) : Path × Entry) ::
    if entry then [([['d'], ['x']], .file 0 ⟨"x".toUTF8.toList, 0o644, 0⟩)] else [])

/-- Steps whose layers do not carry what they did: a file rewritten with content of the same
checksum, a name that reads as a whiteout, a name whose whiteout reads as an opaque marker,
a stand-in for a hard link, a directory made a file, a file made a directory, a directory
made a link to one with an entry of the same name; and with what a process may not do: a file left
that may not be read, a directory left that may not be listed with a new file in it, one that could
be listed at first, and a file removed from one that could not. -/
def lostSteps : List Step :=
  [.between (treeOf [("f", fileEntry "plumless")]) (treeOf [("f", fileEntry "buckeroo")]),
   .between (treeOf []) (treeOf [(".wh.f", fileEntry "f")]),
   .between (treeOf [(".wh..opq", fileEntry "f"), ("g", fileEntry "g")])
    (treeOf [("g", fileEntry "g")]),
   .between (treeOf []) (treeOf [(".l2s.f0001", fileEntry "f"), ("f", linkEntry ".l2s.f0001")]),
   .between (treeOf [("d", dirEntry)]) (treeOf [("d", fileEntry "f")]),
   .between (treeOf [("f", fileEntry "f")]) (treeOf [("f", dirEntry)]),
   .between (treeOf [("bin", dirEntry), ("bin/ls", fileEntry "old"), ("usr", dirEntry),
      ("usr/ls", fileEntry "new")])
    (treeOf [("bin", linkEntry "usr"), ("usr", dirEntry), ("usr/ls", fileEntry "new")]),
   ⟨treeOf [], Fs.ofList [([['f']], .file 0 ⟨"f".toUTF8.toList, 0, 0⟩)], [], noRefusals,
    refusedAt .read [['f']]⟩,
   ⟨treeOf [], dirOf 0o300 true, [], noRefusals, refusedAt .listdir [['d']]⟩,
   ⟨dirOf 0o700 true, dirOf 0o300 true, [], noRefusals, refusedAt .listdir [['d']]⟩,
   ⟨dirOf 0o300 true, dirOf 0o700 false, [], refusedAt .listdir [['d']], noRefusals⟩]

/-- Not every step survives its layer: none of `lostSteps` does. -/
theorem run_layer_loses :
    (¬ ∀ umask s, RoundTrip umask s) ∧ ∀ s ∈ lostSteps, ¬ RoundTrip 0o022 s := by
  have hlost : ∀ s ∈ lostSteps, ¬ RoundTrip 0o022 s := by
    intro s hs
    simp only [lostSteps, List.mem_cons, List.not_mem_nil, or_false] at hs
    rcases hs with rfl | rfl | rfl | rfl | rfl | rfl | rfl | rfl | rfl | rfl | rfl
    · exact not_roundTrip_of_view (q := [['f']]) (by decide) (by decide +kernel)
    · exact not_roundTrip_of_view (q := [".wh.f".toList]) (by decide) (by decide +kernel)
    · exact not_roundTrip_of_view (q := [['g']]) (by decide) (by decide +kernel)
    · exact not_roundTrip_of_view (q := [['f']]) (by decide) (by decide +kernel)
    · exact not_roundTrip_of_error (by decide +kernel)
    · exact not_roundTrip_of_error (by decide +kernel)
    · exact not_roundTrip_of_view (q := [['u', 's', 'r'], ['l', 's']]) (by decide) (by decide +kernel)
    · exact not_roundTrip_of_view (q := [['f']]) (by decide) (by decide +kernel)
    · exact not_roundTrip_of_view (q := [['d'], ['x']]) (by decide) (by decide +kernel)
    · exact not_roundTrip_of_view (q := [['d'], ['x']]) (by decide) (by decide +kernel)
    · exact not_roundTrip_of_view (q := [['d'], ['x']]) (by decide) (by decide +kernel)
  exact ⟨fun h => hlost _ (List.mem_cons_self) (h _ _), hlost⟩

end RoundTrip

end LayerDiff

end ProotDistro
