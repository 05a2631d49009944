import ProotDistro.BuildEngine.CopyLayer
import ProotDistro.BuildEngine.Effects

/-!
# WORKDIR and its layer

WORKDIR makes its directory in the rootfs and packs those levels of it that were missing into a
layer. What the instruction does to the rootfs and what its layer does when it is applied are
two computations: the first makes missing levels with the mode the umask leaves and gives the
last one mode 755, also where it was there before; the second has an entry of mode 755 for every
level down to the last, those that were there included.

Names are of any length here. A file system refuses one that is too long, and `makedirs_at` then stops
at it, with the levels above made and no layer for them.

* **`doWorkdir_outcome`** — the four things WORKDIR can do to a tree.
* **`applyLayer_workdir`** — what its layer does.
* **`workdir_layer_faithful`** — the two agree where the modes fit (`ModesFit`).
* **`modesFit_of_faithful`** — and nowhere else.
-/

namespace ProotDistro

open Posix Dirfd TarExtract LayerDiff Dockerfile CopyStep

namespace BuildEngine

/-! ## The missing levels -/

section Levels

variable {fs : Fs} {d : Path} {parts done q : Path}

/-- Below something missing every part is. -/
theorem mem_missingBelow_none :
    q ∈ missingBelow fs none done parts ↔ ∃ r, r ≠ [] ∧ r <+: parts ∧ q = done ++ r := by
  induction parts generalizing done with
  | nil =>
    constructor
    · intro h
      cases h
    · rintro ⟨r, hr, hpre, -⟩
      exact absurd (List.prefix_nil.mp hpre) hr
  | cons c parts ih =>
    show q ∈ (done ++ [c]) :: missingBelow fs none (done ++ [c]) parts ↔ _
    rw [List.mem_cons, ih]
    constructor
    · rintro (rfl | ⟨r, -, hpre, rfl⟩)
      · exact ⟨[c], by simp, ⟨parts, rfl⟩, rfl⟩
      · exact ⟨c :: r, by simp, List.cons_prefix_cons.mpr ⟨rfl, hpre⟩, by simp⟩
    · rintro ⟨r, hr, hpre, rfl⟩
      rcases List.prefix_cons_iff.mp hpre with rfl | ⟨r', rfl, hpre'⟩
      · exact absurd rfl hr
      · by_cases hr' : r' = []
        · exact .inl (by rw [hr'])
        · exact .inr ⟨r', hr', hpre', by simp⟩

/-- The levels reported are those where nothing stands. -/
theorem mem_missingBelow (hv : ∀ c ∈ parts, ValidName c) :
    q ∈ missingBelow fs (some d) done parts ↔
      ∃ r, r ≠ [] ∧ r <+: parts ∧ fs.get (d ++ r) = none ∧ q = done ++ r := by
  -- by induction on the levels that remain, the directory being open for as long as one stands
  induction parts generalizing d done with
  | nil =>
    constructor
    · intro h
      cases h
    · rintro ⟨r, hr, hpre, -⟩
      exact absurd (List.prefix_nil.mp hpre) hr
  | cons c parts ih =>
    have hc : ValidName c := hv c List.mem_cons_self
    have hrest : ∀ x ∈ parts, ValidName x := fun x hx => hv x (List.mem_cons_of_mem c hx)
    have hbelow : ¬ fs.IsDir (d ++ [c]) → ∀ r, r ≠ [] → fs.get (d ++ c :: r) = none := by
      intro hndir r hr
      rw [show d ++ c :: r = d ++ [c] ++ r by simp]
      exact Fs.get_append_eq_none hr hndir
    unfold missingBelow
    unfold Fs.lstatAt
    rw [Fs.locate_valid hc]
    cases hget : fs.get (d ++ [c]) with
    -- nothing stands at this level, nor at one below it
    | none =>
      have hndir : ¬ fs.IsDir (d ++ [c]) := by
        rintro ⟨m, hm⟩
        rw [hget] at hm
        cases hm
      simp only [List.mem_cons, mem_missingBelow_none]
      constructor
      · rintro (rfl | ⟨r, hr, hpre, rfl⟩)
        · exact ⟨[c], by simp, ⟨parts, rfl⟩, hget, rfl⟩
        · exact ⟨c :: r, by simp, List.cons_prefix_cons.mpr ⟨rfl, hpre⟩, hbelow hndir r hr, by simp⟩
      · rintro ⟨r, hr, hpre, -, rfl⟩
        rcases List.prefix_cons_iff.mp hpre with rfl | ⟨r', rfl, hpre'⟩
        · exact absurd rfl hr
        · by_cases hr' : r' = []
          · exact .inl (by rw [hr'])
          · exact .inr ⟨r', hr', hpre', by simp⟩
    | some e =>
      simp only
      -- a directory is opened, and the levels below are looked at in it
      by_cases hdir : fs.IsDir (d ++ [c])
      · rw [openDirAt_of_isDir hc hdir]
        simp only [Except.toOption]
        rw [ih hrest]
        constructor
        · rintro ⟨r, hr, hpre, hnone, rfl⟩
          refine ⟨c :: r, by simp, List.cons_prefix_cons.mpr ⟨rfl, hpre⟩, ?_, by simp⟩
          rw [← hnone]
          simp
        · rintro ⟨r, hr, hpre, hnone, rfl⟩
          rcases List.prefix_cons_iff.mp hpre with rfl | ⟨r', rfl, hpre'⟩
          · exact absurd rfl hr
          · refine ⟨r', ?_, hpre', ?_, by simp⟩
            · rintro rfl
              rw [hget] at hnone
              cases hnone
            · rw [← hnone]
              simp
      -- anything else is not opened, and nothing stands below it
      · rw [openDirAt_of_not_isDir hc hdir]
        simp only [Except.toOption, mem_missingBelow_none]
        constructor
        · rintro ⟨r, hr, hpre, rfl⟩
          exact ⟨c :: r, by simp, List.cons_prefix_cons.mpr ⟨rfl, hpre⟩, hbelow hdir r hr, by simp⟩
        · rintro ⟨r, hr, hpre, hnone, rfl⟩
          rcases List.prefix_cons_iff.mp hpre with rfl | ⟨r', rfl, hpre'⟩
          · exact absurd rfl hr
          · refine ⟨r', ?_, hpre', by simp⟩
            rintro rfl
            rw [hget] at hnone
            cases hnone

end Levels

/-! ## What the instruction does to the rootfs -/

/-- Nothing stands at `parts`, and nothing but directories on the way there. -/
structure Missing (fs : Fs) (rootfs parts : Path) : Prop where
  absent : fs.get (rootfs ++ parts) = none
  free : ∀ r, r <+: parts → fs.get (rootfs ++ r) = none ∨ fs.IsDir (rootfs ++ r)

/-- What WORKDIR does to a tree, and the levels its layer is for. -/
inductive WorkdirEffect (umask : Mode) (before : Fs) (rootfs parts : Path) :
    Fs → List Path → Prop
  | existing {after : Fs} (hdir : before.IsDir (rootfs ++ parts))
      (hget : ∀ q, after.get q =
        if q = rootfs ++ parts then some (.dir 0o755) else before.get q) :
      WorkdirEffect umask before rootfs parts after []
  | refused (hndir : ¬ before.IsDir (rootfs ++ parts)) (hblocked : ¬ Missing before rootfs parts) :
      WorkdirEffect umask before rootfs parts before []
  | made {after : Fs} {newDirs : List Path} (hmissing : Missing before rootfs parts)
      (hget : ∀ q, after.get q =
        if q = rootfs ++ parts then some (.dir 0o755)
        else if before.get q = none ∧ rootfs <+: q ∧ q <+: rootfs ++ parts then
          some (.dir (newDirMode umask))
        else before.get q)
      (hnew : ∀ q, q ∈ newDirs ↔ q ≠ [] ∧ q <+: parts ∧ before.get (rootfs ++ q) = none) :
      WorkdirEffect umask before rootfs parts after newDirs

/-- The components of the directory below the rootfs. -/
def workdirParts (b : Build) (instr : Instr) (stage : Stage) (fs : Fs) : Option Path :=
  let path := normPath (osJoin (osJoin ['/'] stage.workdir) (Text.strip (b.valueText instr.value)))
  safeResolvePartsAt fs (rootfsDir b stage.index)
    (splitPath ((path.dropWhile (· = '/')).rdropWhile (· = '/')))

/-- The members of the layer an instruction has emitted, none where it has emitted none. -/
def emitted (stage stage' : Stage) (w' : World) : List Member :=
  if stage'.layers = stage.layers then []
  else ((stage'.layers.getLast?).bind fun l => Dict.get w'.blobs l.digest).getD []

/-- What the layer of a map emits is its archive. -/
theorem emitted_addMapLayer (b : Build) (fileMap : FileMap) {stage s : Stage}
    (hs : s.layers = stage.layers) (w : World) :
    emitted stage (addMapLayer b fileMap s w).1 (addMapLayer b fileMap s w).2 =
      writeFilesLayer w.fs fileMap := by
  have hlayers : (addMapLayer b fileMap s w).1.layers =
      stage.layers ++ [b.pack (writeFilesLayer w.fs fileMap)] := by
    rw [← hs]
    rfl
  have hblobs : Dict.get (addMapLayer b fileMap s w).2.blobs
      (b.pack (writeFilesLayer w.fs fileMap)).digest = some (writeFilesLayer w.fs fileMap) :=
    Dict.get_set_self
  unfold emitted
  rw [hlayers, if_neg (by simp), List.getLast?_concat, Option.bind_some, hblobs]
  rfl

section Outcome

variable {b : Build} {instr : Instr} {stage stage' : Stage} {w w' : World} {fs : Fs}
  {rootfs parts : Path}

/-- The parts of the working directory are names. -/
theorem workdirParts_valid (hroot : w.fs.IsDir (rootfsDir b stage.index))
    (h : workdirParts b instr stage w.fs = some parts) : ∀ c ∈ parts, ValidName c := by
  unfold workdirParts at h
  simp only at h
  rw [safeResolvePartsAt_eq_chroot hroot fun c hc => Fs.noSlash_of_mem_splitPath hc] at h
  exact (Fs.chroot_resolved (fun c hc => Fs.noSlash_of_mem_splitPath hc) h).valid

/-- Where the directory is there it gets mode 755. -/
theorem makedirsAt_existing {umask : Mode} (hv : ∀ c ∈ parts, ValidName c)
    (hdir : fs.IsDir (rootfs ++ parts)) :
    ∃ after, makedirsAt umask rootfs parts 0o755 fs = (.ok (some (rootfs ++ parts)), after) ∧
      ∀ q, after.get q = if q = rootfs ++ parts then some (.dir 0o755) else fs.get q := by
  obtain ⟨after, hchmod, hget⟩ := chmodAt_self 0o755 hdir
  refine ⟨after, ?_, hget⟩
  unfold makedirsAt
  apply Proc.optional_of_ok
  rw [Proc.bind_of_ok (descendAt_of_isDir hv hdir), Proc.bind_of_ok hchmod]
  rfl

/-- Where it is missing, its levels are made, and the last one gets mode 755. -/
theorem makedirsAt_missing {umask : Mode} (hv : ∀ c ∈ parts, ValidName c)
    (hroot : fs.IsDir rootfs) (hmissing : Missing fs rootfs parts) :
    ∃ after, makedirsAt umask rootfs parts 0o755 fs = (.ok (some (rootfs ++ parts)), after) ∧
      ∀ q, after.get q =
        if q = rootfs ++ parts then some (.dir 0o755)
        else if fs.get q = none ∧ rootfs <+: q ∧ q <+: rootfs ++ parts then
          some (.dir (newDirMode umask))
        else fs.get q := by
  obtain ⟨fs₁, hdescend, hget₁⟩ : ∃ fs₁, descendAt umask true rootfs parts fs =
      (.ok (rootfs ++ parts), fs₁) ∧ _ := descendAt_create hv hroot hmissing.free
  have hdir₁ : fs₁.IsDir (rootfs ++ parts) := by
    refine ⟨newDirMode umask, ?_⟩
    rw [hget₁, if_pos ⟨hmissing.absent, List.prefix_append _ _, List.prefix_refl _⟩]
  obtain ⟨after, hchmod, hget⟩ := chmodAt_self 0o755 hdir₁
  refine ⟨after, ?_, fun q => ?_⟩
  · unfold makedirsAt
    apply Proc.optional_of_ok
    rw [Proc.bind_of_ok hdescend, Proc.bind_of_ok hchmod]
    rfl
  · rw [hget, hget₁]

/-- Something else in the way leaves the tree alone. -/
theorem makedirsAt_refused (umask : Mode) (hv : ∀ c ∈ parts, ValidName c)
    (hroot : fs.IsDir rootfs) (hndir : ¬ fs.IsDir (rootfs ++ parts))
    (hblocked : ¬ Missing fs rootfs parts) :
    makedirsAt umask rootfs parts 0o755 fs = (.ok none, fs) := by
  have hway : ∃ r, r <+: parts ∧ fs.get (rootfs ++ r) ≠ none ∧ ¬ fs.IsDir (rootfs ++ r) := by
    by_contra hno
    push Not at hno
    have hfree : ∀ r, r <+: parts → fs.get (rootfs ++ r) = none ∨ fs.IsDir (rootfs ++ r) := by
      intro r hr
      by_cases hnone : fs.get (rootfs ++ r) = none
      · exact .inl hnone
      · exact .inr (hno r hr hnone)
    refine hblocked ⟨?_, hfree⟩
    exact (hfree parts (List.prefix_refl _)).resolve_right hndir
  obtain ⟨r, hr, hsome, hrdir⟩ := hway
  obtain ⟨e, he⟩ := Option.ne_none_iff_exists'.mp hsome
  obtain ⟨err, herr⟩ : ∃ err, descendAt umask true rootfs parts fs = (.error err, fs) :=
    descendAt_blocked hv hr he hrdir hroot
  unfold makedirsAt
  apply Proc.optional_of_error
  exact Proc.bind_of_error herr

/-- **The four things WORKDIR can do**: nothing at all, where the path takes too many links, or
one of the effects, with the layer for the levels it has made. -/
theorem doWorkdir_outcome (hroot : w.fs.IsDir (rootfsDir b stage.index))
    (h : doWorkdir b instr stage w = .ok (stage', w')) :
    (workdirParts b instr stage w.fs = none ∧ w'.fs = w.fs ∧ emitted stage stage' w' = []) ∨
      ∃ parts newDirs, workdirParts b instr stage w.fs = some parts ∧
        WorkdirEffect b.umask w.fs (rootfsDir b stage.index) parts w'.fs newDirs ∧
        emitted stage stage' w' =
          if newDirs = [] then [] else writeFilesLayer w'.fs (workdirMap newDirs) := by
  unfold doWorkdir at h
  simp only at h
  split at h
  · cases h
  -- the path does not resolve: the step changes nothing
  · split at h
    · rename_i hparts
      cases h
      exact .inl ⟨hparts, rfl, if_pos rfl⟩
    · rename_i parts hparts
      change workdirParts b instr stage w.fs = some parts at hparts
      have hv := workdirParts_valid hroot hparts
      have hnew : ∀ q, q ∈ missingLevels w.fs (rootfsDir b stage.index) parts ↔
          q ≠ [] ∧ q <+: parts ∧ w.fs.get (rootfsDir b stage.index ++ q) = none := by
        intro q
        unfold missingLevels
        rw [mem_missingBelow hv]
        constructor
        · rintro ⟨r, hr, hpre, hnone, rfl⟩
          exact ⟨hr, hpre, hnone⟩
        · rintro ⟨hr, hpre, hnone⟩
          exact ⟨q, hr, hpre, hnone, rfl⟩
      obtain ⟨⟨made, w₁⟩, hsys, h⟩ := Result.bind_ok h
      unfold World.sys at hsys
      right
      -- the path is a directory already
      by_cases hdir : w.fs.IsDir (rootfsDir b stage.index ++ parts)
      · obtain ⟨after, hrun, hget⟩ := @makedirsAt_existing _ _ _ b.umask hv hdir
        rw [hrun] at hsys
        cases hsys
        have hnone : missingLevels w.fs (rootfsDir b stage.index) parts = [] := by
          apply List.eq_nil_iff_forall_not_mem.mpr
          intro q hq
          obtain ⟨-, ⟨r, rfl⟩, hnone⟩ := (hnew q).mp hq
          rw [← List.append_assoc] at hdir
          obtain ⟨m, hm⟩ := hdir.of_append
          rw [hnone] at hm
          cases hm
        simp only [hnone, or_true, if_true] at h
        cases h
        exact ⟨parts, [], hparts, .existing hdir hget, if_pos rfl⟩
      -- some level is missing, and all that stand above it are directories
      · by_cases hmissing : Missing w.fs (rootfsDir b stage.index) parts
        · obtain ⟨after, hrun, hget⟩ := @makedirsAt_missing _ _ _ b.umask hv hroot hmissing
          rw [hrun] at hsys
          cases hsys
          have hsome : missingLevels w.fs (rootfsDir b stage.index) parts ≠ [] := by
            apply List.ne_nil_of_mem (a := parts)
            rw [hnew]
            refine ⟨?_, List.prefix_refl _, hmissing.absent⟩
            rintro rfl
            rw [List.append_nil] at hdir
            exact hdir hroot
          simp only [hsome, or_false, if_false, reduceCtorEq] at h
          cases h
          refine ⟨parts, _, hparts, .made hmissing hget hnew, ?_⟩
          rw [if_neg hsome]
          exact emitted_addMapLayer b _ rfl _
        -- a level that stands is no directory
        · have hrun := makedirsAt_refused b.umask hv hroot hdir hmissing
          rw [hrun] at hsys
          cases hsys
          simp only [true_or, if_true] at h
          cases h
          exact ⟨parts, [], hparts, .refused hdir hmissing, if_pos rfl⟩

end Outcome

/-! ## What the layer does -/

section Layer

variable {fs : Fs} {newDirs parts rootfs : Path}

/-- A list of values of `f`, with what is known of their arguments. -/
theorem exists_map_eq {α β : Type} {f : α → β} {P : α → Prop} {l : List β}
    (h : ∀ y ∈ l, ∃ x, P x ∧ f x = y) : ∃ xs : List α, (∀ x ∈ xs, P x) ∧ xs.map f = l := by
  induction l with
  | nil => exact ⟨[], by simp, rfl⟩
  | cons y l ih =>
    obtain ⟨x, hx, rfl⟩ := h y List.mem_cons_self
    obtain ⟨xs, hxs, hmap⟩ := ih fun z hz => h z (List.mem_cons_of_mem _ hz)
    refine ⟨x :: xs, ?_, by rw [List.map_cons, hmap]⟩
    intro z hz
    rcases List.mem_cons.mp hz with rfl | hz
    · exact hx
    · exact hxs z hz

/-- Directories each of which has its parent among those made before the list. -/
theorem parentsFirst_of_made {done l : List Path}
    (h : ∀ s ∈ l, s.dropLast = [] ∨ s.dropLast ∈ done) : ParentsFirst done l := by
  induction l generalizing done with
  | nil => trivial
  | cons s l ih =>
    refine ⟨h s List.mem_cons_self, ih fun s' hs' => ?_⟩
    exact (h s' (List.mem_cons_of_mem s hs')).imp_right (List.mem_append_left [s])

/-- The entry of a level. -/
def levelItem (q : Path) : List Char × MapEntry := (joinPath q, .dir (some 0o755) 0)

/-- A level is packed as the directories above it are. -/
theorem packItem_levelItem (fs : Fs) {q : Path} (hq : q ≠ []) (hv : ∀ c ∈ q, ValidName c) :
    packItem fs (levelItem q) = some (parentMember q) := by
  unfold packItem levelItem
  simp only [layerPathParts_joinPath hq hv]
  rfl

/-- **The layer of a WORKDIR** lists every level of the path, the ones above first. -/
theorem writeFilesLayer_workdirMap {newDirs : List Path} (fs : Fs) (hparts : parts ≠ [])
    (hv : ∀ c ∈ parts, ValidName c) (hlast : parts ∈ newDirs)
    (hnew : ∀ q ∈ newDirs, q ≠ [] ∧ q <+: parts) :
    ∃ levels : List Path, writeFilesLayer fs (workdirMap newDirs) = levels.map parentMember ∧
      ParentsFirst [] levels ∧ ∀ q, q ∈ levels ↔ q ≠ [] ∧ q <+: parts := by
  have hvalid : ∀ q ∈ newDirs, ∀ c ∈ q, ValidName c := fun q hq c hc =>
    hv c ((hnew q hq).2.subset hc)
  -- the entries are the levels, in some order
  obtain ⟨dirs, hdirsNew, hdirs⟩ : ∃ dirs : List Path, (∀ q ∈ dirs, q ∈ newDirs) ∧
      dirs.map levelItem = sortedItems (workdirMap newDirs) := by
    apply exists_map_eq
    intro item hitem
    have hpair := Dict.mem_of_mem_ofPairs (mem_sortedItems.mp hitem)
    exact List.mem_map.mp hpair
  have hdirsLevel : ∀ q ∈ dirs, q ≠ [] ∧ q <+: parts := fun q hq => hnew q (hdirsNew q hq)
  have hdirsParts : ∀ q ∈ dirs, layerPathParts (joinPath q) = some q := fun q hq =>
    layerPathParts_joinPath (hdirsLevel q hq).1 (hvalid q (hdirsNew q hq))
  have hnames : (sortedItems (workdirMap newDirs)).map (·.1) = dirs.map joinPath := by
    rw [← hdirs, List.map_map]
    rfl
  have hdirsLast : parts ∈ dirs := by
    have hkey : joinPath parts ∈ Dict.keys (workdirMap newDirs) :=
      Dict.mem_keys_ofPairs.mpr (List.mem_map.mpr
        ⟨levelItem parts, List.mem_map_of_mem hlast, rfl⟩)
    obtain ⟨item, hitem, hname⟩ := List.mem_map.mp hkey
    have hsorted := mem_sortedItems.mpr hitem
    rw [← hdirs] at hsorted
    obtain ⟨q, hq, rfl⟩ := List.mem_map.mp hsorted
    have heq : q = parts :=
      joinPath_inj (hdirsLevel q hq).1 hparts (fun c hc => (hvalid q (hdirsNew q hq) c hc).no_slash)
        (fun c hc => (hv c hc).no_slash) hname
    rw [← heq]
    exact hq
  refine ⟨parentDirs ((sortedItems (workdirMap newDirs)).map (·.1)) ++ dirs, ?_, ?_, fun q => ?_⟩
  · have hpacked : (dirs.map levelItem).filterMap (packItem fs) = dirs.map parentMember := by
      rw [List.filterMap_map, ← List.filterMap_eq_map]
      apply List.filterMap_congr
      intro q hq
      exact packItem_levelItem fs (hdirsLevel q hq).1 (hvalid q (hdirsNew q hq))
    unfold writeFilesLayer
    rw [List.map_append, ← hpacked, hdirs]
  · refine parentsFirst_append.mpr ⟨parentsFirst_parentDirs _, parentsFirst_of_made fun s hs => ?_⟩
    by_cases htop : s.dropLast = []
    · exact .inl htop
    · right
      rw [List.nil_append, mem_parentDirs, hnames]
      refine ⟨joinPath s, List.mem_map_of_mem hs, s, hdirsParts s hs, htop, List.dropLast_prefix s, ?_⟩
      intro hsame
      have hlength := congrArg List.length hsame
      have hpos := List.length_pos_iff.mpr (hdirsLevel s hs).1
      rw [List.length_dropLast] at hlength
      omega
  · rw [List.mem_append, mem_parentDirs, hnames]
    constructor
    · rintro (⟨a, ha, ps, hps, hne, hpre, -⟩ | hq)
      · obtain ⟨s, hs, rfl⟩ := List.mem_map.mp ha
        rw [hdirsParts s hs] at hps
        rw [← Option.some.inj hps] at hpre
        exact ⟨hne, hpre.trans (hdirsLevel s hs).2⟩
      · exact hdirsLevel q hq
    · rintro ⟨hne, hpre⟩
      by_cases hsame : q = parts
      · exact .inr (hsame ▸ hdirsLast)
      · exact .inl ⟨joinPath parts, List.mem_map_of_mem hdirsLast, parts, hdirsParts parts hdirsLast,
          hne, hpre, hsame⟩

/-- What applying it does to a tree where the path is missing: every level stands with mode 755. -/
theorem applyLayer_workdir (R : Refusals) (umask : Mode) (after : Fs) {newDirs : List Path}
    {before : Fs} (hroot : before.IsDir rootfs) (hv : ∀ c ∈ parts, ValidName c)
    (hmissing : Missing before rootfs parts) (hlast : parts ∈ newDirs)
    (hnew : ∀ q ∈ newDirs, q ≠ [] ∧ q <+: parts)
    (hmarker : ∀ c ∈ parts, isWhiteout c = false) :
    ∃ applied, applyLayer R umask rootfs (writeFilesLayer after (workdirMap newDirs)) before =
        (.ok [], applied) ∧
      ∀ q, applied.shape (rootfs ++ q) =
        if q ≠ [] ∧ q <+: parts then some (.dir 0o755) else before.shape (rootfs ++ q) := by
  have hparts : parts ≠ [] := (hnew parts hlast).1
  obtain ⟨levels, hlayer, hfirst, hlevels⟩ :=
    writeFilesLayer_workdirMap after hparts hv hlast hnew
  obtain ⟨acc, layered, hthread, hlinks, -, hshape⟩ :=
    parents_thread umask before [] .empty before hfirst hroot
      (fun s hs => ⟨((hlevels s).mp hs).1, fun c hc =>
        ⟨hv c (((hlevels s).mp hs).2.subset hc), hmarker c (((hlevels s).mp hs).2.subset hc)⟩⟩)
      (fun s hs => hmissing.free s ((hlevels s).mp hs).2) fun q => by simp
  rw [hlayer]
  obtain ⟨applied, happly, hsame⟩ := applyLayer_of_thread R hthread hlinks
  refine ⟨applied, happly, fun q => ?_⟩
  have hmem : (∃ s ∈ [] ++ levels, rootfs ++ q = rootfs ++ s) ↔ q ≠ [] ∧ q <+: parts := by
    rw [← hlevels]
    simp only [List.nil_append, List.append_right_inj, exists_eq_right']
  rw [hsame, hshape]
  by_cases hq : q ≠ [] ∧ q <+: parts
  · rw [if_pos hq, if_pos (hmem.mpr hq)]
  · rw [if_neg hq, if_neg fun h => hq (hmem.mp h)]

end Layer

/-! ## The two together -/

/-- The layer emitted by a step makes the rootfs before the step into the one after it, whatever of
a hard link is refused. -/
def LayerFaithful (umask : Mode) (rootfs : Path) (stage stage' : Stage) (w w' : World) : Prop :=
  ∀ R, ∃ reads applied,
    applyLayer R umask rootfs (emitted stage stage' w') w.fs = (.ok reads, applied) ∧
      ∀ q, applied.shape (rootfs ++ q) = w'.fs.shape (rootfs ++ q)

/-- The modes with which the layer repeats what was done: where the directory was there, it has
mode 755; where it was missing, every level above it has or is given that mode. -/
structure ModesFit (umask : Mode) (fs : Fs) (rootfs parts : Path) : Prop where
  existing : fs.IsDir (rootfs ++ parts) → fs.shape (rootfs ++ parts) = some (.dir 0o755)
  above : Missing fs rootfs parts → ∀ r, r ≠ [] → r <+: parts → r ≠ parts →
    fs.shape (rootfs ++ r) = some (.dir 0o755) ∨
      fs.get (rootfs ++ r) = none ∧ newDirMode umask = 0o755

section Faithful

variable {b : Build} {instr : Instr} {stage stage' : Stage} {w w' : World}

/-- What lies on the way below the root is a part of the way. -/
theorem prefix_root_iff {rootfs parts q : Path} :
    (rootfs <+: rootfs ++ q ∧ rootfs ++ q <+: rootfs ++ parts) ↔ q <+: parts := by
  rw [List.prefix_append_right_inj]
  exact ⟨fun h => h.2, fun h => ⟨List.prefix_append _ _, h⟩⟩

/-- What the instruction leaves of a missing path, level by level. -/
theorem made_shape {umask : Mode} {before after : Fs} {rootfs parts : Path}
    (hget : ∀ q, after.get q =
      if q = rootfs ++ parts then some (.dir 0o755)
      else if before.get q = none ∧ rootfs <+: q ∧ q <+: rootfs ++ parts then
        some (.dir (newDirMode umask))
      else before.get q) (q : Path) :
    after.shape (rootfs ++ q) =
      if q = parts then some (.dir 0o755)
      else if before.get (rootfs ++ q) = none ∧ q <+: parts then some (.dir (newDirMode umask))
      else before.shape (rootfs ++ q) := by
  unfold Fs.shape
  rw [hget]
  simp only [List.append_right_inj, prefix_root_iff]
  split
  · rfl
  · split <;> rfl

/-- **WORKDIR is layer-faithful where the modes fit.** For every stage and every path, the rootfs
after the instruction is what its layer, or no layer where it has emitted none, makes of the
rootfs before it: the same paths with the same kinds and modes. No component of a path that is
made reads as a whiteout. -/
theorem workdir_layer_faithful (umask : Mode) (b : Build) (instr : Instr) (stage stage' : Stage)
    (w w' : World) (hroot : w.fs.IsDir (rootfsDir b stage.index))
    (h : doWorkdir b instr stage w = .ok (stage', w'))
    (hfit : ∀ parts, workdirParts b instr stage w.fs = some parts →
      ModesFit b.umask w.fs (rootfsDir b stage.index) parts ∧
        (Missing w.fs (rootfsDir b stage.index) parts → ∀ c ∈ parts, isWhiteout c = false)) :
    LayerFaithful umask (rootfsDir b stage.index) stage stage' w w' := by
  rcases doWorkdir_outcome hroot h with ⟨-, hfs, hemitted⟩ | ⟨parts, newDirs, hparts, heffect, hemitted⟩
  -- no layer, and nothing is made
  · refine fun R => ⟨[], w.fs, ?_, fun q => by rw [hfs]⟩
    rw [hemitted]
    rfl
  · obtain ⟨hmodes, hmarker⟩ := hfit parts hparts
    intro R
    rw [hemitted]
    generalize w'.fs = after at heffect
    cases heffect with
    -- an existing directory only gets its mode
    | existing hdir hget =>
      refine ⟨[], w.fs, rfl, fun q => ?_⟩
      have hmode := hmodes.existing hdir
      unfold Fs.shape at hmode ⊢
      rw [hget]
      split
      · rename_i hq
        rw [hq, hmode]
        rfl
      · rfl
    -- a refused makedirs makes nothing
    | refused hndir hblocked => exact ⟨[], w.fs, rfl, fun q => rfl⟩
    -- the levels made, with their layer
    | made hmissing hget hnew =>
      have hlast : parts ∈ newDirs := by
        rw [hnew]
        refine ⟨?_, List.prefix_refl _, hmissing.absent⟩
        rintro rfl
        obtain ⟨m, hm⟩ := hroot
        have habsent := hmissing.absent
        rw [List.append_nil, hm] at habsent
        cases habsent
      rw [if_neg (List.ne_nil_of_mem hlast)]
      obtain ⟨applied, happly, hshape⟩ := applyLayer_workdir R umask after hroot
        (workdirParts_valid hroot hparts) hmissing hlast
        (fun q hq => ⟨((hnew q).mp hq).1, ((hnew q).mp hq).2.1⟩) (hmarker hmissing)
      refine ⟨[], applied, happly, fun q => ?_⟩
      rw [hshape, made_shape hget]
      by_cases hq : q = parts
      · have hne : q ≠ [] := by
          rw [hq]
          exact ((hnew parts).mp hlast).1
        rw [if_pos hq, if_pos ⟨hne, hq ▸ List.prefix_refl _⟩]
      · rw [if_neg hq]
        by_cases hlevel : q ≠ [] ∧ q <+: parts
        · rw [if_pos hlevel]
          rcases hmodes.above hmissing q hlevel.1 hlevel.2 hq with hmode | ⟨hnone, humask⟩
          · rw [if_neg, hmode]
            rintro ⟨hnone, -⟩
            rw [Fs.shape_eq_none.mpr hnone] at hmode
            cases hmode
          · rw [if_pos ⟨hnone, hlevel.2⟩, humask]
        · rw [if_neg hlevel, if_neg]
          rintro ⟨hnone, hpre⟩
          refine hlevel ⟨?_, hpre⟩
          rintro rfl
          obtain ⟨m, hm⟩ := hroot
          rw [List.append_nil, hm] at hnone
          cases hnone

/-- **And nowhere else**: where no component reads as a whiteout and the layer does repeat the
step, the modes fit. -/
theorem modesFit_of_faithful (umask : Mode) (hroot : w.fs.IsDir (rootfsDir b stage.index))
    (h : doWorkdir b instr stage w = .ok (stage', w')) {parts : Path}
    (hparts : workdirParts b instr stage w.fs = some parts)
    (hmarker : Missing w.fs (rootfsDir b stage.index) parts → ∀ c ∈ parts, isWhiteout c = false)
    (hfaithful : LayerFaithful umask (rootfsDir b stage.index) stage stage' w w') :
    ModesFit b.umask w.fs (rootfsDir b stage.index) parts := by
  rcases doWorkdir_outcome hroot h with ⟨hnone, -⟩ | ⟨parts', newDirs, hparts', heffect, hemitted⟩
  -- a path that does not resolve is not this one
  · rw [hparts] at hnone
    cases hnone
  · rw [hparts, Option.some.injEq] at hparts'
    subst hparts'
    unfold LayerFaithful at hfaithful
    rw [hemitted] at hfaithful
    obtain ⟨reads, applied, happly, hsame⟩ := hfaithful noRefusals
    generalize w'.fs = after at heffect happly hsame
    cases heffect with
    -- without a layer, the mode set must be the one that was there
    | existing hdir hget =>
      have hunchanged : applied = w.fs := (congrArg Prod.snd happly).symm
      refine ⟨fun _ => ?_, fun hmissing => ?_⟩
      · rw [← hunchanged, hsame]
        unfold Fs.shape
        rw [hget, if_pos rfl]
        rfl
      · obtain ⟨m, hm⟩ := hdir
        have habsent := hmissing.absent
        rw [hm] at habsent
        cases habsent
    | refused hndir hblocked =>
      exact ⟨fun hdir => absurd hdir hndir, fun hmissing => absurd hmissing hblocked⟩
    -- with one, a level above has its own mode, or the umask gave the layer's
    | made hmissing hget hnew =>
      have hndir : ¬ w.fs.IsDir (rootfsDir b stage.index ++ parts) := by
        rintro ⟨m, hm⟩
        have habsent := hmissing.absent
        rw [hm] at habsent
        cases habsent
      refine ⟨fun hdir => absurd hdir hndir, fun _ r hr hpre hne => ?_⟩
      have hlast : parts ∈ newDirs := by
        rw [hnew]
        refine ⟨?_, List.prefix_refl _, hmissing.absent⟩
        rintro rfl
        exact hr (List.prefix_nil.mp hpre)
      rw [if_neg (List.ne_nil_of_mem hlast)] at happly
      obtain ⟨applied', happly', hshape⟩ := applyLayer_workdir noRefusals umask after hroot
        (workdirParts_valid hroot hparts) hmissing hlast
        (fun q hq => ⟨((hnew q).mp hq).1, ((hnew q).mp hq).2.1⟩) (hmarker hmissing)
      rw [happly'] at happly
      cases happly
      have hlevel := hsame r
      rw [hshape, if_pos ⟨hr, hpre⟩, made_shape hget, if_neg hne] at hlevel
      by_cases hnone : w.fs.get (rootfsDir b stage.index ++ r) = none
      · rw [if_pos ⟨hnone, hpre⟩] at hlevel
        injection hlevel with hdir
        injection hdir with hmode
        exact .inr ⟨hnone, hmode.symm⟩
      · rw [if_neg fun h => hnone h.1] at hlevel
        exact .inl hlevel.symm

/-! ### Stages with one directory -/

/-- The rootfs of the first stage with one directory of its own. -/
def stageTree (name : String) (mode : Mode) : World :=
  { Engine.emptyWorld with fs := Fs.ofList [(["tmp".toList], .dir 0o755),
      (["tmp".toList, "stage-0".toList], .dir 0o755),
      (["tmp".toList, "stage-0".toList, "rootfs".toList], .dir 0o755),
      (["tmp".toList, "stage-0".toList, "rootfs".toList, name.toList], .dir mode)] }

/-- A WORKDIR in it. -/
def workdirIn (umask : Mode) (w : World) (path : String) : Except Failure (Stage × World) :=
  doWorkdir { Engine.onPaper with umask } (Engine.textInstr .WORKDIR path) (Stage.new 0 none) w

def firstRootfs : Path := rootfsDir Engine.onPaper 0

theorem workdir_layer_faithful_nested :
    ∃ stage' w', workdirIn 0o022 (stageTree "d" 0o755) "/d/e/f" = .ok (stage', w') ∧
      stage'.layers ≠ [] ∧
      LayerFaithful 0o022 firstRootfs (Stage.new 0 none) stage' (stageTree "d" 0o755) w' := by
  have hcheck : (workdirIn 0o022 (stageTree "d" 0o755) "/d/e/f").toOption.all
      (fun x => x.1.layers ≠ []) = true := by
    decide +kernel
  have hruns : (workdirIn 0o022 (stageTree "d" 0o755) "/d/e/f").toOption.isSome = true := by
    decide +kernel
  have hparts : workdirParts { Engine.onPaper with umask := 0o022 }
      (Engine.textInstr .WORKDIR "/d/e/f") (Stage.new 0 none) (stageTree "d" 0o755).fs =
        some ["d".toList, "e".toList, "f".toList] := by
    decide +kernel
  have habsent : (stageTree "d" 0o755).fs.shape
      (firstRootfs ++ ["d".toList, "e".toList, "f".toList]) = none := by
    decide +kernel
  have habove : ∀ r ∈ ["d".toList, "e".toList, "f".toList].inits, r ≠ [] →
      r ≠ ["d".toList, "e".toList, "f".toList] →
      (stageTree "d" 0o755).fs.shape (firstRootfs ++ r) = some (.dir 0o755) ∨
        (stageTree "d" 0o755).fs.get (firstRootfs ++ r) = none ∧ newDirMode 0o022 = 0o755 := by
    decide +kernel
  obtain ⟨⟨stage', w'⟩, hrun⟩ := Result.ok_of_isSome hruns
  have hlayers : stage'.layers ≠ [] := by
    have hall := Result.all_of_ok hrun hcheck
    exact of_decide_eq_true hall
  refine ⟨stage', w', hrun, hlayers, ?_⟩
  refine workdir_layer_faithful 0o022 { Engine.onPaper with umask := 0o022 }
    (Engine.textInstr .WORKDIR "/d/e/f") (Stage.new 0 none) stage' (stageTree "d" 0o755) w'
    ⟨0o755, by decide +kernel⟩ hrun fun parts h => ?_
  rw [hparts, Option.some.injEq] at h
  subst h
  refine ⟨⟨fun hdir => ?_, fun _ r hr hpre hne => ?_⟩, fun _ => by decide⟩
  · obtain ⟨m, hm⟩ := Fs.isDir_iff_shape.mp hdir
    have hnone : some (Shape.dir m) = none := hm.symm.trans habsent
    cases hnone
  · exact habove r ((List.mem_inits r _).mpr hpre) hr hne

/-! ### Instructions that differ from their layers -/

/-- The layer of the instruction gives something else at `q`. -/
def workdirDiffersAt (umask : Mode) (w : World) (path : String) (q : Path) : Bool :=
  match workdirIn umask w path with
  | .error _ => false
  | .ok (stage', w') =>
    (applyLayer noRefusals umask firstRootfs (emitted (Stage.new 0 none) stage' w') w.fs).2.shape
      (firstRootfs ++ q) != w'.fs.shape (firstRootfs ++ q)

theorem not_layerFaithful {umask : Mode} {path : String} {q : Path}
    (h : workdirDiffersAt umask w path q = true) :
    ∃ stage' w', workdirIn umask w path = .ok (stage', w') ∧
      ¬ LayerFaithful umask firstRootfs (Stage.new 0 none) stage' w w' := by
  unfold workdirDiffersAt at h
  split at h
  · cases h
  · rename_i stage' w' hrun
    refine ⟨stage', w', hrun, fun hfaithful => ?_⟩
    obtain ⟨reads, applied, happly, hsame⟩ := hfaithful noRefusals
    rw [happly] at h
    simp [hsame q] at h

/-- Instructions that their layers do not repeat, each with a place where one sees it: a directory
that was there with another mode, one above a new level with another mode, a new level above
another under another umask, and a name that reads as a whiteout. -/
def differingWorkdirs : List ((Mode × World × String) × Path) :=
  [((0o022, stageTree "d" 0o1777, "/d"), ["d".toList]),
   ((0o022, stageTree "d" 0o700, "/d/e"), ["d".toList]),
   ((0o077, stageTree "d" 0o755, "/e/f"), ["e".toList]),
   ((0o022, stageTree "d" 0o755, "/.wh.x"), [".wh.x".toList])]

/-- Not every WORKDIR and its layer agree: none of `differingWorkdirs` does. -/
theorem workdir_layer_differs :
    ¬ ∃ x ∈ differingWorkdirs, ∀ stage' w', workdirIn x.1.1 x.1.2.1 x.1.2.2 = .ok (stage', w') →
      LayerFaithful x.1.1 firstRootfs (Stage.new 0 none) stage' x.1.2.1 w' := by
  have hdiffer : ∀ x ∈ differingWorkdirs, workdirDiffersAt x.1.1 x.1.2.1 x.1.2.2 x.2 = true := by
    decide +kernel
  rintro ⟨x, hx, hall⟩
  obtain ⟨stage', w', hrun, hnot⟩ := not_layerFaithful (hdiffer x hx)
  exact hnot (hall stage' w' hrun)

end Faithful

end BuildEngine

end ProotDistro
