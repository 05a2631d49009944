import ProotDistro.TarExtract

/-!
# Extraction stays below the rootfs

Whatever a stream holds, an extraction changes nothing but what lies below the rootfs, and
opens nothing else as the source of a hard link. The invariant is `Confined`; every call the
extractor makes keeps it, also where it fails, and `extractStream_confined` is the run.

A change can leave the tree in two ways. One is a path: the resolver's answer has ordinary
names and leads through no link, so a walk along it arrives below the root
(`descendAt_confined`). The other is an inode: a file below the root may share its inode with
one outside. Nothing but a file the extraction made is ever written to, and the time stamped
on what a directory member left behind only reaches a file with one name (`SoleName`).
-/

namespace ProotDistro

open Posix Dirfd

namespace TarExtract

/-- `q` lies below `root`, and is not `root` itself. -/
def Below (root q : Path) : Prop := ∃ r, r ≠ [] ∧ q = root ++ r

/-- A member of a directory within the root is below the root. -/
theorem below_append_singleton {root d : Path} (h : root <+: d) (c : Name) :
    Below root (d ++ [c]) := by
  obtain ⟨r, rfl⟩ := h
  exact ⟨r ++ [c], by simp, by simp⟩

/-- What is below something below the root is so too. -/
theorem Below.trans {root p q : Path} (h : Below root p) (hpq : p <+: q) : Below root q := by
  obtain ⟨r, hr, rfl⟩ := h
  obtain ⟨t, rfl⟩ := hpq
  exact ⟨r ++ t, by simp [hr], by simp⟩

/-- If a file stands at `p`, no other path is a name of its inode. -/
def SoleName (fs : Fs) (p : Path) : Prop :=
  ∀ i data, fs.get p = some (.file i data) → ∀ q data', fs.get q = some (.file i data') → q = p

/-- The tree differs from `before` only below `root`, and what stands where the deferred
directories were is nobody else's file. -/
structure Confined (before : Fs) (root : Path) (dirs : List (Path × Int)) (fs : Fs) : Prop where
  outside : ∀ q, ¬ Below root q → fs.get q = before.get q
  sole : ∀ d ∈ dirs, SoleName fs (root ++ d.1)
  named : ∀ d ∈ dirs, ∀ c ∈ d.1, ValidName c

section Steps

variable {R : Refusals} {umask : Mode} {before fs fs' : Fs} {root d p : Path} {dirs : List (Path × Int)}
  {name : Name}

/-- The root is a directory still. -/
theorem Confined.isDir_root (hroot : before.IsDir root) (h : Confined before root dirs fs) :
    fs.IsDir root := by
  obtain ⟨m, hm⟩ := hroot
  refine ⟨m, ?_⟩
  rw [h.outside root, hm]
  rintro ⟨r, hr, hq⟩
  exact hr (by simpa using hq)

/-- Fewer directories may wait for their times. -/
theorem Confined.mono {dirs' : List (Path × Int)} (h : Confined before root dirs fs)
    (hsub : ∀ d ∈ dirs', d ∈ dirs) : Confined before root dirs' fs :=
  ⟨h.outside, fun d hd => h.sole d (hsub d hd), fun d hd => h.named d (hsub d hd)⟩

/-- A change that stays below the root and brings no file. -/
theorem Confined.of_no_file (h : Confined before root dirs fs)
    (hget : ∀ q, fs'.get q = fs.get q ∨
      Below root q ∧ ∀ i data, fs'.get q ≠ some (.file i data)) :
    Confined before root dirs fs' := by
  have hfile : ∀ q i data, fs'.get q = some (.file i data) → fs.get q = some (.file i data) := by
    intro q i data hq
    rcases hget q with hsame | ⟨-, hno⟩
    · rw [← hsame, hq]
    · exact absurd hq (hno i data)
  refine ⟨fun q hq => ?_, fun d hd i data hp q data' hq => ?_, h.named⟩
  · rcases hget q with hsame | ⟨hbelow, -⟩
    · rw [hsame, h.outside q hq]
    · exact absurd hbelow hq
  · exact h.sole d hd i data (hfile _ _ _ hp) q data' (hfile _ _ _ hq)

/-- A file below the root whose inode has no other name. -/
theorem Confined.of_file {i : Nat} {data : FileData} (h : Confined before root dirs fs)
    (hp : Below root p) (hget : ∀ q, fs'.get q = if q = p then some (.file i data) else fs.get q)
    (hunique : ∀ q data', fs.get q = some (.file i data') → q = p) :
    Confined before root dirs fs' := by
  refine ⟨fun q hq => ?_, fun d hd j data₁ h₁ q data₂ h₂ => ?_, h.named⟩
  · rw [hget, if_neg, h.outside q hq]
    rintro rfl
    exact hq hp
  · rw [hget] at h₁ h₂
    by_cases hd' : root ++ d.1 = p
    · rw [if_pos hd'] at h₁
      cases h₁
      rw [hd']
      by_contra hne
      rw [if_neg hne] at h₂
      exact hne (hunique q data₂ h₂)
    · rw [if_neg hd'] at h₁
      by_cases hq : q = p
      · rw [if_pos hq] at h₂
        cases h₂
        exact absurd (hunique _ _ h₁) hd'
      · rw [if_neg hq] at h₂
        exact h.sole d hd j data₁ h₁ q data₂ h₂

/-! ## The calls -/

/-- The walk to a resolved parent arrives at that parent and makes directories only. -/
theorem descendAt_confined {create : Bool} {parts : List Name} (hroot : before.IsDir root)
    (hv : ∀ c ∈ parts, ValidName c) :
    Proc.Triple (Confined before root dirs) (descendAt umask create root parts)
      (fun fd fs => Confined before root dirs fs ∧ fs.IsDir (root ++ parts) ∧ fd = root ++ parts)
      (Confined before root dirs) := by
  intro fs h
  have hd : fs.IsDir root := h.isDir_root hroot
  by_cases hdir : fs.IsDir (root ++ parts)
  · rw [descendAt_of_isDir hv hdir]
    exact ⟨h, hdir, rfl⟩
  · cases create with
    | false =>
      obtain ⟨e, he⟩ : ∃ e, descendAt umask false root parts fs = (.error e, fs) :=
        descendAt_of_not_isDir hv hd hdir
      rw [he]
      exact h
    | true =>
      by_cases hfree : ∀ r, r <+: parts → fs.get (root ++ r) = none ∨ fs.IsDir (root ++ r)
      · obtain ⟨fs', hrun, hget⟩ : ∃ fs', descendAt umask true root parts fs =
            (.ok (root ++ parts), fs') ∧ _ := descendAt_create hv hd hfree
        rw [hrun]
        refine ⟨h.of_no_file fun q => ?_, ?_, rfl⟩
        · rw [hget]
          split
          · rename_i hq
            refine .inr ⟨?_, fun i data hfile => by cases hfile⟩
            obtain ⟨r, rfl⟩ := hq.2.1
            refine ⟨r, ?_, rfl⟩
            rintro rfl
            obtain ⟨m, hm⟩ := hd
            rw [List.append_nil, hm] at hq
            exact absurd hq.1 (by simp)
          · exact .inl rfl
        · rcases hfree parts (List.prefix_refl _) with hnone | hdir'
          · exact ⟨newDirMode umask, by
              rw [hget, if_pos ⟨hnone, List.prefix_append _ _, List.prefix_refl _⟩]⟩
          · exact absurd hdir' hdir
      · push Not at hfree
        obtain ⟨r, hr, hsome, hndir⟩ := hfree
        obtain ⟨e, he⟩ := Option.ne_none_iff_exists'.mp hsome
        obtain ⟨err, herr⟩ : ∃ err, descendAt umask true root parts fs = (.error err, fs) :=
          descendAt_blocked hv hr he hndir hd
        rw [herr]
        exact h

/-- The descent stays below the root, and ends where its parts lead. -/
theorem descendAt_keeps {create : Bool} {parts : List Name} (hroot : before.IsDir root)
    (hv : ∀ c ∈ parts, ValidName c) :
    Proc.Keeps (Confined before root dirs) (descendAt umask create root parts)
      fun fd => fd = root ++ parts :=
  (descendAt_confined hroot hv).conseq (fun _ h => h) (fun _ _ h => ⟨h.1, h.2.2⟩) fun _ h => h

/-- A walk that may be stopped goes a part of the way. -/
theorem descendIn_keeps {create : Bool} {parts : List Name} (hroot : before.IsDir root)
    (hv : ∀ c ∈ parts, ValidName c) :
    Proc.Keeps (Confined before root dirs) (descendIn R umask create root parts)
      fun fd => root <+: fd := by
  have hpart : ∀ c ∈ R.openable root parts, ValidName c := fun c hc =>
    hv c ((R.openable_prefix root parts).subset hc)
  refine (descendAt_keeps hroot hpart).bind fun fd hfd => keeps_refusing _ (Proc.Keeps.pure ?_)
  rw [hfd]
  exact List.prefix_append _ _

/-- Resolving reads the tree only, and answers with ordinary names. -/
theorem resolveAtIn_keeps {parts : List Name} (hroot : before.IsDir root)
    (hparts : ∀ c ∈ parts, Fs.NoSlash c) :
    Proc.Keeps (Confined before root dirs) (resolveAtIn R root parts)
      fun o => ∀ p, o = some p → ∀ c ∈ p, ValidName c := by
  refine Proc.Keeps.look fun fs o h ho p hp => ?_
  rw [Except.ok.injEq] at ho
  exact (safeResolvePartsAtIn_resolved (h.isDir_root hroot) hparts (ho.trans hp)).valid

theorem resolveAt_keeps {parts : List Name} (hroot : before.IsDir root)
    (hparts : ∀ c ∈ parts, Fs.NoSlash c) :
    Proc.Keeps (Confined before root dirs) (resolveAt root parts)
      fun o => ∀ p, o = some p → ∀ c ∈ p, ValidName c :=
  resolveAtIn_keeps (R := noRefusals) hroot hparts

/-- A tree is removed below the root only. -/
theorem rmtreeAt_confined (hd : root <+: d) (hv : ValidName name) :
    Proc.Keeps (Confined before root dirs) (rmtreeAt d name) fun _ => True := by
  intro fs h
  obtain ⟨fs', hrun, hget⟩ := rmtreeAt_spec fs d hv
  rw [hrun]
  refine ⟨h.of_no_file fun q => ?_, trivial⟩
  rw [hget]
  split
  · rename_i hq
    exact .inr ⟨(below_append_singleton hd name).trans hq, fun i data hfile => by cases hfile⟩
  · exact .inl rfl

theorem unlinkAt_confined (hd : root <+: d) (hv : ValidName name) :
    Proc.Keeps (Confined before root dirs) (unlinkAt d name) fun _ => True := by
  refine Proc.Keeps.change fun fs fs' h hfs' => ?_
  obtain ⟨-, hget⟩ := Fs.unlinkAt_ok hfs'
  rw [Fs.locate_valid hv] at hget
  refine h.of_no_file fun q => ?_
  rw [hget]
  split
  · rename_i hq
    exact .inr ⟨hq ▸ below_append_singleton hd name, fun i data hfile => by cases hfile⟩
  · exact .inl rfl

theorem fillNew_confined {data : FileData} (hd : root <+: d) (hv : ValidName name) :
    Proc.Keeps (Confined before root dirs) (fillNew umask d name data) fun _ => True := by
  intro fs h
  by_cases hdir : fs.IsDir d
  · by_cases hnew : fs.IsDir (d ++ [name])
    · rw [fillNew_of_isDir hnew]
      exact h
    · obtain ⟨fs', ino, hrun, hget, hunique⟩ := fillNew_of_not_isDir umask data hv hdir hnew
      rw [hrun]
      exact ⟨h.of_file (below_append_singleton hd name) hget hunique, trivial⟩
  · rw [fillNew_of_no_dir hv hdir]
    exact h

/-- A copy keeps to the name it is made under, whatever of it is refused. -/
theorem copyFileAt_confined {srcDir : Path} {srcName : Name} (hd : root <+: d) (hv : ValidName name) :
    Proc.Keeps (Confined before root dirs) (copyFileAt R umask srcDir srcName d name) fun _ => True := by
  refine Proc.Keeps.of_invariant fun fs h => ?_
  rcases copyFileAt_cases R umask srcDir srcName fs hv with hsame | hgone | ⟨ino, data, hget, huniq⟩
  · rw [hsame]
    exact h
  · refine h.of_no_file fun q => ?_
    rw [hgone]
    split
    · rename_i hq
      exact .inr ⟨hq ▸ below_append_singleton hd name, fun i data hfile => by cases hfile⟩
    · exact .inl rfl
  · exact h.of_file (below_append_singleton hd name) hget huniq

/-- A look is confined. -/
theorem lstatAt_confined :
    Proc.Keeps (Confined before root dirs) (lstatAt d name) fun _ => True :=
  Proc.Keeps.look fun _ _ _ _ => trivial

/-- A whiteout removes below the root only. -/
theorem applyWhiteout_confined (hd : root <+: d) (hslash : Fs.NoSlash name) :
    Proc.Keeps (Confined before root dirs) (applyWhiteout d name) fun _ => True := by
  unfold applyWhiteout
  split
  · have hlist : Proc.Keeps (Confined before root dirs) (listdirAt d)
        fun names => ∀ n ∈ names, ValidName n := by
      refine Proc.Keeps.look fun fs names _ hnames n hn => ?_
      rw [Except.ok.injEq] at hnames
      rw [← hnames, Fs.mem_listdir] at hn
      obtain ⟨e, he⟩ := Option.isSome_iff_exists.mp hn
      exact Fs.validName_of_get he
    exact hlist.bind fun names hnames =>
      Proc.Keeps.each fun n hn => rmtreeAt_confined hd (hnames n hn)
  · simp only
    split
    · exact Proc.Keeps.pure trivial
    · rename_i hdots
      rw [not_or, not_or] at hdots
      exact rmtreeAt_confined hd
        ⟨hdots.1, hdots.2.1, hdots.2.2, fun hmem => hslash (List.mem_of_mem_drop hmem)⟩

/-- A directory member leaves a directory, or fails and changes nothing. -/
theorem writeDir_confined {m : Member} (hd : root <+: d) (hv : ValidName name) :
    Proc.Triple (fun fs => Confined before root dirs fs ∧ fs.IsDir d) (writeDir umask d name m)
      (fun _ fs => Confined before root dirs fs ∧ fs.IsDir (d ++ [name]))
      (Confined before root dirs) := by
  rintro fs ⟨h, hdir⟩
  by_cases hfile : ∃ i data, fs.get (d ++ [name]) = some (.file i data)
  · obtain ⟨i, data, hi⟩ := hfile
    rw [writeDir_of_file hi]
    exact h
  · push Not at hfile
    obtain ⟨fs', hrun, hget⟩ : ∃ fs', writeDir umask d name m fs = (.ok (), fs') ∧ _ :=
      writeDir_of_not_file hv hdir hfile
    rw [hrun]
    refine ⟨h.of_no_file fun q => ?_, m.mode ||| 0o700, by rw [hget, if_pos rfl]⟩
    rw [hget]
    split
    · rename_i hq
      exact .inr ⟨hq ▸ below_append_singleton hd name, fun i data hq => by cases hq⟩
    · exact .inl rfl

/-- So is a link written there, whatever its target. -/
theorem writeSymlink_confined {linkname : List Char} (hd : root <+: d) (hv : ValidName name) :
    Proc.Triple (fun fs => Confined before root dirs fs ∧ fs.IsDir d)
      (writeSymlink d name linkname) (fun _ fs => Confined before root dirs fs)
      (Confined before root dirs) := by
  rintro fs ⟨h, hdir⟩
  obtain ⟨fs', hrun, hget⟩ := writeSymlink_spec linkname hv hdir
  rw [hrun]
  refine h.of_no_file fun q => ?_
  rw [hget]
  by_cases hq : d ++ [name] <+: q
  · refine .inr ⟨(below_append_singleton hd name).trans hq, fun i data => ?_⟩
    split
    · unfold linkEntry
      split <;> simp
    · simp
  · left
    rw [if_neg hq, if_neg]
    rintro rfl
    exact hq (List.prefix_refl _)

/-- Links are deferred with the components their names were filtered to. -/
def LinksOk (acc : Deferred) : Prop :=
  ∀ l ∈ acc.links, (∀ c ∈ l.1, Fs.NoSlash c) ∧ ∀ c ∈ l.2, Fs.NoSlash c

/-- The links that wait have names without slashes. -/
theorem deferHardlink_linksOk {strip : Nat} {linkname : List Char} {relParts : Path}
    {acc : Deferred} (h : LinksOk acc) (hrel : ∀ c ∈ relParts, Fs.NoSlash c) :
    LinksOk (deferHardlink strip linkname relParts acc) := by
  unfold deferHardlink
  split
  · exact h
  · rename_i relLparts hlparts
    intro l hl
    rcases List.mem_append.mp hl with hl | hl
    · exact h l hl
    · rw [List.mem_singleton.mp hl]
      exact ⟨hrel, fun c hc => stripParts_noSlash hlparts hc⟩

/-- A link that waits leaves the directories that do. -/
theorem deferHardlink_dirs (strip : Nat) (linkname : List Char) (relParts : Path)
    (acc : Deferred) : (deferHardlink strip linkname relParts acc).dirs = acc.dirs := by
  unfold deferHardlink
  split <;> rfl

/-! ## One member, one deferred link, one stamp -/

/-- A member is written below the root, and defers what lies there. -/
theorem writeMember_confined {strip : Nat} {parentParts parent : Path} {m : Member}
    {acc : Deferred} (hparts : ∀ c ∈ parentParts, ValidName c)
    (hparent : ∀ c ∈ parent, Fs.NoSlash c) (hv : ValidName name) (hlinks : LinksOk acc) :
    Proc.Triple
      (fun fs => Confined before root acc.dirs fs ∧ fs.IsDir (root ++ parentParts))
      (writeMember umask strip (root ++ parentParts) parentParts parent name m acc)
      (fun acc' fs => Confined before root acc'.dirs fs ∧ LinksOk acc')
      (Confined before root []) := by
  have hd : root <+: root ++ parentParts := List.prefix_append _ _
  have forget : ∀ fs, Confined before root acc.dirs fs → Confined before root [] fs :=
    fun _ h => h.mono fun d hd => absurd hd (by simp)
  unfold writeMember
  cases m.kind with
  | device => exact Proc.Triple.pure fun fs h => ⟨h.1, hlinks⟩
  | other => exact Proc.Triple.pure fun fs h => ⟨h.1, hlinks⟩
  | dir =>
    refine Proc.Triple.bind ((writeDir_confined hd hv).conseq (fun _ h => h) (fun _ _ h => h)
      forget) fun _ => Proc.Triple.pure fun fs h => ?_
    obtain ⟨hconf, mode, hmode⟩ := h
    refine ⟨⟨hconf.outside, fun d hmem => ?_, fun d hmem => ?_⟩, hlinks⟩
    · rcases List.mem_append.mp hmem with hmem | hmem
      · exact hconf.sole d hmem
      · -- a directory stands there now
        rw [List.mem_singleton.mp hmem]
        intro i data hfile
        rw [← List.append_assoc, hmode] at hfile
        cases hfile
    · rcases List.mem_append.mp hmem with hmem | hmem
      · exact hconf.named d hmem
      · rw [List.mem_singleton.mp hmem]
        intro c hc
        rcases List.mem_append.mp hc with hc | hc
        · exact hparts c hc
        · rw [List.mem_singleton.mp hc]
          exact hv
  | sym linkname =>
    exact Proc.Triple.bind ((writeSymlink_confined hd hv).conseq (fun _ h => h) (fun _ _ h => h)
      forget) fun _ => Proc.Triple.pure fun fs h => ⟨h, hlinks⟩
  | lnk linkname =>
    refine Proc.Triple.pure fun fs h => ⟨by rw [deferHardlink_dirs]; exact h.1, ?_⟩
    refine deferHardlink_linksOk hlinks fun c hc => ?_
    rcases List.mem_append.mp hc with hc | hc
    · exact hparent c hc
    · rw [List.mem_singleton.mp hc]
      exact hv.no_slash
  | reg content =>
    exact Proc.Triple.bind ((fillNew_confined hd hv).conseq (fun _ h => h.1) (fun _ _ h => h.1)
      forget) fun _ => Proc.Triple.pure fun fs h => ⟨h, hlinks⟩

/-- So is a member processed with all the checks before it. -/
theorem processMember_confined {strip : Nat} {handleWhiteouts : Bool} {m : Member}
    {acc : Deferred} (hroot : before.IsDir root) :
    Proc.Triple (fun fs => Confined before root acc.dirs fs ∧ LinksOk acc)
      (processMember umask strip handleWhiteouts root m acc)
      (fun acc' fs => Confined before root acc'.dirs fs ∧ LinksOk acc')
      (Confined before root []) := by
  have forget : ∀ fs, Confined before root acc.dirs fs → Confined before root [] fs :=
    fun _ h => h.mono fun d hd => absurd hd (by simp)
  have same : Proc.Triple (fun fs => Confined before root acc.dirs fs ∧ LinksOk acc)
      (pure acc : Sys Deferred)
      (fun acc' fs => Confined before root acc'.dirs fs ∧ LinksOk acc')
      (Confined before root []) := Proc.Triple.pure fun _ h => h
  unfold processMember
  split
  · exact same
  · split
    · exact same
    · rename_i parent name hpath
      have hv := memberPath_validName hpath
      have hparent := memberPath_noSlash hpath
      refine Proc.Triple.assuming fun hlinks => ?_
      have done : Proc.Triple (Confined before root acc.dirs) (pure acc : Sys Deferred)
          (fun acc' fs => Confined before root acc'.dirs fs ∧ LinksOk acc')
          (Confined before root []) := Proc.Triple.pure fun _ h => ⟨h, hlinks⟩
      refine (resolveAt_keeps hroot hparent).bind_triple forget fun o hvalid => ?_
      cases o with
      | none => exact done
      | some parentParts =>
        have hparts := hvalid parentParts rfl
        simp only
        split
        · -- a whiteout only ever removes
          unfold readWhiteout
          refine (descendAt_keeps hroot hparts).optional.bind_triple forget fun o hfd => ?_
          cases o with
          | none => exact done
          | some fd =>
            rw [hfd fd rfl]
            exact (applyWhiteout_confined (List.prefix_append _ _) hv.no_slash).bind_triple
              forget fun _ _ => done
        · refine Proc.Triple.bind ((descendAt_confined hroot hparts).conseq (fun _ h => h)
            (fun _ _ h => h) forget) fun fd => ?_
          rintro fs ⟨h, hdir, rfl⟩
          exact writeMember_confined hparts hparent hv hlinks fs ⟨h, hdir⟩

/-- What a member leaves for after the stream: a hard link whose names come through the
filters, or nothing. -/
def Defers (strip : Nat) (m : Member) (acc acc' : Deferred) : Prop :=
  acc'.links = acc.links ∨ ∃ linkname parent name src,
    m.kind = .lnk linkname ∧ memberPath strip m.name = some (parent, name) ∧
      stripParts strip linkname = some src ∧
      acc'.links = acc.links ++ [(parent ++ [name], src)]

/-- What a member defers is its own link or directory. -/
theorem processMember_defers {strip : Nat} {handleWhiteouts : Bool} {m : Member}
    {acc : Deferred} :
    Proc.Keeps (fun _ => True) (processMember umask strip handleWhiteouts root m acc)
      (Defers strip m acc) := by
  have any : ∀ {α : Type} (p : Sys α), Proc.Keeps (fun _ => True) p fun _ => True := by
    intro α p fs _
    rcases p fs with ⟨r, fs'⟩
    cases r <;> trivial
  have same : ∀ acc' : Deferred, acc'.links = acc.links →
      Proc.Keeps (fun _ => True) (pure acc' : Sys Deferred) (Defers strip m acc) :=
    fun acc' h => Proc.Keeps.pure (.inl h)
  unfold processMember
  split
  · exact same acc rfl
  · split
    · exact same acc rfl
    · rename_i parent name hpath
      refine (any _).bind fun o _ => ?_
      split
      · exact same acc rfl
      · split
        · unfold readWhiteout
          refine (any _).bind fun o _ => ?_
          split
          · exact same acc rfl
          · exact (any _).bind fun _ _ => same acc rfl
        · refine (any _).bind fun fd _ => ?_
          unfold writeMember
          cases hk : m.kind with
          | device => exact same acc rfl
          | other => exact same acc rfl
          | lnk linkname =>
            refine Proc.Keeps.pure ?_
            unfold deferHardlink
            split
            · exact .inl rfl
            · rename_i src hsrc
              exact .inr ⟨linkname, parent, name, src, hk, hpath, hsrc, rfl⟩
          | dir => exact (any _).bind fun _ _ => same _ rfl
          | sym t => exact (any _).bind fun _ _ => same acc rfl
          | reg content => exact (any _).bind fun _ _ => same acc rfl

/-- A deferred link is copied from below the root to below the root. -/
theorem copyHardlink_confined {dest src : Path} (hroot : before.IsDir root)
    (hdest : ∀ c ∈ dest, Fs.NoSlash c) (hsrc : ∀ c ∈ src, Fs.NoSlash c) :
    Proc.Keeps (Confined before root dirs) (copyHardlink R umask root dest src)
      fun o => ∀ p, o = some p → Below root p := by
  have nothing : Proc.Keeps (Confined before root dirs) (pure none : Sys (Option Path))
      fun o => ∀ p, o = some p → Below root p := Proc.Keeps.pure fun p hp => by cases hp
  unfold copyHardlink
  refine (resolveAtIn_keeps hroot hsrc).bind fun srcResolved hsrcv => ?_
  refine (resolveAtIn_keeps hroot hdest).bind fun destResolved hdestv => ?_
  split
  · rename_i srcName destName hsrcName hdestName
    obtain ⟨srcParts, rfl, hsrcLast⟩ := Option.bind_eq_some_iff.mp hsrcName
    obtain ⟨destParts, rfl, hdestLast⟩ := Option.bind_eq_some_iff.mp hdestName
    have hsv : ∀ c ∈ srcParts.dropLast, ValidName c := fun c hc =>
      hsrcv srcParts rfl c (List.mem_of_mem_dropLast hc)
    have hdv : ∀ c ∈ destParts.dropLast, ValidName c := fun c hc =>
      hdestv destParts rfl c (List.mem_of_mem_dropLast hc)
    have hdn : ValidName destName := hdestv destParts rfl destName (List.mem_of_getLast? hdestLast)
    refine (descendIn_keeps hroot hsv).optional.bind fun o hsrcFd => ?_
    split
    · exact nothing
    · rename_i srcFd
      refine (keeps_refusing _ lstatAt_confined).optional.bind fun o _ => ?_
      split
      · refine (descendIn_keeps hroot hdv).optional.bind fun o hdstFd => ?_
        split
        · exact nothing
        · rename_i dstFd
          have hd : root <+: dstFd := hdstFd dstFd rfl
          refine (keeps_refusing _ (unlinkAt_confined hd hdn)).quietly.bind fun _ _ => ?_
          refine Proc.Keeps.bind (copyFileAt_confined hd hdn).quietly fun _ _ => Proc.Keeps.pure ?_
          intro p hp
          rw [Option.some.injEq] at hp
          rw [← hp]
          exact below_append_singleton (hsrcFd srcFd rfl) srcName
      · exact nothing
  · exact nothing

/-- A stamp reaches a file only under the one name it has. -/
theorem stampDir_confined {d : Path × Int} (hroot : before.IsDir root) (hd : d ∈ dirs) :
    Proc.Keeps (Confined before root dirs) (stampDir umask root d.1 d.2) fun _ => True := by
  unfold stampDir
  split
  · exact Proc.Keeps.pure trivial
  · rename_i name hlast
    obtain ⟨init, hinit⟩ := List.getLast?_eq_some_iff.mp hlast
    refine Proc.Keeps.quietly ?_
    intro fs h
    have hnamed := h.named d hd
    rw [hinit] at hnamed
    have hv : ∀ c ∈ d.1.dropLast, ValidName c := by
      rw [hinit, List.dropLast_concat]
      exact fun c hc => hnamed c (by simp [hc])
    refine Proc.Keeps.bind (descendAt_keeps hroot hv) (fun fd hfd => ?_) fs h
    refine Proc.Keeps.change fun fs fs' h hfs' => ?_
    obtain ⟨i, data, hfile, rfl⟩ := Fs.modifyAt_ok hfs'
    have hpath : Fs.locate fd name = root ++ d.1 := by
      rw [Fs.locate_valid (hnamed name (by simp)), hfd, hinit, List.dropLast_concat,
        List.append_assoc]
    rw [hpath] at hfile
    have hsole := h.sole d hd i data hfile
    refine h.of_file (p := root ++ d.1) ⟨d.1, by rw [hinit]; simp, rfl⟩
      (Fs.get_mapInode_of_unique hfile hsole) hsole

end Steps

/-! ## The run -/

section Run

variable {R : Refusals} {umask : Mode} {strip : Nat} {handleWhiteouts : Bool} {before : Fs}
  {root : Path}

/-- After any part of a stream, whether the extraction goes on or has failed. -/
theorem stream_confined (hroot : before.IsDir root) (members : List Member) :
    Proc.Triple (fun fs => fs = before)
      (.thread (processMember umask strip handleWhiteouts root) members .empty)
      (fun acc fs => Confined before root acc.dirs fs ∧ LinksOk acc)
      (Confined before root []) := by
  refine Proc.Triple.conseq (Proc.Triple.thread (R := fun acc fs =>
    Confined before root acc.dirs fs ∧ LinksOk acc) fun m _ acc =>
      processMember_confined hroot) ?_ (fun _ _ h => h) fun _ h => h
  rintro fs rfl
  refine ⟨⟨fun q _ => rfl, ?_, ?_⟩, ?_⟩ <;> intro d hd <;> simp [Deferred.empty] at hd

/-- The extraction of any archive changes and reads below the root only. -/
theorem extractStream_triple (hroot : before.IsDir root) (members : List Member) :
    Proc.Triple (fun fs => fs = before)
      (extractStream R umask strip handleWhiteouts root members)
      (fun reads fs => Confined before root [] fs ∧ ∀ p ∈ reads, Below root p)
      (Confined before root []) := by
  unfold extractStream
  refine Proc.Triple.bind (stream_confined hroot members) fun acc => ?_
  rintro fs ⟨h, hlinks⟩
  have hcopies : Proc.Keeps (Confined before root acc.dirs)
      (.thread (copyNext R umask root) acc.links []) fun reads => ∀ p ∈ reads, Below root p := by
    refine Proc.Keeps.thread (fun p hp => absurd hp (by simp)) fun l hl reads hreads => ?_
    unfold copyNext
    refine (copyHardlink_confined hroot (hlinks l hl).1 (hlinks l hl).2).bind fun o ho =>
      Proc.Keeps.pure fun p hp => ?_
    rcases List.mem_append.mp hp with hp | hp
    · exact hreads p hp
    · exact ho p (Option.mem_toList.mp hp)
  have hrest : Proc.Keeps (Confined before root acc.dirs) (do
      let reads ← Proc.thread (copyNext R umask root) acc.links []
      .each (fun d => stampDir umask root d.1 d.2) acc.dirs.reverse
      pure reads) fun reads => ∀ p ∈ reads, Below root p :=
    hcopies.bind fun reads hreads => Proc.Keeps.bind
      (Proc.Keeps.each fun d hd => stampDir_confined hroot (List.mem_reverse.mp hd))
      fun _ _ => Proc.Keeps.pure hreads
  have forget : ∀ fs, Confined before root acc.dirs fs → Confined before root [] fs :=
    fun _ h => h.mono fun d hd => absurd hd (by simp)
  exact hrest.conseq (fun _ h => h) (fun _ fs h => ⟨forget fs h.1, h.2⟩) forget fs h

/-- Once the stream is through, nothing ends the extraction: what cannot be copied or
stamped is passed over. -/
theorem copyHardlink_total (dest src : Path) : Proc.Total (copyHardlink R umask root dest src) := by
  have resolve : ∀ parts, Proc.Total (resolveAtIn R root parts) := fun parts =>
    Proc.Total.look fun fs => ⟨_, rfl⟩
  unfold copyHardlink
  refine (resolve src).bind fun _ => (resolve dest).bind fun _ => ?_
  split
  · refine (Proc.Total.optional _).bind fun o => ?_
    split
    · exact Proc.Total.pure _
    · refine (Proc.Total.optional _).bind fun o => ?_
      split
      · refine (Proc.Total.optional _).bind fun o => ?_
        split
        · exact Proc.Total.pure _
        · exact (Proc.Total.quietly _).bind fun _ => (Proc.Total.quietly _).bind fun _ =>
            Proc.Total.pure _
      · exact Proc.Total.pure _
  · exact Proc.Total.pure _

/-- An extraction that fails does so in its members: the links and times that wait raise nothing. -/
theorem extractStream_error {members : List Member} {e : Errno}
    (h : (extractStream R umask strip handleWhiteouts root members before).1 = .error e) :
    (Proc.thread (processMember umask strip handleWhiteouts root) members .empty before).1 =
      .error e := by
  unfold extractStream at h
  refine Proc.Total.error_of_bind (fun acc => Proc.Total.bind ?_ fun reads => ?_) h
  · exact Proc.Total.thread (fun (l : Path × Path) reads => (copyHardlink_total l.1 l.2).bind fun _ =>
      Proc.Total.pure _) _ _
  · exact (Proc.Total.each (fun d : Path × Int => stampDir_total d.1 d.2) _).bind fun _ => Proc.Total.pure _

/-- **Extraction confinement.** From any file system in which the rootfs is a real
directory, for every stream and every setting: nothing but what lies below the rootfs is
created, changed or removed, at any point of the stream and at the end, answered or failed;
the hard-link sources opened lie below it; and a run that fails has failed in the stream,
before the first source is opened. -/
theorem extractStream_confined (R : Refusals) (umask : Mode) (strip : Nat) (handleWhiteouts : Bool)
    (before : Fs) (root : Path) (members : List Member) (hroot : before.IsDir root) :
    let stream := fun ms : List Member =>
      Proc.thread (processMember umask strip handleWhiteouts root) ms .empty before
    let run := extractStream R umask strip handleWhiteouts root members before
    (∀ k q, ¬ Below root q → (stream (members.take k)).2.get q = before.get q) ∧
      (∀ q, ¬ Below root q → run.2.get q = before.get q) ∧
      (∀ reads, run.1 = .ok reads → ∀ p ∈ reads, Below root p) ∧
      ∀ e, run.1 = .error e → (stream members).1 = .error e := by
  intro stream run
  have hrun : Proc.Triple (fun fs => fs = before)
      (extractStream R umask strip handleWhiteouts root members)
      (fun reads fs => Confined before root [] fs ∧ ∀ p ∈ reads, Below root p)
      (Confined before root []) := extractStream_triple hroot members
  refine ⟨fun k => ?_, ?_, fun reads hreads => (hrun.answer rfl hreads).2, fun e he =>
    extractStream_error he⟩
  · have hstream : Proc.Triple (fun fs => fs = before)
        (.thread (processMember umask strip handleWhiteouts root) (members.take k) .empty)
        (fun acc fs => Confined before root acc.dirs fs ∧ LinksOk acc)
        (Confined before root []) := stream_confined hroot (members.take k)
    exact hstream.final (J := fun fs => ∀ q, ¬ Below root q → fs.get q = before.get q) rfl
      (fun _ _ h => h.1.outside) fun _ h => h.outside
  · exact hrun.final (J := fun fs => ∀ q, ¬ Below root q → fs.get q = before.get q) rfl
      (fun _ _ h => h.1.outside) fun _ h => h.outside

/-- A host with a file outside the rootfs `/r`. -/
def hostWithSecret : Fs :=
  Fs.ofList [([['r']], .dir 0o755), ([['s']], .file 0 ⟨[115], 0o600, 0⟩)]

/-- A stream that plants a link to `/`, writes and removes through it, and names the file
outside as the source of a hard link. -/
def escapingStream : List Member :=
  [⟨"evil".toList, .sym "/".toList, 0o777, 0⟩,
    ⟨"evil/s".toList, .reg [120], 0o644, 0⟩,
    ⟨"evil/../.wh.s".toList, .reg [], 0o644, 0⟩,
    ⟨"copy".toList, .lnk "../s".toList, 0o644, 0⟩,
    ⟨"copy2".toList, .lnk "evil/s".toList, 0o644, 0⟩]

theorem extractStream_confined_escaping :
    (extractStream noRefusals 0o022 0 true [['r']] escapingStream hostWithSecret).2.get [['s']] =
      some (.file 0 ⟨[115], 0o600, 0⟩) := by
  have hroot : hostWithSecret.IsDir [['r']] := ⟨0o755, by decide +kernel⟩
  have h := (extractStream_confined noRefusals 0o022 0 true hostWithSecret [['r']] escapingStream hroot).2.1
    [['s']] (by rintro ⟨r, -, hr⟩; simp at hr)
  exact h.trans (by decide +kernel)

end Run

end TarExtract

end ProotDistro
