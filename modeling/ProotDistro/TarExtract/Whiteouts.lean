import ProotDistro.Lib.Fold
import ProotDistro.TarExtract.Confinement

/-!
# Whiteouts and the order of a layer

A whiteout is meant for the layers below: it hides what they brought, never what its own
layer brings. The extractor applies it the moment it is read, to a tree that by then holds
the layer's earlier members too, so what it removes depends on where in the stream it stands.

`advance` reads one member and keeps track of what the layer has put where. Reading a member
keeps all of it in place exactly when the member is `Harmless`: no whiteout, or one that
hides none of it. `keepsAdditions_iff` is the same for whole layers, and
`present_after_applyLayer` carries it to the tree `applyLayer` leaves.
-/

namespace ProotDistro

open Posix Dirfd

namespace TarExtract

/-- A layer being read: the tree, the paths its members have been written at and not been
displaced from by another member, and what is deferred. -/
structure Progress where
  fs : Fs
  written : List Path
  acc : Deferred
  failed : Bool

def isWhiteoutMember (m : Member) : Bool :=
  m.kind != .device &&
    match memberPath 0 m.name with
    | none => false
    | some (_, name) => isWhiteout name

/-- Where a member belongs in the tree as it is. -/
def destination (fs : Fs) (root : Path) (m : Member) : Option Path :=
  match memberPath 0 m.name with
  | none => none
  | some (parent, name) =>
    (safeResolvePartsAt fs root parent).map fun parentParts => root ++ parentParts ++ [name]

/-- Whether reading a member writes an entry at its place; a hard link is only deferred, and a link to the
empty path is not made. -/
def Kind.written : Kind → Bool
  | .dir | .reg _ => true
  | .sym linkname => linkname ≠ []
  | .device | .lnk _ | .other => false

/-- Read one member; after a failure nothing more is read. -/
def advance (umask : Mode) (root : Path) (st : Progress) (m : Member) : Progress :=
  if st.failed then st
  else
    let result := processMember umask 0 true root m st.acc st.fs
    if isWhiteoutMember m then { st with fs := result.2 }
    else
      let kept := st.written.filter fun q => (result.2.get q).isSome
      match result.1 with
      | .error _ => { st with fs := result.2, written := kept, failed := true }
      | .ok acc =>
        { st with
          fs := result.2
          acc := acc
          written := if m.kind.written then kept ++ (destination st.fs root m).toList else kept }

def startOf (before : Fs) : Progress := ⟨before, [], .empty, false⟩

/-- The layer after its first `k` members. -/
def progressAt (umask : Mode) (root : Path) (before : Fs) (members : List Member) (k : Nat) :
    Progress :=
  Fold.stateAt (advance umask root) (startOf before) members k

/-- Everything the layer has written is there. -/
def Progress.Kept (st : Progress) : Prop := ∀ q ∈ st.written, (st.fs.get q).isSome

/-- Whiteouts have removed nothing the layer itself has written, at any point of it. -/
def KeepsAdditions (umask : Mode) (root : Path) (before : Fs) (members : List Member) : Prop :=
  ∀ k ≤ members.length, (progressAt umask root before members k).Kept

/-- The place a whiteout is read in, resolved in the tree as it is, hides nothing that the
layer has written so far. -/
def Harmless (root : Path) (st : Progress) (m : Member) : Prop :=
  st.failed = false → isWhiteoutMember m = true →
    ∀ parent name parentParts, memberPath 0 m.name = some (parent, name) →
      safeResolvePartsAt st.fs root parent = some parentParts →
      st.fs.IsDir (root ++ parentParts) →
      ∀ q ∈ st.written, ¬ Hides (root ++ parentParts) name q

section Step

variable {umask : Mode} {root : Path} {st : Progress} {m : Member} {before : Fs}

/-- What is deferred already has no part in what a member does to the tree. -/
theorem processMember_uniform (umask : Mode) (strip : Nat) (handleWhiteouts : Bool)
    (root : Path) (m : Member) (fs : Fs) :
    ∃ (r : Except Errno (Deferred → Deferred)) (fs' : Fs), ∀ acc,
      processMember umask strip handleWhiteouts root m acc fs = (r.map fun f => f acc, fs') := by
  -- a device, a name with no parts and a parent that does not resolve: the member is dropped
  by_cases hk : m.kind = .device
  · exact ⟨.ok id, fs, fun acc => processMember_dropped (.inl hk)⟩
  · cases hpath : memberPath strip m.name with
    | none => exact ⟨.ok id, fs, fun acc => processMember_dropped (.inr hpath)⟩
    | some pn =>
      obtain ⟨parent, name⟩ := pn
      cases hres : safeResolvePartsAt fs root parent with
      | none => exact ⟨.ok id, fs, fun acc => processMember_unresolved hpath hres⟩
      | some parentParts =>
        cases hwh : handleWhiteouts && isWhiteout name with
        -- a whiteout does not look at what is deferred
        | true =>
          have hlook : resolveAt root parent fs = (.ok (some parentParts), fs) := by
            unfold resolveAt
            rw [Proc.look_apply, hres]
          have hstart : ∀ acc, processMember umask strip handleWhiteouts root m acc fs =
              readWhiteout umask root parentParts name acc fs := by
            intro acc
            unfold processMember
            rw [if_neg hk, hpath]
            refine (Proc.bind_of_ok hlook).trans ?_
            simp only [hwh, if_true]
          rcases hd : (descendAt umask false root parentParts).optional fs with ⟨r, fs₁⟩
          cases r with
          | error e => exact ⟨.error e, fs₁, fun acc => by
              rw [hstart]
              exact Proc.bind_of_error hd⟩
          | ok o =>
            cases o with
            | none => exact ⟨.ok id, fs₁, fun acc => by
                rw [hstart]
                exact Proc.bind_of_ok hd⟩
            | some parentFd =>
              rcases ha : applyWhiteout parentFd name fs₁ with ⟨r, fs₂⟩
              cases r with
              | error e =>
                exact ⟨.error e, fs₂, fun acc => by
                  rw [hstart]
                  exact (Proc.bind_of_ok hd).trans (Proc.bind_of_error ha)⟩
              | ok u =>
                exact ⟨.ok id, fs₂, fun acc => by
                  rw [hstart]
                  exact (Proc.bind_of_ok hd).trans (Proc.bind_of_ok ha)⟩
        -- an entry, whose parent is made where it is missing
        | false =>
          rcases hd : descendAt umask true root parentParts fs with ⟨r, fs₁⟩
          cases r with
          | error e =>
            exact ⟨.error e, fs₁, fun acc => by
              rw [processMember_entry hk hpath hwh hres, Proc.bind_of_error hd]; rfl⟩
          | ok fd =>
            have hwrite : ∃ (r : Except Errno (Deferred → Deferred)) (fs' : Fs), ∀ acc,
                writeMember umask strip fd parentParts parent name m acc fs₁ =
                  (r.map fun f => f acc, fs') := by
              -- what is deferred is read by no call: it is only added to
              have step : ∀ (p : Sys Unit) (f : Deferred → Deferred),
                  ∃ (r : Except Errno (Deferred → Deferred)) (fs' : Fs), ∀ acc,
                    (do p; pure (f acc) : Sys Deferred) fs₁ = (r.map fun f => f acc, fs') := by
                intro p f
                rcases hp : p fs₁ with ⟨r, fs₂⟩
                cases r with
                | error e => exact ⟨.error e, fs₂, fun acc => Proc.bind_of_error hp⟩
                | ok u => exact ⟨.ok f, fs₂, fun acc => Proc.bind_of_ok hp⟩
              unfold writeMember
              cases m.kind with
              | device => exact ⟨.ok id, fs₁, fun acc => rfl⟩
              | other => exact ⟨.ok id, fs₁, fun acc => rfl⟩
              | dir => exact step _ _
              | sym linkname => exact step _ id
              | lnk linkname =>
                exact ⟨.ok (deferHardlink strip linkname (parent ++ [name])), fs₁, fun acc => rfl⟩
              | reg content => exact step _ id
            obtain ⟨r, fs', hr⟩ := hwrite
            exact ⟨r, fs', fun acc => by
              rw [processMember_entry hk hpath hwh hres, Proc.bind_of_ok hd, hr]⟩

/-- The rootfs stays a directory. -/
theorem advance_isDir_root (h : st.fs.IsDir root) : (advance umask root st m).fs.IsDir root := by
  -- the call is confined to the rootfs, whose own entry it keeps
  obtain ⟨r, fs', hr⟩ := processMember_uniform umask 0 true root m st.fs
  have hdir : fs'.IsDir root := by
    have hconf : Confined st.fs root [] st.fs :=
      ⟨fun q _ => rfl, fun d hd => absurd hd (by simp), fun d hd => absurd hd (by simp)⟩
    have htriple : Proc.Triple
        (fun fs => Confined st.fs root Deferred.empty.dirs fs ∧ LinksOk .empty)
        (processMember umask 0 true root m .empty)
        (fun acc fs => Confined st.fs root acc.dirs fs ∧ LinksOk acc) (Confined st.fs root []) :=
      processMember_confined h
    have hfinal := htriple.final (J := fun fs => fs.IsDir root)
      ⟨hconf, fun l hl => absurd hl (by simp [Deferred.empty])⟩
      (fun _ _ hc => hc.1.isDir_root h) fun _ hc => hc.isDir_root h
    rwa [hr] at hfinal
  unfold advance
  split
  · exact h
  · rw [hr]
    simp only
    split
    · exact hdir
    · split <;> exact hdir

/-- A member that is read stands at its destination. -/
theorem destination_present {acc acc' : Deferred} {fs fs' : Fs} {p : Path}
    (hroot : fs.IsDir root) (hwh : isWhiteoutMember m = false) (hkind : m.kind.written = true)
    (hdest : destination fs root m = some p)
    (hrun : processMember umask 0 true root m acc fs = (.ok acc', fs')) : (fs'.get p).isSome := by
  -- the member has a name and a parent that resolves
  have hk : m.kind ≠ .device := by
    intro hk
    rw [hk] at hkind
    cases hkind
  unfold destination at hdest
  cases hpath : memberPath 0 m.name with
  | none => rw [hpath] at hdest; cases hdest
  | some pn =>
    obtain ⟨parent, name⟩ := pn
    rw [hpath] at hdest
    obtain ⟨parentParts, hres, rfl⟩ := Option.map_eq_some_iff.mp hdest
    have hname : isWhiteout name = false := by
      unfold isWhiteoutMember at hwh
      rw [hpath] at hwh
      simpa [hk] using hwh
    have hparent := memberPath_noSlash hpath
    have hv := memberPath_validName hpath
    have hparts : ∀ c ∈ parentParts, ValidName c := by
      have hres' := hres
      rw [safeResolvePartsAt_eq_chroot hroot hparent] at hres'
      exact (Fs.chroot_resolved hparent hres').valid
    rw [processMember_entry hk hpath (by simp [hname]) hres] at hrun
    have hconf : Confined fs root [] fs :=
      ⟨fun q _ => rfl, fun d hd => absurd hd (by simp), fun d hd => absurd hd (by simp)⟩
    have hdescend : Proc.Triple (Confined fs root []) (descendAt umask true root parentParts) _ _ :=
      descendAt_confined hroot hparts
    have hwalk := hdescend fs hconf
    -- the parent is opened, or the member is an error
    rcases hd : descendAt umask true root parentParts fs with ⟨r, fs₁⟩
    rw [hd] at hwalk
    cases r with
    | error e => rw [Proc.bind_of_error hd] at hrun; cases hrun
    | ok fd =>
      obtain ⟨-, hdir, rfl⟩ := hwalk
      rw [Proc.bind_of_ok hd] at hrun
      cases hkd : m.kind with
      | device => exact absurd hkd hk
      | other => rw [hkd] at hkind; cases hkind
      | lnk linkname => rw [hkd] at hkind; cases hkind
      -- a directory is made, or is there already; a file in its place is an error
      | dir =>
        rw [writeMember_dir hkd] at hrun
        by_cases hfile : ∃ i data, fs₁.get (root ++ parentParts ++ [name]) = some (.file i data)
        · obtain ⟨i, data, hi⟩ := hfile
          rw [Proc.bind_of_error (writeDir_of_file hi)] at hrun
          cases hrun
        · push Not at hfile
          obtain ⟨fs₂, hw, hget⟩ : ∃ fs₂, writeDir umask (root ++ parentParts) name m fs₁ =
              (.ok (), fs₂) ∧ _ := writeDir_of_not_file hv hdir hfile
          rw [Proc.bind_of_ok hw] at hrun
          cases hrun
          rw [hget, if_pos rfl]
          rfl
      -- a link takes the place of whatever stands there
      | sym linkname =>
        rw [writeMember_sym hkd] at hrun
        obtain ⟨fs₂, hw, hget⟩ := writeSymlink_spec linkname hv hdir
        rw [Proc.bind_of_ok hw] at hrun
        cases hrun
        rw [hget, if_pos rfl]
        rw [hkd] at hkind
        unfold linkEntry
        rw [if_neg (of_decide_eq_true hkind)]
        rfl
      -- a file takes the place of anything but a directory
      | reg content =>
        rw [writeMember_reg hkd] at hrun
        by_cases hisdir : fs₁.IsDir (root ++ parentParts ++ [name])
        · rw [Proc.bind_of_error (fillNew_of_isDir hisdir)] at hrun
          cases hrun
        · obtain ⟨fs₂, ino, hw, hget, -⟩ :=
            fillNew_of_not_isDir umask ⟨content, m.mode, m.mtime⟩ hv hdir hisdir
          rw [Proc.bind_of_ok hw] at hrun
          cases hrun
          rw [hget, if_pos rfl]
          rfl

/-- A whiteout member never fails and defers nothing. -/
theorem processMember_of_whiteout {acc : Deferred} {fs : Fs} (hroot : fs.IsDir root)
    (hwh : isWhiteoutMember m = true) :
    ∃ fs', processMember umask 0 true root m acc fs = (.ok acc, fs') ∧
      ∀ q, fs'.get q = fs.get q ∨ fs'.get q = none ∧ ∃ parent name parentParts,
        memberPath 0 m.name = some (parent, name) ∧
        safeResolvePartsAt fs root parent = some parentParts ∧
        fs.IsDir (root ++ parentParts) ∧ Hides (root ++ parentParts) name q := by
  unfold isWhiteoutMember at hwh
  cases hpath : memberPath 0 m.name with
  | none => rw [hpath] at hwh; simp at hwh
  | some pn =>
    obtain ⟨parent, name⟩ := pn
    rw [hpath] at hwh
    simp only [Bool.and_eq_true, bne_iff_ne, ne_eq] at hwh
    cases hres : safeResolvePartsAt fs root parent with
    | none => exact ⟨fs, processMember_unresolved hpath hres, fun q => .inl rfl⟩
    | some parentParts =>
      obtain ⟨fs', hrun, hget⟩ : ∃ fs', processMember umask 0 true root m acc fs =
          (.ok acc, fs') ∧ _ := processMember_whiteout hroot hwh.1 hpath hwh.2 hres
      refine ⟨fs', hrun, fun q => ?_⟩
      rw [hget]
      split
      · rename_i hq
        exact .inr ⟨rfl, parent, name, parentParts, rfl, hres, hq.1, hq.2⟩
      · exact .inl rfl

/-- One member keeps what the layer has written exactly when it is harmless. -/
theorem advance_kept_iff (hroot : st.fs.IsDir root) (hkept : st.Kept) :
    (advance umask root st m).Kept ↔ Harmless root st m := by
  unfold advance
  split
  · rename_i hfailed
    refine ⟨fun _ hf => ?_, fun _ => hkept⟩
    rw [hfailed] at hf
    cases hf
  · rename_i hfailed
    rw [Bool.not_eq_true] at hfailed
    simp only
    split
    · -- a whiteout: what it hides is gone, the rest is as it was
      rename_i hwh
      obtain ⟨fs', hrun, hget⟩ : ∃ fs', processMember umask 0 true root m st.acc st.fs =
          (.ok st.acc, fs') ∧ _ := processMember_of_whiteout hroot hwh
      rw [hrun]
      constructor
      · intro h _ _ parent name parentParts hpath hres hdir q hq hhides
        have hsome := h q hq
        have hk : m.kind ≠ .device := by
          unfold isWhiteoutMember at hwh
          rw [Bool.and_eq_true, bne_iff_ne] at hwh
          exact hwh.1
        have hname : isWhiteout name = true := by
          unfold isWhiteoutMember at hwh
          rw [hpath, Bool.and_eq_true] at hwh
          exact hwh.2
        obtain ⟨fs'', hrun', hget'⟩ : ∃ fs'', processMember umask 0 true root m st.acc st.fs =
            (.ok st.acc, fs'') ∧ _ := processMember_whiteout hroot hk hpath hname hres
        rw [hrun] at hrun'
        cases hrun'
        rw [hget', if_pos ⟨hdir, hhides⟩] at hsome
        cases hsome
      · intro h q hq
        show (fs'.get q).isSome = true
        rcases hget q with hsame | ⟨-, parent, name, parentParts, hpath, hres, hdir, hhides⟩
        · rw [hsame]
          exact hkept q hq
        · exact absurd hhides (h hfailed hwh parent name parentParts hpath hres hdir q hq)
    · -- any other member: what it displaced is no longer counted
      rename_i hwh
      rw [Bool.not_eq_true] at hwh
      refine ⟨fun _ _ hw => ?_, fun _ => ?_⟩
      · rw [hwh] at hw
        cases hw
      · rcases hrun : processMember umask 0 true root m st.acc st.fs with ⟨r, fs'⟩
        have hfilter : ∀ q ∈ st.written.filter (fun q => (fs'.get q).isSome), (fs'.get q).isSome :=
          fun q hq => (List.mem_filter.mp hq).2
        cases r with
        | error e => exact hfilter
        | ok acc =>
          intro q hq
          simp only at hq ⊢
          split at hq
          · rename_i hkind
            rcases List.mem_append.mp hq with hq | hq
            · exact hfilter q hq
            · exact destination_present hroot hwh hkind (Option.mem_toList.mp hq) hrun
          · exact hfilter q hq

end Step

/-! ## Whole layers -/

section Layer

variable {umask : Mode} {root : Path} {before : Fs} {members : List Member}

/-- The additions are kept exactly when each member is harmless where it is read. -/
theorem keepsAdditions_iff (hroot : before.IsDir root) :
    KeepsAdditions umask root before members ↔
      ∀ k, (hk : k < members.length) →
        Harmless root (progressAt umask root before members k) members[k] :=
  Fold.forall_stateAt_iff (fun st => st.fs.IsDir root) hroot
    (fun q hq => absurd hq (by simp [startOf])) (fun _ _ h => advance_isDir_root h)
    fun _ _ h hkept => advance_kept_iff h hkept

/-- Only a hard link is deferred as one. -/
theorem processMember_links {m : Member} {acc : Deferred} (hkind : ∀ t, m.kind ≠ .lnk t) :
    Proc.Keeps (fun _ => True) (processMember umask 0 true root m acc)
      fun acc' => acc'.links = acc.links :=
  processMember_defers.mono fun acc' h => by
    rcases h with hsame | ⟨linkname, parent, name, src, hlnk, -⟩
    · exact hsame
    · exact absurd hlnk (hkind linkname)

/-- After a failure nothing more is read. -/
theorem foldl_advance_of_failed {st : Progress} (h : st.failed = true) :
    members.foldl (advance umask root) st = st := by
  induction members with
  | nil => rfl
  | cons m members ih =>
    rw [List.foldl_cons]
    have hm : advance umask root st m = st := by
      unfold advance
      rw [if_pos h]
    rw [hm]
    exact ih

/-- The stream loop of the extractor goes through the same trees. -/
theorem thread_eq_progress (st : Progress) (hfailed : st.failed = false)
    (hroot : st.fs.IsDir root) :
    ∃ r, Proc.thread (processMember umask 0 true root) members st.acc st.fs =
      (r, (members.foldl (advance umask root) st).fs) := by
  induction members generalizing st with
  | nil => exact ⟨.ok st.acc, rfl⟩
  | cons m members ih =>
    rw [List.foldl_cons]
    have hdir : (advance umask root st m).fs.IsDir root := advance_isDir_root hroot
    rcases hrun : processMember umask 0 true root m st.acc st.fs with ⟨r, fs'⟩
    cases hwh : isWhiteoutMember m with
    | true =>
      obtain ⟨fs'', hrun', -⟩ : ∃ fs'', processMember umask 0 true root m st.acc st.fs =
          (.ok st.acc, fs'') ∧ _ := processMember_of_whiteout hroot hwh
      have hadv : advance umask root st m = { st with fs := fs'' } := by
        unfold advance
        rw [if_neg (by simp [hfailed]), hwh]
        simp only [if_true, hrun']
      rw [hadv] at hdir ⊢
      obtain ⟨r', hr'⟩ := ih { st with fs := fs'' } hfailed hdir
      exact ⟨r', by rw [Proc.thread_cons_of_ok hrun']; exact hr'⟩
    | false =>
      cases r with
      | error e =>
        have hadv : (advance umask root st m).fs = fs' ∧
            (advance umask root st m).failed = true := by
          unfold advance
          rw [if_neg (by simp [hfailed]), hwh]
          simp [hrun]
        rw [foldl_advance_of_failed hadv.2, hadv.1]
        exact ⟨.error e, Proc.thread_cons_of_error hrun⟩
      | ok acc =>
        have hadv : (advance umask root st m).fs = fs' ∧ (advance umask root st m).acc = acc ∧
            (advance umask root st m).failed = false := by
          unfold advance
          rw [if_neg (by simp [hfailed]), hwh]
          simp [hrun, hfailed]
        obtain ⟨r', hr'⟩ := ih _ hadv.2.2 hdir
        rw [hadv.1, hadv.2.1] at hr'
        exact ⟨r', by rw [Proc.thread_cons_of_ok hrun]; exact hr'⟩

/-- A stamp takes nothing away. -/
theorem stampDir_present (fs₀ : Fs) (parts : Path) (mtime : Int) :
    Proc.Keeps (fun fs : Fs => ∀ q, (fs₀.get q).isSome → (fs.get q).isSome)
      (stampDir umask root parts mtime) fun _ => True := by
  unfold stampDir
  split
  · exact Proc.Keeps.pure trivial
  · refine Proc.Keeps.quietly
      ((Proc.Keeps.of_state fun fs => descendAt_false_state).bind fun fd _ => ?_)
    refine Proc.Keeps.change fun fs fs' h hfs' q hq => ?_
    obtain ⟨i, data, -, rfl⟩ := Fs.modifyAt_ok hfs'
    rw [Fs.get_mapInode, Option.isSome_map]
    exact h q hq

/-- What stands when the stream has been read stands in the end, in a layer without hard
links. -/
theorem applyLayer_present (R : Refusals) (hroot : before.IsDir root)
    (hkinds : ∀ m ∈ members, ∀ t, m.kind ≠ .lnk t) {q : Path}
    (hq : ((progressAt umask root before members members.length).fs.get q).isSome) :
    ((applyLayer R umask root members before).2.get q).isSome := by
  unfold progressAt at hq
  rw [Fold.stateAt_length] at hq
  obtain ⟨r, hr⟩ : ∃ r, Proc.thread (processMember umask 0 true root) members .empty before =
      (r, (members.foldl (advance umask root) (startOf before)).fs) :=
    thread_eq_progress (startOf before) rfl hroot
  have hlinks : Proc.Keeps (fun _ => True)
      (.thread (processMember umask 0 true root) members .empty)
      fun acc => acc.links = [] :=
    Proc.Keeps.thread rfl fun m hm acc hacc =>
      (processMember_links (hkinds m hm)).mono fun acc' hacc' => hacc'.trans hacc
  unfold applyLayer extractStream
  cases r with
  | error e =>
    rw [Proc.bind_of_error hr]
    exact hq
  | ok acc =>
    have hnone : acc.links = [] := by
      have := hlinks before trivial
      rw [hr] at this
      exact this.2
    rw [Proc.bind_of_ok hr, hnone, Proc.bind_of_ok (Proc.thread_nil _ _ _)]
    have hstamps : Proc.Keeps
        (fun fs : Fs => ∀ q, ((members.foldl (advance umask root) (startOf before)).fs.get q).isSome →
          (fs.get q).isSome)
        (do .each (fun d => stampDir umask root d.1 d.2) acc.dirs.reverse
            pure ([] : List Path) : Sys (List Path)) fun _ => True :=
      (Proc.Keeps.each fun d _ => stampDir_present _ d.1 d.2).bind fun _ _ =>
        Proc.Keeps.pure trivial
    exact hstamps.final (J := fun fs => (fs.get q).isSome) (fun q hq => hq)
      (fun _ _ h => h.1 q hq) fun _ h => h q hq

/-- **When whiteouts leave their own layer alone.** For every lower tree and every layer of
directories, files, links and whiteouts: nothing the layer has written is removed by a
whiteout of the same layer, at any point, exactly when no whiteout is read after a member
that was written at or below the place it names, resolved in the tree at that moment. Then
whatever the layer has written, and no other member of it has displaced, is there in the
tree `apply_layer` leaves. -/
theorem whiteouts_keep_additions_iff (R : Refusals) (umask : Mode) (root : Path) (before : Fs)
    (members : List Member) (hroot : before.IsDir root)
    (hkinds : ∀ m ∈ members, ∀ t, m.kind ≠ .lnk t) :
    (KeepsAdditions umask root before members ↔
      ∀ k, (hk : k < members.length) →
        Harmless root (progressAt umask root before members k) members[k]) ∧
    (KeepsAdditions umask root before members →
      ∀ q ∈ (progressAt umask root before members members.length).written,
        ((applyLayer R umask root members before).2.get q).isSome) :=
  ⟨keepsAdditions_iff hroot, fun h q hq =>
    applyLayer_present R hroot hkinds (h members.length (Nat.le_refl _) q hq)⟩

/-- A layer that adds `a/x` and marks `a` opaque, as an overlay may pack it. -/
def markedAfter : List Member :=
  [⟨"a/x".toList, .reg [120], 0o644, 0⟩, ⟨"a/.wh..wh..opq".toList, .reg [], 0o644, 0⟩]

/-- The lower layer's `a`, with an entry the marker is meant for. -/
def lowerTree : Fs :=
  Fs.ofList [([['a']], .dir 0o755), ([['a'], ['o']], .file 0 ⟨[111], 0o644, 0⟩)]

theorem whiteouts_keep_additions_iff_markedFirst :
    ((applyLayer noRefusals 0o022 [] markedAfter.reverse lowerTree).2.get [['a'], ['x']]).isSome := by
  have hroot : lowerTree.IsDir [] := lowerTree.isDir_root
  have hkinds : ∀ m ∈ markedAfter.reverse, ∀ t, m.kind ≠ .lnk t := by
    intro m hm t
    simp only [markedAfter, List.reverse_cons, List.reverse_nil, List.nil_append,
      List.cons_append, List.mem_cons, List.not_mem_nil, or_false] at hm
    rcases hm with rfl | rfl <;> simp
  have h := whiteouts_keep_additions_iff noRefusals 0o022 [] lowerTree markedAfter.reverse hroot hkinds
  refine h.2 ?_ _ (by decide +kernel)
  have hall : ∀ k ≤ markedAfter.reverse.length, ∀ q ∈
      (progressAt 0o022 [] lowerTree markedAfter.reverse k).written,
      ((progressAt 0o022 [] lowerTree markedAfter.reverse k).fs.get q).isSome := by
    decide +kernel
  exact hall

/-- The marker removes what its own layer brought when it is read second, and only what the
lower layer brought when it is read first. -/
theorem markedAfter_loses_addition :
    ¬ (∀ umask root before members, before.IsDir root → KeepsAdditions umask root before members) ∧
      (applyLayer noRefusals 0o022 [] markedAfter lowerTree).2.get [['a'], ['x']] = none ∧
      ((applyLayer noRefusals 0o022 [] markedAfter.reverse lowerTree).2.get [['a'], ['x']]).isSome := by
  refine ⟨fun h => ?_, by decide +kernel, by decide +kernel⟩
  have hlost : ¬ ∀ q ∈ (progressAt 0o022 [] lowerTree markedAfter 2).written,
      ((progressAt 0o022 [] lowerTree markedAfter 2).fs.get q).isSome := by
    decide +kernel
  exact hlost (h 0o022 [] lowerTree markedAfter lowerTree.isDir_root 2 (by decide))

end Layer

end TarExtract

end ProotDistro
