import ProotDistro.TarExtract.Confinement

/-!
# Hard links

A hard-link member is left for after the stream and then copied from its source. Other members
are written at the name they carry in the directory their parent resolves to (`linkPlace`), and
what a link at that name points at is left alone. A hard link resolves its own name as well.

* **`copyResolved_faithful_iff`** — where the place is free or a file's and can be cleared, the copy
  is exact if and only if its source can be read and it can be written.
* **`copyHardlink_through_link`** — a link in the place stays where it is seen, and what it leads to is
  replaced.
* **`hardlink_faithful_iff`** — so a deferred link comes out as a copy, with the rest of the tree
  as it was, exactly where the place is in a directory and neither a directory nor a link that is
  seen, and no call of the copy is refused.
* **`hardlink_loses_source`** — where it is a link to the source, the source is removed.
-/

namespace ProotDistro

open Posix Dirfd

namespace TarExtract

/-- Where the entry `dest` belongs: its own name, in the directory the rest resolves to. -/
def linkPlace (R : Refusals) (fs : Fs) (root dest : Path) : Option Path :=
  match dest.getLast? with
  | none => none
  | some name => (safeResolvePartsAtIn R fs root dest.dropLast).map (· ++ [name])

/-- A file with the content of the file `s` stands at `p`, and nothing else has changed. -/
structure CopiedFaithfully (before after : Fs) (p s : Path) : Prop where
  copied : ∃ i j data data', before.get s = some (.file i data) ∧
    after.get p = some (.file j data') ∧ data'.content = data.content
  rest : ∀ q, q ≠ p → after.get q = before.get q

/-- A place a file can take: in a directory, and free or a file's, or a link's that is not seen. -/
structure TakesFile (R : Refusals) (fs : Fs) (p : Path) : Prop where
  parent : fs.IsDir p.dropLast
  no_dir : ¬ fs.IsDir p
  no_link : ∀ t, fs.get p = some (.symlink t) → R .lstat p = true

/-- Every call that puts the copy of `source` at `place` goes through. -/
structure CopyAllowed (R : Refusals) (fs : Fs) (root source place : Path) (data : FileData) :
    Prop where
  source_opens : R.Opens root source.dropLast
  source_seen : R .lstat (root ++ source) = false
  source_read : R .read (root ++ source) = false
  place_opens : R.Opens root place.dropLast
  unlinked : fs.get (root ++ place) = none ∨ R .unlink (root ++ place) = false
  created : R .create (root ++ place) = false
  written : data.content = [] ∨ R .write (root ++ place) = false

/-- The place has the content already, and the copy is stopped before it is cleared. -/
structure LeftThere (R : Refusals) (fs : Fs) (root source place : Path) (data : FileData) :
    Prop where
  held : ∃ j data', fs.get (root ++ place) = some (.file j data') ∧ data'.content = data.content
  stopped : ¬ (R.Opens root source.dropLast ∧ R .lstat (root ++ source) = false ∧
    R.Opens root place.dropLast ∧ R .unlink (root ++ place) = false)

section Copy

variable {R : Refusals} {umask : Mode} {fs : Fs} {root dest src parent place source : Path} {name : Name}
  {i : Nat} {data : FileData}

/-- A link's place is its name in the directory its parents resolve to. -/
theorem linkPlace_some (h : linkPlace R fs root (parent ++ [name]) = some place) :
    ∃ p, safeResolvePartsAtIn R fs root parent = some p ∧ place = p ++ [name] := by
  unfold linkPlace at h
  rw [List.getLast?_concat, List.dropLast_concat] at h
  obtain ⟨p, hp, hplace⟩ := Option.map_eq_some_iff.mp h
  exact ⟨p, hp, hplace.symm⟩

/-- What resolves is the answer, and nothing changes. -/
theorem resolveAtIn_of_some {parts : List Name} (h : safeResolvePartsAtIn R fs root parts = some place) :
    resolveAtIn R root parts fs = (.ok (some place), fs) := by
  unfold resolveAtIn
  rw [Proc.look_apply, h]

/-- A file's path is not the root's. -/
theorem file_concat (hroot : fs.IsDir root) (hfile : fs.get (root ++ source) = some (.file i data)) :
    ∃ init last, source = init ++ [last] := by
  rcases List.eq_nil_or_concat' source with rfl | h
  · obtain ⟨m, hm⟩ := hroot
    rw [List.append_nil, hm] at hfile
    cases hfile
  · exact h

/-- The part of `copyHardlink` that comes after its source has been seen. -/
def copyResolved (R : Refusals) (umask : Mode) (srcFd : Path) (srcName : Name) (root : Path)
    (dest : Path) (destName : Name) : Sys (Option Path) := do
  match ← (descendIn R umask true root dest).optional with
  | none => pure none
  | some dstFd => do
    (unlinkIn R dstFd destName).quietly
    (copyFileAt R umask srcFd srcName dstFd destName).quietly
    pure (some (srcFd ++ [srcName]))

/-- Down directories that are there the walk comes as far as it may, and changes nothing. -/
theorem descendIn_of_isDir {create : Bool} {parts : Path} (hv : ∀ c ∈ parts, ValidName c)
    (hdir : fs.IsDir (root ++ parts)) :
    descendIn R umask create root parts fs =
      (if R.Opens root parts then .ok (root ++ parts) else .error .EACCES, fs) := by
  obtain ⟨rest, hrest⟩ := R.openable_prefix root parts
  have hpart : fs.IsDir (root ++ R.openable root parts) := by
    rw [← hrest, ← List.append_assoc] at hdir
    exact hdir.of_append
  have hpartv : ∀ c ∈ R.openable root parts, ValidName c := fun c hc =>
    hv c ((R.openable_prefix root parts).subset hc)
  unfold descendIn
  rw [Proc.bind_of_ok (descendAt_of_isDir hpartv hpart)]
  by_cases hopens : R.Opens root parts
  · rw [if_pos hopens]
    have hall : R.openable root parts = parts := hopens
    rw [hall, bne_self_eq_false]
    rfl
  · rw [if_neg hopens, bne_iff_ne.mpr hopens]
    rfl

/-- Where the source resolves to a file, the rest is up to the destination, if the file is seen. -/
theorem copyHardlink_of_source {srcParts destParts : Path} {srcName destName : Name}
    (hroot : fs.IsDir root) (hsrcSlash : ∀ c ∈ src, Fs.NoSlash c)
    (hsrc : safeResolvePartsAtIn R fs root src = some (srcParts ++ [srcName]))
    (hfile : fs.get (root ++ (srcParts ++ [srcName])) = some (.file i data))
    (hdest : safeResolvePartsAtIn R fs root dest = some (destParts ++ [destName])) :
    copyHardlink R umask root dest src fs =
      if R.Opens root srcParts ∧ R .lstat (root ++ (srcParts ++ [srcName])) = false then
        copyResolved R umask (root ++ srcParts) srcName root destParts destName fs
      else (.ok none, fs) := by
  have hvalid : ∀ c ∈ srcParts, ValidName c := fun c hc =>
    (safeResolvePartsAtIn_resolved hroot hsrcSlash hsrc).valid c (List.mem_append_left _ hc)
  rw [← List.append_assoc] at hfile ⊢
  have hdir : fs.IsDir (root ++ srcParts) := Fs.isDir_parent hfile
  have hdescend : descendIn R umask false root srcParts fs = _ := descendIn_of_isDir hvalid hdir
  unfold copyHardlink
  rw [Proc.bind_of_ok (resolveAtIn_of_some hsrc), Proc.bind_of_ok (resolveAtIn_of_some hdest)]
  simp only [Option.bind_some, List.getLast?_concat, Option.getD_some, List.dropLast_concat]
  by_cases hopens : R.Opens root srcParts
  · rw [if_pos hopens] at hdescend
    rw [Proc.bind_of_ok (Proc.optional_of_ok hdescend)]
    simp only
    cases hseen : R .lstat (root ++ srcParts ++ [srcName]) with
    | true =>
      rw [if_neg (by simp), Proc.bind_of_ok (Proc.optional_of_error (refusing_true _))]
      rfl
    | false =>
      rw [if_pos ⟨hopens, rfl⟩, refusing_false,
        Proc.bind_of_ok (Proc.optional_of_ok (lstatAt_of_get hfile))]
      rfl
  · rw [if_neg hopens] at hdescend
    rw [if_neg (fun h => hopens h.1), Proc.bind_of_ok (Proc.optional_of_error hdescend)]
    rfl

/-- A place that may not be gone to, or is a directory, or may not be cleared, is left alone. -/
theorem copyResolved_of_kept {srcFd dest : Path} {srcName destName : Name}
    (hvalid : ∀ c ∈ dest ++ [destName], ValidName c) (hdir : fs.IsDir (root ++ dest))
    (hkept : ¬ R.Opens root dest ∨ ∃ e, fs.get (root ++ dest ++ [destName]) = some e ∧
      (e.isDir = true ∨ R .unlink (root ++ dest ++ [destName]) = true)) :
    (copyResolved R umask srcFd srcName root dest destName fs).2 = fs := by
  have hdescend : descendIn R umask true root dest fs = _ :=
    descendIn_of_isDir (fun c hc => hvalid c (List.mem_append_left _ hc)) hdir
  unfold copyResolved
  by_cases hopens : R.Opens root dest
  · obtain ⟨e, he, hstays⟩ := hkept.resolve_left (not_not.mpr hopens)
    rw [if_pos hopens] at hdescend
    have hunlink : (unlinkIn R (root ++ dest) destName).quietly fs = (.ok (), fs) := by
      unfold unlinkIn
      cases hr : R .unlink (root ++ dest ++ [destName]) with
      | true => exact Proc.quietly_of_error (refusing_true _)
      | false =>
        have hisDir : fs.IsDir (root ++ dest ++ [destName]) := by
          cases e with
          | dir m => exact ⟨m, he⟩
          | file j d => cases hstays.resolve_right (by rw [hr]; exact Bool.false_ne_true)
          | symlink t => cases hstays.resolve_right (by rw [hr]; exact Bool.false_ne_true)
        have herr : unlinkAt (root ++ dest) destName fs = (.error .EISDIR, fs) :=
          Proc.change_of_error (Fs.unlinkAt_of_dir
            (by rw [Fs.locate_valid (Fs.validName_of_get he)]; exact hisDir))
        exact Proc.quietly_of_error herr
    have hcopy : (copyFileAt R umask srcFd srcName (root ++ dest) destName).quietly fs =
        (.ok (), fs) := by
      rw [Proc.quietly_ok]
      congr 1
      unfold copyFileAt
      -- the source is read or not; the open of the new file fails
      cases R .read (srcFd ++ [srcName]) with
      | true => rw [Proc.bind_of_error (refusing_true _)]
      | false =>
        rw [refusing_false]
        unfold openRegularAt
        cases hread : readRegular srcFd srcName fs with
        | error err => rw [Proc.bind_look_of_error hread]
        | ok d =>
          obtain ⟨err, herr⟩ : ∃ err,
              openNewIn R umask (root ++ dest) destName d.mode fs = (.error err, fs) :=
            openNewIn_of_kept he hstays
          rw [Proc.bind_look_of_ok hread, Proc.bind_of_error herr]
    rw [Proc.bind_of_ok (Proc.optional_of_ok hdescend)]
    simp only
    rw [Proc.bind_of_ok hunlink, Proc.bind_of_ok hcopy]
    rfl
  · rw [if_neg hopens] at hdescend
    rw [Proc.bind_of_ok (Proc.optional_of_error hdescend)]
    rfl

/-- A place that a file can take is free after it has been cleared, and nothing else has changed. -/
theorem unlinkIn_clears {d : Path} (hname : ValidName name) (hnodir : ¬ fs.IsDir (d ++ [name]))
    (hunlink : fs.get (d ++ [name]) = none ∨ R .unlink (d ++ [name]) = false) :
    ∃ fs₁, (unlinkIn R d name).quietly fs = (.ok (), fs₁) ∧
      ∀ q, fs₁.get q = if q = d ++ [name] then none else fs.get q := by
  cases hold : fs.get (d ++ [name]) with
  | none =>
    have hsame : (unlinkIn R d name fs).2 = fs := by
      unfold unlinkIn
      cases R .unlink (d ++ [name]) with
      | true => rfl
      | false =>
        rw [refusing_false]
        unfold unlinkAt
        cases hrun : fs.unlinkAt d name with
        | error e => rw [Proc.change_of_error hrun]
        | ok fs' =>
          obtain ⟨⟨e, he, -⟩, -⟩ := Fs.unlinkAt_ok hrun
          rw [Fs.locate_valid hname, hold] at he
          cases he
    refine ⟨fs, ?_, fun q => ?_⟩
    · rw [Proc.quietly_ok, hsame]
    · split
      · rename_i hq
        rw [hq, hold]
      · rfl
  | some e =>
    have he : e.isDir = false := by
      cases e with
      | dir m => exact absurd ⟨m, hold⟩ hnodir
      | file j d => rfl
      | symlink t => rfl
    have hallowed : R .unlink (d ++ [name]) = false := hunlink.resolve_left (by simp [hold])
    obtain ⟨fs₁, hrun⟩ := Fs.unlinkAt_of_some hold he
    obtain ⟨-, hget⟩ := Fs.unlinkAt_ok hrun
    rw [Fs.locate_valid hname] at hget
    have hunlinks : unlinkIn R d name fs = (.ok (), fs₁) := by
      unfold unlinkIn
      rw [hallowed, refusing_false]
      exact Proc.change_of_ok hrun
    exact ⟨fs₁, Proc.quietly_of_ok hunlinks, hget⟩

/-- **When the copy is exact**, its place being one that a file can take and that can be cleared: if
and only if the source may be read and the copy be made and written. -/
theorem copyResolved_faithful_iff {srcFd dest : Path} {srcName destName : Name}
    (hvalid : ∀ c ∈ dest ++ [destName], ValidName c) (hsrcName : ValidName srcName)
    (hfile : fs.get (srcFd ++ [srcName]) = some (.file i data))
    (hplace : TakesFile R fs (root ++ (dest ++ [destName])))
    (hne : srcFd ++ [srcName] ≠ root ++ (dest ++ [destName])) (hopens : R.Opens root dest)
    (hunlink : fs.get (root ++ (dest ++ [destName])) = none ∨
      R .unlink (root ++ (dest ++ [destName])) = false) :
    CopiedFaithfully fs (copyResolved R umask srcFd srcName root dest destName fs).2
        (root ++ (dest ++ [destName])) (srcFd ++ [srcName]) ↔
      R .read (srcFd ++ [srcName]) = false ∧ R .create (root ++ (dest ++ [destName])) = false ∧
        (data.content = [] ∨ R .write (root ++ (dest ++ [destName])) = false) := by
  obtain ⟨hparent, hnodir, -⟩ := hplace
  rw [← List.append_assoc, List.dropLast_concat] at hparent
  rw [← List.append_assoc] at hnodir hne hunlink ⊢
  have hdestName : ValidName destName := hvalid destName (by simp)
  -- the place is cleared: a file or a link is unlinked, and nothing else stands there
  have hdescend : descendIn R umask true root dest fs = _ :=
    descendIn_of_isDir (fun c hc => hvalid c (List.mem_append_left _ hc)) hparent
  rw [if_pos hopens] at hdescend
  obtain ⟨fs₁, hclear, hget₁⟩ := unlinkIn_clears hdestName hnodir hunlink
  have hdir₁ : fs₁.IsDir (root ++ dest) := by
    obtain ⟨m, hm⟩ := hparent
    refine ⟨m, ?_⟩
    rw [hget₁, if_neg (by simp), hm]
  have hfile₁ : fs₁.get (srcFd ++ [srcName]) = some (.file i data) := by
    rw [hget₁, if_neg hne, hfile]
  have hfree₁ : fs₁.get (root ++ dest ++ [destName]) = none := by rw [hget₁, if_pos rfl]
  -- what is left is the copy
  have hrun : (copyResolved R umask srcFd srcName root dest destName fs).2 =
      (copyFileAt R umask srcFd srcName (root ++ dest) destName fs₁).2 := by
    unfold copyResolved
    rw [Proc.bind_of_ok (Proc.optional_of_ok hdescend)]
    simp only
    rw [Proc.bind_of_ok hclear, Proc.bind_of_ok (Proc.quietly_ok _ _)]
    rfl
  rw [hrun]
  -- a copy that stops before it has made its file leaves the place free
  have hlost : (copyFileAt R umask srcFd srcName (root ++ dest) destName fs₁).2 = fs₁ →
      ¬ CopiedFaithfully fs (copyFileAt R umask srcFd srcName (root ++ dest) destName fs₁).2
        (root ++ dest ++ [destName]) (srcFd ++ [srcName]) := by
    intro hsame hcopied
    obtain ⟨_, j, _, data', -, hafter, -⟩ := hcopied.copied
    rw [hsame, hfree₁] at hafter
    cases hafter
  cases hread : R .read (srcFd ++ [srcName]) with
  -- a refused open of the source
  | true =>
    refine ⟨fun h => absurd h (hlost ?_), fun h => by simp at h⟩
    unfold copyFileAt
    rw [hread, Proc.bind_of_error (refusing_true _)]
  | false =>
    cases hcreate : R .create (root ++ dest ++ [destName]) with
    -- a refused create
    | true =>
      refine ⟨fun h => absurd h (hlost ?_), fun h => by simp at h⟩
      have hopen : refusing false (openRegularAt srcFd srcName) fs₁ = (.ok data, fs₁) := by
        rw [refusing_false]
        unfold openRegularAt readRegular
        rw [Proc.look_apply, Fs.locate_valid hsrcName, hfile₁]
      have hnew : openNewIn R umask (root ++ dest) destName data.mode fs₁ = (.error .EACCES, fs₁) := by
        unfold openNewIn
        rw [Proc.handle_of_error (createIn_refused hfree₁ hcreate), if_neg (by decide)]
        rfl
      unfold copyFileAt
      rw [hread, Proc.bind_of_ok hopen, Proc.bind_of_error hnew]
    -- the file is made, and holds what was written
    | false =>
      obtain ⟨ino, data', hget, hcontent⟩ :=
        copyFileAt_of_free umask hsrcName hfile₁ hread hdestName hdir₁ hfree₁ hcreate
      have hhere : (copyFileAt R umask srcFd srcName (root ++ dest) destName fs₁).2.get
          (root ++ dest ++ [destName]) = some (.file ino data') := by
        rw [hget, if_pos rfl]
      rw [and_iff_right rfl, and_iff_right rfl, ← hcontent]
      constructor
      · intro hcopied
        obtain ⟨i', j, data₁, data₂, hbefore, hafter, heq⟩ := hcopied.copied
        rw [hfile, Option.some.injEq, Entry.file.injEq] at hbefore
        rw [hhere, Option.some.injEq, Entry.file.injEq] at hafter
        rw [hafter.2, heq, hbefore.2]
      · intro heq
        refine ⟨⟨i, ino, data, data', hfile, hhere, heq⟩, fun q hq => ?_⟩
        rw [hget, if_neg hq, hget₁, if_neg hq]

/-- A link is there, below a root that is a directory. -/
def LinkAt (root p : Path) (t : List Char) (fs : Fs) : Prop :=
  fs.IsDir root ∧ fs.get (root ++ p) = some (.symlink t)

section Links

variable {p : Path} {t : List Char}

/-- A change at another path leaves the link. -/
theorem LinkAt.of_get {fs' : Fs} {d : Path} {c : Name} {e : Option Entry} (h : LinkAt root p t fs)
    (hget : ∀ q, fs'.get q = if q = root ++ d ++ [c] then e else fs.get q) (hne : d ++ [c] ≠ p) :
    LinkAt root p t fs' := by
  obtain ⟨⟨m, hm⟩, hlink⟩ := h
  refine ⟨⟨m, ?_⟩, ?_⟩
  · rw [hget, if_neg (by simp), hm]
  · rw [hget, if_neg, hlink]
    intro heq
    rw [List.append_assoc] at heq
    exact hne (List.append_cancel_left heq).symm

/-- A descent that makes directories keeps a link that stands. -/
theorem descendAt_keeps_link {create : Bool} {parts : Path} (hvalid : ∀ c ∈ parts, ValidName c) :
    Proc.Keeps (LinkAt root p t) (descendAt umask create root parts) fun fd => fd = root ++ parts := by
  intro fs h
  by_cases hdir : fs.IsDir (root ++ parts)
  · rw [descendAt_of_isDir hvalid hdir]
    exact ⟨h, rfl⟩
  · cases create with
    | false =>
      obtain ⟨e, he⟩ : ∃ e, descendAt umask false root parts fs = (.error e, fs) :=
        descendAt_of_not_isDir hvalid h.1 hdir
      rw [he]
      exact h
    | true =>
      by_cases hfree : ∀ r, r <+: parts → fs.get (root ++ r) = none ∨ fs.IsDir (root ++ r)
      · obtain ⟨fs', hrun, hget⟩ : ∃ fs', descendAt umask true root parts fs =
            (.ok (root ++ parts), fs') ∧ _ := descendAt_create hvalid h.1 hfree
        have hpresent : ∀ q e, fs.get q = some e → fs'.get q = some e := by
          intro q e hq
          rw [hget, if_neg, hq]
          intro hnone
          rw [hq] at hnone
          cases hnone.1
        rw [hrun]
        obtain ⟨⟨m, hm⟩, hlink⟩ := h
        exact ⟨⟨⟨m, hpresent _ _ hm⟩, hpresent _ _ hlink⟩, rfl⟩
      · push Not at hfree
        obtain ⟨r, hr, hsome, hndir⟩ := hfree
        obtain ⟨e, he⟩ := Option.ne_none_iff_exists'.mp hsome
        obtain ⟨err, herr⟩ : ∃ err, descendAt umask true root parts fs = (.error err, fs) :=
          descendAt_blocked hvalid hr he hndir h.1
        rw [herr]
        exact h

theorem descendIn_keeps_link {create : Bool} {parts : Path} (hvalid : ∀ c ∈ parts, ValidName c) :
    Proc.Keeps (LinkAt root p t) (descendIn R umask create root parts)
      fun fd => fd = root ++ parts := by
  have hpart : ∀ c ∈ R.openable root parts, ValidName c := fun c hc =>
    hvalid c ((R.openable_prefix root parts).subset hc)
  refine (descendAt_keeps_link hpart).bind fun fd hfd => ?_
  by_cases hopens : R.openable root parts = parts
  · rw [hopens, bne_self_eq_false, refusing_false]
    exact Proc.Keeps.pure (by rw [hfd, hopens])
  · rw [bne_iff_ne.mpr hopens]
    exact Proc.Keeps.fail

/-- An unlink of another name keeps it. -/
theorem unlinkAt_keeps_link {d : Path} {c : Name} (hc : ValidName c) (hne : d ++ [c] ≠ p) :
    Proc.Keeps (LinkAt root p t) (unlinkAt (root ++ d) c) fun _ => True := by
  refine Proc.Keeps.change fun fs fs' h hfs' => ?_
  obtain ⟨-, hget⟩ := Fs.unlinkAt_ok hfs'
  rw [Fs.locate_valid hc] at hget
  exact h.of_get hget hne

theorem copyFileAt_keeps_link {srcDir d : Path} {srcName c : Name} (hc : ValidName c)
    (hne : d ++ [c] ≠ p) :
    Proc.Keeps (LinkAt root p t) (copyFileAt R umask srcDir srcName (root ++ d) c) fun _ => True := by
  refine Proc.Keeps.of_invariant fun fs h => ?_
  rcases copyFileAt_cases R umask srcDir srcName fs hc with hsame | hgone | ⟨ino, data, hget, -⟩
  · rw [hsame]
    exact h
  · exact h.of_get hgone hne
  · exact h.of_get hget hne

/-- What a path resolves to is no link that is seen, and made of ordinary names. -/
theorem resolveAtIn_keeps_link (hseen : R .lstat (root ++ p) = false)
    (hdest : ∀ c ∈ dest, Fs.NoSlash c) :
    Proc.Keeps (LinkAt root p t) (resolveAtIn R root dest) fun o => ∀ place, o = some place →
      (∀ c ∈ place, ValidName c) ∧ (place ≠ [] → place ≠ p) := by
  refine Proc.Keeps.look fun fs o h ho place hplace => ?_
  rw [Except.ok.injEq] at ho
  have hresolved := safeResolvePartsAtIn_resolved h.1 hdest (ho.trans hplace)
  refine ⟨hresolved.valid, ?_⟩
  rintro hne rfl
  rw [hresolved.link place t (List.prefix_refl _) hne h.2] at hseen
  cases hseen

/-- **A link in the place of a hard link stays** if it is seen: what is replaced is what it leads to. -/
theorem copyHardlink_through_link (hseen : R .lstat (root ++ p) = false)
    (hdest : ∀ c ∈ dest, Fs.NoSlash c) (hsrc : ∀ c ∈ src, Fs.NoSlash c) :
    Proc.Keeps (LinkAt root p t) (copyHardlink R umask root dest src) fun _ => True := by
  have nothing : Proc.Keeps (LinkAt root p t) (pure none : Sys (Option Path)) fun _ => True :=
    Proc.Keeps.pure trivial
  unfold copyHardlink
  refine (resolveAtIn_keeps_link hseen hsrc).bind fun srcResolved hsrcv => ?_
  refine (resolveAtIn_keeps_link hseen hdest).bind fun destResolved hdestv => ?_
  split
  · rename_i srcName destName hsrcName hdestName
    obtain ⟨srcParts, rfl, -⟩ := Option.bind_eq_some_iff.mp hsrcName
    obtain ⟨destParts, rfl, hdestLast⟩ := Option.bind_eq_some_iff.mp hdestName
    obtain ⟨init, rfl⟩ := List.getLast?_eq_some_iff.mp hdestLast
    obtain ⟨hvalid, hne⟩ := hdestv _ rfl
    have hsv : ∀ c ∈ srcParts.dropLast, ValidName c := fun c hc =>
      (hsrcv srcParts rfl).1 c (List.mem_of_mem_dropLast hc)
    have hdv : ∀ c ∈ init, ValidName c := fun c hc => hvalid c (List.mem_append_left _ hc)
    have hdn : ValidName destName := hvalid destName (by simp)
    simp only [Option.getD_some, List.dropLast_concat]
    have looks : ∀ d n, Proc.Keeps (LinkAt root p t) (lstatAt d n) fun _ => True := fun _ _ =>
      Proc.Keeps.look fun _ _ _ _ => trivial
    refine (descendIn_keeps_link hsv).optional.bind fun o _ => ?_
    split
    · exact nothing
    · refine (keeps_refusing _ (looks _ srcName)).optional.bind fun o _ => ?_
      split
      · refine (descendIn_keeps_link hdv).optional.bind fun o hdstFd => ?_
        split
        · exact nothing
        · rename_i dstFd
          rw [hdstFd dstFd rfl]
          have hother := hne (by simp)
          refine (keeps_refusing _ (unlinkAt_keeps_link hdn hother)).quietly.bind fun _ _ => ?_
          exact (copyFileAt_keeps_link hdn hother).quietly.bind fun _ _ => Proc.Keeps.pure trivial
      · exact nothing
  · exact nothing

end Links

end Copy

/-! ## The stream -/

section Stream

variable {R : Refusals} {umask : Mode} {strip : Nat} {handleWhiteouts : Bool}
  {before fs fs₁ : Fs} {root : Path} {members : List Member} {acc : Deferred} {done : List (Path × Path)} {reads : List Path}

/-- A link is deferred with a name of its own and a filtered source. -/
structure LinkNamed (link : Path × Path) : Prop where
  dest : ∃ parent name, link.1 = parent ++ [name] ∧ (∀ c ∈ parent, Fs.NoSlash c) ∧ ValidName name
  source : ∀ c ∈ link.2, Fs.NoSlash c

/-- The place of a deferred link has names without slashes. -/
theorem LinkNamed.dest_noSlash {link : Path × Path} (h : LinkNamed link) :
    ∀ c ∈ link.1, Fs.NoSlash c := by
  obtain ⟨parent, name, hlink, hparent, hname⟩ := h.dest
  intro c hc
  rw [hlink] at hc
  rcases List.mem_append.mp hc with hc | hc
  · exact hparent c hc
  · rw [List.mem_singleton.mp hc]
    exact hname.no_slash

/-- Every link that is deferred is named. -/
theorem links_named
    (h : Proc.thread (processMember umask strip handleWhiteouts root) members .empty before =
      (.ok acc, fs₁)) : ∀ link ∈ acc.links, LinkNamed link := by
  have hthread : Proc.Keeps (fun _ => True)
      (.thread (processMember umask strip handleWhiteouts root) members .empty)
      fun acc => ∀ link ∈ acc.links, LinkNamed link := by
    refine Proc.Keeps.thread (fun link hlink => absurd hlink (by simp [Deferred.empty]))
      fun m _ acc hacc => processMember_defers.mono fun acc' hdefers link hlink => ?_
    rcases hdefers with hsame | ⟨linkname, parent, name, src, -, hpath, hstrip, hlinks⟩
    · exact hacc link (hsame ▸ hlink)
    · rw [hlinks] at hlink
      rcases List.mem_append.mp hlink with hlink | hlink
      · exact hacc link hlink
      · rw [List.mem_singleton.mp hlink]
        exact ⟨⟨parent, name, rfl, memberPath_noSlash hpath, memberPath_validName hpath⟩,
          fun c hc => stripParts_noSlash hstrip hc⟩
  have hrun := hthread before trivial
  rw [h] at hrun
  exact hrun.2

/-- While links are copied the root stays a directory. -/
theorem copies_isDir_root (hroot : before.IsDir root)
    (hmembers : Proc.thread (processMember umask strip handleWhiteouts root) members .empty before =
      (.ok acc, fs₁))
    (hsub : ∀ link ∈ done, link ∈ acc.links)
    (hdone : Proc.thread (copyNext R umask root) done [] fs₁ = (.ok reads, fs)) : fs.IsDir root := by
  have hstream := @stream_confined umask strip handleWhiteouts before root hroot members before rfl
  rw [hmembers] at hstream
  have hcopies : Proc.Keeps (Confined before root acc.dirs) (.thread (copyNext R umask root) done [])
      fun _ => True := by
    refine Proc.Keeps.thread trivial fun link hlink reads _ => ?_
    have hok := hstream.2 link (hsub link hlink)
    exact (copyHardlink_confined hroot hok.1 hok.2).bind fun _ _ => Proc.Keeps.pure trivial
  have hrun := hcopies fs₁ hstream.1
  rw [hdone] at hrun
  exact hrun.1.isDir_root hroot

/-- The next copy leaves the state the copy does. -/
theorem copyNext_state (link : Path × Path) (reads : List Path) (fs : Fs) :
    (copyNext R umask root link reads fs).2 = (copyHardlink R umask root link.1 link.2 fs).2 := by
  obtain ⟨read, fs', hrun⟩ := @copyHardlink_total R umask root link.1 link.2 fs
  unfold copyNext
  rw [Proc.bind_of_ok hrun, hrun]
  rfl

/-- **When a hard link is faithful.** In every extraction, when the turn of a deferred link has
come and its source resolves to a file at another path than its own, whatever was refused so far and
whatever is refused now: a copy of that file stands at the link's place afterwards and every other
path is as it was if and only if the place lies in a directory and is neither a directory nor a
symbolic link that is seen, and either every call of the copy goes through, or the place has the
content already and the copy stops before it clears it. -/
theorem hardlink_faithful_iff (umask : Mode) (strip : Nat) (handleWhiteouts : Bool) (root : Path)
    (before : Fs) (members : List Member) (acc : Deferred) (fs₁ : Fs)
    (done rest : List (Path × Path)) (link : Path × Path) (reads : List Path) (fs : Fs)
    (source place : Path) (i : Nat) (data : FileData) (R₀ R : Refusals)
    (hroot : before.IsDir root)
    (hmembers : Proc.thread (processMember umask strip handleWhiteouts root) members .empty before =
      (.ok acc, fs₁))
    (hlinks : acc.links = done ++ link :: rest)
    (hdone : Proc.thread (copyNext R₀ umask root) done [] fs₁ = (.ok reads, fs))
    (hsource : safeResolvePartsAtIn R fs root link.2 = some source)
    (hfile : fs.get (root ++ source) = some (.file i data))
    (hplace : linkPlace R fs root link.1 = some place) (hne : source ≠ place) :
    CopiedFaithfully fs (copyNext R umask root link reads fs).2 (root ++ place) (root ++ source) ↔
      TakesFile R fs (root ++ place) ∧
        (CopyAllowed R fs root source place data ∨ LeftThere R fs root source place data) := by
  have hnamed : LinkNamed link := links_named hmembers link (by rw [hlinks]; simp)
  have hrootDir : fs.IsDir root :=
    copies_isDir_root hroot hmembers (fun l hl => by rw [hlinks]; simp [hl]) hdone
  obtain ⟨parent, name, hdest, hparent, hname⟩ := hnamed.dest
  rw [copyNext_state]
  rw [hdest] at hplace
  obtain ⟨parts, hparts, rfl⟩ := linkPlace_some hplace
  have hvalid : ∀ c ∈ parts ++ [name], ValidName c := by
    intro c hc
    rcases List.mem_append.mp hc with hc | hc
    · exact (safeResolvePartsAtIn_resolved hrootDir hparent hparts).valid c hc
    · rw [List.mem_singleton.mp hc]
      exact hname
  -- the source is a name in a directory, and so is the place
  obtain ⟨srcParts, srcName, rfl⟩ := file_concat hrootDir hfile
  have hsrcName : ValidName srcName := by
    rw [← List.append_assoc] at hfile
    exact Fs.validName_of_get hfile
  -- a place in a directory is where the whole path resolves to, unless a link is seen there, and only
  -- the copy is left
  have hliteral : fs.IsDir (root ++ parts) →
      (∀ t, fs.get (root ++ (parts ++ [name])) = some (.symlink t) →
        R .lstat (root ++ (parts ++ [name])) = true) →
      copyHardlink R umask root link.1 link.2 fs =
        if R.Opens root srcParts ∧ R .lstat (root ++ (srcParts ++ [srcName])) = false then
          copyResolved R umask (root ++ srcParts) srcName root parts name fs
        else (.ok none, fs) := by
    intro hparentDir hlink
    refine copyHardlink_of_source hrootDir hnamed.source hsource hfile ?_
    rw [hdest]
    exact safeResolvePartsAtIn_concat hrootDir hparentDir hparts hname hlink
  have hother : root ++ srcParts ++ [srcName] ≠ root ++ (parts ++ [name]) := by
    rw [List.append_assoc]
    exact fun heq => hne (List.append_cancel_left heq)
  have happ : root ++ srcParts ++ [srcName] = root ++ (srcParts ++ [srcName]) :=
    List.append_assoc root srcParts [srcName]
  -- what is left alone is a copy already, or none
  have hsame : CopiedFaithfully fs fs (root ++ (parts ++ [name])) (root ++ (srcParts ++ [srcName])) ↔
      ∃ j data', fs.get (root ++ (parts ++ [name])) = some (.file j data') ∧
        data'.content = data.content := by
    constructor
    · intro hcopied
      obtain ⟨i', j, data₁, data₂, hbefore, hafter, heq⟩ := hcopied.copied
      rw [hfile, Option.some.injEq, Entry.file.injEq] at hbefore
      exact ⟨j, data₂, hafter, by rw [heq, hbefore.2]⟩
    · rintro ⟨j, data', hafter, heq⟩
      exact ⟨⟨i, j, data, data', hfile, hafter, heq⟩, fun _ _ => rfl⟩
  by_cases htakes : TakesFile R fs (root ++ (parts ++ [name]))
  · have hparentDir : fs.IsDir (root ++ parts) := by
      have h := htakes.parent
      rwa [← List.append_assoc, List.dropLast_concat] at h
    rw [and_iff_right htakes, hliteral hparentDir htakes.no_link]
    by_cases hseen : R.Opens root srcParts ∧ R .lstat (root ++ (srcParts ++ [srcName])) = false
    · rw [if_pos hseen]
      by_cases hclears : R.Opens root parts ∧ (fs.get (root ++ (parts ++ [name])) = none ∨
          R .unlink (root ++ (parts ++ [name])) = false)
      · -- the place is cleared, so all is up to the copy
        rw [← happ] at hfile
        rw [← happ, copyResolved_faithful_iff hvalid hsrcName hfile htakes hother hclears.1 hclears.2,
          happ]
        constructor
        · rintro ⟨hread, hcreate, hwrite⟩
          exact .inl ⟨by rw [List.dropLast_concat]; exact hseen.1, hseen.2, hread,
            by rw [List.dropLast_concat]; exact hclears.1, hclears.2, hcreate, hwrite⟩
        · rintro (hallowed | hleft)
          · exact ⟨hallowed.source_read, hallowed.created, hallowed.written⟩
          · exfalso
            obtain ⟨j, data', hheld, -⟩ := hleft.held
            refine hleft.stopped ⟨by rw [List.dropLast_concat]; exact hseen.1, hseen.2,
              by rw [List.dropLast_concat]; exact hclears.1, hclears.2.resolve_left ?_⟩
            rw [hheld]
            simp
      · -- the place is left alone
        have hkept : (copyResolved R umask (root ++ srcParts) srcName root parts name fs).2 = fs := by
          refine copyResolved_of_kept hvalid hparentDir ?_
          by_cases hopens : R.Opens root parts
          · right
            rw [List.append_assoc]
            rw [not_and, not_or] at hclears
            obtain ⟨hsome, hrefused⟩ := hclears hopens
            obtain ⟨e, he⟩ := Option.ne_none_iff_exists'.mp hsome
            exact ⟨e, he, .inr (by simpa using hrefused)⟩
          · exact .inl hopens
        rw [hkept, hsame]
        constructor
        · intro hheld
          refine .inr ⟨hheld, fun hall => hclears ?_⟩
          rw [List.dropLast_concat, List.dropLast_concat] at hall
          exact ⟨hall.2.2.1, .inr hall.2.2.2⟩
        · rintro (hallowed | hleft)
          · have hopens := hallowed.place_opens
            rw [List.dropLast_concat] at hopens
            exact absurd ⟨hopens, hallowed.unlinked⟩ hclears
          · exact hleft.held
    · -- the source is not seen
      rw [if_neg hseen]
      show CopiedFaithfully fs fs _ _ ↔ _
      rw [hsame]
      constructor
      · intro hheld
        refine .inr ⟨hheld, fun hall => hseen ?_⟩
        rw [List.dropLast_concat] at hall
        exact ⟨hall.1, hall.2.1⟩
      · rintro (hallowed | hleft)
        · have hopens := hallowed.source_opens
          rw [List.dropLast_concat] at hopens
          exact absurd ⟨hopens, hallowed.source_seen⟩ hseen
        · exact hleft.held
  -- a copy that is faithful stands in a directory, and in the place of neither a link nor a
  -- directory
  · refine ⟨fun hcopied => absurd ?_ htakes, fun h => absurd h.1 htakes⟩
    obtain ⟨j, j', data₁, data₂, -, hafter, -⟩ := hcopied.copied
    have hparentDir : fs.IsDir (root ++ parts) := by
      have hafterDir := hafter
      rw [← List.append_assoc] at hafterDir
      obtain ⟨m, hm⟩ := Fs.isDir_parent hafterDir
      refine ⟨m, ?_⟩
      rw [← hcopied.rest _ (by simp), hm]
    -- a link that is seen keeps its target through the whole call
    have hnolink : ∀ t, fs.get (root ++ (parts ++ [name])) = some (.symlink t) →
        R .lstat (root ++ (parts ++ [name])) = true := by
      intro t ht
      by_contra hseen
      rw [Bool.not_eq_true] at hseen
      have hstays : LinkAt root (parts ++ [name]) t (copyHardlink R umask root link.1 link.2 fs).2 :=
        (copyHardlink_through_link hseen hnamed.dest_noSlash hnamed.source).final ⟨hrootDir, ht⟩
          (fun _ _ h => h.1) fun _ h => h
      have hlink := hstays.2
      rw [hafter] at hlink
      cases hlink
    refine ⟨?_, ?_, hnolink⟩
    · rw [← List.append_assoc, List.dropLast_concat]
      exact hparentDir
    -- a directory is never unlinked
    · rintro ⟨m, hm⟩
      have hkept : (copyResolved R umask (root ++ srcParts) srcName root parts name fs).2 = fs :=
        copyResolved_of_kept hvalid hparentDir
          (.inr ⟨.dir m, by rw [List.append_assoc]; exact hm, .inl rfl⟩)
      have hstill : (copyHardlink R umask root link.1 link.2 fs).2 = fs := by
        rw [hliteral hparentDir hnolink]
        split
        · exact hkept
        · rfl
      rw [hstill, hm] at hafter
      cases hafter

/-! ### A file, and a link to it -/

def linkRoot : Path := ["r".toList]

/-- A rootfs with a file `s` and something under `p`. -/
def lowerWith (entry : Entry) : Fs :=
  Fs.ofList [(linkRoot, .dir 0o755), (linkRoot ++ ["s".toList], .file 0 ⟨[104, 105], 0o644, 0⟩),
    (linkRoot ++ ["p".toList], entry)]

def hardLink : Member := ⟨"p".toList, .lnk "s".toList, 0o644, 0⟩

/-- The member once it has been left for later. -/
def deferredLink : Path × Path := (["p".toList], ["s".toList])

/-- The hard link of the fixed archive is deferred, whatever stands at its place. -/
theorem hardLink_deferred (entry : Entry) :
    Proc.thread (processMember 0o022 0 true linkRoot) [hardLink] .empty (lowerWith entry) =
      (.ok ⟨[deferredLink], []⟩, lowerWith entry) :=
  rfl

/-- Only the two ends of the link may be touched, and the one that gives way not be read. -/
def endsOnly : Refusals := fun call q =>
  q != linkRoot ++ ["s".toList] && (q != linkRoot ++ ["p".toList] || call == .read)

theorem hardlink_faithful_iff_overFile :
    CopiedFaithfully (lowerWith (.file 1 ⟨[], 0o600, 0⟩))
      (copyNext endsOnly 0o022 linkRoot deferredLink [] (lowerWith (.file 1 ⟨[], 0o600, 0⟩))).2
      (linkRoot ++ ["p".toList]) (linkRoot ++ ["s".toList]) := by
  have htakes : TakesFile endsOnly (lowerWith (.file 1 ⟨[], 0o600, 0⟩)) (linkRoot ++ ["p".toList]) := by
    refine ⟨⟨0o755, rfl⟩, ?_, ?_⟩
    · rintro ⟨m, hm⟩
      cases hm
    · intro t ht
      cases ht
  have hallowed : CopyAllowed endsOnly (lowerWith (.file 1 ⟨[], 0o600, 0⟩)) linkRoot ["s".toList]
      ["p".toList] ⟨[104, 105], 0o644, 0⟩ :=
    ⟨rfl, by decide, by decide, rfl, .inr (by decide), by decide, .inr (by decide)⟩
  exact (hardlink_faithful_iff 0o022 0 true linkRoot (lowerWith (.file 1 ⟨[], 0o600, 0⟩)) [hardLink]
    ⟨[deferredLink], []⟩ (lowerWith (.file 1 ⟨[], 0o600, 0⟩)) [] [] deferredLink []
    (lowerWith (.file 1 ⟨[], 0o600, 0⟩)) ["s".toList] ["p".toList] 0 ⟨[104, 105], 0o644, 0⟩
    endsOnly endsOnly ⟨0o755, rfl⟩ (hardLink_deferred _) rfl rfl rfl rfl rfl (by decide)).mpr
    ⟨htakes, .inl hallowed⟩

/-- **A hard link over a symbolic link to its source loses the file.** The lower tree has `p` as
a link to `s`; the member makes `p` a hard link to `s`. The link stays, and `s` is gone. And over a
file, where `s` may not be read, the file that gives way is gone. -/
theorem hardlink_loses_source :
    (lowerWith (.symlink "s".toList)).shape (linkRoot ++ ["s".toList]) =
        some (.file [104, 105] 0o644) ∧
      linkPlace noRefusals (lowerWith (.symlink "s".toList)) linkRoot deferredLink.1 =
        some ["p".toList] ∧
      safeResolvePartsAt (lowerWith (.symlink "s".toList)) linkRoot deferredLink.2 =
        some ["s".toList] ∧
      (applyLayer noRefusals 0o022 linkRoot [hardLink] (lowerWith (.symlink "s".toList))).1 =
        .ok [linkRoot ++ ["s".toList]] ∧
      (applyLayer noRefusals 0o022 linkRoot [hardLink] (lowerWith (.symlink "s".toList))).2.get
        (linkRoot ++ ["s".toList]) = none ∧
      (applyLayer noRefusals 0o022 linkRoot [hardLink] (lowerWith (.symlink "s".toList))).2.get
        (linkRoot ++ ["p".toList]) = some (.symlink "s".toList) ∧
      ¬ CopiedFaithfully (lowerWith (.symlink "s".toList))
        (copyNext noRefusals 0o022 linkRoot deferredLink [] (lowerWith (.symlink "s".toList))).2
        (linkRoot ++ ["p".toList]) (linkRoot ++ ["s".toList]) ∧
      (applyLayer (fun call q => call == .read && q == linkRoot ++ ["s".toList]) 0o022 linkRoot
        [hardLink] (lowerWith (.file 1 ⟨[], 0o600, 0⟩))).2.get (linkRoot ++ ["p".toList]) = none := by
  refine ⟨by decide, by decide, by decide, by decide +kernel, by decide +kernel, by decide +kernel,
    fun hcopied => ?_, by decide +kernel⟩
  have hgone : (copyNext noRefusals 0o022 linkRoot deferredLink [] (lowerWith (.symlink "s".toList))).2.get
      (linkRoot ++ ["s".toList]) = none := by
    decide +kernel
  have hsame := hcopied.rest (linkRoot ++ ["s".toList]) (by decide)
  rw [hgone] at hsame
  exact absurd hsame (by decide)

end Stream

end TarExtract

end ProotDistro
