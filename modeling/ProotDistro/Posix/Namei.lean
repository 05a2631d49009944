import ProotDistro.Lib.Walk
import ProotDistro.Posix.Fs

/-!
# Multi-component lookups

A path handed to a system call is resolved by the kernel: every component but the last is
followed through symbolic links, an absolute target restarts at the host's root and `..`
climbs as far as the host's root. Nothing about this walk is confined to a subtree, which
is what a program that composes paths has to reckon with.

`lstatPath_eq_get` is the one fact a careful caller needs: where no level of the path is a
link, the lookup is the entry at that very path.
-/

namespace Posix

/-- A path string cut at its slashes. -/
def splitPath (path : List Char) : Path := path.splitOn '/'

namespace Fs

def nameiStep (fs : Fs) (cur : Path) (comp : Name) : Walk.Step Path Name Errno :=
  if comp = [] ∨ comp = ['.'] then .next cur
  else if comp = ['.', '.'] then .next cur.dropLast
  else
    match fs.get (cur ++ [comp]) with
    | some (.dir _) => .next (cur ++ [comp])
    | some (.symlink target) =>
      .link (if target.head? = some '/' then [] else cur) (splitPath target)
    | some (.file _ _) => .fail .ENOTDIR
    | none => .fail .ENOENT

/-- The directory a path leads to, every link on the way followed. -/
def namei (fs : Fs) (d : Path) (comps : List Name) : Except Errno Path :=
  Walk.run fs.nameiStep .ELOOP 40 d comps

/-- `lstat` on a path below the descriptor `d`: the last component is not followed. -/
def lstatPath (fs : Fs) (d : Path) (comps : List Name) : Except Errno Entry :=
  match comps.getLast? with
  | none => .error .ENOENT
  | some name =>
    match fs.namei d comps.dropLast with
    | .ok dir => fs.lstatAt dir name
    | .error e => .error e

/-- `readlink` on a path below the descriptor `d`. -/
def readlinkPath (fs : Fs) (d : Path) (comps : List Name) : Except Errno (List Char) :=
  match fs.lstatPath d comps with
  | .ok (.symlink target) => .ok target
  | .ok _ => .error .EINVAL
  | .error e => .error e

/-! ## A path without links -/

/-- Below `d`, no entry on the way down `comps` is a symbolic link. -/
def NoLinkOn (fs : Fs) (d : Path) (comps : List Name) : Prop :=
  ∀ r t, r <+: comps → r ≠ [] → fs.get (d ++ r) ≠ some (.symlink t)

/-- There is no link on the empty path. -/
theorem NoLinkOn.nil (fs : Fs) (d : Path) : fs.NoLinkOn d [] := by
  intro r t hr hne
  exact absurd (List.prefix_nil.mp hr) hne

theorem NoLinkOn.mono {fs : Fs} {d : Path} {comps comps' : List Name}
    (h : fs.NoLinkOn d comps) (hp : comps' <+: comps) : fs.NoLinkOn d comps' :=
  fun r t hr hne => h r t (hr.trans hp) hne

/-- Nor on one that goes on to what is no link. -/
theorem NoLinkOn.append_singleton {fs : Fs} {d : Path} {comps : List Name} {c : Name}
    (h : fs.NoLinkOn d comps) (hc : ∀ t, fs.get (d ++ (comps ++ [c])) ≠ some (.symlink t)) :
    fs.NoLinkOn d (comps ++ [c]) := by
  intro r t hr hne
  rcases List.prefix_concat_iff.mp hr with rfl | hr'
  · exact hc t
  · exact h r t hr' hne

/-- What a lookup does with a plain name. -/
theorem nameiStep_valid (fs : Fs) (cur : Path) {c : Name} (hc : ValidName c) :
    fs.nameiStep cur c =
      match fs.get (cur ++ [c]) with
      | some (.dir _) => .next (cur ++ [c])
      | some (.symlink target) =>
        .link (if target.head? = some '/' then [] else cur) (splitPath target)
      | some (.file _ _) => .fail .ENOTDIR
      | none => .fail .ENOENT := by
  unfold nameiStep
  rw [if_neg (by simp [hc.nonempty, hc.not_dot]), if_neg hc.not_dotdot]

/-- Down a path without links the kernel arrives at that very path, when all of it are
directories, and nowhere otherwise. -/
theorem namei_of_noLink {fs : Fs} {d : Path} {comps : List Name}
    (hv : ∀ c ∈ comps, ValidName c) (hlink : fs.NoLinkOn d comps) (hd : fs.IsDir d) :
    (fs.IsDir (d ++ comps) → fs.namei d comps = .ok (d ++ comps)) ∧
      (¬ fs.IsDir (d ++ comps) → ∃ e, fs.namei d comps = .error e) := by
  unfold namei
  induction comps generalizing d with
  | nil => simp [hd]
  | cons c rest ih =>
    have hc : ValidName c := hv c (by simp)
    have hstep := nameiStep_valid fs d hc
    have hlinkc : ∀ t, fs.get (d ++ [c]) ≠ some (.symlink t) := fun t =>
      hlink [c] t ⟨rest, rfl⟩ (by simp)
    have happ : d ++ c :: rest = d ++ [c] ++ rest := by simp
    cases hg : fs.get (d ++ [c]) with
    | none =>
      rw [hg] at hstep
      refine ⟨fun hdir => ?_, fun _ => ⟨.ENOENT, Walk.run_cons_fail hstep⟩⟩
      obtain ⟨m, hm⟩ := hdir
      rw [happ] at hm
      by_cases hr : rest = []
      · rw [hr, List.append_nil, hg] at hm; cases hm
      · obtain ⟨m', hm'⟩ := isDir_of_append hr hm
        rw [hg] at hm'; cases hm'
    | some e =>
      rw [hg] at hstep
      cases e with
      | symlink t => exact absurd hg (hlinkc t)
      | file i data =>
        refine ⟨fun hdir => ?_, fun _ => ⟨.ENOTDIR, Walk.run_cons_fail hstep⟩⟩
        obtain ⟨m, hm⟩ := hdir
        rw [happ] at hm
        by_cases hr : rest = []
        · rw [hr, List.append_nil, hg] at hm; cases hm
        · obtain ⟨m', hm'⟩ := isDir_of_append hr hm
          rw [hg] at hm'; cases hm'
      | dir m =>
        have hrest : fs.NoLinkOn (d ++ [c]) rest := by
          intro r t hr hne
          rw [List.append_assoc, List.singleton_append]
          exact hlink (c :: r) t (List.cons_prefix_cons.mpr ⟨rfl, hr⟩) (by simp)
        have := ih (fun x hx => hv x (by simp [hx])) hrest ⟨m, hg⟩
        rw [Walk.run_cons_next hstep, happ]
        exact this

/-- Where no level above the last is a link, `lstat` answers for the entry at the path. -/
theorem lstatPath_eq_get {fs : Fs} {d : Path} {comps : List Name} {c : Name}
    (hv : ∀ c ∈ comps, ValidName c) (hc : ValidName c) (hlink : fs.NoLinkOn d comps)
    (hd : fs.IsDir d) :
    (fs.lstatPath d (comps ++ [c])).toOption = fs.get (d ++ (comps ++ [c])) := by
  obtain ⟨hyes, hno⟩ := namei_of_noLink hv hlink hd
  unfold lstatPath
  rw [List.getLast?_concat, List.dropLast_concat]
  simp only
  by_cases hdir : fs.IsDir (d ++ comps)
  · rw [hyes hdir]
    show (fs.lstatAt (d ++ comps) c).toOption = _
    unfold lstatAt
    rw [locate_valid hc, ← List.append_assoc]
    cases fs.get (d ++ comps ++ [c]) <;> rfl
  · obtain ⟨e, he⟩ := hno hdir
    rw [he, ← List.append_assoc, get_append_eq_none (by simp) hdir]
    rfl

/-- A path that leads through a directory is resolved from there on. -/
theorem namei_append {fs : Fs} {d r comps : Path} (hv : ∀ c ∈ r, ValidName c)
    (hd : fs.IsDir (d ++ r)) : fs.namei d (r ++ comps) = fs.namei (d ++ r) comps := by
  unfold namei
  induction r generalizing d with
  | nil => simp
  | cons c r ih =>
    have happ : d ++ c :: r = d ++ [c] ++ r := by simp
    rw [happ] at hd ⊢
    have hc : fs.IsDir (d ++ [c]) := hd.of_append
    obtain ⟨m, hm⟩ := hc
    have hstep := nameiStep_valid fs d (hv c (by simp))
    rw [hm] at hstep
    rw [List.cons_append, Walk.run_cons_next hstep]
    exact ih (fun x hx => hv x (by simp [hx])) hd

/-- What is looked up below a directory is looked up by the directory's own path. -/
theorem lstatPath_append {fs : Fs} {d r comps : Path} (hv : ∀ c ∈ r, ValidName c)
    (hd : fs.IsDir (d ++ r)) (hne : comps ≠ []) :
    fs.lstatPath d (r ++ comps) = fs.lstatPath (d ++ r) comps := by
  unfold lstatPath
  rw [List.getLast?_append_of_ne_nil r hne, List.dropLast_append_of_ne_nil hne, namei_append hv hd]

/-- What stands at a path is found there from the host's root: the way down to it is one of
directories. -/
theorem lstatPath_of_get {fs : Fs} {p : Path} {c : Name} {e : Entry}
    (h : fs.get (p ++ [c]) = some e) : fs.lstatPath [] (p ++ [c]) = .ok e := by
  obtain ⟨m, hm⟩ := isDir_parent h
  have hv : ∀ x ∈ p, ValidName x := validName_of_get_append (p := []) (r := p) hm
  have hdir : fs.IsDir ([] ++ p) := ⟨m, hm⟩
  rw [lstatPath_append hv hdir (by simp)]
  unfold lstatPath namei lstatAt
  simp [locate_valid (validName_of_get h), h]

/-- A link is read exactly where one stands. -/
theorem readlinkPath_eq_ok {fs : Fs} {d : Path} {comps : List Name} {target : List Char} :
    fs.readlinkPath d comps = .ok target ↔ fs.lstatPath d comps = .ok (.symlink target) := by
  unfold readlinkPath
  split
  · rename_i h; rw [h]; simp
  · rename_i e hne h
    rw [h]
    simp only [reduceCtorEq, Except.ok.injEq, false_iff]
    rintro rfl
    exact hne target rfl
  · rename_i h; rw [h]; simp

end Fs

end Posix
