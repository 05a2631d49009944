import ProotDistro.BuildEngine.CopyStep
import ProotDistro.BuildEngine.Dockerignore

/-!
# `copy_step`: a directory of the build context

A COPY of a directory records what is below it, one entry a name, by a walk that goes down the
directories and leaves out every name that is ignored, a directory with all that is below it. What
stands at the end of such a walk is compared with the rule the patterns are written in, where the
last pattern that matches a path decides for that path.

Each look of the walk may be refused, and what may not be looked at is passed over (`Refusals`); so
are devices, pipes and sockets, which a file system here has no entry for (`DirWalk.special` says
which entries are one). Owners are left out, and so are the times of links; the walk's descriptors
are its paths, and it is not short of them.

* **`mem_walkWithin`** — the walk records what it reaches and can hold, where no name on the way to
  it is ignored.
* **`recorded_iff`** — so does a COPY, whose source must not be ignored either.
* **`copy_follows_rule_iff`** — a COPY records what the rule does not leave out if and only if
  nothing that is not left out stands below something that is, or is out of the walk's reach.
-/

namespace ProotDistro

open Posix Dirfd TarExtract LayerDiff Dockerignore

namespace CopyStep

/-! ## The source -/

def stripFront (s : Str) : Str := s.dropWhile (· = '/')

def stripEnd (s : Str) : Str := s.rdropWhile (· = '/')

/-- `_spec_parts` -/
def specParts (src : Str) : Option Path :=
  let parts := (splitPath (stripFront src)).filter fun p => p ≠ [] ∧ p ≠ ['.']
  if ['.', '.'] ∈ parts then none else some parts

/-- `_SourceTree.resolve` -/
def resolveSource (R : Refusals) (fs : Fs) (root : Path) (parts : List Name) : Option Path :=
  if parts = [] then some []
  else (safeResolvePartsIn R fs root parts.dropLast).map (· ++ [parts.getLastD []])

/-- `_SourceTree.opendir`: the root, and the levels below it one off the other. -/
def openSourceDir (R : Refusals) (fs : Fs) (root parts : Path) : Option Path :=
  if R .opendir root then none
  else fs.openDirsIn R root parts

/-- `_SourceTree.lstat` -/
def lstatSource (R : Refusals) (fs : Fs) (root parts : Path) : Option Entry :=
  if parts = [] then if R .lstat root then none else fs.get root
  else (openSourceDir R fs root parts.dropLast).bind fun fd =>
    (fs.lstatIn R fd (parts.getLastD [])).toOption

/-- `_rel_name` -/
def relName (parts : Path) : Str := if parts = [] then ['.'] else joinPath parts

/-! ## The walk -/

/-- `_make_subpath` -/
def makeSubpath (dest rel name : Str) : Str :=
  let parts := [stripEnd dest] ++ (if rel ≠ [] ∧ rel ≠ ['.'] then [rel] else []) ++
    (if name ≠ [] then [name] else [])
  ['/'].intercalate (parts.map stripSlashes)

/-- The name below the context of what the walk meets. -/
def combined (srcRel : Str) (child : Path) : Str :=
  if srcRel ≠ [] ∧ srcRel ≠ ['.'] then srcRel ++ '/' :: joinPath child else joinPath child

/-- What the walk is given: the tree and the directory in it, the mode that replaces the entries'
own, and what it leaves out; and what it may not look at, and which entries are special ones. -/
structure DirWalk where
  root : Path
  parts : Path
  modeOverride : Option Mode
  srcRel : Str
  patterns : List Str
  refuses : Refusals
  special : Path → Bool

/-- What is recorded of an entry. -/
def DirWalk.record (w : DirWalk) (child : Path) : Entry → MapEntry
  | .symlink target => .symlink target (some 0o777) 0
  | .dir mode => .dir (some (w.modeOverride.getD mode)) 0
  | .file _ data => .file w.root (w.parts ++ child) (some (w.modeOverride.getD data.mode))

/-- Of these an entry is recorded: not of a device, and of a link only where it may be read. -/
def DirWalk.holds (w : DirWalk) (q : Path) : Entry → Bool
  | .symlink _ => !w.refuses .readlink q
  | .dir _ => true
  | .file _ _ => !w.special q

/-- The walk below the directory `fd`, to a depth of `fuel` directories. -/
def walkWithin (fs : Fs) (w : DirWalk) : Nat → Path → Path → List (Path × MapEntry)
  | 0, _, _ => []
  | fuel + 1, fd, relParts =>
    (fs.listdirIn w.refuses fd).reverse.flatMap fun name =>
      match fs.lstatIn w.refuses fd name with
      | .error _ => []
      | .ok entry =>
        let child := relParts ++ [name]
        if isIgnored (combined w.srcRel child) w.patterns then []
        else
          (if w.holds (fd ++ [name]) entry then [(child, w.record child entry)] else []) ++
            match entry with
            | .dir _ =>
              match fs.openDirIn w.refuses fd name with
              | .error _ => []
              | .ok sub => walkWithin fs w fuel sub child
            | .file _ _ | .symlink _ => []

/-- Where an entry goes. -/
def arcname (dest : Str) (child : Path) : Str :=
  let dest := if dest.getLast? = some '/' then dest else dest ++ ['/']
  stripFront (makeSubpath dest (joinPath child.dropLast) (child.getLastD []))

/-- `_add_directory_tree` -/
def addDirectoryTree (fs : Fs) (w : DirWalk) (dest : Str) (fileMap : FileMap) : FileMap :=
  match openSourceDir w.refuses fs w.root w.parts with
  | none => fileMap
  | some fd =>
    Dict.update fileMap ((walkWithin fs w (depth fs + 1) fd []).map fun x => (arcname dest x.1, x.2))

/-- A COPY of a directory of the context: where the context is, what the instruction and the ignore
file say, and what the system makes of the looks. -/
structure CopyDir where
  buildDir : Path
  modeOverride : Option Mode
  patterns : List Str
  refuses : Refusals
  special : Path → Bool

/-- The walk of the directory `parts`. -/
def CopyDir.walk (c : CopyDir) (parts : Path) : DirWalk :=
  ⟨c.buildDir, parts, c.modeOverride, relName parts, c.patterns, c.refuses, c.special⟩

/-- The directory a source names. -/
def CopyDir.source (c : CopyDir) (fs : Fs) (src : Str) : Option Path :=
  (specParts src).bind (resolveSource c.refuses fs c.buildDir)

/-- `_copy_from_context` of a directory; `none` for any other source. -/
def copyDirectory (c : CopyDir) (fs : Fs) (src dest : Str) (fileMap : FileMap) : Option FileMap :=
  match c.source fs src with
  | none => none
  | some parts =>
    match lstatSource c.refuses fs c.buildDir parts with
    | some (.dir _) =>
      some (if isIgnored (relName parts) c.patterns then fileMap
        else addDirectoryTree fs (c.walk parts) dest fileMap)
    | _ => none

/-! ## What the walk records -/

/-- No name on the way down to `r` is ignored. -/
def DirWalk.Keeps (w : DirWalk) (relParts r : Path) : Prop :=
  ∀ q, q ≠ [] → q <+: r → isIgnored (combined w.srcRel (relParts ++ q)) w.patterns = false

section Walks

variable {fs : Fs} {w : DirWalk} {d relParts child r : Path} {name : Name} {entry : MapEntry}

/-- A path is kept when its first name is and the rest is below it. -/
theorem DirWalk.keeps_cons :
    w.Keeps relParts (name :: r) ↔
      isIgnored (combined w.srcRel (relParts ++ [name])) w.patterns = false ∧
        w.Keeps (relParts ++ [name]) r := by
  constructor
  · intro h
    refine ⟨h [name] (by simp) (List.prefix_append [name] r), ?_⟩
    intro q _ hpre
    have hcons := h (name :: q) (by simp) (List.cons_prefix_cons.mpr ⟨rfl, hpre⟩)
    rwa [List.append_assoc]
  · rintro ⟨hname, hrest⟩ q hne hpre
    obtain ⟨c, q, rfl⟩ := List.exists_cons_of_ne_nil hne
    rw [List.cons_prefix_cons] at hpre
    rw [hpre.1]
    by_cases hq : q = []
    · rw [hq]
      exact hname
    · have hdeep := hrest q hq hpre.2
      rwa [List.append_assoc] at hdeep

/-- One level of the walk: a name that is seen and not ignored, and what is below it if it is a
directory that may be opened. -/
theorem mem_walkWithin_succ {fuel : Nat} :
    (child, entry) ∈ walkWithin fs w (fuel + 1) d relParts ↔
      ∃ name e, fs.get (d ++ [name]) = some e ∧ w.refuses .listdir d = false ∧
        w.refuses .lstat (d ++ [name]) = false ∧
        isIgnored (combined w.srcRel (relParts ++ [name])) w.patterns = false ∧
        (child = relParts ++ [name] ∧ w.holds (d ++ [name]) e = true ∧ entry = w.record child e ∨
          e.isDir = true ∧ w.refuses .opendir (d ++ [name]) = false ∧
            (child, entry) ∈ walkWithin fs w fuel (d ++ [name]) (relParts ++ [name])) := by
  rw [walkWithin, List.mem_flatMap]
  apply exists_congr
  intro name
  rw [List.mem_reverse, Fs.mem_listdirIn]
  cases hget : fs.get (d ++ [name]) with
  | none => simp
  | some e =>
    rw [Fs.lstatIn_of_get hget]
    cases hlstat : w.refuses .lstat (d ++ [name]) with
    | true => simp
    | false =>
      rw [if_neg (by simp)]
      dsimp only
      cases hign : isIgnored (combined w.srcRel (relParts ++ [name])) w.patterns with
      | true => simp
      | false =>
        rw [if_neg (by simp), List.mem_append]
        -- the entry itself
        have hrecord : (child, entry) ∈ (if w.holds (d ++ [name]) e = true then
              [(relParts ++ [name], w.record (relParts ++ [name]) e)] else []) ↔
            child = relParts ++ [name] ∧ w.holds (d ++ [name]) e = true ∧
              entry = w.record child e := by
          cases w.holds (d ++ [name]) e with
          | false => simp
          | true =>
            rw [if_pos rfl, List.mem_singleton, Prod.mk.injEq]
            constructor
            · rintro ⟨rfl, rfl⟩
              exact ⟨rfl, rfl, rfl⟩
            · rintro ⟨rfl, -, rfl⟩
              exact ⟨rfl, rfl⟩
        rw [hrecord]
        -- and what is below it
        cases e with
        | file i data => simp [Entry.isDir]
        | symlink t => simp [Entry.isDir]
        | dir mode =>
          rw [Fs.openDirIn_of_isDir ⟨mode, hget⟩]
          cases w.refuses .opendir (d ++ [name]) <;> simp [Entry.isDir]

/-- **What the walk records**: what it reaches below the directory and can hold, where no name on the
way to it is ignored. -/
theorem mem_walkWithin {fuel : Nat} :
    (child, entry) ∈ walkWithin fs w fuel d relParts ↔
      ∃ r e, r ≠ [] ∧ r.length ≤ fuel ∧ fs.get (d ++ r) = some e ∧ w.refuses.reaches d r = true ∧
        w.holds (d ++ r) e = true ∧ child = relParts ++ r ∧ entry = w.record child e ∧
        w.Keeps relParts r := by
  induction fuel generalizing d relParts with
  | zero =>
    simp only [walkWithin, List.not_mem_nil, Nat.le_zero_eq, List.length_eq_zero_iff, false_iff]
    rintro ⟨r, e, hne, hr, -⟩
    exact hne hr
  | succ fuel ih =>
    rw [mem_walkWithin_succ]
    constructor
    · rintro ⟨name, e, hget, hlist, hlstat, hign, ⟨hchild, hholds, hentry⟩ | ⟨-, hopen, hmem⟩⟩
      · refine ⟨[name], e, by simp, by simp, hget,
          Refusals.reaches_singleton.mpr ⟨hlist, hlstat⟩, hholds, hchild, hentry, ?_⟩
        rw [DirWalk.keeps_cons]
        refine ⟨hign, fun q hne hpre => absurd (List.prefix_nil.mp hpre) hne⟩
      · obtain ⟨r, e', hne, hlen, hget', hreach, hholds, hchild, hentry, hkeep⟩ := ih.mp hmem
        refine ⟨name :: r, e', by simp, by simpa using hlen, by simpa using hget',
          (Refusals.reaches_cons hne).mpr ⟨hlist, hlstat, hopen, hreach⟩, by simpa using hholds, ?_,
          hentry, DirWalk.keeps_cons.mpr ⟨hign, hkeep⟩⟩
        rw [hchild, List.append_assoc]
        rfl
    · rintro ⟨r, e, hne, hlen, hget, hreach, hholds, hchild, hentry, hkeep⟩
      obtain ⟨name, r, rfl⟩ := List.exists_cons_of_ne_nil hne
      obtain ⟨hign, hrest⟩ := DirWalk.keeps_cons.mp hkeep
      have happ : d ++ name :: r = d ++ [name] ++ r := by simp
      by_cases hr : r = []
      · rw [hr] at hget hchild hholds hreach
        obtain ⟨hlist, hlstat⟩ := Refusals.reaches_singleton.mp hreach
        exact ⟨name, e, hget, hlist, hlstat, hign, .inl ⟨hchild, hholds, hentry⟩⟩
      · rw [happ] at hget hholds
        obtain ⟨hlist, hlstat, hopen, hbelow⟩ := (Refusals.reaches_cons hr).mp hreach
        obtain ⟨mode, hmode⟩ := Fs.isDir_of_append hr hget
        have hchild' : child = relParts ++ [name] ++ r := by
          rw [hchild, List.append_assoc]
          rfl
        have hlen' : r.length ≤ fuel := by
          rw [List.length_cons] at hlen
          omega
        exact ⟨name, .dir mode, hmode, hlist, hlstat, hign, .inr ⟨rfl, hopen,
          ih.mpr ⟨r, e, hr, hlen', hget, hbelow, hholds, hchild', hentry, hrest⟩⟩⟩

end Walks

/-! ## Names -/

section Names

variable {parts p q r : Path} {dest : Str}

/-- The text of a path has no slash at either end. -/
theorem stripSlashes_joinPath (hne : p ≠ []) (hv : ∀ c ∈ p, ValidName c) :
    stripSlashes (joinPath p) = joinPath p := by
  unfold stripSlashes
  rw [(joinPath_ends hne hv).1, (joinPath_ends hne hv).2]

theorem joinPath_ne_dot (hne : p ≠ []) (hv : ∀ c ∈ p, ValidName c) : joinPath p ≠ ['.'] := by
  intro hdot
  have hp : p = [['.']] := by
    refine joinPath_inj hne (by simp) (fun c hc => (hv c hc).no_slash) ?_ hdot
    intro c hc
    rw [List.mem_singleton.mp hc]
    show '/' ∉ ['.']
    decide
  exact (hv ['.'] (by rw [hp]; exact List.mem_singleton_self _)).not_dot rfl

/-- Two paths are joined by a slash. -/
theorem joinPath_join (hp : p ≠ []) (hq : q ≠ []) :
    joinPath p ++ '/' :: joinPath q = joinPath (p ++ q) := by
  rw [joinPath_append p hq, ← joinPath_slash hp, List.append_assoc]
  rfl

/-- The name below the context of what is below the source. -/
theorem combined_relName (hv : ∀ c ∈ parts, ValidName c) (hq : q ≠ []) :
    combined (relName parts) q = joinPath (parts ++ q) := by
  unfold combined relName
  by_cases hp : parts = []
  · rw [if_pos hp, if_neg (by simp), hp, List.nil_append]
  · rw [if_neg hp, if_pos ⟨joinPath_ne_nil hp hv, joinPath_ne_dot hp hv⟩]
    exact joinPath_join hp hq

/-- What stands in front of the names in a destination. -/
def destPrefix (dest : Str) : Str :=
  if stripSlashes dest = [] then [] else stripSlashes dest ++ ['/']

/-- A slash at the end does not count. -/
theorem stripSlashes_concat (s : Str) : stripSlashes (s ++ ['/']) = stripSlashes s := by
  unfold stripSlashes
  rw [List.dropWhile_append]
  split
  · rename_i hempty
    rw [List.isEmpty_iff.mp hempty]
    rfl
  · rw [List.rdropWhile_concat_pos _ _ _ (by simp)]

theorem stripSlashes_stripEnd (s : Str) : stripSlashes (stripEnd s) = stripSlashes s := by
  induction s using List.reverseRecOn with
  | nil => rfl
  | append_singleton s c ih =>
    by_cases hc : c = '/'
    · have hend : stripEnd (s ++ ['/']) = stripEnd s :=
        List.rdropWhile_concat_pos _ _ _ (by simp)
      rw [hc, hend, ih, stripSlashes_concat]
    · have hend : stripEnd (s ++ [c]) = s ++ [c] :=
        List.rdropWhile_concat_neg _ _ _ (by simpa using hc)
      rw [hend]

/-- So the destination with its slash is the destination. -/
theorem stripSlashes_destination (dest : Str) :
    stripSlashes (stripEnd (if dest.getLast? = some '/' then dest else dest ++ ['/'])) =
      stripSlashes dest := by
  rw [stripSlashes_stripEnd]
  split
  · rfl
  · exact stripSlashes_concat dest

/-- A text without slashes at its ends stands in front of a path as it is. -/
theorem stripFront_destination (hne : r ≠ []) (hv : ∀ c ∈ r, ValidName c) :
    stripFront (stripSlashes dest ++ '/' :: joinPath r) = destPrefix dest ++ joinPath r := by
  unfold destPrefix
  cases hdest : stripSlashes dest with
  | nil =>
    rw [if_pos rfl, List.nil_append, List.nil_append]
    unfold stripFront
    rw [List.dropWhile_cons_of_pos (by simp), (joinPath_ends hne hv).1]
  | cons y rest =>
    -- what is left of the destination is the front of a text that begins with no slash
    have hpre : y :: rest <+: dest.dropWhile (· = '/') := by
      rw [← hdest]
      exact List.rdropWhile_prefix _ _
    obtain ⟨t, ht⟩ := hpre
    have hhead := List.head?_dropWhile_not (· = '/') dest
    rw [← ht] at hhead
    have hy : y ≠ '/' := by simpa using hhead
    rw [if_neg (by simp), List.append_assoc]
    unfold stripFront
    rw [List.cons_append, List.dropWhile_cons_of_neg (by simpa using hy)]
    rfl

/-- The path of a member below the destination. -/
theorem makeSubpath_joinPath {x : Name} (hv : ∀ c ∈ p ++ [x], ValidName c) :
    makeSubpath dest (joinPath p) x =
      stripSlashes (stripEnd dest) ++ '/' :: joinPath (p ++ [x]) := by
  have hxv : ∀ c ∈ [x], ValidName c := fun c hc => hv c (by simp [List.mem_singleton.mp hc])
  have hx : stripSlashes x = x := by
    have hone := stripSlashes_joinPath (List.cons_ne_nil x []) hxv
    rwa [show joinPath [x] = x by simp [joinPath]] at hone
  unfold makeSubpath
  dsimp only
  rw [if_pos (show x ≠ [] from (hv x (by simp)).nonempty)]
  by_cases hp : p = []
  · rw [hp, joinPath_nil, if_neg (by simp)]
    simp [joinPath, List.intercalate, List.intersperse, hx]
  · have hpv : ∀ c ∈ p, ValidName c := fun c hc => hv c (by simp [hc])
    have hpath : joinPath (p ++ [x]) = joinPath p ++ '/' :: x := by
      rw [← joinPath_join hp (List.cons_ne_nil x [])]
      simp [joinPath]
    rw [if_pos ⟨joinPath_ne_nil hp hpv, joinPath_ne_dot hp hpv⟩, hpath]
    simp [List.intercalate, List.intersperse, stripSlashes_joinPath hp hpv, hx]

/-- **Where an entry goes**: below the destination, under its own path. -/
theorem arcname_eq (hne : r ≠ []) (hv : ∀ c ∈ r, ValidName c) :
    arcname dest r = destPrefix dest ++ joinPath r := by
  rw [← stripFront_destination hne hv]
  obtain ⟨p, x, rfl⟩ := (List.eq_nil_or_concat' r).resolve_left hne
  unfold arcname
  dsimp only
  rw [List.dropLast_concat, List.getLastD_concat, makeSubpath_joinPath hv,
    stripSlashes_destination]

/-- Two entries below a directory do not go to one name. -/
theorem arcname_inj (hp : p ≠ []) (hq : q ≠ []) (hpv : ∀ c ∈ p, ValidName c)
    (hqv : ∀ c ∈ q, ValidName c) (h : arcname dest p = arcname dest q) : p = q := by
  rw [arcname_eq hp hpv, arcname_eq hq hqv] at h
  exact joinPath_inj hp hq (fun c hc => (hpv c hc).no_slash) (fun c hc => (hqv c hc).no_slash)
    (List.append_cancel_left h)

end Names

/-! ## The directory a source names -/

section Sources

variable {fs : Fs} {d root fd parts : Path} {src : Str} {e : Entry}

/-- A directory below the root is opened under its own path, or refused. -/
theorem openSourceDir_eq {R : Refusals} (hv : ∀ c ∈ parts, ValidName c)
    (h : openSourceDir R fs root parts = some fd) : fd = root ++ parts := by
  unfold openSourceDir at h
  split at h
  · cases h
  · exact Fs.openDirsIn_eq hv h

/-- A directory that is there is opened where the root and every level on the way may be. -/
theorem openSourceDir_isSome {R : Refusals} (hdir : fs.IsDir (root ++ parts)) :
    (openSourceDir R fs root parts).isSome ↔ R .opendir root = false ∧ R.Opens root parts := by
  unfold openSourceDir
  rw [Fs.openDirsIn_of_isDir hdir]
  cases R .opendir root with
  | true => simp
  | false => by_cases hopens : R.Opens root parts <;> simp [hopens]

/-- A source is read as ordinary names. -/
theorem CopyDir.source_valid {c : CopyDir} (h : c.source fs src = some parts) :
    ∀ x ∈ parts, ValidName x := by
  obtain ⟨spec, hspec, hres⟩ := Option.bind_eq_some_iff.mp h
  have hspecv : ∀ c ∈ spec, ValidName c := by
    unfold specParts at hspec
    dsimp only at hspec
    split at hspec
    · cases hspec
    · rename_i hdots
      cases hspec
      intro c hc
      have hfilter := List.mem_filter.mp hc
      rw [decide_eq_true_eq] at hfilter
      have hne : c ≠ ['.', '.'] := fun heq => hdots (heq ▸ hc)
      exact ⟨hfilter.2.1, hfilter.2.2, hne, Fs.noSlash_of_mem_splitPath hfilter.1⟩
  unfold resolveSource at hres
  split at hres
  · cases hres
    simp
  · rename_i hne
    obtain ⟨init, hinit, rfl⟩ := Option.map_eq_some_iff.mp hres
    have hslash : ∀ c ∈ spec.dropLast, Fs.NoSlash c := fun c hc =>
      (hspecv c (List.mem_of_mem_dropLast hc)).no_slash
    intro c hc
    rcases List.mem_append.mp hc with hc | hc
    · exact (safeResolvePartsIn_resolved hslash hinit).valid c hc
    · rw [List.mem_singleton.mp hc, List.getLastD_eq_getLast?, List.getLast?_eq_some_getLast hne]
      exact hspecv _ (List.getLast_mem hne)

/-- What is seen of a source is what stands at its path. -/
theorem lstatSource_eq {R : Refusals} (hv : ∀ c ∈ parts, ValidName c)
    (h : lstatSource R fs root parts = some e) : fs.get (root ++ parts) = some e := by
  unfold lstatSource at h
  split at h
  · rename_i hnil
    split at h
    · cases h
    · rwa [hnil, List.append_nil]
  · rename_i hne
    obtain ⟨fd, hfd, hstat⟩ := Option.bind_eq_some_iff.mp h
    obtain ⟨init, x, rfl⟩ := (List.eq_nil_or_concat' parts).resolve_left hne
    rw [List.dropLast_concat] at hfd
    rw [List.getLastD_concat] at hstat
    rw [openSourceDir_eq (fun c hc => hv c (by simp [hc])) hfd] at hstat
    unfold Fs.lstatIn Fs.lstatAt at hstat
    rw [Fs.locate_valid (hv x (by simp)), List.append_assoc] at hstat
    split at hstat
    · cases hstat
    · cases hget : fs.get (root ++ (init ++ [x])) with
      | none =>
        rw [hget] at hstat
        cases hstat
      | some e' =>
        rw [hget] at hstat
        exact hstat

end Sources

/-! ## What a COPY records -/

section Copies

variable {c : CopyDir} {fs : Fs} {parts : Path} {src dest arc : Str} {fileMap fileMap₀ : FileMap}
  {entry : MapEntry}

/-- The source may be opened, the context and each level on the way to it as well. -/
def CopyDir.MayOpen (c : CopyDir) (parts : Path) : Prop :=
  c.refuses .opendir c.buildDir = false ∧ c.refuses.Opens c.buildDir parts

/-- The walk of a COPY reaches what is at `r` below its source and can hold it. -/
def CopyDir.Sees (c : CopyDir) (parts r : Path) (e : Entry) : Prop :=
  c.refuses.reaches (c.buildDir ++ parts) r = true ∧
    (c.walk parts).holds (c.buildDir ++ parts ++ r) e = true

instance (c : CopyDir) (parts r : Path) (e : Entry) : Decidable (c.Sees parts r e) :=
  inferInstanceAs (Decidable (_ ∧ _))

/-- What the walk of a COPY meets, at the names it goes to. -/
theorem mem_addDirectoryTree (hv : ∀ x ∈ parts, ValidName x) :
    (arc, entry) ∈ (walkWithin fs (c.walk parts) (depth fs + 1) (c.buildDir ++ parts) []).map
        (fun x => (arcname dest x.1, x.2)) ↔
      ∃ r e, r ≠ [] ∧ fs.get (c.buildDir ++ parts ++ r) = some e ∧ c.Sees parts r e ∧
        arc = arcname dest r ∧ entry = (c.walk parts).record r e ∧
        ∀ q, q ≠ [] → q <+: r → isIgnored (joinPath (parts ++ q)) c.patterns = false := by
  have hkeeps : ∀ r, (c.walk parts).Keeps [] r ↔
      ∀ q, q ≠ [] → q <+: r → isIgnored (joinPath (parts ++ q)) c.patterns = false := by
    intro r
    unfold DirWalk.Keeps CopyDir.walk
    refine forall_congr' fun q => forall_congr' fun hq => ?_
    rw [List.nil_append, combined_relName hv hq]
  rw [List.mem_map]
  constructor
  · rintro ⟨⟨child, entry'⟩, hmem, heq⟩
    rw [Prod.mk.injEq] at heq
    obtain ⟨r, e, hne, -, hget, hreach, hholds, hchild, hentry, hkeep⟩ := mem_walkWithin.mp hmem
    rw [show child = r from hchild] at heq hentry
    exact ⟨r, e, hne, hget, ⟨hreach, hholds⟩, heq.1.symm, heq.2.symm.trans hentry,
      (hkeeps r).mp hkeep⟩
  · rintro ⟨r, e, hne, hget, ⟨hreach, hholds⟩, rfl, rfl, hkeep⟩
    have hlen : r.length ≤ depth fs + 1 := by
      have hdepth := length_le_depth hget
      rw [List.length_append] at hdepth
      omega
    exact ⟨(r, _), mem_walkWithin.mpr
      ⟨r, e, hne, hlen, hget, hreach, hholds, rfl, rfl, (hkeeps r).mpr hkeep⟩, rfl⟩

/-- The directory a COPY walks. -/
theorem copyDirectory_source (hparts : c.source fs src = some parts)
    (hcopy : copyDirectory c fs src dest fileMap₀ = some fileMap) :
    fs.IsDir (c.buildDir ++ parts) ∧
      fileMap = if isIgnored (relName parts) c.patterns then fileMap₀
        else addDirectoryTree fs (c.walk parts) dest fileMap₀ := by
  unfold copyDirectory at hcopy
  rw [hparts] at hcopy
  dsimp only at hcopy
  split at hcopy
  · rename_i mode hstat
    exact ⟨⟨mode, lstatSource_eq (CopyDir.source_valid hparts) hstat⟩, (Option.some.inj hcopy).symm⟩
  · cases hcopy

/-- **What a COPY of a directory records**: unless the source is ignored itself or may not be opened,
what its walk sees below it where no name on the way is ignored. -/
theorem recorded_iff (hparts : c.source fs src = some parts)
    (hcopy : copyDirectory c fs src dest [] = some fileMap) :
    Dict.get fileMap arc = some entry ↔
      isIgnored (relName parts) c.patterns = false ∧ c.MayOpen parts ∧
        ∃ r e, r ≠ [] ∧ fs.get (c.buildDir ++ parts ++ r) = some e ∧ c.Sees parts r e ∧
          arc = arcname dest r ∧ entry = (c.walk parts).record r e ∧
          ∀ q, q ≠ [] → q <+: r → isIgnored (joinPath (parts ++ q)) c.patterns = false := by
  have hv := CopyDir.source_valid hparts
  obtain ⟨hsrc, hmap⟩ := copyDirectory_source hparts hcopy
  cases hign : isIgnored (relName parts) c.patterns with
  | true =>
    rw [hign, if_pos rfl] at hmap
    rw [hmap, Dict.get_nil]
    simp
  | false =>
    rw [hign, if_neg (by simp)] at hmap
    unfold addDirectoryTree at hmap
    have hopens := openSourceDir_isSome (R := c.refuses) hsrc
    cases hfd : openSourceDir c.refuses fs c.buildDir parts with
    | none =>
      -- nothing is recorded of a source that may not be opened
      rw [hfd] at hopens
      rw [show openSourceDir (c.walk parts).refuses fs (c.walk parts).root (c.walk parts).parts =
        none from hfd] at hmap
      rw [show fileMap = [] from hmap, Dict.get_nil]
      exact ⟨fun h => (by cases h), fun h => absurd (hopens.mpr h.2.1) (by simp)⟩
    | some fd =>
      rw [hfd] at hopens
      rw [show openSourceDir (c.walk parts).refuses fs (c.walk parts).root (c.walk parts).parts =
        some fd from hfd, openSourceDir_eq hv hfd] at hmap
      have htree : fileMap = Dict.ofPairs ((walkWithin fs (c.walk parts) (depth fs + 1)
          (c.buildDir ++ parts) []).map (fun x => (arcname dest x.1, x.2))) := hmap
      rw [htree, Dict.get_ofPairs_of_unique, mem_addDirectoryTree hv]
      · exact ⟨fun h => ⟨rfl, hopens.mp rfl, h⟩, fun h => h.2.2⟩
      · -- the name leads back to the path, and the path to its entry
        intro entry₁ entry₂ h₁ h₂
        obtain ⟨r₁, e₁, hne₁, hget₁, -, harc₁, hentry₁, -⟩ := (mem_addDirectoryTree hv).mp h₁
        obtain ⟨r₂, e₂, hne₂, hget₂, -, harc₂, hentry₂, -⟩ := (mem_addDirectoryTree hv).mp h₂
        have hr : r₁ = r₂ := arcname_inj hne₁ hne₂ (Fs.validName_of_get_append hget₁)
          (Fs.validName_of_get_append hget₂) (harc₁.symm.trans harc₂)
        rw [← hr, hget₁, Option.some.injEq] at hget₂
        rw [hentry₁, hentry₂, hr, hget₂]

/-- The rule for a COPY: it records what stands below the source and is not left out. -/
def FollowsRule (c : CopyDir) (fs : Fs) (parts : Path) (dest : Str) (fileMap : FileMap) : Prop :=
  ∀ arc entry, Dict.get fileMap arc = some entry ↔
    ∃ r e, r ≠ [] ∧ fs.get (c.buildDir ++ parts ++ r) = some e ∧ arc = arcname dest r ∧
      entry = (c.walk parts).record r e ∧ leftOut c.patterns (joinPath (parts ++ r)) = false

/-- **When a COPY follows the rule**: nothing that is not left out stands below a directory that is,
and where there is such a thing the source itself is not left out and may be opened, and the walk
sees it. -/
theorem copy_follows_rule_iff (hparts : c.source fs src = some parts)
    (hcopy : copyDirectory c fs src dest [] = some fileMap) :
    FollowsRule c fs parts dest fileMap ↔
      ∀ r e, r ≠ [] → fs.get (c.buildDir ++ parts ++ r) = some e →
        leftOut c.patterns (joinPath (parts ++ r)) = false →
        leftOut c.patterns (relName parts) = false ∧ c.MayOpen parts ∧
          c.Sees parts r e ∧
          ∀ q, q ≠ [] → q <+: r → q ≠ r → leftOut c.patterns (joinPath (parts ++ q)) = false := by
  unfold FollowsRule
  simp only [recorded_iff hparts hcopy, isIgnored_eq]
  constructor
  · intro h r e hne hget hkept
    obtain ⟨hsource, hopens, r', e', hne', hget', hsees, harc, -, hway⟩ :=
      (h (arcname dest r) _).mpr ⟨r, e, hne, hget, rfl, rfl, hkept⟩
    have hr : r = r' := arcname_inj hne hne' (Fs.validName_of_get_append hget)
      (Fs.validName_of_get_append hget') harc
    subst hr
    rw [hget, Option.some.injEq] at hget'
    subst hget'
    exact ⟨hsource, hopens, hsees, fun q hq hpre _ => hway q hq hpre⟩
  · intro hcond arc entry
    constructor
    · rintro ⟨-, -, r, e, hne, hget, -, harc, hentry, hway⟩
      exact ⟨r, e, hne, hget, harc, hentry, hway r hne (List.prefix_refl r)⟩
    · rintro ⟨r, e, hne, hget, harc, hentry, hkept⟩
      obtain ⟨hsource, hopens, hsees, hway⟩ := hcond r e hne hget hkept
      refine ⟨hsource, hopens, r, e, hne, hget, hsees, harc, hentry, fun q hq hpre => ?_⟩
      by_cases hqr : q = r
      · rw [hqr]
        exact hkept
      · exact hway q hq hpre hqr

/-- A context with a directory `a` and a file `keep` in it. -/
def keepContext : Fs :=
  Fs.ofList [(["context".toList], .dir 0o755), (["context".toList, "a".toList], .dir 0o755),
    (["context".toList, "a".toList, "keep".toList], .file 1 ⟨[], 0o644, 0⟩)]

/-- A COPY from it, by one who may not look below `a` where `a` is `closed`. -/
def keepCopy (patterns : List Str) (closed : Bool) : CopyDir :=
  ⟨["context".toList], none, patterns, fun look q =>
    closed && look == .opendir && q == ["context".toList, "a".toList], fun _ => false⟩

/-- A pattern for the file alone leaves out nothing else, and what it leaves out need not be seen. -/
theorem copy_follows_rule_iff_keep :
    FollowsRule (keepCopy ["a/keep".toList] true) keepContext [] "/dst".toList
      [("dst/a".toList, .dir (some 0o755) 0)] := by
  have hcopy : copyDirectory (keepCopy ["a/keep".toList] true) keepContext ".".toList "/dst".toList
      [] = some [("dst/a".toList, .dir (some 0o755) 0)] := by
    decide +kernel
  refine (copy_follows_rule_iff (by decide +kernel) hcopy).mpr ?_
  intro r e hne hget hkept
  have hall := @Fs.forall_get keepContext (fun p e => p.tail ≠ [] →
    leftOut ["a/keep".toList] (joinPath p.tail) = false →
      leftOut ["a/keep".toList] (relName []) = false ∧
        (keepCopy ["a/keep".toList] true).Sees [] p.tail e ∧ ∀ q ∈ p.tail.inits, q ≠ [] →
        q ≠ p.tail → leftOut ["a/keep".toList] (joinPath q) = false) (by decide +kernel) _ e hget
  obtain ⟨hsource, hsees, hway⟩ := hall hne hkept
  exact ⟨hsource, ⟨by decide, rfl⟩, hsees,
    fun q hq hpre hqr => hway q ((List.mem_inits q r).mpr hpre) hq hqr⟩

/-- A file that a later pattern brings back is not copied where its directory is ignored; and nothing
is copied of a directory that may not be opened. -/
theorem copy_breaks_rule :
    (copyDirectory (keepCopy ["a".toList, "!a/keep".toList] false) keepContext ".".toList
        "/dst".toList [] = some [] ∧
      ¬ FollowsRule (keepCopy ["a".toList, "!a/keep".toList] false) keepContext [] "/dst".toList []) ∧
      (copyDirectory (keepCopy [] true) keepContext ".".toList "/dst".toList [] =
        some [("dst/a".toList, .dir (some 0o755) 0)] ∧
      ¬ FollowsRule (keepCopy [] true) keepContext [] "/dst".toList
        [("dst/a".toList, .dir (some 0o755) 0)]) := by
  have hkeep : ∀ c : CopyDir, ∀ fileMap : FileMap, c.buildDir = ["context".toList] →
      leftOut c.patterns "a/keep".toList = false → Dict.get fileMap "dst/a/keep".toList = none →
      ¬ FollowsRule c keepContext [] "/dst".toList fileMap := by
    intro c fileMap hdir hkept hnone h
    have hrec := (h (arcname "/dst".toList ["a".toList, "keep".toList]) _).mpr
      ⟨["a".toList, "keep".toList], .file 1 ⟨[], 0o644, 0⟩, by simp, by rw [hdir]; decide +kernel,
        rfl, rfl, hkept⟩
    rw [show arcname "/dst".toList ["a".toList, "keep".toList] = "dst/a/keep".toList by
      decide +kernel, hnone] at hrec
    cases hrec
  exact ⟨⟨by decide +kernel, hkeep _ _ rfl (by decide +kernel) (by decide +kernel)⟩,
    by decide +kernel, hkeep _ _ rfl (by decide +kernel) (by decide +kernel)⟩

end Copies

end CopyStep

end ProotDistro
