import ProotDistro.Posix.Faults

/-!
# `rmtree_at`: an exact removal on a kernel that refuses

The walk of `rmtree_at`, with its explicit stack, its bounded number of open levels and its
callbacks, over a kernel that may refuse any call. `on_error` and `on_remove` are the two
lists of a `Report`; the handlers themselves do not touch the tree.

* A level that was parked has closed its descriptor and kept the identity of its directory;
  it is reopened through `..` when the walk is back at it. Nothing is moved while the walk is
  on its way, so the identity of a directory is its path.
* One turn of the source's loop is `step`, except that listing a level is a turn of its own.
* **`step_sound`** — what one turn preserves; **`rmtreeAt_sound`** — what a whole removal
  does, and that it comes to an end.

What callers rely on is in `Dirfd.RemovalFrame`.
-/

namespace ProotDistro.Removal

open Posix

/-! ## The calls -/

/-- `fstat` on the descriptor of a directory: its mode. -/
def statDir (d : Path) (fs : Fs) : Except Errno Mode :=
  match fs.get d with
  | some (.dir mode) => .ok mode
  | _ => .error .ENOENT

/-- `fchmod` on the descriptor of a directory. -/
def chmodDir (d : Path) (mode : Mode) (fs : Fs) : Except Errno Fs :=
  if fs.IsDir d then fs.chmodAt d ['.'] mode else .error .ENOENT

/-- `_chmod_fd`: by the descriptor, and then by its name under `/proc`. -/
def chmodFd (F : Faults) (d : Path) (mode : Mode) : HostSys Unit :=
  (act F (chmodDir d mode)).handle fun _ => (act F (chmodDir d mode)).quietly

/-- `make_writable`. -/
def makeWritable (F : Faults) (d : Path) : HostSys Unit :=
  Proc.quietly do
    let mode ← query F (statDir d)
    chmodFd F d (mode ||| 0o700)

/-- `_make_readable_at`: the directory is opened, whatever its mode, and changed. -/
def makeReadableAt (F : Faults) (d : Path) (name : Name) (mode : Mode) : HostSys Unit :=
  Proc.quietly do
    let fd ← query F (·.openDirAt d name)
    chmodFd F fd mode

/-- What Python raises as a `PermissionError`. -/
def isPermission (e : Errno) : Bool := e = .EACCES ∨ e = .EPERM

/-- `_unlink_at`. -/
def unlinkAt (F : Faults) (force : Bool) (d : Path) (name : Name) (isDir : Bool) :
    HostSys Unit :=
  call.handle fun e =>
    if isPermission e = true ∧ force = true then do
      makeWritable F d
      call
    else .fail e
where
  call : HostSys Unit :=
    act F fun fs => if isDir then fs.rmdirAt d name else fs.unlinkAt d name

/-- `_opendir_for_removal`; `mode` is the one `lstat` saw. -/
def opendirForRemoval (F : Faults) (force : Bool) (d : Path) (name : Name) (mode : Mode) :
    HostSys Path :=
  (query F (·.openDirAt d name)).handle fun e =>
    if isPermission e = true ∧ force = true then do
      makeReadableAt F d name (mode ||| 0o700)
      query F (·.openDirAt d name)
    else .fail e

/-! ## The walk -/

/-- What the callbacks were told, oldest first; paths are relative to the named entry. -/
structure Report where
  removed : List Path
  errors : List (Path × Errno)

def Report.empty : Report := ⟨[], []⟩

def Report.onRemove (r : Report) (rel : Path) : Report := { r with removed := r.removed ++ [rel] }

def Report.onError (r : Report) (rel : Path) (e : Errno) : Report :=
  { r with errors := r.errors ++ [(rel, e)] }

/-- The descriptor of a level that is not the deepest one. -/
inductive Held where
  | live (fd : Path)
  | parked (key : Path)

/-- A frame of the stack. -/
structure Level (δ : Type) where
  fd : δ
  /-- the name it is removed by -/
  entry : Name
  rel : Path
  /-- the names that are left, `none` before the level was listed -/
  pending : Option (List Name)
  /-- nothing below has stayed so far -/
  emptied : Bool

def Level.hold {δ δ' : Type} (l : Level δ) (fd : δ') : Level δ' :=
  ⟨fd, l.entry, l.rel, l.pending, l.emptied⟩

/-- The state of the loop. The deepest level holds its descriptor. -/
structure Walk where
  host : Host
  top : Level Path
  /-- the levels above it in the tree, deepest first -/
  below : List (Level Held)
  /-- the shallowest level that holds its descriptor, counted from the root -/
  low : Nat
  ok : Bool
  report : Report

/-- How a removal ends. -/
structure Outcome where
  gone : Bool
  host : Host
  report : Report

/-- `MAX_OPEN_LEVELS` -/
def maxOpenLevels : Nat := 64

/-- `Levels._park`: whether the level could answer for itself. -/
def parkLevel (F : Faults) (l : Level Held) : HostSys (Level Held) :=
  match l.fd with
  | .live fd => do
    let _ ← query F (statDir fd)
    pure (l.hold (.parked fd))
  | .parked _ => pure l

/-- The loop of `Levels.push`, with `n` levels left that may be parked. -/
def parkLevels (F : Faults) : Nat → Nat → List (Level Held) → Host →
    (List (Level Held) × Nat) × Host
  | 0, low, below, h => ((below, low), h)
  | n + 1, low, below, h =>
    if maxOpenLevels < below.length + 1 - low then
      match below[below.length - 1 - low]? with
      | none => ((below, low), h)
      | some l =>
        match parkLevel F l h with
        | (.ok l', h') => parkLevels F n (low + 1) (below.set (below.length - 1 - low) l') h'
        | (.error _, h') => ((below, low), h')
    else ((below, low), h)

/-- `Levels.push` of a level whose directory was opened as `fd`. -/
def push (F : Faults) (w : Walk) (fd : Path) (child : Name) : Walk :=
  let below := w.top.hold (.live w.top.fd) :: w.below
  let parked := parkLevels F (below.length - 1 - w.low) w.low below w.host
  { w with
    host := parked.2
    top := ⟨fd, child, w.top.rel ++ [child], none, true⟩
    below := parked.1.1
    low := parked.1.2 }

/-- `_revive_level`, through the descriptor of the level beneath. -/
def revive (F : Faults) (child : Path) : Held → HostSys Path
  | .live fd => pure fd
  | .parked key => do
    let up ← query F (·.openDirAt child ['.', '.'])
    let _ ← query F (statDir up)
    if up = key then pure up else .fail .ESTALE

/-- What the walk does with an entry that would not go. -/
def Walk.failed (w : Walk) (h : Host) (rel : Path) (e : Errno) : Walk :=
  { w with
    host := h
    top := { w.top with emptied := false }
    report := w.report.onError rel e }

/-- A child that is a directory becomes the deepest level. -/
def descend (F : Faults) (force : Bool) (w : Walk) (child : Name) (mode : Mode) (h : Host) : Walk :=
  match opendirForRemoval F force w.top.fd child mode h with
  | (.ok fd, h') => push F { w with host := h' } fd child
  | (.error e, h') => w.failed h' (w.top.rel ++ [child]) e

/-- `_unlink_reporting`, for a child of the deepest level. -/
def unlinkReporting (F : Faults) (force : Bool) (w : Walk) (child : Name) (h : Host) : Walk :=
  match unlinkAt F force w.top.fd child false h with
  | (.ok (), h') => { w with host := h', report := w.report.onRemove (w.top.rel ++ [child]) }
  | (.error e, h') =>
    if e = .ENOENT then { w with host := h' } else w.failed h' (w.top.rel ++ [child]) e

/-- One entry of the deepest level, its name taken from `pending`. -/
def visit (F : Faults) (force : Bool) (w : Walk) (child : Name) : Walk :=
  match query F (·.lstatAt w.top.fd child) w.host with
  | (.error e, h) =>
    if e = .ENOENT then { w with host := h } else w.failed h (w.top.rel ++ [child]) e
  | (.ok (.dir mode), h) => descend F force w child mode h
  | (.ok _, h) => unlinkReporting F force w child h

/-- The deepest level goes from its parent `d`, unless something below it stayed. -/
def removeLevel (F : Faults) (force : Bool) (w : Walk) (d : Path) (h : Host) :
    Bool × Host × Report :=
  if w.top.emptied then
    match unlinkAt F force d w.top.entry true h with
    | (.ok (), h') => (true, h', w.report.onRemove w.top.rel)
    | (.error e, h') => (false, h', w.report.onError w.top.rel e)
  else (false, h, w.report)

/-- The deepest level is done with. -/
def leave (F : Faults) (force : Bool) (d : Path) (w : Walk) : Except Outcome Walk :=
  match w.below with
  | [] =>
    let (gone, h, report) := removeLevel F force w d w.host
    .error ⟨w.ok && gone, h, report⟩
  | parent :: below =>
    match revive F w.top.fd parent.fd w.host with
    | (.error e, h) => .error ⟨false, h, w.report.onError w.top.rel e⟩
    | (.ok fd, h) =>
      let (gone, h, report) := removeLevel F force w fd h
      .ok {
        host := h
        top := { parent.hold fd with emptied := parent.emptied && gone }
        below := below
        low := match parent.fd with | .live _ => w.low | .parked _ => below.length
        ok := w.ok && gone
        report := report }

/-- One turn of the loop, for a removal from the directory `d`. -/
def step (F : Faults) (force : Bool) (d : Path) (w : Walk) : Except Outcome Walk :=
  match w.top.pending with
  | none =>
    match query F (fun fs => .ok (fs.listdir w.top.fd)) w.host with
    | (.ok names, h) => .ok { w with host := h, top := { w.top with pending := some names } }
    | (.error e, h) =>
      .ok { w.failed h w.top.rel e with
        top := { w.top with pending := some [], emptied := false } }
  | some [] => leave F force d w
  | some (child :: rest) =>
    .ok (visit F force { w with top := { w.top with pending := some rest } } child)

/-- The loop, for at most `n` turns. A caller that does not listen to errors gets the first one
raised, and the walk stops where it stands. -/
def run (F : Faults) (force listens : Bool) (d : Path) : Nat → Walk → Option Outcome
  | 0, _ => none
  | n + 1, w =>
    match step F force d w with
    | .error out => some out
    | .ok w' =>
      if listens = false ∧ w'.report.errors ≠ [] then some ⟨false, w'.host, w'.report⟩
      else run F force listens d n w'

/-- More turns than the loop can take: a file system has so many entries only. -/
def turns (fs : Fs) : Nat := 3 * fs.table.keys.length + 1

/-- `rmtree_at` of a directory whose mode `lstat` saw. -/
def rmtreeDir (F : Faults) (force listens : Bool) (d : Path) (name : Name) (mode : Mode) (h : Host) :
    Option Outcome :=
  match opendirForRemoval F force d name mode h with
  | (.error e, h) => some ⟨false, h, Report.empty.onError [] e⟩
  | (.ok fd, h) =>
    run F force listens d (turns h.fs) ⟨h, ⟨fd, name, [], none, true⟩, [], 1, true, .empty⟩

/-- `rmtree_at` of anything else. -/
def rmtreeOther (F : Faults) (force : Bool) (d : Path) (name : Name) (h : Host) : Option Outcome :=
  match unlinkAt F force d name false h with
  | (.ok (), h) => some ⟨true, h, Report.empty.onRemove []⟩
  | (.error e, h) =>
    if e = .ENOENT then some ⟨true, h, .empty⟩ else some ⟨false, h, Report.empty.onError [] e⟩

/-- `rmtree_at`, with an `on_error` handler that `listens` or without one. -/
def rmtreeAt (F : Faults) (force listens : Bool) (d : Path) (name : Name) (h : Host) :
    Option Outcome :=
  match query F (·.lstatAt d name) h with
  | (.error e, h) =>
    if e = .ENOENT then some ⟨true, h, .empty⟩ else some ⟨false, h, Report.empty.onError [] e⟩
  | (.ok (.dir mode), h) => rmtreeDir F force listens d name mode h
  | (.ok _, h) => rmtreeOther F force d name h

/-! ## What a call leaves alone

No call of the walk writes anything but the modes of directories, so what it does is seen in
`bare`, which forgets these. -/

/-- An entry without the mode of a directory. -/
def bareEntry : Entry → Entry
  | .dir _ => .dir 0
  | e => e

def bare (fs : Fs) (q : Path) : Option Entry := (fs.get q).map bareEntry

/-- The bare entry is missing where the entry is. -/
theorem bare_eq_none {fs : Fs} {q : Path} : bare fs q = none ↔ fs.get q = none := by
  unfold bare
  exact Option.map_eq_none_iff

/-- What is the same up to modes is a directory on both sides. -/
theorem isDir_of_bare {fs fs' : Fs} {p : Path} (hd : fs.IsDir p) (h : bare fs' p = bare fs p) :
    fs'.IsDir p := by
  obtain ⟨m, hm⟩ := hd
  unfold bare at h
  rw [hm] at h
  obtain ⟨e, he, hbare⟩ := Option.map_eq_some_iff.mp h
  cases e with
  | dir m' => exact ⟨m', he⟩
  | file i data => cases hbare
  | symlink target => cases hbare

/-- The mode of a directory is no part of the bare tree. -/
theorem chmodDir_bare {d : Path} {mode : Mode} {fs fs' : Fs} (h : chmodDir d mode fs = .ok fs') :
    bare fs' = bare fs := by
  unfold chmodDir at h
  split at h
  · rename_i hd
    have hself : Fs.locate d ['.'] = d := rfl
    obtain ⟨fs₁, hfs₁, hget⟩ := @Fs.chmodAt_of_located fs d ['.'] mode hd
    rw [hfs₁, Except.ok.injEq] at h
    subst h
    funext q
    unfold bare
    rw [hget, hself]
    by_cases hq : q = d
    · obtain ⟨m, hm⟩ := hd
      rw [if_pos hq, hq, hm]
      rfl
    · rw [if_neg hq]
  · cases h

/-- What a directory records of an entry is in `bare`. -/
theorem listed_of_bare {fs fs' : Fs} {q : Path} (h : bare fs' q = bare fs q) :
    (fs'.get q).map Entry.listed = (fs.get q).map Entry.listed := by
  have hforgets : ∀ e : Entry, e.listed = (bareEntry e).listed := by
    intro e
    cases e <;> rfl
  have hmap : ∀ o : Option Entry, o.map Entry.listed = (o.map bareEntry).map Entry.listed := by
    intro o
    rw [Option.map_map]
    exact congrFun (congrArg Option.map (funext hforgets)) o
  rw [hmap, hmap (fs.get q)]
  exact congrArg (Option.map Entry.listed) h

/-- A directory keeps its time where only modes change, of it and what is in it. -/
theorem turn_times_of_bare {h : Host} {fs : Fs} {q : Path} (hdir : fs.IsDir q → h.fs.IsDir q)
    (hbare : ∀ n, bare fs (q ++ [n]) = bare h.fs (q ++ [n])) : (h.turn fs).times q = h.times q :=
  Host.turn_times hdir fun n => listed_of_bare (hbare n)

/-- Only modes of directories were changed. -/
structure Steady (h h' : Host) : Prop where
  now : bare h'.fs = bare h.fs
  trail : ∀ fs ∈ h'.states, fs ∈ h.states ∨ bare fs = bare h.fs
  times : h'.times = h.times

namespace Steady

/-- A host is as steady as it was. -/
theorem refl (h : Host) : Steady h h := ⟨rfl, fun _ hfs => .inl hfs, rfl⟩

/-- A call that changes nothing keeps it steady. -/
theorem tick {h h' : Host} (hs : Steady h h') : Steady h h'.tick :=
  ⟨hs.now, hs.trail, hs.times⟩

theorem turn {h h' : Host} {fs : Fs} (hs : Steady h h') (hfs : bare fs = bare h'.fs) :
    Steady h (h'.turn fs) where
  now := hfs.trans hs.now
  trail := by
    intro fs' hfs'
    rw [Host.turn_states] at hfs'
    rcases List.mem_cons.mp hfs' with rfl | hmem
    · exact .inr (hfs.trans hs.now)
    · exact hs.trail fs' hmem
  times := by
    funext q
    rw [← hs.times]
    exact turn_times_of_bare (fun hd => isDir_of_bare hd (congrFun hfs.symm q)) fun n => congrFun hfs _

theorem trans {h h' h'' : Host} (hs : Steady h h') (hs' : Steady h' h'') : Steady h h'' where
  now := hs'.now.trans hs.now
  trail := by
    intro fs hfs
    rcases hs'.trail fs hfs with hmem | hbare
    · exact hs.trail fs hmem
    · exact .inr (hbare.trans hs.now)
  times := hs'.times.trans hs.times

/-- What is missing in one of two steady hosts is missing in the other. -/
theorem get_eq_none {h h' : Host} (hs : Steady h h') {q : Path} :
    h'.fs.get q = none ↔ h.fs.get q = none := by
  rw [← bare_eq_none, ← bare_eq_none, hs.now]

/-- A directory of the one is one of the other. -/
theorem isDir {h h' : Host} (hs : Steady h h') {q : Path} (hd : h.fs.IsDir q) : h'.fs.IsDir q :=
  isDir_of_bare hd (congrFun hs.now q)

end Steady

section Calls

variable {F : Faults} {force : Bool} {d : Path} {name : Name} {h₀ : Host} {α : Type}

/-- A look keeps the host steady. -/
theorem query_steady {g : Fs → Except Errno α} :
    Proc.Keeps (Steady h₀) (query F g) fun _ => True :=
  Triple.query (fun _ _ hs _ => ⟨hs.tick, trivial⟩) fun _ hs => hs.tick

/-- So does the `chmod` of a directory, however often it is tried. -/
theorem chmodFd_steady {mode : Mode} :
    Proc.Keeps (Steady h₀) (chmodFd F d mode) fun _ => True := by
  have hact : Proc.Keeps (Steady h₀) (act F (chmodDir d mode)) fun _ => True :=
    Triple.act (fun h fs hs hfs => ⟨hs.turn (chmodDir_bare hfs), trivial⟩) fun _ hs _ => hs.tick
  exact hact.handle fun _ => hact.quietly

theorem makeWritable_steady : Proc.Keeps (Steady h₀) (makeWritable F d) fun _ => True :=
  Proc.Keeps.quietly (query_steady.bind fun _ _ => chmodFd_steady)

/-- Or readable by its name. -/
theorem makeReadableAt_steady {mode : Mode} :
    Proc.Keeps (Steady h₀) (makeReadableAt F d name mode) fun _ => True :=
  Proc.Keeps.quietly (query_steady.bind fun _ _ => chmodFd_steady)

/-- The descriptor a descent goes on with is one on the directory that was named. -/
theorem opendirForRemoval_spec (F : Faults) (force : Bool) (d : Path) (mode : Mode) (hv : ValidName name) :
    Proc.Triple (Steady h₀) (opendirForRemoval F force d name mode)
      (fun fd h => Steady h₀ h ∧ fd = d ++ [name] ∧ h.fs.IsDir fd) (Steady h₀) := by
  have hopen : Proc.Triple (Steady h₀) (query F (·.openDirAt d name))
      (fun fd h => Steady h₀ h ∧ fd = d ++ [name] ∧ h.fs.IsDir fd) (Steady h₀) := by
    apply Triple.query
    · intro h fd hs hfd
      unfold Fs.openDirAt at hfd
      rw [Fs.locate_valid hv] at hfd
      split at hfd
      · rename_i m hm
        cases hfd
        exact ⟨hs.tick, rfl, ⟨m, hm⟩⟩
      · cases hfd
      · cases hfd
    · intro h hs
      exact hs.tick
  apply Proc.Triple.handle hopen
  intro e
  split
  · exact Proc.Keeps.bind_triple makeReadableAt_steady (fun _ hs => hs) fun _ _ => hopen
  · exact Proc.Triple.fail fun _ hs => hs

/-- The entry at `p` was taken away, and apart from modes nothing else changed. -/
structure Drops (p : Path) (h h' : Host) : Prop where
  there : h.fs.get p ≠ none
  now : ∀ q, bare h'.fs q = if q = p then none else bare h.fs q
  trail : ∀ fs ∈ h'.states, fs ∈ h.states ∨ bare fs = bare h.fs ∨ bare fs = bare h'.fs
  times : ∀ q, (∀ n, q ++ [n] ≠ p) → h'.times q = h.times q

/-- An entry that goes after modes have changed goes. -/
theorem Drops.of_steady {p : Path} {h h' h'' : Host} (hs : Steady h h') (hd : Drops p h' h'') :
    Drops p h h'' where
  there := fun hnone => hd.there (hs.get_eq_none.mpr hnone)
  now := fun q => by rw [hd.now, hs.now]
  trail := by
    intro fs hfs
    rcases hd.trail fs hfs with hmem | hbare | hbare
    · rcases hs.trail fs hmem with hmem | hbare
      · exact .inl hmem
      · exact .inr (.inl hbare)
    · exact .inr (.inl (hbare.trans hs.now))
    · exact .inr (.inr hbare)
  times := fun q hq => (hd.times q hq).trans (congrFun hs.times q)

/-- Neither call says of an entry that is there that it is missing. -/
theorem rmdirAt_ne_missing {fs : Fs} (hv : ValidName name) (hthere : fs.get (d ++ [name]) ≠ none) :
    fs.rmdirAt d name ≠ .error .ENOENT := by
  unfold Fs.rmdirAt
  intro h
  simp only [hv, not_true_eq_false, if_false] at h
  split at h
  · split at h
    · rename_i hnone
      rw [Fs.locate_valid hv] at hnone
      exact hthere hnone
    · cases h
  · split at h
    · cases h
    · split at h <;> cases h

/-- Unlinking what is there does not fail for its being missing. -/
theorem unlinkAt_ne_missing {fs : Fs} (hv : ValidName name)
    (hthere : fs.get (d ++ [name]) ≠ none) : fs.unlinkAt d name ≠ .error .ENOENT := by
  unfold Fs.unlinkAt
  intro h
  split at h
  · rename_i hnone
    rw [Fs.locate_valid hv] at hnone
    exact hthere hnone
  all_goals cases h

/-- One attempt of `_unlink_at`. -/
theorem unlinkCall_cases (F : Faults) (d : Path) {name : Name} (isDir : Bool) (h : Host)
    (hv : ValidName name) :
    (∃ h', unlinkAt.call F d name isDir h = (.ok (), h') ∧ Drops (d ++ [name]) h h') ∨
      ∃ e, unlinkAt.call F d name isDir h = (.error e, h.tick) ∧
        (e = .ENOENT → h.fs.get (d ++ [name]) = none) := by
  have hl : Fs.locate d name = d ++ [name] := Fs.locate_valid hv
  unfold unlinkAt.call
  rcases act_cases F (fun fs => if isDir then fs.rmdirAt d name else fs.unlinkAt d name) h with
    ⟨fs, hrun, hok⟩ | ⟨e, hrun, herr⟩
  · left
    have hdrop : h.fs.get (d ++ [name]) ≠ none ∧
        ∀ q, fs.get q = if q = d ++ [name] then none else h.fs.get q := by
      cases isDir with
      | true =>
        obtain ⟨-, ⟨m, hm⟩, hget⟩ := Fs.rmdirAt_ok hok
        exact ⟨by rw [hm]; simp, hget⟩
      | false =>
        obtain ⟨⟨e, he, -⟩, hget⟩ := Fs.unlinkAt_ok hok
        rw [hl] at he hget
        exact ⟨by rw [he]; simp, hget⟩
    have hbare : ∀ q, bare fs q = if q = d ++ [name] then none else bare h.fs q := by
      intro q
      unfold bare
      rw [hdrop.2]
      split <;> rfl
    refine ⟨_, hrun, hdrop.1, hbare, ?_, fun q hq => turn_times_of_bare ?_ ?_⟩
    · intro fs' hfs'
      rw [Host.turn_states] at hfs'
      rcases List.mem_cons.mp hfs' with rfl | hmem
      · exact .inr (.inr rfl)
      · exact .inl hmem
    · rintro ⟨m, hm⟩
      rw [hdrop.2] at hm
      split at hm
      · cases hm
      · exact ⟨m, hm⟩
    · intro n
      rw [hbare, if_neg (hq n)]
  · right
    refine ⟨e, hrun, ?_⟩
    rintro rfl
    rcases herr with herr | ⟨-, hne⟩
    · by_contra hthere
      cases isDir with
      | true => exact rmdirAt_ne_missing hv hthere herr
      | false => exact unlinkAt_ne_missing hv hthere herr
    · exact absurd rfl hne

/-- `_unlink_at` takes the entry away or leaves it; it says that the entry is missing only
when it is. -/
theorem unlinkAt_cases (F : Faults) (force : Bool) (d : Path) {name : Name} (isDir : Bool)
    (h : Host) (hv : ValidName name) :
    (∃ h', unlinkAt F force d name isDir h = (.ok (), h') ∧ Drops (d ++ [name]) h h') ∨
      ∃ e h', unlinkAt F force d name isDir h = (.error e, h') ∧ Steady h h' ∧
        (e = .ENOENT → h.fs.get (d ++ [name]) = none) := by
  unfold unlinkAt
  rcases unlinkCall_cases F d isDir h hv with ⟨h', hrun, hdrop⟩ | ⟨e, hrun, hmissing⟩
  · left
    exact ⟨h', Proc.handle_of_ok hrun, hdrop⟩
  · rw [Proc.handle_of_error hrun]
    have htick : Steady h h.tick := (Steady.refl h).tick
    by_cases hretry : isPermission e = true ∧ force = true
    · rw [if_pos hretry]
      -- the second attempt starts from the modes the first one led to
      obtain ⟨h₁, hw, hs⟩ : ∃ h₁, makeWritable F d h.tick = (.ok (), h₁) ∧ Steady h h₁ := by
        have hq := Proc.quietly_ok (do
          let mode ← query F (statDir d)
          chmodFd F d (mode ||| 0o700)) h.tick
        refine ⟨_, hq, ?_⟩
        have hkeeps : Steady h (makeWritable F d h.tick).2 :=
          Proc.Triple.final makeWritable_steady htick (fun _ _ hs => hs.1) fun _ hs => hs
        rw [show makeWritable F d h.tick = _ from hq] at hkeeps
        exact hkeeps
      rw [Proc.bind_of_ok hw]
      rcases unlinkCall_cases F d isDir h₁ hv with ⟨h', hrun', hdrop⟩ | ⟨e', hrun', hmissing'⟩
      · left
        exact ⟨h', hrun', hdrop.of_steady hs⟩
      · right
        exact ⟨e', _, hrun', hs.tick, fun he => hs.get_eq_none.mp (hmissing' he)⟩
    · rw [if_neg hretry]
      right
      exact ⟨e, _, rfl, htick, hmissing⟩

end Calls

/-! ## What was removed and what was reported -/

/-- From `h₀` to `h` the entries in `removed`, below `root`, were taken away, in an order in
which nothing goes before what is below it, and apart from modes nothing else changed. -/
structure Accounted (root : Path) (h₀ h : Host) (removed : List Path) : Prop where
  kept : ∀ q, bare h.fs q = bare h₀.fs q ∨ ∃ r ∈ removed, q = root ++ r ∧ h.fs.get q = none
  gone : ∀ r ∈ removed, h₀.fs.get (root ++ r) ≠ none ∧ h.fs.get (root ++ r) = none
  order : removed.Pairwise fun earlier later => ¬ earlier <+: later
  trail : ∀ fs ∈ h.states, fs ∈ h₀.states ∨ ∀ q, ¬ root <+: q → bare fs q = bare h₀.fs q
  times : ∀ q, ¬ root <+: q → (∀ n, q ++ [n] ≠ root) → h.times q = h₀.times q

namespace Accounted

variable {root : Path} {h₀ h h' : Host} {removed : List Path}

/-- Nothing outside the root has changed but modes of directories. -/
theorem outside (ha : Accounted root h₀ h removed) {q : Path} (hq : ¬ root <+: q) :
    bare h.fs q = bare h₀.fs q := by
  rcases ha.kept q with hbare | ⟨r, -, rfl, -⟩
  · exact hbare
  · exact absurd (List.prefix_append root r) hq

/-- What is there was there, as far as `bare` tells. -/
theorem bare_of_some (ha : Accounted root h₀ h removed) {q : Path} (hq : h.fs.get q ≠ none) :
    bare h.fs q = bare h₀.fs q := by
  rcases ha.kept q with hbare | ⟨r, -, -, hnone⟩
  · exact hbare
  · exact absurd hnone hq

/-- What is there now was there before. -/
theorem there_before (ha : Accounted root h₀ h removed) {q : Path} (hq : h.fs.get q ≠ none) :
    h₀.fs.get q ≠ none := by
  intro hnone
  have hbare := ha.bare_of_some hq
  rw [bare_eq_none.mpr hnone, bare_eq_none] at hbare
  exact hq hbare

/-- The report is exact: an entry is in it if and only if it was there and is not any more. -/
theorem mem_iff (ha : Accounted root h₀ h removed) {r : Path} :
    r ∈ removed ↔ h₀.fs.get (root ++ r) ≠ none ∧ h.fs.get (root ++ r) = none := by
  constructor
  · exact ha.gone r
  · rintro ⟨hbefore, hnow⟩
    rcases ha.kept (root ++ r) with hbare | ⟨r', hr', heq, -⟩
    · rw [bare_eq_none.mpr hnow, eq_comm, bare_eq_none] at hbare
      exact absurd hbare hbefore
    · rw [List.append_cancel_left heq]
      exact hr'

/-- Nothing is reported twice. -/
theorem nodup (ha : Accounted root h₀ h removed) : removed.Nodup :=
  ha.order.imp fun {r r'} hnot heq => hnot (by rw [heq])

/-- At the start nothing has been reported. -/
theorem start (hs : Steady h₀ h) : Accounted root h₀ h [] where
  kept := fun q => .inl (congrFun hs.now q)
  gone := fun r hr => by cases hr
  order := List.Pairwise.nil
  trail := by
    intro fs hfs
    rcases hs.trail fs hfs with hmem | hbare
    · exact .inl hmem
    · exact .inr fun q _ => congrFun hbare q
  times := fun q _ _ => congrFun hs.times q

/-- Changes of modes leave the account as it is. -/
theorem steady (ha : Accounted root h₀ h removed) (hs : Steady h h') :
    Accounted root h₀ h' removed where
  kept := by
    intro q
    rw [hs.now, hs.get_eq_none]
    exact ha.kept q
  gone := by
    intro r hr
    rw [hs.get_eq_none]
    exact ha.gone r hr
  order := ha.order
  trail := by
    intro fs hfs
    rcases hs.trail fs hfs with hmem | hbare
    · exact ha.trail fs hmem
    · exact .inr fun q hq => by rw [hbare]; exact ha.outside hq
  times := fun q hq hn => (congrFun hs.times q).trans (ha.times q hq hn)

/-- One more entry goes. It was there, so nothing above it had gone before. -/
theorem drops {r : Path} (ha : Accounted root h₀ h removed) (hd : Drops (root ++ r) h h') :
    Accounted root h₀ h' (removed ++ [r]) where
  -- what is kept is as before, and the entry that went is accounted for
  kept := by
    intro q
    by_cases hq : q = root ++ r
    · right
      refine ⟨r, by simp, hq, ?_⟩
      rw [← bare_eq_none, hd.now, if_pos hq]
    · have hbare : bare h'.fs q = bare h.fs q := by rw [hd.now, if_neg hq]
      rcases ha.kept q with hkept | ⟨r', hr', heq, hnone⟩
      · exact .inl (hbare.trans hkept)
      · refine .inr ⟨r', List.mem_append_left _ hr', heq, ?_⟩
        rw [← bare_eq_none, hbare, bare_eq_none]
        exact hnone
  -- what is gone stays gone
  gone := by
    intro r' hr'
    rcases List.mem_append.mp hr' with hmem | hmem
    · refine ⟨(ha.gone r' hmem).1, ?_⟩
      rw [← bare_eq_none, hd.now, bare_eq_none.mpr (ha.gone r' hmem).2, ite_self]
    · rw [List.mem_singleton.mp hmem]
      refine ⟨ha.there_before hd.there, ?_⟩
      rw [← bare_eq_none, hd.now, if_pos rfl]
  -- nothing above the entry had gone before, since it was there
  order := by
    rw [List.pairwise_append]
    refine ⟨ha.order, List.pairwise_singleton _ _, ?_⟩
    intro r' hr' r'' hr''
    rw [List.mem_singleton.mp hr'']
    rintro ⟨t, rfl⟩
    apply hd.there
    have hnone := (ha.gone r' hr').2
    by_cases ht : t = []
    · rw [ht, List.append_nil]
      exact hnone
    · rw [← List.append_assoc]
      apply Fs.get_append_eq_none ht
      rintro ⟨m, hm⟩
      rw [hnone] at hm
      cases hm
  trail := by
    intro fs hfs
    rcases hd.trail fs hfs with hmem | hbare | hbare
    · exact ha.trail fs hmem
    · exact .inr fun q hq => by rw [hbare]; exact ha.outside hq
    · right
      intro q hq
      have hne : q ≠ root ++ r := fun heq => hq (heq ▸ List.prefix_append root r)
      rw [hbare, hd.now, if_neg hne]
      exact ha.outside hq
  -- a directory above the root has lost nothing
  times := by
    intro q hq hn
    rw [hd.times q fun n heq => ?_]
    · exact ha.times q hq hn
    · -- an entry below the root that is in `q` is not the root, so `q` is below the root too
      rcases List.prefix_concat_iff.mp ⟨r, heq.symm⟩ with hroot | hpre
      · exact hn n hroot.symm
      · exact hq hpre

/-- A start that only differs in modes. -/
theorem of_steady {h₁ : Host} (hs : Steady h₁ h₀) (ha : Accounted root h₀ h removed) :
    Accounted root h₁ h removed where
  kept := by
    intro q
    rw [← congrFun hs.now q]
    exact ha.kept q
  gone := by
    intro r hr
    rw [Ne, ← hs.get_eq_none]
    exact ha.gone r hr
  order := ha.order
  trail := by
    intro fs hfs
    rcases ha.trail fs hfs with hmem | hout
    · rcases hs.trail fs hmem with hmem | hbare
      · exact .inl hmem
      · exact .inr fun q _ => congrFun hbare q
    · exact .inr fun q hq => by rw [← congrFun hs.now q]; exact hout q hq
  times := fun q hq hn => (ha.times q hq hn).trans (congrFun hs.times q)

end Accounted

/-! ## How much work is left -/

/-- The entries at `p` and below. -/
def size (fs : Fs) (p : Path) : Nat := fs.table.keys.countP fun q => p <+: q

/-- What is there is in the table. -/
theorem mem_keys {fs : Fs} {p : Path} (h : fs.get p ≠ none) : p ∈ fs.table.keys := by
  rw [← AList.mem_keys, ← AList.lookup_isSome, Option.isSome_iff_ne_none]
  exact h

/-- Where something is the tree has a size. -/
theorem size_pos {fs : Fs} {p : Path} (h : fs.get p ≠ none) : 0 < size fs p := by
  unfold size
  rw [List.countP_pos_iff]
  exact ⟨p, mem_keys h, by simp⟩

/-- No tree is larger than the table. -/
theorem size_le (fs : Fs) (p : Path) : size fs p ≤ fs.table.keys.length :=
  List.countP_le_length

/-- A path is below one child of a directory at most, and then below the directory. -/
theorem sum_below_le {names : List Name} (hnodup : names.Nodup) (p q : Path) :
    (names.map fun c => if p ++ [c] <+: q then 1 else 0).sum ≤
      if p <+: q ∧ q ≠ p then 1 else 0 := by
  induction names with
  | nil => simp
  | cons c names ih =>
    rw [List.nodup_cons] at hnodup
    rw [List.map_cons, List.sum_cons]
    by_cases hc : p ++ [c] <+: q
    · have hrest : (names.map fun c' => if p ++ [c'] <+: q then 1 else 0).sum = 0 := by
        apply List.sum_eq_zero
        intro x hx
        obtain ⟨c', hc', rfl⟩ := List.mem_map.mp hx
        rw [if_neg]
        intro hpre
        have heq : p ++ [c'] = p ++ [c] :=
          (List.prefix_of_prefix_length_le hpre hc (by simp)).eq_of_length (by simp)
        have hcc : c' = c := by simpa using heq
        exact hnodup.1 (hcc ▸ hc')
      have hbelow : p <+: q ∧ q ≠ p := by
        refine ⟨(List.prefix_append p [c]).trans hc, ?_⟩
        rintro rfl
        have := hc.length_le
        rw [List.length_append, List.length_singleton] at this
        omega
      rw [if_pos hc, hrest, if_pos hbelow]
    · rw [if_neg hc, Nat.zero_add]
      exact ih hnodup.2

/-- The entries below the children of a directory are below it, and it is there itself. -/
theorem sum_size_lt {fs : Fs} {p : Path} {names : List Name} (h : fs.get p ≠ none)
    (hnodup : names.Nodup) : (names.map fun c => size fs (p ++ [c])).sum < size fs p := by
  have hcount : ∀ keys : List Path,
      (names.map fun c => keys.countP fun q => p ++ [c] <+: q).sum +
        keys.countP (fun q => q = p) ≤ keys.countP fun q => p <+: q := by
    intro keys
    induction keys with
    | nil => simp
    | cons q keys ih =>
      simp only [List.countP_cons, decide_eq_true_eq]
      rw [List.sum_map_add]
      have hbelow := sum_below_le hnodup p q
      have hsum : (if p <+: q ∧ q ≠ p then 1 else 0) + (if q = p then 1 else 0) ≤
          if p <+: q then 1 else 0 := by
        by_cases hqp : q = p
        · simp [hqp]
        · by_cases hpre : p <+: q <;> simp [hqp, hpre]
      omega
  have hself : 0 < fs.table.keys.countP fun q => q = p := by
    rw [List.countP_pos_iff]
    exact ⟨p, mem_keys h, by simp⟩
  have hall := hcount fs.table.keys
  unfold size
  omega

/-! ## The stack -/

/-- The directory a descriptor is open on, or was when its level was parked. -/
def Held.path : Held → Path
  | .live fd => fd
  | .parked key => key

def Level.settle (l : Level Held) : Level Path := l.hold l.fd.path

/-- The stack, deepest level first. -/
def Walk.levels (w : Walk) : List (Level Path) := w.top :: w.below.map Level.settle

/-- Every level is a directory of the one after it; the last is the named entry. -/
inductive Chain (d : Path) (name : Name) : List (Level Path) → Prop
  | root {l : Level Path} (hfd : l.fd = d ++ [name]) (hentry : l.entry = name)
      (hrel : l.rel = []) : Chain d name [l]
  | level {l parent : Level Path} {rest : List (Level Path)}
      (hfd : l.fd = parent.fd ++ [l.entry]) (hrel : l.rel = parent.rel ++ [l.entry])
      (hrest : Chain d name (parent :: rest)) : Chain d name (l :: parent :: rest)

/-- The descriptor of a level is open on the directory its path says. -/
theorem Chain.fd_eq {d : Path} {name : Name} {l : Level Path} {rest : List (Level Path)}
    (hc : Chain d name (l :: rest)) : l.fd = d ++ [name] ++ l.rel := by
  induction rest generalizing l with
  | nil =>
    cases hc with
    | root hfd hentry hrel => rw [hfd, hrel, List.append_nil]
  | cons parent rest ih =>
    cases hc with
    | level hfd hrel hrest => rw [hfd, hrel, ih hrest, List.append_assoc]

/-- What a chain is made of does not depend on what is still pending. -/
theorem Chain.change_top {d : Path} {name : Name} {l l' : Level Path} {rest : List (Level Path)}
    (hfd : l'.fd = l.fd) (hentry : l'.entry = l.entry) (hrel : l'.rel = l.rel)
    (hc : Chain d name (l :: rest)) : Chain d name (l' :: rest) := by
  cases hc with
  | root h₁ h₂ h₃ =>
    exact .root (hfd.trans h₁) (hentry.trans h₂) (hrel.trans h₃)
  | level h₁ h₂ h₃ =>
    apply Chain.level
    · rw [hfd, hentry]; exact h₁
    · rw [hrel, hentry]; exact h₂
    · exact h₃

section Stack

variable {F : Faults} {force : Bool} {d : Path} {name : Name} {h h₀ : Host} {w : Walk}

/-- Parking a level changes only which descriptors are open. -/
theorem parkLevel_spec {l : Level Held} :
    Proc.Triple (Steady h₀) (parkLevel F l)
      (fun l' h => Steady h₀ h ∧ l'.settle = l.settle) (Steady h₀) := by
  unfold parkLevel
  cases hfd : l.fd with
  | live fd =>
    apply Proc.Triple.bind (Q := fun _ => Steady h₀)
    · exact Triple.query (fun _ _ hs _ => hs.tick) fun _ hs => hs.tick
    · intro _
      apply Proc.Triple.pure
      intro h' hs
      refine ⟨hs, ?_⟩
      unfold Level.settle
      rw [hfd]
      rfl
  | parked key => exact Proc.Triple.pure fun _ hs => ⟨hs, rfl⟩

/-- An element that is replaced by one that looks the same leaves the list of looks. -/
theorem map_set_of_eq {α β : Type} {f : α → β} {as : List α} {i : Nat} {a a' : α}
    (ha : as[i]? = some a) (hf : f a' = f a) : (as.set i a').map f = as.map f := by
  obtain ⟨hi, rfl⟩ := List.getElem?_eq_some_iff.mp ha
  rw [List.map_set, hf, ← List.getElem_map f (h := by simpa using hi), List.set_getElem_self]

/-- Parking closes descriptors; what the levels stand for stays. -/
theorem parkLevels_spec (F : Faults) (n low : Nat) (below : List (Level Held)) (h : Host) :
    (parkLevels F n low below h).1.1.map Level.settle = below.map Level.settle ∧
      Steady h (parkLevels F n low below h).2 := by
  induction n generalizing low below h with
  | zero => exact ⟨rfl, Steady.refl h⟩
  | succ n ih =>
    unfold parkLevels
    split
    · split
      · exact ⟨rfl, Steady.refl h⟩
      · rename_i l hl
        have hpark := parkLevel_spec (F := F) (l := l) h (Steady.refl h)
        split
        · rename_i l' h' hrun
          rw [hrun] at hpark
          obtain ⟨hmap, hs⟩ := ih (low + 1) (below.set (below.length - 1 - low) l') h'
          refine ⟨hmap.trans (map_set_of_eq hl hpark.2), hpark.1.trans hs⟩
        · rename_i e h' hrun
          rw [hrun] at hpark
          exact ⟨rfl, hpark⟩
    · exact ⟨rfl, Steady.refl h⟩

/-- A level is revived on the directory it was parked with, or not at all. -/
theorem revive_cases (F : Faults) (child : Path) (held : Held) (h : Host) :
    (∃ h', revive F child held h = (.ok held.path, h') ∧ Steady h h') ∨
      ∃ e h', revive F child held h = (.error e, h') ∧ Steady h h' := by
  cases held with
  | live fd => exact .inl ⟨h, rfl, Steady.refl h⟩
  | parked key =>
    have hspec : Proc.Triple (Steady h) (revive F child (.parked key))
        (fun up h' => Steady h h' ∧ up = key) (Steady h) := by
      unfold revive
      apply Proc.Triple.bind (Q := fun _ => Steady h)
      · exact Triple.query (fun _ _ hs _ => hs.tick) fun _ hs => hs.tick
      · intro up
        apply Proc.Triple.bind (Q := fun _ => Steady h)
        · exact Triple.query (fun _ _ hs _ => hs.tick) fun _ hs => hs.tick
        · intro _
          split
          · rename_i hup
            exact Proc.Triple.pure fun _ hs => ⟨hs, hup⟩
          · exact Proc.Triple.fail fun _ hs => hs
    have hrun := hspec h (Steady.refl h)
    rcases hr : revive F child (.parked key) h with ⟨r, h'⟩
    rw [hr] at hrun
    cases r with
    | ok up => exact .inl ⟨h', by rw [hrun.2]; rfl, hrun.1⟩
    | error e => exact .inr ⟨e, h', rfl, hrun⟩

/-- The deepest level goes, or it stays and its parent hears of it. -/
theorem removeLevel_cases (F : Faults) (force : Bool) (h : Host)
    (hpath : d ++ [w.top.entry] = w.top.fd) (hv : ValidName w.top.entry) :
    (∃ h', removeLevel F force w d h = (true, h', w.report.onRemove w.top.rel) ∧
        Drops w.top.fd h h' ∧ w.top.emptied = true) ∨
      ∃ h' report, removeLevel F force w d h = (false, h', report) ∧ Steady h h' ∧
        report.removed = w.report.removed := by
  unfold removeLevel
  split
  · rename_i hemptied
    rcases unlinkAt_cases F force d true h hv with ⟨h', hrun, hd⟩ | ⟨e, h', hrun, hs, -⟩
    · left
      rw [hrun]
      exact ⟨h', rfl, hpath ▸ hd, hemptied⟩
    · right
      rw [hrun]
      exact ⟨h', _, rfl, hs, rfl⟩
  · right
    exact ⟨h, w.report, rfl, Steady.refl h, rfl⟩

end Stack

/-! ## What one turn preserves -/

/-- What holds whenever the loop is at its head, for a removal that started on `h₀`. -/
structure Inv (h₀ : Host) (d : Path) (name : Name) (w : Walk) : Prop where
  accounted : Accounted (d ++ [name]) h₀ w.host w.report.removed
  chain : Chain d name w.levels
  standing : w.host.fs.IsDir w.top.fd
  flag : w.ok = true ∨ ∃ l ∈ w.levels, l.emptied = false
  pending : ∀ l ∈ w.levels, ∀ names, l.pending = some names →
    ∀ c ∈ names, h₀.fs.get (l.fd ++ [c]) ≠ none

/-- What a removal of `d ++ [name]` that started on `h₀` answers. -/
structure Ends (h₀ : Host) (d : Path) (name : Name) (out : Outcome) : Prop where
  accounted : Accounted (d ++ [name]) h₀ out.host out.report.removed
  gone : out.gone = true ↔ out.host.fs.get (d ++ [name]) = none

/-- What is left to do at one level, in turns. -/
def Level.work (fs : Fs) (l : Level Path) : Nat :=
  match l.pending with
  | none => 3 * size fs l.fd - 1
  | some names => 1 + (names.map fun c => 3 * size fs (l.fd ++ [c])).sum

def Walk.work (fs : Fs) (w : Walk) : Nat := (w.levels.map (Level.work fs)).sum

section Turns

variable {F : Faults} {force : Bool} {d : Path} {name : Name} {h₀ h : Host} {w w' : Walk}

/-- A turn that takes nothing away and stays at its level. -/
theorem Inv.stay (hi : Inv h₀ d name w) (hs : Steady w.host w'.host)
    (hremoved : w'.report.removed = w.report.removed) (hok : w'.ok = w.ok)
    (hbelow : w'.below = w.below) (hfd : w'.top.fd = w.top.fd)
    (hentry : w'.top.entry = w.top.entry) (hrel : w'.top.rel = w.top.rel)
    (hemptied : w.top.emptied = false → w'.top.emptied = false)
    (hpending : ∀ names, w'.top.pending = some names →
      ∀ c ∈ names, h₀.fs.get (w.top.fd ++ [c]) ≠ none) : Inv h₀ d name w' where
  accounted := by
    rw [hremoved]
    exact hi.accounted.steady hs
  chain := by
    have hchain := hi.chain
    unfold Walk.levels at hchain ⊢
    rw [hbelow]
    exact hchain.change_top hfd hentry hrel
  standing := by
    rw [hfd]
    exact hs.isDir hi.standing
  flag := by
    rw [hok]
    rcases hi.flag with htrue | ⟨l, hl, hfalse⟩
    · exact .inl htrue
    · right
      rcases List.mem_cons.mp hl with rfl | hl
      · exact ⟨w'.top, List.mem_cons_self, hemptied hfalse⟩
      · exact ⟨l, List.mem_cons_of_mem _ (by rw [hbelow]; exact hl), hfalse⟩
  pending := by
    intro l hl names hnames
    rcases List.mem_cons.mp hl with rfl | hl
    · rw [hfd]
      exact hpending names hnames
    · rw [hbelow] at hl
      exact hi.pending l (List.mem_cons_of_mem _ hl) names hnames

/-- A failure that is reported keeps the invariant. -/
theorem Inv.failed (hi : Inv h₀ d name w) (hs : Steady w.host h) (rel : Path) (e : Errno) :
    Inv h₀ d name (w.failed h rel e) :=
  hi.stay hs rfl rfl rfl rfl rfl rfl (fun _ => rfl)
    (hi.pending w.top List.mem_cons_self)

/-- Going down into a directory keeps the invariant, and there is as much left to do as it holds. -/
theorem push_sound {child : Name} (hi : Inv h₀ d name w)
    (hdir : w.host.fs.IsDir (w.top.fd ++ [child])) :
    Inv h₀ d name (push F w (w.top.fd ++ [child]) child) ∧
      (push F w (w.top.fd ++ [child]) child).work h₀.fs =
        3 * size h₀.fs (w.top.fd ++ [child]) - 1 + w.work h₀.fs := by
  have hpark := parkLevels_spec F ((w.top.hold (.live w.top.fd) :: w.below).length - 1 - w.low) w.low
    (w.top.hold (.live w.top.fd) :: w.below) w.host
  have hlevels : (push F w (w.top.fd ++ [child]) child).levels =
      ⟨w.top.fd ++ [child], child, w.top.rel ++ [child], none, true⟩ :: w.levels := by
    unfold Walk.levels push
    rw [hpark.1]
    rfl
  refine ⟨⟨hi.accounted.steady hpark.2, ?_, hpark.2.isDir hdir, ?_, ?_⟩, ?_⟩
  · rw [hlevels]
    exact Chain.level rfl rfl hi.chain
  · rw [hlevels]
    rcases hi.flag with htrue | ⟨l, hl, hfalse⟩
    · exact .inl htrue
    · exact .inr ⟨l, List.mem_cons_of_mem _ hl, hfalse⟩
  · rw [hlevels]
    intro l hl names hnames
    rcases List.mem_cons.mp hl with rfl | hl
    · cases hnames
    · exact hi.pending l hl names hnames
  · unfold Walk.work
    rw [hlevels]
    rfl

/-- An entry that goes is no directory of the stack. -/
theorem Inv.removed {child : Name} (hi : Inv h₀ d name w)
    (hd : Drops (w.top.fd ++ [child]) w.host h) :
    Inv h₀ d name
      { w with host := h, report := w.report.onRemove (w.top.rel ++ [child]) } where
  accounted := by
    apply hi.accounted.drops
    rw [← List.append_assoc, ← hi.chain.fd_eq]
    exact hd
  chain := hi.chain
  standing := by
    apply isDir_of_bare hi.standing
    rw [hd.now, if_neg (by simp)]
  flag := hi.flag
  pending := hi.pending

/-- A turn that ends at the loop's head with at most `n` turns of work left. -/
def Progress (h₀ : Host) (d : Path) (name : Name) (n : Nat) (w : Walk) : Prop :=
  Inv h₀ d name w ∧ w.work h₀.fs < n

/-- Passing over an entry keeps the invariant. -/
theorem Inv.skip (hi : Inv h₀ d name w) (hs : Steady w.host h) :
    Inv h₀ d name { w with host := h } :=
  hi.stay hs rfl rfl rfl rfl rfl rfl id (hi.pending w.top List.mem_cons_self)

/-- Entering a directory, or failing to, makes progress. -/
theorem descend_sound {child : Name} {mode : Mode} {n : Nat} (hi : Inv h₀ d name w)
    (hs : Steady w.host h) (hv : ValidName child) (hsize : 0 < size h₀.fs (w.top.fd ++ [child]))
    (hn : n = w.work h₀.fs + 3 * size h₀.fs (w.top.fd ++ [child])) :
    Progress h₀ d name n (descend F force w child mode h) := by
  have hopen := opendirForRemoval_spec F force w.top.fd mode hv h hs
  unfold descend
  rcases hrun : opendirForRemoval F force w.top.fd child mode h with ⟨r, h'⟩
  rw [hrun] at hopen
  cases r with
  | ok fd =>
    obtain ⟨hs', rfl, hdir⟩ := hopen
    obtain ⟨hinv, hwork⟩ := push_sound (F := F) (hi.skip hs') hdir
    refine ⟨hinv, ?_⟩
    have hsum : (push F { w with host := h' } (w.top.fd ++ [child]) child).work h₀.fs =
        3 * size h₀.fs (w.top.fd ++ [child]) - 1 + w.work h₀.fs := hwork
    show (push F { w with host := h' } (w.top.fd ++ [child]) child).work h₀.fs < n
    omega
  | error e =>
    refine ⟨hi.failed hopen _ e, ?_⟩
    show w.work h₀.fs < n
    omega

/-- Unlinking an entry, or failing to, makes progress. -/
theorem unlinkReporting_sound {child : Name} {n : Nat} (hi : Inv h₀ d name w)
    (hs : Steady w.host h) (hv : ValidName child) (hn : w.work h₀.fs < n) :
    Progress h₀ d name n (unlinkReporting F force w child h) := by
  unfold unlinkReporting
  rcases unlinkAt_cases F force w.top.fd false h hv with ⟨h', hrun, hd⟩ | ⟨e, h', hrun, hs', -⟩
  · rw [hrun]
    exact ⟨hi.removed (hd.of_steady hs), hn⟩
  · rw [hrun]
    show Progress h₀ d name n (if e = .ENOENT then { w with host := h' }
      else w.failed h' (w.top.rel ++ [child]) e)
    split
    · exact ⟨hi.skip (hs.trans hs'), hn⟩
    · exact ⟨hi.failed (hs.trans hs') _ e, hn⟩

theorem visit_sound {child : Name} {n : Nat} (hi : Inv h₀ d name w)
    (hchild : h₀.fs.get (w.top.fd ++ [child]) ≠ none)
    (hn : n = w.work h₀.fs + 3 * size h₀.fs (w.top.fd ++ [child])) :
    Progress h₀ d name n (visit F force w child) := by
  have hsize : 0 < size h₀.fs (w.top.fd ++ [child]) := size_pos hchild
  have hlt : w.work h₀.fs < n := by omega
  obtain ⟨e₀, he₀⟩ := Option.ne_none_iff_exists'.mp hchild
  have hv : ValidName child := Fs.validName_of_get he₀
  have htick : Steady w.host w.host.tick := (Steady.refl _).tick
  unfold visit
  rcases query_cases F (·.lstatAt w.top.fd child) w.host with ⟨e, hq, -⟩ | ⟨e, hq, -⟩
  · rw [hq]
    cases e with
    | dir mode => exact descend_sound hi htick hv hsize hn
    | file ino data => exact unlinkReporting_sound hi htick hv hlt
    | symlink target => exact unlinkReporting_sound hi htick hv hlt
  · rw [hq]
    show Progress h₀ d name n (if e = .ENOENT then { w with host := w.host.tick }
      else w.failed w.host.tick (w.top.rel ++ [child]) e)
    split
    · exact ⟨hi.skip htick, hlt⟩
    · exact ⟨hi.failed htick _ e, hlt⟩

/-- The name of the level the loop is at. -/
theorem Inv.entry_valid (hi : Inv h₀ d name w) {d' : Path}
    (hpath : d' ++ [w.top.entry] = w.top.fd) : ValidName w.top.entry := by
  obtain ⟨m, hm⟩ := hi.standing
  rw [← hpath] at hm
  exact Fs.validName_of_get hm

/-- The root is left: the loop ends, and the answer is whether everything went. -/
theorem leave_root_sound (hi : Inv h₀ d name w) (hbelow : w.below = []) :
    ∃ out, leave F force d w = .error out ∧ Ends h₀ d name out := by
  have hchain := hi.chain
  unfold Walk.levels at hchain
  rw [hbelow, List.map_nil] at hchain
  cases hchain with
  | root hfd hentry hrel =>
    have hpath : d ++ [w.top.entry] = w.top.fd := by rw [hentry, hfd]
    have hroot : d ++ [name] ++ w.top.rel = w.top.fd := by rw [hfd, hrel, List.append_nil]
    have hleave : ∀ gone h' report, removeLevel F force w d w.host = (gone, h', report) →
        leave F force d w = .error ⟨w.ok && gone, h', report⟩ := by
      intro gone h' report hrun
      unfold leave
      rw [hbelow, hrun]
    rcases removeLevel_cases F force w.host hpath (hi.entry_valid hpath) with
      ⟨h', hrun, hd, hemptied⟩ | ⟨h', report, hrun, hs, hremoved⟩
    · refine ⟨_, hleave _ _ _ hrun, ?_, ?_⟩
      · exact hi.accounted.drops (by rw [hroot]; exact hd)
      · have hok : w.ok = true := by
          rcases hi.flag with htrue | ⟨l, hl, hfalse⟩
          · exact htrue
          · unfold Walk.levels at hl
            rw [hbelow, List.map_nil, List.mem_singleton] at hl
            rw [hl, hemptied] at hfalse
            cases hfalse
        have hnone : h'.fs.get (d ++ [name]) = none := by
          rw [← bare_eq_none, hd.now, hfd, if_pos rfl]
        simp [hok, hnone]
    · refine ⟨_, hleave _ _ _ hrun, ?_, ?_⟩
      · show Accounted (d ++ [name]) h₀ h' report.removed
        rw [hremoved]
        exact hi.accounted.steady hs
      · have hstays : h'.fs.get (d ++ [name]) ≠ none := by
          obtain ⟨m, hm⟩ := hs.isDir hi.standing
          rw [← hfd, hm]
          simp
        simp [hstays]

/-- The walk is back at a level and has told it whether the one below went. -/
theorem Inv.back {parent : Level Held} {below : List (Level Held)} {h' : Host} {report : Report}
    {gone : Bool} (low : Nat) (hi : Inv h₀ d name w) (hbelow : w.below = parent :: below)
    (hpending : w.top.pending = some [])
    (haccounted : Accounted (d ++ [name]) h₀ h' report.removed)
    (hstanding : h'.fs.IsDir parent.fd.path) (hgone : gone = true → w.top.emptied = true) :
    Progress h₀ d name (w.work h₀.fs)
      ⟨h', { parent.hold parent.fd.path with emptied := parent.emptied && gone }, below, low,
        w.ok && gone, report⟩ := by
  have hlevels : w.levels = w.top :: parent.settle :: below.map Level.settle := by
    unfold Walk.levels
    rw [hbelow, List.map_cons]
  have hpendings := hi.pending
  rw [hlevels] at hpendings
  refine ⟨⟨haccounted, ?_, hstanding, ?_, ?_⟩, ?_⟩
  -- the levels are the ones below, with the flag of the top alone changed
  · have hchain := hi.chain
    rw [hlevels] at hchain
    cases hchain with
    | level hfd hrel hrest =>
      apply Chain.change_top ?_ ?_ ?_ hrest
      all_goals rfl
  -- the flag is right: a level that did not go leaves the one above it not emptied
  · cases gone with
    | false =>
      right
      exact ⟨_, List.mem_cons_self, Bool.and_false _⟩
    | true =>
      rcases hi.flag with htrue | ⟨l, hl, hfalse⟩
      · left
        show (w.ok && true) = true
        rw [htrue, Bool.and_true]
      · right
        rw [hlevels] at hl
        rcases List.mem_cons.mp hl with rfl | hl
        · rw [hgone rfl] at hfalse
          cases hfalse
        · rcases List.mem_cons.mp hl with rfl | hl
          · refine ⟨_, List.mem_cons_self, ?_⟩
            show (parent.emptied && true) = false
            rw [Bool.and_true]
            exact hfalse
          · exact ⟨l, List.mem_cons_of_mem _ hl, hfalse⟩
  · intro l hl names hnames
    rcases List.mem_cons.mp hl with rfl | hl
    · exact hpendings parent.settle (by simp) names hnames
    · exact hpendings l (List.mem_cons_of_mem _ (List.mem_cons_of_mem _ hl)) names hnames
  -- the level that is left had the last of its work, the leaving itself
  · have htop : Level.work h₀.fs w.top = 1 := by
      unfold Level.work
      rw [hpending]
      rfl
    have hbefore : w.work h₀.fs = 1 + (Level.work h₀.fs parent.settle +
        ((below.map Level.settle).map (Level.work h₀.fs)).sum) := by
      unfold Walk.work
      rw [hlevels, List.map_cons, List.sum_cons, List.map_cons, List.sum_cons, htop]
    rw [hbefore]
    show Level.work h₀.fs parent.settle + ((below.map Level.settle).map (Level.work h₀.fs)).sum < _
    omega

/-- A level is left for the one above it, or the walk ends because that one cannot be reached. -/
theorem leave_level_sound {parent : Level Held} {below : List (Level Held)} (hi : Inv h₀ d name w)
    (hbelow : w.below = parent :: below) (hpending : w.top.pending = some []) :
    (∃ w', leave F force d w = .ok w' ∧ Progress h₀ d name (w.work h₀.fs) w') ∨
      ∃ out, leave F force d w = .error out ∧ Ends h₀ d name out := by
  have hchain := hi.chain
  unfold Walk.levels at hchain
  rw [hbelow, List.map_cons] at hchain
  have hroot := hchain.fd_eq
  cases hchain with
  | level hfd hrel hrest =>
    have hpath : parent.fd.path ++ [w.top.entry] = w.top.fd := hfd.symm
    have hparent : w.host.fs.IsDir parent.fd.path := by
      have hdir := hi.standing
      rw [← hpath] at hdir
      exact hdir.of_append
    have hrootdir : w.host.fs.IsDir (d ++ [name]) := by
      have hdir := hi.standing
      rw [hroot] at hdir
      exact hdir.of_append
    -- the directory above opens again, or the walk ends there
    rcases revive_cases F w.top.fd parent.fd w.host with ⟨h₁, hrevive, hs₁⟩ | ⟨e, h₁, hrevive, hs₁⟩
    · left
      have hleave : ∀ gone h' report,
          removeLevel F force w parent.fd.path h₁ = (gone, h', report) →
          ∃ low, leave F force d w = .ok
            ⟨h', { parent.hold parent.fd.path with emptied := parent.emptied && gone }, below, low,
              w.ok && gone, report⟩ := by
        intro gone h' report hrun
        refine ⟨match parent.fd with | .live _ => w.low | .parked _ => below.length, ?_⟩
        unfold leave
        rw [hbelow]
        simp only [hrevive, hrun]
      -- the level is removed, or that is refused and reported
      rcases removeLevel_cases F force h₁ hpath (hi.entry_valid hpath) with
        ⟨h', hrun, hd, hemptied⟩ | ⟨h', report, hrun, hs, hremoved⟩
      · obtain ⟨low, hleave⟩ := hleave _ _ _ hrun
        refine ⟨_, hleave, hi.back low hbelow hpending ?_ ?_ fun _ => hemptied⟩
        · apply hi.accounted.drops
          rw [← hroot]
          exact hd.of_steady hs₁
        · apply isDir_of_bare (hs₁.isDir hparent)
          rw [hd.now, ← hpath, if_neg (by simp)]
      · obtain ⟨low, hleave⟩ := hleave _ _ _ hrun
        refine ⟨_, hleave, hi.back low hbelow hpending ?_ ?_ nofun⟩
        · rw [hremoved]
          exact hi.accounted.steady (hs₁.trans hs)
        · exact hs.isDir (hs₁.isDir hparent)
    · right
      refine ⟨⟨false, h₁, w.report.onError w.top.rel e⟩, ?_, ?_, ?_⟩
      · unfold leave
        rw [hbelow]
        simp only [hrevive]
      · exact hi.accounted.steady hs₁
      · obtain ⟨m, hm⟩ := hs₁.isDir hrootdir
        simp [hm]

/-- **One turn.** The loop goes on in a state that is as good with less work left, or it ends
with an answer that is true. -/
theorem step_sound (F : Faults) (force : Bool) (hi : Inv h₀ d name w) :
    (∃ w', step F force d w = .ok w' ∧ Progress h₀ d name (w.work h₀.fs) w') ∨
      ∃ out, step F force d w = .error out ∧ Ends h₀ d name out := by
  have htick : Steady w.host w.host.tick := (Steady.refl _).tick
  have hwork : w.work h₀.fs = Level.work h₀.fs w.top +
      ((w.below.map Level.settle).map (Level.work h₀.fs)).sum := by
    unfold Walk.work Walk.levels
    rw [List.map_cons, List.sum_cons]
  have hthere : h₀.fs.get w.top.fd ≠ none := by
    apply hi.accounted.there_before
    obtain ⟨m, hm⟩ := hi.standing
    rw [hm]
    simp
  have hsize := size_pos hthere
  unfold step
  -- a level not listed yet
  cases hpending : w.top.pending with
  | none =>
    left
    have htop : Level.work h₀.fs w.top = 3 * size h₀.fs w.top.fd - 1 := by
      unfold Level.work
      rw [hpending]
    rcases query_cases F (fun fs => .ok (fs.listdir w.top.fd)) w.host with
      ⟨names, hq, hnames⟩ | ⟨e, hq, -⟩
    · refine ⟨_, by rw [hq], ?_, ?_⟩
      · refine hi.stay htick rfl rfl rfl rfl rfl rfl id ?_
        intro names' hnames' c hc
        cases hnames'
        apply hi.accounted.there_before
        rw [Except.ok.injEq] at hnames
        rw [← hnames, Fs.mem_listdir, Option.isSome_iff_ne_none] at hc
        exact hc
      · rw [Except.ok.injEq] at hnames
        -- the work of the members is less than that of the level unlisted
        have hlt := sum_size_lt hthere (hnames ▸ w.host.fs.nodup_listdir w.top.fd)
        have hsum : (names.map fun c => 3 * size h₀.fs (w.top.fd ++ [c])).sum =
            3 * (names.map fun c => size h₀.fs (w.top.fd ++ [c])).sum :=
          List.sum_map_mul_left names (fun c => size h₀.fs (w.top.fd ++ [c])) 3
        show 1 + (names.map fun c => 3 * size h₀.fs (w.top.fd ++ [c])).sum +
          ((w.below.map Level.settle).map (Level.work h₀.fs)).sum < _
        omega
    -- a refused listing leaves no member to visit
    · refine ⟨_, by rw [hq], ?_, ?_⟩
      · exact hi.stay htick rfl rfl rfl rfl rfl rfl (fun _ => rfl) fun names hnames c hc => by
          cases hnames
          cases hc
      · show 1 + 0 + ((w.below.map Level.settle).map (Level.work h₀.fs)).sum < _
        omega
  | some names =>
    cases names with
    -- the level is done
    | nil =>
      cases hbelow : w.below with
      | nil => exact .inr (leave_root_sound hi hbelow)
      | cons parent below => exact leave_level_sound hi hbelow hpending
    -- the next member
    | cons child rest =>
      left
      refine ⟨_, rfl, ?_⟩
      have hchildren := hi.pending w.top List.mem_cons_self _ hpending
      have hinv : Inv h₀ d name { w with top := { w.top with pending := some rest } } := by
        refine hi.stay (Steady.refl _) rfl rfl rfl rfl rfl rfl id ?_
        intro names hnames c hc
        cases hnames
        exact hchildren c (List.mem_cons_of_mem _ hc)
      apply visit_sound hinv (hchildren child List.mem_cons_self)
      have htop : Level.work h₀.fs w.top = 1 + (3 * size h₀.fs (w.top.fd ++ [child]) +
          (rest.map fun c => 3 * size h₀.fs (w.top.fd ++ [c])).sum) := by
        unfold Level.work
        simp only [hpending, List.map_cons, List.sum_cons]
      rw [hwork, htop]
      show _ = 1 + (rest.map fun c => 3 * size h₀.fs (w.top.fd ++ [c])).sum +
        ((w.below.map Level.settle).map (Level.work h₀.fs)).sum + _
      show _ = _ + 3 * size h₀.fs (w.top.fd ++ [child])
      omega

/-- A walk that stops where it stands has not removed the named entry. -/
theorem Inv.ends (hi : Inv h₀ d name w) : Ends h₀ d name ⟨false, w.host, w.report⟩ := by
  refine ⟨hi.accounted, ?_⟩
  have hdir := hi.standing
  rw [hi.chain.fd_eq] at hdir
  obtain ⟨m, hm⟩ := hdir.of_append
  simp [hm]

/-- **A whole run.** With as many turns as there is work, the loop ends. -/
theorem run_sound (F : Faults) (force listens : Bool) (n : Nat) (hi : Inv h₀ d name w)
    (hn : w.work h₀.fs < n) :
    ∃ out, run F force listens d n w = some out ∧ Ends h₀ d name out := by
  induction n generalizing w with
  | zero => cases hn
  | succ n ih =>
    unfold run
    rcases step_sound F force hi with ⟨w', hstep, hi', hwork⟩ | ⟨out, hstep, hends⟩
    · rw [hstep]
      show ∃ out, (if listens = false ∧ w'.report.errors ≠ [] then
        some ⟨false, w'.host, w'.report⟩ else run F force listens d n w') = some out ∧ _
      split
      · exact ⟨_, rfl, hi'.ends⟩
      · exact ih hi' (by omega)
    · rw [hstep]
      exact ⟨out, rfl, hends⟩

end Turns

/-! ## The removal -/

section Removal

variable {h : Host}

/-- A directory that was seen is walked. -/
theorem rmtreeDir_sound (F : Faults) (force listens : Bool) (d : Path) {name : Name} {h h₁ : Host}
    (mode : Mode) (hv : ValidName name) (hs : Steady h h₁) (hdir : h.fs.IsDir (d ++ [name])) :
    ∃ out, rmtreeDir F force listens d name mode h₁ = some out ∧ Ends h d name out := by
  unfold rmtreeDir
  have hopen := opendirForRemoval_spec F force d mode hv h₁ (Steady.refl h₁)
  rcases hrun : opendirForRemoval F force d name mode h₁ with ⟨r, h₂⟩
  rw [hrun] at hopen
  cases r with
  | ok fd =>
    obtain ⟨hs₂, rfl, hdir₂⟩ := hopen
    have hinv : Inv h₂ d name
        ⟨h₂, ⟨d ++ [name], name, [], none, true⟩, [], 1, true, .empty⟩ := by
      refine ⟨Accounted.start (Steady.refl h₂), .root rfl rfl rfl, hdir₂, .inl rfl, ?_⟩
      intro l hl names hnames
      rw [List.mem_singleton.mp hl] at hnames
      cases hnames
    obtain ⟨out, hout, hends⟩ := run_sound F force listens (turns h₂.fs) hinv (by
      have hsize := size_le h₂.fs (d ++ [name])
      show 3 * size h₂.fs (d ++ [name]) - 1 + 0 < 3 * h₂.fs.table.keys.length + 1
      omega)
    exact ⟨out, hout, hends.accounted.of_steady (hs.trans hs₂), hends.gone⟩
  | error e =>
    refine ⟨_, rfl, Accounted.start (hs.trans hopen), ?_⟩
    obtain ⟨m, hm⟩ := (hs.trans hopen).isDir hdir
    simp [hm]

/-- Anything else is unlinked. -/
theorem rmtreeOther_sound (F : Faults) (force : Bool) (d : Path) {name : Name} {h h₁ : Host}
    (hv : ValidName name) (hs : Steady h h₁) (hthere : h.fs.get (d ++ [name]) ≠ none) :
    ∃ out, rmtreeOther F force d name h₁ = some out ∧ Ends h d name out := by
  unfold rmtreeOther
  rcases unlinkAt_cases F force d false h₁ hv with ⟨h₂, hrun, hd⟩ | ⟨e, h₂, hrun, hs₂, hmissing⟩
  · rw [hrun]
    have hself : d ++ [name] = d ++ [name] ++ [] := (List.append_nil _).symm
    refine ⟨_, rfl, (Accounted.start hs).drops (hself ▸ hd), ?_⟩
    have hnone : h₂.fs.get (d ++ [name]) = none := by
      rw [← bare_eq_none, hd.now, if_pos rfl]
    simp [hnone]
  · rw [hrun]
    have hne : e ≠ .ENOENT := fun he => hthere (hs.get_eq_none.mp (hmissing he))
    refine ⟨_, if_neg hne, Accounted.start (hs.trans hs₂), ?_⟩
    have hstays : h₂.fs.get (d ++ [name]) ≠ none := fun hnone =>
      hthere ((hs.trans hs₂).get_eq_none.mp hnone)
    simp [hstays]

/-- The kernel lets the entry be looked for, or there is one. -/
def Seen (F : Faults) (d : Path) (name : Name) (h : Host) : Prop :=
  h.fs.get (d ++ [name]) ≠ none ∨ F h.calls = none

/-- Every removal ends, and what it answers and reports is so. Only where the kernel refuses to
look for an entry that is not there is the answer `false` for a missing entry. -/
theorem rmtreeAt_sound (F : Faults) (force listens : Bool) (d : Path) {name : Name} (h : Host)
    (hv : ValidName name) : ∃ out, rmtreeAt F force listens d name h = some out ∧
      Accounted (d ++ [name]) h out.host out.report.removed ∧
      (Seen F d name h → (out.gone = true ↔ out.host.fs.get (d ++ [name]) = none)) := by
  have htick : Steady h h.tick := (Steady.refl h).tick
  have hl : Fs.locate d name = d ++ [name] := Fs.locate_valid hv
  unfold rmtreeAt
  cases hF : F h.calls with
  | some e =>
    rw [query_of_refused hF]
    refine ⟨_, if_neg e.2, Accounted.start htick, ?_⟩
    intro hseen
    rcases hseen with hthere | hallowed
    · simp [hthere]
    · rw [hF] at hallowed
      cases hallowed
  | none =>
    rw [query_of_allowed hF]
    unfold Fs.lstatAt
    rw [hl]
    cases hget : h.fs.get (d ++ [name]) with
    | none =>
      refine ⟨_, if_pos rfl, Accounted.start htick, ?_⟩
      intro _
      simp [hget]
    | some e =>
      have hends : ∀ o : Option Outcome, (∃ out, o = some out ∧ Ends h d name out) →
          ∃ out, o = some out ∧ Accounted (d ++ [name]) h out.host out.report.removed ∧
            (Seen F d name h → (out.gone = true ↔ out.host.fs.get (d ++ [name]) = none)) := by
        rintro o ⟨out, hout, hends⟩
        exact ⟨out, hout, hends.accounted, fun _ => hends.gone⟩
      apply hends
      cases e with
      | dir mode => exact rmtreeDir_sound F force listens d mode hv htick ⟨mode, hget⟩
      | file ino data => exact rmtreeOther_sound F force d hv htick (by rw [hget]; simp)
      | symlink target => exact rmtreeOther_sound F force d hv htick (by rw [hget]; simp)

/-- A kernel that does not let the `n`-th call through. -/
def refuseOnly (n : Nat) : Faults := fun k => if k = n then some ⟨.EACCES, by decide⟩ else none

end Removal

end ProotDistro.Removal
