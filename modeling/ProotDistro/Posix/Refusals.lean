import ProotDistro.Posix.Namei

/-!
# Processes that may not do everything

The file system of `Posix.Fs` refuses a call for what stands at the path only. A process that may not
search, list, read or write an entry is refused more: which calls these are is given by the entry's
path, so a theorem over every `Refusals` is one over every pattern of permissions.

* **`lstatIn`**, **`openDirIn`**, **`listdirIn`**, **`readlinkIn`**, **`readIn`** — the calls.
* **`openDirsIn`** — directories opened one off the other.
* **`lstatPathIn`**, **`readlinkPathIn`** — the two that are handed a path of several components.
* **`realpathIn`** — `os.path.realpath`, which takes what it may not look at for no link.
* **`Refusals.reaches`** — a walk that lists directories and goes down into them gets to an entry.
* **`Refusals.openable`** — how far a walk gets that opens the directories it is told.
-/

namespace Posix

/-- A call on the entry at a path. -/
inductive Call where
  | lstat
  | readlink
  /-- open a directory -/
  | opendir
  /-- list a directory that is open -/
  | listdir
  /-- open a regular file for reading -/
  | read
  | unlink
  /-- make a file under a free name -/
  | create
  /-- make a symbolic link under a free name -/
  | symlink
  /-- write to a file that is open -/
  | write
  deriving DecidableEq

/-- Which of them are refused for a reason of the kernel's own. -/
abbrev Refusals := Call → Path → Bool

/-- Nothing is refused. -/
def noRefusals : Refusals := fun _ _ => false

namespace Fs

def lstatIn (R : Refusals) (fs : Fs) (d : Path) (name : Name) : Except Errno Entry :=
  if R .lstat (locate d name) then .error .EACCES else fs.lstatAt d name

def openDirIn (R : Refusals) (fs : Fs) (d : Path) (name : Name) : Except Errno Path :=
  if R .opendir (locate d name) then .error .EACCES else fs.openDirAt d name

/-- A walk down directories that makes nothing. -/
def openDirsIn (R : Refusals) (fs : Fs) (d : Path) (parts : List Name) : Option Path :=
  parts.foldlM (fun fd name => (fs.openDirIn R fd name).toOption) d

/-- The names in a directory; one that may not be listed yields none. -/
def listdirIn (R : Refusals) (fs : Fs) (d : Path) : List Name :=
  if R .listdir d then [] else fs.listdir d

/-- `readlink` of an entry that `lstat` saw as a link with this target. -/
def readlinkIn (R : Refusals) (d : Path) (name : Name) (target : List Char) : Option (List Char) :=
  if R .readlink (d ++ [name]) then none else some target

/-- The data of an entry that `lstat` saw as this regular file, read through a descriptor. -/
def readIn (R : Refusals) (d : Path) (name : Name) (data : FileData) : Option FileData :=
  if R .read (d ++ [name]) then none else some data

/-- `lstat` on a path below the descriptor `d`. -/
def lstatPathIn (R : Refusals) (fs : Fs) (d comps : Path) : Except Errno Entry :=
  if R .lstat (d ++ comps) then .error .EACCES else fs.lstatPath d comps

/-- `readlink` on a path below the descriptor `d`. -/
def readlinkPathIn (R : Refusals) (fs : Fs) (d comps : Path) : Except Errno (List Char) :=
  if R .readlink (d ++ comps) then .error .EACCES else fs.readlinkPath d comps

/-! ## `os.path.realpath`

A link being resolved is `active`; meeting it again is a loop, which ends the resolution
with what is left joined on as it stands. The links of a chain are different entries, so the
number of entries bounds how deep the resolution nests. -/

def realpathWith (R : Refusals) (fs : Fs) (follow : List Path → Path → List Name → Path × Bool)
    (active : List Path) : Path → List Name → Path × Bool
  | path, [] => (path, true)
  | path, name :: rest =>
    if name = [] ∨ name = ['.'] then realpathWith R fs follow active path rest
    else if name = ['.', '.'] then realpathWith R fs follow active path.dropLast rest
    else
      match fs.lstatPathIn R [] (path ++ [name]) with
      | .ok (.symlink target) =>
        if path ++ [name] ∈ active then (path ++ name :: rest, false)
        else
          match follow ((path ++ [name]) :: active)
            (if target.head? = some '/' then [] else path) (splitPath target) with
          | (resolved, true) => realpathWith R fs follow active resolved rest
          | (resolved, false) => (resolved ++ rest, false)
      | _ => realpathWith R fs follow active (path ++ [name]) rest

def realpathNested (R : Refusals) (fs : Fs) : Nat → List Path → Path → List Name → Path × Bool
  | 0 => realpathWith R fs fun _ path rest => (path ++ rest, false)
  | n + 1 => realpathWith R fs (realpathNested R fs n)

def realpathIn (R : Refusals) (fs : Fs) (path : Path) : Path :=
  (realpathNested R fs fs.table.keys.length [] [] path).1

/-! ## What the calls say -/

section Looks

variable {R : Refusals} {fs : Fs} {d : Path} {name : Name} {e : Entry}

/-- What `lstat` says of an entry that is there. -/
theorem lstatIn_of_get (h : fs.get (d ++ [name]) = some e) :
    fs.lstatIn R d name = if R .lstat (d ++ [name]) then .error .EACCES else .ok e := by
  have hv := validName_of_get h
  unfold lstatIn lstatAt
  rw [locate_valid hv, h]

/-- A directory that is there is opened under its own path, or refused. -/
theorem openDirIn_of_isDir (h : fs.IsDir (d ++ [name])) :
    fs.openDirIn R d name =
      if R .opendir (d ++ [name]) then .error .EACCES else .ok (d ++ [name]) := by
  obtain ⟨m, hm⟩ := h
  unfold openDirIn openDirAt
  rw [locate_valid (validName_of_get hm), hm]

/-- A listing has the names that are there, if it is not refused. -/
theorem mem_listdirIn : name ∈ fs.listdirIn R d ↔ R .listdir d = false ∧ (fs.get (d ++ [name])).isSome := by
  unfold listdirIn
  cases hlist : R .listdir d with
  | true => simp
  | false => simp [mem_listdir]

/-- A listing names nothing twice, refused or not. -/
theorem nodup_listdirIn (R : Refusals) (fs : Fs) (d : Path) : (fs.listdirIn R d).Nodup := by
  unfold listdirIn
  split
  · exact List.nodup_nil
  · exact nodup_listdir fs d

/-- Where nothing is refused the calls are those of the file system. -/
@[simp] theorem lstatIn_noRefusals : fs.lstatIn noRefusals d name = fs.lstatAt d name := rfl

@[simp] theorem openDirIn_noRefusals : fs.openDirIn noRefusals d name = fs.openDirAt d name := rfl

@[simp] theorem listdirIn_noRefusals : fs.listdirIn noRefusals d = fs.listdir d := rfl

@[simp] theorem lstatPathIn_noRefusals {comps : Path} :
    fs.lstatPathIn noRefusals d comps = fs.lstatPath d comps := rfl

@[simp] theorem readlinkPathIn_noRefusals {comps : Path} :
    fs.readlinkPathIn noRefusals d comps = fs.readlinkPath d comps := rfl

end Looks

end Fs

namespace Refusals

/-- A walk from the directory `d` gets to what is at `r` below it: it may list every directory on the way,
look at every entry and open every directory it goes on through. -/
def reaches (R : Refusals) : Path → Path → Bool
  | _, [] => true
  | d, c :: r =>
    !R .listdir d && !R .lstat (d ++ [c]) && (r.isEmpty || (!R .opendir (d ++ [c]) && R.reaches (d ++ [c]) r))

/-- The levels of the way from `d` down `r`, up to the first that may not be opened. -/
def openable (R : Refusals) : Path → Path → Path
  | _, [] => []
  | d, c :: r => if R .opendir (d ++ [c]) then [] else c :: R.openable (d ++ [c]) r

/-- Each of them may be. -/
def Opens (R : Refusals) (d r : Path) : Prop := R.openable d r = r

instance (R : Refusals) (d r : Path) : Decidable (R.Opens d r) :=
  inferInstanceAs (Decidable (_ = _))

variable {R : Refusals} {d r : Path} {c : Name}

@[simp] theorem reaches_nil : R.reaches d [] = true := rfl

/-- The last step of a walk lists its directory and looks at the entry. -/
theorem reaches_singleton :
    R.reaches d [c] = true ↔ R .listdir d = false ∧ R .lstat (d ++ [c]) = false := by
  simp [reaches]

/-- A walk that goes on opens the directory as well. -/
theorem reaches_cons (hr : r ≠ []) :
    R.reaches d (c :: r) = true ↔ R .listdir d = false ∧ R .lstat (d ++ [c]) = false ∧
      R .opendir (d ++ [c]) = false ∧ R.reaches (d ++ [c]) r = true := by
  have hempty : r.isEmpty = false := by
    cases r with
    | nil => exact absurd rfl hr
    | cons x r => rfl
  rw [reaches, hempty, Bool.false_or]
  simp only [Bool.and_eq_true, Bool.not_eq_true']
  exact ⟨fun ⟨⟨a, b⟩, c, d⟩ => ⟨a, b, c, d⟩, fun ⟨a, b, c, d⟩ => ⟨⟨a, b⟩, c, d⟩⟩

/-- The directory itself is open already. -/
theorem opens_nil : R.Opens d [] := rfl

/-- A way that goes on is open at its first level and from there on. -/
theorem opens_cons : R.Opens d (c :: r) ↔ R .opendir (d ++ [c]) = false ∧ R.Opens (d ++ [c]) r := by
  unfold Opens
  rw [openable]
  cases R .opendir (d ++ [c]) <;> simp

/-- What may be opened is a part of the way. -/
theorem openable_prefix (R : Refusals) (d r : Path) : R.openable d r <+: r := by
  induction r generalizing d with
  | nil => exact List.prefix_refl _
  | cons c r ih =>
    rw [openable]
    split
    · exact List.nil_prefix
    · exact List.cons_prefix_cons.mpr ⟨rfl, ih (d ++ [c])⟩

/-- What a walk gets to is looked at, below directories it opened. -/
theorem opens_of_reaches {p : Path} (h : R.reaches d (p ++ [c]) = true) :
    R.Opens d p ∧ R .lstat (d ++ (p ++ [c])) = false := by
  induction p generalizing d with
  | nil => exact ⟨opens_nil, (reaches_singleton.mp h).2⟩
  | cons x p ih =>
    rw [List.cons_append, reaches_cons (by simp)] at h
    obtain ⟨-, -, hopen, hrest⟩ := h
    obtain ⟨hopens, hlstat⟩ := ih hrest
    exact ⟨opens_cons.mpr ⟨hopen, hopens⟩, by simpa using hlstat⟩

end Refusals

namespace Fs

variable {R : Refusals} {fs : Fs} {d fd parts : Path}

/-- Ordinary names are opened under their own path, or the walk ends. -/
theorem openDirsIn_eq (hv : ∀ c ∈ parts, ValidName c) (h : fs.openDirsIn R d parts = some fd) :
    fd = d ++ parts := by
  unfold openDirsIn at h
  induction parts generalizing d with
  | nil =>
    rw [List.append_nil]
    exact (Option.some.inj h).symm
  | cons c parts ih =>
    rw [List.foldlM_cons, Option.bind_eq_bind, Option.bind_eq_some_iff] at h
    obtain ⟨nxt, hopen, hrest⟩ := h
    have hnxt : nxt = d ++ [c] := by
      unfold openDirIn openDirAt at hopen
      rw [locate_valid (hv c (by simp))] at hopen
      split at hopen
      · cases hopen
      · split at hopen
        · exact (Option.some.inj hopen).symm
        · cases hopen
        · cases hopen
    rw [ih (fun x hx => hv x (by simp [hx])) hrest, hnxt, List.append_assoc]
    rfl

/-- A directory that is there is arrived at where every level on the way may be opened. -/
theorem openDirsIn_of_isDir (h : fs.IsDir (d ++ parts)) :
    fs.openDirsIn R d parts = if R.Opens d parts then some (d ++ parts) else none := by
  unfold openDirsIn
  induction parts generalizing d with
  | nil => simp [Refusals.opens_nil]
  | cons c parts ih =>
    have happ : d ++ c :: parts = d ++ [c] ++ parts := by simp
    rw [happ] at h ⊢
    rw [List.foldlM_cons, openDirIn_of_isDir h.of_append]
    cases hopen : R .opendir (d ++ [c]) with
    | true => simp [Refusals.opens_cons, hopen, Except.toOption]
    | false =>
      simp only [Refusals.opens_cons, hopen, true_and, Bool.false_eq_true, if_false]
      exact ih h

end Fs

end Posix
