import ProotDistro.Lib.Result
import ProotDistro.Lib.Text
import Mathlib.Data.List.AList
import Mathlib.Data.List.Lex
import Mathlib.Data.List.Sort
import Mathlib.Data.String.Basic
import Mathlib.Tactic

/-!
# A file system as the system calls see it

A file system is a finite map from absolute paths to entries: directories, regular files
(an inode number and the inode's data, so that two names may share one inode) and symbolic
links. The type carries its own well-formedness: the root is a directory and every entry
stands in one, so a dangling path cannot be built and no operation re-proves it.

* A name is the byte string the kernel is given, one `Char` a byte.
* Directory descriptors are the absolute path of the directory they were opened on.
* A system call either succeeds or leaves the file system as it was: `Except Errno Fs`.
  Access checks are not part of the model, a call fails for what stands at the path only.

Every call comes with what it does to `Fs.get`; nothing later looks into the table.
-/

namespace Posix

abbrev Name := List Char

abbrev Path := List Name

/-- The bits `S_IMODE` keeps: permissions plus setuid, setgid and sticky. -/
abbrev Mode := BitVec 12

abbrev Bytes := List UInt8

inductive Errno where
  | ENOENT | EEXIST | ENOTDIR | EISDIR | ELOOP | ENOTEMPTY | EINVAL | EACCES | EBUSY | EPERM
  | ESTALE | EXDEV
  deriving DecidableEq, Repr

/-- What an inode of a regular file holds; times are nanoseconds. -/
structure FileData where
  content : Bytes
  mode : Mode
  mtime : Int
  deriving DecidableEq

inductive Entry where
  | dir (mode : Mode)
  | file (ino : Nat) (data : FileData)
  | symlink (target : List Char)
  deriving DecidableEq

/-- An entry without the identity and the time of its inode. -/
inductive Shape where
  | dir (mode : Mode)
  | file (content : Bytes) (mode : Mode)
  | symlink (target : List Char)
  deriving DecidableEq

def Entry.isDir : Entry → Bool
  | .dir _ => true
  | _ => false

def Entry.isLink : Entry → Bool
  | .symlink _ => true
  | _ => false

def Entry.shape : Entry → Shape
  | .dir mode => .dir mode
  | .file _ data => .file data.content data.mode
  | .symlink target => .symlink target

def Shape.isDir : Shape → Bool
  | .dir _ => true
  | _ => false

/-- A name an entry of a directory can carry. -/
structure ValidName (name : Name) : Prop where
  nonempty : name ≠ []
  not_dot : name ≠ ['.']
  not_dotdot : name ≠ ['.', '.']
  no_slash : '/' ∉ name

instance (name : Name) : Decidable (ValidName name) :=
  decidable_of_iff (name ≠ [] ∧ name ≠ ['.'] ∧ name ≠ ['.', '.'] ∧ '/' ∉ name)
    ⟨fun ⟨a, b, c, d⟩ => ⟨a, b, c, d⟩, fun ⟨a, b, c, d⟩ => ⟨a, b, c, d⟩⟩

/-- A file system: a root directory, and every other entry under a valid name inside a
directory. No link leads to the empty path. -/
structure Fs where
  table : AList fun _ : Path => Entry
  root_dir : ∃ m, table.lookup [] = some (.dir m)
  parent_dir : ∀ p n e, table.lookup (p ++ [n]) = some e → ∃ m, table.lookup p = some (.dir m)
  valid_name : ∀ p n e, table.lookup (p ++ [n]) = some e → ValidName n
  link_target : ∀ p t, table.lookup p = some (.symlink t) → t ≠ []

namespace Fs

/-- What stands at an absolute path, no link followed. -/
def get (fs : Fs) (p : Path) : Option Entry := fs.table.lookup p

def shape (fs : Fs) (p : Path) : Option Shape := (fs.get p).map Entry.shape

def IsDir (fs : Fs) (p : Path) : Prop := ∃ m, fs.get p = some (.dir m)

instance (fs : Fs) (p : Path) : Decidable (fs.IsDir p) :=
  match h : fs.get p with
  | some (.dir m) => .isTrue ⟨m, h⟩
  | some (.file _ _) => .isFalse fun ⟨m, hm⟩ => by simp [h] at hm
  | some (.symlink _) => .isFalse fun ⟨m, hm⟩ => by simp [h] at hm
  | none => .isFalse fun ⟨m, hm⟩ => by simp [h] at hm

/-- The root is a directory, always. -/
theorem isDir_root (fs : Fs) : fs.IsDir [] := fs.root_dir

/-- What has an entry has a directory above it. -/
theorem isDir_parent {fs : Fs} {p : Path} {n : Name} {e : Entry}
    (h : fs.get (p ++ [n]) = some e) : fs.IsDir p :=
  fs.parent_dir p n e h

/-- The name of an entry is the name of a file. -/
theorem validName_of_get {fs : Fs} {p : Path} {n : Name} {e : Entry}
    (h : fs.get (p ++ [n]) = some e) : ValidName n :=
  fs.valid_name p n e h

/-- No link has the empty target. -/
theorem target_of_get {fs : Fs} {p : Path} {t : List Char} (h : fs.get p = some (.symlink t)) : t ≠ [] :=
  fs.link_target p t h

/-- A directory is an entry. -/
theorem IsDir.isSome {fs : Fs} {p : Path} (h : fs.IsDir p) : (fs.get p).isSome := by
  obtain ⟨m, hm⟩ := h
  rw [hm]; rfl

/-- Whatever stands below a path makes every level above it a directory. -/
theorem isDir_of_append {fs : Fs} {p r : Path} {e : Entry} (hr : r ≠ [])
    (h : fs.get (p ++ r) = some e) : fs.IsDir p := by
  induction r using List.reverseRecOn generalizing e with
  | nil => exact absurd rfl hr
  | append_singleton r n ih =>
    rw [← List.append_assoc] at h
    obtain ⟨m, hm⟩ := isDir_parent h
    by_cases hr' : r = []
    · exact ⟨m, by simpa [hr'] using hm⟩
    · exact ih hr' hm

/-- The levels above a directory are directories. -/
theorem IsDir.of_append {fs : Fs} {p r : Path} (h : fs.IsDir (p ++ r)) : fs.IsDir p := by
  obtain ⟨m, hm⟩ := h
  by_cases hr : r = []
  · exact ⟨m, by rw [← hm, hr, List.append_nil]⟩
  · exact isDir_of_append hr hm

/-- Where anything stands, its path consists of ordinary names. -/
theorem validName_of_get_append {fs : Fs} {p r : Path} {e : Entry} (h : fs.get (p ++ r) = some e) :
    ∀ c ∈ r, ValidName c := by
  intro c hc
  obtain ⟨pre, post, rfl⟩ := List.append_of_mem hc
  have happ : p ++ (pre ++ c :: post) = p ++ pre ++ [c] ++ post := by simp
  rw [happ] at h
  by_cases hpost : post = []
  · rw [hpost, List.append_nil] at h
    exact validName_of_get h
  · obtain ⟨m, hm⟩ := isDir_of_append hpost h
    exact validName_of_get hm

/-- Nothing stands below a path that is no directory. -/
theorem get_append_eq_none {fs : Fs} {p r : Path} (hr : r ≠ []) (h : ¬ fs.IsDir p) :
    fs.get (p ++ r) = none := by
  cases hg : fs.get (p ++ r) with
  | none => rfl
  | some e => exact absurd (isDir_of_append hr hg) h

/-- The shape of an entry is the shape there. -/
theorem shape_of_get {fs : Fs} {p : Path} {e : Entry} (h : fs.get p = some e) :
    fs.shape p = some e.shape := by
  unfold shape
  rw [h]
  rfl

/-- There is no shape where there is no entry. -/
theorem shape_eq_none {fs : Fs} {p : Path} : fs.shape p = none ↔ fs.get p = none := by
  unfold shape
  rw [Option.map_eq_none_iff]

/-- A directory is known by its shape. -/
theorem isDir_iff_shape {fs : Fs} {p : Path} : fs.IsDir p ↔ ∃ m, fs.shape p = some (.dir m) := by
  constructor
  · rintro ⟨m, hm⟩
    exact ⟨m, shape_of_get hm⟩
  · rintro ⟨m, hm⟩
    obtain ⟨e, he, hshape⟩ := Option.map_eq_some_iff.mp hm
    cases e with
    | dir m' => exact ⟨m', he⟩
    | file i d => cases hshape
    | symlink t => cases hshape

/-- What holds of every entry in the table holds of whatever stands at a path. -/
theorem forall_get {fs : Fs} {P : Path → Entry → Prop}
    (h : ∀ x ∈ fs.table.entries, P x.1 x.2) {p : Path} {e : Entry} (hp : fs.get p = some e) :
    P p e :=
  h ⟨p, e⟩ (List.of_mem_dlookup hp)

/-! ## The two ways the table changes -/

/-- Set the entry at `p`. A directory may only be overwritten by a directory. -/
def put (fs : Fs) (p : Path) (e : Entry) (hparent : p ≠ [] → fs.IsDir p.dropLast)
    (hname : ∀ r n, p = r ++ [n] → ValidName n) (hdir : fs.IsDir p → e.isDir = true)
    (hlink : e ≠ .symlink []) : Fs where
  table := fs.table.insert p e
  root_dir := by
    by_cases hp : p = []
    · subst hp
      have he := hdir fs.isDir_root
      cases e with
      | dir m => exact ⟨m, AList.lookup_insert _⟩
      | file _ _ => cases he
      | symlink _ => cases he
    · rw [AList.lookup_insert_ne (Ne.symm hp)]
      exact fs.root_dir
  parent_dir := by
    intro q n e' h
    have hq : fs.IsDir q := by
      by_cases hpq : q ++ [n] = p
      · have hne : p ≠ [] := by rw [← hpq]; simp
        have := hparent hne
        rwa [← hpq, List.dropLast_concat] at this
      · rw [AList.lookup_insert_ne hpq] at h
        exact fs.parent_dir q n e' h
    by_cases hpq : q = p
    · subst hpq
      have he := hdir hq
      cases e with
      | dir m => exact ⟨m, AList.lookup_insert _⟩
      | file _ _ => cases he
      | symlink _ => cases he
    · rw [AList.lookup_insert_ne hpq]
      exact hq
  valid_name := by
    intro q n e' h
    by_cases hpq : q ++ [n] = p
    · exact hname q n hpq.symm
    · rw [AList.lookup_insert_ne hpq] at h
      exact fs.valid_name q n e' h
  link_target := by
    intro q t h
    by_cases hpq : q = p
    · subst hpq
      rw [AList.lookup_insert] at h
      cases h
      rintro rfl
      exact hlink rfl
    · rw [AList.lookup_insert_ne hpq] at h
      exact fs.link_target q t h

/-- What an entry's insertion changes is its own path. -/
theorem get_put (fs : Fs) (p : Path) (e : Entry) (h₁ : p ≠ [] → fs.IsDir p.dropLast)
    (h₂ : ∀ r n, p = r ++ [n] → ValidName n) (h₃ : fs.IsDir p → e.isDir = true)
    (h₄ : e ≠ .symlink []) (q : Path) :
    (fs.put p e h₁ h₂ h₃ h₄).get q = if q = p then some e else fs.get q := by
  unfold get put
  split
  · subst q; exact AList.lookup_insert _
  · exact AList.lookup_insert_ne ‹_›

/-- Take away the entry at `p`, which must not be the root and must have nothing below it. -/
def drop (fs : Fs) (p : Path) (hp : p ≠ []) (hleaf : ∀ n, fs.get (p ++ [n]) = none) : Fs where
  table := fs.table.erase p
  root_dir := by
    rw [AList.lookup_erase_ne (Ne.symm hp)]
    exact fs.root_dir
  parent_dir := by
    intro q n e h
    have hpq : q ++ [n] ≠ p := by
      rintro rfl
      rw [AList.lookup_erase] at h
      cases h
    rw [AList.lookup_erase_ne hpq] at h
    have hq : q ≠ p := by
      rintro rfl
      exact absurd (hleaf n) (by unfold get; rw [h]; simp)
    rw [AList.lookup_erase_ne hq]
    exact fs.parent_dir q n e h
  valid_name := by
    intro q n e h
    have hpq : q ++ [n] ≠ p := by
      rintro rfl
      rw [AList.lookup_erase] at h
      cases h
    rw [AList.lookup_erase_ne hpq] at h
    exact fs.valid_name q n e h
  link_target := by
    intro q t h
    have hpq : q ≠ p := by
      rintro rfl
      rw [AList.lookup_erase] at h
      cases h
    rw [AList.lookup_erase_ne hpq] at h
    exact fs.link_target q t h

/-- What a removal changes is its own path. -/
theorem get_drop (fs : Fs) (p : Path) (hp : p ≠ []) (hleaf : ∀ n, fs.get (p ++ [n]) = none)
    (q : Path) : (fs.drop p hp hleaf).get q = if q = p then none else fs.get q := by
  unfold get drop
  split
  · subst q; exact AList.lookup_erase _ _
  · exact AList.lookup_erase_ne ‹_›

/-- The table with every entry changed in place. -/
def mapTable (g : Entry → Entry) (t : AList fun _ : Path => Entry) : AList fun _ : Path => Entry where
  entries := t.entries.map (Sigma.map id fun _ => g)
  nodupKeys := by
    unfold List.NodupKeys List.keys
    rw [List.map_map]
    exact t.nodupKeys

/-- A map over the table is a map over what stands at each path. -/
theorem lookup_mapTable (g : Entry → Entry) (t : AList fun _ : Path => Entry) (p : Path) :
    (mapTable g t).lookup p = (t.lookup p).map g :=
  List.dlookup_map₂ (γ := fun _ => Entry) (δ := fun _ => Entry) (f := fun _ => g) p

/-- A change confined to the inode `ino`. -/
def onInode (ino : Nat) (f : FileData → FileData) : Entry → Entry
  | .file i d => if i = ino then .file i (f d) else .file i d
  | e => e

/-- Change what the inode `ino` holds; every name of it sees the change. -/
def mapInode (fs : Fs) (ino : Nat) (f : FileData → FileData) : Fs where
  table := mapTable (onInode ino f) fs.table
  root_dir := by
    obtain ⟨m, hm⟩ := fs.root_dir
    exact ⟨m, by rw [lookup_mapTable, hm]; rfl⟩
  parent_dir := by
    intro p n e h
    rw [lookup_mapTable] at h
    obtain ⟨e', he', -⟩ := Option.map_eq_some_iff.mp h
    obtain ⟨m, hm⟩ := fs.parent_dir p n e' he'
    exact ⟨m, by rw [lookup_mapTable, hm]; rfl⟩
  valid_name := by
    intro p n e h
    rw [lookup_mapTable] at h
    obtain ⟨e', he', -⟩ := Option.map_eq_some_iff.mp h
    exact fs.valid_name p n e' he'
  link_target := by
    intro p t h
    rw [lookup_mapTable] at h
    obtain ⟨e', he', hmap⟩ := Option.map_eq_some_iff.mp h
    cases e' with
    | dir m => cases hmap
    | symlink t' =>
      cases hmap
      exact fs.link_target p t he'
    | file i d =>
      rw [onInode] at hmap
      split at hmap
      · cases hmap
      · cases hmap

/-- A change of an inode shows at each of its names. -/
theorem get_mapInode (fs : Fs) (ino : Nat) (f : FileData → FileData) (q : Path) :
    (fs.mapInode ino f).get q = (fs.get q).map (onInode ino f) :=
  lookup_mapTable _ _ q

/-! ## Reading -/

/-- Where `name` leads from the directory `d`: the kernel knows `.` and `..`. -/
def locate (d : Path) (name : Name) : Path :=
  if name = ['.'] then d else if name = ['.', '.'] then d.dropLast else d ++ [name]

/-- A name that is no dot stands below its directory. -/
theorem locate_valid {d : Path} {name : Name} (h : ValidName name) :
    locate d name = d ++ [name] := by
  simp [locate, h.not_dot, h.not_dotdot]

/-- The names in the directory `d`, in sorted order. -/
def listdir (fs : Fs) (d : Path) : List Name :=
  (fs.table.keys.filterMap childName).insertionSort (· ≤ ·)
where
  childName (p : Path) : Option Name := if p.dropLast = d then p.getLast? else none

/-- A directory lists the names that have an entry. -/
theorem mem_listdir {fs : Fs} {d : Path} {n : Name} :
    n ∈ fs.listdir d ↔ (fs.get (d ++ [n])).isSome := by
  unfold listdir get
  rw [List.mem_insertionSort, AList.lookup_isSome, AList.mem_keys, List.mem_filterMap]
  constructor
  · rintro ⟨p, hp, hc⟩
    unfold listdir.childName at hc
    split at hc
    · rename_i hd
      have hne : p ≠ [] := by rintro rfl; simp at hc
      rw [List.getLast?_eq_some_getLast hne, Option.some.injEq] at hc
      rw [← hc, ← hd, List.dropLast_concat_getLast hne]
      exact hp
    · cases hc
  · intro h
    exact ⟨d ++ [n], h, by simp [listdir.childName]⟩

/-- It lists each of them once. -/
theorem nodup_listdir (fs : Fs) (d : Path) : (fs.listdir d).Nodup := by
  unfold listdir
  rw [(List.perm_insertionSort _ _).nodup_iff]
  refine fs.table.keys_nodup.filterMap ?_
  intro p q n hp hq
  unfold listdir.childName at hp hq
  split at hp <;> split at hq <;> simp_all
  rename_i h₁ h₂
  have hp' : p ≠ [] := by rintro rfl; simp at hp
  have hq' : q ≠ [] := by rintro rfl; simp at hq
  rw [List.getLast?_eq_some_getLast hp', Option.some.injEq] at hp
  rw [List.getLast?_eq_some_getLast hq', Option.some.injEq] at hq
  rw [← List.dropLast_concat_getLast hp', ← List.dropLast_concat_getLast hq', h₁, h₂, hp, hq]

/-- `stat` on one name of a directory, no link followed. -/
def lstatAt (fs : Fs) (d : Path) (name : Name) : Except Errno Entry :=
  match fs.get (locate d name) with
  | some e => .ok e
  | none => .error .ENOENT

/-- `openat` with `O_DIRECTORY | O_NOFOLLOW`: the descriptor, or why there is none. A link
reports `ENOTDIR`, as Linux does for this pair of flags. -/
def openDirAt (fs : Fs) (d : Path) (name : Name) : Except Errno Path :=
  match fs.get (locate d name) with
  | some (.dir _) => .ok (locate d name)
  | some _ => .error .ENOTDIR
  | none => .error .ENOENT

/-! ## Changing -/

/-- Put a new entry under a name of the directory `d`, which must not have one. A link to the empty path
is refused before that. -/
def mknodAt (fs : Fs) (d : Path) (name : Name) (e : Entry) : Except Errno Fs :=
  if hlink : e = .symlink [] then .error .ENOENT
  else if hfree : fs.get (locate d name) = none then
    if h : ValidName name ∧ fs.IsDir d then
      .ok (fs.put (locate d name) e
        (fun _ => by rw [locate_valid h.1, List.dropLast_concat]; exact h.2)
        (fun r n hr => by
          rw [locate_valid h.1] at hr
          have hn := (List.append_inj' hr rfl).2
          rw [List.cons.injEq] at hn
          exact hn.1 ▸ h.1)
        (fun ⟨m, hm⟩ => by rw [hfree] at hm; cases hm) hlink)
    else .error .ENOENT
  else .error .EEXIST

/-- A number no inode of the file system has. -/
def freshIno (fs : Fs) : Nat :=
  (fs.table.entries.map fun x => match x.2 with | .file i _ => i + 1 | _ => 0).foldr max 0

def mkdirAt (fs : Fs) (d : Path) (name : Name) (mode : Mode) : Except Errno Fs :=
  fs.mknodAt d name (.dir mode)

def symlinkAt (fs : Fs) (target : List Char) (d : Path) (name : Name) : Except Errno Fs :=
  fs.mknodAt d name (.symlink target)

/-- `openat` with `O_CREAT | O_EXCL`: a new, empty inode. -/
def createAt (fs : Fs) (d : Path) (name : Name) (mode : Mode) : Except Errno Fs :=
  fs.mknodAt d name (.file fs.freshIno ⟨[], mode, 0⟩)

/-- Take a name away that is not a directory's. -/
def unlinkAt (fs : Fs) (d : Path) (name : Name) : Except Errno Fs :=
  match h : fs.get (locate d name) with
  | none => .error .ENOENT
  | some (.dir _) => .error .EISDIR
  | some (.file _ _) | some (.symlink _) =>
    .ok (fs.drop (locate d name)
      (fun hroot => by
        obtain ⟨m, hm⟩ := fs.isDir_root
        rw [hroot, hm] at h; simp at h)
      fun n => get_append_eq_none (List.cons_ne_nil n []) fun ⟨m, hm⟩ => by
        rw [hm] at h; simp at h)

/-- Take an empty directory away. -/
def rmdirAt (fs : Fs) (d : Path) (name : Name) : Except Errno Fs :=
  let p := locate d name
  if ¬ ValidName name then .error .EINVAL
  else if ¬ fs.IsDir p then
    match fs.get p with
    | none => .error .ENOENT
    | some _ => .error .ENOTDIR
  else if hroot : p = [] then .error .EBUSY
  else if hleaf : fs.listdir p = [] then
    .ok (fs.drop p hroot fun n => by
      have : n ∉ fs.listdir p := by rw [hleaf]; simp
      rw [mem_listdir] at this
      simpa using this)
  else .error .ENOTEMPTY

/-- Set the mode of the inode at a name through a descriptor on it; a link refuses. -/
def chmodAt (fs : Fs) (d : Path) (name : Name) (mode : Mode) : Except Errno Fs :=
  match h : fs.get (locate d name) with
  | none => .error .ENOENT
  | some (.symlink _) => .error .ELOOP
  | some (.file i _) => .ok (fs.mapInode i fun data => { data with mode })
  | some (.dir _) =>
    .ok (fs.put (locate d name) (.dir mode)
      (fun hne => by
        obtain ⟨r, n, hr⟩ : ∃ r n, locate d name = r ++ [n] :=
          ⟨_, _, (List.dropLast_concat_getLast hne).symm⟩
        rw [hr] at h ⊢
        rw [List.dropLast_concat]
        exact isDir_parent h)
      (fun r n hr => fs.valid_name r n _ (hr ▸ h))
      (fun _ => rfl) (by nofun))

/-- Change the data of the regular file at a name. -/
def modifyAt (fs : Fs) (d : Path) (name : Name) (f : FileData → FileData) : Except Errno Fs :=
  match fs.get (locate d name) with
  | none => .error .ENOENT
  | some (.symlink _) => .error .ELOOP
  | some (.dir _) => .error .EISDIR
  | some (.file i _) => .ok (fs.mapInode i f)

/-- Whether two entries are names of one file. -/
def sameFile : Entry → Option Entry → Bool
  | .file i _, some (.file j _) => i = j
  | _, _ => false

def unlinkIfThere (fs : Fs) (d : Path) (name : Name) : Except Errno Fs :=
  if fs.get (locate d name) = none then .ok fs else fs.unlinkAt d name

/-- `rename` of anything but a directory, within the directory `d`. Between two names of one file
it does nothing. -/
def renameAt (fs : Fs) (d : Path) (name newName : Name) : Except Errno Fs :=
  match fs.get (locate d name) with
  | none => .error .ENOENT
  | some (.dir _) => .error .EISDIR
  | some e =>
    if newName = name ∨ sameFile e (fs.get (locate d newName)) = true then .ok fs
    else do
      let fs₁ ← fs.unlinkAt d name
      let fs₂ ← fs₁.unlinkIfThere d newName
      fs₂.mknodAt d newName e

/-! ## What each call does to `get`

A successful call says what it found and gives the new file system pointwise; the lemmas
named `_of_` say when a call succeeds. -/

section Effects

variable {fs fs' : Fs} {d : Path} {name : Name} {e : Entry} {mode : Mode}

/-- A new entry needs a free name in a directory, and changes nothing else. -/
theorem mknodAt_ok (h : fs.mknodAt d name e = .ok fs') :
    ValidName name ∧ fs.IsDir d ∧ fs.get (d ++ [name]) = none ∧
      ∀ q, fs'.get q = if q = d ++ [name] then some e else fs.get q := by
  unfold mknodAt at h
  split at h
  · cases h
  split at h
  · rename_i hfree
    split at h
    · rename_i hok
      rw [Except.ok.injEq] at h
      subst h
      rw [locate_valid hok.1] at hfree
      refine ⟨hok.1, hok.2, hfree, fun q => ?_⟩
      rw [get_put, locate_valid hok.1]
    · cases h
  · cases h

/-- There it is always made. -/
theorem mknodAt_of_free (hn : ValidName name) (hd : fs.IsDir d) (hlink : e ≠ .symlink [])
    (hfree : fs.get (d ++ [name]) = none) : ∃ fs', fs.mknodAt d name e = .ok fs' := by
  have hfree' : fs.get (locate d name) = none := by rw [locate_valid hn]; exact hfree
  unfold mknodAt
  rw [dif_neg hlink, dif_pos hfree', dif_pos ⟨hn, hd⟩]
  exact ⟨_, rfl⟩

/-- Where the name is taken it is not. -/
theorem mknodAt_of_some {e' : Entry} (hlink : e ≠ .symlink []) (h : fs.get (d ++ [name]) = some e') :
    fs.mknodAt d name e = .error .EEXIST := by
  have h' : fs.get (locate d name) ≠ none := by
    rw [locate_valid (validName_of_get h), h]; simp
  unfold mknodAt
  rw [dif_neg hlink, dif_neg h']

/-- Where something stands, nothing is put. -/
theorem mknodAt_of_taken {e' : Entry} (h : fs.get (d ++ [name]) = some e') :
    ∃ err, fs.mknodAt d name e = .error err := by
  by_cases hlink : e = .symlink []
  · exact ⟨.ENOENT, by unfold mknodAt; rw [dif_pos hlink]⟩
  · exact ⟨.EEXIST, mknodAt_of_some hlink h⟩

/-- A link to nothing is never made. -/
theorem mknodAt_of_emptyLink : fs.mknodAt d name (.symlink []) = .error .ENOENT := by
  unfold mknodAt
  rw [dif_pos rfl]

/-- Nor is anything where the directory is missing. -/
theorem mknodAt_of_no_dir (hn : ValidName name) (h : ¬ fs.IsDir d) :
    fs.mknodAt d name e = .error .ENOENT := by
  have hfree : fs.get (locate d name) = none := by
    rw [locate_valid hn]
    exact get_append_eq_none (by simp) h
  unfold mknodAt
  by_cases hlink : e = .symlink []
  · rw [dif_pos hlink]
  · rw [dif_neg hlink, dif_pos hfree, dif_neg fun hok => h hok.2]

/-- What is unlinked is there and no directory, and nothing else goes. -/
theorem unlinkAt_ok (h : fs.unlinkAt d name = .ok fs') :
    (∃ e, fs.get (locate d name) = some e ∧ e.isDir = false) ∧
      ∀ q, fs'.get q = if q = locate d name then none else fs.get q := by
  unfold unlinkAt at h
  split at h
  · cases h
  · cases h
  all_goals
    rename_i hg
    rw [Except.ok.injEq] at h
    subst h
    exact ⟨⟨_, hg, rfl⟩, fun q => get_drop _ _ _ _ q⟩

/-- Whatever is no directory may be unlinked. -/
theorem unlinkAt_of_some (h : fs.get (d ++ [name]) = some e) (he : e.isDir = false) :
    ∃ fs', fs.unlinkAt d name = .ok fs' := by
  have hl := locate_valid (d := d) (validName_of_get h)
  unfold unlinkAt
  split
  · rename_i hg; rw [hl, h] at hg; cases hg
  · rename_i hg; rw [hl, h, Option.some.injEq] at hg; rw [hg] at he; cases he
  all_goals exact ⟨_, rfl⟩

/-- A directory may not. -/
theorem unlinkAt_of_dir (h : fs.IsDir (locate d name)) :
    fs.unlinkAt d name = .error .EISDIR := by
  obtain ⟨m, hm⟩ := h
  unfold unlinkAt
  split <;> rename_i hg <;> rw [hm] at hg <;> first | rfl | cases hg

/-- What `rmdir` removes is a directory, and nothing else goes. -/
theorem rmdirAt_ok (h : fs.rmdirAt d name = .ok fs') :
    ValidName name ∧ fs.IsDir (d ++ [name]) ∧
      ∀ q, fs'.get q = if q = d ++ [name] then none else fs.get q := by
  unfold rmdirAt at h
  simp only at h
  split at h
  · cases h
  · rename_i hn
    rw [not_not] at hn
    split at h
    · split at h <;> cases h
    · rename_i hd
      rw [not_not, locate_valid hn] at hd
      split at h
      · cases h
      · split at h
        · rw [Except.ok.injEq] at h
          subst h
          refine ⟨hn, hd, fun q => ?_⟩
          rw [get_drop, locate_valid hn]
        · cases h

/-- An empty directory may be removed. -/
theorem rmdirAt_of_empty (hn : ValidName name) (hd : fs.IsDir (d ++ [name]))
    (hempty : ∀ n, fs.get (d ++ [name] ++ [n]) = none) :
    ∃ fs', fs.rmdirAt d name = .ok fs' := by
  have hlist : fs.listdir (d ++ [name]) = [] := by
    rw [List.eq_nil_iff_forall_not_mem]
    intro n hmem
    rw [mem_listdir, hempty n] at hmem
    cases hmem
  unfold rmdirAt
  simp only [locate_valid hn, hn, not_true_eq_false, if_false, hd, hlist]
  rw [dif_neg (by simp)]
  exact ⟨_, rfl⟩

/-- A directory named in any way, by `.` as well. -/
theorem chmodAt_of_located (mode : Mode) (h : fs.IsDir (locate d name)) :
    ∃ fs', fs.chmodAt d name mode = .ok fs' ∧
      ∀ q, fs'.get q = if q = locate d name then some (.dir mode) else fs.get q := by
  obtain ⟨m, hm⟩ := h
  unfold chmodAt
  split <;> rename_i hg <;> rw [hm] at hg
  · cases hg
  · cases hg
  · cases hg
  · exact ⟨_, rfl, fun q => get_put fs _ _ _ _ _ _ q⟩

/-- The mode of a directory is set at its entry alone. -/
theorem chmodAt_of_dir (mode : Mode) (h : fs.IsDir (d ++ [name])) :
    ∃ fs', fs.chmodAt d name mode = .ok fs' ∧
      ∀ q, fs'.get q = if q = d ++ [name] then some (.dir mode) else fs.get q := by
  obtain ⟨m, hm⟩ := h
  have hl := locate_valid (d := d) (validName_of_get hm)
  rw [← hl] at hm ⊢
  exact chmodAt_of_located mode ⟨m, hm⟩

/-- The data of a file is changed through its inode. -/
theorem modifyAt_ok {f : FileData → FileData} (h : fs.modifyAt d name f = .ok fs') :
    ∃ i data, fs.get (locate d name) = some (.file i data) ∧ fs' = fs.mapInode i f := by
  unfold modifyAt at h
  split at h
  · cases h
  · cases h
  · cases h
  · rename_i i data hg
    rw [Except.ok.injEq] at h
    exact ⟨i, data, hg, h.symm⟩

/-- That of a regular file may always be. -/
theorem modifyAt_of_file {i : Nat} {data : FileData} {f : FileData → FileData}
    (h : fs.get (d ++ [name]) = some (.file i data)) :
    fs.modifyAt d name f = .ok (fs.mapInode i f) := by
  unfold modifyAt
  rw [locate_valid (validName_of_get h), h]

/-- A file that has no other name replaces whatever is no directory. -/
theorem renameAt_ok {newName : Name} {i : Nat} {data : FileData} (hv : ValidName newName)
    (hfile : fs.get (d ++ [name]) = some (.file i data))
    (hunique : ∀ q data', fs.get q = some (.file i data') → q = d ++ [name])
    (h : fs.renameAt d name newName = .ok fs') :
    ¬ fs.IsDir (d ++ [newName]) ∧
      ∀ q, fs'.get q = if q = d ++ [newName] then some (.file i data)
        else if q = d ++ [name] then none else fs.get q := by
  have hl : locate d name = d ++ [name] := locate_valid (validName_of_get hfile)
  have hl' : locate d newName = d ++ [newName] := locate_valid hv
  unfold renameAt at h
  rw [hl, hfile] at h
  simp only at h
  by_cases hself : newName = name
  · rw [if_pos (.inl hself), Except.ok.injEq] at h
    subst h hself
    refine ⟨?_, fun q => ?_⟩
    · rintro ⟨m, hm⟩
      rw [hm] at hfile
      cases hfile
    · by_cases hq : q = d ++ [newName]
      · rw [if_pos hq, hq, hfile]
      · rw [if_neg hq, if_neg hq]
  · have hne : d ++ [newName] ≠ d ++ [name] := by simpa using hself
    have hother : sameFile (.file i data) (fs.get (locate d newName)) = false := by
      rw [hl']
      cases hg : fs.get (d ++ [newName]) with
      | none => rfl
      | some e =>
        cases e with
        | dir m => rfl
        | symlink t => rfl
        | file j data' =>
          have hij : i ≠ j := by
            rintro rfl
            exact hne (hunique _ data' hg)
          simp [sameFile, hij]
    rw [if_neg (by simp [hself, hother])] at h
    obtain ⟨fs₁, h₁, h⟩ := Result.bind_ok h
    obtain ⟨fs₂, h₂, h⟩ := Result.bind_ok h
    unfold unlinkIfThere at h₂
    have hget₁ := (unlinkAt_ok h₁).2
    rw [hl] at hget₁
    rw [hl'] at h₂
    have hget₂ : ¬ fs.IsDir (d ++ [newName]) ∧
        ∀ q, q ≠ d ++ [newName] → fs₂.get q = fs₁.get q := by
      split at h₂
      · rename_i hnone
        rw [Except.ok.injEq] at h₂
        subst h₂
        rw [hget₁, if_neg hne] at hnone
        refine ⟨?_, fun q _ => rfl⟩
        rintro ⟨m, hm⟩
        rw [hm] at hnone
        cases hnone
      · obtain ⟨⟨e, he, hdir⟩, hget⟩ := unlinkAt_ok h₂
        rw [hl'] at he hget
        rw [hget₁, if_neg hne] at he
        refine ⟨?_, fun q hq => ?_⟩
        · rintro ⟨m, hm⟩
          rw [hm, Option.some.injEq] at he
          rw [← he] at hdir
          cases hdir
        · rw [hget, if_neg hq]
    refine ⟨hget₂.1, fun q => ?_⟩
    rw [(mknodAt_ok h).2.2.2]
    by_cases hq : q = d ++ [newName]
    · rw [if_pos hq, if_pos hq]
    · rw [if_neg hq, if_neg hq, hget₂.2 q hq, hget₁]

/-- No inode in use has the fresh number. -/
theorem ino_lt_freshIno {q : Path} {i : Nat} {data : FileData}
    (h : fs.get q = some (.file i data)) : i < fs.freshIno := by
  have hmem : (⟨q, .file i data⟩ : Σ _ : Path, Entry) ∈ fs.table.entries :=
    List.of_mem_dlookup h
  have hle : ∀ (l : List (Σ _ : Path, Entry)), (⟨q, .file i data⟩ : Σ _ : Path, Entry) ∈ l →
      i < (l.map fun x => match x.2 with | .file i _ => i + 1 | _ => 0).foldr max 0 := by
    intro l hl
    induction l with
    | nil => cases hl
    | cons x l ih =>
      rw [List.map_cons, List.foldr_cons]
      rcases List.mem_cons.mp hl with rfl | hl
      · exact lt_of_lt_of_le (Nat.lt_succ_self i) (le_max_left _ _)
      · exact lt_of_lt_of_le (ih hl) (le_max_right _ _)
  exact hle _ hmem

/-- A change to an inode with a single name changes that name and nothing else. -/
theorem get_mapInode_of_unique {i : Nat} {data : FileData} {f : FileData → FileData} {p : Path}
    (hp : fs.get p = some (.file i data))
    (hunique : ∀ q data', fs.get q = some (.file i data') → q = p) (q : Path) :
    (fs.mapInode i f).get q = if q = p then some (.file i (f data)) else fs.get q := by
  rw [get_mapInode]
  split
  · rename_i hq
    rw [hq, hp]
    simp [onInode]
  · rename_i hq
    cases hg : fs.get q with
    | none => rfl
    | some e =>
      cases e with
      | dir m => rfl
      | symlink t => rfl
      | file j data' =>
        have hij : j ≠ i := by
          rintro rfl
          exact hq (hunique q data' hg)
        simp [onInode, hij]

end Effects

/-! ## Trees written down -/

/-- The file system that is an empty root. -/
def empty : Fs where
  table := AList.insert [] (.dir 0o755) ∅
  root_dir := ⟨0o755, AList.lookup_insert _⟩
  parent_dir := by
    intro p n e h
    rw [AList.lookup_insert_ne (by simp), AList.lookup_empty] at h
    cases h
  valid_name := by
    intro p n e h
    rw [AList.lookup_insert_ne (by simp), AList.lookup_empty] at h
    cases h
  link_target := by
    intro p t h
    by_cases hp : p = []
    · subst hp
      rw [AList.lookup_insert] at h
      cases h
    · rw [AList.lookup_insert_ne hp, AList.lookup_empty] at h
      cases h

/-- Add an entry; one that has no place is left out. -/
def add (fs : Fs) (p : Path) (e : Entry) : Fs :=
  match p.getLast? with
  | none => fs
  | some name =>
    match fs.mknodAt p.dropLast name e with
    | .ok fs' => fs'
    | .error _ => fs

/-- The tree with the given entries, each after the directory it stands in. -/
def ofList (entries : List (Path × Entry)) : Fs :=
  entries.foldl (fun fs x => fs.add x.1 x.2) empty

end Fs

end Posix
