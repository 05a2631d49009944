import ProotDistro.Lib.Proc
import ProotDistro.Posix.Refusals

/-!
# `dirfd`: entries named as (directory descriptor, name)

The layer every command writes through. A descriptor stands for the directory it was opened
on, so it is that directory's path; no other process interferes. Permission errors are not
modelled, and with them the retries of the source that only they can start, except on the way of a
copy (`copyFileAt`), which may be refused anywhere.

* **`descendAt`** — the walk that opens one level after the other and never follows a link,
  making missing levels on the way with `create`.
* **`openNewAt`** / **`fillNew`** — a file is written through an inode made for it, so a
  second name of the inode that stood there before is never written through.
* **`rmtreeAt`** — a whole tree goes, a link goes as a link (`rmtreeAt_spec`).
-/

namespace ProotDistro

open Posix

/-- System calls in sequence. -/
abbrev Sys := Proc Fs Errno

namespace Dirfd

/-! ## Opening -/

def opendirAt (d : Path) (name : Name) : Sys Path := .look (·.openDirAt d name)

/-- The mode a directory made with `0o777` gets. -/
def newDirMode (umask : Mode) : Mode := 0o777 &&& ~~~umask

def mkdirAt (umask : Mode) (d : Path) (name : Name) : Sys Unit :=
  .change (·.mkdirAt d name (newDirMode umask))

/-- One level of `descend_at`. -/
def descendLevel (umask : Mode) (create : Bool) (src : Path) (part : Name) : Sys Path :=
  (opendirAt src part).handle fun e =>
    if e = .ENOENT ∧ create = true then do
      (mkdirAt umask src part).ignoring .EEXIST
      opendirAt src part
    else .fail e

/-- Open the directory `parts` names under `d`, refusing every link on the way. -/
def descendAt (umask : Mode) (create : Bool) : Path → List Name → Sys Path
  | d, [] => pure d
  | d, part :: parts => do
    let nxt ← descendLevel umask create d part
    descendAt umask create nxt parts

def createAt (umask : Mode) (d : Path) (name : Name) (mode : Mode) : Sys Unit :=
  .change (·.createAt d name (mode &&& ~~~umask))

def unlinkAt (d : Path) (name : Name) : Sys Unit := .change (·.unlinkAt d name)

/-- A new inode under a name; whatever held the name loses it first. -/
def openNewAt (umask : Mode) (d : Path) (name : Name) (mode : Mode) : Sys Unit :=
  (createAt umask d name mode).handle fun e =>
    if e = .EEXIST then do
      unlinkAt d name
      createAt umask d name mode
    else .fail e

/-- The data of the regular file a name stands for; nothing else opens. -/
def readRegular (d : Path) (name : Name) (fs : Fs) : Except Errno FileData :=
  match fs.get (Fs.locate d name) with
  | some (.file _ data) => .ok data
  | some (.symlink _) => .error .ELOOP
  | some (.dir _) => .error .EINVAL
  | none => .error .ENOENT

def openRegularAt (d : Path) (name : Name) : Sys FileData := .look (readRegular d name)

/-! ## Inspecting -/

/-- A walk down directories that makes nothing. -/
def openDirs (fs : Fs) : Path → List Name → Option Path
  | d, [] => some d
  | d, part :: parts =>
    match fs.openDirAt d part with
    | .error _ => none
    | .ok nxt => openDirs fs nxt parts

def listdirAt (d : Path) : Sys (List Name) := .look fun fs => .ok (fs.listdir d)

def lstatAt (d : Path) (name : Name) : Sys Entry := .look (·.lstatAt d name)

/-! ## Writing -/

def unlinkQuietly (d : Path) (name : Name) : Sys Unit := (unlinkAt d name).quietly

def chmodAt (d : Path) (name : Name) (mode : Mode) : Sys Unit :=
  (Proc.change (·.chmodAt d name mode)).quietly

/-- The directories down `parts` below `root`, the last of them with the given mode; `none` where
that is not possible. -/
def makedirsAt (umask : Mode) (root : Path) (parts : List Name) (mode : Mode) : Sys (Option Path) :=
  Proc.optional do
    let d ← descendAt umask true root parts
    chmodAt d ['.'] mode
    pure d

/-- A directory under a name a link may hold: the link goes, a directory stays and gets the
mode, anything else is refused. -/
def replaceDir (umask : Mode) (d : Path) (name : Name) (mode : Mode) : Sys Unit := do
  match ← (lstatAt d name).optional with
  | some (.symlink _) => unlinkQuietly d name
  | _ => pure ()
  (mkdirAt umask d name).handle fun e =>
    if e = .EEXIST then do
      match ← (lstatAt d name).optional with
      | some (.dir _) => pure ()
      | _ => .fail .EEXIST
    else .fail e
  chmodAt d name mode

/-- A new file with the given content; its mode is set again past the umask, which may not
fail the write. -/
def writeNew (umask : Mode) (d : Path) (name : Name) (content : Bytes) (mode : Mode) :
    Sys Unit := do
  openNewAt umask d name mode
  .change (·.modifyAt d name fun f => { f with content })
  (Proc.change (·.modifyAt d name fun f => { f with mode })).quietly

/-- A new file with everything it is given, its time last. -/
def fillNew (umask : Mode) (d : Path) (name : Name) (data : FileData) : Sys Unit := do
  writeNew umask d name data.content data.mode
  (Proc.change (·.modifyAt d name fun f => { f with mtime := data.mtime })).quietly

/-! ## Copying where calls may be refused -/

/-- A call that the system may refuse on top. -/
def refusing {α : Type} (refused : Bool) (call : Sys α) : Sys α :=
  if refused then .fail .EACCES else call

/-- `descend_at` of a process that may not open every directory: it ends at the first it may not. -/
def descendIn (R : Refusals) (umask : Mode) (create : Bool) (d : Path) (parts : List Name) :
    Sys Path := do
  let fd ← descendAt umask create d (R.openable d parts)
  refusing (R.openable d parts != parts) (pure fd)

/-- Whether a name is there is answered before whether it may be made. -/
def createIn (R : Refusals) (umask : Mode) (d : Path) (name : Name) (mode : Mode) : Sys Unit :=
  .change fun fs =>
    if R .create (d ++ [name]) && (fs.get (d ++ [name])).isNone then .error .EACCES
    else fs.createAt d name (mode &&& ~~~umask)

def unlinkIn (R : Refusals) (d : Path) (name : Name) : Sys Unit :=
  refusing (R .unlink (d ++ [name])) (unlinkAt d name)

def openNewIn (R : Refusals) (umask : Mode) (d : Path) (name : Name) (mode : Mode) : Sys Unit :=
  (createIn R umask d name mode).handle fun e =>
    if e = .EEXIST then do
      unlinkIn R d name
      createIn R umask d name mode
    else .fail e

/-- Copy one regular file between two directories onto a new inode. Nothing is written of an empty
file; mode and time are set if they can be. -/
def copyFileAt (R : Refusals) (umask : Mode) (srcDir : Path) (srcName : Name) (dstDir : Path)
    (dstName : Name) : Sys Unit := do
  let data ← refusing (R .read (srcDir ++ [srcName])) (openRegularAt srcDir srcName)
  openNewIn R umask dstDir dstName data.mode
  refusing (R .write (dstDir ++ [dstName]) && data.content != [])
    (.change (·.modifyAt dstDir dstName fun f => { f with content := data.content }))
  (Proc.change (·.modifyAt dstDir dstName fun f => { f with mode := data.mode })).quietly
  (Proc.change (·.modifyAt dstDir dstName fun f => { f with mtime := data.mtime })).quietly

/-! ## Removing -/

/-- Remove an entry and what is below it, to a depth of `fuel` directories. -/
def rmtreeWithin : Nat → Path → Name → Sys Unit
  | 0, _, _ => .fail .EINVAL
  | fuel + 1, d, name => do
    match ← (lstatAt d name).optional with
    | none => pure ()
    | some (.dir _) => do
      let fd ← opendirAt d name
      let names ← listdirAt fd
      .each (rmtreeWithin fuel fd) names
      .change (·.rmdirAt d name)
    | some _ => (unlinkAt d name).ignoring .ENOENT

/-- The levels of the deepest entry. -/
def depth (fs : Fs) : Nat := (fs.table.keys.map List.length).foldr max 0

/-- Remove an entry and everything below it; a link goes as a link. -/
def rmtreeAt (d : Path) (name : Name) : Sys Unit := fun fs => rmtreeWithin (depth fs + 1) d name fs

/-! ## Descending -/

section Descend

variable {umask : Mode} {create : Bool} {fs : Fs} {d : Path} {c : Name} {parts : List Name}

/-- A directory can be opened by its name. -/
theorem openDirAt_of_isDir (hc : ValidName c) (h : fs.IsDir (d ++ [c])) :
    fs.openDirAt d c = .ok (d ++ [c]) := by
  obtain ⟨m, hm⟩ := h
  unfold Fs.openDirAt
  rw [Fs.locate_valid hc, hm]

/-- And nothing else can, the error saying whether anything is there. -/
theorem openDirAt_of_not_isDir (hc : ValidName c) (h : ¬ fs.IsDir (d ++ [c])) :
    fs.openDirAt d c =
      .error (if fs.get (d ++ [c]) = none then .ENOENT else .ENOTDIR) := by
  unfold Fs.openDirAt
  rw [Fs.locate_valid hc]
  cases hg : fs.get (d ++ [c]) with
  | none => simp
  | some e =>
    cases e with
    | dir m => exact absurd ⟨m, hg⟩ h
    | file i data => simp
    | symlink t => simp

/-- A step down into a directory that is there changes nothing. -/
theorem descendLevel_of_isDir (hc : ValidName c) (h : fs.IsDir (d ++ [c])) :
    descendLevel umask create d c fs = (.ok (d ++ [c]), fs) :=
  Proc.handle_of_ok (by
    unfold opendirAt
    rw [Proc.look_apply, openDirAt_of_isDir hc h])

/-- A level that is no directory fails, unless it is missing and may be made. -/
theorem descendLevel_of_not_isDir (hc : ValidName c) (h : ¬ fs.IsDir (d ++ [c]))
    (hcreate : create = false ∨ fs.get (d ++ [c]) ≠ none) :
    ∃ e, descendLevel umask create d c fs = (.error e, fs) := by
  have hopen : opendirAt d c fs =
      (.error (if fs.get (d ++ [c]) = none then .ENOENT else .ENOTDIR), fs) := by
    unfold opendirAt
    rw [Proc.look_apply, openDirAt_of_not_isDir hc h]
  refine ⟨if fs.get (d ++ [c]) = none then .ENOENT else .ENOTDIR, ?_⟩
  unfold descendLevel
  rw [Proc.handle_of_error hopen, if_neg]
  · rfl
  · rintro ⟨he, hcr⟩
    rcases hcreate with hcreate | hne
    · rw [hcreate] at hcr
      cases hcr
    · rw [if_neg hne] at he
      cases he

/-- A missing level is made, with the mode the umask leaves. -/
theorem descendLevel_of_missing (umask : Mode) (hc : ValidName c) (hd : fs.IsDir d)
    (h : fs.get (d ++ [c]) = none) :
    ∃ fs', descendLevel umask true d c fs = (.ok (d ++ [c]), fs') ∧
      ∀ q, fs'.get q = if q = d ++ [c] then some (.dir (newDirMode umask)) else fs.get q := by
  obtain ⟨fs', hfs'⟩ := Fs.mknodAt_of_free (e := .dir (newDirMode umask)) hc hd (by nofun) h
  obtain ⟨-, -, -, hget⟩ := Fs.mknodAt_ok hfs'
  refine ⟨fs', ?_, hget⟩
  have hnot : ¬ fs.IsDir (d ++ [c]) := by
    rintro ⟨m, hm⟩
    rw [h] at hm
    cases hm
  have hmk : (mkdirAt umask d c).ignoring .EEXIST fs = (.ok (), fs') :=
    Proc.ignoring_of_ok (Proc.change_of_ok hfs')
  have hdir : fs'.IsDir (d ++ [c]) := ⟨newDirMode umask, by rw [hget, if_pos rfl]⟩
  have hopen : opendirAt d c fs = (.error .ENOENT, fs) := by
    unfold opendirAt
    rw [Proc.look_apply, openDirAt_of_not_isDir hc hnot, if_pos h]
  unfold descendLevel
  rw [Proc.handle_of_error hopen, if_pos ⟨rfl, rfl⟩, Proc.bind_of_ok hmk]
  unfold opendirAt
  rw [Proc.look_apply, openDirAt_of_isDir hc hdir]

/-- Where the whole path is made of directories, the walk arrives and changes nothing. -/
theorem descendAt_of_isDir (hv : ∀ c ∈ parts, ValidName c) (h : fs.IsDir (d ++ parts)) :
    descendAt umask create d parts fs = (.ok (d ++ parts), fs) := by
  induction parts generalizing d with
  | nil => simp [descendAt]
  | cons c parts ih =>
    have happ : d ++ c :: parts = d ++ [c] ++ parts := by simp
    have hc : fs.IsDir (d ++ [c]) := Fs.IsDir.of_append (happ ▸ h)
    unfold descendAt
    rw [Proc.bind_of_ok (descendLevel_of_isDir (hv c (by simp)) hc), happ]
    exact ih (fun x hx => hv x (by simp [hx])) (happ ▸ h)

/-- Without `create` the walk arrives only where there is a directory, and never changes
the tree. -/
theorem descendAt_of_not_isDir (hv : ∀ c ∈ parts, ValidName c) (hd : fs.IsDir d)
    (h : ¬ fs.IsDir (d ++ parts)) :
    ∃ e, descendAt umask false d parts fs = (.error e, fs) := by
  induction parts generalizing d with
  | nil => exact absurd (by simpa using hd) h
  | cons c parts ih =>
    have hcv : ValidName c := hv c (by simp)
    unfold descendAt
    by_cases hc : fs.IsDir (d ++ [c])
    · rw [Proc.bind_of_ok (descendLevel_of_isDir hcv hc)]
      exact ih (fun x hx => hv x (by simp [hx])) hc (by simpa using h)
    · obtain ⟨e, he⟩ : ∃ e, descendLevel umask false d c fs = (.error e, fs) :=
        descendLevel_of_not_isDir hcv hc (.inl rfl)
      exact ⟨e, Proc.bind_of_error he⟩

/-- Without `create` the walk changes nothing, whatever the names are. -/
theorem descendAt_false_state : (descendAt umask false d parts fs).2 = fs := by
  induction parts generalizing d with
  | nil => rfl
  | cons c parts ih =>
    have hlevel : (descendLevel umask false d c fs).2 = fs := by
      unfold descendLevel opendirAt
      cases ho : fs.openDirAt d c with
      | ok p => rw [Proc.handle_of_ok (by rw [Proc.look_apply, ho])]
      | error e =>
        rw [Proc.handle_of_error (by rw [Proc.look_apply, ho]), if_neg (by simp)]
        rfl
    unfold descendAt
    rcases hl : descendLevel umask false d c fs with ⟨r, fs'⟩
    rw [hl] at hlevel
    subst hlevel
    cases r with
    | ok nxt => rw [Proc.bind_of_ok hl]; exact ih
    | error e => rw [Proc.bind_of_error hl]

/-- An entry on the way that is no directory stops the walk before it has made anything:
every level above it stands already. -/
theorem descendAt_blocked {e : Entry} {r : Path} (hv : ∀ c ∈ parts, ValidName c)
    (hr : r <+: parts) (he : fs.get (d ++ r) = some e) (hndir : ¬ fs.IsDir (d ++ r))
    (hd : fs.IsDir d) : ∃ err, descendAt umask create d parts fs = (.error err, fs) := by
  induction parts generalizing d r with
  | nil =>
    rw [List.prefix_nil.mp hr, List.append_nil] at hndir
    exact absurd hd hndir
  | cons c parts ih =>
    have hcv : ValidName c := hv c (by simp)
    rcases List.prefix_cons_iff.mp hr with rfl | ⟨r', rfl, hr'⟩
    · rw [List.append_nil] at hndir
      exact absurd hd hndir
    · have happ : d ++ c :: r' = d ++ [c] ++ r' := by simp
      rw [happ] at he hndir
      unfold descendAt
      by_cases hc : fs.IsDir (d ++ [c])
      · rw [Proc.bind_of_ok (descendLevel_of_isDir hcv hc)]
        exact ih (fun x hx => hv x (by simp [hx])) hr' he hndir hc
      · have hsome : fs.get (d ++ [c]) ≠ none := by
          intro hnone
          by_cases hnil : r' = []
          · rw [hnil, List.append_nil, hnone] at he
            cases he
          · rw [Fs.get_append_eq_none hnil hc] at he
            cases he
        obtain ⟨err, herr⟩ : ∃ err, descendLevel umask create d c fs = (.error err, fs) :=
          descendLevel_of_not_isDir hcv hc (.inr hsome)
        exact ⟨err, Proc.bind_of_error herr⟩

/-- Where nothing but directories is in the way, `create` makes what is missing of the path
and nothing else. -/
theorem descendAt_create (hv : ∀ c ∈ parts, ValidName c) (hd : fs.IsDir d)
    (h : ∀ r, r <+: parts → fs.get (d ++ r) = none ∨ fs.IsDir (d ++ r)) :
    ∃ fs', descendAt umask true d parts fs = (.ok (d ++ parts), fs') ∧
      ∀ q, fs'.get q =
        if fs.get q = none ∧ d <+: q ∧ q <+: d ++ parts then some (.dir (newDirMode umask))
        else fs.get q := by
  induction parts generalizing d fs with
  | nil =>
    refine ⟨fs, by simp [descendAt], fun q => ?_⟩
    rw [if_neg]
    rintro ⟨hq, hdq, hqd⟩
    have hqd' : q = d := by
      rw [List.append_nil] at hqd
      exact hqd.eq_of_length_le hdq.length_le
    obtain ⟨m, hm⟩ := hd
    rw [hqd', hm] at hq
    cases hq
  | cons c parts ih =>
    have hcv : ValidName c := hv c (by simp)
    have happ : ∀ r : Path, d ++ c :: r = d ++ [c] ++ r := fun r => by simp
    have hbelow : ∀ r, r <+: parts → fs.get (d ++ [c] ++ r) = none ∨ fs.IsDir (d ++ [c] ++ r) := by
      intro r hr
      rw [← happ]
      exact h (c :: r) (List.cons_prefix_cons.mpr ⟨rfl, hr⟩)
    -- the level is made, or it is there
    obtain ⟨fs₁, hlevel, hget₁⟩ : ∃ fs₁, descendLevel umask true d c fs = (.ok (d ++ [c]), fs₁) ∧
        ∀ q, fs₁.get q =
          if fs.get q = none ∧ q = d ++ [c] then some (.dir (newDirMode umask))
          else fs.get q := by
      rcases h [c] ⟨parts, rfl⟩ with hnone | hdir
      · obtain ⟨fs₁, hl, hg⟩ := descendLevel_of_missing umask hcv hd hnone
        refine ⟨fs₁, hl, fun q => ?_⟩
        rw [hg]
        by_cases hq : q = d ++ [c]
        · rw [if_pos hq, if_pos ⟨by rw [hq, hnone], hq⟩]
        · rw [if_neg hq, if_neg fun hh => hq hh.2]
      · refine ⟨fs, descendLevel_of_isDir hcv hdir, fun q => ?_⟩
        rw [if_neg]
        rintro ⟨hq, rfl⟩
        obtain ⟨m, hm⟩ := hdir
        rw [hm] at hq
        cases hq
    have hdir₁ : fs₁.IsDir (d ++ [c]) := by
      rcases hbelow [] (List.nil_prefix) with hnone | ⟨m, hm⟩
      · rw [List.append_nil] at hnone
        exact ⟨newDirMode umask, by rw [hget₁, if_pos ⟨hnone, rfl⟩]⟩
      · rw [List.append_nil] at hm
        exact ⟨m, by rw [hget₁, hm, if_neg (by simp)]⟩
    -- the levels below it stand as before, now under a directory
    obtain ⟨fs', hrun, hget⟩ := ih (fun x hx => hv x (by simp [hx])) hdir₁ (by
      intro r hr
      rcases hbelow r hr with hnone | ⟨m, hm⟩
      · by_cases hnil : r = []
        · rw [hnil, List.append_nil]
          exact .inr hdir₁
        · left
          rw [hget₁, if_neg, hnone]
          rintro ⟨-, hq⟩
          exact hnil (by simpa using hq)
      · exact .inr ⟨m, by rw [hget₁, hm, if_neg (by simp)]⟩)
    refine ⟨fs', ?_, fun q => ?_⟩
    · unfold descendAt
      rw [Proc.bind_of_ok hlevel, hrun, happ parts]
    · -- a path made here is the level just made or one of the levels below it
      rw [hget, hget₁, happ parts]
      by_cases hq : q = d ++ [c]
      · subst hq
        by_cases hnone : fs.get (d ++ [c]) = none
        · simp [hnone]
        · simp [hnone]
      · have hiff : d ++ [c] <+: q ∧ q <+: d ++ [c] ++ parts ↔
            d <+: q ∧ q <+: d ++ [c] ++ parts ∧ q ≠ d := by
          constructor
          · rintro ⟨h₁, h₂⟩
            refine ⟨(List.prefix_append d [c]).trans h₁, h₂, ?_⟩
            rintro rfl
            have := h₁.length_le
            simp at this
          · rintro ⟨⟨t, rfl⟩, h₂, hne⟩
            rw [List.append_assoc, List.prefix_append_right_inj] at h₂
            rcases List.prefix_cons_iff.mp (by simpa using h₂) with rfl | ⟨t', rfl, -⟩
            · simp at hne
            · refine ⟨⟨t', by simp⟩, ?_⟩
              rw [List.append_assoc, List.prefix_append_right_inj]
              exact h₂
        obtain ⟨m, hm⟩ := hd
        by_cases hqd : q = d
        · subst hqd
          simp [hm]
        · have : (d ++ [c] <+: q ∧ q <+: d ++ [c] ++ parts) ↔
              (d <+: q ∧ q <+: d ++ [c] ++ parts) := by
            rw [hiff]
            exact ⟨fun h => ⟨h.1, h.2.1⟩, fun h => ⟨h.1, h.2, hqd⟩⟩
          simp only [hq, this, and_false, if_false]

end Descend

/-! ## Writing a new file -/

section Fill

variable {umask : Mode} {fs : Fs} {d : Path} {c : Name}

/-- A directory under the name stops the write. -/
theorem openNewAt_of_isDir {mode : Mode} (h : fs.IsDir (d ++ [c])) :
    openNewAt umask d c mode fs = (.error .EISDIR, fs) := by
  obtain ⟨m, hm⟩ := h
  have hcv := Fs.validName_of_get hm
  have hcreate : createAt umask d c mode fs = (.error .EEXIST, fs) :=
    Proc.change_of_error (Fs.mknodAt_of_some (by nofun) hm)
  have hunlink : unlinkAt d c fs = (.error .EISDIR, fs) :=
    Proc.change_of_error (Fs.unlinkAt_of_dir (by rw [Fs.locate_valid hcv]; exact ⟨m, hm⟩))
  unfold openNewAt
  rw [Proc.handle_of_error hcreate, if_pos rfl, Proc.bind_of_error hunlink]

/-- Anything else under the name gives way to a new inode, whose only name it is. -/
theorem openNewAt_of_not_isDir (umask mode : Mode) (hcv : ValidName c) (hd : fs.IsDir d)
    (h : ¬ fs.IsDir (d ++ [c])) :
    ∃ fs' ino, openNewAt umask d c mode fs = (.ok (), fs') ∧
      (∀ q, fs'.get q =
        if q = d ++ [c] then some (.file ino ⟨[], mode &&& ~~~umask, 0⟩) else fs.get q) ∧
      ∀ q data, fs.get q = some (.file ino data) → q = d ++ [c] := by
  -- the create on a free name, from any tree that agrees with `fs` elsewhere
  have hfresh : ∀ fs₀ : Fs, fs₀.IsDir d → fs₀.get (d ++ [c]) = none →
      (∀ q, q ≠ d ++ [c] → fs₀.get q = fs.get q) →
      ∃ fs' ino, createAt umask d c mode fs₀ = (.ok (), fs') ∧
        (∀ q, fs'.get q =
          if q = d ++ [c] then some (.file ino ⟨[], mode &&& ~~~umask, 0⟩) else fs.get q) ∧
        ∀ q data, fs.get q = some (.file ino data) → q = d ++ [c] := by
    intro fs₀ hd₀ hnone hsame
    obtain ⟨fs', hfs'⟩ := Fs.mknodAt_of_free
      (e := .file fs₀.freshIno ⟨[], mode &&& ~~~umask, 0⟩) hcv hd₀ (by nofun) hnone
    obtain ⟨-, -, -, hget⟩ := Fs.mknodAt_ok hfs'
    refine ⟨fs', fs₀.freshIno, Proc.change_of_ok hfs', fun q => ?_, fun q data hq => ?_⟩
    · rw [hget]
      split
      · rfl
      · exact hsame q ‹_›
    · by_contra hne
      rw [← hsame q hne] at hq
      exact absurd (Fs.ino_lt_freshIno hq) (lt_irrefl _)
  -- a free name is made; a taken one is unlinked first, unless a directory has it
  cases hg : fs.get (d ++ [c]) with
  | none =>
    obtain ⟨fs', ino, hrun, hget, huniq⟩ := hfresh fs hd hg fun _ _ => rfl
    refine ⟨fs', ino, ?_, hget, huniq⟩
    unfold openNewAt
    exact Proc.handle_of_ok hrun
  | some e =>
    have he : e.isDir = false := by
      cases e with
      | dir m => exact absurd ⟨m, hg⟩ h
      | file i data => rfl
      | symlink t => rfl
    have hcreate : createAt umask d c mode fs = (.error .EEXIST, fs) :=
      Proc.change_of_error (Fs.mknodAt_of_some (by nofun) hg)
    obtain ⟨fs₀, hfs₀⟩ := Fs.unlinkAt_of_some hg he
    obtain ⟨-, hget₀⟩ := Fs.unlinkAt_ok hfs₀
    rw [Fs.locate_valid hcv] at hget₀
    have hd₀ : fs₀.IsDir d := by
      obtain ⟨m, hm⟩ := hd
      exact ⟨m, by rw [hget₀, if_neg (by simp), hm]⟩
    obtain ⟨fs', ino, hrun, hget, huniq⟩ := hfresh fs₀ hd₀ (by rw [hget₀, if_pos rfl])
      fun q hq => by rw [hget₀, if_neg hq]
    refine ⟨fs', ino, ?_, hget, huniq⟩
    have hunlink : unlinkAt d c fs = (.ok (), fs₀) := Proc.change_of_ok hfs₀
    unfold openNewAt
    rw [Proc.handle_of_error hcreate, if_pos rfl, Proc.bind_of_ok hunlink, hrun]

/-- A descriptor on no directory creates nothing. -/
theorem fillNew_of_no_dir {data : FileData} (hcv : ValidName c) (h : ¬ fs.IsDir d) :
    fillNew umask d c data fs = (.error .ENOENT, fs) := by
  have hcreate : createAt umask d c data.mode fs = (.error .ENOENT, fs) :=
    Proc.change_of_error (Fs.mknodAt_of_no_dir hcv h)
  have hopen : openNewAt umask d c data.mode fs = (.error .ENOENT, fs) := by
    unfold openNewAt
    rw [Proc.handle_of_error hcreate, if_neg (by decide)]
    rfl
  unfold fillNew
  refine Proc.bind_of_error ?_
  unfold writeNew
  exact Proc.bind_of_error hopen

/-- No file is written over a directory. -/
theorem writeNew_of_isDir {content : Bytes} {mode : Mode} (h : fs.IsDir (d ++ [c])) :
    writeNew umask d c content mode fs = (.error .EISDIR, fs) := by
  unfold writeNew
  exact Proc.bind_of_error (openNewAt_of_isDir h)

theorem fillNew_of_isDir {data : FileData} (h : fs.IsDir (d ++ [c])) :
    fillNew umask d c data fs = (.error .EISDIR, fs) := by
  unfold fillNew
  exact Proc.bind_of_error (writeNew_of_isDir h)

/-- One change to a file that has one name. -/
theorem change_modifyAt {f : FileData → FileData} {i : Nat} {data : FileData}
    (hp : fs.get (d ++ [c]) = some (.file i data))
    (hunique : ∀ q data', fs.get q = some (.file i data') → q = d ++ [c]) :
    ∃ fs', (Proc.change (·.modifyAt d c f) : Sys Unit) fs = (.ok (), fs') ∧
      ∀ q, fs'.get q = if q = d ++ [c] then some (.file i (f data)) else fs.get q :=
  ⟨fs.mapInode i f, Proc.change_of_ok (Fs.modifyAt_of_file hp),
    Fs.get_mapInode_of_unique hp hunique⟩

/-- A change to a file written a moment ago: its inode has no other name. -/
theorem change_fresh (f : FileData → FileData) {ino : Nat} {data : FileData} {fs₁ : Fs}
    (huniq : ∀ q data', fs.get q = some (.file ino data') → q = d ++ [c])
    (hget : ∀ q, fs₁.get q = if q = d ++ [c] then some (.file ino data) else fs.get q) :
    ∃ fs₂, (Proc.change (·.modifyAt d c f) : Sys Unit) fs₁ = (.ok (), fs₂) ∧
      ∀ q, fs₂.get q = if q = d ++ [c] then some (.file ino (f data)) else fs.get q := by
  have honly : ∀ q data', fs₁.get q = some (.file ino data') → q = d ++ [c] := by
    intro q data' hq
    by_contra hne
    rw [hget, if_neg hne] at hq
    exact hne (huniq q data' hq)
  have hhere : fs₁.get (d ++ [c]) = some (.file ino data) := by rw [hget, if_pos rfl]
  obtain ⟨fs₂, hrun, hget₂⟩ : ∃ fs₂, (Proc.change (·.modifyAt d c f) : Sys Unit) fs₁ =
      (.ok (), fs₂) ∧ _ := change_modifyAt hhere honly
  refine ⟨fs₂, hrun, fun q => ?_⟩
  rw [hget₂]
  split
  · rfl
  · rw [hget, if_neg ‹_›]

/-- The file ends up with the content and the mode it was given, on an inode that has no
other name. -/
theorem writeNew_of_not_isDir (umask : Mode) (content : Bytes) (mode : Mode) (hcv : ValidName c)
    (hd : fs.IsDir d) (h : ¬ fs.IsDir (d ++ [c])) :
    ∃ fs' ino, writeNew umask d c content mode fs = (.ok (), fs') ∧
      (∀ q, fs'.get q = if q = d ++ [c] then some (.file ino ⟨content, mode, 0⟩) else fs.get q) ∧
      ∀ q data', fs.get q = some (.file ino data') → q = d ++ [c] := by
  obtain ⟨fs₀, ino, hrun₀, hget₀, huniq⟩ := openNewAt_of_not_isDir umask mode hcv hd h
  obtain ⟨fs₁, hrun₁, hget₁⟩ := change_fresh (fun f => { f with content }) huniq hget₀
  obtain ⟨fs₂, hrun₂, hget₂⟩ := change_fresh (fun f => { f with mode }) huniq hget₁
  refine ⟨fs₂, ino, ?_, hget₂, huniq⟩
  unfold writeNew
  rw [Proc.bind_of_ok hrun₀, Proc.bind_of_ok hrun₁, Proc.quietly_of_ok hrun₂]

/-- With its time set as well it is the file it was given. -/
theorem fillNew_of_not_isDir (umask : Mode) (data : FileData) (hcv : ValidName c) (hd : fs.IsDir d)
    (h : ¬ fs.IsDir (d ++ [c])) :
    ∃ fs' ino, fillNew umask d c data fs = (.ok (), fs') ∧
      (∀ q, fs'.get q = if q = d ++ [c] then some (.file ino data) else fs.get q) ∧
      ∀ q data', fs.get q = some (.file ino data') → q = d ++ [c] := by
  obtain ⟨fs₀, ino, hrun₀, hget₀, huniq⟩ :=
    writeNew_of_not_isDir umask data.content data.mode hcv hd h
  obtain ⟨fs₁, hrun₁, hget₁⟩ := change_fresh (fun f => { f with mtime := data.mtime }) huniq hget₀
  refine ⟨fs₁, ino, ?_, hget₁, huniq⟩
  unfold fillNew
  rw [Proc.bind_of_ok hrun₀, Proc.quietly_of_ok hrun₁]

/-! ### The same where calls may be refused -/

variable {R : Refusals} {mode : Mode}

/-- A call that is not refused is itself. -/
theorem refusing_false {α : Type} (call : Sys α) : refusing false call = call := rfl

/-- One that is refused changes nothing. -/
theorem refusing_true {α : Type} (call : Sys α) : refusing true call fs = (.error .EACCES, fs) := rfl

/-- What a call keeps it keeps when it may be refused. -/
theorem keeps_refusing {α : Type} {I : Fs → Prop} {Q : α → Prop} {call : Sys α} (refused : Bool)
    (h : Proc.Keeps I call Q) : Proc.Keeps I (refusing refused call) Q := by
  cases refused with
  | true => exact Proc.Keeps.fail
  | false => exact h

/-- A free name becomes a new file. -/
theorem createIn_of_free (umask mode : Mode) (hcv : ValidName c) (hd : fs.IsDir d)
    (hfree : fs.get (d ++ [c]) = none) (hcreate : R .create (d ++ [c]) = false) :
    ∃ fs' ino, createIn R umask d c mode fs = (.ok (), fs') ∧
      (∀ q, fs'.get q =
        if q = d ++ [c] then some (.file ino ⟨[], mode &&& ~~~umask, 0⟩) else fs.get q) ∧
      ∀ q data, fs.get q ≠ some (.file ino data) := by
  obtain ⟨fs', hfs'⟩ := Fs.mknodAt_of_free
    (e := .file fs.freshIno ⟨[], mode &&& ~~~umask, 0⟩) hcv hd (by nofun) hfree
  obtain ⟨-, -, -, hget⟩ := Fs.mknodAt_ok hfs'
  refine ⟨fs', fs.freshIno, Proc.change_of_ok ?_, hget, fun q data hq => ?_⟩
  · rw [hcreate, Bool.false_and, if_neg (by simp)]
    exact hfs'
  · exact absurd (Fs.ino_lt_freshIno hq) (lt_irrefl _)

/-- A creation that is refused leaves the tree as it is. -/
theorem createIn_refused (hfree : fs.get (d ++ [c]) = none)
    (hcreate : R .create (d ++ [c]) = true) :
    createIn R umask d c mode fs = (.error .EACCES, fs) :=
  Proc.change_of_error (by rw [hcreate, hfree]; rfl)

theorem createIn_of_some {e : Entry} (h : fs.get (d ++ [c]) = some e) :
    createIn R umask d c mode fs = (.error .EEXIST, fs) :=
  Proc.change_of_error (by
    rw [h, Option.isNone_some, Bool.and_false, if_neg (by simp)]
    exact Fs.mknodAt_of_some (by nofun) h)

/-- What may not be unlinked stays, and the copy is not made. -/
theorem openNewIn_of_kept {e : Entry} (h : fs.get (d ++ [c]) = some e)
    (hkept : e.isDir = true ∨ R .unlink (d ++ [c]) = true) :
    ∃ err, openNewIn R umask d c mode fs = (.error err, fs) := by
  have hunlink : ∃ err, unlinkIn R d c fs = (.error err, fs) := by
    unfold unlinkIn
    cases hr : R .unlink (d ++ [c]) with
    | true => exact ⟨_, refusing_true _⟩
    | false =>
      have hdir : e.isDir = true := hkept.resolve_right (by simp [hr])
      cases e with
      | file i data => cases hdir
      | symlink t => cases hdir
      | dir m =>
        have hdirs : fs.IsDir (Fs.locate d c) := by
          rw [Fs.locate_valid (Fs.validName_of_get h)]
          exact ⟨m, h⟩
        have hstays : unlinkAt d c fs = (.error .EISDIR, fs) :=
          Proc.change_of_error (Fs.unlinkAt_of_dir hdirs)
        exact ⟨_, hstays⟩
  obtain ⟨err, herr⟩ := hunlink
  refine ⟨err, ?_⟩
  unfold openNewIn
  rw [Proc.handle_of_error (createIn_of_some h), if_pos rfl, Proc.bind_of_error herr]

/-- Whatever is refused, a name is left as it is, lost, or given to a new file. -/
theorem openNewIn_cases (R : Refusals) (umask mode : Mode) (fs : Fs) (hcv : ValidName c) :
    (∃ e, openNewIn R umask d c mode fs = (.error e, fs)) ∨
      (∃ e fs', openNewIn R umask d c mode fs = (.error e, fs') ∧
        ∀ q, fs'.get q = if q = d ++ [c] then none else fs.get q) ∨
      ∃ fs' ino, openNewIn R umask d c mode fs = (.ok (), fs') ∧
        (∀ q, fs'.get q =
          if q = d ++ [c] then some (.file ino ⟨[], mode &&& ~~~umask, 0⟩) else fs.get q) ∧
        ∀ q data, fs.get q = some (.file ino data) → q = d ++ [c] := by
  -- the name is free: it stays so, or a new file has it
  cases hg : fs.get (d ++ [c]) with
  | none =>
    by_cases hd : fs.IsDir d
    · cases hcreate : R .create (d ++ [c]) with
      | true =>
        refine .inl ⟨.EACCES, ?_⟩
        unfold openNewIn
        rw [Proc.handle_of_error (createIn_refused hg hcreate), if_neg (by decide)]
        rfl
      | false =>
        obtain ⟨fs', ino, hrun, hget, hfresh⟩ :=
          createIn_of_free (R := R) umask mode hcv hd hg hcreate
        refine .inr (.inr ⟨fs', ino, ?_, hget, fun q data hq => absurd hq (hfresh q data)⟩)
        unfold openNewIn
        exact Proc.handle_of_ok hrun
    -- no directory to make it in
    · have hcreate : ∃ e, e ≠ .EEXIST ∧ createIn R umask d c mode fs = (.error e, fs) := by
        cases hr : R .create (d ++ [c]) with
        | true => exact ⟨.EACCES, by decide, createIn_refused hg hr⟩
        | false =>
          refine ⟨.ENOENT, by decide, Proc.change_of_error ?_⟩
          rw [hr, Bool.false_and, if_neg (by simp)]
          exact Fs.mknodAt_of_no_dir hcv hd
      obtain ⟨e, hne, he⟩ := hcreate
      refine .inl ⟨e, ?_⟩
      unfold openNewIn
      rw [Proc.handle_of_error he, if_neg hne]
      rfl
  -- the name is taken: it stays, it goes and stays free, or a new file has it
  | some e =>
    by_cases hkept : e.isDir = true ∨ R .unlink (d ++ [c]) = true
    · exact .inl (openNewIn_of_kept hg hkept)
    · rw [not_or, Bool.not_eq_true, Bool.not_eq_true] at hkept
      obtain ⟨fs₀, hfs₀⟩ := Fs.unlinkAt_of_some hg hkept.1
      obtain ⟨-, hget₀⟩ := Fs.unlinkAt_ok hfs₀
      rw [Fs.locate_valid hcv] at hget₀
      have hunlink : unlinkIn R d c fs = (.ok (), fs₀) := by
        unfold unlinkIn
        rw [hkept.2, refusing_false]
        exact Proc.change_of_ok hfs₀
      have hfree₀ : fs₀.get (d ++ [c]) = none := by rw [hget₀, if_pos rfl]
      have hd₀ : fs₀.IsDir d := by
        obtain ⟨m, hm⟩ := Fs.isDir_parent hg
        exact ⟨m, by rw [hget₀, if_neg (by simp), hm]⟩
      have hrun₀ : openNewIn R umask d c mode fs = createIn R umask d c mode fs₀ := by
        unfold openNewIn
        rw [Proc.handle_of_error (createIn_of_some hg), if_pos rfl, Proc.bind_of_ok hunlink]
      rw [hrun₀]
      cases hcreate : R .create (d ++ [c]) with
      | true => exact .inr (.inl ⟨_, fs₀, createIn_refused hfree₀ hcreate, hget₀⟩)
      | false =>
        obtain ⟨fs', ino, hrun, hget, hfresh⟩ :=
          createIn_of_free (R := R) umask mode hcv hd₀ hfree₀ hcreate
        refine .inr (.inr ⟨fs', ino, hrun, fun q => ?_, fun q data hq => ?_⟩)
        · rw [hget]
          split
          · rfl
          · rw [hget₀, if_neg ‹_›]
        · by_contra hne
          exact hfresh q data (by rw [hget₀, if_neg hne, hq])

/-- Where the name is free and nothing that a copy takes is refused, the copy stands under it; where
only the writing is, an empty file does. -/
theorem copyFileAt_of_free {srcDir : Path} {srcName : Name} {i : Nat} {data : FileData}
    (umask : Mode) (hsrc : ValidName srcName)
    (hfile : fs.get (srcDir ++ [srcName]) = some (.file i data))
    (hread : R .read (srcDir ++ [srcName]) = false) (hcv : ValidName c) (hd : fs.IsDir d)
    (hfree : fs.get (d ++ [c]) = none) (hcreate : R .create (d ++ [c]) = false) :
    ∃ ino data', (∀ q, (copyFileAt R umask srcDir srcName d c fs).2.get q =
        if q = d ++ [c] then some (.file ino data') else fs.get q) ∧
      (data'.content = data.content ↔ data.content = [] ∨ R .write (d ++ [c]) = false) := by
  have hopen : refusing (R .read (srcDir ++ [srcName])) (openRegularAt srcDir srcName) fs =
      (.ok data, fs) := by
    rw [hread, refusing_false]
    unfold openRegularAt readRegular
    rw [Proc.look_apply, Fs.locate_valid hsrc, hfile]
  obtain ⟨fs₀, ino, hrun₀, hget₀, hfresh⟩ :=
    createIn_of_free (R := R) umask data.mode hcv hd hfree hcreate
  have huniq : ∀ q data', fs.get q = some (.file ino data') → q = d ++ [c] := fun q data' hq =>
    absurd hq (hfresh q data')
  have hnew : openNewIn R umask d c data.mode fs = (.ok (), fs₀) := by
    unfold openNewIn
    exact Proc.handle_of_ok hrun₀
  unfold copyFileAt
  rw [Proc.bind_of_ok hopen, Proc.bind_of_ok hnew]
  cases hwrite : (R .write (d ++ [c]) && data.content != []) with
  | true =>
    -- the new file stays as it was made
    rw [Proc.bind_of_error (refusing_true _)]
    refine ⟨ino, _, hget₀, ?_⟩
    rw [Bool.and_eq_true, bne_iff_ne] at hwrite
    rw [hwrite.1]
    simp [hwrite.2, eq_comm]
  | false =>
    obtain ⟨fs₁, hrun₁, hget₁⟩ := change_fresh (fun f => { f with content := data.content }) huniq
      hget₀
    obtain ⟨fs₂, hrun₂, hget₂⟩ := change_fresh (fun f => { f with mode := data.mode }) huniq hget₁
    obtain ⟨fs₃, hrun₃, hget₃⟩ := change_fresh (fun f => { f with mtime := data.mtime }) huniq hget₂
    rw [refusing_false, Proc.bind_of_ok hrun₁, Proc.bind_of_ok (Proc.quietly_of_ok hrun₂),
      Proc.quietly_of_ok hrun₃]
    refine ⟨ino, _, hget₃, ?_⟩
    rw [Bool.and_eq_false_iff, bne_eq_false_iff_eq] at hwrite
    simp [hwrite.symm]

/-- Whatever is refused, a copy leaves the name as it is, takes it away or puts a file there. -/
theorem copyFileAt_cases (R : Refusals) (umask : Mode) (srcDir : Path) (srcName : Name) (fs : Fs)
    (hcv : ValidName c) :
    (copyFileAt R umask srcDir srcName d c fs).2 = fs ∨
      (∀ q, (copyFileAt R umask srcDir srcName d c fs).2.get q =
        if q = d ++ [c] then none else fs.get q) ∨
      ∃ ino data', (∀ q, (copyFileAt R umask srcDir srcName d c fs).2.get q =
          if q = d ++ [c] then some (.file ino data') else fs.get q) ∧
        ∀ q data, fs.get q = some (.file ino data) → q = d ++ [c] := by
  unfold copyFileAt
  -- the open of the source changes nothing, whether or not it is refused
  cases hopen : refusing (R .read (srcDir ++ [srcName])) (openRegularAt srcDir srcName) fs with
  | mk answer fs' =>
    have hsame : fs' = fs := by
      have hlook : (refusing (R .read (srcDir ++ [srcName])) (openRegularAt srcDir srcName) fs).2 =
          fs := by
        cases R .read (srcDir ++ [srcName]) <;> rfl
      rw [hopen] at hlook
      exact hlook
    subst hsame
    cases answer with
    | error e =>
      rw [Proc.bind_of_error hopen]
      exact .inl rfl
    | ok data =>
      rw [Proc.bind_of_ok hopen]
      -- a name left, a name lost, or a new file under it
      rcases openNewIn_cases R umask data.mode fs' hcv with ⟨e, he⟩ | ⟨e, fs₀, he, hget⟩ |
        ⟨fs₀, ino, hok, hget₀, huniq⟩
      · rw [Proc.bind_of_error he]
        exact .inl rfl
      · rw [Proc.bind_of_error he]
        exact .inr (.inl hget)
      · rw [Proc.bind_of_ok hok]
        refine .inr (.inr ?_)
        cases R .write (d ++ [c]) && data.content != [] with
        -- a refused write leaves the new file empty
        | true =>
          rw [Proc.bind_of_error (refusing_true _)]
          exact ⟨ino, _, hget₀, huniq⟩
        | false =>
          obtain ⟨fs₁, hrun₁, hget₁⟩ :=
            change_fresh (fun f => { f with content := data.content }) huniq hget₀
          obtain ⟨fs₂, hrun₂, hget₂⟩ := change_fresh (fun f => { f with mode := data.mode }) huniq hget₁
          obtain ⟨fs₃, hrun₃, hget₃⟩ :=
            change_fresh (fun f => { f with mtime := data.mtime }) huniq hget₂
          rw [refusing_false, Proc.bind_of_ok hrun₁, Proc.bind_of_ok (Proc.quietly_of_ok hrun₂),
            Proc.quietly_of_ok hrun₃]
          exact ⟨ino, _, hget₃, huniq⟩

end Fill

/-! ## Making a directory -/

section MakeDir

variable {umask mode : Mode} {fs : Fs} {d : Path} {name : Name}

/-- A look finds what is there. -/
theorem lstatAt_of_get {e : Entry} (h : fs.get (d ++ [name]) = some e) :
    lstatAt d name fs = (.ok e, fs) := by
  unfold lstatAt Fs.lstatAt
  rw [Proc.look_apply, Fs.locate_valid (Fs.validName_of_get h), h]

theorem lstatAt_of_none (hv : ValidName name) (h : fs.get (d ++ [name]) = none) :
    lstatAt d name fs = (.error .ENOENT, fs) := by
  unfold lstatAt Fs.lstatAt
  rw [Proc.look_apply, Fs.locate_valid hv, h]

/-- A new directory where nothing was is the only change. -/
theorem mkdirAt_of_none (umask : Mode) (hv : ValidName name) (hd : fs.IsDir d)
    (h : fs.get (d ++ [name]) = none) :
    ∃ fs', mkdirAt umask d name fs = (.ok (), fs') ∧
      ∀ q, fs'.get q = if q = d ++ [name] then some (.dir (newDirMode umask)) else fs.get q := by
  obtain ⟨fs', hfs'⟩ := Fs.mknodAt_of_free (e := .dir (newDirMode umask)) hv hd (by nofun) h
  obtain ⟨-, -, -, hget⟩ := Fs.mknodAt_ok hfs'
  exact ⟨fs', Proc.change_of_ok hfs', hget⟩

/-- Setting the mode of a directory by its name changes its entry alone. -/
theorem chmodAt_isDir (mode : Mode) (h : fs.IsDir (d ++ [name])) :
    ∃ fs', chmodAt d name mode fs = (.ok (), fs') ∧
      ∀ q, fs'.get q = if q = d ++ [name] then some (.dir mode) else fs.get q := by
  obtain ⟨fs', hfs', hget⟩ := Fs.chmodAt_of_dir mode h
  exact ⟨fs', Proc.quietly_of_ok (Proc.change_of_ok hfs'), hget⟩

/-- And so does setting that of the directory itself. -/
theorem chmodAt_self (mode : Mode) (h : fs.IsDir d) :
    ∃ fs', chmodAt d ['.'] mode fs = (.ok (), fs') ∧
      ∀ q, fs'.get q = if q = d then some (.dir mode) else fs.get q := by
  obtain ⟨fs', hfs', hget⟩ : ∃ fs', fs.chmodAt d ['.'] mode = .ok fs' ∧
      ∀ q, fs'.get q = if q = Fs.locate d ['.'] then some (.dir mode) else fs.get q :=
    Fs.chmodAt_of_located mode h
  exact ⟨fs', Proc.quietly_of_ok (Proc.change_of_ok hfs'), hget⟩

/-- A plain file in the way is not replaced. -/
theorem replaceDir_of_file {i : Nat} {data : FileData}
    (h : fs.get (d ++ [name]) = some (.file i data)) :
    replaceDir umask d name mode fs = (.error .EEXIST, fs) := by
  have hl := lstatAt_of_get h
  have hmk : mkdirAt umask d name fs = (.error .EEXIST, fs) :=
    Proc.change_of_error (Fs.mknodAt_of_some (by nofun) h)
  unfold replaceDir
  rw [Proc.bind_of_ok (Proc.optional_of_ok hl)]
  refine Proc.bind_of_error ?_
  rw [Proc.handle_of_error hmk, if_pos rfl, Proc.bind_of_ok (Proc.optional_of_ok hl)]
  rfl

/-- A directory of the mode replaces a link, and takes the place of a directory without
touching what is in it. -/
theorem replaceDir_of_not_file (umask mode : Mode) (hv : ValidName name) (hd : fs.IsDir d)
    (h : ∀ i data, fs.get (d ++ [name]) ≠ some (.file i data)) :
    ∃ fs', replaceDir umask d name mode fs = (.ok (), fs') ∧
      ∀ q, fs'.get q =
        if q = d ++ [name] then some (.dir mode) else fs.get q := by
  -- from any tree where the name is free and the rest is as in `fs`
  have fresh : ∀ fs₀ : Fs, fs₀.IsDir d → fs₀.get (d ++ [name]) = none →
      (∀ q, q ≠ d ++ [name] → fs₀.get q = fs.get q) →
      ∃ fs', (do
          (mkdirAt umask d name).handle fun e =>
            if e = .EEXIST then do
              match ← (lstatAt d name).optional with
              | some (.dir _) => pure ()
              | _ => .fail .EEXIST
            else .fail e
          chmodAt d name mode : Sys Unit) fs₀ = (.ok (), fs') ∧
        ∀ q, fs'.get q =
          if q = d ++ [name] then some (.dir mode) else fs.get q := by
    intro fs₀ hd₀ hnone hsame
    obtain ⟨fs₁, hrun₁, hget₁⟩ := mkdirAt_of_none umask hv hd₀ hnone
    have hdir₁ : fs₁.IsDir (d ++ [name]) := ⟨newDirMode umask, by rw [hget₁, if_pos rfl]⟩
    obtain ⟨fs₂, hrun₂, hget₂⟩ := chmodAt_isDir mode hdir₁
    refine ⟨fs₂, by rw [Proc.bind_of_ok (Proc.handle_of_ok hrun₁), hrun₂], fun q => ?_⟩
    rw [hget₂, hget₁]
    split
    · rfl
    · exact hsame q ‹_›
  unfold replaceDir
  cases hg : fs.get (d ++ [name]) with
  | none =>
    rw [Proc.bind_of_ok (Proc.optional_of_error (lstatAt_of_none hv hg))]
    exact fresh fs hd hg fun _ _ => rfl
  | some e =>
    rw [Proc.bind_of_ok (Proc.optional_of_ok (lstatAt_of_get hg))]
    cases e with
    | file i data => exact absurd hg (h i data)
    | symlink t =>
      obtain ⟨fs₀, hfs₀⟩ := Fs.unlinkAt_of_some hg rfl
      obtain ⟨-, hget₀⟩ := Fs.unlinkAt_ok hfs₀
      rw [Fs.locate_valid hv] at hget₀
      have hunlink : unlinkQuietly d name fs = (.ok (), fs₀) :=
        Proc.quietly_of_ok (Proc.change_of_ok hfs₀)
      obtain ⟨m, hm⟩ := hd
      obtain ⟨fs', hrun, hget⟩ := fresh fs₀ ⟨m, by rw [hget₀, if_neg (by simp), hm]⟩
        (by rw [hget₀, if_pos rfl]) fun q hq => by rw [hget₀, if_neg hq]
      refine ⟨fs', ?_, hget⟩
      show (unlinkQuietly d name >>= _) fs = _
      rw [Proc.bind_of_ok hunlink]
      exact hrun
    -- a directory that is there is kept with what is in it
    | dir m =>
      have hmk : mkdirAt umask d name fs = (.error .EEXIST, fs) :=
        Proc.change_of_error (Fs.mknodAt_of_some (by nofun) hg)
      obtain ⟨fs', hrun, hget⟩ := chmodAt_isDir mode ⟨m, hg⟩
      refine ⟨fs', ?_, hget⟩
      have hkept : ((mkdirAt umask d name).handle fun e =>
          if e = .EEXIST then do
            match ← (lstatAt d name).optional with
            | some (.dir _) => pure ()
            | _ => .fail .EEXIST
          else .fail e) fs = (.ok (), fs) := by
        rw [Proc.handle_of_error hmk, if_pos rfl,
          Proc.bind_of_ok (Proc.optional_of_ok (lstatAt_of_get hg))]
        rfl
      exact (Proc.bind_of_ok hkept).trans hrun

end MakeDir

/-! ## Removing a tree -/

section Rmtree

variable {fs : Fs} {p : Path}

/-- One removal after the other, each of a tree in the same directory. -/
theorem each_remove (fs : Fs) (p : Path) (f : Name → Sys Unit) (names : List Name)
    (hf : ∀ n ∈ names, ∀ fs₁ : Fs, (∀ q, fs₁.get q = none ∨ fs₁.get q = fs.get q) →
      ∃ fs₂, f n fs₁ = (.ok (), fs₂) ∧
        ∀ q, fs₂.get q = if p ++ [n] <+: q then none else fs₁.get q) :
    ∃ fs', Proc.each f names fs = (.ok (), fs') ∧
      ∀ q, fs'.get q = if ∃ n ∈ names, p ++ [n] <+: q then none else fs.get q := by
  -- the tree the loop has reached; it only ever loses entries
  suffices H : ∀ (names' : List Name) (fs₁ : Fs), (∀ n ∈ names', n ∈ names) →
      (∀ q, fs₁.get q = none ∨ fs₁.get q = fs.get q) →
      ∃ fs', Proc.each f names' fs₁ = (.ok (), fs') ∧
        ∀ q, fs'.get q = if ∃ n ∈ names', p ++ [n] <+: q then none else fs₁.get q by
    exact H names fs (fun n hn => hn) fun q => .inr rfl
  intro names'
  induction names' with
  | nil =>
    intro fs₁ _ _
    exact ⟨fs₁, Proc.each_nil f fs₁, fun q => by simp⟩
  | cons n names' ih =>
    intro fs₁ hmem hsub
    obtain ⟨fs₂, hrun, hget⟩ := hf n (hmem n (by simp)) fs₁ hsub
    obtain ⟨fs', hrun', hget'⟩ := ih fs₂ (fun x hx => hmem x (by simp [hx])) (by
      intro q
      rw [hget]
      split
      · exact .inl rfl
      · exact hsub q)
    refine ⟨fs', by rw [Proc.each_cons_of_ok hrun, hrun'], fun q => ?_⟩
    rw [hget', hget]
    by_cases h₁ : p ++ [n] <+: q
    · simp [h₁]
    · simp [h₁]

/-- What `rmtree` removes, given a budget of levels that covers what stands there. -/
theorem rmtreeWithin_spec {fuel : Nat} {d : Path} {name : Name} (hv : ValidName name)
    (hfuel : 0 < fuel)
    (hdeep : ∀ r e, fs.get (d ++ [name] ++ r) = some e → r.length < fuel) :
    ∃ fs', rmtreeWithin fuel d name fs = (.ok (), fs') ∧
      ∀ q, fs'.get q = if d ++ [name] <+: q then none else fs.get q := by
  -- by induction on the levels left; the budget covers the depth of what stands there
  induction fuel generalizing d name fs with
  | zero => exact absurd hfuel (lt_irrefl 0)
  | succ fuel ih =>
    have hloc : Fs.locate d name = d ++ [name] := Fs.locate_valid hv
    unfold rmtreeWithin
    cases hg : fs.get (d ++ [name]) with
    -- nothing stands there, so nothing is below it
    | none =>
      have hl : lstatAt d name fs = (.error .ENOENT, fs) := by
        unfold lstatAt Fs.lstatAt
        rw [Proc.look_apply, hloc, hg]
      refine ⟨fs, by rw [Proc.bind_of_ok (Proc.optional_of_error hl)]; rfl, fun q => ?_⟩
      split
      · rename_i hpre
        obtain ⟨r, rfl⟩ := hpre
        by_cases hr : r = []
        · rw [hr, List.append_nil, hg]
        · refine Fs.get_append_eq_none hr fun ⟨m, hm⟩ => ?_
          rw [hg] at hm
          cases hm
      · rfl
    | some e =>
      have hl : lstatAt d name fs = (.ok e, fs) := by
        unfold lstatAt Fs.lstatAt
        rw [Proc.look_apply, hloc, hg]
      rw [Proc.bind_of_ok (Proc.optional_of_ok hl)]
      -- what is no directory is unlinked, and had nothing below it
      have leaf : e.isDir = false →
          ∃ fs', (unlinkAt d name).ignoring .ENOENT fs = (.ok (), fs') ∧
            ∀ q, fs'.get q = if d ++ [name] <+: q then none else fs.get q := by
        intro he
        obtain ⟨fs', hfs'⟩ := Fs.unlinkAt_of_some hg he
        obtain ⟨-, hget⟩ := Fs.unlinkAt_ok hfs'
        refine ⟨fs', Proc.ignoring_of_ok (Proc.change_of_ok hfs'), fun q => ?_⟩
        rw [hget, hloc]
        by_cases hq : q = d ++ [name]
        · rw [if_pos hq, if_pos (by rw [hq])]
        · rw [if_neg hq]
          split
          · rename_i hpre
            obtain ⟨r, rfl⟩ := hpre
            refine Fs.get_append_eq_none (by rintro rfl; simp at hq) fun ⟨m, hm⟩ => ?_
            rw [hg, Option.some.injEq] at hm
            rw [hm] at he
            cases he
          · rfl
      cases e with
      | file i data => exact leaf rfl
      | symlink t => exact leaf rfl
      | dir m =>
        have hdir : fs.IsDir (d ++ [name]) := ⟨m, hg⟩
        have hopen : opendirAt d name fs = (.ok (d ++ [name]), fs) := by
          unfold opendirAt
          rw [Proc.look_apply, openDirAt_of_isDir hv hdir]
        have hlist : listdirAt (d ++ [name]) fs = (.ok (fs.listdir (d ++ [name])), fs) := rfl
        -- each member is one level less deep
        obtain ⟨fs₁, hrun₁, hget₁⟩ := each_remove fs (d ++ [name])
          (rmtreeWithin fuel (d ++ [name])) (fs.listdir (d ++ [name])) (by
            intro n hn fs₂ hsub
            rw [Fs.mem_listdir] at hn
            obtain ⟨e', he'⟩ := Option.isSome_iff_exists.mp hn
            have hlen := hdeep [n] e' he'
            refine ih (Fs.validName_of_get he') (by simpa using hlen) fun r e'' hr => ?_
            have := hdeep (n :: r) e'' (by
              rcases hsub (d ++ [name] ++ [n] ++ r) with h | h
              · rw [h] at hr; cases hr
              · rw [h] at hr; simpa using hr)
            simpa using this)
        -- the directory is empty by now
        obtain ⟨fs', hfs'⟩ : ∃ fs', fs₁.rmdirAt d name = .ok fs' := by
          refine Fs.rmdirAt_of_empty hv ⟨m, ?_⟩ fun n => ?_
          · rw [hget₁, if_neg, hg]
            rintro ⟨n, -, hpre⟩
            have := hpre.length_le
            simp at this
          · rw [hget₁]
            split
            · rfl
            · rename_i hno
              by_contra hsome
              exact hno ⟨n, Fs.mem_listdir.mpr (Option.isSome_iff_ne_none.mpr hsome),
                List.prefix_refl _⟩
        obtain ⟨-, -, hget'⟩ := Fs.rmdirAt_ok hfs'
        refine ⟨fs', ?_, fun q => ?_⟩
        · show (opendirAt d name >>= _) fs = _
          rw [Proc.bind_of_ok hopen, Proc.bind_of_ok hlist, Proc.bind_of_ok hrun₁,
            Proc.change_of_ok hfs']
        -- what is below it was below one of its members
        · rw [hget', hget₁]
          by_cases hpre : d ++ [name] <+: q
          · rw [if_pos hpre]
            by_cases hq : q = d ++ [name]
            · rw [if_pos hq]
            · rw [if_neg hq]
              obtain ⟨r, rfl⟩ := hpre
              cases r with
              | nil => simp at hq
              | cons n r =>
                by_cases hn : (fs.get (d ++ [name] ++ [n])).isSome
                · rw [if_pos ⟨n, Fs.mem_listdir.mpr hn, r, by simp⟩]
                · have hnone : fs.get (d ++ [name] ++ [n]) = none := by simpa using hn
                  have : fs.get (d ++ [name] ++ n :: r) = none := by
                    have happ : d ++ [name] ++ n :: r = d ++ [name] ++ [n] ++ r := by simp
                    rw [happ]
                    by_cases hr : r = []
                    · rw [hr, List.append_nil, hnone]
                    · refine Fs.get_append_eq_none hr fun ⟨m', hm'⟩ => ?_
                      rw [hnone] at hm'
                      cases hm'
                  rw [this]
                  split <;> rfl
          · rw [if_neg hpre, if_neg (by rintro rfl; exact hpre (List.prefix_refl _)), if_neg]
            rintro ⟨n, -, hn⟩
            exact hpre ((List.prefix_append _ _).trans hn)

/-- No path of the tree is longer than the tree is deep. -/
theorem length_le_depth {q : Path} {e : Entry} (h : fs.get q = some e) : q.length ≤ depth fs := by
  have hmem : q ∈ fs.table.keys := by
    rw [← AList.mem_keys, ← AList.lookup_isSome]
    exact Option.isSome_iff_exists.mpr ⟨e, h⟩
  have hle : ∀ l : List Path, q ∈ l → q.length ≤ (l.map List.length).foldr max 0 := by
    intro l hl
    induction l with
    | nil => cases hl
    | cons x l ih =>
      rw [List.map_cons, List.foldr_cons]
      rcases List.mem_cons.mp hl with rfl | hl
      · exact le_max_left _ _
      · exact (ih hl).trans (le_max_right _ _)
  exact hle _ hmem

/-- `rmtree` always succeeds and removes the entry and what is below it, nothing else. -/
theorem rmtreeAt_spec (fs : Fs) (d : Path) {name : Name} (hv : ValidName name) :
    ∃ fs', rmtreeAt d name fs = (.ok (), fs') ∧
      ∀ q, fs'.get q = if d ++ [name] <+: q then none else fs.get q := by
  refine rmtreeWithin_spec hv (Nat.succ_pos _) fun r e hr => ?_
  have := length_le_depth hr
  simp only [List.length_append] at this
  omega

end Rmtree

end Dirfd

end ProotDistro
