import ProotDistro.Lib.Numeral
import ProotDistro.Execenv

/-!
# `build_engine/users`: the ids of a USER

A RUN step is executed as the ids its USER resolves to in the rootfs's own `/etc/passwd` and
`/etc/group`. A number stands for itself; a name is looked up; and what is not there stands for a
default.

The two files are given as the texts the guest walk reads. A `none` is a number that `int` does
not read, which ends the step with a `ValueError`.

* **`resolveId_eq`** — an id is a number, or what the file says of a name, or the default.
* **`resolveUserForProot_eq`** — what a USER resolves to, name by name.
-/

namespace ProotDistro

namespace Users

/-! ## The files of a rootfs -/

/-- What the guest walk finds at the path of a file. -/
inductive GuestText where
  | missing
  | unreadable
  | text (data : Str)

/-- `guest_file_exists` -/
def GuestText.exists? : GuestText → Bool
  | .missing => false
  | .unreadable | .text _ => true

def maxIdFileBytes : Nat := 2 ^ 20

/-- `read_capped`: no more than the cap, without the line it cuts. -/
def readCapped (data : Str) : Str :=
  if data.length ≤ maxIdFileBytes then data
  else (data.take maxIdFileBytes).rdropWhile (· ≠ '\n')

/-- `read_guest_file` -/
def readGuestFile : GuestText → Option Str
  | .missing | .unreadable => none
  | .text data => some (readCapped data)

structure IdFiles where
  passwd : GuestText
  group : GuestText

/-- The fields of a line. -/
def fields (line : Str) : List Str := line.splitOn ':'

/-- A field, and nothing on a line too short for it. -/
def field (parts : List Str) (i : Nat) : Str := parts.getD i []

/-! ## A USER -/

/-- The line `resolve_id` takes for a name: the first one with that name and an id. -/
def idLine (data name : Str) : Option (List Str) :=
  ((Text.splitlines data).map fields).find? fun parts => parts.head? = some name ∧ 2 < parts.length

/-- `resolve_id` -/
def resolveId (file : GuestText) (name : Str) (default : Int) : Option Int :=
  if name = [] then some default
  else if Text.isDigits name then Text.readInt name
  else
    match readGuestFile file with
    | none => some default
    | some data =>
      match idLine data name with
      | none => some default
      | some parts => some ((Text.readInt (field parts 2)).getD default)

/-- The user and the group of a specification, no group being an empty one. -/
def splitUser (spec : Str) : Str × Str :=
  if ':' ∈ spec then Text.partition ':' spec else (spec, [])

/-- The ids of a user and a group, the user's own where there is no group. -/
def resolvePair (files : IdFiles) (user group : Str) : Option (Int × Int) :=
  (resolveId files.passwd user 0).bind fun uid =>
    (if group ≠ [] then resolveId files.group group uid else some uid).map fun gid => (uid, gid)

def resolveUserForProot (files : IdFiles) (userSpec : Str) : Option (Int × Int) :=
  if userSpec = [] then some (0, 0)
  else
    let spec := Text.strip userSpec
    resolvePair files (splitUser spec).1 (splitUser spec).2

/-! ## What an id is -/

/-- The number the file has for a name. -/
def numberOf (file : GuestText) (name : Str) : Option Int :=
  if name = [] then none
  else ((readGuestFile file).bind fun data => idLine data name).bind fun parts =>
    Text.readInt (field parts 2)

section Ids

variable {files : IdFiles} {file : GuestText} {name group spec : Str} {default uid gid id : Int}

/-- **What `resolve_id` answers**: a number is itself, and a name what the file has for it or else
the default. -/
theorem resolveId_eq :
    resolveId file name default =
      if Text.isDigits name then Text.readInt name
      else some ((numberOf file name).getD default) := by
  unfold resolveId numberOf
  by_cases hname : name = []
  · rw [if_pos hname, if_pos hname, hname, if_neg (show ¬ Text.isDigits [] = true by decide)]
    rfl
  · rw [if_neg hname, if_neg hname]
    split
    · rfl
    · cases hread : readGuestFile file with
      | none => rfl
      | some data =>
        dsimp only [Option.bind_some]
        cases idLine data name with
        | none => rfl
        | some parts => rfl

/-- What an id is read as: the number itself, or what the file has for the name, or else the
default. -/
def ReadsAs (file : GuestText) (name : Str) (default id : Int) : Prop :=
  if Text.isDigits name then Text.readInt name = some id
  else (numberOf file name).getD default = id

/-- A number is resolved as the file reads. -/
theorem resolveId_eq_some :
    resolveId file name default = some id ↔ ReadsAs file name default id := by
  rw [resolveId_eq]
  unfold ReadsAs
  split
  · exact Iff.rfl
  · rw [Option.some.injEq]

/-- No name is the default. -/
theorem readsAs_nil : ReadsAs file [] default id ↔ default = id := by
  rw [← resolveId_eq_some]
  unfold resolveId
  rw [if_pos rfl, Option.some.injEq]

/-- The group a step is executed with: the user's own id where none is given. -/
theorem resolvePair_eq_some :
    resolvePair files name group = some (uid, gid) ↔
      ReadsAs files.passwd name 0 uid ∧ ReadsAs files.group group uid gid := by
  unfold resolvePair
  rw [Option.bind_eq_some_iff]
  constructor
  · rintro ⟨uid', huid, hpair⟩
    obtain ⟨gid', hgid, heq⟩ := Option.map_eq_some_iff.mp hpair
    rw [Prod.mk.injEq] at heq
    rw [heq.1] at huid hgid
    rw [heq.2] at hgid
    refine ⟨resolveId_eq_some.mp huid, ?_⟩
    split at hgid
    · exact resolveId_eq_some.mp hgid
    · rename_i hnone
      rw [not_ne_iff] at hnone
      rw [hnone, readsAs_nil]
      exact Option.some.inj hgid
  · rintro ⟨huid, hgid⟩
    refine ⟨uid, resolveId_eq_some.mpr huid, Option.map_eq_some_iff.mpr ⟨gid, ?_, rfl⟩⟩
    split
    · exact resolveId_eq_some.mpr hgid
    · rename_i hnone
      rw [not_ne_iff] at hnone
      rw [hnone, readsAs_nil] at hgid
      rw [hgid]

/-- **What a USER resolves to**: the ids its two names are read as. -/
theorem resolveUserForProot_eq :
    resolveUserForProot files spec = some (uid, gid) ↔
      ReadsAs files.passwd (splitUser (Text.strip spec)).1 0 uid ∧
        ReadsAs files.group (splitUser (Text.strip spec)).2 uid gid := by
  unfold resolveUserForProot
  by_cases hspec : spec = []
  · rw [if_pos hspec, hspec]
    show some ((0 : Int), (0 : Int)) = some (uid, gid) ↔
      ReadsAs files.passwd [] 0 uid ∧ ReadsAs files.group [] uid gid
    rw [readsAs_nil, readsAs_nil, Option.some.injEq, Prod.mk.injEq]
    constructor
    · rintro ⟨huid, hgid⟩
      exact ⟨huid, huid ▸ hgid⟩
    · rintro ⟨huid, hgid⟩
      exact ⟨huid, huid.trans hgid⟩
  · rw [if_neg hspec]
    exact resolvePair_eq_some

end Ids

end Users

end ProotDistro
