import ProotDistro.BuildEngine.Users
import ProotDistro.Lib.Result

/-!
# `login/passwd` and `commands/login`: the user of a session

`login --user` looks its user up in the container's own `/etc/passwd` and `/etc/group`, the files a
RUN step looks its USER up in. The two lookups are written apart, and do not answer alike: `login`
drops the white space around a line and refuses what it does not find, where a RUN step takes the
lines as they are and falls back to a default.

An error is the text that is printed before the program exits.

* **`resolveLoginUser_iff`** — what `login` takes, in terms of the lines of the two files.
* **`unknown_user_runs_as_root`** — a name that `login` does not know is executed as root.
* **`login_run_agree_iff`** — the files and the specifications the two lookups answer alike for.
-/

namespace ProotDistro

open Users

namespace Login

/-! ## The files -/

/-- `_entries` -/
def entries (file : GuestText) : List (List Str) :=
  match readGuestFile file with
  | none => []
  | some data => (Text.splitlines data).map fun line => fields (Text.strip line)

/-- The line `login` takes for a user. -/
def passwdLine (file : GuestText) (user : Str) : Option (List Str) :=
  (entries file).find? fun parts => parts.head? = some user

/-- The line `login` takes for a number. -/
def uidLine (file : GuestText) (uid : Str) : Option (List Str) :=
  (entries file).find? fun parts => 7 ≤ parts.length ∧ field parts 2 = uid

/-- The line `login` takes for a group. -/
def groupLine (file : GuestText) (group : Str) : Option (List Str) :=
  (entries file).find? fun parts => parts.head? = some group ∧ 2 < parts.length

def readPasswdEntry (file : GuestText) (user : Str) : List Str := (passwdLine file user).getD []

def passwdField (parts : List Str) (i : Nat) : Str := field parts i

/-- The home, the shell and the primary group of a number. -/
def findPasswdByUid (file : GuestText) (uid : Str) : Str × Str × Str :=
  match uidLine file uid with
  | none => ([], [], [])
  | some parts => (field parts 5, field parts 6, field parts 3)

def readGroupGid (file : GuestText) (group : Str) : Str :=
  match groupLine file group with
  | none => []
  | some parts => field parts 2

/-! ## The user -/

structure LoginUser where
  name : Str
  uid : Str
  gid : Str
  home : Str
  shell : Str

/-- `s or t` -/
def orElse (s t : Str) : Str := if s = [] then t else s

/-- The user and the group of the option. -/
def splitLoginUser (userArg : Str) : Except Str (Str × Option Str) :=
  if ':' ∈ userArg then
    let (user, group) := Text.partition ':' userArg
    if user = [] ∨ group = [] then
      .error ("'--user' with ':' separator requires both user and group to be " ++
        "non-empty.").toList
    else .ok (user, some group)
  else .ok (userArg, none)

/-- What `/etc/passwd` says of a user, and the primary group. -/
def loginEntry (files : IdFiles) (user : Str) : Except Str (LoginUser × Str) :=
  if Text.isDigits user then
    let (home, shell, primary) := findPasswdByUid files.passwd user
    .ok (⟨user, user, [], orElse home "/".toList, orElse shell "/bin/sh".toList⟩, primary)
  else
    let entry := readPasswdEntry files.passwd user
    if entry = [] then
      .error ("no user '".toList ++ user ++ "' defined in /etc/passwd.".toList)
    else
      let uid := passwdField entry 2
      if uid = [] then .error ("failed to retrieve UID for user '".toList ++ user ++ "'.".toList)
      else
        .ok (⟨user, uid, [], orElse (passwdField entry 5) "/".toList,
          orElse (passwdField entry 6) "/bin/sh".toList⟩, passwdField entry 3)

/-- The group of a session, its user's own without one. -/
def loginGroup (files : IdFiles) (uid primary : Str) : Option Str → Except Str Str
  | none => .ok (orElse primary uid)
  | some group =>
    if Text.isDigits group then .ok group
    else
      let gid := readGroupGid files.group group
      if gid = [] then .error ("no group '".toList ++ group ++ "' defined in /etc/group.".toList)
      else .ok gid

/-- Where there is no `/etc/passwd` only numbers are taken, and `root`. -/
def numericUser (containerName user : Str) (group : Option Str) : Except Str LoginUser := do
  let uid ←
    if user = "root".toList then .ok "0".toList
    else if Text.isDigits user then .ok user
    else .error ("container '".toList ++ containerName ++ ("' has no /etc/passwd; '--user' only " ++
      "accepts a numeric UID in this case.").toList)
  let gid ←
    match group with
    | none => .ok uid
    | some group =>
      if Text.isDigits group then .ok group
      else .error ("container '".toList ++ containerName ++ ("' has no /etc/group; '--user' only " ++
        "accepts a numeric GID in group specification.").toList)
  .ok ⟨user, uid, gid, "/".toList, "/bin/sh".toList⟩

/-- `_resolve_login_user` -/
def resolveLoginUser (files : IdFiles) (containerName userArg : Str) : Except Str LoginUser := do
  let (user, group) ← splitLoginUser userArg
  if files.passwd.exists? then
    let (entry, primary) ← loginEntry files user
    let gid ← loginGroup files entry.uid primary group
    .ok { entry with gid }
  else numericUser containerName user group

/-! ## What the lines say -/

/-- The uid of a user: the number itself, or what its line says. -/
def UidOf (file : GuestText) (user uid : Str) : Prop :=
  if Text.isDigits user then uid = user
  else uid ≠ [] ∧ ∃ parts, passwdLine file user = some parts ∧ field parts 2 = uid

/-- The primary group of a user, empty where no line gives one. -/
def primaryOf (file : GuestText) (user : Str) : Str :=
  ((if Text.isDigits user then uidLine file user else passwdLine file user).map (field · 3)).getD []

/-- The gid of a group: the number itself, or what its line says. -/
def GidOf (file : GuestText) (group gid : Str) : Prop :=
  if Text.isDigits group then gid = group
  else gid ≠ [] ∧ ∃ parts, groupLine file group = some parts ∧ field parts 2 = gid

/-- The ids `login` reads for a specification. -/
structure LoginReads (files : IdFiles) (spec uid gid : Str) : Prop where
  whole : ':' ∈ spec → (splitUser spec).1 ≠ [] ∧ (splitUser spec).2 ≠ []
  user : UidOf files.passwd (splitUser spec).1 uid
  group : if ':' ∈ spec then GidOf files.group (splitUser spec).2 gid
    else gid = orElse (primaryOf files.passwd (splitUser spec).1) uid

section Lookups

variable {files : IdFiles} {user uid gid primary spec containerName : Str} {group : Option Str}

/-- A user with a group has both sides of the colon. -/
theorem splitLoginUser_eq :
    splitLoginUser spec = .ok (user, group) ↔
      (':' ∈ spec → (splitUser spec).1 ≠ [] ∧ (splitUser spec).2 ≠ []) ∧ user = (splitUser spec).1 ∧
        group = if ':' ∈ spec then some (splitUser spec).2 else none := by
  unfold splitLoginUser splitUser
  by_cases hcolon : ':' ∈ spec
  · simp only [if_pos hcolon]
    by_cases hempty : (Text.partition ':' spec).1 = [] ∨ (Text.partition ':' spec).2 = []
    · rw [if_pos hempty]
      constructor
      · intro h
        cases h
      · rintro ⟨hwhole, -⟩
        obtain ⟨huser, hgroup⟩ := hwhole hcolon
        exact absurd hempty (not_or.mpr ⟨huser, hgroup⟩)
    · rw [if_neg hempty, Except.ok.injEq, Prod.mk.injEq]
      rw [not_or] at hempty
      constructor
      · rintro ⟨huser, hgroup⟩
        exact ⟨fun _ => hempty, huser.symm, hgroup.symm⟩
      · rintro ⟨-, huser, hgroup⟩
        exact ⟨huser.symm, hgroup.symm⟩
  · simp only [if_neg hcolon, Except.ok.injEq, Prod.mk.injEq]
    constructor
    · rintro ⟨huser, hgroup⟩
      exact ⟨fun h => absurd h hcolon, huser.symm, hgroup.symm⟩
    · rintro ⟨-, huser, hgroup⟩
      exact ⟨huser.symm, hgroup.symm⟩

/-- No line is without a field. -/
theorem entries_ne_nil {file : GuestText} {parts : List Str} (h : parts ∈ entries file) : parts ≠ [] := by
  unfold entries at h
  split at h
  · cases h
  · obtain ⟨line, -, rfl⟩ := List.mem_map.mp h
    exact List.splitOn_ne_nil _ _

/-- A line that is found has a field. -/
theorem passwdLine_ne_nil {file : GuestText} {parts : List Str}
    (h : passwdLine file user = some parts) : parts ≠ [] :=
  entries_ne_nil (List.mem_of_find?_eq_some h)

/-- What `/etc/passwd` says of a user that `login` takes. -/
theorem loginEntry_eq :
    (∃ entry, loginEntry files user = .ok (entry, primary) ∧ entry.uid = uid) ↔
      UidOf files.passwd user uid ∧ primary = primaryOf files.passwd user := by
  unfold loginEntry UidOf primaryOf findPasswdByUid readPasswdEntry passwdField
  cases Text.isDigits user with
  | true =>
    simp only [if_pos]
    cases uidLine files.passwd user with
    | none =>
      constructor
      · rintro ⟨entry, hentry, huid⟩
        cases hentry
        exact ⟨huid.symm, rfl⟩
      · rintro ⟨huid, hprimary⟩
        exact ⟨_, by rw [hprimary]; rfl, huid.symm⟩
    | some parts =>
      constructor
      · rintro ⟨entry, hentry, huid⟩
        cases hentry
        exact ⟨huid.symm, rfl⟩
      · rintro ⟨huid, hprimary⟩
        exact ⟨_, by rw [hprimary]; rfl, huid.symm⟩
  | false =>
    simp only [if_neg (show ¬ false = true by simp)]
    cases hline : passwdLine files.passwd user with
    | none =>
      rw [Option.getD_none, if_pos rfl]
      constructor
      · rintro ⟨entry, hentry, -⟩
        cases hentry
      · rintro ⟨⟨-, parts, hparts, -⟩, -⟩
        cases hparts
    | some parts =>
      rw [Option.getD_some, if_neg (passwdLine_ne_nil hline)]
      by_cases hempty : field parts 2 = []
      · rw [if_pos hempty]
        constructor
        · rintro ⟨entry, hentry, -⟩
          cases hentry
        · rintro ⟨⟨hne, parts', hparts, huid⟩, -⟩
          rw [← Option.some.inj hparts, hempty] at huid
          exact absurd huid.symm hne
      · rw [if_neg hempty]
        constructor
        · rintro ⟨entry, hentry, huid⟩
          cases hentry
          exact ⟨⟨huid ▸ hempty, parts, rfl, huid⟩, rfl⟩
        · rintro ⟨⟨-, parts', hparts, huid⟩, hprimary⟩
          rw [← Option.some.inj hparts] at huid
          exact ⟨_, by rw [hprimary]; rfl, huid⟩

/-- The group is the one named, or the user's own. -/
theorem loginGroup_eq :
    loginGroup files uid primary group = .ok gid ↔
      match group with
      | none => gid = orElse primary uid
      | some group => GidOf files.group group gid := by
  unfold loginGroup GidOf readGroupGid
  cases group with
  | none =>
    rw [Except.ok.injEq]
    exact eq_comm
  | some group =>
    dsimp only
    cases Text.isDigits group with
    | true =>
      rw [if_pos rfl, if_pos rfl, Except.ok.injEq]
      exact eq_comm
    | false =>
      rw [if_neg (show ¬ false = true by simp), if_neg (show ¬ false = true by simp)]
      cases groupLine files.group group with
      | none => simp
      | some parts =>
        dsimp only
        by_cases hempty : field parts 2 = []
        · rw [if_pos hempty]
          constructor
          · intro h
            cases h
          · rintro ⟨hne, parts', hparts, hgid⟩
            rw [← Option.some.inj hparts, hempty] at hgid
            exact absurd hgid.symm hne
        · rw [if_neg hempty, Except.ok.injEq]
          constructor
          · intro hgid
            exact ⟨hgid ▸ hempty, parts, rfl, hgid⟩
          · rintro ⟨-, parts', hparts, hgid⟩
            rwa [← Option.some.inj hparts] at hgid

/-- **What `login` takes**: the ids the lines of the files give. -/
theorem resolveLoginUser_iff (hpasswd : files.passwd.exists? = true) :
    (∃ login, resolveLoginUser files containerName spec = .ok login ∧ login.uid = uid ∧
        login.gid = gid) ↔
      LoginReads files spec uid gid := by
  unfold resolveLoginUser
  rw [hpasswd]
  simp only [if_pos]
  constructor
  · rintro ⟨login, hlogin, huid, hgid⟩
    obtain ⟨⟨user, group⟩, hsplit, hlogin⟩ := Result.bind_ok hlogin
    obtain ⟨⟨entry, primary⟩, hentry, hlogin⟩ := Result.bind_ok hlogin
    obtain ⟨gid', hgroup, hlogin⟩ := Result.bind_ok hlogin
    cases hlogin
    obtain ⟨hwhole, huser, hgroupEq⟩ := splitLoginUser_eq.mp hsplit
    obtain ⟨huidOf, hprimary⟩ := loginEntry_eq.mp ⟨entry, hentry, huid⟩
    have hgidOf := loginGroup_eq.mp hgroup
    rw [huser] at huidOf hprimary
    refine ⟨hwhole, huidOf, ?_⟩
    rw [hgroupEq, huid, hprimary] at hgidOf
    rw [show gid' = gid from hgid] at hgidOf
    split
    · rename_i hcolon
      rwa [if_pos hcolon] at hgidOf
    · rename_i hcolon
      rwa [if_neg hcolon] at hgidOf
  · intro h
    have hsplit := splitLoginUser_eq.mpr ⟨h.whole, rfl, rfl⟩
    obtain ⟨entry, hentry, huid⟩ := loginEntry_eq.mpr ⟨h.user, rfl⟩
    have hgroup : loginGroup files entry.uid (primaryOf files.passwd (splitUser spec).1)
        (if ':' ∈ spec then some (splitUser spec).2 else none) = .ok gid := by
      rw [huid, loginGroup_eq]
      have hgidOf := h.group
      by_cases hcolon : ':' ∈ spec
      · rw [if_pos hcolon] at hgidOf ⊢
        exact hgidOf
      · rw [if_neg hcolon] at hgidOf ⊢
        exact hgidOf
    refine ⟨{ entry with gid }, ?_, huid, rfl⟩
    rw [hsplit]
    show (loginEntry files (splitUser spec).1 >>= _) = _
    rw [hentry]
    show (loginGroup files entry.uid _ _ >>= _) = _
    rw [hgroup]
    rfl

end Lookups

/-! ## A name that is not there -/

section Unknown

variable {files : IdFiles} {file : GuestText} {name line spec : Str}

/-- The name on a line that has an id is the same with the white space dropped. -/
theorem fields_strip_head (hname : ∀ c, name.head? = some c → Text.isSpace c = false)
    (hhead : (fields line).head? = some name) (hlen : 2 < (fields line).length) :
    (fields (Text.strip line)).head? = some name := by
  cases hfields : fields line with
  | nil =>
    rw [hfields] at hhead
    cases hhead
  | cons first rest =>
    rw [hfields] at hhead hlen
    obtain ⟨second, rest, rfl⟩ :=
      List.exists_cons_of_ne_nil (show rest ≠ [] by rintro rfl; simp at hlen)
    have hcolon : ':' ∉ name := by
      apply Text.notMem_of_mem_splitOn
      show name ∈ fields line
      rw [hfields, ← Option.some.inj hhead]
      exact List.mem_cons_self
    obtain ⟨t, hline⟩ : ∃ t, line = name ++ ':' :: t := by
      have hjoin : [':'].intercalate (fields line) = line := List.intercalate_splitOn ':'
      refine ⟨[':'].intercalate (second :: rest), ?_⟩
      rw [← hjoin, hfields, List.intercalate_cons_cons, Option.some.inj hhead, List.append_assoc]
      rfl
    have hfront : Text.lstrip (name ++ ':' :: t) = name ++ ':' :: t := by
      cases name with
      | nil => exact Text.lstrip_cons (by decide)
      | cons c name => exact Text.lstrip_cons (hname c rfl)
    have hstrip : Text.strip line = name ++ ':' :: Text.rstrip t := by
      rw [hline]
      show Text.rstrip (Text.lstrip (name ++ ':' :: t)) = _
      rw [hfront]
      exact Text.rstrip_append_cons (by decide)
    unfold fields
    rw [hstrip, List.splitOn_append_cons_self, List.splitOn_eq_singleton hcolon]
    rfl

/-- A name that `login` has no line for has no number either. -/
theorem numberOf_eq_none (hname : ∀ c, name.head? = some c → Text.isSpace c = false)
    (hline : passwdLine file name = none) : numberOf file name = none := by
  unfold numberOf
  split
  · rfl
  · rw [Option.bind_eq_none_iff]
    intro parts hparts
    obtain ⟨data, hdata, hid⟩ := Option.bind_eq_some_iff.mp hparts
    have hfound := List.find?_some hid
    rw [decide_eq_true_eq] at hfound
    obtain ⟨line, hmem, rfl⟩ := List.mem_map.mp (List.mem_of_find?_eq_some hid)
    have hentry : fields (Text.strip line) ∈ entries file := by
      unfold entries
      rw [hdata]
      exact List.mem_map_of_mem hmem
    have hno := List.find?_eq_none.mp hline _ hentry
    rw [decide_eq_true_eq] at hno
    exact absurd (fields_strip_head hname hfound.1 hfound.2) hno

/-- The user of a specification without white space at its ends does not begin with any. -/
theorem splitUser_head (c : Char) (h : (splitUser (Text.strip spec)).1.head? = some c) :
    Text.isSpace c = false := by
  have hpre : (splitUser (Text.strip spec)).1 <+: Text.strip spec := by
    unfold splitUser
    split
    · exact List.takeWhile_prefix _
    · exact List.prefix_refl _
  obtain ⟨t, ht⟩ := hpre.trans (List.rdropWhile_prefix Text.isSpace (Text.lstrip spec))
  obtain ⟨rest, hrest⟩ := List.head?_eq_some_iff.mp h
  rw [hrest] at ht
  exact Text.lstrip_head ht.symm

/-- **A user that `login` does not know** is root for a RUN step. -/
theorem unknown_user_runs_as_root
    (hdigits : Text.isDigits (splitUser (Text.strip spec)).1 = false)
    (hline : passwdLine files.passwd (splitUser (Text.strip spec)).1 = none)
    (hgroup : (splitUser (Text.strip spec)).2 = []) :
    resolveUserForProot files spec = some (0, 0) := by
  rw [resolveUserForProot_eq, hgroup, readsAs_nil]
  unfold ReadsAs
  rw [if_neg (by rw [hdigits]; simp), numberOf_eq_none splitUser_head hline]
  exact ⟨rfl, rfl⟩

end Unknown

/-! ## The two lookups -/

/-- `login` and a RUN step answer alike: the step is executed as the ids `login` takes, and not as
root where `login` refuses. -/
structure Alike (files : IdFiles) (containerName spec : Str) : Prop where
  accepted : ∀ login uid gid, resolveLoginUser files containerName spec = .ok login →
    Text.readInt login.uid = some uid → Text.readInt login.gid = some gid →
      resolveUserForProot files (Text.strip spec) = some (uid, gid)
  refused : ∀ message, resolveLoginUser files containerName spec = .error message →
    ∀ uid gid, resolveUserForProot files (Text.strip spec) = some (uid, gid) → uid ≠ 0

/-- The lines of the files say the same to both. -/
structure LinesAgree (files : IdFiles) (spec : Str) : Prop where
  /-- The number of the user, or of the line a RUN step takes for it, is the one `login` reads. -/
  user : ∀ uid gid n m, LoginReads files spec uid gid → Text.readInt uid = some n →
    Text.readInt gid = some m → ReadsAs files.passwd (splitUser (Text.strip spec)).1 0 n
  /-- So is that of the group. -/
  group : ∀ uid gid n m, LoginReads files spec uid gid → Text.readInt uid = some n →
    Text.readInt gid = some m → (splitUser (Text.strip spec)).2 ≠ [] →
      ReadsAs files.group (splitUser (Text.strip spec)).2 n m
  /-- Without a group, the primary group of the user has the user's own number. -/
  primary : ∀ uid gid n m, LoginReads files spec uid gid → Text.readInt uid = some n →
    Text.readInt gid = some m → (splitUser (Text.strip spec)).2 = [] → m = n
  /-- Where `login` reads nothing, the user's number is there and not that of root, or the group is
  one that `int` does not read. -/
  refused : (∀ uid gid, ¬ LoginReads files spec uid gid) →
    ReadsAs files.passwd (splitUser (Text.strip spec)).1 0 0 →
      Text.isDigits (splitUser (Text.strip spec)).2 = true ∧
        Text.readInt (splitUser (Text.strip spec)).2 = none

section Agreement

variable {files : IdFiles} {containerName spec : Str}

/-- A group is read as some number, unless it is one that `int` does not read. -/
theorem exists_readsAs {file : GuestText} {group : Str} {default : Int} :
    (∃ gid, ReadsAs file group default gid) ↔
      ¬ (Text.isDigits group = true ∧ Text.readInt group = none) := by
  unfold ReadsAs
  cases Text.isDigits group with
  | false => simp
  | true =>
    simp only [if_pos, true_and]
    rw [← Option.ne_none_iff_exists']

/-- `login` refuses what it reads no ids for. -/
theorem resolveLoginUser_refuses (hpasswd : files.passwd.exists? = true) :
    (∃ message, resolveLoginUser files containerName spec = .error message) ↔
      ∀ uid gid, ¬ LoginReads files spec uid gid := by
  constructor
  · rintro ⟨message, herror⟩ uid gid hreads
    obtain ⟨login, hlogin, -⟩ := (resolveLoginUser_iff hpasswd).mpr hreads
    rw [herror] at hlogin
    cases hlogin
  · intro hnone
    cases hresult : resolveLoginUser files containerName spec with
    | error message => exact ⟨message, rfl⟩
    | ok login =>
      exact absurd ((resolveLoginUser_iff hpasswd).mp ⟨login, hresult, rfl, rfl⟩) (hnone _ _)

/-- What a USER without white space at its ends resolves to. -/
theorem resolveUserForProot_strip {uid gid : Int} :
    resolveUserForProot files (Text.strip spec) = some (uid, gid) ↔
      ReadsAs files.passwd (splitUser (Text.strip spec)).1 0 uid ∧
        ReadsAs files.group (splitUser (Text.strip spec)).2 uid gid := by
  rw [resolveUserForProot_eq, Text.strip_strip]

/-- **When `login` and a RUN step resolve a user alike**: if and only if the lines say the same to
both. -/
theorem login_run_agree_iff (hpasswd : files.passwd.exists? = true) :
    Alike files containerName spec ↔ LinesAgree files spec := by
  constructor
  · intro h
    have hboth : ∀ uid gid n m, LoginReads files spec uid gid → Text.readInt uid = some n →
        Text.readInt gid = some m →
          ReadsAs files.passwd (splitUser (Text.strip spec)).1 0 n ∧
            ReadsAs files.group (splitUser (Text.strip spec)).2 n m := by
      intro uid gid n m hreads hn hm
      obtain ⟨login, hlogin, rfl, rfl⟩ := (resolveLoginUser_iff hpasswd).mpr hreads
      exact resolveUserForProot_strip.mp (h.accepted login n m hlogin hn hm)
    refine ⟨fun uid gid n m hreads hn hm => (hboth uid gid n m hreads hn hm).1,
      fun uid gid n m hreads hn hm _ => (hboth uid gid n m hreads hn hm).2, ?_, ?_⟩
    · intro uid gid n m hreads hn hm hgroup
      have hgid := (hboth uid gid n m hreads hn hm).2
      rw [hgroup, readsAs_nil] at hgid
      exact hgid.symm
    · intro hnone hroot
      obtain ⟨message, herror⟩ := (resolveLoginUser_refuses hpasswd).mpr hnone
      -- a group that is read as some number would have the step executed as root
      by_contra hgroup
      obtain ⟨gid, hgid⟩ := exists_readsAs.mpr hgroup
      exact h.refused message herror 0 gid (resolveUserForProot_strip.mpr ⟨hroot, hgid⟩) rfl
  · intro h
    refine ⟨?_, ?_⟩
    · intro login n m hlogin hn hm
      have hreads := (resolveLoginUser_iff hpasswd).mp ⟨login, hlogin, rfl, rfl⟩
      refine resolveUserForProot_strip.mpr ⟨h.user _ _ n m hreads hn hm, ?_⟩
      by_cases hgroup : (splitUser (Text.strip spec)).2 = []
      · rw [hgroup, readsAs_nil, h.primary _ _ n m hreads hn hm hgroup]
      · exact h.group _ _ n m hreads hn hm hgroup
    · rintro message herror uid gid hrun rfl
      obtain ⟨hroot, hgid⟩ := resolveUserForProot_strip.mp hrun
      have hnone := (resolveLoginUser_refuses hpasswd).mp ⟨message, herror⟩
      exact exists_readsAs.mp ⟨gid, hgid⟩ (h.refused hnone hroot)

/-- A container with a user whose primary group is not named after it. -/
def staffUsers : IdFiles :=
  ⟨.text "root:x:0:0:root:/root:/bin/sh\napp:x:1000:50::/home/app:/bin/sh\n".toList,
    .text "root:x:0:\nstaff:x:50:\n".toList⟩

theorem login_run_agree_iff_app : Alike staffUsers "box".toList "app:staff".toList := by
  have hids : ∀ uid gid, LoginReads staffUsers "app:staff".toList uid gid →
      uid = "1000".toList ∧ gid = "50".toList := by
    intro uid gid hreads
    obtain ⟨login, hlogin, rfl, rfl⟩ :
        ∃ login, resolveLoginUser staffUsers "box".toList "app:staff".toList = .ok login ∧
          login.uid = uid ∧ login.gid = gid := (resolveLoginUser_iff rfl).mpr hreads
    have hall : (resolveLoginUser staffUsers "box".toList "app:staff".toList).toOption.all
        (fun login => decide (login.uid = "1000".toList ∧ login.gid = "50".toList)) = true := by
      decide +kernel
    have hlines := Result.all_of_ok hlogin hall
    exact of_decide_eq_true hlines
  have huser : Text.readInt "1000".toList = some 1000 := by decide +kernel
  have hstaff : Text.readInt "50".toList = some 50 := by decide +kernel
  refine (login_run_agree_iff rfl).mpr ⟨?_, ?_, ?_, ?_⟩
  · intro uid gid n m hreads huid hgid
    rw [(hids uid gid hreads).1, huser, Option.some.injEq] at huid
    rw [← huid]
    unfold ReadsAs
    decide +kernel
  · intro uid gid n m hreads huid hgid _
    rw [(hids uid gid hreads).1, huser, Option.some.injEq] at huid
    rw [(hids uid gid hreads).2, hstaff, Option.some.injEq] at hgid
    rw [← huid, ← hgid]
    unfold ReadsAs
    decide +kernel
  · intro uid gid n m hreads huid hgid hgroup
    exact absurd hgroup (by decide +kernel)
  · intro _ hroot
    unfold ReadsAs at hroot
    exact absurd hroot (by decide +kernel)

/-- A user whose primary group has another number is executed with the wrong group, and a user that
`login` does not know as root. -/
theorem login_run_disagree :
    ¬ Alike staffUsers "box".toList "app".toList ∧
      ¬ Alike staffUsers "box".toList "ghost".toList := by
  constructor
  · intro h
    have hlogin : ∃ login, resolveLoginUser staffUsers "box".toList "app".toList = .ok login ∧
        (Text.readInt login.uid = some 1000 ∧ Text.readInt login.gid = some 50) := by
      obtain ⟨login, hlogin, hids⟩ := Result.ok_of_any
        (x := resolveLoginUser staffUsers "box".toList "app".toList)
        (p := fun login => decide (Text.readInt login.uid = some 1000 ∧
          Text.readInt login.gid = some 50)) (by decide +kernel)
      exact ⟨login, hlogin, of_decide_eq_true hids⟩
    obtain ⟨login, hlogin, huid, hgid⟩ := hlogin
    have hrun := h.accepted login 1000 50 hlogin huid hgid
    exact absurd hrun (by decide +kernel)
  · intro h
    cases hlogin : resolveLoginUser staffUsers "box".toList "ghost".toList with
    | error message =>
      have hrun : resolveUserForProot staffUsers (Text.strip "ghost".toList) = some (0, 0) := by
        decide +kernel
      exact h.refused message hlogin 0 0 hrun rfl
    | ok login =>
      have hnone : (resolveLoginUser staffUsers "box".toList "ghost".toList).toOption.isSome =
          false := by
        decide +kernel
      rw [hlogin] at hnone
      cases hnone

end Agreement

end Login

end ProotDistro
