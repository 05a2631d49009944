import ProotDistro.Docker.ManifestCache
import ProotDistro.Lib.LockOrder
import ProotDistro.Lib.Machine
import Mathlib.Data.Char
import Mathlib.Data.List.Lex

/-!
# `locking`: the locks of containers and builds

A lock is taken on a file of its own name, through a descriptor that the lock object opens for itself.
The kernel lets locks of two descriptions of one file meet only if both are shared; a lock goes when it is
unlocked through any descriptor of the description, or when the last of them is closed. A process keeps a
table of what it holds exclusively: a lock it asks for again is a re-entrant hold, which opens nothing.
A lock that is disowned is closed and not unlocked, so that a descendant that has inherited the descriptor
keeps it.

That a lock file can be created and that the file system has locks is taken for granted. A descendant that
has inherited a descriptor is a number here; an exec is the inheritance of descriptors and an exit.

* **`buildLockPath_eq_iff`** — the locks of builds are those of the cache entries they write.
* **`containerLocksForSpecPair_spec`**, **`copies_never_deadlock`** — the locks of a copy.
* **`release_reentrant`** — the release of a re-entrant hold.
* **`locks_exclude`** — what holds over all runs in which no lock is released while a re-entrant hold rests
  on it, and no object is acquired while it is held or after it was re-entrant.
-/

namespace ProotDistro

open Posix

namespace Locking

abbrev Pid := Nat

/-! ## The names of locks -/

def locksDir : Str := "locks".toList

def lockSuffix : Str := ".lock".toList

/-- `_build_lock_path`, under the runtime directory -/
def buildLockPath (sha256 : Bytes → Str) (imageRef arch : Str) : Str :=
  let key := (sha256 (Docker.utf8 (Docker.canonicalRef imageRef ++ '_' :: arch))).take 16
  locksDir ++ '/' :: "build".toList ++ '/' :: key ++ lockSuffix

/-- `container_from_spec` -/
def containerFromSpec (spec : Str) : Option Str :=
  if ':' ∉ spec then none
  else
    let head := (Text.partition ':' spec).1
    if '/' ∈ head then none else some head

/-- `container_locks_for_spec_pair`: the containers and whether each is locked exclusively -/
def containerLocksForSpecPair (srcSpec dstSpec : Str) : List (Str × Bool) :=
  -- an empty name is no name
  let srcName := (containerFromSpec srcSpec).getD []
  let dstName := (containerFromSpec dstSpec).getD []
  if srcName ≠ [] ∧ dstName ≠ [] then
    if srcName = dstName then [(srcName, true)]
    else (if srcName < dstName then [srcName, dstName] else [dstName, srcName]).map
      fun name => (name, decide (name = dstName))
  else if dstName ≠ [] then [(dstName, true)]
  else if srcName ≠ [] then [(srcName, false)]
  else []

/-- **The locks of builds are those of the cache entries they write**: two builds have one lock exactly if
they have one entry, and those of one image and architecture have. -/
theorem buildLockPath_eq_iff {sha256 : Bytes → Str} {a b arch arch' : Str} :
    (buildLockPath sha256 a arch = buildLockPath sha256 b arch' ↔
      Docker.manifestCacheName sha256 a arch = Docker.manifestCacheName sha256 b arch') ∧
    (Docker.canonicalRef a = Docker.canonicalRef b → arch = arch' →
      buildLockPath sha256 a arch = buildLockPath sha256 b arch') := by
  constructor
  · show locksDir ++ '/' :: "build".toList ++ '/' :: Docker.manifestCacheKey sha256 a arch ++ lockSuffix =
        locksDir ++ '/' :: "build".toList ++ '/' :: Docker.manifestCacheKey sha256 b arch' ++ lockSuffix ↔
      Docker.manifestCacheKey sha256 a arch ++ Docker.jsonSuffix =
        Docker.manifestCacheKey sha256 b arch' ++ Docker.jsonSuffix
    rw [List.append_cancel_right_eq, List.append_cancel_right_eq, List.append_cancel_left_eq, List.cons.injEq]
    exact ⟨And.right, fun h => ⟨rfl, h⟩⟩
  · intro href harch
    unfold buildLockPath
    rw [href, harch]

/-- The locks of a copy are of different containers, in order; the destination's is exclusive. -/
theorem containerLocksForSpecPair_spec {src dst : Str} :
    ((containerLocksForSpecPair src dst).map Prod.fst).Pairwise (· < ·) ∧
    ∀ name, name ≠ [] → (containerFromSpec dst = some name → (name, true) ∈ containerLocksForSpecPair src dst) ∧
      (containerFromSpec src = some name → ∃ exclusive, (name, exclusive) ∈ containerLocksForSpecPair src dst) := by
  unfold containerLocksForSpecPair
  dsimp only
  constructor
  · split
    · split
      · simp
      · rename_i hne
        split
        · simp_all
        · rename_i hlt
          have hgt : (containerFromSpec dst).getD [] < (containerFromSpec src).getD [] :=
            lt_of_le_of_ne (not_lt.mp hlt) (Ne.symm hne)
          simp_all
    · split
      · simp
      · split <;> simp
  · intro name hname
    constructor
    · intro hdst
      rw [hdst, Option.getD_some]
      split
      · split
        · simp_all
        · split <;> simp
      · simp
    · intro hsrc
      rw [hsrc, Option.getD_some]
      split
      · split
        · exact ⟨true, by simp⟩
        · split <;> simp
      · rename_i hboth
        have hdst : (containerFromSpec dst).getD [] = [] := by
          by_contra hne
          exact hboth ⟨hname, hne⟩
        rw [if_neg (not_not.mpr hdst)]
        exact ⟨false, by simp⟩

/-- The containers that a copy or a sync locks, in the order it locks them. -/
def copyKeys (specs : Str × Str) : List Str := (containerLocksForSpecPair specs.1 specs.2).map Prod.fst

/-- **Copies cannot wait for each other in a circle**: however many run at a time and however far each has
come with its locks, one of them waits for nobody. -/
theorem copies_never_deadlock {n : Nat} (specs : Fin (n + 1) → Str × Str) (taken : Fin (n + 1) → Nat) :
    (∀ i, ¬ Relation.TransGen (LockOrder.WaitsFor (fun i => copyKeys (specs i)) taken) i i) ∧
      ∃ i, ∀ j, ¬ LockOrder.WaitsFor (fun i => copyKeys (specs i)) taken i j := by
  have horder : ∀ i, (copyKeys (specs i)).Pairwise (· < ·) := fun i => containerLocksForSpecPair_spec.1
  exact ⟨LockOrder.waitsFor_acyclic horder, LockOrder.exists_not_waiting horder⟩

/-! ## The steps -/

inductive Mode where
  | shared
  | exclusive
  deriving DecidableEq

/-- An open file description. -/
structure OpenFile where
  key : Str
  /-- the process that opened it -/
  owner : Pid
  lock : Option Mode
  /-- whether that process has it open -/
  own : Bool
  /-- how many other processes have it open -/
  heirs : Nat
  /-- whether that process let go of it without unlocking -/
  left : Bool
  deriving DecidableEq

/-- The lock is still there. -/
def OpenFile.effective (x : OpenFile) : Bool := x.lock.isSome && (x.own || 0 < x.heirs)

/-- `_FlockBase` -/
structure Lock where
  proc : Pid
  key : Str
  exclusive : Bool
  fd : Option Nat
  reentrant : Bool
  disowned : Bool
  /-- whether `acquire` has answered True, and no release has followed -/
  held : Bool
  deriving DecidableEq

def Lock.mode (l : Lock) : Mode := if l.exclusive then .exclusive else .shared

structure State where
  locks : List Lock
  /-- `_held_exclusive` of every process -/
  heldExclusive : List (Pid × Str)
  files : List OpenFile
  /-- the processes that have ended -/
  gone : List Pid

inductive Action where
  /-- make a lock object -/
  | create (proc : Pid) (key : Str) (exclusive : Bool)
  | acquire (i : Nat)
  | release (i : Nat)
  | disown (i : Nat)
  /-- a descendant gets the descriptor -/
  | inherit (i : Nat)
  /-- one of those that have inherited a descriptor ends -/
  | heirExit (file : Nat)
  /-- a process ends, or becomes another program -/
  | exit (proc : Pid)

def State.setLock (s : State) (i : Nat) (l : Lock) : State := { s with locks := s.locks.set i l }

/-- Whether a description keeps another from a lock. -/
def OpenFile.blocks (key : Str) (mode : Mode) (x : OpenFile) : Bool :=
  x.key = key && x.effective && (mode = .exclusive || x.lock = some .exclusive)

/-- Close a description without unlocking it. -/
def OpenFile.letGo (x : OpenFile) : OpenFile := { x with own := false, left := x.left || x.lock.isSome }

def closeFd (files : List OpenFile) : Option Nat → List OpenFile
  | none => files
  | some f => files.modify f OpenFile.letGo

/-- `acquire` -/
def acquire (s : State) (i : Nat) (l : Lock) : State :=
  if (l.proc, l.key) ∈ s.heldExclusive then
    s.setLock i { l with reentrant := true, held := true }
  else if s.files.any (OpenFile.blocks l.key l.mode) then s
  else
    -- a descriptor the object had before is closed with its file object
    { s.setLock i { l with fd := some s.files.length, held := true } with
      files := closeFd s.files l.fd ++ [⟨l.key, l.proc, some l.mode, true, 0, false⟩]
      heldExclusive :=
        if l.exclusive then (l.proc, l.key) :: s.heldExclusive else s.heldExclusive }

/-- What a release makes of the description. -/
def OpenFile.release (disowned : Bool) (x : OpenFile) : OpenFile :=
  if disowned then x.letGo else { x with lock := none, own := false }

/-- `release` -/
def release (s : State) (i : Nat) (l : Lock) : State :=
  if l.reentrant then s.setLock i { l with held := false }
  else
    { s.setLock i { l with fd := none, held := false } with
      files := match l.fd with
        | none => s.files
        | some f => s.files.modify f (OpenFile.release l.disowned)
      heldExclusive :=
        if l.exclusive then s.heldExclusive.filter (· ≠ (l.proc, l.key)) else s.heldExclusive }

/-- The lock object of a process that has not ended. -/
def State.lock? (s : State) (i : Nat) : Option Lock := (s.locks[i]?).filter fun l => l.proc ∉ s.gone

def step (s : State) : Action → Option State
  | .create proc key exclusive =>
    if proc ∈ s.gone then none
    else some { s with locks := s.locks ++ [⟨proc, key, exclusive, none, false, false, false⟩] }
  | .acquire i => (s.lock? i).map (acquire s i)
  | .release i => (s.lock? i).map (release s i)
  | .disown i => (s.lock? i).map fun l => s.setLock i { l with disowned := true }
  | .inherit i =>
    (s.lock? i).bind fun l => l.fd.map fun f =>
      { s with files := s.files.modify f fun x => { x with heirs := x.heirs + 1 } }
  | .heirExit f => some { s with files := s.files.modify f fun x => { x with heirs := x.heirs - 1 } }
  | .exit proc =>
    if proc ∈ s.gone then none
    else some {
      locks := s.locks.map fun l => if l.proc = proc then { l with fd := none, held := false } else l
      heldExclusive := s.heldExclusive.filter fun x => x.1 ≠ proc
      files := s.files.map fun x => if x.owner = proc then x.letGo else x
      gone := proc :: s.gone }

def init : State := ⟨[], [], [], []⟩

/-! ## What the locks are for -/

/-- A process holds a key exclusively. -/
def HoldsExclusively (s : State) (proc : Pid) (key : Str) : Prop :=
  ∃ l ∈ s.locks, l.proc = proc ∧ l.key = key ∧ l.held = true ∧ l.exclusive = true

/-- A process holds a key in some mode. -/
def Holds (s : State) (proc : Pid) (key : Str) : Prop :=
  ∃ l ∈ s.locks, l.proc = proc ∧ l.key = key ∧ l.held = true

/-- What a process holds exclusively, no other process holds, nor any that has inherited a lock from
another. -/
def Exclusion (s : State) : Prop :=
  ∀ proc key, HoldsExclusively s proc key →
    (∀ other, Holds s other key → other = proc) ∧
      ∀ x ∈ s.files, x.key = key → x.effective = true → x.owner = proc

/-- A key that nobody holds and whose locks nobody let go of without unlocking can be taken, with an object
that was never re-entrant. -/
def Free (s : State) : Prop :=
  ∀ key, (∀ l ∈ s.locks, l.key = key → l.held = false) →
    (∀ x ∈ s.files, x.key = key → x.left = false) →
    ∀ i l, s.lock? i = some l → l.key = key → l.reentrant = false →
      ∃ s' l', step s (.acquire i) = some s' ∧ s'.locks[i]? = some l' ∧ l'.held = true

/-- The release of a re-entrant hold changes no other object, no table and no description. -/
def InnerRelease (s : State) : Prop :=
  ∀ i l, s.lock? i = some l → l.reentrant = true → ∃ s', step s (.release i) = some s' ∧
    s'.files = s.files ∧ s'.heldExclusive = s.heldExclusive ∧
      ∀ j m, j ≠ i → s.locks[j]? = some m → s'.locks[j]? = some m

/-- No lock is released while a re-entrant hold rests on it, and no object is acquired while it is held, or
after it was re-entrant: its release would unlock nothing. -/
def Nested (s : State) : Action → Bool
  | .acquire i => (s.locks[i]?).all fun l => !l.held && !l.reentrant
  | .release i => (s.locks[i]?).all fun l => l.fd.isNone || s.locks.all fun m =>
      !(m.held && m.reentrant && m.proc = l.proc && m.key = l.key)
  | _ => true

/-! ## Every step -/

/-- What holds in every state of such a run. -/
structure Sound (s : State) : Prop where
  /-- two descriptions of one file have locks together only if both are shared -/
  kernel : ∀ (f g : Nat) (x y : OpenFile), s.files[f]? = some x → s.files[g]? = some y → f ≠ g →
    x.key = y.key → x.effective = true → y.effective = true → x.lock = some .shared
  /-- an object that has its file open has its lock -/
  fd : ∀ (i f : Nat) (l : Lock), s.locks[i]? = some l → l.fd = some f →
    ∃ x, s.files[f]? = some x ∧ x.key = l.key ∧ x.owner = l.proc ∧ x.lock = some l.mode ∧ x.own = true
  /-- no two objects have one description -/
  apart : ∀ (i j f : Nat) (l m : Lock), s.locks[i]? = some l → s.locks[j]? = some m → l.fd = some f →
    m.fd = some f → i = j
  /-- what is in the table of a process is locked -/
  table : ∀ proc key, (proc, key) ∈ s.heldExclusive → ∃ (j : Nat) (m : Lock), s.locks[j]? = some m ∧
    m.proc = proc ∧ m.key = key ∧ m.exclusive = true ∧ m.fd.isSome = true
  /-- a hold that is not re-entrant has the file open, and nothing else has -/
  real : ∀ (i : Nat) (l : Lock), s.locks[i]? = some l →
    (l.fd.isSome = true ↔ l.held = true ∧ l.reentrant = false)
  /-- a re-entrant hold rests on another of its process -/
  outer : ∀ (i : Nat) (l : Lock), s.locks[i]? = some l → l.held = true → l.reentrant = true →
    ∃ (j : Nat) (m : Lock), s.locks[j]? = some m ∧ m.proc = l.proc ∧ m.key = l.key ∧ m.exclusive = true ∧
      m.fd.isSome = true
  /-- a lock that is still there is an object's, or its process let go of it -/
  left : ∀ (f : Nat) (x : OpenFile), s.files[f]? = some x → x.effective = true →
    x.left = true ∨ ∃ (i : Nat) (l : Lock), s.locks[i]? = some l ∧ l.fd = some f

section Steps

variable {s s' : State} {i j f : Nat} {l l' m : Lock} {x : OpenFile} {proc : Pid} {key : Str}

/-- A lock that is held and one's own is effective. -/
theorem effective_of_own (hlock : x.lock = some l.mode) (hown : x.own = true) : x.effective = true := by
  unfold OpenFile.effective
  rw [hlock, hown]
  rfl

/-- An object may change in what says nothing of its file. -/
theorem Sound.setLock (h : Sound s) (hl : s.locks[i]? = some l) (hproc : l'.proc = l.proc)
    (hkey : l'.key = l.key) (hexclusive : l'.exclusive = l.exclusive) (hfd : l'.fd = l.fd)
    (hreal : l'.fd.isSome = true ↔ l'.held = true ∧ l'.reentrant = false)
    (houter : l'.held = true → l'.reentrant = true → ∃ (j : Nat) (m : Lock), s.locks[j]? = some m ∧
      m.proc = l.proc ∧ m.key = l.key ∧ m.exclusive = true ∧ m.fd.isSome = true) :
    Sound (s.setLock i l') := by
  -- what stands at an index is what stood there, or the object and the file is the same
  have hbefore : ∀ {j : Nat} {m : Lock}, (s.locks.set i l')[j]? = some m → ∃ m₀, s.locks[j]? = some m₀ ∧
      m.proc = m₀.proc ∧ m.key = m₀.key ∧ m.exclusive = m₀.exclusive ∧ m.fd = m₀.fd := by
    intro j m hm
    rw [Machine.getElem?_set_iff hl] at hm
    split at hm
    · rename_i hj
      rw [hj, hm]
      exact ⟨l, hl, hproc, hkey, hexclusive, hfd⟩
    · exact ⟨m, hm, rfl, rfl, rfl, rfl⟩
  have hafter : ∀ {j : Nat} {m : Lock}, s.locks[j]? = some m → ∃ m', (s.locks.set i l')[j]? = some m' ∧
      m'.proc = m.proc ∧ m'.key = m.key ∧ m'.exclusive = m.exclusive ∧ m'.fd = m.fd := by
    intro j m hm
    by_cases hj : j = i
    · rw [hj, hl] at hm
      cases hm
      exact ⟨l', (Machine.getElem?_set_iff hl).mpr (by rw [if_pos hj]), hproc, hkey, hexclusive, hfd⟩
    · exact ⟨m, (Machine.getElem?_set_iff hl).mpr (by rw [if_neg hj]; exact hm), rfl, rfl, rfl, rfl⟩
  constructor
  · exact h.kernel
  · intro j f m hm hmfd
    obtain ⟨m₀, hm₀, hmproc, hmkey, hmexclusive, hmfd₀⟩ := hbefore hm
    unfold Lock.mode
    rw [hmproc, hmkey, hmexclusive]
    exact h.fd j f m₀ hm₀ (hmfd₀ ▸ hmfd)
  · intro j k f m n hm hn hmfd hnfd
    obtain ⟨m₀, hm₀, -, -, -, hmfd₀⟩ := hbefore hm
    obtain ⟨n₀, hn₀, -, -, -, hnfd₀⟩ := hbefore hn
    exact h.apart j k f m₀ n₀ hm₀ hn₀ (hmfd₀ ▸ hmfd) (hnfd₀ ▸ hnfd)
  · intro proc key hmem
    obtain ⟨j, m, hm, hmproc, hmkey, hmexclusive, hmfd⟩ := h.table proc key hmem
    obtain ⟨m', hm', hproc', hkey', hexclusive', hfd'⟩ := hafter hm
    exact ⟨j, m', hm', hproc' ▸ hmproc, hkey' ▸ hmkey, hexclusive' ▸ hmexclusive, hfd' ▸ hmfd⟩
  · intro j m hm
    have hm' := (Machine.getElem?_set_iff hl).mp hm
    split at hm'
    · rw [hm']
      exact hreal
    · exact h.real j m hm'
  · intro j m hm hheld hreentrant
    have hrest : ∃ (j : Nat) (n : Lock), s.locks[j]? = some n ∧ n.proc = m.proc ∧ n.key = m.key ∧
        n.exclusive = true ∧ n.fd.isSome = true := by
      have hm' := (Machine.getElem?_set_iff hl).mp hm
      split at hm'
      · rw [hm'] at hheld hreentrant ⊢
        rw [hproc, hkey]
        exact houter hheld hreentrant
      · exact h.outer j m hm' hheld hreentrant
    obtain ⟨k, n, hn, hnproc, hnkey, hnexclusive, hnfd⟩ := hrest
    obtain ⟨n', hn', hproc', hkey', hexclusive', hfd'⟩ := hafter hn
    exact ⟨k, n', hn', hproc' ▸ hnproc, hkey' ▸ hnkey, hexclusive' ▸ hnexclusive, hfd' ▸ hnfd⟩
  · intro f x hx heffective
    rcases h.left f x hx heffective with hleft | ⟨j, m, hm, hmfd⟩
    · exact .inl hleft
    · obtain ⟨m', hm', -, -, -, hfd'⟩ := hafter hm
      exact .inr ⟨j, m', hm', hfd' ▸ hmfd⟩

/-- A description may be opened by others and closed by them, as long as its lock does not come back. -/
theorem Sound.setFile (h : Sound s) {g : OpenFile → OpenFile}
    (hkeeps : ∀ x, (g x).key = x.key ∧ (g x).owner = x.owner ∧ (g x).lock = x.lock ∧ (g x).own = x.own ∧
      (g x).left = x.left)
    (heffective : ∀ x, s.files[f]? = some x → (g x).effective = true → x.effective = true) :
    Sound { s with files := s.files.modify f g } := by
  have hbefore : ∀ {k : Nat} {y : OpenFile}, (s.files.modify f g)[k]? = some y → ∃ x, s.files[k]? = some x ∧
      y.key = x.key ∧ y.lock = x.lock ∧ y.left = x.left ∧ (y.effective = true → x.effective = true) := by
    intro k y hy
    obtain ⟨x, hx, heq⟩ := Machine.getElem?_modify_iff.mp hy
    obtain ⟨hkey, -, hlock, -, hleft⟩ := hkeeps x
    split at heq
    · rename_i hk
      rw [hk] at hx ⊢
      rw [heq]
      exact ⟨x, hx, hkey, hlock, hleft, heffective x hx⟩
    · rw [heq]
      exact ⟨x, hx, rfl, rfl, rfl, id⟩
  constructor
  · intro a b x y hx hy hne hkey hxe hye
    obtain ⟨x₀, hx₀, hxkey, hxlock, -, hxe₀⟩ := hbefore hx
    obtain ⟨y₀, hy₀, hykey, -, -, hye₀⟩ := hbefore hy
    rw [hxlock]
    exact h.kernel a b x₀ y₀ hx₀ hy₀ hne (by rw [← hxkey, ← hykey, hkey]) (hxe₀ hxe) (hye₀ hye)
  · intro i k l hl hfd
    obtain ⟨x, hx, hxkey, hxowner, hxlock, hxown⟩ := h.fd i k l hl hfd
    obtain ⟨hgkey, hgowner, hglock, hgown, -⟩ := hkeeps x
    refine ⟨if k = f then g x else x, Machine.getElem?_modify_iff.mpr ⟨x, hx, rfl⟩, ?_⟩
    split
    · rw [hgkey, hgowner, hglock, hgown]
      exact ⟨hxkey, hxowner, hxlock, hxown⟩
    · exact ⟨hxkey, hxowner, hxlock, hxown⟩
  · exact h.apart
  · exact h.table
  · exact h.real
  · exact h.outer
  · intro k y hy hye
    obtain ⟨x, hx, -, -, hleft, hxe⟩ := hbefore hy
    rw [hleft]
    exact h.left k x hx (hxe hye)

/-- A lock object that is made excludes nothing. -/
theorem Sound.create (h : Sound s) {exclusive : Bool} :
    Sound { s with locks := s.locks ++ [⟨proc, key, exclusive, none, false, false, false⟩] } := by
  have hafter : ∀ {j : Nat} {m : Lock}, s.locks[j]? = some m →
      (s.locks ++ [⟨proc, key, exclusive, none, false, false, false⟩])[j]? = some m :=
    fun hm => Machine.getElem?_concat_iff.mpr (.inl hm)
  constructor
  · exact h.kernel
  · intro j f m hm hfd
    rcases Machine.getElem?_concat_iff.mp hm with hm | ⟨-, rfl⟩
    · exact h.fd j f m hm hfd
    · cases hfd
  · intro j k f m n hm hn hmfd hnfd
    rcases Machine.getElem?_concat_iff.mp hm with hm | ⟨-, rfl⟩
    · rcases Machine.getElem?_concat_iff.mp hn with hn | ⟨-, rfl⟩
      · exact h.apart j k f m n hm hn hmfd hnfd
      · cases hnfd
    · cases hmfd
  · intro p k hmem
    obtain ⟨j, m, hm, hrest⟩ := h.table p k hmem
    exact ⟨j, m, hafter hm, hrest⟩
  · intro j m hm
    rcases Machine.getElem?_concat_iff.mp hm with hm | ⟨-, rfl⟩
    · exact h.real j m hm
    · simp
  · intro j m hm hheld hreentrant
    rcases Machine.getElem?_concat_iff.mp hm with hm | ⟨-, rfl⟩
    · obtain ⟨k, n, hn, hrest⟩ := h.outer j m hm hheld hreentrant
      exact ⟨k, n, hafter hn, hrest⟩
    · cases hheld
  · intro f x hx heffective
    rcases h.left f x hx heffective with hleft | ⟨j, m, hm, hfd⟩
    · exact .inl hleft
    · exact .inr ⟨j, m, hafter hm, hfd⟩

/-- A table that has lost entries is as good. -/
theorem Sound.forget (h : Sound s) {table : List (Pid × Str)} (hsub : ∀ x ∈ table, x ∈ s.heldExclusive) :
    Sound { s with heldExclusive := table } :=
  { h with table := fun p k hmem => h.table p k (hsub (p, k) hmem) }

/-- What does not keep another from a lock is shared with it. -/
theorem shared_of_blocks {mode : Mode} (h : x.blocks key mode = false) (hkey : x.key = key)
    (heffective : x.effective = true) : mode = .shared ∧ x.lock = some .shared := by
  unfold OpenFile.blocks at h
  rw [hkey, heffective] at h
  have hsome : x.lock.isSome = true := by
    unfold OpenFile.effective at heffective
    exact (Bool.and_eq_true_iff.mp heffective).1
  obtain ⟨lock, hlock⟩ := Option.isSome_iff_exists.mp hsome
  rw [hlock] at h ⊢
  cases mode <;> cases lock <;> simp_all

/-- A lock that nothing blocks is taken by an object that has no hold and was never re-entrant. -/
theorem Sound.take (h : Sound s) (hl : s.locks[i]? = some l) (hheld : l.held = false) (hreentrant : l.reentrant = false)
    (hfree : s.files.any (OpenFile.blocks l.key l.mode) = false) :
    Sound { s.setLock i { l with fd := some s.files.length, held := true } with
      files := s.files ++ [⟨l.key, l.proc, some l.mode, true, 0, false⟩]
      heldExclusive :=
        if l.exclusive then (l.proc, l.key) :: s.heldExclusive else s.heldExclusive } := by
  have hfd : l.fd.isSome ≠ true := by
    intro hsome
    rw [((h.real i l hl).mp hsome).1] at hheld
    cases hheld
  have hblocks : ∀ {f : Nat} {x : OpenFile}, s.files[f]? = some x → x.blocks l.key l.mode = false := by
    intro f x hx
    rw [List.any_eq_false] at hfree
    exact Bool.eq_false_iff.mpr (hfree x (List.mem_of_getElem? hx))
  -- an object that has its file open is another one, and its file was there before
  have hother : ∀ {j : Nat} {m : Lock}, s.locks[j]? = some m → m.fd.isSome = true → j ≠ i := by
    intro j m hm hmfd heq
    rw [heq, hl] at hm
    cases hm
    exact hfd hmfd
  have hafter : ∀ {j : Nat} {m : Lock}, s.locks[j]? = some m → m.fd.isSome = true →
      (s.locks.set i { l with fd := some s.files.length, held := true })[j]? = some m := by
    intro j m hm hmfd
    rw [Machine.getElem?_set_iff hl, if_neg (hother hm hmfd)]
    exact hm
  have hself : (s.locks.set i { l with fd := some s.files.length, held := true })[i]? =
      some { l with fd := some s.files.length, held := true } :=
    (Machine.getElem?_set_iff hl).mpr (by rw [if_pos rfl])
  have hlt : ∀ {j f : Nat} {m : Lock}, s.locks[j]? = some m → m.fd = some f → f < s.files.length := by
    intro j f m hm hmfd
    obtain ⟨x, hx, -⟩ := h.fd j f m hm hmfd
    exact (List.getElem?_eq_some_iff.mp hx).1
  constructor
  -- exclusion: the new lock is one that no other blocks
  · intro f g x y hx hy hne hkey hxe hye
    rcases Machine.getElem?_concat_iff.mp hx with hx | ⟨hf, rfl⟩
    · rcases Machine.getElem?_concat_iff.mp hy with hy | ⟨-, rfl⟩
      · exact h.kernel f g x y hx hy hne hkey hxe hye
      · exact (shared_of_blocks (hblocks hx) hkey hxe).2
    · rcases Machine.getElem?_concat_iff.mp hy with hy | ⟨hg, -⟩
      · show some l.mode = some Mode.shared
        rw [(shared_of_blocks (hblocks hy) hkey.symm hye).1]
      · exact absurd (hf.trans hg.symm) hne
  -- every open file is the object's own
  · intro j f m hm hmfd
    have hm' := (Machine.getElem?_set_iff hl).mp hm
    split at hm'
    · rw [hm'] at hmfd ⊢
      cases hmfd
      exact ⟨_, Machine.getElem?_concat_iff.mpr (.inr ⟨rfl, rfl⟩), rfl, rfl, rfl, rfl⟩
    · obtain ⟨x, hx, hrest⟩ := h.fd j f m hm' hmfd
      exact ⟨x, Machine.getElem?_concat_iff.mpr (.inl hx), hrest⟩
  -- two objects have two files: the new one has the next number
  · intro j k f m n hm hn hmfd hnfd
    have hm' := (Machine.getElem?_set_iff hl).mp hm
    have hn' := (Machine.getElem?_set_iff hl).mp hn
    split at hm' <;> split at hn'
    · omega
    · rw [hm'] at hmfd
      cases hmfd
      exact absurd (hlt hn' hnfd) (by omega)
    · rw [hn'] at hnfd
      cases hnfd
      exact absurd (hlt hm' hmfd) (by omega)
    · exact h.apart j k f m n hm' hn' hmfd hnfd
  -- the table of the writers has the new one if it is exclusive
  · intro p k hmem
    have hcases : ((p, k) = (l.proc, l.key) ∧ l.exclusive = true) ∨ (p, k) ∈ s.heldExclusive := by
      have hmem' : (p, k) ∈ if l.exclusive then (l.proc, l.key) :: s.heldExclusive else s.heldExclusive := hmem
      split at hmem'
      · rename_i hexclusive
        rcases List.mem_cons.mp hmem' with heq | hmem'
        · exact .inl ⟨heq, hexclusive⟩
        · exact .inr hmem'
      · exact .inr hmem'
    rcases hcases with ⟨heq, hexclusive⟩ | hmem
    · cases heq
      exact ⟨i, _, hself, rfl, rfl, hexclusive, rfl⟩
    · obtain ⟨j, m, hm, hmproc, hmkey, hmexclusive, hmfd⟩ := h.table p k hmem
      exact ⟨j, m, hafter hm hmfd, hmproc, hmkey, hmexclusive, hmfd⟩
  -- a hold that is real has its file open
  · intro j m hm
    have hm' := (Machine.getElem?_set_iff hl).mp hm
    split at hm'
    · rw [hm']
      exact ⟨fun _ => ⟨rfl, hreentrant⟩, fun _ => rfl⟩
    · exact h.real j m hm'
  -- a re-entrant hold rests on an exclusive one
  · intro j m hm hmheld hmreentrant
    have hm' := (Machine.getElem?_set_iff hl).mp hm
    split at hm'
    · rw [hm'] at hmreentrant
      exact absurd hmreentrant (by rw [hreentrant]; decide)
    · obtain ⟨k, n, hn, hnproc, hnkey, hnexclusive, hnfd⟩ := h.outer j m hm' hmheld hmreentrant
      exact ⟨k, n, hafter hn hnfd, hnproc, hnkey, hnexclusive, hnfd⟩
  -- a lock that counts is held by an object, or was left by one
  · intro f x hx heffective
    rcases Machine.getElem?_concat_iff.mp hx with hx | ⟨hf, -⟩
    · rcases h.left f x hx heffective with hleft | ⟨j, m, hm, hmfd⟩
      · exact .inl hleft
      · exact .inr ⟨j, m, hafter hm (by rw [hmfd]; rfl), hmfd⟩
    · exact .inr ⟨i, _, hself, by rw [hf]⟩

/-- What is closed without being unlocked has the lock it had, if it has one, and is marked. -/
theorem effective_letGo (h : x.letGo.effective = true) : x.effective = true ∧ x.letGo.left = true := by
  unfold OpenFile.letGo OpenFile.effective at h
  rw [Bool.false_or, Bool.and_eq_true_iff] at h
  unfold OpenFile.letGo OpenFile.effective
  rw [h.1, h.2, Bool.or_true, Bool.or_true]
  exact ⟨rfl, rfl⟩

/-- What is effective after a release was so before, under the lock it had. -/
theorem effective_release {disowned : Bool} (h : (x.release disowned).effective = true) :
    x.effective = true ∧ (x.release disowned).lock = x.lock ∧ (x.release disowned).left = true := by
  unfold OpenFile.release at h ⊢
  cases disowned with
  | false => cases h
  | true => exact ⟨(effective_letGo h).1, rfl, (effective_letGo h).2⟩

/-- A release leaves the key. -/
theorem key_release {disowned : Bool} : (x.release disowned).key = x.key := by
  cases disowned <;> rfl

/-- A hold on which no re-entrant hold rests may be released. -/
theorem Sound.drop (h : Sound s) (hl : s.locks[i]? = some l) (hfd : l.fd = some f)
    (hrests : ∀ (j : Nat) (m : Lock), s.locks[j]? = some m → m.held = true → m.reentrant = true →
      m.proc = l.proc → m.key ≠ l.key) :
    Sound { s.setLock i { l with fd := none, held := false } with
      files := s.files.modify f (OpenFile.release l.disowned)
      heldExclusive :=
        if l.exclusive then s.heldExclusive.filter (· ≠ (l.proc, l.key)) else s.heldExclusive } := by
  -- an object that still has its file open is another one, of another file
  have hother : ∀ {j g : Nat} {m : Lock},
      (s.locks.set i { l with fd := none, held := false })[j]? = some m → m.fd = some g →
        s.locks[j]? = some m ∧ g ≠ f := by
    intro j g m hm hmfd
    have hm' := (Machine.getElem?_set_iff hl).mp hm
    split at hm'
    · rw [hm'] at hmfd
      cases hmfd
    · rename_i hne
      refine ⟨hm', fun heq => hne ?_⟩
      exact h.apart j i f m l hm' hl (heq ▸ hmfd) hfd
  have hafter : ∀ {j : Nat} {m : Lock}, s.locks[j]? = some m → j ≠ i →
      (s.locks.set i { l with fd := none, held := false })[j]? = some m := by
    intro j m hm hne
    rw [Machine.getElem?_set_iff hl, if_neg hne]
    exact hm
  have hbefore : ∀ {g : Nat} {y : OpenFile}, (s.files.modify f (OpenFile.release l.disowned))[g]? = some y →
      y.effective = true → ∃ x, s.files[g]? = some x ∧ y.key = x.key ∧ x.effective = true ∧
        -- what counts in the files afterwards counted before
        y.lock = x.lock ∧ (y.left = true ∨ (g ≠ f ∧ y = x)) := by
    intro g y hy hye
    obtain ⟨x, hx, heq⟩ := Machine.getElem?_modify_iff.mp hy
    split at heq
    · rw [heq] at hye ⊢
      obtain ⟨hxe, hlock, hleft⟩ := effective_release hye
      exact ⟨x, hx, key_release, hxe, hlock, .inl hleft⟩
    · rename_i hne
      rw [heq] at hye ⊢
      exact ⟨x, hx, rfl, hye, rfl, .inr ⟨hne, rfl⟩⟩
  constructor
  -- exclusion: nothing counts that did not count before
  · intro a b x y hx hy hne hkey hxe hye
    obtain ⟨x₀, hx₀, hxkey, hxe₀, hxlock, -⟩ := hbefore hx hxe
    obtain ⟨y₀, hy₀, hykey, hye₀, -, -⟩ := hbefore hy hye
    rw [hxlock]
    exact h.kernel a b x₀ y₀ hx₀ hy₀ hne (by rw [← hxkey, ← hykey, hkey]) hxe₀ hye₀
  · intro j g m hm hmfd
    obtain ⟨hm', hne⟩ := hother hm hmfd
    obtain ⟨x, hx, hrest⟩ := h.fd j g m hm' hmfd
    exact ⟨x, Machine.getElem?_modify_iff.mpr ⟨x, hx, by rw [if_neg hne]⟩, hrest⟩
  · intro j k g m n hm hn hmfd hnfd
    exact h.apart j k g m n (hother hm hmfd).1 (hother hn hnfd).1 hmfd hnfd
  · intro p k hmem
    have hmem' : (p, k) ∈ s.heldExclusive ∧ (l.exclusive = true → (p, k) ≠ (l.proc, l.key)) := by
      have hmem' : (p, k) ∈ if l.exclusive then s.heldExclusive.filter (· ≠ (l.proc, l.key))
        else s.heldExclusive := hmem
      split at hmem'
      · rw [List.mem_filter, decide_eq_true_iff] at hmem'
        exact ⟨hmem'.1, fun _ => hmem'.2⟩
      · rename_i hexclusive
        exact ⟨hmem', fun htrue => absurd htrue hexclusive⟩
    obtain ⟨j, m, hm, hmproc, hmkey, hmexclusive, hmfd⟩ := h.table p k hmem'.1
    refine ⟨j, m, hafter hm fun heq => ?_, hmproc, hmkey, hmexclusive, hmfd⟩
    -- the entry of the object itself is gone
    rw [heq, hl] at hm
    cases hm
    exact hmem'.2 hmexclusive (by rw [hmproc, hmkey])
  · intro j m hm
    have hm' := (Machine.getElem?_set_iff hl).mp hm
    split at hm'
    · rw [hm']
      simp
    · exact h.real j m hm'
  · intro j m hm hmheld hmreentrant
    have hm' := (Machine.getElem?_set_iff hl).mp hm
    split at hm'
    · rw [hm'] at hmheld
      cases hmheld
    · obtain ⟨k, n, hn, hnproc, hnkey, hnexclusive, hnfd⟩ := h.outer j m hm' hmheld hmreentrant
      refine ⟨k, n, hafter hn fun heq => ?_, hnproc, hnkey, hnexclusive, hnfd⟩
      -- it would rest on the one that is released
      rw [heq, hl] at hn
      cases hn
      exact hrests j m hm' hmheld hmreentrant hnproc.symm hnkey.symm
  · intro g y hy hye
    obtain ⟨x, hx, -, hxe, -, hleft | ⟨hne, rfl⟩⟩ := hbefore hy hye
    · exact .inl hleft
    · rcases h.left g y hx hxe with hleft | ⟨j, m, hm, hmfd⟩
      · exact .inl hleft
      · refine .inr ⟨j, m, hafter hm fun heq => ?_, hmfd⟩
        rw [heq, hl] at hm
        cases hm
        rw [hfd] at hmfd
        exact hne (Option.some.inj hmfd).symm

/-- A process that ends lets go of all that it has open. -/
theorem Sound.exit (h : Sound s) :
    Sound {
      locks := s.locks.map fun l => if l.proc = proc then { l with fd := none, held := false } else l
      heldExclusive := s.heldExclusive.filter fun x => x.1 ≠ proc
      files := s.files.map fun x => if x.owner = proc then x.letGo else x
      gone := proc :: s.gone } := by
  -- an object that holds something is of another process, and as it was
  have hlocks : ∀ {j : Nat} {m : Lock}, (s.locks.map fun l =>
      if l.proc = proc then { l with fd := none, held := false } else l)[j]? = some m →
      ∃ m₀, s.locks[j]? = some m₀ ∧ ((m₀.proc = proc ∧ m = { m₀ with fd := none, held := false }) ∨
        (m₀.proc ≠ proc ∧ m = m₀)) := by
    intro j m hm
    rw [List.getElem?_map, Option.map_eq_some_iff] at hm
    obtain ⟨m₀, hm₀, heq⟩ := hm
    split at heq
    · rename_i hproc
      exact ⟨m₀, hm₀, .inl ⟨hproc, heq.symm⟩⟩
    · rename_i hproc
      exact ⟨m₀, hm₀, .inr ⟨hproc, heq.symm⟩⟩
  have hother : ∀ {j g : Nat} {m : Lock}, (s.locks.map fun l =>
      if l.proc = proc then { l with fd := none, held := false } else l)[j]? = some m → m.fd = some g →
      s.locks[j]? = some m ∧ m.proc ≠ proc := by
    intro j g m hm hmfd
    obtain ⟨m₀, hm₀, ⟨-, heq⟩ | ⟨hproc, heq⟩⟩ := hlocks hm
    · rw [heq] at hmfd
      cases hmfd
    · rw [heq]
      exact ⟨hm₀, hproc⟩
  have hafter : ∀ {j : Nat} {m : Lock}, s.locks[j]? = some m → m.proc ≠ proc → (s.locks.map fun l =>
      if l.proc = proc then { l with fd := none, held := false } else l)[j]? = some m := by
    intro j m hm hproc
    rw [List.getElem?_map, hm]
    exact congrArg some (if_neg hproc)
  have hfiles : ∀ {g : Nat} {y : OpenFile}, (s.files.map fun x =>
      if x.owner = proc then x.letGo else x)[g]? = some y → y.effective = true → ∃ x, s.files[g]? = some x ∧
        y.key = x.key ∧ x.effective = true ∧ y.lock = x.lock ∧
          (y.left = true ∨ (x.owner ≠ proc ∧ y = x)) := by
    intro g y hy hye
    rw [List.getElem?_map, Option.map_eq_some_iff] at hy
    obtain ⟨x, hx, heq⟩ := hy
    split at heq
    · rw [← heq] at hye ⊢
      exact ⟨x, hx, rfl, (effective_letGo hye).1, rfl, .inl (effective_letGo hye).2⟩
    · rename_i howner
      rw [← heq] at hye ⊢
      exact ⟨x, hx, rfl, hye, rfl, .inr ⟨howner, rfl⟩⟩
  constructor
  · intro a b x y hx hy hne hkey hxe hye
    obtain ⟨x₀, hx₀, hxkey, hxe₀, hxlock, -⟩ := hfiles hx hxe
    obtain ⟨y₀, hy₀, hykey, hye₀, -, -⟩ := hfiles hy hye
    rw [hxlock]
    exact h.kernel a b x₀ y₀ hx₀ hy₀ hne (by rw [← hxkey, ← hykey, hkey]) hxe₀ hye₀
  · intro j g m hm hmfd
    obtain ⟨hm', hproc⟩ := hother hm hmfd
    obtain ⟨x, hx, hkey, howner, hrest⟩ := h.fd j g m hm' hmfd
    refine ⟨x, ?_, hkey, howner, hrest⟩
    rw [List.getElem?_map, hx]
    exact congrArg some (if_neg (howner ▸ hproc))
  · intro j k g m n hm hn hmfd hnfd
    exact h.apart j k g m n (hother hm hmfd).1 (hother hn hnfd).1 hmfd hnfd
  · intro p k hmem
    have hmem' := List.mem_filter.mp hmem
    obtain ⟨j, m, hm, hmproc, hrest⟩ := h.table p k hmem'.1
    have hproc : m.proc ≠ proc := by
      rw [hmproc]
      exact of_decide_eq_true hmem'.2
    exact ⟨j, m, hafter hm hproc, hmproc, hrest⟩
  · intro j m hm
    obtain ⟨m₀, hm₀, ⟨-, heq⟩ | ⟨-, heq⟩⟩ := hlocks hm
    · rw [heq]
      simp
    · rw [heq]
      exact h.real j m₀ hm₀
  · intro j m hm hheld hreentrant
    obtain ⟨m₀, hm₀, ⟨-, heq⟩ | ⟨hproc, heq⟩⟩ := hlocks hm
    · rw [heq] at hheld
      cases hheld
    · rw [heq] at hheld hreentrant ⊢
      obtain ⟨k, n, hn, hnproc, hrest⟩ := h.outer j m₀ hm₀ hheld hreentrant
      exact ⟨k, n, hafter hn (hnproc ▸ hproc), hnproc, hrest⟩
  · intro g y hy hye
    obtain ⟨x, hx, -, hxe, -, hleft | ⟨howner, heq⟩⟩ := hfiles hy hye
    · exact .inl hleft
    · rcases h.left g x hx hxe with hleft | ⟨j, m, hm, hmfd⟩
      · exact .inl (heq ▸ hleft)
      · obtain ⟨x', hx', -, hmowner, -⟩ := h.fd j g m hm hmfd
        rw [hx] at hx'
        cases hx'
        exact .inr ⟨j, m, hafter hm (hmowner ▸ howner), hmfd⟩

/-- An object that has no hold and was never re-entrant is acquired. -/
theorem Sound.acquire (h : Sound s) (hl : s.locks[i]? = some l) (hheld : l.held = false)
    (hreentrant : l.reentrant = false) : Sound (acquire s i l) := by
  have hfd : l.fd = none := by
    cases hfd : l.fd with
    | none => rfl
    | some f =>
      have hreal := (h.real i l hl).mp (by rw [hfd]; rfl)
      rw [hheld] at hreal
      cases hreal.1
  unfold Locking.acquire
  split
  · rename_i hmem
    refine h.setLock hl rfl rfl rfl rfl ?_ ?_
    · rw [hfd]
      simp
    · intro _ _
      exact h.table l.proc l.key hmem
  · split
    · exact h
    · rename_i hfree
      rw [hfd]
      exact h.take hl hheld hreentrant (Bool.eq_false_iff.mpr hfree)

/-- A lock on which no re-entrant hold rests is released. -/
theorem Sound.release (h : Sound s) (hl : s.locks[i]? = some l)
    (hrests : l.fd.isSome = true → ∀ (j : Nat) (m : Lock), s.locks[j]? = some m → m.held = true →
      m.reentrant = true → m.proc = l.proc → m.key ≠ l.key) : Sound (release s i l) := by
  unfold Locking.release
  split
  · rename_i hreentrant
    have hfd : l.fd.isSome ≠ true := by
      intro hsome
      rw [((h.real i l hl).mp hsome).2] at hreentrant
      cases hreentrant
    refine h.setLock hl rfl rfl rfl rfl ?_ ?_
    · simp [hfd]
    · intro hfalse
      cases hfalse
  · rename_i hreentrant
    cases hfd : l.fd with
    | some f => exact h.drop hl hfd (hrests (by rw [hfd]; rfl))
    | none =>
      -- there was nothing to unlock
      have hset : Sound (s.setLock i { l with fd := none, held := false }) := by
        refine h.setLock hl rfl rfl rfl hfd.symm ?_ ?_
        · simp
        · intro hfalse
          cases hfalse
      apply hset.forget
      intro x hx
      split at hx
      · exact (List.mem_filter.mp hx).1
      · exact hx

/-- A lock that is found belongs to a process that runs. -/
theorem lock?_eq_some (h : s.lock? i = some l) : s.locks[i]? = some l ∧ l.proc ∉ s.gone := by
  obtain ⟨hl, hproc⟩ := Option.filter_eq_some_iff.mp h
  exact ⟨hl, of_decide_eq_true hproc⟩

/-- **What one step preserves.** -/
theorem Sound.step {a : Action} (h : Sound s) (hnested : Nested s a = true) (hstep : step s a = some s') :
    Sound s' := by
  cases a with
  | create proc key exclusive =>
    rw [Locking.step] at hstep
    split at hstep
    · cases hstep
    · cases hstep
      exact h.create
  | acquire i =>
    obtain ⟨l, hl, rfl⟩ := Option.map_eq_some_iff.mp hstep
    have hl := (lock?_eq_some hl).1
    rw [Nested, hl, Option.all_some, Bool.and_eq_true_iff, Bool.not_eq_true', Bool.not_eq_true'] at hnested
    exact h.acquire hl hnested.1 hnested.2
  | release i =>
    obtain ⟨l, hl, rfl⟩ := Option.map_eq_some_iff.mp hstep
    have hl := (lock?_eq_some hl).1
    apply h.release hl
    intro hfd j m hm hheld hreentrant hproc hkey
    rw [Nested, hl, Option.all_some, Bool.or_eq_true_iff] at hnested
    rcases hnested with hnone | hall
    · rw [Option.isNone_iff_eq_none] at hnone
      rw [hnone] at hfd
      cases hfd
    · have hm' := List.all_eq_true.mp hall m (List.mem_of_getElem? hm)
      rw [hheld, hreentrant, hproc, hkey] at hm'
      simp at hm'
  | disown i =>
    obtain ⟨l, hl, rfl⟩ := Option.map_eq_some_iff.mp hstep
    have hl := (lock?_eq_some hl).1
    exact h.setLock hl rfl rfl rfl rfl (h.real i l hl) (h.outer i l hl)
  | inherit i =>
    obtain ⟨l, hl, hbind⟩ := Option.bind_eq_some_iff.mp hstep
    obtain ⟨f, hfd, rfl⟩ := Option.map_eq_some_iff.mp hbind
    apply h.setFile
    · intro x
      exact ⟨rfl, rfl, rfl, rfl, rfl⟩
    · intro x hx _
      obtain ⟨x', hx', -, -, hlock, hown⟩ := h.fd i f l (lock?_eq_some hl).1 hfd
      rw [hx] at hx'
      cases hx'
      exact effective_of_own hlock hown
  | heirExit f =>
    cases hstep
    apply h.setFile
    · intro x
      exact ⟨rfl, rfl, rfl, rfl, rfl⟩
    · intro x _ heffective
      unfold OpenFile.effective at heffective ⊢
      simp only [Bool.and_eq_true, Bool.or_eq_true, decide_eq_true_eq] at heffective ⊢
      exact ⟨heffective.1, heffective.2.imp id fun hlt => by omega⟩
  | exit proc =>
    rw [Locking.step] at hstep
    split at hstep
    · cases hstep
    · cases hstep
      exact h.exit

/-- The start is sound. -/
theorem sound_init : Sound init := by
  constructor <;> intros <;> simp_all [init]

/-! ## What the locks keep -/

/-- Every hold rests on an object of its process that has its file open. -/
theorem Sound.hold (h : Sound s) (hl : l ∈ s.locks) (hheld : l.held = true) :
    ∃ (f : Nat) (x : OpenFile), s.files[f]? = some x ∧ x.key = l.key ∧ x.owner = l.proc ∧
      x.effective = true ∧ (l.exclusive = true → x.lock = some .exclusive) ∧
        ∃ m ∈ s.locks, m.key = l.key ∧ m.held = true ∧ m.fd = some f := by
  obtain ⟨i, hi⟩ := List.mem_iff_getElem?.mp hl
  -- a re-entrant hold rests on an exclusive one, another one on itself
  have hrest : ∃ (j : Nat) (m : Lock), s.locks[j]? = some m ∧ m.proc = l.proc ∧ m.key = l.key ∧
      (l.exclusive = true → m.exclusive = true) ∧ m.fd.isSome = true := by
    by_cases hreentrant : l.reentrant = true
    · obtain ⟨j, m, hm, hproc, hkey, hexclusive, hfd⟩ := h.outer i l hi hheld hreentrant
      exact ⟨j, m, hm, hproc, hkey, fun _ => hexclusive, hfd⟩
    · exact ⟨i, l, hi, rfl, rfl, id, (h.real i l hi).mpr ⟨hheld, Bool.eq_false_iff.mpr hreentrant⟩⟩
  obtain ⟨j, m, hm, hproc, hkey, hexclusive, hfd⟩ := hrest
  obtain ⟨f, hf⟩ := Option.isSome_iff_exists.mp hfd
  obtain ⟨x, hx, hxkey, hxowner, hxlock, hxown⟩ := h.fd j f m hm hf
  refine ⟨f, x, hx, hxkey.trans hkey, hxowner.trans hproc, effective_of_own hxlock hxown, ?_, ?_⟩
  · intro hl
    rw [hxlock, Lock.mode, if_pos (hexclusive hl)]
  · exact ⟨m, List.mem_of_getElem? hm, hkey, ((h.real j m hm).mp hfd).1, hf⟩

/-- In a sound state writers exclude. -/
theorem Sound.exclusion (h : Sound s) : Exclusion s := by
  rintro proc key ⟨l, hl, rfl, rfl, hheld, hexclusive⟩
  obtain ⟨f, x, hx, hxkey, hxowner, hxe, hxlock, -⟩ := h.hold hl hheld
  -- a description with a lock on the key is the one of the exclusive hold
  have hsame : ∀ {g : Nat} {y : OpenFile}, s.files[g]? = some y → y.key = l.key → y.effective = true →
      y.owner = l.proc := by
    intro g y hy hykey hye
    by_cases heq : f = g
    · rw [heq, hy] at hx
      cases hx
      exact hxowner
    · have hshared := h.kernel f g x y hx hy heq (hxkey.trans hykey.symm) hxe hye
      rw [hxlock hexclusive] at hshared
      cases hshared
  constructor
  · rintro other ⟨m, hm, rfl, hmkey, hmheld⟩
    obtain ⟨g, y, hy, hykey, hyowner, hye, -⟩ := h.hold hm hmheld
    exact hyowner.symm.trans (hsame hy (hykey.trans hmkey) hye)
  · intro y hy hykey hye
    obtain ⟨g, hg⟩ := List.mem_iff_getElem?.mp hy
    exact hsame hg hykey hye

/-- In a sound state a lock is free when no one holds it. -/
theorem Sound.free (h : Sound s) : Free s := by
  intro key hheld hleft i l hl hkey hreentrant
  obtain ⟨hi, -⟩ := lock?_eq_some hl
  have htable : (l.proc, l.key) ∉ s.heldExclusive := by
    intro hmem
    obtain ⟨j, m, hm, -, hmkey, -, hmfd⟩ := h.table l.proc l.key hmem
    have hreal := ((h.real j m hm).mp hmfd).1
    rw [hheld m (List.mem_of_getElem? hm) (hmkey.trans hkey)] at hreal
    cases hreal
  have hblocks : ¬ s.files.any (OpenFile.blocks l.key l.mode) = true := by
    intro hany
    obtain ⟨x, hx, hxblocks⟩ := List.any_eq_true.mp hany
    obtain ⟨f, hf⟩ := List.mem_iff_getElem?.mp hx
    simp only [OpenFile.blocks, Bool.and_eq_true, decide_eq_true_eq] at hxblocks
    rcases h.left f x hf hxblocks.1.2 with htrue | ⟨j, m, hm, hmfd⟩
    · rw [hleft x hx (hxblocks.1.1.trans hkey)] at htrue
      cases htrue
    · obtain ⟨x', hx', hxkey, -⟩ := h.fd j f m hm hmfd
      rw [hf] at hx'
      cases hx'
      have hreal := ((h.real j m hm).mp (by rw [hmfd]; rfl)).1
      rw [hheld m (List.mem_of_getElem? hm) (hxkey.symm.trans (hxblocks.1.1.trans hkey))] at hreal
      cases hreal
  refine ⟨Locking.acquire s i l, { l with fd := some s.files.length, held := true }, ?_, ?_, rfl⟩
  · rw [Locking.step, hl]
    rfl
  · unfold Locking.acquire
    rw [if_neg htable, if_neg hblocks]
    exact (Machine.getElem?_set_iff hi).mpr (by rw [if_pos rfl])

/-- **The release of a re-entrant hold drops no other**, in whatever state. -/
theorem release_reentrant : InnerRelease s := by
  intro i l hl hreentrant
  obtain ⟨hi, -⟩ := lock?_eq_some hl
  refine ⟨s.setLock i { l with held := false }, ?_, rfl, rfl, ?_⟩
  · rw [Locking.step, hl]
    show some (Locking.release s i l) = _
    rw [Locking.release, if_pos hreentrant]
  · intro j m hne hm
    exact (Machine.getElem?_set_iff hi).mpr (by rw [if_neg hne]; exact hm)

end Steps

/-- **What holds over all runs** in which no lock is released while a re-entrant hold rests on it, and no
object is acquired while it is held or after it was re-entrant: what a process holds exclusively no other holds; the release of a re-entrant
hold drops no other; a key nobody holds, and whose locks nobody let go of without unlocking, can be taken;
and the locks of two builds are one exactly if they write one cache entry, as those of one image and
architecture do. -/
theorem locks_exclude {s : State} {as : List Action} (hrun : Machine.exec step init as = some s)
    (hnested : Machine.Meets step (fun s a => Nested s a = true) init as) :
    Exclusion s ∧ InnerRelease s ∧ Free s ∧ ∀ (sha256 : Bytes → Str) (a b arch arch' : Str),
      (buildLockPath sha256 a arch = buildLockPath sha256 b arch' ↔
        Docker.manifestCacheName sha256 a arch = Docker.manifestCacheName sha256 b arch') ∧
      (Docker.canonicalRef a = Docker.canonicalRef b → arch = arch' →
        buildLockPath sha256 a arch = buildLockPath sha256 b arch') := by
  have hsound : Sound s :=
    Machine.exec_invariant (fun _ _ _ hs hcond hstep => hs.step hcond hstep) sound_init hnested hrun
  refine ⟨hsound.exclusion, release_reentrant, hsound.free, ?_⟩
  intro sha256 a b arch arch'
  exact buildLockPath_eq_iff

/-- An exclusive lock with a re-entrant hold within it; the object of another process, which is kept out at
first, has the key when it asks again. -/
theorem locks_exclude_nested : ∃ s, Machine.exec step init [.create 0 ['k'] true, .create 0 ['k'] false,
    .create 1 ['k'] true, .acquire 0, .acquire 1, .acquire 2, .release 1, .release 0, .acquire 2] = some s ∧
    HoldsExclusively s 1 ['k'] ∧ Exclusion s ∧ InnerRelease s ∧ Free s := by
  have hrun : (Machine.exec step init [.create 0 ['k'] true, .create 0 ['k'] false,
    .create 1 ['k'] true, .acquire 0, .acquire 1, .acquire 2, .release 1, .release 0, .acquire 2]).isSome =
      true := by decide
  obtain ⟨s, hs⟩ := Option.isSome_iff_exists.mp hrun
  have h := locks_exclude hs (by decide)
  refine ⟨s, hs, ?_, h.1, h.2.1, h.2.2.1⟩
  cases hs
  exact ⟨_, .tail _ (.tail _ (.head _)), rfl, rfl, rfl, rfl⟩

/-- A process that releases the outer lock first keeps the inner hold, and another takes the key. -/
theorem unnested_release_shares : ¬ ∀ (as : List Action) (s : State),
    Machine.exec step init as = some s → Exclusion s := by
  intro hall
  have h := hall [.create 0 ['k'] true, .create 0 ['k'] true, .create 1 ['k'] true, .acquire 0, .acquire 1,
    .release 0, .acquire 2] _ rfl 0 ['k'] ⟨_, .tail _ (.head _), rfl, rfl, rfl, rfl⟩
  exact absurd (h.1 1 ⟨_, .tail _ (.tail _ (.head _)), rfl, rfl, rfl⟩) (by decide)

/-- An object that was re-entrant once unlocks nothing again: acquired and released on its own afterwards, it
keeps the key from every other process. -/
theorem reused_reentrant_keeps : ¬ ∀ (as : List Action) (s : State),
    Machine.exec step init as = some s → Free s := by
  intro hall
  have h := hall [.create 0 ['k'] true, .create 0 ['k'] true, .acquire 0, .acquire 1, .release 1, .release 0,
    .acquire 1, .release 1, .create 1 ['k'] true] _ rfl ['k'] (by decide) (by decide) 2 _ rfl rfl rfl
  obtain ⟨s', l', hstep, hl', hheld⟩ := h
  cases hstep
  cases hl'
  cases hheld

end Locking

end ProotDistro
