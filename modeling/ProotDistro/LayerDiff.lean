import Mathlib.Data.List.Dedup
import ProotDistro.L2s
import ProotDistro.TarExtract

/-!
# `layer_diff`: what a build step changed, as a layer

A step of a build is recorded by walking the rootfs before and after it (`snapshot`), comparing
the fingerprints met (`diffSnapshots`) and packing what differs: the changed entries as they
are now, then a whiteout for every path that is gone (`writeLayerTar`).

A layer is the sequence of its members; gzip, the digests and the progress bar are left out,
and so are owners. Nothing else touches the tree while it is walked or packed, so the parents'
descriptors are opened afresh for every entry. What may not be looked at, listed or opened is
passed over, and a file that may not be read has no checksum of its own; a file once open is read
to its end. Times of directories and links are no part of a snapshot.

* **`mem_snapshot`** — a snapshot holds exactly the entries its walk gets to, less the store proot
  keeps for its hard links.
* **`mem_changed`**, **`mem_deleted`** — which paths are packed and which are whited out.
* **`addEntry_eq`** — what a packed entry is.
-/

namespace ProotDistro

open Posix Dirfd TarExtract

namespace LayerDiff

/-! ## Fingerprints -/

/-- One bit of the checksum. -/
def crcShift (crc : BitVec 32) : BitVec 32 :=
  if crc.getLsbD 0 then (crc >>> 1) ^^^ 0xEDB88320#32 else crc >>> 1

def crcByte (crc : BitVec 32) (byte : UInt8) : BitVec 32 :=
  crcShift^[8] (crc ^^^ byte.toBitVec.setWidth 32)

/-- `zlib.crc32` -/
def crc32 (data : Bytes) : BitVec 32 := ~~~(data.foldl crcByte 0xFFFFFFFF#32)

inductive Fingerprint where
  | dir (mode : Mode)
  | symlink (target : List Char)
  | file (size : Nat) (mtime : Int) (mode : Mode) (crc : BitVec 32)
  deriving DecidableEq

/-- `_file_crc32`: a file that may not be opened has the checksum of none. -/
def fileCrc32 (R : Refusals) (q : Path) (content : Bytes) : BitVec 32 :=
  if R .read q then 0xFFFFFFFF#32 else crc32 content

/-- What a snapshot notes of the entry at `q`. -/
def fingerprint (R : Refusals) (q : Path) : Entry → Fingerprint
  | .dir mode => .dir mode
  | .symlink target => .symlink target
  | .file _ data =>
    .file data.content.length data.mtime data.mode (fileCrc32 R q data.content)

/-! ## Snapshots -/

/-- A fingerprint for each path met, in the order of the walk. -/
abbrev Snapshot := List (List Char × Fingerprint)

/-- proot's backing store, a directory of the rootfs's root. -/
def l2sDir : Name := ".l2s".toList

/-- The walk below the directory `d`, to a depth of `fuel` directories. -/
def snapshotWithin (R : Refusals) (fs : Fs) : Nat → Path → List Char → Snapshot
  | 0, _, _ => []
  | fuel + 1, d, relPrefix =>
    (fs.listdirIn R d).reverse.flatMap fun name =>
      match fs.lstatIn R d name with
      | .error _ => []
      | .ok (.symlink target) =>
        match Fs.readlinkIn R d name target with
        | none => []
        | some target => [(relPrefix ++ name, .symlink target)]
      | .ok (.dir mode) =>
        if relPrefix = [] ∧ name = l2sDir then []
        else
          (relPrefix ++ name, .dir mode) ::
            match fs.openDirIn R d name with
            | .error _ => []
            | .ok sub => snapshotWithin R fs fuel sub (relPrefix ++ name ++ ['/'])
      | .ok (.file i data) =>
        [(relPrefix ++ name, fingerprint R (d ++ [name]) (.file i data))]

def snapshot (R : Refusals) (fs : Fs) (rootfs : Path) : Snapshot :=
  if fs.IsDir rootfs ∧ R .opendir rootfs = false then
    snapshotWithin R fs (depth fs + 1) rootfs []
  else []

/-! ## Differences -/

structure Delta where
  added : List (List Char)
  modified : List (List Char)
  deleted : List (List Char)

def sorted (paths : List (List Char)) : List (List Char) := paths.insertionSort (· ≤ ·)

def diffSnapshots (before after : Snapshot) : Delta where
  added := sorted ((after.filter fun x => before.lookup x.1 = none).map (·.1))
  modified := sorted ((after.filter fun x =>
    (before.lookup x.1).any fun old => old ≠ x.2).map (·.1))
  deleted := sorted ((before.filter fun x => after.lookup x.1 = none).map (·.1))

/-- A name in the directory a path names. -/
def underDir (parent : List Char) (name : Name) : List Char :=
  if parent = [] then name else parent ++ '/' :: name

def whiteoutPaths (deleted survivingDirs : List (List Char)) : List (List Char) :=
  (sorted deleted.dedup).map (fun rel => underDir (dirname rel) (whPrefix ++ basename rel)) ++
    (sorted survivingDirs).map fun parent => underDir parent opaqueName

/-! ## Packing -/

/-- The descriptor of an entry's parent, walked to from the rootfs. -/
def openParent (R : Refusals) (fs : Fs) (rootfs : Path) (parentRel : List Char) : Option Path :=
  if parentRel = [] then some rootfs else fs.openDirsIn R rootfs (splitPath parentRel)

/-- A time as a tar header keeps it. -/
def wholeSeconds (time : Int) : Int := time.tdiv 1000000000 * 1000000000

/-- The file an l2s link is packed as. -/
def l2sBacking (R : Refusals) (fs : Fs) (rootfs : Path) (parentRel : List Char)
    (target : List Char) : Option FileData :=
  let linkDir := if parentRel = [] then rootfs else rootfs ++ splitPath parentRel
  (L2s.resolveL2sTarget R fs linkDir target rootfs).bind (L2s.openL2sBacking R fs rootfs)

def addEntry (R : Refusals) (fs : Fs) (rootfs : Path) (rel : List Char) : Option Member :=
  let parentRel := (rpartition rel).1
  let name := (rpartition rel).2
  match openParent R fs rootfs parentRel with
  | none => none
  | some dirFd =>
    match fs.lstatIn R dirFd name with
    | .error _ => none
    | .ok (.symlink target) =>
      match Fs.readlinkIn R dirFd name target with
      | none => none
      | some target =>
        match l2sBacking R fs rootfs parentRel target with
        | some backing =>
          some ⟨rel, .reg backing.content, backing.mode, wholeSeconds backing.mtime⟩
        | none => some ⟨rel, .sym target, 0o777, 0⟩
    | .ok (.dir mode) => some ⟨rel, .dir, mode, 0⟩
    | .ok (.file _ data) =>
      match Fs.readIn R dirFd name data with
      | none => none
      | some data => some ⟨rel, .reg data.content, data.mode, wholeSeconds data.mtime⟩

def addWhiteout (arcname : List Char) : Member := ⟨arcname, .reg [], 0o644, 0⟩

/-- The layer: the paths to pack as they are now, then the whiteouts. -/
def writeLayerTar (R : Refusals) (fs : Fs) (rootfs : Path)
    (pathsToPack deleted opaqueDirs : List (List Char)) : List Member :=
  (if fs.IsDir rootfs ∧ R .opendir rootfs = false then
    (sorted pathsToPack).filterMap (addEntry R fs rootfs) else []) ++
    (whiteoutPaths deleted opaqueDirs).map addWhiteout

/-! ## What a snapshot holds -/

/-- The entries a snapshot is to record: what stands below the root, without the store. -/
def seen (fs : Fs) (rootfs q : Path) : Option Entry :=
  if q = [] ∨ [l2sDir] <+: q ∧ fs.IsDir (rootfs ++ [l2sDir]) then none else fs.get (rootfs ++ q)

/-- A snapshot's walk gets to the entry at `q` and learns what it is. -/
def meets (R : Refusals) (rootfs q : Path) (e : Entry) : Bool :=
  !R .opendir rootfs && R.reaches rootfs q && !(e.isLink && R .readlink (rootfs ++ q))

/-- The entries a snapshot records. -/
def met (R : Refusals) (fs : Fs) (rootfs q : Path) : Option Entry :=
  (seen fs rootfs q).filter (meets R rootfs q)

/-- What the walk below `d` meets at `r`. -/
structure Met (R : Refusals) (fs : Fs) (d : Path) (relPrefix : List Char) (r : Path) (e : Entry) :
    Prop where
  below : r ≠ []
  there : fs.get (d ++ r) = some e
  reached : R.reaches d r = true
  read : e.isLink = true → R .readlink (d ++ r) = false
  no_store : ¬ (relPrefix = [] ∧ [l2sDir] <+: r ∧ fs.IsDir (d ++ [l2sDir]))

section Snapshots

variable {R : Refusals} {fs : Fs} {rootfs d p q r : Path} {name : Name} {e : Entry}
  {fp : Fingerprint} {relPrefix rel : List Char}

/-- What is met is an entry below the root and outside the store of link2symlink. -/
theorem seen_some (h : seen fs rootfs q = some e) :
    q ≠ [] ∧ fs.get (rootfs ++ q) = some e ∧
      ¬ ([l2sDir] <+: q ∧ fs.IsDir (rootfs ++ [l2sDir])) := by
  unfold seen at h
  split at h
  · cases h
  · rename_i hno
    rw [not_or] at hno
    exact ⟨hno.1, h, hno.2⟩

/-- Outside the store every entry below the root is met. -/
theorem seen_eq_get (hq : q ≠ []) (h : ¬ ([l2sDir] <+: q ∧ fs.IsDir (rootfs ++ [l2sDir]))) :
    seen fs rootfs q = fs.get (rootfs ++ q) := by
  unfold seen
  rw [if_neg (by simp [hq, h])]

/-- What a snapshot records is there. -/
theorem seen_of_met (h : met R fs rootfs q = some e) : seen fs rootfs q = some e :=
  (Option.filter_eq_some_iff.mp h).1

/-- What is met was refused nothing on the way to it. -/
theorem meets_of_met (h : met R fs rootfs q = some e) :
    R .opendir rootfs = false ∧ R.reaches rootfs q = true ∧
      (e.isLink = true → R .readlink (rootfs ++ q) = false) := by
  have hmeets := (Option.filter_eq_some_iff.mp h).2
  unfold meets at hmeets
  simp only [Bool.and_eq_true, Bool.not_eq_true', Bool.and_eq_false_imp] at hmeets
  exact ⟨hmeets.1.1, hmeets.1.2, hmeets.2⟩

/-- A snapshot records what its walk from the root meets. -/
theorem met_eq_some :
    met R fs rootfs q = some e ↔ R .opendir rootfs = false ∧ Met R fs rootfs [] q e := by
  constructor
  · intro h
    obtain ⟨hopen, hreach, hread⟩ := meets_of_met h
    obtain ⟨hne, hget, hstore⟩ := seen_some (seen_of_met h)
    exact ⟨hopen, hne, hget, hreach, hread, fun hs => hstore hs.2⟩
  · rintro ⟨hopen, hne, hget, hreach, hread, hstore⟩
    refine Option.filter_eq_some_iff.mpr ⟨?_, ?_⟩
    · rw [seen_eq_get hne fun hs => hstore ⟨rfl, hs⟩, hget]
    · unfold meets
      simp only [Bool.and_eq_true, Bool.not_eq_true', Bool.and_eq_false_imp]
      exact ⟨⟨hopen, hreach⟩, hread⟩

/-- In a directory the walk meets the names it lists and may look at. -/
theorem met_singleton :
    Met R fs d relPrefix [name] e ↔ fs.get (d ++ [name]) = some e ∧ R .listdir d = false ∧
      R .lstat (d ++ [name]) = false ∧ (e.isLink = true → R .readlink (d ++ [name]) = false) ∧
      ¬ (relPrefix = [] ∧ name = l2sDir ∧ e.isDir = true) := by
  have hstore : fs.get (d ++ [name]) = some e →
      ((relPrefix = [] ∧ [l2sDir] <+: [name] ∧ fs.IsDir (d ++ [l2sDir])) ↔
        (relPrefix = [] ∧ name = l2sDir ∧ e.isDir = true)) := by
    intro hget
    rw [List.cons_prefix_cons]
    constructor
    · rintro ⟨hnil, ⟨hname, -⟩, m, hm⟩
      rw [hname, hget, Option.some.injEq] at hm
      exact ⟨hnil, hname.symm, by rw [hm]; rfl⟩
    · rintro ⟨hnil, rfl, hdir⟩
      cases e with
      | dir m => exact ⟨hnil, ⟨rfl, List.nil_prefix⟩, m, hget⟩
      | file i data => cases hdir
      | symlink t => cases hdir
  constructor
  · rintro ⟨-, hget, hreach, hread, hno⟩
    obtain ⟨hlist, hlstat⟩ := Refusals.reaches_singleton.mp hreach
    exact ⟨hget, hlist, hlstat, hread, fun h => hno ((hstore hget).mpr h)⟩
  · rintro ⟨hget, hlist, hlstat, hread, hno⟩
    exact ⟨by simp, hget, Refusals.reaches_singleton.mpr ⟨hlist, hlstat⟩, hread,
      fun h => hno ((hstore hget).mp h)⟩

/-- Further down it meets what the walk below a directory meets that it has met and opened. -/
theorem met_cons (hr : r ≠ []) :
    Met R fs d relPrefix (name :: r) e ↔ (∃ m, Met R fs d relPrefix [name] (.dir m)) ∧
      R .opendir (d ++ [name]) = false ∧
      Met R fs (d ++ [name]) (relPrefix ++ name ++ ['/']) r e := by
  have happ : d ++ name :: r = d ++ [name] ++ r := by simp
  constructor
  · rintro ⟨-, hget, hreach, hread, hno⟩
    obtain ⟨hlist, hlstat, hopen, hbelow⟩ := (Refusals.reaches_cons hr).mp hreach
    rw [happ] at hget hread
    obtain ⟨m, hm⟩ := Fs.isDir_of_append hr hget
    refine ⟨⟨m, met_singleton.mpr ⟨hm, hlist, hlstat, nofun, ?_⟩⟩, hopen,
      hr, hget, hbelow, hread, by simp⟩
    rintro ⟨hnil, rfl, -⟩
    exact hno ⟨hnil, List.prefix_append [l2sDir] r, m, hm⟩
  · rintro ⟨⟨m, hmet⟩, hopen, hbelow⟩
    obtain ⟨hm, hlist, hlstat, -, hno⟩ := met_singleton.mp hmet
    refine ⟨by simp, happ ▸ hbelow.there,
      (Refusals.reaches_cons hr).mpr ⟨hlist, hlstat, hopen, hbelow.reached⟩, happ ▸ hbelow.read, ?_⟩
    rintro ⟨hnil, hpre, -⟩
    exact hno ⟨hnil, (List.cons_prefix_cons.mp hpre).1.symm, rfl⟩

/-- The walk below a directory records exactly what it meets. -/
theorem mem_snapshotWithin {fuel : Nat} :
    (rel, fp) ∈ snapshotWithin R fs fuel d relPrefix ↔
      ∃ r e, r.length ≤ fuel ∧ Met R fs d relPrefix r e ∧ fp = fingerprint R (d ++ r) e ∧
        rel = relPrefix ++ joinPath r := by
  induction fuel generalizing d relPrefix with
  | zero =>
    simp only [snapshotWithin, List.not_mem_nil, Nat.le_zero_eq, List.length_eq_zero_iff, false_iff]
    rintro ⟨r, e, hr, hmet, -⟩
    exact hmet.below hr
  | succ fuel ih =>
    unfold snapshotWithin
    rw [List.mem_flatMap]
    constructor
    · rintro ⟨name, hname, hmem⟩
      rw [List.mem_reverse, Fs.mem_listdirIn] at hname
      obtain ⟨hlist, hsome⟩ := hname
      obtain ⟨e, he⟩ := Option.isSome_iff_exists.mp hsome
      rw [Fs.lstatIn_of_get he] at hmem
      cases hlstat : R .lstat (d ++ [name]) with
      | true =>
        rw [hlstat] at hmem
        cases hmem
      | false =>
        rw [hlstat] at hmem
        have hleaf : (e.isLink = true → R .readlink (d ++ [name]) = false) →
            ¬ (relPrefix = [] ∧ name = l2sDir ∧ e.isDir = true) →
            (rel, fp) = (relPrefix ++ name, fingerprint R (d ++ [name]) e) →
            ∃ r e, r.length ≤ fuel + 1 ∧ Met R fs d relPrefix r e ∧
              fp = fingerprint R (d ++ r) e ∧ rel = relPrefix ++ joinPath r := by
          intro hread hno heq
          rw [Prod.mk.injEq] at heq
          exact ⟨[name], e, by simp, met_singleton.mpr ⟨he, hlist, hlstat, hread, hno⟩, heq.2,
            by simpa [joinPath] using heq.1⟩
        cases e with
        | file i data =>
          exact hleaf (by simp [Entry.isLink]) (by simp [Entry.isDir]) (List.mem_singleton.mp hmem)
        | symlink t =>
          cases hread : R .readlink (d ++ [name]) with
          | true => simp [Fs.readlinkIn, hread] at hmem
          | false =>
            simp only [Fs.readlinkIn, hread, Bool.false_eq_true, if_false] at hmem
            exact hleaf (fun _ => hread) (by simp [Entry.isDir]) (List.mem_singleton.mp hmem)
        | dir mode =>
          simp only [Bool.false_eq_true, if_false] at hmem
          split at hmem
          · cases hmem
          · rename_i hstore
            have hno : ¬ (relPrefix = [] ∧ name = l2sDir ∧ (Entry.dir mode).isDir = true) :=
              fun h => hstore ⟨h.1, h.2.1⟩
            have hread : (Entry.dir mode).isLink = true → R .readlink (d ++ [name]) = false := by
              simp [Entry.isLink]
            rcases List.mem_cons.mp hmem with heq | hmem
            · exact hleaf hread hno heq
            · rw [Fs.openDirIn_of_isDir ⟨mode, he⟩] at hmem
              cases hopen : R .opendir (d ++ [name]) with
              | true =>
                rw [hopen] at hmem
                cases hmem
              | false =>
                simp only [hopen, Bool.false_eq_true, if_false] at hmem
                obtain ⟨r, e, hlen, hmet, hfp, hrel⟩ := ih.mp hmem
                refine ⟨name :: r, e, by simpa using hlen, (met_cons hmet.below).mpr
                  ⟨⟨mode, met_singleton.mpr ⟨he, hlist, hlstat, hread, hno⟩⟩, hopen, hmet⟩,
                  by simpa using hfp, ?_⟩
                have happ : name :: r = [name] ++ r := rfl
                rw [hrel, happ, joinPath_append [name] hmet.below]
                simp
    · rintro ⟨r, e, hlen, hmet, hfp, hrel⟩
      obtain ⟨name, r, rfl⟩ := List.exists_cons_of_ne_nil hmet.below
      by_cases hr : r = []
      · subst hr
        obtain ⟨hget, hlist, hlstat, hread, hno⟩ := met_singleton.mp hmet
        refine ⟨name, List.mem_reverse.mpr (Fs.mem_listdirIn.mpr ⟨hlist, by rw [hget]; rfl⟩), ?_⟩
        have hpair : (rel, fp) = (relPrefix ++ name, fingerprint R (d ++ [name]) e) := by
          rw [hrel, hfp]
          simp [joinPath]
        simp only [Fs.lstatIn_of_get hget, hlstat, Bool.false_eq_true, if_false]
        cases e with
        | file i data => exact List.mem_singleton.mpr hpair
        | symlink t =>
          simp only [Fs.readlinkIn, hread rfl, Bool.false_eq_true, if_false]
          exact List.mem_singleton.mpr hpair
        | dir mode =>
          have hstore : ¬ (relPrefix = [] ∧ name = l2sDir) := fun h => hno ⟨h.1, h.2, rfl⟩
          simp only [if_neg hstore]
          exact List.mem_cons.mpr (.inl hpair)
      · obtain ⟨⟨m, hdir⟩, hopen, hbelow⟩ := (met_cons hr).mp hmet
        obtain ⟨hget, hlist, hlstat, -, hno⟩ := met_singleton.mp hdir
        refine ⟨name, List.mem_reverse.mpr (Fs.mem_listdirIn.mpr ⟨hlist, by rw [hget]; rfl⟩), ?_⟩
        have hstore : ¬ (relPrefix = [] ∧ name = l2sDir) := fun h => hno ⟨h.1, h.2, rfl⟩
        simp only [Fs.lstatIn_of_get hget, hlstat, Bool.false_eq_true, if_false, if_neg hstore,
          Fs.openDirIn_of_isDir ⟨m, hget⟩, hopen]
        refine List.mem_cons_of_mem _
          (ih.mpr ⟨r, e, by simpa using hlen, hbelow, by simpa using hfp, ?_⟩)
        have hcons : name :: r = [name] ++ r := rfl
        rw [hrel, hcons, joinPath_append [name] hr]
        simp

/-- A snapshot holds what its walk meets, each under its path. -/
theorem mem_snapshot (hroot : fs.IsDir rootfs) :
    (rel, fp) ∈ snapshot R fs rootfs ↔
      ∃ q e, met R fs rootfs q = some e ∧ rel = joinPath q ∧
        fp = fingerprint R (rootfs ++ q) e := by
  unfold snapshot
  simp only [met_eq_some]
  cases hopen : R .opendir rootfs with
  | true => simp
  | false =>
    rw [if_pos ⟨hroot, rfl⟩, mem_snapshotWithin]
    constructor
    · rintro ⟨q, e, -, hmet, hfp, hrel⟩
      exact ⟨q, e, ⟨rfl, hmet⟩, by simpa using hrel, hfp⟩
    · rintro ⟨q, e, ⟨-, hmet⟩, hrel, hfp⟩
      refine ⟨q, e, ?_, hmet, hfp, by simpa using hrel⟩
      have := length_le_depth hmet.there
      rw [List.length_append] at this
      omega

/-- Under the path of an entry a snapshot has the fingerprint of what it met there. -/
theorem lookup_snapshot (hroot : fs.IsDir rootfs) (hq : q ≠ []) (hv : ∀ c ∈ q, ValidName c) :
    (snapshot R fs rootfs).lookup (joinPath q) =
      (met R fs rootfs q).map (fingerprint R (rootfs ++ q)) := by
  have hkey : ∀ fp, (joinPath q, fp) ∈ snapshot R fs rootfs ↔
      (met R fs rootfs q).map (fingerprint R (rootfs ++ q)) = some fp := by
    intro fp
    rw [mem_snapshot hroot, Option.map_eq_some_iff]
    constructor
    · rintro ⟨q', e, hmet, hrel, hfp⟩
      obtain ⟨hq', hget, -⟩ := seen_some (seen_of_met hmet)
      have hsame : q = q' := joinPath_inj hq hq' (fun c hc => (hv c hc).no_slash)
        (fun c hc => (Fs.validName_of_get_append hget c hc).no_slash) hrel
      exact ⟨e, hsame ▸ hmet, hsame ▸ hfp.symm⟩
    · rintro ⟨e, hmet, hfp⟩
      exact ⟨q, e, hmet, rfl, hfp.symm⟩
  cases hl : (snapshot R fs rootfs).lookup (joinPath q) with
  | none =>
    symm
    rw [Option.eq_none_iff_forall_ne_some]
    intro fp hfp
    have := List.lookup_eq_none_iff.mp hl _ ((hkey fp).mpr hfp)
    simp at this
  | some fp =>
    obtain ⟨l₁, l₂, happ, -⟩ := List.lookup_eq_some_iff.mp hl
    exact ((hkey fp).mp (by rw [happ]; simp)).symm

end Snapshots

/-! ## What a step changed -/

/-- A step between its two snapshots: the tree it found and the tree it left, and what is refused
when the one and when the other is walked. -/
structure Step where
  before : Fs
  after : Fs
  rootfs : Path
  atFirst : Refusals
  atLast : Refusals

namespace Step

variable (s : Step)

def metBefore (q : Path) : Option Entry := met s.atFirst s.before s.rootfs q

def metAfter (q : Path) : Option Entry := met s.atLast s.after s.rootfs q

/-- A path whose entry is new or has another fingerprint now. -/
def Changed (q : Path) : Prop :=
  ∃ e, s.metAfter q = some e ∧
    (s.metBefore q).map (fingerprint s.atFirst (s.rootfs ++ q)) ≠
      some (fingerprint s.atLast (s.rootfs ++ q) e)

/-- A path where an entry was met and none is met now. -/
def Gone (q : Path) : Prop := (s.metBefore q).isSome ∧ s.metAfter q = none

/-- The changes of a step, as it takes them from its two snapshots. -/
def delta : Delta :=
  diffSnapshots (snapshot s.atFirst s.before s.rootfs) (snapshot s.atLast s.after s.rootfs)

end Step

section Changes

variable {s : Step} {rel : List Char}

/-- What is packed is what changed. -/
theorem mem_changed (hb : s.before.IsDir s.rootfs) (ha : s.after.IsDir s.rootfs) :
    rel ∈ s.delta.added ++ s.delta.modified ↔ ∃ q, s.Changed q ∧ rel = joinPath q := by
  have hlookup : ∀ q e, s.metAfter q = some e →
      (snapshot s.atFirst s.before s.rootfs).lookup (joinPath q) =
        (s.metBefore q).map (fingerprint s.atFirst (s.rootfs ++ q)) := by
    intro q e hmet
    obtain ⟨hq, hget, -⟩ := seen_some (seen_of_met hmet)
    exact lookup_snapshot hb hq (Fs.validName_of_get_append hget)
  unfold Step.delta diffSnapshots sorted
  rw [List.mem_append, List.mem_insertionSort, List.mem_insertionSort, List.mem_map, List.mem_map]
  constructor
  · rintro (⟨⟨k, fp⟩, hmem, rfl⟩ | ⟨⟨k, fp⟩, hmem, rfl⟩) <;>
      rw [List.mem_filter] at hmem <;>
      obtain ⟨q, e, hmet, rfl, rfl⟩ := (mem_snapshot ha).mp hmem.1 <;>
      refine ⟨q, ⟨e, hmet, ?_⟩, rfl⟩ <;>
      have hcond := hmem.2 <;>
      simp only [hlookup q e hmet] at hcond
    · rw [of_decide_eq_true hcond]
      simp
    · intro heq
      rw [heq] at hcond
      simp at hcond
  · rintro ⟨q, ⟨e, hmet, hne⟩, rfl⟩
    have hmem : (joinPath q, fingerprint s.atLast (s.rootfs ++ q) e) ∈
        snapshot s.atLast s.after s.rootfs :=
      (mem_snapshot ha).mpr ⟨q, e, hmet, rfl, rfl⟩
    cases hold : (s.metBefore q).map (fingerprint s.atFirst (s.rootfs ++ q)) with
    | none =>
      refine .inl ⟨_, List.mem_filter.mpr ⟨hmem, ?_⟩, rfl⟩
      simp only [hlookup q e hmet, hold, decide_true]
    | some old =>
      refine .inr ⟨_, List.mem_filter.mpr ⟨hmem, ?_⟩, rfl⟩
      simp only [hlookup q e hmet, hold, Option.any_some, decide_eq_true_eq]
      rintro rfl
      exact hne hold

/-- What is whited out is what is gone. -/
theorem mem_deleted (hb : s.before.IsDir s.rootfs) (ha : s.after.IsDir s.rootfs) :
    rel ∈ s.delta.deleted ↔ ∃ q, s.Gone q ∧ rel = joinPath q := by
  unfold Step.delta diffSnapshots sorted
  rw [List.mem_insertionSort, List.mem_map]
  constructor
  · rintro ⟨⟨k, fp⟩, hmem, rfl⟩
    rw [List.mem_filter] at hmem
    obtain ⟨q, e, hmet, rfl, rfl⟩ := (mem_snapshot hb).mp hmem.1
    obtain ⟨hq, hget, -⟩ := seen_some (seen_of_met hmet)
    refine ⟨q, ⟨Option.isSome_iff_exists.mpr ⟨e, hmet⟩, ?_⟩, rfl⟩
    have hcond := of_decide_eq_true hmem.2
    rw [lookup_snapshot ha hq (Fs.validName_of_get_append hget), Option.map_eq_none_iff] at hcond
    exact hcond
  · rintro ⟨q, ⟨hsome, hnone⟩, rfl⟩
    obtain ⟨e, hmet⟩ := Option.isSome_iff_exists.mp hsome
    obtain ⟨hq, hget, -⟩ := seen_some (seen_of_met hmet)
    refine ⟨(joinPath q, fingerprint s.atFirst (s.rootfs ++ q) e), List.mem_filter.mpr
      ⟨(mem_snapshot hb).mpr ⟨q, e, hmet, rfl, rfl⟩, ?_⟩, rfl⟩
    rw [decide_eq_true_eq, lookup_snapshot ha hq (Fs.validName_of_get_append hget),
      Option.map_eq_none_iff]
    exact hnone

end Changes

/-! ## What is packed -/

/-- The member an entry is packed as, if it is no stand-in for a hard link. -/
def entryMember (rel : List Char) : Entry → Member
  | .dir mode => ⟨rel, .dir, mode, 0⟩
  | .symlink target => ⟨rel, .sym target, 0o777, 0⟩
  | .file _ data => ⟨rel, .reg data.content, data.mode, wholeSeconds data.mtime⟩

section Packing

variable {R : Refusals} {fs : Fs} {rootfs p : Path} {x : Name} {e : Entry}

/-- The parent of an entry is opened again where the walk could open it. -/
theorem openParent_eq (hv : ∀ c ∈ p, ValidName c) (h : fs.IsDir (rootfs ++ p))
    (hopens : R.Opens rootfs p) : openParent R fs rootfs (joinPath p) = some (rootfs ++ p) := by
  unfold openParent
  by_cases hp : p = []
  · subst hp
    rw [joinPath_nil, if_pos rfl, List.append_nil]
  · rw [if_neg (joinPath_ne_nil hp hv), splitPath_joinPath hp fun c hc => (hv c hc).no_slash,
      Fs.openDirsIn_of_isDir h, if_pos hopens]

/-- A link that is no stand-in has no file behind it. -/
theorem l2sBacking_of_not_l2s {parentRel target : List Char} (h : L2s.isL2sTarget target = false) :
    l2sBacking R fs rootfs parentRel target = none := by
  unfold l2sBacking
  simp only [L2s.resolveL2sTarget_of_not_l2s h]
  rfl

/-- What a snapshot records is packed as what it is, a file if it may be opened. -/
theorem addEntry_eq (h : met R fs rootfs (p ++ [x]) = some e)
    (hl2s : ∀ t, e = .symlink t → l2sBacking R fs rootfs (joinPath p) t = none)
    (hread : e.isDir = false → e.isLink = false → R .read (rootfs ++ (p ++ [x])) = false) :
    addEntry R fs rootfs (joinPath (p ++ [x])) = some (entryMember (joinPath (p ++ [x])) e) := by
  obtain ⟨-, hreach, hlink⟩ := meets_of_met h
  obtain ⟨hopens, hlstat⟩ := Refusals.opens_of_reaches hreach
  have hget := (seen_some (seen_of_met h)).2.1
  have hv := Fs.validName_of_get_append hget
  have hslash : ∀ c ∈ p ++ [x], Fs.NoSlash c := fun c hc => (hv c hc).no_slash
  rw [← List.append_assoc] at hget hlstat hlink hread
  have hdir : fs.IsDir (rootfs ++ p) := Fs.isDir_parent hget
  unfold addEntry
  simp only [rpartition_joinPath hslash,
    openParent_eq (fun c hc => hv c (by simp [hc])) hdir hopens, Fs.lstatIn_of_get hget, hlstat,
    Bool.false_eq_true, if_false]
  cases e with
  | dir mode => rfl
  | file i data =>
    simp only [Fs.readIn, hread rfl rfl, Bool.false_eq_true, if_false]
    rfl
  | symlink t =>
    simp only [Fs.readlinkIn, hlink rfl, Bool.false_eq_true, if_false, hl2s t rfl]
    rfl

/-- A name put below a written path is the written path with the name. -/
theorem underDir_joinPath (hv : ∀ c ∈ p, ValidName c) :
    underDir (joinPath p) x = joinPath (p ++ [x]) := by
  unfold underDir
  by_cases hp : p = []
  · subst hp
    rw [joinPath_nil, if_pos rfl, joinPath_concat]
    rfl
  · rw [if_neg (joinPath_ne_nil hp hv), joinPath_concat, ← joinPath_slash hp]
    simp

/-- The whiteout of a path stands next to it. -/
theorem mem_whiteoutPaths {deleted : List (List Char)} {arcname : List Char}
    (hdeleted : ∀ rel ∈ deleted, ∃ p x, (∀ c ∈ p ++ [x], ValidName c) ∧
      rel = joinPath (p ++ [x])) :
    arcname ∈ whiteoutPaths deleted [] ↔
      ∃ p x, (∀ c ∈ p ++ [x], ValidName c) ∧ joinPath (p ++ [x]) ∈ deleted ∧
        arcname = joinPath (p ++ [whPrefix ++ x]) := by
  have hform : ∀ p x, (∀ c ∈ p ++ [x], ValidName c) →
      underDir (dirname (joinPath (p ++ [x]))) (whPrefix ++ basename (joinPath (p ++ [x]))) =
        joinPath (p ++ [whPrefix ++ x]) := by
    intro p x hv
    rw [dirname_joinPath hv, basename_joinPath fun c hc => (hv c hc).no_slash,
      underDir_joinPath fun c hc => hv c (by simp [hc])]
  unfold whiteoutPaths sorted
  simp only [List.insertionSort_nil, List.map_nil, List.append_nil, List.mem_map,
    List.mem_insertionSort, List.mem_dedup]
  constructor
  · rintro ⟨rel, hrel, rfl⟩
    obtain ⟨p, x, hv, rfl⟩ := hdeleted rel hrel
    exact ⟨p, x, hv, hrel, hform p x hv⟩
  · rintro ⟨p, x, hv, hrel, rfl⟩
    exact ⟨_, hrel, hform p x hv⟩

end Packing

end LayerDiff

end ProotDistro
