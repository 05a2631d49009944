import ProotDistro.Docker.Digest
import ProotDistro.Lib.Result
import ProotDistro.Posix.Fs

/-!
# `docker/cache`: the manifest cache and the layer cache

Two flat directories. An entry of one is reached as a name off the directory's own descriptor,
so what stands under a name is a `Node`, and a directory that cannot be walked down to is
either missing or refused. The content of a file is whatever somebody wrote: the manifest cache
holds JSON that is read with `Env.loads`, an arbitrary reader here.

* **`entryManifest_isSome`** — an entry is readable exactly when it has the shape of one.
* **`referencedBlobDigests_spec`** — `referenced_blob_digests` collects what the entries name,
  and says whether it could tell all of it.
-/

namespace ProotDistro

open Posix

namespace Docker

/-! ## Directories -/

/-- What stands under a name; a file that cannot be read has no content. -/
inductive Node where
  | file (content : Option Bytes)
  | dir
  /-- a link, a pipe, a device -/
  | special
  deriving DecidableEq

def Node.isFile : Node → Bool
  | .file _ => true
  | .dir | .special => false

/-- A directory of the cache, reached by a walk that follows no link. -/
inductive CacheDir where
  | missing
  | refused
  | names (entries : Dict Str Node)

/-- The cache of the program. -/
structure Store where
  layers : CacheDir
  manifests : CacheDir
  /-- the file of the build index, in a directory of its own -/
  buildIndex : CacheDir

/-- How a document is refused. -/
inductive LoadError where
  /-- ValueError: no document, or no text -/
  | value
  /-- RecursionError: nested too deep for the reader -/
  | recursion

/-- The code and the host around the cache. -/
structure Env where
  /-- `json.loads` of the bytes of a file -/
  loads : Bytes → Except LoadError Json
  /-- whether the host lets an entry of a directory be unlinked -/
  unlinks : Str → Bool

/-- A host where exactly these files are documents and every name can be unlinked. -/
def Env.ofDocs (docs : Dict Bytes Json) : Env where
  loads raw := (Dict.get docs raw).elim (.error .value) .ok
  unlinks _ := true

/-- How a command ends that does not end well. -/
inductive Exit where
  /-- a message and `sys.exit(1)` -/
  | message
  /-- an exception nothing catches -/
  | raised
  deriving DecidableEq

def maxStateJsonBytes : Nat := 16 * 1024 * 1024

/-- `read_state_file` of what `open_regular_at` opens. -/
def readState : Node → Option Bytes
  | .file (some content) => if content.length ≤ maxStateJsonBytes then some content else none
  | .file none | .dir | .special => none

/-! ## Entries -/

/-- `_load_entry` -/
def loadEntry (env : Env) (entries : Dict Str Node) (name : Str) :
    Except Exit (Option (Dict Str Json)) :=
  match (Dict.get entries name).bind readState with
  | none => .ok none
  | some raw =>
    match env.loads raw with
    | .error .value => .ok none
    | .error .recursion => .error .raised
    | .ok payload => .ok payload.asObj?

/-- A descriptor with its digest, if it names one. -/
def withDigest (layer : Json) : Option (Str × Json) :=
  ((layer.field "digest".toList).bind Json.asStr?).map fun digest => (digest, layer)

/-- The value of `layers`: descriptors that each name a digest. -/
def readLayers : Option Json → Option (List (Str × Json))
  | none => some []
  | some (.arr layers) =>
    if layers.all fun l => (withDigest l).isSome then some (layers.filterMap withDigest) else none
  | some _ => none

/-- `manifest_layers`: the descriptors, each with its digest; `none` is its RuntimeError. -/
def manifestLayers (manifest : Json) : Option (List (Str × Json)) :=
  manifest.asObj?.bind fun fields => readLayers (Dict.get fields "layers".toList)

/-- The value of a config's `digest`, `[]` where there is none. -/
def readConfigDigest : Option Json → Option Str
  | none => some []
  | some digest => digest.asStr?

/-- The value of `config`: nothing, or a descriptor. -/
def readConfig : Option Json → Option Str
  | none => some []
  | some config => config.asObj?.bind fun fields =>
    readConfigDigest ((Json.obj fields).field "digest".toList)

/-- `_entry_manifest` -/
def entryManifest (payload : Dict Str Json) : Option (List (Str × Json) × Str) := do
  let manifest ← Dict.get payload "manifest".toList
  let layers ← manifestLayers manifest
  let digest ← readConfig (manifest.field "config".toList)
  some (layers, digest)

def jsonSuffix : Str := ".json".toList

/-- The digests of one entry, or that it cannot be read. -/
def entryDigests (env : Env) (entries : Dict Str Node) (name : Str) :
    Except Exit (Option (List Str)) := do
  let loaded ← loadEntry env entries name
  .ok ((loaded.bind entryManifest).map fun x => x.1.map (·.1) ++ if x.2 = [] then [] else [x.2])

/-- What the sweep collects: the digests, and whether all of them. -/
structure Referenced where
  digests : List Str
  readable : Bool

def addEntry (env : Env) (entries : Dict Str Node) (r : Referenced) (name : Str) :
    Except Exit Referenced := do
  if !jsonSuffix.isSuffixOf name then .ok r
  else
    match ← entryDigests env entries name with
    | none => .ok { r with readable := false }
    | some digests => .ok { r with digests := r.digests ++ digests }

/-- `referenced_blob_digests` -/
def referencedBlobDigests (env : Env) : CacheDir → Except Exit Referenced
  | .missing => .ok ⟨[], true⟩
  | .refused => .ok ⟨[], false⟩
  | .names entries => (Dict.keys entries).foldlM (addEntry env entries) ⟨[], true⟩

/-! ## What an entry names -/

/-- An entry's document names a digest as a layer. -/
def NamesLayer (payload : Json) (digest : Str) : Prop :=
  ∃ manifest layers layer, payload.field "manifest".toList = some manifest ∧
    manifest.field "layers".toList = some (.arr layers) ∧ layer ∈ layers ∧
    layer.field "digest".toList = some (.str digest)

/-- An entry's document names a digest as the config. -/
def NamesConfig (payload : Json) (digest : Str) : Prop :=
  ∃ manifest config, payload.field "manifest".toList = some manifest ∧
    manifest.field "config".toList = some config ∧
    config.field "digest".toList = some (.str digest)

/-- Descriptors that each name a digest, or no `layers` at all. -/
def LegibleLayers (layers : Option Json) : Prop :=
  layers = none ∨ ∃ descriptors, layers = some (.arr descriptors) ∧
    ∀ l ∈ descriptors, ∃ digest, l.field "digest".toList = some (.str digest)

/-- A descriptor that may name a digest, or no `config` at all. -/
def LegibleConfig (config : Option Json) : Prop :=
  config = none ∨ ∃ fields, config = some (.obj fields) ∧
    ((Json.obj fields).field "digest".toList = none ∨
      ∃ digest, (Json.obj fields).field "digest".toList = some (.str digest))

/-- A document every digest of which can be told. -/
def Legible (payload : Json) : Prop :=
  ∃ fields, payload.field "manifest".toList = some (.obj fields) ∧
    LegibleLayers (Dict.get fields "layers".toList) ∧
    LegibleConfig ((Json.obj fields).field "config".toList)

section Entries

variable {payload fields : Dict Str Json} {manifest : Json} {digest d : Str}

/-- A field is there when its value is not null. -/
theorem field_eq_some {key : Str} {v : Json} :
    (Json.obj fields).field key = some v ↔ Dict.get fields key = some v ∧ v.isNull = false := by
  rw [Json.field_obj, Option.filter_eq_some_iff]
  simp

/-- A layer counts with the digest it names. -/
theorem withDigest_eq_some {layer : Json} {x : Str × Json} :
    withDigest layer = some x ↔ layer.field "digest".toList = some (.str x.1) ∧ x.2 = layer := by
  unfold withDigest
  rcases layer.field "digest".toList with _ | v
  · simp
  · obtain ⟨digest, layer'⟩ := x
    cases v <;> simp [Json.asStr?, eq_comm]

/-- It counts when that is a string. -/
theorem withDigest_isSome {layer : Json} :
    (withDigest layer).isSome = true ↔ ∃ digest, layer.field "digest".toList = some (.str digest) := by
  rw [Option.isSome_iff_exists]
  constructor
  · rintro ⟨x, hx⟩
    exact ⟨x.1, (withDigest_eq_some.mp hx).1⟩
  · rintro ⟨digest, hdigest⟩
    exact ⟨(digest, layer), withDigest_eq_some.mpr ⟨hdigest, rfl⟩⟩

/-- The layers are read when they are missing, or each names a digest. -/
theorem readLayers_eq_some {v : Option Json} {layers : List (Str × Json)} :
    readLayers v = some layers ↔ (v = none ∧ layers = []) ∨
      ∃ descriptors, v = some (.arr descriptors) ∧
        (∀ l ∈ descriptors, ∃ digest, l.field "digest".toList = some (.str digest)) ∧
        layers = descriptors.filterMap withDigest := by
  unfold readLayers
  split
  · simp [eq_comm]
  · simp only [Option.ite_none_right_eq_some, List.all_eq_true, withDigest_isSome]
    simp [eq_comm]
  · rename_i v hne
    simp only [reduceCtorEq, false_and, false_or, false_iff, Option.some.injEq]
    rintro ⟨descriptors, rfl, -⟩
    exact hne descriptors rfl

/-- They are read exactly when they are legible. -/
theorem readLayers_isSome {v : Option Json} : (readLayers v).isSome = true ↔ LegibleLayers v := by
  rw [Option.isSome_iff_exists]
  constructor
  · rintro ⟨layers, h⟩
    rcases readLayers_eq_some.mp h with ⟨hnone, -⟩ | ⟨descriptors, hsome, hall, -⟩
    · exact .inl hnone
    · exact .inr ⟨descriptors, hsome, hall⟩
  · rintro (hnone | ⟨descriptors, hsome, hall⟩)
    · exact ⟨[], readLayers_eq_some.mpr (.inl ⟨hnone, rfl⟩)⟩
    · exact ⟨_, readLayers_eq_some.mpr (.inr ⟨descriptors, hsome, hall, rfl⟩)⟩

/-- The digest of a configuration is read when it is missing or a string. -/
theorem readConfigDigest_isSome {v : Option Json} :
    (readConfigDigest v).isSome = true ↔ v = none ∨ ∃ digest, v = some (.str digest) := by
  rcases v with _ | v
  · simp [readConfigDigest]
  · cases v <;> simp [readConfigDigest, Json.asStr?]

/-- A configuration is read exactly when it is legible. -/
theorem readConfig_isSome {v : Option Json} : (readConfig v).isSome = true ↔ LegibleConfig v := by
  unfold LegibleConfig
  rcases v with _ | v
  · simp [readConfig]
  · cases v with
    | obj fields =>
      have hread : readConfig (some (.obj fields)) =
          readConfigDigest ((Json.obj fields).field "digest".toList) := rfl
      rw [hread, readConfigDigest_isSome]
      constructor
      · intro h
        exact .inr ⟨fields, rfl, h⟩
      · rintro (hnone | ⟨fields', heq, h⟩)
        · cases hnone
        · cases heq
          exact h
    | _ => simp [readConfig, Json.asObj?]

/-- The digest a legible config names. -/
theorem readConfig_eq_some {config : Json} (hd : d ≠ []) :
    readConfig (some config) = some d ↔ config.field "digest".toList = some (.str d) := by
  cases config with
  | obj fields =>
    change readConfigDigest ((Json.obj fields).field "digest".toList) = some d ↔ _
    rcases (Json.obj fields).field "digest".toList with _ | v
    · simp [readConfigDigest, eq_comm, hd]
    · cases v <;> simp [readConfigDigest, Json.asStr?]
  | _ => simp [readConfig, Json.asObj?, Json.field]

/-- **An entry is read exactly when it is legible.** -/
theorem entryManifest_isSome :
    (entryManifest payload).isSome = true ↔ Legible (.obj payload) := by
  unfold Legible
  rw [Option.isSome_iff_exists]
  constructor
  · rintro ⟨⟨layers, digest⟩, h⟩
    obtain ⟨manifest, hmanifest, h⟩ := Option.bind_eq_some_iff.mp h
    obtain ⟨layers', hlayers, h⟩ := Option.bind_eq_some_iff.mp h
    obtain ⟨digest', hconfig, -⟩ := Option.bind_eq_some_iff.mp h
    obtain ⟨fields, hfields, hread⟩ := Option.bind_eq_some_iff.mp hlayers
    cases manifest <;> cases hfields
    exact ⟨fields, field_eq_some.mpr ⟨hmanifest, rfl⟩,
      readLayers_isSome.mp (Option.isSome_iff_exists.mpr ⟨_, hread⟩),
      readConfig_isSome.mp (Option.isSome_iff_exists.mpr ⟨_, hconfig⟩)⟩
  · rintro ⟨fields, hmanifest, hlayers, hconfig⟩
    obtain ⟨layers, hread⟩ := Option.isSome_iff_exists.mp (readLayers_isSome.mpr hlayers)
    obtain ⟨digest, hdigest⟩ := Option.isSome_iff_exists.mp (readConfig_isSome.mpr hconfig)
    refine ⟨(layers, digest), ?_⟩
    unfold entryManifest manifestLayers
    rw [(field_eq_some.mp hmanifest).1]
    simp only [Option.bind_eq_bind, Option.bind_some, Json.asObj?]
    rw [hread]
    simp only [Option.bind_some]
    rw [hdigest]
    rfl

/-- What a legible entry names. -/
theorem entryManifest_names {layers : List (Str × Json)}
    (h : entryManifest payload = some (layers, digest)) :
    (d ∈ layers.map (·.1) ↔ NamesLayer (.obj payload) d) ∧
      (d ≠ [] → (digest = d ↔ NamesConfig (.obj payload) d)) := by
  obtain ⟨manifest, hmanifest, h⟩ := Option.bind_eq_some_iff.mp h
  obtain ⟨layers', hlayers, h⟩ := Option.bind_eq_some_iff.mp h
  obtain ⟨digest', hconfig, h⟩ := Option.bind_eq_some_iff.mp h
  cases h
  obtain ⟨fields, hfields, hread⟩ := Option.bind_eq_some_iff.mp hlayers
  cases manifest <;> cases hfields
  have hfield : (Json.obj payload).field "manifest".toList = some (.obj fields) :=
    field_eq_some.mpr ⟨hmanifest, rfl⟩
  refine ⟨?_, fun hd => ?_⟩
  · unfold NamesLayer
    rcases readLayers_eq_some.mp hread with ⟨hnone, rfl⟩ | ⟨descriptors, hsome, -, rfl⟩
    · simp only [List.map_nil, List.not_mem_nil, false_iff]
      rintro ⟨manifest, ls, l, hm, hls, -⟩
      rw [hfield] at hm
      cases hm
      rw [(field_eq_some.mp hls).1] at hnone
      cases hnone
    · constructor
      · intro hmem
        obtain ⟨x, hx, rfl⟩ := List.mem_map.mp hmem
        obtain ⟨l, hl, hdigest⟩ := List.mem_filterMap.mp hx
        exact ⟨_, descriptors, l, hfield, field_eq_some.mpr ⟨hsome, rfl⟩, hl,
          (withDigest_eq_some.mp hdigest).1⟩
      · rintro ⟨manifest, ls, l, hm, hls, hl, hdigest⟩
        rw [hfield] at hm
        cases hm
        rw [(field_eq_some.mp hls).1] at hsome
        cases hsome
        exact List.mem_map.mpr ⟨(d, l), List.mem_filterMap.mpr
          ⟨l, hl, withDigest_eq_some.mpr ⟨hdigest, rfl⟩⟩, rfl⟩
  · unfold NamesConfig
    constructor
    · rintro rfl
      rcases hc : (Json.obj fields).field "config".toList with _ | config
      · rw [hc] at hconfig
        exact absurd (Option.some.inj hconfig).symm hd
      · rw [hc] at hconfig
        exact ⟨_, config, hfield, hc, (readConfig_eq_some hd).mp hconfig⟩
    · rintro ⟨manifest, config, hm, hc, hdigest⟩
      rw [hfield] at hm
      cases hm
      rw [hc, (readConfig_eq_some hd).mpr hdigest] at hconfig
      exact (Option.some.inj hconfig).symm

end Entries

/-! ## What a directory of entries names -/

/-- The file `name` holds the document `payload`. -/
def EntryDoc (env : Env) (entries : Dict Str Node) (name : Str) (payload : Json) : Prop :=
  ∃ raw, (Dict.get entries name).bind readState = some raw ∧ env.loads raw = .ok payload

def LegibleEntry (env : Env) (entries : Dict Str Node) (name : Str) : Prop :=
  ∃ payload, EntryDoc env entries name payload ∧ Legible payload

def EntryNames (env : Env) (entries : Dict Str Node) (name digest : Str) : Prop :=
  ∃ payload, EntryDoc env entries name payload ∧
    (NamesLayer payload digest ∨ NamesConfig payload digest)

/-- The names of the directory that are entries. -/
def CacheDir.entryNames : CacheDir → List Str
  | .missing | .refused => []
  | .names entries => (Dict.keys entries).filter fun name => jsonSuffix.isSuffixOf name

def CacheDir.node (dir : CacheDir) (name : Str) : Option Node :=
  match dir with
  | .missing | .refused => none
  | .names entries => Dict.get entries name

/-- Some entry of the manifest cache names a digest, as a layer or as its config. -/
def CacheDir.Names (env : Env) (dir : CacheDir) (digest : Str) : Prop :=
  ∃ entries, dir = .names entries ∧ ∃ name ∈ dir.entryNames, EntryNames env entries name digest

/-- Every entry of the manifest cache can be read and understood. -/
def CacheDir.AllLegible (env : Env) (dir : CacheDir) : Prop :=
  dir ≠ .refused ∧ ∀ entries, dir = .names entries →
    ∀ name ∈ dir.entryNames, LegibleEntry env entries name

section Directories

variable {env : Env} {entries : Dict Str Node} {name d : Str}

/-- What is legible is an object. -/
theorem legible_isObj {payload : Json} (h : Legible payload) : ∃ fields, payload = .obj fields := by
  obtain ⟨fields, hfield, -⟩ := h
  cases payload with
  | obj fields => exact ⟨fields, rfl⟩
  | _ => cases hfield

/-- One entry: the loader answers it if it is legible, with what it names. -/
theorem entryDigests_spec {x : Option (List Str)} (h : entryDigests env entries name = .ok x) :
    (x.isSome = true ↔ LegibleEntry env entries name) ∧
      ∀ digests, x = some digests → ∀ d, d ≠ [] →
        (d ∈ digests ↔ EntryNames env entries name d) := by
  obtain ⟨loaded, hloaded, h⟩ := Result.bind_ok h
  cases h
  rw [Option.isSome_map]
  cases loaded with
  | none =>
    -- nothing was read, or no object: then no document is legible
    have hnone : ¬ LegibleEntry env entries name := by
      rintro ⟨payload, ⟨raw, hraw, hload⟩, hlegible⟩
      obtain ⟨fields, rfl⟩ := legible_isObj hlegible
      unfold loadEntry at hloaded
      rw [hraw] at hloaded
      simp only [hload] at hloaded
      cases hloaded
    refine ⟨?_, fun digests hdigests => by cases hdigests⟩
    simp only [Option.bind_none, Option.isSome_none, Bool.false_eq_true, false_iff]
    exact hnone
  | some payload =>
    have hdoc : ∀ j, EntryDoc env entries name j ↔ j = .obj payload := by
      intro j
      unfold loadEntry at hloaded
      split at hloaded
      · cases hloaded
      · rename_i raw hraw
        split at hloaded
        · cases hloaded
        · cases hloaded
        · rename_i j' hload
          have hj' : j' = .obj payload := by
            cases j' <;> cases hloaded
            rfl
          subst hj'
          unfold EntryDoc
          rw [hraw]
          constructor
          · rintro ⟨raw', heq, hload'⟩
            cases heq
            rw [hload] at hload'
            exact (Except.ok.inj hload').symm
          · rintro rfl
            exact ⟨raw, rfl, hload⟩
    have hlegible : LegibleEntry env entries name ↔ Legible (.obj payload) := by
      unfold LegibleEntry
      simp only [hdoc, exists_eq_left]
    have hnames : ∀ d, EntryNames env entries name d ↔
        NamesLayer (.obj payload) d ∨ NamesConfig (.obj payload) d := by
      intro d
      unfold EntryNames
      simp only [hdoc, exists_eq_left]
    rw [hlegible, ← entryManifest_isSome]
    refine ⟨Iff.rfl, fun digests hdigests d hd => ?_⟩
    rw [hnames]
    obtain ⟨⟨layers, digest⟩, hread, rfl⟩ := Option.map_eq_some_iff.mp hdigests
    obtain ⟨hlayers, hconfig⟩ := entryManifest_names (d := d) hread
    rw [List.mem_append, hlayers, ← hconfig hd]
    refine or_congr_right ?_
    by_cases hempty : digest = []
    · simp [hempty, hd.symm]
    · simp [hempty, eq_comm]

/-- What has been collected when the loop has gone over `names`. -/
structure Collected (env : Env) (entries : Dict Str Node) (names : List Str) (r r' : Referenced) :
    Prop where
  readable : r'.readable = true ↔ r.readable = true ∧
    ∀ name ∈ names, jsonSuffix.isSuffixOf name = true → LegibleEntry env entries name
  digests : ∀ d, d ≠ [] → r'.readable = true → (d ∈ r'.digests ↔ d ∈ r.digests ∨
    ∃ name ∈ names, jsonSuffix.isSuffixOf name = true ∧ EntryNames env entries name d)

/-- One entry adds the digests it names. -/
theorem addEntry_collected {r r' : Referenced} (h : addEntry env entries r name = .ok r') :
    Collected env entries [name] r r' := by
  unfold addEntry at h
  by_cases hsuffix : jsonSuffix.isSuffixOf name = true
  · rw [hsuffix] at h
    simp only [Bool.not_true, Bool.false_eq_true, if_false] at h
    obtain ⟨x, hx, h⟩ := Result.bind_ok h
    obtain ⟨hlegible, hnames⟩ := entryDigests_spec hx
    cases x with
    | none =>
      cases h
      refine ⟨?_, fun d _ hreadable => by cases hreadable⟩
      simp only [Bool.false_eq_true, false_iff, List.mem_singleton, forall_eq]
      rintro ⟨-, hall⟩
      exact absurd (hlegible.mpr (hall hsuffix)) (by simp)
    | some digests =>
      cases h
      refine ⟨?_, fun d hd _ => ?_⟩
      · simp only [List.mem_singleton, forall_eq, hsuffix, forall_const, ← hlegible]
        simp
      · simp only [List.mem_append, List.mem_singleton, exists_eq_left, hsuffix, true_and,
          hnames digests rfl d hd]
  · rw [Bool.not_eq_true] at hsuffix
    rw [hsuffix] at h
    cases h
    refine ⟨?_, fun d _ _ => ?_⟩
    · simp only [List.mem_singleton, forall_eq, hsuffix, Bool.false_eq_true, false_implies,
        and_true]
    · simp only [List.mem_singleton, exists_eq_left, hsuffix, Bool.false_eq_true, false_and,
        or_false]

/-- Several add those that each of them names. -/
theorem foldlM_collected {names : List Str} {r r' : Referenced}
    (h : names.foldlM (addEntry env entries) r = .ok r') : Collected env entries names r r' := by
  induction names generalizing r with
  | nil =>
    cases h
    exact ⟨by simp, by simp⟩
  | cons name names ih =>
    rw [List.foldlM_cons] at h
    obtain ⟨r₁, hr₁, h⟩ := Result.bind_ok h
    have hfirst := addEntry_collected hr₁
    have hrest := ih h
    refine ⟨?_, fun d hd hreadable => ?_⟩
    · rw [hrest.readable, hfirst.readable]
      simp only [List.mem_singleton, forall_eq, List.forall_mem_cons, and_assoc]
    · have hreadable₁ := (hrest.readable.mp hreadable).1
      rw [hrest.digests d hd hreadable, hfirst.digests d hd hreadable₁]
      simp only [List.mem_singleton, exists_eq_left, List.exists_mem_cons_iff, or_assoc]

/-- **What the sweep knows of the manifest cache**: whether every entry can be understood, and
then exactly the digests the entries name. -/
theorem referencedBlobDigests_spec {dir : CacheDir} {r : Referenced}
    (h : referencedBlobDigests env dir = .ok r) :
    (r.readable = true ↔ dir.AllLegible env) ∧
      (r.readable = true → ∀ d, d ≠ [] → (d ∈ r.digests ↔ dir.Names env d)) := by
  unfold CacheDir.AllLegible CacheDir.Names
  cases dir with
  | missing =>
    cases h
    simp
  | refused =>
    cases h
    simp
  | names entries =>
    have hcollected := foldlM_collected h
    refine ⟨?_, fun hreadable d hd => ?_⟩
    · rw [hcollected.readable]
      simp [CacheDir.entryNames]
    · rw [hcollected.digests d hd hreadable]
      simp [CacheDir.entryNames, and_assoc]

/-- Over legible entries the loop comes to its end. -/
theorem foldlM_isOk {names : List Str} (r : Referenced)
    (h : ∀ name ∈ names, jsonSuffix.isSuffixOf name = true → LegibleEntry env entries name) :
    ∃ r', names.foldlM (addEntry env entries) r = .ok r' := by
  induction names generalizing r with
  | nil => exact ⟨r, rfl⟩
  | cons name names ih =>
    obtain ⟨hname, hnames⟩ := List.forall_mem_cons.mp h
    have hstep : ∃ r₁, addEntry env entries r name = .ok r₁ := by
      unfold addEntry
      by_cases hsuffix : jsonSuffix.isSuffixOf name = true
      · rw [hsuffix]
        obtain ⟨payload, ⟨raw, hraw, hload⟩, -⟩ := hname hsuffix
        have hloaded : loadEntry env entries name = .ok payload.asObj? := by
          unfold loadEntry
          rw [hraw]
          simp only [hload]
        obtain ⟨x, hx⟩ : ∃ x, entryDigests env entries name = .ok x := by
          unfold entryDigests
          rw [hloaded]
          exact ⟨_, rfl⟩
        rw [hx]
        cases x with
        | none => exact ⟨{ r with readable := false }, rfl⟩
        | some digests => exact ⟨{ r with digests := r.digests ++ digests }, rfl⟩
      · rw [Bool.not_eq_true] at hsuffix
        rw [hsuffix]
        exact ⟨r, rfl⟩
    obtain ⟨r₁, hr₁⟩ := hstep
    obtain ⟨r', hr'⟩ := ih r₁ hnames
    refine ⟨r', ?_⟩
    rw [List.foldlM_cons, hr₁]
    exact hr'

/-- The scan answers where every entry is legible. -/
theorem referencedBlobDigests_isOk {dir : CacheDir} (h : dir.AllLegible env) :
    ∃ r, referencedBlobDigests env dir = .ok r := by
  cases dir with
  | missing => exact ⟨_, rfl⟩
  | refused => exact absurd rfl h.1
  | names entries =>
    refine foldlM_isOk ⟨[], true⟩ fun name hname hsuffix => h.2 entries rfl name ?_
    exact List.mem_filter.mpr ⟨hname, hsuffix⟩

end Directories

end Docker

end ProotDistro
