import ProotDistro.Docker.Blob
import ProotDistro.Docker.Inventory
import ProotDistro.Docker.Refs
import ProotDistro.Lib.Base64

/-!
# `docker/cache`: entries of the manifest cache

An entry is one JSON document under a name derived from the reference and the architecture. For a
reference pinned by digest it also keeps the raw documents the pull verified, in base64.

* **`loadManifestDocuments_save`** — the documents an entry was written with are read back.
-/

namespace ProotDistro

open Posix Download

namespace Docker

/-- What an entry is written and read with. -/
structure Caching where
  h : Hashing
  /-- `json.dump` of a payload, as bytes -/
  dumps : Json → Bytes

def utf8 (s : Str) : Bytes := s.flatMap String.utf8EncodeChar

/-- `manifest_cache_key` -/
def manifestCacheKey (sha256 : Bytes → Str) (imageRef arch : Str) : Str :=
  (sha256 (utf8 (canonicalRef imageRef ++ '_' :: arch))).take 16

/-- `manifest_cache_name` -/
def manifestCacheName (sha256 : Bytes → Str) (imageRef arch : Str) : Str :=
  manifestCacheKey sha256 imageRef arch ++ jsonSuffix

/-- Publish a file in a directory of the state tree, which is created where it is missing; a
failure is an OSError. -/
def writeFile (dir : CacheDir) (name : Str) (content : Bytes) : Except Fault CacheDir :=
  match dir with
  | .missing => .ok (.names [(name, .file (some content))])
  | .refused => .error (.network true)
  | .names entries =>
    if Dict.get entries name = some .dir then .error (.network true)
    else .ok (.names (Dict.set entries name (.file (some content))))

def encodeDocuments (documents : Dict Str Bytes) : Dict Str Json :=
  documents.map fun x => (x.1, .str (Base64.encode x.2))

/-- The payload of `save_manifest_cache`. -/
def entryPayload (imageRef arch : Str) (manifest : Json) (repo : Str) (imageConfig : Json)
    (documents : Dict Str Bytes) : Dict Str Json :=
  [("image_ref".toList, .str imageRef), ("arch".toList, .str arch), ("manifest".toList, manifest),
    ("repo".toList, .str repo), ("image_config".toList, imageConfig)] ++
  if documents = [] then [] else [("documents".toList, .obj (encodeDocuments documents))]

/-- `save_manifest_cache` -/
def saveManifestCache (c : Caching) (imageRef arch : Str) (manifest : Json) (repo : Str)
    (imageConfig : Json) (documents : Dict Str Bytes) (store : Store) : Except Fault Store := do
  let payload := entryPayload imageRef arch manifest repo imageConfig documents
  let manifests ← writeFile store.manifests (manifestCacheName c.h.sha256 imageRef arch)
    (c.dumps (.obj payload))
  .ok { store with manifests }

/-- `_read_entry`; a RecursionError is a RuntimeError. -/
def readEntry (c : Caching) (imageRef arch : Str) (store : Store) :
    Except Fault (Option (Dict Str Json)) :=
  match store.manifests with
  | .missing | .refused => .ok none
  | .names entries =>
    match loadEntry c.h.env entries (manifestCacheName c.h.sha256 imageRef arch) with
    | .ok payload => .ok payload
    | .error _ => .error .runtime

/-- `annotate_manifest_cache`; a rewrite that fails is passed over. -/
def annotateManifestCache (c : Caching) (imageRef arch : Str) (store : Store) :
    Except Fault Store := do
  match ← readEntry c imageRef arch store with
  | none => .ok store
  | some payload =>
    let has := fun key : String => (Dict.get payload key.toList).any Json.truthy
    if (Dict.get payload "manifest".toList).isNone || (has "image_ref" && has "arch") then .ok store
    else
      let payload := Dict.set (Dict.set payload "image_ref".toList (.str imageRef)) "arch".toList
        (.str arch)
      match writeFile store.manifests (manifestCacheName c.h.sha256 imageRef arch)
          (c.dumps (.obj payload)) with
      | .ok manifests => .ok { store with manifests }
      | .error _ => .ok store

/-- `load_manifest_cache`: the manifest and the image config of an entry. -/
def loadManifestCache (c : Caching) (imageRef arch : Str) (store : Store) :
    Except Fault (Option (Json × Json)) := do
  let payload ← readEntry c imageRef arch store
  .ok (payload.bind fun payload =>
    (Dict.get payload "manifest".toList).bind fun manifest =>
      (Dict.get payload "repo".toList).map fun _ =>
        (manifest, (Dict.get payload "image_config".toList).getD (.obj [])))

/-- One of the stored documents, unless it is not base64. -/
def decodeDocument (x : Str × Json) : Option (Str × Bytes) :=
  (x.2.asStr?.bind Base64.decode).map fun body => (x.1, body)

/-- `load_manifest_documents` -/
def loadManifestDocuments (c : Caching) (imageRef arch : Str) (store : Store) :
    Except Fault (Dict Str Bytes) := do
  let payload ← readEntry c imageRef arch store
  let stored := (payload.bind fun payload => Dict.get payload "documents".toList).bind Json.asObj?
  .ok ((stored.getD []).filterMap decodeDocument)

/-! ## What is read back -/

/-- What `json.load` reads back of a dumped object, where it reads it at all: a field that is a
dictionary of strings is what it was. -/
def ReadsBack (c : Caching) : Prop :=
  ∀ (fields fields' : Dict Str Json) (key : Str) (strings : Dict Str Json),
    (Dict.keys fields).Nodup → (Dict.keys strings).Nodup →
    (∀ x ∈ strings, x.2.asStr?.isSome = true) → Dict.get fields key = some (.obj strings) →
    c.h.env.loads (c.dumps (.obj fields)) = .ok (.obj fields') →
    Dict.get fields' key = some (.obj strings)

section ReadBack

variable {c : Caching} {imageRef arch repo : Str} {manifest imageConfig : Json}
  {documents : Dict Str Bytes} {dir dir' : CacheDir} {name : Str} {content : Bytes}

/-- What was published stands under its name. -/
theorem writeFile_node (h : writeFile dir name content = .ok dir') :
    dir'.node name = some (.file (some content)) := by
  unfold writeFile at h
  split at h
  · cases h
    exact if_pos rfl
  · cases h
  · split at h
    · cases h
    · cases h
      exact Dict.get_set_self

/-- The documents are read back from the entry. -/
theorem decode_encodeDocuments (documents : Dict Str Bytes) :
    (encodeDocuments documents).filterMap decodeDocument = documents := by
  unfold encodeDocuments
  rw [List.filterMap_map]
  refine (List.filterMap_congr fun x _ => ?_).trans List.filterMap_some
  change (Option.map _ (Base64.decode (Base64.encode x.2))) = some x
  rw [Base64.decode_encode]
  rfl

/-- The entry names no field twice. -/
theorem entryPayload_nodup :
    (Dict.keys (entryPayload imageRef arch manifest repo imageConfig documents)).Nodup := by
  unfold entryPayload Dict.keys
  split <;> simp only [List.map_append, List.map_cons, List.map_nil] <;> decide

/-- An entry that was saved is read as what was dumped, or not at all. -/
theorem readEntry_save {store store' later : Store} {x : Option (Dict Str Json)}
    (hsave : saveManifestCache c imageRef arch manifest repo imageConfig documents store = .ok store')
    (hsame : later.manifests.node (manifestCacheName c.h.sha256 imageRef arch) =
      store'.manifests.node (manifestCacheName c.h.sha256 imageRef arch))
    (hread : readEntry c imageRef arch later = .ok x) :
    ∀ fields, x = some fields → c.h.env.loads (c.dumps
      (.obj (entryPayload imageRef arch manifest repo imageConfig documents))) = .ok (.obj fields) := by
  rintro fields rfl
  obtain ⟨manifests, hwrite, hstore⟩ := Result.bind_ok hsave
  cases hstore
  rw [writeFile_node hwrite] at hsame
  unfold readEntry at hread
  rcases hdir : later.manifests with _ | _ | entries
  · rw [hdir] at hread
    cases hread
  · rw [hdir] at hread
    cases hread
  · rw [hdir] at hsame hread
    simp only at hread
    split at hread
    · rename_i payload hload
      cases hread
      obtain ⟨raw, hraw, hdoc⟩ := loadEntry_eq_some.mp hload
      have hget : Dict.get entries (manifestCacheName c.h.sha256 imageRef arch) =
          some (.file (some _)) := hsame
      rw [hget] at hraw
      unfold Option.bind readState at hraw
      simp only [Option.ite_none_right_eq_some] at hraw
      rw [Option.some.inj hraw.2]
      exact hdoc
    · cases hread

/-- **The documents of an entry are read back** as they were recorded, or not at all. -/
theorem loadManifestDocuments_save (hback : ReadsBack c) {store store' later : Store}
    (hnodup : (Dict.keys documents).Nodup) (hne : documents ≠ [])
    (hsave : saveManifestCache c imageRef arch manifest repo imageConfig documents store = .ok store')
    (hsame : later.manifests.node (manifestCacheName c.h.sha256 imageRef arch) =
      store'.manifests.node (manifestCacheName c.h.sha256 imageRef arch))
    {documents' : Dict Str Bytes} (hload : loadManifestDocuments c imageRef arch later = .ok documents')
    (hne' : documents' ≠ []) : documents' = documents := by
  obtain ⟨x, hx, hload⟩ := Result.bind_ok hload
  cases hload
  cases x with
  | none => exact absurd rfl hne'
  | some fields =>
    have hkeys : Dict.keys (encodeDocuments documents) = Dict.keys documents := by
      unfold encodeDocuments Dict.keys
      rw [List.map_map]
      rfl
    have hfield : Dict.get fields "documents".toList = some (.obj (encodeDocuments documents)) := by
      refine hback _ _ _ _ entryPayload_nodup (hkeys ▸ hnodup) (fun y hy => ?_) ?_
        (readEntry_save hsave hsame hx fields rfl)
      · obtain ⟨z, -, rfl⟩ := List.mem_map.mp hy
        rfl
      · unfold entryPayload
        rw [if_neg hne]
        rfl
    change ((((Dict.get fields "documents".toList).bind Json.asObj?).getD []).filterMap
      decodeDocument) = _
    rw [hfield]
    exact decode_encodeDocuments documents

end ReadBack

end Docker

end ProotDistro
