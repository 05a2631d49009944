import ProotDistro.Docker.ManifestCache

/-!
# `docker/pull`: the pull pipeline

A pull asks the registry, whose answers are an arbitrary sequence here, and the caches, whose
content is anybody's. Whatever is addressed by a digest is hashed before use, on each of the ways it
can come: the manifest or index a pin names, the child manifest, the config and the layers.

The state of a pull is the cache, how many answers it has used up, and the layers it has applied.
Messages and the transport below one request are left out, and so is the rootfs: whether the bytes
of a layer can be extracted is asked of the surroundings.
-/

namespace ProotDistro

open Posix Download

namespace Docker

/-- What surrounds a pull. -/
structure PullEnv where
  c : Caching
  /-- the answers of the registry, one after the other -/
  answers : Nat → Answer
  /-- `get_auth_token` comes back -/
  authorizes : Bool
  /-- the bytes are an archive that can be extracted -/
  extracts : Bytes → Bool
  /-- `ZSTD_AVAILABLE` -/
  zstd : Bool

def PullEnv.sha256 (env : PullEnv) : Bytes → Str := env.c.h.sha256

structure PullState where
  store : Store
  asked : Nat
  /-- the digests and the bytes of the layers that were applied -/
  applied : List (Str × Bytes)

abbrev PullM := Proc PullState Fault

/-- A step that may fail and looks at nothing. -/
def lift {α : Type} (x : Except Fault α) : PullM α := Proc.look fun _ => x

/-- What the cache answers. -/
def lookStore {α : Type} (f : Store → Except Fault α) : PullM α := Proc.look fun s => f s.store

/-- A change of the cache. -/
def changeStore (f : Store → Except Fault Store) : PullM Unit :=
  Proc.change fun s => (f s.store).map fun store => { s with store }

/-- One request; `accept` is what is made of a response. -/
def ask {α : Type} (env : PullEnv) (accept : Bytes → Nat → Str → Except Fault α) : PullM α := fun s =>
  let s' := { s with asked := s.asked + 1 }
  match env.answers s.asked with
  | .fails retryable => (.error (.network retryable), s')
  | .body bytes declared contentType => (accept bytes declared contentType, s')

def maxMetadataBytes : Nat := 16 * 1024 * 1024

/-- A body that is held in memory: not too large, and complete. -/
def acceptMetadata (bytes : Bytes) (declared : Nat) (contentType : Str) :
    Except Fault (Bytes × Str) := do
  if maxMetadataBytes < bytes.length then .error .runtime
  else
    requireCompleteBody bytes.length declared
    .ok (bytes, contentType)

/-- `_manifest_body`: the bytes a tag or a digest names, and their Content-Type. -/
def manifestBody (env : PullEnv) (ref : Str) : PullM (Bytes × Str) := do
  let answer ← retryHttp (ask env acceptMetadata)
  if ':' ∈ ref then
    let body ← lift (requireDataDigest env.sha256 answer.1 ref)
    pure (body, answer.2)
  else pure answer

/-! ## Documents -/

/-- `decode_json_object`; a RecursionError is a RuntimeError. -/
def decodeJsonObject (env : PullEnv) (body : Bytes) : Except Fault (Dict Str Json) :=
  match env.c.h.env.loads body with
  | .error _ => .error .runtime
  | .ok data =>
    match data.asObj? with
    | none => .error .runtime
    | some fields => .ok fields

def ctKey : Str := "_ct".toList

/-- The media type of a document: of the header, else of the document. -/
def mediaTypeOf (fields : Dict Str Json) (contentType : Str) : Str :=
  let header := Text.strip (Text.partition ';' contentType).1
  if header ≠ [] then header
  else ((Dict.get fields "mediaType".toList).bind Json.asStr?).getD []

/-- `_parse_manifest` -/
def parseManifest (env : PullEnv) (body : Bytes) (contentType : Str) :
    Except Fault (Dict Str Json) := do
  let fields ← decodeJsonObject env body
  .ok (Dict.set fields ctKey (.str (mediaTypeOf fields contentType)))

def ociIndexMedia : Str := "application/vnd.oci.image.index.v1+json".toList

def dockerManifestListMedia : Str :=
  "application/vnd.docker.distribution.manifest.list.v2+json".toList

def manifestsKey : Str := "manifests".toList

/-- `_is_index` -/
def isIndex (manifest : Dict Str Json) : Bool :=
  (match Dict.get manifest ctKey with
    | some (.str ct) => ct = ociIndexMedia || ct = dockerManifestListMedia
    | _ => false) || (Dict.get manifest manifestsKey).isSome

/-- `_entry_platform` -/
def entryPlatform (entry : Json) : Option (Dict Str Json) :=
  entry.asObj?.bind fun fields =>
    match Dict.get fields "platform".toList with
    | none => some []
    | some platform => platform.asObj?

/-- The platform is Linux on the architecture. -/
def onLinux (platform : Dict Str Json) (arch : Str) : Bool :=
  (match Dict.get platform "os".toList with
    | none => true
    | some (.str os) => os = "linux".toList
    | some _ => false) &&
  (match Dict.get platform "architecture".toList with
    | some (.str a) => a = arch
    | _ => false)

/-- The platform names no variant but the one that is asked for. -/
def variantFits (platform : Dict Str Json) (variant : Str) : Bool :=
  variant = [] ||
    match Dict.get platform "variant".toList with
    | none => true
    | some (.str v) => v = variant || v = []
    | some _ => false

/-- `_pick_platform`: the exact match, else one of any variant. -/
def pickPlatform (entries : List Json) (arch variant : Str) : Option Json :=
  (entries.find? fun e => (entryPlatform e).any fun p => onLinux p arch && variantFits p variant).or
    (entries.find? fun e => (entryPlatform e).any fun p => onLinux p arch)

/-- The platform cannot be listed in the message of a refusal: joining the list is a TypeError. -/
def unlistable (platform : Dict Str Json) : Bool :=
  (match Dict.get platform "os".toList with
    | none => true
    | some (.str os) => os = "linux".toList
    | some _ => false) &&
  (match Dict.get platform "architecture".toList with
    | none | some (.str _) => false
    | some _ => true) &&
  !((Dict.get platform "variant".toList).map Json.truthy).getD false

/-- `ARCH_TO_DOCKER` -/
def archToDocker : Dict Str (Str × Str) :=
  [("aarch64".toList, ("arm64".toList, [])), ("arm".toList, ("arm".toList, "v7".toList)),
    ("i686".toList, ("386".toList, [])), ("x86_64".toList, ("amd64".toList, [])),
    ("riscv64".toList, ("riscv64".toList, []))]

/-- The value of `digest` in the entry that was picked. -/
def usableDigest (entry : Json) : Option Str :=
  (entry.asObj?.bind fun fields => Dict.get fields "digest".toList).bind Json.asStr?

/-- `_child_digest` -/
def childDigest (index : Dict Str Json) (arch : Str) : Except Fault Str :=
  let docker := (Dict.get archToDocker arch).getD (arch, [])
  match ((Dict.get index manifestsKey).getD (.arr [])).asArr? with
  | none => .error .runtime
  | some entries =>
    match pickPlatform entries docker.1 docker.2 with
    | none => .error (if entries.any fun e => (entryPlatform e).any unlistable then .raised else .runtime)
    | some entry =>
      match usableDigest entry with
      | none => .error .runtime
      | some digest => if (splitDigest digest).isSome then .ok digest else .error .runtime

/-- `_resolve_pinned`; `fetch` hands back the bytes behind a digest. -/
def resolvePinned (env : PullEnv) (pin arch : Str) (fetch : Str → PullM Bytes) :
    PullM (Dict Str Json × Dict Str Bytes) := do
  let fetched ← fetch pin
  let body ← lift (requireDataDigest env.sha256 fetched pin)
  let documents := Dict.set [] pin body
  let manifest ← lift (parseManifest env body [])
  if isIndex manifest then
    let child ← lift (childDigest manifest arch)
    let fetched ← fetch child
    let body ← lift (requireDataDigest env.sha256 fetched child)
    let documents := Dict.set documents child body
    let manifest ← lift (parseManifest env body [])
    pure (manifest, documents)
  else pure (manifest, documents)

/-- `_config_digest` -/
def configDigest (manifest : Dict Str Json) : Str :=
  match Dict.get manifest "config".toList with
  | some (.obj config) => ((Dict.get config "digest".toList).bind Json.asStr?).getD []
  | _ => []

/-- `_download_config` -/
def downloadConfig (env : PullEnv) (digest : Str) : PullM Bytes := do
  if (splitDigest digest).isNone then Proc.fail .runtime
  else
    let answer ← retryHttp (ask env acceptMetadata)
    lift (requireDataDigest env.sha256 answer.1 digest)

/-- `_parse_config`; a document that is no object is the same as none. -/
def parseConfig (env : PullEnv) (body : Bytes) : Except Fault (Dict Str Json) :=
  match env.c.h.env.loads body with
  | .error .value => .ok []
  | .error .recursion => .error .runtime
  | .ok config => .ok (config.asObj?.getD [])

/-- `_fetch_config_blob`: what cannot be reached is passed over, what is refused is not. -/
def fetchConfigBlob (env : PullEnv) (digest : Str) : PullM (Dict Str Json) := do
  if digest = [] then pure []
  else
    let body ← (do let body ← downloadConfig env digest; pure (some body)).handle fun e =>
      match e with
      | .runtime => Proc.fail .runtime
      | .network _ | .raised => pure none
    match body with
    | none => pure []
    | some body => lift (parseConfig env body)

/-! ## Layers -/

/-- `open_verified_layer` in the cache of the pull. -/
def openLayer (env : PullEnv) (digest : Str) : PullM (Option Bytes) := fun s =>
  match openVerifiedLayer env.c.h digest s.store.layers with
  | .error e => (.error e, s)
  | .ok (content, layers) => (.ok content, { s with store := { s.store with layers } })

/-- One layer of `_usable_cached_layers`. -/
def addUsable (env : PullEnv) (layer : Str × Json) (usable : Dict Str Bytes) :
    PullM (Dict Str Bytes) :=
  if layer.1 = [] ∨ (Dict.get usable layer.1).isSome then pure usable
  else do
    match ← openLayer env layer.1 with
    | none => pure usable
    | some content => pure (Dict.set usable layer.1 content)

/-- `_usable_cached_layers` -/
def usableCachedLayers (env : PullEnv) (layers : List (Str × Json)) : PullM (Dict Str Bytes) :=
  Proc.thread (addUsable env) layers []

/-- What `download_blob` makes of a response: it is complete, and hashes to the digest. -/
def acceptBlob (env : PullEnv) (hex : Str) (bytes : Bytes) (declared : Nat) (_ : Str) :
    Except Fault Bytes := do
  requireCompleteBody bytes.length declared
  if env.sha256 bytes = hex then .ok bytes else .error .runtime

/-- Whether a temporary file can be made in a directory; a failure is an OSError. -/
def makeTemporary (dir : CacheDir) : Except Fault Unit :=
  match dir with
  | .missing | .names _ => .ok ()
  | .refused => .error (.network true)

/-- One try of `download_blob`: the blob is published under its name when it is accepted. -/
def fetchBlob (env : PullEnv) (name hex : Str) : PullM Bytes := do
  lookStore fun store => makeTemporary store.layers
  let bytes ← ask env (acceptBlob env hex)
  changeStore fun store => do
    let layers ← writeFile store.layers name bytes
    .ok { store with layers }
  pure bytes

/-- `download_blob` -/
def downloadBlob (env : PullEnv) (digest : Str) : PullM Bytes := do
  match ← openLayer env digest with
  | some content => pure content
  | none =>
    match layerCacheName digest, splitDigest digest with
    | some name, some parts => retryHttp (fetchBlob env name parts.2)
    | _, _ => Proc.fail .runtime

/-- `apply_layer`: the bytes are hashed once more while they are extracted. -/
def applyLayer (env : PullEnv) (digest : Str) (content : Bytes) : PullM Unit := do
  let isMatch ← lift (dataMatchesDigest env.sha256 content digest)
  if isMatch && env.extracts content then
    Proc.change fun s => .ok { s with applied := s.applied ++ [(digest, content)] }
  else Proc.fail .runtime

/-- A failure of the network leaves a pull as a RuntimeError. -/
def reported {α : Type} (p : PullM α) : PullM α := p.handle fun e =>
  match e with
  | .network _ => Proc.fail .runtime
  | .runtime | .raised => Proc.fail e

/-- `s in t` -/
def occurs (s t : Str) : Bool := t.tails.any fun tail => s.isPrefixOf tail

/-- A layer whose media type calls for a decompressor that is not there. -/
def needsZstd (env : PullEnv) (layer : Json) : Bool :=
  let mediaType := ((layer.asObj?.bind fun fields => Dict.get fields "mediaType".toList).bind
    Json.asStr?).getD []
  occurs "zstd".toList mediaType && !env.zstd

/-- The bytes of a layer: found usable, or downloaded. -/
def layerContent (env : PullEnv) (usable : Dict Str Bytes) (digest : Str) : PullM Bytes :=
  match Dict.get usable digest with
  | some content => pure content
  | none => reported (downloadBlob env digest)

/-- One turn of the loop of `_pull_layers`. -/
def pullLayer (env : PullEnv) (usable : Dict Str Bytes) (layer : Str × Json) : PullM Unit := do
  if needsZstd env layer.2 then Proc.fail .runtime
  else
    let content ← layerContent env usable layer.1
    applyLayer env layer.1 content

/-! ## Pulls -/

/-- What `p` answers, or nothing where it ends in a RuntimeError. -/
def unlessRefused {α : Type} (p : PullM α) : PullM (Option α) :=
  Proc.handle (do let a ← p; pure (some a)) fun e =>
    match e with
    | .runtime => pure none
    | .network _ | .raised => Proc.fail e

/-- `_cached_pin`: the manifest and the config, if the recorded documents verify against the pin. -/
def cachedPin (env : PullEnv) (imageRef pin arch : Str) :
    PullM (Option (Dict Str Json × Dict Str Json)) := do
  let documents ← lookStore (loadManifestDocuments env.c imageRef arch)
  if documents = [] then pure none
  else
    let fetch : Str → PullM Bytes := fun digest =>
      match Dict.get documents digest with
      | none => Proc.fail .runtime
      | some body => pure body
    let chain : PullM (Dict Str Json × Dict Str Json) := do
      let resolved ← resolvePinned env pin arch fetch
      let digest := configDigest resolved.1
      if digest = [] then pure (resolved.1, [])
      else
        let fetched ← fetch digest
        let body ← lift (requireDataDigest env.sha256 fetched digest)
        let config ← lift (parseConfig env body)
        pure (resolved.1, config)
    unlessRefused chain

/-- `get_auth_token` -/
def getAuthToken (env : PullEnv) : PullM Unit :=
  if env.authorizes then pure () else Proc.fail .runtime

/-- `_resolve_single_manifest` -/
def resolveSingleManifest (env : PullEnv) (ref : Reference) (arch : Str) :
    PullM (Dict Str Json × Dict Str Bytes) := do
  getAuthToken env
  if ref.digest ≠ [] then
    resolvePinned env ref.digest arch fun digest => do
      let answer ← manifestBody env digest
      pure answer.1
  else
    let answer ← manifestBody env ref.tag
    let manifest ← lift (parseManifest env answer.1 answer.2)
    if isIndex manifest then
      let child ← lift (childDigest manifest arch)
      let answer ← manifestBody env child
      let manifest ← lift (parseManifest env answer.1 answer.2)
      pure (manifest, [])
    else pure (manifest, [])

/-- The config of a pinned image is fetched like everything else the pin covers. -/
def pinnedConfig (env : PullEnv) (manifest : Dict Str Json) (documents : Dict Str Bytes) :
    PullM (Dict Str Json × Dict Str Bytes) := do
  let digest := configDigest manifest
  if digest = [] then pure ([], documents)
  else
    let body ← downloadConfig env digest
    let config ← lift (parseConfig env body)
    pure (config, Dict.set documents digest body)

/-- A pinned image from the registry: its manifest, its config and the documents on the way. -/
def fetchPinned (env : PullEnv) (ref : Reference) (arch : Str) :
    PullM (Dict Str Json × Dict Str Json × Dict Str Bytes) := do
  let resolved ← resolveSingleManifest env ref arch
  let image ← pinnedConfig env resolved.1 resolved.2
  pure (resolved.1, image)

/-- The image a tag names, as far as its config can be reached. -/
def fetchTagged (env : PullEnv) (ref : Reference) (arch : Str) :
    PullM (Dict Str Json × Dict Str Json × Dict Str Bytes) := do
  let resolved ← reported (resolveSingleManifest env ref arch)
  let config ← fetchConfigBlob env (configDigest resolved.1)
  pure (resolved.1, config, resolved.2)

def freshImage (env : PullEnv) (ref : Reference) (arch : Str) :
    PullM (Dict Str Json × Dict Str Json × Dict Str Bytes) :=
  if ref.digest ≠ [] then reported (fetchPinned env ref arch) else fetchTagged env ref arch

/-- The manifest and the config of an image that is not in the manifest cache. -/
def fetchImage (env : PullEnv) (imageRef : Str) (ref : Reference) (arch : Str) :
    PullM (Dict Str Json × Dict Str Json) := do
  let image ← freshImage env ref arch
  changeStore
    (saveManifestCache env.c imageRef arch (.obj image.1) ref.repo (.obj image.2.1) image.2.2)
  pure (image.1, image.2.1)

/-- The descriptors of a manifest; a malformed one is a RuntimeError. -/
def layersOf (manifest : Json) : Except Fault (List (Str × Json)) :=
  match manifestLayers manifest with
  | none => .error .runtime
  | some layers => .ok layers

/-- The descriptors of the layers that have to be applied, and the contents that are cached. -/
def prepareLayers (env : PullEnv) (manifest : Json) : PullM (List (Str × Json) × Dict Str Bytes) := do
  let layers ← lift (layersOf manifest)
  let usable ← usableCachedLayers env layers
  pure (layers, usable)

/-- Where layers are missing after a hit, the registry is needed after all. -/
def authorizeMissing (env : PullEnv) (layers : List (Str × Json)) (usable : Dict Str Bytes) :
    PullM Unit :=
  if layers.all fun layer => (Dict.get usable layer.1).isSome then pure () else getAuthToken env

/-- What a pull returns. -/
structure Pulled where
  manifest : Json
  imageConfig : Json

/-- The layers of an image, one after the other. -/
def pullLayers (env : PullEnv) (image : Pulled) (layers : List (Str × Json))
    (usable : Dict Str Bytes) : PullM Pulled := do
  if layers = [] then Proc.fail .runtime
  else
    Proc.each (pullLayer env usable) layers
    pure image

/-- What the manifest cache answers for a reference. -/
def cachedImage (env : PullEnv) (imageRef : Str) (ref : Reference) (arch : Str) :
    PullM (Option Pulled) :=
  if ref.digest ≠ [] then do
    let hit ← cachedPin env imageRef ref.digest arch
    pure (hit.map fun x => ⟨.obj x.1, .obj x.2⟩)
  else do
    let hit ← lookStore (loadManifestCache env.c imageRef arch)
    pure ((hit.filter fun x => !x.1.isNull).map fun x => ⟨x.1, x.2⟩)

/-- A pull that goes by the manifest cache. -/
def pullCached (env : PullEnv) (imageRef arch : Str) (image : Pulled) : PullM Pulled := do
  changeStore (annotateManifestCache env.c imageRef arch)
  let prepared ← prepareLayers env image.manifest
  authorizeMissing env prepared.1 prepared.2
  pullLayers env image prepared.1 prepared.2

/-- A pull that goes to the registry. -/
def pullFresh (env : PullEnv) (imageRef : Str) (ref : Reference) (arch : Str) : PullM Pulled := do
  let image ← fetchImage env imageRef ref arch
  let prepared ← prepareLayers env (.obj image.1)
  pullLayers env ⟨.obj image.1, .obj image.2⟩ prepared.1 prepared.2

/-- `pull_image` -/
def pullImage (env : PullEnv) (imageRef arch : Str) : PullM Pulled :=
  match parseReference imageRef with
  | none => Proc.fail .runtime
  | some ref => do
    let hit ← cachedImage env imageRef ref arch
    match hit with
    | some image => pullCached env imageRef arch image
    | none => pullFresh env imageRef ref arch

end Docker

end ProotDistro
