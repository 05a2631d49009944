import ProotDistro.Lib.JsonText
import ProotDistro.OciWriter

/-!
# `oci_writer`, `docker/cache`, `docker/push`: the digest of an image config

A build hashes the canonical text of the image config and names digest and size in the manifest. Both
documents go into an entry of the manifest cache, as one text with blanks and in the order the keys came
in. A push reads the entry, makes the canonical text of the config anew and refuses where its digest is
not the one the manifest names. Strings are lists of code points here, since a lone surrogate can stand in
them. How floating point numbers are written is a parameter, and so is the hash function.

What a push asks of the layers is left out, and so is the name of the entry.

* **`loadManifestCache_save`** — what is loaded of an entry.
* **`pushable_iff`** — the images whose config passes.
-/

namespace ProotDistro

open Posix JsonText

namespace Docker

namespace ConfigDigest

variable {F : Type}

/-- A dictionary of a document. -/
abbrev Fields (F : Type) := Dict CodePoints (Value F)

def ofStr (s : Str) : CodePoints := s.map ofChar

/-! ## The documents of a build -/

/-- What a layer of the final stage says of itself. -/
structure LayerEntry where
  digest : CodePoints
  size : Int
  diffId : CodePoints

/-- `str.encode()` of a text in ASCII. -/
def encode (s : CodePoints) : Bytes := s.map fun c => UInt8.ofNat c.val

/-- The text of bytes in ASCII. -/
def decode (b : Bytes) : CodePoints := b.map fun x => Fin.ofNat 0x110000 x.toNat

/-- `canonical_json` -/
def canonicalJson (f : FloatFormat F) (v : Value F) : Bytes := encode (canonical f v)

def hexdigest (b : Bytes) : CodePoints :=
  b.flatMap fun x => [JsonText.hexDigit (x.toNat / 16), JsonText.hexDigit x.toNat]

def digestOf (sha256 : Bytes → Bytes) (b : Bytes) : CodePoints := ofText "sha256:" ++ hexdigest (sha256 b)

/-- The config that is hashed. -/
def buildConfig (imageConfig : Fields F) (layers : List LayerEntry) (archName : CodePoints) : Value F :=
  let config := Dict.set imageConfig (ofText "architecture") (.str archName)
  let config := Dict.set config (ofText "os")
    ((Dict.get config (ofText "os")).getD (.str (ofText "linux")))
  let config := Dict.set config (ofText "rootfs") (.obj [(ofText "type", .str (ofText "layers")),
    (ofText "diff_ids", .arr (layers.map fun l => .str l.diffId))])
  .obj (Dict.setDefault config (ofText "history") (.arr []))

/-- `build_manifest_and_config` -/
def buildManifestAndConfig (f : FloatFormat F) (sha256 : Bytes → Bytes) (imageConfig : Fields F)
    (layers : List LayerEntry) (archName : CodePoints) : Value F × Value F :=
  let config := buildConfig imageConfig layers archName
  let configBytes := canonicalJson f config
  let manifest := .obj [(ofText "schemaVersion", .int 2),
    (ofText "mediaType", .str (ofStr OciWriter.ociManifestMedia)),
    (ofText "config", .obj [(ofText "mediaType", .str (ofStr OciWriter.ociConfigMedia)),
      (ofText "digest", .str (digestOf sha256 configBytes)), (ofText "size", .int configBytes.length)]),
    (ofText "layers", .arr (layers.map fun l => .obj [
      (ofText "mediaType", .str (ofStr OciWriter.ociLayerMedia)), (ofText "digest", .str l.digest),
      (ofText "size", .int l.size)]))]
  (manifest, config)

/-! ## The entry of the manifest cache -/

/-- The content `save_manifest_cache` writes for an image that was built. -/
def saveManifestCache (f : FloatFormat F) (imageRef arch : CodePoints) (manifest : Value F)
    (repo : CodePoints) (imageConfig : Value F) : Bytes :=
  encode (dump f .spaced (.obj [(ofText "image_ref", .str imageRef), (ofText "arch", .str arch),
    (ofText "manifest", manifest), (ofText "repo", .str repo), (ofText "image_config", imageConfig)]))

/-- MAX_STATE_JSON_BYTES -/
def maxStateJsonBytes : Nat := 16 * 1024 * 1024

/-- `load_manifest_cache`: the manifest and the image config of an entry. -/
def loadManifestCache (f : FloatFormat F) (entry : Bytes) : Option (Value F × Value F) :=
  if maxStateJsonBytes < entry.length then none
  else
    match loads f (decode entry) with
    | some (.obj payload) =>
      match Dict.get payload (ofText "manifest"), Dict.get payload (ofText "repo") with
      | some manifest, some _ => some (manifest, (Dict.get payload (ofText "image_config")).getD (.obj []))
      | _, _ => none
    | _ => none

/-! ## The push -/

/-- A key of an object, `none` for what is no object. -/
def field (v : Value F) (key : String) : Option (Value F) :=
  match v with
  | .obj fields => Dict.get fields (ofText key)
  | _ => none

/-- The digest a manifest names, empty where it names none. -/
def expectedDigest (manifest : Value F) : CodePoints :=
  match (field manifest "config").bind fun config => field config "digest" with
  | some (.str digest) => digest
  | _ => []

/-- The size a manifest names. -/
def namedSize (manifest : Value F) : Option Int :=
  match (field manifest "config").bind fun config => field config "size" with
  | some (.int size) => some size
  | _ => none

def mismatch (expected actual : CodePoints) : CodePoints :=
  ofText "Image config digest mismatch (cached manifest expects " ++ expected ++
    ofText ", regenerated bytes hash to " ++ actual ++
    ofText "). The local cache appears corrupted; rebuild the image."

/-- The bytes of the config `push_image` uploads, or why it does not. -/
def pushConfig (f : FloatFormat F) (sha256 : Bytes → Bytes) (manifest imageConfig : Value F) :
    Except CodePoints Bytes :=
  let configBytes := canonicalJson f imageConfig
  if expectedDigest manifest ≠ digestOf sha256 configBytes then
    .error (mismatch (expectedDigest manifest) (digestOf sha256 configBytes))
  else .ok configBytes

/-! ## What it is for -/

/-- What a build stores and what a push makes of it, for an image config, the layers and the names. -/
structure Image (F : Type) where
  imageConfig : Fields F
  layers : List LayerEntry
  archName : CodePoints
  imageRef : CodePoints
  arch : CodePoints
  repo : CodePoints

/-- The config the build hashes. -/
def Image.config (image : Image F) : Value F := buildConfig image.imageConfig image.layers image.archName

/-- The entry the build stores. -/
def Image.entry (image : Image F) (f : FloatFormat F) (sha256 : Bytes → Bytes) : Bytes :=
  let (manifest, config) := buildManifestAndConfig f sha256 image.imageConfig image.layers image.archName
  saveManifestCache f image.imageRef image.arch manifest image.repo config

/-- The config that is loaded from the cache passes a push, with the size the manifest names. -/
def Pushable (f : FloatFormat F) (sha256 : Bytes → Bytes) (image : Image F) : Prop :=
  ∃ manifest config configBytes, loadManifestCache f (image.entry f sha256) = some (manifest, config) ∧
    pushConfig f sha256 manifest config = .ok configBytes ∧
    namedSize manifest = some (configBytes.length : Int)

/-- Two documents of one size and one hash. -/
def Collide (sha256 : Bytes → Bytes) (b b' : Bytes) : Prop :=
  b ≠ b' ∧ b.length = b'.length ∧ sha256 b = sha256 b'

/-! ## Bytes -/

section Encoding

variable {s t : CodePoints} {b b' : Bytes}

/-- ASCII is read back from its bytes. -/
theorem decode_encode (h : IsAscii s) : decode (encode s) = s := by
  unfold decode encode
  rw [List.map_map]
  conv => rhs; rw [← List.map_id s]
  apply List.map_congr_left
  intro c hc
  have hlt := h c hc
  apply Fin.ext
  show (UInt8.ofNat c.val).toNat % 0x110000 = c.val
  rw [UInt8.toNat_ofNat']
  omega

theorem encode_inj (hs : IsAscii s) (ht : IsAscii t) : encode s = encode t ↔ s = t := by
  constructor
  · intro h
    rw [← decode_encode hs, ← decode_encode ht, h]
  · intro h
    rw [h]

/-- A digest's digits determine its bytes. -/
theorem hexdigest_inj : hexdigest b = hexdigest b' ↔ b = b' := by
  constructor
  · intro h
    induction b generalizing b' with
    | nil =>
      cases b' with
      | nil => rfl
      | cons y b' => cases h
    | cons x b ih =>
      cases b' with
      | nil => cases h
      | cons y b' =>
        have hcons : ∀ (x : UInt8) (b : Bytes), hexdigest (x :: b) =
            JsonText.hexDigit (x.toNat / 16) :: JsonText.hexDigit x.toNat :: hexdigest b := fun _ _ => rfl
        rw [hcons, hcons, List.cons.injEq, List.cons.injEq] at h
        obtain ⟨hhigh, hlow, hrest⟩ := h
        have hdigit : ∀ m n : Nat, JsonText.hexDigit m = JsonText.hexDigit n → m % 16 = n % 16 := by
          intro m n hmn
          have hvalue := congrArg hexValue hmn
          rw [hexValue_hexDigit, hexValue_hexDigit] at hvalue
          exact Option.some.inj hvalue
        have h₁ := hdigit _ _ hhigh
        have h₂ := hdigit _ _ hlow
        have hx := x.toNat_lt
        have hy := y.toNat_lt
        have hbyte : x = y := by
          apply UInt8.toNat_inj.mp
          omega
        rw [hbyte, ih hrest]
  · intro h
    rw [h]

/-- A digest is read as it was written. -/
theorem pair_digestOf {sha256 : Bytes → Bytes} : pair (digestOf sha256 b) = digestOf sha256 b := by
  apply pair_eq_self
  intro c hc
  have hascii : IsAscii (digestOf sha256 b) := by
    unfold digestOf
    rw [isAscii_append]
    refine ⟨isAscii_of_all (by decide), ?_⟩
    intro d hd
    obtain ⟨x, -, hx⟩ := List.mem_flatMap.mp hd
    rw [List.mem_cons, List.mem_singleton] at hx
    rcases hx with rfl | rfl
    · exact hexDigit_lt _
    · exact hexDigit_lt _
  have hlt := hascii c hc
  unfold isHigh
  rw [Bool.and_eq_false_iff, decide_eq_false_iff_not]
  left
  omega

/-- Two contents have one digest exactly when they have one hash. -/
theorem digestOf_inj {sha256 : Bytes → Bytes} :
    digestOf sha256 b = digestOf sha256 b' ↔ sha256 b = sha256 b' := by
  unfold digestOf
  rw [List.append_cancel_left_eq, hexdigest_inj]

end Encoding

/-! ## What is loaded -/

section Loading

variable {f : FloatFormat F} {sha256 : Bytes → Bytes} {manifest config : Value F}
  {imageRef arch repo : CodePoints} {image : Image F}

/-- **What is loaded of an entry** that is not too long: both documents as JSON reads them back. -/
theorem loadManifestCache_save :
    loadManifestCache f (saveManifestCache f imageRef arch manifest repo config) =
      if maxStateJsonBytes < (saveManifestCache f imageRef arch manifest repo config).length then none
      else some (reread manifest, reread config) := by
  unfold loadManifestCache
  split
  · rfl
  · unfold saveManifestCache loads
    rw [decode_encode (isAscii_dump _), read_dump]
    rfl

/-- The digest and the size the manifest of a build still names when it is loaded. -/
theorem named_reread {imageConfig : Fields F} {layers : List LayerEntry} {archName : CodePoints} :
    expectedDigest (reread (buildManifestAndConfig f sha256 imageConfig layers archName).1) =
        digestOf sha256 (canonicalJson f (buildConfig imageConfig layers archName)) ∧
      namedSize (reread (buildManifestAndConfig f sha256 imageConfig layers archName).1) =
        some ((canonicalJson f (buildConfig imageConfig layers archName)).length : Int) := by
  constructor
  · show pair (digestOf sha256 _) = _
    exact pair_digestOf
  · rfl

/-- What is pushed is the canonical text, when it has the digest the manifest names. -/
theorem pushConfig_eq_ok {b : Bytes} : pushConfig f sha256 manifest config = .ok b ↔
    expectedDigest manifest = digestOf sha256 (canonicalJson f config) ∧ b = canonicalJson f config := by
  unfold pushConfig
  dsimp only
  split
  · rename_i hne
    exact ⟨nofun, fun h => absurd h.1 hne⟩
  · rename_i heq
    rw [not_not] at heq
    constructor
    · intro h
      cases h
      exact ⟨heq, rfl⟩
    · rintro ⟨-, rfl⟩
      rfl

/-- The canonical text of a config is as before if its keys keep their order, and only then. -/
theorem canonicalJson_reread_iff :
    canonicalJson f (reread config) = canonicalJson f config ↔ keepsKeys config = true := by
  have hascii : ∀ v : Value F, IsAscii (canonical f v) := fun v => isAscii_dump (sortKeys v)
  unfold canonicalJson
  rw [encode_inj (hascii _) (hascii _)]
  exact canonical_reread_iff config

/-- An image can be pushed if its entry can be loaded and the two documents have one hash and one size. -/
theorem pushable_iff_hash : Pushable f sha256 image ↔
    (image.entry f sha256).length ≤ maxStateJsonBytes ∧
      sha256 (canonicalJson f image.config) = sha256 (canonicalJson f (reread image.config)) ∧
      (canonicalJson f image.config).length = (canonicalJson f (reread image.config)).length := by
  have hload : loadManifestCache f (image.entry f sha256) =
      if maxStateJsonBytes < (image.entry f sha256).length then none
      else some (reread (buildManifestAndConfig f sha256 image.imageConfig image.layers image.archName).1,
        reread image.config) := loadManifestCache_save
  obtain ⟨hdigest, hsize⟩ := @named_reread F f sha256 image.imageConfig image.layers image.archName
  unfold Pushable
  rw [hload]
  constructor
  · rintro ⟨manifest, config, b, hloaded, hpush, hnamed⟩
    split at hloaded
    · cases hloaded
    · rename_i hfits
      cases hloaded
      obtain ⟨hhash, rfl⟩ := pushConfig_eq_ok.mp hpush
      rw [hdigest, digestOf_inj] at hhash
      rw [hsize, Option.some.injEq, Nat.cast_inj] at hnamed
      exact ⟨not_lt.mp hfits, hhash, hnamed⟩
  · rintro ⟨hfits, hhash, hlength⟩
    rw [if_neg (not_lt.mpr hfits)]
    refine ⟨_, _, canonicalJson f (reread image.config), rfl, ?_, ?_⟩
    · rw [pushConfig_eq_ok, hdigest, digestOf_inj]
      exact ⟨hhash, rfl⟩
    · rw [hsize, ← hlength]
      rfl

/-- **When a built image can be pushed**: its entry is not longer than a state file may be, and in every
object of its config the keys stay distinct and in their order when a high surrogate directly before a low
one is read as the one character. What else could let it pass is a collision of the hash function. -/
theorem pushable_iff (f : FloatFormat F) (sha256 : Bytes → Bytes) (image : Image F) :
    Pushable f sha256 image ↔ (image.entry f sha256).length ≤ maxStateJsonBytes ∧
      (keepsKeys image.config = true ∨
        Collide sha256 (canonicalJson f image.config) (canonicalJson f (reread image.config))) := by
  rw [pushable_iff_hash]
  apply and_congr Iff.rfl
  constructor
  · rintro ⟨hhash, hlength⟩
    by_cases hkeeps : keepsKeys image.config = true
    · exact .inl hkeeps
    · right
      exact ⟨fun heq => hkeeps (canonicalJson_reread_iff.mp heq.symm), hlength, hhash⟩
  · intro h
    rcases h with hkeeps | ⟨-, hlength, hhash⟩
    · rw [canonicalJson_reread_iff.mpr hkeeps]
      exact ⟨rfl, rfl⟩
    · exact ⟨hhash, hlength⟩

end Loading

/-- Two labels, of which one ends with two surrogates and the other with a character that comes before
what they stand for and after the first of them. -/
def surrogateLabels : Image Unit where
  imageConfig := [(ofText "config", .obj [(ofText "Labels", .obj
    [([0x61, 0xd83d, 0xdc80], .str (ofText "1")), ([0x61, 0xff00], .str (ofText "2"))])])]
  layers := []
  archName := ofText "arm64"
  imageRef := ofText "x"
  arch := ofText "aarch64"
  repo := ofText "library/x"

/-- One number, written as one is. -/
def oneHalf : FloatFormat Unit where
  write _ := ofText "0.5"
  read _ := ()
  read_write _ := rfl
  written _ := .inr ⟨⟨[], ofText "0", ofText ".5", []⟩, by decide, by decide, by decide⟩

/-- The labels change places, and the push refuses the image. -/
theorem surrogateLabels_refused :
    canonicalJson oneHalf (reread surrogateLabels.config) ≠ canonicalJson oneHalf surrogateLabels.config ∧
      ¬ Pushable oneHalf id surrogateLabels := by
  have hmoved : ¬ (keepsKeys surrogateLabels.config = true) := by decide +kernel
  have hne : canonicalJson oneHalf (reread surrogateLabels.config) ≠
      canonicalJson oneHalf surrogateLabels.config := fun h => hmoved (canonicalJson_reread_iff.mp h)
  refine ⟨hne, ?_⟩
  rw [pushable_iff_hash]
  exact fun h => hne h.2.1.symm

end ConfigDigest

end Docker

end ProotDistro
