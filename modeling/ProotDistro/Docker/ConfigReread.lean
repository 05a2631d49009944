import ProotDistro.Docker.ConfigDigest
import ProotDistro.Lib.JsonAlike

/-!
# The image config, out of its blob

The canonical text of a config is the blob that a push uploads and an archive holds. Whoever pulls the
image, or installs the archive, reads the config out of it. Its keys are in order then, which is nothing to
a dictionary, and its surrogates are paired.

* **`pulled_config_iff`** — when the config that is read is the one the build has made.
-/

namespace ProotDistro

open Posix JsonText

namespace Docker

namespace ConfigDigest

variable {F : Type}

/-- `_parse_config`, of a blob in ASCII -/
def parseConfig (f : FloatFormat F) (body : Bytes) : Fields F :=
  match loads f (decode body) with
  | some (.obj fields) => fields
  | _ => []

/-- The canonical text is ASCII. -/
theorem isAscii_canonical (f : FloatFormat F) (v : Value F) : IsAscii (canonical f v) :=
  isAscii_dump (sortKeys v)

/-- A config is an object, and so is what is read of it. -/
theorem parseConfig_canonicalJson (f : FloatFormat F) (image : Image F) :
    Value.obj (parseConfig f (canonicalJson f image.config)) = reload image.config := by
  have hobject : ∃ fields, reload image.config = .obj fields := by
    unfold Image.config buildConfig reload reread
    rw [sortKeys_obj, rereadWith]
    exact ⟨_, rfl⟩
  obtain ⟨fields, hfields⟩ := hobject
  unfold parseConfig canonicalJson
  rw [decode_encode (isAscii_canonical f _), loads_canonical, hfields]

/-- **When a config comes back as it was built**: of an image whose config has no key twice, what is read of
the blob is the config but for the order of keys if and only if no string of it has a high surrogate
directly before a low one. What is read has the digest of the blob then. -/
theorem pulled_config_iff (f : FloatFormat F) (sha256 : Bytes → Bytes) (image : Image F)
    (hdistinct : distinctKeys image.config = true) :
    (Alike (.obj (parseConfig f (canonicalJson f image.config))) image.config ↔ Paired image.config) ∧
      (Paired image.config →
        digestOf sha256 (canonicalJson f (.obj (parseConfig f (canonicalJson f image.config)))) =
          digestOf sha256 (canonicalJson f image.config)) := by
  rw [parseConfig_canonicalJson]
  have hiff := alike_reload_iff hdistinct
  refine ⟨hiff, fun hpaired => ?_⟩
  have halike : sortKeys (reload image.config) = sortKeys image.config := hiff.mpr hpaired
  unfold canonicalJson canonical
  rw [halike]

/-- A config with one label. -/
def oneLabel : Image Unit where
  imageConfig := [(ofText "config", .obj [(ofText "Labels", .obj [(ofText "a", .str (ofText "1"))])])]
  layers := []
  archName := ofText "arm64"
  imageRef := ofText "x"
  arch := ofText "aarch64"
  repo := ofText "library/x"

theorem pulled_config_iff_oneLabel :
    Alike (.obj (parseConfig oneHalf (canonicalJson oneHalf oneLabel.config))) oneLabel.config := by
  have hpaired : Paired oneLabel.config := rfl
  exact (pulled_config_iff oneHalf id oneLabel (by decide +kernel)).1.mpr hpaired

end ConfigDigest

end Docker

end ProotDistro
