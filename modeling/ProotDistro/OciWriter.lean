import ProotDistro.BuildEngine.Stage

/-!
# `oci_writer`: the documents of an image

A build ends in a manifest and an image config. `buildManifestAndConfig` puts them together from
the config the engine has managed, a dictionary here, and the layers of the final stage. The
digest of a document is the SHA-256 of its canonical JSON; the hash function is a parameter.
-/

namespace ProotDistro

open Posix BuildEngine

namespace OciWriter

def ociManifestMedia : Str := "application/vnd.oci.image.manifest.v1+json".toList

def ociConfigMedia : Str := "application/vnd.oci.image.config.v1+json".toList

def ociLayerMedia : Str := "application/vnd.oci.image.layer.v1.tar+gzip".toList

/-- A descriptor of the manifest. -/
def descriptor (mediaType digest : Str) (size : Int) : Json :=
  .obj [("mediaType".toList, .str mediaType), ("digest".toList, .str digest),
    ("size".toList, .int size)]

def sha256Prefix : Str := "sha256:".toList

/-- `build_manifest_and_config` -/
def buildManifestAndConfig (sha256 : Bytes → Str) (imageConfig : Dict Str Json)
    (layers : List Layer) (archName : Str) : Dict Str Json × Dict Str Json :=
  let config := Dict.set imageConfig "architecture".toList (.str archName)
  let config := Dict.set config "os".toList
    ((Dict.get config "os".toList).getD (.str "linux".toList))
  let config := Dict.set config "rootfs".toList (.obj [("type".toList, .str "layers".toList),
    ("diff_ids".toList, .arr (layers.map fun l => .str l.diffId))])
  let config := Dict.setDefault config "history".toList (.arr [])
  let configBytes := (Json.obj config).canonicalJson
  ([("schemaVersion".toList, .int 2), ("mediaType".toList, .str ociManifestMedia),
    ("config".toList,
      descriptor ociConfigMedia (sha256Prefix ++ sha256 configBytes) configBytes.length),
    ("layers".toList, .arr (layers.map fun l => descriptor ociLayerMedia l.digest l.size))],
   config)

/-! ## What a document says of its layers -/

/-- The list under a key, `[]` where there is none. -/
def listField (j : Json) (key : String) : List Json :=
  ((j.field key.toList).bind Json.asArr?).getD []

/-- The descriptors of a manifest's layers. -/
def manifestLayers (manifest : Dict Str Json) : List Json := listField (.obj manifest) "layers"

def diffIds (config : Dict Str Json) : List Json :=
  listField (((Json.obj config).field "rootfs".toList).getD .null) "diff_ids"

/-- Whether a history entry is not marked `empty_layer`. -/
def hasLayer (entry : Json) : Bool := !((entry.field "empty_layer".toList).map Json.truthy).getD false

/-- The history entries that stand for a layer. -/
def layerEntries (config : Dict Str Json) : List Json :=
  (listField (.obj config) "history").filter hasLayer

/-! ## The record of a stage as a dictionary -/

def strList (l : List Str) : Json := .arr (l.map .str)

/-- A field where the record has one. -/
def optional {α : Type} (key : String) (f : α → Json) (value : Option α) : List (Str × Json) :=
  (value.map fun v => (key.toList, f v)).toList

def runConfigJson (cfg : RunConfig) : Json :=
  let names := fun l : List Str => Json.obj (l.map fun n => (n, .obj []))
  .obj (optional "Env" strList cfg.env ++ optional "User" .str cfg.user ++
    optional "WorkingDir" .str cfg.workingDir ++ optional "Shell" strList cfg.shell ++
    optional "Cmd" strList cfg.cmd ++ optional "Entrypoint" strList cfg.entrypoint ++
    optional "OnBuild" strList cfg.onBuild ++ optional "ExposedPorts" names cfg.exposedPorts ++
    optional "Volumes" names cfg.volumes ++
    optional "Labels" (fun l => .obj (l.map fun x => (x.1, .str x.2))) cfg.labels ++
    optional "StopSignal" .str cfg.stopSignal ++
    optional "Healthcheck" (fun t => .obj [("Test".toList, .arr t)]) cfg.healthcheck)

def imageConfigFields (c : ImageConfig) : Dict Str Json :=
  [("config".toList, runConfigJson c.config)] ++ optional "history" .arr c.history ++
    optional "rootfs" (fun ids => .obj [("diff_ids".toList, strList ids)]) c.diffIds

/-- The history written has an entry for each layer noted. -/
theorem layerEntries_imageConfigFields (c : ImageConfig) :
    layerEntries (imageConfigFields c) = (c.history.getD []).filter hasLayer := by
  obtain ⟨config, history, diffIds⟩ := c
  cases history <;> cases diffIds <;> rfl

section Documents

variable {sha256 : Bytes → Str} {imageConfig : Dict Str Json} {layers : List Layer} {archName : Str}

/-- The manifest lists the layers. -/
theorem manifestLayers_build :
    manifestLayers (buildManifestAndConfig sha256 imageConfig layers archName).1 =
      layers.map fun l => descriptor ociLayerMedia l.digest l.size :=
  rfl

/-- The config of the documents, field by field. -/
theorem get_build {key : Str} (harch : "architecture".toList ≠ key) (hos : "os".toList ≠ key) :
    Dict.get (buildManifestAndConfig sha256 imageConfig layers archName).2 key =
      Dict.get (Dict.setDefault (Dict.set imageConfig "rootfs".toList
        (.obj [("type".toList, .str "layers".toList),
          ("diff_ids".toList, .arr (layers.map fun l => .str l.diffId))]))
        "history".toList (.arr [])) key := by
  unfold buildManifestAndConfig
  simp only
  by_cases hhistory : "history".toList = key
  · subst hhistory
    rw [Dict.get_setDefault_self, Dict.get_setDefault_self, Dict.get_set_of_ne (by decide),
      Dict.get_set_of_ne hos, Dict.get_set_of_ne harch, Dict.get_set_of_ne (by decide)]
  · rw [Dict.get_setDefault_of_ne hhistory, Dict.get_setDefault_of_ne hhistory, Dict.get_set,
      Dict.get_set_of_ne hos, Dict.get_set_of_ne harch, Dict.get_set]

/-- The configuration lists their contents. -/
theorem diffIds_build :
    diffIds (buildManifestAndConfig sha256 imageConfig layers archName).2 =
      layers.map fun l => .str l.diffId := by
  unfold diffIds
  rw [Json.field_obj, get_build (by decide) (by decide), Dict.get_setDefault_of_ne (by decide),
    Dict.get_set_self]
  rfl

/-- The history is the engine's. -/
theorem layerEntries_build :
    layerEntries (buildManifestAndConfig sha256 imageConfig layers archName).2 =
      layerEntries imageConfig := by
  unfold layerEntries listField
  rw [Json.field_obj, get_build (by decide) (by decide), Dict.get_setDefault_self,
    Dict.get_set_of_ne (by decide), Json.field_obj]
  cases Dict.get imageConfig "history".toList <;> rfl

end Documents

end OciWriter

end ProotDistro
