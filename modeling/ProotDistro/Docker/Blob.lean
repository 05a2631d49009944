import ProotDistro.Docker.Cache
import ProotDistro.Download

/-!
# `docker/cache`: content that is held to its digest

The name of a cached blob is no evidence of its content, so every consumer hashes it before use.
The hash function is a parameter; only `sha256` digests can be checked, and one that cannot be
checked is refused.

* **`requireDataDigest_spec`**, **`openVerifiedLayer_spec`** — what comes back hashes to the digest.
-/

namespace ProotDistro

open Posix Download

namespace Docker

/-- The code and the host a digest is checked with. -/
structure Hashing where
  env : Env
  /-- the lower-case hexadecimal SHA-256 of some bytes -/
  sha256 : Bytes → Str

def sha256Name : Str := "sha256".toList

/-- `split_digest`: the algorithm and the digits in lower case. -/
def splitDigest (digest : Str) : Option (Str × Str) :=
  let parts := Text.partition ':' digest
  if isDigest digest ∧ parts.1.map Char.toLower = sha256Name then
    some (sha256Name, parts.2.map Char.toLower)
  else none

/-- The bytes hash to the digest. -/
def HashesTo (sha256 : Bytes → Str) (data : Bytes) (digest : Str) : Prop :=
  splitDigest digest = some (sha256Name, sha256 data)

instance (sha256 : Bytes → Str) (data : Bytes) (digest : Str) :
    Decidable (HashesTo sha256 data digest) :=
  inferInstanceAs (Decidable (_ = _))

/-- `data_matches_digest`; a digest that cannot be checked is a RuntimeError. -/
def dataMatchesDigest (sha256 : Bytes → Str) (data : Bytes) (digest : Str) : Except Fault Bool :=
  match splitDigest digest with
  | none => .error .runtime
  | some parts => .ok (sha256 data = parts.2)

/-- `require_data_digest` -/
def requireDataDigest (sha256 : Bytes → Str) (data : Bytes) (digest : Str) : Except Fault Bytes := do
  let isMatch ← dataMatchesDigest sha256 data digest
  if isMatch then .ok data else .error .runtime

/-- `_open_blob`: the content of a regular file that can be read. -/
def openBlob (dir : CacheDir) (name : Str) : Option Bytes :=
  match dir.node name with
  | some (.file content) => content
  | some .dir | some .special | none => none

/-- `unlink_quietly` -/
def unlinkQuietly (env : Env) (name : Str) : CacheDir → CacheDir
  | .missing => .missing
  | .refused => .refused
  | .names entries =>
    if env.unlinks name ∧ Dict.get entries name ≠ some .dir then .names (Dict.erase entries name)
    else .names entries

/-- `open_verified_layer`: the content of the blob, if it is there and hashes to its digest; one
that does not is discarded. -/
def openVerifiedLayer (h : Hashing) (digest : Str) (dir : CacheDir) :
    Except Fault (Option Bytes × CacheDir) :=
  match layerCacheName digest with
  | none => .error .runtime
  | some name =>
    match openBlob dir name with
    | none => .ok (none, dir)
    | some content => do
      let isMatch ← dataMatchesDigest h.sha256 content digest
      if isMatch then .ok (some content, dir) else .ok (none, unlinkQuietly h.env name dir)

section Spec

variable {sha256 : Bytes → Str} {data data' : Bytes} {digest : Str} {h : Hashing}
  {dir dir' : CacheDir}

/-- The algorithm that is split off is the one supported. -/
theorem splitDigest_fst {parts : Str × Str} (h : splitDigest digest = some parts) :
    parts.1 = sha256Name := by
  simp only [splitDigest, Option.ite_none_right_eq_some] at h
  rw [← Option.some.inj h.2]

/-- The check says whether the data has the digest. -/
theorem dataMatchesDigest_ok {b : Bool} (hmatch : dataMatchesDigest sha256 data digest = .ok b) :
    b = true ↔ HashesTo sha256 data digest := by
  unfold dataMatchesDigest at hmatch
  unfold HashesTo
  rcases hsplit : splitDigest digest with _ | ⟨algo, hex⟩
  · rw [hsplit] at hmatch
    cases hmatch
  · rw [hsplit] at hmatch
    cases hmatch
    have halgo : algo = sha256Name := splitDigest_fst hsplit
    subst halgo
    simp [eq_comm]

/-- It says so of data that has. -/
theorem dataMatchesDigest_of_hashesTo (hash : HashesTo sha256 data digest) :
    dataMatchesDigest sha256 data digest = .ok true := by
  unfold dataMatchesDigest
  rw [hash]
  simp

/-- **Content that was required to match does.** -/
theorem requireDataDigest_spec :
    requireDataDigest sha256 data digest = .ok data' ↔
      data' = data ∧ HashesTo sha256 data digest := by
  unfold requireDataDigest
  constructor
  · intro hreq
    obtain ⟨b, hmatch, hreq⟩ := Result.bind_ok hreq
    cases b with
    | false => cases hreq
    | true =>
      cases hreq
      exact ⟨rfl, (dataMatchesDigest_ok hmatch).mp rfl⟩
  · rintro ⟨rfl, hash⟩
    rw [dataMatchesDigest_of_hashesTo hash]
    rfl

/-- **A cached layer that is used hashes to its digest.** -/
theorem openVerifiedLayer_spec {content : Bytes}
    (hopen : openVerifiedLayer h digest dir = .ok (some content, dir')) :
    HashesTo h.sha256 content digest := by
  unfold openVerifiedLayer at hopen
  split at hopen
  · cases hopen
  · split at hopen
    · cases hopen
    · obtain ⟨b, hmatch, hopen⟩ := Result.bind_ok hopen
      cases b with
      | false => cases hopen
      | true =>
        cases hopen
        exact (dataMatchesDigest_ok hmatch).mp rfl

end Spec

end Docker

end ProotDistro
