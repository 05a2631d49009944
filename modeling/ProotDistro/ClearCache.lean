import ProotDistro.BuildCache.Index

/-!
# `clear-cache --orphan` and `--build-cache`

A sweep of the layer cache: what the manifest cache names is kept, and what the build index pins
unless `--build-cache` has dropped the index first. A source of references that cannot be read
or understood stops the command before it deletes anything.

* **`sweep_refuses`** — and then the whole cache is as it was.
* **`sweep_exact`** — otherwise exactly the files no source names are gone.
* **`sweep_again`** — and a second sweep finds nothing more.

Messages, sizes and the lock files themselves are left out; a sweep is told whether another
command holds a lock.
-/

namespace ProotDistro

open Posix Docker BuildCache

namespace ClearCache

/-- `busy_locks` -/
inductive Locks where
  | idle
  | busy
  | unknown
  deriving DecidableEq

/-- The digests that are referenced. -/
def referencedDigests (env : Docker.Env) (withBuildIndex : Bool) (store : Store) :
    Except Exit (List Str) := do
  let r ← referencedBlobDigests env store.manifests
  if !r.readable then .error .message
  else if withBuildIndex then
    let pinned ← recordedLayerDigests env store.buildIndex
    if !pinned.2 then .error .message else .ok (r.digests ++ pinned.1)
  else .ok r.digests

/-- `_referenced_blob_names` -/
def referencedBlobNames (env : Docker.Env) (withBuildIndex : Bool) (store : Store) :
    Except Exit (List Str) :=
  (referencedDigests env withBuildIndex store).map (·.filterMap layerCacheName)

/-- `_collect_orphans` -/
def collectOrphans (entries : Dict Str Node) (keep : List Str) : List Str :=
  (Dict.keys entries).filter fun name => name ∉ keep && (Dict.get entries name).any Node.isFile

/-- Unlink what the host lets go. -/
def unlinkNames (env : Docker.Env) (names : List Str) (entries : Dict Str Node) : Dict Str Node :=
  Dict.restrict (fun name => !(names.contains name && env.unlinks name)) entries

/-- `_remove_orphans` -/
def removeOrphans (env : Docker.Env) (keep : List Str) (store : Store) : Store × Except Exit Unit :=
  match store.layers with
  | .missing => (store, .ok ())
  | .refused => (store, .error .message)
  | .names entries =>
    let orphans := collectOrphans entries keep
    ({ store with layers := .names (unlinkNames env orphans entries) },
      if orphans.all env.unlinks then .ok () else .error .message)

/-- `_sweep_layers` -/
def sweepLayers (env : Docker.Env) (locks : Locks) (dropBuildIndex : Bool) (store : Store) :
    Store × Except Exit Unit :=
  if locks ≠ .idle then (store, .error .message)
  else
    match referencedBlobNames env (!dropBuildIndex) store with
    | .error e => (store, .error e)
    | .ok keep =>
      if dropBuildIndex then
        match discardIndex env store.buildIndex with
        | .error e => (store, .error e)
        | .ok buildIndex => removeOrphans env keep { store with buildIndex }
      else removeOrphans env keep store

/-! ## What a sweep may delete -/

/-- A source of references that counts names the digest. -/
def Referenced (env : Docker.Env) (withBuildIndex : Bool) (store : Store) (digest : Str) : Prop :=
  store.manifests.Names env digest ∨
    withBuildIndex = true ∧ IndexNames env store.buildIndex digest

/-- Every source that counts can be read and understood. -/
def SourcesLegible (env : Docker.Env) (withBuildIndex : Bool) (store : Store) : Prop :=
  store.manifests.AllLegible env ∧ (withBuildIndex = true → LegibleIndex env store.buildIndex)

/-- A regular file of the layer cache whose digest no source names. -/
def Orphan (env : Docker.Env) (withBuildIndex : Bool) (store : Store) (name : Str) : Prop :=
  (∃ content, store.layers.node name = some (.file content)) ∧
    ∀ digest, layerCacheName digest = some name → ¬ Referenced env withBuildIndex store digest

section Sweep

variable {env : Docker.Env} {withBuildIndex dropBuildIndex : Bool} {store : Store}

/-- No layer is cached under the empty digest. -/
theorem layerCacheName_ne_nil {digest name : Str} (h : layerCacheName digest = some name) :
    digest ≠ [] := by
  rintro rfl
  unfold layerCacheName at h
  rw [if_neg (by decide)] at h
  cases h

/-- The digests are collected only from legible sources, and then all of them. -/
theorem referencedDigests_spec {digests : List Str}
    (h : referencedDigests env withBuildIndex store = .ok digests) :
    SourcesLegible env withBuildIndex store ∧
      ∀ d, d ≠ [] → (d ∈ digests ↔ Referenced env withBuildIndex store d) := by
  unfold SourcesLegible Referenced
  obtain ⟨r, hr, h⟩ := Result.bind_ok h
  obtain ⟨hlegible, hnames⟩ := referencedBlobDigests_spec hr
  by_cases hreadable : r.readable = true
  · rw [hreadable] at h
    simp only [Bool.not_true, Bool.false_eq_true, if_false] at h
    cases withBuildIndex with
    | false =>
      cases h
      refine ⟨⟨hlegible.mp hreadable, by simp⟩, fun d hd => ?_⟩
      rw [hnames hreadable d hd]
      simp
    | true =>
      obtain ⟨⟨pinned, readable⟩, hpinned, h⟩ := Result.bind_ok h
      obtain ⟨hlegibleIndex, hpins⟩ := recordedLayerDigests_spec hpinned
      cases readable with
      | false => cases h
      | true =>
        cases h
        refine ⟨⟨hlegible.mp hreadable, fun _ => hlegibleIndex.mp rfl⟩, fun d hd => ?_⟩
        rw [List.mem_append, hnames hreadable d hd, hpins rfl d hd]
        simp
  · rw [Bool.not_eq_true] at hreadable
    rw [hreadable] at h
    cases h

/-- A kept name is the file of a digest that is referenced. -/
theorem referencedBlobNames_spec {keep : List Str}
    (h : referencedBlobNames env withBuildIndex store = .ok keep) :
    SourcesLegible env withBuildIndex store ∧
      ∀ name, name ∈ keep ↔
        ∃ digest, layerCacheName digest = some name ∧ Referenced env withBuildIndex store digest := by
  obtain ⟨digests, hdigests, rfl⟩ := Result.map_ok h
  obtain ⟨hlegible, hmem⟩ := referencedDigests_spec hdigests
  refine ⟨hlegible, fun name => ?_⟩
  rw [List.mem_filterMap]
  constructor
  · rintro ⟨digest, hdigest, hname⟩
    exact ⟨digest, hname, (hmem digest (layerCacheName_ne_nil hname)).mp hdigest⟩
  · rintro ⟨digest, hname, href⟩
    exact ⟨digest, (hmem digest (layerCacheName_ne_nil hname)).mpr href, hname⟩

/-- What is referenced is known when every source is legible. -/
theorem referencedBlobNames_isOk (h : SourcesLegible env withBuildIndex store) :
    ∃ keep, referencedBlobNames env withBuildIndex store = .ok keep := by
  obtain ⟨r, hr⟩ := referencedBlobDigests_isOk h.1
  have hreadable := (referencedBlobDigests_spec hr).1.mpr h.1
  have hdigests : ∃ digests, referencedDigests env withBuildIndex store = .ok digests := by
    unfold referencedDigests
    rw [hr]
    cases withBuildIndex with
    | false =>
      refine ⟨r.digests, ?_⟩
      simp [bind, Except.bind, hreadable]
    | true =>
      obtain ⟨⟨pinned, readable⟩, hpinned⟩ := recordedLayerDigests_isOk (h.2 rfl)
      have hindex := (recordedLayerDigests_spec hpinned).1.mpr (h.2 rfl)
      refine ⟨r.digests ++ pinned, ?_⟩
      simp [bind, Except.bind, hreadable, hpinned, hindex]
  obtain ⟨digests, hdigests⟩ := hdigests
  refine ⟨digests.filterMap layerCacheName, ?_⟩
  unfold referencedBlobNames
  rw [hdigests]
  rfl

/-- The orphans are the files that nothing keeps. -/
theorem mem_collectOrphans {entries : Dict Str Node} {keep : List Str} {name : Str} :
    name ∈ collectOrphans entries keep ↔
      (∃ content, Dict.get entries name = some (.file content)) ∧ name ∉ keep := by
  have hfile : (Dict.get entries name).any Node.isFile = true ↔
      ∃ content, Dict.get entries name = some (.file content) := by
    rcases Dict.get entries name with _ | node
    · simp
    · cases node <;> simp [Node.isFile]
  unfold collectOrphans
  rw [List.mem_filter, Bool.and_eq_true, hfile, decide_eq_true_eq]
  constructor
  · rintro ⟨-, hkeep, hnode⟩
    exact ⟨hnode, hkeep⟩
  · rintro ⟨⟨content, hnode⟩, hkeep⟩
    have hkey : name ∈ Dict.keys entries := by
      by_contra hnot
      rw [Dict.get_eq_none.mpr hnot] at hnode
      cases hnode
    exact ⟨hkey, hkeep, content, hnode⟩

/-- Where the sweep gets to deleting, what it deletes. -/
theorem removeOrphans_node (env : Docker.Env) (keep : List Str) (store : Store) (name : Str) :
    let after := (removeOrphans env keep store).1
    let orphan := (∃ content, store.layers.node name = some (.file content)) ∧ name ∉ keep ∧
      env.unlinks name = true
    (orphan → after.layers.node name = none) ∧
      (¬ orphan → after.layers.node name = store.layers.node name) := by
  unfold removeOrphans
  rcases hlayers : store.layers with _ | _ | entries
  · simp [CacheDir.node, hlayers]
  · simp [CacheDir.node, hlayers]
  · simp only [CacheDir.node, unlinkNames, Dict.get_restrict]
    constructor
    · rintro ⟨hfile, hkeep, hunlink⟩
      rw [if_neg]
      simp [mem_collectOrphans.mpr ⟨hfile, hkeep⟩, hunlink]
    · intro hnot
      rw [if_pos]
      rw [Bool.not_eq_true', Bool.and_eq_false_iff]
      by_cases hunlink : env.unlinks name = true
      · refine .inl ?_
        rw [← Bool.not_eq_true, List.contains_iff_mem, mem_collectOrphans]
        rintro ⟨hfile, hkeep⟩
        exact hnot ⟨hfile, hkeep, hunlink⟩
      · exact .inr (Bool.not_eq_true _ ▸ hunlink)

/-- The index of a sweep that drops it: there is nothing to drop, or the host lets it go. -/
def Droppable (env : Docker.Env) (dir : CacheDir) : Prop := ∃ dir', discardIndex env dir = .ok dir'

/-- **A source that cannot be read stops the sweep**: nothing is deleted, and the command
fails. -/
theorem sweep_refuses (h : ¬ SourcesLegible env (!dropBuildIndex) store) :
    ∃ e, sweepLayers env .idle dropBuildIndex store = (store, .error e) := by
  unfold sweepLayers
  rw [if_neg (by simp)]
  rcases hkeep : referencedBlobNames env (!dropBuildIndex) store with e | keep
  · exact ⟨e, rfl⟩
  · exact absurd (referencedBlobNames_spec hkeep).1 h

/-- **The sweep is exact.** With no other command running: if any source of references that
counts cannot be read or understood, or the index that is to be dropped cannot be, the cache is
left as it was and the command fails. Otherwise the files that are gone from the layer cache are
exactly the regular ones whose digest no source names, as far as the host lets them go. -/
theorem sweep_exact (env : Docker.Env) (dropBuildIndex : Bool) (store : Store) :
    (¬ SourcesLegible env (!dropBuildIndex) store →
      ∃ e, sweepLayers env .idle dropBuildIndex store = (store, .error e)) ∧
    (dropBuildIndex = true → ¬ Droppable env store.buildIndex →
      ∃ e, sweepLayers env .idle dropBuildIndex store = (store, .error e)) ∧
    (SourcesLegible env (!dropBuildIndex) store →
      (dropBuildIndex = true → Droppable env store.buildIndex) →
      let after := (sweepLayers env .idle dropBuildIndex store).1
      ∀ name, (Orphan env (!dropBuildIndex) store name ∧ env.unlinks name = true →
          after.layers.node name = none) ∧
        (¬ (Orphan env (!dropBuildIndex) store name ∧ env.unlinks name = true) →
          after.layers.node name = store.layers.node name)) := by
  refine ⟨sweep_refuses, fun hdrop hstuck => ?_, fun hlegible hdroppable => ?_⟩
  · unfold sweepLayers
    rw [if_neg (by simp)]
    rcases referencedBlobNames env (!dropBuildIndex) store with e | keep
    · exact ⟨e, rfl⟩
    · rcases hindex : discardIndex env store.buildIndex with e | buildIndex
      · refine ⟨e, ?_⟩
        simp only [hdrop, if_true]
      · exact absurd ⟨buildIndex, hindex⟩ hstuck
  · obtain ⟨keep, hkeep⟩ := referencedBlobNames_isOk hlegible
    have hmem := (referencedBlobNames_spec hkeep).2
    -- the index is out of the way of the layers
    have hsweep : ∃ buildIndex, (sweepLayers env .idle dropBuildIndex store).1 =
        (removeOrphans env keep { store with buildIndex }).1 := by
      unfold sweepLayers
      rw [if_neg (by simp), hkeep]
      cases dropBuildIndex with
      | false => exact ⟨store.buildIndex, rfl⟩
      | true =>
        obtain ⟨buildIndex, hindex⟩ := hdroppable rfl
        refine ⟨buildIndex, ?_⟩
        simp only [if_true, hindex]
    obtain ⟨buildIndex, hsweep⟩ := hsweep
    have horphan : ∀ name, (Orphan env (!dropBuildIndex) store name ∧ env.unlinks name = true) ↔
        (∃ content, store.layers.node name = some (.file content)) ∧ name ∉ keep ∧
          env.unlinks name = true := by
      intro name
      unfold Orphan
      rw [hmem name, and_assoc]
      simp only [not_exists, not_and]
    intro after name
    have hnode := removeOrphans_node env keep { store with buildIndex } name
    rw [horphan name, show after = _ from hsweep]
    exact hnode

/-! ## A sweep that is repeated -/

/-- Where no unlink succeeds, nothing goes. -/
theorem unlinkNames_of_stuck {names : List Str} {entries : Dict Str Node}
    (h : ∀ name ∈ names, env.unlinks name = false) : unlinkNames env names entries = entries := by
  unfold unlinkNames Dict.restrict
  apply List.filter_eq_self.mpr
  intro x _
  show (!(names.contains x.1 && env.unlinks x.1)) = true
  by_cases hmem : x.1 ∈ names
  · rw [h x.1 hmem, Bool.and_false]
    rfl
  · rw [← List.contains_iff_mem, Bool.not_eq_true] at hmem
    rw [hmem]
    rfl

/-- What is left of the orphans is what the host does not let go. -/
theorem mem_collectOrphans_unlinked {entries : Dict Str Node} {keep : List Str} {name : Str} :
    name ∈ collectOrphans (unlinkNames env (collectOrphans entries keep) entries) keep ↔
      name ∈ collectOrphans entries keep ∧ env.unlinks name = false := by
  rw [mem_collectOrphans, unlinkNames, Dict.get_restrict]
  constructor
  · rintro ⟨⟨content, hfile⟩, hkeep⟩
    split at hfile
    · rename_i hleft
      have hmem : name ∈ collectOrphans entries keep := mem_collectOrphans.mpr ⟨⟨content, hfile⟩, hkeep⟩
      rw [List.contains_iff_mem.mpr hmem, Bool.true_and, Bool.not_eq_true'] at hleft
      exact ⟨hmem, hleft⟩
    · cases hfile
  · rintro ⟨hmem, hstays⟩
    rw [hstays, Bool.and_false, Bool.not_false, if_pos rfl]
    exact mem_collectOrphans.mp hmem

/-- Once the orphans are gone, there is nothing to remove that can be. -/
theorem removeOrphans_again (env : Docker.Env) (keep : List Str) (store : Store) :
    removeOrphans env keep (removeOrphans env keep store).1 = removeOrphans env keep store := by
  unfold removeOrphans
  cases hlayers : store.layers with
  | missing => simp only [hlayers]
  | refused => simp only [hlayers]
  | names entries =>
    have hsame : unlinkNames env (collectOrphans (unlinkNames env (collectOrphans entries keep) entries) keep)
        (unlinkNames env (collectOrphans entries keep) entries) =
          unlinkNames env (collectOrphans entries keep) entries :=
      unlinkNames_of_stuck fun name hmem => (mem_collectOrphans_unlinked.mp hmem).2
    have hanswer : (collectOrphans (unlinkNames env (collectOrphans entries keep) entries) keep).all env.unlinks =
        (collectOrphans entries keep).all env.unlinks := by
      rw [Bool.eq_iff_iff, List.all_eq_true, List.all_eq_true]
      constructor
      · intro hall name hmem
        by_contra hstays
        rw [Bool.not_eq_true] at hstays
        have hunlinks := hall name (mem_collectOrphans_unlinked.mpr ⟨hmem, hstays⟩)
        rw [hstays] at hunlinks
        cases hunlinks
      · intro hall name hmem
        exact hall name (mem_collectOrphans_unlinked.mp hmem).1
    dsimp only
    rw [hsame, hanswer]

/-- What is referenced does not hang on the layers. -/
theorem referencedBlobNames_removeOrphans (keep : List Str) :
    referencedBlobNames env withBuildIndex (removeOrphans env keep store).1 =
      referencedBlobNames env withBuildIndex store := by
  unfold removeOrphans
  split <;> rfl

/-- **A sweep that is repeated** finds nothing more to delete, and says again what it said. -/
theorem sweep_again (env : Docker.Env) (locks : Locks) (store : Store) :
    sweepLayers env locks false (sweepLayers env locks false store).1 = sweepLayers env locks false store := by
  by_cases hlocks : locks ≠ .idle
  · unfold sweepLayers
    rw [if_pos hlocks, if_pos hlocks]
  · cases hkeep : referencedBlobNames env true store with
    | error e =>
      have hfails : sweepLayers env locks false store = (store, .error e) := by
        unfold sweepLayers
        rw [if_neg hlocks, Bool.not_false, hkeep]
      rw [hfails, hfails]
    | ok keep =>
      have hsweeps : ∀ store', referencedBlobNames env true store' = .ok keep →
          sweepLayers env locks false store' = removeOrphans env keep store' := by
        intro store' hkeep'
        unfold sweepLayers
        rw [if_neg hlocks, Bool.not_false, hkeep']
        rfl
      rw [hsweeps store hkeep, hsweeps _ ((referencedBlobNames_removeOrphans keep).trans hkeep)]
      exact removeOrphans_again env keep store

end Sweep

/-- One image and a built step, each with a layer of its own. -/
def sharedDocs : Dict Bytes Json :=
  [([1], .obj [("manifest".toList, .obj [("layers".toList, .arr [
      .obj [("digest".toList, .str "sha256:aa".toList)]])])]),
    ([2], .obj [("entries".toList, .obj [("key".toList, .obj [
      ("layer_digest".toList, .str "sha256:bb".toList)])])])]

/-- Three layers, of which nothing names the last. -/
def sharedStore : Store where
  layers := .names [("sha256_aa".toList, .file (some [])), ("sha256_bb".toList, .file (some [])),
    ("sha256_cc".toList, .file (some []))]
  manifests := .names [("image.json".toList, .file (some [1]))]
  buildIndex := .names [(indexName, .file (some [2]))]

/-- The layer that nothing names goes, the other two stay. -/
theorem sweep_exact_shared :
    let after := (sweepLayers (.ofDocs sharedDocs) .idle false sharedStore).1
    after.layers.node "sha256_aa".toList = some (.file (some [])) ∧
      after.layers.node "sha256_bb".toList = some (.file (some [])) ∧
      after.layers.node "sha256_cc".toList = none := by
  have hkeep : (referencedBlobNames (.ofDocs sharedDocs) true sharedStore).toOption =
      some ["sha256_aa".toList, "sha256_bb".toList] := by
    decide +kernel
  rcases h : referencedBlobNames (.ofDocs sharedDocs) true sharedStore with e | keep
  · rw [h] at hkeep
    cases hkeep
  · rw [h] at hkeep
    cases hkeep
    obtain ⟨hlegible, hmem⟩ := referencedBlobNames_spec h
    have hexact := (sweep_exact (.ofDocs sharedDocs) false sharedStore).2.2 hlegible
      (by simp)
    have hkept : ∀ name ∈ ["sha256_aa".toList, "sha256_bb".toList],
        ¬ (Orphan (.ofDocs sharedDocs) (!false) sharedStore name ∧
          (Env.ofDocs sharedDocs).unlinks name = true) := by
      rintro name hname ⟨⟨-, hunnamed⟩, -⟩
      obtain ⟨digest, hdigest, href⟩ := (hmem name).mp hname
      exact hunnamed digest hdigest href
    refine ⟨?_, ?_, ?_⟩
    · rw [(hexact _).2 (hkept _ (by simp))]
      decide
    · rw [(hexact _).2 (hkept _ (by simp))]
      decide
    · refine (hexact _).1 ⟨⟨⟨some [], by decide⟩, fun digest hdigest href => ?_⟩, rfl⟩
      exact absurd ((hmem _).mpr ⟨digest, hdigest, href⟩) (by decide)

end ClearCache

end ProotDistro
