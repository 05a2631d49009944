import ProotDistro.Docker.Inventory
import ProotDistro.BuildCache.Index

/-!
# `remove --image`

The entries of the chosen images are unlinked from the manifest cache, and then every layer of
theirs that the inventory does not list any more. The inventory passes over an entry it cannot
read, knows the layers of an entry but not its config, and has never heard of the build index:
it is a list for the eye, where a sweep has to know every reference.

* **`remove_image_keeps_shared_iff`** — when a removal deletes no blob that something left over
  may still need.

Which records an identifier selects is left to the caller: everything here holds of any
selection. Messages, sizes and locks are left out.
-/

namespace ProotDistro

open Posix Docker BuildCache

namespace RemoveImage

inductive UnlinkError where
  | missing
  | refused

/-- `os.unlink` of a name off a directory. -/
def unlinkAt (env : Docker.Env) (name : Str) (entries : Dict Str Node) :
    Except UnlinkError (Dict Str Node) :=
  match Dict.get entries name with
  | none => .error .missing
  | some .dir => .error .refused
  | some (.file _) | some .special =>
    if env.unlinks name then .ok (Dict.erase entries name) else .error .refused

/-- A directory while names are unlinked from it, and whether one of them would not go. -/
structure Unlinking where
  entries : Dict Str Node
  failed : Bool

/-- The first loop of `_unlink_targets`. -/
def removeEntry (env : Docker.Env) (u : Unlinking) (record : Record) : Unlinking :=
  match unlinkAt env record.name u.entries with
  | .error _ => { u with failed := true }
  | .ok entries => { u with entries }

/-- The second loop, with the digests it has seen. -/
def dropLayer (env : Docker.Env) (keep : List Str) (u : Unlinking × List Str) (digest : Str) :
    Unlinking × List Str :=
  if digest ∈ keep ∨ digest ∈ u.2 then u
  else
    let dropped := digest :: u.2
    match layerCacheName digest with
    | none => (u.1, dropped)
    | some name =>
      match unlinkAt env name u.1.entries with
      | .error .missing => (u.1, dropped)
      | .error .refused => ({ u.1 with failed := true }, dropped)
      | .ok entries => ({ u.1 with entries }, dropped)

def ending (failed : Bool) : Except Exit Unit := if failed then .error .message else .ok ()

/-- `_unlink_targets`; a layer cache that is not there has no descriptor. -/
def unlinkTargets (env : Docker.Env) (targets : List Record) (entries : Dict Str Node)
    (store : Store) : Store × Except Exit Unit :=
  let left := targets.foldl (removeEntry env) ⟨entries, false⟩
  let store := { store with manifests := .names left.entries }
  match iterCachedImages env store.manifests with
  | .error e => (store, .error e)
  | .ok records =>
    match store.layers with
    | .missing | .refused => (store, ending left.failed)
    | .names blobs =>
      let keep := records.flatMap (·.layers)
      let dropped := (targets.flatMap (·.layers)).foldl (dropLayer env keep)
        (⟨blobs, left.failed⟩, [])
      ({ store with layers := .names dropped.1.entries }, ending dropped.1.failed)

/-- `_delete_images` -/
def deleteImages (env : Docker.Env) (targets : List Record) (store : Store) :
    Store × Except Exit Unit :=
  match store.manifests, store.layers with
  | .missing, _ | .refused, _ | _, .refused => (store, .error .message)
  | .names entries, _ => unlinkTargets env targets entries store

/-! ## What a removal must keep -/

/-- **Shared blobs stay**: where a blob is deleted, every entry left over can be read, none of them
names the blob as a layer or as its config, and no step of the build index pins it. -/
def KeepsShared (env : Docker.Env) (targets : List Record) (store : Store) : Prop :=
  let after := (deleteImages env targets store).1
  ∀ name node, store.layers.node name = some node → after.layers.node name = none →
    after.manifests.AllLegible env ∧
      ∀ digest, layerCacheName digest = some name →
        ¬ after.manifests.Names env digest ∧ ¬ IndexNames env store.buildIndex digest

/-- The host lets what stands under the name go. -/
def Removable (env : Docker.Env) (entries : Dict Str Node) (name : Str) : Prop :=
  (∃ node, Dict.get entries name = some node ∧ node ≠ .dir) ∧ env.unlinks name = true

/-- An entry of the manifest cache that is not among the targets, or that will not go. -/
def Remains (env : Docker.Env) (targets : List Record) (entries : Dict Str Node) (name : Str) :
    Prop :=
  name ∈ CacheDir.entryNames (.names entries) ∧
    ¬ (name ∈ targets.map (·.name) ∧ Removable env entries name)

/-- A layer of the targets that no entry left over lists, as far as it can be read, and that is
there to be deleted. -/
def Unlisted (env : Docker.Env) (targets : List Record) (entries : Dict Str Node)
    (store : Store) (digest : Str) : Prop :=
  digest ∈ targets.flatMap (·.layers) ∧
    (∀ name, Remains env targets entries name → ¬ Lists env entries name digest) ∧
    ∃ blobs name, store.layers = .names blobs ∧ layerCacheName digest = some name ∧
      Removable env blobs name

/-- No entry left over is nested too deep for the reader: then the inventory is made. -/
def Inventoried (env : Docker.Env) (targets : List Record) (entries : Dict Str Node) : Prop :=
  ∀ name, Remains env targets entries name → ¬ TooDeep env entries name

/-- The condition: a layer that would go is not pinned and nobody's config, and there is one only
where every entry left over can be read. -/
def Unshared (env : Docker.Env) (targets : List Record) (store : Store) : Prop :=
  ∀ entries, store.manifests = .names entries → Inventoried env targets entries →
    ∀ digest, Unlisted env targets entries store digest →
      (∀ name, Remains env targets entries name → LegibleEntry env entries name ∧
        ∀ payload, EntryDoc env entries name payload → ¬ NamesConfig payload digest) ∧
      ¬ IndexNames env store.buildIndex digest

/-! ## Unlinking -/

/-- `entries'` is `entries` without those of the names that the host let go. -/
def Unlinks (env : Docker.Env) (names : List Str) (entries entries' : Dict Str Node) : Prop :=
  ∀ q, (q ∈ names ∧ Removable env entries q → Dict.get entries' q = none) ∧
    (¬ (q ∈ names ∧ Removable env entries q) → Dict.get entries' q = Dict.get entries q)

section Unlinking

variable {env : Docker.Env} {entries entries' entries'' : Dict Str Node} {name q : Str}
  {names names' keep : List Str}

/-- Whether a name may go is a matter of what stands there. -/
theorem removable_congr (h : Dict.get entries' q = Dict.get entries q) :
    Removable env entries' q ↔ Removable env entries q := by
  unfold Removable
  rw [h]

/-- Nothing may go where nothing stands. -/
theorem not_removable_of_get_none (h : Dict.get entries q = none) : ¬ Removable env entries q := by
  rintro ⟨⟨node, hnode, -⟩, -⟩
  rw [h] at hnode
  cases hnode

/-- Nothing unlinked. -/
theorem Unlinks.nil : Unlinks env [] entries entries := fun _ => ⟨by simp, fun _ => rfl⟩

/-- What was removable before is gone or as it was. -/
theorem Unlinks.removable (h : Unlinks env names entries entries')
    (hq : Removable env entries' q) : Removable env entries q ∧ q ∉ names := by
  by_cases hgone : q ∈ names ∧ Removable env entries q
  · exact absurd hq (not_removable_of_get_none ((h q).1 hgone))
  · have hbefore := (removable_congr ((h q).2 hgone)).mp hq
    exact ⟨hbefore, fun hmem => hgone ⟨hmem, hbefore⟩⟩

/-- Unlinks of two lists of names, one after the other. -/
theorem Unlinks.append (h : Unlinks env names entries entries')
    (h' : Unlinks env names' entries' entries'') :
    Unlinks env (names ++ names') entries entries'' := by
  intro q
  by_cases hfirst : q ∈ names ∧ Removable env entries q
  · have hnone := (h q).1 hfirst
    have hstays := (h' q).2 fun hq => not_removable_of_get_none hnone hq.2
    refine ⟨fun _ => by rw [hstays, hnone], fun hnot => ?_⟩
    exact absurd ⟨List.mem_append_left _ hfirst.1, hfirst.2⟩ hnot
  · have hsame := (h q).2 hfirst
    have hsecond : q ∈ names' ∧ Removable env entries' q ↔
        q ∈ names ++ names' ∧ Removable env entries q := by
      rw [removable_congr hsame, List.mem_append]
      constructor
      · rintro ⟨hmem, hq⟩
        exact ⟨.inr hmem, hq⟩
      · rintro ⟨hmem | hmem, hq⟩
        · exact absurd ⟨hmem, hq⟩ hfirst
        · exact ⟨hmem, hq⟩
    rw [← hsecond, ← hsame]
    exact h' q

/-- Unlinking takes what is removable, and fails on everything else. -/
theorem unlinkAt_spec :
    (Removable env entries name → unlinkAt env name entries = .ok (Dict.erase entries name)) ∧
      (¬ Removable env entries name → ∃ e, unlinkAt env name entries = .error e) := by
  unfold unlinkAt Removable
  rcases Dict.get entries name with _ | node
  · simp
  · cases hunlinks : env.unlinks name <;> cases node <;> simp

/-- A name is erased when it may go, or is not there. -/
theorem unlinks_erase : Unlinks env [name] entries (Dict.erase entries name) ↔
    (Removable env entries name ∨ Dict.get entries name = none) := by
  unfold Unlinks
  simp only [List.mem_singleton, Dict.get_erase]
  constructor
  · intro h
    by_contra hnot
    rw [not_or] at hnot
    have hname := (h name).2 fun hq => hnot.1 hq.2
    rw [if_pos rfl] at hname
    exact hnot.2 hname.symm
  · intro h q
    by_cases hq : q = name
    · subst hq
      refine ⟨fun _ => if_pos rfl, fun hnot => ?_⟩
      rw [if_pos rfl]
      rcases h with h | h
      · exact absurd ⟨rfl, h⟩ hnot
      · exact h.symm
    · simp [hq]

/-- The entries stay when it may not. -/
theorem unlinks_self (h : ¬ Removable env entries name) : Unlinks env [name] entries entries := by
  intro q
  refine ⟨?_, fun _ => rfl⟩
  rintro ⟨hmem, hq⟩
  rw [List.mem_singleton] at hmem
  exact absurd (hmem ▸ hq) h

/-- The removal of an entry unlinks its own name. -/
theorem removeEntry_unlinks (u : Unlinking) (record : Record) :
    Unlinks env [record.name] u.entries (removeEntry env u record).entries := by
  unfold removeEntry
  by_cases hname : Removable env u.entries record.name
  · rw [unlinkAt_spec.1 hname]
    exact unlinks_erase.mpr (.inl hname)
  · obtain ⟨e, he⟩ := unlinkAt_spec.2 hname
    rw [he]
    exact unlinks_self hname

/-- That of several unlinks theirs. -/
theorem foldl_removeEntry_unlinks (targets : List Record) (u : Unlinking) :
    Unlinks env (targets.map (·.name)) u.entries (targets.foldl (removeEntry env) u).entries := by
  induction targets generalizing u with
  | nil => exact .nil
  | cons record targets ih =>
    rw [List.foldl_cons, List.map_cons, ← List.singleton_append]
    exact (removeEntry_unlinks u record).append (ih _)

/-- The file of a digest that is to go. -/
def blobNames (keep : List Str) (digest : Str) : List Str :=
  if digest ∈ keep then [] else (layerCacheName digest).toList

/-- A digest that has been seen has been dealt with. -/
def Dealt (env : Docker.Env) (u : Unlinking × List Str) : Prop :=
  ∀ digest ∈ u.2, ∀ name, layerCacheName digest = some name → ¬ Removable env u.1.entries name

/-- A layer is dropped by unlinking its blobs, unless it is kept. -/
theorem dropLayer_unlinks {u : Unlinking × List Str} (hu : Dealt env u) (digest : Str) :
    Unlinks env (blobNames keep digest) u.1.entries (dropLayer env keep u digest).1.entries ∧
      (dropLayer env keep u digest).2 ⊆ digest :: u.2 := by
  unfold dropLayer blobNames
  by_cases hkeep : digest ∈ keep
  · simp only [hkeep, true_or, if_true]
    exact ⟨.nil, List.subset_cons_self _ _⟩
  · by_cases hseen : digest ∈ u.2
    · simp only [hseen, or_true, if_true, hkeep, if_false]
      refine ⟨?_, List.subset_cons_self _ _⟩
      rcases hname : layerCacheName digest with _ | name
      · exact .nil
      · exact unlinks_self (hu digest hseen name hname)
    · simp only [hkeep, hseen, or_self, if_false]
      rcases layerCacheName digest with _ | name
      · exact ⟨.nil, List.Subset.refl _⟩
      · by_cases hname : Removable env u.1.entries name
        · simp only [unlinkAt_spec.1 hname]
          exact ⟨unlinks_erase.mpr (.inl hname), List.Subset.refl _⟩
        · obtain ⟨e, he⟩ := unlinkAt_spec.2 hname
          simp only [he]
          cases e <;> exact ⟨unlinks_self hname, List.Subset.refl _⟩

/-- A layer that is kept is not touched. -/
theorem dropLayer_kept {u : Unlinking × List Str} {digest : Str} (h : digest ∈ keep) :
    dropLayer env keep u digest = u := by
  unfold dropLayer
  rw [if_pos (.inl h)]

/-- What is dealt with once stays dealt with. -/
theorem dropLayer_dealt {u : Unlinking × List Str} (hu : Dealt env u) (keep : List Str)
    (digest : Str) : Dealt env (dropLayer env keep u digest) := by
  by_cases hkeep : digest ∈ keep
  · rw [dropLayer_kept hkeep]
    exact hu
  · have hstep : Unlinks env (blobNames keep digest) u.1.entries
        (dropLayer env keep u digest).1.entries ∧
        (dropLayer env keep u digest).2 ⊆ digest :: u.2 := dropLayer_unlinks hu digest
    intro d hd name hname hremovable
    obtain ⟨hbefore, hnot⟩ := hstep.1.removable hremovable
    rcases List.mem_cons.mp (hstep.2 hd) with rfl | hmem
    · unfold blobNames at hnot
      rw [if_neg hkeep, hname] at hnot
      exact hnot (by simp)
    · exact hu d hmem name hname hbefore

/-- Several layers are dropped by unlinking the blobs of each. -/
theorem foldl_dropLayer_unlinks (digests : List Str) {u : Unlinking × List Str}
    (hu : Dealt env u) :
    Unlinks env (digests.flatMap (blobNames keep)) u.1.entries
      (digests.foldl (dropLayer env keep) u).1.entries := by
  induction digests generalizing u with
  | nil => exact .nil
  | cons digest digests ih =>
    rw [List.foldl_cons, List.flatMap_cons]
    exact (dropLayer_unlinks hu digest).1.append (ih (dropLayer_dealt hu keep digest))

end Unlinking

/-! ## What is left -/

section Left

variable {env : Docker.Env} {targets : List Record} {entries left : Dict Str Node} {store : Store}
  {name digest : Str}

/-- The manifest cache after the first loop. -/
def leftEntries (env : Docker.Env) (targets : List Record) (entries : Dict Str Node) :
    Dict Str Node :=
  (targets.foldl (removeEntry env) ⟨entries, false⟩).entries

/-- What the removal leaves is what unlinking the targets leaves. -/
theorem leftEntries_unlinks :
    Unlinks env (targets.map (·.name)) entries (leftEntries env targets entries) :=
  foldl_removeEntry_unlinks targets ⟨entries, false⟩

/-- The entries listed are those with the suffix. -/
theorem mem_entryNames : name ∈ CacheDir.entryNames (.names entries) ↔
    Dict.get entries name ≠ none ∧ jsonSuffix.isSuffixOf name = true := by
  unfold CacheDir.entryNames
  rw [List.mem_filter, ne_eq, Dict.get_eq_none, not_not]

/-- The entries that are left are those that remain. -/
theorem mem_entryNames_left :
    name ∈ CacheDir.entryNames (.names (leftEntries env targets entries)) ↔
      Remains env targets entries name := by
  unfold Remains
  rw [mem_entryNames, mem_entryNames]
  have hleft := @leftEntries_unlinks env targets entries name
  by_cases hgone : name ∈ targets.map (·.name) ∧ Removable env entries name
  · rw [hleft.1 hgone]
    simp [hgone]
  · rw [hleft.2 hgone, and_iff_left hgone]

/-- An entry that remains is the file it was. -/
theorem get_left (h : Remains env targets entries name) :
    Dict.get (leftEntries env targets entries) name = Dict.get entries name :=
  (leftEntries_unlinks name).2 h.2

/-- An entry that remains has the document it had. -/
theorem entryDoc_left (h : Remains env targets entries name) (payload : Json) :
    EntryDoc env (leftEntries env targets entries) name payload ↔
      EntryDoc env entries name payload := by
  unfold EntryDoc
  rw [get_left h]

theorem lists_left (h : Remains env targets entries name) :
    Lists env (leftEntries env targets entries) name digest ↔ Lists env entries name digest := by
  unfold Docker.Lists
  simp only [entryDoc_left h]

/-- The inventory of what is left is the old one less what went. -/
theorem inventory_left :
    ((∃ records, iterCachedImages env (.names (leftEntries env targets entries)) = .ok records) ↔
      Inventoried env targets entries) ∧
    ∀ records, iterCachedImages env (.names (leftEntries env targets entries)) = .ok records →
      (digest ∈ records.flatMap (·.layers) ↔
        ∃ name, Remains env targets entries name ∧ Lists env entries name digest) := by
  obtain ⟨hok, hlists⟩ := @iterCachedImages_spec env (leftEntries env targets entries) digest
  refine ⟨?_, fun records hrecords => ?_⟩
  · rw [hok]
    refine forall_congr' fun name => ?_
    rw [mem_entryNames_left]
    refine imp_congr_right fun hremains => ?_
    unfold TooDeep
    rw [get_left hremains]
  · rw [hlists records hrecords]
    refine exists_congr fun name => ?_
    rw [mem_entryNames_left]
    exact and_congr_right fun hremains => lists_left hremains

/-- A blob name that is to go is that of a layer that is not kept. -/
theorem mem_blobNames {digests keep : List Str} : name ∈ digests.flatMap (blobNames keep) ↔
    ∃ digest ∈ digests, digest ∉ keep ∧ layerCacheName digest = some name := by
  rw [List.mem_flatMap]
  refine exists_congr fun digest => and_congr_right fun _ => ?_
  unfold blobNames
  by_cases hkeep : digest ∈ keep <;> simp [hkeep]

/-- **What a removal does** to the two caches. -/
theorem deleteImages_spec (hmanifests : store.manifests = .names entries) {blobs : Dict Str Node}
    (hlayers : store.layers = .names blobs) :
    let after := (deleteImages env targets store).1
    after.manifests = .names (leftEntries env targets entries) ∧
      (∀ name node, Dict.get blobs name = some node → (after.layers.node name = none ↔
        Inventoried env targets entries ∧
          ∃ digest, Unlisted env targets entries store digest ∧
            layerCacheName digest = some name)) := by
  have hrun : (deleteImages env targets store).1 = (unlinkTargets env targets entries store).1 := by
    unfold deleteImages
    rw [hmanifests, hlayers]
  intro after
  have hafter : after = (unlinkTargets env targets entries store).1 := hrun
  have hinventory := @inventory_left env targets entries
  unfold unlinkTargets at hafter
  rcases hrecords : iterCachedImages env (.names (leftEntries env targets entries)) with e | records
  · -- the inventory ends in an exception: no layer is touched
    have hstuck : ¬ Inventoried env targets entries := by
      rw [← (@hinventory []).1, hrecords]
      rintro ⟨_, h⟩
      cases h
    have hsame : after = { store with manifests := .names (leftEntries env targets entries) } := by
      rw [hafter]
      change (match iterCachedImages env (.names (leftEntries env targets entries)) with
        | .error e => _ | .ok records => _ : Store × Except Exit Unit).1 = _
      rw [hrecords]
      rfl
    rw [hsame]
    refine ⟨rfl, fun name node hnode => ?_⟩
    simp [hlayers, CacheDir.node, hnode, hstuck]
  -- the inventory is made: what it does not list of the targets' layers is unlinked
  · have hmade : Inventoried env targets entries :=
      (@hinventory []).1.mp ⟨records, hrecords⟩
    have hdropped : ∃ failed, after = { store with
        manifests := .names (leftEntries env targets entries)
        layers := .names ((targets.flatMap (·.layers)).foldl
          (dropLayer env (records.flatMap (·.layers))) (⟨blobs, failed⟩, [])).1.entries } := by
      refine ⟨(targets.foldl (removeEntry env) ⟨entries, false⟩).failed, ?_⟩
      rw [hafter]
      change (match iterCachedImages env (.names (leftEntries env targets entries)) with
        | .error e => _ | .ok records => _ : Store × Except Exit Unit).1 = _
      rw [hrecords]
      simp only [hlayers]
      rfl
    obtain ⟨failed, hdropped⟩ := hdropped
    have hunlinks : Unlinks env ((targets.flatMap (·.layers)).flatMap
        (blobNames (records.flatMap (·.layers)))) blobs ((targets.flatMap (·.layers)).foldl
          (dropLayer env (records.flatMap (·.layers))) (⟨blobs, failed⟩, [])).1.entries :=
      foldl_dropLayer_unlinks _ (u := (⟨blobs, failed⟩, [])) (by intro d hd; cases hd)
    rw [hdropped]
    refine ⟨rfl, fun name node hnode => ?_⟩
    have hgone := hunlinks name
    rw [mem_blobNames] at hgone
    simp only [CacheDir.node]
    constructor
    -- a blob that is gone was one of those
    · intro hnone
      by_contra hnot
      rw [hgone.2, hnode] at hnone
      · cases hnone
      · rintro ⟨⟨digest, hmem, hkeep, hname⟩, hremovable⟩
        refine hnot ⟨hmade, digest, ⟨hmem, fun n hn hl => hkeep ?_, blobs, name, hlayers, hname,
          hremovable⟩, hname⟩
        exact (hinventory.2 records hrecords).mpr ⟨n, hn, hl⟩
    -- and one of those is gone
    · rintro ⟨-, digest, ⟨hmem, hunlisted, blobs', name', hblobs, hname', hremovable⟩, hname⟩
      rw [hlayers] at hblobs
      cases hblobs
      rw [hname] at hname'
      cases hname'
      refine hgone.1 ⟨⟨digest, hmem, fun hkeep => ?_, hname⟩, hremovable⟩
      obtain ⟨n, hn, hl⟩ := (hinventory.2 records hrecords).mp hkeep
      exact hunlisted n hn hl

/-- What is left can be read when every entry that remains can. -/
theorem allLegible_left :
    (CacheDir.names (leftEntries env targets entries)).AllLegible env ↔
      ∀ name, Remains env targets entries name → LegibleEntry env entries name := by
  have hentry : ∀ name, Remains env targets entries name →
      (LegibleEntry env (leftEntries env targets entries) name ↔
        LegibleEntry env entries name) := by
    intro name hremains
    unfold LegibleEntry
    simp only [entryDoc_left hremains]
  unfold CacheDir.AllLegible
  constructor
  · rintro ⟨-, hall⟩ name hremains
    exact (hentry name hremains).mp (hall _ rfl name (mem_entryNames_left.mpr hremains))
  · intro hall
    refine ⟨by simp, fun entries' heq name hname => ?_⟩
    cases heq
    have hremains := mem_entryNames_left.mp hname
    exact (hentry name hremains).mpr (hall name hremains)

/-- A layer is named by what is left when an entry that remains names it. -/
theorem names_left : (CacheDir.names (leftEntries env targets entries)).Names env digest ↔
    ∃ name, Remains env targets entries name ∧ EntryNames env entries name digest := by
  unfold CacheDir.Names EntryNames
  constructor
  · rintro ⟨entries', heq, name, hname, payload, hdoc, hnames⟩
    cases heq
    have hremains := mem_entryNames_left.mp hname
    exact ⟨name, hremains, payload, (entryDoc_left hremains payload).mp hdoc, hnames⟩
  · rintro ⟨name, hremains, payload, hdoc, hnames⟩
    exact ⟨_, rfl, name, mem_entryNames_left.mpr hremains, payload,
      (entryDoc_left hremains payload).mpr hdoc, hnames⟩

/-- Without entries to unlink from nothing is deleted. -/
theorem deleteImages_stops (h : ∀ entries, store.manifests ≠ .names entries) :
    (deleteImages env targets store).1 = store := by
  unfold deleteImages
  rcases hmanifests : store.manifests with _ | _ | entries
  · rfl
  · rfl
  · exact absurd hmanifests (h entries)

end Left

/-- **A removal keeps the blobs that are shared exactly when** each layer it takes for garbage is
no config of an entry left over and not pinned by the build index, and when it takes none where an
entry left over cannot be read (or that entry is nested so deep that the inventory fails). -/
theorem remove_image_keeps_shared_iff (env : Docker.Env) (targets : List Record) (store : Store) :
    KeepsShared env targets store ↔ Unshared env targets store := by
  rcases hlayers : store.layers with _ | _ | blobs
  · -- no blob is there to be deleted
    refine iff_of_true (fun name node hnode => ?_) fun entries _ _ digest hunlisted => ?_
    · rw [hlayers] at hnode
      cases hnode
    · obtain ⟨-, -, blobs, name, hblobs, -⟩ := hunlisted
      rw [hlayers] at hblobs
      cases hblobs
  · refine iff_of_true (fun name node hnode => ?_) fun entries _ _ digest hunlisted => ?_
    · rw [hlayers] at hnode
      cases hnode
    · obtain ⟨-, -, blobs, name, hblobs, -⟩ := hunlisted
      rw [hlayers] at hblobs
      cases hblobs
  -- the layer cache is listed
  · by_cases hmanifests : ∃ entries, store.manifests = .names entries
    · obtain ⟨entries, hmanifests⟩ := hmanifests
      obtain ⟨hleft, hgone⟩ := @deleteImages_spec env targets entries store hmanifests blobs hlayers
      unfold KeepsShared
      simp only [hleft, allLegible_left, names_left]
      constructor
      -- an unlisted blob that is deleted is neither named by an entry left over nor pinned
      · intro hkeeps entries' hentries hmade digest hunlisted
        rw [hmanifests] at hentries
        cases hentries
        have hfile := hunlisted.2.2
        obtain ⟨blobs', name, hblobs, hname, ⟨node, hnode, -⟩, -⟩ := hfile
        rw [hlayers] at hblobs
        cases hblobs
        have hdeleted := (hgone name node hnode).mpr ⟨hmade, digest, hunlisted, hname⟩
        obtain ⟨hlegible, hfree⟩ := hkeeps name node (by rw [hlayers]; exact hnode) hdeleted
        obtain ⟨hunnamed, hunpinned⟩ := hfree digest hname
        refine ⟨fun n hremains => ⟨hlegible n hremains, fun payload hdoc hconfig => ?_⟩, hunpinned⟩
        exact hunnamed ⟨n, hremains, payload, hdoc, .inr hconfig⟩
      -- what is deleted was unlisted, so no entry left over has it for a layer
      · intro hunshared name node hnode hdeleted
        rw [hlayers] at hnode
        obtain ⟨hmade, digest, hunlisted, hname⟩ := (hgone name node hnode).mp hdeleted
        obtain ⟨hentries, hunpinned⟩ := hunshared entries hmanifests hmade digest hunlisted
        refine ⟨fun n hremains => (hentries n hremains).1, fun digest' hname' => ?_⟩
        have hdigest : digest' = digest := layerCacheName_injective hname' hname
        subst hdigest
        refine ⟨?_, hunpinned⟩
        rintro ⟨n, hremains, payload, hdoc, hlayer | hconfig⟩
        · obtain ⟨payload', hdoc', hlegible⟩ := (hentries n hremains).1
          have hsame : payload' = payload := by
            obtain ⟨raw, hraw, hload⟩ := hdoc
            obtain ⟨raw', hraw', hload'⟩ := hdoc'
            rw [hraw] at hraw'
            cases hraw'
            rw [hload] at hload'
            exact (Except.ok.inj hload').symm
          subst hsame
          exact hunlisted.2.1 n hremains ⟨payload', hdoc, hlegible, hlayer⟩
        · exact (hentries n hremains).2 payload hdoc hconfig
    -- without a listing of the entries nothing is deleted
    · have hstops : (deleteImages env targets store).1 = store :=
        deleteImages_stops fun entries hentries => hmanifests ⟨entries, hentries⟩
      refine iff_of_true (fun name node hnode hdeleted => ?_) fun entries hentries => ?_
      · rw [hstops, hnode] at hdeleted
        cases hdeleted
      · exact absurd ⟨entries, hentries⟩ hmanifests

/-- An image of one layer, the index entry of the step that built it, and an image whose entry
names a config that is a number. -/
def builtDocs : Dict Bytes Json :=
  let layers := Json.arr [.obj [("digest".toList, .str "sha256:aa".toList)]]
  [([1], .obj [("manifest".toList, .obj [("layers".toList, layers)])]),
    ([2], .obj [("entries".toList, .obj [("key".toList, .obj [
      ("layer_digest".toList, .str "sha256:aa".toList)])])]),
    ([3], .obj [("manifest".toList, .obj [("layers".toList, layers), ("config".toList, .int 5)])])]

/-- The image is built here: the index pins its layer. -/
def pinnedStore : Store where
  layers := .names [("sha256_aa".toList, .file (some []))]
  manifests := .names [("image.json".toList, .file (some [1]))]
  buildIndex := .names [(indexName, .file (some [2]))]

/-- Another entry lists the same layer and cannot be understood. -/
def unreadableStore : Store where
  layers := .names [("sha256_aa".toList, .file (some []))]
  manifests := .names [("image.json".toList, .file (some [1])), ("other.json".toList, .file (some [3]))]
  buildIndex := .missing

/-- Removing the image deletes the layer that the index pins, and the layer that an unreadable entry
lists. -/
theorem remove_image_deletes_shared :
    ¬ KeepsShared (.ofDocs builtDocs) [⟨"image.json".toList, ["sha256:aa".toList]⟩] pinnedStore ∧
      ¬ KeepsShared (.ofDocs builtDocs) [⟨"image.json".toList, ["sha256:aa".toList]⟩]
        unreadableStore := by
  have hname : layerCacheName "sha256:aa".toList = some "sha256_aa".toList := by decide
  constructor
  · intro hkeeps
    have hgone := (hkeeps "sha256_aa".toList (.file (some [])) (by decide) (by decide +kernel)).2
      "sha256:aa".toList hname
    refine hgone.2 ⟨_, _, _, ⟨_, [2], rfl, rfl, rfl⟩, rfl, List.mem_singleton.mpr rfl, rfl⟩
  · intro hkeeps
    have hlegible := (hkeeps "sha256_aa".toList (.file (some [])) (by decide)
      (by decide +kernel)).1
    have hleft : (deleteImages (.ofDocs builtDocs)
        [⟨"image.json".toList, ["sha256:aa".toList]⟩] unreadableStore).1.manifests =
        .names [("other.json".toList, .file (some [3]))] := rfl
    rw [hleft] at hlegible
    obtain ⟨payload, ⟨raw, hraw, hload⟩, hpayload⟩ :=
      hlegible.2 _ rfl "other.json".toList (by decide)
    cases hraw
    cases hload
    obtain ⟨fields, hfields, -, hconfig⟩ := hpayload
    cases hfields
    obtain hnone | ⟨fields, hobj, -⟩ := hconfig
    · cases hnone
    · cases hobj

end RemoveImage

end ProotDistro
