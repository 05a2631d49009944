import ProotDistro.Docker.Cache

/-!
# `build_cache`: the layers the index pins

The build index is one JSON file. A step it records is replayed from its layer, so whoever
prunes the layer cache has to count the layers the index names; an index that is there and cannot
be understood is not an index that names nothing.
-/

namespace ProotDistro

open Posix Docker

namespace BuildCache

def indexName : Str := "build_cache_index.json".toList

/-- The value of `layer_digest`; one that is no string but can be put in a set is no digest, and
one that cannot is a TypeError. -/
def readLayerDigest : Option Json → Except Exit (List Str)
  | none => .ok []
  | some digest =>
    if !digest.truthy then .ok []
    else
      match digest with
      | .str s => .ok [s]
      | .arr _ | .obj _ => .error .raised
      | .null | .bool _ | .int _ | .float _ => .ok []

/-- The layer an entry of the index pins. -/
def entryLayer (entry : Json) : Except Exit (List Str) :=
  readLayerDigest (entry.field "layer_digest".toList)

def addLayer (digests : List Str) (entry : Str × Json) : Except Exit (List Str) := do
  let layer ← entryLayer entry.2
  .ok (digests ++ layer)

/-- The digests of a parsed index, and that it could be read. -/
def indexDigests (data : Json) : Except Exit (List Str × Bool) :=
  match (data.field "entries".toList).bind Json.asObj? with
  | none => .ok ([], false)
  | some entries => do
    let digests ← entries.foldlM addLayer []
    .ok (digests, true)

/-- `recorded_layer_digests`, of the directory the index is in. -/
def recordedLayerDigests (env : Docker.Env) : CacheDir → Except Exit (List Str × Bool)
  | .missing => .ok ([], true)
  | .refused => .ok ([], false)
  | .names files =>
    match Dict.get files indexName with
    | none => .ok ([], true)
    | some node =>
      match readState node with
      | none => .ok ([], false)
      | some raw =>
        match env.loads raw with
        | .error .value => .ok ([], false)
        | .error .recursion => .error .raised
        | .ok data => indexDigests data

/-- `discard_index`; the error is its OSError. -/
def discardIndex (env : Docker.Env) : CacheDir → Except Exit CacheDir
  | .missing => .ok .missing
  | .refused => .error .message
  | .names files =>
    match Dict.get files indexName with
    | none => .ok (.names files)
    | some .dir => .error .message
    | some (.file _) | some .special =>
      if env.unlinks indexName then .ok (.names (Dict.erase files indexName))
      else .error .message

/-! ## What the index names -/

/-- The index holds the document `data`. -/
def IndexDoc (env : Docker.Env) (dir : CacheDir) (data : Json) : Prop :=
  ∃ files raw, dir = .names files ∧ (Dict.get files indexName).bind readState = some raw ∧
    env.loads raw = .ok data

/-- A recorded step names the digest as its layer. -/
def IndexNames (env : Docker.Env) (dir : CacheDir) (digest : Str) : Prop :=
  ∃ data entries entry, IndexDoc env dir data ∧
    data.field "entries".toList = some (.obj entries) ∧ entry ∈ entries ∧
    entry.2.field "layer_digest".toList = some (.str digest)

/-- There is no index, or one whose entries can all be understood. -/
def LegibleIndex (env : Docker.Env) (dir : CacheDir) : Prop :=
  dir = .missing ∨ (∃ files, dir = .names files ∧ Dict.get files indexName = none) ∨
    ∃ data entries, IndexDoc env dir data ∧ data.field "entries".toList = some (.obj entries) ∧
      ∀ entry ∈ entries, ∀ v, entry.2.field "layer_digest".toList = some v → v.truthy = true →
        v.asArr? = none ∧ v.asObj? = none

section Index

variable {env : Docker.Env} {dir : CacheDir} {d : Str}

/-- A value of `layer_digest` is a digest if it is that string. -/
theorem mem_readLayerDigest {v : Option Json} {layer : List Str}
    (h : readLayerDigest v = .ok layer) (hd : d ≠ []) : d ∈ layer ↔ v = some (.str d) := by
  unfold readLayerDigest at h
  split at h
  · cases h
    simp
  · rename_i v
    by_cases htruthy : v.truthy = true
    · rw [htruthy] at h
      cases v with
      | str s =>
        cases h
        simp [eq_comm]
      | arr items => cases h
      | obj fields => cases h
      | _ =>
        cases h
        simp
    · rw [Bool.not_eq_true] at htruthy
      rw [htruthy] at h
      cases h
      simp only [List.not_mem_nil, Option.some.injEq, false_iff]
      rintro rfl
      exact Bool.false_ne_true (htruthy.symm.trans (decide_eq_true hd))

/-- A digest is read unless it is a container. -/
theorem readLayerDigest_isOk {v : Option Json} :
    (∃ layer, readLayerDigest v = .ok layer) ↔
      ∀ j, v = some j → j.truthy = true → j.asArr? = none ∧ j.asObj? = none := by
  unfold readLayerDigest
  rcases v with _ | j
  · simp
  · by_cases htruthy : j.truthy = true
    · simp only [htruthy, Bool.not_true, Bool.false_eq_true, if_false, Option.some.injEq,
        forall_eq', forall_const]
      cases j <;> simp [Json.asArr?, Json.asObj?]
    · simp [htruthy]

/-- The loop over the entries of the index. -/
theorem foldlM_addLayer {entries : Dict Str Json} {digests digests' : List Str}
    (h : entries.foldlM addLayer digests = .ok digests') :
    (∀ entry ∈ entries, ∃ layer, entryLayer entry.2 = .ok layer) ∧
      ∀ d, d ≠ [] → (d ∈ digests' ↔ d ∈ digests ∨
        ∃ entry ∈ entries, entry.2.field "layer_digest".toList = some (.str d)) := by
  induction entries generalizing digests with
  | nil =>
    cases h
    simp
  | cons entry entries ih =>
    rw [List.foldlM_cons] at h
    obtain ⟨digests₁, hfirst, h⟩ := Result.bind_ok h
    obtain ⟨layer, hlayer, hfirst⟩ := Result.bind_ok hfirst
    cases hfirst
    obtain ⟨hall, hmem⟩ := ih h
    refine ⟨List.forall_mem_cons.mpr ⟨⟨layer, hlayer⟩, hall⟩, fun d hd => ?_⟩
    rw [hmem d hd, List.mem_append, mem_readLayerDigest hlayer hd]
    simp only [List.exists_mem_cons_iff, or_assoc]

/-- The digests of an index that can be read. -/
theorem indexDigests_spec {data : Json} {digests : List Str} {readable : Bool}
    (h : indexDigests data = .ok (digests, readable)) :
    (readable = true ↔ ∃ entries, data.field "entries".toList = some (.obj entries) ∧
      ∀ entry ∈ entries, ∀ v, entry.2.field "layer_digest".toList = some v → v.truthy = true →
        v.asArr? = none ∧ v.asObj? = none) ∧
      (readable = true → ∀ d, d ≠ [] → (d ∈ digests ↔
        ∃ entries entry, data.field "entries".toList = some (.obj entries) ∧ entry ∈ entries ∧
          entry.2.field "layer_digest".toList = some (.str d))) := by
  unfold indexDigests at h
  rcases hentries : data.field "entries".toList with _ | v
  · rw [hentries] at h
    cases h
    simp
  · rw [hentries] at h
    cases v with
    | obj entries =>
      obtain ⟨digests', hloop, h⟩ := Result.bind_ok h
      cases h
      obtain ⟨hall, hmem⟩ := foldlM_addLayer hloop
      refine ⟨⟨fun _ => ⟨entries, rfl, fun entry hentry => ?_⟩, fun _ => rfl⟩, fun _ d hd => ?_⟩
      · exact readLayerDigest_isOk.mp (hall entry hentry)
      · rw [hmem d hd]
        simp
    | _ =>
      cases h
      simp

/-- **What the sweep knows of the build index**: whether it can be understood, and then exactly
the digests it pins. -/
theorem recordedLayerDigests_spec {digests : List Str} {readable : Bool}
    (h : recordedLayerDigests env dir = .ok (digests, readable)) :
    (readable = true ↔ LegibleIndex env dir) ∧
      (readable = true → ∀ d, d ≠ [] → (d ∈ digests ↔ IndexNames env dir d)) := by
  unfold LegibleIndex IndexNames
  cases dir with
  | missing =>
    cases h
    simp [IndexDoc]
  | refused =>
    cases h
    simp [IndexDoc]
  | names files =>
    simp only [recordedLayerDigests] at h
    rcases hnode : Dict.get files indexName with _ | node
    · rw [hnode] at h
      cases h
      simp [IndexDoc, hnode]
    · rw [hnode] at h
      simp only at h
      rcases hraw : readState node with _ | raw
      · rw [hraw] at h
        cases h
        simp [IndexDoc, hnode, hraw]
      · rw [hraw] at h
        simp only at h
        rcases hload : env.loads raw with e | data
        · rw [hload] at h
          cases e <;> cases h
          simp [IndexDoc, hnode, hraw, hload]
        · rw [hload] at h
          -- the document is there: what is left is about it alone
          have hdoc : ∀ j, IndexDoc env (.names files) j ↔ j = data := by
            intro j
            constructor
            · rintro ⟨files', raw', hfiles, hraw', hload'⟩
              cases hfiles
              rw [hnode, Option.bind_some, hraw] at hraw'
              cases hraw'
              rw [hload] at hload'
              exact (Except.ok.inj hload').symm
            · rintro rfl
              exact ⟨files, raw, rfl, by rw [hnode, Option.bind_some, hraw], hload⟩
          obtain ⟨hlegible, hnames⟩ := indexDigests_spec h
          simp only [reduceCtorEq, CacheDir.names.injEq, exists_eq_left', hnode, false_or,
            exists_and_left, hdoc, exists_eq_left]
          simp only [exists_and_left] at hnames
          exact ⟨hlegible, hnames⟩

/-- They are collected when each can be. -/
theorem foldlM_addLayer_isOk {entries : Dict Str Json} (digests : List Str)
    (h : ∀ entry ∈ entries, ∃ layer, entryLayer entry.2 = .ok layer) :
    ∃ digests', entries.foldlM addLayer digests = .ok digests' := by
  induction entries generalizing digests with
  | nil => exact ⟨digests, rfl⟩
  | cons entry entries ih =>
    obtain ⟨⟨layer, hlayer⟩, hrest⟩ := List.forall_mem_cons.mp h
    obtain ⟨digests', hdigests'⟩ := ih (digests ++ layer) hrest
    refine ⟨digests', ?_⟩
    have hstep : addLayer digests entry = .ok (digests ++ layer) := by
      unfold addLayer
      rw [hlayer]
      rfl
    rw [List.foldlM_cons, hstep]
    exact hdigests'

/-- A legible index is read. -/
theorem recordedLayerDigests_isOk (h : LegibleIndex env dir) :
    ∃ x, recordedLayerDigests env dir = .ok x := by
  rcases h with rfl | ⟨files, rfl, hnone⟩ | ⟨data, entries, hdoc, hentries, hall⟩
  · exact ⟨_, rfl⟩
  · refine ⟨([], true), ?_⟩
    simp only [recordedLayerDigests, hnone]
  · obtain ⟨files, raw, rfl, hraw, hload⟩ := hdoc
    obtain ⟨node, hnode, hread⟩ := Option.bind_eq_some_iff.mp hraw
    obtain ⟨digests, hdigests⟩ := foldlM_addLayer_isOk [] fun entry hentry =>
      readLayerDigest_isOk.mpr (hall entry hentry)
    refine ⟨(digests, true), ?_⟩
    simp only [recordedLayerDigests, hnode, hread, hload, indexDigests, hentries,
      Option.bind_some, Json.asObj?]
    rw [hdigests]
    rfl

end Index

end BuildCache

end ProotDistro
