import ProotDistro.Docker.Cache

/-!
# `docker/cache`: the image inventory

What `list --image` and `remove --image` work from: one record for each entry of the manifest
cache that can be read. An entry that cannot be read is no record, which is right for a list.
Of a record only the name of its entry and the digests of its layers are kept here; the
reference, the sizes and the order of the list are for the eye.

* **`iterCachedImages_spec`** — the layers of the records are those the legible entries name.
-/

namespace ProotDistro

open Posix

namespace Docker

structure Record where
  name : Str
  layers : List Str

/-- `_read_record` -/
def readRecord (env : Env) (entries : Dict Str Node) (name : Str) : Except Exit (Option Record) := do
  let loaded ← loadEntry env entries name
  .ok ((loaded.bind entryManifest).map fun x => ⟨name, x.1.map (·.1)⟩)

def addRecord (env : Env) (entries : Dict Str Node) (records : List Record) (name : Str) :
    Except Exit (List Record) := do
  if !jsonSuffix.isSuffixOf name then .ok records
  else
    let record ← readRecord env entries name
    .ok (records ++ record.toList)

/-- `iter_cached_images` -/
def iterCachedImages (env : Env) : CacheDir → Except Exit (List Record)
  | .missing | .refused => .ok []
  | .names entries => (Dict.keys entries).foldlM (addRecord env entries) []

/-- The file `name` is nested too deep for the reader. -/
def TooDeep (env : Env) (entries : Dict Str Node) (name : Str) : Prop :=
  ∃ raw, (Dict.get entries name).bind readState = some raw ∧ env.loads raw = .error .recursion

/-- A legible entry lists the digest as a layer. -/
def Lists (env : Env) (entries : Dict Str Node) (name digest : Str) : Prop :=
  ∃ payload, EntryDoc env entries name payload ∧ Legible payload ∧ NamesLayer payload digest

section Records

variable {env : Env} {entries : Dict Str Node} {name d : Str}

/-- An entry loads unless it is nested too deep. -/
theorem loadEntry_isOk_iff :
    (∃ loaded, loadEntry env entries name = .ok loaded) ↔ ¬ TooDeep env entries name := by
  unfold loadEntry TooDeep
  rcases (Dict.get entries name).bind readState with _ | raw
  · simp
  · rcases hload : env.loads raw with e | payload
    · cases e <;> simp [hload]
    · simp [hload]

/-- It loads to the object it holds. -/
theorem loadEntry_eq_some {payload : Dict Str Json} :
    loadEntry env entries name = .ok (some payload) ↔ EntryDoc env entries name (.obj payload) := by
  unfold loadEntry EntryDoc
  rcases (Dict.get entries name).bind readState with _ | raw
  · simp
  · rcases hload : env.loads raw with e | j
    · cases e <;> simp [hload]
    · cases j <;> simp [hload, Json.asObj?]

/-- A record has the layers its entry lists. -/
theorem readRecord_spec {x : Option Record} (h : readRecord env entries name = .ok x) :
    (∃ r, x = some r ∧ d ∈ r.layers) ↔ Lists env entries name d := by
  obtain ⟨loaded, hloaded, h⟩ := Result.bind_ok h
  cases h
  unfold Lists
  constructor
  · rintro ⟨r, hr, hd⟩
    obtain ⟨⟨layers, digest⟩, hentry, rfl⟩ := Option.map_eq_some_iff.mp hr
    obtain ⟨payload, rfl, hread⟩ := Option.bind_eq_some_iff.mp hentry
    exact ⟨.obj payload, loadEntry_eq_some.mp hloaded,
      entryManifest_isSome.mp (Option.isSome_iff_exists.mpr ⟨_, hread⟩),
      (entryManifest_names hread).1.mp hd⟩
  · rintro ⟨payload, hdoc, hlegible, hnames⟩
    obtain ⟨fields, rfl⟩ := legible_isObj hlegible
    obtain ⟨⟨layers, digest⟩, hread⟩ :=
      Option.isSome_iff_exists.mp (entryManifest_isSome.mpr hlegible)
    rw [loadEntry_eq_some.mpr hdoc] at hloaded
    cases hloaded
    refine ⟨⟨name, layers.map (·.1)⟩, ?_, (entryManifest_names hread).1.mpr hnames⟩
    rw [Option.bind_some, hread]
    rfl

/-- One entry adds the layers it lists. -/
theorem addRecord_layers {records records' : List Record}
    (h : addRecord env entries records name = .ok records') :
    d ∈ records'.flatMap (·.layers) ↔ d ∈ records.flatMap (·.layers) ∨
      jsonSuffix.isSuffixOf name = true ∧ Lists env entries name d := by
  unfold addRecord at h
  by_cases hsuffix : jsonSuffix.isSuffixOf name = true
  · rw [hsuffix] at h
    obtain ⟨record, hrecord, h⟩ := Result.bind_ok h
    cases h
    rw [← readRecord_spec hrecord, List.flatMap_append, List.mem_append]
    cases record <;> simp [hsuffix]
  · rw [Bool.not_eq_true] at hsuffix
    rw [hsuffix] at h
    cases h
    simp [hsuffix]

/-- Several add those that each lists. -/
theorem foldlM_addRecord_layers {names : List Str} {records records' : List Record}
    (h : names.foldlM (addRecord env entries) records = .ok records') :
    d ∈ records'.flatMap (·.layers) ↔ d ∈ records.flatMap (·.layers) ∨
      ∃ name ∈ names, jsonSuffix.isSuffixOf name = true ∧ Lists env entries name d := by
  induction names generalizing records with
  | nil =>
    cases h
    simp
  | cons name names ih =>
    rw [List.foldlM_cons] at h
    obtain ⟨records₁, hfirst, h⟩ := Result.bind_ok h
    rw [ih h, addRecord_layers hfirst]
    simp only [List.exists_mem_cons_iff, or_assoc]

/-- The loop comes to its end unless an entry is nested too deep. -/
theorem foldlM_addRecord_isOk {names : List Str} {records : List Record} :
    (∃ records', names.foldlM (addRecord env entries) records = .ok records') ↔
      ∀ name ∈ names, jsonSuffix.isSuffixOf name = true → ¬ TooDeep env entries name := by
  induction names generalizing records with
  | nil => simp [pure, Except.pure]
  | cons name names ih =>
    rw [List.foldlM_cons, List.forall_mem_cons]
    have hstep : (∃ records', addRecord env entries records name = .ok records') ↔
        (jsonSuffix.isSuffixOf name = true → ¬ TooDeep env entries name) := by
      rw [← loadEntry_isOk_iff]
      unfold addRecord readRecord
      cases jsonSuffix.isSuffixOf name with
      | false => simp
      | true => cases loadEntry env entries name <;> simp [bind, Except.bind]
    rw [← hstep]
    rcases addRecord env entries records name with e | records₁
    · simp [bind, Except.bind]
    · have hok : ∃ records', (Except.ok records₁ : Except Exit (List Record)) = .ok records' :=
        ⟨_, rfl⟩
      rw [and_iff_right hok, ← @ih records₁]
      rfl

/-- **What the inventory lists**: the layers of the legible entries. It ends in an exception where
an entry is nested too deep. -/
theorem iterCachedImages_spec :
    ((∃ records, iterCachedImages env (.names entries) = .ok records) ↔
      ∀ name ∈ CacheDir.entryNames (.names entries), ¬ TooDeep env entries name) ∧
    ∀ records, iterCachedImages env (.names entries) = .ok records →
      (d ∈ records.flatMap (·.layers) ↔
        ∃ name ∈ CacheDir.entryNames (.names entries), Lists env entries name d) := by
  constructor
  · change (∃ records, (Dict.keys entries).foldlM (addRecord env entries) [] = .ok records) ↔ _
    rw [foldlM_addRecord_isOk]
    simp [CacheDir.entryNames]
  · intro records h
    rw [foldlM_addRecord_layers h]
    simp [CacheDir.entryNames, and_assoc]

end Records

end Docker

end ProotDistro
