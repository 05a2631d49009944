import ProotDistro.Lib.JsonText

/-!
# What a canonical text is read back as

The keys of a value's canonical text are in order, so what is read of it may have them in another order
than the value, and its surrogates are paired.

* **`loads_canonical`** — what is read, `reload`.
* **`alike_reload_iff`** — it is the value but for the order of keys if and only if no string of the value has
  a high surrogate directly before a low one.
-/

namespace JsonText

variable {F : Type}

/-- The same value but for the order of the keys of its objects. -/
def Alike (v w : Value F) : Prop := sortKeys v = sortKeys w

/-- What `json.loads` makes of the canonical text of a value. -/
def reload (v : Value F) : Value F := reread (sortKeys v)

/-- No string of the value, and no key, has a high surrogate directly before a low one. -/
def Paired (v : Value F) : Prop := rereadWith id v = v

mutual

/-- Whether the keys of every object are distinct, as those of a dictionary are. -/
def distinctKeys : Value F → Bool
  | .arr items => distinctItems items
  | .obj fields => decide (Dict.keys fields).Nodup && distinctFields fields
  | _ => true

def distinctItems : List (Value F) → Bool
  | [] => true
  | v :: items => distinctKeys v && distinctItems items

def distinctFields : List (CodePoints × Value F) → Bool
  | [] => true
  | (_, v) :: fields => distinctKeys v && distinctFields fields

end

section Alike

variable {f : FloatFormat F} {items : List (Value F)} {fields : List (CodePoints × Value F)} {v : Value F}

/-- The items of an array have distinct keys when each does. -/
theorem distinctItems_iff : distinctItems items = true ↔ ∀ v ∈ items, distinctKeys v = true := by
  induction items with
  | nil => exact ⟨fun _ v hv => (List.not_mem_nil hv).elim, fun _ => rfl⟩
  | cons v items ih => rw [distinctItems, Bool.and_eq_true, ih, List.forall_mem_cons]

theorem distinctFields_iff : distinctFields fields = true ↔ ∀ x ∈ fields, distinctKeys x.2 = true := by
  induction fields with
  | nil => exact ⟨fun _ x hx => (List.not_mem_nil hx).elim, fun _ => rfl⟩
  | cons x fields ih => rw [distinctFields, Bool.and_eq_true, ih, List.forall_mem_cons]

/-- An object's own keys are to be distinct as well. -/
theorem distinctKeys_obj :
    distinctKeys (.obj fields) = true ↔ (Dict.keys fields).Nodup ∧ ∀ x ∈ fields, distinctKeys x.2 = true := by
  rw [distinctKeys, Bool.and_eq_true, decide_eq_true_eq, distinctFields_iff]

/-- An array has none of its own. -/
theorem distinctKeys_arr : distinctKeys (.arr items) = true ↔ ∀ v ∈ items, distinctKeys v = true := by
  rw [distinctKeys, distinctItems_iff]

/-! ## Paired values -/

/-- An array is paired when each item is. -/
theorem paired_arr : Paired (.arr items) ↔ ∀ v ∈ items, Paired v := by
  unfold Paired
  rw [rereadWith, rereadItems_eq_map, Value.arr.injEq]
  constructor
  · intro h
    have hid : items.map (rereadWith id) = items.map id := by rw [h, List.map_id]
    exact List.map_inj_left.mp hid
  · intro h
    rw [List.map_congr_left h, List.map_id']

/-- An object is when its keys and its values are. -/
theorem paired_obj : Paired (.obj fields) ↔ ∀ x ∈ fields, pair x.1 = x.1 ∧ Paired x.2 := by
  unfold Paired
  rw [rereadWith, rereadFields_eq_map, id, Value.obj.injEq]
  constructor
  · intro h x hx
    have hid : fields.map (fun x => (pair x.1, rereadWith id x.2)) = fields.map id := by rw [h, List.map_id]
    have hsame := List.map_inj_left.mp hid x hx
    exact ⟨congrArg Prod.fst hsame, congrArg Prod.snd hsame⟩
  · intro h
    conv => rhs; rw [← List.map_id fields]
    apply List.map_congr_left
    intro x hx
    exact Prod.ext (h x hx).1 (h x hx).2

/-- The items of an array are sorted inside, and keep their order. -/
theorem sortKeys_arr : sortKeys (.arr items) = .arr (items.map sortKeys) := by
  rw [sortKeys, sortItems_eq_map]

/-- The fields of an object are sorted by their keys. -/
theorem sortKeys_obj :
    sortKeys (.obj fields) = .obj ((fields.map fun x => (x.1, sortKeys x.2)).mergeSort keyLe) := by
  rw [sortKeys, sortFields_eq_map]

/-- What holds of every sorted field is what holds of every field, sorted. -/
theorem forall_mem_sorted {P : CodePoints → Value F → Prop} :
    (∀ x ∈ (fields.map fun x => (x.1, sortKeys x.2)).mergeSort keyLe, P x.1 x.2) ↔
      ∀ x ∈ fields, P x.1 (sortKeys x.2) := by
  simp only [List.mem_mergeSort, List.forall_mem_map]

/-- Sorting the keys neither pairs a string nor takes a pair apart. -/
theorem paired_sortKeys_iff (v : Value F) : Paired (sortKeys v) ↔ Paired v := by
  induction v using Value.induct with
  | hnull => exact Iff.rfl
  | hbool b => exact Iff.rfl
  | hint n => exact Iff.rfl
  | hfloat x => exact Iff.rfl
  | hstr s => exact Iff.rfl
  | harr items ih =>
    rw [sortKeys_arr, paired_arr, paired_arr, List.forall_mem_map]
    exact forall₂_congr ih
  | hobj fields ih =>
    rw [sortKeys_obj, paired_obj, paired_obj, forall_mem_sorted (P := fun k v => pair k = k ∧ Paired v)]
    exact forall₂_congr fun x hx => and_congr Iff.rfl (ih x hx)

/-! ## Sorted values -/

/-- Distinct keys stay distinct when sorted. -/
theorem keys_sorted_nodup (h : (Dict.keys fields).Nodup) :
    (Dict.keys ((fields.map fun x => (x.1, sortKeys x.2)).mergeSort keyLe)).Nodup := by
  rw [(keys_mergeSort_perm _).nodup_iff]
  unfold Dict.keys
  rw [List.map_map]
  exact h

theorem distinctKeys_sortKeys (v : Value F) (h : distinctKeys v = true) : distinctKeys (sortKeys v) = true := by
  induction v using Value.induct with
  | hnull => rfl
  | hbool b => rfl
  | hint n => rfl
  | hfloat x => rfl
  | hstr s => rfl
  | harr items ih =>
    rw [distinctKeys_arr] at h
    rw [sortKeys_arr, distinctKeys_arr, List.forall_mem_map]
    exact fun v hv => ih v hv (h v hv)
  | hobj fields ih =>
    rw [distinctKeys_obj] at h
    rw [sortKeys_obj, distinctKeys_obj, forall_mem_sorted (P := fun _ v => distinctKeys v = true)]
    exact ⟨keys_sorted_nodup h.1, fun x hx => ih x hx (h.2 x hx)⟩

/-- Sorting twice is sorting once. -/
theorem sortKeys_sortKeys (v : Value F) : sortKeys (sortKeys v) = sortKeys v := by
  induction v using Value.induct with
  | hnull => rfl
  | hbool b => rfl
  | hint n => rfl
  | hfloat x => rfl
  | hstr s => rfl
  | harr items ih =>
    rw [sortKeys_arr, sortKeys_arr, List.map_map]
    exact congrArg _ (List.map_congr_left ih)
  | hobj fields ih =>
    rw [sortKeys_obj, sortKeys_obj, Value.obj.injEq]
    have hsame : ((fields.map fun x => (x.1, sortKeys x.2)).mergeSort keyLe).map (fun x => (x.1, sortKeys x.2)) =
        (fields.map fun x => (x.1, sortKeys x.2)).mergeSort keyLe := by
      conv => rhs; rw [← List.map_id (List.mergeSort _ _)]
      apply List.map_congr_left
      intro x hx
      rw [List.mem_mergeSort, List.mem_map] at hx
      obtain ⟨y, hy, rfl⟩ := hx
      exact Prod.ext rfl (ih y hy)
    rw [hsame]
    exact List.mergeSort_of_pairwise (List.pairwise_mergeSort keyLe_trans keyLe_total _)

/-! ## Reading back -/

/-- The canonical text is read to the reload of the value. -/
theorem loads_canonical : loads f (canonical f v) = some (reload v) := read_dump (sortKeys v)

/-- A value with distinct and paired keys is read back as it is. -/
theorem reread_of_paired (v : Value F) (hd : distinctKeys v = true) (hp : Paired v) : reread v = v := by
  unfold reread
  induction v using Value.induct with
  | hnull => rfl
  | hbool b => rfl
  | hint n => rfl
  | hfloat x => rfl
  | hstr s => exact hp
  | harr items ih =>
    rw [distinctKeys_arr] at hd
    rw [paired_arr] at hp
    rw [rereadWith, rereadItems_eq_map, List.map_congr_left fun v hv => ih v hv (hd v hv) (hp v hv), List.map_id']
  | hobj fields ih =>
    rw [distinctKeys_obj] at hd
    rw [paired_obj] at hp
    have hsame : fields.map (fun x => (pair x.1, rereadWith Dict.ofPairs x.2)) = fields := by
      conv => rhs; rw [← List.map_id fields]
      apply List.map_congr_left
      intro x hx
      exact Prod.ext (hp x hx).1 (ih x hx (hd.2 x hx) (hp x hx).2)
    rw [rereadWith, rereadFields_eq_map, hsame, Dict.ofPairs_of_nodup hd.1]

/-- **When a value comes back from its canonical text**, but for the order of its keys. -/
theorem alike_reload_iff (hd : distinctKeys v = true) : Alike (reload v) v ↔ Paired v := by
  unfold Alike reload
  constructor
  · intro h
    have hread : Paired (sortKeys (reread (sortKeys v))) :=
      (paired_sortKeys_iff _).mpr (rereadWith_id_rereadWith mem_of_mem_ofPairs _)
    rw [h] at hread
    exact (paired_sortKeys_iff v).mp hread
  · intro h
    rw [reread_of_paired _ (distinctKeys_sortKeys v hd) ((paired_sortKeys_iff v).mpr h), sortKeys_sortKeys]

end Alike

end JsonText
