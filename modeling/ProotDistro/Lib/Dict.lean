import Mathlib.Data.List.Nodup

/-!
# Dictionaries in insertion order

A dictionary is the list of its entries in the order their keys came in. Setting a key that is
there changes its value in place; a new one goes to the end. Reading takes the first entry of
a key, so what is said about reading holds of any list of entries; `ofPairs` is the dictionary
a list of pairs builds, where the last pair of a key decides its value and the first its place.
-/

/-- A dictionary: its entries, oldest key first. -/
abbrev Dict (κ α : Type) := List (κ × α)

namespace Dict

variable {κ α : Type} [DecidableEq κ]

def get : Dict κ α → κ → Option α
  | [], _ => none
  | (k, v) :: d, q => if k = q then some v else get d q

def set : Dict κ α → κ → α → Dict κ α
  | [], k, v => [(k, v)]
  | (k', v') :: d, k, v => if k' = k then (k', v) :: d else (k', v') :: set d k v

def keys (d : Dict κ α) : List κ := d.map Prod.fst

/-- `d.update(pairs)` -/
def update (d : Dict κ α) (pairs : List (κ × α)) : Dict κ α :=
  pairs.foldl (fun d x => set d x.1 x.2) d

/-- `dict(pairs)` -/
def ofPairs (pairs : List (κ × α)) : Dict κ α := update [] pairs

/-- `d.setdefault(k, v)` -/
def setDefault (d : Dict κ α) (k : κ) (v : α) : Dict κ α :=
  match get d k with
  | some _ => d
  | none => set d k v

variable {d d' : Dict κ α} {k q : κ} {v : α} {pairs : List (κ × α)}

@[simp] theorem get_nil : get ([] : Dict κ α) q = none := rfl

/-- A set at the first key replaces its value. -/
theorem set_cons_self {v' : α} : set ((k, v') :: d) k v = (k, v) :: d := by
  rw [set, if_pos rfl]

/-- At another key it goes on to the rest. -/
theorem set_cons_of_ne {k' : κ} {v' : α} (h : k' ≠ k) :
    set ((k', v') :: d) k v = (k', v') :: set d k v := by
  rw [set, if_neg h]

/-- What a set changes is its own key. -/
theorem get_set : get (set d k v) q = if k = q then some v else get d q := by
  induction d with
  | nil => rfl
  | cons x d ih =>
    obtain ⟨k', v'⟩ := x
    unfold set
    by_cases hk : k' = k
    · rw [if_pos hk]
      simp only [get, hk]
      split <;> rfl
    · rw [if_neg hk]
      simp only [get, ih]
      by_cases hq : k' = q
      · have hkq : k ≠ q := fun h => hk (hq.trans h.symm)
        rw [if_pos hq, if_neg hkq, if_pos hq]
      · rw [if_neg hq, if_neg hq]

/-- The key set has the value set. -/
@[simp] theorem get_set_self : get (set d k v) k = some v := by
  rw [get_set, if_pos rfl]

/-- Another key keeps its value. -/
theorem get_set_of_ne (h : k ≠ q) : get (set d k v) q = get d q := by
  rw [get_set, if_neg h]

/-- The first of two dictionaries that has the key answers. -/
theorem get_append : get (d ++ d') q = (get d q).or (get d' q) := by
  induction d with
  | nil => simp
  | cons x d ih =>
    simp only [List.cons_append, get, ih]
    split <;> rfl

/-- A default is given where the key has no value. -/
theorem get_setDefault_self : get (setDefault d k v) k = some ((get d k).getD v) := by
  unfold setDefault
  split
  · rename_i h
    rw [h]
    rfl
  · rename_i h
    rw [h, get_set_self]
    rfl

/-- Another key keeps its value. -/
theorem get_setDefault_of_ne (h : k ≠ q) : get (setDefault d k v) q = get d q := by
  unfold setDefault
  split
  · rfl
  · exact get_set_of_ne h

/-- Of a list of defaults, the first of a key counts, and only where the key is not there. -/
theorem get_foldl_setDefault {defaults : List (κ × α)} :
    get (defaults.foldl (fun d x => setDefault d x.1 x.2) d) q = (get d q).or (get defaults q) := by
  induction defaults generalizing d with
  | nil =>
    show get d q = (get d q).or none
    rw [Option.or_none]
  | cons x defaults ih =>
    rw [List.foldl_cons, ih, get]
    by_cases hx : x.1 = q
    · rw [← hx, get_setDefault_self, if_pos rfl]
      cases get d x.1 <;> rfl
    · rw [get_setDefault_of_ne hx, if_neg hx]

/-- A key without a value is none of the keys. -/
theorem get_eq_none : get d q = none ↔ q ∉ keys d := by
  induction d with
  | nil => simp [keys]
  | cons x d ih =>
    unfold get keys
    rw [List.map_cons, List.mem_cons]
    split
    · rename_i h
      simp [h]
    · rename_i h
      rw [ih]
      simp [keys, Ne.symm h]

/-- A value comes from a pair. -/
theorem mem_of_get (h : get d q = some v) : (q, v) ∈ d := by
  induction d with
  | nil => cases h
  | cons x d ih =>
    unfold get at h
    split at h
    · rename_i hk
      cases h
      exact List.mem_cons.mpr (.inl (by rw [← hk]))
    · exact List.mem_cons_of_mem _ (ih h)

/-- Where no key stands twice, every pair is what its key has. -/
theorem get_of_mem (hd : (keys d).Nodup) (h : (q, v) ∈ d) : get d q = some v := by
  induction d with
  | nil => cases h
  | cons x d ih =>
    unfold keys at hd
    rw [List.map_cons, List.nodup_cons] at hd
    unfold get
    rcases List.mem_cons.mp h with heq | hmem
    · rw [if_pos (by rw [← heq]), ← heq]
    · have hne : x.1 ≠ q := by
        intro heq
        exact hd.1 (List.mem_map.mpr ⟨(q, v), hmem, heq.symm⟩)
      rw [if_neg hne]
      exact ih hd.2 hmem

/-- Setting a key that is not there adds it at the end. -/
theorem set_of_notMem (h : k ∉ keys d) : set d k v = d ++ [(k, v)] := by
  induction d with
  | nil => rfl
  | cons x d ih =>
    unfold keys at h
    rw [List.map_cons, List.mem_cons, not_or] at h
    unfold set
    rw [if_neg (Ne.symm h.1), ih h.2, List.cons_append]

/-- A set adds its key to the keys. -/
theorem mem_keys_set : q ∈ keys (set d k v) ↔ q = k ∨ q ∈ keys d := by
  rw [← not_iff_not, not_or, ← get_eq_none, ← get_eq_none, get_set]
  by_cases h : k = q
  · simp [h]
  · simp [h, Ne.symm h]

/-- It adds none twice. -/
theorem nodup_set (h : (keys d).Nodup) : (keys (set d k v)).Nodup := by
  induction d with
  | nil => simp [set, keys]
  | cons x d ih =>
    have hx : x.1 ∉ keys d ∧ (keys d).Nodup := List.nodup_cons.mp h
    unfold set
    by_cases hk : x.1 = k
    · rw [if_pos hk]
      exact List.nodup_cons.mpr hx
    · rw [if_neg hk]
      refine List.nodup_cons.mpr ⟨?_, ih hx.2⟩
      intro hmem
      rcases mem_keys_set.mp hmem with heq | hmem'
      · exact hk heq
      · exact hx.1 hmem'

theorem nodup_update (h : (keys d).Nodup) : (keys (update d pairs)).Nodup := by
  unfold update
  induction pairs generalizing d with
  | nil => exact h
  | cons x pairs ih => exact ih (nodup_set h)

/-- So the keys of a dictionary made of pairs are distinct. -/
theorem nodup_ofPairs : (keys (ofPairs pairs)).Nodup := nodup_update List.nodup_nil

/-- An update adds the keys of its pairs. -/
theorem mem_keys_update : q ∈ keys (update d pairs) ↔ q ∈ keys d ∨ q ∈ keys pairs := by
  unfold update
  induction pairs generalizing d with
  | nil => simp [keys]
  | cons x pairs ih =>
    rw [List.foldl_cons, ih, mem_keys_set]
    simp only [keys, List.map_cons, List.mem_cons]
    tauto

/-- The keys of a dictionary made of pairs are those of the pairs. -/
theorem mem_keys_ofPairs : q ∈ keys (ofPairs pairs) ↔ q ∈ keys pairs := by
  unfold ofPairs
  rw [mem_keys_update]
  simp [keys]

/-- The last pair of a key decides. -/
theorem get_update : get (update d pairs) q = (get pairs.reverse q).or (get d q) := by
  unfold update
  induction pairs generalizing d with
  | nil => simp
  | cons x pairs ih =>
    rw [List.foldl_cons, ih, get_set, List.reverse_cons, get_append, Option.or_assoc]
    congr 1
    simp only [get]
    split <;> rfl

/-- Where each key is there once, the order does not matter. -/
theorem get_reverse (h : (keys d).Nodup) : get d.reverse q = get d q := by
  have hreverse : (keys d.reverse).Nodup := by
    unfold keys at h ⊢
    rw [List.map_reverse]
    exact List.nodup_reverse.mpr h
  cases hget : get d q with
  | none =>
    rw [get_eq_none] at hget ⊢
    unfold keys at hget ⊢
    rwa [List.map_reverse, List.mem_reverse]
  | some v => exact get_of_mem hreverse (List.mem_reverse.mpr (mem_of_get hget))

/-- What a dictionary of pairs holds is among the pairs. -/
theorem mem_of_mem_ofPairs {x : κ × α} (h : x ∈ ofPairs pairs) : x ∈ pairs := by
  have hget : get (ofPairs pairs) x.1 = some x.2 := get_of_mem nodup_ofPairs h
  unfold ofPairs at hget
  rw [get_update, get_nil, Option.or_none] at hget
  exact List.mem_reverse.mp (mem_of_get hget)

/-- Where a key comes with one value only, it has that value. -/
theorem get_ofPairs_of_unique (h : ∀ v v', (q, v) ∈ pairs → (q, v') ∈ pairs → v = v') :
    get (ofPairs pairs) q = some v ↔ (q, v) ∈ pairs := by
  constructor
  · intro hget
    exact mem_of_mem_ofPairs (mem_of_get hget)
  · intro hmem
    have hkey : q ∈ keys (ofPairs pairs) :=
      mem_keys_ofPairs.mpr (List.mem_map_of_mem hmem)
    cases hget : get (ofPairs pairs) q with
    | none => exact absurd hkey (get_eq_none.mp hget)
    | some v' => rw [h v' v (mem_of_mem_ofPairs (mem_of_get hget)) hmem]

/-- Pairs of different keys are a dictionary as they stand. -/
theorem ofPairs_of_nodup (h : (keys pairs).Nodup) : ofPairs pairs = pairs := by
  have hloop : ∀ (pairs d : List (κ × α)), (keys (d ++ pairs)).Nodup →
      update d pairs = d ++ pairs := by
    intro pairs
    induction pairs with
    | nil => intro d _; simp [update]
    | cons x pairs ih =>
      intro d hd
      have hx : x.1 ∉ keys d := by
        unfold keys at hd ⊢
        rw [List.map_append, List.map_cons, List.nodup_append] at hd
        intro hmem
        exact hd.2.2 _ hmem _ List.mem_cons_self rfl
      have happ : d ++ x :: pairs = d ++ [x] ++ pairs := by simp
      unfold update
      rw [List.foldl_cons, set_of_notMem hx, happ]
      exact ih _ (happ ▸ hd)
  simpa [ofPairs] using hloop pairs [] h

/-- What is done to every value of the pairs is done to the dictionary. -/
theorem ofPairs_mapValues {β : Type} (f : α → β) :
    ofPairs (pairs.map fun x => (x.1, f x.2)) = (ofPairs pairs).map fun x => (x.1, f x.2) := by
  have hset : ∀ (d : Dict κ α) (k : κ) (v : α),
      set (d.map fun x => (x.1, f x.2)) k (f v) = (set d k v).map fun x => (x.1, f x.2) := by
    intro d k v
    induction d with
    | nil => rfl
    | cons x d ih =>
      obtain ⟨k', v'⟩ := x
      by_cases hk : k' = k
      · rw [set, if_pos hk, List.map_cons, set, if_pos hk, List.map_cons]
      · rw [set, if_neg hk, List.map_cons, set, if_neg hk, ih, List.map_cons]
  have hloop : ∀ (pairs : List (κ × α)) (d : Dict κ α),
      update (d.map fun x => (x.1, f x.2)) (pairs.map fun x => (x.1, f x.2)) =
        (update d pairs).map fun x => (x.1, f x.2) := by
    intro pairs
    induction pairs with
    | nil => exact fun d => rfl
    | cons x pairs ih =>
      intro d
      unfold update at ih ⊢
      rw [List.map_cons, List.foldl_cons, List.foldl_cons, hset, ih]
  exact hloop pairs []

/-- `d.pop(k, None)` -/
def erase (d : Dict κ α) (k : κ) : Dict κ α := d.filter fun x => x.1 ≠ k

/-- The entries whose keys `p` takes. -/
def restrict (p : κ → Bool) (d : Dict κ α) : Dict κ α := d.filter fun x => p x.1

/-! ## Part of a dictionary -/

section Restrict

omit [DecidableEq κ]

variable {p : κ → Bool}

/-- The part of a dictionary whose first key is kept or left. -/
theorem restrict_cons {x : κ × α} :
    restrict p (x :: d) = if p x.1 then x :: restrict p d else restrict p d := by
  unfold restrict
  rw [List.filter_cons]

/-- The part of two dictionaries is their parts. -/
theorem restrict_append : restrict p (d ++ d') = restrict p d ++ restrict p d' :=
  List.filter_append _ _

/-- Nothing is left where no key is kept. -/
theorem restrict_eq_nil (h : ∀ x ∈ d, p x.1 = false) : restrict p d = [] := by
  refine List.filter_eq_nil_iff.mpr fun x hx => ?_
  rw [h x hx]
  exact Bool.false_ne_true

end Restrict

variable {p : κ → Bool}

/-- A set shows in the part when its key is kept. -/
theorem restrict_set :
    restrict p (set d k v) = if p k then set (restrict p d) k v else restrict p d := by
  induction d with
  | nil =>
    unfold set
    rw [restrict_cons]
    rfl
  | cons x d ih =>
    obtain ⟨k', v'⟩ := x
    by_cases hk : k' = k
    · subst hk
      rw [set_cons_self, restrict_cons, restrict_cons]
      by_cases hp : p k'
      · simp only [hp, if_true, set_cons_self]
      · simp only [hp, if_false, Bool.false_eq_true]
    · rw [set_cons_of_ne hk, restrict_cons, restrict_cons, ih]
      by_cases hp : p k' <;> by_cases hpk : p k <;> simp [hp, hpk, set_cons_of_ne hk]

/-- The part has the values of the keys kept. -/
theorem get_restrict : get (restrict p d) q = if p q then get d q else none := by
  induction d with
  | nil => simp [restrict]
  | cons x d ih =>
    rw [restrict_cons]
    by_cases hq : x.1 = q
    · by_cases hp : p q
      · simp [get, hq, hp]
      · simp [hq, hp, ih]
    · by_cases hp : p x.1
      · simp [get, hq, hp, ih]
      · simp [get, hq, hp, ih]

/-- An erasure takes its own key. -/
theorem get_erase : get (erase d k) q = if q = k then none else get d q := by
  have hrestrict : erase d k = restrict (fun key => key ≠ k) d := rfl
  rw [hrestrict, get_restrict]
  by_cases hq : q = k <;> simp [hq]

/-- Setting a key outside the part leaves the part alone. -/
theorem restrict_set_of_false (h : p k = false) : restrict p (set d k v) = restrict p d := by
  rw [restrict_set, h, if_neg Bool.false_ne_true]

/-- The part of an update is the part, updated by the part of the pairs. -/
theorem restrict_update :
    restrict p (update d pairs) = update (restrict p d) (restrict p pairs) := by
  induction pairs generalizing d with
  | nil => rfl
  | cons x pairs ih =>
    have hcons : update d (x :: pairs) = update (set d x.1 x.2) pairs := rfl
    rw [hcons, ih, restrict_set, restrict_cons]
    split <;> rfl

/-- The part of a dictionary made of pairs is made of the part of the pairs. -/
theorem restrict_ofPairs : restrict p (ofPairs pairs) = ofPairs (restrict p pairs) :=
  restrict_update

/-- An erasure of the part is a part of the erasure. -/
theorem restrict_erase : restrict p (erase d k) = erase (restrict p d) k :=
  List.filter_comm _ _ _

/-- A key left out may be erased unseen. -/
theorem restrict_erase_of_false (h : p k = false) : restrict p (erase d k) = restrict p d := by
  unfold restrict erase
  rw [List.filter_filter]
  refine List.filter_congr fun x _ => ?_
  by_cases hk : x.1 = k
  · rw [hk, h, Bool.false_and]
  · rw [decide_eq_true hk, Bool.and_true]

end Dict
