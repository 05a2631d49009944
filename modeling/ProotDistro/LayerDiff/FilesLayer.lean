import ProotDistro.LayerDiff

/-!
# `layer_diff`: a layer from a file map

COPY and ADD enumerate first what they will write, as a map from names in the image to
entries. The map is then consumed twice: written into the rootfs, and packed into a layer by
`writeFilesLayer`. A file entry names the tree its bytes are in and the way down to them
(`openSource`); the packer puts an entry for every directory above a name in front of all
others (`parentDirs`).

Owners, sizes and the joined source path serve the progress bar and the messages and are left
out.
-/

namespace ProotDistro

open Posix Dirfd TarExtract

namespace LayerDiff

inductive MapEntry where
  | dir (mode : Option Mode) (mtime : Int)
  | symlink (target : List Char) (mode : Option Mode) (mtime : Int)
  | file (root rel : Path) (mode : Option Mode)
  deriving DecidableEq

def MapEntry.isFile : MapEntry → Bool
  | .file _ _ _ => true
  | .dir _ _ | .symlink _ _ _ => false

abbrev FileMap := List (List Char × MapEntry)

/-- `MapSources.open`: the regular file down `rel` from `root`, no link followed. -/
def openSource (root rel : Path) (fs : Fs) : Except Errno FileData :=
  match rel.getLast? with
  | none => .error .EINVAL
  | some name =>
    match openDirs fs root rel.dropLast with
    | none => .error .ENOENT
    | some fd => readRegular fd name fs

/-- The components a name has inside the image; `none` if it escapes. -/
def layerPathParts (arcname : List Char) : Option Path :=
  let parts := (splitPath arcname).filter fun p => p ≠ [] ∧ p ≠ ['.']
  if parts = [] ∨ ['.', '.'] ∈ parts then none else some parts

/-- `sorted(file_map.items())` -/
def sortedItems (fileMap : FileMap) : FileMap := fileMap.insertionSort fun x y => x.1 ≤ y.1

/-- The directories above `parts`, those not seen before added to `seen`. -/
def addParents (seen : List Path) (parts : Path) : List Path :=
  (List.range (parts.length - 1)).foldl (fun seen k =>
    if parts.take (k + 1) ∈ seen then seen else seen ++ [parts.take (k + 1)]) seen

/-- The directories above all names, in the order they come up. -/
def parentDirs (arcnames : List (List Char)) : List Path :=
  (arcnames.filterMap layerPathParts).foldl addParents []

def parentMember (dpath : Path) : Member := ⟨joinPath dpath, .dir, 0o755, 0⟩

def addFileMapEntry (fs : Fs) (arcname : List Char) (entry : MapEntry) : Option Member :=
  match entry with
  | .symlink target mode mtime =>
    some ⟨arcname, .sym target, mode.getD 0o777, mtime * 1000000000⟩
  | .dir mode mtime => some ⟨arcname, .dir, mode.getD 0o755, mtime * 1000000000⟩
  | .file root rel mode =>
    match openSource root rel fs with
    | .error _ => none
    | .ok data =>
      some ⟨arcname, .reg data.content, mode.getD data.mode, wholeSeconds data.mtime⟩

def packItem (fs : Fs) (item : List Char × MapEntry) : Option Member :=
  match layerPathParts item.1 with
  | none => none
  | some _ => addFileMapEntry fs item.1 item.2

def writeFilesLayer (fs : Fs) (fileMap : FileMap) : List Member :=
  (parentDirs ((sortedItems fileMap).map (·.1))).map parentMember ++
    (sortedItems fileMap).filterMap (packItem fs)

/-! ## Names -/

section Names

variable {arcname : List Char} {parts q : Path}

/-- The names a path of a layer is cut into are names of entries, at least one. -/
theorem layerPathParts_some (h : layerPathParts arcname = some parts) :
    parts ≠ [] ∧ ∀ c ∈ parts, ValidName c := by
  unfold layerPathParts at h
  simp only at h
  split at h
  · cases h
  · rename_i hno
    rw [not_or] at hno
    rw [Option.some.injEq] at h
    rw [h] at hno
    refine ⟨hno.1, fun c hc => ?_⟩
    rw [← h, List.mem_filter, decide_eq_true_eq] at hc
    refine ⟨hc.2.1, hc.2.2, ?_, Fs.noSlash_of_mem_splitPath hc.1⟩
    rintro rfl
    exact hno.2 (by rw [← h]; simpa using hc.1)

/-- A path that was put together is cut into its names again. -/
theorem layerPathParts_joinPath (hq : q ≠ []) (hv : ∀ c ∈ q, ValidName c) :
    layerPathParts (joinPath q) = some q := by
  have hfilter : (q.filter fun p => p ≠ [] ∧ p ≠ ['.']) = q :=
    List.filter_eq_self.mpr fun c hc => by simp [(hv c hc).nonempty, (hv c hc).not_dot]
  unfold layerPathParts
  rw [splitPath_joinPath hq fun c hc => (hv c hc).no_slash]
  simp only [hfilter]
  rw [if_neg]
  rintro (h | h)
  · exact hq h
  · exact (hv _ h).not_dotdot rfl

end Names

/-! ## The directories above -/

section Parents

variable {seen l l' : List Path} {parts s : Path}

/-- Adding the parents of a path adds the paths above it but the root. -/
theorem mem_addParents :
    s ∈ addParents seen parts ↔ s ∈ seen ∨ s ≠ [] ∧ s <+: parts ∧ s ≠ parts := by
  -- the loop adds the prefixes of the lengths it has been through
  have hloop : ∀ n ≤ parts.length - 1, ∀ s,
      s ∈ (List.range n).foldl (fun seen k =>
        if parts.take (k + 1) ∈ seen then seen else seen ++ [parts.take (k + 1)]) seen ↔
      s ∈ seen ∨ ∃ k < n, s = parts.take (k + 1) := by
    intro n
    induction n with
    | zero => simp
    | succ n ih =>
      intro hn s
      rw [List.range_succ, List.foldl_append, List.foldl_cons, List.foldl_nil]
      have ih' := ih (by omega)
      split
      · rename_i hmem
        rw [ih']
        constructor
        · rintro (h | ⟨k, hk, h⟩)
          · exact .inl h
          · exact .inr ⟨k, by omega, h⟩
        · rintro (h | ⟨k, hk, h⟩)
          · exact .inl h
          · by_cases hkn : k = n
            · rw [h, hkn]
              exact (ih' _).mp hmem
            · exact .inr ⟨k, by omega, h⟩
      · rw [List.mem_append, ih', List.mem_singleton]
        constructor
        · rintro ((h | ⟨k, hk, h⟩) | h)
          · exact .inl h
          · exact .inr ⟨k, by omega, h⟩
          · exact .inr ⟨n, by omega, h⟩
        · rintro (h | ⟨k, hk, h⟩)
          · exact .inl (.inl h)
          · by_cases hkn : k = n
            · exact .inr (by rw [h, hkn])
            · exact .inl (.inr ⟨k, by omega, h⟩)
  unfold addParents
  rw [hloop _ le_rfl]
  refine or_congr_right ?_
  constructor
  · rintro ⟨k, hk, rfl⟩
    refine ⟨?_, List.take_prefix _ _, fun h => ?_⟩
    · intro h
      have := congrArg List.length h
      simp only [List.length_take, List.length_nil] at this
      omega
    · have := congrArg List.length h
      simp only [List.length_take] at this
      omega
  · rintro ⟨hne, hpre, hproper⟩
    have hpos : 0 < s.length := List.length_pos_iff.mpr hne
    have hlt : s.length < parts.length := by
      rcases Nat.lt_or_ge s.length parts.length with h | h
      · exact h
      · exact absurd (hpre.eq_of_length_le h) hproper
    refine ⟨s.length - 1, by omega, ?_⟩
    rw [Nat.sub_add_cancel hpos]
    exact List.prefix_iff_eq_take.mp hpre

/-- The parents of a layer are the paths above its members. -/
theorem mem_parentDirs {arcnames : List (List Char)} :
    s ∈ parentDirs arcnames ↔
      ∃ a ∈ arcnames, ∃ parts, layerPathParts a = some parts ∧ s ≠ [] ∧ s <+: parts ∧
        s ≠ parts := by
  have hloop : ∀ (l : List Path) (seen : List Path),
      s ∈ l.foldl addParents seen ↔
        s ∈ seen ∨ ∃ parts ∈ l, s ≠ [] ∧ s <+: parts ∧ s ≠ parts := by
    intro l
    induction l with
    | nil => simp
    | cons parts l ih =>
      intro seen
      rw [List.foldl_cons, ih, mem_addParents]
      simp only [List.mem_cons, exists_eq_or_imp, or_assoc]
  unfold parentDirs
  rw [hloop]
  simp only [List.not_mem_nil, false_or, List.mem_filterMap]
  constructor
  · rintro ⟨parts, ⟨a, ha, hparts⟩, h⟩
    exact ⟨a, ha, parts, hparts, h⟩
  · rintro ⟨a, ha, parts, hparts, h⟩
    exact ⟨parts, ⟨a, ha, hparts⟩, h⟩

/-- Every directory comes after the one it stands in. -/
def ParentsFirst (done : List Path) : List Path → Prop
  | [] => True
  | s :: rest => (s.dropLast = [] ∨ s.dropLast ∈ done) ∧ ParentsFirst (done ++ [s]) rest

/-- A list has its parents first if its halves have, the second after the first. -/
theorem parentsFirst_append {done : List Path} :
    ParentsFirst done (l ++ l') ↔ ParentsFirst done l ∧ ParentsFirst (done ++ l) l' := by
  induction l generalizing done with
  | nil => simp [ParentsFirst]
  | cons s l ih =>
    show (_ ∧ ParentsFirst (done ++ [s]) (l ++ l')) ↔
      (_ ∧ ParentsFirst (done ++ [s]) l) ∧ ParentsFirst (done ++ s :: l) l'
    rw [ih, and_assoc, List.append_assoc, List.singleton_append]

/-- Adding the parents of a path keeps parents first. -/
theorem parentsFirst_addParents (h : ParentsFirst [] seen) :
    ParentsFirst [] (addParents seen parts) := by
  -- besides the order: the prefixes the loop has been through are there
  have hloop : ∀ n ≤ parts.length - 1,
      ParentsFirst [] ((List.range n).foldl (fun seen k =>
        if parts.take (k + 1) ∈ seen then seen else seen ++ [parts.take (k + 1)]) seen) ∧
      ∀ k < n, parts.take (k + 1) ∈ (List.range n).foldl (fun seen k =>
        if parts.take (k + 1) ∈ seen then seen else seen ++ [parts.take (k + 1)]) seen := by
    intro n
    induction n with
    | zero => exact fun _ => ⟨by simpa using h, fun k hk => absurd hk (Nat.not_lt_zero k)⟩
    | succ n ih =>
      intro hn
      obtain ⟨hfirst, hall⟩ := ih (by omega)
      rw [List.range_succ, List.foldl_append, List.foldl_cons, List.foldl_nil]
      have hdrop : (parts.take (n + 1)).dropLast = parts.take n := by
        rw [List.dropLast_take (by omega)]
        simp
      split
      · rename_i hmem
        refine ⟨hfirst, fun k hk => ?_⟩
        by_cases hkn : k = n
        · rwa [hkn]
        · exact hall k (by omega)
      · refine ⟨parentsFirst_append.mpr ⟨hfirst, ?_, trivial⟩, fun k hk => ?_⟩
        · rw [hdrop]
          cases n with
          | zero => exact .inl (by simp)
          | succ n => exact .inr (by simpa using hall n (Nat.lt_succ_self n))
        · rw [List.mem_append, List.mem_singleton]
          by_cases hkn : k = n
          · exact .inr (by rw [hkn])
          · exact .inl (hall k (by omega))
  exact (hloop _ le_rfl).1

/-- The parents of a layer come in an order in which each stands after its own. -/
theorem parentsFirst_parentDirs (arcnames : List (List Char)) :
    ParentsFirst [] (parentDirs arcnames) := by
  have hloop : ∀ (l : List Path) (seen : List Path), ParentsFirst [] seen →
      ParentsFirst [] (l.foldl addParents seen) := by
    intro l
    induction l with
    | nil => exact fun seen h => h
    | cons parts l ih => exact fun seen h => ih _ (parentsFirst_addParents h)
  exact hloop _ _ trivial

end Parents

/-! ## Sources -/

/-- A source reads the same in file systems that agree outside a directory it is not in. -/
theorem openSource_congr {fs fs' : Fs} {rootfs root rel : Path} (hv : ∀ c ∈ rel, ValidName c)
    (hout : ¬ rootfs <+: root ++ rel) (h : ∀ q, ¬ rootfs <+: q → fs'.get q = fs.get q) :
    openSource root rel fs' = openSource root rel fs := by
  have hsame : ∀ r, r <+: rel → fs'.get (root ++ r) = fs.get (root ++ r) := by
    intro r hr
    refine h _ fun hpre => hout (hpre.trans ?_)
    exact (List.prefix_append_right_inj root).mpr hr
  have hdirs : ∀ parts done, done ++ parts <+: rel →
      openDirs fs' (root ++ done) parts = openDirs fs (root ++ done) parts ∧
        (openDirs fs (root ++ done) parts = none ∨
          openDirs fs (root ++ done) parts = some (root ++ done ++ parts)) := by
    intro parts
    induction parts with
    | nil => simp [openDirs]
    | cons c parts ih =>
      intro done hpre
      have happ : done ++ c :: parts = done ++ [c] ++ parts := by simp
      rw [happ] at hpre
      have hc : ValidName c := hv c (hpre.subset (by simp))
      have hlevel : fs'.openDirAt (root ++ done) c = fs.openDirAt (root ++ done) c := by
        unfold Fs.openDirAt
        rw [Fs.locate_valid hc, List.append_assoc,
          hsame _ ((List.prefix_append _ _).trans hpre)]
      unfold openDirs
      rw [hlevel]
      by_cases hdir : fs.IsDir (root ++ done ++ [c])
      · rw [openDirAt_of_isDir hc hdir]
        simpa using ih (done ++ [c]) hpre
      · rw [openDirAt_of_not_isDir hc hdir]
        exact ⟨rfl, .inl rfl⟩
  unfold openSource
  cases hlast : rel.getLast? with
  | none => rfl
  | some name =>
    obtain ⟨init, rfl⟩ := List.getLast?_eq_some_iff.mp hlast
    have hn : ValidName name := hv name (by simp)
    obtain ⟨heq, hres⟩ := hdirs init [] (by simp)
    rw [List.append_nil] at heq hres
    simp only [List.dropLast_concat, heq]
    rcases hres with hnone | hsome
    · rw [hnone]
    · rw [hsome]
      unfold readRegular
      simp only [Fs.locate_valid hn, List.append_assoc, hsame _ (List.prefix_refl _)]

end LayerDiff

end ProotDistro
