import ProotDistro.Lib.Holes
import ProotDistro.Posix.Fs

/-!
# `dirfd.copy_data`: the content of a file

A file stored sparsely is copied extent by extent, as the file system says where its data is, or by
a scan that leaves out whole buffers of zeros; any other is copied through. The kernel moves as many
bytes a call as it likes, but one at least.

The two seeks answer anything that is true of the content: what they pass over reads as zeros. The
copy is into a file that has just been made.

* **`copyExtents_exact`** — extents that leave out zeros alone give the file.
* **`dataExtents_cover`** — so do the ones the file system reports.
* **`copyData_exact`** — a copy has the bytes and the length of its source, whichever way it went.
-/

namespace ProotDistro

open Posix Holes

namespace CopyData

def bufSize : Nat := 256 * 1024

def maxExtents : Nat := 2 ^ 20

/-! ## The kernel -/

/-- How many bytes one call moves, at a place and of a number that is asked for. A copy goes up the
file, so that no place is asked about twice. -/
structure Splits where
  read : Nat → Nat → Nat
  write : Nat → Nat → Nat

/-- A call moves one byte at least and no more than it is asked for. -/
def clamp (asked given : Nat) : Nat := max 1 (min asked given)

def pread (o : Splits) (src : Bytes) (asked pos : Nat) : Bytes :=
  (src.drop pos).take (clamp asked (o.read pos asked))

/-- A read comes no further than the end of the source. -/
theorem length_pread_le_rest (o : Splits) (src : Bytes) (asked pos : Nat) :
    (pread o src asked pos).length ≤ src.length - pos := by
  unfold pread
  rw [List.length_take, List.length_drop]
  omega

/-- The answer of a seek. -/
inductive Seek where
  | at (pos : Nat)
  /-- ENXIO: nothing at or after the place -/
  | none
  | failed

/-- What a file system says about the data and the holes of a file. -/
structure SeekMap where
  supported : Bool
  data : Nat → Seek
  hole : Nat → Seek

/-- What `SEEK_DATA` passes over reads as zeros. -/
structure Truthful (src : Bytes) (m : SeekMap) : Prop where
  passed : ∀ offset start i, m.data offset = .at start → offset ≤ i → i < start →
    valueAt src i = 0
  ended : ∀ offset i, m.data offset = .none → offset ≤ i → valueAt src i = 0

/-! ## The copy -/

/-- `_write_all` -/
def writeAll (o : Splits) (dst data : Bytes) (offset : Nat) : Bytes :=
  if data = [] then dst
  else
    let written := clamp data.length (o.write offset data.length)
    writeAll o (pwrite dst (data.take written) offset) (data.drop written) (offset + written)
termination_by data.length
decreasing_by
  rename_i hdata
  have hpos : 0 < data.length := List.length_pos_iff.mpr hdata
  show (data.drop (clamp data.length (o.write offset data.length))).length < data.length
  rw [List.length_drop]
  unfold clamp
  omega

/-- The loop of `_data_extents`, with room for so many more extents. -/
def dataExtentsFrom (m : SeekMap) (size : Nat) (room offset : Nat) : Option (List (Nat × Nat)) :=
  if offset < size then
    match m.data offset with
    | .none => some []
    | .failed => Option.none
    | .at start =>
      if size ≤ start then some []
      else
        match m.hole start with
        | .none | .failed => Option.none
        | .at stop =>
          if stop ≤ start then Option.none
          else
            match room with
            | 0 => Option.none
            | room + 1 => (dataExtentsFrom m size room stop).map ((start, min stop size) :: ·)
  else some []

def dataExtents (m : SeekMap) (size : Nat) : Option (List (Nat × Nat)) :=
  if m.supported then dataExtentsFrom m size maxExtents 0 else Option.none

/-- One extent of `_copy_extents`, from `pos` on. -/
def copyExtent (o : Splits) (src dst : Bytes) (pos stop : Nat) : Bytes :=
  if pos < stop then
    let chunk := pread o src (min bufSize (stop - pos)) pos
    if chunk = [] then dst
    else copyExtent o src (writeAll o dst chunk pos) (pos + chunk.length) stop
  else dst
termination_by stop - pos
decreasing_by
  rename_i hchunk
  have hpos : 0 < (pread o src (min bufSize (stop - pos)) pos).length :=
    List.length_pos_iff.mpr hchunk
  show stop - (pos + (pread o src (min bufSize (stop - pos)) pos).length) < stop - pos
  omega

def copyExtents (o : Splits) (src dst : Bytes) (extents : List (Nat × Nat)) (size : Nat) : Bytes :=
  ftruncate (extents.foldl (fun dst x => copyExtent o src dst x.1 x.2) dst) size

/-- `_copy_skipping_zeros`, from `pos` on. -/
def copySkippingZeros (o : Splits) (src dst : Bytes) (pos : Nat) : Bytes :=
  let chunk := pread o src bufSize pos
  if chunk = [] then ftruncate dst pos
  else if chunk.all (· = 0) then copySkippingZeros o src dst (pos + chunk.length)
  else copySkippingZeros o src (writeAll o dst chunk pos) (pos + chunk.length)
termination_by src.length - pos
decreasing_by
  all_goals
    have hpos : 0 < (pread o src bufSize pos).length := List.length_pos_iff.mpr ‹_›
    have hle := length_pread_le_rest o src bufSize pos
    show src.length - (pos + (pread o src bufSize pos).length) < src.length - pos
    omega

/-- `shutil.copyfileobj`, from `pos` on. -/
def copyFileObj (o : Splits) (src dst : Bytes) (pos : Nat) : Bytes :=
  let chunk := pread o src bufSize pos
  if chunk = [] then dst
  else copyFileObj o src (writeAll o dst chunk pos) (pos + chunk.length)
termination_by src.length - pos
decreasing_by
  rename_i hchunk
  have hpos : 0 < (pread o src bufSize pos).length := List.length_pos_iff.mpr hchunk
  have hle := length_pread_le_rest o src bufSize pos
  show src.length - (pos + (pread o src bufSize pos).length) < src.length - pos
  omega

/-- `_looks_sparse`, of a file that takes so many blocks. -/
def looksSparse (blocks : Nat) (src : Bytes) : Bool := blocks * 512 < src.length

/-- `copy_data` into a new file; `srcSt` is the blocks the source takes, where they are given. -/
def copyData (o : Splits) (m : SeekMap) (srcSt : Option Nat) (src : Bytes) : Bytes :=
  if srcSt.any fun blocks => looksSparse blocks src then
    let size := src.length
    match dataExtents m size with
    | some extents =>
      if (extents.map fun x => x.2 - x.1).sum < size then copyExtents o src [] extents size
      else copySkippingZeros o src [] 0
    | Option.none => copySkippingZeros o src [] 0
  else copyFileObj o src [] 0

/-! ## Reading and writing -/

section Loops

variable {o : Splits} {m : SeekMap} {src dst data : Bytes} {pos stop asked offset i : Nat}

/-- Before its end it reads something, and stays in it. -/
theorem length_pread (h : pos < src.length) :
    0 < (pread o src asked pos).length ∧ pos + (pread o src asked pos).length ≤ src.length := by
  unfold pread clamp
  rw [List.length_take, List.length_drop]
  omega

/-- It reads no more than it was asked for. -/
theorem length_pread_le (h : 0 < asked) : (pread o src asked pos).length ≤ asked := by
  unfold pread clamp
  rw [List.length_take]
  omega

/-- A read answers nothing at the end alone. -/
theorem pread_eq_nil (h : pread o src asked pos = []) : src.length ≤ pos := by
  by_contra hpast
  have hlen : 0 < (pread o src asked pos).length := (length_pread (Nat.lt_of_not_le hpast)).1
  rw [h] at hlen
  exact absurd hlen (by simp)

/-- What is read stands in the file where it was read. -/
theorem valueAt_pread (h : i < (pread o src asked pos).length) :
    valueAt (pread o src asked pos) i = valueAt src (pos + i) := by
  unfold pread at h ⊢
  rw [List.length_take] at h
  rw [valueAt_take, if_pos (by omega), valueAt_drop]

/-- A write puts its data in place, however it is split. -/
theorem valueAt_writeAll :
    valueAt (writeAll o dst data offset) i =
      if offset ≤ i ∧ i < offset + data.length then valueAt data (i - offset)
      else valueAt dst i := by
  fun_induction writeAll o dst data offset with
  | case1 dst offset =>
    rw [List.length_nil, if_neg (by omega)]
  | case2 dst data offset hne written ih =>
    have hpos : 0 < data.length := List.length_pos_iff.mpr hne
    have hwritten : 1 ≤ written ∧ written ≤ data.length := by
      unfold written clamp
      omega
    rw [ih, List.length_drop, valueAt_drop, valueAt_pwrite, List.length_take, valueAt_take]
    by_cases hin : offset ≤ i ∧ i < offset + data.length
    · rw [if_pos hin]
      by_cases hrest : offset + written ≤ i
      · rw [if_pos (by omega)]
        congr 1
        omega
      · rw [if_neg (by omega), if_pos (by omega), if_pos (by omega)]
    · rw [if_neg hin, if_neg (by omega), if_neg (by omega)]

/-- A write leaves a file that reaches to the end of what was written. -/
theorem length_writeAll (h : data ≠ []) :
    (writeAll o dst data offset).length = max dst.length (offset + data.length) := by
  fun_induction writeAll o dst data offset with
  | case1 dst offset => exact absurd rfl h
  | case2 dst data offset hne written ih =>
    have hpos : 0 < data.length := List.length_pos_iff.mpr hne
    have hwritten : 1 ≤ written ∧ written ≤ data.length := by
      unfold written clamp
      omega
    have htake : data.take written ≠ [] := by
      rw [← List.length_pos_iff, List.length_take]
      omega
    have hfront : (pwrite dst (data.take written) offset).length =
        max dst.length (offset + written) := by
      rw [length_pwrite htake, List.length_take]
      omega
    by_cases hrest : data.drop written = []
    · have hall : data.length ≤ written := List.drop_eq_nil_iff.mp hrest
      rw [hrest, writeAll, if_pos rfl, hfront]
      omega
    · rw [ih hrest, hfront, List.length_drop]
      omega

/-! ## One way at a time -/

/-- An extent is copied as far as it is one, and nothing else is touched. -/
theorem valueAt_copyExtent (hstop : stop ≤ src.length) :
    valueAt (copyExtent o src dst pos stop) i =
      if pos ≤ i ∧ i < stop then valueAt src i else valueAt dst i := by
  fun_induction copyExtent o src dst pos stop with
  | case1 dst pos hlt chunk hnil =>
    exact absurd (pread_eq_nil hnil) (by omega)
  | case2 dst pos hlt chunk hne ih =>
    have hlen : 0 < chunk.length ∧ pos + chunk.length ≤ src.length := length_pread (by omega)
    have hle : chunk.length ≤ stop - pos := by
      have hasked : 0 < min bufSize (stop - pos) := by
        have hbuf : 0 < bufSize := by decide
        omega
      have hshort : chunk.length ≤ min bufSize (stop - pos) := length_pread_le hasked
      omega
    rw [ih, valueAt_writeAll]
    by_cases hchunk : pos ≤ i ∧ i < pos + chunk.length
    · have hread : valueAt chunk (i - pos) = valueAt src (pos + (i - pos)) :=
        valueAt_pread (show i - pos < chunk.length by omega)
      rw [show pos + (i - pos) = i by omega] at hread
      rw [if_neg (by omega), if_pos hchunk, hread, if_pos (by omega)]
    · rw [if_neg hchunk]
      by_cases hin : pos ≤ i ∧ i < stop
      · rw [if_pos (by omega), if_pos hin]
      · rw [if_neg (by omega), if_neg hin]
  | case3 dst pos hge => rw [if_neg (by omega)]

/-- Copying extents puts them all in place. -/
theorem valueAt_foldl_copyExtent {extents : List (Nat × Nat)}
    (hin : ∀ x ∈ extents, x.2 ≤ src.length) :
    valueAt (extents.foldl (fun dst x => copyExtent o src dst x.1 x.2) dst) i =
      if ∃ x ∈ extents, x.1 ≤ i ∧ i < x.2 then valueAt src i else valueAt dst i := by
  induction extents generalizing dst with
  | nil => simp
  | cons x extents ih =>
    rw [List.foldl_cons, ih fun y hy => hin y (List.mem_cons_of_mem _ hy),
      valueAt_copyExtent (hin x List.mem_cons_self)]
    by_cases hrest : ∃ y ∈ extents, y.1 ≤ i ∧ i < y.2
    · obtain ⟨y, hy, hcover⟩ := hrest
      rw [if_pos ⟨y, hy, hcover⟩, if_pos ⟨y, List.mem_cons_of_mem _ hy, hcover⟩]
    · rw [if_neg hrest]
      by_cases hx : x.1 ≤ i ∧ i < x.2
      · rw [if_pos hx, if_pos ⟨x, List.mem_cons_self, hx⟩]
      · have hnone : ¬ ∃ y ∈ x :: extents, y.1 ≤ i ∧ i < y.2 := by
          rintro ⟨y, hy, hcover⟩
          rcases List.mem_cons.mp hy with rfl | hy
          · exact hx hcover
          · exact hrest ⟨y, hy, hcover⟩
        rw [if_neg hx, if_neg hnone]

/-- **Extents that leave out zeros alone** give the file. -/
theorem copyExtents_exact {extents : List (Nat × Nat)} (hin : ∀ x ∈ extents, x.2 ≤ src.length)
    (hcover : ∀ i, i < src.length → valueAt src i ≠ 0 → ∃ x ∈ extents, x.1 ≤ i ∧ i < x.2) :
    copyExtents o src [] extents src.length = src := by
  apply ext_valueAt length_ftruncate
  intro i hi
  have hi : i < src.length := hi.trans_eq length_ftruncate
  show valueAt (ftruncate _ src.length) i = valueAt src i
  rw [valueAt_ftruncate, if_pos hi, valueAt_foldl_copyExtent hin]
  by_cases hdata : ∃ x ∈ extents, x.1 ≤ i ∧ i < x.2
  · rw [if_pos hdata]
  · rw [if_neg hdata, valueAt_of_length_le (Nat.zero_le i)]
    by_contra hne
    exact hdata (hcover i hi fun h => hne h.symm)

/-- **The extents of a truthful file system** leave out zeros alone. -/
theorem dataExtents_cover {room size : Nat} {extents : List (Nat × Nat)} (htrue : Truthful src m)
    (h : dataExtentsFrom m size room offset = some extents) :
    (∀ x ∈ extents, x.2 ≤ size) ∧
      ∀ i, offset ≤ i → i < size → valueAt src i ≠ 0 → ∃ x ∈ extents, x.1 ≤ i ∧ i < x.2 := by
  induction room generalizing offset extents with
  | zero =>
    unfold dataExtentsFrom at h
    split at h
    -- no data behind the offset
    · split at h
      · rename_i hnone
        cases h
        exact ⟨by simp, fun i hi _ hne => absurd (htrue.ended offset i hnone hi) hne⟩
      · cases h
      -- the next data starts there, and before it there are zeros
      · rename_i start hdata
        split at h
        · rename_i hpast
          cases h
          refine ⟨by simp, fun i hi hsize hne => ?_⟩
          exact absurd (htrue.passed offset start i hdata hi (by omega)) hne
        · -- one extent more than there is room for
          split at h
          · cases h
          · cases h
          · split at h <;> cases h
    · cases h
      exact ⟨by simp, fun i hi hsize => by omega⟩
  | succ room ih =>
    unfold dataExtentsFrom at h
    split at h
    · split at h
      · rename_i hnone
        cases h
        exact ⟨by simp, fun i hi _ hne => absurd (htrue.ended offset i hnone hi) hne⟩
      · cases h
      · rename_i start hdata
        split at h
        · rename_i hpast
          cases h
          refine ⟨by simp, fun i hi hsize hne => ?_⟩
          exact absurd (htrue.passed offset start i hdata hi (by omega)) hne
        · split at h
          · cases h
          · cases h
          · rename_i stop hhole
            split at h
            · cases h
            · obtain ⟨rest, hrest, rfl⟩ := Option.map_eq_some_iff.mp h
              obtain ⟨hin, hcover⟩ := ih hrest
              refine ⟨?_, fun i hi hsize hne => ?_⟩
              · intro x hx
                rcases List.mem_cons.mp hx with rfl | hx
                · exact Nat.min_le_right stop size
                · exact hin x hx
              · -- below the extent there are zeros, and behind it the others cover the rest
                have hstart : start ≤ i := by
                  by_contra hlow
                  exact hne (htrue.passed offset start i hdata hi (by omega))
                by_cases hstop : i < stop
                · exact ⟨(start, min stop size), List.mem_cons_self, hstart, by
                    show i < min stop size
                    omega⟩
                · obtain ⟨x, hx, hxi⟩ := hcover i (by omega) hsize hne
                  exact ⟨x, List.mem_cons_of_mem _ hx, hxi⟩
    · cases h
      exact ⟨by simp, fun i hi hsize => by omega⟩

/-- What is copied up to a place is copied past it by writing what was read there. -/
theorem copied_writeAll (hcopied : ∀ i, i < pos → valueAt dst i = valueAt src i) :
    ∀ i, i < pos + (pread o src asked pos).length →
      valueAt (writeAll o dst (pread o src asked pos) pos) i = valueAt src i := by
  intro i hi
  rw [valueAt_writeAll]
  by_cases hlow : i < pos
  · rw [if_neg (by omega)]
    exact hcopied i hlow
  · rw [if_pos (by omega), valueAt_pread (by omega)]
    congr 1
    omega

/-- The scan gives the file: what is before the place it is at has been copied, and nothing is
written behind it. -/
theorem copySkippingZeros_exact (hlen : dst.length ≤ pos) (hpos : pos ≤ src.length)
    (hcopied : ∀ i, i < pos → valueAt dst i = valueAt src i) :
    copySkippingZeros o src dst pos = src := by
  fun_induction copySkippingZeros o src dst pos with
  | case1 dst pos chunk hnil =>
    have hend : pos = src.length := Nat.le_antisymm hpos (pread_eq_nil hnil)
    apply ext_valueAt (length_ftruncate.trans hend)
    intro i hi
    rw [length_ftruncate] at hi
    rw [valueAt_ftruncate, if_pos hi, hcopied i hi]
  | case2 dst pos chunk hne hzero ih =>
    have hrest : chunk.length ≤ src.length - pos := length_pread_le_rest o src bufSize pos
    refine ih (by omega) (by omega) fun i hi => ?_
    by_cases hlow : i < pos
    · exact hcopied i hlow
    · -- zeros were read here, and the copy has nothing yet
      have hread : valueAt chunk (i - pos) = valueAt src (pos + (i - pos)) :=
        valueAt_pread (show i - pos < chunk.length by omega)
      have hnull : valueAt chunk (i - pos) = 0 := by
        unfold valueAt
        rw [List.getD_eq_getElem _ _ (show i - pos < chunk.length by omega)]
        exact of_decide_eq_true (List.all_eq_true.mp hzero _ (List.getElem_mem _))
      rw [show pos + (i - pos) = i by omega] at hread
      rw [valueAt_of_length_le (show dst.length ≤ i by omega), ← hread, hnull]
  | case3 dst pos chunk hne hdata ih =>
    have hrest : chunk.length ≤ src.length - pos := length_pread_le_rest o src bufSize pos
    have hwrite : (writeAll o dst chunk pos).length = max dst.length (pos + chunk.length) :=
      length_writeAll hne
    exact ih (by omega) (by omega) (copied_writeAll hcopied)

/-- So does the copy through. -/
theorem copyFileObj_exact (hlen : dst.length = pos) (hpos : pos ≤ src.length)
    (hcopied : ∀ i, i < pos → valueAt dst i = valueAt src i) :
    copyFileObj o src dst pos = src := by
  fun_induction copyFileObj o src dst pos with
  | case1 dst pos chunk hnil =>
    have hend : pos = src.length := Nat.le_antisymm hpos (pread_eq_nil hnil)
    apply ext_valueAt (hlen.trans hend)
    intro i hi
    exact hcopied i (by omega)
  | case2 dst pos chunk hne ih =>
    have hrest : chunk.length ≤ src.length - pos := length_pread_le_rest o src bufSize pos
    have hwrite : (writeAll o dst chunk pos).length = max dst.length (pos + chunk.length) :=
      length_writeAll hne
    exact ih (by omega) (by omega) (copied_writeAll hcopied)

end Loops

/-! ## A copy -/

/-- **A copy is exact**: it has the bytes and the length of its source, however the source is
stored, whatever the file system says of that without lying, and however the calls are split. -/
theorem copyData_exact {o : Splits} {m : SeekMap} {srcSt : Option Nat} {src : Bytes}
    (htrue : Truthful src m) : copyData o m srcSt src = src := by
  have hscan : copySkippingZeros o src [] 0 = src :=
    copySkippingZeros_exact (Nat.le_refl 0) (Nat.zero_le _) fun i hi => absurd hi (Nat.not_lt_zero i)
  unfold copyData
  split
  · dsimp only
    split
    · rename_i extents hextents
      split
      · have hfrom : dataExtentsFrom m src.length maxExtents 0 = some extents := by
          unfold dataExtents at hextents
          split at hextents
          · exact hextents
          · cases hextents
        obtain ⟨hin, hcover⟩ := dataExtents_cover htrue hfrom
        exact copyExtents_exact hin fun i hi hne => hcover i (Nat.zero_le i) hi hne
      · exact hscan
    · exact hscan
  · exact copyFileObj_exact rfl (Nat.zero_le _) fun i hi => absurd hi (Nat.not_lt_zero i)

/-- A file of two bytes between two holes, and what a file system that keeps blocks of four says of
it. -/
def blockMap : SeekMap where
  supported := true
  data := fun offset => if offset ≤ 7 then .at (max offset 4) else .none
  hole := fun offset => if offset < 8 then .at 8 else .at 12

/-- A file with holes at both ends, copied a byte at a time. -/
theorem copyData_exact_holes :
    copyData ⟨fun _ _ => 1, fun _ _ => 1⟩ blockMap (some 0) [0, 0, 0, 0, 7, 9, 0, 0, 0, 0, 0, 0] =
      [0, 0, 0, 0, 7, 9, 0, 0, 0, 0, 0, 0] := by
  apply copyData_exact
  have hlow : ∀ i, i < 4 → valueAt ([0, 0, 0, 0, 7, 9, 0, 0, 0, 0, 0, 0] : Bytes) i = 0 := by decide
  have hhigh : ∀ i, 8 ≤ i → valueAt ([0, 0, 0, 0, 7, 9, 0, 0, 0, 0, 0, 0] : Bytes) i = 0 := by
    intro i hi
    by_cases hend : i < 12
    · have hall : ∀ i, i < 12 → 8 ≤ i →
          valueAt ([0, 0, 0, 0, 7, 9, 0, 0, 0, 0, 0, 0] : Bytes) i = 0 := by decide
      exact hall i hend hi
    · exact valueAt_of_length_le (show 12 ≤ i by omega)
  constructor
  · intro offset start i hdata hi hstart
    unfold blockMap at hdata
    dsimp only at hdata
    split at hdata
    · cases hdata
      exact hlow i (by omega)
    · cases hdata
  · intro offset i hdata hi
    unfold blockMap at hdata
    dsimp only at hdata
    split at hdata
    · cases hdata
    · exact hhigh i (by omega)

end CopyData

end ProotDistro
