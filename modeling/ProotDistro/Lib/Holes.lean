import Mathlib.Data.List.GetD
import Mathlib.Data.UInt
import Mathlib.Order.MinMax

/-!
# Files with holes

A file is the list of its bytes, and past its end there is nothing but zeros. Writing past the end
leaves a hole, which reads as zeros, and so does cutting a file to a length it does not have.

* **`ext_valueAt`** — two files of one length are the same if they read the same everywhere.
* **`valueAt_pwrite`** — a write changes what it covers.
-/

namespace Holes

variable {α : Type} [Zero α]

/-- What is read at a place, past the end as well. -/
def valueAt (file : List α) (i : Nat) : α := file.getD i 0

/-- The file with `data` from `offset` on. -/
def pwrite (file data : List α) (offset : Nat) : List α :=
  if data = [] then file
  else (file ++ List.replicate (offset - file.length) 0).take offset ++ data ++
    file.drop (offset + data.length)

/-- The file with a new length. -/
def ftruncate (file : List α) (length : Nat) : List α :=
  file.take length ++ List.replicate (length - file.length) 0

section Values

variable {file file' data : List α} {offset length i : Nat}

/-- Behind its end a file is zero. -/
theorem valueAt_of_length_le (h : file.length ≤ i) : valueAt file i = 0 :=
  List.getD_eq_default _ _ h

/-- A value of two files is one of the first up to its end. -/
theorem valueAt_append :
    valueAt (file ++ file') i =
      if i < file.length then valueAt file i else valueAt file' (i - file.length) := by
  unfold valueAt
  split
  · rename_i h
    exact List.getD_append _ _ _ _ h
  · rename_i h
    exact List.getD_append_right _ _ _ _ (Nat.le_of_not_lt h)

/-- What is cut off reads as zero. -/
theorem valueAt_take : valueAt (file.take length) i = if i < length then valueAt file i else 0 := by
  unfold valueAt
  rw [List.getD_eq_getElem?_getD, List.getD_eq_getElem?_getD, List.getElem?_take]
  split <;> rfl

/-- What is left is read from the cut on. -/
theorem valueAt_drop : valueAt (file.drop offset) i = valueAt file (offset + i) := by
  unfold valueAt
  rw [List.getD_eq_getElem?_getD, List.getD_eq_getElem?_getD, List.getElem?_drop]

/-- Zeros are what is read behind the end. -/
theorem valueAt_replicate (n : Nat) : valueAt (List.replicate n (0 : α)) i = 0 := by
  unfold valueAt
  rw [List.getD_eq_getElem?_getD, List.getElem?_replicate]
  split <;> rfl

/-- **Reading decides**: files of one length that read the same everywhere are the same. -/
theorem ext_valueAt (hlen : file.length = file'.length)
    (h : ∀ i, i < file.length → valueAt file i = valueAt file' i) : file = file' := by
  apply List.ext_getElem hlen
  intro i hi hi'
  have hval := h i hi
  unfold valueAt at hval
  rwa [List.getD_eq_getElem _ _ hi, List.getD_eq_getElem _ _ hi'] at hval

/-- A write lengthens a file up to its own end. -/
theorem length_pwrite (h : data ≠ []) :
    (pwrite file data offset).length = max file.length (offset + data.length) := by
  unfold pwrite
  rw [if_neg h, List.length_append, List.length_append, List.length_take, List.length_append,
    List.length_replicate, List.length_drop]
  omega

/-- **A write changes what it covers.** -/
theorem valueAt_pwrite :
    valueAt (pwrite file data offset) i =
      if offset ≤ i ∧ i < offset + data.length then valueAt data (i - offset)
      else valueAt file i := by
  unfold pwrite
  by_cases hdata : data = []
  · rw [if_pos hdata, hdata, List.length_nil, if_neg (by omega)]
  · rw [if_neg hdata]
    have hfront : (List.take offset (file ++ List.replicate (offset - file.length) 0)).length =
        offset := by
      rw [List.length_take, List.length_append, List.length_replicate]
      omega
    rw [List.append_assoc, valueAt_append, hfront]
    by_cases hlow : i < offset
    · rw [if_pos hlow, if_neg (by omega), valueAt_take, if_pos hlow, valueAt_append]
      split
      · rfl
      · rename_i hpast
        rw [valueAt_replicate, valueAt_of_length_le (Nat.le_of_not_lt hpast)]
    · rw [if_neg hlow, valueAt_append]
      by_cases hin : i - offset < data.length
      · rw [if_pos hin, if_pos (by omega)]
      · rw [if_neg hin, if_neg (by omega), valueAt_drop]
        congr 1
        omega

/-- A truncation sets the length. -/
theorem length_ftruncate : (ftruncate file length).length = length := by
  unfold ftruncate
  rw [List.length_append, List.length_take, List.length_replicate]
  omega

/-- It keeps what lies before. -/
theorem valueAt_ftruncate :
    valueAt (ftruncate file length) i = if i < length then valueAt file i else 0 := by
  unfold ftruncate
  rw [valueAt_append, List.length_take, valueAt_take]
  split
  · rename_i h
    rw [if_pos (show i < length by omega)]
  · rename_i h
    rw [valueAt_replicate]
    split
    · rw [valueAt_of_length_le (show file.length ≤ i by omega)]
    · rfl

end Values

end Holes
