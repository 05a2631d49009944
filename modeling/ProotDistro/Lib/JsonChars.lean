import ProotDistro.Lib.Json
import ProotDistro.Lib.JsonString

/-!
# Texts of characters that go through JSON

Most texts are lists of `Char`, and no `Char` is a surrogate. Where a text may hold lone surrogates, the
last 2048 characters stand for them: these are for private use, and no text is taken to hold them
themselves. `rereadChars` is what such a text is after it was written as JSON and read.

* **`readString_points`** — it is what the reader of JSON makes of what the writer wrote.
* **`rereadChars_eq_self`** — a text in which no high surrogate stands directly before a low one is as
  it was.
* **`rereadChars_append`** — what stands on two sides of another character is read on its own.
-/

namespace JsonText

/-! ## The surrogates among the characters -/

/-- The first of the characters that stand for the surrogates. -/
def firstMark : Nat := 0x10f800

/-- The code point a character stands for. -/
def pointOf (c : Char) : CodePoint :=
  if firstMark ≤ c.toNat then Fin.ofNat 0x110000 (c.toNat - firstMark + 0xd800) else ofChar c

/-- The character that stands for a code point. -/
def charOf (p : CodePoint) : Char :=
  if 0xd800 ≤ p.val ∧ p.val < 0xe000 then Char.ofNat (p.val - 0xd800 + firstMark) else Char.ofNat p.val

/-- A character is found again from its code point. -/
theorem charOf_pointOf (c : Char) : charOf (pointOf c) = c := by
  have hvalid := c.valid
  have hlt : c.toNat < 0x110000 := by
    rcases hvalid with h | h
    · exact lt_trans h (by decide)
    · exact h.2
  unfold pointOf
  split
  · rename_i hmark
    have hmark : 0x10f800 ≤ c.toNat := hmark
    have hval : (Fin.ofNat 0x110000 (c.toNat - firstMark + 0xd800)).val = c.toNat - 0x10f800 + 0xd800 :=
      Nat.mod_eq_of_lt (by unfold firstMark; omega)
    unfold charOf
    rw [hval, if_pos (by omega), show c.toNat - 0x10f800 + 0xd800 - 0xd800 + firstMark = c.toNat by
      unfold firstMark; omega, Char.ofNat_toNat]
  · have hval : (ofChar c).val = c.toNat := Nat.mod_eq_of_lt hlt
    have hplain : ¬ (0xd800 ≤ c.toNat ∧ c.toNat < 0xe000) := by
      rintro ⟨hle, hge⟩
      rcases hvalid with h | h
      · exact absurd h (not_lt.mpr hle)
      · exact absurd hge (not_lt.mpr h.1)
    unfold charOf
    rw [hval, if_neg hplain, Char.ofNat_toNat]

def points (s : List Char) : CodePoints := s.map pointOf

def chars (s : CodePoints) : List Char := s.map charOf

theorem chars_points (s : List Char) : chars (points s) = s := by
  unfold chars points
  rw [List.map_map]
  conv => rhs; rw [← List.map_id s]
  exact List.map_congr_left fun c _ => charOf_pointOf c

/-- A text that was written as JSON and read. -/
def rereadChars (s : List Char) : List Char := chars (pair (points s))

/-- The reader finds it behind the quote that opens what the writer wrote. -/
theorem readString_points (s : List Char) (t : CodePoints) :
    ∃ u, dumpString (points s) ++ t = quote :: u ∧
      (readString u).map (fun x => (chars x.1, x.2)) = some (rereadChars s, t) := by
  obtain ⟨u, hwritten, hread⟩ := readString_dumpString (points s) t
  refine ⟨u, hwritten, ?_⟩
  rw [hread]
  rfl

/-- A high surrogate stands directly before a low one. -/
def Joins (s : List Char) : Prop :=
  ∃ front hi lo rest, s = front ++ hi :: lo :: rest ∧ isHigh (pointOf hi) = true ∧ isLow (pointOf lo) = true

section Joins

variable {c d : Char} {s : List Char}

/-- The empty string has no pair. -/
theorem not_joins_nil : ¬ Joins [] := by
  rintro ⟨front, hi, lo, rest, heq, -⟩
  cases front <;> cases heq

theorem not_joins_singleton : ¬ Joins [c] := by
  rintro ⟨front, hi, lo, rest, heq, -⟩
  rcases front with _ | ⟨x, front⟩
  · cases heq
  · cases front <;> cases heq

/-- A pair is in front or further on. -/
theorem joins_cons :
    Joins (c :: d :: s) ↔ (isHigh (pointOf c) = true ∧ isLow (pointOf d) = true) ∨ Joins (d :: s) := by
  constructor
  · rintro ⟨front, hi, lo, rest, heq, hhigh, hlow⟩
    rcases front with _ | ⟨x, front⟩
    · cases heq
      exact .inl ⟨hhigh, hlow⟩
    · exact .inr ⟨front, hi, lo, rest, (List.cons.inj heq).2, hhigh, hlow⟩
  · rintro (⟨hhigh, hlow⟩ | ⟨front, hi, lo, rest, heq, hhigh, hlow⟩)
    · exact ⟨[], c, d, s, rfl, hhigh, hlow⟩
    · exact ⟨c :: front, hi, lo, rest, by rw [heq]; rfl, hhigh, hlow⟩

instance decidableJoins : DecidablePred Joins
  | [] => .isFalse not_joins_nil
  | [_] => .isFalse not_joins_singleton
  | _ :: d :: s =>
    have := decidableJoins (d :: s)
    decidable_of_iff _ joins_cons.symm

end Joins

/-- **A text without two surrogates that join** is read as it was. -/
theorem rereadChars_eq_self {s : List Char} (h : ¬ Joins s) : rereadChars s = s := by
  have hpair : ∀ s, ¬ Joins s → pair (points s) = points s := by
    intro s
    induction s with
    | nil => exact fun _ => rfl
    | cons c s ih =>
      intro h
      cases s with
      | nil => rfl
      | cons d s =>
        rw [joins_cons, not_or] at h
        show (if isHigh (pointOf c) && isLow (pointOf d) then _ else pointOf c :: pair (points (d :: s))) = _
        rw [if_neg, ih h.2]
        · rfl
        · intro hboth
          exact h.1 (Bool.and_eq_true_iff.mp hboth)
  unfold rereadChars
  rw [hpair s h, chars_points]

/-- A character that is no surrogate joins nothing. -/
theorem pair_append {s t : CodePoints} {c : CodePoint} (hhigh : isHigh c = false) (hlow : isLow c = false) :
    pair (s ++ c :: t) = pair s ++ c :: pair t := by
  have hcons : pair (c :: t) = c :: pair t := by
    cases t with
    | nil => rfl
    | cons d t =>
      show (if isHigh c && isLow d then _ else c :: pair (d :: t)) = _
      rw [hhigh]
      rfl
  fun_induction pair s with
  | case1 => exact hcons
  | case2 d =>
    show (if isHigh d && isLow c then _ else d :: pair (c :: t)) = _
    rw [hlow, Bool.and_false, hcons]
    rfl
  | case3 d e s hjoin ih =>
    show (if isHigh d && isLow e then combine d e :: pair (s ++ c :: t) else _) = _
    rw [if_pos hjoin, ih]
    rfl
  | case4 d e s hnot ih =>
    show (if isHigh d && isLow e then _ else d :: pair (e :: s ++ c :: t)) = _
    rw [if_neg hnot, ih]
    rfl

/-- **What stands on two sides of a character** that is no surrogate is read on its own. -/
theorem rereadChars_append {s t : List Char} {c : Char} (hhigh : isHigh (pointOf c) = false)
    (hlow : isLow (pointOf c) = false) : rereadChars (s ++ c :: t) = rereadChars s ++ c :: rereadChars t := by
  unfold rereadChars points chars
  rw [List.map_append, List.map_cons, pair_append hhigh hlow, List.map_append, List.map_cons, charOf_pointOf]

/-- What is in a text that was read was there, or lies beyond the basic plane. -/
theorem mem_pair {s : CodePoints} {c : CodePoint} (h : c ∈ pair s) : c ∈ s ∨ 0x10000 ≤ c.val := by
  fun_induction pair s with
  | case1 => cases h
  | case2 d => exact .inl h
  | case3 d e s hjoin ih =>
    rcases List.mem_cons.mp h with rfl | hmem
    · right
      rw [Bool.and_eq_true] at hjoin
      obtain ⟨hd, he⟩ := hjoin
      unfold isHigh at hd
      unfold isLow at he
      simp only [Bool.and_eq_true, decide_eq_true_eq] at hd he
      show 0x10000 ≤ (0x10000 + (d.val - 0xd800) * 1024 + (e.val - 0xdc00)) % 0x110000
      rw [Nat.mod_eq_of_lt (by omega)]
      omega
    · exact (ih hmem).imp_left fun hs => List.mem_cons_of_mem _ (List.mem_cons_of_mem _ hs)
  | case4 d e s hnot ih =>
    rcases List.mem_cons.mp h with rfl | hmem
    · exact .inl List.mem_cons_self
    · exact (ih hmem).imp_left fun hs => List.mem_cons_of_mem _ hs

/-- A character of the basic plane that is no surrogate does not appear by being read. -/
theorem mem_of_mem_rereadChars {s : List Char} {c : Char} (hc : c.toNat < 0xd800) (h : c ∈ rereadChars s) :
    c ∈ s := by
  obtain ⟨p, hp, rfl⟩ := List.mem_map.mp h
  rcases mem_pair hp with hmem | hbeyond
  · obtain ⟨d, hd, rfl⟩ := List.mem_map.mp hmem
    rwa [charOf_pointOf]
  · have hvalid : p.val.isValidChar := .inr ⟨by omega, p.isLt⟩
    have hval : charOf p = Char.ofNatAux p.val hvalid := by
      unfold charOf Char.ofNat
      rw [if_neg (by omega), dif_pos hvalid]
    rw [hval] at hc
    have hc : p.val < 0xd800 := hc
    omega

/-! ## Values -/

mutual

/-- A value that was written as JSON and read. -/
def rereadValue : Json → Json
  | .str s => .str (rereadChars s)
  | .arr items => .arr (rereadElems items)
  | .obj fields => .obj (Dict.ofPairs (rereadEntries fields))
  | j => j

def rereadElems : List Json → List Json
  | [] => []
  | j :: items => rereadValue j :: rereadElems items

def rereadEntries : List (List Char × Json) → List (List Char × Json)
  | [] => []
  | (k, j) :: fields => (rereadChars k, rereadValue j) :: rereadEntries fields

end

end JsonText
