import ProotDistro.Lib.CodePoint

/-!
# Strings in a JSON text

How a string is written in ASCII and read back. A character beyond the basic plane is written as the
escapes of two surrogates, and the escapes of two surrogates are read as the one character, also where
the string had two. `pair` is what is left of a string that has been written and read.

* **`readString_dumpString`** — a string that was written is read back with its surrogates paired.
* **`escape_pair`** — once they are paired, the string is written as before.
-/

namespace JsonText

def quote : CodePoint := ofChar '"'
def backslash : CodePoint := ofChar '\\'

/-! ## Surrogates -/

def isHigh (c : CodePoint) : Bool := 0xd800 ≤ c.val && c.val < 0xdc00

def isLow (c : CodePoint) : Bool := 0xdc00 ≤ c.val && c.val < 0xe000

/-- The character two surrogates stand for. -/
def combine (hi lo : CodePoint) : CodePoint :=
  Fin.ofNat 0x110000 (0x10000 + (hi.val - 0xd800) * 1024 + (lo.val - 0xdc00))

/-- The surrogates of a character beyond the basic plane. -/
def highOf (c : CodePoint) : CodePoint := Fin.ofNat 0x110000 (0xd800 + (c.val - 0x10000) / 1024)
def lowOf (c : CodePoint) : CodePoint := Fin.ofNat 0x110000 (0xdc00 + (c.val - 0x10000) % 1024)

/-- A string whose surrogates are paired: a high one directly before a low one is one character. -/
def pair : CodePoints → CodePoints
  | [] => []
  | [c] => [c]
  | c :: d :: s => if isHigh c && isLow d then combine c d :: pair s else c :: pair (d :: s)

/-! ## Writing -/

def hexDigit (n : Nat) : CodePoint := ofChar ("0123456789abcdef".toList.getD (n % 16) '0')

/-- An escape of a character of the basic plane. -/
def unicodeEscape (c : CodePoint) : CodePoints :=
  [backslash, ofChar 'u', hexDigit (c.val / 4096), hexDigit (c.val / 256), hexDigit (c.val / 16),
    hexDigit c.val]

/-- The characters with an escape of their own, and the letter of it. -/
def shortEscapes : List (CodePoint × CodePoint) :=
  [('\\', '\\'), ('"', '"'), ('\x08', 'b'), ('\x0c', 'f'), ('\n', 'n'), ('\r', 'r'), ('\t', 't')].map
    fun x => (ofChar x.1, ofChar x.2)

def isPrintable (c : CodePoint) : Bool := 0x20 ≤ c.val && c.val ≤ 0x7e

def escapeChar (c : CodePoint) : CodePoints :=
  match shortEscapes.lookup c with
  | some e => [backslash, e]
  | none =>
    if isPrintable c then [c]
    else if c.val < 0x10000 then unicodeEscape c
    else unicodeEscape (highOf c) ++ unicodeEscape (lowOf c)

def escape (s : CodePoints) : CodePoints := s.flatMap escapeChar

/-- A string as it is written. -/
def dumpString (s : CodePoints) : CodePoints := quote :: (escape s ++ [quote])

/-! ## Reading -/

/-- What stands between the quotes: a character, or a code unit by its number. -/
inductive Piece where
  | char (c : CodePoint)
  | unit (c : CodePoint)
  deriving DecidableEq

inductive StringMode where
  | plain
  /-- after a backslash -/
  | escape
  /-- within the digits of a code unit, `left` of them still to come -/
  | hex (left value : Nat)

def hexValue (c : CodePoint) : Option Nat :=
  if ofChar '0' ≤ c ∧ c ≤ ofChar '9' then some (c.val - 48)
  else if ofChar 'a' ≤ c ∧ c ≤ ofChar 'f' then some (c.val - 87)
  else if ofChar 'A' ≤ c ∧ c ≤ ofChar 'F' then some (c.val - 55)
  else none

/-- What a letter after a backslash stands for. -/
def unescape (e : CodePoint) : Option CodePoint :=
  ((shortEscapes ++ [(ofChar '/', ofChar '/')]).map fun x => (x.2, x.1)).lookup e

def push (p : Piece) (x : List Piece × CodePoints) : List Piece × CodePoints := (p :: x.1, x.2)

/-- The pieces up to the quote that closes the string, and what follows it. -/
def readPieces : StringMode → CodePoints → Option (List Piece × CodePoints)
  | _, [] => none
  | .plain, c :: t =>
    if c = quote then some ([], t)
    else if c = backslash then readPieces .escape t
    else if c.val < 0x20 then none
    else (readPieces .plain t).map (push (.char c))
  | .escape, e :: t =>
    if e = ofChar 'u' then readPieces (.hex 4 0) t
    else
      match unescape e with
      | none => none
      | some c => (readPieces .plain t).map (push (.char c))
  | .hex left value, c :: t =>
    match hexValue c with
    | none => none
    | some d =>
      if left ≤ 1 then
        (readPieces .plain t).map (push (.unit (Fin.ofNat 0x110000 (16 * value + d))))
      else readPieces (.hex (left - 1) (16 * value + d)) t

/-- The string the pieces make. -/
def join : List Piece → CodePoints
  | [] => []
  | .char c :: ps => c :: join ps
  | [.unit c] => [c]
  | .unit c :: .char d :: ps => c :: join (.char d :: ps)
  | .unit c :: .unit d :: ps =>
    if isHigh c && isLow d then combine c d :: join ps else c :: join (.unit d :: ps)

/-- A string, read behind the quote that opens it. -/
def readString (t : CodePoints) : Option (CodePoints × CodePoints) :=
  (readPieces .plain t).map fun x => (join x.1, x.2)

/-! ## A string that was written -/

section Written

variable {c d hi lo : CodePoint} {s t : CodePoints} {ps : List Piece}

/-- The range of the high surrogates. -/
theorem bounds_of_isHigh (h : isHigh c = true) : 0xd800 ≤ c.val ∧ c.val < 0xdc00 := by
  unfold isHigh at h
  rw [Bool.and_eq_true, decide_eq_true_eq, decide_eq_true_eq] at h
  exact h

/-- That of the low ones. -/
theorem bounds_of_isLow (h : isLow c = true) : 0xdc00 ≤ c.val ∧ c.val < 0xe000 := by
  unfold isLow at h
  rw [Bool.and_eq_true, decide_eq_true_eq, decide_eq_true_eq] at h
  exact h

/-- What two surrogates are together. -/
theorem val_combine (hhi : isHigh hi = true) (hlo : isLow lo = true) :
    (combine hi lo).val = 0x10000 + (hi.val - 0xd800) * 1024 + (lo.val - 0xdc00) := by
  have hhigh := bounds_of_isHigh hhi
  have hlow := bounds_of_isLow hlo
  show (0x10000 + (hi.val - 0xd800) * 1024 + (lo.val - 0xdc00)) % 0x110000 = _
  apply Nat.mod_eq_of_lt
  omega

/-- The high surrogate an astral character is written with. -/
theorem val_highOf (hc : 0x10000 ≤ c.val) : (highOf c).val = 0xd800 + (c.val - 0x10000) / 1024 := by
  have hlt := c.isLt
  show (0xd800 + (c.val - 0x10000) / 1024) % 0x110000 = _
  apply Nat.mod_eq_of_lt
  omega

/-- The low one. -/
theorem val_lowOf : (lowOf c).val = 0xdc00 + (c.val - 0x10000) % 1024 := by
  show (0xdc00 + (c.val - 0x10000) % 1024) % 0x110000 = _
  apply Nat.mod_eq_of_lt
  omega

/-- The first is a high surrogate. -/
theorem isHigh_highOf (hc : 0x10000 ≤ c.val) : isHigh (highOf c) = true := by
  have hlt := c.isLt
  unfold isHigh
  rw [val_highOf hc, Bool.and_eq_true, decide_eq_true_eq, decide_eq_true_eq]
  omega

/-- The second is a low one. -/
theorem isLow_lowOf : isLow (lowOf c) = true := by
  unfold isLow
  rw [val_lowOf, Bool.and_eq_true, decide_eq_true_eq, decide_eq_true_eq]
  omega

/-- No surrogate is both. -/
theorem isLow_eq_false_of_isHigh (h : isHigh c = true) : isLow c = false := by
  have hhigh := bounds_of_isHigh h
  unfold isLow
  rw [Bool.and_eq_false_iff, decide_eq_false_iff_not]
  left
  omega

/-- The surrogates of a character stand for it. -/
theorem combine_surrogates (hc : 0x10000 ≤ c.val) : combine (highOf c) (lowOf c) = c := by
  have hlt := c.isLt
  apply Fin.ext
  rw [val_combine (isHigh_highOf hc) isLow_lowOf, val_highOf hc, val_lowOf]
  omega

/-- The character two surrogates stand for has them. -/
theorem highOf_combine (hhi : isHigh hi = true) (hlo : isLow lo = true) :
    highOf (combine hi lo) = hi ∧ lowOf (combine hi lo) = lo := by
  have hval := val_combine hhi hlo
  have hhigh := bounds_of_isHigh hhi
  have hlow := bounds_of_isLow hlo
  constructor
  · apply Fin.ext
    rw [val_highOf (by omega), hval]
    omega
  · apply Fin.ext
    rw [val_lowOf, hval]
    omega

/-- A short escape is one of the table. -/
theorem mem_shortEscapes {e : CodePoint} (h : shortEscapes.lookup c = some e) : (c, e) ∈ shortEscapes := by
  obtain ⟨l₁, l₂, hsplit, -⟩ := List.lookup_eq_some_iff.mp h
  rw [hsplit]
  exact List.mem_append_right _ List.mem_cons_self

/-- Beyond the printable characters of ASCII the short escapes have ended. -/
theorem lookup_shortEscapes (h : 0x7f ≤ c.val) : shortEscapes.lookup c = none := by
  rw [List.lookup_eq_none_iff]
  intro x hx
  have hall : shortEscapes.all (fun x => decide (x.1.val < 0x7f)) = true := by decide
  have hlt := of_decide_eq_true (List.all_eq_true.mp hall x hx)
  rw [bne_iff_ne]
  intro heq
  rw [heq] at h
  omega

/-- Nothing from DEL on is written as it is. -/
theorem not_isPrintable (h : 0x7f ≤ c.val) : ¬ (isPrintable c = true) := by
  unfold isPrintable
  rw [Bool.and_eq_true, decide_eq_true_eq, decide_eq_true_eq]
  omega

/-- Below the astral plane it is written in one escape. -/
theorem escapeChar_unit (h₁ : 0x7f ≤ c.val) (h₂ : c.val < 0x10000) : escapeChar c = unicodeEscape c := by
  unfold escapeChar
  rw [lookup_shortEscapes h₁]
  dsimp only
  rw [if_neg (not_isPrintable h₁), if_pos h₂]

/-- In the astral planes in two. -/
theorem escapeChar_astral (h : 0x10000 ≤ c.val) :
    escapeChar c = unicodeEscape (highOf c) ++ unicodeEscape (lowOf c) := by
  unfold escapeChar
  rw [lookup_shortEscapes (by omega)]
  dsimp only
  rw [if_neg (not_isPrintable (by omega)), if_neg (by omega)]

/-- **The surrogates of a string may be paired**: it is written as before. -/
theorem escape_pair (s : CodePoints) : escape (pair s) = escape s := by
  fun_induction pair s with
  | case1 => rfl
  | case2 c => rfl
  | case3 c d s hsurrogates ih =>
    rw [Bool.and_eq_true] at hsurrogates
    obtain ⟨hhigh, hlow⟩ := hsurrogates
    have hastral : 0x10000 ≤ (combine c d).val := by
      rw [val_combine hhigh hlow]
      omega
    have hc : escapeChar c = unicodeEscape c := by
      have hbounds := bounds_of_isHigh hhigh
      exact escapeChar_unit (by omega) (by omega)
    have hd : escapeChar d = unicodeEscape d := by
      have hbounds := bounds_of_isLow hlow
      exact escapeChar_unit (by omega) (by omega)
    obtain ⟨hhi, hlo⟩ := highOf_combine hhigh hlow
    unfold escape at ih ⊢
    rw [List.flatMap_cons, List.flatMap_cons, List.flatMap_cons, ih, escapeChar_astral hastral, hhi, hlo,
      hc, hd, List.append_assoc]
  | case4 c d s hnot ih =>
    unfold escape at ih ⊢
    rw [List.flatMap_cons, ih, @List.flatMap_cons _ _ c]

/-! ### Its pieces -/

/-- What is read of a character. -/
def piecesOf (c : CodePoint) : List Piece :=
  match shortEscapes.lookup c with
  | some _ => [.char c]
  | none =>
    if isPrintable c then [.char c]
    else if c.val < 0x10000 then [.unit c]
    else [.unit (highOf c), .unit (lowOf c)]

/-- One escape is one piece. -/
theorem piecesOf_unit (h₁ : 0x7f ≤ c.val) (h₂ : c.val < 0x10000) : piecesOf c = [.unit c] := by
  unfold piecesOf
  rw [lookup_shortEscapes h₁]
  dsimp only
  rw [if_neg (not_isPrintable h₁), if_pos h₂]

/-- A digit is written of the last four bits. -/
theorem hexDigit_mod (n : Nat) : hexDigit n = hexDigit (n % 16) := by
  unfold hexDigit
  rw [Nat.mod_mod]

theorem hexValue_hexDigit (n : Nat) : hexValue (hexDigit n) = some (n % 16) := by
  have hall : ∀ d : Fin 16, hexValue (hexDigit d.val) = some d.val := by decide
  rw [hexDigit_mod]
  exact hall ⟨n % 16, Nat.mod_lt _ (by omega)⟩

/-- One digit of a code unit. -/
theorem readPieces_hex {left value n : Nat} (h : 1 < left) :
    readPieces (.hex left value) (hexDigit n :: t) = readPieces (.hex (left - 1) (16 * value + n % 16)) t := by
  rw [readPieces, hexValue_hexDigit]
  dsimp only
  rw [if_neg (by omega)]

/-- The reader takes an escape as one piece. -/
theorem readPieces_unicodeEscape (h : c.val < 0x10000) :
    readPieces .plain (unicodeEscape c ++ t) = (readPieces .plain t).map (push (.unit c)) := by
  have hvalue : Fin.ofNat 0x110000 (16 * (16 * (16 * (16 * 0 + c.val / 4096 % 16) + c.val / 256 % 16) +
      c.val / 16 % 16) + c.val % 16) = c := by
    apply Fin.ext
    show (16 * (16 * (16 * (16 * 0 + c.val / 4096 % 16) + c.val / 256 % 16) + c.val / 16 % 16) +
      c.val % 16) % 0x110000 = c.val
    omega
  show readPieces .plain (backslash :: ofChar 'u' :: hexDigit (c.val / 4096) :: hexDigit (c.val / 256) ::
    hexDigit (c.val / 16) :: hexDigit c.val :: t) = _
  rw [readPieces, if_neg (by decide), if_pos rfl, readPieces, if_pos rfl, readPieces_hex (by omega),
    readPieces_hex (by omega), readPieces_hex (by omega), readPieces, hexValue_hexDigit]
  dsimp only
  rw [if_pos (by omega), hvalue]

/-- It reads what a character is written with as the pieces of that character. -/
theorem readPieces_escapeChar (c : CodePoint) :
    readPieces .plain (escapeChar c ++ t) =
      (readPieces .plain t).map fun x => (piecesOf c ++ x.1, x.2) := by
  unfold escapeChar piecesOf
  cases hshort : shortEscapes.lookup c with
  | some e =>
    -- a short escape is read as the character it was written for
    have hall : shortEscapes.all (fun x => decide (x.2 ≠ ofChar 'u' ∧ unescape x.2 = some x.1)) = true := by
      decide
    obtain ⟨hu, hunescape⟩ := of_decide_eq_true (List.all_eq_true.mp hall _ (mem_shortEscapes hshort))
    show readPieces .plain (backslash :: e :: t) = _
    rw [readPieces, if_neg (by decide), if_pos rfl, readPieces, if_neg hu, hunescape]
    rfl
  | none =>
    dsimp only
    by_cases hprintable : isPrintable c = true
    · rw [if_pos hprintable, if_pos hprintable]
      rw [List.lookup_eq_none_iff] at hshort
      have hquote : c ≠ quote := by
        intro heq
        have hne := hshort (quote, quote) (by decide)
        exact bne_iff_ne.mp hne heq
      have hbackslash : c ≠ backslash := by
        intro heq
        have hne := hshort (backslash, backslash) (by decide)
        exact bne_iff_ne.mp hne heq
      unfold isPrintable at hprintable
      rw [Bool.and_eq_true, decide_eq_true_eq, decide_eq_true_eq] at hprintable
      show readPieces .plain (c :: t) = _
      rw [readPieces, if_neg hquote, if_neg hbackslash, if_neg (by omega)]
      rfl
    · rw [if_neg hprintable, if_neg hprintable]
      by_cases hbmp : c.val < 0x10000
      · rw [if_pos hbmp, if_pos hbmp, readPieces_unicodeEscape hbmp]
        rfl
      · have hhigh : (highOf c).val < 0x10000 := by
          have hlt := c.isLt
          rw [val_highOf (by omega)]
          omega
        have hlow : (lowOf c).val < 0x10000 := by
          rw [val_lowOf]
          omega
        rw [if_neg hbmp, if_neg hbmp, List.append_assoc, readPieces_unicodeEscape hhigh,
          readPieces_unicodeEscape hlow, Option.map_map]
        rfl

/-- So it reads a string up to its closing quote. -/
theorem readPieces_escape (s : CodePoints) :
    readPieces .plain (escape s ++ quote :: t) = some (s.flatMap piecesOf, t) := by
  induction s with
  | nil =>
    show readPieces .plain (quote :: t) = _
    rw [readPieces, if_pos rfl]
    rfl
  | cons c s ih =>
    unfold escape at ih ⊢
    rw [List.flatMap_cons, List.append_assoc, readPieces_escapeChar, ih]
    rfl

/-- Whether the first piece is a low surrogate by its number. -/
def startsLow : List Piece → Bool
  | .unit d :: _ => isLow d
  | _ => false

/-- A piece that is no first half is joined to nothing. -/
theorem join_unit (h : (isHigh c && startsLow ps) = false) : join (.unit c :: ps) = c :: join ps := by
  cases ps with
  | nil => rfl
  | cons p ps =>
    cases p with
    | char d => exact join.eq_4 c d ps
    | unit d =>
      have hd : ¬ ((isHigh c && isLow d) = true) := by
        show ¬ ((isHigh c && startsLow (.unit d :: ps)) = true)
        rw [h]
        simp
      rw [join, if_neg hd]

/-- The two halves of an astral character are joined to it. -/
theorem join_astral (hc : 0x10000 ≤ c.val) :
    join (.unit (highOf c) :: .unit (lowOf c) :: ps) = c :: join ps := by
  rw [join, isHigh_highOf hc, isLow_lowOf, combine_surrogates hc]
  rfl

/-- What follows a character is joined by itself, unless the two are surrogates. -/
theorem join_piecesOf (h : (isHigh c && startsLow ps) = false) : join (piecesOf c ++ ps) = c :: join ps := by
  unfold piecesOf
  split
  · show join (.char c :: ps) = _
    rw [join]
  · split
    · show join (.char c :: ps) = _
      rw [join]
    · split
      · exact join_unit h
      · rename_i hbmp
        exact join_astral (by omega)

/-- A piece of a character is a low surrogate where the character is. -/
theorem startsLow_piecesOf : startsLow (piecesOf d ++ ps) = true → isLow d = true := by
  unfold piecesOf
  split
  · intro h
    cases h
  · split
    · intro h
      cases h
    · split
      · exact id
      · rename_i hbmp
        intro h
        have hastral : 0x10000 ≤ d.val := by omega
        have hlow : isLow (highOf d) = true := h
        rw [isLow_eq_false_of_isHigh (isHigh_highOf hastral)] at hlow
        cases hlow

/-- Joining the pieces of a string is joining the surrogates of the string. -/
theorem join_pieces (s : CodePoints) : join (s.flatMap piecesOf) = pair s := by
  fun_induction pair s with
  | case1 => rfl
  | case2 c =>
    rw [List.flatMap_singleton, ← List.append_nil (piecesOf c), join_piecesOf (by simp [startsLow])]
    rfl
  | case3 c d s hsurrogates ih =>
    have hboth := hsurrogates
    rw [Bool.and_eq_true] at hboth
    have hhigh := bounds_of_isHigh hboth.1
    have hlow := bounds_of_isLow hboth.2
    rw [List.flatMap_cons, List.flatMap_cons, piecesOf_unit (by omega) (by omega),
      piecesOf_unit (by omega) (by omega)]
    show join (.unit c :: .unit d :: s.flatMap piecesOf) = _
    rw [join, if_pos hsurrogates, ih]
  | case4 c d s hnot ih =>
    have hlow : (isHigh c && startsLow ((d :: s).flatMap piecesOf)) = false := by
      rw [Bool.and_eq_false_iff, List.flatMap_cons]
      rw [Bool.and_eq_true, not_and, Bool.not_eq_true] at hnot
      cases hhigh : isHigh c with
      | false => exact .inl rfl
      | true =>
        right
        rw [Bool.eq_false_iff]
        intro hstarts
        have hd := startsLow_piecesOf hstarts
        rw [hnot hhigh] at hd
        cases hd
    rw [List.flatMap_cons, join_piecesOf hlow, ih]

/-- **A string that was written is read back** with its surrogates paired. -/
theorem readString_dumpString (s t : CodePoints) :
    ∃ u, dumpString s ++ t = quote :: u ∧ readString u = some (pair s, t) := by
  refine ⟨escape s ++ quote :: t, ?_, ?_⟩
  · unfold dumpString
    rw [List.cons_append, List.append_assoc]
    rfl
  · unfold readString
    rw [readPieces_escape, Option.map_some, join_pieces]

/-- What is paired stays as it is. -/
theorem pair_pair (s : CodePoints) : pair (pair s) = pair s := by
  have hpaired := @readPieces_escape [] (pair s)
  rw [escape_pair, readPieces_escape, Option.some.injEq, Prod.mk.injEq] at hpaired
  rw [← join_pieces (pair s), ← hpaired.1, join_pieces]

/-- A string without high surrogates is as it would be read. -/
theorem pair_eq_self (h : ∀ c ∈ s, isHigh c = false) : pair s = s := by
  fun_induction pair s with
  | case1 => rfl
  | case2 c => rfl
  | case3 c d s hsurrogates ih =>
    rw [h c List.mem_cons_self] at hsurrogates
    cases hsurrogates
  | case4 c d s hnot ih => rw [ih fun x hx => h x (List.mem_cons_of_mem _ hx)]

end Written

end JsonText
