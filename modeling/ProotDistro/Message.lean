import ProotDistro.Lib.CodePoint
import ProotDistro.Lib.Dict
import ProotDistro.Lib.PrefixCode
import Mathlib.Tactic.Ring

/-!
# `message.quote_path`: names made fit to print

A string is a list of code points, lone surrogates among them. `quotePath` spells the characters a
terminal or a stream cannot take as escapes, and a backslash as two.

* **`quoteCode`** — the escapes are a code: each is told from what follows it.
* **`quotePath_sound_iff`** — two strings never look the same, and the strings whose rendering holds
  nothing but characters that are taken literally are those without a C1 control.
-/

namespace ProotDistro

namespace Message

/-! ## Escapes -/

/-- `_QUOTE_MAP` -/
def quoteMap : Dict CodePoint CodePoints :=
  [(ofChar '\\', ofText "\\\\"), (ofChar '\n', ofText "\\n"), (ofChar '\r', ofText "\\r"),
    (ofChar '\t', ofText "\\t"), (0x1b, ofText "\\e")]

/-- One digit of `{:x}`. -/
def hexDigit (d : Nat) : CodePoint :=
  Fin.ofNat 0x110000 (if d < 10 then '0'.toNat + d else 'a'.toNat + (d - 10))

/-- `{:0wx}` of a number that has no more than so many digits. -/
def hex : Nat → Nat → CodePoints
  | 0, _ => []
  | width + 1, n => hexDigit (n / 16 ^ width % 16) :: hex width n

/-- C0 controls and DEL. -/
def isControl (ch : CodePoint) : Bool := ch.val < ' '.toNat || ch.val = 0x7f

def isSurrogate (ch : CodePoint) : Bool := 0xd800 ≤ ch.val && ch.val ≤ 0xdfff

/-- The loop body of `quote_path`. -/
def quoteChar (ch : CodePoint) : CodePoints :=
  match quoteMap.get ch with
  | some escaped => escaped
  | none =>
    if isControl ch then ofText "\\x" ++ hex 2 ch.val
    else if isSurrogate ch then ofText "\\u" ++ hex 4 ch.val
    else [ch]

/-- `quote_path` -/
def quotePath (text : CodePoints) : CodePoints := text.flatMap quoteChar

/-! ## Reading an escape back -/

def hexValue (ch : CodePoint) : Nat :=
  if ch.val ≤ '9'.toNat then ch.val - '0'.toNat else ch.val - 'a'.toNat + 10

/-- The number so many digits spell after `value`, and what follows them. -/
def readHex : Nat → Nat → CodePoints → Option (CodePoint × CodePoints)
  | 0, value, rest => some (Fin.ofNat 0x110000 value, rest)
  | _ + 1, _, [] => none
  | width + 1, value, ch :: rest => readHex width (16 * value + hexValue ch) rest

/-- The character at the front of a rendering, and what follows it. -/
def readQuoted : CodePoints → Option (CodePoint × CodePoints)
  | [] => none
  | ch :: rest =>
    if ch ≠ ofChar '\\' then some (ch, rest)
    else
      match rest with
      | [] => none
      | letter :: rest =>
        if letter = ofChar 'x' then readHex 2 0 rest
        else if letter = ofChar 'u' then readHex 4 0 rest
        else (quoteMap.find? fun e => e.2 = [ofChar '\\', letter]).map fun e => (e.1, rest)

/-- A hexadecimal digit is read back. -/
theorem hexValue_hexDigit {d : Nat} (h : d < 16) : hexValue (hexDigit d) = d := by
  have hall : ∀ d : Fin 16, hexValue (hexDigit d.val) = d.val := by decide
  exact hall ⟨d, h⟩

/-- Digits are read back, by induction on how many there are. -/
theorem readHex_hex {rest : CodePoints} (width n : Nat) :
    ∀ value, readHex width value (hex width n ++ rest) =
      some (Fin.ofNat 0x110000 (value * 16 ^ width + n % 16 ^ width), rest) := by
  induction width with
  | zero =>
    intro value
    rw [pow_zero, Nat.mul_one, Nat.mod_one, Nat.add_zero]
    rfl
  | succ width ih =>
    intro value
    have hdigit : hexValue (hexDigit (n / 16 ^ width % 16)) = n / 16 ^ width % 16 :=
      hexValue_hexDigit (Nat.mod_lt _ (by decide))
    have hvalue : (16 * value + n / 16 ^ width % 16) * 16 ^ width + n % 16 ^ width =
        value * 16 ^ (width + 1) + n % 16 ^ (width + 1) := by
      rw [Nat.mod_pow_succ, pow_succ]
      ring
    show readHex width (16 * value + hexValue (hexDigit (n / 16 ^ width % 16)))
      (hex width n ++ rest) = _
    rw [hdigit, ih, hvalue]

/-- A number of so many digits is read back whole. -/
theorem readHex_of_lt {rest : CodePoints} {width : Nat} {ch : CodePoint} (h : ch.val < 16 ^ width) :
    readHex width 0 (hex width ch.val ++ rest) = some (ch, rest) := by
  rw [readHex_hex, Nat.zero_mul, Nat.zero_add, Nat.mod_eq_of_lt h, Fin.ofNat_val_eq_self]

/-- What stands before the escapes of the table. -/
theorem readQuoted_of_mem {ch : CodePoint} {escaped rest : CodePoints}
    (h : (ch, escaped) ∈ quoteMap) : readQuoted (escaped ++ rest) = some (ch, rest) := by
  have hcases : (ch, escaped) = (ofChar '\\', ofText "\\\\") ∨
      (ch, escaped) = (ofChar '\n', ofText "\\n") ∨ (ch, escaped) = (ofChar '\r', ofText "\\r") ∨
      (ch, escaped) = (ofChar '\t', ofText "\\t") ∨ (ch, escaped) = (0x1b, ofText "\\e") := by
    simpa only [quoteMap, List.mem_cons, List.not_mem_nil, or_false] using h
  rcases hcases with h | h | h | h | h <;> (cases h; rfl)

/-- Every escape is read back, whatever follows it. -/
theorem readQuoted_quoteChar (ch : CodePoint) (rest : CodePoints) :
    readQuoted (quoteChar ch ++ rest) = some (ch, rest) := by
  unfold quoteChar
  cases hget : quoteMap.get ch with
  | some escaped => exact readQuoted_of_mem (Dict.mem_of_get hget)
  | none =>
    dsimp only
    by_cases hcontrol : isControl ch = true
    · rw [if_pos hcontrol]
      have hsmall : ch.val < 16 ^ 2 := by
        unfold isControl at hcontrol
        rw [Bool.or_eq_true, decide_eq_true_eq, decide_eq_true_eq] at hcontrol
        have hspace : ' '.toNat = 32 := rfl
        omega
      show readHex 2 0 (hex 2 ch.val ++ rest) = _
      exact readHex_of_lt hsmall
    · rw [if_neg hcontrol]
      by_cases hsurrogate : isSurrogate ch = true
      · rw [if_pos hsurrogate]
        have hsmall : ch.val < 16 ^ 4 := by
          unfold isSurrogate at hsurrogate
          rw [Bool.and_eq_true, decide_eq_true_eq, decide_eq_true_eq] at hsurrogate
          omega
        show readHex 4 0 (hex 4 ch.val ++ rest) = _
        exact readHex_of_lt hsmall
      · rw [if_neg hsurrogate]
        have hne : ch ≠ ofChar '\\' := by
          intro h
          rw [h] at hget
          exact absurd hget (by decide)
        show (if ch ≠ ofChar '\\' then some (ch, rest) else _) = _
        rw [if_pos hne]

/-- The escapes as a code. -/
def quoteCode : PrefixCode CodePoint CodePoint where
  code := quoteChar
  read := readQuoted
  read_nil := rfl
  read_code := readQuoted_quoteChar

/-- Two strings never look the same. -/
theorem quotePath_inj {s t : CodePoints} (h : quotePath s = quotePath t) : s = t :=
  quoteCode.encode_injective h

/-! ## What reaches the terminal -/

/-- The C1 controls. -/
def isC1 (ch : CodePoint) : Bool := 0x80 ≤ ch.val && ch.val ≤ 0x9f

/-- A character that terminals and streams take as it is. -/
def TakenLiterally (ch : CodePoint) : Prop :=
  isControl ch = false ∧ isC1 ch = false ∧ isSurrogate ch = false

/-- A printing character of ASCII. -/
def isPrinting (ch : CodePoint) : Bool := 0x21 ≤ ch.val && ch.val ≤ 0x7e

/-- What prints is taken for itself. -/
theorem takenLiterally_of_isPrinting {ch : CodePoint} (h : isPrinting ch = true) :
    TakenLiterally ch := by
  unfold isPrinting at h
  rw [Bool.and_eq_true, decide_eq_true_eq, decide_eq_true_eq] at h
  unfold TakenLiterally isControl isC1 isSurrogate
  simp only [Bool.or_eq_false_iff, Bool.and_eq_false_iff, decide_eq_false_iff_not]
  have hspace : ' '.toNat = 32 := rfl
  omega

/-- A hexadecimal digit prints. -/
theorem isPrinting_hexDigit {d : Nat} (h : d < 16) : isPrinting (hexDigit d) = true := by
  have hall : ∀ d : Fin 16, isPrinting (hexDigit d.val) = true := by decide
  exact hall ⟨d, h⟩

theorem isPrinting_hex {c : CodePoint} {n : Nat} (width : Nat) (h : c ∈ hex width n) :
    isPrinting c = true := by
  induction width with
  | zero => cases h
  | succ width ih =>
    rcases List.mem_cons.mp h with rfl | h
    · exact isPrinting_hexDigit (Nat.mod_lt _ (by decide))
    · exact ih h

theorem isPrinting_quoteMap {ch c : CodePoint} {escaped : CodePoints} (h : (ch, escaped) ∈ quoteMap)
    (hc : c ∈ escaped) : isPrinting c = true := by
  have hall : (quoteMap.all fun e => e.2.all isPrinting) = true := by decide
  exact List.all_eq_true.mp (List.all_eq_true.mp hall _ h) c hc

/-- An escape is spelled in printing characters; a character that is not escaped stays, and is
neither a control below U+0080 nor a surrogate. -/
theorem quoteChar_cases (ch : CodePoint) :
    (isC1 ch = false ∧ ∀ c ∈ quoteChar ch, isPrinting c = true) ∨
      (quoteChar ch = [ch] ∧ isControl ch = false ∧ isSurrogate ch = false) := by
  have hspace : ' '.toNat = 32 := rfl
  unfold quoteChar
  cases hget : quoteMap.get ch with
  | some escaped =>
    left
    have hmem := Dict.mem_of_get hget
    have hlow : ∀ e ∈ quoteMap, isC1 e.1 = false := by decide
    exact ⟨hlow _ hmem, fun c hc => isPrinting_quoteMap hmem hc⟩
  | none =>
    dsimp only
    by_cases hcontrol : isControl ch = true
    · left
      rw [if_pos hcontrol]
      constructor
      · unfold isControl at hcontrol
        unfold isC1
        simp only [Bool.or_eq_true, decide_eq_true_eq] at hcontrol
        simp only [Bool.and_eq_false_iff, decide_eq_false_iff_not]
        omega
      · intro c hc
        rcases List.mem_append.mp hc with hc | hc
        · have hall : (ofText "\\x").all isPrinting = true := by decide
          exact List.all_eq_true.mp hall c hc
        · exact isPrinting_hex 2 hc
    · rw [if_neg hcontrol]
      by_cases hsurrogate : isSurrogate ch = true
      · left
        rw [if_pos hsurrogate]
        constructor
        · unfold isSurrogate at hsurrogate
          unfold isC1
          simp only [Bool.and_eq_true, decide_eq_true_eq] at hsurrogate
          simp only [Bool.and_eq_false_iff, decide_eq_false_iff_not]
          omega
        · intro c hc
          rcases List.mem_append.mp hc with hc | hc
          · have hall : (ofText "\\u").all isPrinting = true := by decide
            exact List.all_eq_true.mp hall c hc
          · exact isPrinting_hex 4 hc
      · right
        rw [if_neg hsurrogate]
        exact ⟨rfl, by simpa using hcontrol, by simpa using hsurrogate⟩

/-- **When a rendering is sound**: no other string has it, and all of it is taken literally, if and
only if the string holds no C1 control. -/
theorem quotePath_sound_iff (s : CodePoints) :
    ((∀ t, quotePath s = quotePath t → s = t) ∧ ∀ c ∈ quotePath s, TakenLiterally c) ↔
      ∀ ch ∈ s, isC1 ch = false := by
  constructor
  · rintro ⟨-, hsafe⟩ ch hch
    rcases quoteChar_cases ch with ⟨hlow, -⟩ | ⟨hself, -, -⟩
    · exact hlow
    · have hmem : ch ∈ quotePath s := by
        apply List.mem_flatMap.mpr
        refine ⟨ch, hch, ?_⟩
        rw [hself]
        exact List.mem_singleton_self _
      exact (hsafe ch hmem).2.1
  · intro h
    refine ⟨fun t => quotePath_inj, ?_⟩
    intro c hc
    obtain ⟨ch, hch, hmem⟩ := List.mem_flatMap.mp hc
    rcases quoteChar_cases ch with ⟨-, hprinting⟩ | ⟨hself, hcontrol, hsurrogate⟩
    · exact takenLiterally_of_isPrinting (hprinting c hmem)
    · rw [hself, List.mem_singleton] at hmem
      rw [hmem]
      exact ⟨hcontrol, h ch hch, hsurrogate⟩

/-- U+009B, which introduces a control sequence, comes out as it went in. -/
theorem quotePath_keeps_csi :
    quotePath [0x9b] = [0x9b] ∧ ¬ ∀ c ∈ quotePath [0x9b], TakenLiterally c := by
  refine ⟨by decide, ?_⟩
  intro h
  have hlow : isC1 0x9b = false := (h 0x9b (by decide)).2.1
  exact absurd hlow (by decide)

end Message

end ProotDistro
