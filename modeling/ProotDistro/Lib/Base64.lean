import Mathlib.Tactic.Common

/-!
# Base64

The encoding of bytes by four digits of six bits for every three bytes, and its validating
decoder: only the alphabet, whole groups, and padding nowhere but in the last of them.

* **`decode_encode`** — what was encoded is decoded.
-/

namespace Base64

def alphabet : List Char :=
  ['A', 'B', 'C', 'D', 'E', 'F', 'G', 'H', 'I', 'J', 'K', 'L', 'M', 'N', 'O', 'P',
    'Q', 'R', 'S', 'T', 'U', 'V', 'W', 'X', 'Y', 'Z', 'a', 'b', 'c', 'd', 'e', 'f',
    'g', 'h', 'i', 'j', 'k', 'l', 'm', 'n', 'o', 'p', 'q', 'r', 's', 't', 'u', 'v',
    'w', 'x', 'y', 'z', '0', '1', '2', '3', '4', '5', '6', '7', '8', '9', '+', '/']

def digit (n : Nat) : Char := alphabet.getD n 'A'

def value? (c : Char) : Option Nat :=
  if alphabet.idxOf c < 64 then some (alphabet.idxOf c) else none

/-- `base64.b64encode` -/
def encode : List UInt8 → List Char
  | [] => []
  | [a] => [digit (a.toNat / 4), digit (a.toNat % 4 * 16), '=', '=']
  | [a, b] =>
    [digit (a.toNat / 4), digit (a.toNat % 4 * 16 + b.toNat / 16), digit (b.toNat % 16 * 4), '=']
  | a :: b :: c :: rest =>
    digit (a.toNat / 4) :: digit (a.toNat % 4 * 16 + b.toNat / 16) ::
      digit (b.toNat % 16 * 4 + c.toNat / 64) :: digit (c.toNat % 64) :: encode rest

def byte (n : Nat) : UInt8 := UInt8.ofNat n

/-- One group, `last` where nothing follows it. -/
def decodeGroup (last : Bool) (c₁ c₂ c₃ c₄ : Char) : Option (List UInt8) := do
  let v₁ ← value? c₁
  let v₂ ← value? c₂
  let a := byte (v₁ * 4 + v₂ / 16)
  if last ∧ c₃ = '=' ∧ c₄ = '=' then some [a]
  else
    let v₃ ← value? c₃
    let b := byte (v₂ % 16 * 16 + v₃ / 4)
    if last ∧ c₄ = '=' then some [a, b]
    else
      let v₄ ← value? c₄
      some [a, b, byte (v₃ % 4 * 64 + v₄)]

/-- `base64.b64decode(s, validate=True)`; `none` is its ValueError. -/
def decode : List Char → Option (List UInt8)
  | [] => some []
  | c₁ :: c₂ :: c₃ :: c₄ :: rest =>
    (decodeGroup rest.isEmpty c₁ c₂ c₃ c₄).bind fun group => (decode rest).map (group ++ ·)
  | [_] | [_, _] | [_, _, _] => none

/-- A digit is read back. -/
theorem value_digit {n : Nat} (h : n < 64) : value? (digit n) = some n := by
  revert n
  decide +kernel

/-- No digit is the padding. -/
theorem digit_ne_pad {n : Nat} (h : n < 64) : digit n ≠ '=' := by
  revert n
  decide +kernel

/-- A byte is its number. -/
theorem byte_eq {n : Nat} {b : UInt8} (h : n = b.toNat) : byte n = b := by
  rw [h]
  exact UInt8.ofNat_toNat

/-- **Round trip.** -/
theorem decode_encode (bytes : List UInt8) : decode (encode bytes) = some bytes := by
  fun_induction encode bytes with
  | case1 => rfl
  | case2 a =>
    have ha := a.toNat_lt
    have hfirst : byte (a.toNat / 4 * 4 + a.toNat % 4 * 16 / 16) = a := byte_eq (by omega)
    simp only [decode, decodeGroup, value_digit (show a.toNat / 4 < 64 by omega),
      value_digit (show a.toNat % 4 * 16 < 64 by omega), Option.bind_eq_bind, Option.bind_some,
      hfirst]
    simp
  | case3 a b =>
    have ha := a.toNat_lt
    have hb := b.toNat_lt
    have hfirst : byte (a.toNat / 4 * 4 + (a.toNat % 4 * 16 + b.toNat / 16) / 16) = a :=
      byte_eq (by omega)
    have hsecond : byte ((a.toNat % 4 * 16 + b.toNat / 16) % 16 * 16 + b.toNat % 16 * 4 / 4) = b :=
      byte_eq (by omega)
    simp only [decode, decodeGroup, value_digit (show a.toNat / 4 < 64 by omega),
      value_digit (show a.toNat % 4 * 16 + b.toNat / 16 < 64 by omega),
      value_digit (show b.toNat % 16 * 4 < 64 by omega), Option.bind_eq_bind, Option.bind_some,
      hfirst, hsecond]
    simp [digit_ne_pad (show b.toNat % 16 * 4 < 64 by omega)]
  | case4 a b c rest ih =>
    have ha := a.toNat_lt
    have hb := b.toNat_lt
    have hc := c.toNat_lt
    have hfirst : byte (a.toNat / 4 * 4 + (a.toNat % 4 * 16 + b.toNat / 16) / 16) = a :=
      byte_eq (by omega)
    have hsecond : byte ((a.toNat % 4 * 16 + b.toNat / 16) % 16 * 16 +
        (b.toNat % 16 * 4 + c.toNat / 64) / 4) = b := byte_eq (by omega)
    have hthird : byte ((b.toNat % 16 * 4 + c.toNat / 64) % 4 * 64 + c.toNat % 64) = c :=
      byte_eq (by omega)
    simp only [decode, decodeGroup, value_digit (show a.toNat / 4 < 64 by omega),
      value_digit (show a.toNat % 4 * 16 + b.toNat / 16 < 64 by omega),
      value_digit (show b.toNat % 16 * 4 + c.toNat / 64 < 64 by omega),
      value_digit (show c.toNat % 64 < 64 by omega), Option.bind_eq_bind, Option.bind_some,
      hfirst, hsecond, hthird, ih]
    simp [digit_ne_pad (show b.toNat % 16 * 4 + c.toNat / 64 < 64 by omega),
      digit_ne_pad (show c.toNat % 64 < 64 by omega)]

end Base64
