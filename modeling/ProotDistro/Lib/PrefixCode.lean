import Mathlib.Data.List.Basic

/-!
# Codes read from the front

A code word for each symbol, and a reader that takes one word off the front of a text whatever follows
it. A text then spells at most one word of symbols.
-/

/-- A code whose words are told from what follows them. -/
structure PrefixCode (α β : Type) where
  code : α → List β
  read : List β → Option (α × List β)
  read_nil : read [] = none
  read_code : ∀ a rest, read (code a ++ rest) = some (a, rest)

namespace PrefixCode

variable {α β : Type} (c : PrefixCode α β)

/-- The text of a word, symbol by symbol. -/
def encode (s : List α) : List β := s.flatMap c.code

/-- The code of a list, one by one. -/
theorem encode_cons (a : α) (s : List α) : c.encode (a :: s) = c.code a ++ c.encode s :=
  List.flatMap_cons

/-- Two words with one text are the same, by induction on the first. -/
theorem encode_injective : Function.Injective c.encode := by
  intro s
  induction s with
  | nil =>
    intro t h
    cases t with
    | nil => rfl
    | cons b t =>
      -- the reader finds a word where there is no text
      have hread : c.read [] = some (b, c.encode t) := by
        rw [show ([] : List β) = c.encode (b :: t) from h, encode_cons, c.read_code]
      rw [c.read_nil] at hread
      cases hread
  | cons a s ih =>
    intro t h
    have hread : c.read (c.encode t) = some (a, c.encode s) := by
      rw [← h, encode_cons, c.read_code]
    cases t with
    | nil =>
      rw [show c.encode [] = [] from rfl, c.read_nil] at hread
      cases hread
    | cons b t =>
      rw [encode_cons, c.read_code] at hread
      have hpair := Option.some.inj hread
      have hrest : s = t := ih (congrArg Prod.snd hpair).symm
      rw [hrest, show b = a from congrArg Prod.fst hpair]

end PrefixCode
