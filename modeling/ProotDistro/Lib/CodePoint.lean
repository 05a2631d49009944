import Mathlib.Algebra.GroupWithZero.Nat
import Mathlib.Data.Fin.Basic
import Mathlib.Data.List.Lex
import Mathlib.Order.Fin.Basic

/-!
# Code points

A string as a list of code points, lone surrogates among them, where `List Char` has none.
-/

/-- A character of a string. -/
abbrev CodePoint := Fin 0x110000

abbrev CodePoints := List CodePoint

instance neZeroCodePoints : NeZero 0x110000 := ⟨by decide⟩

instance lawfulBEqCodePoint : LawfulBEq CodePoint := inferInstance

instance lawfulBEqCodePoints : LawfulBEq CodePoints := inferInstance

def ofChar (c : Char) : CodePoint := Fin.ofNat 0x110000 c.toNat

def ofText (s : String) : CodePoints := s.toList.map ofChar
