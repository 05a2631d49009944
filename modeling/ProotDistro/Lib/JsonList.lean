import ProotDistro.Lib.Json
import ProotDistro.Lib.JsonString

/-!
# Lists of strings in a JSON text

A list of strings is written without loss: two lists with one text are the same list. What stands
between the quotes is read back as in `JsonText`, a string of characters being one of code points
without surrogates.

* **`dumpsStr_inj`** — a string is told from what follows it.
* **`dumpsStrList_inj`** — a list is told from every other one.
-/

namespace Json

section Lists

variable {c : Char} {s s' t t' : List Char} {l l' : List (List Char)}

/-! ## Characters as code points -/

theorem val_ofChar (c : Char) : (ofChar c).val = c.toNat := by
  show c.toNat % 0x110000 = c.toNat
  apply Nat.mod_eq_of_lt
  rcases c.valid with h | h
  · exact Nat.lt_trans h (by decide)
  · exact h.2

/-- Characters with the same code point are the same. -/
theorem ofChar_injective : Function.Injective ofChar := by
  intro c d h
  have hval : c.toNat = d.toNat := by
    rw [← val_ofChar c, ← val_ofChar d, h]
  rw [← Char.ofNat_toNat c, ← Char.ofNat_toNat d, hval]

/-- A character is no surrogate. -/
theorem isHigh_ofChar (c : Char) : JsonText.isHigh (ofChar c) = false := by
  unfold JsonText.isHigh
  rw [val_ofChar, Bool.and_eq_false_iff, decide_eq_false_iff_not, decide_eq_false_iff_not]
  have hvalid : c.toNat < 0xd800 ∨ 0xdfff < c.toNat ∧ c.toNat < 0x110000 := c.valid
  omega

/-- The four digits of an escape are those the writer of code points gives. -/
theorem map_hex4 (n : Nat) : (hex4 n).map ofChar =
    [JsonText.hexDigit (n / 4096), JsonText.hexDigit (n / 256), JsonText.hexDigit (n / 16),
      JsonText.hexDigit n] := rfl

/-- The characters with an escape of their own. -/
theorem lookup_ofChar (h : ∀ x ∈ ['\\', '"', '\x08', '\x0c', '\n', '\r', '\t'], c ≠ x) :
    JsonText.shortEscapes.lookup (ofChar c) = none := by
  have hne : ∀ x ∈ ['\\', '"', '\x08', '\x0c', '\n', '\r', '\t'], (ofChar c == ofChar x) = false := by
    intro x hx
    rw [beq_eq_false_iff_ne]
    exact fun heq => h x hx (ofChar_injective heq)
  show List.lookup (ofChar c) [(ofChar '\\', ofChar '\\'), (ofChar '"', ofChar '"'),
    (ofChar '\x08', ofChar 'b'), (ofChar '\x0c', ofChar 'f'), (ofChar '\n', ofChar 'n'),
    (ofChar '\r', ofChar 'r'), (ofChar '\t', ofChar 't')] = none
  simp only [List.lookup_cons, List.lookup_nil, hne '\\' (by simp), hne '"' (by simp), hne '\x08' (by simp),
    hne '\x0c' (by simp), hne '\n' (by simp), hne '\r' (by simp), hne '\t' (by simp)]

/-- Both writers escape a character alike. -/
theorem map_escapeChar (c : Char) : (escapeChar c).map ofChar = JsonText.escapeChar (ofChar c) := by
  by_cases hshort : c ∈ ['\\', '"', '\x08', '\x0c', '\n', '\r', '\t']
  · simp only [List.mem_cons, List.not_mem_nil, or_false] at hshort
    rcases hshort with rfl | rfl | rfl | rfl | rfl | rfl | rfl <;> decide +kernel
  · have hne : ∀ x ∈ ['\\', '"', '\x08', '\x0c', '\n', '\r', '\t'], c ≠ x :=
      fun x hx heq => hshort (heq ▸ hx)
    unfold escapeChar JsonText.escapeChar
    rw [lookup_ofChar hne, if_neg (hne '"' (by simp)), if_neg (hne '\\' (by simp)),
      if_neg (hne '\n' (by simp)), if_neg (hne '\r' (by simp)), if_neg (hne '\t' (by simp)),
      if_neg (hne '\x08' (by simp)), if_neg (hne '\x0c' (by simp))]
    have hprint : JsonText.isPrintable (ofChar c) = true ↔ ' ' ≤ c ∧ c ≤ '~' := by
      unfold JsonText.isPrintable
      rw [val_ofChar, Bool.and_eq_true, decide_eq_true_eq, decide_eq_true_eq]
      exact Iff.rfl
    by_cases hp : ' ' ≤ c ∧ c ≤ '~'
    · rw [if_pos hp]
      show [ofChar c] = if JsonText.isPrintable (ofChar c) = true then _ else _
      rw [if_pos (hprint.mpr hp)]
    · rw [if_neg hp]
      show _ = if JsonText.isPrintable (ofChar c) = true then _ else _
      rw [if_neg fun h => hp (hprint.mp h), val_ofChar]
      split
      · show ofChar '\\' :: ofChar 'u' :: (hex4 c.toNat).map ofChar = JsonText.unicodeEscape (ofChar c)
        unfold JsonText.unicodeEscape
        rw [map_hex4, val_ofChar]
        rfl
      · rename_i hastral
        have hbig : 0x10000 ≤ (ofChar c).val := by
          rw [val_ofChar]
          omega
        rw [List.map_append]
        unfold JsonText.unicodeEscape
        rw [JsonText.val_highOf hbig, JsonText.val_lowOf, val_ofChar]
        rfl

/-- A string is written as its code points are. -/
theorem map_dumpsStr (s : List Char) : (dumpsStr s).map ofChar = JsonText.dumpString (s.map ofChar) := by
  have hescape : (s.flatMap escapeChar).map ofChar = JsonText.escape (s.map ofChar) := by
    unfold JsonText.escape
    rw [List.map_flatMap, List.flatMap_map]
    exact List.flatMap_congr fun c _ => map_escapeChar c
  unfold dumpsStr JsonText.dumpString
  rw [List.map_append, List.map_cons, hescape]
  rfl

/-! ## Telling apart -/

/-- **A string is told from what follows it.** -/
theorem dumpsStr_inj (h : dumpsStr s ++ t = dumpsStr s' ++ t') : s = s' ∧ t = t' := by
  have hpair : ∀ s : List Char, JsonText.pair (s.map ofChar) = s.map ofChar := by
    intro s
    apply JsonText.pair_eq_self
    intro d hd
    obtain ⟨c, -, rfl⟩ := List.mem_map.mp hd
    exact isHigh_ofChar c
  have hcodes := congrArg (List.map ofChar) h
  rw [List.map_append, List.map_append, map_dumpsStr, map_dumpsStr] at hcodes
  obtain ⟨u, hu, hread⟩ := JsonText.readString_dumpString (s.map ofChar) (t.map ofChar)
  obtain ⟨u', hu', hread'⟩ := JsonText.readString_dumpString (s'.map ofChar) (t'.map ofChar)
  rw [hu, hu', List.cons.injEq] at hcodes
  rw [hcodes.2, hread', hpair, hpair, Option.some.injEq, Prod.mk.injEq] at hread
  have hinj := List.map_injective_iff.mpr ofChar_injective
  exact ⟨(hinj hread.1).symm, (hinj hread.2).symm⟩

/-- What is written behind the opening bracket. -/
def closed (l : List (List Char)) : List Char := [','].intercalate (l.map dumpsStr) ++ [']']

/-- What is written behind an entry. -/
def rest (l : List (List Char)) : List Char := if l = [] then [']'] else ',' :: closed l

/-- A list that is written up to its closing bracket. -/
theorem closed_cons (s : List Char) (l : List (List Char)) : closed (s :: l) = dumpsStr s ++ rest l := by
  unfold closed rest
  cases l with
  | nil =>
    rw [List.map_singleton, List.intercalate_singleton]
    rfl
  | cons s' l =>
    rw [List.map_cons, List.map_cons, List.intercalate_cons_cons, if_neg (List.cons_ne_nil s' l)]
    unfold closed
    rw [List.map_cons, List.append_assoc, List.append_assoc]
    rfl

/-- The text so written determines the list. -/
theorem closed_inj (h : closed l = closed l') : l = l' := by
  induction l generalizing l' with
  | nil =>
    cases l' with
    | nil => rfl
    | cons s' l' =>
      rw [closed_cons] at h
      cases h
  | cons s l ih =>
    cases l' with
    | nil =>
      rw [closed_cons] at h
      cases h
    | cons s' l' =>
      rw [closed_cons, closed_cons] at h
      obtain ⟨rfl, hrest⟩ := dumpsStr_inj h
      have htail : l = l' := by
        unfold rest at hrest
        split at hrest
        · split at hrest
          · rename_i hnil hnil'
            rw [hnil, hnil']
          · cases hrest
        · split at hrest
          · cases hrest
          · exact ih (List.cons.inj hrest).2
      rw [htail]

/-- **A list of strings is told from every other one.** -/
theorem dumpsStrList_inj (h : dumpsStrList l = dumpsStrList l') : l = l' :=
  closed_inj (List.cons.inj h).2

end Lists

end Json
