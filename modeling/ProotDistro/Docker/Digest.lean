import ProotDistro.Execenv
import ProotDistro.Lib.Json

/-!
# `docker/cache`: digests

A digest is an algorithm, a colon and hexadecimal digits. It is checked before it becomes the
name of a file, and content is held to it by hashing. The pattern it is checked against ends
in `$`, which also stands before a line break at the very end; such a digest passes, and is
the digest of nothing (`split_digest` keeps the break).

* **`layerCacheName_injective`** — two digests never share a file of the layer cache.
-/

namespace ProotDistro

namespace Docker

def isAsciiAlnum (c : Char) : Bool :=
  ('A' ≤ c && c ≤ 'Z') || ('a' ≤ c && c ≤ 'z') || ('0' ≤ c && c ≤ '9')

def isHexChar (c : Char) : Bool :=
  ('A' ≤ c && c ≤ 'F') || ('a' ≤ c && c ≤ 'f') || ('0' ≤ c && c ≤ '9')

/-- The separators inside the name of an algorithm. -/
def isAlgoSep (c : Char) : Bool := c ∈ ['+', '_', '.', '-']

/-- Alphanumeric parts with single separators between them. -/
def isAlgorithm (s : Str) : Bool :=
  (s.splitOnP isAlgoSep).all fun part => part ≠ [] && part.all isAsciiAlnum

/-- The text up to a line break at its very end. -/
def chopNewline (s : Str) : Str := if s.getLast? = some '\n' then s.dropLast else s

/-- `_DIGEST_RE.match` -/
def isDigest (s : Str) : Bool :=
  let algoHex := Text.partition ':' s
  let hex := chopNewline algoHex.2
  ':' ∈ s && isAlgorithm algoHex.1 && hex ≠ [] && hex.all isHexChar

/-- `layer_cache_name`; `none` is its RuntimeError. -/
def layerCacheName (digest : Str) : Option Str :=
  if isDigest digest then some (digest.map fun c => if c = ':' then '_' else c) else none

/-- No hexadecimal digit is a separator. -/
theorem isHexChar_ne {c : Char} (h : isHexChar c = true) : c ≠ ':' ∧ c ≠ '_' := by
  constructor
  · rintro rfl
    exact absurd h (by decide)
  · rintro rfl
    exact absurd h (by decide)

/-- Chopping takes line ends only. -/
theorem mem_chopNewline {s : Str} {c : Char} (h : c ∈ s) (hc : c ≠ '\n') : c ∈ chopNewline s := by
  unfold chopNewline
  split
  · rename_i hlast
    obtain ⟨init, rfl⟩ := List.getLast?_eq_some_iff.mp hlast
    rw [List.dropLast_concat]
    rcases List.mem_append.mp h with hinit | hnl
    · exact hinit
    · exact absurd (List.mem_singleton.mp hnl) hc
  · exact h

/-- A digest is its algorithm, a colon and the rest, which has neither a colon nor a `_`. -/
theorem isDigest_parts {digest : Str} (h : isDigest digest = true) :
    ∃ algo hex, digest = algo ++ ':' :: hex ∧ ':' ∉ algo ∧ ':' ∉ hex ∧ '_' ∉ hex := by
  unfold isDigest at h
  simp only [Bool.and_eq_true, decide_eq_true_eq] at h
  obtain ⟨⟨⟨hcolon, -⟩, -⟩, hhex⟩ := h
  obtain ⟨algo, hex, rfl, hnot⟩ := List.eq_append_cons_of_mem hcolon
  rw [Text.partition_append hnot] at hhex
  refine ⟨algo, hex, rfl, hnot, fun hmem => ?_, fun hmem => ?_⟩
  · have hc := List.all_eq_true.mp hhex _ (mem_chopNewline hmem (by decide))
    exact (isHexChar_ne hc).1 rfl
  · have hc := List.all_eq_true.mp hhex _ (mem_chopNewline hmem (by decide))
    exact (isHexChar_ne hc).2 rfl

/-- A character is in one of the parts, or it is a separator. -/
theorem mem_splitOnP {s : Str} {c : Char} (p : Char → Bool) (h : c ∈ s) (hc : p c = false) :
    ∃ part ∈ s.splitOnP p, c ∈ part := by
  induction s with
  | nil => cases h
  | cons d s ih =>
    rw [List.splitOnP_cons_eq_if_modifyHead]
    obtain ⟨first, rest, hparts⟩ := List.exists_cons_of_ne_nil (List.splitOnP_ne_nil p s)
    rw [hparts] at ih ⊢
    rcases List.mem_cons.mp h with rfl | hmem
    · rw [hc]
      exact ⟨_, List.mem_cons_self, List.mem_cons_self⟩
    · obtain ⟨part, hpart, hcp⟩ := ih hmem
      split
      · exact ⟨part, List.mem_cons_of_mem _ hpart, hcp⟩
      · rcases List.mem_cons.mp hpart with rfl | hpart
        · exact ⟨_, List.mem_cons_self, List.mem_cons_of_mem _ hcp⟩
        · exact ⟨part, List.mem_cons_of_mem _ hpart, hcp⟩

/-- The name of an algorithm has no other characters. -/
theorem notMem_algorithm {s : Str} {c : Char} (h : isAlgorithm s = true) (hc : isAsciiAlnum c = false)
    (hsep : isAlgoSep c = false) : c ∉ s := by
  intro hmem
  obtain ⟨part, hpart, hcp⟩ := mem_splitOnP isAlgoSep hmem hsep
  have hall := List.all_eq_true.mp h part hpart
  rw [Bool.and_eq_true] at hall
  have halnum := List.all_eq_true.mp hall.2 c hcp
  rw [hc] at halnum
  cases halnum

/-- A text without colon is its own name. -/
theorem map_colon_of_notMem {s : Str} (h : ':' ∉ s) :
    (s.map fun c => if c = ':' then '_' else c) = s := by
  refine (List.map_congr_left fun c hc => ?_).trans (List.map_id s)
  have hne : c ≠ ':' := by
    rintro rfl
    exact h hc
  rw [if_neg hne]
  rfl

/-- **Digests are told apart by their files**: the colon is where the last `_` of the name
stands. -/
theorem layerCacheName_injective {digest digest' : Str} {name : Str}
    (h : layerCacheName digest = some name) (h' : layerCacheName digest' = some name) :
    digest = digest' := by
  have hparts : ∀ d, layerCacheName d = some name →
      ∃ algo hex, d = algo ++ ':' :: hex ∧ Text.partition '_' name.reverse =
        (hex.reverse, algo.reverse) := by
    intro d hd
    unfold layerCacheName at hd
    split at hd
    · rename_i hdigest
      obtain ⟨algo, hex, rfl, halgo, hhex, hlow⟩ := isDigest_parts hdigest
      rw [List.map_append, List.map_cons, map_colon_of_notMem halgo, map_colon_of_notMem hhex,
        if_pos rfl] at hd
      cases hd
      refine ⟨algo, hex, rfl, ?_⟩
      rw [List.reverse_append, List.reverse_cons, List.append_assoc]
      exact Text.partition_append (by simpa using hlow)
    · cases hd
  obtain ⟨algo, hex, rfl, hp⟩ := hparts digest h
  obtain ⟨algo', hex', rfl, hp'⟩ := hparts digest' h'
  rw [hp] at hp'
  obtain ⟨hhex, halgo⟩ := Prod.mk.inj hp'
  rw [List.reverse_inj.mp hhex, List.reverse_inj.mp halgo]

/-- `manifest_config_digest` -/
def manifestConfigDigest (manifest : Json) : Str :=
  match ((manifest.field "config".toList).bind (·.field "digest".toList)).bind Json.asStr? with
  | some digest => if isDigest digest then digest else []
  | none => []

end Docker

end ProotDistro
