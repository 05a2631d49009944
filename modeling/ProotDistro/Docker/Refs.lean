import ProotDistro.Docker.Digest

/-!
# `docker/refs`: image references

The reference grammar, and the canonical form every spelling of an image collapses to: the
registry is left out for Docker Hub, and a pinned reference drops its tag. A string the grammar
refuses is `none`; which of its messages it gets is left out, and with it the rules that only
choose between messages (upper case in a name, a digest that is one but not sha256).

* **`parseReference_canonical`** — a canonical form parses to the image it was written for, unless
  that is a Hub path whose first component reads as a host.
-/

namespace ProotDistro

namespace Docker

/-! ## The grammar -/

def isLowerAlnum (c : Char) : Bool := ('a' ≤ c && c ≤ 'z') || ('0' ≤ c && c ≤ '9')

/-- Where a reader stands in a path component. -/
inductive ComponentState where
  | start
  | alnum
  | dot
  | underscore
  | underscores
  | dashes
  | bad
  deriving DecidableEq

def componentStep (s : ComponentState) (c : Char) : ComponentState :=
  if isLowerAlnum c then if s = .bad then .bad else .alnum
  else
    match s, c with
    | .alnum, '.' => .dot
    | .alnum, '_' => .underscore
    | .underscore, '_' => .underscores
    | .alnum, '-' => .dashes
    | .dashes, '-' => .dashes
    | _, _ => .bad

/-- `_PATH_COMPONENT`: runs of letters and digits, between them a dot, one or two underscores or
any number of dashes. -/
def isPathComponent (s : Str) : Bool := s.foldl componentStep .start = .alnum

/-- `_REMOTE_NAME` -/
def isRemoteName (s : Str) : Bool := (s.splitOn '/').all isPathComponent

/-- `_DOMAIN_COMPONENT` -/
def isDomainComponent (s : Str) : Bool :=
  s ≠ [] && s.all (fun c => isAsciiAlnum c || c = '-') && s.head? ≠ some '-' && s.getLast? ≠ some '-'

def isDigitChar (c : Char) : Bool := '0' ≤ c && c ≤ '9'

/-- `int(digits)` -/
def readNat (digits : Str) : Nat := digits.foldl (fun n c => n * 10 + (c.toNat - '0'.toNat)) 0

def portMax : Nat := 65535

def isPort (s : Str) : Bool := s ≠ [] && s.all isDigitChar && readNat s ≤ portMax

/-- A port with its colon, or none at all. -/
def isOptionalPort : Str → Bool
  | [] => true
  | c :: port => c = ':' && isPort port

/-- `_DOMAIN_RE.fullmatch`, and the port within its range. -/
def isDomain : Str → Bool
  | '[' :: s =>
    let parts := Text.partition ']' s
    ']' ∈ s && parts.1 ≠ [] && parts.1.all (fun c => isHexChar c || c = ':') && isOptionalPort parts.2
  | s =>
    (((s.takeWhile (· ≠ ':')).splitOn '.').all isDomainComponent) &&
      isOptionalPort (s.dropWhile (· ≠ ':'))

/-- What a registry is written with. -/
def isDomainChar (c : Char) : Bool := isAsciiAlnum c || c ∈ ['.', '-', ':', '[', ']']

/-- The characters of a domain. -/
theorem domain_chars {s : Str} (h : isDomain s = true) : ∀ c ∈ s, isDomainChar c = true := by
  -- letters, digits and hexadecimal digits are characters of a domain
  have halnum : ∀ c, isAsciiAlnum c = true → isDomainChar c = true := fun c hc => by
    unfold isDomainChar
    rw [hc]
    rfl
  have hdigit : ∀ c, isDigitChar c = true → isAsciiAlnum c = true := fun c hc => by
    simp only [isDigitChar, isAsciiAlnum, Bool.and_eq_true, Bool.or_eq_true, decide_eq_true_eq] at hc ⊢
    exact .inr hc
  have hhex : ∀ c, isHexChar c = true → isAsciiAlnum c = true := fun c hc => by
    simp only [isHexChar, isAsciiAlnum, Bool.and_eq_true, Bool.or_eq_true, decide_eq_true_eq] at hc ⊢
    rcases hc with (hc | hc) | hc
    · exact .inl (.inl ⟨hc.1, Char.le_trans hc.2 (show 'F' ≤ 'Z' by decide)⟩)
    · exact .inl (.inr ⟨hc.1, Char.le_trans hc.2 (show 'f' ≤ 'z' by decide)⟩)
    · exact .inr hc
  -- and so are those of a port, with its colon
  have hport : ∀ t : Str, isOptionalPort t = true → ∀ c ∈ t, isDomainChar c = true := by
    intro t ht c hmem
    cases t with
    | nil => cases hmem
    | cons a port =>
      simp only [isOptionalPort, isPort, Bool.and_eq_true, decide_eq_true_eq] at ht
      obtain ⟨rfl, ⟨-, hdigits⟩, -⟩ := ht
      rcases List.mem_cons.mp hmem with rfl | hin
      · decide
      · exact halnum c (hdigit c (List.all_eq_true.mp hdigits c hin))
  intro c hmem
  unfold isDomain at h
  -- an address in brackets, or components between dots
  split at h
  · rename_i t
    simp only [Bool.and_eq_true, decide_eq_true_eq] at h
    obtain ⟨⟨⟨hclose, -⟩, hinner⟩, hrest⟩ := h
    rw [Text.eq_partition hclose] at hmem
    simp only [List.mem_cons, List.mem_append] at hmem
    rcases hmem with rfl | hin | rfl | hin
    · decide
    · have hchar := List.all_eq_true.mp hinner c hin
      rw [Bool.or_eq_true, decide_eq_true_eq] at hchar
      rcases hchar with hchar | rfl
      · exact halnum c (hhex c hchar)
      · decide
    · decide
    · exact hport _ hrest c hin
  · rw [Bool.and_eq_true] at h
    have hsplit := List.takeWhile_append_dropWhile (p := (· ≠ ':')) (l := s)
    rw [← hsplit] at hmem
    rcases List.mem_append.mp hmem with hin | hin
    · rcases Text.mem_splitOn (x := '.') hin with rfl | ⟨part, hpart, hc⟩
      · decide
      · have hcomponent := List.all_eq_true.mp h.1 part hpart
        unfold isDomainComponent at hcomponent
        simp only [Bool.and_eq_true] at hcomponent
        have hchar := List.all_eq_true.mp hcomponent.1.1.2 c hc
        rw [Bool.or_eq_true, decide_eq_true_eq] at hchar
        rcases hchar with hchar | rfl
        · exact halnum c hchar
        · decide
    · exact hport _ h.2 c hin

def isTagChar (c : Char) : Bool := isAsciiAlnum c || c ∈ ['_', '.', '-']

def isTag : Str → Bool
  | [] => false
  | c :: s => (isAsciiAlnum c || c = '_') && s.length ≤ 127 && s.all isTagChar

def isLowerHex (c : Char) : Bool := ('a' ≤ c && c ≤ 'f') || isDigitChar c

/-- `_IDENTIFIER_RE.fullmatch` -/
def isIdentifier (s : Str) : Bool := s.length = 64 && s.all isLowerHex

def shaPrefix : Str := "sha256:".toList

/-- `_SHA256_RE.fullmatch` -/
def isSha256 (s : Str) : Bool := shaPrefix.isPrefixOf s && isIdentifier (s.drop 7)

/-! ## References -/

def defaultDomain : Str := "docker.io".toList

def hubAliases : List Str := [defaultDomain, "index.docker.io".toList]

def officialPrefix : Str := "library/".toList

def localhost : Str := "localhost".toList

def latest : Str := "latest".toList

def nameMax : Nat := 255

def referenceMax : Nat := 1024

/-- `Reference`; the registry of Docker Hub is empty, and so is a tag or a digest that is not
there. -/
structure Reference where
  registry : Str
  repo : Str
  tag : Str
  digest : Str
  deriving DecidableEq

/-- `Reference.name` -/
def Reference.name (r : Reference) : Str :=
  if r.registry = [] then r.repo else r.registry ++ '/' :: r.repo

/-- `Reference.canonical` -/
def Reference.canonical (r : Reference) : Str :=
  if r.digest = [] then r.name ++ ':' :: r.tag else r.name ++ '@' :: r.digest

/-- `Reference.manifest_ref` -/
def Reference.manifestRef (r : Reference) : Str := if r.digest = [] then r.tag else r.digest

/-- The first component of a reference names a registry. -/
def isHost (first : Str) : Bool :=
  first.any (· ∈ ['.', ':']) || first = localhost || first.map Char.toLower ≠ first

/-- `_split_domain` -/
def splitDomain (ref : Str) : Str × Str :=
  let parts := Text.partition '/' ref
  let split := if '/' ∈ ref ∧ isHost parts.1 then parts else ([], ref)
  let domain := if split.1 ∈ hubAliases then [] else split.1
  (domain, if domain = [] ∧ '/' ∉ split.2 then officialPrefix ++ split.2 else split.2)

/-- The groups of `_REMAINDER_RE`: the repository, a tag and a digest. -/
def splitRemainder (remainder : Str) : Str × Option Str × Option Str :=
  let atDigest := Text.partition '@' remainder
  let atTag := Text.partition ':' atDigest.1
  (atTag.1, if ':' ∈ atDigest.1 then some atTag.2 else none,
    if '@' ∈ remainder then some atDigest.2 else none)

/-- What a reference without a tag gets for one. -/
def defaultTag (digest : Option Str) : Str := if digest = none then latest else []

/-- `parse_reference`; `none` is its InvalidReference. -/
def parseReference (ref : Str) : Option Reference :=
  if ref = [] ∨ referenceMax < ref.length ∨ isIdentifier ref then none
  else
    let split := splitDomain ref
    let parts := splitRemainder split.2
    if split.1 ≠ [] ∧ !isDomain split.1 then none
    else if !(isRemoteName parts.1 && parts.2.1.all isTag && parts.2.2.all isSha256) then none
    else if nameMax < ((if split.1 = [] then defaultDomain else split.1) ++ '/' :: parts.1).length then
      none
    else some {
      registry := split.1
      repo := parts.1
      tag := parts.2.1.getD (defaultTag parts.2.2)
      digest := parts.2.2.getD [] }

/-! ## References that nothing checked -/

/-- `_split_loosely`: the registry, the repository and the tag. -/
def splitLoosely (ref : Str) : Str × Str × Str :=
  let parts := Text.partition '/' ref
  let split := if '/' ∈ ref ∧ parts.1.any (· ∈ ['.', ':']) then parts else ([], ref)
  let registry := if split.1 ∈ hubAliases then [] else split.1
  let tagged := Text.partition ':' split.2.reverse
  let name := if ':' ∈ split.2 then tagged.2.reverse else split.2
  let tag := if ':' ∈ split.2 then tagged.1.reverse else latest
  (registry, if registry = [] ∧ '/' ∉ name then officialPrefix ++ name else name, tag)

/-- `canonical_ref` -/
def canonicalRef (ref : Str) : Str :=
  match parseReference ref with
  | some r => r.canonical
  | none =>
    let parts := splitLoosely ref
    (Reference.mk parts.1 parts.2.1 parts.2.2 []).canonical

/-! ## References that were parsed -/

/-- A Hub path whose first component reads as a host: written out, it names a registry. -/
def Reference.Misread (r : Reference) : Prop :=
  r.registry = [] ∧ isHost (Text.partition '/' r.repo).1 = true

instance (r : Reference) : Decidable r.Misread := inferInstanceAs (Decidable (_ ∧ _))

/-- What the grammar promises of a reference it accepts. -/
structure Reference.WellFormed (r : Reference) : Prop where
  registry : r.registry ≠ [] → isDomain r.registry = true ∧ isHost r.registry = true ∧
    '/' ∉ r.registry ∧ r.registry ∉ hubAliases
  official : r.registry = [] → '/' ∈ r.repo
  repo : isRemoteName r.repo = true
  tag : r.digest = [] → isTag r.tag = true
  digest : r.digest ≠ [] → isSha256 r.digest = true
  length : ((if r.registry = [] then defaultDomain else r.registry) ++ '/' :: r.repo).length ≤ nameMax

section Grammar

variable {s : Str} {c : Char}

/-- A reader that has stumbled stays where it is. -/
theorem foldl_bad (s : Str) : s.foldl componentStep .bad = .bad := by
  induction s with
  | nil => rfl
  | cons c s ih =>
    have hstep : componentStep .bad c = .bad := by
      unfold componentStep
      split
      · rfl
      · rfl
    rw [List.foldl_cons, hstep]
    exact ih

/-- A character that spoils no component is one of a component. -/
theorem componentStep_char {state : ComponentState} (h : componentStep state c ≠ .bad) :
    isLowerAlnum c = true ∨ c ∈ ['.', '_', '-'] := by
  unfold componentStep at h
  split at h
  · rename_i halnum
    exact .inl halnum
  · split at h <;> simp_all

/-- So are all characters of a text that is not spoiled. -/
theorem foldl_component_char {state : ComponentState} (h : s.foldl componentStep state ≠ .bad)
    (hc : c ∈ s) : isLowerAlnum c = true ∨ c ∈ ['.', '_', '-'] := by
  induction s generalizing state with
  | nil => cases hc
  | cons a s ih =>
    rw [List.foldl_cons] at h
    rcases List.mem_cons.mp hc with rfl | htail
    · refine @componentStep_char _ state fun hbad => ?_
      rw [hbad, foldl_bad] at h
      exact h rfl
    · exact ih h htail

/-- The characters of a repository. -/
theorem remoteName_char (h : isRemoteName s = true) (hc : c ∈ s) :
    c = '/' ∨ isLowerAlnum c = true ∨ c ∈ ['.', '_', '-'] := by
  rcases Text.mem_splitOn hc with hslash | ⟨part, hpart, hmem⟩
  · exact .inl hslash
  · have haccept := of_decide_eq_true (List.all_eq_true.mp h part hpart)
    refine .inr (@foldl_component_char _ _ .start ?_ hmem)
    rw [haccept]
    simp

/-- A remote name has neither colon nor at sign. -/
theorem remoteName_notMem (h : isRemoteName s = true) : ':' ∉ s ∧ '@' ∉ s := by
  constructor <;> intro hc <;> rcases remoteName_char h hc with h' | h' | h' <;> revert h' <;>
    decide

/-- A tag is not empty, is no longer than the grammar has it, and has neither at sign nor slash. -/
theorem tag_spec (h : isTag s = true) : s ≠ [] ∧ s.length ≤ 128 ∧ '@' ∉ s ∧ '/' ∉ s := by
  cases s with
  | nil => cases h
  | cons a s =>
    unfold isTag at h
    simp only [Bool.and_eq_true, decide_eq_true_eq] at h
    obtain ⟨⟨hfirst, hlength⟩, hall⟩ := h
    have hnot : ∀ x : Char, (isAsciiAlnum x || decide (x = '_')) = false → isTagChar x = false →
        x ∉ a :: s := by
      intro x hx hx' hmem
      rcases List.mem_cons.mp hmem with rfl | htail
      · rw [hx] at hfirst
        cases hfirst
      · have := List.all_eq_true.mp hall x htail
        rw [hx'] at this
        cases this
    refine ⟨by simp, ?_, hnot _ (by decide) (by decide), hnot _ (by decide) (by decide)⟩
    rw [List.length_cons]
    omega

/-- A digest has its fixed length, and no slash. -/
theorem sha256_spec (h : isSha256 s = true) : s ≠ [] ∧ s.length = 71 ∧ '/' ∉ s := by
  unfold isSha256 isIdentifier at h
  simp only [Bool.and_eq_true, decide_eq_true_eq] at h
  obtain ⟨hstart, hlength, hall⟩ := h
  obtain ⟨hex, rfl⟩ := List.isPrefixOf_iff_prefix.mp hstart
  have hdrop : (shaPrefix ++ hex).drop 7 = hex := rfl
  rw [hdrop] at hlength hall
  refine ⟨by simp [shaPrefix], by simp [shaPrefix, hlength], fun hmem => ?_⟩
  rcases List.mem_append.mp hmem with hpre | hhex
  · revert hpre
    decide
  · have := List.all_eq_true.mp hall _ hhex
    revert this
    decide

end Grammar

/-! ## Parsing what was written -/

section Canonical

variable {ref rest : Str} {r : Reference}

/-- What the split says about a registry it finds, and about the path of the Hub. -/
theorem splitDomain_spec (ref : Str) :
    ((splitDomain ref).1 ≠ [] → isHost (splitDomain ref).1 = true ∧ '/' ∉ (splitDomain ref).1 ∧
      (splitDomain ref).1 ∉ hubAliases) ∧
    ((splitDomain ref).1 = [] → '/' ∈ (splitDomain ref).2) := by
  unfold splitDomain
  by_cases hsplit : '/' ∈ ref ∧ isHost (Text.partition '/' ref).1 = true
  · simp only [if_pos hsplit]
    by_cases halias : (Text.partition '/' ref).1 ∈ hubAliases
    · simp only [if_pos halias]
      refine ⟨fun h => absurd rfl h, fun _ => ?_⟩
      split
      · exact List.mem_append_left _ (by decide)
      · rename_i hslash
        simpa using hslash
    · simp only [if_neg halias]
      refine ⟨fun _ => ⟨hsplit.2, Text.notMem_partition_fst _ _, halias⟩, fun hnil => ?_⟩
      have hhost := hsplit.2
      rw [hnil] at hhost
      exact absurd hhost (by decide)
  · simp only [if_neg hsplit]
    have halias : ([] : Str) ∉ hubAliases := by decide
    simp only [if_neg halias]
    refine ⟨fun h => absurd rfl h, fun _ => ?_⟩
    split
    · exact List.mem_append_left _ (by decide)
    · rename_i hslash
      simpa using hslash

/-- The groups of a remainder, put together again. -/
theorem splitRemainder_spec (s : Str) :
    s = (splitRemainder s).1 ++ ((splitRemainder s).2.1.elim [] (':' :: ·)) ++
      ((splitRemainder s).2.2.elim [] ('@' :: ·)) := by
  have htag : ∀ left : Str, left = (Text.partition ':' left).1 ++
      (if ':' ∈ left then some (Text.partition ':' left).2 else none).elim [] (':' :: ·) := by
    intro left
    by_cases hcolon : ':' ∈ left
    · rw [if_pos hcolon]
      exact Text.eq_partition hcolon
    · rw [if_neg hcolon, Text.partition_of_notMem hcolon]
      exact (List.append_nil _).symm
  unfold splitRemainder
  by_cases hat : '@' ∈ s
  · simp only [if_pos hat, Option.elim_some]
    rw [← htag]
    exact Text.eq_partition hat
  · simp only [if_neg hat, Option.elim_none, List.append_nil]
    rw [Text.partition_of_notMem hat]
    exact htag s

/-- The grammar's promises hold of what it accepts. -/
theorem parseReference_wellFormed (h : parseReference ref = some r) : r.WellFormed := by
  unfold parseReference at h
  obtain ⟨hhost, hslash⟩ := splitDomain_spec ref
  have hparts := splitRemainder_spec (splitDomain ref).2
  rcases hsplit : splitDomain ref with ⟨domain, remainder⟩
  rcases hremainder : splitRemainder remainder with ⟨repo, tag, digest⟩
  simp only [hsplit, hremainder, Option.ite_none_left_eq_some] at h hhost hslash hparts
  obtain ⟨-, hdomain, hgroups, hlength, h⟩ := h
  cases h
  simp only [Bool.not_eq_true', Bool.not_eq_false, Bool.and_eq_true] at hgroups
  obtain ⟨⟨hrepo, htag⟩, hdigest⟩ := hgroups
  refine ⟨fun hne => ?_, fun hnil => ?_, hrepo, fun hnone => ?_, fun hsome => ?_, not_lt.mp hlength⟩
  · simp only [Bool.not_eq_true', ne_eq, not_and, Bool.not_eq_false] at hdomain
    exact ⟨hdomain hne, hhost hne⟩
  · -- the slash of a Hub path is not in the tag nor in the digest
    have hmem := hslash hnil
    rw [hparts] at hmem
    rcases List.mem_append.mp hmem with hleft | hright
    · rcases List.mem_append.mp hleft with hin | hin
      · exact hin
      · cases tag with
        | none => cases hin
        | some tag =>
          rcases List.mem_cons.mp hin with heq | hin
          · exact absurd heq (by decide)
          · exact absurd hin (tag_spec htag).2.2.2
    · cases digest with
      | none => cases hright
      | some digest =>
        rcases List.mem_cons.mp hright with heq | hin
        · exact absurd heq (by decide)
        · exact absurd hin (sha256_spec hdigest).2.2
  · cases digest with
    | none =>
      cases tag with
      | none => exact (by decide : isTag latest = true)
      | some tag => exact htag
    | some digest => exact absurd hnone (sha256_spec hdigest).1
  · cases digest with
    | none => exact absurd rfl hsome
    | some digest => exact hdigest

/-- The reference a canonical form is read as: a pinned one has no tag. -/
def Reference.normal (r : Reference) : Reference :=
  { r with tag := if r.digest = [] then r.tag else [] }

/-- The domain is split off a name as it was put in front, unless it is misread. -/
theorem splitDomain_name (h : r.WellFormed) (hread : ¬ r.Misread) (rest : Str) :
    splitDomain (r.name ++ rest) = (r.registry, r.repo ++ rest) := by
  unfold Reference.name splitDomain
  by_cases hregistry : r.registry = []
  · -- a path of the Hub, whose first component is no host
    rw [if_pos hregistry]
    obtain ⟨first, tail, hrepo, hnot⟩ := List.eq_append_cons_of_mem (h.official hregistry)
    have hfirst : (Text.partition '/' (r.repo ++ rest)).1 = (Text.partition '/' r.repo).1 := by
      rw [hrepo, List.append_assoc, List.cons_append, Text.partition_append hnot,
        Text.partition_append hnot]
    have hpath : isHost (Text.partition '/' (r.repo ++ rest)).1 = false := by
      rw [hfirst]
      exact Bool.eq_false_iff.mpr fun hhost => hread ⟨hregistry, hhost⟩
    have halias : ([] : Str) ∉ hubAliases := by decide
    have hslash : '/' ∈ r.repo ++ rest := List.mem_append_left _ (h.official hregistry)
    simp [hpath, halias, hslash, hregistry]
  · obtain ⟨-, hhost, hslash, halias⟩ := h.registry hregistry
    rw [if_neg hregistry, List.append_assoc, List.cons_append]
    simp only [Text.partition_append hslash]
    simp [hhost, halias, hregistry]

/-- A tag is split off at its colon. -/
theorem splitRemainder_tag {repo tag : Str} (hrepo : isRemoteName repo = true)
    (htag : isTag tag = true) : splitRemainder (repo ++ ':' :: tag) = (repo, some tag, none) := by
  obtain ⟨hcolon, hat⟩ := remoteName_notMem hrepo
  have hnot : '@' ∉ repo ++ ':' :: tag := by
    simp [hat, (tag_spec htag).2.2.1]
  unfold splitRemainder
  simp only [Text.partition_of_notMem hnot, if_neg hnot, Text.partition_append hcolon]
  simp

/-- A digest at its at sign. -/
theorem splitRemainder_digest {repo : Str} (hrepo : isRemoteName repo = true) (digest : Str) :
    splitRemainder (repo ++ '@' :: digest) = (repo, none, some digest) := by
  obtain ⟨hcolon, hat⟩ := remoteName_notMem hrepo
  unfold splitRemainder
  rw [Text.partition_append hat]
  simp [Text.partition_of_notMem hcolon, hcolon]

/-- A canonical form has a slash, so it is no image ID, and it is not too long. -/
theorem canonical_admissible (h : r.WellFormed) :
    ¬ (r.canonical = [] ∨ referenceMax < r.canonical.length ∨ isIdentifier r.canonical = true) := by
  have hname : '/' ∈ r.name ∧ r.name.length ≤ nameMax := by
    have hlength := h.length
    unfold Reference.name
    by_cases hregistry : r.registry = []
    · rw [if_pos hregistry] at hlength ⊢
      refine ⟨h.official hregistry, ?_⟩
      rw [List.length_append, List.length_cons] at hlength
      omega
    · rw [if_neg hregistry] at hlength ⊢
      exact ⟨by simp, hlength⟩
  have hcanonical : '/' ∈ r.canonical ∧ r.canonical.length ≤ referenceMax := by
    unfold Reference.canonical
    by_cases hdigest : r.digest = []
    · rw [if_pos hdigest]
      have := (tag_spec (h.tag hdigest)).2.1
      refine ⟨List.mem_append_left _ hname.1, ?_⟩
      simp only [List.length_append, List.length_cons, referenceMax, nameMax] at *
      omega
    · rw [if_neg hdigest]
      have := (sha256_spec (h.digest hdigest)).2.1
      refine ⟨List.mem_append_left _ hname.1, ?_⟩
      simp only [List.length_append, List.length_cons, referenceMax, nameMax] at *
      omega
  rintro (hnil | hlong | hid)
  · rw [hnil] at hcanonical
    cases hcanonical.1
  · exact absurd hcanonical.2 (not_le.mpr hlong)
  · unfold isIdentifier at hid
    rw [Bool.and_eq_true] at hid
    exact absurd (List.all_eq_true.mp hid.2 _ hcanonical.1) (by decide)

/-- **A canonical form is read as what it was written for.** -/
theorem parseReference_canonical (h : r.WellFormed) (hread : ¬ r.Misread) :
    parseReference r.canonical = some r.normal := by
  unfold parseReference
  rw [if_neg (canonical_admissible h)]
  have hdomain : ¬ (r.registry ≠ [] ∧ (!isDomain r.registry) = true) := by
    rintro ⟨hne, hnot⟩
    rw [(h.registry hne).1] at hnot
    cases hnot
  unfold Reference.canonical Reference.normal
  by_cases hdigest : r.digest = []
  · simp only [if_pos hdigest, splitDomain_name h hread, splitRemainder_tag h.repo (h.tag hdigest)]
    rw [if_neg hdomain, if_neg (by simp [h.repo, h.tag hdigest]), if_neg (not_lt.mpr h.length)]
    simp [hdigest]
  · simp only [if_neg hdigest, splitDomain_name h hread, splitRemainder_digest h.repo]
    rw [if_neg hdomain, if_neg (by simp [h.repo, h.digest hdigest]), if_neg (not_lt.mpr h.length)]
    simp [defaultTag]

end Canonical

end Docker

end ProotDistro
