import ProotDistro.Docker.Refs
import ProotDistro.Restore

/-!
# What a reference is called

The name a container is given where the user gives none, and the reference that a push echoes. Both are
read off the text of a reference the grammar has accepted, apart from the grammar itself.

* **`alias_of_reference`** — the alias is the name of a container, and one for all spellings of an image.
* **`withExplicitTag_parses`** — a tag that is written out changes nothing.
-/

namespace ProotDistro

namespace Docker

/-- `parse_image_ref`: the registry, the repository and the tag -/
def parseImageRef (ref : Str) : Str × Str × Str :=
  match parseReference ref with
  | some r => (r.registry, r.repo, r.tag)
  | none => splitLoosely ref

/-- `s.split("/")[-1]` -/
def lastComponent (s : Str) : Str := (s.splitOn '/').getLast?.getD []

/-- `derive_alias` -/
def deriveAlias (ref : Str) : Str := lastComponent (parseImageRef ref).2.1

/-- `with_explicit_tag` -/
def withExplicitTag (ref : Str) : Str :=
  if ':' ∈ lastComponent ref then ref else ref ++ ':' :: latest

/-- `_resolve_install_name`, of an image; `none` is its message that no name can be derived. -/
def resolveInstallName (ref : Str) (custom : Option Str) : Option Str :=
  let derived := if custom.getD [] = [] then deriveAlias ref else custom.getD []
  if Restore.isValidName derived then some derived else none

section Alias

variable {ref s a b : Str} {r : Reference} {c : Char}

/-- The last component is one of the parts. -/
theorem lastComponent_mem (s : Str) : lastComponent s ∈ s.splitOn '/' := by
  unfold lastComponent
  rw [List.getLast?_eq_some_getLast (List.splitOn_ne_nil _ _), Option.getD_some]
  exact List.getLast_mem _

/-- A path component is the name of a container. -/
theorem pathComponent_isValidName (h : isPathComponent s = true) : Restore.isValidName s = true := by
  have haccept : s.foldl componentStep .start = .alnum := of_decide_eq_true h
  have hlower : ∀ {c}, isLowerAlnum c = true → c.isAlphanum = true := by
    intro c hc
    rw [isLowerAlnum, Bool.or_eq_true] at hc
    show (c.isUpper || c.isLower || c.isDigit) = true
    rcases hc with hletter | hdigit
    · have hlower : c.isLower = true := hletter
      rw [hlower, Bool.or_true, Bool.true_or]
    · have hdigit' : c.isDigit = true := hdigit
      rw [hdigit', Bool.or_true]
  cases s with
  | nil => cases haccept
  | cons c s =>
    rw [List.foldl_cons] at haccept
    have hfirst : isLowerAlnum c = true := by
      by_contra hnot
      have hbad : componentStep .start c = .bad := by
        unfold componentStep
        rw [if_neg hnot]
      rw [hbad, foldl_bad] at haccept
      cases haccept
    have hrest : ∀ x ∈ s, isLowerAlnum x = true ∨ x ∈ ['.', '_', '-'] := by
      intro x hx
      refine @foldl_component_char _ _ (componentStep .start c) ?_ hx
      rw [haccept]
      simp
    unfold Restore.isValidName
    rw [Bool.and_eq_true, List.all_eq_true]
    refine ⟨hlower hfirst, fun x hx => ?_⟩
    rcases hrest x hx with hx | hx
    · rw [hlower hx]
      rfl
    · simp only [List.mem_cons, List.not_mem_nil, or_false] at hx
      rcases hx with rfl | rfl | rfl <;> decide

/-- The alias is the last component of the repository. -/
theorem deriveAlias_eq (h : parseReference ref = some r) : deriveAlias ref = lastComponent r.repo := by
  unfold deriveAlias parseImageRef
  rw [h]

/-- **The alias of a reference** that the grammar accepts names a container, so that an install is never
refused for want of a name; and every spelling of an image has the same, unless its canonical form is read
as another image. -/
theorem alias_of_reference (h : parseReference ref = some r) :
    resolveInstallName ref none = some (deriveAlias ref) ∧
      (¬ r.Misread → deriveAlias r.canonical = deriveAlias ref) := by
  have hform := parseReference_wellFormed h
  have hvalid : Restore.isValidName (deriveAlias ref) = true := by
    rw [deriveAlias_eq h]
    apply pathComponent_isValidName
    exact List.all_eq_true.mp hform.repo _ (lastComponent_mem r.repo)
  constructor
  · unfold resolveInstallName
    rw [Option.getD_none, if_pos rfl, if_pos hvalid]
  · intro hread
    rw [deriveAlias_eq (parseReference_canonical hform hread), deriveAlias_eq h]
    rfl

/-- A reference with a registry and a tag, and its canonical form. -/
theorem alias_of_reference_ghcr :
    resolveInstallName "ghcr.io/foo/bar:1.0".toList none = some (deriveAlias "ghcr.io/foo/bar:1.0".toList) := by
  have hparse : parseReference "ghcr.io/foo/bar:1.0".toList =
      some ⟨"ghcr.io".toList, "foo/bar".toList, "1.0".toList, []⟩ := by decide +kernel
  exact (alias_of_reference hparse).1

/-! ## A tag that is written out -/

/-- What stands before the last component is nothing, or ends with a slash. -/
theorem eq_append_lastComponent (s : Str) :
    ∃ pre, s = pre ++ lastComponent s ∧ (pre = [] ∨ '/' ∈ pre.getLast?) := by
  have hne := List.splitOn_ne_nil '/' s
  have hjoin : ∀ (init : List Str) (last : Str), ∃ pre, ['/'].intercalate (init ++ [last]) = pre ++ last ∧
      (pre = [] ∨ '/' ∈ pre.getLast?) := by
    intro init last
    induction init with
    | nil => exact ⟨[], by simp, .inl rfl⟩
    | cons a init ih =>
      obtain ⟨pre, hpre, hend⟩ := ih
      refine ⟨a ++ '/' :: pre, ?_, .inr ?_⟩
      · rw [List.cons_append, List.intercalate_cons_of_ne_nil (by simp), hpre]
        simp
      · rcases hend with rfl | hend
        · simp
        · rw [List.getLast?_append, List.getLast?_cons, Option.mem_def.mp hend]
          simp
  obtain ⟨pre, hpre, hend⟩ := hjoin (s.splitOn '/').dropLast ((s.splitOn '/').getLast hne)
  rw [List.dropLast_append_getLast, List.intercalate_splitOn] at hpre
  refine ⟨pre, ?_, hend⟩
  unfold lastComponent
  rw [List.getLast?_eq_some_getLast hne, Option.getD_some]
  exact hpre

/-- An end without a slash lies in the last component. -/
theorem mem_lastComponent (hb : '/' ∉ b) (hsuffix : b <:+ s) (hc : c ∈ b) : c ∈ lastComponent s := by
  obtain ⟨pre, hpre, hend⟩ := eq_append_lastComponent s
  have hlast : lastComponent s <:+ s := ⟨pre, hpre.symm⟩
  rcases List.suffix_or_suffix_of_suffix hsuffix hlast with h | h
  · exact h.subset hc
  · obtain ⟨mid, rfl⟩ := h
    rcases List.mem_append.mp hc with hmid | hin
    · -- what is in front of the last component ends with a slash, and so would `b` have one
      obtain ⟨front, hfront⟩ := hsuffix
      have hjoined : front ++ mid ++ lastComponent s = pre ++ lastComponent s := by
        rw [List.append_assoc, hfront, ← hpre]
      have hsame : front ++ mid = pre := List.append_cancel_right hjoined
      rcases hend with hnil | hend
      · rw [hnil] at hsame
        rw [(List.append_eq_nil_iff.mp hsame).2] at hmid
        cases hmid
      · have hne : mid ≠ [] := List.ne_nil_of_mem hmid
        rw [← hsame, List.getLast?_append_of_ne_nil _ hne] at hend
        exact absurd (List.mem_append_left _ (List.mem_of_getLast? hend)) hb
    · exact hin

/-- The path a reference leaves for the registry is its end, or the official path of one. -/
theorem splitDomain_path (ref : Str) : ∃ x, x <:+ ref ∧
    ((splitDomain ref).2 = x ∨ (splitDomain ref).2 = officialPrefix ++ x) := by
  have hpath : ∀ x, x <:+ ref → ∀ domain : Str, ∃ y, y <:+ ref ∧
      ((if domain = [] ∧ '/' ∉ x then officialPrefix ++ x else x) = y ∨
        (if domain = [] ∧ '/' ∉ x then officialPrefix ++ x else x) = officialPrefix ++ y) := by
    intro x hx domain
    refine ⟨x, hx, ?_⟩
    split
    · exact .inr rfl
    · exact .inl rfl
  unfold splitDomain
  by_cases hsplit : '/' ∈ ref ∧ isHost (Text.partition '/' ref).1 = true
  · simp only [if_pos hsplit]
    refine hpath _ ⟨(Text.partition '/' ref).1 ++ ['/'], ?_⟩ _
    rw [List.append_assoc]
    exact (Text.eq_partition hsplit.1).symm
  · simp only [if_neg hsplit]
    exact hpath ref List.suffix_rfl _

/-- What is written behind a reference, without a slash, is behind its path. -/
theorem splitDomain_append {t : Str} (ht : '/' ∉ t) :
    splitDomain (ref ++ t) = ((splitDomain ref).1, (splitDomain ref).2 ++ t) := by
  by_cases hmem : '/' ∈ ref
  · obtain ⟨k, v, rfl, hk⟩ := List.eq_append_cons_of_mem hmem
    unfold splitDomain
    rw [List.append_assoc, List.cons_append, Text.partition_append hk, Text.partition_append hk]
    by_cases hhost : isHost k = true
    · simp only [hhost, List.mem_append, List.mem_cons, true_or, or_true, and_self, if_true, ht, or_false]
      split
      · by_cases hv : '/' ∈ v <;> simp [hv]
      · by_cases hv : k = [] ∧ '/' ∉ v <;> simp [hv]
    · simp only [hhost, List.mem_append, List.mem_cons, true_or, or_true]
      simp
  · have hnot : '/' ∉ ref ++ t := by simp [hmem, ht]
    have hnil : ([] : Str) ∉ hubAliases := by decide
    unfold splitDomain
    simp only [hmem, hnot, false_and, if_false, hnil, not_false_eq_true, and_self, if_true]
    rw [List.append_assoc]

/-- A reference without a tag whose digest is left out too is a registry and a path. -/
theorem splitRemainder_of_none (htag : (splitRemainder s).2.1 = none) (hdigest : (splitRemainder s).2.2 = none) :
    (splitRemainder s).1 = s := by
  have hparts := splitRemainder_spec s
  rw [htag, hdigest] at hparts
  simpa using hparts.symm

/-- What is behind the path of a reference is the end of its last component. -/
theorem lastComponent_of_path (hb : '/' ∉ b) (hsuffix : b <:+ (splitDomain ref).2) (hc : c ∈ b) :
    c ∈ lastComponent ref := by
  obtain ⟨x, hx, hpath⟩ := splitDomain_path ref
  rcases hpath with hpath | hpath
  · exact mem_lastComponent hb ((hpath ▸ hsuffix).trans hx) hc
  · rw [hpath] at hsuffix
    rcases List.suffix_or_suffix_of_suffix hsuffix (List.suffix_append officialPrefix x) with h | h
    · exact mem_lastComponent hb (h.trans hx) hc
    · -- the official path ends with a slash, so nothing longer than `x` is without one
      obtain ⟨mid, rfl⟩ := h
      cases hmid : mid.getLast? with
      | none =>
        rw [List.getLast?_eq_none_iff] at hmid
        rw [hmid, List.nil_append] at hb hc
        exact mem_lastComponent hb hx hc
      | some last =>
        obtain ⟨front, hfront⟩ := hsuffix
        have hjoined : front ++ mid ++ x = officialPrefix ++ x := by
          rw [List.append_assoc, hfront]
        have hsame : front ++ mid = officialPrefix := List.append_cancel_right hjoined
        have hslash : last = '/' := by
          have hne : mid ≠ [] := by
            rintro rfl
            cases hmid
          have hlast : (front ++ mid).getLast? = some '/' := by
            rw [hsame]
            decide
          rw [List.getLast?_append_of_ne_nil _ hne, hmid] at hlast
          exact Option.some.inj hlast
        rw [hslash] at hmid
        exact absurd (List.mem_append_left _ (List.mem_of_getLast? hmid)) hb

/-- No reference is much longer than the registry and the path it is split into. -/
theorem length_le_splitDomain (ref : Str) :
    ref.length ≤ (splitDomain ref).1.length + (splitDomain ref).2.length + 16 := by
  have hpath : ∀ (domain x : Str), x.length ≤ (if domain = [] ∧ '/' ∉ x then officialPrefix ++ x else x).length := by
    intro domain x
    split
    · rw [List.length_append]
      omega
    · exact le_rfl
  unfold splitDomain
  by_cases hsplit : '/' ∈ ref ∧ isHost (Text.partition '/' ref).1 = true
  · simp only [if_pos hsplit]
    have hlength := congrArg List.length (Text.eq_partition hsplit.1)
    rw [List.length_append, List.length_cons] at hlength
    have hhost : (Text.partition '/' ref).1.length ≤
        (if (Text.partition '/' ref).1 ∈ hubAliases then [] else (Text.partition '/' ref).1).length + 15 := by
      split
      · rename_i halias
        have hshort : ∀ k ∈ hubAliases, k.length ≤ 15 := by decide
        exact (hshort _ halias).trans (Nat.le_add_left _ _)
      · exact Nat.le_add_right _ _
    have := hpath (if (Text.partition '/' ref).1 ∈ hubAliases then [] else (Text.partition '/' ref).1)
      (Text.partition '/' ref).2
    omega
  · simp only [if_neg hsplit]
    have := hpath (if ([] : Str) ∈ hubAliases then [] else []) ref
    omega

/-- What a reference is that is accepted and whose last component has no colon. -/
theorem untagged_spec (h : parseReference ref = some r) (hcolon : ':' ∉ lastComponent ref) :
    ((splitDomain ref).1 ≠ [] → isDomain (splitDomain ref).1 = true) ∧
      isRemoteName (splitDomain ref).2 = true ∧
      ((if (splitDomain ref).1 = [] then defaultDomain else (splitDomain ref).1) ++
        '/' :: (splitDomain ref).2).length ≤ nameMax ∧
      r = ⟨(splitDomain ref).1, (splitDomain ref).2, latest, []⟩ := by
  unfold parseReference at h
  by_cases hadmissible : ref = [] ∨ referenceMax < ref.length ∨ isIdentifier ref = true
  · rw [if_pos hadmissible] at h
    cases h
  rw [if_neg hadmissible] at h
  dsimp only at h
  by_cases hdomain : (splitDomain ref).1 ≠ [] ∧ (!isDomain (splitDomain ref).1) = true
  · rw [if_pos hdomain] at h
    cases h
  rw [if_neg hdomain] at h
  by_cases hgrammar : (!(isRemoteName (splitRemainder (splitDomain ref).2).1 &&
      (splitRemainder (splitDomain ref).2).2.1.all isTag &&
      (splitRemainder (splitDomain ref).2).2.2.all isSha256)) = true
  · rw [if_pos hgrammar] at h
    cases h
  rw [if_neg hgrammar] at h
  rw [Bool.not_eq_true, Bool.not_eq_false', Bool.and_eq_true, Bool.and_eq_true] at hgrammar
  obtain ⟨⟨hrepo, htag⟩, hsha⟩ := hgrammar
  have hparts := splitRemainder_spec (splitDomain ref).2
  -- a digest and a tag would both put a colon into the last component
  have hdigest : (splitRemainder (splitDomain ref).2).2.2 = none := by
    cases hd : (splitRemainder (splitDomain ref).2).2.2 with
    | none => rfl
    | some digest =>
      rw [hd] at hsha hparts
      have hslash := (sha256_spec hsha).2.2
      have hcolon' : ':' ∈ digest := by
        unfold isSha256 at hsha
        rw [Option.all_some, Bool.and_eq_true] at hsha
        exact (List.isPrefixOf_iff_prefix.mp hsha.1).subset (by decide)
      refine absurd (lastComponent_of_path (b := '@' :: digest) ?_ ⟨_, hparts.symm⟩
        (List.mem_cons_of_mem _ hcolon')) hcolon
      simpa using hslash
  have hnone : (splitRemainder (splitDomain ref).2).2.1 = none := by
    cases ht : (splitRemainder (splitDomain ref).2).2.1 with
    | none => rfl
    | some tag =>
      rw [ht] at htag
      rw [ht, hdigest] at hparts
      have hslash := (tag_spec htag).2.2.2
      refine absurd (lastComponent_of_path (b := ':' :: tag) ?_ ⟨(splitRemainder (splitDomain ref).2).1, ?_⟩
        List.mem_cons_self) hcolon
      · simpa using hslash
      · simpa using hparts.symm
  rw [splitRemainder_of_none hnone hdigest] at h hrepo
  rw [hnone, hdigest] at h
  by_cases hlength : nameMax < ((if (splitDomain ref).1 = [] then defaultDomain else (splitDomain ref).1) ++
      '/' :: (splitDomain ref).2).length
  · rw [if_pos hlength] at h
    cases h
  rw [if_neg hlength] at h
  refine ⟨fun hne => ?_, hrepo, not_lt.mp hlength, (Option.some.inj h).symm⟩
  rw [not_and] at hdomain
  simpa using hdomain hne

/-- **A tag that is written out changes nothing**: what a push echoes is read as the reference it was
given. -/
theorem withExplicitTag_parses (h : parseReference ref = some r) :
    parseReference (withExplicitTag ref) = some r := by
  unfold withExplicitTag
  split
  · exact h
  · rename_i hcolon
    obtain ⟨hdomain, hrepo, hlength, rfl⟩ := untagged_spec h hcolon
    have hshort := length_le_splitDomain ref
    have hadmissible : ¬ (ref ++ ':' :: latest = [] ∨ referenceMax < (ref ++ ':' :: latest).length ∨
        isIdentifier (ref ++ ':' :: latest) = true) := by
      rintro (hnil | hlong | hid)
      · simp at hnil
      · have hlatest : latest.length = 6 := by decide
        unfold nameMax at hlength
        unfold referenceMax at hlong
        rw [List.length_append, List.length_cons] at hlength hlong
        have hfirst : (splitDomain ref).1.length ≤
            (if (splitDomain ref).1 = [] then defaultDomain else (splitDomain ref).1).length := by
          split
          · rename_i hnil
            rw [hnil]
            exact Nat.zero_le _
          · exact le_rfl
        omega
      · unfold isIdentifier at hid
        rw [Bool.and_eq_true] at hid
        exact absurd (List.all_eq_true.mp hid.2 ':' (by simp)) (by decide)
    unfold parseReference
    rw [if_neg hadmissible]
    simp only [splitDomain_append (show '/' ∉ ':' :: latest by decide),
      splitRemainder_tag hrepo (show isTag latest = true by decide)]
    rw [if_neg (by simpa using hdomain), if_neg (by simp [hrepo, show isTag latest = true by decide]),
      if_neg (not_lt.mpr hlength)]
    rfl

/-- A path of the Hub, whose tag is not written. -/
theorem withExplicitTag_parses_ubuntu :
    parseReference (withExplicitTag "ubuntu".toList) =
      some ⟨[], "library/ubuntu".toList, latest, []⟩ := by
  have hparse : parseReference "ubuntu".toList = some ⟨[], "library/ubuntu".toList, latest, []⟩ := by
    decide +kernel
  exact withExplicitTag_parses hparse

end Alias

end Docker

end ProotDistro
