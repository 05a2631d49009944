import ProotDistro.Docker.Refs

/-!
# When a canonical form is faithful

The canonical form leaves `docker.io` out and is read by the same rules as any reference, so a
path of the Hub that starts like a host is written as the image of another registry. This says
exactly when a form is read back to itself, and when two images share one.

* **`canonical_stable_iff`** — one reference and its form.
* **`canonical_eq_iff`** — two references with one form.
* **`canonical_faithful_iff`** — both together.
-/

namespace ProotDistro

namespace Docker

/-- The same registry, the same repository, and the same tag or digest. -/
def SameImage (r r' : Reference) : Prop :=
  r.registry = r'.registry ∧ r.repo = r'.repo ∧ r.digest = r'.digest ∧
    r.manifestRef = r'.manifestRef

/-- A canonical form that is a reference again, with itself for its canonical form. -/
def Stable (r : Reference) : Prop :=
  ∃ r', parseReference r.canonical = some r' ∧ r'.canonical = r.canonical

/-- What is promised of two references. -/
def Faithful (r r' : Reference) : Prop :=
  Stable r ∧ Stable r' ∧ (r.canonical = r'.canonical → SameImage r r')

/-- The first component of the repository. -/
def Reference.first (r : Reference) : Str := (Text.partition '/' r.repo).1

/-- A Hub path that reads as an image of another registry can be one. -/
def Tolerable (r : Reference) : Prop :=
  r.Misread → isDomain r.first = true ∧ r.first ∉ hubAliases

/-- A path of the Hub that spells out the registry and the repository of another reference, with the
same tag or digest. -/
def Spells (r r' : Reference) : Prop :=
  r.registry = [] ∧ r'.registry ≠ [] ∧ r.repo = r'.registry ++ '/' :: r'.repo ∧
    r.digest = r'.digest ∧ r.manifestRef = r'.manifestRef

section Forms

variable {ref ref' s : Str} {r r' : Reference} {c : Char}

/-- A registry has no `@`. -/
theorem domain_notMem (h : isDomain s = true) : '@' ∉ s := fun hmem =>
  absurd (domain_chars h '@' hmem) (by decide)

/-- A name has no at sign. -/
theorem name_notMem (h : r.WellFormed) : '@' ∉ r.name := by
  have hrepo := (remoteName_notMem h.repo).2
  unfold Reference.name
  by_cases hregistry : r.registry = []
  · rw [if_pos hregistry]
    exact hrepo
  · rw [if_neg hregistry]
    simp [domain_notMem (h.registry hregistry).1, hrepo]

/-- A tag has no colon. -/
theorem tag_notMem_colon (h : isTag s = true) : ':' ∉ s := by
  cases s with
  | nil => cases h
  | cons a s =>
    unfold isTag at h
    simp only [Bool.and_eq_true] at h
    intro hmem
    rcases List.mem_cons.mp hmem with rfl | hin
    · exact absurd h.1.1 (by decide)
    · exact absurd (List.all_eq_true.mp h.2 _ hin) (by decide)

/-- A canonical form tells its name and its tag or digest apart. -/
theorem canonical_inj (h : r.WellFormed) (h' : r'.WellFormed) :
    r.canonical = r'.canonical ↔
      r.name = r'.name ∧ r.digest = r'.digest ∧ r.manifestRef = r'.manifestRef := by
  -- a digest puts an at sign into the form, and a tag does not
  have hplain : ∀ q : Reference, q.WellFormed → q.digest = [] → '@' ∉ q.canonical := by
    intro q hq hdigest
    unfold Reference.canonical
    rw [if_pos hdigest]
    simp [name_notMem hq, (tag_spec (hq.tag hdigest)).2.2.1]
  have hpinned : ∀ q : Reference, q.WellFormed → q.digest ≠ [] →
      Text.partition '@' q.canonical = (q.name, q.digest) := by
    intro q hq hdigest
    unfold Reference.canonical
    rw [if_neg hdigest]
    exact Text.partition_append (name_notMem hq)
  have hmem : ∀ q : Reference, q.digest ≠ [] → '@' ∈ q.canonical := by
    intro q hdigest
    unfold Reference.canonical
    rw [if_neg hdigest]
    simp
  -- from the right, the first colon is the tag's
  have htagged : ∀ q : Reference, q.WellFormed → q.digest = [] →
      Text.partition ':' q.canonical.reverse = (q.tag.reverse, q.name.reverse) := by
    intro q hq hdigest
    unfold Reference.canonical
    rw [if_pos hdigest, List.reverse_append, List.reverse_cons, List.append_assoc]
    exact Text.partition_append (by simpa using tag_notMem_colon (hq.tag hdigest))
  constructor
  · intro heq
    -- two tagged forms
    by_cases hdigest : r.digest = []
    · have hdigest' : r'.digest = [] := by
        by_contra hne
        exact hplain r h hdigest (heq ▸ hmem r' hne)
      have hparts := htagged r h hdigest
      rw [heq, htagged r' h' hdigest'] at hparts
      obtain ⟨htag, hname⟩ := Prod.mk.inj hparts
      refine ⟨(List.reverse_inj.mp hname).symm, hdigest.trans hdigest'.symm, ?_⟩
      unfold Reference.manifestRef
      rw [if_pos hdigest, if_pos hdigest', List.reverse_inj.mp htag]
    -- two pinned forms
    · have hdigest' : r'.digest ≠ [] := fun hnil =>
        hplain r' h' hnil (heq ▸ hmem r hdigest)
      have hparts := hpinned r h hdigest
      rw [heq, hpinned r' h' hdigest'] at hparts
      obtain ⟨hname, hsame⟩ := Prod.mk.inj hparts
      refine ⟨hname.symm, hsame.symm, ?_⟩
      unfold Reference.manifestRef
      rw [if_neg hdigest, if_neg hdigest', hsame]
  · rintro ⟨hname, hdigest, hmanifest⟩
    unfold Reference.canonical
    unfold Reference.manifestRef at hmanifest
    rw [hname, hdigest]
    rw [hdigest] at hmanifest
    split
    · rename_i hnil
      rw [if_pos hnil, if_pos hnil] at hmanifest
      rw [hmanifest]
    · rfl

/-- **Two images share a form** when they are one image, or when one of them is the Hub path that
spells out the other. -/
theorem canonical_eq_iff (h : r.WellFormed) (h' : r'.WellFormed) :
    r.canonical = r'.canonical ↔ SameImage r r' ∨ Spells r r' ∨ Spells r' r := by
  rw [canonical_inj h h']
  unfold SameImage Spells Reference.name
  by_cases hregistry : r.registry = []
  · by_cases hregistry' : r'.registry = []
    · simp [hregistry, hregistry']
    · simp only [if_neg hregistry', hregistry, true_and]
      simp [hregistry', Ne.symm hregistry']
  · by_cases hregistry' : r'.registry = []
    · simp only [if_neg hregistry, hregistry', true_and]
      constructor
      · rintro ⟨hname, hdigest, hmanifest⟩
        exact .inr (.inr ⟨hregistry, hname.symm, hdigest.symm, hmanifest.symm⟩)
      · rintro (⟨hnil, -⟩ | ⟨hnil, -⟩ | ⟨-, hname, hdigest, hmanifest⟩)
        · exact absurd hnil hregistry
        · exact absurd hnil hregistry
        · exact ⟨hname.symm, hdigest.symm, hmanifest.symm⟩
    · simp only [hregistry, hregistry', if_false, false_and, or_false]
      refine ⟨fun ⟨hname, hrest⟩ => ?_, fun ⟨hreg, hrepo, hrest⟩ => ⟨by rw [hreg, hrepo], hrest⟩⟩
      have hparts := Text.partition_append (v := r.repo) (h.registry hregistry).2.2.1
      rw [hname, Text.partition_append (h'.registry hregistry').2.2.1] at hparts
      obtain ⟨hreg, hrepo⟩ := Prod.mk.inj hparts
      exact ⟨hreg.symm, hrepo.symm, hrest⟩

/-- What is not misread is stable. -/
theorem stable_of_read (h : r.WellFormed) (hread : ¬ r.Misread) : Stable r := by
  refine ⟨r.normal, parseReference_canonical h hread, ?_⟩
  unfold Reference.normal Reference.canonical Reference.name
  by_cases hdigest : r.digest = [] <;> simp [hdigest]

/-- The image a misread path is taken for. -/
def Reference.misreading (r : Reference) : Reference :=
  { r with registry := r.first, repo := (Text.partition '/' r.repo).2 }

/-- A repository that is misread has a first part and the rest. -/
theorem repo_eq_first (h : r.WellFormed) (hmisread : r.Misread) :
    r.repo = r.first ++ '/' :: (Text.partition '/' r.repo).2 :=
  Text.eq_partition (h.official hmisread.1)

/-- That rest is a remote name again. -/
theorem tail_remoteName (h : r.WellFormed) (hmisread : r.Misread) :
    isRemoteName (Text.partition '/' r.repo).2 = true := by
  have hall := h.repo
  unfold isRemoteName at hall ⊢
  rw [repo_eq_first h hmisread, List.splitOn_append_cons_self, List.all_append,
    Bool.and_eq_true] at hall
  exact hall.2

/-- What it is misread as is well formed. -/
theorem misreading_wellFormed (h : r.WellFormed) (hmisread : r.Misread)
    (hfirst : isDomain r.first = true) (halias : r.first ∉ hubAliases) :
    r.misreading.WellFormed := by
  have hrepo := repo_eq_first h hmisread
  have hslash : '/' ∉ r.first := Text.notMem_partition_fst _ _
  have hne : r.first ≠ [] := by
    intro hnil
    rw [hnil] at hfirst
    exact absurd hfirst (by decide)
  refine ⟨fun _ => ⟨hfirst, hmisread.2, hslash, halias⟩, fun hnil => absurd hnil hne,
    tail_remoteName h hmisread, h.tag, h.digest, ?_⟩
  · have hlength := h.length
    rw [if_pos hmisread.1, hrepo] at hlength
    change ((if r.first = [] then defaultDomain else r.first) ++
      '/' :: (Text.partition '/' r.repo).2).length ≤ nameMax
    rw [if_neg hne]
    simp only [List.length_append, List.length_cons] at hlength ⊢
    omega

/-- It has the same canonical form. -/
theorem misreading_canonical (h : r.WellFormed) (hmisread : r.Misread) (hne : r.first ≠ []) :
    r.misreading.canonical = r.canonical := by
  have hname : r.misreading.name = r.name := by
    change (if r.first = [] then _ else r.first ++ '/' :: (Text.partition '/' r.repo).2) =
      (if r.registry = [] then r.repo else _)
    rw [if_neg hne, if_pos hmisread.1]
    exact (repo_eq_first h hmisread).symm
  unfold Reference.canonical
  rw [hname]
  rfl

/-- Whatever a misread form is parsed to, it was taken apart at its first component. -/
theorem splitDomain_misread (h : r.WellFormed) (hmisread : r.Misread) (rest : Str) :
    let tail := (Text.partition '/' r.repo).2 ++ rest
    splitDomain (r.name ++ rest) =
      (if r.first ∈ hubAliases then [] else r.first,
        if r.first ∈ hubAliases ∧ '/' ∉ tail then officialPrefix ++ tail else tail) := by
  have hname : r.name = r.first ++ '/' :: (Text.partition '/' r.repo).2 := by
    unfold Reference.name
    rw [if_pos hmisread.1]
    exact repo_eq_first h hmisread
  have hslash : '/' ∉ r.first := Text.notMem_partition_fst _ _
  have hhost : isHost r.first = true := hmisread.2
  have hne : r.first ≠ [] := by
    intro hnil
    rw [hnil] at hhost
    exact absurd hhost (by decide)
  unfold splitDomain
  rw [hname, List.append_assoc, List.cons_append]
  simp only [Text.partition_append hslash]
  by_cases halias : r.first ∈ hubAliases <;> simp [hhost, halias, hne]

/-- **A form is read back to itself** unless it starts like a host that is none, or like the Hub. -/
theorem canonical_stable_iff (h : r.WellFormed) : Stable r ↔ Tolerable r := by
  unfold Tolerable
  -- a first component that looks like a host is read as the registry
  by_cases hmisread : r.Misread
  · simp only [hmisread, true_imp_iff]
    have hhost : isHost r.first = true := hmisread.2
    have hne : r.first ≠ [] := by
      intro hnil
      rw [hnil] at hhost
      exact absurd hhost (by decide)
    constructor
    -- what a reading that succeeds gives is split as the form is
    · rintro ⟨r', hparse, hcanonical⟩
      have hform' := parseReference_wellFormed hparse
      have hsplit : ∃ rest, r.canonical = r.name ++ rest ∧
          (∀ repo, isRemoteName repo = true → (splitRemainder (repo ++ rest)).1 = repo) := by
        unfold Reference.canonical
        by_cases hdigest : r.digest = []
        · refine ⟨':' :: r.tag, if_pos hdigest, fun repo hrepo => ?_⟩
          rw [splitRemainder_tag hrepo (h.tag hdigest)]
        · refine ⟨'@' :: r.digest, if_neg hdigest, fun repo hrepo => ?_⟩
          rw [splitRemainder_digest hrepo]
      obtain ⟨rest, hrest, hgroups⟩ := hsplit
      have hparsed := hparse
      unfold parseReference at hparsed
      rw [if_neg (canonical_admissible h), hrest, splitDomain_misread h hmisread] at hparsed
      simp only [Option.ite_none_left_eq_some] at hparsed
      obtain ⟨hdomain, -, -, hresult⟩ := hparsed
      by_cases halias : r.first ∈ hubAliases
      · -- the Hub is left out once more
        exfalso
        rw [if_pos halias] at hresult
        have hregistry : r'.registry = [] := by
          cases hresult
          rfl
        have hname := ((canonical_inj hform' h).mp hcanonical).1
        have hrepo : r'.repo = r.first ++ '/' :: (Text.partition '/' r.repo).2 := by
          unfold Reference.name at hname
          rw [if_pos hregistry, if_pos hmisread.1] at hname
          rw [hname]
          exact repo_eq_first h hmisread
        have hofficial : ∀ tail rest : Str, officialPrefix ++ (tail ++ rest) =
            (officialPrefix ++ tail) ++ rest := fun tail rest => (List.append_assoc _ _ _).symm
        have htail := tail_remoteName h hmisread
        have hlibrary : isRemoteName (officialPrefix ++ (Text.partition '/' r.repo).2) = true := by
          have hsplit : (officialPrefix ++ (Text.partition '/' r.repo).2).splitOn '/' =
              "library".toList.splitOn '/' ++ ((Text.partition '/' r.repo).2).splitOn '/' :=
            List.splitOn_append_cons_self "library".toList _
          unfold isRemoteName at htail ⊢
          rw [hsplit, List.all_append, htail]
          decide
        have hread : r'.repo = (Text.partition '/' r.repo).2 ∨
            r'.repo = officialPrefix ++ (Text.partition '/' r.repo).2 := by
          cases hresult
          change (splitRemainder _).1 = _ ∨ (splitRemainder _).1 = _
          split
          · rw [hofficial, hgroups _ hlibrary]
            exact .inr rfl
          · rw [hgroups _ htail]
            exact .inl rfl
        rcases hread with hsame | hsame
        · rw [hsame] at hrepo
          have hlength := congrArg List.length hrepo
          rw [List.length_append, List.length_cons] at hlength
          omega
        · rw [hsame] at hrepo
          have hfirst : "library".toList = r.first := by
            have hjoin : "library".toList ++ '/' :: (Text.partition '/' r.repo).2 =
                r.first ++ '/' :: (Text.partition '/' r.repo).2 := hrepo
            exact List.append_cancel_right hjoin
          rw [← hfirst] at halias
          exact absurd halias (by decide)
      · refine ⟨?_, halias⟩
        rw [if_neg halias] at hdomain
        simpa [hne] using hdomain
    -- a host of a registry other than the Hub is put in front again
    · rintro ⟨hfirst, halias⟩
      have hform := misreading_wellFormed h hmisread hfirst halias
      have hread : ¬ r.misreading.Misread := fun hwrong => hne hwrong.1
      obtain ⟨r', hparse, hcanonical⟩ := stable_of_read hform hread
      rw [misreading_canonical h hmisread hne] at hparse hcanonical
      exact ⟨r', hparse, hcanonical⟩
  -- any other first component is read as part of the name
  · simp only [hmisread, false_imp_iff, iff_true]
    exact stable_of_read h hmisread

/-- **The canonical form is faithful to two references exactly when** a Hub path among them that
starts like a host starts like a registry that is not the Hub, and neither is the Hub path that
spells out the other. -/
theorem canonical_faithful_iff (h : parseReference ref = some r)
    (h' : parseReference ref' = some r') :
    Faithful r r' ↔ Tolerable r ∧ Tolerable r' ∧ ¬ Spells r r' ∧ ¬ Spells r' r := by
  have hform := parseReference_wellFormed h
  have hform' := parseReference_wellFormed h'
  unfold Faithful
  rw [canonical_stable_iff hform, canonical_stable_iff hform', canonical_eq_iff hform hform']
  refine and_congr_right fun _ => and_congr_right fun _ => ?_
  constructor
  · intro hsame
    refine ⟨fun hspells => ?_, fun hspells => ?_⟩
    · have hregistry := (hsame (.inr (.inl hspells))).1
      exact hspells.2.1 (hregistry ▸ hspells.1)
    · have hregistry := (hsame (.inr (.inr hspells))).1
      exact hspells.2.1 (hregistry.symm ▸ hspells.1)
  · rintro ⟨hnot, hnot'⟩ (hsame | hspells | hspells)
    · exact hsame
    · exact absurd hspells hnot
    · exact absurd hspells hnot'

end Forms

/-- `ubuntu`, whichever way it is written. -/
theorem canonical_faithful_ubuntu :
    ∃ r r', parseReference "ubuntu".toList = some r ∧
      parseReference "docker.io/library/ubuntu:latest".toList = some r' ∧ Faithful r r' := by
  have hplain : parseReference "ubuntu".toList =
      some ⟨[], "library/ubuntu".toList, latest, []⟩ := by
    decide +kernel
  have hfull : parseReference "docker.io/library/ubuntu:latest".toList =
      some ⟨[], "library/ubuntu".toList, latest, []⟩ := by
    decide +kernel
  have hread : ¬ (⟨[], "library/ubuntu".toList, latest, []⟩ : Reference).Misread := by
    decide +kernel
  refine ⟨_, _, hplain, hfull, (canonical_faithful_iff hplain hfull).mpr ⟨?_, ?_, ?_, ?_⟩⟩
  · exact fun hmisread => absurd hmisread hread
  · exact fun hmisread => absurd hmisread hread
  · exact fun hspells => hspells.2.1 rfl
  · exact fun hspells => hspells.2.1 rfl

/-- A path of the Hub and an image of another registry share a form. -/
theorem canonical_unfaithful :
    ∃ r r', parseReference "docker.io/foo.bar/baz".toList = some r ∧
      parseReference "foo.bar/baz".toList = some r' ∧ ¬ Faithful r r' := by
  have hhub : parseReference "docker.io/foo.bar/baz".toList =
      some ⟨[], "foo.bar/baz".toList, latest, []⟩ := by
    decide +kernel
  have hother : parseReference "foo.bar/baz".toList =
      some ⟨"foo.bar".toList, "baz".toList, latest, []⟩ := by
    decide +kernel
  refine ⟨_, _, hhub, hother, fun hfaithful => ?_⟩
  have hregistry := (hfaithful.2.2 rfl).1
  exact absurd hregistry (by decide)

end Docker

end ProotDistro
