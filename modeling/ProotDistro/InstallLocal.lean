import ProotDistro.Docker.Pull

/-!
# `commands/install_local`: which image of an archive is installed

An archive's index may hold images for several platforms, and so may the index a registry answers
with. The entry for an architecture is picked by two functions: the one here asks for the
architecture and for an operating system that says Linux, and takes the first entry; the one of a
pull takes a missing operating system for Linux, and asks for the architecture's variant first.

The members of the archive are what reading a blob by its digest answers; messages are left out.

* **`localEntry_eq`** — the first entry for the architecture that says Linux.
* **`platform_agrees_iff`** — the indexes the two functions pick the same entry of.
-/

namespace ProotDistro

open Docker

namespace InstallLocal

/-! ## The pick -/

/-- `_oci_digest` -/
def ociDigest (entry : Dict Str Json) : Option Str :=
  ((Dict.get entry "digest".toList).bind Json.asStr?).filter fun digest => digest ≠ []

/-- The digest of a manifest's config, where it names one. -/
def configDigest (manifest : Dict Str Json) : Option Str :=
  (((Dict.get manifest "config".toList).bind Json.asObj?).bind fun config =>
    (Dict.get config "digest".toList).bind Json.asStr?).filter fun digest => digest ≠ []

/-- `_oci_find_manifest_entry` where no entry says what it is for: the configs say it. -/
def findByConfig (readBlobJson : Str → Option (Dict Str Json)) (dockerArch : Str) :
    List (Dict Str Json) → Option (Dict Str Json)
  | [] => none
  | entry :: entries =>
    match (ociDigest entry).bind readBlobJson with
    | none => none
    | some manifest =>
      match configDigest manifest with
      | none => findByConfig readBlobJson dockerArch entries
      | some digest =>
        match readBlobJson digest with
        | none => none
        | some imageConfig =>
          if Dict.get imageConfig "architecture".toList = some (.str dockerArch) then some entry
          else findByConfig readBlobJson dockerArch entries

/-- The platform of an entry, where it is an object. -/
def platformOf (entry : Dict Str Json) : Option (Dict Str Json) :=
  (Dict.get entry "platform".toList).bind Json.asObj?

/-- The platform says Linux and the architecture. -/
def saysPlatform (platform : Dict Str Json) (dockerArch : Str) : Bool :=
  Dict.get platform "architecture".toList = some (.str dockerArch) ∧
    Dict.get platform "os".toList = some (.str "linux".toList)

/-- `_oci_find_manifest_entry` -/
def findManifestEntry (readBlobJson : Str → Option (Dict Str Json))
    (indexManifests : List (Dict Str Json)) (distArch : Str) : Option (Dict Str Json) :=
  match indexManifests with
  | [entry] => some entry
  | _ =>
    let dockerArch := ((Dict.get archToDocker distArch).getD (distArch, [])).1
    let platformEntries := indexManifests.filter fun e => (platformOf e).isSome
    if platformEntries = [] then findByConfig readBlobJson dockerArch indexManifests
    else platformEntries.find? fun e => (platformOf e).any fun p => saysPlatform p dockerArch

/-- The entry an archive with this index is installed from. -/
def localEntry (readBlobJson : Str → Option (Dict Str Json)) (index : List Json) (distArch : Str) :
    Option Json :=
  (findManifestEntry readBlobJson (index.filterMap Json.asObj?) distArch).map .obj

/-- The entry a pull of this index follows. -/
def pulledEntry (index : List Json) (distArch : Str) : Option Json :=
  let docker := (Dict.get archToDocker distArch).getD (distArch, [])
  pickPlatform index docker.1 docker.2

/-! ## The two picks -/

/-- The entry is an object with a platform object. -/
def HasPlatform (entry : Json) : Prop :=
  ∃ fields platform, entry = .obj fields ∧
    Dict.get fields "platform".toList = some (.obj platform)

/-- A pull takes the entry for one of the architecture. -/
def offered (dockerArch : Str) (entry : Json) : Bool :=
  (entryPlatform entry).any fun p => onLinux p dockerArch

/-- The entry says which operating system it is for. -/
def statesOs (entry : Json) : Bool :=
  (entryPlatform entry).any fun p => (Dict.get p "os".toList).isSome

/-- The entry names no variant but the one that is asked for. -/
def fits (variant : Str) (entry : Json) : Bool :=
  (entryPlatform entry).any fun p => variantFits p variant

section Picks

variable {index : List Json} {entry : Json} {dockerArch variant distArch : Str}
  {readBlobJson : Str → Option (Dict Str Json)}

/-- An entry says its platform when it is for Linux and names a system. -/
theorem saysPlatform_eq (platform : Dict Str Json) :
    saysPlatform platform dockerArch =
      (onLinux platform dockerArch && (Dict.get platform "os".toList).isSome) := by
  unfold saysPlatform onLinux
  rw [Bool.eq_iff_iff, decide_eq_true_eq, Bool.and_eq_true, Bool.and_eq_true]
  constructor
  · rintro ⟨harch, hos⟩
    rw [harch, hos]
    simp
  · rintro ⟨⟨hos, harch⟩, hsome⟩
    refine ⟨?_, ?_⟩
    · split at harch
      · rename_i a ha
        rw [ha, of_decide_eq_true harch]
      · cases harch
    · split at hos
      · rename_i hnone
        rw [hnone] at hsome
        cases hsome
      · rename_i os hstr
        rw [hstr, of_decide_eq_true hos]
      · cases hos

/-- The entry of an archive that says Linux is one a pull takes and that says its system. -/
theorem saysPlatform_any (h : HasPlatform entry) :
    (entry.asObj?.bind platformOf).any (fun p => saysPlatform p dockerArch) =
      (offered dockerArch entry && statesOs entry) := by
  obtain ⟨fields, platform, rfl, hplat⟩ := h
  have hown : platformOf fields = some platform := by
    unfold platformOf
    rw [hplat]
    rfl
  have hentry : entryPlatform (.obj fields) = some platform := by
    unfold entryPlatform Json.asObj?
    rw [Option.bind_some, hplat]
  unfold offered statesOs
  rw [hentry]
  show (platformOf fields).any _ = _
  rw [hown]
  exact saysPlatform_eq platform

/-- **The pick of an archive**, where the index has several entries and all say their platform. -/
theorem localEntry_eq (hmulti : 2 ≤ index.length) (hplat : ∀ e ∈ index, HasPlatform e) :
    localEntry readBlobJson index distArch =
      index.find? fun e =>
        offered ((Dict.get archToDocker distArch).getD (distArch, [])).1 e && statesOs e := by
  obtain ⟨entries, rfl⟩ : ∃ entries : List (Dict Str Json), index = entries.map Json.obj := by
    refine ⟨index.filterMap Json.asObj?, ?_⟩
    clear hmulti
    induction index with
    | nil => rfl
    | cons e index ih =>
      obtain ⟨fields, platform, rfl, -⟩ := hplat e List.mem_cons_self
      rw [List.filterMap_cons_some (show (Json.obj fields).asObj? = some fields from rfl),
        List.map_cons, ← ih fun e' he' => hplat e' (List.mem_cons_of_mem _ he')]
  have hown : ∀ e ∈ entries, (platformOf e).isSome = true := by
    intro e he
    obtain ⟨fields, platform, heq, hget⟩ := hplat (.obj e) (List.mem_map_of_mem he)
    cases heq
    unfold platformOf
    rw [hget]
    rfl
  have hobjs : (entries.map Json.obj).filterMap Json.asObj? = entries := by
    rw [List.filterMap_map]
    exact List.filterMap_some
  have hfilter : (entries.filter fun e => (platformOf e).isSome) = entries :=
    List.filter_eq_self.mpr hown
  unfold localEntry findManifestEntry
  rw [hobjs, List.find?_map]
  rw [List.length_map] at hmulti
  split
  · rename_i one
    exact absurd hmulti (by simp)
  · dsimp only
    rw [hfilter, if_neg (by rintro rfl; simp at hmulti)]
    congr 1
    apply List.find?_congr
    intro e he
    exact saysPlatform_any (hplat (.obj e) (List.mem_map_of_mem he))

/-- The first entry a pull takes, among those that name no variant but its own. -/
theorem pulledEntry_eq :
    pulledEntry index distArch =
      (index.find? fun e => offered ((Dict.get archToDocker distArch).getD (distArch, [])).1 e &&
        fits ((Dict.get archToDocker distArch).getD (distArch, [])).2 e).or
        (index.find? (offered ((Dict.get archToDocker distArch).getD (distArch, [])).1)) := by
  unfold pulledEntry pickPlatform
  dsimp only
  have hboth : (fun e => (entryPlatform e).any fun p =>
        onLinux p ((Dict.get archToDocker distArch).getD (distArch, [])).1 &&
          variantFits p ((Dict.get archToDocker distArch).getD (distArch, [])).2) =
      fun e => offered ((Dict.get archToDocker distArch).getD (distArch, [])).1 e &&
        fits ((Dict.get archToDocker distArch).getD (distArch, [])).2 e := by
    funext e
    unfold offered fits
    cases entryPlatform e with
    | none => rfl
    | some p => rfl
  rw [hboth]
  rfl

end Picks

/-! ## Where they agree -/

/-- The entry the archive's pick takes is the one a pull takes: the first for the architecture that
says its operating system, and the first whose variant fits, or else the first of all. -/
def PicksAgree (index : List Json) (dockerArch variant : Str) : Prop :=
  (∀ e ∈ index, offered dockerArch e = false) ∨
    ∃ before entry after, index = before ++ entry :: after ∧ offered dockerArch entry = true ∧
      statesOs entry = true ∧
      (∀ e ∈ before, offered dockerArch e = true → statesOs e = false) ∧
      (fits variant entry = true ∧
          (∀ e ∈ before, offered dockerArch e = true → fits variant e = false) ∨
        (∀ e ∈ index, offered dockerArch e = true → fits variant e = false) ∧
          ∀ e ∈ before, offered dockerArch e = false)

section Agreement

variable {index : List Json} {distArch : Str} {readBlobJson : Str → Option (Dict Str Json)}

/-- What is found first behind a front that it is not in is not found in the front. -/
theorem find?_append_cons {α : Type} {p : α → Bool} {before after : List α} {a : α}
    (h : (before ++ a :: after).find? p = some a) (ha : a ∉ before) : ∀ b ∈ before, p b = false := by
  rw [List.find?_append] at h
  cases hfront : before.find? p with
  | none => simpa using hfront
  | some b =>
    rw [hfront, Option.some_or, Option.some.injEq] at h
    exact absurd (h ▸ List.mem_of_find?_eq_some hfront) ha

/-- **When an archive and a registry answer alike**: if and only if the first entry for the
architecture that says its system is the one whose variant comes first. -/
theorem platform_agrees_iff (hmulti : 2 ≤ index.length) (hplat : ∀ e ∈ index, HasPlatform e) :
    localEntry readBlobJson index distArch = pulledEntry index distArch ↔
      PicksAgree index ((Dict.get archToDocker distArch).getD (distArch, [])).1
        ((Dict.get archToDocker distArch).getD (distArch, [])).2 := by
  rw [localEntry_eq hmulti hplat, pulledEntry_eq]
  generalize (Dict.get archToDocker distArch).getD (distArch, []) = docker
  unfold PicksAgree
  -- the same pick: the entry that the archive's rule finds is the one that the registry's finds
  constructor
  · intro h
    cases hlocal : index.find? fun e => offered docker.1 e && statesOs e with
    | none =>
      rw [hlocal] at h
      left
      obtain ⟨-, hnone⟩ := Option.or_eq_none_iff.mp h.symm
      intro e he
      simpa using List.find?_eq_none.mp hnone e he
    | some entry =>
      rw [hlocal] at h
      right
      obtain ⟨hentry, before, after, rfl, hbefore⟩ := List.find?_eq_some_iff_append.mp hlocal
      rw [Bool.and_eq_true] at hentry
      have hfirst : ∀ e ∈ before, offered docker.1 e = true → statesOs e = false := by
        intro e he hoffered
        have hno := hbefore e he
        rw [hoffered] at hno
        simpa using hno
      have hnew : entry ∉ before := by
        intro hmem
        rw [hfirst entry hmem hentry.1] at hentry
        cases hentry.2
      refine ⟨before, entry, after, rfl, hentry.1, hentry.2, hfirst, ?_⟩
      -- the registry's rule finds it by the exact variant, or in its second pass
      rcases Option.or_eq_some_iff.mp h.symm with hexact | ⟨hnone, hany⟩
      · left
        have hboth := List.find?_some hexact
        rw [Bool.and_eq_true] at hboth
        refine ⟨hboth.2, fun e he hoffered => ?_⟩
        have hno := find?_append_cons hexact hnew e he
        rw [hoffered] at hno
        simpa using hno
      · right
        refine ⟨fun e he hoffered => ?_, find?_append_cons hany hnew⟩
        have hno := List.find?_eq_none.mp hnone e he
        rw [hoffered] at hno
        simpa using hno
  -- where the picks agree, both rules find the entry of the statement
  · rintro (hnone | ⟨before, entry, after, rfl, hoffered, hstates, hfirst, hrest⟩)
    · have hall : ∀ p : Json → Bool, index.find? (fun e => offered docker.1 e && p e) = none := by
        intro p
        rw [List.find?_eq_none]
        intro e he
        rw [hnone e he]
        simp
      have hany : index.find? (offered docker.1) = none := by
        rw [List.find?_eq_none]
        intro e he
        rw [hnone e he]
        simp
      rw [hall statesOs, hall (fits docker.2), hany]
      rfl
    · have hlocal : (before ++ entry :: after).find?
          (fun e => offered docker.1 e && statesOs e) = some entry := by
        refine List.find?_eq_some_iff_append.mpr ⟨by rw [hoffered, hstates]; rfl, before, after, rfl, ?_⟩
        intro e he
        cases hoff : offered docker.1 e with
        | false => rfl
        | true => rw [hfirst e he hoff]; rfl
      rw [hlocal]
      -- the entry has the exact variant
      rcases hrest with ⟨hfits, hbefore⟩ | ⟨hnofit, hbefore⟩
      · have hexact : (before ++ entry :: after).find?
            (fun e => offered docker.1 e && fits docker.2 e) = some entry := by
          refine List.find?_eq_some_iff_append.mpr ⟨by rw [hoffered, hfits]; rfl, before, after, rfl, ?_⟩
          intro e he
          cases hoff : offered docker.1 e with
          | false => rfl
          | true => rw [hbefore e he hoff]; rfl
        rw [hexact, Option.some_or]
      -- no entry has the exact variant, and the second pass takes the first one offered
      · have hexact : (before ++ entry :: after).find?
            (fun e => offered docker.1 e && fits docker.2 e) = none := by
          rw [List.find?_eq_none]
          intro e he
          cases hoff : offered docker.1 e with
          | false => simp
          | true => rw [hnofit e he hoff]; simp
        have hany : (before ++ entry :: after).find? (offered docker.1) = some entry := by
          refine List.find?_eq_some_iff_append.mpr ⟨hoffered, before, after, rfl, ?_⟩
          intro e he
          rw [hbefore e he]
          rfl
        rw [hexact, Option.none_or, hany]

/-- An entry for a Linux platform. -/
def linuxEntry (arch variant digest : String) : Json :=
  .obj [("digest".toList, .str digest.toList), ("platform".toList,
    .obj [("os".toList, .str "linux".toList), ("architecture".toList, .str arch.toList),
      ("variant".toList, .str variant.toList)])]

theorem linuxEntry_hasPlatform (arch variant digest : String) :
    HasPlatform (linuxEntry arch variant digest) := ⟨_, _, rfl, rfl⟩

theorem platform_agrees_iff_arm64 :
    localEntry (fun _ => none) [linuxEntry "amd64" "" "sha256:a", linuxEntry "arm64" "v8" "sha256:b"]
        "aarch64".toList =
      pulledEntry [linuxEntry "amd64" "" "sha256:a", linuxEntry "arm64" "v8" "sha256:b"]
        "aarch64".toList := by
  refine (platform_agrees_iff (by decide) ?_).mpr ?_
  · intro e he
    rcases List.mem_cons.mp he with rfl | he
    · exact linuxEntry_hasPlatform _ _ _
    · rw [List.mem_singleton.mp he]
      exact linuxEntry_hasPlatform _ _ _
  · refine .inr ⟨[linuxEntry "amd64" "" "sha256:a"], linuxEntry "arm64" "v8" "sha256:b", [], rfl,
      by decide +kernel, by decide +kernel, by decide +kernel, .inl ⟨by decide +kernel, by decide +kernel⟩⟩

/-- Of two variants of one architecture, the archive's first is installed and the registry's second
is pulled. -/
theorem platform_picks_differ :
    localEntry (fun _ => none) [linuxEntry "arm" "v6" "sha256:a", linuxEntry "arm" "v7" "sha256:b"]
        "arm".toList ≠
      pulledEntry [linuxEntry "arm" "v6" "sha256:a", linuxEntry "arm" "v7" "sha256:b"]
        "arm".toList := by
  have hlocal : localEntry (fun _ => none) [linuxEntry "arm" "v6" "sha256:a",
      linuxEntry "arm" "v7" "sha256:b"] "arm".toList = some (linuxEntry "arm" "v6" "sha256:a") := by
    decide +kernel
  have hpulled : pulledEntry [linuxEntry "arm" "v6" "sha256:a", linuxEntry "arm" "v7" "sha256:b"]
      "arm".toList = some (linuxEntry "arm" "v7" "sha256:b") := by
    decide +kernel
  rw [hlocal, hpulled]
  decide +kernel

end Agreement

end InstallLocal

end ProotDistro
