import ProotDistro.BuildEngine.History
import ProotDistro.Docker.Digest
import ProotDistro.Lib.JsonList

/-!
# What the recipe hash of a RUN tells apart

A RUN that is recorded under its recipe hash is not run again, so two steps with one hash are the
same step to the build cache. The hash is taken over the digest of the top layer, the name, the flags,
the value and the here-documents of the instruction, and the variables it sees, joined by NULs.

* **`runRecipe_eq_iff`** — two steps have one hash exactly if these texts, cut at the NULs, are the same.
* **`hashedPieces_eq_iff`** — as long as none of the texts holds what they are joined with, that is
  to say that each of them is the same.
* **`run_key_layers_iff`** — two steps with one hash stand over the same chain of layers exactly if the
  chains below the top layers are the same, or something that is hashed is not.
-/

namespace ProotDistro

open Posix Dockerfile

namespace BuildEngine

/-! ## Joined texts -/

/-- What is joined by a separator, cut at every separator, is what each part is cut into. -/
theorem splitOn_intercalate {texts : List Str} (hne : texts ≠ []) :
    List.splitOn '\x00' (['\x00'].intercalate texts) = texts.flatMap (List.splitOn '\x00') := by
  induction texts with
  | nil => exact absurd rfl hne
  | cons text texts ih =>
    cases texts with
    | nil => simp
    | cons next texts =>
      rw [List.intercalate_cons_cons, List.append_assoc, List.singleton_append,
        List.splitOn_append_cons_self, ih (List.cons_ne_nil next texts)]
      rfl

/-- Lines joined by line ends are told apart. -/
theorem lines_inj {lines lines' : List Str} (hlf : ∀ l ∈ lines, '\n' ∉ l) (hlf' : ∀ l ∈ lines', '\n' ∉ l)
    (hne : lines ≠ []) (hne' : lines' ≠ []) (h : ['\n'].intercalate lines = ['\n'].intercalate lines') :
    lines = lines' := by
  have hsplit := congrArg (List.splitOn '\n') h
  rw [List.splitOn_intercalate _ hlf hne, List.splitOn_intercalate _ hlf' hne'] at hsplit
  exact hsplit

/-! ### Here-documents -/

/-- A body the marks around bodies cannot be mistaken in: it ends a line, and no line of it begins as
the marks between two bodies do. -/
structure Marked (body : Str) : Prop where
  ended : body = [] ∨ body.getLast? = some '\n'
  no_mark : ∀ front rest, body = front ++ ">><<".toList ++ rest → ¬ (front = [] ∨ front.getLast? = some '\n')
  no_nul : '\x00' ∉ body

/-- What is hashed behind the opening mark of the first body. -/
def afterMark (body : Str) (bodies : List Str) : Str :=
  body ++ ">>".toList ++ bodies.flatMap BuildCache.heredocText

/-- A body that stops short of another would be followed by its own closing mark. -/
theorem Marked.not_longer {body body' extra : Str} {bodies bodies' : List Str} (hbody : Marked body)
    (hbody' : Marked body') (hextra : body' = body ++ extra) (hne : extra ≠ [])
    (h : afterMark body bodies = afterMark body' bodies') : False := by
  unfold afterMark at h
  rw [hextra, List.append_assoc, List.append_assoc, List.append_assoc] at h
  have hmarks : '>' :: '>' :: bodies.flatMap BuildCache.heredocText =
      extra ++ '>' :: '>' :: bodies'.flatMap BuildCache.heredocText := List.append_cancel_left h
  have hlast : body'.getLast? = some '\n' := by
    rcases hbody'.ended with hnil | hlast
    · rw [hextra, List.append_eq_nil_iff] at hnil
      exact absurd hnil.2 hne
    · exact hlast
  have hextraLast : extra.getLast? = some '\n' := by
    rw [hextra, List.getLast?_append_of_ne_nil _ hne] at hlast
    exact hlast
  -- the extra text begins with the closing mark, and then with an opening one
  cases extra with
  | nil => exact hne rfl
  | cons c₁ extra =>
    have hfirst := List.cons.inj hmarks
    cases extra with
    | nil =>
      rw [← hfirst.1] at hextraLast
      cases hextraLast
    | cons c₂ extra =>
      have hsecond := List.cons.inj hfirst.2
      cases bodies with
      | nil => exact absurd hsecond.2 (by simp)
      | cons next bodies =>
        have hopen : '<' :: '<' :: (next ++ ">>".toList ++ bodies.flatMap BuildCache.heredocText) =
            extra ++ '>' :: '>' :: bodies'.flatMap BuildCache.heredocText := hsecond.2
        cases extra with
        | nil => cases hopen
        | cons c₃ extra =>
          have hthird := List.cons.inj hopen
          cases extra with
          | nil =>
            rw [← hthird.1] at hextraLast
            cases hextraLast
          | cons c₄ extra =>
            have hfourth := List.cons.inj hthird.2
            apply hbody'.no_mark body extra
            · rw [hextra, ← hfirst.1, ← hsecond.1, ← hthird.1, ← hfourth.1, List.append_assoc]
              rfl
            · exact hbody.ended

/-- **The bodies of here-documents** are told apart. -/
theorem heredocs_inj {bodies bodies' : List Str} (h : ∀ x ∈ bodies, Marked x)
    (h' : ∀ x ∈ bodies', Marked x)
    (heq : bodies.flatMap BuildCache.heredocText = bodies'.flatMap BuildCache.heredocText) :
    bodies = bodies' := by
  induction bodies generalizing bodies' with
  | nil =>
    cases bodies' with
    | nil => rfl
    | cons body' bodies' => cases heq
  | cons body bodies ih =>
    cases bodies' with
    | nil => cases heq
    | cons body' bodies' =>
      have hafter : afterMark body bodies = afterMark body' bodies' := by
        rw [List.flatMap_cons, List.flatMap_cons] at heq
        exact (List.cons.inj (List.cons.inj heq).2).2
      have hbody := h body List.mem_cons_self
      have hbody' := h' body' List.mem_cons_self
      have hsame : body = body' := by
        rcases List.append_eq_append_iff.mp (show body ++ _ = body' ++ _ by
          unfold afterMark at hafter
          rw [List.append_assoc, List.append_assoc] at hafter
          exact hafter) with ⟨extra, hextra, -⟩ | ⟨extra, hextra, -⟩
        · by_contra hdiffer
          apply hbody.not_longer hbody' hextra _ hafter
          rintro rfl
          exact hdiffer (by rw [hextra, List.append_nil])
        · by_contra hdiffer
          apply hbody'.not_longer hbody hextra _ hafter.symm
          rintro rfl
          exact hdiffer (by rw [hextra, List.append_nil])
      subst hsame
      unfold afterMark at hafter
      rw [ih (fun x hx => h x (List.mem_cons_of_mem _ hx)) (fun x hx => h' x (List.mem_cons_of_mem _ hx))
        (List.append_cancel_left hafter)]

/-! ### Variables -/

section Variables

variable {d d' : Dict Str Str}

/-- The entries of a dictionary in the order of their names. -/
def sortedPairs (d : Dict Str Str) : List (Str × Str) := d.insertionSort fun x y => x.1 ≤ y.1

/-- The entries hashed are the sorted pairs, written. -/
theorem sortedEntries_eq (d : Dict Str Str) :
    BuildCache.sortedEntries d = (sortedPairs d).map Execenv.envEntry := rfl

/-- Sorting keeps the pairs. -/
theorem perm_sortedPairs (d : Dict Str Str) : (sortedPairs d).Perm d := List.perm_insertionSort _ d

/-- Two dictionaries that say the same have the same entries. -/
theorem perm_of_get (hd : (Dict.keys d).Nodup) (hd' : (Dict.keys d').Nodup)
    (h : ∀ k, Dict.get d k = Dict.get d' k) : d.Perm d' := by
  rw [List.perm_ext_iff_of_nodup (List.Nodup.of_map _ hd) (List.Nodup.of_map _ hd')]
  intro x
  constructor
  · intro hx
    exact Dict.mem_of_get ((h x.1) ▸ Dict.get_of_mem hd hx)
  · intro hx
    exact Dict.mem_of_get ((h x.1).symm ▸ Dict.get_of_mem hd' hx)

/-- **Dictionaries that say the same** are the same once they are sorted. -/
theorem sortedPairs_eq (hd : (Dict.keys d).Nodup) (hd' : (Dict.keys d').Nodup)
    (h : ∀ k, Dict.get d k = Dict.get d' k) : sortedPairs d = sortedPairs d' := by
  have hsorted : ∀ d : Dict Str Str, (sortedPairs d).Pairwise fun x y => x.1 ≤ y.1 := by
    intro d
    have htotal : Std.Total (fun x y : Str × Str => x.1 ≤ y.1) := ⟨fun x y => le_total x.1 y.1⟩
    have htrans : IsTrans (Str × Str) fun x y => x.1 ≤ y.1 := ⟨fun x y z => le_trans⟩
    exact List.pairwise_insertionSort _ d
  have hperm : (sortedPairs d).Perm (sortedPairs d') :=
    ((perm_sortedPairs d).trans (perm_of_get hd hd' h)).trans (perm_sortedPairs d').symm
  apply List.Perm.eq_of_pairwise _ (hsorted d) (hsorted d') hperm
  intro x y hx hy hxy hyx
  -- a name has one value
  have hkey : x.1 = y.1 := le_antisymm hxy hyx
  have hgetx : Dict.get d x.1 = some x.2 := Dict.get_of_mem hd ((perm_sortedPairs d).subset hx)
  have hgety : Dict.get d' y.1 = some y.2 := Dict.get_of_mem hd' ((perm_sortedPairs d').subset hy)
  rw [h, hkey, hgety] at hgetx
  exact Prod.ext hkey (Option.some.inj hgetx).symm

/-- A variable whose line can be read back. -/
def Line (x : Str × Str) : Prop := '=' ∉ x.1 ∧ '\n' ∉ x.1 ∧ '\n' ∉ x.2

/-- **The lines of the variables** tell them apart. -/
theorem get_of_lines (hd' : (Dict.keys d').Nodup) (hne : d ≠ []) (hne' : d' ≠ [])
    (hlines : ∀ x ∈ d, Line x) (hlines' : ∀ x ∈ d', Line x)
    (h : ['\n'].intercalate (BuildCache.sortedEntries d) = ['\n'].intercalate (BuildCache.sortedEntries d')) :
    ∀ k, Dict.get d k = Dict.get d' k := by
  have hlf : ∀ {d : Dict Str Str}, (∀ x ∈ d, Line x) → ∀ l ∈ BuildCache.sortedEntries d, '\n' ∉ l := by
    intro d hlines l hl
    rw [sortedEntries_eq] at hl
    obtain ⟨x, hx, rfl⟩ := List.mem_map.mp hl
    obtain ⟨-, hname, hvalue⟩ := hlines x ((perm_sortedPairs d).subset hx)
    unfold Execenv.envEntry
    rw [List.mem_append, List.mem_cons]
    rintro (hmem | hmem | hmem)
    · exact hname hmem
    · cases hmem
    · exact hvalue hmem
  have hnil : ∀ {d : Dict Str Str}, d ≠ [] → BuildCache.sortedEntries d ≠ [] := by
    intro d hne hempty
    rw [sortedEntries_eq, List.map_eq_nil_iff] at hempty
    exact hne (List.nil_perm.mp (hempty ▸ perm_sortedPairs d))
  have hread : ∀ {d : Dict Str Str}, (∀ x ∈ d, Line x) →
      (BuildCache.sortedEntries d).filterMap Execenv.envPair = sortedPairs d := by
    intro d hlines
    rw [sortedEntries_eq]
    exact Execenv.filterMap_envPair fun x hx => (hlines x ((perm_sortedPairs d).subset hx)).1
  have hentries := lines_inj (hlf hlines) (hlf hlines') (hnil hne) (hnil hne') h
  have hpairs : sortedPairs d = sortedPairs d' := by
    rw [← hread hlines, hentries, hread hlines']
  have hperm : d.Perm d' := (perm_sortedPairs d).symm.trans (hpairs ▸ perm_sortedPairs d')
  intro k
  cases hget : Dict.get d k with
  | none =>
    rw [Dict.get_eq_none] at hget
    rw [eq_comm, Dict.get_eq_none]
    intro hmem
    exact hget ((hperm.map Prod.fst).symm.subset hmem)
  | some v => exact (Dict.get_of_mem hd' (hperm.subset (Dict.mem_of_get hget))).symm

end Variables

/-! ## Steps -/

section Steps

variable {sha : Str → Str} {b b' : Build} {s s' : Stage} {i i' : Instr}

/-- The defaults of the architecture set no name twice. -/
theorem nodup_setArchDefaults {scope : Dict Str Str} (h : (Dict.keys scope).Nodup) :
    (Dict.keys (setArchDefaults b scope)).Nodup := by
  unfold setArchDefaults
  refine List.foldlRecOn (motive := fun d => (Dict.keys d).Nodup) _ _ h fun d hd x _ => ?_
  unfold Dict.setDefault
  split
  · exact hd
  · exact Dict.nodup_set hd

/-- No variable stands twice in what is hashed. -/
theorem nodup_runScope : (Dict.keys (runScope b s)).Nodup := by
  unfold runScope expansionScope
  apply Dict.nodup_update
  apply Dict.nodup_update
  apply Dict.nodup_update
  apply nodup_setArchDefaults
  exact Dict.nodup_ofPairs

/-- A step is always told that it is in a container. -/
theorem runScope_ne_nil : runScope b s ≠ [] := by
  intro hnil
  have hkey : "container".toList ∈ Dict.keys (runScope b s) := by
    unfold runScope
    rw [Dict.mem_keys_update]
    right
    unfold identityEnv Dict.keys
    rw [List.map_append, List.map_append]
    exact List.mem_append_left _ (List.mem_append_left _ (List.mem_singleton.mpr rfl))
  rw [hnil] at hkey
  cases hkey

/-- The texts a recipe is taken over, in the order they are joined in. -/
def hashedTexts (b : Build) (s : Stage) (i : Instr) : List Str :=
  [s.parentLayerDigest, i.name.name, BuildCache.canonicalFlags i.flags, BuildCache.canonicalValue i.value,
    i.heredocs.flatMap BuildCache.heredocText, runExtraInputs b s]

/-- The texts, cut at NULs: at the ones that join them, and at their own where they hold any. -/
def hashedPieces (b : Build) (s : Stage) (i : Instr) : List Str :=
  (hashedTexts b s i).flatMap (List.splitOn '\x00')

/-- The pieces hashed are what the message splits to at its separators. -/
theorem hashedPieces_eq_splitOn : hashedPieces b s i =
    List.splitOn '\x00' (BuildCache.recipeMessage s.parentLayerDigest i (runExtraInputs b s)) := by
  have hjoined : BuildCache.recipeMessage s.parentLayerDigest i (runExtraInputs b s) =
      ['\x00'].intercalate (hashedTexts b s i) := by
    unfold BuildCache.recipeMessage hashedTexts
    simp [List.intercalate_cons_cons]
  have hne : hashedTexts b s i ≠ [] := List.cons_ne_nil _ _
  rw [hjoined, splitOn_intercalate hne]
  rfl

/-- The pieces say what the message is. -/
theorem recipeMessage_eq_iff : BuildCache.recipeMessage s.parentLayerDigest i (runExtraInputs b s) =
    BuildCache.recipeMessage s'.parentLayerDigest i' (runExtraInputs b' s') ↔
      hashedPieces b s i = hashedPieces b' s' i' := by
  rw [hashedPieces_eq_splitOn, hashedPieces_eq_splitOn]
  constructor
  · intro h
    rw [h]
  · intro h
    have hjoined := congrArg ['\x00'].intercalate h
    rwa [List.intercalate_splitOn, List.intercalate_splitOn] at hjoined

/-- **Two steps have one hash** exactly if what is hashed is the same, piece by piece. -/
theorem runRecipe_eq_iff (hinj : Function.Injective sha) (hb : b.sha256 = sha) (hb' : b'.sha256 = sha) :
    runRecipe b s i = runRecipe b' s' i' ↔ hashedPieces b s i = hashedPieces b' s' i' := by
  unfold runRecipe BuildCache.computeRecipeHash
  rw [hb, hb', hinj.eq_iff, recipeMessage_eq_iff]

/-- The first piece is the digest of the top layer. -/
theorem parent_eq_of_pieces (hnul : '\x00' ∉ s.parentLayerDigest) (hnul' : '\x00' ∉ s'.parentLayerDigest)
    (h : hashedPieces b s i = hashedPieces b' s' i') : s.parentLayerDigest = s'.parentLayerDigest := by
  have hfirst : ∀ {b : Build} {s : Stage} {i : Instr}, '\x00' ∉ s.parentLayerDigest →
      (hashedPieces b s i).head? = some s.parentLayerDigest := by
    intro b s i hnul
    unfold hashedPieces hashedTexts
    rw [List.flatMap_cons, List.splitOn_eq_singleton hnul]
    rfl
  have hhead := congrArg List.head? h
  rw [hfirst hnul, hfirst hnul'] at hhead
  exact Option.some.inj hhead

/-- The texts of a step hold nothing that they are joined with, and a command of the shell form is no
list of an exec form. -/
structure Clean (b : Build) (s : Stage) (i : Instr) : Prop where
  parent : '\x00' ∉ s.parentLayerDigest
  flags : '\x00' ∉ BuildCache.canonicalFlags i.flags
  value : '\x00' ∉ BuildCache.canonicalValue i.value
  shell_form : i.value.isExec = false → ∀ argv, BuildCache.canonicalValue i.value ≠ Json.dumpsStrList argv
  bodies : ∀ body ∈ i.heredocs, Marked body
  scope : ∀ x ∈ runScope b s, Line x

/-- Each of the texts that are hashed is the same. -/
structure SameHashed (b b' : Build) (s s' : Stage) (i i' : Instr) : Prop where
  parent : s.parentLayerDigest = s'.parentLayerDigest
  flags : BuildCache.canonicalFlags i.flags = BuildCache.canonicalFlags i'.flags
  value : BuildCache.canonicalValue i.value = BuildCache.canonicalValue i'.value
  bodies : i.heredocs = i'.heredocs
  scope : ∀ k, Dict.get (runScope b s) k = Dict.get (runScope b' s') k

/-- Documents that are marked bring no separator. -/
theorem notMem_heredocs {bodies : List Str} (h : ∀ body ∈ bodies, Marked body) :
    '\x00' ∉ bodies.flatMap BuildCache.heredocText := by
  rw [List.mem_flatMap]
  rintro ⟨body, hbody, hmem⟩
  unfold BuildCache.heredocText at hmem
  rw [List.mem_append, List.mem_append] at hmem
  rcases hmem with (hmem | hmem) | hmem
  · exact absurd hmem (by decide)
  · exact (h body hbody).no_nul hmem
  · exact absurd hmem (by decide)

/-- **What is hashed is one-to-one** in texts that are clean. -/
theorem hashedPieces_eq_iff (hi : i.name = .RUN) (hi' : i'.name = .RUN) (hclean : Clean b s i)
    (hclean' : Clean b' s' i') :
    hashedPieces b s i = hashedPieces b' s' i' ↔ SameHashed b b' s s' i i' := by
  have hcut : ∀ {b : Build} {s : Stage} {i : Instr}, i.name = .RUN → Clean b s i →
      hashedPieces b s i = [s.parentLayerDigest, "RUN".toList, BuildCache.canonicalFlags i.flags,
        BuildCache.canonicalValue i.value, i.heredocs.flatMap BuildCache.heredocText] ++
          List.splitOn '\x00' (runExtraInputs b s) := by
    intro b s i hi hclean
    unfold hashedPieces hashedTexts
    rw [hi]
    simp only [List.flatMap_cons, List.flatMap_nil, List.append_nil, List.splitOn_eq_singleton hclean.parent,
      List.splitOn_eq_singleton (show '\x00' ∉ Keyword.RUN.name by decide),
      List.splitOn_eq_singleton hclean.flags, List.splitOn_eq_singleton hclean.value,
      List.splitOn_eq_singleton (notMem_heredocs hclean.bodies)]
    rfl
  rw [hcut hi hclean, hcut hi' hclean']
  constructor
  · intro h
    obtain ⟨htexts, hextra⟩ := List.append_inj h rfl
    simp only [List.cons.injEq, and_true, true_and] at htexts
    obtain ⟨hparent, hflags, hvalue, hbodies⟩ := htexts
    have hlines := congrArg ['\x00'].intercalate hextra
    rw [List.intercalate_splitOn, List.intercalate_splitOn] at hlines
    refine ⟨hparent, hflags, hvalue, heredocs_inj hclean.bodies hclean'.bodies hbodies, ?_⟩
    exact get_of_lines nodup_runScope runScope_ne_nil runScope_ne_nil hclean.scope hclean'.scope hlines
  · intro h
    have hextra : runExtraInputs b s = runExtraInputs b' s' := by
      unfold runExtraInputs
      rw [sortedEntries_eq, sortedEntries_eq, sortedPairs_eq nodup_runScope nodup_runScope h.scope]
    rw [h.parent, h.flags, h.value, h.bodies, hextra]

end Steps

/-! ## The chain of layers -/

section Chain

variable {sha : Str → Str} {b b' : Build} {s s' : Stage} {instr : Instr}

/-- The digests of the layers of a stage, the top one last. -/
def chain (s : Stage) : List Str := s.layers.map (·.digest)

/-- A stage knows the digest of its top layer. -/
def Topped (s : Stage) : Prop := s.parentLayerDigest = ((chain s).getLast?).getD []

/-- A layer that is added is the top. -/
theorem Topped.addLayer (layer : Layer) : Topped (s.addLayer layer) := by
  unfold Topped chain Stage.addLayer
  simp

/-- An instruction keeps the top right. -/
theorem Topped.of_effect (h : StageEffect instr s s') (hs : Topped s) : Topped s' := by
  cases h with
  | none => exact hs
  | args => exact hs
  | env => exact hs
  | user => exact hs
  | shell => exact hs
  | unread => exact hs
  | layer layer => exact .addLayer layer
  | workdir path layer hpath =>
    cases layer with
    | none => exact hs
    | some layer => exact .addLayer layer

namespace Engine

variable {e e' : Engine} {label : Option Instr}

/-- A stage that has just begun has the top layer of its base. -/
theorem Started.topped (h : Started b e s) (hstages : ∀ s ∈ e.stages, Topped s) : Topped s := by
  obtain ⟨name, base, w, w', s₀, hstart, rfl⟩ := h
  unfold startStage at hstart
  split at hstart
  · cases hstart
    rfl
  · split at hstart
    · rename_i parent hparent
      obtain ⟨w₁, -, hstart⟩ := Result.bind_ok hstart
      cases hstart
      obtain ⟨k, -, hk⟩ := Option.bind_eq_some_iff.mp hparent
      exact hstages parent (List.mem_of_getElem? hk)
    · obtain ⟨⟨pulled, fs⟩, hpull, hstart⟩ := Result.bind_ok hstart
      obtain ⟨config, hadopt, hstart⟩ := Result.bind_ok hstart
      cases hstart
      unfold Topped chain
      rw [List.getLast?_map]
      rfl

/-- So does a step of the engine, of every stage. -/
theorem Step.topped (h : Step b e label e') (hstages : ∀ s ∈ e.stages, Topped s) :
    ∀ s ∈ e'.stages, Topped s := by
  have heffect := h.stages
  generalize e'.stages = after at heffect
  cases heffect with
  | same => exact hstages
  | begun s hs =>
    intro t ht
    rcases List.mem_append.mp ht with hold | hnew
    · exact hstages t hold
    · rw [List.mem_singleton.mp hnew]
      exact hs.topped hstages
  | changed init s s' raw instr w' hs hlabel hname hexec heff =>
    intro t ht
    rcases List.mem_append.mp ht with hold | hnew
    · exact hstages t (hs ▸ List.mem_append_left _ hold)
    · rw [List.mem_singleton.mp hnew]
      have hbefore : Topped s := hstages s (hs ▸ List.mem_append_right _ (List.mem_singleton.mpr rfl))
      have hafter : Topped s' := Topped.of_effect heff.stage hbefore
      exact hafter

/-- **Every stage of every run** knows its top layer. -/
theorem topped_of_reaches {globalArgs : Dict Str Str} {w : World}
    (h : Reaches b (fun _ => True) (start globalArgs w) e) : ∀ s ∈ e.stages, Topped s :=
  h.invariant (I := fun e => ∀ s ∈ e.stages, Topped s) (fun s hs => by cases hs)
    fun _ _ _ hstep _ he => hstep.topped he

end Engine

/-- A digest has no NUL in it. -/
theorem nul_notMem_digest {digest : Str} (h : Docker.isDigest digest = true) : '\x00' ∉ digest := by
  obtain ⟨algo, hex, rfl, halgo, -⟩ := Docker.isDigest_parts h
  unfold Docker.isDigest at h
  rw [Text.partition_append halgo] at h
  simp only [Bool.and_eq_true] at h
  obtain ⟨⟨⟨-, hname⟩, -⟩, hhex⟩ := h
  intro hmem
  rcases List.mem_append.mp hmem with hmem | hmem
  · exact Docker.notMem_algorithm hname (by decide) (by decide) hmem
  · rcases List.mem_cons.mp hmem with hcolon | hmem
    · cases hcolon
    · have hc := List.all_eq_true.mp hhex _ (Docker.mem_chopNewline hmem (by decide))
      exact absurd hc (by decide)

/-- A digest is not empty. -/
theorem digest_ne_nil {digest : Str} (h : Docker.isDigest digest = true) : digest ≠ [] := by
  rintro rfl
  cases h

/-- The digest of the top layer has no NUL in it. -/
theorem Topped.nul_notMem (htop : Topped s) (hdigest : ∀ d ∈ chain s, Docker.isDigest d = true) :
    '\x00' ∉ s.parentLayerDigest := by
  rw [htop]
  cases hlast : (chain s).getLast? with
  | none => exact List.not_mem_nil
  | some d => exact nul_notMem_digest (hdigest d (List.mem_of_getLast? hlast))

/-- Stages with the same top digest have the same top layer, or both have none. -/
theorem Topped.getLast?_eq (htop : Topped s) (htop' : Topped s') (hdigest : ∀ d ∈ chain s, Docker.isDigest d = true)
    (hdigest' : ∀ d ∈ chain s', Docker.isDigest d = true) (h : s.parentLayerDigest = s'.parentLayerDigest) :
    (chain s).getLast? = (chain s').getLast? := by
  rw [htop, htop'] at h
  cases hl : (chain s).getLast? with
  | none =>
    cases hl' : (chain s').getLast? with
    | none => rfl
    | some d' =>
      rw [hl, hl'] at h
      exact absurd h.symm (digest_ne_nil (hdigest' d' (List.mem_of_getLast? hl')))
  | some d =>
    cases hl' : (chain s').getLast? with
    | none =>
      rw [hl, hl'] at h
      exact absurd h (digest_ne_nil (hdigest d (List.mem_of_getLast? hl)))
    | some d' =>
      rw [hl, hl'] at h
      exact congrArg some h

/-- **Two RUNs with one hash stand over the same layers** exactly if the layers below the top one are
the same, or something that is hashed is not. A digest is checked to be one before its layer is put on
a stage. -/
theorem run_key_layers_iff (hinj : Function.Injective sha) (hb : b.sha256 = sha) (hb' : b'.sha256 = sha)
    (globalArgs globalArgs' : Dict Str Str) (w w' : World) (e e' : Engine) (i i' : Instr)
    (hreach : Engine.Reaches b (fun _ => True) (Engine.start globalArgs w) e)
    (hreach' : Engine.Reaches b' (fun _ => True) (Engine.start globalArgs' w') e')
    (hcur : e.current = some s) (hcur' : e'.current = some s')
    (hdigest : ∀ d ∈ chain s, Docker.isDigest d = true) (hdigest' : ∀ d ∈ chain s', Docker.isDigest d = true) :
    (runRecipe b s i = runRecipe b' s' i' → chain s = chain s') ↔
      (hashedPieces b s i = hashedPieces b' s' i' → (chain s).dropLast = (chain s').dropLast) := by
  have htop : Topped s := Engine.topped_of_reaches hreach s (List.mem_of_getLast? hcur)
  have htop' : Topped s' := Engine.topped_of_reaches hreach' s' (List.mem_of_getLast? hcur')
  rw [runRecipe_eq_iff hinj hb hb']
  constructor
  · intro hsame hpieces
    rw [hsame hpieces]
  · intro hbelow hpieces
    have hparent := parent_eq_of_pieces (htop.nul_notMem hdigest) (htop'.nul_notMem hdigest') hpieces
    have hlast := htop.getLast?_eq htop' hdigest hdigest' hparent
    cases hl : (chain s).getLast? with
    | none =>
      rw [hl] at hlast
      rw [List.getLast?_eq_none_iff.mp hl, List.getLast?_eq_none_iff.mp hlast.symm]
    | some d =>
      rw [hl] at hlast
      rw [← List.dropLast_append_getLast? d hl, hbelow hpieces,
        List.dropLast_append_getLast? d hlast.symm]

end Chain

/-! ### Builds on paper

The layers of these builds are named for what they put into the tree. -/

namespace Engine

/-- A layer's digest ends in the names of its members. -/
def namedLayers : Build :=
  { onPaper with pack := fun members =>
      ⟨"sha256:".toList ++ List.replicate 63 '0' ++ members.flatMap (·.name), members.length, "sha256:".toList⟩ }

/-- The digest of a layer that has one member of this name. -/
def namedDigest (c : Char) : Str := "sha256:".toList ++ List.replicate 63 '0' ++ [c]

def runTrue : Instr := textInstr .RUN "true"

/-- The stage a build ends in. -/
def stageOf (b : Build) (instrs : List Instr) : Option Stage :=
  ((run b instrs emptyWorld).toOption).map Prod.fst

/-- A stage that is found comes from a run. -/
theorem run_of_stageOf {b : Build} {instrs : List Instr} {s : Stage} (h : stageOf b instrs = some s) :
    ∃ e, run b instrs emptyWorld = .ok (s, e) := by
  unfold stageOf at h
  obtain ⟨⟨s', e⟩, hrun, rfl⟩ := Option.map_eq_some_iff.mp h
  refine ⟨e, ?_⟩
  cases hr : run b instrs emptyWorld with
  | ok x =>
    rw [hr] at hrun
    cases hrun
    rfl
  | error f =>
    rw [hr] at hrun
    cases hrun

/-- Without a target, the stage a build ends in is the current one of a state it reaches. -/
theorem reaches_of_stageOf {b : Build} {instrs : List Instr} {s : Stage} (htarget : b.targetStage = none)
    (h : stageOf b instrs = some s) : ∃ globalArgs e,
      Reaches b (fun _ => True) (start globalArgs emptyWorld) e ∧ e.current = some s := by
  obtain ⟨e, hrun⟩ := run_of_stageOf h
  have hadmits : Admits b (fun _ => True) instrs := ⟨fun _ _ => trivial, fun _ _ _ _ _ => trivial⟩
  obtain ⟨globalArgs, hreach, hstage⟩ := run_reaches hadmits hrun
  refine ⟨globalArgs, e, hreach, ?_⟩
  unfold target at hstage
  split at hstage
  · cases hstage
  · rename_i s' hcur
    have hnone : b.targetStage.getD [] = [] := by
      rw [htarget]
      rfl
    rw [if_pos hnone] at hstage
    cases hstage
    exact hcur

/-- A directory, another one, and a command. -/
def overA : List Instr := [textInstr .FROM "scratch", textInstr .WORKDIR "/a", textInstr .WORKDIR "/c"]

def overB : List Instr := [textInstr .FROM "scratch", textInstr .WORKDIR "/b", textInstr .WORKDIR "/c"]

/-- **A layer below the top one is not in the hash**: over `/a` and over `/b` it is one step. -/
theorem run_key_misses_layers : ¬ ∀ (sha : Str → Str) (b b' : Build) (instrs instrs' : List Instr) (w w' : World)
    (s s' : Stage) (e e' : Engine) (i i' : Instr), Function.Injective sha → b.sha256 = sha → b'.sha256 = sha →
    run b instrs w = .ok (s, e) → run b' instrs' w' = .ok (s', e') → i.name = .RUN → i'.name = .RUN →
    runRecipe b s i = runRecipe b' s' i' → chain s = chain s' := by
  intro h
  have hhash : (stageOf namedLayers overA).map (runRecipe namedLayers · runTrue) =
      (stageOf namedLayers overB).map (runRecipe namedLayers · runTrue) := by decide +kernel
  have hchains : ((stageOf namedLayers overA).map chain, (stageOf namedLayers overB).map chain) =
      (some [namedDigest 'a', namedDigest 'c'], some [namedDigest 'b', namedDigest 'c']) := by
    decide +kernel
  rw [Prod.mk.injEq] at hchains
  obtain ⟨s, hs, hchain⟩ := Option.map_eq_some_iff.mp hchains.1
  obtain ⟨s', hs', hchain'⟩ := Option.map_eq_some_iff.mp hchains.2
  rw [hs, hs', Option.map_some, Option.map_some, Option.some.injEq] at hhash
  obtain ⟨e, hrun⟩ := run_of_stageOf hs
  obtain ⟨e', hrun'⟩ := run_of_stageOf hs'
  have hsame := h id namedLayers namedLayers overA overB emptyWorld emptyWorld s s' e e' runTrue runTrue
    Function.injective_id rfl rfl hrun hrun' rfl rfl hhash
  rw [hchain, hchain'] at hsame
  exact absurd hsame (by decide)

/-- The same directories, with a label on the image. -/
def overALabelled : List Instr := overA ++ [textInstr .LABEL "a=b"]

theorem run_key_layers_iff_labelled : ∃ s s', stageOf namedLayers overA = some s ∧
    stageOf namedLayers overALabelled = some s' ∧
    runRecipe namedLayers s runTrue = runRecipe namedLayers s' runTrue ∧
    chain s = [namedDigest 'a', namedDigest 'c'] ∧ chain s = chain s' := by
  have hhash : (stageOf namedLayers overA).map (runRecipe namedLayers · runTrue) =
      (stageOf namedLayers overALabelled).map (runRecipe namedLayers · runTrue) := by decide +kernel
  have hchains : ((stageOf namedLayers overA).map chain, (stageOf namedLayers overALabelled).map chain) =
      (some [namedDigest 'a', namedDigest 'c'], some [namedDigest 'a', namedDigest 'c']) := by
    decide +kernel
  rw [Prod.mk.injEq] at hchains
  obtain ⟨s, hs, hchain⟩ := Option.map_eq_some_iff.mp hchains.1
  obtain ⟨s', hs', hchain'⟩ := Option.map_eq_some_iff.mp hchains.2
  rw [hs, hs', Option.map_some, Option.map_some, Option.some.injEq] at hhash
  obtain ⟨g, e, hreach, hcur⟩ := reaches_of_stageOf rfl hs
  obtain ⟨g', e', hreach', hcur'⟩ := reaches_of_stageOf rfl hs'
  refine ⟨s, s', hs, hs', hhash, hchain, ?_⟩
  apply (run_key_layers_iff Function.injective_id rfl rfl g g' emptyWorld emptyWorld e e' runTrue runTrue hreach
    hreach' hcur hcur' _ _).mpr _ hhash
  · rw [hchain]
    decide
  · rw [hchain']
    decide
  · intro _
    rw [hchain, hchain']

end Engine

end BuildEngine

end ProotDistro
