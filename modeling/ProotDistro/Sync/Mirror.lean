import ProotDistro.Sync.Turns

/-!
# What the mirror pass of `sync` leaves

`S` is the file system as it was when the passes began, and paths of entries are relative to the two
directories.

* **`mirrorEntry_spec`** — the turn of one entry, by what the source has under the name.
* **`mirrorAt_spec`** — a level and everything below it, whatever is refused on the way.
* **`collectRels_spec`** — what the pass before it has recorded.
* **`mirror_spec`** — both, one after the other.

A level has two loops: one over its entries, which makes or finds the directories, and one over those
that goes into them. `Listed` is the invariant of the first and `Entered` of the second.
-/

namespace ProotDistro.Sync

open Posix Removal CopyTree

/-! ## Source and destination -/

/-- The destination is not in the source. It may be above the source, unless the source has a directory or a
link under the name its own path goes on by: that would lead the walk to the source itself. -/
structure Aside (S : Fs) (src dst : Path) : Prop where
  outside : ¬ src <+: dst
  away : ∀ c t, src = dst ++ c :: t →
    ¬ S.IsDir (src ++ [c]) ∧ ∀ target, S.get (src ++ [c]) ≠ some (.symlink target)

section Aside

variable {S : Fs} {src dst p q : Path} {n : Name}

/-- What is above an entry is a directory. -/
theorem isDir_above {t : Path} (ht : t ≠ []) (h : S.get (p ++ t) ≠ none) : S.IsDir p := by
  by_contra hdir
  exact h (Fs.get_append_eq_none ht hdir)

/-- A source that meets the destination is below it, and its path goes on by a name under which it has a file
at most. -/
theorem Aside.below (ha : Aside S src dst) (hpre : dst <+: src ++ q) :
    ∃ c t, src = dst ++ c :: t ∧ ∀ u e, S.get (src ++ c :: u) = some e → u = [] ∧ ∃ i data, e = .file i data := by
  have hd : dst <+: src := by
    rcases Nat.le_total src.length dst.length with hle | hle
    · exact absurd (List.prefix_of_prefix_length_le (List.prefix_append src q) hpre hle) ha.outside
    · exact List.prefix_of_prefix_length_le hpre (List.prefix_append src q) hle
  obtain ⟨s, hs⟩ := hd
  cases s with
  | nil => exact absurd ⟨[], by rw [List.append_nil, ← hs, List.append_nil]⟩ ha.outside
  | cons c t =>
    obtain ⟨hdir, hlink⟩ := ha.away c t hs.symm
    refine ⟨c, t, hs.symm, fun u e he => ?_⟩
    cases u with
    | nil =>
      cases e with
      | dir m => exact absurd ⟨m, he⟩ hdir
      | file i data => exact ⟨rfl, i, data, rfl⟩
      | symlink target => exact absurd he (hlink target)
    | cons d u =>
      rw [show src ++ c :: d :: u = src ++ [c] ++ d :: u by simp] at he
      exact absurd (isDir_above (List.cons_ne_nil d u) (by rw [he]; simp)) hdir

/-- No directory or link of the source has its counterpart in the source or above it. -/
theorem Aside.not_under {e : Entry} (ha : Aside S src dst) (he : S.get (src ++ (p ++ [n])) = some e)
    (hfile : ∀ i data, e ≠ .file i data) (q : Path) : ¬ dst ++ (p ++ [n]) <+: src ++ q := by
  intro hpre
  obtain ⟨c, t, hsrc, hnone⟩ := ha.below ((List.prefix_append _ _).trans hpre)
  rw [hsrc, List.append_assoc, List.prefix_append_right_inj] at hpre
  have hfirst : ∃ u, p ++ [n] = c :: u := by
    cases p with
    | nil =>
      rw [List.nil_append, List.cons_append, List.cons_prefix_cons] at hpre
      exact ⟨[], by rw [hpre.1, List.nil_append]⟩
    | cons d p =>
      rw [List.cons_append, List.cons_append, List.cons_prefix_cons] at hpre
      exact ⟨p ++ [n], by rw [hpre.1, List.cons_append]⟩
  obtain ⟨u, hu⟩ := hfirst
  rw [hu] at he
  obtain ⟨-, i, data, rfl⟩ := hnone u e he
  exact hfile i data rfl

/-- No directory of the source has its counterpart in the source. -/
theorem Aside.not_level (ha : Aside S src dst) (hdir : S.IsDir (src ++ p)) (q : Path) : src ++ q ≠ dst ++ p := by
  intro heq
  rcases List.eq_nil_or_concat p with rfl | ⟨p', n, rfl⟩
  · rw [List.append_nil] at heq
    exact ha.outside ⟨q, heq⟩
  · rw [List.concat_eq_append] at heq hdir
    obtain ⟨m, hm⟩ := hdir
    refine ha.not_under hm ?_ q (by rw [heq])
    intro i data hfile
    cases hfile

/-- A name in a directory of the source may be that of the source, but of nothing in it. -/
theorem Aside.beside (ha : Aside S src dst) (hdir : S.IsDir (src ++ p)) {m : Name}
    (heq : src ++ q = dst ++ (p ++ [m])) : q = [] := by
  obtain ⟨c, t, hsrc, hnone⟩ := ha.below (q := q) (heq ▸ List.prefix_append dst _)
  rw [hsrc, List.append_assoc, List.append_cancel_left_eq] at heq
  cases p with
  | nil =>
    rw [List.nil_append, List.cons_append, List.cons.injEq, List.append_eq_nil_iff] at heq
    exact heq.2.2
  | cons d p =>
    rw [List.cons_append, List.cons_append, List.cons.injEq] at heq
    obtain ⟨m', hm'⟩ := hdir
    rw [← heq.1] at hm'
    obtain ⟨-, i, data, hfile⟩ := hnone p _ hm'
    cases hfile

end Aside

/-! ## How far a part of the walk reaches -/

/-- The temporary names of the files among `names`. -/
def TempOf (K : Kernel) (S : Fs) (src p : Path) (names : List Name) (q : Path) : Prop :=
  ∃ n ∈ names, Regular K.toKernel S (src ++ (p ++ [n])) ∧ q = p ++ [tempName n]

/-- A part of the walk at the level `p`, whether it fails or not: it is about the entries in `C`, and writes
to names in `U` besides unless directories stand there. The source stays as it was. -/
structure Bounded (S : Fs) (src dst p : Path) (C U : Path → Prop) (h h' : Host) : Prop where
  within : Within (fun x => dst ++ p <+: x) h h'
  isDir : h.fs.IsDir (dst ++ p) → h'.fs.IsDir (dst ++ p)
  untouched : ∀ q, q ≠ p → ¬ C q → (U q → h.fs.IsDir (dst ++ q)) → h'.fs.get (dst ++ q) = h.fs.get (dst ++ q)
  source : Source S src h → Source S src h'

section Bounded

variable {K : Kernel} {S : Fs} {src dst p : Path} {n : Name} {C C' C'' U U' U'' : Path → Prop} {h h₁ h' : Host}

/-- A step that changes nothing is bounded. -/
theorem Bounded.refl (hw : Within (fun _ => False) h h') : Bounded S src dst p C U h h' where
  within := hw.of_unchanged
  isDir := fun ⟨m, hm⟩ => ⟨m, (hw.unchanged _).trans hm⟩
  untouched := fun _ _ _ _ => hw.unchanged _
  source := fun hs q => (hw.unchanged _).trans (hs q)

/-- Two steps are bounded by what both are bounded by. -/
theorem Bounded.trans (hb : Bounded S src dst p C U h h₁) (hb' : Bounded S src dst p C' U' h₁ h')
    (hC : ∀ q, C q ∨ C' q → C'' q) (hU : ∀ q, U q ∨ U' q → U'' q) : Bounded S src dst p C'' U'' h h' where
  within := hb.within.trans hb'.within
  isDir := fun hdir => hb'.isDir (hb.isDir hdir)
  source := fun hs => hb'.source (hb.source hs)
  untouched := by
    intro q hne hcover hdir
    have hsame : h₁.fs.get (dst ++ q) = h.fs.get (dst ++ q) :=
      hb.untouched q hne (fun hc => hcover (hC q (.inl hc))) fun hu => hdir (hU q (.inl hu))
    rw [← hsame]
    refine hb'.untouched q hne (fun hc => hcover (hC q (.inr hc))) fun hu => ?_
    obtain ⟨m, hm⟩ := hdir (hU q (.inr hu))
    exact ⟨m, hsame.trans hm⟩

/-- Wider bounds hold as well. -/
theorem Bounded.mono (hb : Bounded S src dst p C U h h') (hC : ∀ q, C q → C' q) (hU : ∀ q, U q → U' q) :
    Bounded S src dst p C' U' h h' where
  within := hb.within
  isDir := hb.isDir
  source := hb.source
  untouched := fun q hne hcover hdir =>
    hb.untouched q hne (fun hc => hcover (hC q hc)) fun hu => hdir (hU q hu)

/-- A call that changes nothing keeps to the bounds. -/
theorem Bounded.tick (hb : Bounded S src dst p C U h h') : Bounded S src dst p C U h h'.tick :=
  ⟨hb.within.tick, hb.isDir, hb.untouched, hb.source⟩

/-- What stays at a directory or a link of the source. -/
theorem Near.bounded {e : Entry} (ha : Aside S src dst) (he : S.get (src ++ (p ++ [n])) = some e)
    (hfile : ∀ i data, e ≠ .file i data) (hn : Near h (dst ++ p) (Under (dst ++ p) n) h') :
    Bounded S src dst p (Covers p [n]) U h h' := by
  have hlevel : S.IsDir (src ++ p) :=
    isDir_above (List.cons_ne_nil n []) (by rw [List.append_assoc, he]; simp)
  have hcovered : ∀ x, Under (dst ++ p) n x ↔ dst ++ (p ++ [n]) <+: x := fun x => by
    unfold Under
    rw [List.append_assoc]
  refine ⟨hn.within.mono ?_, hn.isDir, fun q hne hcover _ => ?_, fun hs q => ?_⟩
  · rintro x (rfl | hx)
    · exact List.prefix_refl _
    · exact (List.prefix_append _ _).trans hx
  · apply hn.within.now
    rintro (heq | hx)
    · exact hne (List.append_cancel_left heq)
    · rw [hcovered, List.prefix_append_right_inj] at hx
      exact hcover ⟨n, List.mem_singleton.mpr rfl, hx⟩
  · rw [← hs q]
    apply hn.within.now
    rintro (heq | hx)
    · exact ha.not_level hlevel q heq
    · rw [hcovered] at hx
      exact ha.not_under he hfile q hx

/-- What writes a file, and no directory over. -/
theorem bounded_of_file (ha : Aside S src dst) (hregular : Regular K.toKernel S (src ++ (p ++ [n])))
    (hw : Within (fun q => q = dst ++ p ∨ FileAt (dst ++ p) n q) h h') (hd : DirsKept h (dst ++ p) h') :
    Bounded S src dst p (Covers p [n]) (TempOf K S src p [n]) h h' := by
  have hsome : S.get (src ++ (p ++ [n])) ≠ none := by
    obtain ⟨⟨i, data, hget⟩, -⟩ := hregular
    rw [hget]
    simp
  have hlevel : S.IsDir (src ++ p) :=
    isDir_above (List.cons_ne_nil n []) (by rw [List.append_assoc]; exact hsome)
  refine ⟨hw.mono ?_, hd.isDir, fun q hne hcover hdir => ?_, fun hs q => ?_⟩
  -- the three places a file turn writes to: the directory, the name and the temporary name
  · rintro x (rfl | rfl | rfl)
    · exact List.prefix_refl _
    · exact List.prefix_append _ _
    · exact List.prefix_append _ _
  -- outside the name, only a temporary name may have changed, and a directory under it has not
  · by_cases htemp : q = p ++ [tempName n]
    · obtain ⟨m, hm⟩ := hdir ⟨n, List.mem_singleton.mpr rfl, hregular, htemp⟩
      rw [hm]
      exact hd.others _ m (fun heq => hne (List.append_cancel_left heq)) hm
    · apply hw.now
      rintro (heq | heq | heq)
      · exact hne (List.append_cancel_left heq)
      · rw [List.append_assoc] at heq
        rw [List.append_cancel_left heq] at hcover
        exact hcover ⟨n, List.mem_singleton.mpr rfl, List.prefix_refl _⟩
      · rw [List.append_assoc] at heq
        exact htemp (List.append_cancel_left heq)
  -- nothing of the source is lost: what is written is no entry of it
  · by_cases hname : ∃ m, src ++ q = dst ++ (p ++ [m])
    · -- a name that is written to is that of the source itself, which is a directory
      obtain ⟨m, hname⟩ := hname
      have hroot := ha.beside hlevel hname
      subst hroot
      have hsrc : S.IsDir (src ++ []) := by
        rw [List.append_nil]
        cases p with
        | nil =>
          rw [List.append_nil] at hlevel
          exact hlevel
        | cons c p =>
          obtain ⟨mode, hmode⟩ := hlevel
          exact isDir_above (List.cons_ne_nil c p) (by rw [hmode]; simp)
      obtain ⟨mode, hmode⟩ := hsrc
      rw [hmode]
      exact hd.others _ mode (ha.not_level hlevel []) ((hs []).trans hmode)
    · rw [← hs q]
      apply hw.now
      rintro (heq | heq | heq)
      · exact ha.not_level hlevel q heq
      · rw [List.append_assoc] at heq
        exact hname ⟨n, heq⟩
      · rw [List.append_assoc] at heq
        exact hname ⟨_, heq⟩

end Bounded

/-! ## What the passes know -/

/-- What is known only grows, and what is taken for an entry of the source, or skipped as one, is one. -/
structure Grows (S : Fs) (src : Path) (c c' : Ctx) : Prop where
  srcRels : ∀ q ∈ c.srcRels, q ∈ c'.srcRels
  seen : ∀ q ∈ c'.srcRels, q ∈ c.srcRels ∨ S.get (src ++ q) ≠ none
  skipped : ∀ q ∈ c.skippedRels, q ∈ c'.skippedRels
  noted : ∀ q ∈ c'.skippedRels, q ∈ c.skippedRels ∨ S.get (src ++ q) ≠ none
  failures : c.failures ≤ c'.failures
  root : c.rootUnreadable = true → c'.rootUnreadable = true

/-- As long as nothing has failed, what was skipped is what is not mirrored at all. -/
def Sound (K : Kernel) (S : Fs) (src : Path) (c : Ctx) : Prop :=
  c.failures = 0 → ∀ q ∈ c.skippedRels, Special K.toKernel S (src ++ q)

section Ctx

variable {K : Kernel} {S : Fs} {src rel : Path} {c c' c'' : Ctx}

/-- What has been recorded grows by nothing. -/
theorem Grows.refl (c : Ctx) : Grows S src c c :=
  ⟨fun _ hq => hq, fun _ hq => .inl hq, fun _ hq => hq, fun _ hq => .inl hq, le_refl _, id⟩

/-- It grows from step to step. -/
theorem Grows.trans (hg : Grows S src c c') (hg' : Grows S src c' c'') : Grows S src c c'' where
  srcRels := fun q hq => hg'.srcRels q (hg.srcRels q hq)
  seen := fun q hq => (hg'.seen q hq).elim (hg.seen q) .inr
  skipped := fun q hq => hg'.skipped q (hg.skipped q hq)
  noted := fun q hq => (hg'.noted q hq).elim (hg.noted q) .inr
  failures := le_trans hg.failures hg'.failures
  root := fun hr => hg'.root (hg.root hr)

/-- Where no failure is noted at the end, none was before. -/
theorem Grows.quiet (hg : Grows S src c c') (hq : c'.failures = 0) : c.failures = 0 := by
  have := hg.failures
  omega

/-- Recording a path of the source adds it. -/
theorem grows_saw (hsome : S.get (src ++ rel) ≠ none) : Grows S src c (c.saw rel) where
  srcRels := fun _ hq => List.mem_cons_of_mem _ hq
  seen := by
    intro q hq
    rcases List.mem_cons.mp hq with rfl | hq
    · exact .inr hsome
    · exact .inl hq
  skipped := fun _ hq => hq
  noted := fun _ hq => .inl hq
  failures := le_refl _
  root := id

/-- A path of the source may be added to those that are skipped. -/
theorem mem_skipped_cons (hsome : S.get (src ++ rel) ≠ none) :
    ∀ q ∈ rel :: c.skippedRels, q ∈ c.skippedRels ∨ S.get (src ++ q) ≠ none := by
  intro q hq
  rcases List.mem_cons.mp hq with rfl | hq
  · exact .inr hsome
  · exact .inl hq

/-- A failure at a path of the source is noted with it. -/
theorem grows_noteFailure (hsome : S.get (src ++ rel) ≠ none) : Grows S src c (c.noteFailure rel) := by
  unfold Ctx.noteFailure
  split
  · exact Grows.refl c
  · exact ⟨fun _ hq => hq, fun _ hq => .inl hq, fun _ hq => List.mem_cons_of_mem _ hq, mem_skipped_cons hsome,
      Nat.le_succ _, id⟩

theorem grows_skip (hsome : S.get (src ++ rel) ≠ none) : Grows S src c (c.skip rel) :=
  ⟨fun _ hq => hq, fun _ hq => .inl hq, fun _ hq => List.mem_cons_of_mem _ hq, mem_skipped_cons hsome, le_refl _, id⟩

/-- Losing the root adds a failure and no path. -/
theorem grows_lostRoot : Grows S src c c.lostRoot :=
  ⟨fun _ hq => hq, fun _ hq => .inl hq, fun _ hq => hq, fun _ hq => .inl hq, Nat.le_succ _, fun _ => rfl⟩

/-- A path at which something failed is among those that are skipped. -/
theorem mem_noteFailure (c : Ctx) (rel : Path) : rel ∈ (c.noteFailure rel).skippedRels := by
  unfold Ctx.noteFailure
  split
  · assumption
  · exact List.mem_cons_self

/-- Noting a failure keeps what is recorded sound: it is only claimed where nothing failed. -/
theorem Sound.noteFailure (hs : Sound K S src c) : Sound K S src (c.noteFailure rel) := by
  unfold Ctx.noteFailure
  split
  · exact hs
  · intro hzero
    cases hzero

/-- A failure counts, but for an entry that is passed over anyway. -/
theorem Sound.special_of_quiet (hs : Sound K S src c) (hq : (c.noteFailure rel).failures = 0) :
    Special K.toKernel S (src ++ rel) := by
  unfold Ctx.noteFailure at hq
  split at hq
  · rename_i hmem
    exact hs hq rel hmem
  · cases hq

theorem Sound.skip (hs : Sound K S src c) (hspecial : Special K.toKernel S (src ++ rel)) :
    Sound K S src (c.skip rel) := by
  intro hzero q hq
  rcases List.mem_cons.mp hq with rfl | hq
  · exact hspecial
  · exact hs hzero q hq

theorem Sound.lostRoot : Sound K S src c.lostRoot := fun hzero => by cases hzero

end Ctx

/-! ## The entries of a level -/

/-- A path that bears the temporary name of a regular file beside it, which is written after whatever the
source has at the path, if it has anything. -/
def Spoiled (K : Kernel) (S : Fs) (src q : Path) : Prop :=
  ∃ p n, Regular K.toKernel S (src ++ (p ++ [n])) ∧ q = p ++ [tempName n] ∧
    (S.get (src ++ q) = none ∨ Special K.toKernel S (src ++ q) ∨ tempName n < n ∧ ¬ S.IsDir (src ++ q))

/-- What the first loop has done about the entry `n` of the level `p`: a directory is left for the second. -/
structure Begun (K : Kernel) (S : Fs) (src dst p : Path) (n : Name) (h h' : Host) : Prop where
  copied : ∀ e, S.get (src ++ (p ++ [n])) = some e → e.isDir = false →
    ¬ Special K.toKernel S (src ++ (p ++ [n])) → ¬ Spoiled K S src (p ++ [n]) →
    ∃ e', h'.fs.get (dst ++ (p ++ [n])) = some e' ∧ Copied K (h.fs.get (dst ++ (p ++ [n]))) e e'
  left : Special K.toKernel S (src ++ (p ++ [n])) → ¬ Spoiled K S src (p ++ [n]) →
    h'.fs.get (dst ++ (p ++ [n])) = h.fs.get (dst ++ (p ++ [n]))
  below : (∀ target, S.get (src ++ (p ++ [n])) ≠ some (.symlink target)) → ∀ t, t ≠ [] →
    h'.fs.get (dst ++ (p ++ [n] ++ t)) = h.fs.get (dst ++ (p ++ [n] ++ t))

/-- What the first loop has done about the entries `names` of the level `p`. -/
structure Listed (K : Kernel) (S : Fs) (src dst p : Path) (names : List Name) (h : Host) (x : Ctx × List Name)
    (h' : Host) (x' : Ctx × List Name) : Prop where
  bounded : Bounded S src dst p (Covers p names) (TempOf K S src p names) h h'
  grows : Grows S src x.1 x'.1
  sound : Sound K S src x.1 → Sound K S src x'.1
  seen : ∀ n ∈ names, p ++ [n] ∈ x'.1.srcRels
  subs : ∃ new, x'.2 = x.2 ++ new ∧ new.Sublist names ∧
    ∀ n ∈ new, S.IsDir (src ++ (p ++ [n])) ∧ h'.fs.IsDir (dst ++ (p ++ [n]))
  entered : ∀ n ∈ names, S.IsDir (src ++ (p ++ [n])) → p ++ [n] ∈ x'.1.skippedRels ∨ n ∈ x'.2
  special : ∀ n ∈ names, Special K.toKernel S (src ++ (p ++ [n])) → p ++ [n] ∈ x'.1.skippedRels
  begun : Sound K S src x.1 → x'.1.failures = 0 → ∀ n ∈ names, Begun K S src dst p n h h'
  temps : Sound K S src x.1 → x'.1.failures = 0 → ∀ q, q ≠ p → ¬ Covers p names q →
    h'.fs.get (dst ++ q) = h.fs.get (dst ++ q) ∨ h'.fs.get (dst ++ q) = none

section Level

variable {K : Kernel} {S : Fs} {src dst p : Path} {n : Name} {names : List Name} {h h₁ h₂ h' : Host}
  {x x₁ x₂ : Ctx × List Name} {c : Ctx}

/-- Nothing below an entry bears a temporary name of the entry's level. -/
theorem not_tempOf_below {t : Path} (ht : t ≠ []) : ¬ TempOf K S src p names (p ++ [n] ++ t) := by
  rintro ⟨m, -, -, heq⟩
  rw [List.append_assoc, List.append_cancel_left_eq, List.singleton_append, List.cons.injEq] at heq
  exact ht heq.2

/-- What lies below another name is not covered by these. -/
theorem not_covers {m : Name} (hne : m ∉ names) {t : Path} : ¬ Covers p names (p ++ [m] ++ t) := by
  rintro ⟨k, hk, hpre⟩
  rw [prefix_name_unique hpre (List.prefix_append _ _)] at hk
  exact hne hk

theorem not_covers_self {m : Name} (hne : m ∉ names) : ¬ Covers p names (p ++ [m]) := by
  have := not_covers (p := p) (t := []) hne
  rwa [List.append_nil] at this

/-- What lies below a level is not the level. -/
theorem level_ne {t : Path} : p ++ [n] ++ t ≠ p := by
  intro heq
  have := congrArg List.length heq
  simp at this

theorem level_ne_self : p ++ [n] ≠ p := by simp

/-- **One entry after the others.** A later entry's turn spoils what an earlier one has done only through a
temporary name, and so does an earlier one what a later one finds. -/
theorem Listed.cons (hsorted : ∀ m ∈ names, n < m) (hl : Listed K S src dst p [n] h x h₁ x₁)
    (hl' : Listed K S src dst p names h₁ x₁ h₂ x₂) : Listed K S src dst p (n :: names) h x h₂ x₂ where
  -- a place outside both is outside each
  bounded := by
    apply hl.bounded.trans hl'.bounded
    · rintro q (⟨m, hm, hpre⟩ | ⟨m, hm, hpre⟩)
      · exact ⟨m, by simp [List.mem_singleton.mp hm], hpre⟩
      · exact ⟨m, List.mem_cons_of_mem n hm, hpre⟩
    · rintro q (⟨m, hm, hfile⟩ | ⟨m, hm, hfile⟩)
      · exact ⟨m, by simp [List.mem_singleton.mp hm], hfile⟩
      · exact ⟨m, List.mem_cons_of_mem n hm, hfile⟩
  grows := hl.grows.trans hl'.grows
  sound := fun hs => hl'.sound (hl.sound hs)
  seen := by
    intro m hm
    rcases List.mem_cons.mp hm with rfl | hm
    · exact hl'.grows.srcRels _ (hl.seen m (List.mem_singleton.mpr rfl))
    · exact hl'.seen m hm
  subs := by
    obtain ⟨new, hnew, hsub, hdirs⟩ := hl.subs
    obtain ⟨new', hnew', hsub', hdirs'⟩ := hl'.subs
    refine ⟨new ++ new', by rw [hnew', hnew, List.append_assoc], hsub.append hsub', fun m hm => ?_⟩
    -- the directories entered in the first turn are there after the later ones
    rcases List.mem_append.mp hm with hm | hm
    · have hmn : m = n := List.mem_singleton.mp (hsub.subset hm)
      have hfresh : m ∉ names := fun hmem => lt_irrefl _ (hmn ▸ hsorted m hmem)
      refine ⟨(hdirs m hm).1, ?_⟩
      -- a directory that was made stays, even where it bears the temporary name of a later file
      obtain ⟨mode, hmode⟩ := (hdirs m hm).2
      exact ⟨mode, (hl'.bounded.untouched _ level_ne_self (not_covers_self hfresh)
        fun _ => ⟨mode, hmode⟩).trans hmode⟩
    · exact hdirs' m hm
  entered := by
    intro m hm hdir
    rcases List.mem_cons.mp hm with rfl | hm
    · obtain ⟨new', hnew', -, -⟩ := hl'.subs
      rcases hl.entered m (List.mem_singleton.mpr rfl) hdir with hskip | hsub
      · exact .inl (hl'.grows.skipped _ hskip)
      · exact .inr (hnew' ▸ List.mem_append_left _ hsub)
    · exact hl'.entered m hm hdir
  special := by
    intro m hm hspecial
    rcases List.mem_cons.mp hm with rfl | hm
    · exact hl'.grows.skipped _ (hl.special m (List.mem_singleton.mpr rfl) hspecial)
    · exact hl'.special m hm hspecial
  begun := by
    intro hs hquiet m hm
    have hquiet₁ : x₁.1.failures = 0 := hl'.grows.quiet hquiet
    -- the first entry: what its turn left is not touched by the rest
    rcases List.mem_cons.mp hm with rfl | hmem
    · have hb := hl.begun hs hquiet₁ m (List.mem_singleton.mpr rfl)
      have hfresh : m ∉ names := fun hmem => lt_irrefl _ (hsorted m hmem)
      -- the later turns leave the entry alone, or it bears the temporary name of a later file
      have hsame : ¬ S.IsDir (src ++ (p ++ [m])) → S.get (src ++ (p ++ [m])) ≠ none →
          ¬ Spoiled K S src (p ++ [m]) → h₂.fs.get (dst ++ (p ++ [m])) = h₁.fs.get (dst ++ (p ++ [m])) := by
        intro hdir hsome hspoiled
        refine hl'.bounded.untouched _ level_ne_self (not_covers_self hfresh) ?_
        rintro ⟨k, hk, hregular, heq⟩
        have hname : m = tempName k := by simpa using heq
        exact absurd ⟨p, k, hregular, heq, .inr (.inr ⟨hname ▸ hsorted k hk, hdir⟩)⟩ hspoiled
      refine ⟨fun e he hdir hspecial hspoiled => ?_, fun hspecial hspoiled => ?_, fun hlink t ht => ?_⟩
      · rw [hsame ?_ (by rw [he]; simp) hspoiled]
        · exact hb.copied e he hdir hspecial hspoiled
        · rintro ⟨mode, hmode⟩
          rw [he] at hmode
          cases hmode
          cases hdir
      · obtain ⟨i, data, hget⟩ := hspecial.1
        rw [hsame ?_ (by rw [hget]; simp) hspoiled]
        · exact hb.left hspecial hspoiled
        · rintro ⟨mode, hmode⟩
          rw [hget] at hmode
          cases hmode
      · rw [hl'.bounded.untouched _ level_ne (not_covers hfresh) fun hu => absurd hu (not_tempOf_below ht)]
        exact hb.below hlink t ht
    -- a later entry: the first turn left what it begins with
    · have hb := hl'.begun (hl.sound hs) hquiet m hmem
      have hfresh : m ∉ [n] := by
        rw [List.mem_singleton]
        rintro rfl
        exact lt_irrefl _ (hsorted m hmem)
      refine ⟨fun e he hdir hspecial hspoiled => ?_, fun hspecial hspoiled => ?_, fun hlink t ht => ?_⟩
      · obtain ⟨e', he', hc⟩ := hb.copied e he hdir hspecial hspoiled
        exact ⟨e', he', hc.of_before (hl.temps hs hquiet₁ _ level_ne_self (not_covers_self hfresh))⟩
      · rw [hb.left hspecial hspoiled]
        refine hl.bounded.untouched _ level_ne_self (not_covers_self hfresh) ?_
        rintro ⟨k, hk, hregular, heq⟩
        exact absurd ⟨p, k, hregular, heq, .inr (.inl hspecial)⟩ hspoiled
      · rw [hb.below hlink t ht]
        exact hl.bounded.untouched _ level_ne (not_covers hfresh) fun hu => absurd hu (not_tempOf_below ht)
  temps := by
    intro hs hquiet q hne hcover
    have hquiet₁ : x₁.1.failures = 0 := hl'.grows.quiet hquiet
    have hfirst : ¬ Covers p [n] q := by
      rintro ⟨m, hm, hpre⟩
      exact hcover ⟨m, by simp [List.mem_singleton.mp hm], hpre⟩
    have hrest : ¬ Covers p names q := by
      rintro ⟨m, hm, hpre⟩
      exact hcover ⟨m, List.mem_cons_of_mem n hm, hpre⟩
    -- a name neither covers has gone through both unchanged, or was a temporary one
    rcases hl'.temps (hl.sound hs) hquiet q hne hrest with hsame | hnone
    · rw [hsame]
      exact hl.temps hs hquiet₁ q hne hfirst
    · exact .inr hnone

/-- A turn that leaves the entry out: it is skipped, and a failure unless it is one that is always skipped. -/
theorem Listed.skipped (hb : Bounded S src dst p (Covers p [n]) (TempOf K S src p [n]) h h')
    (hsome : S.get (src ++ (p ++ [n])) ≠ none) (hgrows : Grows S src (x.1.saw (p ++ [n])) c)
    (hsound : Sound K S src x.1 → Sound K S src c) (hskip : p ++ [n] ∈ c.skippedRels)
    (hquiet : Sound K S src x.1 → c.failures = 0 →
      Special K.toKernel S (src ++ (p ++ [n])) ∧ Within (fun _ => False) h h') :
    Listed K S src dst p [n] h x h' (c, x.2) where
  bounded := hb
  grows := (grows_saw hsome).trans hgrows
  sound := hsound
  seen := by
    intro m hm
    rw [List.mem_singleton.mp hm]
    exact hgrows.srcRels _ List.mem_cons_self
  subs := ⟨[], (List.append_nil _).symm, List.nil_sublist _, by simp⟩
  entered := by
    intro m hm _
    rw [List.mem_singleton.mp hm]
    exact .inl hskip
  special := by
    intro m hm _
    rw [List.mem_singleton.mp hm]
    exact hskip
  begun := by
    intro hs hzero m hm
    obtain ⟨hspecial, hw⟩ := hquiet hs hzero
    rw [List.mem_singleton.mp hm]
    exact ⟨fun _ _ _ hnot => absurd hspecial hnot, fun _ _ => hw.unchanged _, fun _ _ _ => hw.unchanged _⟩
  temps := fun hs hzero _ _ _ => .inl ((hquiet hs hzero).2.unchanged _)

/-- A turn that fails. -/
theorem Listed.noted (hb : Bounded S src dst p (Covers p [n]) (TempOf K S src p [n]) h h')
    (hsome : S.get (src ++ (p ++ [n])) ≠ none)
    (hstill : Special K.toKernel S (src ++ (p ++ [n])) → Within (fun _ => False) h h') :
    Listed K S src dst p [n] h x h' ((x.1.saw (p ++ [n])).noteFailure (p ++ [n]), x.2) := by
  apply Listed.skipped hb hsome (grows_noteFailure hsome)
  · intro hs
    have hsaw : Sound K S src (x.1.saw (p ++ [n])) := hs
    exact hsaw.noteFailure
  · exact mem_noteFailure _ _
  · intro hs hzero
    have hsaw : Sound K S src (x.1.saw (p ++ [n])) := hs
    have hspecial := hsaw.special_of_quiet hzero
    exact ⟨hspecial, hstill hspecial⟩

/-- A turn that brings a file or a link into line. -/
theorem Listed.copied {e : Entry} (hb : Bounded S src dst p (Covers p [n]) (TempOf K S src p [n]) h h')
    (he : S.get (src ++ (p ++ [n])) = some e) (hdir : e.isDir = false)
    (hspecial : ¬ Special K.toKernel S (src ++ (p ++ [n])))
    (hcopied : ∃ e', h'.fs.get (dst ++ (p ++ [n])) = some e' ∧ Copied K (h.fs.get (dst ++ (p ++ [n]))) e e')
    (hbelow : (∀ target, e ≠ .symlink target) → ∀ t, t ≠ [] →
      h'.fs.get (dst ++ (p ++ [n] ++ t)) = h.fs.get (dst ++ (p ++ [n] ++ t)))
    (htemps : ∀ q, q ≠ p → ¬ Covers p [n] q →
      h'.fs.get (dst ++ q) = h.fs.get (dst ++ q) ∨ h'.fs.get (dst ++ q) = none) :
    Listed K S src dst p [n] h x h' (x.1.saw (p ++ [n]), x.2) where
  bounded := hb
  grows := grows_saw (by rw [he]; simp)
  sound := id
  seen := by
    intro m hm
    rw [List.mem_singleton.mp hm]
    exact List.mem_cons_self
  subs := ⟨[], (List.append_nil _).symm, List.nil_sublist _, by simp⟩
  entered := by
    intro m hm hmdir
    rw [List.mem_singleton.mp hm] at hmdir
    obtain ⟨mode, hmode⟩ := hmdir
    rw [he] at hmode
    cases hmode
    cases hdir
  special := by
    intro m hm hmspecial
    rw [List.mem_singleton.mp hm] at hmspecial
    exact absurd hmspecial hspecial
  begun := by
    intro _ _ m hm
    rw [List.mem_singleton.mp hm]
    refine ⟨fun e₁ he₁ _ _ _ => ?_, fun hnot => absurd hnot hspecial, fun hlink => hbelow fun target heq => ?_⟩
    · rw [he, Option.some.injEq] at he₁
      rw [← he₁]
      exact hcopied
    · rw [heq] at he
      exact hlink target he
  temps := fun _ _ => htemps

/-- A turn that makes or finds a directory. -/
theorem Listed.made (hb : Bounded S src dst p (Covers p [n]) (TempOf K S src p [n]) h h')
    (hdir : S.IsDir (src ++ (p ++ [n]))) (hthere : h'.fs.IsDir (dst ++ (p ++ [n])))
    -- below a directory that is made nothing has been
    (hbelow : ∀ t, t ≠ [] → h'.fs.get (dst ++ (p ++ [n] ++ t)) = h.fs.get (dst ++ (p ++ [n] ++ t)))
    (hother : ∀ q, q ≠ p → ¬ Covers p [n] q → h'.fs.get (dst ++ q) = h.fs.get (dst ++ q)) :
    Listed K S src dst p [n] h x h' (x.1.saw (p ++ [n]), x.2 ++ [n]) where
  bounded := hb
  grows := by
    obtain ⟨m, hm⟩ := hdir
    exact grows_saw (by rw [hm]; simp)
  sound := id
  seen := by
    intro m hm
    rw [List.mem_singleton.mp hm]
    exact List.mem_cons_self
  subs := by
    refine ⟨[n], rfl, List.Sublist.refl _, fun m hm => ?_⟩
    rw [List.mem_singleton.mp hm]
    exact ⟨hdir, hthere⟩
  entered := by
    intro m hm _
    exact .inr (List.mem_append_right _ hm)
  special := by
    intro m hm hmspecial
    rw [List.mem_singleton.mp hm] at hmspecial
    obtain ⟨⟨i, data, hget⟩, -⟩ := hmspecial
    obtain ⟨mode, hmode⟩ := hdir
    rw [hmode] at hget
    cases hget
  begun := by
    intro _ _ m hm
    rw [List.mem_singleton.mp hm]
    obtain ⟨mode, hmode⟩ := hdir
    refine ⟨fun e he hedir => ?_, fun hspecial => ?_, fun _ => hbelow⟩
    · rw [hmode, Option.some.injEq] at he
      rw [← he] at hedir
      cases hedir
    · obtain ⟨⟨i, data, hget⟩, -⟩ := hspecial
      rw [hmode] at hget
      cases hget
  temps := fun _ _ q hne hcover => .inl (hother q hne hcover)

/-- What stays at one entry leaves the others alone. -/
theorem Near.other (hn : Near h (dst ++ p) (Under (dst ++ p) n) h') {q : Path} (hne : q ≠ p)
    (hcover : ¬ Covers p [n] q) : h'.fs.get (dst ++ q) = h.fs.get (dst ++ q) := by
  apply hn.within.now
  rintro (heq | hx)
  · exact hne (List.append_cancel_left heq)
  · unfold Under at hx
    rw [List.append_assoc, List.prefix_append_right_inj] at hx
    exact hcover ⟨n, List.mem_singleton.mpr rfl, hx⟩

/-- Mirroring a directory makes it where it is missing, changes its place alone, and leaves what is below it
to be mirrored next. -/
theorem mirrorDir_spec {m : Mode} {E : Host → Prop} (ha : Aside S src dst) (hv : ValidName n)
    (hdir : S.get (src ++ (p ++ [n])) = some (.dir m)) :
    Proc.Triple (Within (fun _ => False) h)
      (mirrorDir K (dst ++ p) n (p ++ [n]) (x.1.saw (p ++ [n]), x.2))
      (fun x' h' => Listed K S src dst p [n] h x h' x') E := by
  have hsome : S.get (src ++ (p ++ [n])) ≠ none := by
    rw [hdir]
    simp
  unfold mirrorDir
  apply Proc.Triple.bind (Proc.Triple.attempt (syncDir_spec hv))
  intro result
  cases result with
  | error e =>
    apply Proc.Triple.pure
    intro h' hn
    apply Listed.noted (hn.bounded ha hdir fun i data hfile => by cases hfile) hsome
    rintro ⟨⟨i, data, hget⟩, -⟩
    rw [hdir] at hget
    cases hget
  | ok u =>
    apply Proc.Triple.pure
    rintro h' ⟨hn, hthere, hbelow⟩
    apply Listed.made (hn.bounded ha hdir fun i data hfile => by cases hfile) ⟨m, hdir⟩
    · rw [← List.append_assoc]
      exact hthere
    · intro t ht
      have := hbelow t ht
      rwa [List.append_assoc dst, List.append_assoc dst] at this
    · exact fun q => hn.other

/-- Mirroring a link leaves a link with its target, or the failure is noted. -/
theorem mirrorLink_spec {target : List Char} {E : Host → Prop} (ha : Aside S src dst) (hv : ValidName n)
    (hs : Source S src h) (hlink : S.get (src ++ (p ++ [n])) = some (.symlink target)) :
    Proc.Triple (Within (fun _ => False) h)
      (do
        let ctx ← reported (syncSymlink K (src ++ p) n (dst ++ p) n) (p ++ [n]) (x.1.saw (p ++ [n]))
        pure (ctx, x.2))
      (fun x' h' => Listed K S src dst p [n] h x h' x') E := by
  have hsome : S.get (src ++ (p ++ [n])) ≠ none := by
    rw [hlink]
    simp
  have hspecial : ¬ Special K.toKernel S (src ++ (p ++ [n])) := by
    rintro ⟨⟨i, data, hget⟩, -⟩
    rw [hlink] at hget
    -- a link is no special file, and no file
    cases hget
  have hfile : ∀ i data, Entry.symlink target ≠ .file i data := by
    intro i data heq
    cases heq
  unfold reported
  apply Proc.Triple.bind (Q := fun ctx h' => Listed K S src dst p [n] h x h' (ctx, x.2))
  · apply Proc.Triple.bind (Proc.Triple.attempt (syncSymlink_spec hv))
    intro result
    -- a refused link is noted as a failure
    cases result with
    | error e =>
      apply Proc.Triple.pure
      intro h' hn
      exact Listed.noted (hn.bounded ha hlink hfile) hsome fun hnot => absurd hnot hspecial
    -- a link that is made has the target read, which is that of the source
    | ok u =>
      apply Proc.Triple.pure
      rintro h' ⟨hn, t, hsrc, hthere⟩
      rw [hs.get_name, hlink, Option.some.injEq, Entry.symlink.injEq] at hsrc
      rw [List.append_assoc, ← hsrc] at hthere
      apply Listed.copied (hn.bounded ha hlink hfile) hlink rfl hspecial ⟨_, hthere, rfl⟩
      · exact fun hnot => absurd rfl (hnot target)
      · exact fun q hne hcover => .inl (hn.other hne hcover)
  · intro ctx
    exact Proc.Triple.pure fun _ hl => hl

/-- Mirroring a file leaves it with the content of the source, or the failure is noted. -/
theorem mirrorRegular_spec {i : Nat} {data : FileData} {E : Host → Prop} (ha : Aside S src dst)
    (hv : ValidName n) (hs : Source S src h) (hfile : S.get (src ++ (p ++ [n])) = some (.file i data))
    (hregular : K.special (src ++ (p ++ [n])) = false) :
    Proc.Triple (Within (fun _ => False) h)
      (do
        let ctx ← mirrorFile K (src ++ p) n data (dst ++ p) n (p ++ [n]) (x.1.saw (p ++ [n]))
        pure (ctx, x.2))
      (fun x' h' => Listed K S src dst p [n] h x h' x') E := by
  have hsome : S.get (src ++ (p ++ [n])) ≠ none := by
    rw [hfile]
    simp
  have hspecial : ¬ Special K.toKernel S (src ++ (p ++ [n])) := fun hsp => by
    rw [hsp.2] at hregular
    cases hregular
  have hsrc : h.fs.get (src ++ p ++ [n]) = some (.file i data) := hs.get_name.trans hfile
  apply Proc.Triple.bind (mirrorFile_spec hv hsrc)
  intro ctx
  apply Proc.Triple.pure
  intro h' hd
  have hb := bounded_of_file (K := K) ha ⟨⟨i, data, hfile⟩, hregular⟩ hd.within hd.dirs
  -- either the failure is noted and nothing has changed, or the file is as in the source
  rcases hd.outcome with rfl | ⟨rfl, hcopied, htemp⟩
  · exact Listed.noted hb hsome fun hnot => absurd hnot hspecial
  · apply Listed.copied hb hfile rfl hspecial
    · have := hcopied _ hsrc
      rwa [List.append_assoc] at this
    -- nothing lies below a file, and the temporary name is another name of the directory
    · intro _ t ht
      apply hd.within.now
      rintro (heq | heq | heq)
      · exact level_ne (List.append_cancel_left heq)
      · rw [List.append_assoc dst, List.append_cancel_left_eq, List.append_right_eq_self] at heq
        exact ht heq
      · rw [List.append_assoc dst p, List.append_cancel_left_eq, List.append_assoc, List.append_cancel_left_eq,
          List.singleton_append, List.cons.injEq] at heq
        exact ht heq.2
    -- a name outside is left alone, or it is the temporary one, which is gone again
    · intro q hne hcover
      by_cases heq : q = p ++ [tempName n]
      · rw [heq, ← List.append_assoc]
        apply htemp
        intro hsame
        rw [hsame] at heq
        exact hcover ⟨n, List.mem_singleton.mpr rfl, by rw [heq]⟩
      · left
        apply hd.within.now
        rintro (hq | hq | hq)
        · exact hne (List.append_cancel_left hq)
        · rw [List.append_assoc] at hq
          exact hcover ⟨n, List.mem_singleton.mpr rfl, by rw [List.append_cancel_left hq]⟩
        · rw [List.append_assoc] at hq
          exact heq (List.append_cancel_left hq)

/-- **One entry**, by what the source has under the name. -/
theorem mirrorEntry_spec {E : Host → Prop} (ha : Aside S src dst) (hv : ValidName n) (hs : Source S src h)
    (hsome : S.get (src ++ (p ++ [n])) ≠ none) :
    Proc.Triple (Within (fun _ => False) h) (mirrorEntry K p (src ++ p) (dst ++ p) n x)
      (fun x' h' => Listed K S src dst p [n] h x h' x') E := by
  unfold mirrorEntry
  apply Proc.Triple.bind (Proc.Triple.attempt (lstat_spec hv))
  intro result
  cases result with
  | error e => exact Proc.Triple.pure fun h' hw => Listed.noted (Bounded.refl hw) hsome fun _ => hw
  | ok e =>
    apply Proc.Triple.assuming
    intro he
    rw [hs.get_name] at he
    cases e with
    | dir m => exact mirrorDir_spec ha hv he
    | symlink target => exact mirrorLink_spec ha hv hs he
    | file i data =>
      dsimp only
      split
      · rename_i hspecial
        rw [List.append_assoc] at hspecial
        apply Proc.Triple.pure
        intro h' hw
        have hsp : Special K.toKernel S (src ++ (p ++ [n])) := ⟨⟨i, data, he⟩, hspecial⟩
        apply Listed.skipped (Bounded.refl hw) hsome (grows_skip hsome)
        · intro hsound
          have hsaw : Sound K S src (x.1.saw (p ++ [n])) := hsound
          exact hsaw.skip hsp
        · exact List.mem_cons_self
        · exact fun _ _ => ⟨hsp, hw⟩
      · rename_i hspecial
        rw [List.append_assoc, Bool.not_eq_true] at hspecial
        exact mirrorRegular_spec ha hv hs he hspecial

/-- **The first loop of a level.** -/
theorem mirrorNames_spec {E : Host → Prop} (ha : Aside S src dst) (hv : ∀ n ∈ names, ValidName n)
    (hsorted : names.Pairwise (· < ·)) (hsome : ∀ n ∈ names, S.get (src ++ (p ++ [n])) ≠ none)
    (hs : Source S src h) :
    Proc.Triple (Within (fun _ => False) h) (.thread (mirrorEntry K p (src ++ p) (dst ++ p)) names x)
      (fun x' h' => Listed K S src dst p names h x h' x') E := by
  induction names generalizing h x with
  | nil =>
    apply Proc.Triple.pure
    intro h' hw
    refine ⟨Bounded.refl hw, Grows.refl _, id, by simp, ⟨[], (List.append_nil _).symm, List.Sublist.refl _, by simp⟩,
      by simp, by simp, by simp, fun _ _ q _ _ => .inl (hw.unchanged _)⟩
  | cons n names ih =>
    rw [List.pairwise_cons] at hsorted
    show Proc.Triple _ (mirrorEntry K p (src ++ p) (dst ++ p) n x >>= fun x₁ =>
      Proc.thread (mirrorEntry K p (src ++ p) (dst ++ p)) names x₁) _ _
    apply Proc.Triple.bind (mirrorEntry_spec ha (hv n List.mem_cons_self) hs (hsome n List.mem_cons_self))
    intro x₁ h₁ hl
    have hrest := ih (x := x₁) (fun m hm => hv m (List.mem_cons_of_mem n hm)) hsorted.2
      (fun m hm => hsome m (List.mem_cons_of_mem n hm)) (hl.bounded.source hs)
    exact (hrest.conseq (fun _ hw => hw) (fun x₂ h₂ hl' => hl.cons hsorted.1 hl') fun _ he => he) h₁
      (Within.refl _ _)

end Level

/-! ## The directories of a level -/

/-- A path that goes on behind a link of the source. -/
def UnderLink (S : Fs) (src q : Path) : Prop :=
  ∃ r t target, t ≠ [] ∧ q = r ++ t ∧ S.get (src ++ r) = some (.symlink target)

/-- The destination has at `q` what the source has there; what the source has not, or what is not mirrored,
is as it was, except behind a link, which has taken a directory's place. -/
structure Mirrors (K : Kernel) (S : Fs) (src dst : Path) (h h' : Host) (q : Path) : Prop where
  copied : ∀ e, S.get (src ++ q) = some e → ¬ Special K.toKernel S (src ++ q) →
    ∃ e', h'.fs.get (dst ++ q) = some e' ∧ Copied K (h.fs.get (dst ++ q)) e e'
  left : S.get (src ++ q) = none ∨ Special K.toKernel S (src ++ q) → ¬ UnderLink S src q →
    h'.fs.get (dst ++ q) = h.fs.get (dst ++ q)

/-- What a part of the walk has done about the entries in `C`. -/
structure Mirrored (K : Kernel) (S : Fs) (src dst p : Path) (C : Path → Prop) (h : Host) (c : Ctx) (h' : Host)
    (c' : Ctx) : Prop where
  bounded : Bounded S src dst p C (fun _ => False) h h'
  grows : Grows S src c c'
  sound : Sound K S src c → Sound K S src c'
  special : ∀ q, C q → Special K.toKernel S (src ++ q) → ∃ r ∈ c'.skippedRels, r <+: q
  mirrors : Sound K S src c → c'.failures = 0 → ∀ q, C q → ¬ Spoiled K S src q → Mirrors K S src dst h h' q

/-- What a level does, for the recursion. -/
def LevelSpec (K : Kernel) (S : Fs) (src dst : Path) (level : Path → Path → Path → Ctx → HostSys Ctx) (p : Path) :
    Prop :=
  ∀ h c, Source S src h → S.IsDir (src ++ p) → h.fs.IsDir (dst ++ p) →
    Proc.Triple (Within (fun _ => False) h) (level p (src ++ p) (dst ++ p) c)
      (fun c' h' => Mirrored K S src dst p (Below p) h c h' c')
      (Bounded S src dst p (Below p) (fun _ => False) h)

section Directories

variable {K : Kernel} {S : Fs} {src dst p : Path} {n : Name} {names : List Name} {h h₁ h₂ h' : Host}
  {c c₁ c₂ : Ctx} {x₁ : Ctx × List Name} {C U : Path → Prop}

/-- A directory is there. -/
theorem some_of_isDir {q : Path} (hdir : S.IsDir q) : S.get q ≠ none := by
  obtain ⟨m, hm⟩ := hdir
  rw [hm]
  simp

/-- A call that changes nothing leaves what has been mirrored. -/
theorem Mirrored.tick (hm : Mirrored K S src dst p C h c h' c₁) : Mirrored K S src dst p C h c h'.tick c₁ :=
  ⟨hm.bounded.tick, hm.grows, hm.sound, hm.special, fun hs hq q hc hsp =>
    ⟨(hm.mirrors hs hq q hc hsp).copied, (hm.mirrors hs hq q hc hsp).left⟩⟩

/-- A directory is no special file. -/
theorem not_special_of_dir {q : Path} (hdir : S.IsDir (src ++ q)) : ¬ Special K.toKernel S (src ++ q) := by
  rintro ⟨⟨i, data, hget⟩, -⟩
  obtain ⟨m, hm⟩ := hdir
  rw [hm] at hget
  cases hget

/-- A level's reach, seen from the level above. -/
theorem Bounded.up (hb : Bounded S src dst (p ++ [n]) (Below (p ++ [n])) (fun _ => False) h h') :
    Bounded S src dst p (Covers p [n]) U h h' where
  within := hb.within.mono fun x hx => by
    rw [← List.append_assoc] at hx
    exact (List.prefix_append _ _).trans hx
  isDir := by
    rintro ⟨m, hm⟩
    refine ⟨m, (hb.within.now _ fun hpre => ?_).trans hm⟩
    have := hpre.length_le
    simp at this
  untouched := by
    intro q _ hcover _
    apply hb.within.now
    intro hpre
    rw [List.prefix_append_right_inj] at hpre
    exact hcover ⟨n, List.mem_singleton.mpr rfl, hpre⟩
  source := hb.source

/-- A directory that is opened is the one under the name. -/
theorem openDir_spec {F : Faults} {d : Path} (hv : ValidName n) :
    Proc.Triple (Within (fun _ => False) h) (query F (·.openDirAt d n))
      (fun fd h' => Within (fun _ => False) h h' ∧ fd = d ++ [n]) (Within (fun _ => False) h) := by
  apply Triple.query
  · intro h₁ fd hw hfd
    unfold Fs.openDirAt at hfd
    rw [Fs.locate_valid hv] at hfd
    split at hfd
    · exact ⟨hw.tick, (Except.ok.inj hfd).symm⟩
    all_goals cases hfd
  · intro h₁ hw
    exact hw.tick

/-- What any tick leaves holding, a level that is reopened leaves holding. -/
theorem popBoth_spec {I E : Host → Prop} (htick : ∀ h, I h → I h.tick) (hE : ∀ h, I h → E h) :
    Proc.Triple I (popBoth K) (fun _ => I) E := by
  unfold popBoth popLevel
  apply Proc.Triple.bind (Q := fun _ => I)
  · exact Triple.query (fun h _ hI _ => htick h hI) fun h hI => hE _ (htick h hI)
  · intro _
    exact Triple.query (fun h _ hI _ => htick h hI) fun h hI => hE _ (htick h hI)

/-- The mode of a directory, where the source's can be seen. -/
theorem applyDirMetadata_spec {a d : Path} {m : Mode} (hs : h.fs.get a = some (.dir m)) (hd : h.fs.IsDir d) :
    Proc.Triple (Within (fun _ => False) h) (applyDirMetadata K a d)
      (fun _ h' => Within (· = d) h h' ∧ ∃ m', h'.fs.get d = some (.dir m') ∧ (K.Obeys → m' = m))
      (Within (fun _ => False) h) := by
  unfold applyDirMetadata
  apply Proc.Triple.bind (Q := fun stat h' => Within (fun _ => False) h h' ∧ stat.mode = m)
  · apply fstatDir_spec
    · intro h₁ stat hw hstat _
      rw [hw.unchanged, hs, Option.some.injEq, Entry.dir.injEq] at hstat
      exact ⟨hw.tick, hstat.symm⟩
    · intro h₁ hw _
      exact hw.tick
  · intro stat
    apply Proc.Triple.assuming
    rintro rfl
    exact copyDirMetadata_spec hd

/-- A directory that cannot be entered is a failure, and nothing has been done in it. -/
theorem Mirrored.noted (hdir : S.IsDir (src ++ (p ++ [n]))) (hw : Within (fun _ => False) h h') :
    Mirrored K S src dst p (Covers p [n]) h c h' (c.noteFailure (p ++ [n])) where
  bounded := Bounded.refl hw
  grows := grows_noteFailure (some_of_isDir hdir)
  sound := Sound.noteFailure
  special := by
    rintro q ⟨m, hm, hpre⟩ _
    rw [List.mem_singleton.mp hm] at hpre
    exact ⟨_, mem_noteFailure _ _, hpre⟩
  mirrors := fun hs hzero => absurd (hs.special_of_quiet hzero) (not_special_of_dir hdir)

/-- What was done in a directory, and then to its mode. -/
theorem Mirrored.entered {m m' : Mode} (ha : Aside S src dst) (hdir : S.get (src ++ (p ++ [n])) = some (.dir m))
    (hm : Mirrored K S src dst (p ++ [n]) (Below (p ++ [n])) h c h₂ c₂)
    (hw : Within (· = dst ++ (p ++ [n])) h₂ h') (hm' : h'.fs.get (dst ++ (p ++ [n])) = some (.dir m'))
    (hobeys : K.Obeys → m' = m) : Mirrored K S src dst p (Covers p [n]) h c h' c₂ := by
  have hsome : S.get (src ++ (p ++ [n])) ≠ none := by
    rw [hdir]
    simp
  -- setting the mode changes the directory's own entry only
  have hnear : Near h₂ (dst ++ p) (Under (dst ++ p) n) h' := by
    refine ⟨hw.mono fun q hq => .inr ?_, ?_⟩
    · rw [hq, ← List.append_assoc]
      exact under_self
    · rintro ⟨mode, hmode⟩
      exact ⟨mode, (hw.now _ (by simp)).trans hmode⟩
  have hsplit : ∀ q, Covers p [n] q → q = p ++ [n] ∨ Below (p ++ [n]) q := by
    rintro q ⟨k, hk, t, rfl⟩
    rw [List.mem_singleton.mp hk]
    cases t with
    | nil => exact .inl (List.append_nil _)
    | cons d t => exact .inr ⟨d :: t, List.cons_ne_nil d t, rfl⟩
  refine ⟨hm.bounded.up.trans (hnear.bounded ha hdir fun i data hfile => by cases hfile) (fun q hq => hq.elim id id) (fun q hq => hq.elim id id),
    hm.grows, hm.sound, fun q hq hspecial => ?_, fun hs hzero q hq hspoiled => ?_⟩
  -- the directory itself is no special file; below it the level has looked after them
  · rcases hsplit q hq with rfl | hbelow
    · exact absurd hspecial (not_special_of_dir ⟨m, hdir⟩)
    · exact hm.special q hbelow hspecial
  · rcases hsplit q hq with rfl | hbelow
    -- the directory has its mode, where the kernel obeys
    · refine ⟨fun e he _ => ⟨_, hm', ?_⟩, fun hnot => ?_⟩
      · rw [hdir, Option.some.injEq] at he
        rw [← he]
        exact hobeys
      · rcases hnot with hnone | hspecial
        · exact absurd hnone hsome
        · exact absurd hspecial (not_special_of_dir ⟨m, hdir⟩)
    -- what is below it is as the level left it
    · have hmirrors := hm.mirrors hs hzero q hbelow hspoiled
      have hsame : h'.fs.get (dst ++ q) = h₂.fs.get (dst ++ q) := by
        apply hw.now
        intro heq
        obtain ⟨t, ht, rfl⟩ := hbelow
        rw [List.append_cancel_left_eq, List.append_right_eq_self] at heq
        exact ht heq
      exact ⟨fun e he hspecial => by rw [hsame]; exact hmirrors.copied e he hspecial,
        fun hnot hlink => by rw [hsame]; exact hmirrors.left hnot hlink⟩

/-- **One directory**, from its contents to its mode. -/
theorem mirrorSub_spec {level : Path → Path → Path → Ctx → HostSys Ctx} (ha : Aside S src dst)
    (hlevel : LevelSpec K S src dst level (p ++ [n])) (hv : ValidName n) (hs : Source S src h)
    (hdir : S.IsDir (src ++ (p ++ [n]))) (hthere : h.fs.IsDir (dst ++ (p ++ [n]))) :
    Proc.Triple (Within (fun _ => False) h) (mirrorSub K level p (src ++ p) (dst ++ p) n c)
      (fun c' h' => Mirrored K S src dst p (Covers p [n]) h c h' c')
      (Bounded S src dst p (Covers p [n]) (fun _ => False) h) := by
  obtain ⟨m, hm⟩ := id hdir
  unfold mirrorSub
  apply Proc.Triple.bind (Proc.Triple.attempt (openDir_spec hv))
  intro opened
  cases opened with
  -- a source that does not open is noted
  | error e => exact Proc.Triple.pure fun _ hw => Mirrored.noted hdir hw
  | ok subSrc =>
    apply Proc.Triple.assuming
    rintro rfl
    apply Proc.Triple.bind (Proc.Triple.attempt (openDir_spec hv))
    intro opened
    cases opened with
    -- so is a destination, once the source is closed again
    | error e =>
      have hpop : Proc.Triple (Within (fun _ => False) h) (popBoth K) (fun _ => Within (fun _ => False) h)
          (Bounded S src dst p (Covers p [n]) (fun _ => False) h) :=
        popBoth_spec (fun _ hw => hw.tick) fun _ hw => Bounded.refl hw
      exact hpop.bind fun _ => Proc.Triple.pure fun _ hw => Mirrored.noted hdir hw
    | ok subDst =>
      apply Proc.Triple.assuming
      rintro rfl
      -- with both open the level is mirrored, and closed, and the mode set last
      have hrun := hlevel h c hs hdir hthere
      rw [← List.append_assoc, ← List.append_assoc] at hrun
      dsimp only
      apply Proc.Triple.bind (hrun.conseq (fun _ hw => hw) (fun _ _ hmir => hmir) fun _ hb => hb.up)
      intro c'
      apply Proc.Triple.bind (popBoth_spec (fun _ hmir => hmir.tick) fun _ hmir => hmir.bounded.up)
      intro _ h₂ hmir
      have hsrc₂ : h₂.fs.get (src ++ p ++ [n]) = some (.dir m) := (hmir.bounded.source hs).get_name.trans hm
      have hdst₂ : h₂.fs.IsDir (dst ++ p ++ [n]) := by
        rw [List.append_assoc]
        exact hmir.bounded.isDir hthere
      apply Proc.Triple.bind ((applyDirMetadata_spec hsrc₂ hdst₂).conseq (fun _ hw => hw) (fun _ _ hh => hh) ?_) ?_
        h₂ (Within.refl _ _)
      · intro h₃ hw
        exact hmir.bounded.up.trans (Bounded.refl (C := fun _ => False) (U := fun _ => False) hw)
          (fun q hq => hq.elim id False.elim) fun q hq => hq.elim id id
      · intro _
        apply Proc.Triple.pure
        rintro h₃ ⟨hw, m', hm', hobeys⟩
        rw [List.append_assoc] at hw hm'
        exact hmir.entered ha hm hw hm' hobeys

/-- What was done about some of the directories does not come to the others. -/
theorem Mirrored.cons (hfresh : n ∉ names) (hm : Mirrored K S src dst p (Covers p [n]) h c h₁ c₁)
    (hm' : Mirrored K S src dst p (Covers p names) h₁ c₁ h₂ c₂) :
    Mirrored K S src dst p (Covers p (n :: names)) h c h₂ c₂ := by
  have hsplit : ∀ q, Covers p (n :: names) q →
      Covers p [n] q ∧ ¬ Covers p names q ∨ Covers p names q ∧ ¬ Covers p [n] q := by
    rintro q ⟨k, hk, hpre⟩
    rcases List.mem_cons.mp hk with rfl | hk
    · refine .inl ⟨⟨k, List.mem_singleton.mpr rfl, hpre⟩, ?_⟩
      rintro ⟨j, hj, hpre'⟩
      exact hfresh (prefix_name_unique hpre hpre' ▸ hj)
    · refine .inr ⟨⟨k, hk, hpre⟩, ?_⟩
      rintro ⟨j, hj, hpre'⟩
      rw [List.mem_singleton.mp hj] at hpre'
      exact hfresh (prefix_name_unique hpre hpre' ▸ hk)
  have hlevel : ∀ {ns q}, Covers p ns q → q ≠ p := by
    rintro ns q ⟨k, -, t, rfl⟩
    exact level_ne
  refine ⟨?_, hm.grows.trans hm'.grows, fun hs => hm'.sound (hm.sound hs), fun q hq hspecial => ?_,
    fun hs hzero q hq hspoiled => ?_⟩
  · apply hm.bounded.trans hm'.bounded
    · rintro q (⟨k, hk, hpre⟩ | ⟨k, hk, hpre⟩)
      · exact ⟨k, by simp [List.mem_singleton.mp hk], hpre⟩
      · exact ⟨k, List.mem_cons_of_mem n hk, hpre⟩
    · exact fun _ hq => hq.elim id id
  · rcases hsplit q hq with ⟨hfirst, -⟩ | ⟨hrest, -⟩
    · obtain ⟨r, hr, hpre⟩ := hm.special q hfirst hspecial
      exact ⟨r, hm'.grows.skipped r hr, hpre⟩
    · exact hm'.special q hrest hspecial
  · rcases hsplit q hq with ⟨hfirst, hrest⟩ | ⟨hrest, hfirst⟩
    · have hmirrors := hm.mirrors hs (hm'.grows.quiet hzero) q hfirst hspoiled
      have hsame := hm'.bounded.untouched q (hlevel hfirst) hrest False.elim
      exact ⟨fun e he hspecial => by rw [hsame]; exact hmirrors.copied e he hspecial,
        fun hnot hlink => by rw [hsame]; exact hmirrors.left hnot hlink⟩
    · have hmirrors := hm'.mirrors (hm.sound hs) hzero q hrest hspoiled
      have hsame := hm.bounded.untouched q (hlevel hrest) hfirst False.elim
      exact ⟨fun e he hspecial => by rw [← hsame]; exact hmirrors.copied e he hspecial,
        fun hnot hlink => by rw [← hsame]; exact hmirrors.left hnot hlink⟩

/-- **The second loop of a level.** -/
theorem mirrorSubs_spec {level : Path → Path → Path → Ctx → HostSys Ctx} (ha : Aside S src dst)
    (hlevel : ∀ n ∈ names, LevelSpec K S src dst level (p ++ [n])) (hv : ∀ n ∈ names, ValidName n)
    (hnodup : names.Nodup) (hs : Source S src h)
    (hdirs : ∀ n ∈ names, S.IsDir (src ++ (p ++ [n])) ∧ h.fs.IsDir (dst ++ (p ++ [n]))) :
    Proc.Triple (Within (fun _ => False) h) (.thread (mirrorSub K level p (src ++ p) (dst ++ p)) names c)
      (fun c' h' => Mirrored K S src dst p (Covers p names) h c h' c')
      (Bounded S src dst p (Covers p names) (fun _ => False) h) := by
  induction names generalizing h c with
  | nil =>
    apply Proc.Triple.pure
    intro h' hw
    refine ⟨Bounded.refl hw, Grows.refl c, id, ?_, ?_⟩
    · rintro q ⟨k, hk, -⟩
      cases hk
    · rintro - - q ⟨k, hk, -⟩
      cases hk
  | cons n names ih =>
    rw [List.nodup_cons] at hnodup
    show Proc.Triple _ (mirrorSub K level p (src ++ p) (dst ++ p) n c >>= fun c₁ =>
      Proc.thread (mirrorSub K level p (src ++ p) (dst ++ p)) names c₁) _ _
    have hone := mirrorSub_spec (c := c) ha (hlevel n List.mem_cons_self) (hv n List.mem_cons_self) hs
      (hdirs n List.mem_cons_self).1 (hdirs n List.mem_cons_self).2
    have hcovers : ∀ {q}, Covers p [n] q → Covers p (n :: names) q := by
      rintro q ⟨k, hk, hpre⟩
      exact ⟨k, by simp [List.mem_singleton.mp hk], hpre⟩
    -- whatever the turn of the first name leaves, also when it fails, is inside what all names
    -- cover
    apply Proc.Triple.bind (hone.conseq (fun _ hw => hw) (fun _ _ hm => hm) fun _ hb =>
      hb.mono (fun _ => hcovers) fun _ hu => hu)
    intro c₁ h₁ hm
    -- the directories of the later names are still there: the first turn is below its own name
    have hdirs₁ : ∀ k ∈ names, S.IsDir (src ++ (p ++ [k])) ∧ h₁.fs.IsDir (dst ++ (p ++ [k])) := by
      intro k hk
      obtain ⟨hsrc, mode, hmode⟩ := hdirs k (List.mem_cons_of_mem n hk)
      refine ⟨hsrc, mode, (hm.bounded.untouched _ level_ne_self (not_covers_self ?_) False.elim).trans hmode⟩
      rw [List.mem_singleton]
      rintro rfl
      exact hnodup.1 hk
    have hrest := ih (c := c₁) (fun k hk => hlevel k (List.mem_cons_of_mem n hk))
      (fun k hk => hv k (List.mem_cons_of_mem n hk)) hnodup.2 (hm.bounded.source hs) hdirs₁
    refine (hrest.conseq (fun _ hw => hw) (fun c₂ h₂ hm' => hm.cons hnodup.1 hm') fun h₂ hb => ?_) h₁
      (Within.refl _ _)
    apply hm.bounded.trans hb
    · rintro q (hq | ⟨k, hk, hpre⟩)
      · exact hcovers hq
      · exact ⟨k, List.mem_cons_of_mem n hk, hpre⟩
    · exact fun _ hq => hq.elim id id

/-- At the end of a level all of its reach is below it. -/
theorem Bounded.level (hb : Bounded S src dst p C U h h') (hC : ∀ q, C q → Below p q) (hU : ∀ q, U q → Below p q) :
    Bounded S src dst p (Below p) (fun _ => False) h h' where
  within := hb.within
  isDir := hb.isDir
  source := hb.source
  untouched := fun q hne hbelow _ =>
    hb.untouched q hne (fun hc => hbelow (hC q hc)) fun hu => absurd (hU q hu) hbelow

/-- The reach of the two loops of a level. -/
theorem Listed.level {subs : List Name} (hl : Listed K S src dst p names h (c, []) h₁ x₁)
    (hb : Bounded S src dst p (Covers p subs) (fun _ => False) h₁ h₂) :
    Bounded S src dst p (Below p) (fun _ => False) h h₂ := by
  have hboth : Bounded S src dst p (Below p) (TempOf K S src p names) h h₂ :=
    hl.bounded.trans hb (fun _ hq => hq.elim Covers.below Covers.below) fun _ hq => hq.elim id False.elim
  apply hboth.level fun _ hq => hq
  rintro q ⟨m, -, -, rfl⟩
  exact ⟨[tempName m], by simp, rfl⟩

/-- **The two loops of a level** do what the level is to do, where `names` are all that the source has there. -/
theorem Mirrored.of_loops (hnames : ∀ k, k ∈ names ↔ S.get (src ++ (p ++ [k])) ≠ none)
    (hl : Listed K S src dst p names h (c, []) h₁ x₁)
    (hm : Mirrored K S src dst p (Covers p x₁.2) h₁ x₁.1 h₂ c₂) :
    Mirrored K S src dst p (Below p) h c h₂ c₂ := by
  obtain ⟨new, hnew, hsub, hdirs⟩ := hl.subs
  rw [List.nil_append] at hnew
  have hsubs : ∀ k ∈ x₁.2, k ∈ names ∧ S.IsDir (src ++ (p ++ [k])) := fun k hk =>
    ⟨hsub.subset (hnew ▸ hk), (hdirs k (hnew ▸ hk)).1⟩
  -- what is below a name of the source is listed under that name
  have hmem : ∀ {k t}, S.get (src ++ (p ++ [k] ++ t)) ≠ none → k ∈ names := by
    intro k t hsome
    rw [hnames]
    by_cases ht : t = []
    · rwa [ht, List.append_nil] at hsome
    · rw [← List.append_assoc] at hsome
      obtain ⟨m, hm⟩ := isDir_above ht hsome
      rw [hm]
      simp
  have hpath : ∀ q, Below p q → ∃ k t, q = p ++ [k] ++ t := by
    rintro q ⟨r, hr, rfl⟩
    obtain ⟨k, t, rfl⟩ := List.exists_cons_of_ne_nil hr
    exact ⟨k, t, by simp⟩
  refine ⟨hl.level hm.bounded, hl.grows.trans hm.grows, fun hs => hm.sound (hl.sound hs), fun q hq hspecial => ?_,
    fun hs hzero q hq hspoiled => ?_⟩
  -- special files: seen by the first loop, or below a directory that was entered or skipped
  · obtain ⟨k, t, rfl⟩ := hpath q hq
    have hsome : S.get (src ++ (p ++ [k] ++ t)) ≠ none := by
      obtain ⟨i, data, hget⟩ := hspecial.1
      rw [hget]
      simp
    have hk := hmem hsome
    -- the entry itself, which the first loop has skipped
    by_cases ht : t = []
    · subst ht
      rw [List.append_nil] at hspecial ⊢
      exact ⟨_, hm.grows.skipped _ (hl.special k hk hspecial), List.prefix_refl _⟩
    · rw [← List.append_assoc] at hsome
      rcases hl.entered k hk (isDir_above ht hsome) with hskip | hin
      · exact ⟨_, hm.grows.skipped _ hskip, List.prefix_append _ _⟩
      · exact hm.special _ ⟨k, hin, List.prefix_append _ _⟩ hspecial
  · obtain ⟨k, t, rfl⟩ := hpath q hq
    have hzero₁ : x₁.1.failures = 0 := hm.grows.quiet hzero
    -- the second loop leaves alone what is not in one of its directories
    have hsecond : k ∉ x₁.2 → h₂.fs.get (dst ++ (p ++ [k] ++ t)) = h₁.fs.get (dst ++ (p ++ [k] ++ t)) :=
      fun hk => hm.bounded.untouched _ level_ne (not_covers hk) False.elim
    by_cases hk : k ∈ names
    · have hbegun := hl.begun hs hzero₁ k hk
      -- a directory that the second loop has entered
      by_cases hin : k ∈ x₁.2
      · have hdir := (hsubs k hin).2
        obtain ⟨m, hmode⟩ := id hdir
        have hmirrors := hm.mirrors (hl.sound hs) hzero _ ⟨k, hin, List.prefix_append _ t⟩ hspoiled
        by_cases ht : t = []
        · subst ht
          rw [List.append_nil] at hmirrors ⊢
          refine ⟨fun e he hspecial => ?_, fun hnot => ?_⟩
          · obtain ⟨e', he', hc⟩ := hmirrors.copied e he hspecial
            refine ⟨e', he', ?_⟩
            rw [hmode, Option.some.injEq] at he
            subst he
            cases e' <;> exact hc
          · rcases hnot with hnone | hspecial
            · rw [hmode] at hnone
              cases hnone
            · exact absurd hspecial (not_special_of_dir hdir)
        · have hsame := hbegun.below (fun target htarget => by rw [hmode] at htarget; cases htarget) t ht
          exact ⟨fun e he hspecial => by rw [← hsame]; exact hmirrors.copied e he hspecial,
            fun hnot hlink => by rw [← hsame]; exact hmirrors.left hnot hlink⟩
      -- an entry that is no directory: only the first loop has touched it
      · have hdir : ¬ S.IsDir (src ++ (p ++ [k])) := by
          intro hdir
          rcases hl.entered k hk hdir with hskip | hin'
          · exact not_special_of_dir hdir (hl.sound hs hzero₁ _ hskip)
          · exact hin hin'
        have hsame := hsecond hin
        by_cases ht : t = []
        · subst ht
          rw [List.append_nil] at hsame hspoiled ⊢
          rw [hnames] at hk
          refine ⟨fun e he hspecial => ?_, fun hnot _ => ?_⟩
          · rw [hsame]
            refine hbegun.copied e he ?_ hspecial hspoiled
            cases e with
            | dir m => exact absurd ⟨m, he⟩ hdir
            | file i data => rfl
            | symlink target => rfl
          · rw [hsame]
            exact hbegun.left (hnot.resolve_left hk) hspoiled
        -- below such an entry the source has nothing
        · have hnone : S.get (src ++ (p ++ [k] ++ t)) = none := by
            rw [← List.append_assoc]
            exact Fs.get_append_eq_none ht hdir
          refine ⟨fun e he => ?_, fun _ hlink => ?_⟩
          · rw [hnone] at he
            cases he
          · rw [hsame]
            exact hbegun.below (fun target htarget => hlink ⟨_, t, target, ht, rfl, htarget⟩) t ht
    -- a name the source does not have: neither loop has touched it, unless it was a temporary name
    · have hnone : S.get (src ++ (p ++ [k] ++ t)) = none := by
        by_contra hsome
        exact hk (hmem hsome)
      have hsame : h₂.fs.get (dst ++ (p ++ [k] ++ t)) = h.fs.get (dst ++ (p ++ [k] ++ t)) := by
        rw [hsecond fun hin => hk (hsubs k hin).1]
        refine hl.bounded.untouched _ level_ne (not_covers hk) ?_
        rintro ⟨m, hmem, hregular, heq⟩
        exact absurd ⟨p, m, hregular, heq, .inl hnone⟩ hspoiled
      refine ⟨fun e he => ?_, fun _ _ => hsame⟩
      rw [hnone] at he
      cases he

/-- **A level**, by the levels that are left: a directory this deep has no more of them below. -/
theorem mirrorAt_spec (ha : Aside S src dst) (depth : Nat) (hdepth : ∀ q, S.get q ≠ none → q.length ≤ depth)
    (k : Nat) (hk : depth < (src ++ p).length + k) : LevelSpec K S src dst (mirrorAt K k) p := by
  -- by induction on the levels left; a directory deeper than the tree is none
  induction k generalizing p with
  | zero =>
    rintro h c hs ⟨m, hm⟩
    have := hdepth (src ++ p) (by rw [hm]; simp)
    omega
  | succ k ih =>
    rintro h c hs hdir hthere
    unfold mirrorAt mirrorEntries
    have hlist : Proc.Triple (Within (fun _ => False) h)
        (query K.reads fun fs => .ok (fs.listdir (src ++ p)))
        (fun names h' => Within (fun _ => False) h h' ∧ names.Pairwise (· < ·) ∧
          ∀ k, k ∈ names ↔ S.get (src ++ (p ++ [k])) ≠ none)
        (Within (fun _ => False) h) := by
      apply Triple.query
      · intro h' names hw hnames
        rw [Except.ok.injEq] at hnames
        subst hnames
        refine ⟨hw.tick, listdir_sorted _ _, fun k => ?_⟩
        rw [Fs.mem_listdir, Option.isSome_iff_ne_none, hw.unchanged, List.append_assoc, hs]
      · intro h' hw
        exact hw.tick
    -- the first loop, or the listing was refused
    apply Proc.Triple.bind (Q := fun x h₁ => (∃ names, names.Pairwise (· < ·) ∧
      (∀ k, k ∈ names ↔ S.get (src ++ (p ++ [k])) ≠ none) ∧ Listed K S src dst p names h (c, []) h₁ x) ∨
      x = (c.noteFailure p, []) ∧ Within (fun _ => False) h h₁)
    · apply Proc.Triple.bind (Proc.Triple.attempt hlist)
      intro result
      cases result with
      | error e => exact Proc.Triple.pure fun _ hw => .inr ⟨rfl, hw⟩
      | ok names =>
        apply Proc.Triple.assuming
        rintro ⟨hsorted, hnames⟩
        have hv : ∀ n ∈ names, ValidName n := by
          intro n hn
          obtain ⟨e, he⟩ := Option.ne_none_iff_exists'.mp ((hnames n).mp hn)
          rw [← List.append_assoc] at he
          exact Fs.validName_of_get he
        apply (mirrorNames_spec ha hv hsorted (fun n hn => (hnames n).mp hn) hs).conseq (fun _ hw => hw) ?_
          fun _ he => he
        exact fun x h₁ hl => .inl ⟨names, hsorted, hnames, hl⟩
    · rintro x h₁ (⟨names, hsorted, hnames, hl⟩ | ⟨rfl, hw⟩)
      · obtain ⟨new, hnew, hsub, hdirs⟩ := hl.subs
        rw [List.nil_append] at hnew
        rw [← hnew] at hsub hdirs
        -- the directories it found are one level deeper
        have hlevels : ∀ n ∈ x.2, LevelSpec K S src dst (mirrorAt K k) (p ++ [n]) := by
          intro n _
          apply ih
          rw [← List.append_assoc, List.length_append, List.length_singleton]
          omega
        have hv : ∀ n ∈ x.2, ValidName n := by
          intro n hn
          obtain ⟨m, hm⟩ := (hdirs n hn).1
          rw [← List.append_assoc] at hm
          exact Fs.validName_of_get hm
        have hnodup : x.2.Nodup := (hsorted.imp fun hlt => ne_of_lt hlt).sublist hsub
        have hsubs := mirrorSubs_spec (c := x.1) ha hlevels hv hnodup (hl.bounded.source hs) hdirs
        refine (hsubs.conseq (fun _ hw => hw) (fun c₂ h₂ hm => Mirrored.of_loops hnames hl hm) fun h₂ hb => ?_) h₁
          (Within.refl _ _)
        exact hl.level hb
      -- nothing was mirrored, and the failure is noted
      · refine ⟨Bounded.refl hw, grows_noteFailure (some_of_isDir hdir), Sound.noteFailure, ?_, ?_⟩
        · rintro q ⟨t, -, rfl⟩ _
          exact ⟨p, mem_noteFailure c p, List.prefix_append _ _⟩
        · exact fun hsound hzero => absurd (hsound.special_of_quiet hzero) (not_special_of_dir hdir)

end Directories

/-! ## The pass that records -/

/-- What the first pass knows of the entries in `C`. -/
structure Recorded (K : Kernel) (S : Fs) (src : Path) (C : Path → Prop) (c c' : Ctx) : Prop where
  grows : Grows S src c c'
  sound : Sound K S src c → Sound K S src c'
  seen : ∀ q, C q → S.get (src ++ q) ≠ none →
    q ∈ c'.srcRels ∨ (∃ r ∈ c'.skippedRels, r ≠ [] ∧ r <+: q) ∨ c'.rootUnreadable = true

/-- What it knows of the entries `names` of the level `p`, and which of them it goes into. -/
structure RecordedEntries (K : Kernel) (S : Fs) (src p : Path) (names : List Name) (x x' : Ctx × List Name) :
    Prop where
  grows : Grows S src x.1 x'.1
  sound : Sound K S src x.1 → Sound K S src x'.1
  seen : ∀ n ∈ names, p ++ [n] ∈ x'.1.srcRels
  entered : ∀ n ∈ names, S.IsDir (src ++ (p ++ [n])) → p ++ [n] ∈ x'.1.skippedRels ∨ n ∈ x'.2
  subs : ∃ new, x'.2 = x.2 ++ new ∧ ∀ n ∈ new, S.IsDir (src ++ (p ++ [n]))

/-- What a level of the first pass does, for the recursion; it changes nothing. -/
def RecordSpec (K : Kernel) (S : Fs) (src : Path) (level : Path → Path → Ctx → HostSys Ctx) (p : Path) : Prop :=
  ∀ h c, Source S src h → S.IsDir (src ++ p) →
    Proc.Triple (Within (fun _ => False) h) (level p (src ++ p) c)
      (fun c' h' => Within (fun _ => False) h h' ∧ Recorded K S src (Below p) c c') (Within (fun _ => False) h)

section Recording

variable {K : Kernel} {S : Fs} {src p : Path} {n : Name} {names : List Name} {h : Host} {c c' : Ctx}
  {x x₁ x₂ : Ctx × List Name}

/-- What is recorded of one name and of the others is recorded of all. -/
theorem RecordedEntries.cons (hr : RecordedEntries K S src p [n] x x₁)
    (hr' : RecordedEntries K S src p names x₁ x₂) : RecordedEntries K S src p (n :: names) x x₂ := by
  obtain ⟨new, hnew, hdirs⟩ := hr.subs
  obtain ⟨new', hnew', hdirs'⟩ := hr'.subs
  refine ⟨hr.grows.trans hr'.grows, fun hs => hr'.sound (hr.sound hs), fun m hm => ?_, fun m hm hdir => ?_,
    new ++ new', by rw [hnew', hnew, List.append_assoc], fun m hm => (List.mem_append.mp hm).elim (hdirs m) (hdirs' m)⟩
  · rcases List.mem_cons.mp hm with rfl | hm
    · exact hr'.grows.srcRels _ (hr.seen m (List.mem_singleton.mpr rfl))
    · exact hr'.seen m hm
  · rcases List.mem_cons.mp hm with rfl | hm
    · rcases hr.entered m (List.mem_singleton.mpr rfl) hdir with hskip | hin
      · exact .inl (hr'.grows.skipped _ hskip)
      · exact .inr (hnew' ▸ List.mem_append_left _ hin)
    · exact hr'.entered m hm hdir

/-- One entry is recorded, whatever is found out about it. -/
theorem recordEntry_spec {E : Host → Prop} (hv : ValidName n) (hs : Source S src h)
    (hsome : S.get (src ++ (p ++ [n])) ≠ none) :
    Proc.Triple (Within (fun _ => False) h) (recordEntry K p (src ++ p) n x)
      (fun x' h' => Within (fun _ => False) h h' ∧ RecordedEntries K S src p [n] x x') E := by
  have hsaw : Grows S src x.1 (x.1.saw (p ++ [n])) := grows_saw hsome
  have hmem : p ++ [n] ∈ (x.1.saw (p ++ [n])).srcRels := List.mem_cons_self
  -- what is no directory is only recorded
  have hother : ¬ S.IsDir (src ++ (p ++ [n])) → RecordedEntries K S src p [n] x (x.1.saw (p ++ [n]), x.2) := by
    intro hdir
    refine ⟨hsaw, id, fun m hm => ?_, fun m hm hmdir => ?_, [], (List.append_nil _).symm, by simp⟩
    · rw [List.mem_singleton.mp hm]
      exact hmem
    · rw [List.mem_singleton.mp hm] at hmdir
      exact absurd hmdir hdir
  unfold recordEntry
  apply Proc.Triple.bind (Proc.Triple.attempt (lstat_spec hv))
  intro result
  cases result with
  -- an entry that cannot be looked at is noted
  | error e =>
    apply Proc.Triple.pure
    intro h' hw
    have hnoted : p ++ [n] ∈ ((x.1.saw (p ++ [n])).noteFailure (p ++ [n])).skippedRels := mem_noteFailure _ _
    refine ⟨hw, hsaw.trans (grows_noteFailure hsome), fun hsound => ?_, fun m hm => ?_, fun m hm _ => ?_, [],
      (List.append_nil _).symm, by simp⟩
    · have hsaw : Sound K S src (x.1.saw (p ++ [n])) := hsound
      exact hsaw.noteFailure
    · rw [List.mem_singleton.mp hm]
      have hgrows : Grows S src (x.1.saw (p ++ [n])) ((x.1.saw (p ++ [n])).noteFailure (p ++ [n])) :=
        grows_noteFailure hsome
      exact hgrows.srcRels _ hmem
    · rw [List.mem_singleton.mp hm]
      exact .inl hnoted
  -- one that can is recorded, and entered later if it is a directory
  | ok e =>
    apply Proc.Triple.assuming
    intro he
    rw [hs.get_name] at he
    have hnot : e.isDir = false → ¬ S.IsDir (src ++ (p ++ [n])) := by
      rintro hedir ⟨m, hm⟩
      rw [he, Option.some.injEq] at hm
      rw [hm] at hedir
      cases hedir
    cases e with
    | dir m =>
      apply Proc.Triple.pure
      intro h' hw
      refine ⟨hw, hsaw, id, fun k hk => ?_, fun k hk _ => .inr (List.mem_append_right _ hk), [n], rfl, fun k hk => ?_⟩
      · rw [List.mem_singleton.mp hk]
        exact hmem
      · rw [List.mem_singleton.mp hk]
        exact ⟨m, he⟩
    | file i data => exact Proc.Triple.pure fun _ hw => ⟨hw, hother (hnot rfl)⟩
    | symlink target => exact Proc.Triple.pure fun _ hw => ⟨hw, hother (hnot rfl)⟩

/-- Where nothing has changed the source is what it was. -/
theorem source_of_same {h' : Host} (hs : Source S src h) (hw : Within (fun _ => False) h h') : Source S src h' :=
  fun q => (hw.unchanged _).trans (hs q)

/-- The first pass over the names of a level changes nothing and records each of them. -/
theorem recordNames_spec {E : Host → Prop} (hv : ∀ n ∈ names, ValidName n)
    (hsome : ∀ n ∈ names, S.get (src ++ (p ++ [n])) ≠ none) (hs : Source S src h) :
    Proc.Triple (Within (fun _ => False) h) (.thread (recordEntry K p (src ++ p)) names x)
      (fun x' h' => Within (fun _ => False) h h' ∧ RecordedEntries K S src p names x x') E := by
  induction names generalizing h x with
  | nil =>
    exact Proc.Triple.pure fun _ hw =>
      ⟨hw, Grows.refl _, id, by simp, by simp, [], (List.append_nil _).symm, by simp⟩
  | cons n names ih =>
    show Proc.Triple _ (recordEntry K p (src ++ p) n x >>= fun x₁ =>
      Proc.thread (recordEntry K p (src ++ p)) names x₁) _ _
    apply Proc.Triple.bind (recordEntry_spec (hv n List.mem_cons_self) hs (hsome n List.mem_cons_self))
    rintro x₁ h₁ ⟨hw, hr⟩
    have hrest := ih (x := x₁) (fun m hm => hv m (List.mem_cons_of_mem n hm))
      (fun m hm => hsome m (List.mem_cons_of_mem n hm)) (source_of_same hs hw)
    exact (hrest.conseq (fun _ hw' => hw') (fun x₂ h₂ hh => ⟨hw.trans hh.1, hr.cons hh.2⟩) fun _ he => he) h₁
      (Within.refl _ _)

/-- A subdirectory, entered or noted. -/
theorem recordSub_spec {level : Path → Path → Ctx → HostSys Ctx} (hlevel : RecordSpec K S src level (p ++ [n]))
    (hv : ValidName n) (hs : Source S src h) (hdir : S.IsDir (src ++ (p ++ [n]))) :
    Proc.Triple (Within (fun _ => False) h) (recordSub K level p (src ++ p) n c)
      (fun c' h' => Within (fun _ => False) h h' ∧ Recorded K S src (Below (p ++ [n])) c c')
      (Within (fun _ => False) h) := by
  unfold recordSub
  apply Proc.Triple.bind (Proc.Triple.attempt (openDir_spec hv))
  intro opened
  cases opened with
  | error e =>
    apply Proc.Triple.pure
    intro h' hw
    refine ⟨hw, grows_noteFailure (some_of_isDir hdir), Sound.noteFailure, ?_⟩
    rintro q ⟨t, -, rfl⟩ _
    exact .inr (.inl ⟨_, mem_noteFailure _ _, by simp, List.prefix_append _ _⟩)
  | ok sub =>
    apply Proc.Triple.assuming
    rintro rfl
    have hrun := hlevel h c hs hdir
    rw [← List.append_assoc] at hrun
    apply Proc.Triple.bind hrun
    intro c'
    unfold popLevel
    apply Proc.Triple.bind (Q := fun _ h' => Within (fun _ => False) h h' ∧ Recorded K S src (Below (p ++ [n])) c c')
    · exact Triple.query (fun _ _ hh _ => ⟨hh.1.tick, hh.2⟩) fun _ hh => hh.1.tick
    · intro _
      exact Proc.Triple.pure fun _ hh => hh

/-- It goes on below the directories among them, and records what is there. -/
theorem recordSubs_spec {level : Path → Path → Ctx → HostSys Ctx}
    (hlevel : ∀ n ∈ names, RecordSpec K S src level (p ++ [n])) (hv : ∀ n ∈ names, ValidName n)
    (hs : Source S src h) (hdirs : ∀ n ∈ names, S.IsDir (src ++ (p ++ [n]))) :
    Proc.Triple (Within (fun _ => False) h) (.thread (recordSub K level p (src ++ p)) names c)
      (fun c' h' => Within (fun _ => False) h h' ∧
        Recorded K S src (fun q => ∃ n ∈ names, Below (p ++ [n]) q) c c')
      (Within (fun _ => False) h) := by
  induction names generalizing h c with
  | nil =>
    apply Proc.Triple.pure
    intro h' hw
    refine ⟨hw, Grows.refl c, id, ?_⟩
    rintro q ⟨k, hk, -⟩
    cases hk
  | cons n names ih =>
    show Proc.Triple _ (recordSub K level p (src ++ p) n c >>= fun c₁ =>
      Proc.thread (recordSub K level p (src ++ p)) names c₁) _ _
    apply Proc.Triple.bind (recordSub_spec (hlevel n List.mem_cons_self) (hv n List.mem_cons_self) hs
      (hdirs n List.mem_cons_self))
    rintro c₁ h₁ ⟨hw, hr⟩
    have hrest := ih (c := c₁) (fun k hk => hlevel k (List.mem_cons_of_mem n hk))
      (fun k hk => hv k (List.mem_cons_of_mem n hk)) (source_of_same hs hw) fun k hk => hdirs k (List.mem_cons_of_mem n hk)
    refine (hrest.conseq (fun _ hw' => hw') ?_ fun _ hw' => hw.trans hw') h₁ (Within.refl _ _)
    rintro c₂ h₂ ⟨hw', hr'⟩
    refine ⟨hw.trans hw', hr.grows.trans hr'.grows, fun hsound => hr'.sound (hr.sound hsound), ?_⟩
    rintro q ⟨k, hk, hbelow⟩ hsome
    rcases List.mem_cons.mp hk with rfl | hk
    · rcases hr.seen q hbelow hsome with hseen | ⟨r, hr₁, hpre⟩ | hroot
      · exact .inl (hr'.grows.srcRels q hseen)
      · exact .inr (.inl ⟨r, hr'.grows.skipped r hr₁, hpre⟩)
      · exact .inr (.inr (hr'.grows.root hroot))
    · exact hr'.seen q ⟨k, hk, hbelow⟩ hsome

/-- **What the first pass records**: every entry of the source, but for what is in a directory that is noted. -/
theorem collectRels_spec (depth : Nat) (hdepth : ∀ q, S.get q ≠ none → q.length ≤ depth) (k : Nat)
    (hk : depth < (src ++ p).length + k) : RecordSpec K S src (collectRels K k) p := by
  -- by induction on the levels left
  induction k generalizing p with
  | zero =>
    rintro h c hs ⟨m, hm⟩
    have := hdepth (src ++ p) (by rw [hm]; simp)
    omega
  | succ k ih =>
    rintro h c hs hdir
    unfold collectRels recordLevel
    have hlist : Proc.Triple (Within (fun _ => False) h)
        (query K.reads fun fs => .ok (fs.listdir (src ++ p)))
        (fun names h' => Within (fun _ => False) h h' ∧ ∀ k, k ∈ names ↔ S.get (src ++ (p ++ [k])) ≠ none)
        (Within (fun _ => False) h) := by
      apply Triple.query
      · intro h' names hw hnames
        rw [Except.ok.injEq] at hnames
        subst hnames
        refine ⟨hw.tick, fun k => ?_⟩
        rw [Fs.mem_listdir, Option.isSome_iff_ne_none, hw.unchanged, List.append_assoc, hs]
      · intro h' hw
        exact hw.tick
    apply Proc.Triple.bind (Q := fun x h₁ => Within (fun _ => False) h h₁ ∧ ((∃ names,
      (∀ k, k ∈ names ↔ S.get (src ++ (p ++ [k])) ≠ none) ∧ RecordedEntries K S src p names (c, []) x) ∨
        x.2 = [] ∧ Recorded K S src (Below p) c x.1))
    · apply Proc.Triple.bind (Proc.Triple.attempt hlist)
      intro result
      -- the listing is refused: of the root that is lost, of another directory noted
      cases result with
      | error e =>
        apply Proc.Triple.pure
        intro h' hw
        refine ⟨hw, .inr ⟨rfl, ?_⟩⟩
        dsimp only
        split
        · exact ⟨grows_lostRoot, fun _ => Sound.lostRoot, fun _ _ _ => .inr (.inr rfl)⟩
        · rename_i hne
          refine ⟨grows_noteFailure (some_of_isDir hdir), Sound.noteFailure, ?_⟩
          rintro q ⟨t, -, rfl⟩ _
          exact .inr (.inl ⟨p, mem_noteFailure c p, hne, List.prefix_append _ _⟩)
      | ok names =>
        apply Proc.Triple.assuming
        intro hnames
        have hv : ∀ n ∈ names, ValidName n := by
          intro n hn
          obtain ⟨e, he⟩ := Option.ne_none_iff_exists'.mp ((hnames n).mp hn)
          rw [← List.append_assoc] at he
          exact Fs.validName_of_get he
        apply (recordNames_spec hv (fun n hn => (hnames n).mp hn) hs).conseq (fun _ hw => hw) ?_ fun _ he => he
        exact fun x h₁ hh => ⟨hh.1, .inl ⟨names, hnames, hh.2⟩⟩
    · rintro x h₁ ⟨hw, ⟨names, hnames, hr⟩ | ⟨hnil, hr⟩⟩
      · obtain ⟨new, hnew, hdirs⟩ := hr.subs
        rw [List.nil_append] at hnew
        rw [← hnew] at hdirs
        have hlevels : ∀ n ∈ x.2, RecordSpec K S src (collectRels K k) (p ++ [n]) := by
          intro n _
          apply ih
          rw [← List.append_assoc, List.length_append, List.length_singleton]
          omega
        have hv : ∀ n ∈ x.2, ValidName n := by
          intro n hn
          obtain ⟨m, hm⟩ := hdirs n hn
          rw [← List.append_assoc] at hm
          exact Fs.validName_of_get hm
        have hsubs := recordSubs_spec (c := x.1) hlevels hv (source_of_same hs hw) hdirs
        refine (hsubs.conseq (fun _ hw' => hw') ?_ fun _ hw' => hw.trans hw') h₁ (Within.refl _ _)
        rintro c₂ h₂ ⟨hw', hr'⟩
        refine ⟨hw.trans hw', hr.grows.trans hr'.grows, fun hsound => hr'.sound (hr.sound hsound), ?_⟩
        rintro q ⟨t, ht, rfl⟩ hsome
        obtain ⟨n, t, rfl⟩ := List.exists_cons_of_ne_nil ht
        rw [show p ++ n :: t = p ++ [n] ++ t by simp] at hsome ⊢
        -- an entry of the level itself was seen
        by_cases hnil : t = []
        · subst hnil
          rw [List.append_nil] at hsome ⊢
          exact .inl (hr'.grows.srcRels _ (hr.seen n ((hnames n).mpr hsome)))
        -- one below was seen on its level, or its directory was skipped
        · have hndir : S.IsDir (src ++ (p ++ [n])) := isDir_above hnil (by rw [List.append_assoc]; exact hsome)
          have hn : n ∈ names := by
            obtain ⟨m, hm⟩ := hndir
            rw [hnames, hm]
            simp
          rcases hr.entered n hn hndir with hskip | hin
          · exact .inr (.inl ⟨_, hr'.grows.skipped _ hskip, by simp, List.prefix_append _ _⟩)
          · exact hr'.seen _ ⟨n, hin, t, hnil, rfl⟩ hsome
      · rw [hnil]
        exact ⟨hw, hr⟩

end Recording

/-! ## Both passes -/

/-- What the first two passes have done, and what they know. -/
structure Passed (K : Kernel) (S : Fs) (src dst : Path) (h : Host) (c : Ctx) (h' : Host) : Prop where
  bounded : Bounded S src dst [] (Below []) (fun _ => False) h h'
  mirrors : c.failures = 0 → ∀ q, q ≠ [] → ¬ Spoiled K S src q → Mirrors K S src dst h h' q
  sound : Sound K S src c
  seen : ∀ q ∈ c.srcRels, S.get (src ++ q) ≠ none
  noted : ∀ q ∈ c.skippedRels, S.get (src ++ q) ≠ none
  recorded : ∀ q, q ≠ [] → S.get (src ++ q) ≠ none →
    q ∈ c.srcRels ∨ (∃ r ∈ c.skippedRels, r ≠ [] ∧ r <+: q) ∨ c.rootUnreadable = true
  special : ∀ q, q ≠ [] → Special K.toKernel S (src ++ q) → ∃ r ∈ c.skippedRels, r <+: q

/-- Below the root is everything but the root. -/
theorem below_nil {q : Path} : Below [] q ↔ q ≠ [] :=
  ⟨fun ⟨_, hr, hq⟩ => hq ▸ hr, fun hq => ⟨q, hq, rfl⟩⟩

/-- **The first two passes.** -/
theorem mirror_spec {K : Kernel} {src dst : Path} {h : Host} (ha : Aside h.fs src dst) (hsrc : h.fs.IsDir src)
    (hdst : h.fs.IsDir dst) :
    Proc.Triple (fun s => s = h) (mirror K src dst) (fun c h' => Passed K h.fs src dst h c h')
      (Bounded h.fs src dst [] (Below []) (fun _ => False) h) := by
  rintro s rfl
  have hdepth : ∀ q, s.fs.get q ≠ none → q.length ≤ Dirfd.depth s.fs := by
    intro q hq
    obtain ⟨e, he⟩ := Option.ne_none_iff_exists'.mp hq
    exact Dirfd.length_le_depth he
  have hfirst : RecordSpec K s.fs src (collectRels K (Dirfd.depth s.fs + 1)) [] :=
    collectRels_spec (Dirfd.depth s.fs) hdepth _ (by omega)
  have hsecond : LevelSpec K s.fs src dst (mirrorAt K (Dirfd.depth s.fs + 1)) [] :=
    mirrorAt_spec ha (Dirfd.depth s.fs) hdepth _ (by omega)
  -- the first pass changes nothing, so the second starts from the same tree
  have hrun := hfirst s .start (fun _ => rfl) (by rw [List.append_nil]; exact hsrc)
  rw [List.append_nil] at hrun
  apply Proc.Triple.bind (hrun.conseq (fun _ hw => hw) (fun _ _ hh => hh) fun _ hw => Bounded.refl hw) ?_ s
    (Within.refl _ _)
  rintro c₁ h₁ ⟨hw, hr⟩
  have hdst₁ : h₁.fs.IsDir (dst ++ []) := by
    obtain ⟨m, hm⟩ := hdst
    exact ⟨m, by rw [List.append_nil, hw.unchanged, hm]⟩
  have hrun' := hsecond h₁ c₁ (fun q => hw.unchanged _) (by rw [List.append_nil]; exact hsrc) hdst₁
  rw [List.append_nil, List.append_nil] at hrun'
  have hstill : Bounded s.fs src dst [] (fun _ => False) (fun _ => False) s h₁ := Bounded.refl hw
  refine (hrun'.conseq (fun _ hw' => hw') (fun c h' hm => ?_) fun h' hb => ?_) h₁ (Within.refl _ _)
  · have hstart : Sound K s.fs src .start := fun _ q hq => by cases hq
    refine ⟨hstill.trans hm.bounded (fun _ hq => hq.elim False.elim id) fun _ hq => hq.elim id id,
      fun hzero q hq hspoiled => ?_, hm.sound (hr.sound hstart), fun q hq => ?_, fun q hq => ?_,
      fun q hq hsome => ?_,
      fun q hq hspecial => hm.special q (below_nil.mpr hq) hspecial⟩
    · have hmirrors := hm.mirrors (hr.sound hstart) hzero q (below_nil.mpr hq) hspoiled
      exact ⟨fun e he hspecial => by rw [← hw.unchanged (dst ++ q)]; exact hmirrors.copied e he hspecial,
        fun hnot hlink => by rw [← hw.unchanged (dst ++ q)]; exact hmirrors.left hnot hlink⟩
    · rcases (hr.grows.trans hm.grows).seen q hq with hnil | hsome
      · cases hnil
      · exact hsome
    · rcases (hr.grows.trans hm.grows).noted q hq with hnil | hsome
      · cases hnil
      · exact hsome
    · rcases hr.seen q (below_nil.mpr hq) hsome with hseen | ⟨r, hskip, hpre⟩ | hroot
      · exact .inl (hm.grows.srcRels q hseen)
      · exact .inr (.inl ⟨r, hm.grows.skipped r hskip, hpre⟩)
      · exact .inr (.inr (hm.grows.root hroot))
  · exact hstill.trans hb (fun _ hq => hq.elim False.elim id) fun _ hq => hq.elim id id

end ProotDistro.Sync
