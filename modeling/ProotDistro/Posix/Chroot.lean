import ProotDistro.Lib.Text
import ProotDistro.Posix.Namei

/-!
# Paths as a chroot sees them

The rule a guest path is resolved by: the root stands in for `/`, so an absolute link
target restarts there, `..` stops there, and every link met on the way is followed. A
component that does not exist is taken literally, since nothing missing can be a link.

`chroot` is that rule read directly off the tree. A program that implements it walks with
system calls instead; `Resolved` is the invariant that makes the two agree, and
`lstat_of_resolved` the agreement on one component.

* **`chroot_resolved`** — the answer has ordinary names only and leads through no link.
* **`chroot_of_noLink`** — a path without links is its own answer.
-/

namespace Posix

namespace Fs

/-- What becomes of the components resolved so far when one more is looked at. -/
def chrootStep (fs : Fs) (root resolved : Path) (comp : Name) : Walk.Step Path Name Unit :=
  if comp = [] ∨ comp = ['.'] then .next resolved
  else if comp = ['.', '.'] then .next resolved.dropLast
  else
    match fs.get (root ++ (resolved ++ [comp])) with
    | some (.symlink target) =>
      .link (if target.head? = some '/' then [] else resolved) (splitPath target)
    | _ => .next (resolved ++ [comp])

/-- Where `parts` leads below `root`; `none` when it takes more than 40 links. -/
def chroot (fs : Fs) (root : Path) (parts : List Name) : Option Path :=
  (Walk.run (fs.chrootStep root) () 40 [] parts).toOption

/-- Components a chroot walk can have resolved: ordinary names, none of them a link. -/
structure Resolved (fs : Fs) (root p : Path) : Prop where
  valid : ∀ c ∈ p, ValidName c
  noLink : fs.NoLinkOn root p

/-- A component as it comes out of a path string. -/
def NoSlash (c : Name) : Prop := '/' ∉ c

instance (c : Name) : Decidable (NoSlash c) := inferInstanceAs (Decidable (¬ _))

/-- No part of a path has a slash. -/
theorem noSlash_of_mem_splitPath {path : List Char} {c : Name} (h : c ∈ splitPath path) :
    NoSlash c :=
  Text.notMem_of_mem_splitOn h

/-- A component that is neither empty nor a dot name is one an entry can carry. -/
theorem validName_of_noSlash {c : Name} (h : NoSlash c) (h₁ : ¬ (c = [] ∨ c = ['.']))
    (h₂ : c ≠ ['.', '.']) : ValidName c :=
  ⟨fun h => h₁ (.inl h), fun h => h₁ (.inr h), h₂, h⟩

/-! ## What a walk has resolved -/

section Resolved

variable {fs : Fs} {root p p' : Path} {c : Name} {comps : List Name}

/-- The root is resolved. -/
theorem Resolved.nil (fs : Fs) (root : Path) : fs.Resolved root [] :=
  ⟨by simp, NoLinkOn.nil fs root⟩

theorem Resolved.dropLast (h : fs.Resolved root p) : fs.Resolved root p.dropLast :=
  ⟨fun c hc => h.valid c (List.mem_of_mem_dropLast hc),
    h.noLink.mono (List.dropLast_prefix p)⟩

theorem Resolved.snoc (h : fs.Resolved root p) (hc : ValidName c)
    (hlink : ∀ t, fs.get (root ++ (p ++ [c])) ≠ some (.symlink t)) :
    fs.Resolved root (p ++ [c]) := by
  refine ⟨fun x hx => ?_, h.noLink.append_singleton hlink⟩
  rcases List.mem_append.mp hx with hx | hx
  · exact h.valid x hx
  · rw [List.mem_singleton.mp hx]
    exact hc

/-- What leads to a directory consists of directories. -/
theorem resolved_of_isDir (h : fs.IsDir root) : fs.Resolved [] root := by
  have hpre : ∀ r, r <+: root → fs.IsDir r := by
    rintro r ⟨t, rfl⟩
    exact h.of_append
  constructor
  · intro c hc
    obtain ⟨pre, post, hroot⟩ := List.append_of_mem hc
    obtain ⟨m, hm⟩ := hpre (pre ++ [c]) ⟨post, by simp [hroot]⟩
    exact validName_of_get hm
  · intro r t hr _ ht
    obtain ⟨m, hm⟩ := hpre r hr
    rw [List.nil_append, hm] at ht
    cases ht

/-- The same path looked at from a directory further up. -/
theorem Resolved.append {base under : Path} (h₁ : fs.Resolved base under)
    (h₂ : fs.Resolved (base ++ under) p) : fs.Resolved base (under ++ p) := by
  constructor
  · intro c hc
    rcases List.mem_append.mp hc with hc | hc
    · exact h₁.valid c hc
    · exact h₂.valid c hc
  · intro r t hr hne ht
    rcases List.prefix_or_prefix_of_prefix hr (List.prefix_append under p) with hr | ⟨r', rfl⟩
    · exact h₁.noLink r t hr hne ht
    · have hr' : r' <+: p := (List.prefix_append_right_inj under).mp hr
      by_cases hr0 : r' = []
      · rw [hr0, List.append_nil] at hne ht
        exact h₁.noLink under t (List.prefix_refl _) hne ht
      · exact h₂.noLink r' t hr' hr0 (by rw [← ht, List.append_assoc])

/-- Looking a component up below what is resolved finds the entry at that very path. -/
theorem lstat_of_resolved (hroot : fs.IsDir root) (h : fs.Resolved root p) (hc : ValidName c) :
    (fs.lstatPath root (p ++ [c])).toOption = fs.get (root ++ (p ++ [c])) :=
  lstatPath_eq_get h.valid hc h.noLink hroot

/-- A step that goes on stays resolved. -/
theorem chrootStep_next (h : fs.Resolved root p) (hc : NoSlash c)
    (hstep : fs.chrootStep root p c = .next p') : fs.Resolved root p' := by
  unfold chrootStep at hstep
  split at hstep
  · cases hstep
    exact h
  · split at hstep
    · cases hstep
      exact h.dropLast
    · rename_i h₁ h₂
      split at hstep
      · cases hstep
      · rename_i hlink
        cases hstep
        exact h.snoc (validName_of_noSlash hc h₁ h₂) fun t ht => hlink t ht

/-- A step that meets a link gives parts without slashes. -/
theorem chrootStep_link_noSlash (hstep : fs.chrootStep root p c = .link p' comps) :
    ∀ c' ∈ comps, NoSlash c' := by
  unfold chrootStep at hstep
  split at hstep
  · cases hstep
  · split at hstep
    · cases hstep
    · split at hstep
      · cases hstep
        exact fun c' hc' => noSlash_of_mem_splitPath hc'
      · cases hstep

/-- It starts them from something resolved. -/
theorem chrootStep_link (h : fs.Resolved root p)
    (hstep : fs.chrootStep root p c = .link p' comps) :
    fs.Resolved root p' ∧ ∀ c' ∈ comps, NoSlash c' := by
  refine ⟨?_, chrootStep_link_noSlash hstep⟩
  unfold chrootStep at hstep
  split at hstep
  · cases hstep
  · split at hstep
    · cases hstep
    · split at hstep
      · cases hstep
        split
        · exact Resolved.nil fs root
        · exact h
      · cases hstep

/-- The answer of a chroot walk consists of ordinary names and leads through no link. -/
theorem chroot_resolved {parts : List Name} (hparts : ∀ c ∈ parts, NoSlash c)
    (h : fs.chroot root parts = some p) : fs.Resolved root p := by
  unfold chroot at h
  cases hrun : Walk.run (fs.chrootStep root) () 40 [] parts with
  | error e => rw [hrun] at h; cases h
  | ok t =>
    rw [hrun] at h
    cases h
    exact Walk.run_invariant (fs.Resolved root) NoSlash
      (fun _ _ _ hs hc hstep => chrootStep_next hs hc hstep)
      (fun _ _ _ _ hs _ hstep => chrootStep_link hs hstep)
      40 [] parts _ (Resolved.nil fs root) hparts hrun

/-- A step over what is no link goes into it. -/
theorem chrootStep_literal (h₁ : ¬ (c = [] ∨ c = ['.'])) (h₂ : c ≠ ['.', '.'])
    (hlink : ∀ t, fs.get (root ++ (p ++ [c])) ≠ some (.symlink t)) :
    fs.chrootStep root p c = .next (p ++ [c]) := by
  unfold chrootStep
  rw [if_neg h₁, if_neg h₂]
  split
  · rename_i t ht
    exact absurd ht (hlink t)
  · rfl

/-- A step over a link starts from the root or from the link's directory. -/
theorem chrootStep_of_link {t : List Char} (h₁ : ¬ (c = [] ∨ c = ['.'])) (h₂ : c ≠ ['.', '.'])
    (ht : fs.get (root ++ (p ++ [c])) = some (.symlink t)) :
    fs.chrootStep root p c =
      .link (if t.head? = some '/' then [] else p) (splitPath t) := by
  unfold chrootStep
  rw [if_neg h₁, if_neg h₂, ht]

/-- Ordinary components down which no link stands are taken as they are. -/
theorem run_chrootStep_of_noLink {n : Nat} {parts : List Name} (hv : ∀ c ∈ parts, ValidName c)
    (hlink : fs.NoLinkOn root (p ++ parts)) :
    Walk.run (fs.chrootStep root) () n p parts = .ok (p ++ parts) := by
  induction parts generalizing p with
  | nil => simp
  | cons c parts ih =>
    have hstep : fs.chrootStep root p c = .next (p ++ [c]) := by
      have hc := hv c (by simp)
      refine chrootStep_literal (by simp [hc.nonempty, hc.not_dot]) hc.not_dotdot fun t =>
        hlink (p ++ [c]) t ⟨parts, by simp⟩ (by simp)
    rw [Walk.run_cons_next hstep, ih (fun x hx => hv x (by simp [hx])) (by simpa using hlink)]
    simp

/-- Without links on its way, a path resolves to itself. -/
theorem chroot_of_noLink {parts : List Name} (hv : ∀ c ∈ parts, ValidName c)
    (hlink : fs.NoLinkOn root parts) : fs.chroot root parts = some parts := by
  unfold chroot
  rw [run_chrootStep_of_noLink hv (by simpa using hlink)]
  rfl

/-- A directory is where its own path leads. -/
theorem chroot_of_isDir {parts : List Name} (hv : ∀ c ∈ parts, ValidName c)
    (h : fs.IsDir (root ++ parts)) : fs.chroot root parts = some parts := by
  refine chroot_of_noLink hv fun r t hr _ ht => ?_
  obtain ⟨s, rfl⟩ := hr
  rw [← List.append_assoc] at h
  obtain ⟨m, hm⟩ := h.of_append
  rw [hm] at ht
  cases ht

/-- A chroot walk only looks at links below its root. -/
theorem chroot_congr {fs' : Fs} {root' : Path}
    (h : ∀ q t, fs'.get (root' ++ q) = some (.symlink t) ↔ fs.get (root ++ q) = some (.symlink t))
    (parts : List Name) : fs'.chroot root' parts = fs.chroot root parts := by
  have hstep : fs'.chrootStep root' = fs.chrootStep root := by
    funext q x
    by_cases h₁ : x = [] ∨ x = ['.']
    · unfold chrootStep
      rw [if_pos h₁, if_pos h₁]
    · by_cases h₂ : x = ['.', '.']
      · unfold chrootStep
        rw [if_neg h₁, if_neg h₁, if_pos h₂, if_pos h₂]
      · by_cases hlink : ∃ t, fs.get (root ++ (q ++ [x])) = some (.symlink t)
        · obtain ⟨t, ht⟩ := hlink
          rw [chrootStep_of_link h₁ h₂ ht, chrootStep_of_link h₁ h₂ ((h _ t).mpr ht)]
        · rw [not_exists] at hlink
          rw [chrootStep_literal h₁ h₂ hlink,
            chrootStep_literal h₁ h₂ fun t ht => hlink t ((h _ t).mp ht)]
  unfold chroot
  rw [hstep]

end Resolved

end Fs

end Posix
