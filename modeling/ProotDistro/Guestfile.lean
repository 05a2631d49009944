import ProotDistro.L2s
import ProotDistro.TarExtract

/-!
# `guestfile`: files as the guest would open them

`resolve` walks to the entry a guest path names, a directory descriptor at a time. It
follows the last component too, refuses what is missing or may not be looked at, and stops at a
file: what comes back is the entry a caller would read (`resolve_spec`).
-/

namespace ProotDistro

open Posix TarExtract

namespace Guestfile

def maxSymlinkHops : Nat := 40

def maxPathComponents : Nat := 4096

/-- `os.path.normpath` on the components of an absolute path. -/
def normpath (parts : List Name) : Path :=
  parts.foldl (fun p c =>
    if c = [] ∨ c = ['.'] then p else if c = ['.', '.'] then p.dropLast else p ++ [c]) []

/-- The components below the rootfs of the file an l2s link really names. -/
def l2sParts (R : Refusals) (fs : Fs) (rootfsDir trail : Path) (target : List Char) : Option Path :=
  let rootfsReal := fs.realpathIn R rootfsDir
  match L2s.resolveL2sTarget R fs (rootfsReal ++ trail) target rootfsReal with
  | none => none
  | some resolved =>
    if rootfsReal <+: normpath resolved then some ((normpath resolved).drop rootfsReal.length)
    else none

/-- Where the walk is: the components consumed, the levels below the rootfs, and the file
it has met, after which only dots may follow. -/
structure State where
  steps : Nat
  trail : Path
  found : Option (Name × Entry)

/-- One component off the descriptor on the current level. -/
def look (R : Refusals) (fs : Fs) (root : Path) (s : State) (part : Name) :
    Walk.Step State Name Unit :=
  if part = [] ∨ part = ['.'] then .next s
  else if part = ['.', '.'] then
    if s.trail = [] then .next s
    else
      match fs.openDirIn R (root ++ s.trail) part with
      | .error _ => .fail ()
      | .ok up =>
        if up = root ++ s.trail.dropLast then .next { s with trail := s.trail.dropLast }
        else .fail ()
  else
    match fs.lstatIn R (root ++ s.trail) part with
    | .error _ => .fail ()
    | .ok (.symlink target) =>
      match Fs.readlinkIn R (root ++ s.trail) part target with
      | none => .fail ()
      | some target =>
        match l2sParts R fs root s.trail target with
        | some backing => .link { s with trail := [] } backing
        | none =>
          .link { s with trail := if target.head? = some '/' then [] else s.trail }
            (splitPath target)
    | .ok (.dir _) =>
      match fs.openDirIn R (root ++ s.trail) part with
      | .error _ => .fail ()
      | .ok _ => .next { s with trail := s.trail ++ [part] }
    | .ok entry => .next { s with found := some (part, entry) }

/-- One turn of the loop of `_resolve`. -/
def resolveStep (R : Refusals) (fs : Fs) (root : Path) (s : State) (part : Name) :
    Walk.Step State Name Unit :=
  match s.found with
  | some _ => if part = [] ∨ part = ['.'] then .next s else .fail ()
  | none =>
    if s.steps + 1 > maxPathComponents then .fail ()
    else look R fs root { s with steps := s.steps + 1 } part

/-- The entry `guestPath` names: the directory holding it, its name and what it is. -/
def resolve (R : Refusals) (fs : Fs) (root : Path) (guestPath : List Char) :
    Option (Path × Name × Entry) :=
  match Walk.run (resolveStep R fs root) () maxSymlinkHops ⟨0, [], none⟩ (splitPath guestPath) with
  | .error _ => none
  | .ok s => s.found.map fun x => (root ++ s.trail, x.1, x.2)

/-! ## What the walk reaches -/

section Resolve

variable {G R : Refusals} {fs : Fs} {root : Path}

/-- The extractor's walk that has resolved `p` is where this walk is. -/
def At (fs : Fs) (root p : Path) (s : State) : Prop :=
  match s.found with
  | none => p = s.trail ∧ fs.IsDir (root ++ p)
  | some (name, entry) => p = s.trail ++ [name] ∧ fs.get (root ++ p) = some entry ∧
      entry.isDir = false ∧ entry.isLink = false

/-- No link below the rootfs stands for a hard link. -/
def NoL2s (fs : Fs) (root : Path) : Prop :=
  ∀ p t, fs.get (root ++ p) = some (.symlink t) → L2s.isL2sTarget t = false

/-- A target that is not one of the extension's has no parts. -/
theorem l2sParts_eq_none {trail : Path} {t : List Char} (h : L2s.isL2sTarget t = false) :
    l2sParts R fs root trail t = none := by
  unfold l2sParts
  simp only [L2s.resolveL2sTarget_of_not_l2s h]

/-- What a component that is there does for the extractor, if it may be looked up. -/
theorem safeResolveStepIn_of_get {p : Path} {c : Name} {e : Entry}
    (halike : ∀ q, R .readlink q = R .lstat q) (h₁ : ¬ (c = [] ∨ c = ['.'])) (h₂ : c ≠ ['.', '.'])
    (hget : fs.get (root ++ (p ++ [c])) = some e) (hlook : R .lstat (root ++ (p ++ [c])) = false) :
    safeResolveStepIn R fs [] root p c = match e with
      | .symlink t => .link (if t.head? = some '/' then [] else p) (splitPath t)
      | .dir _ | .file _ _ => .next (p ++ [c]) := by
  have hlstat : fs.lstatPath [] (root ++ (p ++ [c])) = .ok e := by
    rw [← List.append_assoc] at hget ⊢
    exact Fs.lstatPath_of_get hget
  unfold safeResolveStepIn Fs.lstatPathIn Fs.readlinkPathIn
  rw [if_neg h₁, if_neg h₂, List.nil_append, halike, hlook, if_neg (by simp), hlstat]
  cases e with
  | dir m => rfl
  | file i data => rfl
  | symlink t =>
    rw [if_neg (by simp), Fs.readlinkPath_eq_ok.mpr hlstat]

/-- What one component does, for a walk that stands on a directory. -/
theorem look_cases {s : State} {c : Name} (halike : ∀ q, R .readlink q = R .lstat q)
    (hwider : ∀ q, R .lstat q = true → G .lstat q = true) (hl2s : NoL2s fs root)
    (hroot : fs.IsDir root) (hdir : fs.IsDir (root ++ s.trail)) (hfound : s.found = none)
    (hc : Fs.NoSlash c) :
    look G fs root s c = .fail () ∨
      (∃ s', look G fs root s c = .next s' ∧ ∃ p',
        safeResolveStepIn R fs [] root s.trail c = .next p' ∧ At fs root p' s') ∨
      ∃ s' comps, look G fs root s c = .link s' comps ∧
        safeResolveStepIn R fs [] root s.trail c = .link s'.trail comps ∧
        At fs root s'.trail s' := by
  -- an empty component and a dot stay
  by_cases h₁ : c = [] ∨ c = ['.']
  · right; left
    refine ⟨s, by unfold look; rw [if_pos h₁], s.trail,
      by unfold safeResolveStepIn; rw [if_pos h₁], ?_⟩
    unfold At
    rw [hfound]
    exact ⟨rfl, hdir⟩
  -- two dots: one level up, at the root nowhere
  · by_cases h₂ : c = ['.', '.']
    · have hstep : safeResolveStepIn R fs [] root s.trail c = .next s.trail.dropLast := by
        unfold safeResolveStepIn
        rw [if_neg h₁, if_pos h₂]
      have hup : fs.IsDir (root ++ s.trail.dropLast) := by
        by_cases ht : s.trail = []
        · rw [ht]
          simpa using hroot
        · obtain ⟨m, hm⟩ := hdir
          rw [← List.dropLast_concat_getLast ht, ← List.append_assoc] at hm
          exact Fs.isDir_parent hm
      by_cases ht : s.trail = []
      · right; left
        refine ⟨s, by unfold look; rw [if_neg h₁, if_pos h₂, if_pos ht], _, hstep, ?_⟩
        unfold At
        rw [hfound]
        exact ⟨by rw [ht]; rfl, hup⟩
      · -- the level above is opened, or the walk gives up
        have hopen : fs.openDirAt (root ++ s.trail) c = .ok (root ++ s.trail.dropLast) := by
          obtain ⟨m, hm⟩ := hup
          unfold Fs.openDirAt Fs.locate
          rw [h₂, if_neg (by decide), if_pos rfl, List.dropLast_append_of_ne_nil ht, hm]
        unfold look Fs.openDirIn
        rw [if_neg h₁, if_pos h₂, if_neg ht]
        cases G .opendir (Fs.locate (root ++ s.trail) c) with
        | true => exact .inl rfl
        | false =>
          right; left
          refine ⟨{ s with trail := s.trail.dropLast }, ?_, _, hstep, ?_⟩
          · rw [if_neg (by simp), hopen]
            simp
          · unfold At
            rw [hfound]
            exact ⟨rfl, hup⟩
    -- a name: the guest looks at the same entry as the resolver
    · have hv : ValidName c := Fs.validName_of_noSlash hc h₁ h₂
      have hloc : Fs.locate (root ++ s.trail) c = root ++ (s.trail ++ [c]) := by
        rw [Fs.locate_valid hv, List.append_assoc]
      unfold look
      rw [if_neg h₁, if_neg h₂]
      unfold Fs.lstatIn Fs.openDirIn Fs.readlinkIn Fs.lstatAt Fs.openDirAt
      rw [hloc]
      cases hlook : G .lstat (root ++ (s.trail ++ [c])) with
      | true => exact .inl rfl
      | false =>
        rw [if_neg (by simp)]
        -- what the resolver may not look at, the guest may not either
        have hseen : R .lstat (root ++ (s.trail ++ [c])) = false := by
          cases hR : R .lstat (root ++ (s.trail ++ [c])) with
          | false => rfl
          | true => rw [hwider _ hR] at hlook; cases hlook
        cases hg : fs.get (root ++ (s.trail ++ [c])) with
        | none => exact .inl rfl
        | some e =>
          have hstep := safeResolveStepIn_of_get halike h₁ h₂ hg hseen
          cases e with
          -- a link: the guest follows what the resolver splices in
          | symlink t =>
            simp only
            cases G .readlink (root ++ s.trail ++ [c]) with
            | true => exact .inl rfl
            | false =>
              rw [if_neg (by simp)]
              right; right
              simp only
              rw [l2sParts_eq_none (hl2s _ t hg)]
              refine ⟨_, _, rfl, hstep, ?_⟩
              unfold At
              rw [hfound]
              refine ⟨rfl, ?_⟩
              simp only
              split
              · simpa using hroot
              · exact hdir
          -- a directory is opened
          | dir m =>
            simp only
            cases G .opendir (root ++ (s.trail ++ [c])) with
            | true => exact .inl rfl
            | false =>
              right; left
              refine ⟨_, rfl, s.trail ++ [c], hstep, ?_⟩
              unfold At
              rw [hfound]
              exact ⟨rfl, m, hg⟩
          -- a file ends the walk
          | file i data =>
            right; left
            refine ⟨_, rfl, s.trail ++ [c], hstep, ?_⟩
            unfold At
            exact ⟨rfl, hg, rfl, rfl⟩

/-- Each turn of the loop is the turn of the extractor's walk, or the loop gives up. -/
theorem resolveStep_cases {p : Path} {s : State} {c : Name}
    (halike : ∀ q, R .readlink q = R .lstat q) (hwider : ∀ q, R .lstat q = true → G .lstat q = true)
    (hl2s : NoL2s fs root) (hroot : fs.IsDir root) (hat : At fs root p s) (hc : Fs.NoSlash c) :
    resolveStep G fs root s c = .fail () ∨
      (∃ s', resolveStep G fs root s c = .next s' ∧ ∃ p',
        safeResolveStepIn R fs [] root p c = .next p' ∧ At fs root p' s') ∨
      ∃ s' comps, resolveStep G fs root s c = .link s' comps ∧
        safeResolveStepIn R fs [] root p c = .link s'.trail comps ∧ At fs root s'.trail s' := by
  obtain ⟨steps, trail, found⟩ := s
  unfold resolveStep
  cases found with
  | some x =>
    simp only
    split
    · rename_i h₁
      right; left
      exact ⟨_, rfl, p, by unfold safeResolveStepIn; rw [if_pos h₁], hat⟩
    · exact .inl rfl
  | none =>
    simp only
    split
    · exact .inl rfl
    · obtain ⟨rfl, hdir⟩ := hat
      exact look_cases (s := ⟨steps + 1, p, none⟩) halike hwider hl2s hroot hdir rfl hc

/-- The entry reached is the one at the path the extractor's resolver gives. -/
theorem resolve_spec {guestPath : List Char} {dir : Path} {name : Name} {entry : Entry}
    (halike : ∀ q, R .readlink q = R .lstat q) (hwider : ∀ q, R .lstat q = true → G .lstat q = true)
    (hl2s : NoL2s fs root) (hroot : fs.IsDir root)
    (h : resolve G fs root guestPath = some (dir, name, entry)) :
    ∃ p, safeResolvePartsIn R fs root (splitPath guestPath) = some p ∧ root ++ p = dir ++ [name] ∧
      fs.get (root ++ p) = some entry := by
  unfold resolve at h
  cases hrun : Walk.run (resolveStep G fs root) () maxSymlinkHops ⟨0, [], none⟩
      (splitPath guestPath) with
  | error e => rw [hrun] at h; cases h
  | ok s =>
    rw [hrun] at h
    obtain ⟨⟨name', entry'⟩, hfound, hx⟩ := Option.map_eq_some_iff.mp h
    cases hx
    have hnext : ∀ p s c s', At fs root p s → Fs.NoSlash c → resolveStep G fs root s c = .next s' →
        ∃ p', safeResolveStepIn R fs [] root p c = .next p' ∧ At fs root p' s' := by
      intro p s c s' hat hc hstep
      rcases resolveStep_cases halike hwider hl2s hroot hat hc with
        hfail | ⟨s₁, h₁, hp⟩ | ⟨s₁, comps, h₁, -, -⟩
      · rw [hfail] at hstep; cases hstep
      · rw [h₁] at hstep; cases hstep
        exact hp
      · rw [h₁] at hstep; cases hstep
    have hlink : ∀ p s c s' comps, At fs root p s → Fs.NoSlash c →
        resolveStep G fs root s c = .link s' comps →
        (∃ p', safeResolveStepIn R fs [] root p c = .link p' comps ∧ At fs root p' s') ∧
          ∀ c' ∈ comps, Fs.NoSlash c' := by
      intro p s c s' comps hat hc hstep
      rcases resolveStep_cases halike hwider hl2s hroot hat hc with
        hfail | ⟨s₁, h₁, -⟩ | ⟨s₁, comps', h₁, hp, hs₁⟩
      · rw [hfail] at hstep; cases hstep
      · rw [h₁] at hstep; cases hstep
      · rw [h₁] at hstep; cases hstep
        exact ⟨⟨s'.trail, hp, hs₁⟩, safeResolveStepIn_comps hp⟩
    have hstart : At fs root [] ⟨0, [], none⟩ := ⟨rfl, by simpa using hroot⟩
    obtain ⟨p, hp, hat⟩ := Walk.run_simulates (At fs root) Fs.NoSlash
      (safeResolveStepIn R fs [] root) (resolveStep G fs root) () () hnext hlink maxSymlinkHops
      ⟨0, [], none⟩ (splitPath guestPath) [] s hstart (fun _ => Fs.noSlash_of_mem_splitPath) hrun
    unfold At at hat
    rw [hfound] at hat
    obtain ⟨rfl, hget, -, -⟩ := hat
    refine ⟨s.trail ++ [name'], ?_, by rw [List.append_assoc], hget⟩
    unfold safeResolvePartsIn
    unfold maxSymlinkHops at hp
    rw [hp]
    rfl

end Resolve

end Guestfile

end ProotDistro
