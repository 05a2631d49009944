import ProotDistro.L2s
import ProotDistro.Posix.Refusals

/-!
# `l2s.rewrite_l2s_targets`: the links of a container that has moved

The stand-ins for hard links name host paths below the container's rootfs. When the rootfs has moved,
a walk over it takes every link whose target begins with the old path and makes it anew with the new
one in front. Any call of the walk may be refused, those it looks with as well as the two a link is made
anew in, and a refusal is passed over.

The tree does not move while the walk is inside it, and the walk is not short of descriptors.

* **`rewriteWithin_get`** — what the walk makes of the tree, entry by entry.
* **`rewrite_boundaries_iff`** — the trees and prefixes for which a link is rewritten if and only if
  its target is the old prefix or below it, and one whose rewriting fails keeps its target.
-/

namespace ProotDistro

open Posix

namespace L2s

/-! ## The walk -/

/-- `_rewrite_link` -/
def rewriteLink (refused : Refusals) (rootfs oldPrefix : List Char) (d : Path) (name : Name)
    (fs : Fs) : Fs :=
  match fs.lstatAt d name with
  | .ok (.symlink target) =>
    if refused .readlink (d ++ [name]) then fs
    else if oldPrefix.isPrefixOf target then
      if refused .unlink (d ++ [name]) then fs
      else
        match fs.unlinkAt d name with
        | .error _ => fs
        | .ok fs₁ =>
          if refused .symlink (d ++ [name]) then fs₁
          else
            match fs₁.symlinkAt (rootfs ++ target.drop oldPrefix.length) d name with
            | .error _ => fs₁
            | .ok fs₂ => fs₂
    else fs
  | _ => fs

/-- The walk below the directory `d`, to a depth of `fuel` directories. -/
def rewriteWithin (refused : Refusals) (rootfs oldPrefix : List Char) : Nat → Path → Fs → Fs
  | 0, _, fs => fs
  | fuel + 1, d, fs =>
    (fs.listdirIn refused d).reverse.foldl (fun fs name =>
      match fs.lstatIn refused d name with
      | .error _ => fs
      | .ok (.dir _) =>
        match fs.openDirIn refused d name with
        | .error _ => fs
        | .ok sub => rewriteWithin refused rootfs oldPrefix fuel sub fs
      | .ok (.symlink _) => rewriteLink refused rootfs oldPrefix d name fs
      | .ok (.file _ _) => fs) fs

/-- `_rewrite_walk` -/
def rewriteWalk (refused : Refusals) (root : Path) (rootfs oldPrefix : List Char) (fs : Fs) : Fs :=
  rewriteWithin refused rootfs oldPrefix (Dirfd.depth fs + 1) root fs

/-! ## What the walk makes of an entry -/

/-- What becomes of an entry the walk meets. -/
def rewritten (refused : Refusals) (rootfs oldPrefix : List Char) (q : Path) : Entry → Option Entry
  | .symlink target =>
    if oldPrefix.isPrefixOf target ∧ refused .readlink q = false ∧ refused .unlink q = false then
      if refused .symlink q then none
      else some (.symlink (rootfs ++ target.drop oldPrefix.length))
    else some (.symlink target)
  | .dir mode => some (.dir mode)
  | .file ino data => some (.file ino data)

/-- The same below the directory `d`: what the walk does not get to stays. -/
def rewrittenBelow (refused : Refusals) (rootfs oldPrefix : List Char) (d q : Path) (e : Entry) : Option Entry :=
  if refused.reaches d (q.drop d.length) then rewritten refused rootfs oldPrefix q e else some e

section Walks

variable {refused : Refusals} {rootfs oldPrefix target : List Char} {fs : Fs} {d q : Path} {name : Name}

/-- The rewrite of a link changes that link alone. -/
theorem rewriteLink_get (hroot : rootfs ≠ []) (h : fs.get (d ++ [name]) = some (.symlink target)) :
    (rewriteLink refused rootfs oldPrefix d name fs).get q =
      if q = d ++ [name] then rewritten refused rootfs oldPrefix q (.symlink target) else fs.get q := by
  have hv := Fs.validName_of_get h
  have hl : fs.lstatAt d name = .ok (.symlink target) := by
    unfold Fs.lstatAt
    rw [Fs.locate_valid hv, h]
  have hkeep : fs.get q = if q = d ++ [name] then some (.symlink target) else fs.get q := by
    split
    · rename_i hq
      rw [hq, h]
    · rfl
  unfold rewriteLink rewritten
  rw [hl]
  dsimp only
  by_cases hread : refused .readlink (d ++ [name]) = true
  · rw [if_pos hread, hkeep]
    split
    · rename_i hq
      rw [if_neg (by rw [hq, hread]; simp)]
    · rfl
  -- a refused readlink: the link is left alone
  rw [if_neg hread]
  rw [Bool.not_eq_true] at hread
  by_cases hstarts : oldPrefix.isPrefixOf target = true
  · rw [if_pos hstarts]
    by_cases hunlink : refused .unlink (d ++ [name]) = true
    · rw [if_pos hunlink]
      rw [hkeep]
      split
      · rename_i hq
        rw [if_neg (by rw [hq, hunlink]; simp)]
      · rfl
    -- a refused unlink: the link is left alone
    · rw [if_neg hunlink]
      obtain ⟨fs₁, hfs₁⟩ := Fs.unlinkAt_of_some h rfl
      obtain ⟨-, hget₁⟩ := Fs.unlinkAt_ok hfs₁
      rw [Fs.locate_valid hv] at hget₁
      rw [hfs₁]
      -- the link is unlinked, and is made anew unless the symlink is refused
      dsimp only
      by_cases hsymlink : refused .symlink (d ++ [name]) = true
      · rw [if_pos hsymlink, hget₁]
        split
        · rename_i hq
          rw [hq, if_pos ⟨hstarts, hread, by simpa using hunlink⟩, if_pos hsymlink]
        · rfl
      · rw [if_neg hsymlink]
        have hdir : fs₁.IsDir d := by
          obtain ⟨m, hm⟩ := Fs.isDir_parent h
          exact ⟨m, by rw [hget₁, if_neg (by simp), hm]⟩
        obtain ⟨fs₂, hfs₂⟩ : ∃ fs₂, fs₁.symlinkAt (rootfs ++ target.drop oldPrefix.length) d name =
            .ok fs₂ := Fs.mknodAt_of_free hv hdir (by simp [hroot]) (by rw [hget₁, if_pos rfl])
        obtain ⟨-, -, -, hget₂⟩ := Fs.mknodAt_ok hfs₂
        rw [hfs₂]
        dsimp only
        rw [hget₂, hget₁]
        split
        · rename_i hq
          -- a target that does not start with the old prefix is left alone
          rw [hq, if_pos ⟨hstarts, hread, by simpa using hunlink⟩, if_neg hsymlink]
        · rfl
  · rw [if_neg hstarts, hkeep]
    split
    · rw [if_neg (by simp [hstarts])]
    · rfl

/-- What a loop over the names of a directory makes of the tree, where each turn changes what is
below its own name. -/
theorem foldl_names (step : Fs → Name → Fs) (becomes : Path → Entry → Option Entry)
    (names : List Name) (hnodup : names.Nodup)
    (hstep : ∀ n ∈ names, ∀ fs₁ : Fs, (∀ q, d ++ [n] <+: q → fs₁.get q = fs.get q) →
      ∀ q, (step fs₁ n).get q =
        if d ++ [n] <+: q then (fs.get q).bind (becomes q) else fs₁.get q) :
    (names.foldl step fs).get q =
      if ∃ n ∈ names, d ++ [n] <+: q then (fs.get q).bind (becomes q) else fs.get q := by
  -- the tree the loop has reached is the first one below the names that are left
  suffices H : ∀ (names' : List Name) (fs₁ : Fs), names'.Nodup → (∀ n ∈ names', n ∈ names) →
      (∀ n ∈ names', ∀ q, d ++ [n] <+: q → fs₁.get q = fs.get q) →
        (names'.foldl step fs₁).get q =
          if ∃ n ∈ names', d ++ [n] <+: q then (fs.get q).bind (becomes q) else fs₁.get q by
    exact H names fs hnodup (fun n hn => hn) fun _ _ _ _ => rfl
  intro names'
  induction names' with
  | nil =>
    intro fs₁ _ _ _
    simp
  | cons n names' ih =>
    intro fs₁ hnodup' hmem hsame
    rw [List.nodup_cons] at hnodup'
    have hturn := hstep n (hmem n List.mem_cons_self) fs₁ (hsame n List.mem_cons_self)
    rw [List.foldl_cons, ih (step fs₁ n) hnodup'.2 (fun m hm => hmem m (List.mem_cons_of_mem _ hm))]
    · by_cases hrest : ∃ m ∈ names', d ++ [m] <+: q
      · obtain ⟨m, hm, hpre⟩ := hrest
        rw [if_pos ⟨m, hm, hpre⟩, if_pos ⟨m, List.mem_cons_of_mem _ hm, hpre⟩]
      · rw [if_neg hrest, hturn]
        by_cases hn : d ++ [n] <+: q
        · rw [if_pos hn, if_pos ⟨n, List.mem_cons_self, hn⟩]
        · have hnone : ¬ ∃ m ∈ n :: names', d ++ [m] <+: q := by
            rintro ⟨m, hm, hpre⟩
            rcases List.mem_cons.mp hm with rfl | hm
            · exact hn hpre
            · exact hrest ⟨m, hm, hpre⟩
          rw [if_neg hn, if_neg hnone]
    · intro m hm q' hpre
      have hother : ¬ d ++ [n] <+: q' := by
        intro hn
        have hlen : (d ++ [n]).length = (d ++ [m]).length := by simp
        have heq := List.append_cancel_left
          ((List.prefix_of_prefix_length_le hn hpre hlen.le).eq_of_length hlen)
        rw [List.cons.injEq] at heq
        exact hnodup'.1 (heq.1 ▸ hm)
      rw [hturn, if_neg hother]
      exact hsame m (List.mem_cons_of_mem _ hm) q' hpre

/-- What is below an entry that is no directory is nothing. -/
theorem get_below_eq_none {e : Entry} {p : Path} (h : fs.get p = some e) (he : e.isDir = false)
    (hpre : p <+: q) (hne : q ≠ p) : fs.get q = none := by
  obtain ⟨r, rfl⟩ := hpre
  apply Fs.get_append_eq_none
  · rintro rfl
    exact hne (List.append_nil p)
  · rintro ⟨m, hm⟩
    rw [h, Option.some.injEq] at hm
    rw [hm] at he
    cases he

/-- A path below a directory goes on from it by what is left of it. -/
theorem drop_length_append (d r : Path) : (d ++ r).drop d.length = r := List.drop_left

/-- What the walk makes of an entry in the directory it is in. -/
theorem rewrittenBelow_name {n : Name} {e : Entry} :
    rewrittenBelow refused rootfs oldPrefix d (d ++ [n]) e =
      if refused .listdir d = false ∧ refused .lstat (d ++ [n]) = false then
        rewritten refused rootfs oldPrefix (d ++ [n]) e
      else some e := by
  unfold rewrittenBelow
  rw [drop_length_append]
  simp only [Refusals.reaches_singleton]

/-- What it makes of an entry further down is what it makes of it from the directory in between, if it may
go down there. -/
theorem rewrittenBelow_cons {n : Name} {r : Path} {e : Entry} (hr : r ≠ []) :
    rewrittenBelow refused rootfs oldPrefix d (d ++ n :: r) e =
      if refused .listdir d = false ∧ refused .lstat (d ++ [n]) = false ∧
          refused .opendir (d ++ [n]) = false then
        rewrittenBelow refused rootfs oldPrefix (d ++ [n]) (d ++ n :: r) e
      else some e := by
  have hsub : (d ++ n :: r).drop (d ++ [n]).length = r := by
    rw [show d ++ n :: r = d ++ [n] ++ r by simp]
    exact drop_length_append _ r
  unfold rewrittenBelow
  rw [drop_length_append, hsub]
  simp only [Refusals.reaches_cons hr]
  by_cases h : refused .listdir d = false ∧ refused .lstat (d ++ [n]) = false ∧
      refused .opendir (d ++ [n]) = false
  · simp only [h.1, h.2.1, h.2.2, true_and, and_self, if_true]
  · rw [if_neg h, if_neg]
    rintro ⟨hlist, hstat, hopen, -⟩
    exact h ⟨hlist, hstat, hopen⟩

/-- **What the walk makes of a tree**: below the directory every entry it gets to becomes what it is
rewritten to, and everything else is as it was. -/
theorem rewriteWithin_get {fuel : Nat} (hroot : rootfs ≠ []) (hdeep : ∀ r e, fs.get (d ++ r) = some e → r.length ≤ fuel) :
    (rewriteWithin refused rootfs oldPrefix fuel d fs).get q =
      if d <+: q ∧ q ≠ d then (fs.get q).bind (rewrittenBelow refused rootfs oldPrefix d q)
      else fs.get q := by
  -- by induction on the levels left; a directory is a fold over the names of its listing
  induction fuel generalizing d fs q with
  | zero =>
    show fs.get q = _
    split
    · rename_i hbelow
      obtain ⟨⟨r, rfl⟩, hne⟩ := hbelow
      cases hget : fs.get (d ++ r) with
      | none => rfl
      | some e =>
        have hr : r = [] := List.length_eq_zero_iff.mp (Nat.le_zero.mp (hdeep r e hget))
        rw [hr, List.append_nil] at hne
        exact absurd rfl hne
    · rfl
  | succ fuel ih =>
    unfold rewriteWithin
    rw [foldl_names _ (rewrittenBelow refused rootfs oldPrefix d) _
      (List.nodup_reverse.mpr (Fs.nodup_listdirIn refused fs d))]
    · -- a path below the directory leads through one of its names
      by_cases hbelow : d <+: q ∧ q ≠ d
      · rw [if_pos hbelow]
        obtain ⟨⟨r, rfl⟩, hne⟩ := hbelow
        obtain ⟨n, r, rfl⟩ := List.exists_cons_of_ne_nil (show r ≠ [] by
          rintro rfl
          exact hne (List.append_nil d))
        have happ : d ++ n :: r = d ++ [n] ++ r := by simp
        by_cases hn : n ∈ fs.listdirIn refused d
        · rw [if_pos ⟨n, List.mem_reverse.mpr hn, by rw [happ]; exact List.prefix_append _ _⟩]
        · -- the name is not in the listing: nothing is there, or the listing is refused
          have hstays : (fs.get (d ++ n :: r)).bind (rewrittenBelow refused rootfs oldPrefix d (d ++ n :: r)) =
              fs.get (d ++ n :: r) := by
            cases hget : fs.get (d ++ n :: r) with
            | none => rfl
            | some e =>
              have hthere : (fs.get (d ++ [n])).isSome := by
                rw [happ] at hget
                by_cases hr : r = []
                · rw [hr, List.append_nil] at hget
                  rw [hget]
                  rfl
                · exact (Fs.isDir_of_append hr hget).isSome
              have hlist : refused .listdir d ≠ false := fun hlist =>
                hn (Fs.mem_listdirIn.mpr ⟨hlist, hthere⟩)
              rw [Option.bind_some]
              by_cases hr : r = []
              · subst hr
                rw [rewrittenBelow_name, if_neg fun h => hlist h.1]
              · rw [rewrittenBelow_cons hr, if_neg fun h => hlist h.1]
          rw [hstays]
          split <;> rfl
      · rw [if_neg hbelow, if_neg]
        rintro ⟨n, -, hpre⟩
        refine hbelow ⟨(List.prefix_append d [n]).trans hpre, ?_⟩
        rintro rfl
        have hle := hpre.length_le
        simp at hle
    -- what the turn of one name does at the name and below it
    · intro n hn fs₁ hsame q
      rw [List.mem_reverse, Fs.mem_listdirIn] at hn
      obtain ⟨hlist, hsome⟩ := hn
      obtain ⟨e, he⟩ := Option.isSome_iff_exists.mp hsome
      have he₁ : fs₁.get (d ++ [n]) = some e := by rw [hsame _ (List.prefix_refl _), he]
      -- a turn that stops early leaves what is at the name and below it
      have hleft : ∀ {fs₂ : Fs}, fs₂ = fs₁ → (∀ r, d ++ [n] <+: r → (fs.get r).bind
          (rewrittenBelow refused rootfs oldPrefix d r) = fs.get r) →
          fs₂.get q = if d ++ [n] <+: q then (fs.get q).bind (rewrittenBelow refused rootfs oldPrefix d q)
            else fs₁.get q := by
        rintro _ rfl hsame'
        split
        · rename_i hpre
          rw [hsame' q hpre, hsame q hpre]
        · rfl
      rw [Fs.lstatIn_of_get he₁]
      cases hstat : refused .lstat (d ++ [n]) with
      | true =>
        rw [if_pos rfl]
        refine hleft rfl fun r hpre => ?_
        obtain ⟨t, rfl⟩ := hpre
        rw [show d ++ [n] ++ t = d ++ n :: t by simp]
        cases fs.get (d ++ n :: t) with
        | none => rfl
        | some e' =>
          rw [Option.bind_some]
          by_cases ht : t = []
          · subst ht
            rw [rewrittenBelow_name, if_neg fun h => absurd (hstat.symm.trans h.2) (by decide)]
          · rw [rewrittenBelow_cons ht, if_neg fun h => absurd (hstat.symm.trans h.2.1) (by decide)]
      | false =>
        rw [if_neg (by decide)]
        -- what is below an entry that is no directory is nothing
        have hleaf : e.isDir = false → ∀ r, d ++ [n] <+: r → r ≠ d ++ [n] → fs.get r = none :=
          fun hdir r hpre hne => get_below_eq_none he hdir hpre hne
        cases e with
        -- a link at the name; nothing is below it
        | file ino data =>
          refine hleft rfl fun r hpre => ?_
          by_cases hr : r = d ++ [n]
          · rw [hr, he, Option.bind_some, rewrittenBelow_name, if_pos ⟨hlist, hstat⟩]
            rfl
          · rw [hleaf rfl r hpre hr]
            rfl
        | symlink target =>
          dsimp only
          rw [rewriteLink_get hroot he₁]
          by_cases hq : q = d ++ [n]
          · subst hq
            rw [if_pos rfl, if_pos (List.prefix_refl _), he, Option.bind_some, rewrittenBelow_name,
              if_pos ⟨hlist, hstat⟩]
          · rw [if_neg hq]
            split
            · rename_i hpre
              rw [hsame q hpre, hleaf rfl q hpre hq]
              rfl
            · rfl
        -- a directory, which is entered where its open is not refused
        | dir mode =>
          dsimp only
          rw [Fs.openDirIn_of_isDir ⟨mode, he₁⟩]
          have hself : rewrittenBelow refused rootfs oldPrefix d (d ++ [n]) (.dir mode) = some (.dir mode) := by
            rw [rewrittenBelow_name, if_pos ⟨hlist, hstat⟩]
            rfl
          cases hopen : refused .opendir (d ++ [n]) with
          | true =>
            rw [if_pos rfl]
            refine hleft rfl fun r hpre => ?_
            obtain ⟨t, rfl⟩ := hpre
            by_cases ht : t = []
            · rw [ht, List.append_nil, he, Option.bind_some, hself]
            · rw [show d ++ [n] ++ t = d ++ n :: t by simp]
              cases fs.get (d ++ n :: t) with
              | none => rfl
              | some e' =>
                rw [Option.bind_some, rewrittenBelow_cons ht,
                  if_neg fun h => absurd (hopen.symm.trans h.2.2) (by decide)]
          | false =>
            rw [if_neg (by decide)]
            dsimp only
            rw [ih]
            -- below the name the turn is the walk of the directory
            · by_cases hpre : d ++ [n] <+: q
              · rw [if_pos hpre, hsame q hpre]
                obtain ⟨t, rfl⟩ := hpre
                by_cases ht : t = []
                · rw [if_neg (by simp [ht]), ht, List.append_nil, he, Option.bind_some, hself]
                · rw [if_pos ⟨List.prefix_append _ _, by simpa using ht⟩]
                  rw [show d ++ [n] ++ t = d ++ n :: t by simp]
                  cases fs.get (d ++ n :: t) with
                  | none => rfl
                  | some e' =>
                    rw [Option.bind_some, Option.bind_some, rewrittenBelow_cons ht,
                      if_pos ⟨hlist, hstat, hopen⟩]
              · rw [if_neg hpre, if_neg fun h => hpre h.1]
            -- what is below the name is one level less deep
            · intro r e' hr
              rw [hsame _ (List.prefix_append _ r), List.append_assoc] at hr
              have hlen := hdeep ([n] ++ r) e' hr
              rw [List.length_append, List.length_singleton] at hlen
              omega

/-- The whole walk. -/
theorem rewriteWalk_get {root : Path} (hroot : rootfs ≠ []) :
    (rewriteWalk refused root rootfs oldPrefix fs).get q =
      if root <+: q ∧ q ≠ root then (fs.get q).bind (rewrittenBelow refused rootfs oldPrefix root q)
      else fs.get q := by
  refine rewriteWithin_get hroot ?_
  intro r e hr
  have hdepth := Dirfd.length_le_depth hr
  rw [List.length_append] at hdepth
  omega

end Walks

/-! ## Boundaries -/

/-- The target is the prefix itself or a path below it. -/
def Below (oldPrefix target : List Char) : Prop :=
  target = oldPrefix ∨ oldPrefix ++ ['/'] <+: target

/-- The walk gets to the entry at `q` and may read it as a link. -/
def sees (refused : Refusals) (root q : Path) : Bool :=
  refused.reaches root (q.drop root.length) && !refused .readlink q

/-- The system refuses one of the calls that rewriting the link at `q` takes. -/
def fails (refused : Refusals) (root q : Path) : Bool :=
  !sees refused root q || refused .unlink q || refused .symlink q

/-- Every link below the root is rewritten if and only if its target is the old prefix or below it
and the system lets it, and keeps its target otherwise. -/
def RespectsBoundaries (refused : Refusals) (root : Path) (rootfs oldPrefix : List Char)
    (before after : Fs) : Prop :=
  ∀ q target, root <+: q → q ≠ root → before.get q = some (.symlink target) →
    (Below oldPrefix target ∧ fails refused root q = false →
      after.get q = some (.symlink (rootfs ++ target.drop oldPrefix.length))) ∧
    (¬ (Below oldPrefix target ∧ fails refused root q = false) → after.get q = some (.symlink target))

section Boundaries

variable {refused : Refusals} {root q : Path} {rootfs oldPrefix target : List Char} {fs : Fs}

/-- What is below the old rootfs starts with it. -/
theorem isPrefixOf_of_below (h : Below oldPrefix target) : oldPrefix.isPrefixOf target = true := by
  rw [List.isPrefixOf_iff_prefix]
  rcases h with rfl | hpre
  · exact List.prefix_refl _
  · exact (List.prefix_append _ _).trans hpre

/-- A target that begins with the old prefix stays as it is if and only if the prefix does. -/
theorem reroot_eq_self (h : oldPrefix.isPrefixOf target = true) :
    rootfs ++ target.drop oldPrefix.length = target ↔ rootfs = oldPrefix := by
  obtain ⟨suffix, rfl⟩ := List.isPrefixOf_iff_prefix.mp h
  rw [List.drop_left]
  exact List.append_left_inj suffix

/-- What the walk makes of a link: one it does not see, whose target does not begin with the prefix or
which cannot be removed stays; one that cannot be made anew is gone. -/
theorem rewrittenBelow_link :
    rewrittenBelow refused rootfs oldPrefix root q (.symlink target) =
      if oldPrefix.isPrefixOf target ∧ sees refused root q = true ∧ refused .unlink q = false then
        if refused .symlink q then none else some (.symlink (rootfs ++ target.drop oldPrefix.length))
      else some (.symlink target) := by
  unfold rewrittenBelow rewritten sees
  cases hreach : refused.reaches root (q.drop root.length) with
  | false => simp
  | true =>
    rw [if_pos rfl]
    simp only [Bool.true_and, Bool.not_eq_true']

/-- **When links are rewritten at path boundaries**: if and only if every link whose target begins
with the old prefix is one that the walk does not see or cannot remove, or one that can be made anew and
whose target is the old prefix or below it. The new prefix is the path of a rootfs, so that no link is
made with an empty target. -/
theorem rewrite_boundaries_iff (hroot : rootfs ≠ []) :
    RespectsBoundaries refused root rootfs oldPrefix fs
        (rewriteWalk refused root rootfs oldPrefix fs) ↔
      ∀ q target, root <+: q → q ≠ root → fs.get q = some (.symlink target) →
        oldPrefix <+: target →
          sees refused root q = false ∨ refused .unlink q = true ∨
            refused .symlink q = false ∧ (Below oldPrefix target ∨ rootfs = oldPrefix) := by
  unfold RespectsBoundaries
  constructor
  -- where both clauses hold, a link that the walk changes is one they let it change
  · intro h q target hpre hne hget hstarts
    rw [← List.isPrefixOf_iff_prefix] at hstarts
    have hboth := h q target hpre hne hget
    rw [rewriteWalk_get hroot, if_pos ⟨hpre, hne⟩, hget, Option.bind_some, rewrittenBelow_link] at hboth
    cases hsees : sees refused root q with
    | false => exact .inl rfl
    | true =>
      right
      cases hunlink : refused .unlink q with
      | true => exact .inl rfl
      | false =>
        right
        rw [if_pos ⟨hstarts, hsees, hunlink⟩] at hboth
        have hfails : fails refused root q = refused .symlink q := by
          unfold fails
          rw [hsees, hunlink]
          rfl
        rw [hfails] at hboth
        cases hsymlink : refused .symlink q with
        | true =>
          -- the link is gone, and should have kept its target
          rw [hsymlink, if_pos rfl] at hboth
          have hkept := hboth.2 (by simp)
          cases hkept
        | false =>
          rw [hsymlink] at hboth
          refine ⟨rfl, ?_⟩
          by_cases hbelow : Below oldPrefix target
          · exact .inl hbelow
          · right
            have hkept := hboth.2 fun h => hbelow h.1
            rw [if_neg (by simp), Option.some.injEq, Entry.symlink.injEq] at hkept
            exact (reroot_eq_self hstarts).mp hkept
  -- and a link that starts with the old prefix is one of those that the condition names
  · intro h q target hpre hne hget
    rw [rewriteWalk_get hroot, if_pos ⟨hpre, hne⟩, hget, Option.bind_some, rewrittenBelow_link]
    unfold fails
    constructor
    · rintro ⟨hbelow, hfails⟩
      rw [Bool.or_eq_false_iff, Bool.or_eq_false_iff, Bool.not_eq_false'] at hfails
      rw [if_pos ⟨isPrefixOf_of_below hbelow, hfails.1.1, hfails.1.2⟩, hfails.2, if_neg (by simp)]
    · intro hkeep
      by_cases hstarts : oldPrefix.isPrefixOf target = true
      · rcases h q target hpre hne hget (List.isPrefixOf_iff_prefix.mp hstarts) with
          hsees | hunlink | ⟨hsymlink, hwhere⟩
        · rw [if_neg (by rw [hsees]; simp)]
        · rw [if_neg (by rw [hunlink]; simp)]
        · by_cases hdone : sees refused root q = true ∧ refused .unlink q = false
          · rcases hwhere with hbelow | hsame
            · refine absurd ⟨hbelow, ?_⟩ hkeep
              rw [hdone.1, hdone.2, hsymlink]
              rfl
            · rw [if_pos ⟨hstarts, hdone⟩, hsymlink, if_neg (by simp), (reroot_eq_self hstarts).mpr hsame]
          · rw [if_neg fun h => hdone h.2]
      · rw [if_neg fun h => hstarts h.1]

end Boundaries

/-- A container `b` that was `a`, with a link into its own rootfs. -/
def movedTree : Fs :=
  Fs.ofList [(["c".toList], .dir 0o755), (["c".toList, "b".toList], .dir 0o755),
    (["c".toList, "b".toList, "rootfs".toList], .dir 0o755),
    (["c".toList, "b".toList, "rootfs".toList, "l".toList], .symlink "/c/a/rootfs/.l2s/f".toList)]

theorem rewrite_boundaries_iff_movedTree :
    RespectsBoundaries noRefusals
      ["c".toList, "b".toList, "rootfs".toList] "/c/b/rootfs".toList "/c/a/rootfs".toList movedTree
      (rewriteWalk noRefusals
        ["c".toList, "b".toList, "rootfs".toList] "/c/b/rootfs".toList "/c/a/rootfs".toList
        movedTree) := by
  apply (rewrite_boundaries_iff (by decide)).mpr
  intro q target _ _ hget _
  have hlinks : ∀ x ∈ movedTree.table.entries, x.2.isLink = true →
      x.2 = .symlink "/c/a/rootfs/.l2s/f".toList := by
    decide +kernel
  have hlink : Entry.symlink target = _ :=
    Fs.forall_get (P := fun _ e => e.isLink = true → e = .symlink "/c/a/rootfs/.l2s/f".toList) hlinks hget rfl
  rw [Entry.symlink.injEq] at hlink
  refine .inr (.inr ⟨rfl, .inl (.inr ?_)⟩)
  rw [hlink]
  decide

/-- A container `b` that was `a`, with a link into `rootfs.bak`, beside the old rootfs. -/
def siblingTree : Fs :=
  Fs.ofList [(["c".toList], .dir 0o755), (["c".toList, "b".toList], .dir 0o755),
    (["c".toList, "b".toList, "rootfs".toList], .dir 0o755),
    (["c".toList, "b".toList, "rootfs".toList, "l".toList], .symlink "/c/a/rootfs.bak/x".toList)]

/-- The link into the sibling `rootfs.bak` is rewritten all the same. -/
theorem rewrite_crosses_boundary :
    ¬ RespectsBoundaries noRefusals
      ["c".toList, "b".toList, "rootfs".toList] "/c/b/rootfs".toList "/c/a/rootfs".toList siblingTree
      (rewriteWalk noRefusals
        ["c".toList, "b".toList, "rootfs".toList] "/c/b/rootfs".toList "/c/a/rootfs".toList
        siblingTree) := by
  intro h
  have hboth := h ["c".toList, "b".toList, "rootfs".toList, "l".toList] "/c/a/rootfs.bak/x".toList
    (by decide) (by decide) (by decide +kernel)
  have hkept := hboth.2 (by
    rintro ⟨heq | hpre, -⟩
    · exact absurd heq (by decide)
    · exact absurd hpre (by decide))
  exact absurd hkept (by decide +kernel)

end L2s

end ProotDistro
