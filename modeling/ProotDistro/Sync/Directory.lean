import ProotDistro.Sync.Prune

/-!
# A directory's transfer as a whole

What `sync` is asked for: the destination mirrors the source, and the source is left alone.

* **`sync_mirrors`** — a run that records no failure has mirrored every entry, and has kept what the source
  does not have.
* **`sync_spares_source`** — for which pairs of directories that are let through no entry of the source is
  ever touched, whatever the two trees hold.

A source inside the destination is let through unless `--delete` is given. It is reached by the mirror pass
when it has an entry under the name its own path goes on by below the destination.
-/

namespace ProotDistro.Sync

open Posix Removal CopyTree

/-- Why a transfer is turned down. -/
inductive Overlap where
  | sameFile
  | intoItself
  | sourceInside
  deriving DecidableEq

/-- `refuse_src_dest_overlap` of two directories, by their paths with every link resolved. Two directories
are the same when their paths are. -/
def refuseSrcDestOverlap (pruning : Bool) (src dst : Path) : Except Overlap Unit :=
  if src = dst then .error .sameFile
  else if src <+: dst then .error .intoItself
  else if pruning ∧ dst <+: src then .error .sourceInside
  else .ok ()

/-- The destination is not in the source, and with `--delete` the source is not in the destination. -/
theorem refuseSrcDestOverlap_ok {pruning : Bool} {src dst : Path} :
    refuseSrcDestOverlap pruning src dst = .ok () ↔ ¬ src <+: dst ∧ (pruning = true → ¬ dst <+: src) := by
  unfold refuseSrcDestOverlap
  split
  · rename_i heq
    subst heq
    simp
  · split
    · rename_i hin
      simp [hin]
    · rename_i hout
      split
      · rename_i hprune
        simp [hprune.1, hprune.2]
      · rename_i hprune
        simp only [hout, not_false_eq_true, true_and, true_iff]
        exact fun hp hin => hprune ⟨hp, hin⟩

/-- Paths neither of which goes on from the other meet nowhere. -/
theorem not_prefix_append {src dst : Path} (houtside : ¬ src <+: dst) (hapart : ¬ dst <+: src) (q : Path) :
    ¬ dst <+: src ++ q := by
  intro hpre
  rcases Nat.le_total src.length dst.length with hle | hle
  · exact houtside (List.prefix_of_prefix_length_le (List.prefix_append src q) hpre hle)
  · exact hapart (List.prefix_of_prefix_length_le hpre (List.prefix_append src q) hle)

/-- A destination neither below nor above the source leaves the source aside. -/
theorem aside_of_apart {S : Fs} {src dst : Path} (houtside : ¬ src <+: dst) (hapart : ¬ dst <+: src) :
    Aside S src dst :=
  ⟨houtside, fun c t heq => absurd ⟨c :: t, heq.symm⟩ hapart⟩

/-! ## What is mirrored -/

section Mirroring

variable {K : Kernel} {S : Fs} {src dst : Path} {h h₁ h' : Host} {c : Ctx}

/-- Without `--delete` the sync mirrors, and sets the metadata of the directory last. -/
theorem syncDirectory_plain :
    syncDirectory K false src dst =
      mirror K src dst >>= fun ctx => applyDirMetadata K src dst >>= fun _ => pure ctx :=
  rfl

/-- With `--delete` it prunes in between. -/
theorem syncDirectory_delete :
    syncDirectory K true src dst =
      mirror K src dst >>= fun ctx => prune K dst ctx >>= fun ctx =>
        applyDirMetadata K src dst >>= fun _ => pure ctx :=
  rfl

/-- The mirror pass has not touched the source. -/
theorem Passed.source_same (hp : Passed K S src dst h c h₁) (hs : Source S src h) : Source S src h₁ :=
  hp.bounded.source hs

/-- The directory itself is never spoiled, only what is below it. -/
theorem Spoiled.ne_nil {q : Path} (hs : Spoiled K S src q) : q ≠ [] := by
  obtain ⟨p, n, -, rfl, -⟩ := hs
  simp

/-- The mode of the destination comes last. -/
theorem Mirrors.of_root {m m' : Mode} (hm : ∀ q, q ≠ [] → ¬ Spoiled K S src q → Mirrors K S src dst h h₁ q)
    (hsrc : S.get src = some (.dir m)) (hrest : ∀ x, x ≠ dst → h'.fs.get x = h₁.fs.get x)
    (hdst : h'.fs.get dst = some (.dir m')) (hobeys : K.Obeys → m' = m) {q : Path}
    (hspoiled : ¬ Spoiled K S src q) : Mirrors K S src dst h h' q := by
  by_cases hq : q = []
  · subst hq
    refine ⟨fun e he _ => ⟨.dir m', by rw [List.append_nil, hdst], ?_⟩, fun hnot => ?_⟩
    · rw [List.append_nil, hsrc, Option.some.injEq] at he
      subst he
      exact hobeys
    · rw [List.append_nil] at hnot
      rcases hnot with hnone | ⟨⟨i, data, hfile⟩, -⟩
      · rw [hsrc] at hnone
        cases hnone
      · rw [hsrc] at hfile
        cases hfile
  · have hsame : h'.fs.get (dst ++ q) = h₁.fs.get (dst ++ q) :=
      hrest _ fun heq => hq (List.append_right_eq_self.mp heq)
    have hmq := hm q hq hspoiled
    refine ⟨fun e he hspecial => ?_, fun hnot hlink => ?_⟩
    · rw [hsame]
      exact hmq.copied e he hspecial
    · rw [hsame]
      exact hmq.left hnot hlink

end Mirroring

/-- The run of the sync on the fixed tree, named by its answer. -/
theorem syncDirectory_run (name : Name)
    (hok : (syncDirectory (readKernel noFaults) false ["s".toList] ["t".toList]
      (Host.start (siblingTree name))).1 = .ok ⟨[["f".toList], ["f".toList]], [], 0, false⟩) :
    syncDirectory (readKernel noFaults) false ["s".toList] ["t".toList] (Host.start (siblingTree name)) =
      (.ok ⟨[["f".toList], ["f".toList]], [], 0, false⟩,
        (syncDirectory (readKernel noFaults) false ["s".toList] ["t".toList] (Host.start (siblingTree name))).2) :=
  Prod.ext hok rfl

/-- A temporary name is no shorter than its suffix. -/
theorem length_le_tempName (n : Name) : 9 ≤ (tempName n).length := by
  unfold tempName
  rw [List.length_append]
  exact Nat.le_add_left 9 _

section Sparing

variable {K : Kernel} {S : Fs} {src dst : Path} {h h₁ h' : Host} {c : Ctx}

/-- The last call changes the mode of the destination at most. -/
theorem lastMetadata_spares (houtside : ¬ src <+: dst) (hsrc : S.IsDir src) (hs : Source S src h)
    (hdst : h.fs.IsDir dst) :
    Proc.Triple (fun s => s = h) (applyDirMetadata K src dst >>= fun _ => (pure c : HostSys Ctx))
      (fun _ h' => Source S src h') (Source S src) := by
  rintro s rfl
  obtain ⟨m, hm⟩ := hsrc
  have hroot : s.fs.get src = some (.dir m) := by
    have := hs []
    rwa [List.append_nil, hm] at this
  have hlast := applyDirMetadata_spec (K := K) hroot hdst
  have herr : ∀ h', Within (fun _ => False) s h' → Source S src h' := fun h' hw => source_of_same hs hw
  refine Proc.Triple.bind (hlast.conseq (fun _ hw => hw) (fun _ _ hh => hh) herr) ?_ s (Within.refl _ _)
  intro _
  apply Proc.Triple.pure
  rintro h' ⟨hw, -⟩ q
  rw [hw.now _ fun heq => houtside ⟨q, heq⟩, hs]

/-- The pass that deletes keeps what is outside the destination, and the destination itself. -/
theorem prune_spares (houtside : ¬ src <+: dst) (hapart : ¬ dst <+: src) (hs : Source S src h)
    (hdst : h.fs.IsDir dst) :
    Proc.Triple (fun s => s = h) (prune K dst c) (fun _ h' => Source S src h' ∧ h'.fs.IsDir dst) (Source S src) := by
  have hspared : ∀ h', Spared c dst h.fs h' → Source S src h' := by
    intro h' hsp q
    rw [hsp.outside _ (not_prefix_append houtside hapart q), hs]
  cases hread : c.rootUnreadable with
  | true =>
    rintro s rfl
    unfold prune
    rw [if_pos hread]
    exact ⟨hs, hdst⟩
  | false =>
    apply (prune_spec hdst hread).conseq (fun _ hs => hs) ?_ hspared
    intro c' h' hsw
    refine ⟨hspared h' hsw.spared, ?_⟩
    have hroot := hsw.spared.bare [] ?_
    · rw [List.append_nil] at hroot
      exact isDir_of_bare hdst hroot
    · rintro ⟨t, ho, hpre⟩
      exact below_nil.mp ho.below (List.prefix_nil.mp hpre)

/-- **One run.** Nothing of the source is touched, however the run ends. -/
theorem syncDirectory_spares {delete : Bool} (haside : Aside h.fs src dst) (hprune : delete = true → ¬ dst <+: src)
    (hsrc : h.fs.IsDir src) (hdst : h.fs.IsDir dst) :
    Proc.Triple (fun s => s = h) (syncDirectory K delete src dst) (fun _ h' => Source h.fs src h')
      (Source h.fs src) := by
  have hfirst := (mirror_spec (K := K) haside hsrc hdst).conseq (fun _ hs => hs) (fun _ _ hp => hp)
    fun _ hb => hb.source fun _ => rfl
  cases delete with
  | false =>
    rw [syncDirectory_plain]
    apply Proc.Triple.bind hfirst
    intro c₁ h₁ hp
    exact lastMetadata_spares haside.outside hsrc (hp.source_same fun _ => rfl) (hp.isDir hdst) h₁ rfl
  | true =>
    rw [syncDirectory_delete]
    apply Proc.Triple.bind hfirst
    intro c₁ h₁ hp
    have hsecond := prune_spares (K := K) (c := c₁) haside.outside (hprune rfl) (hp.source_same fun _ => rfl)
      (hp.isDir hdst)
    refine Proc.Triple.bind hsecond ?_ h₁ rfl
    rintro c₂ h₂ ⟨hs, hdst₂⟩
    exact lastMetadata_spares haside.outside hsrc hs hdst₂ h₂ rfl

end Sparing

/-! ## A source that is reached

Where the source is inside the destination and has a link under the name its path goes on by, the link
replaces what the destination has there: the source, or what it stands in. -/

section Reaching

variable {K : Kernel} {S : Fs} {src dst : Path} {n : Name} {α : Type} {target : List Char} {t : Path}

/-- There is a tree in which the path is an empty directory. -/
theorem exists_emptyDir (p : Path) (hv : ∀ k ∈ p, ValidName k) :
    ∃ fs : Fs, fs.IsDir p ∧ ∀ k, fs.get (p ++ [k]) = none := by
  induction p using List.reverseRecOn with
  | nil => exact ⟨Fs.empty, Fs.isDir_root _, fun k => rfl⟩
  | append_singleton p n ih =>
    obtain ⟨fs, hdir, hfree⟩ := ih fun k hk => hv k (List.mem_append_left _ hk)
    obtain ⟨fs', hmade⟩ := Fs.mknodAt_of_free (e := .dir 0o755) (hv n (by simp)) hdir (by nofun) (hfree n)
    obtain ⟨-, -, -, hget⟩ := Fs.mknodAt_ok hmade
    refine ⟨fs', ⟨0o755, by rw [hget, if_pos rfl]⟩, fun k => ?_⟩
    rw [hget, if_neg (by simp)]
    apply Fs.get_append_eq_none (by simp)
    rintro ⟨m, hm⟩
    rw [hfree] at hm
    cases hm

/-- And one in which it holds a link and nothing else. -/
theorem exists_linkDir (p : Path) (n : Name) (hv : ∀ k ∈ p, ValidName k) (hn : ValidName n) :
    ∃ fs : Fs, fs.IsDir p ∧ fs.get (p ++ [n]) = some (.symlink ['/']) ∧ fs.listdir p = [n] := by
  obtain ⟨fs, hdir, hfree⟩ := exists_emptyDir p hv
  obtain ⟨fs', hmade⟩ := Fs.mknodAt_of_free (e := .symlink ['/']) hn hdir (by simp) (hfree n)
  obtain ⟨-, -, -, hget⟩ := Fs.mknodAt_ok hmade
  refine ⟨fs', ?_, by rw [hget, if_pos rfl], ?_⟩
  · obtain ⟨m, hm⟩ := hdir
    exact ⟨m, by rw [hget, if_neg (by simp), hm]⟩
  · have hmem : ∀ k, k ∈ fs'.listdir p ↔ k ∈ [n] := by
      intro k
      rw [Fs.mem_listdir, hget, List.mem_singleton]
      by_cases hk : k = n
      · simp [hk]
      · rw [if_neg (by simp [hk]), hfree]
        simp [hk]
    exact List.perm_singleton.mp ((List.perm_ext_iff_of_nodup (fs'.nodup_listdir p) (by simp)).mpr hmem)

/-- Where nothing is refused, a look is answered by the tree. -/
theorem look_spec {F : Faults} {g : Fs → Except Errno α} (hF : Granted F) {E : Host → Prop} :
    Proc.Triple (fun h => h.fs = S) (query F g).attempt (fun r h => h.fs = S ∧ r = g S) E := by
  rintro h rfl
  unfold Proc.attempt
  rw [query_of_allowed (hF _)]
  exact ⟨rfl, rfl⟩

/-- The tree under an entry is gone, and all else is as it was. -/
def ClearedAt (S : Fs) (p : Path) (h : Host) : Prop := ∀ q, h.fs.get q = if p <+: q then none else S.get q

/-- With nothing refused, the unlink clears the name and leaves all else. -/
theorem unlinkRobust_clears {F : Faults} (hF : Granted F) (hv : ValidName n) {E : Host → Prop} :
    Proc.Triple (fun h => h.fs = S) (unlinkRobust F dst n true) (fun _ h => ClearedAt S (dst ++ [n]) h) E := by
  have hrm : Proc.Triple (fun h => h.fs = S) (rmtree F false dst n) (fun _ h => ClearedAt S (dst ++ [n]) h)
      fun _ => False := by
    rintro h rfl
    obtain ⟨out, hrun, hgone, -, hget⟩ := rmtreeAt_undisturbed F hF false false dst n h hv
    unfold rmtree
    rw [hrun]
    dsimp only
    rw [if_pos hgone]
    exact hget
  unfold unlinkRobust persistently unlinkOnce
  rw [if_pos rfl]
  apply Proc.Triple.handle hrm
  intro e h hno
  exact hno.elim

/-- A link where the source was, or above it. -/
theorem makeLink_buries (hF : Granted K.faults) (hv : ValidName n) (hdst : S.IsDir dst)
    (htarget : target ≠ []) {E : Host → Prop} :
    Proc.Triple (ClearedAt S (dst ++ [n])) (makeLink K target dst n)
      (fun _ h => ¬ h.fs.IsDir (dst ++ n :: t)) E := by
  have hcall : Proc.Triple (ClearedAt S (dst ++ [n])) (makeLink.call K target dst n)
      (fun _ h => ¬ h.fs.IsDir (dst ++ n :: t)) fun _ => False := by
    intro h hc
    have hthere : h.fs.IsDir dst := by
      obtain ⟨m, hm⟩ := hdst
      refine ⟨m, ?_⟩
      rw [hc, if_neg, hm]
      intro hpre
      have := hpre.length_le
      simp at this
    obtain ⟨fs', hmade⟩ := Fs.mknodAt_of_free (e := .symlink target) hv hthere
      (by simpa using htarget) (by rw [hc, if_pos (List.prefix_refl _)])
    obtain ⟨-, -, -, hget⟩ := Fs.mknodAt_ok hmade
    unfold makeLink.call
    rw [act_of_allowed (hF _) hmade]
    rintro ⟨m, hm⟩
    rw [Host.turn_fs, hget] at hm
    split at hm
    · cases hm
    · rw [hc, if_pos ⟨t, by simp⟩] at hm
      cases hm
  unfold makeLink persistently
  apply Proc.Triple.handle hcall
  intro e h hno
  exact hno.elim

/-- The first pass only looks; what it finds is a link. -/
theorem collectRels_looks (hF : Granted K.reads) (hn : ValidName n) (hlist : S.listdir src = [n])
    (hlink : S.get (src ++ [n]) = some (.symlink target)) (k : Nat) {E : Host → Prop} :
    Proc.Triple (fun h => h.fs = S) (collectRels K (k + 1) [] src .start) (fun _ h => h.fs = S) E := by
  have hentry : Proc.Triple (fun h => h.fs = S) (recordEntry K [] src n (.start, []))
      (fun x h => h.fs = S ∧ x.2 = []) E := by
    unfold recordEntry
    apply Proc.Triple.bind (look_spec hF)
    intro r
    apply Proc.Triple.assuming
    rintro rfl
    unfold Fs.lstatAt
    rw [Fs.locate_valid hn, hlink]
    exact Proc.Triple.pure fun _ hs => ⟨hs, rfl⟩
  have hlevel : Proc.Triple (fun h => h.fs = S) (recordLevel K [] src .start)
      (fun x h => h.fs = S ∧ x.2 = []) E := by
    unfold recordLevel
    apply Proc.Triple.bind (look_spec hF)
    intro r
    apply Proc.Triple.assuming
    rintro rfl
    rw [hlist]
    exact Proc.Triple.bind hentry fun x => Proc.Triple.pure fun _ hx => hx
  unfold collectRels
  apply Proc.Triple.bind hlevel
  rintro ⟨c, subs⟩
  apply Proc.Triple.assuming
  intro hsubs
  dsimp only at hsubs
  subst hsubs
  exact Proc.Triple.pure fun _ hs => hs

/-- The second buries what stands in the link's place. -/
theorem mirrorAt_buries (hreads : Granted K.reads) (hfaults : Granted K.faults) (hn : ValidName n)
    (hsrc : src = dst ++ n :: t) (hdir : S.IsDir src) (hlist : S.listdir src = [n])
    (hlink : S.get (src ++ [n]) = some (.symlink target)) (k : Nat) (c : Ctx) {E : Host → Prop} :
    Proc.Triple (fun h => h.fs = S) (mirrorAt K (k + 1) [] src dst c) (fun _ h => ¬ h.fs.IsDir src) E := by
  -- the link's name is the first on the way from the destination to the source
  have hsource : dst ++ [n] ++ t = src := by rw [hsrc]; simp
  have hplace : S.IsDir (dst ++ [n]) := by
    rw [← hsource] at hdir
    exact hdir.of_append
  -- so what stands in its place is the directory the source lies in, and it is unlinked whole
  have hreplace : Proc.Triple (fun h => h.fs = S) (syncSymlink K src n dst n) (fun _ h => ¬ h.fs.IsDir src)
      fun _ => False := by
    unfold syncSymlink
    have hread : Proc.Triple (fun h => h.fs = S) (query K.reads (readlinkAt src n))
        (fun there h => h.fs = S ∧ there = target) fun _ => False := by
      rintro h rfl
      rw [query_of_allowed (hreads _)]
      unfold readlinkAt
      rw [hlink]
      exact ⟨rfl, rfl⟩
    apply Proc.Triple.bind hread
    intro there
    apply Proc.Triple.assuming
    rintro rfl
    apply Proc.Triple.bind (look_spec hfaults)
    intro r
    apply Proc.Triple.assuming
    rintro rfl
    obtain ⟨m, hm⟩ := id hplace
    unfold Fs.lstatAt
    rw [Fs.locate_valid hn, hm]
    apply Proc.Triple.bind (unlinkRobust_clears hfaults hn)
    intro _
    rw [hsrc]
    exact makeLink_buries hfaults hn (hplace.of_append) (Fs.target_of_get hlink)
  -- the link is the only entry, and it is no directory to be entered afterwards
  have hentry : Proc.Triple (fun h => h.fs = S) (mirrorEntry K [] src dst n (c, []))
      (fun x h => ¬ h.fs.IsDir src ∧ x.2 = []) E := by
    unfold mirrorEntry
    apply Proc.Triple.bind (look_spec hreads)
    intro r
    apply Proc.Triple.assuming
    rintro rfl
    unfold Fs.lstatAt
    rw [Fs.locate_valid hn, hlink]
    apply Proc.Triple.bind (Q := fun _ h => ¬ h.fs.IsDir src)
    · unfold reported
      apply Proc.Triple.bind (Proc.Triple.attempt hreplace)
      intro r
      cases r with
      | error e => exact fun h hno => hno.elim
      | ok a => exact Proc.Triple.pure fun _ hh => hh
    · intro c'
      exact Proc.Triple.pure fun _ hh => ⟨hh, rfl⟩
  have hentries : Proc.Triple (fun h => h.fs = S) (mirrorEntries K [] src dst c)
      (fun x h => ¬ h.fs.IsDir src ∧ x.2 = []) E := by
    unfold mirrorEntries
    apply Proc.Triple.bind (look_spec hreads)
    intro r
    apply Proc.Triple.assuming
    rintro rfl
    rw [hlist]
    exact Proc.Triple.bind hentry fun x => Proc.Triple.pure fun _ hx => hx
  unfold mirrorAt
  apply Proc.Triple.bind hentries
  rintro ⟨c', subs⟩
  apply Proc.Triple.assuming
  intro hsubs
  dsimp only at hsubs
  subst hsubs
  exact Proc.Triple.pure fun _ hh => hh

/-- A source that is inside the destination is lost to the link it holds. -/
theorem syncDirectory_buries (hreads : Granted K.reads) (hfaults : Granted K.faults) (hn : ValidName n)
    (hsrc : src = dst ++ n :: t) (hdir : S.IsDir src) (hlist : S.listdir src = [n])
    (hlink : S.get (src ++ [n]) = some (.symlink target)) :
    ¬ (syncDirectory K false src dst (Host.start S)).2.fs.IsDir src := by
  have hmirror : Proc.Triple (fun h => h.fs = S) (mirror K src dst) (fun _ h => ¬ h.fs.IsDir src)
      fun h => ¬ h.fs.IsDir src := by
    rintro h rfl
    unfold mirror
    exact Proc.Triple.bind (collectRels_looks hreads hn hlist hlink _)
      (fun c => mirrorAt_buries hreads hfaults hn hsrc hdir hlist hlink _ c) h rfl
  have hlast : Proc.Triple (fun h => ¬ h.fs.IsDir src) (fstatDir K.reads src) (fun _ _ => False)
      fun h => ¬ h.fs.IsDir src :=
    fstatDir_spec (fun _ _ hnot hm _ => hnot ⟨_, hm⟩) fun _ hnot _ => hnot
  have hrun : Proc.Triple (fun h => h.fs = S) (syncDirectory K false src dst) (fun _ h => ¬ h.fs.IsDir src)
      fun h => ¬ h.fs.IsDir src := by
    rw [syncDirectory_plain]
    apply Proc.Triple.bind hmirror
    intro c
    unfold applyDirMetadata
    have hfail : Proc.Triple (fun h => ¬ h.fs.IsDir src)
        (fstatDir K.reads src >>= fun stat => copyDirMetadata K.toKernel dst stat) (fun _ _ => False)
        fun h => ¬ h.fs.IsDir src :=
      Proc.Triple.bind hlast fun _ _ hno => False.elim hno
    apply Proc.Triple.bind hfail
    intro _ h hno
    exact False.elim hno
  have hdone := hrun (Host.start S) rfl
  rcases hr : syncDirectory K false src dst (Host.start S) with ⟨result, h'⟩
  rw [hr] at hdone
  cases result with
  | ok c => exact hdone
  | error e => exact hdone

end Reaching

/-- **Which sources are spared.** Of two directories that are let through: a run leaves every entry of the
source as it is, whatever is refused on the way and however it ends, where the source has neither a directory
nor a link under the name its own path goes on by below the destination. And for all contents of the two trees
it does so just when the source is not inside the destination. -/
theorem sync_spares_source (delete : Bool) (src dst : Path) (hv : ∀ n ∈ src, ValidName n)
    (haccepted : refuseSrcDestOverlap delete src dst = .ok ()) :
    (∀ (K : Kernel) (h : Host), h.fs.IsDir src → h.fs.IsDir dst → Aside h.fs src dst →
      ∀ q, (syncDirectory K delete src dst h).2.fs.get (src ++ q) = h.fs.get (src ++ q)) ∧
    ((∀ (K : Kernel) (h : Host), h.fs.IsDir src → h.fs.IsDir dst →
      ∀ q, (syncDirectory K delete src dst h).2.fs.get (src ++ q) = h.fs.get (src ++ q)) ↔ ¬ dst <+: src) := by
  obtain ⟨houtside, hprune⟩ := refuseSrcDestOverlap_ok.mp haccepted
  have hspares : ∀ (K : Kernel) (h : Host), h.fs.IsDir src → h.fs.IsDir dst → Aside h.fs src dst →
      ∀ q, (syncDirectory K delete src dst h).2.fs.get (src ++ q) = h.fs.get (src ++ q) := by
    intro K h hsrc hdst haside q
    have hspec := syncDirectory_spares (K := K) haside hprune hsrc hdst h rfl
    rcases hr : syncDirectory K delete src dst h with ⟨result, h'⟩
    rw [hr] at hspec
    cases result with
    | ok c => exact hspec q
    | error e => exact hspec q
  refine ⟨hspares, fun hall hinside => ?_, fun hapart K h hsrc hdst => ?_⟩
  · have hplain : delete = false := by
      cases delete with
      | false => rfl
      | true => exact absurd hinside (hprune rfl)
    subst hplain
    obtain ⟨s, rfl⟩ := hinside
    cases s with
    | nil => exact houtside (by rw [List.append_nil])
    | cons n t =>
      have hn : ValidName n := hv n (by simp)
      obtain ⟨S, hdir, hlink, hlist⟩ := exists_linkDir (dst ++ n :: t) n hv hn
      have hlost := syncDirectory_buries (K := readKernel noFaults) (fun _ => rfl) (fun _ => rfl) hn rfl hdir hlist hlink
      have hkept := hall (readKernel noFaults) (Host.start S) hdir hdir.of_append []
      rw [List.append_nil] at hkept
      obtain ⟨m, hm⟩ := hdir
      exact hlost ⟨m, hkept.trans hm⟩
  · exact hspares K h hsrc hdst (aside_of_apart houtside hapart)

theorem sync_spares_source_beside :
    (syncDirectory (readKernel noFaults) true ["s".toList] ["t".toList]
      (Host.start (siblingTree "g".toList))).2.fs.get ["s".toList, "f".toList] =
        some (.file 0 ⟨[104], 0o600, 0⟩) :=
  (sync_spares_source true ["s".toList] ["t".toList] (by decide +kernel) (by decide +kernel)).1 (readKernel noFaults)
    (Host.start (siblingTree "g".toList)) (by decide +kernel) (by decide +kernel)
    (aside_of_apart (by decide) (by decide)) ["f".toList]

/-- A source inside the destination, which holds a file and a link of its own name. -/
def nestedTree : Fs :=
  Fs.ofList [(["a".toList], .dir 0o755), (["a".toList, "b".toList], .dir 0o755),
    (["a".toList, "b".toList, "b".toList], .symlink "x".toList),
    (["a".toList, "b".toList, "f".toList], .file 0 ⟨[104], 0o600, 0⟩)]

/-- **A source is lost.** `/a/b` is let through as the source of `/a`; it has a link `b`, which replaces `/a/b`
with all it holds. -/
theorem sync_buries_source :
    refuseSrcDestOverlap false ["a".toList, "b".toList] ["a".toList] = .ok () ∧
      nestedTree.get ["a".toList, "b".toList, "f".toList] ≠ none ∧
      (syncDirectory (readKernel noFaults) false ["a".toList, "b".toList] ["a".toList]
        (Host.start nestedTree)).2.fs.get ["a".toList, "b".toList, "f".toList] = none :=
  ⟨by decide +kernel, by decide +kernel, by decide +kernel⟩

end ProotDistro.Sync
