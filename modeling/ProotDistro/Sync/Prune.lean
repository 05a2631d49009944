import ProotDistro.Sync.Mirror

/-!
# What `sync --delete` removes

The third pass walks the destination twice: once to collect what the source has nothing for, and once to
remove it. Paths are relative to the two directories, as in `Sync.Mirror`.

* **`collectExtrasAt_spec`** — what is collected are orphans, the topmost ones, and where the kernel lets
  the pass look, all of them.
* **`removeExtrasAt_spec`** — what is removed is at or below a target; every other entry stays, and where
  modes and times take every directory has those it had.
* **`prune_spec`** — both, one after the other.
-/

namespace ProotDistro.Sync

open Posix Removal CopyTree

/-- Nothing is refused. -/
def Granted (F : Faults) : Prop := ∀ n, F n = none

/-- The tree as it was, and its directories' times. -/
structure Same (s h : Host) : Prop where
  get : ∀ q, h.fs.get q = s.fs.get q
  times : h.times = s.times

/-- A state is the same as itself. -/
theorem Same.refl (s : Host) : Same s s := ⟨fun _ => rfl, rfl⟩

/-- A call that changes nothing leaves it the same. -/
theorem Same.tick {s h : Host} (hs : Same s h) : Same s h.tick := ⟨hs.get, hs.times⟩

/-- An entry of the destination which the pass takes for an orphan, as it gets there from the level `p`: the
source was not seen to have it, but has everything on the way, and nothing on the way was skipped. -/
structure Orphan (c : Ctx) (dst : Path) (fs : Fs) (p q : Path) : Prop where
  below : Below p q
  there : fs.get (dst ++ q) ≠ none
  unseen : q ∉ c.srcRels
  spared : ∀ r, Below p r → r <+: q → r ∉ c.skippedRels
  seen : ∀ r, Below p r → r <+: q → r ≠ q → r ∈ c.srcRels

/-- What a part of the walk has collected of the entries in `C`. -/
structure Collected (K : Kernel) (c : Ctx) (dst : Path) (fs : Fs) (p : Path) (C : Path → Prop)
    (extras extras' : Extras) : Prop where
  sound : ∀ x ∈ extras', x ∈ extras ∨ Orphan c dst fs p x.1
  kept : ∀ x ∈ extras, x ∈ extras'
  complete : Granted K.looks → ∀ q, C q → Orphan c dst fs p q → ∃ b, (q, b) ∈ extras'

/-- What a level of the walk collects, for the recursion; it changes nothing. -/
def CollectSpec (K : Kernel) (c : Ctx) (dst : Path) (s : Host) (level : Path → Path → Extras → HostSys Extras)
    (p : Path) : Prop :=
  ∀ extras, s.fs.IsDir (dst ++ p) →
    Proc.Triple (Same s) (level p (dst ++ p) extras)
      (fun extras' h' => Same s h' ∧ Collected K c dst s.fs p (Below p) extras extras') (Same s)

section Collecting

variable {K : Kernel} {c : Ctx} {dst p : Path} {n : Name} {names : List Name} {s h : Host} {fs : Fs}
  {F : Faults} {α : Type} {C C' : Path → Prop} {extras extras₁ extras₂ : Extras}

/-- A look that is turned down: the kernel refused, or what was looked for is not there. -/
theorem query_spec {P E : Host → Prop} {Q : α → Host → Prop} {g : Fs → Except Errno α}
    (hok : ∀ h a, P h → g h.fs = .ok a → Q a h.tick)
    (herr : ∀ h, P h → (Granted F → ∃ e, g h.fs = .error e) → E h.tick) : Proc.Triple P (query F g) Q E := by
  intro h hP
  rcases query_cases F g h with ⟨a, hq, hg⟩ | ⟨e, hq, hwhy⟩
  · rw [hq]
    exact hok h a hP hg
  · rw [hq]
    refine herr h hP fun hF => ?_
    rcases hwhy with hg | ⟨hrefused, -⟩
    · exact ⟨e, hg⟩
    · exact absurd (hF _) hrefused

/-- The names of a directory, or none. -/
theorem listingAt_spec {d : Path} {E : Host → Prop} :
    Proc.Triple (Same s) (listingAt F d)
      (fun names h' => Same s h' ∧ names.Nodup ∧ (∀ k ∈ names, s.fs.get (d ++ [k]) ≠ none) ∧
        (Granted F → ∀ k, s.fs.get (d ++ [k]) ≠ none → k ∈ names)) E := by
  have hlist : Proc.Triple (Same s) (query F fun fs => .ok (fs.listdir d))
      (fun names h' => Same s h' ∧ names.Nodup ∧ ∀ k, k ∈ names ↔ s.fs.get (d ++ [k]) ≠ none)
      (fun h' => Same s h' ∧ ¬ Granted F) := by
    apply query_spec
    · intro h' names hw hnames
      rw [Except.ok.injEq] at hnames
      subst hnames
      refine ⟨hw.tick, h'.fs.nodup_listdir d, fun k => ?_⟩
      rw [Fs.mem_listdir, Option.isSome_iff_ne_none, hw.get]
    · intro h' hw hwhy
      refine ⟨hw.tick, fun hF => ?_⟩
      obtain ⟨e, he⟩ := hwhy hF
      cases he
  unfold listingAt
  apply Proc.Triple.bind (Proc.Triple.attempt hlist)
  intro result
  cases result with
  | error e =>
    apply Proc.Triple.pure
    rintro h' ⟨hw, hnot⟩
    exact ⟨hw, List.nodup_nil, by simp, fun hF => absurd hF hnot⟩
  | ok names =>
    apply Proc.Triple.pure
    rintro h' ⟨hw, hnodup, hnames⟩
    exact ⟨hw, hnodup, fun k hk => (hnames k).mp hk, fun _ k hk => (hnames k).mpr hk⟩

/-- A look at an entry that is not answered: where nothing is refused, nothing is there. -/
theorem lstat_looks (hv : ValidName n) {d : Path} :
    Proc.Triple (Same s) (query F (·.lstatAt d n))
      (fun e h' => Same s h' ∧ s.fs.get (d ++ [n]) = some e)
      (fun h' => Same s h' ∧ (Granted F → s.fs.get (d ++ [n]) = none)) := by
  apply query_spec
  · intro h' e hw hstat
    unfold Fs.lstatAt at hstat
    rw [Fs.locate_valid hv, hw.get] at hstat
    split at hstat
    · rename_i e' he'
      exact ⟨hw.tick, by rw [he', Except.ok.inj hstat]⟩
    · cases hstat
  · intro h' hw hwhy
    refine ⟨hw.tick, fun hF => ?_⟩
    obtain ⟨e, he⟩ := hwhy hF
    unfold Fs.lstatAt at he
    rw [Fs.locate_valid hv, hw.get] at he
    split at he
    · cases he
    · assumption

/-- A directory that cannot be opened: where nothing is refused, it is none. -/
theorem openDir_looks (hv : ValidName n) {d : Path} :
    Proc.Triple (Same s) (query F (·.openDirAt d n))
      (fun fd h' => Same s h' ∧ fd = d ++ [n])
      (fun h' => Same s h' ∧ (Granted F → ¬ s.fs.IsDir (d ++ [n]))) := by
  apply query_spec
  · intro h' fd hw hfd
    unfold Fs.openDirAt at hfd
    rw [Fs.locate_valid hv] at hfd
    split at hfd
    · exact ⟨hw.tick, (Except.ok.inj hfd).symm⟩
    all_goals cases hfd
  · intro h' hw hwhy
    refine ⟨hw.tick, fun hF => ?_⟩
    rintro ⟨m, hm⟩
    obtain ⟨e, he⟩ := hwhy hF
    unfold Fs.openDirAt at he
    rw [Fs.locate_valid hv, hw.get, hm] at he
    cases he

/-- Nothing more is listed below where there is no orphan. -/
theorem Collected.refl (hnone : Granted K.looks → ∀ q, C q → ¬ Orphan c dst fs p q) :
    Collected K c dst fs p C extras extras :=
  ⟨fun _ hx => .inl hx, fun _ hx => hx, fun hF q hq ho => absurd ho (hnone hF q hq)⟩

/-- An orphan is found from any level on the way to it. -/
theorem Orphan.up {q : Path} (ho : Orphan c dst fs (p ++ [n]) q) (hspared : p ++ [n] ∉ c.skippedRels)
    (hseen : p ++ [n] ∈ c.srcRels) : Orphan c dst fs p q := by
  obtain ⟨t, ht, rfl⟩ := ho.below
  have hsplit : ∀ r, Below p r → r <+: p ++ [n] ++ t → r = p ++ [n] ∨ Below (p ++ [n]) r := by
    rintro r ⟨s, hs, rfl⟩ hpre
    obtain ⟨k, s, rfl⟩ := List.exists_cons_of_ne_nil hs
    rw [List.append_assoc, List.prefix_append_right_inj, List.singleton_append, List.cons_prefix_cons] at hpre
    rw [hpre.1]
    cases s with
    | nil => exact .inl rfl
    | cons d s => exact .inr ⟨d :: s, List.cons_ne_nil d s, by simp⟩
  refine ⟨⟨[n] ++ t, by simp, by rw [List.append_assoc]⟩, ho.there, ho.unseen, fun r hr hpre => ?_,
    fun r hr hpre hne => ?_⟩
  · rcases hsplit r hr hpre with rfl | hbelow
    · exact hspared
    · exact ho.spared r hbelow hpre
  · rcases hsplit r hr hpre with rfl | hbelow
    · exact hseen
    · exact ho.seen r hbelow hpre hne

/-- And seen from further down, where the way goes on. -/
theorem Orphan.down {t : Path} (ho : Orphan c dst fs p (p ++ [n] ++ t)) (ht : t ≠ []) :
    Orphan c dst fs (p ++ [n]) (p ++ [n] ++ t) := by
  have hup : ∀ r, Below (p ++ [n]) r → Below p r := by
    rintro r ⟨s, -, rfl⟩
    exact ⟨[n] ++ s, by simp, by rw [List.append_assoc]⟩
  exact ⟨⟨t, ht, rfl⟩, ho.there, ho.unseen, fun r hr => ho.spared r (hup r hr), fun r hr => ho.seen r (hup r hr)⟩

/-- A member of a directory is below it. -/
theorem below_name : Below p (p ++ [n]) := ⟨[n], by simp, rfl⟩

/-- An orphan at or below an entry: the entry itself, or on from there. -/
theorem Orphan.cases {q : Path} (ho : Orphan c dst fs p q) (hpre : p ++ [n] <+: q) :
    (q = p ++ [n] ∧ p ++ [n] ∉ c.srcRels) ∨
      (Orphan c dst fs (p ++ [n]) q ∧ p ++ [n] ∈ c.srcRels ∧ fs.IsDir (dst ++ (p ++ [n]))) := by
  obtain ⟨t, rfl⟩ := hpre
  by_cases ht : t = []
  · subst ht
    refine .inl ⟨List.append_nil _, ?_⟩
    have := ho.unseen
    rwa [List.append_nil] at this
  · refine .inr ⟨ho.down ht, ho.seen _ below_name (List.prefix_append _ _) ?_, isDir_above ht ?_⟩
    · intro heq
      rw [List.self_eq_append_right] at heq
      exact ht heq
    · rw [List.append_assoc]
      exact ho.there

/-- **One entry of the destination.** -/
theorem collectExtra_spec {level : Path → Path → Extras → HostSys Extras}
    (hlevel : CollectSpec K c dst s level (p ++ [n])) (hv : ValidName n) :
    Proc.Triple (Same s) (collectExtra K c level p (dst ++ p) n extras)
      (fun extras' h' => Same s h' ∧ Collected K c dst s.fs p (Covers p [n]) extras extras')
      (Same s) := by
  have hcovers : ∀ {q}, Covers p [n] q → p ++ [n] <+: q := by
    rintro q ⟨k, hk, hpre⟩
    rwa [List.mem_singleton.mp hk] at hpre
  have hstill : (Granted K.looks → ∀ q, Covers p [n] q → ¬ Orphan c dst s.fs p q) →
      Proc.Triple (Same s) (pure extras : HostSys Extras)
        (fun extras' h' => Same s h' ∧ Collected K c dst s.fs p (Covers p [n]) extras extras')
        (Same s) :=
    fun hnone => Proc.Triple.pure fun _ hw => ⟨hw, Collected.refl hnone⟩
  unfold collectExtra
  split
  -- a noted path keeps what is below it from being an orphan
  · rename_i hskip
    exact hstill fun _ q hq ho => ho.spared _ below_name (hcovers hq) hskip
  · rename_i hskip
    apply Proc.Triple.bind (Proc.Triple.attempt (lstat_looks hv))
    intro result
    cases result with
    -- what cannot be looked at is not there, and nothing is below it, or the look was refused
    | error e =>
      rintro h' ⟨hw, hwhy⟩
      refine hstill (fun hF q hq ho => ?_) h' hw
      obtain ⟨t, rfl⟩ := hcovers hq
      have hnone := hwhy hF
      rw [List.append_assoc] at hnone
      apply ho.there
      by_cases ht : t = []
      · rw [ht, List.append_nil]
        exact hnone
      · rw [← List.append_assoc]
        apply Fs.get_append_eq_none ht
        rintro ⟨m, hm⟩
        rw [hnone] at hm
        cases hm
    | ok e =>
      apply Proc.Triple.assuming
      intro he
      rw [List.append_assoc] at he
      dsimp only
      split
      -- an entry the source has not been seen to have: the orphan itself, with all below it
      · rename_i hunseen
        apply Proc.Triple.pure
        intro h' hw
        refine ⟨hw, fun x hx => ?_, fun x hx => List.mem_append_left _ hx, fun hF q hq ho => ?_⟩
        · rcases List.mem_append.mp hx with hx | hx
          · exact .inl hx
          · rw [List.mem_singleton.mp hx]
            refine .inr ⟨below_name, by rw [he]; simp, hunseen, fun r hr hpre => ?_, fun r hr hpre hne => ?_⟩
            all_goals
              obtain ⟨s, hs, rfl⟩ := hr
              rw [List.prefix_append_right_inj] at hpre
              have hsn : s = [n] := hpre.eq_of_length_le (by
                rw [List.length_singleton]
                exact List.length_pos_iff.mpr hs)
              subst hsn
            · exact hskip
            · exact absurd rfl hne
        · rcases ho.cases (hcovers hq) with ⟨rfl, -⟩ | ⟨-, hseen, -⟩
          · exact ⟨e.isDir, List.mem_append_right _ (List.mem_singleton.mpr rfl)⟩
          · exact absurd hseen hunseen
      -- an entry the source has: only what lies below it may be an orphan
      · rename_i hseen
        rw [not_not] at hseen
        split
        · rename_i hdir
          have hisDir : s.fs.IsDir (dst ++ (p ++ [n])) := by
            cases e with
            | dir m => exact ⟨m, he⟩
            | file i data => cases hdir
            | symlink target => cases hdir
          apply Proc.Triple.bind (Proc.Triple.attempt (openDir_looks hv))
          intro opened
          cases opened with
          -- a directory that does not open, with no look refused, is none
          | error e' =>
            rintro h' ⟨hw, hwhy⟩
            refine hstill (fun hF q hq ho => ?_) h' hw
            have hnot := hwhy hF
            rw [List.append_assoc] at hnot
            exact hnot hisDir
          | ok sub =>
            apply Proc.Triple.assuming
            rintro rfl
            -- else the orphans of its level are those below the name
            have hrun := hlevel extras hisDir
            rw [← List.append_assoc] at hrun
            apply Proc.Triple.bind hrun
            intro extras'
            unfold popLevel
            apply Proc.Triple.bind (Q := fun _ h' => Same s h' ∧
              Collected K c dst s.fs (p ++ [n]) (Below (p ++ [n])) extras extras')
            · exact Triple.query (fun _ _ hh _ => ⟨hh.1.tick, hh.2⟩) fun _ hh => hh.1.tick
            · intro _
              apply Proc.Triple.pure
              rintro h' ⟨hw, hc⟩
              refine ⟨hw, fun x hx => (hc.sound x hx).imp_right fun ho => ho.up hskip hseen, hc.kept,
                fun hF q hq ho => ?_⟩
              rcases ho.cases (hcovers hq) with ⟨-, hunseen⟩ | ⟨hdown, -, -⟩
              · exact absurd hseen hunseen
              · exact hc.complete hF q hdown.below hdown
        -- below what is no directory there is nothing
        · rename_i hdir
          refine hstill fun _ q hq ho => ?_
          rcases ho.cases (hcovers hq) with ⟨-, hunseen⟩ | ⟨-, -, m, hm⟩
          · exact hunseen hseen
          · rw [he, Option.some.injEq] at hm
            rw [hm] at hdir
            exact hdir rfl

/-- The collection over the names of a directory, from the collection over each of them. -/
theorem collectNames_spec {level : Path → Path → Extras → HostSys Extras}
    (hlevel : ∀ n ∈ names, CollectSpec K c dst s level (p ++ [n])) (hv : ∀ n ∈ names, ValidName n) :
    Proc.Triple (Same s) (.thread (collectExtra K c level p (dst ++ p)) names extras)
      (fun extras' h' => Same s h' ∧ Collected K c dst s.fs p (Covers p names) extras extras')
      (Same s) := by
  induction names generalizing extras with
  | nil =>
    apply Proc.Triple.pure
    intro h' hw
    refine ⟨hw, Collected.refl ?_⟩
    rintro - q ⟨k, hk, -⟩
    cases hk
  | cons n names ih =>
    show Proc.Triple _ (collectExtra K c level p (dst ++ p) n extras >>= fun extras₁ =>
      Proc.thread (collectExtra K c level p (dst ++ p)) names extras₁) _ _
    apply Proc.Triple.bind (collectExtra_spec (hlevel n List.mem_cons_self) (hv n List.mem_cons_self))
    intro extras₁
    apply Proc.Triple.assuming
    intro hc
    apply (ih (fun k hk => hlevel k (List.mem_cons_of_mem n hk))
      fun k hk => hv k (List.mem_cons_of_mem n hk)).conseq (fun _ hw => hw) ?_ fun _ hw => hw
    rintro extras₂ h₂ ⟨hw, hc'⟩
    refine ⟨hw, fun x hx => ?_, fun x hx => hc'.kept x (hc.kept x hx), fun hF q hq ho => ?_⟩
    · rcases hc'.sound x hx with hx | ho
      · exact hc.sound x hx
      · exact .inr ho
    · obtain ⟨k, hk, hpre⟩ := hq
      rcases List.mem_cons.mp hk with rfl | hk
      · obtain ⟨b, hb⟩ := hc.complete hF q ⟨k, List.mem_singleton.mpr rfl, hpre⟩ ho
        exact ⟨b, hc'.kept _ hb⟩
      · exact hc'.complete hF q ⟨k, hk, hpre⟩ ho

/-- **What a level and all below it have of orphans.** -/
theorem collectExtrasAt_spec (depth : Nat) (hdepth : ∀ q, s.fs.get q ≠ none → q.length ≤ depth) (k : Nat)
    (hk : depth < (dst ++ p).length + k) : CollectSpec K c dst s (collectExtrasAt K c k) p := by
  induction k generalizing p with
  | zero =>
    rintro extras ⟨m, hm⟩
    have := hdepth (dst ++ p) (by rw [hm]; simp)
    omega
  | succ k ih =>
    intro extras hdir
    unfold collectExtrasAt
    apply Proc.Triple.bind listingAt_spec
    intro names
    apply Proc.Triple.assuming
    rintro ⟨-, hthere, hall⟩
    have hlevels : ∀ n ∈ names, CollectSpec K c dst s (collectExtrasAt K c k) (p ++ [n]) := by
      intro n _
      apply ih
      rw [← List.append_assoc, List.length_append, List.length_singleton]
      omega
    have hv : ∀ n ∈ names, ValidName n := by
      intro n hn
      obtain ⟨e, he⟩ := Option.ne_none_iff_exists'.mp (hthere n hn)
      exact Fs.validName_of_get he
    apply (collectNames_spec hlevels hv).conseq (fun _ hw => hw) ?_ fun _ hw => hw
    rintro extras' h' ⟨hw, hc⟩
    refine ⟨hw, hc.sound, hc.kept, fun hF q _ ho => ?_⟩
    obtain ⟨t, ht, rfl⟩ := ho.below
    obtain ⟨n, t, rfl⟩ := List.exists_cons_of_ne_nil ht
    refine hc.complete hF _ ⟨n, hall hF n ?_, t, by simp⟩ ho
    by_cases hnil : t = []
    · subst hnil
      rw [List.append_assoc]
      exact ho.there
    · apply some_of_isDir
      rw [List.append_assoc]
      apply isDir_above hnil
      rw [show dst ++ (p ++ [n]) ++ t = dst ++ (p ++ n :: t) by simp]
      exact ho.there

end Collecting

/-! ## Removing -/

/-- At or below one of the targets. -/
def Targeted (T : Extras) (q : Path) : Prop := ∃ x ∈ T, x.1 <+: q

/-- How far a part of the removal at the level `p` reaches, whether it fails or not: up to the modes of
directories, what is not targeted stays. -/
structure Cut (T : Extras) (dst p : Path) (C : Path → Prop) (s : Host) (h' : Host) : Prop where
  outside : ∀ x, ¬ dst ++ p <+: x → h'.fs.get x = s.fs.get x
  untouched : ∀ q, q ≠ p → ¬ C q → h'.fs.get (dst ++ q) = s.fs.get (dst ++ q)
  undated : ∀ q, q ≠ p → ¬ C q → h'.times (dst ++ q) = s.times (dst ++ q)
  spared : ∀ q, ¬ Targeted T q → bare h'.fs (dst ++ q) = bare s.fs (dst ++ q)

/-- What the pass notes while it removes: targets that stay. -/
structure Notes (T : Extras) (c c' : Ctx) : Prop where
  skipped : ∀ r ∈ c.skippedRels, r ∈ c'.skippedRels
  targets : ∀ r ∈ c'.skippedRels, r ∈ c.skippedRels ∨ ∃ b, (r, b) ∈ T
  failures : c.failures ≤ c'.failures
  quiet : c'.failures = c.failures → c'.skippedRels = c.skippedRels

/-- What a part of the removal has done about the entries in `C`. -/
structure Pruned (K : Kernel) (T : Extras) (dst p : Path) (C : Path → Prop) (s : Host) (c : Ctx) (h' : Host)
    (c' : Ctx) : Prop where
  cut : Cut T dst p C s h'
  notes : Notes T c c'
  modes : Granted K.looks → K.Obeys → ∀ q, C q → ¬ Targeted T q → h'.fs.get (dst ++ q) = s.fs.get (dst ++ q)
  times : Granted K.looks → K.Obeys → ∀ q, C q → ¬ Targeted T q → h'.times (dst ++ q) = s.times (dst ++ q)
  gone : Granted K.looks → ∀ x ∈ T, C x.1 → s.fs.get (dst ++ x.1) ≠ none →
    h'.fs.get (dst ++ x.1) = none ∨ x.1 ∈ c'.skippedRels

/-- Nothing stands between the pass and a target: no other target, and nothing that was skipped. -/
def Reachable (T : Extras) (c : Ctx) : Prop :=
  ∀ x ∈ T, ∀ r, r ≠ [] → r <+: x.1 → r ≠ x.1 → r ∉ c.skippedRels ∧ ∀ b, (r, b) ∉ T

/-- A level's mode and time, as they were when the level was entered, for whoever goes on to put them back. -/
def ModeKnown (dst p : Path) (s h' : Host) (saved : Option DirStat) : Prop :=
  saved = none ∧ h'.fs.get (dst ++ p) = s.fs.get (dst ++ p) ∧ h'.times (dst ++ p) = s.times (dst ++ p) ∨
    ∃ stat, saved = some stat ∧ s.fs.get (dst ++ p) = some (.dir stat.mode) ∧ s.times (dst ++ p) = stat.mtime

/-- What a level of the removal does, for the recursion. -/
def RemoveSpec (K : Kernel) (T : Extras) (dst : Path) (level : Path → Path → Ctx → HostSys (Ctx × Option DirStat))
    (p : Path) : Prop :=
  ∀ s c, s.fs.IsDir (dst ++ p) → ¬ Targeted T p → Reachable T c →
    Proc.Triple (Same s) (level p (dst ++ p) c)
      (fun x h' => Pruned K T dst p (Below p) s c h' x.1 ∧ (Granted K.looks → ModeKnown dst p s h' x.2))
      (Cut T dst p (Below p) s)

section Removing

variable {K : Kernel} {T : Extras} {dst p : Path} {n : Name} {names : List Name} {s h h₁ h₂ h' : Host}
  {c c₁ c₂ : Ctx} {C C' C'' : Path → Prop}

/-- Nothing noted. -/
theorem Notes.refl (c : Ctx) : Notes T c c := ⟨fun _ hr => hr, fun _ hr => .inl hr, le_refl _, fun _ => rfl⟩

/-- Notes taken one after the other. -/
theorem Notes.trans (hn : Notes T c c₁) (hn' : Notes T c₁ c₂) : Notes T c c₂ where
  skipped := fun r hr => hn'.skipped r (hn.skipped r hr)
  targets := fun r hr => (hn'.targets r hr).elim (hn.targets r) .inr
  failures := le_trans hn.failures hn'.failures
  quiet := by
    intro heq
    have hle := hn.failures
    have hle' := hn'.failures
    rw [hn'.quiet (by omega), hn.quiet (by omega)]

/-- A failure noted at a doomed path is such a note. -/
theorem notes_noteFailure {r : Path} {b : Bool} (hx : (r, b) ∈ T) : Notes T c (c.noteFailure r) := by
  unfold Ctx.noteFailure
  split
  · exact Notes.refl c
  · refine ⟨fun _ hq => List.mem_cons_of_mem _ hq, fun q hq => ?_, Nat.le_succ _, fun heq => ?_⟩
    · rcases List.mem_cons.mp hq with rfl | hq
      · exact .inr ⟨b, hx⟩
      · exact .inl hq
    · exact absurd heq (Nat.succ_ne_self _)

/-- A target that stays is in the way of no other. -/
theorem Reachable.notes (hr : Reachable T c) (hn : Notes T c c₁) : Reachable T c₁ := by
  intro x hx r hne hpre hother
  obtain ⟨hskip, htarget⟩ := hr x hx r hne hpre hother
  refine ⟨fun hmem => ?_, htarget⟩
  rcases hn.targets r hmem with hmem | ⟨b, hb⟩
  · exact hskip hmem
  · exact htarget b hb

/-- Nothing cut. -/
theorem Cut.refl (hs : Same s h') : Cut T dst p C s h' :=
  ⟨fun x _ => hs.get x, fun _ _ _ => hs.get _, fun _ _ _ => congrFun hs.times _,
    fun q _ => by unfold bare; rw [hs.get]⟩

/-- Two cuts make one, below either place. -/
theorem Cut.trans (hc : Cut T dst p C s h₁) (hc' : Cut T dst p C' h₁ h₂) (hC : ∀ q, C q ∨ C' q → C'' q) :
    Cut T dst p C'' s h₂ where
  outside := fun x hx => (hc'.outside x hx).trans (hc.outside x hx)
  untouched := fun q hne hq =>
    (hc'.untouched q hne fun hq' => hq (hC q (.inr hq'))).trans (hc.untouched q hne fun hq' => hq (hC q (.inl hq')))
  undated := fun q hne hq =>
    (hc'.undated q hne fun hq' => hq (hC q (.inr hq'))).trans (hc.undated q hne fun hq' => hq (hC q (.inl hq')))
  spared := fun q hq => (hc'.spared q hq).trans (hc.spared q hq)

/-- A cut below some places is one below more of them. -/
theorem Cut.mono (hc : Cut T dst p C s h') (hC : ∀ q, C q → C' q) : Cut T dst p C' s h' :=
  ⟨hc.outside, fun q hne hq => hc.untouched q hne fun hq' => hq (hC q hq'),
    fun q hne hq => hc.undated q hne fun hq' => hq (hC q hq'), hc.spared⟩

/-- A call that changes nothing cuts nothing. -/
theorem Cut.tick (hc : Cut T dst p C s h') : Cut T dst p C s h'.tick :=
  ⟨hc.outside, hc.untouched, hc.undated, hc.spared⟩

/-- A level that is no target is there still. -/
theorem Cut.isDir {q : Path} (hc : Cut T dst p C s h') (hdir : s.fs.IsDir (dst ++ q)) (hq : ¬ Targeted T q) :
    h'.fs.IsDir (dst ++ q) :=
  isDir_of_bare hdir (hc.spared q hq)

/-- Nothing is to be pruned where nothing doomed stands. -/
theorem Pruned.refl (hs : Same s h') (hgone : Granted K.looks → ∀ x ∈ T, C x.1 → s.fs.get (dst ++ x.1) = none) :
    Pruned K T dst p C s c h' c :=
  ⟨Cut.refl hs, Notes.refl c, fun _ _ _ _ _ => hs.get _, fun _ _ _ _ _ => congrFun hs.times _, fun hF x hx hC hthere => absurd (hgone hF x hx hC) hthere⟩

/-- A name that is no target under a level that is not targeted. -/
theorem not_targeted_name (hp : ¬ Targeted T p) (hn : ∀ b, (p ++ [n], b) ∉ T) : ¬ Targeted T (p ++ [n]) := by
  rintro ⟨⟨t, b⟩, hx, hpre⟩
  rcases List.prefix_concat_iff.mp hpre with rfl | hpre
  · exact hn b hx
  · exact hp ⟨_, hx, hpre⟩

/-- A target at or below an entry that is none is below it, and nothing is in the way. -/
theorem target_below {x : Path × Bool} (hr : Reachable T c) (hx : x ∈ T) (hn : ∀ b, (p ++ [n], b) ∉ T)
    (hC : Covers p [n] x.1) : Below (p ++ [n]) x.1 ∧ p ++ [n] ∉ c.skippedRels := by
  obtain ⟨k, hk, t, ht⟩ := hC
  rw [List.mem_singleton.mp hk] at ht
  have hne : p ++ [n] ≠ x.1 := by
    intro heq
    exact hn x.2 (heq ▸ hx)
  refine ⟨⟨t, ?_, ht.symm⟩, (hr x hx _ (by simp) ⟨t, ht⟩ hne).1⟩
  rintro rfl
  rw [List.append_nil] at ht
  exact hne ht

/-- What leaves everything but modes alone leaves the times as they are. -/
theorem keeps_times {α : Type} {call : HostSys α} {X : Path → Prop} {times : Path → Int}
    (hcall : ∀ h₀, Proc.Keeps (Steady h₀) call fun _ => True) :
    Proc.Keeps (fun h => ∀ q, X q → h.times q = times q) call fun _ => True := by
  apply Proc.Keeps.of_invariant
  intro h htimes q hq
  have hsteady := (hcall h).final (Steady.refl h) (fun _ _ hs => hs.1) fun _ hs => hs
  rw [hsteady.times]
  exact htimes q hq

/-- A removal leaves the times of all directories but those at or below the entry, and the one it is in. -/
theorem unlinkRobust_times {F : Faults} {d : Path} {isDir : Bool} {times : Path → Int} (hv : ValidName n) :
    Proc.Keeps (fun h => ∀ q, q ≠ d ∧ ¬ Under d n q → h.times q = times q) (unlinkRobust F d n isDir)
      fun _ => True := by
  have honce : ∀ force, Proc.Keeps (fun h => ∀ q, q ≠ d ∧ ¬ Under d n q → h.times q = times q)
      (unlinkOnce F d n isDir force) fun _ => True := by
    intro force
    unfold unlinkOnce
    split
    · apply Proc.Keeps.of_invariant
      intro h htimes q hq
      obtain ⟨out, hrun, haccounted, -⟩ := rmtreeAt_sound F force false d h hv
      have hhost : (rmtree F force d n h).2 = out.host := by
        unfold rmtree
        rw [hrun]
      rw [hhost, haccounted.times q hq.2 fun k heq => hq.1 (List.append_inj_left' heq rfl)]
      exact htimes q hq
    · apply Triple.act
      · intro h fs htimes hfs
        have hget := (Fs.unlinkAt_ok hfs).2
        rw [Fs.locate_valid hv] at hget
        refine ⟨fun q hq => ?_, trivial⟩
        rw [← htimes q hq]
        apply Host.turn_times
        · rintro ⟨m, hm⟩
          rw [hget] at hm
          split at hm
          · cases hm
          · exact ⟨m, hm⟩
        · intro k
          have hne : q ++ [k] ≠ d ++ [n] := fun heq => hq.1 (List.append_inj_left' heq rfl)
          rw [hget, if_neg hne]
      · intro h htimes _
        exact htimes
  exact persistently_spec (keeps_times fun _ => makeWritable_steady) (honce false) (honce true)

/-- A target's own turn. -/
theorem removeTarget_spec {isDir : Bool} {E : Host → Prop} (hv : ValidName n) (hdir : s.fs.IsDir (dst ++ p))
    (hr : Reachable T c) (hx : (p ++ [n], isDir) ∈ T) :
    Proc.Triple (Same s) (reported (unlinkRobust K.prunes (dst ++ p) n isDir) (p ++ [n]) c)
      (fun c' h' => Pruned K T dst p (Covers p [n]) s c h' c') E := by
  -- what the unlink may change is the directory's mode and what stands under the name
  have hcut : ∀ h h', Same s h → Near h (dst ++ p) (Under (dst ++ p) n) h' →
      (∀ q, q ≠ dst ++ p ∧ ¬ Under (dst ++ p) n q → h'.times q = s.times q) →
      Cut T dst p (Covers p [n]) s h' := by
    intro h h' hs hn htimes
    refine ⟨fun x hx' => ?_, fun q hne hcover => (hn.other hne hcover).trans (hs.get _), fun q hne hcover => ?_,
      fun q hq => ?_⟩
    · rw [← hs.get x]
      apply hn.within.now
      rintro (rfl | hunder)
      · exact hx' (List.prefix_refl _)
      · exact hx' ((List.prefix_append _ _).trans hunder)
    · refine htimes _ ⟨fun heq => hne (List.append_cancel_left heq), fun hunder => hcover ?_⟩
      unfold Under at hunder
      rw [List.append_assoc, List.prefix_append_right_inj] at hunder
      exact ⟨n, List.mem_singleton.mpr rfl, hunder⟩
    · by_cases hqp : q = p
      · subst hqp
        obtain ⟨m, hm⟩ := hdir
        obtain ⟨m', hm'⟩ := hn.isDir ⟨m, (hs.get _).trans hm⟩
        unfold bare
        rw [hm, hm']
        rfl
      · unfold bare
        rw [hn.other hqp, hs.get]
        rintro ⟨k, hk, hpre⟩
        rw [List.mem_singleton.mp hk] at hpre
        exact hq ⟨_, hx, hpre⟩
  have hmodes : ∀ q, Covers p [n] q → Targeted T q := by
    rintro q ⟨k, hk, hpre⟩
    rw [List.mem_singleton.mp hk] at hpre
    exact ⟨_, hx, hpre⟩
  -- no target is below another
  have honly : ∀ x ∈ T, Covers p [n] x.1 → x.1 = p ++ [n] := by
    rintro x hx' ⟨k, hk, hpre⟩
    rw [List.mem_singleton.mp hk] at hpre
    by_contra hne
    exact (hr x hx' _ (by simp) hpre fun heq => hne heq.symm).2 _ hx
  unfold reported
  intro h hs
  have hrun : Proc.Triple (Near h (dst ++ p) (Under (dst ++ p) n))
      (unlinkRobust K.prunes (dst ++ p) n isDir)
      (fun _ h' => Near h (dst ++ p) (Under (dst ++ p) n) h' ∧ h'.fs.get (dst ++ p ++ [n]) = none)
      (Near h (dst ++ p) (Under (dst ++ p) n)) := unlinkRobust_spec isDir hv
  have hdates : Proc.Keeps (fun h' => ∀ q, q ≠ dst ++ p ∧ ¬ Under (dst ++ p) n q → h'.times q = s.times q)
      (unlinkRobust K.prunes (dst ++ p) n isDir) fun _ => True := unlinkRobust_times hv
  apply Proc.Triple.bind (Proc.Triple.attempt (hrun.both hdates)) ?_ h ⟨Near.refl _ _ _, fun q _ => congrFun hs.times q⟩
  intro result
  -- the unlink is refused: the target stays, and is noted
  cases result with
  | error e =>
    apply Proc.Triple.pure
    rintro h' ⟨hn, htimes⟩
    refine ⟨hcut h h' hs hn htimes, notes_noteFailure hx, fun _ _ q hq hnot => absurd (hmodes q hq) hnot,
      fun _ _ q hq hnot => absurd (hmodes q hq) hnot, fun _ x hx' hC _ => .inr ?_⟩
    rw [honly x hx' hC]
    exact mem_noteFailure _ _
  -- it succeeds, and nothing stands under the name
  | ok u =>
    apply Proc.Triple.pure
    rintro h' ⟨⟨hn, hnone⟩, htimes, -⟩
    refine ⟨hcut h h' hs hn htimes, Notes.refl c, fun _ _ q hq hnot => absurd (hmodes q hq) hnot,
      fun _ _ q hq hnot => absurd (hmodes q hq) hnot, fun _ x hx' hC _ => .inl ?_⟩
    rw [honly x hx' hC, ← List.append_assoc]
    exact hnone

/-- What a directory was given back, and that all else was left. -/
structure Restored (K : Kernel) (d : Path) (saved : Option DirStat) (h h' : Host) : Prop where
  rest : ∀ x, x ≠ d → h'.fs.get x = h.fs.get x
  undated : ∀ x, x ≠ d → h'.times x = h.times x
  there : h'.fs.IsDir d
  given : K.Obeys → ∀ stat, saved = some stat → h'.fs.get d = some (.dir stat.mode) ∧ h'.times d = stat.mtime
  unsaved : saved = none → h'.fs.get d = h.fs.get d ∧ h'.times d = h.times d

/-- **A directory's mode and time are put back.** -/
theorem restoreDirMetadata_spec {d : Path} {saved : Option DirStat} {E : Host → Prop} (hd : h.fs.IsDir d) :
    Proc.Triple (fun h' => h' = h) (restoreDirMetadata K d saved) (fun _ h' => Restored K d saved h h') E := by
  rintro s rfl
  cases saved with
  | none => exact ⟨fun _ _ => rfl, fun _ _ => rfl, hd, nofun, fun _ => ⟨rfl, rfl⟩⟩
  | some stat =>
    have hset : Proc.Triple (fun h' => h'.times = s.times) (copyDirMetadata K.toKernel d stat) _ E :=
      copyDirMetadata_times
    refine (((copyDirMetadata_spec hd).both hset).conseq (fun _ hh => hh) ?_ fun _ hh => hh.1) s
      ⟨Within.refl _ _, rfl⟩
    rintro _ h' ⟨⟨hw, m, hm, hmode⟩, htimes, htime⟩
    refine ⟨fun x hx => hw.now x hx, htimes, ⟨m, hm⟩, fun hobeys k hk => ?_, nofun⟩
    rw [hm, hmode hobeys, htime hobeys, Option.some.inj hk]
    exact ⟨rfl, rfl⟩

/-- What was removed from a directory, and then its mode and its time. -/
theorem Pruned.restored {saved : Option DirStat} (hn : ∀ b, (p ++ [n], b) ∉ T)
    (hr : Reachable T c) (hdir : s.fs.IsDir (dst ++ (p ++ [n])))
    (hp : Pruned K T dst (p ++ [n]) (Below (p ++ [n])) s c h₂ c₂)
    (hknown : Granted K.looks → ModeKnown dst (p ++ [n]) s h₂ saved)
    (hrest : Restored K (dst ++ (p ++ [n])) saved h₂ h') : Pruned K T dst p (Covers p [n]) s c h' c₂ := by
  have hne : ∀ q, q ≠ p ++ [n] → dst ++ q ≠ dst ++ (p ++ [n]) := fun q hq heq => hq (List.append_cancel_left heq)
  have hother : ∀ q, q ≠ p ++ [n] → h'.fs.get (dst ++ q) = h₂.fs.get (dst ++ q) := fun q hq =>
    hrest.rest _ (hne q hq)
  -- the directory's own entry is set by the restoring, what is below it by the level
  have hself : ∀ q, Below (p ++ [n]) q → q ≠ p ++ [n] := by
    rintro _ ⟨t, ht, rfl⟩ heq
    exact ht (List.append_right_eq_self.mp heq)
  have hcover : ∀ q, Covers p [n] q → q = p ++ [n] ∨ Below (p ++ [n]) q := by
    rintro q ⟨k, hk, t, rfl⟩
    rw [List.mem_singleton.mp hk]
    cases t with
    | nil => exact .inl (List.append_nil _)
    | cons d t => exact .inr ⟨d :: t, List.cons_ne_nil d t, rfl⟩
  have hcovered : ∀ q, q = p ++ [n] ∨ Below (p ++ [n]) q → Covers p [n] q := by
    rintro q (rfl | ⟨t, -, rfl⟩)
    · exact ⟨n, List.mem_singleton.mpr rfl, List.prefix_refl _⟩
    · exact ⟨n, List.mem_singleton.mpr rfl, List.prefix_append _ _⟩
  have hfar : ∀ x, ¬ dst ++ (p ++ [n]) <+: x → h'.fs.get x = s.fs.get x := by
    intro x hx
    rw [hrest.rest x fun heq => hx (heq ▸ List.prefix_refl _)]
    exact hp.cut.outside x hx
  refine ⟨⟨fun x hx => hfar x fun hpre => hx ?_, fun q _ hq => hfar _ fun hpre => hq ?_, fun q _ hq => ?_,
    fun q hq => ?_⟩, hp.notes, fun hF hobeys q hq hqnot => ?_, fun hF hobeys q hq hqnot => ?_,
    fun hF x hx hC hsome => ?_⟩
  · rw [← List.append_assoc] at hpre
    exact (List.prefix_append _ _).trans hpre
  · rw [List.prefix_append_right_inj] at hpre
    exact ⟨n, List.mem_singleton.mpr rfl, hpre⟩
  · have hqn : q ≠ p ++ [n] := fun heq => hq (hcovered q (.inl heq))
    rw [hrest.undated _ (hne q hqn)]
    exact hp.cut.undated q hqn fun hbelow => hq (hcovered q (.inr hbelow))
  · by_cases hqn : q = p ++ [n]
    · subst hqn
      obtain ⟨m, hm⟩ := hdir
      obtain ⟨m', hm'⟩ := hrest.there
      unfold bare
      rw [hm, hm']
      rfl
    · have hsame : bare h'.fs (dst ++ q) = bare h₂.fs (dst ++ q) := by
        unfold bare
        rw [hother q hqn]
      rw [hsame]
      exact hp.cut.spared q hq
  -- the mode of the directory is the one read before, or it was not touched
  · rcases hcover q hq with rfl | hbelow
    · rcases hknown hF with ⟨rfl, hsame, -⟩ | ⟨stat, rfl, hm, -⟩
      · rw [(hrest.unsaved rfl).1, hsame]
      · rw [(hrest.given hobeys stat rfl).1, hm]
    · rw [hother q (hself q hbelow)]
      exact hp.modes hF hobeys q hbelow hqnot
  -- so is its time
  · rcases hcover q hq with rfl | hbelow
    · rcases hknown hF with ⟨rfl, -, hsame⟩ | ⟨stat, rfl, -, htime⟩
      · rw [(hrest.unsaved rfl).2, hsame]
      · rw [(hrest.given hobeys stat rfl).2, htime]
    · rw [hrest.undated _ (hne q (hself q hbelow))]
      exact hp.times hF hobeys q hbelow hqnot
  -- a target below it is not the directory itself
  · have hbelow := (target_below hr hx hn hC).1
    rw [hother]
    · exact hp.gone hF x hx hbelow hsome
    · intro heq
      exact hn x.2 (heq ▸ hx)

/-- **A directory that is no target.** -/
theorem removeBelow_spec {level : Path → Path → Ctx → HostSys (Ctx × Option DirStat)}
    (hlevel : RemoveSpec K T dst level (p ++ [n])) (hv : ValidName n) (hdir : s.fs.IsDir (dst ++ (p ++ [n])))
    (hp : ¬ Targeted T p) (hn : ∀ b, (p ++ [n], b) ∉ T) (hr : Reachable T c) :
    Proc.Triple (Same s) (removeBelow K level p (dst ++ p) n c)
      (fun c' h' => Pruned K T dst p (Covers p [n]) s c h' c') (Cut T dst p (Covers p [n]) s) := by
  have hnot := not_targeted_name hp hn
  have hup : ∀ h', Cut T dst (p ++ [n]) (Below (p ++ [n])) s h' → Cut T dst p (Covers p [n]) s h' := by
    intro h' hc
    refine ⟨fun x hx => hc.outside x fun hpre => hx ?_, fun q _ hq => hc.outside _ fun hpre => hq ?_,
      fun q _ hq => hc.undated q (fun heq => hq ?_) fun hbelow => hq ?_, hc.spared⟩
    · rw [← List.append_assoc] at hpre
      exact (List.prefix_append _ _).trans hpre
    · rw [List.prefix_append_right_inj] at hpre
      exact ⟨n, List.mem_singleton.mpr rfl, hpre⟩
    · exact ⟨n, List.mem_singleton.mpr rfl, heq ▸ List.prefix_refl _⟩
    · obtain ⟨t, -, rfl⟩ := hbelow
      exact ⟨n, List.mem_singleton.mpr rfl, List.prefix_append _ _⟩
  unfold removeBelow
  apply Proc.Triple.bind (Proc.Triple.attempt (openDir_looks hv))
  intro opened
  cases opened with
  -- a directory that does not open, with no look refused, is none
  | error e =>
    apply Proc.Triple.pure
    rintro h' ⟨hs, hwhy⟩
    refine Pruned.refl hs fun hF => ?_
    have hnodir := hwhy hF
    rw [List.append_assoc] at hnodir
    exact absurd hdir hnodir
  | ok sub =>
    apply Proc.Triple.assuming
    rintro rfl
    have hrun := hlevel s c hdir hnot hr
    rw [← List.append_assoc] at hrun
    -- the level reports what it removed, and the directory's mode and time as they were
    apply Proc.Triple.bind (hrun.conseq (fun _ hs => hs) (fun _ _ hh => hh) hup)
    intro x
    unfold popLevel
    apply Proc.Triple.bind (Q := fun _ h₂ => Pruned K T dst (p ++ [n]) (Below (p ++ [n])) s c h₂ x.1 ∧
      (Granted K.looks → ModeKnown dst (p ++ [n]) s h₂ x.2))
    · apply Triple.query
      · rintro h₂ _ ⟨hpr, hknown⟩ _
        exact ⟨⟨hpr.cut.tick, hpr.notes, hpr.modes, hpr.times, hpr.gone⟩, hknown⟩
      · rintro h₂ ⟨hpr, -⟩
        exact (hup h₂ hpr.cut).tick
    · rintro _ h₂ ⟨hpr, hknown⟩
      have hthere : h₂.fs.IsDir (dst ++ (p ++ [n])) := hpr.cut.isDir hdir hnot
      rw [List.append_assoc]
      apply Proc.Triple.bind (restoreDirMetadata_spec hthere) ?_ h₂ rfl
      intro _
      exact Proc.Triple.pure fun _ hrest => hpr.restored hn hr hdir hknown hrest

/-- **One entry of the destination**, by what the pass knows of it. -/
theorem removeExtra_spec {level : Path → Path → Ctx → HostSys (Ctx × Option DirStat)}
    (hlevel : RemoveSpec K T dst level (p ++ [n])) (hv : ValidName n) (hdir : s.fs.IsDir (dst ++ p))
    (hp : ¬ Targeted T p) (hr : Reachable T c) :
    Proc.Triple (Same s) (removeExtra K T level p (dst ++ p) n c)
      (fun c' h' => Pruned K T dst p (Covers p [n]) s c h' c') (Cut T dst p (Covers p [n]) s) := by
  unfold removeExtra
  split
  -- a target is unlinked with all below it
  · rename_i isDir hlookup
    obtain ⟨before, after, hT, -⟩ := List.lookup_eq_some_iff.mp hlookup
    exact removeTarget_spec hv hdir hr (by rw [hT]; simp)
  · rename_i hlookup
    have hn : ∀ b, (p ++ [n], b) ∉ T := by
      intro b hx
      rw [List.lookup_eq_none_iff] at hlookup
      have := hlookup _ hx
      simp at this
    split
    -- a noted path has no target below it
    · rename_i hskip
      refine Proc.Triple.pure fun h' hs => Pruned.refl hs fun _ x hx hC => ?_
      exact absurd hskip (target_below hr hx hn hC).2
    · apply Proc.Triple.bind (Proc.Triple.attempt (lstat_looks hv))
      intro result
      cases result with
      -- what cannot be looked at has nothing below it
      | error e =>
        apply Proc.Triple.pure
        rintro h' ⟨hs, hwhy⟩
        refine Pruned.refl hs fun hF x hx hC => ?_
        obtain ⟨t, ht, heq⟩ := (target_below hr hx hn hC).1
        have hnone := hwhy hF
        rw [heq, ← List.append_assoc, ← List.append_assoc]
        apply Fs.get_append_eq_none ht
        rintro ⟨m, hm⟩
        rw [hnone] at hm
        cases hm
      | ok e =>
        apply Proc.Triple.assuming
        intro he
        rw [List.append_assoc] at he
        -- nor has what is no directory
        have hother : e.isDir = false → Proc.Triple (Same s) (pure c : HostSys Ctx)
            (fun c' h' => Pruned K T dst p (Covers p [n]) s c h' c') (Cut T dst p (Covers p [n]) s) := by
          intro hedir
          refine Proc.Triple.pure fun h' hs => Pruned.refl hs fun _ x hx hC => ?_
          obtain ⟨t, ht, heq⟩ := (target_below hr hx hn hC).1
          rw [heq, ← List.append_assoc]
          apply Fs.get_append_eq_none ht
          rintro ⟨m, hm⟩
          rw [he, Option.some.injEq] at hm
          rw [hm] at hedir
          cases hedir
        cases e with
        | dir m => exact removeBelow_spec hlevel hv ⟨m, he⟩ hp hn hr
        | file i data => exact hother rfl
        | symlink target => exact hother rfl

/-- One entry after the others. -/
theorem Pruned.cons (hfresh : n ∉ names) (hpr : Pruned K T dst p (Covers p [n]) s c h₁ c₁)
    (hpr' : Pruned K T dst p (Covers p names) h₁ c₁ h₂ c₂) :
    Pruned K T dst p (Covers p (n :: names)) s c h₂ c₂ := by
  have hsplit : ∀ q, Covers p (n :: names) q →
      Covers p [n] q ∧ ¬ Covers p names q ∨ Covers p names q ∧ ¬ Covers p [n] q := by
    rintro q ⟨k, hk, hpre⟩
    rcases List.mem_cons.mp hk with rfl | hk
    · refine .inl ⟨⟨k, List.mem_singleton.mpr rfl, hpre⟩, ?_⟩
      rintro ⟨j, hj, hpre'⟩
      exact hfresh (prefix_name_unique hpre hpre' ▸ hj)
    · refine .inr ⟨⟨k, hk, hpre⟩, ?_⟩
      rintro ⟨j, hj, hpre'⟩
      rw [List.mem_singleton.mp hj] at hpre'
      exact hfresh (prefix_name_unique hpre hpre' ▸ hk)
  have hlevel : ∀ {ns q}, Covers p ns q → q ≠ p := by
    rintro ns q ⟨k, -, t, rfl⟩
    exact level_ne
  refine ⟨?_, hpr.notes.trans hpr'.notes, fun hF hobeys q hq hnot => ?_, fun hF hobeys q hq hnot => ?_,
    fun hF x hx hC hsome => ?_⟩
  · apply hpr.cut.trans hpr'.cut
    rintro q (⟨k, hk, hpre⟩ | ⟨k, hk, hpre⟩)
    · exact ⟨k, by simp [List.mem_singleton.mp hk], hpre⟩
    · exact ⟨k, List.mem_cons_of_mem n hk, hpre⟩
  · rcases hsplit q hq with ⟨hfirst, hrest⟩ | ⟨hrest, hfirst⟩
    · rw [hpr'.cut.untouched q (hlevel hfirst) hrest]
      exact hpr.modes hF hobeys q hfirst hnot
    · rw [hpr'.modes hF hobeys q hrest hnot]
      exact hpr.cut.untouched q (hlevel hrest) hfirst
  · rcases hsplit q hq with ⟨hfirst, hrest⟩ | ⟨hrest, hfirst⟩
    · rw [hpr'.cut.undated q (hlevel hfirst) hrest]
      exact hpr.times hF hobeys q hfirst hnot
    · rw [hpr'.times hF hobeys q hrest hnot]
      exact hpr.cut.undated q (hlevel hrest) hfirst
  · rcases hsplit x.1 hC with ⟨hfirst, hrest⟩ | ⟨hrest, hfirst⟩
    · rw [hpr'.cut.untouched x.1 (hlevel hfirst) hrest]
      exact (hpr.gone hF x hx hfirst hsome).imp_right (hpr'.notes.skipped _)
    · have hsame := hpr.cut.untouched x.1 (hlevel hrest) hfirst
      exact hpr'.gone hF x hx hrest (by rwa [hsame])

/-- The removal over the names of a directory, from the removal over each of them. -/
theorem removeNames_spec {level : Path → Path → Ctx → HostSys (Ctx × Option DirStat)}
    (hlevel : ∀ n ∈ names, RemoveSpec K T dst level (p ++ [n])) (hv : ∀ n ∈ names, ValidName n)
    (hnodup : names.Nodup) (hdir : s.fs.IsDir (dst ++ p)) (hp : ¬ Targeted T p) (hr : Reachable T c) :
    Proc.Triple (Same s) (.thread (removeExtra K T level p (dst ++ p)) names c)
      (fun c' h' => Pruned K T dst p (Covers p names) s c h' c') (Cut T dst p (Covers p names) s) := by
  induction names generalizing s c with
  | nil =>
    apply Proc.Triple.pure
    intro h' hs
    refine Pruned.refl hs ?_
    rintro - x - ⟨k, hk, -⟩
    cases hk
  | cons n names ih =>
    rw [List.nodup_cons] at hnodup
    show Proc.Triple _ (removeExtra K T level p (dst ++ p) n c >>= fun c₁ =>
      Proc.thread (removeExtra K T level p (dst ++ p)) names c₁) _ _
    have hcovers : ∀ q, Covers p [n] q → Covers p (n :: names) q := by
      rintro q ⟨k, hk, hpre⟩
      exact ⟨k, by simp [List.mem_singleton.mp hk], hpre⟩
    have hone := removeExtra_spec (hlevel n List.mem_cons_self) (hv n List.mem_cons_self) hdir hp hr
    apply Proc.Triple.bind (hone.conseq (fun _ hs => hs) (fun _ _ hpr => hpr) fun _ hc => hc.mono hcovers)
    intro c₁ h₁ hpr
    refine ((ih (fun k hk => hlevel k (List.mem_cons_of_mem n hk)) (fun k hk => hv k (List.mem_cons_of_mem n hk))
      hnodup.2 (hpr.cut.isDir hdir hp) (hr.notes hpr.notes)).conseq (fun _ hs => hs)
      (fun c₂ h₂ hpr' => hpr.cons hnodup.1 hpr') fun h₂ hc => ?_) h₁ (Same.refl h₁)
    apply hpr.cut.trans hc
    rintro q (hq | ⟨k, hk, hpre⟩)
    · exact hcovers q hq
    · exact ⟨k, List.mem_cons_of_mem n hk, hpre⟩

/-- What the names of a directory cover is below it. -/
theorem covers_below {q : Path} (hq : Covers p names q) : Below p q := hq.below

/-- **What a level and all below it remove**: every target is removed or noted. -/
theorem removeExtrasAt_spec (depth : Nat) (hT : ∀ x ∈ T, (dst ++ x.1).length ≤ depth) (k : Nat)
    (hk : depth < (dst ++ p).length + k) : RemoveSpec K T dst (removeExtrasAt K T k) p := by
  induction k generalizing p with
  -- no target is this deep
  | zero =>
    intro s c hdir hp hr
    apply Proc.Triple.pure
    intro h' hs
    refine ⟨Pruned.refl hs ?_, fun _ => .inl ⟨rfl, hs.get _, congrFun hs.times _⟩⟩
    rintro - x hx ⟨t, -, heq⟩
    have hlen := hT x hx
    rw [heq, ← List.append_assoc, List.length_append] at hlen
    omega
  | succ k ih =>
    intro s c hdir hp hr
    unfold removeExtrasAt
    apply Proc.Triple.bind listingAt_spec
    intro names
    apply Proc.Triple.assuming
    rintro ⟨hnodup, hthere, hall⟩
    -- the mode and the time are read before anything is removed
    have hmode : Proc.Triple (Same s) (fstatDir K.looks (dst ++ p)).optional
        (fun saved h' => Same s h' ∧ (Granted K.looks → ∃ stat, saved = some stat ∧
          s.fs.get (dst ++ p) = some (.dir stat.mode) ∧ s.times (dst ++ p) = stat.mtime))
        (Cut T dst p (Below p) s) := by
      have hstat : Proc.Triple (Same s) (fstatDir K.looks (dst ++ p))
          (fun stat h' => Same s h' ∧ s.fs.get (dst ++ p) = some (.dir stat.mode) ∧
            s.times (dst ++ p) = stat.mtime)
          (fun h' => Same s h' ∧ ¬ Granted K.looks) := by
        apply fstatDir_spec
        · intro h' stat hs hm htime
          exact ⟨hs.tick, (hs.get _).symm.trans hm, by rw [htime, hs.times]⟩
        · intro h' hs hwhy
          obtain ⟨m, hm⟩ := hdir
          exact ⟨hs.tick, fun hF => hwhy (hF _) ⟨m, (hs.get _).trans hm⟩⟩
      unfold Proc.optional
      refine Proc.Triple.handle (Proc.Triple.bind hstat fun stat => ?_) fun e => ?_
      · exact Proc.Triple.pure fun _ hh => ⟨hh.1, fun _ => ⟨stat, rfl, hh.2⟩⟩
      · exact Proc.Triple.pure fun _ hh => ⟨hh.1, fun hF => absurd hF hh.2⟩
    apply Proc.Triple.bind hmode
    intro saved
    apply Proc.Triple.assuming
    intro hsaved
    have hlevels : ∀ n ∈ names, RemoveSpec K T dst (removeExtrasAt K T k) (p ++ [n]) := by
      intro n _
      apply ih
      rw [← List.append_assoc, List.length_append, List.length_singleton]
      omega
    have hv : ∀ n ∈ names, ValidName n := by
      intro n hn
      obtain ⟨e, he⟩ := Option.ne_none_iff_exists'.mp (hthere n hn)
      exact Fs.validName_of_get he
    have hloop := removeNames_spec hlevels hv hnodup hdir hp hr
    apply Proc.Triple.bind (hloop.conseq (fun _ hs => hs) (fun _ _ hpr => hpr) fun _ hc =>
      hc.mono fun _ => covers_below)
    intro c'
    apply Proc.Triple.pure
    intro h' hpr
    -- what the level does not list is not there, or the listing was refused
    have hlisted : Granted K.looks → ∀ q, Below p q → s.fs.get (dst ++ q) ≠ none → Covers p names q := by
      rintro hF q ⟨t, ht, rfl⟩ hsome
      obtain ⟨n, t, rfl⟩ := List.exists_cons_of_ne_nil ht
      refine ⟨n, hall hF n ?_, t, by simp⟩
      by_cases hnil : t = []
      · subst hnil
        rw [List.append_assoc]
        exact hsome
      · apply some_of_isDir
        rw [List.append_assoc]
        apply isDir_above hnil
        rw [show dst ++ (p ++ [n]) ++ t = dst ++ (p ++ n :: t) by simp]
        exact hsome
    have hself : ∀ q, Below p q → q ≠ p := by
      rintro _ ⟨t, ht, rfl⟩ heq
      exact ht (List.append_right_eq_self.mp heq)
    refine ⟨⟨hpr.cut.mono fun _ => covers_below, hpr.notes, fun hF hobeys q hq hnot => ?_,
      fun hF hobeys q hq hnot => ?_, fun hF x hx hC hsome => hpr.gone hF x hx (hlisted hF _ hC hsome) hsome⟩,
      fun hF => .inr (hsaved hF)⟩
    -- what the loop does not cover is as it was
    · by_cases hcover : Covers p names q
      · exact hpr.modes hF hobeys q hcover hnot
      · exact hpr.cut.untouched q (hself q hq) hcover
    · by_cases hcover : Covers p names q
      · exact hpr.times hF hobeys q hcover hnot
      · exact hpr.cut.undated q (hself q hq) hcover

end Removing

/-! ## The pass -/

/-- At or below an orphan. -/
def Doomed (c : Ctx) (dst : Path) (fs : Fs) (q : Path) : Prop := ∃ t, Orphan c dst fs [] t ∧ t <+: q

/-- What the pass leaves alone, whether it fails or not. -/
structure Spared (c : Ctx) (dst : Path) (fs : Fs) (h' : Host) : Prop where
  outside : ∀ x, ¬ dst <+: x → h'.fs.get x = fs.get x
  bare : ∀ q, ¬ Doomed c dst fs q → bare h'.fs (dst ++ q) = bare fs (dst ++ q)

/-- What the pass has done. -/
structure Swept (K : Kernel) (c : Ctx) (dst : Path) (s h' : Host) (c' : Ctx) : Prop where
  spared : Spared c dst s.fs h'
  modes : Granted K.looks → K.Obeys → ∀ q, ¬ Doomed c dst s.fs q → h'.fs.get (dst ++ q) = s.fs.get (dst ++ q)
  times : Granted K.looks → K.Obeys → ∀ q, ¬ Doomed c dst s.fs q → h'.times (dst ++ q) = s.times (dst ++ q)
  gone : Granted K.looks → ∀ t, Orphan c dst s.fs [] t → h'.fs.get (dst ++ t) = none ∨ t ∈ c'.skippedRels
  quiet : c'.failures = c.failures → c'.skippedRels = c.skippedRels

section Pass

variable {K : Kernel} {T : Extras} {src dst : Path} {S fs : Fs} {s h h₁ h₂ h' : Host} {c c' : Ctx}

/-- What was collected are orphans, which nothing is in the way of. -/
theorem reachable_of_orphans (hT : ∀ x ∈ T, Orphan c dst fs [] x.1) : Reachable T c := by
  intro x hx r hne hpre hother
  have ho := hT x hx
  refine ⟨ho.spared r (below_nil.mpr hne) hpre, fun b hb => ?_⟩
  exact (hT _ hb).unseen (ho.seen r (below_nil.mpr hne) hpre hother)

/-- Where every target is an orphan, what the removal goes to is doomed. -/
theorem doomed_of_targeted {q : Path} (hT : ∀ x ∈ T, Orphan c dst fs [] x.1) (hq : Targeted T q) :
    Doomed c dst fs q := by
  obtain ⟨x, hx, hpre⟩ := hq
  exact ⟨x.1, hT x hx, hpre⟩

/-- The directory of a transfer gets back the mode and the time it had. -/
theorem swept_of_pruned {saved : Option DirStat} (hT : ∀ x ∈ T, Orphan c dst s.fs [] x.1)
    (hall : Granted K.looks → ∀ t, Orphan c dst s.fs [] t → ∃ b, (t, b) ∈ T)
    (hp : Pruned K T dst [] (Below []) s c h₂ c') (hknown : Granted K.looks → ModeKnown dst [] s h₂ saved)
    (hdir : s.fs.IsDir dst) (hrest : Restored K dst saved h₂ h') : Swept K c dst s h' c' := by
  have hne : ∀ q, q ≠ [] → dst ++ q ≠ dst := fun q hq heq => hq (List.append_right_eq_self.mp heq)
  have hother : ∀ q, q ≠ [] → h'.fs.get (dst ++ q) = h₂.fs.get (dst ++ q) := fun q hq => hrest.rest _ (hne q hq)
  unfold ModeKnown at hknown
  rw [List.append_nil] at hknown
  refine ⟨⟨fun x hx => ?_, fun q hq => ?_⟩, fun hF hobeys q hq => ?_, fun hF hobeys q hq => ?_, fun hF t ho => ?_,
    hp.notes.quiet⟩
  · rw [hrest.rest x fun heq => hx (heq ▸ List.prefix_refl _)]
    exact hp.cut.outside x (by rwa [List.append_nil])
  -- the destination itself is no target; its entry is the one restored
  · by_cases hnil : q = []
    · subst hnil
      rw [List.append_nil]
      obtain ⟨m, hm⟩ := hdir
      obtain ⟨m', hm'⟩ := hrest.there
      unfold Removal.bare
      rw [hm, hm']
      rfl
    · have hsame : Removal.bare h'.fs (dst ++ q) = Removal.bare h₂.fs (dst ++ q) := by
        unfold Removal.bare
        rw [hother q hnil]
      rw [hsame]
      exact hp.cut.spared q fun ht => hq (doomed_of_targeted hT ht)
  -- modes come back, and below the destination they are what the levels left
  · by_cases hnil : q = []
    · subst hnil
      rw [List.append_nil]
      rcases hknown hF with ⟨hsaved, hsame, -⟩ | ⟨stat, hsaved, hm, -⟩
      · rw [(hrest.unsaved hsaved).1, hsame]
      · rw [(hrest.given hobeys stat hsaved).1, hm]
    · rw [hother q hnil]
      exact hp.modes hF hobeys q (below_nil.mpr hnil) fun ht => hq (doomed_of_targeted hT ht)
  -- so do times
  · by_cases hnil : q = []
    · subst hnil
      rw [List.append_nil]
      rcases hknown hF with ⟨hsaved, -, hsame⟩ | ⟨stat, hsaved, -, htime⟩
      · rw [(hrest.unsaved hsaved).2, hsame]
      · rw [(hrest.given hobeys stat hsaved).2, htime]
    · rw [hrest.undated _ (hne q hnil)]
      exact hp.times hF hobeys q (below_nil.mpr hnil) fun ht => hq (doomed_of_targeted hT ht)
  · obtain ⟨b, hb⟩ := hall hF t ho
    obtain ⟨r, hr, hrt⟩ := ho.below
    rw [hother t (by rw [hrt]; exact hr)]
    exact hp.gone hF _ hb ho.below ho.there

/-- **The third pass.** -/
theorem prune_spec (hdst : h.fs.IsDir dst) (hread : c.rootUnreadable = false) :
    Proc.Triple (fun s => s = h) (prune K dst c) (fun c' h' => Swept K c dst h h' c')
      (Spared c dst h.fs) := by
  rintro s rfl
  have hdepth : ∀ q, s.fs.get q ≠ none → q.length ≤ Dirfd.depth s.fs := by
    intro q hq
    obtain ⟨e, he⟩ := Option.ne_none_iff_exists'.mp hq
    exact Dirfd.length_le_depth he
  have hroot : s.fs.IsDir (dst ++ []) := by
    rw [List.append_nil]
    exact hdst
  have hcollect : CollectSpec K c dst s (collectExtrasAt K c (Dirfd.depth s.fs + 1)) [] :=
    collectExtrasAt_spec (Dirfd.depth s.fs) hdepth _ (by omega)
  -- first the orphans are collected, and nothing changes
  have hfirst := hcollect [] hroot
  rw [List.append_nil] at hfirst
  have hstill : ∀ h', Same s h' → Spared c dst s.fs h' := fun h' hs =>
    ⟨fun x _ => hs.get x, fun q _ => by unfold Removal.bare; rw [hs.get]⟩
  unfold prune
  rw [if_neg (by rw [hread]; decide)]
  apply Proc.Triple.bind (hfirst.conseq (fun _ hs => hs) (fun _ _ hh => hh) hstill) ?_ s (Same.refl s)
  intro T
  apply Proc.Triple.assuming
  intro hc
  have hT : ∀ x ∈ T, Orphan c dst s.fs [] x.1 := by
    intro x hx
    rcases hc.sound x hx with hnil | ho
    · cases hnil
    · exact ho
  have hall : Granted K.looks → ∀ t, Orphan c dst s.fs [] t → ∃ b, (t, b) ∈ T := fun hF t ho =>
    hc.complete hF t ho.below ho
  have huntargeted : ¬ Targeted T [] := by
    -- the destination itself is never one of them
    rintro ⟨x, hx, hpre⟩
    obtain ⟨r, hr, hrx⟩ := (hT x hx).below
    rw [List.prefix_nil.mp hpre] at hrx
    exact hr hrx.symm
  have hremove : RemoveSpec K T dst (removeExtrasAt K T (Dirfd.depth s.fs + 1)) [] :=
    removeExtrasAt_spec (Dirfd.depth s.fs) (fun x hx => hdepth _ (hT x hx).there) _ (by omega)
  -- then they are removed, level by level
  have hsecond := hremove s c hroot huntargeted (reachable_of_orphans hT)
  rw [List.append_nil] at hsecond
  have hcut : ∀ h', Cut T dst [] (Below []) s h' → Spared c dst s.fs h' := fun h' hc' =>
    ⟨fun x hx => hc'.outside x (by rwa [List.append_nil]),
      fun q hq => hc'.spared q fun ht => hq (doomed_of_targeted hT ht)⟩
  apply Proc.Triple.bind (hsecond.conseq (fun _ hs => hs) (fun _ _ hh => hh) hcut)
  rintro ⟨c', saved⟩ h₂ ⟨hp, hknown⟩
  have hthere : h₂.fs.IsDir dst := by
    have := hp.cut.isDir hroot huntargeted
    rwa [List.append_nil] at this
  -- and the destination gets its own mode and time back
  apply Proc.Triple.bind (restoreDirMetadata_spec hthere) ?_ h₂ rfl
  intro _
  exact Proc.Triple.pure fun _ hrest => swept_of_pruned hT hall hp hknown hdst hrest

/-! ## Exactness -/

/-- An entry of the destination the passes have not seen in the source is at or below an orphan, where
nothing on the way to it was skipped. -/
theorem exists_orphan {q : Path} (hq : q ≠ []) (hthere : fs.get (dst ++ q) ≠ none) (hunseen : q ∉ c.srcRels)
    (hspared : ∀ r ∈ c.skippedRels, ¬ r <+: q) : ∃ t, Orphan c dst fs [] t ∧ t <+: q := by
  classical
  -- the shortest way to it that the source was not seen to have
  have hsome : ∃ k, 0 < k ∧ q.take k ∉ c.srcRels :=
    ⟨q.length, List.length_pos_iff.mpr hq, by rwa [List.take_length]⟩
  obtain ⟨hpos, hfirst⟩ := Nat.find_spec hsome
  have hmin : ∀ k, 0 < k → k < Nat.find hsome → q.take k ∈ c.srcRels := by
    intro k hk hlt
    by_contra hnot
    exact Nat.find_min hsome hlt ⟨hk, hnot⟩
  have hpre : q.take (Nat.find hsome) <+: q := List.take_prefix _ _
  refine ⟨q.take (Nat.find hsome), ⟨below_nil.mpr ?_, ?_, hfirst, fun r _ hr hskip => ?_, fun r hr hrt hne => ?_⟩, hpre⟩
  · intro hnil
    have hlen := congrArg List.length hnil
    rw [List.length_take, List.length_nil] at hlen
    have := List.length_pos_iff.mpr hq
    omega
  · by_cases hwhole : q.drop (Nat.find hsome) = []
    · have := List.take_append_drop (Nat.find hsome) q
      rw [hwhole, List.append_nil] at this
      rwa [this]
    · apply some_of_isDir
      apply isDir_above hwhole
      rwa [List.append_assoc, List.take_append_drop]
  · exact hspared r hskip (hr.trans hpre)
  · have htake : r = q.take r.length := List.prefix_iff_eq_take.mp (hrt.trans hpre)
    rw [htake]
    apply hmin
    · exact List.length_pos_iff.mpr (below_nil.mp hr)
    · have hle := hrt.length_le
      have hlt : r.length ≠ (q.take (Nat.find hsome)).length := fun heq => hne (hrt.eq_of_length heq)
      rw [List.length_take] at hle hlt
      omega

/-- The source has nothing at an orphan, nor below it. -/
theorem Orphan.source_none {t q : Path} (ho : Orphan c dst fs [] t) (hpre : t <+: q)
    (hp : ∀ q, q ≠ [] → S.get (src ++ q) ≠ none →
      q ∈ c.srcRels ∨ (∃ r ∈ c.skippedRels, r ≠ [] ∧ r <+: q) ∨ c.rootUnreadable = true)
    (hread : c.rootUnreadable = false) : S.get (src ++ q) = none := by
  have ht : S.get (src ++ t) = none := by
    by_contra hsome
    rcases hp t (below_nil.mp ho.below) hsome with hseen | ⟨r, hr, hne, hrt⟩ | hroot
    · exact ho.unseen hseen
    · exact ho.spared r (below_nil.mpr hne) hrt hr
    · rw [hread] at hroot
      cases hroot
  obtain ⟨u, rfl⟩ := hpre
  by_cases hu : u = []
  · rwa [hu, List.append_nil]
  · rw [← List.append_assoc]
    apply Fs.get_append_eq_none hu
    rintro ⟨m, hm⟩
    rw [ht] at hm
    cases hm

/-- The pass prunes exactly: what it makes of the destination, `c` being what it goes by, `h₁` where it
begins and `r` how it ends. -/
structure PrunesExactly (K : Kernel) (S : Fs) (src dst : Path) (c : Ctx) (h₁ : Host) (r : Except Errno Ctx × Host) :
    Prop where
  /-- nothing goes where the root of the source could not be listed -/
  unread : c.rootUnreadable = true → ∀ q, bare r.2.fs (dst ++ q) = bare h₁.fs (dst ++ q)
  /-- nor what the source has -/
  kept : ∀ q, S.get (src ++ q) ≠ none → bare r.2.fs (dst ++ q) = bare h₁.fs (dst ++ q)
  /-- nor what is at or below something that was skipped, or is special -/
  skipped : ∀ s q, s ∈ c.skippedRels ∨ Special K.toKernel S (src ++ s) → s <+: q →
    bare r.2.fs (dst ++ q) = bare h₁.fs (dst ++ q)
  /-- all else goes, or is noted -/
  exact : ∀ c', r.1 = .ok c' → Granted K.looks → c.rootUnreadable = false → ∀ q, q ≠ [] → S.get (src ++ q) = none →
    (∀ s ∈ c.skippedRels, ¬ s <+: q) →
    r.2.fs.get (dst ++ q) = none ∨ ∃ t ∈ c'.skippedRels, t ∉ c.skippedRels ∧ t <+: q
  /-- and what is left is as it was, the modes of directories and their times included, where nothing fails -/
  modes : ∀ c', r.1 = .ok c' → Granted K.looks → K.Obeys → c'.failures = c.failures → ∀ q,
    r.2.fs.get (dst ++ q) ≠ none →
      r.2.fs.get (dst ++ q) = h₁.fs.get (dst ++ q) ∧ r.2.times (dst ++ q) = h₁.times (dst ++ q)

/-- The pass that mirrors could list the root of the source, or there is nothing to remove. -/
def Listable (c : Ctx) (dst : Path) (fs : Fs) : Prop :=
  c.rootUnreadable = true ∨ [] ∉ c.skippedRels ∨ ∀ t, ¬ Orphan c dst fs [] t

/-- What the third pass prunes by what the first two know. -/
theorem prunes_of_passed (hdir : S.IsDir src) (hp : Passed K S src dst h c h₁) (hdst : h₁.fs.IsDir dst)
    (hcond : Listable c dst h₁.fs) : PrunesExactly K S src dst c h₁ (prune K dst c h₁) := by
  cases hread : c.rootUnreadable with
  -- with the source unreadable nothing is pruned
  | true =>
    have hrun : prune K dst c h₁ = (.ok c, h₁) := by
      unfold prune
      rw [if_pos hread]
    rw [hrun]
    refine ⟨fun _ _ => rfl, fun _ _ => rfl, fun _ _ _ _ => rfl, fun c' _ _ hnot => ?_,
      fun _ _ _ _ _ _ _ => ⟨rfl, rfl⟩⟩
    rw [hread] at hnot
    cases hnot
  | false =>
    have hspec := prune_spec (K := K) hdst hread h₁ rfl
    -- what the source has is not doomed, nor is what lies below a noted path
    have hsource : ∀ q, S.get (src ++ q) ≠ none → ¬ Doomed c dst h₁.fs q := by
      rintro q hsome ⟨t, ho, hpre⟩
      exact hsome (ho.source_none hpre hp.recorded hread)
    have hskip : ∀ s ∈ c.skippedRels, ∀ q, s <+: q → ¬ Doomed c dst h₁.fs q := by
      rintro s hs q hsq ⟨t, ho, htq⟩
      have hne : s ≠ [] := by
        rintro rfl
        rcases hcond with hroot | hnil | hno
        · rw [hread] at hroot
          cases hroot
        · exact hnil hs
        · exact hno t ho
      rcases Nat.le_total s.length t.length with hle | hle
      · exact ho.spared s (below_nil.mpr hne) (List.prefix_of_prefix_length_le hsq htq hle) hs
      · exact hsource s (hp.noted s hs) ⟨t, ho, List.prefix_of_prefix_length_le htq hsq hle⟩
    have hspared : Spared c dst h₁.fs (prune K dst c h₁).2 := by
      rcases hr : prune K dst c h₁ with ⟨result, h'⟩
      rw [hr] at hspec
      cases result with
      | ok c' => exact hspec.spared
      | error e => exact hspec
    have hswept : ∀ c', (prune K dst c h₁).1 = .ok c' → Swept K c dst h₁ (prune K dst c h₁).2 c' := by
      intro c' hok
      rcases hr : prune K dst c h₁ with ⟨result, h'⟩
      rw [hr] at hspec hok
      cases hok
      exact hspec
    refine ⟨fun hroot => ?_, fun q hsome => hspared.bare q (hsource q hsome), fun s q hs hsq => ?_,
      fun c' hok hF _ q hq hnone hfar => ?_, fun c' hok hF hobeys hquiet q hthere => ?_⟩
    · rw [hread] at hroot
      cases hroot
    -- the paths left aside: those noted, and the special files, which are noted
    · apply hspared.bare q
      rcases hs with hs | hspecial
      · exact hskip s hs q hsq
      · have hne : s ≠ [] := by
          rintro rfl
          rw [List.append_nil] at hspecial
          obtain ⟨⟨i, data, hget⟩, -⟩ := hspecial
          obtain ⟨m, hm⟩ := hdir
          rw [hm] at hget
          cases hget
        obtain ⟨r, hr, hrs⟩ := hp.special s hne hspecial
        exact hskip r hr q (hrs.trans hsq)
    -- an orphan is gone, or its own removal failed and was noted; what the source lacks is an
    -- orphan or below one
    · have hw := hswept c' hok
      have hgone : ∀ t, Orphan c dst h₁.fs [] t → t <+: q → (prune K dst c h₁).2.fs.get (dst ++ q) = none ∨
          ∃ t ∈ c'.skippedRels, t ∉ c.skippedRels ∧ t <+: q := by
        rintro t ho ⟨u, rfl⟩
        rcases hw.gone hF t ho with hgone | hnoted
        · left
          by_cases hu : u = []
          · rwa [hu, List.append_nil]
          · rw [← List.append_assoc]
            apply Fs.get_append_eq_none hu
            rintro ⟨m, hm⟩
            rw [hgone] at hm
            cases hm
        · exact .inr ⟨t, hnoted, ho.spared t ho.below (List.prefix_refl _), List.prefix_append _ _⟩
      by_cases hdoomed : Doomed c dst h₁.fs q
      · obtain ⟨t, ho, hpre⟩ := hdoomed
        exact hgone t ho hpre
      · left
        rw [← bare_eq_none, hw.spared.bare q hdoomed, bare_eq_none]
        by_contra hthere
        exact hdoomed (exists_orphan hq hthere (fun hseen => hp.seen q hseen hnone) hfar)
    -- with no failure every doomed path is gone, so what is there has kept its mode and time
    · have hw := hswept c' hok
      have hleft : ¬ Doomed c dst h₁.fs q := by
        rintro ⟨t, ho, u, rfl⟩
        rcases hw.gone hF t ho with hgone | hnoted
        · apply hthere
          by_cases hu : u = []
          · rwa [hu, List.append_nil]
          · rw [← List.append_assoc]
            apply Fs.get_append_eq_none hu
            rintro ⟨m, hm⟩
            rw [hgone] at hm
            cases hm
        · rw [hw.quiet hquiet] at hnoted
          exact ho.spared t ho.below (List.prefix_refl _) hnoted
      exact ⟨hw.modes hF hobeys q hleft, hw.times hF hobeys q hleft⟩

/-- The second pass has taken nothing from the destination but what it replaced: it is a directory still. -/
theorem Passed.isDir (hp : Passed K S src dst h c h₁) (hdst : h.fs.IsDir dst) : h₁.fs.IsDir dst := by
  have hkept := hp.bounded.isDir
  rw [List.append_nil] at hkept
  exact hkept hdst

/-- A root that was lost by the second pass alone gives its orphans up. -/
theorem listable_of_exact {r : Except Errno Ctx × Host} (hp : PrunesExactly K S src dst c h₁ r)
    (hgone : ∀ t, Orphan c dst h₁.fs [] t → r.2.fs.get (dst ++ t) = none) : Listable c dst h₁.fs := by
  by_contra hnot
  unfold Listable at hnot
  push Not at hnot
  obtain ⟨-, hroot, t, ho⟩ := hnot
  have hsame := hp.skipped [] t (.inl hroot) List.nil_prefix
  rw [bare_eq_none.mpr (hgone t ho)] at hsame
  exact ho.there (bare_eq_none.mp hsame.symm)

end Pass

/-- **When `--delete` prunes exactly.** Whatever the kernel refused to the passes before it, and whatever it
refuses to this one: if the mirror pass could list the root of the source, or the pass before it could not,
or there is no orphan, then the third pass takes nothing but what the source does not have, all of it that it
can, and nothing at or below what was skipped. And of the runs that record no failure, it does so in no
other. -/
theorem prune_exact_iff (K : Kernel) (src dst : Path) (h h₁ : Host) (c : Ctx) (hsrc : h.fs.IsDir src)
    (hdst : h.fs.IsDir dst) (houtside : ¬ src <+: dst) (hapart : ¬ dst <+: src)
    (hrun : mirror K src dst h = (.ok c, h₁)) :
    (Listable c dst h₁.fs → PrunesExactly K h.fs src dst c h₁ (prune K dst c h₁)) ∧
    ∀ c', (prune K dst c h₁).1 = .ok c' → Granted K.looks → c'.failures = c.failures →
      (PrunesExactly K h.fs src dst c h₁ (prune K dst c h₁) ↔ Listable c dst h₁.fs) := by
  have ha : Aside h.fs src dst := by
    refine ⟨houtside, fun d t heq => ?_⟩
    exact absurd ⟨d :: t, heq.symm⟩ hapart
  have hp : Passed K h.fs src dst h c h₁ := by
    have hspec := mirror_spec (K := K) ha hsrc hdst h rfl
    rwa [hrun] at hspec
  have hthere := hp.isDir hdst
  have henough : Listable c dst h₁.fs → PrunesExactly K h.fs src dst c h₁ (prune K dst c h₁) :=
    prunes_of_passed hsrc hp hthere
  refine ⟨henough, fun c' hok hF hquiet => ⟨fun hexact => ?_, henough⟩⟩
  cases hread : c.rootUnreadable with
  | true => exact .inl hread
  | false =>
    have hspec := prune_spec (K := K) hthere hread h₁ rfl
    rcases hr : prune K dst c h₁ with ⟨result, h'⟩
    rw [hr] at hspec hok hexact
    cases hok
    apply listable_of_exact hexact
    intro t ho
    rcases hspec.gone hF t ho with hgone | hnoted
    · exact hgone
    · rw [hspec.quiet hquiet] at hnoted
      exact absurd hnoted (ho.spared t ho.below (List.prefix_refl _))

/-- A source that is an empty directory, and a destination with a file `x`. -/
def extraTree : Fs :=
  Fs.ofList [(["s".toList], .dir 0o755), (["t".toList], .dir 0o755),
    (["t".toList, "x".toList], .file 0 ⟨[104], 0o600, 0⟩)]

/-- A kernel that refuses these calls on the source, and nothing else. -/
def readKernel (F : Faults) : Kernel := ⟨plainKernel, F, noFaults, noFaults, id, fun _ => 0, false⟩

/-- The listing of the source's root is refused to the second pass. -/
def secondListing : Faults := refuseOnly 1

/-- The run of the mirror on the fixed tree, named by its answer. -/
theorem mirror_run (F : Faults) (c : Ctx) (hok : (mirror (readKernel F) ["s".toList] ["t".toList]
      (Host.start extraTree)).1 = .ok c) :
    mirror (readKernel F) ["s".toList] ["t".toList] (Host.start extraTree) =
      (.ok c, (mirror (readKernel F) ["s".toList] ["t".toList] (Host.start extraTree)).2) :=
  Prod.ext hok rfl

/-- The prune is exact on the fixed tree when nothing is refused. -/
theorem prune_exact_of_listed :
    PrunesExactly (readKernel noFaults) extraTree ["s".toList] ["t".toList] .start
      (mirror (readKernel noFaults) ["s".toList] ["t".toList] (Host.start extraTree)).2
      (prune (readKernel noFaults) ["t".toList] .start
        (mirror (readKernel noFaults) ["s".toList] ["t".toList] (Host.start extraTree)).2) := by
  have hexact := prune_exact_iff (readKernel noFaults) ["s".toList] ["t".toList] (Host.start extraTree) _ .start
    (by decide +kernel) (by decide +kernel) (by decide) (by decide) (mirror_run noFaults .start rfl)
  exact hexact.1 (.inr (.inl (by decide)))

/-- What the first two passes know of the source's root then. -/
def lostListing : Ctx := ⟨[], [[]], 1, false⟩

/-- The run of the prune with a listing refused, named by its answer. -/
theorem prune_run {h₁ : Host} (c : Ctx) (hok : (prune (readKernel secondListing) ["t".toList] lostListing h₁).1 = .ok c) :
    prune (readKernel secondListing) ["t".toList] lostListing h₁ =
      (.ok c, (prune (readKernel secondListing) ["t".toList] lostListing h₁).2) :=
  Prod.ext hok rfl

/-- **A listing that fails the second time only.** The source could be listed when it was recorded and not
when it was mirrored: the failure is noted for the root, and the destination is emptied nonetheless. -/
theorem prune_empties_unlisted :
    ∃ h₁ c' h', mirror (readKernel secondListing) ["s".toList] ["t".toList] (Host.start extraTree) =
        (.ok lostListing, h₁) ∧
      h₁.fs.get ["t".toList, "x".toList] ≠ none ∧
      prune (readKernel secondListing) ["t".toList] lostListing h₁ = (.ok c', h') ∧
      h'.fs.get ["t".toList, "x".toList] = none ∧
      ¬ PrunesExactly (readKernel secondListing) extraTree ["s".toList] ["t".toList] lostListing h₁ (.ok c', h') := by
  have hthere : (mirror (readKernel secondListing) ["s".toList] ["t".toList] (Host.start extraTree)).2.fs.get
      ["t".toList, "x".toList] ≠ none := by decide +kernel
  have hgone : (prune (readKernel secondListing) ["t".toList] lostListing
      (mirror (readKernel secondListing) ["s".toList] ["t".toList] (Host.start extraTree)).2).2.fs.get
      ["t".toList, "x".toList] = none := by decide +kernel
  refine ⟨_, lostListing, _, mirror_run secondListing lostListing rfl, hthere, prune_run lostListing rfl, hgone,
    fun hexact => ?_⟩
  have hsame := hexact.skipped [] ["x".toList] (.inl (by decide)) List.nil_prefix
  rw [List.singleton_append] at hsame
  rw [bare_eq_none.mpr hgone] at hsame
  exact hthere (bare_eq_none.mp hsame.symm)

end ProotDistro.Sync
