import ProotDistro.Dirfd.CopyTree

/-!
# What a removal does, what it leaves alone, and when nothing stays

`Dirfd.Removal` looks at a removal without the modes of directories. A caller that has set modes before
it removes something needs to know which of them a removal may touch, and one that counts failures when
there are none.

* **`rmtreeAt_within`** — whatever is refused, nothing changes but the directory the entry is in and
  what is at or below the entry.
* **`rmtreeAt_undisturbed`** — where the kernel refuses nothing, the whole tree goes, no error is
  reported, and nothing outside it changes at all.
* **`rmtreeAt_exact`** — the answer is `true` exactly when the named entry is gone, nothing
  outside it goes, and every entry that goes is reported once, after everything below it.
-/

namespace ProotDistro.Removal

open Posix

/-! ## The frame -/

/-- What the removal of `name` from `d` may write to: the mode of `d`, and the entry with all below it. -/
def Reach (d : Path) (name : Name) (q : Path) : Prop := q = d ∨ d ++ [name] <+: q

section Frame

variable {F : Faults} {force : Bool} {X : Path → Prop} {h₀ : Host} {d p : Path} {name : Name}

/-- A `chmod` by the descriptor changes the directory it is open on. -/
theorem chmodFd_within {mode : Mode} (hX : X p) :
    Proc.Keeps (Within X h₀) (chmodFd F p mode) fun _ => True := by
  have hact : Proc.Keeps (Within X h₀) (act F (chmodDir p mode)) fun _ => True := by
    apply Within.act
    intro fs fs' hfs q hq
    rw [CopyTree.chmodDir_get hfs, if_neg]
    rintro rfl
    exact hq hX
  exact hact.handle fun _ => hact.quietly

theorem makeWritable_within (hX : X p) :
    Proc.Keeps (Within X h₀) (makeWritable F p) fun _ => True :=
  Proc.Keeps.quietly (Within.query.bind fun _ _ => chmodFd_within hX)

/-- Making a directory readable by its name changes that directory. -/
theorem makeReadableAt_within {mode : Mode} (hv : ValidName name) (hX : X (d ++ [name])) :
    Proc.Keeps (Within X h₀) (makeReadableAt F d name mode) fun _ => True := by
  apply Proc.Keeps.quietly
  have hopen : Proc.Keeps (Within X h₀) (query F (·.openDirAt d name)) fun fd => fd = d ++ [name] := by
    apply Triple.query
    · intro h fd hw hfd
      unfold Fs.openDirAt at hfd
      rw [Fs.locate_valid hv] at hfd
      split at hfd
      · cases hfd
        exact ⟨hw.tick, rfl⟩
      all_goals cases hfd
    · intro h hw
      exact hw.tick
  apply hopen.bind
  rintro fd rfl
  exact chmodFd_within hX

theorem opendirForRemoval_within {mode : Mode} (hv : ValidName name) (hX : X (d ++ [name])) :
    Proc.Keeps (Within X h₀) (opendirForRemoval F force d name mode) fun _ => True := by
  apply Within.query.handle
  intro e
  split
  · exact (makeReadableAt_within hv hX).bind fun _ _ => Within.query
  · exact Proc.Keeps.fail

/-- An unlink changes the entry and, where it had to be made writable, its directory. -/
theorem unlinkAt_within {isDir : Bool} (hv : ValidName name) (hd : X d) (hX : X (d ++ [name])) :
    Proc.Keeps (Within X h₀) (unlinkAt F force d name isDir) fun _ => True := by
  have hcall : Proc.Keeps (Within X h₀) (unlinkAt.call F d name isDir) fun _ => True := by
    apply Within.act
    intro fs fs' hfs q hq
    have hne : q ≠ d ++ [name] := by
      rintro rfl
      exact hq hX
    cases isDir with
    | true => rw [(Fs.rmdirAt_ok hfs).2.2, if_neg hne]
    | false => rw [(Fs.unlinkAt_ok hfs).2, Fs.locate_valid hv, if_neg hne]
  apply hcall.handle
  intro e
  split
  · exact (makeWritable_within hd).bind fun _ _ => hcall
  · exact Proc.Keeps.fail

/-- The state a part that keeps an invariant ends in. -/
theorem keeps_final {α : Type} {I : Host → Prop} {q : HostSys α} {Q : α → Prop} {h : Host}
    (hk : Proc.Keeps I q Q) (hI : I h) : I (q h).2 :=
  Proc.Triple.final hk hI (fun _ _ hs => hs.1) fun _ hs => hs

/-- Parking levels changes nothing. -/
theorem parkLevels_within (n low : Nat) (below : List (Level Held)) {h : Host} (hw : Within X h₀ h) :
    Within X h₀ (parkLevels F n low below h).2 := by
  induction n generalizing low below h with
  | zero => exact hw
  | succ n ih =>
    unfold parkLevels
    split
    · split
      · exact hw
      · rename_i l hl
        have hpark : Within X h₀ (parkLevel F l h).2 := by
          apply keeps_final (Q := fun _ => True) ?_ hw
          unfold parkLevel
          split
          · exact Within.query.bind fun _ _ => Proc.Keeps.pure trivial
          · exact Proc.Keeps.pure trivial
        split
        · rename_i l' h' hrun
          rw [hrun] at hpark
          exact ih _ _ hpark
        · rename_i e h' hrun
          rw [hrun] at hpark
          exact hpark
    · exact hw

theorem revive_within {held : Held} : Proc.Keeps (Within X h₀) (revive F p held) fun _ => True := by
  unfold revive
  split
  · exact Proc.Keeps.pure trivial
  · apply Within.query.bind
    intro up _
    apply Within.query.bind
    intro _ _
    split
    · exact Proc.Keeps.pure trivial
    · exact Proc.Keeps.fail

end Frame

section Turns

variable {F : Faults} {force : Bool} {d : Path} {name : Name} {h₀ h₁ : Host} {w : Walk}

/-- A level's own directory is at or below the entry. -/
theorem Chain.reach {l : Level Path} {rest : List (Level Path)} (hc : Chain d name (l :: rest)) (r : Path) :
    Reach d name (l.fd ++ r) := by
  right
  rw [hc.fd_eq, List.append_assoc]
  exact List.prefix_append _ _

/-- What lies below the topmost level is within reach. -/
theorem Inv.reach (hi : Inv h₀ d name w) (r : Path) : Reach d name (w.top.fd ++ r) := hi.chain.reach r

theorem Inv.reach_top (hi : Inv h₀ d name w) : Reach d name w.top.fd := by
  have h := hi.reach []
  rwa [List.append_nil] at h

/-- Taking an empty directory away keeps to the reach of the removal. -/
theorem removeLevel_within {d' : Path} {h : Host} (hw : Within (Reach d name) h₁ h)
    (hv : ValidName w.top.entry) (hd : Reach d name d') (hX : Reach d name (d' ++ [w.top.entry])) :
    Within (Reach d name) h₁ (removeLevel F force w d' h).2.1 := by
  unfold removeLevel
  split
  · have hunlink : Within (Reach d name) h₁ (unlinkAt F force d' w.top.entry true h).2 :=
      keeps_final (unlinkAt_within hv hd hX) hw
    split
    · rename_i h' hrun
      rw [hrun] at hunlink
      exact hunlink
    · rename_i e h' hrun
      rw [hrun] at hunlink
      exact hunlink
  · exact hw

/-- The state one turn leaves, whether the loop goes on or ends. -/
def after : Except Outcome Walk → Host
  | .ok w => w.host
  | .error out => out.host

theorem leave_within (hi : Inv h₀ d name w) (hw : Within (Reach d name) h₁ w.host) :
    Within (Reach d name) h₁ (after (leave F force d w)) := by
  have hchain := hi.chain
  unfold Walk.levels at hchain
  unfold leave
  cases hbelow : w.below with
  | nil =>
    rw [hbelow, List.map_nil] at hchain
    cases hchain with
    | root hfd hentry hrel =>
      have hpath : d ++ [w.top.entry] = w.top.fd := by rw [hentry, hfd]
      exact removeLevel_within hw (hi.entry_valid hpath) (.inl rfl) (hpath ▸ hi.reach_top)
  | cons parent below =>
    rw [hbelow, List.map_cons] at hchain
    cases hchain with
    | level hfd hrel hrest =>
      have hpath : parent.fd.path ++ [w.top.entry] = w.top.fd := hfd.symm
      have hparent : Reach d name parent.fd.path := by
        have h := hrest.reach []
        rwa [List.append_nil] at h
      have hrevive : Within (Reach d name) h₁ (revive F w.top.fd parent.fd w.host).2 :=
        keeps_final revive_within hw
      rcases revive_cases F w.top.fd parent.fd w.host with ⟨h', hrun, -⟩ | ⟨e, h', hrun, -⟩
      · rw [hrun] at hrevive
        simp only [hrun]
        exact removeLevel_within hrevive (hi.entry_valid hpath) hparent (hpath ▸ hi.reach_top)
      · rw [hrun] at hrevive
        simp only [hrun]
        exact hrevive

theorem visit_within {child : Name} (hi : Inv h₀ d name w) (hv : ValidName child)
    (hw : Within (Reach d name) h₁ w.host) : Within (Reach d name) h₁ (visit F force w child).host := by
  unfold visit
  have hlook : Within (Reach d name) h₁ (query F (·.lstatAt w.top.fd child) w.host).2 :=
    keeps_final Within.query hw
  have hunlink : ∀ h, Within (Reach d name) h₁ h →
      Within (Reach d name) h₁ (unlinkReporting F force w child h).host := by
    intro h hw
    have hcall : Within (Reach d name) h₁ (unlinkAt F force w.top.fd child false h).2 :=
      keeps_final (unlinkAt_within hv hi.reach_top (hi.reach [child])) hw
    unfold unlinkReporting
    split
    · rename_i h' hrun
      rw [hrun] at hcall
      exact hcall
    · rename_i e h' hrun
      rw [hrun] at hcall
      split
      · exact hcall
      · exact hcall
  split
  · rename_i e h hrun
    rw [hrun] at hlook
    split
    · exact hlook
    · exact hlook
  · rename_i mode h hrun
    rw [hrun] at hlook
    have hopen : Within (Reach d name) h₁ (opendirForRemoval F force w.top.fd child mode h).2 :=
      keeps_final (opendirForRemoval_within hv (hi.reach [child])) hlook
    unfold descend
    split
    · rename_i fd h' hrun'
      rw [hrun'] at hopen
      exact parkLevels_within _ _ _ hopen
    · rename_i e h' hrun'
      rw [hrun'] at hopen
      exact hopen
  · rename_i e h _ hrun
    rw [hrun] at hlook
    exact hunlink h hlook

/-- **One turn** stays within reach. -/
theorem step_within (F : Faults) (force : Bool) (hi : Inv h₀ d name w) (hw : Within (Reach d name) h₁ w.host) :
    Within (Reach d name) h₁ (after (step F force d w)) := by
  unfold step
  cases hpending : w.top.pending with
  | none =>
    have hlist : Within (Reach d name) h₁ (query F (fun fs => .ok (fs.listdir w.top.fd)) w.host).2 :=
      keeps_final Within.query hw
    dsimp only
    split
    · rename_i names h hrun
      rw [hrun] at hlist
      exact hlist
    · rename_i e h hrun
      rw [hrun] at hlist
      exact hlist
  | some names =>
    cases names with
    | nil => exact leave_within hi hw
    | cons child rest =>
      have hchild := hi.pending w.top List.mem_cons_self _ hpending child List.mem_cons_self
      obtain ⟨e, he⟩ := Option.ne_none_iff_exists'.mp hchild
      have hinv : Inv h₀ d name { w with top := { w.top with pending := some rest } } := by
        refine hi.stay (Steady.refl _) rfl rfl rfl rfl rfl rfl id ?_
        intro names hnames c hc
        cases hnames
        exact hi.pending w.top List.mem_cons_self _ hpending c (List.mem_cons_of_mem _ hc)
      exact visit_within hinv (Fs.validName_of_get he) hw

/-- **A whole run** stays within reach. -/
theorem run_within {listens : Bool} {n : Nat} {out : Outcome} (hi : Inv h₀ d name w)
    (hw : Within (Reach d name) h₁ w.host) (hrun : run F force listens d n w = some out) :
    Within (Reach d name) h₁ out.host := by
  induction n generalizing w with
  | zero => cases hrun
  | succ n ih =>
    have hstep := step_within F force hi hw
    unfold run at hrun
    rcases step_sound F force hi with ⟨w', hok, hi', -⟩ | ⟨out', herr, -⟩
    · rw [hok] at hrun hstep
      dsimp only at hrun
      split at hrun
      · cases hrun
        exact hstep
      · exact ih hi' hstep hrun
    · rw [herr] at hrun hstep
      cases hrun
      exact hstep

/-- **A removal reaches** the directory the entry is in, and what is at or below the entry. -/
theorem rmtreeAt_within {listens : Bool} {h : Host} {out : Outcome} (hv : ValidName name)
    (hrun : rmtreeAt F force listens d name h = some out) : Within (Reach d name) h out.host := by
  have hself : Reach d name (d ++ [name]) := .inr (List.prefix_refl _)
  have hlook : Within (Reach d name) h (query F (·.lstatAt d name) h).2 :=
    keeps_final Within.query (Within.refl _ h)
  -- what is no directory is one unlink, with the second try after a change of mode
  have hother : ∀ h₁, Within (Reach d name) h h₁ → rmtreeOther F force d name h₁ = some out →
      Within (Reach d name) h out.host := by
    intro h₁ hw hout
    have hcall : Within (Reach d name) h (unlinkAt F force d name false h₁).2 :=
      keeps_final (unlinkAt_within hv (.inl rfl) hself) hw
    unfold rmtreeOther at hout
    split at hout
    · rename_i h' hrun'
      cases hout
      rw [hrun'] at hcall
      exact hcall
    · rename_i e h' hrun'
      rw [hrun'] at hcall
      split at hout
      · cases hout
        exact hcall
      · cases hout
        exact hcall
  unfold rmtreeAt at hrun
  split at hrun
  · rename_i e h' hq
    rw [hq] at hlook
    split at hrun
    · cases hrun
      exact hlook
    · cases hrun
      exact hlook
  · rename_i mode h' hq
    rw [hq] at hlook
    have hopen : Within (Reach d name) h (opendirForRemoval F force d name mode h').2 :=
      keeps_final (opendirForRemoval_within hv hself) hlook
    have hspec := opendirForRemoval_spec F force d mode hv h' (Steady.refl h')
    unfold rmtreeDir at hrun
    split at hrun
    · rename_i e h'' hrun'
      rw [hrun'] at hopen
      cases hrun
      exact hopen
    · rename_i fd h'' hrun'
      rw [hrun'] at hopen hspec
      obtain ⟨-, rfl, hdir⟩ := hspec
      -- the walk starts at the entry, with nothing listed yet
      have hinv : Inv h'' d name ⟨h'', ⟨d ++ [name], name, [], none, true⟩, [], 1, true, .empty⟩ := by
        refine ⟨Accounted.start (Steady.refl h''), .root rfl rfl rfl, hdir, .inl rfl, ?_⟩
        intro l hl names hnames
        rw [List.mem_singleton.mp hl] at hnames
        cases hnames
      exact run_within hinv hopen hrun
  · rename_i e h' _ hq
    rw [hq] at hlook
    exact hother h' hlook hrun

end Turns

/-! ## Where nothing is refused -/

/-- What a level still has to take away is among the names it has left, or is the level the walk is in. -/
def Listed (fs : Fs) : Option Name → List (Level Path) → Prop
  | _, [] => True
  | held, l :: rest =>
    (∀ names, l.pending = some names → ∀ c, fs.get (l.fd ++ [c]) ≠ none → c ∈ names ∨ held = some c) ∧
      Listed fs (some l.entry) rest

/-- What holds at the loop's head as long as nothing is refused. -/
structure Clean (root : Path) (fs : Fs) (w : Walk) : Prop where
  ok : w.ok = true
  errors : w.report.errors = []
  emptied : ∀ l ∈ w.levels, l.emptied = true
  listed : Listed w.host.fs none w.levels
  outside : ∀ q, ¬ root <+: q → w.host.fs.get q = fs.get q

/-- What the end of a removal is where nothing was refused. -/
structure Done (root : Path) (fs : Fs) (out : Outcome) : Prop where
  gone : out.gone = true
  errors : out.report.errors = []
  outside : ∀ q, ¬ root <+: q → out.host.fs.get q = fs.get q

section Undisturbed

variable {F : Faults} {force : Bool} {d : Path} {name : Name} {h h₀ : Host} {w : Walk} {fs : Fs}

/-- With fewer entries there is less to take away. -/
theorem Listed.fewer {fs fs' : Fs} {held : Option Name} {levels : List (Level Path)}
    (hl : Listed fs held levels) (hless : ∀ q, fs'.get q ≠ none → fs.get q ≠ none) :
    Listed fs' held levels := by
  induction levels generalizing held with
  | nil => trivial
  | cons l rest ih => exact ⟨fun names hnames c hc => hl.1 names hnames c (hless _ hc), ih hl.2⟩

/-- A look that is not refused is answered by the tree. -/
theorem query_granted {α : Type} {g : Fs → Except Errno α} (hF : ∀ n, F n = none) :
    query F g h = (g h.fs, h.tick) := query_of_allowed (hF _)

/-- Such a look finds what is there. -/
theorem lstat_granted {e : Entry} (hF : ∀ n, F n = none) (hv : ValidName name)
    (he : h.fs.get (d ++ [name]) = some e) : query F (·.lstatAt d name) h = (.ok e, h.tick) := by
  rw [query_granted hF]
  unfold Fs.lstatAt
  rw [Fs.locate_valid hv, he]

theorem lstat_granted_none (hF : ∀ n, F n = none) (hv : ValidName name)
    (hnone : h.fs.get (d ++ [name]) = none) : query F (·.lstatAt d name) h = (.error .ENOENT, h.tick) := by
  rw [query_granted hF]
  unfold Fs.lstatAt
  rw [Fs.locate_valid hv, hnone]

/-- An entry that is no directory goes, whatever `force` says. -/
theorem unlinkAt_granted (force : Bool) {e : Entry} (hF : ∀ n, F n = none) (hv : ValidName name)
    (he : h.fs.get (d ++ [name]) = some e) (hdir : e.isDir = false) :
    ∃ fs, unlinkAt F force d name false h = (.ok (), h.turn fs) ∧
      ∀ q, fs.get q = if q = d ++ [name] then none else h.fs.get q := by
  obtain ⟨fs, hfs⟩ := Fs.unlinkAt_of_some he hdir
  have hget := (Fs.unlinkAt_ok hfs).2
  rw [Fs.locate_valid hv] at hget
  have hcall : unlinkAt.call F d name false h = (.ok (), h.turn fs) := act_of_allowed (hF _) hfs
  exact ⟨fs, Proc.handle_of_ok hcall, hget⟩

/-- So does an empty directory. -/
theorem rmdirAt_granted (force : Bool) (hF : ∀ n, F n = none) (hv : ValidName name) (hdir : h.fs.IsDir (d ++ [name]))
    (hempty : ∀ c, h.fs.get (d ++ [name] ++ [c]) = none) :
    ∃ fs, unlinkAt F force d name true h = (.ok (), h.turn fs) ∧
      ∀ q, fs.get q = if q = d ++ [name] then none else h.fs.get q := by
  obtain ⟨fs, hfs⟩ := Fs.rmdirAt_of_empty hv hdir hempty
  have hcall : unlinkAt.call F d name true h = (.ok (), h.turn fs) := act_of_allowed (hF _) hfs
  exact ⟨fs, Proc.handle_of_ok hcall, (Fs.rmdirAt_ok hfs).2.2⟩

/-- A parked level opens again. -/
theorem revive_granted (hF : ∀ n, F n = none) {held : Held} (entry : Name)
    (hdir : h.fs.IsDir held.path) :
    ∃ h', revive F (held.path ++ [entry]) held h = (.ok held.path, h') ∧ h'.fs = h.fs := by
  cases held with
  | live fd => exact ⟨h, rfl, rfl⟩
  | parked key =>
    obtain ⟨m, hm⟩ := hdir
    have hup : h.fs.openDirAt (key ++ [entry]) ['.', '.'] = .ok key := by
      unfold Fs.openDirAt
      rw [show Fs.locate (key ++ [entry]) ['.', '.'] = key by simp [Fs.locate],
        show h.fs.get key = some (.dir m) from hm]
    have hstat : statDir key h.fs = .ok m := by
      unfold statDir
      rw [show h.fs.get key = some (.dir m) from hm]
    have hopen : query F (·.openDirAt (key ++ [entry]) ['.', '.']) h = (.ok key, h.tick) := by
      rw [query_granted hF, hup]
    have hlook : query F (statDir key) h.tick = (.ok m, h.tick.tick) := by
      rw [query_granted hF, Host.tick_fs, hstat]
    refine ⟨h.tick.tick, ?_, rfl⟩
    show (do
      let up ← query F (·.openDirAt (key ++ [entry]) ['.', '.'])
      let _ ← query F (statDir up)
      if up = key then pure up else .fail .ESTALE : HostSys Path) h = _
    rw [Proc.bind_of_ok hopen, Proc.bind_of_ok hlook, if_pos rfl]
    rfl

/-- In a clean walk what is left of the topmost directory is what is still to be visited. -/
theorem Clean.top (hc : Clean (d ++ [name]) fs w) {names : List Name} (hpending : w.top.pending = some names) :
    ∀ c, w.host.fs.get (w.top.fd ++ [c]) ≠ none → c ∈ names := by
  intro c hget
  rcases hc.listed.1 names hpending c hget with hmem | hheld
  · exact hmem
  · cases hheld

/-- The deepest level is empty when its names are through, and goes. -/
theorem removeLevel_granted (force : Bool) {d' : Path} {h : Host} (hF : ∀ n, F n = none) (hemptied : w.top.emptied = true)
    (hpath : d' ++ [w.top.entry] = w.top.fd) (hv : ValidName w.top.entry) (hdir : h.fs.IsDir w.top.fd)
    (hempty : ∀ c, h.fs.get (w.top.fd ++ [c]) = none) :
    ∃ fs, removeLevel F force w d' h = (true, h.turn fs, w.report.onRemove w.top.rel) ∧
      ∀ q, fs.get q = if q = w.top.fd then none else h.fs.get q := by
  rw [← hpath] at hdir hempty
  obtain ⟨fs, hrun, hget⟩ := rmdirAt_granted (F := F) force hF hv hdir hempty
  refine ⟨fs, ?_, hpath ▸ hget⟩
  unfold removeLevel
  rw [if_pos hemptied, hrun]

/-- A level that goes is left for the one above it. -/
theorem leave_of_removed {parent : Level Held} {below : List (Level Held)} {fd : Path} {h₁ h₂ : Host} {gone : Bool}
    {report : Report} (hbelow : w.below = parent :: below)
    (hrevive : revive F w.top.fd parent.fd w.host = (.ok fd, h₁))
    (hrun : removeLevel F force w fd h₁ = (gone, h₂, report)) :
    ∃ low, leave F force d w =
      .ok ⟨h₂, { parent.hold fd with emptied := parent.emptied && gone }, below, low, w.ok && gone, report⟩ := by
  unfold leave
  rw [hbelow]
  dsimp only
  rw [hrevive]
  dsimp only
  rw [hrun]
  exact ⟨_, rfl⟩

/-- Leaving a level that is done keeps the walk clean, or ends it with everything gone. -/
theorem leave_clean (hF : ∀ n, F n = none) (hi : Inv h₀ d name w) (hc : Clean (d ++ [name]) fs w)
    (hpending : w.top.pending = some []) :
    (∃ w', leave F force d w = .ok w' ∧ Clean (d ++ [name]) fs w') ∨
      ∃ out, leave F force d w = .error out ∧ Done (d ++ [name]) fs out := by
  -- nothing is left in the level: what was there has been visited
  have hempty : ∀ c, w.host.fs.get (w.top.fd ++ [c]) = none := by
    intro c
    by_contra hget
    cases hc.top hpending c hget
  have hemptied : w.top.emptied = true := hc.emptied w.top List.mem_cons_self
  have hroot : d ++ [name] <+: w.top.fd := by
    rw [hi.chain.fd_eq]
    exact List.prefix_append _ _
  -- outside the entry nothing has changed before, and the level is inside it
  have houtside : ∀ {h : Host} {fs' : Fs}, h.fs = w.host.fs →
      (∀ q, fs'.get q = if q = w.top.fd then none else h.fs.get q) →
      ∀ q, ¬ d ++ [name] <+: q → fs'.get q = fs.get q := by
    intro h fs' hsame hget q hq
    rw [hget, if_neg, hsame]
    · exact hc.outside q hq
    · rintro rfl
      exact hq hroot
  have hchain := hi.chain
  unfold Walk.levels at hchain
  cases hbelow : w.below with
  -- the level is that of the entry: the walk ends
  | nil =>
    rw [hbelow, List.map_nil] at hchain
    cases hchain with
    | root hfd hentry hrel =>
      have hpath : d ++ [w.top.entry] = w.top.fd := by rw [hentry, hfd]
      obtain ⟨fs', hrun, hget⟩ := removeLevel_granted (F := F) force hF hemptied hpath
        (hi.entry_valid hpath) hi.standing hempty
      right
      refine ⟨⟨true, w.host.turn fs', w.report.onRemove w.top.rel⟩, ?_, rfl, hc.errors, houtside rfl hget⟩
      unfold leave
      rw [hbelow]
      simp only [hrun, hc.ok, Bool.and_self]
  -- the level above opens again, and its name among the members is done with
  | cons parent below =>
    rw [hbelow, List.map_cons] at hchain
    cases hchain with
    | level hfd hrel hrest =>
      have hpath : parent.fd.path ++ [w.top.entry] = w.top.fd := hfd.symm
      have hparent : w.host.fs.IsDir parent.fd.path := by
        have hdir := hi.standing
        rw [← hpath] at hdir
        exact hdir.of_append
      obtain ⟨h', hrevive, hsame⟩ := revive_granted (F := F) hF w.top.entry hparent
      rw [hpath] at hrevive
      obtain ⟨fs', hrun, hget⟩ := removeLevel_granted (F := F) (h := h') force hF hemptied hpath
        (hi.entry_valid hpath) (hsame ▸ hi.standing) (hsame ▸ hempty)
      left
      have hlevels : w.levels = w.top :: parent.settle :: below.map Level.settle := by
        unfold Walk.levels
        rw [hbelow, List.map_cons]
      have hlisted := hc.listed
      have hflags := hc.emptied
      rw [hlevels] at hlisted hflags
      have hless : ∀ q, fs'.get q ≠ none → w.host.fs.get q ≠ none := by
        intro q hq
        rw [hget] at hq
        split at hq
        · exact absurd rfl hq
        · rwa [← hsame]
      have hparentflag : parent.emptied = true :=
        hflags parent.settle (List.mem_cons_of_mem _ List.mem_cons_self)
      obtain ⟨low, hleave⟩ := leave_of_removed (d := d) hbelow hrevive hrun
      refine ⟨_, hleave, ?_, hc.errors, ?_, ⟨?_, ?_⟩, houtside hsame hget⟩
      · show (w.ok && true) = true
        rw [hc.ok]
        rfl
      · intro l hl
        rcases List.mem_cons.mp hl with rfl | hl
        · show (parent.emptied && true) = true
          rw [hparentflag]
          rfl
        · exact hflags l (List.mem_cons_of_mem _ (List.mem_cons_of_mem _ hl))
      · -- the level that has gone is no longer among the names
        intro names hnames c hthere
        rcases hlisted.2.1 names hnames c (hless _ hthere) with hmem | hheld
        · exact .inl hmem
        · exfalso
          cases hheld
          have hnone : fs'.get (parent.fd.path ++ [w.top.entry]) = none := by rw [hget, if_pos hpath]
          exact hthere hnone
      · exact Listed.fewer hlisted.2.2 hless

/-- A visit takes the entry off what is left, and keeps the walk clean. -/
theorem visit_clean {child : Name} {rest : List Name} (hF : ∀ n, F n = none) (hi : Inv h₀ d name w)
    (hc : Clean (d ++ [name]) fs w) (hv : ValidName child) (hpending : w.top.pending = some (child :: rest)) :
    Clean (d ++ [name]) fs
      (visit F force { w with top := { w.top with pending := some rest } } child) := by
  have hchild := hc.top hpending
  have hroot : d ++ [name] <+: w.top.fd ++ [child] := by
    rw [hi.chain.fd_eq, List.append_assoc]
    exact List.prefix_append _ _
  have hflags : ∀ l ∈ ({ w.top with pending := some rest } : Level Path) :: w.below.map Level.settle,
      l.emptied = true := by
    intro l hl
    rcases List.mem_cons.mp hl with rfl | hl
    · exact hc.emptied w.top List.mem_cons_self
    · exact hc.emptied l (List.mem_cons_of_mem _ hl)
  -- what is left when the child is not there any more
  have hwithout : ∀ fs' : Fs, (∀ q, fs'.get q ≠ none → w.host.fs.get q ≠ none) →
      fs'.get (w.top.fd ++ [child]) = none →
      Listed fs' none (({ w.top with pending := some rest } : Level Path) :: w.below.map Level.settle) := by
    intro fs' hless hnone
    refine ⟨fun names hnames c hthere => ?_, Listed.fewer hc.listed.2 hless⟩
    cases hnames
    rcases List.mem_cons.mp (hchild c (hless _ hthere)) with rfl | hmem
    · exact absurd hnone hthere
    · exact .inl hmem
  -- what is no directory is unlinked
  have hunlink : ∀ e, w.host.fs.get (w.top.fd ++ [child]) = some e → e.isDir = false →
      Clean (d ++ [name]) fs (unlinkReporting F force { w with top := { w.top with pending := some rest } }
        child w.host.tick) := by
    intro e he hdir
    obtain ⟨fs', hrun, hget⟩ := unlinkAt_granted (F := F) (h := w.host.tick) force hF hv he hdir
    unfold unlinkReporting
    rw [show ({ w with top := { w.top with pending := some rest } } : Walk).top.fd = w.top.fd from rfl, hrun]
    refine ⟨hc.ok, hc.errors, hflags, hwithout fs' ?_ ?_, ?_⟩
    · intro q hq
      rw [hget] at hq
      split at hq
      · exact absurd rfl hq
      · exact hq
    · rw [hget, if_pos rfl]
    · intro q hq
      show fs'.get q = fs.get q
      rw [hget, if_neg]
      · exact hc.outside q hq
      · rintro rfl
        exact hq hroot
  unfold visit
  dsimp only
  -- the child is gone already, is no directory, or is a level of its own
  cases hget : w.host.fs.get (w.top.fd ++ [child]) with
  | none =>
    rw [lstat_granted_none hF hv hget]
    dsimp only
    rw [if_pos rfl]
    exact ⟨hc.ok, hc.errors, hflags, hwithout w.host.fs (fun _ hq => hq) hget, hc.outside⟩
  | some e =>
    rw [lstat_granted hF hv hget]
    cases e with
    | file ino data => exact hunlink _ hget rfl
    | symlink target => exact hunlink _ hget rfl
    | dir mode =>
      have hopen : opendirForRemoval F force w.top.fd child mode w.host.tick =
          (.ok (w.top.fd ++ [child]), w.host.tick.tick) := by
        apply Proc.handle_of_ok
        rw [query_granted hF]
        unfold Fs.openDirAt
        rw [Fs.locate_valid hv, show w.host.tick.fs.get (w.top.fd ++ [child]) = some (.dir mode) from hget]
      show Clean (d ++ [name]) fs (descend F force
        { w with top := { w.top with pending := some rest } } child mode w.host.tick)
      unfold descend
      rw [show ({ w with top := { w.top with pending := some rest } } : Walk).top.fd = w.top.fd from rfl, hopen]
      have hpark := parkLevels_spec F
        (((({ w.top with pending := some rest } : Level Path).hold (.live w.top.fd)) :: w.below).length - 1 -
          w.low) w.low
        (({ w.top with pending := some rest } : Level Path).hold (.live w.top.fd) :: w.below) w.host.tick.tick
      -- the push puts the level on top, and parks some of those below
      have hlevels : (push F { w with host := w.host.tick.tick, top := { w.top with pending := some rest } }
          (w.top.fd ++ [child]) child).levels = ⟨w.top.fd ++ [child], child, w.top.rel ++ [child], none, true⟩ ::
            ({ w.top with pending := some rest } : Level Path) :: w.below.map Level.settle := by
        unfold Walk.levels push
        rw [hpark.1]
        rfl
      have hsame : (push F { w with host := w.host.tick.tick, top := { w.top with pending := some rest } }
          (w.top.fd ++ [child]) child).host.fs.get = w.host.fs.get := by
        have hparked := parkLevels_within (F := F) (X := fun _ => False)
          (((({ w.top with pending := some rest } : Level Path).hold (.live w.top.fd)) :: w.below).length - 1 -
            w.low) w.low
          (({ w.top with pending := some rest } : Level Path).hold (.live w.top.fd) :: w.below)
          (Within.refl (fun _ => False) w.host.tick.tick)
        exact funext fun q => hparked.unchanged q
      refine ⟨hc.ok, hc.errors, ?_, ?_, ?_⟩
      · rw [hlevels]
        intro l hl
        rcases List.mem_cons.mp hl with rfl | hl
        · rfl
        · exact hflags l hl
      · rw [hlevels]
        refine Listed.fewer (show Listed w.host.fs none _ from ?_) fun q hq => hsame ▸ hq
        refine ⟨(fun names hnames => by cases hnames), ?_, hc.listed.2⟩
        intro names hnames c hthere
        cases hnames
        rcases List.mem_cons.mp (hchild c hthere) with rfl | hmem
        · exact .inr rfl
        · exact .inl hmem
      · intro q hq
        rw [hsame]
        exact hc.outside q hq

/-- **One turn** that nothing is refused in. -/
theorem step_clean (force : Bool) (hF : ∀ n, F n = none) (hi : Inv h₀ d name w) (hc : Clean (d ++ [name]) fs w) :
    (∃ w', step F force d w = .ok w' ∧ Clean (d ++ [name]) fs w') ∨
      ∃ out, step F force d w = .error out ∧ Done (d ++ [name]) fs out := by
  unfold step
  cases hpending : w.top.pending with
  | none =>
    left
    rw [query_granted hF]
    refine ⟨_, rfl, hc.ok, hc.errors, ?_, ⟨?_, hc.listed.2⟩, hc.outside⟩
    · intro l hl
      rcases List.mem_cons.mp hl with rfl | hl
      · exact hc.emptied w.top List.mem_cons_self
      · exact hc.emptied l (List.mem_cons_of_mem _ hl)
    · intro names hnames c hthere
      cases hnames
      exact .inl (Fs.mem_listdir.mpr (Option.isSome_iff_ne_none.mpr hthere))
  | some names =>
    cases names with
    | nil => exact leave_clean hF hi hc hpending
    | cons child rest =>
      left
      obtain ⟨e, he⟩ := Option.ne_none_iff_exists'.mp
        (hi.pending w.top List.mem_cons_self _ hpending child List.mem_cons_self)
      exact ⟨_, rfl, visit_clean hF hi hc (Fs.validName_of_get he) hpending⟩

/-- **A whole run** that nothing is refused in. -/
theorem run_clean {listens : Bool} {n : Nat} {out : Outcome} (hF : ∀ n, F n = none) (hi : Inv h₀ d name w)
    (hc : Clean (d ++ [name]) fs w) (hrun : run F force listens d n w = some out) :
    Done (d ++ [name]) fs out := by
  induction n generalizing w with
  | zero => cases hrun
  | succ n ih =>
    unfold run at hrun
    rcases step_clean force hF hi hc with ⟨w', hok, hc'⟩ | ⟨out', herr, hdone⟩
    · rw [hok] at hrun
      dsimp only at hrun
      rw [if_neg fun hstop => hstop.2 hc'.errors] at hrun
      rcases step_sound F force hi with ⟨w₁, hok₁, hi', -⟩ | ⟨out₁, herr₁, -⟩
      · rw [hok] at hok₁
        cases hok₁
        exact ih hi' hc' hrun
      · rw [hok] at herr₁
        cases herr₁
    · rw [herr] at hrun
      cases hrun
      exact hdone

/-- **Where the kernel refuses nothing, the whole tree goes**: the answer is `true`, no error is
reported, and of everything that is not at or below the entry nothing changes, no mode either. -/
theorem rmtreeAt_undisturbed (F : Faults) (hF : ∀ n, F n = none) (force listens : Bool) (d : Path)
    (name : Name) (h : Host) (hv : ValidName name) :
    ∃ out, rmtreeAt F force listens d name h = some out ∧ out.gone = true ∧ out.report.errors = [] ∧
      ∀ q, out.host.fs.get q = if d ++ [name] <+: q then none else h.fs.get q := by
  obtain ⟨out, hrun, -, hgone⟩ := rmtreeAt_sound F force listens d h hv
  have hdone : Done (d ++ [name]) h.fs out := by
    unfold rmtreeAt at hrun
    -- what is no directory is gone with one call
    have hother : ∀ e, h.fs.get (d ++ [name]) = some e → e.isDir = false →
        rmtreeOther F force d name h.tick = some out → Done (d ++ [name]) h.fs out := by
      intro e he hdir hout
      obtain ⟨fs', hunlink, hget⟩ := unlinkAt_granted (F := F) (h := h.tick) force hF hv he hdir
      unfold rmtreeOther at hout
      rw [hunlink] at hout
      cases hout
      refine ⟨rfl, rfl, fun q hq => ?_⟩
      show fs'.get q = h.fs.get q
      rw [hget, if_neg]
      · rfl
      · rintro rfl
        exact hq (List.prefix_refl _)
    cases hget : h.fs.get (d ++ [name]) with
    | none =>
      rw [lstat_granted_none hF hv hget] at hrun
      dsimp only at hrun
      rw [if_pos rfl] at hrun
      cases hrun
      exact ⟨rfl, rfl, fun _ _ => rfl⟩
    | some e =>
      rw [lstat_granted hF hv hget] at hrun
      cases e with
      | file ino data => exact hother _ hget rfl hrun
      | symlink target => exact hother _ hget rfl hrun
      | dir mode =>
        have hopen : opendirForRemoval F force d name mode h.tick = (.ok (d ++ [name]), h.tick.tick) := by
          apply Proc.handle_of_ok
          rw [query_granted hF]
          unfold Fs.openDirAt
          rw [Fs.locate_valid hv, show h.tick.fs.get (d ++ [name]) = some (.dir mode) from hget]
        dsimp only at hrun
        unfold rmtreeDir at hrun
        rw [hopen] at hrun
        -- a directory is walked from a start that is clean
        have hinv : Inv h.tick.tick d name
            ⟨h.tick.tick, ⟨d ++ [name], name, [], none, true⟩, [], 1, true, .empty⟩ := by
          refine ⟨Accounted.start (Steady.refl _), .root rfl rfl rfl, ⟨mode, hget⟩, .inl rfl, ?_⟩
          intro l hl names hnames
          rw [List.mem_singleton.mp hl] at hnames
          cases hnames
        apply run_clean hF hinv ?_ hrun
        refine ⟨rfl, rfl, ?_, ⟨(fun names hnames => by cases hnames), trivial⟩, fun _ _ => rfl⟩
        intro l hl
        rw [List.mem_singleton.mp hl]
  -- nothing can stand below the entry either
  refine ⟨out, hrun, hdone.gone, hdone.errors, fun q => ?_⟩
  split
  · rename_i hq
    have hnone : out.host.fs.get (d ++ [name]) = none := by
      have hseen : Seen F d name h := .inr (hF _)
      exact (hgone hseen).mp hdone.gone
    obtain ⟨r, rfl⟩ := hq
    by_cases hr : r = []
    · rw [hr, List.append_nil]
      exact hnone
    · apply Fs.get_append_eq_none hr
      rintro ⟨m, hm⟩
      rw [hnone] at hm
      cases hm
  · rename_i hq
    exact hdone.outside q hq

end Undisturbed

/-! ## What callers rely on -/

/-- **The removal is exact.** The walk ends; for an entry that is there, it answers `true` if and
only if the entry is gone afterwards. Outside the entry nothing changes but modes of directories.
`on_remove` hears of every entry that was there and is gone exactly once, of nothing else, and of
a directory after everything below it. Where the kernel refuses nothing, the entry goes. -/
theorem rmtreeAt_exact (F : Faults) (force : Bool) (d : Path) (name : Name) (h : Host)
    (hv : ValidName name) : ∃ out, rmtreeAt F force true d name h = some out ∧
      (Seen F d name h → (out.gone = true ↔ out.host.fs.get (d ++ [name]) = none)) ∧
      (∀ q, ¬ d ++ [name] <+: q → bare out.host.fs q = bare h.fs q) ∧
      (∀ r, out.report.removed.count r =
        if h.fs.get (d ++ [name] ++ r) ≠ none ∧ out.host.fs.get (d ++ [name] ++ r) = none
        then 1 else 0) ∧
      (out.report.removed.Pairwise fun earlier later => ¬ earlier <+: later) ∧
      ((∀ n, F n = none) → out.gone = true ∧ out.host.fs.get (d ++ [name]) = none) := by
  obtain ⟨out, hout, ha, hgone⟩ := rmtreeAt_sound F force true d h hv
  refine ⟨out, hout, hgone, fun q hq => ha.outside hq, ?_, ha.order, ?_⟩
  · intro r
    rw [ha.nodup.count]
    simp only [ha.mem_iff]
  · intro hF
    obtain ⟨out', hout', htrue, -, hafter⟩ := rmtreeAt_undisturbed F hF force true d name h hv
    cases hout.symm.trans hout'
    exact ⟨htrue, (hafter (d ++ [name])).trans (if_pos (List.prefix_refl _))⟩

/-- A tree `t` with a file, a link that leads out of it, and a directory that has a file. -/
def stubbornTree : Fs :=
  Fs.ofList [(["t".toList], .dir 0o555), (["t".toList, "a".toList], .dir 0o000),
    (["t".toList, "a".toList, "f".toList], .file 0 ⟨[104], 0o644, 0⟩),
    (["t".toList, "l".toList], .symlink "/etc".toList)]

/-- A removal of which one call is refused, and what its answer says of the entry. -/
theorem rmtreeAt_exact_stubborn :
    ∃ out, rmtreeAt (refuseOnly 5) false true [] "t".toList (Host.start stubbornTree) = some out ∧
      (out.gone = true ↔ out.host.fs.get ["t".toList] = none) := by
  obtain ⟨out, hout, hgone, -⟩ := rmtreeAt_exact (refuseOnly 5) false [] "t".toList
    (Host.start stubbornTree) (by decide)
  exact ⟨out, hout, hgone (.inr rfl)⟩

end ProotDistro.Removal
