import ProotDistro.Sync

/-!
# What `sync` does to one entry

Each of the calls a turn is made of stays at its directory and its name; what it leaves there is known
where it succeeds, whatever else the kernel refuses.

* **`syncDir_spec`** — a directory is made or found, with what was below it.
* **`syncSymlink_spec`** — a link is made or found; a directory in its place goes with all that is in it.
* **`syncFile_spec`** — a file is written through its temporary name, or noted; no directory is written
  over.
* **`needsUpdate_spec`**, **`refresh_spec`** — a file that is left alone matches, and one whose mode and
  time are set in place has no other name.
-/

namespace ProotDistro.Sync

open Posix Removal CopyTree

/-! ## Calls at one directory -/

/-- Of what was there, only the mode of the directory `d` and the entries in `X` changed, and `d` is still
a directory. -/
structure Near (h₀ : Host) (d : Path) (X : Path → Prop) (h : Host) : Prop where
  within : Within (fun q => q = d ∨ X q) h₀ h
  isDir : h₀.fs.IsDir d → h.fs.IsDir d

section Near

variable {K : Kernel} {F : Faults} {h₀ h : Host} {d : Path} {name : Name} {X Y : Path → Prop} {α : Type}

/-- A state is near itself. -/
theorem Near.refl (h₀ : Host) (d : Path) (X : Path → Prop) : Near h₀ d X h₀ := ⟨Within.refl _ _, id⟩

/-- Nearness is kept when more places may change. -/
theorem Near.mono (hn : Near h₀ d X h) (hXY : ∀ q, X q → Y q) : Near h₀ d Y h :=
  ⟨hn.within.mono fun q hq => hq.imp_right (hXY q), hn.isDir⟩

/-- Two turns near the directory make one. -/
theorem Near.trans {h' : Host} (hn : Near h₀ d X h) (hn' : Near h d X h') : Near h₀ d X h' :=
  ⟨hn.within.trans hn'.within, fun hd => hn'.isDir (hn.isDir hd)⟩

/-- A call that changes nothing stays near. -/
theorem Near.tick (hn : Near h₀ d X h) : Near h₀ d X h.tick := ⟨hn.within.tick, hn.isDir⟩

/-- A look stays near, whether or not it is refused. -/
theorem Near.query {g : Fs → Except Errno α} : Proc.Keeps (Near h₀ d X) (query F g) fun _ => True :=
  Triple.query (fun _ _ hn _ => ⟨hn.tick, trivial⟩) fun _ hn => hn.tick

/-- A change of the entries in `X`. -/
theorem Near.turn {fs : Fs} (hn : Near h₀ d X h) (hd : ¬ X d) (hfs : ∀ q, ¬ X q → fs.get q = h.fs.get q) :
    Near h₀ d X (h.turn fs) := by
  refine ⟨hn.within.turn fun q hq => hfs q fun hX => hq (.inr hX), fun hdir => ?_⟩
  obtain ⟨m, hm⟩ := hn.isDir hdir
  exact ⟨m, (hfs d hd).trans hm⟩

/-- So does a call that changes those places only and not the directory itself. -/
theorem Near.act {g : Fs → Except Errno Fs} (hd : ¬ X d)
    (hg : ∀ fs fs', g fs = .ok fs' → ∀ q, ¬ X q → fs'.get q = fs.get q) :
    Proc.Keeps (Near h₀ d X) (act F g) fun _ => True :=
  Triple.act (fun _ _ hn hok => ⟨hn.turn hd (hg _ _ hok), trivial⟩) fun _ hn _ => hn.tick

/-- Making the directory writable stays near: it sets a mode, of a directory only. -/
theorem Near.makeWritable : Proc.Keeps (Near h₀ d X) (makeWritable F d) fun _ => True := by
  apply makeWritable_dir fun _ hn => hn.tick
  intro h fs mode hn hfs
  have hget := chmodDir_get hfs
  refine ⟨hn.within.turn fun q hq => ?_, fun _ => ⟨mode, ?_⟩⟩
  · rw [hget, if_neg fun heq => hq (.inl heq)]
  · rw [Host.turn_fs, hget, if_pos rfl]

/-- A call that is made again does what it does at the first or the second attempt. -/
theorem persistently_spec {I : Host → Prop} {call again : HostSys α} {Q : α → Host → Prop}
    (hwritable : Proc.Keeps I (makeWritable F d) fun _ => True) (hcall : Proc.Triple I call Q I)
    (hagain : Proc.Triple I again Q I) : Proc.Triple I (persistently F d call again) Q I := by
  apply hcall.handle
  intro e
  split
  · exact hwritable.bind_triple (fun _ hs => hs) fun _ _ => hagain
  · exact Proc.Triple.fail fun _ hs => hs

/-- What is at or below the entry `name` of `d`. -/
def Under (d : Path) (name : Name) (q : Path) : Prop := d ++ [name] <+: q

/-- The directory itself is not under the name. -/
theorem not_under_dir : ¬ Under d name d := by
  intro h
  have := h.length_le
  simp at this

/-- The place of the name is. -/
theorem under_self : Under d name (d ++ [name]) := List.prefix_refl _

/-- A tree goes as a whole, or the call fails. -/
theorem rmtree_spec {force : Bool} (hv : ValidName name) :
    Proc.Triple (Near h₀ d (Under d name)) (rmtree F force d name)
      (fun _ h => Near h₀ d (Under d name) h ∧ h.fs.get (d ++ [name]) = none) (Near h₀ d (Under d name)) := by
  intro h hn
  obtain ⟨out, hrun, haccounted, hgone⟩ := rmtreeAt_sound F force false d h hv
  have hstep : Near h d (Under d name) out.host := by
    refine ⟨rmtreeAt_within hv hrun, fun hdir => ?_⟩
    exact isDir_of_bare hdir (haccounted.outside not_under_dir)
  unfold rmtree
  rw [hrun]
  dsimp only
  cases hanswer : out.gone with
  | false =>
    rw [if_neg (by decide)]
    exact hn.trans hstep
  | true =>
    rw [if_pos rfl]
    refine ⟨hn.trans hstep, ?_⟩
    -- an answer of `true` is so: the entry was there, or the kernel let it be looked for
    by_cases hseen : Seen F d name h
    · exact (hgone hseen).mp hanswer
    · unfold Seen at hseen
      rw [not_or, not_not] at hseen
      by_contra hthere
      have hbefore := haccounted.there_before hthere
      exact hbefore hseen.1

/-- An unlink that succeeds leaves nothing at the name. -/
theorem unlink_spec (hv : ValidName name) :
    Proc.Triple (Near h₀ d (Under d name)) (act F (·.unlinkAt d name))
      (fun _ h => Near h₀ d (Under d name) h ∧ h.fs.get (d ++ [name]) = none) (Near h₀ d (Under d name)) := by
  apply Triple.act
  · intro h fs hn hfs
    have hget := (Fs.unlinkAt_ok hfs).2
    rw [Fs.locate_valid hv] at hget
    refine ⟨hn.turn not_under_dir fun q hq => ?_, ?_⟩
    · rw [hget, if_neg]
      rintro rfl
      exact hq under_self
    · rw [Host.turn_fs, hget, if_pos rfl]
  · intro h hn _
    exact hn.tick

/-- The unlink that makes the directory writable and tries again does the same. -/
theorem unlinkRobust_spec (isDir : Bool) (hv : ValidName name) :
    Proc.Triple (Near h₀ d (Under d name)) (unlinkRobust F d name isDir)
      (fun _ h => Near h₀ d (Under d name) h ∧ h.fs.get (d ++ [name]) = none) (Near h₀ d (Under d name)) := by
  have honce : ∀ force, Proc.Triple (Near h₀ d (Under d name)) (unlinkOnce F d name isDir force)
      (fun _ h => Near h₀ d (Under d name) h ∧ h.fs.get (d ++ [name]) = none) (Near h₀ d (Under d name)) := by
    intro force
    unfold unlinkOnce
    split
    · exact rmtree_spec hv
    · exact unlink_spec hv
  exact persistently_spec Near.makeWritable (honce false) (honce true)

/-- A new entry stands at `p`, which was free in a state within reach; nothing is below it. -/
structure Placed (h₀ : Host) (d : Path) (X : Path → Prop) (p : Path) (e : Entry) (h : Host) : Prop where
  near : Near h₀ d (fun q => X q ∨ q = p) h
  there : h.fs.get p = some e
  below : ∀ t, t ≠ [] → h.fs.get (p ++ t) = none
  free : ∃ h₁, Near h₀ d X h₁ ∧ h₁.fs.get p = none

/-- A new entry stands at the name afterwards. -/
theorem mknod_spec {e : Entry} (hX : ¬ X d) :
    Proc.Triple (Near h₀ d X) (act F (·.mknodAt d name e))
      (fun _ => Placed h₀ d X (d ++ [name]) e) (Near h₀ d X) := by
  apply Triple.act
  · intro h fs hn hfs
    obtain ⟨-, -, hfree, hget⟩ := Fs.mknodAt_ok hfs
    have hself : ¬ (X d ∨ d = d ++ [name]) := by
      rintro (hd | hd)
      · exact hX hd
      · simp at hd
    refine ⟨(hn.mono fun _ hq => Or.inl hq).turn hself fun q hq => ?_, ?_, ?_, h, hn, hfree⟩
    · rw [hget, if_neg fun heq => hq (.inr heq)]
    · rw [Host.turn_fs, hget, if_pos rfl]
    · intro t ht
      rw [Host.turn_fs, hget, if_neg (by simpa using ht)]
      apply Fs.get_append_eq_none ht
      rintro ⟨m, hm⟩
      rw [hfree] at hm
      cases hm
  · intro h hn _
    exact hn.tick

/-- A directory made for a member has the mode `0700` less the mask. -/
theorem makeDir_spec (hX : ¬ X d) :
    Proc.Triple (Near h₀ d X) (makeDir K d name)
      (fun _ => Placed h₀ d X (d ++ [name]) (.dir (0o700 &&& ~~~K.umask))) (Near h₀ d X) :=
  persistently_spec Near.makeWritable (mknod_spec hX) (mknod_spec hX)

/-- A link made for a member has the target it was given. -/
theorem makeLink_spec {target : List Char} (hX : ¬ X d) :
    Proc.Triple (Near h₀ d X) (makeLink K target d name)
      (fun _ => Placed h₀ d X (d ++ [name]) (.symlink target)) (Near h₀ d X) :=
  persistently_spec Near.makeWritable (mknod_spec hX) (mknod_spec hX)

/-- What is placed at the name stays under it. -/
theorem Placed.under {e : Entry} (hp : Placed h₀ d (Under d name) (d ++ [name]) e h) :
    Near h₀ d (Under d name) h :=
  hp.near.mono fun _ hq => hq.elim id fun heq => heq ▸ under_self

/-- A state with nothing changed is near. -/
theorem Near.of_within (hw : Within (fun _ => False) h₀ h) : Near h₀ d X h :=
  ⟨hw.of_unchanged, fun ⟨m, hm⟩ => ⟨m, (hw.unchanged d).trans hm⟩⟩

/-- A look at an entry: what is answered is there. -/
theorem lstat_spec (hv : ValidName name) :
    Proc.Triple (Within (fun _ => False) h₀) (query F (·.lstatAt d name))
      (fun e h => Within (fun _ => False) h₀ h ∧ h₀.fs.get (d ++ [name]) = some e)
      (Within (fun _ => False) h₀) := by
  apply Triple.query
  · intro h e hw hstat
    unfold Fs.lstatAt at hstat
    rw [Fs.locate_valid hv, hw.unchanged] at hstat
    split at hstat
    · rename_i e' he'
      exact ⟨hw.tick, by rw [he', Except.ok.inj hstat]⟩
    · cases hstat
  · intro h hw
    exact hw.tick

/-- **A directory is made or found**, with what was below it. -/
theorem syncDir_spec (hv : ValidName name) :
    Proc.Triple (Within (fun _ => False) h₀) (syncDir K d name)
      (fun _ h => Near h₀ d (Under d name) h ∧ h.fs.IsDir (d ++ [name]) ∧
        ∀ t, t ≠ [] → h.fs.get (d ++ [name] ++ t) = h₀.fs.get (d ++ [name] ++ t))
      (Near h₀ d (Under d name)) := by
  unfold syncDir
  apply Proc.Triple.bind (Proc.Triple.attempt (lstat_spec hv))
  intro there
  -- what is no directory has nothing below it, before and after it is replaced
  have hreplace : ∀ e, h₀.fs.get (d ++ [name]) = some e → e.isDir = false →
      Proc.Triple (Within (fun _ => False) h₀)
        (do
          unlinkRobust K.faults d name false
          makeDir K d name)
        (fun _ h => Near h₀ d (Under d name) h ∧ h.fs.IsDir (d ++ [name]) ∧
          ∀ t, t ≠ [] → h.fs.get (d ++ [name] ++ t) = h₀.fs.get (d ++ [name] ++ t))
        (Near h₀ d (Under d name)) := by
    intro e he hdir
    apply Proc.Triple.bind (Q := fun _ => Near h₀ d (Under d name))
    · exact (unlinkRobust_spec false hv).conseq (fun _ hw => Near.of_within hw) (fun _ _ hh => hh.1)
        fun _ hn => hn
    · intro _
      apply (makeDir_spec not_under_dir).conseq (fun _ hn => hn) ?_ fun _ hn => hn
      intro _ h hp
      refine ⟨hp.under, ⟨_, hp.there⟩, fun t ht => ?_⟩
      rw [hp.below t ht, Fs.get_append_eq_none ht]
      rintro ⟨m, hm⟩
      rw [he] at hm
      cases hm
      cases hdir
  cases there with
  | error e =>
    -- what is made where nothing could be seen was not there
    apply (makeDir_spec (X := fun _ => False) id).conseq (fun _ hw => Near.of_within hw) ?_
      fun _ hn => hn.mono fun _ hq => hq.elim
    intro _ h hp
    refine ⟨hp.near.mono fun _ hq => hq.elim False.elim fun heq => heq ▸ under_self, ⟨_, hp.there⟩,
      fun t ht => ?_⟩
    obtain ⟨h₁, hn₁, hfree⟩ := hp.free
    have hnone : h₀.fs.get (d ++ [name]) = none := by
      rw [← hfree, ← hn₁.within.now]
      rintro (hd | hd)
      · simp at hd
      · exact hd
    rw [hp.below t ht, Fs.get_append_eq_none ht]
    rintro ⟨m, hm⟩
    rw [hnone] at hm
    cases hm
  | ok e =>
    apply Proc.Triple.assuming
    intro he
    -- a directory is left as it is; anything else is replaced
    cases e with
    | dir m =>
      apply Proc.Triple.pure
      intro h hw
      exact ⟨Near.of_within hw, ⟨m, (hw.unchanged _).trans he⟩, fun t _ => hw.unchanged _⟩
    | file i data => exact hreplace _ he rfl
    | symlink target => exact hreplace _ he rfl

/-- The target read is the one the link has, and nothing has changed. -/
theorem readlink_spec {src : Path} :
    Proc.Triple (Within (fun _ => False) h₀) (query F (readlinkAt src name))
      (fun target h => Within (fun _ => False) h₀ h ∧ h₀.fs.get (src ++ [name]) = some (.symlink target))
      (Within (fun _ => False) h₀) := by
  apply Triple.query
  · intro h target hw htarget
    unfold readlinkAt at htarget
    rw [hw.unchanged] at htarget
    split at htarget
    · rename_i t hget
      cases htarget
      exact ⟨hw.tick, hget⟩
    all_goals cases htarget
  · intro h hw
    exact hw.tick

/-- **A link is made or found.** -/
theorem syncSymlink_spec {src : Path} {srcName : Name} (hv : ValidName name) :
    Proc.Triple (Within (fun _ => False) h₀) (syncSymlink K src srcName d name)
      (fun _ h => Near h₀ d (Under d name) h ∧ ∃ target,
        h₀.fs.get (src ++ [srcName]) = some (.symlink target) ∧ h.fs.get (d ++ [name]) = some (.symlink target))
      (Near h₀ d (Under d name)) := by
  have hclean : ∀ h, Within (fun _ => False) h₀ h → Near h₀ d (Under d name) h := fun _ => Near.of_within
  unfold syncSymlink
  apply Proc.Triple.bind
    (readlink_spec.conseq (fun _ hw => hw) (fun _ _ hh => hh) fun h hw => hclean h hw)
  intro target
  apply Proc.Triple.assuming
  intro hsrc
  have hmake : Proc.Triple (Near h₀ d (Under d name)) (makeLink K target d name)
      (fun _ h => Near h₀ d (Under d name) h ∧ ∃ target,
        h₀.fs.get (src ++ [srcName]) = some (.symlink target) ∧ h.fs.get (d ++ [name]) = some (.symlink target))
      (Near h₀ d (Under d name)) :=
    (makeLink_spec not_under_dir).conseq (fun _ hn => hn)
      (fun _ h hp => ⟨hp.under, target, hsrc, hp.there⟩) fun _ hn => hn
  -- a directory or a file in the link's place is unlinked first
  have hreplace : ∀ isDir, Proc.Triple (Within (fun _ => False) h₀)
      (do
        unlinkRobust K.faults d name isDir
        makeLink K target d name)
      (fun _ h => Near h₀ d (Under d name) h ∧ ∃ target,
        h₀.fs.get (src ++ [srcName]) = some (.symlink target) ∧ h.fs.get (d ++ [name]) = some (.symlink target))
      (Near h₀ d (Under d name)) := by
    intro isDir
    apply Proc.Triple.bind ((unlinkRobust_spec isDir hv).conseq hclean (fun _ _ hh => hh.1) fun _ hn => hn)
    intro _
    exact hmake
  apply Proc.Triple.bind (Proc.Triple.attempt (lstat_spec hv))
  intro there
  cases there with
  | error e => exact hmake.conseq hclean (fun _ _ hh => hh) fun _ hn => hn
  | ok e =>
    apply Proc.Triple.assuming
    intro he
    cases e with
    | dir m => exact hreplace true
    | file i data => exact hreplace false
    -- a link with the same target is left as it is
    | symlink t =>
      apply Proc.Triple.bind
        (readlink_spec.conseq (fun _ hw => hw) (fun _ _ hh => hh) fun h hw => hclean h hw)
      intro t'
      apply Proc.Triple.assuming
      intro ht'
      split
      · rename_i heq
        apply Proc.Triple.pure
        intro h hw
        refine ⟨hclean h hw, target, hsrc, ?_⟩
        rw [hw.unchanged, ht', heq]
      · exact hreplace false

end Near

/-! ## Files -/

/-- The names a file's turn writes to. -/
def FileAt (d : Path) (name : Name) (q : Path) : Prop := q = d ++ [name] ∨ q = d ++ [tempName name]

/-- Every directory but `d` is there with its mode, and `d` is there. -/
structure DirsKept (h₀ : Host) (d : Path) (h : Host) : Prop where
  others : ∀ q m, q ≠ d → h₀.fs.get q = some (.dir m) → h.fs.get q = some (.dir m)
  isDir : h₀.fs.IsDir d → h.fs.IsDir d

/-- A file with the data, at `p`. -/
def NewFile (K : Kernel) (data : FileData) (p : Path) (fs : Fs) : Prop :=
  ∃ i f, fs.get p = some (.file i f) ∧ f.content = data.content ∧
    (K.Obeys → f.mode = data.mode ∧ f.mtime = data.mtime)

section Files

variable {K : Kernel} {F : Faults} {h₀ h : Host} {d : Path} {name : Name} {X : Path → Prop} {α : Type}

/-- The temporary name of a member is the name of a file. -/
theorem validName_tempName (hv : ValidName name) : ValidName (tempName name) := by
  have hlen : tmpSuffix.length ≤ (tempName name).length := by
    unfold tempName
    rw [List.length_append]
    exact Nat.le_add_left _ _
  have hslash : '/' ∉ tempName name := by
    intro h
    rcases List.mem_append.mp h with h | h
    · exact hv.no_slash (List.mem_of_mem_take h)
    · exact absurd h (by decide)
  refine ⟨?_, ?_, ?_, hslash⟩ <;>
    · intro h
      rw [h] at hlen
      exact absurd hlen (by decide)

/-- Directories are kept where nothing has changed. -/
theorem DirsKept.of_same (hw : Within (fun _ => False) h₀ h) : DirsKept h₀ d h :=
  ⟨fun q _ _ hq => (hw.unchanged q).trans hq, fun ⟨m, hm⟩ => ⟨m, (hw.unchanged d).trans hm⟩⟩

/-- What writes no directory keeps them. -/
theorem DirsKept.of_stayed {p : HostSys α}
    (hp : ∀ h₁, Proc.Keeps (Stayed h₁) p fun _ => True) : Proc.Keeps (DirsKept h₀ d) p fun _ => True := by
  intro h hk
  have hrun := hp h h fun _ _ hq => hq
  rcases hr : p h with ⟨r, h'⟩
  rw [hr] at hrun
  have hkept : Stayed h h' → DirsKept h₀ d h' := fun hs =>
    ⟨fun q m hne hq => hs q m (hk.others q m hne hq), fun hdir => by
      obtain ⟨m, hm⟩ := hk.isDir hdir
      exact ⟨m, hs d m hm⟩⟩
  cases r with
  | ok a => exact ⟨hkept hrun.1, trivial⟩
  | error e => exact hkept hrun

/-- Making the directory writable keeps every directory. -/
theorem DirsKept.makeWritable : Proc.Keeps (DirsKept h₀ d) (makeWritable F d) fun _ => True := by
  apply makeWritable_dir fun _ hk => ⟨hk.others, hk.isDir⟩
  intro h fs mode hk hfs
  have hget := chmodDir_get hfs
  refine ⟨fun q m hne hq => ?_, fun _ => ⟨mode, ?_⟩⟩
  · rw [Host.turn_fs, hget, if_neg hne]
    exact hk.others q m hne hq
  · rw [Host.turn_fs, hget, if_pos rfl]

/-- The file's new inode is filled, and gets the name. -/
theorem writeFile_spec {data : FileData} (hv : ValidName name) :
    Proc.Triple (Within (fun q => q = d ∨ FileAt d name q) h₀) (writeFile K d name data)
      (fun _ h => Within (fun q => q = d ∨ FileAt d name q) h₀ h ∧ NewFile K data (d ++ [name]) h.fs ∧
        (tempName name ≠ name → h.fs.get (d ++ [tempName name]) = none))
      (Within (fun q => q = d ∨ FileAt d name q) h₀) := by
  have hX : d ++ [tempName name] = d ∨ FileAt d name (d ++ [tempName name]) := .inr (.inr rfl)
  have hopen : Proc.Triple (Within (fun q => q = d ∨ FileAt d name q) h₀)
      (openNewAt K.toKernel d (tempName name) data.mode)
      (fun _ => Holds (fun q => q = d ∨ FileAt d name q) h₀ (d ++ [tempName name]) fun f => f.content = [])
      (Within (fun q => q = d ∨ FileAt d name q) h₀) := openNewAt_spec (validName_tempName hv) hX
  unfold writeFile
  apply Proc.Triple.bind (persistently_spec (makeWritable_within (.inl rfl)) hopen hopen)
  intro _
  apply Proc.Triple.bind (copyData_spec hX data.content)
  intro _
  apply Proc.Triple.bind (Q := fun _ => Holds (fun q => q = d ∨ FileAt d name q) h₀ (d ++ [tempName name])
    fun f => f.content = data.content ∧ (K.Obeys → f.mode = data.mode ∧ f.mtime = data.mtime))
  · unfold copyFileMetadata
    apply Proc.Triple.bind (Q := fun _ => Holds (fun q => q = d ∨ FileAt d name q) h₀ (d ++ [tempName name])
      fun f => f.content = data.content ∧ (K.Obeys → f.mode = data.mode))
    · exact write_quietly hX (fun f hf => ⟨hf, fun _ => rfl⟩) fun f hf hnot =>
        ⟨hf, fun hobeys => absurd hobeys hnot⟩
    · intro _
      exact write_quietly hX (fun f hf => ⟨hf.1, fun hobeys => ⟨hf.2 hobeys, rfl⟩⟩) fun f hf hnot =>
        ⟨hf.1, fun hobeys => absurd hobeys hnot⟩
  · intro _
    apply Triple.act
    · intro h fs hh hfs
      obtain ⟨i, f, hget, hf, hunique⟩ := hh.file
      have hpoint := (Fs.renameAt_ok hv hget hunique hfs).2
      refine ⟨hh.within.turn fun q hq => ?_, ⟨i, f, ?_, hf⟩, fun hne => ?_⟩
      · rw [hpoint, if_neg, if_neg]
        · rintro rfl
          exact hq hX
        · rintro rfl
          exact hq (.inr (.inl rfl))
      · rw [Host.turn_fs, hpoint, if_pos rfl]
      · rw [Host.turn_fs, hpoint, if_neg (by simpa using hne), if_pos rfl]
    · intro h hh _
      exact hh.within.tick

/-- Writing a file keeps every directory. -/
theorem writeFile_dirs {data : FileData} :
    Proc.Keeps (DirsKept h₀ d) (writeFile K d name data) fun _ => True := by
  have hopen : Proc.Keeps (DirsKept h₀ d) (openNewAt K.toKernel d (tempName name) data.mode) fun _ => True :=
    DirsKept.of_stayed fun _ => openNewAt_stayed
  apply Proc.Keeps.bind (persistently_spec DirsKept.makeWritable hopen hopen)
  intro _ _
  apply DirsKept.of_stayed
  intro h₁
  apply Proc.Keeps.bind (Q := fun _ => True)
  · apply Proc.Keeps.each
    intro piece _
    exact query_stayed.bind fun _ _ => act_stayed fun _ _ => modifyAt_dirs
  · intro _ _
    apply Proc.Keeps.bind (Q := fun _ => True)
    · apply (act_stayed fun _ _ => modifyAt_dirs).quietly.bind
      intro _ _
      exact (act_stayed fun _ _ => modifyAt_dirs).quietly
    · intro _ _
      exact act_stayed fun _ _ => renameAt_dirs

/-- Where a file's turn has got to: what is in its reach, and what came of it. -/
structure FileTurn (K : Kernel) (src : Path) (h₀ : Host) (d : Path) (name : Name) (rel : Path) (ctx : Ctx)
    (ctx' : Ctx) (h : Host) : Prop where
  within : Within (fun q => q = d ∨ FileAt d name q) h₀ h
  dirs : DirsKept h₀ d h
  outcome : ctx' = ctx.noteFailure rel ∨ ctx' = ctx ∧ (∃ i data,
    h₀.fs.get (src ++ [name]) = some (.file i data) ∧ NewFile K data (d ++ [name]) h.fs) ∧
      (tempName name ≠ name → h.fs.get (d ++ [tempName name]) = none)

/-- What is opened as a regular file is one, with the data it is read to have. -/
theorem openRegular_spec {C : CopyTree.Kernel} {p : Path} {n : Name} (hv : ValidName n) :
    Proc.Triple (Within (fun _ => False) h₀) (openRegularAt C p n)
      (fun data h => Within (fun _ => False) h₀ h ∧ ∃ i, h₀.fs.get (p ++ [n]) = some (.file i data))
      (Within (fun _ => False) h₀) := by
  apply Triple.query
  · intro h data hw hdata
    split at hdata
    · cases hdata
    · unfold Dirfd.readRegular at hdata
      rw [Fs.locate_valid hv, hw.unchanged] at hdata
      split at hdata
      · rename_i i f hget
        cases hdata
        exact ⟨hw.tick, i, hget⟩
      all_goals cases hdata
  · intro h hw
    exact hw.tick

/-- A replaced file changes its two names and the directory, and holds the new data. -/
theorem replaceFile_spec {data : FileData} (hv : ValidName name) :
    Proc.Triple (Within (fun _ => False) h₀) (replaceFile K d name data)
      (fun _ h => (Within (fun q => q = d ∨ FileAt d name q) h₀ h ∧ NewFile K data (d ++ [name]) h.fs ∧
        (tempName name ≠ name → h.fs.get (d ++ [tempName name]) = none)) ∧ DirsKept h₀ d h ∧ True)
      (fun h => Within (fun q => q = d ∨ FileAt d name q) h₀ h ∧ DirsKept h₀ d h) := by
  have hfirst : Proc.Triple (Within (fun q => q = d ∨ FileAt d name q) h₀) (replaceFile K d name data)
      (fun _ h => Within (fun q => q = d ∨ FileAt d name q) h₀ h ∧ NewFile K data (d ++ [name]) h.fs ∧
        (tempName name ≠ name → h.fs.get (d ++ [tempName name]) = none))
      (Within (fun q => q = d ∨ FileAt d name q) h₀) := by
    apply (writeFile_spec hv).handle
    intro e
    apply (unlink_within (validName_tempName hv) (.inr (.inr rfl))).quietly.bind_triple fun _ hw => hw
    intro _ _
    exact Proc.Triple.fail fun _ hw => hw
  have hsecond : Proc.Keeps (DirsKept h₀ d) (replaceFile K d name data) fun _ => True := by
    apply writeFile_dirs.handle
    intro e
    apply Proc.Keeps.bind (DirsKept.of_stayed fun _ => (act_stayed fun _ _ => unlinkAt_dirs).quietly)
    intro _ _
    exact Proc.Keeps.fail
  exact (hfirst.both hsecond).conseq (fun h hw => ⟨hw.of_unchanged, DirsKept.of_same hw⟩)
    (fun _ _ hh => hh) fun _ hh => hh

/-- A failure that is noted is a turn of the file: nothing has changed. -/
theorem noted_turn {src rel : Path} {ctx : Ctx} {E : Host → Prop} :
    Proc.Triple (Within (fun _ => False) h₀) (pure (ctx.noteFailure rel) : HostSys Ctx)
      (FileTurn K src h₀ d name rel ctx) E :=
  Proc.Triple.pure fun _ hw => ⟨hw.of_unchanged, DirsKept.of_same hw, .inl rfl⟩

/-- The transfer of a file is its turn, whatever is refused. -/
theorem transferFile_spec {src rel : Path} {ctx : Ctx} {E : Host → Prop} (hv : ValidName name) :
    Proc.Triple (Within (fun _ => False) h₀) (transferFile K src name d name rel ctx)
      (FileTurn K src h₀ d name rel ctx) E := by
  unfold transferFile
  apply Proc.Triple.bind (Proc.Triple.attempt (openRegular_spec hv))
  intro result
  cases result with
  | error e => exact noted_turn
  | ok data =>
    apply Proc.Triple.assuming
    rintro ⟨i, hsrc⟩
    unfold reported
    apply Proc.Triple.bind (Proc.Triple.attempt (replaceFile_spec hv))
    intro result
    cases result with
    | error e => exact Proc.Triple.pure fun h hh => ⟨hh.1, hh.2, .inl rfl⟩
    | ok u => exact Proc.Triple.pure fun h hh =>
        ⟨hh.1.1, hh.2.1, .inr ⟨rfl, ⟨i, data, hsrc, hh.1.2.1⟩, hh.1.2.2⟩⟩

/-- **A file is written**, or noted. -/
theorem syncFile_spec {src rel : Path} {ctx : Ctx} {E : Host → Prop} (hv : ValidName name) :
    Proc.Triple (Within (fun _ => False) h₀) (syncFile K src name d name rel ctx)
      (FileTurn K src h₀ d name rel ctx) E := by
  unfold syncFile
  apply Proc.Triple.bind (Proc.Triple.attempt (lstat_spec hv))
  intro there
  cases there with
  | error e => exact transferFile_spec hv
  | ok e =>
    apply Proc.Triple.assuming
    intro _
    cases e with
    | dir m => exact noted_turn
    | file i data => exact transferFile_spec hv
    | symlink target => exact transferFile_spec hv

/-! ### Files that are up to date -/

/-- Content that is equal under the comparison that was chosen. -/
def Matches (K : Kernel) (data data' : FileData) : Prop :=
  data.content.length = data'.content.length ∧
    if K.useChecksum then K.crc data.content = K.crc data'.content
    else K.seconds data.mtime = K.seconds data'.mtime

/-- The comparison only looks; where it finds nothing to do, the destination has a file that matches. -/
theorem needsUpdate_spec {src : Path} {srcName : Name} {i : Nat} {data : FileData} {E : Host → Prop}
    (hvs : ValidName srcName) (hv : ValidName name) (hsrc : h₀.fs.get (src ++ [srcName]) = some (.file i data)) :
    Proc.Triple (Within (fun _ => False) h₀) (needsUpdate K src srcName data d name)
      (fun b h => Within (fun _ => False) h₀ h ∧ (b = false → K.special (d ++ [name]) = false ∧
        ∃ i₀ f₀, h₀.fs.get (d ++ [name]) = some (.file i₀ f₀) ∧ Matches K data f₀)) E := by
  have htrue : Proc.Triple (Within (fun _ => False) h₀) (pure true : HostSys Bool)
      (fun b h => Within (fun _ => False) h₀ h ∧ (b = false → K.special (d ++ [name]) = false ∧
        ∃ i₀ f₀, h₀.fs.get (d ++ [name]) = some (.file i₀ f₀) ∧ Matches K data f₀)) E :=
    Proc.Triple.pure fun _ hw => ⟨hw, fun hfalse => by cases hfalse⟩
  unfold needsUpdate
  apply Proc.Triple.bind (Proc.Triple.attempt (lstat_spec hv))
  intro there
  cases there with
  -- whatever is no regular file of the same length is to be written
  | error e => exact htrue
  | ok e =>
    apply Proc.Triple.assuming
    intro he
    cases e with
    | dir m => exact htrue
    | symlink target => exact htrue
    | file i₀ f₀ =>
      dsimp only
      split
      · exact htrue
      · rename_i hspecial
        have hregular : K.special (d ++ [name]) = false := Bool.not_eq_true _ ▸ hspecial
        split
        · exact htrue
        · rename_i hlength
          rw [not_not] at hlength
          split
          -- with checksums the contents are compared, both read again
          · rename_i hchecksum
            have hcompare : Proc.Triple (Within (fun _ => False) h₀) (do
                let a ← openRegularAt K.source src srcName
                let b ← openRegularAt K.toKernel d name
                pure (decide (K.crc a.content ≠ K.crc b.content)) : HostSys Bool)
                (fun b h => Within (fun _ => False) h₀ h ∧ (b = false → K.special (d ++ [name]) = false ∧
                  ∃ i₀ f₀, h₀.fs.get (d ++ [name]) = some (.file i₀ f₀) ∧ Matches K data f₀))
                (Within (fun _ => False) h₀) := by
              apply Proc.Triple.bind (openRegular_spec hvs)
              intro a
              apply Proc.Triple.assuming
              rintro ⟨j, ha⟩
              rw [hsrc] at ha
              cases ha
              apply Proc.Triple.bind (openRegular_spec hv)
              intro b
              apply Proc.Triple.assuming
              rintro ⟨j, hb⟩
              apply Proc.Triple.pure
              intro h hw
              refine ⟨hw, fun hsame => ⟨hregular, j, b, hb, ?_⟩⟩
              rw [he] at hb
              cases hb
              refine ⟨hlength, ?_⟩
              rw [if_pos hchecksum]
              simpa using hsame
            apply hcompare.handle
            intro _
            exact Proc.Triple.pure fun _ hw => ⟨hw, fun hfalse => by cases hfalse⟩
          -- without, the times are
          · rename_i hchecksum
            apply Proc.Triple.pure
            intro h hw
            refine ⟨hw, fun hsame => ⟨hregular, i₀, f₀, he, hlength, ?_⟩⟩
            rw [if_neg hchecksum]
            simpa using hsame

/-- One link: no other name has the inode. -/
theorem unique_of_linkCount {fs : Fs} {i : Nat} {p : Path} {f : FileData} (hp : fs.get p = some (.file i f))
    (hone : linkCount fs i = 1) : ∀ q f', fs.get q = some (.file i f') → q = p := by
  intro q f' hq
  by_contra hne
  have hcounts : ∀ {r g}, fs.get r = some (.file i g) → r ∈ fs.table.keys.filter (namesInode fs i) := by
    intro r g hr
    rw [List.mem_filter]
    refine ⟨mem_keys (by rw [hr]; simp), ?_⟩
    unfold namesInode
    rw [hr]
    exact decide_eq_true rfl
  unfold linkCount at hone
  rw [List.countP_eq_length_filter] at hone
  obtain ⟨x, hx⟩ := List.length_eq_one_iff.mp hone
  have hqx := hcounts hq
  have hpx := hcounts hp
  rw [hx, List.mem_singleton] at hqx hpx
  exact hne (hqx.trans hpx.symm)

/-- A call that sets a mode or a time takes, or the kernel does not obey. -/
theorem set_spec {f : FileData → FileData} {P Q : FileData → Prop} (hX : X (d ++ [name]))
    (hf : ∀ data, P data → Q (f data)) :
    Proc.Triple (Holds X h₀ (d ++ [name]) P) (act K.metadata (·.modifyAt d name f))
      (fun _ => Holds X h₀ (d ++ [name]) Q) (fun h => Holds X h₀ (d ++ [name]) P h ∧ ¬ K.Obeys) := by
  apply Triple.act
  · intro h fs hh hfs
    exact hh.modify hX hf hfs
  · intro h hh hwhy
    refine ⟨hh.tick, fun hobeys => ?_⟩
    obtain ⟨e, he⟩ := hwhy (hobeys _)
    obtain ⟨i, data, hget, -⟩ := hh.file
    rw [Fs.modifyAt_of_file hget] at he
    cases he

/-- The file has the content it had, and where the kernel obeys the source's mode and time. -/
def Refreshed (K : Kernel) (srcData f₀ f : FileData) : Prop :=
  f.content = f₀.content ∧ (K.Obeys → f.mode = srcData.mode ∧ K.seconds f.mtime = K.seconds srcData.mtime)

/-- Refreshing mode and time leaves what stands between the old file and the source. -/
theorem fixMetadata_spec {srcData f₀ : FileData} (hX : X (d ++ [name])) :
    Proc.Triple (Holds X h₀ (d ++ [name]) (· = f₀)) (fixMetadata K srcData f₀ d name)
      (fun _ => Holds X h₀ (d ++ [name]) (Refreshed K srcData f₀))
      (fun h => Holds X h₀ (d ++ [name]) (Refreshed K srcData f₀) h) := by
  have hfails : ∀ {P : FileData → Prop} h, (∀ f, P f → f.content = f₀.content) →
      Holds X h₀ (d ++ [name]) P h ∧ ¬ K.Obeys → Holds X h₀ (d ++ [name]) (Refreshed K srcData f₀) h := by
    rintro P h hP ⟨hh, hnot⟩
    exact hh.weaken fun f hf => ⟨hP f hf, fun hobeys => absurd hobeys hnot⟩
  unfold fixMetadata
  apply Proc.Triple.bind (Q := fun _ => Holds X h₀ (d ++ [name]) fun f =>
    f.content = f₀.content ∧ f.mode = srcData.mode ∧ f.mtime = f₀.mtime)
  · unfold fixMode
    split
    · apply (set_spec hX (Q := fun f => f.content = f₀.content ∧ f.mode = srcData.mode ∧ f.mtime = f₀.mtime)
        ?_).conseq (fun _ hh => hh) (fun _ _ hh => hh) fun h hh => hfails h (by rintro f rfl; rfl) hh
      rintro f rfl
      exact ⟨rfl, rfl, rfl⟩
    · rename_i hmode
      rw [not_not] at hmode
      apply Proc.Triple.pure
      intro h hh
      exact hh.weaken fun f hf => by subst hf; exact ⟨rfl, hmode, rfl⟩
  · intro _
    unfold fixTime
    split
    · apply (set_spec hX (Q := Refreshed K srcData f₀) ?_).conseq (fun _ hh => hh) (fun _ _ hh => hh)
        fun h hh => hfails h (fun f hf => hf.1) hh
      rintro f ⟨hcontent, hmode, -⟩
      exact ⟨hcontent, fun _ => ⟨hmode, rfl⟩⟩
    · rename_i htime
      rw [not_not] at htime
      apply Proc.Triple.pure
      intro h hh
      apply hh.weaken
      rintro f ⟨hcontent, hmode, hsame⟩
      exact ⟨hcontent, fun _ => ⟨hmode, by rw [hsame, htime]⟩⟩

/-- Where a file that is up to date has got to. -/
structure UpToDate (K : Kernel) (h₀ : Host) (d : Path) (name : Name) (srcData f₀ : FileData) (h : Host) : Prop where
  within : Within (· = d ++ [name]) h₀ h
  file : ∃ i f, h.fs.get (d ++ [name]) = some (.file i f) ∧ Refreshed K srcData f₀ f

/-- A refresh that does not give up leaves the file up to date, and one that does has changed nothing. -/
theorem refresh_spec {srcData f₀ : FileData} {i₀ : Nat} {E : Host → Prop} (hspecial : K.special (d ++ [name]) = false)
    (hget : h₀.fs.get (d ++ [name]) = some (.file i₀ f₀)) :
    Proc.Triple (Within (fun _ => False) h₀) (refreshFileMetadata K srcData d name)
      (fun outcome h => (outcome = .rewrite → Within (fun _ => False) h₀ h) ∧
        (outcome ≠ .rewrite → UpToDate K h₀ d name srcData f₀ h)) E := by
  have hstands : ∀ h, Within (fun _ => False) h₀ h → Refreshed K srcData f₀ f₀ →
      UpToDate K h₀ d name srcData f₀ h := fun h hw hf =>
    ⟨hw.of_unchanged, i₀, f₀, (hw.unchanged _).trans hget, hf⟩
  -- the link count says whether the inode has another name
  have hstat : Proc.Triple (Within (fun _ => False) h₀) (query K.metadata (statRegular K d name))
      (fun x h => Within (fun _ => False) h₀ h ∧ (x.1 = f₀ ∧
        (x.2 = 1 → ∀ q f', h₀.fs.get q = some (.file i₀ f') → q = d ++ [name])))
      (fun h => Within (fun _ => False) h₀ h ∧ ¬ K.Obeys) := by
    intro h hw
    have hhere : h.fs.get (d ++ [name]) = some (.file i₀ f₀) := (hw.unchanged _).trans hget
    have hanswer : statRegular K d name h.fs = .ok (f₀, linkCount h.fs i₀) := by
      unfold statRegular
      rw [if_neg (by rw [hspecial]; decide), hhere]
    rcases query_cases K.metadata (statRegular K d name) h with ⟨a, hq, ha⟩ | ⟨e, hq, hwhy⟩
    · rw [hq]
      rw [hanswer] at ha
      cases ha
      refine ⟨hw.tick, rfl, fun hlinks q f' hq' => ?_⟩
      exact unique_of_linkCount hhere hlinks q f' ((hw.unchanged q).trans hq')
    · rw [hq]
      refine ⟨hw.tick, fun hobeys => ?_⟩
      rcases hwhy with herr | ⟨hrefused, -⟩
      · rw [hanswer] at herr
        cases herr
      · exact hrefused (hobeys _)
  have hdone : ∀ h, Holds (· = d ++ [name]) h₀ (d ++ [name]) (Refreshed K srcData f₀) h →
      UpToDate K h₀ d name srcData f₀ h := by
    rintro h ⟨hwithin, i, f, hf, hr, -⟩
    exact ⟨hwithin, i, f, hf, hr⟩
  unfold refreshFileMetadata
  apply Proc.Triple.bind (Proc.Triple.attempt hstat)
  intro result
  cases result with
  -- the status cannot be read: the kernel does not obey
  | error e =>
    apply Proc.Triple.pure
    rintro h ⟨hw, hnot⟩
    exact ⟨fun hr => (by cases hr), fun _ => hstands h hw ⟨rfl, fun hobeys => absurd hobeys hnot⟩⟩
  | ok x =>
    apply Proc.Triple.assuming
    rintro ⟨hdata, hunique⟩
    obtain ⟨data, nlink⟩ := x
    dsimp only at hdata hunique ⊢
    subst hdata
    split
    -- mode and time are as they should be
    · rename_i hsame
      exact Proc.Triple.pure fun h hw => ⟨fun hr => (by cases hr), fun _ => hstands h hw ⟨rfl, fun _ => hsame⟩⟩
    · split
      -- another name shares the inode: the file is to be written anew
      · exact Proc.Triple.pure fun h hw => ⟨fun _ => hw, fun hr => absurd rfl hr⟩
      · rename_i hlinks
        rw [not_not] at hlinks
        -- the file has no other name, so what is set in place is set here only
        have hfix : Proc.Triple (Within (fun _ => False) h₀)
            (do
              fixMetadata K srcData data d name
              pure Meta.fixed)
            (fun outcome h => outcome = .fixed ∧
              Holds (· = d ++ [name]) h₀ (d ++ [name]) (Refreshed K srcData data) h)
            (Holds (· = d ++ [name]) h₀ (d ++ [name]) (Refreshed K srcData data)) := by
          have hfixed : Proc.Triple (Holds (· = d ++ [name]) h₀ (d ++ [name]) (· = data))
              (fixMetadata K srcData data d name)
              (fun _ => Holds (· = d ++ [name]) h₀ (d ++ [name]) (Refreshed K srcData data))
              (Holds (· = d ++ [name]) h₀ (d ++ [name]) (Refreshed K srcData data)) := fixMetadata_spec rfl
          apply Proc.Triple.bind (hfixed.conseq ?_ (fun _ _ hh => hh) fun _ hh => hh)
          · intro _
            exact Proc.Triple.pure fun _ hh => ⟨rfl, hh⟩
          · intro h hw
            refine ⟨hw.of_unchanged, i₀, data, (hw.unchanged _).trans hget, rfl, fun q f' hq => ?_⟩
            rw [hw.unchanged] at hq
            exact hunique hlinks q f' hq
        apply Proc.Triple.handle (hfix.conseq (fun _ hh => hh) ?_ fun _ hh => hh)
        · intro _
          exact Proc.Triple.pure fun h hh => ⟨fun hr => (by cases hr), fun _ => hdone h hh⟩
        · rintro outcome h ⟨rfl, hh⟩
          exact ⟨fun hr => (by cases hr), fun _ => hdone h hh⟩

/-! ### A file's turn -/

/-- An entry the passes have brought into line with the source's; `before` is what stood in its place.
What was written has the content exactly, and what was left alone matched. -/
def Copied (K : Kernel) (before : Option Entry) : Entry → Entry → Prop
  | .dir m, .dir m' => K.Obeys → m' = m
  | .file _ data, .file _ data' =>
    (data'.content = data.content ∨
      ∃ i₀ f₀, before = some (.file i₀ f₀) ∧ Matches K data f₀ ∧ data'.content = f₀.content) ∧
    (K.Obeys → data'.mode = data.mode ∧ K.seconds data'.mtime = K.seconds data.mtime)
  | .symlink target, .symlink target' => target' = target
  | _, _ => False

/-- What was made where nothing stood is as good as if anything had stood there. -/
theorem Copied.of_before {before before' : Option Entry} {e e' : Entry} (hc : Copied K before' e e')
    (hb : before' = before ∨ before' = none) : Copied K before e e' := by
  rcases hb with rfl | rfl
  · exact hc
  · cases e <;> cases e'
    case file.file i data i' data' =>
      refine ⟨hc.1.imp_right ?_, hc.2⟩
      rintro ⟨i₀, f₀, hnone, -⟩
      cases hnone
    all_goals exact hc

/-- The look at the destination, and what is set in place. -/
theorem fileOutcome_spec {src : Path} {srcName : Name} {i : Nat} {data : FileData} {E : Host → Prop}
    (hvs : ValidName srcName) (hv : ValidName name) (hsrc : h₀.fs.get (src ++ [srcName]) = some (.file i data)) :
    Proc.Triple (Within (fun _ => False) h₀) (fileOutcome K src srcName data d name)
      (fun outcome h => (outcome = .rewrite → Within (fun _ => False) h₀ h) ∧
        (outcome ≠ .rewrite → ∃ i₀ f₀, h₀.fs.get (d ++ [name]) = some (.file i₀ f₀) ∧ Matches K data f₀ ∧
          UpToDate K h₀ d name data f₀ h)) E := by
  unfold fileOutcome
  apply Proc.Triple.bind (needsUpdate_spec hvs hv hsrc)
  intro update
  cases update with
  | true => exact Proc.Triple.pure fun h hh => ⟨fun _ => hh.1, fun hne => absurd rfl hne⟩
  | false =>
    apply Proc.Triple.assuming
    intro hsame
    obtain ⟨hspecial, i₀, f₀, hget, hmatches⟩ := hsame rfl
    exact (refresh_spec hspecial hget).conseq (fun _ hw => hw)
      (fun _ _ hh => ⟨hh.1, fun hne => ⟨i₀, f₀, hget, hmatches, hh.2 hne⟩⟩) fun _ he => he

/-- What has become of a regular file of the source. -/
structure FileDone (K : Kernel) (src : Path) (h₀ : Host) (d : Path) (name : Name) (rel : Path) (ctx ctx' : Ctx)
    (h : Host) : Prop where
  within : Within (fun q => q = d ∨ FileAt d name q) h₀ h
  dirs : DirsKept h₀ d h
  outcome : ctx' = ctx.noteFailure rel ∨ ctx' = ctx ∧
    (∀ e, h₀.fs.get (src ++ [name]) = some e →
      ∃ e', h.fs.get (d ++ [name]) = some e' ∧ Copied K (h₀.fs.get (d ++ [name])) e e') ∧
    (tempName name ≠ name → h.fs.get (d ++ [tempName name]) = h₀.fs.get (d ++ [tempName name]) ∨
      h.fs.get (d ++ [tempName name]) = none)

/-- **A regular file's turn.** -/
theorem mirrorFile_spec {src rel : Path} {ctx : Ctx} {i : Nat} {data : FileData} {E : Host → Prop}
    (hv : ValidName name) (hsrc : h₀.fs.get (src ++ [name]) = some (.file i data)) :
    Proc.Triple (Within (fun _ => False) h₀) (mirrorFile K src name data d name rel ctx)
      (FileDone K src h₀ d name rel ctx) E := by
  unfold mirrorFile
  apply Proc.Triple.bind (fileOutcome_spec hv hv hsrc)
  intro outcome
  split
  · rename_i hrewrite
    apply (syncFile_spec hv).conseq (fun h hh => hh.1 hrewrite) ?_ fun _ he => he
    intro ctx' h ht
    refine ⟨ht.within, ht.dirs, ht.outcome.imp_right ?_⟩
    rintro ⟨hctx, ⟨j, data', hsrc', i', f, hget, hcontent, hmeta⟩, htemp⟩
    refine ⟨hctx, fun e he => ⟨_, hget, ?_⟩, fun hne => .inr (htemp hne)⟩
    rw [hsrc', Option.some.injEq] at he
    subst he
    exact ⟨.inl hcontent, fun hobeys => ⟨(hmeta hobeys).1, by rw [(hmeta hobeys).2]⟩⟩
  · rename_i hrewrite
    apply Proc.Triple.pure
    intro h hh
    obtain ⟨i₀, f₀, hget, hmatches, hdone⟩ := hh.2 hrewrite
    have hsame : ∀ q, q ≠ d ++ [name] → h.fs.get q = h₀.fs.get q := hdone.within.now
    refine ⟨hdone.within.mono fun q hq => .inr (.inl hq), ⟨fun q m _ hq => ?_, fun hdir => ?_⟩, .inr ⟨rfl, ?_, ?_⟩⟩
    · rw [hsame, hq]
      rintro rfl
      rw [hget] at hq
      cases hq
    · obtain ⟨m, hm⟩ := hdir
      exact ⟨m, by rw [hsame _ (by simp), hm]⟩
    · intro e he
      obtain ⟨i', f, hf, hcontent, hmeta⟩ := hdone.file
      rw [hsrc, Option.some.injEq] at he
      subst he
      exact ⟨_, hf, .inr ⟨i₀, f₀, hget, hmatches, hcontent⟩, hmeta⟩
    · intro hne
      exact .inl (hsame _ (by simpa using hne))

end Files

end ProotDistro.Sync
