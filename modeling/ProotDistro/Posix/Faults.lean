import ProotDistro.Lib.Proc
import ProotDistro.Posix.Fs

/-!
# A kernel that may turn any call down

The file system of `Posix.Fs` refuses a call for what stands at the path only. Here any call
may be refused on top of that, for a reason of the kernel's own (permissions, an I/O error, a
full descriptor table): which ones are is given by the number of the call, so a theorem over
every `Faults` is one over every pattern of failures.

* **`query`** / **`act`** — a call that looks, and one that changes the file system as a whole
  or not at all.
* **`Host.past`** — every state the file system has been in, so that "wherever the process
  stops" is a statement about a list.
* **`Host.times`** — when each directory was last changed; `turn_times` says which calls leave it.
* **`mtimeOf`** / **`utime`** — its time, read off a descriptor and set.
* **`Triple.query`** / **`Triple.act`** — the rules for one call.
-/

namespace Posix

/-- Why a call is refused. An entry that is there is never said to be missing. -/
abbrev Refusal := {e : Errno // e ≠ .ENOENT}

/-- Which of the calls a process makes are refused, by their number. -/
abbrev Faults := Nat → Option Refusal

/-- No call is refused for a reason of the kernel's own. -/
def noFaults : Faults := fun _ => none

/-- What a directory records of an entry: which one it is, and nothing of what is in it. -/
def Entry.listed : Entry → Entry
  | .dir _ => .dir 0
  | .file i _ => .file i ⟨[], 0, 0⟩
  | .symlink target => .symlink target

/-- The entries of the directory `q` are other ones than before, or it was none before. -/
def Fs.relisted (before after : Fs) (q : Path) : Bool :=
  decide (after.IsDir q) && (!decide (before.IsDir q) ||
    (before.listdir q ++ after.listdir q).any fun n =>
      decide ((after.get (q ++ [n])).map Entry.listed ≠ (before.get (q ++ [n])).map Entry.listed))

/-- A file system in use by one process. -/
structure Host where
  fs : Fs
  /-- how many calls were made -/
  calls : Nat
  /-- what the file system was before, newest first -/
  past : List Fs
  /-- `st_mtime` of each directory -/
  times : Path → Int
  /-- what a call sets it to, by the number of the call and the directory whose entries it changes -/
  clock : Nat → Path → Int

namespace Host

def start (fs : Fs) : Host := ⟨fs, 0, [], fun _ => 0, fun _ _ => 0⟩

/-- One more call was made. -/
def tick (h : Host) : Host := { h with calls := h.calls + 1 }

/-- One more call was made and changed the file system. -/
def turn (h : Host) (fs : Fs) : Host where
  fs := fs
  calls := h.calls + 1
  past := h.fs :: h.past
  times := fun q => if h.fs.relisted fs q then h.clock h.calls q else h.times q
  clock := h.clock

/-- A directory's time was set. -/
def setTime (h : Host) (d : Path) (time : Int) : Host :=
  { h with times := fun q => if q = d then time else h.times q }

/-- Every state the file system has been in, the present one included. -/
def states (h : Host) : List Fs := h.fs :: h.past

@[simp] theorem tick_fs (h : Host) : h.tick.fs = h.fs := rfl

@[simp] theorem tick_past (h : Host) : h.tick.past = h.past := rfl

@[simp] theorem tick_states (h : Host) : h.tick.states = h.states := rfl

@[simp] theorem turn_fs (h : Host) (fs : Fs) : (h.turn fs).fs = fs := rfl

@[simp] theorem turn_states (h : Host) (fs : Fs) : (h.turn fs).states = fs :: h.states := rfl

@[simp] theorem tick_times (h : Host) : h.tick.times = h.times := rfl

@[simp] theorem setTime_fs (h : Host) (d : Path) (time : Int) : (h.setTime d time).fs = h.fs := rfl

@[simp] theorem setTime_states (h : Host) (d : Path) (time : Int) :
    (h.setTime d time).states = h.states := rfl

/-- The time set is the time there. -/
theorem setTime_self (h : Host) (d : Path) (time : Int) : (h.setTime d time).times d = time :=
  if_pos rfl

/-- Another directory keeps its own. -/
theorem setTime_of_ne (h : Host) {d q : Path} (time : Int) (hq : q ≠ d) :
    (h.setTime d time).times q = h.times q :=
  if_neg hq

/-- A directory keeps its time where its entries are the same ones. -/
theorem turn_times {h : Host} {fs : Fs} {q : Path} (hdir : fs.IsDir q → h.fs.IsDir q)
    (hlisted : ∀ n, (fs.get (q ++ [n])).map Entry.listed = (h.fs.get (q ++ [n])).map Entry.listed) :
    (h.turn fs).times q = h.times q := by
  have hsame : h.fs.relisted fs q = false := by
    unfold Fs.relisted
    by_cases hnow : fs.IsDir q
    · simp [hnow, hdir hnow, hlisted]
    · simp [hnow]
  show (if h.fs.relisted fs q then h.clock h.calls q else h.times q) = h.times q
  rw [hsame]
  rfl

@[simp] theorem start_fs (fs : Fs) : (start fs).fs = fs := rfl

@[simp] theorem start_states (fs : Fs) : (start fs).states = [fs] := rfl

end Host

/-- System calls in sequence, each of which may be refused. -/
abbrev HostSys := Proc Host Errno

variable {α : Type}

/-- A call that only looks. -/
def query (F : Faults) (g : Fs → Except Errno α) : HostSys α := fun h =>
  match F h.calls with
  | some e => (.error e, h.tick)
  | none => (g h.fs, h.tick)

/-- A call that changes the file system as a whole or not at all. -/
def act (F : Faults) (g : Fs → Except Errno Fs) : HostSys Unit := fun h =>
  match F h.calls with
  | some e => (.error e, h.tick)
  | none =>
    match g h.fs with
    | .ok fs => (.ok (), h.turn fs)
    | .error e => (.error e, h.tick)

/-- `st_mtime` of a directory, off the `fstat` that was just made of it. -/
def mtimeOf (d : Path) : HostSys Int := .look fun h => .ok (h.times d)

/-- `utime` on the descriptor of a directory. -/
def utime (F : Faults) (d : Path) (time : Int) : HostSys Unit := fun h =>
  match F h.calls with
  | some e => (.error e, h.tick)
  | none => (.ok (), h.tick.setTime d time)

/-! ## Rules -/

section Rules

variable {F : Faults} {h : Host} {a : α}

/-- A look that is allowed sees the state. -/
theorem query_of_allowed {g : Fs → Except Errno α} (hF : F h.calls = none) :
    query F g h = (g h.fs, h.tick) := by
  unfold query
  rw [hF]

/-- One that is refused answers the refusal. -/
theorem query_of_refused {g : Fs → Except Errno α} {e : Refusal} (hF : F h.calls = some e) :
    query F g h = (.error e, h.tick) := by
  unfold query
  rw [hF]

/-- A call that is allowed and succeeds makes its state. -/
theorem act_of_allowed {g : Fs → Except Errno Fs} {fs : Fs} (hF : F h.calls = none)
    (hg : g h.fs = .ok fs) : act F g h = (.ok (), h.turn fs) := by
  unfold act
  simp only [hF, hg]

/-- Looking changes nothing, and what is answered is there. -/
theorem query_cases (F : Faults) (g : Fs → Except Errno α) (h : Host) :
    (∃ a, query F g h = (.ok a, h.tick) ∧ g h.fs = .ok a) ∨
      ∃ e, query F g h = (.error e, h.tick) ∧
        (g h.fs = .error e ∨ F h.calls ≠ none ∧ e ≠ .ENOENT) := by
  cases hF : F h.calls with
  | some e => exact .inr ⟨e, query_of_refused hF, .inr ⟨by simp, e.2⟩⟩
  | none =>
    rw [query_of_allowed hF]
    cases hg : g h.fs with
    | ok a => exact .inl ⟨a, rfl, rfl⟩
    | error e => exact .inr ⟨e, rfl, .inl rfl⟩

/-- A change happens as a whole, or nothing does. -/
theorem act_cases (F : Faults) (g : Fs → Except Errno Fs) (h : Host) :
    (∃ fs, act F g h = (.ok (), h.turn fs) ∧ g h.fs = .ok fs) ∨
      ∃ e, act F g h = (.error e, h.tick) ∧
        (g h.fs = .error e ∨ F h.calls ≠ none ∧ e ≠ .ENOENT) := by
  cases hF : F h.calls with
  | some e =>
    refine .inr ⟨e, ?_, .inr ⟨by simp, e.2⟩⟩
    unfold act
    rw [hF]
  | none =>
    cases hg : g h.fs with
    | ok fs => exact .inl ⟨fs, act_of_allowed hF hg, rfl⟩
    | error e =>
      refine .inr ⟨e, ?_, .inl rfl⟩
      unfold act
      simp only [hF, hg]

/-- A look: what is answered is what there is, and nothing changes. -/
theorem Triple.query {P : Host → Prop} {Q : α → Host → Prop} {E : Host → Prop}
    {g : Fs → Except Errno α} (hok : ∀ h a, P h → g h.fs = .ok a → Q a h.tick)
    (herr : ∀ h, P h → E h.tick) : Proc.Triple P (Posix.query F g) Q E := by
  intro h hP
  rcases query_cases F g h with ⟨a, hq, hg⟩ | ⟨e, hq, -⟩
  · rw [hq]; exact hok h a hP hg
  · rw [hq]; exact herr h hP

/-- A change: the error case may use that the kernel refused or the file system did. -/
theorem Triple.act {P : Host → Prop} {Q : Unit → Host → Prop} {E : Host → Prop}
    {g : Fs → Except Errno Fs} (hok : ∀ h fs, P h → g h.fs = .ok fs → Q () (h.turn fs))
    (herr : ∀ h, P h → (F h.calls = none → ∃ e, g h.fs = .error e) → E h.tick) :
    Proc.Triple P (Posix.act F g) Q E := by
  intro h hP
  rcases act_cases F g h with ⟨fs, hq, hg⟩ | ⟨e, hq, hwhy⟩
  · rw [hq]; exact hok h fs hP hg
  · rw [hq]
    refine herr h hP fun hF => ?_
    rcases hwhy with hg | ⟨hrefused, -⟩
    · exact ⟨e, hg⟩
    · exact absurd hF hrefused

/-- A time is read, and no call is made. -/
theorem Triple.mtimeOf {P : Host → Prop} {Q : Int → Host → Prop} {E : Host → Prop} {d : Path}
    (h : ∀ h, P h → Q (h.times d) h) : Proc.Triple P (Posix.mtimeOf d) Q E :=
  fun s hP => h s hP

/-- A time is set, or the kernel refuses and nothing is. -/
theorem Triple.utime {P : Host → Prop} {Q : Unit → Host → Prop} {E : Host → Prop} {d : Path}
    {time : Int} (hok : ∀ h, P h → Q () (h.tick.setTime d time))
    (herr : ∀ h, P h → F h.calls ≠ none → E h.tick) : Proc.Triple P (Posix.utime F d time) Q E := by
  intro h hP
  unfold Posix.utime
  cases hF : F h.calls with
  | none => exact hok h hP
  | some e => exact herr h hP (by rw [hF]; simp)

end Rules

/-! ## What a run leaves alone -/

/-- From `h` to `h'`, and at every moment in between, only the entries in `X` changed. -/
structure Within (X : Path → Prop) (h h' : Host) : Prop where
  now : ∀ q, ¬ X q → h'.fs.get q = h.fs.get q
  trail : ∀ fs ∈ h'.states, fs ∈ h.states ∨ ∀ q, ¬ X q → fs.get q = h.fs.get q

namespace Within

variable {X Y : Path → Prop} {h h' h'' : Host}

/-- A state is within itself. -/
theorem refl (X : Path → Prop) (h : Host) : Within X h h :=
  ⟨fun _ _ => rfl, fun _ hfs => .inl hfs⟩

/-- A call that changes nothing stays within. -/
theorem tick (hw : Within X h h') : Within X h h'.tick := ⟨hw.now, hw.trail⟩

/-- So does one that changes only what may change. -/
theorem turn {fs : Fs} (hw : Within X h h') (hfs : ∀ q, ¬ X q → fs.get q = h'.fs.get q) :
    Within X h (h'.turn fs) where
  now := fun q hq => (hfs q hq).trans (hw.now q hq)
  trail := by
    intro fs' hfs'
    rw [Host.turn_states] at hfs'
    rcases List.mem_cons.mp hfs' with rfl | hmem
    · exact .inr fun q hq => (hfs q hq).trans (hw.now q hq)
    · exact hw.trail fs' hmem

/-- Two stretches make one. -/
theorem trans (hw : Within X h h') (hw' : Within X h' h'') : Within X h h'' where
  now := fun q hq => (hw'.now q hq).trans (hw.now q hq)
  trail := by
    intro fs hfs
    rcases hw'.trail fs hfs with hmem | hsame
    · exact hw.trail fs hmem
    · exact .inr fun q hq => (hsame q hq).trans (hw.now q hq)

/-- More places may change. -/
theorem mono (hw : Within X h h') (hXY : ∀ q, X q → Y q) : Within Y h h' where
  now := fun q hq => hw.now q fun hX => hq (hXY q hX)
  trail := by
    intro fs hfs
    rcases hw.trail fs hfs with hmem | hsame
    · exact .inl hmem
    · exact .inr fun q hq => hsame q fun hX => hq (hXY q hX)

/-- Nothing changed at all. -/
theorem unchanged (hw : Within (fun _ => False) h h') (q : Path) : h'.fs.get q = h.fs.get q :=
  hw.now q id

/-- A call that only looks stays within anything. -/
theorem query {F : Faults} {α : Type} {g : Fs → Except Errno α} :
    Proc.Keeps (Within X h) (Posix.query F g) fun _ => True :=
  Triple.query (fun _ _ hw _ => ⟨hw.tick, trivial⟩) fun _ hw => hw.tick

/-- Nothing has changed where nothing may. -/
theorem of_unchanged (hw : Within (fun _ => False) h h') : Within X h h' :=
  hw.mono fun _ hq => hq.elim

/-- A change stays within the entries it is about. -/
theorem act {F : Faults} {g : Fs → Except Errno Fs}
    (hg : ∀ fs fs', g fs = .ok fs' → ∀ q, ¬ X q → fs'.get q = fs.get q) :
    Proc.Keeps (Within X h) (Posix.act F g) fun _ => True :=
  Triple.act (fun _ _ hw hok => ⟨hw.turn (hg _ _ hok), trivial⟩) fun _ hw _ => hw.tick

/-- Setting a time changes no entry. -/
theorem utime {F : Faults} {d : Path} {time : Int} :
    Proc.Keeps (Within X h) (Posix.utime F d time) fun _ => True :=
  Triple.utime (fun _ hw => ⟨⟨hw.now, hw.trail⟩, trivial⟩) fun _ hw _ => hw.tick

end Within

end Posix
