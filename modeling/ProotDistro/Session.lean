import ProotDistro.Lib.Dict
import ProotDistro.Lib.Machine

/-!
# `session`: the registry of running sessions

A session records itself before it becomes proot: it makes a temporary file, locks it for as long as it
lives, writes its record and renames it to its own PID, over what a process of that PID may have left
there. An observer lists the names and goes through them: it reads the record, tries the lock, and
reports the record or unlinks the name of a file that nobody holds. Each of these is a step of its own,
and the steps of all sessions and observers may come in any order.

A file is the number of the session that made it. Names that begin with a dot are passed over by an
observer, so that a temporary file has none here. A directory that cannot be opened or a file system
without locks means no registry at all and is left out, and so is the order of what is reported. Left out
as well is an open that is refused (EACCES, EMFILE): `_session_alive_at` takes the file for one that
nobody holds, and a live record goes.

* **`unclear_loses`** — a record that is published between the probe of its name and the unlink that
  follows is lost.
* **`registry_keeps`** — in a run where that does not happen, no record of a live session is ever lost,
  and every observer reports every session that was there when it began and still is.
-/

namespace ProotDistro

namespace Session

abbrev Pid := Nat

/-! ## The steps -/

/-- How far `_register_at` has come. -/
inductive Phase where
  /-- the temporary file is there -/
  | opened
  | locked
  | written
  /-- the record has its name -/
  | published
  /-- it was given up, and the file closed -/
  | abandoned
  deriving DecidableEq

/-- The process of a session. -/
structure Process where
  pid : Pid
  phase : Phase
  alive : Bool
  deriving DecidableEq

/-- The lock on its file is held for as long as the process lives. -/
def Process.holds (x : Process) : Bool :=
  x.alive && (x.phase = .locked || x.phase = .written || x.phase = .published)

/-- Where `active_sessions` stands with a name. -/
inductive Look where
  /-- before the next one -/
  | next
  /-- it has read the record under the name, if there was one -/
  | read (pid : Pid) (record : Option Nat)
  /-- it has opened the file under the name -/
  | opened (pid : Pid) (record : Option Nat) (file : Nat)
  /-- it has found the name unheld -/
  | unheld (pid : Pid)
  deriving DecidableEq

/-- The name an observer examines: from when it opens the file until it is done with it. -/
def Look.examined : Look → Option Pid
  | .opened pid _ _ => some pid
  | .unheld pid => some pid
  | _ => none

/-- A call of `active_sessions`. -/
structure Observer where
  /-- the names it has listed and not come to -/
  todo : List Pid
  look : Look
  reported : List Nat
  /-- the sessions whose records were there when it began -/
  due : List Nat

structure State where
  /-- the sessions by the number of their file -/
  sessions : List Process
  /-- SESSIONS_DIR -/
  dir : Dict Pid Nat
  observers : List Observer

inductive Action where
  /-- a process begins to register, under a PID that is free -/
  | start (pid : Pid)
  | lock (i : Nat)
  | write (i : Nat)
  | publish (i : Nat)
  | abandon (i : Nat)
  /-- a process ends, at whatever point -/
  | exit (i : Nat)
  /-- an observer begins and lists the names, in some order -/
  | list (names : List Pid)
  | read (o : Nat)
  | openFile (o : Nat)
  | probe (o : Nat)
  | unlink (o : Nat)

def isLive (x : Process) : Bool := x.alive && x.phase = .published

/-- The sessions that live and have published their records. -/
def State.live (s : State) : List Nat :=
  (List.range s.sessions.length).filter fun i => (s.sessions[i]?).any isLive

def State.setSession (s : State) (i : Nat) (x : Process) : State :=
  { s with sessions := s.sessions.set i x }

def State.setObserver (s : State) (i : Nat) (o : Observer) : State :=
  { s with observers := s.observers.set i o }

/-- A session goes from one phase to the next. -/
def advance (s : State) (i : Nat) (before : List Phase) (after : Phase) : Option State :=
  match s.sessions[i]? with
  | none => none
  | some x => if x.alive ∧ x.phase ∈ before then some (s.setSession i { x with phase := after }) else none

/-- Whether a file is held. -/
def held (s : State) (file : Nat) : Bool := (s.sessions[file]?).any Process.holds

def step (s : State) : Action → Option State
  | .start pid =>
    if s.sessions.all fun x => x.pid ≠ pid || !x.alive then
      some { s with sessions := s.sessions ++ [⟨pid, .opened, true⟩] }
    else none
  | .lock i => advance s i [.opened] .locked
  | .write i => advance s i [.locked] .written
  | .publish i =>
    match s.sessions[i]? with
    | none => none
    | some x =>
      if x.alive ∧ x.phase = .written then
        some { s.setSession i { x with phase := .published } with dir := Dict.set s.dir x.pid i }
      else none
  | .abandon i => advance s i [.opened, .locked, .written] .abandoned
  | .exit i =>
    match s.sessions[i]? with
    | none => none
    | some x => if x.alive then some (s.setSession i { x with alive := false }) else none
  | .list names =>
    if names.Perm (Dict.keys s.dir) then
      some { s with observers := s.observers ++ [⟨names, .next, [], s.live⟩] }
    else none
  | .read o =>
    match s.observers[o]? with
    | some ⟨pid :: todo, .next, reported, due⟩ =>
      some (s.setObserver o ⟨todo, .read pid (Dict.get s.dir pid), reported, due⟩)
    | _ => none
  | .openFile o =>
    match s.observers[o]? with
    | some ⟨todo, .read pid record, reported, due⟩ =>
      some (s.setObserver o ⟨todo,
        match Dict.get s.dir pid with
        | some file => .opened pid record file
        | none => .unheld pid, reported, due⟩)
    | _ => none
  | .probe o =>
    match s.observers[o]? with
    | some ⟨todo, .opened pid record file, reported, due⟩ =>
      if held s file then
        some (s.setObserver o ⟨todo, .next, reported ++ record.toList, due⟩)
      else some (s.setObserver o ⟨todo, .unheld pid, reported, due⟩)
    | _ => none
  | .unlink o =>
    match s.observers[o]? with
    | some ⟨todo, .unheld pid, reported, due⟩ =>
      some { s.setObserver o ⟨todo, .next, reported, due⟩ with dir := Dict.erase s.dir pid }
    | _ => none

/-- Nobody has registered yet, and nobody looks. -/
def init : State := ⟨[], [], []⟩

/-! ## What the registry is for -/

/-- A session lives and has published its record under a PID. -/
def Live (s : State) (i : Nat) (pid : Pid) : Prop :=
  ∃ x, s.sessions[i]? = some x ∧ x.pid = pid ∧ x.alive = true ∧ x.phase = .published

/-- The record of every such session is there. -/
def Kept (s : State) : Prop := ∀ i pid, Live s i pid → Dict.get s.dir pid = some i

/-- A call that is over has reported every session that was there when it began and is still. -/
def Reported (s : State) : Prop :=
  ∀ o ∈ s.observers, o.todo = [] → o.look = .next → ∀ i ∈ o.due, ∀ pid, Live s i pid → i ∈ o.reported

/-- No observer examines the name that a session is about to publish under. -/
def Clear (s : State) : Action → Bool
  | .publish i =>
    (s.sessions[i]?).all fun x => s.observers.all fun o => o.look.examined ≠ some x.pid
  | _ => true

/-! ## Every step -/

/-- What holds in every state of a run whose records are published under names nobody examines. -/
structure Sound (s : State) : Prop where
  /-- no two processes that live have one PID -/
  pids : ∀ (i j : Nat) (x y : Process), s.sessions[i]? = some x → s.sessions[j]? = some y → x.alive = true → y.alive = true →
    x.pid = y.pid → i = j
  kept : Kept s
  /-- the file an observer has opened is that of the session that lives under the PID -/
  opened : ∀ o ∈ s.observers, ∀ pid record file, o.look = .opened pid record file →
    ∀ i, Live s i pid → file = i
  /-- no session lives under the PID of a name that was found unheld -/
  unheld : ∀ o ∈ s.observers, ∀ pid, o.look = .unheld pid → ∀ i, ¬ Live s i pid
  /-- a session that was there had published -/
  past : ∀ o ∈ s.observers, ∀ i ∈ o.due, ∃ x, s.sessions[i]? = some x ∧ x.phase = .published
  /-- a session that was there is reported, or will be -/
  due : ∀ o ∈ s.observers, ∀ i ∈ o.due, ∀ pid, Live s i pid → i ∈ o.reported ∨ pid ∈ o.todo ∨
    o.look = .read pid (some i) ∨ ∃ file, o.look = .opened pid (some i) file

section Steps

variable {s s' : State} {i j : Nat} {x y : Process} {pid : Pid} {o o' : Observer}

/-- Which sessions are live when one is changed. -/
theorem live_setSession (hx : s.sessions[i]? = some x) :
    Live (s.setSession i y) j pid ↔
      if j = i then y.pid = pid ∧ y.alive = true ∧ y.phase = .published else Live s j pid := by
  unfold Live State.setSession
  simp only [Machine.getElem?_set_iff hx]
  split
  · constructor
    · rintro ⟨z, rfl, h⟩
      exact h
    · exact fun h => ⟨y, rfl, h⟩
  · exact Iff.rfl

/-- A session whose record stays as it is may change its phase or end. -/
theorem Sound.setSession (h : Sound s) (hx : s.sessions[i]? = some x) (hpid : y.pid = x.pid)
    (halive : y.alive = true → x.alive = true)
    (hphase : y.phase = .published ↔ x.phase = .published) : Sound (s.setSession i y) := by
  have hlt : i < s.sessions.length := (List.getElem?_eq_some_iff.mp hx).1
  have hlive : ∀ {j pid}, Live (s.setSession i y) j pid → Live s j pid := by
    intro j pid hj
    rw [live_setSession hx] at hj
    split at hj
    · rename_i heq
      rw [heq]
      exact ⟨x, hx, hpid ▸ hj.1, halive hj.2.1, hphase.mp hj.2.2⟩
    · exact hj
  -- what was at an index is still of the same PID, and lives only if it lived
  have hbefore : ∀ {j : Nat} {z : Process}, (s.setSession i y).sessions[j]? = some z →
      ∃ w, s.sessions[j]? = some w ∧ w.pid = z.pid ∧ (z.alive = true → w.alive = true) := by
    intro j z hz
    rw [State.setSession, Machine.getElem?_set_iff hx] at hz
    split at hz
    · rename_i hj
      rw [hj, hz]
      exact ⟨x, hx, hpid.symm, halive⟩
    · exact ⟨z, hz, rfl, id⟩
  constructor
  · intro j k z w hz hw hzalive hwalive heq
    obtain ⟨z', hz', hzpid, hzlive⟩ := hbefore hz
    obtain ⟨w', hw', hwpid, hwlive⟩ := hbefore hw
    exact h.pids j k z' w' hz' hw' (hzlive hzalive) (hwlive hwalive) (by rw [hzpid, hwpid, heq])
  · exact fun j pid hj => h.kept j pid (hlive hj)
  · exact fun o ho pid record file hlook j hj => h.opened o ho pid record file hlook j (hlive hj)
  · exact fun o ho pid hlook j hj => h.unheld o ho pid hlook j (hlive hj)
  · intro o ho j hj
    obtain ⟨z, hz, hpublished⟩ := h.past o ho j hj
    by_cases hji : j = i
    · rw [hji, hx] at hz
      cases hz
      refine ⟨y, ?_, hphase.mpr hpublished⟩
      rw [hji]
      exact List.getElem?_set_self hlt
    · exact ⟨z, (List.getElem?_set_ne (Ne.symm hji)).trans hz, hpublished⟩
  · exact fun o ho j hj pid hl => h.due o ho j hj pid (hlive hl)

/-- A session that goes on to another phase, neither of them the published one, keeps the state sound. -/
theorem Sound.advance (h : Sound s) {before : List Phase} {after : Phase} (hbefore : .published ∉ before)
    (hafter : after ≠ .published) (hstep : advance s i before after = some s') : Sound s' := by
  unfold Session.advance at hstep
  split at hstep
  · cases hstep
  · rename_i x hx
    split at hstep
    · rename_i hguard
      cases hstep
      refine @Sound.setSession s i x { x with phase := after } h hx rfl id ⟨?_, ?_⟩
      · exact fun hp => absurd hp hafter
      · intro hp
        rw [hp] at hguard
        exact absurd hguard.2 hbefore
    · cases hstep

/-- A process that begins to register has no record yet. -/
theorem Sound.start (h : Sound s) (hfree : ∀ x ∈ s.sessions, x.alive = true → x.pid ≠ pid) :
    Sound { s with sessions := s.sessions ++ [⟨pid, .opened, true⟩] } := by
  -- what is at an index was there before, or is the new process
  have hindex : ∀ {j : Nat} {z : Process}, (s.sessions ++ [⟨pid, .opened, true⟩])[j]? = some z →
      s.sessions[j]? = some z ∨ (j = s.sessions.length ∧ z = ⟨pid, .opened, true⟩) :=
    fun hz => Machine.getElem?_concat_iff.mp hz
  have hlive : ∀ {j q}, Live { s with sessions := s.sessions ++ [⟨pid, .opened, true⟩] } j q →
      Live s j q := by
    rintro j q ⟨z, hz, hpid, halive, hphase⟩
    rcases hindex hz with hz | ⟨-, rfl⟩
    · exact ⟨z, hz, hpid, halive, hphase⟩
    · cases hphase
  constructor
  · intro i j x y hx hy hxalive hyalive heq
    rcases hindex hx with hx | ⟨hi, rfl⟩ <;> rcases hindex hy with hy | ⟨hj, rfl⟩
    · exact h.pids i j x y hx hy hxalive hyalive heq
    · exact absurd heq (hfree x (List.mem_of_getElem? hx) hxalive)
    · exact absurd heq.symm (hfree y (List.mem_of_getElem? hy) hyalive)
    · rw [hi, hj]
  · exact fun j q hj => h.kept j q (hlive hj)
  · exact fun o ho q record file hlook j hj => h.opened o ho q record file hlook j (hlive hj)
  · exact fun o ho q hlook j hj => h.unheld o ho q hlook j (hlive hj)
  · intro o ho j hj
    obtain ⟨z, hz, hpublished⟩ := h.past o ho j hj
    refine ⟨z, ?_, hpublished⟩
    show (s.sessions ++ _)[j]? = some z
    rw [List.getElem?_append_left (List.getElem?_eq_some_iff.mp hz).1]
    exact hz
  · exact fun o ho j hj q hl => h.due o ho j hj q (hlive hl)

/-- A record that is published under a name nobody examines stays there. -/
theorem Sound.publish (h : Sound s) (hx : s.sessions[i]? = some x) (halive : x.alive = true)
    (hphase : x.phase = .written) (hclear : ∀ o ∈ s.observers, o.look.examined ≠ some x.pid) :
    Sound { s.setSession i { x with phase := .published } with dir := Dict.set s.dir x.pid i } := by
  have hlive : ∀ {j q}, Live { s.setSession i { x with phase := .published } with
      dir := Dict.set s.dir x.pid i } j q → (j = i ∧ x.pid = q) ∨ (j ≠ i ∧ Live s j q) := by
    intro j q hj
    have hj' : Live (s.setSession i { x with phase := .published }) j q := hj
    rw [live_setSession hx] at hj'
    split at hj'
    · rename_i heq
      exact .inl ⟨heq, hj'.1⟩
    · rename_i hne
      exact .inr ⟨hne, hj'⟩
  have hpids : ∀ (j k : Nat) (y z : Process), (s.sessions.set i { x with phase := .published })[j]? = some y →
      (s.sessions.set i { x with phase := .published })[k]? = some z → y.alive = true → z.alive = true →
      y.pid = z.pid → j = k := by
    have hbefore : ∀ {j : Nat} {y : Process}, (s.sessions.set i { x with phase := .published })[j]? = some y →
        ∃ w, s.sessions[j]? = some w ∧ w.pid = y.pid ∧ (y.alive = true → w.alive = true) := by
      intro j y hy
      rw [Machine.getElem?_set_iff hx] at hy
      split at hy
      · rename_i hj
        rw [hj, hy]
        exact ⟨x, hx, rfl, id⟩
      · exact ⟨y, hy, rfl, id⟩
    intro j k y z hy hz hyalive hzalive heq
    obtain ⟨y', hy', hypid, hylive⟩ := hbefore hy
    obtain ⟨z', hz', hzpid, hzlive⟩ := hbefore hz
    exact h.pids j k y' z' hy' hz' (hylive hyalive) (hzlive hzalive) (by rw [hypid, hzpid, heq])
  have hlt : i < s.sessions.length := (List.getElem?_eq_some_iff.mp hx).1
  -- another session that lives has another PID
  have hother : ∀ {j q}, j ≠ i → Live s j q → x.pid ≠ q := by
    rintro j q hne ⟨y, hy, hpid, hyalive, -⟩ heq
    exact hne (h.pids j i y x hy hx hyalive halive (by rw [hpid, heq]))
  constructor
  -- PIDs, and the names in the directory
  · exact hpids
  · intro j q hj
    rcases hlive hj with ⟨rfl, rfl⟩ | ⟨hne, hj⟩
    · exact Dict.get_set_self
    · show Dict.get (Dict.set s.dir x.pid i) q = some j
      rw [Dict.get_set_of_ne (hother hne hj)]
      exact h.kept j q hj
  -- an observer that has the name open, or found it unheld, is excluded by the condition
  · intro o ho q record file hlook j hj
    rcases hlive hj with ⟨-, rfl⟩ | ⟨-, hj⟩
    · exact absurd (by rw [hlook]; rfl) (hclear o ho)
    · exact h.opened o ho q record file hlook j hj
  · intro o ho q hlook j hj
    rcases hlive hj with ⟨-, rfl⟩ | ⟨-, hj⟩
    · exact hclear o ho (by rw [hlook]; rfl)
    · exact h.unheld o ho q hlook j hj
  -- what an observer lists later still has what was published before
  · intro o ho j hj
    obtain ⟨z, hz, hpublished⟩ := h.past o ho j hj
    by_cases hji : j = i
    · rw [hji]
      exact ⟨{ x with phase := .published }, List.getElem?_set_self hlt, rfl⟩
    · exact ⟨z, (List.getElem?_set_ne (Ne.symm hji)).trans hz, hpublished⟩
  · intro o ho j hj q hl
    rcases hlive hl with ⟨rfl, -⟩ | ⟨-, hl⟩
    · -- what had published is not published again
      obtain ⟨z, hz, hpublished⟩ := h.past o ho j hj
      rw [hx] at hz
      rw [← Option.some.inj hz, hphase] at hpublished
      cases hpublished
    · exact h.due o ho j hj q hl

/-- An observer may go on as long as what it examines and what it has to report stay right. -/
theorem Sound.setObserver (h : Sound s)
    (hopened : ∀ pid record file, o'.look = .opened pid record file → ∀ i, Live s i pid → file = i)
    (hunheld : ∀ pid, o'.look = .unheld pid → ∀ i, ¬ Live s i pid)
    (hpast : ∀ i ∈ o'.due, ∃ x, s.sessions[i]? = some x ∧ x.phase = .published)
    (hdue : ∀ i ∈ o'.due, ∀ pid, Live s i pid → i ∈ o'.reported ∨ pid ∈ o'.todo ∨
      o'.look = .read pid (some i) ∨ ∃ file, o'.look = .opened pid (some i) file) :
    Sound (s.setObserver i o') := by
  have hmem : ∀ {o}, o ∈ (s.setObserver i o').observers → o = o' ∨ o ∈ s.observers := by
    intro o ho
    rcases List.mem_or_eq_of_mem_set ho with ho | ho
    · exact .inr ho
    · exact .inl ho
  constructor
  · exact h.pids
  · exact h.kept
  · intro o ho
    rcases hmem ho with rfl | ho
    · exact hopened
    · exact h.opened o ho
  · intro o ho
    rcases hmem ho with rfl | ho
    · exact hunheld
    · exact h.unheld o ho
  · intro o ho
    rcases hmem ho with rfl | ho
    · exact hpast
    · exact h.past o ho
  · intro o ho
    rcases hmem ho with rfl | ho
    · exact hdue
    · exact h.due o ho

/-- An observer that begins finds the name of every session that has published. -/
theorem Sound.list (h : Sound s) {names : List Pid} (hnames : names.Perm (Dict.keys s.dir)) :
    Sound { s with observers := s.observers ++ [⟨names, .next, [], s.live⟩] } := by
  constructor
  · exact h.pids
  · exact h.kept
  · intro o ho pid record file hlook
    rcases List.mem_append.mp ho with ho | ho
    · exact h.opened o ho pid record file hlook
    · rw [List.mem_singleton.mp ho] at hlook
      cases hlook
  · intro o ho pid hlook
    rcases List.mem_append.mp ho with ho | ho
    · exact h.unheld o ho pid hlook
    · rw [List.mem_singleton.mp ho] at hlook
      cases hlook
  · intro o ho i hi
    rcases List.mem_append.mp ho with ho | ho
    · exact h.past o ho i hi
    · rw [List.mem_singleton.mp ho] at hi
      have hlive := (List.mem_filter.mp hi).2
      cases hx : s.sessions[i]? with
      | none =>
        rw [hx] at hlive
        cases hlive
      | some x =>
        rw [hx] at hlive
        unfold isLive at hlive
        rw [Option.any_some, Bool.and_eq_true, decide_eq_true_eq] at hlive
        exact ⟨x, rfl, hlive.2⟩
  · intro o ho i hi pid hlive
    rcases List.mem_append.mp ho with ho | ho
    · exact h.due o ho i hi pid hlive
    · rw [List.mem_singleton.mp ho]
      right
      left
      show pid ∈ names
      rw [hnames.mem_iff]
      by_contra hmissing
      have hnone := Dict.get_eq_none.mpr hmissing
      rw [h.kept i pid hlive] at hnone
      cases hnone

/-- A name that was found unheld may be unlinked. -/
theorem Sound.unlink (h : Sound s) (hpid : ∀ i, ¬ Live s i pid) :
    Sound { s with dir := Dict.erase s.dir pid } := by
  constructor
  · exact h.pids
  · intro i q hlive
    show Dict.get (Dict.erase s.dir pid) q = some i
    have hne : q ≠ pid := by
      intro heq
      rw [heq] at hlive
      exact hpid i hlive
    rw [Dict.get_erase, if_neg hne]
    exact h.kept i q hlive
  · exact h.opened
  · exact h.unheld
  · exact h.past
  · exact h.due

/-- A live session holds its record. -/
theorem held_of_live (h : Live s i pid) : held s i = true := by
  obtain ⟨x, hx, -, halive, hphase⟩ := h
  unfold held
  rw [hx, Option.any_some]
  unfold Process.holds
  rw [halive, hphase]
  rfl

/-- **One step**, clear if it publishes. -/
theorem Sound.step {a : Action} (h : Sound s) (hclear : Clear s a = true) (hstep : step s a = some s') :
    Sound s' := by
  cases a with
  -- a session starts with a PID that no live one has
  | start pid =>
    simp only [Session.step] at hstep
    split at hstep
    · rename_i hfree
      cases hstep
      apply h.start
      intro x hx halive heq
      have hx' := List.all_eq_true.mp hfree x hx
      rw [halive, heq] at hx'
      simp at hx'
    · cases hstep
  | lock i => exact h.advance (by decide) (by decide) hstep
  | write i => exact h.advance (by decide) (by decide) hstep
  | abandon i => exact h.advance (by decide) (by decide) hstep
  -- it publishes while nobody examines its name
  | publish i =>
    simp only [Session.step] at hstep
    split at hstep
    · cases hstep
    · rename_i x hx
      split at hstep
      · rename_i hguard
        cases hstep
        have hnobody : ∀ o ∈ s.observers, o.look.examined ≠ some x.pid := by
          intro o ho
          rw [Clear, hx, Option.all_some] at hclear
          exact of_decide_eq_true (List.all_eq_true.mp hclear o ho)
        exact h.publish hx hguard.1 hguard.2 hnobody
      · cases hstep
  -- what has exited is not live any more
  | exit i =>
    simp only [Session.step] at hstep
    split at hstep
    · cases hstep
    · rename_i x hx
      split at hstep
      · cases hstep
        exact h.setSession hx rfl (fun hfalse => by cases hfalse) Iff.rfl
      · cases hstep
  -- an observer lists the names
  | list names =>
    simp only [Session.step] at hstep
    split at hstep
    · rename_i hnames
      cases hstep
      exact h.list hnames
    · cases hstep
  | read o =>
    simp only [Session.step] at hstep
    split at hstep
    · rename_i pid todo reported due ho
      cases hstep
      have hmem := List.mem_of_getElem? ho
      apply h.setObserver
      · exact fun _ _ _ hlook => by cases hlook
      · exact fun _ hlook => by cases hlook
      · exact fun i hi => h.past _ hmem i hi
      · intro i hi q hlive
        -- the name that is read is that of the session, or the session is still to come
        rcases h.due _ hmem i hi q hlive with hreported | htodo | hlook | ⟨file, hlook⟩
        · exact .inl hreported
        · rcases List.mem_cons.mp htodo with rfl | htodo
          · right
            right
            left
            show Look.read q (Dict.get s.dir q) = _
            rw [h.kept i q hlive]
          · exact .inr (.inl htodo)
        · cases hlook
        · cases hlook
    · cases hstep
  | openFile o =>
    simp only [Session.step] at hstep
    split at hstep
    · rename_i todo pid record reported due ho
      -- the observer opens what it has read; a name that is gone belonged to no live session
      cases hstep
      have hmem := List.mem_of_getElem? ho
      cases hfile : Dict.get s.dir pid with
      | none =>
        apply h.setObserver
        · exact fun _ _ _ hlook => by cases hlook
        · intro q hlook i hlive
          cases hlook
          rw [h.kept i pid hlive] at hfile
          cases hfile
        · exact fun i hi => h.past _ hmem i hi
        · intro i hi q hlive
          rcases h.due _ hmem i hi q hlive with hreported | htodo | hlook | ⟨file, hlook⟩
          · exact .inl hreported
          · exact .inr (.inl htodo)
          · cases hlook
            rw [h.kept i pid hlive] at hfile
            cases hfile
          · cases hlook
      | some file =>
        apply h.setObserver
        · intro q record' file' hlook i hlive
          cases hlook
          rw [h.kept i pid hlive] at hfile
          exact (Option.some.inj hfile).symm
        · exact fun _ hlook => by cases hlook
        · exact fun i hi => h.past _ hmem i hi
        · intro i hi q hlive
          rcases h.due _ hmem i hi q hlive with hreported | htodo | hlook | ⟨file', hlook⟩
          · exact .inl hreported
          · exact .inr (.inl htodo)
          · cases hlook
            exact .inr (.inr (.inr ⟨file, rfl⟩))
          · cases hlook
    · cases hstep
  | probe o =>
    simp only [Session.step] at hstep
    split at hstep
    · rename_i todo pid record file reported due ho
      -- it probes the lock: held means live, unheld that the name may be unlinked
      have hmem := List.mem_of_getElem? ho
      split at hstep
      · cases hstep
        apply h.setObserver
        · exact fun _ _ _ hlook => by cases hlook
        · exact fun _ hlook => by cases hlook
        · exact fun i hi => h.past _ hmem i hi
        · intro i hi q hlive
          rcases h.due _ hmem i hi q hlive with hreported | htodo | hlook | ⟨file', hlook⟩
          · exact .inl (List.mem_append_left _ hreported)
          · exact .inr (.inl htodo)
          · cases hlook
          · cases hlook
            exact .inl (List.mem_append_right _ List.mem_cons_self)
      · rename_i hunheld
        cases hstep
        -- the file that was opened is the session's, which holds it
        have hnone : ∀ i, ¬ Live s i pid := by
          intro i hlive
          have hfile := h.opened _ hmem pid record file rfl i hlive
          rw [hfile] at hunheld
          exact hunheld (held_of_live hlive)
        apply h.setObserver
        · exact fun _ _ _ hlook => by cases hlook
        · intro q hlook i hlive
          cases hlook
          exact hnone i hlive
        · exact fun i hi => h.past _ hmem i hi
        · intro i hi q hlive
          rcases h.due _ hmem i hi q hlive with hreported | htodo | hlook | ⟨file', hlook⟩
          · exact .inl hreported
          · exact .inr (.inl htodo)
          · cases hlook
          · cases hlook
            exact absurd hlive (hnone i)
    · cases hstep
  | unlink o =>
    simp only [Session.step] at hstep
    split at hstep
    · rename_i todo pid reported due ho
      -- it unlinks a name that no live session has
      cases hstep
      have hmem := List.mem_of_getElem? ho
      have hdone : Sound (s.setObserver o ⟨todo, .next, reported, due⟩) := by
        apply h.setObserver
        · exact fun _ _ _ hlook => by cases hlook
        · exact fun _ hlook => by cases hlook
        · exact fun i hi => h.past _ hmem i hi
        · intro i hi q hlive
          rcases h.due _ hmem i hi q hlive with hreported | htodo | hlook | ⟨file', hlook⟩
          · exact .inl hreported
          · exact .inr (.inl htodo)
          · cases hlook
          · cases hlook
      exact hdone.unlink fun i hlive => h.unheld _ hmem pid rfl i hlive
    · cases hstep

end Steps

/-! ## Every run -/

/-- The start is sound. -/
theorem sound_init : Sound init := by
  constructor
  · exact fun _ _ _ _ hx => by cases hx
  · rintro i pid ⟨x, hx, -⟩
    cases hx
  · exact fun _ ho => (List.not_mem_nil ho).elim
  · exact fun _ ho => (List.not_mem_nil ho).elim
  · exact fun _ ho => (List.not_mem_nil ho).elim
  · exact fun _ ho => (List.not_mem_nil ho).elim

/-- **When the registry keeps its records**: in every run of any number of sessions and observers in which
no session publishes its record under a name that an observer examines, the record of every session that
lives is there, and a call that is over has reported every session that was there when it began and is
still. -/
theorem registry_keeps (actions : List Action) (s : State) (h : Machine.exec step init actions = some s)
    (hclear : Machine.Meets step (fun s a => Clear s a = true) init actions) : Kept s ∧ Reported s := by
  have hsound : Sound s :=
    Machine.exec_invariant (fun _ _ _ hs hc hstep => Sound.step hs hc hstep) sound_init hclear h
  refine ⟨hsound.kept, ?_⟩
  intro o ho htodo hlook i hi pid hlive
  rcases hsound.due o ho i hi pid hlive with hreported | hmem | hread | ⟨file, hopened⟩
  · exact hreported
  · rw [htodo] at hmem
    cases hmem
  · rw [hlook] at hread
    cases hread
  · rw [hlook] at hopened
    cases hopened

/-- **A record that is published under a name that was found unheld is lost** with the unlink. -/
theorem unclear_loses {s s₁ : State} {i o : Nat} {x : Process} {todo : List Pid} {reported due : List Nat}
    (hpublish : step s (.publish i) = some s₁) (hx : s.sessions[i]? = some x)
    (ho : s.observers[o]? = some ⟨todo, .unheld x.pid, reported, due⟩) :
    ∃ s₂, step s₁ (.unlink o) = some s₂ ∧ Live s₂ i x.pid ∧ Dict.get s₂.dir x.pid = none := by
  simp only [step] at hpublish
  rw [hx] at hpublish
  simp only at hpublish
  split at hpublish
  · rename_i hguard
    cases hpublish
    have hlt : i < s.sessions.length := (List.getElem?_eq_some_iff.mp hx).1
    simp only [step]
    rw [show (s.setSession i { x with phase := .published }).observers[o]? = _ from ho]
    refine ⟨_, rfl, ⟨{ x with phase := .published }, ?_, rfl, hguard.1, rfl⟩, ?_⟩
    · exact List.getElem?_set_self hlt
    · show Dict.get (Dict.erase _ x.pid) x.pid = none
      rw [Dict.get_erase, if_pos rfl]
  · cases hpublish

/-- A session whose PID was another's before it, and an observer that has done with the other's record in
time. -/
def recycled : List Action :=
  [.start 7, .lock 0, .write 0, .publish 0, .exit 0, .list [7], .start 7, .lock 1, .write 1, .read 0,
    .openFile 0, .probe 0, .unlink 0, .publish 1, .list [7], .read 1, .openFile 1, .probe 1]

theorem registry_keeps_recycled :
    ∃ s, Machine.exec step init recycled = some s ∧ Kept s ∧ Reported s := by
  have hrun : (Machine.exec step init recycled).isSome = true := by decide +kernel
  obtain ⟨s, hs⟩ := Option.isSome_iff_exists.mp hrun
  exact ⟨s, hs, registry_keeps recycled s hs (by decide +kernel)⟩

/-- The same, where the record is published before the other's name is unlinked. -/
def overtaken : List Action :=
  [.start 7, .lock 0, .write 0, .publish 0, .exit 0, .list [7], .start 7, .lock 1, .write 1, .read 0,
    .openFile 0, .probe 0, .publish 1, .unlink 0, .list []]

/-- The record of the session that lives is unlinked, and a call that begins then reports nothing. -/
theorem overtaken_loses : ∃ s, Machine.exec step init overtaken = some s ∧ Live s 1 7 ∧ ¬ Kept s ∧
    ∃ o ∈ s.observers, o.todo = [] ∧ o.look = .next ∧ 1 ∉ o.reported := by
  have hrun : (Machine.exec step init overtaken).any (fun s =>
      s.sessions[1]? = some ⟨7, .published, true⟩ ∧ Dict.get s.dir 7 = none ∧
        (s.observers[1]?).any (fun o => o.todo = [] ∧ o.look = .next ∧ 1 ∉ o.reported)) = true := by
    decide +kernel
  rw [Option.any_eq_true] at hrun
  obtain ⟨s, hs, hstate⟩ := hrun
  obtain ⟨hlive, hnone, hobserver⟩ := of_decide_eq_true hstate
  rw [Option.any_eq_true] at hobserver
  obtain ⟨o, ho, hover⟩ := hobserver
  have hsession : Live s 1 7 := ⟨⟨7, .published, true⟩, hlive, rfl, rfl, rfl⟩
  refine ⟨s, hs, hsession, ?_, o, List.mem_of_getElem? ho, of_decide_eq_true hover⟩
  intro hkept
  rw [hkept 1 7 hsession] at hnone
  cases hnone

end Session

end ProotDistro
