import ProotDistro.Lib.Dict
import Mathlib.Logic.Relation
import Mathlib.Data.List.Dedup
import Mathlib.Data.List.Sort

/-!
# `commands.kill`: which processes a signal is sent to

The processes that hold a session's record are its members. Those of them whose parent is no member
are its roots, by one reading of the process table; the signal goes to the trees below the roots, by a
second reading. A process may have gone in between, and its children then have another parent.

Whether a signal is delivered to a process it is sent to is left out.

* **`mem_collectTree`** — the tree below a process, for every table, cyclic ones included.
* **`covers_iff`** — the pairs of tables for which every member that is alive is signalled, and nothing
  but members and what is below them.
* **`signalled_safe`** — the signal goes once to each, and to none of the processes it spares.
* **`survivors_cover`** — what is left of a session is found on one reading of the table.
-/

namespace ProotDistro

namespace Kill

abbrev Pid := Nat

/-- `{pid: ppid}` -/
abbrev ParentMap := Dict Pid Pid

/-- A reading of /proc: `_read_pid_ppid` and `_is_alive`. -/
structure Snapshot where
  ppid : ParentMap
  alive : Pid → Bool

/-- A tracked session. -/
structure Session where
  pid : Pid
  /-- `session_holders`, which leaves out the command itself -/
  holders : List Pid
  /-- `session_is_live` -/
  isLive : Bool
  /-- `_root_is_proot` -/
  rootIsProot : Bool

/-! ## Roots -/

/-- `_forest_roots` -/
def forestRoots (pids : List Pid) (ppid : ParentMap) : List Pid :=
  (pids.filter fun p =>
    match ppid.get p with
    | some parent => parent ∉ pids
    | none => true).mergeSort (· ≤ ·)

/-- The members of a session: the holders of its record that are alive. -/
def members (s : Session) (t : Snapshot) : List Pid := s.holders.filter t.alive

/-- `_session_roots` -/
def sessionRoots (s : Session) (t : Snapshot) : List Pid :=
  if members s t ≠ [] then forestRoots (members s t) t.ppid
  else if s.isLive = false then []
  else if t.alive s.pid && s.rootIsProot then [s.pid]
  else []

/-- `_live_roots` -/
def liveRoots (tracked : List Session) (t : Snapshot) : List Pid :=
  ((tracked.flatMap (sessionRoots · t)).dedup).mergeSort (· ≤ ·)

/-! ## Trees -/

/-- The children of a process. -/
def children (ppid : ParentMap) (p : Pid) : List Pid :=
  (ppid.filter fun e => e.2 = p).map Prod.fst

/-- The entries whose parent the walk has not been at. -/
def unseen (ppid : ParentMap) (seen : List Pid) : ParentMap := ppid.filter fun e => e.2 ∉ seen

/-- Seeing one more process settles its children. -/
theorem unseen_cons {ppid : ParentMap} {seen : List Pid} {cur : Pid} (h : cur ∉ seen) :
    (unseen ppid (cur :: seen)).length + (children ppid cur).length = (unseen ppid seen).length := by
  unfold unseen children
  rw [List.length_map]
  induction ppid with
  | nil => rfl
  | cons e ppid ih =>
    by_cases hcur : e.2 = cur
    · have hin : decide (e.2 ∉ cur :: seen) = false := by
        rw [hcur]
        simp
      have hout : decide (e.2 ∉ seen) = true := by
        rw [hcur]
        simpa using h
      simp only [List.filter_cons, hin, hout, decide_eq_true hcur, if_true, List.length_cons,
        Bool.false_eq_true, if_false]
      omega
    · have hsame : decide (e.2 ∉ cur :: seen) = decide (e.2 ∉ seen) := by
        apply decide_eq_decide.mpr
        rw [List.mem_cons, not_or]
        exact ⟨fun h => h.2, fun h => ⟨hcur, h⟩⟩
      simp only [List.filter_cons, hsame, decide_eq_false hcur, Bool.false_eq_true, if_false]
      split
      · rw [List.length_cons, List.length_cons]
        omega
      · exact ih

/-- The walk of `_collect_tree`; the top of the stack is its head. -/
def collectFrom (ppid : ParentMap) (seen : List Pid) : List Pid → List Pid
  | [] => seen
  | cur :: stack =>
    if cur ∈ seen then collectFrom ppid seen stack
    else
      collectFrom ppid (cur :: seen)
        (((children ppid cur).filter (· ∉ cur :: seen)).reverse ++ stack)
termination_by stack => (unseen ppid seen).length + stack.length
decreasing_by
  · show (unseen ppid seen).length + stack.length < (unseen ppid seen).length + (stack.length + 1)
    omega
  · rename_i hcur
    have hseen := @unseen_cons ppid seen cur hcur
    have hpushed := List.length_filter_le (· ∉ cur :: seen) (children ppid cur)
    show (unseen ppid (cur :: seen)).length +
        (((children ppid cur).filter (· ∉ cur :: seen)).reverse ++ stack).length <
      (unseen ppid seen).length + (stack.length + 1)
    rw [List.length_append, List.length_reverse]
    omega

/-- `_collect_tree` -/
def collectTree (root : Pid) (ppid : ParentMap) : List Pid := collectFrom ppid [] [root]

/-- A process comes down from another: itself, a child, a child of a child. -/
def Descends (ppid : ParentMap) : Pid → Pid → Prop :=
  Relation.ReflTransGen fun parent child => (child, parent) ∈ ppid

section Trees

variable {ppid : ParentMap} {p q root : Pid}

/-- The children of a process. -/
theorem mem_children : q ∈ children ppid p ↔ (q, p) ∈ ppid := by
  unfold children
  rw [List.mem_map]
  constructor
  · rintro ⟨e, he, rfl⟩
    rw [List.mem_filter] at he
    have hparent : e.2 = p := by simpa using he.2
    rw [← hparent]
    exact he.1
  · intro h
    refine ⟨(q, p), List.mem_filter.mpr ⟨h, ?_⟩, rfl⟩
    simp

/-- Nothing is collected that was not on its way. -/
theorem collectFrom_sound (seen stack : List Pid) (h : p ∈ collectFrom ppid seen stack) :
    p ∈ seen ∨ ∃ s ∈ stack, Descends ppid s p := by
  fun_induction collectFrom ppid seen stack with
  | case1 seen => exact .inl h
  | case2 seen cur stack hseen ih =>
    rcases ih h with hp | ⟨s, hs, hdown⟩
    · exact .inl hp
    · exact .inr ⟨s, List.mem_cons_of_mem _ hs, hdown⟩
  | case3 seen cur stack hseen ih =>
    rcases ih h with hp | ⟨s, hs, hdown⟩
    · rcases List.mem_cons.mp hp with rfl | hp
      · exact .inr ⟨p, List.mem_cons_self, Relation.ReflTransGen.refl⟩
      · exact .inl hp
    · rw [List.mem_append, List.mem_reverse, List.mem_filter] at hs
      rcases hs with ⟨hchild, -⟩ | hs
      · have hstep : Descends ppid cur p :=
          Relation.ReflTransGen.head (mem_children.mp hchild) hdown
        exact .inr ⟨cur, List.mem_cons_self, hstep⟩
      · exact .inr ⟨s, List.mem_cons_of_mem _ hs, hdown⟩

/-- What has been seen, and what is on the stack, is collected. -/
theorem subset_collectFrom (seen stack : List Pid) (h : p ∈ seen ∨ p ∈ stack) :
    p ∈ collectFrom ppid seen stack := by
  fun_induction collectFrom ppid seen stack with
  | case1 seen =>
    rcases h with h | h
    · exact h
    · cases h
  | case2 seen cur stack hseen ih =>
    apply ih
    rcases h with h | h
    · exact .inl h
    · rcases List.mem_cons.mp h with rfl | h
      · exact .inl hseen
      · exact .inr h
  | case3 seen cur stack hseen ih =>
    apply ih
    rcases h with h | h
    · exact .inl (List.mem_cons_of_mem _ h)
    · rcases List.mem_cons.mp h with rfl | h
      · exact .inl List.mem_cons_self
      · exact .inr (List.mem_append_right _ h)

/-- The collected are closed under children. The invariant is the frontier: a child of one that has
been seen has been seen or is on the stack. -/
theorem collectFrom_closed (seen stack : List Pid)
    (hfrontier : ∀ p ∈ seen, ∀ q, (q, p) ∈ ppid → q ∈ seen ∨ q ∈ stack)
    (hp : p ∈ collectFrom ppid seen stack) (hq : (q, p) ∈ ppid) : q ∈ collectFrom ppid seen stack := by
  fun_induction collectFrom ppid seen stack with
  | case1 seen =>
    rcases hfrontier p hp q hq with h | h
    · exact h
    · cases h
  | case2 seen cur stack hseen ih =>
    apply ih _ hp
    intro a ha b hb
    rcases hfrontier a ha b hb with h | h
    · exact .inl h
    · rcases List.mem_cons.mp h with rfl | h
      · exact .inl hseen
      · exact .inr h
  | case3 seen cur stack hseen ih =>
    apply ih _ hp
    intro a ha b hb
    rw [List.mem_append, List.mem_reverse, List.mem_filter]
    rcases List.mem_cons.mp ha with rfl | ha
    · by_cases hb' : b ∈ a :: seen
      · exact .inl hb'
      · exact .inr (.inl ⟨mem_children.mpr hb, by simpa using hb'⟩)
    · rcases hfrontier a ha b hb with h | h
      · exact .inl (List.mem_cons_of_mem _ h)
      · rcases List.mem_cons.mp h with rfl | h
        · exact .inl List.mem_cons_self
        · exact .inr (.inr h)

/-- The tree below a process is the process and all that comes down from it. -/
theorem mem_collectTree : p ∈ collectTree root ppid ↔ Descends ppid root p := by
  unfold collectTree
  constructor
  · intro h
    rcases collectFrom_sound [] [root] h with h | ⟨s, hs, hdown⟩
    · cases h
    · rw [List.mem_singleton] at hs
      rw [← hs]
      exact hdown
  · intro h
    induction h with
    | refl => exact subset_collectFrom [] [root] (.inr List.mem_cons_self)
    | tail _ hstep ih =>
      refine collectFrom_closed [] [root] ?_ ih hstep
      intro a ha
      cases ha

end Trees

/-! ## The signal -/

/-- `_signal_pass`: the processes the signal is sent to, in order. -/
def signalPass (self : Pid) (t : Snapshot) (roots : List Pid) : List Pid :=
  (((roots.flatMap (collectTree · t.ppid)).dedup).mergeSort (· ≤ ·)).filter fun pid =>
    !(pid ∈ [0, 1] || pid = self) && t.alive pid

/-- The signal of `_teardown`: roots by one reading, trees by another. -/
def signalled (self : Pid) (tracked : List Session) (t₁ t₂ : Snapshot) : List Pid :=
  signalPass self t₂ (liveRoots tracked t₁)

/-- `_survivors` -/
def survivors (tracked : List Session) (t : Snapshot) : List Pid :=
  (((liveRoots tracked t).flatMap fun root => (collectTree root t.ppid).filter t.alive).dedup).mergeSort
    (· ≤ ·)

/-- A member whose parent is no member. -/
def IsRoot (s : Session) (t : Snapshot) (r : Pid) : Prop :=
  r ∈ members s t ∧ ∀ parent, t.ppid.get r = some parent → parent ∉ members s t

/-- Every member of a session that is alive when the trees are read is signalled, and whatever is
signalled is a member or comes down from one. -/
def Covers (self : Pid) (tracked : List Session) (t₁ t₂ : Snapshot) : Prop :=
  (∀ s ∈ tracked, ∀ p ∈ members s t₁, t₂.alive p = true → p ∈ signalled self tracked t₁ t₂) ∧
    ∀ p ∈ signalled self tracked t₁ t₂, ∃ s ∈ tracked, ∃ h ∈ members s t₁, Descends t₂.ppid h p

section Coverage

variable {self : Pid} {tracked : List Session} {s : Session} {t t₁ t₂ : Snapshot} {p r : Pid}

/-- The roots are those whose parent is not among them. -/
theorem mem_forestRoots {pids : List Pid} {ppid : ParentMap} :
    r ∈ forestRoots pids ppid ↔ r ∈ pids ∧ ∀ parent, ppid.get r = some parent → parent ∉ pids := by
  unfold forestRoots
  rw [List.mem_mergeSort, List.mem_filter, and_congr_right_iff]
  intro _
  cases ppid.get r with
  | none => simp
  | some parent => simp

/-- The roots of a session that is found. -/
theorem mem_sessionRoots (hfound : s.isLive = true → members s t ≠ []) :
    r ∈ sessionRoots s t ↔ IsRoot s t r := by
  unfold sessionRoots
  by_cases hmembers : members s t = []
  · have hdead : s.isLive = false := by
      by_contra hlive
      rw [Bool.not_eq_false] at hlive
      exact hfound hlive hmembers
    rw [if_neg (by simpa using hmembers), if_pos hdead]
    constructor
    · intro h
      cases h
    · intro h
      have hmem := h.1
      rw [hmembers] at hmem
      cases hmem
  · rw [if_pos hmembers, mem_forestRoots]
    exact Iff.rfl

/-- The roots that are live belong to a session that is. -/
theorem mem_liveRoots (hfound : ∀ s ∈ tracked, s.isLive = true → members s t ≠ []) :
    r ∈ liveRoots tracked t ↔ ∃ s ∈ tracked, IsRoot s t r := by
  unfold liveRoots
  rw [List.mem_mergeSort, List.mem_dedup, List.mem_flatMap]
  constructor
  · rintro ⟨s, hs, hr⟩
    exact ⟨s, hs, (mem_sessionRoots (hfound s hs)).mp hr⟩
  · rintro ⟨s, hs, hr⟩
    exact ⟨s, hs, (mem_sessionRoots (hfound s hs)).mpr hr⟩

/-- Which processes are signalled. -/
theorem mem_signalled (hfound : ∀ s ∈ tracked, s.isLive = true → members s t₁ ≠ []) :
    p ∈ signalled self tracked t₁ t₂ ↔
      (∃ s ∈ tracked, ∃ r, IsRoot s t₁ r ∧ Descends t₂.ppid r p) ∧
        (p ≠ 0 ∧ p ≠ 1 ∧ p ≠ self) ∧ t₂.alive p = true := by
  unfold signalled signalPass
  rw [List.mem_filter, List.mem_mergeSort, List.mem_dedup, List.mem_flatMap]
  have hguard : (!(p ∈ [0, 1] || p = self) && t₂.alive p) = true ↔
      (p ≠ 0 ∧ p ≠ 1 ∧ p ≠ self) ∧ t₂.alive p = true := by
    simp [and_assoc]
  rw [hguard, and_congr_left_iff]
  intro _
  constructor
  · rintro ⟨r, hr, hp⟩
    obtain ⟨s, hs, hroot⟩ := (mem_liveRoots hfound).mp hr
    exact ⟨s, hs, r, hroot, mem_collectTree.mp hp⟩
  · rintro ⟨s, hs, r, hroot, hdown⟩
    exact ⟨r, (mem_liveRoots hfound).mpr ⟨s, hs, hroot⟩, mem_collectTree.mpr hdown⟩

/-- **The signal is sent in order, once to each process**, to none of those the command spares, and to
nothing but what is alive and comes down from a root. -/
theorem signalled_safe : (signalled self tracked t₁ t₂).Pairwise (· < ·) ∧
    ∀ p ∈ signalled self tracked t₁ t₂, (p ≠ 0 ∧ p ≠ 1 ∧ p ≠ self) ∧ t₂.alive p = true ∧
      ∃ r ∈ liveRoots tracked t₁, Descends t₂.ppid r p := by
  unfold signalled signalPass
  constructor
  · apply List.Pairwise.filter
    have hsorted := List.pairwise_mergeSort' (· ≤ ·)
      (((liveRoots tracked t₁).flatMap (collectTree · t₂.ppid)).dedup)
    have hnodup : (((liveRoots tracked t₁).flatMap (collectTree · t₂.ppid)).dedup.mergeSort
        (· ≤ ·)).Nodup := by
      rw [(List.mergeSort_perm _ _).nodup_iff]
      exact List.nodup_dedup _
    exact (hsorted.and hnodup).imp fun h => lt_of_le_of_ne h.1 h.2
  · intro p hp
    rw [List.mem_filter, List.mem_mergeSort, List.mem_dedup, List.mem_flatMap] at hp
    obtain ⟨⟨r, hr, hdown⟩, hguard⟩ := hp
    have hguards : (p ≠ 0 ∧ p ≠ 1 ∧ p ≠ self) ∧ t₂.alive p = true := by
      simpa [and_assoc] using hguard
    exact ⟨hguards.1, hguards.2, r, hr, mem_collectTree.mp hdown⟩

/-- **What the signal covers**: every member of a session that is alive, if and only if each comes
down, by the second reading, from a member that was a root by the first, and is none of the processes
the command spares. -/
theorem covers_iff (hfound : ∀ s ∈ tracked, s.isLive = true → members s t₁ ≠ []) :
    Covers self tracked t₁ t₂ ↔
      ∀ s ∈ tracked, ∀ p ∈ members s t₁, t₂.alive p = true →
        (p ≠ 0 ∧ p ≠ 1 ∧ p ≠ self) ∧
          ∃ s' ∈ tracked, ∃ r, IsRoot s' t₁ r ∧ Descends t₂.ppid r p := by
  unfold Covers
  constructor
  · rintro ⟨hall, -⟩ s hs p hp halive
    obtain ⟨hdown, hguard, -⟩ := (mem_signalled hfound).mp (hall s hs p hp halive)
    exact ⟨hguard, hdown⟩
  · intro h
    constructor
    · intro s hs p hp halive
      obtain ⟨hguard, hdown⟩ := h s hs p hp halive
      exact (mem_signalled hfound).mpr ⟨hdown, hguard, halive⟩
    · intro p hp
      obtain ⟨⟨s, hs, r, hroot, hdown⟩, -⟩ := (mem_signalled hfound).mp hp
      exact ⟨s, hs, r, hroot.1, hdown⟩

end Coverage

/-- A session of two, the second a child of the first. -/
def pair : Session := ⟨10, [10, 20], true, true⟩

/-- The table while both run. -/
def bothRun : Snapshot := ⟨[(1, 0), (10, 1), (20, 10)], (· ∈ [1, 10, 20])⟩

/-- A process is gone, and another is the parent of its children. -/
def exits (pid reaper : Pid) (t : Snapshot) : Snapshot :=
  ⟨(t.ppid.filter fun e => e.1 ≠ pid).map fun e => if e.2 = pid then (e.1, reaper) else e,
    fun p => p ≠ pid && t.alive p⟩

/-- A session of three, the third a child of the second. -/
def trio : Session := ⟨10, [10, 20, 40], true, true⟩

def trioRuns : Snapshot := ⟨[(1, 0), (10, 1), (20, 10), (40, 20)], (· ∈ [1, 10, 20, 40])⟩

/-- The third exits between the readings, and the other two are signalled. -/
theorem covers_iff_trio : Covers 30 [trio] trioRuns (exits 40 20 trioRuns) := by
  apply (covers_iff (by decide)).mpr
  intro s hs p hp halive
  rw [List.mem_singleton] at hs
  subst hs
  have hroot : IsRoot trio trioRuns 10 := by
    refine ⟨by decide, ?_⟩
    intro parent hparent
    have hone : parent = 1 := (Option.some.inj hparent).symm
    rw [hone]
    decide
  have hp' : p = 10 ∨ p = 20 ∨ p = 40 := by simpa [members, trio, trioRuns] using hp
  rcases hp' with rfl | rfl | rfl
  · exact ⟨by decide, trio, List.mem_singleton_self _, 10, hroot, Relation.ReflTransGen.refl⟩
  · have hchild : Descends (exits 40 20 trioRuns).ppid 10 20 := Relation.ReflTransGen.single (by decide)
    exact ⟨by decide, trio, List.mem_singleton_self _, 10, hroot, hchild⟩
  · cases halive

/-! ## What happens between the readings -/

/-- The root goes between the readings, and the process below it is not signalled. -/
theorem signal_misses_orphan :
    signalled 30 [pair] bothRun (exits 10 1 bothRun) = [] ∧
      ¬ Covers 30 [pair] bothRun (exits 10 1 bothRun) := by
  have hnone : signalled 30 [pair] bothRun (exits 10 1 bothRun) = [] := by decide +kernel
  refine ⟨hnone, ?_⟩
  rintro ⟨hall, -⟩
  have hmem := hall pair (List.mem_singleton_self _) 20 (by decide) (by decide)
  rw [hnone] at hmem
  cases hmem

section Kept

variable {self : Pid} {tracked : List Session} {s : Session} {t t₁ t₂ : Snapshot} {p : Pid}
  {rank : Pid → Nat}

/-- Where no member has lost a parent that was a member, each comes down from a root: by induction on
how deep it stands. -/
theorem exists_root_of_kept
    (hrank : ∀ p q, t₁.ppid.get p = some q → q ∈ members s t₁ → rank q < rank p)
    (hkept : ∀ p ∈ members s t₁, ∀ q ∈ members s t₁, t₁.ppid.get p = some q → (p, q) ∈ t₂.ppid)
    (hp : p ∈ members s t₁) : ∃ r, IsRoot s t₁ r ∧ Descends t₂.ppid r p := by
  induction hn : rank p using Nat.strongRecOn generalizing p with
  | ind n ih =>
    by_cases hroot : IsRoot s t₁ p
    · exact ⟨p, hroot, Relation.ReflTransGen.refl⟩
    · have hparent : ∃ q, t₁.ppid.get p = some q ∧ q ∈ members s t₁ := by
        unfold IsRoot at hroot
        push Not at hroot
        exact hroot hp
      obtain ⟨q, hget, hq⟩ := hparent
      have hless : rank q < n := by
        rw [← hn]
        exact hrank p q hget hq
      obtain ⟨r, hr, hdown⟩ := ih (rank q) hless hq rfl
      exact ⟨r, hr, hdown.tail (hkept p hp q hq hget)⟩

/-- **One reading of a table without cycles** finds every member of a session that is alive. -/
theorem survivors_cover (hfound : ∀ s ∈ tracked, s.isLive = true → members s t ≠ [])
    (hrank : ∀ p q, t.ppid.get p = some q → rank q < rank p) (hs : s ∈ tracked)
    (hp : p ∈ members s t) : p ∈ survivors tracked t := by
  obtain ⟨r, hr, hdown⟩ := exists_root_of_kept (fun p q h _ => hrank p q h)
    (fun p _ q _ h => Dict.mem_of_get h) hp
  unfold survivors
  rw [List.mem_mergeSort, List.mem_dedup, List.mem_flatMap]
  refine ⟨r, (mem_liveRoots hfound).mpr ⟨s, hs, hr⟩, List.mem_filter.mpr ⟨mem_collectTree.mpr hdown, ?_⟩⟩
  exact (List.mem_filter.mp hp).2

end Kept

/-- The child of a pair is found. -/
theorem survivors_cover_pair : 20 ∈ survivors [pair] bothRun := by
  have hrank : ∀ p q, bothRun.ppid.get p = some q → id q < id p := by
    intro p q hget
    have hmem : (p, q) ∈ bothRun.ppid := Dict.mem_of_get hget
    simp only [bothRun, List.mem_cons, Prod.mk.injEq, List.not_mem_nil, or_false] at hmem
    rcases hmem with ⟨rfl, rfl⟩ | ⟨rfl, rfl⟩ | ⟨rfl, rfl⟩ <;> decide
  exact survivors_cover (by decide) hrank (List.mem_singleton_self _) (by decide)

end Kill

end ProotDistro
