import ProotDistro.Dirfd

/-!
# `dirfd.Levels`: the levels of a walk, a bounded number of them open

A walk keeps one frame for each directory it is inside of, and looks at the topmost only. Past a budget
of open levels the shallowest is *parked*: its descriptors are closed, and opened again through `..` of
the level above it when the walk comes back down. A descriptor is the directory it is open on; a walk
over two trees at once holds two of them in a level. The directories do not move while the walk is
inside them. Whether a level can be identified when it is to be parked is the system's to say.

* **`Held`** — how the frames stand for the levels of a walk that parks nothing: the caller's own level,
  the parked ones, and the open ones on top.
* **`push_held`, `pop_held`** — what each operation makes of that.
* **`levels_sound`** — every run of every walk: what is parked, what is open and how much of it, and
  that the walk sees what it would see if nothing were ever parked.
* **`countTreeAt_eq`** — so the count of a tree does not depend on the budget.
-/

namespace ProotDistro

open Posix

namespace Dirfd

/-! ## The stack -/

/-- A frame of a walk: its two descriptor slots, and what else the walk keeps in it. -/
structure Frame (α : Type) where
  fd₀ : Option Path
  fd₁ : Option Path
  rest : α
  deriving DecidableEq

/-- What a parked level is known by. -/
abbrev Keys := Option Path × Option Path

/-- `Levels`; the bottom of the stack is its head. -/
structure Levels (α : Type) where
  stack : List (Frame α)
  budget : Nat
  keys : List (Option Keys)
  low : Nat

namespace Levels

variable {α : Type}

/-- `MAX_OPEN_LEVELS` -/
def maxOpenLevels : Nat := 64

/-- `__init__` -/
def init (stack : List (Frame α)) (budget : Nat) : Levels α :=
  ⟨stack, budget, stack.map fun _ => none, 1⟩

/-- `_park`; `refuse` is where `fstat` of a descriptor fails. -/
def park (refuse : Path → Bool) (l : Levels α) (index : Nat) : Option (Levels α) :=
  match l.stack[index]? with
  | none => none
  | some frame =>
    if frame.fd₀.any refuse || frame.fd₁.any refuse then none
    else
      some { l with
        stack := l.stack.set index { frame with fd₀ := none, fd₁ := none }
        keys := l.keys.set index (some (frame.fd₀, frame.fd₁)) }

/-- The loop of `push`: the shallowest levels beyond the budget. -/
def parkLoop (refuse : Path → Bool) (limit : Nat) (l : Levels α) : Levels α :=
  if l.stack.length - l.low > l.budget ∧ l.low < limit then
    match park refuse l l.low with
    | none => l
    | some l' => parkLoop refuse limit { l' with low := l.low + 1 }
  else l
termination_by limit - l.low
decreasing_by
  show limit - (l.low + 1) < limit - l.low
  omega

/-- `push` -/
def push (refuse : Path → Bool) (l : Levels α) (frame : Frame α) : Levels α :=
  parkLoop refuse (l.stack.length + 1 - 2)
    { l with stack := l.stack ++ [frame], keys := l.keys ++ [none] }

/-- One slot of `_revive_level`; `none` where it raises ESTALE. -/
def reviveSlot (slot key below : Option Path) : Option (Option Path) :=
  match key, below with
  | none, _ => some slot
  | some _, none => none
  | some key, some below => if below.dropLast = key then some (some below.dropLast) else none

/-- `_revive_level` -/
def reviveLevel (frame : Frame α) (keys : Keys) (child : Frame α) : Option (Frame α) := do
  let fd₀ ← reviveSlot frame.fd₀ keys.1 child.fd₀
  let fd₁ ← reviveSlot frame.fd₁ keys.2 child.fd₁
  pure { frame with fd₀ := fd₀, fd₁ := fd₁ }

/-- `pop`: the top level, and the others; `none` where the one below cannot be revived. -/
def pop (l : Levels α) : Option (Option (Frame α) × Levels α) :=
  let left := { l with stack := l.stack.dropLast, keys := l.keys.dropLast }
  match l.stack.getLast?, left.stack.getLast?, left.keys.getLast? with
  | some frame, some below, some (some keys) =>
    (reviveLevel below keys frame).map fun revived =>
      (some frame, { left with
        stack := left.stack.dropLast ++ [revived]
        keys := left.keys.dropLast ++ [none]
        low := left.stack.length - 1 })
  | frame, _, _ => some (frame, left)

/-- `truncate` -/
def truncate (l : Levels α) (depth : Nat) : Levels α :=
  { l with stack := l.stack.take depth, keys := l.keys.take depth }

/-- The walk's own change of its top frame. -/
def setTop (l : Levels α) (frame : Frame α) : Levels α :=
  { l with stack := l.stack.dropLast ++ [frame] }

/-- A level whose descriptors are closed, and known by their keys. -/
def IsParked (l : Levels α) (i : Nat) : Prop :=
  (∃ keys, l.keys[i]? = some (some keys)) ∧
    ∃ frame, l.stack[i]? = some frame ∧ frame.fd₀ = none ∧ frame.fd₁ = none

/-- A level that holds its descriptors. -/
def IsLive (l : Levels α) (i : Nat) : Prop :=
  l.keys[i]? = some none ∧ ∃ frame, l.stack[i]? = some frame ∧ frame.fd₀.isSome = true

/-- How many levels hold descriptors. -/
def liveCount (l : Levels α) : Nat := (l.stack.filter fun frame => frame.fd₀.isSome).length

/-- How many descriptors are open. -/
def openCount (l : Levels α) : Nat :=
  (l.stack.map fun frame => frame.fd₀.toList.length + frame.fd₁.toList.length).sum

end Levels

/-! ## Walks -/

/-- What a walk does next at the level it is in; `σ` is all it reads and writes beside its frames. -/
inductive Action (σ α : Type) where
  /-- an entry of this level -/
  | visit (s : σ) (rest : α)
  /-- a directory of this level is entered -/
  | descend (s : σ) (rest : α) (name : Name) (child : α)
  /-- a directory whose second descriptor cannot be had: its frame is dropped again -/
  | abandon (s : σ) (rest : α) (name : Name) (child : α)
  /-- the level is done -/
  | leave (s : σ)

/-- A walk: what it does at a level, by the top frame; what it does on the way out of one, when the
level below is there again; and what that level is told. -/
structure Walk (σ α : Type) where
  next : σ → Frame α → Action σ α
  left : σ → Frame α → Option (Frame α) → σ
  told : σ → Frame α → α → α

/-- How far a run has come. -/
inductive Outcome (σ τ : Type) where
  | ended (s : σ)
  | stale (s : σ)
  | goes (s : σ) (levels : τ)

variable {σ α : Type}

/-- The frame of a directory below a level, before its second slot is filled. -/
def below (top : Frame α) (name : Name) (child : α) : Frame α :=
  ⟨top.fd₀.map (· ++ [name]), none, child⟩

/-- One turn of a walk's loop. -/
def step (walk : Walk σ α) (refuse : σ → Path → Bool) (s : σ) (l : Levels α) :
    Outcome σ (Levels α) :=
  match l.stack.getLast? with
  | none => .ended s
  | some top =>
    match walk.next s top with
    | .visit s rest => .goes s (l.setTop { top with rest := rest })
    | .descend s' rest name child =>
      let pushed := (l.setTop { top with rest := rest }).push (refuse s') (below top name child)
      match top.fd₁ with
      | none => .goes s' pushed
      | some second =>
        .goes s' (pushed.setTop { below top name child with fd₁ := some (second ++ [name]) })
    | .abandon s' rest name child =>
      let pushed := (l.setTop { top with rest := rest }).push (refuse s') (below top name child)
      .goes s' (pushed.truncate l.stack.length)
    | .leave s =>
      match l.pop with
      | none => .stale s
      | some (_, l') =>
        match l'.stack.getLast? with
        | none => .goes (walk.left s top none) l'
        | some under =>
          .goes (walk.left s top (some under)) (l'.setTop { under with rest := walk.told s top under.rest })

/-- So many turns: the top frame of each, and how far they come. -/
def run (walk : Walk σ α) (refuse : σ → Path → Bool) :
    Nat → σ → Levels α → List (Option (Frame α)) × Outcome σ (Levels α)
  | 0, s, l => ([], .goes s l)
  | n + 1, s, l =>
    match step walk refuse s l with
    | .goes s' l' => (l.stack.getLast? :: (run walk refuse n s' l').1, (run walk refuse n s' l').2)
    | outcome => ([l.stack.getLast?], outcome)

/-! ## The walk that parks nothing -/

/-- A level, all of its descriptors open. -/
structure Level (α : Type) where
  dir₀ : Path
  dir₁ : Option Path
  rest : α

namespace Level

/-- The frame of an open level. -/
def frame (x : Level α) : Frame α := ⟨some x.dir₀, x.dir₁, x.rest⟩

/-- The frame of a parked level. -/
def parked (x : Level α) : Frame α := ⟨none, none, x.rest⟩

def keys (x : Level α) : Keys := (some x.dir₀, x.dir₁)

/-- The level of a directory below this one. -/
def child (x : Level α) (name : Name) (rest : α) : Level α :=
  ⟨x.dir₀ ++ [name], x.dir₁.map (· ++ [name]), rest⟩

/-- The directories of one level are those above the directories of another. -/
def Above (x y : Level α) : Prop :=
  y.dir₀.dropLast = x.dir₀ ∧ y.dir₁.map List.dropLast = x.dir₁

end Level

/-- One turn on a stack that is never parked; the deepest level is the head. -/
def fullStep (walk : Walk σ α) (s : σ) : List (Level α) → Outcome σ (List (Level α))
  | [] => .ended s
  | top :: stack =>
    match walk.next s top.frame with
    | .visit s rest => .goes s ({ top with rest := rest } :: stack)
    | .descend s rest name child => .goes s (top.child name child :: { top with rest := rest } :: stack)
    | .abandon s rest _ _ => .goes s ({ top with rest := rest } :: stack)
    | .leave s =>
      match stack with
      | [] => .goes (walk.left s top.frame none) []
      | under :: stack =>
        .goes (walk.left s top.frame (some under.frame))
          ({ under with rest := walk.told s top.frame under.rest } :: stack)

/-- So many turns of it. -/
def fullRun (walk : Walk σ α) :
    Nat → σ → List (Level α) → List (Option (Frame α)) × Outcome σ (List (Level α))
  | 0, s, full => ([], .goes s full)
  | n + 1, s, full =>
    match fullStep walk s full with
    | .goes s' full' =>
      (full.head?.map Level.frame :: (fullRun walk n s' full').1, (fullRun walk n s' full').2)
    | outcome => ([full.head?.map Level.frame], outcome)

/-! ## How the frames stand for the levels -/

namespace Levels

/-- The frames of a bottom level, of parked levels and of open ones above them. Where every level can
be identified, no more levels are open than the budget allows. -/
structure Held (calm : Prop) (budget : Nat) (l : Levels α) (base : Level α)
    (parked live : List (Level α)) : Prop where
  stack_eq : l.stack = base.frame :: (parked.map Level.parked ++ live.map Level.frame)
  keys_eq : l.keys = none :: (parked.map (fun x => some x.keys) ++ live.map fun _ => none)
  low_eq : l.low = parked.length + 1
  budget_eq : l.budget = budget
  top_open : live = [] → parked = []
  few : calm → live.length ≤ max budget 2

section Held

variable {calm : Prop} {budget : Nat} {l : Levels α} {base x y : Level α}
  {parked live : List (Level α)} {refuse : Path → Bool}

/-- The stack has a frame for each level. -/
theorem Held.length_eq (h : Held calm budget l base parked live) :
    l.stack.length = parked.length + live.length + 1 := by
  rw [h.stack_eq, List.length_cons, List.length_append, List.length_map, List.length_map]

/-- The shallowest open level, where it is to be parked, is parked or cannot be identified. -/
theorem park_held (h : l.stack = base.frame :: (parked.map Level.parked ++ (x :: live).map Level.frame))
    (hkeys : l.keys = none :: (parked.map (fun x => some x.keys) ++ (x :: live).map fun _ => none))
    (hlow : l.low = parked.length + 1) :
    (park refuse l l.low = none ∧ ¬ ∀ p, refuse p = false) ∨
      ∃ l', park refuse l l.low = some l' ∧ l'.budget = l.budget ∧
        l'.stack = base.frame :: ((parked ++ [x]).map Level.parked ++ live.map Level.frame) ∧
        l'.keys = none :: ((parked ++ [x]).map (fun x => some x.keys) ++ live.map fun _ => none) := by
  have hget : l.stack[l.low]? = some x.frame := by
    rw [h, hlow, List.getElem?_cons_succ, List.getElem?_append_right (by rw [List.length_map]),
      List.length_map, Nat.sub_self]
    rfl
  unfold park
  rw [hget]
  dsimp only
  split
  · rename_i hrefused
    left
    refine ⟨rfl, ?_⟩
    intro hnone
    rw [Bool.or_eq_true, Option.any_eq_true, Option.any_eq_true] at hrefused
    rcases hrefused with ⟨p, -, hp⟩ | ⟨p, -, hp⟩
    · rw [hnone p] at hp
      cases hp
    · rw [hnone p] at hp
      cases hp
  · right
    refine ⟨_, rfl, rfl, ?_, ?_⟩
    · show l.stack.set l.low x.parked = _
      rw [h, hlow, List.set_cons_succ, List.set_append_right _ _ (by rw [List.length_map]),
        List.length_map, Nat.sub_self, List.map_append, List.append_assoc]
      rfl
    · show l.keys.set l.low (some x.keys) = _
      rw [hkeys, hlow, List.set_cons_succ, List.set_append_right _ _ (by rw [List.length_map]),
        List.length_map, Nat.sub_self, List.map_append, List.append_assoc]
      rfl

/-- What the loop of `push` parks, by induction on the open levels: a part of them from below, never
the top two. -/
theorem parkLoop_held (base : Level α) (limit : Nat) (hcalm : calm → ∀ p, refuse p = false) (live : List (Level α)) :
    ∀ (l : Levels α) (parked : List (Level α)),
      l.stack = base.frame :: (parked.map Level.parked ++ live.map Level.frame) →
      l.keys = none :: (parked.map (fun x => some x.keys) ++ live.map fun _ => none) →
      l.low = parked.length + 1 → l.budget = budget → limit = parked.length + live.length + 1 - 2 →
      (live = [] → parked = []) →
      ∃ more rest, live = more ++ rest ∧ (2 ≤ live.length → 2 ≤ rest.length) ∧
        Held calm budget (parkLoop refuse limit l) base (parked ++ more) rest := by
  -- the induction is on the levels still open, the lowest of them parked first
  induction live with
  | nil =>
    intro l parked hstack hkeys hlow hbudget _ hopen
    have hstop : parkLoop refuse limit l = l := by
      rw [parkLoop, if_neg]
      rw [hstack, hlow]
      simp
    refine ⟨[], [], rfl, fun h => h, ?_⟩
    rw [hstop, List.append_nil]
    exact ⟨hstack, hkeys, hlow, hbudget, hopen, fun _ => Nat.zero_le _⟩
  | cons x live ih =>
    intro l parked hstack hkeys hlow hbudget hlimit _
    have hlength : l.stack.length = parked.length + (live.length + 1) + 1 := by
      rw [hstack, List.length_cons, List.length_append, List.length_map, List.length_map,
        List.length_cons]
    rw [List.length_cons] at hlimit
    -- over the budget, and with more than two levels open
    by_cases hcond : l.stack.length - l.low > l.budget ∧ l.low < limit
    · have hpark : (park refuse l l.low = none ∧ ¬ ∀ p, refuse p = false) ∨ _ :=
        park_held hstack hkeys hlow
      rcases hpark with ⟨hnone, hrefused⟩ | ⟨l', hsome, hbudget', hstack', hkeys'⟩
      · -- the level stays as it is, and so do those above it
        have hstop : parkLoop refuse limit l = l := by
          rw [parkLoop, if_pos hcond, hnone]
        refine ⟨[], x :: live, rfl, fun h => h, ?_⟩
        rw [hstop, List.append_nil]
        refine ⟨hstack, hkeys, hlow, hbudget, fun h => absurd h (List.cons_ne_nil _ _), ?_⟩
        intro h
        exact absurd (hcalm h) hrefused
      · have hgoes : parkLoop refuse limit l = parkLoop refuse limit { l' with low := l.low + 1 } := by
          rw [parkLoop, if_pos hcond, hsome]
        have hmore : 2 ≤ live.length := by omega
        obtain ⟨more, rest, hsplit, htwo, hheld⟩ := ih { l' with low := l.low + 1 } (parked ++ [x])
          hstack' hkeys' (by
            show l.low + 1 = _
            rw [hlow, List.length_append, List.length_singleton])
          (by
            show l'.budget = budget
            rw [hbudget', hbudget])
          (by
            rw [List.length_append, List.length_singleton]
            omega)
          (by
            intro hnil
            rw [hnil] at hmore
            cases hmore)
        refine ⟨x :: more, rest, by rw [hsplit, List.cons_append], fun _ => htwo hmore, ?_⟩
        rw [hgoes]
        have happend : parked ++ x :: more = parked ++ [x] ++ more := by
          rw [List.append_assoc, List.singleton_append]
        rw [happend]
        exact hheld
    -- within the budget, or with two levels left
    · have hstop : parkLoop refuse limit l = l := by
        rw [parkLoop, if_neg hcond]
      refine ⟨[], x :: live, rfl, fun h => h, ?_⟩
      rw [hstop, List.append_nil]
      refine ⟨hstack, hkeys, hlow, hbudget, fun h => absurd h (List.cons_ne_nil _ _), ?_⟩
      intro _
      rw [List.length_cons]
      omega

/-- A push puts an open level on top, and parks a part of the open ones below the top two. -/
theorem push_held (hcalm : calm → ∀ p, refuse p = false) (h : Held calm budget l base parked live) :
    ∃ more rest, live ++ [y] = more ++ rest ∧ (live ≠ [] → 2 ≤ rest.length) ∧
      Held calm budget (push refuse l y.frame) base (parked ++ more) rest := by
  have hlength := h.length_eq
  obtain ⟨more, rest, hsplit, htwo, hheld⟩ := parkLoop_held base (l.stack.length + 1 - 2) hcalm
    (live ++ [y]) { l with stack := l.stack ++ [y.frame], keys := l.keys ++ [none] } parked
    (by
      show l.stack ++ [y.frame] = _
      rw [h.stack_eq, List.map_append, List.cons_append, List.append_assoc]
      rfl)
    (by
      show l.keys ++ [none] = _
      rw [h.keys_eq, List.map_append, List.cons_append, List.append_assoc]
      rfl)
    h.low_eq h.budget_eq
    (by
      rw [List.length_append, List.length_singleton]
      omega)
    (by
      intro hnil
      rw [List.append_eq_nil_iff] at hnil
      cases hnil.2)
  refine ⟨more, rest, hsplit, ?_, hheld⟩
  intro hne
  apply htwo
  have hpos := List.length_pos_iff.mpr hne
  rw [List.length_append, List.length_singleton]
  omega

/-- A frame dropped off the top leaves the others as they were. -/
theorem truncate_held (h : Held calm budget l base parked (live ++ [y]))
    (hopen : live = [] → parked = []) :
    Held calm budget (truncate l (parked.length + live.length + 1)) base parked live := by
  refine ⟨?_, ?_, h.low_eq, h.budget_eq, hopen, ?_⟩
  · show l.stack.take _ = _
    rw [h.stack_eq, List.take_succ_cons, List.map_append, ← List.append_assoc, List.take_left']
    rw [List.length_append, List.length_map, List.length_map]
  · show l.keys.take _ = _
    rw [h.keys_eq, List.take_succ_cons, List.map_append, ← List.append_assoc, List.take_left']
    rw [List.length_append, List.length_map, List.length_map]
  · intro hc
    have hfew := h.few hc
    rw [List.length_append, List.length_singleton] at hfew
    omega

/-- The walk may change the frame on top. -/
theorem setTop_held (h : Held calm budget l base parked (live ++ [y])) :
    Held calm budget (setTop l x.frame) base parked (live ++ [x]) := by
  refine ⟨?_, ?_, h.low_eq, h.budget_eq, ?_, ?_⟩
  · show l.stack.dropLast ++ [x.frame] = _
    rw [h.stack_eq, List.map_append, ← List.append_assoc, ← List.cons_append, List.map_singleton,
      List.dropLast_concat, List.map_append, ← List.append_assoc]
    rfl
  · show l.keys = _
    rw [h.keys_eq, List.map_append, List.map_append]
    rfl
  · intro hnil
    rw [List.append_eq_nil_iff] at hnil
    cases hnil.2
  · intro hc
    have hfew := h.few hc
    rw [List.length_append, List.length_singleton] at hfew ⊢
    exact hfew

/-- The caller's own level, when it is alone. -/
theorem setTop_held_base (h : Held calm budget l base [] []) :
    Held calm budget (setTop l x.frame) x [] [] := by
  refine ⟨?_, h.keys_eq, h.low_eq, h.budget_eq, h.top_open, h.few⟩
  show l.stack.dropLast ++ [x.frame] = _
  rw [h.stack_eq]
  rfl

/-- Leaving a level with another open one below it. -/
theorem pop_held_open (h : Held calm budget l base parked (live ++ [x] ++ [y])) :
    ∃ l', pop l = some (some y.frame, l') ∧ Held calm budget l' base parked (live ++ [x]) := by
  have hstack : l.stack = base.frame :: (parked.map Level.parked ++ live.map Level.frame) ++ [x.frame] ++
      [y.frame] := by
    rw [h.stack_eq, List.map_append, List.map_append]
    simp
  have hkeys : l.keys = none :: (parked.map (fun x => some x.keys) ++ live.map fun _ => none) ++
      [none] ++ [none] := by
    rw [h.keys_eq, List.map_append, List.map_append]
    simp
  refine ⟨{ l with stack := l.stack.dropLast, keys := l.keys.dropLast }, ?_, ?_⟩
  · unfold pop
    dsimp only
    rw [hstack, hkeys, List.dropLast_concat, List.dropLast_concat, List.getLast?_concat,
      List.getLast?_concat, List.getLast?_concat]
  · refine ⟨?_, ?_, h.low_eq, h.budget_eq, ?_, ?_⟩
    · show l.stack.dropLast = _
      rw [hstack, List.dropLast_concat, List.map_append]
      simp
    · show l.keys.dropLast = _
      rw [hkeys, List.dropLast_concat, List.map_append]
      simp
    · intro hnil
      rw [List.append_eq_nil_iff] at hnil
      cases hnil.2
    · intro hc
      have hfew := h.few hc
      rw [List.length_append, List.length_singleton] at hfew
      omega

/-- A parked level is revived through the one above it. -/
theorem reviveLevel_above (h : x.Above y) : reviveLevel x.parked x.keys y.frame = some x.frame := by
  obtain ⟨h₀, h₁⟩ := h
  have hslot₀ : reviveSlot none (some x.dir₀) (some y.dir₀) = some (some x.dir₀) := by
    unfold reviveSlot
    dsimp only
    rw [if_pos h₀, h₀]
  have hslot₁ : reviveSlot none x.dir₁ y.dir₁ = some x.dir₁ := by
    rw [← h₁]
    cases y.dir₁ with
    | none => rfl
    | some d =>
      show (if d.dropLast = d.dropLast then some (some d.dropLast) else none) = _
      rw [if_pos rfl]
      rfl
  show (do
    let fd₀ ← reviveSlot none (some x.dir₀) (some y.dir₀)
    let fd₁ ← reviveSlot none x.dir₁ y.dir₁
    pure { x.parked with fd₀ := fd₀, fd₁ := fd₁ }) = _
  rw [hslot₀, hslot₁]
  rfl

/-- Leaving a level with a parked one below it revives that one. -/
theorem pop_held_parked (h : Held calm budget l base (parked ++ [x]) [y]) (habove : x.Above y) :
    ∃ l', pop l = some (some y.frame, l') ∧ Held calm budget l' base parked [x] := by
  have hstack : l.stack = base.frame :: parked.map Level.parked ++ [x.parked] ++ [y.frame] := by
    rw [h.stack_eq, List.map_append]
    rfl
  have hkeys : l.keys = none :: parked.map (fun x => some x.keys) ++ [some x.keys] ++ [none] := by
    rw [h.keys_eq, List.map_append]
    rfl
  refine ⟨{ l with
    stack := base.frame :: parked.map Level.parked ++ [x.frame]
    keys := none :: parked.map (fun x => some x.keys) ++ [none]
    low := parked.length + 1 }, ?_, ?_⟩
  · unfold pop
    dsimp only
    rw [hstack, hkeys, List.dropLast_concat, List.dropLast_concat, List.getLast?_concat,
      List.getLast?_concat, List.getLast?_concat]
    dsimp only
    rw [reviveLevel_above habove, List.dropLast_concat, List.dropLast_concat, Option.map_some]
    have hindex : (base.frame :: parked.map Level.parked ++ [x.parked]).length - 1 =
        parked.length + 1 := by
      simp
    rw [hindex]
  · refine ⟨rfl, rfl, rfl, h.budget_eq, nofun, ?_⟩
    intro hc
    rw [List.length_singleton]
    omega

/-- Leaving the last level above the caller's own. -/
theorem pop_held_last (h : Held calm budget l base [] [y]) :
    ∃ l', pop l = some (some y.frame, l') ∧ Held calm budget l' base [] [] := by
  refine ⟨{ l with stack := l.stack.dropLast, keys := l.keys.dropLast }, ?_, ?_⟩
  · unfold pop
    dsimp only
    rw [h.stack_eq, h.keys_eq]
    rfl
  · refine ⟨?_, ?_, h.low_eq, h.budget_eq, fun h => h, fun _ => Nat.zero_le _⟩
    · show l.stack.dropLast = _
      rw [h.stack_eq]
      rfl
    · show l.keys.dropLast = _
      rw [h.keys_eq]
      rfl

/-- Leaving the caller's own level. -/
theorem pop_held_base (h : Held calm budget l base [] []) :
    ∃ l', pop l = some (some base.frame, l') ∧ l'.stack = [] := by
  refine ⟨{ l with stack := l.stack.dropLast, keys := l.keys.dropLast }, ?_, ?_⟩
  · unfold pop
    dsimp only
    rw [h.stack_eq, h.keys_eq]
    rfl
  · show l.stack.dropLast = _
    rw [h.stack_eq]
    rfl

end Held

/-! ## The stack against the levels of the walk -/

/-- The stack stands for these levels, the deepest of them first. -/
def Holds (calm : Prop) (budget : Nat) (l : Levels α) (full : List (Level α)) : Prop :=
  (full = [] ∧ l.stack = []) ∨
    ∃ base parked live, full.reverse = base :: (parked ++ live) ∧ Held calm budget l base parked live

section Holds

variable {calm : Prop} {budget : Nat} {l : Levels α} {top under x y : Level α}
  {stack : List (Level α)} {refuse : Path → Bool}

/-- The two shapes of a stack with a level on top. -/
theorem holds_cons (h : Holds calm budget l (top :: stack)) :
    (stack = [] ∧ Held calm budget l top [] []) ∨
      ∃ base parked live, stack.reverse = base :: (parked ++ live) ∧
        Held calm budget l base parked (live ++ [top]) := by
  rcases h with ⟨hnil, -⟩ | ⟨base, parked, live, hfull, hheld⟩
  · cases hnil
  · rw [List.reverse_cons] at hfull
    rcases List.eq_nil_or_concat' live with rfl | ⟨init, last, rfl⟩
    · obtain rfl := hheld.top_open rfl
      have hsingle : stack.reverse ++ [top] = [] ++ [base] := hfull
      obtain ⟨hstack, htop⟩ := List.append_inj' hsingle rfl
      left
      rw [List.cons.inj htop |>.1]
      exact ⟨List.reverse_eq_nil_iff.mp hstack, hheld⟩
    · have hconcat : stack.reverse ++ [top] = base :: (parked ++ init) ++ [last] := by
        rw [hfull, List.cons_append, List.append_assoc]
      obtain ⟨hstack, htop⟩ := List.append_inj' hconcat rfl
      right
      rw [List.cons.inj htop |>.1]
      exact ⟨base, parked, init, hstack, hheld⟩

/-- The topmost frame is that of the topmost level, which is open. -/
theorem getLast?_of_holds (h : Holds calm budget l (top :: stack)) :
    l.stack.getLast? = some top.frame := by
  rcases holds_cons h with ⟨-, hheld⟩ | ⟨base, parked, live, -, hheld⟩
  · rw [hheld.stack_eq]
    rfl
  · rw [hheld.stack_eq, List.map_append, ← List.append_assoc, ← List.cons_append, List.map_singleton,
      List.getLast?_concat]

/-- What the walk keeps in its topmost frame changes that level. -/
theorem setTop_holds (h : Holds calm budget l (top :: stack)) :
    Holds calm budget (l.setTop x.frame) (x :: stack) := by
  right
  rcases holds_cons h with ⟨hstack, hheld⟩ | ⟨base, parked, live, hstack, hheld⟩
  · refine ⟨x, [], [], ?_, setTop_held_base hheld⟩
    rw [hstack]
    rfl
  · refine ⟨base, parked, live ++ [x], ?_, setTop_held hheld⟩
    rw [List.reverse_cons, hstack, List.cons_append, List.append_assoc]

/-- After a push the new level is on top, and the one below it is open. -/
theorem push_holds (hcalm : calm → ∀ p, refuse p = false)
    (h : Holds calm budget l (top :: stack)) :
    (stack = [] ∧ Held calm budget (l.push refuse x.frame) top [] [x]) ∨
      ∃ base parked live, stack.reverse = base :: (parked ++ live) ∧
        Held calm budget (l.push refuse x.frame) base parked (live ++ [top] ++ [x]) := by
  rcases holds_cons h with ⟨hstack, hheld⟩ | ⟨base, parked, live, hstack, hheld⟩
  · left
    obtain ⟨more, rest, hsplit, -, hpushed⟩ := push_held (y := x) hcalm hheld
    refine ⟨hstack, ?_⟩
    -- the one open level stays: a parked one would leave none
    rcases List.append_eq_singleton_iff.mp hsplit.symm with ⟨rfl, rfl⟩ | ⟨rfl, rfl⟩
    · exact hpushed
    · have hnone := hpushed.top_open rfl
      cases hnone
  · right
    obtain ⟨more, rest, hsplit, htwo, hpushed⟩ := push_held (y := x) hcalm hheld
    have hlength : 2 ≤ rest.length := htwo (by simp)
    obtain ⟨init, rfl⟩ : ∃ init, rest = init ++ [top] ++ [x] := by
      rcases List.eq_nil_or_concat' rest with rfl | ⟨rest', last, rfl⟩
      · cases hlength
      · rcases List.eq_nil_or_concat' rest' with rfl | ⟨init, last', rfl⟩
        · rw [List.nil_append, List.length_singleton] at hlength
          omega
        · have hconcat : live ++ [top] ++ [x] = (more ++ init ++ [last']) ++ [last] := by
            rw [hsplit]
            simp
          obtain ⟨hrest, hlast⟩ := List.append_inj' hconcat rfl
          obtain ⟨-, hlast'⟩ := List.append_inj' hrest rfl
          rw [(List.cons.inj hlast).1, (List.cons.inj hlast').1]
          exact ⟨init, rfl⟩
    have hlive : live = more ++ init := by
      have hconcat : live ++ [top] ++ [x] = (more ++ init) ++ [top] ++ [x] := by
        rw [hsplit]
        simp
      exact List.append_cancel_right (List.append_cancel_right hconcat)
    refine ⟨base, parked ++ more, init, ?_, hpushed⟩
    rw [hstack, hlive, List.append_assoc]

/-- A push puts the new level on top, whatever it parks. -/
theorem holds_push (hcalm : calm → ∀ p, refuse p = false) (h : Holds calm budget l (top :: stack)) :
    Holds calm budget (l.push refuse x.frame) (x :: top :: stack) := by
  right
  rcases push_holds (x := x) hcalm h with ⟨hstack, hheld⟩ | ⟨base, parked, live, hstack, hheld⟩
  · refine ⟨top, [], [x], ?_, hheld⟩
    rw [hstack]
    rfl
  · refine ⟨base, parked, live ++ [top] ++ [x], ?_, hheld⟩
    rw [List.reverse_cons, List.reverse_cons, hstack]
    simp

/-- A level that is pushed and dropped again leaves the stack as it was. -/
theorem holds_truncate (hcalm : calm → ∀ p, refuse p = false)
    (h : Holds calm budget l (top :: stack)) :
    Holds calm budget ((l.push refuse x.frame).truncate l.stack.length) (top :: stack) := by
  have hlength : l.stack.length = stack.length + 1 := by
    rcases holds_cons h with ⟨hstack, hheld⟩ | ⟨base, parked, live, hstack, hheld⟩
    · rw [hheld.length_eq, hstack]
      rfl
    · have hreverse := congrArg List.length hstack
      rw [List.length_reverse, List.length_cons, List.length_append] at hreverse
      rw [hheld.length_eq, List.length_append, List.length_singleton, hreverse]
      omega
  right
  rcases push_holds (x := x) hcalm h with ⟨hstack, hheld⟩ | ⟨base, parked, live, hstack, hheld⟩
  · refine ⟨top, [], [], ?_, ?_⟩
    · rw [hstack]
      rfl
    · rw [hlength, hstack]
      have hshort : Held calm budget (l.push refuse x.frame) top [] ([] ++ [x]) := hheld
      exact truncate_held hshort fun _ => rfl
  · refine ⟨base, parked, live ++ [top], ?_, ?_⟩
    · rw [List.reverse_cons, hstack, List.cons_append, List.append_assoc]
    · have hreverse := congrArg List.length hstack
      rw [List.length_reverse, List.length_cons, List.length_append] at hreverse
      have hdepth : l.stack.length = parked.length + (live ++ [top]).length + 1 := by
        rw [hlength, hreverse, List.length_append, List.length_singleton]
        omega
      rw [hdepth]
      apply truncate_held hheld
      intro hnil
      rw [List.append_eq_nil_iff] at hnil
      cases hnil.2

/-- Leaving a level, with the one below it open again. -/
theorem holds_pop (h : Holds calm budget l (top :: under :: stack)) (habove : under.Above top) :
    ∃ l', l.pop = some (some top.frame, l') ∧ Holds calm budget l' (under :: stack) := by
  rcases holds_cons h with ⟨hnil, -⟩ | ⟨base, parked, live, hstack, hheld⟩
  · cases hnil
  rw [List.reverse_cons] at hstack
  rcases List.eq_nil_or_concat' live with rfl | ⟨init, last, rfl⟩
  · rcases List.eq_nil_or_concat' parked with rfl | ⟨init, last, rfl⟩
    · have hsingle : stack.reverse ++ [under] = [] ++ [base] := hstack
      obtain ⟨hreverse, hunder⟩ := List.append_inj' hsingle rfl
      rw [(List.cons.inj hunder).1]
      obtain ⟨l', hpop, hheld'⟩ := pop_held_last hheld
      refine ⟨l', hpop, .inr ⟨base, [], [], ?_, hheld'⟩⟩
      rw [List.reverse_cons, hreverse]
      rfl
    · have hconcat : stack.reverse ++ [under] = base :: init ++ [last] := by
        rw [hstack, List.append_nil]
        rfl
      obtain ⟨hreverse, hunder⟩ := List.append_inj' hconcat rfl
      have hsame : under = last := (List.cons.inj hunder).1
      rw [hsame] at habove ⊢
      obtain ⟨l', hpop, hheld'⟩ := pop_held_parked hheld habove
      refine ⟨l', hpop, .inr ⟨base, init, [last], ?_, hheld'⟩⟩
      rw [List.reverse_cons, hreverse]
      rfl
  · have hconcat : stack.reverse ++ [under] = base :: (parked ++ init) ++ [last] := by
      rw [hstack, List.cons_append, List.append_assoc]
    obtain ⟨hreverse, hunder⟩ := List.append_inj' hconcat rfl
    have hsame : under = last := (List.cons.inj hunder).1
    rw [hsame]
    obtain ⟨l', hpop, hheld'⟩ := pop_held_open hheld
    refine ⟨l', hpop, .inr ⟨base, parked, init ++ [last], ?_, hheld'⟩⟩
    rw [List.reverse_cons, hreverse, List.cons_append, List.append_assoc]

/-- Leaving the caller's own level ends the walk. -/
theorem holds_pop_last (h : Holds calm budget l [top]) :
    ∃ l', l.pop = some (some top.frame, l') ∧ Holds calm budget l' [] := by
  rcases holds_cons h with ⟨-, hheld⟩ | ⟨base, parked, live, hstack, -⟩
  · obtain ⟨l', hpop, hnil⟩ := pop_held_base hheld
    exact ⟨l', hpop, .inl ⟨rfl, hnil⟩⟩
  · cases hstack

end Holds

end Levels

/-! ## A run -/

section Runs

variable {σ : Type} {walk : Walk σ α} {refuse : σ → Path → Bool} {calm : Prop} {budget : Nat} {s : σ}
  {l : Levels α} {full : List (Level α)}

open Levels

/-- Each level is the one above the next. -/
def Linked (full : List (Level α)) : Prop := full.IsChain fun x y => y.Above x

/-- Two runs are at the same place, or have come to the same end. -/
def Agree (calm : Prop) (budget : Nat) :
    Outcome σ (Levels α) → Outcome σ (List (Level α)) → Prop
  | .ended s, .ended s' => s = s'
  | .goes s l, .goes s' full => s = s' ∧ Holds calm budget l full ∧ Linked full
  | _, _ => False

/-- The directory below a level stands above it in the chain. -/
theorem child_above {x : Level α} {name : Name} {rest : α} : x.Above (x.child name rest) := by
  constructor
  · show (x.dir₀ ++ [name]).dropLast = x.dir₀
    rw [List.dropLast_concat]
  · show (x.dir₁.map (· ++ [name])).map List.dropLast = x.dir₁
    cases x.dir₁ with
    | none => rfl
    | some d =>
      show some (d ++ [name]).dropLast = some d
      rw [List.dropLast_concat]

/-- What a walk keeps in its frame says nothing of where the level is. -/
theorem linked_setTop {x : Level α} {stack : List (Level α)} {rest : α} (h : Linked (x :: stack)) :
    Linked ({ x with rest := rest } :: stack) := by
  cases stack with
  | nil => exact List.isChain_singleton _
  | cons y stack =>
    rw [Linked, List.isChain_cons_cons] at h
    exact List.isChain_cons_cons.mpr ⟨h.1, h.2⟩

/-- **One turn** does to the stack what it does to the levels it stands for. -/
theorem step_agree (hcalm : calm → ∀ s p, refuse s p = false) (h : Holds calm budget l full)
    (hlinked : Linked full) : Agree calm budget (step walk refuse s l) (fullStep walk s full) := by
  cases full with
  | nil =>
    rcases h with ⟨-, hnil⟩ | ⟨base, parked, live, hfull, -⟩
    · unfold step fullStep
      rw [hnil]
      rfl
    · cases hfull
  -- the top frame decides, and both see the same one
  | cons top stack =>
    unfold step fullStep
    rw [getLast?_of_holds h]
    dsimp only
    cases walk.next s top.frame with
    | visit s' rest =>
      exact ⟨rfl, setTop_holds (x := { top with rest := rest }) h, linked_setTop hlinked⟩
    -- the level below is pushed, and with it the second directory if the walk has two
    | descend s' rest name child =>
      have hset : Holds calm budget (l.setTop { top.frame with rest := rest })
          ({ top with rest := rest } :: stack) := setTop_holds (x := { top with rest := rest }) h
      have hlink : Linked (top.child name child :: { top with rest := rest } :: stack) :=
        List.isChain_cons_cons.mpr ⟨child_above, linked_setTop hlinked⟩
      have hpush : Holds calm budget
          ((l.setTop { top.frame with rest := rest }).push (refuse s') (below top.frame name child))
          (⟨top.dir₀ ++ [name], none, child⟩ :: { top with rest := rest } :: stack) :=
        holds_push (x := ⟨top.dir₀ ++ [name], none, child⟩) (fun hc => hcalm hc s') hset
      show Agree calm budget (match top.dir₁ with
        | none => _
        | some second => _) _
      cases hsecond : top.dir₁ with
      | none =>
        have hchild : top.child name child = ⟨top.dir₀ ++ [name], none, child⟩ := by
          unfold Level.child
          rw [hsecond]
          rfl
        rw [hsecond] at hlink hpush
        refine ⟨rfl, ?_, hlink⟩
        rw [hchild]
        exact hpush
      | some second =>
        have hchild : top.child name child = ⟨top.dir₀ ++ [name], some (second ++ [name]), child⟩ := by
          unfold Level.child
          rw [hsecond]
          rfl
        rw [hsecond] at hlink hpush
        refine ⟨rfl, ?_, hlink⟩
        rw [hchild]
        exact setTop_holds (x := ⟨top.dir₀ ++ [name], some (second ++ [name]), child⟩) hpush
    -- the level is pushed and dropped again, and the park of it stays
    | abandon s' rest name child =>
      have hset : Holds calm budget (l.setTop { top.frame with rest := rest })
          ({ top with rest := rest } :: stack) := setTop_holds (x := { top with rest := rest }) h
      have hlength : (l.setTop { top.frame with rest := rest }).stack.length = l.stack.length := by
        have hne : l.stack ≠ [] := by
          intro hnil
          have hlast := getLast?_of_holds h
          rw [hnil] at hlast
          cases hlast
        have hpos := List.length_pos_iff.mpr hne
        show (l.stack.dropLast ++ [_]).length = _
        rw [List.length_append, List.length_dropLast, List.length_singleton]
        omega
      have hdrop : Holds calm budget
          (((l.setTop { top.frame with rest := rest }).push (refuse s')
            (below top.frame name child)).truncate (l.setTop { top.frame with rest := rest }).stack.length)
          ({ top with rest := rest } :: stack) :=
        holds_truncate (x := ⟨top.dir₀ ++ [name], none, child⟩) (fun hc => hcalm hc s') hset
      rw [hlength] at hdrop
      exact ⟨rfl, hdrop, linked_setTop hlinked⟩
    -- the level is left for the one under it, if there is one
    | leave s' =>
      cases stack with
      | nil =>
        obtain ⟨l', hpop, hheld⟩ := holds_pop_last h
        dsimp only
        rw [hpop]
        dsimp only
        have hnil : l'.stack = [] := by
          rcases hheld with ⟨-, hnil⟩ | ⟨base, parked, live, hfull, -⟩
          · exact hnil
          · cases hfull
        rw [hnil]
        exact ⟨rfl, hheld, List.isChain_nil⟩
      | cons under stack =>
        rw [Linked, List.isChain_cons_cons] at hlinked
        obtain ⟨l', hpop, hheld⟩ := holds_pop h hlinked.1
        dsimp only
        rw [hpop]
        dsimp only
        rw [getLast?_of_holds hheld]
        exact ⟨rfl, setTop_holds (x := { under with rest := walk.told s' top.frame under.rest }) hheld,
          linked_setTop hlinked.2⟩

/-- The top frames two runs see are the same, and they come equally far: by induction on the turns. -/
theorem run_agree (hcalm : calm → ∀ s p, refuse s p = false) (n : Nat) :
    ∀ s l full, Holds calm budget l full → Linked full →
      (run walk refuse n s l).1 = (fullRun walk n s full).1 ∧
        Agree calm budget (run walk refuse n s l).2 (fullRun walk n s full).2 := by
  induction n with
  | zero =>
    intro s l full h hlinked
    exact ⟨rfl, rfl, h, hlinked⟩
  | succ n ih =>
    intro s l full h hlinked
    have hstep : Agree calm budget (step walk refuse s l) (fullStep walk s full) :=
      step_agree hcalm h hlinked
    have htop : l.stack.getLast? = full.head?.map Level.frame := by
      cases full with
      | nil =>
        rcases h with ⟨-, hnil⟩ | ⟨base, parked, live, hfull, -⟩
        · rw [hnil]
          rfl
        · cases hfull
      | cons top stack => exact getLast?_of_holds h
    unfold run fullRun
    cases hbounded : step walk refuse s l with
    | ended s₁ =>
      cases hfree : fullStep walk s full with
      | ended s₂ =>
        rw [hbounded, hfree] at hstep
        exact ⟨by rw [htop], hstep⟩
      | stale s₂ =>
        rw [hbounded, hfree] at hstep
        cases hstep
      | goes s₂ full' =>
        rw [hbounded, hfree] at hstep
        cases hstep
    | stale s₁ =>
      rw [hbounded] at hstep
      cases hstep
    | goes s₁ l' =>
      cases hfree : fullStep walk s full with
      | ended s₂ =>
        rw [hbounded, hfree] at hstep
        cases hstep
      | stale s₂ =>
        rw [hbounded, hfree] at hstep
        cases hstep
      | goes s₂ full' =>
        rw [hbounded, hfree] at hstep
        obtain ⟨hsame, hheld, hlinked'⟩ := hstep
        obtain ⟨htrace, hagree⟩ := ih s₁ l' full' hheld hlinked'
        rw [hsame] at htrace hagree ⊢
        dsimp only
        rw [htop, htrace]
        exact ⟨rfl, hagree⟩

end Runs

/-! ## What is parked and what is open -/

namespace Levels

variable {calm : Prop} {budget : Nat} {l l' : Levels α} {base y : Level α} {parked live : List (Level α)}
  {full : List (Level α)}

/-- The stack is in order: the parked levels are a block between the caller's own level and the open
ones, what is not parked is open, the topmost level among it, and where every level can be identified
no more levels are open than the budget (or two, where that is less than two) and the caller's own. -/
structure Sound (calm : Prop) (budget : Nat) (l : Levels α) : Prop where
  block : ∀ i < l.stack.length, (l.IsParked i ↔ 1 ≤ i ∧ i < l.low)
  open_or_parked : ∀ i < l.stack.length, l.IsLive i ∨ l.IsParked i
  top_live : l.stack ≠ [] → l.IsLive (l.stack.length - 1)
  few : calm → l.liveCount ≤ max budget 2 + 1

/-- A level is not open and parked at once. -/
theorem not_parked_of_live {i : Nat} (h : l.IsLive i) : ¬ l.IsParked i := by
  rintro ⟨⟨keys, hkeys⟩, -⟩
  rw [h.1] at hkeys
  cases hkeys

/-- The caller's own level is open. -/
theorem Held.live_zero (h : Held calm budget l base parked live) : l.IsLive 0 := by
  constructor
  · rw [h.keys_eq]
    rfl
  · refine ⟨base.frame, ?_, rfl⟩
    rw [h.stack_eq]
    rfl

/-- The levels above it are parked as far as the parked ones go. -/
theorem Held.parked_at {i : Nat} (h : Held calm budget l base parked live) (hi : i < parked.length) :
    l.IsParked (i + 1) := by
  constructor
  · refine ⟨parked[i].keys, ?_⟩
    rw [h.keys_eq, List.getElem?_cons_succ, List.getElem?_append_left (by rw [List.length_map]; exact hi),
      List.getElem?_map, List.getElem?_eq_getElem hi]
    rfl
  · refine ⟨parked[i].parked, ?_, rfl, rfl⟩
    rw [h.stack_eq, List.getElem?_cons_succ, List.getElem?_append_left (by rw [List.length_map]; exact hi),
      List.getElem?_map, List.getElem?_eq_getElem hi]
    rfl

theorem Held.live_at {i : Nat} (h : Held calm budget l base parked live) (hi : i < live.length) :
    l.IsLive (parked.length + i + 1) := by
  have hsub : parked.length + i - parked.length = i := by omega
  constructor
  · rw [h.keys_eq, List.getElem?_cons_succ,
      List.getElem?_append_right (by rw [List.length_map]; omega), List.length_map, hsub,
      List.getElem?_map, List.getElem?_eq_getElem hi]
    rfl
  · refine ⟨live[i].frame, ?_, rfl⟩
    rw [h.stack_eq, List.getElem?_cons_succ,
      List.getElem?_append_right (by rw [List.length_map]; omega), List.length_map, hsub,
      List.getElem?_map, List.getElem?_eq_getElem hi]
    rfl

/-- So many levels are open, with the caller's own. -/
theorem Held.liveCount_eq (h : Held calm budget l base parked live) :
    l.liveCount = live.length + 1 := by
  have hparked : (parked.map Level.parked).filter (fun frame => frame.fd₀.isSome) = [] := by
    rw [List.filter_eq_nil_iff]
    intro frame hframe
    obtain ⟨x, -, rfl⟩ := List.mem_map.mp hframe
    show ¬ false = true
    simp
  have hlive : (live.map Level.frame).filter (fun frame => frame.fd₀.isSome) = live.map Level.frame := by
    rw [List.filter_eq_self]
    intro frame hframe
    obtain ⟨x, -, rfl⟩ := List.mem_map.mp hframe
    rfl
  unfold liveCount
  rw [h.stack_eq, List.filter_cons_of_pos rfl, List.filter_append, hparked, hlive, List.nil_append,
    List.length_cons, List.length_map]

/-- The topmost level is open. -/
theorem Held.top_live (h : Held calm budget l base parked live) : l.IsLive (l.stack.length - 1) := by
  rw [h.length_eq]
  cases live with
  | nil =>
    rw [h.top_open rfl]
    exact h.live_zero
  | cons x live =>
    have htop : parked.length + (x :: live).length + 1 - 1 = parked.length + live.length + 1 := by
      rw [List.length_cons]
      omega
    rw [htop]
    apply h.live_at
    rw [List.length_cons]
    omega

/-- What stands for the levels of a walk is in order. -/
theorem sound_of_holds (h : Holds calm budget l full) : Sound calm budget l := by
  rcases h with ⟨-, hnil⟩ | ⟨base, parked, live, -, hheld⟩
  · refine ⟨?_, ?_, fun h => absurd hnil h, ?_⟩
    · intro i hi
      rw [hnil] at hi
      cases hi
    · intro i hi
      rw [hnil] at hi
      cases hi
    · intro _
      unfold liveCount
      rw [hnil]
      exact Nat.zero_le _
  · have hwhere : ∀ i < l.stack.length,
        (l.IsParked i ∧ 1 ≤ i ∧ i < l.low) ∨ (l.IsLive i ∧ ¬ (1 ≤ i ∧ i < l.low)) := by
      intro i hi
      rw [hheld.length_eq] at hi
      rw [hheld.low_eq]
      cases i with
      | zero =>
        right
        exact ⟨hheld.live_zero, by omega⟩
      | succ i =>
        by_cases hparked : i < parked.length
        · left
          exact ⟨hheld.parked_at hparked, by omega, by omega⟩
        · right
          have hindex : parked.length + (i - parked.length) + 1 = i + 1 := by omega
          have hlive := hheld.live_at (i := i - parked.length) (by omega)
          rw [hindex] at hlive
          exact ⟨hlive, by omega⟩
    refine ⟨?_, ?_, fun _ => hheld.top_live, ?_⟩
    · intro i hi
      rcases hwhere i hi with ⟨hparked, hblock⟩ | ⟨hlive, hblock⟩
      · exact ⟨fun _ => hblock, fun _ => hparked⟩
      · exact ⟨fun h => absurd h (not_parked_of_live hlive), fun h => absurd h hblock⟩
    · intro i hi
      rcases hwhere i hi with ⟨hparked, -⟩ | ⟨hlive, -⟩
      · exact .inr hparked
      · exact .inl hlive
    · intro hc
      have hfew := hheld.few hc
      rw [hheld.liveCount_eq]
      omega

/-- Nothing but the count hangs on whether levels can be identified. -/
theorem Holds.weaken (h : Holds calm budget l full) : Holds False budget l full := by
  rcases h with hnil | ⟨base, parked, live, hfull, hheld⟩
  · exact .inl hnil
  · refine .inr ⟨base, parked, live, hfull, ?_⟩
    exact ⟨hheld.stack_eq, hheld.keys_eq, hheld.low_eq, hheld.budget_eq, hheld.top_open, False.elim⟩

/-- After a push the top two levels are open, whichever levels can be identified. -/
theorem top_two_live {refuse : Path → Bool} (h : Holds calm budget l full) (hne : l.stack ≠ []) :
    (l.push refuse y.frame).IsLive ((l.push refuse y.frame).stack.length - 1) ∧
      (l.push refuse y.frame).IsLive ((l.push refuse y.frame).stack.length - 2) := by
  cases full with
  | nil =>
    rcases h with ⟨-, hnil⟩ | ⟨base, parked, live, hfull, -⟩
    · exact absurd hnil hne
    · cases hfull
  | cons top stack =>
    have hpush : (stack = [] ∧ Held False budget (l.push refuse y.frame) top [] [y]) ∨ _ :=
      push_holds False.elim h.weaken
    rcases hpush with ⟨-, hheld⟩ | ⟨base, parked, live, -, hheld⟩
    · refine ⟨hheld.top_live, ?_⟩
      rw [hheld.length_eq]
      exact hheld.live_zero
    · refine ⟨hheld.top_live, ?_⟩
      have hindex : parked.length + (live ++ [top] ++ [y]).length + 1 - 2 =
          parked.length + live.length + 1 := by
        simp only [List.length_append, List.length_singleton]
        omega
      rw [hheld.length_eq, hindex]
      apply hheld.live_at
      simp only [List.length_append, List.length_singleton]
      omega

/-- A pop succeeds and leaves the new top open. -/
theorem pop_live (h : Holds calm budget l full) (hlinked : Linked full) (hne : l.stack ≠ []) :
    ∃ frame l', l.pop = some (frame, l') ∧ (l'.stack ≠ [] → l'.IsLive (l'.stack.length - 1)) := by
  cases full with
  | nil =>
    rcases h with ⟨-, hnil⟩ | ⟨base, parked, live, hfull, -⟩
    · exact absurd hnil hne
    · cases hfull
  | cons top stack =>
    cases stack with
    | nil =>
      obtain ⟨l', hpop, hheld⟩ := holds_pop_last h
      exact ⟨_, l', hpop, (sound_of_holds hheld).top_live⟩
    | cons under stack =>
      rw [Linked, List.isChain_cons_cons] at hlinked
      obtain ⟨l', hpop, hheld⟩ := holds_pop h hlinked.1
      exact ⟨_, l', hpop, (sound_of_holds hheld).top_live⟩

end Levels

section Soundness

variable {σ : Type}

open Levels

/-- A run that has come as far as the one that parks nothing, with its stack in order: whatever is
pushed next, the top two levels are open then, and whatever is popped next can be, and the level below
is open then. -/
def SoundSoFar (calm : Prop) (budget : Nat) :
    Outcome σ (Levels α) → Outcome σ (List (Level α)) → Prop
  | .ended s, .ended s' => s = s'
  | .goes s l, .goes s' full =>
    s = s' ∧ l.stack.length = full.length ∧ Sound calm budget l ∧
      (l.stack ≠ [] → ∀ (refuse : Path → Bool) (y : Level α),
        (l.push refuse y.frame).IsLive ((l.push refuse y.frame).stack.length - 1) ∧
          (l.push refuse y.frame).IsLive ((l.push refuse y.frame).stack.length - 2)) ∧
      (l.stack ≠ [] → ∃ frame l', l.pop = some (frame, l') ∧
        (l'.stack ≠ [] → l'.IsLive (l'.stack.length - 1)))
  | _, _ => False

/-- Outcomes that agree with those of a walk that parks nothing are sound. -/
theorem soundSoFar_of_agree {calm : Prop} {budget : Nat} {o : Outcome σ (Levels α)}
    {o' : Outcome σ (List (Level α))} (h : Agree calm budget o o') : SoundSoFar calm budget o o' := by
  cases o with
  | ended s =>
    cases o' with
    | ended s' => exact h
    | stale s' => cases h
    | goes s' full => cases h
  | stale s => cases h
  | goes s l =>
    cases o' with
    | ended s' => cases h
    | stale s' => cases h
    | goes s' full =>
      obtain ⟨hsame, hheld, hlinked⟩ := h
      refine ⟨hsame, ?_, sound_of_holds hheld, fun hne _ _ => top_two_live hheld hne,
        fun hne => pop_live hheld hlinked hne⟩
      rcases hheld with ⟨rfl, hnil⟩ | ⟨base, parked, live, hfull, hheld⟩
      · rw [hnil]
        rfl
      · have hreverse := congrArg List.length hfull
        rw [List.length_reverse, List.length_cons, List.length_append] at hreverse
        rw [hheld.length_eq, hreverse]

/-- **The stack is sound**: for every walk, every budget and however many turns, the walk sees the
frames it would see if nothing were ever parked, and its stack is in order. -/
theorem levels_sound (walk : Walk σ α) (refuse : σ → Path → Bool) (budget : Nat) (root : Level α) (s : σ)
    (n : Nat) :
    (run walk refuse n s (init [root.frame] budget)).1 = (fullRun walk n s [root]).1 ∧
      SoundSoFar (∀ s p, refuse s p = false) budget (run walk refuse n s (init [root.frame] budget)).2
        (fullRun walk n s [root]).2 := by
  have hinit : Holds (∀ s p, refuse s p = false) budget (init [root.frame] budget) [root] :=
    .inr ⟨root, [], [], rfl, rfl, rfl, rfl, rfl, fun h => h, fun _ => Nat.zero_le _⟩
  obtain ⟨htrace, hagree⟩ := run_agree (fun h => h) n s _ _ hinit (List.isChain_singleton _)
  exact ⟨htrace, soundSoFar_of_agree hagree⟩

end Soundness

/-- A walk straight down, so many directories deep. -/
def straightDown : Walk Nat Unit where
  next
    | 0, _ => .leave 0
    | s + 1, _ => .descend s () "d".toList ()
  left s _ _ := s
  told _ _ rest := rest

/-- The descriptors that are open when a run has come so far. -/
def Outcome.openCount : Outcome Nat (Levels Unit) → Nat
  | .goes _ l => l.openCount
  | _ => 0

/-- A walk over two trees at once, forty levels deep, holds more descriptors than the budget has
levels. -/
theorem two_trees_exceed_budget :
    Levels.maxOpenLevels + 1 <
      (run straightDown (fun _ _ => false) 39 39
        (Levels.init [⟨some [], some [], ()⟩] Levels.maxOpenLevels)).2.openCount := by
  decide +kernel

/-! ## Counting a tree -/

/-- The loop body of `count_tree_at`; the frame keeps the names that are left. -/
def countWalk (fs : Fs) : Walk Nat (Option (List Name)) where
  next total frame :=
    let d := frame.fd₀.getD []
    match frame.rest with
    | none => .visit total (some (fs.listdir d))
    | some pending =>
      match pending.getLast? with
      | none => .leave total
      | some name =>
        match fs.lstatAt d name with
        | .ok (.dir _) =>
          match fs.openDirAt d name with
          | .ok _ => .descend total (some pending.dropLast) name none
          | .error _ => .visit (total + 1) (some pending.dropLast)
        | _ => .visit (total + 1) (some pending.dropLast)
  left total _ _ := total
  told _ _ rest := rest

/-- What a walk has counted when it has come to its end. -/
def Outcome.total {τ : Type} : Outcome Nat τ → Option Nat
  | .ended total => some total
  | .stale _ | .goes _ _ => none

/-- `count_tree_at`, by so many turns. -/
def countTreeAt (fs : Fs) (d : Path) (budget n : Nat) : Option Nat :=
  (run (countWalk fs) (fun _ _ => false) n 0 (Levels.init [⟨some d, none, none⟩] budget)).2.total

/-- **The count does not depend on the budget**: it is that of a walk that parks nothing. -/
theorem countTreeAt_eq (fs : Fs) (d : Path) (budget n : Nat) :
    countTreeAt fs d budget n = (fullRun (countWalk fs) n 0 [⟨d, none, none⟩]).2.total := by
  have hinit : Levels.Holds False budget (Levels.init [⟨some d, none, none⟩] budget)
      [(⟨d, none, none⟩ : Level (Option (List Name)))] :=
    .inr ⟨_, [], [], rfl, rfl, rfl, rfl, rfl, fun h => h, False.elim⟩
  obtain ⟨-, hagree⟩ : _ ∧ Agree False budget
      (run (countWalk fs) (fun _ _ => false) n 0 (Levels.init [⟨some d, none, none⟩] budget)).2
      (fullRun (countWalk fs) n 0 [⟨d, none, none⟩]).2 :=
    run_agree False.elim n 0 _ _ hinit (List.isChain_singleton _)
  unfold countTreeAt
  generalize (run (countWalk fs) (fun _ _ => false) n 0 (Levels.init [⟨some d, none, none⟩] budget)).2 = o
    at hagree
  generalize (fullRun (countWalk fs) n 0 [⟨d, none, none⟩]).2 = o' at hagree
  -- agreeing walks are both at their end, with one count, or both on their way
  cases o with
  | ended total =>
    cases o' with
    | ended total' => exact congrArg some hagree
    | stale _ => cases hagree
    | goes _ _ => cases hagree
  | stale _ => cases hagree
  | goes _ _ =>
    cases o' with
    | ended _ => cases hagree
    | stale _ => cases hagree
    | goes _ _ => rfl

/-- Three directories in one another, a file in each, counted with one level open at a time. -/
example :
    countTreeAt (Fs.ofList [(["a".toList], .dir 0o755), (["a".toList, "f".toList], .file 0 ⟨[], 0o644, 0⟩),
      (["a".toList, "b".toList], .dir 0o755), (["a".toList, "b".toList, "f".toList], .file 1 ⟨[], 0o644, 0⟩),
      (["a".toList, "b".toList, "c".toList], .dir 0o755),
      (["a".toList, "b".toList, "c".toList, "f".toList], .file 2 ⟨[], 0o644, 0⟩)])
      ["a".toList] 0 20 = some 3 := by
  decide +kernel

end Dirfd

end ProotDistro
