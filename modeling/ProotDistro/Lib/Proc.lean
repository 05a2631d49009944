import Mathlib.Tactic.Common

/-!
# Procedures that fail half way

A procedure over a state answers or fails, and what it did to the state before it failed
stays done: there is no rollback. `handle` is the source's `try … except`, `ignoring` the
common case of one error that does not matter.

Three kinds of rules come with it.

* **Equations** (`bind_of_ok`, `bind_of_error`, `handle_of_ok`, …) follow one run whose
  answers are known.
* **`Triple P p Q E`** — what holds after an answer and what holds after a failure; the
  loop rule is `Triple.thread`.
* **`Keeps I p Q`** — whatever state `p` starts from within the invariant `I`, it ends
  within `I`, *also when it fails*, and what it answers satisfies `Q`. The rules follow the
  way a procedure is built (`Keeps.bind`, `Keeps.handle`, `Keeps.each`), so an invariant of
  a whole program is put together from the invariants of its calls.
-/

/-- A procedure over the state `σ`, answering an `α` or failing with an `ε`. -/
def Proc (σ ε α : Type) := σ → Except ε α × σ

namespace Proc

variable {σ ε α β : Type}

instance : Monad (Proc σ ε) where
  pure a := fun s => (.ok a, s)
  bind p f := fun s =>
    match p s with
    | (.ok a, s') => f a s'
    | (.error e, s') => (.error e, s')

def fail (e : ε) : Proc σ ε α := fun s => (.error e, s)

/-- Look at the state without changing it. -/
def look (f : σ → Except ε α) : Proc σ ε α := fun s => (f s, s)

/-- A change that happens as a whole or not at all. -/
def change (f : σ → Except ε σ) : Proc σ ε Unit := fun s =>
  match f s with
  | .ok s' => (.ok (), s')
  | .error e => (.error e, s)

/-- Run `p`; where it fails, go on with `h` from the state it failed in. -/
def handle (p : Proc σ ε α) (h : ε → Proc σ ε α) : Proc σ ε α := fun s =>
  match p s with
  | (.ok a, s') => (.ok a, s')
  | (.error e, s') => h e s'

/-- Run `p` for its effect; one error of it does not count. -/
def ignoring [DecidableEq ε] (e : ε) (p : Proc σ ε Unit) : Proc σ ε Unit :=
  p.handle fun e' => if e' = e then pure () else fail e'

/-- Run `p` for its effect; no error of it counts. -/
def quietly (p : Proc σ ε Unit) : Proc σ ε Unit := p.handle fun _ => pure ()

/-- The answer of `p`, or `none` where it fails. -/
def optional (p : Proc σ ε α) : Proc σ ε (Option α) :=
  handle (do let a ← p; pure (some a)) fun _ => pure none

/-- What `p` answers or fails with, as an answer. -/
def attempt (p : Proc σ ε α) : Proc σ ε (Except ε α) := fun s => (.ok (p s).1, (p s).2)

/-- Run `f` on each element in turn. -/
def each (f : α → Proc σ ε Unit) : List α → Proc σ ε Unit
  | [] => pure ()
  | a :: as => do
    f a
    each f as

/-- Run `f` on each element in turn, handing an accumulator on. -/
def thread (f : α → β → Proc σ ε β) : List α → β → Proc σ ε β
  | [], b => pure b
  | a :: as, b => do
    let b' ← f a b
    thread f as b'

/-! ## Following one run -/

section Equations

variable {p : Proc σ ε α} {f : α → Proc σ ε β} {h : ε → Proc σ ε α} {s s' : σ} {a : α} {e : ε}

@[simp] theorem pure_apply (a : α) (s : σ) : (pure a : Proc σ ε α) s = (.ok a, s) := rfl

@[simp] theorem fail_apply (e : ε) (s : σ) : (fail e : Proc σ ε α) s = (.error e, s) := rfl

@[simp] theorem look_apply (g : σ → Except ε α) (s : σ) : look g s = (g s, s) := rfl

/-- What follows a call that answers runs on the answer. -/
theorem bind_of_ok (hp : p s = (.ok a, s')) : (p >>= f) s = f a s' := by
  show (match p s with | (.ok a, s') => f a s' | (.error e, s') => (.error e, s')) = _
  rw [hp]

/-- What follows a call that fails does not run. -/
theorem bind_of_error (hp : p s = (.error e, s')) : (p >>= f) s = (.error e, s') := by
  show (match p s with | (.ok a, s') => f a s' | (.error e, s') => (.error e, s')) = _
  rw [hp]

/-- A sequence that answers has answered in its first part. -/
theorem bind_eq_ok {b : β} (h : (p >>= f) s = (.ok b, s')) :
    ∃ a s₁, p s = (.ok a, s₁) ∧ f a s₁ = (.ok b, s') := by
  rcases hp : p s with ⟨r, s₁⟩
  cases r with
  | ok a =>
    rw [bind_of_ok hp] at h
    exact ⟨a, s₁, rfl, h⟩
  | error e =>
    rw [bind_of_error hp, Prod.mk.injEq] at h
    cases h.1

/-- A look that answers hands its answer on, and changes nothing. -/
theorem bind_look_of_ok {g : σ → Except ε α} (hg : g s = .ok a) :
    (look g >>= f) s = f a s :=
  bind_of_ok (by rw [look_apply, hg])

/-- One that fails ends the run where it stands. -/
theorem bind_look_of_error {g : σ → Except ε α} (hg : g s = .error e) :
    (look g >>= f) s = (.error e, s) :=
  bind_of_error (by rw [look_apply, hg])

/-- A look that answered has changed nothing. -/
theorem look_eq_ok {g : σ → Except ε α} (h : look g s = (.ok a, s')) : g s = .ok a ∧ s' = s := by
  rw [look_apply, Prod.mk.injEq] at h
  exact ⟨h.1, h.2.symm⟩

/-- A change that is made answers nothing. -/
theorem change_of_ok {g : σ → Except ε σ} (hg : g s = .ok s') : change g s = (.ok (), s') := by
  unfold change
  rw [hg]

/-- One that is refused leaves the state. -/
theorem change_of_error {g : σ → Except ε σ} (hg : g s = .error e) :
    change g s = (.error e, s) := by
  unfold change
  rw [hg]

/-- A handler is not asked where nothing fails. -/
theorem handle_of_ok (hp : p s = (.ok a, s')) : p.handle h s = (.ok a, s') := by
  unfold handle
  rw [hp]

/-- It is asked with the error, in the state the failure left. -/
theorem handle_of_error (hp : p s = (.error e, s')) : p.handle h s = h e s' := by
  unfold handle
  rw [hp]

/-- An optional call that answers gives its answer. -/
theorem optional_of_ok (hp : p s = (.ok a, s')) : p.optional s = (.ok (some a), s') := by
  unfold optional
  exact handle_of_ok (by rw [bind_of_ok hp, pure_apply])

/-- One that fails gives none, and the run goes on. -/
theorem optional_of_error (hp : p s = (.error e, s')) : p.optional s = (.ok none, s') := by
  unfold optional
  rw [handle_of_error (bind_of_error hp), pure_apply]

/-- A call made quietly is the call where it answers. -/
theorem quietly_of_ok {p : Proc σ ε Unit} (hp : p s = (.ok (), s')) :
    p.quietly s = (.ok (), s') :=
  handle_of_ok hp

/-- Where it fails, its error is dropped. -/
theorem quietly_of_error {p : Proc σ ε Unit} (hp : p s = (.error e, s')) :
    p.quietly s = (.ok (), s') := by
  unfold quietly
  rw [handle_of_error hp, pure_apply]

/-- An error that is ignored is so where there is one only. -/
theorem ignoring_of_ok [DecidableEq ε] {p : Proc σ ε Unit} {e' : ε} (hp : p s = (.ok (), s')) :
    p.ignoring e' s = (.ok (), s') :=
  handle_of_ok hp

/-- A quiet procedure answers whatever happens. -/
theorem quietly_ok (p : Proc σ ε Unit) (s : σ) : p.quietly s = (.ok (), (p s).2) := by
  rcases hp : p s with ⟨r, s'⟩
  cases r with
  | ok a => exact quietly_of_ok hp
  | error e => exact quietly_of_error hp

@[simp] theorem each_nil (g : α → Proc σ ε Unit) (s : σ) : each g [] s = (.ok (), s) := rfl

/-- The loop goes on after a turn that answers. -/
theorem each_cons_of_ok {g : α → Proc σ ε Unit} {as : List α} (hg : g a s = (.ok (), s')) :
    each g (a :: as) s = each g as s' :=
  bind_of_ok hg

/-- It ends with the turn that fails. -/
theorem each_cons_of_error {g : α → Proc σ ε Unit} {as : List α} (hg : g a s = (.error e, s')) :
    each g (a :: as) s = (.error e, s') :=
  bind_of_error hg

/-- A run over a list that answers has answered on every element. -/
theorem each_cons_eq_ok {g : α → Proc σ ε Unit} {as : List α}
    (h : each g (a :: as) s = (.ok (), s')) :
    ∃ s₁, g a s = (.ok (), s₁) ∧ each g as s₁ = (.ok (), s') := by
  rcases hg : g a s with ⟨r, s₁⟩
  cases r with
  | ok u =>
    rw [each_cons_of_ok hg] at h
    exact ⟨s₁, rfl, h⟩
  | error e =>
    rw [each_cons_of_error hg, Prod.mk.injEq] at h
    cases h.1

/-- Two lists are gone through one after the other. -/
theorem each_append {g : α → Proc σ ε Unit} {as bs : List α} (h : each g as s = (.ok (), s')) :
    each g (as ++ bs) s = each g bs s' := by
  induction as generalizing s with
  | nil =>
    rw [each_nil, Prod.mk.injEq] at h
    rw [List.nil_append, h.2]
  | cons a as ih =>
    rw [List.cons_append]
    rcases hg : g a s with ⟨r, s₁⟩
    cases r with
    | ok u =>
      rw [each_cons_of_ok hg] at h ⊢
      exact ih h
    | error e =>
      rw [each_cons_of_error hg, Prod.mk.injEq] at h
      cases h.1

@[simp] theorem thread_nil (g : α → β → Proc σ ε β) (b : β) (s : σ) :
    thread g [] b s = (.ok b, s) := rfl

/-- The next turn starts from the value of this one. -/
theorem thread_cons_of_ok {g : α → β → Proc σ ε β} {as : List α} {b b' : β}
    (hg : g a b s = (.ok b', s')) : thread g (a :: as) b s = thread g as b' s' :=
  bind_of_ok hg

/-- The turn that fails ends the loop. -/
theorem thread_cons_of_error {g : α → β → Proc σ ε β} {as : List α} {b : β}
    (hg : g a b s = (.error e, s')) : thread g (a :: as) b s = (.error e, s') :=
  bind_of_error hg

/-- A threaded run over two lists is the run over the first and then over the second. -/
theorem thread_append {g : α → β → Proc σ ε β} {as bs : List α} {b b' : β}
    (h : thread g as b s = (.ok b', s')) :
    thread g (as ++ bs) b s = thread g bs b' s' := by
  induction as generalizing s b with
  | nil =>
    rw [thread_nil, Prod.mk.injEq, Except.ok.injEq] at h
    rw [List.nil_append, h.1, h.2]
  | cons a as ih =>
    rw [List.cons_append]
    rcases hg : g a b s with ⟨r, s₁⟩
    cases r with
    | ok b₁ =>
      rw [thread_cons_of_ok hg] at h ⊢
      exact ih h
    | error e =>
      rw [thread_cons_of_error hg, Prod.mk.injEq] at h
      cases h.1

end Equations

/-! ## Triples

`Triple P p Q E`: from a state in `P` the procedure either answers some `a` in a state in
`Q a`, or fails in a state in `E`. -/

def Triple (P : σ → Prop) (p : Proc σ ε α) (Q : α → σ → Prop) (E : σ → Prop) : Prop :=
  ∀ s, P s → match p s with
    | (.ok a, s') => Q a s'
    | (.error _, s') => E s'

section Triples

variable {P P' E E' : σ → Prop} {p : Proc σ ε α} {f : α → Proc σ ε β} {Q Q' : α → σ → Prop}
  {R : β → σ → Prop}

/-- A value meets the postcondition where the precondition gives it. -/
theorem Triple.pure {a : α} (h : ∀ s, P s → Q a s) : Triple P (Pure.pure a : Proc σ ε α) Q E :=
  fun s hs => h s hs

/-- A failure meets the error's condition. -/
theorem Triple.fail {e : ε} (h : ∀ s, P s → E s) : Triple P (fail e : Proc σ ε α) Q E :=
  fun s hs => h s hs

/-- A look meets it with each answer it may give. -/
theorem Triple.look {g : σ → Except ε α} (hok : ∀ s a, P s → g s = .ok a → Q a s)
    (herr : ∀ s, P s → E s) : Triple P (look g) Q E := by
  intro s hs
  rw [look_apply]
  cases hg : g s with
  | ok a => exact hok s a hs hg
  | error e => exact herr s hs

/-- A change meets it in each state it may make. -/
theorem Triple.change {g : σ → Except ε σ} {Q : Unit → σ → Prop}
    (hok : ∀ s s', P s → g s = .ok s' → Q () s') (herr : ∀ s, P s → E s) :
    Triple P (change g) Q E := by
  intro s hs
  cases hg : g s with
  | ok s' => rw [change_of_ok hg]; exact hok s s' hs hg
  | error e => rw [change_of_error hg]; exact herr s hs

/-- The rule of sequence. -/
theorem Triple.bind (hp : Triple P p Q E) (hf : ∀ a, Triple (Q a) (f a) R E) :
    Triple P (p >>= f) R E := by
  intro s hs
  have hps := hp s hs
  rcases h : p s with ⟨r, s'⟩
  rw [h] at hps
  cases r with
  | ok a => rw [bind_of_ok h]; exact hf a s' hps
  | error e => rw [bind_of_error h]; exact hps

/-- The rule of a handler: it starts from what the failure leaves. -/
theorem Triple.handle {h : ε → Proc σ ε α} (hp : Triple P p Q E')
    (hh : ∀ e, Triple E' (h e) Q E) : Triple P (p.handle h) Q E := by
  intro s hs
  have hps := hp s hs
  rcases hr : p s with ⟨r, s'⟩
  rw [hr] at hps
  cases r with
  | ok a => rw [handle_of_ok hr]; exact hps
  | error e => rw [handle_of_error hr]; exact hh e s' hps

/-- The rule of consequence. -/
theorem Triple.conseq (hp : Triple P p Q E) (hP : ∀ s, P' s → P s) (hQ : ∀ a s, Q a s → Q' a s)
    (hE : ∀ s, E s → E' s) : Triple P' p Q' E' := by
  intro s hs
  have hps := hp s (hP s hs)
  rcases hr : p s with ⟨r, s'⟩
  rw [hr] at hps
  cases r with
  | ok a => exact hQ a s' hps
  | error e => exact hE s' hps

/-- What both outcomes imply holds of the state a run ends in. -/
theorem Triple.final {J : σ → Prop} (h : Triple P p Q E) {s : σ} (hs : P s)
    (hQ : ∀ a s, Q a s → J s) (hE : ∀ s, E s → J s) : J (p s).2 := by
  have hps := h s hs
  rcases hr : p s with ⟨r, s'⟩
  rw [hr] at hps
  cases r with
  | ok a => exact hQ a s' hps
  | error e => exact hE s' hps

/-- The postcondition, of a run whose answer is known. -/
theorem Triple.answer (h : Triple P p Q E) {s : σ} (hs : P s) {a : α} (ha : (p s).1 = .ok a) :
    Q a (p s).2 := by
  have hps := h s hs
  rcases hr : p s with ⟨r, s'⟩
  rw [hr] at hps ha
  cases ha
  exact hps

/-- An attempt answers whatever happens. -/
theorem Triple.attempt (h : Triple P p Q E) :
    Triple P p.attempt (fun r s => match r with | .ok a => Q a s | .error _ => E s) E' := by
  intro s hs
  have hps := h s hs
  rcases hr : p s with ⟨r, s'⟩
  rw [hr] at hps
  show (match (p s).1 with | .ok a => Q a (p s).2 | .error _ => E (p s).2)
  rw [hr]
  cases r with
  | ok a => exact hps
  | error e => exact hps

/-- Two things that hold of the same run. -/
theorem Triple.both (h : Triple P p Q E) (h' : Triple P' p Q' E') :
    Triple (fun s => P s ∧ P' s) p (fun a s => Q a s ∧ Q' a s) (fun s => E s ∧ E' s) := by
  intro s hs
  have hps := h s hs.1
  have hps' := h' s hs.2
  rcases hr : p s with ⟨r, s'⟩
  rw [hr] at hps hps'
  cases r with
  | ok a => exact ⟨hps, hps'⟩
  | error e => exact ⟨hps, hps'⟩

/-- A part of the precondition that is not about the state. -/
theorem Triple.assuming {φ : Prop} (h : φ → Triple P p Q E) : Triple (fun s => P s ∧ φ) p Q E :=
  fun s hs => h hs.2 s hs.1

/-- The loop rule: every turn hands the invariant of the accumulator it was given on to the
invariant of the one it answers. -/
theorem Triple.thread {g : α → β → Proc σ ε β} {as : List α} {b : β}
    (h : ∀ a ∈ as, ∀ b, Triple (R b) (g a b) R E) : Triple (R b) (thread g as b) R E := by
  induction as generalizing b with
  | nil => exact Triple.pure fun s hs => hs
  | cons a as ih =>
    exact Triple.bind (h a (by simp) b) fun b' => ih fun a' ha' => h a' (by simp [ha'])

end Triples

/-! ## Invariants that also hold after a failure -/

/-- Started within `I`, the procedure ends within `I` and answers a `Q` if it answers. -/
def Keeps (I : σ → Prop) (p : Proc σ ε α) (Q : α → Prop) : Prop :=
  Triple I p (fun a s => I s ∧ Q a) I

section Rules

variable {I : σ → Prop} {p : Proc σ ε α} {f : α → Proc σ ε β} {Q Q' : α → Prop} {R : β → Prop}

/-- A value keeps every invariant. -/
theorem Keeps.pure {a : α} (h : Q a) : Keeps I (Pure.pure a : Proc σ ε α) Q :=
  Triple.pure fun _ hs => ⟨hs, h⟩

/-- What holds of the state a procedure ends in, answered or failed, it keeps. -/
theorem Keeps.of_invariant (h : ∀ s, I s → I (p s).2) : Keeps I p fun _ => True := by
  intro s hs
  have hs' := h s hs
  rcases hr : p s with ⟨r, s'⟩
  rw [hr] at hs'
  cases r with
  | ok a => exact ⟨hs', trivial⟩
  | error e => exact hs'

/-- What a procedure that leaves the state alone keeps, it keeps trivially. -/
theorem Keeps.of_state (h : ∀ s, (p s).2 = s) : Keeps I p fun _ => True :=
  Keeps.of_invariant fun s hs => (h s).symm ▸ hs

theorem Keeps.fail {e : ε} : Keeps I (fail e : Proc σ ε α) Q := Triple.fail fun _ hs => hs

theorem Keeps.look {g : σ → Except ε α} (h : ∀ s a, I s → g s = .ok a → Q a) :
    Keeps I (look g) Q :=
  Triple.look (fun s a hs hg => ⟨hs, h s a hs hg⟩) fun _ hs => hs

/-- A change keeps an invariant when every state it makes does. -/
theorem Keeps.change {g : σ → Except ε σ} (h : ∀ s s', I s → g s = .ok s' → I s') :
    Keeps I (change g) fun _ => True :=
  Triple.change (fun s s' hs hg => ⟨h s s' hs hg, trivial⟩) fun _ hs => hs

/-- Two calls keep it when each does. -/
theorem Keeps.bind (hp : Keeps I p Q) (hf : ∀ a, Q a → Keeps I (f a) R) :
    Keeps I (p >>= f) R :=
  Triple.bind hp fun a s hs => hf a hs.2 s hs.1

/-- A step that keeps an invariant, in front of one that need not. -/
theorem Keeps.bind_triple {E : σ → Prop} {S : β → σ → Prop} (hp : Keeps I p Q)
    (hE : ∀ s, I s → E s) (hf : ∀ a, Q a → Triple I (f a) S E) : Triple I (p >>= f) S E :=
  Triple.bind (hp.conseq (fun _ hs => hs) (fun _ _ hs => hs) hE) fun a =>
    Triple.assuming (hf a)

/-- A handled call keeps it when the call and its handler do. -/
theorem Keeps.handle {h : ε → Proc σ ε α} (hp : Keeps I p Q) (hh : ∀ e, Keeps I (h e) Q) :
    Keeps I (p.handle h) Q :=
  Triple.handle hp hh

/-- The answers may be said less of. -/
theorem Keeps.mono (hp : Keeps I p Q) (h : ∀ a, Q a → Q' a) : Keeps I p Q' :=
  Triple.conseq hp (fun _ hs => hs) (fun a _ hs => ⟨hs.1, h a hs.2⟩) fun _ hs => hs

/-- A call made quietly keeps what the call keeps. -/
theorem Keeps.quietly {p : Proc σ ε Unit} (hp : Keeps I p fun _ => True) :
    Keeps I p.quietly fun _ => True :=
  hp.handle fun _ => Keeps.pure trivial

theorem Keeps.ignoring [DecidableEq ε] {e : ε} {p : Proc σ ε Unit}
    (hp : Keeps I p fun _ => True) : Keeps I (p.ignoring e) fun _ => True := by
  refine hp.handle fun e' => ?_
  split
  · exact Keeps.pure trivial
  · exact Keeps.fail

theorem Keeps.optional (hp : Keeps I p Q) : Keeps I p.optional fun o => ∀ a, o = some a → Q a := by
  refine Keeps.handle (hp.bind fun a ha => Keeps.pure fun b hb => ?_) fun _ => Keeps.pure ?_
  · rw [Option.some.injEq] at hb
    exact hb ▸ ha
  · intro a ha
    cases ha

/-- A loop keeps what each of its turns keeps. -/
theorem Keeps.each {g : α → Proc σ ε Unit} {as : List α}
    (h : ∀ a ∈ as, Keeps I (g a) fun _ => True) : Keeps I (each g as) fun _ => True := by
  induction as with
  | nil => exact Keeps.pure trivial
  | cons a as ih =>
    exact Keeps.bind (h a (by simp)) fun _ _ => ih fun b hb => h b (by simp [hb])

theorem Keeps.thread {g : α → β → Proc σ ε β} {as : List α} {b : β} (hb : R b)
    (h : ∀ a ∈ as, ∀ b, R b → Keeps I (g a b) R) : Keeps I (thread g as b) R := by
  have hloop : Triple (fun s => I s ∧ R b) (Proc.thread g as b) (fun b s => I s ∧ R b) I :=
    Triple.thread fun a ha b s hs => h a ha b hs.2 s hs.1
  exact hloop.conseq (fun _ hs => ⟨hs, hb⟩) (fun _ _ hs => hs) fun _ hs => hs

end Rules

/-! ## Procedures that never fail -/

def Total (p : Proc σ ε α) : Prop := ∀ s, ∃ a s', p s = (.ok a, s')

section Total

variable {p : Proc σ ε α} {f : α → Proc σ ε β}

/-- A value is an answer. -/
theorem Total.pure (a : α) : Total (Pure.pure a : Proc σ ε α) := fun s => ⟨a, s, rfl⟩

/-- A look that answers in every state is total. -/
theorem Total.look {g : σ → Except ε α} (h : ∀ s, ∃ a, g s = .ok a) : Total (look g) := by
  intro s
  obtain ⟨a, ha⟩ := h s
  exact ⟨a, s, by rw [look_apply, ha]⟩

/-- Two total calls make a total one. -/
theorem Total.bind (hp : Total p) (hf : ∀ a, Total (f a)) : Total (p >>= f) := by
  intro s
  obtain ⟨a, s', hs'⟩ := hp s
  obtain ⟨b, s'', hs''⟩ := hf a s'
  exact ⟨b, s'', by rw [bind_of_ok hs', hs'']⟩

/-- An optional call always answers. -/
theorem Total.optional (p : Proc σ ε α) : Total p.optional := by
  intro s
  rcases hp : p s with ⟨r, s'⟩
  cases r with
  | ok a => exact ⟨some a, s', optional_of_ok hp⟩
  | error e => exact ⟨none, s', optional_of_error hp⟩

theorem Total.quietly (p : Proc σ ε Unit) : Total p.quietly :=
  fun s => ⟨(), (p s).2, quietly_ok p s⟩

/-- A loop of total turns is total. -/
theorem Total.each {g : α → Proc σ ε Unit} (h : ∀ a, Total (g a)) (as : List α) :
    Total (each g as) := by
  induction as with
  | nil => exact Total.pure ()
  | cons a as ih => exact Total.bind (h a) fun _ => ih

theorem Total.thread {g : α → β → Proc σ ε β} (h : ∀ a b, Total (g a b)) (as : List α) (b : β) :
    Total (thread g as b) := by
  induction as generalizing b with
  | nil => exact Total.pure b
  | cons a as ih => exact Total.bind (h a b) fun b' => ih b'

/-- Of a procedure that never fails nothing need be said about its failures. -/
theorem Total.triple {P E E' : σ → Prop} {Q : α → σ → Prop} (ht : Total p)
    (h : Triple P p Q E) : Triple P p Q E' := by
  intro s hs
  have hps := h s hs
  obtain ⟨a, s', ha⟩ := ht s
  rw [ha] at hps ⊢
  exact hps

/-- What fails in front of a procedure that never does is the part in front. -/
theorem Total.error_of_bind {s : σ} {e : ε} (hf : ∀ a, Total (f a))
    (h : ((p >>= f) s).1 = .error e) : (p s).1 = .error e := by
  rcases hp : p s with ⟨r, s'⟩
  cases r with
  | ok a =>
    obtain ⟨b, s'', hb⟩ := hf a s'
    rw [bind_of_ok hp, hb] at h
    cases h
  | error e' =>
    rw [bind_of_error hp] at h
    cases h
    rfl

/-- A procedure that never fails answers, and what it keeps it has kept. -/
theorem Total.run {I : σ → Prop} {Q : α → Prop} {s : σ} (hp : Total p) (hk : Keeps I p Q)
    (hs : I s) : ∃ a s', p s = (.ok a, s') ∧ I s' ∧ Q a := by
  obtain ⟨a, s', h⟩ := hp s
  have hfinal := hk s hs
  rw [h] at hfinal
  exact ⟨a, s', h, hfinal⟩

end Total

end Proc
