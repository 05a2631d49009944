import Mathlib.Tactic.Common

/-!
# Computations that may fail

How a sequence of steps that answered is taken apart again.
-/

namespace Result

variable {ε α β : Type} {x : Except ε α} {f : α → Except ε β} {r : β}

/-- A sequence that answers has answered twice. -/
theorem bind_ok (h : (x >>= f) = .ok r) : ∃ a, x = .ok a ∧ f a = .ok r := by
  cases x with
  | error e => cases h
  | ok a => exact ⟨a, rfl, h⟩

theorem map_ok {g : α → β} (h : x.map g = .ok r) : ∃ a, x = .ok a ∧ g a = r := by
  cases x with
  | error e => cases h
  | ok a =>
    cases h
    exact ⟨a, rfl, rfl⟩

variable {σ : Type}

/-- What every step of a loop preserves, the loop preserves. -/
theorem foldlM_invariant {I : σ → Prop} {step : σ → α → Except ε σ} {l : List α} {s s' : σ}
    (hs : I s) (hstep : ∀ s a s', a ∈ l → I s → step s a = .ok s' → I s')
    (h : l.foldlM step s = .ok s') : I s' := by
  induction l generalizing s with
  | nil =>
    cases h
    exact hs
  | cons a l ih =>
    rw [List.foldlM_cons] at h
    obtain ⟨s₁, ha, hl⟩ := bind_ok h
    exact ih (hstep s a s₁ List.mem_cons_self hs ha)
      (fun s b s' hb => hstep s b s' (List.mem_cons_of_mem a hb)) hl

/-- A loop whose turns are those of another loop, seen through `g`, is that loop seen through
`g`. -/
theorem foldlM_map {τ : Type} (g : σ → τ) (step : σ → α → Except ε σ) (step' : τ → α → Except ε τ)
    (hstep : ∀ s a, (step s a).map g = step' (g s) a) (l : List α) (s : σ) :
    (l.foldlM step s).map g = l.foldlM step' (g s) := by
  induction l generalizing s with
  | nil => rfl
  | cons a l ih =>
    rw [List.foldlM_cons, List.foldlM_cons, ← hstep s a]
    cases step s a with
    | error e => rfl
    | ok s₁ => exact ih s₁

/-! ## What was evaluated

A computation on closed terms is known by a property of what it answers. -/

/-- A result with a value is an answer. -/
theorem ok_of_isSome (h : x.toOption.isSome = true) : ∃ a, x = .ok a := by
  cases x with
  | error e => cases h
  | ok a => exact ⟨a, rfl⟩

/-- That value is the answer. -/
theorem ok_of_toOption {a : α} (h : x.toOption = some a) : x = .ok a := by
  cases x with
  | error e => cases h
  | ok a' => exact congrArg Except.ok (Option.some.inj h)

/-- What is found of the value is found of the answer. -/
theorem ok_of_any {p : α → Bool} (h : x.toOption.any p = true) : ∃ a, x = .ok a ∧ p a = true := by
  cases x with
  | ok a => exact ⟨a, rfl, h⟩
  | error e => cases h

/-- What holds of any value holds of the answer. -/
theorem all_of_ok {a : α} {p : α → Bool} (hx : x = .ok a) (h : x.toOption.all p = true) :
    p a = true := by
  rw [hx] at h
  exact h

end Result
