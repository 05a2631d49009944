import Mathlib.Data.List.TakeDrop

/-!
# Runs as folds

A run takes one step for each element of a list; its states are the folds over the list's
prefixes.
-/

namespace Fold

variable {σ α : Type*}

/-- The state after the first `k` steps. -/
def stateAt (step : σ → α → σ) (s : σ) (l : List α) (k : Nat) : σ := (l.take k).foldl step s

variable {step : σ → α → σ} {s : σ} {l : List α} {k : Nat}

@[simp] theorem stateAt_zero : stateAt step s l 0 = s := by simp [stateAt]

/-- The next state is the step's. -/
theorem stateAt_succ (hk : k < l.length) :
    stateAt step s l (k + 1) = step (stateAt step s l k) l[k] := by
  unfold stateAt
  rw [List.take_succ_eq_append_getElem hk, List.foldl_append]
  rfl

/-- The last is the fold. -/
theorem stateAt_length : stateAt step s l l.length = l.foldl step s := by
  unfold stateAt
  rw [List.take_length]

/-- What every step preserves holds of every state of a run. -/
theorem stateAt_invariant {Inv : σ → Prop} (hs : Inv s) (hstep : ∀ s a, Inv s → Inv (step s a)) :
    Inv (stateAt step s l k) := by
  unfold stateAt
  generalize l.take k = l'
  induction l' generalizing s with
  | nil => exact hs
  | cons a l' ih => exact ih (hstep s a hs)

/-- Where a step keeps a property exactly when it is harmless, a whole run keeps it exactly
when all of its steps are. `Inv` is what holds of every state anyway. -/
theorem forall_stateAt_iff (Inv : σ → Prop) {Good : σ → Prop} {Harmless : σ → α → Prop} (hinv : Inv s)
    (hgood : Good s) (hstep : ∀ s a, Inv s → Inv (step s a))
    (hiff : ∀ s a, Inv s → Good s → (Good (step s a) ↔ Harmless s a)) :
    (∀ k ≤ l.length, Good (stateAt step s l k)) ↔
      ∀ k, (hk : k < l.length) → Harmless (stateAt step s l k) l[k] := by
  have inv : ∀ k, Inv (stateAt step s l k) := fun k => stateAt_invariant hinv hstep
  constructor
  · intro h k hk
    have hnext := h (k + 1) hk
    rw [stateAt_succ hk] at hnext
    exact (hiff _ _ (inv k) (h k (Nat.le_of_succ_le hk))).mp hnext
  · intro h k hk
    induction k with
    | zero => rwa [stateAt_zero]
    | succ k ih =>
      rw [stateAt_succ hk]
      exact (hiff _ _ (inv k) (ih (Nat.le_of_succ_le hk))).mpr (h k hk)

end Fold
