import Mathlib.Data.List.Basic

/-!
# Machines

A machine takes one action after the other; an action it cannot take in a state has no successor. What
every step preserves, every run preserves, and so does a run whose steps all meet a condition on the
state before them.
-/

namespace Machine

variable {σ α : Type*} (step : σ → α → Option σ)

/-- A run: the actions one after the other. -/
def exec : σ → List α → Option σ
  | s, [] => some s
  | s, a :: as => (step s a).bind fun s' => exec s' as

/-- Every action of a run meets a condition in the state it is taken in. -/
def Meets (cond : σ → α → Prop) : σ → List α → Prop
  | _, [] => True
  | s, a :: as => cond s a ∧ ∀ s', step s a = some s' → Meets cond s' as

/-- Whether a run meets a condition can be told by running it. -/
instance decidableMeets (cond : σ → α → Prop) [∀ s a, Decidable (cond s a)] :
    ∀ s as, Decidable (Meets step cond s as)
  | _, [] => .isTrue trivial
  | s, a :: as =>
    match h : step s a with
    | none => decidable_of_iff (cond s a) ⟨fun hc => ⟨hc, fun s' h' => by rw [h] at h'; cases h'⟩, And.left⟩
    | some s₁ =>
      have := decidableMeets cond s₁ as
      decidable_of_iff (cond s a ∧ Meets step cond s₁ as)
        ⟨fun hc => ⟨hc.1, fun s' h' => by rw [h] at h'; cases h'; exact hc.2⟩, fun hc => ⟨hc.1, hc.2 s₁ h⟩⟩

variable {step} {s s' : σ} {a : α} {as : List α} {I : σ → Prop} {cond : σ → α → Prop}

/-- A run of one step and the rest. -/
theorem exec_cons : exec step s (a :: as) = some s' ↔
    ∃ s₁, step s a = some s₁ ∧ exec step s₁ as = some s' := by
  show (step s a).bind _ = some s' ↔ _
  exact Option.bind_eq_some_iff

/-- **What every step preserves, every run preserves**, of the steps that meet a condition. -/
theorem exec_invariant (hstep : ∀ s a s', I s → cond s a → step s a = some s' → I s') (hs : I s)
    (hcond : Meets step cond s as) (h : exec step s as = some s') : I s' := by
  induction as generalizing s with
  | nil =>
    cases h
    exact hs
  | cons a as ih =>
    obtain ⟨s₁, hfirst, hrest⟩ := exec_cons.mp h
    obtain ⟨hmeets, hlater⟩ := hcond
    exact ih (hstep s a s₁ hs hmeets hfirst) (hlater s₁ hfirst) hrest

/-! ## Parts of a state -/

section Parts

variable {β : Type*} {l : List β} {i j : Nat} {b b' c : β}

/-- What stands in a list whose entry at one place is replaced. -/
theorem getElem?_set_iff (h : l[i]? = some b) :
    (l.set i b')[j]? = some c ↔ if j = i then c = b' else l[j]? = some c := by
  have hlt : i < l.length := (List.getElem?_eq_some_iff.mp h).1
  by_cases hj : j = i
  · rw [if_pos hj, hj, List.getElem?_set_self hlt, Option.some.injEq]
    exact eq_comm
  · rw [if_neg hj, List.getElem?_set_ne (Ne.symm hj)]

/-- What stands in a list behind which an entry is added. -/
theorem getElem?_concat_iff : (l ++ [b])[j]? = some c ↔ l[j]? = some c ∨ (j = l.length ∧ c = b) := by
  rw [List.getElem?_append]
  by_cases hj : j < l.length
  · rw [if_pos hj]
    constructor
    · exact .inl
    · intro h
      rcases h with h | ⟨h, -⟩
      · exact h
      · omega
  · rw [if_neg hj, List.getElem?_singleton, List.getElem?_eq_none (by omega)]
    constructor
    · intro h
      split at h
      · exact .inr ⟨by omega, (Option.some.inj h).symm⟩
      · cases h
    · intro h
      rcases h with h | ⟨h, rfl⟩
      · cases h
      · rw [if_pos (by omega)]

/-- What stands in a list of which one entry is changed. -/
theorem getElem?_modify_iff {f : β → β} :
    (l.modify i f)[j]? = some c ↔ ∃ b, l[j]? = some b ∧ c = if j = i then f b else b := by
  rw [List.getElem?_modify]
  cases l[j]? with
  | none =>
    constructor
    · intro h
      cases h
    · rintro ⟨b, h, -⟩
      cases h
  | some b =>
    have hif : (if i = j then f b else b) = if j = i then f b else b := by
      by_cases hij : i = j
      · rw [if_pos hij, if_pos hij.symm]
      · rw [if_neg hij, if_neg (Ne.symm hij)]
    show some (if i = j then f b else b) = some c ↔ _
    rw [hif]
    constructor
    · exact fun h => ⟨b, rfl, (Option.some.inj h).symm⟩
    · rintro ⟨b', hb, rfl⟩
      cases hb
      rfl

end Parts

end Machine
