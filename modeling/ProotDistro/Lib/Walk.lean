import Mathlib.Data.List.Basic

/-!
# Walks over a path with a link budget

A path is consumed one component at a time. A component either moves the walk on
(`Step.next`), stands for further components that are put in front of the rest
(`Step.link`, a symbolic link), or ends it (`Step.fail`). A chain of links may never
end, so a walk carries a budget of links it may follow; `run n` follows at most `n`.

* **`runWith`** walks up to the next link and hands what is left to its continuation;
  `run` ties the knot on the budget, so both recursions are structural and a walk over
  concrete data evaluates.
* **`run_invariant`** — what every step preserves holds where the walk ends.
* **`run_simulates`** — a walk that follows another step by step ends where it ends.
* **`run_map`** — the same steps under two spellings of the state are the same walk.
* **`turn_wellFounded`** — no walk goes on for ever, whatever its steps do.
-/

namespace Walk

/-- What a walk makes of one component. -/
inductive Step (σ ν ε : Type*) where
  | next (s : σ)
  | link (s : σ) (comps : List ν)
  | fail (e : ε)

variable {σ τ ν ε ε' : Type*}

/-- Walk until the first link; `follow` takes over there, with the link's own components
in front of the ones still pending. -/
def runWith (step : σ → ν → Step σ ν ε) (follow : σ → List ν → Except ε σ) :
    σ → List ν → Except ε σ
  | s, [] => .ok s
  | s, c :: rest =>
    match step s c with
    | .next s' => runWith step follow s' rest
    | .link s' comps => follow s' (comps ++ rest)
    | .fail e => .error e

/-- The walk that follows at most `n` links; `loop` is what one link too many answers. -/
def run (step : σ → ν → Step σ ν ε) (loop : ε) : Nat → σ → List ν → Except ε σ
  | 0 => runWith step fun _ _ => .error loop
  | n + 1 => runWith step (run step loop n)

/-! ## One step at a time -/

section Equations

variable {step : σ → ν → Step σ ν ε} {loop : ε} {n : Nat} {s s' : σ} {c : ν}
  {comps rest : List ν} {e : ε}

@[simp] theorem run_nil : run step loop n s [] = .ok s := by
  cases n <;> rfl

/-- A component that is walked into. -/
theorem run_cons_next (h : step s c = .next s') :
    run step loop n s (c :: rest) = run step loop n s' rest := by
  cases n <;> simp [run, runWith, h]

/-- A link is expanded, at the cost of one. -/
theorem run_cons_link (h : step s c = .link s' comps) :
    run step loop (n + 1) s (c :: rest) = run step loop n s' (comps ++ rest) := by
  simp [run, runWith, h]

/-- With none left, the walk ends. -/
theorem run_cons_link_zero (h : step s c = .link s' comps) :
    run step loop 0 s (c :: rest) = .error loop := by
  simp [run, runWith, h]

theorem run_cons_fail (h : step s c = .fail e) :
    run step loop n s (c :: rest) = .error e := by
  cases n <;> simp [run, runWith, h]

end Equations

/-! ## The induction over a walk

The budget is the outer induction and the pending components the inner one: a link spends
one unit of the budget and may put any number of components back. -/

/-- Induction along a walk: a property of the state and the pending components that holds
at the end, and that a step or a followed link hands back, holds from the start. -/
theorem run_induction (step : σ → ν → Step σ ν ε) {motive : Nat → σ → List ν → Prop}
    (nil : ∀ n s, motive n s [])
    (next : ∀ n s c rest s', step s c = .next s' → motive n s' rest → motive n s (c :: rest))
    (link : ∀ n s c rest s' comps, step s c = .link s' comps →
      motive n s' (comps ++ rest) → motive (n + 1) s (c :: rest))
    (link_zero : ∀ s c rest s' comps, step s c = .link s' comps → motive 0 s (c :: rest))
    (fail : ∀ n s c rest e, step s c = .fail e → motive n s (c :: rest)) :
    ∀ n s cs, motive n s cs := by
  intro n
  induction n with
  | zero =>
    intro s cs
    induction cs generalizing s with
    | nil => exact nil 0 s
    | cons c rest ih =>
      cases h : step s c with
      | next s' => exact next 0 s c rest s' h (ih s')
      | link s' comps => exact link_zero s c rest s' comps h
      | fail e => exact fail 0 s c rest e h
  | succ n ihn =>
    intro s cs
    induction cs generalizing s with
    | nil => exact nil (n + 1) s
    | cons c rest ih =>
      cases h : step s c with
      | next s' => exact next (n + 1) s c rest s' h (ih s')
      | link s' comps => exact link n s c rest s' comps h (ihn s' (comps ++ rest))
      | fail e => exact fail (n + 1) s c rest e h

/-- What holds at the start and survives every step holds where the walk ends. `Good` is
what the steps may rely on about a component, pending or put in by a link. -/
theorem run_invariant (Inv : σ → Prop) (Good : ν → Prop) {step : σ → ν → Step σ ν ε} {loop : ε}
    (hnext : ∀ s c s', Inv s → Good c → step s c = .next s' → Inv s')
    (hlink : ∀ s c s' comps, Inv s → Good c → step s c = .link s' comps →
      Inv s' ∧ ∀ c' ∈ comps, Good c') :
    ∀ n s cs t, Inv s → (∀ c ∈ cs, Good c) → run step loop n s cs = .ok t → Inv t := by
  intro n s cs
  induction n, s, cs using run_induction step with
  | nil n s =>
    intro t hs _ ht
    rw [run_nil, Except.ok.injEq] at ht
    exact ht ▸ hs
  | next n s c rest s' h ih =>
    intro t hs hgood ht
    rw [run_cons_next h] at ht
    exact ih t (hnext s c s' hs (hgood c (by simp)) h) (fun x hx => hgood x (by simp [hx])) ht
  | link n s c rest s' comps h ih =>
    intro t hs hgood ht
    rw [run_cons_link h] at ht
    obtain ⟨hs', hcomps⟩ := hlink s c s' comps hs (hgood c (by simp)) h
    refine ih t hs' (fun x hx => ?_) ht
    rcases List.mem_append.mp hx with hx | hx
    · exact hcomps x hx
    · exact hgood x (by simp [hx])
  | link_zero s c rest s' comps h =>
    intro t _ _ ht
    rw [run_cons_link_zero h] at ht
    cases ht
  | fail n s c rest e h =>
    intro t _ _ ht
    rw [run_cons_fail h] at ht
    cases ht

/-- A walk simulates another when every step the second takes the first takes too, keeping
the two states related. Wherever the second walk ends the first one then ends as well, given
at least its budget. -/
theorem run_simulates (R : σ → τ → Prop) (Good : ν → Prop) (step₁ : σ → ν → Step σ ν ε)
    (step₂ : τ → ν → Step τ ν ε') (loop₁ : ε) (loop₂ : ε')
    (hnext : ∀ s t c t', R s t → Good c → step₂ t c = .next t' →
      ∃ s', step₁ s c = .next s' ∧ R s' t')
    (hlink : ∀ s t c t' comps, R s t → Good c → step₂ t c = .link t' comps →
      (∃ s', step₁ s c = .link s' comps ∧ R s' t') ∧ ∀ c' ∈ comps, Good c') :
    ∀ n t cs s t', R s t → (∀ c ∈ cs, Good c) → run step₂ loop₂ n t cs = .ok t' →
      ∃ s', run step₁ loop₁ n s cs = .ok s' ∧ R s' t' := by
  intro n t cs
  induction n, t, cs using run_induction step₂ with
  | nil n t =>
    intro s t' hR _ ht
    rw [run_nil, Except.ok.injEq] at ht
    exact ⟨s, run_nil, ht ▸ hR⟩
  | next n t c rest t₁ h ih =>
    intro s t' hR hgood ht
    obtain ⟨s₁, hs₁, hR₁⟩ := hnext s t c t₁ hR (hgood c (by simp)) h
    rw [run_cons_next h] at ht
    rw [run_cons_next hs₁]
    exact ih s₁ t' hR₁ (fun x hx => hgood x (by simp [hx])) ht
  | link n t c rest t₁ comps h ih =>
    intro s t' hR hgood ht
    obtain ⟨⟨s₁, hs₁, hR₁⟩, hcomps⟩ := hlink s t c t₁ comps hR (hgood c (by simp)) h
    rw [run_cons_link h] at ht
    rw [run_cons_link hs₁]
    refine ih s₁ t' hR₁ (fun x hx => ?_) ht
    rcases List.mem_append.mp hx with hx | hx
    · exact hcomps x hx
    · exact hgood x (by simp [hx])
  | link_zero t c rest t₁ comps h =>
    intro s t' _ _ ht
    rw [run_cons_link_zero h] at ht
    cases ht
  | fail n t c rest e h =>
    intro s t' _ _ ht
    rw [run_cons_fail h] at ht
    cases ht

/-- A step seen through a change of the state's spelling. -/
def Step.map (g : τ → σ) : Step τ ν ε → Step σ ν ε
  | .next t => .next (g t)
  | .link t comps => .link (g t) comps
  | .fail e => .fail e

/-- Two walks that take the same steps under two spellings of the state, wherever the second
can be, end at two spellings of the same state. -/
theorem run_map (g : τ → σ) (Inv : τ → Prop) (Good : ν → Prop) (step₁ : σ → ν → Step σ ν ε)
    (step₂ : τ → ν → Step τ ν ε) (loop : ε)
    (heq : ∀ t c, Inv t → Good c → step₁ (g t) c = (step₂ t c).map g)
    (hnext : ∀ t c t', Inv t → Good c → step₂ t c = .next t' → Inv t')
    (hlink : ∀ t c t' comps, Inv t → Good c → step₂ t c = .link t' comps →
      Inv t' ∧ ∀ c' ∈ comps, Good c') :
    ∀ n t cs, Inv t → (∀ c ∈ cs, Good c) →
      run step₁ loop n (g t) cs = (run step₂ loop n t cs).map g := by
  intro n t cs
  induction n, t, cs using run_induction step₂ with
  | nil n t => intros; rw [run_nil, run_nil]; rfl
  | next n t c rest t' h ih =>
    intro ht hgood
    have hc := hgood c (by simp)
    have h₁ : step₁ (g t) c = .next (g t') := by rw [heq t c ht hc, h]; rfl
    rw [run_cons_next h, run_cons_next h₁]
    exact ih (hnext t c t' ht hc h) fun x hx => hgood x (by simp [hx])
  | link n t c rest t' comps h ih =>
    intro ht hgood
    have hc := hgood c (by simp)
    have h₁ : step₁ (g t) c = .link (g t') comps := by rw [heq t c ht hc, h]; rfl
    obtain ⟨ht', hcomps⟩ := hlink t c t' comps ht hc h
    rw [run_cons_link h, run_cons_link h₁]
    refine ih ht' fun x hx => ?_
    rcases List.mem_append.mp hx with hx | hx
    · exact hcomps x hx
    · exact hgood x (by simp [hx])
  | link_zero t c rest t' comps h =>
    intro ht hgood
    have h₁ : step₁ (g t) c = .link (g t') comps := by rw [heq t c ht (hgood c (by simp)), h]; rfl
    rw [run_cons_link_zero h, run_cons_link_zero h₁]
    rfl
  | fail n t c rest e h =>
    intro ht hgood
    have h₁ : step₁ (g t) c = .fail e := by rw [heq t c ht (hgood c (by simp)), h]; rfl
    rw [run_cons_fail h, run_cons_fail h₁]
    rfl

/-- One more component, which moves the walk on from where it has ended. -/
theorem run_concat_of_next {step : σ → ν → Step σ ν ε} {loop : ε} {c : ν} {t' : σ} :
    ∀ n s cs t, run step loop n s cs = .ok t → step t c = .next t' →
      run step loop n s (cs ++ [c]) = .ok t' := by
  intro n s cs
  induction n, s, cs using run_induction step with
  | nil n s =>
    intro t ht hc
    rw [run_nil, Except.ok.injEq] at ht
    subst ht
    rw [List.nil_append, run_cons_next hc, run_nil]
  | next n s d rest s' h ih =>
    intro t ht hc
    rw [run_cons_next h] at ht
    rw [List.cons_append, run_cons_next h]
    exact ih t ht hc
  | link n s d rest s' comps h ih =>
    intro t ht hc
    rw [run_cons_link h] at ht
    rw [List.cons_append, run_cons_link h, ← List.append_assoc]
    exact ih t ht hc
  | link_zero s d rest s' comps h =>
    intro t ht
    rw [run_cons_link_zero h] at ht
    cases ht
  | fail n s d rest e h =>
    intro t ht
    rw [run_cons_fail h] at ht
    cases ht

/-! ## Termination

One turn of the loop a walk is: the budget it has left, the state and what is pending. -/

inductive Turn (step : σ → ν → Step σ ν ε) : Nat × σ × List ν → Nat × σ × List ν → Prop where
  | next {n s c rest s'} (h : step s c = .next s') : Turn step (n, s, c :: rest) (n, s', rest)
  | link {n s c rest s' comps} (h : step s c = .link s' comps) :
    Turn step (n + 1, s, c :: rest) (n, s', comps ++ rest)

/-- Every turn spends a link or a component, so there are finitely many. -/
theorem turn_wellFounded (step : σ → ν → Step σ ν ε) :
    WellFounded fun after before => Turn step before after := by
  have hlex : WellFounded (Prod.Lex (· < ·) (· < ·) : Nat × Nat → Nat × Nat → Prop) :=
    (Prod.lex Nat.lt_wfRel Nat.lt_wfRel).wf
  refine Subrelation.wf (fun {after before} h => ?_)
    (InvImage.wf (fun cfg : Nat × σ × List ν => (cfg.1, cfg.2.2.length)) hlex)
  cases h with
  | next h => exact Prod.Lex.right _ (by simp)
  | link h => exact Prod.Lex.left _ _ (Nat.lt_succ_self _)

end Walk
