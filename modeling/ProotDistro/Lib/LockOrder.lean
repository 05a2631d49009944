import Mathlib.Data.Fintype.Card
import Mathlib.Data.List.Basic
import Mathlib.Logic.Relation
import Mathlib.Order.WellFounded

/-!
# Locks taken in one order

Parties take the keys of a list one after the other and give none back until they have them all. If every
list ascends in one order, they wait for each other in no circle: what a party waits for lies above all
that it holds.

* **`WaitsFor`** — the next key of one party is among those another holds.
* **`waitsFor_acyclic`**, **`exists_not_waiting`** — no circle, and in a finite number one that can go on.
-/

namespace ProotDistro

namespace LockOrder

universe u v

variable {ι : Type u} {κ : Type v}

/-- Each party has taken so many keys of its plan; the next one of `i` is held by `j`. -/
def WaitsFor (plan : ι → List κ) (taken : ι → Nat) (i j : ι) : Prop :=
  ∃ k, (plan i)[taken i]? = some k ∧ k ∈ (plan j).take (taken j)

section Order

variable [Preorder κ] {plan : ι → List κ} {taken : ι → Nat} {i j : ι}

/-- What comes next in an ascending list lies above all that was taken of it. -/
theorem lt_of_taken {l : List κ} {n : Nat} {k next : κ} (h : l.Pairwise (· < ·)) (hk : k ∈ l.take n)
    (hnext : l[n]? = some next) : k < next := by
  rw [← List.take_append_drop n l, List.pairwise_append] at h
  apply h.2.2 k hk
  apply List.mem_of_getElem? (i := 0)
  rw [List.getElem?_drop]
  exact hnext

/-- Along a chain of parties that wait, the keys they wait for ascend. -/
theorem lt_of_chain (horder : ∀ i, (plan i).Pairwise (· < ·))
    (h : Relation.TransGen (WaitsFor plan taken) i j) {k k' : κ} (hk : (plan i)[taken i]? = some k)
    (hk' : (plan j)[taken j]? = some k') : k < k' := by
  induction h generalizing k' with
  | single hwaits =>
    obtain ⟨k₁, hk₁, hheld⟩ := hwaits
    rw [hk, Option.some.injEq] at hk₁
    exact lt_of_taken (horder _) (hk₁ ▸ hheld) hk'
  | tail _ hwaits ih =>
    obtain ⟨k₁, hk₁, hheld⟩ := hwaits
    exact (ih hk₁).trans (lt_of_taken (horder _) hheld hk')

/-- No party waits for itself through others. -/
theorem waitsFor_acyclic (horder : ∀ i, (plan i).Pairwise (· < ·)) (i : ι) :
    ¬ Relation.TransGen (WaitsFor plan taken) i i := by
  intro h
  obtain ⟨j, ⟨k, hk, -⟩, -⟩ := Relation.TransGen.head'_iff.mp h
  exact lt_irrefl k (lt_of_chain horder h hk hk)

/-- Of finitely many parties one waits for nobody. -/
theorem exists_not_waiting [Finite ι] [Nonempty ι] (horder : ∀ i, (plan i).Pairwise (· < ·)) :
    ∃ i, ∀ j, ¬ WaitsFor plan taken i j := by
  have hirrefl : Std.Irrefl (Function.swap (Relation.TransGen (WaitsFor plan taken))) :=
    ⟨waitsFor_acyclic horder⟩
  have htrans : IsTrans ι (Function.swap (Relation.TransGen (WaitsFor plan taken))) :=
    ⟨fun _ _ _ hab hbc => hbc.trans hab⟩
  obtain ⟨i, -, hmin⟩ := (Finite.wellFounded_of_trans_of_irrefl
    (Function.swap (Relation.TransGen (WaitsFor plan taken)))).has_min Set.univ Set.univ_nonempty
  exact ⟨i, fun j hwaits => hmin j trivial (.single hwaits)⟩

end Order

end LockOrder

end ProotDistro
