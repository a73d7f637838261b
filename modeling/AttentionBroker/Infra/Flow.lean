import Mathlib.Algebra.BigOperators.Field
import Mathlib.Algebra.Order.BigOperators.Group.Finset
import Mathlib.Algebra.Order.Field.Basic

/-!
# Flows between finitely many nodes

Every node `w` divides an amount among the nodes of `N w`. What all nodes receive is what
all nodes give away (`sum_inflow`), and a node that divides by weights gives away exactly
its amount, unless its weights add up to zero (`sum_share`).
-/

namespace Infra

open Finset

variable {κ : Type*}

/-- The sum over the receivers is the sum over the givers. -/
theorem sum_inflow [DecidableEq κ] {M : Type*} [AddCommMonoid M] {V : Finset κ} {N : κ → Finset κ}
    (hN : ∀ w ∈ V, N w ⊆ V) (f : κ → κ → M) :
    ∑ v ∈ V, ∑ w ∈ V with v ∈ N w, f w v = ∑ w ∈ V, ∑ v ∈ N w, f w v := by
  refine Finset.sum_comm' fun v w => ?_
  rw [mem_filter]
  constructor
  · rintro ⟨-, hw, hv⟩
    exact ⟨hv, hw⟩
  · rintro ⟨hv, hw⟩
    exact ⟨hN w hw hv, hw, hv⟩

variable {K : Type*} [Field K]

/-- A nonzero sum of weights divides the whole amount. -/
theorem sum_share {N : Finset κ} {weight : κ → K} (h : ∑ u ∈ N, weight u ≠ 0) (s : K) :
    ∑ v ∈ N, weight v / (∑ u ∈ N, weight u) * s = s := by
  rw [← sum_mul, ← sum_div, div_self h, one_mul]

/-- No weights divide more than the amount. -/
theorem sum_share_le [LinearOrder K] [IsStrictOrderedRing K] (N : Finset κ) (weight : κ → K) {s : K}
    (hs : 0 ≤ s) : ∑ v ∈ N, weight v / (∑ u ∈ N, weight u) * s ≤ s := by
  by_cases h : ∑ u ∈ N, weight u = 0
  · simpa [h] using hs
  · exact (sum_share h s).le

end Infra
