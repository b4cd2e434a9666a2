import Mathlib.Algebra.BigOperators.Fin
import Mathlib.Algebra.Order.BigOperators.Group.Finset

/-! Totals over finitely many parties of which one moves at a time. -/

set_option autoImplicit false

namespace Xv6.Library

variable {P L M : Type} [Fintype P] [DecidableEq P] [AddCommMonoid M]

/-- Changing one summand changes the total by the difference. -/
theorem sum_update (f : P → M) (p : P) (value : M) :
    (∑ q, Function.update f p value q) + f p = (∑ q, f q) + value := by
  rw [Finset.sum_update_of_mem (Finset.mem_univ p), ← Finset.add_sum_erase _ f (Finset.mem_univ p),
    Finset.sdiff_singleton_eq_erase]
  ac_rfl

/-- The same for two functions that differ in one summand. -/
theorem sum_change {f g : P → M} (p : P) (others : ∀ q, q ≠ p → g q = f q) :
    (∑ q, g q) + f p = (∑ q, f q) + g p := by
  have same : g = Function.update f p (g p) := by
    funext q
    by_cases here : q = p
    · rw [here, Function.update_self]
    · rw [Function.update_of_ne here, others q here]
  conv_lhs => rw [same]
  exact sum_update f p (g p)

/-- The total weight of the parties after one of them moved to another location. -/
theorem sum_weight_update (weight : L → M) (at_ : P → L) (p : P) (location : L) :
    (∑ q, weight (Function.update at_ p location q)) + weight (at_ p) = (∑ q, weight (at_ q)) + weight location := by
  have same : (fun q => weight (Function.update at_ p location q)) =
      Function.update (fun q => weight (at_ q)) p (weight location) := Function.comp_update ..
  rw [same]
  exact sum_update (fun q => weight (at_ q)) p (weight location)

omit [DecidableEq P] in
theorem le_total (f : P → Nat) (p : P) : f p ≤ ∑ q, f q :=
  Finset.single_le_sum (f := f) (fun _ _ => Nat.zero_le _) (Finset.mem_univ p)

/-- Two parties contribute at least their own summands. -/
theorem add_le_total (f : P → Nat) {p q : P} (other : p ≠ q) : f p + f q ≤ ∑ r, f r := by
  rw [← Finset.sum_pair other]
  exact Finset.sum_le_sum_of_subset (Finset.subset_univ _)

end Xv6.Library
