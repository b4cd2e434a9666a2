import Mathlib.Logic.Function.Basic

/-! Slots that refer to resources, each resource from one slot at most.

`held` says which resources are taken: a slot refers to a resource that is taken,
so a resource that is not taken can be assigned to an empty slot.
-/

set_option autoImplicit false

namespace Xv6.Library

structure Owns {S R : Type} (nil : R) (ref : S → R) (held : R → Prop) : Prop where
  distinct : ∀ s t, ref s ≠ nil → ref s = ref t → s = t
  held : ∀ s, ref s ≠ nil → held (ref s)

namespace Owns

variable {S R : Type} {nil r : R} {ref ref' : S → R} {held held' : R → Prop} {s : S}

/-- No slot refers to a resource that is not taken. -/
theorem unreferenced (owns : Owns nil ref held) (real : r ≠ nil) (free : ¬ held r) (t : S) : ref t ≠ r := by
  rintro rfl
  exact free (owns.held t real)

/-- An empty slot is given a resource that was not taken. -/
theorem assign (owns : Owns nil ref held) (free : ¬ held r) (here : ref' s = r) (others : ∀ t, t ≠ s → ref' t = ref t)
    (more : ∀ x, held x → held' x) (taken : held' r) : Owns nil ref' held' where
  distinct t u filled same := by
    by_cases isT : t = s
    · by_cases isU : u = s
      · exact isT.trans isU.symm
      · subst isT
        rw [here] at filled same
        rw [others u isU] at same
        exact absurd same.symm (owns.unreferenced filled free u)
    · rw [others t isT] at filled same
      by_cases isU : u = s
      · subst isU
        rw [here] at same
        exact absurd same (owns.unreferenced (same ▸ filled) free t)
      · rw [others u isU] at same
        exact owns.distinct t u filled same
  held t filled := by
    by_cases isT : t = s
    · subst isT
      exact here ▸ taken
    · rw [others t isT] at filled ⊢
      exact more _ (owns.held t filled)

/-- Some slots are emptied, and of the resources at most those that they referred to are freed. -/
theorem release (owns : Owns nil ref held) (others : ∀ t, ref' t ≠ nil → ref' t = ref t)
    (kept : ∀ t, ref' t ≠ nil → held (ref t) → held' (ref t)) : Owns nil ref' held' where
  distinct t u filled same := by
    have sameT := others t filled
    have sameU := others u (same ▸ filled)
    exact owns.distinct t u (sameT ▸ filled) (sameT.symm.trans (same.trans sameU))
  held t filled := by
    have sameT := others t filled
    rw [sameT]
    exact kept t filled (owns.held t (sameT ▸ filled))

end Owns

end Xv6.Library
