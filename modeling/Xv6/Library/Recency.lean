import Mathlib.Data.List.Basic
import Mathlib.Data.List.Nodup
import Mathlib.Data.List.Pairwise

/-! Lists in the order of last use.

The uses are listed with the latest first, so a use is the later the smaller its first index is.
Moving an element to the front when it is used keeps a list in this order, and a search from its end
finds the element that has not been used for the longest time.
-/

set_option autoImplicit false

namespace Xv6.Library

variable {A : Type} [DecidableEq A] {uses list before after : List A} {a b : A} {p : A → Bool}

def ByRecency (uses list : List A) : Prop := list.Pairwise fun a b => uses.idxOf a < uses.idxOf b

namespace ByRecency

/-- Before anything is used the list itself is the order. -/
theorem refl (distinct : list.Nodup) : ByRecency list list := by
  apply List.pairwise_iff_getElem.mpr
  intro i j inside inside' less
  rw [distinct.idxOf_getElem, distinct.idxOf_getElem]
  exact less

theorem sublist (ordered : ByRecency uses list) (sub : before.Sublist list) : ByRecency uses before :=
  List.Pairwise.sublist sub ordered

theorem other (ordered : ByRecency uses list) (absent : a ∉ list) : ByRecency (a :: uses) list := by
  induction ordered with
  | nil => exact List.Pairwise.nil
  | @cons b rest behind _ ih =>
    have notB : a ≠ b := fun same => absent (same ▸ List.mem_cons_self)
    have notRest : a ∉ rest := fun member => absent (List.mem_cons_of_mem b member)
    apply List.Pairwise.cons
    · intro c member
      have notC : a ≠ c := fun same => notRest (same ▸ member)
      rw [List.idxOf_cons_ne _ notB, List.idxOf_cons_ne _ notC]
      exact Nat.succ_lt_succ (behind c member)
    · exact ih notRest

theorem moved (ordered : ByRecency uses (before ++ a :: after)) (distinct : (before ++ a :: after).Nodup) :
    ByRecency (a :: uses) (a :: (before ++ after)) := by
  have absent : a ∉ before ++ after := (List.nodup_cons.mp (List.nodup_middle.mp distinct)).1
  apply List.Pairwise.cons
  · intro b member
    have notB : a ≠ b := fun same => absent (same ▸ member)
    rw [List.idxOf_cons_self, List.idxOf_cons_ne _ notB]
    exact Nat.succ_pos _
  · apply other _ absent
    apply ordered.sublist
    exact List.Sublist.append_left (List.sublist_cons_self a after) before

/-- A search from the end finds the element whose last use is the earliest. -/
theorem oldest (ordered : ByRecency uses list) (found : list.reverse.find? p = some a) (member : b ∈ list)
    (holds : p b = true) : uses.idxOf b ≤ uses.idxOf a := by
  obtain ⟨_, later, earlier, split, none⟩ := List.find?_eq_some_iff_append.mp found
  have reversed : list = earlier.reverse ++ a :: later.reverse := by
    rw [← List.reverse_reverse list, split, List.reverse_append, List.reverse_cons, List.append_assoc]
    rfl
  rw [reversed] at member ordered
  rcases List.mem_append.mp member with ahead | here
  · exact Nat.le_of_lt ((List.pairwise_append.mp ordered).2.2 b ahead a List.mem_cons_self)
  · rcases List.mem_cons.mp here with same | behind
    · exact Nat.le_of_eq (by rw [same])
    · have fails := none b (List.mem_reverse.mp behind)
      rw [holds] at fails
      exact absurd fails nofun

end ByRecency

end Xv6.Library
