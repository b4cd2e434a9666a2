import Mathlib.Data.List.Nodup
import Mathlib.Data.List.Infix

/-! Who stands behind whom in a line without repetitions. -/

set_option autoImplicit false

namespace Xv6.Library

def Behind {α : Type} (line : List α) (a b : α) : Prop := ∃ before after, line = before ++ a :: b :: after

section
variable {α : Type} {line : List α} {a b c : α}

theorem Behind.left_mem (behind : Behind line a b) : a ∈ line := by
  obtain ⟨before, after, rfl⟩ := behind
  simp

theorem Behind.right_mem (behind : Behind line a b) : b ∈ line := by
  obtain ⟨before, after, rfl⟩ := behind
  simp

theorem Behind.cons (behind : Behind line a b) (c : α) : Behind (c :: line) a b := by
  obtain ⟨before, after, rfl⟩ := behind
  exact ⟨c :: before, after, rfl⟩

/-- Everybody is the first one or stands behind somebody. -/
theorem head_or_behind (member : b ∈ line) : line.head? = some b ∨ ∃ a, Behind line a b := by
  obtain ⟨before, after, rfl⟩ := List.append_of_mem member
  cases before using List.reverseRecOn with
  | nil => exact .inl rfl
  | append_singleton before a => exact .inr ⟨a, before, after, by simp⟩

theorem Behind.not_head (behind : Behind line a b) (distinct : line.Nodup) : line.head? ≠ some b := by
  obtain ⟨before, after, rfl⟩ := behind
  intro head
  cases before with
  | nil =>
    cases head
    simp at distinct
  | cons c before =>
    cases head
    simp at distinct

theorem Behind.not_last (behind : Behind line a b) (distinct : line.Nodup) : line.getLast? ≠ some a := by
  obtain ⟨before, after, rfl⟩ := behind
  intro last
  have tail : (b :: after).getLast? = some a := by
    rw [← last, List.getLast?_append, List.getLast?_cons_cons]
    simp [List.getLast?_cons]
  have member : a ∈ b :: after := List.mem_of_getLast? tail
  exact (List.nodup_cons.mp (List.nodup_append'.mp distinct).2.1).1 member

theorem Behind.right_unique (behind : Behind line a b) (other : Behind line a c) (distinct : line.Nodup) : b = c := by
  obtain ⟨before, after, rfl⟩ := behind
  obtain ⟨before', after', same⟩ := other
  induction before generalizing before' with
  | nil =>
    cases before' with
    | nil => simpa using (List.cons.inj (List.cons.inj same).2).1
    | cons d before' =>
      have head := (List.cons.inj same).1
      have tail := (List.cons.inj same).2
      have again : a ∈ b :: after := by
        rw [tail]
        simp
      exact absurd again (List.nodup_cons.mp distinct).1
  | cons d before ih =>
    cases before' with
    | nil =>
      have head := (List.cons.inj same).1
      subst head
      simp at distinct
    | cons e before' =>
      exact ih (List.nodup_cons.mp distinct).2 before' (List.cons.inj same).2

theorem Behind.reverse (behind : Behind line a b) : Behind line.reverse b a := by
  obtain ⟨before, after, rfl⟩ := behind
  exact ⟨after.reverse, before.reverse, by simp⟩

theorem Behind.left_unique (behind : Behind line a c) (other : Behind line b c) (distinct : line.Nodup) : a = b :=
  behind.reverse.right_unique other.reverse (List.nodup_reverse.mpr distinct)

theorem behind_append (behind : Behind (line ++ [c]) a b) :
    Behind line a b ∨ (line.getLast? = some a ∧ b = c) := by
  obtain ⟨before, after, same⟩ := behind
  cases after using List.reverseRecOn with
  | nil =>
    have split : line ++ [c] = (before ++ [a]) ++ [b] := by simpa using same
    obtain ⟨rfl, last⟩ := List.append_inj' split rfl
    exact .inr ⟨by simp, (List.cons.inj last).1.symm⟩
  | append_singleton after d =>
    have split : line ++ [c] = (before ++ a :: b :: after) ++ [d] := by simpa using same
    obtain ⟨rfl, _⟩ := List.append_inj' split rfl
    exact .inl ⟨before, after, rfl⟩

/-- The last one of a line that has a first one and another one. -/
theorem line_eq_single (head : line.head? = some a) (last : line.getLast? = some a) (distinct : line.Nodup) :
    line = [a] := by
  cases line with
  | nil => cases head
  | cons b rest =>
    cases head
    cases rest using List.reverseRecOn with
    | nil => rfl
    | append_singleton rest c =>
      rw [← List.cons_append, List.getLast?_concat] at last
      have same : c = a := Option.some.inj last
      subst same
      simp at distinct

end

end Xv6.Library
