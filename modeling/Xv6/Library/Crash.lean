import Mathlib.Data.List.Nodup
import Mathlib.Logic.Function.Basic

/-! Writes to a store that survives crashes, and recovery that may itself crash.

A write is atomic, so what a crash leaves behind is the effect of a prefix of the
writes issued so far. Recovery is started again from whatever the last crash left,
until it completes once.
-/

set_option autoImplicit false

namespace Xv6.Library

section
variable {K V : Type} [DecidableEq K]

/-- The store after some writes, the first of the list being the oldest. -/
def applyWrites (writes : List (K × V)) (d : K → V) : K → V :=
  writes.foldl (fun d write => Function.update d write.1 write.2) d

@[simp] theorem applyWrites_nil (d : K → V) : applyWrites [] d = d := rfl

@[simp] theorem applyWrites_cons (b : K) (v : V) (rest : List (K × V)) (d : K → V) :
    applyWrites ((b, v) :: rest) d = applyWrites rest (Function.update d b v) := rfl

theorem applyWrites_append (first second : List (K × V)) (d : K → V) :
    applyWrites (first ++ second) d = applyWrites second (applyWrites first d) := List.foldl_append

theorem applyWrites_of_not_mem {writes : List (K × V)} {b : K} (absent : b ∉ writes.map Prod.fst) (d : K → V) :
    applyWrites writes d b = d b := by
  induction writes generalizing d with
  | nil => rfl
  | cons write rest ih =>
    simp only [List.map_cons, List.mem_cons, not_or] at absent
    rw [applyWrites_cons, ih absent.2, Function.update_of_ne absent.1]

/-- Where no block is written twice, each one has what was written to it. -/
theorem applyWrites_of_mem {writes : List (K × V)} {b : K} {v : V} (distinct : (writes.map Prod.fst).Nodup)
    (member : (b, v) ∈ writes) (d : K → V) : applyWrites writes d b = v := by
  induction writes generalizing d with
  | nil => cases member
  | cons write rest ih =>
    rw [List.map_cons, List.nodup_cons] at distinct
    rw [applyWrites_cons]
    rcases List.mem_cons.mp member with rfl | later
    · rw [applyWrites_of_not_mem distinct.1, Function.update_self]
    · exact ih distinct.2 later _

/-- A cut through two groups of writes falls into the first, or leaves it whole. -/
theorem take_append_cases {A : Type} (k : Nat) (first second : List A) :
    ((first ++ second).take k = first.take k) ∨ ∃ j, (first ++ second).take k = first ++ second.take j := by
  rcases Nat.le_total k first.length with short | long
  · exact .inl (List.take_append_of_le_length short)
  · refine .inr ⟨k - first.length, ?_⟩
    rw [List.take_append, List.take_of_length_le long]

/-- Recovery from a store, crashing any number of times, has left another one.
`recovery d writes`: started on `d`, recovery issues these writes and returns. -/
inductive Recovers (recovery : (K → V) → List (K × V) → Prop) : (K → V) → (K → V) → Prop where
  | completes {d : K → V} {writes : List (K × V)} (issued : recovery d writes) :
      Recovers recovery d (applyWrites writes d)
  | crashes {d final : K → V} {writes : List (K × V)} (k : Nat) (issued : recovery d writes)
      (again : Recovers recovery (applyWrites (writes.take k) d) final) : Recovers recovery d final

/-- What every crash of recovery keeps, and its completion turns into `Final`. -/
theorem Recovers.induct {recovery : (K → V) → List (K × V) → Prop} {Safe Final : (K → V) → Prop}
    (keeps : ∀ d writes k, Safe d → recovery d writes → Safe (applyWrites (writes.take k) d))
    (completes : ∀ d writes, Safe d → recovery d writes → Final (applyWrites writes d))
    {d final : K → V} (safe : Safe d) (recovers : Recovers recovery d final) : Final final := by
  induction recovers with
  | completes issued => exact completes _ _ safe issued
  | crashes k issued _ ih => exact ih (keeps _ _ k safe issued)

end

end Xv6.Library
