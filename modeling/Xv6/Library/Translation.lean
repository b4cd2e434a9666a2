import Mathlib.Data.Option.Basic

/-! Translation through tables of several levels.

A reader sees in an entry of each level nothing, a table or a result. Two readers of the
same tables need not agree. The entries on one chain of tables, alone in them, are
reached by the indices of that chain and by no others.
-/

set_option autoImplicit false

namespace Xv6.Library

inductive Meaning (T O : Type) where
  | missing
  | table (t : T)
  | result (o : O)

section
variable {E T I O : Type}

def followTables (read : Nat → E → Meaning T O) (word : T → I → E) : Nat → E → List I → Option O
  | level, e, path =>
    match read level e, path with
    | .result o, _ => some o
    | .table t, i :: path => followTables read word (level + 1) (word t i) path
    | _, _ => none
  termination_by structural _ _ path => path

/-- The entries from `e` on lead along the path to the result, each of them alone in its table. -/
inductive Chain (read : Nat → E → Meaning T O) (word : T → I → E) : Nat → E → List I → O → Prop where
  | result {level : Nat} {e : E} {o : O} (ends : read level e = .result o) : Chain read word level e [] o
  | table {level : Nat} {e : E} {t : T} {i : I} {path : List I} {o : O} (refers : read level e = .table t)
      (alone : ∀ j, j ≠ i → read (level + 1) (word t j) = .missing)
      (rest : Chain read word (level + 1) (word t i) path o) : Chain read word level e (i :: path) o

variable {read : Nat → E → Meaning T O} {word : T → I → E} {level : Nat} {e : E} {path : List I} {o : O}

theorem followTables_missing (missing : read level e = .missing) (path : List I) :
    followTables read word level e path = none := by
  cases path with
  | nil => simp [followTables, missing]
  | cons i path => simp [followTables, missing]

theorem followTables_result (ends : read level e = .result o) (path : List I) :
    followTables read word level e path = some o := by
  cases path with
  | nil => simp [followTables, ends]
  | cons i path => simp [followTables, ends]

theorem followTables_table {t : T} (refers : read level e = .table t) (i : I) (path : List I) :
    followTables read word level e (i :: path) = followTables read word (level + 1) (word t i) path := by
  simp [followTables, refers]

/-- Of all paths as long as the chain, its own is the only one with a result. -/
theorem Chain.followTables_isSome (chain : Chain read word level e path o) {q : List I}
    (length : q.length = path.length) : (followTables read word level e q).isSome ↔ q = path := by
  induction chain generalizing q with
  | result ends =>
    have empty : q = [] := List.eq_nil_of_length_eq_zero length
    subst empty
    simp [followTables, ends]
  | @table level e t i path o refers alone rest ih =>
    cases q with
    | nil => simp at length
    | cons j q =>
      rw [followTables_table refers, List.cons.injEq]
      by_cases same : j = i
      · subst same
        rw [ih (Nat.succ.inj length)]
        simp
      · rw [followTables_missing (alone j same)]
        simp [same]

end

end Xv6.Library
