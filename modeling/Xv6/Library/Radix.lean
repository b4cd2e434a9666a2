import Mathlib.Data.Option.Basic
import Mathlib.Data.List.Induction
import Mathlib.Order.Nat

/-! Radix trees whose nodes live in a heap.

A node is followed by an index to a child, or to none. The tree is sound when no
node is reached by two paths; a fresh node without children can then be linked
into a free place, and nothing else of the tree changes.
-/

set_option autoImplicit false

namespace Xv6.Library

section
variable {N I : Type}

def descend (child : N → I → Option N) : N → List I → Option N
  | x, [] => some x
  | x, i :: path => (child x i).bind fun y => descend child y path

@[simp] theorem descend_nil (child : N → I → Option N) (x : N) : descend child x [] = some x := rfl

theorem descend_append (child : N → I → Option N) (x : N) (first second : List I) :
    descend child x (first ++ second) = (descend child x first).bind fun y => descend child y second := by
  induction first generalizing x with
  | nil => rfl
  | cons i rest ih =>
    simp only [List.cons_append, descend, Option.bind_assoc]
    congr 1
    funext y
    exact ih y

theorem descend_concat (child : N → I → Option N) (x : N) (path : List I) (i : I) :
    descend child x (path ++ [i]) = (descend child x path).bind fun y => child y i := by
  simp [descend_append, descend]

theorem descend_concat_some {child : N → I → Option N} {x z : N} {path : List I} {i : I} :
    descend child x (path ++ [i]) = some z ↔ ∃ y, descend child x path = some y ∧ child y i = some z := by
  simp [descend_concat, Option.bind_eq_some_iff]

def DistinctTo (child : N → I → Option N) (d : Nat) (root : N) : Prop :=
  ∀ p q x, p.length ≤ d → q.length ≤ d → descend child root p = some x → descend child root q = some x → p = q

theorem DistinctTo.mono {child : N → I → Option N} {c d : Nat} {root : N} (distinct : DistinctTo child d root)
    (le : c ≤ d) : DistinctTo child c root := by
  intro p q x shortP shortQ
  exact distinct p q x (shortP.trans le) (shortQ.trans le)

/-- A walk depends on the nodes that it leaves only. -/
theorem descend_congr {child child' : N → I → Option N} {root : N} {d : Nat}
    (same : ∀ p x i, p.length < d → descend child root p = some x → child' x i = child x i)
    {p : List I} (short : p.length ≤ d) : descend child' root p = descend child root p := by
  induction p using List.reverseRecOn with
  | nil => rfl
  | append_singleton p i ih =>
    have shorter : p.length < d := by
      rw [List.length_append, List.length_singleton] at short
      exact short
    rw [descend_concat, descend_concat, ih shorter.le]
    cases reached : descend child root p with
    | none => rfl
    | some x => exact same p x i shorter reached

/-- What is reached with fewer children was reached before. -/
theorem descend_of_fewer {child child' : N → I → Option N} (fewer : ∀ x i y, child' x i = some y → child x i = some y)
    {x z : N} {p : List I} (found : descend child' x p = some z) : descend child x p = some z := by
  induction p generalizing x with
  | nil => exact found
  | cons i p ih =>
    obtain ⟨y, first, rest⟩ := Option.bind_eq_some_iff.mp found
    exact Option.bind_eq_some_iff.mpr ⟨y, fewer x i y first, ih rest⟩

/-! ## Subtrees -/

def Within (child : N → I → Option N) (d : Nat) (x z : N) : Prop := ∃ p, p.length < d ∧ descend child x p = some z

def DistinctIn (child : N → I → Option N) (d : Nat) (root : N) : Prop :=
  ∀ p q z, p.length < d → q.length < d → descend child root p = some z → descend child root q = some z → p = q

section
variable {child child' : N → I → Option N} {d : Nat} {x y y' z : N} {i j : I}

theorem not_within_zero : ¬ Within child 0 x z := fun ⟨_, short, _⟩ => Nat.not_lt_zero _ short

theorem within_succ : Within child (d + 1) x z ↔ z = x ∨ ∃ i y, child x i = some y ∧ Within child d y z := by
  constructor
  · rintro ⟨p, short, found⟩
    cases p with
    | nil => exact .inl (Option.some.inj found).symm
    | cons i p =>
      obtain ⟨y, next, rest⟩ := Option.bind_eq_some_iff.mp found
      exact .inr ⟨i, y, next, p, Nat.lt_of_succ_lt_succ short, rest⟩
  · rintro (rfl | ⟨i, y, next, p, short, found⟩)
    · exact ⟨[], Nat.succ_pos d, rfl⟩
    · exact ⟨i :: p, Nat.succ_lt_succ short, Option.bind_eq_some_iff.mpr ⟨y, next, found⟩⟩

theorem within_congr (same : ∀ z, Within child d x z → ∀ i, child' z i = child z i) :
    Within child' d x z ↔ Within child d x z := by
  have paths : ∀ p, p.length ≤ d → descend child' x p = descend child x p := fun p short =>
    descend_congr (fun q y i shorter found => same y ⟨q, shorter, found⟩ i) short
  constructor
  · rintro ⟨p, short, found⟩
    exact ⟨p, short, (paths p short.le).symm.trans found⟩
  · rintro ⟨p, short, found⟩
    exact ⟨p, short, (paths p short.le).trans found⟩

namespace DistinctIn

theorem below (distinct : DistinctIn child (d + 1) x) (next : child x i = some y) : DistinctIn child d y := by
  intro p q z shortP shortQ foundP foundQ
  have equal := distinct (i :: p) (i :: q) z (Nat.succ_lt_succ shortP) (Nat.succ_lt_succ shortQ)
    (Option.bind_eq_some_iff.mpr ⟨y, next, foundP⟩) (Option.bind_eq_some_iff.mpr ⟨y, next, foundQ⟩)
  exact (List.cons.inj equal).2

/-- The subtrees of two children have no node in common. -/
theorem apart (distinct : DistinctIn child (d + 1) x) (other : i ≠ j) (next : child x i = some y)
    (next' : child x j = some y') (inside : Within child d y z) : ¬ Within child d y' z := by
  rintro ⟨q, shortQ, foundQ⟩
  obtain ⟨p, shortP, foundP⟩ := inside
  have equal := distinct (i :: p) (j :: q) z (Nat.succ_lt_succ shortP) (Nat.succ_lt_succ shortQ)
    (Option.bind_eq_some_iff.mpr ⟨y, next, foundP⟩) (Option.bind_eq_some_iff.mpr ⟨y', next', foundQ⟩)
  exact other (List.cons.inj equal).1

theorem not_within (distinct : DistinctIn child (d + 1) x) (next : child x i = some y) : ¬ Within child d y x := by
  rintro ⟨p, short, found⟩
  have equal := distinct (i :: p) [] x (Nat.succ_lt_succ short) (Nat.succ_pos d)
    (Option.bind_eq_some_iff.mpr ⟨y, next, found⟩) rfl
  cases equal

theorem congr (distinct : DistinctIn child d x) (same : ∀ z, Within child d x z → ∀ i, child' z i = child z i) :
    DistinctIn child' d x := by
  have paths : ∀ p, p.length ≤ d → descend child' x p = descend child x p := fun p short =>
    descend_congr (fun q y i shorter found => same y ⟨q, shorter, found⟩ i) short
  intro p q z shortP shortQ foundP foundQ
  exact distinct p q z shortP shortQ ((paths p shortP.le).symm.trans foundP) ((paths q shortQ.le).symm.trans foundQ)

end DistinctIn

end

def missing (child : N → I → Option N) : N → List I → Nat
  | _, [] => 0
  | x, i :: path =>
    match child x i with
    | none => path.length + 1
    | some y => missing child y path

theorem missing_empty {child : N → I → Option N} {x : N} (empty : ∀ i, child x i = none) (path : List I) :
    missing child x path = path.length := by
  cases path with
  | nil => rfl
  | cons i path => simp [missing, empty i]

theorem missing_of_reached {child : N → I → Option N} {x y : N} {path : List I}
    (reached : descend child x path = some y) : missing child x path = 0 := by
  induction path generalizing x with
  | nil => rfl
  | cons i path ih =>
    obtain ⟨z, next, reached⟩ := Option.bind_eq_some_iff.mp reached
    simp only [missing, next]
    exact ih reached

/-- `child'` is `child` with node `y` linked in at index `i` of node `x`, which `path`
reaches; trees are followed to depth `d`. -/
structure Grafts (child child' : N → I → Option N) (d : Nat) (root : N) (path : List I) (x : N) (i : I) (y : N) :
    Prop where
  reached : descend child root path = some x
  short : path.length < d
  absent : child x i = none
  here : child' x i = some y
  beside : ∀ j, j ≠ i → child' x j = child x j
  others : ∀ p z, p.length < d → descend child root p = some z → z ≠ x → ∀ j, child' z j = child z j
  empty : path.length + 1 < d → ∀ j, child' y j = none

namespace Grafts
variable {child child' : N → I → Option N} {c d : Nat} {root x y : N} {path : List I} {i : I}

/-- The paths of the new tree are the old ones and the one to the linked node. Only the
nodes that have children need be distinct. -/
theorem descend_iff (grafts : Grafts child child' d root path x i y) (distinct : DistinctTo child c root)
    (le : d ≤ c + 1) {p : List I} (short : p.length ≤ d) (z : N) :
    descend child' root p = some z ↔ descend child root p = some z ∨ (p = path ++ [i] ∧ z = y) := by
  induction p using List.reverseRecOn generalizing z with
  | nil => simp [descend]
  | append_singleton p j ih =>
    have shorter : p.length < d := by
      rw [List.length_append, List.length_singleton] at short
      exact short
    have step : ∀ w, descend child root p = some w →
        (child' w j = some z ↔ child w j = some z ∨ (p ++ [j] = path ++ [i] ∧ z = y)) := by
      intro w found
      by_cases isX : w = x
      · subst isX
        obtain rfl : p = path := distinct p path w (by omega) (by have := grafts.short; omega) found grafts.reached
        by_cases isI : j = i
        · subst isI
          simp [grafts.here, grafts.absent, eq_comm]
        · simp [grafts.beside j isI, isI]
      · have other : p ++ [j] ≠ path ++ [i] := by
          intro same
          obtain ⟨rfl, _⟩ := List.append_inj' same rfl
          exact isX (Option.some.inj (found.symm.trans grafts.reached))
        rw [grafts.others p w shorter found isX j]
        simp [other]
    rw [descend_concat_some, descend_concat_some]
    constructor
    · rintro ⟨w, found, next⟩
      rcases (ih shorter.le w).mp found with before | ⟨rfl, rfl⟩
      · rcases (step w before).mp next with old | new
        · exact .inl ⟨w, before, old⟩
        · exact .inr new
      · -- the new node has no children
        rw [List.length_append, List.length_singleton] at shorter
        rw [grafts.empty shorter j] at next
        simp at next
    · rintro (⟨w, found, next⟩ | ⟨same, rfl⟩)
      · exact ⟨w, (ih shorter.le w).mpr (.inl found), (step w found).mpr (.inl next)⟩
      · obtain ⟨rfl, _⟩ := List.append_inj' same rfl
        exact ⟨x, (ih shorter.le x).mpr (.inl grafts.reached), (step x grafts.reached).mpr (.inr ⟨same, rfl⟩)⟩

theorem distinctTo (grafts : Grafts child child' d root path x i y) (distinct : DistinctTo child c root)
    (le : d ≤ c + 1) (deep : c ≤ d) (fresh : path.length < c → ∀ p, p.length ≤ c → descend child root p ≠ some y) :
    DistinctTo child' c root := by
  have reach : ∀ p z, p.length ≤ c → descend child' root p = some z →
      descend child root p = some z ∨ (p = path ++ [i] ∧ z = y ∧ path.length < c) := by
    intro p z short found
    rcases (grafts.descend_iff distinct le (short.trans deep) z).mp found with old | ⟨rfl, rfl⟩
    · exact .inl old
    · rw [List.length_append, List.length_singleton] at short
      exact .inr ⟨rfl, rfl, short⟩
  intro p q z shortP shortQ reachP reachQ
  rcases reach p z shortP reachP with oldP | ⟨rfl, rfl, inside⟩
  · rcases reach q z shortQ reachQ with oldQ | ⟨rfl, rfl, inside⟩
    · exact distinct p q z shortP shortQ oldP oldQ
    · exact absurd oldP (fresh inside p shortP)
  · rcases reach q z shortQ reachQ with oldQ | ⟨rfl, _, _⟩
    · exact absurd oldQ (fresh inside q shortQ)
    · rfl

end Grafts

end

end Xv6.Library
