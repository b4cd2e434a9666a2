import Mathlib.Logic.Function.Basic
import Mathlib.Data.List.Basic

/-! Finite maps kept in a list of slots.

A slot is free, or has an entry for a key. The map takes the first entry of a key, and a new entry
goes to the first free slot, or to a new slot behind the others.
-/

set_option autoImplicit false

namespace Xv6.Library.Slots

section
variable {E K : Type} (key : E → Option K)

def place : List E → Nat
  | [] => 0
  | e :: rest => if key e = none then 0 else place rest + 1

def insert (new : E) : List E → List E
  | [] => [new]
  | e :: rest => if key e = none then new :: rest else e :: insert new rest

def Distinct (list : List E) : Prop := list.Pairwise fun e f => key e = none ∨ key e ≠ key f

variable {key} {k : K} {list : List E} {new : E}

theorem place_le (list : List E) : place key list ≤ list.length := by
  induction list with
  | nil => exact Nat.le_refl 0
  | cons e rest ih =>
    rw [place, List.length_cons]
    split
    · exact Nat.zero_le _
    · exact Nat.succ_le_succ ih

/-- The new entry is at its place, and all other slots are as they were. -/
theorem getElem?_insert (new : E) (list : List E) (n : Nat) :
    (insert key new list)[n]? = if n = place key list then some new else list[n]? := by
  induction list generalizing n with
  | nil =>
    cases n with
    | zero => rfl
    | succ n => rfl
  | cons e rest ih =>
    rw [insert, place]
    by_cases free : key e = none
    · rw [if_pos free, if_pos free]
      cases n with
      | zero => rfl
      | succ n => rfl
    · rw [if_neg free, if_neg free]
      cases n with
      | zero => rfl
      | succ n =>
        rw [List.getElem?_cons_succ, List.getElem?_cons_succ, ih]
        simp only [Nat.succ.injEq]

variable (key) in
theorem length_insert (new : E) (list : List E) : (insert key new list).length =
    if place key list < list.length then list.length else list.length + 1 := by
  induction list with
  | nil => rfl
  | cons e rest ih =>
    rw [insert, place]
    by_cases free : key e = none
    · rw [if_pos free, if_pos free]
      rfl
    · rw [if_neg free, if_neg free, List.length_cons, List.length_cons, ih]
      simp only [Nat.add_lt_add_iff_right]
      split <;> rfl

theorem mem_insert {e : E} (member : e ∈ insert key new list) : e = new ∨ e ∈ list := by
  induction list with
  | nil => exact .inl (List.mem_singleton.mp member)
  | cons f rest ih =>
    rw [insert] at member
    split at member
    · exact (List.mem_cons.mp member).imp_right (List.mem_cons_of_mem f)
    · rcases List.mem_cons.mp member with rfl | later
      · exact .inr List.mem_cons_self
      · exact (ih later).imp_right (List.mem_cons_of_mem f)

variable [DecidableEq K]

variable (key) in
def index (k : K) : List E → Option Nat
  | [] => none
  | e :: rest => if key e = some k then some 0 else (index k rest).map Nat.succ

variable (key) in
def get (k : K) : List E → Option E
  | [] => none
  | e :: rest => if key e = some k then some e else get k rest

variable (key) in
theorem index_get (list : List E) (k : K) : (index key k list).bind (fun n => list[n]?) = get key k list := by
  induction list with
  | nil => rfl
  | cons e rest ih =>
    rw [index, get]
    by_cases here : key e = some k
    · simp only [if_pos here, Option.bind_some, List.getElem?_cons_zero]
    · rw [if_neg here, if_neg here, ← ih]
      cases index key k rest <;> rfl

theorem index_lt {n : Nat} (found : index key k list = some n) : n < list.length := by
  induction list generalizing n with
  | nil => cases found
  | cons e rest ih =>
    rw [index] at found
    by_cases here : key e = some k
    · rw [if_pos here] at found
      cases found
      exact Nat.succ_pos _
    · rw [if_neg here] at found
      obtain ⟨m, before, rfl⟩ := Option.map_eq_some_iff.mp found
      exact Nat.succ_lt_succ (ih before)

theorem get_none_iff : get key k list = none ↔ ∀ e ∈ list, key e ≠ some k := by
  induction list with
  | nil => simp [get]
  | cons e rest ih =>
    rw [get, List.forall_mem_cons]
    by_cases here : key e = some k
    · simp [here]
    · rw [if_neg here, ih]
      exact ⟨fun later => ⟨here, later⟩, And.right⟩

theorem get_some {e : E} (found : get key k list = some e) : e ∈ list ∧ key e = some k := by
  induction list with
  | nil => cases found
  | cons f rest ih =>
    rw [get] at found
    by_cases here : key f = some k
    · rw [if_pos here] at found
      cases found
      exact ⟨List.mem_cons_self, here⟩
    · rw [if_neg here] at found
      exact ⟨List.mem_cons_of_mem _ (ih found).1, (ih found).2⟩

theorem get_append_free {rest : List E} (free : ∀ e ∈ rest, key e = none) :
    get key k (list ++ rest) = get key k list := by
  induction list with
  | nil =>
    apply get_none_iff.mpr
    intro e member named
    rw [free e member] at named
    cases named
  | cons e list ih => rw [List.cons_append, get, get, ih]

theorem get_first {e : E} {n : Nat} (here : list[n]? = some e) (named : key e = some k)
    (absent : ∀ f ∈ list.take n, key f ≠ some k) : get key k list = some e := by
  induction list generalizing n with
  | nil => cases here
  | cons f list ih =>
    rw [get]
    cases n with
    | zero =>
      cases here
      exact if_pos named
    | succ n =>
      rw [List.take_succ_cons, List.forall_mem_cons] at absent
      rw [if_neg absent.1]
      exact ih here absent.2

theorem get_insert_self (named : key new = some k) (absent : get key k list = none) :
    get key k (insert key new list) = some new := by
  induction list with
  | nil => rw [insert, get, if_pos named]
  | cons e rest ih =>
    rw [get_none_iff, List.forall_mem_cons] at absent
    rw [insert]
    by_cases free : key e = none
    · rw [if_pos free, get, if_pos named]
    · rw [if_neg free, get, if_neg absent.1]
      exact ih (get_none_iff.mpr absent.2)

theorem get_insert_of_ne {l : K} (named : key new = some k) (other : l ≠ k) :
    get key l (insert key new list) = get key l list := by
  have notNew : ¬ key new = some l := by
    rw [named, Option.some.injEq]
    exact other.symm
  induction list with
  | nil => exact if_neg notNew
  | cons e rest ih =>
    rw [insert]
    by_cases free : key e = none
    · have notFree : ¬ key e = some l := by
        rw [free]
        exact nofun
      rw [if_pos free, get, if_neg notNew, get, if_neg notFree]
    · rw [if_neg free, get, get, ih]

theorem get_insert (named : key new = some k) (absent : get key k list = none) :
    (fun l => get key l (insert key new list)) = Function.update (fun l => get key l list) k (some new) := by
  funext l
  by_cases same : l = k
  · subst same
    rw [Function.update_self, get_insert_self named absent]
  · rw [Function.update_of_ne same, get_insert_of_ne named same]

theorem Distinct.insert (distinct : Distinct key list) (named : key new = some k)
    (absent : Slots.get key k list = none) :
    Distinct key (Slots.insert key new list) := by
  induction list with
  | nil => exact List.pairwise_singleton _ _
  | cons e rest ih =>
    obtain ⟨first, later⟩ := List.pairwise_cons.mp distinct
    rw [get_none_iff, List.forall_mem_cons] at absent
    rw [Slots.insert]
    by_cases free : key e = none
    · rw [if_pos free]
      refine List.pairwise_cons.mpr ⟨fun f member => .inr fun same => ?_, later⟩
      exact absent.2 f member (same.symm.trans named)
    · rw [if_neg free]
      refine List.pairwise_cons.mpr ⟨fun f member => ?_, ih later (get_none_iff.mpr absent.2)⟩
      rcases mem_insert member with rfl | before
      · exact .inr fun same => absent.1 (same.trans named)
      · exact first f before

end

end Xv6.Library.Slots
