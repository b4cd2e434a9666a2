import Xv6.List.Operations

/-! Calls of `kern/list.c` on pointers, and what they mean on sequences.

A run on sequences is a list of calls, each made when its caller may make it: a pushed
node is in no list, a popped list is not empty, a deleted node is in a list. The same
calls on the pointers then return the same nodes, and lead to pointers that spell the
sequences in both directions.
-/

set_option autoImplicit false

namespace Xv6.Lists

open Library

inductive Op (α : Type) where
  | init (que : α)
  | pushFront (que ptr : α)
  | pushBack (que ptr : α)
  | popFront (que : α)
  | popBack (que : α)
  | delete (que : α)

section
variable {α : Type} [DecidableEq α]

def Op.exec (l : Links α) : Op α → Option (Option α × Links α)
  | .init que => some (none, listInit l que)
  | .pushFront que ptr => (listPushFront l que ptr).map fun l => (none, l)
  | .pushBack que ptr => (listPushBack l que ptr).map fun l => (none, l)
  | .popFront que => (listPopFront l que).map fun popped => (some popped.1, popped.2)
  | .popBack que => (listPopBack l que).map fun popped => (some popped.1, popped.2)
  | .delete que => (listDelete l que).map fun l => (none, l)

def execAll (l : Links α) : List (Op α) → Option (List (Option α) × Links α)
  | [] => some ([], l)
  | op :: ops => do
    let (result, l) ← op.exec l
    let (results, l) ← execAll l ops
    some (result :: results, l)

/-! ## The sequences -/

/-- A call on the sequences of the heads in use. A head may be initialized again. -/
inductive Step (lists : α → Option (List α)) : Op α → Option α → (α → Option (List α)) → Prop where
  | init {que : α} (free : ∀ head xs, lists head = some xs → que ∉ xs) :
      Step lists (.init que) none (Function.update lists que (some []))
  | pushFront {que ptr : α} {xs : List α} (found : lists que = some xs) (fresh : Outside lists ptr) :
      Step lists (.pushFront que ptr) none (Function.update lists que (some (ptr :: xs)))
  | pushBack {que ptr : α} {xs : List α} (found : lists que = some xs) (fresh : Outside lists ptr) :
      Step lists (.pushBack que ptr) none (Function.update lists que (some (xs ++ [ptr])))
  | popFront {que x : α} {xs : List α} (found : lists que = some (x :: xs)) :
      Step lists (.popFront que) (some x) (Function.update lists que (some xs))
  | popBack {que x : α} {xs : List α} (found : lists que = some (xs ++ [x])) :
      Step lists (.popBack que) (some x) (Function.update lists que (some xs))
  | delete {head que : α} {xs ys : List α} (found : lists head = some (xs ++ que :: ys)) :
      Step lists (.delete que) none (Function.update lists head (some (xs ++ ys)))

/-- Calls one after another, with what they return. -/
inductive Run : (α → Option (List α)) → List (Op α) → List (Option α) → (α → Option (List α)) → Prop where
  | done {lists : α → Option (List α)} : Run lists [] [] lists
  | next {lists middle last : α → Option (List α)} {op : Op α} {ops : List (Op α)} {result : Option α}
      {results : List (Option α)} (step : Step lists op result middle) (run : Run middle ops results last) :
      Run lists (op :: ops) (result :: results) last

/-- The pointers spell the sequences, and `list.c` can tell. -/
structure Agrees (l : Links α) (lists : α → Option (List α)) : Prop where
  next : ∀ que xs, lists que = some xs → Spells l.next que xs
  prev : ∀ que xs, lists que = some xs → Spells l.prev que xs.reverse
  apart : ∀ que other xs ys, lists que = some xs → lists other = some ys → que ≠ other →
    (que :: xs).Disjoint (other :: ys)
  empty : ∀ que xs, lists que = some xs → listEmpty l que = xs.isEmpty
  front : ∀ que xs, lists que = some xs → listFront l que = some (xs.headD que)
  back : ∀ que xs, lists que = some xs → listBack l que = some (xs.getLastD que)

/-! ## From rings to sequences -/

section
variable {l : Links α} {lists lists' : α → Option (List α)} {que : α} {xs : List α} {op : Op α}
  {ops : List (Op α)} {result : Option α} {results : List (Option α)}

theorem listEmpty_ring (ring : Ring l que xs) : listEmpty l que = xs.isEmpty := by
  rw [listEmpty, ring.next_head]
  cases xs with
  | nil => simp
  | cons x xs =>
    have other : x ≠ que := fun same => ring.head_not_mem (by simp [same])
    simpa using other

theorem Agrees.of_represents (represents : l.Represents lists) : Agrees l lists where
  next que xs found := (represents.ring que xs found).spells
  prev que xs found := (represents.ring que xs found).swap.spells
  apart := represents.apart
  empty que xs found := listEmpty_ring (represents.ring que xs found)
  front que xs found := (represents.ring que xs found).next_head
  back que xs found := (represents.ring que xs found).prev_head

theorem Op.exec_step (represents : l.Represents lists) (step : Step lists op result lists') :
    ∃ m, op.exec l = some (result, m) ∧ m.Represents lists' := by
  cases step with
  | init free =>
    exact ⟨_, rfl, represents.init (ring_listInit l _) free fun a => listInit_outside l⟩
  | pushFront found fresh =>
    have ring := represents.ring _ _ found
    obtain ⟨m, pushed, longer⟩ := ring_listPushFront ring (fresh _ _ found)
    refine ⟨m, by rw [Op.exec, pushed]; rfl, ?_⟩
    apply represents.update found longer
    · intro a member
      cases List.mem_cons.mp member with
      | inl new => exact .inr (new ▸ fresh)
      | inr old => exact .inl old
    · intro a outside notNew
      apply listPushFront_outside ring (fresh _ _ found) pushed outside
      exact fun same => notNew (same ▸ List.mem_cons_self)
  | pushBack found fresh =>
    have ring := represents.ring _ _ found
    obtain ⟨m, pushed, longer⟩ := ring_listPushBack ring (fresh _ _ found)
    refine ⟨m, by rw [Op.exec, pushed]; rfl, ?_⟩
    apply represents.update found longer
    · intro a member
      cases List.mem_append.mp member with
      | inl old => exact .inl old
      | inr new => exact .inr (List.mem_singleton.mp new ▸ fresh)
    · intro a outside notNew
      apply listPushBack_outside ring (fresh _ _ found) pushed outside
      exact fun same => notNew (List.mem_append_right _ (List.mem_singleton.mpr same))
  | popFront found =>
    have ring := represents.ring _ _ found
    obtain ⟨m, popped, shorter⟩ := ring_listPopFront ring
    refine ⟨m, by rw [Op.exec, popped]; rfl, ?_⟩
    apply represents.update found shorter
    · exact fun a member => .inl (List.mem_cons_of_mem _ member)
    · exact fun a outside _ => listPopFront_outside ring popped outside
  | popBack found =>
    have ring := represents.ring _ _ found
    obtain ⟨m, popped, shorter⟩ := ring_listPopBack ring
    refine ⟨m, by rw [Op.exec, popped]; rfl, ?_⟩
    apply represents.update found shorter
    · exact fun a member => .inl (List.mem_append_left _ member)
    · exact fun a outside _ => listPopBack_outside ring popped outside
  | @delete head que before after found =>
    have ring := represents.ring _ _ found
    obtain ⟨m, deleted, shorter⟩ := ring_listDelete ring
    refine ⟨m, by rw [Op.exec, deleted]; rfl, ?_⟩
    apply represents.update found shorter
    · have kept : (before ++ after).Sublist (before ++ que :: after) :=
        (List.sublist_cons_self que after).append_left before
      exact fun a member => .inl (kept.subset member)
    · intro a outside _
      exact listDelete_outside ring (List.mem_append_right _ List.mem_cons_self) deleted outside

theorem execAll_run (represents : l.Represents lists) (run : Run lists ops results lists') :
    ∃ m, execAll l ops = some (results, m) ∧ m.Represents lists' := by
  induction run generalizing l with
  | done => exact ⟨l, rfl, represents⟩
  | next step run ih =>
    obtain ⟨middle, first, represents⟩ := Op.exec_step represents step
    obtain ⟨m, rest, represents⟩ := ih represents
    refine ⟨m, ?_, represents⟩
    simp [execAll, first, rest]

/-- Whatever the memory holds in the beginning, the calls of a run go through, return what
the run returns, and leave pointers that agree with its sequences. -/
theorem execAll_agrees (l : Links α) (run : Run (fun _ => none) ops results lists) :
    ∃ m, execAll l ops = some (results, m) ∧ Agrees m lists := by
  obtain ⟨m, ran, represents⟩ := execAll_run (Links.Represents.empty l) run
  exact ⟨m, ran, Agrees.of_represents represents⟩

end

end

def moves : List (Op Nat) :=
  [.init 0, .init 1, .pushBack 0 2, .pushFront 0 3, .delete 2, .pushBack 1 2, .popFront 0, .popBack 1]

theorem execAll_agrees_moves : ∃ m lists,
    execAll ⟨fun _ => none, fun _ => none⟩ moves =
      some ([none, none, none, none, none, none, some 3, some 2], m) ∧
    Agrees m lists ∧ lists 0 = some [] ∧ lists 1 = some [] := by
  obtain ⟨lists, run, first, second⟩ : ∃ lists,
      Run (fun _ => none) moves [none, none, none, none, none, none, some 3, some 2] lists ∧
      lists 0 = some [] ∧ lists 1 = some [] := by
    have back : Outside (Function.update (Function.update (Function.update (Function.update (Function.update
        (fun _ => none) 0 (some [])) 1 (some [])) 0 (some [2])) 0 (some [3, 2])) 0 (some [3])) 2 := by
      intro head xs found
      simp only [Function.update_apply] at found
      split_ifs at found <;> cases found <;> simp_all
    exact ⟨_,
      .next (.init (Outside.empty 0).not_mem) <|
      .next (.init ((Outside.empty 1).update (by simp)).not_mem) <|
      .next (.pushBack rfl (((Outside.empty 2).update (by simp)).update (by simp))) <|
      .next (.pushFront rfl ((((Outside.empty 3).update (by simp)).update (by simp)).update (by simp))) <|
      .next (@Step.delete _ _ _ 0 2 [3] [] rfl) <|
      .next (.pushBack rfl back) <|
      .next (.popFront rfl) <|
      .next (@Step.popBack _ _ _ 1 2 [] rfl) .done, rfl, rfl⟩
  obtain ⟨m, ran, agrees⟩ := execAll_agrees ⟨fun _ => none, fun _ => none⟩ run
  exact ⟨m, lists, ran, agrees, first, second⟩

end Xv6.Lists
