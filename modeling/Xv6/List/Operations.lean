import Xv6.Library.Ring

/-! The intrusive lists of `kern/list.c`.

Every function follows the assignments of its source in order, on the pointer
fields of an arbitrary type of nodes. Dereferencing a null pointer is `none`.
The theorems state each operation's effect on the sequence a head represents.
-/

set_option autoImplicit false

namespace Xv6

open Library

section
variable {α : Type} [DecidableEq α]

def listInit (l : Links α) (que : α) : Links α :=
  (l.setPrev que (some que)).setNext que (some que)

def listPushFront (l : Links α) (que ptr : α) : Option (Links α) :=
  if l.next que = some que then
    let l := (l.setNext que (some ptr)).setPrev que (some ptr)
    some ((l.setNext ptr (some que)).setPrev ptr (some que))
  else
    let l := (l.setNext ptr (l.next que)).setPrev ptr (some que)
    -- que->next->prev = ptr
    (l.next que).map fun front => (l.setPrev front (some ptr)).setNext que (some ptr)

def listPushBack (l : Links α) (que ptr : α) : Option (Links α) :=
  if l.next que = some que then
    let l := (l.setNext que (some ptr)).setPrev que (some ptr)
    some ((l.setNext ptr (some que)).setPrev ptr (some que))
  else
    let l := (l.setPrev ptr (l.prev que)).setNext ptr (some que)
    -- que->prev->next = ptr
    (l.prev que).map fun back => (l.setNext back (some ptr)).setPrev que (some ptr)

def listFront (l : Links α) (que : α) : Option α := l.next que

def listBack (l : Links α) (que : α) : Option α := l.prev que

def listEmpty (l : Links α) (que : α) : Bool := decide (l.next que = some que)

def listDelete (l : Links α) (que : α) : Option (Links α) := do
  -- que->prev->next = que->next
  let before ← l.prev que
  let l := l.setNext before (l.next que)
  -- que->next->prev = que->prev
  let after ← l.next que
  let l := l.setPrev after (l.prev que)
  some ((l.setPrev que none).setNext que none)

def listPopFront (l : Links α) (que : α) : Option (α × Links α) := do
  let ptr ← l.next que
  -- que->next = que->next->next
  let l := l.setNext que (l.next ptr)
  -- que->next->prev = que
  let front ← l.next que
  some (ptr, l.setPrev front (some que))

def listPopBack (l : Links α) (que : α) : Option (α × Links α) := do
  let ptr ← l.prev que
  -- que->prev = que->prev->prev
  let l := l.setPrev que (l.prev ptr)
  -- que->prev->next = que
  let back ← l.prev que
  some (ptr, l.setNext back (some que))

theorem ring_listInit (l : Links α) (que : α) : Ring (listInit l que) que [] where
  distinct := by simp
  chain := by simp [listInit, Links.Linked]

theorem ring_listPushFront {l : Links α} {que ptr : α} {xs : List α} (ring : Ring l que xs)
    (fresh : ptr ∉ que :: xs) :
    ∃ m, listPushFront l que ptr = some m ∧ Ring m que (ptr :: xs) := by
  obtain ⟨notHead, notIn⟩ := not_or.mp (List.mem_cons.not.mp fresh)
  have front := ring.next_head
  have distinct := ring.distinct
  cases xs with
  | nil =>
    -- the source has a branch of its own for an empty list
    simp only [List.headD_nil] at front
    refine ⟨_, by rw [listPushFront, if_pos front], ⟨by simp [Ne.symm notHead], ?_⟩⟩
    simp [Links.Linked, Ne.symm notHead]
  | cons x xs =>
    simp only [List.headD_cons] at front
    simp only [List.nodup_cons, List.mem_cons, not_or] at distinct notIn
    obtain ⟨⟨headNe, outside⟩, notInRest, _⟩ := distinct
    have notEmpty : l.next que ≠ some que := by
      rw [front]
      exact fun same => headNe (Option.some.inj same).symm
    refine ⟨(((l.setNext ptr (some x)).setPrev ptr (some que)).setPrev x (some ptr)).setNext que (some ptr),
      ?_, ⟨?_, ?_⟩⟩
    · rw [listPushFront, if_neg notEmpty, front]
      simp [front, Ne.symm notHead]
    · simp only [List.nodup_cons, List.mem_cons, not_or]
      exact ⟨⟨Ne.symm notHead, headNe, outside⟩, notIn, notInRest, by assumption⟩
    · have chain : ([] ++ que :: x :: (xs ++ [que])).IsChain l.Linked := ring.chain
      refine Links.chain_link chain ⟨by simp, by simp [notIn.1]⟩ ⟨by simp [notHead], by simp⟩ ?_ ?_
      · -- the sources behind the new node are the old elements
        intro c member
        rw [List.nil_append, ← List.cons_append, List.dropLast_concat] at member
        have old : c = x ∨ c ∈ xs := List.mem_cons.mp member
        have notQue : c ≠ que := by rintro rfl; tauto
        have notPtr : c ≠ ptr := by rintro rfl; tauto
        simp [notQue, notPtr]
      · intro c member
        have old : c ∈ xs ∨ c = que := by simpa using member
        have notFront : c ≠ x := by rintro rfl; tauto
        have notPtr : c ≠ ptr := by rintro rfl; tauto
        simp [notFront, notPtr]

theorem ring_listDelete {l : Links α} {que x : α} {xs ys : List α} (ring : Ring l que (xs ++ x :: ys)) :
    ∃ m, listDelete l x = some m ∧ Ring m que (xs ++ ys) := by
  -- name the neighbours of `x` on the closed path from the head to itself
  obtain ⟨before, a, left⟩ : ∃ before a, que :: xs = before ++ [a] :=
    ⟨_, _, (List.dropLast_append_getLast (List.cons_ne_nil que xs)).symm⟩
  obtain ⟨b, after, right⟩ : ∃ b after, ys ++ [que] = b :: after := by
    cases ys with
    | nil => exact ⟨que, [], rfl⟩
    | cons y ys => exact ⟨y, ys ++ [que], rfl⟩
  have path : que :: ((xs ++ x :: ys) ++ [que]) = before ++ a :: x :: b :: after := by
    rw [List.append_assoc, List.cons_append, right, ← List.cons_append, left]
    simp
  have distinct : (que :: xs ++ x :: ys).Nodup := ring.distinct
  -- every node occurs once, so the writes below do not hit each other
  obtain ⟨leftNodup, tailNodup, apart⟩ := List.nodup_append'.mp distinct
  obtain ⟨xNotRight, ysNodup⟩ := List.nodup_cons.mp tailNodup
  have xNotLeft : x ∉ que :: xs := fun member => apart member List.mem_cons_self
  have rightNodup : (ys ++ [que]).Nodup :=
    ysNodup.append (List.nodup_singleton que) (by
      simpa using fun member => apart List.mem_cons_self (List.mem_cons_of_mem x member))
  have aMember : a ∈ que :: xs := left ▸ List.mem_append_right _ (List.mem_singleton_self a)
  have bMember : b ∈ ys ++ [que] := right ▸ List.mem_cons_self
  have aNe : a ≠ x := fun same => xNotLeft (same ▸ aMember)
  have bNotIn : b ∉ xs := by
    intro member
    rcases List.mem_append.mp bMember with inRight | isHead
    · exact apart (List.mem_cons_of_mem que member) (List.mem_cons_of_mem x inRight)
    · exact ring.head_not_mem (List.mem_append_left _ (List.mem_singleton.mp isHead ▸ member))
  have xNotBehind : x ∉ ys ++ [que] := by
    simp only [List.mem_append, List.mem_singleton, not_or]
    exact ⟨xNotRight, fun same => xNotLeft (same ▸ List.mem_cons_self)⟩
  have chain := ring.chain
  rw [path] at chain
  obtain ⟨_, ⟨_, back⟩, rest⟩ := List.isChain_append_cons_cons.mp chain
  obtain ⟨⟨forward, _⟩, _⟩ := List.isChain_cons_cons.mp rest
  refine ⟨(((l.setNext a (some b)).setPrev b (some a)).setPrev x none).setNext x none, ?_, ?_, ?_⟩
  · simp [listDelete, back, forward]
  · exact distinct.sublist ((List.sublist_cons_self x ys).append_left (que :: xs))
  · have shorter : que :: ((xs ++ ys) ++ [que]) = before ++ a :: b :: after := by
      rw [List.append_assoc, right, ← List.cons_append, left]
      simp
    rw [shorter]
    refine Links.chain_unlink chain ⟨by simp [aNe], ?_⟩ ?_ ?_
    · have bNe : b ≠ x := fun same => xNotBehind (same ▸ bMember)
      simp [bNe]
    · -- sources on the left of `a`, or the elements behind `x`
      intro c member
      rw [← right, List.dropLast_concat] at member
      have notA : c ≠ a := by
        rintro rfl
        rcases List.mem_append.mp member with inLeft | inRight
        · exact (List.nodup_append'.mp (left ▸ leftNodup)).2.2 inLeft (List.mem_singleton_self c)
        · exact apart aMember (List.mem_cons_of_mem x inRight)
      have notX : c ≠ x := by
        rintro rfl
        rcases List.mem_append.mp member with inLeft | inRight
        · exact xNotLeft (left ▸ List.mem_append_left _ inLeft)
        · exact xNotRight inRight
      simp [notA, notX]
    · -- targets up to `a`, or the elements behind `b`
      intro c member
      rw [← left, List.tail_cons] at member
      have notB : c ≠ b := by
        rintro rfl
        rcases List.mem_append.mp member with inLeft | behind
        · exact bNotIn inLeft
        · exact (List.nodup_cons.mp (right ▸ rightNodup)).1 behind
      have notX : c ≠ x := by
        rintro rfl
        rcases List.mem_append.mp member with inLeft | behind
        · exact xNotLeft (List.mem_cons_of_mem que inLeft)
        · exact xNotBehind (right ▸ List.mem_cons_of_mem b behind)
      simp [notB, notX]

/-- On a ring, pushing at the back is pushing at the front of the list read backwards. -/
theorem listPushBack_swap {l : Links α} {que ptr : α} {xs : List α} (ring : Ring l que xs) :
    listPushBack l que ptr = (listPushFront l.swap que ptr).map Links.swap := by
  have front := ring.next_head
  have back := ring.prev_head
  cases xs using List.reverseRecOn with
  | nil =>
    simp only [List.headD_nil, List.getLastD_nil] at front back
    rw [listPushBack, if_pos front, listPushFront, if_pos (show l.swap.next que = some que from back)]
    rfl
  | append_singleton xs x =>
    have notHead : x ≠ que := fun same => ring.head_not_mem (by simp [same])
    simp only [List.getLastD_concat] at back
    have notEmpty : l.next que ≠ some que := by
      rw [front]
      intro same
      cases xs with
      | nil => exact notHead (Option.some.inj same)
      | cons y ys =>
        have isHead : y = que := Option.some.inj same
        exact ring.head_not_mem (by simp [isHead])
    have notEmptyBack : l.swap.next que ≠ some que := by
      change l.prev que ≠ _
      rw [back]
      exact fun same => notHead (Option.some.inj same)
    rw [listPushBack, if_neg notEmpty, listPushFront, if_neg notEmptyBack, Option.map_map]
    rfl

theorem ring_listPushBack {l : Links α} {que ptr : α} {xs : List α} (ring : Ring l que xs)
    (fresh : ptr ∉ que :: xs) :
    ∃ m, listPushBack l que ptr = some m ∧ Ring m que (xs ++ [ptr]) := by
  obtain ⟨m, pushed, back⟩ := ring_listPushFront ring.swap
    (show ptr ∉ que :: xs.reverse by simpa using fresh)
  refine ⟨m.swap, by rw [listPushBack_swap ring, pushed]; rfl, ?_⟩
  simpa using back.swap

theorem ring_listPopFront {l : Links α} {que x : α} {xs : List α} (ring : Ring l que (x :: xs)) :
    ∃ m, listPopFront l que = some (x, m) ∧ Ring m que xs := by
  obtain ⟨b, after, right⟩ : ∃ b after, xs ++ [que] = b :: after := by
    cases xs with
    | nil => exact ⟨que, [], rfl⟩
    | cons y ys => exact ⟨y, ys ++ [que], rfl⟩
  have chain := ring.chain
  rw [List.cons_append, right, ← List.nil_append (que :: _)] at chain
  obtain ⟨⟨forward, _⟩, rest⟩ := List.isChain_cons_cons.mp chain
  obtain ⟨⟨behind, _⟩, _⟩ := List.isChain_cons_cons.mp rest
  have distinct : (que :: x :: xs).Nodup := ring.distinct
  have behindNodup : (xs ++ [que]).Nodup := by
    have apart : que ∉ xs := fun member => (List.nodup_cons.mp distinct).1 (List.mem_cons_of_mem x member)
    exact (List.nodup_cons.mp (List.nodup_cons.mp distinct).2).2.append (List.nodup_singleton que)
      (by simpa using apart)
  refine ⟨(l.setNext que (some b)).setPrev b (some que), ?_, ?_, ?_⟩
  · simp [listPopFront, forward, behind]
  · exact distinct.sublist ((List.sublist_cons_self x xs).cons_cons que)
  · rw [right, ← List.nil_append (que :: _)]
    refine Links.chain_unlink chain ⟨by simp, by simp⟩ ?_ ?_
    · -- the sources are the elements behind `x`
      intro c member
      rw [List.nil_append, ← right, List.dropLast_concat] at member
      have notHead : c ≠ que := by
        rintro rfl
        exact ring.head_not_mem (List.mem_cons_of_mem x member)
      simp [notHead]
    · -- the targets are the elements behind `b`
      intro c member
      have notFront : c ≠ b := by
        rintro rfl
        exact (List.nodup_cons.mp (right ▸ behindNodup)).1 (by simpa using member)
      simp [notFront]

-- Popping at the back is popping at the front of the list read backwards.
theorem listPopBack_swap (l : Links α) (que : α) :
    listPopBack l que = (listPopFront l.swap que).map fun popped => (popped.1, popped.2.swap) := by
  simp only [listPopBack, listPopFront, Option.bind_eq_bind, Option.map_bind, Function.comp_def, Option.map_some]
  rfl

theorem ring_listPopBack {l : Links α} {que x : α} {xs : List α} (ring : Ring l que (xs ++ [x])) :
    ∃ m, listPopBack l que = some (x, m) ∧ Ring m que xs := by
  have backwards : Ring l.swap que (x :: xs.reverse) := by simpa using ring.swap
  obtain ⟨m, popped, shorter⟩ := ring_listPopFront backwards
  exists m.swap
  constructor
  · rw [listPopBack_swap, popped]
    rfl
  · simpa using shorter.swap

theorem listInit_outside (l : Links α) {que a : α} (notHead : a ≠ que) :
    (listInit l que).next a = l.next a ∧ (listInit l que).prev a = l.prev a := by
  simp [listInit, notHead]

theorem listPushBack_outside {l m : Links α} {que ptr a : α} {xs : List α} (ring : Ring l que xs)
    (fresh : ptr ∉ que :: xs) (pushed : listPushBack l que ptr = some m) (outside : a ∉ que :: xs)
    (notNew : a ≠ ptr) : m.next a = l.next a ∧ m.prev a = l.prev a := by
  have notHead : a ≠ que := fun same => outside (by simp [same])
  rw [listPushBack] at pushed
  split at pushed
  · cases pushed
    simp [notHead, notNew]
  · obtain ⟨last, member, isLast⟩ := ring.prev_mem List.mem_cons_self
    have notLast : a ≠ last := fun same => outside (same ▸ member)
    have headNe : que ≠ ptr := fun same => fresh (by simp [same])
    simp only [isLast, Links.setNext_prev, Links.setPrev_prev, if_neg headNe, Option.map_some,
      Option.some.injEq] at pushed
    subst pushed
    simp [notHead, notNew, notLast]

theorem listPushFront_outside {l m : Links α} {que ptr a : α} {xs : List α} (ring : Ring l que xs)
    (fresh : ptr ∉ que :: xs) (pushed : listPushFront l que ptr = some m) (outside : a ∉ que :: xs)
    (notNew : a ≠ ptr) : m.next a = l.next a ∧ m.prev a = l.prev a := by
  -- the list read backwards, with the fields in each other's place
  have backwards : listPushBack l.swap que ptr = some m.swap := by
    rw [listPushBack_swap ring.swap, Links.swap_swap, pushed]
    rfl
  have kept := listPushBack_outside ring.swap (by simpa using fresh) backwards (by simpa using outside) notNew
  exact kept.symm

theorem listPopFront_outside {l m : Links α} {que x a : α} {xs : List α} (ring : Ring l que xs)
    (popped : listPopFront l que = some (x, m)) (outside : a ∉ que :: xs) :
    m.next a = l.next a ∧ m.prev a = l.prev a := by
  obtain ⟨ptr, member, first⟩ := ring.next_mem List.mem_cons_self
  obtain ⟨front, frontMember, second⟩ := ring.next_mem member
  have notHead : a ≠ que := fun same => outside (by simp [same])
  have notFront : a ≠ front := fun same => outside (same ▸ frontMember)
  simp only [listPopFront, first, second, Option.bind_eq_bind, Option.bind_some, Links.setNext_next, if_true,
    Option.some.injEq, Prod.mk.injEq] at popped
  rw [← popped.2]
  simp [notHead, notFront]

theorem listPopBack_outside {l m : Links α} {que x a : α} {xs : List α} (ring : Ring l que xs)
    (popped : listPopBack l que = some (x, m)) (outside : a ∉ que :: xs) :
    m.next a = l.next a ∧ m.prev a = l.prev a := by
  rw [listPopBack_swap] at popped
  obtain ⟨⟨y, k⟩, backwards, same⟩ := Option.map_eq_some_iff.mp popped
  cases same
  have kept := listPopFront_outside ring.swap backwards (by simpa using outside)
  exact kept.symm

theorem listDelete_outside {l m : Links α} {que x a : α} {xs : List α} (ring : Ring l que xs)
    (member : x ∈ xs) (deleted : listDelete l x = some m) (outside : a ∉ que :: xs) :
    m.next a = l.next a ∧ m.prev a = l.prev a := by
  have inside : x ∈ que :: xs := List.mem_cons_of_mem que member
  obtain ⟨before, beforeMember, back⟩ := ring.prev_mem inside
  obtain ⟨after, afterMember, forward⟩ := ring.next_mem inside
  have notX : a ≠ x := fun same => outside (same ▸ inside)
  have notBefore : a ≠ before := fun same => outside (same ▸ beforeMember)
  have notAfter : a ≠ after := fun same => outside (same ▸ afterMember)
  have again : (l.setNext before (some after)).next x = some after := by simp [forward]
  simp only [listDelete, back, forward, again, Option.bind_eq_bind, Option.bind_some, Option.some.injEq] at deleted
  subst deleted
  simp [notX, notBefore, notAfter]

section
variable {ι : Type} [DecidableEq ι] {l : Links α} {heads : ι → α} {xs : ι → List α} {i : ι}

theorem rings_listPushBack {ptr : α} (rings : Rings l heads xs) (fresh : ∀ j, ptr ∉ heads j :: xs j) :
    ∃ m, listPushBack l (heads i) ptr = some m ∧
      Rings m heads (Function.update xs i (xs i ++ [ptr])) := by
  obtain ⟨m, pushed, ring⟩ := ring_listPushBack (rings.ring i) (fresh i)
  refine ⟨m, pushed, rings.update ring ?_ ?_⟩
  · intro j other a member
    rcases List.mem_append.mp member with old | new
    · exact fun inOther => rings.apart j i other inOther (List.mem_cons_of_mem _ old)
    · exact List.mem_singleton.mp new ▸ fresh j
  · intro a outside notNew
    exact listPushBack_outside (rings.ring i) (fresh i) pushed outside (by
      rintro rfl
      exact notNew (by simp))

theorem rings_listDelete {x : α} (rings : Rings l heads xs) (member : x ∈ xs i) :
    ∃ m, listDelete l x = some m ∧ Rings m heads (Function.update xs i ((xs i).erase x)) := by
  obtain ⟨before, after, notBefore, split, erased⟩ := List.exists_erase_eq member
  have whole := rings.ring i
  rw [split] at whole
  obtain ⟨m, deleted, ring⟩ := ring_listDelete whole
  rw [erased]
  refine ⟨m, deleted, rings.update ring ?_ ?_⟩
  · intro j other a inRest inOther
    have old : a ∈ xs i := split ▸ by
      rcases List.mem_append.mp inRest with inBefore | inAfter
      · exact List.mem_append_left _ inBefore
      · exact List.mem_append_right _ (List.mem_cons_of_mem x inAfter)
    exact rings.apart j i other inOther (List.mem_cons_of_mem _ old)
  · intro a outside _
    exact listDelete_outside (rings.ring i) member deleted outside

end

end

end Xv6
