import Mathlib.Data.List.Chain
import Mathlib.Data.List.Nodup
import Mathlib.Logic.Function.Basic

/-! Circular doubly linked lists threaded through a memory of nodes.

The memory is a pair of partial pointer maps. A head node represents a sequence
when following `next` from it spells the sequence and comes back to the head,
and every node is the `prev` of the node after it.
-/

set_option autoImplicit false

namespace Xv6.Library

/-- The pointer fields of every node; `none` is a null pointer. -/
structure Links (α : Type) where
  next : α → Option α
  prev : α → Option α

namespace Links

section
variable {α : Type}

def Linked (l : Links α) (a b : α) : Prop := l.next a = some b ∧ l.prev b = some a

def swap (l : Links α) : Links α := ⟨l.prev, l.next⟩

@[simp] theorem swap_swap (l : Links α) : l.swap.swap = l := rfl

variable [DecidableEq α]

def setNext (l : Links α) (a : α) (target : Option α) : Links α :=
  { l with next := Function.update l.next a target }

def setPrev (l : Links α) (a : α) (target : Option α) : Links α :=
  { l with prev := Function.update l.prev a target }

@[simp] theorem setNext_next (l : Links α) (a b : α) (target : Option α) :
    (l.setNext a target).next b = if b = a then target else l.next b := Function.update_apply ..

@[simp] theorem setNext_prev (l : Links α) (a : α) (target : Option α) :
    (l.setNext a target).prev = l.prev := rfl

@[simp] theorem setPrev_prev (l : Links α) (a b : α) (target : Option α) :
    (l.setPrev a target).prev b = if b = a then target else l.prev b := Function.update_apply ..

@[simp] theorem setPrev_next (l : Links α) (a : α) (target : Option α) :
    (l.setPrev a target).next = l.next := rfl

/-- Walk along `next` from `it` until the test succeeds or the head is met;
`none` on a null pointer or when the fuel runs out. -/
def scan (l : Links α) (head : α) (test : α → Bool) : Nat → α → Option (Option α)
  | 0, _ => none
  | fuel + 1, it =>
    if it = head then some none
    else if test it then some (some it)
    else (l.next it).bind (scan l head test fuel)

end

/-- A segment only reads `next` of its sources and `prev` of its targets. -/
theorem chain_congr {α : Type} {l m : Links α} {path : List α}
    (next : ∀ a ∈ path.dropLast, m.next a = l.next a) (prev : ∀ b ∈ path.tail, m.prev b = l.prev b)
    (chain : path.IsChain l.Linked) : path.IsChain m.Linked := by
  induction path with
  | nil => exact .nil
  | cons a rest ih =>
    cases rest with
    | nil => exact .singleton a
    | cons b rest =>
      obtain ⟨⟨forward, back⟩, tail⟩ := List.isChain_cons_cons.mp chain
      refine List.isChain_cons_cons.mpr ⟨⟨?_, ?_⟩, ih ?_ ?_ tail⟩
      · exact (next a (by simp)).trans forward
      · exact (prev b (by simp)).trans back
      · exact fun c member => next c (by simp [member])
      · exact fun c member => prev c (by simpa using Or.inr member)

theorem chain_link {α : Type} {l m : Links α} {before after : List α} {a x b : α}
    (chain : (before ++ a :: b :: after).IsChain l.Linked) (into : m.Linked a x) (out : m.Linked x b)
    (next : ∀ c ∈ before ++ (b :: after).dropLast, m.next c = l.next c)
    (prev : ∀ c ∈ (before ++ [a]).tail ++ after, m.prev c = l.prev c) :
    (before ++ a :: x :: b :: after).IsChain m.Linked := by
  obtain ⟨left, _, right⟩ := List.isChain_append_cons_cons.mp chain
  refine List.isChain_append_cons_cons.mpr ⟨?_, into, List.isChain_cons_cons.mpr ⟨out, ?_⟩⟩
  · exact chain_congr (fun c member => next c (List.mem_append_left _ (by simpa using member)))
      (fun c member => prev c (List.mem_append_left _ member)) left
  · exact chain_congr (fun c member => next c (List.mem_append_right _ member))
      (fun c member => prev c (List.mem_append_right _ member)) right

theorem chain_unlink {α : Type} {l m : Links α} {before after : List α} {a x b : α}
    (chain : (before ++ a :: x :: b :: after).IsChain l.Linked) (across : m.Linked a b)
    (next : ∀ c ∈ before ++ (b :: after).dropLast, m.next c = l.next c)
    (prev : ∀ c ∈ (before ++ [a]).tail ++ after, m.prev c = l.prev c) :
    (before ++ a :: b :: after).IsChain m.Linked := by
  obtain ⟨left, _, rest⟩ := List.isChain_append_cons_cons.mp chain
  refine List.isChain_append_cons_cons.mpr ⟨?_, across, ?_⟩
  · exact chain_congr (fun c member => next c (List.mem_append_left _ (by simpa using member)))
      (fun c member => prev c (List.mem_append_left _ member)) left
  · exact chain_congr (fun c member => next c (List.mem_append_right _ member))
      (fun c member => prev c (List.mem_append_right _ member)) (List.isChain_cons_cons.mp rest).2

/-- Every node of a segment but the last is linked to a node behind it. -/
theorem chain_source {α : Type} {l : Links α} {path : List α} {a : α} (chain : path.IsChain l.Linked)
    (source : a ∈ path.dropLast) : ∃ b ∈ path.tail, l.Linked a b := by
  induction path with
  | nil => simp at source
  | cons c rest ih =>
    cases rest with
    | nil => simp at source
    | cons d rest =>
      obtain ⟨linked, tail⟩ := List.isChain_cons_cons.mp chain
      rw [List.dropLast_cons_cons] at source
      rcases List.mem_cons.mp source with rfl | later
      · exact ⟨d, by simp, linked⟩
      · obtain ⟨b, member, found⟩ := ih tail later
        exact ⟨b, by simp at member ⊢; exact Or.inr member, found⟩

end Links

/-- `head` represents the sequence `xs`. -/
structure Ring {α : Type} (l : Links α) (head : α) (xs : List α) : Prop where
  distinct : (head :: xs).Nodup
  chain : (head :: (xs ++ [head])).IsChain l.Linked

namespace Ring

section
variable {α : Type} {l m : Links α} {head : α} {xs ys zs : List α}

theorem head_not_mem (ring : Ring l head xs) : head ∉ xs := (List.nodup_cons.mp ring.distinct).1

theorem nodup (ring : Ring l head xs) : xs.Nodup := (List.nodup_cons.mp ring.distinct).2

theorem swap (ring : Ring l head xs) : Ring l.swap head xs.reverse where
  distinct := by
    simpa [List.nodup_reverse] using ring.distinct
  chain := by
    have same : head :: (xs.reverse ++ [head]) = (head :: (xs ++ [head])).reverse := by simp
    rw [same, List.isChain_reverse]
    exact ring.chain.imp fun a b linked => ⟨linked.2, linked.1⟩

theorem next_head (ring : Ring l head xs) : l.next head = some (xs.headD head) := by
  have chain := ring.chain
  cases xs with
  | nil => exact (List.isChain_cons_cons.mp chain).1.1
  | cons x xs => exact (List.isChain_cons_cons.mp chain).1.1

theorem next_at {x : α} (ring : Ring l head (xs ++ x :: ys)) : l.next x = some (ys.headD head) := by
  have chain : (head :: xs ++ x :: (ys ++ [head])).IsChain l.Linked := by
    have chain := ring.chain
    rwa [List.append_assoc, List.cons_append, ← List.cons_append] at chain
  have tail := chain.right_of_append
  cases ys with
  | nil => exact (List.isChain_cons_cons.mp tail).1.1
  | cons y ys => exact (List.isChain_cons_cons.mp tail).1.1

theorem unique (ring : Ring l head xs) (other : Ring l head ys) : xs = ys := by
  have follow : ∀ (a : α) (xs ys : List α), head ∉ xs → head ∉ ys → (a :: (xs ++ [head])).IsChain l.Linked →
      (a :: (ys ++ [head])).IsChain l.Linked → xs = ys := by
    intro a xs
    induction xs generalizing a with
    | nil =>
      intro ys _ outside chain chain'
      cases ys with
      | nil => rfl
      | cons y ys =>
        have first := (List.isChain_cons_cons.mp chain).1.1
        have same := first.symm.trans (List.isChain_cons_cons.mp chain').1.1
        exact absurd (List.mem_cons.mpr (.inl (Option.some.inj same))) outside
    | cons x xs ih =>
      intro ys outside outside' chain chain'
      obtain ⟨first, chain⟩ := List.isChain_cons_cons.mp chain
      cases ys with
      | nil =>
        have same := first.1.symm.trans (List.isChain_cons_cons.mp chain').1.1
        exact absurd (List.mem_cons.mpr (.inl (Option.some.inj same).symm)) outside
      | cons y ys =>
        obtain ⟨first', chain'⟩ := List.isChain_cons_cons.mp chain'
        cases first.1.symm.trans first'.1
        apply congrArg
        exact ih x ys (fun member => outside (List.mem_cons_of_mem x member))
          (fun member => outside' (List.mem_cons_of_mem x member)) chain chain'
  exact follow head xs ys ring.head_not_mem other.head_not_mem ring.chain other.chain

theorem congr (ring : Ring l head xs)
    (same : ∀ a ∈ head :: xs, m.next a = l.next a ∧ m.prev a = l.prev a) : Ring m head xs where
  distinct := ring.distinct
  chain := by
    refine Links.chain_congr (fun a member => ?_) (fun a member => ?_) ring.chain
    · rw [← List.cons_append, List.dropLast_concat] at member
      exact (same a member).1
    · have closed : a ∈ head :: xs := by simpa [or_comm] using member
      exact (same a closed).2

/-- Writes on the nodes of one ring and on nodes outside another one leave the latter alone. -/
theorem frame {other : α} (ring : Ring l other zs) (apart : (other :: zs).Disjoint (head :: xs))
    (fresh : ∀ a ∈ ys, a ∉ other :: zs)
    (outside : ∀ a, a ∉ head :: xs → a ∉ ys → m.next a = l.next a ∧ m.prev a = l.prev a) :
    Ring m other zs ∧ (head :: ys).Disjoint (other :: zs) := by
  constructor
  · apply ring.congr
    intro a member
    apply outside
    · exact fun inOld => apart member inOld
    · exact fun inNew => fresh a inNew member
  · intro a inNew inOther
    rcases List.mem_cons.mp inNew with rfl | member
    · exact apart inOther List.mem_cons_self
    · exact fresh a member inOther

theorem next_mem {a : α} (ring : Ring l head xs) (member : a ∈ head :: xs) :
    ∃ b ∈ head :: xs, l.next a = some b := by
  obtain ⟨b, target, linked⟩ := Links.chain_source ring.chain
    (by rwa [← List.cons_append, List.dropLast_concat] : a ∈ (head :: (xs ++ [head])).dropLast)
  exact ⟨b, by simpa [or_comm] using target, linked.1⟩

theorem prev_mem {a : α} (ring : Ring l head xs) (member : a ∈ head :: xs) :
    ∃ b ∈ head :: xs, l.prev a = some b := by
  obtain ⟨b, target, linked⟩ := ring.swap.next_mem (a := a) (by simpa using member)
  exact ⟨b, by simpa using target, linked⟩

theorem prev_head (ring : Ring l head xs) : l.prev head = some (xs.getLastD head) := by
  have front : l.prev head = some (xs.reverse.headD head) := ring.swap.next_head
  cases xs using List.reverseRecOn with
  | nil => simpa using front
  | append_singleton xs x => simpa using front

section
variable [DecidableEq α]

theorem scan_chain {test : α → Bool} {fuel : Nat} {a : α}
    (chain : (a :: (xs ++ [head])).IsChain l.Linked) (outside : head ∉ xs) (enough : xs.length < fuel) :
    (l.next a).bind (l.scan head test fuel) = some (xs.find? test) := by
  -- on the nodes ahead; the fuel covers them and the head at the end
  induction xs generalizing a fuel with
  | nil =>
    obtain ⟨⟨forward, _⟩, _⟩ := List.isChain_cons_cons.mp chain
    obtain ⟨fuel, rfl⟩ : ∃ k, fuel = k + 1 := ⟨fuel - 1, by simp at enough; omega⟩
    simp [forward, Links.scan]
  | cons x xs ih =>
    obtain ⟨⟨forward, _⟩, rest⟩ := List.isChain_cons_cons.mp chain
    obtain ⟨fuel, rfl⟩ : ∃ k, fuel = k + 1 := ⟨fuel - 1, by simp at enough; omega⟩
    simp only [List.mem_cons, not_or] at outside
    have tail := ih rest outside.2 (Nat.lt_of_succ_lt_succ enough)
    simp only [forward, Option.bind_some, Links.scan, if_neg (Ne.symm outside.1)]
    by_cases found : test x = true
    · simp [found]
    · simp [found, tail]

/-- A traversal with enough fuel finds the first node of the sequence that passes the test. -/
theorem scan_next (test : α → Bool) {fuel : Nat} (ring : Ring l head xs) (enough : xs.length < fuel) :
    (l.next head).bind (l.scan head test fuel) = some (xs.find? test) :=
  scan_chain ring.chain ring.head_not_mem enough

theorem scan_prev (test : α → Bool) {fuel : Nat} (ring : Ring l head xs) (enough : xs.length < fuel) :
    (l.prev head).bind (l.swap.scan head test fuel) = some (xs.reverse.find? test) :=
  ring.swap.scan_next test (by simpa using enough)

end

end

end Ring

structure Spells {α : Type} (pointer : α → Option α) (head : α) (xs : List α) : Prop where
  distinct : (head :: xs).Nodup
  chain : (head :: (xs ++ [head])).IsChain fun a b => pointer a = some b

theorem Ring.spells {α : Type} {l : Links α} {head : α} {xs : List α} (ring : Ring l head xs) :
    Spells l.next head xs where
  distinct := ring.distinct
  chain := ring.chain.imp fun _ _ linked => linked.1

/-- Several heads in one memory, each with its own sequence and no node in common. -/
structure Rings {α ι : Type} (l : Links α) (heads : ι → α) (xs : ι → List α) : Prop where
  ring : ∀ i, Ring l (heads i) (xs i)
  apart : ∀ i j, i ≠ j → (heads i :: xs i).Disjoint (heads j :: xs j)

namespace Rings

section
variable {α ι : Type} [DecidableEq ι] {l m : Links α} {heads : ι → α} {xs : ι → List α} {ys : List α} {i : ι}

/-- An operation on one ring that leaves the nodes outside it alone. -/
theorem update (rings : Rings l heads xs) (ring : Ring m (heads i) ys)
    (fresh : ∀ j, j ≠ i → ∀ a ∈ ys, a ∉ heads j :: xs j)
    (outside : ∀ a, a ∉ heads i :: xs i → a ∉ ys → m.next a = l.next a ∧ m.prev a = l.prev a) :
    Rings m heads (Function.update xs i ys) := by
  have others : ∀ j, j ≠ i → Ring m (heads j) (xs j) ∧ (heads i :: ys).Disjoint (heads j :: xs j) := by
    intro j other
    exact (rings.ring j).frame (rings.apart j i other) (fresh j other) outside
  constructor
  · intro j
    rcases eq_or_ne j i with rfl | other
    · simpa using ring
    · rw [Function.update_of_ne other]
      exact (others j other).1
  · intro j k different
    rcases eq_or_ne j i with rfl | otherJ
    · simpa [Function.update_of_ne different.symm] using (others k different.symm).2
    · rcases eq_or_ne k i with rfl | otherK
      · simpa [Function.update_of_ne otherJ] using List.disjoint_left.mpr fun _ inJ inK => (others j otherJ).2 inK inJ
      · simpa [Function.update_of_ne otherJ, Function.update_of_ne otherK] using rings.apart j k different

end

end Rings

def Outside {α : Type} (lists : α → Option (List α)) (a : α) : Prop :=
  ∀ head xs, lists head = some xs → a ∉ head :: xs

namespace Outside

section
variable {α : Type} {lists : α → Option (List α)} {head a : α} {xs : List α}

theorem empty (a : α) : Outside (fun _ => none) a := by
  intro head xs found
  cases found

theorem not_mem (outside : Outside lists a) (head : α) (xs : List α) (found : lists head = some xs) : a ∉ xs :=
  fun member => outside head xs found (List.mem_cons_of_mem head member)

theorem update [DecidableEq α] (outside : Outside lists a) (absent : a ∉ head :: xs) :
    Outside (Function.update lists head (some xs)) a := by
  intro other ys found
  rcases eq_or_ne other head with rfl | different
  · rw [Function.update_self] at found
    cases found
    exact absent
  · rw [Function.update_of_ne different] at found
    exact outside other ys found

end

end Outside

/-- The nodes that are in use as heads represent their sequences, with no node in common. -/
structure Links.Represents {α : Type} (l : Links α) (lists : α → Option (List α)) : Prop where
  ring : ∀ head xs, lists head = some xs → Ring l head xs
  apart : ∀ head other xs ys, lists head = some xs → lists other = some ys → head ≠ other →
    (head :: xs).Disjoint (other :: ys)

namespace Links.Represents

section
variable {α : Type} {l m : Links α} {lists : α → Option (List α)} {head : α} {xs ys : List α}

/-- No head is in use, whatever the memory holds. -/
theorem empty (l : Links α) : l.Represents fun _ => none where
  ring := by simp
  apart := by simp

variable [DecidableEq α]

theorem insert (represents : l.Represents lists) (ring : Ring m head ys)
    (others : ∀ other zs, lists other = some zs → other ≠ head →
      Ring m other zs ∧ (head :: ys).Disjoint (other :: zs)) :
    m.Represents (Function.update lists head (some ys)) := by
  constructor
  · intro a zs found
    rcases eq_or_ne a head with rfl | other
    · rw [Function.update_self] at found
      cases found
      exact ring
    · rw [Function.update_of_ne other] at found
      exact (others a zs found other).1
  · intro a b as bs foundA foundB different
    rcases eq_or_ne a head with rfl | otherA
    · rw [Function.update_self] at foundA
      rw [Function.update_of_ne different.symm] at foundB
      cases foundA
      exact (others b bs foundB different.symm).2
    · rw [Function.update_of_ne otherA] at foundA
      rcases eq_or_ne b head with rfl | otherB
      · rw [Function.update_self] at foundB
        cases foundB
        exact fun _ inA inB => (others a as foundA otherA).2 inB inA
      · rw [Function.update_of_ne otherB] at foundB
        exact represents.apart a b as bs foundA foundB different

/-- A node that is an element of no list becomes the head of an empty one. -/
theorem init (represents : l.Represents lists) (ring : Ring m head [])
    (free : ∀ other zs, lists other = some zs → head ∉ zs)
    (outside : ∀ a, a ≠ head → m.next a = l.next a ∧ m.prev a = l.prev a) :
    m.Represents (Function.update lists head (some [])) := by
  apply represents.insert ring
  intro other zs found different
  have apart : (other :: zs).Disjoint [head] := by
    simpa using ⟨different.symm, free other zs found⟩
  apply (represents.ring other zs found).frame apart
  · simp
  · intro a notHead _
    exact outside a (by simpa using notHead)

/-- An operation on the list of one head, on its nodes and on nodes in no list. -/
theorem update (represents : l.Represents lists) (found : lists head = some xs) (ring : Ring m head ys)
    (fresh : ∀ a ∈ ys, a ∈ xs ∨ Outside lists a)
    (outside : ∀ a, a ∉ head :: xs → a ∉ ys → m.next a = l.next a ∧ m.prev a = l.prev a) :
    m.Represents (Function.update lists head (some ys)) := by
  apply represents.insert ring
  intro other zs otherFound different
  have apart := represents.apart other head zs xs otherFound found different
  apply (represents.ring other zs otherFound).frame apart _ outside
  intro a member inOther
  cases fresh a member with
  | inl old => exact apart inOther (List.mem_cons_of_mem head old)
  | inr new => exact new other zs otherFound inOther

end

end Links.Represents

end Xv6.Library
