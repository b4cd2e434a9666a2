import Xv6.Vm.Building

/-! What `vm_free` gives back of a page table.

The tables come back and the pages that they map do not, so nothing is lost exactly when
no page is mapped.
-/

set_option autoImplicit false

namespace Xv6.Vm

open Library

def MapsPage (m : Memory) (root page : UInt64) : Prop := ∃ va e, m.lookup root va = some e ∧ frame e = page

/-- `vm_free` puts the root, the other tables and the pages that are mapped on the free list, each
of them once, and no other page. -/
def ReturnsAll (kend root : UInt64) (m : Memory) (free : List UInt64) : Prop :=
  ∃ m' pages, vmFree kend root m = some m' ∧ Free m' (pages ++ free) ∧
    ∀ z, z ∈ pages ↔ Within m.child 4 root z ∨ MapsPage m root z

section
variable {kend root va e : UInt64} {m : Memory} {free : List UInt64}

theorem Linked.unique {word : UInt64 → Fin 512 → UInt64} {r : UInt64} {pages pages' : List UInt64}
    (first : Linked word r pages) (second : Linked word r pages') (notNull : ∀ a ∈ pages, a ≠ 0)
    (notNull' : ∀ a ∈ pages', a ≠ 0) : pages = pages' := by
  induction pages generalizing r pages' with
  | nil =>
    cases pages' with
    | nil => rfl
    | cons a rest => exact absurd (second.1.symm.trans first) (notNull' a List.mem_cons_self)
  | cons a rest ih =>
    cases pages' with
    | nil => exact absurd (first.1.symm.trans second) (notNull a List.mem_cons_self)
    | cons b rest' =>
      obtain ⟨rfl, linked⟩ := first
      obtain ⟨rfl, linked'⟩ := second
      rw [ih linked linked' (fun c member => notNull c (List.mem_cons_of_mem _ member))
        fun c member => notNull' c (List.mem_cons_of_mem _ member)]

theorem Free.unique {free' : List UInt64} (heap : Free m free) (heap' : Free m free') : free = free' := by
  have notNull : ∀ {list : List UInt64}, Free m list → ∀ a ∈ list, a ≠ 0 := by
    rintro list heap a member rfl
    exact absurd (heap.page 0 member).2 (by decide)
  exact heap.linked.unique heap'.linked (notNull heap) (notNull heap')

theorem Tree.mapped_apart (tree : Tree kend root m free) (mapped : m.lookup root va = some e) :
    ¬ Within m.child 4 root (frame e) := by
  obtain ⟨t, reached, present, rfl⟩ := leaf_some.mp mapped
  exact (tree.leaf _ t _ rfl reached present).2

theorem Tree.not_returnsAll (tree : Tree kend root m free) (mapped : m.lookup root va = some e) :
    ¬ ReturnsAll kend root m free := by
  rintro ⟨m', pages, ran, heap, all⟩
  obtain ⟨m₁, tables, freed, reclaimed⟩ := vmFreeDfs_frees tree.heap tree.tables
  obtain rfl : m' = m₁ := Option.some.inj (ran.symm.trans freed)
  obtain rfl : pages = tables := List.append_cancel_right (heap.unique reclaimed.heap)
  have isFreed : frame e ∈ pages := (all (frame e)).mpr (.inr ⟨va, e, mapped, rfl⟩)
  exact tree.mapped_apart mapped ((reclaimed.freed (frame e)).mp isFreed)

/-- `vm_free` returns the whole address space exactly when no page is mapped. -/
theorem vmFree_returns_iff (assembled : Assembled kend root m free) :
    ReturnsAll kend root m free ↔ ∀ va, m.lookup root va = none := by
  constructor
  · intro returns va
    cases mapped : m.lookup root va with
    | none => rfl
    | some e => exact absurd returns (assembled.tree.not_returnsAll mapped)
  · intro unmapped
    obtain ⟨m', pages, freed, reclaimed⟩ := vmFreeDfs_frees assembled.tree.heap assembled.tree.tables
    refine ⟨m', pages, freed, reclaimed.heap, fun z => ?_⟩
    rw [reclaimed.freed, or_iff_left]
    rintro ⟨va, e, mapped, _⟩
    rw [unmapped va] at mapped
    cases mapped

end

def emptyRoot : Memory := (tenPages.pop (P2V 0x100000)).memset (P2V 0x100000)

theorem assembled_emptyRoot : Assembled (P2V 0x100000) (P2V 0x100000) emptyRoot tenAddresses.tail := by
  have above : (tenAddresses.all fun a => P2V 0x100000 ≤ a) = true := by decide +kernel
  refine Assembled.empty free_tenPages fun a member => ?_
  simpa using List.all_eq_true.mp above a member

theorem vmFree_returns_iff_emptyRoot : ReturnsAll (P2V 0x100000) (P2V 0x100000) emptyRoot tenAddresses.tail := by
  refine (vmFree_returns_iff assembled_emptyRoot).mpr fun va => ?_
  have zero : ∀ i, emptyRoot.word (P2V 0x100000) i = 0 := by
    intro i
    simp [emptyRoot, Memory.memset]
  rw [Memory.lookup, leaf_entry, entry_zero zero, if_neg not_present_zero]

/-- The page that `uvm_alloc` has mapped is lost. -/
theorem vmFree_leaks : ¬ ∀ (kend root : UInt64) (m : Memory) (free : List UInt64), Assembled kend root m free →
    ReturnsAll kend root m free := by
  intro always
  have grown : ((uvmAlloc (P2V 0x100000) 0 4096 emptyRoot).any fun out =>
      !out.2.kmemcslock && (out.2.lookup (P2V 0x100000) 0).isSome) = true := by
    decide +kernel
  obtain ⟨⟨r, m⟩, ran, holds⟩ := (Option.any_eq_true _ _).mp grown
  rw [Bool.and_eq_true, Bool.not_eq_true'] at holds
  obtain ⟨e, mapped⟩ := Option.isSome_iff_exists.mp holds.2
  obtain ⟨free, assembled⟩ := assembled_emptyRoot.uvmAlloc ran holds.1
  exact assembled.tree.not_returnsAll mapped (always _ _ _ _ assembled)

end Xv6.Vm
