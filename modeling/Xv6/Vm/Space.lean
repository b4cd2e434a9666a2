import Xv6.Vm.Memory
import Mathlib.Data.List.Nodup
import Mathlib.Data.List.Perm.Subperm
import Mathlib.Tactic.NormNum

/-! The free list and the page tables as structures in memory.

A page table is a radix tree of four levels of indices: the tables, and below them the
pages that are mapped. Its tables are distinct and none of its pages is free, so a page
from the allocator can be linked in without touching anything else.
-/

set_option autoImplicit false

namespace Xv6.Vm

open Library

/-! ## Words -/

def Present (pte : UInt64) : Prop := pte &&& PTE_P ≠ 0

instance (pte : UInt64) : Decidable (Present pte) := inferInstanceAs (Decidable (_ ≠ _))

-- `PTE_FLAGS(pte)`
def PTE_FLAGS (pte : UInt64) : UInt64 := pte &&& 0xFFF

-- The bits that `map_region` sets in every entry.
def fixed : UInt64 := PTE_P ||| PTE_TABLE ||| PTE_AF ||| PTE_NORMAL ||| PTE_USER ||| PTE_SH

theorem P2V_V2P (a : UInt64) : P2V (V2P a) = a := by simp [P2V, V2P]

theorem V2P_aligned {a : UInt64} (aligned : a.toNat % 4096 = 0) : (V2P a).toNat % 4096 = 0 := by
  simp only [V2P, KERNBASE, UInt64.toNat_sub, UInt64.reduceToNat]
  omega

theorem or_shift {x f : UInt64} (aligned : x.toNat % 4096 = 0) (low : f.toNat < 4096) :
    (x ||| f) >>> 12 <<< 12 = x := by
  apply UInt64.toNat_inj.mp
  have small := x.toNat_lt
  have zero : f.toNat >>> (12 % 64) = 0 := by
    rw [Nat.shiftRight_eq_div_pow]
    exact Nat.div_eq_of_lt low
  simp only [UInt64.toNat_shiftLeft, UInt64.toNat_shiftRight, UInt64.toNat_or, UInt64.reduceToNat,
    Nat.shiftRight_or_distrib, zero, Nat.or_zero]
  rw [Nat.shiftRight_eq_div_pow, Nat.shiftLeft_eq]
  norm_num
  omega

theorem frame_entry {a f : UInt64} (aligned : a.toNat % 4096 = 0) (low : f.toNat < 4096) :
    frame (V2P a ||| f) = a := by
  rw [frame, or_shift (V2P_aligned aligned) low, P2V_V2P]

theorem PTE_FLAGS_toNat (pte : UInt64) : (PTE_FLAGS pte).toNat = pte.toNat % 4096 := by
  simpa [PTE_FLAGS] using Nat.and_two_pow_sub_one_eq_mod pte.toNat 12

theorem PTE_FLAGS_entry {x f : UInt64} (aligned : x.toNat % 4096 = 0) (low : f.toNat < 4096) :
    PTE_FLAGS (x ||| f) = f := by
  apply UInt64.toNat_inj.mp
  have split := Nat.or_mod_two_pow (a := x.toNat) (b := f.toNat) (n := 12)
  rw [PTE_FLAGS_toNat, UInt64.toNat_or]
  rw [show (2 : Nat) ^ 12 = 4096 from rfl, aligned, Nat.zero_or] at split
  exact split.trans (Nat.mod_eq_of_lt low)

theorem shift_flags (pte : UInt64) : pte <<< 52 >>> 52 = PTE_FLAGS pte := by
  apply UInt64.toNat_inj.mp
  rw [PTE_FLAGS_toNat]
  simp only [UInt64.toNat_shiftLeft, UInt64.toNat_shiftRight, UInt64.reduceToNat, Nat.shiftRight_eq_div_pow,
    Nat.shiftLeft_eq]
  norm_num
  omega

theorem PTE_FLAGS_or_fixed {pte : UInt64} (made : pte ||| fixed = pte) : PTE_FLAGS pte ||| fixed = PTE_FLAGS pte := by
  apply UInt64.toNat_inj.mp
  have split := Nat.or_mod_two_pow (a := pte.toNat) (b := fixed.toNat) (n := 12)
  have same := congrArg UInt64.toNat made
  rw [UInt64.toNat_or] at same
  rw [same, show (2 : Nat) ^ 12 = 4096 from rfl, Nat.mod_eq_of_lt (by decide : fixed.toNat < 4096)] at split
  rw [UInt64.toNat_or, PTE_FLAGS_toNat]
  exact split.symm

/-! ## Memory -/

theorem store_word {m : Memory} {page x : UInt64} (other : x ≠ page) (i : Fin 512) (value : UInt64) :
    (m.store page i value).word x = m.word x := Function.update_of_ne other ..

theorem store_self (m : Memory) (page : UInt64) (i : Fin 512) (value : UInt64) :
    (m.store page i value).word page i = value := by
  simp [Memory.store]

theorem store_beside {i j : Fin 512} (m : Memory) (page : UInt64) (other : j ≠ i) (value : UInt64) :
    (m.store page i value).word page j = m.word page j := by
  simp [Memory.store, other]

theorem memset_word {m : Memory} {page x : UInt64} (other : x ≠ page) : (m.memset page).word x = m.word x :=
  Function.update_of_ne other ..

theorem memcpy_word {m : Memory} {page x : UInt64} (other : x ≠ page) (src : UInt64) :
    (m.memcpy page src).word x = m.word x := Function.update_of_ne other ..

/-! ## The free list -/

def Linked (word : UInt64 → Fin 512 → UInt64) : UInt64 → List UInt64 → Prop
  | r, [] => r = 0
  | r, a :: rest => r = a ∧ Linked word (word a 0) rest

instance Linked.decide (word : UInt64 → Fin 512 → UInt64) : (r : UInt64) → (free : List UInt64) →
    Decidable (Linked word r free)
  | r, [] => inferInstanceAs (Decidable (r = 0))
  | r, a :: rest =>
    have := Linked.decide word (word a 0) rest
    inferInstanceAs (Decidable (r = a ∧ Linked word (word a 0) rest))

theorem Linked.congr {word word' : UInt64 → Fin 512 → UInt64} {r : UInt64} {free : List UInt64}
    (linked : Linked word r free) (same : ∀ a ∈ free, word' a = word a) : Linked word' r free := by
  induction free generalizing r with
  | nil => exact linked
  | cons a rest ih =>
    refine ⟨linked.1, ?_⟩
    rw [same a List.mem_cons_self]
    exact ih linked.2 fun b inRest => same b (List.mem_cons_of_mem a inRest)

def Memory.pop (m : Memory) (a : UInt64) : Memory := { m with free_list := m.word a 0 }

-- A page that `kfree` accepts.
def IsPage (a : UInt64) : Prop := a.toNat % 4096 = 0 ∧ V2P a < PHYSTOP

instance (a : UInt64) : Decidable (IsPage a) := inferInstanceAs (Decidable (_ ∧ _))

/-- The pages of the free list, and nobody has its lock. -/
structure Free (m : Memory) (free : List UInt64) : Prop where
  linked : Linked m.word m.free_list free
  nodup : free.Nodup
  page : ∀ a ∈ free, IsPage a
  unlocked : m.kmemcslock = false

namespace Free
variable {m : Memory} {free rest : List UInt64} {a : UInt64}

theorem congr {m' : Memory} (heap : Free m free) (words : ∀ a ∈ free, m'.word a = m.word a)
    (list : m'.free_list = m.free_list) (lock : m'.kmemcslock = m.kmemcslock) : Free m' free := by
  refine ⟨?_, heap.nodup, heap.page, lock.trans heap.unlocked⟩
  rw [list]
  exact heap.linked.congr words

theorem store (heap : Free m free) (used : a ∉ free) (i : Fin 512) (value : UInt64) :
    Free (m.store a i value) free := by
  refine heap.congr (fun b inFree => ?_) rfl rfl
  have other : b ≠ a := fun same => used (same ▸ inFree)
  exact store_word other i value

theorem memset (heap : Free m free) (used : a ∉ free) : Free (m.memset a) free := by
  refine heap.congr (fun b inFree => ?_) rfl rfl
  have other : b ≠ a := fun same => used (same ▸ inFree)
  exact memset_word other

theorem memcpy (heap : Free m free) (used : a ∉ free) (src : UInt64) : Free (m.memcpy a src) free := by
  refine heap.congr (fun b inFree => ?_) rfl rfl
  have other : b ≠ a := fun same => used (same ▸ inFree)
  exact memcpy_word other src

theorem head_ne_zero (heap : Free m (a :: rest)) : a ≠ 0 := by
  rintro rfl
  exact absurd (heap.page 0 List.mem_cons_self).2 (by decide)

theorem kalloc (heap : Free m (a :: rest)) : kalloc m = some (a, m.pop a) ∧ Free (m.pop a) rest := by
  have first : m.free_list = a := heap.linked.1
  refine ⟨?_, heap.linked.2, heap.nodup.of_cons, fun b inRest => heap.page b (List.mem_cons_of_mem a inRest),
    heap.unlocked⟩
  simp [Vm.kalloc, heap.unlocked, first, heap.head_ne_zero, Memory.pop]

theorem length_le (heap : Free m free) : free.length ≤ 258048 := by
  have nodup : (free.map fun a => (V2P a).toNat / 4096).Nodup := by
    refine List.Nodup.map_on ?_ heap.nodup
    intro a inA b inB same
    have alignedA := V2P_aligned (heap.page a inA).1
    have alignedB := V2P_aligned (heap.page b inB).1
    have equal : V2P a = V2P b := UInt64.toNat_inj.mp (by omega)
    rw [← P2V_V2P a, equal, P2V_V2P]
  have subset : (free.map fun a => (V2P a).toNat / 4096) ⊆ List.range 258048 := by
    intro x isIn
    obtain ⟨a, inFree, rfl⟩ := List.mem_map.mp isIn
    have below := UInt64.lt_iff_toNat_lt.mp (heap.page a inFree).2
    have stop : PHYSTOP.toNat = 0x3F000000 := rfl
    rw [stop] at below
    rw [List.mem_range]
    omega
  have size := (List.subperm_of_subset nodup subset).length_le
  rwa [List.length_map, List.length_range] at size

end Free

def tenPages : Memory where
  word a _ := if a = P2V 0x109000 then 0 else a + PGSIZE
  free_list := P2V 0x100000
  kmemcslock := false

def tenAddresses : List UInt64 := [P2V 0x100000, P2V 0x101000, P2V 0x102000, P2V 0x103000, P2V 0x104000, P2V 0x105000,
  P2V 0x106000, P2V 0x107000, P2V 0x108000, P2V 0x109000]

theorem free_tenPages : Free tenPages tenAddresses := by
  have accepted : (tenAddresses.all fun a => IsPage a) = true := by decide +kernel
  refine ⟨by decide +kernel, by decide +kernel, fun a member => ?_, rfl⟩
  simpa using List.all_eq_true.mp accepted a member

/-! ## Page tables -/

def Memory.child (m : Memory) (t : UInt64) (i : Fin 512) : Option UInt64 :=
  if Present (m.word t i) then some (frame (m.word t i)) else none

theorem child_congr {m m' : Memory} {t : UInt64} {i : Fin 512} (same : m'.word t i = m.word t i) :
    m'.child t i = m.child t i := by
  simp only [Memory.child, same]

theorem child_none {m : Memory} {t : UInt64} {i : Fin 512} : m.child t i = none ↔ ¬ Present (m.word t i) := by
  simp [Memory.child]

/-- A page table with root `root`: its nodes up to depth `c` are distinct (the tables for
`c = 3`, the mapped pages too for `c = 4`), none of its pages is in `free`, and the mapped
pages have entries made by `map_region`. -/
structure Space (c : Nat) (m : Memory) (free : List UInt64) (root : UInt64) : Prop where
  distinct : DistinctTo m.child c root
  used : ∀ p x, p.length ≤ 4 → descend m.child root p = some x → x ∉ free
  made : ∀ p t i, p.length = 3 → descend m.child root p = some t → Present (m.word t i) →
    m.word t i ||| fixed = m.word t i

def pagesBelow (sz : UInt64) : Nat := (sz.toNat + 4095) / 4096

def tablePath (n : Nat) : List (Fin 512) :=
  [Fin.ofNat 512 (n / 512 ^ 3), Fin.ofNat 512 (n / 512 ^ 2), Fin.ofNat 512 (n / 512)]

def Memory.leaf (m : Memory) (root : UInt64) (n : Nat) : Option UInt64 :=
  (descend m.child root (tablePath n)).bind fun t =>
    if Present (m.word t (Fin.ofNat 512 n)) then some (m.word t (Fin.ofNat 512 n)) else none

/-- The entry for virtual address `va`, as the hardware finds it. -/
def Memory.lookup (m : Memory) (root va : UInt64) : Option UInt64 := m.leaf root (va.toNat / 4096)

theorem PTX_page (va : UInt64) : [PTX 0 va, PTX 1 va, PTX 2 va] = tablePath (va.toNat / 4096) ∧
    PTX 3 va = Fin.ofNat 512 (va.toNat / 4096) := by
  simp [PTX, tablePath, Nat.shiftRight_eq_div_pow, Nat.div_div_eq_div_mul]

theorem leaf_some {m : Memory} {root e : UInt64} {n : Nat} : m.leaf root n = some e ↔
    ∃ t, descend m.child root (tablePath n) = some t ∧ Present (m.word t (Fin.ofNat 512 n)) ∧
      m.word t (Fin.ofNat 512 n) = e := by
  simp [Memory.leaf, Option.bind_eq_some_iff]

-- The page that is mapped for a page number is the node of depth four.
theorem descend_leaf {m : Memory} {root e : UInt64} {n : Nat} (mapped : m.leaf root n = some e) :
    descend m.child root (tablePath n ++ [Fin.ofNat 512 n]) = some (frame e) := by
  obtain ⟨t, reached, present, rfl⟩ := leaf_some.mp mapped
  rw [descend_concat, reached, Option.bind_some, Memory.child, if_pos present]

end Xv6.Vm
