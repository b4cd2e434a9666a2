import Xv6.Library.Transition
import Xv6.Vm.Reclaiming
import Xv6.Vm.Regions

/-! The page allocator from `free_range` on, with the pages that it has handed out.

The owners of pages store what they like in them. The list of the free pages runs
through memory that no owner has, so the two never meet.
-/

set_option autoImplicit false

namespace Xv6.Vm

open Library

-- The loop of `free_range` from page `p`.
def freeRangeFrom (kend vend : UInt64) : Nat → UInt64 → Memory → Option Memory
  | 0, _, _ => none
  | n + 1, p, m =>
    if p + PGSIZE ≤ vend then do
      let m ← kfree kend p m
      freeRangeFrom kend vend n (p + PGSIZE) m
    else some m

def freeRange (kend vstart vend : UInt64) (m : Memory) : Option Memory :=
  freeRangeFrom kend vend turns (ROUNDUP vstart) m

/-- Memory, and the pages that are handed out. -/
structure Heap where
  memory : Memory
  out : List UInt64

inductive Use where
  | kalloc
  | kfree (page : UInt64)
  /-- The owner of a page overwrites it. -/
  | write (page : UInt64) (words : Fin 512 → UInt64)

/-- `kalloc` is not called on an empty list, and only pages that are handed out are freed or written. -/
def Heap.step (kend : UInt64) (a : Use) (s : Heap) : Option Heap :=
  match a with
  | .kalloc =>
    if s.memory.free_list = 0 then none
    else (Vm.kalloc s.memory).map fun (page, memory) => ⟨memory, page :: s.out⟩
  | .kfree page =>
    if page ∈ s.out then (Vm.kfree kend page s.memory).map fun memory => ⟨memory, s.out.erase page⟩ else none
  | .write page words =>
    if page ∈ s.out then
      some { s with memory := { s.memory with word := Function.update s.memory.word page words } }
    else none

/-- A whole page between the end of the kernel and the end of memory. -/
def WholePage (kend page : UInt64) : Prop :=
  page.toNat % 4096 = 0 ∧ kend.toNat ≤ page.toNat ∧ page.toNat + 4096 ≤ (P2V PHYSTOP).toNat

/-- The free pages, as they are linked, and the pages handed out are all pages, each of them once. -/
def Heap.Partitioned (kend : UInt64) (s : Heap) : Prop :=
  ∃ free, Free s.memory free ∧ (free ++ s.out).Nodup ∧ ∀ page, page ∈ free ++ s.out ↔ WholePage kend page

section
variable {kend p page : UInt64} {m m' : Memory} {free : List UInt64} {s t : Heap}

theorem P2V_PHYSTOP : (P2V PHYSTOP).toNat = 0xFFFF00003F000000 := by decide

theorem isPage_of_whole (low : KERNBASE ≤ kend) (whole : WholePage kend page) : IsPage page ∧ kend ≤ page := by
  have base : KERNBASE.toNat = 0xFFFF000000000000 := rfl
  have start := UInt64.le_iff_toNat_le.mp low
  obtain ⟨aligned, above, below⟩ := whole
  rw [P2V_PHYSTOP] at below
  refine ⟨⟨aligned, ?_⟩, UInt64.le_iff_toNat_le.mpr above⟩
  rw [UInt64.lt_iff_toNat_lt, V2P, UInt64.toNat_sub_of_le _ _ (UInt64.le_iff_toNat_le.mpr (by omega)), base]
  change _ < 0x3F000000
  omega

theorem freeRangeFrom_frees {fuel : Nat} (low : KERNBASE ≤ kend) (heap : Free m free)
    (aligned : p.toNat % 4096 = 0) (above : kend.toNat ≤ p.toNat) (high : p.toNat ≤ (P2V PHYSTOP).toNat)
    (freed : ∀ a, a ∈ free ↔ a.toNat % 4096 = 0 ∧ kend.toNat ≤ a.toNat ∧ a.toNat < p.toNat)
    (fuelled : ((P2V PHYSTOP).toNat - p.toNat) / 4096 < fuel) :
    ∃ m' free', freeRangeFrom kend (P2V PHYSTOP) fuel p m = some m' ∧ Free m' free' ∧
      ∀ a, a ∈ free' ↔ WholePage kend a := by
  have stop := P2V_PHYSTOP
  -- on the turns left; every page behind `p` is in the list
  induction fuel generalizing p m free with
  | zero => omega
  | succ fuel ih =>
    have next : (p + PGSIZE).toNat = p.toNat + 4096 := by
      rw [UInt64.toNat_add]
      simp only [PGSIZE, UInt64.reduceToNat]
      omega
    by_cases fits : p + PGSIZE ≤ P2V PHYSTOP
    · have room := UInt64.le_iff_toNat_le.mp fits
      rw [next] at room
      have whole : WholePage kend p := ⟨aligned, above, room⟩
      obtain ⟨isPage, atEnd⟩ := isPage_of_whole low whole
      have unused : p ∉ free := fun member => Nat.lt_irrefl _ ((freed p).mp member).2.2
      obtain ⟨m₁, ran, heap₁, _⟩ := heap.kfree isPage atEnd unused
      have freed₁ : ∀ a, a ∈ p :: free ↔
          a.toNat % 4096 = 0 ∧ kend.toNat ≤ a.toNat ∧ a.toNat < (p + PGSIZE).toNat := by
        intro a
        rw [List.mem_cons, freed, next, ← UInt64.toNat_inj]
        omega
      obtain ⟨m', free', rest, result⟩ := ih heap₁ (by omega) (by omega) (by omega) freed₁ (by omega)
      exact ⟨m', free', by rw [freeRangeFrom, if_pos fits, ran]; exact rest, result⟩
    · have full : ¬ (p.toNat + 4096 ≤ (P2V PHYSTOP).toNat) := by
        rwa [UInt64.le_iff_toNat_le, next] at fits
      refine ⟨m, free, by rw [freeRangeFrom, if_neg fits], heap, fun a => ?_⟩
      rw [freed, WholePage]
      omega

theorem freeRange_frees (low : KERNBASE ≤ kend) (high : kend ≤ P2V PHYSTOP) (heap : Free m []) :
    ∃ m' free, freeRange kend kend (P2V PHYSTOP) m = some m' ∧ Free m' free ∧
      ∀ a, a ∈ free ↔ WholePage kend a := by
  have stop := P2V_PHYSTOP
  have bound := UInt64.le_iff_toNat_le.mp high
  have start : (ROUNDUP kend).toNat = (kend.toNat + 4095) / 4096 * 4096 := ROUNDUP_toNat (by omega)
  apply freeRangeFrom_frees low heap
  · omega
  · omega
  · omega
  · intro a
    simp only [List.not_mem_nil, false_iff]
    omega
  · rw [stop]
    unfold turns
    omega

namespace Heap

theorem free_eq_cons (heap : Free m free) (notNull : m.free_list ≠ 0) : ∃ a rest, free = a :: rest := by
  cases free with
  | nil => exact absurd heap.linked notNull
  | cons a rest => exact ⟨a, rest, rfl⟩

theorem Partitioned.kalloc (parts : s.Partitioned kend) (notNull : s.memory.free_list ≠ 0) :
    ∃ page m', Vm.kalloc s.memory = some (page, m') ∧ (page ∉ s.out ∧ WholePage kend page) ∧
      (⟨m', page :: s.out⟩ : Heap).Partitioned kend := by
  obtain ⟨free, heap, nodup, pages⟩ := parts
  obtain ⟨page, rest, rfl⟩ := free_eq_cons heap notNull
  obtain ⟨ran, left⟩ := heap.kalloc
  have moved : (rest ++ page :: s.out).Perm ((page :: rest) ++ s.out) := List.perm_middle
  refine ⟨page, s.memory.pop page, ran, ⟨?_, (pages page).mp (by simp)⟩, rest, left, ?_, ?_⟩
  · rw [List.cons_append, List.nodup_cons, List.mem_append, not_or] at nodup
    exact nodup.1.2
  · exact moved.nodup_iff.mpr nodup
  · intro a
    rw [moved.mem_iff]
    exact pages a

theorem Partitioned.kfree (parts : s.Partitioned kend) (low : KERNBASE ≤ kend) (owned : page ∈ s.out) :
    ∃ m', Vm.kfree kend page s.memory = some m' ∧ (⟨m', s.out.erase page⟩ : Heap).Partitioned kend := by
  obtain ⟨free, heap, nodup, pages⟩ := parts
  obtain ⟨isPage, above⟩ := isPage_of_whole low ((pages page).mp (List.mem_append_right free owned))
  have unused : page ∉ free := fun isFree => (List.nodup_append'.mp nodup).2.2 isFree owned
  obtain ⟨m', ran, heap', _⟩ := heap.kfree isPage above unused
  have moved : ((page :: free) ++ s.out.erase page).Perm (free ++ s.out) := by
    rw [List.cons_append]
    exact List.perm_middle.symm.trans ((List.perm_cons_erase owned).symm.append_left free)
  refine ⟨m', ran, page :: free, heap', moved.nodup_iff.mpr nodup, fun a => ?_⟩
  rw [moved.mem_iff]
  exact pages a

theorem Partitioned.write (parts : s.Partitioned kend) (owned : page ∈ s.out) (words : Fin 512 → UInt64) :
    ({ s with memory := { s.memory with word := Function.update s.memory.word page words } } : Heap).Partitioned
      kend := by
  obtain ⟨free, heap, nodup, pages⟩ := parts
  refine ⟨free, heap.congr (fun a isFree => ?_) rfl rfl, nodup, pages⟩
  apply Function.update_of_ne
  rintro rfl
  exact (List.nodup_append'.mp nodup).2.2 isFree owned

theorem Partitioned.step {a : Use} (parts : s.Partitioned kend) (low : KERNBASE ≤ kend)
    (stepped : Heap.step kend a s = some t) : t.Partitioned kend := by
  cases a with
  | kalloc =>
    rw [Heap.step] at stepped
    split at stepped
    · cases stepped
    · next notNull =>
      obtain ⟨page, m', ran, _, after⟩ := parts.kalloc notNull
      rw [ran] at stepped
      cases stepped
      exact after
  | kfree page =>
    rw [Heap.step] at stepped
    split at stepped
    · next owned =>
      obtain ⟨m', ran, after⟩ := parts.kfree low owned
      rw [ran] at stepped
      cases stepped
      exact after
    · cases stepped
  | write page words =>
    rw [Heap.step] at stepped
    split at stepped
    · next owned =>
      cases stepped
      exact parts.write owned words
    · cases stepped

end Heap

/-- `free_range` returns, and in every run from there each call of `kalloc` on a list that is not
empty returns a whole page that is not handed out, each page handed out can be freed, and no
page is lost. -/
theorem pages_partitioned (low : KERNBASE ≤ kend) (high : kend ≤ P2V PHYSTOP) (empty : m.free_list = 0)
    (unlocked : m.kmemcslock = false) :
    ∃ m₀, freeRange kend kend (P2V PHYSTOP) m = some m₀ ∧
      ∀ acts s, run (Heap.step kend) acts ⟨m₀, []⟩ = some s →
        s.Partitioned kend ∧
        (s.memory.free_list ≠ 0 → ∃ page m', kalloc s.memory = some (page, m') ∧
          page ∉ s.out ∧ WholePage kend page) ∧
        ∀ page, page ∈ s.out → ∃ m', kfree kend page s.memory = some m' := by
  have start : Free m [] := ⟨empty, List.nodup_nil, by simp, unlocked⟩
  obtain ⟨m₀, free, initialised, heap, pages⟩ := freeRange_frees low high start
  refine ⟨m₀, initialised, fun acts s ran => ?_⟩
  have parts₀ : (⟨m₀, []⟩ : Heap).Partitioned kend := by
    refine ⟨free, heap, ?_, ?_⟩
    · simpa using heap.nodup
    · simpa using pages
  have parts : s.Partitioned kend :=
    run_invariant (fun _ _ _ before stepped => before.step low stepped) parts₀ ran
  refine ⟨parts, fun notNull => ?_, fun page owned => ?_⟩
  · obtain ⟨page, m', allocated, fresh, _⟩ := parts.kalloc notNull
    exact ⟨page, m', allocated, fresh⟩
  · obtain ⟨m', freed, _⟩ := parts.kfree low owned
    exact ⟨m', freed⟩

end

def lateEnd : UInt64 := P2V 0x3EFFD123

def twoPages : List Use :=
  [.kalloc, .write (P2V 0x3EFFF000) fun _ => 7, .kalloc, .write (P2V 0x3EFFE000) fun _ => 9, .kfree (P2V 0x3EFFF000)]

theorem pages_partitioned_two : ∃ m₀ s, freeRange lateEnd lateEnd (P2V PHYSTOP) ⟨fun _ _ => 5, 0, false⟩ = some m₀ ∧
    run (Heap.step lateEnd) twoPages ⟨m₀, []⟩ = some s ∧ s.Partitioned lateEnd := by
  obtain ⟨m₀, initialised, always⟩ := @pages_partitioned lateEnd ⟨fun _ _ => 5, 0, false⟩ (by decide) (by decide)
    rfl rfl
  have runs : ((freeRange lateEnd lateEnd (P2V PHYSTOP) ⟨fun _ _ => 5, 0, false⟩).any fun m =>
      (run (Heap.step lateEnd) twoPages ⟨m, []⟩).isSome) = true := by
    decide +kernel
  rw [initialised, Option.any_some] at runs
  obtain ⟨s, ran⟩ := Option.isSome_iff_exists.mp runs
  exact ⟨m₀, s, initialised, ran, (always twoPages s ran).1⟩

end Xv6.Vm
