import Xv6.Library.Radix
import Mathlib.Algebra.Ring.Nat
import Mathlib.Logic.Function.Basic

/-! Physical pages, the page allocator of `kern/kalloc.c` and the page tables of `kern/vm.c`.

Memory is a word array for each page, under the page's address in the kernel. The free
list runs through the first words of the free pages. A result `none` means that the code
waits for a lock that nobody will release.
-/

set_option autoImplicit false

namespace Xv6.Vm

open Library

instance entries_ne_zero : @NeZero Nat Zero.ofOfNat0 512 := ⟨Nat.succ_ne_zero 511⟩

def KERNBASE : UInt64 := 0xFFFF000000000000

def PHYSTOP : UInt64 := 0x3F000000

def PGSIZE : UInt64 := 4096

-- `V2P(a)`
def V2P (a : UInt64) : UInt64 := a - KERNBASE

-- `P2V(a)`
def P2V (a : UInt64) : UInt64 := a + KERNBASE

def wordOf (va : UInt64) : Fin 512 := Fin.ofNat 512 (va.toNat % 4096 / 8)

structure Memory where
  word : UInt64 → Fin 512 → UInt64
  /-- `kmem.free_list` -/
  free_list : UInt64
  /-- Whether `kmemcslock` is held. -/
  kmemcslock : Bool

namespace Memory

def store (m : Memory) (page : UInt64) (i : Fin 512) (value : UInt64) : Memory :=
  { m with word := Function.update m.word page (Function.update (m.word page) i value) }

-- `memset(page, 0, PGSIZE)`
def memset (m : Memory) (page : UInt64) : Memory :=
  { m with word := Function.update m.word page fun _ => 0 }

-- `memcpy(dst, src, PGSIZE)`, for two pages.
def memcpy (m : Memory) (dst src : UInt64) : Memory :=
  { m with word := Function.update m.word dst (m.word src) }

end Memory

/-- The null pointer is returned with the lock held. -/
def kalloc (m : Memory) : Option (UInt64 × Memory) :=
  if m.kmemcslock then none
  else if m.free_list = 0 then some (0, { m with kmemcslock := true })
  else some (m.free_list, { m with free_list := m.word m.free_list 0 })

/-! ## Page table entries -/

def PTE_P : UInt64 := (1 : UInt64) <<< 0

def PTE_BLOCK : UInt64 := (0 : UInt64) <<< 1

def PTE_TABLE : UInt64 := (1 : UInt64) <<< 1

def PTE_USER : UInt64 := (1 : UInt64) <<< 6

def PTE_SH : UInt64 := (3 : UInt64) <<< 8

def PTE_AF : UInt64 := (1 : UInt64) <<< 10

def MM_TYPE_BLOCK : UInt64 := PTE_P ||| PTE_BLOCK

def MT_NORMAL : UInt64 := 1

def PTE_NORMAL : UInt64 := MM_TYPE_BLOCK ||| (MT_NORMAL <<< 2) ||| PTE_AF

-- `PTX(level, va)`
def PTX (level : Nat) (va : UInt64) : Fin 512 := Fin.ofNat 512 (va.toNat >>> (39 - 9 * level))

-- The page that an entry refers to: `P2V(pte >> 12 << 12)`.
def frame (pte : UInt64) : UInt64 := P2V (pte >>> 12 <<< 12)

/-! ## Walks -/

/-- The loop of `pgdir_walk` over the given levels, from table `tb`; null when an entry is
missing and `alloc` is not set. The result of `kalloc` is not tested. -/
def walkLevels (alloc : Bool) (va : UInt64) : List Nat → UInt64 → Memory → Option (Option UInt64 × Memory)
  | [], tb, m => some (some tb, m)
  | i :: levels, tb, m =>
    let idx := PTX i va
    if m.word tb idx = 0 ∨ m.word tb idx &&& PTE_P = 0 then
      if alloc then do
        let (address, m) ← kalloc m
        let m := m.store tb idx (V2P address)
        let m := m.memset address
        let m := m.store tb idx (m.word tb idx ||| (PTE_P ||| PTE_TABLE ||| PTE_AF ||| PTE_NORMAL))
        walkLevels alloc va levels (frame (m.word tb idx)) m
      else some (none, m)
    else walkLevels alloc va levels (frame (m.word tb idx)) m

/-- The place of the entry for `va`: a page of the table and an index. -/
def pgdirWalk (pgdir va : UInt64) (alloc : Bool) (m : Memory) : Option (Option (UInt64 × Fin 512) × Memory) :=
  (walkLevels alloc va [0, 1, 2] pgdir m).map fun (tb, m) => (tb.map fun tb => (tb, PTX 3 va), m)

def pgdirIwalk (pgdir va : UInt64) (m : Memory) : Option UInt64 := do
  let (pte, m) ← pgdirWalk pgdir va false m
  match pte with
  | none => some 0
  | some (t, i) => some (m.word t i >>> 12 <<< 12)

/-- The number of pages of the address space, and one: no loop over pages makes more turns,
since it would meet its own first page. -/
def turns : Nat := 2 ^ 52 + 1

-- The loop of `map_region` from page `v`.
def mapPages (pgdir vaend tail : UInt64) : Nat → UInt64 → UInt64 → Memory → Option (Int × Memory)
  | 0, _, _, _ => none
  | n + 1, v, pa, m =>
    if v < vaend then do
      let (pte, m) ← pgdirWalk pgdir v true m
      match pte with
      | none => some (-1, m)
      | some (t, i) =>
        if m.word t i &&& PTE_P ≠ 0 then some (-1, m)
        else mapPages pgdir vaend tail n (v + PGSIZE) (pa + PGSIZE) (m.store t i (tail ||| (pa >>> 12 <<< 12)))
    else some (0, m)

def mapRegion (pgdir va size pa perm : UInt64) (m : Memory) : Option (Int × Memory) :=
  let vastart := va - va % PGSIZE
  let vaend := va + size
  let tail := perm ||| PTE_P ||| PTE_TABLE ||| PTE_AF ||| PTE_NORMAL ||| PTE_USER ||| PTE_SH
  mapPages pgdir vaend tail turns vastart pa m

-- The loop of `uvm_copy` from address `i`.
def copyPages (old new sz : UInt64) : Nat → UInt64 → Memory → Option (UInt64 × Memory)
  | 0, _, _ => none
  | n + 1, i, m =>
    if i < sz then do
      let (pte, m) ← pgdirWalk old i false m
      match pte with
      | none => some (0, m)
      | some (t, idx) =>
        let pte := m.word t idx
        if pte &&& PTE_P = 0 then some (0, m)
        else do
          let pa := pte >>> 12 <<< 12
          let priv := pte <<< 52 >>> 52
          let (page, m) ← kalloc m
          if page = 0 then some (0, m)
          else do
            let m := m.memcpy page (P2V pa)
            let (failed, m) ← mapRegion new i PGSIZE (V2P page) priv m
            if failed ≠ 0 then some (0, m) else copyPages old new sz n (i + PGSIZE) m
    else some (new, m)

def uvmCopy (old sz : UInt64) (m : Memory) : Option (UInt64 × Memory) := do
  let (new, m) ← kalloc m
  if new = 0 then some (0, m) else copyPages old new sz turns 0 (m.memset new)

end Xv6.Vm
