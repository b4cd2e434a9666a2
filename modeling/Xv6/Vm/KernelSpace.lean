import Xv6.Vm.FirstSpace

/-! The page tables of `kern/kpgdir.c`, with which the kernel runs.

They are there before the kernel starts, and `entry.S` gives them to the hardware for both halves of
the address space. From then on a kernel address is the physical address that `V2P` says, below
2 GB and nowhere else, and the peripherals are device memory. `uvm_switch` does not change that.
-/

set_option autoImplicit false

namespace Xv6.Vm

open Library

/-! ## The tables -/

def MT_DEVICE_nGnRnE : UInt64 := 0

def PTE_DEVICE : UInt64 := MM_TYPE_BLOCK ||| (MT_DEVICE_nGnRnE <<< 2) ||| PTE_AF

def kpte (i : Fin 512) : UInt64 :=
  UInt64.ofNat (0x200000 * i.val) ||| if i.val < 504 then PTE_NORMAL else PTE_DEVICE

def kpud (kpte : UInt64) (i : Fin 512) : UInt64 :=
  if i.val = 0 then V2P kpte + PTE_TABLE + PTE_P else if i.val = 1 then 0x40000000 ||| PTE_DEVICE else 0

def kpgdir (kpud : UInt64) (i : Fin 512) : UInt64 := if i.val = 0 then V2P kpud + PTE_TABLE + PTE_P else 0

/-- The tables are in memory as they were linked. -/
structure Memory.KernelTables (m : Memory) (root pud pte : UInt64) : Prop where
  atRoot : m.word root = kpgdir pud
  atPud : m.word pud = kpud pte
  atPte : m.word pte = kpte
  pud : IsPage pud
  pte : IsPage pte

/-! ## The hardware -/

def lastDescriptor (level : Nat) (d : UInt64) : Meaning UInt64 UInt64 :=
  match mmuEntry level d with
  | .missing => .missing
  | .table t => .table t
  | .result _ => .result d

def Memory.memoryType (m : Memory) (pgdir va : UInt64) : Option UInt64 :=
  (followTables lastDescriptor m.word 0 (m.word pgdir (PTX 0 va)) (lowerIndices va)).map
    fun d : UInt64 => d >>> 2 &&& 7

/-- `ttbr0_el1` translates the lower addresses of 48 bits, `ttbr1_el1` the upper ones. -/
structure Translation where
  ttbr0 : UInt64
  ttbr1 : UInt64

def Translation.boot (kpgdir : UInt64) : Translation := ⟨V2P kpgdir, V2P kpgdir⟩

-- `uvm_switch`
def uvmSwitch (pgdir : UInt64) (tr : Translation) : Translation := { tr with ttbr0 := V2P pgdir }

def Translation.begins (tr : Translation) (va : UInt64) : Option (UInt64 × UInt64) :=
  if va.toNat < 2 ^ 48 then some (P2V tr.ttbr0, va)
  else if KERNBASE ≤ va then some (P2V tr.ttbr1, V2P va)
  else none

def Memory.translate (m : Memory) (tr : Translation) (va : UInt64) : Option UInt64 :=
  (tr.begins va).bind fun (pgdir, low) => m.mmu pgdir low

def Memory.typeOf (m : Memory) (tr : Translation) (va : UInt64) : Option UInt64 :=
  (tr.begins va).bind fun (pgdir, low) => m.memoryType pgdir low

/-! ## Entries -/

theorem table_eq_or {x : UInt64} (aligned : x.toNat % 4096 = 0) (below : x.toNat < 2 ^ 32) :
    x + PTE_TABLE + PTE_P = x ||| 3 := by
  apply UInt64.toNat_inj.mp
  have pages : x.toNat = 2 ^ 12 * (x.toNat / 4096) := by omega
  have sum : (x + PTE_TABLE + PTE_P).toNat = x.toNat + 3 := by
    rw [UInt64.toNat_add, UInt64.toNat_add]
    change ((x.toNat + 2) % 2 ^ 64 + 1) % 2 ^ 64 = x.toNat + 3
    omega
  rw [sum, UInt64.toNat_or]
  change x.toNat + 3 = x.toNat ||| 3
  rw [pages]
  exact Nat.two_pow_add_eq_or_of_lt (by decide) _

theorem mmuEntry_table {a : UInt64} {level : Nat} (isPage : IsPage a) (inner : level < 3) :
    mmuEntry level (V2P a + PTE_TABLE + PTE_P) = .table a := by
  have below := UInt64.lt_iff_toNat_lt.mp isPage.2
  rw [show PHYSTOP.toNat = 0x3F000000 from rfl] at below
  rw [table_eq_or (V2P_aligned isPage.1) (by omega),
    mmuEntry_entry level isPage (by decide) (by decide) (by decide), if_neg (by omega)]

theorem mmuEntry_kpte (i : Fin 512) : mmuEntry 2 (kpte i) = .result (UInt64.ofNat (0x200000 * i.val), 21) := by
  have each : ∀ i : Fin 512, Present (kpte i) ∧ (addressBits 12 (kpte i)).toNat < 2 ^ 32 ∧ kpte i &&& PTE_TABLE = 0 ∧
      addressBits 21 (kpte i) = UInt64.ofNat (0x200000 * i.val) := by decide +kernel
  obtain ⟨present, small, block, address⟩ := each i
  have there : ¬ (¬ Present (kpte i) ∨ 2 ^ 32 ≤ (addressBits 12 (kpte i)).toNat) := by
    rw [not_or, not_not, Nat.not_le]
    exact ⟨present, small⟩
  simp only [mmuEntry]
  rw [if_neg there, if_neg (not_not.mpr block), if_pos (.inr trivial), address]

theorem mmuEntry_device : mmuEntry 1 (0x40000000 ||| PTE_DEVICE) = .result (0x40000000, 30) := by
  have there : ¬ (¬ Present (0x40000000 ||| PTE_DEVICE) ∨
      2 ^ 32 ≤ (addressBits 12 (0x40000000 ||| PTE_DEVICE)).toNat) := by decide
  have block : ¬ (0x40000000 ||| PTE_DEVICE) &&& PTE_TABLE ≠ 0 := by decide
  simp only [mmuEntry]
  rw [if_neg there, if_neg block, if_pos (.inl trivial)]
  rfl

theorem Memory.KernelTables.follow {m : Memory} {root pud pte : UInt64} (tables : m.KernelTables root pud pte)
    {O : Type} {read : Nat → UInt64 → Meaning UInt64 O} {block : Fin 512 → O} {device : O}
    (missing : ∀ level d, mmuEntry level d = .missing → read level d = .missing)
    (table : ∀ level d t, mmuEntry level d = .table t → read level d = .table t)
    (blocks : ∀ i, read 2 (kpte i) = .result (block i)) (last : read 1 (0x40000000 ||| PTE_DEVICE) = .result device)
    {va : UInt64} (small : va.toNat < 2 ^ 48) :
    followTables read m.word 0 (m.word root (PTX 0 va)) (lowerIndices va) =
      if va.toNat < 2 ^ 30 then some (block (PTX 2 va)) else if va.toNat < 2 ^ 31 then some device else none := by
  have zero := PTX_val 0 va
  have one := PTX_val 1 va
  change _ = va.toNat / 2 ^ 39 % 512 at zero
  change _ = va.toNat / 2 ^ 30 % 512 at one
  have absent : ∀ level, read level 0 = .missing := fun level => missing level 0 (mmuEntry_missing (by decide))
  rw [tables.atRoot, kpgdir]
  by_cases low : va.toNat < 2 ^ 39
  · have first : (PTX 0 va).val = 0 := by omega
    rw [if_pos first, lowerIndices, followTables_table (table _ _ _ (mmuEntry_table tables.pud (by decide))),
      tables.atPud, kpud]
    by_cases linked : va.toNat < 2 ^ 30
    · have first : (PTX 1 va).val = 0 := by omega
      rw [if_pos first, if_pos linked, followTables_table (table _ _ _ (mmuEntry_table tables.pte (by decide))),
        tables.atPte]
      exact followTables_result (blocks _) _
    · have other : (PTX 1 va).val ≠ 0 := by omega
      rw [if_neg other, if_neg linked]
      by_cases second : va.toNat < 2 ^ 31
      · have isOne : (PTX 1 va).val = 1 := by omega
        rw [if_pos isOne, if_pos second]
        exact followTables_result last _
      · have later : (PTX 1 va).val ≠ 1 := by omega
        rw [if_neg later, if_neg second]
        exact followTables_missing (absent 1) _
  · have other : (PTX 0 va).val ≠ 0 := by omega
    rw [if_neg other, if_neg (by omega), if_neg (by omega)]
    exact followTables_missing (absent 0) _

namespace Memory.KernelTables

variable {m : Memory} {root pud pte : UInt64}

theorem mmu (tables : m.KernelTables root pud pte) {va : UInt64} (small : va.toNat < 2 ^ 48) :
    m.mmu root va = if va.toNat < 2 ^ 31 then some va else none := by
  have two := PTX_val 2 va
  change _ = va.toNat / 2 ^ 21 % 512 at two
  have number : (UInt64.ofNat (0x200000 * (PTX 2 va).val)).toNat = 0x200000 * (PTX 2 va).val :=
    UInt64.toNat_ofNat_of_lt' (by have := (PTX 2 va).isLt; change _ < 2 ^ 64; omega)
  rw [Memory.mmu, tables.follow (fun _ _ missing => missing) (fun _ _ _ table => table) mmuEntry_kpte mmuEntry_device small]
  by_cases linked : va.toNat < 2 ^ 30
  · rw [if_pos linked, if_pos (by omega), Option.map_some]
    congr 1
    apply UInt64.toNat_inj.mp
    rw [UInt64.toNat_add, number, UInt64.toNat_ofNat']
    omega
  · rw [if_neg linked]
    by_cases second : va.toNat < 2 ^ 31
    · rw [if_pos second, if_pos second, Option.map_some]
      congr 1
      apply UInt64.toNat_inj.mp
      rw [UInt64.toNat_add, UInt64.toNat_ofNat']
      change (0x40000000 + _) % _ = _
      omega
    · rw [if_neg second, if_neg second]
      rfl

theorem memoryType (tables : m.KernelTables root pud pte) {va : UInt64} (small : va.toNat < 2 ^ 48) :
    m.memoryType root va =
      if va.toNat < 2 ^ 31 then some (if va < PHYSTOP then MT_NORMAL else MT_DEVICE_nGnRnE) else none := by
  have two := PTX_val 2 va
  change _ = va.toNat / 2 ^ 21 % 512 at two
  have each : ∀ i : Fin 512, kpte i >>> 2 &&& 7 = if i.val < 504 then MT_NORMAL else MT_DEVICE_nGnRnE := by
    decide +kernel
  have border : va < PHYSTOP ↔ va.toNat < 0x3F000000 := UInt64.lt_iff_toNat_lt
  have missing : ∀ level d, mmuEntry level d = .missing → lastDescriptor level d = .missing := by
    intro level d absent
    rw [lastDescriptor, absent]
  have table : ∀ level d t, mmuEntry level d = .table t → lastDescriptor level d = .table t := by
    intro level d t refers
    rw [lastDescriptor, refers]
  have blocks : ∀ i, lastDescriptor 2 (Vm.kpte i) = .result (Vm.kpte i) := by
    intro i
    rw [lastDescriptor, mmuEntry_kpte]
  have device : lastDescriptor 1 (0x40000000 ||| PTE_DEVICE) = .result (0x40000000 ||| PTE_DEVICE) := by
    rw [lastDescriptor, mmuEntry_device]
  rw [Memory.memoryType, tables.follow missing table blocks device small]
  by_cases linked : va.toNat < 2 ^ 30
  · rw [if_pos linked, if_pos (by omega), Option.map_some, each]
    by_cases normal : va.toNat < 0x3F000000
    · rw [if_pos (border.mpr normal), if_pos (by omega)]
    · rw [if_neg (mt border.mp normal), if_neg (by omega)]
  · rw [if_neg linked]
    by_cases second : va.toNat < 2 ^ 31
    · have high : ¬ va < PHYSTOP := by
        rw [border]
        omega
      rw [if_pos second, if_pos second, if_neg high, Option.map_some]
      rfl
    · rw [if_neg second, if_neg second]
      rfl

end Memory.KernelTables

/-! ## The address space of the kernel -/

theorem V2P_small {va : UInt64} (kernel : KERNBASE ≤ va) : (V2P va).toNat < 2 ^ 48 ∧ ¬ va.toNat < 2 ^ 48 := by
  have base : KERNBASE.toNat ≤ va.toNat := UInt64.le_iff_toNat_le.mp kernel
  have bound := va.toNat_lt
  rw [V2P, UInt64.toNat_sub_of_le _ _ kernel]
  change 0xFFFF000000000000 ≤ va.toNat at base
  change va.toNat - 0xFFFF000000000000 < 2 ^ 48 ∧ _
  omega

/-- With the tables of `kpgdir.c`, from the boot on and whatever `uvm_switch` has done for the lower half, a kernel
address leads to the address that `V2P` says where that is below 2 GB, and nowhere otherwise. It is normal memory up to
`PHYSTOP` and a device from there on. At boot the lower half is the same memory, and nothing is between the halves. -/
theorem kernel_space {m : Memory} {root pud pte : UInt64} (tables : m.KernelTables root pud pte)
    (switches : List UInt64) (va : UInt64) :
    (KERNBASE ≤ va →
      m.translate (switches.foldl (fun tr pgdir => uvmSwitch pgdir tr) (.boot root)) va =
        (if (V2P va).toNat < 2 ^ 31 then some (V2P va) else none) ∧
      m.typeOf (switches.foldl (fun tr pgdir => uvmSwitch pgdir tr) (.boot root)) va =
        if (V2P va).toNat < 2 ^ 31 then some (if V2P va < PHYSTOP then MT_NORMAL else MT_DEVICE_nGnRnE) else none) ∧
    (va < KERNBASE → m.translate (.boot root) va = (if va.toNat < 2 ^ 31 then some va else none) ∧
      m.typeOf (.boot root) va =
        if va.toNat < 2 ^ 31 then some (if va < PHYSTOP then MT_NORMAL else MT_DEVICE_nGnRnE) else none) := by
  have upper : (switches.foldl (fun tr pgdir => uvmSwitch pgdir tr) (.boot root)).ttbr1 = V2P root := by
    generalize begin : Translation.boot root = tr
    have start : tr.ttbr1 = V2P root := by rw [← begin]; rfl
    clear begin
    -- on the switches, from whatever the lower half is
    induction switches generalizing tr with
    | nil => exact start
    | cons pgdir switches ih => exact ih (uvmSwitch pgdir tr) start
  refine ⟨fun kernel => ?_, fun user => ?_⟩
  · obtain ⟨small, high⟩ := V2P_small kernel
    rw [Memory.translate, Memory.typeOf, Translation.begins, if_neg high, if_pos kernel, upper, P2V_V2P,
      Option.bind_some, Option.bind_some]
    exact ⟨tables.mmu small, tables.memoryType small⟩
  · have other : ¬ KERNBASE ≤ va := by
      rw [UInt64.not_le]
      exact user
    rw [Memory.translate, Memory.typeOf, Translation.begins]
    by_cases low : va.toNat < 2 ^ 48
    · rw [if_pos low, Option.bind_some, Option.bind_some, Translation.boot, P2V_V2P]
      exact ⟨tables.mmu low, tables.memoryType low⟩
    · rw [if_neg low, if_neg other, if_neg (by omega), if_neg (by omega)]
      exact ⟨rfl, rfl⟩

def linkedTables : Memory where
  word page :=
    if page = P2V 0x90000 then kpgdir (P2V 0x91000)
    else if page = P2V 0x91000 then kpud (P2V 0x92000)
    else if page = P2V 0x92000 then kpte
    else fun _ => 0
  free_list := 0
  kmemcslock := false

/-- The register of the UART, and the last word of memory. -/
theorem kernel_space_uart : linkedTables.translate (.boot (P2V 0x90000)) (P2V 0x3F215040) = some 0x3F215040 ∧
    linkedTables.typeOf (.boot (P2V 0x90000)) (P2V 0x3F215040) = some MT_DEVICE_nGnRnE := by
  have tables : linkedTables.KernelTables (P2V 0x90000) (P2V 0x91000) (P2V 0x92000) :=
    ⟨rfl, rfl, rfl, by decide, by decide⟩
  exact (kernel_space tables [] (P2V 0x3F215040)).1 (by decide)

end Xv6.Vm
