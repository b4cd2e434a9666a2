import Xv6.Library.Translation
import Xv6.Vm.Bytes

/-! The address space of a first process, on pages that nobody has cleared.

`user_init` takes six pages. It clears the page with the program, and `pgdir_walk` clears
the tables below the root; the root itself keeps what was left in it. Entry 0, where the
free list had its link, is the only one that is written, so every other entry of the root
means what it happens to mean.

The result is `none` also where the code panics or uses a null pointer. The variables of the
kernel, among them the process table, are no part of memory here.
-/

set_option autoImplicit false

namespace Xv6.Vm

open Library

namespace Memory

-- `*(uint64_t *)a = value`
def put (m : Memory) (a value : UInt64) : Memory := m.store (ROUNDDOWN a) (wordOf a) value

-- `memset(a, 0, 8 * n)`, for aligned words.
def clear (m : Memory) (a : UInt64) : Nat → Memory
  | 0 => m
  | n + 1 => (m.clear a n).put (a + UInt64.ofNat (8 * n)) 0

end Memory

/-- The fields of `struct proc` that `user_init` sets and that refer to memory. -/
structure Proc where
  sz : UInt64
  pgdir : UInt64
  kstack : UInt64
  tf : UInt64
  context : UInt64

/-- What `user_init` uses of the kernel's image. -/
structure Symbols where
  trapret : UInt64
  forkret : UInt64
  /-- `_binary_obj_user_initcode_start` -/
  initcode : Nat → UInt8
  /-- `_binary_obj_user_initcode_size` -/
  initcodeSize : Nat
  /-- "sz must be less than a page" -/
  small : initcodeSize < 4096

-- `sizeof(struct trapframe)`, in words
def trapframeWords : Nat := 38

-- `sizeof(struct context)`, in words
def contextWords : Nat := 24

-- `proc_alloc`, for a slot that is unused.
def procAlloc (sym : Symbols) (p : Proc) (m : Memory) : Option (Option Proc × Memory) := do
  let (kstack, m) ← kalloc m
  if kstack = 0 then some (none, m)
  else
    let sp := kstack + PGSIZE
    let sp := sp - UInt64.ofNat (8 * trapframeWords)
    let tf := sp
    let m := m.clear tf trapframeWords
    let sp := sp - 8
    let m := m.put sp sym.trapret
    let sp := sp - 8
    let m := m.put sp (kstack + PGSIZE)
    let sp := sp - UInt64.ofNat (8 * contextWords)
    let context := sp
    let m := m.clear context contextWords
    -- `r30` is the last register of the context
    let m := m.put (context + UInt64.ofNat (8 * (contextWords - 1))) (sym.forkret + 8)
    some (some { p with kstack, tf, context }, m)

def uvmInit (pgdir : UInt64) (binary : Nat → UInt8) (sz : Nat) (m : Memory) : Option Memory := do
  let (r, m) ← kalloc m
  let m := m.memset r
  -- the result of `map_region` is not tested; `PTE_RW` is 0
  let (_, m) ← mapRegion pgdir 0 PGSIZE (V2P r) 0 m
  some (m.copyBytes r binary sz)

-- `user_init` up to the page for the root.
def userInitRoot (sym : Symbols) (p : Proc) (m : Memory) : Option (Proc × Memory) := do
  let (p, m) ← procAlloc sym p m
  let p ← p
  let (pgdir, m) ← kalloc m
  if pgdir = 0 then none else some ({ p with pgdir }, m)

def userInit (sym : Symbols) (loop : Bool) (p : Proc) (m : Memory) : Option (Proc × Memory) := do
  let (p, m) ← userInitRoot sym p m
  let m ← uvmInit p.pgdir sym.initcode sym.initcodeSize m
  let m := m.put (p.tf + 32) PGSIZE
  let m := m.put (p.tf + 40) (if loop then 0 else 8)
  some ({ p with sz := PGSIZE }, m)

/-! ## Two readings of a page table -/

-- `pgdir_walk` finds an entry for the address, and it is present.
def Memory.Walks (m : Memory) (pgdir va : UInt64) : Prop :=
  ∃ t i, pgdirWalk pgdir va false m = some (some (t, i), m) ∧ Present (m.word t i)

-- An entry as `pgdir_walk` reads it.
def walkEntry (level : Nat) (pte : UInt64) : Meaning UInt64 UInt64 :=
  if ¬ Present pte then .missing else if level = 3 then .result pte else .table (frame pte)

def addressBits (low : Nat) (d : UInt64) : UInt64 := UInt64.ofNat (d.toNat % 2 ^ 48 / 2 ^ low * 2 ^ low)

/-- A descriptor as the hardware reads it, for 48-bit addresses and pages of 4 KB: blocks are
possible at levels 1 and 2, and since `TCR_IPS` is 0 an address has 32 bits. A result is a
physical address and the number of its bits that the virtual address gives. -/
def mmuEntry (level : Nat) (d : UInt64) : Meaning UInt64 (UInt64 × Nat) :=
  let page := addressBits 12 d
  if ¬ Present d ∨ 2 ^ 32 ≤ page.toNat then .missing
  else if d &&& PTE_TABLE ≠ 0 then
    if level = 3 then .result (page, 12) else .table (P2V page)
  else if level = 1 ∨ level = 2 then .result (addressBits (39 - 9 * level) d, 39 - 9 * level)
  else .missing

def lowerIndices (va : UInt64) : List (Fin 512) := [PTX 1 va, PTX 2 va, PTX 3 va]

def Memory.mmu (m : Memory) (pgdir va : UInt64) : Option UInt64 :=
  (followTables mmuEntry m.word 0 (m.word pgdir (PTX 0 va)) (lowerIndices va)).map
    fun (address, bits) => address + UInt64.ofNat (va.toNat % 2 ^ bits)

/-- Both readings map the first virtual page and nothing else. -/
structure Memory.MapsFirstPage (m : Memory) (pgdir : UInt64) : Prop where
  walk : ∀ va : UInt64, va.toNat < 2 ^ 48 → (m.Walks pgdir va ↔ va.toNat < 4096)
  mmu : ∀ va : UInt64, va.toNat < 2 ^ 48 → ((m.mmu pgdir va).isSome ↔ va.toNat < 4096)

def followed (va : UInt64) : List Nat → UInt64 → Memory → List (UInt64 × Fin 512)
  | [], _, _ => []
  | i :: levels, tb, m =>
    let idx := PTX i va
    if m.word tb idx = 0 ∨ m.word tb idx &&& PTE_P = 0 then
      match kalloc m with
      | none => []
      | some (address, m) =>
        let m := m.store tb idx (V2P address)
        let m := m.memset address
        let m := m.store tb idx (m.word tb idx ||| (PTE_P ||| PTE_TABLE ||| PTE_AF ||| PTE_NORMAL))
        followed va levels (frame (m.word tb idx)) m
    else (tb, idx) :: followed va levels (frame (m.word tb idx)) m

/-- The entries that `user_init` follows without having written them. -/
def userInitFollowed (sym : Symbols) (p : Proc) (m : Memory) : Option (List (UInt64 × Fin 512)) := do
  let (p, m) ← userInitRoot sym p m
  let (r, m) ← kalloc m
  some (followed 0 [0, 1, 2] p.pgdir (m.memset r))

/-! ## The contents of the six pages -/

/-- The pages that `user_init` takes, in this order. -/
structure Taken where
  kstack : UInt64
  pgdir : UInt64
  code : UInt64
  first : UInt64
  second : UInt64
  third : UInt64

def Taken.list (pages : Taken) : List UInt64 :=
  [pages.kstack, pages.pgdir, pages.code, pages.first, pages.second, pages.third]

/-- The page of the kernel stack after `proc_alloc`: the context, the frame of `forkret` and the
trapframe at its upper end. -/
def embryoWord (sym : Symbols) (kstack : UInt64) (old : Fin 512 → UInt64) (j : Fin 512) : UInt64 :=
  if 474 ≤ j.val then 0
  else if j.val = 473 then sym.trapret
  else if j.val = 472 then kstack + PGSIZE
  else if j.val = 471 then sym.forkret + 8
  else if 448 ≤ j.val then 0
  else old j

def stackWord (sym : Symbols) (loop : Bool) (kstack : UInt64) (old : Fin 512 → UInt64) : Fin 512 → UInt64 :=
  Function.update (Function.update (embryoWord sym kstack old) 478 PGSIZE) 479 (if loop then 0 else 8)

def oneEntry (pte : UInt64) (j : Fin 512) : UInt64 := if j = 0 then pte else 0

/-- Memory with the six pages filled; in the root only entry 0 is new. -/
def Taken.fill (pages : Taken) (sym : Symbols) (loop : Bool) (m : Memory) (z : UInt64) : Fin 512 → UInt64 :=
  if z = pages.kstack then stackWord sym loop z (m.word z)
  else if z = pages.pgdir then Function.update (m.word z) 0 (V2P pages.first ||| tableBits)
  else if z = pages.code then ((m.memset z).copyBytes z sym.initcode sym.initcodeSize).word z
  else if z = pages.first then oneEntry (V2P pages.second ||| tableBits)
  else if z = pages.second then oneEntry (V2P pages.third ||| tableBits)
  else if z = pages.third then oneEntry (V2P pages.code ||| fixed)
  else m.word z

/-- None of the entries 1 to 511 leads to a page that is mapped, in either reading. -/
def LeadsNowhere (word : UInt64 → Fin 512 → UInt64) (root : Fin 512 → UInt64) : Prop :=
  ∀ i, i ≠ 0 → ∀ path, path.length = 3 →
    followTables walkEntry word 0 (root i) path = none ∧ followTables mmuEntry word 0 (root i) path = none

/-! ## Stores within one page -/

def Memory.setPage (m : Memory) (page : UInt64) (words : Fin 512 → UInt64) : Memory :=
  { m with word := Function.update m.word page words }

section
variable {m : Memory} {page : UInt64} {words : Fin 512 → UInt64} {s n : Nat}

theorem setPage_word (m : Memory) (page : UInt64) (words : Fin 512 → UInt64) :
    (m.setPage page words).word page = words := by
  simp [Memory.setPage]

theorem setPage_other {z : UInt64} (other : z ≠ page) : (m.setPage page words).word z = m.word z :=
  Function.update_of_ne other ..

theorem setPage_store (i : Fin 512) (value : UInt64) :
    (m.setPage page words).store page i value = m.setPage page (Function.update words i value) := by
  simp [Memory.setPage, Memory.store]

theorem setPage_self (m : Memory) (page : UInt64) : m.setPage page (m.word page) = m := by
  rw [Memory.setPage, Function.update_eq_self]

theorem put_eq (aligned : page.toNat % 4096 = 0) (inside : s < 4096) (value : UInt64) :
    m.put (page + UInt64.ofNat s) value = m.store page (Fin.ofNat 512 (s / 8)) value := by
  have offset : (page + UInt64.ofNat s).toNat % 4096 = s := by
    simp only [UInt64.toNat_add, UInt64.toNat_ofNat']
    omega
  rw [Memory.put, ROUNDDOWN_offset aligned inside, wordOf, offset]

theorem setPage_put (aligned : page.toNat % 4096 = 0) (inside : s < 4096) (value : UInt64) :
    (m.setPage page words).put (page + UInt64.ofNat s) value =
      m.setPage page (Function.update words (Fin.ofNat 512 (s / 8)) value) := by
  rw [put_eq aligned inside, setPage_store]

theorem setPage_clear (aligned : page.toNat % 4096 = 0) (isWord : s % 8 = 0) (inside : s + 8 * n ≤ 4096) :
    (m.setPage page words).clear (page + UInt64.ofNat s) n =
      m.setPage page fun j => if s / 8 ≤ j.val ∧ j.val < s / 8 + n then 0 else words j := by
  induction n with
  | zero =>
    rw [Memory.clear]
    congr 1
    funext j
    rw [if_neg (by omega)]
  | succ n ih =>
    have place : page + UInt64.ofNat s + UInt64.ofNat (8 * n) = page + UInt64.ofNat (s + 8 * n) := by
      rw [UInt64.ofNat_add, UInt64.add_assoc]
    rw [Memory.clear, ih (by omega), place, setPage_put aligned (by omega)]
    congr 1
    funext j
    by_cases last : j = Fin.ofNat 512 ((s + 8 * n) / 8)
    · subst last
      rw [Function.update_self, if_pos]
      simp only [Fin.val_ofNat]
      omega
    · have other : j.val ≠ s / 8 + n := by
        intro same
        apply last
        apply Fin.ext
        simp only [Fin.val_ofNat]
        omega
      rw [Function.update_of_ne last]
      by_cases before : s / 8 ≤ j.val ∧ j.val < s / 8 + n
      · rw [if_pos before, if_pos (by omega)]
      · rw [if_neg before, if_neg (by omega)]

end

/-! ## The run of `user_init` -/

section
variable {m m' : Memory} {a tb root : UInt64} {pages : Taken} {free rest : List UInt64} {sym : Symbols} {p : Proc}

theorem add_sub_offset (a b c : UInt64) : a + b - c = a + (b - c) := by
  rw [UInt64.sub_eq_add_neg, UInt64.sub_eq_add_neg, UInt64.add_assoc]

theorem procAlloc_eq (heap : Free m (a :: rest)) : procAlloc sym p m =
    some (some { p with kstack := a, tf := a + UInt64.ofNat 3792, context := a + UInt64.ofNat 3584 },
      (m.pop a).setPage a (embryoWord sym a (m.word a))) := by
  have aligned := (heap.page a List.mem_cons_self).1
  -- the stack pointer on its way down, as an offset in the page
  have tf : a + PGSIZE - UInt64.ofNat (8 * trapframeWords) = a + UInt64.ofNat 3792 := by
    rw [add_sub_offset]
    rfl
  have ret : a + UInt64.ofNat 3792 - 8 = a + UInt64.ofNat 3784 := by
    rw [add_sub_offset]
    rfl
  have bottom : a + UInt64.ofNat 3784 - 8 = a + UInt64.ofNat 3776 := by
    rw [add_sub_offset]
    rfl
  have context : a + UInt64.ofNat 3776 - UInt64.ofNat (8 * contextWords) = a + UInt64.ofNat 3584 := by
    rw [add_sub_offset]
    rfl
  have r30 : a + UInt64.ofNat 3584 + UInt64.ofNat (8 * (contextWords - 1)) = a + UInt64.ofNat 3768 := by
    rw [UInt64.add_assoc]
    rfl
  have start : m.pop a = (m.pop a).setPage a (m.word a) := (setPage_self (m.pop a) a).symm
  simp only [procAlloc, heap.kalloc.1, Option.bind_eq_bind, Option.bind_some, if_neg heap.head_ne_zero]
  rw [tf, ret, bottom, context, r30]
  conv_lhs => rw [start]
  rw [setPage_clear aligned (by decide) (by decide), setPage_put aligned (by decide), setPage_put aligned (by decide),
    setPage_clear aligned (by decide) (by decide), setPage_put aligned (by decide)]
  congr 3
  funext j
  have bound := j.isLt
  simp only [embryoWord, Function.update_apply, Fin.ext_iff, Fin.val_ofNat, trapframeWords, contextWords, Nat.reduceDiv,
    Nat.reduceMod, Nat.reduceAdd]
  grind

def Memory.attach (m : Memory) (tb a : UInt64) : Memory := (m.pop a).link tb 0 a

theorem attach_word (other : tb ≠ a) (z : UInt64) (j : Fin 512) : (m.attach tb a).word z j =
    if z = a then 0 else if z = tb ∧ j = 0 then V2P a ||| tableBits else m.word z j :=
  link_word other z j

/-- A missing table: the next free page is linked in, and the walk goes on in it. -/
theorem walkLevels_attach (i : Nat) (levels : List Nat) (heap : Free m (a :: rest)) (absent : ¬ Present (m.word tb 0))
    (other : tb ≠ a) :
    walkLevels true 0 (i :: levels) tb m = walkLevels true 0 levels a (m.attach tb a) ∧
      followed 0 (i :: levels) tb m = followed 0 levels a (m.attach tb a) := by
  have aligned := (heap.page a List.mem_cons_self).1
  have index : PTX i 0 = 0 := by simp [PTX]
  have next : frame ((m.attach tb a).word tb 0) = a := by
    rw [attach_word other, if_neg other, if_pos ⟨rfl, rfl⟩, frame_entry aligned (by decide)]
  constructor
  · rw [walkLevels, index, if_pos ((missing_entry _).mpr absent), if_pos rfl, heap.kalloc.1]
    change walkLevels true 0 levels (frame ((m.attach tb a).word tb 0)) _ = _
    rw [next]
    rfl
  · rw [followed, index, if_pos ((missing_entry _).mpr absent), heap.kalloc.1]
    change followed 0 levels (frame ((m.attach tb a).word tb 0)) _ = _
    rw [next]
    rfl

theorem Free.attach (heap : Free m (a :: rest)) (used : tb ∉ rest) : Free (m.attach tb a) rest := by
  have unused : a ∉ rest := (List.nodup_cons.mp heap.nodup).1
  exact ((heap.kalloc.2.store used _ _).memset unused).store used _ _

theorem Free.setPage (heap : Free m free) (used : a ∉ free) (words : Fin 512 → UInt64) :
    Free (m.setPage a words) free := by
  have others : ∀ z ∈ free, (m.setPage a words).word z = m.word z := by
    intro z member
    exact setPage_other fun same => used (same ▸ member)
  exact heap.congr others rfl rfl

theorem walkLevels_first {t₁ t₂ t₃ : UInt64} (heap : Free m (t₁ :: t₂ :: t₃ :: rest))
    (used : root ∉ t₁ :: t₂ :: t₃ :: rest) (absent : ¬ Present (m.word root 0)) :
    ∃ m', walkLevels true 0 [0, 1, 2] root m = some (some t₃, m') ∧ followed 0 [0, 1, 2] root m = [] ∧
      Free m' rest ∧ ∀ z, m'.word z =
        if z = t₁ then oneEntry (V2P t₂ ||| tableBits)
        else if z = t₂ then oneEntry (V2P t₃ ||| tableBits)
        else if z = t₃ then fun _ => 0
        else if z = root then Function.update (m.word z) 0 (V2P t₁ ||| tableBits)
        else m.word z := by
  simp only [List.mem_cons, not_or] at used
  obtain ⟨root₁, root₂, root₃, rootRest⟩ := used
  have distinct := heap.nodup
  simp only [List.nodup_cons, List.mem_cons, not_or] at distinct
  obtain ⟨⟨first₂, first₃, first⟩, ⟨second₃, second⟩, third, _⟩ := distinct
  -- a table that has just been linked in is empty, so its entry is missing too
  have heap₁ : Free (m.attach root t₁) (t₂ :: t₃ :: rest) := heap.attach (by simp [root₂, root₃, rootRest])
  have absent₁ : ¬ Present ((m.attach root t₁).word t₁ 0) := by
    rw [attach_word root₁, if_pos rfl]
    exact not_present_zero
  have heap₂ : Free ((m.attach root t₁).attach t₁ t₂) (t₃ :: rest) := heap₁.attach (by simp [first₃, first])
  have absent₂ : ¬ Present (((m.attach root t₁).attach t₁ t₂).word t₂ 0) := by
    rw [attach_word first₂, if_pos rfl]
    exact not_present_zero
  obtain ⟨walk₁, follow₁⟩ := walkLevels_attach 0 [1, 2] heap absent root₁
  obtain ⟨walk₂, follow₂⟩ := walkLevels_attach 1 [2] heap₁ absent₁ first₂
  obtain ⟨walk₃, follow₃⟩ := walkLevels_attach 2 [] heap₂ absent₂ second₃
  refine ⟨((m.attach root t₁).attach t₁ t₂).attach t₂ t₃, walk₁.trans (walk₂.trans walk₃),
    follow₁.trans (follow₂.trans follow₃), heap₂.attach second, fun z => ?_⟩
  funext j
  rw [attach_word second₃, attach_word first₂, attach_word root₁]
  by_cases is₃ : z = t₃
  · subst is₃
    simp [Ne.symm first₃, Ne.symm second₃]
  by_cases is₂ : z = t₂
  · subst is₂
    simp [second₃, Ne.symm first₂, oneEntry]
  by_cases is₁ : z = t₁
  · subst is₁
    simp [first₂, first₃, oneEntry]
  by_cases isRoot : z = root
  · subst isRoot
    simp [root₁, root₂, root₃, Function.update_apply]
  · simp [is₁, is₂, is₃, isRoot]

theorem mapRegion_first {t₁ t₂ t₃ r : UInt64} (aligned : r.toNat % 4096 = 0)
    (heap : Free m (t₁ :: t₂ :: t₃ :: rest)) (used : root ∉ t₁ :: t₂ :: t₃ :: rest)
    (absent : ¬ Present (m.word root 0)) :
    ∃ m', mapRegion root 0 PGSIZE (V2P r) 0 m = some (0, m') ∧ followed 0 [0, 1, 2] root m = [] ∧
      Free m' rest ∧ ∀ z, m'.word z =
        if z = t₁ then oneEntry (V2P t₂ ||| tableBits)
        else if z = t₂ then oneEntry (V2P t₃ ||| tableBits)
        else if z = t₃ then oneEntry (V2P r ||| fixed)
        else if z = root then Function.update (m.word z) 0 (V2P t₁ ||| tableBits)
        else m.word z := by
  obtain ⟨m₁, walked, follows, heap₁, words⟩ := walkLevels_first heap used absent
  have distinct := heap.nodup
  simp only [List.nodup_cons, List.mem_cons, not_or] at distinct
  obtain ⟨⟨_, first₃, _⟩, ⟨second₃, _⟩, third, _⟩ := distinct
  have found : pgdirWalk root 0 true m = some (some (t₃, 0), m₁) := by
    rw [pgdirWalk, walked]
    rfl
  have empty : m₁.word t₃ = fun _ => 0 := by
    rw [words, if_neg (Ne.symm first₃), if_neg (Ne.symm second₃), if_pos rfl]
  refine ⟨m₁.store t₃ 0 (fixed ||| V2P r), ?_, follows, heap₁.store third _ _, fun z => ?_⟩
  · -- one turn for the page, and one that ends the loop
    obtain ⟨fuel, isTurns⟩ : ∃ fuel, turns = fuel + 2 := ⟨2 ^ 52 - 1, rfl⟩
    have tail : (0 : UInt64) ||| PTE_P ||| PTE_TABLE ||| PTE_AF ||| PTE_NORMAL ||| PTE_USER ||| PTE_SH = fixed := rfl
    have start : (0 : UInt64) - 0 % PGSIZE = 0 := rfl
    have page : V2P r >>> 12 <<< 12 = V2P r := by
      have shifted := or_shift (f := 0) (V2P_aligned aligned) (by decide)
      rwa [UInt64.or_zero] at shifted
    rw [mapRegion, tail, start, isTurns, mapPages, if_pos (by decide), found]
    simp only [Option.bind_eq_bind, Option.bind_some, empty, page]
    rw [if_neg (by decide), mapPages, if_neg (by decide)]
  · by_cases is₃ : z = t₃
    · subst is₃
      rw [if_neg (Ne.symm first₃), if_neg (Ne.symm second₃), if_pos rfl]
      funext j
      simp [Memory.store, Function.update_apply, empty, oneEntry, UInt64.or_comm]
    · rw [store_word is₃, words]
      simp only [if_neg is₃]

theorem copyBytes_congr {page : UInt64} {n : Nat} (src : Nat → UInt8) (aligned : page.toNat % 4096 = 0)
    (inside : n ≤ 4096) (same : m'.word page = m.word page) :
    (m'.copyBytes page src n).word page = (m.copyBytes page src n).word page := by
  induction n with
  | zero => exact same
  | succ n ih =>
    rw [Memory.copyBytes, Memory.copyBytes, Memory.putByte, Memory.putByte, ROUNDDOWN_offset aligned (by omega)]
    simp only [Memory.store, Function.update_self]
    rw [ih (by omega)]

theorem uvmInit_first {t₁ t₂ t₃ r : UInt64} (binary : Nat → UInt8) {sz : Nat} (small : sz < 4096)
    (heap : Free m (r :: t₁ :: t₂ :: t₃ :: rest)) (used : root ∉ r :: t₁ :: t₂ :: t₃ :: rest)
    (absent : ¬ Present (m.word root 0)) :
    ∃ m', uvmInit root binary sz m = some m' ∧
      (kalloc m).map (fun (r, m) => followed 0 [0, 1, 2] root (m.memset r)) = some [] ∧ ∀ z, m'.word z =
        if z = r then ((m.memset z).copyBytes z binary sz).word z
        else if z = t₁ then oneEntry (V2P t₂ ||| tableBits)
        else if z = t₂ then oneEntry (V2P t₃ ||| tableBits)
        else if z = t₃ then oneEntry (V2P r ||| fixed)
        else if z = root then Function.update (m.word z) 0 (V2P t₁ ||| tableBits)
        else m.word z := by
  have aligned := (heap.page r List.mem_cons_self).1
  have fresh := (List.nodup_cons.mp heap.nodup).1
  simp only [List.mem_cons, not_or] at fresh
  obtain ⟨rootR, used⟩ := not_or.mp (List.mem_cons.not.mp used)
  have heap₁ : Free ((m.pop r).memset r) (t₁ :: t₂ :: t₃ :: rest) :=
    heap.kalloc.2.memset (List.nodup_cons.mp heap.nodup).1
  have cleared : ∀ z, z ≠ r → ((m.pop r).memset r).word z = m.word z := fun z other => memset_word other
  obtain ⟨m₁, mapped, follows, _, words⟩ := mapRegion_first aligned heap₁ used (by rwa [cleared root rootR])
  refine ⟨m₁.copyBytes r binary sz, ?_, ?_, fun z => ?_⟩
  · rw [uvmInit, heap.kalloc.1]
    simp only [Option.bind_eq_bind, Option.bind_some, mapped]
  · rw [heap.kalloc.1]
    exact congrArg some follows
  · by_cases isR : z = r
    · subst isR
      rw [if_pos rfl]
      apply copyBytes_congr binary aligned small.le
      rw [words, if_neg fresh.1, if_neg fresh.2.1, if_neg fresh.2.2.1, if_neg (Ne.symm rootR)]
      simp [Memory.memset]
    · have start : r = r + UInt64.ofNat 0 := (UInt64.add_zero r).symm
      rw [if_neg isR, copyBytes_other 0 aligned start (by omega) isR, words, cleared z isR]

/-- Up to the page for the root, only the page of the kernel stack has been written. -/
theorem userInitRoot_eq {k d : UInt64} (sym : Symbols) (p : Proc) (heap : Free m (k :: d :: rest)) :
    ∃ m', userInitRoot sym p m = some ({ p with
        pgdir := d, kstack := k, tf := k + UInt64.ofNat 3792, context := k + UInt64.ofNat 3584 }, m') ∧
      Free m' rest ∧ ∀ z, m'.word z = if z = k then embryoWord sym k (m.word k) else m.word z := by
  have heap₁ := heap.kalloc.2.setPage (List.nodup_cons.mp heap.nodup).1 (embryoWord sym k (m.word k))
  refine ⟨_, ?_, heap₁.kalloc.2, fun z => ?_⟩
  · rw [userInitRoot, procAlloc_eq heap]
    simp only [Option.bind_eq_bind, Option.bind_some, heap₁.kalloc.1, if_neg heap₁.head_ne_zero]
  · change ((m.pop k).setPage k (embryoWord sym k (m.word k))).word z = _
    by_cases isStack : z = k
    · rw [isStack, setPage_word, if_pos rfl]
    · rw [setPage_other isStack, if_neg isStack]
      rfl

/-- `user_init` fills the six pages, whatever was in them, and follows nothing that was. -/
theorem userInit_fills (sym : Symbols) (loop : Bool) (p : Proc) (heap : Free m (pages.list ++ free)) :
    ∃ p' m', userInit sym loop p m = some (p', m') ∧ p'.pgdir = pages.pgdir ∧
      m'.word = pages.fill sym loop m ∧ userInitFollowed sym p m = some [] := by
  obtain ⟨k, d, r, t₁, t₂, t₃⟩ := pages
  change Free m (k :: d :: r :: t₁ :: t₂ :: t₃ :: free) at heap
  have aligned := (heap.page k List.mem_cons_self).1
  obtain ⟨stackUnused, distinct⟩ := List.nodup_cons.mp heap.nodup
  have rootUnused := (List.nodup_cons.mp distinct).1
  have other : d ≠ k := fun same => stackUnused (same ▸ List.mem_cons_self)
  obtain ⟨m₁, rooted, heap₁, words₁⟩ := userInitRoot_eq sym p heap
  have old : ∀ z, z ≠ k → m₁.word z = m.word z := fun z isOther => (words₁ z).trans (if_neg isOther)
  -- the first word of the root is the link that the free list had there
  have absent : ¬ Present (m₁.word d 0) := by
    have link : m.word d 0 = r := heap.linked.2.2.1
    rw [old d other, link]
    exact not_present_aligned (heap.page r (by simp)).1
  obtain ⟨m₂, built, follows, words₂⟩ := uvmInit_first sym.initcode sym.small heap₁ rootUnused absent
  have sp : k + UInt64.ofNat 3792 + 32 = k + UInt64.ofNat 3824 := UInt64.add_assoc ..
  have pc : k + UInt64.ofNat 3792 + 40 = k + UInt64.ofNat 3832 := UInt64.add_assoc ..
  refine ⟨⟨PGSIZE, d, k, k + UInt64.ofNat 3792, k + UInt64.ofNat 3584⟩,
    (m₂.put (k + UInt64.ofNat 3824) PGSIZE).put (k + UInt64.ofNat 3832) (if loop then 0 else 8), ?_, rfl, ?_, ?_⟩
  · rw [userInit, rooted]
    simp only [Option.bind_eq_bind, Option.bind_some, built, sp, pc]
  · simp only [List.mem_cons, not_or] at stackUnused rootUnused
    obtain ⟨-, stackCode, stack₁, stack₂, stack₃, _⟩ := stackUnused
    obtain ⟨rootCode, root₁, root₂, root₃, _⟩ := rootUnused
    have stack : m₂.word k = embryoWord sym k (m.word k) := by
      rw [words₂, if_neg stackCode, if_neg stack₁, if_neg stack₂, if_neg stack₃, if_neg (Ne.symm other)]
      exact (words₁ k).trans (if_pos rfl)
    rw [← setPage_self m₂ k, setPage_put aligned (by decide), setPage_put aligned (by decide), stack]
    funext z
    by_cases isStack : z = k
    · subst isStack
      rw [setPage_word, Taken.fill, if_pos rfl]
      rfl
    rw [setPage_other isStack, words₂, old z isStack, Taken.fill, if_neg isStack]
    by_cases isRoot : z = d
    · subst isRoot
      simp [rootCode, root₁, root₂, root₃]
    by_cases isCode : z = r
    · subst isCode
      simp only [isRoot, if_true, if_false]
      apply copyBytes_congr sym.initcode (heap.page z (by simp)).1 sym.small.le
      simp [Memory.memset]
    · simp [isRoot, isCode]
  · obtain ⟨_, ran, followedNone⟩ := Option.map_eq_some_iff.mp follows
    rw [userInitFollowed, rooted]
    simp only [Option.bind_eq_bind, Option.bind_some, ran]
    exact congrArg some followedNone

end

/-! ## What the tables map -/

section
variable {m : Memory} {pages : Taken} {free : List UInt64} {sym : Symbols} {loop : Bool}

theorem walkEntry_missing {level : Nat} {pte : UInt64} (absent : ¬ Present pte) : walkEntry level pte = .missing :=
  if_pos absent

theorem walkEntry_table {level : Nat} {pte : UInt64} (present : Present pte) (inner : level < 3) :
    walkEntry level pte = .table (frame pte) := by
  rw [walkEntry, if_neg (not_not.mpr present), if_neg (by omega)]

theorem walkEntry_result {pte : UInt64} (present : Present pte) : walkEntry 3 pte = .result pte := by
  rw [walkEntry, if_neg (not_not.mpr present), if_pos rfl]

/-- The reading of `pgdir_walk` below a table is a walk over the tables that are present. -/
theorem followTables_walkEntry (m : Memory) (path : List (Fin 512)) (level : Nat) (t : UInt64) (i j : Fin 512)
    (depth : level + path.length = 2) :
    (followTables walkEntry m.word level (m.word t i) (path ++ [j])).isSome ↔
      ∃ last, descend m.child t (i :: path) = some last ∧ Present (m.word last j) := by
  induction path generalizing level t i with
  | nil =>
    have isTwo : level = 2 := depth
    subst isTwo
    by_cases present : Present (m.word t i)
    · by_cases leaf : Present (m.word (frame (m.word t i)) j)
      · simp [followTables, descend, Memory.child, present, leaf, walkEntry_table present, walkEntry_result leaf]
      · simp [followTables, descend, Memory.child, present, leaf, walkEntry_table present, walkEntry_missing leaf]
    · simp [followTables, descend, Memory.child, present, walkEntry_missing present]
  | cons k path ih =>
    rw [List.length_cons] at depth
    by_cases present : Present (m.word t i)
    · have next : descend m.child t (i :: k :: path) = descend m.child (frame (m.word t i)) (k :: path) := by
        rw [descend, Memory.child, if_pos present, Option.bind_some]
      rw [List.cons_append, followTables_table (walkEntry_table present (by omega)), ih _ _ _ (by omega), next]
    · simp [followTables, descend, Memory.child, present, walkEntry_missing present]

theorem walks_iff (m : Memory) (pgdir va : UInt64) : m.Walks pgdir va ↔
    (followTables walkEntry m.word 0 (m.word pgdir (PTX 0 va)) (lowerIndices va)).isSome := by
  obtain ⟨tables, index⟩ := PTX_page va
  have reading := followTables_walkEntry m [PTX 1 va, PTX 2 va] 0 pgdir (PTX 0 va) (PTX 3 va) rfl
  rw [lowerIndices, show [PTX 1 va, PTX 2 va, PTX 3 va] = [PTX 1 va, PTX 2 va] ++ [PTX 3 va] from rfl, reading,
    Memory.Walks, pgdirWalk_read, tables, index]
  constructor
  · rintro ⟨t, i, found, present⟩
    simp only [Option.some.injEq, Prod.mk.injEq, and_true, Option.map_eq_some_iff] at found
    obtain ⟨last, reached, rfl, rfl⟩ := found
    exact ⟨last, reached, present⟩
  · rintro ⟨last, reached, present⟩
    exact ⟨last, _, by rw [reached]; rfl, present⟩

theorem addressBits_entry {a f : UInt64} (isPage : IsPage a) (low : f.toNat < 4096) :
    addressBits 12 (V2P a ||| f) = V2P a := by
  have below := UInt64.lt_iff_toNat_lt.mp isPage.2
  rw [show PHYSTOP.toNat = 0x3F000000 from rfl] at below
  have rounded := congrArg UInt64.toNat (or_shift (V2P_aligned isPage.1) low)
  rw [shift_ROUNDDOWN, ROUNDDOWN_toNat] at rounded
  rw [addressBits, Nat.mod_eq_of_lt (by omega), show 2 ^ 12 = 4096 from rfl, rounded, UInt64.ofNat_toNat]

theorem mmuEntry_missing {level : Nat} {d : UInt64} (absent : ¬ Present d) : mmuEntry level d = .missing :=
  if_pos (show ¬ Present d ∨ _ from .inl absent)

/-- The entries that the kernel makes mean to the hardware what they mean to `pgdir_walk`. -/
theorem mmuEntry_entry {a f : UInt64} (level : Nat) (isPage : IsPage a) (low : f.toNat < 4096) (present : Present f)
    (table : f &&& PTE_TABLE ≠ 0) :
    mmuEntry level (V2P a ||| f) = if level = 3 then .result (V2P a, 12) else .table a := by
  have below := UInt64.lt_iff_toNat_lt.mp isPage.2
  rw [show PHYSTOP.toNat = 0x3F000000 from rfl] at below
  have there : ¬ (¬ Present (V2P a ||| f) ∨ 2 ^ 32 ≤ (V2P a).toNat) := by
    rw [not_or, not_not]
    exact ⟨present_or _ present, by omega⟩
  simp only [mmuEntry, addressBits_entry isPage low]
  rw [if_neg there, if_pos (or_and_ne_zero _ table), P2V_V2P]

theorem PTX_val (level : Nat) (va : UInt64) : (PTX level va).val = va.toNat / 2 ^ (39 - 9 * level) % 512 := by
  rw [PTX, Fin.val_ofNat, Nat.shiftRight_eq_div_pow]

theorem indices_zero {va : UInt64} (small : va.toNat < 2 ^ 48) :
    PTX 0 va = 0 ∧ lowerIndices va = [0, 0, 0] ↔ va.toNat < 4096 := by
  simp only [lowerIndices, List.cons.injEq, and_true, Fin.ext_iff, PTX_val, Fin.val_zero]
  omega

theorem exists_indices (i a b c : Fin 512) :
    ∃ va : UInt64, va.toNat < 2 ^ 48 ∧ PTX 0 va = i ∧ lowerIndices va = [a, b, c] := by
  have bounds : i.val < 512 ∧ a.val < 512 ∧ b.val < 512 ∧ c.val < 512 := ⟨i.isLt, a.isLt, b.isLt, c.isLt⟩
  obtain ⟨va, value⟩ : ∃ va : UInt64, va.toNat =
      i.val * 2 ^ 39 + a.val * 2 ^ 30 + b.val * 2 ^ 21 + c.val * 2 ^ 12 := by
    refine ⟨UInt64.ofNat (i.val * 2 ^ 39 + a.val * 2 ^ 30 + b.val * 2 ^ 21 + c.val * 2 ^ 12), ?_⟩
    rw [UInt64.toNat_ofNat']
    omega
  refine ⟨va, by omega, ?_, ?_⟩
  · rw [Fin.ext_iff, PTX_val, value]
    omega
  · simp only [lowerIndices, List.cons.injEq, and_true, Fin.ext_iff, PTX_val, value]
    omega

variable {O : Type} {read : Nat → UInt64 → Meaning UInt64 O}

structure Understands (read : Nat → UInt64 → Meaning UInt64 O) : Prop where
  empty : ∀ level, read level 0 = .missing
  table : ∀ level a, level < 3 → IsPage a → read level (V2P a ||| tableBits) = .table a
  page : ∀ a, IsPage a → ∃ o, read 3 (V2P a ||| fixed) = .result o

theorem understands_walkEntry : Understands walkEntry := by
  refine ⟨fun level => walkEntry_missing not_present_zero, fun level a inner isPage => ?_, fun a isPage => ?_⟩
  · rw [walkEntry_table (present_or _ (by decide)) inner, frame_entry isPage.1 (by decide)]
  · exact ⟨_, walkEntry_result (present_or _ (by decide))⟩

theorem understands_mmuEntry : Understands mmuEntry := by
  refine ⟨fun level => mmuEntry_missing not_present_zero, fun level a inner isPage => ?_, fun a isPage => ?_⟩
  · rw [mmuEntry_entry level isPage (by decide) (by decide) (by decide), if_neg (by omega)]
  · exact ⟨_, mmuEntry_entry 3 isPage (by decide) (by decide) (by decide)⟩

theorem fill_tables (sym : Symbols) (loop : Bool) (heap : Free m (pages.list ++ free)) :
    pages.fill sym loop m pages.pgdir = Function.update (m.word pages.pgdir) 0 (V2P pages.first ||| tableBits) ∧
    pages.fill sym loop m pages.first = oneEntry (V2P pages.second ||| tableBits) ∧
    pages.fill sym loop m pages.second = oneEntry (V2P pages.third ||| tableBits) ∧
    pages.fill sym loop m pages.third = oneEntry (V2P pages.code ||| fixed) := by
  have distinct := heap.nodup
  simp only [Taken.list, List.cons_append, List.nodup_cons, List.mem_cons, not_or] at distinct
  simp only [Taken.fill]
  grind

theorem Understands.chain (understands : Understands read) (sym : Symbols) (loop : Bool)
    (heap : Free m (pages.list ++ free)) :
    ∃ o, Chain read (pages.fill sym loop m) 0 (V2P pages.first ||| tableBits) [0, 0, 0] o := by
  obtain ⟨_, first, second, third⟩ := fill_tables sym loop heap
  have page : ∀ a ∈ pages.list, IsPage a := fun a member => heap.page a (List.mem_append_left free member)
  have alone : ∀ (level : Nat) (pte : UInt64) (j : Fin 512), j ≠ 0 → read level (oneEntry pte j) = .missing := by
    intro level pte j other
    rw [oneEntry, if_neg other]
    exact understands.empty level
  obtain ⟨o, result⟩ := understands.page pages.code (page _ (by simp [Taken.list]))
  refine ⟨o, .table (understands.table 0 _ (by decide) (page _ (by simp [Taken.list]))) ?_ ?_⟩
  · rw [first]
    exact alone 1 _
  rw [first]
  refine .table (understands.table 1 _ (by decide) (page _ (by simp [Taken.list]))) ?_ ?_
  · rw [second]
    exact alone 2 _
  rw [second]
  refine .table (understands.table 2 _ (by decide) (page _ (by simp [Taken.list]))) ?_ ?_
  · rw [third]
    exact alone 3 _
  rw [third]
  exact .result result

/-- One reading maps page 0 and no other exactly when the entries left in the root lead nowhere. -/
theorem Understands.maps_iff (understands : Understands read) (sym : Symbols) (loop : Bool)
    (heap : Free m (pages.list ++ free)) :
    (∀ va : UInt64, va.toNat < 2 ^ 48 → ((followTables read (pages.fill sym loop m) 0
      (pages.fill sym loop m pages.pgdir (PTX 0 va)) (lowerIndices va)).isSome ↔ va.toNat < 4096)) ↔
    ∀ i, i ≠ 0 → ∀ path, path.length = 3 →
      followTables read (pages.fill sym loop m) 0 (m.word pages.pgdir i) path = none := by
  obtain ⟨root, _⟩ := fill_tables sym loop heap
  obtain ⟨o, chain⟩ := understands.chain sym loop heap
  have left : ∀ i, i ≠ 0 → pages.fill sym loop m pages.pgdir i = m.word pages.pgdir i := by
    intro i other
    rw [root, Function.update_of_ne other]
  constructor
  · intro maps i other path length
    obtain ⟨a, b, c, rfl⟩ := List.length_eq_three.mp length
    obtain ⟨va, small, index, lower⟩ := exists_indices i a b c
    have mapped := maps va small
    rw [index, lower, left i other, ← indices_zero small, index] at mapped
    rw [← Option.not_isSome_iff_eq_none, mapped]
    exact fun zero => other zero.1
  · intro nowhere va small
    rw [← indices_zero small]
    by_cases isZero : PTX 0 va = 0
    · rw [isZero, root, Function.update_self, chain.followTables_isSome (show (lowerIndices va).length = 3 from rfl)]
      exact (and_iff_right rfl).symm
    · rw [left _ isZero, nowhere _ isZero _ rfl]
      simp [isZero]

/-- The first address space is right exactly when the entries that were left in its root lead
nowhere; nothing is followed while it is built. -/
theorem userInit_maps_first_page_iff (sym : Symbols) (loop : Bool) (p : Proc) (heap : Free m (pages.list ++ free)) :
    ∃ p' m', userInit sym loop p m = some (p', m') ∧ p'.pgdir = pages.pgdir ∧
      (m'.MapsFirstPage p'.pgdir ∧ userInitFollowed sym p m = some [] ↔
        LeadsNowhere (pages.fill sym loop m) (m.word pages.pgdir)) := by
  obtain ⟨p', m', ran, isRoot, words, follows⟩ := userInit_fills sym loop p heap
  refine ⟨p', m', ran, isRoot, ?_⟩
  have walk := understands_walkEntry.maps_iff sym loop heap
  have mmu := understands_mmuEntry.maps_iff sym loop heap
  constructor
  · rintro ⟨maps, _⟩ i other path length
    constructor
    · apply walk.mp _ i other path length
      intro va small
      have reading := maps.walk va small
      rwa [walks_iff, words, isRoot] at reading
    · apply mmu.mp _ i other path length
      intro va small
      have reading := maps.mmu va small
      rwa [Memory.mmu, Option.isSome_map, words, isRoot] at reading
  · intro nowhere
    refine ⟨⟨fun va small => ?_, fun va small => ?_⟩, follows⟩
    · rw [walks_iff, words, isRoot]
      exact walk.mpr (fun i other path length => (nowhere i other path length).1) va small
    · rw [Memory.mmu, Option.isSome_map, words, isRoot]
      exact mmu.mpr (fun i other path length => (nowhere i other path length).2) va small

theorem leadsNowhere_of_clear {word : UInt64 → Fin 512 → UInt64} {root : Fin 512 → UInt64}
    (clear : ∀ i, i ≠ 0 → ¬ Present (root i)) : LeadsNowhere word root := by
  intro i other path _
  exact ⟨followTables_missing (walkEntry_missing (clear i other)) path,
    followTables_missing (mmuEntry_missing (clear i other)) path⟩

end

/-! ## Two memories at boot -/

def bootSymbols : Symbols where
  trapret := 0xFFFF000000081000
  forkret := 0xFFFF000000082000
  initcode _ := 0x1F
  initcodeSize := 100
  small := by decide

def emptySlot : Proc := ⟨0, 0, 0, 0, 0⟩

def tenTaken : Taken where
  kstack := P2V 0x100000
  pgdir := P2V 0x101000
  code := P2V 0x102000
  first := P2V 0x103000
  second := P2V 0x104000
  third := P2V 0x105000

theorem userInit_maps_first_page_iff_tenPages :
    ∃ p' m', userInit bootSymbols false emptySlot tenPages = some (p', m') ∧ m'.MapsFirstPage p'.pgdir := by
  have heap : Free tenPages (tenTaken.list ++ tenAddresses.drop 6) := free_tenPages
  obtain ⟨p', m', ran, _, correct⟩ := userInit_maps_first_page_iff bootSymbols false emptySlot heap
  refine ⟨p', m', ran, (correct.mpr (leadsNowhere_of_clear fun i _ => ?_)).1⟩
  -- each word of the root is the address of the next page
  exact not_present_aligned (a := P2V 0x102000) (by decide)

/-- The ten pages with two words left over: entry 1 of the page that will be the root refers to
the last page, and so does entry 1 of that page. -/
def dirtyPages : Memory :=
  (tenPages.store (P2V 0x101000) 1 (0x109000 ||| 3)).store (P2V 0x109000) 1 (0x109000 ||| 3)

theorem dirty_root_mapped : Free dirtyPages tenAddresses ∧
    ∃ p' m', userInit bootSymbols false emptySlot dirtyPages = some (p', m') ∧
      m'.Walks p'.pgdir 0x8040201000 ∧ m'.mmu p'.pgdir 0x8040201000 = some 0x109000 ∧
      ¬ m'.MapsFirstPage p'.pgdir := by
  have heap : Free dirtyPages (tenTaken.list ++ tenAddresses.drop 6) :=
    ⟨by decide +kernel, free_tenPages.nodup, free_tenPages.page, rfl⟩
  obtain ⟨p', m', ran, isRoot, words, _⟩ := userInit_fills bootSymbols false emptySlot heap
  have walks : m'.Walks p'.pgdir 0x8040201000 := by
    rw [walks_iff, words, isRoot]
    decide +kernel
  have mmu : m'.mmu p'.pgdir 0x8040201000 = some 0x109000 := by
    rw [Memory.mmu, words, isRoot]
    decide +kernel
  refine ⟨heap, p', m', ran, walks, mmu, fun maps => ?_⟩
  exact absurd ((maps.walk 0x8040201000 (by decide)).mp walks) (by decide)

end Xv6.Vm
