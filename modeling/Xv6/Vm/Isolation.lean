import Xv6.Vm.Copy

/-! Loads and stores through page tables, and what `uvm_copy` leaves behind.

Two address spaces without a page in common cannot see each other's stores, and stores
through a table that maps none of its own tables keep it so.
-/

set_option autoImplicit false

namespace Xv6.Vm

open Library

section
variable {m m' : Memory} {a b : UInt64} {free : List UInt64}

def Memory.Owns (m : Memory) (root x : UInt64) : Prop := ∃ p, p.length ≤ 4 ∧ descend m.child root p = some x

def Memory.load (m : Memory) (root va : UInt64) : Option UInt64 :=
  (m.lookup root va).map fun e => m.word (frame e) (wordOf va)

/-- A store of any width to the word at `va`, as a change `f` of the word; it is lost
when the page is not mapped. The permissions of the entry are not looked at. -/
def Memory.write (m : Memory) (root va : UInt64) (f : UInt64 → UInt64) : Memory :=
  match m.lookup root va with
  | none => m
  | some e => m.store (frame e) (wordOf va) (f (m.word (frame e) (wordOf va)))

theorem write_unmapped {va : UInt64} (absent : m.lookup a va = none) (f : UInt64 → UInt64) : m.write a va f = m := by
  rw [Memory.write, absent]

theorem write_mapped {va e : UInt64} (mapped : m.lookup a va = some e) (f : UInt64 → UInt64) :
    m.write a va f = m.store (frame e) (wordOf va) (f (m.word (frame e) (wordOf va))) := by
  rw [Memory.write, mapped]

/-- Two address spaces without a page in common. -/
def Apart (m : Memory) (a b : UInt64) : Prop := ∀ x, m.Owns a x → ¬ m.Owns b x

def Sealed (m : Memory) (a : UInt64) : Prop :=
  ∀ p q x, p.length ≤ 3 → q.length = 4 → descend m.child a p = some x → descend m.child a q ≠ some x

theorem owns_of_lookup {va e : UInt64} (mapped : m.lookup a va = some e) : m.Owns a (frame e) :=
  ⟨_, by simp [tablePath], descend_leaf mapped⟩

def Agree (m m' : Memory) (a : UInt64) : Prop := ∀ x, m.Owns a x → m'.word x = m.word x

theorem Agree.descend (agree : Agree m m' a) {p : List (Fin 512)} (short : p.length ≤ 4) :
    descend m'.child a p = descend m.child a p :=
  descend_same (fun q z shortQ reached => agree z ⟨q, by omega, reached⟩) short

theorem Agree.owns (agree : Agree m m' a) (x : UInt64) : m'.Owns a x ↔ m.Owns a x := by
  constructor
  · rintro ⟨p, short, reached⟩
    exact ⟨p, short, (agree.descend short).symm.trans reached⟩
  · rintro ⟨p, short, reached⟩
    exact ⟨p, short, (agree.descend short).trans reached⟩

theorem Agree.lookup (agree : Agree m m' a) (va : UInt64) : m'.lookup a va = m.lookup a va :=
  leaf_same (fun q z short reached => agree z ⟨q, by omega, reached⟩) _

theorem Agree.load (agree : Agree m m' a) (va : UInt64) : m'.load a va = m.load a va := by
  rw [Memory.load, Memory.load, agree.lookup]
  cases mapped : m.lookup a va with
  | none => rfl
  | some e => rw [Option.map_some, Option.map_some, agree _ (owns_of_lookup mapped)]

-- A store through one address space does not touch the pages of the other.
theorem Apart.agree (apart : Apart m a b) (va : UInt64) (f : UInt64 → UInt64) : Agree m (m.write a va f) b := by
  intro x owned
  cases mapped : m.lookup a va with
  | none => rw [write_unmapped mapped]
  | some e =>
    rw [write_mapped mapped]
    have other : x ≠ frame e := fun same => apart _ (owns_of_lookup mapped) (same ▸ owned)
    exact store_word other ..

theorem Apart.symm (apart : Apart m a b) : Apart m b a := fun x ownedB ownedA => apart x ownedA ownedB

/-! ## Runs of stores -/

structure Isolated (m : Memory) (a b : UInt64) : Prop where
  apart : Apart m a b
  first : Sealed m a
  second : Sealed m b

theorem Isolated.symm (isolated : Isolated m a b) : Isolated m b a :=
  ⟨isolated.apart.symm, isolated.second, isolated.first⟩

theorem Sealed.descend (closed : Sealed m a) (va : UInt64) (f : UInt64 → UInt64) {p : List (Fin 512)}
    (short : p.length ≤ 4) :
    descend (m.write a va f).child a p = descend m.child a p := by
  refine descend_same (fun q z shortQ reached => ?_) short
  cases mapped : m.lookup a va with
  | none => rw [write_unmapped mapped]
  | some e =>
    rw [write_mapped mapped]
    have other : z ≠ frame e := by
      rintro rfl
      exact closed q _ _ shortQ (by simp [tablePath]) reached (descend_leaf mapped)
    exact store_word other ..

theorem Isolated.write (isolated : Isolated m a b) (va : UInt64) (f : UInt64 → UInt64) :
    Isolated (m.write a va f) a b := by
  have mine : ∀ p, p.length ≤ 4 → Library.descend (m.write a va f).child a p = Library.descend m.child a p :=
    fun p short => isolated.first.descend va f short
  have theirs := isolated.apart.agree va f
  refine ⟨?_, ?_, ?_⟩
  · rintro x ⟨p, short, reached⟩ ownedB
    rw [theirs.owns] at ownedB
    exact isolated.apart x ⟨p, short, (mine p short).symm.trans reached⟩ ownedB
  · intro p q x shortP longQ
    rw [mine p (by omega), mine q (by omega)]
    exact isolated.first p q x shortP longQ
  · intro p q x shortP longQ
    rw [theirs.descend (by omega), theirs.descend (by omega)]
    exact isolated.second p q x shortP longQ

abbrev Stores := List (Bool × UInt64 × (UInt64 → UInt64))

def Memory.runStores (m : Memory) (a b : UInt64) : Stores → Memory
  | [] => m
  | (true, va, f) :: rest => (m.write a va f).runStores a b rest
  | (false, va, f) :: rest => (m.write b va f).runStores a b rest

theorem Agree.write (agree : Agree m m' a) (closed : Sealed m a) (va : UInt64) (f : UInt64 → UInt64) :
    Agree (m.write a va f) (m'.write a va f) a := by
  rintro x ⟨p, short, reached⟩
  rw [closed.descend va f short] at reached
  have same := agree x ⟨p, short, reached⟩
  have lookup := agree.lookup va
  cases mapped : m.lookup a va with
  | none =>
    rw [write_unmapped mapped, write_unmapped (lookup.trans mapped)]
    exact same
  | some e =>
    rw [write_mapped mapped, write_mapped (lookup.trans mapped)]
    have here := agree _ (owns_of_lookup mapped)
    by_cases isPage : x = frame e
    · subst isPage
      simp only [Memory.store, Function.update_self, here]
    · rw [store_word isPage, store_word isPage, same]

theorem Agree.trans {l : Memory} (first : Agree l m a) (second : Agree m m' a) : Agree l m' a := by
  intro x owned
  exact (second x ((first.owns x).mpr owned)).trans (first x owned)

theorem Agree.symm (agree : Agree m m' a) : Agree m' m a := by
  intro x owned
  exact (agree x ((agree.owns x).mp owned)).symm

theorem runStores_agree (isolated : Isolated m a b) (agree : Agree m m' a) (stores : Stores) :
    Agree (m.runStores a b stores) (m'.runStores a b (stores.filter fun s => s.1)) a := by
  induction stores generalizing m m' with
  | nil => exact agree
  | cons s rest ih =>
    obtain ⟨mine, va, f⟩ := s
    cases mine with
    | true => exact ih (isolated.write va f) (agree.write isolated.first va f)
    | false =>
      have untouched : Agree m (m.write b va f) a := isolated.apart.symm.agree va f
      exact ih (isolated.symm.write va f).symm (untouched.symm.trans agree)

def Stores.swap (stores : Stores) : Stores := stores.map fun (mine, va, f) => (!mine, va, f)

theorem runStores_swap (stores : Stores) (m : Memory) : m.runStores b a stores.swap = m.runStores a b stores := by
  induction stores generalizing m with
  | nil => rfl
  | cons s rest ih =>
    obtain ⟨mine, va, f⟩ := s
    cases mine with
    | true => exact ih (m.write a va f)
    | false => exact ih (m.write b va f)

/-- Whatever the two processes store, each loads what it would load if only its own stores
had been made. -/
theorem runStores_load (isolated : Isolated m a b) (stores : Stores) (va : UInt64) :
    (m.runStores a b stores).load a va = (m.runStores a b (stores.filter fun s => s.1)).load a va ∧
      (m.runStores a b stores).load b va = (m.runStores a b (stores.filter fun s => !s.1)).load b va := by
  refine ⟨((runStores_agree isolated (fun _ _ => rfl) stores).load va).symm, ?_⟩
  have theirs := (runStores_agree isolated.symm (fun _ _ => rfl) stores.swap).load va
  have filtered : stores.swap.filter (fun s => s.1) = Stores.swap (stores.filter fun s => !s.1) := by
    simp only [Stores.swap, List.filter_map]
    rfl
  rw [filtered, runStores_swap, runStores_swap] at theirs
  exact theirs.symm

/-! ## The copy -/

/-- The memory `m'` after `uvm_copy(old, sz)` has returned `new`; `m` and `free` are the
memory and the free pages before. -/
structure Copied (m : Memory) (free : List UInt64) (old sz new : UInt64) (m' : Memory) : Prop where
  /-- The contents and the low bits of the entry of every page below `sz`. -/
  copies : ∀ va, va % PGSIZE = 0 → va < sz → ∃ e e', m.lookup old va = some e ∧ m'.lookup new va = some e' ∧
    m'.word (frame e') = m.word (frame e) ∧ PTE_FLAGS e' = PTE_FLAGS e
  others : ∀ va : UInt64, sz.toNat ≤ va.toNat % 2 ^ 48 / 4096 * 4096 → m'.lookup new va = none
  /-- The tables and mapped pages of the new table are distinct from each other ... -/
  distinct : DistinctTo m'.child 4 new
  /-- ... and from the pages of the old one. -/
  apart : ∀ x, m'.Owns new x → ¬ m.Owns old x
  /-- The old table is as it was, as is every page that was not free. -/
  parent : ∀ p, p.length ≤ 4 → descend m'.child old p = descend m.child old p
  unchanged : ∀ x, x ∉ free → m'.word x = m.word x
  /-- No store through one of the tables is visible through the other. -/
  unseen : ∀ va f va', (m'.write new va f).load old va' = m'.load old va' ∧
    (m'.write old va f).load new va' = m'.load new va'
  /-- When the old table maps none of its own tables, no run of stores is. -/
  runs : Sealed m old → ∀ (stores : Stores) va,
    (m'.runStores old new stores).load old va = (m'.runStores old new (stores.filter fun s => s.1)).load old va ∧
      (m'.runStores old new stores).load new va = (m'.runStores old new (stores.filter fun s => !s.1)).load new va

/-- `free` is the free list, and `old` a page table of which the entries were made by
`map_region`. -/
theorem uvmCopy_isolated {old sz : UInt64} (heap : Free m free) (parent : Space 3 m free old)
    (present : ∀ va, va % PGSIZE = 0 → va < sz → ∃ e, m.lookup old va = some e)
    (enough : needed (pagesBelow sz) ≤ free.length) :
    ∃ new m' rest, uvmCopy old sz m = some (new, m') ∧ new ≠ 0 ∧ Free m' rest ∧ Copied m free old sz new m' := by
  have ofPage : ∀ j, j < pagesBelow sz → (UInt64.ofNat (4096 * j)).toNat = 4096 * j := by
    intro j less
    have small := sz.toNat_lt
    unfold pagesBelow at less
    rw [UInt64.toNat_ofNat']
    omega
  have present' : ∀ j, j < pagesBelow sz → ∃ e, m.leaf old j = some e := by
    intro j less
    have isPage := ofPage j less
    obtain ⟨e, mapped⟩ := present (UInt64.ofNat (4096 * j)) (by
      apply UInt64.toNat_inj.mp
      rw [UInt64.toNat_mod, isPage]
      simp [PGSIZE]) (by
      rw [UInt64.lt_iff_toNat_lt, isPage]
      unfold pagesBelow at less
      omega)
    rw [Memory.lookup, isPage, Nat.mul_div_cancel_left j (by decide)] at mapped
    exact ⟨e, mapped⟩
  obtain ⟨new, m', taken, free', copied, notNull, _, copying, small⟩ := uvmCopy_copying heap parent present' enough
  have unchanged := copying.frame
  have agree : Agree m m' old := by
    rintro x ⟨p, short, reached⟩
    exact unchanged x (parent.used p x short reached)
  have fresh : ∀ x, m'.Owns new x → ¬ m.Owns old x := by
    rintro x ⟨p, short, reached⟩ ⟨q, shortQ, reachedQ⟩
    have isTaken : x ∈ free := copying.split ▸ List.mem_append_left free' (copying.inside p x short reached)
    exact parent.used q x shortQ reachedQ isTaken
  have apart : Apart m' old new := fun x ownedOld ownedNew => fresh x ownedNew ((agree.owns x).mp ownedOld)
  have closed : Sealed m' new := by
    intro p q x shortP longQ reachedP reachedQ
    have same := copying.space.distinct p q x (by omega) (by omega) reachedP reachedQ
    rw [same] at shortP
    omega
  refine ⟨new, m', free', copied, notNull, copying.heap, ?_, ?_, copying.space.distinct, fresh, ?_, unchanged, ?_, ?_⟩
  · intro va aligned below
    have isPage : va.toNat % 4096 = 0 := by
      have := congrArg UInt64.toNat aligned
      rwa [UInt64.toNat_mod] at this
    have less : va.toNat / 4096 < pagesBelow sz := by
      rw [UInt64.lt_iff_toNat_lt] at below
      unfold pagesBelow
      omega
    exact copying.copied _ less
  · intro va above
    have samePath : tablePath (va.toNat / 4096) = tablePath (va.toNat % 2 ^ 48 / 4096) := by
      simp only [tablePath, List.cons.injEq, Fin.ext_iff, Fin.val_ofNat, and_true]
      omega
    have sameIndex : Fin.ofNat 512 (va.toNat / 4096) = Fin.ofNat 512 (va.toNat % 2 ^ 48 / 4096) := by
      simp only [Fin.ext_iff, Fin.val_ofNat]
      omega
    have later : pagesBelow sz ≤ va.toNat % 2 ^ 48 / 4096 := by
      unfold pagesBelow
      omega
    have none' := copying.others _ later (by omega)
    rwa [Memory.leaf, ← samePath, ← sameIndex] at none'
  · exact fun p short => agree.descend short
  · exact fun va f va' => ⟨(apart.symm.agree va f).load va', (apart.agree va f).load va'⟩
  · intro parentClosed stores va
    have closedOld : Sealed m' old := by
      intro p q x shortP longQ
      rw [agree.descend (by omega), agree.descend (by omega)]
      exact parentClosed p q x shortP longQ
    exact runStores_load ⟨apart, closedOld, closed⟩ stores va

def onePage (m : Memory) : Option (UInt64 × Memory) := do
  let (root, m) ← kalloc m
  let (page, m) ← kalloc (m.memset root)
  let (_, m) ← mapRegion root 0 PGSIZE (V2P page) 0 m
  some (root, m)

theorem uvmCopy_isolated_page : ∃ old m free new m', onePage tenPages = some (old, m) ∧
    uvmCopy old 4096 m = some (new, m') ∧ Copied m free old 4096 new m' := by
  have heap := free_tenPages
  have cleared := Copying.empty heap 0
  obtain ⟨allocated, heap1⟩ := cleared.heap.kalloc
  have count := cleared.missing (by decide)
  have space1 : Space 4 (((tenPages.pop (P2V 0x100000)).memset (P2V 0x100000)).pop (P2V 0x101000)) _ _ :=
    cleared.space.same (fun x inRest => List.mem_cons_of_mem (P2V 0x101000) inRest) (Nat.le_refl 4) fun _ _ _ _ => rfl
  obtain ⟨m, taken, free, mapped, size, after⟩ :=
    mapRegion_page (n := 0) (V2P (P2V 0x101000)) 0 (show UInt64.toNat 0 = _ from rfl) (by decide) heap1 space1
      (by decide)
      (Nat.le_refl 4) (cleared.others 0 (Nat.le_refl 0) (by decide)) (by
        change missing ((tenPages.pop (P2V 0x100000)).memset (P2V 0x100000)).child _ _ ≤ _
        simp only [needed] at count
        simp only [List.length_cons, List.length_nil]
        omega) (by decide) (by decide) (by decide) (by
        intro _ q short reached
        have inside := cleared.inside q _ short reached
        exact absurd inside (by decide))
  have built : onePage tenPages = some (P2V 0x100000, m) := by
    rw [onePage, heap.kalloc.1]
    simp only [Option.bind_eq_bind, Option.bind_some]
    rw [allocated, Option.bind_some]
    dsimp only
    rw [mapped]
    rfl
  have parent : Space 3 m free (P2V 0x100000) :=
    ⟨after.space.distinct.mono (by decide), after.space.used, after.space.made⟩
  have enough : needed (pagesBelow 4096) ≤ free.length := by
    have total := congrArg List.length after.split
    rw [List.length_append, size] at total
    change _ = missing ((tenPages.pop (P2V 0x100000)).memset (P2V 0x100000)).child _ _ + _ at total
    simp only [needed] at count
    simp only [List.length_cons, List.length_nil] at total
    have need : needed (pagesBelow 4096) = 5 := by decide
    omega
  obtain ⟨new, m', _, copied, _, _, isCopy⟩ := uvmCopy_isolated after.heap parent (by
    intro va aligned (below : va < 4096)
    have small := UInt64.lt_iff_toNat_lt.mp below
    have zero : va.toNat / 4096 = 0 := Nat.div_eq_of_lt small
    exact ⟨_, by rw [Memory.lookup, zero]; exact after.here⟩) enough
  exact ⟨_, m, free, new, m', built, copied, isCopy⟩

end

end Xv6.Vm
