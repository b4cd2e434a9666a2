import Xv6.Vm.Allocation
import Mathlib.Tactic.Linarith

/-! `sys_brk` of `kern/sysproc.c`.

The result of `uvm_alloc` is compared with 0 before it is assigned, and the comparison is
what becomes the size of the process; a negative increment does not free any page.
-/

set_option autoImplicit false

namespace Xv6.Vm

open Library

/-- What `sys_brk` reads and writes: fields of the process, TTBR0 and memory. -/
structure BrkState where
  sz : UInt64
  pgdir : UInt64
  ttbr0 : UInt64
  memory : Memory

def sysBrk (n : Int64) (s : BrkState) : Option (UInt64 × BrkState) := do
  let oldsz := s.sz.toInt64
  -- both branches make the same call
  let (size, memory) ← if n ≥ 0 then uvmAlloc s.pgdir oldsz.toUInt64 (oldsz + n).toUInt64 s.memory
    else uvmAlloc s.pgdir oldsz.toUInt64 (oldsz + n).toUInt64 s.memory
  let cursz : UInt64 := if size = 0 then 1 else 0
  if cursz ≠ 0 then some (-1, { s with memory })
  else some (oldsz.toUInt64, { s with sz := cursz, ttbr0 := s.pgdir, memory })

/-- The break has been moved by `n`. -/
structure BrkMoved (n : Int64) (s : BrkState) (r : UInt64) (s' : BrkState) : Prop where
  returned : r = s.sz
  size : (s'.sz.toNat : Int) = s.sz.toNat + n.toInt
  mapped : ∀ v, v % PGSIZE = 0 → v < ROUNDUP s'.sz → Present (s'.memory.pte s.pgdir v)
  kept : ∀ v, v % PGSIZE = 0 → v < ROUNDUP s.sz → v < ROUNDUP s'.sz →
    s'.memory.pte s.pgdir v = s.memory.pte s.pgdir v ∧
    s'.memory.word (frame (s.memory.pte s.pgdir v)) = s.memory.word (frame (s.memory.pte s.pgdir v))
  zeroed : ∀ v, v % PGSIZE = 0 → ROUNDUP s.sz ≤ v → v < ROUNDUP s'.sz →
    ∀ i, s'.memory.word (frame (s'.memory.pte s.pgdir v)) i = 0
  unmapped : n < 0 → ∀ v, v % PGSIZE = 0 → ROUNDUP s'.sz ≤ v → v.toNat < 2 ^ 48 → ¬ Present (s'.memory.pte s.pgdir v)
  freed : n < 0 → ∀ v, v % PGSIZE = 0 → ROUNDUP s'.sz ≤ v → v < ROUNDUP s.sz →
    ∃ free, Free s'.memory free ∧ frame (s.memory.pte s.pgdir v) ∈ free
  reloaded : s'.ttbr0 = V2P s.pgdir

/-- The break is where it was. -/
structure BrkFailed (s : BrkState) (r : UInt64) (s' : BrkState) : Prop where
  returned : r = -1
  size : s'.sz = s.sz
  mapping : ∀ v, s'.memory.pte s.pgdir v = s.memory.pte s.pgdir v

/-- The new size is 0, or the first page that `uvm_alloc` wants to add cannot be had: the free list
is empty, or the page has an entry. -/
def NothingAdded (n : Int64) (s : BrkState) : Prop :=
  (s.sz.toInt64 + n).toUInt64 = 0 ∨ (ROUNDUP s.sz < (s.sz.toInt64 + n).toUInt64 ∧
    (s.memory.free_list = 0 ∨ Present (s.memory.pte s.pgdir (ROUNDUP s.sz))))

section
variable {s s' : BrkState} {n : Int64} {r : UInt64} {free : List UInt64}

theorem sysBrk_eq : sysBrk n s = (uvmAlloc s.pgdir s.sz (s.sz.toInt64 + n).toUInt64 s.memory).map fun out =>
    if out.1 = 0 then (-1, { s with memory := out.2 })
    else (s.sz, { s with sz := 0, ttbr0 := s.pgdir, memory := out.2 }) := by
  have same : s.sz.toInt64.toUInt64 = s.sz := rfl
  simp only [sysBrk, ite_self, same]
  cases uvmAlloc s.pgdir s.sz (s.sz.toInt64 + n).toUInt64 s.memory with
  | none => rfl
  | some out =>
    simp only [Option.bind_eq_bind, Option.bind_some, Option.map_some]
    by_cases failed : out.1 = 0
    · simp [failed]
    · simp [failed]

theorem V2P_ne (a : UInt64) : V2P a ≠ a := by
  intro same
  have value := congrArg UInt64.toNat same
  have small := a.toNat_lt
  simp only [V2P, KERNBASE, UInt64.toNat_sub, UInt64.reduceToNat] at value
  omega

theorem newsz_toNat (sz : UInt64) {n : Int64} (low : 0 ≤ (sz.toNat : Int) + n.toInt)
    (high : (sz.toNat : Int) + n.toInt < 2 ^ 31) :
    (((sz.toInt64 + n).toUInt64).toNat : Int) = sz.toNat + n.toInt := by
  have sum : (sz.toInt64 + n).toUInt64 = sz + n.toUInt64 := rfl
  have small := sz.toNat_lt
  have bound := n.toUInt64.toNat_lt
  have signed : n.toInt =
      if 2 * n.toUInt64.toNat < 2 ^ 64 then (n.toUInt64.toNat : Int) else n.toUInt64.toNat - 2 ^ 64 :=
    BitVec.toInt_eq_toNat_cond n.toBitVec
  rw [sum, UInt64.toNat_add]
  split at signed <;> omega

/-- When `uvm_alloc` succeeds, the size becomes 0 and TTBR0 a virtual address. -/
theorem grown_wrong (memory : Memory) : ¬ (BrkMoved n s s.sz { s with sz := 0, ttbr0 := s.pgdir, memory } ∨
    BrkFailed s s.sz { s with sz := 0, ttbr0 := s.pgdir, memory }) := by
  rintro (moved | failed)
  · exact V2P_ne s.pgdir moved.reloaded.symm
  · have zero : (0 : UInt64) = s.sz := failed.size
    have minus := failed.returned
    rw [← zero] at minus
    exact absurd minus (by decide)

/-- In every state in which the pages below `sz` are mapped, a call of `sys_brk` that returns does
what it should exactly when nothing is added. -/
theorem sysBrk_correct_iff (heap : Free s.memory free) (tables : Tables s.memory (free ++ [0]) s.pgdir)
    (mapped : ∀ v, v % PGSIZE = 0 → v < s.sz → Present (s.memory.pte s.pgdir v))
    (low : 0 ≤ (s.sz.toNat : Int) + n.toInt) (high : (s.sz.toNat : Int) + n.toInt < 2 ^ 31)
    (ran : sysBrk n s = some (r, s')) : BrkMoved n s r s' ∨ BrkFailed s r s' ↔ NothingAdded n s := by
  obtain ⟨newsz, isNew⟩ : ∃ newsz, newsz = (s.sz.toInt64 + n).toUInt64 := ⟨_, rfl⟩
  have value := newsz_toNat s.sz low high
  rw [← isNew] at value
  have small : newsz.toNat < 2 ^ 31 := by omega
  rw [sysBrk_eq, ← isNew, Option.map_eq_some_iff] at ran
  obtain ⟨⟨size, memory⟩, allocated, result⟩ := ran
  rw [NothingAdded, ← isNew]
  have aligned : (ROUNDUP s.sz).toNat = 4096 * ((ROUNDUP s.sz).toNat / 4096) := by
    rw [ROUNDUP, ROUNDDOWN_toNat]
    omega
  obtain ⟨fuel, isTurns⟩ : ∃ fuel, turns = fuel + 1 := ⟨2 ^ 52, rfl⟩
  rw [uvmAlloc, isTurns] at allocated
  by_cases below : ROUNDUP s.sz < newsz
  · have less := UInt64.lt_iff_toNat_lt.mp below
    have notZero : newsz ≠ 0 := by
      rintro rfl
      simp at less
    have turn := allocPages_turn fuel aligned (by omega) below (.whole heap) tables
    rw [allocated] at turn
    generalize isNext : allocPages s.pgdir newsz fuel (ROUNDUP s.sz + PGSIZE) = next at turn
    generalize isResult : some (size, memory) = outcome at turn
    -- when no entry has changed, the call has failed as it should
    have failed : size = 0 → (∀ k, memory.entry s.pgdir k = s.memory.entry s.pgdir k) → BrkFailed s r s' := by
      intro isZero same
      rw [if_pos isZero, Prod.mk.injEq] at result
      obtain ⟨rfl, rfl⟩ := result
      refine ⟨rfl, rfl, fun v => ?_⟩
      rw [pte_entry, pte_entry]
      exact same _
    cases turn with
    | stuck => simp at isResult
    | null words last _ =>
      simp only [Option.some.injEq, Prod.mk.injEq] at isResult
      obtain ⟨rfl, rfl⟩ := isResult
      have empty : free = [] := by simpa using last
      subst empty
      refine iff_of_true (.inr (failed rfl fun k => ?_)) (.inr ⟨below, .inl heap.linked⟩)
      have same : memory.child = s.memory.child := by
        funext t i
        rw [Memory.child, Memory.child, words]
      rw [Memory.entry, Memory.entry, same, words]
    | present notNull split present words extended =>
      simp only [Option.some.injEq, Prod.mk.injEq] at isResult
      obtain ⟨rfl, rfl⟩ := isResult
      obtain ⟨cleared, _, entries⟩ := (split ▸ tables).memset words
      refine iff_of_true (.inr (failed rfl fun k => ?_)) (.inr ⟨below, .inr ?_⟩)
      · exact (extended.entry cleared k).trans (entries k)
      · rw [pte_entry]
        exact present
    | @mapped m₁ m' page rest taken pages' _ notNull split absent words _ entered =>
      subst isNext
      obtain ⟨_, _, entries⟩ := (split ▸ tables).memset words
      have next : (ROUNDUP s.sz + PGSIZE).toNat = 4096 * ((ROUNDUP s.sz).toNat / 4096 + 1) := by
        rw [UInt64.toNat_add]
        simp only [PGSIZE, UInt64.reduceToNat]
        omega
      have here : Present (m'.entry s.pgdir ((ROUNDUP s.sz).toNat / 4096)) := entered.here ▸ userEntry_present page
      have kept := allocPages_keeps fuel next (by omega) entered.supply entered.tables isResult.symm here
      refine iff_of_false ?_ ?_
      · by_cases isZero : size = 0
        · rw [if_pos isZero, Prod.mk.injEq] at result
          obtain ⟨rfl, rfl⟩ := result
          rintro (moved | failed)
          · -- only the greatest size could be taken for the error
            have size := moved.returned
            have zero : ROUNDUP s.sz = 0 := by
              rw [← size]
              decide
            have first := mapped 0 rfl (by rw [← size]; decide)
            rw [pte_entry] at first
            rw [zero] at absent
            exact absent first
          · have same := failed.mapping (ROUNDUP s.sz)
            rw [pte_entry, pte_entry] at same
            exact absent (same ▸ kept ▸ here)
        · rw [if_neg isZero, Prod.mk.injEq] at result
          obtain ⟨rfl, rfl⟩ := result
          exact grown_wrong memory
      · rintro (zero | ⟨_, null | present⟩)
        · exact notZero zero
        · have first : s.memory.free_list = page := by
            cases free with
            | nil => simp at split; exact absurd split.1.symm notNull
            | cons b free =>
              rw [List.cons_append, List.cons.injEq] at split
              exact split.1 ▸ heap.linked.1
          exact notNull (first.symm.trans null)
        · rw [pte_entry] at present
          exact absent present
  · rw [allocPages, if_neg below, Option.some.injEq, Prod.mk.injEq] at allocated
    obtain ⟨rfl, rfl⟩ := allocated
    by_cases zero : newsz = 0
    · subst zero
      have isZero : (0 : UInt64).toInt64 = 0 := rfl
      rw [if_pos isZero, Prod.mk.injEq] at result
      obtain ⟨rfl, rfl⟩ := result
      exact iff_of_true (.inr ⟨rfl, rfl, fun _ => rfl⟩) (.inl rfl)
    · have notZero : newsz.toInt64 ≠ 0 := fun same => zero (congrArg Int64.toUInt64 same)
      rw [if_neg notZero, Prod.mk.injEq] at result
      obtain ⟨rfl, rfl⟩ := result
      refine iff_of_false (grown_wrong _) ?_
      rintro (isZero | ⟨more, _⟩)
      · exact zero isZero
      · exact below more

def emptyProcess : BrkState where
  sz := 0
  pgdir := P2V 0x100000
  ttbr0 := V2P (P2V 0x100000)
  memory := onePageTaken

theorem tables_emptyProcess : Tables emptyProcess.memory (tenAddresses.tail ++ [0]) emptyProcess.pgdir :=
  Tables.zero onePageTaken_zero (by decide)

theorem brk_grows : ∃ r s', sysBrk 8 emptyProcess = some (r, s') ∧ r = 0 ∧ s'.sz = 0 ∧ s'.ttbr0 = P2V 0x100000 := by
  have grows : (sysBrk 8 emptyProcess).any fun out =>
      out.1 = 0 ∧ out.2.sz = 0 ∧ out.2.ttbr0 = P2V 0x100000 := by
    decide +kernel
  obtain ⟨⟨r, s'⟩, ran, isResult⟩ := (Option.any_eq_true _ _).mp grows
  simp only [decide_eq_true_eq] at isResult
  exact ⟨r, s', ran, isResult⟩

def onePageProcess : BrkState where
  sz := 4096
  pgdir := P2V 0x100000
  ttbr0 := V2P (P2V 0x100000)
  memory := (uvmAlloc (P2V 0x100000) 0 4096 onePageTaken).elim onePageTaken Prod.snd

theorem mapped_onePageProcess : ∃ free, Free onePageProcess.memory free ∧
    Tables onePageProcess.memory (free ++ [0]) onePageProcess.pgdir ∧
    Present (onePageProcess.memory.entry onePageProcess.pgdir 0) := by
  have tables : Tables onePageTaken (tenAddresses.tail ++ [0]) (P2V 0x100000) := tables_emptyProcess
  obtain ⟨fuel, isTurns⟩ : ∃ fuel, turns = fuel + 2 := ⟨2 ^ 52 - 1, rfl⟩
  have turn := allocPages_turn (fuel + 1) (show (ROUNDUP 0).toNat = 4096 * 0 by decide) (by decide)
    (show ROUNDUP 0 < 4096 by decide) (.whole free_onePageTaken) tables
  have called : allocPages (P2V 0x100000) 4096 (fuel + 2) (ROUNDUP 0) onePageTaken =
      uvmAlloc (P2V 0x100000) 0 4096 onePageTaken := by rw [uvmAlloc, isTurns]
  have empty : ∀ i, onePageTaken.child (P2V 0x100000) i = none := fun i => by
    rw [child_none, onePageTaken_zero]
    exact not_present_zero
  have count : missing onePageTaken.child (P2V 0x100000) (tablePath 0) = 3 := missing_empty empty _
  rw [called] at turn
  generalize isNext : allocPages (P2V 0x100000) 4096 (fuel + 1) (ROUNDUP 0 + PGSIZE) = next at turn
  generalize isResult : uvmAlloc (P2V 0x100000) 0 4096 onePageTaken = result at turn
  cases turn with
  | stuck short =>
    rw [count] at short
    exact absurd short (by decide)
  | null _ last => exact absurd (congrArg List.length last) (by decide)
  | present _ _ present =>
    rw [entry_zero onePageTaken_zero] at present
    exact absurd present not_present_zero
  | @mapped m₁ m' page rest taken pages' _ _ split _ _ size entered =>
    rw [← isNext, allocPages, if_neg (by decide)] at isResult
    have memory : onePageProcess.memory = m' := by rw [onePageProcess, isResult, Option.elim_some]
    have supply := entered.supply
    have tables := entered.tables
    have length := congrArg List.length (split.trans (congrArg _ entered.split))
    rw [memory]
    cases supply with
    | whole heap => exact ⟨_, heap, tables, entered.here ▸ userEntry_present page⟩
    | spent held =>
      -- ten pages were left, and four are taken
      simp [size, count, tenAddresses] at length

theorem sysBrk_correct_iff_grows :
    (∃ r s', sysBrk 5000 onePageProcess = some (r, s') ∧
      ¬ (BrkMoved 5000 onePageProcess r s' ∨ BrkFailed onePageProcess r s')) ∧
      ∃ r s', sysBrk (-4096) onePageProcess = some (r, s') ∧
        (BrkMoved (-4096) onePageProcess r s' ∨ BrkFailed onePageProcess r s') := by
  obtain ⟨free, heap, tables, first⟩ := mapped_onePageProcess
  have mapped : ∀ v, v % PGSIZE = 0 → v < onePageProcess.sz →
      Present (onePageProcess.memory.pte onePageProcess.pgdir v) := by
    intro v aligned below
    have isZero : v.toNat / 4096 = 0 := Nat.div_eq_of_lt (UInt64.lt_iff_toNat_lt.mp below)
    rw [pte_entry, isZero]
    exact first
  obtain ⟨⟨r, s'⟩, ran⟩ := Option.isSome_iff_exists.mp (show (sysBrk 5000 onePageProcess).isSome by decide +kernel)
  obtain ⟨⟨r', t⟩, ran'⟩ := Option.isSome_iff_exists.mp (show (sysBrk (-4096) onePageProcess).isSome by decide +kernel)
  refine ⟨⟨r, s', ran, ?_⟩, r', t, ran', ?_⟩
  · rw [sysBrk_correct_iff heap tables mapped (by decide) (by decide) ran]
    unfold NothingAdded
    decide +kernel
  · rw [sysBrk_correct_iff heap tables mapped (by decide) (by decide) ran']
    exact .inl rfl

theorem brk_not_moved : ¬ ∀ (s : BrkState) (n : Int64) (free : List UInt64) (r : UInt64) (s' : BrkState),
    Free s.memory free → Tables s.memory (free ++ [0]) s.pgdir →
    (∀ v, v % PGSIZE = 0 → v < s.sz → Present (s.memory.pte s.pgdir v)) → 0 ≤ (s.sz.toNat : Int) + n.toInt →
    (s.sz.toNat : Int) + n.toInt < 2 ^ 31 → sysBrk n s = some (r, s') → BrkMoved n s r s' ∨ BrkFailed s r s' := by
  intro always
  obtain ⟨r, s', ran, isZero, _, table⟩ := brk_grows
  rcases always emptyProcess 8 _ r s' free_onePageTaken tables_emptyProcess
    (fun v _ below => absurd below UInt64.not_lt_zero) (by decide) (by decide) ran with moved | failed
  · exact V2P_ne _ (moved.reloaded.symm.trans table)
  · rw [isZero] at failed
    exact absurd failed.returned (by decide)

end

end Xv6.Vm
