import Xv6.Trap.Memmove
import Mathlib.Data.Fintype.Basic
import Mathlib.Tactic.FinCases

/-! `alltraps` and `trapret` of `kern/trapasm.S`, and `struct trapframe` of `inc/trap.h`.

The instructions run on a machine with its memory in bytes. `Stacked` is the same machine
with a list for its stack, on which a sequence of pushes and pops can be read off. The C
code sees the words of that stack as the fields of a structure.
-/

set_option autoImplicit false

namespace Xv6.Trap

open Library

/-! ## The machine -/

inductive Sys where
  | SP_EL0 | ELR_EL1 | SPSR_EL1 | TPIDR_EL0
deriving DecidableEq

structure Regs where
  x : Fin 31 → UInt64
  /-- The lower and the upper half. -/
  q0 : UInt64 × UInt64
  sys : Sys → UInt64

structure Machine where
  regs : Regs
  sp : UInt64
  mem : UInt64 → UInt8

inductive Instr where
  /-- `stp xa, xb, [sp, #-16]!` -/
  | stp (a b : Fin 31)
  /-- `ldp xa, xb, [sp], #16` -/
  | ldp (a b : Fin 31)
  /-- `str q0, [sp, #-16]!` -/
  | strQ0
  /-- `ldr q0, [sp], #16` -/
  | ldrQ0
  | mrs (a : Fin 31) (s : Sys)
  | msr (s : Sys) (a : Fin 31)
  | mov (a : Fin 31) (value : UInt64)
  /-- `mov xa, sp` -/
  | movSp (a : Fin 31)

namespace Regs

def setX (regs : Regs) (a : Fin 31) (v : UInt64) : Regs := { regs with x := Function.update regs.x a v }

def setSys (regs : Regs) (s : Sys) (v : UInt64) : Regs := { regs with sys := Function.update regs.sys s v }

end Regs

namespace Machine

def push (v : UInt64) (m : Machine) : Machine := { m with sp := m.sp - 8, mem := store m.mem (m.sp - 8) v }

def pop (give : UInt64 → Regs → Regs) (m : Machine) : Machine :=
  { m with regs := give (load m.mem m.sp) m.regs, sp := m.sp + 8 }

/-- One instruction. The first register of a pair is at the lower address. -/
def exec (m : Machine) : Instr → Machine
  | .stp a b => (m.push (m.regs.x b)).push (m.regs.x a)
  | .ldp a b => (m.pop fun v regs => regs.setX a v).pop fun v regs => regs.setX b v
  | .strQ0 => (m.push m.regs.q0.2).push m.regs.q0.1
  | .ldrQ0 =>
    (m.pop fun v regs => { regs with q0 := (v, regs.q0.2) }).pop fun v regs => { regs with q0 := (regs.q0.1, v) }
  | .mrs a s => { m with regs := m.regs.setX a (m.regs.sys s) }
  | .msr s a => { m with regs := m.regs.setSys s (m.regs.x a) }
  | .mov a value => { m with regs := m.regs.setX a value }
  | .movSp a => { m with regs := m.regs.setX a m.sp }

end Machine

def alltraps : List Instr := [
  .stp 29 30, .stp 27 28, .stp 25 26, .stp 23 24, .stp 21 22, .stp 19 20, .stp 17 18, .stp 15 16,
  .stp 13 14, .stp 11 12, .stp 9 10, .stp 7 8, .stp 5 6, .stp 3 4, .stp 1 2,
  .mrs 12 .SPSR_EL1, .mrs 11 .ELR_EL1, .mrs 10 .SP_EL0, .stp 12 0, .stp 10 11,
  .strQ0, .mrs 12 .TPIDR_EL0, .mov 11 0, .stp 12 12,
  .movSp 0]

-- `trapret` up to `eret`.
def trapret : List Instr := [
  .ldp 11 12, .msr .TPIDR_EL0 11, .ldrQ0,
  .ldp 10 11, .ldp 12 0, .msr .SP_EL0 10, .msr .ELR_EL1 11, .msr .SPSR_EL1 12,
  .ldp 1 2, .ldp 3 4, .ldp 5 6, .ldp 7 8, .ldp 9 10, .ldp 11 12, .ldp 13 14, .ldp 15 16,
  .ldp 17 18, .ldp 19 20, .ldp 21 22, .ldp 23 24, .ldp 25 26, .ldp 27 28, .ldp 29 30]

def Machine.execAll (m : Machine) (code : List Instr) : Machine := code.foldl Machine.exec m

/-! ## `struct trapframe` -/

inductive Field where
  | zero | tpidr0
  | q0_ | q0__
  | sp | pc | pstate
  | r (n : Fin 31)
deriving DecidableEq

namespace Field

def all : List Field := [zero, tpidr0, q0_, q0__, sp, pc, pstate] ++ (List.finRange 31).map r

def index : Field → Nat
  | zero => 0
  | tpidr0 => 1
  | q0_ => 2
  | q0__ => 3
  | sp => 4
  | pc => 5
  | pstate => 6
  | r n => 7 + n.val

-- `&tf->f`
def address (tf : UInt64) (f : Field) : UInt64 := tf + 8 * .ofNat f.index

end Field

-- `sizeof(struct trapframe)`
def frameSize : Nat := 8 * Field.all.length

section
variable (mem : UInt64 → UInt8) (tf : UInt64)

-- `tf->f`
def readField (f : Field) : UInt64 := load mem (f.address tf)

-- `tf->f = v`
def writeField (f : Field) (v : UInt64) : UInt64 → UInt8 := store mem (f.address tf) v

-- `argint`; `none` where it panics.
def argint (n : Int32) : Option UInt64 :=
  if n > 3 then none else some (load mem ((Field.r 0).address tf + 8 * n.toInt64.toUInt64))

end

/-- `memcpy(child->tf, par->tf, sizeof(struct trapframe)); child->tf->r0 = 0` -/
def forkFrame (mem : UInt64 → UInt8) (child par : UInt64) : UInt64 → UInt8 :=
  writeField (memmove mem child par frameSize) child (.r 0) 0

/-! ## What a field stands for -/

namespace Regs

def field (regs : Regs) : Field → UInt64
  | .zero | .tpidr0 => regs.sys .TPIDR_EL0
  | .q0_ => regs.q0.1
  | .q0__ => regs.q0.2
  | .sp => regs.sys .SP_EL0
  | .pc => regs.sys .ELR_EL1
  | .pstate => regs.sys .SPSR_EL1
  | .r n => regs.x n

def ofFrame (frame : Field → UInt64) : Regs where
  x n := frame (.r n)
  q0 := (frame .q0_, frame .q0__)
  sys
    | .SP_EL0 => frame .sp
    | .ELR_EL1 => frame .pc
    | .SPSR_EL1 => frame .pstate
    | .TPIDR_EL0 => frame .zero

end Regs

/-! ## The stack as a list -/

structure Stacked where
  regs : Regs
  sp : UInt64
  stack : List UInt64

namespace Stacked

def push (v : UInt64) (s : Stacked) : Stacked := { s with sp := s.sp - 8, stack := v :: s.stack }

def pop (give : UInt64 → Regs → Regs) (s : Stacked) : Option Stacked :=
  match s.stack with
  | [] => none
  | v :: rest => some { regs := give v s.regs, sp := s.sp + 8, stack := rest }

def exec (s : Stacked) : Instr → Option Stacked
  | .stp a b => some ((s.push (s.regs.x b)).push (s.regs.x a))
  | .ldp a b => (s.pop fun v regs => regs.setX a v).bind fun s => s.pop fun v regs => regs.setX b v
  | .strQ0 => some ((s.push s.regs.q0.2).push s.regs.q0.1)
  | .ldrQ0 => (s.pop fun v regs => { regs with q0 := (v, regs.q0.2) }).bind fun s =>
      s.pop fun v regs => { regs with q0 := (regs.q0.1, v) }
  | .mrs a r => some { s with regs := s.regs.setX a (s.regs.sys r) }
  | .msr r a => some { s with regs := s.regs.setSys r (s.regs.x a) }
  | .mov a value => some { s with regs := s.regs.setX a value }
  | .movSp a => some { s with regs := s.regs.setX a s.sp }

def execAll (s : Stacked) (code : List Instr) : Option Stacked := code.foldlM Stacked.exec s

def top (s : Stacked) : UInt64 := s.sp + 8 * .ofNat s.stack.length

end Stacked

structure Represents (m : Machine) (s : Stacked) : Prop where
  regs : m.regs = s.regs
  sp : m.sp = s.sp
  words : Words m.mem m.sp s.stack

section
variable {m : Machine} {s t : Stacked}

theorem Represents.push {v : UInt64} (represents : Represents m s) (room : 8 * (s.stack.length + 1) ≤ 2 ^ 64) :
    Represents (m.push v) (s.push v) where
  regs := represents.regs
  sp := congrArg (· - 8) represents.sp
  words := represents.words.push room

theorem Represents.pop {give : UInt64 → Regs → Regs} (represents : Represents m s) (popped : s.pop give = some t) :
    Represents (m.pop give) t := by
  obtain ⟨regs, sp, words⟩ := represents
  rw [Stacked.pop] at popped
  cases stack : s.stack with
  | nil => simp [stack] at popped
  | cons v rest =>
    simp only [stack, Option.some.injEq] at popped words
    subst popped
    refine ⟨?_, congrArg (· + 8) sp, words.2⟩
    rw [Machine.pop, words.1, regs]

theorem Represents.regs_only (represents : Represents m s) {regs regs' : Regs} (same : regs = regs') :
    Represents { m with regs := regs } { s with regs := regs' } :=
  ⟨same, represents.sp, represents.words⟩

theorem Represents.exec {i : Instr} (represents : Represents m s) (room : 8 * (s.stack.length + 2) ≤ 2 ^ 64)
    (stepped : s.exec i = some t) : Represents (m.exec i) t := by
  have regs := represents.regs
  cases i with
  | stp a b =>
    cases stepped
    rw [Machine.exec, regs]
    exact (represents.push (by omega)).push room
  | strQ0 =>
    cases stepped
    rw [Machine.exec, regs]
    exact (represents.push (by omega)).push room
  | ldp a b =>
    obtain ⟨u, first, second⟩ := Option.bind_eq_some_iff.mp stepped
    exact (represents.pop first).pop second
  | ldrQ0 =>
    obtain ⟨u, first, second⟩ := Option.bind_eq_some_iff.mp stepped
    exact (represents.pop first).pop second
  | mrs a r =>
    cases stepped
    exact represents.regs_only (by rw [regs])
  | msr r a =>
    cases stepped
    exact represents.regs_only (by rw [regs])
  | mov a value =>
    cases stepped
    exact represents.regs_only (by rw [regs])
  | movSp a =>
    cases stepped
    exact represents.regs_only (by rw [regs, represents.sp])

theorem Stacked.top_push (v : UInt64) (s : Stacked) : (s.push v).top = s.top := by
  have step : 8 * UInt64.ofNat (s.stack.length + 1) = 8 * .ofNat s.stack.length + 8 := by
    rw [UInt64.ofNat_add, UInt64.mul_add]
    rfl
  calc (s.push v).top = s.sp - 8 + (8 * .ofNat s.stack.length + 8) := by rw [← step]; rfl
    _ = s.sp - 8 + 8 + 8 * .ofNat s.stack.length := by ac_rfl
    _ = s.top := by rw [UInt64.sub_add_cancel]; rfl

theorem Stacked.pop_eq {give : UInt64 → Regs → Regs} (popped : s.pop give = some t) :
    ∃ v, t.push v = { s with regs := t.regs } := by
  rw [Stacked.pop] at popped
  split at popped
  · cases popped
  · rename_i v rest stack
    cases popped
    exact ⟨v, by rw [push, UInt64.add_sub_cancel, stack]⟩

/-- An instruction pushes two words at most, and does not move the far end of the stack. -/
theorem Stacked.exec_bounds {i : Instr} (stepped : s.exec i = some t) :
    t.stack.length ≤ s.stack.length + 2 ∧ t.top = s.top := by
  have popped : ∀ {give : UInt64 → Regs → Regs} {s t : Stacked}, s.pop give = some t →
      t.stack.length ≤ s.stack.length ∧ t.top = s.top := by
    intro give s t popped
    obtain ⟨v, same⟩ := pop_eq popped
    have length := congrArg (fun u => u.stack.length) same
    have top : (t.push v).top = s.top := by rw [same]; rfl
    rw [top_push] at top
    exact ⟨by simp [push] at length; omega, top⟩
  cases i with
  | stp a b =>
    cases stepped
    exact ⟨le_refl _, (top_push ..).trans (top_push ..)⟩
  | strQ0 =>
    cases stepped
    exact ⟨le_refl _, (top_push ..).trans (top_push ..)⟩
  | ldp a b =>
    obtain ⟨u, first, second⟩ := Option.bind_eq_some_iff.mp stepped
    have := popped first
    have := popped second
    exact ⟨by omega, (popped second).2.trans (popped first).2⟩
  | ldrQ0 =>
    obtain ⟨u, first, second⟩ := Option.bind_eq_some_iff.mp stepped
    have := popped first
    have := popped second
    exact ⟨by omega, (popped second).2.trans (popped first).2⟩
  | mrs a r | msr r a | mov a value | movSp a =>
    cases stepped
    exact ⟨Nat.le_add_right _ 2, rfl⟩

theorem Represents.execAll {code : List Instr} (represents : Represents m s)
    (room : 8 * (s.stack.length + 2 * code.length) ≤ 2 ^ 64) (ran : s.execAll code = some t) :
    Represents (m.execAll code) t ∧ t.top = s.top := by
  -- on the instructions; each may push two words
  induction code generalizing m s with
  | nil =>
    cases ran
    exact ⟨represents, rfl⟩
  | cons i rest ih =>
    obtain ⟨u, stepped, ran⟩ := Option.bind_eq_some_iff.mp ran
    rw [List.length_cons] at room
    have bounds := Stacked.exec_bounds stepped
    have next := represents.exec (by omega) stepped
    obtain ⟨represents, top⟩ := ih next (by omega) ran
    exact ⟨represents, top.trans bounds.2⟩

end

/-! ## The frame that is pushed, and the one that is popped -/

theorem alltraps_pushes (regs : Regs) (sp : UInt64) :
    ∃ t, Stacked.execAll ⟨regs, sp, []⟩ alltraps = some t ∧ t.stack = Field.all.map regs.field ∧ t.regs.x 0 = t.sp := by
  simp only [Stacked.execAll, alltraps, List.foldlM_cons, List.foldlM_nil, Stacked.exec, Stacked.push,
    Option.bind_eq_bind, Option.bind_some, Option.pure_def]
  refine ⟨_, rfl, ?_, ?_⟩
  · simp [Field.all, Regs.setX, Regs.field, List.finRange_succ]
  · simp [Regs.setX]

def members (pairs : List (Fin 31 × Fin 31)) : List (Fin 31) := pairs.flatMap fun p => [p.1, p.2]

theorem mem_members_cons {n : Fin 31} {p : Fin 31 × Fin 31} {pairs : List (Fin 31 × Fin 31)} :
    n ∈ members (p :: pairs) ↔ n = p.1 ∨ n = p.2 ∨ n ∈ members pairs := by
  rw [members, List.flatMap_cons, List.mem_append, List.mem_pair, or_assoc]
  rfl

theorem pops_pairs (f : Fin 31 → UInt64) (pairs : List (Fin 31 × Fin 31)) (regs : Regs) (sp : UInt64) :
    ∃ sp', Stacked.execAll ⟨regs, sp, (members pairs).map f⟩ (pairs.map fun p => .ldp p.1 p.2) =
      some ⟨{ regs with x := fun n => if n ∈ members pairs then f n else regs.x n }, sp', []⟩ := by
  induction pairs generalizing regs sp with
  | nil => exact ⟨sp, by simp [Stacked.execAll, members]⟩
  | cons p pairs ih =>
    obtain ⟨sp', rest⟩ := ih ((regs.setX p.1 (f p.1)).setX p.2 (f p.2)) (sp + 8 + 8)
    refine ⟨sp', ?_⟩
    have first : Stacked.execAll ⟨regs, sp, (members (p :: pairs)).map f⟩ ((p :: pairs).map fun p => .ldp p.1 p.2) =
        Stacked.execAll ⟨(regs.setX p.1 (f p.1)).setX p.2 (f p.2), sp + 8 + 8, (members pairs).map f⟩
          (pairs.map fun p => .ldp p.1 p.2) := rfl
    rw [first, rest]
    congr 3
    funext n
    simp only [mem_members_cons]
    -- what is popped later is left alone here
    by_cases later : n ∈ members pairs
    · simp [later]
    · by_cases second : n = p.2
      · simp [second, Regs.setX]
      · by_cases first : n = p.1
        · rw [first] at later second
          simp [later, second, first, Regs.setX]
        · simp [later, second, first, Regs.setX]

-- The pairs that `trapret` pops in the end.
def lastPairs : List (Fin 31 × Fin 31) := [
  (1, 2), (3, 4), (5, 6), (7, 8), (9, 10), (11, 12), (13, 14), (15, 16),
  (17, 18), (19, 20), (21, 22), (23, 24), (25, 26), (27, 28), (29, 30)]

theorem trapret_pops (regs : Regs) (sp : UInt64) (frame : Field → UInt64) :
    ∃ t, Stacked.execAll ⟨regs, sp, Field.all.map frame⟩ trapret = some t ∧ t.stack = [] ∧
      t.regs = Regs.ofFrame frame := by
  have split : trapret = trapret.take 8 ++ lastPairs.map fun p => .ldp p.1 p.2 := rfl
  have fields : Field.all.map frame =
      [frame .zero, frame .tpidr0, frame .q0_, frame .q0__, frame .sp, frame .pc, frame .pstate, frame (.r 0)] ++
        (members lastPairs).map fun n => frame (.r n) := rfl
  have first : ∃ t, Stacked.execAll ⟨regs, sp, Field.all.map frame⟩ (trapret.take 8) = some t ∧
      t.stack = (members lastPairs).map (fun n => frame (.r n)) ∧
      { t.regs with x := fun n => if n ∈ members lastPairs then frame (.r n) else t.regs.x n } =
        Regs.ofFrame frame := by
    rw [fields]
    generalize (members lastPairs).map (fun n => frame (.r n)) = rest
    simp only [Stacked.execAll, trapret, List.take_succ_cons, List.take_zero, List.cons_append, List.nil_append,
      List.foldlM_cons, List.foldlM_nil, Stacked.exec, Stacked.pop, Option.bind_eq_bind, Option.bind_some,
      Option.pure_def]
    refine ⟨_, rfl, rfl, ?_⟩
    simp only [Regs.setX, Regs.setSys, Regs.ofFrame]
    congr 1
    · funext n
      by_cases later : n ∈ members lastPairs
      · rw [if_pos later]
      · -- only `x0` is popped before
        have zero : ∀ n, n ∉ members lastPairs → n = 0 := by decide
        simp [zero n later, members, lastPairs]
    · funext s
      cases s <;> simp
  obtain ⟨t, ran, stack, loaded⟩ := first
  obtain ⟨sp', rest⟩ := pops_pairs (fun n => frame (.r n)) lastPairs t.regs t.sp
  rw [← stack] at rest
  rw [split, Stacked.execAll, List.foldlM_append]
  exact ⟨_, (congrArg (· >>= _) ran).trans rest, rfl, loaded⟩

/-! ## Fields of a frame in memory -/

section
variable {mem : UInt64 → UInt8} {tf : UInt64} {f g : Field} {v : UInt64}

theorem Field.index_lt (f : Field) : f.index < all.length := by
  have length : all.length = 38 := rfl
  rw [length]
  cases f with
  | r n =>
    have := n.isLt
    simp only [index]
    omega
  | zero | tpidr0 | q0_ | q0__ | sp | pc | pstate => simp [index]

theorem Field.all_index (f : Field) : all[f.index]? = some f := by
  cases f with
  | r n => fin_cases n <;> rfl
  | zero | tpidr0 | q0_ | q0__ | sp | pc | pstate => rfl

theorem Field.index_all : ∀ k (less : k < all.length), all[k].index = k := by decide

theorem Field.index_injective : Function.Injective Field.index := by
  intro f g same
  have found := all_index f
  rw [same, all_index g] at found
  exact (Option.some.inj found).symm

-- The words at an address are a frame if its fields have those values.
theorem words_frame (frame : Field → UInt64) :
    Words mem tf (Field.all.map frame) ↔ ∀ f, readField mem tf f = frame f := by
  rw [words_iff]
  constructor
  · intro words f
    have found := List.getElem?_eq_some_iff.mp (Field.all_index f)
    have word := words f.index (by rw [List.length_map]; exact f.index_lt)
    rw [List.getElem_map, found.2] at word
    exact word
  · intro fields k less
    rw [List.length_map] at less
    rw [List.getElem_map, ← fields, readField, Field.address, Field.index_all k less]

theorem readField_writeField (mem : UInt64 → UInt8) (tf : UInt64) (f g : Field) (v : UInt64) :
    readField (writeField mem tf f v) tf g = if g = f then v else readField mem tf g := by
  by_cases same : g = f
  · rw [if_pos same, same]
    exact load_store ..
  · have apart : g.index ≠ f.index := fun indices => same (Field.index_injective indices)
    have length : Field.all.length = 38 := rfl
    have below := f.index_lt
    have below' := g.index_lt
    have eight : UInt64.toNat 8 = 8 := rfl
    rw [if_neg same]
    apply load_store_of_apart rfl
    · simp only [Field.address, UInt64.toNat_sub, UInt64.toNat_add, UInt64.toNat_mul, UInt64.toNat_ofNat', eight]
      omega
    · simp only [Field.address, UInt64.toNat_sub, UInt64.toNat_add, UInt64.toNat_mul, UInt64.toNat_ofNat', eight]
      omega

theorem readField_forkFrame {child par : UInt64} (behind : frameSize ≤ (child - par).toNat) (f : Field) :
    readField (forkFrame mem child par) child f = if f = .r 0 then 0 else readField mem par f := by
  have size : frameSize = 8 * Field.all.length := rfl
  have length : Field.all.length = 38 := rfl
  have below := f.index_lt
  have words : (8 : UInt64) * .ofNat f.index = .ofNat (8 * f.index) := by rw [UInt64.ofNat_mul]; rfl
  rw [forkFrame, readField_writeField, memmove_eq behind]
  by_cases r0 : f = .r 0
  · rw [if_pos r0, if_pos r0]
  · rw [if_neg r0, if_neg r0, readField, readField, Field.address, Field.address, words]
    apply load_copied <;> omega

end

/-! ## A trap -/

-- The machine when `trap` is called.
def entered (m : Machine) : Machine := m.execAll alltraps

def returned (m : Machine) : Machine := m.execAll trapret

theorem entered_frame (m : Machine) :
    (∀ f, readField (entered m).mem (entered m).sp f = m.regs.field f) ∧ (entered m).regs.x 0 = (entered m).sp ∧
      (entered m).sp + .ofNat frameSize = m.sp := by
  obtain ⟨t, ran, stack, argument⟩ := alltraps_pushes m.regs m.sp
  have empty : Represents m ⟨m.regs, m.sp, []⟩ := ⟨rfl, rfl, trivial⟩
  have room : 8 * (0 + 2 * alltraps.length) ≤ 2 ^ 64 := by decide
  have size : UInt64.ofNat frameSize = 8 * .ofNat Field.all.length := rfl
  obtain ⟨represents, top⟩ := empty.execAll room ran
  have words := represents.words
  rw [stack] at words
  refine ⟨(words_frame m.regs.field).mp words, ?_, ?_⟩
  · exact (congrArg (fun regs => regs.x 0) represents.regs).trans (argument.trans represents.sp.symm)
  · rw [Stacked.top, Stacked.top, stack] at top
    have sp : (entered m).sp = t.sp := represents.sp
    rw [sp, size]
    simpa using top

theorem returned_frame {m : Machine} {frame : Field → UInt64} (fields : ∀ f, readField m.mem m.sp f = frame f) :
    (returned m).regs = Regs.ofFrame frame ∧ (returned m).sp = m.sp + .ofNat frameSize := by
  obtain ⟨t, ran, stack, loaded⟩ := trapret_pops m.regs m.sp frame
  have full : Represents m ⟨m.regs, m.sp, Field.all.map frame⟩ := ⟨rfl, rfl, (words_frame frame).mpr fields⟩
  have room : 8 * (Field.all.length + 2 * trapret.length) ≤ 2 ^ 64 := by decide
  have size : UInt64.ofNat frameSize = 8 * .ofNat Field.all.length := rfl
  obtain ⟨represents, top⟩ := full.execAll (by rw [List.length_map]; exact room) ran
  rw [Stacked.top, Stacked.top, stack] at top
  have sp : (returned m).sp = t.sp := represents.sp
  refine ⟨represents.regs.trans loaded, ?_⟩
  rw [sp, size]
  simpa using top

/-- The C code has left the frame at the address as it was pushed. -/
def Keeps (m : Machine) (mem : UInt64 → UInt8) : Prop :=
  ∀ f, readField mem (entered m).sp f = readField (entered m).mem (entered m).sp f

theorem Keeps.field {m : Machine} {mem : UInt64 → UInt8} (keeps : Keeps m mem) (f : Field) :
    readField mem (entered m).sp f = m.regs.field f := (keeps f).trans ((entered_frame m).1 f)

/-- The registers with another value in the one that a field stands for. -/
def Regs.set (regs : Regs) (v : UInt64) : Field → Regs
  | .zero | .tpidr0 => regs.setSys .TPIDR_EL0 v
  | .q0_ => { regs with q0 := (v, regs.q0.2) }
  | .q0__ => { regs with q0 := (regs.q0.1, v) }
  | .sp => regs.setSys .SP_EL0 v
  | .pc => regs.setSys .ELR_EL1 v
  | .pstate => regs.setSys .SPSR_EL1 v
  | .r n => regs.setX n v

theorem Regs.ofFrame_field (regs : Regs) : ofFrame regs.field = regs := by
  rw [ofFrame]
  congr 1
  funext s
  cases s <;> rfl

theorem Regs.ofFrame_update (regs : Regs) (v : UInt64) {f : Field} (loaded : f ≠ .tpidr0) :
    ofFrame (Function.update regs.field f v) = regs.set v f := by
  cases f with
  | tpidr0 => exact absurd rfl loaded
  | r n =>
    simp only [ofFrame, set, setX]
    congr 1
    · funext k
      by_cases same : k = n
      · simp [same]
      · simp [same, field]
    · funext s
      cases s <;> simp [field]
  | zero | sp | pc | pstate =>
    simp only [ofFrame, set, setSys]
    congr 1
    funext s
    cases s <;> simp [field]
  | q0_ | q0__ =>
    simp only [ofFrame, set]
    congr 1
    funext s
    cases s <;> simp [field]

/-- For every state of the machine, and whatever `trap` does to the registers: the fields of the
frame are the registers they stand for; `trapret` loads them back; a store to a field that it
loads changes that register alone; a child that gets a copy has the registers of its parent
but for `x0`; and `argint` finds the arguments in `x0` to `x3`. -/
theorem trapframe_agrees (m : Machine) :
    ((entered m).regs.x 0 = (entered m).sp ∧
        ∀ f, readField (entered m).mem (entered m).sp f = m.regs.field f) ∧
      (∀ m' : Machine, m'.sp = (entered m).sp → Keeps m m'.mem → (returned m').regs = m.regs ∧ (returned m').sp = m.sp) ∧
      (∀ (m' : Machine) f v, m'.sp = (entered m).sp → Keeps m m'.mem → f ≠ .tpidr0 →
        let stored := { m' with mem := writeField m'.mem m'.sp f v }
        (returned stored).regs = m.regs.set v f ∧ (returned stored).sp = m.sp) ∧
      (∀ mem child (m' : Machine), Keeps m mem → frameSize ≤ (child - (entered m).sp).toNat → m'.sp = child →
        (∀ f, readField m'.mem child f = readField (forkFrame mem child (entered m).sp) child f) →
        (returned m').regs = m.regs.setX 0 0 ∧ (returned m').sp = child + .ofNat frameSize) ∧
      ∀ mem (n : Fin 4), Keeps m mem → argint mem (entered m).sp (.ofNat n) = some (m.regs.x (n.castLE (by decide))) := by
  have frame := entered_frame m
  refine ⟨⟨frame.2.1, frame.1⟩, ?_, ?_, ?_, ?_⟩
  · intro m' sp keeps
    have fields : ∀ f, readField m'.mem m'.sp f = m.regs.field f := by
      rw [sp]
      exact keeps.field
    have loaded := returned_frame fields
    rw [loaded.1, loaded.2, sp, frame.2.2]
    exact ⟨m.regs.ofFrame_field, rfl⟩
  · intro m' f v sp keeps loads
    have fields : ∀ g, readField (writeField m'.mem m'.sp f v) m'.sp g = Function.update m.regs.field f v g := by
      intro g
      rw [readField_writeField, Function.update_apply, sp, keeps.field]
    have loaded := returned_frame (m := { m' with mem := writeField m'.mem m'.sp f v }) fields
    exact ⟨loaded.1.trans (m.regs.ofFrame_update v loads), by rw [loaded.2, sp, frame.2.2]⟩
  · intro mem child m' keeps apart sp copy
    have fields : ∀ g, readField m'.mem m'.sp g = Function.update m.regs.field (.r 0) 0 g := by
      intro g
      rw [sp, copy, readField_forkFrame apart, Function.update_apply, keeps.field]
    have loaded := returned_frame fields
    exact ⟨loaded.1.trans (m.regs.ofFrame_update 0 (by decide)), by rw [loaded.2, sp]⟩
  · intro mem n keeps
    have small : ¬(Int32.ofNat n > 3) := by
      revert n
      decide
    have place : (Field.r 0).address (entered m).sp + 8 * (Int32.ofNat n).toInt64.toUInt64 =
        (Field.r (n.castLE (by decide))).address (entered m).sp := by
      have words : ∀ n : Fin 4, 8 * UInt64.ofNat (Field.r 0).index + 8 * (Int32.ofNat n).toInt64.toUInt64 =
          8 * .ofNat (Field.r (n.castLE (by decide))).index := by decide
      rw [Field.address, UInt64.add_assoc, words]
      rfl
    rw [argint, if_neg small, place]
    exact congrArg some (keeps.field (.r (n.castLE (by decide))))

def numbered : Machine where
  regs := ⟨fun i => 100 + .ofNat i, (1, 2), fun _ => 7⟩
  sp := 0x5000
  mem _ := 0

theorem trapframe_agrees_numbered :
    argint (entered numbered).mem (entered numbered).sp 2 = some 102 ∧
      (∃ stored, stored = writeField (entered numbered).mem (entered numbered).sp (.r 0) 9 ∧
        (returned { entered numbered with mem := stored }).regs.x 0 = 9 ∧
        (returned { entered numbered with mem := stored }).regs.x 1 = 101) ∧
      ∃ child, child = forkFrame (entered numbered).mem 0x9000 (entered numbered).sp ∧
        (returned ⟨numbered.regs, 0x9000, child⟩).regs.x 0 = 0 ∧
        (returned ⟨numbered.regs, 0x9000, child⟩).regs.x 1 = 101 := by
  have keeps : Keeps numbered (entered numbered).mem := fun _ => rfl
  have apart : frameSize ≤ (0x9000 - (entered numbered).sp).toNat := by decide +kernel
  obtain ⟨_, _, stores, forks, arguments⟩ := trapframe_agrees numbered
  have stored := (stores (entered numbered) (.r 0) 9 rfl keeps (by decide)).1
  have forked := (forks (entered numbered).mem 0x9000 ⟨numbered.regs, 0x9000, _⟩ keeps apart rfl fun _ => rfl).1
  refine ⟨arguments (entered numbered).mem 2 keeps, ⟨_, rfl, ?_, ?_⟩, _, rfl, ?_, ?_⟩
  · exact congrArg (fun regs => regs.x 0) stored
  · exact congrArg (fun regs => regs.x 1) stored
  · exact congrArg (fun regs => regs.x 0) forked
  · exact congrArg (fun regs => regs.x 1) forked

end Xv6.Trap
