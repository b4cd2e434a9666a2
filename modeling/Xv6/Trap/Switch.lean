import Xv6.Library.Transition
import Xv6.Trap.Frame

/-! `swtch` of `kern/swtch.S`, and the kernel threads that call it.

`swtch` pushes a `struct context` on the stack it leaves, stores its address and pops the
context at the address it is given. A thread that is switched to goes on behind its own call of
`swtch`, with its registers and its stack as they were at that call, whatever the other
threads have done in between on any CPU.
-/

set_option autoImplicit false

namespace Xv6.Trap

open Library

/-! ## The code -/

instance x_ne_zero : @NeZero Nat Zero.ofOfNat0 31 := ⟨Nat.succ_ne_zero 30⟩

inductive SwitchInstr where
  | stack (i : Instr)
  /-- `str xa, [xb]` -/
  | str (a b : Fin 31)
  /-- `mov sp, xa` -/
  | setSp (a : Fin 31)

-- `swtch` up to `br x30`.
def swtch : List SwitchInstr := [
  .stack (.stp 29 30), .stack (.stp 27 28), .stack (.stp 25 26), .stack (.stp 23 24), .stack (.stp 21 22),
  .stack (.stp 19 20), .stack (.stp 17 18), .stack (.stp 8 16), .stack (.stp 6 7), .stack (.stp 4 5),
  .stack (.stp 2 3), .stack (.stp 0 1),
  .stack (.movSp 19), .str 19 0, .setSp 1,
  .stack (.ldp 0 1), .stack (.ldp 2 3), .stack (.ldp 4 5), .stack (.ldp 6 7), .stack (.ldp 8 16),
  .stack (.ldp 17 18), .stack (.ldp 19 20), .stack (.ldp 21 22), .stack (.ldp 23 24), .stack (.ldp 25 26),
  .stack (.ldp 27 28), .stack (.ldp 29 30)]

namespace Machine

def switchExec (m : Machine) : SwitchInstr → Machine
  | .stack i => m.exec i
  | .str a b => { m with mem := store m.mem (m.regs.x b) (m.regs.x a) }
  | .setSp a => { m with sp := m.regs.x a }

def switched (m : Machine) : Machine := swtch.foldl switchExec m

end Machine

def contextPairs : List (Fin 31 × Fin 31) := [
  (0, 1), (2, 3), (4, 5), (6, 7), (8, 16), (17, 18), (19, 20), (21, 22), (23, 24), (25, 26), (27, 28), (29, 30)]

def contextRegs : List (Fin 31) := members contextPairs

-- `sizeof(struct context)`
def contextSize : Nat := 8 * contextRegs.length

def context (regs : Regs) : List UInt64 := contextRegs.map regs.x

/-! ## Pairs of registers on the stack -/

-- Pushes leave the registers, and the memory outside of what they push.
theorem execAll_stp (pairs : List (Fin 31 × Fin 31)) {m : Machine} {b : UInt64}
    (start : m.sp = b + .ofNat (16 * pairs.length)) :
    (m.execAll (pairs.map fun p => .stp p.1 p.2)).regs = m.regs ∧
      (m.execAll (pairs.map fun p => .stp p.1 p.2)).sp = b ∧
      ∀ a, 16 * pairs.length ≤ (a - b).toNat → (m.execAll (pairs.map fun p => .stp p.1 p.2)).mem a = m.mem a := by
  induction pairs generalizing m with
  | nil => exact ⟨rfl, start.trans (UInt64.add_zero b), fun _ _ => rfl⟩
  | cons p pairs ih =>
    rw [List.length_cons] at start ⊢
    have upper : m.sp - 8 = b + .ofNat (16 * pairs.length + 8) := by
      rw [start]
      exact add_ofNat_sub b (16 * pairs.length + 8) 8
    have lower : m.sp - 8 - 8 = b + .ofNat (16 * pairs.length) := by
      rw [upper]
      exact add_ofNat_sub b (16 * pairs.length) 8
    obtain ⟨regs, sp, mem⟩ := ih (m := m.exec (.stp p.1 p.2)) lower
    rw [List.map_cons]
    refine ⟨regs, sp, fun a outside => (mem a (by omega)).trans ?_⟩
    change store (store m.mem (m.sp - 8) _) (m.sp - 8 - 8) _ a = m.mem a
    have first : 16 * pairs.length + 8 + 8 ≤ 16 * (pairs.length + 1) := le_refl _
    have second : 16 * pairs.length + 8 ≤ 16 * (pairs.length + 1) := by omega
    rw [lower, upper, store_outside second outside, store_outside first outside]

theorem members_append (pairs more : List (Fin 31 × Fin 31)) :
    members (pairs ++ more) = members pairs ++ members more :=
  List.flatMap_append ..

/-- Pushing pairs of registers puts their values on the stack, those of the last pair on top. -/
theorem pushes_pairs (pairs : List (Fin 31 × Fin 31)) (regs : Regs) (sp : UInt64) (stack : List UInt64) :
    ∃ sp', Stacked.execAll ⟨regs, sp, stack⟩ (pairs.map fun p => .stp p.1 p.2) =
      some ⟨regs, sp', (members pairs.reverse).map regs.x ++ stack⟩ := by
  induction pairs generalizing sp stack with
  | nil => exact ⟨sp, rfl⟩
  | cons p pairs ih =>
    obtain ⟨sp', rest⟩ := ih (sp - 8 - 8) (regs.x p.1 :: regs.x p.2 :: stack)
    refine ⟨sp', ?_⟩
    have first : Stacked.execAll ⟨regs, sp, stack⟩ ((p :: pairs).map fun p => .stp p.1 p.2) =
        Stacked.execAll ⟨regs, sp - 8 - 8, regs.x p.1 :: regs.x p.2 :: stack⟩ (pairs.map fun p => .stp p.1 p.2) := rfl
    rw [first, rest, List.reverse_cons, members_append]
    simp [members]

theorem execAll_ldp (pairs : List (Fin 31 × Fin 31)) (m : Machine) :
    (m.execAll (pairs.map fun p => .ldp p.1 p.2)).mem = m.mem := by
  induction pairs generalizing m with
  | nil => rfl
  | cons p pairs ih => exact ih (m.exec (.ldp p.1 p.2))

/-! ## One switch -/

def Machine.handOver (m : Machine) : Machine where
  regs := m.regs.setX 19 m.sp
  sp := m.regs.x 1
  mem := store m.mem (m.regs.x 0) m.sp

theorem switched_eq (m : Machine) : m.switched =
    (m.execAll (contextPairs.reverse.map fun p => .stp p.1 p.2)).handOver.execAll
      (contextPairs.map fun p => .ldp p.1 p.2) := rfl

theorem saved (m : Machine) {b : UInt64} (start : m.sp = b + .ofNat contextSize) :
    Words (m.execAll (contextPairs.reverse.map fun p => .stp p.1 p.2)).mem b (context m.regs) := by
  obtain ⟨_, sp, _⟩ := execAll_stp contextPairs.reverse (m := m) start
  obtain ⟨sp', ran⟩ := pushes_pairs contextPairs.reverse m.regs m.sp []
  have empty : Represents m ⟨m.regs, m.sp, []⟩ := ⟨rfl, rfl, trivial⟩
  have room : 8 * (0 + 2 * (contextPairs.reverse.map fun p => Instr.stp p.1 p.2).length) ≤ 2 ^ 64 := by decide
  obtain ⟨represents, _⟩ := empty.execAll room ran
  have words := represents.words
  rwa [sp, List.reverse_reverse, List.append_nil] at words

theorem loaded {m : Machine} {f : Fin 31 → UInt64} (words : Words m.mem m.sp (contextRegs.map f)) :
    (m.execAll (contextPairs.map fun p => .ldp p.1 p.2)).regs =
        { m.regs with x := fun n => if n ∈ contextRegs then f n else m.regs.x n } ∧
      (m.execAll (contextPairs.map fun p => .ldp p.1 p.2)).sp = m.sp + .ofNat contextSize := by
  obtain ⟨sp', ran⟩ := pops_pairs f contextPairs m.regs m.sp
  have full : Represents m ⟨m.regs, m.sp, contextRegs.map f⟩ := ⟨rfl, rfl, words⟩
  have room : 8 * (contextRegs.length + 2 * (contextPairs.map fun p => Instr.ldp p.1 p.2).length) ≤ 2 ^ 64 := by decide
  have size : UInt64.ofNat contextSize = 8 * .ofNat contextRegs.length := rfl
  obtain ⟨represents, top⟩ := full.execAll (by rw [List.length_map]; exact room) ran
  refine ⟨represents.regs, represents.sp.trans ?_⟩
  rw [Stacked.top, Stacked.top, List.length_map] at top
  rw [size]
  simpa using top

/-! ## Kernel stacks -/

/-- The kernel stacks of threads, and the places with the addresses of their contexts: `p->context`
of a process, `c->scheduler` of a CPU. -/
structure Stacks (T : Type) where
  base : T → UInt64
  size : T → Nat
  slot : T → UInt64
  stackApart : ∀ t u a, (a - base t).toNat < size t → (a - base u).toNat < size u → t = u
  slotApart : ∀ t u a, (a - slot t).toNat < 8 → (a - slot u).toNat < 8 → t = u
  slotOutside : ∀ t u a, (a - slot t).toNat < 8 → size u ≤ (a - base u).toNat

namespace Stacks

variable {T : Type} (st : Stacks T)

def height (t : T) (m : Machine) : Nat := (m.sp - st.base t).toNat

/-- The stack pointer is in the stack, above enough room for a context. -/
structure Room (t : T) (m : Machine) : Prop where
  low : contextSize ≤ st.height t m
  high : st.height t m ≤ st.size t

/-- The byte of the stack at an address is in use when `swtch` is called. -/
def Used (t : T) (call : Machine) (a : UInt64) : Prop :=
  st.height t call ≤ (a - st.base t).toNat ∧ (a - st.base t).toNat < st.size t

/-- What a thread relies on while it is switched away from: its context and the stack above it, and
the place with the address of the context. -/
def Keeps (t : T) (call : Machine) (a : UInt64) : Prop :=
  (a - st.slot t).toNat < 8 ∨
    st.height t call - contextSize ≤ (a - st.base t).toNat ∧ (a - st.base t).toNat < st.size t

/-- The thread has called `swtch` on the machine `call`, and can be switched to. -/
structure Suspended (mem : UInt64 → UInt8) (t : T) (call : Machine) : Prop extends st.Room t call where
  pointer : load mem (st.slot t) = call.sp - .ofNat contextSize
  words : Words mem (call.sp - .ofNat contextSize) (context call.regs)
  stack : ∀ a, st.Used t call a → mem a = call.mem a

end Stacks

section
variable {T : Type} {st : Stacks T} {t u : T} {m call : Machine} {mem mem' : UInt64 → UInt8}

theorem Stacks.Room.sp (room : st.Room t m) :
    m.sp = m.sp - .ofNat contextSize + .ofNat contextSize ∧
      m.sp - .ofNat contextSize = st.base t + .ofNat (st.height t m - contextSize) := by
  have top : m.sp = st.base t + .ofNat (st.height t m) := by rw [height, UInt64.ofNat_toNat, add_distance]
  have split : st.height t m = st.height t m - contextSize + contextSize := (Nat.sub_add_cancel room.low).symm
  constructor
  · rw [UInt64.sub_add_cancel]
  · conv_lhs => rw [top, split]
    exact add_ofNat_sub ..

theorem Stacks.Room.context_offset (room : st.Room t m) {i : Nat} (inside : i < contextSize) :
    (m.sp - .ofNat contextSize + .ofNat i - st.base t).toNat = st.height t m - contextSize + i := by
  have bound : st.height t m < 2 ^ 64 := (m.sp - st.base t).toNat_lt
  have low := room.low
  rw [room.sp.2]
  exact toNat_add_sub (toNat_distance _ (by omega)) (by omega)

theorem Stacks.Room.above (room : st.Room t m) {a : UInt64}
    (inStack : (a - st.base t).toNat < st.size t → st.height t m ≤ (a - st.base t).toNat ∨
      (a - st.base t).toNat < st.height t m - contextSize) :
    contextSize ≤ (a - (m.sp - .ofNat contextSize)).toNat := by
  have distance := (a - st.base t).toNat_lt
  have low := room.low
  have high := room.high
  have bound : st.height t m < 2 ^ 64 := (m.sp - st.base t).toNat_lt
  rw [room.sp.2]
  by_cases below : st.height t m - contextSize ≤ (a - st.base t).toNat
  · rw [toNat_sub_offset rfl below]
    by_cases inside : (a - st.base t).toNat < st.size t
    · have := inStack inside
      omega
    · omega
  · -- the distance wraps around
    have far : (a - (st.base t + .ofNat (st.height t m - contextSize))).toNat =
        2 ^ 64 - (st.height t m - contextSize) + (a - st.base t).toNat := by
      have split : a - (st.base t + .ofNat (st.height t m - contextSize)) =
          a - st.base t - .ofNat (st.height t m - contextSize) := by
        rw [UInt64.sub_eq_add_neg, UInt64.neg_add, UInt64.sub_eq_add_neg, UInt64.sub_eq_add_neg,
          UInt64.sub_eq_add_neg, UInt64.add_assoc]
      rw [split, UInt64.toNat_sub, UInt64.toNat_ofNat']
      omega
    rw [far]
    omega

theorem Stacks.Used.keeps {a : UInt64} (used : st.Used t call a) : st.Keeps t call a := by
  refine .inr ⟨?_, used.2⟩
  have := used.1
  omega

theorem Stacks.Keeps.apart {a : UInt64} (keeps : st.Keeps t m a) (other : t ≠ u) : ¬ st.Keeps u call a := by
  intro keeps'
  rcases keeps with slot | stack
  · rcases keeps' with slot' | stack'
    · exact other (st.slotApart t u a slot slot')
    · have := st.slotOutside t u a slot
      omega
  · rcases keeps' with slot' | stack'
    · have := st.slotOutside u t a slot'
      omega
    · exact other (st.stackApart t u a stack.2 stack'.2)

theorem Stacks.Suspended.congr (suspended : st.Suspended mem t call) (same : ∀ a, st.Keeps t call a → mem' a = mem a) :
    st.Suspended mem' t call where
  toRoom := suspended.toRoom
  pointer := by
    rw [← suspended.pointer]
    apply load_congr
    intro i less
    apply same
    left
    rwa [toNat_distance _ (by omega)]
  words := by
    apply suspended.words.congr
    intro i less
    have inside : i < contextSize := by rwa [context, List.length_map] at less
    have high := suspended.high
    have low := suspended.low
    apply same
    right
    rw [suspended.context_offset inside]
    omega
  stack a used := (same a used.keeps).trans (suspended.stack a used)

/-- `swtch` called by a thread suspends it, and changes only memory of the thread itself. -/
theorem Stacks.Room.suspends (room : st.Room t m) (argument : m.regs.x 0 = st.slot t) :
    st.Suspended m.switched.mem t m ∧ ∀ a, ¬ st.Keeps t m a → m.switched.mem a = m.mem a := by
  obtain ⟨start, place⟩ := room.sp
  obtain ⟨regs, sp, mem⟩ := execAll_stp contextPairs.reverse (m := m) start
  have words := saved m start
  have memory : m.switched.mem = store (m.execAll (contextPairs.reverse.map fun p => .stp p.1 p.2)).mem (st.slot t)
      (m.sp - .ofNat contextSize) := by
    rw [switched_eq, execAll_ldp, Machine.handOver, regs, sp, argument]
  have slot : ∀ a, ¬ (a - st.slot t).toNat < 8 → m.switched.mem a =
      (m.execAll (contextPairs.reverse.map fun p => .stp p.1 p.2)).mem a := by
    intro a outside
    rw [memory, store, if_neg outside]
  have inStack : ∀ a, (a - st.base t).toNat < st.size t → ¬ (a - st.slot t).toNat < 8 := by
    intro a inside inSlot
    have := st.slotOutside t t a inSlot
    omega
  refine ⟨⟨room, ?_, ?_, fun a used => ?_⟩, fun a unkept => ?_⟩
  · rw [memory, load_store]
  · -- the slot is not in the context
    apply words.congr
    intro i less
    have inside : i < contextSize := by rwa [context, List.length_map] at less
    have offset := room.context_offset inside
    have high := room.high
    have low := room.low
    exact slot _ (inStack _ (by omega))
  · rw [slot a (inStack a used.2)]
    exact mem a (room.above fun _ => .inl used.1)
  · rw [slot a fun inSlot => unkept (.inl inSlot)]
    refine mem a (room.above fun inside => ?_)
    have low := room.low
    by_contra neither
    exact unkept (.inr ⟨by omega, inside⟩)

theorem handOver_loads (m : Machine) {regs : Regs} (words : Words m.handOver.mem (m.regs.x 1) (context regs)) :
    (m.handOver.execAll (contextPairs.map fun p => .ldp p.1 p.2)).regs =
        { m.regs with x := fun n => if n ∈ contextRegs then regs.x n else m.regs.x n } ∧
      (m.handOver.execAll (contextPairs.map fun p => .ldp p.1 p.2)).sp = m.regs.x 1 + .ofNat contextSize := by
  obtain ⟨loads, moved⟩ := loaded (m := m.handOver) words
  refine ⟨loads.trans ?_, moved⟩
  simp only [Machine.handOver, Regs.setX]
  congr 1
  funext n
  -- x19 has been used, and is loaded again
  by_cases inside : n ∈ contextRegs
  · rw [if_pos inside, if_pos inside]
  · have notScratch : n ≠ 19 := fun same => inside (same ▸ by decide)
    rw [if_neg inside, if_neg inside, Function.update_of_ne notScratch]

/-- `swtch` loads the registers and the stack pointer with which the next thread called it. -/
theorem Stacks.Suspended.resumes (suspended : st.Suspended m.mem u call) (room : st.Room t m)
    (first : m.regs.x 0 = st.slot t) (second : m.regs.x 1 = load m.mem (st.slot u)) (other : t ≠ u) :
    m.switched.regs = { m.regs with x := fun n => if n ∈ contextRegs then call.regs.x n else m.regs.x n } ∧
      m.switched.sp = call.sp := by
  have kept : st.Suspended m.switched.mem u call :=
    suspended.congr fun a keeps => (room.suspends first).2 a (keeps.apart other.symm)
  have words := kept.words
  have pushed := (execAll_stp contextPairs.reverse (m := m) room.sp.1).1
  rw [← suspended.pointer, ← second] at words
  rw [switched_eq, execAll_ldp] at words
  rw [switched_eq]
  generalize m.execAll (contextPairs.reverse.map fun p => .stp p.1 p.2) = stored at words pushed ⊢
  rw [← pushed] at words
  obtain ⟨loads, moved⟩ := handOver_loads stored words
  rw [loads, moved, pushed, second, suspended.pointer, UInt64.sub_add_cancel]
  exact ⟨rfl, rfl⟩

end

-- from here on, a switch is known by what it does to stacks
attribute [irreducible] Machine.switched

/-! ## Threads on the CPUs -/

structure Cpu where
  regs : Regs
  sp : UInt64

/-- The CPU with what a context holds of the registers, and the stack pointer, of a call. -/
def Cpu.resume (now call : Cpu) : Cpu where
  regs := { now.regs with x := fun n => if n ∈ contextRegs then call.regs.x n else now.regs.x n }
  sp := call.sp

theorem Cpu.resume_x {now call : Cpu} {n : Fin 31} (inside : n ∈ contextRegs) :
    (now.resume call).regs.x n = call.regs.x n := if_pos inside

/-- The CPUs and their memory. -/
structure Threads (T C : Type) where
  mem : UInt64 → UInt8
  cpu : C → Cpu
  /-- The thread on whose stack a CPU runs. -/
  runs : C → T
  /-- The calls of `swtch` that have not returned. -/
  calls : T → Option Machine

inductive Act (T C : Type) where
  /-- Anything else that a CPU does. -/
  | compute (c : C) (cpu : Cpu) (mem : UInt64 → UInt8)
  /-- The thread on the CPU calls `swtch` with the context of another thread. -/
  | swtch (c : C) (u : T)
  /-- `proc_alloc` makes a context for a new thread, as if it had called `swtch`. -/
  | prepare (t : T) (call : Machine) (mem : UInt64 → UInt8)
  /-- The stack of a thread is given up. -/
  | retire (t : T)

namespace Threads

variable {T C : Type}

def machine (s : Threads T C) (c : C) : Machine := ⟨(s.cpu c).regs, (s.cpu c).sp, s.mem⟩

section
variable [DecidableEq T] [DecidableEq C]

def switch (s : Threads T C) (c : C) (u : T) (m : Machine) : Threads T C where
  mem := m.mem
  cpu := Function.update s.cpu c ⟨m.regs, m.sp⟩
  runs := Function.update s.runs c u
  calls := Function.update (Function.update s.calls u none) (s.runs c) (some (s.machine c))

@[simp] theorem switch_calls (s : Threads T C) (c : C) (u : T) (m : Machine) :
    (s.switch c u m).calls (s.runs c) = some (s.machine c) := Function.update_self ..

@[simp] theorem switch_runs (s : Threads T C) (c : C) (u : T) (m : Machine) : (s.switch c u m).runs c = u :=
  Function.update_self ..

@[simp] theorem switch_cpu (s : Threads T C) (c : C) (u : T) (m : Machine) :
    (s.switch c u m).cpu c = ⟨m.regs, m.sp⟩ := Function.update_self ..

def step : Act T C → Threads T C → Option (Threads T C)
  | .compute c cpu mem, s => some { s with mem := mem, cpu := Function.update s.cpu c cpu }
  | .swtch c u, s => some (s.switch c u (s.machine c).switched)
  | .prepare t call mem, s => some { s with mem := mem, calls := Function.update s.calls t (some call) }
  | .retire t, s => some { s with calls := Function.update s.calls t none }

end

def Spares (st : Stacks T) (s : Threads T C) (mem : UInt64 → UInt8) : Prop :=
  ∀ t call, s.calls t = some call → ∀ a, st.Keeps t call a → mem a = s.mem a

/-- `sched` and `scheduler` pass the place for the context of their own thread, and a context that
has been stored; all other code keeps out of the stacks of other threads. -/
def Proper (st : Stacks T) : Act T C → Threads T C → Prop
  | .compute _ _ mem, s => s.Spares st mem
  | .swtch c u, s => st.Room (s.runs c) (s.machine c) ∧ (s.cpu c).regs.x 0 = st.slot (s.runs c) ∧
      (s.cpu c).regs.x 1 = load s.mem (st.slot u) ∧ s.calls u ≠ none
  | .prepare t call mem, s => s.Spares st mem ∧ (∀ c, s.runs c ≠ t) ∧ s.calls t = none ∧ st.Suspended mem t call
  | .retire _, _ => True

/-- Each thread runs on one CPU or can be switched to, but not both. -/
structure Inv (st : Stacks T) (s : Threads T C) : Prop where
  suspended : ∀ t call, s.calls t = some call → st.Suspended s.mem t call
  running : ∀ c, s.calls (s.runs c) = none
  apart : Function.Injective s.runs

section
variable {st : Stacks T} {s t : Threads T C} {act : Act T C} {u : T} {c : C} {call : Machine}

theorem Inv.spared (inv : s.Inv st) {mem : UInt64 → UInt8} (spares : s.Spares st mem) :
    ∀ t call, s.calls t = some call → st.Suspended mem t call := by
  intro t call found
  apply (inv.suspended t call found).congr
  exact spares t call found

theorem Inv.other (inv : s.Inv st) (found : s.calls u ≠ none) (c : C) : s.runs c ≠ u := by
  intro same
  exact found (same ▸ inv.running c)

variable [DecidableEq T] [DecidableEq C]

theorem Inv.switch (inv : s.Inv st) (found : s.calls u ≠ none) {m : Machine}
    (suspended : st.Suspended m.mem (s.runs c) (s.machine c))
    (outside : ∀ a, ¬ st.Keeps (s.runs c) (s.machine c) a → m.mem a = s.mem a) : (s.switch c u m).Inv st := by
  have other := inv.other found
  constructor
  · intro v call called
    by_cases self : v = s.runs c
    · subst self
      simp only [Threads.switch, Function.update_self] at called
      cases called
      exact suspended
    · simp only [Threads.switch, Function.update_of_ne self] at called
      by_cases next : v = u
      · simp only [next, Function.update_self] at called
        cases called
      · simp only [Function.update_of_ne next] at called
        apply (inv.suspended v call called).congr
        intro a keeps
        exact outside a (keeps.apart self)
  · intro d
    by_cases here : d = c
    · have elsewhere : u ≠ s.runs c := (other c).symm
      simp only [Threads.switch, here, Function.update_self, Function.update_of_ne elsewhere]
    · have elsewhere : s.runs d ≠ s.runs c := fun same => here (inv.apart same)
      simp only [Threads.switch, Function.update_of_ne here, Function.update_of_ne elsewhere,
        Function.update_of_ne (other d)]
      exact inv.running d
  · intro d e same
    by_cases first : d = c
    · by_cases second : e = c
      · rw [first, second]
      · simp only [Threads.switch, first, Function.update_self, Function.update_of_ne second] at same
        exact absurd same.symm (other e)
    · by_cases second : e = c
      · simp only [Threads.switch, second, Function.update_self, Function.update_of_ne first] at same
        exact absurd same (other d)
      · simp only [Threads.switch, Function.update_of_ne first, Function.update_of_ne second] at same
        exact inv.apart same

theorem Inv.step (inv : s.Inv st) (proper : Proper st act s) (stepped : Threads.step act s = some t) : t.Inv st := by
  cases act with
  | compute c cpu mem =>
    cases stepped
    exact ⟨inv.spared proper, inv.running, inv.apart⟩
  | swtch c u =>
    obtain ⟨room, slot, _, found⟩ := proper
    obtain ⟨suspended, outside⟩ := room.suspends slot
    rw [← Option.some.inj stepped]
    exact inv.switch found suspended outside
  | prepare v call mem =>
    cases stepped
    obtain ⟨spares, notRunning, _, suspended⟩ := proper
    constructor
    · intro w call' called
      by_cases self : w = v
      · subst self
        simp only [Function.update_self] at called
        cases called
        exact suspended
      · simp only [Function.update_of_ne self] at called
        exact inv.spared spares w call' called
    · intro c
      simp only [Function.update_of_ne (notRunning c)]
      exact inv.running c
    · exact inv.apart
  | retire v =>
    cases stepped
    constructor
    · intro w call called
      by_cases self : w = v
      · simp only [self, Function.update_self] at called
        cases called
      · simp only [Function.update_of_ne self] at called
        exact inv.suspended w call called
    · intro c
      by_cases self : s.runs c = v
      · simp only [self, Function.update_self]
      · simp only [Function.update_of_ne self]
        exact inv.running c
    · exact inv.apart

def Leaves (u : T) : Act T C → Prop
  | .swtch _ v | .retire v => v ≠ u
  | .compute _ _ _ | .prepare _ _ _ => True

theorem Inv.leaves (inv : s.Inv st) (proper : Proper st act s) (stepped : Threads.step act s = some t)
    (leaves : Leaves u act) (called : s.calls u = some call) : t.calls u = some call := by
  cases act with
  | compute c cpu mem =>
    cases stepped
    exact called
  | swtch c v =>
    have notSelf : u ≠ s.runs c := by
      intro same
      rw [same, inv.running c] at called
      cases called
    rw [← Option.some.inj stepped]
    simp only [Threads.switch, Function.update_of_ne notSelf, Function.update_of_ne leaves.symm]
    exact called
  | prepare v call' mem =>
    cases stepped
    have notSelf : u ≠ v := by
      intro same
      rw [same, proper.2.2.1] at called
      cases called
    simp only [Function.update_of_ne notSelf]
    exact called
  | retire v =>
    cases stepped
    simp only [Function.update_of_ne leaves.symm]
    exact called

/-- A thread stays switched away along a run that neither switches to it nor gives it up. -/
theorem Inv.leaves_run (inv : s.Inv st) {acts : List (Act T C)} (proper : Meets Threads.step (Proper st) acts s)
    (leaves : ∀ act ∈ acts, Leaves u act) (ran : run Threads.step acts s = some t) (called : s.calls u = some call) :
    t.Inv st ∧ t.calls u = some call := by
  induction acts generalizing s with
  | nil =>
    cases ran
    exact ⟨inv, called⟩
  | cons act acts ih =>
    obtain ⟨next, stepped, rest⟩ := run_cons_eq_some.mp ran
    have first : Leaves u act := leaves act List.mem_cons_self
    have later : ∀ act ∈ acts, Leaves u act := fun act member => leaves act (List.mem_cons_of_mem _ member)
    have nextInv := inv.step proper.1 stepped
    have nextCalled := inv.leaves proper.1 stepped first called
    exact ih nextInv (proper.2 next stepped) later rest nextCalled

/-- A thread that called `swtch` on one CPU and is switched to on any CPU has there the registers of the
context, the stack pointer and the stack with which it called, and runs nowhere else. -/
theorem switched_back {before between : List (Act T C)} {a d e : Threads T C} {c c' : C} {v : T} (start : s.Inv st)
    (proper : Meets step (Proper st) (before ++ .swtch c v :: (between ++ [.swtch c' (a.runs c)])) s)
    (called : run step before s = some a) (away : ∀ act ∈ between, Leaves (a.runs c) act)
    (reached : run step (.swtch c v :: between) a = some d) (returned : step (.swtch c' (a.runs c)) d = some e) :
    e.cpu c' = (d.cpu c').resume (a.cpu c) ∧
      (∀ addr, st.Used (a.runs c) (a.machine c) addr → e.mem addr = a.mem addr) ∧
      ∀ b, e.runs b = a.runs c ↔ b = c' := by
  have preserved : ∀ act (s t : Threads T C), s.Inv st → Proper st act s → step act s = some t → t.Inv st :=
    fun _ _ _ inv ok stepped => inv.step ok stepped
  have first : a.Inv st := run_invariant_of_meets preserved start proper.earlier called
  have later := proper.later called
  obtain ⟨b, left, ran⟩ := run_cons_eq_some.mp reached
  have second : b.Inv st := first.step later.1 left
  have suspended : b.calls (a.runs c) = some (a.machine c) := by rw [← Option.some.inj left, switch_calls]
  have rest := later.2 b left
  obtain ⟨third, still⟩ := second.leaves_run rest.earlier away ran suspended
  obtain ⟨room, slot, argument, found⟩ := (rest.later ran).1
  have waiting := third.suspended _ _ still
  have other := third.other found c'
  have outside := (room.suspends slot).2
  have resumes := waiting.resumes room slot argument other
  have last : e.Inv st := third.step (rest.later ran).1 returned
  have here : e.runs c' = a.runs c := by rw [← Option.some.inj returned, switch_runs]
  refine ⟨?_, fun addr used => ?_, fun b => ?_⟩
  · rw [← Option.some.inj returned, switch_cpu, resumes.1, resumes.2]
    rfl
  · rw [← Option.some.inj returned]
    exact (outside addr (used.keeps.apart other.symm)).trans (waiting.stack addr used)
  · constructor
    · intro same
      exact last.apart (same.trans here.symm)
    · intro same
      rw [same, here]

end

/-! ## Two threads on a CPU -/

def twoStacks : Stacks Bool where
  base t := if t then 0 else 0x1000
  size _ := 512
  slot t := if t then 0x3008 else 0x3000
  stackApart t u a inT inU := by
    rw [UInt64.toNat_sub] at inT inU
    have := a.toNat_lt
    cases t <;> cases u <;> simp at inT inU ⊢ <;> omega
  slotApart t u a inT inU := by
    rw [UInt64.toNat_sub] at inT inU
    have := a.toNat_lt
    cases t <;> cases u <;> simp at inT inU ⊢ <;> omega
  slotOutside t u a inT := by
    rw [UInt64.toNat_sub] at inT ⊢
    have := a.toNat_lt
    cases t <;> cases u <;> simp at inT ⊢ <;> omega

def oneCall (sp x0 x1 : UInt64) : Cpu where
  regs := ⟨fun n => if n = 0 then x0 else if n = 1 then x1 else 0, (0, 0), fun _ => 0⟩
  sp := sp

def twoThreads : Threads Bool Unit where
  mem _ := 0
  cpu _ := oneCall 0x1200 0x3000 0
  runs _ := false
  calls t := if t then some ⟨(oneCall 192 0 0).regs, 192, fun _ => 0⟩ else none

theorem twoThreads_inv : twoThreads.Inv twoStacks where
  suspended t call found := by
    cases t with
    | false => cases found
    | true =>
      cases found
      refine ⟨⟨by decide, by decide⟩, by decide, ?_, fun _ _ => rfl⟩
      apply words_iff.mpr
      intro k less
      simp only [context, List.getElem_map, oneCall, ite_self]
      rfl
  running _ := rfl
  apart _ _ _ := rfl

-- The second thread prepares its own call of `swtch`.
def turn : Act Bool Unit := .compute () (oneCall 192 0x3008 0x1140) (twoThreads.machine ()).switched.mem

def thereAndBack : List (Act Bool Unit) := [.swtch () true, turn, .swtch () false]

theorem thereAndBack_proper : Meets step (Proper twoStacks) thereAndBack twoThreads := by
  have first : Proper twoStacks (.swtch () true) twoThreads :=
    ⟨⟨by decide, by decide⟩, rfl, by decide, by simp [twoThreads]⟩
  refine ⟨first, fun b left => ?_⟩
  have second : b.Inv twoStacks := twoThreads_inv.step first left
  rw [← Option.some.inj left] at second ⊢
  refine ⟨fun _ _ _ _ _ => rfl, fun d computed => ?_⟩
  rw [← Option.some.inj computed]
  have waiting := second.suspended false (twoThreads.machine ()) (switch_calls ..)
  refine ⟨⟨⟨by decide, by decide⟩, rfl, waiting.pointer.symm, ?_⟩, fun _ _ => trivial⟩
  simp [switch, twoThreads]

theorem twoThreads_back : ∃ e, run step thereAndBack twoThreads = some e ∧
    (e.cpu ()).sp = 0x1200 ∧ (e.cpu ()).regs.x 0 = 0x3000 := by
  have called : run step [] twoThreads = some twoThreads := rfl
  have proper : Meets step (Proper twoStacks) ([] ++ .swtch () true :: ([turn] ++ [.swtch () (twoThreads.runs ())]))
      twoThreads := thereAndBack_proper
  have away : ∀ act ∈ [turn], Leaves (twoThreads.runs ()) act := by simp [Leaves, turn]
  obtain ⟨d, reached⟩ : ∃ d, run step (.swtch () true :: [turn]) twoThreads = some d := ⟨_, rfl⟩
  obtain ⟨e, returned⟩ : ∃ e, step (.swtch () false) d = some e := ⟨_, rfl⟩
  have back := switched_back twoThreads_inv proper called away reached returned
  refine ⟨e, run_append_eq_some.mpr ⟨d, reached, (run_singleton ..).trans returned⟩, ?_⟩
  have inContext : (0 : Fin 31) ∈ contextRegs := by decide
  rw [back.1]
  exact ⟨rfl, Cpu.resume_x inContext⟩

end Threads

end Xv6.Trap
