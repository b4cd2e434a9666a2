import Xv6.Library.Program
import Mathlib.Tactic.Common
import Mathlib.Algebra.Ring.Nat

/-! System call arguments and the calls that `sys_read` and `sys_write` make.

The registers of the trap frame are 64 bits wide and `argptr` takes the size of
a buffer as an `int`: the conversions are those of the C types. The theorem says
for which arguments the buffer handed on lies in the caller's address range.
-/

set_option autoImplicit false

namespace Xv6.Syscall

open Library

def nofile : Nat := 16

instance registers_ne_zero : @NeZero Nat Zero.ofOfNat0 4 := ⟨Nat.succ_ne_zero 3⟩

/-- What the argument functions read of `thisproc()`: `sz`, `ofile` and the
registers `r0` to `r3` of its trap frame. -/
structure Caller (F : Type) where
  sz : UInt64
  ofile : Fin nofile → Option F
  r : Fin 4 → UInt64

section
variable {F : Type}

/-- An argument index over 3 is a panic in the source; here there is none. -/
def argint (proc : Caller F) (n : Fin 4) : UInt64 := proc.r n

def argptr (proc : Caller F) (n : Fin 4) (size : Int32) : Option UInt64 :=
  let i := argint proc n
  if i ≥ proc.sz ∨ i + size.toInt64.toUInt64 > proc.sz then none else some i

def argfd (proc : Caller F) (n : Fin 4) : Option F :=
  let fd := (argint proc n).toInt64
  if open_ : fd < 0 ∨ fd.toInt ≥ nofile then none
  else proc.ofile ⟨fd.toInt.toNat, by
    obtain ⟨notNegative, below⟩ := not_or.mp open_
    have start : (0 : Int) ≤ fd.toInt := by
      rw [Int64.lt_iff_toInt_lt] at notNegative
      simpa using notNegative
    omega⟩

-- The calls of `file.c`, with its `ssize_t` length.
inductive FileRequest (F : Type) where
  | fileread (f : F) (addr : UInt64) (n : Int64)
  | filewrite (f : F) (addr : UInt64) (n : Int64)

abbrev FileCalls (F : Type) : Interface where
  Request := FileRequest F
  Reply _ := Int64

-- The reading half of `sys_read` and `sys_write`: file, base and length.
def ioArguments (proc : Caller F) : Option (F × UInt64 × UInt64) := do
  let f ← argfd proc 0
  let len := argint proc 2
  -- the length becomes an `int` where it is passed on
  let base ← argptr proc 1 len.toUInt32.toInt32
  some (f, base, len)

def sysRead (proc : Caller F) : Program (FileCalls F) Int64 :=
  match ioArguments proc with
  | none => pure (-1)
  | some (f, base, len) => Program.request (I := FileCalls F) (.fileread f base len.toInt64)

def sysWrite (proc : Caller F) : Program (FileCalls F) Int64 :=
  match ioArguments proc with
  | none => pure (-1)
  | some (f, base, len) => Program.request (I := FileCalls F) (.filewrite f base len.toInt64)

/-- The whole range of the call lies below `sz`, without a wrap. -/
def FileRequest.Inside (sz : UInt64) : FileRequest F → Prop
  | .fileread _ addr n => addr.toNat + n.toUInt64.toNat ≤ sz.toNat
  | .filewrite _ addr n => addr.toNat + n.toUInt64.toNat ≤ sz.toNat

instance (sz : UInt64) : (call : FileRequest F) → Decidable (call.Inside sz)
  | .fileread _ addr n => inferInstanceAs (Decidable (addr.toNat + n.toUInt64.toNat ≤ sz.toNat))
  | .filewrite _ addr n => inferInstanceAs (Decidable (addr.toNat + n.toUInt64.toNat ≤ sz.toNat))

theorem signExtended_toNat (len : UInt64) :
    (len.toUInt32.toInt32.toInt64.toUInt64).toNat =
      len.toNat % 2 ^ 32 + if len.toNat % 2 ^ 32 < 2 ^ 31 then 0 else 2 ^ 64 - 2 ^ 32 := by
  change ((len.toBitVec.setWidth 32).signExtend 64).toNat = _
  have narrow : (len.toBitVec.setWidth 32).toNat = len.toNat % 2 ^ 32 := by simp
  have wide : ((len.toBitVec.setWidth 32).setWidth 64).toNat = len.toNat % 2 ^ 32 := by
    rw [BitVec.toNat_setWidth_of_le (by decide), narrow]
  rw [BitVec.toNat_signExtend, wide, BitVec.msb_eq_decide, narrow]
  by_cases small : len.toNat % 2 ^ 32 < 2 ^ 31
  · rw [if_pos small, decide_eq_false (Nat.not_le_of_lt small)]
    rfl
  · rw [if_neg small, decide_eq_true (Nat.le_of_not_lt small)]
    rfl

theorem argptr_eq_some {proc : Caller F} {n : Fin 4} {size : Int32} {base : UInt64} :
    argptr proc n size = some base ↔
      base = proc.r n ∧ base < proc.sz ∧ base + size.toInt64.toUInt64 ≤ proc.sz := by
  by_cases refused : argint proc n ≥ proc.sz ∨ argint proc n + size.toInt64.toUInt64 > proc.sz
  · simp only [argptr, if_pos refused, reduceCtorEq, false_iff]
    rintro ⟨rfl, below, inside⟩
    rcases refused with outside | outside
    · exact UInt64.not_lt.mpr outside below
    · exact UInt64.not_lt.mpr inside outside
  · simp only [argptr, if_neg refused, Option.some.injEq]
    obtain ⟨below, inside⟩ := not_or.mp refused
    constructor
    · rintro rfl
      exact ⟨rfl, UInt64.not_le.mp below, UInt64.not_lt.mp inside⟩
    · rintro ⟨rfl, _⟩
      rfl

/-- One of the tests refuses the call, or the length survives its way through the
`int` parameter and the addition does not wrap. A length that is cut off may
still happen to fit. -/
def Checked (proc : Caller F) : Prop :=
  argfd proc 0 = none ∨ argptr proc 1 (proc.r 2).toUInt32.toInt32 = none ∨
    ((proc.r 2).toNat < 2 ^ 31 ∧ (proc.r 1).toNat + (proc.r 2).toNat < 2 ^ 64) ∨
    (2 ^ 31 ≤ (proc.r 2).toNat ∧ (proc.r 2).toNat ≤ proc.sz.toNat - (proc.r 1).toNat)

theorem accepted_inside_iff {proc : Caller F} {base : UInt64}
    (accepted : argptr proc 1 (proc.r 2).toUInt32.toInt32 = some base) :
    base.toNat + (proc.r 2).toNat ≤ proc.sz.toNat ↔
      ((proc.r 2).toNat < 2 ^ 31 ∧ (proc.r 1).toNat + (proc.r 2).toNat < 2 ^ 64) ∨
      (2 ^ 31 ≤ (proc.r 2).toNat ∧ (proc.r 2).toNat ≤ proc.sz.toNat - (proc.r 1).toNat) := by
  obtain ⟨rfl, below, inside⟩ := argptr_eq_some.mp accepted
  have sz := proc.sz.toNat_lt
  rw [UInt64.lt_iff_toNat_lt] at below
  rw [UInt64.le_iff_toNat_le, UInt64.toNat_add, signExtended_toNat] at inside
  by_cases small : (proc.r 2).toNat < 2 ^ 31
  · -- the extension is the length itself, and only a wrap can hide an overrun
    rw [Nat.mod_eq_of_lt (show (proc.r 2).toNat < 2 ^ 32 by omega), if_pos small] at inside
    omega
  · omega

theorem ioArguments_inside_iff {proc : Caller F} :
    (∀ f base len, ioArguments proc = some (f, base, len) → base.toNat + len.toNat ≤ proc.sz.toNat) ↔
      Checked proc := by
  cases file : argfd proc 0 with
  | none => simp [ioArguments, Checked, file]
  | some f =>
    cases pointer : argptr proc 1 (proc.r 2).toUInt32.toInt32 with
    | none => simp [ioArguments, Checked, argint, file, pointer]
    | some base =>
      have unfolded : ioArguments proc = some (f, base, proc.r 2) := by
        simp [ioArguments, argint, file, pointer]
      rw [unfolded]
      simp only [Checked, file, pointer, reduceCtorEq, false_or, Option.some.injEq, Prod.mk.injEq]
      rw [← accepted_inside_iff pointer]
      constructor
      · exact fun all => all f base _ ⟨rfl, rfl, rfl⟩
      · rintro inside _ _ _ ⟨rfl, rfl, rfl⟩
        exact inside

/-- A call of `fileread` or `filewrite` stays inside the caller's range exactly
when the arguments meet `Checked`. -/
theorem userBuffer_inside {S : Type}
    (handler : (r : (FileCalls F).Request) → S → Option ((FileCalls F).Reply r × S))
    (s : S) (proc : Caller F) :
    ((sysRead proc).Along handler (fun call _ => call.Inside proc.sz) s ↔ Checked proc) ∧
      ((sysWrite proc).Along handler (fun call _ => call.Inside proc.sz) s ↔ Checked proc) := by
  rw [← ioArguments_inside_iff]
  -- the length that is handed on is the argument register again
  have same : ∀ len : UInt64, len.toInt64.toUInt64 = len := fun _ => rfl
  cases arguments : ioArguments proc with
  | none => simp [sysRead, sysWrite, arguments]
  | some call =>
    obtain ⟨f, base, len⟩ := call
    rw [sysRead, sysWrite, arguments]
    constructor
    · refine Program.along_request.trans ⟨?_, fun all => all f base len rfl⟩
      rintro inside _ _ _ ⟨rfl, rfl, rfl⟩
      exact inside
    · refine Program.along_request.trans ⟨?_, fun all => all f base len rfl⟩
      rintro inside _ _ _ ⟨rfl, rfl, rfl⟩
      exact inside

-- Every call of `file.c` answers 0.
def answered (r : (FileCalls F).Request) (s : Unit) : Option ((FileCalls F).Reply r × Unit) :=
  some ((0 : Int64), s)

def oversized : Caller Unit where
  sz := 4096
  ofile _ := some ()
  r n := if n = 2 then 0x100000000 else 0

def pageEnd : Caller Unit where
  sz := 4096
  ofile _ := some ()
  r n := if n = 1 then 4000 else if n = 2 then 96 else 0

theorem userBuffer_inside_pageEnd :
    (sysRead pageEnd).Along answered (fun call _ => call.Inside pageEnd.sz) () ∧
      (sysWrite pageEnd).Along answered (fun call _ => call.Inside pageEnd.sz) () ∧
      ¬ (sysWrite oversized).Along answered (fun call _ => call.Inside oversized.sz) () := by
  have checked : Checked pageEnd := .inr (.inr (.inl (by decide)))
  have unchecked : ¬ Checked oversized := by
    unfold Checked
    decide
  exact ⟨(userBuffer_inside answered () pageEnd).1.mpr checked, (userBuffer_inside answered () pageEnd).2.mpr checked,
    mt (userBuffer_inside answered () oversized).2.mp unchecked⟩

theorem oversized_outside :
    ¬ ∀ proc : Caller Unit,
      (sysRead proc).Along answered (fun call _ => call.Inside proc.sz) () ∧
        (sysWrite proc).Along answered (fun call _ => call.Inside proc.sz) () := by
  intro always
  have outside : ¬ (sysRead oversized).Along answered (fun call _ => call.Inside oversized.sz) () := by decide
  exact outside (always oversized).1

end

end Xv6.Syscall
