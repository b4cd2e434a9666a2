import Xv6.Exec.Operations
import Xv6.File.System
import Xv6.Vm.AddressSpace
import Xv6.Vm.Freeing

/-! The state that `execve` runs on.

It is the file system, memory, and `struct proc` and the trap frame of the caller. The
operations of the lower layers answer the requests; a request that would sleep, panic or
leave an array on the kernel stack has no answer.
-/

set_option autoImplicit false

namespace Xv6

open Library Vm

structure Exec.State where
  machine : Machine
  memory : Memory
  /-- the bytes of `*thisproc()`, and those after it -/
  proc : Nat → UInt8
  tf : Trapframe
  ttbr0 : UInt64

/-- What is fixed while the kernel runs. -/
structure Exec.Kernel where
  sb : Superblock
  devsw : Fin ndev → Devsw UInt32
  /-- the end of the kernel in memory -/
  kend : UInt64
  /-- the entry of the inode cache at an address -/
  inodeAt : UInt64 → Option (Fin ninode)

namespace Exec

def cwdOffset : Nat := 216

namespace State

def sz (s : State) : UInt64 := wordAt s.proc szOffset

def pgdir (s : State) : UInt64 := wordAt s.proc pgdirOffset

def setLog (s : State) (log : Log) : State := { s with machine := { s.machine with log } }

-- Bytes of a file that `readi` copies to an address of the kernel.
def copied (s : State) (machine : Machine) (dst : UInt64) (b : Nat → UInt8) (n : Nat) : State :=
  { s with machine, memory := s.memory.copyBytes dst b n }

end State

variable (kernel : Kernel)

-- `readi(ip, dst, off, n)`: what it returns, the bytes from `dst` on, and what it leaves.
def readTo (ip : Fin ninode) (dst off n : UInt64) (s : State) : Option ((Int × (Nat → UInt8)) × Machine) :=
  Machine.handle kernel.sb kernel.devsw (.readi ip (fun k => s.memory.byte (dst + UInt64.ofNat k)) off n) s.machine

def handle : (r : Exec.Request) → State → Option (Exec.Reply r × State)
  | .inodes r, s => (Machine.handle kernel.sb kernel.devsw r s.machine).map fun out =>
      (out.1, { s with machine := out.2 })
  | .beginOp, s => (Calls.State.beginOp s.machine.log).map fun log => ((), s.setLog log)
  | .endSection, s => some ((Calls.State.endSection s.machine.log).1,
      s.setLog (Calls.State.endSection s.machine.log).2)
  | .commit, s => (s.machine.log.commit.run Store.handle s.machine.store).map fun out =>
      ((), { s with machine := { s.machine with log := out.1, store := out.2 } })
  | .committed, s => some ((), s.setLog { s.machine.log with committing := false })
  | .kalloc, s => (Vm.kalloc s.memory).map fun out => (out.1, { s with memory := out.2 })
  | .memset page, s => some ((), { s with memory := s.memory.memset page })
  | .uvmAlloc pgdir oldsz newsz, s =>
    (Vm.uvmAlloc pgdir oldsz newsz s.memory).map fun out => (out.1, { s with memory := out.2 })
  | .pgdirIwalk pgdir va, s => (Vm.pgdirIwalk pgdir va s.memory).map fun pa => (pa, s)
  | .readi ip dst off n, s =>
    (readTo kernel ip dst off n s).map fun out => (out.1.1, s.copied out.2 dst out.1.2 n.toNat)
  | .memcpy dst src n, s => some ((), { s with memory := s.memory.copyBytes dst src n.toNat })
  | .ustack i, s => if i < MAXARG then some ((), s) else none
  | .argv i, s => if i < MAXPATH then some ((), s) else none
  | .cwd, s => some (kernel.inodeAt (wordAt s.proc cwdOffset), s)
  | .proc offset, s => some (wordAt s.proc offset, s)
  | .setProc offset src n, s => some ((), { s with proc := putBytes s.proc offset src n })
  | .tf, s => some (s.tf, s)
  | .setTf tf, s => some ((), { s with tf })
  | .lttbr0 r, s => some ((), { s with ttbr0 := r })
  | .vmFree pgdir, s => (Vm.vmFree kernel.kend pgdir s.memory).map fun memory => ((), { s with memory })
  | .panic, _ => none

section
variable {kernel : Kernel} {A : Type}

@[simp] theorem run_fs (p : Program Inodes A) (s : State) :
    (fs p).run (handle kernel) s =
      (p.run (Machine.handle kernel.sb kernel.devsw) s.machine).map fun out =>
      (out.1, { s with machine := out.2 }) := by
  induction p generalizing s with
  | done value => rfl
  | call r next ih =>
    simp only [fs, Program.run, handle, Option.bind_map, Function.comp_def, Option.map_bind]
    congr 1
    funext out
    rw [ih]

variable (s : State)

theorem run_then {B : Type} {r : Exec.Request} {reply : Exec.Reply r} {t : State}
    (answered : handle kernel r s = some (reply, t)) (k : Exec.Reply r → Program Exec B) :
    (Program.request (I := Exec) r >>= k).run (handle kernel) s = (k reply).run (handle kernel) t := by
  rw [Program.run_bind, Program.run_request, answered, Option.bind_some]

def State.entered (s : State) (path : List UInt8) (eh : Ehdr) (pgdir : UInt64) (top : Int32) (argc : Nat)
    (sp : UInt64) :
    State :=
  let proc := putBytes (putBytes s.proc nameOffset (stringBytes path) path.length) szOffset (byteOf (extend top)) 8
  let proc := putBytes proc pgdirOffset (byteOf pgdir) 8
  { s with proc, tf := ⟨sp, eh.e_entry, UInt64.ofNat argc, sp⟩, ttbr0 := V2P (wordAt proc pgdirOffset) }

theorem run_commit (path : List UInt8) (eh : Ehdr) (pgdir : UInt64) (top : Int32) (argc : Nat) (sp : UInt64) :
    (commit path eh pgdir top argc sp).run (handle kernel) s =
      (Vm.vmFree kernel.kend (wordAt (putBytes (putBytes s.proc nameOffset (stringBytes path) path.length) szOffset
        (byteOf (extend top)) 8) pgdirOffset) s.memory).map fun memory =>
          ((), { s.entered path eh pgdir top argc sp with memory }) := by
  refine (run_then s rfl _).trans ((run_then _ rfl _).trans ((run_then _ rfl _).trans ((run_then _ rfl _).trans ?_)))
  refine (run_then _ rfl _).trans ((run_then _ rfl _).trans ((run_then _ rfl _).trans ((run_then _ rfl _).trans ?_)))
  refine (run_then _ rfl _).trans ((run_then _ rfl _).trans ?_)
  exact Program.run_request _ _

end

end Exec

end Xv6
