import Xv6.File.Operations
import Xv6.Library.Threads
import Xv6.Log.Protocol
import Xv6.Process.Scheduling

/-! Processes that run system calls on files, in any interleaving.

The kernel's processes, the descriptors and current directory of each, the file table, and
the file system. A process makes a request while a CPU runs it; the other actions are those
of the scheduler and the interrupts. Operations of the file system are single steps, so a
`begin_op` or an `ilock` that would sleep is not enabled.
-/

set_option autoImplicit false

namespace Xv6

open Library Syscall

/-- The system calls. -/
inductive Syscall.Call where
  | openat (dirfd : Int) (path : List UInt8) (omode : UInt64)
  | dup (fd : Int)
  | close (fd : Int)
  | read (fd : Int) (count : Int)
  | write (turns : Nat) (fd : Int) (src : Nat → UInt8) (count : Int)
  | writev (turns : Nat) (fd : Int) (iov : List ((Nat → UInt8) × Int))
  | mkdirat (dirfd : Int) (path : List UInt8) (mode : UInt64)
  | mknodat (dirfd : Int) (path : List UInt8) (major minor : UInt64)
  | chdir (path : List UInt8)
  | fork
  | exit
  | wait

namespace Syscall.Call

variable {n : Nat}

def program : Call → Program (Calls n) Unit
  | .openat dirfd path omode => do let _ ← Calls.sysOpenat dirfd path omode
  | .dup fd => do let _ ← Calls.sysDup fd
  | .close fd => do let _ ← Calls.sysClose fd
  | .read fd count => do let _ ← Calls.sysRead fd (fun _ => 0) count
  | .write turns fd src count => do let _ ← Calls.sysWrite turns fd src count
  | .writev turns fd iov => do let _ ← Calls.sysWritev turns fd iov
  | .mkdirat dirfd path mode => do let _ ← Calls.sysMkdirat dirfd path mode
  | .mknodat dirfd path major minor => do let _ ← Calls.sysMknodat dirfd path major minor
  | .chdir path => do let _ ← Calls.sysChdir path
  | .fork => Calls.fork
  | .exit => Calls.exit
  | .wait => Calls.wait

end Syscall.Call

/-- What the processes share, and the call that each of them has entered last. -/
structure Calls.State (C : Type) (n : Nat) where
  kernel : Process.Kernel C n
  ofile : Fin n → Fin nofile → Option (Fin nfile)
  cwd : Fin n → Option (Fin ninode)
  ftable : Ftable
  machine : Machine
  call : Fin n → Option Call

/-- The CPU that a request is made on, and the page that `kalloc` may give. -/
structure Choice (C : Type) where
  cpu : C
  kstack : Option UInt64

namespace Calls.State

variable {C : Type} {n : Nat}

-- A section of `begin_op`, `none` while it sleeps.
def beginOp (log : Log) : Option Log :=
  if log.committing ∨ Log.Protocol.full log then none else some { log with outstanding := log.outstanding + 1 }

-- The first section of `end_op`, which says whether to commit.
def endSection (log : Log) : Bool × Log :=
  let log := { log with outstanding := log.outstanding - 1 }
  if log.outstanding = 0 then (true, { log with committing := true }) else (false, log)

theorem beginOp_outstanding {log log' : Log} (opened : beginOp log = some log') :
    log'.outstanding = log.outstanding + 1 := by
  unfold beginOp at opened
  split at opened
  · cases opened
  · cases opened
    rfl

theorem endSection_outstanding (log : Log) : (endSection log).2.outstanding = log.outstanding - 1 := by
  unfold endSection
  dsimp only
  split <;> rfl

def setFile (s : Calls.State C n) (f : Fin nfile) (x : File) : Calls.State C n :=
  { s with ftable := Function.update s.ftable f x }

def setOfile (s : Calls.State C n) (p : Fin n) (fd : Fin nofile) (f : Option (Fin nfile)) : Calls.State C n :=
  { s with ofile := Function.update s.ofile p (Function.update (s.ofile p) fd f) }

def setCwd (s : Calls.State C n) (p : Fin n) (dir : Option (Fin ninode)) : Calls.State C n :=
  { s with cwd := Function.update s.cwd p dir }

def setLog (s : Calls.State C n) (log : Log) : Calls.State C n := { s with machine := { s.machine with log } }

-- `proc_alloc` clears the descriptors and the directory of the slot.
def allocated (s : Calls.State C n) (kernel : Process.Kernel C n) (child : Fin n) : Calls.State C n :=
  { s with
    kernel
    ofile := Function.update s.ofile child fun _ => none
    cwd := Function.update s.cwd child none }

variable [DecidableEq C] (addr : Fin n → UInt64) (sb : Superblock) (devsw : Fin ndev → Devsw UInt32)

def section_ (a : Process.Action C) (s : Calls.State C n) : Option (Calls.State C n) :=
  (Process.step addr a s.kernel).map fun kernel => { s with kernel }

def perform (p : Fin n) (e : Choice C) : (r : Calls.Request n) → Calls.State C n →
    Option ((Calls n).Reply r × Calls.State C n)
  | .inodes r, s => (Machine.handle sb devsw r s.machine).map fun out => (out.1, { s with machine := out.2 })
  | .beginOp, s => (beginOp s.machine.log).map fun log => ((), s.setLog log)
  | .endSection, s => some ((endSection s.machine.log).1, s.setLog (endSection s.machine.log).2)
  | .commit, s => (s.machine.log.commit.run Store.handle s.machine.store).map fun out =>
      ((), { s with machine := { s.machine with log := out.1, store := out.2 } })
  | .committed, s => some ((), s.setLog { s.machine.log with committing := false })
  | .filealloc, s => some (s.ftable.filealloc.1, { s with ftable := s.ftable.filealloc.2 })
  | .filedup f, s => some ((), { s with ftable := s.ftable.filedup f })
  | .closeSection f, s => some ((s.ftable.fileclose f).1, { s with ftable := (s.ftable.fileclose f).2 })
  | .file f, s => some (s.ftable f, s)
  | .setOff f off, s => some ((), s.setFile f { s.ftable f with off })
  | .setFile f type ip off readable writable, s =>
    some ((), s.setFile f { s.ftable f with type, ip := some ip, off, readable, writable })
  | .ofile, s => some (s.ofile p, s)
  | .setOfile fd f, s => some ((), s.setOfile p fd f)
  | .fdalloc f, s =>
    match Syscall.fdalloc (s.ofile p) f with
    | some (fd, ofile) => some (some fd, { s with ofile := Function.update s.ofile p ofile })
    | none => some (none, s)
  | .cwd, s => some (s.cwd p, s)
  | .setCwd dir, s => some ((), s.setCwd p dir)
  | .procAlloc, s => do
    let kernel ← Process.step addr (.fork e.cpu e.kstack) s.kernel
    let child ← (kernel.thread (some p)).child
    some (child, s.allocated kernel child)
  | .setParent, s => (section_ addr (.forkCopy e.cpu) s).map ((), ·)
  | .setChildFile child fd f, s => some ((), s.setOfile child fd f)
  | .setChildCwd child dir, s => some ((), s.setCwd child (some dir))
  | .forkReady, s => (section_ addr (.forkReady e.cpu) s).map ((), ·)
  | .exitSection, s => (section_ addr (.exit e.cpu) s).map ((), ·)
  | .wait, s => (section_ addr (.wait e.cpu) s).map ((), ·)
  | .panic, _ => none

def answer (p : Fin n) (e : Choice C) (r : Calls.Request n) (s : Calls.State C n) :
    Option ((Calls n).Reply r × Calls.State C n) :=
  if s.kernel.table.cpu e.cpu = some p then perform addr sb devsw p e r s else none

/-- What happens to a process that it has not called for: it is scheduled, it yields, it goes to
sleep where it waits and is woken up. -/
def outside (a : Process.Action C) (s : Calls.State C n) : Option (Calls.State C n) :=
  match a with
  | .fork .. | .forkCopy _ | .forkReady _ | .exit _ | .wait _ => none
  | .userInit kstack => do
    let kernel ← Process.step addr (.userInit kstack) s.kernel
    let child ← (kernel.thread none).child
    some (s.allocated kernel child)
  | .userCopy _ | .userReady | .scheduler _ | .yield _ | .sleep .. | .wakeup _ => section_ addr a s

def rules : Threads (Fin n) Call (Choice C) (Process.Action C) (Calls n) (Calls.State C n) where
  answer := answer addr sb devsw
  enters p c s :=
    if (s.kernel.table.proc p).state = .running then some { s with call := Function.update s.call p (some c) } else none
  body c := c.program
  outside := outside addr

end Calls.State

end Xv6
