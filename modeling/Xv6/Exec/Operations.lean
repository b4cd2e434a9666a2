import Xv6.Fs.Path
import Xv6.Vm.Bytes

/-! `execve` of `kern/exec.c`, and `sys_exec` of `kern/sysfile.c`.

They are programs over the operations on inodes, the sections of `begin_op` and `end_op`, the
functions of `kern/vm.c` and `kern/kalloc.c` and stores to `struct proc` and to arrays on the
kernel stack. Where the kernel copies to memory, the address is that of the kernel.
-/

set_option autoImplicit false

namespace Xv6

open Library Vm

/-! ## The executable -/

def PT_LOAD : UInt32 := 1

/-- `Elf64_Ehdr`, as far as it is used -/
structure Ehdr where
  e_entry : UInt64
  e_phoff : UInt64
  e_phnum : UInt16

structure Phdr where
  p_type : UInt32
  p_offset : UInt64
  p_vaddr : UInt64
  p_filesz : UInt64
  p_memsz : UInt64
  deriving DecidableEq

-- `sizeof(Elf64_Ehdr)`
def ehdrSize : Nat := 64

-- `sizeof(Elf64_Phdr)`
def phdrSize : Nat := 56

@[irreducible] def Ehdr.ofBytes (b : Nat → UInt8) : Ehdr where
  e_entry := wordAt b 24
  e_phoff := wordAt b 32
  e_phnum := (wordAt b 56).toUInt16

@[irreducible] def Phdr.ofBytes (b : Nat → UInt8) : Phdr where
  p_type := (wordAt b 0).toUInt32
  p_offset := wordAt b 8
  p_vaddr := wordAt b 16
  p_filesz := wordAt b 32
  p_memsz := wordAt b 40

def Ehdr.offset (eh : Ehdr) (i : Nat) : Int32 := eh.e_phoff.toUInt32.toInt32 + Int32.ofNat (phdrSize * i)

/-! ## Requests -/

structure Trapframe where
  sp : UInt64
  pc : UInt64
  r0 : UInt64
  r1 : UInt64

def MAXARG : Nat := 32

-- The size of `argv` in `sys_exec`.
def MAXPATH : Nat := 128

inductive Exec.Request where
  | inodes (r : Inodes.Request)
  /-- the turn of `begin_op` that does not sleep -/
  | beginOp
  /-- the first section of `end_op` -/
  | endSection
  | commit
  | committed
  | kalloc
  /-- `memset(page, 0, PGSIZE)` -/
  | memset (page : UInt64)
  | uvmAlloc (pgdir oldsz newsz : UInt64)
  | pgdirIwalk (pgdir va : UInt64)
  /-- `readi(ip, dst, off, n)`, for an address of the kernel -/
  | readi (ip : Fin ninode) (dst off n : UInt64)
  /-- `memcpy(dst, src, n)`, for an address of the kernel -/
  | memcpy (dst : UInt64) (src : Nat → UInt8) (n : UInt64)
  /-- a store to `ustack[i]` -/
  | ustack (i : Nat)
  /-- a store to `argv[i]` -/
  | argv (i : Nat)
  /-- `thisproc()->cwd` -/
  | cwd
  /-- the word at an offset of `*thisproc()` -/
  | proc (offset : Nat)
  /-- a store of `n` bytes at an offset of `*thisproc()` -/
  | setProc (offset : Nat) (src : Nat → UInt8) (n : Nat)
  /-- `*thisproc()->tf` -/
  | tf
  | setTf (tf : Trapframe)
  | lttbr0 (r : UInt64)
  | vmFree (pgdir : UInt64)
  | panic

abbrev Exec : Interface where
  Request := Exec.Request
  Reply
    | .inodes r => Inodes.Reply r
    | .endSection => Bool
    | .kalloc | .pgdirIwalk .. | .proc _ => UInt64
    | .uvmAlloc .. => Int64
    | .readi .. => Int
    | .cwd => Option (Fin ninode)
    | .tf => Trapframe
    | .beginOp | .commit | .committed | .memset _ | .memcpy .. | .ustack _ | .argv _ | .setProc .. | .setTf _ |
        .lttbr0 _
    | .vmFree _ => Unit
    | .panic => Empty

namespace Exec

def fs {A : Type} : Program Inodes A → Program Exec A
  | .done value => .done value
  | .call r next => .call (I := Exec) (.inodes r) fun reply => fs (next reply)

def panic {A : Type} : Program Exec A := .call (I := Exec) .panic Empty.elim

def beginOp : Program Exec Unit := .request (I := Exec) .beginOp

def endOp : Program Exec Unit := do
  let cmt : Bool ← Program.request (I := Exec) .endSection
  if cmt then
    Program.request (I := Exec) .commit
    Program.request (I := Exec) .committed
  else return ()

def kalloc : Program Exec UInt64 := .request (I := Exec) .kalloc

def memset (page : UInt64) : Program Exec Unit := .request (I := Exec) (.memset page)

def uvmAlloc (pgdir oldsz newsz : UInt64) : Program Exec Int64 := .request (I := Exec) (.uvmAlloc pgdir oldsz newsz)

def pgdirIwalk (pgdir va : UInt64) : Program Exec UInt64 := .request (I := Exec) (.pgdirIwalk pgdir va)

def readi (ip : Fin ninode) (dst off n : UInt64) : Program Exec Int := .request (I := Exec) (.readi ip dst off n)

def memcpy (dst : UInt64) (src : Nat → UInt8) (n : UInt64) : Program Exec Unit :=
  .request (I := Exec) (.memcpy dst src n)

/-! ## Segments -/

def headLength (s sz : UInt32) : UInt32 := if 4096 - s > sz then sz else 4096 - s

def pageLength (left : UInt32) : UInt32 := if left ≥ 4096 then 4096 else left

-- After this number of turns the index of the loop of `loadseg` is where it started.
def loadTurns : Nat := 2 ^ 20 + 1

-- The loop of `loadseg` from page `i`.
def loadPages (pgdir va : UInt64) (ip : Fin ninode) (off sz : UInt32) : Nat → UInt32 → Program Exec Bool
  | 0, _ => panic
  | turns + 1, i =>
    if i < sz then do
      let n := pageLength (sz - i)
      let pa ← pgdirIwalk pgdir (va + i.toUInt64)
      let r ← readi ip (P2V pa) (off + i).toUInt64 n.toUInt64
      if r ≠ n.toNat then return false else loadPages pgdir va ip off sz turns (i + 4096)
    else return true

def loadseg (pgdir va : UInt64) (ip : Fin ninode) (off sz : UInt32) : Program Exec Bool := do
  let va0 := ROUNDDOWN va
  let s := (va % PGSIZE).toUInt32
  let n := headLength s sz
  let pa ← pgdirIwalk pgdir va0
  let r ← readi ip (P2V (pa + s.toUInt64)) off.toUInt64 n.toUInt64
  if r ≠ n.toNat then return false
  else loadPages pgdir (va + n.toUInt64) ip (off + n) (sz - n) loadTurns 0

def extend (sz : Int32) : UInt64 := sz.toInt64.toUInt64

-- `(sz = uvm_alloc(pgdir, sz, newsz)) == 0`
def allocTo (pgdir : UInt64) (sz : Int32) (newsz : UInt64) : Program Exec (Option Int32) := do
  let sz := (← uvmAlloc pgdir (extend sz) newsz).toInt32
  if sz = 0 then return none else return some sz

def growExtra (pgdir : UInt64) (ph : Phdr) (sz : Int32) : Program Exec (Option Int32) :=
  if ph.p_vaddr % PGSIZE ≠ 0 then allocTo pgdir sz (extend (sz + 4096)) else return some sz

-- The calls of `uvm_alloc` for a segment.
def growFor (pgdir : UInt64) (ph : Phdr) (sz : Int32) : Program Exec (Option Int32) := do
  match ← allocTo pgdir sz (ph.p_memsz + ph.p_vaddr) with
  | none => return none
  | some sz => growExtra pgdir ph sz

def loadSegment (ip : Fin ninode) (pgdir : UInt64) (ph : Phdr) (sz : Int32) : Program Exec (Option Int32) := do
  match ← growFor pgdir ph sz with
  | none => return none
  | some sz =>
    if ← loadseg pgdir ph.p_vaddr ip ph.p_offset.toUInt32 ph.p_filesz.toUInt32 then return some sz else return none

def loadTurn (ip : Fin ninode) (pgdir : UInt64) (eh : Ehdr) (i : Nat) (sz : Int32) : Program Exec (Option Int32) := do
  let (r, b) ← fs (Inodes.readi ip (fun _ => 0) (extend (eh.offset i)) (UInt64.ofNat phdrSize))
  if r ≠ phdrSize then return none
  else if (Phdr.ofBytes b).p_type ≠ PT_LOAD then return some sz
  else loadSegment ip pgdir (Phdr.ofBytes b) sz

def loadSegments (ip : Fin ninode) (pgdir : UInt64) (eh : Ehdr) : Program Exec (Option Int32) :=
  Program.iterate (loadTurn ip pgdir eh) eh.e_phnum.toNat 0

/-- The header, a new page table and the segments. -/
def loadImage (ip : Fin ninode) : Program Exec (Option (Ehdr × UInt64 × Int32)) := do
  let (r, b) ← fs (Inodes.readi ip (fun _ => 0) 0 (UInt64.ofNat ehdrSize))
  if r ≠ ehdrSize then return none
  else
    let pgdir ← kalloc
    if pgdir = 0 then return none
    else
      memset pgdir
      match ← loadSegments ip pgdir (Ehdr.ofBytes b) with
      | none => return none
      | some sz => return some (Ehdr.ofBytes b, pgdir, sz)

/-! ## The stack -/

-- `ROUNDUP(sz, PGSIZE)`, and two more pages.
def allocStack (pgdir : UInt64) (sz : Int32) : Program Exec (Option Int32) :=
  let sz := (ROUNDUP (extend sz)).toInt64.toInt32
  allocTo pgdir sz (extend (sz + 2 * 4096))

-- The loop of `copyout`; every turn copies at least one byte.
def copyoutFrom (pgdir : UInt64) : Nat → UInt32 → (Nat → UInt8) → UInt32 → Program Exec Int
  | 0, _, _, _ => return 0
  | turns + 1, dstva, src, len =>
    if len > 0 then do
      let va0 := ROUNDDOWN dstva.toUInt64
      let pa0 ← pgdirIwalk pgdir va0
      let n := PGSIZE - (dstva.toUInt64 - va0)
      let n := if n > len.toUInt64 then len.toUInt64 else n
      memcpy (P2V (pa0 + (dstva.toUInt64 - va0))) src n
      copyoutFrom pgdir turns (dstva.toUInt64 + n).toUInt32 (fun k => src (n.toNat + k)) (len.toUInt64 - n).toUInt32
    else return 0

def copyout (pgdir : UInt64) (dstva : UInt32) (src : Nat → UInt8) (len : UInt32) : Program Exec Int :=
  copyoutFrom pgdir len.toNat dstva src len

def stringBytes (s : List UInt8) : Nat → UInt8 := fun k => s.getD k 0

def arrayBytes (u : Nat → UInt64) : Nat → UInt8 := fun k => byteOf (u (k / 8)) (k % 8)

-- `ustack[i] = value`
def store (u : Nat → UInt64) (i : Nat) (value : UInt64) : Program Exec (Nat → UInt64) := do
  Program.request (I := Exec) (.ustack i)
  return Function.update u i value

-- `sp -= n; sp -= sp % 16;`
def lower (sp n : UInt64) : UInt64 := (sp - n) - (sp - n) % 16

def pushStrings (pgdir : UInt64) : List (List UInt8) → Nat → UInt64 → (Nat → UInt64) →
    Program Exec (Nat × UInt64 × (Nat → UInt64))
  | [], argc, sp, u => return (argc, sp, u)
  | s :: rest, argc, sp, u => do
    let sp := lower sp (UInt64.ofNat (s.length + 1))
    let _ ← copyout pgdir sp.toUInt32 (stringBytes s) (UInt32.ofNat (s.length + 1))
    let u ← store u (argc + 1) sp
    pushStrings pgdir rest (argc + 1) sp u

def AT_NULL : UInt64 := 0

def AT_PAGESZ : UInt64 := 6

def storeVector (u : Nat → UInt64) (argc : Nat) : Program Exec (Nat → UInt64) := do
  let u ← store u 0 (UInt64.ofNat argc)
  let u ← store u (argc + 1) 0
  let u ← store u (argc + 2) 0
  let u ← store u (argc + 3) AT_PAGESZ
  let u ← store u (argc + 4) PGSIZE
  let u ← store u (argc + 5) AT_NULL
  store u (argc + 6) 0

def pushArguments (pgdir : UInt64) (argv : List (List UInt8)) (sz : Int32) :
    Program Exec (Option (Nat × UInt64)) := do
  let (argc, sp, u) ← pushStrings pgdir argv 0 (extend sz) fun _ => 0
  let u ← storeVector u argc
  let sp := lower sp (UInt64.ofNat (argc + 7) * 8)
  let r ← copyout pgdir sp.toUInt32 (arrayBytes u) (UInt32.ofNat ((argc + 7) * 8))
  if r < 0 then return none else return some (argc, sp)

/-! ## `struct proc` -/

-- The offsets of `struct proc` that `execve` stores to.
def szOffset : Nat := 0

def pgdirOffset : Nat := 8

def nameOffset : Nat := 68

/-- `thisproc()`'s new fields, and its old page table freed. -/
def commit (path : List UInt8) (eh : Ehdr) (pgdir : UInt64) (sz : Int32) (argc : Nat) (sp : UInt64) :
    Program Exec Unit := do
  let tf ← Program.request (I := Exec) .tf
  Program.request (I := Exec) (.setTf { tf with r0 := UInt64.ofNat argc, r1 := sp })
  Program.request (I := Exec) (.setProc nameOffset (stringBytes path) path.length)
  Program.request (I := Exec) (.setProc szOffset (byteOf (extend sz)) 8)
  let tf ← Program.request (I := Exec) .tf
  Program.request (I := Exec) (.setTf { tf with pc := eh.e_entry, sp := sp })
  let pgdirOld ← Program.request (I := Exec) (.proc pgdirOffset)
  Program.request (I := Exec) (.setProc pgdirOffset (byteOf pgdir) 8)
  -- `uvm_switch`
  Program.request (I := Exec) (.lttbr0 (V2P (← Program.request (I := Exec) (.proc pgdirOffset))))
  Program.request (I := Exec) (.vmFree pgdirOld)

/-! ## `execve` -/

/-- The locked inode of the executable, in an operation. -/
def openExecutable (path : List UInt8) : Program Exec (Option (Fin ninode)) := do
  beginOp
  match ← fs (Inodes.namei (← Program.request (I := Exec) .cwd) path) with
  | none =>
    endOp
    return none
  | some ip =>
    fs (Inodes.ilock ip)
    return some ip

/-- `execve` after the segments have been loaded. -/
def enter (path : List UInt8) (argv : List (List UInt8)) (eh : Ehdr) (pgdir : UInt64) (sz : Int32) :
    Program Exec Int := do
  match ← allocStack pgdir sz with
  | none => return -1
  | some sz =>
    match ← pushArguments pgdir argv sz with
    | none => return -1
    | some (argc, sp) =>
      commit path eh pgdir sz argc sp
      return argc

/-- The arguments are strings of the caller's memory. Every failure after the inode was found
returns as things are. -/
def execve (path : List UInt8) (argv : List (List UInt8)) : Program Exec Int := do
  match ← openExecutable path with
  | none => return -1
  | some ip =>
    match ← loadImage ip with
    | none => return -1
    | some (eh, pgdir, sz) =>
      fs (Inodes.iunlockput ip)
      endOp
      enter path argv eh pgdir sz

/-! ## `sys_exec` -/

-- `*(uint64_t *)addr` in the caller's memory
def userWord (user : UInt64 → UInt8) (addr : UInt64) : UInt64 := wordAt (fun k => user (addr + UInt64.ofNat k)) 0

def fetchint (user : UInt64 → UInt8) (sz addr : UInt64) : Option UInt64 :=
  if addr ≥ sz ∨ addr + 8 > sz then none else some (userWord user addr)

def terminated (user : UInt64 → UInt8) (sz addr : UInt64) : Option (List UInt8) :=
  ((List.range (sz.toNat - addr.toNat)).find? fun k => user (addr + UInt64.ofNat k) = 0).map fun n =>
    (List.range n).map fun k => user (addr + UInt64.ofNat k)

-- `fetchstr(addr, pp)`, where `*pp` is assigned by a program. It is assigned before the string is
-- looked at.
def fetchstr (user : UInt64 → UInt8) (sz addr : UInt64) (assign : Program Exec Unit) :
    Program Exec (Option (List UInt8)) :=
  if addr ≥ sz then return none
  else do
    assign
    return terminated user sz addr

def storeArgv (i : UInt32) : Program Exec Unit := .request (I := Exec) (.argv i.toNat)

-- The loop of `sys_exec` from argument `i`.
def fetchArgs (user : UInt64 → UInt8) (sz uargv : UInt64) : Nat → UInt32 → Program Exec (Option (List (List UInt8)))
  | 0, _ => panic
  | turns + 1, i =>
    match fetchint user sz (uargv + 8 * i.toUInt64) with
    | none => return none
    | some uarg =>
      if uarg = 0 then do
        storeArgv i
        return some []
      else do
        match ← fetchstr user sz uarg (storeArgv i) with
        | none => return none
        | some s =>
          match ← fetchArgs user sz uargv turns (i + 1) with
          | none => return none
          | some rest => return some (s :: rest)

-- `sys_exec`, with the memory of the caller. No turn of the loop after the one that leaves `argv`
-- is modelled.
def sysExec (user : UInt64 → UInt8) : Program Exec Int := do
  let tf ← Program.request (I := Exec) .tf
  let sz ← Program.request (I := Exec) (.proc szOffset)
  match ← fetchstr user sz tf.r0 (pure ()) with
  | none => return -1
  | some path =>
    match ← fetchArgs user sz tf.r1 (MAXPATH + 1) 0 with
    | none => return -1
    | some argv => execve path argv

end Exec

end Xv6
