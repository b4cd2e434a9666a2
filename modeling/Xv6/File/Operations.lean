import Xv6.File.Table
import Xv6.Fs.Path

/-! The functions of `kern/file.c` and the system calls of `kern/sysfile.c` that use them,
with `fork` and `exit` as far as they deal with descriptors.

They are programs over sections: what is done under one lock is one request, and so is what a
process does with its own descriptors and current directory. Arguments of system calls are
passed as the values that the argument functions fetch.
-/

set_option autoImplicit false

namespace Xv6

open Library Syscall

variable {n : Nat}

inductive Calls.Request (n : Nat) where
  | inodes (r : Inodes.Request)
  /-- the turn of `begin_op` that does not sleep -/
  | beginOp
  /-- the first section of `end_op` -/
  | endSection
  | commit
  | committed
  | filealloc
  | filedup (f : Fin nfile)
  | closeSection (f : Fin nfile)
  | file (f : Fin nfile)
  | setOff (f : Fin nfile) (off : UInt64)
  | setFile (f : Fin nfile) (type : FileType) (ip : Fin ninode) (off : UInt64) (readable writable : Bool)
  | ofile
  | setOfile (fd : Fin nofile) (f : Option (Fin nfile))
  | fdalloc (f : Fin nfile)
  | cwd
  | setCwd (dir : Option (Fin ninode))
  /-- `proc_alloc` -/
  | procAlloc
  /-- `child->parent = par`, with the other fields of the child that are not files -/
  | setParent
  | setChildFile (child : Fin n) (fd : Fin nofile) (f : Option (Fin nfile))
  | setChildCwd (child : Fin n) (dir : Fin ninode)
  | forkReady
  /-- the section of `exit` under `ptablelock` -/
  | exitSection
  | wait
  | panic

def Calls (n : Nat) : Interface where
  Request := Calls.Request n
  Reply
    | .inodes r => Inodes.Reply r
    | .endSection => Bool
    | .filealloc => Option (Fin nfile)
    | .closeSection _ => Option File
    | .file _ => File
    | .ofile => Fin nofile → Option (Fin nfile)
    | .fdalloc _ => Option (Fin nofile)
    | .cwd => Option (Fin ninode)
    | .procAlloc => Fin n
    | .beginOp | .commit | .committed | .filedup _ | .setOff .. | .setFile .. | .setOfile .. | .setCwd _ | .setParent
    | .setChildFile .. | .setChildCwd .. | .forkReady | .exitSection | .wait => Unit
    | .panic => Empty

namespace Calls

def fs {A : Type} : Program Inodes A → Program (Calls n) A
  | .done value => .done value
  | .call r next => .call (I := Calls n) (.inodes r) fun reply => fs (next reply)

def panic {A : Type} : Program (Calls n) A := .call (I := Calls n) .panic Empty.elim

def beginOp : Program (Calls n) Unit := .request (I := Calls n) .beginOp

def endOp : Program (Calls n) Unit := do
  let cmt : Bool ← Program.request (I := Calls n) .endSection
  if cmt then
    Program.request (I := Calls n) .commit
    Program.request (I := Calls n) .committed
  else return ()

def filealloc : Program (Calls n) (Option (Fin nfile)) := .request (I := Calls n) .filealloc

def filedup (f : Fin nfile) : Program (Calls n) Unit := .request (I := Calls n) (.filedup f)

def file (f : Fin nfile) : Program (Calls n) File := .request (I := Calls n) (.file f)

def setOff (f : Fin nfile) (off : UInt64) : Program (Calls n) Unit := .request (I := Calls n) (.setOff f off)

def ofile : Program (Calls n) (Fin nofile → Option (Fin nfile)) := .request (I := Calls n) .ofile

def setOfile (fd : Fin nofile) (f : Option (Fin nfile)) : Program (Calls n) Unit :=
  .request (I := Calls n) (.setOfile fd f)

def fdalloc (f : Fin nfile) : Program (Calls n) (Option (Fin nofile)) := .request (I := Calls n) (.fdalloc f)

def cwd : Program (Calls n) (Option (Fin ninode)) := .request (I := Calls n) .cwd

def setCwd (dir : Option (Fin ninode)) : Program (Calls n) Unit := .request (I := Calls n) (.setCwd dir)

def setChildFile (child : Fin n) (fd : Fin nofile) (f : Option (Fin nfile)) : Program (Calls n) Unit :=
  .request (I := Calls n) (.setChildFile child fd f)

def inode (ip : Option (Fin ninode)) : Program (Calls n) (Fin ninode) :=
  match ip with
  | some i => return i
  | none => panic

/-! ## file.c -/

-- `begin_op(); iput(ip); end_op();`
def putInode (ip : Fin ninode) : Program (Calls n) Unit := do
  beginOp
  fs (Inodes.iput ip)
  endOp

def fileclose (f : Fin nfile) : Program (Calls n) Unit := do
  match ← Program.request (I := Calls n) (.closeSection f) with
  | some x => if x.type = .pipe then putInode (← inode x.ip) else return ()
  | none => return ()

-- `f->off += r`
def advance (f : Fin nfile) (r : Int) : Program (Calls n) Unit := do
  setOff f ((← file f).off + UInt64.ofInt r)

-- `if (rdn > 0) f->off += rdn;`
def advanceRead (f : Fin nfile) (r : Int) : Program (Calls n) Unit := if r > 0 then advance f r else return ()

def fileread (f : Fin nfile) (dst : Nat → UInt8) (count : Int) : Program (Calls n) (Int × (Nat → UInt8)) := do
  let x ← file f
  if x.type ≠ .inode then return (-1, dst)
  else
    let ip ← inode x.ip
    fs (Inodes.ilock ip)
    let (r, dst) ← fs (Inodes.readi ip dst (← file f).off (UInt64.ofInt count))
    advanceRead f r
    fs (Inodes.iunlock ip)
    return (r, dst)

/-- `(MAXOPBLOCKS - 1 - 1 - 2) / 2 * BSIZE` -/
def lim : Int := ((maxOpBlocks - 1 - 1 - 2) / 2 * bsize : Nat)

def chunkOf (count : Int) : Int := if count > lim then lim else count

/-- The loop of `filewrite` for at most a number of turns. A turn that fails leaves the loop with
the inode locked and the operation open. -/
def writeTurns (f : Fin nfile) (src : Nat → UInt8) (count : Int) : Nat → Int → Program (Calls n) Int
  | 0, fin => if fin < count then panic else return if fin = count then count else -1
  | turns + 1, fin =>
    if fin < count then do
      beginOp
      let ip ← inode (← file f).ip
      fs (Inodes.ilock ip)
      let cur ← fs (Inodes.writei ip src (← file f).off (UInt64.ofInt (chunkOf count)))
      if cur < 0 then return if fin = count then count else -1
      else
        advance f cur
        fs (Inodes.iunlock ip)
        endOp
        writeTurns f src count turns (fin + cur)
    else return if fin = count then count else -1

/-- Write to a file. Without a bound on the turns the loop may go on for ever on a device. -/
def filewrite (turns : Nat) (f : Fin nfile) (src : Nat → UInt8) (count : Int) : Program (Calls n) Int := do
  if (← file f).type ≠ .inode then return 0 else writeTurns f src count turns 0

/-! ## sysfile.c -/

def argfd (fd : Int) : Program (Calls n) (Option (Fin nofile × Fin nfile)) := do
  if open_ : fd < 0 ∨ fd ≥ nofile then return none
  else
    let fd : Fin nofile := ⟨fd.toNat, by omega⟩
    return ((← ofile) fd).map fun f => (fd, f)

def sysDup (fd : Int) : Program (Calls n) Int := do
  match ← argfd fd with
  | none => return -1
  | some (_, f) =>
    match ← fdalloc f with
    | none => return -1
    | some copy =>
      filedup f
      return copy.val

def sysClose (fd : Int) : Program (Calls n) Int := do
  match ← argfd fd with
  | none => return -1
  | some (fd, f) =>
    setOfile fd none
    fileclose f
    return 0

/-- `sys_read`, when the buffer is in the address range of the process -/
def sysRead (fd : Int) (dst : Nat → UInt8) (count : Int) : Program (Calls n) (Int × (Nat → UInt8)) := do
  match ← argfd fd with
  | none => return (-1, dst)
  | some (_, f) => fileread f dst count

def sysWrite (turns : Nat) (fd : Int) (src : Nat → UInt8) (count : Int) : Program (Calls n) Int := do
  match ← argfd fd with
  | none => return -1
  | some (_, f) => filewrite turns f src count

-- The loop of `sys_writev` over the vectors that are left.
def writevFrom (turns : Nat) (f : Fin nfile) : List ((Nat → UInt8) × Int) → Int → Program (Calls n) Int
  | [], tot => return tot
  | (src, count) :: rest, tot => do
    let r ← filewrite turns f src count
    writevFrom turns f rest (tot + r)

def sysWritev (turns : Nat) (fd : Int) (iov : List ((Nat → UInt8) × Int)) : Program (Calls n) Int := do
  match ← argfd fd with
  | none => return -1
  | some (_, f) => writevFrom turns f iov 0

/-! The flags of the C library for AArch64. -/

def O_RDONLY : UInt64 := 0

def O_WRONLY : UInt64 := 1

def O_RDWR : UInt64 := 2

def O_CREAT : UInt64 := 64

def O_LARGEFILE : UInt64 := 131072

def AT_FDCWD : Int := -100

-- `!(omode & O_WRONLY)`
def readableMode (omode : UInt64) : Bool := omode &&& O_WRONLY = 0

-- `(omode & O_WRONLY) || (omode & O_RDWR)`
def writableMode (omode : UInt64) : Bool := omode &&& O_WRONLY ≠ 0 ∨ omode &&& O_RDWR ≠ 0

-- The locked inode that `sys_openat` opens.
def openInode (path : List UInt8) (omode : UInt64) : Program (Calls n) (Option (Fin ninode)) := do
  let dir ← cwd
  if omode &&& O_CREAT ≠ 0 then fs (Inodes.create dir path T_FILE 0 0)
  else
    match ← fs (Inodes.namei dir path) with
    | none => return none
    | some ip =>
      fs (Inodes.ilock ip)
      if (← fs (Inodes.fields ip)).type = T_DIR ∧ omode ≠ O_RDONLY ||| O_LARGEFILE then
        fs (Inodes.iunlockput ip)
        return none
      else return some ip

-- `iunlockput(ip); end_op(); return -1;`
def openFailed (ip : Fin ninode) : Program (Calls n) Int := do
  fs (Inodes.iunlockput ip)
  endOp
  return -1

-- `sys_openat` from the allocation of the file on.
def openFile (ip : Fin ninode) (omode : UInt64) : Program (Calls n) Int := do
  match ← filealloc with
  | none => openFailed ip
  | some f =>
    match ← fdalloc f with
    | none =>
      fileclose f
      openFailed ip
    | some fd =>
      fs (Inodes.iunlock ip)
      endOp
      Program.request (I := Calls n) (.setFile f .inode ip 0 (readableMode omode) (writableMode omode))
      return fd.val

def sysOpenat (dirfd : Int) (path : List UInt8) (omode : UInt64) : Program (Calls n) Int :=
  if dirfd ≠ AT_FDCWD then return -1
  else if omode &&& O_LARGEFILE = 0 then return -1
  else do
    beginOp
    match ← openInode path omode with
    | none =>
      endOp
      return -1
    | some ip => openFile ip omode

-- `sys_mkdirat` and `sys_mknodat`, which create an inode and give it back.
def sysMake (path : List UInt8) (type major minor : UInt16) : Program (Calls n) Int := do
  beginOp
  match ← fs (Inodes.create (← cwd) path type major minor) with
  | none =>
    endOp
    return -1
  | some ip =>
    fs (Inodes.iunlockput ip)
    endOp
    return 0

def sysMkdirat (dirfd : Int) (path : List UInt8) (mode : UInt64) : Program (Calls n) Int :=
  if dirfd ≠ AT_FDCWD then return -1
  else if mode ≠ 0 then return -1
  else sysMake path T_DIR 0 0

def sysMknodat (dirfd : Int) (path : List UInt8) (major minor : UInt64) : Program (Calls n) Int :=
  if dirfd ≠ AT_FDCWD then return -1 else sysMake path T_DEV major.toUInt16 minor.toUInt16

def sysChdir (path : List UInt8) : Program (Calls n) Int := do
  beginOp
  match ← fs (Inodes.namei (← cwd) path) with
  | none =>
    endOp
    return -1
  | some ip =>
    fs (Inodes.ilock ip)
    if (← fs (Inodes.fields ip)).type ≠ T_DIR then
      openFailed ip
    else
      fs (Inodes.iunlock ip)
      fs (Inodes.iput (← inode (← cwd)))
      endOp
      setCwd (some ip)
      return 0

/-! ## proc.c -/

-- The turn of the loop of `fork` for a descriptor.
def forkFile (child : Fin n) (fd : Fin nofile) : Program (Calls n) Unit := do
  let f := (← ofile) fd
  setChildFile child fd f
  match f with
  | some f => filedup f
  | none => return ()

def fork : Program (Calls n) Unit := do
  let child ← Program.request (I := Calls n) .procAlloc
  Program.request (I := Calls n) .setParent
  (List.finRange nofile).forM (forkFile child)
  let dir ← inode (← cwd)
  fs (Inodes.idup dir)
  Program.request (I := Calls n) (.setChildCwd child dir)
  Program.request (I := Calls n) .forkReady

-- The turn of the loop of `exit` for a descriptor.
def exitFile (fd : Fin nofile) : Program (Calls n) Unit := do
  match (← ofile) fd with
  | some f =>
    fileclose f
    setOfile fd none
  | none => return ()

-- The end of `exit` up to its section.
def exitCwd : Program (Calls n) Unit := do
  match ← cwd with
  | some dir =>
    putInode dir
    setCwd none
  | none => return ()

def exit : Program (Calls n) Unit := do
  (List.finRange nofile).forM exitFile
  exitCwd
  Program.request (I := Calls n) .exitSection

def wait : Program (Calls n) Unit := .request (I := Calls n) .wait

end Calls

end Xv6
