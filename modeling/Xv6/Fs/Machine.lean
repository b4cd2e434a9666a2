import Xv6.Fs.Icache
import Xv6.Log.BlockStore

/-! The operations on inodes that directories, paths and system calls are made of.

The upper layers are programs over these requests. Here they are answered by the functions
of `kern/fs.c`, on one inode cache and one log over a coherent block store.
-/

set_option autoImplicit false

namespace Xv6

open Library

inductive Inodes.Request where
  | iget (dev inum : UInt32)
  | idup (i : Fin ninode)
  | ilock (i : Fin ninode)
  | iunlock (i : Fin ninode)
  | iput (i : Fin ninode)
  | ialloc (dev : UInt32) (type : UInt16)
  /-- the fields of `*ip` -/
  | fields (i : Fin ninode)
  | setLinks (i : Fin ninode) (major minor nlink : UInt16)
  | iupdate (i : Fin ninode)
  | readi (i : Fin ninode) (dst : Nat → UInt8) (off n : UInt64)
  | writei (i : Fin ninode) (src : Nat → UInt8) (off n : UInt64)
  | panic

/-- Entries of the inode cache stand for `struct inode *`. -/
def Inodes : Interface where
  Request := Inodes.Request
  Reply
    | .iget .. | .ialloc .. => Fin ninode
    | .fields _ => MemInode
    | .readi .. => Int × (Nat → UInt8)
    | .writei .. => Int
    | .idup _ | .ilock _ | .iunlock _ | .iput _ | .setLinks .. | .iupdate _ => Unit
    | .panic => Empty

namespace Inodes

def iget (dev inum : UInt32) : Program Inodes (Fin ninode) := .request (I := Inodes) (.iget dev inum)

def idup (i : Fin ninode) : Program Inodes Unit := .request (I := Inodes) (.idup i)

def ilock (i : Fin ninode) : Program Inodes Unit := .request (I := Inodes) (.ilock i)

def iunlock (i : Fin ninode) : Program Inodes Unit := .request (I := Inodes) (.iunlock i)

def iput (i : Fin ninode) : Program Inodes Unit := .request (I := Inodes) (.iput i)

def ialloc (dev : UInt32) (type : UInt16) : Program Inodes (Fin ninode) := .request (I := Inodes) (.ialloc dev type)

def fields (i : Fin ninode) : Program Inodes MemInode := .request (I := Inodes) (.fields i)

-- `ip->major = major; ip->minor = minor; ip->nlink = nlink`
def setLinks (i : Fin ninode) (major minor nlink : UInt16) : Program Inodes Unit :=
  .request (I := Inodes) (.setLinks i major minor nlink)

def iupdate (i : Fin ninode) : Program Inodes Unit := .request (I := Inodes) (.iupdate i)

def readi (i : Fin ninode) (dst : Nat → UInt8) (off n : UInt64) : Program Inodes (Int × (Nat → UInt8)) :=
  .request (I := Inodes) (.readi i dst off n)

def writei (i : Fin ninode) (src : Nat → UInt8) (off n : UInt64) : Program Inodes Int :=
  .request (I := Inodes) (.writei i src off n)

def panic {A : Type} : Program Inodes A := .call .panic Empty.elim

def iunlockput (i : Fin ninode) : Program Inodes Unit := do
  iunlock i
  iput i

end Inodes

/-- What the functions of `kern/fs.c` share. -/
structure Machine where
  icache : Icache
  log : Log
  store : Store

namespace Machine

variable (sb : Superblock) (devsw : Fin ndev → Devsw UInt32)

/-- The answer of a function that runs on the store of the machine. -/
def call {A B : Type} (m : Machine) (p : Program (Bio UInt32) A) (answer : A → Store → B × Machine) :
    Option (B × Machine) :=
  (p.run Store.handle m.store).map fun out => answer out.1 out.2

def handle : (r : Inodes.Request) → Machine → Option (Inodes.Reply r × Machine)
  | .iget dev inum, m => (m.icache.iget dev inum).map fun out => (out.1, { m with icache := out.2 })
  | .idup i, m => some ((), { m with icache := m.icache.idup i })
  | .ilock i, m => m.call (Fs.ilock sb m.icache i) fun icache store => ((), { m with icache, store })
  | .iunlock i, m => some ((), { m with icache := m.icache.iunlock i })
  | .iput i, m => m.call (Fs.iput sb m.icache m.log i) fun out store => ((), ⟨out.1, out.2, store⟩)
  | .ialloc dev type, m =>
    m.call (Fs.ialloc sb m.icache m.log dev type) fun out store => (out.1, ⟨out.2.1, out.2.2, store⟩)
  | .fields i, m => some (m.icache i, m)
  | .setLinks i major minor nlink, m =>
    some ((), { m with icache := Function.update m.icache i { m.icache i with major, minor, nlink } })
  | .iupdate i, m => m.call (Fs.iupdate sb m.log (m.icache i)) fun log store => ((), { m with log, store })
  | .readi i dst off n, m =>
    m.call (Fs.readi sb devsw m.log (m.icache i) dst off n) fun out store =>
      ((out.1, out.2.1), ⟨Function.update m.icache i out.2.2.1, out.2.2.2, store⟩)
  | .writei i src off n, m =>
    m.call (Fs.writei sb devsw m.log (m.icache i) src off n) fun out store =>
      (out.1, ⟨Function.update m.icache i out.2.1, out.2.2, store⟩)
  | .panic, _ => none

end Machine

end Xv6
