import Xv6.Fs.Inode

/-! The inode cache of `kern/fs.c`.

`icache` is an array of in-memory inodes. `iget`, `idup` and `iunlock` only change the
array; the others also use the disk, so they are programs over the requests of the
buffer cache. A sleep lock that is held makes its caller wait, which is a fault for a
program that runs alone.
-/

set_option autoImplicit false

namespace Xv6

open Library

abbrev ninode : Nat := 50

theorem ninode_pos : 0 < ninode := by decide

abbrev Icache : Type := Fin ninode → MemInode

def ROOTDEV : UInt32 := 1

def ROOTINO : UInt32 := 1

namespace Block

-- `data[j / 8] ^= 1 << (j % 8)`
def flipBit (d : Block) (j : Fin bpb) : Block :=
  Function.update d (byteOf j) (d (byteOf j) ^^^ UInt8.ofNat (2 ^ (j.val % 8)))

-- The inode of a block that `ialloc` finds free: the first from 1 on whose type is 0.
def freeInode (d : Block) : Option (Fin ipb) :=
  (List.finRange ipb).find? fun j => decide (1 ≤ j.val ∧ (d.dinode j).type = 0)

end Block

-- The fields that `ilock` copies from the disk.
def MemInode.load (ip : MemInode) (d : Dinode) : MemInode :=
  { ip with type := d.type, major := d.major, minor := d.minor, nlink := d.nlink, size := d.size, addrs := d.addrs }

def Dinode.ofType (type : UInt16) : Dinode := ⟨type, 0, 0, 0, 0, fun _ => 0⟩

def MemInode.unused : MemInode := ⟨⟨0, fun _ => 0⟩, 0, 0, false, false, 0, 0, 0, 0, 0⟩

namespace Icache

-- The cache after `iinit`.
def init : Icache := fun _ => .unused

def find (c : Icache) (dev inum : UInt32) : Option (Fin ninode) :=
  (List.finRange ninode).find? fun i => decide ((c i).inum = inum ∧ 0 < (c i).ref ∧ (c i).dev = dev)

def empty (c : Icache) : Option (Fin ninode) := (List.finRange ninode).find? fun i => decide ((c i).ref = 0)

/-- Find the inode with a number, `none` when no entry is left for it. -/
def iget (c : Icache) (dev inum : UInt32) : Option (Fin ninode × Icache) :=
  match c.find dev inum with
  | some i => some (i, Function.update c i { c i with ref := (c i).ref + 1 })
  | none =>
    match c.empty with
    | some i => some (i, Function.update c i { c i with dev, inum, ref := 1, size := 0, valid := false })
    -- panic("Cannot alloc a inode")
    | none => none

def idup (c : Icache) (i : Fin ninode) : Icache := Function.update c i { c i with ref := (c i).ref + 1 }

def iunlock (c : Icache) (i : Fin ninode) : Icache := Function.update c i { c i with locked := false }

section
variable {c : Icache} {i : Fin ninode} {dev inum : UInt32}

theorem find_some (found : c.find dev inum = some i) :
    (c i).inum = inum ∧ 0 < (c i).ref ∧ (c i).dev = dev := by
  have here := List.find?_some found
  simpa using here

theorem find_none (absent : c.find dev inum = none) (j : Fin ninode) (live : 0 < (c j).ref)
    (sameDev : (c j).dev = dev) : (c j).inum ≠ inum := by
  have other := List.find?_eq_none.mp absent j (List.mem_finRange j)
  intro same
  simp [same, live, sameDev] at other

theorem empty_some (found : c.empty = some i) : (c i).ref = 0 := by
  have here := List.find?_some found
  simpa using here

theorem iget_cases {c' : Icache} (got : c.iget dev inum = some (i, c')) :
    ((c i).inum = inum ∧ 0 < (c i).ref ∧ (c i).dev = dev ∧
        c' = Function.update c i { c i with ref := (c i).ref + 1 }) ∨
      ((∀ j, 0 < (c j).ref → (c j).dev = dev → (c j).inum ≠ inum) ∧ (c i).ref = 0 ∧
        c' = Function.update c i { c i with dev, inum, ref := 1, size := 0, valid := false }) := by
  unfold iget at got
  split at got
  · next found =>
    cases got
    obtain ⟨number, live, device⟩ := find_some found
    exact .inl ⟨number, live, device, rfl⟩
  · next absent =>
    split at got
    · next free =>
      cases got
      exact .inr ⟨find_none absent, empty_some free, rfl⟩
    · cases got

end

end Icache

namespace Fs

variable {H : Type}

def bfree (sb : Superblock) (log : Log) (dev b : UInt32) : Program (Bio H) Log := do
  let bf ← Bio.bread dev (bblock b sb)
  let data ← Bio.data bf
  if data.bit (bitIndex b) then
    Bio.setData bf (data.flipBit (bitIndex b))
    let log ← log.logWrite bf
    Bio.brelse bf
    return log
  -- panic("Free block has been freed")
  else Bio.fault

-- One turn of the loops of `itrunc`.
def freeRef (sb : Superblock) (log : Log) (dev b : UInt32) : Program (Bio H) Log :=
  if b = 0 then return log else bfree sb log dev b

def truncIndirect (sb : Superblock) (log : Log) (ip : MemInode) : Program (Bio H) Log :=
  if ip.addrs Inode.indirect = 0 then return log
  else do
    let bf ← Bio.bread ip.dev (ip.addrs Inode.indirect)
    let log ← (List.finRange nindirect).foldlM (fun log j => do
      freeRef sb log ip.dev ((← Bio.data bf).word j)) log
    Bio.brelse bf
    bfree sb log ip.dev (ip.addrs Inode.indirect)

/-- Truncate inode (discard contents). The addresses stay in the inode. -/
def itrunc (sb : Superblock) (log : Log) (ip : MemInode) : Program (Bio H) (MemInode × Log) := do
  let log ← (List.finRange ndirect).foldlM (fun log k => freeRef sb log ip.dev (ip.addrs k.castSucc)) log
  let log ← truncIndirect sb log ip
  let ip := { ip with size := 0 }
  let log ← iupdate sb log ip
  return (ip, log)

def ilock (sb : Superblock) (c : Icache) (i : Fin ninode) : Program (Bio H) Icache :=
  if (c i).locked then Bio.fault
  else if (c i).valid then return Function.update c i { c i with locked := true }
  else do
    let bf ← Bio.bread (c i).dev (iblock (c i).inum sb)
    let d := (← Bio.data bf).dinode (inodeIndex (c i).inum)
    Bio.brelse bf
    return Function.update c i { (c i).load d with locked := true, valid := true }

/-- Drop a reference to an in-memory inode. The last reference to an inode without links
frees the inode on the disk. -/
def iput (sb : Superblock) (c : Icache) (log : Log) (i : Fin ninode) : Program (Bio H) (Icache × Log) :=
  if (c i).ref = 1 ∧ (c i).valid ∧ (c i).nlink = 0 then
    if (c i).locked then Bio.fault
    else do
      let (ip, log) ← itrunc sb log (c i)
      let ip := { ip with type := 0 }
      let log ← iupdate sb log ip
      return (Function.update c i { ip with valid := false, ref := ip.ref - 1 }, log)
  else return (Function.update c i { c i with ref := (c i).ref - 1 }, log)

-- The loop of `ialloc` over the blocks of the inode table, from inode `i` on.
def iallocFrom (sb : Superblock) (log : Log) (dev : UInt32) (type : UInt16) :
    Nat → UInt32 → Program (Bio H) (UInt32 × Log)
  -- panic("Ialloc cannot alloc inode")
  | 0, _ => Bio.fault
  | turns + 1, i => do
    let bf ← Bio.bread dev (iblock i sb)
    let data ← Bio.data bf
    match data.freeInode with
    | some j =>
      Bio.setData bf (data.setDinode j (.ofType type))
      let log ← log.logWrite bf
      Bio.brelse bf
      return (i + UInt32.ofNat j, log)
    | none =>
      Bio.brelse bf
      iallocFrom sb log dev type turns (i + UInt32.ofNat ipb)

def ialloc (sb : Superblock) (c : Icache) (log : Log) (dev : UInt32) (type : UInt16) :
    Program (Bio H) (Fin ninode × Icache × Log) := do
  let (inum, log) ← iallocFrom sb log dev type ((sb.ninodes.toNat + (ipb - 1)) / ipb) 0
  match c.iget dev inum with
  | some (i, c) => return (i, c, log)
  | none => Bio.fault

end Fs

end Xv6
