import Xv6.Log.Operations

/-! The block allocator and the block map of `kern/fs.c`.

Like the functions of the log, these are programs over the requests of the buffer
cache. `log_write` changes the log, so they take the log and return it.
-/

set_option autoImplicit false

namespace Xv6

open Library

/-! ## Free bit map -/

namespace Block

-- The byte of a bitmap block that has bit `j`: `data[j / 8]`.
def byteOf (j : Fin bpb) : Fin bsize :=
  ⟨j.val / 8, by
    have bits : j.val < 4096 := j.isLt
    change _ < 512
    omega⟩

-- `data[j / 8] & (1 << (j % 8))`
def bit (d : Block) (j : Fin bpb) : Bool := (d (byteOf j)).toNat.testBit (j.val % 8)

-- `data[j / 8] |= 1 << (j % 8)`
def setBit (d : Block) (j : Fin bpb) : Block :=
  Function.update d (byteOf j) (d (byteOf j) ||| UInt8.ofNat (2 ^ (j.val % 8)))

theorem bit_setBit (d : Block) (i j : Fin bpb) : (d.setBit j).bit i = (decide (i = j) || d.bit i) := by
  by_cases sameByte : byteOf i = byteOf j
  · have mask : (UInt8.ofNat (2 ^ (j.val % 8))).toNat = 2 ^ (j.val % 8) := by
      rw [UInt8.toNat_ofNat', Nat.mod_eq_of_lt]
      exact Nat.pow_lt_pow_right (by decide) (Nat.mod_lt _ (by decide))
    have quotient : i.val / 8 = j.val / 8 := congrArg Fin.val sameByte
    have sameBit : j.val % 8 = i.val % 8 ↔ i = j := by
      rw [Fin.ext_iff]
      omega
    simp only [bit, setBit, sameByte, Function.update_self, UInt8.toNat_or, mask, Nat.testBit_or,
      Nat.testBit_two_pow, sameBit]
    exact Bool.or_comm ..
  · have other : i ≠ j := fun same => sameByte (congrArg byteOf same)
    simp [bit, setBit, sameByte, other]

theorem setBit_of_bit {d : Block} {i : Fin bpb} (j : Fin bpb) (marked : d.bit i = true) :
    (d.setBit j).bit i = true := by
  simp [bit_setBit, marked]

-- The first bit that the inner loop of `balloc` finds clear.
@[irreducible] def firstFree (d : Block) : Option (Fin bpb) := (List.finRange bpb).find? fun j => !d.bit j

theorem firstFree_clear {d : Block} {j : Fin bpb} (found : d.firstFree = some j) : d.bit j = false := by
  unfold firstFree at found
  have clear := List.find?_some found
  simpa using clear

end Block

def bitIndex (b : UInt32) : Fin bpb := ⟨b.toNat % bpb, Nat.mod_lt _ (by decide)⟩

namespace Fs

/-- `i` is the first block of a bitmap block, so it shares the bitmap block with the `j`-th block after it. -/
theorem bblock_add (sb : Superblock) {i : UInt32} (aligned : i.toNat % bpb = 0) (j : Fin bpb) :
    bblock (i + UInt32.ofNat j) sb = bblock i sb ∧ bitIndex (i + UInt32.ofNat j) = j := by
  have bits : j.val < 4096 := j.isLt
  have starts : i.toNat % 4096 = 0 := aligned
  have bound := i.toNat_lt
  have sum : (i + UInt32.ofNat j).toNat = i.toNat + j.val := by
    rw [UInt32.toNat_add, UInt32.toNat_ofNat']
    omega
  constructor
  · simp only [bblock]
    congr 1
    rw [← UInt32.toNat_inj, UInt32.toNat_div, UInt32.toNat_div, sum]
    change (i.toNat + j.val) / 4096 = i.toNat / 4096
    omega
  · apply Fin.ext
    simp only [bitIndex, sum]
    change (i.toNat + j.val) % 4096 = j.val
    omega

end Fs

/-! ## Inodes -/

/-- `struct inode`, as far as the block map uses it -/
structure Inode where
  dev : UInt32
  addrs : Fin (ndirect + 1) → UInt32

abbrev Inode.indirect : Fin (ndirect + 1) := Fin.last ndirect

namespace Fs

variable {H : Type}

def bzero (log : Log) (dev bno : UInt32) : Program (Bio H) Log := do
  let bf ← Bio.bread dev bno
  Bio.setData bf Block.zero
  let log ← log.logWrite bf
  Bio.brelse bf
  return log

-- The outer loop of `balloc` from bitmap index `i` on, for a number of turns. After the last turn
-- the function ends without a `return`.
def ballocFrom (sb : Superblock) (log : Log) (dev : UInt32) : Nat → UInt32 → Program (Bio H) (UInt32 × Log)
  | 0, _ => Bio.fault
  | turns + 1, i => do
    let bf ← Bio.bread dev (bblock i sb)
    let data ← Bio.data bf
    match data.firstFree with
    | some j =>
      Bio.setData bf (data.setBit j)
      let log ← log.logWrite bf
      Bio.brelse bf
      let log ← bzero log dev (i + UInt32.ofNat j)
      return (i + UInt32.ofNat j, log)
    | none =>
      Bio.brelse bf
      ballocFrom sb log dev turns (i + UInt32.ofNat bpb)

def balloc (sb : Superblock) (log : Log) (dev : UInt32) : Program (Bio H) (UInt32 × Log) :=
  ballocFrom sb log dev ((sb.size.toNat + (bpb - 1)) / bpb) 0

-- `if (ip->addrs[k] == 0) ip->addrs[k] = balloc(ip->dev)`
def mapAddr (sb : Superblock) (log : Log) (ip : Inode) (k : Fin (ndirect + 1)) : Program (Bio H) (Inode × Log) :=
  if ip.addrs k = 0 then do
    let (b, log) ← balloc sb log ip.dev
    return ({ ip with addrs := Function.update ip.addrs k b }, log)
  else return (ip, log)

-- `if (addrs[j] == 0) addrs[j] = balloc(ip->dev)` in the indirect block that `bf` holds.
def mapEntry (sb : Superblock) (log : Log) (dev : UInt32) (bf : H) (j : Fin nindirect) : Program (Bio H) Log := do
  if (← Bio.data bf).word j = 0 then
    let (b, log) ← balloc sb log dev
    Bio.setData bf ((← Bio.data bf).setWord j b)
    return log
  else return log

def bmapIndirect (sb : Superblock) (log : Log) (ip : Inode) (j : Fin nindirect) :
    Program (Bio H) (UInt32 × Inode × Log) := do
  let (ip, log) ← mapAddr sb log ip Inode.indirect
  let bf ← Bio.bread ip.dev (ip.addrs Inode.indirect)
  let log ← mapEntry sb log ip.dev bf j
  Bio.brelse bf
  return ((← Bio.data bf).word j, ip, log)

/-- Return the disk block address of block `bn` of the inode. If there is no such
block, `bmap` allocates one. -/
def bmap (sb : Superblock) (log : Log) (ip : Inode) (bn : UInt32) : Program (Bio H) (UInt32 × Inode × Log) :=
  if direct : bn.toNat < ndirect then do
    let k : Fin (ndirect + 1) := ⟨bn.toNat, Nat.lt_succ_of_lt direct⟩
    let (ip, log) ← mapAddr sb log ip k
    return (ip.addrs k, ip, log)
  else
    let bn := bn - UInt32.ofNat ndirect
    if inside : bn.toNat < nindirect then bmapIndirect sb log ip ⟨bn.toNat, inside⟩
    -- panic("Cannot bmap such block")
    else Bio.fault

/-- The block index whose entry is word `j` of the indirect block. -/
def indirectIndex (j : Fin nindirect) : UInt32 := UInt32.ofNat (ndirect + j.val)

theorem bmap_indirectIndex (sb : Superblock) (log : Log) (ip : Inode) (j : Fin nindirect) :
    (bmap sb log ip (indirectIndex j) : Program (Bio H) _) = bmapIndirect sb log ip j := by
  have words : j.val < 128 := j.isLt
  have index : (indirectIndex j).toNat = 12 + j.val := by
    change (12 + j.val) % 2 ^ 32 = _
    omega
  have past : ¬ (indirectIndex j).toNat < ndirect := by
    change ¬ _ < 12
    omega
  have rest : (indirectIndex j - UInt32.ofNat ndirect).toNat = j.val := by
    rw [UInt32.toNat_sub, index]
    change (2 ^ 32 - 12 + (12 + j.val)) % 2 ^ 32 = _
    omega
  have inside : (indirectIndex j - UInt32.ofNat ndirect).toNat < nindirect := rest ▸ j.isLt
  rw [bmap, dif_neg past, dif_pos inside]
  congr 1
  exact Fin.ext rest

def usedDisk : UInt32 → Block := fun b i =>
  if b = 58 then if i.val < 7 then 255 else if i.val = 7 then 31 else 0 else 0

def emptyLog : Log := Log.ofSuperblock 1 Mkfs.superblock ⟨0, fun _ => 0⟩

end Fs

end Xv6
