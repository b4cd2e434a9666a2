import Xv6.Fs.Operations

/-! Inodes on the disk and in memory, and `readi` and `writei` of `kern/fs.c`.

A `struct dinode` is sixteen little-endian words of its block; the first two hold the
four 16-bit fields. Buffers of callers are functions of the index of a byte.
-/

set_option autoImplicit false

namespace Xv6

open Library

abbrev ndev : Nat := 10
abbrev maxFile : Nat := ndirect + nindirect

abbrev dinodeWords : Nat := dinodeSize / 4

structure Dinode where
  type : UInt16
  major : UInt16
  minor : UInt16
  nlink : UInt16
  size : UInt32
  addrs : Fin (ndirect + 1) → UInt32
  deriving DecidableEq

namespace Block

def index (n : Nat) : Fin bsize := ⟨n % bsize, Nat.mod_lt n (by decide)⟩

def dinodeWord (s : Fin ipb) (k : Fin dinodeWords) : Fin nindirect :=
  ⟨dinodeWords * s.val + k.val, by
    have inodes : s.val < 8 := s.isLt
    have words : k.val < 16 := k.isLt
    change 16 * s.val + k.val < 128
    omega⟩

def addrWord (k : Fin (ndirect + 1)) : Fin dinodeWords :=
  ⟨k.val + 3, by
    have addresses : k.val < 13 := k.isLt
    change _ < 16
    omega⟩

-- `((struct dinode *)data)[s]`
def dinode (d : Block) (s : Fin ipb) : Dinode where
  type := (d.word (dinodeWord s ⟨0, by decide⟩)).toUInt16
  major := (d.word (dinodeWord s ⟨0, by decide⟩) >>> 16).toUInt16
  minor := (d.word (dinodeWord s ⟨1, by decide⟩)).toUInt16
  nlink := (d.word (dinodeWord s ⟨1, by decide⟩) >>> 16).toUInt16
  size := d.word (dinodeWord s ⟨2, by decide⟩)
  addrs k := d.word (dinodeWord s (addrWord k))

end Block

def Dinode.word (x : Dinode) : Nat → UInt32
  | 0 => x.type.toUInt32 ||| (x.major.toUInt32 <<< 16)
  | 1 => x.minor.toUInt32 ||| (x.nlink.toUInt32 <<< 16)
  | 2 => x.size
  | k + 3 => if inside : k < ndirect + 1 then x.addrs ⟨k, inside⟩ else 0

namespace Block

-- All fields of `((struct dinode *)data)[s]` set.
def setDinode (d : Block) (s : Fin ipb) (x : Dinode) : Block :=
  fun j => if j.val / dinodeSize = s.val then Word.byte (x.word (j.val % dinodeSize / 4)) (j.val % 4) else d j

theorem word_setDinode (d : Block) (s : Fin ipb) (x : Dinode) (i : Fin nindirect) :
    (d.setDinode s x).word i = if i.val / dinodeWords = s.val then x.word (i.val % dinodeWords) else d.word i := by
  have place : ∀ k : Fin 4, d.setDinode s x (position i k) =
      if i.val / dinodeWords = s.val then Word.byte (x.word (i.val % dinodeWords)) k.val else d (position i k) := by
    intro k
    have quotient : (4 * i.val + k.val) / 64 = i.val / 16 := by omega
    have remainder : (4 * i.val + k.val) % 64 / 4 = i.val % 16 := by omega
    have byte : (4 * i.val + k.val) % 4 = k.val := by omega
    change (if (4 * i.val + k.val) / 64 = s.val then
      Word.byte (x.word ((4 * i.val + k.val) % 64 / 4)) ((4 * i.val + k.val) % 4) else _) = _
    rw [quotient, remainder, byte]
    rfl
  by_cases here : i.val / dinodeWords = s.val
  · simp only [word, place, if_pos here]
    exact Word.ofBytes_byte _
  · simp only [word, place, if_neg here]

theorem dinodeWord_div (s : Fin ipb) (k : Fin dinodeWords) : (dinodeWord s k).val / dinodeWords = s.val := by
  have words : k.val < 16 := k.isLt
  change (16 * s.val + k.val) / 16 = _
  omega

theorem dinodeWord_mod (s : Fin ipb) (k : Fin dinodeWords) : (dinodeWord s k).val % dinodeWords = k.val := by
  have words : k.val < 16 := k.isLt
  change (16 * s.val + k.val) % 16 = _
  omega

theorem halves (low high : UInt16) : (low.toUInt32 ||| (high.toUInt32 <<< 16)).toUInt16 = low ∧
    ((low.toUInt32 ||| (high.toUInt32 <<< 16)) >>> 16).toUInt16 = high := by
  have small := low.toNat_lt
  have bound := high.toNat_lt
  have value : (low.toUInt32 ||| (high.toUInt32 <<< 16)).toNat = high.toNat * 65536 + low.toNat := by
    have wide : (high.toUInt32 <<< 16).toNat = high.toNat <<< 16 := by
      simp [Nat.shiftLeft_eq]
      omega
    rw [UInt32.toNat_or, wide, UInt16.toNat_toUInt32, Nat.or_comm, ← Nat.shiftLeft_add_eq_or_of_lt small,
      Nat.shiftLeft_eq]
  constructor
  · apply UInt16.toNat_inj.mp
    rw [UInt32.toNat_toUInt16, value]
    omega
  · apply UInt16.toNat_inj.mp
    rw [UInt32.toNat_toUInt16, UInt32.toNat_shiftRight, value]
    simp [Nat.shiftRight_eq_div_pow]
    omega

theorem dinode_setDinode_self (d : Block) (s : Fin ipb) (x : Dinode) : (d.setDinode s x).dinode s = x := by
  have word : ∀ k, (d.setDinode s x).word (dinodeWord s k) = x.word k.val := by
    intro k
    rw [word_setDinode, if_pos (dinodeWord_div s k), dinodeWord_mod]
  have address : ∀ k, x.word (addrWord k).val = x.addrs k := fun k => dif_pos k.isLt
  obtain ⟨type, major⟩ := halves x.type x.major
  obtain ⟨minor, nlink⟩ := halves x.minor x.nlink
  simp only [dinode, word, address]
  simp only [Dinode.word, type, major, minor, nlink]

theorem dinode_setDinode_of_ne (d : Block) {s r : Fin ipb} (other : r ≠ s) (x : Dinode) :
    (d.setDinode s x).dinode r = d.dinode r := by
  have apart : ∀ k, ¬ (dinodeWord r k).val / dinodeWords = s.val := by
    intro k same
    rw [dinodeWord_div] at same
    exact other (Fin.ext same)
  simp only [dinode, word_setDinode, if_neg (apart _)]

end Block

-- `IBLOCK(i, sb)`
def iblock (i : UInt32) (sb : Superblock) : UInt32 := i / UInt32.ofNat ipb + sb.inodestart

def inodeIndex (i : UInt32) : Fin ipb := ⟨i.toNat % ipb, Nat.mod_lt _ (by decide)⟩

/-- `struct inode`. Its sleep lock is held or not. -/
structure MemInode extends Inode where
  inum : UInt32
  -- an `int`, and not a word that wraps: where references are counted, runs in which it overflows are left out
  ref : Int
  locked : Bool
  valid : Bool
  type : UInt16
  major : UInt16
  minor : UInt16
  nlink : UInt16
  size : UInt32

/-- The fields that `iupdate` copies to the disk. -/
def MemInode.dinode (ip : MemInode) : Dinode := ⟨ip.type, ip.major, ip.minor, ip.nlink, ip.size, ip.addrs⟩

def T_DIR : UInt16 := 1

def T_FILE : UInt16 := 2

def T_DEV : UInt16 := 3

/-- `struct devsw`, on the requests that file systems make. -/
structure Devsw (H : Type) where
  read : Option (MemInode → (Nat → UInt8) → UInt64 → Program (Bio H) (Int × (Nat → UInt8)))
  write : Option (MemInode → (Nat → UInt8) → UInt64 → Program (Bio H) Int)

namespace Fs

variable {H : Type}

def iupdate (sb : Superblock) (log : Log) (ip : MemInode) : Program (Bio H) Log := do
  let bf ← Bio.bread ip.dev (iblock ip.inum sb)
  Bio.setData bf ((← Bio.data bf).setDinode (inodeIndex ip.inum) ip.dinode)
  let log ← log.logWrite bf
  Bio.brelse bf
  return log

def BSIZE : UInt64 := UInt64.ofNat bsize

-- `min(n - tot, BSIZE - off%BSIZE)`
def chunk (n tot off : UInt64) : UInt64 := min (n - tot) (BSIZE - off % BSIZE)

-- `memmove(dst, data + off, m)`; `dst` has moved on by `tot` bytes.
def copyOut (data : Block) (off m tot : UInt64) (dst : Nat → UInt8) : Nat → UInt8 := fun k =>
  if tot.toNat ≤ k ∧ k < tot.toNat + m.toNat then data (Block.index (off.toNat + (k - tot.toNat))) else dst k

-- `memmove(data + off, src, m)`; `src` has moved on by `tot` bytes.
def copyIn (src : Nat → UInt8) (off m tot : UInt64) (data : Block) : Block := fun k =>
  if off.toNat ≤ k.val ∧ k.val < off.toNat + m.toNat then src (tot.toNat + (k.val - off.toNat)) else data k

-- The loop of `readi`; every turn copies at least one byte.
def readLoop (sb : Superblock) (n : UInt64) :
    Nat → UInt64 → UInt64 → (Nat → UInt8) → MemInode → Log → Program (Bio H) ((Nat → UInt8) × MemInode × Log)
  | 0, tot, _, dst, ip, log => if tot < n then Bio.fault else return (dst, ip, log)
  | turns + 1, tot, off, dst, ip, log =>
    if tot < n then do
      let (b, node, log) ← bmap sb log ip.toInode (off / BSIZE).toUInt32
      let bp ← Bio.bread ip.dev b
      let m := chunk n tot off
      let dst := copyOut (← Bio.data bp) (off % BSIZE) m tot dst
      Bio.brelse bp
      readLoop sb n turns (tot + m) (off + m) dst { ip with toInode := node } log
    else return (dst, ip, log)

def readi (sb : Superblock) (devsw : Fin ndev → Devsw H) (log : Log) (ip : MemInode) (dst : Nat → UInt8)
    (off n : UInt64) : Program (Bio H) (Int × (Nat → UInt8) × MemInode × Log) :=
  if ip.type = T_DEV then
    if major : ip.major.toNat < ndev then
      match (devsw ⟨ip.major.toNat, major⟩).read with
      | some read => do
        let (r, dst) ← read ip dst n
        return (r, dst, ip, log)
      | none => return (-1, dst, ip, log)
    else return (-1, dst, ip, log)
  else if off > ip.size.toUInt64 ∨ off + n < off then return (-1, dst, ip, log)
  else do
    let n := if off + n > ip.size.toUInt64 then ip.size.toUInt64 - off else n
    let (dst, ip, log) ← readLoop sb n n.toNat 0 off dst ip log
    return (n.toNat, dst, ip, log)

-- The loop of `writei`, which returns the offset that it has reached.
def writeLoop (sb : Superblock) (src : Nat → UInt8) (n : UInt64) :
    Nat → UInt64 → UInt64 → MemInode → Log → Program (Bio H) (UInt64 × MemInode × Log)
  | 0, tot, off, ip, log => if tot < n then Bio.fault else return (off, ip, log)
  | turns + 1, tot, off, ip, log =>
    if tot < n then do
      let (b, node, log) ← bmap sb log ip.toInode (off / BSIZE).toUInt32
      let bp ← Bio.bread ip.dev b
      let m := chunk n tot off
      Bio.setData bp (copyIn src (off % BSIZE) m tot (← Bio.data bp))
      let log ← log.logWrite bp
      Bio.brelse bp
      writeLoop sb src n turns (tot + m) (off + m) { ip with toInode := node } log
    else return (off, ip, log)

def writei (sb : Superblock) (devsw : Fin ndev → Devsw H) (log : Log) (ip : MemInode) (src : Nat → UInt8)
    (off n : UInt64) : Program (Bio H) (Int × MemInode × Log) :=
  if ip.type = T_DEV then
    if major : ip.major.toNat < ndev then
      match (devsw ⟨ip.major.toNat, major⟩).write with
      | some write => do
        let r ← write ip src n
        return (r, ip, log)
      | none => return (-1, ip, log)
    else return (-1, ip, log)
  else if off > ip.size.toUInt64 ∨ off + n < off then return (-1, ip, log)
  else if off + n > UInt64.ofNat (maxFile * bsize) then return (-1, ip, log)
  else do
    let (off, ip, log) ← writeLoop sb src n n.toNat 0 off ip log
    if n > 0 ∧ off > ip.size.toUInt64 then
      let ip := { ip with size := off.toUInt32 }
      let log ← iupdate sb log ip
      return (n.toNat, ip, log)
    else return (n.toNat, ip, log)

end Fs

end Xv6
