import Mathlib.Data.Fintype.Pi

/-! The on-disk format of `inc/fs.h` and the layout computed by `user/src/mkfs`.

A block is a vector of bytes. Structures that the kernel overlays on it, the log
header and the indirect blocks, are read and written as little-endian words.
-/

set_option autoImplicit false

namespace Xv6

/-! ## Constants -/

abbrev bsize : Nat := 512
abbrev maxOpBlocks : Nat := 10
abbrev nbuf : Nat := maxOpBlocks * 3
abbrev logSize : Nat := maxOpBlocks * 3
abbrev fsSize : Nat := 1000
abbrev ndirect : Nat := 12
abbrev nindirect : Nat := bsize / 4

-- `sizeof(struct dinode)`: four 16-bit fields, the size, and the block addresses.
abbrev dinodeSize : Nat := 4 * 2 + 4 + 4 * (ndirect + 1)
abbrev ipb : Nat := bsize / dinodeSize
abbrev bpb : Nat := bsize * 8

instance : @NeZero Nat Zero.ofOfNat0 nindirect := ⟨Nat.succ_ne_zero 127⟩

instance : @NeZero Nat Zero.ofOfNat0 nbuf := ⟨Nat.succ_ne_zero 29⟩

/-! ## Blocks -/

abbrev Block : Type := Fin bsize → UInt8

-- `memset(data, 0, BSIZE)`
def Block.zero : Block := fun _ => 0

namespace Word

def byte (w : UInt32) (k : Nat) : UInt8 := UInt8.ofNat (w.toNat / 256 ^ k)

def ofBytes (b₀ b₁ b₂ b₃ : UInt8) : UInt32 :=
  UInt32.ofNat (b₀.toNat + 256 * (b₁.toNat + 256 * (b₂.toNat + 256 * b₃.toNat)))

theorem ofBytes_byte (w : UInt32) : ofBytes (byte w 0) (byte w 1) (byte w 2) (byte w 3) = w := by
  apply UInt32.toNat_inj.mp
  have bound := w.toNat_lt
  simp only [ofBytes, byte, UInt32.toNat_ofNat', UInt8.toNat_ofNat']
  omega

/-- The value of a 32-bit word read as a C `int`. -/
def toInt (w : UInt32) : Int :=
  if w.toNat < 2 ^ 31 then w.toNat else w.toNat - 2 ^ 32

def ofInt (n : Int) : UInt32 := UInt32.ofNat (n % 2 ^ 32).toNat

theorem toInt_ofInt {n : Int} (low : -2 ^ 31 ≤ n) (high : n < 2 ^ 31) : toInt (ofInt n) = n := by
  simp only [toInt, ofInt, UInt32.toNat_ofNat']
  split <;> omega

end Word

namespace Block

def position (i : Fin nindirect) (k : Fin 4) : Fin bsize :=
  ⟨4 * i.val + k.val, by
    have words : i.val < 128 := i.isLt
    change _ < 512
    omega⟩

-- `((uint32_t *)data)[i]`
def word (d : Block) (i : Fin nindirect) : UInt32 :=
  Word.ofBytes (d (position i 0)) (d (position i 1)) (d (position i 2)) (d (position i 3))

def setWord (d : Block) (i : Fin nindirect) (w : UInt32) : Block :=
  fun j => if j.val / 4 = i.val then Word.byte w (j.val % 4) else d j

theorem setWord_position (d : Block) (i j : Fin nindirect) (w : UInt32) (k : Fin 4) :
    d.setWord i w (position j k) = if j = i then Word.byte w k else d (position j k) := by
  have quotient : (4 * j.val + k.val) / 4 = j.val := by omega
  have remainder : (4 * j.val + k.val) % 4 = k.val := by omega
  simp only [setWord, position, quotient, remainder, Fin.ext_iff]

theorem word_setWord (d : Block) (i j : Fin nindirect) (w : UInt32) :
    (d.setWord i w).word j = if j = i then w else d.word j := by
  by_cases same : j = i
  · simpa [word, setWord_position, same] using Word.ofBytes_byte w
  · simp [word, setWord_position, same]

@[simp] theorem word_setWord_self (d : Block) (i : Fin nindirect) (w : UInt32) :
    (d.setWord i w).word i = w := by
  simp [word_setWord]

end Block

/-! ## Super block -/

structure Superblock where
  size : UInt32
  nblocks : UInt32
  ninodes : UInt32
  nlog : UInt32
  logstart : UInt32
  inodestart : UInt32
  bmapstart : UInt32

namespace Mkfs

abbrev ninodes : Nat := 200
abbrev nbitmap : Nat := fsSize / (bsize * 8) + 1
abbrev ninodeblocks : Nat := ninodes / ipb + 1
abbrev nlog : Nat := logSize
abbrev nmeta : Nat := 2 + nlog + ninodeblocks + nbitmap

/-- The super block that `main` of mkfs writes:
`[ boot | super | log | inode blocks | free bit map | data blocks ]`. -/
def superblock : Superblock where
  size := UInt32.ofNat fsSize
  nblocks := UInt32.ofNat (fsSize - nmeta)
  ninodes := UInt32.ofNat ninodes
  nlog := UInt32.ofNat nlog
  logstart := 2
  inodestart := UInt32.ofNat (2 + nlog)
  bmapstart := UInt32.ofNat (2 + nlog + ninodeblocks)

end Mkfs

-- `BBLOCK(b, sb)`
def bblock (b : UInt32) (sb : Superblock) : UInt32 := b / UInt32.ofNat bpb + sb.bmapstart

end Xv6
