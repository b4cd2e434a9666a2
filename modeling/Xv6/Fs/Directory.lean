import Xv6.Fs.Machine

/-! Directories: files of fixed-size entries, `dirlookup` and `dirlink` of `kern/fs.c`.

Names are the memory behind a `char *`, of which the comparison and the copy look at no
more than `DIRSIZ` bytes. The caller holds the lock of the directory, so its size stays
the same during a loop.
-/

set_option autoImplicit false

namespace Xv6

open Library

abbrev dirsiz : Nat := 14

-- `sizeof(struct dirent)`
abbrev direntSize : Nat := 16

abbrev Name : Type := Nat → UInt8

structure Dirent where
  inum : UInt16
  name : Fin dirsiz → UInt8
  deriving DecidableEq

namespace Dirent

-- `(struct dirent *)de`
def ofBytes (de : Nat → UInt8) : Dirent where
  inum := (de 0).toUInt16 ||| ((de 1).toUInt16 <<< 8)
  name i := de (2 + i.val)

def byte (d : Dirent) (k : Nat) : UInt8 :=
  if k = 0 then d.inum.toUInt8
  else if k = 1 then (d.inum >>> 8).toUInt8
  else if inside : k - 2 < dirsiz then d.name ⟨k - 2, inside⟩ else 0

theorem ofBytes_byte (d : Dirent) : ofBytes d.byte = d := by
  have low : (d.inum.toUInt8.toUInt16 ||| ((d.inum >>> 8).toUInt8.toUInt16 <<< 8)) = d.inum := by
    have bound := d.inum.toNat_lt
    have high : ((d.inum >>> 8).toUInt8.toUInt16 <<< 8).toNat = (d.inum.toNat / 256) <<< 8 := by
      simp [Nat.shiftLeft_eq, Nat.shiftRight_eq_div_pow]
      omega
    have small : d.inum.toUInt8.toUInt16.toNat < 2 ^ 8 := by
      simp
      omega
    apply UInt16.toNat_inj.mp
    rw [UInt16.toNat_or, high, Nat.or_comm, ← Nat.shiftLeft_add_eq_or_of_lt small, Nat.shiftLeft_eq]
    simp
    omega
  have name : ∀ i : Fin dirsiz, d.byte (2 + i.val) = d.name i := by
    intro i
    have first : ¬ 2 + i.val = 0 := by omega
    have second : ¬ 2 + i.val = 1 := by omega
    have inside : 2 + i.val - 2 < dirsiz := by
      have bound := i.isLt
      omega
    rw [byte, if_neg first, if_neg second, dif_pos inside]
    congr 1
    exact Fin.ext (Nat.add_sub_cancel_left 2 i.val)
  cases d
  simp only [ofBytes, name, mk.injEq, and_true]
  exact low

end Dirent

-- `strncmp(s, t, n)`
def strncmp (s t : Name) : Nat → Int
  | 0 => 0
  | n + 1 => if s 0 ≠ 0 ∧ s 0 = t 0 then strncmp (fun i => s (i + 1)) (fun i => t (i + 1)) n
    else (s 0).toNat - (t 0).toNat

def namecmp (s t : Name) : Int := strncmp s t dirsiz

-- `strncpy(dst, src, size)`, as the bytes that it stores.
def strncpy (src : Name) : Nat → List UInt8
  | 0 => []
  | size + 1 => src 0 :: strncpy (if src 0 ≠ 0 then fun i => src (i + 1) else src) size

def Dirent.nameBytes (d : Dirent) : Name := fun i => if inside : i < dirsiz then d.name ⟨i, inside⟩ else 0

def Name.ofString (s : List UInt8) : Name := fun i => s.getD i 0

def Name.dot : Name := .ofString [46]

def Name.dotdot : Name := .ofString [46, 46]

namespace Inodes

-- `sizeof(de)`
def deSize : UInt64 := UInt64.ofNat direntSize

def readEntry (dp : Fin ninode) (off : UInt64) : Program Inodes Dirent := do
  let (r, de) ← readi dp (fun _ => 0) off deSize
  -- panic("dirlookup read"), panic("dirlink read")
  if r = direntSize then return .ofBytes de else panic

-- The number of turns of `for (off = 0; off < dp->size; off += sizeof(de))`.
def entries (size : UInt32) : Nat := (size.toNat + (direntSize - 1)) / direntSize

-- The loop of `dirlookup`.
def lookupFrom (dp : Fin ninode) (dev : UInt32) (name : Name) :
    Nat → UInt64 → Program Inodes (Option (Fin ninode × UInt64))
  | 0, _ => return none
  | turns + 1, off => do
    let de ← readEntry dp off
    if de.inum ≠ 0 ∧ namecmp name de.nameBytes = 0 then
      let ip ← iget dev de.inum.toUInt32
      return some (ip, off)
    else lookupFrom dp dev name turns (off + deSize)

/-- Look for a directory entry in a directory. The offset is what `*poff` is set to. -/
def dirlookup (dp : Fin ninode) (name : Name) : Program Inodes (Option (Fin ninode × UInt64)) := do
  let d ← fields dp
  -- panic("dirlookup not DIR")
  if d.type ≠ T_DIR then panic
  else lookupFrom dp d.dev name (entries d.size) 0

-- The loop of `dirlink`, with the offset at which it ends.
def emptyFrom (dp : Fin ninode) : Nat → UInt64 → Program Inodes UInt64
  | 0, off => return off
  | turns + 1, off => do
    let de ← readEntry dp off
    if de.inum = 0 then return off else emptyFrom dp turns (off + deSize)

def dirlink (dp : Fin ninode) (name : Name) (inum : UInt32) : Program Inodes Int := do
  match ← dirlookup dp name with
  | some (ip, _) =>
    iput ip
    return -1
  | none =>
    let off ← emptyFrom dp (entries (← fields dp).size) 0
    let de : Dirent := ⟨inum.toUInt16, fun i => (strncpy name dirsiz).getD i.val 0⟩
    let r ← writei dp de.byte off deSize
    -- panic("dirlink")
    if r = direntSize then return 0 else panic

end Inodes

end Xv6
