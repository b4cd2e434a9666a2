import Xv6.Fs.Search

/-! `user/src/mkfs/main.c`: the image of an initial file system.

The image file is written sector by sector. A read of a sector that the file does not have ends the
program, as does an assertion that fails. The bitmap is written last, so until then blocks are
taken by counting.
-/

set_option autoImplicit false

namespace Xv6.Mkfs

open Library

/-- The image file, with its length in sectors, and the next inode and block to be taken. -/
structure Image where
  sectors : Nat
  view : UInt32 → Block
  freeinode : UInt32
  freeblock : UInt32

def seek (sec : UInt32) : UInt32 := sec * UInt32.ofNat bsize / UInt32.ofNat bsize

namespace Image

def wsect (img : Image) (sec : UInt32) (buf : Block) : Image :=
  { img with sectors := max img.sectors ((seek sec).toNat + 1), view := Function.update img.view (seek sec) buf }

def rsect (img : Image) (sec : UInt32) : Option Block :=
  if (seek sec).toNat < img.sectors then some (img.view (seek sec)) else none

def winode (img : Image) (inum : UInt32) (din : Dinode) : Option Image := do
  let buf ← img.rsect (iblock inum superblock)
  return img.wsect (iblock inum superblock) (buf.setDinode (inodeIndex inum) din)

def rinode (img : Image) (inum : UInt32) : Option Dinode := do
  let buf ← img.rsect (iblock inum superblock)
  return buf.dinode (inodeIndex inum)

def ialloc (img : Image) (type : UInt16) : Option (UInt32 × Image) := do
  let inum := img.freeinode
  let img ← { img with freeinode := inum + 1 }.winode inum ⟨type, 0, 0, 1, 0, fun _ => 0⟩
  return (inum, img)

def takeBlock (img : Image) : UInt32 × Image := (img.freeblock, { img with freeblock := img.freeblock + 1 })

-- `if (xint(din.addrs[a]) == 0) din.addrs[a] = xint(freeblock++)`
def fillAddr (img : Image) (din : Dinode) (a : Fin (ndirect + 1)) : Dinode × Image :=
  if din.addrs a = 0 then
    ({ din with addrs := Function.update din.addrs a img.takeBlock.1 }, img.takeBlock.2)
  else (din, img)

-- The branch of `iappend` for a block behind the direct ones.
def fillEntry (img : Image) (addr : UInt32) (j : Fin nindirect) : Option (UInt32 × Image) := do
  let indirect ← img.rsect addr
  if indirect.word j = 0 then
    let indirect := indirect.setWord j img.takeBlock.1
    return (indirect.word j, img.takeBlock.2.wsect addr indirect)
  else return (indirect.word j, img)

def fileBlock (img : Image) (din : Dinode) (fbn : Nat) : Option (UInt32 × Dinode × Image) :=
  if direct : fbn < ndirect then
    let (din, img) := img.fillAddr din ⟨fbn, Nat.lt_succ_of_lt direct⟩
    some (din.addrs ⟨fbn, Nat.lt_succ_of_lt direct⟩, din, img)
  else if inside : fbn - ndirect < nindirect then do
    let (din, img) := img.fillAddr din Inode.indirect
    let (x, img) ← img.fillEntry (din.addrs Inode.indirect) ⟨fbn - ndirect, inside⟩
    return (x, din, img)
  else none

-- The loop of `iappend`, with `n` bytes to go; `p` has moved on by `tot` bytes.
def appendLoop (p : Nat → UInt8) :
    Nat → UInt32 → UInt32 → UInt32 → Dinode → Image → Option (UInt32 × Dinode × Image)
  | 0, _, n, off, din, img => if 0 < n then none else some (off, din, img)
  | turns + 1, tot, n, off, din, img =>
    if 0 < n then do
      let fbn := off / UInt32.ofNat bsize
      let (x, din, img) ← img.fileBlock din fbn.toNat
      let n1 := min n ((fbn + 1) * UInt32.ofNat bsize - off)
      let buf ← img.rsect x
      let img := img.wsect x
        (Fs.copyIn p (off - fbn * UInt32.ofNat bsize).toUInt64 n1.toUInt64 tot.toUInt64 buf)
      appendLoop p turns (tot + n1) (n - n1) (off + n1) din img
    else some (off, din, img)

def iappend (img : Image) (inum : UInt32) (p : Nat → UInt8) (n : UInt32) : Option Image := do
  let din ← img.rinode inum
  let (off, din, img) ← appendLoop p n.toNat 0 n din.size din img
  img.winode inum { din with size := off }

def firstBits (used : Nat) : Block :=
  (List.range used).foldl (fun buf i => buf.setBit ⟨i % bpb, Nat.mod_lt _ (by decide)⟩) Block.zero

def balloc (img : Image) (used : Int) : Option Image :=
  if used < bpb then some (img.wsect superblock.bmapstart (firstBits used.toNat)) else none

end Image

/-- An argument of the program, and what `read` into a buffer of `BSIZE` bytes returns of the file one
call after the other. -/
structure Input where
  path : List UInt8
  chunks : List (List UInt8)
  string : ∀ c ∈ path, c ≠ 0
  small : ∀ chunk ∈ chunks, chunk.length ≤ bsize

def Input.data (input : Input) : List UInt8 := input.chunks.flatten

def underscore : UInt8 := 95

def behindSlash (path : List UInt8) : Nat := path.foldl (fun j c => if c = slash then 0 else j + 1) 0

def Input.base (input : Input) : List UInt8 := input.path.drop (input.path.length - behindSlash input.path)

/-- The name in the file system: a leading underscore is left out. -/
def Input.name (input : Input) : List UInt8 :=
  if input.base.headD 0 = underscore then input.base.tail else input.base

def dotEntry (inum : UInt32) (name : List UInt8) : Dirent := ⟨inum.toUInt16, fun i => name.getD i.val 0⟩

namespace Image

def bytes (chunk : List UInt8) : Nat → UInt8 := fun k => chunk.getD k 0

-- `while ((cc = read(fd, buf, sizeof(buf))) > 0) iappend(inum, buf, cc)`
def copyFile (inum : UInt32) : List (List UInt8) → Image → Option Image
  | [], img => some img
  | chunk :: chunks, img => do
    let img ← img.iappend inum (bytes chunk) (UInt32.ofNat chunk.length)
    copyFile inum chunks img

def addFile (rootino : UInt32) (img : Image) (input : Input) : Option Image :=
  -- assert(index(argv[i], '/') == 0)
  if slash ∈ input.base then none
  else do
    let (inum, img) ← img.ialloc T_FILE
    let img ← img.iappend rootino (Dirent.named (.ofString input.name) inum).byte (UInt32.ofNat direntSize)
    copyFile inum input.chunks img

def blank (super : Block) : Image :=
  ((List.range fsSize).foldl (fun (img : Image) i => img.wsect (UInt32.ofNat i) Block.zero)
    ⟨0, fun _ => Block.zero, 1, UInt32.ofNat nmeta⟩).wsect 1 super

end Image

def superWords : List UInt32 := [superblock.size, superblock.nblocks, superblock.ninodes, superblock.nlog,
  superblock.logstart, superblock.inodestart, superblock.bmapstart]

-- `memmove(buf, &sb, sizeof(sb))`
def superBlock : Block := fun i => Word.byte (superWords.getD (i.val / 4) 0) (i.val % 4)

def rootSize (size : UInt32) : UInt32 := (size / UInt32.ofNat bsize + 1) * UInt32.ofNat bsize

def main (inputs : List Input) : Option Image := do
  let (rootino, img) ← (Image.blank superBlock).ialloc T_DIR
  if rootino = ROOTINO then
    let img ← img.iappend rootino (dotEntry rootino [46]).byte (UInt32.ofNat direntSize)
    let img ← img.iappend rootino (dotEntry rootino [46, 46]).byte (UInt32.ofNat direntSize)
    let img ← inputs.foldlM (Image.addFile rootino) img
    let din ← img.rinode rootino
    let img ← img.winode rootino { din with size := rootSize din.size }
    img.balloc (Word.toInt img.freeblock)
  else none

end Xv6.Mkfs
