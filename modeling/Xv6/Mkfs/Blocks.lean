import Xv6.Mkfs.Image

/-! Blocks of an image that is being built.

The bitmap is written when everything else is, so an image is looked at with the bitmap that it would be
given now. Counting up `freeblock` is then the same as what `balloc` of the kernel does.
-/

set_option autoImplicit false

namespace Xv6.Mkfs

open Library Fs

/-! ## The bitmap -/

theorem firstBits_succ (used : Nat) : Image.firstBits (used + 1) =
    (Image.firstBits used).setBit ⟨used % bpb, Nat.mod_lt _ (by decide)⟩ := by
  rw [Image.firstBits, List.range_succ, List.foldl_append]
  rfl

theorem bit_firstBits {used : Nat} (small : used ≤ bpb) (j : Fin bpb) :
    (Image.firstBits used).bit j = decide (j.val < used) := by
  induction used with
  | zero =>
    have clear : (Image.firstBits 0).bit j = false := Nat.zero_testBit _
    exact clear.trans (decide_eq_false (Nat.not_lt_zero _)).symm
  | succ used ih =>
    have inside : used % bpb = used := Nat.mod_eq_of_lt small
    rw [firstBits_succ, Block.bit_setBit, ih (Nat.le_of_succ_le small), ← Bool.decide_or]
    apply decide_eq_decide.mpr
    rw [Fin.ext_iff]
    dsimp only
    omega

theorem toNat_bmapstart : superblock.bmapstart.toNat = 58 := rfl

theorem bblock_small {b : UInt32} (small : b.toNat < bpb) : bblock b superblock = superblock.bmapstart := by
  apply UInt32.toNat_inj.mp
  change b.toNat < 4096 at small
  rw [bblock, UInt32.toNat_add, UInt32.toNat_div, toNat_bmapstart]
  change (b.toNat / 4096 + 58) % 2 ^ 32 = 58
  omega

theorem seek_small {b : UInt32} (small : b.toNat < bpb) : seek b = b := by
  apply UInt32.toNat_inj.mp
  change b.toNat < 4096 at small
  rw [seek, UInt32.toNat_div, UInt32.toNat_mul]
  change b.toNat * 512 % 2 ^ 32 / 512 = b.toNat
  omega

theorem covered_small {b : UInt32} : Covered superblock b ↔ b.toNat < bpb := by
  have bound : (superblock.size.toNat + (bpb - 1)) / bpb * bpb = bpb := by decide
  rw [Covered, bound]

theorem meta_head {b : UInt32} (before : b.toNat < 2 + nlog) : Meta superblock b := by
  change b.toNat < 32 at before
  by_cases boot : b.toNat = 0
  · obtain rfl : b = 0 := UInt32.toNat_inj.mp boot
    exact Meta.boot
  · by_cases super : b.toNat = 1
    · obtain rfl : b = 1 := UInt32.toNat_inj.mp super
      exact Meta.super
    · have low : (2 : UInt32) ≤ b := UInt32.le_iff_toNat_le.mpr (by change 2 ≤ b.toNat; omega)
      have inside : b - 2 < superblock.nlog := by
        rw [UInt32.lt_iff_toNat_lt, UInt32.toNat_sub_of_le _ _ low]
        change b.toNat - 2 < 30
        omega
      have same : superblock.logstart + (b - 2) = b := by
        change 2 + (b - 2) = b
        rw [UInt32.add_comm, UInt32.sub_add_cancel]
      exact same ▸ Meta.log (b - 2) inside

/-! ## Images -/

def Image.marked (img : Image) : UInt32 → Block :=
  Function.update img.view superblock.bmapstart (Image.firstBits img.freeblock.toNat)

/-- The blocks before the inode table are as they were written first. The others are in use before
`freeblock`, and zero from there on. -/
structure Counted (img : Image) : Prop where
  sectors : img.sectors = fsSize
  low : nmeta ≤ img.freeblock.toNat
  high : img.freeblock.toNat ≤ fsSize
  head : ∀ b, b.toNat < 2 + nlog → img.marked b = if b = 1 then superBlock else Block.zero
  fresh : ∀ b, img.freeblock.toNat ≤ b.toNat → b.toNat < fsSize → img.marked b = Block.zero

structure Sane (img : Image) (nodes : Nodes) : Prop extends Counted img where
  sound : Sound superblock img.marked nodes

variable {img : Image} {nodes : Nodes} {b f : UInt32}

theorem fsSize_small : fsSize < bpb := by decide

theorem wsect_marked (small : b.toNat < bpb) (other : b ≠ superblock.bmapstart) (d : Block) :
    (img.wsect b d).marked = Function.update img.marked b d := by
  rw [Image.marked, Image.marked, Image.wsect, seek_small small]
  exact Function.update_comm other ..

theorem rsect_end (sectors : img.sectors = fsSize) (full : b.toNat = fsSize) : img.rsect b = none := by
  have small : b.toNat < bpb := full ▸ fsSize_small
  rw [Image.rsect, seek_small small, sectors, full]
  exact if_neg (Nat.lt_irrefl _)

section
variable (more : img.freeblock.toNat < fsSize)
include more

theorem covered_next : Covered superblock img.freeblock := covered_small.mpr (more.trans fsSize_small)

theorem toNat_next : (img.freeblock + 1).toNat = img.freeblock.toNat + 1 := by
  change img.freeblock.toNat < 1000 at more
  rw [UInt32.toNat_add]
  change (img.freeblock.toNat + 1) % 2 ^ 32 = _
  omega

end

namespace Counted

variable (counted : Counted img)
include counted

theorem used_small : img.freeblock.toNat ≤ bpb := counted.high.trans fsSize_small.le

theorem inUse (covered : Covered superblock b) : InUse superblock img.marked b ↔ b.toNat < img.freeblock.toNat := by
  have below := covered_small.mp covered
  have index : (bitIndex b).val = b.toNat := Nat.mod_eq_of_lt below
  rw [InUse, bblock_small below, Image.marked, Function.update_self, bit_firstBits counted.used_small,
    decide_eq_true_eq, index]

theorem rsect (inside : b.toNat < fsSize) (other : b ≠ superblock.bmapstart) :
    img.rsect b = some (img.marked b) := by
  rw [Image.rsect, seek_small (inside.trans fsSize_small), counted.sectors, if_pos inside, Image.marked,
    Function.update_of_ne other]

theorem wsect (behind : 2 + nlog ≤ b.toNat) (used : b.toNat < img.freeblock.toNat) (other : b ≠ superblock.bmapstart)
    (d : Block) : Counted (img.wsect b d) := by
  have below := used.trans_le counted.high
  refine ⟨?_, counted.low, counted.high, ?_, ?_⟩
  · change max img.sectors _ = _
    rw [seek_small (below.trans fsSize_small), counted.sectors]
    exact Nat.max_eq_left below
  · intro c before
    have apart : c ≠ b := by
      rintro rfl
      omega
    rw [wsect_marked (below.trans fsSize_small) other, Function.update_of_ne apart]
    exact counted.head c before
  · intro c free onDisk
    change img.freeblock.toNat ≤ c.toNat at free
    have apart : c ≠ b := by
      rintro rfl
      omega
    rw [wsect_marked (below.trans fsSize_small) other, Function.update_of_ne apart]
    exact counted.fresh c free onDisk

theorem next_bitmap : img.freeblock ≠ superblock.bmapstart := by
  have low := counted.low
  intro same
  rw [same] at low
  exact absurd low (by decide)

theorem next_real : img.freeblock ≠ 0 := by
  have low := counted.low
  intro none
  rw [none] at low
  exact absurd low (by decide)

variable (more : img.freeblock.toNat < fsSize)
include more

theorem free_next : ¬ InUse superblock img.marked img.freeblock := by
  rw [counted.inUse (covered_next more)]
  exact Nat.lt_irrefl _

theorem marked_takeBlock : img.takeBlock.2.marked = allocate superblock img.marked img.freeblock := by
  have small := more.trans fsSize_small
  have index : bitIndex img.freeblock = ⟨img.freeblock.toNat % bpb, Nat.mod_lt _ (by decide)⟩ := rfl
  have bits : img.marked superblock.bmapstart = Image.firstBits img.freeblock.toNat := Function.update_self ..
  rw [allocate, bblock_small small, bits, index, ← firstBits_succ, ← toNat_next more]
  funext c
  by_cases here : c = img.freeblock
  · subst here
    rw [Function.update_self, ← counted.fresh _ (Nat.le_refl _) more, Image.marked, Image.marked,
      Function.update_of_ne counted.next_bitmap, Function.update_of_ne counted.next_bitmap]
    rfl
  · rw [Function.update_of_ne here, Image.marked, Image.marked, Function.update_idem]
    rfl

theorem takeBlock : Counted img.takeBlock.2 := by
  have low := counted.low
  change 59 ≤ _ at low
  have beside : ∀ c, c ≠ img.freeblock → c ≠ superblock.bmapstart → img.takeBlock.2.marked c = img.marked c := by
    intro c other notBitmap
    rw [counted.marked_takeBlock more, allocate, bblock_small (more.trans fsSize_small), Function.update_of_ne other,
      Function.update_of_ne notBitmap]
  refine ⟨counted.sectors, ?_, ?_, ?_, ?_⟩
  · change _ ≤ (img.freeblock + 1).toNat
    rw [toNat_next more]
    exact Nat.le_succ_of_le low
  · change (img.freeblock + 1).toNat ≤ _
    rw [toNat_next more]
    exact more
  · intro c before
    change c.toNat < 32 at before
    have other : c ≠ img.freeblock := by
      rintro rfl
      omega
    have notBitmap : c ≠ superblock.bmapstart := by
      intro same
      rw [same, toNat_bmapstart] at before
      omega
    rw [beside c other notBitmap]
    exact counted.head c before
  · intro c free onDisk
    change (img.freeblock + 1).toNat ≤ c.toNat at free
    rw [toNat_next more] at free
    have other : c ≠ img.freeblock := by
      rintro rfl
      omega
    have notBitmap : c ≠ superblock.bmapstart := by
      intro same
      rw [same, toNat_bmapstart] at free
      omega
    rw [beside c other notBitmap]
    exact counted.fresh c (by omega) onDisk

end Counted

namespace Sane

variable (sane : Sane img nodes) {k : Slot} (filled : refAt img.marked (nodes f) k ≠ 0)
include sane filled

theorem ref_lt : (refAt img.marked (nodes f) k).toNat < img.freeblock.toNat := by
  have held := sane.sound.ref_held filled
  exact (sane.inUse held.covered).mp held.inUse

theorem ref_bitmap : refAt img.marked (nodes f) k ≠ superblock.bmapstart := by
  have zero : Covered superblock 0 := covered_small.mpr (by decide)
  exact sane.sound.bitmap_not_ref zero filled

theorem ref_head : 2 + nlog ≤ (refAt img.marked (nodes f) k).toNat := by
  by_contra before
  exact (sane.sound.ref_held filled).data (meta_head (Nat.lt_of_not_le before))

theorem rsect_ref : img.rsect (refAt img.marked (nodes f) k) = some (img.marked (refAt img.marked (nodes f) k)) :=
  sane.rsect ((sane.ref_lt filled).trans_le sane.high) (sane.ref_bitmap filled)

theorem wsect_ref (d : Block) : Counted (img.wsect (refAt img.marked (nodes f) k) d) ∧
    (img.wsect (refAt img.marked (nodes f) k) d).marked =
      Function.update img.marked (refAt img.marked (nodes f) k) d := by
  have used := sane.ref_lt filled
  exact ⟨sane.wsect (sane.ref_head filled) used (sane.ref_bitmap filled) d,
    wsect_marked ((used.trans_le sane.high).trans fsSize_small) (sane.ref_bitmap filled) d⟩

end Sane

end Xv6.Mkfs
