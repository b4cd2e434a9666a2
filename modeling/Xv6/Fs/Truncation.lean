import Xv6.Fs.Release

/-! What `itrunc` leaves of an inode.

Every block is freed, and the size becomes 0. The addresses stay in the inode, and `iupdate`
writes them to the disk.
-/

set_option autoImplicit false

namespace Xv6.Fs

open Library

/-- The blocks of the inode are free, no other block is, and the inode does not refer to them any more. -/
structure Truncated (sb : Superblock) (ip ip' : MemInode) (view view' : UInt32 → Block) : Prop where
  marks : ∀ c, Covered sb c → (InUse sb view' c ↔ InUse sb view c ∧ ∀ k, refAt view ip.addrs k ≠ 0 →
    refAt view ip.addrs k ≠ c)
  size : ip'.size = 0 ∧ (diskInode sb view' ip.inum).size = 0
  memory : ∀ k l, refAt view ip.addrs k ≠ 0 → refAt view' ip'.addrs l ≠ refAt view ip.addrs k
  disk : ∀ k l, refAt view ip.addrs k ≠ 0 → refAt view' (diskInode sb view' ip.inum).addrs l ≠ refAt view ip.addrs k

section
variable {sb : Superblock} {view view' : UInt32 → Block} {nodes : Nodes} {inv : Log → Prop} {log : Log} {s : Store}
  {ip : MemInode}

theorem refAt_some {addrs : Addrs} {k : Slot} (filled : refAt view addrs k ≠ 0) : ∃ a, addrs a ≠ 0 := by
  cases k with
  | direct k => exact ⟨k.castSucc, filled⟩
  | indirect => exact ⟨Inode.indirect, filled⟩
  | entry j =>
    refine ⟨Inode.indirect, fun none => filled ?_⟩
    rw [refAt, if_pos none]

/-- After `itrunc` exactly the blocks of the inode have become free, and nothing refers to them, if and only if
the inode has no block. -/
theorem itrunc_truncated_iff (admits : Admits inv) (ok : inv log) (sound : Sound sb s.view nodes)
    (here : nodes ip.inum = ip.addrs) (inside : InTable sb ip.inum) {ip' : MemInode} {log' : Log} {t : Store}
    (ran : (itrunc sb log ip).run Store.handle s = some ((ip', log'), t)) :
    Truncated sb ip ip' s.view t.view ↔ ∀ k, refAt s.view ip.addrs k = 0 := by
  obtain ⟨log₁, view₁, truncates, _, freed⟩ := itrunc_run admits ok sound here
  cases truncates.symm.trans ran
  have sound' := freed.sound sound
  rw [here] at freed
  constructor
  · intro truncated k
    by_contra filled
    obtain ⟨a, isAddress⟩ := refAt_some filled
    have real : refAt s.view ip.addrs (Slot.address a) ≠ 0 := by rwa [refAt_address]
    refine truncated.memory (Slot.address a) (Slot.address a) real ?_
    rw [refAt_address, refAt_address]
  · intro empty
    refine ⟨fun c covered => ?_, ⟨rfl, ?_⟩, fun k l filled => absurd (empty k) filled,
      fun k l filled => absurd (empty k) filled⟩
    · rw [inUse_putInode sound' inside _ covered, freed.marks c]
      exact and_congr_right fun _ => ⟨fun apart k => apart k (mem_slots k), fun apart k _ => apart k⟩
    · rw [diskInode_putInode_self]
      rfl

end

/-! ## A file with a block -/

def shortFile : Addrs := fun k => if k.val = 0 then 59 else 0

def shortNodes : Nodes := oneBlock 2 59

theorem sound_short : Sound Mkfs.superblock usedDisk shortNodes where
  owns := oneBlock_owns ⟨covered_of_lt (by decide), inUse_usedDisk (n := 59) (by decide),
    fun isMeta => absurd (meta_used isMeta) (by decide)⟩
  reserved := sound_usedDisk.reserved
  apart := sound_usedDisk.apart

theorem itrunc_truncated_iff_empty : ∃ ip' log' t,
    (itrunc Mkfs.superblock emptyLog (emptyFile 9 fun _ => 0)).run Store.handle usedStore = some ((ip', log'), t) ∧
      Truncated Mkfs.superblock (emptyFile 9 fun _ => 0) ip' usedDisk t.view := by
  have sound : Sound Mkfs.superblock usedStore.view (fun _ _ => 0) := sound_usedDisk
  have empty : emptyLog.lh.n = 0 := rfl
  have here : (fun _ _ => 0 : Nodes) (emptyFile 9 fun _ => 0).inum = (emptyFile 9 fun _ => 0).addrs := rfl
  obtain ⟨log', view', ran, _⟩ := itrunc_run admits_empty empty sound here
  refine ⟨_, _, _, ran, (itrunc_truncated_iff admits_empty empty sound here (by decide) ran).mpr fun k => ?_⟩
  by_contra filled
  obtain ⟨a, isAddress⟩ := refAt_some filled
  exact isAddress rfl

/-- The file still refers to its block, which is free. -/
theorem truncated_dangling : ¬ ∀ (sb : Superblock) (s : Store) (log : Log) (nodes : Nodes)
    (ip : MemInode), log.lh.n = 0 →
    Sound sb s.view nodes → nodes ip.inum = ip.addrs → InTable sb ip.inum →
    ∀ ip' log' t, (itrunc sb log ip).run Store.handle s = some ((ip', log'), t) →
      Truncated sb ip ip' s.view t.view := by
  intro always
  have sound : Sound Mkfs.superblock usedStore.view shortNodes := sound_short
  have empty : emptyLog.lh.n = 0 := rfl
  have here : shortNodes (emptyFile 2 shortFile).inum = (emptyFile 2 shortFile).addrs := rfl
  obtain ⟨log', view', ran, _⟩ := itrunc_run admits_empty empty sound here
  have truncated := always Mkfs.superblock usedStore emptyLog shortNodes
    (emptyFile 2 shortFile) empty sound here (by decide)
    _ _ _ ran
  refine truncated.memory (.direct ⟨0, by decide⟩) (.direct ⟨0, by decide⟩) ?_ rfl
  decide

end Xv6.Fs
