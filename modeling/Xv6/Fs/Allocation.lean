import Xv6.Fs.Ownership

/-! Which block `balloc` takes, and which inode `ialloc` takes.

Both look at whole blocks of a map, and the end of the map lies in the middle of one.
-/

set_option autoImplicit false

namespace Xv6.Fs

open Library

variable {sb : Superblock} {view view' : UInt32 → Block} {inv : Log → Prop} {log log' : Log} {s t : Store}
  {b c dev : UInt32}

/-! ## Blocks -/

/-- The lowest block with a bit that is clear. -/
structure Lowest (sb : Superblock) (view : UInt32 → Block) (b : UInt32) : Prop where
  covered : Covered sb b
  free : ¬ InUse sb view b
  first : ∀ c, c < b → InUse sb view c

theorem Lowest.eq (first : Lowest sb view b) (second : Lowest sb view c) : b = c := by
  apply UInt32.toNat_inj.mp
  rcases Nat.lt_trichotomy b.toNat c.toNat with less | same | less
  · exact absurd (second.first b (UInt32.lt_iff_toNat_lt.mpr less)) first.free
  · exact same
  · exact absurd (first.first c (UInt32.lt_iff_toNat_lt.mpr less)) second.free

theorem ballocFrom_lowest (admits : Admits inv) (ok : inv log) (dev : UInt32) {turns : Nat} {i : UInt32}
    (scan : Scan sb turns i) (before : ∀ c, c < i → InUse sb s.view c) :
    (∃ b log', (ballocFrom sb log dev turns i).run Store.handle s =
      some ((b, log'), { s with view := allocate sb s.view b }) ∧
      inv log' ∧ Lowest sb s.view b) ∨
    ((ballocFrom sb log dev turns i).run Store.handle s = none ∧ ∀ c, Covered sb c → InUse sb s.view c) := by
  induction turns generalizing i with
  | zero =>
    refine .inr ⟨rfl, fun c covered => before c ?_⟩
    have left : (sb.size.toNat + 4095) / 4096 = 0 + i.toNat / 4096 := scan.left
    have inside : c.toNat < (sb.size.toNat + 4095) / 4096 * 4096 := covered
    rw [UInt32.lt_iff_toNat_lt]
    omega
  | succ turns ih =>
    have starts : i.toNat % 4096 = 0 := scan.aligned
    have left : (sb.size.toNat + 4095) / 4096 = turns + 1 + i.toNat / 4096 := scan.left
    cases found : (s.view (bblock i sb)).firstFree with
    | none =>
      rw [ballocFrom_full dev found]
      have here : ∀ c : UInt32, c.toNat < i.toNat + 4096 → InUse sb s.view c := by
        intro c below
        rcases Nat.lt_or_ge c.toNat i.toNat with less | later
        · exact before c (UInt32.lt_iff_toNat_lt.mpr less)
        · have high : c.toNat - i.toNat < bpb := by
            change _ < 4096
            omega
          exact (scan.inUse (UInt32.le_iff_toNat_le.mpr later) high).mpr (firstFree_none found _)
      by_cases last : turns = 0
      · subst last
        refine .inr ⟨rfl, fun c covered => here c ?_⟩
        have inside : c.toNat < (sb.size.toNat + 4095) / 4096 * 4096 := covered
        omega
      · refine ih (scan.next last) fun c less => here c ?_
        have small := sb.size.toNat_lt
        have next : (i + UInt32.ofNat bpb).toNat = i.toNat + 4096 := by
          rw [UInt32.toNat_add]
          change (i.toNat + 4096) % 2 ^ 32 = _
          omega
        rw [UInt32.lt_iff_toNat_lt, next] at less
        exact less
    | some j =>
      obtain ⟨log', allocates, ok', unused⟩ := ballocFrom_found admits ok dev scan found
      refine .inl ⟨_, log', allocates, ok', scan.covered_add j, unused, fun c less => ?_⟩
      rw [UInt32.lt_iff_toNat_lt, scan.toNat_add] at less
      rcases Nat.lt_or_ge c.toNat i.toNat with earlier | later
      · exact before c (UInt32.lt_iff_toNat_lt.mpr earlier)
      · have bits : j.val < 4096 := j.isLt
        have high : c.toNat - i.toNat < bpb := by
          change _ < 4096
          omega
        refine (scan.inUse (UInt32.le_iff_toNat_le.mpr later) high).mpr ((firstFree_some found).2 _ ?_)
        change c.toNat - i.toNat < j.val
        omega

variable (sb) in
theorem balloc_lowest (admits : Admits inv) (ok : inv log) (dev : UInt32) (s : Store) :
    (∃ b log', (balloc sb log dev).run Store.handle s = some ((b, log'), { s with view := allocate sb s.view b }) ∧
      inv log' ∧ Lowest sb s.view b) ∨
    ((balloc sb log dev).run Store.handle s = none ∧ ∀ c, Covered sb c → InUse sb s.view c) :=
  ballocFrom_lowest admits ok dev (Scan.start sb) fun _ less => absurd (UInt32.lt_iff_toNat_lt.mp less)
    (Nat.not_lt_zero _)

/-- Clearing the block does not clear a bit. -/
def Apart (sb : Superblock) (view : UInt32 → Block) (b : UInt32) : Prop :=
  ∀ c, Covered sb c → bblock c sb = b → c ≠ b ∧ ¬ InUse sb view c

theorem not_inUse_zero (zero : view (bblock c sb) = Block.zero) : ¬ InUse sb view c := by
  rw [InUse, zero, Block.bit]
  change ¬ Nat.testBit 0 _ = true
  simp

theorem inUse_allocate (apart : Apart sb view b) (covered : Covered sb c) :
    InUse sb (allocate sb view b) c ↔ InUse sb view c ∨ c = b := by
  by_cases isBlock : bblock c sb = b
  · obtain ⟨other, unused⟩ := apart c covered isBlock
    have cleared : ¬ InUse sb (allocate sb view b) c := not_inUse_zero (isBlock ▸ allocate_self)
    exact iff_of_false cleared (not_or.mpr ⟨unused, other⟩)
  · rw [← inUse_setBit b c, InUse, InUse, allocate, Function.update_of_ne isBlock]

theorem exists_lt_size (covered : Covered sb b) : ∃ c, c < sb.size ∧ bblock c sb = bblock b sb := by
  have inside : b.toNat < (sb.size.toNat + 4095) / 4096 * 4096 := covered
  have bound := b.toNat_lt
  have aligned : (UInt32.ofNat (b.toNat / 4096 * 4096)).toNat = b.toNat / 4096 * 4096 := by
    rw [UInt32.toNat_ofNat']
    omega
  refine ⟨UInt32.ofNat (b.toNat / 4096 * 4096), ?_, ?_⟩
  · rw [UInt32.lt_iff_toNat_lt, aligned]
    omega
  · rw [bblock, bblock]
    congr 1
    apply UInt32.toNat_inj.mp
    rw [UInt32.toNat_div, UInt32.toNat_div, aligned]
    change b.toNat / 4096 * 4096 / 4096 = b.toNat / 4096
    omega

/-- Block `b` was free, it is marked and zeroed, and `bfree` restores the bitmap. -/
structure Allocates (sb : Superblock) (dev : UInt32) (s : Store) (b : UInt32) (log' : Log) (t : Store) : Prop where
  onDisk : b < sb.size
  free : ¬ InUse sb s.view b
  marks : ∀ c, Covered sb c → (InUse sb t.view c ↔ InUse sb s.view c ∨ c = b)
  zeroed : t.view b = Block.zero
  same : ∀ x, x ≠ b → x ≠ bblock b sb → t.view x = s.view x
  restores : ∃ log'' u, (bfree sb log' dev b).run Store.handle t = some (log'', u) ∧
    ∀ c, Covered sb c → (InUse sb u.view c ↔ InUse sb s.view c)

/-- What `balloc` should do. It has no call of `panic`, so it fails in a defined way only if it returns. -/
structure AllocatesBlock (sb : Superblock) (log : Log) (dev : UInt32) (s : Store) : Prop where
  found : (∃ c, c < sb.size ∧ ¬ InUse sb s.view c) →
    ∃ b log' t, (balloc sb log dev).run Store.handle s = some ((b, log'), t) ∧ Allocates sb dev s b log' t
  full : (∀ c, c < sb.size → InUse sb s.view c) →
    ∃ out t, (balloc sb log dev).run Store.handle s = some (out, t) ∧ ∀ c, Covered sb c →
    (InUse sb t.view c ↔ InUse sb s.view c)

/-- `balloc` does what it should if and only if a bit below the size is clear, and clearing the lowest such block
does not clear a bit. -/
theorem balloc_allocates_iff (admits : Admits inv) (ok : inv log) (dev : UInt32) (s : Store) :
    AllocatesBlock sb log dev s ↔ ∃ b, b < sb.size ∧ Lowest sb s.view b ∧ Apart sb s.view b := by
  rcases balloc_lowest sb admits ok dev s with ⟨b, log', ran, ok', lowest⟩ | ⟨stuck, all⟩
  · constructor
    · rintro ⟨found, full⟩
      by_cases some : ∃ c, c < sb.size ∧ ¬ InUse sb s.view c
      · obtain ⟨b', log'', t, ran', allocates⟩ := found some
        cases ran.symm.trans ran'
        refine ⟨b, allocates.onDisk, lowest, fun c covered isBlock => ?_⟩
        have cleared : ¬ InUse sb (allocate sb s.view b) c := not_inUse_zero (isBlock ▸ allocate_self)
        rw [allocates.marks c covered, not_or] at cleared
        exact ⟨cleared.2, cleared.1⟩
      · -- the bit that is set, or the bits that are cleared with the block, belong to no block of the disk
        exfalso
        have used : ∀ c, c < sb.size → InUse sb s.view c := fun c below => by
          by_contra unused
          exact some ⟨c, below, unused⟩
        obtain ⟨out, t, ran', same⟩ := full used
        cases ran.symm.trans ran'
        by_cases own : bblock b sb = b
        · obtain ⟨c, below, sameBlock⟩ := exists_lt_size lowest.covered
          have cleared : ¬ InUse sb (allocate sb s.view b) c := not_inUse_zero (sameBlock.trans own ▸ allocate_self)
          exact cleared ((same c (covered_of_lt below)).mpr (used c below))
        · have marked : InUse sb (allocate sb s.view b) b := by
            rw [InUse, allocate, Function.update_of_ne own]
            exact (inUse_setBit b b).mpr (.inr rfl)
          exact lowest.free ((same b lowest.covered).mp marked)
    · rintro ⟨b', onDisk, lowest', apart⟩
      obtain rfl := lowest.eq lowest'
      refine ⟨fun _ => ⟨b, log', _, ran, onDisk, lowest.free, fun c covered => inUse_allocate apart covered,
        allocate_self, ?_, ?_⟩,
        fun used => absurd (used b onDisk) lowest.free⟩
      · intro x other notBitmap
        change allocate sb s.view b x = _
        rw [allocate, Function.update_of_ne other, Function.update_of_ne notBitmap]
      · have used : InUse sb (allocate sb s.view b) b := (inUse_allocate apart lowest.covered).mpr (.inr rfl)
        obtain ⟨log'', frees, _⟩ := bfree_run (s := { s with view := allocate sb s.view b }) admits ok' dev used
        refine ⟨log'', _, frees, fun c covered => ?_⟩
        rw [inUse_release used, inUse_allocate apart covered]
        constructor
        · rintro ⟨before | same, other⟩
          · exact before
          · exact absurd same other
        · intro before
          refine ⟨.inl before, ?_⟩
          rintro rfl
          exact lowest.free before
  · refine iff_of_false ?_ ?_
    · rintro ⟨_, full⟩
      obtain ⟨out, t, ran, _⟩ := full fun c below => all c (covered_of_lt below)
      rw [stuck] at ran
      cases ran
    · rintro ⟨b, _, lowest, _⟩
      exact lowest.free (all b lowest.covered)

theorem balloc_allocates_iff_used : AllocatesBlock Mkfs.superblock emptyLog 1 usedStore := by
  have empty : emptyLog.lh.n = 0 := rfl
  have before : ∀ c : UInt32, c.toNat < 61 → InUse Mkfs.superblock usedDisk c := fun c below => by
    have used := inUse_usedDisk below
    rwa [UInt32.ofNat_toNat] at used
  refine (balloc_allocates_iff admits_empty empty 1 usedStore).mpr
    ⟨61, by decide, ⟨covered_of_lt (by decide), ?_, ?_⟩, fun c covered isBlock => ?_⟩
  · change ¬ InUse Mkfs.superblock usedDisk 61
    decide
  · exact fun c less => before c (UInt32.lt_iff_toNat_lt.mp less)
  · have isMeta : Meta Mkfs.superblock (bblock c Mkfs.superblock) := .bitmap c covered
    rw [isBlock] at isMeta
    exact absurd (meta_used isMeta) (by decide)

def fullDisk : Superblock := { Mkfs.superblock with size := 61 }

/-- On a full disk, `balloc` marks and returns a block past its end. -/
theorem balloc_past_size : ¬ ∀ (sb : Superblock) (log : Log) (dev : UInt32) (s : Store), log.lh.n = 0 →
    AllocatesBlock sb log dev s := by
  intro always
  have empty : emptyLog.lh.n = 0 := rfl
  have full := (always fullDisk emptyLog 1 usedStore empty).full fun c below => by
    have used := inUse_usedDisk (UInt32.lt_iff_toNat_lt.mp below)
    rwa [UInt32.ofNat_toNat] at used
  obtain ⟨out, t, ran, same⟩ := full
  have marks : ((balloc fullDisk emptyLog 1).run Store.handle usedStore).all
      (fun (_, t) => decide (InUse fullDisk t.view 61)) = true := by decide +kernel
  rw [ran] at marks
  have marked : InUse fullDisk t.view 61 := of_decide_eq_true marks
  have unused : ¬ InUse fullDisk usedDisk 61 := by decide
  have covered : Covered fullDisk 61 := by
    change 61 < (61 + 4095) / 4096 * 4096
    decide
  exact unused ((same 61 covered).mp marked)

/-! ## Inodes -/

section
variable {inum i : UInt32} {type : UInt16} {ic : Icache}

/-- The number that `ialloc` takes: the lowest in the table that is free and not the first of its block. -/
structure NextInode (sb : Superblock) (view : UInt32 → Block) (inum : UInt32) : Prop where
  inside : InTable sb inum
  notFirst : inum.toNat % ipb ≠ 0
  free : (diskInode sb view inum).type = 0
  before : ∀ g, g < inum → g.toNat % ipb ≠ 0 → (diskInode sb view g).type ≠ 0

theorem NextInode.eq {g : UInt32} (first : NextInode sb view inum) (second : NextInode sb view g) : inum = g := by
  apply UInt32.toNat_inj.mp
  rcases Nat.lt_trichotomy inum.toNat g.toNat with less | same | less
  · exact absurd first.free (second.before inum (UInt32.lt_iff_toNat_lt.mpr less) first.notFirst)
  · exact same
  · exact absurd second.free (first.before g (UInt32.lt_iff_toNat_lt.mpr less) second.notFirst)

theorem freeInode_first {d : Block} {j : Fin ipb} (found : d.freeInode = some j) :
    (j.val ≠ 0 ∧ (d.dinode j).type = 0) ∧ ∀ k, k < j → k.val ≠ 0 → (d.dinode k).type ≠ 0 := by
  obtain ⟨free, n, inside, same, before⟩ := List.find?_eq_some_iff_getElem.mp found
  simp only [decide_eq_true_eq] at free
  refine ⟨⟨by omega, free.2⟩, fun k less notFirst isFree => ?_⟩
  have position : j.val = n := by
    rw [← same]
    simp
  have earlier := before k.val (by rw [← position]; exact less)
  simp [isFree] at earlier
  omega

theorem freeInode_none {d : Block} (full : d.freeInode = none) (k : Fin ipb) (notFirst : k.val ≠ 0) :
    (d.dinode k).type ≠ 0 := by
  intro isFree
  have other := List.find?_eq_none.mp full k (List.mem_finRange k)
  simp [isFree] at other
  omega

theorem diskInode_inside (aligned : i.toNat % ipb = 0) {g : UInt32} (low : i.toNat ≤ g.toNat)
    (high : g.toNat < i.toNat + 8) :
    diskInode sb view g = (view (iblock i sb)).dinode ⟨g.toNat % ipb, Nat.mod_lt _ (by decide)⟩ := by
  have starts : i.toNat % 8 = 0 := aligned
  have sameBlock : iblock g sb = iblock i sb := by
    rw [iblock, iblock]
    congr 1
    apply UInt32.toNat_inj.mp
    rw [UInt32.toNat_div, UInt32.toNat_div]
    change g.toNat / 8 = i.toNat / 8
    omega
  rw [diskInode, sameBlock, inodeIndex]

variable (sb) in
theorem iallocFrom_next (admits : Admits inv) (ok : inv log) (dev : UInt32) (type : UInt16) (turns : Nat)
    (aligned : i.toNat % ipb = 0) (left : (sb.ninodes.toNat + (ipb - 1)) / ipb = turns + i.toNat / ipb)
    (before : ∀ g, g < i → g.toNat % ipb ≠ 0 → (diskInode sb s.view g).type ≠ 0) :
    (∃ inum log', (iallocFrom sb log dev type turns i).run Store.handle s =
        some ((inum, log'), { s with view := putInode sb s.view inum (.ofType type) }) ∧ inv log' ∧
        NextInode sb s.view inum) ∨
    ((iallocFrom sb log dev type turns i).run Store.handle s = none ∧
      ∀ g, InTable sb g → g.toNat % ipb ≠ 0 → (diskInode sb s.view g).type ≠ 0) := by
  induction turns generalizing i with
  | zero =>
    refine .inr ⟨rfl, fun g inside => before g ?_⟩
    have count : (sb.ninodes.toNat + 7) / 8 = 0 + i.toNat / 8 := left
    have less : g.toNat < (sb.ninodes.toNat + 7) / 8 * 8 := inside
    rw [UInt32.lt_iff_toNat_lt]
    omega
  | succ turns ih =>
    have starts : i.toNat % 8 = 0 := aligned
    have count : (sb.ninodes.toNat + 7) / 8 = turns + 1 + i.toNat / 8 := left
    have small := sb.ninodes.toNat_lt
    rw [iallocFrom]
    simp only [Program.run_bind, Store.run_bread, Option.bind_some, Store.run_data]
    cases found : (s.view (iblock i sb)).freeInode with
    | some j =>
      obtain ⟨⟨notFirst, free⟩, earlier⟩ := freeInode_first found
      obtain ⟨sum, block, index⟩ := @iblock_add sb i aligned j
      have places : j.val < 8 := j.isLt
      obtain ⟨log', logs, ok'⟩ := run_logWrite_store admits ok (iblock i sb) { s with
        view := Function.update s.view (iblock i sb) ((s.view (iblock i sb)).setDinode j (.ofType type)) }
      have remainder : (i.toNat + j.val) % 8 = j.val := by omega
      refine .inl ⟨i + UInt32.ofNat j, log', ?_, ok', ?_, ?_, ?_, fun g less other => ?_⟩
      · simp only [Program.run_bind, Store.run_setData, Option.bind_some, logs, Store.run_brelse,
          Program.run_pure, putInode,
          block, index]
      · change (i + UInt32.ofNat j).toNat < (sb.ninodes.toNat + 7) / 8 * 8
        omega
      · change (i + UInt32.ofNat j).toNat % 8 ≠ 0
        omega
      · rw [diskInode, block, index]
        exact free
      · rw [UInt32.lt_iff_toNat_lt, sum] at less
        by_cases low : i.toNat ≤ g.toNat
        · rw [diskInode_inside aligned low (by omega)]
          refine earlier _ ?_ other
          change g.toNat % 8 < j.val
          omega
        · exact before g (UInt32.lt_iff_toNat_lt.mpr (by omega)) other
    | none =>
      have here : ∀ g : UInt32, g.toNat < i.toNat + 8 → g.toNat % ipb ≠ 0 → (diskInode sb s.view g).type ≠ 0 := by
        intro g below other
        by_cases low : i.toNat ≤ g.toNat
        · rw [diskInode_inside aligned low below]
          exact freeInode_none found _ other
        · exact before g (UInt32.lt_iff_toNat_lt.mpr (by omega)) other
      simp only [Program.run_bind, Store.run_brelse, Option.bind_some]
      by_cases last : turns = 0
      · subst last
        refine .inr ⟨rfl, fun g inside => here g ?_⟩
        have less : g.toNat < (sb.ninodes.toNat + 7) / 8 * 8 := inside
        omega
      · have next : (i + UInt32.ofNat ipb).toNat = i.toNat + 8 := by
          rw [UInt32.toNat_add]
          change (i.toNat + 8) % 2 ^ 32 = _
          omega
        refine ih ?_ ?_ fun g less => here g ?_
        · rw [next]
          change (i.toNat + 8) % 8 = 0
          omega
        · rw [next]
          change (sb.ninodes.toNat + 7) / 8 = turns + (i.toNat + 8) / 8
          omega
        · rw [UInt32.lt_iff_toNat_lt, next] at less
          exact less

theorem iget_inum {ic' : Icache} {j : Fin ninode} (got : ic.iget dev inum = some (j, ic')) : (ic' j).inum = inum := by
  rcases Icache.iget_cases got with ⟨number, _, _, rfl⟩ | ⟨_, _, rfl⟩
  · rw [Function.update_self]
    exact number
  · rw [Function.update_self]

/-- A number that the super block has an inode for. -/
def Numbered (sb : Superblock) (g : UInt32) : Prop := 1 ≤ g ∧ g < sb.ninodes

/-- The inode with a number was free and is a new one on the disk; its entry in the cache is returned. -/
structure AllocatesInode (sb : Superblock) (dev : UInt32) (type : UInt16) (ic : Icache) (s : Store)
    (inum : UInt32) (i : Fin ninode) (ic' : Icache) (t : Store) : Prop where
  numbered : Numbered sb inum
  free : (diskInode sb s.view inum).type = 0
  stored : t = { s with view := putInode sb s.view inum (.ofType type) }
  entry : ic.iget dev inum = some (i, ic')

/-- What `ialloc` should do: `complete` says also that it does not panic while there is a free inode. -/
structure AllocatesFree (sb : Superblock) (ic : Icache) (log : Log) (dev : UInt32) (type : UInt16) (s : Store) :
    Prop where
  complete : (∃ g, Numbered sb g ∧ (diskInode sb s.view g).type = 0) →
    ∃ out t, (ialloc sb ic log dev type).run Store.handle s = some (out, t)
  inRange : ∀ i ic' log' t, (ialloc sb ic log dev type).run Store.handle s = some ((i, ic', log'), t) →
    ∃ inum, AllocatesInode sb dev type ic s inum i ic' t

/-- `ialloc` does what it should if and only if the number that it takes is below the number of inodes and has an
entry in the cache, or nothing is free and nothing is taken. -/
theorem ialloc_allocates_iff (admits : Admits inv) (ok : inv log) (ic : Icache) (dev : UInt32) (type : UInt16)
    (s : Store) :
    AllocatesFree sb ic log dev type s ↔
      (∃ g, NextInode sb s.view g ∧ g < sb.ninodes ∧ (ic.iget dev g).isSome) ∨
      ((∀ g, Numbered sb g → (diskInode sb s.view g).type ≠ 0) ∧ ∀ g, NextInode sb s.view g →
        ic.iget dev g = none) := by
  rcases iallocFrom_next sb admits ok dev type ((sb.ninodes.toNat + (ipb - 1)) / ipb) (i := 0) rfl rfl
    (fun g less => absurd (UInt32.lt_iff_toNat_lt.mp less) (Nat.not_lt_zero _)) with
    ⟨inum, log', ran, _, next⟩ | ⟨stuck, all⟩
  · have positive : 1 ≤ inum := by
      rw [UInt32.le_iff_toNat_le]
      have notFirst : inum.toNat % 8 ≠ 0 := next.notFirst
      change 1 ≤ inum.toNat
      omega
    cases got : ic.iget dev inum with
    | some out =>
      obtain ⟨i, ic'⟩ := out
      have returns : (ialloc sb ic log dev type).run Store.handle s =
          some ((i, ic', log'), { s with view := putInode sb s.view inum (.ofType type) }) := by
        rw [ialloc, Program.run_bind, ran, Option.bind_some]
        dsimp only
        rw [got]
        rfl
      constructor
      · rintro ⟨_, inRange⟩
        obtain ⟨g, allocates⟩ := inRange _ _ _ _ returns
        refine .inl ⟨inum, next, ?_, by rw [got]; rfl⟩
        rw [← iget_inum got, iget_inum allocates.entry]
        exact allocates.numbered.2
      · rintro (⟨g, next', below, _⟩ | ⟨_, refused⟩)
        · obtain rfl := next.eq next'
          refine ⟨fun _ => ⟨_, _, returns⟩, fun i' ic₁ log₁ t ran' => ?_⟩
          cases returns.symm.trans ran'
          exact ⟨inum, ⟨positive, below⟩, next.free, rfl, got⟩
        · rw [refused inum next] at got
          cases got
    | none =>
      have panics : (ialloc sb ic log dev type).run Store.handle s = none := by
        rw [ialloc, Program.run_bind, ran, Option.bind_some]
        dsimp only
        rw [got]
        rfl
      constructor
      · rintro ⟨complete, _⟩
        refine .inr ⟨fun g numbered isFree => ?_, fun g next' => next.eq next' ▸ got⟩
        obtain ⟨out, t, returns⟩ := complete ⟨g, numbered, isFree⟩
        rw [panics] at returns
        cases returns
      · rintro (⟨g, next', _, present⟩ | ⟨used, _⟩)
        · rw [← next.eq next', got] at present
          cases present
        · refine ⟨fun ⟨g, numbered, isFree⟩ => absurd isFree (used g numbered), fun i' ic₁ log₁ t ran' => ?_⟩
          rw [panics] at ran'
          cases ran'
  · have panics : (ialloc sb ic log dev type).run Store.handle s = none := by
      rw [ialloc, Program.run_bind, stuck]
      rfl
    constructor
    · rintro ⟨complete, _⟩
      refine .inr ⟨fun g numbered isFree => ?_, fun g next => absurd next.free (all g next.inside next.notFirst)⟩
      obtain ⟨out, t, returns⟩ := complete ⟨g, numbered, isFree⟩
      rw [panics] at returns
      cases returns
    · rintro (⟨g, next, _, _⟩ | ⟨used, _⟩)
      · exact absurd next.free (all g next.inside next.notFirst)
      · refine ⟨fun ⟨g, numbered, isFree⟩ => absurd isFree (used g numbered), fun i' ic₁ log₁ t ran' => ?_⟩
        rw [panics] at ran'
        cases ran'

theorem ialloc_allocates_iff_empty : AllocatesFree Mkfs.superblock Icache.init emptyLog 1 1 usedStore := by
  have empty : emptyLog.lh.n = 0 := rfl
  refine (ialloc_allocates_iff admits_empty empty Icache.init 1 1 usedStore).mpr
    (.inl ⟨1, ⟨by decide, by decide, ?_, fun g less other => ?_⟩, by decide, by decide⟩)
  · change (diskInode Mkfs.superblock usedDisk 1).type = 0
    decide +kernel
  · have first : g.toNat < 1 := UInt32.lt_iff_toNat_lt.mp less
    have zero : g.toNat % 8 = 0 := by omega
    exact absurd zero other

def eightFree : UInt32 → Block := fun b i =>
  if 32 ≤ b ∧ b < 57 then if b = 33 ∧ i.val < 64 then 0 else 1 else 0

/-- `ialloc` does not find the first inode of a block. -/
theorem ialloc_skips_eight : ¬ ∀ (sb : Superblock) (ic : Icache) (log : Log) (dev : UInt32) (type : UInt16)
    (s : Store),
    log.lh.n = 0 → AllocatesFree sb ic log dev type s := by
  intro always
  have empty : emptyLog.lh.n = 0 := rfl
  have free : (diskInode Mkfs.superblock eightFree 8).type = 0 := by decide +kernel
  obtain ⟨out, t, ran⟩ := (always Mkfs.superblock Icache.init emptyLog 1 1 (Store.boot eightFree) empty).complete
    ⟨8, ⟨by decide, by decide⟩, free⟩
  have panics : ((ialloc Mkfs.superblock Icache.init emptyLog 1 1).run Store.handle
    (Store.boot eightFree)).isNone = true := by
    decide +kernel
  rw [ran] at panics
  cases panics

end

end Xv6.Fs
