import Xv6.Fs.Inode
import Xv6.Log.BlockStore
import Xv6.Library.Ownership
import Mathlib.Data.Finset.Card

/-! Ownership of disk blocks, and `balloc` over a coherent block store.

An inode owns the blocks in its slots: the direct blocks, the indirect block and the
blocks that the indirect block names. The inodes are given by their block addresses, so
that the copies in memory can stand in for those on the disk.
-/

set_option autoImplicit false

namespace Xv6.Fs

open Library

abbrev Addrs : Type := Fin (ndirect + 1) → UInt32

abbrev Nodes : Type := UInt32 → Addrs

/-! ## References -/

/-- A place where an inode keeps a block number. -/
inductive Slot where
  | direct (k : Fin ndirect)
  | indirect
  | entry (j : Fin nindirect)
  deriving DecidableEq

/-- The block number in a slot; an inode without an indirect block has no entries. -/
def refAt (view : UInt32 → Block) (addrs : Addrs) : Slot → UInt32
  | .direct k => addrs k.castSucc
  | .indirect => addrs Inode.indirect
  | .entry j => if addrs Inode.indirect = 0 then 0 else (view (addrs Inode.indirect)).word j

def slotOf (i : Nat) : Option Slot :=
  if direct : i < ndirect then some (.direct ⟨i, direct⟩)
  else if inside : i - ndirect < nindirect then some (.entry ⟨i - ndirect, inside⟩)
  else none

def blockAt (view : UInt32 → Block) (addrs : Addrs) (i : Nat) : UInt32 :=
  match slotOf i with
  | some s => refAt view addrs s
  | none => 0

/-! ## The bitmap -/

def InUse (sb : Superblock) (view : UInt32 → Block) (b : UInt32) : Prop :=
  (view (bblock b sb)).bit (bitIndex b) = true

instance InUse.decide (sb : Superblock) (view : UInt32 → Block) (b : UInt32) : Decidable (InUse sb view b) :=
  inferInstanceAs (Decidable (_ = _))

/-- A block with a bit in the bitmap, which is made of whole blocks. -/
def Covered (sb : Superblock) (b : UInt32) : Prop := b.toNat < (sb.size.toNat + (bpb - 1)) / bpb * bpb

def InTable (sb : Superblock) (inum : UInt32) : Prop := inum.toNat < (sb.ninodes.toNat + (ipb - 1)) / ipb * ipb

instance InTable.decide (sb : Superblock) (inum : UInt32) : Decidable (InTable sb inum) :=
  inferInstanceAs (Decidable (_ < _))

def diskInode (sb : Superblock) (view : UInt32 → Block) (inum : UInt32) : Dinode :=
  (view (iblock inum sb)).dinode (inodeIndex inum)

/-- A block of the file system's own: the boot block, the super block, the log, the inode
table and the bitmap. -/
inductive Meta (sb : Superblock) : UInt32 → Prop where
  | boot : Meta sb 0
  | super : Meta sb 1
  | log (i : UInt32) (inside : i < sb.nlog) : Meta sb (sb.logstart + i)
  | inode (inum : UInt32) (inside : InTable sb inum) : Meta sb (iblock inum sb)
  | bitmap (b : UInt32) (inside : Covered sb b) : Meta sb (bblock b sb)

def freeBlocks (sb : Superblock) (view : UInt32 → Block) : Finset Nat :=
  (Finset.range sb.size.toNat).filter fun b => ¬ InUse sb view (UInt32.ofNat b)

structure Held (sb : Superblock) (view : UInt32 → Block) (b : UInt32) : Prop where
  covered : Covered sb b
  inUse : InUse sb view b
  data : ¬ Meta sb b

/-- A block store in which the inodes with the given block addresses own their blocks. -/
structure Sound (sb : Superblock) (view : UInt32 → Block) (nodes : Nodes) : Prop where
  owns : Owns 0 (fun s : UInt32 × Slot => refAt view (nodes s.1) s.2) (Held sb view)
  reserved : ∀ b, Meta sb b → Covered sb b → InUse sb view b
  apart : ∀ inum b, InTable sb inum → Covered sb b → iblock inum sb ≠ bblock b sb

/-- `log_write` does not panic in the logs of a kind, and stays in it. -/
def Admits (inv : Log → Prop) : Prop :=
  ∀ log b, inv log → ∃ lh, log.lh.record b = some lh ∧ inv { log with lh }

variable {sb : Superblock} {view view' : UInt32 → Block} {nodes nodes' : Nodes}
  {inv : Log → Prop} {log : Log} {s t : Store} {b c dev : UInt32}

theorem refAt_congr {addrs : Addrs} (same : addrs Inode.indirect ≠ 0 →
    view' (addrs Inode.indirect) = view (addrs Inode.indirect)) (k : Slot) :
    refAt view' addrs k = refAt view addrs k := by
  cases k with
  | direct k => rfl
  | indirect => rfl
  | entry j =>
    by_cases none : addrs Inode.indirect = 0
    · simp only [refAt, if_pos none]
    · simp only [refAt, if_neg none, same none]

theorem run_logWrite_store (admits : Admits inv) (ok : inv log) (b : UInt32) (s : Store) :
    ∃ log', (log.logWrite b).run Store.handle s = some (log', s) ∧ inv log' := by
  obtain ⟨lh, recorded, kept⟩ := admits log b ok
  refine ⟨{ log with lh }, ?_, kept⟩
  simp only [Log.logWrite, Log.inBounds, Program.run_bind, Store.run_blockno, Option.bind_some, recorded,
    Program.run_pure, Store.run_bpin]

theorem bitIndex_inj (same : bblock c sb = bblock b sb) : bitIndex c = bitIndex b ↔ c = b := by
  constructor
  · intro sameBit
    have quotient : c / UInt32.ofNat bpb = b / UInt32.ofNat bpb := by
      simp only [bblock] at same
      simpa using same
    have quotient := congrArg UInt32.toNat quotient
    have remainder := congrArg Fin.val sameBit
    rw [UInt32.toNat_div, UInt32.toNat_div] at quotient
    change c.toNat / 4096 = b.toNat / 4096 at quotient
    change c.toNat % 4096 = b.toNat % 4096 at remainder
    apply UInt32.toNat_inj.mp
    omega
  · rintro rfl
    rfl

theorem inUse_setBit (b c : UInt32) :
    InUse sb (Function.update view (bblock b sb) ((view (bblock b sb)).setBit (bitIndex b))) c ↔
      InUse sb view c ∨ c = b := by
  by_cases sameBlock : bblock c sb = bblock b sb
  · simp only [InUse, sameBlock, Function.update_self, Block.bit_setBit, Bool.or_eq_true, decide_eq_true_eq,
      bitIndex_inj sameBlock]
    exact Or.comm
  · have other : c ≠ b := by
      rintro rfl
      exact sameBlock rfl
    simp [InUse, Function.update_of_ne sameBlock, other]

theorem covered_of_lt (onDisk : b < sb.size) : Covered sb b := by
  have below := UInt32.lt_iff_toNat_lt.mp onDisk
  change b.toNat < (sb.size.toNat + 4095) / 4096 * 4096
  omega

theorem freeBlocks_mem (n : Nat) :
    n ∈ freeBlocks sb view ↔ n < sb.size.toNat ∧ ¬ InUse sb view (UInt32.ofNat n) := by
  simp [freeBlocks]

theorem freeBlocks_card (onDisk : b < sb.size) (free : ¬ InUse sb view b)
    (marks : ∀ c, Covered sb c → (InUse sb view' c ↔ InUse sb view c ∨ c = b)) :
    (freeBlocks sb view).card = (freeBlocks sb view').card + 1 := by
  have erased : freeBlocks sb view' = (freeBlocks sb view).erase b.toNat := by
    ext n
    rw [Finset.mem_erase, freeBlocks_mem, freeBlocks_mem]
    constructor
    · rintro ⟨below, unused⟩
      have onDisk : UInt32.ofNat n < sb.size := by
        rw [UInt32.lt_iff_toNat_lt, UInt32.toNat_ofNat_of_lt' (below.trans sb.size.toNat_lt)]
        exact below
      rw [marks _ (covered_of_lt onDisk), not_or] at unused
      refine ⟨?_, below, unused.1⟩
      rintro rfl
      exact unused.2 (UInt32.ofNat_toNat ..)
    · rintro ⟨other, below, unused⟩
      have onDisk : UInt32.ofNat n < sb.size := by
        rw [UInt32.lt_iff_toNat_lt, UInt32.toNat_ofNat_of_lt' (below.trans sb.size.toNat_lt)]
        exact below
      refine ⟨below, ?_⟩
      rw [marks _ (covered_of_lt onDisk), not_or]
      refine ⟨unused, fun same => other ?_⟩
      rw [← same, UInt32.toNat_ofNat_of_lt' (below.trans sb.size.toNat_lt)]
  have member : b.toNat ∈ freeBlocks sb view := by
    rw [freeBlocks_mem, UInt32.ofNat_toNat]
    exact ⟨UInt32.lt_iff_toNat_lt.mp onDisk, free⟩
  rw [erased, Finset.card_erase_add_one member]

-- The contents after `balloc` of block `b`.
def allocate (sb : Superblock) (view : UInt32 → Block) (b : UInt32) : UInt32 → Block :=
  Function.update (Function.update view (bblock b sb) ((view (bblock b sb)).setBit (bitIndex b))) b Block.zero

theorem firstFree_some {d : Block} {j : Fin bpb} (found : d.firstFree = some j) :
    d.bit j = false ∧ ∀ i, i < j → d.bit i = true := by
  unfold Block.firstFree at found
  obtain ⟨clear, n, inside, same, before⟩ := List.find?_eq_some_iff_getElem.mp found
  refine ⟨by simpa using clear, fun i less => ?_⟩
  have position : j.val = n := by
    rw [← same]
    simp
  have earlier := before i.val (by rw [← position]; exact less)
  simpa using earlier

theorem firstFree_none {d : Block} (full : d.firstFree = none) (i : Fin bpb) : d.bit i = true := by
  unfold Block.firstFree at full
  simpa using List.find?_eq_none.mp full i (List.mem_finRange i)

/-- Where the outer loop of `balloc` stands: at the first block of a bitmap block. -/
structure Scan (sb : Superblock) (turns : Nat) (i : UInt32) : Prop where
  aligned : i.toNat % bpb = 0
  left : (sb.size.toNat + (bpb - 1)) / bpb = turns + i.toNat / bpb

namespace Scan

variable {turns : Nat} {i f : UInt32}

theorem start (sb : Superblock) : Scan sb ((sb.size.toNat + (bpb - 1)) / bpb) 0 := ⟨rfl, rfl⟩

theorem toNat_add (scan : Scan sb (turns + 1) i) (j : Fin bpb) : (i + UInt32.ofNat j).toNat = i.toNat + j.val := by
  have bits : j.val < 4096 := j.isLt
  have starts : i.toNat % 4096 = 0 := scan.aligned
  have bound := i.toNat_lt
  rw [UInt32.toNat_add, UInt32.toNat_ofNat']
  omega

theorem covered_add (scan : Scan sb (turns + 1) i) (j : Fin bpb) : Covered sb (i + UInt32.ofNat j) := by
  have bits : j.val < 4096 := j.isLt
  have starts : i.toNat % 4096 = 0 := scan.aligned
  have left : (sb.size.toNat + 4095) / 4096 = turns + 1 + i.toNat / 4096 := scan.left
  change (i + UInt32.ofNat j).toNat < (sb.size.toNat + 4095) / 4096 * 4096
  rw [scan.toNat_add]
  omega

theorem toNat_next (past : i.toNat + bpb ≤ f.toNat) :
    (i + UInt32.ofNat bpb).toNat = i.toNat + 4096 := by
  have bound := f.toNat_lt
  change i.toNat + 4096 ≤ f.toNat at past
  rw [UInt32.toNat_add]
  change (i.toNat + 4096) % 2 ^ 32 = _
  omega

theorem inUse (scan : Scan sb turns i) (low : i ≤ f) (high : f.toNat - i.toNat < bpb) :
    InUse sb view f ↔ (view (bblock i sb)).bit ⟨f.toNat - i.toNat, high⟩ = true := by
  have after := UInt32.le_iff_toNat_le.mp low
  have index : f = i + UInt32.ofNat (f.toNat - i.toNat) := by
    apply UInt32.toNat_inj.mp
    have bound := f.toNat_lt
    rw [UInt32.toNat_add, UInt32.toNat_ofNat']
    omega
  obtain ⟨sameBlock, bit⟩ := bblock_add sb scan.aligned ⟨f.toNat - i.toNat, high⟩
  rw [← index] at sameBlock bit
  rw [InUse, sameBlock, bit]

theorem next (scan : Scan sb (turns + 1) i) (more : turns ≠ 0) : Scan sb turns (i + UInt32.ofNat bpb) := by
  have size := sb.size.toNat_lt
  have starts : i.toNat % 4096 = 0 := scan.aligned
  have left : (sb.size.toNat + 4095) / 4096 = turns + 1 + i.toNat / 4096 := scan.left
  have sum : (i + UInt32.ofNat bpb).toNat = i.toNat + 4096 := by
    rw [UInt32.toNat_add]
    change (i.toNat + 4096) % 2 ^ 32 = _
    omega
  refine ⟨?_, ?_⟩
  · rw [sum]
    change (i.toNat + 4096) % 4096 = 0
    omega
  · rw [sum]
    change (sb.size.toNat + 4095) / 4096 = turns + (i.toNat + 4096) / 4096
    omega

end Scan

section
variable {turns : Nat} {i : UInt32}

theorem ballocFrom_full (dev : UInt32) (full : (s.view (bblock i sb)).firstFree = none) :
    (ballocFrom sb log dev (turns + 1) i).run Store.handle s =
      (ballocFrom sb log dev turns (i + UInt32.ofNat bpb)).run Store.handle s := by
  rw [ballocFrom]
  simp only [Program.run_bind, Store.run_bread, Option.bind_some, Store.run_data, full, Store.run_brelse]

theorem ballocFrom_found (admits : Admits inv) (ok : inv log) (dev : UInt32) (scan : Scan sb (turns + 1) i)
    {j : Fin bpb} (found : (s.view (bblock i sb)).firstFree = some j) :
    ∃ log', (ballocFrom sb log dev (turns + 1) i).run Store.handle s =
      some ((i + UInt32.ofNat j, log'), { s with view := allocate sb s.view (i + UInt32.ofNat j) }) ∧ inv log' ∧
      ¬ InUse sb s.view (i + UInt32.ofNat j) := by
  obtain ⟨clear, before⟩ := firstFree_some found
  obtain ⟨sameBlock, bit⟩ := bblock_add sb scan.aligned j
  obtain ⟨log₁, logged, ok₁⟩ := run_logWrite_store admits ok (bblock i sb)
    { s with view := Function.update s.view (bblock i sb) ((s.view (bblock i sb)).setBit j) }
  obtain ⟨log₂, zeroed, ok₂⟩ := run_logWrite_store admits ok₁ (i + UInt32.ofNat j)
    { s with view := allocate sb s.view (i + UInt32.ofNat j) }
  refine ⟨log₂, ?_, ok₂, ?_⟩
  · rw [ballocFrom]
    simp only [Program.run_bind, Store.run_bread, Option.bind_some, Store.run_data, found, Store.run_setData, logged,
      Store.run_brelse, bzero, Program.run_pure]
    rw [allocate, sameBlock, bit] at zeroed ⊢
    rw [zeroed]
    rfl
  · rw [InUse, sameBlock, bit, clear]
    exact Bool.false_ne_true

theorem ballocFrom_run (admits : Admits inv) (ok : inv log) (dev : UInt32) {f : UInt32} (scan : Scan sb turns i)
    (onDisk : f < sb.size) (free : ¬ InUse sb s.view f) (later : i ≤ f) :
    ∃ b log', (ballocFrom sb log dev turns i).run Store.handle s =
      some ((b, log'), { s with view := allocate sb s.view b }) ∧ inv log' ∧ b < sb.size ∧ ¬ InUse sb s.view b := by
  have below := UInt32.lt_iff_toNat_lt.mp onDisk
  induction turns generalizing i with
  | zero =>
    have after := UInt32.le_iff_toNat_le.mp later
    have left : (sb.size.toNat + 4095) / 4096 = 0 + i.toNat / 4096 := scan.left
    omega
  | succ turns ih =>
    have after := UInt32.le_iff_toNat_le.mp later
    cases found : (s.view (bblock i sb)).firstFree with
    | none =>
      -- `f` lies in a later block of the bitmap
      have beyond : i.toNat + bpb ≤ f.toNat := by
        by_contra near
        have high : f.toNat - i.toNat < bpb := by omega
        exact free ((scan.inUse later high).mpr (firstFree_none found _))
      have more : turns ≠ 0 := by
        rintro rfl
        have starts : i.toNat % 4096 = 0 := scan.aligned
        have left : (sb.size.toNat + 4095) / 4096 = 0 + 1 + i.toNat / 4096 := scan.left
        change i.toNat + 4096 ≤ f.toNat at beyond
        omega
      rw [ballocFrom_full dev found]
      refine ih (scan.next more) ?_
      rw [UInt32.le_iff_toNat_le, Scan.toNat_next beyond]
      exact beyond
    | some j =>
      obtain ⟨log', allocates, ok', unused⟩ := ballocFrom_found admits ok dev scan found
      refine ⟨_, log', allocates, ok', ?_, unused⟩
      -- no later than `f`
      have first : i.toNat + j.val ≤ f.toNat := by
        by_contra past
        have high : f.toNat - i.toNat < bpb := by
          have bits : j.val < bpb := j.isLt
          omega
        refine free ((scan.inUse later high).mpr ((firstFree_some found).2 _ ?_))
        change f.toNat - i.toNat < j.val
        omega
      rw [UInt32.lt_iff_toNat_lt, scan.toNat_add]
      exact first.trans_lt below

theorem ballocFrom_returns (admits : Admits inv) (ok : inv log) (dev : UInt32) (scan : Scan sb turns i) {log' : Log}
    (ran : (ballocFrom sb log dev turns i).run Store.handle s = some ((b, log'), t)) :
    t = { s with view := allocate sb s.view b } ∧ inv log' ∧ Covered sb b ∧ ¬ InUse sb s.view b := by
  induction turns generalizing i with
  | zero => cases ran
  | succ turns ih =>
    cases found : (s.view (bblock i sb)).firstFree with
    | none =>
      rw [ballocFrom_full dev found] at ran
      have more : turns ≠ 0 := by
        rintro rfl
        cases ran
      exact ih (scan.next more) ran
    | some j =>
      obtain ⟨log₂, allocates, ok', unused⟩ := ballocFrom_found admits ok dev scan found
      rw [allocates] at ran
      cases ran
      exact ⟨rfl, ok', scan.covered_add j, unused⟩

end

theorem balloc_run (admits : Admits inv) (ok : inv log) (dev : UInt32) (s : Store)
    (free : (freeBlocks sb s.view).Nonempty) :
    ∃ b log', (balloc sb log dev).run Store.handle s =
      some ((b, log'), { s with view := allocate sb s.view b }) ∧ inv log' ∧ b < sb.size ∧ ¬ InUse sb s.view b := by
  obtain ⟨f, member⟩ := free
  obtain ⟨below, unused⟩ := (freeBlocks_mem f).mp member
  have onDisk : UInt32.ofNat f < sb.size := by
    rw [UInt32.lt_iff_toNat_lt, UInt32.toNat_ofNat_of_lt' (below.trans sb.size.toNat_lt)]
    exact below
  refine ballocFrom_run admits ok dev (Scan.start sb) onDisk unused ?_
  rw [UInt32.le_iff_toNat_le]
  exact Nat.zero_le _

theorem balloc_returns (admits : Admits inv) (ok : inv log) {log' : Log}
    (ran : (balloc sb log dev).run Store.handle s = some ((b, log'), t)) :
    t = { s with view := allocate sb s.view b } ∧ inv log' ∧ Covered sb b ∧ ¬ InUse sb s.view b :=
  ballocFrom_returns admits ok dev (Scan.start sb) ran

/-! ## What an allocation changes -/

namespace Sound

variable {f g inum : UInt32} {k : Slot}

theorem ref_held (sound : Sound sb view nodes) (filled : refAt view (nodes g) k ≠ 0) :
    Held sb view (refAt view (nodes g) k) :=
  sound.owns.held (g, k) filled

theorem bitmap_not_ref (sound : Sound sb view nodes) (inside : Covered sb c) (filled : refAt view (nodes g) k ≠ 0) :
    refAt view (nodes g) k ≠ bblock c sb := by
  intro same
  exact (sound.ref_held filled).data (same ▸ Meta.bitmap c inside)

theorem table_not_ref (sound : Sound sb view nodes) (inside : InTable sb inum) (filled : refAt view (nodes g) k ≠ 0) :
    refAt view (nodes g) k ≠ iblock inum sb := by
  intro same
  exact (sound.ref_held filled).data (same ▸ Meta.inode inum inside)

theorem transfer (sound : Sound sb view nodes)
    (refs : ∀ g l, refAt view' (nodes' g) l = refAt view (nodes g) l)
    (marks : ∀ c, Covered sb c → (InUse sb view' c ↔ InUse sb view c)) : Sound sb view' nodes' := by
  refine ⟨⟨?_, ?_⟩, ?_, sound.apart⟩
  · rintro ⟨g, l⟩ ⟨h, m⟩ real same
    simp only [refs] at real same
    exact sound.owns.distinct (g, l) (h, m) real same
  · rintro ⟨g, l⟩ real
    simp only [refs] at real ⊢
    have held := sound.owns.held (g, l) real
    exact ⟨held.covered, (marks _ held.covered).mpr held.inUse, held.data⟩
  · exact fun c isMeta inside => (marks c inside).mpr (sound.reserved c isMeta inside)

section
variable (sound : Sound sb view nodes) (covered : Covered sb b) (free : ¬ InUse sb view b)
include sound covered free

theorem free_not_meta : ¬ Meta sb b := fun isMeta => free (sound.reserved b isMeta covered)

theorem free_ne_zero : b ≠ 0 := by
  rintro rfl
  exact sound.free_not_meta covered free Meta.boot

theorem allocate_held (filled : refAt view (nodes g) k ≠ 0) :
    allocate sb view b (refAt view (nodes g) k) = view (refAt view (nodes g) k) := by
  have notBlock : refAt view (nodes g) k ≠ b := by
    intro same
    exact free (same ▸ (sound.ref_held filled).inUse)
  rw [allocate, Function.update_of_ne notBlock, Function.update_of_ne (sound.bitmap_not_ref covered filled)]

theorem allocate_table (inside : InTable sb inum) :
    allocate sb view b (iblock inum sb) = view (iblock inum sb) := by
  have notBlock : iblock inum sb ≠ b := by
    intro same
    exact sound.free_not_meta covered free (same ▸ Meta.inode inum inside)
  rw [allocate, Function.update_of_ne notBlock, Function.update_of_ne (sound.apart inum b inside covered)]

theorem allocate_inUse (inside : Covered sb c) : InUse sb (allocate sb view b) c ↔ InUse sb view c ∨ c = b := by
  have notBlock : bblock c sb ≠ b := by
    intro same
    exact sound.free_not_meta covered free (same ▸ Meta.bitmap c inside)
  rw [← inUse_setBit b c, InUse, InUse, allocate, Function.update_of_ne notBlock]

theorem allocate_ref (g : UInt32) (k : Slot) : refAt (allocate sb view b) (nodes g) k = refAt view (nodes g) k := by
  exact refAt_congr (fun present => sound.allocate_held (k := .indirect) covered free present) k

theorem assign (marks : ∀ c, Covered sb c → (InUse sb view' c ↔ InUse sb view c ∨ c = b))
    (here : refAt view' (nodes' f) k = b)
    (others : ∀ g l, (g, l) ≠ (f, k) → refAt view' (nodes' g) l = refAt view (nodes g) l) :
    Sound sb view' nodes' := by
  have notMeta := sound.free_not_meta covered free
  refine ⟨?_, ?_, sound.apart⟩
  · refine sound.owns.assign (s := (f, k)) (r := b) (fun held => free held.inUse) here ?_ ?_ ?_
    · rintro ⟨g, l⟩ other
      exact others g l other
    · exact fun x held => ⟨held.covered, (marks x held.covered).mpr (.inl held.inUse), held.data⟩
    · exact ⟨covered, (marks b covered).mpr (.inr rfl), notMeta⟩
  · exact fun c isMeta inside => (marks c inside).mpr (.inl (sound.reserved c isMeta inside))

end

end Sound

theorem allocate_self : allocate sb view b b = Block.zero := Function.update_self ..

end Xv6.Fs
