import Xv6.Mkfs.Blocks
import Xv6.Fs.Contents

/-! `iappend` of `mkfs`: bytes are put behind a file.

A file has the blocks that its size asks for and no others, and there are zeros behind its last byte.
`iappend` keeps this, and it fails exactly if the file gets too large or the image has no room left.
-/

set_option autoImplicit false

namespace Xv6.Mkfs

open Library Fs Image

/-! ## Sizes -/

def dataBlocks (size : Nat) : Nat := (size + (bsize - 1)) / bsize

/-- The blocks that a file takes: there is an indirect block behind the direct ones. -/
def held (blocks : Nat) : Nat := if blocks ≤ ndirect then blocks else blocks + 1

def nextCost (blocks : Nat) : Nat := if blocks = ndirect then 2 else 1

theorem held_succ (blocks : Nat) : held (blocks + 1) = held blocks + nextCost blocks := by
  change (if blocks + 1 ≤ 12 then _ else _) = (if blocks ≤ 12 then _ else _) + if blocks = 12 then 2 else 1
  split <;> split <;> split <;> omega

theorem held_mono {blocks blocks' : Nat} (less : blocks ≤ blocks') : held blocks ≤ held blocks' := by
  change (if blocks ≤ 12 then _ else _) ≤ (if blocks' ≤ 12 then _ else _)
  split <;> split <;> omega

def within (blocks : Nat) : Slot → Prop
  | .direct k => k.val < blocks
  | .indirect => ndirect < blocks
  | .entry j => ndirect + j.val < blocks

/-! ## What is stored -/

/-- The slots of an inode that have blocks, and its bytes, with zeros behind them. -/
structure Stores (view : UInt32 → Block) (addrs : Addrs) (slots : Slot → Prop) (data : List UInt8) : Prop where
  filled : ∀ k, refAt view addrs k ≠ 0 ↔ slots k
  bytes : ∀ k, blockAt view addrs (k / bsize) ≠ 0 → byteAt view addrs k = data.getD k 0

/-- What is done for inode `f` with `cost` new blocks, before its fields are written. -/
structure Step (f : UInt32) (cost : Nat) (img : Image) (nodes : Nodes) (img' : Image) (nodes' : Nodes) : Prop
    extends Confined superblock f img.marked nodes img'.marked nodes' where
  own : InTable superblock f → diskInode superblock img'.marked f = diskInode superblock img.marked f
  freeinode : img'.freeinode = img.freeinode
  freeblock : img'.freeblock.toNat = img.freeblock.toNat + cost

-- The image while `iappend` has the fields of inode `f` in memory.
structure Writing (f : UInt32) (img : Image) (din : Dinode) (nodes : Nodes) (slots : Slot → Prop)
    (data : List UInt8) : Prop extends Sane img nodes where
  node : nodes f = din.addrs
  stores : Stores img.marked din.addrs slots data

variable {img img' img'' : Image} {din din' : Dinode} {nodes nodes' nodes'' : Nodes} {f x : UInt32}
  {slots slots' : Slot → Prop} {data : List UInt8} {blocks cost cost' : Nat}

theorem Stores.congr {view : UInt32 → Block} {addrs : Addrs} (stores : Stores view addrs slots data)
    (same : ∀ k, slots k ↔ slots' k) : Stores view addrs slots' data :=
  ⟨fun k => (stores.filled k).trans (same k), stores.bytes⟩

theorem Stores.blockAt_ne_zero {view : UInt32 → Block} {addrs : Addrs} (stores : Stores view addrs (within blocks) data)
    {i : Nat} (small : i < maxFile) : blockAt view addrs i ≠ 0 ↔ i < blocks := by
  have sum : maxFile = ndirect + nindirect := rfl
  by_cases direct : i < ndirect
  · rw [blockAt_direct direct]
    exact stores.filled (.direct ⟨i, direct⟩)
  · have inside : i - ndirect < nindirect := by omega
    rw [blockAt_entry direct inside, stores.filled]
    simp only [within]
    omega

theorem Writing.congr (writing : Writing f img din nodes slots data) (same : ∀ k, slots k ↔ slots' k) :
    Writing f img din nodes slots' data :=
  ⟨writing.toSane, writing.node, writing.stores.congr same⟩

theorem Step.refl (sane : Sane img nodes) (f : UInt32) : Step f 0 img nodes img nodes :=
  ⟨Confined.refl sane.sound f, fun _ => rfl, rfl, rfl⟩

theorem Step.trans (first : Step f cost img nodes img' nodes') (second : Step f cost' img' nodes' img'' nodes'') :
    Step f (cost + cost') img nodes img'' nodes'' where
  toConfined := first.toConfined.trans second.toConfined
  own inside := (second.own inside).trans (first.own inside)
  freeinode := second.freeinode.trans first.freeinode
  freeblock := by rw [second.freeblock, first.freeblock, Nat.add_assoc]

theorem Stores.grow {view view' : UInt32 → Block} (stores : Stores view (nodes f) slots data)
    (grew : Grew superblock f view nodes view' nodes') (filled : ∀ k, refAt view' (nodes' f) k ≠ 0 ↔ slots' k)
    (zero : ∀ k, k ≠ .indirect → refAt view (nodes f) k = 0 → refAt view' (nodes' f) k ≠ 0 →
      view' (refAt view' (nodes' f) k) = Block.zero ∧ data.length ≤ k.block * bsize) :
    Stores view' (nodes' f) slots' data := by
  refine ⟨filled, fun k mapped => ?_⟩
  obtain ⟨l, slot, value, direct⟩ := slotOf_some mapped
  have before : Fs.blockAt view (nodes f) (k / bsize) = refAt view (nodes f) l := by rw [Fs.blockAt, slot]
  by_cases present : refAt view (nodes f) l = 0
  · obtain ⟨new, behind⟩ := zero l direct present (value ▸ mapped)
    rw [Slot.block_slotOf slot] at behind
    have past : data.length ≤ k := behind.trans (Nat.div_mul_le_self k bsize)
    rw [byteAt, value, new, List.getD_eq_getElem?_getD, List.getElem?_eq_none past]
    rfl
  · rw [byteAt, value, grew.keeps l present, grew.own l direct present, ← stores.bytes k (before ▸ present), byteAt,
      before]

/-! ## Taking a block -/

namespace Writing

variable (writing : Writing f img din nodes slots data) (more : img.freeblock.toNat < fsSize)
include writing more

theorem address {a : Fin (ndirect + 1)} (absent : din.addrs a = 0)
    (behind : ∀ k, Slot.address a = .direct k → data.length ≤ k.val * bsize) :
    ∃ nodes', Writing f img.takeBlock.2 { din with addrs := Function.update din.addrs a img.freeblock } nodes'
        (fun k => slots k ∨ k = .address a) data ∧ Step f 1 img nodes img.takeBlock.2 nodes' := by
  have sound := writing.sound
  have covered := covered_next more
  have free := writing.free_next more
  have none : nodes f a = 0 := writing.node ▸ absent
  have marked := writing.marked_takeBlock more
  have grew := Grew.address (f := f) (a := a) sound covered free none
  have refs := refAt_address_update (f := f) sound covered free none f
  have zero : img.takeBlock.2.marked img.freeblock = Block.zero := by
    rw [marked]
    exact allocate_self
  rw [← marked] at grew refs
  obtain ⟨nodes', isNodes⟩ : ∃ nodes', nodes' = Function.update nodes f (Function.update (nodes f) a img.freeblock) :=
    ⟨_, rfl⟩
  rw [← isNodes] at grew refs
  have node : nodes' f = Function.update din.addrs a img.freeblock := by
    rw [isNodes, Function.update_self, writing.node]
  have here : refAt img.takeBlock.2.marked (nodes' f) (.address a) = img.freeblock := by
    rw [refAt_address, node, Function.update_self]
  have stores : Stores img.marked (nodes f) slots data := writing.node ▸ writing.stores
  refine ⟨nodes', ⟨⟨writing.takeBlock more, grew.sound⟩, node,
    node ▸ stores.grow grew (fun k => ?_) fun k direct _ real => ?_⟩,
    grew.toConfined, grew.node, rfl, toNat_next more⟩
  · by_cases isA : k = .address a
    · rw [isA, here]
      exact ⟨fun _ => .inr rfl, fun _ => writing.next_real⟩
    · rw [refs k fun same => isA (Prod.mk.inj same).2, stores.filled]
      exact (or_iff_left isA).symm
  · by_cases isA : k = .address a
    · rw [isA, here]
      refine ⟨zero, ?_⟩
      cases k with
      | direct k =>
        rw [← isA]
        exact behind k isA.symm
      | indirect => exact absurd rfl direct
      | entry j =>
        rw [Slot.address] at isA
        split at isA <;> cases isA
    · rw [refs k fun same => isA (Prod.mk.inj same).2] at real
      contradiction

theorem entry (present : din.addrs Inode.indirect ≠ 0) {j : Fin nindirect}
    (absent : refAt img.marked din.addrs (.entry j) = 0) (behind : data.length ≤ (ndirect + j.val) * bsize)
    {img' : Image} (isImg : img' = img.takeBlock.2.wsect (din.addrs Inode.indirect)
      ((img.marked (din.addrs Inode.indirect)).setWord j img.freeblock)) :
    Writing f img' din nodes (fun k => slots k ∨ k = .entry j) data ∧ Step f 1 img nodes img' nodes ∧
      refAt img'.marked din.addrs (.entry j) = img.freeblock := by
  have sound := writing.sound
  have covered := covered_next more
  have free := writing.free_next more
  have real : nodes f Inode.indirect ≠ 0 := writing.node ▸ present
  have none : refAt img.marked (nodes f) (.entry j) = 0 := writing.node ▸ absent
  have grew := Grew.entry (f := f) sound covered free real none
  have refs := refAt_setEntry (f := f) (j := j) sound covered free real f
  have here : refAt (setEntry (allocate superblock img.marked img.freeblock) (nodes f Inode.indirect) j
      img.freeblock) (nodes f) (.entry j) = img.freeblock := setEntry_self real j
  have used : (nodes f Inode.indirect).toNat < img.freeblock.toNat := writing.ref_lt (k := .indirect) real
  have other : nodes f Inode.indirect ≠ superblock.bmapstart := writing.ref_bitmap (k := .indirect) real
  have same : allocate superblock img.marked img.freeblock (nodes f Inode.indirect) =
      img.marked (nodes f Inode.indirect) := sound.allocate_held (k := .indirect) covered free real
  have apart : img.freeblock ≠ nodes f Inode.indirect := by
    intro same
    rw [← same] at used
    exact Nat.lt_irrefl _ used
  have taken := writing.takeBlock more
  have count : img.takeBlock.2.freeblock.toNat = img.freeblock.toNat + 1 := toNat_next more
  have marked : img'.marked = setEntry (allocate superblock img.marked img.freeblock) (nodes f Inode.indirect) j
      img.freeblock := by
    rw [isImg, ← writing.node, wsect_marked ((used.trans more).trans fsSize_small) other, writing.marked_takeBlock more,
      setEntry, same]
  have zero : img'.marked img.freeblock = Block.zero := by
    rw [marked, setEntry, Function.update_of_ne apart]
    exact allocate_self
  rw [← marked] at grew refs here
  have counted : Counted img' := by
    rw [isImg, ← writing.node]
    exact taken.wsect (writing.ref_head (k := .indirect) real) (used.trans (by omega)) other _
  have stores : Stores img.marked (nodes f) slots data := writing.node ▸ writing.stores
  refine ⟨⟨⟨counted, grew.sound⟩, writing.node,
    writing.node ▸ stores.grow grew (fun k => ?_) fun k direct _ real => ?_⟩,
    ⟨grew.toConfined, grew.node, isImg ▸ rfl, isImg ▸ count⟩, writing.node ▸ here⟩
  · by_cases isJ : k = .entry j
    · rw [isJ, here]
      exact ⟨fun _ => .inr rfl, fun _ => writing.next_real⟩
    · rw [refs k fun same => isJ (Prod.mk.inj same).2, stores.filled]
      exact (or_iff_left isJ).symm
  · by_cases isJ : k = .entry j
    · rw [isJ, here]
      exact ⟨zero, behind⟩
    · rw [refs k fun same => isJ (Prod.mk.inj same).2] at real
      contradiction

omit more in
theorem rsect_indirect (present : din.addrs Inode.indirect ≠ 0) :
    img.rsect (din.addrs Inode.indirect) = some (img.marked (din.addrs Inode.indirect)) := by
  have real : refAt img.marked (nodes f) .indirect ≠ 0 := writing.node ▸ present
  have reads := writing.rsect_ref real
  rw [writing.node] at reads
  exact reads

omit more in
theorem fileBlock_mapped {fbn : Nat} (mapped : blockAt img.marked din.addrs fbn ≠ 0) :
    img.fileBlock din fbn = some (blockAt img.marked din.addrs fbn, din, img) := by
  have bound := blockAt_bound mapped
  have sum : maxFile = ndirect + nindirect := rfl
  by_cases direct : fbn < ndirect
  · rw [blockAt_direct direct] at mapped ⊢
    rw [Image.fileBlock, dif_pos direct, Image.fillAddr, if_neg mapped]
  · have inside : fbn - ndirect < nindirect := by omega
    rw [blockAt_entry direct inside] at mapped ⊢
    have present : din.addrs Inode.indirect ≠ 0 := by
      intro none
      exact mapped (refAt_entry_none none _)
    rw [refAt_entry present] at mapped ⊢
    rw [Image.fileBlock, dif_neg direct, dif_pos inside, Image.fillAddr, if_neg present]
    dsimp only
    rw [Image.fillEntry, writing.rsect_indirect present]
    dsimp only [Option.bind_eq_bind, Option.bind_some]
    rw [if_neg mapped]
    rfl

theorem fillEntry_next {j : Fin nindirect} (present : slots .indirect) (absent : ¬ slots (.entry j))
    (behind : data.length ≤ (ndirect + j.val) * bsize) :
    ∃ img', img.fillEntry (din.addrs Inode.indirect) j = some (refAt img'.marked din.addrs (.entry j), img') ∧
      Writing f img' din nodes (fun k => slots k ∨ k = .entry j) data ∧ Step f 1 img nodes img' nodes := by
  have here : din.addrs Inode.indirect ≠ 0 := (writing.stores.filled .indirect).mpr present
  have none : refAt img.marked din.addrs (.entry j) = 0 := by
    by_contra filled
    exact absent ((writing.stores.filled _).mp filled)
  obtain ⟨writing', step, filled⟩ := writing.entry more here none behind rfl
  rw [refAt_entry here] at none
  refine ⟨_, ?_, writing', step⟩
  rw [filled, Image.fillEntry, writing.rsect_indirect here]
  dsimp only [Option.bind_eq_bind, Option.bind_some]
  rw [if_pos none, Block.word_setWord_self]
  rfl

omit more in
/-- Without a free block the entry is filled with the number of a sector that is not there. -/
theorem fillEntry_full {j : Fin nindirect} (full : img.freeblock.toNat = fsSize) (present : slots .indirect)
    (absent : ¬ slots (.entry j)) {x : UInt32} {img' : Image}
    (fills : img.fillEntry (din.addrs Inode.indirect) j = some (x, img')) : img'.rsect x = none := by
  have here : din.addrs Inode.indirect ≠ 0 := (writing.stores.filled .indirect).mpr present
  have none : (img.marked (din.addrs Inode.indirect)).word j = 0 := by
    rw [← refAt_entry here]
    by_contra filled
    exact absent ((writing.stores.filled _).mp filled)
  have real : refAt img.marked (nodes f) .indirect ≠ 0 := writing.node ▸ here
  have same : refAt img.marked (nodes f) .indirect = din.addrs Inode.indirect := by
    rw [writing.node]
    rfl
  rw [Image.fillEntry, writing.rsect_indirect here] at fills
  dsimp only [Option.bind_eq_bind, Option.bind_some] at fills
  rw [if_pos none, Block.word_setWord_self] at fills
  cases fills
  have wrote := (writing.wsect_ref real ((img.marked (din.addrs Inode.indirect)).setWord j img.freeblock)).1.sectors
  rw [same] at wrote
  exact rsect_end wrote full

end Writing

theorem Writing.fileBlock_next (writing : Writing f img din nodes (within blocks) data) (small : blocks < maxFile)
    (behind : data.length ≤ blocks * bsize) (room : img.freeblock.toNat + nextCost blocks ≤ fsSize) :
    ∃ din' img' nodes', img.fileBlock din blocks = some (blockAt img'.marked din'.addrs blocks, din', img') ∧
      Writing f img' din' nodes' (within (blocks + 1)) data ∧ Step f (nextCost blocks) img nodes img' nodes' ∧
      din' = { din with addrs := din'.addrs } := by
  have sum : maxFile = ndirect + nindirect := rfl
  by_cases direct : blocks < ndirect
  · -- an address of the inode
    have one : nextCost blocks = 1 := if_neg direct.ne
    rw [one] at room ⊢
    have none : din.addrs ⟨blocks, Nat.lt_succ_of_lt direct⟩ = 0 := by
      by_contra filled
      exact Nat.lt_irrefl blocks ((writing.stores.filled (.direct ⟨blocks, direct⟩)).mp filled)
    have slot : Slot.address ⟨blocks, Nat.lt_succ_of_lt direct⟩ = .direct ⟨blocks, direct⟩ := dif_pos direct
    obtain ⟨nodes', writing', step⟩ := writing.address room none fun k same => by
      rw [slot] at same
      cases same
      exact behind
    refine ⟨_, _, nodes', ?_, writing'.congr fun k => ?_, step, rfl⟩
    · rw [Image.fileBlock, dif_pos direct, Image.fillAddr, if_pos none, blockAt_direct direct]
      rfl
    · rw [slot]
      cases k with
      | direct k => simp only [within, Slot.direct.injEq, Fin.ext_iff]; omega
      | indirect => simp only [within, reduceCtorEq, or_false]; omega
      | entry j => simp only [within, reduceCtorEq, or_false]; omega
  · have inside : blocks - ndirect < nindirect := by omega
    have sum' : ndirect + (blocks - ndirect) = blocks := by omega
    obtain ⟨j, isJ⟩ : ∃ j : Fin nindirect, j = ⟨blocks - ndirect, inside⟩ := ⟨_, rfl⟩
    have index : j.val = blocks - ndirect := by rw [isJ]
    have behind' : data.length ≤ (ndirect + j.val) * bsize := by rwa [index, sum']
    have ends : ∀ k, (within blocks k ∨ k = .indirect) ∨ k = .entry j ↔ within (blocks + 1) k := by
      intro k
      cases k with
      | direct k => simp only [within, reduceCtorEq, or_false]; omega
      | indirect => simp only [within, or_true, true_or, true_iff]; omega
      | entry i => simp only [within, reduceCtorEq, or_false, Slot.entry.injEq, Fin.ext_iff]; omega
    have absent : ¬ (within blocks (.entry j) ∨ Slot.entry j = .indirect) := by
      simp only [within, reduceCtorEq, or_false]
      omega
    by_cases first : blocks = ndirect
    · -- the indirect block comes first
      have two : nextCost blocks = 1 + 1 := if_pos first
      rw [two] at room ⊢
      have none : din.addrs Inode.indirect = 0 := by
        by_contra filled
        have more : ndirect < blocks := (writing.stores.filled .indirect).mp filled
        omega
      obtain ⟨nodes₁, writing₁, step₁⟩ := writing.address (by omega) none fun k same => by
        rw [Slot.address_indirect] at same
        cases same
      rw [Slot.address_indirect] at writing₁
      obtain ⟨img', fills, writing', step⟩ :=
        writing₁.fillEntry_next (by rw [step₁.freeblock]; omega) (.inr rfl) absent behind'
      refine ⟨_, img', nodes₁, ?_, writing'.congr ends, step₁.trans step, rfl⟩
      rw [Image.fileBlock, dif_neg direct, dif_pos inside, Image.fillAddr, if_pos none, blockAt_entry direct inside,
        ← isJ]
      exact congrArg (Option.bind · _) fills
    · have one : nextCost blocks = 1 := if_neg first
      rw [one] at room ⊢
      have present : within blocks .indirect := by
        simp only [within]
        omega
      have real : din.addrs Inode.indirect ≠ 0 := (writing.stores.filled .indirect).mpr present
      obtain ⟨img', fills, writing', step⟩ := writing.fillEntry_next room present (fun in' => absent (.inl in')) behind'
      refine ⟨din, img', nodes, ?_, writing'.congr fun k => ?_, step, rfl⟩
      · rw [Image.fileBlock, dif_neg direct, dif_pos inside, Image.fillAddr, if_neg real, blockAt_entry direct inside,
          ← isJ]
        exact congrArg (Option.bind · _) fills
      · rw [← ends]
        cases k with
        | indirect => simp only [within, reduceCtorEq, or_false, or_true, iff_true]; omega
        | _ => simp only [reduceCtorEq, or_false]

/-- Without room for the next block of data the sector to be written is not there. -/
theorem Writing.fileBlock_full (writing : Writing f img din nodes (within blocks) data)
    (full : ¬ img.freeblock.toNat + nextCost blocks ≤ fsSize)
    {x : UInt32} {din' : Dinode} {img' : Image} (fills : img.fileBlock din blocks = some (x, din', img')) :
    img'.rsect x = none := by
  have high := writing.high
  have absent : ∀ k, ¬ within blocks k → refAt img.marked din.addrs k = 0 := by
    intro k outside
    by_contra filled
    exact outside ((writing.stores.filled k).mp filled)
  by_cases direct : blocks < ndirect
  · have one : nextCost blocks = 1 := if_neg direct.ne
    have none : din.addrs ⟨blocks, Nat.lt_succ_of_lt direct⟩ = 0 :=
      absent (.direct ⟨blocks, direct⟩) (Nat.lt_irrefl blocks)
    rw [Image.fileBlock, dif_pos direct, Image.fillAddr, if_pos none] at fills
    cases fills
    dsimp only
    rw [Function.update_self]
    exact rsect_end writing.sectors (by change img.freeblock.toNat = _; omega)
  · by_cases inside : blocks - ndirect < nindirect
    · obtain ⟨j, isJ⟩ : ∃ j : Fin nindirect, j = ⟨blocks - ndirect, inside⟩ := ⟨_, rfl⟩
      have index : j.val = blocks - ndirect := by rw [isJ]
      have outside : ¬ within blocks (.entry j) := by
        simp only [within]
        omega
      rw [Image.fileBlock, dif_neg direct, dif_pos inside, ← isJ] at fills
      by_cases first : blocks = ndirect
      · have two : nextCost blocks = 2 := if_pos first
        have none := absent .indirect (by simp only [within]; omega)
        change din.addrs Inode.indirect = 0 at none
        rw [Image.fillAddr, if_pos none] at fills
        obtain ⟨⟨y, img₁⟩, fills', ends⟩ := Option.bind_eq_some_iff.mp fills
        cases ends
        dsimp only at fills'
        by_cases last : img.freeblock.toNat < fsSize
        · obtain ⟨nodes₁, writing₁, step₁⟩ := writing.address last none fun k same => by
            rw [Slot.address_indirect] at same
            cases same
          rw [Slot.address_indirect] at writing₁
          refine writing₁.fillEntry_full ?_ (.inr rfl) (fun filled => ?_) fills'
          · rw [step₁.freeblock]
            omega
          · rcases filled with filled | same
            · exact outside filled
            · cases same
        · -- there is no block for the indirect block
          rw [Function.update_self, Image.fillEntry] at fills'
          have nothing : img.takeBlock.2.rsect img.takeBlock.1 = .none :=
            rsect_end writing.sectors (by change img.freeblock.toNat = _; omega)
          rw [nothing] at fills'
          cases fills'
      · have one : nextCost blocks = 1 := if_neg first
        have present : within blocks .indirect := by
          simp only [within]
          omega
        have real : din.addrs Inode.indirect ≠ 0 := (writing.stores.filled .indirect).mpr present
        rw [Image.fillAddr, if_neg real] at fills
        obtain ⟨⟨y, img₁⟩, fills', ends⟩ := Option.bind_eq_some_iff.mp fills
        cases ends
        exact writing.fillEntry_full (by omega) present outside fills'
    · rw [Image.fileBlock, dif_neg direct, dif_neg inside] at fills
      cases fills

/-! ## The loop -/

def taken (p : Nat → UInt8) (tot n : Nat) : List UInt8 := (List.range n).map fun i => p (tot + i)

theorem length_taken (p : Nat → UInt8) (tot n : Nat) : (taken p tot n).length = n := by simp [taken]

theorem getD_append_taken (p : Nat → UInt8) (tot n k : Nat) : (data ++ taken p tot n).getD k 0 =
    if data.length ≤ k ∧ k < data.length + n then p (tot + (k - data.length)) else data.getD k 0 := by
  simp only [List.getD_eq_getElem?_getD]
  by_cases before : k < data.length
  · rw [List.getElem?_append_left before, if_neg (by omega)]
  · have behind : data.length ≤ k := Nat.le_of_not_lt before
    rw [List.getElem?_append_right behind, List.getElem?_eq_none behind, taken, List.getElem?_map]
    by_cases inside : k - data.length < n
    · rw [List.getElem?_range inside, if_pos (by omega)]
      rfl
    · rw [List.getElem?_eq_none (by simpa using inside), if_neg (by omega)]
      rfl

theorem taken_append (p : Nat → UInt8) (tot m n : Nat) :
    taken p tot m ++ taken p (tot + m) n = taken p tot (m + n) := by
  simp [taken, List.range_add, Function.comp_def, Nat.add_assoc]

theorem Writing.copy (writing : Writing f img din nodes (within blocks) data)
    (mapped : blockAt img.marked din.addrs (data.length / bsize) ≠ 0) (p : Nat → UInt8) {start amount tot : UInt64}
    (some : 0 < amount.toNat) (first : start.toNat = data.length % bsize)
    (fits : data.length % bsize + amount.toNat ≤ bsize) (wraps : tot.toNat + amount.toNat < 2 ^ 64)
    (small : data.length < 2 ^ 64) {img' : Image}
    (isImg : img' = img.wsect (blockAt img.marked din.addrs (data.length / bsize)) (copyIn p start amount tot
      (img.marked (blockAt img.marked din.addrs (data.length / bsize))))) :
    Writing f img' din nodes (within blocks) (data ++ taken p tot.toNat amount.toNat) ∧
      Step f 0 img nodes img' nodes := by
  obtain ⟨off, isOff⟩ : ∃ off : UInt64, off.toNat = data.length :=
    ⟨.ofNat data.length, UInt64.toNat_ofNat_of_lt' small⟩
  have modulo : (off % BSIZE).toNat = off.toNat % bsize := UInt64.toNat_mod off BSIZE
  have sum : (tot + amount).toNat = tot.toNat + amount.toNat := by
    rw [UInt64.toNat_add]
    exact Nat.mod_eq_of_lt wraps
  have isStart : start = off % BSIZE := UInt64.toNat_inj.mp (by rw [modulo, isOff, first])
  have more : tot < tot + amount := by
    rw [UInt64.lt_iff_toNat_lt, sum]
    omega
  have length : (chunk (tot + amount) tot off).toNat = amount.toNat := by
    change data.length % 512 + _ ≤ 512 at fits
    rw [chunk_min off more, sum, isOff]
    omega
  have isAmount : amount = chunk (tot + amount) tot off := UInt64.toNat_inj.mp length.symm
  have turn : Turn (tot + amount) tot off amount.toNat := by
    refine ⟨length, some, ?_, ?_⟩
    · rw [sum]
      omega
    · rw [isOff]
      exact fits
  have real : blockAt img.marked (nodes f) (off.toNat / bsize) ≠ 0 := by
    rw [writing.node, isOff]
    exact mapped
  have wrote : Wrote superblock f p off.toNat (off.toNat + amount.toNat) tot.toNat img.marked nodes _ nodes :=
    Wrote.turn turn (Grew.refl writing.sound f) real
  obtain ⟨k, _, value, direct⟩ := slotOf_some real
  obtain ⟨counted, marked⟩ := writing.wsect_ref (value ▸ real) (copyIn p start amount tot
    (img.marked (blockAt img.marked (nodes f) (off.toNat / bsize))))
  rw [← isAmount, ← isStart] at wrote
  rw [← value, writing.node, isOff, ← isImg] at counted marked
  rw [writing.node, isOff, ← marked] at wrote
  have refs : ∀ l, refAt img'.marked (nodes f) l = refAt img.marked (nodes f) l := by
    intro l
    have same := refAt_write writing.sound direct (value ▸ real) (copyIn p start amount tot
      (img.marked (blockAt img.marked (nodes f) (off.toNat / bsize)))) f l
    rw [← value, writing.node, isOff, ← marked] at same
    rw [writing.node]
    exact same
  rw [writing.node] at refs
  refine ⟨⟨⟨counted, wrote.sound⟩, writing.node, fun l => ?_, fun l present => ?_⟩,
    wrote.toConfined, wrote.node, isImg ▸ rfl, isImg ▸ rfl⟩
  · rw [refs]
    exact writing.stores.filled l
  · rw [getD_append_taken]
    by_cases inside : data.length ≤ l ∧ l < data.length + amount.toNat
    · have new := wrote.new l inside.1 inside.2
      rw [writing.node] at new
      rw [if_pos inside, new]
    · have before : blockAt img.marked din.addrs (l / bsize) ≠ 0 := by
        obtain ⟨k', slot, value', _⟩ := slotOf_some present
        rw [blockAt, slot]
        dsimp only
        rw [← refs, ← value']
        exact present
      have old := wrote.old l (by omega) (writing.node ▸ before)
      rw [writing.node] at old
      rw [if_neg inside, old]
      exact writing.stores.bytes l before

structure TurnOf (size n : Nat) (fbn n1 start : UInt32) : Prop where
  fbn : fbn.toNat = size / bsize
  amount : n1.toNat = min n (bsize - size % bsize)
  start : start.toNat = size % bsize

theorem toNat_fbn {off : UInt32} {size : Nat} (isSize : off.toNat = size) :
    (off / UInt32.ofNat bsize).toNat = size / bsize := by
  rw [UInt32.toNat_div, isSize]
  rfl

theorem turnOf {off n : UInt32} {size : Nat} (isSize : off.toNat = size) (small : size < maxFile * bsize) :
    TurnOf size n.toNat (off / UInt32.ofNat bsize) (min n ((off / UInt32.ofNat bsize + 1) * UInt32.ofNat bsize - off))
      (off - off / UInt32.ofNat bsize * UInt32.ofNat bsize) := by
  change size < 71680 at small
  have bound := off.toNat_lt
  have index : (off / UInt32.ofNat bsize).toNat = size / 512 := toNat_fbn isSize
  have whole : (off / UInt32.ofNat bsize * UInt32.ofNat bsize).toNat = size / 512 * 512 := by
    rw [UInt32.toNat_mul, index]
    change size / 512 * 512 % 2 ^ 32 = _
    omega
  have next : ((off / UInt32.ofNat bsize + 1) * UInt32.ofNat bsize).toNat = (size / 512 + 1) * 512 := by
    rw [UInt32.toNat_mul, UInt32.toNat_add, index]
    change (size / 512 + 1) % 2 ^ 32 * 512 % 2 ^ 32 = _
    omega
  have left : ((off / UInt32.ofNat bsize + 1) * UInt32.ofNat bsize - off).toNat = 512 - size % 512 := by
    rw [UInt32.toNat_sub_of_le _ _ (by rw [UInt32.le_iff_toNat_le, next]; omega), next, isSize]
    omega
  refine ⟨index, ?_, ?_⟩
  · change (if n ≤ _ then n else _).toNat = min n.toNat (512 - size % 512)
    split
    · next less =>
      rw [UInt32.le_iff_toNat_le, left] at less
      omega
    · next more =>
      rw [UInt32.le_iff_toNat_le, left] at more
      rw [left]
      omega
  · rw [UInt32.toNat_sub_of_le _ _ (by rw [UInt32.le_iff_toNat_le, whole]; omega), whole, isSize]
    change size - size / 512 * 512 = size % 512
    omega

theorem dataBlocks_cases (size : Nat) :
    (size % bsize = 0 ∧ dataBlocks size = size / bsize) ∨ (size % bsize ≠ 0 ∧ dataBlocks size = size / bsize + 1) := by
  change (size % 512 = 0 ∧ (size + 511) / 512 = size / 512) ∨ (size % 512 ≠ 0 ∧ (size + 511) / 512 = size / 512 + 1)
  omega

theorem dataBlocks_turn (size m : Nat) (some : 0 < m) (fits : size % bsize + m ≤ bsize) :
    dataBlocks (size + m) = size / bsize + 1 := by
  change size % 512 + m ≤ 512 at fits
  change (size + m + 511) / 512 = size / 512 + 1
  omega

theorem dataBlocks_mono {size size' : Nat} (less : size ≤ size') : dataBlocks size ≤ dataBlocks size' :=
  Nat.div_le_div_right (Nat.add_le_add_right less _)

theorem Writing.fileBlock_run (writing : Writing f img din nodes (within (dataBlocks data.length)) data)
    (small : data.length < maxFile * bsize)
    (room : img.freeblock.toNat + held (data.length / bsize + 1) ≤ fsSize + held (dataBlocks data.length)) :
    ∃ din' img' nodes', img.fileBlock din (data.length / bsize) =
        some (blockAt img'.marked din'.addrs (data.length / bsize), din', img') ∧
      blockAt img'.marked din'.addrs (data.length / bsize) ≠ 0 ∧
      Writing f img' din' nodes' (within (data.length / bsize + 1)) data ∧
      Step f (held (data.length / bsize + 1) - held (dataBlocks data.length)) img nodes img' nodes' ∧
      din' = { din with addrs := din'.addrs } := by
  have bound : data.length / bsize < maxFile := by
    change data.length < 71680 at small
    change data.length / 512 < 140
    omega
  have there : ∀ {img din nodes}, Writing f img din nodes (within (data.length / bsize + 1)) data →
      blockAt img.marked din.addrs (data.length / bsize) ≠ 0 :=
    fun writing => (writing.stores.blockAt_ne_zero bound).mpr (Nat.lt_succ_self _)
  rcases dataBlocks_cases data.length with ⟨whole, same⟩ | ⟨part, same⟩
  · rw [same] at writing room ⊢
    have behind : data.length ≤ data.length / bsize * bsize := by
      change data.length % 512 = 0 at whole
      change data.length ≤ data.length / 512 * 512
      omega
    rw [held_succ] at room ⊢
    rw [Nat.add_sub_cancel_left]
    obtain ⟨din', img', nodes', fills, writing', step, fields⟩ := writing.fileBlock_next bound behind (by omega)
    exact ⟨din', img', nodes', fills, there writing', writing', step, fields⟩
  · rw [same] at writing ⊢
    rw [Nat.sub_self]
    exact ⟨din, img, nodes, writing.fileBlock_mapped (there writing), there writing, writing,
      Step.refl writing.toSane f, rfl⟩

theorem Writing.turn (writing : Writing f img din nodes (within (dataBlocks data.length)) data) (p : Nat → UInt8)
    (turns : Nat) {tot n off : UInt32} (isOff : off.toNat = data.length) (more : 0 < n.toNat)
    (wraps : tot.toNat + n.toNat < 2 ^ 32) (small : data.length < maxFile * bsize)
    (room : img.freeblock.toNat + held (data.length / bsize + 1) ≤ fsSize + held (dataBlocks data.length)) :
    ∃ n1 din' img' nodes', appendLoop p (turns + 1) tot n off din img =
        appendLoop p turns (tot + n1) (n - n1) (off + n1) din' img' ∧
      n1.toNat = min n.toNat (bsize - data.length % bsize) ∧
      Writing f img' din' nodes' (within (data.length / bsize + 1)) (data ++ taken p tot.toNat n1.toNat) ∧
      Step f (held (data.length / bsize + 1) - held (dataBlocks data.length)) img nodes img' nodes' ∧
      din' = { din with addrs := din'.addrs } := by
  have inBlock : data.length % 512 < 512 := Nat.mod_lt _ (by decide)
  have least : min n.toNat (bsize - data.length % bsize) ≤ n.toNat := Nat.min_le_left ..
  obtain ⟨index, amount, start⟩ := turnOf (n := n) isOff small
  obtain ⟨din', img', nodes', fills, real, writing', step, fields⟩ := writing.fileBlock_run small room
  obtain ⟨k, _, value, _⟩ := slotOf_some real
  have filled : refAt img'.marked (nodes' f) k ≠ 0 := writing'.node ▸ value ▸ real
  have reads := writing'.rsect_ref filled
  rw [writing'.node, ← value] at reads
  obtain ⟨n1, isN⟩ : ∃ n1, n1 = min n ((off / UInt32.ofNat bsize + 1) * UInt32.ofNat bsize - off) := ⟨_, rfl⟩
  rw [← isN] at amount
  have some : 0 < n1.toUInt64.toNat := by
    rw [UInt32.toNat_toUInt64, amount]
    exact Nat.lt_min.mpr ⟨more, Nat.sub_pos_of_lt inBlock⟩
  have fits : data.length % bsize + n1.toUInt64.toNat ≤ bsize := by
    have last : min n.toNat (bsize - data.length % bsize) ≤ bsize - data.length % bsize := Nat.min_le_right ..
    rw [UInt32.toNat_toUInt64, amount]
    change data.length % 512 + _ ≤ 512
    change _ ≤ 512 - data.length % 512 at last
    omega
  have wraps' : tot.toUInt64.toNat + n1.toUInt64.toNat < 2 ^ 64 := by
    rw [UInt32.toNat_toUInt64, UInt32.toNat_toUInt64, amount]
    omega
  have small' : data.length < 2 ^ 64 := by
    change data.length < 71680 at small
    omega
  obtain ⟨writing'', step'⟩ := writing'.copy real p some ((UInt32.toNat_toUInt64 _).trans start) fits wraps' small' rfl
  refine ⟨_, din', _, nodes', ?_, amount, writing'', step.trans step', fields⟩
  have positive : 0 < n := UInt32.lt_iff_toNat_lt.mpr more
  rw [appendLoop, if_pos positive]
  dsimp only
  rw [index, fills, ← isN]
  dsimp only [Option.bind_eq_bind, Option.bind_some]
  rw [reads]
  rfl

/-- There is room for a file of one size to grow to another. -/
def Fits (img : Image) (size size' : Nat) : Prop :=
  size' ≤ maxFile * bsize ∧ img.freeblock.toNat + held (dataBlocks size') ≤ fsSize + held (dataBlocks size)

theorem Fits.refl (counted : Counted img) {size : Nat} (small : size ≤ maxFile * bsize) : Fits img size size :=
  ⟨small, Nat.add_le_add_right counted.high _⟩

theorem Step.fits {size m : Nat} (less : size ≤ m)
    (step : Step f (held (dataBlocks m) - held (dataBlocks size)) img nodes img' nodes') (size' : Nat) :
    Fits img' m size' ↔ Fits img size size' := by
  have grows := held_mono (dataBlocks_mono less)
  have count := step.freeblock
  unfold Fits
  omega

theorem length_append_taken (data : List UInt8) (p : Nat → UInt8) (tot n : Nat) :
    (data ++ taken p tot n).length = data.length + n := by
  rw [List.length_append, length_taken]

structure Appended (f : UInt32) (p : Nat → UInt8) (tot n : Nat) (data : List UInt8) (img : Image) (din : Dinode)
    (nodes : Nodes) (off' : UInt32) (img' : Image) (din' : Dinode) (nodes' : Nodes) : Prop where
  ends : off'.toNat = data.length + n
  writing : Writing f img' din' nodes' (within (dataBlocks (data.length + n))) (data ++ taken p tot n)
  step : Step f (held (dataBlocks (data.length + n)) - held (dataBlocks data.length)) img nodes img' nodes'
  fields : din' = { din with addrs := din'.addrs }

theorem Writing.appendLoop_nothing (p : Nat → UInt8) (turns : Nat) (tot : UInt32) {n off : UInt32}
    (writing : Writing f img din nodes (within (dataBlocks data.length)) data) (isOff : off.toNat = data.length)
    (zero : n.toNat = 0) : appendLoop p turns tot n off din img = some (off, din, img) ∧
      Appended f p tot.toNat n.toNat data img din nodes off img din nodes := by
  have none : ¬ 0 < n := by
    rw [UInt32.lt_iff_toNat_lt, zero]
    exact Nat.lt_irrefl 0
  constructor
  · cases turns with
    | zero => exact if_neg none
    | succ turns => exact if_neg none
  · rw [zero]
    have nothing : data ++ taken p tot.toNat 0 = data := List.append_nil data
    refine ⟨isOff, ?_, ?_, rfl⟩
    · rw [nothing]
      exact writing
    · have same := Step.refl writing.toSane f
      rw [← Nat.sub_self (held (dataBlocks data.length))] at same
      exact same

theorem Appended.turn {p : Nat → UInt8} {tot n m : Nat} {off : UInt32}
    (step : Step f (held (dataBlocks (data.length + m)) - held (dataBlocks data.length)) img nodes img' nodes')
    (fields : din' = { din with addrs := din'.addrs }) {din'' : Dinode} (less : m ≤ n)
    (rest : Appended f p (tot + m) (n - m) (data ++ taken p tot m) img' din' nodes' off img'' din'' nodes'') :
    Appended f p tot n data img din nodes off img'' din'' nodes'' := by
  have sum : data.length + m + (n - m) = data.length + n := by omega
  have first := held_mono (dataBlocks_mono (Nat.le_add_right data.length m))
  have later := held_mono (dataBlocks_mono (Nat.add_le_add_left less data.length))
  have costs : held (dataBlocks (data.length + m)) - held (dataBlocks data.length) +
      (held (dataBlocks (data.length + n)) - held (dataBlocks (data.length + m))) =
      held (dataBlocks (data.length + n)) - held (dataBlocks data.length) := by omega
  obtain ⟨ends, writing, step', fields'⟩ := rest
  rw [length_append_taken, sum] at ends writing step'
  rw [List.append_assoc, taken_append, Nat.add_sub_cancel' less] at writing
  refine ⟨ends, writing, ?_, ?_⟩
  · rw [← costs]
    exact step.trans step'
  · rw [fields', fields]

theorem next_turn {tot n off n1 : UInt32} {size : Nat} (isOff : off.toNat = size) (less : n1.toNat ≤ n.toNat)
    (wraps : tot.toNat + n.toNat < 2 ^ 32) (small : size + n1.toNat < 2 ^ 32) :
    (tot + n1).toNat = tot.toNat + n1.toNat ∧ (n - n1).toNat = n.toNat - n1.toNat ∧
      (off + n1).toNat = size + n1.toNat := by
  refine ⟨?_, UInt32.toNat_sub_of_le _ _ (UInt32.le_iff_toNat_le.mpr less), ?_⟩
  · rw [UInt32.toNat_add]
    exact Nat.mod_eq_of_lt (by omega)
  · rw [UInt32.toNat_add, isOff]
    exact Nat.mod_eq_of_lt small

section
variable (p : Nat → UInt8) (turns : Nat) {tot n off : UInt32}
  (writing : Writing f img din nodes (within (dataBlocks data.length)) data) (isOff : off.toNat = data.length)
  (enough : n.toNat ≤ turns) (wraps : tot.toNat + n.toNat < 2 ^ 32)
include writing isOff enough wraps

theorem Writing.appendLoop_run (fits : Fits img data.length (data.length + n.toNat)) :
    ∃ off' din' img' nodes', appendLoop p turns tot n off din img = some (off', din', img') ∧
      Appended f p tot.toNat n.toNat data img din nodes off' img' din' nodes' := by
  induction turns generalizing tot n off din img nodes data with
  | zero => exact ⟨off, din, img, nodes, writing.appendLoop_nothing p 0 tot isOff (Nat.le_zero.mp enough)⟩
  | succ turns ih =>
    by_cases zero : n.toNat = 0
    · exact ⟨off, din, img, nodes, writing.appendLoop_nothing p _ tot isOff zero⟩
    · have large : maxFile * bsize = 71680 := rfl
      have inBlock : data.length % bsize < bsize := Nat.mod_lt _ (by decide)
      obtain ⟨limit, room⟩ := fits
      have reaches : data.length / bsize + 1 ≤ dataBlocks (data.length + n.toNat) := by
        change data.length / 512 + 1 ≤ (data.length + n.toNat + 511) / 512
        omega
      have grows := held_mono reaches
      obtain ⟨n1, din₁, img₁, nodes₁, goes, amount, writing₁, step₁, fields₁⟩ :=
        writing.turn p turns isOff (Nat.pos_of_ne_zero zero) wraps (by omega) (by omega)
      have blocks := dataBlocks_turn data.length n1.toNat (by omega) (by omega)
      have length := length_append_taken data p tot.toNat n1.toNat
      have less : n1.toNat ≤ n.toNat := by omega
      obtain ⟨tot₁, n₁, off₁⟩ := next_turn isOff less wraps (by omega)
      have sum : data.length + n1.toNat + (n.toNat - n1.toNat) = data.length + n.toNat := by omega
      rw [← blocks, ← length] at writing₁
      rw [← blocks] at step₁
      have fits₁ := (step₁.fits (Nat.le_add_right ..) (data.length + n.toNat)).mpr ⟨limit, room⟩
      obtain ⟨off', din', img', nodes', loops, appended⟩ := ih writing₁ (off₁.trans length.symm)
        (by rw [n₁]; omega) (by rw [tot₁, n₁]; omega) (by rw [length, n₁, sum]; exact fits₁)
      rw [tot₁, n₁] at appended
      exact ⟨off', din', img', nodes', goes.trans loops, Appended.turn step₁ fields₁ less appended⟩

theorem Writing.appendLoop_none (small : data.length ≤ maxFile * bsize)
    (refused : ¬ Fits img data.length (data.length + n.toNat)) : appendLoop p turns tot n off din img = none := by
  have some : n.toNat ≠ 0 := by
    intro zero
    rw [zero] at refused
    exact refused (Fits.refl writing.toCounted small)
  induction turns generalizing tot n off din img nodes data with
  | zero => exact absurd (Nat.le_zero.mp enough) some
  | succ turns ih =>
    have large : maxFile * bsize = 71680 := rfl
    have inBlock : data.length % bsize < bsize := Nat.mod_lt _ (by decide)
    by_cases goesOn : data.length < maxFile * bsize ∧
      img.freeblock.toNat + held (data.length / bsize + 1) ≤ fsSize + held (dataBlocks data.length)
    · obtain ⟨n1, din₁, img₁, nodes₁, goes, amount, writing₁, step₁, _⟩ :=
        writing.turn p turns isOff (Nat.pos_of_ne_zero some) wraps goesOn.1 goesOn.2
      have below := goesOn.1
      rw [large] at below
      have blocks := dataBlocks_turn data.length n1.toNat (by omega) (by omega)
      have length := length_append_taken data p tot.toNat n1.toNat
      have less : n1.toNat ≤ n.toNat := by omega
      have small₁ : data.length + n1.toNat ≤ maxFile * bsize := by
        rw [large]
        change data.length % 512 < 512 at inBlock
        change n1.toNat = min _ (512 - data.length % 512) at amount
        omega
      obtain ⟨tot₁, n₁, off₁⟩ := next_turn isOff less wraps (by omega)
      have sum : data.length + n1.toNat + (n.toNat - n1.toNat) = data.length + n.toNat := by omega
      rw [← blocks, ← length] at writing₁
      rw [← blocks] at step₁
      have refused₁ := mt (step₁.fits (Nat.le_add_right ..) (data.length + n.toNat)).mp refused
      have more : (n - n1).toNat ≠ 0 := by
        intro zero
        rw [n₁] at zero
        have all : data.length + n.toNat = data.length + n1.toNat := by omega
        rw [all] at refused₁
        exact refused₁ (Fits.refl (writing₁.toCounted) small₁)
      rw [goes]
      exact ih writing₁ (off₁.trans length.symm) (by rw [n₁]; omega) (by rw [tot₁, n₁]; omega)
        (by rw [length]; exact small₁) (by rw [length, n₁, sum]; exact refused₁) more
    · have positive : 0 < n := UInt32.lt_iff_toNat_lt.mpr (Nat.pos_of_ne_zero some)
      rw [appendLoop, if_pos positive]
      dsimp only
      rw [toNat_fbn isOff]
      by_cases below : data.length < maxFile * bsize
      · have blocks : dataBlocks data.length = data.length / bsize := by
          rcases dataBlocks_cases data.length with ⟨_, same⟩ | ⟨_, same⟩
          · exact same
          · have high := writing.high
            rw [same] at goesOn
            exact absurd ⟨below, Nat.add_le_add_right high _⟩ goesOn
        rw [blocks] at writing goesOn
        have full : ¬ img.freeblock.toNat + nextCost (data.length / bsize) ≤ fsSize := by
          rw [held_succ] at goesOn
          intro room
          exact goesOn ⟨below, by omega⟩
        cases fills : img.fileBlock din (data.length / bsize) with
        | none => rfl
        | some out =>
          obtain ⟨x, din', img'⟩ := out
          have reads := writing.fileBlock_full full fills
          dsimp only [Option.bind_eq_bind, Option.bind_some]
          rw [reads]
          rfl
      · -- assert(fbn < MAXFILE)
        have last : data.length / bsize = ndirect + nindirect := by
          have whole : data.length = 71680 := by omega
          rw [whole]
          rfl
        have outside : img.fileBlock din (data.length / bsize) = none := by
          rw [last, Image.fileBlock, dif_neg (by decide), dif_neg (by decide)]
        rw [outside]
        rfl

end

end Xv6.Mkfs
