import Xv6.Fs.Growth
import Mathlib.Order.Interval.Finset.Nat

/-! The loops of `readi` and `writei`, and the bytes of a file.

They are followed turn by turn. A turn of `readi` copies a part of one mapped block;
a turn of `writei` has its block mapped first, so that it takes a free block if there was
none.
-/

set_option autoImplicit false

namespace Xv6.Fs

open Library

variable {sb : Superblock} {view view' : UInt32 → Block} {nodes nodes' : Nodes} {inv : Log → Prop} {log : Log}
  {s : Store} {f : UInt32}

def byteAt (view : UInt32 → Block) (addrs : Addrs) (k : Nat) : UInt8 :=
  view (blockAt view addrs (k / bsize)) (Block.index k)

def Mapped (view : UInt32 → Block) (addrs : Addrs) (size : Nat) : Prop :=
  ∀ k, k < size → blockAt view addrs (k / bsize) ≠ 0

/-! ## Offsets -/

structure Turn (n tot off : UInt64) (m : Nat) : Prop where
  length : (chunk n tot off).toNat = m
  some : 0 < m
  rest : m ≤ n.toNat - tot.toNat
  block : off.toNat % bsize + m ≤ bsize

theorem chunk_min {n tot : UInt64} (off : UInt64) (more : tot < n) :
    (chunk n tot off).toNat = min (n.toNat - tot.toNat) (512 - off.toNat % 512) := by
  have less := UInt64.lt_iff_toNat_lt.mp more
  have below : tot ≤ n := UInt64.le_iff_toNat_le.mpr less.le
  have left : (n - tot).toNat = n.toNat - tot.toNat := UInt64.toNat_sub_of_le _ _ below
  have modulo : (off % BSIZE).toNat = off.toNat % 512 := UInt64.toNat_mod off BSIZE
  have inBlock : off.toNat % 512 < 512 := Nat.mod_lt _ (by decide)
  have within : off % BSIZE ≤ BSIZE := by
    rw [UInt64.le_iff_toNat_le, modulo]
    exact inBlock.le
  have room : (BSIZE - off % BSIZE).toNat = 512 - off.toNat % 512 := by
    rw [UInt64.toNat_sub_of_le _ _ within, modulo]
    rfl
  have choice : chunk n tot off = if n - tot ≤ BSIZE - off % BSIZE then n - tot else BSIZE - off % BSIZE := rfl
  rw [choice]
  split
  · next small =>
    rw [UInt64.le_iff_toNat_le, left, room] at small
    omega
  · next large =>
    rw [UInt64.le_iff_toNat_le, left, room] at large
    omega

theorem turn_chunk {n tot : UInt64} (off : UInt64) (more : tot < n) : ∃ m, Turn n tot off m := by
  have less := UInt64.lt_iff_toNat_lt.mp more
  have inBlock : off.toNat % 512 < 512 := Nat.mod_lt _ (by decide)
  refine ⟨_, chunk_min off more, ?_, ?_, ?_⟩
  · omega
  · exact Nat.min_le_left ..
  · change off.toNat % 512 + _ ≤ 512
    omega

namespace Turn

variable {n tot off : UInt64} {m : Nat}

theorem ends (turn : Turn n tot off m) (more : tot < n) :
    m = n.toNat - tot.toNat ∨ off.toNat % bsize + m = bsize := by
  have value := turn.length.symm.trans (chunk_min off more)
  change _ ∨ off.toNat % 512 + m = 512
  omega

theorem toNat_tot (turn : Turn n tot off m) (less : tot < n) : (tot + chunk n tot off).toNat = tot.toNat + m := by
  have less := UInt64.lt_iff_toNat_lt.mp less
  have bound := n.toNat_lt
  have rest := turn.rest
  rw [UInt64.toNat_add, turn.length]
  omega

theorem toNat_off (turn : Turn n tot off m) (inside : off.toNat + m < 2 ^ 64) :
    (off + chunk n tot off).toNat = off.toNat + m := by
  rw [UInt64.toNat_add, turn.length]
  omega

theorem same_block (turn : Turn n tot off m) {k : Nat} (low : off.toNat ≤ k) (high : k < off.toNat + m) :
    k / bsize = off.toNat / bsize := by
  have block := turn.block
  change off.toNat % 512 + m ≤ 512 at block
  change k / 512 = off.toNat / 512
  omega

theorem index (turn : Turn n tot off m) {k : Nat} (low : off.toNat ≤ k) :
    Block.index ((off % BSIZE).toNat + (k - off.toNat)) = Block.index k := by
  have block := turn.block
  have modulo : (off % BSIZE).toNat = off.toNat % 512 := UInt64.toNat_mod off BSIZE
  apply Fin.ext
  change off.toNat % 512 + m ≤ 512 at block
  change ((off % BSIZE).toNat + (k - off.toNat)) % 512 = k % 512
  rw [modulo]
  omega

end Turn

theorem toNat_blockIndex {off : UInt64} (bound : off.toNat / bsize < maxFile) :
    (off / BSIZE).toUInt32.toNat = off.toNat / bsize := by
  have quotient : (off / BSIZE).toNat = off.toNat / 512 := UInt64.toNat_div off BSIZE
  change off.toNat / 512 < 140 at bound
  change _ = off.toNat / 512
  rw [UInt64.toNat_toUInt32, quotient]
  omega

/-! ## Reading -/

theorem slotOf_some {view : UInt32 → Block} {addrs : Addrs} {i : Nat} (mapped : blockAt view addrs i ≠ 0) :
    ∃ k, slotOf i = some k ∧ blockAt view addrs i = refAt view addrs k ∧ k ≠ .indirect := by
  by_cases direct : i < ndirect
  · have slot : slotOf i = some (.direct ⟨i, direct⟩) := dif_pos direct
    exact ⟨_, slot, by rw [blockAt, slot], Slot.noConfusion⟩
  · by_cases inside : i - ndirect < nindirect
    · have slot : slotOf i = some (.entry ⟨i - ndirect, inside⟩) := by
        rw [slotOf, dif_neg direct, dif_pos inside]
      exact ⟨_, slot, by rw [blockAt, slot], Slot.noConfusion⟩
    · exact absurd (by rw [blockAt, slotOf, dif_neg direct, dif_neg inside]) mapped

def Slot.block : Slot → Nat
  | .direct k => k.val
  | .indirect => 0
  | .entry j => ndirect + j.val

theorem Slot.block_slotOf {i : Nat} {k : Slot} (slot : slotOf i = some k) : k.block = i := by
  unfold slotOf at slot
  split at slot
  · cases slot
    rfl
  · next past =>
    split at slot
    · cases slot
      exact Nat.add_sub_of_le (Nat.le_of_not_lt past)
    · cases slot

theorem blockAt_bound {view : UInt32 → Block} {addrs : Addrs} {i : Nat} (mapped : blockAt view addrs i ≠ 0) :
    i < maxFile := by
  have sum : maxFile = ndirect + nindirect := rfl
  by_contra beyond
  have direct : ¬ i < ndirect := by omega
  have inside : ¬ i - ndirect < nindirect := by omega
  exact mapped (by rw [blockAt, slotOf, dif_neg direct, dif_neg inside])

theorem bmap_mapped (log : Log) {ip : Inode} {i : UInt32} (mapped : blockAt s.view ip.addrs i.toNat ≠ 0) :
    (bmap sb log ip i).run Store.handle s = some ((blockAt s.view ip.addrs i.toNat, ip, log), s) := by
  have sum : maxFile = ndirect + nindirect := rfl
  have bound := blockAt_bound mapped
  have stays : ∀ a, ip.addrs a ≠ 0 → (mapAddr sb log ip a).run Store.handle s = some ((ip, log), s) := by
    intro a present
    rw [mapAddr, if_neg present]
    rfl
  by_cases direct : i.toNat < ndirect
  · rw [blockAt_direct direct] at mapped ⊢
    rw [bmap_direct log ip direct]
    simp only [Program.run_bind, stays _ mapped, Option.bind_some, Program.run_pure]
  · have inside : i.toNat - ndirect < nindirect := by omega
    rw [blockAt_entry direct inside] at mapped ⊢
    have present : ip.addrs Inode.indirect ≠ 0 := by
      intro none
      exact mapped (refAt_entry_none none _)
    rw [refAt_entry present] at mapped ⊢
    rw [bmap_entry log ip direct inside]
    simp only [bmapIndirect, mapEntry, Program.run_bind, stays _ present, Option.bind_some, Store.run_bread,
      Store.run_data, if_neg mapped, Program.run_pure, Store.run_brelse]

variable (sb s) in
theorem readLoop_run (n : UInt64) (turns : Nat) (tot off : UInt64) (dst : Nat → UInt8) (ip : MemInode) (log : Log)
    (within : tot ≤ n) (enough : n.toNat - tot.toNat ≤ turns) (wraps : off.toNat + (n.toNat - tot.toNat) < 2 ^ 64)
    (mapped : ∀ k, off.toNat ≤ k → k < off.toNat + (n.toNat - tot.toNat) → blockAt s.view ip.addrs (k / bsize) ≠ 0) :
    (readLoop sb n turns tot off dst ip log).run Store.handle s = some ((fun k =>
      if tot.toNat ≤ k ∧ k < n.toNat then byteAt s.view ip.addrs (off.toNat + (k - tot.toNat)) else dst k,
      ip, log), s) := by
  have finished : ∀ tot : UInt64, ¬ tot < n → ∀ off : UInt64, ∀ dst : Nat → UInt8,
      dst = fun k =>
        if tot.toNat ≤ k ∧ k < n.toNat then byteAt s.view ip.addrs (off.toNat + (k - tot.toNat)) else dst k := by
    intro tot full off dst
    rw [UInt64.lt_iff_toNat_lt] at full
    funext k
    rw [if_neg (by omega)]
  induction turns generalizing tot off dst with
  | zero =>
    have full : ¬ tot < n := by
      rw [UInt64.lt_iff_toNat_lt]
      rw [UInt64.le_iff_toNat_le] at within
      omega
    rw [readLoop, if_neg full, ← finished tot full off dst]
    rfl
  | succ turns ih =>
    by_cases more : tot < n
    · obtain ⟨m, turn⟩ := turn_chunk off more
      have less := UInt64.lt_iff_toNat_lt.mp more
      have rest := turn.rest
      have some := turn.some
      have toNatTot := turn.toNat_tot more
      have toNatOff := turn.toNat_off (by omega)
      have present := mapped off.toNat le_rfl (by omega)
      have index := toNat_blockIndex (blockAt_bound present)
      have maps : (bmap sb log ip.toInode (off / BSIZE).toUInt32).run Store.handle s = _ :=
        bmap_mapped log (by rw [index]; exact present)
      rw [readLoop, if_pos more]
      simp only [Program.run_bind, maps, Option.bind_some, Store.run_bread, Store.run_data, Store.run_brelse, index]
      rw [ih]
      · congr 4
        funext k
        simp only [toNatTot, toNatOff, copyOut, turn.length]
        by_cases inTurn : tot.toNat ≤ k ∧ k < tot.toNat + m
        · have low : off.toNat ≤ off.toNat + (k - tot.toNat) := by omega
          have high : off.toNat + (k - tot.toNat) < off.toNat + m := by omega
          have place := turn.index low
          have block := turn.same_block low high
          rw [if_neg (by omega), if_pos inTurn, if_pos (by omega), byteAt, block, ← place]
          congr 2
          omega
        · by_cases later : tot.toNat + m ≤ k ∧ k < n.toNat
          · rw [if_pos later, if_pos (by omega)]
            congr 1
            omega
          · rw [if_neg later, if_neg inTurn, if_neg (by omega)]
      · rw [UInt64.le_iff_toNat_le, toNatTot]
        omega
      · rw [toNatTot]
        omega
      · rw [toNatTot, toNatOff]
        omega
      · intro k low high
        rw [toNatOff] at low
        rw [toNatTot, toNatOff] at high
        exact mapped k (by omega) (by omega)
    · rw [readLoop, if_neg more, ← finished tot more off dst]
      rfl

/-! ## Writing -/

section
variable {k : Slot} (sound : Sound sb view nodes) (direct : k ≠ .indirect) (filled : refAt view (nodes f) k ≠ 0)
  (d : Block)
include sound direct filled

theorem refAt_write (g : UInt32) (l : Slot) :
    refAt (Function.update view (refAt view (nodes f) k) d) (nodes g) l = refAt view (nodes g) l := by
  refine refAt_congr (fun present => ?_) l
  have other : nodes g Inode.indirect ≠ refAt view (nodes f) k := by
    intro same
    have slots := sound.owns.distinct (f, k) (g, .indirect) filled same.symm
    exact direct (Prod.mk.inj slots).2
  exact Function.update_of_ne other ..

omit direct in
theorem inUse_write {c : UInt32} (inside : Covered sb c) :
    InUse sb (Function.update view (refAt view (nodes f) k) d) c ↔ InUse sb view c := by
  rw [InUse, Function.update_of_ne (sound.bitmap_not_ref inside filled).symm, InUse]

omit direct in
theorem diskInode_write {g : UInt32} (inside : InTable sb g) :
    diskInode sb (Function.update view (refAt view (nodes f) k) d) g = diskInode sb view g := by
  rw [diskInode, Function.update_of_ne (sound.table_not_ref inside filled).symm, diskInode]

theorem Confined.write : Confined sb f view nodes (Function.update view (refAt view (nodes f) k) d) nodes := by
  have refs := refAt_write sound direct filled d
  have marks : ∀ c, Covered sb c → _ := fun c => inUse_write sound filled d (c := c)
  refine ⟨sound.transfer refs marks, fun _ _ => rfl, fun l _ => refs f l, fun g l _ => refs g l, ?_, ?_⟩
  · intro g l other _ real
    have apart : refAt view (nodes g) l ≠ refAt view (nodes f) k := by
      intro same
      have slots := sound.owns.distinct (g, l) (f, k) real same
      exact other (Prod.mk.inj slots).1
    exact Function.update_of_ne apart ..
  · exact fun g inside _ => diskInode_write sound filled d inside

end

theorem freeBlocks_congr (marks : ∀ c, Covered sb c → (InUse sb view' c ↔ InUse sb view c)) :
    freeBlocks sb view' = freeBlocks sb view := by
  ext n
  rw [freeBlocks_mem, freeBlocks_mem]
  refine and_congr_right fun below => not_congr (marks _ (covered_of_lt ?_))
  rw [UInt32.lt_iff_toNat_lt, UInt32.toNat_ofNat_of_lt' (below.trans sb.size.toNat_lt)]
  exact below

-- Enough is left when no reference and no bit of the bitmap has changed.
theorem Enough.congr {wanted : Finset Slot} {addrs addrs' : Addrs} (enough : Enough sb view addrs wanted)
    (refs : ∀ k, refAt view' addrs' k = refAt view addrs k)
    (marks : ∀ c, Covered sb c → (InUse sb view' c ↔ InUse sb view c)) : Enough sb view' addrs' wanted := by
  unfold Enough
  simp only [refs]
  rw [freeBlocks_congr marks]
  exact enough

theorem Enough.write {wanted : Finset Slot} {g : UInt32} (enough : Enough sb view (nodes g) wanted)
    (sound : Sound sb view nodes) {k : Slot} (direct : k ≠ .indirect) (filled : refAt view (nodes f) k ≠ 0)
    (d : Block) :
    Enough sb (Function.update view (refAt view (nodes f) k) d) (nodes g) wanted :=
  enough.congr (refAt_write sound direct filled d g) fun _ covered => inUse_write sound filled d covered

/-- The bytes from `first` to `last` of inode `f` were replaced by those of `src` from `tot` on. -/
structure Wrote (sb : Superblock) (f : UInt32) (src : Nat → UInt8) (first last tot : Nat)
    (view : UInt32 → Block) (nodes : Nodes) (view' : UInt32 → Block) (nodes' : Nodes) : Prop
    extends Confined sb f view nodes view' nodes' where
  node : InTable sb f → diskInode sb view' f = diskInode sb view f
  mapped : ∀ k, first ≤ k → k < last → blockAt view' (nodes' f) (k / bsize) ≠ 0
  new : ∀ k, first ≤ k → k < last → byteAt view' (nodes' f) k = src (tot + (k - first))
  old : ∀ k, k < first ∨ last ≤ k → blockAt view (nodes f) (k / bsize) ≠ 0 →
    byteAt view' (nodes' f) k = byteAt view (nodes f) k

theorem Confined.blockAt (confined : Confined sb f view nodes view' nodes') {i : Nat}
    (mapped : blockAt view (nodes f) i ≠ 0) : blockAt view' (nodes' f) i = Fs.blockAt view (nodes f) i := by
  obtain ⟨k, slot, value, _⟩ := slotOf_some mapped
  have same : Fs.blockAt view' (nodes' f) i = refAt view' (nodes' f) k := by rw [Fs.blockAt, slot]
  rw [same, value]
  exact confined.keeps k (value ▸ mapped)

theorem Sound.blockAt_inj (sound : Sound sb view nodes) {i j : Nat} (mapped : blockAt view (nodes f) i ≠ 0)
    (same : blockAt view (nodes f) i = blockAt view (nodes f) j) : i = j := by
  obtain ⟨k, slot, value, _⟩ := slotOf_some mapped
  obtain ⟨l, slot', value', _⟩ := slotOf_some (same ▸ mapped)
  have slots := sound.owns.distinct (f, k) (f, l) (value ▸ mapped) (value.symm.trans (same.trans value'))
  rw [← Slot.block_slotOf slot, ← Slot.block_slotOf slot', (Prod.mk.inj slots).2]

namespace Wrote

variable {src : Nat → UInt8} {first mid last tot : Nat} {view'' : UInt32 → Block} {nodes'' : Nodes}

theorem refl (sound : Sound sb view nodes) (f : UInt32) (src : Nat → UInt8) (first tot : Nat) :
    Wrote sb f src first first tot view nodes view nodes where
  toConfined := Confined.refl sound f
  node _ := rfl
  mapped k low high := absurd high (by omega)
  new k low high := absurd high (by omega)
  old _ _ _ := rfl

theorem append (turn : Wrote sb f src first mid tot view nodes view' nodes')
    (rest : Wrote sb f src mid last (tot + (mid - first)) view' nodes' view'' nodes'') (left : first ≤ mid)
    (right : mid ≤ last) : Wrote sb f src first last tot view nodes view'' nodes'' where
  toConfined := turn.toConfined.trans rest.toConfined
  node inside := (rest.node inside).trans (turn.node inside)
  mapped k low high := by
    by_cases early : k < mid
    · have mapped := turn.mapped k low early
      rw [rest.toConfined.blockAt mapped]
      exact mapped
    · exact rest.mapped k (by omega) high
  new k low high := by
    by_cases early : k < mid
    · rw [rest.old k (.inl early) (turn.mapped k low early), turn.new k low early]
    · rw [rest.new k (by omega) high]
      congr 1
      omega
  old k outside mapped := by
    have mapped' : blockAt view' (nodes' f) (k / bsize) ≠ 0 := by
      rw [turn.toConfined.blockAt mapped]
      exact mapped
    rw [rest.old k (by omega) mapped', turn.old k (by omega) mapped]

-- `memmove(bp->data + off%BSIZE, src, m)`, after the block was mapped.
theorem turn {n tot off : UInt64} {m : Nat} (turn : Turn n tot off m)
    (grew : Grew sb f view nodes view' nodes') (mapped : blockAt view' (nodes' f) (off.toNat / bsize) ≠ 0) :
    Wrote sb f src off.toNat (off.toNat + m) tot.toNat view nodes
      (Function.update view' (blockAt view' (nodes' f) (off.toNat / bsize))
        (copyIn src (off % BSIZE) (chunk n tot off) tot (view' (blockAt view' (nodes' f) (off.toNat / bsize)))))
      nodes' := by
  obtain ⟨k, slot, value, direct⟩ := slotOf_some mapped
  have filled := value ▸ mapped
  obtain ⟨d, isD⟩ : ∃ d, d = copyIn src (off % BSIZE) (chunk n tot off) tot
    (view' (blockAt view' (nodes' f) (off.toNat / bsize))) := ⟨_, rfl⟩
  rw [← isD]
  have writes : Confined sb f view' nodes'
      (Function.update view' (blockAt view' (nodes' f) (off.toNat / bsize)) d) nodes' := by
    rw [value]
    exact Confined.write grew.sound direct filled d
  have kept : ∀ i, blockAt view' (nodes' f) i ≠ 0 → _ := fun i => writes.blockAt (i := i)
  have inBlock : ∀ k, off.toNat ≤ k → k < off.toNat + m → k / bsize = off.toNat / bsize :=
    fun k low high => turn.same_block low high
  have modulo : (off % BSIZE).toNat = off.toNat % bsize := UInt64.toNat_mod off BSIZE
  refine ⟨grew.toConfined.trans writes, ?_, ?_, ?_, ?_⟩
  · intro inside
    rw [value, diskInode_write grew.sound filled d inside]
    exact grew.node inside
  · intro k low high
    rw [inBlock k low high, kept _ mapped]
    exact mapped
  · intro k low high
    have place := turn.index low
    have index : (Block.index k).val = (off % BSIZE).toNat + (k - off.toNat) := by
      have block := turn.block
      rw [modulo]
      change off.toNat % 512 + m ≤ 512 at block
      change k % 512 = off.toNat % 512 + _
      omega
    rw [byteAt, inBlock k low high, kept _ mapped, Function.update_self, isD, copyIn, index, turn.length,
      if_pos (by omega)]
    congr 1
    omega
  · intro k outside present
    have present' := grew.toConfined.blockAt present
    have unchanged : byteAt view' (nodes' f) k = byteAt view (nodes f) k := by
      obtain ⟨l, _, value, direct⟩ := slotOf_some present
      rw [byteAt, present', byteAt, value, grew.own l direct (value ▸ present)]
    rw [← unchanged, byteAt, kept _ (present' ▸ present), byteAt]
    by_cases same : k / bsize = off.toNat / bsize
    · have elsewhere : ¬ ((off % BSIZE).toNat ≤ (Block.index k).val ∧
          (Block.index k).val < (off % BSIZE).toNat + (chunk n tot off).toNat) := by
        rw [modulo, turn.length]
        change ¬ (off.toNat % 512 ≤ k % 512 ∧ k % 512 < off.toNat % 512 + m)
        change k / 512 = off.toNat / 512 at same
        omega
      rw [same, Function.update_self, isD, copyIn, if_neg elsewhere]
    · have other : blockAt view' (nodes' f) (k / bsize) ≠ blockAt view' (nodes' f) (off.toNat / bsize) :=
        fun equal => same (grew.sound.blockAt_inj (present' ▸ present) equal)
      rw [Function.update_of_ne other]

end Wrote

/-- The slots of the blocks with bytes from `first` to `last`. -/
def slotsBetween (first last : Nat) : Finset Slot :=
  (Finset.Ico (first / bsize) ((last + (bsize - 1)) / bsize)).biUnion slotsOf

theorem slotsOf_subset {first last k : Nat} (low : first ≤ k) (high : k < last) :
    slotsOf (k / bsize) ⊆ slotsBetween first last := by
  refine Finset.subset_biUnion_of_mem slotsOf (Finset.mem_Ico.mpr ⟨Nat.div_le_div_right low, ?_⟩)
  change k / 512 < (last + 511) / 512
  omega

theorem nothing_left {n tot : UInt64} (full : ¬ tot < n) : n.toNat - tot.toNat = 0 := by
  rw [UInt64.lt_iff_toNat_lt] at full
  omega

/-- What the loop of `writei` leaves when it ends, with `left` bytes to go from an offset on. -/
structure LoopEnd (inv : Log → Prop) (sb : Superblock) (f : UInt32) (src : Nat → UInt8) (off left tot : Nat)
    (ip : MemInode) (s : Store) (nodes : Nodes) (last : UInt64) (ip' : MemInode) (log' : Log) (t : Store)
    (nodes' : Nodes) : Prop where
  fields : ip' = { ip with toInode := ip'.toInode }
  store : t = { s with view := t.view }
  ends : last.toNat = off + left
  dev : ip'.dev = ip.dev
  node : nodes' f = ip'.addrs
  wrote : Wrote sb f src off (off + left) tot s.view nodes t.view nodes'
  logged : inv log'
  same : (∀ k, off ≤ k → k < off + left → blockAt s.view ip.addrs (k / bsize) ≠ 0) → ip'.toInode = ip.toInode

section
variable {src : Nat → UInt8} {n tot off last : UInt64} {ip ip' : MemInode} {log' : Log} {t : Store}

theorem LoopEnd.refl (full : ¬ tot < n) (ok : inv log) (sound : Sound sb s.view nodes) (here : nodes f = ip.addrs) :
    LoopEnd inv sb f src off.toNat (n.toNat - tot.toNat) tot.toNat ip s nodes off ip log s nodes := by
  rw [nothing_left full]
  exact ⟨rfl, rfl, rfl, rfl, here, Wrote.refl sound f src _ _, ok, fun _ => rfl⟩

theorem LoopEnd.turn {m : Nat} {b : UInt32} {node : Inode} {view₁ : UInt32 → Block} {nodes₁ : Nodes} {log₁ : Log}
    (turn : Turn n tot off m) (more : tot < n) (room : off.toNat + (n.toNat - tot.toNat) ≤ maxFile * bsize)
    (here : nodes f = ip.addrs) (maps : (bmap sb log ip.toInode (off / BSIZE).toUInt32).run Store.handle s =
      some ((b, node, log₁), { s with view := view₁ }))
    (dev : node.dev = ip.dev) (here₁ : nodes₁ f = node.addrs)
    (wrote : Wrote sb f src off.toNat (off.toNat + m) tot.toNat s.view nodes
      (Function.update view₁ b (copyIn src (off % BSIZE) (chunk n tot off) tot (view₁ b))) nodes₁)
    {nodes' : Nodes}
    (rest : LoopEnd inv sb f src (off + chunk n tot off).toNat (n.toNat - (tot + chunk n tot off).toNat)
      (tot + chunk n tot off).toNat { ip with toInode := node }
      { s with view := Function.update view₁ b (copyIn src (off % BSIZE) (chunk n tot off) tot (view₁ b)) } nodes₁ last
      ip' log' t nodes') :
    LoopEnd inv sb f src off.toNat (n.toNat - tot.toNat) tot.toNat ip s nodes last ip' log' t nodes' := by
  have less := UInt64.lt_iff_toNat_lt.mp more
  have bytes := turn.rest
  have some := turn.some
  have large : maxFile * bsize = 71680 := rfl
  have toNatTot := turn.toNat_tot more
  have toNatOff := turn.toNat_off (by omega)
  have left : n.toNat - (tot + chunk n tot off).toNat = n.toNat - tot.toNat - m := by
    rw [toNatTot]
    omega
  obtain ⟨fields, store, ends, dev', here', wrote', logged, same⟩ := rest
  rw [toNatOff, left] at ends
  rw [toNatOff, left, toNatTot] at wrote'
  have all : off.toNat + (n.toNat - tot.toNat) = off.toNat + m + (n.toNat - tot.toNat - m) := by omega
  refine ⟨fields, store, by omega, dev'.trans dev, here', ?_, logged, ?_⟩
  · rw [all]
    refine wrote.append ?_ (by omega) (by omega)
    have shift : off.toNat + m - off.toNat = m := by omega
    rw [shift]
    exact wrote'
  · intro mapped
    have bound : off.toNat / bsize < maxFile := by
      change off.toNat / 512 < 140
      omega
    have present := mapped off.toNat le_rfl (by omega)
    rw [← toNat_blockIndex bound] at present
    have unchanged := maps.symm.trans (bmap_mapped log present)
    have sameNode : node = ip.toInode := by
      injection unchanged with unchanged
      injection unchanged with reply
      injection reply with _ reply
      injection reply
    refine (same fun k low high => ?_).trans sameNode
    rw [toNatOff] at low
    rw [toNatOff, left] at high
    have before := mapped k (by omega) (by omega)
    rw [← here] at before
    change blockAt _ node.addrs _ ≠ 0
    rw [← here₁, wrote.toConfined.blockAt before]
    exact before

theorem writeLoop_run (admits : Admits inv) {wanted : Finset Slot} (src : Nat → UInt8) (n : UInt64) (turns : Nat)
    (tot off : UInt64) {ip : MemInode} (ready : Ready inv sb f wanted s.view nodes log) (here : nodes f = ip.addrs)
    (within : tot ≤ n) (enough : n.toNat - tot.toNat ≤ turns)
    (room : off.toNat + (n.toNat - tot.toNat) ≤ maxFile * bsize)
    (want : ∀ k, off.toNat ≤ k → k < off.toNat + (n.toNat - tot.toNat) → slotsOf (k / bsize) ⊆ wanted) :
    ∃ last ip' log' t nodes', (writeLoop sb src n turns tot off ip log).run Store.handle s =
      some ((last, ip', log'), t) ∧
      LoopEnd inv sb f src off.toNat (n.toNat - tot.toNat) tot.toNat ip s nodes last ip' log' t nodes' ∧
      Enough sb t.view (nodes' f) wanted := by
  induction turns generalizing tot off ip s nodes log with
  | zero =>
    have full : ¬ tot < n := by
      rw [UInt64.lt_iff_toNat_lt]
      omega
    refine ⟨off, ip, log, s, nodes, ?_, LoopEnd.refl full ready.logged ready.sound here, ready.enough⟩
    rw [writeLoop, if_neg full]
    rfl
  | succ turns ih =>
    by_cases more : tot < n
    · obtain ⟨m, turn⟩ := turn_chunk off more
      have less := UInt64.lt_iff_toNat_lt.mp more
      have rest := turn.rest
      have some := turn.some
      have large : maxFile * bsize = 71680 := rfl
      have toNatTot := turn.toNat_tot more
      have toNatOff := turn.toNat_off (by omega)
      have bound : off.toNat / bsize < maxFile := by
        change off.toNat / 512 < 140
        omega
      have index := toNat_blockIndex bound
      have wants := want off.toNat le_rfl (by omega)
      rw [← index] at bound wants
      obtain ⟨b, node, log₁, view₁, nodes₁, maps, dev, here₁, grew, ready₁, value, real⟩ :=
        bmap_run admits ready here bound wants
      rw [index] at value
      obtain ⟨view₂, isView⟩ : ∃ v,
        v = Function.update view₁ b (copyIn src (off % BSIZE) (chunk n tot off) tot (view₁ b)) := ⟨_, rfl⟩
      have wrote : Wrote sb f src off.toNat (off.toNat + m) tot.toNat s.view nodes view₂ nodes₁ := by
        rw [isView, value]
        exact Wrote.turn turn grew (value ▸ real)
      obtain ⟨log₂, logged, ok⟩ := run_logWrite_store admits ready₁.logged b { s with view := view₂ }
      have ready₂ : Ready inv sb f wanted view₂ nodes₁ log₂ := by
        refine ⟨ok, wrote.sound, ?_⟩
        obtain ⟨k, _, slot, direct⟩ := slotOf_some (value ▸ real)
        rw [isView, value, slot]
        exact ready₁.enough.write ready₁.sound direct (slot ▸ value ▸ real) _
      have left : n.toNat - (tot + chunk n tot off).toNat = n.toNat - tot.toNat - m := by
        rw [toNatTot]
        omega
      have within' : tot + chunk n tot off ≤ n := by
        rw [UInt64.le_iff_toNat_le, toNatTot]
        omega
      have want' : ∀ k, (off + chunk n tot off).toNat ≤ k →
          k < (off + chunk n tot off).toNat + (n.toNat - (tot + chunk n tot off).toNat) →
          slotsOf (k / bsize) ⊆ wanted := by
        intro k low high
        rw [toNatOff] at low
        rw [toNatOff, left] at high
        exact want k (by omega) (by omega)
      obtain ⟨last, ip', log', t, nodes', loops, ended, left'⟩ :=
        @ih nodes₁ log₂ { s with view := view₂ } (tot + chunk n tot off) (off + chunk n tot off)
          { ip with toInode := node } ready₂ here₁ within' (by omega) (by rw [toNatOff, left]; omega) want'
      refine ⟨last, ip', log', t, nodes', ?_, ?_, left'⟩
      · rw [writeLoop, if_pos more]
        simp only [Program.run_bind, maps, Option.bind_some, Store.run_bread, Store.run_data, Store.run_setData,
          Store.run_brelse]
        rw [← isView, logged]
        exact loops
      · rw [isView] at wrote ended
        exact LoopEnd.turn turn more room here maps dev here₁ wrote ended
    · refine ⟨off, ip, log, s, nodes, ?_, LoopEnd.refl more ready.logged ready.sound here, ready.enough⟩
      rw [writeLoop, if_neg more]
      rfl

/-- A loop of `writei` that returns has replaced the bytes from the offset on. -/
theorem writeLoop_end (admits : Admits inv) (turns : Nat) (ok : inv log) (sound : Sound sb s.view nodes)
    (here : nodes f = ip.addrs) (within : tot ≤ n) (room : off.toNat + (n.toNat - tot.toNat) ≤ maxFile * bsize)
    (ran : (writeLoop sb src n turns tot off ip log).run Store.handle s = some ((last, ip', log'), t)) :
    ∃ nodes', LoopEnd inv sb f src off.toNat (n.toNat - tot.toNat) tot.toNat ip s nodes last ip' log' t nodes' := by
  induction turns generalizing tot off ip s nodes log with
  | zero =>
    rw [writeLoop] at ran
    split at ran
    · cases ran
    · next full =>
      cases ran
      exact ⟨nodes, LoopEnd.refl full ok sound here⟩
  | succ turns ih =>
    rw [writeLoop] at ran
    split at ran
    · next more =>
      obtain ⟨m, turn⟩ := turn_chunk off more
      have less := UInt64.lt_iff_toNat_lt.mp more
      have rest := turn.rest
      have some := turn.some
      have large : maxFile * bsize = 71680 := rfl
      have toNatTot := turn.toNat_tot more
      have toNatOff := turn.toNat_off (by omega)
      have bound : off.toNat / bsize < maxFile := by
        change off.toNat / 512 < 140
        omega
      obtain ⟨⟨b, node, log₁⟩, s₁, maps, ran⟩ := Program.run_bind_eq_some.mp ran
      obtain ⟨nodes₁, grown, dev, here₁, value, real⟩ := bmap_grown admits ok sound here maps
      rw [toNat_blockIndex bound] at value
      rw [grown.store] at maps ran
      obtain ⟨log₂, logged, ok₂⟩ := run_logWrite_store admits grown.logged b
        { s with view := Function.update s₁.view b (copyIn src (off % BSIZE) (chunk n tot off) tot (s₁.view b)) }
      simp only [Program.run_bind, Store.run_bread, Option.bind_some, Store.run_data, Store.run_setData, logged,
        Store.run_brelse] at ran
      have wrote : Wrote sb f src off.toNat (off.toNat + m) tot.toNat s.view nodes
          (Function.update s₁.view b (copyIn src (off % BSIZE) (chunk n tot off) tot (s₁.view b))) nodes₁ := by
        rw [value]
        exact Wrote.turn turn grown.toGrew (value ▸ real)
      have within' : tot + chunk n tot off ≤ n := by
        rw [UInt64.le_iff_toNat_le, toNatTot]
        omega
      obtain ⟨nodes', ended⟩ := ih ok₂ wrote.sound here₁ within' (by rw [toNatOff, toNatTot]; omega) ran
      exact ⟨nodes', LoopEnd.turn turn more room here maps dev here₁ wrote ended⟩
    · next full =>
      cases ran
      exact ⟨nodes, LoopEnd.refl full ok sound here⟩

end

/-! ## What the loops leave alone -/

theorem readLoop_fields {n tot off : UInt64} {turns : Nat} {dst dst' : Nat → UInt8} {ip ip' : MemInode} {log' : Log}
    {t : Store} (ran : (readLoop sb n turns tot off dst ip log).run Store.handle s = some ((dst', ip', log'), t)) :
    ip' = { ip with toInode := ip'.toInode } := by
  induction turns generalizing tot off dst ip log s with
  | zero =>
    rw [readLoop] at ran
    split at ran
    · cases ran
    · cases ran
      rfl
  | succ turns ih =>
    rw [readLoop] at ran
    split at ran
    · obtain ⟨⟨b, node, log₁⟩, s₁, _, ran⟩ := Program.run_bind_eq_some.mp ran
      simp only [Program.run_bind, Store.run_bread, Option.bind_some, Store.run_data, Store.run_brelse] at ran
      have fields : ip' = { ({ ip with toInode := node } : MemInode) with toInode := ip'.toInode } := ih ran
      exact fields
    · cases ran
      rfl

theorem writeLoop_fields {src : Nat → UInt8} {n tot off last : UInt64} {turns : Nat} {ip ip' : MemInode} {log' : Log}
    {t : Store} (ran : (writeLoop sb src n turns tot off ip log).run Store.handle s = some ((last, ip', log'), t)) :
    ip' = { ip with toInode := ip'.toInode } := by
  induction turns generalizing tot off ip log s with
  | zero =>
    rw [writeLoop] at ran
    split at ran
    · cases ran
    · cases ran
      rfl
  | succ turns ih =>
    rw [writeLoop] at ran
    split at ran
    · obtain ⟨⟨b, node, log₁⟩, s₁, _, ran⟩ := Program.run_bind_eq_some.mp ran
      simp only [Program.run_bind, Store.run_bread, Option.bind_some, Store.run_data, Store.run_setData,
        Store.run_brelse] at ran
      obtain ⟨⟨log₂, s₂⟩, _, ran⟩ := Option.bind_eq_some_iff.mp ran
      have fields : ip' = { ({ ip with toInode := node } : MemInode) with toInode := ip'.toInode } := ih ran
      exact fields
    · cases ran
      rfl

end Xv6.Fs
