import Xv6.Fs.Allocation
import Xv6.Library.Footprint

/-! The blocks that the functions of `kern/fs.c` pass to `log_write`.

One bitmap block serves a file system of at most `BPB` blocks, so an allocation passes that block
and the one that it returns. The bounds count the blocks that are not known beforehand.
-/

set_option autoImplicit false

namespace Xv6

open Library

-- `log_write` is the only function that asks for the number of a buffer.
def Bio.logged : (Bio UInt32).Request → Store → Finset UInt32
  | .blockno b, _ => {b}
  | _, _ => ∅

namespace Fs

-- Besides the blocks of `M`, the program passes at most `n` blocks to `log_write`.
abbrev Logs {A : Type} (M : Finset UInt32) (n : Nat) (p : Program (Bio UInt32) A) (s : Store)
    (post : A → Store → Finset UInt32 → Prop) : Prop := p.Spends Store.handle Bio.logged M n s post

variable {A : Type} {sb : Superblock} {log : Log} {s t : Store} {M : Finset UInt32} {n : Nat} {dev b : UInt32}
  {post : A → Store → Finset UInt32 → Prop}

theorem silent (M : Finset UInt32) : (∅ : Finset UInt32) ⊆ M := Finset.empty_subset M

theorem logs_fault : Logs M n (Bio.fault : Program (Bio UInt32) A) s post := Program.spends_stuck (silent M) rfl

theorem logs_inBounds {computed : Option A} (holds : ∀ a, computed = some a → post a s M) :
    Logs M n (Log.inBounds computed) s post := by
  cases computed with
  | some value => exact Program.spends_pure (holds value rfl)
  | none => exact logs_fault

theorem logs_logWrite (known : b ∈ M) : Logs M n (log.logWrite b) s fun _ t _ => t = s := by
  have recorded : Logs M 0 (Log.inBounds (log.lh.record b)) s fun _ t _ => t = s := logs_inBounds fun _ _ => rfl
  refine Program.spends_then (Finset.singleton_subset_iff.mpr known) rfl (recorded.seq fun lh u M' _ _ same => ?_)
  refine Program.spends_then (silent M') rfl (Program.spends_pure ?_)
  exact same

theorem logs_bzero (known : b ∈ M) : Logs M n (bzero log dev b) s fun _ _ _ => True := by
  refine Program.spends_then (silent M) rfl (Program.spends_then (silent M) rfl ?_)
  refine Program.Spends.seq (logs_logWrite known) fun log' u M' _ _ _ => ?_
  exact Program.spends_then (silent M') rfl (Program.spends_pure trivial)

/-! ## Allocation -/

section
variable (small : sb.size.toNat ≤ bpb)
include small

theorem bblock_small (covered : Covered sb b) : bblock b sb = sb.bmapstart := by
  have below : b.toNat < (sb.size.toNat + 4095) / 4096 * 4096 := covered
  have size : sb.size.toNat ≤ 4096 := small
  have first : b / UInt32.ofNat bpb = 0 := by
    apply UInt32.toNat_inj.mp
    rw [UInt32.toNat_div]
    change b.toNat / 4096 = 0
    omega
  rw [bblock, first, UInt32.zero_add]

variable (bitmap : sb.bmapstart ∈ M)
include bitmap

theorem logs_balloc : Logs M 1 (balloc sb log dev) s fun out _ M' => out.1 ∈ M' := by
  have size : sb.size.toNat ≤ 4096 := small
  have once : (sb.size.toNat + (bpb - 1)) / bpb = 0 ∨ (sb.size.toNat + (bpb - 1)) / bpb = 1 := by
    change (sb.size.toNat + 4095) / 4096 = 0 ∨ (sb.size.toNat + 4095) / 4096 = 1
    omega
  unfold balloc
  rcases once with none | one
  · rw [none]
    exact logs_fault
  · rw [one]
    refine Program.spends_then (silent M) rfl (Program.spends_then (silent M) rfl ?_)
    have first : bblock 0 sb = sb.bmapstart := UInt32.zero_add _
    cases (s.view (bblock 0 sb)).firstFree with
    | none => exact Program.spends_then (silent M) rfl logs_fault
    | some j =>
      have paid : Logs (M ∪ {0 + UInt32.ofNat j}) 0 (do
          Bio.setData (bblock 0 sb) ((s.view (bblock 0 sb)).setBit j)
          let log ← log.logWrite (bblock 0 sb)
          Bio.brelse (bblock 0 sb)
          let log ← bzero log dev (0 + UInt32.ofNat j)
          return (0 + UInt32.ofNat j, log)) s fun out _ M' => out.1 ∈ M' := by
        have mapKnown : bblock 0 sb ∈ M ∪ {0 + UInt32.ofNat j} := Finset.mem_union_left _ (first ▸ bitmap)
        have blockKnown : 0 + UInt32.ofNat j ∈ M ∪ {0 + UInt32.ofNat j} :=
          Finset.mem_union_right _ (Finset.mem_singleton_self _)
        refine Program.spends_then (silent _) rfl ?_
        refine Program.Spends.seq (logs_logWrite mapKnown) fun log₁ u M₁ grows₁ _ _ => ?_
        refine Program.spends_then (silent M₁) rfl ?_
        refine Program.Spends.seq (logs_bzero (grows₁ blockKnown)) fun log₂ v M₂ grows₂ _ _ => ?_
        exact Program.spends_pure (grows₂ (grows₁ blockKnown))
      exact paid.extend

theorem logs_mapAddr {ip : Inode} {k : Fin (ndirect + 1)} :
    Logs M 1 (mapAddr sb log ip k) s fun out _ M' => out.1.addrs k ∈ M' := by
  unfold mapAddr
  split
  · refine Program.Spends.bind (m := 0) (logs_balloc small bitmap) fun out u M' _ _ known => ?_
    refine Program.spends_pure ?_
    change Function.update ip.addrs k out.1 k ∈ M'
    rwa [Function.update_self]
  · refine Program.Spends.extend (N := {ip.addrs k}) (n := 0) (Program.spends_pure ?_)
    exact Finset.mem_union_right _ (Finset.mem_singleton_self _)

theorem logs_mapEntry {bf : UInt32} {j : Fin nindirect} :
    Logs M 1 (mapEntry sb log dev bf j) s fun _ t M' => (t.view bf).word j ∈ M' := by
  refine Program.spends_then (silent M) rfl ?_
  split
  · refine Program.Spends.bind (m := 0) (logs_balloc small bitmap) fun out u M' _ _ known => ?_
    refine Program.spends_then (silent M') rfl (Program.spends_then (silent M') rfl (Program.spends_pure ?_))
    change (Function.update u.view bf ((u.view bf).setWord j out.1) bf).word j ∈ M'
    rwa [Function.update_self, Block.word_setWord_self]
  · refine Program.Spends.extend (N := {(s.view bf).word j}) (n := 0) (Program.spends_pure ?_)
    exact Finset.mem_union_right _ (Finset.mem_singleton_self _)

theorem logs_bmap {ip : Inode} {i : UInt32} : Logs M 2 (bmap sb log ip i) s fun out _ M' => out.1 ∈ M' := by
  unfold bmap
  split
  · refine Program.Spends.bind (m := 1) (logs_mapAddr small bitmap) fun out u M' _ _ known => ?_
    exact Program.spends_pure known
  · dsimp only
    split
    · refine Program.Spends.bind (m := 1) (logs_mapAddr small bitmap) fun out u M₁ grows₁ _ _ => ?_
      refine Program.spends_then (silent M₁) rfl ?_
      refine Program.Spends.bind (m := 0) (logs_mapEntry small (grows₁ bitmap)) fun log' v M₂ _ _ known => ?_
      refine Program.spends_then (silent M₂) rfl (Program.spends_then (silent M₂) rfl ?_)
      exact Program.spends_pure known
    · exact logs_fault

end

/-! ## Writing -/

theorem logs_iupdate {ip : MemInode} (known : iblock ip.inum sb ∈ M) :
    Logs M n (iupdate sb log ip) s fun _ _ _ => True := by
  refine Program.spends_then (silent M) rfl (Program.spends_then (silent M) rfl
    (Program.spends_then (silent M) rfl ?_))
  refine Program.Spends.seq (logs_logWrite known) fun log' u M' _ _ _ => ?_
  exact Program.spends_then (silent M') rfl (Program.spends_pure trivial)

def blocksFrom (off left : Nat) : Nat := if left = 0 then 0 else (off % bsize + left + (bsize - 1)) / bsize

theorem blocksFrom_le {off left : Nat} (short : left ≤ 1536) : blocksFrom off left ≤ 4 := by
  unfold blocksFrom
  split
  · omega
  · change (off % 512 + left + 511) / 512 ≤ 4
    omega

theorem blocksFrom_turn {off left m : Nat} (some : 0 < m) (rest : m ≤ left) (block : off % bsize + m ≤ bsize)
    (ends : m = left ∨ off % bsize + m = bsize) : blocksFrom off left = 1 + blocksFrom (off + m) (left - m) := by
  have present : left ≠ 0 := by omega
  change off % 512 + m ≤ 512 at block
  change m = left ∨ off % 512 + m = 512 at ends
  unfold blocksFrom
  rw [if_neg present]
  change (off % 512 + left + 511) / 512 = 1 + if left - m = 0 then 0 else ((off + m) % 512 + (left - m) + 511) / 512
  rcases ends with rfl | full
  · rw [if_pos (Nat.sub_self m)]
    omega
  · split
    · omega
    · omega

section
variable (small : sb.size.toNat ≤ bpb)
include small

theorem logs_writeLoop (src : Nat → UInt8) (n : UInt64) (turns : Nat) (tot off : UInt64) (ip : MemInode) (log : Log)
    (s : Store) {M : Finset UInt32} (bitmap : sb.bmapstart ∈ M) :
    Logs M (2 * blocksFrom off.toNat (n.toNat - tot.toNat)) (writeLoop sb src n turns tot off ip log) s
      fun _ _ _ => True := by
  induction turns generalizing tot off ip log s M with
  | zero =>
    unfold writeLoop
    split
    · exact logs_fault
    · exact Program.spends_pure trivial
  | succ turns ih =>
    unfold writeLoop
    split
    · next more =>
      obtain ⟨m, turn⟩ := turn_chunk off more
      have less := UInt64.lt_iff_toNat_lt.mp more
      have toNatTot := turn.toNat_tot more
      have toNatOff : (off + chunk n tot off).toNat % 512 = (off.toNat + m) % 512 := by
        rw [UInt64.toNat_add, turn.length]
        omega
      have blocks : blocksFrom off.toNat (n.toNat - tot.toNat) =
          1 + blocksFrom (off + chunk n tot off).toNat (n.toNat - (tot + chunk n tot off).toNat) := by
        rw [blocksFrom_turn turn.some turn.rest turn.block (turn.ends more), toNatTot, Nat.sub_add_eq]
        unfold blocksFrom
        change _ = 1 + if _ then 0 else ((off + chunk n tot off).toNat % 512 + _ + _) / _
        rw [toNatOff]
      rw [blocks, Nat.mul_add]
      refine Program.Spends.bind (logs_bmap small bitmap) fun out u M₁ grows _ known => ?_
      refine Program.spends_then (silent M₁) rfl ?_
      refine Program.spends_then (silent M₁) rfl (Program.spends_then (silent M₁) rfl ?_)
      refine Program.Spends.seq (logs_logWrite known) fun log' v M₂ grows₂ _ _ => ?_
      exact Program.spends_then (silent M₂) rfl (ih _ _ _ _ _ (grows₂ (grows bitmap)))
    · exact Program.spends_pure trivial

theorem logs_writei (devsw : Fin ndev → Devsw UInt32) {ip : MemInode} {src : Nat → UInt8} {off n : UInt64}
    (notDev : ip.type ≠ T_DEV) (bitmap : sb.bmapstart ∈ M) (inode : iblock ip.inum sb ∈ M) :
    Logs M (2 * blocksFrom off.toNat n.toNat) (writei sb devsw log ip src off n) s fun _ _ _ => True := by
  rcases writei_cases sb log devsw src notDev with ⟨_, same⟩ | ⟨_, same⟩
  · rw [same]
    exact Program.spends_pure trivial
  · rw [same]
    refine Program.Spends.bind (m := 0) (logs_writeLoop small src n n.toNat 0 off ip log s bitmap)
      fun out u M' grows ran _ => ?_
    have inum : out.2.1.inum = ip.inum := by rw [writeLoop_fields ran]
    dsimp only
    split
    · refine Program.Spends.bind (m := 0) (logs_iupdate (grows ?_)) fun _ _ _ _ _ _ => Program.spends_pure trivial
      change iblock out.2.1.inum sb ∈ M
      rwa [inum]
    · exact Program.spends_pure trivial

end

/-! ## Reading -/

theorem logs_bmap_mapped {ip : Inode} {i : UInt32} (mapped : blockAt s.view ip.addrs i.toNat ≠ 0) :
    Logs M n (bmap sb log ip i) s fun _ _ _ => True := by
  have sum : maxFile = ndirect + nindirect := rfl
  have bound := blockAt_bound mapped
  by_cases direct : i.toNat < ndirect
  · rw [blockAt_direct direct] at mapped
    rw [bmap_direct log ip direct, mapAddr, if_neg mapped]
    exact Program.spends_pure trivial
  · have inside : i.toNat - ndirect < nindirect := by omega
    rw [blockAt_entry direct inside] at mapped
    have present : ip.addrs Inode.indirect ≠ 0 := by
      intro none
      exact mapped (refAt_entry_none none _)
    rw [refAt_entry present] at mapped
    have entry : Logs M 0 (mapEntry sb log ip.dev (ip.addrs Inode.indirect) ⟨i.toNat - ndirect, inside⟩) s
        fun _ _ _ => True := by
      refine Program.spends_then (silent M) rfl ?_
      rw [if_neg mapped]
      exact Program.spends_pure trivial
    rw [bmap_entry log ip direct inside, bmapIndirect, mapAddr, if_neg present]
    refine Program.spends_then (silent M) rfl (entry.seq fun _ _ M' _ _ _ => ?_)
    exact Program.spends_then (silent M') rfl (Program.spends_then (silent M') rfl (Program.spends_pure trivial))

theorem logs_readLoop (n : UInt64) (turns : Nat) (tot off : UInt64) (dst : Nat → UInt8) (ip : MemInode) (log : Log)
    (within : tot ≤ n) (wraps : off.toNat + (n.toNat - tot.toNat) < 2 ^ 64)
    (mapped : ∀ k, off.toNat ≤ k → k < off.toNat + (n.toNat - tot.toNat) → blockAt s.view ip.addrs (k / bsize) ≠ 0) :
    Logs M 0 (readLoop sb n turns tot off dst ip log) s fun _ _ _ => True := by
  induction turns generalizing tot off dst M with
  | zero =>
    unfold readLoop
    split
    · exact logs_fault
    · exact Program.spends_pure trivial
  | succ turns ih =>
    unfold readLoop
    split
    · next more =>
      obtain ⟨m, turn⟩ := turn_chunk off more
      have less := UInt64.lt_iff_toNat_lt.mp more
      have rest := turn.rest
      have toNatTot := turn.toNat_tot more
      have toNatOff := turn.toNat_off (by omega)
      have present := mapped off.toNat le_rfl (by omega)
      have index := toNat_blockIndex (blockAt_bound present)
      rw [← index] at present
      refine Program.Spends.seq (logs_bmap_mapped (n := 0) present) fun out u M' _ ran _ => ?_
      cases (bmap_mapped log present).symm.trans ran
      refine Program.spends_then (silent M') rfl (Program.spends_then (silent M') rfl ?_)
      refine Program.spends_then (silent M') rfl ?_
      refine ih _ _ _ ?_ ?_ ?_
      · rw [UInt64.le_iff_toNat_le, toNatTot]
        omega
      · rw [toNatTot, toNatOff]
        omega
      · intro k low high
        rw [toNatOff] at low
        rw [toNatTot, toNatOff] at high
        exact mapped k (by omega) (by omega)
    · exact Program.spends_pure trivial

theorem logs_readi (devsw : Fin ndev → Devsw UInt32) {ip : MemInode} {dst : Nat → UInt8} {off m : UInt64}
    (notDev : ip.type ≠ T_DEV) (mapped : Mapped s.view ip.addrs ip.size.toNat) :
    Logs M 0 (readi sb devsw log ip dst off m) s fun _ _ _ => True := by
  rw [readi, if_neg notDev]
  split
  · exact Program.spends_pure trivial
  · next accepted =>
    rw [range_refused, not_not] at accepted
    have length := toNat_readable accepted.1 accepted.2
    have size := ip.size.toNat_lt
    refine Program.Spends.seq (logs_readLoop _ _ 0 off dst ip log (UInt64.le_iff_toNat_le.mpr (Nat.zero_le _)) ?_ ?_)
      fun _ _ _ _ _ _ => Program.spends_pure trivial
    · rw [length]
      change off.toNat + (_ - 0) < _
      omega
    · intro k low high
      rw [length] at high
      change k < off.toNat + (_ - 0) at high
      exact mapped k (by omega)

/-! ## Inodes -/

theorem logs_ilock (c : Icache) (i : Fin ninode) : Logs M n (ilock sb c i) s fun _ _ _ => True := by
  unfold ilock
  split
  · exact logs_fault
  · split
    · exact Program.spends_pure trivial
    · refine Program.spends_then (silent M) rfl (Program.spends_then (silent M) rfl ?_)
      exact Program.spends_then (silent M) rfl (Program.spends_pure trivial)

theorem logs_iallocFrom {type : UInt16} {turns : Nat} {i : UInt32} (aligned : i.toNat % ipb = 0) :
    Logs M 1 (iallocFrom sb log dev type turns i) s fun out _ M' => iblock out.1 sb ∈ M' := by
  induction turns generalizing i M with
  | zero => exact logs_fault
  | succ turns ih =>
    refine Program.spends_then (silent M) rfl (Program.spends_then (silent M) rfl ?_)
    cases (s.view (iblock i sb)).freeInode with
    | some j =>
      have paid : Logs (M ∪ {iblock i sb}) 0 (do
          Bio.setData (iblock i sb) ((s.view (iblock i sb)).setDinode j (.ofType type))
          let log ← log.logWrite (iblock i sb)
          Bio.brelse (iblock i sb)
          return (i + UInt32.ofNat j, log)) s fun out _ M' => iblock out.1 sb ∈ M' := by
        have known : iblock i sb ∈ M ∪ {iblock i sb} := Finset.mem_union_right _ (Finset.mem_singleton_self _)
        refine Program.spends_then (silent _) rfl ?_
        refine Program.Spends.seq (logs_logWrite known) fun log₁ u M₁ grows _ _ => ?_
        refine Program.spends_then (silent M₁) rfl (Program.spends_pure ?_)
        change iblock (i + UInt32.ofNat j) sb ∈ M₁
        rw [(iblock_add aligned j).2.1]
        exact grows known
      exact paid.extend
    | none =>
      refine Program.spends_then (silent M) rfl (ih ?_)
      have starts : i.toNat % 8 = 0 := aligned
      rw [UInt32.toNat_add]
      change (i.toNat + 8) % 2 ^ 32 % 8 = 0
      omega

theorem logs_ialloc {c : Icache} {type : UInt16} :
    Logs M 1 (ialloc sb c log dev type) s fun out _ M' => iblock (out.2.1 out.1).inum sb ∈ M' := by
  refine Program.Spends.bind (m := 0) (logs_iallocFrom (i := 0) rfl) fun out u M' _ _ known => ?_
  dsimp only
  split
  · next got =>
    refine Program.spends_pure ?_
    rw [iget_inum got]
    exact known
  · exact logs_fault

theorem logs_iput_kept {c : Icache} {i : Fin ninode}
    (kept : ¬ ((c i).ref = 1 ∧ (c i).valid = true ∧ (c i).nlink = 0)) :
    Logs M n (iput sb c log i) s fun _ _ _ => True := by
  rw [iput, if_neg kept]
  exact Program.spends_pure trivial

/-! ## Truncation -/

theorem logs_bfree (known : bblock b sb ∈ M) :
    Logs M n (bfree sb log dev b) s fun _ t _ => ∀ x, x ≠ bblock b sb → t.view x = s.view x := by
  refine Program.spends_then (silent M) rfl (Program.spends_then (silent M) rfl ?_)
  split
  · refine Program.spends_then (silent M) rfl ?_
    refine Program.Spends.seq (logs_logWrite known) fun log' u M' _ _ same => ?_
    refine Program.spends_then (silent M') rfl (Program.spends_pure fun x other => ?_)
    rw [same]
    exact Function.update_of_ne other ..
  · exact logs_fault

theorem itrunc_ip {ip ip' : MemInode} {log' : Log}
    (ran : (itrunc sb log ip).run Store.handle s = some ((ip', log'), t)) : ip' = { ip with size := 0 } := by
  have yields : (itrunc sb log ip : Program (Bio UInt32) _).Yields fun out => out.1 = { ip with size := 0 } :=
    Program.yields_then fun _ => Program.yields_then fun _ => Program.yields_then fun _ => rfl
  exact yields.returned ran

section
variable {ip : MemInode} (bitmap : sb.bmapstart ∈ M)
  (mapped : ∀ k, refAt s.view ip.addrs k ≠ 0 → bblock (refAt s.view ip.addrs k) sb = sb.bmapstart)
include bitmap mapped

/-- A turn of the loops of `itrunc`, when the other blocks are what they were. -/
theorem logs_freeRef {u : Store} {k : Slot} (same : ∀ x, x ≠ sb.bmapstart → u.view x = s.view x) :
    Logs M n (freeRef sb log dev (refAt s.view ip.addrs k)) u
      fun _ t _ => ∀ x, x ≠ sb.bmapstart → t.view x = s.view x := by
  unfold freeRef
  split
  · exact Program.spends_pure same
  · next filled =>
    have block := mapped k filled
    refine (logs_bfree (n := n) (block ▸ bitmap)).mono le_rfl fun _ t _ _ _ kept x other => ?_
    rw [kept x (block ▸ other), same x other]

theorem logs_itrunc (apart : ip.addrs Inode.indirect ≠ 0 → ip.addrs Inode.indirect ≠ sb.bmapstart)
    (inode : iblock ip.inum sb ∈ M) : Logs M 0 (itrunc sb log ip) s fun _ _ _ => True := by
  have direct : Logs M 0 ((List.finRange ndirect).foldlM
    (fun log k => freeRef sb log ip.dev (ip.addrs k.castSucc)) log) s
      fun _ t _ => ∀ x, x ≠ sb.bmapstart → t.view x = s.view x :=
    Program.spends_foldlM (fun _ t => ∀ x, x ≠ sb.bmapstart → Store.view t x = s.view x) _ (fun _ _ => rfl)
      fun k log u same => logs_freeRef (k := .direct k) bitmap mapped same
  refine direct.seq fun log₁ t M₁ grows₁ _ same => ?_
  have indirect : Logs M₁ 0 (truncIndirect sb log₁ ip) t fun _ _ _ => True := by
    unfold truncIndirect
    split
    · exact Program.spends_pure trivial
    · next present =>
      have loop : Logs M₁ 0 ((List.finRange nindirect).foldlM (fun log j => do
          freeRef sb log ip.dev ((← Bio.data (ip.addrs Inode.indirect)).word j)) log₁) t
          fun _ u _ => ∀ x, x ≠ sb.bmapstart → u.view x = s.view x := by
        refine Program.spends_foldlM (fun _ u => ∀ x, x ≠ sb.bmapstart → Store.view u x = s.view x) _ same
          fun j log u same => Program.spends_then (silent M₁) rfl ?_
        have turn : Logs M₁ 0 (freeRef sb log ip.dev (refAt s.view ip.addrs (.entry j))) u
            fun _ v _ => ∀ x, x ≠ sb.bmapstart → v.view x = s.view x := logs_freeRef (grows₁ bitmap) mapped same
        rw [refAt_entry present, ← same _ (apart present)] at turn
        exact turn
      refine Program.spends_then (silent M₁) rfl (loop.seq fun log₂ u M₂ grows₂ _ _ => ?_)
      refine Program.spends_then (silent M₂) rfl ?_
      have block : bblock (ip.addrs Inode.indirect) sb = sb.bmapstart := mapped .indirect present
      refine (logs_bfree (n := 0) ?_).mono le_rfl fun _ _ _ _ _ _ => trivial
      rw [block]
      exact grows₂ (grows₁ bitmap)
  refine indirect.seq fun log₂ u M₂ grows₂ _ _ => ?_
  exact Program.Spends.seq (logs_iupdate (grows₂ (grows₁ inode))) fun _ _ _ _ _ _ => Program.spends_pure trivial

end

-- `iput` passes the bitmap block and the inode, if it frees the inode.
theorem logs_iput {c : Icache} {i : Fin ninode} (bitmap : sb.bmapstart ∈ M) (inode : iblock (c i).inum sb ∈ M)
    (mapped : ∀ k, refAt s.view (c i).addrs k ≠ 0 → bblock (refAt s.view (c i).addrs k) sb = sb.bmapstart)
    (apart : (c i).addrs Inode.indirect ≠ 0 → (c i).addrs Inode.indirect ≠ sb.bmapstart) :
    Logs M 0 (iput sb c log i) s fun _ _ _ => True := by
  unfold iput
  split
  · split
    · exact logs_fault
    · refine Program.Spends.seq (logs_itrunc bitmap mapped apart inode) fun out u M' grows ran _ => ?_
      have inum : out.1.inum = (c i).inum := by rw [itrunc_ip ran]
      refine Program.Spends.seq (logs_iupdate (n := 0) ?_) fun _ _ _ _ _ _ => Program.spends_pure trivial
      change iblock out.1.inum sb ∈ M'
      rw [inum]
      exact grows inode
  · exact Program.spends_pure trivial

end Fs

end Xv6
