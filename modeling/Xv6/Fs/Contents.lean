import Xv6.Fs.Transfer

/-! The contents of a file as a vector of bytes: what `readi` and `writei` do to it.

`writei` copies the fields of the inode to the disk when the file has grown. This is the
only write to the inode table; everything else goes to blocks that the inode owns.
-/

set_option autoImplicit false

namespace Xv6.Fs

open Library

variable {sb : Superblock} {view view' : UInt32 → Block} {nodes nodes' : Nodes} {inv : Log → Prop} {log : Log}
  {s : Store} {f : UInt32}

/-! ## The inode on the disk -/

-- `iupdate` of inode `f` with the given fields.
def putInode (sb : Superblock) (view : UInt32 → Block) (f : UInt32) (x : Dinode) : UInt32 → Block :=
  Function.update view (iblock f sb) ((view (iblock f sb)).setDinode (inodeIndex f) x)

variable (sb) in
theorem iupdate_run (admits : Admits inv) (ok : inv log) (ip : MemInode) (s : Store) :
    ∃ log', (iupdate sb log ip).run Store.handle s =
      some (log', { s with view := putInode sb s.view ip.inum ip.dinode }) ∧ inv log' := by
  obtain ⟨log', logged, ok'⟩ := run_logWrite_store admits ok (iblock ip.inum sb)
    { s with view := putInode sb s.view ip.inum ip.dinode }
  refine ⟨log', ?_, ok'⟩
  simp only [iupdate, Program.run_bind, Store.run_bread, Option.bind_some, Store.run_data, Store.run_setData]
  rw [putInode] at logged ⊢
  rw [logged]
  rfl

theorem diskInode_putInode_self (x : Dinode) : diskInode sb (putInode sb view f x) f = x := by
  rw [diskInode, putInode, Function.update_self, Block.dinode_setDinode_self]

theorem diskInode_putInode_of_ne {g : UInt32} (other : g ≠ f) (x : Dinode) :
    diskInode sb (putInode sb view f x) g = diskInode sb view g := by
  by_cases sameBlock : iblock g sb = iblock f sb
  · have otherIndex : inodeIndex g ≠ inodeIndex f := by
      intro sameIndex
      have quotient : g / UInt32.ofNat ipb = f / UInt32.ofNat ipb := by
        have same := sameBlock
        simp only [iblock] at same
        simpa using same
      have quotient := congrArg UInt32.toNat quotient
      have remainder := congrArg Fin.val sameIndex
      rw [UInt32.toNat_div, UInt32.toNat_div] at quotient
      change g.toNat / 8 = f.toNat / 8 at quotient
      change g.toNat % 8 = f.toNat % 8 at remainder
      exact other (UInt32.toNat_inj.mp (by omega))
    rw [diskInode, diskInode, putInode, sameBlock, Function.update_self, Block.dinode_setDinode_of_ne _ otherIndex]
  · rw [diskInode, diskInode, putInode, Function.update_of_ne sameBlock]

section
variable (sound : Sound sb view nodes) (inside : InTable sb f) (x : Dinode)
include sound inside

theorem putInode_ref {g : UInt32} {k : Slot} (filled : refAt view (nodes g) k ≠ 0) :
    putInode sb view f x (refAt view (nodes g) k) = view (refAt view (nodes g) k) :=
  Function.update_of_ne (sound.table_not_ref inside filled) ..

theorem refAt_putInode (g : UInt32) (l : Slot) :
    refAt (putInode sb view f x) (nodes g) l = refAt view (nodes g) l := by
  exact refAt_congr (fun present => putInode_ref sound inside x (k := .indirect) present) l

theorem inUse_putInode {c : UInt32} (covered : Covered sb c) :
    InUse sb (putInode sb view f x) c ↔ InUse sb view c := by
  rw [InUse, putInode, Function.update_of_ne (sound.apart f c inside covered).symm, InUse]

theorem Confined.putInode : Confined sb f view nodes (putInode sb view f x) nodes := by
  have refs := refAt_putInode sound inside x
  have marks : ∀ c, Covered sb c → _ := fun c => inUse_putInode sound inside x (c := c)
  refine ⟨sound.transfer refs marks, fun _ _ => rfl, fun l _ => refs f l, fun g l _ => refs g l, ?_, ?_⟩
  · exact fun g l _ _ real => putInode_ref sound inside x real
  · exact fun g _ other => diskInode_putInode_of_ne other x

theorem blockAt_putInode (g : UInt32) (i : Nat) :
    blockAt (putInode sb view f x) (nodes g) i = blockAt view (nodes g) i := by
  unfold blockAt
  cases slotOf i with
  | none => rfl
  | some k => exact refAt_putInode sound inside x g k

theorem byteAt_putInode {g : UInt32} {k : Nat} (mapped : blockAt view (nodes g) (k / bsize) ≠ 0) :
    byteAt (putInode sb view f x) (nodes g) k = byteAt view (nodes g) k := by
  obtain ⟨l, _, value, _⟩ := slotOf_some mapped
  rw [byteAt, byteAt, blockAt_putInode sound inside x, value, putInode_ref sound inside x (value ▸ mapped)]

end

/-! ## readi and writei -/

/-- The inode `ip` has become `ip'`: the bytes from `off` on were replaced by `n` bytes of `src`. -/
structure Updated (sb : Superblock) (src : Nat → UInt8) (off n : Nat) (ip ip' : MemInode)
    (view : UInt32 → Block) (nodes : Nodes) (view' : UInt32 → Block) (nodes' : Nodes) : Prop
    extends Confined sb ip.inum view nodes view' nodes' where
  fields : ip' = { ip with addrs := ip'.addrs, size := ip'.size }
  node : nodes' ip.inum = ip'.addrs
  size : ip'.size.toNat = max ip.size.toNat (off + n)
  mapped : Mapped view' ip'.addrs ip'.size.toNat
  bytes : ∀ k, k < ip'.size.toNat →
    byteAt view' ip'.addrs k = if off ≤ k ∧ k < off + n then src (k - off) else byteAt view ip.addrs k
  -- the copy on the disk follows the copy in memory
  disk : diskInode sb view ip.inum = ip.dinode → diskInode sb view' ip.inum = ip'.dinode

theorem Confined.blockAt_other (confined : Confined sb f view nodes view' nodes') {g : UInt32} (other : g ≠ f)
    (i : Nat) : Fs.blockAt view' (nodes' g) i = Fs.blockAt view (nodes g) i := by
  unfold Fs.blockAt
  cases slotOf i with
  | none => rfl
  | some k => exact confined.others g k other

theorem Confined.byteAt_other (confined : Confined sb f view nodes view' nodes') {g : UInt32} (other : g ≠ f)
    {k : Nat} (mapped : Fs.blockAt view (nodes g) (k / bsize) ≠ 0) :
    byteAt view' (nodes' g) k = byteAt view (nodes g) k := by
  obtain ⟨l, _, value, direct⟩ := slotOf_some mapped
  rw [byteAt, byteAt, confined.blockAt_other other, value, confined.data g l other direct (value ▸ mapped)]

theorem Wrote.contents {src : Nat → UInt8} {off n size : Nat}
    (wrote : Wrote sb f src off (off + n) 0 view nodes view' nodes') (mapped : Mapped view (nodes f) size)
    (start : off ≤ size) : ∀ k, k < max size (off + n) → Fs.blockAt view' (nodes' f) (k / bsize) ≠ 0 ∧
      byteAt view' (nodes' f) k = if off ≤ k ∧ k < off + n then src (k - off) else byteAt view (nodes f) k := by
  intro k inside
  by_cases replaced : off ≤ k ∧ k < off + n
  · rw [if_pos replaced, wrote.new k replaced.1 replaced.2, Nat.zero_add]
    exact ⟨wrote.mapped k replaced.1 replaced.2, rfl⟩
  · have present := mapped k (by omega)
    rw [if_neg replaced, wrote.old k (by omega) present, wrote.toConfined.blockAt present]
    exact ⟨present, rfl⟩

section
variable {devsw : Fin ndev → Devsw UInt32} {ip : MemInode} {src dst : Nat → UInt8} {off n : UInt64}

theorem range_refused (size : UInt32) : off > size.toUInt64 ∨ off + n < off ↔
    ¬ (off.toNat ≤ size.toNat ∧ off.toNat + n.toNat < 2 ^ 64) := by
  have low := off.toNat_lt
  have high := n.toNat_lt
  have large : off > size.toUInt64 ↔ size.toNat < off.toNat := UInt64.lt_iff_toNat_lt
  rw [large, UInt64.lt_iff_toNat_lt, UInt64.toNat_add]
  omega

theorem toNat_end (wraps : off.toNat + n.toNat < 2 ^ 64) : (off + n).toNat = off.toNat + n.toNat := by
  rw [UInt64.toNat_add]
  omega

theorem room_refused (wraps : off.toNat + n.toNat < 2 ^ 64) : off + n > UInt64.ofNat (maxFile * bsize) ↔
    ¬ off.toNat + n.toNat ≤ maxFile * bsize := by
  have large : off + n > UInt64.ofNat (maxFile * bsize) ↔ 71680 < (off + n).toNat := UInt64.lt_iff_toNat_lt
  have value : maxFile * bsize = 71680 := rfl
  rw [large, toNat_end wraps]
  omega

theorem toNat_readable {size : UInt32} (start : off.toNat ≤ size.toNat) (wraps : off.toNat + n.toNat < 2 ^ 64) :
    (if off + n > size.toUInt64 then size.toUInt64 - off else n).toNat = min n.toNat (size.toNat - off.toNat) := by
  have below : off ≤ size.toUInt64 := UInt64.le_iff_toNat_le.mpr start
  have left : (size.toUInt64 - off).toNat = size.toNat - off.toNat := UInt64.toNat_sub_of_le _ _ below
  have past : off + n > size.toUInt64 ↔ size.toNat < (off + n).toNat := UInt64.lt_iff_toNat_lt
  have sum := toNat_end wraps
  split
  · next beyond =>
    rw [past] at beyond
    omega
  · next inside =>
    rw [past] at inside
    omega

theorem readi_run (notDev : ip.type ≠ T_DEV) (mapped : Mapped s.view ip.addrs ip.size.toNat)
    (start : off.toNat ≤ ip.size.toNat) (wraps : off.toNat + n.toNat < 2 ^ 64) :
    (readi sb devsw log ip dst off n).run Store.handle s =
      some ((((min n.toNat (ip.size.toNat - off.toNat) : Nat) : Int), fun k =>
        if k < min n.toNat (ip.size.toNat - off.toNat) then byteAt s.view ip.addrs (off.toNat + k) else dst k,
        ip, log), s) := by
  have accepted : ¬ (off > ip.size.toUInt64 ∨ off + n < off) := by
    rw [range_refused]
    exact not_not.mpr ⟨start, wraps⟩
  obtain ⟨m, isM⟩ : ∃ m, m = if off + n > ip.size.toUInt64 then ip.size.toUInt64 - off else n := ⟨_, rfl⟩
  have length : m.toNat = min n.toNat (ip.size.toNat - off.toNat) := isM ▸ toNat_readable start wraps
  have size := ip.size.toNat_lt
  have loops := readLoop_run sb s m m.toNat 0 off dst ip log
    (UInt64.le_iff_toNat_le.mpr (Nat.zero_le _)) le_rfl (by rw [length]; change off.toNat + (_ - 0) < _; omega)
    (fun k low high => mapped k (by rw [length] at high; change k < off.toNat + (_ - 0) at high; omega))
  rw [readi, if_neg notDev, if_neg accepted]
  simp only [Program.run_bind, ← isM, loops, Option.bind_some, Program.run_pure]
  rw [length]
  congr 4
  funext k
  change (if 0 ≤ k ∧ k < _ then byteAt _ _ (off.toNat + (k - 0)) else dst k) = _
  simp only [Nat.zero_le, true_and, Nat.sub_zero]

theorem writei_end {node : MemInode} {last : UInt64} {log₁ : Log} {t : Store} {nodes₁ : Nodes} (admits : Admits inv)
    (here : nodes ip.inum = ip.addrs) (inside : InTable sb ip.inum) (mapped : Mapped s.view ip.addrs ip.size.toNat)
    (start : off.toNat ≤ ip.size.toNat) (room : off.toNat + n.toNat ≤ maxFile * bsize)
    (ended : LoopEnd inv sb ip.inum src off.toNat n.toNat 0 ip s nodes last node log₁ t nodes₁) :
    ∃ ip' log' view', (if n > 0 ∧ last > node.size.toUInt64 then do
          let ip := { node with size := last.toUInt32 }
          let log ← iupdate sb log₁ ip
          return ((n.toNat : Int), ip, log)
        else return (n.toNat, node, log₁) : Program (Bio UInt32) (Int × MemInode × Log)).run Store.handle t =
          some (((n.toNat : Int), ip', log'), { s with view := view' }) ∧
      Updated sb src off.toNat n.toNat ip ip' s.view nodes view' nodes₁ ∧ inv log' ∧
      ∀ wanted, Enough sb t.view (nodes₁ ip.inum) wanted → Enough sb view' (nodes₁ ip.inum) wanted := by
  have value : maxFile * bsize = 71680 := rfl
  obtain ⟨isNode, isStore, ends, dev, here₁, wrote, ok, same⟩ := ended
  have contents := wrote.contents (here ▸ mapped) start
  have sameSize : node.size = ip.size := by rw [isNode]
  rw [sameSize]
  have grown : n > 0 ∧ last > ip.size.toUInt64 ↔ 0 < n.toNat ∧ ip.size.toNat < off.toNat + n.toNat := by
    rw [← ends]
    exact and_congr UInt64.lt_iff_toNat_lt UInt64.lt_iff_toNat_lt
  have fields : ∀ size : UInt32, ({ node with size := size } : MemInode) =
      { ip with addrs := node.addrs, size := size } := by
    intro size
    rw [isNode]
    cases node with
    | mk toInode =>
      cases toInode
      cases dev
      rfl
  by_cases grows : n > 0 ∧ last > ip.size.toUInt64
  · obtain ⟨ip', isIp⟩ : ∃ ip' : MemInode, ip' = { node with size := last.toUInt32 } := ⟨_, rfl⟩
    obtain ⟨log₂, updates, ok₂⟩ := iupdate_run sb admits ok ip' t
    have inum : ip'.inum = ip.inum := by rw [isIp, isNode]
    have addrs : ip'.addrs = node.addrs := by rw [isIp]
    have size : ip'.size.toNat = max ip.size.toNat (off.toNat + n.toNat) := by
      have past := (grown.mp grows).2
      rw [isIp]
      change last.toUInt32.toNat = _
      rw [UInt64.toNat_toUInt32, ends]
      omega
    rw [inum] at updates
    have puts := Confined.putInode wrote.sound inside ip'.dinode
    rw [if_pos grows]
    simp only [← isIp, Program.run_bind, updates, Option.bind_some, Program.run_pure]
    have left : ∀ wanted, Enough sb t.view (nodes₁ ip.inum) wanted →
        Enough sb (putInode sb t.view ip.inum ip'.dinode) (nodes₁ ip.inum) wanted := fun wanted enough =>
      enough.congr (refAt_putInode wrote.sound inside ip'.dinode ip.inum) fun _ =>
        inUse_putInode wrote.sound inside ip'.dinode
    refine ⟨ip', log₂, _, ?_, ⟨wrote.toConfined.trans puts, ?_, ?_, size, ?_, ?_, ?_⟩, ok₂, left⟩
    · rw [isStore]
    · rw [isIp]
      exact fields _
    · rw [here₁, addrs]
    · intro k below
      rw [addrs, ← here₁, blockAt_putInode wrote.sound inside]
      exact (contents k (size ▸ below)).1
    · intro k below
      have found := contents k (size ▸ below)
      rw [addrs, ← here₁, byteAt_putInode wrote.sound inside _ found.1, found.2, here]
    · intro _
      exact diskInode_putInode_self _
  · rw [if_neg grows]
    have size : ip.size.toNat = max ip.size.toNat (off.toNat + n.toNat) := by
      rw [grown] at grows
      omega
    have nodeSize : node.size.toNat = max ip.size.toNat (off.toNat + n.toNat) := sameSize ▸ size
    refine ⟨node, log₁, t.view, ?_, ⟨wrote.toConfined, fields node.size, here₁, nodeSize, ?_, ?_, ?_⟩, ok,
      fun _ enough => enough⟩
    · rw [← isStore]
      rfl
    · intro k below
      rw [← here₁]
      exact (contents k (nodeSize ▸ below)).1
    · intro k below
      rw [← here₁, ← here]
      exact (contents k (nodeSize ▸ below)).2
    · intro before
      have unchanged : node.toInode = ip.toInode := by
        refine same fun k low high => mapped k ?_
        omega
      rw [wrote.node inside, before, isNode, unchanged]

theorem writei_run {wanted : Finset Slot} (devsw : Fin ndev → Devsw UInt32) (src : Nat → UInt8) (admits : Admits inv)
    (ready : Ready inv sb ip.inum wanted s.view nodes log)
    (want : slotsBetween off.toNat (off.toNat + n.toNat) ⊆ wanted) (here : nodes ip.inum = ip.addrs)
    (inside : InTable sb ip.inum) (notDev : ip.type ≠ T_DEV)
    (mapped : Mapped s.view ip.addrs ip.size.toNat) (start : off.toNat ≤ ip.size.toNat)
    (room : off.toNat + n.toNat ≤ maxFile * bsize) :
    ∃ ip' log' view' nodes', (writei sb devsw log ip src off n).run Store.handle s =
        some (((n.toNat : Int), ip', log'), { s with view := view' }) ∧
      Updated sb src off.toNat n.toNat ip ip' s.view nodes view' nodes' ∧ inv log' ∧
      Enough sb view' (nodes' ip.inum) wanted := by
  have value : maxFile * bsize = 71680 := rfl
  have wraps : off.toNat + n.toNat < 2 ^ 64 := by omega
  have accepted : ¬ (off > ip.size.toUInt64 ∨ off + n < off) := by
    rw [range_refused]
    exact not_not.mpr ⟨start, wraps⟩
  have fits : ¬ off + n > UInt64.ofNat (maxFile * bsize) := by
    rw [room_refused wraps]
    exact not_not.mpr room
  obtain ⟨last, node, log₁, t, nodes₁, loops, ended, enough⟩ :=
    writeLoop_run admits src n n.toNat 0 off ready here
      (UInt64.le_iff_toNat_le.mpr (Nat.zero_le _)) le_rfl room
      (fun k low high => (slotsOf_subset low high).trans want)
  obtain ⟨ip', log', view', ends, updated, ok, left⟩ := writei_end admits here inside mapped start room ended
  refine ⟨ip', log', view', nodes₁, ?_, updated, ok, left wanted enough⟩
  rw [writei, if_neg notDev, if_neg accepted, if_neg fits]
  simp only [Program.run_bind, loops, Option.bind_some]
  exact ends

-- A range that `writei` serves.
def Writable (size off n : Nat) : Prop := off ≤ size ∧ off + n < 2 ^ 64 ∧ off + n ≤ maxFile * bsize
  deriving Decidable

variable (sb log) in
theorem writei_cases (devsw : Fin ndev → Devsw UInt32) (src : Nat → UInt8) (notDev : ip.type ≠ T_DEV) :
    (¬ Writable ip.size.toNat off.toNat n.toNat ∧
        (writei sb devsw log ip src off n : Program (Bio UInt32) _) = pure (-1, ip, log)) ∨
      (Writable ip.size.toNat off.toNat n.toNat ∧ (writei sb devsw log ip src off n : Program (Bio UInt32) _) = (do
        let (last, node, log₁) ← writeLoop sb src n n.toNat 0 off ip log
        if n > 0 ∧ last > node.size.toUInt64 then
          let ip := { node with size := last.toUInt32 }
          let log ← iupdate sb log₁ ip
          return ((n.toNat : Int), ip, log)
        else return (n.toNat, node, log₁))) := by
  rw [writei, if_neg notDev]
  by_cases bad : off > ip.size.toUInt64 ∨ off + n < off
  · rw [if_pos bad]
    rw [range_refused] at bad
    exact .inl ⟨fun ⟨start, wraps, _⟩ => bad ⟨start, wraps⟩, rfl⟩
  · rw [if_neg bad]
    rw [range_refused, not_not] at bad
    by_cases large : off + n > UInt64.ofNat (maxFile * bsize)
    · rw [if_pos large]
      rw [room_refused bad.2] at large
      exact .inl ⟨fun ⟨_, _, room⟩ => large room, rfl⟩
    · rw [if_neg large]
      rw [room_refused bad.2, not_not] at large
      exact .inr ⟨⟨bad.1, bad.2, large⟩, rfl⟩

/-- A call of `writei` that returns has replaced the bytes of the range, or has refused it and
changed nothing. -/
theorem writei_returns (devsw : Fin ndev → Devsw UInt32) {ip' : MemInode} {log' : Log} {r : Int} {t : Store}
    (admits : Admits inv) (ok : inv log) (sound : Sound sb s.view nodes) (here : nodes ip.inum = ip.addrs)
    (inside : InTable sb ip.inum) (notDev : ip.type ≠ T_DEV) (mapped : Mapped s.view ip.addrs ip.size.toNat)
    (ran : (writei sb devsw log ip src off n).run Store.handle s = some ((r, ip', log'), t)) :
    (¬ Writable ip.size.toNat off.toNat n.toNat ∧ r = -1 ∧ ip' = ip ∧ log' = log ∧ t = s) ∨
      (Writable ip.size.toNat off.toNat n.toNat ∧ r = n.toNat ∧ t = { s with view := t.view } ∧ inv log' ∧
        ∃ nodes', Updated sb src off.toNat n.toNat ip ip' s.view nodes t.view nodes') := by
  rcases writei_cases sb log devsw src notDev with ⟨refused, same⟩ | ⟨accepted, same⟩
  · rw [same] at ran
    cases ran
    exact .inl ⟨refused, rfl, rfl, rfl, rfl⟩
  · rw [same] at ran
    obtain ⟨⟨last, node, log₁⟩, u, loops, ran⟩ := Program.run_bind_eq_some.mp ran
    obtain ⟨nodes₁, ended⟩ := writeLoop_end admits _ ok sound here
      (UInt64.le_iff_toNat_le.mpr (Nat.zero_le _)) accepted.2.2 loops
    obtain ⟨ip₁, log₂, view₁, ends, updated, ok', _⟩ :=
      writei_end admits here inside mapped accepted.1 accepted.2.2 ended
    have reply := ends.symm.trans ran
    cases reply
    exact .inr ⟨accepted, rfl, rfl, ok', nodes₁, updated⟩

theorem writei_fields (devsw : Fin ndev → Devsw UInt32) {ip' : MemInode} {log' : Log} {r : Int} {t : Store}
    (notDev : ip.type ≠ T_DEV)
    (ran : (writei sb devsw log ip src off n).run Store.handle s = some ((r, ip', log'), t)) :
    ip' = { ip with toInode := ip'.toInode, size := ip'.size } ∧
      ((¬ Writable ip.size.toNat off.toNat n.toNat ∧ r = -1) ∨
        (Writable ip.size.toNat off.toNat n.toNat ∧ r = n.toNat)) := by
  rcases writei_cases sb log devsw src notDev with ⟨refused, same⟩ | ⟨accepted, same⟩
  · rw [same] at ran
    cases ran
    exact ⟨rfl, .inl ⟨refused, rfl⟩⟩
  · rw [same] at ran
    obtain ⟨⟨last, node, log₁⟩, u, loops, ran⟩ := Program.run_bind_eq_some.mp ran
    have fields := writeLoop_fields loops
    dsimp only at ran
    split at ran
    · obtain ⟨log₂, v, _, done⟩ := Program.run_bind_eq_some.mp ran
      cases done
      refine ⟨?_, .inr ⟨accepted, rfl⟩⟩
      rw [fields]
    · cases ran
      refine ⟨?_, .inr ⟨accepted, rfl⟩⟩
      rw [fields]

-- What `readi` replies, and what it leaves alone in the copy in memory.
theorem readi_fields (devsw : Fin ndev → Devsw UInt32) {ip' : MemInode} {log' : Log} {r : Int} {dst' : Nat → UInt8}
    {t : Store} (notDev : ip.type ≠ T_DEV)
    (ran : (readi sb devsw log ip dst off n).run Store.handle s = some ((r, dst', ip', log'), t)) :
    ip' = { ip with toInode := ip'.toInode } ∧
      (r = -1 ∨ off.toNat ≤ ip.size.toNat ∧ off.toNat + n.toNat < 2 ^ 64 ∧
        r = (min n.toNat (ip.size.toNat - off.toNat) : Nat)) := by
  rw [readi, if_neg notDev] at ran
  split at ran
  · cases ran
    exact ⟨rfl, .inl rfl⟩
  · next accepted =>
    rw [range_refused, not_not] at accepted
    obtain ⟨⟨dst₁, node, log₁⟩, u, loops, ran⟩ := Program.run_bind_eq_some.mp ran
    cases ran
    refine ⟨readLoop_fields loops, .inr ⟨accepted.1, accepted.2, ?_⟩⟩
    rw [toNat_readable accepted.1 accepted.2]

/-- The file of inode `g` has not changed. -/
structure SameFile (sb : Superblock) (g : UInt32) (view : UInt32 → Block) (nodes : Nodes) (view' : UInt32 → Block)
    (nodes' : Nodes) : Prop where
  addrs : nodes' g = nodes g
  disk : InTable sb g → diskInode sb view' g = diskInode sb view g
  blocks : ∀ i, blockAt view' (nodes' g) i = blockAt view (nodes g) i
  bytes : ∀ k, blockAt view (nodes g) (k / bsize) ≠ 0 → byteAt view' (nodes' g) k = byteAt view (nodes g) k

theorem Confined.sameFile (confined : Confined sb f view nodes view' nodes') {g : UInt32} (other : g ≠ f) :
    SameFile sb g view nodes view' nodes' where
  addrs := confined.same g other
  disk inside := confined.table g inside other
  blocks i := confined.blockAt_other other i
  bytes _ mapped := confined.byteAt_other other mapped

theorem SameFile.refl (sb : Superblock) (g : UInt32) (view : UInt32 → Block) (nodes : Nodes) :
    SameFile sb g view nodes view nodes :=
  ⟨rfl, fun _ => rfl, fun _ => rfl, fun _ _ => rfl⟩

theorem SameFile.trans {g : UInt32} {view view' view'' : UInt32 → Block} {nodes nodes' nodes'' : Nodes}
    (first : SameFile sb g view nodes view' nodes') (second : SameFile sb g view' nodes' view'' nodes'') :
    SameFile sb g view nodes view'' nodes'' where
  addrs := second.addrs.trans first.addrs
  disk inside := (second.disk inside).trans (first.disk inside)
  blocks i := (second.blocks i).trans (first.blocks i)
  bytes k mapped := by
    have mapped' : blockAt view' (nodes' g) (k / bsize) ≠ 0 := by rwa [first.blocks]
    exact (second.bytes k mapped').trans (first.bytes k mapped)

/-- `writei` replaces the bytes of the range that it is given, `readi` returns the bytes of the
range, and both refuse a range that they cannot serve. -/
theorem file_contents (devsw : Fin ndev → Devsw UInt32) (src dst : Nat → UInt8) (off n : UInt64) (admits : Admits inv)
    (ok : inv log) (sound : Sound sb s.view nodes) (here : nodes ip.inum = ip.addrs) (inside : InTable sb ip.inum)
    (notDev : ip.type ≠ T_DEV) (mapped : Mapped s.view ip.addrs ip.size.toNat) :
    (off.toNat ≤ ip.size.toNat ∧ off.toNat + n.toNat < 2 ^ 64 ∧ off.toNat + n.toNat ≤ maxFile * bsize →
      Enough sb s.view ip.addrs (slotsBetween off.toNat (off.toNat + n.toNat)) →
      ∃ ip' log' view' nodes', (writei sb devsw log ip src off n).run Store.handle s =
          some (((n.toNat : Int), ip', log'), { s with view := view' }) ∧
        Updated sb src off.toNat n.toNat ip ip' s.view nodes view' nodes' ∧
        ∀ g, g ≠ ip.inum → SameFile sb g s.view nodes view' nodes') ∧
    (¬ (off.toNat ≤ ip.size.toNat ∧ off.toNat + n.toNat < 2 ^ 64 ∧ off.toNat + n.toNat ≤ maxFile * bsize) →
      (writei sb devsw log ip src off n).run Store.handle s = some ((-1, ip, log), s)) ∧
    (off.toNat ≤ ip.size.toNat ∧ off.toNat + n.toNat < 2 ^ 64 →
      (readi sb devsw log ip dst off n).run Store.handle s =
        some ((((min n.toNat (ip.size.toNat - off.toNat) : Nat) : Int), fun k =>
          if k < min n.toNat (ip.size.toNat - off.toNat) then byteAt s.view ip.addrs (off.toNat + k) else dst k,
          ip, log), s)) ∧
    (¬ (off.toNat ≤ ip.size.toNat ∧ off.toNat + n.toNat < 2 ^ 64) →
      (readi sb devsw log ip dst off n).run Store.handle s = some ((-1, dst, ip, log), s)) := by
  refine ⟨?_, ?_, ?_, ?_⟩
  · rintro ⟨start, _, room⟩ enough
    have ready : Ready inv sb ip.inum (slotsBetween off.toNat (off.toNat + n.toNat)) s.view nodes log :=
      ⟨ok, sound, here ▸ enough⟩
    obtain ⟨ip', log', view', nodes', writes, updated, _⟩ :=
      writei_run devsw src admits ready subset_rfl here inside notDev mapped start room
    exact ⟨ip', log', view', nodes', writes, updated, fun g other => updated.toConfined.sameFile other⟩
  · intro refused
    rw [writei, if_neg notDev]
    by_cases bad : off > ip.size.toUInt64 ∨ off + n < off
    · rw [if_pos bad]
      rfl
    · have fine := bad
      rw [range_refused, not_not] at fine
      have large : off + n > UInt64.ofNat (maxFile * bsize) := by
        rw [room_refused fine.2]
        exact fun room => refused ⟨fine.1, fine.2, room⟩
      rw [if_neg bad, if_pos large]
      rfl
  · rintro ⟨start, wraps⟩
    exact readi_run notDev mapped start wraps
  · intro refused
    rw [readi, if_neg notDev, if_pos ((range_refused ip.size).mpr refused)]
    rfl

end

/-! ## One file system -/

theorem inUse_usedDisk {n : Nat} (used : n < 61) : InUse Mkfs.superblock usedDisk (UInt32.ofNat n) := by
  have all : ∀ n, n < 61 → InUse Mkfs.superblock usedDisk (UInt32.ofNat n) := by decide +kernel
  exact all n used

theorem meta_used {b : UInt32} (isMeta : Meta Mkfs.superblock b) : b.toNat < 59 := by
  cases isMeta with
  | boot => decide
  | super => decide
  | log i inside =>
    have less : i.toNat < 30 := UInt32.lt_iff_toNat_lt.mp inside
    change (UInt32.ofNat 2 + i).toNat < 59
    rw [UInt32.toNat_add]
    change (2 + i.toNat) % 2 ^ 32 < 59
    omega
  | inode inum inside =>
    have less : inum.toNat < (200 + 7) / 8 * 8 := inside
    rw [iblock, UInt32.toNat_add, UInt32.toNat_div]
    change (inum.toNat / 8 + 32) % 2 ^ 32 < 59
    omega
  | bitmap b inside =>
    have less : b.toNat < (1000 + 4095) / 4096 * 4096 := inside
    rw [bblock, UInt32.toNat_add, UInt32.toNat_div]
    change (b.toNat / 4096 + 58) % 2 ^ 32 < 59
    omega

theorem sound_usedDisk : Sound Mkfs.superblock usedDisk (fun _ _ => 0) where
  owns := by
    have none : ∀ s : UInt32 × Slot, refAt usedDisk (fun _ => 0) s.2 = 0 := by
      rintro ⟨_, k⟩
      cases k with
      | direct k => rfl
      | indirect => rfl
      | entry j => exact refAt_entry_none rfl j
    exact ⟨fun s _ filled => absurd (none s) filled, fun s filled => absurd (none s) filled⟩
  reserved b isMeta _ := by
    have used := inUse_usedDisk ((meta_used isMeta).trans (by decide))
    rwa [UInt32.ofNat_toNat] at used
  apart inum b inside covered := by
    intro same
    have same := congrArg UInt32.toNat same
    have less : inum.toNat < (200 + 7) / 8 * 8 := inside
    have below : b.toNat < (1000 + 4095) / 4096 * 4096 := covered
    rw [iblock, bblock, UInt32.toNat_add, UInt32.toNat_div, UInt32.toNat_add, UInt32.toNat_div] at same
    change (inum.toNat / 8 + 32) % 2 ^ 32 = (b.toNat / 4096 + 58) % 2 ^ 32 at same
    omega

def usedStore : Store := Store.boot usedDisk

def noDevices : Fin ndev → Devsw UInt32 := fun _ => ⟨none, none⟩

def emptyFile (inum : UInt32) (addrs : Addrs) : MemInode :=
  ⟨⟨1, addrs⟩, inum, 1, true, true, T_FILE, 0, 0, 1, 0⟩

theorem admits_empty : Admits fun log => log.lh.n = 0 :=
  fun log b empty => ⟨log.lh, LogHeader.record_empty empty b, empty⟩

theorem file_contents_byte : ∃ ip' log' view' nodes',
    (writei Mkfs.superblock noDevices emptyLog (emptyFile 9 fun _ => 0) (fun _ => 7) 0 1).run Store.handle usedStore =
        some ((1, ip', log'), { usedStore with view := view' }) ∧
      Updated Mkfs.superblock (fun _ => 7) 0 1 (emptyFile 9 fun _ => 0) ip' usedDisk (fun _ _ => 0) view' nodes' ∧
      ∀ g, g ≠ 9 → SameFile Mkfs.superblock g usedDisk (fun _ _ => 0) view' nodes' := by
  have free : 61 ∈ freeBlocks Mkfs.superblock usedDisk := by
    rw [freeBlocks_mem]
    decide +kernel
  have enough : Enough Mkfs.superblock usedDisk (fun _ => 0) (slotsBetween 0 (0 + 1)) := by
    have one : (slotsBetween 0 (0 + 1)).card = 1 := by decide +kernel
    exact (Finset.card_filter_le _ _).trans (one ▸ Finset.card_pos.mpr ⟨61, free⟩)
  have sound : Sound Mkfs.superblock usedStore.view (fun _ _ => 0) := sound_usedDisk
  have same : (fun _ _ => 0 : Nodes) (emptyFile 9 fun _ => 0).inum = (emptyFile 9 fun _ => 0).addrs := rfl
  have empty : emptyLog.lh.n = 0 := rfl
  have contents := file_contents noDevices (fun _ => 7) (fun _ => 0) 0 1 admits_empty empty sound same (by decide)
    (by decide) nofun
  exact contents.1 (by decide) enough

def tableFile : Addrs := fun k => if k.val = 0 then 33 else 0

def tableNodes : Nodes := fun g => if g = 8 then tableFile else fun _ => 0

def oneBlock (f b : UInt32) : Nodes := fun g => if g = f then fun k => if k.val = 0 then b else 0 else fun _ => 0

theorem oneBlock_ref {view : UInt32 → Block} {f b : UInt32} (s : UInt32 × Slot)
    (filled : refAt view (oneBlock f b s.1) s.2 ≠ 0) :
    s = (f, .direct ⟨0, by decide⟩) ∧ refAt view (oneBlock f b s.1) s.2 = b := by
  obtain ⟨g, k⟩ := s
  by_cases isF : g = f
  · subst isF
    have same : oneBlock g b g = fun k => if k.val = 0 then b else 0 := if_pos rfl
    simp only [same] at filled ⊢
    cases k with
    | direct k =>
      have first : k.val = 0 := by
        by_contra other
        exact filled (if_neg other)
      refine ⟨?_, if_pos first⟩
      congr 2
      exact Fin.ext first
    | indirect => exact absurd rfl filled
    | entry j => exact absurd (refAt_entry_none rfl j) filled
  · have same : oneBlock f b g = fun _ => 0 := if_neg isF
    simp only [same] at filled
    cases k with
    | direct k => exact absurd rfl filled
    | indirect => exact absurd rfl filled
    | entry j => exact absurd (refAt_entry_none rfl j) filled

theorem oneBlock_owns {view : UInt32 → Block} {f b : UInt32} {held : UInt32 → Prop} (isHeld : held b) :
    Owns 0 (fun s : UInt32 × Slot => refAt view (oneBlock f b s.1) s.2) held where
  distinct s t filled same := (oneBlock_ref s filled).1.trans (oneBlock_ref t (same ▸ filled)).1.symm
  held s filled := by
    rw [(oneBlock_ref s filled).2]
    exact isHeld

/-- If an inode may own a block of the inode table, `writei` itself overwrites the byte that it
has written. -/
theorem file_contents_table : ¬ ∀ (sb : Superblock) (s : Store) (log : Log) (nodes : Nodes) (ip : MemInode)
    (src : Nat → UInt8) (off n : UInt64), log.lh.n = 0 →
    Owns 0 (fun s' : UInt32 × Slot => refAt s.view (nodes s'.1) s'.2) (InUse sb s.view) → nodes ip.inum = ip.addrs →
    ip.type ≠ T_DEV → ip.size.toNat ≤ maxFile * bsize → Mapped s.view ip.addrs ip.size.toNat →
    Enough sb s.view ip.addrs (slotsBetween off.toNat (off.toNat + n.toNat)) →
    off.toNat ≤ ip.size.toNat → off.toNat + n.toNat < 2 ^ 64 → off.toNat + n.toNat ≤ maxFile * bsize →
    ∀ r ip' log' t, (writei sb noDevices log ip src off n).run Store.handle s = some ((r, ip', log'), t) →
      ∀ k, off.toNat ≤ k → k < off.toNat + n.toNat → byteAt t.view ip'.addrs k = src (k - off.toNat) := by
  intro replaces
  have owns : Owns 0 (fun s : UInt32 × Slot => refAt usedDisk (tableNodes s.1) s.2)
    (InUse Mkfs.superblock usedDisk) :=
    oneBlock_owns (f := 8) (inUse_usedDisk (n := 33) (by decide))
  have enough : Enough Mkfs.superblock usedDisk tableFile (slotsBetween 0 (0 + 1)) := by
    have none : (slotsBetween 0 (0 + 1)).filter (fun k => refAt usedDisk tableFile k = 0) = ∅ := by decide +kernel
    rw [Enough, none]
    exact Nat.zero_le _
  have ran : ((writei Mkfs.superblock noDevices emptyLog (emptyFile 8 tableFile) (fun _ => 7) 0 1).run Store.handle
      usedStore).any (fun ((_, ip', _), t) => byteAt t.view ip'.addrs 0 = 2) = true := by decide +kernel
  obtain ⟨⟨⟨r, ip', log'⟩, t⟩, writes, two⟩ := (Option.any_eq_true _ _).mp ran
  have seven := replaces Mkfs.superblock usedStore emptyLog tableNodes (emptyFile 8 tableFile)
    (fun _ => 7) 0 1 rfl owns
    rfl (by decide) (by decide) nofun enough (by decide) (by decide) (by decide) r ip' log' t writes 0 (by decide)
    (by decide)
  have two : byteAt t.view ip'.addrs 0 = 2 := of_decide_eq_true two
  exact absurd (two.symm.trans seven) (by decide)

end Xv6.Fs
