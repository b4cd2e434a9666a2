import Xv6.Fs.Consistency

/-! The blocks that `create` passes to `log_write`.

A new inode and its directory are held while entries are written. Every write of an entry passes
at most an indirect block and a data block besides the bitmap block and the blocks of the two
inodes.
-/

set_option autoImplicit false

namespace Xv6.Inodes

open Library Fs

variable {A : Type} {inv : Log → Prop} {sb : Superblock} {devsw : Fin ndev → Devsw UInt32} {m t : Machine}
  {i j dp ind : Fin ninode} {M B : Finset UInt32} {n : Nat} {H : Fin ninode → Prop} {e : MemInode}

/-! ## Held inodes -/

/-- An entry that is held, of an inode in one of the blocks of `B`. A directory has no holes. -/
structure Usable (sb : Superblock) (B : Finset UInt32) (view : UInt32 → Block) (ip : MemInode) : Prop where
  used : 0 < ip.ref
  locked : ip.locked = true
  known : iblock ip.inum sb ∈ B
  filled : ip.type = T_DIR → Mapped view ip.addrs ip.size.toNat

structure Working (inv : Log → Prop) (sb : Superblock) (B : Finset UInt32) (H : Fin ninode → Prop)
    (m : Machine) : Prop where
  owned : ∃ nodes, Owned inv sb m.icache m.log m.store.view nodes
  usable : ∀ i, H i → Usable sb B m.store.view (m.icache i)

namespace Working

theorem mono {B' : Finset UInt32} (working : Working inv sb B H m) (sub : B ⊆ B') : Working inv sb B' H m :=
  ⟨working.owned, fun i held => { working.usable i held with known := sub (working.usable i held).known }⟩

theorem touched {c : Icache} (working : Working inv sb B H m)
    (owned : ∃ nodes, Owned inv sb c m.log m.store.view nodes)
    (others : ∀ j, j ≠ i → c j = m.icache j) (usable : H i → Usable sb B m.store.view (c i)) :
    Working inv sb B H { m with icache := c } := by
  refine ⟨owned, fun j held => ?_⟩
  dsimp only
  by_cases same : j = i
  · subst same
    exact usable held
  · rw [others j same]
    exact working.usable j held

-- An operation on one inode keeps the other directories without holes.
theorem confined {nodes nodes' : Nodes} {c : Icache} {log : Log} {s : Store} (working : Working inv sb B H m)
    (held : H i)
    (owned : Owned inv sb m.icache m.log m.store.view nodes) (after : ∃ nodes, Owned inv sb c log s.view nodes)
    (confined : Confined sb (m.icache i).inum m.store.view nodes s.view nodes')
    (others : ∀ j, j ≠ i → c j = m.icache j)
    (usable : Usable sb B s.view (c i)) : Working inv sb B H ⟨c, log, s⟩ := by
  refine ⟨after, fun j heldJ => ?_⟩
  dsimp only
  by_cases same : j = i
  · subst same
    exact usable
  · rw [others j same]
    obtain ⟨used, locked, known, filled⟩ := working.usable j heldJ
    refine ⟨used, locked, known, fun isDir k inside => ?_⟩
    have node := ((owned.entry j).copied used ((owned.entry j).held locked).2).node
    have other : (m.icache j).inum ≠ (m.icache i).inum :=
      fun equal => same (owned.alone j i used (working.usable i held).used equal)
    have stays := confined.blockAt_other other (k / bsize)
    rw [confined.same _ other, node] at stays
    rw [stays]
    exact filled isDir k inside

end Working

theorem passes_setLinks {major minor nlink : UInt16} (working : Working inv sb B H m) (held : H i)
    (admits : Admits inv) :
    Passes sb devsw M n (setLinks i major minor nlink) m fun _ t _ => Working inv sb B H t := by
  obtain ⟨used, locked, known, filled⟩ := working.usable i held
  refine passes_silent rfl fun _ t handled => ?_
  cases handled
  have owned' := owned_done working.owned admits (r := .setLinks i major minor nlink) (a := ()) ⟨used, locked⟩ rfl
  refine working.touched owned' (fun j other => Function.update_of_ne other ..) fun _ => ?_
  rw [Function.update_self]
  exact ⟨used, locked, known, filled⟩

theorem passes_iupdate (working : Working inv sb B H m) (held : H i) (admits : Admits inv) (sub : B ⊆ M) :
    Passes sb devsw M n (iupdate i) m fun _ t _ => Working inv sb B H t := by
  obtain ⟨nodes, owned⟩ := working.owned
  obtain ⟨used, locked, known, filled⟩ := working.usable i held
  refine passes_call Machine.handle_iupdate rfl (logs_iupdate (sub known)) fun log t M' _ ran _ => ?_
  have owned' := owned_called working.owned admits (r := .iupdate i) ⟨used, locked⟩ Machine.handle_iupdate ran
  have copied := (owned.entry i).copied used ((owned.entry i).held locked).2
  have live := (owned.entry i).live used
  obtain ⟨log₁, updates, _⟩ := iupdate_run sb admits owned.logged (m.icache i) m.store
  cases updates.symm.trans ran
  have puts := Confined.putInode owned.sound live.inside (m.icache i).dinode
  refine working.confined held owned owned' puts (fun _ _ => rfl) ⟨used, locked, known, fun isDir k inside => ?_⟩
  have stays := blockAt_putInode owned.sound live.inside (m.icache i).dinode (m.icache i).inum (k / bsize)
  rw [copied.node] at stays
  change blockAt (putInode sb m.store.view _ _) (m.icache i).addrs (k / bsize) ≠ 0
  rw [stays]
  exact filled isDir k inside

/-! ## Entries of a directory -/

theorem owned_unused {nodes : Nodes} {c : Icache} {log : Log} {view : UInt32 → Block}
    (owned : Owned inv sb c log view nodes)
    (unused : (c i).ref = 0) (none : e.ref = 0) (lock : e.locked = (c i).locked) :
    Owned inv sb (Function.update c i e) log view nodes := by
  have unlocked : e.locked = true → 0 < (c i).ref := fun locked => ((owned.entry i).held (lock.symm.trans locked)).1
  refine owned.replace owned.logged owned.sound ⟨?_, ?_, ?_⟩ (fun j _ => owned.entry j) ?_ fun g _ others => ?_
  · exact fun used => absurd used (by omega)
  · exact fun used => absurd used (by omega)
  · exact fun locked => absurd (unlocked locked) (by omega)
  · exact fun j _ used => absurd used (by omega)
  · refine owned.disk g fun j cached => ?_
    by_cases same : j = i
    · have used := cached.1
      rw [same, unused] at used
      omega
    · exact others j same cached

-- A reference that was just taken is given back, and nothing is freed.
theorem passes_returned {ip : Fin ninode} (working : Working inv sb B H m) (looked : Looked dp m ip t) :
    Passes sb devsw M n (iput ip) t fun _ u _ => Working inv sb B H u := by
  obtain ⟨nodes, owned⟩ := working.owned
  obtain ⟨⟨off, _, _, _, got⟩, isT⟩ := looked
  obtain ⟨e, isC, taken⟩ := iget_taken got
  have here : t.icache ip = e := by rw [isC, Function.update_self]
  have kept : ¬ ((t.icache ip).ref = 1 ∧ (t.icache ip).valid = true ∧ (t.icache ip).nlink = 0) := by
    rw [here]
    rcases taken with ⟨used, rfl⟩ | ⟨_, _, invalid, _⟩
    · dsimp only
      omega
    · exact fun frees => Bool.noConfusion (invalid.symm.trans frees.2.1)
  refine (passes_iput_kept (n := n) kept).mono le_rfl fun _ u _ _ _ put => ?_
  rw [here, isC, Function.update_idem] at put
  rw [isT] at put
  rcases taken with ⟨_, rfl⟩ | ⟨unused, one, _, lock⟩
  · have same : Function.update m.icache ip { m.icache ip with ref := (m.icache ip).ref + 1 - 1 } = m.icache := by
      rw [Int.add_sub_cancel]
      exact Function.update_eq_self ..
    dsimp only at put
    rw [same] at put
    rw [put]
    exact working
  · have none : e.ref - 1 = 0 := by omega
    rw [put]
    refine working.touched ⟨nodes, owned_unused owned unused none lock⟩
      (fun j other => Function.update_of_ne other ..)
      fun held => ?_
    have used := (working.usable ip held).used
    omega

theorem passes_emptyFrom (notDev : (m.icache dp).type ≠ T_DEV)
    (filled : Mapped m.store.view (m.icache dp).addrs (m.icache dp).size.toNat) (turns : Nat) (off : UInt64)
    (start : off.toNat ≤ (m.icache dp).size.toNat) (aligned : off.toNat % direntSize = 0) :
    Passes sb devsw M 0 (emptyFrom dp turns off) m fun last t _ => t = m ∧ last.toNat % direntSize = 0 := by
  induction turns generalizing off M with
  | zero => exact Program.spends_pure ⟨rfl, aligned⟩
  | succ turns ih =>
    refine (passes_readEntry notDev filled start).seq fun de t M' _ _ read => ?_
    obtain ⟨rfl, inside, rfl⟩ := read
    split
    · exact Program.spends_pure ⟨rfl, aligned⟩
    · obtain ⟨next, aligned'⟩ := off_next inside aligned
      exact ih (off + deSize) (next ▸ inside) aligned'

theorem blocksFrom_entry {off : Nat} (aligned : off % direntSize = 0) : blocksFrom off direntSize = 1 := by
  change off % 16 = 0 at aligned
  change (if (16 : Nat) = 0 then 0 else (off % 512 + 16 + 511) / 512) = 1
  rw [if_neg (by decide)]
  omega

section
variable (small : sb.size.toNat ≤ bpb) (admits : Admits inv)
include small admits

theorem passes_writei {src : Nat → UInt8} {off : UInt64} (working : Working inv sb B H m) (held : H dp) (sub : B ⊆ M)
    (bitmap : sb.bmapstart ∈ M) (isDir : (m.icache dp).type = T_DIR) (aligned : off.toNat % direntSize = 0) :
    Passes sb devsw M 2 (writei dp src off deSize) m fun _ t _ => Working inv sb B H t := by
  obtain ⟨nodes, owned⟩ := working.owned
  obtain ⟨used, locked, known, filled⟩ := working.usable dp held
  have copied := (owned.entry dp).copied used ((owned.entry dp).held locked).2
  have live := (owned.entry dp).live used
  have notDev : (m.icache dp).type ≠ T_DEV := by
    rw [isDir]
    decide
  have logs : Logs M 2 (Fs.writei sb devsw m.log (m.icache dp) src off deSize) m.store fun _ _ _ => True := by
    have whole : Logs M (2 * blocksFrom off.toNat deSize.toNat)
      (Fs.writei sb devsw m.log (m.icache dp) src off deSize) m.store
      fun _ _ _ => True := logs_writei small devsw notDev bitmap (sub known)
    rwa [toNat_deSize, blocksFrom_entry aligned] at whole
  refine passes_call Machine.handle_writei rfl logs fun out t M' _ ran _ => ?_
  have permitted : Permitted sb (.writei dp src off deSize) m := ⟨used, locked⟩
  have handled : m.handle sb devsw (.writei dp src off deSize) =
      some (out.1, ⟨Function.update m.icache dp out.2.1, out.2.2, t⟩) := by
    rw [Machine.handle_writei, Machine.call, ran]
    rfl
  have others : ∀ j, (m.icache j).type = T_DEV →
    (∀ dst off' n, Request.writei dp src off deSize ≠ .readi j dst off' n) ∧
      ∀ src' off' n, Request.writei dp src off deSize ≠ .writei j src' off' n := by
    refine fun j isDev => ⟨fun _ _ _ same => ?_, fun _ _ _ same => ?_⟩
    · cases same
    · cases same
      exact notDev isDev
  have owned' := owned.step_notDev admits permitted others handled
  obtain ⟨r, ip', log'⟩ := out
  rcases writei_returns devsw admits owned.logged owned.sound copied.node live.inside notDev (filled isDir) ran with
    ⟨_, _, rfl, rfl, rfl⟩ | ⟨_, _, _, _, nodes', updated⟩
  · refine working.touched owned' (fun j other => Function.update_of_ne other ..) fun _ => ?_
    rw [Function.update_self]
    exact ⟨used, locked, known, filled⟩
  · refine working.confined held owned owned' updated.toConfined (fun j other => Function.update_of_ne other ..) ?_
    rw [Function.update_self]
    refine ⟨?_, ?_, ?_, fun _ => updated.mapped⟩
    · rw [updated.fields]
      exact used
    · rw [updated.fields]
      exact locked
    · rw [updated.fields]
      exact known

/-- `dirlink` passes an indirect block and a data block besides the bitmap block and the inode. -/
theorem passes_dirlink {name : Name} {inum : UInt32} (working : Working inv sb B H m) (held : H dp) (sub : B ⊆ M)
    (bitmap : sb.bmapstart ∈ M) : Passes sb devsw M 2 (dirlink dp name inum) m fun _ t _ => Working inv sb B H t := by
  have filled := (working.usable dp held).filled
  refine (passes_dirlookup filled).seq fun out t M₁ grows₁ _ looked => ?_
  obtain ⟨isDir, looked⟩ := looked
  have notDev : (m.icache dp).type ≠ T_DEV := by
    rw [isDir]
    decide
  cases out with
  | some found =>
    refine Program.Spends.seq (passes_returned (n := 0) working looked) fun _ u M₂ _ _ working' => ?_
    exact Program.spends_pure working'
  | none =>
    obtain rfl : t = m := looked
    refine Program.spends_then (silent M₁) rfl ?_
    refine (passes_emptyFrom notDev (filled isDir) _ 0 (Nat.zero_le _) rfl).seq fun last u M₂ grows₂ _ ended => ?_
    obtain ⟨rfl, aligned⟩ := ended
    refine Program.Spends.bind (m := 0) (passes_writei small admits working held (sub.trans (grows₁.trans grows₂))
      (grows₂ (grows₁ bitmap)) isDir aligned) fun r u M₃ _ _ working' => ?_
    split
    · exact Program.spends_pure working'
    · exact passes_panic

theorem passes_linkType {type : UInt16} (working : Working inv sb B H m) (heldDp : H dp) (heldInd : H ind)
    (sub : B ⊆ M)
    (bitmap : sb.bmapstart ∈ M) : Passes sb devsw M 4 (linkType dp ind type) m fun _ t _ => Working inv sb B H t := by
  unfold linkType
  split
  · refine Program.spends_then (silent M) rfl ?_
    refine Program.Spends.seq (passes_setLinks working heldDp admits) fun _ m₁ M₁ grows₁ _ working₁ => ?_
    have sub₁ := sub.trans grows₁
    refine Program.Spends.seq (passes_iupdate working₁ heldDp admits sub₁) fun _ m₂ M₂ grows₂ _ working₂ => ?_
    have sub₂ := sub₁.trans grows₂
    refine Program.spends_then (silent M₂) rfl ?_
    refine Program.Spends.bind (m := 2) (passes_dirlink small admits working₂ heldInd sub₂ (grows₂ (grows₁ bitmap)))
      fun _ m₃ M₃ grows₃ _ working₃ => ?_
    refine Program.spends_then (silent M₃) rfl ?_
    refine Program.Spends.bind (m := 0) (passes_dirlink small admits working₃ heldInd (sub₂.trans grows₃)
      (grows₃ (grows₂ (grows₁ bitmap)))) fun _ m₄ M₄ _ _ working₄ => ?_
    exact Program.spends_pure working₄
  · exact Program.spends_pure working

structure Backed (inv : Log → Prop) (sb : Superblock) (M : Finset UInt32) (m : Machine) (i : Fin ninode) : Prop where
  owned : ∃ nodes, Owned inv sb m.icache m.log m.store.view nodes
  used : 0 < (m.icache i).ref
  valid : (m.icache i).valid = true
  known : iblock (m.icache i).inum sb ∈ M
  bitmap : sb.bmapstart ∈ M

/-- An inode is given back. If its count of links has come to 0, its blocks are freed. -/
theorem passes_given (backed : Backed inv sb M m i) : Passes sb devsw M 0 (iunlockput i) m fun _ t _ =>
    (∃ nodes, Owned inv sb t.icache t.log t.store.view nodes) ∧ ∀ j, j ≠ i → t.icache j = m.icache j := by
  obtain ⟨⟨nodes, owned⟩, used, valid, known, bitmap⟩ := backed
  have node := ((owned.entry i).copied used valid).node
  have covered : ∀ k, refAt m.store.view (m.icache i).addrs k ≠ 0 →
    Covered sb (refAt m.store.view (m.icache i).addrs k) := by
    intro k filled
    rw [← node] at filled ⊢
    exact (owned.sound.ref_held filled).covered
  have here : m.icache.iunlock i i = { m.icache i with locked := false } := Function.update_self ..
  have owned₁ := owned_done ⟨nodes, owned⟩ admits (r := .iunlock i) (a := ()) used rfl
  refine Program.spends_then (silent M) rfl ?_
  refine passes_call Machine.handle_iput rfl (logs_iput bitmap ?_ ?_ ?_) fun out s M' _ ran _ =>
    ⟨?_, fun j other => ?_⟩
  · dsimp only
    rw [here]
    exact known
  · dsimp only
    rw [here]
    exact fun k filled => bblock_small small (covered k filled)
  · dsimp only
    rw [here]
    intro filled
    have filled : refAt m.store.view (nodes (m.icache i).inum) .indirect ≠ 0 := by
      rw [node]
      exact filled
    have inside := (owned.sound.ref_held filled).covered
    have other := owned.sound.bitmap_not_ref inside filled
    rw [bblock_small small inside, node] at other
    exact other
  · have permitted : Permitted sb (.iput i) { m with icache := m.icache.iunlock i } := by
      dsimp only [Permitted]
      rw [here]
      exact ⟨used, nofun⟩
    exact owned_called owned₁ admits permitted Machine.handle_iput ran
  · obtain ⟨ip, same, _⟩ := (iput_alike _ i).returned ran
    dsimp only at same ⊢
    rw [same, Function.update_of_ne other, Icache.iunlock, Function.update_of_ne other]

end

/-! ## A new inode -/

/-- `ialloc` passes the block of the inode, for which an unused entry is taken. -/
theorem passes_ialloc {type : UInt16} (working : Working inv sb B H m) (admits : Admits inv) (typed : type ≠ 0) :
    Passes sb devsw M 1 (ialloc ROOTDEV type) m fun ind t M' => Working inv sb B H t ∧ ¬ H ind ∧
      0 < (t.icache ind).ref ∧ (t.icache ind).valid = false ∧ iblock (t.icache ind).inum sb ∈ M' ∧
      (diskInode sb t.store.view (t.icache ind).inum).size = 0 := by
  obtain ⟨nodes, owned⟩ := working.owned
  refine passes_call Machine.handle_ialloc rfl logs_ialloc fun out s M' _ ran known => ?_
  have owned' := owned_called working.owned admits (r := .ialloc ROOTDEV type) ⟨rfl, typed⟩ Machine.handle_ialloc ran
  obtain ⟨⟨inum, log₁⟩, u, finds, rest⟩ := Program.run_bind_eq_some.mp ran
  obtain ⟨rfl, _, inside, free⟩ := iallocFrom_returns admits owned.logged rfl rfl finds
  dsimp only at rest
  split at rest
  · next k c got =>
    cases rest
    rcases Icache.iget_cases got with ⟨number, used, _, _⟩ | ⟨_, unused, rfl⟩
    · -- an entry that is in use stands for an inode with a type
      exact absurd free (number ▸ ((owned.entry k).live used).typed)
    · have notHeld : ¬ H k := fun held => by
        have used := (working.usable k held).used
        omega
      refine ⟨⟨owned', fun j held => ?_⟩, notHeld, ?_⟩
      · have other : j ≠ k := by
          rintro rfl
          exact notHeld held
        dsimp only
        rw [Function.update_of_ne other]
        obtain ⟨used, locked, known, filled⟩ := working.usable j held
        refine ⟨used, locked, known, fun isDir l below => ?_⟩
        have node := ((owned.entry j).copied used ((owned.entry j).held locked).2).node
        have stays := blockAt_putInode owned.sound inside (Dinode.ofType type) (m.icache j).inum (l / bsize)
        rw [node] at stays
        rw [stays]
        exact filled isDir l below
      · dsimp only at known ⊢
        rw [Function.update_self] at known ⊢
        refine ⟨Int.one_pos, rfl, known, ?_⟩
        rw [diskInode_putInode_self]
        rfl
  · cases rest

theorem passes_ilock_new (working : Working inv sb B H m) (admits : Admits inv) (used : 0 < (m.icache ind).ref)
    (invalid : (m.icache ind).valid = false) (known : iblock (m.icache ind).inum sb ∈ B)
    (empty : (diskInode sb m.store.view (m.icache ind).inum).size = 0) :
    Passes sb devsw M n (ilock ind) m fun _ t _ => Working inv sb B (fun j => H j ∨ j = ind) t := by
  refine passes_call Machine.handle_ilock rfl (logs_ilock m.icache ind) fun c s M' _ ran _ => ?_
  have owned' := owned_called working.owned admits (r := .ilock ind) used Machine.handle_ilock ran
  rcases ilock_cases ran with ⟨_, valid, _⟩ | ⟨rfl, _, rfl⟩
  · exact Bool.noConfusion (invalid.symm.trans valid)
  · refine ⟨owned', fun j held => ?_⟩
    dsimp only
    by_cases same : j = ind
    · subst same
      rw [Function.update_self]
      refine ⟨used, rfl, known, fun _ k below => ?_⟩
      change k < (diskInode sb m.store.view (m.icache j).inum).size.toNat at below
      rw [empty] at below
      exact absurd below (Nat.not_lt_zero k)
    · rw [Function.update_of_ne same]
      exact working.usable j (held.resolve_right same)

/-! ## create -/

def Returnable (inv : Log → Prop) (sb : Superblock) (M : Finset UInt32) (m : Machine) (i : Fin ninode) : Prop :=
  (FileSystem inv sb m ∧ 0 < (m.icache i).ref) ∨ Backed inv sb M m i

theorem Returnable.mono {N : Finset UInt32} (returnable : Returnable inv sb M m i) (grows : M ⊆ N) :
    Returnable inv sb N m i := by
  rcases returnable with whole | backed
  · exact .inl whole
  · exact .inr { backed with known := grows backed.known, bitmap := grows backed.bitmap }

theorem passes_createFound {type : UInt16} {find : Fin ninode} (admits : Admits inv) (fs : FileSystem inv sb m)
    (used : 0 < (m.icache dp).ref) (taken : 0 < (m.icache find).ref) :
    Passes sb devsw M n (createFound dp find type) m fun out t M' => ∀ ip, out = some ip →
      Returnable inv sb M' t ip := by
  refine Program.Spends.seq (passes_iunlock fs admits used) fun _ m₁ M₁ _ _ unlocked => ?_
  obtain ⟨fs₁, rfl⟩ := unlocked
  have taken₁ : 0 < (m.icache.iunlock dp find).ref := by
    by_cases same : find = dp
    · subst same
      rwa [Icache.iunlock, Function.update_self]
    · rwa [Icache.iunlock, Function.update_of_ne same]
  refine Program.Spends.seq (passes_ilock fs₁ admits taken₁) fun _ m₂ M₂ _ _ locks => ?_
  split
  · refine Program.spends_pure fun ip same => ?_
    cases same
    exact .inl ⟨locks.1, locks.2.1⟩
  · exact Program.spends_then (silent M₂) rfl
      (Program.spends_pure fun _ found => absurd found.symm (Option.some_ne_none _))

section
variable (small : sb.size.toNat ≤ bpb) (admits : Admits inv) {type : UInt16} (typed : type ≠ 0)
include small admits typed

/-- With the blocks of the bitmap and of the directory, a new inode takes its own block and two blocks for each entry
that is written. It can be given back within these blocks. -/
theorem passes_createNew {name : Name} {major minor : UInt16} (device : (m.icache dp).dev = ROOTDEV)
    (working : Working inv sb {iblock (m.icache dp).inum sb} (· = dp) m) :
    Passes sb devsw M 9 (createNew dp name type major minor) m fun out t M' => ∃ ind, out = some ind ∧
      Backed inv sb M' t ind := by
  obtain ⟨N, isN⟩ : ∃ N : Finset UInt32, N = {sb.bmapstart, iblock (m.icache dp).inum sb} := ⟨_, rfl⟩
  have size : N.card ≤ 2 := isN ▸ Finset.card_le_two
  have bitmap : sb.bmapstart ∈ M ∪ N := by simp [isN]
  have known : iblock (m.icache dp).inum sb ∈ M ∪ N := by simp [isN]
  have rest : Passes sb devsw (M ∪ N) 7 (createNew dp name type major minor) m fun out t M' => ∃ ind,
    out = some ind ∧ Backed inv sb M' t ind := by
    refine Program.spends_then (silent _) rfl ?_
    rw [device]
    refine Program.Spends.bind (m := 6) (passes_ialloc working admits typed) fun ind m₁ M₁ grows₁ _ allocated => ?_
    obtain ⟨working₁, other, used, invalid, block, empty⟩ := allocated
    obtain ⟨B, isB⟩ : ∃ B : Finset UInt32, B = {iblock (m.icache dp).inum sb, iblock (m₁.icache ind).inum sb} :=
      ⟨_, rfl⟩
    have sub₁ : B ⊆ M₁ := by
      rw [isB]
      exact Finset.insert_subset (grows₁ known) (Finset.singleton_subset_iff.mpr block)
    have working₁ : Working inv sb B (· = dp) m₁ :=
      working₁.mono (by rw [isB]; exact Finset.singleton_subset_iff.mpr (by simp))
    have heldDp : dp = dp ∨ dp = ind := .inl rfl
    have heldInd : ind = dp ∨ ind = ind := .inr rfl
    refine Program.Spends.seq (passes_ilock_new working₁ admits used invalid (by simp [isB]) empty)
      fun _ m₂ M₂ grows₂ _ working₂ => ?_
    refine Program.Spends.seq (passes_setLinks working₂ heldInd admits) fun _ m₃ M₃ grows₃ _ working₃ => ?_
    have sub₃ := sub₁.trans (grows₂.trans grows₃)
    refine Program.Spends.seq (passes_iupdate working₃ heldInd admits sub₃) fun _ m₄ M₄ grows₄ _ working₄ => ?_
    have sub₄ := sub₃.trans grows₄
    have bitmap₄ := grows₄ (grows₃ (grows₂ (grows₁ bitmap)))
    refine Program.Spends.bind (m := 2) (passes_linkType small admits working₄ heldDp heldInd sub₄ bitmap₄)
      fun _ m₅ M₅ grows₅ _ working₅ => ?_
    refine Program.spends_then (silent M₅) rfl ?_
    refine Program.Spends.bind (m := 0) (passes_dirlink small admits working₅ heldDp (sub₄.trans grows₅)
      (grows₅ bitmap₄))
      fun _ m₆ M₆ grows₆ _ working₆ => ?_
    have sub₆ := sub₄.trans (grows₅.trans grows₆)
    have bitmap₆ := grows₆ (grows₅ bitmap₄)
    have dir := working₆.usable dp heldDp
    have new := working₆.usable ind heldInd
    obtain ⟨nodes, owned⟩ := working₆.owned
    have valid := ((owned.entry ind).held new.locked).2
    have backed : Backed inv sb M₆ m₆ dp :=
      ⟨working₆.owned, dir.used, ((owned.entry dp).held dir.locked).2, sub₆ dir.known, bitmap₆⟩
    refine Program.Spends.seq (passes_given small admits backed) fun _ m₇ M₇ grows₇ _ given => ?_
    have same := given.2 ind other
    refine Program.spends_pure ⟨ind, rfl, given.1, ?_, ?_, ?_, grows₇ bitmap₆⟩
    · rw [same]
      exact new.used
    · rw [same]
      exact valid
    · rw [same]
      exact grows₇ (sub₆ new.known)
  exact rest.extend.mono (by omega) fun _ _ _ _ _ post => post

/-- In a consistent file system with one bitmap block, `create` passes at most nine blocks to `log_write`. -/
theorem passes_create {cwd : Option (Fin ninode)} {path : List UInt8} {major minor : UInt16}
    (fs : FileSystem inv sb m)
    (here : ∀ dir, cwd = some dir → 0 < (m.icache dir).ref) : Passes sb devsw M 9 (create cwd path type major minor) m
      fun out t M' => ∀ ip, out = some ip → Returnable inv sb M' t ip := by
  refine Program.Spends.seq (passes_namex fs admits here) fun parent m₁ M₁ _ _ named => ?_
  obtain ⟨fs₁, mine⟩ := named
  cases parent with
  | none => exact Program.spends_pure fun _ found => absurd found.symm (Option.some_ne_none _)
  | some parent =>
    obtain ⟨dp, name⟩ := parent
    refine Program.Spends.seq (passes_ilock fs₁ admits (mine _ rfl).1) fun _ m₂ M₂ _ _ locks => ?_
    obtain ⟨fs₂, used, valid, locked⟩ := locks
    have filled := (fs₂.cached dp used valid).filled
    refine Program.Spends.seq (passes_dirlookup fun _ => filled) fun out m₃ M₃ _ _ looked => ?_
    cases out with
    | some found =>
      obtain ⟨isDir, looked⟩ := looked
      have fs₃ := fileSystem_looked fs₂ admits used valid isDir looked
      obtain ⟨used₃, _⟩ := mine_next fs₂ used looked
      obtain ⟨_, _, _, _, got⟩ := looked.entry
      have taken : 0 < (m₃.icache found.1).ref := (mine_of_iget (fileSystem_held fs₂) got).1
      exact passes_createFound admits fs₃ used₃ taken
    | none =>
      obtain ⟨_, rfl⟩ := looked
      obtain ⟨nodes, owned⟩ := fs₂.owned
      refine (passes_createNew small admits typed ((owned.entry dp).live used).device ⟨fs₂.owned, ?_⟩).mono le_rfl ?_
      · rintro j rfl
        exact ⟨used, locked, Finset.mem_singleton_self _, fun _ => filled⟩
      · rintro _ t M' _ _ ⟨ind, rfl, backed⟩ ip same
        cases same
        exact .inr backed

end

theorem passes_returnable (small : sb.size.toNat ≤ bpb) (admits : Admits inv) (returnable : Returnable inv sb M m i) :
    Passes sb devsw M 0 (iunlockput i) m fun _ _ _ => True := by
  rcases returnable with ⟨fs, used⟩ | backed
  · exact (passes_iunlockput fs admits used).mono le_rfl fun _ _ _ _ _ _ => trivial
  · exact (passes_given small admits backed).mono le_rfl fun _ _ _ _ _ _ => trivial

end Xv6.Inodes
