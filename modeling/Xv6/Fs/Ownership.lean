import Xv6.Fs.Machine
import Xv6.Fs.Release

/-! Ownership of disk blocks over runs of operations on inodes.

The blocks of an inode are those of its copy in memory while it is there, and otherwise
those of its copy on the disk. The copy on the disk may lack blocks that the copy in memory
has, since `bmap` does not write it.
-/

set_option autoImplicit false

namespace Xv6.Fs

open Library

variable {sb : Superblock} {view view' : UInt32 → Block} {nodes nodes' : Nodes} {inv : Log → Prop} {log log' : Log}
  {s t : Store} {f : UInt32} {m m' : Machine} {i : Fin ninode} {c : Icache}

/-! ## Transfers that return -/

/-- The functions of devices leave the disk alone. -/
structure Quiet (devsw : Fin ndev → Devsw UInt32) : Prop where
  read : ∀ d read ip dst n s out t, (devsw d).read = some read →
    (read ip dst n).run Store.handle s = some (out, t) → t = s
  write : ∀ d write ip src n s out t, (devsw d).write = some write →
    (write ip src n).run Store.handle s = some (out, t) → t = s

/-- What a loop that returned has done for an inode. The copy of the inode on the disk stays. -/
structure Looped (inv : Log → Prop) (sb : Superblock) (ip : MemInode) (s : Store) (nodes : Nodes) (ip' : MemInode)
    (log' : Log) (t : Store) (nodes' : Nodes) : Prop extends Confined sb ip.inum s.view nodes t.view nodes' where
  logged : inv log'
  store : t = { s with view := t.view }
  fields : ip' = { ip with addrs := ip'.addrs }
  node : nodes' ip.inum = ip'.addrs
  disk : InTable sb ip.inum → diskInode sb t.view ip.inum = diskInode sb s.view ip.inum

section
variable {ip ip' : MemInode}

theorem Looped.refl (ok : inv log) (sound : Sound sb s.view nodes) (here : nodes ip.inum = ip.addrs) :
    Looped inv sb ip s nodes ip log s nodes :=
  ⟨Confined.refl sound _, ok, rfl, rfl, here, fun _ => rfl⟩

theorem Looped.trans {ip₁ ip₂ : MemInode} {log₁ log₂ : Log} {t u : Store} {nodes₁ nodes₂ : Nodes}
    (first : Looped inv sb ip s nodes ip₁ log₁ t nodes₁) (second : Looped inv sb ip₁ t nodes₁ ip₂ log₂ u nodes₂) :
    Looped inv sb ip s nodes ip₂ log₂ u nodes₂ := by
  have inum : ip₁.inum = ip.inum := by rw [first.fields]
  have node := second.node
  have disk := second.disk
  have confined := second.toConfined
  rw [inum] at node disk confined
  refine ⟨first.toConfined.trans confined, second.logged, ?_, ?_, node, fun inside => ?_⟩
  · rw [second.store, first.store]
  · rw [second.fields, first.fields]
  · rw [disk inside, first.disk inside]

theorem Looped.bmap (admits : Admits inv) {i b : UInt32} {node : Inode} (ok : inv log) (sound : Sound sb s.view nodes)
    (here : nodes ip.inum = ip.addrs)
    (maps : (Fs.bmap sb log ip.toInode i).run Store.handle s = some ((b, node, log'), t)) :
    ∃ nodes', Looped inv sb ip s nodes { ip with toInode := node } log' t nodes' ∧
      b = blockAt t.view (nodes' ip.inum) i.toNat ∧ b ≠ 0 := by
  obtain ⟨nodes', grown, dev, here', value, real⟩ := bmap_grown admits ok sound here maps
  refine ⟨nodes', ⟨grown.toConfined, grown.logged, grown.store, ?_, here', grown.node⟩, value, real⟩
  cases node
  cases dev
  rfl

theorem Looped.write (admits : Admits inv) {b : UInt32} {i : Nat} {d : Block} (ok : inv log)
    (sound : Sound sb s.view nodes)
    (here : nodes ip.inum = ip.addrs) (value : b = blockAt s.view (nodes ip.inum) i) (real : b ≠ 0)
    (logged : (log.logWrite b).run Store.handle { s with view := Function.update s.view b d } = some (log', t)) :
    Looped inv sb ip s nodes ip log' t nodes := by
  obtain ⟨log₂, logs, ok₂⟩ := run_logWrite_store admits ok b { s with view := Function.update s.view b d }
  rw [logs] at logged
  cases logged
  obtain ⟨k, _, slot, direct⟩ := slotOf_some (value ▸ real)
  obtain rfl := value.trans slot
  refine ⟨Confined.write sound direct real d, ok₂, rfl, rfl, here, fun inside => ?_⟩
  exact diskInode_write sound real d inside

theorem readLoop_looped (admits : Admits inv) {n : UInt64} {turns : Nat} {tot off : UInt64} {dst dst' : Nat → UInt8}
    (ok : inv log) (sound : Sound sb s.view nodes) (here : nodes ip.inum = ip.addrs)
    (ran : (readLoop sb n turns tot off dst ip log).run Store.handle s = some ((dst', ip', log'), t)) :
    ∃ nodes', Looped inv sb ip s nodes ip' log' t nodes' := by
  induction turns generalizing tot off dst ip log s nodes with
  | zero =>
    rw [readLoop] at ran
    split at ran
    · cases ran
    · cases ran
      exact ⟨nodes, Looped.refl ok sound here⟩
  | succ turns ih =>
    rw [readLoop] at ran
    split at ran
    · obtain ⟨⟨b, node, log₁⟩, u, maps, ran⟩ := Program.run_bind_eq_some.mp ran
      obtain ⟨_, _, read, ran⟩ := Program.run_bind_eq_some.mp ran
      cases read
      obtain ⟨_, _, loaded, ran⟩ := Program.run_bind_eq_some.mp ran
      cases loaded
      obtain ⟨_, _, gave, ran⟩ := Program.run_bind_eq_some.mp ran
      cases gave
      obtain ⟨nodes₁, first, _⟩ := Looped.bmap admits ok sound here maps
      obtain ⟨nodes', rest⟩ := ih first.logged first.sound first.node ran
      exact ⟨nodes', first.trans rest⟩
    · cases ran
      exact ⟨nodes, Looped.refl ok sound here⟩

theorem writeLoop_looped (admits : Admits inv) {src : Nat → UInt8} {n : UInt64} {turns : Nat} {tot off last : UInt64}
    (ok : inv log) (sound : Sound sb s.view nodes) (here : nodes ip.inum = ip.addrs)
    (ran : (writeLoop sb src n turns tot off ip log).run Store.handle s = some ((last, ip', log'), t)) :
    ∃ nodes', Looped inv sb ip s nodes ip' log' t nodes' := by
  induction turns generalizing tot off ip log s nodes with
  | zero =>
    rw [writeLoop] at ran
    split at ran
    · cases ran
    · cases ran
      exact ⟨nodes, Looped.refl ok sound here⟩
  | succ turns ih =>
    rw [writeLoop] at ran
    split at ran
    · obtain ⟨⟨b, node, log₁⟩, u, maps, ran⟩ := Program.run_bind_eq_some.mp ran
      obtain ⟨_, _, read, ran⟩ := Program.run_bind_eq_some.mp ran
      cases read
      obtain ⟨_, _, loaded, ran⟩ := Program.run_bind_eq_some.mp ran
      cases loaded
      obtain ⟨_, u', stored, ran⟩ := Program.run_bind_eq_some.mp ran
      cases stored
      obtain ⟨log₂, _, logged, ran⟩ := Program.run_bind_eq_some.mp ran
      obtain ⟨_, _, gave, ran⟩ := Program.run_bind_eq_some.mp ran
      cases gave
      obtain ⟨nodes₁, first, value, real⟩ := Looped.bmap admits ok sound here maps
      have second : Looped inv sb { ip with toInode := node } u nodes₁ { ip with toInode := node } log₂ _ nodes₁ :=
        Looped.write admits first.logged first.sound first.node value real logged
      obtain ⟨nodes', rest⟩ := ih second.logged second.sound second.node ran
      exact ⟨nodes', (first.trans second).trans rest⟩
    · cases ran
      exact ⟨nodes, Looped.refl ok sound here⟩

variable {devsw : Fin ndev → Devsw UInt32}

theorem readi_looped (admits : Admits inv) (quiet : Quiet devsw) {dst dst' : Nat → UInt8} {off n : UInt64} {r : Int}
    (ok : inv log) (sound : Sound sb s.view nodes) (here : nodes ip.inum = ip.addrs)
    (ran : (readi sb devsw log ip dst off n).run Store.handle s = some ((r, dst', ip', log'), t)) :
    ∃ nodes', Looped inv sb ip s nodes ip' log' t nodes' := by
  rw [readi] at ran
  split at ran
  · split at ran
    · next major =>
      split at ran
      · next read found =>
        obtain ⟨out, u, reads, done⟩ := Program.run_bind_eq_some.mp ran
        cases done
        obtain rfl := quiet.read _ _ _ _ _ _ _ _ found reads
        exact ⟨nodes, Looped.refl ok sound here⟩
      · cases ran
        exact ⟨nodes, Looped.refl ok sound here⟩
    · cases ran
      exact ⟨nodes, Looped.refl ok sound here⟩
  · split at ran
    · cases ran
      exact ⟨nodes, Looped.refl ok sound here⟩
    · obtain ⟨⟨dst₁, ip₁, log₁⟩, u, loops, done⟩ := Program.run_bind_eq_some.mp ran
      cases done
      exact readLoop_looped admits ok sound here loops

/-- What `writei` has done for an inode. Its copy on the disk stays or becomes the one in memory. -/
structure Moved (inv : Log → Prop) (sb : Superblock) (ip : MemInode) (s : Store) (nodes : Nodes) (ip' : MemInode)
    (log' : Log) (t : Store) (nodes' : Nodes) : Prop extends Confined sb ip.inum s.view nodes t.view nodes' where
  logged : inv log'
  fields : ip' = { ip with addrs := ip'.addrs, size := ip'.size }
  node : nodes' ip.inum = ip'.addrs
  disk : diskInode sb t.view ip.inum = diskInode sb s.view ip.inum ∨ diskInode sb t.view ip.inum = ip'.dinode

theorem Moved.update (ok : inv log) (sound : Sound sb s.view nodes) (here : nodes ip.inum = ip.addrs)
    (inside : InTable sb ip.inum) :
    Moved inv sb ip s nodes ip log { s with view := putInode sb s.view ip.inum ip.dinode } nodes where
  toConfined := Confined.putInode sound inside ip.dinode
  logged := ok
  fields := rfl
  node := here
  disk := .inr (diskInode_putInode_self _)

theorem Looped.moved (looped : Looped inv sb ip s nodes ip' log' t nodes') (inside : InTable sb ip.inum) :
    Moved inv sb ip s nodes ip' log' t nodes' := by
  refine ⟨looped.toConfined, looped.logged, ?_, looped.node, .inl (looped.disk inside)⟩
  rw [looped.fields]

theorem writei_moved (admits : Admits inv) (quiet : Quiet devsw) {src : Nat → UInt8} {off n : UInt64} {r : Int}
    (ok : inv log) (sound : Sound sb s.view nodes) (here : nodes ip.inum = ip.addrs) (inside : InTable sb ip.inum)
    (ran : (writei sb devsw log ip src off n).run Store.handle s = some ((r, ip', log'), t)) :
    ∃ nodes', Moved inv sb ip s nodes ip' log' t nodes' := by
  have same : Moved inv sb ip s nodes ip log s nodes := (Looped.refl ok sound here).moved inside
  rw [writei] at ran
  split at ran
  · split at ran
    · next major =>
      split at ran
      · next write found =>
        obtain ⟨out, u, writes, done⟩ := Program.run_bind_eq_some.mp ran
        cases done
        obtain rfl := quiet.write _ _ _ _ _ _ _ _ found writes
        exact ⟨nodes, same⟩
      · cases ran
        exact ⟨nodes, same⟩
    · cases ran
      exact ⟨nodes, same⟩
  · split at ran
    · cases ran
      exact ⟨nodes, same⟩
    · split at ran
      · cases ran
        exact ⟨nodes, same⟩
      · obtain ⟨⟨last, ip₁, log₁⟩, u, loops, ran⟩ := Program.run_bind_eq_some.mp ran
        obtain ⟨nodes₁, looped⟩ := writeLoop_looped admits ok sound here loops
        have moved := looped.moved inside
        dsimp only at ran
        split at ran
        · obtain ⟨log₂, v, updates, done⟩ := Program.run_bind_eq_some.mp ran
          cases done
          obtain ⟨log₃, puts, ok₃⟩ := iupdate_run sb admits looped.logged { ip₁ with size := last.toUInt32 } u
          rw [puts] at updates
          cases updates
          have inum : ip₁.inum = ip.inum := by rw [looped.fields]
          refine ⟨nodes₁, looped.toConfined.trans ?_, ok₃, ?_, looped.node, .inr ?_⟩
          · change Confined sb ip.inum u.view nodes₁ (putInode sb u.view ip₁.inum _) nodes₁
            rw [inum]
            exact Confined.putInode looped.sound inside _
          · rw [looped.fields]
          · rw [← inum]
            exact diskInode_putInode_self _
        · cases ran
          exact ⟨nodes₁, moved⟩

end

/-! ## The invariant -/

theorem refAt_extends {addrs more : Addrs} (extends_ : ∀ a, addrs a ≠ 0 → addrs a = more a) {k : Slot}
    (filled : refAt view addrs k ≠ 0) : refAt view addrs k = refAt view more k := by
  cases k with
  | direct k => exact extends_ _ filled
  | indirect => exact extends_ _ filled
  | entry j =>
    by_cases none : addrs Inode.indirect = 0
    · exact absurd (refAt_entry_none none j) filled
    · have same := extends_ _ none
      rw [refAt_entry none, refAt_entry (same ▸ none), same]

theorem Sound.fewer (sound : Sound sb view nodes)
    (sub : ∀ g k, refAt view (nodes' g) k ≠ 0 → refAt view (nodes' g) k = refAt view (nodes g) k) :
    Sound sb view nodes' := by
  refine ⟨sound.owns.release ?_ ?_, sound.reserved, sound.apart⟩
  · rintro ⟨g, k⟩ filled
    exact sub g k filled
  · exact fun _ _ held => held

structure Live (sb : Superblock) (view : UInt32 → Block) (ip : MemInode) : Prop where
  device : ip.dev = ROOTDEV
  inside : InTable sb ip.inum
  typed : (diskInode sb view ip.inum).type ≠ 0

/-- The copy of an inode in memory has the blocks of the inode, and every block that the copy
on the disk has. -/
structure Copied (sb : Superblock) (view : UInt32 → Block) (nodes : Nodes) (ip : MemInode) : Prop where
  node : nodes ip.inum = ip.addrs
  typed : ip.type ≠ 0
  disk : ∀ a, (diskInode sb view ip.inum).addrs a ≠ 0 → (diskInode sb view ip.inum).addrs a = ip.addrs a

/-- The blocks of an inode on the disk. An inode that is free has none. -/
def diskNodes (sb : Superblock) (view : UInt32 → Block) : Nodes := fun g =>
  if InTable sb g ∧ (diskInode sb view g).type ≠ 0 then (diskInode sb view g).addrs else fun _ => 0

structure CacheEntry (sb : Superblock) (view : UInt32 → Block) (nodes : Nodes) (ip : MemInode) : Prop where
  live : 0 < ip.ref → Live sb view ip
  copied : 0 < ip.ref → ip.valid = true → Copied sb view nodes ip
  held : ip.locked = true → 0 < ip.ref ∧ ip.valid = true

def Caches (ip : MemInode) (g : UInt32) : Prop := 0 < ip.ref ∧ ip.valid = true ∧ ip.inum = g

structure Owned (inv : Log → Prop) (sb : Superblock) (c : Icache) (log : Log) (view : UInt32 → Block)
    (nodes : Nodes) :
    Prop where
  logged : inv log
  sound : Sound sb view nodes
  entry : ∀ i, CacheEntry sb view nodes (c i)
  alone : ∀ i j, 0 < (c i).ref → 0 < (c j).ref → (c i).inum = (c j).inum → i = j
  disk : ∀ g, (∀ i, ¬ Caches (c i) g) → nodes g = diskNodes sb view g

/-- What the callers of an operation see to: they hold references to the inodes that they use,
lock them before they use the fields, and find them through entries of allocated inodes. -/
def Permitted (sb : Superblock) (r : Inodes.Request) (m : Machine) : Prop :=
  match r with
  | .iget dev inum => dev = ROOTDEV ∧ InTable sb inum ∧ (diskInode sb m.store.view inum).type ≠ 0
  | .ialloc dev type => dev = ROOTDEV ∧ type ≠ 0
  | .idup i | .ilock i | .iunlock i | .fields i => 0 < (m.icache i).ref
  | .iput i => 0 < (m.icache i).ref ∧ ((m.icache i).locked = true → 1 < (m.icache i).ref)
  | .setLinks i .. | .iupdate i | .readi i .. | .writei i .. => 0 < (m.icache i).ref ∧ (m.icache i).locked = true
  | .panic => True

/-- The blocks of every inode: those of its copy in memory while there is one. -/
def currentNodes (sb : Superblock) (m : Machine) : Nodes := fun g =>
  match (List.finRange ninode).find? fun i =>
      decide (0 < (m.icache i).ref ∧ (m.icache i).valid = true ∧ (m.icache i).inum = g) with
  | some i => (m.icache i).addrs
  | none => diskNodes sb m.store.view g

namespace Owned

variable {e : MemInode}

theorem replace (owned : Owned inv sb c log view nodes) (ok : inv log') (sound : Sound sb view' nodes')
    (entry : CacheEntry sb view' nodes' e) (others : ∀ j, j ≠ i → CacheEntry sb view' nodes' (c j))
    (alone : ∀ j, j ≠ i → 0 < e.ref → 0 < (c j).ref → (c j).inum ≠ e.inum)
    (disk : ∀ g, ¬ Caches e g → (∀ j, j ≠ i → ¬ Caches (c j) g) → nodes' g = diskNodes sb view' g) :
    Owned inv sb (Function.update c i e) log' view' nodes' := by
  refine ⟨ok, sound, ?_, ?_, ?_⟩
  · intro j
    by_cases same : j = i
    · subst same
      rwa [Function.update_self]
    · rw [Function.update_of_ne same]
      exact others j same
  · intro j k usedJ usedK same
    by_cases isJ : j = i
    · by_cases isK : k = i
      · exact isJ.trans isK.symm
      · subst isJ
        rw [Function.update_self] at usedJ same
        rw [Function.update_of_ne isK] at usedK same
        exact absurd same.symm (alone k isK usedJ usedK)
    · rw [Function.update_of_ne isJ] at usedJ same
      by_cases isK : k = i
      · subst isK
        rw [Function.update_self] at usedK same
        exact absurd same (alone j isJ usedK usedJ)
      · rw [Function.update_of_ne isK] at usedK same
        exact owned.alone j k usedJ usedK same
  · intro g absent
    refine disk g ?_ fun j apart => ?_
    · have here := absent i
      rwa [Function.update_self] at here
    · have here := absent j
      rwa [Function.update_of_ne apart] at here

section
variable (same : ∀ g, g ≠ f → nodes' g = nodes g)
  (table : ∀ g, InTable sb g → g ≠ f → diskInode sb view' g = diskInode sb view g)
include table

include same in
/-- Another entry of the cache, when an operation keeps what does not belong to inode `f`. -/
theorem other_entry (owned : Owned inv sb c log view nodes) {j : Fin ninode}
    (apart : 0 < (c j).ref → (c j).inum ≠ f) : CacheEntry sb view' nodes' (c j) := by
  have before := owned.entry j
  have table : 0 < (c j).ref → diskInode sb view' (c j).inum = diskInode sb view (c j).inum :=
    fun used => table _ (before.live used).inside (apart used)
  refine ⟨fun used => ?_, fun used cached => ?_, before.held⟩
  · have live := before.live used
    exact ⟨live.device, live.inside, table used ▸ live.typed⟩
  · have copied := before.copied used cached
    exact ⟨(same _ (apart used)).trans copied.node, copied.typed, table used ▸ copied.disk⟩

theorem diskNodes_other {g : UInt32} (apart : g ≠ f) : diskNodes sb view' g = diskNodes sb view g := by
  unfold diskNodes
  by_cases inside : InTable sb g
  · rw [table g inside apart]
  · rw [if_neg (fun both => inside both.1), if_neg (fun both => inside both.1)]

end

theorem confined (owned : Owned inv sb c log view nodes) (used : 0 < (c i).ref)
    (moved : Confined sb (c i).inum view nodes view' nodes') (ok : inv log') (inum : e.inum = (c i).inum)
    (ref : 0 < e.ref) (valid : e.valid = true) (live : Live sb view' e) (copied : Copied sb view' nodes' e) :
    Owned inv sb (Function.update c i e) log' view' nodes' := by
  have apart : ∀ j, j ≠ i → 0 < (c j).ref → (c j).inum ≠ (c i).inum :=
    fun j other usedJ same => other (owned.alone j i usedJ used same)
  refine owned.replace ok moved.sound ?_ ?_ ?_ ?_
  · exact ⟨fun _ => live, fun _ _ => copied, fun _ => ⟨ref, valid⟩⟩
  · exact fun j other => owned.other_entry moved.same moved.table (apart j other)
  · exact fun j other _ usedJ => inum ▸ apart j other usedJ
  · intro g here others
    have distinct : g ≠ (c i).inum := by
      rintro rfl
      exact here ⟨ref, valid, inum⟩
    rw [moved.same g distinct, diskNodes_other moved.table distinct]
    refine owned.disk g fun j cached => ?_
    by_cases same : j = i
    · subst same
      exact distinct cached.2.2.symm
    · exact others j same cached

/-- A transfer to or from a locked inode, or an update of its copy on the disk. -/
theorem moved (owned : Owned inv sb c log s.view nodes) (used : 0 < (c i).ref) (valid : (c i).valid = true)
    (moved : Moved inv sb (c i) s nodes e log' t nodes') :
    Owned inv sb (Function.update c i e) log' t.view nodes' := by
  have before := (owned.entry i).copied used valid
  have live := (owned.entry i).live used
  have inum : e.inum = (c i).inum := by rw [moved.fields]
  have type : e.type = (c i).type := by rw [moved.fields]
  have copied : Copied sb t.view nodes' e := by
    refine ⟨inum ▸ moved.node, type ▸ before.typed, ?_⟩
    rw [inum]
    rcases moved.disk with same | new
    · intro a present
      rw [same] at present ⊢
      have kept := before.disk a present
      have filled : refAt s.view (nodes (c i).inum) (.address a) ≠ 0 := by
        rw [refAt_address, before.node, ← kept]
        exact present
      have stays := moved.keeps _ filled
      rw [refAt_address, refAt_address, moved.node, before.node] at stays
      exact kept.trans stays.symm
    · rw [new]
      exact fun _ _ => rfl
  have typed : (diskInode sb t.view e.inum).type ≠ 0 := by
    rw [inum]
    rcases moved.disk with same | new
    · rw [same]
      exact live.typed
    · rw [new]
      exact copied.typed
  refine owned.confined used moved.toConfined moved.logged inum ?_ ?_ ⟨?_, inum ▸ live.inside, typed⟩ copied
  · rw [moved.fields]
    exact used
  · rw [moved.fields]
    exact valid
  · rw [moved.fields]
    exact live.device

theorem touch (owned : Owned inv sb c log view nodes) (used : 0 < (c i).ref) (dev : e.dev = (c i).dev)
    (inum : e.inum = (c i).inum) (ref : 0 < e.ref) (valid : e.valid = (c i).valid) (addrs : e.addrs = (c i).addrs)
    (type : e.type = (c i).type) (held : e.locked = true → e.valid = true) :
    Owned inv sb (Function.update c i e) log view nodes := by
  have before := owned.entry i
  have live := before.live used
  refine owned.replace owned.logged owned.sound ?_ (fun j _ => owned.entry j) ?_ ?_
  · refine ⟨fun _ => ⟨dev ▸ live.device, inum ▸ live.inside, inum ▸ live.typed⟩, fun _ cached => ?_,
      fun locked => ⟨ref, held locked⟩⟩
    have copied := before.copied used (valid ▸ cached)
    exact ⟨by rw [inum, addrs]; exact copied.node, type ▸ copied.typed, by rw [inum, addrs]; exact copied.disk⟩
  · exact fun j other _ usedJ same => other (owned.alone j i usedJ used (same.trans inum))
  · intro g here others
    refine owned.disk g fun j cached => ?_
    by_cases same : j = i
    · subst same
      exact here ⟨ref, valid.trans cached.2.1, inum.trans cached.2.2⟩
    · exact others j same cached

theorem fresh (owned : Owned inv sb c log view nodes) (unused : (c i).ref = 0) {dev inum : UInt32}
    (absent : ∀ j, 0 < (c j).ref → (c j).inum ≠ inum)
    (live : Live sb view { c i with dev, inum, ref := 1, size := 0, valid := false }) :
    Owned inv sb (Function.update c i { c i with dev, inum, ref := 1, size := 0, valid := false }) log view nodes := by
  refine owned.replace owned.logged owned.sound ?_ (fun j _ => owned.entry j) (fun j _ _ used => absent j used) ?_
  · refine ⟨fun _ => live, nofun, fun locked => ?_⟩
    have held := (owned.entry i).held locked
    omega
  · intro g _ others
    refine owned.disk g fun j cached => ?_
    by_cases same : j = i
    · have used := cached.1
      rw [same, unused] at used
      omega
    · exact others j same cached

theorem uncached (owned : Owned inv sb c log view nodes) (used : 0 < (c i).ref) (invalid : (c i).valid = false) :
    nodes (c i).inum = diskNodes sb view (c i).inum := by
  refine owned.disk _ fun j cached => ?_
  obtain rfl := owned.alone j i cached.1 used cached.2.2
  exact Bool.noConfusion (invalid.symm.trans cached.2.1)

theorem diskNodes_live {ip : MemInode} (live : Live sb view ip) :
    diskNodes sb view ip.inum = (diskInode sb view ip.inum).addrs := if_pos ⟨live.inside, live.typed⟩

theorem load (owned : Owned inv sb c log view nodes) (used : 0 < (c i).ref) (invalid : (c i).valid = false) :
    Owned inv sb (Function.update c i
      { (c i).load (diskInode sb view (c i).inum) with locked := true, valid := true }) log view nodes := by
  have live := (owned.entry i).live used
  refine owned.replace owned.logged owned.sound ?_ (fun j _ => owned.entry j) ?_ ?_
  · refine ⟨fun _ => ⟨live.device, live.inside, live.typed⟩, fun _ _ => ⟨?_, live.typed, fun _ _ => rfl⟩,
      fun _ => ⟨used, rfl⟩⟩
    exact (owned.uncached used invalid).trans (diskNodes_live live)
  · exact fun j other _ usedJ same => other (owned.alone j i usedJ used same)
  · intro g _ others
    refine owned.disk g fun j cached => ?_
    by_cases same : j = i
    · subst same
      exact Bool.noConfusion (invalid.symm.trans cached.2.1)
    · exact others j same cached

theorem disk_ref (owned : Owned inv sb c log view nodes) (g : UInt32) (k : Slot)
    (filled : refAt view (diskNodes sb view g) k ≠ 0) :
    refAt view (diskNodes sb view g) k = refAt view (nodes g) k := by
  by_cases cached : ∃ i, Caches (c i) g
  · obtain ⟨i, used, valid, rfl⟩ := cached
    have copied := (owned.entry i).copied used valid
    have live := (owned.entry i).live used
    rw [diskNodes_live live] at filled ⊢
    rw [copied.node]
    exact refAt_extends copied.disk filled
  · rw [owned.disk g fun i has => cached ⟨i, has⟩]

-- The last reference to an inode is dropped: its copy on the disk stays.
theorem drop (owned : Owned inv sb c log view nodes) (last : (c i).ref = 1) (unlocked : (c i).locked = false) :
    ∃ nodes', Owned inv sb (Function.update c i { c i with ref := (c i).ref - 1 }) log view nodes' := by
  have used : 0 < (c i).ref := by omega
  have apart : ∀ j, j ≠ i → 0 < (c j).ref → (c j).inum ≠ (c i).inum :=
    fun j other usedJ same => other (owned.alone j i usedJ used same)
  have same : ∀ g, g ≠ (c i).inum →
      Function.update nodes (c i).inum (diskNodes sb view (c i).inum) g = nodes g :=
    fun g other => Function.update_of_ne other ..
  refine ⟨Function.update nodes (c i).inum (diskNodes sb view (c i).inum), owned.replace owned.logged ?_ ?_ ?_ ?_ ?_⟩
  · refine owned.sound.fewer fun g k filled => ?_
    by_cases here : g = (c i).inum
    · subst here
      rw [Function.update_self] at filled ⊢
      exact owned.disk_ref _ k filled
    · rw [same g here]
  · have zero : ¬ 0 < (c i).ref - 1 := by omega
    exact ⟨fun used => absurd used zero, fun used => absurd used zero,
      fun locked => Bool.noConfusion (unlocked.symm.trans locked)⟩
  · exact fun j other => owned.other_entry same (fun _ _ _ => rfl) (apart j other)
  · exact fun j other _ usedJ => apart j other usedJ
  · intro g _ others
    by_cases here : g = (c i).inum
    · subst here
      exact Function.update_self ..
    · rw [same g here]
      refine owned.disk g fun j cached => ?_
      by_cases isI : j = i
      · subst isI
        exact here cached.2.2.symm
      · exact others j isI cached

theorem free (owned : Owned inv sb c log view nodes) (admits : Admits inv) {s : Store} (isView : s.view = view)
    (last : (c i).ref = 1) (valid : (c i).valid = true) (unlinked : (c i).nlink = 0)
    (unlocked : (c i).locked = false) :
    ∃ c' log' t nodes', (iput sb c log i).run Store.handle s = some ((c', log'), t) ∧
      Owned inv sb c' log' t.view nodes' := by
  subst isView
  have used : 0 < (c i).ref := by omega
  have before := owned.entry i
  have copied := before.copied used valid
  have inside := (before.live used).inside
  obtain ⟨log₁, view₁, truncates, ok₁, freed⟩ := itrunc_run admits owned.logged owned.sound copied.node
  obtain ⟨view₂, isView₂⟩ : ∃ v, v = putInode sb view₁ (c i).inum ({ c i with size := 0 } : MemInode).dinode :=
    ⟨_, rfl⟩
  rw [← isView₂] at truncates
  obtain ⟨log₂, updates, ok₂⟩ :=
    iupdate_run sb admits ok₁ { c i with size := 0, type := 0 } { s with view := view₂ }
  have sound₁ := freed.sound owned.sound
  have puts := Confined.putInode sound₁ inside ({ c i with size := 0 } : MemInode).dinode
  rw [← isView₂] at puts
  have puts' := Confined.putInode puts.sound inside ({ c i with size := 0, type := 0 } : MemInode).dinode
  have gone : diskInode sb (putInode sb view₂ (c i).inum ({ c i with size := 0, type := 0 } : MemInode).dinode)
      (c i).inum = ({ c i with size := 0, type := 0 } : MemInode).dinode := diskInode_putInode_self _
  obtain ⟨view₃, isView₃⟩ : ∃ v,
    v = putInode sb view₂ (c i).inum ({ c i with size := 0, type := 0 } : MemInode).dinode := ⟨_, rfl⟩
  rw [← isView₃] at puts' gone
  have updates : (iupdate sb log₁ { c i with size := 0, type := 0 }).run Store.handle { s with view := view₂ } =
      some (log₂, { s with view := view₃ }) := isView₃ ▸ updates
  have apart : ∀ j, j ≠ i → 0 < (c j).ref → (c j).inum ≠ (c i).inum :=
    fun j other usedJ same => other (owned.alone j i usedJ used same)
  have same : ∀ g, g ≠ (c i).inum → Function.update nodes (c i).inum (fun _ => 0) g = nodes g :=
    fun g other => Function.update_of_ne other ..
  have table : ∀ g, InTable sb g → g ≠ (c i).inum → diskInode sb view₃ g = diskInode sb s.view g := by
    intro g insideG other
    rw [puts'.table g insideG other, puts.table g insideG other, freed.diskInode owned.sound insideG]
  refine ⟨Function.update c i { c i with size := 0, type := 0, valid := false, ref := (c i).ref - 1 }, log₂,
    { s with view := view₃ }, Function.update nodes (c i).inum fun _ => 0, ?_,
    owned.replace ok₂ puts'.sound ?_ ?_ ?_ ?_⟩
  · rw [iput, if_pos ⟨last, valid, unlinked⟩, if_neg (Bool.eq_false_iff.mp unlocked)]
    simp only [Program.run_bind, truncates, Option.bind_some, updates, Program.run_pure]
  · have zero : ¬ 0 < (c i).ref - 1 := by omega
    exact ⟨fun used => absurd used zero, fun used => absurd used zero,
      fun locked => Bool.noConfusion (unlocked.symm.trans locked)⟩
  · exact fun j other => owned.other_entry same table (apart j other)
  · exact fun j other _ usedJ => apart j other usedJ
  · intro g _ others
    by_cases here : g = (c i).inum
    · subst here
      have free : ¬ (InTable sb (c i).inum ∧ (diskInode sb view₃ (c i).inum).type ≠ 0) := by
        rw [gone]
        exact fun both => both.2 rfl
      rw [Function.update_self, diskNodes, if_neg free]
    · rw [same g here, diskNodes_other table here]
      refine owned.disk g fun j cached => ?_
      by_cases isI : j = i
      · subst isI
        exact here cached.2.2.symm
      · exact others j isI cached

theorem allocate (owned : Owned inv sb c log view nodes) (ok : inv log') {g : UInt32} {type : UInt16}
    (inside : InTable sb g) (free : (diskInode sb view g).type = 0) (typed : type ≠ 0) :
    Owned inv sb c log' (putInode sb view g (.ofType type)) nodes := by
  have puts := Confined.putInode owned.sound inside (.ofType type)
  have apart : ∀ j, 0 < (c j).ref → (c j).inum ≠ g := by
    rintro j used rfl
    exact ((owned.entry j).live used).typed free
  refine ⟨ok, puts.sound, fun j => owned.other_entry puts.same puts.table (apart j), owned.alone, ?_⟩
  intro h absent
  by_cases here : h = g
  · subst here
    have empty : diskNodes sb view h = fun _ => 0 := if_neg fun both => both.2 free
    have filled : diskNodes sb (putInode sb view h (.ofType type)) h = fun _ => 0 := by
      rw [diskNodes, diskInode_putInode_self]
      exact if_pos ⟨inside, typed⟩
    rw [owned.disk h absent, empty, filled]
  · rw [owned.disk h absent, diskNodes_other puts.table here]

end Owned

/-! ## ialloc -/

theorem freeInode_some {d : Block} {j : Fin ipb} (found : d.freeInode = some j) : (d.dinode j).type = 0 := by
  have here := List.find?_some found
  simp only [decide_eq_true_eq] at here
  exact here.2

/-- `i` is the first inode of a block of the table, so it shares the block with the `j`-th inode after it. -/
theorem iblock_add {i : UInt32} (aligned : i.toNat % ipb = 0) (j : Fin ipb) :
    (i + UInt32.ofNat j).toNat = i.toNat + j.val ∧ iblock (i + UInt32.ofNat j) sb = iblock i sb ∧
      inodeIndex (i + UInt32.ofNat j) = j := by
  have places : j.val < 8 := j.isLt
  have starts : i.toNat % 8 = 0 := aligned
  have bound := i.toNat_lt
  have sum : (i + UInt32.ofNat j).toNat = i.toNat + j.val := by
    rw [UInt32.toNat_add, UInt32.toNat_ofNat']
    omega
  refine ⟨sum, ?_, ?_⟩
  · simp only [iblock]
    congr 1
    rw [← UInt32.toNat_inj, UInt32.toNat_div, UInt32.toNat_div, sum]
    change (i.toNat + j.val) / 8 = i.toNat / 8
    omega
  · apply Fin.ext
    simp only [inodeIndex, sum]
    change (i.toNat + j.val) % 8 = j.val
    omega

-- The inode that `ialloc` takes was free, and is a new inode on the disk.
theorem iallocFrom_returns (admits : Admits inv) (ok : inv log) {dev inum i : UInt32} {type : UInt16} {turns : Nat}
    (aligned : i.toNat % ipb = 0) (left : (sb.ninodes.toNat + (ipb - 1)) / ipb = turns + i.toNat / ipb)
    (ran : (iallocFrom sb log dev type turns i).run Store.handle s = some ((inum, log'), t)) :
    t = { s with view := putInode sb s.view inum (.ofType type) } ∧ inv log' ∧ InTable sb inum ∧
      (diskInode sb s.view inum).type = 0 := by
  induction turns generalizing i with
  | zero => cases ran
  | succ turns ih =>
    have starts : i.toNat % 8 = 0 := aligned
    have count : (sb.ninodes.toNat + 7) / 8 = turns + 1 + i.toNat / 8 := left
    have table := sb.ninodes.toNat_lt
    rw [iallocFrom] at ran
    obtain ⟨_, _, read, ran⟩ := Program.run_bind_eq_some.mp ran
    cases read
    obtain ⟨_, _, loaded, ran⟩ := Program.run_bind_eq_some.mp ran
    cases loaded
    split at ran
    · next j found =>
      obtain ⟨_, _, stored, ran⟩ := Program.run_bind_eq_some.mp ran
      cases stored
      obtain ⟨log₁, _, logged, ran⟩ := Program.run_bind_eq_some.mp ran
      obtain ⟨_, _, gave, done⟩ := Program.run_bind_eq_some.mp ran
      cases gave
      cases done
      obtain ⟨log₂, logs, ok'⟩ := run_logWrite_store admits ok (iblock i sb) { s with
        view := Function.update s.view (iblock i sb) ((s.view (iblock i sb)).setDinode j (.ofType type)) }
      rw [logs] at logged
      cases logged
      obtain ⟨sum, block, index⟩ := iblock_add aligned j
      have places : j.val < 8 := j.isLt
      refine ⟨?_, ok', ?_, ?_⟩
      · rw [putInode, block, index]
      · change (i + UInt32.ofNat j).toNat < (sb.ninodes.toNat + 7) / 8 * 8
        rw [sum]
        omega
      · rw [diskInode, block, index]
        exact freeInode_some found
    · obtain ⟨_, _, gave, ran⟩ := Program.run_bind_eq_some.mp ran
      cases gave
      by_cases last : turns = 0
      · subst last
        cases ran
      · have next : (i + UInt32.ofNat ipb).toNat = i.toNat + 8 := by
          rw [UInt32.toNat_add]
          change (i.toNat + 8) % 2 ^ 32 = _
          omega
        refine ih ?_ ?_ ran
        · rw [next]
          change (i.toNat + 8) % 8 = 0
          omega
        · rw [next]
          change (sb.ninodes.toNat + 7) / 8 = turns + (i.toNat + 8) / 8
          omega

/-! ## Runs -/

theorem Machine.call_some {A B : Type} {p : Program (Bio UInt32) A} {answer : A → Store → B × Machine} {b : B}
    (called : m.call p answer = some (b, m')) :
    ∃ a t, p.run Store.handle m.store = some (a, t) ∧ answer a t = (b, m') := by
  obtain ⟨⟨a, t⟩, ran, answered⟩ := Option.map_eq_some_iff.mp called
  exact ⟨a, t, ran, answered⟩

section
variable {devsw : Fin ndev → Devsw UInt32}

variable (devsw) in
theorem Owned.iput (owned : Owned inv sb m.icache m.log m.store.view nodes) (admits : Admits inv)
    (permitted : Permitted sb (.iput i) m) :
    ∃ m' nodes', m.handle sb devsw (.iput i) = some ((), m') ∧
      Owned inv sb m'.icache m'.log m'.store.view nodes' := by
  obtain ⟨used, shared⟩ := permitted
  by_cases frees : (m.icache i).ref = 1 ∧ (m.icache i).valid = true ∧ (m.icache i).nlink = 0
  · obtain ⟨last, valid, unlinked⟩ := frees
    have unlocked : (m.icache i).locked = false := by
      cases locked : (m.icache i).locked with
      | false => rfl
      | true => exact absurd (shared locked) (by omega)
    obtain ⟨c', log', t, nodes', puts, owned'⟩ := owned.free admits rfl last valid unlinked unlocked
    refine ⟨⟨c', log', t⟩, nodes', ?_, owned'⟩
    rw [Machine.handle, Machine.call, puts]
    rfl
  · have puts : (Fs.iput sb m.icache m.log i).run Store.handle m.store =
        some ((Function.update m.icache i { m.icache i with ref := (m.icache i).ref - 1 }, m.log), m.store) := by
      rw [Fs.iput, if_neg frees]
      rfl
    have handled : m.handle sb devsw (.iput i) =
        some ((), { m with icache := Function.update m.icache i { m.icache i with ref := (m.icache i).ref - 1 } }) := by
      rw [Machine.handle, Machine.call, puts]
      rfl
    refine ⟨{ m with icache := Function.update m.icache i { m.icache i with ref := (m.icache i).ref - 1 } }, ?_⟩
    rw [handled]
    by_cases last : (m.icache i).ref = 1
    · have unlocked : (m.icache i).locked = false := by
        cases locked : (m.icache i).locked with
        | false => rfl
        | true => exact absurd (shared locked) (by omega)
      obtain ⟨nodes', owned'⟩ := owned.drop last unlocked
      exact ⟨nodes', rfl, owned'⟩
    · have before := owned.entry i
      refine ⟨nodes, rfl, owned.touch used rfl rfl ?_ rfl rfl rfl fun locked => (before.held locked).2⟩
      change 0 < (m.icache i).ref - 1
      omega

theorem Owned.step (owned : Owned inv sb m.icache m.log m.store.view nodes) (admits : Admits inv)
    (quiet : Quiet devsw) {r : Inodes.Request} {reply : Inodes.Reply r} (permitted : Permitted sb r m)
    (handled : m.handle sb devsw r = some (reply, m')) :
    ∃ nodes', Owned inv sb m'.icache m'.log m'.store.view nodes' := by
  cases r with
  | iget dev inum =>
    obtain ⟨rfl, inside, typed⟩ := permitted
    obtain ⟨⟨i, c'⟩, got, answered⟩ := Option.map_eq_some_iff.mp handled
    cases answered
    rcases Icache.iget_cases got with ⟨_, used, _, rfl⟩ | ⟨absent, unused, rfl⟩
    · refine ⟨nodes, owned.touch used rfl rfl ?_ rfl rfl rfl fun locked => ((owned.entry i).held locked).2⟩
      change 0 < (m.icache i).ref + 1
      omega
    · exact ⟨nodes, owned.fresh unused (fun j live => absent j live ((owned.entry j).live live).device)
        ⟨rfl, inside, typed⟩⟩
  | idup i =>
    cases handled
    refine ⟨nodes, owned.touch permitted rfl rfl ?_ rfl rfl rfl fun locked => ((owned.entry i).held locked).2⟩
    change 0 < (m.icache i).ref + 1
    have used : 0 < (m.icache i).ref := permitted
    omega
  | ilock i =>
    rw [Machine.handle] at handled
    obtain ⟨c', t, locks, answered⟩ := Machine.call_some handled
    cases answered
    have used : 0 < (m.icache i).ref := permitted
    rw [Fs.ilock] at locks
    split at locks
    · cases locks
    · split at locks
      · next valid =>
        cases locks
        exact ⟨nodes, owned.touch used rfl rfl used rfl rfl rfl fun _ => valid⟩
      · next invalid =>
        obtain ⟨_, _, read, locks⟩ := Program.run_bind_eq_some.mp locks
        cases read
        obtain ⟨_, _, loaded, locks⟩ := Program.run_bind_eq_some.mp locks
        cases loaded
        obtain ⟨_, _, gave, done⟩ := Program.run_bind_eq_some.mp locks
        cases gave
        cases done
        exact ⟨nodes, owned.load used (Bool.eq_false_iff.mpr invalid)⟩
  | iunlock i =>
    cases handled
    exact ⟨nodes, owned.touch permitted rfl rfl permitted rfl rfl rfl nofun⟩
  | iput i =>
    obtain ⟨m₁, nodes', puts, owned'⟩ := owned.iput devsw admits permitted
    rw [puts] at handled
    cases handled
    exact ⟨nodes', owned'⟩
  | ialloc dev type =>
    obtain ⟨rfl, typed⟩ := permitted
    rw [Machine.handle] at handled
    obtain ⟨⟨i, c', log'⟩, t, allocates, answered⟩ := Machine.call_some handled
    cases answered
    obtain ⟨⟨inum, log₁⟩, u, finds, allocates⟩ := Program.run_bind_eq_some.mp allocates
    obtain ⟨rfl, ok, inside, free⟩ := iallocFrom_returns admits owned.logged rfl rfl finds
    have owned := owned.allocate ok inside free typed
    dsimp only at allocates
    split at allocates
    · next i c' got =>
      cases allocates
      rcases Icache.iget_cases got with ⟨_, used, _, rfl⟩ | ⟨absent, unused, rfl⟩
      · refine ⟨nodes, owned.touch used rfl rfl ?_ rfl rfl rfl fun locked => ((owned.entry i).held locked).2⟩
        change 0 < (m.icache i).ref + 1
        omega
      · refine ⟨nodes, owned.fresh unused (fun j live => absent j live ((owned.entry j).live live).device)
          ⟨rfl, inside, ?_⟩⟩
        change (diskInode sb (putInode sb m.store.view inum (.ofType type)) inum).type ≠ 0
        rw [diskInode_putInode_self]
        exact typed
    · cases allocates
  | fields i =>
    cases handled
    exact ⟨nodes, owned⟩
  | setLinks i major minor nlink =>
    cases handled
    obtain ⟨used, locked⟩ := permitted
    exact ⟨nodes, owned.touch used rfl rfl used rfl rfl rfl fun _ => ((owned.entry i).held locked).2⟩
  | iupdate i =>
    rw [Machine.handle] at handled
    obtain ⟨log', t, updates, answered⟩ := Machine.call_some handled
    cases answered
    obtain ⟨used, locked⟩ := permitted
    have valid := ((owned.entry i).held locked).2
    have live := (owned.entry i).live used
    have copied := (owned.entry i).copied used valid
    obtain ⟨log₁, puts, ok⟩ := iupdate_run sb admits owned.logged (m.icache i) m.store
    rw [puts] at updates
    cases updates
    have owned' := owned.moved used valid (Moved.update ok owned.sound copied.node live.inside)
    rw [Function.update_eq_self] at owned'
    exact ⟨nodes, owned'⟩
  | readi i dst off n =>
    rw [Machine.handle] at handled
    obtain ⟨⟨r, dst', ip', log'⟩, t, reads, answered⟩ := Machine.call_some handled
    cases answered
    obtain ⟨used, locked⟩ := permitted
    have valid := ((owned.entry i).held locked).2
    have live := (owned.entry i).live used
    have copied := (owned.entry i).copied used valid
    obtain ⟨nodes', looped⟩ := readi_looped admits quiet owned.logged owned.sound copied.node reads
    exact ⟨nodes', owned.moved used valid (looped.moved live.inside)⟩
  | writei i src off n =>
    rw [Machine.handle] at handled
    obtain ⟨⟨r, ip', log'⟩, t, writes, answered⟩ := Machine.call_some handled
    cases answered
    obtain ⟨used, locked⟩ := permitted
    have valid := ((owned.entry i).held locked).2
    have live := (owned.entry i).live used
    have copied := (owned.entry i).copied used valid
    obtain ⟨nodes', moved⟩ := writei_moved admits quiet owned.logged owned.sound copied.node live.inside writes
    exact ⟨nodes', owned.moved used valid moved⟩
  | panic => cases handled

theorem Owned.nodes_eq (owned : Owned inv sb m.icache m.log m.store.view nodes) : nodes = currentNodes sb m := by
  funext g
  unfold currentNodes
  split
  · next i found =>
    have here := List.find?_some found
    obtain ⟨used, valid, rfl⟩ := of_decide_eq_true here
    exact ((owned.entry i).copied used valid).node
  · next absent =>
    refine owned.disk g fun i cached => ?_
    have other := List.find?_eq_none.mp absent i (List.mem_finRange i)
    exact other (decide_eq_true cached)

theorem Owned.init (ok : inv log) (image : Sound sb view (diskNodes sb view)) :
    Owned inv sb Icache.init log view (diskNodes sb view) where
  logged := ok
  sound := image
  entry _ := ⟨fun used => absurd used (Int.lt_irrefl 0), fun used => absurd used (Int.lt_irrefl 0), nofun⟩
  alone _ _ used := absurd used (Int.lt_irrefl 0)
  disk _ _ := rfl

def act (sb : Superblock) (devsw : Fin ndev → Devsw UInt32) (r : Inodes.Request) (m : Machine) : Option Machine :=
  (m.handle sb devsw r).map Prod.snd

/-- In every run from an image in which blocks are owned, in memory and on the disk every block of
an allocated inode is marked, is no block of the file system's own, and has one reference; and
every `iput` returns. -/
theorem blocks_owned (admits : Admits inv) (quiet : Quiet devsw) {acts : List Inodes.Request} {start : Machine}
    (ok : inv start.log) (boot : start.icache = Icache.init)
    (image : Sound sb start.store.view (diskNodes sb start.store.view))
    (meets : Meets (act sb devsw) (Permitted sb) acts start) (ran : run (act sb devsw) acts start = some m) :
    Sound sb m.store.view (currentNodes sb m) ∧ Sound sb m.store.view (diskNodes sb m.store.view) ∧
      ∀ i, Permitted sb (.iput i) m → (m.handle sb devsw (.iput i)).isSome := by
  have first : ∃ nodes, Owned inv sb start.icache start.log start.store.view nodes :=
    ⟨_, boot ▸ Owned.init ok image⟩
  have preserved : ∀ r m m', (∃ nodes, Owned inv sb m.icache m.log m.store.view nodes) → Permitted sb r m →
      act sb devsw r m = some m' → ∃ nodes, Owned inv sb m'.icache m'.log m'.store.view nodes := by
    rintro r m m' ⟨nodes, owned⟩ permitted acted
    obtain ⟨⟨reply, m₁⟩, handled, rfl⟩ := Option.map_eq_some_iff.mp acted
    exact owned.step admits quiet permitted handled
  obtain ⟨nodes, owned⟩ := run_invariant_of_meets preserved first meets ran
  refine ⟨owned.nodes_eq ▸ owned.sound, owned.sound.fewer owned.disk_ref, fun i permitted => ?_⟩
  obtain ⟨m', _, puts, _⟩ := owned.iput devsw admits permitted
  rw [puts]
  rfl

end

/-! ## One file system -/

instance Permitted.decide (sb : Superblock) (m : Machine) : (r : Inodes.Request) → Decidable (Permitted sb r m)
  | .iget .. => inferInstanceAs (Decidable (_ ∧ _ ∧ _))
  | .ialloc .. => inferInstanceAs (Decidable (_ ∧ _))
  | .idup _ | .ilock _ | .iunlock _ | .fields _ => inferInstanceAs (Decidable (_ < _))
  | .iput _ => inferInstanceAs (Decidable (_ ∧ (_ → _)))
  | .setLinks .. | .iupdate _ | .readi .. | .writei .. => inferInstanceAs (Decidable (_ ∧ _))
  | .panic => .isTrue trivial

theorem diskNodes_free (free : ∀ g, InTable sb g → view (iblock g sb) = Block.zero) :
    diskNodes sb view = fun _ _ => 0 := by
  funext g
  refine if_neg fun both => both.2 ?_
  rw [diskInode, free g both.1]
  rfl

theorem usedDisk_inodes {g : UInt32} (inside : InTable Mkfs.superblock g) :
    usedDisk (iblock g Mkfs.superblock) = Block.zero := by
  have other : iblock g Mkfs.superblock ≠ 58 := by
    intro same
    have less : g.toNat < (200 + 7) / 8 * 8 := inside
    have same := congrArg UInt32.toNat same
    rw [iblock, UInt32.toNat_add, UInt32.toNat_div] at same
    change (g.toNat / 8 + 32) % 2 ^ 32 = 58 at same
    omega
  funext i
  exact if_neg other

theorem diskNodes_usedDisk : diskNodes Mkfs.superblock usedDisk = fun _ _ => 0 :=
  diskNodes_free fun _ => usedDisk_inodes

def bootMachine (disk : UInt32 → Block) : Machine := ⟨Icache.init, emptyLog, Store.boot disk⟩

def firstEntry : Fin ninode := ⟨0, ninode_pos⟩

def writeByte : Inodes.Request := .writei firstEntry (fun _ => 7) 0 1

theorem quiet_noDevices : Quiet noDevices := ⟨nofun, nofun⟩

theorem blocks_owned_lifetime : ∃ m, run (act Mkfs.superblock noDevices)
      [.ialloc ROOTDEV T_FILE, .ilock firstEntry, writeByte, .iunlock firstEntry, .iput firstEntry]
      (bootMachine usedDisk) = some m ∧
    Sound Mkfs.superblock m.store.view (currentNodes Mkfs.superblock m) := by
  have returns : (run (act Mkfs.superblock noDevices)
      [.ialloc ROOTDEV T_FILE, .ilock firstEntry, writeByte, .iunlock firstEntry, .iput firstEntry]
      (bootMachine usedDisk)).isSome = true := by decide +kernel
  obtain ⟨m, ran⟩ := Option.isSome_iff_exists.mp returns
  have empty : (bootMachine usedDisk).log.lh.n = 0 := rfl
  have image : Sound Mkfs.superblock (bootMachine usedDisk).store.view
      (diskNodes Mkfs.superblock (bootMachine usedDisk).store.view) := diskNodes_usedDisk ▸ sound_usedDisk
  exact ⟨m, ran, (blocks_owned admits_empty quiet_noDevices empty rfl image (by decide +kernel) ran).1⟩

def rewritten : List Inodes.Request := [.ialloc ROOTDEV T_FILE, .ilock firstEntry, writeByte, writeByte]

/-- When the image does not mark the blocks of the file system itself, `balloc` hands them out:
first the boot block, which counts as no block, and then the super block. -/
theorem blocks_owned_unmarked : ¬ ∀ (sb : Superblock) (acts : List Inodes.Request) (start m : Machine),
    start.log.lh.n = 0 → start.icache = Icache.init →
    Owns 0 (fun s : UInt32 × Slot => refAt start.store.view (diskNodes sb start.store.view s.1) s.2)
      (fun b => InUse sb start.store.view b ∧ ¬ Meta sb b) →
    Meets (act sb noDevices) (Permitted sb) acts start → run (act sb noDevices) acts start = some m →
    Owns 0 (fun s : UInt32 × Slot => refAt m.store.view (currentNodes sb m s.1) s.2)
      (fun b => InUse sb m.store.view b ∧ ¬ Meta sb b) := by
  intro owned
  have zero : diskNodes Mkfs.superblock (fun _ => Block.zero) = fun _ _ => 0 := diskNodes_free fun _ _ => rfl
  have none : ∀ s : UInt32 × Slot, refAt (fun _ => Block.zero) (fun _ => 0) s.2 = 0 := by
    rintro ⟨_, k⟩
    cases k with
    | direct k => rfl
    | indirect => rfl
    | entry j => exact refAt_entry_none rfl j
  have image : Owns 0 (fun s : UInt32 × Slot =>
      refAt (fun _ => Block.zero) (diskNodes Mkfs.superblock (fun _ => Block.zero) s.1) s.2)
      (fun b => InUse Mkfs.superblock (fun _ => Block.zero) b ∧ ¬ Meta Mkfs.superblock b) := by
    rw [zero]
    exact ⟨fun s _ filled => absurd (none s) filled, fun s filled => absurd (none s) filled⟩
  have super : (run (act Mkfs.superblock noDevices) rewritten (bootMachine fun _ => Block.zero)).any (fun m =>
      decide (refAt m.store.view (currentNodes Mkfs.superblock m 1) (.direct ⟨0, by decide⟩) = 1)) = true := by
    decide +kernel
  have meets : Meets (act Mkfs.superblock noDevices) (Permitted Mkfs.superblock) rewritten
      (bootMachine fun _ => Block.zero) := by
    decide +kernel
  obtain ⟨m, ran, isOne⟩ := (Option.any_eq_true _ _).mp super
  have one := of_decide_eq_true isOne
  have after := owned Mkfs.superblock rewritten (bootMachine fun _ => Block.zero) m rfl rfl image meets ran
  have filled : refAt m.store.view (currentNodes Mkfs.superblock m 1) (.direct ⟨0, by decide⟩) ≠ 0 := by
    rw [one]
    decide
  have held := (after.held (1, .direct ⟨0, by decide⟩) filled).2
  rw [one] at held
  exact held Meta.super

end Xv6.Fs
