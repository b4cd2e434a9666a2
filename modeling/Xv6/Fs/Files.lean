import Xv6.Library.Observation
import Xv6.Fs.Consistency

/-! Files as byte strings, and the inodes of `kern/fs.c` as an implementation of them.

A file has a type and bytes, and is created, removed, written and read as a whole list. In every run
of the operations on inodes, what they reply and what is on the disk is what such a table of files
would do. Blocks, indirect blocks and the copies of inodes in memory do not show.
-/

set_option autoImplicit false

namespace Xv6.Fs

open Library

/-! ## The abstract store -/

structure Content where
  type : UInt16
  data : List UInt8

abbrev Files := UInt32 → Option Content

def Content.read (c : Content) (dst : Nat → UInt8) (off n : Nat) : Int × (Nat → UInt8) :=
  if off ≤ c.data.length ∧ off + n < 2 ^ 64 then
    ((min n (c.data.length - off) : Nat), fun k =>
      if k < min n (c.data.length - off) then c.data.getD (off + k) 0 else dst k)
  else (-1, dst)

def Content.write (c : Content) (src : Nat → UInt8) (off n : Nat) : Content :=
  { c with data := c.data.take off ++ (List.range n).map src ++ c.data.drop (off + n) }

/-- An operation on a file, with its reply. -/
inductive Event where
  | create (g : UInt32) (type : UInt16)
  | remove (g : UInt32)
  | read (g : UInt32) (dst : Nat → UInt8) (off n : UInt64) (out : Int × (Nat → UInt8))
  | write (g : UInt32) (src : Nat → UInt8) (off n : UInt64) (out : Int)

def Files.Does (files : Files) : Event → Files → Prop
  | .create g type, files' => files g = none ∧ files' = Function.update files g (some ⟨type, []⟩)
  | .remove g, files' => (∃ c, files g = some c) ∧ files' = Function.update files g none
  | .read g dst off n out, files' => ∃ c, files g = some c ∧ out = c.read dst off.toNat n.toNat ∧ files' = files
  | .write g src off n out, files' => ∃ c, files g = some c ∧
    if Writable c.data.length off.toNat n.toNat then
      out = n.toNat ∧ files' = Function.update files g (some (c.write src off.toNat n.toNat))
    else out = -1 ∧ files' = files

section
variable {c : Content} {src : Nat → UInt8} {off n k : Nat}

theorem Content.length_write (start : off ≤ c.data.length) :
    (c.write src off n).data.length = max c.data.length (off + n) := by
  simp only [Content.write, List.length_append, List.length_take, List.length_map, List.length_range,
    List.length_drop]
  omega

theorem Content.getD_write (start : off ≤ c.data.length) :
    (c.write src off n).data.getD k 0 = if off ≤ k ∧ k < off + n then src (k - off) else c.data.getD k 0 := by
  have front : (c.data.take off).length = off := List.length_take_of_le start
  have middle : ((List.range n).map src).length = n := by simp
  simp only [Content.write, List.getD_eq_getElem?_getD, List.append_assoc]
  by_cases early : k < off
  · rw [if_neg (by omega), List.getElem?_append_left (by omega), List.getElem?_take_of_lt early]
  · rw [List.getElem?_append_right (by omega), front]
    by_cases inside : k < off + n
    · rw [if_pos ⟨by omega, inside⟩, List.getElem?_append_left (by omega)]
      simp [show k - off < n by omega]
    · rw [if_neg (by omega), List.getElem?_append_right (by omega), middle, List.getElem?_drop]
      congr 3
      omega

end

/-! ## The files on a disk -/

def bytesOf (view : UInt32 → Block) (addrs : Addrs) (size : Nat) : List UInt8 :=
  (List.range size).map (byteAt view addrs)

instance (sb : Superblock) (view : UInt32 → Block) (g : UInt32) : Decidable (Present sb view g) :=
  inferInstanceAs (Decidable (_ ∧ _))

def filesOn (sb : Superblock) (view : UInt32 → Block) : Files := fun g =>
  if Present sb view g then
    some ⟨(diskInode sb view g).type, bytesOf view (diskInode sb view g).addrs (diskInode sb view g).size.toNat⟩
  else none

section
variable {view view' : UInt32 → Block} {addrs addrs' : Addrs} {size k : Nat}

theorem length_bytesOf : (bytesOf view addrs size).length = size := by
  rw [bytesOf, List.length_map, List.length_range]

theorem getD_bytesOf (inside : k < size) : (bytesOf view addrs size).getD k 0 = byteAt view addrs k := by
  rw [bytesOf, List.getD_eq_getElem?_getD, List.getElem?_map, List.getElem?_range inside]
  rfl

theorem bytesOf_eq {data : List UInt8} (length : data.length = size)
    (each : ∀ k, k < size → byteAt view addrs k = data.getD k 0) : bytesOf view addrs size = data := by
  apply List.ext_getElem
  · rw [length_bytesOf, length]
  · intro k inside inData
    rw [length_bytesOf] at inside
    have here := each k inside
    rw [List.getD_eq_getElem?_getD, List.getElem?_eq_getElem inData, Option.getD_some] at here
    rw [← here]
    simp [bytesOf]

theorem bytesOf_congr (same : ∀ k, k < size → byteAt view' addrs' k = byteAt view addrs k) :
    bytesOf view' addrs' size = bytesOf view addrs size := by
  apply bytesOf_eq length_bytesOf
  intro k inside
  rw [getD_bytesOf inside]
  exact same k inside

end

/-! ## The copies in memory -/

structure Saved (d : Dinode) (ip : MemInode) : Prop where
  type : d.type = ip.type
  size : d.size = ip.size
  addrs : d.addrs = ip.addrs

/-- Blocks are owned, no file has a hole, and the disk has the bytes of every file. -/
structure Filed (inv : Log → Prop) (sb : Superblock) (m : Machine) : Prop where
  owned : ∃ nodes, Owned inv sb m.icache m.log m.store.view nodes
  filled : ∀ g, Present sb m.store.view g →
    Mapped m.store.view (diskInode sb m.store.view g).addrs (diskInode sb m.store.view g).size.toNat
  saved : ∀ i, 0 < (m.icache i).ref → (m.icache i).valid = true →
    Saved (diskInode sb m.store.view (m.icache i).inum) (m.icache i)

def OnFiles (r : Inodes.Request) (m : Machine) : Prop :=
  match r with
  | .readi i .. | .writei i .. => (m.icache i).type ≠ T_DEV
  | _ => True

/-- The operation on a file that an operation on inodes is. -/
def eventOf (sb : Superblock) (devsw : Fin ndev → Devsw UInt32) (r : Inodes.Request) (m : Machine) : Option Event :=
  match r with
  | .ialloc dev type => (m.handle sb devsw (.ialloc dev type)).map fun out => .create (out.2.icache out.1).inum type
  | .iput i =>
    if (m.icache i).ref = 1 ∧ (m.icache i).valid = true ∧ (m.icache i).nlink = 0 then some (.remove (m.icache i).inum)
    else none
  | .readi i dst off n =>
    (m.handle sb devsw (.readi i dst off n)).map fun out => .read (m.icache i).inum dst off n out.1
  | .writei i src off n =>
    (m.handle sb devsw (.writei i src off n)).map fun out => .write (m.icache i).inum src off n out.1
  | _ => none

variable {inv : Log → Prop} {sb : Superblock} {devsw : Fin ndev → Devsw UInt32} {m m' : Machine} {i : Fin ninode}
  {nodes nodes' : Nodes} {view view' : UInt32 → Block} {g f : UInt32}

theorem Owned.node_disk {c : Icache} {log : Log} (owned : Owned inv sb c log view nodes)
    (saved : ∀ i, 0 < (c i).ref → (c i).valid = true → Saved (diskInode sb view (c i).inum) (c i))
    (present : Present sb view g) : nodes g = (diskInode sb view g).addrs := by
  by_cases cached : ∃ i, Caches (c i) g
  · obtain ⟨i, used, valid, rfl⟩ := cached
    rw [((owned.entry i).copied used valid).node, (saved i used valid).addrs]
  · rw [owned.disk g fun i has => cached ⟨i, has⟩]
    exact if_pos present

theorem SameFile.present (same : SameFile sb g view nodes view' nodes') : Present sb view' g ↔ Present sb view g := by
  apply and_congr_right
  intro inside
  rw [same.disk inside]

theorem SameFile.filesOn (same : SameFile sb g view nodes view' nodes')
    (node : Present sb view g → nodes g = (diskInode sb view g).addrs)
    (filled : Present sb view g → Mapped view (diskInode sb view g).addrs (diskInode sb view g).size.toNat) :
    filesOn sb view' g = filesOn sb view g := by
  unfold Fs.filesOn
  by_cases present : Present sb view g
  · rw [if_pos present, if_pos (same.present.mpr present), same.disk present.1]
    congr 2
    apply bytesOf_congr
    intro k inside
    have mapped := filled present k inside
    rw [← node present] at mapped ⊢
    have bytes := same.bytes k mapped
    rw [same.addrs] at bytes
    exact bytes
  · rw [if_neg present, if_neg (mt same.present.mp present)]

theorem Saved.filesOn {ip : MemInode} (saved : Saved (diskInode sb view f) ip) (present : Present sb view f) :
    filesOn sb view f = some ⟨ip.type, bytesOf view ip.addrs ip.size.toNat⟩ := by
  rw [Fs.filesOn, if_pos present, saved.type, saved.size, saved.addrs]

theorem filesOn_update {file : Option Content} (now : filesOn sb view' f = file)
    (others : ∀ g, g ≠ f → filesOn sb view' g = filesOn sb view g) :
    filesOn sb view' = Function.update (filesOn sb view) f file := by
  funext g
  by_cases same : g = f
  · rw [same, now, Function.update_self]
  · rw [others g same, Function.update_of_ne same]

namespace Filed

theorem kept (filed : Filed inv sb m) (owned : ∃ nodes, Owned inv sb m'.icache m'.log m'.store.view nodes)
    (view : m'.store.view = m.store.view) (cached : ∀ j, 0 < (m'.icache j).ref → (m'.icache j).valid = true →
      Saved (diskInode sb m.store.view (m'.icache j).inum) (m'.icache j)) : Filed inv sb m' := by
  refine ⟨owned, ?_, ?_⟩
  · rw [view]
    exact filed.filled
  · rw [view]
    exact cached

theorem replaced (filed : Filed inv sb m) {e : MemInode}
    (owned : ∃ nodes, Owned inv sb (Function.update m.icache i e) m.log m.store.view nodes)
    (cached : 0 < e.ref → e.valid = true → Saved (diskInode sb m.store.view e.inum) e) :
    Filed inv sb { m with icache := Function.update m.icache i e } := by
  refine filed.kept owned rfl fun j used valid => ?_
  dsimp only at used valid ⊢
  by_cases same : j = i
  · subst same
    rw [Function.update_self] at used valid ⊢
    exact cached used valid
  · rw [Function.update_of_ne same] at used valid ⊢
    exact filed.saved j used valid

theorem touched (filed : Filed inv sb m) {e : MemInode}
    (owned : ∃ nodes, Owned inv sb (Function.update m.icache i e) m.log m.store.view nodes)
    (used : 0 < (m.icache i).ref) (inum : e.inum = (m.icache i).inum) (valid : e.valid = (m.icache i).valid)
    (type : e.type = (m.icache i).type) (size : e.size = (m.icache i).size) (addrs : e.addrs = (m.icache i).addrs) :
    Filed inv sb { m with icache := Function.update m.icache i e } := by
  refine filed.replaced owned fun _ isValid => ?_
  have saved := filed.saved i used (valid ▸ isValid)
  rw [inum]
  exact ⟨saved.type.trans type.symm, saved.size.trans size.symm, saved.addrs.trans addrs.symm⟩

theorem same (filed : Filed inv sb m) (owned : Owned inv sb m.icache m.log m.store.view nodes)
    (same : SameFile sb g m.store.view nodes view' nodes') : filesOn sb view' g = filesOn sb m.store.view g :=
  same.filesOn (fun present => owned.node_disk filed.saved present) (filed.filled g)

theorem changed (filed : Filed inv sb m) (owned : Owned inv sb m.icache m.log m.store.view nodes)
    (owned' : ∃ nodes, Owned inv sb m'.icache m'.log m'.store.view nodes)
    (others : ∀ g, g ≠ f → SameFile sb g m.store.view nodes m'.store.view nodes')
    (here : Present sb m'.store.view f →
      Mapped m'.store.view (diskInode sb m'.store.view f).addrs (diskInode sb m'.store.view f).size.toNat)
    (own : ∀ j, (m'.icache j).inum = f → 0 < (m'.icache j).ref → (m'.icache j).valid = true →
      Saved (diskInode sb m'.store.view f) (m'.icache j))
    (rest : ∀ j, (m'.icache j).inum ≠ f → m'.icache j = m.icache j) : Filed inv sb m' := by
  refine ⟨owned', fun g present => ?_, fun j used valid => ?_⟩
  · by_cases isF : g = f
    · subst isF
      exact here present
    · have same := others g isF
      have before := same.present.mp present
      have node := owned.node_disk filed.saved before
      rw [same.disk present.1]
      intro k inside
      have mapped := filed.filled g before k inside
      rw [← node] at mapped ⊢
      have block := same.blocks (k / bsize)
      rw [same.addrs] at block
      rw [block]
      exact mapped
  · by_cases isF : (m'.icache j).inum = f
    · rw [isF]
      exact own j isF used valid
    · have same := rest j isF
      rw [same] at used valid isF ⊢
      rw [(others _ isF).disk ((owned.entry j).live used).inside]
      exact filed.saved j used valid

/-! ## Creation -/

theorem ialloc (filed : Filed inv sb m) (admits : Admits inv) {dev : UInt32} {type : UInt16}
    (permitted : Permitted sb (.ialloc dev type) m)
    (owned' : ∃ nodes, Owned inv sb m'.icache m'.log m'.store.view nodes)
    (handled : m.handle sb devsw (.ialloc dev type) = some (i, m')) :
    Filed inv sb m' ∧ (filesOn sb m.store.view).Does (.create (m'.icache i).inum type) (filesOn sb m'.store.view) := by
  obtain ⟨rfl, typed⟩ := permitted
  obtain ⟨nodes, owned⟩ := filed.owned
  rw [Machine.handle_ialloc] at handled
  obtain ⟨⟨i, c', log'⟩, t, allocates, answered⟩ := Machine.call_some handled
  cases answered
  obtain ⟨⟨inum, log₁⟩, u, finds, allocates⟩ := Program.run_bind_eq_some.mp allocates
  obtain ⟨rfl, _, inside, free⟩ := iallocFrom_returns admits owned.logged rfl rfl finds
  have puts := Confined.putInode owned.sound inside (.ofType type)
  have now : diskInode sb (putInode sb m.store.view inum (.ofType type)) inum = .ofType type :=
    diskInode_putInode_self _
  -- no entry stands for a free inode
  have apart : ∀ j, 0 < (m.icache j).ref → (m.icache j).inum ≠ inum := by
    intro j used same
    exact ((owned.entry j).live used).typed (same ▸ free)
  dsimp only at allocates
  split at allocates
  · next i c' got =>
    cases allocates
    have entry : (c' i).inum = inum ∧ (0 < (c' i).ref → (c' i).valid = true → False) ∧
        ∀ j, j ≠ i → c' j = m.icache j := by
      rcases Icache.iget_cases got with ⟨number, used, _, rfl⟩ | ⟨_, _, rfl⟩
      · exact absurd number (apart i used)
      · refine ⟨?_, ?_, fun j other => Function.update_of_ne other ..⟩
        · rw [Function.update_self]
        · rw [Function.update_self]
          nofun
    obtain ⟨number, fresh, same⟩ := entry
    have others : ∀ g, g ≠ inum → filesOn sb (putInode sb m.store.view inum (.ofType type)) g =
        filesOn sb m.store.view g := fun g other => filed.same owned (puts.sameFile other)
    refine ⟨filed.changed (f := inum) owned owned' (fun g other => puts.sameFile other) ?_ ?_ ?_, ?_⟩
    · intro _
      change Mapped (putInode sb m.store.view inum (.ofType type)) _ _
      rw [now]
      exact fun k below => absurd below (Nat.not_lt_zero k)
    · intro j isInum used valid
      by_cases isI : j = i
      · rw [isI] at used valid
        exact (fresh used valid).elim
      · dsimp only at isInum used
        rw [same j isI] at isInum used
        exact absurd isInum (apart j used)
    · intro j other
      refine same j fun isI => other ?_
      rw [isI]
      exact number
    · have there : Present sb (putInode sb m.store.view inum (.ofType type)) inum := by
        refine ⟨inside, ?_⟩
        rw [now]
        exact typed
      have file : filesOn sb (putInode sb m.store.view inum (.ofType type)) inum = some ⟨type, []⟩ := by
        rw [filesOn, if_pos there, now]
        rfl
      dsimp only
      rw [number]
      exact ⟨if_neg fun present => present.2 free, filesOn_update file others⟩
  · cases allocates

/-! ## Removal -/

end Filed

theorem Freed.sameFile (freed : Freed sb (nodes f) (directSlots ++ entrySlots ++ [.indirect]) view view')
    (sound : Sound sb view nodes) (other : g ≠ f) :
    SameFile sb g view nodes view' (Function.update nodes f fun _ => 0) := by
  have node : Function.update nodes f (fun _ => 0) g = nodes g := Function.update_of_ne other ..
  have blocks : ∀ i, blockAt view' (Function.update nodes f (fun _ => 0) g) i = blockAt view (nodes g) i := by
    intro i
    rw [node]
    unfold blockAt
    cases slotOf i with
    | none => rfl
    | some k => exact refAt_congr (fun present => freed.held sound (f := g) (k := .indirect) present) k
  refine ⟨node, fun inside => freed.diskInode sound inside, blocks, fun k mapped => ?_⟩
  obtain ⟨l, _, value, _⟩ := slotOf_some mapped
  rw [byteAt, byteAt, blocks, value, freed.held sound (value ▸ mapped)]

theorem Owned.iput_frees {c : Icache} {log : Log} {s : Store} (owned : Owned inv sb c log s.view nodes)
    (admits : Admits inv) (frees : (c i).ref = 1 ∧ (c i).valid = true ∧ (c i).nlink = 0)
    (unlocked : (c i).locked = false) :
    ∃ log' view', (Fs.iput sb c log i).run Store.handle s =
        some ((Function.update c i { c i with size := 0, type := 0, valid := false, ref := (c i).ref - 1 }, log'),
          { s with view := view' }) ∧
      (diskInode sb view' (c i).inum).type = 0 ∧
      ∀ g, g ≠ (c i).inum → SameFile sb g s.view nodes view' (Function.update nodes (c i).inum fun _ => 0) := by
  have used : 0 < (c i).ref := by omega
  have node := ((owned.entry i).copied used frees.2.1).node
  have inside := ((owned.entry i).live used).inside
  obtain ⟨log₁, view₁, truncates, ok₁, freed⟩ := itrunc_run admits owned.logged owned.sound node
  have puts := Confined.putInode (freed.sound owned.sound) inside ({ c i with size := 0 } : MemInode).dinode
  obtain ⟨view₂, isView₂⟩ : ∃ v, v = putInode sb view₁ (c i).inum ({ c i with size := 0 } : MemInode).dinode :=
    ⟨_, rfl⟩
  rw [← isView₂] at truncates puts
  obtain ⟨log₂, updates, _⟩ := iupdate_run sb admits ok₁ { c i with size := 0, type := 0 } { s with view := view₂ }
  have puts' := Confined.putInode puts.sound inside ({ c i with size := 0, type := 0 } : MemInode).dinode
  refine ⟨log₂, putInode sb view₂ (c i).inum ({ c i with size := 0, type := 0 } : MemInode).dinode, ?_, ?_,
    fun g other => ?_⟩
  · rw [Fs.iput, if_pos frees, if_neg (Bool.eq_false_iff.mp unlocked)]
    simp only [Program.run_bind, truncates, Option.bind_some, updates, Program.run_pure]
  · rw [diskInode_putInode_self]
    rfl
  · exact ((freed.sameFile owned.sound other).trans (puts.sameFile other)).trans (puts'.sameFile other)

namespace Filed

theorem remove (filed : Filed inv sb m) (admits : Admits inv) (permitted : Permitted sb (.iput i) m)
    (frees : (m.icache i).ref = 1 ∧ (m.icache i).valid = true ∧ (m.icache i).nlink = 0)
    (owned' : ∃ nodes, Owned inv sb m'.icache m'.log m'.store.view nodes)
    (handled : m.handle sb devsw (.iput i) = some ((), m')) :
    Filed inv sb m' ∧ (filesOn sb m.store.view).Does (.remove (m.icache i).inum) (filesOn sb m'.store.view) := by
  obtain ⟨nodes, owned⟩ := filed.owned
  have live := (owned.entry i).live permitted.1
  have unlocked : (m.icache i).locked = false := by
    cases locked : (m.icache i).locked with
    | false => rfl
    | true => exact absurd (permitted.2 locked) (by omega)
  obtain ⟨log', view', puts, gone, others⟩ := owned.iput_frees admits frees unlocked
  rw [Machine.handle_iput, Machine.call, puts] at handled
  cases handled
  have absent : ¬ Present sb view' (m.icache i).inum := fun present => present.2 gone
  refine ⟨filed.changed owned owned' others (fun present => absurd present absent) ?_ ?_, ?_⟩
  · intro j isInum used valid
    by_cases isI : j = i
    · rw [isI] at valid
      dsimp only at valid
      rw [Function.update_self] at valid
      exact Bool.noConfusion valid
    · dsimp only at isInum used
      rw [Function.update_of_ne isI] at isInum used
      exact absurd (owned.alone j i used permitted.1 isInum) isI
  · intro j other
    refine Function.update_of_ne (fun isI => other ?_) ..
    rw [isI]
    dsimp only
    rw [Function.update_self]
  · exact ⟨⟨_, if_pos ⟨live.inside, live.typed⟩⟩,
      filesOn_update (if_neg absent) fun g other => filed.same owned (others g other)⟩

/-! ## Copies in memory -/

structure Held (sb : Superblock) (m : Machine) (i : Fin ninode) (nodes : Nodes) : Prop where
  used : 0 < (m.icache i).ref
  valid : (m.icache i).valid = true
  present : Present sb m.store.view (m.icache i).inum
  node : nodes (m.icache i).inum = (m.icache i).addrs
  saved : Saved (diskInode sb m.store.view (m.icache i).inum) (m.icache i)
  mapped : Mapped m.store.view (m.icache i).addrs (m.icache i).size.toNat

theorem held (filed : Filed inv sb m) (owned : Owned inv sb m.icache m.log m.store.view nodes)
    (permitted : 0 < (m.icache i).ref ∧ (m.icache i).locked = true) : Held sb m i nodes := by
  obtain ⟨used, locked⟩ := permitted
  have valid := ((owned.entry i).held locked).2
  have live := (owned.entry i).live used
  have saved := filed.saved i used valid
  have mapped := filed.filled _ ⟨live.inside, live.typed⟩
  rw [saved.addrs, saved.size] at mapped
  exact ⟨used, valid, ⟨live.inside, live.typed⟩, ((owned.entry i).copied used valid).node, saved, mapped⟩

theorem iupdate (filed : Filed inv sb m) (admits : Admits inv) (permitted : Permitted sb (.iupdate i) m)
    (owned' : ∃ nodes, Owned inv sb m'.icache m'.log m'.store.view nodes)
    (handled : m.handle sb devsw (.iupdate i) = some ((), m')) :
    Filed inv sb m' ∧ filesOn sb m'.store.view = filesOn sb m.store.view := by
  obtain ⟨nodes, owned⟩ := filed.owned
  have held := filed.held owned permitted
  have puts := Confined.putInode owned.sound held.present.1 (m.icache i).dinode
  obtain ⟨log', updates, _⟩ := iupdate_run sb admits owned.logged (m.icache i) m.store
  rw [Machine.handle_iupdate, Machine.call, updates] at handled
  cases handled
  obtain ⟨view', isView⟩ : ∃ v, v = putInode sb m.store.view (m.icache i).inum (m.icache i).dinode := ⟨_, rfl⟩
  have now : diskInode sb view' (m.icache i).inum = (m.icache i).dinode := by
    rw [isView]
    exact diskInode_putInode_self _
  have saved : Saved (diskInode sb view' (m.icache i).inum) (m.icache i) := by
    rw [now]
    exact ⟨rfl, rfl, rfl⟩
  have present : Present sb view' (m.icache i).inum := by
    refine ⟨held.present.1, ?_⟩
    rw [saved.type, ← held.saved.type]
    exact held.present.2
  dsimp only at owned' ⊢
  rw [← isView] at puts owned' ⊢
  refine ⟨filed.changed owned owned' (fun g other => puts.sameFile other) ?_ ?_ fun _ _ => rfl, ?_⟩
  · intro _ k inside
    dsimp only at inside ⊢
    rw [saved.addrs, ← held.node, isView, blockAt_putInode owned.sound held.present.1, held.node]
    rw [saved.size] at inside
    exact held.mapped k inside
  · intro j isInum used _
    obtain rfl := owned.alone j i used held.used isInum
    exact saved
  · funext g
    by_cases same : g = (m.icache i).inum
    · rw [same, saved.filesOn present, held.saved.filesOn held.present]
      congr 2
      apply bytesOf_congr
      intro k inside
      have mapped := held.mapped k inside
      rw [← held.node] at mapped ⊢
      rw [isView]
      exact byteAt_putInode owned.sound held.present.1 _ mapped
    · exact filed.same owned (puts.sameFile same)

end Filed

/-! ## Reading and writing -/

/-- The copy of a file in memory, as its users know it. -/
def content (m : Machine) (i : Fin ninode) : Content :=
  ⟨(m.icache i).type, bytesOf m.store.view (m.icache i).addrs (m.icache i).size.toNat⟩

theorem content_read (sb : Superblock) (devsw : Fin ndev → Devsw UInt32) (notDev : (m.icache i).type ≠ T_DEV)
    (mapped : Mapped m.store.view (m.icache i).addrs (m.icache i).size.toNat) (dst : Nat → UInt8) (off n : UInt64) :
    m.handle sb devsw (.readi i dst off n) = some ((content m i).read dst off.toNat n.toNat, m) := by
  have length : (content m i).data.length = (m.icache i).size.toNat := length_bytesOf
  have again : (⟨Function.update m.icache i (m.icache i), m.log, m.store⟩ : Machine) = m := by
    rw [Function.update_eq_self]
  rw [Machine.handle_readi, Machine.call, Content.read, length]
  by_cases accepted : off.toNat ≤ (m.icache i).size.toNat ∧ off.toNat + n.toNat < 2 ^ 64
  · rw [if_pos accepted, readi_run notDev mapped accepted.1 accepted.2, Option.map_some]
    dsimp only
    rw [again]
    congr 4
    funext k
    by_cases inside : k < min n.toNat ((m.icache i).size.toNat - off.toNat)
    · rw [if_pos inside, if_pos inside]
      exact (getD_bytesOf (by omega)).symm
    · rw [if_neg inside, if_neg inside]
  · have refused : off > (m.icache i).size.toUInt64 ∨ off + n < off := (range_refused _).mpr accepted
    have returns : (Fs.readi sb devsw m.log (m.icache i) dst off n : Program (Bio UInt32) _) =
        pure (-1, dst, m.icache i, m.log) := by
      rw [Fs.readi, if_neg notDev, if_pos refused]
    rw [if_neg accepted, returns]
    exact congrArg (fun t => some ((-1, dst), t)) again

-- `writei` writes the copy on the disk when size or blocks have changed.
theorem writei_saved (devsw : Fin ndev → Devsw UInt32) {ip ip' : MemInode} {log log' : Log} {src : Nat → UInt8}
    {off n : UInt64} {r : Int} {s t : Store} (admits : Admits inv) (ok : inv log) (sound : Sound sb s.view nodes)
    (here : nodes ip.inum = ip.addrs) (inside : InTable sb ip.inum) (notDev : ip.type ≠ T_DEV)
    (mapped : Mapped s.view ip.addrs ip.size.toNat) (saved : Saved (diskInode sb s.view ip.inum) ip)
    (ran : (writei sb devsw log ip src off n).run Store.handle s = some ((r, ip', log'), t)) :
    Saved (diskInode sb t.view ip.inum) ip' := by
  rcases writei_cases sb log devsw src notDev with ⟨_, same⟩ | ⟨accepted, same⟩
  · rw [same] at ran
    cases ran
    exact saved
  · rw [same] at ran
    obtain ⟨⟨last, node, log₁⟩, u, loops, ran⟩ := Program.run_bind_eq_some.mp ran
    obtain ⟨nodes₁, ended⟩ := writeLoop_end admits _ ok sound here
      (UInt64.le_iff_toNat_le.mpr (Nat.zero_le _)) accepted.2.2 loops
    have inum : node.inum = ip.inum := by rw [ended.fields]
    have size : node.size = ip.size := by rw [ended.fields]
    dsimp only at ran
    by_cases grows : n > 0 ∧ last > node.size.toUInt64
    · rw [if_pos grows] at ran
      obtain ⟨log₂, v, updates, done⟩ := Program.run_bind_eq_some.mp ran
      cases done
      obtain ⟨_, puts, _⟩ := iupdate_run sb admits ended.logged { node with size := last.toUInt32 } u
      rw [puts] at updates
      cases updates
      dsimp only
      rw [inum, diskInode_putInode_self]
      exact ⟨rfl, rfl, rfl⟩
    · rw [if_neg grows] at ran
      cases ran
      -- the loop has found all blocks
      have below : n.toNat = 0 ∨ off.toNat + n.toNat ≤ ip.size.toNat := by
        have ends : last.toNat = off.toNat + n.toNat := ended.ends
        by_contra outside
        apply grows
        rw [size]
        refine ⟨UInt64.lt_iff_toNat_lt.mpr ?_, UInt64.lt_iff_toNat_lt.mpr ?_⟩
        · change 0 < n.toNat
          omega
        · change ip.size.toNat < last.toNat
          omega
      have unchanged : ip'.toInode = ip.toInode := ended.same fun k low high => mapped k (by
        change k < off.toNat + n.toNat at high
        omega)
      have whole : ip' = ip := by rw [ended.fields, unchanged]
      rw [ended.wrote.node inside, whole]
      exact saved

namespace Filed

theorem writei (filed : Filed inv sb m) (admits : Admits inv) {src : Nat → UInt8} {off n : UInt64} {out : Int}
    (permitted : Permitted sb (.writei i src off n) m) (notDev : (m.icache i).type ≠ T_DEV)
    (owned' : ∃ nodes, Owned inv sb m'.icache m'.log m'.store.view nodes)
    (handled : m.handle sb devsw (.writei i src off n) = some (out, m')) :
    Filed inv sb m' ∧
      (filesOn sb m.store.view).Does (.write (m.icache i).inum src off n out) (filesOn sb m'.store.view) := by
  obtain ⟨nodes, owned⟩ := filed.owned
  have held := filed.held owned permitted
  have file := held.saved.filesOn held.present
  have length : (content m i).data.length = (m.icache i).size.toNat := length_bytesOf
  rw [Machine.handle_writei] at handled
  obtain ⟨⟨r, ip', log'⟩, t, writes, answered⟩ := Machine.call_some handled
  cases answered
  have saved' := writei_saved devsw admits owned.logged owned.sound held.node held.present.1 notDev held.mapped held.saved
    writes
  rcases writei_returns devsw admits owned.logged owned.sound held.node held.present.1 notDev held.mapped writes with
    ⟨refused, rfl, rfl, rfl, rfl⟩ | ⟨accepted, rfl, _, _, nodes', updated⟩
  · dsimp only
    rw [Function.update_eq_self]
    refine ⟨filed, content m i, file, ?_⟩
    rw [length, if_neg refused]
    exact ⟨rfl, rfl⟩
  · have inum : ip'.inum = (m.icache i).inum := by rw [updated.fields]
    have type : ip'.type = (m.icache i).type := by rw [updated.fields]
    have present : Present sb t.view (m.icache i).inum := by
      refine ⟨held.present.1, ?_⟩
      rw [saved'.type, type, ← held.saved.type]
      exact held.present.2
    have others : ∀ g, g ≠ (m.icache i).inum → SameFile sb g m.store.view nodes t.view nodes' :=
      fun g other => updated.toConfined.sameFile other
    refine ⟨filed.changed owned owned' others ?_ ?_ ?_, content m i, file, ?_⟩
    · intro _
      dsimp only
      rw [saved'.addrs, saved'.size]
      exact updated.mapped
    · intro j isInum usedJ _
      dsimp only at isInum usedJ ⊢
      by_cases isI : j = i
      · rw [isI, Function.update_self]
        exact saved'
      · rw [Function.update_of_ne isI] at isInum usedJ
        exact absurd (owned.alone j i usedJ held.used isInum) isI
    · intro j other
      refine Function.update_of_ne (fun isI => other ?_) ..
      rw [isI]
      dsimp only
      rw [Function.update_self]
      exact inum
    · rw [length, if_pos accepted]
      refine ⟨rfl, filesOn_update ?_ fun g other => filed.same owned (others g other)⟩
      have start : off.toNat ≤ (content m i).data.length := length ▸ accepted.1
      have longer : ((content m i).write src off.toNat n.toNat).data.length = ip'.size.toNat := by
        rw [Content.length_write start, length, updated.size]
      have data : bytesOf t.view ip'.addrs ip'.size.toNat = ((content m i).write src off.toNat n.toNat).data := by
        refine bytesOf_eq longer fun k inside => ?_
        rw [updated.bytes k inside, Content.getD_write start]
        by_cases new : off.toNat ≤ k ∧ k < off.toNat + n.toNat
        · rw [if_pos new, if_pos new]
        · have old : k < (m.icache i).size.toNat := by
            rw [updated.size] at inside
            omega
          rw [if_neg new, if_neg new]
          exact (getD_bytesOf old).symm
      rw [saved'.filesOn present, data, type]
      rfl

/-! ## Runs -/

theorem step (filed : Filed inv sb m) (admits : Admits inv) {r : Inodes.Request} {reply : Inodes.Reply r}
    (permitted : Permitted sb r m) (onFiles : OnFiles r m) (handled : m.handle sb devsw r = some (reply, m')) :
    Filed inv sb m' ∧
      Tracks Files.Does (filesOn sb m.store.view) (eventOf sb devsw r m) (filesOn sb m'.store.view) := by
  obtain ⟨nodes, owned⟩ := filed.owned
  have owned' : ∃ nodes, Owned inv sb m'.icache m'.log m'.store.view nodes := by
    refine owned.step_notDev admits permitted (fun j isDev => ⟨?_, ?_⟩) handled
    · intro dst off n isRead
      subst isRead
      exact onFiles isDev
    · intro src off n isWrite
      subst isWrite
      exact onFiles isDev
  cases r with
  | iget dev inum =>
    obtain ⟨⟨i, c'⟩, got, answered⟩ := Option.map_eq_some_iff.mp handled
    cases answered
    rcases Icache.iget_cases got with ⟨_, used, _, rfl⟩ | ⟨_, _, rfl⟩
    · exact ⟨filed.touched owned' used rfl rfl rfl rfl rfl, rfl⟩
    · exact ⟨filed.replaced owned' fun _ => nofun, rfl⟩
  | idup i =>
    cases handled
    exact ⟨filed.touched owned' permitted rfl rfl rfl rfl rfl, rfl⟩
  | ilock i =>
    rw [Machine.handle_ilock] at handled
    obtain ⟨c', t, locks, answered⟩ := Machine.call_some handled
    cases answered
    rcases ilock_cases locks with ⟨rfl, _, rfl⟩ | ⟨rfl, _, rfl⟩
    · exact ⟨filed.touched owned' permitted rfl rfl rfl rfl rfl, rfl⟩
    · exact ⟨filed.replaced owned' fun _ _ => ⟨rfl, rfl, rfl⟩, rfl⟩
  | iunlock i =>
    cases handled
    exact ⟨filed.touched owned' permitted rfl rfl rfl rfl rfl, rfl⟩
  | iput i =>
    by_cases frees : (m.icache i).ref = 1 ∧ (m.icache i).valid = true ∧ (m.icache i).nlink = 0
    · rw [eventOf, if_pos frees]
      exact filed.remove admits permitted frees owned' handled
    · rw [eventOf, if_neg frees]
      rw [Machine.handle_iput, Machine.call, Fs.iput, if_neg frees] at handled
      cases handled
      exact ⟨filed.touched owned' permitted.1 rfl rfl rfl rfl rfl, rfl⟩
  | ialloc dev type =>
    rw [eventOf, handled]
    exact filed.ialloc admits permitted owned' handled
  | fields i =>
    cases handled
    exact ⟨filed, rfl⟩
  | setLinks i major minor nlink =>
    cases handled
    exact ⟨filed.touched owned' permitted.1 rfl rfl rfl rfl rfl, rfl⟩
  | iupdate i => exact filed.iupdate admits permitted owned' handled
  | readi i dst off n =>
    have held := filed.held owned permitted
    have read := content_read sb devsw onFiles held.mapped dst off n
    rw [eventOf, read]
    rw [read] at handled
    cases handled
    exact ⟨filed, content m i, held.saved.filesOn held.present, rfl, rfl⟩
  | writei i src off n =>
    rw [eventOf, handled]
    exact filed.writei admits permitted onFiles owned' handled
  | panic => cases handled

theorem init (ok : inv m.log) (boot : m.icache = Icache.init)
    (image : Sound sb m.store.view (diskNodes sb m.store.view))
    (filled : ∀ g, Present sb m.store.view g →
      Mapped m.store.view (diskInode sb m.store.view g).addrs (diskInode sb m.store.view g).size.toNat) :
    Filed inv sb m where
  owned := ⟨_, boot ▸ Owned.init ok image⟩
  filled := filled
  saved i used := by
    rw [boot] at used
    exact absurd used (Int.lt_irrefl 0)

end Filed

/-- The inodes implement files. In every run from an image whose blocks are owned and whose files have no holes,
the creations, removals, reads and writes that return are those of a table of byte strings, in the same order and
with the same replies, and the disk has the files of the table at the end. -/
theorem files_refined (admits : Admits inv) {acts : List Inodes.Request} {start : Machine} (ok : inv start.log)
    (boot : start.icache = Icache.init) (image : Sound sb start.store.view (diskNodes sb start.store.view))
    (filled : ∀ g, Present sb start.store.view g →
      Mapped start.store.view (diskInode sb start.store.view g).addrs (diskInode sb start.store.view g).size.toNat)
    (meets : Meets (act sb devsw) (fun r m => Permitted sb r m ∧ OnFiles r m) acts start)
    (ran : run (act sb devsw) acts start = some m) :
    Leads Files.Does (filesOn sb start.store.view) (observed (act sb devsw) (eventOf sb devsw) acts start)
      (filesOn sb m.store.view) := by
  have each : ∀ r m m' files, (Filed inv sb m ∧ files = filesOn sb m.store.view) → Permitted sb r m ∧ OnFiles r m →
      act sb devsw r m = some m' → ∃ files', (Filed inv sb m' ∧ files' = filesOn sb m'.store.view) ∧
        Tracks Files.Does files (eventOf sb devsw r m) files' := by
    intro r m m' files sim both acted
    obtain ⟨filed, rfl⟩ := sim
    obtain ⟨⟨reply, m₁⟩, handled, rfl⟩ := Option.map_eq_some_iff.mp acted
    obtain ⟨filed', does⟩ := filed.step admits both.1 both.2 handled
    exact ⟨_, ⟨filed', rfl⟩, does⟩
  have first : Filed inv sb start ∧ filesOn sb start.store.view = filesOn sb start.store.view :=
    ⟨Filed.init ok boot image filled, rfl⟩
  obtain ⟨files, ⟨_, rfl⟩, leads⟩ := run_leads each first meets ran
  exact leads

/-! ## One file -/

instance OnFiles.decide (m : Machine) : (r : Inodes.Request) → Decidable (OnFiles r m)
  | .readi .. | .writei .. => inferInstanceAs (Decidable (_ ≠ _))
  | .iget .. | .ialloc .. | .idup _ | .ilock _ | .iunlock _ | .fields _ | .iput _ | .setLinks .. | .iupdate _ | .panic =>
    .isTrue trivial

def lifetime : List Inodes.Request := [.ialloc ROOTDEV T_FILE, .ilock firstEntry, writeByte,
  .readi firstEntry (fun _ => 0) 0 9, .iunlock firstEntry, .iput firstEntry]

theorem absent_usedDisk (g : UInt32) : ¬ Present Mkfs.superblock usedDisk g := by
  intro present
  apply present.2
  rw [diskInode, usedDisk_inodes present.1]
  rfl

theorem files_refined_lifetime : ∃ m, run (act Mkfs.superblock noDevices) lifetime (bootMachine usedDisk) = some m ∧
    Leads Files.Does (fun _ => none)
      (observed (act Mkfs.superblock noDevices) (eventOf Mkfs.superblock noDevices) lifetime (bootMachine usedDisk))
      (filesOn Mkfs.superblock m.store.view) := by
  have returns : (run (act Mkfs.superblock noDevices) lifetime (bootMachine usedDisk)).isSome = true := by
    decide +kernel
  obtain ⟨m, ran⟩ := Option.isSome_iff_exists.mp returns
  have none : filesOn Mkfs.superblock usedDisk = fun _ => none := funext fun g => if_neg (absent_usedDisk g)
  have image : Sound Mkfs.superblock (bootMachine usedDisk).store.view
      (diskNodes Mkfs.superblock (bootMachine usedDisk).store.view) := diskNodes_usedDisk ▸ sound_usedDisk
  refine ⟨m, ran, ?_⟩
  rw [← none]
  exact @files_refined _ _ _ m admits_empty lifetime (bootMachine usedDisk) rfl rfl image
    (fun g present => absurd present (absent_usedDisk g)) (by decide +kernel) ran

end Xv6.Fs
