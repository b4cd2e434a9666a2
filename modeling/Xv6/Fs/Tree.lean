import Xv6.Fs.Capacity
import Xv6.Fs.Creation
import Xv6.Fs.Search

/-! The tree of directories on the disk, and the operations that change it.

A node has the fields of its inode, and the names of a directory or the bytes of a file. An allocation,
an update of the fields and a new entry of a directory change one node each, and leave memory and
disk in agreement.
-/

set_option autoImplicit false

namespace Xv6

open Library

namespace Fs

/-! ## Trees -/

structure Node where
  type : UInt16
  major : UInt16
  minor : UInt16
  nlink : Nat
  names : Label → Option UInt16
  data : List UInt8

/-- The nodes of a file system, by the number of the inode. -/
abbrev Tree := UInt32 → Option Node

def Tree.modify (t : Tree) (g : UInt32) (f : Node → Node) : Tree := Function.update t g ((t g).map f)

-- A new inode of `ialloc`.
def Node.blank (type : UInt16) : Node := ⟨type, 0, 0, 0, fun _ => none, []⟩

def Node.relinked (n : Node) (major minor nlink : UInt16) : Node := { n with major, minor, nlink := nlink.toNat }

def Node.bound (n : Node) (e : Label) (g : UInt16) : Node := { n with names := Function.update n.names e (some g) }

def dotBlocks (type : UInt16) : Nat := if type = T_DIR then 4 else 0

def Tree.dotted (t : Tree) (parent g : UInt32) (type : UInt16) : Tree :=
  if type = T_DIR then
    ((t.modify parent fun n => { n with nlink := n.nlink + 1 }).modify g
      (·.bound Name.dot.label g.toUInt16)).modify g (·.bound Name.dotdot.label parent.toUInt16)
  else t

/-- What `create` makes of a tree: a new node, and its name in the parent. A new directory has a link to itself
and one to its parent, which counts it. -/
def Tree.created (t : Tree) (parent g : UInt32) (e : Label) (type major minor : UInt16) : Tree :=
  let dots := Function.update (Function.update (fun _ => none) Name.dot.label (some g.toUInt16)) Name.dotdot.label
    (some parent.toUInt16)
  let child : Node := ⟨type, major, minor, 1, if type = T_DIR then dots else fun _ => none, []⟩
  Tree.modify (Function.update t g (some child)) parent fun n =>
    { n with
      nlink := if type = T_DIR then n.nlink + 1 else n.nlink
      names := Function.update n.names e (some g.toUInt16) }

theorem Tree.dotted_parent (t : Tree) {parent g : UInt32} (other : g ≠ parent) (type : UInt16) :
    t.dotted parent g type parent =
      (t parent).map fun n => { n with nlink := if type = T_DIR then n.nlink + 1 else n.nlink } := by
  rw [dotted]
  by_cases isDir : type = T_DIR
  · rw [if_pos isDir, modify, Function.update_of_ne other.symm, modify, Function.update_of_ne other.symm, modify,
      Function.update_self]
    simp only [if_pos isDir]
  · rw [if_neg isDir]
    simp only [if_neg isDir]
    exact (Option.map_id' ..).symm

theorem Tree.created_eq (t : Tree) {parent g : UInt32} (other : g ≠ parent) (e : Label) (type major minor : UInt16) :
    ((Tree.dotted (Function.update t g (some ⟨type, major, minor, 1, fun _ => none, []⟩)) parent g type).modify parent
      (·.bound e g.toUInt16)) = t.created parent g e type major minor := by
  funext k
  rw [modify, created, modify]
  by_cases isP : k = parent
  · subst isP
    rw [Function.update_self, Function.update_self, dotted_parent _ other, Option.map_map,
      Function.update_of_ne other.symm, Function.update_of_ne other.symm]
    rfl
  · rw [Function.update_of_ne isP, Function.update_of_ne isP, dotted]
    by_cases isDir : type = T_DIR
    · rw [if_pos isDir, modify, modify, modify]
      by_cases isG : k = g
      · subst isG
        simp only [Function.update_self, Function.update_of_ne isP, Option.map_some, if_pos isDir]
        rfl
      · rw [Function.update_of_ne isG, Function.update_of_ne isG, Function.update_of_ne isP]
        simp only [Function.update_of_ne isG]
    · simp only [if_neg isDir]

def Tree.names (t : Tree) (g : UInt32) : Option (Label → Option UInt16) :=
  (t g).bind fun n => if n.type = T_DIR then some n.names else none

def listing (view : UInt32 → Block) (d : Dinode) : List Dirent := entriesAt view d.addrs 0 (d.size.toNat / direntSize)

def nodeOf (view : UInt32 → Block) (d : Dinode) : Node where
  type := d.type
  major := d.major
  minor := d.minor
  nlink := d.nlink.toNat
  names := if d.type = T_DIR then bindings (listing view d) else fun _ => none
  data := if d.type = T_DIR then [] else bytesOf view d.addrs d.size.toNat

def treeOn (sb : Superblock) (view : UInt32 → Block) : Tree := fun g =>
  if Present sb view g then some (nodeOf view (diskInode sb view g)) else none

section
variable {t : Tree} {p g : UInt32} {e : Label} {type major minor : UInt16}

theorem Tree.created_isSome {k : UInt32} (some : (t k).isSome = true) :
    (t.created p g e type major minor k).isSome = true := by
  rw [created, modify]
  by_cases isP : k = p
  · rw [isP, Function.update_self, Option.isSome_map]
    by_cases isG : p = g
    · rw [isG, Function.update_self]
      rfl
    · rw [Function.update_of_ne isG]
      exact isP ▸ some
  · rw [Function.update_of_ne isP]
    by_cases isG : k = g
    · rw [isG, Function.update_self]
      rfl
    · rwa [Function.update_of_ne isG]

variable (type major minor) in
theorem Tree.created_names (absent : t g = none) (unnamed : ∀ n, t p = some n → n.names e = none) {k : UInt32}
    {d : Label → Option UInt16} (names : t.names k = some d) {x : Label} {h : UInt16} (here : d x = some h) :
    ∃ d', (t.created p g e type major minor).names k = some d' ∧ d' x = some h := by
  obtain ⟨n, isN, dir⟩ := Option.bind_eq_some_iff.mp names
  have notG : k ≠ g := by
    rintro rfl
    cases absent.symm.trans isN
  split at dir
  · next isDir =>
    cases dir
    rw [Tree.names, created, modify]
    by_cases isP : k = p
    · subst isP
      refine ⟨Function.update n.names e (some g.toUInt16), ?_, ?_⟩
      · rw [Function.update_self, Function.update_of_ne notG, isN, Option.map_some, Option.bind_some]
        exact if_pos isDir
      · have other : x ≠ e := by
          rintro rfl
          cases (unnamed n isN).symm.trans here
        rw [Function.update_of_ne other]
        exact here
    · refine ⟨n.names, ?_, here⟩
      rw [Function.update_of_ne isP, Function.update_of_ne notG, isN, Option.bind_some]
      exact if_pos isDir
  · cases dir

theorem Tree.created_walk (absent : t g = none) (unnamed : ∀ n, t p = some n → n.names e = none) {s q : UInt32}
    {es : List Label} (leads : walk t.names s es = some q) :
    walk (t.created p g e type major minor).names s es = some q := by
  induction es generalizing s with
  | nil => exact leads
  | cons x es ih =>
    obtain ⟨d, names, leads⟩ := Option.bind_eq_some_iff.mp leads
    obtain ⟨h, here, leads⟩ := Option.bind_eq_some_iff.mp leads
    obtain ⟨d', names', here'⟩ := created_names type major minor absent unnamed names here
    rw [walk, names', Option.bind_some, here', Option.bind_some]
    exact ih leads

theorem Tree.created_type (absent : t g = none) {k : UInt32} {n : Node} (here : t k = some n) :
    ∃ n', t.created p g e type major minor k = some n' ∧ n'.type = n.type := by
  have notG : k ≠ g := by
    rintro rfl
    cases absent.symm.trans here
  rw [created, modify]
  by_cases isP : k = p
  · rw [← isP, Function.update_self, Function.update_of_ne notG, here]
    exact ⟨_, rfl, rfl⟩
  · rw [Function.update_of_ne isP, Function.update_of_ne notG]
    exact ⟨n, here, rfl⟩

theorem Tree.created_path (absent : t g = none) (unnamed : ∀ n, t p = some n → n.names e = none) {n : Node}
    (parent : t p = some n) (isDir : n.type = T_DIR) {s : UInt32} {es : List Label}
    (leads : walk t.names s es = some p) :
    walk (t.created p g e type major minor).names s (es ++ [e]) = some g.toUInt16.toUInt32 := by
  have notG : p ≠ g := by
    rintro rfl
    cases absent.symm.trans parent
  induction es generalizing s with
  | nil =>
    cases leads
    rw [List.nil_append, walk, Tree.names, created, modify, Function.update_self, Function.update_of_ne notG, parent,
      Option.map_some, Option.bind_some, if_pos isDir, Option.bind_some]
    dsimp only
    rw [Function.update_self]
    rfl
  | cons x es ih =>
    obtain ⟨d, names, leads⟩ := Option.bind_eq_some_iff.mp leads
    obtain ⟨h, here, leads⟩ := Option.bind_eq_some_iff.mp leads
    obtain ⟨d', names', here'⟩ := created_names type major minor absent unnamed names here
    rw [List.cons_append, walk, names', Option.bind_some, here', Option.bind_some]
    exact ih leads

end

section
variable {sb : Superblock} {view view' : UInt32 → Block} {nodes nodes' : Nodes} {d : Dinode} {addrs : Addrs}
  {g f : UInt32}

theorem treeOn_isSome : (treeOn sb view g).isSome = true ↔ Present sb view g := by
  by_cases present : Present sb view g
  · rw [treeOn, if_pos present]
    exact ⟨fun _ => present, fun _ => rfl⟩
  · rw [treeOn, if_neg present]
    exact ⟨fun some => absurd some Bool.false_ne_true, fun here => absurd here present⟩

theorem treeOn_present (present : Present sb view g) : treeOn sb view g = some (nodeOf view (diskInode sb view g)) :=
  if_pos present

theorem treeOn_names (present : Present sb view g) : (treeOn sb view).names g = directory sb view g := by
  rw [Tree.names, treeOn_present present, Option.bind_some, directory]
  by_cases isDir : (diskInode sb view g).type = T_DIR
  · rw [if_pos isDir, nodeOf]
    dsimp only
    rw [if_pos isDir, if_pos isDir]
    rfl
  · rw [if_neg isDir, nodeOf]
    exact if_neg isDir

theorem listing_blank (view : UInt32 → Block) (type : UInt16) : listing view (.ofType type) = [] := by
  have none : (Dinode.ofType type).size.toNat / direntSize = 0 := Nat.zero_div _
  rw [listing, none]
  rfl

theorem nodeOf_blank (view : UInt32 → Block) (type : UInt16) : nodeOf view (.ofType type) = .blank type := by
  have empty : bytesOf view (Dinode.ofType type).addrs (Dinode.ofType type).size.toNat = [] := rfl
  rw [nodeOf, listing_blank, empty, ite_self]
  congr 1
  exact ite_self _

theorem entriesAt_congr {n : Nat} (same : ∀ k, k < direntSize * n → byteAt view' addrs k = byteAt view addrs k) :
    entriesAt view' addrs 0 n = entriesAt view addrs 0 n := by
  apply List.ext_getElem?
  intro j
  rw [getElem?_entriesAt, getElem?_entriesAt]
  by_cases less : j < n
  · have inside : direntSize * j + direntSize ≤ direntSize * n := by
      rw [← Nat.mul_succ]
      exact Nat.mul_le_mul_left _ less
    rw [if_pos less, if_pos less]
    refine congrArg some (Dirent.ofBytes_congr fun k small => ?_)
    exact same _ (by omega)
  · rw [if_neg less, if_neg less]

/-- The bytes of an inode are all that its node depends on, besides its fields. -/
theorem listing_congr (same : ∀ k, k < d.size.toNat → byteAt view' d.addrs k = byteAt view d.addrs k) :
    listing view' d = listing view d :=
  entriesAt_congr fun k inside => same k (inside.trans_le (Nat.mul_div_le _ _))

theorem nodeOf_congr (same : ∀ k, k < d.size.toNat → byteAt view' d.addrs k = byteAt view d.addrs k) :
    nodeOf view' d = nodeOf view d := by
  rw [nodeOf, nodeOf, listing_congr same, bytesOf_congr same]

theorem nodeOf_dir (isDir : d.type = T_DIR) :
    nodeOf view d = ⟨d.type, d.major, d.minor, d.nlink.toNat, bindings (listing view d), []⟩ := by
  rw [nodeOf, if_pos isDir, if_pos isDir]

/-- A directory without holes lacks at most the slots of one block for another entry. -/
theorem enough_entry {size : Nat} (mapped : Mapped view addrs size) (aligned : size % direntSize = 0)
    (free : 2 ≤ (freeBlocks sb view).card) : Enough sb view addrs (slotsBetween 0 (size + direntSize)) := by
  have missing : (slotsBetween 0 (size + direntSize)).filter (fun k => refAt view addrs k = 0) ⊆
      slotsOf (size / bsize) := by
    intro k member
    obtain ⟨among, empty⟩ := Finset.mem_filter.mp member
    obtain ⟨i, range, slot⟩ := Finset.mem_biUnion.mp among
    have last : i < (size + direntSize + (bsize - 1)) / bsize := (Finset.mem_Ico.mp range).2
    change i < (size + 16 + 511) / 512 at last
    change size % 16 = 0 at aligned
    by_cases here : i = size / bsize
    · exact here ▸ slot
    · have before : i * bsize < size := by
        change ¬ i = size / 512 at here
        change i * 512 < size
        omega
      have there := mapped (i * bsize) before
      rw [Nat.mul_div_cancel i (by decide)] at there
      exact absurd empty (slotsOf_filled there slot)
  exact ((Finset.card_le_card missing).trans (card_slotsOf _)).trans free

theorem SameFile.bytes_disk (same : SameFile sb g view nodes view' nodes')
    (node : nodes g = (diskInode sb view g).addrs)
    (filled : Mapped view (diskInode sb view g).addrs (diskInode sb view g).size.toNat) (k : Nat)
    (inside : k < (diskInode sb view g).size.toNat) :
    byteAt view' (diskInode sb view g).addrs k = byteAt view (diskInode sb view g).addrs k := by
  have mapped := filled k inside
  rw [← node] at mapped ⊢
  have bytes := same.bytes k mapped
  rwa [same.addrs] at bytes

theorem treeOn_update (others : ∀ g, g ≠ f → treeOn sb view' g = treeOn sb view g) :
    treeOn sb view' = Function.update (treeOn sb view) f (treeOn sb view' f) := by
  funext g
  by_cases same : g = f
  · rw [same, Function.update_self]
  · rw [others g same, Function.update_of_ne same]

end

/-! ## Memory and disk in agreement -/

/-- An inode without holes. A directory has no name twice, and names inodes in use. -/
structure Proper (sb : Superblock) (view : UInt32 → Block) (d : Dinode) : Prop where
  filled : Mapped view d.addrs d.size.toNat
  aligned : d.type = T_DIR → d.size.toNat % direntSize = 0
  distinct : d.type = T_DIR → Slots.Distinct Dirent.key (listing view d)
  named : d.type = T_DIR → ∀ e ∈ listing view d, e.inum ≠ 0 → Present sb view e.inum.toUInt32

/-- Between two operations of a call: blocks are owned, and the inodes on the disk are proper and those in memory.
Only the inodes of `fresh` may be without links. -/
structure Orderly (inv : Log → Prop) (sb : Superblock) (fresh : UInt32 → Prop) (m : Machine) : Prop where
  owned : ∃ nodes, Owned inv sb m.icache m.log m.store.view nodes
  zero : ¬ Present sb m.store.view 0
  proper : ∀ g, Present sb m.store.view g → Proper sb m.store.view (diskInode sb m.store.view g)
  linked : ∀ g, Present sb m.store.view g → ¬ fresh g → (diskInode sb m.store.view g).nlink ≠ 0
  counted : ∀ i, 0 ≤ (m.icache i).ref
  saved : ∀ i, 0 < (m.icache i).ref → (m.icache i).valid = true →
    (m.icache i).dinode = diskInode sb m.store.view (m.icache i).inum

variable {inv : Log → Prop} {sb : Superblock} {devsw : Fin ndev → Devsw UInt32} {fresh fresh' : UInt32 → Prop}
  {m m' : Machine} {i : Fin ninode} {nodes nodes' : Nodes} {f g : UInt32}

namespace Orderly

theorem mono (orderly : Orderly inv sb fresh m) (weaker : ∀ g, fresh g → fresh' g) : Orderly inv sb fresh' m where
  owned := orderly.owned
  zero := orderly.zero
  proper := orderly.proper
  linked g present old := orderly.linked g present fun new => old (weaker g new)
  counted := orderly.counted
  saved := orderly.saved

theorem present (orderly : Orderly inv sb fresh m) (used : 0 < (m.icache i).ref) :
    Present sb m.store.view (m.icache i).inum := by
  obtain ⟨nodes, owned⟩ := orderly.owned
  have live := (owned.entry i).live used
  exact ⟨live.inside, live.typed⟩

theorem real (orderly : Orderly inv sb fresh m) (present : Present sb m.store.view g) : g ≠ 0 := by
  rintro rfl
  exact orderly.zero present

theorem unlocked (orderly : Orderly inv sb fresh m) (unused : (m.icache i).ref = 0) :
    (m.icache i).locked = false := by
  obtain ⟨nodes, owned⟩ := orderly.owned
  by_contra locked
  have used := ((owned.entry i).held (Bool.of_not_eq_false locked)).1
  omega

theorem node (orderly : Orderly inv sb fresh m) (owned : Owned inv sb m.icache m.log m.store.view nodes)
    (present : Present sb m.store.view g) : nodes g = (diskInode sb m.store.view g).addrs := by
  refine owned.node_disk (fun i used valid => ?_) present
  have saved := orderly.saved i used valid
  exact ⟨congrArg (·.type) saved.symm, congrArg (·.size) saved.symm, congrArg (·.addrs) saved.symm⟩

theorem settled (orderly : Orderly inv sb (fun _ => False) m) : Settled sb m where
  whole g present := by
    have proper := orderly.proper g present
    refine ⟨proper.filled, orderly.linked g present not_false, fun isDir off aligned inside real => ?_⟩
    obtain ⟨j, rfl⟩ := Nat.dvd_of_mod_eq_zero aligned
    have less : j < (diskInode sb m.store.view g).size.toNat / direntSize := by
      rw [Nat.lt_div_iff_mul_lt (by decide)]
      change 16 * j + 16 ≤ _ at inside
      change j * 16 < _ - 15
      omega
    have here := getElem?_entriesAt m.store.view (diskInode sb m.store.view g).addrs 0
      ((diskInode sb m.store.view g).size.toNat / direntSize) j
    rw [if_pos less, Nat.zero_add] at here
    exact proper.named isDir _ (List.mem_of_getElem? here) real
  entries g present := (orderly.proper g present).aligned
  counted := orderly.counted
  live i used := by
    obtain ⟨nodes, owned⟩ := orderly.owned
    exact ⟨((owned.entry i).live used).device, orderly.present used⟩
  saved := orderly.saved

/-- The search for the directory of a path keeps memory and disk in agreement. -/
theorem of_settled (orderly : Orderly inv sb fresh m) {t : Machine} (settled : Settled sb t)
    (owned : ∃ nodes, Owned inv sb t.icache t.log t.store.view nodes) (store : t.store = m.store) :
    Orderly inv sb fresh t where
  owned := owned
  zero := store ▸ orderly.zero
  proper := store ▸ orderly.proper
  linked := store ▸ orderly.linked
  counted := settled.counted
  saved := settled.saved

theorem fileSystem (orderly : Orderly inv sb (fun _ => False) m) (root : Present sb m.store.view ROOTINO) :
    FileSystem inv sb m where
  owned := orderly.owned
  root := root
  disk := orderly.settled.whole
  cached i used valid := by
    rw [orderly.saved i used valid]
    exact orderly.settled.whole _ (orderly.present used)

theorem replaced (orderly : Orderly inv sb fresh m) {e : MemInode}
    (owned : ∃ nodes, Owned inv sb (Function.update m.icache i e) m.log m.store.view nodes) (counted : 0 ≤ e.ref)
    (saved : 0 < e.ref → e.valid = true → e.dinode = diskInode sb m.store.view e.inum) :
    Orderly inv sb fresh { m with icache := Function.update m.icache i e } where
  owned := owned
  zero := orderly.zero
  proper := orderly.proper
  linked := orderly.linked
  counted j := by
    dsimp only
    by_cases here : j = i
    · rw [here, Function.update_self]
      exact counted
    · rw [Function.update_of_ne here]
      exact orderly.counted j
  saved j := by
    dsimp only
    by_cases here : j = i
    · rw [here, Function.update_self]
      exact saved
    · rw [Function.update_of_ne here]
      exact orderly.saved j

theorem changed (orderly : Orderly inv sb fresh m) (owned : Owned inv sb m.icache m.log m.store.view nodes)
    (owned' : ∃ nodes, Owned inv sb m'.icache m'.log m'.store.view nodes)
    (others : ∀ g, g ≠ f → SameFile sb g m.store.view nodes m'.store.view nodes') (real : f ≠ 0)
    (stays : Present sb m.store.view f → Present sb m'.store.view f)
    (proper : Present sb m'.store.view f → (∀ g, Present sb m.store.view g → Present sb m'.store.view g) →
      Proper sb m'.store.view (diskInode sb m'.store.view f))
    (linked : Present sb m'.store.view f → ¬ fresh' f → (diskInode sb m'.store.view f).nlink ≠ 0)
    (weaker : ∀ g, g ≠ f → fresh g → fresh' g) (counted : ∀ j, 0 ≤ (m'.icache j).ref)
    (own : ∀ j, (m'.icache j).inum = f → 0 < (m'.icache j).ref → (m'.icache j).valid = true →
      (m'.icache j).dinode = diskInode sb m'.store.view f)
    (rest : ∀ j, (m'.icache j).inum ≠ f → m'.icache j = m.icache j) :
    Orderly inv sb fresh' m' ∧
      treeOn sb m'.store.view = Function.update (treeOn sb m.store.view) f (treeOn sb m'.store.view f) := by
  -- no inode is freed, so that the directories keep to name inodes in use
  have remains : ∀ g, Present sb m.store.view g → Present sb m'.store.view g := by
    intro g present
    by_cases isF : g = f
    · subst isF
      exact stays present
    · exact (others g isF).present.mpr present
  have bytes : ∀ g, g ≠ f → Present sb m.store.view g → ∀ k, k < (diskInode sb m.store.view g).size.toNat →
      byteAt m'.store.view (diskInode sb m.store.view g).addrs k =
        byteAt m.store.view (diskInode sb m.store.view g).addrs k :=
    fun g other present => (others g other).bytes_disk (orderly.node owned present) (orderly.proper g present).filled
  refine ⟨⟨owned', fun present => ?_, fun g present => ?_, fun g present old => ?_, counted, fun j used valid => ?_⟩,
    treeOn_update fun g other => ?_⟩
  · exact orderly.zero ((others 0 real.symm).present.mp present)
  · by_cases isF : g = f
    · subst isF
      exact proper present remains
    · have same := others g isF
      have before := same.present.mp present
      have was := orderly.proper g before
      have list := listing_congr (bytes g isF before)
      rw [same.disk present.1]
      refine ⟨fun k inside => ?_, was.aligned, fun isDir => ?_, fun isDir e member real => ?_⟩
      · have mapped := was.filled k inside
        rw [← orderly.node owned before] at mapped ⊢
        have block := same.blocks (k / bsize)
        rw [same.addrs] at block
        rw [block]
        exact mapped
      · rw [list]
        exact was.distinct isDir
      · rw [list] at member
        exact remains _ (was.named isDir e member real)
  · by_cases isF : g = f
    · subst isF
      exact linked present old
    · have same := others g isF
      rw [same.disk present.1]
      exact orderly.linked g (same.present.mp present) fun new => old (weaker g isF new)
  · by_cases isF : (m'.icache j).inum = f
    · rw [isF]
      exact own j isF used valid
    · have same := rest j isF
      rw [same] at used valid isF ⊢
      rw [(others _ isF).disk (orderly.present used).1]
      exact orderly.saved j used valid
  · by_cases present : Present sb m.store.view g
    · rw [treeOn_present present, treeOn_present (remains g present), (others g other).disk present.1,
        nodeOf_congr (bytes g other present)]
    · rw [treeOn, if_neg (mt (others g other).present.mp present), treeOn, if_neg present]

end Orderly

end Fs

/-! ## Allocation -/

namespace Inodes

open Fs

variable {inv : Log → Prop} {sb : Superblock} {devsw : Fin ndev → Devsw UInt32} {fresh fresh' : UInt32 → Prop}
  {m m' : Machine} {i dp : Fin ninode} {g : UInt32}

theorem next_ne_zero {view : UInt32 → Block} (next : NextInode sb view g) : g ≠ 0 := by
  rintro rfl
  exact next.notFirst rfl

variable (devsw) in
-- `ialloc` takes the next inode, and an unused entry of the cache for it.
theorem ialloc_orderly (admits : Admits inv) (orderly : Orderly inv sb (fun _ => False) m)
    (next : NextInode sb m.store.view g) {a : Fin ninode} (spare : (m.icache a).ref = 0) {type : UInt16}
    (typed : type ≠ 0) :
    ∃ ind m', (ialloc ROOTDEV type).run (Machine.handle sb devsw) m = some (ind, m') ∧
      Orderly inv sb (fun f => f = g) m' ∧
      treeOn sb m'.store.view = Function.update (treeOn sb m.store.view) g (some (.blank type)) ∧
      (m.icache ind).ref = 0 ∧ m'.icache = Function.update m.icache ind
        { m.icache ind with dev := ROOTDEV, inum := g, ref := 1, size := 0, valid := false } ∧
      diskInode sb m'.store.view g = .ofType type ∧ Takes sb 0 m.store.view m'.store.view := by
  obtain ⟨nodes, owned⟩ := orderly.owned
  have finds := iallocFrom_next sb admits owned.logged ROOTDEV type ((sb.ninodes.toNat + (ipb - 1)) / ipb)
    (i := 0) (s := m.store) rfl rfl (fun g less => absurd (UInt32.lt_iff_toNat_lt.mp less) (Nat.not_lt_zero _))
  rcases finds with ⟨inum, log', finds, _, next'⟩ | ⟨_, full⟩
  · obtain rfl := next.eq next'
    -- no entry stands for a free inode
    have apart : ∀ j, 0 < (m.icache j).ref → (m.icache j).inum ≠ g := by
      intro j used same
      exact (orderly.present used).2 (same ▸ next.free)
    obtain ⟨⟨ind, c⟩, got⟩ := iget_of_spare spare ROOTDEV g
    obtain ⟨e, isE⟩ : ∃ e : MemInode, e =
      { m.icache ind with dev := ROOTDEV, inum := g, ref := 1, size := 0, valid := false } := ⟨_, rfl⟩
    obtain ⟨unused, isC⟩ : (m.icache ind).ref = 0 ∧ c = Function.update m.icache ind e := by
      rcases Icache.iget_cases got with ⟨number, used, _, _⟩ | ⟨_, unused, same⟩
      · exact absurd number (apart ind used)
      · exact ⟨unused, isE ▸ same⟩
    -- as a variable, so that the disk is not rewritten where its bytes do not matter
    obtain ⟨view', isView⟩ : ∃ view', view' = putInode sb m.store.view g (.ofType type) := ⟨_, rfl⟩
    have allocates : (Fs.ialloc sb m.icache m.log ROOTDEV type).run Store.handle m.store =
        some ((ind, Function.update m.icache ind e, log'), { m.store with view := view' }) := by
      rw [Fs.ialloc, Program.run_bind, finds, Option.bind_some, isView]
      dsimp only
      rw [got, isC]
      rfl
    have answered : m.handle sb devsw (.ialloc ROOTDEV type) =
        some (ind, ⟨Function.update m.icache ind e, log', { m.store with view := view' }⟩) := by
      rw [Machine.handle_ialloc, Machine.call, allocates]
      rfl
    have owned' := owned_called ⟨nodes, owned⟩ admits (r := .ialloc ROOTDEV type) ⟨rfl, typed⟩ Machine.handle_ialloc
      allocates
    have puts : Confined sb g m.store.view nodes view' nodes := isView ▸ Confined.putInode owned.sound next.inside _
    have now : diskInode sb view' g = .ofType type := isView ▸ diskInode_putInode_self _
    have present : Present sb view' g := by
      refine ⟨next.inside, ?_⟩
      rw [now]
      exact typed
    have result :
        Orderly inv sb (fun f => f = g) ⟨Function.update m.icache ind e, log', { m.store with view := view' }⟩ ∧
        treeOn sb view' = Function.update (treeOn sb m.store.view) g (treeOn sb view' g) := by
      refine orderly.changed (f := g) owned owned' (fun h other => puts.sameFile other) (next_ne_zero next)
        (fun _ => present) (fun _ _ => ?_) (fun _ old => absurd rfl old) (fun _ _ => False.elim) (fun j => ?_)
        (fun j isG used valid => ?_) fun j other => ?_
      · dsimp only
        rw [now]
        refine ⟨fun k below => absurd below (Nat.not_lt_zero k), fun _ => rfl, fun _ => ?_, fun _ d member => ?_⟩
        · rw [listing_blank]
          exact List.Pairwise.nil
        · rw [listing_blank] at member
          exact absurd member List.not_mem_nil
      · dsimp only
        by_cases here : j = ind
        · rw [here, Function.update_self, isE]
          exact Int.one_nonneg
        · rw [Function.update_of_ne here]
          exact orderly.counted j
      · dsimp only at isG used valid
        by_cases here : j = ind
        · rw [here, Function.update_self, isE] at valid
          exact Bool.noConfusion valid
        · rw [Function.update_of_ne here] at isG used
          exact absurd isG (apart j used)
      · dsimp only at other ⊢
        refine Function.update_of_ne (fun here => other ?_) ..
        rw [here, Function.update_self, isE]
    refine ⟨ind, _, run_answered answered, result.1, ?_, unused, isE ▸ rfl, now, ?_⟩
    · rw [← nodeOf_blank view', ← now, ← treeOn_present present]
      exact result.2
    · rw [isView]
      exact takes_congr 0 fun b => inUse_putInode owned.sound next.inside _
  · exact absurd next.free (full g next.inside next.notFirst)

/-! ## Memory -/

variable (devsw) in
theorem ilock_orderly (admits : Admits inv) (orderly : Orderly inv sb fresh m) (used : 0 < (m.icache i).ref)
    (unlocked : (m.icache i).locked = false) :
    ∃ m', (ilock i).run (Machine.handle sb devsw) m = some ((), m') ∧ Orderly inv sb fresh m' ∧ m'.store = m.store ∧
      m'.icache = Function.update m.icache i
        { (m.icache i).load (diskInode sb m.store.view (m.icache i).inum) with locked := true, valid := true } := by
  have owned := owned_done orderly.owned admits (r := .ilock i) used
    (request_returns (ilock_run (orderly.saved i used) unlocked))
  have result := orderly.replaced owned (orderly.counted i) fun _ _ => rfl
  exact ⟨_, ilock_run (orderly.saved i used) unlocked, result, rfl, rfl⟩

variable (devsw) in
theorem iunlock_orderly (admits : Admits inv) (orderly : Orderly inv sb fresh m) (used : 0 < (m.icache i).ref) :
    (iunlock i).run (Machine.handle sb devsw) m = some ((), { m with icache := m.icache.iunlock i }) ∧
      Orderly inv sb fresh { m with icache := m.icache.iunlock i } :=
  ⟨iunlock_run i m, orderly.replaced (owned_done orderly.owned admits (r := .iunlock i) used (request_returns
    (iunlock_run i m))) (orderly.counted i) (orderly.saved i)⟩

variable (devsw) in
theorem iput_orderly (admits : Admits inv) (orderly : Orderly inv sb fresh m) (used : 0 < (m.icache i).ref)
    (unlocked : (m.icache i).locked = false) (kept : (m.icache i).valid = true → (m.icache i).nlink ≠ 0) :
    ∃ m', (iput i).run (Machine.handle sb devsw) m = some ((), m') ∧ Orderly inv sb fresh m' ∧
      m' = { m with icache := Function.update m.icache i { m.icache i with ref := (m.icache i).ref - 1 } } := by
  -- a link keeps `iput` from truncating the inode
  have frees : ¬ ((m.icache i).ref = 1 ∧ (m.icache i).valid = true ∧ (m.icache i).nlink = 0) :=
    fun frees => kept frees.2.1 frees.2.2
  have owned := owned_done orderly.owned admits (r := .iput i) ⟨used, fun locked => absurd (unlocked.symm.trans locked)
    Bool.false_ne_true⟩ (request_returns (iput_run sb noDevices frees))
  refine ⟨_, iput_run sb devsw frees, orderly.replaced owned ?_ fun _ valid => orderly.saved i used valid, rfl⟩
  dsimp only
  omega

variable (devsw) in
theorem iunlockput_orderly (admits : Admits inv) (orderly : Orderly inv sb (fun _ => False) m)
    (used : 0 < (m.icache i).ref) :
    ∃ t, (iunlockput i).run (Machine.handle sb devsw) m = some ((), t) ∧ Orderly inv sb (fun _ => False) t ∧
      t = { m with
        icache := Function.update m.icache i { m.icache i with locked := false, ref := (m.icache i).ref - 1 } } := by
  obtain ⟨unlocks, second⟩ := iunlock_orderly devsw admits orderly used
  obtain ⟨m', isM'⟩ : ∃ m' : Machine, m' = { m with icache := m.icache.iunlock i } := ⟨_, rfl⟩
  rw [← isM'] at unlocks second
  have entry : m'.icache i = { m.icache i with locked := false } := by
    rw [isM']
    exact Function.update_self ..
  have used' : 0 < (m'.icache i).ref := by
    rw [entry]
    exact used
  obtain ⟨t, puts, last, isT⟩ := iput_orderly devsw admits second used' (by rw [entry]) fun valid => by
    have linked := second.linked _ (second.present used') not_false
    rwa [← second.saved i used' valid] at linked
  refine ⟨t, ?_, last, ?_⟩
  · rw [iunlockput]
    exact (run_seq unlocks _).trans puts
  · rw [isT, entry, isM']
    dsimp only [Icache.iunlock]
    rw [Function.update_idem]

/-! ## Fields -/

variable (devsw) in
theorem relink_orderly (admits : Admits inv) (orderly : Orderly inv sb fresh m) (used : 0 < (m.icache i).ref)
    (locked : (m.icache i).locked = true) (major minor : UInt16) {nlink : UInt16} (linked : nlink ≠ 0) :
    ∃ m₁ m', (setLinks i major minor nlink).run (Machine.handle sb devsw) m = some ((), m₁) ∧
      (iupdate i).run (Machine.handle sb devsw) m₁ = some ((), m') ∧
      Orderly inv sb (fun f => fresh f ∧ f ≠ (m.icache i).inum) m' ∧
      treeOn sb m'.store.view = (treeOn sb m.store.view).modify (m.icache i).inum (·.relinked major minor nlink) ∧
      m'.icache = Function.update m.icache i { m.icache i with major, minor, nlink } ∧
      Takes sb 0 m.store.view m'.store.view := by
  obtain ⟨nodes, owned⟩ := orderly.owned
  have valid := ((owned.entry i).held locked).2
  have present := orderly.present used
  have saved := orderly.saved i used valid
  obtain ⟨f, isF⟩ : ∃ f, f = (m.icache i).inum := ⟨_, rfl⟩
  obtain ⟨d, isD⟩ : ∃ d, d = diskInode sb m.store.view f := ⟨_, rfl⟩
  obtain ⟨ip, isIp⟩ : ∃ ip : MemInode, ip = { m.icache i with major, minor, nlink } := ⟨_, rfl⟩
  have number : ip.inum = f := by rw [isIp, isF]
  have fields : ip.dinode = { d with major, minor, nlink } := by
    rw [isD, isF, ← saved, isIp]
    rfl
  -- between the two calls memory is ahead of the disk: only `Owned` holds there
  obtain ⟨m₁, isM₁⟩ : ∃ m₁ : Machine, m₁ = { m with icache := Function.update m.icache i ip } := ⟨_, rfl⟩
  have cache : m₁.icache = Function.update m.icache i ip := by rw [isM₁]
  have here : m₁.icache i = ip := by rw [cache, Function.update_self]
  have sets : m.handle sb noDevices (.setLinks i major minor nlink) = some ((), m₁) := by
    rw [isM₁, isIp]
    rfl
  have owned₁ := owned_done ⟨nodes, owned⟩ admits (r := .setLinks i major minor nlink) ⟨used, locked⟩ sets
  obtain ⟨log', puts, _⟩ := iupdate_run sb admits owned.logged ip m.store
  obtain ⟨view', isView⟩ : ∃ view', view' = putInode sb m.store.view f ip.dinode := ⟨_, rfl⟩
  rw [number, ← isView] at puts
  have updates : (Fs.iupdate sb m₁.log (m₁.icache i)).run Store.handle m₁.store =
      some (log', { m.store with view := view' }) := by
    rw [here, isM₁]
    exact puts
  have permitted : Permitted sb (.iupdate i) m₁ := by
    rw [Permitted, here, isIp]
    exact ⟨used, locked⟩
  have owned' := owned_called owned₁ admits (r := .iupdate i) permitted Machine.handle_iupdate updates
  rw [← isF] at present
  have confined : Confined sb f m.store.view nodes view' nodes := isView ▸ Confined.putInode owned.sound present.1 _
  have now : diskInode sb view' f = { d with major, minor, nlink } := by
    rw [isView, diskInode_putInode_self, fields]
  have was := orderly.proper f present
  have node := orderly.node owned present
  rw [← isD] at was node
  have bytes : ∀ k, k < d.size.toNat → byteAt view' d.addrs k = byteAt m.store.view d.addrs k := by
    intro k inside
    have mapped := was.filled k inside
    rw [← node] at mapped ⊢
    rw [isView]
    exact byteAt_putInode owned.sound present.1 _ mapped
  have present' : Present sb view' f := by
    refine ⟨present.1, ?_⟩
    rw [now]
    exact isD ▸ present.2
  have result :
      Orderly inv sb (fun g => fresh g ∧ g ≠ f) { m₁ with log := log', store := { m.store with view := view' } } ∧
      treeOn sb view' = Function.update (treeOn sb m.store.view) f (treeOn sb view' f) := by
    refine orderly.changed (f := f) owned owned' (fun h other => confined.sameFile other) ?_ (fun _ => present')
      (fun _ remains => ?_) (fun _ _ => ?_) (fun _ other new => ⟨new, other⟩) (fun j => ?_)
      (fun j isF' usedJ _ => ?_) fun j other => ?_
    · intro zero
      exact orderly.zero (zero ▸ present)
    · dsimp only
      rw [now]
      refine ⟨fun k inside => ?_, was.aligned, fun isDir => ?_, fun isDir e member real => ?_⟩
      · have mapped := was.filled k inside
        rw [← node] at mapped ⊢
        rw [isView, blockAt_putInode owned.sound present.1]
        exact mapped
      · exact (listing_congr bytes).symm ▸ was.distinct isDir
      · exact remains _ (was.named isDir e ((listing_congr bytes) ▸ member) real)
    · dsimp only
      rw [now]
      exact linked
    · dsimp only
      rw [cache]
      by_cases isI : j = i
      · rw [isI, Function.update_self, isIp]
        exact orderly.counted i
      · rw [Function.update_of_ne isI]
        exact orderly.counted j
    · dsimp only at isF' usedJ ⊢
      rw [now, ← fields]
      by_cases isI : j = i
      · rw [isI, here]
      · rw [cache, Function.update_of_ne isI] at isF' usedJ
        exact absurd (owned.alone j i usedJ used (isF'.trans isF)) isI
    · dsimp only at other ⊢
      rw [cache] at other ⊢
      refine Function.update_of_ne (fun isI => other ?_) ..
      rw [isI, Function.update_self, number]
  have answered : m₁.handle sb devsw (.iupdate i) =
      some ((), { m₁ with log := log', store := { m.store with view := view' } }) := by
    rw [Machine.handle_iupdate, Machine.call, updates]
    rfl
  refine ⟨m₁, _, run_answered ?_, run_answered answered, isF ▸ result.1, ?_, ?_, ?_⟩
  · rw [isM₁, isIp]
    rfl
  · rw [← isF, Tree.modify, treeOn_present present, ← isD, Option.map_some]
    refine result.2.trans (congrArg (Function.update (treeOn sb m.store.view) f) ?_)
    rw [treeOn_present present', now]
    refine congrArg some ?_
    have same := nodeOf_congr bytes
    rw [← same]
    rfl
  · rw [isM₁, isIp]
  · dsimp only
    rw [isView]
    exact takes_congr 0 fun b => inUse_putInode owned.sound present.1 _

/-! ## Entries -/

variable {name : Name} {inum : UInt32} {nodes nodes' : Nodes}

theorem directory_orderly (orderly : Orderly inv sb fresh m)
    (owned : Owned inv sb m.icache m.log m.store.view nodes) (used : 0 < (m.icache dp).ref)
    (locked : (m.icache dp).locked = true) (isDir : (m.icache dp).type = T_DIR)
    (free : 2 ≤ (freeBlocks sb m.store.view).card) :
    Directory inv sb m dp (slotsBetween 0 ((m.icache dp).size.toNat + direntSize)) nodes (entriesOf m dp) := by
  have valid := ((owned.entry dp).held locked).2
  have present := orderly.present used
  have node := ((owned.entry dp).copied used valid).node
  have was := orderly.proper _ present
  rw [← orderly.saved dp used valid] at was
  refine ⟨⟨isDir, was.filled, ?_, ?_⟩, used, present.1, node, owned.logged, owned.sound, ?_⟩
  · rw [entriesOf, length_entriesAt]
    exact (Nat.mul_div_cancel' (Nat.dvd_of_mod_eq_zero (was.aligned isDir))).symm
  · rw [entriesOf, length_entriesAt]
  · rw [node]
    exact enough_entry was.filled (was.aligned isDir) free

structure Extended (inv : Log → Prop) (sb : Superblock) (dp : Fin ninode) (entry : Dirent) (m : Machine) (nodes : Nodes)
    (m' : Machine) (nodes' : Nodes) : Prop where
  lists : Lists m' dp (Slots.insert Dirent.key entry (entriesOf m dp))
  owned : ∃ nodes, Owned inv sb m'.icache m'.log m'.store.view nodes
  cache : ∃ addrs size, m'.icache = Function.update m.icache dp { m.icache dp with addrs, size }
  saved : diskInode sb m'.store.view (m.icache dp).inum = (m'.icache dp).dinode
  files : ∀ g, g ≠ (m.icache dp).inum → SameFile sb g m.store.view nodes m'.store.view nodes'
  takes : Takes sb 2 m.store.view m'.store.view

variable (devsw name inum) in
/-- The entry is one call of `writei`, whose equation gives the cache and the blocks that it takes. -/
theorem dirlink_extends (admits : Admits inv) (orderly : Orderly inv sb fresh m)
    (owned : Owned inv sb m.icache m.log m.store.view nodes) (used : 0 < (m.icache dp).ref)
    (locked : (m.icache dp).locked = true) (isDir : (m.icache dp).type = T_DIR)
    (absent : bindings (entriesOf m dp) name.label = none)
    (room : (m.icache dp).size.toNat + direntSize ≤ maxFile * bsize) (free : 2 ≤ (freeBlocks sb m.store.view).card) :
    ∃ m' nodes', (dirlink dp name inum).run (Machine.handle sb devsw) m = some (0, m') ∧
      Extended inv sb dp (.named name inum) m nodes m' nodes' := by
  have valid := ((owned.entry dp).held locked).2
  have dir := directory_orderly orderly owned used locked isDir free
  have length : direntSize * ((entriesOf m dp).length + 1) = (m.icache dp).size.toNat + direntSize := by
    rw [Nat.mul_succ, ← dir.size]
  obtain ⟨m', nodes', links, writes, dir', beside⟩ :=
    dirlink_absent devsw name inum admits dir (length.trans_le room) (length ▸ subset_rfl) absent
  have owned' : ∃ nodes, Owned inv sb m'.icache m'.log m'.store.view nodes := by
    have permitted : Permitted sb (.writei dp (Dirent.named name inum).byte
        (.ofNat (direntSize * Slots.place Dirent.key (entriesOf m dp))) deSize) m := ⟨used, locked⟩
    refine owned.step_notDev admits permitted (fun j isDev => ⟨fun _ _ _ isRead => ?_, fun _ _ _ isWrite => ?_⟩) writes
    · cases isRead
    · cases isWrite
      exact dir.notDev isDev
  have saved := beside.saved (orderly.saved dp used valid).symm
  rw [beside.number] at saved
  obtain ⟨addrs, size, same⟩ := beside.fields
  rw [Machine.handle_writei] at writes
  obtain ⟨⟨r, ip', log'⟩, t, wrote, answered⟩ := Machine.call_some writes
  cases answered
  have off : (UInt64.ofNat (direntSize * Slots.place Dirent.key (entriesOf m dp))).toNat % direntSize = 0 := by
    rw [UInt64.toNat_ofNat']
    change 16 * _ % 2 ^ 64 % 16 = 0
    omega
  have takes : Takes sb 2 m.store.view t.view := by
    have all := writei_takes admits devsw owned.logged owned.sound dir.node dir.inside dir.notDev wrote
    rwa [toNat_deSize, blocksFrom_entry off] at all
  refine ⟨_, nodes', links, dir'.toLists, owned', ⟨addrs, size, ?_⟩, saved, beside.files, takes⟩
  dsimp only at same ⊢
  rw [Function.update_self] at same
  rw [same]

namespace Extended

variable {entry : Dirent}

theorem number (extended : Extended inv sb dp entry m nodes m' nodes') : (m'.icache dp).inum = (m.icache dp).inum := by
  obtain ⟨addrs, size, cache⟩ := extended.cache
  rw [cache, Function.update_self]

theorem listing (extended : Extended inv sb dp entry m nodes m' nodes') :
    Fs.listing m'.store.view (diskInode sb m'.store.view (m.icache dp).inum) =
      Slots.insert Dirent.key entry (entriesOf m dp) := by
  have lists := extended.lists
  have entries : (m'.icache dp).dinode.size.toNat / direntSize =
      (Slots.insert Dirent.key entry (entriesOf m dp)).length := by
    change (m'.icache dp).size.toNat / direntSize = _
    rw [lists.size]
    exact Nat.mul_div_cancel_left _ (by decide)
  rw [extended.saved, Fs.listing, entries]
  exact lists.all

theorem present (extended : Extended inv sb dp entry m nodes m' nodes')
    (before : Present sb m.store.view (m.icache dp).inum) : Present sb m'.store.view (m.icache dp).inum := by
  refine ⟨before.1, ?_⟩
  rw [extended.saved]
  change (m'.icache dp).type ≠ 0
  rw [extended.lists.isDir]
  decide

/-- An entry for an inode in use, with a name that the directory did not have. -/
theorem orderly (extended : Extended inv sb dp entry m nodes m' nodes') (orderly : Orderly inv sb fresh m)
    (owned : Owned inv sb m.icache m.log m.store.view nodes) (used : 0 < (m.icache dp).ref)
    (valid : (m.icache dp).valid = true) (isDir : (m.icache dp).type = T_DIR) {e : Label} (key : entry.key = some e)
    (named : Present sb m.store.view entry.inum.toUInt32) (absent : bindings (entriesOf m dp) e = none) :
    Orderly inv sb fresh m' ∧ treeOn sb m'.store.view = Function.update (treeOn sb m.store.view) (m.icache dp).inum
      (treeOn sb m'.store.view (m.icache dp).inum) := by
  have present := orderly.present used
  have saved := orderly.saved dp used valid
  have was := orderly.proper _ present
  rw [← saved] at was
  have listed : Fs.listing m.store.view (m.icache dp).dinode = entriesOf m dp := rfl
  obtain ⟨addrs, size, cache⟩ := extended.cache
  have entry' : m'.icache dp = { m.icache dp with addrs, size } := by rw [cache, Function.update_self]
  have elsewhere : ∀ j, j ≠ dp → m'.icache j = m.icache j := fun j other => by rw [cache, Function.update_of_ne other]
  refine orderly.changed owned extended.owned extended.files ?_ (fun _ => extended.present present)
    (fun _ remains => ?_) (fun _ old => ?_) (fun _ _ => id) (fun j => ?_) (fun j isF usedJ _ => ?_) fun j other => ?_
  · exact fun zero => orderly.zero (zero ▸ present)
  · refine ⟨?_, fun _ => ?_, fun _ => ?_, fun _ e member nonzero => ?_⟩
    · rw [extended.saved]
      exact extended.lists.filled
    · rw [extended.saved]
      change (m'.icache dp).size.toNat % direntSize = 0
      rw [extended.lists.size]
      exact Nat.mul_mod_right ..
    · rw [extended.listing]
      exact (listed ▸ was.distinct isDir).insert key (Option.map_eq_none_iff.mp absent)
    · rw [extended.listing] at member
      rcases Slots.mem_insert member with rfl | before
      · exact remains _ named
      · exact remains _ (was.named isDir e (listed.symm ▸ before) nonzero)
  · have before := orderly.linked _ present old
    rw [← saved] at before
    rw [extended.saved, entry']
    exact before
  · by_cases isI : j = dp
    · rw [isI, entry']
      exact used.le
    · rw [elsewhere j isI]
      exact orderly.counted j
  · by_cases isI : j = dp
    · rw [isI, extended.saved]
    · rw [elsewhere j isI] at isF usedJ
      exact absurd (owned.alone j dp usedJ used isF) isI
  · refine elsewhere j fun isI => other ?_
    rw [isI, extended.number]

end Extended

variable (devsw dp name inum) in
theorem dirlink_orderly (admits : Admits inv) (orderly : Orderly inv sb fresh m) (used : 0 < (m.icache dp).ref)
    (locked : (m.icache dp).locked = true) (isDir : (m.icache dp).type = T_DIR)
    (unnamed : ∀ n, treeOn sb m.store.view (m.icache dp).inum = some n → n.names name.label = none)
    (real : inum.toUInt16 ≠ 0) (named : Present sb m.store.view inum.toUInt16.toUInt32)
    (room : (m.icache dp).size.toNat + direntSize ≤ maxFile * bsize) (free : 2 ≤ (freeBlocks sb m.store.view).card) :
    ∃ m' addrs size, (dirlink dp name inum).run (Machine.handle sb devsw) m = some (0, m') ∧ Orderly inv sb fresh m' ∧
      treeOn sb m'.store.view =
        (treeOn sb m.store.view).modify (m.icache dp).inum (·.bound name.label inum.toUInt16) ∧
      m'.icache = Function.update m.icache dp { m.icache dp with addrs, size } ∧
      size.toNat ≤ (m.icache dp).size.toNat + direntSize ∧
      Takes sb 2 m.store.view m'.store.view := by
  obtain ⟨nodes, owned⟩ := orderly.owned
  have valid := ((owned.entry dp).held locked).2
  have present := orderly.present used
  have saved := orderly.saved dp used valid
  -- the tree and the locked copy agree on the names
  have before : treeOn sb m.store.view (m.icache dp).inum = some (nodeOf m.store.view (m.icache dp).dinode) := by
    rw [treeOn_present present, ← saved]
  have absent : bindings (entriesOf m dp) name.label = none := by
    have free := unnamed _ before
    rw [nodeOf_dir isDir] at free
    exact free
  obtain ⟨m', nodes', links, extended⟩ :=
    dirlink_extends devsw name inum admits orderly owned used locked isDir absent room free
  obtain ⟨orderly', tree⟩ := extended.orderly orderly owned used valid isDir (Dirent.key_named real) named absent
  have listing := extended.listing
  have present' := extended.present present
  obtain ⟨addrs, size, cache⟩ := extended.cache
  have entry' : m'.icache dp = { m.icache dp with addrs, size } := by rw [cache, Function.update_self]
  refine ⟨m', addrs, size, links, orderly', ?_, cache, ?_, extended.takes⟩
  · refine tree.trans (congrArg (Function.update (treeOn sb m.store.view) (m.icache dp).inum) ?_)
    rw [before, treeOn_present present', Option.map_some]
    have isDir' : (diskInode sb m'.store.view (m.icache dp).inum).type = T_DIR := by
      rw [extended.saved]
      exact extended.lists.isDir
    rw [nodeOf_dir isDir', nodeOf_dir isDir, listing, extended.saved, entry', bindings_insert real absent]
    rfl
  · have grown := Slots.length_insert Dirent.key (Dirent.named name inum) (entriesOf m dp)
    have old := (directory_orderly orderly owned used locked isDir free).size
    have bytes := extended.lists.size
    rw [entry'] at bytes
    change size.toNat = _ at bytes
    rw [bytes, old, ← Nat.mul_succ, grown]
    refine Nat.mul_le_mul_left _ ?_
    split <;> omega

end Inodes

end Xv6
