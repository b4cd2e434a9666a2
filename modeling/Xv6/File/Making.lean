import Xv6.File.Transactions
import Xv6.Fs.Tree

/-! Creations of files and directories.

`create` of a new name makes one node and binds the name, whatever blocks and entries of the cache it takes
for them. In any number of calls of `sys_mkdirat` and `sys_mknodat`, paths that led somewhere keep to where
they led.
-/

set_option autoImplicit false

namespace Xv6

open Library

namespace Fs

/-- What `create` is called with. -/
structure Creation where
  cwd : Option (Fin ninode)
  path : List UInt8
  type : UInt16
  major : UInt16
  minor : UInt16

/-- The inode at which the path of a creation starts. -/
def Creation.start (m : Machine) (c : Creation) : Option UInt32 := Inodes.startInum m c.cwd c.path

/-- One creation in a tree; `start` says where paths start. -/
def Tree.Makes (start : Creation → Option UInt32) (t : Tree) (c : Creation) (t' : Tree) : Prop :=
  ∃ s es e p n g, start c = some s ∧ elements c.path = es ++ [e] ∧ walk t.names s es = some p ∧ t p = some n ∧
    n.type = T_DIR ∧ n.names e = none ∧ t g = none ∧ g.toUInt16.toUInt32 = g ∧
    t' = t.created p g e c.type c.major c.minor

/-- Paths lead where they led, to inodes of the same types. -/
structure Tree.Extends (t t' : Tree) : Prop where
  walks : ∀ s es q, walk t.names s es = some q → walk t'.names s es = some q
  types : ∀ g n, t g = some n → ∃ n', t' g = some n' ∧ n'.type = n.type

/-- The path leads to an inode of the type. -/
def Tree.Has (start : Creation → Option UInt32) (t : Tree) (c : Creation) : Prop :=
  ∃ s g n, start c = some s ∧ walk t.names s (elements c.path) = some g ∧ t g = some n ∧ n.type = c.type

variable {start : Creation → Option UInt32}

theorem Tree.Extends.trans {t t' t'' : Tree} (first : t.Extends t') (second : t'.Extends t'') : t.Extends t'' where
  walks s es q leads := second.walks s es q (first.walks s es q leads)
  types g n here := by
    obtain ⟨n', here', same⟩ := first.types g n here
    obtain ⟨n'', here'', same'⟩ := second.types g n' here'
    exact ⟨n'', here'', same'.trans same⟩

theorem Tree.Extends.has {t t' : Tree} (grows : t.Extends t') {c : Creation} (has : t.Has start c) :
    t'.Has start c := by
  obtain ⟨s, g, n, from_, leads, here, type⟩ := has
  obtain ⟨n', here', same⟩ := grows.types g n here
  exact ⟨s, g, n', from_, grows.walks _ _ _ leads, here', same.trans type⟩

theorem Tree.Makes.extends {t t' : Tree} {c : Creation} (makes : t.Makes start c t') :
    t.Extends t' ∧ t'.Has start c := by
  obtain ⟨s, es, e, p, n, g, from_, split, leads, parent, isDir, free, absent, short, rfl⟩ := makes
  have unnamed : ∀ n, t p = some n → n.names e = none := by
    intro n' same
    cases parent.symm.trans same
    exact free
  have notP : g ≠ p := by
    rintro rfl
    cases absent.symm.trans parent
  refine ⟨⟨fun s es q leads => created_walk absent unnamed leads, fun k n here => created_type absent here⟩, ?_⟩
  refine ⟨s, g, _, from_, ?_, (Function.update_of_ne notP _ _).trans (Function.update_self ..), rfl⟩
  rw [split, created_path absent unnamed parent isDir leads, short]

/-- After any number of creations the old paths lead where they led, and the new ones to the new inodes. -/
theorem Tree.leads_makes {t t' : Tree} {cs : List Creation} (leads : Leads (Tree.Makes start) t cs t') :
    t.Extends t' ∧ ∀ c ∈ cs, t'.Has start c := by
  -- on the creations: what one of them makes stays under the others
  induction cs generalizing t with
  | nil =>
    cases leads
    exact ⟨⟨fun _ _ _ => id, fun _ n here => ⟨n, here, rfl⟩⟩, fun _ member => absurd member List.not_mem_nil⟩
  | cons c cs ih =>
    obtain ⟨u, makes, later⟩ := leads
    obtain ⟨first, has⟩ := makes.extends
    obtain ⟨rest, others⟩ := ih later
    refine ⟨first.trans rest, fun c' member => ?_⟩
    rcases List.mem_cons.mp member with rfl | after
    · exact rest.has has
    · exact others c' after

end Fs

namespace Inodes

open Fs

variable {inv : Log → Prop} {sb : Superblock} {devsw : Fin ndev → Devsw UInt32} {fresh : UInt32 → Prop}
  {m : Machine} {i dp : Fin ninode} {g : UInt32} {name : Name}

/-! ## Creation -/

section
variable {ind : Fin ninode} {type major minor : UInt16}

theorem dots_apart : Name.dotdot.label ≠ Name.dot.label := by decide +kernel

theorem short (few : sb.ninodes.toNat ≤ 65536) (inside : InTable sb g) : g.toUInt16.toUInt32 = g := by
  change g.toNat < (sb.ninodes.toNat + 7) / 8 * 8 at inside
  apply UInt32.toNat_inj.mp
  rw [UInt16.toNat_toUInt32, UInt32.toNat_toUInt16]
  omega

theorem short_ne (few : sb.ninodes.toNat ≤ 65536) (inside : InTable sb g) (real : g ≠ 0) : g.toUInt16 ≠ 0 := by
  intro zero
  apply real
  rw [← short few inside, zero]
  rfl

variable (devsw) in
theorem allocated_orderly (admits : Admits inv) (orderly : Orderly inv sb (fun _ => False) m)
    (next : NextInode sb m.store.view g) {a : Fin ninode} (spare : (m.icache a).ref = 0) (typed : type ≠ 0)
    (major minor : UInt16) :
    ∃ ind m₁ m₂ m₃ t, (ialloc ROOTDEV type).run (Machine.handle sb devsw) m = some (ind, m₁) ∧
      (ilock ind).run (Machine.handle sb devsw) m₁ = some ((), m₂) ∧
      (setLinks ind major minor 1).run (Machine.handle sb devsw) m₂ = some ((), m₃) ∧
      (iupdate ind).run (Machine.handle sb devsw) m₃ = some ((), t) ∧ Orderly inv sb (fun _ => False) t ∧
      treeOn sb t.store.view =
        Function.update (treeOn sb m.store.view) g (some ⟨type, major, minor, 1, fun _ => none, []⟩) ∧
      (m.icache ind).ref = 0 ∧ (∀ j, j ≠ ind → t.icache j = m.icache j) ∧
      ((t.icache ind).inum = g ∧ (t.icache ind).ref = 1 ∧ (t.icache ind).locked = true) ∧
      ((t.icache ind).type = type ∧ (t.icache ind).size = 0) ∧ Takes sb 0 m.store.view t.store.view := by
  obtain ⟨ind, m₁, allocates, first, tree₁, unused, cache₁, now, takes₁⟩ :=
    ialloc_orderly devsw admits orderly next spare typed
  have entry₁ : m₁.icache ind =
      { m.icache ind with dev := ROOTDEV, inum := g, ref := 1, size := 0, valid := false } := by
    rw [cache₁, Function.update_self]
  have unlocked : (m₁.icache ind).locked = false := by
    rw [entry₁]
    exact orderly.unlocked unused
  have used₁ : 0 < (m₁.icache ind).ref := by
    rw [entry₁]
    exact Int.one_pos
  obtain ⟨m₂, locks, second, store₂, cache₂⟩ := ilock_orderly devsw admits first used₁ unlocked
  have entry₂ : m₂.icache ind = { m.icache ind with
      dev := ROOTDEV, inum := g, ref := 1, valid := true, locked := true, type := type, major := 0, minor := 0,
      nlink := 0, size := 0, addrs := fun _ => 0 } := by
    rw [cache₂, Function.update_self, entry₁, now]
    rfl
  have used₂ : 0 < (m₂.icache ind).ref := by
    rw [entry₂]
    exact Int.one_pos
  obtain ⟨m₃, t, sets, updates, third, tree₃, cache₃, takes₃⟩ :=
    relink_orderly devsw admits second used₂ (by rw [entry₂]) major minor (show (1 : UInt16) ≠ 0 by decide)
  have number : (m₂.icache ind).inum = g := by rw [entry₂]
  have entry₃ : t.icache ind = { m₂.icache ind with major, minor, nlink := 1 } := by
    rw [cache₃, Function.update_self]
  -- from here on no inode is without links
  refine ⟨ind, m₁, m₂, m₃, t, allocates, locks, sets, updates, ?_, ?_, unused, fun j other => ?_, ?_, ?_, ?_⟩
  · exact third.mono fun f both => both.2 (both.1.trans number.symm)
  · rw [tree₃, number, store₂, tree₁, Tree.modify, Function.update_self, Function.update_idem]
    rfl
  · rw [cache₃, Function.update_of_ne other, cache₂, Function.update_of_ne other, cache₁, Function.update_of_ne other]
  · rw [entry₃, entry₂]
    exact ⟨rfl, rfl, rfl⟩
  · rw [entry₃, entry₂]
    exact ⟨rfl, rfl⟩
  · rw [store₂] at takes₃
    exact takes₁.trans takes₃

variable (devsw) in
/-- The parent of a new directory gets a link, which does not wrap. -/
theorem linkParent_orderly (admits : Admits inv) (orderly : Orderly inv sb (fun _ => False) m)
    (used : 0 < (m.icache dp).ref) (locked : (m.icache dp).locked = true) (fits : (m.icache dp).nlink.toNat + 1 < 65536) :
    ∃ m₁ t, (setLinks dp (m.icache dp).major (m.icache dp).minor ((m.icache dp).nlink + 1)).run
        (Machine.handle sb devsw) m = some ((), m₁) ∧
      (iupdate dp).run (Machine.handle sb devsw) m₁ = some ((), t) ∧ Orderly inv sb (fun _ => False) t ∧
      treeOn sb t.store.view =
        (treeOn sb m.store.view).modify (m.icache dp).inum (fun n => { n with nlink := n.nlink + 1 }) ∧
      t.icache = Function.update m.icache dp { m.icache dp with nlink := (m.icache dp).nlink + 1 } ∧
      Takes sb 0 m.store.view t.store.view := by
  obtain ⟨nodes, owned⟩ := orderly.owned
  have present := orderly.present used
  have saved := orderly.saved dp used ((owned.entry dp).held locked).2
  have links : ((m.icache dp).nlink + 1).toNat = (m.icache dp).nlink.toNat + 1 := by
    rw [UInt16.toNat_add]
    change (_ + 1) % 65536 = _
    omega
  have more : (m.icache dp).nlink + 1 ≠ 0 := by
    intro zero
    have value := congrArg UInt16.toNat zero
    rw [links] at value
    exact Nat.succ_ne_zero _ value
  obtain ⟨m₁, t, sets, updates, next, tree, cache, takes⟩ :=
    relink_orderly devsw admits orderly used locked (m.icache dp).major (m.icache dp).minor more
  refine ⟨m₁, t, sets, updates, next.mono fun _ both => both.1, ?_, cache, takes⟩
  rw [tree, Tree.modify, Tree.modify, treeOn_present present, Option.map_some, Option.map_some, ← saved,
    Node.relinked, links]
  rfl

variable (devsw dp ind type) in
theorem linkType_orderly (admits : Admits inv) (orderly : Orderly inv sb (fun _ => False) m)
    (few : sb.ninodes.toNat ≤ 65536) (usedDp : 0 < (m.icache dp).ref) (lockedDp : (m.icache dp).locked = true)
    (usedInd : 0 < (m.icache ind).ref) (lockedInd : (m.icache ind).locked = true) (apart : ind ≠ dp)
    (typed : (m.icache ind).type = type) (empty : (m.icache ind).size = 0)
    (nameless : ∀ n, treeOn sb m.store.view (m.icache ind).inum = some n → n.names = fun _ => none)
    (counts : type = T_DIR → (m.icache dp).nlink.toNat + 1 < 65536)
    (free : dotBlocks type ≤ (freeBlocks sb m.store.view).card) :
    ∃ t, (linkType dp ind type).run (Machine.handle sb devsw) m = some ((), t) ∧ Orderly inv sb (fun _ => False) t ∧
      treeOn sb t.store.view = (treeOn sb m.store.view).dotted (m.icache dp).inum (m.icache ind).inum type ∧
      (∀ j, j ≠ ind → j ≠ dp → t.icache j = m.icache j) ∧
      (∃ nlink, t.icache dp = { m.icache dp with nlink }) ∧
      (∃ addrs size, t.icache ind = { m.icache ind with addrs, size }) ∧
      Takes sb (dotBlocks type) m.store.view t.store.view := by
  by_cases isDir : type = T_DIR
  · subst isDir
    have fits := counts rfl
    have four : 4 ≤ (freeBlocks sb m.store.view).card := free
    obtain ⟨nodes, owned⟩ := orderly.owned
    obtain ⟨p, isP⟩ : ∃ p, p = (m.icache dp).inum := ⟨_, rfl⟩
    obtain ⟨f, isF⟩ : ∃ f, f = (m.icache ind).inum := ⟨_, rfl⟩
    have other : f ≠ p := by
      intro same
      exact apart (owned.alone ind dp usedInd usedDp (isF.symm.trans (same.trans isP)))
    -- the parent is linked once more
    obtain ⟨m₁, m₂, sets, updates, first, counted, cache₁, takes₁⟩ :=
      linkParent_orderly devsw admits orderly usedDp lockedDp fits
    rw [← isP] at counted
    have ind₂ : m₂.icache ind = m.icache ind := by rw [cache₁, Function.update_of_ne apart]
    have dp₂ : m₂.icache dp = { m.icache dp with nlink := (m.icache dp).nlink + 1 } := by
      rw [cache₁, Function.update_self]
    have atF₂ : treeOn sb m₂.store.view f = treeOn sb m.store.view f := by
      rw [counted, Tree.modify, Function.update_of_ne other]
    have usedInd₂ : 0 < (m₂.icache ind).ref := ind₂ ▸ usedInd
    have presentF₂ : Present sb m₂.store.view f := by
      have here := first.present usedInd₂
      rwa [ind₂, ← isF] at here
    -- the entry of the directory itself
    have free₂ : 4 ≤ (freeBlocks sb m₂.store.view).card := by
      have left := takes₁.card
      omega
    obtain ⟨m₃, addrs₃, size₃, links₃, second, tree₃, cache₃, size₃_le, takes₃⟩ :=
      dirlink_orderly devsw ind Name.dot f admits first usedInd₂ (ind₂ ▸ lockedInd)
        (ind₂ ▸ typed) (fun n here => by
          rw [ind₂, ← isF, atF₂, isF] at here
          rw [nameless n here]) (short_ne few presentF₂.1 (first.real presentF₂)) (by rwa [short few presentF₂.1])
        (by rw [ind₂, empty]; decide) (by omega)
    have ind₃ : m₃.icache ind = { m.icache ind with addrs := addrs₃, size := size₃ } := by
      rw [cache₃, Function.update_self, ind₂]
    have dp₃ : m₃.icache dp = { m.icache dp with nlink := (m.icache dp).nlink + 1 } := by
      rw [cache₃, Function.update_of_ne apart.symm, dp₂]
    have usedInd₃ : 0 < (m₃.icache ind).ref := by
      rw [ind₃]
      exact usedInd
    have presentP₃ : Present sb m₃.store.view p := by
      have here := second.present (i := dp) (by rw [dp₃]; exact usedDp)
      rwa [dp₃, ← isP] at here
    have free₃ : 2 ≤ (freeBlocks sb m₃.store.view).card := by
      have left := takes₃.card
      omega
    -- the entry of the parent
    obtain ⟨t, addrs₄, size₄, links₄, third, tree₄, cache₄, _, takes₄⟩ :=
      dirlink_orderly devsw ind Name.dotdot p admits second usedInd₃
        (by rw [ind₃]; exact lockedInd) (by rw [ind₃]; exact typed) (fun n here => by
          rw [ind₃, tree₃, ind₂, ← isF, Tree.modify, Function.update_self, atF₂, isF] at here
          obtain ⟨n', same, rfl⟩ := Option.map_eq_some_iff.mp here
          rw [Node.bound, nameless n' same]
          dsimp only
          rw [Function.update_of_ne dots_apart])
        (short_ne few presentP₃.1 (second.real presentP₃)) (by rwa [short few presentP₃.1])
        (by
          rw [ind₂, empty] at size₃_le
          change size₃.toNat ≤ 0 + 16 at size₃_le
          rw [ind₃]
          change size₃.toNat + 16 ≤ 71680
          omega) free₃
    refine ⟨t, ?_, third, ?_, fun j notInd notDp => ?_, ⟨(m.icache dp).nlink + 1, ?_⟩, ⟨addrs₄, size₄, ?_⟩, ?_⟩
    · rw [linkType, if_pos rfl, linkDots]
      refine (run_seq (run_answered rfl) _).trans ((run_seq sets _).trans ((run_seq updates _).trans ?_))
      refine (run_seq (run_answered rfl) _).trans ?_
      have self : (m₂.icache ind).inum = f := by rw [ind₂, isF]
      have parent : (m₃.icache dp).inum = p := by rw [dp₃, isP]
      rw [self]
      refine (run_seq links₃ _).trans ((run_seq (run_answered rfl) _).trans ?_)
      rw [parent]
      exact (run_seq links₄ _).trans rfl
    · rw [tree₄, tree₃, counted, ind₃, ind₂, Tree.dotted, if_pos rfl, ← isF, ← isP]
    · rw [cache₄, Function.update_of_ne notInd, cache₃, Function.update_of_ne notInd, cache₁,
        Function.update_of_ne notDp]
    · rw [cache₄, Function.update_of_ne apart.symm, dp₃]
    · rw [cache₄, Function.update_self, ind₃]
    · exact ((takes₁.trans takes₃).trans takes₄).mono (by decide)
  · refine ⟨m, ?_, orderly, ?_, fun _ _ _ => rfl, ⟨_, rfl⟩, ⟨_, _, rfl⟩, Takes.refl ..⟩
    · rw [linkType, if_neg isDir]
      rfl
    · rw [Tree.dotted, if_neg isDir]

variable (devsw dp name type major minor) in
-- `create` of a name that the directory, which is locked, does not have.
theorem createNew_orderly (admits : Admits inv) (orderly : Orderly inv sb (fun _ => False) m)
    (few : sb.ninodes.toNat ≤ 65536) (used : 0 < (m.icache dp).ref) (locked : (m.icache dp).locked = true)
    (isDir : (m.icache dp).type = T_DIR)
    (unnamed : ∀ n, treeOn sb m.store.view (m.icache dp).inum = some n → n.names name.label = none)
    (next : NextInode sb m.store.view g) {a : Fin ninode} (spare : (m.icache a).ref = 0) (typed : type ≠ 0)
    (counts : type = T_DIR → (m.icache dp).nlink.toNat + 1 < 65536)
    (room : (m.icache dp).size.toNat + direntSize ≤ maxFile * bsize)
    (free : dotBlocks type + 2 ≤ (freeBlocks sb m.store.view).card) :
    ∃ ind t, (createNew dp name type major minor).run (Machine.handle sb devsw) m = some (some ind, t) ∧
      Orderly inv sb (fun _ => False) t ∧
      treeOn sb t.store.view = (treeOn sb m.store.view).created (m.icache dp).inum g name.label type major minor ∧
      ((m.icache ind).ref = 0 ∧ (t.icache ind).inum = g ∧ (t.icache ind).ref = 1 ∧ (t.icache ind).locked = true) ∧
      ((t.icache dp).ref = (m.icache dp).ref - 1 ∧ (t.icache dp).locked = false ∧
        (t.icache dp).inum = (m.icache dp).inum) ∧
      (∀ j, j ≠ ind → j ≠ dp → t.icache j = m.icache j) ∧
      Takes sb (dotBlocks type + 2) m.store.view t.store.view := by
  obtain ⟨nodes, owned⟩ := orderly.owned
  have device : (m.icache dp).dev = ROOTDEV := ((owned.entry dp).live used).device
  have present := orderly.present used
  have other : g ≠ (m.icache dp).inum := fun same => present.2 (same ▸ next.free)
  obtain ⟨ind, m₁, m₂, m₃, m₄, allocates, locks, sets, updates, first, tree₁, unused, others, ⟨number, ref, held⟩,
    ⟨isType, empty⟩, takes₁⟩ := allocated_orderly devsw admits orderly next spare typed major minor
  -- the entry of the new inode was free, and the one of the directory is not
  have apart : ind ≠ dp := by
    rintro rfl
    omega
  have dp₄ : m₄.icache dp = m.icache dp := others dp apart.symm
  have free₁ := takes₁.card
  obtain ⟨m₅, dots, second, tree₂, others₂, ⟨nlink, dp₅⟩, ⟨addrs, size, ind₅⟩, takes₂⟩ :=
    linkType_orderly devsw dp ind type admits first few (dp₄ ▸ used) (dp₄ ▸ locked)
      (by rw [ref]; exact Int.one_pos) held apart isType empty
      (fun n here => by
        rw [number, tree₁, Function.update_self] at here
        cases here
        rfl)
      (fun isDir => dp₄ ▸ counts isDir) (by omega)
  have free₂ := takes₂.card
  rw [number, dp₄, tree₁] at tree₂
  rw [dp₄] at dp₅
  have presentG : Present sb m₅.store.view g := by
    have here := second.present (i := ind) (by rw [ind₅, ref]; exact Int.one_pos)
    rwa [ind₅, number] at here
  obtain ⟨m₆, addrs₆, size₆, links, third, tree₃, cache₃, _, takes₃⟩ :=
    dirlink_orderly devsw dp name g admits second (by rw [dp₅]; exact used)
      (by rw [dp₅]; exact locked) (by rw [dp₅]; exact isDir)
      (fun n here => by
        rw [dp₅, tree₂, Tree.dotted_parent _ other, Function.update_of_ne other.symm] at here
        obtain ⟨n', same, rfl⟩ := Option.map_eq_some_iff.mp here
        exact unnamed n' same)
      (short_ne few presentG.1 (second.real presentG)) (by rwa [short few presentG.1]) (by rw [dp₅]; exact room)
      (by omega)
  have dp₆ : m₆.icache dp = { m.icache dp with nlink, addrs := addrs₆, size := size₆ } := by
    rw [cache₃, Function.update_self, dp₅]
  have used₆ : 0 < (m₆.icache dp).ref := by
    rw [dp₆]
    exact used
  -- the caller keeps the new inode, and the directory goes back
  obtain ⟨t, puts, last, isT⟩ := iunlockput_orderly devsw admits third used₆
  have view : t.store.view = m₆.store.view := by rw [isT]
  have cacheT : ∀ j, j ≠ dp → t.icache j = m₅.icache j := by
    intro j notDp
    rw [isT]
    dsimp only
    rw [Function.update_of_ne notDp, cache₃, Function.update_of_ne notDp]
  have dpT : t.icache dp = { m₆.icache dp with locked := false, ref := (m₆.icache dp).ref - 1 } := by
    rw [isT]
    exact Function.update_self ..
  refine ⟨ind, t, ?_, last, ?_, ⟨unused, ?_⟩, ?_, fun j notInd notDp => ?_, ?_⟩
  · rw [createNew]
    refine (run_seq (run_answered rfl) _).trans ?_
    rw [device]
    refine (run_seq allocates _).trans ((run_seq locks _).trans ((run_seq sets _).trans ((run_seq updates _).trans ?_)))
    refine (run_seq dots _).trans ((run_seq (run_answered rfl) _).trans ?_)
    have self : (m₅.icache ind).inum = g := by rw [ind₅, number]
    rw [self]
    exact (run_seq links _).trans ((run_seq puts _).trans rfl)
  · rw [view, tree₃, dp₅, tree₂]
    exact Tree.created_eq _ other _ _ _ _
  · rw [cacheT ind apart, ind₅]
    exact ⟨number, ref, held⟩
  · rw [dpT, dp₆]
    exact ⟨rfl, rfl, rfl⟩
  · rw [cacheT j notDp, others₂ j notInd notDp, others j notInd]
  · rw [view]
    have all := (takes₁.trans takes₂).trans takes₃
    exact all.mono (by omega)

/-! ## Paths -/

/-- A path leads through the tree as it does through the entries of the directories. -/
theorem walk_tree (orderly : Orderly inv sb fresh m) {s : UInt32} (present : Present sb m.store.view s)
    (es : List Label) :
    walk (treeOn sb m.store.view).names s es = walk (directory sb m.store.view) s es := by
  induction es generalizing s with
  | nil => rfl
  | cons e es ih =>
    rw [walk, walk, treeOn_names present]
    by_cases isDir : (diskInode sb m.store.view s).type = T_DIR
    · rw [directory, if_pos isDir, Option.bind_some, Option.bind_some]
      cases found : bindings (entriesAt m.store.view (diskInode sb m.store.view s).addrs 0
          ((diskInode sb m.store.view s).size.toNat / direntSize)) e with
      | none => rfl
      | some h =>
        rw [Option.bind_some, Option.bind_some]
        obtain ⟨d, took, rfl⟩ := Option.map_eq_some_iff.mp found
        obtain ⟨member, key⟩ := Slots.get_some took
        refine ih ((orderly.proper s present).named isDir d member fun zero => ?_)
        rw [Dirent.key_eq_none.mpr zero] at key
        cases key
    · rw [directory, if_neg isDir]
      rfl

/-- The path leads to directory `p`, which does not have its last name `e` and can take it, and inode `g` is free. -/
structure Creatable (sb : Superblock) (m : Machine) (c : Creation) (p g : UInt32) (e : Label) : Prop where
  held : ∀ dir, c.cwd = some dir → 0 < (m.icache dir).ref
  leads : ∃ s es, startInum m c.cwd c.path = some s ∧ elements c.path = es ++ [e] ∧
    walk (treeOn sb m.store.view).names s es = some p
  parent : ∃ n, treeOn sb m.store.view p = some n ∧ n.type = T_DIR ∧ n.names e = none ∧
    (c.type = T_DIR → n.nlink + 1 < 65536)
  next : NextInode sb m.store.view g
  typed : c.type ≠ 0
  room : (diskInode sb m.store.view p).size.toNat + direntSize ≤ maxFile * bsize
  free : dotBlocks c.type + 2 ≤ (freeBlocks sb m.store.view).card

/-- A file system between two calls. -/
structure Idle (inv : Log → Prop) (sb : Superblock) (m : Machine) : Prop extends
    Orderly inv sb (fun _ => False) m, Vacant m where
  root : Present sb m.store.view ROOTINO

structure Locked (inv : Log → Prop) (sb : Superblock) (m : Machine) (p : UInt32) (dp : Fin ninode)
    (t : Machine) : Prop where
  orderly : Orderly inv sb (fun _ => False) t
  store : t.store = m.store
  used : 0 < (t.icache dp).ref
  locked : (t.icache dp).locked = true
  inum : (t.icache dp).inum = p
  fields : (t.icache dp).dinode = diskInode sb m.store.view p
  ref : ∀ j, (t.icache j).ref = (m.icache j).ref + if j = dp then 1 else 0
  unlocked : ∀ j, j ≠ dp → (t.icache j).locked = false
  stays : Stays m t
  spare : ∃ a, (t.icache a).ref = 0

namespace Creatable

variable {c : Creation} {p : UInt32} {e : Label}

-- The parent is a directory of the disk, which does not list the new name.
theorem directory (creatable : Creatable sb m c p g e) :
    Present sb m.store.view p ∧ (diskInode sb m.store.view p).type = T_DIR ∧
      bindings (listing m.store.view (diskInode sb m.store.view p)) e = none ∧
      (c.type = T_DIR → (diskInode sb m.store.view p).nlink.toNat + 1 < 65536) := by
  obtain ⟨n, parent, isDir, unnamed, counts⟩ := creatable.parent
  have present : Present sb m.store.view p := by
    by_contra absent
    rw [treeOn, if_neg absent] at parent
    cases parent
  rw [treeOn_present present] at parent
  cases parent
  have isDir' : (diskInode sb m.store.view p).type = T_DIR := isDir
  rw [nodeOf_dir isDir'] at unnamed
  exact ⟨present, isDir', unnamed, counts⟩

variable (devsw) in
theorem reaches (creatable : Creatable sb m c p g e) (admits : Admits inv) (idle : Idle inv sb m) :
    ∃ dp name m₁, (nameiparent c.cwd c.path fun _ => 0).run (Machine.handle sb devsw) m = some (some (dp, name), m₁) ∧
      Orderly inv sb (fun _ => False) m₁ ∧ Reached sb m m₁ dp ∧ (m₁.icache dp).inum = p ∧ name.label = e := by
  have orderly := idle.toOrderly
  obtain ⟨s, es, from_, split, leads⟩ := creatable.leads
  obtain ⟨_, isDir, _, _⟩ := creatable.directory
  -- the search starts at an inode in use, and passes only through such
  have presentS : Present sb m.store.view s := by
    rw [startInum] at from_
    split at from_
    · cases from_
      exact idle.root
    · obtain ⟨dir, isCwd, rfl⟩ := Option.map_eq_some_iff.mp from_
      exact orderly.present (creatable.held dir isCwd)
  rw [walk_tree orderly presentS] at leads
  have found : Fs.directory sb m.store.view p =
      some (bindings (listing m.store.view (diskInode sb m.store.view p))) := if_pos isDir
  obtain ⟨out, m₁, names, _, result⟩ :=
    nameiparent_walks devsw (fun _ => 0) orderly.settled idle.toVacant idle.root creatable.held from_
  have reaches := result es e split
  rw [leads, Option.bind_some, found] at reaches
  obtain ⟨dp, name, rfl, reached, number, label⟩ := reaches
  -- blocks stay owned during the search
  have fs : FileSystem inv sb m₁ := by
    have passes : Passes sb devsw ∅ 0 (namex c.cwd c.path true fun _ => 0) m fun out t _ =>
        FileSystem inv sb t ∧ ∀ found, out = some found → Mine t found.1 :=
      passes_namex (orderly.fileSystem idle.root) admits creatable.held
    obtain ⟨_, _, _, _, after⟩ := passes
    exact (after _ _ names).1
  exact ⟨dp, name, m₁, names, orderly.of_settled reached.settled fs.owned reached.store, reached, number, label⟩

variable (devsw) in
theorem locks (creatable : Creatable sb m c p g e) (admits : Admits inv) (idle : Idle inv sb m) :
    ∃ dp name m₁ t, (nameiparent c.cwd c.path fun _ => 0).run (Machine.handle sb devsw) m = some (some (dp, name), m₁) ∧
      (ilock dp).run (Machine.handle sb devsw) m₁ = some ((), t) ∧ Locked inv sb m p dp t ∧ name.label = e := by
  have vacant := idle.toVacant
  obtain ⟨dp, name, m₁, names, first, reached, number, label⟩ := creatable.reaches devsw admits idle
  have used₁ := reached.used idle.toOrderly.settled
  obtain ⟨t, locks, second, store₂, cache⟩ :=
    ilock_orderly devsw admits first used₁ (reached.unlocked vacant dp)
  have store : t.store = m.store := store₂.trans reached.store
  have entry : t.icache dp = { (m₁.icache dp).load (diskInode sb m₁.store.view (m₁.icache dp).inum) with
      locked := true, valid := true } := by
    rw [cache, Function.update_self]
  have inum : (t.icache dp).inum = p := by
    rw [entry]
    exact number
  have used : 0 < (t.icache dp).ref := by
    rw [entry]
    exact used₁
  have still : Stays m₁ t := Stays.update cache fun _ => rfl
  refine ⟨dp, name, m₁, t, names, locks, ⟨second, store, used, ?_, inum, ?_, fun j => ?_, fun j other => ?_,
    reached.stays.trans still reached.keeps, ?_⟩, label⟩
  · rw [entry]
  · rw [second.saved dp used (by rw [entry]), inum, store]
  · rw [← reached.ref j, cache]
    by_cases here : j = dp
    · rw [here, Function.update_self]
      rfl
    · rw [Function.update_of_ne here]
  · rw [cache, Function.update_of_ne other]
    exact reached.unlocked vacant j
  · -- the search has taken one of the two free entries at most
    obtain ⟨a, other, spare⟩ := reached.spare vacant
    exact ⟨a, by rw [cache, Function.update_of_ne other, spare]⟩

end Creatable

variable (devsw) in
/-- `create` of a new name returns the new inode, locked, and changes the tree in no other way. -/
theorem create_tree (admits : Admits inv) (few : sb.ninodes.toNat ≤ 65536) (idle : Idle inv sb m) {c : Creation}
    {p : UInt32} {e : Label} (creatable : Creatable sb m c p g e) :
    ∃ ind t, (create c.cwd c.path c.type c.major c.minor).run (Machine.handle sb devsw) m = some (some ind, t) ∧
      Orderly inv sb (fun _ => False) t ∧
      treeOn sb t.store.view = (treeOn sb m.store.view).created p g e c.type c.major c.minor ∧
      (t.icache ind).inum = g ∧ refs t = refs m + one ind ∧ locks t = Function.update (locks m) ind true ∧ Stays m t ∧
      Takes sb (dotBlocks c.type + 2) m.store.view t.store.view := by
  obtain ⟨present, isDir, unnamed, counts⟩ := creatable.directory
  obtain ⟨dp, name, m₁, m₂, names, locks, lock, label⟩ := creatable.locks devsw admits idle
  have second := lock.orderly
  have store := lock.store
  have isDir₂ : (m₂.icache dp).type = T_DIR := (congrArg (·.type) lock.fields).trans isDir
  have size : (m₂.icache dp).size = (diskInode sb m.store.view p).size := congrArg (·.size) lock.fields
  have links : (m₂.icache dp).nlink = (diskInode sb m.store.view p).nlink := congrArg (·.nlink) lock.fields
  have list : entriesAt m₂.store.view (m₂.icache dp).addrs 0 ((m₂.icache dp).size.toNat / direntSize) =
      listing m.store.view (diskInode sb m.store.view p) := by
    rw [← lock.fields, ← store]
    rfl
  have looks : (dirlookup dp name).run (Machine.handle sb devsw) m₂ = some (none, m₂) := by
    have saved : (m₂.icache dp).dinode = diskInode sb m₂.store.view (m₂.icache dp).inum := by
      rw [lock.fields, store, lock.inum]
    have lists := lists_locked second.settled (second.present lock.used) saved isDir₂
    rcases dirlookup_run sb devsw name lists with ⟨_, looks⟩ | ⟨_, _, taken, _⟩
    · exact looks
    · rw [list, label] at taken
      cases unnamed.symm.trans taken
  obtain ⟨a, spare⟩ := lock.spare
  obtain ⟨ind, t, creates, third, tree, ⟨unused, numberI, refI, lockedI⟩, ⟨refP, lockedP, inumP⟩, others, takes⟩ :=
    createNew_orderly devsw dp name c.type c.major c.minor admits second few lock.used lock.locked isDir₂
      (fun n here => by
        rw [store, lock.inum, treeOn_present present] at here
        cases here
        rw [nodeOf_dir isDir, label]
        exact unnamed)
      (store.symm ▸ creatable.next) spare creatable.typed (fun isDir => links ▸ counts isDir)
      (size ▸ creatable.room) (store.symm ▸ creatable.free)
  rw [store, lock.inum, label] at tree
  rw [store] at takes
  refine ⟨ind, t, ?_, third, tree, numberI, ?_, ?_, fun j used => ?_, takes⟩
  · rw [create]
    exact (run_seq names _).trans ((run_seq locks _).trans ((run_seq looks _).trans creates))
  · funext j
    have before := lock.ref j
    have apart : ind ≠ dp := by
      rintro rfl
      exact absurd lock.used (by omega)
    rw [Pi.add_apply, one, Pi.single_apply]
    change (t.icache j).ref = (m.icache j).ref + _
    by_cases isP : j = dp
    · subst isP
      rw [if_pos rfl] at before
      rw [if_neg apart.symm]
      omega
    · rw [if_neg isP] at before
      by_cases isI : j = ind
      · subst isI
        rw [if_pos rfl]
        omega
      · rw [if_neg isI, others j isI isP]
        omega
  · funext j
    change (t.icache j).locked = _
    by_cases isI : j = ind
    · subst isI
      rw [Function.update_self, lockedI]
    · rw [Function.update_of_ne isI]
      refine Eq.trans ?_ (idle.unlocked j).symm
      by_cases isP : j = dp
      · rw [isP, lockedP]
      · rw [others j isI isP, lock.unlocked j isP]
  · -- the entry of the new inode was free
    have isI : j ≠ ind := by
      rintro rfl
      have before := lock.ref j
      split at before <;> omega
    rw [← lock.stays j used]
    by_cases isP : j = dp
    · rw [isP, inumP]
    · rw [others j isI isP]

/-! ## Runs -/

-- What `sys_mkdirat` and `sys_mknodat` do between `begin_op` and `end_op`.
def make (c : Creation) : Program Inodes Int := do
  match ← create c.cwd c.path c.type c.major c.minor with
  | none => return -1
  | some ip =>
    iunlockput ip
    return 0

variable (devsw) in
theorem make_tree (admits : Admits inv) (few : sb.ninodes.toNat ≤ 65536) (idle : Idle inv sb m) {c : Creation}
    {p : UInt32} {e : Label} (creatable : Creatable sb m c p g e) :
    ∃ t, (make c).run (Machine.handle sb devsw) m = some (0, t) ∧ Idle inv sb t ∧
      treeOn sb t.store.view = (treeOn sb m.store.view).created p g e c.type c.major c.minor ∧ Moves 0 m t ∧ Stays m t ∧
      Takes sb (dotBlocks c.type + 2) m.store.view t.store.view := by
  obtain ⟨ind, m₁, creates, orderly, tree, _, gains, held, stays, takes⟩ :=
    create_tree devsw admits few idle creatable
  have ref := congrFun gains ind
  rw [Pi.add_apply, one, Pi.single_eq_same] at ref
  change (m₁.icache ind).ref = (m.icache ind).ref + 1 at ref
  have counted := idle.counted ind
  obtain ⟨t, puts, last, isT⟩ := iunlockput_orderly devsw admits orderly (i := ind) (by omega)
  have store : t.store = m₁.store := by rw [isT]
  have moves : Moves 0 m t := by
    constructor
    · have back : refs t = refs m₁ + Pi.single ind (-1) := by
        rw [isT]
        refine refs_update rfl ?_
        dsimp only
        omega
      rw [back, gains, add_assoc, one, ← Pi.single_add, Int.add_right_neg, Pi.single_zero]
    · have cache : t.icache = Function.update m₁.icache ind
          { m₁.icache ind with locked := false, ref := (m₁.icache ind).ref - 1 } := by rw [isT]
      have back : locks t = Function.update (locks m₁) ind false := locks_update cache
      rw [back, held, Function.update_idem]
      exact Function.update_eq_self_iff.mpr (idle.unlocked ind).symm
  have refs : ∀ j, (t.icache j).ref = (m.icache j).ref := by
    intro j
    have same := congrFun moves.refs j
    rwa [add_zero] at same
  have puts' : Stays m₁ t := by
    rw [isT]
    exact Stays.update rfl fun _ => rfl
  have kept : ∀ j, 0 < (m.icache j).ref → 0 < (m₁.icache j).ref := by
    intro j used
    have before := congrFun gains j
    rw [Pi.add_apply, one, Pi.single_apply] at before
    change (m₁.icache j).ref = (m.icache j).ref + _ at before
    split at before <;> omega
  refine ⟨t, ?_, ⟨last, ⟨fun j => ?_, ?_⟩, ?_⟩, store ▸ tree, moves, stays.trans puts' kept, store ▸ takes⟩
  · rw [make]
    exact (run_seq creates _).trans ((run_seq puts _).trans rfl)
  · exact (congrFun moves.locks j).trans (idle.unlocked j)
  · obtain ⟨a, b, apart, freeA, freeB⟩ := idle.spare
    exact ⟨a, b, apart, (refs a).trans freeA, (refs b).trans freeB⟩
  · rw [← treeOn_isSome, store, tree]
    exact Tree.created_isSome (treeOn_isSome.mpr idle.root)

def making (sb : Superblock) (devsw : Fin ndev → Devsw UInt32) (c : Creation) (m : Machine) : Option Machine :=
  ((make c).run (Machine.handle sb devsw) m).map Prod.snd

/-- In the state that it meets, a creation finds a directory that can take the name. -/
def Able (sb : Superblock) (c : Creation) (m : Machine) : Prop := ∃ p g e, Creatable sb m c p g e

theorem start_same {t : Machine} {c : Creation} (stays : Stays m t)
    (held : ∀ dir, c.cwd = some dir → 0 < (m.icache dir).ref) :
    c.start t = c.start m := by
  rw [Creation.start, Creation.start, startInum, startInum]
  cases cwd : c.cwd with
  | none => rfl
  | some dir => rw [Option.map_some, Option.map_some, stays dir (held dir cwd)]

variable (devsw) in
theorem making_makes (admits : Admits inv) (few : sb.ninodes.toNat ≤ 65536) (idle : Idle inv sb m) {c : Creation}
    (able : Able sb c m) :
    ∃ t, making sb devsw c m = some t ∧ Idle inv sb t ∧
      (treeOn sb m.store.view).Makes (Creation.start m) c (treeOn sb t.store.view) ∧ Moves 0 m t ∧ Stays m t := by
  obtain ⟨p, g, e, creatable⟩ := able
  obtain ⟨t, ran, idle', tree, moves, stays, _⟩ := make_tree devsw admits few idle creatable
  obtain ⟨s, es, from_, split, leads⟩ := creatable.leads
  obtain ⟨n, parent, isDir, free, _⟩ := creatable.parent
  have absent : treeOn sb m.store.view g = none := if_neg fun present => present.2 creatable.next.free
  exact ⟨t, congrArg (Option.map Prod.snd) ran, idle',
    ⟨s, es, e, p, n, g, from_, split, leads, parent, isDir, free, absent,
    short few creatable.next.inside, tree⟩, moves, stays⟩

variable (devsw) in
theorem making_run (admits : Admits inv) (few : sb.ninodes.toNat ≤ 65536) {m₀ : Machine} {cs : List Creation}
    (idle : Idle inv sb m) (moves : Moves 0 m₀ m) (stays : Stays m₀ m) (able : Meets (making sb devsw) (Able sb) cs m) :
    ∃ t, run (making sb devsw) cs m = some t ∧ Idle inv sb t ∧ Moves 0 m₀ t ∧
      Leads (Tree.Makes (Creation.start m₀)) (treeOn sb m.store.view) cs (treeOn sb t.store.view) := by
  -- on the calls: each leaves the file system idle for the next
  induction cs generalizing m with
  | nil => exact ⟨m, rfl, idle, moves, rfl⟩
  | cons c cs ih =>
    obtain ⟨m₁, made, idle₁, makes, moves₁, stays₁⟩ := making_makes devsw admits few idle able.1
    have same : ∀ j, (m.icache j).ref = (m₀.icache j).ref := by
      intro j
      have refs := congrFun moves.refs j
      rwa [add_zero] at refs
    have both := moves.trans moves₁
    rw [add_zero] at both
    obtain ⟨t, ran, last, gone, leads⟩ :=
      ih idle₁ both (stays.trans stays₁ fun j used => (same j).symm ▸ used) (able.2 m₁ made)
    obtain ⟨_, _, _, creatable⟩ := able.1
    have start : c.start m = c.start m₀ := start_same stays fun dir isCwd => same dir ▸ creatable.held dir isCwd
    obtain ⟨s, rest⟩ := makes
    exact ⟨t, run_cons_eq_some.mpr ⟨m₁, made, ran⟩, last, gone, treeOn sb m₁.store.view, ⟨s, by rwa [start] at rest⟩,
      leads⟩

/-- Any number of calls of `sys_mkdirat` and `sys_mknodat` for new names return, and are the creations of a tree, so
that every new path leads to an inode of its type and every other path still leads where it led. No lock and no
reference is left. -/
theorem makes_tree (devsw : Fin ndev → Devsw UInt32) (admits : Admits inv) (few : sb.ninodes.toNat ≤ 65536)
    (idle : Idle inv sb m) {cs : List Creation} (able : Meets (making sb devsw) (Able sb) cs m) :
    ∃ t, run (making sb devsw) cs m = some t ∧ Idle inv sb t ∧ Moves 0 m t ∧
      Leads (Tree.Makes (Creation.start m)) (treeOn sb m.store.view) cs (treeOn sb t.store.view) ∧
      (treeOn sb m.store.view).Extends (treeOn sb t.store.view) ∧
      ∀ c ∈ cs, (treeOn sb t.store.view).Has (Creation.start m) c := by
  obtain ⟨t, ran, idle', moves, leads⟩ := making_run devsw admits few idle (Moves.refl m) (fun _ _ => rfl) able
  exact ⟨t, ran, idle', moves, leads, Tree.leads_makes leads⟩

end

/-! ## A directory in an empty root directory -/

theorem listing_emptyRoot (view : UInt32 → Block) : listing view Writing.emptyRoot = [] := by
  have none : Writing.emptyRoot.size.toNat / direntSize = 0 := Nat.zero_div _
  rw [listing, none]
  rfl

theorem idle_emptyRoot : Idle (fun log => log.lh.n = 0) Mkfs.superblock (bootMachine Writing.rootDisk) where
  owned := Writing.fileSystem_rootDisk.owned
  zero present := absurd (Writing.rootDisk_only present) (by decide)
  proper g present := by
    change Proper Mkfs.superblock Writing.rootDisk (diskInode Mkfs.superblock Writing.rootDisk g)
    rw [Writing.rootDisk_only present, Writing.rootDisk_root]
    refine ⟨fun k below => absurd below (Nat.not_lt_zero k), fun _ => rfl, fun _ => ?_, fun _ e member => ?_⟩
    · rw [listing_emptyRoot]
      exact List.Pairwise.nil
    · rw [listing_emptyRoot] at member
      exact absurd member List.not_mem_nil
  linked g present _ := by
    change (diskInode Mkfs.superblock Writing.rootDisk g).nlink ≠ 0
    rw [Writing.rootDisk_only present, Writing.rootDisk_root]
    decide
  counted _ := Int.le_refl 0
  saved _ used := absurd used (Int.lt_irrefl 0)
  unlocked _ := rfl
  spare := ⟨⟨0, by decide⟩, ⟨1, by decide⟩, by decide, rfl, rfl⟩
  root := Writing.fileSystem_rootDisk.root

def firstDirectory : Creation := ⟨none, [slash, 97], T_DIR, 0, 0⟩

theorem creatable_firstDirectory : Creatable Mkfs.superblock (bootMachine Writing.rootDisk) firstDirectory ROOTINO 2
    (Name.ofString [97]).label where
  held _ same := by cases same
  leads := ⟨ROOTINO, [], rfl, by decide +kernel, rfl⟩
  parent := by
    refine ⟨_, treeOn_present Writing.fileSystem_rootDisk.root, ?_⟩
    change (nodeOf Writing.rootDisk (diskInode Mkfs.superblock Writing.rootDisk ROOTINO)).type = T_DIR ∧
      (nodeOf Writing.rootDisk (diskInode Mkfs.superblock Writing.rootDisk ROOTINO)).names _ = none ∧
      (_ → (nodeOf Writing.rootDisk (diskInode Mkfs.superblock Writing.rootDisk ROOTINO)).nlink + 1 < 65536)
    rw [Writing.rootDisk_root, nodeOf_dir rfl, listing_emptyRoot]
    exact ⟨rfl, rfl, fun _ => by decide⟩
  next := by
    have inside : InTable Mkfs.superblock 2 := by
      change 2 < (200 + 7) / 8 * 8
      decide
    refine ⟨inside, by decide, ?_, fun g less odd => ?_⟩
    · change (diskInode Mkfs.superblock Writing.rootDisk 2).type = 0
      rw [Writing.rootDisk, diskInode_putInode_of_ne (by decide), diskInode, usedDisk_inodes inside]
      rfl
    · have below := UInt32.lt_iff_toNat_lt.mp less
      change g.toNat < 2 at below
      change g.toNat % 8 ≠ 0 at odd
      have first : g = ROOTINO := UInt32.toNat_inj.mp (by change g.toNat = 1; omega)
      change (diskInode Mkfs.superblock Writing.rootDisk g).type ≠ 0
      rw [first, Writing.rootDisk_root]
      decide
  typed := by decide
  room := by
    change (diskInode Mkfs.superblock Writing.rootDisk ROOTINO).size.toNat + direntSize ≤ maxFile * bsize
    rw [Writing.rootDisk_root]
    decide
  free := by
    have members : ({61, 62, 63, 64, 65, 66} : Finset Nat) ⊆ freeBlocks Mkfs.superblock Writing.rootDisk := by
      intro b member
      rw [freeBlocks_mem]
      simp only [Finset.mem_insert, Finset.mem_singleton] at member
      rcases member with rfl | rfl | rfl | rfl | rfl | rfl <;> decide +kernel
    exact le_trans (by decide) (Finset.card_le_card members)

theorem makes_tree_first : ∃ t, run (making Mkfs.superblock noDevices) [firstDirectory] (bootMachine Writing.rootDisk) =
    some t ∧ (treeOn Mkfs.superblock t.store.view).Has (fun _ => some ROOTINO) firstDirectory := by
  have able : Meets (making Mkfs.superblock noDevices) (Able Mkfs.superblock) [firstDirectory]
      (bootMachine Writing.rootDisk) := ⟨⟨ROOTINO, 2, _, creatable_firstDirectory⟩, fun _ _ => trivial⟩
  obtain ⟨t, ran, _, _, _, _, has⟩ := makes_tree noDevices admits_empty (by decide) idle_emptyRoot able
  exact ⟨t, ran, has firstDirectory List.mem_cons_self⟩

end Inodes

end Xv6
