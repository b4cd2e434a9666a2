import Xv6.Fs.Names

/-! Runs of `dirlink` on a directory.

The directory is a finite map throughout: a name that it has keeps its inode, a new name is added,
and no other file changes. All of it holds as long as there are blocks for the directory to grow.
-/

set_option autoImplicit false

namespace Xv6

open Library Fs

/-! ## Writing an entry -/

theorem Dirent.ofBytes_congr {f g : Nat → UInt8} (same : ∀ k, k < direntSize → f k = g k) : ofBytes f = ofBytes g := by
  have first := same 0 (by decide)
  have second := same 1 (by decide)
  rw [ofBytes, ofBytes, first, second]
  congr 1
  funext i
  have name : i.val < 14 := i.isLt
  apply same
  change 2 + i.val < 16
  omega

namespace Fs

variable {view view' : UInt32 → Block} {addrs addrs' : Addrs} {d : Dirent} {list : List Dirent}

theorem entriesAt_write {n place : Nat}
    (bytes : ∀ k, k < direntSize * n → byteAt view' addrs' k =
      if direntSize * place ≤ k ∧ k < direntSize * place + direntSize then d.byte (k - direntSize * place)
      else byteAt view addrs k) (j : Nat) (less : j < n) :
    (entriesAt view' addrs' 0 n)[j]? = if j = place then some d else some (entryAt view addrs (direntSize * j)) := by
  have inside : direntSize * j + direntSize ≤ direntSize * n := by
    rw [← Nat.mul_succ]
    exact Nat.mul_le_mul_left _ less
  rw [getElem?_entriesAt, if_pos less, Nat.zero_add]
  by_cases here : j = place
  · subst here
    rw [if_pos rfl, ← Dirent.ofBytes_byte d]
    refine congrArg some (Dirent.ofBytes_congr fun k small => ?_)
    rw [bytes _ (by omega), if_pos (by omega), Nat.add_sub_cancel_left]
  · rw [if_neg here]
    refine congrArg some (Dirent.ofBytes_congr fun k small => ?_)
    rw [bytes _ (by omega), if_neg]
    rintro ⟨low, high⟩
    change 16 * place ≤ 16 * j + k at low
    change 16 * j + k < 16 * place + 16 at high
    change k < 16 at small
    omega

theorem slotsBetween_mono {first first' last last' : Nat} (low : first' ≤ first) (high : last ≤ last') :
    slotsBetween first last ⊆ slotsBetween first' last' := by
  apply Finset.biUnion_subset_biUnion_of_subset_left
  apply Finset.Ico_subset_Ico
  · exact Nat.div_le_div_right low
  · exact Nat.div_le_div_right (Nat.add_le_add_right high _)

theorem bindings_insert {list : List Dirent} {name : Name} {inum : UInt32} (real : inum.toUInt16 ≠ 0)
    (absent : bindings list name.label = none) :
    bindings (Slots.insert Dirent.key (.named name inum) list) =
      Function.update (bindings list) name.label (some inum.toUInt16) := by
  have free : Slots.get Dirent.key name.label list = none := Option.map_eq_none_iff.mp absent
  funext k
  rw [bindings, congrFun (Slots.get_insert (Dirent.key_named real) free) k]
  by_cases here : k = name.label
  · subst here
    rw [Function.update_self, Function.update_self]
    rfl
  · rw [Function.update_of_ne here, Function.update_of_ne here]
    rfl

end Fs

namespace Inodes

variable {inv : Log → Prop} {sb : Superblock} {devsw : Fin ndev → Devsw UInt32} {m m' m'' : Machine} {dp : Fin ninode}
  {wanted : Finset Slot} {nodes nodes' nodes'' : Nodes} {list : List Dirent} {name : Name} {inum : UInt32}

/-- A directory that may grow into the wanted slots. -/
structure Directory (inv : Log → Prop) (sb : Superblock) (m : Machine) (dp : Fin ninode) (wanted : Finset Slot)
    (nodes : Nodes) (list : List Dirent) : Prop extends Lists m dp list where
  used : 0 < (m.icache dp).ref
  inside : InTable sb (m.icache dp).inum
  node : nodes (m.icache dp).inum = (m.icache dp).addrs
  ready : Ready inv sb (m.icache dp).inum wanted m.store.view nodes m.log

structure Beside (sb : Superblock) (dp : Fin ninode) (m : Machine) (nodes : Nodes) (m' : Machine) (nodes' : Nodes) :
    Prop where
  fields : ∃ addrs size, m'.icache dp = { m.icache dp with addrs, size }
  saved : diskInode sb m.store.view (m.icache dp).inum = (m.icache dp).dinode →
    diskInode sb m'.store.view (m'.icache dp).inum = (m'.icache dp).dinode
  refs : ∀ j, (m'.icache j).ref = (m.icache j).ref
  cached : ∀ j, j ≠ dp → 0 < (m.icache j).ref → m'.icache j = m.icache j
  files : ∀ g, g ≠ (m.icache dp).inum → SameFile sb g m.store.view nodes m'.store.view nodes'

theorem Beside.refl (sb : Superblock) (dp : Fin ninode) (m : Machine) (nodes : Nodes) : Beside sb dp m nodes m nodes :=
  ⟨⟨_, _, rfl⟩, id, fun _ => rfl, fun _ _ _ => rfl, fun g _ => SameFile.refl sb g _ _⟩

theorem Beside.number (beside : Beside sb dp m nodes m' nodes') : (m'.icache dp).inum = (m.icache dp).inum := by
  obtain ⟨addrs, size, same⟩ := beside.fields
  rw [same]

theorem Beside.trans (first : Beside sb dp m nodes m' nodes') (second : Beside sb dp m' nodes' m'' nodes'') :
    Beside sb dp m nodes m'' nodes'' where
  fields := by
    obtain ⟨addrs, size, same⟩ := first.fields
    obtain ⟨addrs', size', same'⟩ := second.fields
    exact ⟨addrs', size', by rw [same', same]⟩
  saved before := second.saved (first.saved before)
  refs j := (second.refs j).trans (first.refs j)
  cached j other used := by
    have used' : 0 < (m'.icache j).ref := by rwa [first.refs]
    exact (second.cached j other used').trans (first.cached j other used)
  files g other := by
    have other' : g ≠ (m'.icache dp).inum := by rwa [first.number]
    exact (first.files g other).trans (second.files g other')

variable (devsw name inum) in
theorem dirlink_present (dir : Directory inv sb m dp wanted nodes list) {i : Fin ninode} (spare : (m.icache i).ref = 0)
    (present : bindings list name.label ≠ none) :
    ∃ m', (dirlink dp name inum).run (Machine.handle sb devsw) m = some (-1, m') ∧
      Directory inv sb m' dp wanted nodes list ∧ Beside sb dp m nodes m' nodes := by
  rcases dirlookup_run sb devsw name dir.toLists with ⟨absent, _⟩ | ⟨found, j, _, _, looks⟩
  · exact absurd absent present
  · obtain ⟨⟨ip, c⟩, got⟩ := iget_of_spare spare (m.icache dp).dev found.toUInt32
    rw [got, Option.map_some] at looks
    obtain ⟨c', puts, restored⟩ := iput_iget sb devsw got
    have same : c' dp = m.icache dp := restored.used dp dir.used
    refine ⟨{ m with icache := c' }, ?_, ?_, ?_⟩
    · rw [dirlink]
      refine (run_seq looks _).trans ?_
      exact (run_seq puts _).trans rfl
    · refine ⟨⟨?_, ?_, ?_, ?_⟩, ?_, ?_, ?_, ?_⟩ <;> dsimp only <;> rw [same]
      · exact dir.isDir
      · exact dir.filled
      · exact dir.size
      · exact dir.all
      · exact dir.used
      · exact dir.inside
      · exact dir.node
      · exact dir.ready
    · refine ⟨⟨_, _, same⟩, ?_, restored.refs, fun j _ used => restored.used j used, fun g _ => SameFile.refl ..⟩
      dsimp only
      rw [same]
      exact id

variable (devsw) in
theorem writeEntry (admits : Admits inv) (dir : Directory inv sb m dp wanted nodes list)
    (room : direntSize * (list.length + 1) ≤ maxFile * bsize)
    (want : slotsBetween 0 (direntSize * (list.length + 1)) ⊆ wanted) (d : Dirent) :
    ∃ m' nodes', m.handle sb devsw (.writei dp d.byte (.ofNat (direntSize * Slots.place Dirent.key list)) deSize) =
        some ((direntSize : Int), m') ∧
      Directory inv sb m' dp wanted nodes' (Slots.insert Dirent.key d list) ∧ Beside sb dp m nodes m' nodes' := by
  obtain ⟨place, isPlace⟩ : ∃ place, place = Slots.place Dirent.key list := ⟨_, rfl⟩
  have below : place ≤ list.length := isPlace ▸ Slots.place_le list
  have limit : maxFile * bsize = 71680 := rfl
  have size := dir.size
  rw [limit] at room
  change 16 * (list.length + 1) ≤ 71680 at room
  change (m.icache dp).size.toNat = 16 * list.length at size
  have off : (UInt64.ofNat (direntSize * place)).toNat = 16 * place := by
    rw [UInt64.toNat_ofNat']
    exact Nat.mod_eq_of_lt (by change 16 * place < _; omega)
  have start : (UInt64.ofNat (direntSize * place)).toNat ≤ (m.icache dp).size.toNat := by
    rw [off]
    omega
  have fits : (UInt64.ofNat (direntSize * place)).toNat + deSize.toNat ≤ maxFile * bsize := by
    rw [off]
    change 16 * place + 16 ≤ 71680
    omega
  have wants : slotsBetween (UInt64.ofNat (direntSize * place)).toNat
      ((UInt64.ofNat (direntSize * place)).toNat + deSize.toNat) ⊆ wanted := by
    refine (slotsBetween_mono (Nat.zero_le _) ?_).trans want
    rw [off]
    change 16 * place + 16 ≤ 16 * (list.length + 1)
    omega
  obtain ⟨ip', log', view', nodes', writes, updated, ok, enough⟩ :=
    writei_run devsw d.byte admits dir.ready wants dir.node dir.inside dir.notDev dir.filled start fits
  have isDir : ip'.type = T_DIR := by rw [updated.fields, ← dir.isDir]
  have inum : ip'.inum = (m.icache dp).inum := by rw [updated.fields]
  have ref : ip'.ref = (m.icache dp).ref := by rw [updated.fields]
  have grown := updated.size
  rw [off, toNat_deSize, size] at grown
  change ip'.size.toNat = max (16 * list.length) (16 * place + 16) at grown
  have length := Slots.length_insert Dirent.key d list
  rw [← isPlace] at length
  have newSize : ip'.size.toNat = direntSize * (Slots.insert Dirent.key d list).length := by
    rw [grown, length]
    change _ = 16 * _
    split <;> omega
  have bytes := updated.bytes
  rw [off, toNat_deSize, newSize] at bytes
  have answered : m.handle sb devsw (.writei dp d.byte (.ofNat (direntSize * place)) deSize) = some ((direntSize : Int),
      ⟨Function.update m.icache dp ip', log', { m.store with view := view' }⟩) := by
    rw [Machine.handle_writei, Machine.call, writes]
    rfl
  rw [← isPlace]
  refine ⟨_, nodes', answered, ?_, ?_⟩
  · refine ⟨⟨?_, ?_, ?_, ?_⟩, ?_, ?_, ?_, ?_⟩ <;> dsimp only <;> rw [Function.update_self]
    · exact isDir
    · exact updated.mapped
    · exact newSize
    · -- the new list entry by entry
      apply List.ext_getElem?
      intro j
      rw [Slots.getElem?_insert, ← isPlace]
      by_cases less : j < (Slots.insert Dirent.key d list).length
      · rw [entriesAt_write bytes j less]
        by_cases here : j = place
        · rw [if_pos here, if_pos here]
        · have before : j < list.length := by
            rw [length] at less
            split at less <;> omega
          rw [if_neg here, if_neg here, dir.getElem? before]
      · have behind : ¬ j = place := by
          rw [length] at less
          split at less <;> omega
        have outside : list.length ≤ j := by
          rw [length] at less
          split at less <;> omega
        rw [getElem?_entriesAt, if_neg less, if_neg behind, List.getElem?_eq_none outside]
    · exact ref ▸ dir.used
    · exact inum ▸ dir.inside
    · rw [inum]
      exact updated.node
    · rw [inum]
      exact ⟨ok, updated.sound, enough⟩
  · refine ⟨⟨ip'.addrs, ip'.size, ?_⟩, fun before => ?_, fun j => ?_, fun j other _ => ?_,
      fun g other => updated.toConfined.sameFile other⟩
    · dsimp only
      rw [Function.update_self]
      exact updated.fields
    · dsimp only
      rw [Function.update_self, inum]
      exact updated.disk before
    · by_cases here : j = dp
      · subst here
        dsimp only
        rw [Function.update_self, ref]
      · exact congrArg (·.ref) (Function.update_of_ne here ip' m.icache)
    · exact Function.update_of_ne other ip' m.icache

variable (devsw name inum) in
theorem dirlink_absent (admits : Admits inv) (dir : Directory inv sb m dp wanted nodes list)
    (room : direntSize * (list.length + 1) ≤ maxFile * bsize)
    (want : slotsBetween 0 (direntSize * (list.length + 1)) ⊆ wanted) (absent : bindings list name.label = none) :
    ∃ m' nodes', (dirlink dp name inum).run (Machine.handle sb devsw) m = some (0, m') ∧
      m.handle sb devsw (.writei dp (Dirent.named name inum).byte
        (.ofNat (direntSize * Slots.place Dirent.key list)) deSize) = some ((direntSize : Int), m') ∧
      Directory inv sb m' dp wanted nodes' (Slots.insert Dirent.key (.named name inum) list) ∧
      Beside sb dp m nodes m' nodes' := by
  rcases dirlookup_run sb devsw name dir.toLists with ⟨_, looks⟩ | ⟨_, _, found, _⟩
  · have inside : (0 : UInt64).toNat + direntSize * list.length ≤ (m.icache dp).size.toNat := by
      rw [dir.size]
      exact Nat.le_of_eq (Nat.zero_add _)
    have scans := emptyFrom_run sb devsw dir.notDev dir.filled list.length inside
    have zero : (0 : UInt64).toNat = 0 := rfl
    rw [zero, dir.all, Nat.zero_add] at scans
    obtain ⟨m', nodes', writes, dir', beside⟩ := writeEntry devsw admits dir room want (.named name inum)
    refine ⟨m', nodes', ?_, writes, dir', beside⟩
    rw [dirlink]
    refine (run_seq looks _).trans ?_
    refine (run_seq (run_answered rfl) _).trans ?_
    rw [dir.turns]
    refine (run_seq scans _).trans ?_
    refine (run_seq (run_answered writes) _).trans ?_
    rw [if_pos rfl]
    rfl
  · rw [absent] at found
    cases found

/-! ## Runs -/

def link (l : Name × UInt32) (map : Label → Option UInt16) : Int × (Label → Option UInt16) :=
  if map l.1.label = none then (0, Function.update map l.1.label (some l.2.toUInt16)) else (-1, map)

/-- What the links return one after the other, and the map at the end. -/
def linkAll : List (Name × UInt32) → (Label → Option UInt16) → List Int × (Label → Option UInt16)
  | [], map => ([], map)
  | l :: links, map => ((link l map).1 :: (linkAll links (link l map).2).1, (linkAll links (link l map).2).2)

-- The same links by `dirlink`.
def dirlinks (dp : Fin ninode) : List (Name × UInt32) → Program Inodes (List Int)
  | [] => return []
  | l :: links => do
    let r ← dirlink dp l.1 l.2
    let rs ← dirlinks dp links
    return r :: rs

variable (devsw) in
theorem dirlink_run (admits : Admits inv) (dir : Directory inv sb m dp wanted nodes list) {i : Fin ninode}
    (spare : (m.icache i).ref = 0) (distinct : Slots.Distinct Dirent.key list) (l : Name × UInt32)
    (real : l.2.toUInt16 ≠ 0) (room : direntSize * (list.length + 1) ≤ maxFile * bsize)
    (want : slotsBetween 0 (direntSize * (list.length + 1)) ⊆ wanted) :
    ∃ m' nodes' list', (dirlink dp l.1 l.2).run (Machine.handle sb devsw) m =
        some ((link l (bindings list)).1, m') ∧ Directory inv sb m' dp wanted nodes' list' ∧
      bindings list' = (link l (bindings list)).2 ∧ Slots.Distinct Dirent.key list' ∧
      list'.length ≤ list.length + 1 ∧ Beside sb dp m nodes m' nodes' := by
  by_cases absent : bindings list l.1.label = none
  · obtain ⟨m', nodes', ran, _, dir', beside⟩ := dirlink_absent devsw l.1 l.2 admits dir room want absent
    have free : Slots.get Dirent.key l.1.label list = none := Option.map_eq_none_iff.mp absent
    refine ⟨m', nodes', _, ?_, dir', ?_, distinct.insert (Dirent.key_named real) free, ?_, beside⟩
    · rw [ran, link, if_pos absent]
    · rw [link, if_pos absent]
      exact bindings_insert real absent
    · rw [Slots.length_insert]
      split <;> omega
  · obtain ⟨m', ran, dir', beside⟩ := dirlink_present devsw l.1 l.2 dir spare absent
    refine ⟨m', nodes, list, ?_, dir', ?_, distinct, Nat.le_succ _, beside⟩
    · rw [ran, link, if_neg absent]
    · rw [link, if_neg absent]

variable (devsw) in
/-- Any number of calls of `dirlink` add their names to the map one after the other, and no other file changes. -/
theorem dirlinks_run (admits : Admits inv) (dir : Directory inv sb m dp wanted nodes list) {i : Fin ninode}
    (spare : (m.icache i).ref = 0) (distinct : Slots.Distinct Dirent.key list) (links : List (Name × UInt32))
    (real : ∀ l ∈ links, l.2.toUInt16 ≠ 0) (room : direntSize * (list.length + links.length) ≤ maxFile * bsize)
    (want : slotsBetween 0 (direntSize * (list.length + links.length)) ⊆ wanted) :
    ∃ m' nodes' list', (dirlinks dp links).run (Machine.handle sb devsw) m =
        some ((linkAll links (bindings list)).1, m') ∧ Directory inv sb m' dp wanted nodes' list' ∧
      bindings list' = (linkAll links (bindings list)).2 ∧ Slots.Distinct Dirent.key list' ∧
      Beside sb dp m nodes m' nodes' := by
  -- on the links, for every directory that they may start from
  induction links generalizing m nodes list with
  | nil => exact ⟨m, nodes, list, rfl, dir, rfl, distinct, Beside.refl sb dp m nodes⟩
  | cons l links ih =>
    rw [List.length_cons] at room want
    have first : direntSize * (list.length + 1) ≤ direntSize * (list.length + (links.length + 1)) :=
      Nat.mul_le_mul_left _ (by omega)
    obtain ⟨m₁, nodes₁, list₁, ran, dir₁, map, distinct₁, length, beside⟩ :=
      dirlink_run devsw admits dir spare distinct l (real l List.mem_cons_self) (first.trans room)
        ((slotsBetween_mono (Nat.le_refl _) first).trans want)
    have rest : direntSize * (list₁.length + links.length) ≤ direntSize * (list.length + (links.length + 1)) :=
      Nat.mul_le_mul_left _ (by omega)
    obtain ⟨m', nodes', list', ran', dir', map', distinct', beside'⟩ :=
      ih dir₁ ((beside.refs i).trans spare) distinct₁ (fun k member => real k (List.mem_cons_of_mem _ member))
        (rest.trans room) ((slotsBetween_mono (Nat.le_refl _) rest).trans want)
    rw [map] at ran' map'
    refine ⟨m', nodes', list', ?_, dir', map', distinct', beside.trans beside'⟩
    rw [dirlinks]
    refine (run_seq ran _).trans ?_
    exact (run_seq ran' _).trans rfl

/-- After any number of links, `dirlookup` finds what the map of the links has. -/
theorem dirlinks_lookup (devsw : Fin ndev → Devsw UInt32) (admits : Admits inv)
    (dir : Directory inv sb m dp wanted nodes list) {i : Fin ninode} (spare : (m.icache i).ref = 0)
    (distinct : Slots.Distinct Dirent.key list) (links : List (Name × UInt32)) (real : ∀ l ∈ links, l.2.toUInt16 ≠ 0)
    (room : direntSize * (list.length + links.length) ≤ maxFile * bsize)
    (want : slotsBetween 0 (direntSize * (list.length + links.length)) ⊆ wanted) :
    ∃ m' nodes', (dirlinks dp links).run (Machine.handle sb devsw) m =
        some ((linkAll links (bindings list)).1, m') ∧
      (∀ g, g ≠ (m.icache dp).inum → SameFile sb g m.store.view nodes m'.store.view nodes') ∧
      ∀ name, match (linkAll links (bindings list)).2 name.label with
        | none => (dirlookup dp name).run (Machine.handle sb devsw) m' = some (none, m')
        | some inum => ∃ off ip c, m'.icache.iget (m'.icache dp).dev inum.toUInt32 = some (ip, c) ∧
            (dirlookup dp name).run (Machine.handle sb devsw) m' = some (some (ip, off), { m' with icache := c }) := by
  obtain ⟨m', nodes', list', ran, dir', map, _, beside⟩ :=
    dirlinks_run devsw admits dir spare distinct links real room want
  refine ⟨m', nodes', ran, beside.files, fun name => ?_⟩
  rw [← map]
  have spare' : (m'.icache i).ref = 0 := (beside.refs i).trans spare
  rcases dirlookup_run sb devsw name dir'.toLists with ⟨absent, looks⟩ |
    ⟨inum, j, found, _, looks⟩
  · rw [absent]
    exact looks
  · obtain ⟨out, got⟩ := iget_of_spare spare' (m'.icache dp).dev inum.toUInt32
    rw [found]
    rw [got] at looks
    exact ⟨_, out.1, out.2, got, looks⟩

/-! ## An empty directory -/

def emptyDirectory : Machine where
  icache := Function.update Icache.init firstEntry { emptyFile ROOTINO (fun _ => 0) with type := T_DIR }
  log := emptyLog
  store := usedStore

theorem directory_empty : Directory (fun log => log.lh.n = 0) Mkfs.superblock emptyDirectory firstEntry
    (slotsBetween 0 48) (fun _ _ => 0) [] where
  isDir := rfl
  filled := fun _ less => absurd less (Nat.not_lt_zero _)
  size := rfl
  all := rfl
  used := by decide
  inside := by decide
  node := rfl
  ready := by
    have free : 61 ∈ freeBlocks Mkfs.superblock usedDisk := by
      rw [freeBlocks_mem]
      decide +kernel
    have enough : Enough Mkfs.superblock usedDisk (fun _ => 0) (slotsBetween 0 48) := by
      have one : (slotsBetween 0 48).card = 1 := by decide +kernel
      exact (Finset.card_filter_le _ _).trans (one.le.trans (Finset.card_pos.mpr ⟨61, free⟩))
    exact ⟨rfl, sound_usedDisk, enough⟩

theorem dirlinks_lookup_dot : ∃ m', (dirlinks firstEntry [(.dot, 1), (.dotdot, 1), (.dot, 2)]).run
    (Machine.handle Mkfs.superblock noDevices) emptyDirectory = some ([0, 0, -1], m') := by
  have other : (emptyDirectory.icache ⟨1, by decide⟩).ref = 0 := rfl
  obtain ⟨m', _, ran, _⟩ := dirlinks_lookup noDevices admits_empty directory_empty other List.Pairwise.nil
    [(.dot, 1), (.dotdot, 1), (.dot, 2)] (by simp) (Nat.le_of_ble_eq_true rfl) subset_rfl
  have returns : (linkAll [(.dot, 1), (.dotdot, 1), (.dot, 2)] (bindings [])).1 = [0, 0, -1] := by decide +kernel
  exact ⟨m', returns ▸ ran⟩

end Inodes

end Xv6
