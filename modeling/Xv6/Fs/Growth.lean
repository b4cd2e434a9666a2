import Xv6.Fs.Blocks

/-! `bmap` over a coherent block store.

A call of `bmap` fills empty slots of its inode with blocks that were free. It returns
while there are as many free blocks as empty slots among those that are still wanted.
-/

set_option autoImplicit false

namespace Xv6.Fs

open Library

variable {sb : Superblock} {view view' : UInt32 → Block} {nodes nodes' : Nodes} {inv : Log → Prop} {log : Log}
  {s : Store} {b f : UInt32}

/-! ## Slots and addresses -/

def Slot.address (a : Fin (ndirect + 1)) : Slot :=
  if direct : a.val < ndirect then .direct ⟨a.val, direct⟩ else .indirect

theorem Slot.address_castSucc (k : Fin ndirect) : Slot.address k.castSucc = .direct k := dif_pos k.isLt

theorem Slot.address_indirect : Slot.address Inode.indirect = .indirect := dif_neg (Nat.lt_irrefl ndirect)

theorem refAt_address (view : UInt32 → Block) (addrs : Addrs) (a : Fin (ndirect + 1)) :
    refAt view addrs (.address a) = addrs a := by
  by_cases direct : a.val < ndirect
  · rw [Slot.address, dif_pos direct]
    rfl
  · rw [Slot.address, dif_neg direct]
    have last : Inode.indirect = a := by
      apply Fin.ext
      have bound : a.val < 13 := a.isLt
      have above : ¬ a.val < 12 := direct
      change 12 = a.val
      omega
    rw [← last]
    rfl

theorem refAt_entry {addrs : Addrs} (present : addrs Inode.indirect ≠ 0) (j : Fin nindirect) :
    refAt view addrs (.entry j) = (view (addrs Inode.indirect)).word j := if_neg present

theorem refAt_entry_none {addrs : Addrs} (none : addrs Inode.indirect = 0) (j : Fin nindirect) :
    refAt view addrs (.entry j) = 0 := if_pos none

-- The slots that `bmap` of block `i` looks at.
def slotsOf (i : Nat) : Finset Slot :=
  if direct : i < ndirect then {.direct ⟨i, direct⟩}
  else if inside : i - ndirect < nindirect then {.indirect, .entry ⟨i - ndirect, inside⟩}
  else ∅

theorem word_zero (j : Fin nindirect) : Block.zero.word j = 0 := rfl

-- The other slots, when an address that was 0 is set to a zeroed block.
theorem refAt_update {addrs : Addrs} {a : Fin (ndirect + 1)} {k : Slot} (absent : addrs a = 0)
    (zero : view b = Block.zero) (other : k ≠ .address a) :
    refAt view (Function.update addrs a b) k = refAt view addrs k := by
  have address : ∀ c, k = .address c → refAt view (Function.update addrs a b) k = addrs c := by
    rintro c rfl
    have notA : c ≠ a := by
      rintro rfl
      exact other rfl
    rw [refAt_address, Function.update_of_ne notA]
  cases k with
  | direct k => exact address k.castSucc (Slot.address_castSucc k).symm
  | indirect => exact address Inode.indirect Slot.address_indirect.symm
  | entry j =>
    by_cases isA : Inode.indirect = a
    · subst isA
      simp only [refAt, absent, Function.update_self, zero, if_true, word_zero, ite_self]
    · simp only [refAt, Function.update_of_ne isA]

/-! ## The cases of bmap -/

section
variable {i : UInt32} {k : Nat} {addrs : Addrs}

theorem blockAt_direct (direct : k < ndirect) : blockAt view addrs k = addrs ⟨k, Nat.lt_succ_of_lt direct⟩ := by
  rw [blockAt, slotOf, dif_pos direct]
  rfl

theorem blockAt_entry (past : ¬ k < ndirect) (inside : k - ndirect < nindirect) :
    blockAt view addrs k = refAt view addrs (.entry ⟨k - ndirect, inside⟩) := by
  rw [blockAt, slotOf, dif_neg past, dif_pos inside]

theorem bmap_cases (i : UInt32) : i.toNat < ndirect ∨ (¬ i.toNat < ndirect ∧ i.toNat - ndirect < nindirect) ∨
    (¬ i.toNat < ndirect ∧ ¬ i.toNat - ndirect < nindirect) := by
  omega

theorem toNat_sub_ndirect (past : ¬ i.toNat < ndirect) : (i - UInt32.ofNat ndirect).toNat = i.toNat - ndirect := by
  have bound := i.toNat_lt
  change ¬ i.toNat < 12 at past
  rw [UInt32.toNat_sub]
  change (2 ^ 32 - 12 + i.toNat) % 2 ^ 32 = i.toNat - 12
  omega

variable (log : Log) (ip : Inode) {H : Type}

theorem bmap_direct (direct : i.toNat < ndirect) : (bmap sb log ip i : Program (Bio H) _) = (do
    let (ip, log) ← mapAddr sb log ip ⟨i.toNat, Nat.lt_succ_of_lt direct⟩
    return (ip.addrs ⟨i.toNat, Nat.lt_succ_of_lt direct⟩, ip, log)) := by
  rw [bmap, dif_pos direct]

theorem bmap_entry (past : ¬ i.toNat < ndirect) (inside : i.toNat - ndirect < nindirect) :
    (bmap sb log ip i : Program (Bio H) _) = bmapIndirect sb log ip ⟨i.toNat - ndirect, inside⟩ := by
  rw [bmap, dif_neg past]
  simp only [toNat_sub_ndirect past]
  rw [dif_pos inside]

theorem bmap_outside (past : ¬ i.toNat < ndirect) (outside : ¬ i.toNat - ndirect < nindirect) :
    (bmap sb log ip i : Program (Bio H) _) = Bio.fault := by
  rw [bmap, dif_neg past]
  simp only [toNat_sub_ndirect past]
  rw [dif_neg outside]

end

/-! ## What changes -/

/-- What an operation on inode `f` may change: empty slots of `f` are filled, its data and
its `struct dinode` change. The other inodes and what they refer to stay. -/
structure Confined (sb : Superblock) (f : UInt32) (view : UInt32 → Block) (nodes : Nodes)
    (view' : UInt32 → Block) (nodes' : Nodes) : Prop where
  sound : Sound sb view' nodes'
  same : ∀ g, g ≠ f → nodes' g = nodes g
  keeps : ∀ k, refAt view (nodes f) k ≠ 0 → refAt view' (nodes' f) k = refAt view (nodes f) k
  others : ∀ g k, g ≠ f → refAt view' (nodes' g) k = refAt view (nodes g) k
  data : ∀ g k, g ≠ f → k ≠ .indirect → refAt view (nodes g) k ≠ 0 →
    view' (refAt view (nodes g) k) = view (refAt view (nodes g) k)
  table : ∀ g, InTable sb g → g ≠ f → diskInode sb view' g = diskInode sb view g

/-- Allocations for inode `f` do not change its data and its `struct dinode` either. -/
structure Grew (sb : Superblock) (f : UInt32) (view : UInt32 → Block) (nodes : Nodes)
    (view' : UInt32 → Block) (nodes' : Nodes) : Prop extends Confined sb f view nodes view' nodes' where
  own : ∀ k, k ≠ .indirect → refAt view (nodes f) k ≠ 0 →
    view' (refAt view (nodes f) k) = view (refAt view (nodes f) k)
  node : InTable sb f → diskInode sb view' f = diskInode sb view f

section
variable {view'' : UInt32 → Block} {nodes'' : Nodes}

theorem Confined.refl (sound : Sound sb view nodes) (f : UInt32) : Confined sb f view nodes view nodes where
  sound := sound
  same _ _ := rfl
  keeps _ _ := rfl
  others _ _ _ := rfl
  data _ _ _ _ _ := rfl
  table _ _ _ := rfl

theorem Confined.trans (first : Confined sb f view nodes view' nodes')
    (second : Confined sb f view' nodes' view'' nodes'') :
    Confined sb f view nodes view'' nodes'' where
  sound := second.sound
  same g other := (second.same g other).trans (first.same g other)
  keeps k filled := by
    have same := first.keeps k filled
    exact (second.keeps k (same ▸ filled)).trans same
  others g k other := (second.others g k other).trans (first.others g k other)
  data g k other direct filled := by
    have same := first.others g k other
    have later := second.data g k other direct (same ▸ filled)
    rw [same] at later
    exact later.trans (first.data g k other direct filled)
  table g inside other := (second.table g inside other).trans (first.table g inside other)

theorem Grew.refl (sound : Sound sb view nodes) (f : UInt32) : Grew sb f view nodes view nodes :=
  ⟨Confined.refl sound f, fun _ _ _ => rfl, fun _ => rfl⟩

theorem Grew.trans (first : Grew sb f view nodes view' nodes') (second : Grew sb f view' nodes' view'' nodes'') :
    Grew sb f view nodes view'' nodes'' where
  toConfined := first.toConfined.trans second.toConfined
  own k direct filled := by
    have same := first.keeps k filled
    have later := second.own k direct (same ▸ filled)
    rw [same] at later
    exact later.trans (first.own k direct filled)
  node inside := (second.node inside).trans (first.node inside)

end

section
variable (sound : Sound sb view nodes) (covered : Covered sb b) (free : ¬ InUse sb view b)
include sound covered free

/-- The references after a block was allocated and put into an address of inode `f`. -/
theorem refAt_address_update {a : Fin (ndirect + 1)} (absent : nodes f a = 0) (g : UInt32) (l : Slot)
    (other : (g, l) ≠ (f, Slot.address a)) :
    refAt (allocate sb view b) (Function.update nodes f (Function.update (nodes f) a b) g) l =
      refAt view (nodes g) l := by
  by_cases isF : g = f
  · subst isF
    have otherSlot : l ≠ .address a := fun same => other (by rw [same])
    rw [Function.update_self, refAt_update absent allocate_self otherSlot]
    exact sound.allocate_ref covered free g l
  · rw [Function.update_of_ne isF]
    exact sound.allocate_ref covered free g l

theorem Grew.address {a : Fin (ndirect + 1)} (absent : nodes f a = 0) :
    Grew sb f view nodes (allocate sb view b) (Function.update nodes f (Function.update (nodes f) a b)) := by
  have here :
      refAt (allocate sb view b) (Function.update nodes f (Function.update (nodes f) a b) f) (.address a) = b := by
    rw [refAt_address, Function.update_self, Function.update_self]
  have others := refAt_address_update (f := f) sound covered free absent
  have table : ∀ g, InTable sb g → diskInode sb (allocate sb view b) g = diskInode sb view g := by
    intro g inside
    rw [diskInode, sound.allocate_table covered free inside, diskInode]
  refine ⟨⟨?_, ?_, ?_, ?_, ?_, ?_⟩, ?_, table f⟩
  · exact sound.assign covered free (fun c inside => sound.allocate_inUse covered free inside) here others
  · exact fun g other => Function.update_of_ne other ..
  · intro k filled
    refine others f k ?_
    intro same
    rw [(Prod.mk.inj same).2, refAt_address] at filled
    exact filled absent
  · exact fun g k other => others g k fun same => other (Prod.mk.inj same).1
  · exact fun g k _ _ filled => sound.allocate_held covered free filled
  · exact fun g inside _ => table g inside
  · exact fun k _ filled => sound.allocate_held covered free filled

end

def setEntry (view : UInt32 → Block) (x : UInt32) (j : Fin nindirect) (b : UInt32) : UInt32 → Block :=
  Function.update view x ((view x).setWord j b)

section
variable (sound : Sound sb view nodes) (covered : Covered sb b) (free : ¬ InUse sb view b)
  (present : nodes f Inode.indirect ≠ 0)
include sound covered free present

/-- The references after a block was allocated and put into an entry of inode `f`. -/
theorem refAt_setEntry {j : Fin nindirect} (g : UInt32) (l : Slot) (other : (g, l) ≠ (f, Slot.entry j)) :
    refAt (setEntry (allocate sb view b) (nodes f Inode.indirect) j b) (nodes g) l = refAt view (nodes g) l := by
  rw [← sound.allocate_ref covered free g l]
  cases l with
  | direct k => rfl
  | indirect => rfl
  | entry i =>
    by_cases none : nodes g Inode.indirect = 0
    · simp only [refAt, if_pos none]
    · simp only [refAt, if_neg none]
      by_cases isF : g = f
      · subst isF
        have otherEntry : i ≠ j := fun same => other (by rw [same])
        rw [setEntry, Function.update_self, Block.word_setWord, if_neg otherEntry]
      · have otherBlock : nodes g Inode.indirect ≠ nodes f Inode.indirect := by
          intro same
          have slots := sound.owns.distinct (g, .indirect) (f, .indirect) none same
          exact isF (Prod.mk.inj slots).1
        rw [setEntry, Function.update_of_ne otherBlock]

omit sound covered free in
theorem setEntry_self (j : Fin nindirect) :
    refAt (setEntry (allocate sb view b) (nodes f Inode.indirect) j b) (nodes f) (.entry j) = b := by
  rw [refAt_entry present, setEntry, Function.update_self, Block.word_setWord_self]

theorem setEntry_inUse {j : Fin nindirect} {c : UInt32} (inside : Covered sb c) :
    InUse sb (setEntry (allocate sb view b) (nodes f Inode.indirect) j b) c ↔ InUse sb view c ∨ c = b := by
  have notBitmap : bblock c sb ≠ nodes f Inode.indirect := by
    intro same
    exact sound.bitmap_not_ref (g := f) (k := .indirect) inside present same.symm
  rw [← sound.allocate_inUse covered free inside, InUse, InUse, setEntry, Function.update_of_ne notBitmap]

theorem Grew.entry {j : Fin nindirect} (absent : refAt view (nodes f) (.entry j) = 0) :
    Grew sb f view nodes (setEntry (allocate sb view b) (nodes f Inode.indirect) j b) nodes := by
  have refs := refAt_setEntry (j := j) sound covered free present
  have held : ∀ g k, k ≠ .indirect → refAt view (nodes g) k ≠ 0 →
      setEntry (allocate sb view b) (nodes f Inode.indirect) j b (refAt view (nodes g) k) =
        view (refAt view (nodes g) k) := by
    intro g k direct filled
    have otherBlock : refAt view (nodes g) k ≠ nodes f Inode.indirect := by
      intro same
      have slots := sound.owns.distinct (g, k) (f, .indirect) filled same
      exact direct (Prod.mk.inj slots).2
    rw [setEntry, Function.update_of_ne otherBlock, sound.allocate_held covered free filled]
  have table : ∀ g, InTable sb g →
      diskInode sb (setEntry (allocate sb view b) (nodes f Inode.indirect) j b) g = diskInode sb view g := by
    intro g inside
    have otherBlock : iblock g sb ≠ nodes f Inode.indirect := by
      intro same
      exact sound.table_not_ref (g := f) (k := .indirect) inside present same.symm
    rw [diskInode, setEntry, Function.update_of_ne otherBlock, sound.allocate_table covered free inside, diskInode]
  refine ⟨⟨?_, fun _ _ => rfl, ?_, ?_, fun g k _ => held g k, fun g inside _ => table g inside⟩, held f, table f⟩
  · have marks : ∀ c, Covered sb c → _ := fun c => setEntry_inUse (j := j) sound covered free present
    exact sound.assign covered free marks (setEntry_self present j) refs
  · intro k filled
    refine refs f k ?_
    intro same
    rw [(Prod.mk.inj same).2] at filled
    exact filled absent
  · exact fun g k other => refs g k fun same => other (Prod.mk.inj same).1

end

/-! ## Enough free blocks -/

/-- There is a free block for every wanted slot that is empty. -/
def Enough (sb : Superblock) (view : UInt32 → Block) (addrs : Addrs) (wanted : Finset Slot) : Prop :=
  (wanted.filter fun k => refAt view addrs k = 0).card ≤ (freeBlocks sb view).card

section
variable {addrs addrs' : Addrs} {wanted : Finset Slot} {k : Slot}

theorem Enough.free (enough : Enough sb view addrs wanted) (want : k ∈ wanted) (absent : refAt view addrs k = 0) :
    (freeBlocks sb view).Nonempty := by
  have empty : 0 < (wanted.filter fun k => refAt view addrs k = 0).card :=
    Finset.card_pos.mpr ⟨k, Finset.mem_filter.mpr ⟨want, absent⟩⟩
  exact Finset.card_pos.mp (empty.trans_le enough)

theorem Enough.fill (enough : Enough sb view addrs wanted) (want : k ∈ wanted) (absent : refAt view addrs k = 0)
    (onDisk : b < sb.size) (free : ¬ InUse sb view b)
    (marks : ∀ c, Covered sb c → (InUse sb view' c ↔ InUse sb view c ∨ c = b)) (filled : refAt view' addrs' k ≠ 0)
    (others : ∀ l, l ≠ k → refAt view' addrs' l = refAt view addrs l) : Enough sb view' addrs' wanted := by
  have erased : (wanted.filter fun l => refAt view' addrs' l = 0) =
      (wanted.filter fun l => refAt view addrs l = 0).erase k := by
    ext l
    simp only [Finset.mem_filter, Finset.mem_erase]
    constructor
    · rintro ⟨member, empty⟩
      have other : l ≠ k := by
        rintro rfl
        exact filled empty
      exact ⟨other, member, others l other ▸ empty⟩
    · rintro ⟨other, member, empty⟩
      exact ⟨member, (others l other).trans empty⟩
  have member : k ∈ wanted.filter fun l => refAt view addrs l = 0 := Finset.mem_filter.mpr ⟨want, absent⟩
  have before := Finset.card_erase_add_one member
  have fewer := freeBlocks_card onDisk free marks
  unfold Enough at enough ⊢
  rw [erased]
  omega

end

/-! ## bmap -/

section
variable {ip ip' : Inode} {log' : Log} {t : Store}

structure Grown (inv : Log → Prop) (sb : Superblock) (f : UInt32) (s : Store) (nodes : Nodes) (log' : Log) (t : Store)
    (nodes' : Nodes) : Prop extends Grew sb f s.view nodes t.view nodes' where
  store : t = { s with view := t.view }
  logged : inv log'

theorem mapAddr_grown (admits : Admits inv) (ok : inv log) (sound : Sound sb s.view nodes) (here : nodes f = ip.addrs)
    {a : Fin (ndirect + 1)} (ran : (mapAddr sb log ip a).run Store.handle s = some ((ip', log'), t)) :
    ∃ nodes', Grown inv sb f s nodes log' t nodes' ∧ ip'.dev = ip.dev ∧ nodes' f = ip'.addrs ∧ ip'.addrs a ≠ 0 := by
  rw [mapAddr] at ran
  split at ran
  · next absent =>
    obtain ⟨⟨b, log₁⟩, u, allocates, done⟩ := Program.run_bind_eq_some.mp ran
    cases done
    obtain ⟨rfl, ok', covered, free⟩ := balloc_returns admits ok allocates
    have grew := Grew.address (f := f) (a := a) sound covered free (here ▸ absent)
    refine ⟨_, ⟨grew, rfl, ok'⟩, rfl, ?_, ?_⟩
    · rw [Function.update_self, here]
    · change Function.update ip.addrs a b a ≠ 0
      rw [Function.update_self]
      exact sound.free_ne_zero covered free
  · next present =>
    cases ran
    exact ⟨nodes, ⟨Grew.refl sound f, rfl, ok⟩, rfl, here, present⟩

theorem mapEntry_grown (admits : Admits inv) (ok : inv log) (sound : Sound sb s.view nodes)
    (present : nodes f Inode.indirect ≠ 0) {dev : UInt32} {j : Fin nindirect}
    (ran : (mapEntry sb log dev (nodes f Inode.indirect) j).run Store.handle s = some (log', t)) :
    Grown inv sb f s nodes log' t nodes ∧ refAt t.view (nodes f) (.entry j) ≠ 0 := by
  obtain ⟨_, _, loaded, ran⟩ := Program.run_bind_eq_some.mp ran
  cases loaded
  split at ran
  · next absent =>
    obtain ⟨⟨b, log₁⟩, u, allocates, ran⟩ := Program.run_bind_eq_some.mp ran
    obtain ⟨_, _, loaded, ran⟩ := Program.run_bind_eq_some.mp ran
    cases loaded
    obtain ⟨_, _, stored, done⟩ := Program.run_bind_eq_some.mp ran
    cases stored
    cases done
    obtain ⟨rfl, ok', covered, free⟩ := balloc_returns admits ok allocates
    have grew := Grew.entry (f := f) (j := j) sound covered free present ((refAt_entry present j).trans absent)
    refine ⟨⟨grew, rfl, ok'⟩, ?_⟩
    change refAt (setEntry (allocate sb s.view b) (nodes f Inode.indirect) j b) (nodes f) (.entry j) ≠ 0
    rw [setEntry_self present j]
    exact sound.free_ne_zero covered free
  · next filled =>
    cases ran
    exact ⟨⟨Grew.refl sound f, rfl, ok⟩, (refAt_entry present j).symm ▸ filled⟩

theorem Grown.trans {nodes₁ nodes₂ : Nodes} {log₁ log₂ : Log} {t u : Store}
    (first : Grown inv sb f s nodes log₁ t nodes₁) (second : Grown inv sb f t nodes₁ log₂ u nodes₂) :
    Grown inv sb f s nodes log₂ u nodes₂ where
  toGrew := first.toGrew.trans second.toGrew
  store := by
    rw [second.store, first.store]
  logged := second.logged

theorem bmap_grown (admits : Admits inv) (ok : inv log) (sound : Sound sb s.view nodes) (here : nodes f = ip.addrs)
    {b i : UInt32} (ran : (bmap sb log ip i).run Store.handle s = some ((b, ip', log'), t)) :
    ∃ nodes', Grown inv sb f s nodes log' t nodes' ∧ ip'.dev = ip.dev ∧ nodes' f = ip'.addrs ∧
      b = blockAt t.view (nodes' f) i.toNat ∧ b ≠ 0 := by
  rcases bmap_cases i with ⟨direct⟩ | ⟨past, inside⟩ | ⟨past, outside⟩
  · rw [bmap_direct log ip direct] at ran
    obtain ⟨⟨ip₁, log₁⟩, u, maps, done⟩ := Program.run_bind_eq_some.mp ran
    cases done
    obtain ⟨nodes', grown, dev, here', filled⟩ := mapAddr_grown admits ok sound here maps
    refine ⟨nodes', grown, dev, here', ?_, filled⟩
    rw [blockAt_direct direct, here']
  · rw [bmap_entry log ip past inside] at ran
    obtain ⟨⟨ip₁, log₁⟩, u, maps, ran⟩ := Program.run_bind_eq_some.mp ran
    obtain ⟨_, _, read, ran⟩ := Program.run_bind_eq_some.mp ran
    cases read
    obtain ⟨log₂, v, looks, ran⟩ := Program.run_bind_eq_some.mp ran
    obtain ⟨_, _, gave, ran⟩ := Program.run_bind_eq_some.mp ran
    cases gave
    obtain ⟨_, _, loaded, done⟩ := Program.run_bind_eq_some.mp ran
    cases loaded
    cases done
    obtain ⟨nodes₁, grown₁, dev, here₁, present⟩ := mapAddr_grown admits ok sound here maps
    rw [← here₁] at looks present
    obtain ⟨grown₂, filled⟩ := mapEntry_grown admits grown₁.logged grown₁.sound present looks
    refine ⟨nodes₁, grown₁.trans grown₂, dev, here₁, ?_, ?_⟩
    · rw [blockAt_entry past inside, refAt_entry present, here₁]
    · rw [← here₁, ← refAt_entry present]
      exact filled
  · rw [bmap_outside log ip past outside] at ran
    cases ran

end

/-- What a call of `bmap` for inode `f` finds and leaves. -/
structure Ready (inv : Log → Prop) (sb : Superblock) (f : UInt32) (wanted : Finset Slot) (view : UInt32 → Block)
    (nodes : Nodes) (log : Log) : Prop where
  logged : inv log
  sound : Sound sb view nodes
  enough : Enough sb view (nodes f) wanted

section
variable {ip : Inode} {wanted : Finset Slot}

theorem mapAddr_run (admits : Admits inv) (ready : Ready inv sb f wanted s.view nodes log) (here : nodes f = ip.addrs)
    {a : Fin (ndirect + 1)} (want : Slot.address a ∈ wanted) :
    ∃ ip' log' view' nodes', (mapAddr sb log ip a).run Store.handle s = some ((ip', log'), { s with view := view' }) ∧
      ip'.dev = ip.dev ∧ nodes' f = ip'.addrs ∧ Grew sb f s.view nodes view' nodes' ∧
      Ready inv sb f wanted view' nodes' log' ∧ ip'.addrs a ≠ 0 := by
  by_cases absent : ip.addrs a = 0
  · have empty : refAt s.view (nodes f) (.address a) = 0 := by rw [refAt_address, here, absent]
    obtain ⟨b, log', allocates, ok, onDisk, free⟩ :=
      balloc_run admits ready.logged ip.dev s (ready.enough.free want empty)
    have covered := covered_of_lt onDisk
    have nonzero := ready.sound.free_ne_zero covered free
    have grew : Grew sb f s.view nodes (allocate sb s.view b)
        (Function.update nodes f (Function.update (nodes f) a b)) :=
      Grew.address ready.sound covered free (here ▸ absent)
    refine ⟨⟨ip.dev, Function.update ip.addrs a b⟩, log', _, _, ?_, rfl, ?_, grew, ⟨ok, grew.sound, ?_⟩, ?_⟩
    · rw [mapAddr, if_pos absent]
      simp only [Program.run_bind, allocates, Option.bind_some, Program.run_pure]
    · rw [Function.update_self, here]
    · rw [Function.update_self]
      refine ready.enough.fill want empty onDisk free ?_ ?_ ?_
      · exact fun c inside => ready.sound.allocate_inUse covered free inside
      · rw [refAt_address, Function.update_self]
        exact nonzero
      · intro l other
        have notHere : (f, l) ≠ (f, Slot.address a) := fun same => other (Prod.mk.inj same).2
        have kept := refAt_address_update ready.sound covered free (here ▸ absent) f l notHere
        rwa [Function.update_self] at kept
    · change Function.update ip.addrs a b a ≠ 0
      rw [Function.update_self]
      exact nonzero
  · refine ⟨ip, log, s.view, nodes, ?_, rfl, here, Grew.refl ready.sound f, ready, absent⟩
    rw [mapAddr, if_neg absent]
    rfl

theorem mapEntry_run (admits : Admits inv) (ready : Ready inv sb f wanted s.view nodes log)
    (present : nodes f Inode.indirect ≠ 0) (dev : UInt32) {j : Fin nindirect} (want : Slot.entry j ∈ wanted) :
    ∃ log' view', (mapEntry sb log dev (nodes f Inode.indirect) j).run Store.handle s =
        some (log', { s with view := view' }) ∧ Grew sb f s.view nodes view' nodes ∧
      Ready inv sb f wanted view' nodes log' ∧ refAt view' (nodes f) (.entry j) ≠ 0 := by
  have value : refAt s.view (nodes f) (.entry j) = (s.view (nodes f Inode.indirect)).word j :=
    refAt_entry present j
  by_cases absent : (s.view (nodes f Inode.indirect)).word j = 0
  · have empty := value.trans absent
    obtain ⟨b, log', allocates, ok, onDisk, free⟩ :=
      balloc_run admits ready.logged dev s (ready.enough.free want empty)
    have covered := covered_of_lt onDisk
    have nonzero := ready.sound.free_ne_zero covered free
    have grew := Grew.entry (f := f) ready.sound covered free present empty
    have filled : refAt (setEntry (allocate sb s.view b) (nodes f Inode.indirect) j b) (nodes f) (.entry j) ≠ 0 := by
      rw [setEntry_self present j]
      exact nonzero
    refine ⟨log', _, ?_, grew, ⟨ok, grew.sound, ?_⟩, filled⟩
    · rw [mapEntry]
      simp only [Program.run_bind, Store.run_data, Option.bind_some, if_pos absent, allocates, Store.run_setData,
        Program.run_pure]
      rfl
    · refine ready.enough.fill want empty onDisk free ?_ filled ?_
      · exact fun c inside => setEntry_inUse ready.sound covered free present inside
      · intro l other
        exact refAt_setEntry ready.sound covered free present f l fun same => other (Prod.mk.inj same).2
  · refine ⟨log, s.view, ?_, Grew.refl ready.sound f, ready, value ▸ absent⟩
    rw [mapEntry]
    simp only [Program.run_bind, Store.run_data, Option.bind_some, if_neg absent, Program.run_pure]

theorem bmap_run (admits : Admits inv) (ready : Ready inv sb f wanted s.view nodes log) (here : nodes f = ip.addrs)
    {i : UInt32} (bound : i.toNat < maxFile) (want : slotsOf i.toNat ⊆ wanted) :
    ∃ b ip' log' view' nodes',
      (bmap sb log ip i).run Store.handle s = some ((b, ip', log'), { s with view := view' }) ∧
      ip'.dev = ip.dev ∧ nodes' f = ip'.addrs ∧ Grew sb f s.view nodes view' nodes' ∧
      Ready inv sb f wanted view' nodes' log' ∧ b = blockAt view' (nodes' f) i.toNat ∧ b ≠ 0 := by
  by_cases direct : i.toNat < ndirect
  · have wants : Slot.address (Fin.castSucc ⟨i.toNat, direct⟩) ∈ wanted := by
      rw [Slot.address_castSucc]
      refine want ?_
      rw [slotsOf, dif_pos direct]
      exact Finset.mem_singleton_self _
    obtain ⟨ip', log', view', nodes', maps, dev, here', grew, ready', filled⟩ := mapAddr_run admits ready here wants
    refine ⟨_, ip', log', view', nodes', ?_, dev, here', grew, ready', ?_, filled⟩
    · have maps : (mapAddr sb log ip ⟨i.toNat, Nat.lt_succ_of_lt direct⟩).run Store.handle s = _ := maps
      rw [bmap_direct log ip direct]
      simp only [Program.run_bind, maps, Option.bind_some, Program.run_pure]
      rfl
    · rw [blockAt_direct direct, here']
      rfl
  · have sum : maxFile = ndirect + nindirect := rfl
    have inside : i.toNat - ndirect < nindirect := by omega
    have slots : slotsOf i.toNat = {.indirect, .entry ⟨i.toNat - ndirect, inside⟩} := by
      rw [slotsOf, dif_neg direct, dif_pos inside]
    have wantsBlock : Slot.address Inode.indirect ∈ wanted := by
      rw [Slot.address_indirect]
      exact want (slots ▸ Finset.mem_insert_self _ _)
    have wantsEntry : Slot.entry ⟨i.toNat - ndirect, inside⟩ ∈ wanted :=
      want (slots ▸ Finset.mem_insert_of_mem (Finset.mem_singleton_self _))
    obtain ⟨ip', log₁, view₁, nodes', maps, dev, here', grew₁, ready₁, present⟩ :=
      mapAddr_run admits ready here wantsBlock
    obtain ⟨log', view', looks, grew₂, ready₂, filled⟩ :=
      mapEntry_run (s := { s with view := view₁ }) admits ready₁ (here' ▸ present) ip'.dev wantsEntry
    rw [here'] at looks
    refine ⟨refAt view' (nodes' f) (.entry ⟨i.toNat - ndirect, inside⟩), ip', log', view', nodes', ?_, dev, here',
      grew₁.trans grew₂, ready₂, (blockAt_entry direct inside).symm, filled⟩
    rw [bmap_entry log ip direct inside]
    simp only [bmapIndirect, Program.run_bind, maps, Option.bind_some, Store.run_bread, looks, Store.run_brelse,
      Store.run_data, Program.run_pure, refAt, here', if_neg present]

end

end Xv6.Fs
