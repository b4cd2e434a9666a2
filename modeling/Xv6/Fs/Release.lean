import Xv6.Fs.Contents
import Xv6.Fs.Icache

/-! `bfree` and `itrunc` over a coherent block store.

An inode that owns its blocks has them freed one after the other: no block is freed
twice, so `bfree` finds every one of them in use.
-/

set_option autoImplicit false

namespace Xv6.Fs

open Library

variable {sb : Superblock} {view view' : UInt32 → Block} {nodes nodes' : Nodes} {inv : Log → Prop} {log : Log}
  {s : Store} {b c f : UInt32}

theorem bit_flipBit (d : Block) (i j : Fin bpb) : (d.flipBit j).bit i = (decide (i = j) ^^ d.bit i) := by
  by_cases sameByte : Block.byteOf i = Block.byteOf j
  · have mask : (UInt8.ofNat (2 ^ (j.val % 8))).toNat = 2 ^ (j.val % 8) := by
      rw [UInt8.toNat_ofNat', Nat.mod_eq_of_lt]
      exact Nat.pow_lt_pow_right (by decide) (Nat.mod_lt _ (by decide))
    have quotient : i.val / 8 = j.val / 8 := congrArg Fin.val sameByte
    have sameBit : j.val % 8 = i.val % 8 ↔ i = j := by
      rw [Fin.ext_iff]
      omega
    simp only [Block.bit, Block.flipBit, sameByte, Function.update_self, UInt8.toNat_xor, mask, Nat.testBit_xor,
      Nat.testBit_two_pow, sameBit]
    exact Bool.xor_comm ..
  · have other : i ≠ j := fun same => sameByte (congrArg Block.byteOf same)
    simp [Block.bit, Block.flipBit, sameByte, other]

-- The contents after `bfree` of block `b`.
def release (sb : Superblock) (view : UInt32 → Block) (b : UInt32) : UInt32 → Block :=
  Function.update view (bblock b sb) ((view (bblock b sb)).flipBit (bitIndex b))

theorem inUse_release (used : InUse sb view b) : InUse sb (release sb view b) c ↔ InUse sb view c ∧ c ≠ b := by
  by_cases sameBlock : bblock c sb = bblock b sb
  · by_cases same : c = b
    · subst same
      rw [InUse] at used
      simp [InUse, release, bit_flipBit, used]
    · have otherBit : bitIndex c ≠ bitIndex b := fun equal => same ((bitIndex_inj sameBlock).mp equal)
      simp [InUse, release, sameBlock, bit_flipBit, otherBit, same]
  · have other : c ≠ b := by
      rintro rfl
      exact sameBlock rfl
    simp [InUse, release, Function.update_of_ne sameBlock, other]

theorem bfree_run (admits : Admits inv) (ok : inv log) (dev : UInt32) (used : InUse sb s.view b) :
    ∃ log', (bfree sb log dev b).run Store.handle s = some (log', { s with view := release sb s.view b }) ∧
    inv log' := by
  obtain ⟨log', logged, ok'⟩ := run_logWrite_store admits ok (bblock b sb) { s with view := release sb s.view b }
  refine ⟨log', ?_, ok'⟩
  have set : (s.view (bblock b sb)).bit (bitIndex b) = true := used
  rw [release] at logged ⊢
  simp only [bfree, Program.run_bind, Store.run_bread, Option.bind_some, Store.run_data, if_pos set,
    Store.run_setData,
    logged, Store.run_brelse, Program.run_pure]

/-! ## Truncation -/

structure Freed (sb : Superblock) (addrs : Addrs) (slots : List Slot) (view view' : UInt32 → Block) : Prop where
  marks : ∀ c, InUse sb view' c ↔ InUse sb view c ∧ ∀ k ∈ slots, refAt view addrs k ≠ 0 → refAt view addrs k ≠ c
  same : ∀ x, (∀ c, Covered sb c → x ≠ bblock c sb) → view' x = view x

section
variable {slots : List Slot} {k : Slot} {addrs : Addrs}

theorem Freed.refl (addrs : Addrs) (view : UInt32 → Block) : Freed sb addrs [] view view :=
  ⟨fun _ => ⟨fun used => ⟨used, nofun⟩, And.left⟩, fun _ _ => rfl⟩

theorem Freed.skip (freed : Freed sb addrs slots view view') (none : refAt view addrs k = 0) :
    Freed sb addrs (slots ++ [k]) view view' := by
  refine ⟨fun c => (freed.marks c).trans (and_congr_right fun _ => ?_), freed.same⟩
  constructor
  · intro apart l member filled
    rcases List.mem_append.mp member with early | last
    · exact apart l early filled
    · rw [List.mem_singleton.mp last] at filled
      exact absurd none filled
  · exact fun apart l member => apart l (List.mem_append_left _ member)

theorem Freed.skipAll {empty : List Slot} (freed : Freed sb addrs slots view view')
    (none : ∀ k ∈ empty, refAt view addrs k = 0) : Freed sb addrs (slots ++ empty) view view' := by
  induction empty generalizing slots with
  | nil => rwa [List.append_nil]
  | cons k rest ih =>
    have more := ih (freed.skip (none k (List.mem_cons_self ..))) fun l member => none l
      (List.mem_cons_of_mem _ member)
    rwa [List.append_assoc] at more

theorem Freed.snoc (freed : Freed sb addrs slots view view') (filled : refAt view addrs k ≠ 0)
    (covered : Covered sb (refAt view addrs k)) (used : InUse sb view' (refAt view addrs k)) :
    Freed sb addrs (slots ++ [k]) view (release sb view' (refAt view addrs k)) := by
  refine ⟨fun c => ?_, fun x apart => ?_⟩
  · rw [inUse_release used, freed.marks c, and_assoc]
    refine and_congr_right fun _ => ?_
    constructor
    · rintro ⟨apart, other⟩ l member filled
      rcases List.mem_append.mp member with early | last
      · exact apart l early filled
      · rw [List.mem_singleton.mp last]
        exact other.symm
    · intro apart
      refine ⟨fun l member => apart l (List.mem_append_left _ member), ?_⟩
      rintro rfl
      exact apart k (List.mem_append_right _ (List.mem_singleton_self k)) filled rfl
  · rw [release, Function.update_of_ne (apart _ covered)]
    exact freed.same x apart

theorem Freed.inUse (freed : Freed sb (nodes f) slots view view') (sound : Sound sb view nodes) (new : k ∉ slots)
    (filled : refAt view (nodes f) k ≠ 0) : InUse sb view' (refAt view (nodes f) k) := by
  refine (freed.marks _).mpr ⟨(sound.ref_held filled).inUse, fun l member real same => ?_⟩
  have slots := sound.owns.distinct (f, l) (f, k) real same
  exact new ((Prod.mk.inj slots).2 ▸ member)

theorem Freed.held (freed : Freed sb addrs slots view view') (sound : Sound sb view nodes)
    (filled : refAt view (nodes f) k ≠ 0) : view' (refAt view (nodes f) k) = view (refAt view (nodes f) k) :=
  freed.same _ fun _ covered => sound.bitmap_not_ref covered filled

theorem freeRef_run (admits : Admits inv) (ok : inv log) (dev : UInt32) (sound : Sound sb view nodes)
    (freed : Freed sb (nodes f) slots view s.view) (new : k ∉ slots) :
    ∃ log' view', (freeRef sb log dev (refAt view (nodes f) k)).run Store.handle s =
      some (log', { s with view := view' }) ∧ inv log' ∧ Freed sb (nodes f) (slots ++ [k]) view view' := by
  by_cases none : refAt view (nodes f) k = 0
  · refine ⟨log, s.view, ?_, ok, freed.skip none⟩
    rw [freeRef, if_pos none]
    rfl
  · have used := freed.inUse sound new none
    obtain ⟨log', frees, ok'⟩ := bfree_run admits ok dev used
    refine ⟨log', _, ?_, ok', freed.snoc none (sound.ref_held none).covered used⟩
    rw [freeRef, if_neg none]
    exact frees

end

-- The slots of an inode in the order in which `itrunc` frees their blocks.
def directSlots : List Slot := (List.finRange ndirect).map Slot.direct

def entrySlots : List Slot := (List.finRange nindirect).map Slot.entry

theorem mem_slots (k : Slot) : k ∈ directSlots ++ entrySlots ++ [.indirect] := by
  cases k with
  | direct k => simp [directSlots]
  | indirect => simp
  | entry j => simp [entrySlots]

theorem not_mem_of_split {A : Type} {list finished rest : List A} {a : A} (distinct : list.Nodup)
    (split : list = finished ++ a :: rest) : a ∉ finished := by
  intro member
  rw [split, List.nodup_append] at distinct
  exact distinct.2.2 a member a (List.mem_cons_self ..) rfl

section
variable {ip : MemInode}

theorem freeDirect_run (admits : Admits inv) (ok : inv log) (sound : Sound sb s.view nodes)
    (here : nodes f = ip.addrs) :
    ∃ log' view', ((List.finRange ndirect).foldlM (fun log k => freeRef sb log ip.dev (ip.addrs k.castSucc)) log).run
        Store.handle s = some (log', { s with view := view' }) ∧
      inv log' ∧ Freed sb (nodes f) directSlots s.view view' := by
  have each : ∀ (finished : List (Fin ndirect)) k rest log' t, List.finRange ndirect = finished ++ k :: rest →
      (inv log' ∧ t = { s with view := t.view } ∧ Freed sb (nodes f) (finished.map .direct) s.view t.view) →
      ∃ log'' u, (freeRef sb log' ip.dev (ip.addrs k.castSucc)).run Store.handle t = some (log'', u) ∧
        inv log'' ∧ u = { s with view := u.view } ∧
        Freed sb (nodes f) ((finished ++ [k]).map .direct) s.view u.view := by
    rintro finished k rest log' t split ⟨ok', same, freed⟩
    have new : Slot.direct k ∉ finished.map Slot.direct := by
      intro member
      obtain ⟨l, earlier, equal⟩ := List.mem_map.mp member
      cases equal
      exact not_mem_of_split (List.nodup_finRange _) split earlier
    obtain ⟨log'', view'', frees, ok'', freed'⟩ := freeRef_run admits ok' ip.dev sound freed new
    have value : refAt s.view (nodes f) (.direct k) = ip.addrs k.castSucc := by rw [here]; rfl
    rw [value] at frees
    refine ⟨log'', _, frees, ok'', ?_, ?_⟩
    · rw [same]
    · rw [List.map_append]
      exact freed'
  obtain ⟨log', t, loops, ok', same, freed⟩ := Program.run_foldlM_returns
    (fun finished log' (t : Store) => inv log' ∧ t = { s with view := t.view } ∧
      Freed sb (nodes f) (finished.map .direct) s.view t.view)
    (List.finRange ndirect) ⟨ok, rfl, Freed.refl _ _⟩ each
  exact ⟨log', t.view, by rw [loops, ← same], ok', freed⟩

/-- The blocks that the indirect block names, and then the indirect block itself. -/
theorem truncIndirect_run (admits : Admits inv) (ok : inv log) (sound : Sound sb view nodes)
    (here : nodes f = ip.addrs) (freed : Freed sb (nodes f) directSlots view s.view) :
    ∃ log' view', (truncIndirect sb log ip).run Store.handle s = some (log', { s with view := view' }) ∧ inv log' ∧
      Freed sb (nodes f) (directSlots ++ entrySlots ++ [.indirect]) view view' := by
  by_cases none : ip.addrs Inode.indirect = 0
  · have empty : ∀ k ∈ entrySlots ++ [.indirect], refAt view (nodes f) k = 0 := by
      intro k member
      rcases List.mem_append.mp member with entry | last
      · obtain ⟨j, _, rfl⟩ := List.mem_map.mp entry
        exact refAt_entry_none (here ▸ none) j
      · rw [List.mem_singleton.mp last, here]
        exact none
    refine ⟨log, s.view, ?_, ok, ?_⟩
    · rw [truncIndirect, if_pos none]
      rfl
    · rw [List.append_assoc]
      exact freed.skipAll empty
  · have each : ∀ (finished : List (Fin nindirect)) j rest log' t, List.finRange nindirect = finished ++ j :: rest →
        (inv log' ∧ t = { s with view := t.view } ∧
          Freed sb (nodes f) (directSlots ++ finished.map .entry) view t.view) →
        ∃ log'' u, (do freeRef sb log' ip.dev ((← Bio.data (ip.addrs Inode.indirect)).word j) : Program
          (Bio UInt32) Log).run
          Store.handle t = some (log'', u) ∧ inv log'' ∧ u = { s with view := u.view } ∧
          Freed sb (nodes f) (directSlots ++ (finished ++ [j]).map .entry) view u.view := by
      rintro finished j rest log' t split ⟨ok', same, freed'⟩
      have new : Slot.entry j ∉ directSlots ++ finished.map Slot.entry := by
        intro member
        rcases List.mem_append.mp member with direct | entry
        · simp [directSlots] at direct
        · obtain ⟨l, earlier, equal⟩ := List.mem_map.mp entry
          cases equal
          exact not_mem_of_split (List.nodup_finRange _) split earlier
      obtain ⟨log'', view'', frees, ok'', freed''⟩ := freeRef_run admits ok' ip.dev sound freed' new
      have present : nodes f Inode.indirect ≠ 0 := here ▸ none
      have unchanged := freed'.held sound (f := f) (k := .indirect) present
      have value : refAt view (nodes f) (.entry j) = (t.view (ip.addrs Inode.indirect)).word j := by
        rw [refAt_entry present, ← here]
        exact congrArg (Block.word · j) unchanged.symm
      rw [value] at frees
      refine ⟨log'', { t with view := view'' }, ?_, ok'', ?_, ?_⟩
      · simp only [Program.run_bind, Store.run_data, Option.bind_some]
        exact frees
      · rw [same]
      · rw [List.map_append, ← List.append_assoc]
        exact freed''
    obtain ⟨log₁, t, loops, ok₁, same, freed₁⟩ := Program.run_foldlM_returns
      (fun finished log' (t : Store) => inv log' ∧ t = { s with view := t.view } ∧
        Freed sb (nodes f) (directSlots ++ finished.map .entry) view t.view)
      (List.finRange nindirect) ⟨ok, rfl, by rwa [List.map_nil, List.append_nil]⟩ each
    have new : Slot.indirect ∉ directSlots ++ entrySlots := by
      simp [directSlots, entrySlots]
    have filled : refAt view (nodes f) .indirect ≠ 0 := here ▸ none
    have used := freed₁.inUse sound new filled
    obtain ⟨log', frees, ok'⟩ := bfree_run admits ok₁ ip.dev used
    have value : refAt view (nodes f) .indirect = ip.addrs Inode.indirect := by rw [here]; rfl
    refine ⟨log', _, ?_, ok', freed₁.snoc filled (sound.ref_held filled).covered used⟩
    rw [truncIndirect, if_neg none]
    rw [value] at frees ⊢
    simp only [Program.run_bind, Store.run_bread, Option.bind_some]
    rw [loops, Option.bind_some, Store.run_brelse, Option.bind_some, frees, same]

/-- `itrunc` frees all blocks of the inode; its addresses stay, in memory and on the disk. -/
theorem itrunc_run (admits : Admits inv) (ok : inv log) (sound : Sound sb s.view nodes)
    (here : nodes ip.inum = ip.addrs) :
    ∃ log' view', (itrunc sb log ip).run Store.handle s = some (({ ip with size := 0 }, log'),
        { s with view := putInode sb view' ip.inum { ip with size := 0 }.dinode }) ∧ inv log' ∧
      Freed sb (nodes ip.inum) (directSlots ++ entrySlots ++ [.indirect]) s.view view' := by
  obtain ⟨log₁, view₁, directs, ok₁, freed₁⟩ := freeDirect_run admits ok sound here
  obtain ⟨log₂, view₂, entries, ok₂, freed₂⟩ :=
    truncIndirect_run (s := { s with view := view₁ }) admits ok₁ sound here freed₁
  obtain ⟨log₃, updates, ok₃⟩ := iupdate_run sb admits ok₂ { ip with size := 0 } { s with view := view₂ }
  refine ⟨log₃, view₂, ?_, ok₃, freed₂⟩
  simp only [itrunc, Program.run_bind, directs, Option.bind_some, entries, updates, Program.run_pure]

end

theorem Freed.sound (freed : Freed sb (nodes f) (directSlots ++ entrySlots ++ [.indirect]) view view')
    (sound : Sound sb view nodes) : Sound sb view' (Function.update nodes f fun _ => 0) := by
  have gone : ∀ l, refAt view' (Function.update nodes f (fun _ => 0) f) l = 0 := by
    intro l
    rw [Function.update_self]
    cases l with
    | direct k => rfl
    | indirect => rfl
    | entry j => exact refAt_entry_none rfl j
  have others : ∀ g l, g ≠ f → refAt view' (Function.update nodes f (fun _ => 0) g) l = refAt view (nodes g) l := by
    intro g l other
    rw [Function.update_of_ne other]
    exact refAt_congr (fun present => freed.held sound (f := g) (k := .indirect) present) l
  have real : ∀ g l, refAt view' (Function.update nodes f (fun _ => 0) g) l ≠ 0 → g ≠ f := by
    rintro g l filled rfl
    exact filled (gone l)
  refine ⟨sound.owns.release ?_ ?_, ?_, sound.apart⟩
  · rintro ⟨g, l⟩ filled
    exact others g l (real g l filled)
  · rintro ⟨g, l⟩ filled held
    have other := real g l filled
    have same := others g l other
    refine ⟨held.covered, (freed.marks _).mpr ⟨held.inUse, fun k _ real equal => ?_⟩, held.data⟩
    have slots := sound.owns.distinct (f, k) (g, l) real equal
    exact other (Prod.mk.inj slots).1.symm
  · intro c isMeta covered
    refine (freed.marks c).mpr ⟨sound.reserved c isMeta covered, fun k _ filled equal => ?_⟩
    exact (sound.ref_held filled).data (equal ▸ isMeta)

theorem Freed.diskInode {slots : List Slot} {addrs : Addrs} (freed : Freed sb addrs slots view view')
    (sound : Sound sb view nodes) {g : UInt32} (inside : InTable sb g) :
    diskInode sb view' g = diskInode sb view g := by
  rw [Fs.diskInode, freed.same _ fun c covered => sound.apart g c inside covered, Fs.diskInode]

end Xv6.Fs
