import Xv6.Vm.Freeing

/-! `vm_free` on a tree of distinct tables.

Every table goes to the free list, once, and no other page does: at the last level the
entries are cleared, and the pages that they map stay where they are.
-/

set_option autoImplicit false

namespace Xv6.Vm

open Library

/-- The tables that a page leads to, on so many levels: distinct pages that `kfree` accepts, none of
them free, with the type bit in every entry for a table. -/
structure Subtree (kend : UInt64) (levels : Nat) (m : Memory) (free : List UInt64) (x : UInt64) : Prop where
  distinct : DistinctIn m.child levels x
  unused : ∀ z, Within m.child levels x z → z ∉ free
  page : ∀ z, Within m.child levels x z → IsPage z ∧ kend ≤ z
  marked : ∀ z i, Within m.child (levels - 1) x z → Present (m.word z i) → m.word z i &&& PTE_TABLE ≠ 0

/-- The tables have been put in front of the free list. -/
structure Reclaimed (levels : Nat) (m : Memory) (free : List UInt64) (x : UInt64) (m' : Memory)
    (pages : List UInt64) :
    Prop where
  heap : Free m' (pages ++ free)
  freed : ∀ z, z ∈ pages ↔ Within m.child levels x z
  kept : ∀ z, z ∉ pages → m'.word z = m.word z

/-- The loop over the entries of table `x` has made the turns of `done`. -/
structure Cleared (levels : Nat) (m : Memory) (free : List UInt64) (x : UInt64) (done : List (Fin 512)) (m' : Memory)
    (pages : List UInt64) : Prop where
  heap : Free m' (pages ++ free)
  freed : ∀ z, z ∈ pages ↔ ∃ i ∈ done, ∃ y, m.child x i = some y ∧ Within m.child levels y z
  kept : ∀ z, z ∉ pages → z ≠ x → m'.word z = m.word z
  here : ∀ i, i ∉ done → m'.word x i = m.word x i

section
variable {kend x y : UInt64} {levels : Nat} {m m' m₁ : Memory} {free free' pages : List UInt64}
  {done : List (Fin 512)}
  {i : Fin 512}

theorem Free.kfree (heap : Free m free) (page : IsPage x) (above : kend ≤ x) (unused : x ∉ free) :
    ∃ m', kfree kend x m = some m' ∧ Free m' (x :: free) ∧ ∀ z, z ≠ x → m'.word z = m.word z := by
  have whole : x % PGSIZE = 0 := by
    apply UInt64.toNat_inj.mp
    rw [UInt64.toNat_mod]
    exact page.1
  have accepted : ¬ (x % PGSIZE ≠ 0 ∨ x < kend ∨ V2P x ≥ PHYSTOP) := by
    rintro (other | below | high)
    · exact other whole
    · exact absurd above (UInt64.not_le.mpr below)
    · exact absurd page.2 (UInt64.not_lt.mpr high)
  refine ⟨{ m.store x 0 m.free_list with free_list := x }, ?_, ?_, fun z other => store_word other 0 m.free_list⟩
  · rw [Vm.kfree, if_neg accepted, heap.unlocked, if_neg Bool.false_ne_true]
  · refine ⟨⟨rfl, ?_⟩, List.nodup_cons.mpr ⟨unused, heap.nodup⟩, ?_, heap.unlocked⟩
    · rw [show ({ m.store x 0 m.free_list with free_list := x } : Memory).word x 0 =
        m.free_list from store_self m x 0 _]
      refine heap.linked.congr fun a member => ?_
      have other : a ≠ x := fun same => unused (same ▸ member)
      exact store_word other 0 m.free_list
    · intro a member
      rcases List.mem_cons.mp member with rfl | isFree
      · exact page
      · exact heap.page a isFree

theorem present_ne_zero {pte : UInt64} (present : Present pte) : pte ≠ 0 := by
  rintro rfl
  exact not_present_zero present

namespace Subtree

theorem root (tree : Subtree kend (levels + 1) m free x) : IsPage x ∧ kend ≤ x ∧ x ∉ free := by
  have self : Within m.child (levels + 1) x x := within_succ.mpr (.inl rfl)
  exact ⟨(tree.page x self).1, (tree.page x self).2, tree.unused x self⟩

theorem below (tree : Subtree kend (levels + 1) m free x) (next : m.child x i = some y) :
    Subtree kend levels m free y where
  distinct := tree.distinct.below next
  unused z inside := tree.unused z (within_succ.mpr (.inr ⟨i, y, next, inside⟩))
  page z inside := tree.page z (within_succ.mpr (.inr ⟨i, y, next, inside⟩))
  marked z j inside := by
    cases levels with
    | zero => exact absurd inside not_within_zero
    | succ levels => exact tree.marked z j (within_succ.mpr (.inr ⟨i, y, next, inside⟩))

theorem congr (tree : Subtree kend levels m free x) (same : ∀ z, Within m.child levels x z → m'.word z = m.word z)
    (unused : ∀ z, Within m.child levels x z → z ∉ free') : Subtree kend levels m' free' x := by
  have children : ∀ z, Within m.child levels x z → ∀ i, m'.child z i = m.child z i :=
    fun z inside i => child_congr (congrFun (same z inside) i)
  have fewer : ∀ {z}, Within m.child (levels - 1) x z → Within m.child levels x z :=
    fun ⟨p, short, found⟩ => ⟨p, by omega, found⟩
  refine ⟨tree.distinct.congr children, ?_, ?_, ?_⟩
  · intro z inside
    exact unused z ((within_congr children).mp inside)
  · intro z inside
    exact tree.page z ((within_congr children).mp inside)
  · intro z i inside present
    have before := (within_congr fun z inside => children z (fewer inside)).mp inside
    rw [same z (fewer before)] at present ⊢
    exact tree.marked z i before present

end Subtree

theorem Cleared.turn (tree : Subtree kend (levels + 1) m free x)
    (frees : ∀ {y u list}, Free u list → Subtree kend levels u list y →
      ∃ u' taken, vmFreeDfs kend levels y u = some u' ∧ Reclaimed levels u list y u' taken)
    (before : Cleared levels m free x done m₁ pages) (new : i ∉ done) :
    ∃ m₂ pages₂, clearEntry (vmFreeDfs kend levels) x m₁ i = some m₂ ∧
      Cleared levels m free x (i :: done) m₂ pages₂ := by
  have word := before.here i new
  by_cases present : Present (m.word x i)
  · obtain ⟨y, isY⟩ : ∃ y, y = frame (m.word x i) := ⟨_, rfl⟩
    have child : m.child x i = some y := by rw [Memory.child, if_pos present, isY]
    have same : ∀ z, Within m.child levels y z → m₁.word z = m.word z := by
      intro z inside
      refine before.kept z (fun freed => ?_) ?_
      · obtain ⟨j, isDone, y', child', inside'⟩ := (before.freed z).mp freed
        have other : i ≠ j := fun equal => new (equal ▸ isDone)
        exact tree.distinct.apart other child child' inside inside'
      · rintro rfl
        exact tree.distinct.not_within child inside
    have unused : ∀ z, Within m.child levels y z → z ∉ pages ++ free := by
      intro z inside member
      rcases List.mem_append.mp member with freed | isFree
      · obtain ⟨j, isDone, y', child', inside'⟩ := (before.freed z).mp freed
        have other : i ≠ j := fun equal => new (equal ▸ isDone)
        exact tree.distinct.apart other child child' inside inside'
      · exact (tree.below child).unused z inside isFree
    have reach : ∀ z, Within m₁.child levels y z ↔ Within m.child levels y z :=
      fun z => within_congr fun z inside j => child_congr (congrFun (same z inside) j)
    -- at the last level nothing happens to the page below
    obtain ⟨u, taken, ran, reclaimed⟩ : ∃ u taken,
        (if m₁.word x i &&& PTE_TABLE ≠ 0 then vmFreeDfs kend levels y m₁ else some m₁) = some u ∧
          Reclaimed levels m₁ (pages ++ free) y u taken := by
      by_cases marked : m₁.word x i &&& PTE_TABLE ≠ 0
      · rw [if_pos marked]
        exact frees before.heap ((tree.below child).congr same unused)
      · rw [if_neg marked]
        cases levels with
        | zero => exact ⟨m₁, [], rfl, before.heap, fun z => iff_of_false (by simp) not_within_zero, fun _ _ => rfl⟩
        | succ levels =>
          rw [word] at marked
          exact absurd (tree.marked x i (within_succ.mpr (.inl rfl)) present) marked
    have notTaken : x ∉ taken := by
      rw [reclaimed.freed, reach]
      exact tree.distinct.not_within child
    have notFreed : x ∉ pages := by
      rw [before.freed]
      rintro ⟨j, _, y', child', inside'⟩
      exact tree.distinct.not_within child' inside'
    refine ⟨u.store x i 0, taken ++ pages, ?_, ?_, ?_, ?_, ?_⟩
    · rw [clearEntry]
      rw [word] at ran ⊢
      rw [if_pos ⟨present_ne_zero present, present⟩, ← isY, ran, Option.map_some]
    · rw [List.append_assoc]
      refine reclaimed.heap.store (fun member => ?_) i 0
      rcases List.mem_append.mp member with isTaken | member
      · exact notTaken isTaken
      · rcases List.mem_append.mp member with isFreed | isFree
        · exact notFreed isFreed
        · exact tree.root.2.2 isFree
    · intro z
      rw [List.mem_append, reclaimed.freed, reach, before.freed]
      constructor
      · rintro (inside | ⟨j, isDone, rest⟩)
        · exact ⟨i, List.mem_cons_self, y, child, inside⟩
        · exact ⟨j, List.mem_cons_of_mem i isDone, rest⟩
      · rintro ⟨j, member, y', child', inside⟩
        rcases List.mem_cons.mp member with rfl | isDone
        · rw [child, Option.some.injEq] at child'
          exact .inl (child' ▸ inside)
        · exact .inr ⟨j, isDone, y', child', inside⟩
    · intro z outside other
      rw [List.mem_append, not_or] at outside
      rw [store_word other, reclaimed.kept z outside.1, before.kept z outside.2 other]
    · intro j outside
      rw [List.mem_cons, not_or] at outside
      rw [store_beside u x outside.1, reclaimed.kept x notTaken, before.here j outside.2]
  · refine ⟨m₁, pages, ?_, before.heap, ?_, before.kept, ?_⟩
    · rw [clearEntry, word, if_neg fun both => present both.2]
    · intro z
      rw [before.freed]
      constructor
      · rintro ⟨j, isDone, rest⟩
        exact ⟨j, List.mem_cons_of_mem i isDone, rest⟩
      · rintro ⟨j, member, y, child, inside⟩
        rcases List.mem_cons.mp member with rfl | isDone
        · rw [child_none.mpr present] at child
          cases child
        · exact ⟨j, isDone, y, child, inside⟩
    · exact fun j outside => before.here j fun isDone => outside (List.mem_cons_of_mem i isDone)

theorem Cleared.loop (tree : Subtree kend (levels + 1) m free x)
    (frees : ∀ {y u list}, Free u list → Subtree kend levels u list y →
      ∃ u' taken, vmFreeDfs kend levels y u = some u' ∧ Reclaimed levels u list y u' taken)
    (indices : List (Fin 512)) (before : Cleared levels m free x done m₁ pages) (nodup : indices.Nodup)
    (new : ∀ i ∈ indices, i ∉ done) :
    ∃ m₂ pages₂, indices.foldlM (clearEntry (vmFreeDfs kend levels) x) m₁ = some m₂ ∧
      Cleared levels m free x (indices.reverse ++ done) m₂ pages₂ := by
  induction indices generalizing done m₁ pages with
  | nil => exact ⟨m₁, pages, rfl, before⟩
  | cons i rest ih =>
    obtain ⟨m₂, pages₂, turned, after⟩ := before.turn tree frees (new i List.mem_cons_self)
    obtain ⟨notRest, nodupRest⟩ := List.nodup_cons.mp nodup
    have newRest : ∀ j ∈ rest, j ∉ i :: done := by
      intro j member isDone
      rcases List.mem_cons.mp isDone with rfl | isDone
      · exact notRest member
      · exact new j (List.mem_cons_of_mem i member) isDone
    obtain ⟨m₃, pages₃, looped, whole⟩ := ih after nodupRest newRest
    refine ⟨m₃, pages₃, ?_, ?_⟩
    · rw [List.foldlM_cons, turned]
      exact looped
    · rw [List.reverse_cons, List.append_assoc]
      exact whole

theorem vmFreeDfs_frees (heap : Free m free) (tree : Subtree kend levels m free x) :
    ∃ m' pages, vmFreeDfs kend levels x m = some m' ∧ Reclaimed levels m free x m' pages := by
  induction levels generalizing x m free with
  | zero => exact ⟨m, [], rfl, heap, fun z => iff_of_false (by simp) not_within_zero, fun _ _ => rfl⟩
  | succ levels ih =>
    have start : Cleared levels m free x [] m [] := ⟨heap, by simp, fun _ _ _ => rfl, fun _ _ => rfl⟩
    obtain ⟨m₁, pages, looped, cleared⟩ := start.loop tree ih (List.finRange 512) (List.nodup_finRange 512) (by simp)
    have freed : ∀ z, z ∈ pages ↔ ∃ i y, m.child x i = some y ∧ Within m.child levels y z := by
      intro z
      rw [cleared.freed]
      simp
    have unused : x ∉ pages ++ free := by
      rw [List.mem_append, freed, not_or]
      refine ⟨?_, tree.root.2.2⟩
      rintro ⟨i, y, child, inside⟩
      exact tree.distinct.not_within child inside
    obtain ⟨m', last, heap', others⟩ := cleared.heap.kfree tree.root.1 tree.root.2.1 unused
    refine ⟨m', x :: pages, ?_, heap', ?_, ?_⟩
    · rw [vmFreeDfs, looped, Option.bind_some, last]
    · intro z
      rw [List.mem_cons, freed, within_succ]
    · intro z outside
      rw [List.mem_cons, not_or] at outside
      rw [others z outside.1, cleared.kept z outside.2 outside.1]

end

end Xv6.Vm
