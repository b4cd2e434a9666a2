import Xv6.Vm.Tables

/-! `kfree`, and `vm_free` of a page table.

The tables go back to the free list with their entries cleared; the pages below the last
level do not. What is not a table of the tree is left alone, however the tables are shared.
-/

set_option autoImplicit false

namespace Xv6.Vm

open Library

/-- `kfree(v)`, where the kernel ends at `kend`; `none` is a panic, or a wait for ever. -/
def kfree (kend v : UInt64) (m : Memory) : Option Memory :=
  if v % PGSIZE ≠ 0 ∨ v < kend ∨ V2P v ≥ PHYSTOP then none
  else if m.kmemcslock then none
  else some { m.store v 0 m.free_list with free_list := v }

-- The turn of `vm_free_dfs` for entry `i`, with what it does to a table of the next level.
def clearEntry (below : UInt64 → Memory → Option Memory) (pgdir : UInt64) (m : Memory) (i : Fin 512) :
    Option Memory :=
  let pte := m.word pgdir i
  if pte ≠ 0 ∧ Present pte then
    (if pte &&& PTE_TABLE ≠ 0 then below (frame pte) m else some m).map fun m => m.store pgdir i 0
  else some m

-- `vm_free_dfs(pgdir, level)`, with the number of levels from `level` on.
def vmFreeDfs (kend : UInt64) : Nat → UInt64 → Memory → Option Memory
  | 0, _, m => some m
  | levels + 1, pgdir, m =>
    ((List.finRange 512).foldlM (clearEntry (vmFreeDfs kend levels) pgdir) m).bind (kfree kend pgdir)

-- `vm_free(pgdir, 0)`
def vmFree (kend pgdir : UInt64) (m : Memory) : Option Memory := vmFreeDfs kend 4 pgdir m

/-- A step of `vm_free` in the part of memory below a table: no entry is added, and what the table
does not lead to is left alone. -/
structure Pruned (levels : Nat) (root : UInt64) (m m' : Memory) : Prop where
  fewer : ∀ t i x, m'.child t i = some x → m.child t i = some x
  frame : ∀ z, (∀ p, p.length < levels → descend m.child root p ≠ some z) → m'.word z = m.word z
  list : ¬ Present m'.free_list

section
variable {levels : Nat} {root kend z : UInt64} {m m' m'' : Memory}

theorem Pruned.refl (list : ¬ Present m.free_list) : Pruned levels root m m :=
  ⟨fun _ _ _ found => found, fun _ _ => rfl, list⟩

theorem Pruned.trans (first : Pruned levels root m m') (second : Pruned levels root m' m'') :
    Pruned levels root m m'' where
  fewer t i x found := first.fewer t i x (second.fewer t i x found)
  frame z outside :=
    (second.frame z fun p short found => outside p short (descend_of_fewer first.fewer found)).trans
    (first.frame z outside)
  list := second.list

theorem Pruned.store (list : ¬ Present m.free_list) (i : Fin 512) {value : UInt64} (absent : ¬ Present value) :
    Pruned (levels + 1) root m (m.store root i value) := by
  refine ⟨fun t j x found => ?_, fun z outside => ?_, list⟩
  · by_cases isTable : t = root
    · subst isTable
      by_cases isIndex : j = i
      · subst isIndex
        simp [Memory.child, Memory.store, absent] at found
      · rw [child_congr] at found
        · exact found
        · simp [Memory.store, isIndex]
    · rw [child_congr] at found
      · exact found
      · rw [store_word isTable]
  · refine store_word ?_ i value
    rintro rfl
    exact outside [] (Nat.succ_pos levels) rfl

theorem Pruned.below {i : Fin 512} {x : UInt64} (child : m.child root i = some x) (pruned : Pruned levels x m m') :
    Pruned (levels + 1) root m m' where
  fewer := pruned.fewer
  frame z outside := by
    refine pruned.frame z fun p short found => outside (i :: p) (Nat.succ_lt_succ short) ?_
    rw [descend, child]
    exact found
  list := pruned.list

theorem kfree_pruned (list : ¬ Present m.free_list) (ran : kfree kend root m = some m') :
    Pruned (levels + 1) root m m' := by
  rw [kfree] at ran
  split at ran
  · cases ran
  · next accepted =>
    split at ran
    · cases ran
    · cases ran
      obtain ⟨fewer, frame, _⟩ : Pruned (levels + 1) root m (m.store root 0 m.free_list) := Pruned.store list 0 list
      refine ⟨fewer, frame, not_present_aligned ?_⟩
      have whole : root % PGSIZE = 0 := by
        by_contra other
        exact accepted (.inl other)
      have value := congrArg UInt64.toNat whole
      rwa [UInt64.toNat_mod] at value

theorem clearEntries_pruned {below : UInt64 → Memory → Option Memory} {indices : List (Fin 512)}
    (prunes : ∀ {x u v}, ¬ Present u.free_list → below x u = some v → Pruned levels x u v)
    (before : Pruned (levels + 1) root m m') (ran : indices.foldlM (clearEntry below root) m' = some m'') :
    Pruned (levels + 1) root m m'' := by
  induction indices generalizing m' with
  | nil =>
    cases ran
    exact before
  | cons i rest ih =>
    rw [List.foldlM_cons] at ran
    obtain ⟨w, turn, later⟩ := Option.bind_eq_some_iff.mp ran
    refine ih (before.trans ?_) later
    rw [clearEntry] at turn
    split at turn
    · next present =>
      have child : m'.child root i = some (frame (m'.word root i)) := if_pos present.2
      obtain ⟨u, lower, rfl⟩ := Option.map_eq_some_iff.mp turn
      split at lower
      · have pruned := (prunes before.list lower).below child
        exact pruned.trans (Pruned.store pruned.list i not_present_zero)
      · cases lower
        exact Pruned.store before.list i not_present_zero
    · cases turn
      exact Pruned.refl before.list

theorem vmFreeDfs_pruned (list : ¬ Present m.free_list) (ran : vmFreeDfs kend levels root m = some m') :
    Pruned levels root m m' := by
  induction levels generalizing root m m' with
  | zero =>
    cases ran
    exact Pruned.refl list
  | succ levels ih =>
    rw [vmFreeDfs, Option.bind_eq_some_iff] at ran
    obtain ⟨m₁, cleared, freed⟩ := ran
    have entries := clearEntries_pruned (fun list below => ih list below) (Pruned.refl list) cleared
    exact entries.trans (kfree_pruned entries.list freed)

theorem vmFree_kept (list : ¬ Present m.free_list) (ran : vmFree kend root m = some m')
    (outside : ¬ Within m.child 4 root z) : m'.word z = m.word z := by
  apply (vmFreeDfs_pruned list ran).frame
  intro p short found
  exact outside ⟨p, short, found⟩

end

end Xv6.Vm
