import Xv6.Vm.Allocation

/-! Calls of `uvm_alloc` in which `kalloc` runs out.

Nobody releases the lock that `kalloc` holds when it returns the null pointer, so the lock
tells after a call whether a page was missing, at whatever place.
-/

set_option autoImplicit false

namespace Xv6.Vm

/-! ## Where `kalloc` runs out -/

-- `kalloc` returns the null pointer to the loop of `pgdir_walk`.
inductive WalkExhausts (va : UInt64) : List Nat → UInt64 → Memory → Prop where
  | null {i : Nat} {levels : List Nat} {tb : UInt64} {m m₁ : Memory} (absent : ¬ Present (m.word tb (PTX i va)))
    (empty : kalloc m = some (0, m₁)) :
    WalkExhausts va (i :: levels) tb m
  | linked {i : Nat} {levels : List Nat} {tb address : UInt64} {m m₁ : Memory}
      (absent : ¬ Present (m.word tb (PTX i va)))
    (allocated : kalloc m = some (address, m₁))
    (below : WalkExhausts va levels (frame ((m₁.link tb (PTX i va) address).word tb (PTX i va)))
      (m₁.link tb (PTX i va) address)) :
    WalkExhausts va (i :: levels) tb m
  | present {i : Nat} {levels : List Nat} {tb : UInt64} {m : Memory} (present : Present (m.word tb (PTX i va)))
    (below : WalkExhausts va levels (frame (m.word tb (PTX i va))) m) :
    WalkExhausts va (i :: levels) tb m

-- `kalloc` returns the null pointer during the loop of `map_region`.
inductive MapExhausts (pgdir vaend tail : UInt64) : UInt64 → UInt64 → Memory → Prop where
  | walk {v pa : UInt64} {m : Memory} (inside : v < vaend) (walk : WalkExhausts v [0, 1, 2] pgdir m) :
    MapExhausts pgdir vaend tail v pa m
  | next {v pa t : UInt64} {i : Fin 512} {m m₁ : Memory} (inside : v < vaend)
    (walked : pgdirWalk pgdir v true m = some (some (t, i), m₁)) (absent : ¬ Present (m₁.word t i))
    (later : MapExhausts pgdir vaend tail (v + PGSIZE) (pa + PGSIZE) (m₁.store t i (tail ||| (pa >>> 12 <<< 12)))) :
    MapExhausts pgdir vaend tail v pa m

-- `kalloc` returns the null pointer during `map_region`.
def RegionExhausts (pgdir va size pa perm : UInt64) (m : Memory) : Prop :=
  MapExhausts pgdir (va + size) (perm ||| PTE_P ||| PTE_TABLE ||| PTE_AF ||| PTE_NORMAL ||| PTE_USER ||| PTE_SH)
    (va - va % PGSIZE) pa m

/-- `kalloc` returns the null pointer during the loop of `uvm_alloc`, for a page or for a table. -/
inductive AllocExhausts (pgdir newsz : UInt64) : UInt64 → Memory → Prop where
  | page {a : UInt64} {m m₁ : Memory} (below : a < newsz)
      (empty : kalloc m = some (0, m₁)) : AllocExhausts pgdir newsz a m
  | table {a pgnew : UInt64} {m m₁ : Memory} (below : a < newsz) (allocated : kalloc m = some (pgnew, m₁))
    (notNull : pgnew ≠ 0)
    (region : RegionExhausts pgdir a PGSIZE (V2P pgnew) (PTE_USER ||| PTE_RW) (m₁.memset pgnew)) :
    AllocExhausts pgdir newsz a m
  | next {a pgnew : UInt64} {m m₁ m₂ : Memory} {failed : Int} (below : a < newsz)
    (allocated : kalloc m = some (pgnew, m₁)) (notNull : pgnew ≠ 0)
    (mapped : mapRegion pgdir a PGSIZE (V2P pgnew) (PTE_USER ||| PTE_RW) (m₁.memset pgnew) = some (failed, m₂))
    (succeeded : ¬ failed < 0) (later : AllocExhausts pgdir newsz (a + PGSIZE) m₂) :
    AllocExhausts pgdir newsz a m

-- `kalloc` runs out in a call of `uvm_alloc`.
def RunsOut (pgdir oldsz newsz : UInt64) (m : Memory) : Prop := AllocExhausts pgdir newsz (ROUNDUP oldsz) m

/-! ## The lock -/

section
variable {pgdir newsz vaend tail va v pa a tb : UInt64} {levels : List Nat} {n : Nat} {m m' m₁ : Memory}

theorem kalloc_held_iff (allocated : kalloc m = some (a, m')) :
    m.kmemcslock = false ∧ (m'.kmemcslock = true ↔ a = 0) := by
  rw [kalloc] at allocated
  split at allocated
  · cases allocated
  · next unlocked =>
    have released : m.kmemcslock = false := by simpa using unlocked
    split at allocated
    · cases allocated
      exact ⟨released, iff_of_true rfl rfl⟩
    · next page =>
      cases allocated
      exact ⟨released, iff_of_false (by simp [released]) page⟩

theorem walkLevels_held_iff {r : Option UInt64} (ran : walkLevels true va levels tb m = some (r, m')) :
    m'.kmemcslock = true ↔ m.kmemcslock = true ∨ WalkExhausts va levels tb m := by
  induction levels generalizing tb m with
  | nil =>
    cases ran
    refine ⟨Or.inl, ?_⟩
    rintro (held | exhausts)
    · exact held
    · cases exhausts
  | cons i levels ih =>
    rw [walkLevels] at ran
    by_cases present : Present (m.word tb (PTX i va))
    · rw [if_neg ((missing_entry _).not.mpr (not_not.mpr present))] at ran
      rw [ih ran]
      refine or_congr_right ⟨.present present, ?_⟩
      intro exhausts
      cases exhausts with
      | null absent _ => exact absurd present absent
      | linked absent _ _ => exact absurd present absent
      | present _ below => exact below
    · rw [if_pos ((missing_entry _).mpr present), if_pos rfl] at ran
      obtain ⟨⟨address, m₁⟩, allocated, rest⟩ := Option.bind_eq_some_iff.mp ran
      obtain ⟨unlocked, held⟩ := kalloc_held_iff allocated
      have below : m'.kmemcslock = true ↔ m₁.kmemcslock = true ∨ WalkExhausts va levels
          (frame ((m₁.link tb (PTX i va) address).word tb (PTX i va))) (m₁.link tb (PTX i va) address) := ih rest
      rw [below, held, unlocked]
      refine ⟨?_, ?_⟩
      · rintro (rfl | exhausts)
        · exact .inr (.null present allocated)
        · exact .inr (.linked present allocated exhausts)
      · rintro (locked | exhausts)
        · cases locked
        · cases exhausts with
          | null _ empty =>
            rw [allocated] at empty
            cases empty
            exact .inl rfl
          | linked _ again below =>
            rw [allocated] at again
            cases again
            exact .inr below
          | present there _ => exact absurd there present

theorem pgdirWalk_held_iff {r : Option (UInt64 × Fin 512)} (ran : pgdirWalk pgdir va true m = some (r, m')) :
    m'.kmemcslock = true ↔ m.kmemcslock = true ∨ WalkExhausts va [0, 1, 2] pgdir m := by
  obtain ⟨⟨tb, m₁⟩, walked, same⟩ := Option.map_eq_some_iff.mp ran
  cases same
  exact walkLevels_held_iff walked

theorem mapPages_held_iff {r : Int} (ran : mapPages pgdir vaend tail n v pa m = some (r, m')) :
    m'.kmemcslock = true ↔ m.kmemcslock = true ∨ MapExhausts pgdir vaend tail v pa m := by
  induction n generalizing v pa m with
  | zero => cases ran
  | succ n ih =>
    rw [mapPages] at ran
    by_cases inside : v < vaend
    · rw [if_pos inside] at ran
      obtain ⟨⟨place, m₁⟩, walked, rest⟩ := Option.bind_eq_some_iff.mp ran
      have walk := pgdirWalk_held_iff walked
      -- the loop ends here unless the walk has found an absent entry
      have ended : m' = m₁ → (∀ t i, place = some (t, i) → Present (m₁.word t i)) →
          (m'.kmemcslock = true ↔ m.kmemcslock = true ∨ MapExhausts pgdir vaend tail v pa m) := by
        rintro rfl last
        rw [walk]
        refine or_congr_right ⟨.walk inside, ?_⟩
        intro exhausts
        cases exhausts with
        | walk _ exhausts => exact exhausts
        | next _ again absent _ =>
          rw [walked] at again
          cases again
          exact absurd (last _ _ rfl) absent
      cases place with
      | none =>
        cases rest
        exact ended rfl fun t i same => by cases same
      | some place =>
        obtain ⟨t, i⟩ := place
        dsimp only at rest
        by_cases present : Present (m₁.word t i)
        · rw [if_pos (show m₁.word t i &&& PTE_P ≠ 0 from present)] at rest
          cases rest
          refine ended rfl fun t' i' same => ?_
          cases same
          exact present
        · rw [if_neg (show ¬ m₁.word t i &&& PTE_P ≠ 0 from present)] at rest
          have later : m'.kmemcslock = true ↔ m₁.kmemcslock = true ∨ MapExhausts pgdir vaend tail (v + PGSIZE)
              (pa + PGSIZE) (m₁.store t i (tail ||| (pa >>> 12 <<< 12))) := ih rest
          rw [later, walk, or_assoc]
          refine or_congr_right ⟨?_, ?_⟩
          · rintro (exhausts | exhausts)
            · exact .walk inside exhausts
            · exact .next inside walked present exhausts
          · intro exhausts
            cases exhausts with
            | walk _ exhausts => exact .inl exhausts
            | next _ again _ later =>
              rw [walked] at again
              cases again
              exact .inr later
    · rw [if_neg inside] at ran
      cases ran
      refine ⟨Or.inl, ?_⟩
      rintro (held | exhausts)
      · exact held
      · cases exhausts with
        | walk here _ => exact absurd here inside
        | next here _ _ _ => exact absurd here inside

theorem mapRegion_held_iff {size perm : UInt64} {r : Int} (ran : mapRegion pgdir va size pa perm m = some (r, m')) :
    m'.kmemcslock = true ↔ m.kmemcslock = true ∨ RegionExhausts pgdir va size pa perm m :=
  mapPages_held_iff ran

theorem allocPages_held_iff {r : Int64} (ran : allocPages pgdir newsz n a m = some (r, m')) :
    m'.kmemcslock = true ↔ m.kmemcslock = true ∨ AllocExhausts pgdir newsz a m := by
  induction n generalizing a m with
  | zero => cases ran
  | succ n ih =>
    rw [allocPages] at ran
    by_cases below : a < newsz
    · rw [if_pos below] at ran
      obtain ⟨⟨pgnew, m₁⟩, allocated, rest⟩ := Option.bind_eq_some_iff.mp ran
      obtain ⟨unlocked, held⟩ := kalloc_held_iff allocated
      rw [unlocked]
      dsimp only at rest
      by_cases null : pgnew = 0
      · rw [if_pos null] at rest
        cases rest
        exact iff_of_true (held.mpr null) (.inr (.page below (null ▸ allocated)))
      · rw [if_neg null] at rest
        obtain ⟨⟨failed, m₂⟩, mapped, rest⟩ := Option.bind_eq_some_iff.mp rest
        have region : m₂.kmemcslock = true ↔ m₁.kmemcslock = true ∨
            RegionExhausts pgdir a PGSIZE (V2P pgnew) (PTE_USER ||| PTE_RW) (m₁.memset pgnew) :=
            mapRegion_held_iff mapped
        rw [held, or_iff_right null] at region
        dsimp only at rest
        have whole : m'.kmemcslock = true ↔ m₂.kmemcslock = true ∨
          (¬ failed < 0 ∧ AllocExhausts pgdir newsz (a + PGSIZE) m₂) := by
          split at rest
          · next negative =>
            cases rest
            exact ⟨Or.inl, Or.rec id fun later => absurd negative later.1⟩
          · next succeeded =>
            rw [ih rest]
            exact or_congr_right (and_iff_right succeeded).symm
        rw [whole, region]
        refine ⟨?_, ?_⟩
        · rintro (exhausts | ⟨succeeded, exhausts⟩)
          · exact .inr (.table below allocated null exhausts)
          · exact .inr (.next below allocated null mapped succeeded exhausts)
        · rintro (locked | exhausts)
          · cases locked
          · cases exhausts with
            | page _ empty =>
              rw [allocated] at empty
              cases empty
              exact absurd rfl null
            | table _ again _ exhausts =>
              rw [allocated] at again
              cases again
              exact .inl exhausts
            | next _ again _ mapped' succeeded later =>
              rw [allocated] at again
              cases again
              rw [mapped] at mapped'
              cases mapped'
              exact .inr ⟨succeeded, later⟩
    · rw [if_neg below] at ran
      cases ran
      refine ⟨Or.inl, ?_⟩
      rintro (held | exhausts)
      · exact held
      · cases exhausts with
        | page here _ => exact absurd here below
        | table here _ _ _ => exact absurd here below
        | next here _ _ _ _ _ => exact absurd here below

/-! ## The list -/

def Drained (m : Memory) : Prop := m.kmemcslock = true → m.free_list = 0

theorem Supply.list_absent {pages : List UInt64} (supply : Supply m true pages) (drained : Drained m) :
    ¬ Present m.free_list := by
  cases supply with
  | @whole free heap =>
    cases free with
    | nil =>
      have null : m.free_list = 0 := heap.linked
      rw [null]
      exact not_present_zero
    | cons a rest =>
      have isHead : m.free_list = a := heap.linked.1
      rw [isHead]
      exact not_present_aligned (heap.page a List.mem_cons_self).1
  | spent held =>
    rw [drained held]
    exact not_present_zero

theorem kalloc_drained (allocated : kalloc m = some (a, m')) : Drained m' := by
  rw [kalloc] at allocated
  split at allocated
  · cases allocated
  · next unlocked =>
    split at allocated
    · next empty =>
      cases allocated
      exact fun _ => empty
    · cases allocated
      exact fun held => absurd held unlocked

theorem walkLevels_drained {alloc : Bool} {r : Option UInt64} (drained : Drained m)
    (ran : walkLevels alloc va levels tb m = some (r, m')) : Drained m' := by
  induction levels generalizing tb m with
  | nil =>
    cases ran
    exact drained
  | cons i levels ih =>
    rw [walkLevels] at ran
    dsimp only at ran
    split at ran
    · cases alloc with
      | false =>
        cases ran
        exact drained
      | true =>
        obtain ⟨⟨address, m₁⟩, allocated, rest⟩ := Option.bind_eq_some_iff.mp ran
        -- the stores to the new table leave the list and the lock
        have given : Drained m₁ := kalloc_drained allocated
        have linked : Drained (m₁.link tb (PTX i va) address) := given
        exact ih linked rest
    · exact ih drained ran

theorem mapPages_drained {r : Int} (drained : Drained m) (ran : mapPages pgdir vaend tail n v pa m = some (r, m')) :
    Drained m' := by
  induction n generalizing v pa m with
  | zero => cases ran
  | succ n ih =>
    rw [mapPages] at ran
    split at ran
    · obtain ⟨⟨place, m₁⟩, walked, rest⟩ := Option.bind_eq_some_iff.mp ran
      obtain ⟨⟨table, m₂⟩, levels, same⟩ := Option.map_eq_some_iff.mp walked
      cases same
      have next := walkLevels_drained drained levels
      cases table with
      | none =>
        cases rest
        exact next
      | some t =>
        dsimp only [Option.map_some] at rest
        split at rest
        · cases rest
          exact next
        · have stored : Drained (m₁.store t (PTX 3 v) (tail ||| (pa >>> 12 <<< 12))) := next
          exact ih stored rest
    · cases ran
      exact drained

theorem allocPages_drained {r : Int64} (drained : Drained m) (ran : allocPages pgdir newsz n a m = some (r, m')) :
    Drained m' := by
  induction n generalizing a m with
  | zero => cases ran
  | succ n ih =>
    rw [allocPages] at ran
    split at ran
    · obtain ⟨⟨pgnew, m₁⟩, allocated, rest⟩ := Option.bind_eq_some_iff.mp ran
      have next := kalloc_drained allocated
      dsimp only at rest
      split at rest
      · cases rest
        exact next
      · obtain ⟨⟨failed, m₂⟩, mapped, rest⟩ := Option.bind_eq_some_iff.mp rest
        have cleared : Drained (m₁.memset pgnew) := next
        have region := mapPages_drained cleared mapped
        dsimp only at rest
        split at rest
        · cases rest
          exact region
        · exact ih region rest
    · cases ran
      exact drained

/-! ## What a failed call should leave -/

/-- The null pointer has not been used, the same pages are mapped, the same pages are free, and
the lock of the allocator is not held. -/
structure Unwound (pgdir : UInt64) (m m' : Memory) : Prop where
  null : m'.word 0 = m.word 0
  mapped : ∀ va, Present (m'.pte pgdir va) ↔ Present (m.pte pgdir va)
  free : ∀ pages, Free m pages → ∃ pages', Free m' pages' ∧ ∀ page, page ∈ pages' ↔ page ∈ pages
  released : m'.kmemcslock = false

/-- No call in which `kalloc` runs out leaves memory as it was. -/
theorem uvmAlloc_never_unwinds {oldsz : UInt64} (out : RunsOut pgdir oldsz newsz m) :
    ¬ ∃ m', uvmAlloc pgdir oldsz newsz m = some (0, m') ∧ Unwound pgdir m m' := by
  rintro ⟨m', ran, unwound⟩
  have held := (allocPages_held_iff ran).mpr (.inr out)
  rw [unwound.released] at held
  cases held

end

def noPages : Memory := ⟨fun _ _ => 0, 0, false⟩

theorem kalloc_noPages : kalloc noPages = some (0, { noPages with kmemcslock := true }) := rfl

theorem runsOut_noPages : RunsOut (P2V 0x100000) 0 4096 noPages := AllocExhausts.page (by decide) kalloc_noPages

theorem uvmAlloc_never_unwinds_noPages : RunsOut (P2V 0x100000) 0 4096 noPages ∧
    ¬ ∃ m', uvmAlloc (P2V 0x100000) 0 4096 noPages = some (0, m') ∧ Unwound (P2V 0x100000) noPages m' :=
  ⟨runsOut_noPages, uvmAlloc_never_unwinds runsOut_noPages⟩

/-- The first page cannot be had, and the lock stays. -/
theorem uvmAlloc_keeps_lock : ¬ ∀ (pgdir oldsz newsz : UInt64)
    (m : Memory), oldsz < newsz → RunsOut pgdir oldsz newsz m →
    ∃ m', uvmAlloc pgdir oldsz newsz m = some (0, m') ∧ Unwound pgdir m m' := by
  intro always
  obtain ⟨m', ran, unwound⟩ := always (P2V 0x100000) 0 4096 noPages (by decide) runsOut_noPages
  obtain ⟨fuel, isTurns⟩ : ∃ fuel, turns = fuel + 1 := ⟨2 ^ 52, rfl⟩
  rw [uvmAlloc, isTurns, allocPages, if_pos (by decide)] at ran
  rw [kalloc_noPages, Option.bind_eq_bind, Option.bind_some] at ran
  dsimp only at ran
  rw [if_pos rfl] at ran
  cases ran
  exact absurd unwound.released (by decide)

end Xv6.Vm
