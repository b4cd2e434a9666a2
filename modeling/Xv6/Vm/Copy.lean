import Xv6.Vm.Walk

/-! `map_region` of one page, and `uvm_copy`.

The loop of `uvm_copy` keeps the new table inside the pages that it has taken from the
free list. The parent's pages are not free, so nothing that the loop writes is one of
them.
-/

set_option autoImplicit false

namespace Xv6.Vm

open Library

section
variable {m m' : Memory} {c n : Nat} {root : UInt64} {free : List UInt64}

theorem present_fixed (x y : UInt64) : Present (x ||| fixed ||| y) := by
  rw [UInt64.or_assoc, UInt64.or_comm fixed, ← UInt64.or_assoc]
  exact present_or _ (by decide)

/-- One page mapped by `map_region`, at page number `n` with entry `e`. -/
structure Mapped (c : Nat) (root : UInt64) (n : Nat) (e : UInt64) (m : Memory) (free : List UInt64) (m' : Memory)
    (taken free' : List UInt64) : Prop where
  split : free = taken ++ free'
  heap : Free m' free'
  space : Space c m' free' root
  keeps : ∀ q z, q.length ≤ 4 → descend m.child root q = some z → descend m'.child root q = some z
  adds : ∀ q z, q.length ≤ 4 → descend m'.child root q = some z → descend m.child root q = some z ∨
    (z ∈ taken ∧ q <+: tablePath n) ∨ (q = pagePath n ∧ z = frame e)
  table : (descend m'.child root (tablePath n)).isSome
  here : m'.leaf root n = some e
  beside : ∀ k, pagePath k ≠ pagePath n → m'.leaf root k = m.leaf root k
  frame : ∀ z, z ∉ taken → (∀ q, q.length ≤ 3 → descend m.child root q ≠ some z) → m'.word z = m.word z

theorem mapRegion_page {va : UInt64} (pa perm : UInt64) (isPage : va.toNat = 4096 * n) (small : n < 2 ^ 36)
    (heap : Free m free)
    (space : Space c m free root) (three : 3 ≤ c) (four : c ≤ 4) (absent : m.leaf root n = none)
    (enough : missing m.child root (tablePath n) ≤ free.length) (aligned : pa.toNat % 4096 = 0)
    (low : perm.toNat < 4096) (used : P2V pa ∉ free)
    (fresh : 3 < c → ∀ q, q.length ≤ c → descend m.child root q ≠ some (P2V pa)) :
    ∃ m' taken free', mapRegion root va PGSIZE pa perm m = some (0, m') ∧
      taken.length = missing m.child root (tablePath n) ∧
      Mapped c root n (perm ||| fixed ||| pa) m free m' taken free' := by
  obtain ⟨t, m1, taken, free', walked, grown, found, size⟩ :=
    pgdirWalk_alloc (show va.toNat / 4096 = n by omega) heap space three four enough
  obtain ⟨e, isE⟩ : ∃ e, e = perm ||| fixed ||| pa := ⟨_, rfl⟩
  have tailLow : (perm ||| fixed).toNat < 4096 := by
    rw [UInt64.toNat_or]
    exact Nat.or_lt_two_pow (n := 12) low (by decide)
  have isFrame : Vm.frame e = P2V pa := by
    rw [isE, Vm.frame, UInt64.or_comm, or_shift aligned tailLow]
  have present : Present e := isE ▸ present_fixed perm pa
  have made : e ||| fixed = e := by
    rw [isE, UInt64.or_assoc, UInt64.or_comm pa, ← UInt64.or_assoc, UInt64.or_assoc perm, UInt64.or_self]
  have absent1 : m1.leaf root n = none := (grown.leaf n).trans absent
  have notPresent : ¬ Present (m1.word t (Fin.ofNat 512 n)) := by
    intro isThere
    have found' := leaf_some.mpr ⟨t, found, isThere, rfl⟩
    rw [absent1] at found'
    simp at found'
  have used' : Vm.frame e ∉ free := isFrame ▸ used
  have entered := entered grown.heap grown.space three four found absent1 present made
    (fun inFree => used' (grown.split ▸ List.mem_append_right taken inFree)) (by
      intro deep q short reached
      rcases grown.adds q _ (by omega) reached with old | ⟨_, isTaken, _⟩
      · exact fresh deep q short (isFrame ▸ old)
      · exact used' (grown.split ▸ List.mem_append_left free' isTaken))
  refine ⟨m1.store t (Fin.ofNat 512 n) e, taken, free', ?_, size, ?_⟩
  · have isStart : va - va % PGSIZE = va := by
      apply UInt64.toNat_inj.mp
      have small' := va.toNat_lt
      simp [PGSIZE, UInt64.toNat_sub, UInt64.toNat_mod]
      omega
    have first : va < va + PGSIZE := by
      rw [UInt64.lt_iff_toNat_lt, UInt64.toNat_add]
      simp [PGSIZE]
      omega
    have done : ¬ va + PGSIZE < va + PGSIZE := by simp
    have entry : perm ||| PTE_P ||| PTE_TABLE ||| PTE_AF ||| PTE_NORMAL ||| PTE_USER ||| PTE_SH |||
        (pa >>> 12 <<< 12) = e := by
      have whole : pa >>> 12 <<< 12 = pa := by
        have := or_shift (f := 0) aligned (by decide)
        rwa [UInt64.or_zero] at this
      rw [whole, isE]
      simp only [fixed, UInt64.or_assoc]
    obtain ⟨k, isTurns⟩ : ∃ k, turns = k + 2 := ⟨2 ^ 52 - 1, by norm_num [turns]⟩
    simp only [mapRegion, isStart, isTurns]
    rw [mapPages, if_pos first, walked]
    simp only [Option.bind_eq_bind, Option.bind_some]
    rw [if_neg (show ¬ (m1.word t (Fin.ofNat 512 n) &&& PTE_P ≠ 0) from notPresent), mapPages, if_neg done, entry]
  · rw [← isE]
    refine ⟨grown.split, entered.heap, entered.space, ?_, ?_, ?_, entered.here, ?_, ?_⟩
    · exact fun q z short old => (entered.reach q z short).mpr (.inl (grown.keeps q z short old))
    · intro q z short reached
      rcases (entered.reach q z short).mp reached with before | new
      · rcases grown.adds q z short before with old | ⟨_, isTaken, along⟩
        · exact .inl old
        · exact .inr (.inl ⟨isTaken, along⟩)
      · exact .inr (.inr new)
    · rw [(entered.reach (tablePath n) t (by simp [tablePath])).mpr (.inl found)]
      rfl
    · exact fun k other => (entered.beside k other).trans (grown.leaf k)
    · intro z notTaken outside
      have notTable : z ≠ t := by
        rintro rfl
        rcases grown.adds (tablePath n) z (by simp [tablePath]) found with old | ⟨_, isTaken, _⟩
        · exact outside (tablePath n) (Nat.le_refl 3) old
        · exact notTaken isTaken
      have same := grown.frame z notTaken fun q short => outside q (by omega)
      exact (store_word notTable _ e).trans same

/-! ## The loop of `uvm_copy` -/

/-- A tree is read the same, and with the same mapped entries, when its tables are. -/
theorem descend_same (same : ∀ q z, q.length ≤ 3 → descend m.child root q = some z → m'.word z = m.word z)
    {q : List (Fin 512)} (short : q.length ≤ 4) : descend m'.child root q = descend m.child root q := by
  refine descend_congr (d := 4) (fun p z i shorter reached => ?_) short
  exact child_congr (congrFun (same p z (by omega) reached) i)

theorem leaf_same (same : ∀ q z, q.length ≤ 3 → descend m.child root q = some z → m'.word z = m.word z) (k : Nat) :
    m'.leaf root k = m.leaf root k := by
  rw [Memory.leaf, Memory.leaf, descend_same same (by simp [tablePath])]
  cases reached : descend m.child root (tablePath k) with
  | none => rfl
  | some t => rw [Option.bind_some, Option.bind_some, same (tablePath k) t (Nat.le_refl 3) reached]

theorem Space.same {free' : List UInt64} (space : Space c m free root) (subset : ∀ x, x ∈ free' → x ∈ free)
    (four : c ≤ 4) (same : ∀ q z, q.length ≤ 3 → descend m.child root q = some z → m'.word z = m.word z) :
    Space c m' free' root := by
  refine ⟨?_, ?_, ?_⟩
  · intro p q x shortP shortQ reachP reachQ
    rw [descend_same same (by omega)] at reachP reachQ
    exact space.distinct p q x shortP shortQ reachP reachQ
  · intro p x short reached isFree
    rw [descend_same same short] at reached
    exact space.used p x short reached (subset x isFree)
  · intro p t i long reached present
    rw [descend_same same (by omega)] at reached
    rw [same p t (by omega) reached] at present ⊢
    exact space.made p t i long reached present

/-- After `k` pages have been copied from `old` to `new`; `start` and `pages` are the memory
and the free list before the call. -/
structure Copying (start : Memory) (pages : List UInt64) (old new : UInt64) (k : Nat) (m : Memory)
    (taken free : List UInt64) : Prop where
  split : pages = taken ++ free
  count : taken.length = needed k
  heap : Free m free
  space : Space 4 m free new
  inside : ∀ q z, q.length ≤ 4 → descend m.child new q = some z → z ∈ taken
  frame : ∀ z, z ∉ pages → m.word z = start.word z
  tables : TablesBelow m new k
  copied : ∀ j < k, ∃ e e', start.leaf old j = some e ∧ m.leaf new j = some e' ∧
    m.word (Vm.frame e') = start.word (Vm.frame e) ∧ PTE_FLAGS e' = PTE_FLAGS e
  others : ∀ j, k ≤ j → j < 2 ^ 36 → m.leaf new j = none

theorem Copying.missing {start : Memory} {pages taken : List UInt64} {old new : UInt64} {k : Nat}
    (copying : Copying start pages old new k m taken free) (small : k < 2 ^ 36) :
    missing m.child new (tablePath k) + 1 + needed k = needed (k + 1) := missing_next copying.tables small

theorem Space.page_notMem {pages : List UInt64} {old e : UInt64} {k : Nat} (space : Space c m pages old)
    (mapped : m.leaf old k = some e) : frame e ∉ pages :=
  space.used _ _ (by simp [tablePath]) (descend_leaf mapped)

variable {start : Memory} {pages taken : List UInt64} {old new sz i : UInt64} {k fuel : Nat}

/-! ### One turn

A page is taken for the copy and filled; then `map_region` enters it.
-/

/-- Page `a` has been taken from the free list, and `memcpy` has filled it. -/
structure Fetched (new a src : UInt64) (m : Memory) (rest : List UInt64) (m₁ : Memory) : Prop where
  heap : Free m₁ rest
  unused : a ∉ rest
  aligned : a.toNat % 4096 = 0
  fresh : ∀ q z, q.length ≤ 4 → descend m.child new q = some z → z ≠ a
  here : m₁.word a = m.word src
  other : ∀ z, z ≠ a → m₁.word z = m.word z

theorem Space.fetch {a : UInt64} (space : Space 4 m (a :: free) new) (heap : Free m (a :: free)) (src : UInt64) :
    Fetched new a src m free ((m.pop a).memcpy a src) := by
  have unused : a ∉ free := (List.nodup_cons.mp heap.nodup).1
  refine ⟨heap.kalloc.2.memcpy unused src, unused, (heap.page a List.mem_cons_self).1, ?_, ?_, ?_⟩
  · rintro q z short reached rfl
    exact space.used q z short reached List.mem_cons_self
  · exact Function.update_self ..
  · intro z other
    exact memcpy_word other src

namespace Fetched
variable {a src : UInt64} {rest : List UInt64} {m₁ : Memory}

theorem same (fetched : Fetched new a src m rest m₁) (q : List (Fin 512)) (z : UInt64) (short : q.length ≤ 3)
    (found : descend m.child new q = some z) : m₁.word z = m.word z :=
  fetched.other z (fetched.fresh q z (by omega) found)

theorem reach (fetched : Fetched new a src m rest m₁) {q : List (Fin 512)} (short : q.length ≤ 4) :
    descend m₁.child new q = descend m.child new q := descend_same fetched.same short

theorem leaf (fetched : Fetched new a src m rest m₁) (j : Nat) : m₁.leaf new j = m.leaf new j :=
  leaf_same fetched.same j

theorem missing (fetched : Fetched new a src m rest m₁) (j : Nat) :
    Library.missing m₁.child new (tablePath j) = Library.missing m.child new (tablePath j) := by
  rw [tablePath, missing_three, missing_three, fetched.reach (by simp), fetched.reach (by simp),
    fetched.reach (by simp)]

theorem space (fetched : Fetched new a src m rest m₁) (space : Space 4 m (a :: rest) new) : Space 4 m₁ rest new :=
  space.same (fun _ inRest => List.mem_cons_of_mem a inRest) (Nat.le_refl 4) fetched.same

theorem apart (fetched : Fetched new a src m rest m₁) {q : List (Fin 512)} (short : q.length ≤ 4) :
    descend m₁.child new q ≠ some a := by
  intro found
  rw [fetched.reach short] at found
  exact fetched.fresh q a short found rfl

end Fetched

-- The entry for the copy of a page has its flags, and refers to the new page.
def copyEntry (e a : UInt64) : UInt64 := PTE_FLAGS e ||| V2P a

theorem PTE_FLAGS_lt (e : UInt64) : (PTE_FLAGS e).toNat < 4096 := by
  rw [PTE_FLAGS_toNat]
  exact Nat.mod_lt _ (by decide)

theorem frame_copyEntry {a : UInt64} (e : UInt64) (aligned : a.toNat % 4096 = 0) : frame (copyEntry e a) = a := by
  rw [copyEntry, UInt64.or_comm, frame_entry aligned (PTE_FLAGS_lt e)]

theorem PTE_FLAGS_copyEntry {a : UInt64} (e : UInt64) (aligned : a.toNat % 4096 = 0) :
    PTE_FLAGS (copyEntry e a) = PTE_FLAGS e := by
  rw [copyEntry, UInt64.or_comm, PTE_FLAGS_entry (V2P_aligned aligned) (PTE_FLAGS_lt e)]

section
variable {a e src : UInt64} {rest taken' free' : List UInt64} {m₁ : Memory}

/-- The flags of an entry of the parent are made by `map_region`, so it makes no others for the copy. -/
theorem Copying.maps (copying : Copying start pages old new k m taken (a :: rest))
    (fetched : Fetched new a src m rest m₁) (parent : Space 3 start pages old) (isPage : i.toNat = 4096 * k)
    (small : k < 2 ^ 36) (present : start.leaf old k = some e) (enough : needed (k + 1) ≤ pages.length) :
    ∃ m' taken' free', mapRegion new i PGSIZE (V2P a) (PTE_FLAGS e) m₁ = some (0, m') ∧
      taken'.length + 1 + needed k = needed (k + 1) ∧
      Mapped 4 new k (copyEntry e a) m₁ rest m' taken' free' := by
  have count := copying.missing small
  have size : pages.length = taken.length + (a :: rest).length := by rw [copying.split, List.length_append]
  rw [copying.count, List.length_cons] at size
  have absent : m₁.leaf new k = none := (fetched.leaf k).trans (copying.others k (Nat.le_refl k) small)
  have room : Library.missing m₁.child new (tablePath k) ≤ rest.length := by
    rw [fetched.missing]
    omega
  have madeFixed : PTE_FLAGS e ||| fixed = PTE_FLAGS e := by
    obtain ⟨t, reached, isPresent, isE⟩ := leaf_some.mp present
    exact PTE_FLAGS_or_fixed (isE ▸ parent.made (tablePath k) t _ rfl reached isPresent)
  obtain ⟨m', taken', free', mapped, size', after⟩ :=
    mapRegion_page (V2P a) (PTE_FLAGS e) isPage small fetched.heap (fetched.space copying.space) (by decide)
      (Nat.le_refl 4) absent room (V2P_aligned fetched.aligned) (PTE_FLAGS_lt e) (by rw [P2V_V2P]; exact fetched.unused)
      (by
        intro _ q short
        rw [P2V_V2P]
        exact fetched.apart short)
  rw [madeFixed] at after
  rw [fetched.missing] at size'
  exact ⟨m', taken', free', mapped, by omega, after⟩

variable (copying : Copying start pages old new k m taken (a :: rest)) (fetched : Fetched new a src m rest m₁)
  (mapped : Mapped 4 new k (copyEntry e a) m₁ rest m' taken' free')
include copying fetched mapped

theorem Copying.next_inside {q : List (Fin 512)} {z : UInt64} (short : q.length ≤ 4)
    (found : descend m'.child new q = some z) : z ∈ taken ++ [a] ++ taken' := by
  rcases mapped.adds q z short found with before | ⟨isTaken, _⟩ | ⟨_, rfl⟩
  · rw [fetched.reach short] at before
    simp [copying.inside q z short before]
  · simp [isTaken]
  · rw [frame_copyEntry e fetched.aligned]
    simp

theorem Copying.next_frame {z : UInt64} (outside : z ∉ pages) : m'.word z = start.word z := by
  rw [copying.split, mapped.split] at outside
  have notTaken : z ∉ taken' := fun isTaken => outside (by simp [isTaken])
  have notNew : ∀ q, q.length ≤ 3 → descend m₁.child new q ≠ some z := by
    intro q short found
    rw [fetched.reach (by omega)] at found
    exact outside (List.mem_append_left _ (copying.inside q z (by omega) found))
  have notA : z ≠ a := fun same => outside (by simp [same])
  rw [← mapped.split, ← copying.split] at outside
  exact (mapped.frame z notTaken notNew).trans ((fetched.other z notA).trans (copying.frame z outside))

theorem Copying.next_tables : TablesBelow m' new (k + 1) := by
  refine copying.tables.next (fun q short found => ?_) (fun q short found => ?_) mapped.table
  · obtain ⟨z, found⟩ := Option.isSome_iff_exists.mp found
    rcases mapped.adds q z (by omega) found with before | ⟨_, along⟩ | ⟨rfl, _⟩
    · rw [← fetched.reach (by omega), before]
      exact .inl rfl
    · exact .inr along
    · simp [pagePath, tablePath] at short
  · obtain ⟨z, found⟩ := Option.isSome_iff_exists.mp found
    rw [mapped.keeps q z (by omega) ((fetched.reach (by omega)).trans found)]
    rfl

/-- A page that was copied before is beside the new entry, and is neither a table nor taken now. -/
theorem Copying.next_earlier {j : Nat} (earlier : j < k) (small : k < 2 ^ 36) :
    ∃ e e', start.leaf old j = some e ∧ m'.leaf new j = some e' ∧
      m'.word (Vm.frame e') = start.word (Vm.frame e) ∧ PTE_FLAGS e' = PTE_FLAGS e := by
  obtain ⟨e₀, e₁, original, copy, contents, flags⟩ := copying.copied j earlier
  have other : pagePath j ≠ pagePath k := fun same => by
    have := pagePath_inj (by omega) small same
    omega
  have kept : m₁.leaf new j = some e₁ := (fetched.leaf j).trans copy
  have node := descend_leaf copy
  have notA : Vm.frame e₁ ≠ a := fetched.fresh _ _ (by simp [tablePath]) node
  have notTaken : Vm.frame e₁ ∉ taken' := by
    intro isTaken
    have isFree : Vm.frame e₁ ∈ rest := mapped.split ▸ List.mem_append_left free' isTaken
    exact copying.space.used _ _ (by simp [tablePath]) node (List.mem_cons_of_mem a isFree)
  have notTable : ∀ q, q.length ≤ 3 → descend m₁.child new q ≠ some (Vm.frame e₁) := by
    intro q short found
    have same := (fetched.space copying.space).distinct q _ _ (by omega) (by simp [tablePath]) found (descend_leaf kept)
    rw [same] at short
    simp [tablePath] at short
  exact ⟨e₀, e₁, original, (mapped.beside j other).trans kept,
    (mapped.frame _ notTaken notTable).trans ((fetched.other _ notA).trans contents), flags⟩

theorem Copying.next_page (isSrc : src = Vm.frame e) (parent : Space 3 start pages old)
    (present : start.leaf old k = some e) : m'.word a = start.word (Vm.frame e) := by
  have notTaken : a ∉ taken' := fun isTaken => fetched.unused (mapped.split ▸ List.mem_append_left free' isTaken)
  have parentPage := copying.frame _ (parent.page_notMem present)
  rw [mapped.frame a notTaken fun q short => fetched.apart (by omega), fetched.here, isSrc, parentPage]

/-- One more page has been copied. -/
theorem Copying.next (isSrc : src = Vm.frame e) (parent : Space 3 start pages old) (small : k < 2 ^ 36)
    (present : start.leaf old k = some e) (size : taken'.length + 1 + needed k = needed (k + 1)) :
    Copying start pages old new (k + 1) m' (taken ++ [a] ++ taken') free' where
  split := by
    rw [copying.split, mapped.split]
    simp
  count := by
    rw [List.length_append, List.length_append, List.length_singleton, copying.count]
    omega
  heap := mapped.heap
  space := mapped.space
  inside _ _ short found := copying.next_inside fetched mapped short found
  frame _ outside := copying.next_frame fetched mapped outside
  tables := copying.next_tables fetched mapped
  copied j less := by
    rcases Nat.lt_succ_iff_lt_or_eq.mp less with earlier | rfl
    · exact copying.next_earlier fetched mapped earlier small
    · refine ⟨e, copyEntry e a, present, mapped.here, ?_, PTE_FLAGS_copyEntry e fetched.aligned⟩
      rw [frame_copyEntry e fetched.aligned]
      exact copying.next_page fetched mapped isSrc parent present
  others j later bound := by
    have other : pagePath j ≠ pagePath k := fun same => by
      have := pagePath_inj bound small same
      omega
    exact (mapped.beside j other).trans ((fetched.leaf j).trans (copying.others j (by omega) bound))

end

theorem Copying.turn (fuel : Nat) (copying : Copying start pages old new k m taken free)
    (parent : Space 3 start pages old) (isPage : i.toNat = 4096 * k) (small : k < 2 ^ 36) (below : i < sz)
    {e : UInt64} (present : start.leaf old k = some e) (enough : needed (k + 1) ≤ pages.length) :
    ∃ m' taken' free', copyPages old new sz (fuel + 1) i m = copyPages old new sz fuel (i + PGSIZE) m' ∧
      Copying start pages old new (k + 1) m' taken' free' := by
  have count := copying.missing small
  have size : pages.length = taken.length + free.length := by rw [copying.split, List.length_append]
  rw [copying.count] at size
  obtain ⟨a, rest, rfl⟩ : ∃ a rest, free = a :: rest := List.exists_cons_of_length_pos (by omega)
  -- the entry of the parent
  have parentSame : ∀ q z, q.length ≤ 3 → descend start.child old q = some z → m.word z = start.word z :=
    fun q z short reached => copying.frame z (parent.used q z (by omega) reached)
  have entry : m.leaf old k = some e := (leaf_same parentSame k).trans present
  obtain ⟨t, reached, isPresent, isEntry⟩ := leaf_some.mp entry
  have walked : pgdirWalk old i false m = some (some (t, Fin.ofNat 512 k), m) := by
    have isK : i.toNat / 4096 = k := by omega
    rw [pgdirWalk_read, isK, reached]
    rfl
  -- the page and the entry of the child
  have fetched := copying.space.fetch copying.heap (P2V (e >>> 12 <<< 12))
  obtain ⟨m', taken', free', maps, more, mapped⟩ :=
    copying.maps fetched parent isPage small present enough
  refine ⟨m', taken ++ [a] ++ taken', free', ?_, copying.next fetched mapped rfl parent small present more⟩
  rw [copyPages, if_pos below, walked]
  simp only [Option.bind_eq_bind, Option.bind_some]
  rw [isEntry, if_neg (isEntry ▸ isPresent), copying.heap.kalloc.1, Option.bind_some, if_neg copying.heap.head_ne_zero,
    shift_flags]
  change (mapRegion new i PGSIZE (V2P a) (PTE_FLAGS e) ((m.pop a).memcpy a (P2V (e >>> 12 <<< 12)))).bind _ = _
  rw [maps, Option.bind_some]
  exact if_neg (by simp)

theorem Copying.rest (copying : Copying start pages old new k m taken free) (parent : Space 3 start pages old)
    (isPage : i.toNat = 4096 * k) (le : k ≤ pagesBelow sz) (small : pagesBelow sz < 2 ^ 36)
    (fuelled : pagesBelow sz - k < fuel) (present : ∀ j, j < pagesBelow sz → ∃ e, start.leaf old j = some e)
    (enough : needed (pagesBelow sz) ≤ pages.length) :
    ∃ m' taken' free', copyPages old new sz fuel i m = some (new, m') ∧
      Copying start pages old new (pagesBelow sz) m' taken' free' := by
  induction fuel generalizing k i m taken free with
  | zero => omega
  | succ fuel ih =>
    by_cases more : k < pagesBelow sz
    · have below : i < sz := by
        rw [UInt64.lt_iff_toNat_lt]
        unfold pagesBelow at more
        omega
      obtain ⟨e, here⟩ := present k more
      have room : needed (k + 1) ≤ pages.length := by
        refine Nat.le_trans ?_ enough
        unfold needed
        omega
      obtain ⟨m', taken', free', turned, next⟩ := copying.turn fuel parent isPage (by omega) below here room
      have nextPage : (i + PGSIZE).toNat = 4096 * (k + 1) := by
        rw [UInt64.toNat_add, isPage]
        simp [PGSIZE]
        omega
      rw [turned]
      exact ih next nextPage more (by omega)
    · obtain rfl : k = pagesBelow sz := by omega
      have done : ¬ i < sz := by
        rw [UInt64.lt_iff_toNat_lt]
        unfold pagesBelow at isPage
        omega
      rw [copyPages, if_neg done]
      exact ⟨m, taken, free, rfl, copying⟩

theorem Copying.empty {a : UInt64} {rest : List UInt64} (heap : Free start (a :: rest)) (old : UInt64) :
    Copying start (a :: rest) old a 0 ((start.pop a).memset a) [a] rest := by
  obtain ⟨m, isM⟩ : ∃ m, m = (start.pop a).memset a := ⟨_, rfl⟩
  have aRest : a ∉ rest := (List.nodup_cons.mp heap.nodup).1
  have zero : ∀ i, m.child a i = none := by
    intro i
    rw [child_none, isM]
    simp [Memory.memset, Present]
  have reach : ∀ q z, descend m.child a q = some z → q = [] ∧ z = a := by
    intro q z reached
    cases q with
    | nil => exact ⟨rfl, (Option.some.inj reached).symm⟩
    | cons i q => simp [descend, zero] at reached
  rw [← isM]
  refine ⟨rfl, rfl, ?_, ⟨?_, ?_, ?_⟩, ?_, ?_, ?_, ?_, ?_⟩
  · exact isM ▸ heap.kalloc.2.memset aRest
  · intro p q x _ _ reachP reachQ
    rw [(reach p x reachP).1, (reach q x reachQ).1]
  · rintro p x _ reached
    rw [(reach p x reached).2]
    exact aRest
  · intro p t i long reached
    rw [(reach p t reached).1] at long
    simp at long
  · rintro q z _ reached
    rw [(reach q z reached).2]
    exact List.mem_singleton_self a
  · intro z outside
    rw [isM]
    have other : z ≠ a := fun same => outside (same ▸ List.mem_cons_self)
    exact memset_word other
  · intro q _
    constructor
    · intro found
      obtain ⟨z, found⟩ := Option.isSome_iff_exists.mp found
      exact .inl (reach q z found).1
    · rintro (rfl | ⟨j, less, _⟩)
      · rfl
      · omega
  · intro j less
    omega
  · intro j _ _
    rw [Memory.leaf, tablePath, descend, zero]
    rfl

theorem uvmCopy_copying (heap : Free m free) (parent : Space 3 m free old)
    (present : ∀ j, j < pagesBelow sz → ∃ e, m.leaf old j = some e) (enough : needed (pagesBelow sz) ≤ free.length) :
    ∃ new m' taken free', uvmCopy old sz m = some (new, m') ∧ new ≠ 0 ∧ new ∈ free ∧
      Copying m free old new (pagesBelow sz) m' taken free' ∧ pagesBelow sz < 2 ^ 36 := by
  have bound := heap.length_le
  have small : pagesBelow sz < 2 ^ 36 := by
    unfold needed at enough
    omega
  obtain ⟨a, rest, rfl⟩ : ∃ a rest, free = a :: rest :=
    List.exists_cons_of_length_pos (by unfold needed at enough; omega)
  obtain ⟨m', taken, free', copied, copying⟩ :=
    (Copying.empty heap old).rest (i := 0) parent rfl (Nat.zero_le _) small
      (show pagesBelow sz - 0 < turns by unfold turns; omega) present enough
  refine ⟨a, m', taken, free', ?_, heap.head_ne_zero, List.mem_cons_self, copying, small⟩
  rw [uvmCopy, heap.kalloc.1]
  simp only [Option.bind_eq_bind, Option.bind_some]
  rw [if_neg heap.head_ne_zero]
  exact copied

end

end Xv6.Vm
