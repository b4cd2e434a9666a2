import Xv6.Vm.Tables
import Mathlib.Algebra.Order.BigOperators.Group.Finset
import Mathlib.Order.Interval.Finset.Nat

/-! `map_region` as an update of a finite map from page numbers to entries.

A turn of the loop fills the entry of one page and links in the tables that it needs. The
tables that a range of pages needs are counted as a set of paths, so that what one turn
takes is not asked for again by the next.
-/

set_option autoImplicit false

namespace Xv6.Vm

open Library

/-- The entry that `pgdir_walk(pgdir, va, 0)` finds, 0 for a null pointer. -/
def Memory.pte (m : Memory) (pgdir va : UInt64) : UInt64 :=
  match pgdirWalk pgdir va false m with
  | some (some (t, i), _) => m.word t i
  | _ => 0

-- `ROUNDDOWN(a, PGSIZE)`
def ROUNDDOWN (a : UInt64) : UInt64 := a - a % PGSIZE

-- `ROUNDUP(a, PGSIZE)`
def ROUNDUP (a : UInt64) : UInt64 := ROUNDDOWN (a + PGSIZE - 1)

theorem ROUNDDOWN_toNat (a : UInt64) : (ROUNDDOWN a).toNat = a.toNat / 4096 * 4096 := by
  have small := a.toNat_lt
  simp only [ROUNDDOWN, PGSIZE, UInt64.toNat_sub, UInt64.toNat_mod, UInt64.reduceToNat]
  omega

theorem ROUNDUP_toNat {a : UInt64} (small : a.toNat < 2 ^ 64 - 4095) :
    (ROUNDUP a).toNat = (a.toNat + 4095) / 4096 * 4096 := by
  have sum : (a + PGSIZE - 1).toNat = a.toNat + 4095 := by
    simp only [PGSIZE, UInt64.toNat_sub, UInt64.toNat_add, UInt64.reduceToNat]
    omega
  rw [ROUNDUP, ROUNDDOWN_toNat, sum]

theorem shift_ROUNDDOWN (a : UInt64) : a >>> 12 <<< 12 = ROUNDDOWN a := by
  apply UInt64.toNat_inj.mp
  rw [ROUNDDOWN_toNat]
  have small := a.toNat_lt
  simp only [UInt64.toNat_shiftLeft, UInt64.toNat_shiftRight, UInt64.reduceToNat, Nat.shiftRight_eq_div_pow,
    Nat.shiftLeft_eq]
  norm_num
  omega

section
variable {all : Bool} {m m' m₁ m₂ : Memory} {root : UInt64} {pages pages' pages₁ taken : List UInt64} {n lo hi : Nat}

theorem pte_entry (m : Memory) (root va : UInt64) : m.pte root va = m.entry root (va.toNat / 4096) := by
  rw [Memory.pte, pgdirWalk_read]
  cases reached : descend m.child root (tablePath (va.toNat / 4096)) with
  | none => rw [entry_none reached, Option.map_none]
  | some t => rw [entry_some reached, Option.map_some]

theorem pgdirIwalk_entry (root va : UInt64) (m : Memory) :
    pgdirIwalk root va m = some (ROUNDDOWN (m.entry root (va.toNat / 4096))) := by
  rw [pgdirIwalk, pgdirWalk_read]
  cases reached : descend m.child root (tablePath (va.toNat / 4096)) with
  | none => rw [entry_none reached]; rfl
  | some t =>
    rw [entry_some reached, ← shift_ROUNDDOWN]
    rfl

/-! ## The tables of a range -/

def tablesOf (n : Nat) : Finset (List (Fin 512)) := {(tablePath n).take 1, (tablePath n).take 2, tablePath n}

theorem mem_tablesOf {q : List (Fin 512)} (member : q ∈ tablesOf n) : q <+: tablePath n ∧ q.length ≤ 3 := by
  simp only [tablesOf, Finset.mem_insert, Finset.mem_singleton] at member
  rcases member with rfl | rfl | rfl
  · exact ⟨List.take_prefix .., by simp⟩
  · exact ⟨List.take_prefix .., by simp⟩
  · exact ⟨List.prefix_rfl, Nat.le_refl 3⟩

def wanting (m : Memory) (root : UInt64) (lo hi : Nat) : Finset (List (Fin 512)) :=
  ((Finset.Ico lo hi).biUnion tablesOf).filter fun q => descend m.child root q = none

theorem mem_wanting {q : List (Fin 512)} :
    q ∈ wanting m root lo hi ↔ (∃ n, (lo ≤ n ∧ n < hi) ∧ q ∈ tablesOf n) ∧ descend m.child root q = none := by
  simp [wanting]

theorem wanting_page (m : Memory) (root : UInt64) (n : Nat) :
    (wanting m root n (n + 1)).card = missing m.child root (tablePath n) := by
  have only : wanting m root n (n + 1) = (tablesOf n).filter fun q => descend m.child root q = none := by
    ext q
    rw [mem_wanting, Finset.mem_filter]
    constructor
    · rintro ⟨⟨k, ⟨low, high⟩, member⟩, absent⟩
      obtain rfl : k = n := by omega
      exact ⟨member, absent⟩
    · rintro ⟨member, absent⟩
      exact ⟨⟨n, ⟨le_rfl, Nat.lt_succ_self n⟩, member⟩, absent⟩
  rw [only]
  obtain ⟨x, y, z, isPath⟩ : ∃ x y z, tablePath n = [x, y, z] := ⟨_, _, _, rfl⟩
  simp only [tablesOf, isPath, List.take_succ_cons, List.take_zero]
  cases first : m.child root x with
  | none => simp [Finset.filter_insert, Finset.filter_singleton, missing, descend, first]
  | some a =>
    cases second : m.child a y with
    | none => simp [Finset.filter_insert, Finset.filter_singleton, missing, descend, first, second]
    | some b => cases third : m.child b z <;>
        simp [Finset.filter_insert, Finset.filter_singleton, missing, descend, first, second, third]

theorem wanting_le (m : Memory) (root : UInt64) (lo hi : Nat) : (wanting m root lo hi).card ≤ 3 * (hi - lo) := by
  have each := Finset.card_biUnion_le_card_mul (Finset.Ico lo hi) tablesOf 3 fun n _ => Finset.card_le_three
  rw [Nat.card_Ico, Nat.mul_comm] at each
  exact (Finset.card_filter_le _ _).trans each

/-- What is linked in for the first page is not wanting for the others any more. -/
theorem wanting_next (less : n < hi) (keeps : ∀ p z, p.length ≤ 3 → descend m.child root p = some z →
      descend m'.child root p = some z) (table : (descend m'.child root (tablePath n)).isSome) :
    missing m.child root (tablePath n) + (wanting m' root (n + 1) hi).card ≤ (wanting m root n hi).card := by
  rw [← wanting_page]
  have disjoint : Disjoint (wanting m root n (n + 1)) (wanting m' root (n + 1) hi) := by
    rw [Finset.disjoint_left]
    intro q here later
    obtain ⟨⟨k, ⟨low, high⟩, member⟩, _⟩ := mem_wanting.mp here
    obtain rfl : k = n := by omega
    obtain ⟨⟨tail, isPath⟩, _⟩ := mem_tablesOf member
    have absent := (mem_wanting.mp later).2
    rw [← isPath, descend_append, absent] at table
    simp at table
  rw [← Finset.card_union_of_disjoint disjoint]
  refine Finset.card_le_card fun q member => ?_
  rcases Finset.mem_union.mp member with here | later
  · obtain ⟨⟨k, ⟨low, high⟩, inTables⟩, absent⟩ := mem_wanting.mp here
    exact mem_wanting.mpr ⟨⟨k, ⟨low, by omega⟩, inTables⟩, absent⟩
  · obtain ⟨⟨k, ⟨low, high⟩, inTables⟩, absent⟩ := mem_wanting.mp later
    refine mem_wanting.mpr ⟨⟨k, ⟨by omega, high⟩, inTables⟩, ?_⟩
    cases before : descend m.child root q with
    | none => rfl
    | some z =>
      have after := keeps q z (mem_tablesOf inTables).2 before
      rw [absent] at after
      simp at after

/-! ## One turn -/

structure Entry (all : Bool) (root : UInt64) (n : Nat) (e : UInt64) (m : Memory) (pages : List UInt64) (m' : Memory)
    (taken pages' : List UInt64) : Prop where
  split : pages = taken ++ pages'
  supply : Supply m' all pages'
  tables : Tables m' pages' root
  keeps : ∀ p z, p.length ≤ 3 → descend m.child root p = some z → descend m'.child root p = some z
  adds : ∀ p z, p.length ≤ 3 → descend m'.child root p = some z →
    descend m.child root p = some z ∨ (z ∈ taken ∧ p <+: tablePath n)
  table : (descend m'.child root (tablePath n)).isSome
  here : m'.entry root n = e
  beside : ∀ k, pagePath k ≠ pagePath n → m'.entry root k = m.entry root k
  frame : ∀ z, z ∉ taken → (∀ p, p.length ≤ 3 → descend m.child root p ≠ some z) → m'.word z = m.word z

theorem Entry.of_filled {e : UInt64} (tables : Tables m pages root)
    (extended : Extended all root (tablePath n) m pages m₁ taken pages₁) {t : UInt64}
    (reached : descend m₁.child root (tablePath n) = some t) (filled : Filled all root n e m₁ m' pages₁) :
    Entry all root n e m pages m' taken pages₁ where
  split := extended.split
  supply := filled.supply
  tables := filled.tables
  keeps p z short found := (filled.same p short).trans (extended.keeps p z short found)
  adds p z short found := by
    rcases extended.adds p z short ((filled.same p short).symm.trans found) with old | ⟨_, isTaken, along⟩
    · exact .inl old
    · exact .inr ⟨isTaken, along⟩
  table := by
    rw [filled.same (tablePath n) (Nat.le_refl 3), reached]
    rfl
  here := filled.here
  beside k other := (filled.beside k other).trans (extended.entry tables k)
  frame z notTaken outside := by
    refine (filled.frame z fun isTable => ?_).trans (extended.frame z notTaken fun p short => outside p (by omega))
    rcases extended.adds (tablePath n) z (Nat.le_refl 3) isTable with old | ⟨_, isTaken, _⟩
    · exact outside (tablePath n) (Nat.le_refl 3) old
    · exact notTaken isTaken

/-- A turn of the loop of `map_region`: it hangs when the supply ends, fails on an entry that
is present, or enters the page. -/
theorem mapPages_turn {vaend : UInt64} (tail : UInt64) {v : UInt64} (pa : UInt64) (fuel : Nat)
    (isPage : v.toNat / 4096 = n) (below : v < vaend)
    (supply : Supply m all pages) (tables : Tables m pages root) :
    (pages.length < missing m.child root (tablePath n) ∧
      (all = true → mapPages root vaend tail (fuel + 1) v pa m = none)) ∨
    (Present (m.entry root n) ∧ ∃ m' pages', mapPages root vaend tail (fuel + 1) v pa m = some (-1, m') ∧
      Extended all root (tablePath n) m pages m' [] pages') ∨
    (¬ Present (m.entry root n) ∧ ∃ m' taken pages',
      mapPages root vaend tail (fuel + 1) v pa m = mapPages root vaend tail fuel (v + PGSIZE) (pa + PGSIZE) m' ∧
      taken.length = missing m.child root (tablePath n) ∧
      Entry all root n (tail ||| ROUNDDOWN pa) m pages m' taken pages') := by
  have three : (tablePath n).length = 3 := rfl
  rcases pgdirWalk_extends isPage supply tables with
    ⟨short, stuck⟩ | ⟨t, m₁, taken, pages₁, walked, extended, reached, size⟩
  · left
    refine ⟨short, fun whole => ?_⟩
    rw [mapPages, if_pos below, stuck whole]
    rfl
  · right
    have entry : m₁.word t (Fin.ofNat 512 n) = m.entry root n := by
      rw [← extended.entry tables, entry_some reached]
    by_cases present : Present (m.entry root n)
    · left
      -- the table of the entry was there, so none has been taken
      have none_taken : taken = [] := by
        have found : descend m.child root (tablePath n) = some t := by
          rcases extended.adds _ t (by omega) reached with old | ⟨absent, _, _⟩
          · exact old
          · rw [entry_none absent] at present
            exact absurd present not_present_zero
        rw [missing_of_reached found] at size
        exact List.eq_nil_of_length_eq_zero size
      subst none_taken
      refine ⟨present, m₁, pages₁, ?_, extended⟩
      rw [mapPages, if_pos below, walked]
      simp only [Option.bind_eq_bind, Option.bind_some]
      rw [if_pos (show m₁.word t (Fin.ofNat 512 n) &&& PTE_P ≠ 0 from entry ▸ present)]
    · right
      refine ⟨present, m₁.store t (Fin.ofNat 512 n) (tail ||| ROUNDDOWN pa), taken, pages₁, ?_, size, ?_⟩
      · rw [mapPages, if_pos below, walked]
        simp only [Option.bind_eq_bind, Option.bind_some]
        rw [if_neg (show ¬ (m₁.word t (Fin.ofNat 512 n) &&& PTE_P ≠ 0) from entry ▸ present), shift_ROUNDDOWN]
      · exact Entry.of_filled tables extended reached (filled extended.supply extended.tables reached _)

/-! ## The loop -/

/-- The entries of the pages from `lo` on below `hi` are as `entryOf` says, and all others are
as they were. -/
structure Region (root : UInt64) (lo hi : Nat) (entryOf : Nat → UInt64) (m m' : Memory) : Prop where
  keeps : ∀ p z, p.length ≤ 3 → descend m.child root p = some z → descend m'.child root p = some z
  table : ∀ k, lo ≤ k → k < hi → (descend m'.child root (tablePath k)).isSome
  inside : ∀ k, lo ≤ k → k < hi → m'.entry root k = entryOf k
  outside : ∀ k, k < 2 ^ 36 → ¬ (lo ≤ k ∧ k < hi) → m'.entry root k = m.entry root k

def entryFrom (tail pa : UInt64) (n k : Nat) : UInt64 := tail ||| ROUNDDOWN (pa + UInt64.ofNat (4096 * (k - n)))

theorem entryFrom_next (tail pa : UInt64) {n k : Nat} (later : n < k) :
    entryFrom tail (pa + PGSIZE) (n + 1) k = entryFrom tail pa n k := by
  have split : 4096 * (k - n) = 4096 + 4096 * (k - (n + 1)) := by omega
  rw [entryFrom, entryFrom, split, UInt64.ofNat_add, ← UInt64.add_assoc]
  rfl

theorem mapPages_run {vaend : UInt64} (tail : UInt64) {v : UInt64} (pa : UInt64) (fuel : Nat)
    (isPage : v.toNat = 4096 * n) (le : n ≤ hi)
    (isEnd : hi = (vaend.toNat + 4095) / 4096) (small : vaend.toNat ≤ 2 ^ 48) (fuelled : hi - n < fuel)
    (supply : Supply m false pages) (tables : Tables m pages root)
    (enough : ∀ f, n ≤ f → f ≤ hi → (∀ k, n ≤ k → k < f → ¬ Present (m.entry root k)) →
      (wanting m root n f).card ≤ pages.length) :
    ∃ r m' pages', mapPages root vaend tail fuel v pa m = some (r, m') ∧ Tables m' pages' root ∧
      ((r = 0 ∧ (∀ k, n ≤ k → k < hi → ¬ Present (m.entry root k)) ∧ Region root n hi (entryFrom tail pa n) m m') ∨
        (r = -1 ∧ ∃ k, n ≤ k ∧ k < hi ∧ Present (m.entry root k))) := by
  induction fuel generalizing n v pa m pages with
  | zero => omega
  | succ fuel ih =>
    by_cases more : n < hi
    · have below : v < vaend := by
        rw [UInt64.lt_iff_toNat_lt]
        omega
      rcases mapPages_turn tail pa fuel (show v.toNat / 4096 = n by omega) below supply tables with
        ⟨short, _⟩ | ⟨present, m', pages', turned, extended⟩ | ⟨absent, m₁, taken, pages₁, turned, size, entered⟩
      · have first := enough n le_rfl le fun k low high => absurd high (by omega)
        by_cases absent : Present (m.entry root n)
        · -- the table of an entry that is present is there
          have nothing : missing m.child root (tablePath n) = 0 := by
            cases reached : descend m.child root (tablePath n) with
            | none =>
              rw [entry_none reached] at absent
              exact absurd absent not_present_zero
            | some t => exact missing_of_reached reached
          omega
        · have room := enough (n + 1) (by omega) more fun k low high => by
            obtain rfl : k = n := by omega
            exact absent
          rw [wanting_page] at room
          omega
      · exact ⟨-1, m', pages', turned, extended.tables, .inr ⟨rfl, n, le_rfl, more, present⟩⟩
      · have next : (v + PGSIZE).toNat = 4096 * (n + 1) := by
          rw [UInt64.toNat_add, isPage]
          simp only [PGSIZE, UInt64.reduceToNat]
          omega
        have apart : ∀ k, n + 1 ≤ k → k < hi → m₁.entry root k = m.entry root k := by
          intro k low high
          refine entered.beside k fun same => ?_
          have := pagePath_inj (by omega) (by omega) same
          omega
        have enough₁ : ∀ f, n + 1 ≤ f → f ≤ hi → (∀ k, n + 1 ≤ k → k < f → ¬ Present (m₁.entry root k)) →
            (wanting m₁ root (n + 1) f).card ≤ pages₁.length := by
          intro f low high none_present
          have count := wanting_next (show n < f by omega) entered.keeps entered.table
          have room := enough f (by omega) high fun k low' high' => by
            rcases Nat.eq_or_lt_of_le low' with rfl | later
            · exact absent
            · rw [← apart k later (by omega)]
              exact none_present k later high'
          have total := congrArg List.length entered.split
          rw [List.length_append] at total
          omega
        obtain ⟨r, m', pages', ran, tables', result⟩ :=
          ih (pa + PGSIZE) next more (by omega) entered.supply entered.tables enough₁
        refine ⟨r, m', pages', turned.trans ran, tables', ?_⟩
        rcases result with ⟨rfl, none_present, region⟩ | ⟨rfl, k, low, high, present⟩
        · left
          refine ⟨rfl, fun k low high => ?_, ?_, ?_, ?_, ?_⟩
          · rcases Nat.eq_or_lt_of_le low with rfl | later
            · exact absent
            · rw [← apart k later high]
              exact none_present k later high
          · exact fun p z short found => region.keeps p z short (entered.keeps p z short found)
          · intro k low high
            rcases Nat.eq_or_lt_of_le low with rfl | later
            · obtain ⟨t, reached⟩ := Option.isSome_iff_exists.mp entered.table
              rw [region.keeps (tablePath n) t (Nat.le_refl 3) reached]
              rfl
            · exact region.table k later high
          · intro k low high
            rcases Nat.eq_or_lt_of_le low with rfl | later
            · rw [region.outside n (by omega) (by omega), entered.here, entryFrom, Nat.sub_self]
              simp
            · rw [region.inside k later high, entryFrom_next tail pa later]
          · intro k bound other
            rw [region.outside k bound fun inside => other ⟨by omega, inside.2⟩]
            refine entered.beside k fun same => other ?_
            have isPage := pagePath_inj bound (by omega) same
            omega
        · exact .inr ⟨rfl, k, by omega, high, apart k low high ▸ present⟩
    · obtain rfl : n = hi := by omega
      have done : ¬ v < vaend := by
        rw [UInt64.lt_iff_toNat_lt]
        omega
      refine ⟨0, m, pages, ?_, tables, .inl ⟨rfl, fun k low high => absurd high (by omega), ?_⟩⟩
      · rw [mapPages, if_neg done]
      · exact ⟨fun _ _ _ found => found, fun k low high => absurd high (by omega),
          fun k low high => absurd high (by omega), fun _ _ _ => rfl⟩

/-! ## The map -/

-- A page of `[ROUNDDOWN(va), va + size)`.
def InRegion (va size v : UInt64) : Prop :=
  v % PGSIZE = 0 ∧ ROUNDDOWN va ≤ v ∧ v.toNat < va.toNat + size.toNat

/-- The allocator has a page for each table that is missing for the pages from `lo` on, up to the
first one below `hi` that has an entry. -/
def Provided (m : Memory) (root : UInt64) (free : List UInt64) (lo hi : Nat) : Prop :=
  ∀ f, lo ≤ f → f ≤ hi → (∀ k, lo ≤ k → k < f → ¬ Present (m.entry root k)) → (wanting m root lo f).card ≤ free.length

-- The physical address that `map_region` gives to page `v`.
def target (va pa v : UInt64) : UInt64 := ROUNDDOWN (pa + (v - ROUNDDOWN va))

/-- The table after `map_region(pgdir, va, size, pa, perm)` has returned 0. -/
structure MapsRegion (root va size pa perm : UInt64) (m m' : Memory) : Prop where
  entries : ∀ v, InRegion va size v → ∃ t i, pgdirWalk root v false m' = some (some (t, i), m') ∧
    m'.word t i = target va pa v ||| (perm ||| fixed)
  flags : ∀ v, InRegion va size v → PTE_FLAGS (m'.pte root v) = perm ||| fixed
  addresses : ∀ v, InRegion va size v → pgdirIwalk root v m' = some (target va pa v)
  others : ∀ v : UInt64, v.toNat < 2 ^ 48 → ¬ InRegion va size (ROUNDDOWN v) → m'.pte root v = m.pte root v ∧
    ∀ place, pgdirWalk root v false m = some (some place, m) → pgdirWalk root v false m' = some (some place, m')

theorem pgdirWalk_place {va t : UInt64} {i : Fin 512} : pgdirWalk root va false m = some (some (t, i), m) ↔
    descend m.child root (tablePath (va.toNat / 4096)) = some t ∧ Fin.ofNat 512 (va.toNat / 4096) = i := by
  rw [pgdirWalk_read]
  simp

theorem inRegion_iff {va size v : UInt64} (aligned : v % PGSIZE = 0) :
    InRegion va size v ↔ va.toNat / 4096 ≤ v.toNat / 4096 ∧
    v.toNat / 4096 < (va.toNat + size.toNat + 4095) / 4096 := by
  have isPage := congrArg UInt64.toNat aligned
  simp only [PGSIZE, UInt64.toNat_mod, UInt64.reduceToNat] at isPage
  rw [InRegion, UInt64.le_iff_toNat_le, ROUNDDOWN_toNat]
  constructor
  · rintro ⟨_, low, high⟩
    omega
  · rintro ⟨low, high⟩
    exact ⟨aligned, by omega, by omega⟩

theorem ROUNDDOWN_page (v : UInt64) : ROUNDDOWN v % PGSIZE = 0 ∧ (ROUNDDOWN v).toNat / 4096 = v.toNat / 4096 := by
  constructor
  · apply UInt64.toNat_inj.mp
    rw [UInt64.toNat_mod, ROUNDDOWN_toNat]
    simp [PGSIZE]
  · rw [ROUNDDOWN_toNat]
    omega

theorem target_page {va pa v : UInt64} (aligned : v % PGSIZE = 0) (start : ROUNDDOWN va ≤ v) :
    pa + UInt64.ofNat (4096 * (v.toNat / 4096 - va.toNat / 4096)) = pa + (v - ROUNDDOWN va) := by
  have isPage := congrArg UInt64.toNat aligned
  simp only [PGSIZE, UInt64.toNat_mod, UInt64.reduceToNat] at isPage
  have distance : UInt64.ofNat (4096 * (v.toNat / 4096 - va.toNat / 4096)) = v - ROUNDDOWN va := by
    apply UInt64.toNat_inj.mp
    rw [UInt64.toNat_sub_of_le _ _ start, ROUNDDOWN_toNat, UInt64.toNat_ofNat']
    have small := v.toNat_lt
    omega
  rw [distance]

theorem Region.maps {va size pa perm : UInt64} (low : perm.toNat < 2 ^ 12)
    (region : Region root (va.toNat / 4096) ((va.toNat + size.toNat + 4095) / 4096)
      (entryFrom (perm ||| fixed) pa (va.toNat / 4096)) m m') : MapsRegion root va size pa perm m m' := by
  have flagsLow : (perm ||| fixed).toNat < 4096 := by
    rw [UInt64.toNat_or]
    exact Nat.or_lt_two_pow (n := 12) low (by decide)
  have aligned : ∀ v, (target va pa v).toNat % 4096 = 0 := by
    intro v
    rw [target, ROUNDDOWN_toNat]
    omega
  have value : ∀ v, InRegion va size v → m'.entry root (v.toNat / 4096) = target va pa v ||| (perm ||| fixed) := by
    intro v inside
    obtain ⟨first, last⟩ := (inRegion_iff inside.1).mp inside
    rw [region.inside _ first last, entryFrom, target_page inside.1 inside.2.1, UInt64.or_comm]
    rfl
  refine ⟨?_, ?_, ?_, ?_⟩
  · intro v inside
    obtain ⟨first, last⟩ := (inRegion_iff inside.1).mp inside
    obtain ⟨t, reached⟩ := Option.isSome_iff_exists.mp (region.table _ first last)
    refine ⟨t, Fin.ofNat 512 (v.toNat / 4096), pgdirWalk_place.mpr ⟨reached, rfl⟩, ?_⟩
    rw [← entry_some reached, value v inside]
  · intro v inside
    rw [pte_entry, value v inside]
    exact PTE_FLAGS_entry (aligned v) flagsLow
  · intro v inside
    rw [pgdirIwalk_entry, value v inside, ← shift_ROUNDDOWN, or_shift (aligned v) flagsLow]
  · intro v small other
    obtain ⟨isPage, samePage⟩ := ROUNDDOWN_page v
    rw [inRegion_iff isPage, samePage] at other
    refine ⟨?_, ?_⟩
    · rw [pte_entry, pte_entry]
      exact region.outside _ (by omega) other
    · rintro ⟨t, i⟩ walked
      obtain ⟨reached, index⟩ := pgdirWalk_place.mp walked
      exact pgdirWalk_place.mpr ⟨region.keeps (tablePath _) t (Nat.le_refl 3) reached, index⟩

theorem Tables.apart (tables : Tables m pages root) {v v' : UInt64} (small : v.toNat < 2 ^ 48)
    (small' : v'.toNat < 2 ^ 48) (other : ROUNDDOWN v ≠ ROUNDDOWN v') (place : UInt64 × Fin 512)
    (walked : pgdirWalk root v false m = some (some place, m)) :
    pgdirWalk root v' false m ≠ some (some place, m) := by
  intro walked'
  obtain ⟨reached, index⟩ := pgdirWalk_place.mp walked
  obtain ⟨reached', index'⟩ := pgdirWalk_place.mp walked'
  have three : ∀ k, (tablePath k).length ≤ 3 := fun _ => Nat.le_refl 3
  have paths := tables.distinct _ _ _ (three _) (three _) reached reached'
  have same := pagePath_inj (k := v.toNat / 4096) (n := v'.toNat / 4096) (by omega) (by omega)
    (by rw [pagePath, pagePath, paths, index, index'])
  exact other (UInt64.toNat_inj.mp (by rw [ROUNDDOWN_toNat, ROUNDDOWN_toNat, same]))

/-- `map_region` succeeds exactly when no page of the region has an entry, and is then the
update of the map from pages to entries at the pages of the region. -/
theorem mapRegion_updates {free : List UInt64} {va size pa perm : UInt64} (heap : Free m free)
    (tables : Tables m free root) (range : va.toNat + size.toNat ≤ 2 ^ 48)
    (low : perm.toNat < 2 ^ 12)
    (provided : Provided m root free (va.toNat / 4096) ((va.toNat + size.toNat + 4095) / 4096)) :
    ∃ r m', mapRegion root va size pa perm m = some (r, m') ∧
      (r = 0 ↔ ∀ v, InRegion va size v → ¬ Present (m.pte root v)) ∧
      (r = 0 → MapsRegion root va size pa perm m m') ∧
      ∀ v v' : UInt64, v.toNat < 2 ^ 48 → v'.toNat < 2 ^ 48 → ROUNDDOWN v ≠ ROUNDDOWN v' → ∀ place,
        pgdirWalk root v false m' = some (some place, m') → pgdirWalk root v' false m' ≠ some (some place, m') := by
  have end_ : (va + size).toNat = va.toNat + size.toNat := by
    rw [UInt64.toNat_add]
    omega
  have start : (ROUNDDOWN va).toNat = 4096 * (va.toNat / 4096) := by
    rw [ROUNDDOWN_toNat, Nat.mul_comm]
  have tail : perm ||| PTE_P ||| PTE_TABLE ||| PTE_AF ||| PTE_NORMAL ||| PTE_USER ||| PTE_SH = perm ||| fixed := by
    simp only [fixed, UInt64.or_assoc]
  obtain ⟨r, m', pages', ran, tables', result⟩ := mapPages_run (perm ||| fixed) pa turns start
    (show va.toNat / 4096 ≤ (va.toNat + size.toNat + 4095) / 4096 by omega)
    (show _ = ((va + size).toNat + 4095) / 4096 by rw [end_]) (by rw [end_]; exact range)
    (by unfold turns; omega) (.free heap) tables provided
  have absent_iff : (∀ v, InRegion va size v → ¬ Present (m.pte root v)) ↔ ∀ k, va.toNat / 4096 ≤ k →
      k < (va.toNat + size.toNat + 4095) / 4096 → ¬ Present (m.entry root k) := by
    constructor
    · intro none_present k first last
      have isPage : (UInt64.ofNat (4096 * k)).toNat = 4096 * k := by
        rw [UInt64.toNat_ofNat']
        omega
      have aligned : UInt64.ofNat (4096 * k) % PGSIZE = 0 := by
        apply UInt64.toNat_inj.mp
        rw [UInt64.toNat_mod, isPage]
        simp [PGSIZE]
      have number : (UInt64.ofNat (4096 * k)).toNat / 4096 = k := by omega
      have inside : InRegion va size (UInt64.ofNat (4096 * k)) :=
        (inRegion_iff aligned).mpr (by rw [number]; exact ⟨first, last⟩)
      have absent := none_present _ inside
      rwa [pte_entry, number] at absent
    · intro none_present v inside
      obtain ⟨first, last⟩ := (inRegion_iff inside.1).mp inside
      rw [pte_entry]
      exact none_present _ first last
  refine ⟨r, m', ?_, ?_, ?_, fun v v' small small' => tables'.apart small small'⟩
  · rw [mapRegion, tail]
    exact ran
  · rw [absent_iff]
    rcases result with ⟨rfl, none_present, _⟩ | ⟨rfl, k, first, last, present⟩
    · exact iff_of_true rfl none_present
    · exact iff_of_false (by decide) fun none_present => none_present k first last present
  · rintro rfl
    rcases result with ⟨_, _, region⟩ | ⟨failed, _⟩
    · exact region.maps low
    · exact absurd failed (by decide)

def onePageTaken : Memory := (tenPages.pop (P2V 0x100000)).memset (P2V 0x100000)

theorem free_onePageTaken : Free onePageTaken tenAddresses.tail :=
  free_tenPages.kalloc.2.memset (by decide)

theorem onePageTaken_zero (i : Fin 512) : onePageTaken.word (P2V 0x100000) i = 0 := by
  simp [onePageTaken, Memory.memset]

/-- Part of a page and the beginning of the next one, which have different tables. -/
theorem mapRegion_updates_pages : ∃ m', mapRegion (P2V 0x100000) 0x1ff800 0xf00 0x7123 0 onePageTaken = some (0, m') ∧
    MapsRegion (P2V 0x100000) 0x1ff800 0xf00 0x7123 0 onePageTaken m' := by
  obtain ⟨r, m', ran, success, maps, _⟩ := @mapRegion_updates onePageTaken
    (P2V 0x100000) tenAddresses.tail 0x1ff800 0xf00 0x7123 0
    free_onePageTaken (Tables.zero onePageTaken_zero (by decide)) (by decide) (by decide) (by
      intro f low high _
      refine (wanting_le _ _ _ _).trans ?_
      have bound : f ≤ 513 := high
      have start : (0x1ff800 : UInt64).toNat / 4096 = 511 := rfl
      have length : tenAddresses.tail.length = 9 := rfl
      omega)
  obtain rfl : r = 0 := success.mpr fun v _ => by
    rw [pte_entry, entry_zero onePageTaken_zero]
    exact not_present_zero
  exact ⟨m', ran, maps rfl⟩

end

end Xv6.Vm
