import Xv6.Vm.Regions

/-! `uvm_alloc`: fresh pages at the end of an address space.

A turn of the loop takes a page, clears it and maps it. The only failures are a null
pointer for the page and an entry that is present; a null pointer for a table goes
unnoticed, and is then the last result of `kalloc`.
-/

set_option autoImplicit false

namespace Xv6.Vm

open Library

def PTE_RW : UInt64 := (0 : UInt64) <<< 7

-- The loop of `uvm_alloc` from page `a`.
def allocPages (pgdir newsz : UInt64) : Nat → UInt64 → Memory → Option (Int64 × Memory)
  | 0, _, _ => none
  | n + 1, a, m =>
    if a < newsz then do
      let (pgnew, m) ← kalloc m
      if pgnew = 0 then some (0, m)
      else do
        let (failed, m) ← mapRegion pgdir a PGSIZE (V2P pgnew) (PTE_USER ||| PTE_RW) (m.memset pgnew)
        if failed < 0 then some (0, m) else allocPages pgdir newsz n (a + PGSIZE) m
    else some (newsz.toInt64, m)

/-- `newsz` is returned even where it is less than `oldsz`. Nothing is undone after a failure. -/
def uvmAlloc (pgdir oldsz newsz : UInt64) (m : Memory) : Option (Int64 × Memory) :=
  allocPages pgdir newsz turns (ROUNDUP oldsz) m

-- The entry that `uvm_alloc` makes for a page.
def userEntry (page : UInt64) : UInt64 := (PTE_USER ||| PTE_RW ||| fixed) ||| ROUNDDOWN (V2P page)

theorem userEntry_present (page : UInt64) : Present (userEntry page) := by
  rw [userEntry, UInt64.or_comm]
  exact present_or _ (by decide)

theorem ROUNDDOWN_aligned {a : UInt64} (aligned : a.toNat % 4096 = 0) : ROUNDDOWN a = a := by
  apply UInt64.toNat_inj.mp
  rw [ROUNDDOWN_toNat]
  omega

theorem frame_userEntry {page : UInt64} (aligned : page.toNat % 4096 = 0) : frame (userEntry page) = page := by
  rw [userEntry, ROUNDDOWN_aligned (V2P_aligned aligned), UInt64.or_comm, frame_entry aligned (by decide)]

section
variable {all : Bool} {m m₁ : Memory} {root : UInt64} {pages rest : List UInt64} {n : Nat}

theorem Tables.memset {page : UInt64} (tables : Tables m (page :: rest) root) (words : m₁.word = m.word) :
    Tables (m₁.memset page) rest root ∧
      (∀ p, p.length ≤ 3 → descend (m₁.memset page).child root p = descend m.child root p) ∧
      ∀ k, (m₁.memset page).entry root k = m.entry root k := by
  have other : ∀ p z, p.length ≤ 3 → descend m.child root p = some z → (m₁.memset page).word z = m.word z := by
    intro p z short found
    have isOther : z ≠ page := fun same => tables.used p z short found (same ▸ List.mem_cons_self)
    rw [memset_word isOther, words]
  have same : ∀ p, p.length ≤ 3 → descend (m₁.memset page).child root p = descend m.child root p := by
    intro p short
    refine descend_congr (d := 3) (fun q z i shorter found => child_congr ?_) short
    rw [other q z (by omega) found]
  refine ⟨⟨?_, ?_⟩, same, ?_⟩
  · intro p q z shortP shortQ foundP foundQ
    rw [same p shortP] at foundP
    rw [same q shortQ] at foundQ
    exact tables.distinct p q z shortP shortQ foundP foundQ
  · intro p z short found
    rw [same p short] at found
    exact fun inRest => tables.used p z short found (List.mem_cons_of_mem page inRest)
  · intro k
    have three : (tablePath k).length = 3 := rfl
    cases reached : descend m.child root (tablePath k) with
    | none => rw [entry_none reached, entry_none ((same _ (by omega)).trans reached)]
    | some t => rw [entry_some reached, entry_some ((same _ (by omega)).trans reached), other _ t (by omega) reached]

theorem mapRegion_one {va : UInt64} (pa perm : UInt64) (isPage : va.toNat = 4096 * n)
    (small : va.toNat < 2 ^ 64 - 4096) (supply : Supply m all pages) (tables : Tables m pages root) :
    (pages.length < missing m.child root (tablePath n) ∧ (all = true → mapRegion root va PGSIZE pa perm m = none)) ∨
    (Present (m.entry root n) ∧ ∃ m' pages', mapRegion root va PGSIZE pa perm m = some (-1, m') ∧
      Extended all root (tablePath n) m pages m' [] pages') ∨
    (¬ Present (m.entry root n) ∧ ∃ m' taken pages', mapRegion root va PGSIZE pa perm m = some (0, m') ∧
      taken.length = missing m.child root (tablePath n) ∧
      Entry all root n ((perm ||| fixed) ||| ROUNDDOWN pa) m pages m' taken pages') := by
  have start : ROUNDDOWN va = va := ROUNDDOWN_aligned (by omega)
  have tail : perm ||| PTE_P ||| PTE_TABLE ||| PTE_AF ||| PTE_NORMAL ||| PTE_USER ||| PTE_SH = perm ||| fixed := by
    simp only [fixed, UInt64.or_assoc]
  have first : va < va + PGSIZE := by
    rw [UInt64.lt_iff_toNat_lt, UInt64.toNat_add]
    simp only [PGSIZE, UInt64.reduceToNat]
    omega
  obtain ⟨fuel, isTurns⟩ : ∃ fuel, turns = fuel + 2 := ⟨2 ^ 52 - 1, rfl⟩
  have called : mapRegion root va PGSIZE pa perm m = mapPages root (va + PGSIZE) (perm ||| fixed)
    (fuel + 2) va pa m := by
    rw [mapRegion, tail, isTurns]
    exact congrArg (fun v => mapPages root (va + PGSIZE) (perm ||| fixed) (fuel + 2) v pa m) start
  rw [called]
  rcases mapPages_turn (perm ||| fixed) pa (fuel + 1) (show va.toNat / 4096 = n by omega) first supply tables with
    ⟨short, stuck⟩ | failed | ⟨absent, m', taken, pages', turned, size, entered⟩
  · exact .inl ⟨short, stuck⟩
  · exact .inr (.inl failed)
  · refine .inr (.inr ⟨absent, m', taken, pages', turned.trans ?_, size, entered⟩)
    rw [mapPages, if_neg (by simp)]

-- A turn of `uvm_alloc`.
inductive AllocTurn (all : Bool) (root : UInt64) (n : Nat) (m : Memory) (pages : List UInt64) :
    Option (Int64 × Memory) → (Memory → Option (Int64 × Memory)) → Prop where
  /-- there is no page, or the supply ends in the middle of a turn -/
  | stuck {next : Memory → Option (Int64 × Memory)} (short : pages.length ≤ missing m.child root (tablePath n)) :
    AllocTurn all root n m pages none next
  | null {m' : Memory} {next : Memory → Option (Int64 × Memory)} (words : m'.word = m.word) (last : pages = [0])
    (spent : Supply m' all []) :
    AllocTurn all root n m pages (some (0, m')) next
  | present {m₁ m' : Memory} {page : UInt64} {rest : List UInt64} {next : Memory → Option (Int64 × Memory)}
    (notNull : page ≠ 0) (split : pages = page :: rest) (present : Present (m.entry root n))
    (words : m₁.word = m.word) (extended : Extended all root (tablePath n) (m₁.memset page) rest m' [] rest) :
    AllocTurn all root n m pages (some (0, m')) next
  | mapped {m₁ m' : Memory} {page : UInt64} {rest taken pages' : List UInt64}
    {next : Memory → Option (Int64 × Memory)} (notNull : page ≠ 0) (split : pages = page :: rest)
    (absent : ¬ Present (m.entry root n)) (words : m₁.word = m.word)
    (size : taken.length = missing m.child root (tablePath n))
    (entered : Entry all root n (userEntry page) (m₁.memset page) rest m' taken pages') :
    AllocTurn all root n m pages (next m') next

theorem allocPages_turn {a newsz : UInt64} (fuel : Nat) (isPage : a.toNat = 4096 * n)
    (small : a.toNat < 2 ^ 64 - 4096)
    (below : a < newsz) (supply : Supply m true pages) (tables : Tables m pages root) :
    AllocTurn true root n m pages (allocPages root newsz (fuel + 1) a m)
      (allocPages root newsz fuel (a + PGSIZE)) := by
  rw [allocPages, if_pos below]
  cases pages with
  | nil =>
    rw [supply.kalloc_none]
    exact .stuck (Nat.zero_le _)
  | cons page rest =>
    obtain ⟨m₁, allocated, given, words⟩ := supply.kalloc
    rw [allocated]
    simp only [Option.bind_eq_bind, Option.bind_some]
    by_cases isNull : page = 0
    · subst isNull
      rw [if_pos rfl]
      obtain rfl := supply.null
      exact .null words rfl given
    · rw [if_neg isNull]
      have unused := (List.nodup_cons.mp supply.nodup).1
      obtain ⟨cleared, same, entries⟩ := tables.memset words
      have count : missing (m₁.memset page).child root (tablePath n) = missing m.child root (tablePath n) := by
        rw [← wanting_page, ← wanting_page]
        congr 1
        ext q
        rw [mem_wanting, mem_wanting]
        refine and_congr_right ?_
        rintro ⟨k, _, member⟩
        rw [same q (mem_tablesOf member).2]
      rcases mapRegion_one (V2P page) (PTE_USER ||| PTE_RW) isPage small (given.memset unused) cleared with
        ⟨short, stuck⟩ | ⟨present, m', pages', failed, extended⟩ | ⟨absent, m', taken, pages', mapped, size, entered⟩
      · rw [stuck rfl]
        exact .stuck (count ▸ short)
      · rw [failed]
        rw [entries] at present
        obtain rfl : rest = pages' := extended.split
        exact .present isNull rfl present words extended
      · rw [mapped]
        rw [entries] at absent
        exact .mapped isNull rfl absent words (size.trans count) entered

theorem entry_congr {k : Nat} (same : pagePath k = pagePath n) : m.entry root k = m.entry root n := by
  obtain ⟨tables, index⟩ := List.append_inj' same rfl
  rw [Memory.entry, Memory.entry, tables, List.singleton_inj.mp index]

theorem allocPages_keeps {a newsz : UInt64} {r : Int64} {m' : Memory} (fuel : Nat) (isPage : a.toNat = 4096 * n)
    (small : newsz.toNat ≤ 2 ^ 64 - 4096) (supply : Supply m true pages) (tables : Tables m pages root)
    (ran : allocPages root newsz fuel a m = some (r, m')) {k : Nat} (present : Present (m.entry root k)) :
    m'.entry root k = m.entry root k := by
  induction fuel generalizing n a m pages with
  | zero => simp [allocPages] at ran
  | succ fuel ih =>
    by_cases below : a < newsz
    · have less := UInt64.lt_iff_toNat_lt.mp below
      have turn := allocPages_turn fuel isPage (by omega) below supply tables
      rw [ran] at turn
      generalize isNext : allocPages root newsz fuel (a + PGSIZE) = next at turn
      generalize isResult : some (r, m') = result at turn
      cases turn with
      | stuck => simp at isResult
      | null words last _ =>
        simp only [Option.some.injEq, Prod.mk.injEq] at isResult
        obtain ⟨_, rfl⟩ := isResult
        have same : m'.child = m.child := by
          funext t i
          rw [Memory.child, Memory.child, words]
        rw [Memory.entry, Memory.entry, same, words]
      | present notNull split _ words extended =>
        simp only [Option.some.injEq, Prod.mk.injEq] at isResult
        obtain ⟨_, rfl⟩ := isResult
        obtain ⟨cleared, _, entries⟩ := (split ▸ tables).memset words
        exact (extended.entry cleared k).trans (entries k)
      | mapped notNull split absent words size entered =>
        subst isNext
        obtain ⟨_, _, entries⟩ := (split ▸ tables).memset words
        have other : pagePath k ≠ pagePath n := fun same => absent (entry_congr same ▸ present)
        have here := (entered.beside k other).trans (entries k)
        have next : (a + PGSIZE).toNat = 4096 * (n + 1) := by
          rw [UInt64.toNat_add, isPage]
          simp only [PGSIZE, UInt64.reduceToNat]
          omega
        rw [ih next entered.supply entered.tables isResult.symm (here ▸ present), here]
    · rw [allocPages, if_neg below, Option.some.injEq, Prod.mk.injEq] at ran
      rw [ran.2]

end

end Xv6.Vm
