import Xv6.Vm.Space

/-! `pgdir_walk` on tables with any entries.

A walk with allocation takes pages from the allocator and links them in as empty tables.
Only the tables have to be distinct pages, and none of them may be one that `kalloc` gives:
what the entries of the last level refer to does not matter.
-/

set_option autoImplicit false

namespace Xv6.Vm

open Library

theorem present_iff (pte : UInt64) : Present pte ↔ pte.toNat.testBit 0 = true := by
  have bits : (pte &&& PTE_P).toNat = pte.toNat % 2 := Nat.and_one_is_mod pte.toNat
  rw [Present, Ne, ← UInt64.toNat_inj, bits, Nat.testBit_zero]
  simp

theorem or_and_ne_zero (x : UInt64) {f bit : UInt64} (set : f &&& bit ≠ 0) : (x ||| f) &&& bit ≠ 0 := by
  intro clear
  apply set
  have bits := congrArg UInt64.toNat clear
  rw [UInt64.toNat_and, UInt64.toNat_or, Nat.and_or_distrib_right] at bits
  exact UInt64.toNat_inj.mp (Nat.or_eq_zero_iff.mp bits).2

theorem present_or (x : UInt64) {f : UInt64} (present : Present f) : Present (x ||| f) := or_and_ne_zero x present

theorem not_present_zero : ¬ Present 0 := by decide

theorem not_present_aligned {a : UInt64} (aligned : a.toNat % 4096 = 0) : ¬ Present a := by
  rw [present_iff, Nat.testBit_zero]
  simp only [decide_eq_true_eq]
  omega

/-! ## What `kalloc` gives -/

/-- The results of the next calls of `kalloc`: free pages, and at the end of the whole list a
null pointer that leaves the lock held. There is no call after that. -/
inductive Supply (m : Memory) : Bool → List UInt64 → Prop where
  | free {free : List UInt64} (heap : Free m free) : Supply m false free
  | whole {free : List UInt64} (heap : Free m free) : Supply m true (free ++ [0])
  | spent (held : m.kmemcslock = true) : Supply m true []

namespace Supply
variable {m m' : Memory} {all : Bool} {pages rest : List UInt64} {a : UInt64}

theorem heap {free : List UInt64} (supply : Supply m false free) : Free m free := by
  cases supply with
  | free heap => exact heap

theorem aligned (supply : Supply m all pages) (member : a ∈ pages) : a.toNat % 4096 = 0 := by
  cases supply with
  | free heap => exact (heap.page a member).1
  | whole heap =>
    rcases List.mem_append.mp member with isFree | isNull
    · exact (heap.page a isFree).1
    · rw [List.mem_singleton.mp isNull]
      rfl
  | spent held => simp at member

theorem nodup (supply : Supply m all pages) : pages.Nodup := by
  cases supply with
  | free heap => exact heap.nodup
  | whole heap =>
    refine List.nodup_append.mpr ⟨heap.nodup, by simp, ?_⟩
    rintro x isFree y isNull rfl
    rw [List.mem_singleton] at isNull
    subst isNull
    exact absurd (heap.page 0 isFree).2 (by decide)
  | spent held => exact List.nodup_nil

theorem congr (supply : Supply m all pages) (words : ∀ x ∈ pages, m'.word x = m.word x)
    (list : m'.free_list = m.free_list) (lock : m'.kmemcslock = m.kmemcslock) : Supply m' all pages := by
  cases supply with
  | free heap => exact .free (heap.congr words list lock)
  | whole heap => exact .whole (heap.congr (fun x isFree => words x (List.mem_append_left [0] isFree)) list lock)
  | spent held => exact .spent (lock.trans held)

theorem store (supply : Supply m all pages) (used : a ∉ pages) (i : Fin 512) (value : UInt64) :
    Supply (m.store a i value) all pages := by
  refine supply.congr (fun x member => ?_) rfl rfl
  have other : x ≠ a := fun same => used (same ▸ member)
  exact store_word other i value

theorem memset (supply : Supply m all pages) (used : a ∉ pages) : Supply (m.memset a) all pages := by
  refine supply.congr (fun x member => ?_) rfl rfl
  have other : x ≠ a := fun same => used (same ▸ member)
  exact memset_word other

theorem kalloc (supply : Supply m all (a :: rest)) :
    ∃ m₁, kalloc m = some (a, m₁) ∧ Supply m₁ all rest ∧ m₁.word = m.word := by
  generalize whole : a :: rest = pages at supply
  cases supply with
  | free heap =>
    subst whole
    obtain ⟨given, left⟩ := heap.kalloc
    exact ⟨m.pop a, given, .free left, rfl⟩
  | @whole free heap =>
    cases free with
    | nil =>
      rw [List.nil_append, List.cons.injEq] at whole
      obtain ⟨rfl, rfl⟩ := whole
      have null : m.free_list = 0 := heap.linked
      exact ⟨{ m with kmemcslock := true }, by simp [Vm.kalloc, heap.unlocked, null], .spent rfl, rfl⟩
    | cons b free =>
      rw [List.cons_append, List.cons.injEq] at whole
      obtain ⟨rfl, rfl⟩ := whole
      obtain ⟨given, left⟩ := heap.kalloc
      exact ⟨m.pop a, given, .whole left, rfl⟩
  | spent held => simp at whole

theorem null (supply : Supply m all (0 :: rest)) : rest = [] := by
  generalize whole : (0 : UInt64) :: rest = pages at supply
  cases supply with
  | free heap =>
    subst whole
    exact absurd rfl heap.head_ne_zero
  | @whole free heap =>
    cases free with
    | nil => simpa using whole
    | cons b free =>
      rw [List.cons_append, List.cons.injEq] at whole
      exact absurd whole.1.symm heap.head_ne_zero
  | spent held => simp at whole

theorem more (supply : Supply m true (a :: rest)) (notNull : a ≠ 0) : 0 < rest.length := by
  generalize whole : a :: rest = pages at supply
  cases supply with
  | @whole free heap =>
    cases free with
    | nil => exact absurd (by simpa using whole) fun both : a = 0 ∧ rest = [] => notNull both.1
    | cons b free =>
      rw [List.cons_append, List.cons.injEq] at whole
      rw [whole.2, List.length_append, List.length_singleton]
      exact Nat.succ_pos _
  | spent held => simp at whole

theorem kalloc_none (supply : Supply m true []) : Vm.kalloc m = none := by
  generalize empty : [] = pages at supply
  cases supply with
  | whole heap => simp at empty
  | spent held => simp [Vm.kalloc, held]

end Supply

/-! ## Tables -/

/-- The tables are distinct pages, none of which `kalloc` gives. -/
structure Tables (m : Memory) (pages : List UInt64) (root : UInt64) : Prop where
  distinct : DistinctTo m.child 3 root
  used : ∀ p x, p.length ≤ 3 → descend m.child root p = some x → x ∉ pages

theorem descend_zero {m : Memory} {root z : UInt64} (zero : ∀ i, m.word root i = 0) {p : List (Fin 512)}
    (found : descend m.child root p = some z) : p = [] ∧ z = root := by
  cases p with
  | nil => exact ⟨rfl, (Option.some.inj found).symm⟩
  | cons i p =>
    have absent : m.child root i = none := child_none.mpr (by rw [zero]; exact not_present_zero)
    simp [descend, absent] at found

theorem Tables.zero {m : Memory} {pages : List UInt64} {root : UInt64} (zero : ∀ i, m.word root i = 0)
    (unused : root ∉ pages) : Tables m pages root := by
  refine ⟨fun p q x _ _ foundP foundQ => ?_, fun p x _ found => ?_⟩
  · exact (descend_zero zero foundP).1.trans (descend_zero zero foundQ).1.symm
  · rw [(descend_zero zero found).2]
    exact unused

def Memory.entry (m : Memory) (root : UInt64) (n : Nat) : UInt64 :=
  match descend m.child root (tablePath n) with
  | none => 0
  | some t => m.word t (Fin.ofNat 512 n)

theorem entry_some {m : Memory} {root t : UInt64} {n : Nat} (reached : descend m.child root (tablePath n) = some t) :
    m.entry root n = m.word t (Fin.ofNat 512 n) := by
  rw [Memory.entry, reached]

theorem entry_none {m : Memory} {root : UInt64} {n : Nat} (missing : descend m.child root (tablePath n) = none) :
    m.entry root n = 0 := by
  rw [Memory.entry, missing]

theorem entry_zero {m : Memory} {root : UInt64} (zero : ∀ i, m.word root i = 0) (n : Nat) : m.entry root n = 0 := by
  refine entry_none ?_
  cases found : descend m.child root (tablePath n) with
  | none => rfl
  | some t => exact absurd (descend_zero zero found).1 (by simp [tablePath])

theorem leaf_entry (m : Memory) (root : UInt64) (n : Nat) :
    m.leaf root n = if Present (m.entry root n) then some (m.entry root n) else none := by
  cases reached : descend m.child root (tablePath n) with
  | none => rw [Memory.leaf, reached, entry_none reached, if_neg not_present_zero, Option.bind_none]
  | some t => rw [Memory.leaf, reached, entry_some reached, Option.bind_some]

/-- What a walk along `path` with allocation may do: take pages of the supply and link them in
as empty tables along the path. -/
structure Extended (all : Bool) (root : UInt64) (path : List (Fin 512)) (m : Memory) (pages : List UInt64)
    (m' : Memory) (taken pages' : List UInt64) : Prop where
  split : pages = taken ++ pages'
  supply : Supply m' all pages'
  tables : Tables m' pages' root
  keeps : ∀ p z, p.length ≤ 3 → descend m.child root p = some z → descend m'.child root p = some z
  adds : ∀ p z, p.length ≤ 3 → descend m'.child root p = some z →
    descend m.child root p = some z ∨ (descend m.child root p = none ∧ z ∈ taken ∧ p <+: path)
  frame : ∀ z, z ∉ taken → (∀ p, p.length < 3 → descend m.child root p ≠ some z) → m'.word z = m.word z
  empty : ∀ p z, p.length = 3 → z ∈ taken → descend m'.child root p = some z → ∀ i, m'.word z i = 0

namespace Extended
variable {all : Bool} {root : UInt64} {path : List (Fin 512)} {m m' m'' : Memory}
  {pages pages' pages'' taken taken' : List UInt64}

theorem refl (supply : Supply m all pages) (tables : Tables m pages root) (path : List (Fin 512)) :
    Extended all root path m pages m [] pages where
  split := rfl
  supply := supply
  tables := tables
  keeps _ _ _ found := found
  adds _ _ _ found := .inl found
  frame _ _ _ := rfl
  empty _ _ _ member := absurd member List.not_mem_nil

theorem fresh (extended : Extended all root path m pages m' taken pages') (tables : Tables m pages root)
    {p : List (Fin 512)} {z : UInt64} (short : p.length ≤ 3) (found : descend m.child root p = some z) :
    z ∉ taken := by
  intro isTaken
  exact tables.used p z short found (extended.split ▸ List.mem_append_left pages' isTaken)

theorem trans (first : Extended all root path m pages m' taken pages')
    (second : Extended all root path m' pages' m'' taken' pages'') :
    Extended all root path m pages m'' (taken ++ taken') pages'' where
  split := by rw [first.split, second.split, List.append_assoc]
  supply := second.supply
  tables := second.tables
  keeps p z short found := second.keeps p z short (first.keeps p z short found)
  adds p z short found := by
    rcases second.adds p z short found with before | ⟨absent, isTaken, along⟩
    · rcases first.adds p z short before with old | ⟨absent, isTaken, along⟩
      · exact .inl old
      · exact .inr ⟨absent, List.mem_append_left taken' isTaken, along⟩
    · refine .inr ⟨?_, List.mem_append_right taken isTaken, along⟩
      cases old : descend m.child root p with
      | none => rfl
      | some y => exact absurd (absent.symm.trans (first.keeps p y short old)) (by simp)
  frame z notTaken outside := by
    rw [List.mem_append, not_or] at notTaken
    have same := first.frame z notTaken.1 outside
    refine (second.frame z notTaken.2 fun p short found => ?_).trans same
    rcases first.adds p z (by omega) found with old | ⟨_, isTaken, _⟩
    · exact outside p short old
    · exact notTaken.1 isTaken
  empty p z long isTaken found := by
    rcases second.adds p z (by omega) found with before | ⟨_, late, _⟩
    · -- a table of the first walk is a last one, so the second walk leaves it alone
      have early : z ∈ taken := by
        rcases List.mem_append.mp isTaken with early | late
        · exact early
        · exact absurd late (second.fresh first.tables (by omega) before)
      have notLate := second.fresh first.tables (by omega) before
      have same := second.frame z notLate fun q short other => by
        have equal := first.tables.distinct p q z (by omega) (by omega) before other
        rw [equal] at long
        omega
      rw [same]
      exact first.empty p z long early before
    · exact second.empty p z long late found

theorem entry (extended : Extended all root path m pages m' taken pages') (tables : Tables m pages root) (n : Nat) :
    m'.entry root n = m.entry root n := by
  have three : (tablePath n).length = 3 := rfl
  cases reached : descend m.child root (tablePath n) with
  | some t =>
    have same := extended.frame t (extended.fresh tables (by omega) reached) fun q short other => by
      have equal := tables.distinct (tablePath n) q t (by omega) (by omega) reached other
      rw [← equal] at short
      omega
    rw [entry_some reached, entry_some (extended.keeps _ t (by omega) reached), same]
  | none =>
    rw [entry_none reached]
    cases reached' : descend m'.child root (tablePath n) with
    | none => exact entry_none reached'
    | some t =>
      rcases extended.adds _ t (by omega) reached' with old | ⟨_, isTaken, _⟩
      · exact absurd (reached.symm.trans old) (by simp)
      · rw [entry_some reached']
        exact extended.empty _ t rfl isTaken reached' _

end Extended

/-! ## The tables of a prefix of the address space -/

/-- The pages that an address space of `k` pages takes: the root, the pages and the tables of
the three levels below the root. -/
def needed (k : Nat) : Nat := 1 + k + (k + 511) / 512 + (k + (512 ^ 2 - 1)) / 512 ^ 2 + (k + (512 ^ 3 - 1)) / 512 ^ 3

def TablesBelow (m : Memory) (root : UInt64) (k : Nat) : Prop :=
  ∀ q, q.length ≤ 3 → ((descend m.child root q).isSome ↔ q = [] ∨ ∃ j < k, q <+: tablePath j)

/-- One more page is entered: its tables are the only new ones. -/
theorem TablesBelow.next {m m' : Memory} {root : UInt64} {k : Nat} (below : TablesBelow m root k)
    (adds : ∀ q, q.length ≤ 3 → (descend m'.child root q).isSome →
      (descend m.child root q).isSome ∨ q <+: tablePath k)
    (keeps : ∀ q, q.length ≤ 3 → (descend m.child root q).isSome → (descend m'.child root q).isSome)
    (table : (descend m'.child root (tablePath k)).isSome) : TablesBelow m' root (k + 1) := by
  intro q short
  constructor
  · intro found
    rcases adds q short found with before | along
    · rcases (below q short).mp before with empty | ⟨j, less, along⟩
      · exact .inl empty
      · exact .inr ⟨j, by omega, along⟩
    · exact .inr ⟨k, by omega, along⟩
  · rintro (empty | ⟨j, less, along⟩)
    · exact keeps q short ((below q short).mpr (.inl empty))
    · by_cases before : j < k
      · exact keeps q short ((below q short).mpr (.inr ⟨j, before, along⟩))
      · obtain rfl : j = k := by omega
        obtain ⟨tail, isPath⟩ := along
        rw [← isPath, descend_append] at table
        cases found : descend m'.child root q with
        | none => simp [found] at table
        | some z => rfl

theorem missing_three {root : UInt64} (child : UInt64 → Fin 512 → Option UInt64) (x y z : Fin 512) :
    missing child root [x, y, z] =
    if (descend child root [x]).isSome then if (descend child root [x, y]).isSome then
      if (descend child root [x, y, z]).isSome then 0 else 1 else 2 else 3 := by
  cases first : child root x with
  | none => simp [missing, descend, first]
  | some a =>
    cases second : child a y with
    | none => simp [missing, descend, first, second]
    | some b => cases third : child b z <;> simp [missing, descend, first, second, third]

theorem missing_next {m : Memory} {root : UInt64} {k : Nat} (below : TablesBelow m root k) (small : k < 2 ^ 36) :
    missing m.child root (tablePath k) + 1 + needed k = needed (k + 1) := by
  have first : (descend m.child root [Fin.ofNat 512 (k / 512 ^ 3)]).isSome ↔ k % 512 ^ 3 ≠ 0 := by
    rw [below _ (by simp)]
    simp only [List.cons_ne_nil, false_or, tablePath, List.cons_prefix_cons, List.nil_prefix, and_true, Fin.ext_iff,
      Fin.val_ofNat]
    constructor
    · rintro ⟨j, less, same⟩
      omega
    · intro inner
      exact ⟨k - 1, by omega, by omega⟩
  have second : (descend m.child root [Fin.ofNat 512 (k / 512 ^ 3), Fin.ofNat 512 (k / 512 ^ 2)]).isSome ↔
      k % 512 ^ 2 ≠ 0 := by
    rw [below _ (by simp)]
    simp only [List.cons_ne_nil, false_or, tablePath, List.cons_prefix_cons, List.nil_prefix, and_true, Fin.ext_iff,
      Fin.val_ofNat]
    constructor
    · rintro ⟨j, less, same⟩
      omega
    · intro inner
      exact ⟨k - 1, by omega, by omega⟩
  have third : (descend m.child root (tablePath k)).isSome ↔ k % 512 ≠ 0 := by
    rw [below _ (by simp [tablePath])]
    simp only [List.cons_ne_nil, false_or, tablePath, List.cons_prefix_cons, List.nil_prefix, and_true, Fin.ext_iff,
      Fin.val_ofNat]
    constructor
    · rintro ⟨j, less, same⟩
      omega
    · intro inner
      exact ⟨k - 1, by omega, by omega⟩
  rw [tablePath] at third
  rw [tablePath, missing_three]
  simp only [first, second, third, needed]
  split_ifs <;> omega

def tableBits : UInt64 := PTE_P ||| PTE_TABLE ||| PTE_AF ||| PTE_NORMAL

-- What `pgdir_walk` does with the page it has allocated for a missing table.
def Memory.link (m : Memory) (tb : UInt64) (idx : Fin 512) (address : UInt64) : Memory :=
  let m := m.store tb idx (V2P address)
  let m := m.memset address
  m.store tb idx (m.word tb idx ||| tableBits)

section
variable {all : Bool} {m m₁ : Memory} {tb a root : UInt64} {idx : Fin 512} {pages rest : List UInt64}
  {p : List (Fin 512)}

theorem link_word (other : tb ≠ a) (z : UInt64) (j : Fin 512) : (m.link tb idx a).word z j =
    if z = a then 0 else if z = tb ∧ j = idx then V2P a ||| tableBits else m.word z j := by
  by_cases isNew : z = a
  · subst isNew
    simp [Memory.link, Memory.store, Memory.memset, Function.update_of_ne (Ne.symm other)]
  · rw [if_neg isNew]
    by_cases isTable : z = tb
    · subst isTable
      by_cases isIdx : j = idx
      · subst isIdx
        simp [Memory.link, Memory.store, Memory.memset, isNew]
      · simp [Memory.link, Memory.store, Memory.memset, isNew, isIdx]
    · simp [Memory.link, Memory.store, Memory.memset, isNew, isTable]

theorem Extended.link {path : List (Fin 512)} (supply : Supply m all (a :: rest)) (tables : Tables m (a :: rest) root)
    (given : Supply m₁ all rest) (words : m₁.word = m.word) (reached : descend m.child root p = some tb)
    (short : p.length < 3) (absent : m.child tb idx = none) (along : p ++ [idx] <+: path) :
    Extended all root path m (a :: rest) (m₁.link tb idx a) [a] rest ∧
      (m₁.link tb idx a).child tb idx = some a ∧ ∀ j, (m₁.link tb idx a).child a j = none := by
  have tbUsed : tb ∉ a :: rest := tables.used p tb (by omega) reached
  have other : tb ≠ a := fun same => tbUsed (same ▸ List.mem_cons_self)
  have aligned := supply.aligned (List.mem_cons_self (a := a))
  have aRest : a ∉ rest := (List.nodup_cons.mp supply.nodup).1
  obtain ⟨m', isM'⟩ : ∃ m', m' = m₁.link tb idx a := ⟨_, rfl⟩
  have word : ∀ z j, m'.word z j =
      if z = a then 0 else if z = tb ∧ j = idx then V2P a ||| tableBits else m.word z j := by
    intro z j
    rw [isM', link_word other, words]
  have fresh : ∀ q z, q.length ≤ 3 → descend m.child root q = some z → z ≠ a := by
    rintro q z shortQ found rfl
    exact tables.used q z shortQ found List.mem_cons_self
  have grafts : Grafts m.child m'.child 3 root p tb idx a := by
    refine ⟨reached, short, absent, ?_, ?_, ?_, ?_⟩
    · have present : Present (m'.word tb idx) := by
        rw [word, if_neg other, if_pos ⟨rfl, rfl⟩]
        exact present_or _ (by decide)
      rw [Memory.child, if_pos present, word, if_neg other, if_pos ⟨rfl, rfl⟩, frame_entry aligned (by decide)]
    · intro j isOther
      refine child_congr ?_
      rw [word, if_neg other, if_neg (by simp [isOther])]
    · intro q z shortQ found isOther j
      refine child_congr ?_
      rw [word, if_neg (fresh q z (by omega) found), if_neg (by simp [isOther])]
    · intro _ j
      rw [child_none, word, if_pos rfl]
      exact not_present_zero
  have reach : ∀ q z, q.length ≤ 3 →
      (descend m'.child root q = some z ↔ descend m.child root q = some z ∨ (q = p ++ [idx] ∧ z = a)) := by
    intro q z shortQ
    exact grafts.descend_iff tables.distinct (by omega) shortQ z
  have absent' : descend m.child root (p ++ [idx]) = none := by
    rw [descend_concat, reached, Option.bind_some, absent]
  have empty : ∀ j, m'.word a j = 0 := by
    intro j
    rw [word, if_pos rfl]
  rw [← isM']
  refine ⟨⟨rfl, ?_, ⟨?_, ?_⟩, ?_, ?_, ?_, ?_⟩, grafts.here,
    fun j => child_none.mpr (by rw [empty]; exact not_present_zero)⟩
  · rw [isM']
    have tbRest : tb ∉ rest := fun inRest => tbUsed (List.mem_cons_of_mem a inRest)
    exact ((given.store tbRest _ _).memset aRest).store tbRest _ _
  · exact grafts.distinctTo tables.distinct (by omega) le_rfl fun _ q shortQ found => fresh q a shortQ found rfl
  · intro q z shortQ found
    rcases (reach q z shortQ).mp found with old | ⟨rfl, rfl⟩
    · exact fun inRest => tables.used q z shortQ old (List.mem_cons_of_mem a inRest)
    · exact aRest
  · exact fun q z shortQ found => (reach q z shortQ).mpr (.inl found)
  · intro q z shortQ found
    rcases (reach q z shortQ).mp found with old | ⟨rfl, rfl⟩
    · exact .inl old
    · exact .inr ⟨absent', List.mem_singleton_self z, along⟩
  · intro z notTaken outside
    have notTable : z ≠ tb := by
      rintro rfl
      exact outside p short reached
    funext j
    rw [word, if_neg (by simpa using notTaken), if_neg (by simp [notTable])]
  · intro q z _ isTaken _ i
    rw [List.mem_singleton.mp isTaken, empty]

-- An entry that is not present is one that the walk takes for missing.
theorem missing_entry (pte : UInt64) : (pte = 0 ∨ pte &&& PTE_P = 0) ↔ ¬ Present pte := by
  constructor
  · rintro (rfl | absent)
    · exact not_present_zero
    · exact not_not.mpr absent
  · intro absent
    exact .inr (not_not.mp absent)

/-- `pgdir_walk` with allocation: it never returns when the supply ends before it has a page for
each missing table, and else it reaches the table. -/
theorem walkLevels_extends {path : List (Fin 512)} (va : UInt64) (levels : List Nat) (supply : Supply m all pages)
    (tables : Tables m pages root) (reached : descend m.child root p = some tb)
    (whole : path = p ++ levels.map fun i => PTX i va) (length : path.length ≤ 3) :
    (pages.length < missing m.child tb (levels.map fun i => PTX i va) ∧
      (all = true → walkLevels true va levels tb m = none)) ∨
    ∃ t m' taken pages', walkLevels true va levels tb m = some (some t, m') ∧
      Extended all root path m pages m' taken pages' ∧ descend m'.child root path = some t ∧
      taken.length = missing m.child tb (levels.map fun i => PTX i va) := by
  induction levels generalizing tb m pages p with
  | nil =>
    rw [List.map_nil, List.append_nil] at whole
    exact .inr ⟨tb, m, [], pages, rfl, Extended.refl supply tables path, whole ▸ reached, rfl⟩
  | cons i levels ih =>
    obtain ⟨idx, isIdx⟩ : ∃ idx, idx = PTX i va := ⟨_, rfl⟩
    have whole' : path = (p ++ [idx]) ++ levels.map fun i => PTX i va := by
      rw [whole, isIdx, List.map_cons, List.append_assoc, List.singleton_append]
    have short : p.length < 3 := by
      rw [whole'] at length
      simp only [List.length_append, List.length_singleton] at length
      omega
    rw [walkLevels, ← isIdx, List.map_cons, ← isIdx]
    by_cases present : Present (m.word tb idx)
    · have next : m.child tb idx = some (frame (m.word tb idx)) := if_pos present
      have count : missing m.child tb (idx :: levels.map fun i => PTX i va) =
          missing m.child (frame (m.word tb idx)) (levels.map fun i => PTX i va) := by
        simp only [missing, next]
      rw [count, if_neg ((missing_entry _).not.mpr (not_not.mpr present))]
      exact ih supply tables (descend_concat_some.mpr ⟨tb, reached, next⟩) whole'
    · have next : m.child tb idx = none := child_none.mpr present
      have count : missing m.child tb (idx :: levels.map fun i => PTX i va) = levels.length + 1 := by
        simp only [missing, next, List.length_map]
      rw [count, if_pos ((missing_entry _).mpr present), if_pos rfl]
      cases pages with
      | nil =>
        left
        refine ⟨Nat.succ_pos _, fun whole => ?_⟩
        subst whole
        rw [supply.kalloc_none]
        rfl
      | cons a rest =>
        obtain ⟨m₁, allocated, given, words⟩ := supply.kalloc
        have along : p ++ [idx] <+: path := ⟨_, whole'.symm⟩
        obtain ⟨extended, linked, empty⟩ := Extended.link supply tables given words reached short next along
        have isFrame : frame ((m₁.link tb idx a).word tb idx) = a := by
          by_cases isThere : Present ((m₁.link tb idx a).word tb idx)
          · rw [Memory.child, if_pos isThere] at linked
            exact Option.some.inj linked
          · rw [child_none.mpr isThere] at linked
            simp at linked
        have reached' : descend (m₁.link tb idx a).child root (p ++ [idx]) = some a := by
          exact descend_concat_some.mpr ⟨tb, extended.keeps p tb (by omega) reached, linked⟩
        have left := missing_empty empty (levels.map fun i => PTX i va)
        rw [List.length_map] at left
        have turned : ((kalloc m).bind fun out =>
            walkLevels true va levels (frame ((out.2.link tb idx out.1).word tb idx)) (out.2.link tb idx out.1)) =
              walkLevels true va levels a (m₁.link tb idx a) := by
          rw [allocated, Option.bind_some]
          dsimp only
          rw [isFrame]
        rcases ih extended.supply extended.tables reached' whole' with ⟨short', stuck⟩ |
          ⟨t, m', taken, pages', walked,
          extends', found, size⟩
        · left
          rw [left] at short'
          rw [List.length_cons]
          exact ⟨by omega, fun whole => turned.trans (stuck whole)⟩
        · right
          refine ⟨t, m', [a] ++ taken, pages', turned.trans walked, extended.trans extends', found, ?_⟩
          rw [List.length_append, size, left, List.length_singleton, Nat.add_comm]

theorem pgdirWalk_extends {va : UInt64} {n : Nat} (isPage : va.toNat / 4096 = n) (supply : Supply m all pages)
    (tables : Tables m pages root) :
    (pages.length < missing m.child root (tablePath n) ∧ (all = true → pgdirWalk root va true m = none)) ∨
    ∃ t m' taken pages', pgdirWalk root va true m = some (some (t, Fin.ofNat 512 n), m') ∧
      Extended all root (tablePath n) m pages m' taken pages' ∧ descend m'.child root (tablePath n) = some t ∧
      taken.length = missing m.child root (tablePath n) := by
  obtain ⟨indices, index⟩ := PTX_page va
  rw [isPage] at indices index
  have indices' : ([0, 1, 2].map fun i => PTX i va) = tablePath n := indices
  have walk := walkLevels_extends va [0, 1, 2] supply tables (descend_nil _ _)
    (show tablePath n = _ by rw [indices', List.nil_append]) (Nat.le_refl 3)
  rw [indices'] at walk
  rcases walk with ⟨short, stuck⟩ | ⟨t, m', taken, pages', walked, extended, found, size⟩
  · left
    refine ⟨short, fun whole => ?_⟩
    rw [pgdirWalk, stuck whole]
    rfl
  · right
    refine ⟨t, m', taken, pages', ?_, extended, found, size⟩
    rw [pgdirWalk, walked, index]
    rfl

theorem walkLevels_read (va : UInt64) (levels : List Nat) (tb : UInt64) (m : Memory) :
    walkLevels false va levels tb m = some (descend m.child tb (levels.map fun i => PTX i va), m) := by
  induction levels generalizing tb with
  | nil => rfl
  | cons i levels ih =>
    rw [walkLevels, List.map_cons, descend]
    by_cases present : Present (m.word tb (PTX i va))
    · rw [if_neg ((missing_entry _).not.mpr (not_not.mpr present)), ih, Memory.child, if_pos present,
        Option.bind_some]
    · rw [if_pos ((missing_entry _).mpr present), if_neg (by decide), Memory.child, if_neg present, Option.bind_none]

theorem pgdirWalk_read (pgdir va : UInt64) (m : Memory) : pgdirWalk pgdir va false m =
    some ((descend m.child pgdir (tablePath (va.toNat / 4096))).map
      fun t => (t, Fin.ofNat 512 (va.toNat / 4096)), m) := by
  obtain ⟨tables, index⟩ := PTX_page va
  rw [pgdirWalk, walkLevels_read, Option.map_some, index, ← tables]
  rfl

def pagePath (n : Nat) : List (Fin 512) := tablePath n ++ [Fin.ofNat 512 n]

theorem pagePath_inj {k n : Nat} (smallK : k < 2 ^ 36) (smallN : n < 2 ^ 36) (same : pagePath k = pagePath n) :
    k = n := by
  simp only [pagePath, tablePath, List.cons_append, List.nil_append, List.cons.injEq, Fin.ext_iff,
    Fin.val_ofNat] at same
  omega

structure Filled (all : Bool) (root : UInt64) (n : Nat) (e : UInt64) (m m' : Memory) (pages : List UInt64) :
    Prop where
  supply : Supply m' all pages
  tables : Tables m' pages root
  same : ∀ p, p.length ≤ 3 → descend m'.child root p = descend m.child root p
  here : m'.entry root n = e
  beside : ∀ k, pagePath k ≠ pagePath n → m'.entry root k = m.entry root k
  frame : ∀ z, descend m.child root (tablePath n) ≠ some z → m'.word z = m.word z

theorem filled {t : UInt64} {n : Nat} (supply : Supply m all pages) (tables : Tables m pages root)
    (reached : descend m.child root (tablePath n) = some t) (e : UInt64) :
    Filled all root n e m (m.store t (Fin.ofNat 512 n) e) pages := by
  have others : ∀ z, z ≠ t → (m.store t (Fin.ofNat 512 n) e).word z = m.word z := fun z other => store_word other _ e
  have three : (tablePath n).length = 3 := rfl
  have same : ∀ q, q.length ≤ 3 → descend (m.store t (Fin.ofNat 512 n) e).child root q = descend m.child root q := by
    intro q short
    refine descend_congr (d := 3) (fun q z i shorter found => child_congr (congrFun (others z ?_) i)) short
    rintro rfl
    have equal := tables.distinct q (tablePath n) z (by omega) (by omega) found reached
    rw [equal] at shorter
    omega
  refine ⟨supply.store (tables.used _ t (by omega) reached) _ e, ⟨?_, ?_⟩, same, ?_, ?_, ?_⟩
  · intro q r z shortQ shortR foundQ foundR
    rw [same q shortQ] at foundQ
    rw [same r shortR] at foundR
    exact tables.distinct q r z shortQ shortR foundQ foundR
  · intro q z short found
    rw [same q short] at found
    exact tables.used q z short found
  · rw [entry_some ((same _ (by omega)).trans reached), store_self]
  · intro k other
    have three' : (tablePath k).length = 3 := rfl
    cases found : descend m.child root (tablePath k) with
    | none => rw [entry_none found, entry_none ((same _ (by omega)).trans found)]
    | some z =>
      rw [entry_some found, entry_some ((same _ (by omega)).trans found)]
      by_cases isT : z = t
      · subst isT
        have equal := tables.distinct (tablePath k) (tablePath n) z (by omega) (by omega) found reached
        have index : Fin.ofNat 512 k ≠ Fin.ofNat 512 n := by
          intro sameIndex
          exact other (by rw [pagePath, pagePath, equal, sameIndex])
        exact store_beside m z index e
      · rw [others z isT]
  · intro z outside
    refine others z ?_
    rintro rfl
    exact outside reached

end

end Xv6.Vm
