import Xv6.Vm.Allocation
import Xv6.Vm.Bytes

/-! Address spaces that `uvm_alloc` builds from nothing.

The pages that are mapped are those below some number, and they and the tables are distinct
pages that `kalloc` has given. So a store through the table is a store to the byte of the
address, and `uvm_alloc` adds bytes that are zero.
-/

set_option autoImplicit false

namespace Xv6.Vm

open Library

/-- An address space with the pages below number `M`; `page k` is the page at number `k`. Of what
`kalloc` gave from the start, `taken` has been used and `pages` is left. -/
structure Image (start : List UInt64) (root : UInt64) (M : Nat) (page : Nat → UInt64) (m : Memory)
    (taken pages : List UInt64) : Prop where
  nodup : start.Nodup
  bound : start.length ≤ 258049
  split : start = taken ++ pages
  supply : Supply m true pages
  tables : Tables m pages root
  below : TablesBelow m root M
  inside : ∀ p z, p.length ≤ 3 → descend m.child root p = some z → z ∈ taken
  mapped : ∀ k, k < M → m.entry root k = userEntry (page k)
  beyond : ∀ k, M ≤ k → k < 2 ^ 36 → m.entry root k = 0
  owned : ∀ k, k < M → page k ∈ taken ∧ page k ≠ 0 ∧ (page k).toNat % 4096 = 0
  distinct : ∀ j k, j < M → k < M → page j = page k → j = k
  apart : ∀ k, k < M → ∀ p, p.length ≤ 3 → descend m.child root p ≠ some (page k)

/-- What an operation on the address space leaves alone, and the pages that it adds. -/
structure Growth (start : List UInt64) (root : UInt64) (M : Nat) (page : Nat → UInt64) (m : Memory)
    (M' : Nat) (page' : Nat → UInt64) (m' : Memory) (taken' pages' : List UInt64) : Prop where
  image : Image start root M' page' m' taken' pages'
  le : M ≤ M'
  same : ∀ k, k < M → page' k = page k
  old : ∀ k, k < M → m'.word (page k) = m.word (page k)
  new : ∀ k, M ≤ k → k < M' → ∀ i, m'.word (page' k) i = 0
  frame : ∀ z, z ∉ start → m'.word z = m.word z

section
variable {start taken pages taken' pages' taken'' pages'' : List UInt64} {root : UInt64} {M M' M'' : Nat}
  {page page' page'' : Nat → UInt64} {m m' m'' : Memory}

namespace Image

theorem unused (image : Image start root M page m taken pages) {z : UInt64} (isTaken : z ∈ taken) : z ∉ pages := by
  have nodup := image.nodup
  rw [image.split] at nodup
  exact fun isLeft => (List.nodup_append.mp nodup).2.2 z isTaken z isLeft rfl

theorem length_le (image : Image start root M page m taken pages) : taken.length + pages.length ≤ 258049 := by
  have total := congrArg List.length image.split
  rw [List.length_append] at total
  have bound := image.bound
  omega

theorem size_le (image : Image start root M page m taken pages) : M ≤ 258049 := by
  have nodup : ((List.range M).map page).Nodup := by
    refine List.Nodup.map_on (fun j inJ k inK same => ?_) List.nodup_range
    exact image.distinct j k (List.mem_range.mp inJ) (List.mem_range.mp inK) same
  have subset : (List.range M).map page ⊆ taken := by
    intro z member
    obtain ⟨k, inRange, rfl⟩ := List.mem_map.mp member
    exact (image.owned k (List.mem_range.mp inRange)).1
  have size := (List.subperm_of_subset nodup subset).length_le
  rw [List.length_map, List.length_range] at size
  have total := image.length_le
  omega

theorem zero {rest : List UInt64} (nodup : (root :: rest).Nodup) (bound : (root :: rest).length ≤ 258049)
    (supply : Supply m true rest) (zero : ∀ i, m.word root i = 0) (page : Nat → UInt64) :
    Image (root :: rest) root 0 page m [root] rest where
  nodup := nodup
  bound := bound
  split := rfl
  supply := supply
  tables := Tables.zero zero (List.nodup_cons.mp nodup).1
  below q _ := by
    constructor
    · intro found
      obtain ⟨z, found⟩ := Option.isSome_iff_exists.mp found
      exact .inl (descend_zero zero found).1
    · rintro (rfl | ⟨j, less, _⟩)
      · rfl
      · omega
  inside p z _ found := by
    rw [(descend_zero zero found).2]
    exact List.mem_singleton_self root
  mapped k less := absurd less (Nat.not_lt_zero k)
  beyond k _ _ := entry_zero zero k
  owned k less := absurd less (Nat.not_lt_zero k)
  distinct j _ less := absurd less (Nat.not_lt_zero j)
  apart k less := absurd less (Nat.not_lt_zero k)

/-- The entries of the pages below `M`, as the walk finds them for any address. -/
theorem entry_mod (m : Memory) (root : UInt64) (n : Nat) : m.entry root n = m.entry root (n % 2 ^ 36) := by
  refine entry_congr ?_
  simp only [pagePath, tablePath, List.cons_append, List.nil_append, List.cons.injEq, Fin.ext_iff,
    Fin.val_ofNat, and_true]
  omega

end Image

namespace Growth

theorem refl (image : Image start root M page m taken pages) : Growth start root M page m M page m taken pages where
  image := image
  le := le_rfl
  same _ _ := rfl
  old _ _ := rfl
  new k low high := absurd high (by omega)
  frame _ _ := rfl

theorem trans (first : Growth start root M page m M' page' m' taken' pages')
    (second : Growth start root M' page' m' M'' page'' m'' taken'' pages'') :
    Growth start root M page m M'' page'' m'' taken'' pages'' where
  image := second.image
  le := first.le.trans second.le
  same k less := (second.same k (by have := first.le; omega)).trans (first.same k less)
  old k less := by
    have le := first.le
    have later := second.old k (by omega)
    rw [first.same k less] at later
    exact later.trans (first.old k less)
  new k low high i := by
    by_cases early : k < M'
    · rw [second.same k early, second.old k early]
      exact first.new k low early i
    · exact second.new k (by omega) high i
  frame z outside := (second.frame z outside).trans (first.frame z outside)

end Growth

theorem needed_le {j k : Nat} (le : j ≤ k) : needed j ≤ needed k := by
  simp only [needed]
  omega

/-- What `total` results of `kalloc`, the last of which is null, are enough for: the last page of an
address space of `M` pages is none of the null pointer's, and every table gets a result. -/
def Affords (total M : Nat) : Prop := needed (M - 1) + 1 < total ∧ needed M ≤ total

instance (total M : Nat) : Decidable (Affords total M) := inferInstanceAs (Decidable (_ ∧ _))

theorem Image.entered {x : UInt64} {rest moved : List UInt64} {m₁ : Memory}
    (image : Image start root M page m taken (x :: rest)) (notNull : x ≠ 0) (words : m₁.word = m.word)
    (entered : Entry true root M (userEntry x) (m₁.memset x) rest m' moved pages') :
    Growth start root M page m (M + 1) (Function.update page M x) m' (taken ++ x :: moved) pages' := by
  have size := image.size_le
  obtain ⟨_, same, entries⟩ := image.tables.memset words
  have xLeft : x ∈ x :: rest := List.mem_cons_self
  have movedLeft : ∀ z, z ∈ moved → z ∈ rest := fun z member => entered.split ▸ List.mem_append_left pages' member
  have xMoved : x ∉ moved := fun member => (List.nodup_cons.mp image.supply.nodup).1 (movedLeft x member)
  have xTable : ∀ p, p.length ≤ 3 → descend (m₁.memset x).child root p ≠ some x := by
    intro p short found
    rw [same p short] at found
    exact image.unused (image.inside p x short found) xLeft
  have adds : ∀ p z, p.length ≤ 3 → descend m'.child root p = some z → descend m.child root p = some z ∨
      (z ∈ moved ∧ p <+: tablePath M) := by
    intro p z short found
    rcases entered.adds p z short found with old | isMoved
    · exact .inl ((same p short).symm.trans old)
    · exact .inr isMoved
  have old : ∀ k, k < M → page k ≠ x ∧ page k ∉ moved := by
    intro k less
    have unused := image.unused (image.owned k less).1
    refine ⟨?_, fun member => unused (List.mem_cons_of_mem x (movedLeft _ member))⟩
    rintro rfl
    exact unused xLeft
  have word : ∀ z, z ∉ moved → (∀ p, p.length ≤ 3 → descend m.child root p ≠ some z) → z ≠ x →
    m'.word z = m.word z := by
    intro z notMoved notTable other
    rw [entered.frame z notMoved fun p short found => notTable p short ((same p short).symm.trans found),
      memset_word other, words]
  have earlier : ∀ {k}, k < M → Function.update page M x k = page k := fun less => Function.update_of_ne (by omega) ..
  have cases_lt : ∀ {k}, k < M + 1 → k < M ∨ k = M := fun less => by omega
  refine ⟨⟨image.nodup, image.bound, ?_, entered.supply, entered.tables, ?_, ?_, ?_, ?_, ?_, ?_, ?_⟩, Nat.le_succ M,
    fun k less => earlier less, ?_, ?_, ?_⟩
  · rw [image.split, entered.split]
    simp
  · refine image.below.next (fun q short found => ?_) (fun q short found => ?_) entered.table
    · obtain ⟨z, found⟩ := Option.isSome_iff_exists.mp found
      rcases adds q z short found with before | ⟨_, along⟩
      · rw [before]
        exact .inl rfl
      · exact .inr along
    · obtain ⟨z, found⟩ := Option.isSome_iff_exists.mp found
      rw [entered.keeps q z short ((same q short).trans found)]
      rfl
  · intro p z short found
    rcases adds p z short found with before | ⟨isMoved, _⟩
    · exact List.mem_append_left _ (image.inside p z short before)
    · exact List.mem_append_right taken (List.mem_cons_of_mem x isMoved)
  · intro k less
    rcases cases_lt less with before | rfl
    · have other : pagePath k ≠ pagePath M := fun equal => by
        have := pagePath_inj (by omega) (by omega) equal
        omega
      rw [entered.beside k other, entries, earlier before]
      exact image.mapped k before
    · rw [entered.here, Function.update_self]
  · intro k low small
    have other : pagePath k ≠ pagePath M := fun equal => by
      have := pagePath_inj small (by omega) equal
      omega
    rw [entered.beside k other, entries]
    exact image.beyond k (by omega) small
  · intro k less
    rcases cases_lt less with before | rfl
    · rw [earlier before]
      obtain ⟨isTaken, aligned⟩ := image.owned k before
      exact ⟨List.mem_append_left _ isTaken, aligned⟩
    · rw [Function.update_self]
      exact ⟨List.mem_append_right taken List.mem_cons_self, notNull, image.supply.aligned xLeft⟩
  · intro j k lessJ lessK equal
    rcases cases_lt lessJ with beforeJ | rfl
    · rcases cases_lt lessK with beforeK | rfl
      · rw [earlier beforeJ, earlier beforeK] at equal
        exact image.distinct j k beforeJ beforeK equal
      · rw [earlier beforeJ, Function.update_self] at equal
        exact absurd equal (old j beforeJ).1
    · rcases cases_lt lessK with beforeK | rfl
      · rw [earlier beforeK, Function.update_self] at equal
        exact absurd equal.symm (old k beforeK).1
      · rfl
  · intro k less p short found
    rcases cases_lt less with before | rfl
    · rw [earlier before] at found
      rcases adds p _ short found with table | ⟨isMoved, _⟩
      · exact image.apart k before p short table
      · exact (old k before).2 isMoved
    · rw [Function.update_self] at found
      rcases entered.adds p x short found with table | ⟨isMoved, _⟩
      · exact xTable p short table
      · exact xMoved isMoved
  · intro k less
    exact word (page k) (old k less).2 (image.apart k less) (old k less).1
  · intro k low high i
    obtain rfl : k = M := by omega
    rw [Function.update_self, entered.frame x xMoved xTable]
    simp [Memory.memset]
  · intro z outside
    have notLeft : z ∉ x :: rest := fun member => outside (image.split ▸ List.mem_append_right taken member)
    refine word z (fun member => notLeft (List.mem_cons_of_mem x (movedLeft z member))) (fun p short found => ?_) ?_
    · exact outside (image.split ▸ List.mem_append_left _ (image.inside p z short found))
    · rintro rfl
      exact notLeft xLeft

/-! ## `uvm_alloc` -/

namespace Image

theorem same_words (image : Image start root M page m taken pages) {gone : List UInt64} (words : m'.word = m.word)
    (split : pages = gone ++ pages') (supply : Supply m' true pages') :
    Image start root M page m' (taken ++ gone) pages' := by
  have child : m'.child = m.child := by
    funext t i
    rw [Memory.child, Memory.child, words]
  have entry : ∀ k, m'.entry root k = m.entry root k := fun k => by rw [Memory.entry, Memory.entry, child, words]
  refine ⟨image.nodup, image.bound, ?_, supply, ⟨?_, ?_⟩, ?_, ?_, ?_, ?_, ?_, image.distinct, ?_⟩
  · rw [image.split, split, List.append_assoc]
  · rw [child]
    exact image.tables.distinct
  · intro p z short found
    rw [child] at found
    exact fun left => image.tables.used p z short found (split ▸ List.mem_append_right gone left)
  · rw [TablesBelow, child]
    exact image.below
  · intro p z short found
    rw [child] at found
    exact List.mem_append_left gone (image.inside p z short found)
  · exact fun k less => (entry k).trans (image.mapped k less)
  · exact fun k low small => (entry k).trans (image.beyond k low small)
  · intro k less
    obtain ⟨isTaken, rest⟩ := image.owned k less
    exact ⟨List.mem_append_left gone isTaken, rest⟩
  · rw [child]
    exact image.apart

theorem leaked {x : UInt64} {rest : List UInt64} {path : List (Fin 512)} {m₁ : Memory}
    (image : Image start root M page m taken (x :: rest)) (words : m₁.word = m.word)
    (extended : Extended true root path (m₁.memset x) rest m' [] rest) :
    Growth start root M page m M page m' (taken ++ [x]) rest := by
  obtain ⟨cleared, same, entries⟩ := image.tables.memset words
  have entry : ∀ k, m'.entry root k = m.entry root k := fun k => (extended.entry cleared k).trans (entries k)
  have descends : ∀ p, p.length ≤ 3 → descend m'.child root p = descend m.child root p := by
    intro p short
    rw [← same p short]
    cases found : descend (m₁.memset x).child root p with
    | some z => exact extended.keeps p z short found
    | none =>
      cases found' : descend m'.child root p with
      | none => rfl
      | some z =>
        rcases extended.adds p z short found' with old | ⟨_, member, _⟩
        · exact absurd (found.symm.trans old) (by simp)
        · exact absurd member List.not_mem_nil
  have isLeft : x ∈ x :: rest := List.mem_cons_self
  have word : ∀ z, z ≠ x → (∀ p, p.length ≤ 3 → descend m.child root p ≠ some z) → m'.word z = m.word z := by
    intro z other notTable
    rw [extended.frame z List.not_mem_nil fun p short found => notTable p (by omega)
      ((same p (by omega)).symm.trans found),
      memset_word other, words]
  refine ⟨⟨image.nodup, image.bound, ?_, extended.supply, extended.tables, ?_, ?_, ?_, ?_, ?_, image.distinct,
    ?_⟩, le_rfl,
    fun _ _ => rfl, ?_, fun k low high => absurd high (by omega), ?_⟩
  · rw [image.split]
    simp
  · intro q short
    rw [descends q short]
    exact image.below q short
  · intro p z short found
    rw [descends p short] at found
    exact List.mem_append_left _ (image.inside p z short found)
  · exact fun k less => (entry k).trans (image.mapped k less)
  · exact fun k low small => (entry k).trans (image.beyond k low small)
  · intro k less
    obtain ⟨isTaken, aligned⟩ := image.owned k less
    exact ⟨List.mem_append_left _ isTaken, aligned⟩
  · intro k less p short
    rw [descends p short]
    exact image.apart k less p short
  · intro k less
    refine word (page k) ?_ (image.apart k less)
    intro isX
    exact image.unused (image.owned k less).1 (isX ▸ isLeft)
  · intro z outside
    refine word z ?_ fun p short found => outside
      (image.split ▸ List.mem_append_left _ (image.inside p z short found))
    rintro rfl
    exact outside (image.split ▸ List.mem_append_right taken isLeft)

/-- `uvm_alloc` from a page of the address space or the first one after it: it fails, or the address
space has been extended up to the new size. A page that is there already makes it fail. -/
theorem alloc (image : Image start root M page m taken pages) {a newsz : UInt64} {k : Nat} {r : Int64} (fuel : Nat)
    (isPage : a.toNat = 4096 * k) (within : k ≤ M) (ran : allocPages root newsz fuel a m = some (r, m')) :
    ∃ M' page' taken' pages', Growth start root M page m M' page' m' taken' pages' ∧
      (r = 0 ∨ r = newsz.toInt64 ∧ M' = max M (pagesBelow newsz) ∧ (a < newsz → k = M) ∧
        (taken.length = needed M → taken'.length = needed M' ∧ (M < M' → Affords start.length M'))) := by
  induction fuel generalizing M page m taken pages a k with
  | zero => simp [allocPages] at ran
  | succ fuel ih =>
    have size := image.size_le
    by_cases below : a < newsz
    · have less := UInt64.lt_iff_toNat_lt.mp below
      have turn := allocPages_turn fuel isPage (by omega) below image.supply image.tables
      rw [ran] at turn
      generalize isNext : allocPages root newsz fuel (a + PGSIZE) = next at turn
      generalize isResult : some (r, m') = result at turn
      cases turn with
      | stuck => simp at isResult
      | null words last spent =>
        simp only [Option.some.injEq, Prod.mk.injEq] at isResult
        obtain ⟨rfl, rfl⟩ := isResult
        refine ⟨M, page, taken ++ [0], [], ⟨?_, le_rfl, fun _ _ => rfl, fun k _ => by rw [words],
          fun k low high => absurd high (by omega), fun z _ => by rw [words]⟩, .inl rfl⟩
        exact image.same_words words last spent
      | present notNull split present words extended =>
        simp only [Option.some.injEq, Prod.mk.injEq] at isResult
        obtain ⟨rfl, rfl⟩ := isResult
        subst split
        exact ⟨M, page, _, _, image.leaked words extended, .inl rfl⟩
      | @mapped m₁ m₂ x rest moved pages₂ _ notNull split absent words sizes entered =>
        subst isNext split
        obtain rfl : k = M := by
          by_contra other
          exact absent (image.mapped k (by omega) ▸ userEntry_present (page k))
        have grown := image.entered notNull words entered
        have next : (a + PGSIZE).toNat = 4096 * (k + 1) := by
          rw [UInt64.toNat_add, isPage]
          simp only [PGSIZE, UInt64.reduceToNat]
          omega
        obtain ⟨M', page', taken', pages', growth, outcome⟩ := ih grown.image next le_rfl isResult.symm
        refine ⟨M', page', taken', pages', grown.trans growth, ?_⟩
        rcases outcome with failed | ⟨done, size, _, counts⟩
        · exact .inl failed
        · refine .inr ⟨done, ?_, fun _ => rfl, fun count => ?_⟩
          · rw [size, pagesBelow]
            omega
          · have missing := missing_next image.below (show k < 2 ^ 36 by omega)
            have total := congrArg List.length image.split
            have nullLeft := image.supply.more notNull
            have tables := congrArg List.length entered.split
            rw [List.length_append, List.length_cons] at total
            rw [List.length_append] at tables
            have count' : (taken ++ x :: moved).length = needed (k + 1) := by
              rw [List.length_append, List.length_cons, sizes, count]
              omega
            obtain ⟨length, affords⟩ := counts count'
            refine ⟨length, fun _ => ?_⟩
            by_cases more : k + 1 < M'
            · exact affords more
            · obtain rfl : M' = k + 1 := by
                have := growth.le
                omega
              exact ⟨by rw [Nat.add_sub_cancel]; omega, by omega⟩
    · rw [allocPages, if_neg below, Option.some.injEq, Prod.mk.injEq] at ran
      obtain ⟨rfl, rfl⟩ := ran
      rw [UInt64.lt_iff_toNat_lt] at below
      refine ⟨M, page, taken, pages, Growth.refl image,
        .inr ⟨rfl, ?_, ?_, fun count => ⟨count, fun more => absurd more (by omega)⟩⟩⟩
      · rw [pagesBelow]
        omega
      · intro below'
        exact absurd (UInt64.lt_iff_toNat_lt.mp below') below

/-- With enough pages, `uvm_alloc` fails only at a page that is there already. -/
theorem alloc_returns (image : Image start root M page m taken pages) (count : taken.length = needed M)
    {a newsz : UInt64} {k : Nat} (fuel : Nat) (isPage : a.toNat = 4096 * k) (within : k ≤ M)
    (collides : a < newsz → k = M)
    (enough : M < max M (pagesBelow newsz) → Affords start.length (max M (pagesBelow newsz)))
    (long : pagesBelow newsz - k < fuel) :
    ∃ page' m' taken' pages', allocPages root newsz fuel a m = some (newsz.toInt64, m') ∧
      Growth start root M page m (max M (pagesBelow newsz)) page' m' taken' pages' := by
  induction fuel generalizing M page m taken pages a k with
  | zero => exact absurd long (Nat.not_lt_zero _)
  | succ fuel ih =>
    have size := image.size_le
    by_cases below : a < newsz
    · have less := UInt64.lt_iff_toNat_lt.mp below
      obtain rfl := collides below
      have more : k + 1 ≤ pagesBelow newsz := by
        rw [pagesBelow]
        omega
      have missing := missing_next image.below (show k < 2 ^ 36 by omega)
      obtain ⟨pageLeft, allLeft⟩ := enough (by omega)
      have first := needed_le (show k ≤ max k (pagesBelow newsz) - 1 by omega)
      have next := needed_le (show k + 1 ≤ max k (pagesBelow newsz) by omega)
      have total := congrArg List.length image.split
      rw [List.length_append] at total
      have turn := allocPages_turn fuel isPage (by omega) below image.supply image.tables
      generalize isNext : allocPages root newsz fuel (a + PGSIZE) = next at turn
      generalize isResult : allocPages root newsz (fuel + 1) a m = result at turn ⊢
      cases turn with
      | stuck short => omega
      | null words last spent =>
        rw [last, List.length_singleton] at total
        omega
      | present notNull split present words extended =>
        rw [image.beyond k le_rfl (by omega)] at present
        exact absurd present not_present_zero
      | @mapped m₁ m₂ x rest moved pages₂ _ notNull split absent words size entered =>
        subst isNext split
        have grown := image.entered notNull words entered
        have next : (a + PGSIZE).toNat = 4096 * (k + 1) := by
          rw [UInt64.toNat_add, isPage]
          simp only [PGSIZE, UInt64.reduceToNat]
          omega
        have count' : (taken ++ x :: moved).length = needed (k + 1) := by
          rw [List.length_append, List.length_cons, size, count]
          omega
        have same : max (k + 1) (pagesBelow newsz) = max k (pagesBelow newsz) := by omega
        obtain ⟨page', m', taken', pages', done, growth⟩ := ih grown.image count' next le_rfl (fun _ => rfl)
          (fun _ => same ▸ ⟨pageLeft, allLeft⟩) (by omega)
        rw [same] at growth
        exact ⟨page', m', taken', pages', done, grown.trans growth⟩
    · rw [UInt64.lt_iff_toNat_lt] at below
      have same : max M (pagesBelow newsz) = M := by
        rw [pagesBelow]
        omega
      rw [same, allocPages, if_neg (by rwa [UInt64.lt_iff_toNat_lt])]
      exact ⟨page, m, taken, pages, rfl, Growth.refl image⟩

end Image

end

end Xv6.Vm
