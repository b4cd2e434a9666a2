import Xv6.Vm.Exhaustion
import Xv6.Vm.Isolation
import Xv6.Vm.Reclaiming

/-! Page tables that are assembled from an empty root.

A page table grows by tables that `pgdir_walk` links in and by entries for pages that
`kalloc` gave. Whatever else happens in between, `map_region`, `uvm_alloc` and `uvm_copy`
do nothing more to it.
-/

set_option autoImplicit false

namespace Xv6.Vm

open Library

/-- The page table with this root has been assembled from pages of `kalloc`. -/
inductive Assembled (kend root : UInt64) : Memory → List UInt64 → Prop where
  /-- a page is taken for the root, and cleared -/
  | empty {m : Memory} {free : List UInt64} (heap : Free m (root :: free)) (above : ∀ a ∈ root :: free, kend ≤ a) :
      Assembled kend root ((m.pop root).memset root) free
  /-- other memory changes, and other pages are taken or freed -/
  | elsewhere {m m' : Memory} {free free' : List UInt64} (assembled : Assembled kend root m free)
      (heap : Free m' free') (above : ∀ a ∈ free', kend ≤ a)
      (same : ∀ z, Within m.child 4 root z → m'.word z = m.word z)
      (unused : ∀ z, Within m.child 5 root z → z ∉ free') :
      Assembled kend root m' free'
  /-- a page is taken for a table that is missing -/
  | link {m m₁ : Memory} {p : List (Fin 512)} {tb a : UInt64} {i : Fin 512} {free : List UInt64}
      (assembled : Assembled kend root m (a :: free)) (reached : descend m.child root p = some tb)
      (short : p.length < 3) (absent : m.child tb i = none) (allocated : kalloc m = some (a, m₁)) :
      Assembled kend root (m₁.link tb i a) free
  /-- an entry is made for a page that is neither free nor a table -/
  | enter {m : Memory} {p : List (Fin 512)} {t e : UInt64} {i : Fin 512} {free : List UInt64}
      (assembled : Assembled kend root m free) (reached : descend m.child root p = some t)
      (long : p.length = 3) (absent : m.child t i = none) (unused : frame e ∉ free)
      (apart : ¬ Within m.child 4 root (frame e)) :
      Assembled kend root (m.store t i e) free

/-- The tables are distinct pages that are not free, and so are the pages that they map. -/
structure Tree (kend root : UInt64) (m : Memory) (free : List UInt64) : Prop where
  heap : Free m free
  above : ∀ a ∈ free, kend ≤ a
  tables : Subtree kend 4 m free root
  leaf : ∀ p t i, p.length = 3 → descend m.child root p = some t → Present (m.word t i) →
    frame (m.word t i) ∉ free ∧ ¬ Within m.child 4 root (frame (m.word t i))

section
variable {kend root a t e va : UInt64} {m m' m₁ : Memory} {free free' : List UInt64} {p : List (Fin 512)}
  {i : Fin 512}

theorem distinctIn_four {child : UInt64 → Fin 512 → Option UInt64} :
    DistinctIn child 4 root ↔ DistinctTo child 3 root := by
  constructor
  · intro distinct p q z shortP shortQ
    exact distinct p q z (Nat.lt_succ_of_le shortP) (Nat.lt_succ_of_le shortQ)
  · intro distinct p q z shortP shortQ
    exact distinct p q z (Nat.le_of_lt_succ shortP) (Nat.le_of_lt_succ shortQ)

theorem within_five (reached : descend m.child root p = some t) (long : p.length = 3)
    (present : Present (m.word t i)) :
    Within m.child 5 root (frame (m.word t i)) := by
  refine ⟨p ++ [i], by simp [long], ?_⟩
  rw [descend_concat, reached, Option.bind_some, Memory.child, if_pos present]

namespace Tree

theorem walkable (tree : Tree kend root m free) : Tables m free root :=
  ⟨distinctIn_four.mp tree.tables.distinct, fun p x short found => tree.tables.unused x
    ⟨p, Nat.lt_succ_of_le short, found⟩⟩

theorem of_zero (heap : Free m free) (above : ∀ a ∈ free, kend ≤ a) (zero : ∀ i, m.word root i = 0)
    (unused : root ∉ free) (page : IsPage root ∧ kend ≤ root) : Tree kend root m free := by
  refine ⟨heap, above, ⟨?_, ?_, ?_, ?_⟩, ?_⟩
  · intro p q z _ _ foundP foundQ
    rw [(descend_zero zero foundP).1, (descend_zero zero foundQ).1]
  · rintro z ⟨p, _, found⟩
    rw [(descend_zero zero found).2]
    exact unused
  · rintro z ⟨p, _, found⟩
    rw [(descend_zero zero found).2]
    exact page
  · rintro z i ⟨p, _, found⟩ present
    rw [(descend_zero zero found).2, zero] at present
    exact absurd present not_present_zero
  · intro p t i long found
    rw [(descend_zero zero found).1] at long
    cases long

theorem empty (heap : Free m (root :: free)) (above : ∀ a ∈ root :: free, kend ≤ a) :
    Tree kend root ((m.pop root).memset root) free := by
  have unused : root ∉ free := (List.nodup_cons.mp heap.nodup).1
  apply of_zero (heap.kalloc.2.memset unused) (fun b member => above b (List.mem_cons_of_mem root member)) ?_ unused
    ⟨heap.page root List.mem_cons_self, above root List.mem_cons_self⟩
  intro i
  simp [Memory.memset]

theorem elsewhere (tree : Tree kend root m free) (heap : Free m' free') (above : ∀ a ∈ free', kend ≤ a)
    (same : ∀ z, Within m.child 4 root z → m'.word z = m.word z) (unused : ∀ z, Within m.child 5 root z → z ∉ free') :
    Tree kend root m' free' := by
  have reach : ∀ q, q.length ≤ 4 → descend m'.child root q = descend m.child root q := fun q short =>
    descend_congr (d := 4) (fun r z i shorter found => child_congr (congrFun (same z ⟨r, shorter, found⟩) i)) short
  have within : ∀ z, Within m'.child 4 root z ↔ Within m.child 4 root z :=
    fun z => within_congr fun z inside i => child_congr (congrFun (same z inside) i)
  refine ⟨heap, above, tree.tables.congr same ?_, ?_⟩
  · rintro z ⟨q, short, found⟩
    exact unused z ⟨q, by omega, found⟩
  · intro q t i long found present
    rw [reach q (by omega)] at found
    rw [same t ⟨q, by omega, found⟩] at present ⊢
    rw [within]
    exact ⟨unused _ (within_five found long present), (tree.leaf q t i long found present).2⟩

theorem link {tb : UInt64} (tree : Tree kend root m (a :: free)) (reached : descend m.child root p = some tb)
    (short : p.length < 3) (absent : m.child tb i = none) (allocated : kalloc m = some (a, m₁)) :
    Tree kend root (m₁.link tb i a) free ∧ descend (m₁.link tb i a).child root (p ++ [i]) = some a ∧
      frame ((m₁.link tb i a).word tb i) = a ∧
      ∀ z, Within (m₁.link tb i a).child 4 root z → Within m.child 4 root z ∨ z = a := by
  obtain ⟨given, left⟩ := tree.heap.kalloc
  obtain rfl : m.pop a = m₁ := (Prod.mk.inj (Option.some.inj (given.symm.trans allocated))).2
  obtain ⟨extended, linked, empty⟩ :=
    Extended.link (.free tree.heap) tree.walkable (.free left) rfl reached short absent (List.prefix_refl _)
  have tbUsed : tb ∉ a :: free := tree.walkable.used p tb short.le reached
  have other : tb ≠ a := fun equal => tbUsed (equal ▸ List.mem_cons_self)
  obtain ⟨m', isM⟩ : ∃ m', m' = (m.pop a).link tb i a := ⟨_, rfl⟩
  have word : ∀ z j, m'.word z j =
      if z = a then 0 else if z = tb ∧ j = i then V2P a ||| tableBits else m.word z j := by
    intro z j
    rw [isM, link_word other]
    rfl
  rw [← isM] at extended linked empty ⊢
  have isFrame : frame (m'.word tb i) = a := by
    have present : Present (m'.word tb i) := by
      by_contra missing
      rw [child_none.mpr missing] at linked
      cases linked
    rw [Memory.child, if_pos present] at linked
    exact Option.some.inj linked
  have adds : ∀ q z, q.length ≤ 3 → descend m'.child root q = some z → descend m.child root q = some z ∨ z = a := by
    intro q z shortQ found
    rcases extended.adds q z shortQ found with old | ⟨_, isTaken, _⟩
    · exact .inl old
    · exact .inr (List.mem_singleton.mp isTaken)
  have within : ∀ z, Within m'.child 4 root z → Within m.child 4 root z ∨ z = a := by
    rintro z ⟨q, shortQ, found⟩
    rcases adds q z (by omega) found with old | isNew
    · exact .inl ⟨q, shortQ, old⟩
    · exact .inr isNew
  have old_ne : ∀ q z, q.length ≤ 3 → descend m.child root q = some z → z ≠ a := by
    rintro q z shortQ found rfl
    exact tree.walkable.used q z shortQ found List.mem_cons_self
  refine ⟨⟨extended.supply.heap, fun b member => tree.above b (List.mem_cons_of_mem a member), ⟨?_, ?_, ?_, ?_⟩,
    ?_⟩, ?_,
    isFrame, within⟩
  · exact distinctIn_four.mpr extended.tables.distinct
  · rintro z ⟨q, shortQ, found⟩
    exact extended.tables.used q z (by omega) found
  · intro z inside
    rcases within z inside with old | rfl
    · exact tree.tables.page z old
    · exact ⟨tree.heap.page z List.mem_cons_self, tree.above z List.mem_cons_self⟩
  · rintro z j ⟨q, shortQ, found⟩ present
    rcases adds q z (by omega) found with old | rfl
    · rw [word, if_neg (old_ne q z (by omega) old)] at present ⊢
      by_cases here : z = tb ∧ j = i
      · rw [if_pos here]
        exact or_and_ne_zero _ (by decide)
      · rw [if_neg here] at present ⊢
        exact tree.tables.marked z j ⟨q, shortQ, old⟩ present
    · rw [word, if_pos rfl] at present
      exact absurd present not_present_zero
  · intro q t j long found present
    rcases adds q t (by omega) found with old | rfl
    · have here : ¬ (t = tb ∧ j = i) := by
        rintro ⟨rfl, _⟩
        have equal := tree.walkable.distinct q p t (by omega) (by omega) old reached
        rw [equal] at long
        omega
      rw [word, if_neg (old_ne q t (by omega) old), if_neg here] at present ⊢
      obtain ⟨notFree, apart⟩ := tree.leaf q t j long old present
      rw [List.mem_cons, not_or] at notFree
      refine ⟨notFree.2, fun inside => ?_⟩
      rcases within _ inside with before | isNew
      · exact apart before
      · exact notFree.1 isNew
    · rw [word, if_pos rfl] at present
      exact absurd present not_present_zero
  · exact descend_concat_some.mpr ⟨tb, extended.keeps p tb short.le reached, linked⟩

theorem enter (tree : Tree kend root m free) (reached : descend m.child root p = some t) (long : p.length = 3)
    (unused : frame e ∉ free) (apart : ¬ Within m.child 4 root (frame e)) :
    Tree kend root (m.store t i e) free ∧ ∀ z, Within (m.store t i e).child 4 root z ↔ Within m.child 4 root z := by
  have notHere : ∀ q z, q.length ≤ 2 → descend m.child root q = some z → z ≠ t := by
    rintro q z shortQ found rfl
    have equal := tree.walkable.distinct q p z (by omega) (by omega) found reached
    rw [equal] at shortQ
    omega
  have reach : ∀ q, q.length ≤ 3 → descend (m.store t i e).child root q = descend m.child root q := fun q shortQ =>
    descend_congr (d := 3) (fun r z j shorter found =>
      child_congr (congrFun (store_word (notHere r z (by omega) found) i e) j)) shortQ
  have within : ∀ z, Within (m.store t i e).child 4 root z ↔ Within m.child 4 root z := by
    refine fun z => exists_congr fun q => and_congr_right fun shortQ => ?_
    rw [reach q (by omega)]
  refine ⟨⟨tree.heap.store (tree.walkable.used p t (by omega) reached) i e, tree.above, ⟨?_, ?_, ?_, ?_⟩, ?_⟩, within⟩
  · intro q r z shortQ shortR foundQ foundR
    rw [reach q (by omega)] at foundQ
    rw [reach r (by omega)] at foundR
    exact tree.tables.distinct q r z shortQ shortR foundQ foundR
  · exact fun z inside => tree.tables.unused z ((within z).mp inside)
  · exact fun z inside => tree.tables.page z ((within z).mp inside)
  · rintro z j ⟨q, shortQ, found⟩ present
    rw [reach q (by omega)] at found
    rw [store_word (notHere q z (by omega) found)] at present ⊢
    exact tree.tables.marked z j ⟨q, shortQ, found⟩ present
  · intro q z j long' found present
    rw [reach q (by omega)] at found
    rw [within]
    by_cases isTable : z = t
    · subst isTable
      by_cases isEntry : j = i
      · subst isEntry
        rw [store_self]
        exact ⟨unused, apart⟩
      · rw [store_beside m z isEntry] at present ⊢
        exact tree.leaf q z j long' found present
    · rw [store_word isTable] at present ⊢
      exact tree.leaf q z j long' found present

end Tree

theorem Assembled.tree (assembled : Assembled kend root m free) : Tree kend root m free := by
  induction assembled with
  | empty heap above => exact Tree.empty heap above
  | elsewhere _ heap above same unused ih => exact ih.elsewhere heap above same unused
  | link _ reached short absent allocated ih => exact (ih.link reached short absent allocated).1
  | enter _ reached long _ unused apart ih => exact (ih.enter reached long unused apart).1

/-! ## The functions that build -/

theorem Free.kalloc_cases (heap : Free m free) (allocated : Vm.kalloc m = some (a, m₁)) :
    (a = 0 ∧ m₁.kmemcslock = true) ∨ ∃ rest, free = a :: rest ∧ m₁ = m.pop a ∧ Free m₁ rest := by
  cases free with
  | nil =>
    have null : m.free_list = 0 := heap.linked
    rw [Vm.kalloc, heap.unlocked, if_neg Bool.false_ne_true, if_pos null] at allocated
    cases allocated
    exact .inl ⟨rfl, rfl⟩
  | cons b rest =>
    obtain ⟨given, left⟩ := heap.kalloc
    rw [given] at allocated
    cases allocated
    exact .inr ⟨rest, rfl, rfl, left⟩

structure Grows (kend root : UInt64) (m : Memory) (free : List UInt64) (m' : Memory) (free' : List UInt64) :
    Prop where
  assembled : Assembled kend root m' free'
  fewer : ∀ z ∈ free', z ∈ free
  gained : ∀ z, Within m'.child 4 root z → Within m.child 4 root z ∨ z ∈ free

def Fresh (m : Memory) (root : UInt64) (free : List UInt64) (page : UInt64) : Prop :=
  page ∉ free ∧ ¬ Within m.child 4 root page

theorem Grows.refl (assembled : Assembled kend root m free) : Grows kend root m free m free :=
  ⟨assembled, fun _ => id, fun _ => .inl⟩

theorem Grows.trans {m₂ : Memory} {free₂ : List UInt64} (first : Grows kend root m free m' free')
    (second : Grows kend root m' free' m₂ free₂) : Grows kend root m free m₂ free₂ where
  assembled := second.assembled
  fewer z member := first.fewer z (second.fewer z member)
  gained z inside := by
    rcases second.gained z inside with before | isFree
    · exact first.gained z before
    · exact .inr (first.fewer z isFree)

theorem Grows.fresh {page : UInt64} (grows : Grows kend root m free m' free') (fresh : Fresh m root free page) :
    Fresh m' root free' page := by
  refine ⟨fun isFree => fresh.1 (grows.fewer page isFree), fun inside => ?_⟩
  rcases grows.gained page inside with before | isFree
  · exact fresh.2 before
  · exact fresh.1 isFree

theorem copyPages_held {old new sz copied : UInt64} {n : Nat} (held : m.kmemcslock = true)
    (ran : copyPages old new sz n a m = some (copied, m')) : m'.kmemcslock = true := by
  cases n with
  | zero => cases ran
  | succ n =>
    rw [copyPages] at ran
    split at ran
    · rw [pgdirWalk_read] at ran
      dsimp only [Option.bind_eq_bind, Option.bind_some] at ran
      split at ran
      · cases ran
        exact held
      · split at ran
        · cases ran
          exact held
        · rw [kalloc, if_pos held] at ran
          cases ran
    · cases ran
      exact held

theorem copyPages_returns {old new sz copied : UInt64} {n : Nat}
    (ran : copyPages old new sz n a m = some (copied, m')) :
    copied = new ∨ copied = 0 := by
  induction n generalizing a m with
  | zero => cases ran
  | succ n ih =>
    rw [copyPages] at ran
    split at ran
    · obtain ⟨⟨place, m₁⟩, _, rest⟩ := Option.bind_eq_some_iff.mp ran
      dsimp only at rest
      split at rest
      · cases rest
        exact .inr rfl
      · split at rest
        · cases rest
          exact .inr rfl
        · obtain ⟨⟨page, m₂⟩, _, rest⟩ := Option.bind_eq_some_iff.mp rest
          dsimp only at rest
          split at rest
          · cases rest
            exact .inr rfl
          · obtain ⟨⟨failed, m₃⟩, _, rest⟩ := Option.bind_eq_some_iff.mp rest
            dsimp only at rest
            split at rest
            · cases rest
              exact .inr rfl
            · exact ih rest
    · cases ran
      exact .inl rfl

namespace Assembled

theorem unused (assembled : Assembled kend root m free) {z : UInt64} (inside : Within m.child 5 root z) :
    z ∉ free := by
  obtain ⟨p, short, found⟩ := inside
  by_cases long : p.length = 4
  · obtain ⟨q, i, t, rfl, three, reached, next⟩ := last_table long found
    have present : Present (m.word t i) := by
      by_contra missing
      rw [child_none.mpr missing] at next
      cases next
    rw [Memory.child, if_pos present, Option.some.injEq] at next
    rw [← next]
    exact (assembled.tree.leaf q t i three reached present).1
  · exact assembled.tree.tables.unused z ⟨p, by omega, found⟩

theorem take (assembled : Assembled kend root m (a :: free)) (heap : Free m' free)
    (words : ∀ z, z ≠ a → m'.word z = m.word z) :
    Assembled kend root m' free ∧ Fresh m' root free a := by
  have other : ∀ z, Within m.child 4 root z → z ≠ a := by
    rintro z inside rfl
    exact assembled.tree.tables.unused z inside List.mem_cons_self
  have same : ∀ z, Within m.child 4 root z → m'.word z = m.word z := fun z inside => words z (other z inside)
  refine ⟨assembled.elsewhere heap (fun b member => assembled.tree.above b
    (List.mem_cons_of_mem a member)) same ?_, ?_, ?_⟩
  · exact fun z inside member => assembled.unused inside (List.mem_cons_of_mem a member)
  · exact (List.nodup_cons.mp assembled.tree.heap.nodup).1
  · intro inside
    have before := (within_congr fun z inside i => child_congr (congrFun (same z inside) i)).mp inside
    exact other a before rfl

theorem walkLevels {levels : List Nat} {tb : UInt64} {r : Option UInt64} (assembled : Assembled kend root m free)
    (reached : descend m.child root p = some tb) (room : p.length + levels.length = 3)
    (ran : walkLevels true va levels tb m = some (r, m')) (released : m'.kmemcslock = false) :
    ∃ t free' q, r = some t ∧ Grows kend root m free m' free' ∧ q.length = 3 ∧ descend m'.child root q = some t := by
  induction levels generalizing tb m p free with
  | nil =>
    cases ran
    exact ⟨tb, free, p, rfl, .refl assembled, room, reached⟩
  | cons i levels ih =>
    rw [List.length_cons] at room
    have further : (p ++ [PTX i va]).length + levels.length = 3 := by
      rw [List.length_append, List.length_singleton]
      omega
    rw [Vm.walkLevels] at ran
    by_cases present : Present (m.word tb (PTX i va))
    · rw [if_neg ((missing_entry _).not.mpr (not_not.mpr present))] at ran
      have next : m.child tb (PTX i va) = some (frame (m.word tb (PTX i va))) := if_pos present
      exact ih assembled (descend_concat_some.mpr ⟨tb, reached, next⟩) further ran
    · rw [if_pos ((missing_entry _).mpr present), if_pos rfl] at ran
      obtain ⟨⟨address, m₁⟩, allocated, rest⟩ := Option.bind_eq_some_iff.mp ran
      rcases assembled.tree.heap.kalloc_cases allocated with ⟨_, held⟩ | ⟨free₁, rfl, _, _⟩
      · have stays := (walkLevels_held_iff rest).mpr (.inl held)
        rw [released] at stays
        cases stays
      · have absent := child_none.mpr present
        have short : p.length < 3 := by omega
        obtain ⟨_, reached', isFrame, gained⟩ := assembled.tree.link reached short absent allocated
        have linked : Grows kend root m (address :: free₁) (m₁.link tb (PTX i va) address) free₁ := by
          refine ⟨assembled.link reached short absent allocated, fun z => List.mem_cons_of_mem address,
            fun z inside => ?_⟩
          rcases gained z inside with before | rfl
          · exact .inl before
          · exact .inr List.mem_cons_self
        have walked : Vm.walkLevels true va levels (frame ((m₁.link tb (PTX i va) address).word tb (PTX i va)))
          (m₁.link tb (PTX i va) address) = some (r, m') := rest
        rw [isFrame] at walked
        obtain ⟨t, free', q, found, grows, long, last⟩ := ih linked.assembled reached' further walked
        exact ⟨t, free', q, found, linked.trans grows, long, last⟩

theorem mapPages {vaend tail v pa : UInt64} {n : Nat} {r : Int} (assembled : Assembled kend root m free)
    (bound : vaend.toNat ≤ 2 ^ 64 - 4096) (fresh : ∀ k, v.toNat + 4096 * k < vaend.toNat →
      Fresh m root free (frame (tail ||| ((pa + UInt64.ofNat (4096 * k)) >>> 12 <<< 12))))
    (ran : mapPages root vaend tail n v pa m = some (r, m')) (released : m'.kmemcslock = false) :
    ∃ free', Grows kend root m free m' free' := by
  induction n generalizing v pa m free with
  | zero => cases ran
  | succ n ih =>
    rw [Vm.mapPages] at ran
    by_cases inside : v < vaend
    · rw [if_pos inside] at ran
      obtain ⟨⟨place, m₁⟩, walked, rest⟩ := Option.bind_eq_some_iff.mp ran
      obtain ⟨⟨tb, m₂⟩, ranLevels, same⟩ := Option.map_eq_some_iff.mp walked
      cases same
      have unlocked : m₁.kmemcslock = false := by
        by_contra held
        rw [Bool.not_eq_false] at held
        cases tb with
        | none =>
          cases rest
          rw [held] at released
          cases released
        | some tb =>
          dsimp only [Option.map_some] at rest
          split at rest
          · cases rest
            rw [held] at released
            cases released
          · have stays := (mapPages_held_iff rest).mpr (.inl held)
            rw [released] at stays
            cases stays
      obtain ⟨t, free₁, q, rfl, grows, long, reached⟩ := assembled.walkLevels (descend_nil _ _) rfl ranLevels unlocked
      dsimp only [Option.map_some] at rest
      by_cases present : m₁.word t (PTX 3 v) &&& PTE_P ≠ 0
      · rw [if_pos present] at rest
        cases rest
        exact ⟨free₁, grows⟩
      · rw [if_neg present] at rest
        have less := UInt64.lt_iff_toNat_lt.mp inside
        have first := fresh 0 (by omega)
        rw [Nat.mul_zero, show pa + UInt64.ofNat 0 = pa from UInt64.add_zero pa] at first
        obtain ⟨unused, apart⟩ := grows.fresh first
        have absent : m₁.child t (PTX 3 v) = none := child_none.mpr present
        obtain ⟨_, within⟩ := grows.assembled.tree.enter (i := PTX 3 v) reached long unused apart
        have entered := grows.trans ⟨grows.assembled.enter reached long absent unused apart, fun _ => id,
          fun z inside => .inl ((within z).mp inside)⟩
        have next : (v + PGSIZE).toNat = v.toNat + 4096 := by
          rw [UInt64.toNat_add]
          simp only [PGSIZE, UInt64.reduceToNat]
          omega
        have freshRest : ∀ k, (v + PGSIZE).toNat + 4096 * k < vaend.toNat → Fresh (m₁.store t (PTX 3 v)
            (tail ||| (pa >>> 12 <<< 12))) root free₁
              (frame (tail ||| ((pa + PGSIZE + UInt64.ofNat (4096 * k)) >>> 12 <<< 12))) := by
          intro k below
          have moved : pa + PGSIZE + UInt64.ofNat (4096 * k) = pa + UInt64.ofNat (4096 * (k + 1)) := by
            rw [Nat.mul_succ, UInt64.ofNat_add, UInt64.add_assoc, UInt64.add_comm PGSIZE]
            rfl
          rw [moved]
          exact entered.fresh (fresh (k + 1) (by omega))
        obtain ⟨free', later⟩ := ih entered.assembled freshRest rest
        exact ⟨free', entered.trans later⟩
    · rw [if_neg inside] at ran
      cases ran
      exact ⟨free, .refl assembled⟩

theorem mapRegion {page perm : UInt64} {r : Int} (assembled : Assembled kend root m free)
    (aligned : va.toNat % 4096 = 0)
    (isPage : page.toNat % 4096 = 0) (low : perm.toNat < 4096) (fresh : Fresh m root free page)
    (ran : mapRegion root va PGSIZE (V2P page) perm m = some (r, m')) (released : m'.kmemcslock = false) :
    ∃ free', Grows kend root m free m' free' := by
  have small := va.toNat_lt
  have start : (va - va % PGSIZE).toNat = va.toNat := by
    simp only [PGSIZE, UInt64.toNat_sub, UInt64.toNat_mod, UInt64.reduceToNat]
    omega
  have stop : (va + PGSIZE).toNat = (va.toNat + 4096) % 2 ^ 64 := by
    rw [UInt64.toNat_add]
    rfl
  have tailLow : (perm ||| fixed).toNat < 4096 := by
    rw [UInt64.toNat_or]
    exact Nat.or_lt_two_pow (n := 12) low (by decide)
  have isFrame : frame (perm ||| fixed ||| (V2P page >>> 12 <<< 12)) = page := by
    rw [shift_ROUNDDOWN, ROUNDDOWN_aligned (V2P_aligned isPage), UInt64.or_comm, frame_entry isPage tailLow]
  have tail : perm ||| PTE_P ||| PTE_TABLE ||| PTE_AF ||| PTE_NORMAL ||| PTE_USER ||| PTE_SH = perm ||| fixed := by
    simp only [fixed, UInt64.or_assoc]
  refine assembled.mapPages (by omega) (fun k below => ?_) ran released
  obtain rfl : k = 0 := by omega
  rw [Nat.mul_zero, show V2P page + UInt64.ofNat 0 = V2P page from UInt64.add_zero _, tail, isFrame]
  exact fresh

theorem allocPages {newsz : UInt64} {n : Nat} {r : Int64} (assembled : Assembled kend root m free)
    (aligned : a.toNat % 4096 = 0)
    (ran : allocPages root newsz n a m = some (r, m')) (released : m'.kmemcslock = false) :
    ∃ free', Assembled kend root m' free' := by
  induction n generalizing a m free with
  | zero => cases ran
  | succ n ih =>
    rw [Vm.allocPages] at ran
    by_cases below : a < newsz
    · rw [if_pos below] at ran
      obtain ⟨⟨page, m₁⟩, allocated, rest⟩ := Option.bind_eq_some_iff.mp ran
      dsimp only at rest
      rcases assembled.tree.heap.kalloc_cases allocated with ⟨rfl, held⟩ | ⟨free₁, rfl, rfl, left⟩
      · rw [if_pos rfl] at rest
        cases rest
        rw [held] at released
        cases released
      · rw [if_neg assembled.tree.heap.head_ne_zero] at rest
        obtain ⟨⟨failed, m₂⟩, mapped, rest⟩ := Option.bind_eq_some_iff.mp rest
        dsimp only at rest
        have unlocked : m₂.kmemcslock = false := by
          by_contra held
          rw [Bool.not_eq_false] at held
          split at rest
          · cases rest
            rw [held] at released
            cases released
          · have stays := (allocPages_held_iff rest).mpr (.inl held)
            rw [released] at stays
            cases stays
        have notFree := (List.nodup_cons.mp assembled.tree.heap.nodup).1
        obtain ⟨cleared, fresh⟩ := assembled.take (left.memset notFree) fun z other => memset_word other
        obtain ⟨free₂, grows⟩ := cleared.mapRegion aligned (assembled.tree.heap.page page List.mem_cons_self).1
          (by decide) fresh
          mapped unlocked
        split at rest
        · cases rest
          exact ⟨free₂, grows.assembled⟩
        · have next : (a + PGSIZE).toNat % 4096 = 0 := by
            rw [UInt64.toNat_add]
            simp only [PGSIZE, UInt64.reduceToNat]
            omega
          exact ih grows.assembled next rest
    · rw [if_neg below] at ran
      cases ran
      exact ⟨free, assembled⟩

theorem uvmAlloc {oldsz newsz : UInt64} {r : Int64} (assembled : Assembled kend root m free)
    (ran : uvmAlloc root oldsz newsz m = some (r, m')) (released : m'.kmemcslock = false) :
    ∃ free', Assembled kend root m' free' := by
  refine assembled.allocPages ?_ ran released
  rw [ROUNDUP, ROUNDDOWN_toNat]
  omega

theorem copyPages {old sz copied : UInt64} {n : Nat} (assembled : Assembled kend root m free)
    (aligned : a.toNat % 4096 = 0)
    (ran : copyPages old root sz n a m = some (copied, m')) (released : m'.kmemcslock = false) :
    ∃ free', Assembled kend root m' free' := by
  induction n generalizing a m free with
  | zero => cases ran
  | succ n ih =>
    rw [Vm.copyPages] at ran
    by_cases below : a < sz
    · rw [if_pos below, pgdirWalk_read] at ran
      dsimp only [Option.bind_eq_bind, Option.bind_some] at ran
      cases reached : descend m.child old (tablePath (a.toNat / 4096)) with
      | none =>
        rw [reached] at ran
        cases ran
        exact ⟨free, assembled⟩
      | some t =>
        rw [reached] at ran
        dsimp only [Option.map_some] at ran
        obtain ⟨pte, isPte⟩ : ∃ pte, pte = m.word t (Fin.ofNat 512 (a.toNat / 4096)) := ⟨_, rfl⟩
        rw [← isPte] at ran
        split at ran
        · cases ran
          exact ⟨free, assembled⟩
        · obtain ⟨⟨page, m₁⟩, allocated, rest⟩ := Option.bind_eq_some_iff.mp ran
          dsimp only at rest
          rcases assembled.tree.heap.kalloc_cases allocated with ⟨rfl, held⟩ | ⟨free₁, rfl, rfl, left⟩
          · rw [if_pos rfl] at rest
            cases rest
            rw [held] at released
            cases released
          · rw [if_neg assembled.tree.heap.head_ne_zero] at rest
            obtain ⟨⟨failed, m₂⟩, mapped, rest⟩ := Option.bind_eq_some_iff.mp rest
            dsimp only at rest
            have unlocked : m₂.kmemcslock = false := by
              by_contra held
              rw [Bool.not_eq_false] at held
              split at rest
              · cases rest
                rw [held] at released
                cases released
              · have stays := copyPages_held held rest
                rw [released] at stays
                cases stays
            have notFree := (List.nodup_cons.mp assembled.tree.heap.nodup).1
            have low : (pte <<< 52 >>> 52).toNat < 4096 := by
              rw [shift_flags, PTE_FLAGS_toNat]
              exact Nat.mod_lt _ (by decide)
            obtain ⟨filled, fresh⟩ := assembled.take (left.memcpy notFree (P2V (pte >>> 12 <<< 12))) fun z other =>
              memcpy_word other _
            obtain ⟨free₂, grows⟩ := filled.mapRegion aligned
              (assembled.tree.heap.page page List.mem_cons_self).1 low fresh mapped
              unlocked
            split at rest
            · cases rest
              exact ⟨free₂, grows.assembled⟩
            · have next : (a + PGSIZE).toNat % 4096 = 0 := by
                rw [UInt64.toNat_add]
                simp only [PGSIZE, UInt64.reduceToNat]
                omega
              exact ih grows.assembled next rest
    · rw [if_neg below] at ran
      cases ran
      exact ⟨free, assembled⟩

-- `uvm_copy` builds the table that it returns, whatever the old one is.
theorem uvmCopy {old sz new : UInt64} (heap : Free m free) (above : ∀ a ∈ free, kend ≤ a)
    (ran : uvmCopy old sz m = some (new, m')) (notNull : new ≠ 0) (released : m'.kmemcslock = false) :
    ∃ free', Assembled kend new m' free' := by
  obtain ⟨⟨a, m₁⟩, allocated, rest⟩ := Option.bind_eq_some_iff.mp ran
  dsimp only at rest
  rcases heap.kalloc_cases allocated with ⟨rfl, _⟩ | ⟨free₁, rfl, rfl, _⟩
  · rw [if_pos rfl] at rest
    cases rest
    exact absurd rfl notNull
  · rw [if_neg heap.head_ne_zero] at rest
    obtain rfl : a = new := (copyPages_returns rest).resolve_right notNull |>.symm
    exact (Assembled.empty heap above).copyPages (by decide) rest released

end Assembled

end

end Xv6.Vm
