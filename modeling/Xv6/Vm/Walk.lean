import Xv6.Vm.Tables

/-! Walks and new entries in an address space whose nodes are all distinct.

Where neither the tables nor the pages that are mapped are free, what a walk links in and
what `map_region` enters are new nodes, and all others stay as they are.
-/

set_option autoImplicit false

namespace Xv6.Vm

open Library

/-- What walks along `path` with allocation may do: take pages from the front of the free
list and link them in as empty tables along the path. -/
structure Grown (c : Nat) (root : UInt64) (path : List (Fin 512)) (m : Memory) (free : List UInt64) (m' : Memory)
    (taken free' : List UInt64) : Prop where
  split : free = taken ++ free'
  heap : Free m' free'
  space : Space c m' free' root
  keeps : ∀ p z, p.length ≤ 4 → descend m.child root p = some z → descend m'.child root p = some z
  adds : ∀ p z, p.length ≤ 4 → descend m'.child root p = some z →
    descend m.child root p = some z ∨ (descend m.child root p = none ∧ z ∈ taken ∧ p <+: path)
  frame : ∀ z, z ∉ taken → (∀ p, p.length < 3 → descend m.child root p ≠ some z) → m'.word z = m.word z
  leaf : ∀ n, m'.leaf root n = m.leaf root n

theorem Space.tables {c : Nat} {m : Memory} {free : List UInt64} {root : UInt64} (space : Space c m free root)
    (three : 3 ≤ c) : Tables m free root :=
  ⟨space.distinct.mono three, fun p x short found => space.used p x (by omega) found⟩

section
variable {m m' : Memory} {root : UInt64} {c n : Nat} {free free' taken : List UInt64} {path : List (Fin 512)}

theorem last_table {p : List (Fin 512)} {z : UInt64} (long : p.length = 4) (found : descend m.child root p = some z) :
    ∃ q i t, p = q ++ [i] ∧ q.length = 3 ∧ descend m.child root q = some t ∧ m.child t i = some z := by
  obtain ⟨q, i, rfl⟩ : ∃ q i, p = q ++ [i] :=
    ⟨p.dropLast, p.getLast (by rintro rfl; simp at long), (List.dropLast_concat_getLast _).symm⟩
  obtain ⟨t, reached, next⟩ := descend_concat_some.mp found
  exact ⟨q, i, t, rfl, by simpa using long, reached, next⟩

theorem Extended.last (extended : Extended false root path m free m' taken free') (tables : Tables m free root)
    {q : List (Fin 512)} {t : UInt64} (long : q.length = 3) (reached : descend m.child root q = some t) :
    m'.word t = m.word t := by
  refine extended.frame t (extended.fresh tables (by omega) reached) fun p short other => ?_
  have equal := tables.distinct p q t (by omega) (by omega) other reached
  rw [equal] at short
  omega

theorem Grown.of_extended (space : Space c m free root) (three : 3 ≤ c) (four : c ≤ 4)
    (extended : Extended false root path m free m' taken free') : Grown c root path m free m' taken free' := by
  have tables := space.tables three
  have keeps : ∀ p z, p.length ≤ 4 → descend m.child root p = some z → descend m'.child root p = some z := by
    intro p z short found
    by_cases long : p.length = 4
    · obtain ⟨q, i, t, rfl, three', reached, next⟩ := last_table long found
      refine descend_concat_some.mpr ⟨t, extended.keeps q t (by omega) reached, ?_⟩
      rw [child_congr (congrFun (extended.last tables three' reached) i)]
      exact next
    · exact extended.keeps p z (by omega) found
  have adds : ∀ p z, p.length ≤ 4 → descend m'.child root p = some z →
      descend m.child root p = some z ∨ (descend m.child root p = none ∧ z ∈ taken ∧ p <+: path ∧ p.length ≤ 3) := by
    intro p z short found
    by_cases long : p.length = 4
    · obtain ⟨q, i, t, rfl, three', reached, next⟩ := last_table long found
      rcases extended.adds q t (by omega) reached with old | ⟨_, isTaken, _⟩
      · rw [child_congr (congrFun (extended.last tables three' old) i)] at next
        exact .inl (descend_concat_some.mpr ⟨t, old, next⟩)
      · rw [child_none.mpr (by rw [extended.empty q t three' isTaken reached]; exact not_present_zero)] at next
        simp at next
    · rcases extended.adds p z (by omega) found with old | ⟨absent, isTaken, along⟩
      · exact .inl old
      · exact .inr ⟨absent, isTaken, along, by omega⟩
  have fresh : ∀ p z, p.length ≤ 4 → descend m.child root p = some z → z ∉ taken := by
    intro p z short found isTaken
    exact space.used p z short found (extended.split ▸ List.mem_append_left free' isTaken)
  refine ⟨extended.split, extended.supply.heap, ⟨?_, ?_, ?_⟩, keeps, ?_, extended.frame, ?_⟩
  · intro p q z shortP shortQ foundP foundQ
    rcases adds p z (by omega) foundP with oldP | ⟨_, isTaken, _, threeP⟩
    · rcases adds q z (by omega) foundQ with oldQ | ⟨_, isTaken, _⟩
      · exact space.distinct p q z shortP shortQ oldP oldQ
      · exact absurd isTaken (fresh p z (by omega) oldP)
    · rcases adds q z (by omega) foundQ with oldQ | ⟨_, _, _, threeQ⟩
      · exact absurd isTaken (fresh q z (by omega) oldQ)
      · exact extended.tables.distinct p q z threeP threeQ foundP foundQ
  · intro p z short found
    rcases adds p z short found with old | ⟨_, _, _, three'⟩
    · have unused := space.used p z short old
      rw [extended.split, List.mem_append, not_or] at unused
      exact unused.2
    · exact extended.tables.used p z three' found
  · intro p t i long found present
    rcases extended.adds p t (by omega) found with old | ⟨_, isTaken, _⟩
    · rw [extended.last tables long old] at present ⊢
      exact space.made p t i long old present
    · rw [extended.empty p t long isTaken found] at present
      exact absurd present not_present_zero
  · intro p z short found
    rcases adds p z short found with old | ⟨absent, isTaken, along, _⟩
    · exact .inl old
    · exact .inr ⟨absent, isTaken, along⟩
  · intro n
    rw [leaf_entry, leaf_entry, extended.entry tables]

theorem pgdirWalk_alloc {va : UInt64} (isPage : va.toNat / 4096 = n) (heap : Free m free)
    (space : Space c m free root) (three : 3 ≤ c) (four : c ≤ 4)
    (enough : missing m.child root (tablePath n) ≤ free.length) :
    ∃ t m' taken free', pgdirWalk root va true m = some (some (t, Fin.ofNat 512 n), m') ∧
      Grown c root (tablePath n) m free m' taken free' ∧ descend m'.child root (tablePath n) = some t ∧
      taken.length = missing m.child root (tablePath n) := by
  rcases pgdirWalk_extends isPage (.free heap) (space.tables three) with
    ⟨short, _⟩ | ⟨t, m', taken, free', walked, extended, found, size⟩
  · omega
  · exact ⟨t, m', taken, free', walked, Grown.of_extended space three four extended, found, size⟩

structure Entered (c : Nat) (root : UInt64) (n : Nat) (e : UInt64) (m m' : Memory) (free : List UInt64) : Prop where
  heap : Free m' free
  space : Space c m' free root
  reach : ∀ q z, q.length ≤ 4 →
    (descend m'.child root q = some z ↔ descend m.child root q = some z ∨ (q = pagePath n ∧ z = frame e))
  here : m'.leaf root n = some e
  beside : ∀ k, pagePath k ≠ pagePath n → m'.leaf root k = m.leaf root k

theorem entered {t e : UInt64} (heap : Free m free) (space : Space c m free root) (three : 3 ≤ c) (four : c ≤ 4)
    (reached : descend m.child root (tablePath n) = some t) (absent : m.leaf root n = none) (present : Present e)
    (made : e ||| fixed = e) (used : frame e ∉ free)
    (fresh : 3 < c → ∀ q, q.length ≤ c → descend m.child root q ≠ some (frame e)) :
    Entered c root n e m (m.store t (Fin.ofNat 512 n) e) free := by
  obtain ⟨m', isM'⟩ : ∃ m', m' = m.store t (Fin.ofNat 512 n) e := ⟨_, rfl⟩
  have filled := filled (.free heap) (space.tables three) reached e
  rw [← isM'] at filled ⊢
  have reached' := (filled.same (tablePath n) (Nat.le_refl 3)).trans reached
  have here : m'.word t (Fin.ofNat 512 n) = e := (entry_some reached').symm.trans filled.here
  have others : ∀ z, z ≠ t → m'.word z = m.word z :=
    fun z other => filled.frame z fun found => other (Option.some.inj (found.symm.trans reached))
  have beside : ∀ j, j ≠ Fin.ofNat 512 n → m'.word t j = m.word t j := by
    intro j other
    rw [isM', store_beside m t other]
  have absent' : ¬ Present (m.word t (Fin.ofNat 512 n)) := by
    intro isThere
    have found := leaf_some.mpr ⟨t, reached, isThere, rfl⟩
    rw [absent] at found
    simp at found
  have grafts : Grafts m.child m'.child 4 root (tablePath n) t (Fin.ofNat 512 n) (frame e) := by
    refine ⟨reached, by simp [tablePath], child_none.mpr absent', ?_, ?_, ?_, ?_⟩
    · rw [Memory.child, here, if_pos present]
    · exact fun j other => child_congr (beside j other)
    · exact fun q z _ _ other j => child_congr (congrFun (others z other) j)
    · intro deep
      simp [tablePath] at deep
  have reach : ∀ q z, q.length ≤ 4 →
      (descend m'.child root q = some z ↔ descend m.child root q = some z ∨ (q = pagePath n ∧ z = frame e)) := by
    intro q z short
    exact grafts.descend_iff space.distinct (by omega) short z
  refine ⟨filled.supply.heap, ⟨?_, ?_, ?_⟩, reach, ?_, ?_⟩
  · refine grafts.distinctTo space.distinct (by omega) four fun deep => fresh ?_
    simpa [tablePath] using deep
  · intro q z short found
    rcases (reach q z short).mp found with old | ⟨_, rfl⟩
    · exact space.used q z short old
    · exact used
  · intro q z i long found isThere
    have old := (filled.same q (by omega)).symm.trans found
    by_cases isTable : z = t ∧ i = Fin.ofNat 512 n
    · obtain ⟨rfl, rfl⟩ := isTable
      rw [here, made]
    · have same : m'.word z i = m.word z i := by
        by_cases isT : z = t
        · subst isT
          exact beside i fun isI => isTable ⟨rfl, isI⟩
        · exact congrFun (others z isT) i
      rw [same] at isThere ⊢
      exact space.made q z i long old isThere
  · rw [leaf_entry, filled.here, if_pos present]
  · intro k other
    rw [leaf_entry, leaf_entry, filled.beside k other]

end

end Xv6.Vm
