import Xv6.Exec.Requests
import Xv6.Syscall.Arguments

/-! The address space that `execve` builds while it loads segments and allocates a stack.

`sz` is an `int32_t` and goes through `uvm_alloc` as 64 bits. As long as `uvm_alloc` succeeds
the sizes are below the end of physical memory, so nothing is cut off. The pages of the new
address space are those below some number, and the size is never beyond them.
-/

set_option autoImplicit false

namespace Xv6.Exec

open Library Vm

/-! ## Sizes -/

-- The assignment of a result of `uvm_alloc` to `sz`.
def narrow (w : UInt64) : Int32 := w.toInt64.toInt32

theorem narrow_eq (w : UInt64) : narrow w = w.toUInt32.toInt32 := by
  apply Int32.toBitVec.inj
  change (w.toBitVec.signExtend 32) = w.toBitVec.setWidth 32
  exact BitVec.signExtend_eq_setWidth_of_le _ (by decide)

theorem narrow_add (w v : UInt64) : narrow (w + v) = narrow w + narrow v := by
  rw [narrow_eq, narrow_eq, narrow_eq, UInt64.toUInt32_add, UInt32.toInt32_add]

theorem narrow_extend (sz : Int32) : narrow (extend sz) = sz := by
  rw [narrow, extend, Int64.toInt64_toUInt64, Int32.toInt32_toInt64]

theorem extend_narrow {w : UInt64} (small : w.toNat < 2 ^ 31) : extend (narrow w) = w := by
  apply UInt64.toNat_inj.mp
  rw [extend, narrow_eq, Syscall.signExtended_toNat, Nat.mod_eq_of_lt (by omega), if_pos small]
  rfl

theorem extend_add {sz : Int32} {w : UInt64} (small : (extend sz + w).toNat < 2 ^ 31) :
    extend (sz + narrow w) = extend sz + w := by
  rw [← extend_narrow small, narrow_add, narrow_extend]

theorem ROUNDUP_pages {w : UInt64} {M : Nat} (within : pagesBelow w ≤ M) (size : M ≤ 258049) :
    (ROUNDUP w).toNat = 4096 * pagesBelow w := by
  rw [pagesBelow] at within
  rw [ROUNDUP_toNat (by omega), pagesBelow, Nat.mul_comm]

theorem toNat_of_pages {w : UInt64} {M : Nat} (within : pagesBelow w ≤ M) (size : M ≤ 258049) : w.toNat < 2 ^ 31 := by
  rw [pagesBelow] at within
  omega

structure Extent where
  pages : Nat
  size : UInt64

namespace Extent

/-- `uvm_alloc` up to `newsz`, where `kalloc` has `total` results: it must not meet a page that is there,
nor run out of pages. -/
def grow (total : Nat) (e : Extent) (newsz : UInt64) : Option Extent :=
  if newsz ≠ 0 ∧ (4096 * pagesBelow e.size < newsz.toNat → pagesBelow e.size = e.pages) ∧
      (e.pages < pagesBelow newsz → Affords total (pagesBelow newsz)) then
    some ⟨max e.pages (pagesBelow newsz), newsz⟩
  else none

-- The calls of `uvm_alloc` for a segment.
def growFor (total : Nat) (ph : Phdr) (e : Extent) : Option Extent :=
  (e.grow total (ph.p_memsz + ph.p_vaddr)).bind fun e =>
    if ph.p_vaddr % PGSIZE ≠ 0 then e.grow total (e.size + PGSIZE) else some e

theorem grow_some {total : Nat} {e e' : Extent} {newsz : UInt64} : e.grow total newsz = some e' ↔
    (newsz ≠ 0 ∧ (4096 * pagesBelow e.size < newsz.toNat → pagesBelow e.size = e.pages) ∧
      (e.pages < pagesBelow newsz → Affords total (pagesBelow newsz))) ∧
    e' = ⟨max e.pages (pagesBelow newsz), newsz⟩ := by
  rw [grow, Option.ite_none_right_eq_some, Option.some.injEq, eq_comm (a := e')]

end Extent

/-! ## Pages -/

section
variable {kernel : Kernel} {s t : State} {start : List UInt64} {root : UInt64} {bytes : Nat → UInt8} {e e' : Extent}
  {sz sz' : Int32} {m : Memory}

/-- Memory with the address space, and `sz`. -/
structure Fits (start : List UInt64) (root : UInt64) (bytes : Nat → UInt8) (e : Extent) (sz : Int32)
    (m : Memory) : Prop where
  size : extend sz = e.size
  within : pagesBelow e.size ≤ e.pages
  built : Built start root e.pages bytes m

namespace Fits

theorem pages_le (fits : Fits start root bytes e sz m) : e.pages ≤ 258049 := by
  obtain ⟨_, _, holds, _⟩ := fits.built
  exact holds.size_le

theorem grow_le (fits : Fits start root bytes e sz m) {newsz : UInt64} (grows : e.grow start.length newsz = some e') :
    pagesBelow newsz ≤ 258049 := by
  have limit := fits.pages_le
  obtain ⟨_, _, _, _, holds, _⟩ := fits
  have bound := holds.bound
  obtain ⟨⟨_, _, affords⟩, _⟩ := Extent.grow_some.mp grows
  by_cases more : e.pages < pagesBelow newsz
  · have enough := (affords more).2
    rw [needed] at enough
    omega
  · omega

-- What follows a page is the size of an unaligned segment and one page.
theorem next (fits : Fits start root bytes e sz m) :
    extend (sz + 4096) = e.size + PGSIZE ∧ (e.size + PGSIZE).toNat = e.size.toNat + 4096 := by
  have limit := fits.pages_le
  have within := fits.within
  rw [pagesBelow] at within
  have sum : (e.size + PGSIZE).toNat = e.size.toNat + 4096 := by
    rw [UInt64.toNat_add]
    exact Nat.mod_eq_of_lt (by change _ + 4096 < _; omega)
  have below : (extend sz + PGSIZE).toNat < 2 ^ 31 := by
    rw [fits.size, sum]
    omega
  refine ⟨?_, sum⟩
  rw [← fits.size, ← extend_add below]
  rfl

end Fits

-- What `uvm_alloc` does to the address space and to the rest.
structure Enlarged (start : List UInt64) (root : UInt64) (bytes : Nat → UInt8) (s t : State) : Prop where
  holds : ∃ M taken pages, Holds start root M bytes t.memory taken pages
  outside : Untouched start s.memory t.memory
  same : t = { s with memory := t.memory }

theorem allocTo_run (fits : Fits start root bytes e sz s.memory) {newsz : UInt64} {r : Option Int32}
    (ran : (allocTo root sz newsz).run (handle kernel) s = some (r, t)) :
    Enlarged start root (zeroFrom (4096 * e.pages) bytes) s t ∧ ∀ sz', r = some sz' →
      ∃ e', e.grow start.length newsz = some e' ∧
      Fits start root (zeroFrom (4096 * e.pages) bytes) e' sz' t.memory := by
  obtain ⟨size, within, taken, pages, holds, count⟩ := fits
  obtain ⟨out, u, called, ran⟩ := Program.run_bind_eq_some.mp ran
  rw [uvmAlloc, Program.run_request] at called
  obtain ⟨⟨out, m⟩, allocated, result⟩ := Option.map_eq_some_iff.mp called
  cases result
  rw [size] at allocated
  have isPage := ROUNDUP_pages within holds.size_le
  obtain ⟨M', taken', pages', holds', le, outside, outcome⟩ := holds.alloc isPage within allocated
  have enlarged : Enlarged start root (zeroFrom (4096 * e.pages) bytes) s { s with memory := m } :=
    ⟨⟨M', taken', pages', holds'⟩, outside, rfl⟩
  dsimp only at ran
  split at ran
  · cases ran
    exact ⟨enlarged, fun sz' isSome => absurd isSome (by simp)⟩
  · next notZero =>
    cases ran
    refine ⟨enlarged, fun sz' isSome => ?_⟩
    cases isSome
    rcases outcome with failed | ⟨rfl, rfl, collides, counts⟩
    · exact absurd (by rw [failed]; rfl) notZero
    · obtain ⟨count', affords⟩ := counts count
      have below : pagesBelow newsz ≤ max e.pages (pagesBelow newsz) := by omega
      refine ⟨⟨_, newsz⟩, Extent.grow_some.mpr ⟨⟨?_, fun less => collides ?_, fun more => ?_⟩, rfl⟩, ?_, below,
        taken', pages',
        holds', count'⟩
      · rintro rfl
        exact notZero rfl
      · rw [UInt64.lt_iff_toNat_lt, isPage]
        exact less
      · have enough := affords (by omega)
        rwa [show max e.pages (pagesBelow newsz) = pagesBelow newsz by omega] at enough
      · exact extend_narrow (toNat_of_pages below holds'.size_le)

theorem allocTo_returns (kernel : Kernel) (fits : Fits start root bytes e sz s.memory) {newsz : UInt64}
    (grows : e.grow start.length newsz = some e') :
    ∃ sz' t, (allocTo root sz newsz).run (handle kernel) s = some (some sz', t) := by
  have most := fits.grow_le grows
  obtain ⟨size, within, taken, pages, holds, count⟩ := fits
  obtain ⟨⟨notZero, collides, affords⟩, rfl⟩ := Extent.grow_some.mp grows
  have isPage := ROUNDUP_pages within holds.size_le
  have isExtended := extend_narrow (toNat_of_pages (w := newsz) le_rfl most)
  obtain ⟨m', ran⟩ := holds.alloc_returns count newsz isPage within (fun less => collides (by
    rwa [UInt64.lt_iff_toNat_lt, isPage] at less)) fun more => by
      rw [show max e.pages (pagesBelow newsz) = pagesBelow newsz by omega]
      exact affords (by omega)
  refine ⟨narrow newsz, { s with memory := m' }, Program.run_bind_eq_some.mpr
    ⟨newsz.toInt64, { s with memory := m' }, ?_, ?_⟩⟩
  · rw [uvmAlloc, Program.run_request, handle, size, ran]
    rfl
  · dsimp only
    rw [if_neg]
    · rfl
    · intro isZero
      rw [show newsz.toInt64.toInt32 = narrow newsz from rfl] at isZero
      rw [isZero] at isExtended
      exact notZero isExtended.symm

theorem growFor_run (fits : Fits start root bytes e sz s.memory) {ph : Phdr}
    (ran : (growFor root ph sz).run (handle kernel) s = some (some sz', t)) :
    (t = { s with memory := t.memory } ∧ Untouched start s.memory t.memory) ∧
      ∃ e', e.growFor start.length ph = some e' ∧ e.pages ≤ e'.pages ∧
        Fits start root (zeroFrom (4096 * e.pages) bytes) e' sz' t.memory := by
  obtain ⟨grown, u, first, ran⟩ := Program.run_bind_eq_some.mp ran
  obtain ⟨enlarged, outcome⟩ := allocTo_run fits first
  cases grown with
  | none => simp at ran
  | some sz₁ =>
    obtain ⟨e₁, grows, fits₁⟩ := outcome sz₁ rfl
    have le : e.pages ≤ e₁.pages := by
      obtain ⟨_, rfl⟩ := Extent.grow_some.mp grows
      exact le_max_left ..
    rw [Extent.growFor, grows, Option.bind_some]
    dsimp only at ran
    rw [growExtra] at ran
    by_cases unaligned : ph.p_vaddr % PGSIZE ≠ 0
    · rw [if_pos unaligned] at ran ⊢
      rw [fits₁.next.1] at ran
      obtain ⟨enlarged', outcome⟩ := allocTo_run fits₁ ran
      obtain ⟨e₂, grows', fits₂⟩ := outcome sz' rfl
      have le' : e₁.pages ≤ e₂.pages := by
        obtain ⟨_, rfl⟩ := Extent.grow_some.mp grows'
        exact le_max_left ..
      rw [zeroFrom_zeroFrom (Nat.mul_le_mul_left 4096 le)] at fits₂
      refine ⟨⟨?_, enlarged.outside.trans enlarged'.outside⟩, e₂, grows', le.trans le', fits₂⟩
      rw [enlarged'.same, enlarged.same]
    · rw [if_neg unaligned] at ran ⊢
      cases ran
      exact ⟨⟨enlarged.same, enlarged.outside⟩, e₁, rfl, le, fits₁⟩

theorem growFor_returns (kernel : Kernel) (fits : Fits start root bytes e sz s.memory) {ph : Phdr}
    (grows : e.growFor start.length ph = some e') :
    ∃ sz' t, (growFor root ph sz).run (handle kernel) s = some (some sz', t) := by
  obtain ⟨e₁, first, second⟩ := Option.bind_eq_some_iff.mp grows
  obtain ⟨sz₁, u, ran⟩ := allocTo_returns kernel fits first
  obtain ⟨_, outcome⟩ := allocTo_run fits ran
  obtain ⟨e₁', isFirst, fits₁⟩ := outcome sz₁ rfl
  obtain rfl := Option.some.inj (first.symm.trans isFirst)
  by_cases unaligned : ph.p_vaddr % PGSIZE ≠ 0
  · rw [if_pos unaligned, ← fits₁.next.1] at second
    obtain ⟨sz₂, v, more⟩ := allocTo_returns kernel fits₁ second
    refine ⟨sz₂, v, Program.run_bind_eq_some.mpr ⟨some sz₁, u, ran, ?_⟩⟩
    dsimp only
    rw [growExtra, if_pos unaligned]
    exact more
  · refine ⟨sz₁, u, Program.run_bind_eq_some.mpr ⟨some sz₁, u, ran, ?_⟩⟩
    dsimp only
    rw [growExtra, if_neg unaligned]
    rfl

end

end Xv6.Exec
