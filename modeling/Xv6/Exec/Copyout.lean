import Xv6.Exec.Stack

/-! `copyout` to the pages of a new address space.

The address is an `uint32_t`, and the page that `pgdir_iwalk` finds for it is not tested: where
there is none, the bytes go to the first page of physical memory.
-/

set_option autoImplicit false

namespace Xv6.Exec

open Library Vm

/-- Bytes are copied to pages that were not there before the stack was allocated, and words are stored to
`ustack`. -/
def InStack (before : Memory) (root : UInt64) : Exec.Request → State → Prop
  | .memcpy dst _ n, s => ∀ i, i < n.toNat → ∃ k, ¬ Present (before.entry root k) ∧ Present (s.memory.entry root k) ∧
      ROUNDDOWN (dst + UInt64.ofNat i) = frame (s.memory.entry root k)
  | .ustack i, _ => i < MAXARG
  | _, _ => True

section
variable {kernel : Kernel} {before : Memory} {s : State} {start taken pages : List UInt64} {root : UInt64} {P M : Nat}
  {bytes : Nat → UInt8}

structure Grown (before : Memory) (root : UInt64) (P : Nat) (start : List UInt64) (M : Nat)
    (bytes : Nat → UInt8) (m : Memory) (taken pages : List UInt64) : Prop where
  holds : Holds start root M bytes m taken pages
  low : P2V 0 ∉ start
  present : ∀ k, Present (before.entry root k) ↔ k % 2 ^ 36 < P
  le : P ≤ M

namespace Grown

variable (grown : Grown before root P start M bytes s.memory taken pages)
include grown

theorem copy (va : UInt64) {o n : Nat} (inside : o + n ≤ 4096) (pos : 0 < n) (src : Nat → UInt8) :
    ∃ pa, Vm.pgdirIwalk root va s.memory = some pa ∧
      Untouched start s.memory (s.memory.copyBytes (P2V (pa + UInt64.ofNat o)) src n) ∧
      (pageOf va < M → Grown before root P start M (putBytes bytes (4096 * pageOf va + o) src n)
        (s.memory.copyBytes (P2V (pa + UInt64.ofNat o)) src n) taken pages) ∧
      (InStack before root (.memcpy (P2V (pa + UInt64.ofNat o)) src (UInt64.ofNat n)) s ↔ P ≤ pageOf va ∧
        pageOf va < M) := by
  obtain ⟨holds, low, present, le⟩ := grown
  obtain ⟨pa, found, untouched, mapped, missing⟩ := holds.copy low va inside src
  have length : (UInt64.ofNat n).toNat = n := by
    rw [UInt64.toNat_ofNat']
    omega
  have page : pageOf va < 2 ^ 36 := Nat.mod_lt _ (by decide)
  refine ⟨pa, found, untouched, fun less => ⟨(mapped less).1, low, present, le⟩, ?_⟩
  rw [InStack, length]
  constructor
  · intro all
    obtain ⟨k, isNew, isPresent, isFrame⟩ := all 0 pos
    have less : pageOf va < M := by
      by_contra outside
      exact (missing outside).2 0 pos k isPresent isFrame
    have here := ((mapped less).2 0 pos).2.2
    rw [here, Image.entry_mod _ _ k] at isFrame
    have same := holds.frame_injective less ((holds.present_iff k).mp isPresent) isFrame
    rw [present] at isNew
    exact ⟨same ▸ Nat.not_lt.mp isNew, less⟩
  · rintro ⟨above, less⟩ i isByte
    obtain ⟨_, isPresent, isFrame⟩ := (mapped less).2 i isByte
    refine ⟨_, ?_, isPresent, isFrame⟩
    rw [present]
    rw [pageOf] at above page
    omega

/-- A turn of the loop: the part of the copy in the page of the address, and the rest. -/
theorem turn (kernel : Kernel) (turns : Nat) (dstva : UInt32) {len : UInt32} (pos : 0 < len.toNat)
    (src : Nat → UInt8) {n : Nat} (isLength : n = min len.toNat (4096 - dstva.toNat % 4096)) :
    ∃ m' next left, next.toNat = (dstva.toNat + n) % 2 ^ 32 ∧ left.toNat = len.toNat - n ∧
      Untouched start s.memory m' ∧
      (dstva.toNat / 4096 < M → Grown before root P start M (putBytes bytes dstva.toNat src n) m' taken pages) ∧
      (copyoutFrom root (turns + 1) dstva src len).run (handle kernel) s =
        (copyoutFrom root turns next (fun k => src (n + k)) left).run (handle kernel) { s with memory := m' } ∧
      ((copyoutFrom root (turns + 1) dstva src len).Along (handle kernel) (InStack before root) s ↔
        (P ≤ dstva.toNat / 4096 ∧ dstva.toNat / 4096 < M) ∧
          (copyoutFrom root turns next (fun k => src (n + k)) left).Along (handle kernel) (InStack before root)
            { s with memory := m' }) := by
  have small := dstva.toNat_lt
  have most := len.toNat_lt
  obtain ⟨o, isOffset⟩ : ∃ o, o = dstva.toNat % 4096 := ⟨_, rfl⟩
  have down : (ROUNDDOWN dstva.toUInt64).toNat = dstva.toNat / 4096 * 4096 := ROUNDDOWN_toNat _
  have place : dstva.toUInt64 - ROUNDDOWN dstva.toUInt64 = UInt64.ofNat o := by
    apply UInt64.toNat_inj.mp
    rw [UInt64.toNat_sub, down, UInt64.toNat_ofNat', UInt32.toNat_toUInt64]
    omega
  have isPage : pageOf (ROUNDDOWN dstva.toUInt64) = dstva.toNat / 4096 := by
    rw [pageOf, down]
    omega
  have room : (PGSIZE - UInt64.ofNat o).toNat = 4096 - o := by
    rw [UInt64.toNat_sub, UInt64.toNat_ofNat']
    change (2 ^ 64 - o % 2 ^ 64 + 4096) % 2 ^ 64 = _
    omega
  have isPart : (if PGSIZE - UInt64.ofNat o > len.toUInt64 then len.toUInt64 else PGSIZE - UInt64.ofNat o) =
    UInt64.ofNat n := by
    apply UInt64.toNat_inj.mp
    rw [apply_ite UInt64.toNat, room, UInt64.toNat_ofNat', UInt32.toNat_toUInt64, isLength, ← isOffset]
    split
    · next short =>
      have less := UInt64.lt_iff_toNat_lt.mp short
      rw [room, UInt32.toNat_toUInt64] at less
      omega
    · next long =>
      have more : ¬ _ < _ := fun less => long (UInt64.lt_iff_toNat_lt.mpr less)
      rw [room, UInt32.toNat_toUInt64] at more
      omega
  have length : (UInt64.ofNat n).toNat = n := by
    rw [UInt64.toNat_ofNat']
    omega
  obtain ⟨pa, found, untouched, mapped, confined⟩ :=
    grown.copy (ROUNDDOWN dstva.toUInt64) (o := o) (n := n) (by omega) (by omega) src
  rw [isPage] at mapped confined
  rw [show 4096 * (dstva.toNat / 4096) + o = dstva.toNat by omega] at mapped
  have looked : handle kernel (.pgdirIwalk root (ROUNDDOWN dstva.toUInt64)) s = some (pa, s) := by
    rw [handle, found]
    rfl
  have copied : handle kernel (.memcpy (P2V (pa + UInt64.ofNat o)) src (UInt64.ofNat n)) s =
      some ((), { s with memory := s.memory.copyBytes (P2V (pa + UInt64.ofNat o)) src n }) := by
    rw [handle, length]
  refine ⟨_, (dstva.toUInt64 + UInt64.ofNat n).toUInt32, (len.toUInt64 - UInt64.ofNat n).toUInt32, ?_, ?_,
    untouched, mapped, ?_, ?_⟩
  · rw [UInt64.toNat_toUInt32, UInt64.toNat_add, length, UInt32.toNat_toUInt64]
    omega
  · rw [UInt64.toNat_toUInt32, UInt64.toNat_sub, length, UInt32.toNat_toUInt64]
    omega
  · rw [copyoutFrom, if_pos (show len > 0 from UInt32.lt_iff_toNat_lt.mpr pos)]
    dsimp only
    rw [place, isPart]
    refine (run_then s looked _).trans ((run_then s copied _).trans ?_)
    rw [length]
  · rw [copyoutFrom, if_pos (show len > 0 from UInt32.lt_iff_toNat_lt.mpr pos)]
    dsimp only
    rw [place, isPart]
    refine (Program.along_then looked _).trans
      ((and_iff_right trivial).trans ((Program.along_then copied _).trans ?_))
    rw [confined, length]

theorem copyoutFrom_run (kernel : Kernel) (turns : Nat) (dstva : UInt32) (src : Nat → UInt8) {len : UInt32}
    (fuelled : len.toNat ≤ turns) (inside : len.toNat = 0 ∨ dstva.toNat + len.toNat ≤ 4096 * M) :
    ∃ m', (copyoutFrom root turns dstva src len).run (handle kernel) s = some (0, { s with memory := m' }) ∧
      Untouched start s.memory m' ∧
      Grown before root P start M (putBytes bytes dstva.toNat src len.toNat) m' taken pages := by
  have limit := grown.holds.size_le
  induction turns generalizing dstva src len s bytes with
  | zero =>
    refine ⟨s.memory, rfl, Untouched.refl start s.memory, ?_⟩
    rw [show len.toNat = 0 by omega, putBytes_zero]
    exact grown
  | succ turns ih =>
    by_cases pos : 0 < len.toNat
    · obtain ⟨m₁, next, left, isNext, isLeft, untouched, mapped, ran, _⟩ :=
        grown.turn kernel turns dstva pos src rfl
      have first := mapped (by omega)
      have sum : next.toNat = dstva.toNat + min len.toNat (4096 - dstva.toNat % 4096) := by omega
      obtain ⟨m', rest, untouched', final⟩ := ih (s := { s with memory := m₁ }) first next
        (fun k => src (min len.toNat (4096 - dstva.toNat % 4096) + k)) (show left.toNat ≤ turns by omega)
        (by omega)
      refine ⟨m', ran.trans rest, untouched.trans untouched', ?_⟩
      rw [sum, putBytes_putBytes, isLeft] at final
      rw [show len.toNat = min len.toNat (4096 - dstva.toNat % 4096) +
        (len.toNat - min len.toNat (4096 - dstva.toNat % 4096)) by omega]
      exact final
    · have none : ¬ len > 0 := fun more => pos (UInt32.lt_iff_toNat_lt.mp more)
      refine ⟨s.memory, ?_, Untouched.refl start s.memory, ?_⟩
      · rw [copyoutFrom, if_neg none]
        rfl
      · rw [show len.toNat = 0 by omega, putBytes_zero]
        exact grown

/-- The bytes of a copy go to new pages if and only if its addresses are theirs. -/
theorem copyoutFrom_along (kernel : Kernel) (turns : Nat) (dstva : UInt32) (src : Nat → UInt8) {len : UInt32}
    (fuelled : len.toNat ≤ turns) :
    (copyoutFrom root turns dstva src len).Along (handle kernel) (InStack before root) s ↔
      len.toNat = 0 ∨ (4096 * P ≤ dstva.toNat ∧ dstva.toNat + len.toNat ≤ 4096 * M) := by
  have limit := grown.holds.size_le
  induction turns generalizing dstva src len s bytes with
  | zero => exact iff_of_true trivial (.inl (by omega))
  | succ turns ih =>
    by_cases pos : 0 < len.toNat
    · obtain ⟨m₁, next, left, isNext, isLeft, _, mapped, _, along⟩ :=
        grown.turn kernel turns dstva pos src rfl
      rw [along]
      by_cases less : dstva.toNat / 4096 < M
      · have rest := ih (s := { s with memory := m₁ }) (mapped less) next
          (fun k => src (min len.toNat (4096 - dstva.toNat % 4096) + k)) (show left.toNat ≤ turns by omega)
        refine (and_congr_right fun _ => rest).trans ?_
        omega
      · refine iff_of_false (fun all => less all.1.2) ?_
        omega
    · have none : ¬ len > 0 := fun more => pos (UInt32.lt_iff_toNat_lt.mp more)
      rw [copyoutFrom, if_neg none]
      exact iff_of_true trivial (.inl (by omega))

end Grown

end

end Xv6.Exec
