import Xv6.Library.Words

/-! `memmove` and `memcpy` of `inc/string.h`, on a memory of bytes.

The copy runs from the end if the destination starts inside the source, and from the
front otherwise. In both directions a byte is read before it is written over.
-/

set_option autoImplicit false

namespace Xv6.Trap

open Library

-- The loop of `memmove` from the front.
def moveUp : Nat → (UInt64 → UInt8) → UInt64 → UInt64 → UInt64 → UInt8
  | 0, m, _, _ => m
  | n + 1, m, d, s => moveUp n (Function.update m d (m s)) (d + 1) (s + 1)

-- The loop of `memmove` from the end.
def moveDown : Nat → (UInt64 → UInt8) → UInt64 → UInt64 → UInt64 → UInt8
  | 0, m, _, _ => m
  | n + 1, m, d, s => moveDown n (Function.update m (d - 1) (m (s - 1))) (d - 1) (s - 1)

def memmove (m : UInt64 → UInt8) (dst src : UInt64) (n : Nat) : UInt64 → UInt8 :=
  if src < dst ∧ src + .ofNat n > dst then moveDown n m (dst + .ofNat n) (src + .ofNat n) else moveUp n m dst src

def memcpy (m : UInt64 → UInt8) (dst src : UInt64) (n : Nat) : UInt64 → UInt8 := memmove m dst src n

/-- The bytes of the destination are what those of the source were, and no other byte has changed. -/
structure Copies (before after : UInt64 → UInt8) (dst src : UInt64) (n : Nat) : Prop where
  inside : ∀ i, i < n → after (dst + .ofNat i) = before (src + .ofNat i)
  outside : ∀ x : UInt64, x.toNat < dst.toNat ∨ dst.toNat + n ≤ x.toNat → after x = before x

section
variable {n : Nat} {m : UInt64 → UInt8} {d s dst src : UInt64}

theorem moveUp_eq (apart : n ≤ (d - s).toNat) (x : UInt64) :
    moveUp n m d s x = copied m d s n x := by
  -- on the bytes that are left
  induction n generalizing m d s with
  | zero => rw [moveUp, copied, if_neg (Nat.not_lt_zero _)]
  | succ n ih =>
    have one : UInt64.toNat 1 = 1 := rfl
    have dBound := d.toNat_lt
    have sBound := s.toNat_lt
    have xBound := x.toNat_lt
    have same : d + 1 - (s + 1) = d - s := by
      apply UInt64.toNat_inj.mp
      simp only [UInt64.toNat_sub, UInt64.toNat_add, one]
      omega
    rw [moveUp, ih (by rw [same]; omega), copied, copied]
    by_cases here : x = d
    · -- the first byte is not written again
      have behind : ¬(x - (d + 1)).toNat < n := by
        simp only [here, UInt64.toNat_sub, UInt64.toNat_add, one]
        have := UInt64.toNat_lt (d - s)
        omega
      rw [if_neg behind, if_pos (by simp [here]), here, Function.update_self, UInt64.sub_self, UInt64.add_zero]
    · have positive : (x - d).toNat ≠ 0 := by
        intro zero
        rw [UInt64.toNat_sub] at zero
        exact here (UInt64.toNat_inj.mp (by omega))
      have next : (x - (d + 1)).toNat = (x - d).toNat - 1 := by
        simp only [UInt64.toNat_sub, UInt64.toNat_add, one] at positive ⊢
        omega
      have moved : s + 1 + (x - (d + 1)) = s + (x - d) := by
        apply UInt64.toNat_inj.mp
        simp only [UInt64.toNat_sub, UInt64.toNat_add, one]
        omega
      rw [next, moved, Function.update_of_ne here]
      by_cases inside : (x - d).toNat < n + 1
      · -- a byte that is still to be read has not been written
        have unread : s + (x - d) ≠ d := by
          intro same
          have distance : d - s = x - d := by
            calc d - s = s + (x - d) - s := by rw [same]
              _ = x - d := by rw [UInt64.add_comm, UInt64.add_sub_cancel]
          rw [distance] at apart
          omega
        rw [if_pos inside, if_pos (by omega), Function.update_of_ne unread]
      · rw [if_neg inside, if_neg (by omega)]

theorem moveUp_self (n : Nat) (m : UInt64 → UInt8) (d : UInt64) : moveUp n m d d = m := by
  induction n generalizing d with
  | zero => rfl
  | succ n ih => rw [moveUp, Function.update_eq_self, ih]

theorem moveDown_eq (apart : n ≤ (s - d).toNat) : moveDown n m (d + .ofNat n) (s + .ofNat n) = copied m d s n := by
  -- on the bytes that are left; they lie below those that are written
  induction n generalizing m with
  | zero =>
    funext x
    rw [moveDown, copied, if_neg (Nat.not_lt_zero _)]
  | succ n ih =>
    have last : ∀ a : UInt64, a + .ofNat (n + 1) - 1 = a + .ofNat n := by
      intro a
      rw [UInt64.ofNat_add, ← UInt64.add_assoc]
      exact UInt64.add_sub_cancel ..
    have bound := UInt64.toNat_lt (s - d)
    rw [moveDown, last, last, ih (by omega)]
    funext x
    rw [copied, copied]
    by_cases here : x = d + .ofNat n
    · -- the last byte is not written again
      have distance : (x - d).toNat = n := here ▸ toNat_distance d (by omega)
      have place : x - d = .ofNat n := by
        rw [here, UInt64.add_comm, UInt64.add_sub_cancel]
      rw [if_neg (by omega), if_pos (by omega), place, here, Function.update_self]
    · have other : (x - d).toNat ≠ n := by
        intro same
        apply here
        rw [← same, UInt64.ofNat_toNat, add_distance]
      rw [Function.update_of_ne here]
      by_cases inside : (x - d).toNat < n
      · -- a byte that is still to be read has not been written
        have unread : s + (x - d) ≠ d + .ofNat n := by
          intro same
          have places := congrArg UInt64.toNat same
          rw [UInt64.toNat_add, UInt64.toNat_add, UInt64.toNat_ofNat'] at places
          rw [UInt64.toNat_sub] at apart
          have := s.toNat_lt
          have := d.toNat_lt
          omega
        rw [if_pos inside, if_pos (by omega), Function.update_of_ne unread]
      · rw [if_neg inside, if_neg (by omega)]

theorem memmove_eq (behind : n ≤ (dst - src).toNat) :
    memmove m dst src n = copied m dst src n := by
  have upwards : ¬(src < dst ∧ src + .ofNat n > dst) := by
    intro ⟨less, overlap⟩
    have := dst.toNat_lt
    have := src.toNat_lt
    rw [UInt64.lt_iff_toNat_lt] at less
    rw [gt_iff_lt, UInt64.lt_iff_toNat_lt, UInt64.toNat_add, UInt64.toNat_ofNat'] at overlap
    rw [UInt64.toNat_sub] at behind
    omega
  rw [memmove, if_neg upwards]
  funext x
  exact moveUp_eq behind x

theorem memmove_copied (dstRoom : dst.toNat + n ≤ 2 ^ 64) (srcRoom : src.toNat + n ≤ 2 ^ 64) :
    memmove m dst src n = copied m dst src n := by
  have dstBound := dst.toNat_lt
  have srcBound := src.toNat_lt
  by_cases backwards : src < dst ∧ src + .ofNat n > dst
  · rw [memmove, if_pos backwards]
    apply moveDown_eq
    have less := UInt64.lt_iff_toNat_lt.mp backwards.1
    rw [UInt64.toNat_sub]
    omega
  · by_cases same : dst = src
    · rw [memmove, if_neg backwards, same, moveUp_self, copied_self]
    · apply memmove_eq
      have different : dst.toNat ≠ src.toNat := fun equal => same (UInt64.toNat_inj.mp equal)
      rw [gt_iff_lt, UInt64.lt_iff_toNat_lt, UInt64.lt_iff_toNat_lt, UInt64.toNat_add, UInt64.toNat_ofNat'] at backwards
      rw [UInt64.toNat_sub]
      omega

theorem Copies.of_copied (dstRoom : dst.toNat + n ≤ 2 ^ 64) : Copies m (copied m dst src n) dst src n where
  inside i less := by
    have place : dst + .ofNat i - dst = .ofNat i := by
      rw [UInt64.add_comm, UInt64.add_sub_cancel]
    rw [copied, toNat_distance dst (by omega), if_pos less, place]
  outside x beyond := by
    have := x.toNat_lt
    have := dst.toNat_lt
    rw [copied, if_neg]
    rw [UInt64.toNat_sub]
    omega

/-- Neither range wraps around; they may overlap in any way. -/
theorem memmove_copies (m : UInt64 → UInt8) (dst src : UInt64) (n : Nat) (dstRoom : dst.toNat + n ≤ 2 ^ 64)
    (srcRoom : src.toNat + n ≤ 2 ^ 64) :
    Copies m (memmove m dst src n) dst src n ∧ Copies m (memcpy m dst src n) dst src n := by
  rw [memcpy, memmove_copied dstRoom srcRoom]
  exact ⟨Copies.of_copied dstRoom, Copies.of_copied dstRoom⟩

end

theorem memmove_copies_overlapping :
    (Copies UInt64.toUInt8 (memmove UInt64.toUInt8 2 0 5) 2 0 5 ∧
      Copies UInt64.toUInt8 (memcpy UInt64.toUInt8 2 0 5) 2 0 5) ∧
    Copies UInt64.toUInt8 (memmove UInt64.toUInt8 0 2 5) 0 2 5 ∧
      Copies UInt64.toUInt8 (memcpy UInt64.toUInt8 0 2 5) 0 2 5 :=
  ⟨memmove_copies UInt64.toUInt8 2 0 5 (by decide) (by decide),
    memmove_copies UInt64.toUInt8 0 2 5 (by decide) (by decide)⟩

end Xv6.Trap
