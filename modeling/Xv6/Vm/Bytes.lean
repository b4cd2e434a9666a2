import Xv6.Trap.Memmove
import Xv6.Vm.Regions

/-! The bytes of memory, and `memcpy` of any length.

A byte is part of a word of its page. A copy changes the bytes of its range and nothing
else, so it leaves every page alone that the range does not touch.
-/

set_option autoImplicit false

namespace Xv6.Vm

open Library

namespace Memory

-- `*(uint8_t *)a`
def byte (m : Memory) (a : UInt64) : UInt8 := byteOf (m.word (ROUNDDOWN a) (wordOf a)) (a.toNat % 8)

def putByte (m : Memory) (a : UInt64) (value : UInt8) : Memory :=
  m.store (ROUNDDOWN a) (wordOf a) (setByte (m.word (ROUNDDOWN a) (wordOf a)) (a.toNat % 8) value)

-- `memcpy(dst, src, n)`, where the source is not part of the destination.
def copyBytes (m : Memory) (dst : UInt64) (src : Nat → UInt8) : Nat → Memory
  | 0 => m
  | n + 1 => (m.copyBytes dst src n).putByte (dst + UInt64.ofNat n) (src n)

end Memory

section
variable {m : Memory} {a x : UInt64} {src : Nat → UInt8} {n : Nat}

theorem address_ext (page : ROUNDDOWN x = ROUNDDOWN a) (word : wordOf x = wordOf a)
    (byte : x.toNat % 8 = a.toNat % 8) :
    x = a := by
  have samePage := congrArg UInt64.toNat page
  have sameWord := congrArg Fin.val word
  rw [ROUNDDOWN_toNat, ROUNDDOWN_toNat] at samePage
  simp only [wordOf, Fin.val_ofNat] at sameWord
  apply UInt64.toNat_inj.mp
  omega

theorem byte_putByte (m : Memory) (a x : UInt64) (value : UInt8) :
    (m.putByte a value).byte x = if x = a then value else m.byte x := by
  have less : x.toNat % 8 < 8 := Nat.mod_lt _ (by decide)
  by_cases samePage : ROUNDDOWN x = ROUNDDOWN a
  · by_cases sameWord : wordOf x = wordOf a
    · have stored : (m.putByte a value).word (ROUNDDOWN x) (wordOf x) =
          setByte (m.word (ROUNDDOWN a) (wordOf a)) (a.toNat % 8) value := by
        rw [samePage, sameWord]
        simp [Memory.putByte, Memory.store]
      rw [Memory.byte, stored, byteOf_setByte _ _ _ less]
      by_cases sameByte : x.toNat % 8 = a.toNat % 8
      · rw [if_pos sameByte, if_pos (address_ext samePage sameWord sameByte)]
      · have other : x ≠ a := fun same => sameByte (congrArg (fun a => a.toNat % 8) same)
        rw [if_neg sameByte, if_neg other, Memory.byte, samePage, sameWord]
    · have other : x ≠ a := fun same => sameWord (congrArg wordOf same)
      rw [if_neg other, Memory.byte, Memory.byte, samePage]
      simp [Memory.putByte, Memory.store, sameWord]
  · have other : x ≠ a := fun same => samePage (congrArg ROUNDDOWN same)
    rw [if_neg other, Memory.byte, Memory.byte, Memory.putByte, store_word samePage]

theorem byte_copyBytes (m : Memory) (dst x : UInt64) (src : Nat → UInt8) (small : n ≤ 2 ^ 64) :
    (m.copyBytes dst src n).byte x = if (x - dst).toNat < n then src (x - dst).toNat else m.byte x := by
  induction n with
  | zero => simp [Memory.copyBytes]
  | succ n ih =>
    rw [Memory.copyBytes, byte_putByte, ih (by omega)]
    by_cases last : x = dst + UInt64.ofNat n
    · subst last
      rw [if_pos rfl, toNat_distance dst (by omega), if_pos (Nat.lt_succ_self n)]
    · have other : (x - dst).toNat ≠ n := by
        rintro same
        exact last (by rw [← same, UInt64.ofNat_toNat, add_distance])
      rw [if_neg last]
      by_cases before : (x - dst).toNat < n
      · rw [if_pos before, if_pos (by omega)]
      · rw [if_neg before, if_neg (by omega)]

/-- Where the source is in memory as well, this is `memcpy` on the bytes, also for ranges that overlap. -/
theorem byte_memcpy (m : Memory) {dst src : UInt64} (dstRoom : dst.toNat + n ≤ 2 ^ 64)
    (srcRoom : src.toNat + n ≤ 2 ^ 64) :
    (m.copyBytes dst (fun i => m.byte (src + UInt64.ofNat i)) n).byte = Trap.memcpy m.byte dst src n := by
  funext x
  rw [byte_copyBytes _ _ _ _ (by omega), Trap.memcpy, Trap.memmove_copied dstRoom srcRoom, copied,
    UInt64.ofNat_toNat]

theorem copyBytes_word {dst page : UInt64} (outside : ∀ k, k < n → ROUNDDOWN (dst + UInt64.ofNat k) ≠ page) :
    (m.copyBytes dst src n).word page = m.word page := by
  induction n with
  | zero => rfl
  | succ n ih =>
    have last := outside n (Nat.lt_succ_self n)
    rw [Memory.copyBytes, Memory.putByte, store_word (Ne.symm last), ih fun k less => outside k (by omega)]

theorem copyBytes_free_list (m : Memory) (dst : UInt64) (src : Nat → UInt8) (n : Nat) :
    (m.copyBytes dst src n).free_list = m.free_list ∧ (m.copyBytes dst src n).kmemcslock = m.kmemcslock := by
  induction n with
  | zero => exact ⟨rfl, rfl⟩
  | succ n ih => exact ih

theorem ROUNDDOWN_offset {page : UInt64} (aligned : page.toNat % 4096 = 0) {k : Nat} (inside : k < 4096) :
    ROUNDDOWN (page + UInt64.ofNat k) = page := by
  apply UInt64.toNat_inj.mp
  have bound := page.toNat_lt
  have sum : (page + UInt64.ofNat k).toNat = page.toNat + k := by
    simp only [UInt64.toNat_add, UInt64.toNat_ofNat']
    omega
  rw [ROUNDDOWN_toNat, sum]
  omega

theorem byte_offset (m : Memory) {page : UInt64} (aligned : page.toNat % 4096 = 0) {k : Nat} (inside : k < 4096) :
    m.byte (page + UInt64.ofNat k) = byteOf (m.word page (Fin.ofNat 512 (k / 8))) (k % 8) := by
  have bound := page.toNat_lt
  have sum : (page + UInt64.ofNat k).toNat = page.toNat + k := by
    simp only [UInt64.toNat_add, UInt64.toNat_ofNat']
    omega
  have word : (page.toNat + k) % 4096 / 8 = k / 8 := by omega
  have byte : (page.toNat + k) % 8 = k % 8 := by omega
  rw [Memory.byte, ROUNDDOWN_offset aligned inside, wordOf, sum, word, byte]

theorem byte_memcpy_page (m : Memory) {dst src : UInt64} (dstAligned : dst.toNat % 4096 = 0)
    (srcAligned : src.toNat % 4096 = 0) : (m.memcpy dst src).byte = Trap.memcpy m.byte dst src 4096 := by
  have dstBound := dst.toNat_lt
  have srcBound := src.toNat_lt
  funext x
  rw [Trap.memcpy, Trap.memmove_copied (by omega) (by omega), copied]
  by_cases inside : (x - dst).toNat < 4096
  · have place : x = dst + UInt64.ofNat (x - dst).toNat := by rw [UInt64.ofNat_toNat, add_distance]
    have source : src + (x - dst) = src + UInt64.ofNat (x - dst).toNat := by rw [UInt64.ofNat_toNat]
    have copy : (m.memcpy dst src).word dst = m.word src := Function.update_self ..
    rw [if_pos inside, source, byte_offset m srcAligned inside]
    conv => lhs; rw [place]
    rw [byte_offset _ dstAligned inside, copy]
  · -- a byte of another page
    have other : ROUNDDOWN x ≠ dst := by
      intro same
      have start := congrArg UInt64.toNat same
      rw [ROUNDDOWN_toNat] at start
      rw [UInt64.toNat_sub] at inside
      have := x.toNat_lt
      omega
    have same : (m.memcpy dst src).word (ROUNDDOWN x) = m.word (ROUNDDOWN x) := Function.update_of_ne other ..
    rw [if_neg inside, Memory.byte, Memory.byte, same]

theorem copyBytes_other {dst page : UInt64} (s : Nat) (aligned : page.toNat % 4096 = 0)
    (start : dst = page + UInt64.ofNat s) (inside : s + n ≤ 4096) {z : UInt64} (other : z ≠ page) :
    (m.copyBytes dst src n).word z = m.word z := by
  refine copyBytes_word fun k less => ?_
  have place : dst + UInt64.ofNat k = page + UInt64.ofNat (s + k) := by
    rw [start, UInt64.ofNat_add, UInt64.add_assoc]
  rw [place, ROUNDDOWN_offset aligned (by omega)]
  exact other.symm

end

end Xv6.Vm
