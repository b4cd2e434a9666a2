import Mathlib.Algebra.Order.Ring.Nat
import Mathlib.Logic.Function.Basic
import Mathlib.Tactic.NormNum

/-! Numbers in little-endian order, in arrays of bytes.

An array is a function from indices. A value of `k` bytes is read from the bytes at the
first `k` indices, and the two directions are inverse on values that fit.
-/

set_option autoImplicit false

namespace Xv6.Library

def fromBytes (b : Nat → UInt8) : Nat → Nat
  | 0 => 0
  | k + 1 => (b 0).toNat + 256 * fromBytes (fun i => b (i + 1)) k

def toByte (value i : Nat) : UInt8 := UInt8.ofNat (value / 256 ^ i)

theorem fromBytes_lt (b : Nat → UInt8) (k : Nat) : fromBytes b k < 256 ^ k := by
  induction k generalizing b with
  | zero => simp [fromBytes]
  | succ k ih =>
    have first := (b 0).toNat_lt
    have rest := ih fun i => b (i + 1)
    rw [fromBytes, pow_succ]
    omega

theorem fromBytes_congr {b c : Nat → UInt8} {k : Nat} (same : ∀ i, i < k → b i = c i) :
    fromBytes b k = fromBytes c k := by
  induction k generalizing b c with
  | zero => rfl
  | succ k ih =>
    rw [fromBytes, fromBytes, same 0 (Nat.succ_pos k), ih fun i less => same (i + 1) (by omega)]

theorem toByte_succ (value i : Nat) : toByte value (i + 1) = toByte (value / 256) i := by
  rw [toByte, toByte, pow_succ', Nat.div_div_eq_div_mul]

theorem toByte_fromBytes {b : Nat → UInt8} {k i : Nat} (less : i < k) : toByte (fromBytes b k) i = b i := by
  induction k generalizing b i with
  | zero => omega
  | succ k ih =>
    have first := (b 0).toNat_lt
    cases i with
    | zero =>
      apply UInt8.toNat_inj.mp
      rw [toByte, fromBytes, pow_zero, Nat.div_one, UInt8.toNat_ofNat']
      omega
    | succ i =>
      have quotient : fromBytes b (k + 1) / 256 = fromBytes (fun i => b (i + 1)) k := by
        rw [fromBytes]
        omega
      rw [toByte_succ, quotient, ih (by omega)]

theorem fromBytes_toByte (value k : Nat) : fromBytes (toByte value) k = value % 256 ^ k := by
  induction k generalizing value with
  | zero => simp [fromBytes, Nat.mod_one]
  | succ k ih =>
    have shifted : (fun i => toByte value (i + 1)) = toByte (value / 256) := by
      funext i
      exact toByte_succ value i
    have first : (toByte value 0).toNat = value % 256 := by
      rw [toByte, pow_zero, Nat.div_one, UInt8.toNat_ofNat']
    rw [fromBytes, shifted, ih, first, pow_succ', Nat.mod_mul]

/-! ## Words of 64 bits -/

def wordAt (b : Nat → UInt8) (offset : Nat) : UInt64 := UInt64.ofNat (fromBytes (fun i => b (offset + i)) 8)

def byteOf (w : UInt64) (i : Nat) : UInt8 := toByte w.toNat i

theorem wordAt_toNat (b : Nat → UInt8) (offset : Nat) :
    (wordAt b offset).toNat = fromBytes (fun i => b (offset + i)) 8 := by
  rw [wordAt, UInt64.toNat_ofNat', Nat.mod_eq_of_lt]
  exact (fromBytes_lt _ 8).trans_eq (by norm_num)

theorem byteOf_wordAt (b : Nat → UInt8) (offset : Nat) {i : Nat} (less : i < 8) :
    byteOf (wordAt b offset) i = b (offset + i) := by
  rw [byteOf, wordAt_toNat, toByte_fromBytes less]

theorem wordAt_byteOf {b : Nat → UInt8} {offset : Nat} {w : UInt64}
    (bytes : ∀ i, i < 8 → b (offset + i) = byteOf w i) :
    wordAt b offset = w := by
  apply UInt64.toNat_inj.mp
  have small := w.toNat_lt
  rw [wordAt_toNat, fromBytes_congr bytes]
  change fromBytes (toByte w.toNat) 8 = _
  rw [fromBytes_toByte, Nat.mod_eq_of_lt]
  exact small.trans_eq (by norm_num)

theorem wordAt_congr {b c : Nat → UInt8} {offset : Nat} (same : ∀ i, i < 8 → b (offset + i) = c (offset + i)) :
    wordAt b offset = wordAt c offset := by
  rw [wordAt, wordAt, fromBytes_congr same]

def setByte (w : UInt64) (i : Nat) (value : UInt8) : UInt64 := wordAt (Function.update (byteOf w) i value) 0

theorem byteOf_setByte (w : UInt64) (i : Nat) (value : UInt8) {j : Nat} (less : j < 8) :
    byteOf (setByte w i value) j = if j = i then value else byteOf w j := by
  rw [setByte, byteOf_wordAt _ _ less, Nat.zero_add, Function.update_apply]

def putWord (b : Nat → UInt8) (offset : Nat) (w : UInt64) : Nat → UInt8 :=
  fun i => if offset ≤ i ∧ i < offset + 8 then byteOf w (i - offset) else b i

theorem wordAt_putWord (b : Nat → UInt8) (offset : Nat) (w : UInt64) : wordAt (putWord b offset w) offset = w := by
  refine wordAt_byteOf fun i less => ?_
  rw [putWord, if_pos ⟨by omega, by omega⟩, Nat.add_sub_cancel_left]

/-! ## Ranges -/

def putBytes (b : Nat → UInt8) (offset : Nat) (src : Nat → UInt8) (n : Nat) : Nat → UInt8 :=
  fun i => if offset ≤ i ∧ i < offset + n then src (i - offset) else b i

theorem putBytes_outside {b src : Nat → UInt8} {offset n i : Nat} (outside : i < offset ∨ offset + n ≤ i) :
    putBytes b offset src n i = b i := by
  rw [putBytes, if_neg (by omega)]

theorem putBytes_inside {b src : Nat → UInt8} {offset n : Nat} (j : Nat) (inside : j < n) :
    putBytes b offset src n (offset + j) = src j := by
  rw [putBytes, if_pos ⟨by omega, by omega⟩, Nat.add_sub_cancel_left]

theorem putBytes_putBytes (b src : Nat → UInt8) (offset n k : Nat) :
    putBytes (putBytes b offset src n) (offset + n) (fun i => src (n + i)) k = putBytes b offset src (n + k) := by
  funext i
  simp only [putBytes]
  by_cases second : offset + n ≤ i ∧ i < offset + n + k
  · rw [if_pos second, if_pos (by omega)]
    congr 1
    omega
  · rw [if_neg second]
    by_cases first : offset ≤ i ∧ i < offset + n
    · rw [if_pos first, if_pos (by omega)]
    · rw [if_neg first, if_neg (by omega)]

def zeroFrom (n : Nat) (b : Nat → UInt8) : Nat → UInt8 := fun i => if i < n then b i else 0

theorem zeroFrom_eq {b : Nat → UInt8} {n : Nat} (zero : ∀ i, n ≤ i → b i = 0) : zeroFrom n b = b := by
  funext i
  rw [zeroFrom]
  split
  · rfl
  · next past => exact (zero i (by omega)).symm

theorem zeroFrom_zeroFrom {n k : Nat} (le : n ≤ k) (b : Nat → UInt8) : zeroFrom k (zeroFrom n b) = zeroFrom n b := by
  refine zeroFrom_eq fun i beyond => ?_
  rw [zeroFrom, if_neg (by omega)]

theorem putBytes_zero (b : Nat → UInt8) (offset : Nat) (src : Nat → UInt8) : putBytes b offset src 0 = b := by
  funext i
  exact putBytes_outside (by omega)

end Xv6.Library
