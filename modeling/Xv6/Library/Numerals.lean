import Mathlib.Data.Nat.Digits.Lemmas

/-! Numerals in any base, with the most significant digit first.

Every number has one numeral without leading zeros. It is made by a loop that divides by
the base until nothing is left, and its length bounds the number.
-/

set_option autoImplicit false

namespace Xv6.Library

def numeral (base n : Nat) : List Nat := if n = 0 then [0] else (Nat.digits base n).reverse

def valueOf (base : Nat) (ds : List Nat) : Nat := Nat.ofDigits base ds.reverse

structure Canonical (base : Nat) (ds : List Nat) : Prop where
  nonempty : ds ≠ []
  digit : ∀ d ∈ ds, d < base
  leading : ds.head? = some 0 → ds = [0]

section
variable {base n : Nat} {ds : List Nat}

theorem numeral_small (small : n < base) : numeral base n = [n] := by
  by_cases zero : n = 0
  · rw [numeral, if_pos zero, zero]
  · rw [numeral, if_neg zero, Nat.digits_of_lt base n zero small]
    rfl

theorem numeral_step (two : 1 < base) (large : base ≤ n) :
    numeral base n = numeral base (n / base) ++ [n % base] := by
  have positive : 0 < n := by omega
  have quotient : n / base ≠ 0 := (Nat.div_pos large (by omega)).ne'
  rw [numeral, if_neg positive.ne', numeral, if_neg quotient, Nat.digits_def' two positive, List.reverse_cons]

theorem valueOf_numeral (base n : Nat) : valueOf base (numeral base n) = n := by
  by_cases zero : n = 0
  · rw [numeral, if_pos zero, zero]
    simp [valueOf]
  · rw [numeral, if_neg zero, valueOf, List.reverse_reverse, Nat.ofDigits_digits]

theorem canonical_numeral (two : 1 < base) (n : Nat) : Canonical base (numeral base n) := by
  by_cases zero : n = 0
  · rw [numeral, if_pos zero]
    exact ⟨by simp, by simp; omega, fun _ => rfl⟩
  · have notEmpty : Nat.digits base n ≠ [] := Nat.digits_ne_nil_iff_ne_zero.mpr zero
    have last := Nat.getLast_digit_ne_zero base zero
    rw [numeral, if_neg zero]
    refine ⟨by simpa using notEmpty, fun d member => ?_, fun first => ?_⟩
    · exact Nat.digits_lt_base two (List.mem_reverse.mp member)
    · rw [List.head?_reverse, List.getLast?_eq_some_getLast notEmpty, Option.some.injEq] at first
      exact absurd first last

theorem Canonical.unique (canonical : Canonical base ds) (two : 1 < base) : numeral base (valueOf base ds) = ds := by
  by_cases isZero : ds.head? = some 0
  · rw [canonical.leading isZero]
    simp [valueOf, numeral]
  · have digits : Nat.digits base (valueOf base ds) = ds.reverse := by
      apply Nat.digits_ofDigits base two
      · intro d member
        exact canonical.digit d (List.mem_reverse.mp member)
      · intro notEmpty last
        rw [List.getLast_reverse] at last
        exact isZero ((List.head?_eq_some_head canonical.nonempty).trans (congrArg some last))
    have positive : valueOf base ds ≠ 0 := by
      intro zero
      rw [zero, Nat.digits_zero, eq_comm, List.reverse_eq_nil_iff] at digits
      exact canonical.nonempty digits
    rw [numeral, if_neg positive, digits, List.reverse_reverse]

theorem lt_of_length_le {k : Nat} (two : 1 < base) (short : (numeral base n).length ≤ k) : n < base ^ k := by
  by_cases zero : n = 0
  · rw [zero]
    exact Nat.pow_pos (by omega)
  · rw [numeral, if_neg zero, List.length_reverse] at short
    exact (Nat.digits_length_le_iff two n).mp short

theorem length_numeral_le {k : Nat} (two : 1 < base) (some : 0 < k) (small : n < base ^ k) :
    (numeral base n).length ≤ k := by
  by_cases zero : n = 0
  · rw [numeral, if_pos zero]
    exact some
  · rw [numeral, if_neg zero, List.length_reverse]
    exact (Nat.digits_length_le_iff two n).mpr small

end

end Xv6.Library
