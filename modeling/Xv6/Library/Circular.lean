import Mathlib.Data.Nat.ModEq
import Mathlib.Logic.Function.Basic

/-! Circular buffers whose indices count through all of a machine word.

An index is reduced modulo the capacity only when a cell is accessed. As long as the
capacity divides the number of words, a window of the buffer is a list, wherever the
indices wrap around.
-/

set_option autoImplicit false

namespace Xv6.Library.Circular

section
variable {α : Type} {size : Nat}

def slot (positive : 0 < size) (x : UInt64) : Fin size := ⟨x.toNat % size, Nat.mod_lt _ positive⟩

structure Spells (positive : 0 < size) (cells : Fin size → α) (start : UInt64) (xs : List α) : Prop where
  fits : xs.length ≤ size
  cell : ∀ k (inside : k < xs.length), cells (slot positive (start + .ofNat k)) = xs[k]

variable {positive : 0 < size} {cells : Fin size → α} {start : UInt64} {xs ys : List α} {x : α}

theorem slot_val (divides : size ∣ 2 ^ 64) (start : UInt64) (k : Nat) :
    (slot positive (start + .ofNat k)).val = (start.toNat + k) % size := by
  simp only [slot, UInt64.toNat_add, UInt64.toNat_ofNat']
  rw [Nat.mod_mod_of_dvd _ divides, Nat.add_mod, Nat.mod_mod_of_dvd _ divides, ← Nat.add_mod]

/-- Indices less than the capacity apart have cells of their own. -/
theorem slot_injective (divides : size ∣ 2 ^ 64) {j k : Nat} (first : j < size) (second : k < size)
    (same : slot positive (start + .ofNat j) = slot positive (start + .ofNat k)) : j = k := by
  have values := congrArg Fin.val same
  rw [slot_val divides, slot_val divides] at values
  have reduced : j % size = k % size := Nat.ModEq.add_left_cancel' start.toNat values
  rwa [Nat.mod_eq_of_lt first, Nat.mod_eq_of_lt second] at reduced

namespace Spells

theorem nil : Spells positive cells start [] := ⟨Nat.zero_le _, by simp⟩

theorem left (spells : Spells positive cells start (xs ++ ys)) : Spells positive cells start xs where
  fits := by
    have whole := spells.fits
    rw [List.length_append] at whole
    omega
  cell k inside := by
    rw [spells.cell k (by rw [List.length_append]; omega), List.getElem_append_left inside]

theorem head (spells : Spells positive cells start (x :: xs)) : cells (slot positive start) = x := by
  have first := spells.cell 0 (by simp)
  rwa [show start + .ofNat 0 = start from UInt64.add_zero start, List.getElem_cons_zero] at first

theorem tail (spells : Spells positive cells start (x :: xs)) : Spells positive cells (start + 1) xs where
  fits := by
    have whole := spells.fits
    rw [List.length_cons] at whole
    omega
  cell k inside := by
    have shifted : start + 1 + .ofNat k = start + .ofNat (k + 1) := by
      rw [UInt64.add_assoc, UInt64.ofNat_add, UInt64.add_comm 1]
      rfl
    rw [shifted, spells.cell (k + 1) (by simpa using inside), List.getElem_cons_succ]

theorem last (spells : Spells positive cells start (xs ++ [x])) :
    cells (slot positive (start + .ofNat xs.length)) = x := by
  rw [spells.cell xs.length (by simp), List.getElem_concat_length rfl]

/-- Writing the first cell behind a list that leaves room for it. -/
theorem push (spells : Spells positive cells start xs) (divides : size ∣ 2 ^ 64) (room : xs.length < size) (x : α) :
    Spells positive (Function.update cells (slot positive (start + .ofNat xs.length)) x) start (xs ++ [x]) where
  fits := by
    rw [List.length_append]
    exact room
  cell k inside := by
    by_cases old : k < xs.length
    · have other : slot positive (start + .ofNat k) ≠ slot positive (start + .ofNat xs.length) := fun same =>
        absurd (slot_injective divides (Nat.lt_trans old room) room same) (Nat.ne_of_lt old)
      rw [Function.update_of_ne other, spells.cell k old, List.getElem_append_left old]
    · obtain rfl : k = xs.length := by
        rw [List.length_append] at inside
        simp at inside
        omega
      rw [Function.update_self, List.getElem_concat_length rfl]

end Spells

end

end Xv6.Library.Circular
