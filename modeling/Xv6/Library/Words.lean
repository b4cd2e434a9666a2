import Xv6.Library.Bytes

/-! Words in a memory of bytes, at addresses of 64 bits that wrap around.

A list of words lies at an address if each of them can be loaded from its place. A word
may be pushed below the list as long as the list does not fill all of the memory.
-/

set_option autoImplicit false

namespace Xv6.Library

def load (m : UInt64 → UInt8) (a : UInt64) : UInt64 := wordAt (fun i => m (a + .ofNat i)) 0

def store (m : UInt64 → UInt8) (a v : UInt64) : UInt64 → UInt8 :=
  fun x => if (x - a).toNat < 8 then byteOf v (x - a).toNat else m x

def copied (m : UInt64 → UInt8) (dst src : UInt64) (n : Nat) : UInt64 → UInt8 :=
  fun x => if (x - dst).toNat < n then m (src + (x - dst)) else m x

def Words (m : UInt64 → UInt8) : UInt64 → List UInt64 → Prop
  | _, [] => True
  | a, w :: ws => load m a = w ∧ Words m (a + 8) ws

section
variable {m n : UInt64 → UInt8} {a b v w : UInt64} {ws : List UInt64}

theorem toNat_add_sub {d i : Nat} (distance : (b - a).toNat = d) (small : d + i < 2 ^ 64) :
    (b + .ofNat i - a).toNat = d + i := by
  have wraps := UInt64.toNat_sub b a
  have low := a.toNat_lt
  have high := b.toNat_lt
  rw [UInt64.toNat_sub, UInt64.toNat_add, UInt64.toNat_ofNat']
  omega

theorem toNat_distance (a : UInt64) {i : Nat} (small : i < 2 ^ 64) : (a + .ofNat i - a).toNat = i := by
  have distance := toNat_add_sub (a := a) (b := a) (d := 0) (i := i) (by simp) (by omega)
  omega

theorem toNat_sub_offset {d i : Nat} (distance : (b - a).toNat = d) (below : i ≤ d) :
    (b - (a + .ofNat i)).toNat = d - i := by
  have small := (b - a).toNat_lt
  have split : b - (a + .ofNat i) = b - a - .ofNat i := by
    rw [UInt64.sub_eq_add_neg, UInt64.neg_add, UInt64.sub_eq_add_neg, UInt64.sub_eq_add_neg, UInt64.sub_eq_add_neg,
      UInt64.add_assoc]
  rw [split, UInt64.toNat_sub, UInt64.toNat_ofNat']
  omega

theorem add_ofNat_sub (a : UInt64) (i j : Nat) : a + .ofNat (i + j) - .ofNat j = a + .ofNat i := by
  rw [UInt64.ofNat_add, ← UInt64.add_assoc, UInt64.add_sub_cancel]

theorem add_distance (a x : UInt64) : a + (x - a) = x := by rw [UInt64.add_comm, UInt64.sub_add_cancel]

theorem copied_self (m : UInt64 → UInt8) (d : UInt64) (n : Nat) : copied m d d n = m := by
  funext x
  rw [copied, add_distance, ite_self]

theorem load_congr (same : ∀ i, i < 8 → m (a + .ofNat i) = n (a + .ofNat i)) : load m a = load n a := by
  apply wordAt_congr
  intro i less
  rw [Nat.zero_add]
  exact same i less

theorem load_store (m : UInt64 → UInt8) (a v : UInt64) : load (store m a v) a = v := by
  apply wordAt_byteOf
  intro i less
  rw [Nat.zero_add, store, toNat_distance a (by omega), if_pos less]

/-- A word is not changed by a store at a distance of 8 or more, in both directions. -/
theorem load_store_of_apart {d : Nat} (distance : (b - a).toNat = d) (above : 8 ≤ d) (below : d + 8 ≤ 2 ^ 64) :
    load (store m a v) b = load m b := by
  apply load_congr
  intro i less
  have far := toNat_add_sub distance (i := i) (by omega)
  rw [store, far, if_neg (by omega)]

/-- A store into a range leaves the bytes outside of it. -/
theorem store_outside {i size : Nat} (inside : i + 8 ≤ size) (outside : size ≤ (b - a).toNat) :
    store m (a + .ofNat i) v b = m b := by
  rw [store, toNat_sub_offset rfl (by omega), if_neg (by omega)]

theorem load_copied {dst src : UInt64} {size offset : Nat} (inside : offset + 8 ≤ size) (small : size ≤ 2 ^ 64) :
    load (copied m dst src size) (dst + .ofNat offset) = load m (src + .ofNat offset) := by
  apply wordAt_congr
  intro i less
  have joined : ∀ base : UInt64, base + .ofNat offset + .ofNat i = base + .ofNat (offset + i) := by
    intro base
    rw [UInt64.add_assoc, ← UInt64.ofNat_add]
  have here := toNat_distance dst (i := offset + i) (by omega)
  have distance : dst + .ofNat (offset + i) - dst = .ofNat (offset + i) := by
    apply UInt64.toNat_inj.mp
    rw [here, UInt64.toNat_ofNat', Nat.mod_eq_of_lt (by omega)]
  rw [Nat.zero_add, joined, joined, copied, here, if_pos (by omega), distance]

theorem Words.store {d : Nat} (words : Words m b ws) (distance : (b - a).toNat = d) (above : 8 ≤ d)
    (below : d + 8 * ws.length ≤ 2 ^ 64) : Words (store m a v) b ws := by
  -- on the words, with the distance of the first of them
  induction ws generalizing b d with
  | nil => trivial
  | cons w ws ih =>
    obtain ⟨first, rest⟩ := words
    rw [List.length_cons] at below
    constructor
    · exact (load_store_of_apart distance above (by omega)).trans first
    · cases ws with
      | nil => trivial
      | cons _ _ =>
        rw [List.length_cons] at below
        have next : (b + 8 - a).toNat = d + 8 := toNat_add_sub (i := 8) distance (by omega)
        apply ih rest next
        · omega
        · rw [List.length_cons]
          omega

theorem Words.push (words : Words m a ws) (room : 8 * (ws.length + 1) ≤ 2 ^ 64) :
    Words (Library.store m (a - 8) v) (a - 8) (v :: ws) := by
  have above : (a - (a - 8)).toNat = 8 := by
    rw [UInt64.toNat_sub, UInt64.toNat_sub]
    have := a.toNat_lt
    have eight : UInt64.toNat 8 = 8 := rfl
    omega
  refine ⟨load_store m (a - 8) v, ?_⟩
  rw [UInt64.sub_add_cancel]
  apply words.store above (le_refl 8)
  omega

theorem words_iff : Words m a ws ↔ ∀ k (less : k < ws.length), load m (a + 8 * .ofNat k) = ws[k] := by
  induction ws generalizing a with
  | nil => simp [Words]
  | cons w ws ih =>
    have next : ∀ k : Nat, a + 8 + 8 * UInt64.ofNat k = a + 8 * .ofNat (k + 1) := by
      intro k
      rw [UInt64.ofNat_add, UInt64.mul_add, UInt64.add_assoc, UInt64.add_comm 8]
      rfl
    rw [Words, ih]
    constructor
    · intro ⟨first, rest⟩ k less
      cases k with
      | zero => simpa using first
      | succ k =>
        rw [← next]
        exact rest k (Nat.lt_of_succ_lt_succ less)
    · intro all
      constructor
      · simpa using all 0 (Nat.succ_pos _)
      · intro k less
        rw [next]
        exact all (k + 1) (Nat.succ_lt_succ less)

theorem Words.congr (words : Words m a ws) (same : ∀ i, i < 8 * ws.length → n (a + .ofNat i) = m (a + .ofNat i)) :
    Words n a ws := by
  rw [words_iff] at words ⊢
  intro k less
  rw [← words k less]
  apply load_congr
  intro i small
  have place : a + 8 * UInt64.ofNat k + .ofNat i = a + .ofNat (8 * k + i) := by
    rw [UInt64.ofNat_add, UInt64.ofNat_mul, UInt64.add_assoc]
    rfl
  rw [place]
  exact same _ (by omega)

end

end Xv6.Library
