import Xv6.Library.Bytes

/-! Blocks of bytes that are put below each other, each at an aligned place.

Places are counted downward from an aligned top: the depth of a block is the depth of its first
byte. A block is a number of bytes and the bytes.
-/

set_option autoImplicit false

namespace Xv6.Library.Layout

variable {a top d n i j k : Nat}

/-! ## Depths -/

def below (a d n : Nat) : Nat := (d + n + (a - 1)) / a * a

theorem le_below (pos : 0 < a) (d n : Nat) : d + n ≤ below a d n := by
  have split := Nat.div_add_mod (d + n + (a - 1)) a
  have less := Nat.mod_lt (d + n + (a - 1)) pos
  rw [below, Nat.mul_comm]
  omega

theorem below_mod (a d n : Nat) : below a d n % a = 0 := Nat.mul_mod_left _ a

def depth (a d : Nat) (sizes : List Nat) : Nat := sizes.foldl (below a) d

@[simp] theorem depth_nil (a d : Nat) : depth a d [] = d := rfl

@[simp] theorem depth_cons (a d n : Nat) (sizes : List Nat) :
    depth a d (n :: sizes) = depth a (below a d n) sizes := rfl

theorem depth_append (a d : Nat) (sizes more : List Nat) :
    depth a d (sizes ++ more) = depth a (depth a d sizes) more := List.foldl_append

theorem le_depth (pos : 0 < a) (d : Nat) (sizes : List Nat) : d ≤ depth a d sizes := by
  induction sizes generalizing d with
  | nil => exact le_rfl
  | cons n sizes ih =>
    have first := le_below pos d n
    have rest := ih (below a d n)
    rw [depth_cons]
    omega

theorem depth_mod (aligned : d % a = 0) (sizes : List Nat) : depth a d sizes % a = 0 := by
  induction sizes generalizing d with
  | nil => exact aligned
  | cons n sizes ih => exact ih (below_mod a d n)

def place (a d : Nat) (sizes : List Nat) (i : Nat) : Nat := depth a d (sizes.take (i + 1))

theorem depth_take_le (pos : 0 < a) (sizes : List Nat) (le : i ≤ j) :
    depth a d (sizes.take i) ≤ depth a d (sizes.take j) := by
  have split : sizes.take j = sizes.take i ++ (sizes.take j).drop i := by
    have first := (List.take_append_drop i (sizes.take j)).symm
    rwa [List.take_take, Nat.min_eq_left le] at first
  rw [split, depth_append]
  exact le_depth pos _ _

theorem place_le (pos : 0 < a) (sizes : List Nat) (i : Nat) : place a d sizes i ≤ depth a d sizes := by
  have split := congrArg (depth a d) (List.take_append_drop (i + 1) sizes)
  rw [depth_append] at split
  rw [place, ← split]
  exact le_depth pos _ _

theorem place_mod (aligned : d % a = 0) (sizes : List Nat) (i : Nat) : place a d sizes i % a = 0 :=
  depth_mod aligned _

theorem place_append_left (sizes more : List Nat) (inside : i < sizes.length) :
    place a d (sizes ++ more) i = place a d sizes i := by
  rw [place, place, List.take_append_of_le_length inside]

theorem place_append_right (sizes more : List Nat) (outside : sizes.length ≤ i) :
    place a d (sizes ++ more) i = place a (depth a d sizes) more (i - sizes.length) := by
  rw [place, place, List.take_append, List.take_of_length_le (Nat.le_succ_of_le outside), depth_append]
  congr 2
  omega

theorem place_below (pos : 0 < a) (sizes : List Nat) (inside : i < sizes.length) :
    depth a d (sizes.take i) + sizes[i] ≤ place a d sizes i := by
  rw [place, List.take_add_one, List.getElem?_eq_getElem inside, Option.toList_some, depth_append]
  exact le_below pos _ _

theorem place_apart (pos : 0 < a) (sizes : List Nat) (less : i < j) (inside : j < sizes.length) :
    place a d sizes i + sizes[j] ≤ place a d sizes j := by
  have before := depth_take_le (d := d) pos sizes (show i + 1 ≤ j from less)
  have here := place_below (d := d) pos sizes inside
  have first : place a d sizes i = depth a d (sizes.take (i + 1)) := rfl
  omega

/-! ## Bytes -/

structure Laid (a top d : Nat) (blocks : List (Nat × (Nat → UInt8))) (before after : Nat → UInt8) : Prop where
  inside : ∀ i (less : i < blocks.length), ∀ k, k < blocks[i].1 →
    after (top - place a d (blocks.map Prod.fst) i + k) = blocks[i].2 k
  outside : ∀ k, top - d ≤ k ∨ k < top - depth a d (blocks.map Prod.fst) → after k = before k

variable {blocks more : List (Nat × (Nat → UInt8))} {before mid after : Nat → UInt8}

theorem Laid.nil (a top d : Nat) (before : Nat → UInt8) : Laid a top d [] before before where
  inside i less := absurd less (Nat.not_lt_zero i)
  outside _ _ := rfl

theorem Laid.cons {src : Nat → UInt8} (pos : 0 < a) (fits : below a d n ≤ top)
    (laid : Laid a top (below a d n) blocks (putBytes before (top - below a d n) src n) after) :
    Laid a top d ((n, src) :: blocks) before after := by
  have size := le_below pos d n
  have least := le_depth pos (below a d n) (blocks.map Prod.fst)
  constructor
  · intro i less k byte
    cases i with
    | zero =>
      have byte : k < n := byte
      -- those below do not reach it
      have kept := laid.outside (top - below a d n + k) (.inl (by omega))
      rw [putBytes_inside k byte] at kept
      exact kept
    | succ i => exact laid.inside i (Nat.lt_of_succ_lt_succ less) k byte
  · intro k outside
    rw [List.map_cons, depth_cons] at outside
    dsimp only at outside
    rw [laid.outside k (by omega), putBytes_outside (by omega)]

theorem Laid.append (pos : 0 < a) (first : Laid a top d blocks before mid)
    (second : Laid a top (depth a d (blocks.map Prod.fst)) more mid after) :
    Laid a top d (blocks ++ more) before after := by
  have least := le_depth pos d (blocks.map Prod.fst)
  have more' := le_depth pos (depth a d (blocks.map Prod.fst)) (more.map Prod.fst)
  constructor
  · intro i less k byte
    by_cases early : i < blocks.length
    · have isPlace := place_append_left (a := a) (d := d) (blocks.map Prod.fst) (more.map Prod.fst)
        (i := i) (by rw [List.length_map]; exact early)
      rw [← List.map_append] at isPlace
      rw [List.getElem_append_left early] at byte ⊢
      have lowest := place_le (d := d) pos (blocks.map Prod.fst) i
      rw [isPlace, second.outside _ (.inl (by omega))]
      exact first.inside i early k byte
    · have isPlace := place_append_right (a := a) (d := d) (blocks.map Prod.fst) (more.map Prod.fst)
        (i := i) (by rw [List.length_map]; omega)
      rw [← List.map_append, List.length_map] at isPlace
      rw [List.length_append] at less
      rw [List.getElem_append_right (by omega)] at byte ⊢
      rw [isPlace]
      exact second.inside (i - blocks.length) (by omega) k byte
  · intro k outside
    rw [List.map_append, depth_append] at outside
    rw [second.outside k (by omega), first.outside k (by omega)]

end Xv6.Library.Layout
