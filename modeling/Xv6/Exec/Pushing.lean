import Xv6.Exec.Copyout
import Xv6.Library.Layout

/-! What `execve` pushes onto the new stack.

The strings and the vector are blocks below each other, each at a multiple of 16. Neither the
pages of the stack nor the size of `ustack` is compared with anything. The size of a copy and the
address that it goes to are of type `uint32_t`.
-/

set_option autoImplicit false

namespace Xv6.Exec

open Library Vm Layout

/-! ## Sizes and places -/

-- `len` in the call of `copyout` for a string.
def copyLength (s : List UInt8) : Nat := (UInt32.ofNat (s.length + 1)).toNat

theorem copyLength_eq (s : List UInt8) : copyLength s = (s.length + 1) % 2 ^ 32 := UInt32.toNat_ofNat'

def stringBlock (s : List UInt8) : Nat × (Nat → UInt8) := (copyLength s, stringBytes s)

theorem map_stringBlock (argv : List (List UInt8)) : (argv.map stringBlock).map Prod.fst = argv.map copyLength := by
  rw [List.map_map]
  rfl

def vectorSize (argv : List (List UInt8)) : Nat := 8 * (argv.length + 7)

def pushedSizes (argv : List (List UInt8)) : List Nat := argv.map copyLength ++ [vectorSize argv]

def pushed : List (List UInt8) → Nat → UInt64 → (Nat → UInt64) → Nat × UInt64 × (Nat → UInt64)
  | [], argc, sp, u => (argc, sp, u)
  | s :: rest, argc, sp, u =>
    let sp := lower sp (UInt64.ofNat (s.length + 1))
    pushed rest (argc + 1) sp (Function.update u (argc + 1) sp)

def vector (u : Nat → UInt64) (argc : Nat) : Nat → UInt64 :=
  let u := Function.update u 0 (UInt64.ofNat argc)
  let u := Function.update u (argc + 1) 0
  let u := Function.update u (argc + 2) 0
  let u := Function.update u (argc + 3) AT_PAGESZ
  let u := Function.update u (argc + 4) PGSIZE
  let u := Function.update u (argc + 5) AT_NULL
  Function.update u (argc + 6) 0

section
variable {w top d argc : Nat} {sp n : UInt64} {u : Nat → UInt64} {argv : List (List UInt8)}

theorem lower_toNat (sp n : UInt64) : (lower sp n).toNat = (sp - n).toNat - (sp - n).toNat % 16 := by
  have part : (sp - n) % 16 ≤ sp - n := by
    rw [UInt64.le_iff_toNat_le, UInt64.toNat_mod]
    exact Nat.mod_le _ _
  rw [lower, UInt64.toNat_sub_of_le _ _ part, UInt64.toNat_mod]
  rfl

-- The stack pointer is where the block begins, in 32 bits and in 64 bits.
theorem lower_depth (isWord : w = 2 ^ 32 ∨ w = 2 ^ 64) (isTop : top % 16 = 0) (small : top < 2 ^ 31)
    (isSp : sp.toNat % w = top - d) (le : below 16 d (n.toNat % w) ≤ top) :
    (lower sp n).toNat % w = top - below 16 d (n.toNat % w) := by
  have bound := sp.toNat_lt
  have boundN := n.toNat_lt
  rw [lower_toNat, UInt64.toNat_sub]
  rcases isWord with rfl | rfl
  · rw [below] at *
    omega
  · rw [below] at *
    omega

theorem lower_mod (sp n : UInt64) : ∃ z, z = (sp.toNat % 2 ^ 32 + 2 ^ 32 - n.toNat % 2 ^ 32) % 2 ^ 32 ∧
    (lower sp n).toNat % 2 ^ 32 = z - z % 16 := by
  have bound := sp.toNat_lt
  have boundN := n.toNat_lt
  refine ⟨_, rfl, ?_⟩
  rw [lower_toNat, UInt64.toNat_sub]
  omega

theorem lower_inside_iff {room size : Nat} (isTop : top % 16 = 0) (isRoom : room % 16 = 0) (small : top < 2 ^ 31)
    (isSp : sp.toNat % 2 ^ 32 = top - d) (aligned : d % 16 = 0) (reached : d ≤ room) (le : room ≤ top)
    (isSize : n.toNat % 2 ^ 32 = size) :
    size = 0 ∨ (top - room ≤ (lower sp n).toNat % 2 ^ 32 ∧ (lower sp n).toNat % 2 ^ 32 + size ≤ top) ↔
      below 16 d size ≤ room := by
  obtain ⟨z, isZ, isLower⟩ := lower_mod sp n
  rw [isSp, isSize] at isZ
  have bound : size < 2 ^ 32 := isSize ▸ Nat.mod_lt _ (by decide)
  rw [isLower, below]
  by_cases inside : size ≤ top - d
  · -- the block begins at or above address 0
    have isZ : z = top - d - size := by omega
    omega
  · have isZ : z = top - d + 2 ^ 32 - size := by omega
    omega

theorem pushed_argc (argv : List (List UInt8)) (argc : Nat) (sp : UInt64) (u : Nat → UInt64) :
    (pushed argv argc sp u).1 = argc + argv.length := by
  induction argv generalizing argc sp u with
  | nil => rfl
  | cons s rest ih =>
    rw [pushed, ih, List.length_cons]
    omega

theorem pushed_kept {j : Nat} (le : j ≤ argc) : (pushed argv argc sp u).2.2 j = u j := by
  induction argv generalizing argc sp u with
  | nil => rfl
  | cons s rest ih =>
    rw [pushed, ih (by omega), Function.update_of_ne (by omega)]

def wordSizes (w : Nat) (argv : List (List UInt8)) : List Nat := argv.map fun s => (s.length + 1) % w

theorem wordSizes_copyLength (argv : List (List UInt8)) : wordSizes (2 ^ 32) argv = argv.map copyLength := by
  rw [wordSizes]
  apply List.map_congr_left
  intro s _
  exact (copyLength_eq s).symm

variable (isWord : w = 2 ^ 32 ∨ w = 2 ^ 64) (isTop : top % 16 = 0) (small : top < 2 ^ 31)
include isWord isTop small

theorem lower_string {s : List UInt8} (isSp : sp.toNat % w = top - d) (le : below 16 d ((s.length + 1) % w) ≤ top) :
    (lower sp (UInt64.ofNat (s.length + 1))).toNat % w = top - below 16 d ((s.length + 1) % w) := by
  have isSize : (UInt64.ofNat (s.length + 1)).toNat % w = (s.length + 1) % w := by
    rw [UInt64.toNat_ofNat']
    rcases isWord with rfl | rfl
    · omega
    · omega
  rw [← isSize] at le ⊢
  exact lower_depth isWord isTop small isSp le

theorem pushed_sp (argc : Nat) (u : Nat → UInt64) (isSp : sp.toNat % w = top - d)
    (fits : depth 16 d (wordSizes w argv) ≤ top) :
    (pushed argv argc sp u).2.1.toNat % w = top - depth 16 d (wordSizes w argv) := by
  induction argv generalizing argc sp u d with
  | nil => exact isSp
  | cons s rest ih =>
    rw [wordSizes, List.map_cons, depth_cons] at fits ⊢
    have least := le_depth (a := 16) (by decide) (below 16 d ((s.length + 1) % w)) (wordSizes w rest)
    rw [wordSizes] at least
    exact ih _ _ (lower_string isWord isTop small isSp (by omega)) fits

theorem pushed_pointer (argc : Nat) (u : Nat → UInt64) (isSp : sp.toNat % w = top - d)
    (fits : depth 16 d (wordSizes w argv) ≤ top) {i : Nat} (less : i < argv.length) :
    ((pushed argv argc sp u).2.2 (argc + 1 + i)).toNat % w = top - place 16 d (wordSizes w argv) i := by
  induction argv generalizing argc sp u d i with
  | nil => exact absurd less (Nat.not_lt_zero i)
  | cons s rest ih =>
    rw [wordSizes, List.map_cons, depth_cons] at fits
    have least := le_depth (a := 16) (by decide) (below 16 d ((s.length + 1) % w)) (wordSizes w rest)
    rw [wordSizes] at least
    have next := lower_string (s := s) isWord isTop small isSp (by omega)
    cases i with
    | zero =>
      rw [pushed, pushed_kept (by omega), Function.update_self]
      exact next
    | succ i =>
      rw [pushed, show argc + 1 + (i + 1) = argc + 1 + 1 + i by omega]
      exact ih _ _ next fits (Nat.lt_of_succ_lt_succ less)

end

/-! ## Runs -/

section
variable {before : Memory} {s : State} {start taken pages : List UInt64} {root sp n : UInt64} {P M d argc : Nat}
  {bytes : Nat → UInt8} {u : Nat → UInt64} {argv : List (List UInt8)}

namespace Grown

variable (grown : Grown before root P start M bytes s.memory taken pages)
include grown

theorem top_lt : 4096 * M < 2 ^ 31 := by
  have limit := grown.holds.size_le
  omega

theorem copyout_block (kernel : Kernel) {len : UInt32} {size : Nat} (isLen : len.toNat = size)
    (isSize : n.toNat % 2 ^ 32 = size) (isSp : sp.toNat % 2 ^ 32 = 4096 * M - d)
    (fits : below 16 d size ≤ 4096 * M) (src : Nat → UInt8) :
    ∃ m', (copyout root (lower sp n).toUInt32 src len).run (handle kernel) s = some (0, { s with memory := m' }) ∧
      Untouched start s.memory m' ∧
      Grown before root P start M (putBytes bytes (4096 * M - below 16 d size) src size) m' taken pages := by
  have small := grown.top_lt
  have room := le_below (a := 16) (by decide) d size
  have isDst : (lower sp n).toUInt32.toNat = 4096 * M - below 16 d size := by
    rw [UInt64.toNat_toUInt32, ← isSize]
    exact lower_depth (.inl rfl) (by omega) small isSp (isSize ▸ fits)
  obtain ⟨m', ran, untouched, final⟩ := grown.copyoutFrom_run kernel len.toNat (lower sp n).toUInt32 src le_rfl
    (.inr (by omega))
  rw [isDst, isLen] at final
  exact ⟨m', ran, untouched, final⟩

theorem copyout_block_along (kernel : Kernel) {len : UInt32} {size : Nat} (isLen : len.toNat = size)
    (isSize : n.toNat % 2 ^ 32 = size) (isSp : sp.toNat % 2 ^ 32 = 4096 * M - d) (aligned : d % 16 = 0)
    (reached : d ≤ 4096 * (M - P)) (src : Nat → UInt8) :
    (copyout root (lower sp n).toUInt32 src len).Along (handle kernel) (InStack before root) s ↔
      below 16 d size ≤ 4096 * (M - P) := by
  have small := grown.top_lt
  have le := grown.le
  have base : 4096 * M - 4096 * (M - P) = 4096 * P := by omega
  rw [copyout, grown.copyoutFrom_along kernel len.toNat _ src le_rfl, isLen, UInt64.toNat_toUInt32, ← base]
  exact lower_inside_iff (by omega) (by omega) small isSp aligned reached (by omega) isSize

end Grown

theorem store_run (kernel : Kernel) (s : State) (u : Nat → UInt64) {i : Nat} (inside : i < MAXARG) (value : UInt64) :
    (store u i value).run (handle kernel) s = some (Function.update u i value, s) := by
  have answered : handle kernel (.ustack i) s = some ((), s) := if_pos inside
  exact run_then s answered _

theorem store_along (kernel : Kernel) (s : State) (u : Nat → UInt64) (i : Nat) (value : UInt64) :
    (store u i value).Along (handle kernel) (InStack before root) s ↔ i < MAXARG := by
  refine Program.along_bind.trans ?_
  rw [Program.along_request]
  exact and_iff_left fun _ _ _ => trivial

theorem copyLength_toNat (str : List UInt8) : (UInt32.ofNat (str.length + 1)).toNat = copyLength str := rfl

theorem copyLength_mod (str : List UInt8) : (UInt64.ofNat (str.length + 1)).toNat % 2 ^ 32 = copyLength str := by
  rw [copyLength_eq, UInt64.toNat_ofNat']
  omega

theorem lower_copyLength (str : List UInt8) (small : 4096 * M < 2 ^ 31) (isSp : sp.toNat % 2 ^ 32 = 4096 * M - d)
    (fits : below 16 d (copyLength str) ≤ 4096 * M) :
    (lower sp (UInt64.ofNat (str.length + 1))).toNat % 2 ^ 32 = 4096 * M - below 16 d (copyLength str) := by
  rw [copyLength_eq] at fits ⊢
  exact lower_string (.inl rfl) (by omega) small isSp fits

theorem Grown.pushStrings_run (grown : Grown before root P start M bytes s.memory taken pages) (kernel : Kernel)
    (argc : Nat) (u : Nat → UInt64) (isSp : sp.toNat % 2 ^ 32 = 4096 * M - d)
    (fits : depth 16 d (argv.map copyLength) ≤ 4096 * M)
    (room : argv = [] ∨ argc + argv.length < MAXARG) :
    ∃ m' bytes', (pushStrings root argv argc sp u).run (handle kernel) s =
        some (pushed argv argc sp u, { s with memory := m' }) ∧ Untouched start s.memory m' ∧
      Grown before root P start M bytes' m' taken pages ∧
      Laid 16 (4096 * M) d (argv.map stringBlock) bytes bytes' := by
  induction argv generalizing argc sp u d s bytes with
  | nil => exact ⟨s.memory, bytes, rfl, Untouched.refl start s.memory, grown, Laid.nil 16 _ d bytes⟩
  | cons str rest ih =>
    have small := grown.top_lt
    rw [List.map_cons, depth_cons] at fits
    have least := le_depth (a := 16) (by decide) (below 16 d (copyLength str)) (rest.map copyLength)
    have inside : argc + 1 + rest.length < MAXARG := by
      rcases room with empty | room
      · cases empty
      · rw [List.length_cons] at room
        omega
    obtain ⟨m₁, copied, untouched, grown₁⟩ := grown.copyout_block kernel (copyLength_toNat str) (copyLength_mod str)
      isSp (by omega) (stringBytes str)
    have next := lower_copyLength str small isSp (by omega)
    obtain ⟨m', bytes', ran, untouched', final, laid⟩ := ih (s := { s with memory := m₁ }) grown₁ (argc + 1)
      (Function.update u (argc + 1) (lower sp (UInt64.ofNat (str.length + 1)))) next fits (.inr inside)
    refine ⟨m', bytes', ?_, untouched.trans untouched', final, laid.cons (by decide) (by omega)⟩
    refine Program.run_bind_eq_some.mpr ⟨0, _, copied, ?_⟩
    exact Program.run_bind_eq_some.mpr ⟨_, _, store_run kernel _ u (by omega) _, ran⟩

/-- The copies of the strings stay in the stack, and the pointers in `ustack`, exactly when there is room. -/
theorem Grown.pushStrings_along (grown : Grown before root P start M bytes s.memory taken pages)
    (argv : List (List UInt8)) (kernel : Kernel)
    (argc : Nat) (u : Nat → UInt64) (isSp : sp.toNat % 2 ^ 32 = 4096 * M - d) (aligned : d % 16 = 0)
    (reached : d ≤ 4096 * (M - P)) :
    (pushStrings root argv argc sp u).Along (handle kernel) (InStack before root) s ↔
      depth 16 d (argv.map copyLength) ≤ 4096 * (M - P) ∧ (argv = [] ∨ argc + argv.length < MAXARG) := by
  induction argv generalizing argc sp u d s bytes with
  | nil => exact iff_of_true trivial ⟨reached, .inl rfl⟩
  | cons str rest ih =>
    have small := grown.top_lt
    have le := grown.le
    have least := le_depth (a := 16) (by decide) (below 16 d (copyLength str)) (rest.map copyLength)
    have along := grown.copyout_block_along kernel (copyLength_toNat str) (copyLength_mod str) isSp aligned reached
      (stringBytes str)
    rw [List.map_cons, depth_cons, List.length_cons]
    by_cases inside : below 16 d (copyLength str) ≤ 4096 * (M - P)
    · obtain ⟨m₁, copied, _, grown₁⟩ := grown.copyout_block kernel (copyLength_toNat str) (copyLength_mod str) isSp
        (by omega) (stringBytes str)
      have next := lower_copyLength str small isSp (by omega)
      refine (Program.along_bind_of copied _).trans ((and_iff_right (along.mpr inside)).trans ?_)
      by_cases slot : argc + 1 < MAXARG
      · refine (Program.along_bind_of (store_run kernel _ u slot _) _).trans
          ((and_iff_right ((store_along kernel _ u _ _).mpr slot)).trans ?_)
        refine (ih (s := { s with memory := m₁ }) grown₁ (argc + 1) _ next (below_mod 16 d _) inside).trans ?_
        refine and_congr_right fun _ => ?_
        cases rest with
        | nil => exact iff_of_true (.inl rfl) (.inr slot)
        | cons a rest =>
          rw [List.length_cons]
          simp only [reduceCtorEq, false_or]
          omega
      · refine iff_of_false (fun all => slot ?_) (fun all => ?_)
        · exact (store_along kernel _ u _ _).mp (Program.along_bind.mp all).1
        · rcases all.2 with empty | room
          · cases empty
          · omega
    · refine iff_of_false (fun all => inside ?_) (fun all => inside (by omega))
      exact along.mp (Program.along_bind.mp all).1

/-! ## The vector -/

theorem storeVector_run (kernel : Kernel) (s : State) (u : Nat → UInt64) (room : argc + 6 < MAXARG) :
    (storeVector u argc).run (handle kernel) s = some (vector u argc, s) := by
  have slots : ∀ {i}, i ≤ argc + 6 → i < MAXARG := fun le => by omega
  refine Program.run_bind_eq_some.mpr ⟨_, _, store_run kernel s u (slots (by omega)) _, ?_⟩
  refine Program.run_bind_eq_some.mpr ⟨_, _, store_run kernel s _ (slots (by omega)) _, ?_⟩
  refine Program.run_bind_eq_some.mpr ⟨_, _, store_run kernel s _ (slots (by omega)) _, ?_⟩
  refine Program.run_bind_eq_some.mpr ⟨_, _, store_run kernel s _ (slots (by omega)) _, ?_⟩
  refine Program.run_bind_eq_some.mpr ⟨_, _, store_run kernel s _ (slots (by omega)) _, ?_⟩
  refine Program.run_bind_eq_some.mpr ⟨_, _, store_run kernel s _ (slots (by omega)) _, ?_⟩
  exact store_run kernel s _ room _

theorem store_then {A : Type} (kernel : Kernel) (s : State) (u : Nat → UInt64) (i : Nat) (value : UInt64)
    (k : (Nat → UInt64) → Program Exec A) :
    (store u i value >>= k).Along (handle kernel) (InStack before root) s ↔
      i < MAXARG ∧ (k (Function.update u i value)).Along (handle kernel) (InStack before root) s := by
  by_cases slot : i < MAXARG
  · rw [Program.along_bind_of (store_run kernel s u slot value), store_along]
  · rw [Program.along_bind, store_along]
    exact iff_of_false (fun all => slot all.1) fun all => slot all.1

theorem storeVector_along (kernel : Kernel) (s : State) (u : Nat → UInt64) (argc : Nat) :
    (storeVector u argc).Along (handle kernel) (InStack before root) s ↔ argc + 6 < MAXARG := by
  rw [storeVector, store_then, store_then, store_then, store_then, store_then, store_then, store_along]
  omega

theorem vectorSize_mod (argv : List (List UInt8)) (room : argv.length + 7 ≤ MAXARG) :
    (UInt64.ofNat (argv.length + 7) * 8).toNat % 2 ^ 32 = vectorSize argv ∧
      (UInt32.ofNat ((argv.length + 7) * 8)).toNat = vectorSize argv := by
  rw [MAXARG] at room
  rw [vectorSize, UInt64.toNat_mul, UInt64.toNat_ofNat', UInt32.toNat_ofNat']
  change (_ % 2 ^ 64 * 8) % 2 ^ 64 % 2 ^ 32 = _ ∧ _
  omega

def vectorOf (argv : List (List UInt8)) (top : UInt64) : Nat → UInt64 :=
  vector (pushed argv 0 top fun _ => 0).2.2 argv.length

def blocks (argv : List (List UInt8)) (top : UInt64) : List (Nat × (Nat → UInt8)) :=
  argv.map stringBlock ++ [(vectorSize argv, arrayBytes (vectorOf argv top))]

theorem map_blocks (argv : List (List UInt8)) (top : UInt64) :
    (blocks argv top).map Prod.fst = pushedSizes argv := by
  rw [blocks, List.map_append, map_stringBlock]
  rfl

-- The stack pointer that `execve` ends with.
def finalSp (argv : List (List UInt8)) (top : UInt64) : UInt64 :=
  lower (pushed argv 0 top fun _ => 0).2.1 (UInt64.ofNat (argv.length + 7) * 8)

theorem Grown.pushArguments_run (grown : Grown before root P start M bytes s.memory taken pages) (kernel : Kernel)
    {top : Int32} (isTop : (extend top).toNat = 4096 * M) (fits : depth 16 0 (pushedSizes argv) ≤ 4096 * M)
    (room : argv.length + 7 ≤ MAXARG) :
    ∃ m' bytes', (pushArguments root argv top).run (handle kernel) s =
        some (some (argv.length, finalSp argv (extend top)), { s with memory := m' }) ∧
      Untouched start s.memory m' ∧ Grown before root P start M bytes' m' taken pages ∧
      Laid 16 (4096 * M) 0 (blocks argv (extend top)) bytes bytes' := by
  have small := grown.top_lt
  obtain ⟨isSize, isLen⟩ := vectorSize_mod argv room
  rw [pushedSizes, depth_append, depth_cons, depth_nil] at fits
  have least := le_below (a := 16) (by decide) (depth 16 0 (argv.map copyLength)) (vectorSize argv)
  have isSp : (extend top).toNat % 2 ^ 32 = 4096 * M - 0 := by omega
  obtain ⟨m₁, bytes₁, ran₁, untouched₁, grown₁, laid₁⟩ := grown.pushStrings_run kernel 0
    (fun _ => 0) isSp (show depth 16 0 (argv.map copyLength) ≤ 4096 * M by omega) (.inr (by omega))
  have count := pushed_argc argv 0 (extend top) fun _ => 0
  rw [Nat.zero_add] at count
  have isSp₁ := pushed_sp (.inl rfl) (by omega) small 0 (fun _ => 0) isSp
    (show depth 16 0 (wordSizes (2 ^ 32) argv) ≤ 4096 * M by rw [wordSizes_copyLength]; omega)
  rw [wordSizes_copyLength] at isSp₁
  obtain ⟨m', copied, untouched, final⟩ := grown₁.copyout_block (s := { s with memory := m₁ }) kernel isLen isSize
    isSp₁ fits (arrayBytes (vectorOf argv (extend top)))
  refine ⟨m', _, ?_, untouched₁.trans untouched, final, ?_⟩
  · refine Program.run_bind_eq_some.mpr ⟨_, _, ran₁, ?_⟩
    dsimp only
    rw [count]
    refine Program.run_bind_eq_some.mpr ⟨_, _, storeVector_run kernel _ _ (by omega), ?_⟩
    exact Program.run_bind_eq_some.mpr ⟨_, _, copied, rfl⟩
  · refine laid₁.append (by decide) ?_
    rw [map_stringBlock]
    exact (Laid.nil 16 _ _ _).cons (by decide) fits

/-- Everything that is pushed stays in the stack and in `ustack` exactly when it fits. -/
theorem Grown.pushArguments_along (grown : Grown before root P start M bytes s.memory taken pages) (kernel : Kernel)
    {top : Int32} (isTop : (extend top).toNat = 4096 * M) :
    (pushArguments root argv top).Along (handle kernel) (InStack before root) s ↔
      depth 16 0 (pushedSizes argv) ≤ 4096 * (M - P) ∧ argv.length + 7 ≤ MAXARG := by
  have small := grown.top_lt
  have le := grown.le
  have isSp : (extend top).toNat % 2 ^ 32 = 4096 * M - 0 := by omega
  have strings := grown.pushStrings_along argv kernel 0 (fun _ => 0) isSp rfl (Nat.zero_le _)
  have least := le_below (a := 16) (by decide) (depth 16 0 (argv.map copyLength)) (vectorSize argv)
  rw [pushedSizes, depth_append, depth_cons, depth_nil, pushArguments]
  by_cases fits : depth 16 0 (argv.map copyLength) ≤ 4096 * (M - P) ∧ (argv = [] ∨ 0 + argv.length < MAXARG)
  · obtain ⟨m₁, bytes₁, ran₁, _, grown₁, _⟩ := grown.pushStrings_run kernel 0
      (fun _ => 0) isSp (show depth 16 0 (argv.map copyLength) ≤ 4096 * M by omega) fits.2
    have count := pushed_argc argv 0 (extend top) fun _ => 0
    rw [Nat.zero_add] at count
    rw [Program.along_bind_of ran₁, and_iff_right (strings.mpr fits)]
    dsimp only
    rw [count, Program.along_bind, storeVector_along]
    by_cases room : argv.length + 6 < MAXARG
    · have isSp₁ := pushed_sp (.inl rfl) (by omega) small 0 (fun _ => 0) isSp
        (show depth 16 0 (wordSizes (2 ^ 32) argv) ≤ 4096 * M by rw [wordSizes_copyLength]; omega)
      rw [wordSizes_copyLength] at isSp₁
      obtain ⟨isSize, isLen⟩ := vectorSize_mod argv room
      have along := grown₁.copyout_block_along (s := { s with memory := m₁ }) kernel isLen isSize isSp₁
        (depth_mod rfl _) fits.1 (arrayBytes (vectorOf argv (extend top)))
      refine (and_iff_right room).trans (Iff.trans ?_ (along.trans (and_iff_left room).symm))
      constructor
      · intro all
        exact (Program.along_bind.mp (all _ _ (storeVector_run kernel _ _ room))).1
      · intro copies stored v ran
        cases (storeVector_run kernel _ _ room).symm.trans ran
        refine Program.along_bind.mpr ⟨copies, fun r w _ => ?_⟩
        split <;> trivial
    · exact iff_of_false (fun all => room all.1) fun all => room all.2
  · refine iff_of_false (fun all => fits (strings.mp (Program.along_bind.mp all).1)) fun all => fits ⟨by omega, ?_⟩
    exact .inr (by omega)

end

end Xv6.Exec
