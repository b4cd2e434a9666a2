import Xv6.Exec.Bounds

/-! The arguments of a new process, as it finds them in its memory.

The block is read back through the new page table, after `vm_free` of the old one. No page of the
new address space is a table of the old one: its pages were free, and the tables were not.
-/

set_option autoImplicit false

namespace Xv6

open Library Vm Layout

def Vm.Memory.userWord (m : Memory) (root : UInt64) (va : Nat) : Option UInt64 :=
  ((List.range 8).mapM fun k => m.userByte root (va + k)).map fun bytes => wordAt (fun k => bytes.getD k 0) 0

namespace Exec

/-! ## The block -/

def stringSizes (argv : List (List UInt8)) : List Nat := argv.map fun str => str.length + 1

def argumentSizes (argv : List (List UInt8)) : List Nat := stringSizes argv ++ [vectorSize argv]

/-- What `execve` is given fits into the two pages and into `ustack`. -/
def ArgumentsFit (argv : List (List UInt8)) : Prop :=
  depth 16 0 (argumentSizes argv) ≤ 8192 ∧ argv.length + 7 ≤ MAXARG

instance (argv : List (List UInt8)) : Decidable (ArgumentsFit argv) := inferInstanceAs (Decidable (_ ∧ _))

def argumentWords (argc : Nat) (pointers : List UInt64) : List UInt64 :=
  UInt64.ofNat argc :: (pointers ++ [0, 0, AT_PAGESZ, PGSIZE, AT_NULL, 0])

def ranges (argv : List (List UInt8)) (pointers : List UInt64) (sp : UInt64) : List (Nat × Nat) :=
  (pointers.map UInt64.toNat ++ [sp.toNat]).zip (argumentSizes argv)

/-- The arguments in the memory of a process. -/
structure ArgumentBlock (argv : List (List UInt8)) (t : State) (pointers : List UInt64) : Prop where
  count : pointers.length = argv.length
  aligned : t.tf.sp.toNat % 16 = 0
  words : (List.range (argv.length + 7)).map (fun i => t.memory.userWord t.pgdir (t.tf.sp.toNat + 8 * i)) =
    (argumentWords argv.length pointers).map some
  /-- every pointer points to a copy of its string, with the NUL -/
  strings : ∀ i (less : i < argv.length) (less' : i < pointers.length), ∀ k, k < argv[i].length + 1 →
    t.memory.userByte t.pgdir (pointers[i].toNat + k) = some (stringBytes argv[i] k)
  apart : (ranges argv pointers t.tf.sp).Pairwise fun a b => a.1 + a.2 ≤ b.1 ∨ b.1 + b.2 ≤ a.1
  /-- all of it lies in the two pages at the end of the address space -/
  inside : ∀ range ∈ ranges argv pointers t.tf.sp, t.sz.toNat ≤ range.1 + 8192 ∧ range.1 + range.2 ≤ t.sz.toNat

/-- `root` is the new page table and `m` is memory, when the segments have been loaded. -/
def Loaded (kernel : Kernel) (path : List UInt8) (s : State) (root : UInt64) (m : Memory) : Prop :=
  ∃ ip t eh sz u, (openExecutable path).run (handle kernel) s = some (some ip, t) ∧
    (loadImage ip).run (handle kernel) t = some (some (eh, root, sz), u) ∧ u.memory = m

/-- The two pages at the end of the address space were not there. -/
def FreshStack (m : Memory) (t : State) : Prop :=
  ∀ va, va < t.sz.toNat → (¬ Present (m.entry t.pgdir (va / 4096)) ↔ t.sz.toNat ≤ va + 8192)

section
variable {m : Memory} {root : UInt64} {va : Nat} {argv : List (List UInt8)} {top : UInt64} {M : Nat}

theorem userWord_of_bytes {b : Nat → UInt8} (bytes : ∀ k, k < 8 → m.userByte root (va + k) = some (b k)) :
    m.userWord root va = some (wordAt b 0) := by
  have all : (List.range 8).mapM (fun k => m.userByte root (va + k)) = some ((List.range 8).map b) := by
    have each : ∀ list : List Nat, (∀ k ∈ list, k < 8) →
        list.mapM (fun k => m.userByte root (va + k)) = some (list.map b) := by
      intro list
      induction list with
      | nil => exact fun _ => rfl
      | cons k rest ih =>
        intro small
        rw [List.mapM_cons, bytes k (small k List.mem_cons_self),
          ih fun j member => small j (List.mem_cons_of_mem k member)]
        rfl
    exact each _ fun k member => List.mem_range.mp member
  rw [Memory.userWord, all, Option.map_some]
  rfl

/-! ## Sizes -/

theorem argumentSizes_length (argv : List (List UInt8)) : (argumentSizes argv).length = argv.length + 1 := by
  rw [argumentSizes, List.length_append, stringSizes, List.length_map]
  rfl

theorem argumentSizes_string {i : Nat} (less : i < argv.length) :
    (argumentSizes argv)[i]? = some (argv[i].length + 1) := by
  rw [argumentSizes, stringSizes, List.getElem?_append_left (by rw [List.length_map]; exact less), List.getElem?_map,
    List.getElem?_eq_getElem less, Option.map_some]

theorem argumentSizes_vector (argv : List (List UInt8)) :
    (argumentSizes argv)[argv.length]? = some (vectorSize argv) := by
  have after : (stringSizes argv).length ≤ argv.length := (List.length_map _).le
  rw [argumentSizes, List.getElem?_append_right after, stringSizes, List.length_map, Nat.sub_self]
  rfl

theorem size_le_depth {sizes : List Nat} {i : Nat} (less : i < sizes.length) : sizes[i] ≤ depth 16 0 sizes := by
  have above := place_below (a := 16) (d := 0) (by decide) sizes less
  have within := place_le (a := 16) (d := 0) (by decide) sizes i
  omega

variable (fit : ArgumentsFit argv)
include fit

theorem strings_fit : depth 16 0 (stringSizes argv) ≤ 8192 := by
  have all := fit.1
  rw [argumentSizes, depth_append] at all
  exact (le_depth (by decide) _ _).trans all

theorem string_le {str : List UInt8} (member : str ∈ argv) : str.length + 1 ≤ 8192 := by
  obtain ⟨i, less, rfl⟩ := List.getElem_of_mem member
  have inside : i < (stringSizes argv).length := by
    rw [stringSizes, List.length_map]
    exact less
  have size := size_le_depth inside
  have all := strings_fit fit
  simp only [stringSizes, List.getElem_map] at size all
  omega

theorem wordSizes_eq {w : Nat} (wide : 8192 < w) : wordSizes w argv = stringSizes argv := by
  apply List.map_congr_left
  intro str member
  have small := string_le fit member
  exact Nat.mod_eq_of_lt (by omega)

theorem copyLength_string {str : List UInt8} (member : str ∈ argv) : copyLength str = str.length + 1 := by
  have small := string_le fit member
  rw [copyLength_eq]
  exact Nat.mod_eq_of_lt (by omega)

theorem pushedSizes_eq : pushedSizes argv = argumentSizes argv := by
  rw [pushedSizes, ← wordSizes_copyLength, wordSizes_eq fit (by decide)]
  rfl

/-! ## Places -/

def pointersOf (argv : List (List UInt8)) (top : UInt64) : List UInt64 :=
  (List.range argv.length).map fun i => vectorOf argv top (i + 1)

omit fit in
theorem pointersOf_length (argv : List (List UInt8)) (top : UInt64) : (pointersOf argv top).length = argv.length := by
  rw [pointersOf, List.length_map, List.length_range]

omit fit in
theorem vector_pointer (u : Nat → UInt64) {argc i : Nat} (less : i < argc) : vector u argc (i + 1) = u (i + 1) := by
  have later : ∀ k, i + 1 ≠ argc + (k + 1) := fun k => by omega
  simp only [vector, Function.update_apply, later 0, later 1, later 2, later 3, later 4, later 5, if_false,
    Nat.add_eq_zero_iff, one_ne_zero, and_false]

omit fit in
theorem vector_words (u : Nat → UInt64) (argc : Nat) : (List.range (argc + 7)).map (vector u argc) =
    argumentWords argc ((List.range argc).map fun i => vector u argc (i + 1)) := by
  have first : vector u argc 0 = UInt64.ofNat argc := by simp [vector]
  have last : (List.range 6).map (fun k => vector u argc (argc + 1 + k)) =
      [0, 0, AT_PAGESZ, PGSIZE, AT_NULL, 0] := by
    simp [vector, Function.update_apply, List.range_succ, Nat.add_assoc]
  rw [show argc + 7 = argc + 1 + 6 from rfl, List.range_add, List.map_append, List.map_map, List.range_succ_eq_map,
    List.map_cons, List.map_map, first, argumentWords, List.cons_append]
  congr 2

variable (isTop : top.toNat = 4096 * M) (small : 4096 * M < 2 ^ 31) (room : 8192 ≤ 4096 * M)
include isTop small room

theorem pointer_toNat {i : Nat} (less : i < argv.length) :
    (vectorOf argv top (i + 1)).toNat = 4096 * M - place 16 0 (argumentSizes argv) i := by
  have isSizes : wordSizes (2 ^ 64) argv = stringSizes argv := wordSizes_eq fit (by decide)
  have fits := strings_fit fit
  have pointer : ((pushed argv 0 top fun _ => 0).2.2 (0 + 1 + i)).toNat % 2 ^ 64 =
      4096 * M - place 16 0 (wordSizes (2 ^ 64) argv) i :=
    pushed_pointer (.inr rfl) (by omega) small 0 _ (by omega) (by rw [isSizes]; omega) less
  have isPointer : vectorOf argv top (i + 1) = (pushed argv 0 top fun _ => 0).2.2 (0 + 1 + i) := by
    rw [vectorOf, vector_pointer _ less, Nat.zero_add, Nat.add_comm 1 i]
  have isPlace := place_append_left (a := 16) (d := 0) (stringSizes argv) [vectorSize argv] (i := i)
    (by rw [stringSizes, List.length_map]; exact less)
  rw [← isPointer, isSizes, Nat.mod_eq_of_lt (UInt64.toNat_lt _)] at pointer
  rw [pointer, argumentSizes, isPlace]

theorem finalSp_toNat : (finalSp argv top).toNat = 4096 * M - place 16 0 (argumentSizes argv) argv.length := by
  have isSizes : wordSizes (2 ^ 64) argv = stringSizes argv := wordSizes_eq fit (by decide)
  have fits := strings_fit fit
  have all := fit.1
  have words := fit.2
  rw [MAXARG] at words
  rw [argumentSizes, depth_append, depth_cons, depth_nil] at all
  have sp : (pushed argv 0 top fun _ => 0).2.1.toNat % 2 ^ 64 =
      4096 * M - depth 16 0 (wordSizes (2 ^ 64) argv) :=
    pushed_sp (.inr rfl) (by omega) small 0 _ (by omega) (by rw [isSizes]; omega)
  have size : (UInt64.ofNat (argv.length + 7) * 8).toNat % 2 ^ 64 = vectorSize argv := by
    rw [UInt64.toNat_mul, UInt64.toNat_ofNat', vectorSize]
    change (_ % 2 ^ 64 * 8) % 2 ^ 64 % 2 ^ 64 = _
    omega
  have final := lower_depth (n := UInt64.ofNat (argv.length + 7) * 8) (.inr rfl) (by omega) small sp
    (by rw [isSizes, size]; omega)
  rw [isSizes, size, Nat.mod_eq_of_lt (UInt64.toNat_lt _)] at final
  have isPlace : place 16 0 (argumentSizes argv) argv.length =
      below 16 (depth 16 0 (stringSizes argv)) (vectorSize argv) := by
    rw [place, List.take_of_length_le (argumentSizes_length argv).le, argumentSizes, depth_append]
    rfl
  rw [finalSp, final, isPlace]

theorem starts_eq : (pointersOf argv top).map UInt64.toNat ++ [(finalSp argv top).toNat] =
    (List.range (argv.length + 1)).map fun i => 4096 * M - place 16 0 (argumentSizes argv) i := by
  rw [List.range_succ, List.map_append, List.map_singleton, finalSp_toNat fit isTop small room, pointersOf,
    List.map_map]
  congr 1
  apply List.map_congr_left
  intro i member
  exact pointer_toNat fit isTop small room (List.mem_range.mp member)

theorem ranges_length : (ranges argv (pointersOf argv top) (finalSp argv top)).length = argv.length + 1 := by
  rw [ranges, List.length_zip, starts_eq fit isTop small room, List.length_map, List.length_range,
    argumentSizes_length, Nat.min_self]

theorem ranges_getElem {i : Nat} (less : i < (ranges argv (pointersOf argv top) (finalSp argv top)).length)
    (less' : i < (argumentSizes argv).length) : (ranges argv (pointersOf argv top) (finalSp argv top))[i] =
      (4096 * M - place 16 0 (argumentSizes argv) i, (argumentSizes argv)[i]) := by
  simp only [ranges, List.getElem_zip, starts_eq fit isTop small room, List.getElem_map, List.getElem_range]

theorem ranges_apart : (ranges argv (pointersOf argv top) (finalSp argv top)).Pairwise
    fun a b => a.1 + a.2 ≤ b.1 ∨ b.1 + b.2 ≤ a.1 := by
  rw [List.pairwise_iff_getElem]
  intro i j lessI lessJ before
  have length := ranges_length fit isTop small room
  have inside : j < (argumentSizes argv).length := by
    rw [argumentSizes_length, ← length]
    exact lessJ
  have apart := place_apart (a := 16) (d := 0) (by decide) (argumentSizes argv) before inside
  have most := place_le (a := 16) (d := 0) (by decide) (argumentSizes argv) j
  have all := fit.1
  rw [ranges_getElem fit isTop small room lessI (before.trans inside),
    ranges_getElem fit isTop small room lessJ inside]
  dsimp only
  omega

theorem ranges_inside : ∀ range ∈ ranges argv (pointersOf argv top) (finalSp argv top),
    4096 * M ≤ range.1 + 8192 ∧ range.1 + range.2 ≤ 4096 * M := by
  intro range member
  obtain ⟨i, less, rfl⟩ := List.getElem_of_mem member
  have inside : i < (argumentSizes argv).length := by
    rw [argumentSizes_length, ← ranges_length fit isTop small room]
    exact less
  have most := place_le (a := 16) (d := 0) (by decide) (argumentSizes argv) i
  have size := place_below (a := 16) (d := 0) (by decide) (argumentSizes argv) inside
  have all := fit.1
  rw [ranges_getElem fit isTop small room less inside]
  dsimp only
  omega

/-! ## Contents -/

variable {t : State} {bytes bytes' : Nat → UInt8} (laid : Laid 16 (4096 * M) 0 (blocks argv top) bytes bytes')
include laid

omit isTop small room in
theorem laid_byte {i k : Nat} {block : Nat × (Nat → UInt8)} (isBlock : (blocks argv top)[i]? = some block)
    (byte : k < block.1) : bytes' (4096 * M - place 16 0 (argumentSizes argv) i + k) = block.2 k := by
  obtain ⟨less, rfl⟩ := List.getElem?_eq_some_iff.mp isBlock
  have inside := laid.inside i less k byte
  rw [map_blocks, pushedSizes_eq fit] at inside
  exact inside

omit isTop small room in
theorem laid_string {i k : Nat} (less : i < argv.length) (byte : k < argv[i].length + 1) :
    bytes' (4096 * M - place 16 0 (argumentSizes argv) i + k) = stringBytes argv[i] k := by
  have isBlock : (blocks argv top)[i]? = some (stringBlock argv[i]) := by
    rw [blocks, List.getElem?_append_left (by rw [List.length_map]; exact less), List.getElem?_map,
      List.getElem?_eq_getElem less, Option.map_some]
  have size : (stringBlock argv[i]).1 = argv[i].length + 1 := copyLength_string fit (List.getElem_mem less)
  rw [← size] at byte
  exact laid_byte fit laid isBlock byte

omit isTop small room in
theorem laid_vector {k : Nat} (byte : k < vectorSize argv) :
    bytes' (4096 * M - place 16 0 (argumentSizes argv) argv.length + k) = arrayBytes (vectorOf argv top) k := by
  have isBlock : (blocks argv top)[argv.length]? = some (vectorSize argv, arrayBytes (vectorOf argv top)) := by
    have after : (argv.map stringBlock).length ≤ argv.length := (List.length_map _).le
    rw [blocks, List.getElem?_append_right after, List.length_map, Nat.sub_self]
    rfl
  exact laid_byte fit laid isBlock byte

variable (reads : ∀ va, va < 4096 * M → t.memory.userByte t.pgdir va = some (bytes' va))
include reads

omit isTop small laid in
theorem block_byte {i n k : Nat} {value : UInt8} (isSize : (argumentSizes argv)[i]? = some n) (byte : k < n)
    (found : bytes' (4096 * M - place 16 0 (argumentSizes argv) i + k) = value) :
    t.memory.userByte t.pgdir (4096 * M - place 16 0 (argumentSizes argv) i + k) = some value := by
  obtain ⟨less, rfl⟩ := List.getElem?_eq_some_iff.mp isSize
  have size := place_below (a := 16) (d := 0) (by decide) (argumentSizes argv) less
  have most := place_le (a := 16) (d := 0) (by decide) (argumentSizes argv) i
  have all := fit.1
  rw [reads _ (by omega), found]

omit isTop small in
theorem vector_word {i : Nat} (less : i < argv.length + 7) :
    t.memory.userWord t.pgdir (4096 * M - place 16 0 (argumentSizes argv) argv.length + 8 * i) =
      some (vectorOf argv top i) := by
  have isWord : wordAt (byteOf (vectorOf argv top i)) 0 = vectorOf argv top i := by
    apply wordAt_byteOf
    intro k _
    rw [Nat.zero_add]
  rw [← isWord]
  apply userWord_of_bytes
  intro k small
  have byte : 8 * i + k < vectorSize argv := by
    rw [vectorSize]
    omega
  have found := laid_vector fit laid byte
  rw [arrayBytes, show (8 * i + k) / 8 = i by omega, show (8 * i + k) % 8 = k by omega] at found
  rw [Nat.add_assoc]
  exact block_byte fit room reads (argumentSizes_vector argv) byte found

theorem argumentBlock (isSp : t.tf.sp = finalSp argv top) (isSz : t.sz = top) :
    ArgumentBlock argv t (pointersOf argv top) := by
  have sp := finalSp_toNat fit isTop small room
  refine ⟨pointersOf_length argv top, ?_, ?_, ?_, ?_, ?_⟩
  · have aligned := place_mod (a := 16) (d := 0) rfl (argumentSizes argv) argv.length
    have most := place_le (a := 16) (d := 0) (by decide) (argumentSizes argv) argv.length
    have all := fit.1
    rw [isSp, sp]
    omega
  · rw [pointersOf, vectorOf, ← vector_words, List.map_map]
    apply List.map_congr_left
    intro i member
    rw [isSp, sp]
    exact vector_word fit room laid reads (List.mem_range.mp member)
  · intro i less less' k byte
    have isPointer : (pointersOf argv top)[i] = vectorOf argv top (i + 1) := by
      simp only [pointersOf, List.getElem_map, List.getElem_range]
    rw [isPointer, pointer_toNat fit isTop small room less]
    exact block_byte fit room reads (argumentSizes_string less) byte (laid_string fit laid less byte)
  · rw [isSp]
    exact ranges_apart fit isTop small room
  · rw [isSp, isSz, isTop]
    exact ranges_inside fit isTop small room

end

/-! ## The call -/

-- The tables of an old address space are not pages that were taken since.
theorem not_within_of_taken {kend old z : UInt64} {m m' : Memory} {free : List UInt64}
    (tree : Tree kend old m free) (above : P2V 0 < kend) (untouched : Untouched (free ++ [0]) m m')
    (taken : z ∈ free ++ [0]) : ¬ Within m'.child 4 old z := by
  have table : ∀ x, Within m.child 4 old x → x ∉ free ++ [0] ∧ x ≠ P2V 0 := by
    intro x inside
    have least := (tree.tables.page x inside).2
    have high : P2V 0 < x := UInt64.lt_of_lt_of_le above least
    constructor
    · intro member
      cases List.mem_append.mp member with
      | inl isFree => exact tree.tables.unused x inside isFree
      | inr isNull =>
        rw [List.mem_singleton.mp isNull] at high
        exact absurd high (by decide)
    · intro isLow
      rw [isLow] at high
      exact UInt64.lt_irrefl _ high
  have same : Within m'.child 4 old z ↔ Within m.child 4 old z := within_congr fun x inside i =>
    child_congr (congrFun (untouched x (table x inside).1 (table x inside).2) i)
  intro inside
  exact (table z (same.mp inside)).1 taken

section
variable {kernel : Kernel} {path : List UInt8} {argv : List (List UInt8)} {s t : State} {free : List UInt64}

theorem commit_outcome {eh : Ehdr} {pgdir sp : UInt64} {top : Int32} {argc : Nat}
    (ran : (commit path eh pgdir top argc sp).run (handle kernel) s = some ((), t)) :
    vmFree kernel.kend s.pgdir s.memory = some t.memory ∧ t.pgdir = pgdir ∧ t.sz = extend top ∧ t.tf.sp = sp := by
  have proc := commit_proc ran
  rw [run_commit] at ran
  obtain ⟨memory, freed, result⟩ := Option.map_eq_some_iff.mp ran
  cases result
  refine ⟨?_, ?_, ?_, rfl⟩
  · have isOld : wordAt (putBytes (putBytes s.proc nameOffset (stringBytes path) path.length) szOffset
        (byteOf (extend top)) 8) pgdirOffset = s.pgdir := by
      apply wordAt_congr
      intro i less
      rw [putBytes_outside (by rw [pgdirOffset, szOffset]; omega),
        putBytes_outside (by rw [pgdirOffset, nameOffset]; omega)]
    rw [← isOld]
    exact freed
  · apply wordAt_byteOf
    intro i less
    rw [proc, putBytes_inside i less]
  · apply wordAt_byteOf
    intro i less
    rw [proc, putBytes_outside (by rw [pgdirOffset, szOffset]; omega), putBytes_inside i less]

/-- A process that has been started finds its arguments. -/
theorem execve_arguments {r : Int} (tree : Tree kernel.kend s.pgdir s.memory free) (above : P2V 0 < kernel.kend)
    (fit : ArgumentsFit argv) (ran : (execve path argv).run (handle kernel) s = some (r, t)) (success : r ≠ -1) :
    ∃ loaded pointers, Loaded kernel path s t.pgdir loaded ∧ FreshStack loaded t ∧ ArgumentBlock argv t pointers := by
  have heap := tree.heap
  have low : P2V 0 ∉ free := fun isFree => UInt64.not_lt.mpr (tree.above _ isFree) above
  cases execve_outcome ran with
  | notFound | notLoaded | noStack => exact absurd rfl success
  | @done ip a b c d e _ eh root sp sz top argc opened loaded closed stack pushed committed =>
    have found := (files_run (files_openExecutable path) opened).2
    have put := (files_run (files_close ip) closed).2
    have heap' : Free a.memory free := found ▸ heap
    obtain ⟨_, changed, extent, bytes, fits⟩ := loadImage_fits heap' low loaded
    rw [found] at changed
    rw [← put] at changed fits
    obtain ⟨enlarged, _⟩ := allocStack_run fits stack
    obtain ⟨bytes', taken, pages, grown, isTop⟩ := grown_of_allocStack fits (low_start low) stack
    have small := grown.top_lt
    have fits' : depth 16 0 (pushedSizes argv) ≤ 4096 * (extent.pages + 2) := by
      rw [pushedSizes_eq fit]
      exact fit.1.trans (by omega)
    obtain ⟨m', bytes'', pushed', changed', grown', laid⟩ := grown.pushArguments_run kernel isTop fits' fit.2
    cases pushed.symm.trans pushed'
    obtain ⟨freed, isRoot, isSz, isSp⟩ := commit_outcome committed
    -- the process has its old table until then
    have same := (files_run (files_openExecutable path) opened).1.trans
      ((loads_run loads_loadImage loaded).trans ((files_run (files_close ip) closed).1.trans
        ((pushes_run pushes_allocStack stack).1.trans (pushes_run pushes_pushArguments pushed).1)))
    have isOld : State.pgdir { d with memory := m' } = s.pgdir := congrArg (wordAt · pgdirOffset) same.proc
    rw [isOld] at freed
    have untouched : Untouched (free ++ [0]) s.memory m' := changed.trans (enlarged.outside.trans changed')
    have start : Drained a.memory := fun held => absurd held (by simp [heap'.unlocked])
    have image : Drained b.memory := drained_run ip (loads_loadImage.mono fun _ => .inl) start loaded
    rw [← put] at image
    have stacked : Drained d.memory := drained_run ip (pushes_allocStack.mono fun _ => .inr) image stack
    have drained : Drained m' := drained_run ip (pushes_pushArguments.mono fun _ => .inr) stacked pushed
    have kept : ∀ z, z ∈ taken → t.memory.word z = m'.word z := by
      intro z isTaken
      obtain ⟨page, isImage, _⟩ := grown'.holds
      apply vmFree_kept (isImage.supply.list_absent drained) freed
      apply not_within_of_taken tree above untouched
      rw [isImage.split]
      exact List.mem_append_left pages isTaken
    have reads : ∀ va, va < 4096 * (extent.pages + 2) → t.memory.userByte t.pgdir va = some (bytes'' va) := by
      intro va inside
      rw [isRoot]
      exact grown'.holds.userByte_kept kept inside
    refine ⟨b.memory, _, ⟨ip, a, eh, sz, b, opened, isRoot ▸ loaded, rfl⟩, ?_,
      argumentBlock fit isTop small (by omega) laid reads isSp isSz⟩
    intro va inside
    rw [isSz, isTop] at inside ⊢
    rw [isRoot, ← put, grown'.present]
    omega

end

theorem idle_tree : Tree plainKernel.kend idleProcess.pgdir idleProcess.memory tenAddresses := by
  have isRoot : idleProcess.pgdir = P2V 0x200000 := wordAt_putWord _ _ _
  have above : (tenAddresses.all fun a => plainKernel.kend ≤ a) = true := by decide +kernel
  rw [isRoot]
  apply Tree.of_zero idle_free ?_ ?_ (by decide +kernel) (by decide +kernel)
  · intro a member
    simpa using List.all_eq_true.mp above a member
  · intro i
    change (if P2V 0x200000 = P2V 0x200000 then (0 : UInt64) else tenPages.word (P2V 0x200000) i) = 0
    exact if_pos rfl

def twoArguments : List (List UInt8) := [[97, 98], []]

theorem execve_arguments_two : ∃ t loaded pointers,
    (execve [slash] twoArguments).run (handle plainKernel) idleProcess = some (2, t) ∧
      Loaded plainKernel [slash] idleProcess t.pgdir loaded ∧ FreshStack loaded t ∧
      ArgumentBlock twoArguments t pointers := by
  have runs : ((execve [slash] twoArguments).run (handle plainKernel) idleProcess).any fun out => out.1 = 2 := by
    decide +kernel
  obtain ⟨⟨r, t⟩, ran, isTwo⟩ := (Option.any_eq_true _ _).mp runs
  obtain rfl : r = 2 := of_decide_eq_true isTwo
  obtain ⟨loaded, pointers, block⟩ := execve_arguments idle_tree (by decide) (by decide) ran (by decide)
  exact ⟨t, loaded, pointers, ran, block⟩

end Exec

end Xv6
