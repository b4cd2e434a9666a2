import Xv6.Syscall.Arguments
import Mathlib.Algebra.Ring.Int.Defs
import Mathlib.Algebra.BigOperators.Group.List.Basic
import Mathlib.Data.List.TakeWhile

/-! `sys_writev` of `kern/sysfile.c`.

The array of vectors is checked with its size cut off to an `int`; the ranges of the vectors
are not checked, and whatever `filewrite` returns is added to the total. The theorem says
for which arguments, memory and replies of `filewrite` the call does what it should.
-/

set_option autoImplicit false

namespace Xv6.Syscall

open Library

/-- A caller with the words of its memory, which system calls read where they are. -/
structure Writer (F : Type) extends Caller F where
  word : UInt64 → UInt64

structure Iovec where
  iov_base : UInt64
  iov_len : UInt64

-- `sizeof(struct iovec)`
def iovecSize : UInt64 := 16

section
variable {F S : Type}

def Writer.iovec (proc : Writer F) (p : UInt64) : Iovec := ⟨proc.word p, proc.word (p + 8)⟩

def vectorTurns : Nat := 2 ^ 60

-- The loop of `sys_writev` from vector `p` to `last`.
def writevFrom (proc : Writer F) (f : F) (last : UInt64) : Nat → UInt64 → UInt64 → Program (FileCalls F) UInt64
  | 0, _, tot => pure tot
  | turns + 1, p, tot =>
    if p < last then do
      let v := proc.iovec p
      let wtn ← Program.request (I := FileCalls F) (.filewrite f v.iov_base v.iov_len.toInt64)
      writevFrom proc f last turns (p + iovecSize) (tot + wtn.toUInt64)
    else pure tot

def sysWritev (proc : Writer F) : Program (FileCalls F) Int64 :=
  match argfd proc.toCaller 0 with
  | none => pure (-1)
  | some f =>
    let iovcnt := argint proc.toCaller 2
    match argptr proc.toCaller 1 (iovcnt * iovecSize).toUInt32.toInt32 with
    | none => pure (-1)
    | some iov => do
      let tot ← writevFrom proc f (iov + iovcnt * iovecSize) vectorTurns iov 0
      return tot.toInt64

/-! ## The vectors -/

def Writer.vectors (proc : Writer F) (p last : UInt64) : List Iovec :=
  (List.range ((last.toNat - p.toNat) / 16)).map fun k => proc.iovec (p + UInt64.ofNat (16 * k))

-- The file and the vectors that `sys_writev` takes, when it does not refuse its arguments.
def vectorArguments (proc : Writer F) : Option (F × List Iovec) := do
  let f ← argfd proc.toCaller 0
  let iovcnt := argint proc.toCaller 2
  let iov ← argptr proc.toCaller 1 (iovcnt * iovecSize).toUInt32.toInt32
  some (f, proc.vectors iov (iov + iovcnt * iovecSize))

-- `tot += filewrite(f, p->iov_base, p->iov_len)`, for every vector of a list
def writeAll (f : F) (list : List Iovec) (tot : UInt64) : Program (FileCalls F) UInt64 :=
  list.foldlM (fun tot v => do
    let wtn ← Program.request (I := FileCalls F) (.filewrite f v.iov_base v.iov_len.toInt64)
    return tot + wtn.toUInt64) tot

theorem vectors_cons (proc : Writer F) {p last : UInt64} (whole : 16 ∣ (last - p).toNat) (more : p < last) :
    proc.vectors p last = proc.iovec p :: proc.vectors (p + iovecSize) last ∧ 16 ∣ (last - (p + iovecSize)).toNat ∧
      (last.toNat - (p + iovecSize).toNat) / 16 + 1 = (last.toNat - p.toNat) / 16 := by
  have less := UInt64.lt_iff_toNat_lt.mp more
  have bound := last.toNat_lt
  have distance : (last - p).toNat = last.toNat - p.toNat := UInt64.toNat_sub_of_le _ _ (UInt64.le_of_lt more)
  rw [distance] at whole
  have next : (p + iovecSize).toNat = p.toNat + 16 := by
    rw [UInt64.toNat_add]
    simp only [iovecSize, UInt64.reduceToNat]
    omega
  have within : p + iovecSize ≤ last := by
    rw [UInt64.le_iff_toNat_le, next]
    omega
  have count : (last.toNat - (p + iovecSize).toNat) / 16 + 1 = (last.toNat - p.toNat) / 16 := by
    rw [next]
    omega
  refine ⟨?_, ?_, count⟩
  · rw [Writer.vectors, Writer.vectors, ← count, List.range_succ_eq_map, List.map_cons, List.map_map]
    congr 1
    · simp
    · refine List.map_congr_left fun k _ => ?_
      have place : p + UInt64.ofNat (16 * (k + 1)) = p + iovecSize + UInt64.ofNat (16 * k) := by
        rw [Nat.mul_succ, Nat.add_comm, UInt64.ofNat_add, UInt64.add_assoc]
        rfl
      simp only [Function.comp_apply, place]
  · rw [UInt64.toNat_sub_of_le _ _ within, next]
    omega

theorem writevFrom_eq (proc : Writer F) (f : F) (last : UInt64) (turns : Nat) (p tot : UInt64)
    (whole : 16 ∣ (last - p).toNat) (enough : (last.toNat - p.toNat) / 16 ≤ turns) :
    writevFrom proc f last turns p tot = writeAll f (proc.vectors p last) tot := by
  induction turns generalizing p tot with
  | zero =>
    have none : (last.toNat - p.toNat) / 16 = 0 := Nat.le_zero.mp enough
    simp [writevFrom, writeAll, Writer.vectors, none]
  | succ turns ih =>
    by_cases more : p < last
    · obtain ⟨split, rest, count⟩ := vectors_cons proc whole more
      rw [writevFrom, if_pos more, split, writeAll, List.foldlM_cons, bind_assoc]
      simp only [pure_bind]
      congr 1
      funext wtn
      exact ih (p + iovecSize) (tot + wtn.toUInt64) rest (by omega)
    · have none : last.toNat - p.toNat = 0 := by
        rw [UInt64.lt_iff_toNat_lt] at more
        omega
      simp [writevFrom, more, writeAll, Writer.vectors, none]

theorem sysWritev_eq (proc : Writer F) : sysWritev proc = match vectorArguments proc with
    | none => pure (-1)
    | some (f, list) => do
      let tot ← writeAll f list 0
      return tot.toInt64 := by
  cases file : argfd proc.toCaller 0 with
  | none => simp [sysWritev, vectorArguments, file]
  | some f =>
    cases pointer : argptr proc.toCaller 1 (argint proc.toCaller 2 * iovecSize).toUInt32.toInt32 with
    | none => simp only [sysWritev, vectorArguments, file, pointer, Option.bind_eq_bind, Option.bind_some,
        Option.bind_none]
    | some iov =>
      have whole : 16 ∣ (iov + argint proc.toCaller 2 * iovecSize - iov).toNat := by
        have size : iov + argint proc.toCaller 2 * iovecSize - iov = argint proc.toCaller 2 * iovecSize := by
          rw [UInt64.add_comm, UInt64.add_sub_cancel]
        rw [size, UInt64.toNat_mul]
        simp only [iovecSize, UInt64.reduceToNat]
        omega
      have bound := (iov + argint proc.toCaller 2 * iovecSize).toNat_lt
      simp only [sysWritev, vectorArguments, file, pointer, Option.bind_eq_bind, Option.bind_some]
      rw [writevFrom_eq proc f _ vectorTurns iov 0 whole (by rw [vectorTurns]; omega)]

/-! ## The replies of `filewrite` -/

variable {handler : (r : (FileCalls F).Request) → S → Option ((FileCalls F).Reply r × S)}

-- What the calls of `filewrite` for a list of vectors return, up to one that does not return.
def replies (handler : (r : (FileCalls F).Request) → S → Option ((FileCalls F).Reply r × S)) (f : F) :
    List Iovec → S → List Int64
  | [], _ => []
  | v :: rest, s =>
    match handler (.filewrite f v.iov_base v.iov_len.toInt64) s with
    | none => []
    | some (wtn, t) => wtn :: replies handler f rest t

def total (list : List Int64) : Int := (list.map Int64.toInt).sum

theorem along_writeAll (ok : FileRequest F → Prop) (f : F) (list : List Iovec) (tot : UInt64) (s : S) :
    (writeAll f list tot).Along handler (fun call _ => ok call) s ↔
      ∀ v ∈ list.take ((replies handler f list s).length + 1), ok (.filewrite f v.iov_base v.iov_len.toInt64) := by
  induction list generalizing tot s with
  | nil => simp [writeAll]
  | cons v rest ih =>
    rw [writeAll, List.foldlM_cons, bind_assoc, Program.along_bind, Program.along_request, replies]
    have asked := @Program.run_request _ _ handler (.filewrite f v.iov_base v.iov_len.toInt64) s
    cases answered : handler (.filewrite f v.iov_base v.iov_len.toInt64) s with
    | none =>
      rw [answered] at asked
      simp [asked]
    | some out =>
      obtain ⟨wtn, t⟩ := out
      rw [answered] at asked
      simp only [asked, pure_bind, List.length_cons, List.take_succ_cons, List.forall_mem_cons]
      refine and_congr_right fun _ => ⟨fun later => (ih (tot + wtn.toUInt64) t).mp (later wtn t rfl), ?_⟩
      intro later _ _ isReply
      cases isReply
      exact (ih (tot + wtn.toUInt64) t).mpr later

theorem run_writeAll {f : F} {list : List Iovec} {tot r : UInt64} {s t : S}
    (ran : (writeAll f list tot).run handler s = some (r, t)) :
    (replies handler f list s).length = list.length ∧
      r.toInt64 = tot.toInt64 + Int64.ofInt (total (replies handler f list s)) := by
  induction list generalizing tot s with
  | nil =>
    simp only [writeAll, List.foldlM_nil, Program.run_pure, Option.some.injEq, Prod.mk.injEq] at ran
    obtain ⟨rfl, rfl⟩ := ran
    simp [replies, total]
  | cons v rest ih =>
    rw [writeAll, List.foldlM_cons, bind_assoc, Program.run_bind_eq_some] at ran
    obtain ⟨wtn, u, answered, later⟩ := ran
    rw [Program.run_request] at answered
    rw [pure_bind] at later
    obtain ⟨length, sum⟩ := ih later
    rw [replies, answered]
    refine ⟨congrArg Nat.succ length, sum.trans ?_⟩
    have added : (tot + wtn.toUInt64).toInt64 = tot.toInt64 + wtn := rfl
    rw [added, total, total, List.map_cons, List.sum_cons, Int64.ofInt_add, Int64.ofInt_toInt, Int64.add_assoc]

theorem runs_writeAll {f : F} {list : List Iovec} (tot : UInt64) {s : S}
    (all : (replies handler f list s).length = list.length) :
    ∃ r t, (writeAll f list tot).run handler s = some (r, t) := by
  induction list generalizing tot s with
  | nil => exact ⟨tot, s, rfl⟩
  | cons v rest ih =>
    rw [writeAll, List.foldlM_cons, bind_assoc, Program.run_bind, Program.run_request]
    rw [replies] at all
    cases answered : handler (.filewrite f v.iov_base v.iov_len.toInt64) s with
    | none => simp [answered] at all
    | some out =>
      rw [answered] at all
      simp only [pure_bind, Option.bind_some]
      exact ih _ (Nat.succ.inj all)

/-! ## When the call is right -/

/-- What is returned after the calls of `filewrite`: their total or, when one of them has failed, an
error or, if nothing is written later, the total of those before it. -/
def Reports (list : List Int64) (r : Int64) : Prop :=
  match list.dropWhile fun x => decide (0 ≤ x) with
  | [] => r.toInt = total list
  | _ :: later => r = -1 ∨ (later = [] ∧ r.toInt = total (list.takeWhile fun x => decide (0 ≤ x)))

def Writer.ArrayInside (proc : Writer F) : Prop := (proc.r 1).toNat + 16 * (proc.r 2).toNat ≤ proc.sz.toNat

instance (proc : Writer F) : Decidable proc.ArrayInside :=
  inferInstanceAs (Decidable ((proc.r 1).toNat + 16 * (proc.r 2).toNat ≤ proc.sz.toNat))

/-- A call of `sys_writev` is a validated sequential write. -/
structure Validated (handler : (r : (FileCalls F).Request) → S → Option ((FileCalls F).Reply r × S)) (proc : Writer F)
    (s : S) : Prop where
  calls : (sysWritev proc).Along handler (fun call _ => call.Inside proc.sz ∧ proc.ArrayInside) s
  returns : ∀ r t, (sysWritev proc).run handler s = some (r, t) →
    match vectorArguments proc with
    | none => r = -1
    | some (f, list) => Reports (replies handler f list s) r

/-- The size of the array survives its way through the `int` parameter and the addition does not
wrap. A size that is cut off may still happen to fit. -/
def ArrayChecked (proc : Writer F) : Prop :=
  ((proc.r 2).toNat < 2 ^ 27 ∧ (proc.r 1).toNat + 16 * (proc.r 2).toNat < 2 ^ 64) ∨
    (2 ^ 27 ≤ (proc.r 2).toNat ∧ 16 * (proc.r 2).toNat ≤ proc.sz.toNat - (proc.r 1).toNat)

-- No call of `filewrite` fails and the total does not wrap, or the replies add up to an error.
def AddsUp (list : List Int64) : Prop :=
  if list.all fun x => decide (0 ≤ x) then total list < 2 ^ 63 else (2 : Int) ^ 64 ∣ total list + 1

instance (list : List Int64) : Decidable (AddsUp list) :=
  inferInstanceAs (Decidable (if list.all fun x => decide (0 ≤ x) then _ < _ else _ ∣ _))

/-- The condition on the arguments, the memory and the replies of `filewrite`. -/
def VectorsChecked (handler : (r : (FileCalls F).Request) → S → Option ((FileCalls F).Reply r × S)) (proc : Writer F)
    (s : S) : Prop :=
  ∀ f list, vectorArguments proc = some (f, list) →
    (list = [] ∨ ArrayChecked proc) ∧
    (∀ v ∈ list.take ((replies handler f list s).length + 1), v.iov_base.toNat + v.iov_len.toNat ≤ proc.sz.toNat) ∧
    ((replies handler f list s).length = list.length → AddsUp (replies handler f list s))

theorem arrayInside_iff {proc : Writer F} {f : F} {list : List Iovec}
    (accepted : vectorArguments proc = some (f, list)) : proc.ArrayInside ↔ ArrayChecked proc := by
  obtain ⟨_, _, rest⟩ := Option.bind_eq_some_iff.mp accepted
  obtain ⟨iov, pointer, _⟩ := Option.bind_eq_some_iff.mp rest
  obtain ⟨rfl, below, inside⟩ := argptr_eq_some.mp pointer
  have sz := proc.sz.toNat_lt
  rw [UInt64.lt_iff_toNat_lt] at below
  rw [UInt64.le_iff_toNat_le, UInt64.toNat_add, signExtended_toNat] at inside
  have product : (argint proc.toCaller 2 * iovecSize).toNat % 2 ^ 32 = 16 * (proc.r 2).toNat % 2 ^ 32 := by
    rw [UInt64.toNat_mul, argint]
    simp only [iovecSize, UInt64.reduceToNat]
    omega
  rw [product] at inside
  rw [Writer.ArrayInside, ArrayChecked]
  by_cases small : (proc.r 2).toNat < 2 ^ 27
  · -- the extension is the size itself, and only a wrap can hide an overrun
    rw [Nat.mod_eq_of_lt (show 16 * (proc.r 2).toNat < 2 ^ 32 by omega), if_pos (by omega)] at inside
    omega
  · omega

theorem total_append (first second : List Int64) : total (first ++ second) = total first + total second := by
  simp [total]

theorem total_nonneg {list : List Int64} (all : ∀ x ∈ list, 0 ≤ x) : 0 ≤ total list := by
  induction list with
  | nil => exact Int.le_refl 0
  | cons x rest ih =>
    obtain ⟨first, others⟩ := List.forall_mem_cons.mp all
    have start : 0 ≤ x.toInt := by simpa [Int64.le_iff_toInt_le] using first
    have later := ih others
    rw [total] at later ⊢
    rw [List.map_cons, List.sum_cons]
    omega

/-- The total comes out as a wrapped sum, into which the failures have gone as well. -/
theorem reports_total_iff (list : List Int64) : Reports list (Int64.ofInt (total list)) ↔ AddsUp list := by
  have value : (Int64.ofInt (total list)).toInt = (total list).bmod (2 ^ 64) := Int64.toInt_ofInt
  have wrapped : (total list).bmod (2 ^ 64) =
      if total list % 2 ^ 64 < 2 ^ 63 then total list % 2 ^ 64 else total list % 2 ^ 64 - 2 ^ 64 := Int.bmod_def ..
  have error : Int64.ofInt (total list) = -1 ↔ (Int64.ofInt (total list)).toInt = -1 := Int64.toInt_inj.symm
  have parts : total (list.takeWhile fun x => decide (0 ≤ x)) + total (list.dropWhile fun x => decide (0 ≤ x)) =
      total list := by
    rw [← total_append, List.takeWhile_append_dropWhile]
  rw [Reports, AddsUp]
  cases failed : list.dropWhile fun x => decide (0 ≤ x) with
  | nil =>
    have all := List.dropWhile_eq_nil_iff.mp failed
    have start := total_nonneg fun x member => of_decide_eq_true (all x member)
    rw [if_pos (List.all_eq_true.mpr all)]
    simp only [value, wrapped]
    split <;> omega
  | cons x later =>
    have negative : x.toInt < 0 := by
      have first := List.head_dropWhile_not (fun x => decide (0 ≤ x)) (failed ▸ List.cons_ne_nil x later)
      simp only [failed, List.head_cons, decide_eq_false_iff_not, Int64.not_le] at first
      exact Int64.lt_iff_toInt_lt.mp first
    have notAll : ¬ (list.all fun x => decide (0 ≤ x)) = true := by
      intro all
      rw [List.dropWhile_eq_nil_iff.mpr (List.all_eq_true.mp all)] at failed
      cases failed
    -- a failure that nothing follows still changes the total
    have changes : ¬ (later = [] ∧
        (Int64.ofInt (total list)).toInt = total (list.takeWhile fun x => decide (0 ≤ x))) := by
      rintro ⟨rfl, same⟩
      have least := x.le_toInt
      have last : total [x] = x.toInt := by simp [total]
      rw [failed, last] at parts
      rw [value, wrapped] at same
      split at same <;> omega
    have right : (Int64.ofInt (total list) = -1 ∨
        (later = [] ∧ (Int64.ofInt (total list)).toInt = total (list.takeWhile fun x => decide (0 ≤ x)))) ↔
        (2 : Int) ^ 64 ∣ total list + 1 := by
      rw [or_iff_left changes, error, value, wrapped]
      split <;> omega
    rw [if_neg notAll]
    exact right

/-- A call is a validated sequential write exactly when `VectorsChecked` holds. -/
theorem sysWritev_validated_iff (proc : Writer F) (s : S) :
    Validated handler proc s ↔ VectorsChecked handler proc s := by
  cases arguments : vectorArguments proc with
  | none =>
    refine iff_of_true ⟨?_, fun r t ran => ?_⟩ fun f list accepted => by simp [arguments] at accepted
    · rw [sysWritev_eq, arguments]
      exact Program.along_pure _ _ s
    · rw [sysWritev_eq, arguments] at ran
      simp only [Program.run_pure, Option.some.injEq, Prod.mk.injEq] at ran
      simp [arguments, ← ran.1]
  | some accepted =>
    obtain ⟨f, list⟩ := accepted
    have isLoop : sysWritev proc = writeAll f list 0 >>= fun tot => pure tot.toInt64 := by
      rw [sysWritev_eq, arguments]
    have calls : (sysWritev proc).Along handler (fun call _ => call.Inside proc.sz ∧ proc.ArrayInside) s ↔
        ∀ v ∈ list.take ((replies handler f list s).length + 1),
          v.iov_base.toNat + v.iov_len.toNat ≤ proc.sz.toNat ∧ proc.ArrayInside := by
      rw [isLoop, Program.along_bind]
      simp only [Program.along_pure, implies_true, and_true]
      exact along_writeAll (fun call => call.Inside proc.sz ∧ proc.ArrayInside) f list 0 s
    have returns : (∀ r t, (sysWritev proc).run handler s = some (r, t) → Reports (replies handler f list s) r) ↔
        ((replies handler f list s).length = list.length → AddsUp (replies handler f list s)) := by
      rw [isLoop, ← reports_total_iff]
      constructor
      · intro always all
        obtain ⟨tot, t, ran⟩ := runs_writeAll 0 all
        have sum := (run_writeAll ran).2
        rw [show (0 : UInt64).toInt64 = 0 from rfl, Int64.zero_add] at sum
        rw [← sum]
        exact always tot.toInt64 t (Program.run_bind_eq_some.mpr ⟨tot, t, ran, rfl⟩)
      · intro whole r t ran
        obtain ⟨tot, u, wrote, rest⟩ := Program.run_bind_eq_some.mp ran
        obtain ⟨all, sum⟩ := run_writeAll wrote
        rw [show (0 : UInt64).toInt64 = 0 from rfl, Int64.zero_add] at sum
        cases rest
        rw [sum]
        exact whole all
    have empty : list.take ((replies handler f list s).length + 1) = [] ↔ list = [] := by simp
    constructor
    · rintro ⟨safe, right⟩ f' list' same
      cases arguments.symm.trans same
      rw [arguments] at right
      rw [calls] at safe
      refine ⟨?_, fun v member => (safe v member).1, returns.mp right⟩
      refine or_iff_not_imp_left.mpr fun some => ?_
      obtain ⟨v, member⟩ := List.exists_mem_of_ne_nil _ (mt empty.mp some)
      exact (arrayInside_iff arguments).mp (safe v member).2
    · intro checked
      obtain ⟨array, inside, right⟩ := checked f list arguments
      refine ⟨calls.mpr fun v member => ⟨inside v member, ?_⟩, ?_⟩
      · refine (arrayInside_iff arguments).mpr (array.resolve_left ?_)
        rintro rfl
        simp at member
      · rw [arguments]
        exact returns.mpr right

def twoVectors : Writer Unit where
  sz := 4096
  ofile _ := some ()
  r n := if n = 2 then 2 else 0
  word _ := 8

-- The calls of `file.c` answer what a list says.
def answers (r : (FileCalls F).Request) : List Int64 → Option ((FileCalls F).Reply r × List Int64)
  | [] => none
  | wtn :: rest => some (wtn, rest)

theorem sysWritev_validated_iff_twoVectors :
    Validated answers twoVectors [8, 8] ∧ ¬ Validated answers twoVectors [-1, 1] := by
  have arguments : vectorArguments twoVectors = some ((), [⟨8, 8⟩, ⟨8, 8⟩]) := rfl
  constructor
  · refine (sysWritev_validated_iff twoVectors [8, 8]).mpr fun f list same => ?_
    cases arguments.symm.trans same
    exact ⟨.inr (.inl (by decide)), by decide, by decide⟩
  · intro right
    have added := ((sysWritev_validated_iff twoVectors [-1, 1]).mp right () _ arguments).2.2 rfl
    exact absurd added (by decide)

def straying : Writer Unit where
  sz := 4096
  ofile _ := some ()
  r n := if n = 2 then 1 else 0
  word a := if a = 0 then 4096 else 8

theorem vector_outside : ¬ ∀ proc : Writer Unit, Validated answered proc () := by
  intro always
  have outside : ¬ (sysWritev straying).Along answered
      (fun call _ => call.Inside straying.sz ∧ straying.ArrayInside) () := by decide +kernel
  exact outside (always straying).calls

end

end Xv6.Syscall
