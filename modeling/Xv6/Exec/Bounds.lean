import Xv6.Exec.Failing
import Xv6.Exec.Pushing

/-! The bounds of the arguments of `exec`.

There are three arrays to run over: `argv` of `sys_exec`, `ustack` of `execve` and the two pages of
the stack. No index and no address is compared with the end of any of them.
-/

set_option autoImplicit false

namespace Xv6.Exec

open Library Vm Layout

/-! ## The stack -/

def FitsStack (argv : List (List UInt8)) : Prop :=
  depth 16 0 (pushedSizes argv) ≤ 8192 ∧ argv.length + 7 ≤ MAXARG

instance (argv : List (List UInt8)) : Decidable (FitsStack argv) := inferInstanceAs (Decidable (_ ∧ _))

/-- `execve` gets as far as pushing the arguments. -/
def Stacks (kernel : Kernel) (path : List UInt8) (s : State) : Prop :=
  ∃ ip t eh root sz u v top w, (openExecutable path).run (handle kernel) s = some (some ip, t) ∧
    (loadImage ip).run (handle kernel) t = some (some (eh, root, sz), u) ∧
    (close ip).run (handle kernel) u = some ((), v) ∧
    (allocStack root sz).run (handle kernel) v = some (some top, w)

def StackBounded (kernel : Kernel) (path : List UInt8) (argv : List (List UInt8)) (s : State) : Prop :=
  ∀ ip t eh root sz u v, (openExecutable path).run (handle kernel) s = some (some ip, t) →
    (loadImage ip).run (handle kernel) t = some (some (eh, root, sz), u) →
    (close ip).run (handle kernel) u = some ((), v) →
    (enter path argv eh root sz).Along (handle kernel) (InStack v.memory root) v

section
variable {kernel : Kernel} {path : List UInt8} {argv : List (List UInt8)} {s t v w : State}
  {free start : List UInt64} {root : UInt64} {bytes : Nat → UInt8} {e : Extent} {sz : Int32}

theorem inStack_of_issues {A : Type} {ok : Exec.Request → Prop} {p : Program Exec A} {before : Memory}
    (issues : p.Issues ok) (copies : ∀ dst src n, ¬ ok (.memcpy dst src n)) (stores : ∀ i, ¬ ok (.ustack i))
    (s : State) : p.Along (handle kernel) (InStack before root) s := by
  apply issues.along
  intro r s isOk
  cases r with
  | memcpy dst src n => exact absurd isOk (copies dst src n)
  | ustack i => exact absurd isOk (stores i)
  | _ => trivial

-- Requests of `uvm_alloc`.
def Allocates : Exec.Request → Prop
  | .uvmAlloc .. => True
  | _ => False

theorem inStack_commit (eh : Ehdr) (pgdir : UInt64) (top : Int32) (argc : Nat) (sp : UInt64) (before : Memory)
    (s : State) : (commit path eh pgdir top argc sp).Along (handle kernel) (InStack before root) s :=
  inStack_of_issues (replaces_commit path eh pgdir top argc sp) (fun _ _ _ => id) (fun _ => id) s

theorem grown_of_allocStack (fits : Fits start root bytes e sz v.memory) (low : P2V 0 ∉ start) {top : Int32}
    (ran : (allocStack root sz).run (handle kernel) v = some (some top, w)) :
    ∃ bytes' taken pages, Grown v.memory root e.pages start (e.pages + 2) bytes' w.memory taken pages ∧
      (extend top).toNat = 4096 * (e.pages + 2) := by
  obtain ⟨_, outcome⟩ := allocStack_run fits ran
  obtain ⟨_, size, isSize, fits'⟩ := outcome top rfl
  obtain ⟨taken₀, pages₀, old, _⟩ := fits.built
  obtain ⟨taken, pages, holds, _⟩ := fits'.built
  refine ⟨_, taken, pages, ⟨holds, low, old.present_iff, by omega⟩, ?_⟩
  rw [fits'.size]
  exact isSize

theorem enter_along (fits : Fits start root bytes e sz v.memory) (low : P2V 0 ∉ start) (eh : Ehdr) :
    (enter path argv eh root sz).Along (handle kernel) (InStack v.memory root) v ↔
      ∀ top w, (allocStack root sz).run (handle kernel) v = some (some top, w) → FitsStack argv := by
  have allocates : (allocStack root sz).Issues Allocates := issues_allocTo (fun _ _ _ => trivial) _ _
  rw [enter, Program.along_bind,
    and_iff_right (inStack_of_issues allocates (fun _ _ _ => id) (fun _ => id) v)]
  have pages : e.pages + 2 - e.pages = 2 := Nat.add_sub_cancel_left ..
  constructor
  · intro all top w ran
    obtain ⟨bytes', taken, pages', grown, isTop⟩ := grown_of_allocStack fits low ran
    have along := (Program.along_bind.mp (all (some top) w ran)).1
    rw [grown.pushArguments_along kernel isTop, pages] at along
    exact along
  · intro all top w ran
    cases top with
    | none => trivial
    | some top =>
      obtain ⟨bytes', taken, pages', grown, isTop⟩ := grown_of_allocStack fits low ran
      have along : (pushArguments root argv top).Along (handle kernel) (InStack v.memory root) w ↔ _ :=
        grown.pushArguments_along kernel isTop
      rw [pages] at along
      refine Program.along_bind.mpr ⟨along.mpr (all top w ran), fun out x _ => ?_⟩
      cases out with
      | none => trivial
      | some out =>
        obtain ⟨argc, sp⟩ := out
        exact Program.along_bind.mpr ⟨inStack_commit eh root top argc sp v.memory x, fun _ _ _ => trivial⟩

theorem stackBounded_iff (heap : Free s.memory free) (low : P2V 0 ∉ free) :
    StackBounded kernel path argv s ↔ (Stacks kernel path s → FitsStack argv) := by
  have each : ∀ {ip t eh root sz u v}, (openExecutable path).run (handle kernel) s = some (some ip, t) →
      (loadImage ip).run (handle kernel) t = some (some (eh, root, sz), u) →
      (close ip).run (handle kernel) u = some ((), v) →
      ((enter path argv eh root sz).Along (handle kernel) (InStack v.memory root) v ↔
        ∀ top w, (allocStack root sz).run (handle kernel) v = some (some top, w) → FitsStack argv) := by
    intro ip t eh root sz u v opened loaded closed
    have found := (files_run (files_openExecutable path) opened).2
    rw [← found] at heap
    obtain ⟨_, _, e, bytes, fits⟩ := loadImage_fits heap low loaded
    have memory := (files_run (files_close ip) closed).2
    rw [← memory] at fits
    exact enter_along fits (low_start low) eh
  constructor
  · rintro bounded ⟨ip, t, eh, root, sz, u, v, top, w, opened, loaded, closed, allocated⟩
    exact (each opened loaded closed).mp (bounded ip t eh root sz u v opened loaded closed) top w allocated
  · intro fits ip t eh root sz u v opened loaded closed
    apply (each opened loaded closed).mpr
    intro top w allocated
    exact fits ⟨ip, t, eh, root, sz, u, v, top, w, opened, loaded, closed, allocated⟩

theorem not_stacks_of_failed (failed : (execve path argv).run (handle kernel) s = some (-1, t)) :
    ¬ Stacks kernel path s := by
  rintro ⟨ip, a, eh, root, sz, b, c, top, d, opened, loaded, closed, allocated⟩
  obtain ⟨r, isFailure⟩ : ∃ r : Int, r = -1 := ⟨-1, rfl⟩
  rw [← isFailure] at failed
  cases execve_outcome failed with
  | notFound absent => cases absent.symm.trans opened
  | notLoaded opened' unloaded =>
    cases opened.symm.trans opened'
    cases loaded.symm.trans unloaded
  | noStack opened' loaded' closed' unallocated =>
    cases opened.symm.trans opened'
    cases loaded.symm.trans loaded'
    cases closed.symm.trans closed'
    cases allocated.symm.trans unallocated
  | done => omega

end

/-! ## The vector of `sys_exec` -/

/-- What the loop over the vector finds: no word, or a pointer out of the caller's memory; the end; a string. -/
inductive Entry where
  | absent
  | ended
  | unterminated
  | string (str : List UInt8)
  deriving DecidableEq

section
variable (user : UInt64 → UInt8) (sz uargv : UInt64)

def entryOf (i : Nat) : Entry :=
  match fetchint user sz (uargv + 8 * UInt64.ofNat i) with
  | none => .absent
  | some uarg =>
    if uarg = 0 then .ended
    else if uarg ≥ sz then .absent
    else
      match terminated user sz uarg with
      | none => .unterminated
      | some str => .string str

def OverrunsFrom (i : Nat) : Prop :=
  (∀ j, i ≤ j → j < MAXPATH → ∃ str, entryOf user sz uargv j = .string str) ∧
    entryOf user sz uargv MAXPATH ≠ .absent

structure VectorFrom (i : Nat) (argv : List (List UInt8)) : Prop where
  strings : ∀ j (inside : j < argv.length), entryOf user sz uargv (i + j) = .string argv[j]
  ends : entryOf user sz uargv (i + argv.length) = .ended

def InArgv (r : Exec.Request) (_ : State) : Prop :=
  match r with
  | .argv i => i < MAXPATH
  | _ => True

end

section
variable {kernel : Kernel} {user : UInt64 → UInt8} {sz uargv : UInt64} {s t : State} {i turns : Nat}
  {argv : List (List UInt8)} {str : List UInt8}

theorem VectorFrom.cons (first : entryOf user sz uargv i = .string str)
    (vector : VectorFrom user sz uargv (i + 1) argv) : VectorFrom user sz uargv i (str :: argv) where
  strings := by
    intro j inside
    cases j with
    | zero => exact first
    | succ j =>
      rw [← Nat.add_assoc, Nat.add_right_comm]
      exact vector.strings j (Nat.lt_of_succ_lt_succ inside)
  ends := by
    rw [List.length_cons, ← Nat.add_assoc, Nat.add_right_comm]
    exact vector.ends

theorem VectorFrom.tail (vector : VectorFrom user sz uargv i (str :: argv)) :
    VectorFrom user sz uargv (i + 1) argv where
  strings := by
    intro j inside
    rw [Nat.add_right_comm, Nat.add_assoc]
    exact vector.strings (j + 1) (Nat.succ_lt_succ inside)
  ends := by
    rw [Nat.add_right_comm, Nat.add_assoc]
    exact vector.ends

theorem overrunsFrom_cons (inside : i < MAXPATH) :
    OverrunsFrom user sz uargv i ↔
      (∃ str, entryOf user sz uargv i = .string str) ∧ OverrunsFrom user sz uargv (i + 1) := by
  constructor
  · intro overruns
    exact ⟨overruns.1 i (Nat.le_refl i) inside, fun j after => overruns.1 j (by omega), overruns.2⟩
  · intro overruns
    refine ⟨fun j later bound => ?_, overruns.2.2⟩
    by_cases isFirst : j = i
    · rw [isFirst]
      exact overruns.1
    · exact overruns.2.1 j (by omega) bound

theorem overrunsFrom_end : OverrunsFrom user sz uargv MAXPATH ↔ entryOf user sz uargv MAXPATH ≠ .absent :=
  and_iff_right fun _ later bound => absurd bound (Nat.not_lt.mpr later)

theorem fetchArgs_turn (small : i < 2 ^ 32) :
    fetchArgs user sz uargv (turns + 1) (UInt32.ofNat i) =
      match entryOf user sz uargv i with
      | .absent => pure none
      | .ended => Program.request (I := Exec) (.argv i) >>= fun _ => pure (some [])
      | .unterminated => Program.request (I := Exec) (.argv i) >>= fun _ => pure none
      | .string str => Program.request (I := Exec) (.argv i) >>= fun _ =>
        fetchArgs user sz uargv turns (UInt32.ofNat (i + 1)) >>= fun rest => pure (rest.map (str :: ·)) := by
  have index : (UInt32.ofNat i).toNat = i := by
    rw [UInt32.toNat_ofNat']
    exact Nat.mod_eq_of_lt small
  have wide : (UInt32.ofNat i).toUInt64 = UInt64.ofNat i := by
    apply UInt64.toNat_inj.mp
    rw [UInt32.toNat_toUInt64, index, UInt64.toNat_ofNat']
    omega
  have next : UInt32.ofNat i + 1 = UInt32.ofNat (i + 1) := by
    rw [UInt32.ofNat_add]
    rfl
  rw [fetchArgs, wide, next, entryOf]
  cases fetchint user sz (uargv + 8 * UInt64.ofNat i) with
  | none => rfl
  | some uarg =>
    dsimp only
    rw [storeArgv, index, fetchstr]
    by_cases isZero : uarg = 0
    · rw [if_pos isZero, if_pos isZero]
    · rw [if_neg isZero, if_neg isZero]
      by_cases outside : uarg ≥ sz
      · rw [if_pos outside, if_pos outside]
        rfl
      · rw [if_neg outside, if_neg outside, bind_assoc]
        simp only [pure_bind]
        cases terminated user sz uarg with
        | none => rfl
        | some str =>
          dsimp only
          congr 1
          funext _
          congr 1
          funext rest
          cases rest with
          | none => rfl
          | some rest => rfl

theorem answered_argv (inside : i < MAXPATH) (s : State) : handle kernel (.argv i) s = some ((), s) :=
  if_pos inside

-- The loop from an index on stays in `argv` unless it finds strings only.
theorem fetchArgs_along (isIndex : i + turns = MAXPATH) :
    (fetchArgs user sz uargv (turns + 1) (UInt32.ofNat i)).Along (handle kernel) InArgv s ↔
      ¬ OverrunsFrom user sz uargv i := by
  have bound : MAXPATH = 128 := rfl
  induction turns generalizing i with
  | zero =>
    -- every assignment of this turn is past the end
    obtain rfl : i = MAXPATH := isIndex
    have past : ¬ InArgv (.argv MAXPATH) s := Nat.lt_irrefl MAXPATH
    rw [overrunsFrom_end, fetchArgs_turn (by decide)]
    cases entryOf user sz uargv MAXPATH with
    | absent => exact iff_of_true trivial (not_not.mpr rfl)
    | ended => exact iff_of_false (fun along => past along.1) (not_not.mpr nofun)
    | unterminated => exact iff_of_false (fun along => past along.1) (not_not.mpr nofun)
    | string str => exact iff_of_false (fun along => past along.1) (not_not.mpr nofun)
  | succ turns ih =>
    have inside : i < MAXPATH := by omega
    have stored : InArgv (.argv i) s := inside
    rw [overrunsFrom_cons inside, fetchArgs_turn (by omega)]
    cases entry : entryOf user sz uargv i with
    | absent => exact iff_of_true trivial fun overruns => nomatch overruns.1
    | ended => exact iff_of_true ⟨stored, fun _ _ _ => trivial⟩ fun overruns => nomatch overruns.1
    | unterminated => exact iff_of_true ⟨stored, fun _ _ _ => trivial⟩ fun overruns => nomatch overruns.1
    | string str =>
      have rest := ih (i := i + 1) (by omega)
      dsimp only
      rw [Program.along_then (answered_argv inside s), and_iff_right stored, and_iff_right ⟨str, rfl⟩,
        Program.along_bind]
      exact (and_iff_left fun _ _ _ => trivial).trans rest

theorem fetchArgs_some (isIndex : i + turns = MAXPATH)
    (ran : (fetchArgs user sz uargv (turns + 1) (UInt32.ofNat i)).run (handle kernel) s = some (some argv, t)) :
    t = s ∧ VectorFrom user sz uargv i argv := by
  have bound : MAXPATH = 128 := rfl
  induction turns generalizing i argv with
  | zero =>
    obtain rfl : i = MAXPATH := isIndex
    have unanswered : handle kernel (.argv MAXPATH) s = none := rfl
    rw [fetchArgs_turn (by decide)] at ran
    cases entry : entryOf user sz uargv MAXPATH with
    | absent =>
      rw [entry] at ran
      cases ran
    | _ =>
      rw [entry] at ran
      dsimp only at ran
      rw [Program.run_bind, Program.run_request, unanswered] at ran
      cases ran
  | succ turns ih =>
    have inside : i < MAXPATH := by omega
    rw [fetchArgs_turn (by omega)] at ran
    cases entry : entryOf user sz uargv i with
    | absent =>
      rw [entry] at ran
      cases ran
    | ended =>
      rw [entry] at ran
      dsimp only at ran
      rw [run_then s (answered_argv inside s)] at ran
      cases ran
      exact ⟨rfl, nofun, entry⟩
    | unterminated =>
      rw [entry] at ran
      dsimp only at ran
      rw [run_then s (answered_argv inside s)] at ran
      cases ran
    | string str =>
      rw [entry] at ran
      dsimp only at ran
      rw [run_then s (answered_argv inside s)] at ran
      obtain ⟨rest, u, ranRest, returned⟩ := Program.run_bind_eq_some.mp ran
      cases rest with
      | none => cases returned
      | some rest =>
        cases returned
        obtain ⟨same, vector⟩ := ih (by omega) ranRest
        exact ⟨same, vector.cons entry⟩

theorem fetchArgs_run (isIndex : i + turns = MAXPATH) (vector : VectorFrom user sz uargv i argv)
    (ends : i + argv.length < MAXPATH) (s : State) :
    (fetchArgs user sz uargv (turns + 1) (UInt32.ofNat i)).run (handle kernel) s = some (some argv, s) := by
  have bound : MAXPATH = 128 := rfl
  induction argv generalizing i turns with
  | nil =>
    rw [fetchArgs_turn (by omega), show entryOf user sz uargv i = .ended from vector.ends]
    exact run_then s (answered_argv ends s) _
  | cons str rest ih =>
    rw [List.length_cons] at ends
    obtain ⟨turns, rfl⟩ : ∃ left, turns = left + 1 := ⟨turns - 1, by omega⟩
    have first : entryOf user sz uargv i = .string str := vector.strings 0 (Nat.succ_pos _)
    rw [fetchArgs_turn (by omega), first]
    refine (run_then s (answered_argv (by omega) s) _).trans ?_
    exact Program.run_bind_eq_some.mpr ⟨some rest, s, ih (by omega) vector.tail (by omega), rfl⟩

/-! ## The whole call -/

def OutsideArgv : Exec.Request → Prop
  | .argv _ => False
  | _ => True

theorem inArgv_of_outside (r : Exec.Request) (s : State) (outside : OutsideArgv r) : InArgv r s := by
  cases r <;> trivial

theorem execve_outsideArgv (path : List UInt8) (argv : List (List UInt8)) : (execve path argv).Issues OutsideArgv := by
  have files : ∀ r, Files r → OutsideArgv r := fun r isFiles => by cases r <;> trivial
  have loads : ∀ ip r, Loads ip r → OutsideArgv r := fun ip r isLoad => by cases r <;> trivial
  have pushes : ∀ r, Pushes r → OutsideArgv r := fun r isPush => by cases r <;> trivial
  have replaces : ∀ r, Replaces r → OutsideArgv r := fun r isReplace => by cases r <;> trivial
  apply ((files_openExecutable path).mono files).bind
  intro found
  cases found with
  | none => exact Program.issues_pure
  | some ip =>
    apply (loads_loadImage.mono (loads ip)).bind
    intro image
    cases image with
    | none => exact Program.issues_pure
    | some image =>
      obtain ⟨eh, pgdir, sz⟩ := image
      apply ((files_fs _).mono files).bind
      intro _
      apply (files_endOp.mono files).bind
      intro _
      apply (pushes_allocStack.mono pushes).bind
      intro top
      cases top with
      | none => exact Program.issues_pure
      | some top =>
        apply (pushes_pushArguments.mono pushes).bind
        intro out
        cases out with
        | none => exact Program.issues_pure
        | some out => exact ((replaces_commit path eh pgdir top out.1 out.2).mono replaces).bind fun _ => Program.issues_pure

def pathOf (user : UInt64 → UInt8) (s : State) : Option (List UInt8) :=
  if s.tf.r0 ≥ s.sz then none else terminated user s.sz s.tf.r0

-- `sys_exec` returns -1.
def Fails (kernel : Kernel) (user : UInt64 → UInt8) (s : State) : Prop :=
  ∃ t, (sysExec user).run (handle kernel) s = some (-1, t)

/-- Every store to `argv` stays in it; so do the copies to the stack and the stores to `ustack`, when
`execve` is called. -/
def Bounded (kernel : Kernel) (user : UInt64 → UInt8) (s : State) : Prop :=
  (sysExec user).Along (handle kernel) InArgv s ∧
    ∀ path argv t, pathOf user s = some path →
      (fetchArgs user s.sz s.tf.r1 (MAXPATH + 1) 0).run (handle kernel) s = some (some argv, t) →
      StackBounded kernel path argv t

def VectorFits (kernel : Kernel) (user : UInt64 → UInt8) (s : State) : Prop :=
  ∀ path, pathOf user s = some path →
    ¬ OverrunsFrom user s.sz s.tf.r1 0 ∧
      ∀ argv, VectorFrom user s.sz s.tf.r1 0 argv → Stacks kernel path s → FitsStack argv

-- `sys_exec` after its path has been fetched.
def withPath (user : UInt64 → UInt8) (sz uargv : UInt64) : Option (List UInt8) → Program Exec Int
  | none => return -1
  | some path => do
    match ← fetchArgs user sz uargv (MAXPATH + 1) 0 with
    | none => return -1
    | some argv => execve path argv

theorem fetchstr_path (user : UInt64 → UInt8) (s : State) :
    fetchstr user s.sz s.tf.r0 (pure ()) = pure (pathOf user s) := by
  rw [fetchstr, pathOf]
  by_cases outside : s.tf.r0 ≥ s.sz
  · rw [if_pos outside, if_pos outside]
  · rw [if_neg outside, if_neg outside]
    rfl

theorem sysExec_run (user : UInt64 → UInt8) (s : State) :
    (sysExec user).run (handle kernel) s = (withPath user s.sz s.tf.r1 (pathOf user s)).run (handle kernel) s := by
  have rest : (sysExec user).run (handle kernel) s =
      (fetchstr user s.sz s.tf.r0 (pure ()) >>= withPath user s.sz s.tf.r1).run (handle kernel) s :=
    (run_then s rfl _).trans (run_then s rfl _)
  rw [rest, fetchstr_path, pure_bind]

theorem sysExec_along :
    (sysExec user).Along (handle kernel) InArgv s ↔
      ∀ path, pathOf user s = some path → ¬ OverrunsFrom user s.sz s.tf.r1 0 := by
  have rest : (sysExec user).Along (handle kernel) InArgv s ↔
      (fetchstr user s.sz s.tf.r0 (pure ()) >>= withPath user s.sz s.tf.r1).Along (handle kernel) InArgv s := by
    refine (Program.along_then (s := s) rfl _).trans (Iff.trans (and_iff_right trivial) ?_)
    exact (Program.along_then (s := s) rfl _).trans (and_iff_right trivial)
  rw [rest, fetchstr_path, pure_bind]
  cases pathOf user s with
  | none => exact iff_of_true trivial nofun
  | some path =>
    have loop : (fetchArgs user s.sz s.tf.r1 (MAXPATH + 1) 0).Along (handle kernel) InArgv s ↔
        ¬ OverrunsFrom user s.sz s.tf.r1 0 := fetchArgs_along (Nat.zero_add MAXPATH)
    rw [withPath, Program.along_bind, loop]
    constructor
    · intro all _ _
      exact all.1
    · intro ends
      refine ⟨ends path rfl, fun argv t _ => ?_⟩
      cases argv with
      | none => trivial
      | some argv => exact (execve_outsideArgv path argv).along inArgv_of_outside t

theorem fetched (ends : ¬ OverrunsFrom user sz uargv 0) (vector : VectorFrom user sz uargv 0 argv) (s : State) :
    (fetchArgs user sz uargv (MAXPATH + 1) 0).run (handle kernel) s = some (some argv, s) := by
  have short : argv.length < MAXPATH := by
    -- otherwise its first words are strings, and so is the next one unless it ends the vector
    by_contra long
    apply ends
    constructor
    · intro j _ bound
      have inside : j < argv.length := by omega
      have isString := vector.strings j inside
      rw [Nat.zero_add] at isString
      exact ⟨argv[j], isString⟩
    · by_cases isLast : argv.length = MAXPATH
      · have isEnd := vector.ends
        rw [Nat.zero_add, isLast] at isEnd
        rw [isEnd]
        nofun
      · have isString := vector.strings MAXPATH (by omega)
        rw [Nat.zero_add] at isString
        rw [isString]
        nofun
  exact fetchArgs_run (Nat.zero_add MAXPATH) vector (by omega) s

variable {free : List UInt64}

theorem bounded_iff (heap : Free s.memory free) (low : P2V 0 ∉ free) :
    Bounded kernel user s ↔ VectorFits kernel user s := by
  constructor
  · intro bounded path isPath
    have ends := sysExec_along.mp bounded.1 path isPath
    refine ⟨ends, fun argv vector => ?_⟩
    exact (stackBounded_iff heap low).mp (bounded.2 path argv s isPath (fetched ends vector s))
  · intro fits
    refine ⟨sysExec_along.mpr fun path isPath => (fits path isPath).1, fun path argv t isPath ran => ?_⟩
    obtain ⟨rfl, vector⟩ := fetchArgs_some (Nat.zero_add MAXPATH) ran
    exact (stackBounded_iff heap low).mpr ((fits path isPath).2 argv vector)

theorem vectorFits_of_fails (fails : Fails kernel user s) : VectorFits kernel user s := by
  obtain ⟨t, ran⟩ := fails
  have along : (sysExec user).Along (handle kernel) InArgv s := by
    apply Program.along_of_run ?_ ran
    intro r u reply v answered
    cases r with
    | argv i =>
      by_contra outside
      cases (if_neg outside : handle kernel (.argv i) u = none).symm.trans answered
    | _ => trivial
  intro path isPath
  have ends := sysExec_along.mp along path isPath
  refine ⟨ends, fun argv vector reaches => ?_⟩
  rw [sysExec_run, isPath, withPath] at ran
  obtain ⟨found, u, ranArgs, ran⟩ := Program.run_bind_eq_some.mp ran
  cases (fetched ends vector s).symm.trans ranArgs
  exact absurd reaches (not_stacks_of_failed ran)

/-- `exec` fails or stays within the bounds if and only if the vector ends in time and what `execve` pushes fits. -/
theorem sysExec_bounded_iff (heap : Free s.memory free) (low : P2V 0 ∉ free) :
    Fails kernel user s ∨ Bounded kernel user s ↔ VectorFits kernel user s := by
  rw [bounded_iff heap low]
  constructor
  · intro either
    exact either.elim vectorFits_of_fails id
  · intro fits
    exact .inr fits

end

def callerWith (r0 r1 : UInt64) : State :=
  { idleProcess with proc := putWord idleProcess.proc szOffset 0x800, tf := ⟨0, 0, r0, r1⟩ }

def plainMemory (a : UInt64) : UInt8 := if a = 0 then slash else 0

theorem sysExec_bounded_iff_plain :
    Fails plainKernel plainMemory (callerWith 0 8) ∨ Bounded plainKernel plainMemory (callerWith 0 8) := by
  apply (sysExec_bounded_iff (s := callerWith 0 8) idle_free low_free).mpr
  intro path isPath
  have ended : entryOf plainMemory 0x800 8 0 = .ended := by decide +kernel
  constructor
  · intro overruns
    obtain ⟨str, isString⟩ := overruns.1 0 le_rfl (by decide)
    exact nomatch ended.symm.trans isString
  · intro argv vector _
    cases argv with
    | nil => decide
    | cons str rest => exact nomatch ended.symm.trans (vector.strings 0 (Nat.succ_pos _))

def fullMemory (a : UInt64) : UInt8 := if a % 8 = 0 then 1 else 0

/-- The word after the first 128 ones is stored after the end of `argv`. -/
theorem vector_overruns : ¬ ∀ (kernel : Kernel) (user : UInt64 → UInt8) (s : State) (free : List UInt64),
    Free s.memory free → P2V 0 ∉ free → Fails kernel user s ∨ Bounded kernel user s := by
  intro always
  have fits : VectorFits plainKernel fullMemory (callerWith 1 0) := by
    cases always plainKernel fullMemory (callerWith 1 0) tenAddresses idle_free low_free with
    | inl fails => exact vectorFits_of_fails fails
    | inr bounded => exact (bounded_iff (s := callerWith 1 0) idle_free low_free).mp bounded
  have strings : ∀ j, j < MAXPATH + 1 → entryOf fullMemory 0x800 0 j = .string [] := by decide +kernel
  have isPath : pathOf fullMemory (callerWith 1 0) = some [] := by decide +kernel
  apply (fits [] isPath).1
  constructor
  · intro j _ bound
    exact ⟨[], strings j (Nat.lt_succ_of_lt bound)⟩
  · intro isAbsent
    exact nomatch (strings MAXPATH (Nat.lt_succ_self _)).symm.trans isAbsent

end Xv6.Exec
