import Xv6.Exec.Confinement
import Xv6.Exec.Stack
import Xv6.Fs.Balance
import Xv6.Fs.Recording
import Xv6.Vm.Leaking

/-! What a failed `execve` leaves.

Only the failure of `namei` is followed by `end_op`. Between `ilock` and the end of the loop over the
program headers a failure returns with the inode locked and the operation open. After that it
returns without the new page table, which nobody frees.
-/

set_option autoImplicit false

namespace Xv6.Exec

open Library Vm Fs

/-- What `namei` finds in the operation that `execve` begins. -/
def Looks (kernel : Kernel) (path : List UInt8) (s : State) (found : Option (Fin ninode)) : Prop :=
  ∃ log m, Calls.State.beginOp s.machine.log = some log ∧
    (Inodes.namei (kernel.inodeAt (wordAt s.proc cwdOffset)) path).run (Machine.handle kernel.sb kernel.devsw)
      { s.machine with log } = some (found, m)

def GivenBack (free : List UInt64) (m : Memory) : Prop :=
  ∃ list, Linked m.word m.free_list list ∧ 0 ∉ list ∧ ∀ page ∈ free, page ∈ list

/-- What a call that fails should leave of the process, of the inode that it has opened, of the log
and of the pages that were free. -/
structure Restored (kernel : Kernel) (path : List UInt8) (free : List UInt64) (s t : State) : Prop where
  pgdir : t.pgdir = s.pgdir
  table : ∀ va, t.memory.lookup s.pgdir va = s.memory.lookup s.pgdir va
  sz : t.sz = s.sz
  tf : t.tf = s.tf
  name : ∀ k, k < 16 → t.proc (nameOffset + k) = s.proc (nameOffset + k)
  unlocked : ∀ ip, Looks kernel path s (some ip) → (t.machine.icache ip).locked = false
  ref : ∀ ip, Looks kernel path s (some ip) → (t.machine.icache ip).ref = (s.machine.icache ip).ref
  outstanding : t.machine.log.outstanding = s.machine.log.outstanding
  pages : GivenBack free t.memory

section
variable {kernel : Kernel} {path : List UInt8} {argv : List (List UInt8)} {s t u : State} {ip : Fin ninode}
  {free start : List UInt64} {root : UInt64} {M : Nat} {bytes : Nat → UInt8}

/-! ## The executable -/

theorem Looks.unique {found other : Option (Fin ninode)} (looks : Looks kernel path s found)
    (again : Looks kernel path s other) : found = other := by
  obtain ⟨log, m, begun, ran⟩ := looks
  obtain ⟨log', m', begun', ran'⟩ := again
  cases begun.symm.trans begun'
  cases ran.symm.trans ran'
  rfl

theorem endOp_outstanding (ended : endOp.run (handle kernel) s = some ((), t)) :
    t.machine.log.outstanding = s.machine.log.outstanding - 1 := by
  obtain ⟨cmt, u, first, rest⟩ := Program.run_bind_eq_some.mp ended
  rw [Program.run_request] at first
  cases first
  have kept := Calls.State.endSection_outstanding s.machine.log
  cases isLast : (Calls.State.endSection s.machine.log).1 with
  | false =>
    rw [isLast] at rest
    cases rest
    exact kept
  | true =>
    rw [isLast] at rest
    obtain ⟨_, v, commits, last⟩ := Program.run_bind_eq_some.mp rest
    rw [Program.run_request] at commits last
    obtain ⟨⟨log, store⟩, ran, same⟩ := Option.map_eq_some_iff.mp commits
    cases same
    cases last
    have same := ((commit_records _).returned ran).outstanding
    exact same.trans kept

/-- Where `namei` finds nothing the operation has ended, otherwise the inode has been locked. -/
theorem openExecutable_run {found : Option (Fin ninode)}
    (ran : (openExecutable path).run (handle kernel) s = some (found, t)) : Looks kernel path s found ∧
      (found = none → t.machine.log.outstanding = s.machine.log.outstanding) ∧
      ∀ ip, found = some ip → (t.machine.icache ip).locked = true := by
  obtain ⟨_, v, begun, ran⟩ := Program.run_bind_eq_some.mp ran
  rw [beginOp, Program.run_request] at begun
  obtain ⟨log, opened, same⟩ := Option.map_eq_some_iff.mp begun
  cases same
  obtain ⟨dir, w, isCwd, ran⟩ := Program.run_bind_eq_some.mp ran
  rw [Program.run_request] at isCwd
  cases isCwd
  obtain ⟨found', x, named, ran⟩ := Program.run_bind_eq_some.mp ran
  rw [run_fs] at named
  obtain ⟨⟨found'', m⟩, finds, same⟩ := Option.map_eq_some_iff.mp named
  cases same
  have looks : Looks kernel path s found'' := ⟨log, m, opened, finds⟩
  have records := (run_records finds).outstanding
  cases found'' with
  | none =>
    obtain ⟨_, y, ended, last⟩ := Program.run_bind_eq_some.mp ran
    cases last
    refine ⟨looks, fun _ => ?_, fun ip isSome => absurd isSome (by simp)⟩
    have left := endOp_outstanding ended
    have one := Calls.State.beginOp_outstanding opened
    change _ = m.log.outstanding - 1 at left
    change m.log.outstanding = log.outstanding at records
    omega
  | some ip =>
    obtain ⟨_, y, locked, last⟩ := Program.run_bind_eq_some.mp ran
    cases last
    refine ⟨looks, fun isNone => absurd isNone (by simp), fun ip' isSome => ?_⟩
    cases isSome
    rw [run_fs] at locked
    obtain ⟨⟨_, m'⟩, locks, same⟩ := Option.map_eq_some_iff.mp locked
    cases same
    have held := congrFun (Inodes.ilock_locks locks).2.2 ip
    rw [Function.update_self] at held
    exact held

theorem loads_locks {r : Exec.Request} {reply : Exec.Reply r} (isLoad : Loads ip r)
    (answered : handle kernel r s = some (reply, t)) : locks t.machine = locks s.machine := by
  have reads : ∀ {i dst off n out m}, Machine.handle kernel.sb kernel.devsw (.readi i dst off n) s.machine =
      some (out, m) → locks m = locks s.machine := by
    intro i dst off n out m answered
    have still : Inodes.Still kernel.sb kernel.devsw (Inodes.readi i dst off n) := Inodes.still_readi i dst off n
    exact (still s.machine out m ((Program.run_request (I := Inodes) _ _).trans answered)).locks
  cases r with
  | inodes r =>
    obtain ⟨⟨out, m⟩, read, same⟩ := Option.map_eq_some_iff.mp answered
    cases same
    cases r with
    | readi i dst off n => exact reads read
    | _ => exact absurd isLoad id
  | readi i dst off n =>
    obtain ⟨⟨out, m⟩, read, same⟩ := Option.map_eq_some_iff.mp answered
    cases same
    exact reads read
  | kalloc | uvmAlloc | pgdirIwalk =>
    obtain ⟨_, _, result⟩ := Option.map_eq_some_iff.mp answered
    cases result
    rfl
  | memset =>
    cases answered
    rfl
  | panic => cases answered
  | _ => exact absurd isLoad id

theorem loadImage_locks {image : Option (Ehdr × UInt64 × Int32)}
    (ran : (loadImage ip).run (handle kernel) s = some (image, t)) : locks t.machine = locks s.machine := by
  apply Program.Issues.invariant loads_loadImage (fun u => locks u.machine = locks s.machine) ?_ rfl ran
  intro r u reply v isLoad before answered
  exact (loads_locks isLoad answered).trans before

/-! ## The new page table -/

theorem piece_built (built : Built start root M bytes s.memory) (low : P2V 0 ∉ start) {va o off n pa dst : UInt64}
    {r : Int} (inside : o.toNat + n.toNat ≤ 4096)
    (found : (pgdirIwalk root va).run (handle kernel) s = some (pa, u)) (isPlace : dst = P2V (pa + o))
    (ran : (readi ip dst off n).run (handle kernel) u = some (r, t)) :
    Untouched start s.memory t.memory ∧ ∃ bytes', Built start root M bytes' t.memory := by
  rw [pgdirIwalk, Program.run_request] at found
  obtain ⟨pa', walked, same⟩ := Option.map_eq_some_iff.mp found
  cases same
  rw [readi, Program.run_request] at ran
  obtain ⟨⟨⟨r', b⟩, m⟩, _, same⟩ := Option.map_eq_some_iff.mp ran
  cases same
  obtain ⟨taken, pages, holds, count⟩ := built
  obtain ⟨pa', walked', untouched, mapped, missing⟩ := holds.copy low va inside b
  cases walked.symm.trans walked'
  rw [UInt64.ofNat_toNat, ← isPlace] at untouched mapped missing
  refine ⟨untouched, ?_⟩
  by_cases less : va.toNat / 4096 % 2 ^ 36 < M
  · exact ⟨_, taken, pages, (mapped less).1, count⟩
  · exact ⟨bytes, taken, pages, (missing less).1, count⟩

theorem loadPages_built {va : UInt64} {off sz : UInt32} {whole : Bool} (low : P2V 0 ∉ start) (turns : Nat)
    {i : UInt32} (built : Built start root M bytes s.memory)
    (ran : (loadPages root va ip off sz turns i).run (handle kernel) s = some (whole, t)) :
    Untouched start s.memory t.memory ∧ ∃ bytes', Built start root M bytes' t.memory := by
  induction turns generalizing i bytes s with
  | zero => cases ran
  | succ turns ih =>
    rw [loadPages] at ran
    split at ran
    · obtain ⟨pa, u, found, ran⟩ := Program.run_bind_eq_some.mp ran
      obtain ⟨r, v, read, ran⟩ := Program.run_bind_eq_some.mp ran
      have inside : (0 : UInt64).toNat + (pageLength (sz - i)).toUInt64.toNat ≤ 4096 := by
        rw [UInt32.toNat_toUInt64, pageLength_toNat]
        change 0 + _ ≤ _
        omega
      obtain ⟨untouched, bytes', built'⟩ := piece_built built low inside found (by rw [UInt64.add_zero]) read
      split at ran
      · cases ran
        exact ⟨untouched, bytes', built'⟩
      · obtain ⟨later, rest⟩ := ih built' ran
        exact ⟨untouched.trans later, rest⟩
    · cases ran
      exact ⟨Untouched.refl start t.memory, bytes, built⟩

theorem loadseg_built {va : UInt64} {off sz : UInt32} {whole : Bool} (low : P2V 0 ∉ start)
    (built : Built start root M bytes s.memory)
    (ran : (loadseg root va ip off sz).run (handle kernel) s = some (whole, t)) :
    Untouched start s.memory t.memory ∧ ∃ bytes', Built start root M bytes' t.memory := by
  obtain ⟨pa, u, found, ran⟩ := Program.run_bind_eq_some.mp ran
  obtain ⟨r, v, read, ran⟩ := Program.run_bind_eq_some.mp ran
  have place : (va % PGSIZE).toUInt32.toNat < 4096 := by
    rw [UInt64.toNat_toUInt32, UInt64.toNat_mod]
    change va.toNat % 4096 % 2 ^ 32 < _
    omega
  have inside : (va % PGSIZE).toUInt32.toUInt64.toNat +
      (headLength (va % PGSIZE).toUInt32 sz).toUInt64.toNat ≤ 4096 := by
    rw [UInt32.toNat_toUInt64, UInt32.toNat_toUInt64, headLength_toNat place]
    omega
  obtain ⟨untouched, bytes', built'⟩ := piece_built built low inside found rfl read
  split at ran
  · cases ran
    exact ⟨untouched, bytes', built'⟩
  · obtain ⟨later, rest⟩ := loadPages_built low loadTurns built' ran
    exact ⟨untouched.trans later, rest⟩

theorem loadTurn_fits {eh : Ehdr} {i : Nat} {e : Extent} {sz sz' : Int32} (low : P2V 0 ∉ start)
    (fits : Fits start root bytes e sz s.memory)
    (ran : (loadTurn ip root eh i sz).run (handle kernel) s = some (some sz', t)) :
    Untouched start s.memory t.memory ∧ ∃ e' bytes', Fits start root bytes' e' sz' t.memory := by
  obtain ⟨⟨r, b⟩, u, read, ran⟩ := Program.run_bind_eq_some.mp ran
  have memory := (files_run (files_fs _) read).2
  rw [← memory] at fits ⊢
  dsimp only at ran
  split at ran
  · cases ran
  split at ran
  · cases ran
    exact ⟨Untouched.refl start t.memory, e, bytes, fits⟩
  obtain ⟨grown, v, first, ran⟩ := Program.run_bind_eq_some.mp ran
  cases grown with
  | none => cases ran
  | some sz₁ =>
    obtain ⟨⟨_, grew⟩, e₁, _, _, fits₁⟩ := growFor_run fits first
    obtain ⟨whole, w, loaded, ran⟩ := Program.run_bind_eq_some.mp ran
    obtain ⟨filled, bytes', built⟩ := loadseg_built low fits₁.built loaded
    cases whole with
    | false => cases ran
    | true =>
      cases ran
      exact ⟨grew.trans filled, e₁, bytes', fits₁.size, fits₁.within, built⟩

-- A table that `loadImage` returns is one of the pages that were free.
theorem loadImage_fits {eh : Ehdr} {sz : Int32} (heap : Free s.memory free) (low : P2V 0 ∉ free)
    (ran : (loadImage ip).run (handle kernel) s = some (some (eh, root, sz), t)) :
    root ∈ free ∧ Untouched (free ++ [0]) s.memory t.memory ∧
      ∃ e bytes, Fits (free ++ [0]) root bytes e sz t.memory := by
  obtain ⟨⟨r, b⟩, u, read, ran⟩ := Program.run_bind_eq_some.mp ran
  have memory := (files_run (files_fs _) read).2
  rw [← memory] at heap ⊢
  dsimp only at ran
  split at ran
  · cases ran
  obtain ⟨pgdir, v, allocated, ran⟩ := Program.run_bind_eq_some.mp ran
  rw [kalloc, Program.run_request] at allocated
  obtain ⟨⟨pgdir', m⟩, given, same⟩ := Option.map_eq_some_iff.mp allocated
  cases same
  split at ran
  · cases ran
  next notNull =>
  obtain ⟨_, w, cleared, ran⟩ := Program.run_bind_eq_some.mp ran
  rw [memset, Program.run_request] at cleared
  cases cleared
  obtain ⟨looped, x, loop, ran⟩ := Program.run_bind_eq_some.mp ran
  cases looped with
  | none => cases ran
  | some sz =>
    cases ran
    cases free with
    | nil =>
      have null : u.memory.free_list = 0 := heap.linked
      simp only [Vm.kalloc, heap.unlocked, null, Bool.false_eq_true, if_false, if_true, Option.some.injEq,
        Prod.mk.injEq] at given
      exact absurd given.1.symm notNull
    | cons page rest =>
      cases heap.kalloc.1.symm.trans given
      refine ⟨List.mem_cons_self, ?_⟩
      refine Program.run_iterate_invariant
        (fun _ sz w => Untouched _ u.memory w.memory ∧ ∃ e bytes, Fits _ _ bytes e sz w.memory)
        ⟨untouched_newTable _ _ _, _, _, Fits.newTable heap⟩ ?_ loop
      intro i sz₁ s₁ sz₂ s₂ _ known ran
      obtain ⟨before, e, bytes, fits⟩ := known
      obtain ⟨turned, rest⟩ := loadTurn_fits (low_start low) fits ran
      exact ⟨before.trans turned, rest⟩

variable (ip) in
-- Requests that load a file or build a stack take pages as `kalloc` does.
theorem drained_keep {r : Exec.Request} {reply : Exec.Reply r} (kind : Loads ip r ∨ Pushes r)
    (drained : Drained s.memory) (answered : handle kernel r s = some (reply, t)) : Drained t.memory := by
  cases r with
  | kalloc =>
    obtain ⟨_, allocated, result⟩ := Option.map_eq_some_iff.mp answered
    cases result
    exact kalloc_drained allocated
  | uvmAlloc =>
    obtain ⟨_, allocated, result⟩ := Option.map_eq_some_iff.mp answered
    cases result
    exact allocPages_drained drained allocated
  | inodes | pgdirIwalk =>
    obtain ⟨_, _, result⟩ := Option.map_eq_some_iff.mp answered
    cases result
    exact drained
  | readi ip dst off n =>
    obtain ⟨⟨⟨_, b⟩, _⟩, _, result⟩ := Option.map_eq_some_iff.mp answered
    cases result
    obtain ⟨list, lock⟩ := copyBytes_free_list s.memory dst b n.toNat
    exact fun held => list.trans (drained (lock.symm.trans held))
  | memset =>
    cases answered
    exact drained
  | memcpy dst src n =>
    cases answered
    obtain ⟨list, lock⟩ := copyBytes_free_list s.memory dst src n.toNat
    exact fun held => list.trans (drained (lock.symm.trans held))
  | ustack i =>
    rw [handle] at answered
    split at answered
    · cases answered
      exact drained
    · cases answered
  | panic => cases answered
  | _ => exact absurd kind (not_or.mpr ⟨id, id⟩)

variable (ip) in
theorem drained_run {A : Type} {p : Program Exec A} {a : A} (issues : p.Issues fun r => Loads ip r ∨ Pushes r)
    (drained : Drained s.memory) (ran : p.run (handle kernel) s = some (a, t)) : Drained t.memory := by
  apply issues.invariant (fun u => Drained u.memory) ?_ drained ran
  intro r u reply v kind before answered
  exact drained_keep ip kind before answered

theorem root_not_givenBack {taken pages : List UInt64} {m : Memory}
    (holds : Holds start root M bytes m taken pages) (drained : Drained m) (member : root ∈ free) :
    ¬ GivenBack free m := by
  obtain ⟨page, image, _⟩ := holds
  have isTaken : root ∈ taken := image.inside [] root (Nat.zero_le 3) rfl
  have unused := image.unused isTaken
  rintro ⟨list, linked, notNull, all⟩
  have back := all root member
  have supply := image.supply
  cases supply with
  | @whole left heap =>
    have same : list = left := by
      apply Linked.unique linked heap.linked
      · intro a isBack isNull
        exact notNull (isNull ▸ isBack)
      · intro a isLeft isNull
        subst isNull
        exact absurd (heap.page 0 isLeft).2 (by decide)
    exact unused (List.mem_append_left [0] (same ▸ back))
  | spent held =>
    have empty := drained held
    cases list with
    | nil => cases back
    | cons a rest =>
      have isNull : a = 0 := linked.1.symm.trans empty
      exact notNull (isNull ▸ List.mem_cons_self)

/-! ## The call -/

theorem notFound_restored (heap : Free s.memory free)
    (absent : (openExecutable path).run (handle kernel) s = some (none, t)) : Restored kernel path free s t := by
  obtain ⟨looks, ended, _⟩ := openExecutable_run absent
  obtain ⟨same, memory⟩ := files_run (files_openExecutable path) absent
  have nothing : ∀ ip, ¬ Looks kernel path s (some ip) := by
    intro ip other
    cases looks.unique other
  refine ⟨?_, ?_, ?_, same.tf, ?_, fun ip other => absurd other (nothing ip),
    fun ip other => absurd other (nothing ip), ended rfl, ?_⟩
  · rw [State.pgdir, State.pgdir, same.proc]
  · intro va
    rw [memory]
  · rw [State.sz, State.sz, same.proc]
  · intro k _
    rw [same.proc]
  · rw [memory]
    exact ⟨free, heap.linked, fun isNull => absurd (heap.page 0 isNull).2 (by decide), fun page isFree => isFree⟩

theorem notLoaded_locked {image : Option (Ehdr × UInt64 × Int32)}
    (opened : (openExecutable path).run (handle kernel) s = some (some ip, t))
    (ran : (loadImage ip).run (handle kernel) t = some (image, u)) : (u.machine.icache ip).locked = true := by
  obtain ⟨_, _, locked⟩ := openExecutable_run opened
  exact (congrFun (loadImage_locks ran) ip).trans (locked ip rfl)

theorem noStack_lost {v w : State} {eh : Ehdr} {sz : Int32} (heap : Free s.memory free) (low : P2V 0 ∉ free)
    (opened : (openExecutable path).run (handle kernel) s = some (some ip, t))
    (loaded : (loadImage ip).run (handle kernel) t = some (some (eh, root, sz), u))
    (closed : (close ip).run (handle kernel) u = some ((), v))
    (failed : (allocStack root sz).run (handle kernel) v = some (none, w)) : ¬ GivenBack free w.memory := by
  have found := (files_run (files_openExecutable path) opened).2
  rw [← found] at heap
  obtain ⟨member, _, e, bytes, fits⟩ := loadImage_fits heap low loaded
  have memory := (files_run (files_close ip) closed).2
  rw [← memory] at fits
  obtain ⟨⟨⟨M, taken, pages, holds⟩, _, _⟩, _⟩ := allocStack_run fits failed
  have start : Drained t.memory := fun held => absurd held (by simp [heap.unlocked])
  have image : Drained u.memory := drained_run ip (loads_loadImage.mono fun _ => .inl) start loaded
  rw [← memory] at image
  have stack : Drained w.memory := drained_run ip (pushes_allocStack.mono fun _ => .inr) image failed
  exact root_not_givenBack holds stack member

/-- A call that fails leaves things as they were if and only if `namei` has found nothing. -/
theorem execve_restores_iff (heap : Free s.memory free) (low : P2V 0 ∉ free)
    (failed : (execve path argv).run (handle kernel) s = some (-1, t)) :
    Restored kernel path free s t ↔ Looks kernel path s none := by
  obtain ⟨r, isFailure⟩ : ∃ r : Int, r = -1 := ⟨-1, rfl⟩
  rw [← isFailure] at failed
  -- the three ways to fail
  cases execve_outcome failed with
  | notFound absent =>
    exact iff_of_true (notFound_restored heap absent) (openExecutable_run absent).1
  | notLoaded opened unloaded =>
    have looks := (openExecutable_run opened).1
    have locked := notLoaded_locked opened unloaded
    constructor
    · intro restored
      rw [restored.unlocked _ looks] at locked
      cases locked
    · intro nothing
      cases looks.unique nothing
  | noStack opened loaded closed unallocated =>
    have looks := (openExecutable_run opened).1
    constructor
    · intro restored
      exact absurd restored.pages (noStack_lost heap low opened loaded closed unallocated)
    · intro nothing
      cases looks.unique nothing
  | done => omega

end

def missingPath : List UInt8 := [slash, 98]

theorem execve_restores_iff_missing : ∃ t,
    (execve missingPath []).run (handle plainKernel) (idleWith []) = some (-1, t) ∧
    Restored plainKernel missingPath tenAddresses (idleWith []) t := by
  have runs : ((execve missingPath []).run (handle plainKernel) (idleWith [])).any (fun out => out.1 = -1) = true := by
    decide +kernel
  have absent : ((openExecutable missingPath).run (handle plainKernel) (idleWith [])).any (fun out =>
      out.1.isNone) = true := by
    decide +kernel
  obtain ⟨⟨r, t⟩, ran, isFailure⟩ := (Option.any_eq_true _ _).mp runs
  obtain ⟨⟨found, u⟩, opened, isNone⟩ := (Option.any_eq_true _ _).mp absent
  obtain rfl : r = -1 := of_decide_eq_true isFailure
  obtain rfl : found = none := Option.isNone_iff_eq_none.mp isNone
  exact ⟨t, ran, (execve_restores_iff (s := idleWith []) idle_free low_free ran).mpr (openExecutable_run opened).1⟩

/-- The root directory is too short for a header, and stays locked. -/
theorem executable_stays_locked : ¬ ∀ (kernel : Kernel) (path : List UInt8) (argv : List (List UInt8)) (s t : State)
    (free : List UInt64), Free s.memory free → P2V 0 ∉ free →
    (execve path argv).run (handle kernel) s = some (-1, t) → Restored kernel path free s t := by
  intro always
  have runs : ((execve [slash] []).run (handle plainKernel) (idleWith [])).any (fun out =>
      out.1 = -1 && (out.2.machine.icache 0).locked) = true := by
    decide +kernel
  have opens : ((openExecutable [slash]).run (handle plainKernel) (idleWith [])).any (fun out =>
      out.1 = some 0) = true := by
    decide +kernel
  obtain ⟨⟨r, t⟩, ran, holds⟩ := (Option.any_eq_true _ _).mp runs
  obtain ⟨⟨found, u⟩, opened, isRoot⟩ := (Option.any_eq_true _ _).mp opens
  rw [Bool.and_eq_true, decide_eq_true_eq] at holds
  obtain ⟨rfl, locked⟩ := holds
  obtain rfl : found = some 0 := of_decide_eq_true isRoot
  have restored := always plainKernel [slash] [] (idleWith []) t tenAddresses idle_free low_free ran
  rw [restored.unlocked 0 (openExecutable_run opened).1] at locked
  cases locked

end Xv6.Exec
