import Xv6.Process.Tree
import Mathlib.Data.Finset.Card
import Mathlib.Data.Finset.Option

/-! The pages of the kernel stacks over the runs of `fork`, `exit` and `wait`.

The free list of `kern/kalloc.c` stands beside the process table. `proc_alloc` takes
its stack from the list, and `cleanproc` forgets the stack of the process that `wait`
reaps. As long as nobody reaps, the pages taken are the stacks of the processes.
-/

set_option autoImplicit false

namespace Xv6.Process

open Library

/-- The kernel and its pages. -/
structure Paged (C : Type) (n : Nat) where
  kernel : Kernel C n
  /-- `kmem.free_list`, from its head. -/
  free : List UInt64
  /-- The pages that `kalloc` gave to `proc_alloc` and that have not come back by `kfree`. -/
  taken : Finset UInt64
  /-- The pages of page tables and of user memory. -/
  others : Finset UInt64

inductive PageAction (C : Type) where
  | process (a : Action C)
  /-- A page for anything but a kernel stack. -/
  | kalloc
  | kfree (v : UInt64)

section
variable {C : Type} {n : Nat}

-- What `kalloc` returns in the `proc_alloc` of an action.
def Action.kstack : Action C → Option (Option UInt64)
  | .userInit kstack | .fork _ kstack => some kstack
  | .userCopy _ | .userReady | .forkCopy _ | .forkReady _ | .scheduler _ | .yield _ | .sleep _ _ | .wakeup _
  | .exit _ | .wait _ => none

variable [DecidableEq C]

/-- Pages are taken from the head of the free list and put back there. -/
def pageStep (addr : Fin n → UInt64) : PageAction C → Paged C n → Option (Paged C n)
  | .process a, s =>
    match a.kstack with
    | none => (step addr a s.kernel).map fun kernel => { s with kernel := kernel }
    | some kstack =>
      if kstack = s.free.head? then
        (step addr a s.kernel).map fun kernel =>
          { s with kernel := kernel, free := s.free.tail, taken := s.taken ∪ kstack.toFinset }
      else none
  | .kalloc, s => s.free.head?.map fun page => { s with free := s.free.tail, others := insert page s.others }
  | .kfree v, s =>
    if v ∈ s.others then
      some { s with free := v :: s.free, taken := s.taken.erase v, others := s.others.erase v }
    else none

def Table.kstacks (s : Table C n) : Finset UInt64 :=
  (Finset.univ.filter fun p => (s.proc p).state ≠ .unused).image fun p => (s.proc p).kstack

/-- Every page taken for a stack and not returned is the stack of a process, and the other
way round; so there are no more of them than slots of the table. -/
def Paged.Reclaimed (s : Paged C n) : Prop := s.taken = s.kernel.table.kstacks ∧ s.taken.card ≤ n

/-- No `wait` that takes a turn has a zombie child. -/
def Unreaped : Action C → Kernel C n → Prop
  | .wait c, s => ∀ p, s.table.cpu c = some p → ¬ s.table.Bereaved p (List.finRange n)
  | .scheduler _, s => ∀ p, pick s.table (List.finRange prioentries).reverse = some (some p) →
      (s.table.proc p).context = .wait → ¬ s.table.Bereaved p (List.finRange n)
  | _, _ => True

def PageAction.Unreaped : PageAction C → Paged C n → Prop
  | .process a, s => Process.Unreaped a s.kernel
  | _, _ => True

/-! ## The stack of a process -/

def Proc.stack (x : Proc n) : Option UInt64 := if x.state = .unused then none else some x.kstack

omit [DecidableEq C] in
theorem Table.mem_kstacks {s : Table C n} {page : UInt64} :
    page ∈ s.kstacks ↔ ∃ p, (s.proc p).stack = some page := by
  simp [Table.kstacks, Proc.stack]

omit [DecidableEq C] in
theorem Table.kstacks_congr {s t : Table C n} (same : ∀ p, (t.proc p).stack = (s.proc p).stack) :
    t.kstacks = s.kstacks := by
  ext page
  simp only [Table.mem_kstacks, same]

omit [DecidableEq C] in
theorem Table.card_kstacks (s : Table C n) : s.kstacks.card ≤ n := by
  refine Finset.card_image_le.trans ?_
  refine (Finset.card_filter_le _ _).trans ?_
  simp

theorem Proc.stack_congr {x y : Proc n} (kstack : y.kstack = x.kstack)
    (unused : y.state = .unused ↔ x.state = .unused) : y.stack = x.stack := by
  simp only [Proc.stack, kstack, unused]

theorem woken_stack (chan : UInt64) (x : Proc n) : (woken chan x).stack = x.stack := by
  unfold woken
  split
  · rename_i asleep
    exact Proc.stack_congr rfl (by simp [asleep.2])
  · rfl

theorem exited_stack (addr : Fin n → UInt64) (s : Table C n) (c : C) {p : Fin n}
    (running : (s.proc p).state = .running) (q : Fin n) :
    ((s.exited addr c p).proc q).stack = (s.proc q).stack := by
  by_cases self : q = p
  · subst self
    have result : (s.exited addr c q).proc q =
        { (s.wake (channel addr (s.proc q).parent)).adopted addr q (List.finRange n) q with state := .zombie } :=
      if_pos rfl
    have asRunning : woken (channel addr (s.proc q).parent) (s.proc q) = s.proc q := woken_running running
    have asRunning' : woken (channel addr s.initproc) (s.proc q) = s.proc q := woken_running running
    rw [result, adopted_eq]
    refine Proc.stack_congr ?_ (by simp [running])
    simp only [Table.wake, Table.setProcs_proc, Table.setProcs_initproc, asRunning, asRunning', ite_self]
  · rw [exited_other s c self]
    split
    · exact (woken_stack _ _).trans (woken_stack _ _)
    · exact woken_stack _ _

/-! ## Steps of the table -/

variable {addr : Fin n → UInt64} {s t : Kernel C n}

theorem WaitTurn.stack {c : C} {p : Fin n} {before after : Table C n} {result : WaitEnd n}
    (turn : WaitTurn addr c p before after result) (running : (before.proc p).state = .running)
    (unreaped : ∀ q pid, result ≠ .reaped q pid) (q : Fin n) : (after.proc q).stack = (before.proc q).stack := by
  cases turn with
  | reaped r child zombie => exact absurd rfl (unreaped r _)
  | childless none => rfl
  | blocked none =>
    by_cases same : q = p
    · subst same
      simp [Table.leave, Proc.stack, running]
    · simp [Table.leave, same]

/-- Only `proc_alloc` and the reaping of a zombie change what stacks there are. -/
theorem Moves.stack {a : Action C} {e : Option (Fin n × WaitEnd n)} (placed : Placed s) (moves : Moves addr s a t e)
    (noStack : a.kstack = none) (unreaped : ∀ p q pid, e ≠ some (p, .reaped q pid)) (q : Fin n) :
    (t.table.proc q).stack = (s.table.proc q).stack := by
  have change : ∀ (p : Fin n) (x : Proc n), x.stack = (s.table.proc p).stack →
      ((s.table.setProc p x).proc q).stack = (s.table.proc q).stack := by
    intro p x kept
    by_cases same : q = p
    · subst same
      simpa using kept
    · simp [same]
  have embryo : ∀ owner child, (s.thread owner).child = some child → (s.table.proc child).state = .embryo :=
    placed.pending
  have ready : ∀ owner, Readied owner s t → (t.table.proc q).stack = (s.table.proc q).stack := by
    rintro owner ⟨child, prio, links, busy, rfl⟩
    have isEmbryo := embryo owner child (by rw [busy]; rfl)
    exact change child _ (Proc.stack_congr rfl (by simp [isEmbryo]))
  cases moves with
  | userInit started => simp [Action.kstack] at noStack
  | fork on started => simp [Action.kstack] at noStack
  | @userCopy loop child thread => exact change child _ rfl
  | userReady readied => exact ready none readied
  | @forkCopy c par child on thread => exact change child _ rfl
  | @forkReady c par _ on readied => exact ready (some par) readied
  | schedulerIdle idle => rfl
  | @scheduler c p table result links links' idle runnable resumes =>
    have picked : (((s.table.picked c p).setLinks links).proc q).stack = (s.table.proc q).stack :=
      change p _ (Proc.stack_congr rfl (by simp [runnable]))
    have cleared : ((((s.table.picked c p).setLinks links).setProc p
        { ((s.table.picked c p).setLinks links).proc p with chan := 0 }).proc q).stack =
        (((s.table.picked c p).setLinks links).proc q).stack := by
      by_cases same : q = p
      · subst same
        rw [Table.setProc_proc, if_pos rfl]
        exact Proc.stack_congr rfl Iff.rfl
      · rw [Table.setProc_proc, if_neg same]
    cases resumes with
    | released context => exact picked
    | slept context => exact cleared.trans picked
    | waited context turn =>
      have turned := turn.stack (by simp [Table.picked])
        (fun r pid isReaped => unreaped p r pid (by simp [isReaped])) q
      exact turned.trans (cleared.trans picked)
  | @yield c p links on =>
    have running := placed.current c p on
    exact change p _ (Proc.stack_congr rfl (by simp [running]))
  | @sleep c p chan links on free =>
    have running := placed.current c p on
    exact change p _ (Proc.stack_congr rfl (by simp [running]))
  | wakeup links => exact woken_stack _ _
  | @exit c p links on free => exact exited_stack addr s.table c (placed.current c p on) q
  | @wait c p table result links on free turn =>
    exact turn.stack (placed.current c p on) (fun r pid isReaped => unreaped p r pid (by simp [isReaped])) q

omit [DecidableEq C] in
/-- A `proc_alloc` that returns a process gives the page it got to an UNUSED slot. -/
theorem startChild_stack {owner : Option (Fin n)} {kstack : Option UInt64}
    (started : startChild owner kstack s = some t) :
    ∃ page child, kstack = some page ∧ (s.table.proc child).stack = none ∧
      ∀ q, (t.table.proc q).stack = if q = child then some page else (s.table.proc q).stack := by
  unfold startChild procAlloc at started
  cases found : (List.finRange n).find? fun p => (s.table.proc p).state = .unused with
  | none => simp [found] at started
  | some child =>
    have unused : (s.table.proc child).state = .unused := by simpa using List.find?_some found
    cases kstack with
    | none => simp [found] at started
    | some page =>
      simp only [found, Option.some.injEq] at started
      refine ⟨page, child, rfl, by simp [Proc.stack, unused], fun q => ?_⟩
      rw [← started]
      by_cases same : q = child
      · simp [same, Proc.stack]
      · simp [same]

theorem step_kstacks {a : Action C} {kstack : Option UInt64} (calls : a.kstack = some kstack)
    (stepped : step addr a s = some t) : t.table.kstacks = s.table.kstacks ∪ kstack.toFinset := by
  have started : ∃ owner, startChild owner kstack s = some t := by
    cases a with
    | userInit kstack' =>
      cases calls
      simp only [step, perform, Option.map_eq_some_iff, Option.ite_none_right_eq_some] at stepped
      obtain ⟨_, ⟨free, u, started, rfl⟩, rfl⟩ := stepped
      exact ⟨none, started⟩
    | fork c kstack' =>
      cases calls
      simp only [step, perform, Option.bind_eq_bind, Option.map_eq_some_iff, Option.bind_eq_some_iff,
        Option.ite_none_right_eq_some] at stepped
      obtain ⟨_, ⟨par, on, free, u, started, rfl⟩, rfl⟩ := stepped
      exact ⟨some par, started⟩
    | _ => simp [Action.kstack] at calls
  obtain ⟨owner, started⟩ := started
  obtain ⟨page, child, rfl, fresh, stack⟩ := startChild_stack started
  ext v
  simp only [Table.mem_kstacks, stack, Option.toFinset_some, Finset.mem_union, Finset.mem_singleton]
  constructor
  · rintro ⟨q, isStack⟩
    by_cases same : q = child
    · rw [if_pos same] at isStack
      exact .inr (Option.some.inj isStack).symm
    · rw [if_neg same] at isStack
      exact .inl ⟨q, isStack⟩
  · rintro (⟨q, isStack⟩ | rfl)
    · refine ⟨q, ?_⟩
      rw [if_neg, isStack]
      rintro rfl
      simp [fresh] at isStack
    · exact ⟨child, if_pos rfl⟩

theorem reaped_bereaved {a : Action C} {p q : Fin n} {pid : Int} (consistent : Consistent s)
    (performed : perform addr a s = some (t, some (p, .reaped q pid))) : ¬ Unreaped a s := by
  obtain ⟨moves, after⟩ := consistent.perform performed
  have child := (moves.waitEnd.1 q pid rfl).1
  have count := moves.zombies consistent.placed q
  have bereaved : exitCount q a s = 0 → s.table.Bereaved p (List.finRange n) := by
    intro noExit
    refine ⟨q, by simp, child, ?_⟩
    by_contra alive
    rw [zombieCount, zombieCount, if_neg alive, noExit] at count
    simp [reapCount] at count
  intro unreaped
  cases a with
  | wait c =>
    simp only [perform, Option.bind_eq_bind, Option.bind_eq_some_iff, Option.ite_none_right_eq_some,
      Option.map_eq_some_iff] at performed
    obtain ⟨p', on, free, ⟨table, result⟩, waited, same⟩ := performed
    cases same
    exact unreaped p on (bereaved rfl)
  | scheduler c =>
    simp only [perform, scheduler, Option.ite_none_right_eq_some, Option.map_eq_some_iff, Option.bind_eq_bind,
      Option.bind_eq_some_iff] at performed
    obtain ⟨idle, ⟨table, e⟩, ⟨found, picked, ran⟩, same⟩ := performed
    cases found with
    | none =>
      cases ran
      simp at same
    | some p' =>
      simp only [Option.bind_eq_some_iff] at ran
      obtain ⟨links, deleted, ⟨table', result⟩, resumed, isResult⟩ := ran
      cases isResult
      cases result with
      | none => simp at same
      | some result =>
        simp only [Option.map_some, Prod.mk.injEq, Option.some.injEq] at same
        obtain ⟨-, rfl, rfl⟩ := same
        refine unreaped p' picked ?_ (bereaved rfl)
        cases context : (s.table.proc p').context with
        | wait => rfl
        | _ => simp [resume, context] at resumed
  | _ => cases moves

/-! ## Runs -/

/-- What holds of the pages whatever happens, and that the stacks are those of the processes. -/
structure Paged.Stocked (s : Paged C n) : Prop where
  consistent : Consistent s.kernel
  nodup : s.free.Nodup
  fresh : ∀ page ∈ s.free, page ∉ s.taken ∧ page ∉ s.others
  apart : ∀ page ∈ s.others, page ∉ s.taken
  live : s.taken = s.kernel.table.kstacks

/-- A machine on which no process has been made and no stack taken. -/
structure Paged.Boot (s : Paged C n) : Prop where
  kernel : Process.Boot s.kernel
  nodup : s.free.Nodup
  fresh : ∀ page ∈ s.free, page ∉ s.others
  taken : s.taken = ∅

theorem Paged.Stocked.process {a : Action C} {s t : Paged C n} (stocked : s.Stocked) (unreaped : Unreaped a s.kernel)
    (stepped : pageStep addr (.process a) s = some t) : t.Stocked := by
  obtain ⟨consistent, nodup, fresh, apart, live⟩ := stocked
  cases calls : a.kstack with
  | none =>
    simp only [pageStep, calls, Option.map_eq_some_iff] at stepped
    obtain ⟨kernel, stepped, rfl⟩ := stepped
    obtain ⟨⟨u, e⟩, performed, rfl⟩ := Option.map_eq_some_iff.mp stepped
    obtain ⟨moves, consistent'⟩ := consistent.perform performed
    refine ⟨consistent', nodup, fresh, apart, live.trans ?_⟩
    refine (Table.kstacks_congr fun p => ?_).symm
    refine moves.stack consistent.placed calls ?_ p
    rintro p q pid rfl
    exact reaped_bereaved consistent performed unreaped
  | some kstack =>
    simp only [pageStep, calls, Option.ite_none_right_eq_some, Option.map_eq_some_iff] at stepped
    obtain ⟨isHead, kernel, stepped, rfl⟩ := stepped
    refine ⟨consistent.step stepped, nodup.tail, ?_, ?_, ?_⟩
    · intro page member
      have old := fresh page (List.mem_of_mem_tail member)
      refine ⟨?_, old.2⟩
      -- the head of the free list is not on its tail
      cases free : s.free with
      | nil => simp [free] at member
      | cons first rest =>
        have notFirst : page ≠ first := by
          rintro rfl
          rw [free] at nodup member
          exact (List.nodup_cons.mp nodup).1 member
        simpa [isHead, free, notFirst] using old.1
    · intro page member
      have notFree : page ∉ s.free := fun isFree => (fresh page isFree).2 member
      cases free : s.free with
      | nil => simpa [isHead, free] using apart page member
      | cons first rest =>
        have notFirst : page ≠ first := by
          rintro rfl
          exact notFree (by simp [free])
        simpa [isHead, free, notFirst] using apart page member
    · rw [step_kstacks calls stepped, live]

theorem Paged.Stocked.step {a : PageAction C} {s t : Paged C n} (stocked : s.Stocked) (unreaped : a.Unreaped s)
    (stepped : pageStep addr a s = some t) : t.Stocked := by
  cases a with
  | process a => exact stocked.process unreaped stepped
  | kalloc =>
    obtain ⟨consistent, nodup, fresh, apart, live⟩ := stocked
    cases free : s.free with
    | nil => simp [pageStep, free] at stepped
    | cons first rest =>
      simp only [pageStep, free, List.head?_cons, Option.map_some, Option.some.injEq, List.tail_cons] at stepped
      subst stepped
      rw [free] at nodup fresh
      obtain ⟨notRest, nodup⟩ := List.nodup_cons.mp nodup
      refine ⟨consistent, nodup, fun page member => ?_, fun page member => ?_, live⟩
      · have old := fresh page (by simp [member])
        have notFirst : page ≠ first := by
          rintro rfl
          exact notRest member
        exact ⟨old.1, by simp [notFirst, old.2]⟩
      · rcases Finset.mem_insert.mp member with rfl | old
        · exact (fresh page (by simp)).1
        · exact apart page old
  | kfree v =>
    obtain ⟨consistent, nodup, fresh, apart, live⟩ := stocked
    simp only [pageStep, Option.ite_none_right_eq_some, Option.some.injEq] at stepped
    obtain ⟨held, rfl⟩ := stepped
    have notTaken := apart v held
    have kept : s.taken.erase v = s.taken := Finset.erase_eq_of_notMem notTaken
    refine ⟨consistent, ?_, fun page member => ?_, fun page member => ?_, kept.trans live⟩
    · exact List.nodup_cons.mpr ⟨fun isFree => (fresh v isFree).2 held, nodup⟩
    · simp only [kept]
      rcases List.mem_cons.mp member with rfl | old
      · exact ⟨notTaken, by simp⟩
      · exact ⟨(fresh page old).1, fun also => (fresh page old).2 (Finset.mem_of_mem_erase also)⟩
    · simp only [kept]
      exact apart page (Finset.mem_of_mem_erase member)

omit [DecidableEq C] in
theorem Paged.Boot.stocked {s : Paged C n} (boot : s.Boot) : s.Stocked where
  consistent := boot.kernel.consistent
  nodup := boot.nodup
  fresh page member := ⟨by simp [boot.taken], boot.fresh page member⟩
  apart page _ := by simp [boot.taken]
  live := by
    rw [boot.taken]
    ext page
    simp [Table.mem_kstacks, Proc.stack, boot.kernel.unused]

/-- In every run in which no `wait` comes upon a zombie child, the pages taken for kernel
stacks and not returned are the stacks of the processes, in every state. -/
theorem stacks_reclaimed {acts : List (PageAction C)} {s t : Paged C n} (boot : s.Boot)
    (unreaped : Meets (pageStep addr) PageAction.Unreaped acts s) (ran : run (pageStep addr) acts s = some t) :
    t.Reclaimed := by
  have preserved : ∀ (a : PageAction C) (s t : Paged C n), s.Stocked → a.Unreaped s → pageStep addr a s = some t →
      t.Stocked := fun _ _ _ => Paged.Stocked.step
  have stocked := run_invariant_of_meets preserved boot.stocked unreaped ran
  exact ⟨stocked.live, stocked.live ▸ t.kernel.table.card_kstacks⟩

instance Unreaped.decide : (a : Action C) → (s : Kernel C n) → Decidable (Unreaped a s)
  | .wait c, s => inferInstanceAs (Decidable (∀ p, s.table.cpu c = some p → ¬ s.table.Bereaved p (List.finRange n)))
  | .scheduler _, s => inferInstanceAs (Decidable (∀ p,
      pick s.table (List.finRange prioentries).reverse = some (some p) →
        (s.table.proc p).context = .wait → ¬ s.table.Bereaved p (List.finRange n)))
  | .userInit _, _ | .userCopy _, _ | .userReady, _ | .fork _ _, _ | .forkCopy _, _ | .forkReady _, _
  | .yield _, _ | .sleep _ _, _ | .wakeup _, _ | .exit _, _ => .isTrue trivial

instance PageAction.Unreaped.decide : (a : PageAction C) → (s : Paged C n) → Decidable (a.Unreaped s)
  | .process a, s => Process.Unreaped.decide a s.kernel
  | .kalloc, _ | .kfree _, _ => .isTrue trivial

end

def bootPaged : Paged (Fin 2) nproc := ⟨bootKernel (Fin 2) nproc, [4096, 8192, 12288], ∅, ∅⟩

theorem bootPaged_boot : bootPaged.Boot := ⟨bootKernel_boot _ _,
    by decide +kernel, fun _ _ => Finset.notMem_empty _, rfl⟩

def unawaited : List (PageAction (Fin 2)) := ((family.take 15).map .process) ++ [.kalloc, .kfree 12288]

theorem stacks_reclaimed_unawaited :
    ∃ t, run (pageStep fun p : Fin nproc => 4096 + p.val.toUInt64) unawaited bootPaged = some t ∧ t.Reclaimed := by
  obtain ⟨t, ran⟩ := Option.isSome_iff_exists.mp
    (show (run (pageStep fun p : Fin nproc => 4096 + p.val.toUInt64) unawaited bootPaged).isSome by decide +kernel)
  have unreaped : Meets (pageStep fun p : Fin nproc => 4096 + p.val.toUInt64) PageAction.Unreaped unawaited
      bootPaged := by decide +kernel
  exact ⟨t, ran, stacks_reclaimed bootPaged_boot unreaped ran⟩

/-- The parent waits, and the stack of its child belongs to nobody. -/
theorem stack_leaked : ∃ t, bootPaged.Boot ∧
    run (pageStep fun p : Fin nproc => 4096 + p.val.toUInt64) (family.map .process) bootPaged = some t ∧
      ¬ t.Reclaimed := by
  have differs : (run (pageStep fun p : Fin nproc => 4096 + p.val.toUInt64) (family.map .process) bootPaged).any
      fun t => decide (t.taken ≠ t.kernel.table.kstacks) := by decide +kernel
  obtain ⟨t, ran, different⟩ := (Option.any_eq_true _ _).mp differs
  exact ⟨t, bootPaged_boot, ran, fun reclaimed => of_decide_eq_true different reclaimed.1⟩

end Xv6.Process
