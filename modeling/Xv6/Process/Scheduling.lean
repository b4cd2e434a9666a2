import Xv6.Process.Interleaving

/-! The lists and the CPUs agree with the states of the processes in every run.

`Placed` is about states, CPUs and kernel threads; the lists are carried by
`Table.Ordered`. Every effect of a section is one of a few changes, each with
its own lemma, and the step lemma puts them together.
-/

set_option autoImplicit false

namespace Xv6.Process

open Library

section
variable {C : Type} {n : Nat}

def Thread.child : Thread n → Option (Fin n)
  | .free => none
  | .allocated child => some child
  | .copied child => some child

structure Placed (s : Kernel C n) : Prop where
  current : ∀ c p, s.table.cpu c = some p → (s.table.proc p).state = .running
  exclusive : ∀ c d p, s.table.cpu c = some p → s.table.cpu d = some p → c = d
  somewhere : ∀ p, (s.table.proc p).state = .running → ∃ c, s.table.cpu c = some p
  pending : ∀ owner child, (s.thread owner).child = some child → (s.table.proc child).state = .embryo
  apart : ∀ owner other child, (s.thread owner).child = some child → (s.thread other).child = some child →
    owner = other
  /-- A process in `fork` has been preempted at most. -/
  busy : ∀ p, s.thread (some p) ≠ .free → (s.table.proc p).state = .running ∨
    ((s.table.proc p).state = .runnable ∧ (s.table.proc p).context = .yield)

namespace Placed

variable {s t : Kernel C n}

theorem idle (placed : Placed s) (cpu : t.table.cpu = s.table.cpu) (thread : t.thread = s.thread)
    (each : ∀ p, ((t.table.proc p).state = (s.table.proc p).state ∧
        (t.table.proc p).context = (s.table.proc p).context) ∨
      (((s.table.proc p).state = .sleeping ∨ (s.table.proc p).state = .zombie) ∧
        (t.table.proc p).state ≠ .running)) : Placed t := by
  -- a state that is neither asleep nor a zombie is kept
  have kept : ∀ p, (s.table.proc p).state ≠ .sleeping → (s.table.proc p).state ≠ .zombie →
      (t.table.proc p).state = (s.table.proc p).state ∧
        (t.table.proc p).context = (s.table.proc p).context := by
    intro p awake alive
    rcases each p with same | ⟨asleep | exited, _⟩
    · exact same
    · exact absurd asleep awake
    · exact absurd exited alive
  refine ⟨?_, ?_, ?_, ?_, ?_, ?_⟩
  · intro c p on
    have running := placed.current c p (cpu ▸ on)
    exact (kept p (by simp [running]) (by simp [running])).1.trans running
  · intro c d p on also
    exact placed.exclusive c d p (cpu ▸ on) (cpu ▸ also)
  · intro p running
    rcases each p with ⟨same, _⟩ | ⟨_, notRunning⟩
    · exact cpu ▸ placed.somewhere p (same ▸ running)
    · exact absurd running notRunning
  · intro owner child isChild
    have embryo := placed.pending owner child (thread ▸ isChild)
    exact (kept child (by simp [embryo]) (by simp [embryo])).1.trans embryo
  · rw [thread]
    exact placed.apart
  · intro p inFork
    rcases placed.busy p (thread ▸ inFork) with running | ⟨runnable, context⟩
    · exact .inl ((kept p (by simp [running]) (by simp [running])).1.trans running)
    · obtain ⟨state, saved⟩ := kept p (by simp [runnable]) (by simp [runnable])
      exact .inr ⟨state.trans runnable, saved.trans context⟩

theorem setLinks {table : Table C n} (placed : Placed (s.setTable table)) (links : Links (ListHead n)) :
    Placed (s.setTable (table.setLinks links)) :=
  ⟨placed.current, placed.exclusive, placed.somewhere, placed.pending, placed.apart, placed.busy⟩

theorem cleared {table : Table C n} (placed : Placed (s.setTable table)) (p : Fin n) :
    Placed (s.setTable (table.setProc p { table.proc p with chan := 0 })) := by
  refine placed.idle rfl rfl fun q => .inl ?_
  by_cases same : q = p
  · subst same
    simp [Kernel.setTable]
  · simp [Kernel.setTable, same]

theorem woken (placed : Placed s) (chan : UInt64) : Placed (s.setTable (s.table.wake chan)) := by
  refine placed.idle rfl rfl fun p => ?_
  by_cases hit : (s.table.proc p).chan = chan ∧ (s.table.proc p).state = .sleeping
  · exact .inr ⟨.inl hit.2, by simp [Kernel.setTable, Table.wake, Process.woken, hit]⟩
  · exact .inl (by simp [Kernel.setTable, Table.wake, Process.woken, hit])

theorem adopted (placed : Placed s) (addr : Fin n → UInt64) (p : Fin n) (rest : List (Fin n)) :
    Placed (s.setTable (s.table.setProcs (s.table.adopted addr p rest))) := by
  refine placed.idle rfl rfl fun q => ?_
  simp only [Kernel.setTable, Table.setProcs_proc, Table.adopted]
  by_cases hit : (s.table.proc q).chan = channel addr s.table.initproc ∧ (s.table.proc q).state = .sleeping
  · right
    refine ⟨.inl hit.2, ?_⟩
    split <;> split <;> simp [Process.woken, hit]
  · left
    split <;> split <;> simp [Process.woken, hit]

variable [DecidableEq C]

theorem leave (placed : Placed s) {c : C} {p : Fin n} {x : Proc n} (on : s.table.cpu c = some p)
    (notRunning : x.state ≠ .running)
    (settled : s.thread (some p) = .free ∨ (x.state = .runnable ∧ x.context = .yield)) :
    Placed (s.setTable (s.table.leave c p x)) := by
  have running := placed.current c p on
  refine ⟨?_, ?_, ?_, ?_, placed.apart, ?_⟩
  · intro d q onD
    simp only [Kernel.setTable, Table.leave, Function.update_apply, Option.ite_none_left_eq_some] at onD
    have other : q ≠ p := by
      rintro rfl
      exact onD.1 (placed.exclusive d c q onD.2 on)
    simpa [Kernel.setTable, Table.leave, other] using placed.current d q onD.2
  · intro d e q onD onE
    simp only [Kernel.setTable, Table.leave, Function.update_apply, Option.ite_none_left_eq_some] at onD onE
    exact placed.exclusive d e q onD.2 onE.2
  · intro q runs
    by_cases same : q = p
    · subst same
      simp [Kernel.setTable, Table.leave, notRunning] at runs
    · simp only [Kernel.setTable, Table.leave, Table.setProc_proc, if_neg same] at runs
      obtain ⟨d, onD⟩ := placed.somewhere q runs
      have otherCpu : d ≠ c := by
        rintro rfl
        exact same (Option.some.inj (onD.symm.trans on))
      exact ⟨d, by simpa [Kernel.setTable, Table.leave, otherCpu] using onD⟩
  · intro owner child isChild
    have embryo := placed.pending owner child isChild
    have other : child ≠ p := by
      rintro rfl
      simp [running] at embryo
    simpa [Kernel.setTable, Table.leave, other] using embryo
  · intro q inFork
    by_cases same : q = p
    · subst same
      rcases settled with free | ready
      · exact absurd free inFork
      · simpa [Kernel.setTable, Table.leave] using Or.inr ready
    · simpa [Kernel.setTable, Table.leave, same] using placed.busy q inFork

theorem picked (placed : Placed s) {c : C} {p : Fin n} (idle : s.table.cpu c = none)
    (runnable : (s.table.proc p).state = .runnable) : Placed (s.setTable (s.table.picked c p)) := by
  have nowhere : ∀ d, s.table.cpu d ≠ some p := by
    intro d on
    simp [placed.current d p on] at runnable
  refine ⟨?_, ?_, ?_, ?_, placed.apart, ?_⟩
  · intro d q onD
    by_cases same : q = p
    · simp [Kernel.setTable, Table.picked, same]
    · by_cases sameCpu : d = c
      · simp [Kernel.setTable, Table.picked, sameCpu] at onD
        exact absurd onD.symm same
      · simp only [Kernel.setTable, Table.picked, Function.update_of_ne sameCpu] at onD
        simpa [Kernel.setTable, Table.picked, same] using placed.current d q onD
  · intro d e q onD onE
    simp only [Kernel.setTable, Table.picked, Function.update_apply] at onD onE
    split at onD <;> split at onE
    · simp_all
    · exact absurd onE (Option.some.inj onD ▸ nowhere e)
    · exact absurd onD (Option.some.inj onE ▸ nowhere d)
    · exact placed.exclusive d e q onD onE
  · intro q runs
    by_cases same : q = p
    · exact ⟨c, by simp [Kernel.setTable, Table.picked, same]⟩
    · simp only [Kernel.setTable, Table.picked, Table.setProc_proc, if_neg same] at runs
      obtain ⟨d, onD⟩ := placed.somewhere q runs
      have otherCpu : d ≠ c := by
        rintro rfl
        simp [idle] at onD
      exact ⟨d, by simpa [Kernel.setTable, Table.picked, otherCpu] using onD⟩
  · intro owner child isChild
    have embryo := placed.pending owner child isChild
    have other : child ≠ p := by
      rintro rfl
      simp [runnable] at embryo
    simpa [Kernel.setTable, Table.picked, other] using embryo
  · intro q inFork
    by_cases same : q = p
    · simp [Kernel.setTable, Table.picked, same]
    · simpa [Kernel.setTable, Table.picked, same] using placed.busy q inFork

omit [DecidableEq C] in
theorem started {owner : Option (Fin n)} (placed : Placed s)
    (active : ∀ par, owner = some par → (s.table.proc par).state = .running) (start : Started owner s t) :
    Placed t := by
  obtain ⟨_, child, kstack, links, unused, rfl⟩ := start
  have other : ∀ q, (s.table.proc q).state ≠ .unused → q ≠ child := by
    rintro q used rfl
    exact used unused
  have thread : ∀ o, o ≠ owner → Function.update s.thread owner (.allocated child) o = s.thread o :=
    fun o different => Function.update_of_ne different _ _
  refine ⟨?_, placed.exclusive, ?_, ?_, ?_, ?_⟩
  · intro c q on
    have running := placed.current c q on
    simpa [Table.allocated, other q (by simp [running])] using running
  · intro q runs
    by_cases same : q = child
    · simp [Table.allocated, same] at runs
    · exact placed.somewhere q (by simpa [Table.allocated, same] using runs)
  · intro o q isChild
    by_cases same : o = owner
    · subst same
      simp [Thread.child] at isChild
      simp [Table.allocated, isChild]
    · have embryo := placed.pending o q (thread o same ▸ isChild)
      simpa [Table.allocated, other q (by simp [embryo])] using embryo
  · -- the new child was unused, so it is no other thread's
    have notOld : ∀ o, o ≠ owner → (s.thread o).child ≠ some child := by
      intro o _ isChild
      have embryo := placed.pending o child isChild
      simp [unused] at embryo
    intro o o' q first second
    by_cases same : o = owner <;> by_cases same' : o' = owner
    · rw [same, same']
    · subst same
      simp only [Function.update_self, Thread.child, Option.some.injEq] at first
      exact absurd (first ▸ thread o' same' ▸ second) (notOld o' same')
    · subst same'
      simp only [Function.update_self, Thread.child, Option.some.injEq] at second
      exact absurd (second ▸ thread o same ▸ first) (notOld o same)
    · exact placed.apart o o' q (thread o same ▸ first) (thread o' same' ▸ second)
  · intro q inFork
    have live : (s.table.proc q).state = .running ∨
        ((s.table.proc q).state = .runnable ∧ (s.table.proc q).context = .yield) := by
      by_cases same : some q = owner
      · exact .inl (active q same.symm)
      · exact placed.busy q (thread (some q) same ▸ inFork)
    have used : (s.table.proc q).state ≠ .unused := by
      rcases live with running | ⟨runnable, _⟩
      · simp [running]
      · simp [runnable]
    simpa [Table.allocated, other q used] using live

omit [DecidableEq C] in
theorem filled {owner : Option (Fin n)} {child : Fin n} (placed : Placed s)
    (busy : s.thread owner = .allocated child) (cpu : t.table.cpu = s.table.cpu)
    (states : ∀ p, (t.table.proc p).state = (s.table.proc p).state ∧
      (t.table.proc p).context = (s.table.proc p).context)
    (thread : t.thread = Function.update s.thread owner (.copied child)) : Placed t := by
  have children : ∀ o, (t.thread o).child = (s.thread o).child := by
    intro o
    rw [thread]
    by_cases same : o = owner
    · simp [same, busy, Thread.child]
    · rw [Function.update_of_ne same]
  refine ⟨?_, ?_, ?_, ?_, ?_, ?_⟩
  · intro c p on
    exact (states p).1.trans (placed.current c p (cpu ▸ on))
  · rw [cpu]
    exact placed.exclusive
  · intro p running
    exact cpu ▸ placed.somewhere p ((states p).1 ▸ running)
  · intro o p isChild
    exact (states p).1.trans (placed.pending o p (children o ▸ isChild))
  · intro o o' p first second
    exact placed.apart o o' p (children o ▸ first) (children o' ▸ second)
  · intro p inFork
    rw [(states p).1, (states p).2]
    refine placed.busy p fun free => inFork ?_
    rw [thread, Function.update_of_ne, free]
    rintro rfl
    simp [busy] at free

omit [DecidableEq C] in
theorem readied {owner : Option (Fin n)} (placed : Placed s) (ready : Readied owner s t) : Placed t := by
  obtain ⟨child, prio, links, busy, rfl⟩ := ready
  have isChild : (s.thread owner).child = some child := by rw [busy]; rfl
  have embryo := placed.pending owner child isChild
  refine ⟨?_, placed.exclusive, ?_, ?_, ?_, ?_⟩
  · intro c q on
    have running := placed.current c q on
    have other : q ≠ child := by
      rintro rfl
      simp [running] at embryo
    simpa [other] using running
  · intro q runs
    by_cases same : q = child
    · simp [same] at runs
    · exact placed.somewhere q (by simpa [same] using runs)
  · intro o q isChild'
    by_cases same : o = owner
    · simp [same, Thread.child] at isChild'
    · simp only [Function.update_of_ne same] at isChild'
      have other : q ≠ child := by
        rintro rfl
        exact same (placed.apart o owner q isChild' isChild)
      simpa [other] using placed.pending o q isChild'
  · intro o o' q first second
    by_cases same : o = owner
    · simp [same, Thread.child] at first
    · by_cases same' : o' = owner
      · simp [same', Thread.child] at second
      · simp only [Function.update_of_ne same, Function.update_of_ne same'] at first second
        exact placed.apart o o' q first second
  · intro q inFork
    by_cases same : some q = owner
    · simp [same] at inFork
    · simp only [Function.update_of_ne same] at inFork
      have live := placed.busy q inFork
      have other : q ≠ child := by
        rintro rfl
        simp [embryo] at live
      simpa [other] using live

end Placed

/-! ## Steps and runs -/

variable [DecidableEq C] {addr : Fin n → UInt64} {s t : Kernel C n}

theorem WaitTurn.placed {c : C} {p : Fin n} {before after : Table C n} {result : WaitEnd n}
    (turn : WaitTurn addr c p before after result) (placed : Placed (s.setTable before))
    (on : before.cpu c = some p) (free : s.thread (some p) = .free) : Placed (s.setTable after) := by
  cases turn with
  | reaped q child zombie =>
    refine placed.idle rfl rfl fun a => ?_
    by_cases same : a = q
    · subst same
      exact .inr ⟨.inr zombie, by simp [Kernel.setTable, cleanproc]⟩
    · exact .inl (by simp [Kernel.setTable, cleanproc, same])
  | childless none => exact placed
  | blocked none => exact placed.leave (s := s.setTable before) on (by simp) (.inl free)

theorem Moves.placed {a : Action C} {e : Option (Fin n × WaitEnd n)} (placed : Placed s)
    (moves : Moves addr s a t e) :
    Placed t := by
  cases moves with
  | userInit started => exact placed.started (by simp) started
  | userCopy thread =>
    refine placed.filled thread rfl (fun p => ?_) rfl
    simp only [Table.setProc_proc]
    split
    · simp_all
    · simp
  | userReady readied => exact placed.readied readied
  | fork on started =>
    refine placed.started ?_ started
    rintro _ ⟨⟩
    exact placed.current _ _ on
  | forkCopy on thread =>
    refine placed.filled thread rfl (fun p => ?_) rfl
    simp only [Table.setProc_proc]
    split
    · simp_all
    · simp
  | forkReady on readied => exact placed.readied readied
  | schedulerIdle idle => exact placed
  | @scheduler c p table result links links' idle runnable resumes =>
    have picked : Placed (s.setTable ((s.table.picked c p).setLinks links)) :=
      (placed.picked idle runnable).setLinks links
    refine Placed.setLinks ?_ links'
    cases resumes with
    | released context => exact picked
    | slept context => exact picked.cleared p
    | waited context turn =>
      have saved : (s.table.proc p).context = .wait := by simpa [Table.picked] using context
      have free : s.thread (some p) = .free := by
        -- a process in `fork` would have been preempted, and this one sleeps in `wait`
        by_contra inFork
        rcases placed.busy p inFork with running | ⟨_, preempted⟩
        · simp [runnable] at running
        · simp [saved] at preempted
      have here : ((s.table.picked c p).setLinks links).cpu c = some p := Function.update_self c _ _
      exact turn.placed (picked.cleared p) here free
  | yield links on => exact (placed.leave on (by simp) (.inr (by simp))).setLinks links
  | sleep links on free => exact (placed.leave on (by simp) (.inl free)).setLinks links
  | wakeup links => exact (placed.woken _).setLinks links
  | @exit c p links on free =>
    have woke := placed.woken (channel addr (s.table.proc p).parent)
    have handed := woke.adopted addr p (List.finRange n)
    exact (handed.leave on (by simp) (.inl free)).setLinks links
  | wait links on free turn => exact (turn.placed (s := s) placed on free).setLinks links

structure Consistent (s : Kernel C n) : Prop where
  ordered : s.table.Ordered
  placed : Placed s

omit [DecidableEq C] in
theorem Consistent.sound (consistent : Consistent s) : Sound s where
  ordered := consistent.ordered
  current := consistent.placed.current
  copied owner child thread := consistent.placed.pending owner child (by rw [thread]; rfl)

theorem Consistent.perform {a : Action C} {e : Option (Fin n × WaitEnd n)} (consistent : Consistent s)
    (performed : perform addr a s = some (t, e)) : Moves addr s a t e ∧ Consistent t := by
  obtain ⟨moves, ordered⟩ := perform_moves consistent.sound performed
  exact ⟨moves, ordered, moves.placed consistent.placed⟩

theorem Consistent.step {a : Action C} (consistent : Consistent s) (stepped : step addr a s = some t) :
    Consistent t := by
  obtain ⟨⟨u, e⟩, performed, rfl⟩ := Option.map_eq_some_iff.mp stepped
  exact (consistent.perform performed).2

/-- The state of a machine on which no process has been made: every list head is
linked to itself, every slot is unused and no CPU runs a process. -/
structure Boot (s : Kernel C n) : Prop where
  prioque : ∀ i, s.table.links.Linked (.prioque i) (.prioque i)
  hashmp : ∀ entry, s.table.links.Linked (.hashmp entry) (.hashmp entry)
  unused : ∀ p, (s.table.proc p).state = .unused
  orphan : ∀ p, (s.table.proc p).parent = none
  cpu : ∀ c, s.table.cpu c = none
  initproc : s.table.initproc = none
  thread : ∀ owner, s.thread owner = .free

omit [DecidableEq C] in
theorem Boot.consistent (boot : Boot s) : Consistent s where
  ordered := by
    refine ⟨fun _ => [], ⟨⟨fun q => ⟨by simp, ?_⟩, ?_⟩, ?_⟩⟩
    · cases q with
      | prioque i => simpa [Queue.head] using boot.prioque i
      | hashmp entry => simpa [Queue.head] using boot.hashmp entry
    · intro q r different
      simpa using fun same => different (Queue.head_injective same).symm
    · intro q p
      simp [Table.homes, Proc.home, boot.unused p]
  placed := by
    refine ⟨?_, ?_, ?_, ?_, ?_, ?_⟩
    · simp [boot.cpu]
    · simp [boot.cpu]
    · simp [boot.unused]
    · simp [boot.thread, Thread.child]
    · simp [boot.thread, Thread.child]
    · simp [boot.thread]

/-- The lists are well-formed rings; a process is linked through `plist` in the queue
of its priority exactly when it is runnable, through `clist` in the bucket of its
channel exactly when it sleeps, once and in no other list; and a running process is
the process of exactly one CPU. -/
def Table.Reflected (s : Table C n) : Prop :=
  (∃ (prioque : Fin prioentries → List (Fin n)) (hashmp : Fin hashentries → List (Fin n)),
    (∀ i, Ring s.links (.prioque i) ((prioque i).map .plist)) ∧
    (∀ entry, Ring s.links (.hashmp entry) ((hashmp entry).map .clist)) ∧
    (∀ i p, p ∈ prioque i ↔ (s.proc p).state = .runnable ∧ (s.proc p).prio = i) ∧
    (∀ entry p, p ∈ hashmp entry ↔ (s.proc p).state = .sleeping ∧ hashEntry (s.proc p).chan = entry)) ∧
  ∀ p, (s.proc p).state = .running → ∃! c, s.cpu c = some p

theorem queues_reflect_states {acts : List (Action C)} (boot : Boot s)
    (ran : run (Process.step addr) acts s = some t) : t.table.Reflected := by
  have consistent : Consistent t :=
    run_invariant (fun _ _ _ kept stepped => Consistent.step kept stepped) boot.consistent ran
  obtain ⟨⟨queue, queued⟩, placed⟩ := consistent
  refine ⟨⟨fun i => queue (.prioque i), fun entry => queue (.hashmp entry), ?_, ?_, ?_, ?_⟩, ?_⟩
  · exact fun i => queued.rings.ring (.prioque i)
  · exact fun entry => queued.rings.ring (.hashmp entry)
  · exact fun i p => (queued.mem_iff _ p).trans Proc.home_eq_prioque
  · exact fun entry p => (queued.mem_iff _ p).trans Proc.home_eq_hashmp
  · intro p running
    obtain ⟨c, on⟩ := placed.somewhere p running
    exact ⟨c, on, fun d onD => placed.exclusive d c p onD on⟩

/-! ## A run on two CPUs -/

def bootKernel (C : Type) (n : Nat) : Kernel C n where
  table :=
    { proc := fun _ =>
        { sz := 0, kstack := 0, state := .unused, pid := 0, parent := none, context := .forkret, chan := 0,
          killed := 0, prio := ⟨0, by decide⟩ }
      links :=
        { next := fun a => match a with
            | .prioque i => some (.prioque i)
            | .hashmp entry => some (.hashmp entry)
            | .plist _ | .clist _ => none
          prev := fun a => match a with
            | .prioque i => some (.prioque i)
            | .hashmp entry => some (.hashmp entry)
            | .plist _ | .clist _ => none }
      cpu := fun _ => none
      initproc := none
      nextpid := 1 }
  thread := fun _ => .free

omit [DecidableEq C] in
theorem bootKernel_boot (C : Type) (n : Nat) : Boot (bootKernel C n) :=
  ⟨fun _ => ⟨rfl, rfl⟩, fun _ => ⟨rfl, rfl⟩, fun _ => rfl, fun _ => rfl, fun _ => rfl, rfl, fun _ => rfl⟩

def family : List (Action (Fin 2)) :=
  [.userInit (some 4096), .userCopy false, .userReady, .scheduler 0, .fork 0 (some 8192), .forkCopy 0,
    .forkReady 0, .wait 0, .scheduler 1, .sleep 1 40, .wakeup 40, .scheduler 0, .yield 0, .scheduler 1, .exit 1,
    .scheduler 0]

theorem queues_reflect_states_family :
    ∃ t : Kernel (Fin 2) nproc, run (Process.step fun p => 4096 + p.val.toUInt64) family (bootKernel _ _) = some t ∧
      t.table.Reflected := by
  obtain ⟨t, ran⟩ := Option.isSome_iff_exists.mp
    (show (run (Process.step fun p : Fin nproc => 4096 + p.val.toUInt64) family (bootKernel (Fin 2) nproc)).isSome by
      decide +kernel)
  exact ⟨t, ran, queues_reflect_states (bootKernel_boot _ _) ran⟩

def twoProcesses : List (Action Bool) :=
  [.userInit (some 4096), .userCopy false, .userReady, .userInit (some 8192), .userCopy true, .userReady,
    .scheduler false, .scheduler true]

end

end Xv6.Process
