import Xv6.Library.Transition
import Xv6.Process.Sections

/-! Processes on any number of CPUs, interleaved at the sections of `ptablelock`.

An action is one section, or the part of `fork` and `user_init` between their two
sections. Between the actions the lock is free. A CPU with `c->proc` set runs that
process, the others are in the scheduler.
-/

set_option autoImplicit false

namespace Xv6.Process

open Library

def pgsize : UInt64 := 4096

-- How far a kernel thread is in `fork` or `user_init`.
inductive Thread (n : Nat) where
  | free
  /-- `proc_alloc` has returned the child. -/
  | allocated (child : Fin n)
  /-- The fields of the child are filled in. -/
  | copied (child : Fin n)
  deriving DecidableEq

/-- The table, and the kernel thread of every process and of the boot CPU (`none`). -/
structure Kernel (C : Type) (n : Nat) where
  table : Table C n
  thread : Option (Fin n) → Thread n

inductive Action (C : Type) where
  | userInit (kstack : Option UInt64)
  | userCopy (loop : Bool)
  | userReady
  | fork (c : C) (kstack : Option UInt64)
  | forkCopy (c : C)
  | forkReady (c : C)
  | scheduler (c : C)
  | yield (c : C)
  | sleep (c : C) (chan : UInt64)
  | wakeup (chan : UInt64)
  | exit (c : C)
  | wait (c : C)

section
variable {C : Type} [DecidableEq C] {n : Nat}

def Kernel.setTable (s : Kernel C n) (table : Table C n) : Kernel C n := { s with table := table }

-- `proc_alloc` called by a thread; without a slot or a stack both callers panic.
def startChild (owner : Option (Fin n)) (kstack : Option UInt64) (s : Kernel C n) : Option (Kernel C n) :=
  match procAlloc kstack s.table with
  | (_, none) => none
  | (table, some child) => some ⟨table, Function.update s.thread owner (.allocated child)⟩

-- The last section of `fork` and `user_init`, with the child's fields as they are then.
def pushReady (owner : Option (Fin n)) (child : Fin n) (x : Proc n) (s : Kernel C n) : Option (Kernel C n) := do
  let table := s.table.setProc child { x with state := .runnable }
  let links ← listPushBack table.links (.prioque x.prio) (.plist child)
  some ⟨table.setLinks links, Function.update s.thread owner .free⟩

-- An action, with the process whose `wait` took a turn in it and how that ended.
def perform (addr : Fin n → UInt64) (a : Action C) (s : Kernel C n) :
    Option (Kernel C n × Option (Fin n × WaitEnd n)) :=
  match a with
  | .userInit kstack =>
    if s.thread none = .free then (startChild none kstack s).map fun s => (s, none) else none
  | .userCopy loop =>
    match s.thread none with
    | .allocated child =>
      let table := s.table.setProc child { s.table.proc child with sz := pgsize }
      let table := if loop then table else { table with initproc := some child }
      some (⟨table, Function.update s.thread none (.copied child)⟩, none)
    | _ => none
  | .userReady =>
    match s.thread none with
    | .copied child => (pushReady none child (s.table.proc child) s).map fun s => (s, none)
    | _ => none
  | .fork c kstack => do
    let par ← s.table.cpu c
    if s.thread (some par) = .free then (startChild (some par) kstack s).map fun s => (s, none) else none
  | .forkCopy c => do
    let par ← s.table.cpu c
    match s.thread (some par) with
    | .allocated child =>
      let x := { s.table.proc child with parent := some par, sz := (s.table.proc par).sz }
      some (⟨s.table.setProc child x, Function.update s.thread (some par) (.copied child)⟩, none)
    | _ => none
  | .forkReady c => do
    let par ← s.table.cpu c
    match s.thread (some par) with
    | .copied child =>
      let x := { s.table.proc child with prio := (s.table.proc par).prio }
      (pushReady (some par) child x s).map fun s => (s, none)
    | _ => none
  | .scheduler c =>
    if s.table.cpu c = none then (scheduler addr c s.table).map fun (table, e) => (s.setTable table, e) else none
  | .yield c => do
    let p ← s.table.cpu c
    let table ← yield c p s.table
    some (s.setTable table, none)
  | .sleep c chan => do
    let p ← s.table.cpu c
    if s.thread (some p) = .free then
      (sleepOn c p chan .sleep s.table).map fun table => (s.setTable table, none)
    else none
  | .wakeup chan => (wakeup1 chan s.table).map fun table => (s.setTable table, none)
  | .exit c => do
    let p ← s.table.cpu c
    if s.thread (some p) = .free then (exit addr c p s.table).map fun table => (s.setTable table, none) else none
  | .wait c => do
    let p ← s.table.cpu c
    if s.thread (some p) = .free then
      (wait addr c p s.table).map fun (table, e) => (s.setTable table, some (p, e))
    else none

def step (addr : Fin n → UInt64) (a : Action C) (s : Kernel C n) : Option (Kernel C n) :=
  (perform addr a s).map Prod.fst

/-! ## What a step can do -/

-- The slot `p` after `proc_alloc`.
def Table.allocated (p : Fin n) (kstack : UInt64) (s : Table C n) : Table C n :=
  { s.setProc p { s.proc p with
      state := .embryo, pid := s.nextpid, kstack := kstack, context := .forkret, chan := 0,
      prio := initialPrio } with nextpid := s.nextpid + 1 }

/-- A thread starts a child in an unused slot. -/
def Started (owner : Option (Fin n)) (s t : Kernel C n) : Prop :=
  s.thread owner = .free ∧ ∃ child kstack links, (s.table.proc child).state = .unused ∧
    t = ⟨(s.table.allocated child kstack).setLinks links, Function.update s.thread owner (.allocated child)⟩

def Readied (owner : Option (Fin n)) (s t : Kernel C n) : Prop :=
  ∃ child prio links, s.thread owner = .copied child ∧
    t = ⟨(s.table.setProc child { s.table.proc child with state := .runnable, prio := prio }).setLinks links,
      Function.update s.thread owner .free⟩

inductive Resumes (addr : Fin n → UInt64) (c : C) (p : Fin n) (s : Table C n) :
    Table C n → Option (WaitEnd n) → Prop where
  | released (context : (s.proc p).context = .forkret ∨ (s.proc p).context = .yield) : Resumes addr c p s s none
  | slept (context : (s.proc p).context = .sleep) : Resumes addr c p s (s.setProc p { s.proc p with chan := 0 }) none
  | waited {t : Table C n} {result : WaitEnd n} (context : (s.proc p).context = .wait)
      (turn : WaitTurn addr c p (s.setProc p { s.proc p with chan := 0 }) t result) :
      Resumes addr c p s t (some result)

/-- The effect of every action, up to the pointers of the lists. -/
inductive Moves (addr : Fin n → UInt64) (s : Kernel C n) :
    Action C → Kernel C n → Option (Fin n × WaitEnd n) → Prop where
  | userInit {kstack : Option UInt64} {t : Kernel C n} (started : Started none s t) :
      Moves addr s (.userInit kstack) t none
  | userCopy {loop : Bool} {child : Fin n} (thread : s.thread none = .allocated child) :
      Moves addr s (.userCopy loop)
        ⟨{ s.table.setProc child { s.table.proc child with sz := pgsize } with
          initproc := if loop then s.table.initproc else some child },
          Function.update s.thread none (.copied child)⟩ none
  | userReady {t : Kernel C n} (readied : Readied none s t) : Moves addr s .userReady t none
  | fork {c : C} {kstack : Option UInt64} {par : Fin n} {t : Kernel C n} (on : s.table.cpu c = some par)
      (started : Started (some par) s t) : Moves addr s (.fork c kstack) t none
  | forkCopy {c : C} {par child : Fin n} (on : s.table.cpu c = some par)
      (thread : s.thread (some par) = .allocated child) :
      Moves addr s (.forkCopy c)
        ⟨s.table.setProc child { s.table.proc child with parent := some par, sz := (s.table.proc par).sz },
          Function.update s.thread (some par) (.copied child)⟩ none
  | forkReady {c : C} {par : Fin n} {t : Kernel C n} (on : s.table.cpu c = some par)
      (readied : Readied (some par) s t) : Moves addr s (.forkReady c) t none
  | schedulerIdle {c : C} (idle : s.table.cpu c = none) : Moves addr s (.scheduler c) s none
  | scheduler {c : C} {p : Fin n} {t : Table C n} {result : Option (WaitEnd n)} (links links' : Links (ListHead n))
      (idle : s.table.cpu c = none) (runnable : (s.table.proc p).state = .runnable)
      (resumes : Resumes addr c p ((s.table.picked c p).setLinks links) t result) :
      Moves addr s (.scheduler c) (s.setTable (t.setLinks links')) (result.map fun result => (p, result))
  | yield {c : C} {p : Fin n} (links : Links (ListHead n)) (on : s.table.cpu c = some p) :
      Moves addr s (.yield c)
        (s.setTable ((s.table.leave c p { s.table.proc p with
          state := .runnable, context := .yield }).setLinks links)) none
  | sleep {c : C} {p : Fin n} {chan : UInt64} (links : Links (ListHead n)) (on : s.table.cpu c = some p)
      (free : s.thread (some p) = .free) :
      Moves addr s (.sleep c chan)
        (s.setTable ((s.table.leave c p { s.table.proc p with
          chan := chan, state := .sleeping, context := .sleep }).setLinks links)) none
  | wakeup {chan : UInt64} (links : Links (ListHead n)) :
      Moves addr s (.wakeup chan) (s.setTable ((s.table.wake chan).setLinks links)) none
  | exit {c : C} {p : Fin n} (links : Links (ListHead n)) (on : s.table.cpu c = some p)
      (free : s.thread (some p) = .free) :
      Moves addr s (.exit c) (s.setTable ((s.table.exited addr c p).setLinks links)) none
  | wait {c : C} {p : Fin n} {t : Table C n} {result : WaitEnd n} (links : Links (ListHead n))
      (on : s.table.cpu c = some p) (free : s.thread (some p) = .free) (turn : WaitTurn addr c p s.table t result) :
      Moves addr s (.wait c) (s.setTable (t.setLinks links)) (some (p, result))

/-- What the sections need to run without following a bad pointer. -/
structure Sound (s : Kernel C n) : Prop where
  ordered : s.table.Ordered
  current : ∀ c p, s.table.cpu c = some p → (s.table.proc p).state = .running
  copied : ∀ owner child, s.thread owner = .copied child → (s.table.proc child).state = .embryo

omit [DecidableEq C] in
theorem procAlloc_queues {kstack : Option UInt64} {s t : Table C n} {p : Fin n} {queue : Queue → List (Fin n)}
    (queued : Queued s.links s.homes queue) (allocated : procAlloc kstack s = (t, some p)) :
    ∃ stack links, (s.proc p).state = .unused ∧ t = (s.allocated p stack).setLinks links ∧
      Queued t.links t.homes queue := by
  unfold procAlloc at allocated
  split at allocated
  · simp at allocated
  · rename_i q found
    have unused : (s.proc q).state = .unused := by simpa using List.find?_some found
    cases kstack with
    | none => simp at allocated
    | some stack =>
      simp only [Prod.mk.injEq, Option.some.injEq] at allocated
      obtain ⟨isTable, rfl⟩ := allocated
      have homeless : s.homes q = none := Proc.home_eq_none (by simp [unused]) (by simp [unused])
      have same : t = (s.allocated q stack).setLinks t.links := by
        rw [← isTable]
        simp [Table.allocated, Table.setProc, Table.setLinks]
      refine ⟨stack, t.links, unused, same, ?_⟩
      have homes : t.homes = s.homes := by
        rw [same]
        refine (Table.homes_setProc s q _).trans ?_
        rw [show Proc.home _ = s.homes q from homeless ▸ Proc.home_eq_none (by simp) (by simp)]
        exact Function.update_eq_self q s.homes
      rw [homes]
      refine queued.congr homeless fun a notC notP => ?_
      rw [← isTable]
      simp [notC, notP]

omit [DecidableEq C] in
theorem procAlloc_cases {kstack : Option UInt64} {s t : Table C n} {p : Fin n} (ordered : s.Ordered)
    (allocated : procAlloc kstack s = (t, some p)) :
    ∃ stack links, (s.proc p).state = .unused ∧ t = (s.allocated p stack).setLinks links ∧ t.Ordered := by
  obtain ⟨queue, queued⟩ := ordered
  obtain ⟨stack, links, unused, same, queued⟩ := procAlloc_queues queued allocated
  exact ⟨stack, links, unused, same, queue, queued⟩

omit [DecidableEq C] in
theorem startChild_cases {owner : Option (Fin n)} {kstack : Option UInt64} {s t : Kernel C n}
    (ordered : s.table.Ordered) (free : s.thread owner = .free) (started : startChild owner kstack s = some t) :
    Started owner s t ∧ t.table.Ordered := by
  cases found : procAlloc kstack s.table with
  | mk table child =>
    cases child with
    | none => simp [startChild, found] at started
    | some child =>
      obtain ⟨stack, links, unused, rfl, inOrder⟩ := procAlloc_cases ordered found
      simp only [startChild, found, Option.some.injEq] at started
      subst started
      exact ⟨⟨free, child, stack, links, unused, rfl⟩, inOrder⟩

omit [DecidableEq C] in
theorem pushReady_cases {owner : Option (Fin n)} {child : Fin n} {prio : Fin prioentries} {s t : Kernel C n}
    (ordered : s.table.Ordered) (thread : s.thread owner = .copied child)
    (embryo : (s.table.proc child).state = .embryo)
    (readied : pushReady owner child { s.table.proc child with prio := prio } s = some t) :
    Readied owner s t ∧ t.table.Ordered := by
  obtain ⟨queue, queued⟩ := ordered
  obtain ⟨links, pushed, queued⟩ := queued.push (q := .prioque prio)
    (show s.table.homes child = none from Proc.home_eq_none (by simp [embryo]) (by simp [embryo]))
  simp only [pushReady, Table.setProc_links, Option.bind_eq_bind] at readied
  rw [show listPushBack s.table.links (.prioque prio) (.plist child) = some links from pushed] at readied
  cases readied
  have homes : ((s.table.setProc child { s.table.proc child with state := .runnable, prio := prio }).setLinks
      links).homes = Function.update s.table.homes child (some (.prioque prio)) :=
    Table.homes_setProc s.table child _
  exact ⟨⟨child, prio, links, thread, rfl⟩, _, homes ▸ queued⟩

theorem resume_does {s : Table C n} (ordered : s.Ordered) (addr : Fin n → UInt64) (c : C) {p : Fin n}
    (running : (s.proc p).state = .running) :
    ∃ t links result, resume addr c p s = some (t.setLinks links, result) ∧ (t.setLinks links).Ordered ∧
      Resumes addr c p s t result := by
  have woke : (s.setProc p { s.proc p with chan := 0 }).Ordered := ordered.setProc (by
    rw [Proc.home_eq_none (by simp [running]) (by simp [running])]
    exact (Proc.home_eq_none (by simp [running]) (by simp [running])).symm)
  cases context : (s.proc p).context with
  | forkret => exact ⟨s, s.links, none, by rw [resume, context]; rfl, ordered, .released (.inl context)⟩
  | yield => exact ⟨s, s.links, none, by rw [resume, context]; rfl, ordered, .released (.inr context)⟩
  | sleep =>
    exact ⟨s.setProc p { s.proc p with chan := 0 }, s.links, none, by rw [resume, context]; rfl, woke, .slept context⟩
  | wait =>
    obtain ⟨t, links, result, waited, ordered, turn⟩ := wait_does woke addr c
      (show ((s.setProc p { s.proc p with chan := 0 }).proc p).state = .running by simp [running])
    exact ⟨t, links, some result, by rw [resume, context]; simp [waited], ordered, .waited context turn⟩

/-- Every action that is enabled moves the system as `Moves` says and leaves the lists in order. -/
theorem perform_moves {addr : Fin n → UInt64} {a : Action C} {s t : Kernel C n} {e : Option (Fin n × WaitEnd n)}
    (sound : Sound s) (performed : perform addr a s = some (t, e)) : Moves addr s a t e ∧ t.table.Ordered := by
  obtain ⟨ordered, current, copied⟩ := sound
  cases a with
  | userInit kstack =>
    simp only [perform, Option.ite_none_right_eq_some, Option.map_eq_some_iff, Prod.mk.injEq] at performed
    obtain ⟨free, _, started, rfl, rfl⟩ := performed
    obtain ⟨started, inOrder⟩ := startChild_cases ordered free started
    exact ⟨.userInit started, inOrder⟩
  | userCopy loop =>
    simp only [perform] at performed
    cases thread : s.thread none with
    | allocated child =>
      simp only [thread, Option.some.injEq, Prod.mk.injEq] at performed
      obtain ⟨rfl, rfl⟩ := performed
      have inOrder : (s.table.setProc child { s.table.proc child with sz := pgsize }).Ordered := ordered.setProc rfl
      have move : Moves addr s (.userCopy loop) _ none := .userCopy thread
      cases loop with
      | false => exact ⟨move, inOrder.congr rfl rfl⟩
      | true => exact ⟨move, inOrder⟩
    | free => simp [thread] at performed
    | copied child => simp [thread] at performed
  | userReady =>
    simp only [perform] at performed
    cases thread : s.thread none with
    | copied child =>
      simp only [thread, Option.map_eq_some_iff, Prod.mk.injEq] at performed
      obtain ⟨_, readied, rfl, rfl⟩ := performed
      obtain ⟨readied, inOrder⟩ := pushReady_cases ordered thread (copied none child thread) readied
      exact ⟨.userReady readied, inOrder⟩
    | free => simp [thread] at performed
    | allocated child => simp [thread] at performed
  | fork c kstack =>
    simp only [perform, Option.bind_eq_bind, Option.bind_eq_some_iff, Option.ite_none_right_eq_some,
      Option.map_eq_some_iff, Prod.mk.injEq] at performed
    obtain ⟨par, on, free, _, started, rfl, rfl⟩ := performed
    obtain ⟨started, inOrder⟩ := startChild_cases ordered free started
    exact ⟨.fork on started, inOrder⟩
  | forkCopy c =>
    simp only [perform, Option.bind_eq_bind, Option.bind_eq_some_iff] at performed
    obtain ⟨par, on, performed⟩ := performed
    cases thread : s.thread (some par) with
    | allocated child =>
      simp only [thread, Option.some.injEq, Prod.mk.injEq] at performed
      obtain ⟨rfl, rfl⟩ := performed
      exact ⟨.forkCopy on thread, ordered.setProc rfl⟩
    | free => simp [thread] at performed
    | copied child => simp [thread] at performed
  | forkReady c =>
    simp only [perform, Option.bind_eq_bind, Option.bind_eq_some_iff] at performed
    obtain ⟨par, on, performed⟩ := performed
    cases thread : s.thread (some par) with
    | copied child =>
      simp only [thread, Option.map_eq_some_iff, Prod.mk.injEq] at performed
      obtain ⟨_, readied, rfl, rfl⟩ := performed
      obtain ⟨readied, inOrder⟩ := pushReady_cases ordered thread (copied (some par) child thread) readied
      exact ⟨.forkReady on readied, inOrder⟩
    | free => simp [thread] at performed
    | allocated child => simp [thread] at performed
  | scheduler c =>
    simp only [perform, Option.ite_none_right_eq_some, Option.map_eq_some_iff] at performed
    obtain ⟨idle, ⟨table, e⟩, scheduled, same⟩ := performed
    obtain ⟨rfl, rfl⟩ := Prod.mk.inj same
    obtain ⟨found, picked, isRunnable⟩ := pick_returns ordered (List.finRange prioentries).reverse
    simp only [scheduler, picked, Option.bind_eq_bind, Option.bind_some] at scheduled
    cases found with
    | none =>
      cases scheduled
      exact ⟨.schedulerIdle idle, ordered⟩
    | some p =>
      obtain ⟨links, deleted, inOrder⟩ := picked_does ordered c (isRunnable p rfl)
      obtain ⟨t, links', result, resumed, final, resumes⟩ := resume_does inOrder addr c (p := p)
        (by simp [Table.picked])
      simp only [Table.setProc_links, deleted, Option.bind_some] at scheduled
      change ((resume addr c p ((s.table.picked c p).setLinks links)).bind _) = _ at scheduled
      rw [resumed] at scheduled
      cases scheduled
      exact ⟨.scheduler links links' idle (isRunnable p rfl) resumes, final⟩
  | yield c =>
    simp only [perform, Option.bind_eq_bind, Option.bind_eq_some_iff] at performed
    obtain ⟨p, on, table, yielded, same⟩ := performed
    obtain ⟨links, does, inOrder⟩ := yield_does ordered c (current c p on)
    cases does.symm.trans yielded
    cases same
    exact ⟨.yield links on, inOrder⟩
  | sleep c chan =>
    simp only [perform, Option.bind_eq_bind, Option.bind_eq_some_iff, Option.ite_none_right_eq_some,
      Option.map_eq_some_iff] at performed
    obtain ⟨p, on, free, table, slept, same⟩ := performed
    obtain ⟨links, does, inOrder⟩ := sleepOn_does ordered c (current c p on) chan .sleep
    cases does.symm.trans slept
    cases same
    exact ⟨.sleep links on free, inOrder⟩
  | wakeup chan =>
    simp only [perform, Option.map_eq_some_iff] at performed
    obtain ⟨table, woke, same⟩ := performed
    obtain ⟨links, does, inOrder⟩ := wakeup1_does ordered chan
    cases does.symm.trans woke
    cases same
    exact ⟨.wakeup links, inOrder⟩
  | exit c =>
    simp only [perform, Option.bind_eq_bind, Option.bind_eq_some_iff, Option.ite_none_right_eq_some,
      Option.map_eq_some_iff] at performed
    obtain ⟨p, on, free, table, exited, same⟩ := performed
    obtain ⟨links, does, inOrder⟩ := exit_does ordered addr c (current c p on)
    cases does.symm.trans exited
    cases same
    exact ⟨.exit links on free, inOrder⟩
  | wait c =>
    simp only [perform, Option.bind_eq_bind, Option.bind_eq_some_iff, Option.ite_none_right_eq_some,
      Option.map_eq_some_iff] at performed
    obtain ⟨p, on, free, ⟨table, result⟩, waited, same⟩ := performed
    obtain ⟨t', links, result', does, inOrder, turn⟩ := wait_does ordered addr c (current c p on)
    cases does.symm.trans waited
    cases same
    exact ⟨.wait links on free turn, inOrder⟩

end

end Xv6.Process
