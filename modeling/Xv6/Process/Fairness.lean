import Xv6.Library.Observation
import Xv6.Process.Wakeup

/-! The order in which processes get a CPU.

No process gets another priority than the one of `proc_alloc`, so one queue holds all that can
run. A turn of any scheduler takes its front, and every other section leaves it in place or
puts processes behind it, so that nobody can be passed over.
-/

set_option autoImplicit false

namespace Xv6.Process

open Library

section
variable {C : Type} {n : Nat}

/-! ## Priorities -/

-- A slot in use has the priority that `proc_alloc` gives.
def Proc.Level (x : Proc n) : Prop := x.state ≠ .unused → x.prio = initialPrio

def Table.Level (s : Table C n) : Prop := ∀ p, (s.proc p).Level

theorem Proc.Level.congr {x y : Proc n} (level : x.Level) (prio : y.prio = x.prio)
    (used : x.state ≠ .unused) : y.Level := fun _ => prio.trans (level used)

theorem woken_level {chan : UInt64} {x : Proc n} (level : x.Level) : (woken chan x).Level := by
  unfold woken
  split
  · rename_i asleep
    exact level.congr rfl (by simp [asleep.2])
  · exact level

theorem Table.Level.setProc {s : Table C n} (level : s.Level) (p : Fin n) {x : Proc n} (here : x.Level) :
    (s.setProc p x).Level := by
  intro q
  by_cases same : q = p
  · subst same
    simpa using here
  · simpa [same] using level q

section
variable [DecidableEq C] {addr : Fin n → UInt64} {s t : Kernel C n}

theorem exited_level {table : Table C n} (level : table.Level) (c : C) {p : Fin n}
    (running : (table.proc p).state = .running) : (table.exited addr c p).Level := by
  intro q
  by_cases self : q = p
  · subst self
    have result : (table.exited addr c q).proc q =
        { (table.wake (channel addr (table.proc q).parent)).adopted addr q (List.finRange n) q with
          state := .zombie } := if_pos rfl
    have asRunning : woken (channel addr (table.proc q).parent) (table.proc q) = table.proc q := woken_running running
    have asRunning' : woken (channel addr table.initproc) (table.proc q) = table.proc q := woken_running running
    rw [result, adopted_eq]
    apply (level q).congr _ (by simp [running])
    simp only [Table.wake, Table.setProcs_proc, Table.setProcs_initproc, asRunning, asRunning', ite_self]
  · rw [exited_other table c self]
    split
    · exact woken_level (woken_level (level q))
    · exact woken_level (level q)

theorem WaitTurn.level {c : C} {p : Fin n} {before after : Table C n} {result : WaitEnd n}
    (turn : WaitTurn addr c p before after result) (running : (before.proc p).state = .running)
    (level : before.Level) : after.Level := by
  cases turn with
  | reaped q child zombie => exact level.setProc q fun used => absurd rfl used
  | childless none => exact level
  | blocked none =>
    have left := (level p).congr (y := { before.proc p with chan := addr p, state := .sleeping, context := .wait })
      rfl (by simp [running])
    exact level.setProc p left

theorem Resumes.level {c : C} {p : Fin n} {before after : Table C n} {result : Option (WaitEnd n)}
    (resumes : Resumes addr c p before after result) (running : (before.proc p).state = .running)
    (level : before.Level) : after.Level := by
  have awake := level.setProc p ((level p).congr (y := { before.proc p with chan := 0 }) rfl (by simp [running]))
  cases resumes with
  | released context => exact level
  | slept context => exact awake
  | waited context turn => exact turn.level (by simp [running]) awake

omit [DecidableEq C] in
theorem Started.level {owner : Option (Fin n)} (started : Started owner s t) (level : s.table.Level) :
    t.table.Level := by
  obtain ⟨_, child, kstack, links, _, rfl⟩ := started
  exact level.setProc child fun _ => rfl

omit [DecidableEq C] in
theorem pushReady_level {owner : Option (Fin n)} {child : Fin n} {x : Proc n} (level : s.table.Level)
    (prio : x.prio = initialPrio) (ran : pushReady owner child x s = some t) : t.table.Level := by
  obtain ⟨links, _, same⟩ := Option.bind_eq_some_iff.mp ran
  cases same
  exact level.setProc child fun _ => prio

theorem perform_level {a : Action C} {e : Option (Fin n × WaitEnd n)} (consistent : Consistent s)
    (level : s.table.Level) (performed : perform addr a s = some (t, e)) : t.table.Level := by
  have placed := consistent.placed
  have moves := (consistent.perform performed).1
  cases moves with
  | userInit started => exact started.level level
  | @userCopy loop child thread =>
    have embryo := placed.pending none child (by rw [thread]; rfl)
    exact level.setProc child ((level child).congr rfl (by simp [embryo]))
  | userReady readied =>
    obtain ⟨child, _, _, thread, _⟩ := readied
    have embryo := placed.pending none child (by rw [thread]; rfl)
    simp only [perform, thread] at performed
    obtain ⟨u, ready, pair⟩ := Option.map_eq_some_iff.mp performed
    cases pair
    exact pushReady_level level (level child (by simp [embryo])) ready
  | fork on started => exact started.level level
  | @forkCopy c par child on thread =>
    have embryo := placed.pending (some par) child (by rw [thread]; rfl)
    exact level.setProc child ((level child).congr rfl (by simp [embryo]))
  | @forkReady c par _ on readied =>
    obtain ⟨child, _, _, thread, _⟩ := readied
    have running := placed.current c par on
    simp only [perform, on, thread, Option.bind_eq_bind, Option.bind_some] at performed
    obtain ⟨u, ready, pair⟩ := Option.map_eq_some_iff.mp performed
    cases pair
    -- the child takes over the priority of its parent
    have prio := level par (by simp [running])
    exact pushReady_level level (by exact prio) ready
  | schedulerIdle idle => exact level
  | @scheduler c p table result links links' idle runnable resumes =>
    have picked := level.setProc p
      ((level p).congr (y := { s.table.proc p with state := .running }) rfl (by simp [runnable]))
    exact resumes.level (by simp [Table.picked]) picked
  | @yield c p links on =>
    have running := placed.current c p on
    exact level.setProc p ((level p).congr rfl (by simp [running]))
  | @sleep c p chan links on free =>
    have running := placed.current c p on
    exact level.setProc p ((level p).congr rfl (by simp [running]))
  | wakeup links => exact fun p => woken_level (level p)
  | @exit c p links on free => exact exited_level level c (placed.current c p on)
  | @wait c p table result links on free turn => exact turn.level (placed.current c p on) level

end

/-! ## What a section does to the queues -/

def Grows (queue queue' : Queue → List (Fin n)) : Prop := ∀ i, queue (.prioque i) <+: queue' (.prioque i)

section
variable {s t : Table C n} {queue queue' queue'' : Queue → List (Fin n)}

theorem Grows.refl (queue : Queue → List (Fin n)) : Grows queue queue := fun _ => List.prefix_rfl

theorem Grows.trans (first : Grows queue queue') (second : Grows queue' queue'') : Grows queue queue'' :=
  fun i => (first i).trans (second i)

theorem grows_pushed (queue : Queue → List (Fin n)) (q : Queue) (p : Fin n) :
    Grows queue (Function.update queue q (queue q ++ [p])) := by
  intro i
  by_cases same : .prioque i = q
  · rw [← same, Function.update_self]
    exact List.prefix_append ..
  · rw [Function.update_of_ne same]

theorem wakeup1_grows {chan : UInt64} (queued : Queued s.links s.homes queue) (ran : wakeup1 chan s = some t) :
    Leaves (Grows queue) t := by
  obtain ⟨links, woke, after⟩ := wakeup1_queues queued chan
  cases woke.symm.trans ran
  exact ⟨_, after, fun i => List.prefix_append ..⟩

theorem reparent_grows {addr : Fin n → UInt64} {p : Fin n} {rest : List (Fin n)}
    (queued : Queued s.links s.homes queue) (ran : reparent addr p rest s = some t) : Leaves (Grows queue) t := by
  -- on the processes ahead of the loop
  induction rest generalizing s queue with
  | nil =>
    cases ran
    exact ⟨queue, queued, Grows.refl queue⟩
  | cons pc rest ih =>
    by_cases child : (s.proc pc).parent = some p
    · rw [reparent, if_pos child] at ran
      have moved : Queued (s.setProc pc { s.proc pc with parent := s.initproc }).links
          (s.setProc pc { s.proc pc with parent := s.initproc }).homes queue := by
        rw [homes_congr (by rfl)]
        exact queued
      by_cases zombie : ((s.setProc pc { s.proc pc with parent := s.initproc }).proc pc).state = .zombie
      · obtain ⟨u, woke, ran⟩ := Option.bind_eq_some_iff.mp ((if_pos zombie).symm.trans ran)
        obtain ⟨queue', after, first⟩ := wakeup1_grows moved woke
        obtain ⟨queue'', final, second⟩ := ih after ran
        exact ⟨queue'', final, first.trans second⟩
      · exact ih moved ((if_neg zombie).symm.trans ran)
    · rw [reparent, if_neg child] at ran
      exact ih queued ran

theorem pick_head (queued : Queued s.links s.homes queue) (order : List (Fin prioentries)) :
    pick s order = some (order.flatMap fun i => queue (.prioque i)).head? := by
  induction order with
  | nil => rfl
  | cons i rest ih =>
    have front : s.links.next (.prioque i) = some (((queue (.prioque i)).map .plist).headD (.prioque i)) :=
      (queued.rings.ring (.prioque i)).next_head
    rw [List.flatMap_cons]
    cases waiting : queue (.prioque i) with
    | nil =>
      have empty : listEmpty s.links (.prioque i) = true := by simp [listEmpty, front, waiting]
      rw [pick, if_pos empty, List.nil_append]
      exact ih
    | cons p ps =>
      have first : s.links.next (.prioque i) = some (.plist p) := by simp [front, waiting]
      simp [pick, listEmpty, listFront, first]

theorem Table.Level.queue_empty (level : s.Level) (queued : Queued s.links s.homes queue) {i : Fin prioentries}
    (other : i ≠ initialPrio) : queue (.prioque i) = [] := by
  apply List.eq_nil_iff_forall_not_mem.mpr
  intro p member
  obtain ⟨runnable, prio⟩ := Proc.home_eq_prioque.mp ((queued.mem_iff _ p).mp member)
  have prio' := level p (by simp [runnable])
  exact other (prio.symm.trans prio')

theorem Table.Level.pick (level : s.Level) (queued : Queued s.links s.homes queue) :
    Process.pick s (List.finRange prioentries).reverse = some (queue (.prioque initialPrio)).head? := by
  have empty : ∀ i : Fin prioentries, i ≠ initialPrio → queue (.prioque i) = [] :=
    fun i other => level.queue_empty queued other
  have order : (List.finRange prioentries).reverse = [initialPrio, 2, 1, 0] := by decide
  rw [pick_head queued, order]
  simp [empty 2 (by decide), empty 1 (by decide), empty 0 (by decide)]

variable [DecidableEq C]

theorem yield_grows {c : C} {p : Fin n} (queued : Queued s.links s.homes queue)
    (running : (s.proc p).state = .running) (ran : yield c p s = some t) : Leaves (Grows queue) t := by
  obtain ⟨links, pushed, after⟩ := leave_queued queued c (q := .prioque (s.proc p).prio)
    (x := { s.proc p with state := .runnable, context := .yield }) running rfl
  cases (yield_eq c p pushed).symm.trans ran
  exact ⟨_, after, grows_pushed _ _ _⟩

theorem sleepOn_grows {c : C} {p : Fin n} {chan : UInt64} {context : Context}
    (queued : Queued s.links s.homes queue) (running : (s.proc p).state = .running)
    (ran : sleepOn c p chan context s = some t) : Leaves (Grows queue) t := by
  obtain ⟨queue', after, rfl⟩ := sleepOn_follows queued running ran
  exact ⟨_, after, grows_pushed _ _ _⟩

theorem exit_grows {addr : Fin n → UInt64} {c : C} {p : Fin n} (queued : Queued s.links s.homes queue)
    (running : (s.proc p).state = .running) (ran : exit addr c p s = some t) : Leaves (Grows queue) t := by
  obtain ⟨u, woke, ran⟩ := Option.bind_eq_some_iff.mp ran
  obtain ⟨v, moved, ran⟩ := Option.bind_eq_some_iff.mp ran
  obtain ⟨queue', after, first⟩ := wakeup1_grows queued woke
  obtain ⟨queue'', final, second⟩ := reparent_grows after moved
  have stays : (v.proc p).state = .running := by
    obtain ⟨links, woke', _⟩ := wakeup1_queues queued (channel addr (s.proc p).parent)
    cases woke'.symm.trans woke
    have same : ((s.wake (channel addr (s.proc p).parent)).setLinks links).proc p = s.proc p := woken_running running
    obtain ⟨links', moved', _⟩ := reparent_does ⟨_, after⟩ addr p (List.nodup_finRange n)
    cases moved'.symm.trans moved
    rw [Table.setLinks_proc, Table.setProcs_proc, adopted_eq, same]
    split
    · rw [woken_running running]
      exact running
    · exact running
  have notRunnable : ¬(v.proc p).state = .runnable := by simp [stays]
  have exits : sched c p (v.proc p).context (v.setProc p { v.proc p with state := .zombie }) = t := by
    have left := (if_neg notRunnable).symm.trans ran
    simpa [Table.setProc, Table.setLinks] using left
  have homes : (v.setProc p { v.proc p with state := .zombie }).homes = v.homes := by
    apply homes_congr
    rw [homeless stays]
    exact Proc.home_eq_none (by simp) (by simp)
  rw [← homes] at final
  refine ⟨queue'', ?_, first.trans second⟩
  rw [← exits, sched_setProc]
  exact final

theorem wait_grows {addr : Fin n → UInt64} {c : C} {par : Fin n} {result : WaitEnd n}
    (queued : Queued s.links s.homes queue) (running : (s.proc par).state = .running)
    (ran : wait addr c par s = some (t, result)) : Leaves (Grows queue) t := by
  rcases waitScan_spec s par (List.finRange n) false with ⟨p, _, scanned, child, zombie⟩ | ⟨found, scanned, _, _⟩
  · rw [wait, scanned] at ran
    cases ran
    have homes : (cleanproc s p).homes = s.homes := by
      apply homes_congr
      rw [Proc.home_eq_none (by simp) (by simp)]
      exact (Proc.home_eq_none (by simp [zombie]) (by simp [zombie])).symm
    exact ⟨queue, homes ▸ queued, Grows.refl queue⟩
  · cases found with
    | false =>
      rw [wait, scanned] at ran
      cases ran
      exact ⟨queue, queued, Grows.refl queue⟩
    | true =>
      rw [wait, scanned] at ran
      obtain ⟨u, slept, same⟩ := Option.map_eq_some_iff.mp ran
      cases same
      exact sleepOn_grows queued running slept

theorem resume_grows {addr : Fin n → UInt64} {c : C} {p : Fin n} {result : Option (WaitEnd n)}
    (queued : Queued s.links s.homes queue) (running : (s.proc p).state = .running)
    (ran : resume addr c p s = some (t, result)) : Leaves (Grows queue) t := by
  have awake : Queued (s.setProc p { s.proc p with chan := 0 }).links
      (s.setProc p { s.proc p with chan := 0 }).homes queue := by
    have homes : (s.setProc p { s.proc p with chan := 0 }).homes = s.homes := by
      apply homes_congr
      rw [homeless running]
      exact homeless running
    rw [homes]
    exact queued
  unfold resume at ran
  split at ran
  · cases ran
    exact ⟨queue, queued, Grows.refl queue⟩
  · cases ran
    exact ⟨queue, queued, Grows.refl queue⟩
  · cases ran
    exact ⟨queue, awake, Grows.refl queue⟩
  · obtain ⟨⟨u, ended⟩, waited, same⟩ := Option.map_eq_some_iff.mp ran
    cases same
    exact wait_grows awake (by simpa using running) waited

-- A turn of the scheduler takes the front of the queue, if there is one.
theorem scheduler_takes {addr : Fin n → UInt64} {c : C} {e : Option (Fin n × WaitEnd n)} (level : s.Level)
    (queued : Queued s.links s.homes queue) (ran : scheduler addr c s = some (t, e)) :
    Leaves (fun queue' => (queue (.prioque initialPrio)).tail <+: queue' (.prioque initialPrio)) t := by
  have picked := level.pick queued
  cases waiting : queue (.prioque initialPrio) with
  | nil =>
    rw [waiting] at picked
    simp only [scheduler, picked, Option.bind_eq_bind, Option.bind_some, List.head?_nil] at ran
    cases ran
    exact ⟨queue, queued, List.nil_prefix⟩
  | cons p rest =>
    rw [waiting] at picked
    simp only [scheduler, picked, Option.bind_eq_bind, Option.bind_some, List.head?_cons] at ran
    have here : s.homes p = some (.prioque initialPrio) := (queued.mem_iff _ p).mp (by simp [waiting])
    obtain ⟨links, deleted, after⟩ := queued.delete here
    have homes : (s.picked c p).homes = Function.update s.homes p none :=
      Table.homes_setProc s p { s.proc p with state := .running }
    rw [← homes] at after
    obtain ⟨links', deleted', ran⟩ := Option.bind_eq_some_iff.mp ran
    cases deleted.symm.trans deleted'
    obtain ⟨⟨u, result⟩, resumed, same⟩ := Option.bind_eq_some_iff.mp ran
    cases same
    obtain ⟨queue', final, grows⟩ := resume_grows (s := (s.picked c p).setLinks links) after
      (by simp [Table.picked]) resumed
    have behind := grows initialPrio
    rw [Function.update_self, waiting, List.erase_cons_head] at behind
    exact ⟨queue', final, behind⟩

end

/-! ## Dispatching in a run -/

/-- The process that a turn of a scheduler switches to. -/
def dispatched : Action C → Kernel C n → Option (Fin n)
  | .scheduler _, s => (pick s.table (List.finRange prioentries).reverse).getD none
  | _, _ => none

def Action.isTurn : Action C → Bool
  | .scheduler _ => true
  | _ => false

section
variable [DecidableEq C] {addr : Fin n → UInt64} {s t : Kernel C n} {queue : Queue → List (Fin n)}

omit [DecidableEq C] in
theorem pushReady_grows {owner : Option (Fin n)} {child : Fin n} {x : Proc n}
    (queued : Queued s.table.links s.table.homes queue) (embryo : (s.table.proc child).state = .embryo)
    (ran : pushReady owner child x s = some t) : Leaves (Grows queue) t.table := by
  obtain ⟨links, pushed, after⟩ := queued.push (q := .prioque x.prio)
    (show s.table.homes child = none from Proc.home_eq_none (by simp [embryo]) (by simp [embryo]))
  obtain ⟨links', pushed', same⟩ := Option.bind_eq_some_iff.mp ran
  cases pushed.symm.trans pushed'
  cases same
  have homes : (s.table.setProc child { x with state := .runnable }).homes =
      Function.update s.table.homes child (some (.prioque x.prio)) := Table.homes_setProc ..
  rw [← homes] at after
  exact ⟨_, after, grows_pushed _ _ _⟩

/-- Every action but a turn of the scheduler leaves the queues as they are, or longer. -/
theorem perform_grows {a : Action C} {e : Option (Fin n × WaitEnd n)} (sound : Sound s)
    (queued : Queued s.table.links s.table.homes queue) (noTurn : a.isTurn = false)
    (performed : perform addr a s = some (t, e)) : Leaves (Grows queue) t.table := by
  have same : ∀ {table : Table C n}, Queued table.links table.homes queue → Leaves (Grows queue) table :=
    fun after => ⟨queue, after, Grows.refl queue⟩
  cases a with
  | userInit kstack =>
    simp only [perform, Option.ite_none_right_eq_some, Option.map_eq_some_iff, Prod.mk.injEq] at performed
    obtain ⟨_, _, started, rfl, rfl⟩ := performed
    exact same (startChild_shrinks queued started)
  | fork c kstack =>
    simp only [perform, Option.bind_eq_bind, Option.bind_eq_some_iff, Option.ite_none_right_eq_some,
      Option.map_eq_some_iff, Prod.mk.injEq] at performed
    obtain ⟨_, _, _, _, started, rfl, rfl⟩ := performed
    exact same (startChild_shrinks queued started)
  | userCopy loop =>
    simp only [perform] at performed
    split at performed
    · rename_i child _
      have homes : (s.table.setProc child { s.table.proc child with sz := pgsize }).homes = s.table.homes :=
        homes_congr rfl
      cases performed
      cases loop with
      | false => exact same (homes ▸ queued)
      | true => exact same (homes ▸ queued)
    · cases performed
  | forkCopy c =>
    obtain ⟨par, on, performed⟩ := Option.bind_eq_some_iff.mp performed
    split at performed
    · rename_i child _
      have homes : (s.table.setProc child { s.table.proc child with
          parent := some par, sz := (s.table.proc par).sz }).homes = s.table.homes := homes_congr rfl
      cases performed
      exact same (homes ▸ queued)
    · cases performed
  | userReady =>
    simp only [perform] at performed
    split at performed
    · rename_i child thread
      obtain ⟨u, readied, pair⟩ := Option.map_eq_some_iff.mp performed
      cases pair
      exact pushReady_grows queued (sound.copied none child thread) readied
    · cases performed
  | forkReady c =>
    obtain ⟨par, on, performed⟩ := Option.bind_eq_some_iff.mp performed
    split at performed
    · rename_i child thread
      obtain ⟨u, readied, pair⟩ := Option.map_eq_some_iff.mp performed
      cases pair
      exact pushReady_grows queued (sound.copied (some par) child thread) readied
    · cases performed
  | scheduler c => cases noTurn
  | yield c =>
    obtain ⟨p, on, performed⟩ := Option.bind_eq_some_iff.mp performed
    obtain ⟨table, yielded, pair⟩ := Option.bind_eq_some_iff.mp performed
    cases pair
    exact yield_grows queued (sound.current c p on) yielded
  | sleep c chan =>
    obtain ⟨p, on, performed⟩ := Option.bind_eq_some_iff.mp performed
    obtain ⟨_, performed⟩ := Option.ite_none_right_eq_some.mp performed
    obtain ⟨table, slept, pair⟩ := Option.map_eq_some_iff.mp performed
    cases pair
    exact sleepOn_grows queued (sound.current c p on) slept
  | wakeup chan =>
    obtain ⟨table, woke, pair⟩ := Option.map_eq_some_iff.mp performed
    cases pair
    exact wakeup1_grows queued woke
  | exit c =>
    obtain ⟨p, on, performed⟩ := Option.bind_eq_some_iff.mp performed
    obtain ⟨_, performed⟩ := Option.ite_none_right_eq_some.mp performed
    obtain ⟨table, exited, pair⟩ := Option.map_eq_some_iff.mp performed
    cases pair
    exact exit_grows queued (sound.current c p on) exited
  | wait c =>
    obtain ⟨p, on, performed⟩ := Option.bind_eq_some_iff.mp performed
    obtain ⟨_, performed⟩ := Option.ite_none_right_eq_some.mp performed
    obtain ⟨⟨table, ended⟩, waited, pair⟩ := Option.map_eq_some_iff.mp performed
    cases pair
    exact wait_grows queued (sound.current c p on) waited

/-- The processes that wait for a CPU, in the order of the queue. -/
structure Waits (s : Kernel C n) (waiting : List (Fin n)) : Prop where
  consistent : Consistent s
  level : s.table.Level
  queue : ∃ queue, Queued s.table.links s.table.homes queue ∧ queue (.prioque initialPrio) = waiting

theorem Waits.step {a : Action C} {waiting : List (Fin n)} (waits : Waits s waiting)
    (stepped : step addr a s = some t) :
    ∃ waiting', Waits t waiting' ∧ Serves a.isTurn waiting (dispatched a s) waiting' := by
  obtain ⟨consistent, level, queue, queued, rfl⟩ := waits
  obtain ⟨⟨u, e⟩, performed, rfl⟩ := Option.map_eq_some_iff.mp stepped
  have later := (consistent.perform performed).2
  have level' := perform_level consistent level performed
  cases isTurn : a.isTurn with
  | false =>
    obtain ⟨queue', after, grows⟩ := perform_grows consistent.sound queued isTurn performed
    refine ⟨_, ⟨later, level', queue', after, rfl⟩, ?_, grows initialPrio⟩
    cases a with
    | scheduler c => cases isTurn
    | _ => rfl
  | true =>
    cases a with
    | scheduler c =>
      obtain ⟨_, performed⟩ := Option.ite_none_right_eq_some.mp performed
      obtain ⟨⟨table, ended⟩, scheduled, pair⟩ := Option.map_eq_some_iff.mp performed
      cases pair
      obtain ⟨queue', after, behind⟩ := scheduler_takes level queued scheduled
      refine ⟨_, ⟨later, level', queue', after, rfl⟩, ?_, behind⟩
      rw [dispatched, level.pick queued]
      rfl
    | _ => cases isTurn

omit [DecidableEq C] in
theorem Boot.waits (boot : Boot s) : Waits s [] := by
  have consistent := boot.consistent
  have level : s.table.Level := fun p used => absurd (boot.unused p) used
  obtain ⟨queue, queued⟩ := consistent.ordered
  refine ⟨consistent, level, queue, queued, List.eq_nil_iff_forall_not_mem.mpr ?_⟩
  intro p member
  have runnable := (Proc.home_eq_prioque.mp ((queued.mem_iff _ p).mp member)).1
  rw [boot.unused p] at runnable
  cases runnable

theorem Boot.waits_run {acts : List (Action C)} (boot : Boot s) (ran : run (step addr) acts s = some t) :
    ∃ waiting, Waits t waiting := by
  have each : ∀ (a : Action C) (s t : Kernel C n), (∃ waiting, Waits s waiting) → step addr a s = some t →
      ∃ waiting, Waits t waiting := by
    intro a s t waits stepped
    obtain ⟨waiting, waits⟩ := waits
    obtain ⟨waiting', waits', _⟩ := waits.step stepped
    exact ⟨waiting', waits'⟩
  exact run_invariant each ⟨[], boot.waits⟩ ran

variable (addr)

/-- Processes get a CPU in the order in which they wait for one, in every run: a turn of any scheduler
takes the first of them, so that each is switched to in as many turns as there are slots. -/
theorem dispatched_in_order {acts : List (Action C)} (boot : Boot s) (ran : run (step addr) acts s = some t) :
    ∃ waiting : List (Fin n), Ring t.table.links (.prioque initialPrio) (waiting.map .plist) ∧
      (∀ p, p ∈ waiting ↔ (t.table.proc p).state = .runnable) ∧
      ∀ more u, run (step addr) more t = some u →
        waiting.take (more.countP Action.isTurn) <+: observed (step addr) dispatched more t ∧
        (n ≤ more.countP Action.isTurn → ∀ p ∈ waiting, p ∈ observed (step addr) dispatched more t) := by
  obtain ⟨waiting, waits⟩ := boot.waits_run ran
  obtain ⟨consistent, level, queue, queued, rfl⟩ := id waits
  have each : ∀ (a : Action C) (s t : Kernel C n) waiting, Waits s waiting → step addr a s = some t →
      ∃ waiting', Waits t waiting' ∧ Serves a.isTurn waiting (dispatched a s) waiting' :=
    fun a s t waiting waits stepped => waits.step stepped
  refine ⟨queue (.prioque initialPrio), queued.rings.ring (.prioque initialPrio), fun p => ?_, fun more u ranOn => ?_⟩
  · rw [queued.mem_iff, Table.homes, Proc.home_eq_prioque]
    exact and_iff_left_of_imp fun runnable => level p (by simp [runnable])
  · refine ⟨served_in_order each waits ranOn, fun turns p member => ?_⟩
    have few := List.Nodup.length_le_card (queued.nodup (.prioque initialPrio))
    rw [Fintype.card_fin] at few
    exact served_of_mem each waits ranOn (few.trans turns) member

omit [DecidableEq C] addr in
/-- Two processes are made ready, and both CPUs are free. -/
theorem dispatched_in_order_twoProcesses :
    ∃ (t : Kernel Bool nproc) (waiting : List (Fin nproc)),
      run (step fun p => 4096 + p.val.toUInt64) (twoProcesses.take 6) (bootKernel Bool nproc) = some t ∧
      (∀ p, p ∈ waiting ↔ (t.table.proc p).state = .runnable) ∧
      ∀ more u, run (step fun p => 4096 + p.val.toUInt64) more t = some u →
        waiting.take (more.countP Action.isTurn) <+:
          observed (step fun p => 4096 + p.val.toUInt64) dispatched more t := by
  obtain ⟨t, ran⟩ := Option.isSome_iff_exists.mp
    (show (run (step fun p : Fin nproc => 4096 + p.val.toUInt64) (twoProcesses.take 6)
      (bootKernel Bool nproc)).isSome by decide +kernel)
  obtain ⟨waiting, _, runnable, order⟩ := dispatched_in_order _ (bootKernel_boot Bool nproc) ran
  exact ⟨t, waiting, ran, runnable, fun more u ranOn => (order more u ranOn).1⟩

end

end

end Xv6.Process
