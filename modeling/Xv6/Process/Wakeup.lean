import Xv6.Process.Scheduling

/-! The order in which processes are woken.

`wakeup1` goes through one bucket, while the loop in its comment goes through the whole
table. Both make the same processes runnable. A bucket is in the order in which its
processes went to sleep, in every run: `Watched` is the machine with a clock that says when.
-/

set_option autoImplicit false

namespace Xv6.Process

open Library

section
variable {C : Type} {n : Nat}

-- The loop in the comment of `wakeup1`.
def wakeupScan (chan : UInt64) : List (Fin n) → Table C n → Table C n
  | [], s => s
  | p :: rest, s =>
    if (s.proc p).chan = chan ∧ (s.proc p).state = .sleeping then
      wakeupScan chan rest (s.setProc p { s.proc p with state := .runnable })
    else wakeupScan chan rest s

theorem wakeupScan_state (chan : UInt64) (ps : List (Fin n)) (s : Table C n) (distinct : ps.Nodup) (p : Fin n) :
    ((wakeupScan chan ps s).proc p).state =
      if p ∈ ps ∧ (s.proc p).Hit chan then .runnable else (s.proc p).state := by
  induction ps generalizing s with
  | nil => simp [wakeupScan]
  | cons q ps ih =>
    obtain ⟨notLater, distinct⟩ := List.nodup_cons.mp distinct
    by_cases hit : (s.proc q).chan = chan ∧ (s.proc q).state = .sleeping
    · rw [wakeupScan, if_pos hit, ih _ distinct]
      by_cases same : p = q
      · subst same
        simp [notLater, Proc.Hit, hit]
      · simp [same, Proc.Hit]
    · rw [wakeupScan, if_neg hit, ih _ distinct]
      by_cases same : p = q
      · subst same
        simp [notLater, Proc.Hit, hit]
      · simp [same]

theorem woken_state (chan : UInt64) (x : Proc n) :
    (woken chan x).state = if x.Hit chan then .runnable else x.state := by
  unfold woken
  by_cases hit : x.chan = chan ∧ x.state = .sleeping
  · rw [if_pos hit, if_pos (show x.Hit chan from hit)]
  · rw [if_neg hit, if_neg (show ¬x.Hit chan from hit)]

/-! ## What a section does to the buckets -/

def Shrinks (queue queue' : Queue → List (Fin n)) : Prop :=
  ∀ entry, (queue' (.hashmp entry)).Sublist (queue (.hashmp entry))

def Follows (p : Fin n) (queue queue' : Queue → List (Fin n)) : Prop :=
  ∀ entry, (queue' (.hashmp entry)).Sublist (queue (.hashmp entry) ++ [p])

section
variable {s t : Table C n} {queue queue' queue'' : Queue → List (Fin n)}

theorem Shrinks.refl (queue : Queue → List (Fin n)) : Shrinks queue queue := fun _ => List.Sublist.refl _

theorem Shrinks.trans (first : Shrinks queue queue') (second : Shrinks queue' queue'') : Shrinks queue queue'' :=
  fun entry => (second entry).trans (first entry)

theorem Shrinks.follows_of (first : Shrinks queue queue') {p : Fin n} (second : Follows p queue' queue'') :
    Follows p queue queue'' := by
  intro entry
  exact (second entry).trans ((first entry).append_right [p])

theorem shrinks_update_prioque (queue : Queue → List (Fin n)) (i : Fin prioentries) (ps : List (Fin n)) :
    Shrinks queue (Function.update queue (.prioque i) ps) := by
  intro entry
  rw [Function.update_of_ne (by simp)]

theorem shrinks_drained (s : Table C n) (chan : UInt64) (queue : Queue → List (Fin n)) :
    Shrinks queue (s.drained chan queue [] (queue (.hashmp (hashEntry chan)))) := by
  intro entry
  by_cases here : entry = hashEntry chan
  · rw [Table.drained, if_pos here, List.nil_append, here]
    exact List.filter_sublist
  · rw [Table.drained, if_neg here]

/-- The queues of the result, related to those before. -/
def Leaves (rel : (Queue → List (Fin n)) → Prop) (t : Table C n) : Prop :=
  ∃ queue', Queued t.links t.homes queue' ∧ rel queue'

theorem homes_congr {x : Proc n} {p : Fin n} (home : x.home = (s.proc p).home) : (s.setProc p x).homes = s.homes := by
  rw [Table.homes_setProc, home]
  exact Function.update_eq_self p s.homes

theorem homeless {x : Proc n} (running : x.state = .running) : x.home = none :=
  Proc.home_eq_none (by simp [running]) (by simp [running])

theorem wakeup1_shrinks {chan : UInt64} (queued : Queued s.links s.homes queue) (ran : wakeup1 chan s = some t) :
    Leaves (Shrinks queue) t := by
  obtain ⟨links, woke, after⟩ := wakeup1_queues queued chan
  cases woke.symm.trans ran
  exact ⟨_, after, shrinks_drained s chan queue⟩

theorem reparent_shrinks {addr : Fin n → UInt64} {p : Fin n} {rest : List (Fin n)}
    (queued : Queued s.links s.homes queue) (ran : reparent addr p rest s = some t) : Leaves (Shrinks queue) t := by
  -- on the processes ahead of the loop
  induction rest generalizing s queue with
  | nil =>
    cases ran
    exact ⟨queue, queued, Shrinks.refl queue⟩
  | cons pc rest ih =>
    by_cases child : (s.proc pc).parent = some p
    · rw [reparent, if_pos child] at ran
      have moved : Queued (s.setProc pc { s.proc pc with parent := s.initproc }).links
          (s.setProc pc { s.proc pc with parent := s.initproc }).homes queue := by
        rw [homes_congr (by rfl)]
        exact queued
      by_cases zombie : ((s.setProc pc { s.proc pc with parent := s.initproc }).proc pc).state = .zombie
      · obtain ⟨u, woke, ran⟩ := Option.bind_eq_some_iff.mp ((if_pos zombie).symm.trans ran)
        obtain ⟨queue', after, first⟩ := wakeup1_shrinks moved woke
        obtain ⟨queue'', final, second⟩ := ih after ran
        exact ⟨queue'', final, first.trans second⟩
      · exact ih moved ((if_neg zombie).symm.trans ran)
    · rw [reparent, if_neg child] at ran
      exact ih queued ran

variable [DecidableEq C]

theorem leave_queued (queued : Queued s.links s.homes queue) (c : C) {p : Fin n} {x : Proc n} {q : Queue}
    (running : (s.proc p).state = .running) (home : x.home = some q) :
    ∃ links, listPushBack s.links q.head (q.node p) = some links ∧
      Queued links (s.leave c p x).homes (Function.update queue q (queue q ++ [p])) := by
  obtain ⟨links, pushed, after⟩ := queued.push (q := q) (show s.homes p = none from homeless running)
  have homes : (s.leave c p x).homes = Function.update s.homes p (some q) := home ▸ Table.homes_setProc s p x
  rw [← homes] at after
  exact ⟨links, pushed, after⟩

theorem sleepOn_follows {c : C} {p : Fin n} {chan : UInt64} {context : Context}
    (queued : Queued s.links s.homes queue) (running : (s.proc p).state = .running)
    (ran : sleepOn c p chan context s = some t) :
    Leaves (fun queue' => queue' = Function.update queue (.hashmp (hashEntry chan))
      (queue (.hashmp (hashEntry chan)) ++ [p])) t := by
  obtain ⟨links, pushed, after⟩ := leave_queued queued c (q := .hashmp (hashEntry chan))
    (x := { s.proc p with chan := chan, state := .sleeping, context := context }) running rfl
  cases (sleepOn_eq c running chan context pushed).symm.trans ran
  exact ⟨_, after, rfl⟩

theorem follows_pushed (queue : Queue → List (Fin n)) (entry : Fin hashentries) (p : Fin n) :
    Follows p queue (Function.update queue (.hashmp entry) (queue (.hashmp entry) ++ [p])) := by
  intro other
  by_cases same : other = entry
  · rw [same, Function.update_self]
  · rw [Function.update_of_ne (by simpa using same)]
    exact List.sublist_append_left ..

theorem yield_shrinks {c : C} {p : Fin n} (queued : Queued s.links s.homes queue)
    (running : (s.proc p).state = .running) (ran : yield c p s = some t) : Leaves (Shrinks queue) t := by
  obtain ⟨links, pushed, after⟩ := leave_queued queued c (q := .prioque (s.proc p).prio)
    (x := { s.proc p with state := .runnable, context := .yield }) running rfl
  cases (yield_eq c p pushed).symm.trans ran
  exact ⟨_, after, shrinks_update_prioque _ _ _⟩

theorem exit_shrinks {addr : Fin n → UInt64} {c : C} {p : Fin n} (queued : Queued s.links s.homes queue)
    (running : (s.proc p).state = .running) (ran : exit addr c p s = some t) : Leaves (Shrinks queue) t := by
  obtain ⟨u, woke, ran⟩ := Option.bind_eq_some_iff.mp ran
  obtain ⟨v, moved, ran⟩ := Option.bind_eq_some_iff.mp ran
  obtain ⟨links, woke', after⟩ := wakeup1_queues queued (channel addr (s.proc p).parent)
  have isU : (s.wake (channel addr (s.proc p).parent)).setLinks links = u := Option.some.inj (woke'.symm.trans woke)
  have after : Queued ((s.wake (channel addr (s.proc p).parent)).setLinks links).links
      ((s.wake (channel addr (s.proc p).parent)).setLinks links).homes _ := after
  rw [isU] at after
  obtain ⟨links', moved', _⟩ := reparent_does ⟨_, after⟩ addr p (List.nodup_finRange n)
  have isV : (u.setProcs (u.adopted addr p (List.finRange n))).setLinks links' = v :=
    Option.some.inj (moved'.symm.trans moved)
  obtain ⟨queue', final, shrinks⟩ := reparent_shrinks after moved
  have stays : (v.proc p).state = .running := by
    have same : u.proc p = s.proc p := isU ▸ woken_running running
    simp only [← isV, Table.setLinks_proc, Table.setProcs_proc, Table.adopted, same]
    split <;> split <;> simp [woken, running]
  have notRunnable : ¬(v.proc p).state = .runnable := by simp [stays]
  have exits : sched c p (v.proc p).context (v.setProc p { v.proc p with state := .zombie }) = t := by
    have left := (if_neg notRunnable).symm.trans ran
    simpa [Table.setProc, Table.setLinks] using left
  have homes : (v.setProc p { v.proc p with state := .zombie }).homes = v.homes := by
    apply homes_congr
    rw [homeless stays]
    exact Proc.home_eq_none (by simp) (by simp)
  rw [← homes] at final
  refine ⟨queue', ?_, (shrinks_drained s _ queue).trans shrinks⟩
  rw [← exits, sched_setProc]
  exact final

/-- What comes of a section: some process that did not sleep may have come to a bucket. -/
def Allowed (s : Table C n) (queue queue' : Queue → List (Fin n)) : Prop :=
  Shrinks queue queue' ∨ ∃ p, (s.proc p).state ≠ .sleeping ∧ Follows p queue queue'

theorem wait_allowed {addr : Fin n → UInt64} {c : C} {par : Fin n} {result : WaitEnd n}
    (queued : Queued s.links s.homes queue) (running : (s.proc par).state = .running)
    (ran : wait addr c par s = some (t, result)) :
    Leaves (fun queue' => Shrinks queue queue' ∨ Follows par queue queue') t := by
  rcases waitScan_spec s par (List.finRange n) false with ⟨p, _, scanned, child, zombie⟩ | ⟨found, scanned, _, _⟩
  · rw [wait, scanned] at ran
    cases ran
    refine ⟨queue, ?_, .inl (Shrinks.refl queue)⟩
    have homes : (cleanproc s p).homes = s.homes := by
      apply homes_congr
      rw [Proc.home_eq_none (by simp) (by simp)]
      exact (Proc.home_eq_none (by simp [zombie]) (by simp [zombie])).symm
    rw [homes]
    exact queued
  · cases found with
    | false =>
      rw [wait, scanned] at ran
      cases ran
      exact ⟨queue, queued, .inl (Shrinks.refl queue)⟩
    | true =>
      rw [wait, scanned] at ran
      obtain ⟨u, slept, same⟩ := Option.map_eq_some_iff.mp ran
      cases same
      obtain ⟨queue', after, rfl⟩ := sleepOn_follows queued running slept
      exact ⟨_, after, .inr (follows_pushed _ _ _)⟩

theorem resume_allowed {addr : Fin n → UInt64} {c : C} {p : Fin n} {result : Option (WaitEnd n)}
    (queued : Queued s.links s.homes queue) (running : (s.proc p).state = .running)
    (ran : resume addr c p s = some (t, result)) :
    Leaves (fun queue' => Shrinks queue queue' ∨ Follows p queue queue') t := by
  have awake : Queued (s.setProc p { s.proc p with chan := 0 }).links
      (s.setProc p { s.proc p with chan := 0 }).homes queue := by
    have homes : (s.setProc p { s.proc p with chan := 0 }).homes = s.homes := by
      apply homes_congr
      rw [homeless running]
      exact homeless running
    rw [homes]
    exact queued
  unfold resume at ran
  split at ran
  · cases ran
    exact ⟨queue, queued, .inl (Shrinks.refl queue)⟩
  · cases ran
    exact ⟨queue, queued, .inl (Shrinks.refl queue)⟩
  · cases ran
    exact ⟨queue, awake, .inl (Shrinks.refl queue)⟩
  · obtain ⟨⟨u, ended⟩, waited, same⟩ := Option.map_eq_some_iff.mp ran
    cases same
    exact wait_allowed awake (by simpa using running) waited

theorem scheduler_allowed {addr : Fin n → UInt64} {c : C} {e : Option (Fin n × WaitEnd n)}
    (queued : Queued s.links s.homes queue) (ran : scheduler addr c s = some (t, e)) :
    Leaves (Allowed s queue) t := by
  obtain ⟨found, picked, isRunnable⟩ := pick_returns ⟨queue, queued⟩ (List.finRange prioentries).reverse
  simp only [scheduler, picked, Option.bind_eq_bind, Option.bind_some] at ran
  cases found with
  | none =>
    cases ran
    exact ⟨queue, queued, .inl (Shrinks.refl queue)⟩
  | some p =>
    have runnable := isRunnable p rfl
    obtain ⟨links, deleted, after⟩ := queued.delete
      (show s.homes p = some (.prioque (s.proc p).prio) from Proc.home_eq_prioque.mpr ⟨runnable, rfl⟩)
    have homes : (s.picked c p).homes = Function.update s.homes p none :=
      Table.homes_setProc s p { s.proc p with state := .running }
    rw [← homes] at after
    obtain ⟨links', deleted', ran⟩ := Option.bind_eq_some_iff.mp ran
    cases deleted.symm.trans deleted'
    obtain ⟨⟨u, result⟩, resumed, same⟩ := Option.bind_eq_some_iff.mp ran
    cases same
    obtain ⟨queue', final, related⟩ := resume_allowed (s := (s.picked c p).setLinks links) after
      (by simp [Table.picked]) resumed
    have first := shrinks_update_prioque queue (s.proc p).prio ((queue (.prioque (s.proc p).prio)).erase p)
    refine ⟨queue', final, ?_⟩
    rcases related with shrinks | follows
    · exact .inl (first.trans shrinks)
    · exact .inr ⟨p, by simp [runnable], first.follows_of follows⟩

end

/-! ## The buckets in a run -/

section
variable [DecidableEq C] {s t : Kernel C n} {queue : Queue → List (Fin n)} {addr : Fin n → UInt64}

omit [DecidableEq C] in
theorem startChild_shrinks {owner : Option (Fin n)} {kstack : Option UInt64}
    (queued : Queued s.table.links s.table.homes queue) (ran : startChild owner kstack s = some t) :
    Queued t.table.links t.table.homes queue := by
  cases found : procAlloc kstack s.table with
  | mk table child =>
    cases child with
    | none => simp [startChild, found] at ran
    | some child =>
      obtain ⟨_, _, _, _, after⟩ := procAlloc_queues queued found
      simp only [startChild, found, Option.some.injEq] at ran
      subst ran
      exact after

omit [DecidableEq C] in
theorem pushReady_shrinks {owner : Option (Fin n)} {child : Fin n} {x : Proc n}
    (queued : Queued s.table.links s.table.homes queue) (embryo : (s.table.proc child).state = .embryo)
    (ran : pushReady owner child x s = some t) : Leaves (Shrinks queue) t.table := by
  obtain ⟨links, pushed, after⟩ := queued.push (q := .prioque x.prio)
    (show s.table.homes child = none from Proc.home_eq_none (by simp [embryo]) (by simp [embryo]))
  obtain ⟨links', pushed', same⟩ := Option.bind_eq_some_iff.mp ran
  cases pushed.symm.trans pushed'
  cases same
  have homes : (s.table.setProc child { x with state := .runnable }).homes =
      Function.update s.table.homes child (some (.prioque x.prio)) := Table.homes_setProc ..
  rw [← homes] at after
  exact ⟨_, after, shrinks_update_prioque _ _ _⟩

theorem perform_allowed {a : Action C} {e : Option (Fin n × WaitEnd n)} (sound : Sound s)
    (queued : Queued s.table.links s.table.homes queue) (performed : perform addr a s = some (t, e)) :
    Leaves (Allowed s.table queue) t.table := by
  have same : ∀ {table : Table C n}, Queued table.links table.homes queue → Leaves (Allowed s.table queue) table :=
    fun after => ⟨queue, after, .inl (Shrinks.refl queue)⟩
  have shrunk : ∀ {table : Table C n}, Leaves (Shrinks queue) table → Leaves (Allowed s.table queue) table :=
    fun ⟨queue', after, shrinks⟩ => ⟨queue', after, .inl shrinks⟩
  cases a with
  | userInit kstack =>
    simp only [perform, Option.ite_none_right_eq_some, Option.map_eq_some_iff, Prod.mk.injEq] at performed
    obtain ⟨_, _, started, rfl, rfl⟩ := performed
    exact same (startChild_shrinks queued started)
  | fork c kstack =>
    simp only [perform, Option.bind_eq_bind, Option.bind_eq_some_iff, Option.ite_none_right_eq_some,
      Option.map_eq_some_iff, Prod.mk.injEq] at performed
    obtain ⟨_, _, _, _, started, rfl, rfl⟩ := performed
    exact same (startChild_shrinks queued started)
  | userCopy loop =>
    simp only [perform] at performed
    split at performed
    · rename_i child _
      have homes : (s.table.setProc child { s.table.proc child with sz := pgsize }).homes = s.table.homes :=
        homes_congr rfl
      cases performed
      cases loop with
      | false => exact same (homes ▸ queued)
      | true => exact same (homes ▸ queued)
    · cases performed
  | forkCopy c =>
    simp only [perform, Option.bind_eq_bind, Option.bind_eq_some_iff] at performed
    obtain ⟨par, on, performed⟩ := performed
    split at performed
    · rename_i child _
      have homes : (s.table.setProc child { s.table.proc child with
          parent := some par, sz := (s.table.proc par).sz }).homes = s.table.homes := homes_congr rfl
      cases performed
      exact same (homes ▸ queued)
    · cases performed
  | userReady =>
    simp only [perform] at performed
    split at performed
    · rename_i child thread
      obtain ⟨u, readied, pair⟩ := Option.map_eq_some_iff.mp performed
      cases pair
      exact shrunk (pushReady_shrinks queued (sound.copied none child thread) readied)
    · cases performed
  | forkReady c =>
    simp only [perform, Option.bind_eq_bind, Option.bind_eq_some_iff] at performed
    obtain ⟨par, on, performed⟩ := performed
    split at performed
    · rename_i child thread
      obtain ⟨u, readied, pair⟩ := Option.map_eq_some_iff.mp performed
      cases pair
      exact shrunk (pushReady_shrinks queued (sound.copied (some par) child thread) readied)
    · cases performed
  | scheduler c =>
    obtain ⟨_, performed⟩ := Option.ite_none_right_eq_some.mp performed
    obtain ⟨⟨table, ended⟩, scheduled, pair⟩ := Option.map_eq_some_iff.mp performed
    cases pair
    exact scheduler_allowed queued scheduled
  | yield c =>
    obtain ⟨p, on, performed⟩ := Option.bind_eq_some_iff.mp performed
    obtain ⟨table, yielded, pair⟩ := Option.bind_eq_some_iff.mp performed
    cases pair
    exact shrunk (yield_shrinks queued (sound.current c p on) yielded)
  | sleep c chan =>
    obtain ⟨p, on, performed⟩ := Option.bind_eq_some_iff.mp performed
    obtain ⟨_, performed⟩ := Option.ite_none_right_eq_some.mp performed
    obtain ⟨table, slept, pair⟩ := Option.map_eq_some_iff.mp performed
    cases pair
    have running := sound.current c p on
    obtain ⟨queue', after, rfl⟩ := sleepOn_follows queued running slept
    exact ⟨_, after, .inr ⟨p, by simp [running], follows_pushed _ _ _⟩⟩
  | wakeup chan =>
    obtain ⟨table, woke, pair⟩ := Option.map_eq_some_iff.mp performed
    cases pair
    exact shrunk (wakeup1_shrinks queued woke)
  | exit c =>
    obtain ⟨p, on, performed⟩ := Option.bind_eq_some_iff.mp performed
    obtain ⟨_, performed⟩ := Option.ite_none_right_eq_some.mp performed
    obtain ⟨table, exited, pair⟩ := Option.map_eq_some_iff.mp performed
    cases pair
    exact shrunk (exit_shrinks queued (sound.current c p on) exited)
  | wait c =>
    obtain ⟨p, on, performed⟩ := Option.bind_eq_some_iff.mp performed
    obtain ⟨_, performed⟩ := Option.ite_none_right_eq_some.mp performed
    obtain ⟨⟨table, ended⟩, waited, pair⟩ := Option.map_eq_some_iff.mp performed
    cases pair
    have running := sound.current c p on
    obtain ⟨queue', after, related⟩ := wait_allowed queued running waited
    exact ⟨queue', after, related.imp id fun follows => ⟨p, by simp [running], follows⟩⟩

end

/-! ## The time of going to sleep -/

/-- The machine with the number of its sections, and when each process went to sleep last. -/
structure Watched (C : Type) (n : Nat) where
  kernel : Kernel C n
  time : Nat
  since : Fin n → Nat

def FallsAsleep (s t : Table C n) (p : Fin n) : Prop :=
  (s.proc p).state ≠ .sleeping ∧ (t.proc p).state = .sleeping

instance (s t : Table C n) (p : Fin n) : Decidable (FallsAsleep s t p) :=
  inferInstanceAs (Decidable ((s.proc p).state ≠ .sleeping ∧ (t.proc p).state = .sleeping))

def watch [DecidableEq C] (addr : Fin n → UInt64) (a : Action C) (w : Watched C n) : Option (Watched C n) :=
  (step addr a w.kernel).map fun kernel =>
    { kernel := kernel, time := w.time + 1
      since := fun p => if FallsAsleep w.kernel.table kernel.table p then w.time + 1 else w.since p }

/-- The bucket is in the order in which its processes went to sleep. -/
def InOrder (w : Watched C n) (bucket : List (Fin n)) : Prop := bucket.Pairwise fun p q => w.since p < w.since q

structure Timed (w : Watched C n) : Prop where
  consistent : Consistent w.kernel
  order : ∃ queue, Queued w.kernel.table.links w.kernel.table.homes queue ∧
    ∀ entry, InOrder w (queue (.hashmp entry)) ∧ ∀ p ∈ queue (.hashmp entry), w.since p ≤ w.time

theorem Queued.unique {l : Links (ListHead n)} {home : Fin n → Option Queue} {queue queue' : Queue → List (Fin n)}
    (queued : Queued l home queue) (queued' : Queued l home queue') : queue = queue' := by
  funext q
  have same := (queued.rings.ring q).unique (queued'.rings.ring q)
  exact List.map_injective_iff.mpr (Queued.node_injective q) same

section
variable [DecidableEq C] {addr : Fin n → UInt64} {w w' : Watched C n} {a : Action C}

omit [DecidableEq C] in
-- A bucket that has kept some processes, and got a new one at the end.
theorem inOrder_step {bucket bucket' new : List (Fin n)}
    (sub : bucket'.Sublist (bucket ++ new)) (single : new.length ≤ 1) (order : InOrder w bucket)
    (kept : ∀ p ∈ bucket, w.since p ≤ w.time ∧ w'.since p = w.since p)
    (fresh : ∀ p ∈ new, p ∈ bucket' → w'.since p = w.time + 1) (time : w'.time = w.time + 1) :
    InOrder w' bucket' ∧ ∀ p ∈ bucket', w'.since p ≤ w'.time := by
  have whole : (bucket ++ new).Pairwise fun p q => q ∈ bucket' → w'.since p < w'.since q := by
    rw [List.pairwise_append]
    refine ⟨order.imp_of_mem ?_, ?_, ?_⟩
    · intro p q memberP memberQ before _
      rw [(kept p memberP).2, (kept q memberQ).2]
      exact before
    · match new, single with
      | [], _ => exact List.Pairwise.nil
      | [p], _ => exact List.pairwise_singleton _ p
    · intro p member q memberQ there
      have := kept p member
      have := fresh q memberQ there
      omega
  constructor
  · exact (whole.sublist sub).imp_of_mem fun _ memberQ before => before memberQ
  · intro p member
    rcases List.mem_append.mp (sub.subset member) with old | new
    · have := kept p old
      omega
    · have := fresh p new member
      omega

theorem Timed.step (timed : Timed w) (stepped : watch addr a w = some w') : Timed w' := by
  obtain ⟨consistent, queue, queued, order⟩ := timed
  obtain ⟨kernel, stepped, same⟩ := Option.map_eq_some_iff.mp stepped
  have next := consistent.step stepped
  obtain ⟨⟨u, e⟩, performed, isKernel⟩ := Option.map_eq_some_iff.mp stepped
  cases isKernel
  subst same
  obtain ⟨queue', after, allowed⟩ := perform_allowed consistent.sound queued performed
  have home : ∀ {entry : Fin hashentries} {p : Fin n}, p ∈ queue (.hashmp entry) →
      (w.kernel.table.proc p).state = .sleeping := fun member =>
    (Proc.home_eq_hashmp.mp ((queued.mem_iff _ _).mp member)).1
  have home' : ∀ {entry : Fin hashentries} {p : Fin n}, p ∈ queue' (.hashmp entry) →
      (u.table.proc p).state = .sleeping := fun member =>
    (Proc.home_eq_hashmp.mp ((after.mem_iff _ _).mp member)).1
  refine ⟨next, queue', after, fun entry => ?_⟩
  -- a process of the bucket slept before, so its time stays
  have kept : ∀ p ∈ queue (.hashmp entry), w.since p ≤ w.time ∧
      (if FallsAsleep w.kernel.table u.table p then w.time + 1 else w.since p) = w.since p := by
    intro p member
    exact ⟨(order entry).2 p member, if_neg fun falls => falls.1 (home member)⟩
  rcases allowed with shrinks | ⟨p, awake, follows⟩
  · have sub : (queue' (.hashmp entry)).Sublist (queue (.hashmp entry) ++ []) := by
      rw [List.append_nil]
      exact shrinks entry
    exact inOrder_step sub (Nat.zero_le 1) (order entry).1 kept (by simp) rfl
  · apply inOrder_step (follows entry) (le_refl 1) (order entry).1 kept _ rfl
    intro q member there
    rw [List.mem_singleton.mp member] at there ⊢
    exact if_pos ⟨awake, home' there⟩

omit [DecidableEq C] in
theorem Boot.timed (boot : Boot w.kernel) : Timed w := by
  have consistent := boot.consistent
  obtain ⟨queue, queued⟩ := consistent.ordered
  have empty : ∀ entry, queue (.hashmp entry) = [] := by
    intro entry
    apply List.eq_nil_iff_forall_not_mem.mpr
    intro p member
    have sleeping := (Proc.home_eq_hashmp.mp ((queued.mem_iff _ _).mp member)).1
    rw [boot.unused p] at sleeping
    cases sleeping
  refine ⟨consistent, queue, queued, fun entry => ?_⟩
  rw [empty entry]
  exact ⟨List.Pairwise.nil, by simp⟩

variable (C addr)

/-- In every table whose lists are in order, `wakeup1` ends, and makes runnable what the loop in
its comment does. The woken processes are put behind their queues in the order of the bucket,
the other ones of the bucket stay in it in order, and the other lists are as they were. The
order of a bucket is that in which its processes went to sleep, in every run. -/
theorem wakeup1_scans_table :
    (∀ (s : Table C n) (queue : Queue → List (Fin n)) (chan : UInt64), Queued s.links s.homes queue →
      ∃ t queue', wakeup1 chan s = some t ∧
        (∀ p, (t.proc p).state = ((wakeupScan chan (List.finRange n) s).proc p).state) ∧
        Queued t.links t.homes queue' ∧
        (∀ i, queue' (.prioque i) = queue (.prioque i) ++ (queue (.hashmp (hashEntry chan))).filter fun p =>
          ((s.proc p).chan = chan ∧ (s.proc p).state = .sleeping) ∧ (s.proc p).prio = i) ∧
        (queue' (.hashmp (hashEntry chan)) = (queue (.hashmp (hashEntry chan))).filter fun p =>
          ¬((s.proc p).chan = chan ∧ (s.proc p).state = .sleeping)) ∧
        ∀ entry, entry ≠ hashEntry chan → queue' (.hashmp entry) = queue (.hashmp entry)) ∧
      ∀ (acts : List (Action C)) (w w' : Watched C n), Boot w.kernel → run (watch addr) acts w = some w' →
        ∀ queue, Queued w'.kernel.table.links w'.kernel.table.homes queue →
          ∀ entry, InOrder w' (queue (.hashmp entry)) := by
  constructor
  · intro s queue chan queued
    obtain ⟨links, woke, after⟩ := wakeup1_queues queued chan
    refine ⟨_, _, woke, ?_, after, ?_, ?_, ?_⟩
    · intro p
      have scanned := wakeupScan_state chan (List.finRange n) s (List.nodup_finRange n) p
      simp only [List.mem_finRange, true_and] at scanned
      rw [scanned]
      exact woken_state chan (s.proc p)
    · intro i
      rfl
    · exact if_pos rfl
    · intro entry other
      exact if_neg other
  · intro acts w w' boot ran queue queued entry
    have timed : Timed w' := run_invariant (fun _ _ _ timed stepped => Timed.step timed stepped) boot.timed ran
    obtain ⟨_, queue', queued', order⟩ := timed
    rw [queued.unique queued']
    exact (order entry).1

end

end

def sharedBucket : List (Action Bool) := twoProcesses ++ [.sleep true 57, .sleep false 40]

def watchedBoot : Watched Bool nproc := ⟨bootKernel Bool nproc, 0, fun _ => 0⟩

theorem wakeup1_scans_table_sharedBucket :
    hashEntry 40 = hashEntry 57 ∧
      ∃ w t queue, run (watch fun p => 4096 + p.val.toUInt64) sharedBucket watchedBoot = some w ∧
        wakeup1 40 w.kernel.table = some t ∧ (t.proc 0).state = .runnable ∧ (t.proc 1).state = .sleeping ∧
        Queued w.kernel.table.links w.kernel.table.homes queue ∧ InOrder w (queue (.hashmp (hashEntry 40))) := by
  have reaches : (run (watch fun p : Fin nproc => 4096 + p.val.toUInt64) sharedBucket watchedBoot).isSome := by
    decide +kernel
  have scanned : (run (watch fun p : Fin nproc => 4096 + p.val.toUInt64) sharedBucket watchedBoot).all fun w =>
      ((wakeupScan 40 (List.finRange nproc) w.kernel.table).proc 0).state = .runnable ∧
        ((wakeupScan 40 (List.finRange nproc) w.kernel.table).proc 1).state = .sleeping := by
    decide +kernel
  obtain ⟨w, ran⟩ := Option.isSome_iff_exists.mp reaches
  rw [ran, Option.all_some, decide_eq_true_eq] at scanned
  have boot : Boot watchedBoot.kernel := bootKernel_boot Bool nproc
  have timed : Timed w := run_invariant (fun _ _ _ timed stepped => Timed.step timed stepped) boot.timed ran
  obtain ⟨_, queue, queued, _⟩ := timed
  obtain ⟨scans, orders⟩ := wakeup1_scans_table Bool fun p : Fin nproc => 4096 + p.val.toUInt64
  obtain ⟨t, _, woke, same, _⟩ := scans w.kernel.table queue 40 queued
  refine ⟨by decide, w, t, queue, ran, woke, ?_, ?_, queued, orders _ _ _ boot ran queue queued _⟩
  · rw [same]
    exact scanned.1
  · rw [same]
    exact scanned.2

end Xv6.Process
