import Xv6.Process.Changes

/-! The sleep lock of `kern/sleeplock.c`, at the granularity of its spinlocks.

A step of `acquiresleep` or `releasesleep` ends where the next spinlock is taken
or given up. The sections of the process table go on between the steps while
`ptablelock` is free, for every other channel.
-/

set_option autoImplicit false

namespace Xv6.Process

open Library

-- Where a process is in `acquiresleep` and `releasesleep`.
inductive Position where
  | outside
  /-- In `acquire(&lk->lk)`: at the start, or when `sleep` takes it back. -/
  | acquire
  /-- Has the spinlock, at `while (lk->locked)`. -/
  | test
  /-- In `sleep`, at `acquire(&ptablelock)`. -/
  | sleepAcquire
  /-- In `sleep`, at `release(lk)`. -/
  | sleepRelease
  /-- In `sleep`, with `ptablelock` alone. -/
  | sleepSched
  /-- `lk->locked` is set; at the `release` of `acquiresleep`. -/
  | unlock
  /-- Between `acquiresleep` and `releasesleep`. -/
  | holding
  /-- In `releasesleep`, at `acquire(&lk->lk)`. -/
  | releaseAcquire
  /-- In `releasesleep` with the spinlock. -/
  | clear
  /-- In `wakeup`, at `acquire(&ptablelock)`. -/
  | wakeAcquire
  /-- In `wakeup`, with both locks. -/
  | wake
  /-- At the `release` of `releasesleep`. -/
  | done
  deriving DecidableEq

namespace Position

def spins : Position → Bool
  | .test | .sleepAcquire | .sleepRelease | .unlock | .clear | .wakeAcquire | .wake | .done => true
  | _ => false

def tables : Position → Bool
  | .sleepRelease | .sleepSched | .wake => true
  | _ => false

-- Has set `lk->locked` and not cleared it.
def owns : Position → Bool
  | .unlock | .holding | .releaseAcquire | .clear => true
  | _ => false

def calls : Position → Bool
  | .outside | .holding => true
  | _ => false

end Position

/-- The system with one sleep lock: its fields, its spinlock and `ptablelock` with the
processes that hold them. -/
structure Locking (C : Type) (n : Nat) where
  kernel : Kernel C n
  ptablelock : Option (Fin n)
  lk : Option (Fin n)
  locked : Bool
  pid : Int
  pos : Fin n → Position

inductive LockAction (C : Type) where
  /-- A section of the process table. -/
  | kernel (a : Action C)
  /-- The process of the CPU calls `acquiresleep`. -/
  | acquiresleep (c : C)
  /-- The holder of the lock, which runs on the CPU, calls `releasesleep`. -/
  | releasesleep (c : C)
  /-- The process of the CPU takes its next step in one of them. -/
  | next (c : C)

def Action.isExit {C : Type} : Action C → Bool
  | .exit _ => true
  | _ => false

def Action.isSleep {C : Type} (chan : UInt64) : Action C → Bool
  | .sleep _ chan' => chan' = chan
  | _ => false

section
variable {C : Type} [DecidableEq C] {n : Nat}

namespace Locking

def goto (s : Locking C n) (p : Fin n) (pos : Position) : Locking C n :=
  { s with pos := Function.update s.pos p pos }

/-- A process performs an action while it is outside the code of the lock; it does not
exit with the lock, and nothing else sleeps on the lock's address. -/
def allows (s : Locking C n) (chan : UInt64) (a : Action C) : Bool :=
  match a.by with
  | none => true
  | some c =>
    match s.kernel.table.cpu c with
    | none => false
    | some p => (s.pos p).calls && !(a.isExit && s.pos p = .holding) && !a.isSleep chan

def next (addr : Fin n → UInt64) (chan : UInt64) (c : C) (p : Fin n) (s : Locking C n) : Option (Locking C n) :=
  match s.pos p with
  | .outside | .holding => none
  | .acquire => if s.lk = none then some ({ s with lk := some p }.goto p .test) else none
  | .test =>
    if s.locked then some (s.goto p .sleepAcquire)
    else some ({ s with locked := true, pid := (s.kernel.table.proc p).pid }.goto p .unlock)
  | .sleepAcquire =>
    if s.ptablelock = none then some ({ s with ptablelock := some p }.goto p .sleepRelease) else none
  | .sleepRelease => some ({ s with lk := none }.goto p .sleepSched)
  | .sleepSched =>
    -- the scheduler gives the lock up, and after the wakeup `sleep` takes the spinlock back
    (step addr (.sleep c chan) s.kernel).map fun kernel =>
      { s with kernel := kernel, ptablelock := none }.goto p .acquire
  | .unlock => some ({ s with lk := none }.goto p .holding)
  | .releaseAcquire => if s.lk = none then some ({ s with lk := some p }.goto p .clear) else none
  | .clear => some ({ s with locked := false, pid := 0 }.goto p .wakeAcquire)
  | .wakeAcquire => if s.ptablelock = none then some ({ s with ptablelock := some p }.goto p .wake) else none
  | .wake =>
    (step addr (.wakeup chan) s.kernel).map fun kernel =>
      { s with kernel := kernel, ptablelock := none }.goto p .done
  | .done => some ({ s with lk := none }.goto p .outside)

def step (addr : Fin n → UInt64) (chan : UInt64) (a : LockAction C) (s : Locking C n) : Option (Locking C n) :=
  match a with
  | .kernel a =>
    if s.ptablelock = none ∧ s.allows chan a = true then
      (Process.step addr a s.kernel).map fun kernel => { s with kernel := kernel }
    else none
  | .acquiresleep c => do
    let p ← s.kernel.table.cpu c
    if s.pos p = .outside ∧ s.kernel.thread (some p) = .free then some (s.goto p .acquire) else none
  | .releasesleep c => do
    let p ← s.kernel.table.cpu c
    if s.pos p = .holding ∧ s.kernel.thread (some p) = .free then some (s.goto p .releaseAcquire) else none
  | .next c => do
    let p ← s.kernel.table.cpu c
    s.next addr chan c p

end Locking

def Position.inside (pos : Position) : Bool := pos.spins || pos.tables

structure Guarded (chan : UInt64) (s : Locking C n) : Prop where
  consistent : Consistent s.kernel
  live : ∀ p, s.pos p ≠ .outside → (s.kernel.table.proc p).Live
  quiet : ∀ p, (s.pos p).calls = false → s.kernel.thread (some p) = .free
  running : ∀ p, (s.pos p).inside = true → (s.kernel.table.proc p).state = .running
  spin : ∀ p, s.lk = some p ↔ (s.pos p).spins = true
  table : ∀ p, s.ptablelock = some p ↔ (s.pos p).tables = true
  held : s.locked = true ↔ ∃ p, (s.pos p).owns = true
  alone : ∀ p q, (s.pos p).owns = true → (s.pos q).owns = true → p = q
  pid : ∀ p, (s.pos p).owns = true → s.pid = (s.kernel.table.proc p).pid
  /-- Nobody goes to sleep on a free lock. -/
  sleepy : ∀ p, s.pos p = .sleepAcquire ∨ s.pos p = .sleepRelease → s.locked = true
  /-- A sleeper waits for the holder, or for a wakeup that is under way. -/
  expected : ∀ p, s.pos p = .sleepSched ∨ (s.kernel.table.proc p).SleepsOn chan →
    s.locked = true ∨ ∃ r, s.pos r = .wakeAcquire ∨ s.pos r = .wake

namespace Guarded
variable {addr : Fin n → UInt64} {chan : UInt64} {s t : Locking C n}

/-- Nobody sleeps on the lock in vain: it is held, or its sleepers are about to be woken. -/
def Expected (s : Locking C n) : Prop := s.locked = true ∨ ∃ r, s.pos r = .wakeAcquire ∨ s.pos r = .wake

theorem tableStep {a : Action C} {kernel : Kernel C n} (guarded : Guarded chan s)
    (actor : ∀ c p, a.by = some c → s.kernel.table.cpu c = some p → (s.pos p).inside = false ∧
      (a.isExit = true → s.pos p = .outside) ∧ ((s.pos p).calls = false → ∃ chan', a = .sleep c chan'))
    (sleepers : ∀ p, a.SleepsOn addr p chan → Expected s)
    (stepped : Process.step addr a s.kernel = some kernel) : Guarded chan { s with kernel := kernel } := by
  obtain ⟨⟨u, e⟩, performed, rfl⟩ := Option.map_eq_some_iff.mp stepped
  obtain ⟨moves, consistent⟩ := guarded.consistent.perform performed
  have changes := moves.changes guarded.consistent.placed
  have live : ∀ p, s.pos p ≠ .outside → (u.table.proc p).Live ∧
    (u.table.proc p).pid = (s.kernel.table.proc p).pid := by
    intro p inCode
    refine (changes p).live (guarded.live p inCode) ?_
    rintro c on rfl
    exact inCode ((actor c p rfl on).2.1 rfl)
  refine ⟨consistent, fun p inCode => (live p inCode).1, ?_, ?_, guarded.spin, guarded.table, guarded.held,
    guarded.alone, ?_, guarded.sleepy, ?_⟩
  · intro p inCode
    rcases moves.threads p with same | ⟨c, acts, on, notSleep⟩
    · exact same.trans (guarded.quiet p inCode)
    · obtain ⟨chan', isSleep⟩ := (actor c p acts on).2.2 inCode
      exact absurd isSleep (notSleep chan')
  · intro p inside
    refine (changes p).running (guarded.running p inside) fun c on acts => ?_
    simp [(actor c p acts on).1] at inside
  · intro p owns
    have inCode : s.pos p ≠ .outside := by
      intro outside
      simp [outside, Position.owns] at owns
    exact (guarded.pid p owns).trans (live p inCode).2.symm
  · rintro p (atSched | asleep)
    · exact guarded.expected p (.inl atSched)
    · rcases (changes p).asleep asleep with before | sleepsOn
      · exact guarded.expected p (.inr before)
      · exact sleepers p sleepsOn

/-- A section by processes outside the code of the lock, none of which sleeps on it. -/
theorem kernelStep {a : Action C} {kernel : Kernel C n} (guarded : Guarded chan s) (apart : ∀ p, addr p ≠ chan)
    (allowed : s.allows chan a = true) (stepped : Process.step addr a s.kernel = some kernel) :
    Guarded chan { s with kernel := kernel } := by
  have actor : ∀ c p, a.by = some c → s.kernel.table.cpu c = some p →
      (s.pos p).calls = true ∧ (a.isExit = false ∨ s.pos p ≠ .holding) ∧ a.isSleep chan = false := by
    intro c p acts on
    simpa [Locking.allows, acts, on, and_assoc] using allowed
  refine guarded.tableStep ?_ ?_ stepped
  · intro c p acts on
    obtain ⟨calls, notHolding, _⟩ := actor c p acts on
    have place : s.pos p = .outside ∨ s.pos p = .holding := by
      cases pos : s.pos p <;> simp_all [Position.calls]
    refine ⟨?_, ?_, ?_⟩
    · rcases place with pos | pos <;> (rw [pos]; rfl)
    · intro isExit
      rcases notHolding with notExit | notHolding
      · simp [isExit] at notExit
      · exact place.resolve_right notHolding
    · simp [calls]
  · intro p sleepsOn
    cases a with
    | sleep c chan' =>
      cases on : s.kernel.table.cpu c with
      | none => simp [Locking.allows, Action.by, on] at allowed
      | some q =>
        have other := (actor c q rfl on).2.2
        simp only [Action.isSleep, decide_eq_false_iff_not] at other
        exact absurd sleepsOn other
    | wait c => exact absurd sleepsOn (apart p)
    | scheduler c => exact absurd sleepsOn (apart p)
    | _ => exact absurd sleepsOn (by simp [Action.SleepsOn])

omit [DecidableEq C] in
/-- What `Guarded` says about the positions alone, after process `p` has gone to `y`. -/
theorem positions {p : Fin n} {y : Position} (guarded : Guarded chan s)
    (running : (s.kernel.table.proc p).state = .running) (free : s.kernel.thread (some p) = .free) :
    (∀ q, Function.update s.pos p y q ≠ .outside → (s.kernel.table.proc q).Live) ∧
      (∀ q, (Function.update s.pos p y q).calls = false → s.kernel.thread (some q) = .free) ∧
      ∀ q, (Function.update s.pos p y q).inside = true → (s.kernel.table.proc q).state = .running := by
  refine ⟨?_, ?_, ?_⟩
  · intro q inCode
    by_cases same : q = p
    · exact .inl (same ▸ running)
    · exact guarded.live q (by simpa [same] using inCode)
  · intro q inCode
    by_cases same : q = p
    · exact same ▸ free
    · exact guarded.quiet q (by simpa [same] using inCode)
  · intro q inside
    by_cases same : q = p
    · exact same ▸ running
    · exact guarded.running q (by simpa [same] using inside)

omit [DecidableEq C] in
theorem handed {s : Locking C n} {p : Fin n} {x y : Position} {lock lock' : Option (Fin n)} {has : Position → Bool}
    (before : ∀ q, lock = some q ↔ has (s.pos q) = true) (pos : s.pos p = x)
    (change : (has x = has y ∧ lock' = lock) ∨ (lock = none ∧ has y = true ∧ lock' = some p) ∨
      (has x = true ∧ has y = false ∧ lock' = none)) (q : Fin n) :
    lock' = some q ↔ has (Function.update s.pos p y q) = true := by
  by_cases same : q = p
  · subst same
    rw [Function.update_self]
    rcases change with ⟨kept, rfl⟩ | ⟨_, takes, rfl⟩ | ⟨_, drops, rfl⟩
    · rw [before, pos, kept]
    · simp [takes]
    · simp [drops]
  · rw [Function.update_of_ne same]
    rcases change with ⟨_, rfl⟩ | ⟨wasFree, _, rfl⟩ | ⟨had, _, rfl⟩
    · exact before q
    · -- nobody had it
      rw [← before q, wasFree]
      simpa using Ne.symm same
    · -- `p` had it, so `q` did not
      have mine : lock = some p := (before p).mpr (pos ▸ had)
      rw [← before q, mine]
      simpa using Ne.symm same

omit [DecidableEq C] in
/-- A step of process `p` to position `y` that hands the two spinlocks on and leaves
the process table, `lk->locked` and `lk->pid` alone. -/
theorem moved {p : Fin n} {x y : Position} {lk ptablelock : Option (Fin n)} (guarded : Guarded chan s)
    (running : (s.kernel.table.proc p).state = .running) (free : s.kernel.thread (some p) = .free)
    (pos : s.pos p = x) (owns : y.owns = x.owns)
    (spin : (x.spins = y.spins ∧ lk = s.lk) ∨ (s.lk = none ∧ y.spins = true ∧ lk = some p) ∨
      (x.spins = true ∧ y.spins = false ∧ lk = none))
    (table : (x.tables = y.tables ∧ ptablelock = s.ptablelock) ∨
      (s.ptablelock = none ∧ y.tables = true ∧ ptablelock = some p) ∨
      (x.tables = true ∧ y.tables = false ∧ ptablelock = none))
    (sleepy : y = .sleepAcquire ∨ y = .sleepRelease ∨ y = .sleepSched → s.locked = true)
    (waking : x = .wakeAcquire ∨ x = .wake → y = .wakeAcquire ∨ y = .wake ∨
      ∀ q, s.pos q ≠ .sleepSched ∧ ¬ (s.kernel.table.proc q).SleepsOn chan) :
    Guarded chan { s with lk := lk, ptablelock := ptablelock, pos := Function.update s.pos p y } := by
  have owners : ∀ q, (Function.update s.pos p y q).owns = (s.pos q).owns := by
    intro q
    by_cases same : q = p
    · subst same
      rw [Function.update_self, owns, pos]
    · rw [Function.update_of_ne same]
  have wakers : ∀ r, s.pos r = .wakeAcquire ∨ s.pos r = .wake →
      (Function.update s.pos p y r = .wakeAcquire ∨ Function.update s.pos p y r = .wake) ∨
        ∀ q, s.pos q ≠ .sleepSched ∧ ¬ (s.kernel.table.proc q).SleepsOn chan := by
    intro r wakes
    by_cases same : r = p
    · subst same
      simpa [or_assoc] using waking (pos ▸ wakes)
    · exact .inl (by simpa [same] using wakes)
  obtain ⟨live, quiet, inside⟩ := guarded.positions (y := y) running free
  refine ⟨guarded.consistent, live, quiet, inside, handed guarded.spin pos spin, handed guarded.table pos table,
    ?_, ?_, ?_, ?_, ?_⟩
  · simpa only [owners] using guarded.held
  · simpa only [owners] using guarded.alone
  · simpa only [owners] using guarded.pid
  · intro q goesToSleep
    by_cases same : q = p
    · refine sleepy ?_
      rcases (by simpa [same] using goesToSleep : y = .sleepAcquire ∨ y = .sleepRelease) with here | here
      · exact .inl here
      · exact .inr (.inl here)
    · exact guarded.sleepy q (by simpa [same] using goesToSleep)
  · intro q waits
    by_cases same : q = p ∧ y = .sleepSched
    · exact .inl (sleepy (.inr (.inr same.2)))
    · have before : s.pos q = .sleepSched ∨ (s.kernel.table.proc q).SleepsOn chan := by
        rcases waits with atSched | asleep
        · refine .inl ?_
          by_cases isSelf : q = p
          · subst isSelf
            exact absurd ⟨rfl, by simpa using atSched⟩ same
          · simpa [isSelf] using atSched
        · exact .inr asleep
      rcases guarded.expected q before with locked | ⟨r, wakes⟩
      · exact .inl locked
      · rcases wakers r wakes with still | nobody
        · exact .inr ⟨r, still⟩
        · rcases before with atSched | asleep
          · exact absurd atSched (nobody q).1
          · exact absurd asleep (nobody q).2

omit [DecidableEq C] in
theorem taken {p : Fin n} (guarded : Guarded chan s) (pos : s.pos p = .test) (unlocked : s.locked = false) :
    Guarded chan { s with
      locked := true, pid := (s.kernel.table.proc p).pid, pos := Function.update s.pos p .unlock } := by
  have noOwner : ∀ q, (s.pos q).owns = false := by
    intro q
    by_contra owns
    have locked := guarded.held.mpr ⟨q, by simpa using owns⟩
    simp [unlocked] at locked
  have onlyOwner : ∀ q, (Function.update s.pos p .unlock q).owns = true → q = p := by
    intro q owns
    by_contra other
    rw [Function.update_of_ne other, noOwner q] at owns
    simp at owns
  obtain ⟨live, quiet, inside⟩ := guarded.positions (y := .unlock)
    (guarded.running p (by rw [pos]; rfl)) (guarded.quiet p (by rw [pos]; rfl))
  refine ⟨guarded.consistent, live, quiet, inside, handed guarded.spin pos (.inl ⟨rfl, rfl⟩),
    handed guarded.table pos (.inl ⟨rfl, rfl⟩), ?_, ?_, ?_, ?_, ?_⟩
  · exact ⟨fun _ => ⟨p, by simp [Position.owns]⟩, fun _ => rfl⟩
  · exact fun q r ownsQ ownsR => (onlyOwner q ownsQ).trans (onlyOwner r ownsR).symm
  · intro q owns
    rw [onlyOwner q owns]
  · exact fun _ _ => rfl
  · exact fun _ _ => .inl rfl

omit [DecidableEq C] in
/-- Clearing the lock: its holder has the spinlock and wakes the sleepers next. -/
theorem cleared {p : Fin n} (guarded : Guarded chan s) (pos : s.pos p = .clear) :
    Guarded chan { s with locked := false, pid := 0, pos := Function.update s.pos p .wakeAcquire } := by
  have noOwner : ∀ q, (Function.update s.pos p .wakeAcquire q).owns = false := by
    intro q
    by_cases same : q = p
    · simp [same, Position.owns]
    · by_contra owns
      rw [Function.update_of_ne same] at owns
      exact same (guarded.alone q p (by simpa using owns) (by rw [pos]; rfl))
  obtain ⟨live, quiet, inside⟩ := guarded.positions (y := .wakeAcquire)
    (guarded.running p (by rw [pos]; rfl)) (guarded.quiet p (by rw [pos]; rfl))
  refine ⟨guarded.consistent, live, quiet, inside, handed guarded.spin pos (.inl ⟨rfl, rfl⟩),
    handed guarded.table pos (.inl ⟨rfl, rfl⟩), ?_, ?_, ?_, ?_, ?_⟩
  · simp [noOwner]
  · intro q r owns
    simp [noOwner] at owns
  · intro q owns
    simp [noOwner] at owns
  · -- who is about to sleep would have the spinlock too
    intro q goesToSleep
    have other : q ≠ p := by
      rintro rfl
      simp at goesToSleep
    have here : s.pos q = .sleepAcquire ∨ s.pos q = .sleepRelease := by simpa [other] using goesToSleep
    have theirs : s.lk = some q := (guarded.spin q).mpr (by rcases here with here | here <;> (rw [here]; rfl))
    have mine : s.lk = some p := (guarded.spin p).mpr (by rw [pos]; rfl)
    exact absurd (Option.some.inj (theirs.symm.trans mine)) other
  · exact fun _ _ => .inr ⟨p, .inl (Function.update_self ..)⟩

theorem wakeup_wakes {k l : Kernel C n} (consistent : Consistent k)
    (woke : Process.step addr (.wakeup chan) k = some l) (p : Fin n) : ¬ (l.table.proc p).SleepsOn chan := by
  obtain ⟨⟨u, e⟩, performed, rfl⟩ := Option.map_eq_some_iff.mp woke
  cases (consistent.perform performed).1 with
  | wakeup links =>
    rintro ⟨asleep, onChan⟩
    rcases woken_cases chan (k.table.proc p) with ⟨same, missed⟩ | ⟨_, awake⟩
    · have same' : ((k.setTable ((k.table.wake chan).setLinks links)).table.proc p) = k.table.proc p := same
      exact missed (same' ▸ asleep) (same' ▸ onChan)
    · exact absurd (awake.symm.trans asleep) (by simp)

theorem next_step {c : C} {p : Fin n} (guarded : Guarded chan s)
    (on : s.kernel.table.cpu c = some p) (stepped : s.next addr chan c p = some t) : Guarded chan t := by
  have running := guarded.consistent.placed.current c p on
  have quiet := guarded.quiet p
  cases pos : s.pos p with
  | outside => simp [Locking.next, pos] at stepped
  | holding => simp [Locking.next, pos] at stepped
  | acquire =>
    simp only [Locking.next, pos, Option.ite_none_right_eq_some, Option.some.injEq] at stepped
    obtain ⟨unlocked, rfl⟩ := stepped
    exact guarded.moved running (quiet (by rw [pos]; rfl)) pos rfl (.inr (.inl ⟨unlocked, rfl, rfl⟩))
      (.inl ⟨rfl, rfl⟩)
      (by simp) (by simp)
  | test =>
    cases locked : s.locked with
    | true =>
      simp only [Locking.next, pos, locked, if_true, Option.some.injEq] at stepped
      subst stepped
      exact guarded.moved running (quiet (by rw [pos]; rfl)) pos rfl (.inl ⟨rfl, rfl⟩) (.inl ⟨rfl, rfl⟩)
        (fun _ => locked) (by simp)
    | false =>
      simp only [Locking.next, pos, locked, Bool.false_eq_true, if_false, Option.some.injEq] at stepped
      subst stepped
      exact guarded.taken pos locked
  | sleepAcquire =>
    simp only [Locking.next, pos, Option.ite_none_right_eq_some, Option.some.injEq] at stepped
    obtain ⟨unlocked, rfl⟩ := stepped
    exact guarded.moved running (quiet (by rw [pos]; rfl)) pos rfl (.inl ⟨rfl, rfl⟩)
      (.inr (.inl ⟨unlocked, rfl, rfl⟩))
      (fun _ => guarded.sleepy p (.inl pos)) (by simp)
  | sleepRelease =>
    simp only [Locking.next, pos, Option.some.injEq] at stepped
    subst stepped
    exact guarded.moved running (quiet (by rw [pos]; rfl)) pos rfl (.inr (.inr ⟨rfl, rfl, rfl⟩)) (.inl ⟨rfl, rfl⟩)
      (fun _ => guarded.sleepy p (.inr pos)) (by simp)
  | sleepSched =>
    simp only [Locking.next, pos, Option.map_eq_some_iff] at stepped
    obtain ⟨kernel, slept, rfl⟩ := stepped
    -- first out of the locks, then asleep
    have before : Guarded chan { s with ptablelock := none, pos := Function.update s.pos p .acquire } :=
      guarded.moved running (quiet (by rw [pos]; rfl)) pos rfl (.inl ⟨rfl, rfl⟩) (.inr (.inr ⟨rfl, rfl, rfl⟩))
        (by simp) (by simp)
    have expected : Expected { s with ptablelock := none, pos := Function.update s.pos p .acquire } := by
      rcases guarded.expected p (.inl pos) with locked | ⟨r, wakes⟩
      · exact .inl locked
      · have other : r ≠ p := by
          rintro rfl
          simp [pos] at wakes
        exact .inr ⟨r, by simpa [other] using wakes⟩
    refine before.tableStep (a := .sleep c chan) ?_ (fun _ _ => expected) slept
    rintro d q ⟨⟩ onQ
    obtain rfl : p = q := Option.some.inj (on.symm.trans onQ)
    exact ⟨by simp [Position.inside, Position.spins, Position.tables], by simp [Action.isExit], fun _ => ⟨chan, rfl⟩⟩
  | unlock =>
    simp only [Locking.next, pos, Option.some.injEq] at stepped
    subst stepped
    exact guarded.moved running (quiet (by rw [pos]; rfl)) pos rfl (.inr (.inr ⟨rfl, rfl, rfl⟩)) (.inl ⟨rfl, rfl⟩)
      (by simp) (by simp)
  | releaseAcquire =>
    simp only [Locking.next, pos, Option.ite_none_right_eq_some, Option.some.injEq] at stepped
    obtain ⟨unlocked, rfl⟩ := stepped
    exact guarded.moved running (quiet (by rw [pos]; rfl)) pos rfl (.inr (.inl ⟨unlocked, rfl, rfl⟩))
      (.inl ⟨rfl, rfl⟩)
      (by simp) (by simp)
  | clear =>
    simp only [Locking.next, pos, Option.some.injEq] at stepped
    subst stepped
    exact guarded.cleared pos
  | wakeAcquire =>
    simp only [Locking.next, pos, Option.ite_none_right_eq_some, Option.some.injEq] at stepped
    obtain ⟨unlocked, rfl⟩ := stepped
    exact guarded.moved running (quiet (by rw [pos]; rfl)) pos rfl (.inl ⟨rfl, rfl⟩)
      (.inr (.inl ⟨unlocked, rfl, rfl⟩))
      (by simp) (fun _ => .inr (.inl rfl))
  | wake =>
    simp only [Locking.next, pos, Option.map_eq_some_iff] at stepped
    obtain ⟨kernel, woke, rfl⟩ := stepped
    have after : Guarded chan { s with kernel := kernel } :=
      guarded.tableStep (a := .wakeup chan) (by simp [Action.by]) (by simp [Action.SleepsOn]) woke
    -- with `ptablelock` held nobody is on the way to sleep, and nobody sleeps any more
    have nobody : ∀ q, s.pos q ≠ .sleepSched ∧ ¬ (kernel.table.proc q).SleepsOn chan := by
      refine fun q => ⟨fun atSched => ?_, wakeup_wakes guarded.consistent woke q⟩
      have mine : s.ptablelock = some p := (guarded.table p).mpr (by rw [pos]; rfl)
      have theirs : s.ptablelock = some q := (guarded.table q).mpr (by rw [atSched]; rfl)
      obtain rfl : p = q := Option.some.inj (mine.symm.trans theirs)
      simp [pos] at atSched
    exact after.moved (after.running p (by rw [pos]; rfl)) (after.quiet p (by rw [pos]; rfl)) pos rfl
      (.inl ⟨rfl, rfl⟩) (.inr (.inr ⟨rfl, rfl, rfl⟩))
      (by simp) (fun _ => .inr (.inr nobody))
  | done =>
    simp only [Locking.next, pos, Option.some.injEq] at stepped
    subst stepped
    exact guarded.moved running (quiet (by rw [pos]; rfl)) pos rfl (.inr (.inr ⟨rfl, rfl, rfl⟩)) (.inl ⟨rfl, rfl⟩)
      (by simp) (by simp)

theorem step {a : LockAction C} (guarded : Guarded chan s) (apart : ∀ p, addr p ≠ chan)
    (stepped : s.step addr chan a = some t) : Guarded chan t := by
  cases a with
  | kernel a =>
    simp only [Locking.step, Option.ite_none_right_eq_some, Option.map_eq_some_iff] at stepped
    obtain ⟨⟨_, allowed⟩, kernel, stepped, rfl⟩ := stepped
    exact guarded.kernelStep apart allowed stepped
  | acquiresleep c =>
    simp only [Locking.step, Option.bind_eq_bind, Option.bind_eq_some_iff, Option.ite_none_right_eq_some,
      Option.some.injEq] at stepped
    obtain ⟨p, on, ⟨pos, free⟩, rfl⟩ := stepped
    exact guarded.moved (guarded.consistent.placed.current c p on) free pos rfl (.inl ⟨rfl, rfl⟩) (.inl ⟨rfl, rfl⟩)
      (by simp) (by simp)
  | releasesleep c =>
    simp only [Locking.step, Option.bind_eq_bind, Option.bind_eq_some_iff, Option.ite_none_right_eq_some,
      Option.some.injEq] at stepped
    obtain ⟨p, on, ⟨pos, free⟩, rfl⟩ := stepped
    exact guarded.moved (guarded.consistent.placed.current c p on) free pos rfl (.inl ⟨rfl, rfl⟩) (.inl ⟨rfl, rfl⟩)
      (by simp) (by simp)
  | next c =>
    simp only [Locking.step, Option.bind_eq_bind, Option.bind_eq_some_iff] at stepped
    obtain ⟨p, on, stepped⟩ := stepped
    exact guarded.next_step on stepped

end Guarded

/-! ## Runs -/

/-- The lock as `initsleeplock` leaves it, with nobody in its code. -/
def initsleeplock (kernel : Kernel C n) : Locking C n where
  kernel := kernel
  ptablelock := none
  lk := none
  locked := false
  pid := 0
  pos _ := .outside

omit [DecidableEq C] in
theorem initsleeplock_guarded {chan : UInt64} {kernel : Kernel C n} (consistent : Consistent kernel)
    (nobody : ∀ p, ¬ (kernel.table.proc p).SleepsOn chan) : Guarded chan (initsleeplock kernel) := by
  refine ⟨consistent, ?_, ?_, ?_, ?_, ?_, ?_, ?_, ?_, ?_, ?_⟩
  all_goals simp [initsleeplock, Position.calls, Position.inside, Position.spins, Position.tables,
    Position.owns, nobody]

/-- At most one process is between `acquiresleep` and `releasesleep`, and `lk->pid` is its
pid; and with both spinlocks free nobody sleeps on a free lock. -/
structure Locking.Safe (chan : UInt64) (s : Locking C n) : Prop where
  exclusive : ∀ p q, s.pos p = .holding → s.pos q = .holding → p = q
  pid : ∀ p, s.pos p = .holding → s.locked = true ∧ s.pid = (s.kernel.table.proc p).pid
  awake : s.lk = none → s.ptablelock = none → s.locked = false → ∀ p, ¬ (s.kernel.table.proc p).SleepsOn chan

omit [DecidableEq C] in
theorem Guarded.safe {chan : UInt64} {s : Locking C n} (guarded : Guarded chan s) : s.Safe chan where
  exclusive p q holdsP holdsQ := guarded.alone p q (by rw [holdsP]; rfl) (by rw [holdsQ]; rfl)
  pid p holds :=
    ⟨guarded.held.mpr ⟨p, by rw [holds]; rfl⟩, guarded.pid p (by rw [holds]; rfl)⟩
  awake unlocked _ free p asleep := by
    rcases guarded.expected p (.inr asleep) with locked | ⟨r, wakes⟩
    · simp [free] at locked
    · -- the waker has the spinlock
      have holder : s.lk = some r := (guarded.spin r).mpr (by rcases wakes with pos | pos <;> (rw [pos]; rfl))
      simp [unlocked] at holder

/-- The lock may be initialised in any state of the system; it is not a slot of the
process table, and nothing else sleeps on its address. -/
theorem sleeplock_safe {addr : Fin n → UInt64} {chan : UInt64} {before : List (Action C)}
    {acts : List (LockAction C)} {boot kernel : Kernel C n} {t : Locking C n} (booted : Boot boot)
    (reached : run (step addr) before boot = some kernel) (nobody : ∀ p, ¬ (kernel.table.proc p).SleepsOn chan)
    (apart : ∀ p, addr p ≠ chan) (ran : run (Locking.step addr chan) acts (initsleeplock kernel) = some t) :
    t.Safe chan := by
  have consistent : Consistent kernel :=
    run_invariant (fun _ _ _ kept stepped => Consistent.step kept stepped) booted.consistent reached
  have guarded : Guarded chan t :=
    run_invariant (fun _ _ _ kept stepped => Guarded.step kept apart stepped)
      (initsleeplock_guarded consistent nobody) ran
  exact guarded.safe

def contended : List (LockAction Bool) :=
  [.acquiresleep false, .next false, .next false, .next false, .acquiresleep true, .next true, .next true, .next true,
    .next true, .next true, .releasesleep false, .next false, .next false, .next false, .next false, .next false,
    .kernel (.scheduler true), .next true, .next true, .next true]

theorem sleeplock_safe_contended :
    ∃ t : Locking Bool nproc,
      ((run (step fun p => 4096 + p.val.toUInt64) twoProcesses (bootKernel _ _)).bind fun kernel =>
        run (Locking.step (fun p => 4096 + p.val.toUInt64) 40) contended (initsleeplock kernel)) = some t ∧
      t.Safe 40 := by
  have ends : ((run (step fun p : Fin nproc => 4096 + p.val.toUInt64) twoProcesses (bootKernel Bool nproc)).bind
      fun kernel => run (Locking.step (fun p => 4096 + p.val.toUInt64) 40) contended
        (initsleeplock kernel)).isSome := by decide +kernel
  have quiet : (run (step fun p : Fin nproc => 4096 + p.val.toUInt64) twoProcesses (bootKernel Bool nproc)).all
      fun kernel => decide (∀ p, (kernel.table.proc p).state ≠ .sleeping) := by decide +kernel
  obtain ⟨t, ran⟩ := Option.isSome_iff_exists.mp ends
  obtain ⟨kernel, reached, locked⟩ := Option.bind_eq_some_iff.mp ran
  rw [reached, Option.all_some, decide_eq_true_eq] at quiet
  have nobody : ∀ p, ¬ (kernel.table.proc p).SleepsOn 40 := fun p sleeps => quiet p sleeps.1
  have apart : ∀ p : Fin nproc, 4096 + p.val.toUInt64 ≠ 40 := by decide
  exact ⟨t, ran, sleeplock_safe (bootKernel_boot ..) reached nobody apart locked⟩

end

end Xv6.Process
