import Xv6.Process.Scheduling

/-! What a step makes of one process, seen from outside.

`Changes` forgets everything but state, channel and pid. Protocols built on
`sleep` and `wakeup` use it in place of the effects of the sections.
-/

set_option autoImplicit false

namespace Xv6.Process

open Library

section
variable {C : Type} {n : Nat}

def Action.by : Action C → Option C
  | .fork c _ | .forkCopy c | .forkReady c | .yield c | .sleep c _ | .exit c | .wait c => some c
  | .userInit _ | .userCopy _ | .userReady | .scheduler _ | .wakeup _ => none

-- The action goes to sleep on the channel: `sleep` does, and `wait` on the process's address.
def Action.SleepsOn (addr : Fin n → UInt64) (p : Fin n) (chan : UInt64) : Action C → Prop
  | .sleep _ chan' => chan' = chan
  | .wait _ | .scheduler _ => addr p = chan
  | _ => False

inductive Changes (addr : Fin n → UInt64) (s : Table C n) (a : Action C) (p : Fin n) (x y : Proc n) : Prop where
  | kept (state : y.state = x.state) (chan : y.chan = x.chan) (pid : y.pid = x.pid)
  | woken (before : x.state = .sleeping) (after : y.state = .runnable) (pid : y.pid = x.pid)
  | started (before : x.state = .unused) (after : y.state = .embryo)
  | readied (before : x.state = .embryo) (after : y.state = .runnable)
  | picked (before : x.state = .runnable) (after : y.state = .running) (pid : y.pid = x.pid)
  | pickedWaiting (before : x.state = .runnable) (after : y.state = .sleeping) (chan : a.SleepsOn addr p y.chan)
      (pid : y.pid = x.pid)
  | left (c : C) (on : s.cpu c = some p) (acts : a.by = some c) (notExit : ∀ d, a ≠ .exit d)
      (after : y.state = .runnable ∨ (y.state = .sleeping ∧ a.SleepsOn addr p y.chan)) (pid : y.pid = x.pid)
  | exited (c : C) (on : s.cpu c = some p) (isExit : a = .exit c) (after : y.state = .zombie)
  | reaped (before : x.state = .zombie) (after : y.state = .unused)

def Proc.Live (x : Proc n) : Prop := x.state = .running ∨ x.state = .runnable ∨ x.state = .sleeping

def Proc.SleepsOn (x : Proc n) (chan : UInt64) : Prop := x.state = .sleeping ∧ x.chan = chan

theorem Changes.live {addr : Fin n → UInt64} {s : Table C n} {a : Action C} {p : Fin n} {x y : Proc n}
    (changes : Changes addr s a p x y) (live : x.Live) (stays : ∀ c, s.cpu c = some p → a ≠ .exit c) :
    y.Live ∧ y.pid = x.pid := by
  cases changes with
  | kept state chan pid => exact ⟨by simpa [Proc.Live, state] using live, pid⟩
  | woken before after pid => exact ⟨by simp [Proc.Live, after], pid⟩
  | started before after => simp [Proc.Live, before] at live
  | readied before after => simp [Proc.Live, before] at live
  | picked before after pid => exact ⟨by simp [Proc.Live, after], pid⟩
  | pickedWaiting before after chan pid => exact ⟨by simp [Proc.Live, after], pid⟩
  | left c on acts notExit after pid =>
    refine ⟨?_, pid⟩
    rcases after with runnable | ⟨asleep, _⟩
    · exact .inr (.inl runnable)
    · exact .inr (.inr asleep)
  | exited c on isExit after => exact absurd isExit (stays c on)
  | reaped before after => simp [Proc.Live, before] at live

theorem Changes.running {addr : Fin n → UInt64} {s : Table C n} {a : Action C} {p : Fin n} {x y : Proc n}
    (changes : Changes addr s a p x y) (running : x.state = .running)
    (bystander : ∀ c, s.cpu c = some p → a.by ≠ some c) : y.state = .running := by
  cases changes with
  | kept state chan pid => exact state.trans running
  | woken before after pid => simp [running] at before
  | started before after => simp [running] at before
  | readied before after => simp [running] at before
  | picked before after pid => exact after
  | pickedWaiting before after chan pid => simp [running] at before
  | left c on acts notExit after pid => exact absurd acts (bystander c on)
  | exited c on isExit after => exact absurd (by rw [isExit]; rfl) (bystander c on)
  | reaped before after => simp [running] at before

theorem Changes.asleep {addr : Fin n → UInt64} {s : Table C n} {a : Action C} {p : Fin n} {x y : Proc n} {chan : UInt64}
    (changes : Changes addr s a p x y) (asleep : y.SleepsOn chan) : x.SleepsOn chan ∨ a.SleepsOn addr p chan := by
  obtain ⟨sleeping, onChan⟩ := asleep
  cases changes with
  | kept state chan pid => exact .inl ⟨state ▸ sleeping, chan ▸ onChan⟩
  | woken before after pid => simp [sleeping] at after
  | started before after => simp [sleeping] at after
  | readied before after => simp [sleeping] at after
  | picked before after pid => simp [sleeping] at after
  | pickedWaiting before after chan pid => exact .inr (onChan ▸ chan)
  | left c on acts notExit after pid =>
    rcases after with runnable | ⟨_, sleepsOn⟩
    · simp [sleeping] at runnable
    · exact .inr (onChan ▸ sleepsOn)
  | exited c on isExit after => simp [sleeping] at after
  | reaped before after => simp [sleeping] at after

variable [DecidableEq C] {addr : Fin n → UInt64} {s t : Kernel C n}

/-- A turn of `wait` by process `p` on CPU `c`: it reaps another process, or `p` goes to sleep. -/
theorem WaitTurn.each {c : C} {p : Fin n} {before after : Table C n} {result : WaitEnd n}
    (turn : WaitTurn addr c p before after result) (q : Fin n) :
    after.proc q = before.proc q ∨
      ((before.proc q).state = .zombie ∧ (after.proc q).state = .unused) ∨
      (q = p ∧ (after.proc q).state = .sleeping ∧ (after.proc q).chan = addr q ∧
        (after.proc q).pid = (before.proc q).pid) := by
  cases turn with
  | reaped r child zombie =>
    by_cases same : q = r
    · subst same
      exact .inr (.inl ⟨zombie, by simp [cleanproc]⟩)
    · exact .inl (by simp [cleanproc, same])
  | childless none => exact .inl rfl
  | blocked none =>
    by_cases same : q = p
    · subst same
      exact .inr (.inr (by simp [Table.leave]))
    · exact .inl (by simp [Table.leave, same])

theorem Moves.changes {a : Action C} {e : Option (Fin n × WaitEnd n)} (placed : Placed s) (moves : Moves addr s a t e)
    (p : Fin n) : Changes addr s.table a p (s.table.proc p) (t.table.proc p) := by
  have same : t.table.proc p = s.table.proc p → Changes addr s.table a p (s.table.proc p) (t.table.proc p) :=
    fun same => same ▸ .kept rfl rfl rfl
  have start : ∀ owner, Started owner s t → Changes addr s.table a p (s.table.proc p) (t.table.proc p) := by
    rintro owner ⟨_, child, kstack, links, unused, rfl⟩
    by_cases isChild : p = child
    · subst isChild
      exact .started unused (by simp [Table.allocated])
    · exact same (by simp [Table.allocated, isChild])
  have ready : ∀ owner, Readied owner s t → Changes addr s.table a p (s.table.proc p) (t.table.proc p) := by
    rintro owner ⟨child, prio, links, busy, rfl⟩
    by_cases isChild : p = child
    · subst isChild
      exact .readied (placed.pending owner p (by rw [busy]; rfl)) (by simp)
    · exact same (by simp [isChild])
  cases moves with
  | userInit started => exact start none started
  | @userCopy loop child thread =>
    by_cases isChild : p = child
    · subst isChild
      exact .kept (by simp) (by simp) (by simp)
    · exact same (by simp [isChild])
  | userReady readied => exact ready none readied
  | @fork c kstack par _ on started => exact start (some par) started
  | @forkCopy c par child on thread =>
    by_cases isChild : p = child
    · subst isChild
      exact .kept (by simp) (by simp) (by simp)
    · exact same (by simp [isChild])
  | @forkReady c par _ on readied => exact ready (some par) readied
  | schedulerIdle idle => exact same rfl
  | @scheduler c q table result links links' idle runnable resumes =>
    by_cases isPicked : p = q
    · subst isPicked
      cases resumes with
      | released context =>
        exact .picked runnable
          (by simp [Kernel.setTable, Table.picked]) (by simp [Kernel.setTable, Table.picked])
      | slept context =>
        exact .picked runnable
          (by simp [Kernel.setTable, Table.picked]) (by simp [Kernel.setTable, Table.picked])
      | waited context turn =>
        rcases turn.each p with kept | ⟨zombie, _⟩ | ⟨_, asleep, chan, pid⟩
        · refine .picked runnable ?_ ?_
          · simp [Kernel.setTable, kept, Table.picked]
          · simp [Kernel.setTable, kept, Table.picked]
        · simp [Table.picked] at zombie
        · refine .pickedWaiting runnable asleep ?_ ?_
          · exact chan.symm
          · refine Eq.trans pid ?_
            simp [Table.picked]
    · cases resumes with
      | released context => exact same (by simp [Kernel.setTable, Table.picked, isPicked])
      | slept context => exact same (by simp [Kernel.setTable, Table.picked, isPicked])
      | waited context turn =>
        rcases turn.each p with kept | ⟨zombie, unused⟩ | ⟨isSelf, _⟩
        · exact same (by simp [Kernel.setTable, kept, Table.picked, isPicked])
        · exact .reaped (by simpa [Table.picked, isPicked] using zombie) unused
        · exact absurd isSelf isPicked
  | @yield c q links on =>
    by_cases isSelf : p = q
    · subst isSelf
      exact .left c on rfl (by simp) (.inl (by simp [Kernel.setTable, Table.leave]))
        (by simp [Kernel.setTable, Table.leave])
    · exact same (by simp [Kernel.setTable, Table.leave, isSelf])
  | @sleep c q chan links on free =>
    by_cases isSelf : p = q
    · subst isSelf
      refine .left c on rfl (by simp) (.inr ⟨by simp [Kernel.setTable, Table.leave], ?_⟩)
        (by simp [Kernel.setTable, Table.leave])
      simp [Action.SleepsOn, Kernel.setTable, Table.leave]
    · exact same (by simp [Kernel.setTable, Table.leave, isSelf])
  | @wakeup chan links =>
    rcases woken_cases chan (s.table.proc p) with ⟨kept, _⟩ | ⟨slept, awake⟩
    · exact same kept
    · exact .woken slept awake (woken_pid chan _)
  | @exit c q links on free =>
    by_cases isSelf : p = q
    · subst isSelf
      exact .exited c on rfl (exited_self s.table c p).1
    · have pid := exited_pid addr s.table c isSelf
      rcases exited_cases addr s.table c isSelf with ⟨state, _, chan, _⟩ | ⟨slept, awake⟩
      · exact .kept state chan pid
      · exact .woken slept awake pid
  | @wait c q table result links on free turn =>
    rcases turn.each p with kept | ⟨zombie, unused⟩ | ⟨isSelf, asleep, chan, pid⟩
    · exact same kept
    · exact .reaped zombie unused
    · subst isSelf
      exact .left c on rfl (by simp) (.inr ⟨asleep, chan.symm⟩) pid

/-- A kernel thread is in `fork` afterwards as it was, unless its process acts in `fork`. -/
theorem Moves.threads {a : Action C} {e : Option (Fin n × WaitEnd n)} (moves : Moves addr s a t e) (p : Fin n) :
    t.thread (some p) = s.thread (some p) ∨
      ∃ c, a.by = some c ∧ s.table.cpu c = some p ∧ ∀ chan, a ≠ .sleep c chan := by
  cases moves with
  | userInit started =>
    obtain ⟨_, child, kstack, links, _, rfl⟩ := started
    exact .inl (by simp)
  | userCopy thread => exact .inl (by simp)
  | userReady readied =>
    obtain ⟨child, prio, links, _, rfl⟩ := readied
    exact .inl (by simp)
  | @fork c kstack par _ on started =>
    obtain ⟨_, child, kstack, links, _, rfl⟩ := started
    by_cases same : p = par
    · exact .inr ⟨c, rfl, same ▸ on, by simp⟩
    · exact .inl (by simp [same])
  | @forkCopy c par child on thread =>
    by_cases same : p = par
    · exact .inr ⟨c, rfl, same ▸ on, by simp⟩
    · exact .inl (by simp [same])
  | @forkReady c par _ on readied =>
    obtain ⟨child, prio, links, _, rfl⟩ := readied
    by_cases same : p = par
    · exact .inr ⟨c, rfl, same ▸ on, by simp⟩
    · exact .inl (by simp [same])
  | _ => exact .inl rfl

-- A part of `fork`.
def Action.OfFork : Action C → Prop
  | .fork .. | .forkCopy _ | .forkReady _ => True
  | _ => False

theorem Moves.thread_kept {a : Action C} {e : Option (Fin n × WaitEnd n)} (moves : Moves addr s a t e)
    (notFork : ¬ a.OfFork) (p : Fin n) : t.thread (some p) = s.thread (some p) := by
  cases moves with
  | userInit started =>
    obtain ⟨_, child, kstack, links, _, rfl⟩ := started
    simp
  | userCopy thread => simp
  | userReady readied =>
    obtain ⟨child, prio, links, _, rfl⟩ := readied
    simp
  | fork on started => exact absurd trivial notFork
  | forkCopy on thread => exact absurd trivial notFork
  | forkReady on readied => exact absurd trivial notFork
  | _ => rfl

-- Asleep on a channel in `sleep` itself, not in `wait`.
def Proc.Dormant (x : Proc n) (chan : UInt64) : Prop := x.SleepsOn chan ∧ x.context ≠ .wait

-- On a CPU or on the way to it, and not in a `wait` that would put it back to sleep.
def Proc.Returning (x : Proc n) : Prop := x.state = .running ∨ (x.state = .runnable ∧ x.context ≠ .wait)

omit [DecidableEq C] in
theorem woken_other {chan : UInt64} {x : Proc n} (elsewhere : x.chan ≠ chan) : woken chan x = x :=
  if_neg fun hit => elsewhere hit.1

/-- A sleeper is left alone by everything but a wakeup of its channel, which is neither
a null pointer nor the address of a process. -/
theorem Moves.dormant {a : Action C} {e : Option (Fin n × WaitEnd n)} {p : Fin n} {chan : UInt64} (placed : Placed s)
    (moves : Moves addr s a t e) (dormant : (s.table.proc p).Dormant chan) (notWoken : a ≠ .wakeup chan)
    (apart : ∀ q, addr q ≠ chan) (notNull : chan ≠ 0) : (t.table.proc p).Dormant chan := by
  obtain ⟨⟨asleep, onChan⟩, notWait⟩ := dormant
  have same : t.table.proc p = s.table.proc p → (t.table.proc p).Dormant chan :=
    fun same => same ▸ ⟨⟨asleep, onChan⟩, notWait⟩
  have notChild : ∀ owner child, (s.thread owner).child = some child → p ≠ child := by
    rintro owner child isChild rfl
    simp [placed.pending owner p isChild] at asleep
  have start : ∀ owner, Started owner s t → (t.table.proc p).Dormant chan := by
    rintro owner ⟨_, child, kstack, links, unused, rfl⟩
    have other : p ≠ child := by
      rintro rfl
      simp [unused] at asleep
    exact same (by simp [Table.allocated, other])
  have ready : ∀ owner, Readied owner s t → (t.table.proc p).Dormant chan := by
    rintro owner ⟨child, prio, links, busy, rfl⟩
    exact same (by simp [notChild owner child (by rw [busy]; rfl)])
  have notRunning : ∀ c q, s.table.cpu c = some q → p ≠ q := by
    rintro c q on rfl
    simp [placed.current c p on] at asleep
  cases moves with
  | userInit started => exact start none started
  | @userCopy loop child thread => exact same (by simp [notChild none child (by rw [thread]; rfl)])
  | userReady readied => exact ready none readied
  | @fork c kstack par _ on started => exact start (some par) started
  | @forkCopy c par child on thread => exact same (by simp [notChild (some par) child (by rw [thread]; rfl)])
  | @forkReady c par _ on readied => exact ready (some par) readied
  | schedulerIdle idle => exact same rfl
  | @scheduler c q table result links links' idle runnable resumes =>
    have other : p ≠ q := by
      rintro rfl
      simp [runnable] at asleep
    cases resumes with
    | released context => exact same (by simp [Kernel.setTable, Table.picked, other])
    | slept context => exact same (by simp [Kernel.setTable, Table.picked, other])
    | waited context turn =>
      rcases turn.each p with kept | ⟨zombie, _⟩ | ⟨isSelf, _⟩
      · exact same (by simp [Kernel.setTable, kept, Table.picked, other])
      · simp [Table.picked, other, asleep] at zombie
      · exact absurd isSelf other
  | @yield c q links on => exact same (by simp [Kernel.setTable, Table.leave, notRunning c q on])
  | @sleep c q chan' links on free => exact same (by simp [Kernel.setTable, Table.leave, notRunning c q on])
  | @wakeup chan' links =>
    have elsewhere : (s.table.proc p).chan ≠ chan' := by
      rintro rfl
      exact notWoken (by rw [onChan])
    exact same (woken_other elsewhere)
  | @exit c q links on free =>
    have elsewhere : ∀ parent : Option (Fin n), (s.table.proc p).chan ≠ channel addr parent := by
      intro parent
      rw [onChan]
      cases parent with
      | none => exact notNull
      | some q => exact (apart q).symm
    have after : (s.table.exited addr c q).proc p = _ := exited_other s.table c (notRunning c q on)
    rw [woken_other (elsewhere _), woken_other (elsewhere _), ite_self] at after
    refine ⟨⟨?_, ?_⟩, ?_⟩
    · exact (congrArg Proc.state after).trans asleep
    · exact (congrArg Proc.chan after).trans onChan
    · exact fun isWait => notWait ((congrArg Proc.context after).symm.trans isWait)
  | @wait c q table result links on free turn =>
    rcases turn.each p with kept | ⟨zombie, _⟩ | ⟨isSelf, _⟩
    · exact same kept
    · simp [asleep] at zombie
    · exact absurd isSelf (notRunning c q on)

/-- Who is on the way back to its kernel code stays so, whatever the others do. -/
theorem Moves.returning {a : Action C} {e : Option (Fin n × WaitEnd n)} {p : Fin n} (placed : Placed s)
    (moves : Moves addr s a t e) (returning : (s.table.proc p).Returning)
    (yields : ∀ c, s.table.cpu c = some p → a.by = some c → a = .yield c) : (t.table.proc p).Returning := by
  have same : t.table.proc p = s.table.proc p → (t.table.proc p).Returning := fun same => same ▸ returning
  have awake : (s.table.proc p).state = .running ∨ (s.table.proc p).state = .runnable := by
    rcases returning with running | ⟨runnable, _⟩
    · exact .inl running
    · exact .inr runnable
  have notChild : ∀ owner child, (s.thread owner).child = some child → p ≠ child := by
    rintro owner child isChild rfl
    simp [placed.pending owner p isChild] at awake
  have start : ∀ owner, Started owner s t → (t.table.proc p).Returning := by
    rintro owner ⟨_, child, kstack, links, unused, rfl⟩
    have other : p ≠ child := by
      rintro rfl
      simp [unused] at awake
    exact same (by simp [Table.allocated, other])
  have ready : ∀ owner, Readied owner s t → (t.table.proc p).Returning := by
    rintro owner ⟨child, prio, links, busy, rfl⟩
    exact same (by simp [notChild owner child (by rw [busy]; rfl)])
  have notAsleep : ∀ chan, woken chan (s.table.proc p) = s.table.proc p := by
    intro chan
    rcases awake with running | runnable
    · exact if_neg (by simp [running])
    · exact if_neg (by simp [runnable])
  -- an action other than `yield` is another process's
  have notActor : ∀ c q, a.by = some c → (∀ d, a ≠ .yield d) → s.table.cpu c = some q → p ≠ q := by
    rintro c q acts notYield on rfl
    exact notYield c (yields c on acts)
  cases moves with
  | userInit started => exact start none started
  | @userCopy loop child thread => exact same (by simp [notChild none child (by rw [thread]; rfl)])
  | userReady readied => exact ready none readied
  | @fork c kstack par _ on started => exact start (some par) started
  | @forkCopy c par child on thread => exact same (by simp [notChild (some par) child (by rw [thread]; rfl)])
  | @forkReady c par _ on readied => exact ready (some par) readied
  | schedulerIdle idle => exact same rfl
  | @scheduler c q table result links links' idle runnable resumes =>
    by_cases isPicked : p = q
    · subst isPicked
      cases resumes with
      | released context => exact .inl (by simp [Kernel.setTable, Table.picked])
      | slept context => exact .inl (by simp [Kernel.setTable, Table.picked])
      | waited context turn =>
        have waits : (s.table.proc p).context = .wait := by simpa [Table.picked] using context
        rcases returning with running | ⟨_, notWait⟩
        · simp [runnable] at running
        · exact absurd waits notWait
    · cases resumes with
      | released context => exact same (by simp [Kernel.setTable, Table.picked, isPicked])
      | slept context => exact same (by simp [Kernel.setTable, Table.picked, isPicked])
      | waited context turn =>
        rcases turn.each p with kept | ⟨zombie, _⟩ | ⟨isSelf, _⟩
        · exact same (by simp [Kernel.setTable, kept, Table.picked, isPicked])
        · rcases awake with awake | awake <;> simp [Table.picked, isPicked, awake] at zombie
        · exact absurd isSelf isPicked
  | @yield c q links on =>
    by_cases isSelf : p = q
    · subst isSelf
      exact .inr ⟨by simp [Kernel.setTable, Table.leave], by simp [Kernel.setTable, Table.leave]⟩
    · exact same (by simp [Kernel.setTable, Table.leave, isSelf])
  | @sleep c q chan' links on free =>
    have other := notActor c q rfl (by simp) on
    exact same (by simp [Kernel.setTable, Table.leave, other])
  | @wakeup chan' links => exact same (notAsleep chan')
  | @exit c q links on free =>
    have after : (s.table.exited addr c q).proc p = _ := exited_other s.table c (notActor c q rfl (by simp) on)
    rw [notAsleep, notAsleep, ite_self] at after
    rcases returning with running | ⟨runnable, notWait⟩
    · exact .inl ((congrArg Proc.state after).trans running)
    · exact .inr ⟨(congrArg Proc.state after).trans runnable,
        fun isWait => notWait ((congrArg Proc.context after).symm.trans isWait)⟩
  | @wait c q table result links on free turn =>
    rcases turn.each p with kept | ⟨zombie, _⟩ | ⟨isSelf, _⟩
    · exact same kept
    · rcases awake with awake | awake <;> simp [awake] at zombie
    · exact absurd isSelf (notActor c q rfl (by simp) on)

theorem Moves.wakeup_returning {e : Option (Fin n × WaitEnd n)} {p : Fin n} {chan : UInt64}
    (moves : Moves addr s (.wakeup chan) t e) (dormant : (s.table.proc p).Dormant chan) :
    (t.table.proc p).Returning := by
  obtain ⟨⟨asleep, onChan⟩, notWait⟩ := dormant
  cases moves with
  | wakeup links =>
    have awake : woken chan (s.table.proc p) = { s.table.proc p with state := .runnable, chan := 0 } :=
      if_pos ⟨onChan, asleep⟩
    exact .inr ⟨congrArg Proc.state awake, fun isWait => notWait ((congrArg Proc.context awake).symm.trans isWait)⟩

theorem Moves.sleep_dormant {e : Option (Fin n × WaitEnd n)} {c : C} {p : Fin n} {chan : UInt64}
    (moves : Moves addr s (.sleep c chan) t e) (on : s.table.cpu c = some p) : (t.table.proc p).Dormant chan := by
  cases moves with
  | @sleep _ q _ links onQ free =>
    cases on.symm.trans onQ
    simp [Proc.Dormant, Proc.SleepsOn, Kernel.setTable, Table.leave]

end

end Xv6.Process
