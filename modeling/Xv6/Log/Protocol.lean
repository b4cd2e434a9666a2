import Xv6.Library.Counting
import Xv6.Library.Transition
import Xv6.Log.Operations

/-! The protocol of `begin_op`, `log_write` and `end_op` between any number of processes.

A step is one critical section under `log.lock`, so every state here is one in
which the lock is free. `commit` runs without the lock; what it does to the
header is a step of its own.
-/

set_option autoImplicit false

namespace Xv6.Log.Protocol

open Library

/-- The channels of `sleep` and `wakeup`: the log's, and those of other subsystems. -/
inductive Chan where
  | log
  | other (c : Nat)
  deriving DecidableEq

inductive Pc where
  | outside
  /-- in the loop of `begin_op` -/
  | beginOp
  /-- between `begin_op` and `end_op`, with the distinct blocks logged so far -/
  | inOp (logged : List UInt32)
  /-- in `end_op`, with `commit` to be run -/
  | commit
  /-- in `end_op`, after `commit` -/
  | committed
  deriving DecidableEq

structure State (Pid : Type) where
  log : Log
  pc : Pid → Pc
  /-- the channel a SLEEPING process waits on -/
  chan : Pid → Option Chan

inductive Act (Pid : Type) where
  | beginOp (p : Pid)
  | admission (p : Pid)
  | logWrite (p : Pid) (blockno : UInt32)
  | endOp (p : Pid)
  | commit (p : Pid)
  | committed (p : Pid)
  | sleep (p : Pid) (c : Nat)
  | wakeup (c : Nat)

variable {Pid : Type}

/-- After `initlog`, on a log without entries. -/
def boot (dev : UInt32) (sb : Superblock) (block : Fin logSize → UInt32) : State Pid :=
  ⟨ofSuperblock dev sb ⟨0, block⟩, fun _ => .outside, fun _ => none⟩

-- `log.lh.n + (log.outstanding + 1) * MAXOPBLOCKS > LOGSIZE`
def full (log : Log) : Bool := log.lh.n + (log.outstanding + 1) * maxOpBlocks > logSize

def Pc.logged : Pc → List UInt32
  | .inOp logged => logged
  | _ => []

def Pc.operating : Pc → Bool
  | .inOp _ => true
  | _ => false

section
variable [DecidableEq Pid]

-- `sleep(chan, lk)`, up to the call of `sched`
def sleep (p : Pid) (chan : Chan) (s : State Pid) : State Pid :=
  { s with chan := Function.update s.chan p (some chan) }

-- `wakeup(chan)`
def wakeup (chan : Chan) (s : State Pid) : State Pid :=
  { s with chan := fun p => if s.chan p = some chan then none else s.chan p }

def goto (p : Pid) (pc : Pc) (s : State Pid) : State Pid := { s with pc := Function.update s.pc p pc }

/-- `none`: the action is not enabled, or it leaves the array of the header. An
operation logs at most `MAXOPBLOCKS` blocks. The calls of `wakeup` in the kernel
are for channels of other subsystems. -/
def step : Act Pid → State Pid → Option (State Pid)
  | .beginOp p, s => if s.pc p = .outside ∧ s.chan p = none then some (goto p .beginOp s) else none
  | .admission p, s =>
    if s.pc p = .beginOp ∧ s.chan p = none then
      if s.log.committing then some (sleep p .log s)
      else if full s.log then some (sleep p .log s)
      else some (goto p (.inOp []) { s with log := { s.log with outstanding := s.log.outstanding + 1 } })
    else none
  | .logWrite p blockno, s =>
    let logged := (s.pc p).logged.insert blockno
    if (s.pc p).operating ∧ s.chan p = none ∧ logged.length ≤ maxOpBlocks then
      (s.log.lh.record blockno).map fun lh => goto p (.inOp logged) { s with log := { s.log with lh } }
    else none
  | .endOp p, s =>
    if (s.pc p).operating ∧ s.chan p = none then
      let log := { s.log with outstanding := s.log.outstanding - 1 }
      if log.outstanding = 0 then some (goto p .commit { s with log := { log with committing := true } })
      else some (goto p .outside { s with log })
    else none
  | .commit p, s =>
    if s.pc p = .commit ∧ s.chan p = none then some (goto p .committed { s with log := s.log.reset }) else none
  | .committed p, s =>
    if s.pc p = .committed ∧ s.chan p = none then
      some (goto p .outside { s with log := { s.log with committing := false } })
    else none
  | .sleep p c, s => if s.chan p = none then some (sleep p (.other c) s) else none
  | .wakeup c, s => some (wakeup (.other c) s)

end

/-! ## What a step leaves alone -/

section
variable [DecidableEq Pid] {s t : State Pid} {a : Act Pid}

theorem step_start (stepped : step a s = some t) : t.log.start = s.log.start := by
  cases a with
  | beginOp p | commit p | committed p | sleep p c =>
    simp only [step, Option.ite_none_right_eq_some, Option.some.injEq] at stepped
    obtain ⟨_, rfl⟩ := stepped
    rfl
  | admission p =>
    simp only [step, Option.ite_none_right_eq_some] at stepped
    obtain ⟨_, result⟩ := stepped
    repeat' split at result
    all_goals
      cases result
      rfl
  | logWrite p blockno =>
    simp only [step, Option.ite_none_right_eq_some, Option.map_eq_some_iff] at stepped
    obtain ⟨_, lh, _, rfl⟩ := stepped
    rfl
  | endOp p =>
    simp only [step, Option.ite_none_right_eq_some] at stepped
    obtain ⟨_, result⟩ := stepped
    split at result <;> cases result <;> rfl
  | wakeup c =>
    cases Option.some.inj stepped
    rfl

theorem step_operating {q : Pid} (stepped : step a s = some t) (operating : (s.pc q).operating = true) :
    (t.pc q).operating = true ∨ a = .endOp q := by
  have moved {p : Pid} {pc : Pc} {log : Log} (idle : (s.pc p).operating = false) :
      ((goto p pc { s with log }).pc q).operating = true := by
    have other : q ≠ p := fun same => by simp [same, idle] at operating
    simpa [goto, other] using operating
  cases a with
  | beginOp p | commit p | committed p =>
    simp only [step, Option.ite_none_right_eq_some, Option.some.injEq] at stepped
    obtain ⟨⟨pc, _⟩, rfl⟩ := stepped
    exact .inl (moved (by rw [pc]; rfl))
  | admission p =>
    simp only [step, Option.ite_none_right_eq_some] at stepped
    obtain ⟨⟨pc, _⟩, result⟩ := stepped
    split at result
    · cases result
      exact .inl operating
    · split at result
      · cases result
        exact .inl operating
      · cases result
        exact .inl (moved (by rw [pc]; rfl))
  | logWrite p blockno =>
    simp only [step, Option.ite_none_right_eq_some, Option.map_eq_some_iff] at stepped
    obtain ⟨_, lh, _, rfl⟩ := stepped
    by_cases here : q = p
    · simp [goto, here, Pc.operating]
    · simp [goto, here, operating]
  | endOp p =>
    by_cases here : q = p
    · exact .inr (by rw [here])
    · simp only [step, Option.ite_none_right_eq_some] at stepped
      obtain ⟨_, result⟩ := stepped
      left
      split at result <;> cases result <;> simpa [goto, here] using operating
  | sleep p c =>
    simp only [step, Option.ite_none_right_eq_some, Option.some.injEq] at stepped
    obtain ⟨_, rfl⟩ := stepped
    exact .inl operating
  | wakeup c =>
    cases Option.some.inj stepped
    exact .inl operating

end

/-! ## The invariant -/

def operation (pc : Pc) : Nat := if pc.operating then 1 else 0

/-- One for a process that commits, up to the end of its `end_op`. -/
def commits : Pc → Nat
  | .commit | .committed => 1
  | _ => 0

def reservation (pc : Pc) : Nat := if pc.operating then maxOpBlocks - pc.logged.length else 0

variable [Fintype Pid]

structure Inv (s : State Pid) : Prop where
  empty : s.log.lh.n = 0
  outstanding : s.log.outstanding = (∑ p, operation (s.pc p) : Nat)
  room : s.log.outstanding * maxOpBlocks ≤ logSize
  committing : ∑ p, commits (s.pc p) = if s.log.committing then 1 else 0
  exclusive : s.log.committing = true → s.log.outstanding = 0

theorem inv_boot (dev : UInt32) (sb : Superblock) (block : Fin logSize → UInt32) :
    Inv (boot dev sb block : State Pid) where
  empty := rfl
  outstanding := by simp [boot, ofSuperblock, operation, Pc.operating]
  room := by simp [boot, ofSuperblock]
  committing := by simp [boot, ofSuperblock, commits]
  exclusive := nofun

theorem Inv.of_chan {s : State Pid} (inv : Inv s) (chan : Pid → Option Chan) : Inv { s with chan } :=
  ⟨inv.1, inv.2, inv.3, inv.4, inv.5⟩

theorem Inv.operating {s : State Pid} {p : Pid} (inv : Inv s) (operating : (s.pc p).operating = true) :
    operation (s.pc p) = 1 ∧ commits (s.pc p) = 0 ∧ 0 < s.log.outstanding ∧ s.log.committing = false := by
  have one : operation (s.pc p) = 1 := by simp [operation, operating]
  have counted : operation (s.pc p) ≤ ∑ q, operation (s.pc q) :=
    le_total (fun q => operation (s.pc q)) p
  have outstanding := inv.outstanding
  refine ⟨one, ?_, by omega, ?_⟩
  · cases pc : s.pc p <;> simp_all [Pc.operating, commits]
  · by_contra committing
    have none := inv.exclusive (by simpa using committing)
    omega

theorem Inv.committer {s : State Pid} {p : Pid} (inv : Inv s) (one : commits (s.pc p) = 1) :
    s.log.committing = true := by
  have counted := le_total (fun q => commits (s.pc q)) p
  rw [inv.committing] at counted
  by_contra idle
  simp [one, idle] at counted

section
variable [DecidableEq Pid] {s t : State Pid} {p : Pid}

theorem count_goto (weight : Pc → Nat) (p : Pid) (pc : Pc) (s : State Pid) :
    (∑ q, weight ((goto p pc s).pc q)) + weight (s.pc p) = (∑ q, weight (s.pc q)) + weight pc :=
  sum_weight_update weight s.pc p pc

/-- A process that moves on keeps the invariant if the counters of the log follow it. -/
theorem Inv.goto {log : Log} {pc : Pc} (inv : Inv s) (empty : log.lh.n = 0)
    (outstanding : log.outstanding + operation (s.pc p) = s.log.outstanding + operation pc)
    (room : log.outstanding * maxOpBlocks ≤ logSize)
    (committing : (if log.committing then 1 else 0) + commits (s.pc p) =
      (if s.log.committing then 1 else 0) + commits pc)
    (exclusive : log.committing = true → log.outstanding = 0) : Inv (goto p pc { s with log }) where
  empty := empty
  outstanding := by
    have moved := count_goto operation p pc s
    have before := inv.outstanding
    change log.outstanding = (∑ q, operation ((Protocol.goto p pc s).pc q) : Nat)
    omega
  room := room
  committing := by
    have moved := count_goto commits p pc s
    have before := inv.committing
    change ∑ q, commits ((Protocol.goto p pc s).pc q) = if log.committing then 1 else 0
    omega
  exclusive := exclusive

theorem inv_beginOp (inv : Inv s) (stepped : step (.beginOp p) s = some t) : Inv t := by
  simp only [step, Option.ite_none_right_eq_some, Option.some.injEq] at stepped
  obtain ⟨⟨pc, _⟩, rfl⟩ := stepped
  exact inv.goto inv.empty (by simp [pc, operation, Pc.operating]) inv.room (by simp [pc, commits]) inv.exclusive

theorem inv_admission (inv : Inv s) (stepped : step (.admission p) s = some t) : Inv t := by
  simp only [step, Option.ite_none_right_eq_some] at stepped
  obtain ⟨⟨pc, _⟩, admitted⟩ := stepped
  split at admitted
  · cases admitted
    exact inv.of_chan _
  · next idle =>
    split at admitted
    · cases admitted
      exact inv.of_chan _
    · next space =>
      cases admitted
      -- the test that `begin_op` has just passed
      have fits : s.log.lh.n + (s.log.outstanding + 1) * 10 ≤ 30 := by simpa [full] using space
      have empty := inv.empty
      refine inv.goto empty ?_ ?_ (by simp [pc, commits]) fun committing => absurd committing idle
      · simp [pc, operation, Pc.operating]
      · change (s.log.outstanding + 1) * 10 ≤ 30
        omega

theorem inv_logWrite {blockno : UInt32} (inv : Inv s) (stepped : step (.logWrite p blockno) s = some t) : Inv t := by
  simp only [step, Option.ite_none_right_eq_some, LogHeader.record_empty inv.empty, Option.map_some,
    Option.some.injEq] at stepped
  obtain ⟨⟨operating, _⟩, rfl⟩ := stepped
  obtain ⟨one, none, _⟩ := inv.operating operating
  exact inv.goto inv.empty (by rw [one]; rfl) inv.room (by rw [none]; rfl) inv.exclusive

theorem inv_endOp (inv : Inv s) (stepped : step (.endOp p) s = some t) : Inv t := by
  simp only [step, Option.ite_none_right_eq_some] at stepped
  obtain ⟨⟨operating, _⟩, ended⟩ := stepped
  obtain ⟨one, none, positive, idle⟩ := inv.operating operating
  have room : s.log.outstanding * 10 ≤ 30 := inv.room
  have fewer : (s.log.outstanding - 1) * 10 ≤ 30 := by omega
  split at ended
  · -- the last operation commits
    next last =>
    cases ended
    exact inv.goto inv.empty (by rw [one]; simp [operation, Pc.operating]) fewer (by rw [none, idle]; simp [commits])
      fun _ => last
  · cases ended
    refine inv.goto inv.empty (by rw [one]; simp [operation, Pc.operating]) fewer (by rw [none]; simp [commits]) ?_
    exact fun committing => absurd (idle.symm.trans committing) (by decide)

theorem inv_commit (inv : Inv s) (stepped : step (.commit p) s = some t) : Inv t := by
  simp only [step, Option.ite_none_right_eq_some, Option.some.injEq] at stepped
  obtain ⟨⟨pc, _⟩, rfl⟩ := stepped
  exact inv.goto rfl (by rw [pc]; rfl) inv.room (by rw [pc]; rfl) inv.exclusive

theorem inv_committed (inv : Inv s) (stepped : step (.committed p) s = some t) : Inv t := by
  simp only [step, Option.ite_none_right_eq_some, Option.some.injEq] at stepped
  obtain ⟨⟨pc, _⟩, rfl⟩ := stepped
  have committing := inv.committer (p := p) (by rw [pc]; rfl)
  exact inv.goto inv.empty (by rw [pc]; rfl) inv.room (by simp [pc, commits, committing]) nofun

theorem inv_step {a : Act Pid} (inv : Inv s) (stepped : step a s = some t) : Inv t := by
  cases a with
  | beginOp p => exact inv_beginOp inv stepped
  | admission p => exact inv_admission inv stepped
  | logWrite p blockno => exact inv_logWrite inv stepped
  | endOp p => exact inv_endOp inv stepped
  | commit p => exact inv_commit inv stepped
  | committed p => exact inv_committed inv stepped
  | sleep p c =>
    simp only [step, Option.ite_none_right_eq_some, Option.some.injEq] at stepped
    obtain ⟨_, rfl⟩ := stepped
    exact inv.of_chan _
  | wakeup c =>
    cases Option.some.inj stepped
    exact inv.of_chan _

theorem inv_run {acts : List (Act Pid)} (inv : Inv s) (ran : run step acts s = some t) : Inv t :=
  run_invariant (fun _ _ _ => inv_step) inv ran

/-! ## Group commit -/

/-- What holds whenever `log.lock` is free. -/
structure GroupCommit (s : State Pid) : Prop where
  nonneg : 0 ≤ s.log.outstanding
  exclusive : s.log.committing = true → s.log.outstanding = 0
  single : ∀ p q, s.pc p = .commit → s.pc q = .commit → p = q
  admitted : ∀ p t, step (.admission p) s = some t → (t.pc p).operating = true → s.log.committing = false
  reserved : s.log.lh.n + (∑ p, reservation (s.pc p) : Nat) ≤ logSize
  inBounds : ∀ blockno, (s.log.lh.record blockno).isSome = true

theorem Inv.groupCommit (inv : Inv s) : GroupCommit s where
  nonneg := by
    rw [inv.outstanding]
    exact Int.natCast_nonneg _
  exclusive := inv.exclusive
  single p q atP atQ := by
    by_contra other
    have both := add_le_total (fun r => commits (s.pc r)) other
    have one := inv.committing
    simp only [atP, atQ, commits] at both one
    split at one <;> omega
  admitted p t stepped operating := by
    simp only [step, Option.ite_none_right_eq_some] at stepped
    obtain ⟨⟨pc, _⟩, result⟩ := stepped
    split at result
    · cases result
      simp [sleep, pc, Pc.operating] at operating
    · next idle => simpa using idle
  reserved := by
    have each : ∀ q, reservation (s.pc q) ≤ operation (s.pc q) * maxOpBlocks := by
      intro q
      simp only [reservation, operation]
      split <;> omega
    have total := Finset.sum_le_sum fun q (_ : q ∈ Finset.univ) => each q
    rw [← Finset.sum_mul] at total
    have outstanding := inv.outstanding
    have room : s.log.outstanding * 10 ≤ 30 := inv.room
    have empty := inv.empty
    change s.log.lh.n + (∑ p, reservation (s.pc p) : Nat) ≤ 30
    change _ ≤ (∑ q, operation (s.pc q)) * 10 at total
    omega
  inBounds blockno := by
    rw [LogHeader.record_empty inv.empty]
    rfl

/-- The protocol of the log, for any number of processes in any interleaving. -/
theorem group_commit {dev : UInt32} {sb : Superblock} {block : Fin logSize → UInt32} {acts : List (Act Pid)}
    (ran : run step acts (boot dev sb block) = some s) : GroupCommit s :=
  (inv_run (inv_boot dev sb block) ran).groupCommit

end

/-- Two operations, of which the second commits for both. -/
theorem group_commit_two : ∃ s : State (Fin 2),
    run step [.beginOp 0, .beginOp 1, .admission 0, .admission 1, .logWrite 0 40, .endOp 0, .endOp 1]
      (boot 1 Mkfs.superblock fun _ => 0) = some s ∧ GroupCommit s := by
  have returns : (run step [.beginOp 0, .beginOp 1, .admission 0, .admission 1, .logWrite 0 40, .endOp 0, .endOp 1]
      (boot 1 Mkfs.superblock fun _ => 0 : State (Fin 2))).isSome = true := by decide +kernel
  obtain ⟨s, ran⟩ := Option.isSome_iff_exists.mp returns
  exact ⟨s, ran, group_commit ran⟩

/-! ## Waiting for the log -/

/-- A process sleeps in `begin_op` while nothing is going on that could wake it. -/
structure Stranded (s : State Pid) : Prop where
  outstanding : s.log.outstanding = 0
  committing : s.log.committing = false
  finished : ∀ p, commits (s.pc p) = 0
  asleep : ∃ p, s.pc p = .beginOp ∧ s.chan p = some .log

/-- `begin_op` does not have to wait: no commit is running and the log has space. -/
def Admits : Act Pid → State Pid → Prop
  | .admission _, s => s.log.committing = false ∧ full s.log = false
  | _, _ => True

instance : (a : Act Pid) → (s : State Pid) → Decidable (Admits a s)
  | .admission _, _ => inferInstanceAs (Decidable (_ ∧ _))
  | .beginOp _, _ | .logWrite .., _ | .endOp _, _ | .commit _, _ | .committed _, _ | .sleep .., _
  | .wakeup _, _ => .isTrue trivial

section
omit [Fintype Pid]
variable [DecidableEq Pid] {s t : State Pid} {p : Pid} {a : Act Pid}

/-- A step leaves a process on its channel, puts it to sleep or wakes it; only a
refused `begin_op` puts it to sleep on the log, and nothing wakes it from there. -/
theorem step_chan (stepped : step a s = some t) (p : Pid) :
    t.chan p = s.chan p ∨ (s.chan p = none ∧ ∃ c, t.chan p = some (.other c)) ∨
      (t.chan p = none ∧ ∃ c, s.chan p = some (.other c)) ∨
      (s.chan p = none ∧ ¬ Admits a s) := by
  have slept {q : Pid} {chan : Chan} (awake : s.chan q = none) :
      (sleep q chan s).chan p = s.chan p ∨ s.chan p = none ∧ (sleep q chan s).chan p = some chan := by
    by_cases here : p = q
    · exact .inr ⟨here ▸ awake, by simp [sleep, here]⟩
    · exact .inl (by simp [sleep, here])
  cases a with
  | beginOp q | commit q | committed q =>
    simp only [step, Option.ite_none_right_eq_some, Option.some.injEq] at stepped
    obtain ⟨_, rfl⟩ := stepped
    exact .inl rfl
  | admission q =>
    simp only [step, Option.ite_none_right_eq_some] at stepped
    obtain ⟨⟨_, awake⟩, result⟩ := stepped
    split at result
    · next busy =>
      cases result
      refine (slept awake).imp_right fun asleep => .inr (.inr ⟨asleep.1, fun admits => ?_⟩)
      rw [admits.1] at busy
      cases busy
    · split at result
      · next refused =>
        cases result
        refine (slept awake).imp_right fun asleep => .inr (.inr ⟨asleep.1, fun admits => ?_⟩)
        rw [admits.2] at refused
        cases refused
      · cases result
        exact .inl rfl
  | logWrite q blockno =>
    simp only [step, Option.ite_none_right_eq_some, Option.map_eq_some_iff] at stepped
    obtain ⟨_, lh, _, rfl⟩ := stepped
    exact .inl rfl
  | endOp q =>
    simp only [step, Option.ite_none_right_eq_some] at stepped
    obtain ⟨_, result⟩ := stepped
    split at result <;> cases result <;> exact .inl rfl
  | sleep q c =>
    simp only [step, Option.ite_none_right_eq_some, Option.some.injEq] at stepped
    obtain ⟨awake, rfl⟩ := stepped
    exact (slept awake).imp_right fun asleep => .inl ⟨asleep.1, c, asleep.2⟩
  | wakeup c =>
    cases Option.some.inj stepped
    by_cases here : s.chan p = some (.other c)
    · exact .inr (.inr (.inl ⟨by simp [wakeup, here], c, here⟩))
    · exact .inl (by simp [wakeup, here])

def Unwaited (s : State Pid) : Prop := ∀ p, s.chan p ≠ some .log

theorem unwaited_step (awake : Unwaited s) (admits : Admits a s) (stepped : step a s = some t) : Unwaited t := by
  intro p
  rcases step_chan stepped p with same | ⟨_, c, asleep⟩ | ⟨woken, _⟩ | ⟨_, refused⟩
  · exact same ▸ awake p
  · simp [asleep]
  · simp [woken]
  · exact absurd admits refused

theorem chan_log_step (asleep : s.chan p = some .log) (stepped : step a s = some t) : t.chan p = some .log := by
  rcases step_chan stepped p with same | ⟨awake, _⟩ | ⟨_, c, elsewhere⟩ | ⟨awake, _⟩
  · exact same.trans asleep
  · simp [awake] at asleep
  · simp [elsewhere] at asleep
  · simp [awake] at asleep

theorem chan_log_run {acts : List (Act Pid)} (asleep : s.chan p = some .log) (ran : run step acts s = some t) :
    t.chan p = some .log :=
  run_invariant (fun _ _ _ => chan_log_step) asleep ran

/-- Nobody is stranded in a run in which `begin_op` never has to wait. -/
theorem not_stranded {dev : UInt32} {sb : Superblock} {block : Fin logSize → UInt32} {acts : List (Act Pid)}
    (admits : Meets step Admits acts (boot dev sb block)) (ran : run step acts (boot dev sb block) = some s) :
    ¬ Stranded s := by
  rintro ⟨_, _, _, p, _, asleep⟩
  have fresh : Unwaited (boot dev sb block : State Pid) := fun _ => by simp [boot]
  have awake : Unwaited s := run_invariant_of_meets (fun _ _ _ => unwaited_step) fresh admits ran
  exact awake p asleep

end

/-- One operation runs and commits; `begin_op` does not have to wait. -/
theorem not_stranded_one : ∃ s : State (Fin 1),
    run step [.beginOp 0, .admission 0, .endOp 0, .commit 0, .committed 0]
    (boot 1 Mkfs.superblock fun _ => 0) = some s ∧
      ¬ Stranded s := by
  have returns : (run step [.beginOp 0, .admission 0, .endOp 0, .commit 0, .committed 0]
      (boot 1 Mkfs.superblock fun _ => 0 : State (Fin 1))).isSome = true := by decide +kernel
  obtain ⟨s, ran⟩ := Option.isSome_iff_exists.mp returns
  exact ⟨s, ran, not_stranded (by decide +kernel) ran⟩

/-- Three operations fill the log, a fourth is refused, and the commit wakes nobody. -/
theorem fourth_stranded : ¬ ∀ (acts : List (Act (Fin 4))) (s : State (Fin 4)),
    run step acts (boot 1 Mkfs.superblock fun _ => 0) = some s → ¬ Stranded s := by
  intro never
  let acts : List (Act (Fin 4)) :=
    [.beginOp 0, .beginOp 1, .beginOp 2, .beginOp 3, .admission 0, .admission 1, .admission 2, .admission 3,
      .endOp 0, .endOp 1, .endOp 2, .commit 2, .committed 2]
  have strands : (run step acts (boot 1 Mkfs.superblock fun _ => 0)).any (fun s =>
      s.log.outstanding = 0 ∧ s.log.committing = false ∧ (∀ p, commits (s.pc p) = 0) ∧
        ∃ p, s.pc p = .beginOp ∧ s.chan p = some .log) = true := by decide +kernel
  obtain ⟨s, ran, stuck⟩ := (Option.any_eq_true _ _).mp strands
  obtain ⟨outstanding, committing, finished, asleep⟩ := of_decide_eq_true stuck
  exact never acts s ran ⟨outstanding, committing, finished, asleep⟩

end Xv6.Log.Protocol
