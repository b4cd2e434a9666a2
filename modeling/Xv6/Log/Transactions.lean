import Xv6.Log.OnCache
import Xv6.Log.Protocol

/-! File system operations on the log and the buffer cache together.

Processes in an operation use the cache in any interleaving and pass buffers to
`log_write`. A commit runs when no operation is left, so no other process uses
the cache while it runs. `logged` remembers the buffers that were passed to
`log_write`, with their block numbers.
-/

set_option autoImplicit false

namespace Xv6.Log.Transactions

open Library Buffer

structure System (Pid : Type) where
  protocol : Protocol.State Pid
  cache : Buffer.State Pid
  logged : List (Fin nbuf × UInt32)

inductive Act (Pid : Type) where
  | beginOp (p : Pid)
  | admission (p : Pid)
  | cache (p : Pid) (a : Buffer.Act Pid)
  | logWrite (h : Hold Pid)
  | endOp (p : Pid)
  | commit (p : Pid)
  | committed (p : Pid)
  | sleep (p : Pid) (c : Nat)
  | wakeup (c : Nat)

variable {Pid : Type}

def UsedBy (p : Pid) : Buffer.Act Pid → Prop
  | .bget q _ _ => q = p
  | .acquiresleep h | .fill h | .modify h _ | .releasesleep h | .unref h => h.pid = p
  | .bwrite _ | .bpin _ | .bunpin _ => False

variable [DecidableEq Pid]

instance (p : Pid) : (a : Buffer.Act Pid) → Decidable (UsedBy p a)
  | .bget .. | .acquiresleep _ | .fill _ | .modify .. | .releasesleep _ | .unref _ =>
      inferInstanceAs (Decidable (_ = _))
  | .bwrite _ | .bpin _ | .bunpin _ => inferInstanceAs (Decidable False)

def System.protocolStep (a : Protocol.Act Pid) (s : System Pid) : Option (System Pid) :=
  (Protocol.step a s.protocol).map fun protocol => { s with protocol }

/-- An operation gives its buffers back before `end_op`, and it does not log the log's header. -/
def step : Act Pid → System Pid → Option (System Pid)
  | .beginOp p, s => s.protocolStep (.beginOp p)
  | .admission p, s => s.protocolStep (.admission p)
  | .cache p a, s =>
    if (s.protocol.pc p).operating ∧ s.protocol.chan p = none ∧ UsedBy p a then
      (Buffer.step a s.cache).map fun cache => { s with cache }
    else none
  | .logWrite h, s =>
    let blockno := (s.cache.cache.buf h.buf).blockno
    if s.cache.At h .held ∧ blockno ≠ s.protocol.log.start then do
      let protocol ← Protocol.step (.logWrite h.pid blockno) s.protocol
      let (_, cache) ← (s.protocol.log.logWrite h.buf).run (exec h.pid) s.cache
      some ⟨protocol, cache, (h.buf, blockno) :: s.logged⟩
    else none
  | .endOp p, s => if ∀ h ∈ s.cache.holds, h.pid ≠ p then s.protocolStep (.endOp p) else none
  | .commit p, s => do
    -- nobody else uses the cache: see `Since.unheld`
    let protocol ← Protocol.step (.commit p) s.protocol
    let (_, cache) ← s.protocol.log.commit.run (exec p) s.cache
    some { s with protocol, cache }
  | .committed p, s => s.protocolStep (.committed p)
  | .sleep p c, s => s.protocolStep (.sleep p c)
  | .wakeup c, s => s.protocolStep (.wakeup c)

/-! ## Between two transactions -/

variable [Fintype Pid]

/-- No operation is going on, and nothing has been logged yet. -/
structure Quiet (s : System Pid) : Prop where
  protocol : Protocol.Inv s.protocol
  cache : Buffer.Inv s.cache
  unheld : s.cache.holds = []
  unlogged : s.logged = []

structure Since (s₀ s : System Pid) : Prop where
  protocol : Protocol.Inv s.protocol
  cache : Buffer.Inv s.cache
  start : s.protocol.log.start = s₀.protocol.log.start
  holders : ∀ h ∈ s.cache.holds, (s.protocol.pc h.pid).operating = true
  pins : ∀ i, s.cache.pins i = s₀.cache.pins i + s.logged.countP (fun w => w.1 = i)
  disk : ∀ b, b ≠ s₀.protocol.log.start → s.cache.disk b = s₀.cache.disk b
  logged : ∀ w ∈ s.logged, w.2 ≠ s₀.protocol.log.start

omit [DecidableEq Pid] in
theorem Quiet.since {s : System Pid} (quiet : Quiet s) : Since s s where
  protocol := quiet.protocol
  cache := quiet.cache
  start := rfl
  holders := by simp [quiet.unheld]
  pins := by simp [quiet.unlogged]
  disk _ _ := rfl
  logged := by simp [quiet.unlogged]

omit [Fintype Pid] in
/-- An operation's use of the cache changes neither pins nor disk, and only its own holds. -/
theorem used_step {c d : Buffer.State Pid} {p : Pid} {a : Buffer.Act Pid} (inv : Buffer.Inv c) (used : UsedBy p a)
    (stepped : Buffer.step a c = some d) : d.pins = c.pins ∧ d.disk = c.disk ∧ ∀ h ∈ d.holds, h.pid = p ∨
    h ∈ c.holds := by
  have moved {h : Hold Pid} {phase : Phase} (own : h.pid = p) :
      ∀ k ∈ h.moved phase c.holds, k.pid = p ∨ k ∈ c.holds := by
    intro k inD
    exact (mem_moved inD).imp_left fun same => by rw [same]; exact own
  cases a with
  | bget q dev blockno =>
    obtain ⟨i, cache, _, rfl⟩ := step_bget stepped
    refine ⟨rfl, rfl, fun h inD => ?_⟩
    exact (List.mem_cons.mp inD).imp_left fun same => by rw [same]; exact used
  | acquiresleep h =>
    obtain ⟨_, _, rfl⟩ := step_acquiresleep stepped
    exact ⟨rfl, rfl, moved used⟩
  | fill h =>
    obtain ⟨_, rfl⟩ := step_fill (inv.entry h.buf).clean stepped
    exact ⟨rfl, rfl, moved used⟩
  | modify h data =>
    obtain ⟨_, rfl⟩ := step_modify stepped
    exact ⟨rfl, rfl, fun _ => .inr⟩
  | releasesleep h =>
    obtain ⟨_, _, rfl⟩ := step_releasesleep stepped
    exact ⟨rfl, rfl, moved used⟩
  | unref h =>
    obtain ⟨_, cache, _, rfl⟩ := step_unref stepped
    exact ⟨rfl, rfl, fun _ inD => .inr (List.mem_of_mem_erase inD)⟩
  | bwrite h | bpin i | bunpin i => exact used.elim

section
variable {s₀ s t : System Pid} {p : Pid}

/-- A step of the protocol keeps the relation if it ends no operation that holds a buffer. -/
theorem since_protocol {a : Protocol.Act Pid} (since : Since s₀ s)
    (gave : ∀ h ∈ s.cache.holds, a ≠ .endOp h.pid) (stepped : s.protocolStep a = some t) : Since s₀ t := by
  obtain ⟨protocol, moved, rfl⟩ := Option.map_eq_some_iff.mp stepped
  refine ⟨Protocol.inv_step since.protocol moved, since.cache, (Protocol.step_start moved).trans since.start, ?_,
    since.pins, since.disk, since.logged⟩
  intro h member
  exact (Protocol.step_operating moved (since.holders h member)).resolve_right (gave h member)

theorem since_cache {a : Buffer.Act Pid} (since : Since s₀ s) (stepped : step (.cache p a) s = some t) :
    Since s₀ t := by
  simp only [step, Option.ite_none_right_eq_some, Option.map_eq_some_iff] at stepped
  obtain ⟨⟨operating, _, used⟩, cache, moved, rfl⟩ := stepped
  obtain ⟨pins, disk, holds⟩ := used_step since.cache used moved
  refine ⟨since.protocol, Buffer.inv_step since.cache moved, since.start, ?_, ?_, ?_, since.logged⟩
  · intro h member
    rcases holds h member with rfl | old
    · exact operating
    · exact since.holders h old
  · rw [pins]
    exact since.pins
  · rw [disk]
    exact since.disk

theorem since_logWrite {h : Hold Pid} (since : Since s₀ s) (stepped : step (.logWrite h) s = some t) :
    Since s₀ t := by
  simp only [step, Option.ite_none_right_eq_some] at stepped
  obtain ⟨⟨_, outside⟩, ran⟩ := stepped
  obtain ⟨protocol, moved, ran⟩ := Option.bind_eq_some_iff.mp ran
  rw [logWrite_pins since.protocol.empty] at ran
  cases ran
  refine ⟨Protocol.inv_step since.protocol moved, ?_, (Protocol.step_start moved).trans since.start, ?_, ?_,
    since.disk, ?_⟩
  · exact inv_bpin since.cache rfl
  · intro k member
    exact (Protocol.step_operating moved (since.holders k member)).resolve_right nofun
  · intro i
    have before := since.pins i
    by_cases here : i = h.buf
    · subst here
      simp
      omega
    · simpa [here, Ne.symm here] using before
  · intro w member
    rcases List.mem_cons.mp member with rfl | old
    · exact since.start ▸ outside
    · exact since.logged w old

omit [DecidableEq Pid] in
-- When a commit runs, nobody is in an operation, so nobody holds a buffer.
theorem Since.unheld (since : Since s₀ s) (committer : Protocol.commits (s.protocol.pc p) = 1) :
    s.cache.holds = [] := by
  rw [List.eq_nil_iff_forall_not_mem]
  intro h member
  obtain ⟨_, _, _, idle⟩ := since.protocol.operating (since.holders h member)
  rw [since.protocol.committer committer] at idle
  cases idle

theorem since_commit (since : Since s₀ s) (stepped : step (.commit p) s = some t) : Since s₀ t := by
  obtain ⟨protocol, moved, ran⟩ := Option.bind_eq_some_iff.mp stepped
  obtain ⟨⟨log, cache⟩, committed, done⟩ := Option.bind_eq_some_iff.mp ran
  cases done
  have balanced := commit_balanced since.protocol.empty since.cache committed
  refine ⟨Protocol.inv_step since.protocol moved, balanced.inv, (Protocol.step_start moved).trans since.start,
    ?_, ?_, ?_,
    since.logged⟩
  · intro h member
    rw [balanced.holds] at member
    exact (Protocol.step_operating moved (since.holders h member)).resolve_right nofun
  · rw [balanced.pins]
    exact since.pins
  · intro b other
    rw [balanced.disk b (since.start ▸ other)]
    exact since.disk b other

theorem since_step {a : Act Pid} (since : Since s₀ s) (stepped : step a s = some t) : Since s₀ t := by
  cases a with
  | beginOp p | admission p | committed p | sleep p c | wakeup c =>
    exact since_protocol since (fun _ _ same => by cases same) stepped
  | cache p a => exact since_cache since stepped
  | logWrite h => exact since_logWrite since stepped
  | endOp p =>
    simp only [step, Option.ite_none_right_eq_some] at stepped
    exact since_protocol since (fun h member same => stepped.1 h member (Protocol.Act.endOp.inj same).symm) stepped.2
  | commit p => exact since_commit since stepped

theorem since_run {acts : List (Act Pid)} (quiet : Quiet s₀) (ran : run step acts s₀ = some s) : Since s₀ s :=
  run_invariant (fun _ _ _ => since_step) quiet.since ran

/-! ## The end of a transaction -/

/-- The state that `end_op` of the last operation leaves when it returns. -/
def commits (p : Pid) (s : System Pid) : Option (System Pid) := run step [.commit p, .committed p] s

/-- It moves no buffer and no pin, and changes no block but the header of the log. -/
theorem commits_balanced (since : Since s₀ s) (committed : commits p s = some t) :
    Balanced s.protocol.log.start s.cache t.cache ∧ s.cache.holds = [] := by
  obtain ⟨u, first, second⟩ := run_cons_eq_some.mp committed
  rw [run_singleton] at second
  obtain ⟨protocol, moved, ran⟩ := Option.bind_eq_some_iff.mp first
  obtain ⟨⟨log, cache⟩, wrote, done⟩ := Option.bind_eq_some_iff.mp ran
  cases done
  obtain ⟨_, _, rfl⟩ := Option.map_eq_some_iff.mp second
  refine ⟨commit_balanced since.protocol.empty since.cache wrote, since.unheld (p := p) ?_⟩
  simp only [Protocol.step, Option.ite_none_right_eq_some] at moved
  rw [moved.1.1]
  rfl

/-- The disk has, at its home, every block that was logged, as it was cached when the commit began. -/
def Durable (s t : System Pid) : Prop :=
  ∀ w ∈ s.logged, ∀ i, (s.cache.cache.buf i).dev = s.protocol.log.dev → (s.cache.cache.buf i).blockno = w.2 →
    (s.cache.cache.buf i).valid = true → t.cache.disk w.2 = (s.cache.cache.buf i).data

/-- Nothing that was logged is written home, so a commit is durable exactly if the disk
had the logged contents before the transaction. -/
theorem commit_durable {acts : List (Act Pid)} (quiet : Quiet s₀) (ran : run step acts s₀ = some s)
    (committed : commits p s = some t) : Durable s t ↔ Durable s s₀ := by
  have since := since_run quiet ran
  obtain ⟨balanced, _⟩ := commits_balanced since committed
  refine forall₂_congr fun w member => ?_
  have other := since.logged w member
  rw [balanced.disk w.2 (since.start ▸ other), since.disk w.2 other]

/-- How often a buffer was passed to `log_write`. -/
def logWrites (s : System Pid) (i : Fin nbuf) : Nat := s.logged.countP fun w => w.1 = i

/-- No commit drops a pin that `log_write` took. -/
theorem commit_reference_balance {acts : List (Act Pid)} (quiet : Quiet s₀) (ran : run step acts s₀ = some s)
    (committed : commits p s = some t) :
    (∀ i, (t.cache.cache.buf i).refcnt = (s₀.cache.cache.buf i).refcnt) ↔ ∀ i, 2 ^ 32 ∣ logWrites s i := by
  have since := since_run quiet ran
  obtain ⟨balanced, unheld⟩ := commits_balanced since committed
  refine forall_congr' fun i => ?_
  have before := (quiet.cache.entry i).counted
  have after := (balanced.inv.entry i).counted
  have pinned : s.cache.pins i = s₀.cache.pins i + logWrites s i := since.pins i
  rw [quiet.unheld] at before
  -- both counts are without holders, so they differ by the pins alone
  rw [balanced.holds, unheld, balanced.pins, pinned] at after
  rw [← UInt32.toNat_inj]
  omega

end

/-! ## One operation -/

def boot (disk : UInt32 → Block) : System (Fin 1) :=
  ⟨Protocol.boot 1 Mkfs.superblock fun _ => 0, Buffer.start disk, []⟩

theorem quiet_boot (disk : UInt32 → Block) : Quiet (boot disk) :=
  ⟨Protocol.inv_boot .., Buffer.inv_start disk, rfl, rfl⟩

def update (data : Block) : List (Act (Fin 1)) :=
  [.beginOp 0, .admission 0] ++ (Hold.bread ⟨0, 0, 1, 40, .held⟩).map (.cache 0) ++
    [.cache 0 (.modify ⟨0, 0, 1, 40, .held⟩ data), .logWrite ⟨0, 0, 1, 40, .held⟩] ++
    (Hold.brelse ⟨0, 0, 1, 40, .held⟩).map (.cache 0) ++ [.endOp 0]

def transaction (data : Block) : Option (System (Fin 1) × System (Fin 1)) :=
  (run step (update data) (boot fun _ => Block.zero)).bind fun s => (commits 0 s).map fun t => (s, t)

theorem transaction_run {data : Block} {s t : System (Fin 1)} (ran : transaction data = some (s, t)) :
    run step (update data) (boot fun _ => Block.zero) = some s ∧ commits 0 s = some t := by
  obtain ⟨u, first, rest⟩ := Option.bind_eq_some_iff.mp ran
  obtain ⟨v, second, same⟩ := Option.map_eq_some_iff.mp rest
  cases same
  exact ⟨first, second⟩

theorem update_outcome : (transaction fun _ => 7).any (fun (s, t) =>
    s.logged = [(0, 40)] ∧ (s.cache.cache.buf 0).dev = s.protocol.log.dev ∧ (s.cache.cache.buf 0).blockno = 40 ∧
      (s.cache.cache.buf 0).valid = true ∧ (s.cache.cache.buf 0).data 0 = 7 ∧ t.cache.disk 40 0 = 0 ∧
      (t.cache.cache.buf 0).refcnt = 1) = true := by decide +kernel

theorem commit_durable_update : ∃ s t, run step (update fun _ => 7) (boot fun _ => Block.zero) = some s ∧
    commits 0 s = some t ∧ (Durable s t ↔ Durable s (boot fun _ => Block.zero)) := by
  obtain ⟨⟨s, t⟩, ran, _⟩ := (Option.any_eq_true _ _).mp update_outcome
  obtain ⟨first, second⟩ := transaction_run ran
  exact ⟨s, t, first, second, commit_durable (quiet_boot _) first second⟩

/-- The new contents of block 40 are not on the disk when `end_op` returns. -/
theorem update_lost : ∃ s t, run step (update fun _ => 7) (boot fun _ => Block.zero) = some s ∧
    commits 0 s = some t ∧ ¬ Durable s t := by
  obtain ⟨⟨s, t⟩, ran, outcome⟩ := (Option.any_eq_true _ _).mp update_outcome
  obtain ⟨logged, dev, blockno, valid, new, old, _⟩ := of_decide_eq_true outcome
  obtain ⟨first, second⟩ := transaction_run ran
  refine ⟨s, t, first, second, fun durable => ?_⟩
  have home := durable (0, 40) (by simp [logged]) 0 dev blockno valid
  exact absurd ((congrFun home 0).symm.trans old) (by rw [new]; decide)

theorem commit_reference_balance_update : ∃ s t, run step (update fun _ => 7) (boot fun _ => Block.zero) = some s ∧
    commits 0 s = some t ∧ ((∀ i, (t.cache.cache.buf i).refcnt =
      ((boot fun _ => Block.zero).cache.cache.buf i).refcnt) ↔
      ∀ i, 2 ^ 32 ∣ logWrites s i) := by
  obtain ⟨⟨s, t⟩, ran, _⟩ := (Option.any_eq_true _ _).mp update_outcome
  obtain ⟨first, second⟩ := transaction_run ran
  exact ⟨s, t, first, second, commit_reference_balance (quiet_boot _) first second⟩

/-- The buffer of block 40 stays pinned. -/
theorem update_pinned : ∃ s t, run step (update fun _ => 7) (boot fun _ => Block.zero) = some s ∧
    commits 0 s = some t ∧
    ¬ ∀ i, (t.cache.cache.buf i).refcnt = ((boot fun _ => Block.zero).cache.cache.buf i).refcnt := by
  obtain ⟨⟨s, t⟩, ran, outcome⟩ := (Option.any_eq_true _ _).mp update_outcome
  obtain ⟨_, _, _, _, _, _, pinned⟩ := of_decide_eq_true outcome
  obtain ⟨first, second⟩ := transaction_run ran
  exact ⟨s, t, first, second, fun balanced => absurd (pinned.symm.trans (balanced 0)) (by decide)⟩

end Xv6.Log.Transactions
