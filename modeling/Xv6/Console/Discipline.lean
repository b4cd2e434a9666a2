import Xv6.Console.Line
import Xv6.Process.Changes

/-! The readers of the console and its interrupts, at the granularity of `conslock`.

A turn of `console_read` ends where it returns or goes to sleep, and an interrupt
handles a batch of characters. The line that the users see is carried along with the
buffer; no function of the console looks at it.
-/

set_option autoImplicit false

namespace Xv6.Console

open Library Process

/-- A process in `console_read`, with `n` bytes to go of the `target` it asked for. -/
structure Reader where
  n : Nat
  target : Nat
  dst : List UInt8

structure System (D : Type) (n : Nat) where
  kernel : Kernel D n
  input : Input
  reader : Fin n → Option Reader
  line : Line
  /-- Every byte copied to a reader so far. -/
  delivered : List UInt8

inductive Act (D : Type) where
  /-- A section of the process table. -/
  | kernel (a : Action D)
  /-- `console_intr`, whose `getc` returns these characters before -1. -/
  | intr (batch : List UInt8)
  /-- The process of the CPU calls `console_read` for `n` bytes. -/
  | read (d : D) (n : Nat)
  /-- The process of the CPU comes back from the `sleep` of `console_read`. -/
  | resume (d : D)

section
variable {D : Type} [DecidableEq D] {n : Nat}

namespace System

variable (addr : Fin n → UInt64) (chan : UInt64)

-- A process in `console_read` does nothing but yield.
def allows (s : System D n) : Action D → Bool
  | .fork d _ | .forkCopy d | .forkReady d | .sleep d _ | .exit d | .wait d =>
    match s.kernel.table.cpu d with
    | none => true
    | some p => (s.reader p).isNone
  | .wakeup _ | .userInit _ | .userCopy _ | .userReady | .scheduler _ | .yield _ => true

-- The call of `wakeup(&input.r)`, if there is one.
def wakeReaders (kernel : Kernel D n) (wakes : Bool) : Option (Kernel D n) :=
  if wakes then Process.step addr (.wakeup chan) kernel else some kernel

-- The loop of `console_intr`.
def intrLoop : List UInt8 → System D n → Option (System D n)
  | [], s => some s
  | c :: rest, s => do
    let (input, wakes) := intrChar c s.input
    let kernel ← wakeReaders addr chan s.kernel wakes
    intrLoop rest { s with kernel := kernel, input := input, line := s.line.type c }

def endTurn (d : D) (p : Fin n) (x : Reader) (s : System D n) (input : Input) (line : Line) (turn : Turn) :
    Option (System D n) :=
  let s := { s with input := input, line := line, delivered := s.delivered ++ turn.dst.drop x.dst.length }
  match turn with
  | .returned _ | .killed _ => some { s with reader := Function.update s.reader p none }
  | .asleep k dst => (Process.step addr (.sleep d chan) s.kernel).map fun kernel =>
      { s with kernel := kernel, reader := Function.update s.reader p (some ⟨k, x.target, dst⟩) }

-- Process `p` on CPU `d` takes a turn of `console_read`.
def turn (d : D) (p : Fin n) (x : Reader) (s : System D n) : Option (System D n) :=
  let killed := decide ((s.kernel.table.proc p).killed ≠ 0)
  let result := readLoop killed x.target x.n x.dst s.input
  let taken := takeLine killed x.target x.n x.dst s.line.unread
  s.endTurn addr chan d p x result.1 ⟨s.line.used ++ taken.1, taken.2.1, s.line.edit⟩ result.2

def step (a : Act D) (s : System D n) : Option (System D n) :=
  match a with
  | .kernel a =>
    if s.allows a then (Process.step addr a s.kernel).map fun kernel => { s with kernel := kernel } else none
  | .intr batch => do
    let s ← intrLoop addr chan batch s
    -- `procdump` panics
    if C 'P'.toUInt8 ∈ batch then none else some s
  | .read d k => do
    let p ← s.kernel.table.cpu d
    if (s.reader p).isNone then turn addr chan d p ⟨k, k, []⟩ s else none
  | .resume d => do
    let p ← s.kernel.table.cpu d
    let x ← s.reader p
    turn addr chan d p x s

end System

/-! ## The invariant -/

namespace System

/-- The buffer shows the line, the readers have got its text, and none of them sleeps
while there is something to read. -/
structure Reading (chan : UInt64) (s : System D n) : Prop where
  consistent : Consistent s.kernel
  shows : s.input.Shows s.line
  delivered : s.delivered = text s.line.used
  readers : ∀ p x, s.reader p = some x → ((s.kernel.table.proc p).Dormant chan ∧ s.line.unread = []) ∨
    (s.kernel.table.proc p).Returning

variable {addr : Fin n → UInt64} {chan : UInt64} {s t : System D n}

/-- The readers after a section of the process table in which none of them does anything but yield. -/
theorem Reading.tableStep {a : Action D} {kernel : Kernel D n} (reading : s.Reading chan)
    (apart : ∀ p, addr p ≠ chan) (notNull : chan ≠ 0) (stepped : Process.step addr a s.kernel = some kernel)
    (yields : ∀ d p, s.kernel.table.cpu d = some p → a.by = some d → s.reader p = none ∨ a = .yield d) :
    ({ s with kernel := kernel } : System D n).Reading chan := by
  obtain ⟨⟨u, e⟩, performed, rfl⟩ := Option.map_eq_some_iff.mp stepped
  obtain ⟨moves, consistent⟩ := reading.consistent.perform performed
  have placed := reading.consistent.placed
  refine ⟨consistent, reading.shows, reading.delivered, fun p x reads => ?_⟩
  rcases reading.readers p x reads with ⟨dormant, empty⟩ | returning
  · by_cases wakes : a = .wakeup chan
    · subst wakes
      exact .inr (moves.wakeup_returning dormant)
    · exact .inl ⟨moves.dormant placed dormant wakes apart notNull, empty⟩
  · refine .inr (moves.returning placed returning fun d on acts => ?_)
    refine (yields d p on acts).resolve_left fun idle => ?_
    have reads' : s.reader p = some x := reads
    simp [reads'] at idle

theorem Reading.wakeup {kernel : Kernel D n} {line : Line} {input : Input} (reading : s.Reading chan)
    (shows : input.Shows line) (used : line.used = s.line.used)
    (stepped : Process.step addr (.wakeup chan) s.kernel = some kernel) :
    ({ s with kernel := kernel, input := input, line := line } : System D n).Reading chan := by
  obtain ⟨⟨u, e⟩, performed, rfl⟩ := Option.map_eq_some_iff.mp stepped
  obtain ⟨moves, consistent⟩ := reading.consistent.perform performed
  have placed := reading.consistent.placed
  refine ⟨consistent, shows, ?_, fun p x reads => .inr ?_⟩
  · exact used ▸ reading.delivered
  · rcases reading.readers p x reads with ⟨dormant, _⟩ | returning
    · exact moves.wakeup_returning dormant
    · exact moves.returning placed returning (by simp [Action.by])

theorem Reading.intrLoop {batch : List UInt8} (reading : s.Reading chan)
    (ran : intrLoop addr chan batch s = some t) :
    t.Reading chan ∧ s.line.committed <+: t.line.committed := by
  induction batch generalizing s with
  | nil =>
    cases ran
    exact ⟨reading, List.prefix_rfl⟩
  | cons c rest ih =>
    obtain ⟨shows, unread⟩ := reading.shows.intrChar c
    simp only [System.intrLoop, Option.bind_eq_bind, Option.bind_eq_some_iff] at ran
    obtain ⟨kernel, stepped, ran⟩ := ran
    have used : (s.line.type c).used = s.line.used := (s.line.type_grows c).1
    have grows := s.line.type_committed c
    suffices next : ({ s with
        kernel := kernel, input := (intrChar c s.input).1, line := s.line.type c } : System D n).Reading chan by
      obtain ⟨final, later⟩ := ih next ran
      exact ⟨final, grows.trans later⟩
    cases wakes : (intrChar c s.input).2 with
    | true =>
      rw [wakes, wakeReaders, if_pos rfl] at stepped
      exact reading.wakeup shows used stepped
    | false =>
      rw [wakes, wakeReaders, if_neg (by simp)] at stepped
      cases stepped
      refine ⟨reading.consistent, shows, used ▸ reading.delivered, fun p x reads => ?_⟩
      rcases reading.readers p x reads with ⟨dormant, empty⟩ | returning
      · exact .inl ⟨dormant, (unread wakes).trans empty⟩
      · exact .inr returning

/-- A turn that has used up `used`, left `left` and copied the text of what it used. -/
theorem Reading.endTurn {d : D} {p : Fin n} {x : Reader} {input : Input} {used left : List UInt8} {turn : Turn}
    (reading : s.Reading chan) (apart : ∀ p, addr p ≠ chan) (notNull : chan ≠ 0) (on : s.kernel.table.cpu d = some p)
    (shows : input.Shows ⟨s.line.used ++ used, left, s.line.edit⟩) (whole : used ++ left = s.line.unread)
    (copied : turn.dst = x.dst ++ text used) (asleep : ∀ k dst, turn = .asleep k dst → left = [])
    (ended : endTurn addr chan d p x s input ⟨s.line.used ++ used, left, s.line.edit⟩ turn = some t) :
    t.Reading chan ∧ s.line.committed <+: t.line.committed := by
  -- first with the reader outside
  have outside : ({ s with
      input := input, line := ⟨s.line.used ++ used, left, s.line.edit⟩
      delivered := s.delivered ++ turn.dst.drop x.dst.length
      reader := Function.update s.reader p none } : System D n).Reading chan := by
    refine ⟨reading.consistent, shows, ?_, fun q y reads => ?_⟩
    · rw [copied, List.drop_left, reading.delivered, text_append]
    · have other : q ≠ p := by
        rintro rfl
        simp at reads
      rcases reading.readers q y (by simpa [other] using reads) with ⟨dormant, empty⟩ | returning
      · rw [empty] at whole
        exact .inl ⟨dormant, (List.append_eq_nil_iff.mp whole).2⟩
      · exact .inr returning
  have grows : s.line.committed <+: (s.line.used ++ used) ++ left := by
    rw [List.append_assoc, whole]
    exact List.prefix_rfl
  cases turn with
  | returned dst =>
    cases ended
    exact ⟨outside, grows⟩
  | killed dst =>
    cases ended
    exact ⟨outside, grows⟩
  | asleep k dst =>
    obtain ⟨kernel, slept, rfl⟩ := Option.map_eq_some_iff.mp ended
    have others := outside.tableStep (a := .sleep d chan) apart notNull slept (by
      rintro d' q onQ acts
      cases acts
      cases on.symm.trans onQ
      exact .inl (Function.update_self ..))
    refine ⟨⟨others.consistent, others.shows, others.delivered, fun q y reads => ?_⟩, grows⟩
    by_cases same : q = p
    · subst same
      obtain ⟨⟨u, e⟩, performed, rfl⟩ := Option.map_eq_some_iff.mp slept
      exact .inl ⟨(reading.consistent.perform performed).1.sleep_dormant on, asleep k dst rfl⟩
    · exact others.readers q y (by simpa [same] using reads)

theorem Reading.turn {d : D} {p : Fin n} {x : Reader} (reading : s.Reading chan) (apart : ∀ p, addr p ≠ chan)
    (notNull : chan ≠ 0) (on : s.kernel.table.cpu d = some p) (turned : turn addr chan d p x s = some t) :
    t.Reading chan ∧ s.line.committed <+: t.line.committed := by
  obtain ⟨isTurn, shows⟩ := reading.shows.readLoop (decide ((s.kernel.table.proc p).killed ≠ 0)) x.target x.n x.dst
  obtain ⟨whole, copied⟩ := takeLine_splits (decide ((s.kernel.table.proc p).killed ≠ 0)) x.target x.n x.dst
    s.line.unread
  refine reading.endTurn apart notNull on shows whole (isTurn ▸ copied) ?_ turned
  intro k dst asleep
  exact takeLine_asleep (Prod.ext rfl (Prod.ext rfl (isTurn.symm.trans asleep)))

theorem Reading.step {a : Act D} (reading : s.Reading chan) (apart : ∀ p, addr p ≠ chan) (notNull : chan ≠ 0)
    (stepped : System.step addr chan a s = some t) : t.Reading chan ∧ s.line.committed <+: t.line.committed := by
  cases a with
  | kernel a =>
    simp only [System.step, Option.ite_none_right_eq_some, Option.map_eq_some_iff] at stepped
    obtain ⟨allowed, kernel, stepped, rfl⟩ := stepped
    refine ⟨reading.tableStep apart notNull stepped fun d p on acts => ?_, List.prefix_rfl⟩
    cases a with
    | yield d =>
      cases acts
      exact .inr rfl
    | fork d kstack => cases acts; exact .inl (by simpa [allows, on] using allowed)
    | forkCopy d => cases acts; exact .inl (by simpa [allows, on] using allowed)
    | forkReady d => cases acts; exact .inl (by simpa [allows, on] using allowed)
    | sleep d chan' => cases acts; exact .inl (by simpa [allows, on] using allowed)
    | exit d => cases acts; exact .inl (by simpa [allows, on] using allowed)
    | wait d => cases acts; exact .inl (by simpa [allows, on] using allowed)
    | _ => simp [Action.by] at acts
  | intr batch =>
    simp only [System.step, Option.bind_eq_bind, Option.bind_eq_some_iff, Option.ite_none_left_eq_some,
      Option.some.injEq] at stepped
    obtain ⟨u, ran, _, rfl⟩ := stepped
    exact reading.intrLoop ran
  | read d k =>
    simp only [System.step, Option.bind_eq_bind, Option.bind_eq_some_iff, Option.ite_none_right_eq_some] at stepped
    obtain ⟨p, on, _, turned⟩ := stepped
    exact reading.turn apart notNull on turned
  | resume d =>
    simp only [System.step, Option.bind_eq_bind, Option.bind_eq_some_iff] at stepped
    obtain ⟨p, on, x, _, turned⟩ := stepped
    exact reading.turn apart notNull on turned

/-! ## Runs -/

/-- The machine at boot, with an empty buffer. -/
structure Boot (s : System D n) : Prop where
  kernel : Process.Boot s.kernel
  write : s.input.w = s.input.r
  edit : s.input.e = s.input.r
  reader : ∀ p, s.reader p = none
  line : s.line = ⟨[], [], []⟩
  delivered : s.delivered = []

omit [DecidableEq D] in
theorem Boot.reading (boot : s.Boot) : s.Reading chan where
  consistent := boot.kernel.consistent
  shows := by
    rw [boot.line]
    refine ⟨Circular.Spells.nil, boot.write.trans ?_, boot.edit.trans ?_, by simp⟩
    · exact (UInt64.add_zero _).symm
    · exact (UInt64.add_zero _).symm
  delivered := by rw [boot.delivered, boot.line]; rfl
  readers p x reads := by simp [boot.reader] at reads

/-- With `conslock` free. -/
structure Disciplined (chan : UInt64) (s : System D n) : Prop where
  /-- `r <= w <= e <= r + INPUT_BUF`, as far as the indices have wrapped around. -/
  ordered : (s.input.w - s.input.r).toNat ≤ (s.input.e - s.input.r).toNat ∧
    (s.input.e - s.input.r).toNat ≤ INPUT_BUF
  /-- What is between `r` and `w` is what is committed and not read. -/
  kept : (s.input.w - s.input.r).toNat = s.line.unread.length ∧
    ∀ k (inside : k < s.line.unread.length), s.input.buf (slot (s.input.r + .ofNat k)) = s.line.unread[k]
  /-- The readers have got the text that is used up, in order. -/
  delivered : s.delivered = text s.line.used
  /-- A turn of a reader on the buffer ends as it would on the committed characters. -/
  reads : ∀ killed target k dst, (readLoop killed target k dst s.input).2 =
    (takeLine killed target k dst s.line.unread).2.2
  /-- An end-of-file mark ends the read that comes to it: it stays for a read with some bytes,
  and goes with a read that has none. -/
  ends : ∀ rest, s.line.unread = eof :: rest → ∀ killed target k dst,
    readLoop killed target (k + 1) dst s.input =
      (if k + 1 < target then s.input else { s.input with r := s.input.r + 1 }, .returned dst)
  awake : s.input.r ≠ s.input.w → ∀ p x, s.reader p = some x → ¬ (s.kernel.table.proc p).SleepsOn chan

omit [DecidableEq D] in
theorem Reading.disciplined (reading : s.Reading chan) : s.Disciplined chan := by
  have shows := reading.shows
  have fits := shows.pending_le
  have unread : (s.input.w - s.input.r).toNat = s.line.unread.length := by
    rw [shows.write, UInt64.add_comm, UInt64.add_sub_cancel]
    unfold Line.pending INPUT_BUF at fits
    simp only [UInt64.toNat_ofNat']
    omega
  have pending : (s.input.e - s.input.r).toNat = s.line.pending := by
    rw [shows.pending]
    unfold INPUT_BUF at fits
    simp only [UInt64.toNat_ofNat']
    omega
  refine ⟨?_, ⟨unread, ?_⟩, reading.delivered, ?_, ?_, ?_⟩
  · rw [unread, pending]
    exact ⟨Nat.le_add_right _ _, fits⟩
  · exact shows.spells.left.cell
  · exact fun killed target k dst => (shows.readLoop killed target k dst).1
  · intro rest isRest killed target k dst
    have marked : s.input.Shows ⟨s.line.used, eof :: rest, s.line.edit⟩ := isRest ▸ shows
    exact marked.readLoop_eof killed target k dst
  · intro different p x reads asleep
    rcases reading.readers p x reads with ⟨_, empty⟩ | running | ⟨runnable, _⟩
    · exact different (shows.empty_iff.mpr empty)
    · simp [asleep.1] at running
    · simp [asleep.1] at runnable

def Uses (p : Fin n) (x : Reader) (s t : System D n) : Prop :=
  let taken := takeLine (decide ((s.kernel.table.proc p).killed ≠ 0)) x.target x.n x.dst s.line.unread
  t.line = ⟨s.line.used ++ taken.1, taken.2.1, s.line.edit⟩ ∧
    t.delivered = s.delivered ++ taken.2.2.dst.drop x.dst.length

/-- What an action makes of the line: an interrupt types its characters, and readers use it up. -/
def Edits (a : Act D) (s t : System D n) : Prop :=
  match a with
  | .kernel _ => t.line = s.line ∧ t.delivered = s.delivered
  | .intr batch => t.line = batch.foldl (fun l c => l.type c) s.line ∧ t.delivered = s.delivered
  | .read d k => ∃ p, s.kernel.table.cpu d = some p ∧ s.Uses p ⟨k, k, []⟩ t
  | .resume d => ∃ p x, s.kernel.table.cpu d = some p ∧ s.reader p = some x ∧ s.Uses p x t

theorem intrLoop_line {batch : List UInt8} (ran : intrLoop addr chan batch s = some t) :
    t.line = batch.foldl (fun l c => l.type c) s.line ∧ t.delivered = s.delivered := by
  induction batch generalizing s with
  | nil =>
    cases ran
    exact ⟨rfl, rfl⟩
  | cons c rest ih =>
    simp only [System.intrLoop, Option.bind_eq_bind, Option.bind_eq_some_iff] at ran
    obtain ⟨kernel, _, ran⟩ := ran
    exact ih ran

theorem endTurn_line {d : D} {p : Fin n} {x : Reader} {input : Input} {line : Line} {turn : Turn}
    (ended : endTurn addr chan d p x s input line turn = some t) :
    t.line = line ∧ t.delivered = s.delivered ++ turn.dst.drop x.dst.length := by
  cases turn with
  | returned dst =>
    cases ended
    exact ⟨rfl, rfl⟩
  | killed dst =>
    cases ended
    exact ⟨rfl, rfl⟩
  | asleep k dst =>
    obtain ⟨kernel, _, rfl⟩ := Option.map_eq_some_iff.mp ended
    exact ⟨rfl, rfl⟩

theorem Reading.uses {d : D} {p : Fin n} {x : Reader} (reading : s.Reading chan)
    (turned : System.turn addr chan d p x s = some t) : s.Uses p x t := by
  have isTurn := (reading.shows.readLoop (decide ((s.kernel.table.proc p).killed ≠ 0)) x.target x.n x.dst).1
  rw [Uses, ← isTurn]
  exact endTurn_line turned

theorem Reading.edits {a : Act D} (reading : s.Reading chan) (stepped : System.step addr chan a s = some t) :
    s.Edits a t := by
  cases a with
  | kernel a =>
    simp only [System.step, Option.ite_none_right_eq_some, Option.map_eq_some_iff] at stepped
    obtain ⟨_, kernel, _, rfl⟩ := stepped
    exact ⟨rfl, rfl⟩
  | intr batch =>
    simp only [System.step, Option.bind_eq_bind, Option.bind_eq_some_iff, Option.ite_none_left_eq_some,
      Option.some.injEq] at stepped
    obtain ⟨u, ran, _, rfl⟩ := stepped
    exact intrLoop_line ran
  | read d k =>
    simp only [System.step, Option.bind_eq_bind, Option.bind_eq_some_iff, Option.ite_none_right_eq_some] at stepped
    obtain ⟨p, on, _, turned⟩ := stepped
    exact ⟨p, on, reading.uses turned⟩
  | resume d =>
    simp only [System.step, Option.bind_eq_bind, Option.bind_eq_some_iff] at stepped
    obtain ⟨p, on, x, reads, turned⟩ := stepped
    exact ⟨p, x, on, reads, reading.uses turned⟩

/-- In every run of interrupts and reads: the discipline holds, what was committed
stays so, the readers have got a prefix of its text, and the line is what is typed and read. -/
theorem line_discipline {before acts : List (Act D)} {u : System D n} (apart : ∀ p, addr p ≠ chan)
    (notNull : chan ≠ 0) (boot : s.Boot) (reached : run (System.step addr chan) before s = some t)
    (ran : run (System.step addr chan) acts t = some u) :
    u.Disciplined chan ∧ t.line.committed <+: u.line.committed ∧ u.delivered <+: text u.line.committed ∧
      ∀ a v, System.step addr chan a u = some v → u.Edits a v := by
  have preserved : ∀ (a : Act D) (s t : System D n), s.Reading chan → System.step addr chan a s = some t →
      t.Reading chan := fun _ _ _ reading stepped => (reading.step apart notNull stepped).1
  have reading : t.Reading chan := run_invariant preserved boot.reading reached
  have grows : ∀ (a : Act D) (v w : System D n), v.Reading chan ∧ t.line.committed <+: v.line.committed →
      System.step addr chan a v = some w → w.Reading chan ∧ t.line.committed <+: w.line.committed := by
    intro a v w holds stepped
    obtain ⟨next, longer⟩ := holds.1.step apart notNull stepped
    exact ⟨next, holds.2.trans longer⟩
  obtain ⟨final, longer⟩ := run_invariant grows ⟨reading, List.prefix_rfl⟩ ran
  refine ⟨final.disciplined, longer, ?_, fun a v => final.edits⟩
  rw [final.delivered, Line.committed, text_append]
  exact List.prefix_append ..

end System

end

def bootConsole : System Bool nproc where
  kernel := bootKernel Bool nproc
  input := ⟨fun _ => 0, 0 - 2, 0 - 2, 0 - 2⟩
  reader _ := none
  line := ⟨[], [], []⟩
  delivered := []

theorem bootConsole_boot : bootConsole.Boot := ⟨bootKernel_boot _ _, rfl, rfl, fun _ => rfl, rfl, rfl⟩

def dialogue : List (Act Bool) :=
  twoProcesses.map .kernel ++
    [.read false 9, .read true 3, .intr ['a'.toUInt8, 'b'.toUInt8, 0x7f, 'c'.toUInt8, '\r'.toUInt8],
      .kernel (.scheduler false), .resume false, .kernel (.scheduler true), .resume true,
      .intr ['d'.toUInt8, eof], .kernel (.scheduler true), .resume true, .read true 1]

theorem line_discipline_dialogue :
    ∃ u, run (System.step (fun p => 4096 + p.val.toUInt64) 8) dialogue bootConsole = some u ∧ u.Disciplined 8 := by
  obtain ⟨u, ran⟩ := Option.isSome_iff_exists.mp
    (show (run (System.step (fun p : Fin nproc => 4096 + p.val.toUInt64) 8) dialogue bootConsole).isSome by
      decide +kernel)
  have apart : ∀ p : Fin nproc, 4096 + p.val.toUInt64 ≠ 8 := by decide +kernel
  exact ⟨u, ran, (System.line_discipline apart (by decide) bootConsole_boot (run_nil _ _) ran).1⟩

end Xv6.Console
