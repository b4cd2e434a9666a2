import Xv6.Process.Changes

/-! The request queue of `kern/sd.c`, at the granularity of `sdlock`.

A request is one call of `sdrw`: a section that queues the buffer and goes to sleep on
it, and one that takes the lock back and returns. An interrupt is one section. The
sections of the process table go on between them.
-/

set_option autoImplicit false

namespace Xv6.Sd

open Library Process

def B_VALID : UInt32 := 0x2

def B_DIRTY : UInt32 := 0x4

def INT_DATA_DONE : UInt32 := 0x2

def INT_READ_RDY : UInt32 := 0x20

inductive Node (B : Type) where
  | sdque
  | blist (b : B)
  deriving DecidableEq

structure Driver (B : Type) where
  links : Links (Node B)
  flags : B → UInt32
  /-- The buffer of the last `sd_start`, until its request is completed. -/
  started : Option B

/-- The driver on a machine with processes, and the requests made so far. -/
structure System (C : Type) (n : Nat) (B : Type) where
  kernel : Kernel C n
  driver : Driver B
  /-- The buffer with which a process is in `sdrw`. -/
  request : Fin n → Option B
  queued : List B
  completed : List B

inductive Act (C B : Type) where
  /-- A section of the process table. -/
  | kernel (a : Action C)
  /-- The owner of a buffer sets its flags. -/
  | setFlags (b : B) (flags : UInt32)
  /-- The process of the CPU calls `sdrw(b)`. -/
  | sdrw (c : C) (b : B)
  /-- `sd_intr` reads the status word. -/
  | intr (status : UInt32)
  /-- The process of the CPU comes back from the `sleep` of `sdrw`. -/
  | resume (c : C)

section
variable {C : Type} [DecidableEq C] {n : Nat} {B : Type} [DecidableEq B]

def sdStart (b : B) (d : Driver B) : Driver B := { d with started := some b }

-- `container_of(list_front(&sdque), struct buf, blist)`
def frontBuf (d : Driver B) : Option B :=
  match listFront d.links .sdque with
  | some (.blist b) => some b
  | _ => none

-- `sdrw` up to its `sleep`.
def sdrwEnqueue (b : B) (d : Driver B) : Option (Driver B) :=
  if listEmpty d.links .sdque then do
    let links ← listPushBack d.links .sdque (.blist b)
    some (sdStart b { d with links := links })
  else do
    let links ← listPushBack d.links .sdque (.blist b)
    some { d with links := links }

-- `sd_intr`, with the buffer whose sleepers it wakes; `none` where an assertion fails.
def sdIntr (status : UInt32) (d : Driver B) : Option (Driver B × Option B) :=
  if listEmpty d.links .sdque then some (d, none)
  else if status &&& INT_DATA_DONE = 0 ∧ status &&& INT_READ_RDY = 0 then none
  else do
    let b ← frontBuf d
    let write := d.flags b &&& B_DIRTY ≠ 0
    -- the second test is on the constant, not on the status word
    if ¬ ((write ∧ status = INT_DATA_DONE) ∨ (¬ write ∧ INT_READ_RDY ≠ 0)) then some (sdStart b d, none)
    else do
      let d := { d with flags := Function.update d.flags b ((d.flags b ||| B_VALID) &&& ~~~ B_DIRTY), started :=
        none }
      let (_, links) ← listPopFront d.links .sdque
      let d := { d with links := links }
      if listEmpty d.links .sdque then some (d, some b)
      else do
        let head ← frontBuf d
        some (sdStart head d, some b)

namespace System

def setKernel (s : System C n B) (kernel : Kernel C n) : System C n B := { s with kernel := kernel }

variable [Fintype B] (addr : Fin n → UInt64) (chan : B → UInt64)

-- A process in `sdrw` does nothing but yield, and nobody else wakes the sleepers of a buffer.
def allows (s : System C n B) : Action C → Bool
  | .fork c _ | .forkCopy c | .forkReady c | .sleep c _ | .exit c | .wait c =>
    match s.kernel.table.cpu c with
    | none => true
    | some p => s.request p = none
  | .wakeup chan' => decide (∀ b, chan' ≠ chan b)
  | .userInit _ | .userCopy _ | .userReady | .scheduler _ | .yield _ => true

def completes (driver : Driver B) (s : System C n B) : Option B → Option (System C n B)
  | none => some { s with driver := driver }
  | some b => (Process.step addr (.wakeup (chan b)) s.kernel).map fun kernel =>
      { s with kernel := kernel, driver := driver, completed := s.completed ++ [b] }

def step (a : Act C B) (s : System C n B) : Option (System C n B) :=
  match a with
  | .kernel a => if s.allows chan a then (Process.step addr a s.kernel).map s.setKernel else none
  | .setFlags b flags =>
    if ∀ p, s.request p ≠ some b then
      some { s with driver := { s.driver with flags := Function.update s.driver.flags b flags } }
    else none
  | .sdrw c b => do
    let p ← s.kernel.table.cpu c
    if s.request p = none ∧ ∀ q, s.request q ≠ some b then do
      let driver ← sdrwEnqueue b s.driver
      let kernel ← Process.step addr (.sleep c (chan b)) s.kernel
      some { s with
        kernel := kernel, driver := driver, request := Function.update s.request p (some b)
        queued := s.queued ++ [b] }
    else none
  | .intr status => do
    let (driver, completed) ← sdIntr status s.driver
    s.completes addr chan driver completed
  | .resume c => do
    let p ← s.kernel.table.cpu c
    if s.request p = none then none else some { s with request := Function.update s.request p none }

end System

/-! ## The driver on its queue -/

-- The status word with which `sd_intr` takes the transfer of a buffer with these flags for done.
def Finishes (status flags : UInt32) : Prop := flags &&& B_DIRTY ≠ 0 → status = INT_DATA_DONE

instance (status flags : UInt32) : Decidable (Finishes status flags) :=
  inferInstanceAs (Decidable (_ → _))

/-- `sd_intr` does not assert on the status word. -/
def Expected (status : UInt32) : Prop := status &&& INT_DATA_DONE ≠ 0 ∨ status &&& INT_READ_RDY ≠ 0

structure Driver.Represents (d : Driver B) (queue : List B) : Prop where
  ring : Ring d.links .sdque (queue.map .blist)
  started : d.started = queue.head?

def Clean (flags : UInt32) : Prop := flags &&& B_VALID ≠ 0 ∧ flags &&& B_DIRTY = 0

theorem or_and_self_word (a b : UInt32) : (a ||| b) &&& b = b := by
  apply UInt32.eq_of_toBitVec_eq
  ext i
  simp only [UInt32.toBitVec_and, UInt32.toBitVec_or, BitVec.getElem_and, BitVec.getElem_or]
  cases a.toBitVec[i] <;> simp

theorem clean_done (flags : UInt32) : Clean ((flags ||| B_VALID) &&& ~~~ B_DIRTY) := by
  constructor
  · rw [UInt32.and_assoc, show ~~~ B_DIRTY &&& B_VALID = B_VALID by decide, or_and_self_word]
    decide
  · rw [UInt32.and_assoc, show ~~~ B_DIRTY &&& B_DIRTY = 0 by decide, UInt32.and_zero]

namespace Driver.Represents

variable {d e : Driver B} {queue : List B} {b : B}

omit [DecidableEq B] in
theorem nodup (represents : d.Represents queue) : queue.Nodup :=
  List.Nodup.of_map _ represents.ring.nodup

theorem empty_iff (represents : d.Represents queue) : listEmpty d.links .sdque = queue.isEmpty := by
  have front := represents.ring.next_head
  cases queue with
  | nil => simpa [listEmpty] using front
  | cons b rest => simp [listEmpty, front]

omit [DecidableEq B] in
theorem frontBuf (represents : d.Represents queue) : Sd.frontBuf d = queue.head? := by
  have front := represents.ring.next_head
  cases queue with
  | nil => simp [Sd.frontBuf, listFront, front]
  | cons b rest => simp [Sd.frontBuf, listFront, front]

/-- A new request goes to the end, and the device is started on it if there is no other. -/
theorem enqueue (represents : d.Represents queue) (fresh : b ∉ queue) :
    ∃ e, sdrwEnqueue b d = some e ∧ e.Represents (queue ++ [b]) ∧ e.flags = d.flags := by
  obtain ⟨links, pushed, ring⟩ := ring_listPushBack represents.ring
    (show .blist b ∉ .sdque :: queue.map Node.blist by simpa using fresh)
  rw [← List.map_singleton, ← List.map_append] at ring
  cases queue with
  | nil =>
    refine ⟨sdStart b { d with links := links }, ?_, ⟨ring, rfl⟩, rfl⟩
    simp [sdrwEnqueue, represents.empty_iff, pushed]
  | cons head rest =>
    refine ⟨{ d with links := links }, ?_, ⟨ring, represents.started⟩, rfl⟩
    simp [sdrwEnqueue, represents.empty_iff, pushed]

/-- An interrupt completes the request at the head, or leaves the queue as it is. -/
theorem intr_returns {status : UInt32} (represents : d.Represents queue) (expected : queue = [] ∨ Expected status) :
    ∃ e woken, sdIntr status d = some (e, woken) ∧
      ((woken = none ∧ e.Represents queue ∧ e.flags = d.flags ∧
          ∀ b rest, queue = b :: rest → ¬ Finishes status (d.flags b)) ∨
        ∃ b rest, queue = b :: rest ∧ woken = some b ∧ e.Represents rest ∧ Clean (e.flags b) ∧
          (∀ other, other ≠ b → e.flags other = d.flags other) ∧ Finishes status (d.flags b)) := by
  cases queue with
  | nil =>
    refine ⟨d, none, ?_, .inl ⟨rfl, represents, rfl, by simp⟩⟩
    rw [sdIntr, represents.empty_iff]
    rfl
  | cons b rest =>
    have asserted : ¬ (status &&& INT_DATA_DONE = 0 ∧ status &&& INT_READ_RDY = 0) := by
      rw [not_and_or]
      exact expected.resolve_left (by simp)
    have finishes : ((d.flags b &&& B_DIRTY ≠ 0 ∧ status = INT_DATA_DONE) ∨
        (¬ d.flags b &&& B_DIRTY ≠ 0 ∧ INT_READ_RDY ≠ 0)) ↔ Finishes status (d.flags b) := by
      have constant : INT_READ_RDY ≠ 0 := by decide
      unfold Finishes
      tauto
    simp only [sdIntr, represents.empty_iff, represents.frontBuf, List.isEmpty_cons, Bool.false_eq_true, if_false,
      if_neg asserted, List.head?_cons, Option.bind_eq_bind, Option.bind_some, finishes]
    by_cases done : Finishes status (d.flags b)
    · rw [if_neg (not_not_intro done)]
      obtain ⟨links, popped, ring⟩ := ring_listPopFront represents.ring
      have cleaned : Clean (Function.update d.flags b ((d.flags b ||| B_VALID) &&& ~~~ B_DIRTY) b) := by
        rw [Function.update_self]
        exact clean_done (d.flags b)
      have others : ∀ other, other ≠ b →
          Function.update d.flags b ((d.flags b ||| B_VALID) &&& ~~~ B_DIRTY) other = d.flags other :=
        fun other different => Function.update_of_ne different ..
      -- the driver with the request gone
      have gone : ({ d with
          flags := Function.update d.flags b ((d.flags b ||| B_VALID) &&& ~~~ B_DIRTY), started := rest.head?
          links := links } : Driver B).Represents rest := ⟨ring, rfl⟩
      have isEmpty : listEmpty links .sdque = rest.isEmpty := gone.empty_iff
      have isFront := gone.frontBuf
      simp only [popped, Option.bind_some, isEmpty]
      cases rest with
      | nil => exact ⟨_, _, rfl, .inr ⟨b, [], rfl, rfl, gone, cleaned, others, done⟩⟩
      | cons head rest =>
        have found : Sd.frontBuf { d with
            flags := Function.update d.flags b ((d.flags b ||| B_VALID) &&& ~~~ B_DIRTY), started := none
            links := links } = some head := isFront
        simp only [List.isEmpty_cons, Bool.false_eq_true, if_false, found, Option.bind_some]
        exact ⟨_, _, rfl, .inr ⟨b, head :: rest, rfl, rfl, gone, cleaned, others, done⟩⟩
    · rw [if_pos done]
      refine ⟨_, _, rfl, .inl ⟨rfl, ⟨represents.ring, rfl⟩, rfl, ?_⟩⟩
      rintro b' rest' same
      cases same
      exact done

theorem intr {status : UInt32} {woken : Option B} (represents : d.Represents queue)
    (returned : sdIntr status d = some (e, woken)) :
    (woken = none ∧ e.Represents queue ∧ e.flags = d.flags ∧
        ∀ b rest, queue = b :: rest → ¬ Finishes status (d.flags b)) ∨
      ∃ b rest, queue = b :: rest ∧ woken = some b ∧ e.Represents rest ∧ Clean (e.flags b) ∧
        (∀ other, other ≠ b → e.flags other = d.flags other) ∧ Finishes status (d.flags b) := by
  have expected : queue = [] ∨ Expected status := by
    cases queue with
    | nil => exact .inl rfl
    | cons b rest =>
      rw [sdIntr, represents.empty_iff] at returned
      simp only [List.isEmpty_cons, Bool.false_eq_true, if_false, Option.ite_none_left_eq_some] at returned
      exact .inr (not_and_or.mp returned.1)
  obtain ⟨e', woken', returned', outcome⟩ := represents.intr_returns expected
  cases returned'.symm.trans returned
  exact outcome

end Driver.Represents

/-! ## The system -/

namespace System

variable (addr : Fin n → UInt64) (chan : B → UInt64)

/-- Buffers are not at the addresses of other buffers or of processes. -/
structure Layout : Prop where
  distinct : Function.Injective chan
  apart : ∀ p b, addr p ≠ chan b
  notNull : ∀ b, chan b ≠ 0

structure Serving (s : System C n B) (queue : List B) : Prop where
  consistent : Consistent s.kernel
  represents : s.driver.Represents queue
  history : s.queued = s.completed ++ queue
  requested : ∀ b ∈ queue, ∃ p, s.request p = some b
  own : ∀ p q b, s.request p = some b → s.request q = some b → p = q
  waiting : ∀ p b, s.request p = some b → b ∈ queue → (s.kernel.table.proc p).Dormant (chan b)
  served : ∀ p b, s.request p = some b → b ∉ queue →
    (s.kernel.table.proc p).Returning ∧ Clean (s.driver.flags b)

variable {addr chan} {s t : System C n B} {queue : List B}

omit [DecidableEq B] in
/-- A section of the process table that wakes nobody who waits for the device. -/
theorem Serving.tableStep {a : Action C} {kernel : Kernel C n} (serving : s.Serving chan queue)
    (layout : Layout addr chan) (stepped : Process.step addr a s.kernel = some kernel)
    (notWoken : ∀ b, a ≠ .wakeup (chan b))
    (yields : ∀ c p, s.kernel.table.cpu c = some p → a.by = some c → s.request p = none ∨ a = .yield c) :
    (s.setKernel kernel).Serving chan queue := by
  obtain ⟨⟨u, e⟩, performed, rfl⟩ := Option.map_eq_some_iff.mp stepped
  obtain ⟨moves, consistent⟩ := serving.consistent.perform performed
  have placed := serving.consistent.placed
  refine ⟨consistent, serving.represents, serving.history, serving.requested, serving.own, ?_, ?_⟩
  · intro p b requests member
    exact moves.dormant placed (serving.waiting p b requests member) (notWoken b) (fun q => layout.apart q b)
      (layout.notNull b)
  · intro p b requests gone
    obtain ⟨returning, clean⟩ := serving.served p b requests gone
    have busy : s.request p ≠ none := fun idle => by simp [show s.request p = some b from requests] at idle
    exact ⟨moves.returning placed returning fun c on acts => (yields c p on acts).resolve_left busy, clean⟩

omit [DecidableEq B] in
theorem Serving.kernel {a : Action C} {kernel : Kernel C n} [Fintype B] (serving : s.Serving chan queue)
    (layout : Layout addr chan) (allowed : s.allows chan a = true)
    (stepped : Process.step addr a s.kernel = some kernel) : (s.setKernel kernel).Serving chan queue := by
  refine serving.tableStep layout stepped ?_ ?_
  · rintro b rfl
    have other : ∀ b', chan b ≠ chan b' := of_decide_eq_true allowed
    exact other b rfl
  · intro c p on acts
    cases a with
    | yield d =>
      cases acts
      exact .inr rfl
    | fork d kstack => cases acts; exact .inl (by simpa [allows, on] using allowed)
    | forkCopy d => cases acts; exact .inl (by simpa [allows, on] using allowed)
    | forkReady d => cases acts; exact .inl (by simpa [allows, on] using allowed)
    | sleep d chan' => cases acts; exact .inl (by simpa [allows, on] using allowed)
    | exit d => cases acts; exact .inl (by simpa [allows, on] using allowed)
    | wait d => cases acts; exact .inl (by simpa [allows, on] using allowed)
    | _ => simp [Action.by] at acts

/-- `sdrw` from a process that is in no request, on a buffer that is in none. -/
theorem Serving.sdrw {c : C} {p : Fin n} {b : B} {driver : Driver B} {kernel : Kernel C n}
    (serving : s.Serving chan queue) (layout : Layout addr chan) (on : s.kernel.table.cpu c = some p)
    (idle : s.request p = none) (fresh : ∀ q, s.request q ≠ some b)
    (enqueued : sdrwEnqueue b s.driver = some driver)
    (slept : Process.step addr (.sleep c (chan b)) s.kernel = some kernel) :
    ({ s with
      kernel := kernel, driver := driver, request := Function.update s.request p (some b)
      queued := s.queued ++ [b] } : System C n B).Serving chan (queue ++ [b]) := by
  have notQueued : b ∉ queue := by
    intro member
    obtain ⟨q, requests⟩ := serving.requested b member
    exact fresh q requests
  obtain ⟨_, enqueued', represents, flags⟩ := serving.represents.enqueue notQueued
  cases enqueued'.symm.trans enqueued
  -- the others do not notice
  have others := serving.tableStep (a := .sleep c (chan b)) layout slept (by simp) (by
    rintro d q onQ acts
    cases acts
    cases on.symm.trans onQ
    exact .inl idle)
  have asleep : (kernel.table.proc p).Dormant (chan b) := by
    obtain ⟨⟨u, e⟩, performed, rfl⟩ := Option.map_eq_some_iff.mp slept
    exact (serving.consistent.perform performed).1.sleep_dormant on
  have old : ∀ q b', Function.update s.request p (some b) q = some b' →
      (q = p ∧ b' = b) ∨ (q ≠ p ∧ b' ≠ b ∧ s.request q = some b') := by
    intro q b' requests
    by_cases same : q = p
    · rw [same, Function.update_self] at requests
      exact .inl ⟨same, (Option.some.inj requests).symm⟩
    · rw [Function.update_of_ne same] at requests
      refine .inr ⟨same, ?_, requests⟩
      rintro rfl
      exact fresh q requests
  refine ⟨others.consistent, represents, ?_, ?_, ?_, ?_, ?_⟩
  · simp [serving.history]
  · intro b' member
    rcases List.mem_append.mp member with queued | new
    · obtain ⟨q, requests⟩ := serving.requested b' queued
      have different : q ≠ p := by
        rintro rfl
        simp [idle] at requests
      exact ⟨q, by simpa [different] using requests⟩
    · exact ⟨p, by simp [List.mem_singleton.mp new]⟩
  · intro q r b' requestsQ requestsR
    rcases old q b' requestsQ with ⟨rfl, rfl⟩ | ⟨_, different, requestsQ⟩
    · rcases old r b' requestsR with ⟨rfl, _⟩ | ⟨_, different, _⟩
      · rfl
      · exact absurd rfl different
    · rcases old r b' requestsR with ⟨_, same⟩ | ⟨_, _, requestsR⟩
      · exact absurd same different
      · exact serving.own q r b' requestsQ requestsR
  · intro q b' requests member
    rcases old q b' requests with ⟨rfl, rfl⟩ | ⟨_, different, requests⟩
    · exact asleep
    · refine others.waiting q b' requests ?_
      simpa [different] using member
  · intro q b' requests gone
    rcases old q b' requests with ⟨rfl, rfl⟩ | ⟨_, different, requests⟩
    · simp at gone
    · have served := others.served q b' requests fun member => gone (List.mem_append_left _ member)
      have clean : Clean (s.driver.flags b') := served.2
      exact ⟨served.1, by simpa [flags] using clean⟩

/-- What an action does to the requests, when it finds `queue` in the list of the driver. -/
def Serves (a : Act C B) (s : System C n B) (queue : List B) (t : System C n B) (queue' : List B) : Prop :=
  match a, queue with
  | .kernel _, _ | .setFlags _ _, _ => queue' = queue ∧ t.completed = s.completed ∧ t.request = s.request
  | .sdrw c b, _ => queue' = queue ++ [b] ∧ t.completed = s.completed ∧
      ∃ p, s.kernel.table.cpu c = some p ∧ s.request p = none ∧ t.request = Function.update s.request p (some b)
  | .intr _, [] => queue' = [] ∧ t.completed = s.completed ∧ t.request = s.request
  | .intr status, b :: rest => t.request = s.request ∧
      if Finishes status (s.driver.flags b) then queue' = rest ∧ t.completed = s.completed ++ [b]
      else queue' = b :: rest ∧ t.completed = s.completed
  | .resume c, _ => queue' = queue ∧ t.completed = s.completed ∧
      ∃ p b, s.kernel.table.cpu c = some p ∧ s.request p = some b ∧ t.request = Function.update s.request p none

theorem Serving.intr {status : UInt32} {driver : Driver B} {woken : Option B} (serving : s.Serving chan queue)
    (layout : Layout addr chan) (returned : sdIntr status s.driver = some (driver, woken))
    (completed : completes addr chan driver s woken = some t) :
    ∃ queue', t.Serving chan queue' ∧ Serves (.intr status : Act C B) s queue t queue' := by
  rcases serving.represents.intr returned with ⟨rfl, represents, flags, unfinished⟩ |
    ⟨b, rest, rfl, rfl, represents, clean, flags, finishes⟩
  · cases completed
    refine ⟨queue, ⟨serving.consistent, represents, serving.history, serving.requested, serving.own, serving.waiting,
      by simpa [flags] using serving.served⟩, ?_⟩
    cases queue with
    | nil => exact ⟨rfl, rfl, rfl⟩
    | cons b rest => exact ⟨rfl, (if_neg (unfinished b rest rfl)).mpr ⟨rfl, rfl⟩⟩
  · obtain ⟨kernel, woke, rfl⟩ := Option.map_eq_some_iff.mp completed
    obtain ⟨⟨u, e⟩, performed, rfl⟩ := Option.map_eq_some_iff.mp woke
    obtain ⟨moves, consistent⟩ := serving.consistent.perform performed
    have placed := serving.consistent.placed
    have notAgain : b ∉ rest := (List.nodup_cons.mp serving.represents.nodup).1
    refine ⟨rest, ⟨consistent, represents, ?_, ?_, serving.own, ?_, ?_⟩, rfl, (if_pos finishes).mpr ⟨rfl, rfl⟩⟩
    · simp [serving.history]
    · exact fun b' member => serving.requested b' (List.mem_cons_of_mem b member)
    · intro p b' requests member
      have different : b' ≠ b := by
        rintro rfl
        exact notAgain member
      refine moves.dormant placed (serving.waiting p b' requests (List.mem_cons_of_mem b member)) ?_
        (fun q => layout.apart q b') (layout.notNull b')
      simpa using fun same => different (layout.distinct same).symm
    · intro p b' requests gone
      by_cases same : b' = b
      · -- its requester slept, and is woken
        subst same
        exact ⟨moves.wakeup_returning (serving.waiting p b' requests List.mem_cons_self), clean⟩
      · obtain ⟨returning, clean⟩ := serving.served p b' requests (by simp [same, gone])
        exact ⟨moves.returning placed returning (by simp [Action.by]), by rwa [flags b' same]⟩

omit [DecidableEq C] [DecidableEq B] in
theorem Serving.running {c : C} {p : Fin n} {b : B} (serving : s.Serving chan queue)
    (on : s.kernel.table.cpu c = some p) (requests : s.request p = some b) : b ∉ queue := by
  intro member
  have asleep := (serving.waiting p b requests member).1.1
  simp [serving.consistent.placed.current c p on] at asleep

omit [DecidableEq C] [DecidableEq B] in
theorem Serving.resume {c : C} {p : Fin n} (serving : s.Serving chan queue) (on : s.kernel.table.cpu c = some p) :
    ({ s with request := Function.update s.request p none } : System C n B).Serving chan queue := by
  have old : ∀ q b, Function.update s.request p none q = some b → s.request q = some b := by
    intro q b requests
    by_cases same : q = p
    · simp [same] at requests
    · simpa [same] using requests
  refine ⟨serving.consistent, serving.represents, serving.history, ?_, ?_, ?_, ?_⟩
  · intro b member
    obtain ⟨q, requests⟩ := serving.requested b member
    have different : q ≠ p := by
      rintro rfl
      exact serving.running on requests member
    exact ⟨q, by simpa [different] using requests⟩
  · exact fun q r b requestsQ requestsR => serving.own q r b (old q b requestsQ) (old r b requestsR)
  · exact fun q b requests => serving.waiting q b (old q b requests)
  · exact fun q b requests => serving.served q b (old q b requests)

theorem Serving.step {a : Act C B} [Fintype B] (serving : s.Serving chan queue) (layout : Layout addr chan)
    (stepped : System.step addr chan a s = some t) :
    ∃ queue', t.Serving chan queue' ∧ Serves a s queue t queue' := by
  cases a with
  | kernel a =>
    simp only [System.step, Option.ite_none_right_eq_some, Option.map_eq_some_iff] at stepped
    obtain ⟨allowed, kernel, stepped, rfl⟩ := stepped
    exact ⟨queue, serving.kernel layout allowed stepped, rfl, rfl, rfl⟩
  | setFlags b flags =>
    simp only [System.step, Option.ite_none_right_eq_some, Option.some.injEq] at stepped
    obtain ⟨free, rfl⟩ := stepped
    refine ⟨queue, ⟨serving.consistent, ⟨serving.represents.ring, serving.represents.started⟩, serving.history,
      serving.requested, serving.own, serving.waiting, fun p b' requests gone => ?_⟩, rfl, rfl, rfl⟩
    have other : b' ≠ b := by
      rintro rfl
      exact free p requests
    simpa [other] using serving.served p b' requests gone
  | sdrw c b =>
    simp only [System.step, Option.bind_eq_bind, Option.bind_eq_some_iff, Option.ite_none_right_eq_some,
      Option.some.injEq] at stepped
    obtain ⟨p, on, ⟨idle, fresh⟩, driver, enqueued, kernel, slept, rfl⟩ := stepped
    exact ⟨queue ++ [b], serving.sdrw layout on idle fresh enqueued slept, rfl, rfl, p, on, idle, rfl⟩
  | intr status =>
    simp only [System.step, Option.bind_eq_bind, Option.bind_eq_some_iff] at stepped
    obtain ⟨⟨driver, woken⟩, returned, completed⟩ := stepped
    exact serving.intr layout returned completed
  | resume c =>
    simp only [System.step, Option.bind_eq_bind, Option.bind_eq_some_iff, Option.ite_none_left_eq_some,
      Option.some.injEq] at stepped
    obtain ⟨p, on, busy, rfl⟩ := stepped
    obtain ⟨b, requests⟩ := Option.ne_none_iff_exists'.mp busy
    exact ⟨queue, serving.resume on, rfl, rfl, p, b, on, requests, rfl⟩

/-- The machine at boot, after `sd_init`. -/
structure Boot (s : System C n B) : Prop where
  kernel : Process.Boot s.kernel
  sdque : s.driver.links.Linked .sdque .sdque
  started : s.driver.started = none
  request : ∀ p, s.request p = none
  queued : s.queued = []
  completed : s.completed = []

omit [DecidableEq C] [DecidableEq B] in
theorem Boot.serving (boot : s.Boot) : s.Serving chan [] where
  consistent := boot.kernel.consistent
  represents := ⟨⟨by simp, by simpa using boot.sdque⟩, boot.started⟩
  history := by rw [boot.queued, boot.completed]; rfl
  requested := by simp
  own p q b requests := by simp [boot.request] at requests
  waiting p b requests := by simp [boot.request] at requests
  served p b requests := by simp [boot.request] at requests

/-- With `sdlock` free, and `queue` in the list of the driver. -/
structure Orderly (chan : B → UInt64) (s : System C n B) (queue : List B) : Prop where
  ring : Ring s.driver.links .sdque (queue.map .blist)
  /-- Every request is completed once, and in the order in which they were queued. -/
  once : s.queued = s.completed ++ queue
  /-- The device has been started on the head, and has not completed it. -/
  device : s.driver.started = queue.head?
  requester : ∀ b ∈ queue, ∃! p, s.request p = some b
  /-- A requester sleeps exactly while its buffer is queued. -/
  asleep : ∀ p b, s.request p = some b → ((s.kernel.table.proc p).SleepsOn (chan b) ↔ b ∈ queue)
  /-- When it goes on, its request is done. -/
  resumed : ∀ c p b, s.kernel.table.cpu c = some p → s.request p = some b → Clean (s.driver.flags b)

omit [DecidableEq C] in
theorem Serving.orderly (serving : s.Serving chan queue) : s.Orderly chan queue where
  ring := serving.represents.ring
  once := serving.history
  device := serving.represents.started
  requester b member := by
    obtain ⟨p, requests⟩ := serving.requested b member
    exact ⟨p, requests, fun q requestsQ => serving.own q p b requestsQ requests⟩
  asleep p b requests := by
    refine ⟨fun asleep => ?_, fun member => (serving.waiting p b requests member).1⟩
    by_contra gone
    rcases (serving.served p b requests gone).1 with running | ⟨runnable, _⟩
    · simp [asleep.1] at running
    · simp [asleep.1] at runnable
  resumed c p b on requests := (serving.served p b requests (serving.running on requests)).2

-- Every interrupt is handled, unless its status word fails the assertion.
theorem Serving.handles [Fintype B] {status : UInt32} (serving : s.Serving chan queue)
    (expected : queue = [] ∨ Expected status) : (System.step addr chan (.intr status) s).isSome := by
  obtain ⟨driver, woken, returned, _⟩ := serving.represents.intr_returns expected
  rw [System.step, returned]
  cases woken with
  | none => rfl
  | some b =>
    obtain ⟨links, woke, _⟩ := wakeup1_does serving.consistent.ordered (chan b)
    simp [completes, Process.step, perform, woke]

/-- The buffers with which `sdrw` is called, in order. -/
def requests (acts : List (Act C B)) : List B :=
  acts.filterMap fun
    | .sdrw _ b => some b
    | _ => none

theorem step_queued [Fintype B] {a : Act C B} (stepped : System.step addr chan a s = some t) :
    t.queued = s.queued ++ requests [a] := by
  cases a with
  | kernel a =>
    simp only [System.step, Option.ite_none_right_eq_some, Option.map_eq_some_iff] at stepped
    obtain ⟨_, _, _, rfl⟩ := stepped
    simp [setKernel, requests]
  | setFlags b flags =>
    simp only [System.step, Option.ite_none_right_eq_some, Option.some.injEq] at stepped
    obtain ⟨_, rfl⟩ := stepped
    simp [requests]
  | sdrw c b =>
    simp only [System.step, Option.bind_eq_bind, Option.bind_eq_some_iff, Option.ite_none_right_eq_some,
      Option.some.injEq] at stepped
    obtain ⟨_, _, _, _, _, _, _, rfl⟩ := stepped
    simp [requests]
  | intr status =>
    simp only [System.step, Option.bind_eq_bind, Option.bind_eq_some_iff] at stepped
    obtain ⟨⟨driver, woken⟩, _, completed⟩ := stepped
    cases woken with
    | none =>
      cases completed
      simp [requests]
    | some b =>
      obtain ⟨_, _, rfl⟩ := Option.map_eq_some_iff.mp completed
      simp [requests]
  | resume c =>
    simp only [System.step, Option.bind_eq_bind, Option.bind_eq_some_iff, Option.ite_none_left_eq_some,
      Option.some.injEq] at stepped
    obtain ⟨_, _, _, rfl⟩ := stepped
    simp [requests]

theorem run_queued [Fintype B] {acts : List (Act C B)} (ran : run (System.step addr chan) acts s = some t) :
    t.queued = s.queued ++ requests acts := by
  induction acts generalizing s with
  | nil =>
    cases ran
    simp [requests]
  | cons a rest ih =>
    obtain ⟨u, stepped, tail⟩ := run_cons_eq_some.mp ran
    rw [ih tail, step_queued stepped, List.append_assoc]
    simp only [requests, ← List.filterMap_append, List.singleton_append]

/-- In every run of requests, interrupts and sections of the process table: the requests
of the run are those completed and those in the queue, and what comes next keeps it so. -/
theorem requests_in_order [Fintype B] {acts : List (Act C B)} (layout : Layout addr chan) (boot : s.Boot)
    (ran : run (System.step addr chan) acts s = some t) :
    ∃ queue, requests acts = t.completed ++ queue ∧ t.Orderly chan queue ∧
      (∀ status, queue = [] ∨ Expected status → (System.step addr chan (.intr status) t).isSome) ∧
      ∀ a u, System.step addr chan a t = some u → ∃ queue', u.Orderly chan queue' ∧ Serves a t queue u queue' := by
  have preserved : ∀ (a : Act C B) (s t : System C n B), (∃ queue, s.Serving chan queue) →
      System.step addr chan a s = some t → ∃ queue, t.Serving chan queue := by
    intro a s t ⟨queue, serving⟩ stepped
    obtain ⟨queue', serving', _⟩ := serving.step layout stepped
    exact ⟨queue', serving'⟩
  obtain ⟨queue, serving⟩ := run_invariant preserved ⟨[], boot.serving⟩ ran
  have queued := run_queued ran
  rw [boot.queued, List.nil_append, serving.history] at queued
  refine ⟨queue, queued.symm, serving.orderly, fun _ => serving.handles, fun a u stepped => ?_⟩
  obtain ⟨queue', serving', serves⟩ := serving.step layout stepped
  exact ⟨queue', serving'.orderly, serves⟩

end System

end

def bootSystem : System Bool nproc Bool where
  kernel := bootKernel Bool nproc
  driver := { links := ⟨fun a => if a = .sdque then some .sdque else none,
                fun a => if a = .sdque then some .sdque else none⟩
              flags := fun _ => 0, started := none }
  request _ := none
  queued := []
  completed := []

theorem bootSystem_boot : bootSystem.Boot := ⟨bootKernel_boot _ _, ⟨rfl, rfl⟩, rfl, fun _ => rfl, rfl, rfl⟩

/-- One buffer is queued while the device reads the other, which is written back afterwards;
a status word that is not the expected one restarts the device. -/
def transfers : List (Act Bool Bool) :=
  twoProcesses.map .kernel ++
    [.sdrw false false, .sdrw true true, .intr 0x20, .kernel (.scheduler false), .resume false,
      .setFlags false 0x6, .sdrw false false, .intr 0x2, .intr 0x22, .kernel (.scheduler true), .resume true,
      .intr 0x2]

def transferAddr (p : Fin nproc) : UInt64 := 4096 + p.val.toUInt64

def transferChan (b : Bool) : UInt64 := if b then 16 else 8

theorem transfer_layout : System.Layout transferAddr transferChan := ⟨by decide, by decide +kernel, by decide⟩

theorem requests_in_order_transfers :
    ∃ t, run (System.step transferAddr transferChan) transfers bootSystem = some t ∧
      t.completed = [false, true, false] ∧
      ∃ queue, System.requests transfers = t.completed ++ queue ∧ t.Orderly transferChan queue := by
  obtain ⟨t, ran, completed⟩ := Option.map_eq_some_iff.mp
    (show (run (System.step transferAddr transferChan) transfers bootSystem).map System.completed =
      some [false, true, false] by decide +kernel)
  obtain ⟨queue, requested, orderly, _⟩ := System.requests_in_order transfer_layout bootSystem_boot ran
  exact ⟨t, ran, completed, queue, requested, orderly⟩

end Xv6.Sd
