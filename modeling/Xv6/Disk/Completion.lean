import Xv6.Disk.Driver

/-! Which interrupt completes a request of `kern/sd.c`, and with which data.

`Disk` is the driver with the contents of the buffers and the registers that it writes.
What the card presents is given with every action: the status word of an interrupt, the
words of the data register, and the answers on which `sd_start` panics or goes on. The
steps of `Station` refine those of `System`.
-/

set_option autoImplicit false

namespace Xv6.Sd

open Library Process

abbrev Words := Fin 128 → UInt32

structure Contents where
  blockno : UInt32
  part : UInt32
  data : Words

inductive Command where
  /-- `IX_READ_SINGLE` -/
  | readSingle
  /-- `IX_WRITE_SINGLE` -/
  | writeSingle

-- What the card answers to `sd_start`.
structure Answers where
  /-- `*EMMC_INTERRUPT` at the first assertion. -/
  pending : UInt32
  /-- The result of `sdSendCommandA`. -/
  command : Int32
  /-- The result of `sdWaitForInterrupt(INT_WRITE_RDY)`. -/
  ready : Int32
  /-- `*EMMC_INTERRUPT` at the second assertion. -/
  cleared : UInt32

structure Card where
  /-- `sdCard.type == SD_TYPE_2_HC` -/
  highCapacity : Bool
  blkSizeCnt : UInt32
  commands : List (Command × UInt32)
  /-- What has been written to the data register. -/
  written : List UInt32

structure Disk (B : Type) where
  driver : Driver B
  contents : B → Contents
  card : Card

-- The address of `b->data`.
def dataAt (b : UInt64) : UInt64 := b + 20

namespace Disk

section
variable {B : Type} [DecidableEq B] (chan : B → UInt64)

-- `sd_start`; `none` where it panics.
def sdStart (answers : Answers) (b : B) (d : Disk B) : Option (Disk B) :=
  let c := d.contents b
  let bno := if d.card.highCapacity then c.blockno + c.part else (c.blockno + c.part) <<< 9
  let write := d.driver.flags b &&& B_DIRTY ≠ 0
  if answers.pending ≠ 0 then none
  else
    let cmd := if write then Command.writeSingle else .readSingle
    let card := { d.card with blkSizeCnt := 512, commands := d.card.commands ++ [(cmd, bno)] }
    if answers.command ≠ 0 then none
    else if dataAt (chan b) &&& 3 ≠ 0 then none
    else if write then
      if answers.ready ≠ 0 then none
      else if answers.cleared ≠ 0 then none
      else some { d with
        driver := Sd.sdStart b d.driver, card := { card with written := card.written ++ List.ofFn c.data } }
    else some { d with driver := Sd.sdStart b d.driver, card := card }

-- `sdrw` up to its `sleep`.
def sdrw (answers : Answers) (b : B) (d : Disk B) : Option (Disk B) :=
  if listEmpty d.driver.links .sdque then do
    let links ← listPushBack d.driver.links .sdque (.blist b)
    sdStart chan answers b { d with driver := { d.driver with links := links } }
  else do
    let links ← listPushBack d.driver.links .sdque (.blist b)
    some { d with driver := { d.driver with links := links } }

/-- The loop that fills a buffer from the data register. -/
def fill (words : Words) (b : B) (d : Disk B) : Disk B :=
  { d with contents := Function.update d.contents b { d.contents b with data := words } }

def setDone (b : B) (d : Disk B) : Disk B :=
  { d with driver := { d.driver with
      flags := Function.update d.driver.flags b ((d.driver.flags b ||| B_VALID) &&& ~~~ B_DIRTY), started := none } }

-- The end of `sd_intr` for the request of `b`, which is at the head.
def popFront (answers : Answers) (b : B) (d : Disk B) : Option (Disk B × Option B) := do
  let (_, links) ← listPopFront d.driver.links .sdque
  let d := { d with driver := { d.driver with links := links } }
  if listEmpty d.driver.links .sdque then some (d, some b)
  else do
    let head ← frontBuf d.driver
    let d ← sdStart chan answers head d
    some (d, some b)

-- `sd_intr`, with the buffer whose sleepers it wakes; `none` where it panics.
def sdIntr (status : UInt32) (words : Words) (answers : Answers) (d : Disk B) : Option (Disk B × Option B) :=
  if listEmpty d.driver.links .sdque then some (d, none)
  else if status &&& INT_DATA_DONE = 0 ∧ status &&& INT_READ_RDY = 0 then none
  else do
    let b ← frontBuf d.driver
    let write := d.driver.flags b &&& B_DIRTY ≠ 0
    -- the second test is on the constant, not on the status word
    if ¬ ((write ∧ status = INT_DATA_DONE) ∨ (¬ write ∧ INT_READ_RDY ≠ 0)) then do
      let d ← sdStart chan answers b d
      some (d, none)
    else do
      let d := if ¬ write then d.fill words b else d
      popFront chan answers b (d.setDone b)

end

end Disk

/-- The system with the contents of the buffers and the card. -/
structure Station (C : Type) (n : Nat) (B : Type) where
  system : System C n B
  contents : B → Contents
  card : Card

namespace Station

inductive Act (C B : Type) where
  | kernel (a : Action C)
  /-- The owner of a buffer sets its flags and contents. -/
  | setBuf (b : B) (flags : UInt32) (contents : Contents)
  | sdrw (c : C) (b : B) (answers : Answers)
  /-- `sd_intr`, which finds the status word, and the words of the data register. -/
  | intr (status : UInt32) (words : Words) (answers : Answers)
  | resume (c : C)

def Act.plain {C B : Type} : Act C B → Sd.Act C B
  | kernel a => .kernel a
  | setBuf b flags _ => .setFlags b flags
  | sdrw c b _ => .sdrw c b
  | intr status _ _ => .intr status
  | resume c => .resume c

section
variable {C : Type} [DecidableEq C] {n : Nat} {B : Type} [DecidableEq B] [Fintype B]

def disk (s : Station C n B) : Disk B := ⟨s.system.driver, s.contents, s.card⟩

variable (addr : Fin n → UInt64) (chan : B → UInt64)

def step (a : Act C B) (s : Station C n B) : Option (Station C n B) :=
  match a with
  | .kernel a => do
    let system ← System.step addr chan (.kernel a) s.system
    some { s with system := system }
  | .setBuf b flags contents => do
    let system ← System.step addr chan (.setFlags b flags) s.system
    some { s with system := system, contents := Function.update s.contents b contents }
  | .sdrw c b answers => do
    let p ← s.system.kernel.table.cpu c
    if s.system.request p = none ∧ ∀ q, s.system.request q ≠ some b then do
      let disk ← s.disk.sdrw chan answers b
      let kernel ← Process.step addr (.sleep c (chan b)) s.system.kernel
      some {
        system := { s.system with
          kernel := kernel, driver := disk.driver, request := Function.update s.system.request p (some b)
          queued := s.system.queued ++ [b] }
        contents := disk.contents, card := disk.card }
    else none
  | .intr status words answers => do
    let (disk, completed) ← s.disk.sdIntr chan status words answers
    let system ← s.system.completes addr chan disk.driver completed
    some { system := system, contents := disk.contents, card := disk.card }
  | .resume c => do
    let system ← System.step addr chan (.resume c) s.system
    some { s with system := system }

/-! What is asked of an interrupt. -/

def Queued (s : Station C n B) (b : B) : Prop :=
  ∃ queue : List B, Ring s.system.driver.links .sdque (queue.map .blist) ∧ b ∈ queue

def Awaited (s : Station C n B) (b : B) (status : UInt32) : Prop :=
  if s.system.driver.flags b &&& B_DIRTY = 0 then status &&& INT_READ_RDY ≠ 0 else status &&& INT_DATA_DONE ≠ 0

/-- A request stays as it is. -/
structure Keeps (s t : Station C n B) (b : B) : Prop where
  queued : t.Queued b
  head : frontBuf s.system.driver = some b → frontBuf t.system.driver = some b
  flags : t.system.driver.flags b = s.system.driver.flags b
  contents : t.contents b = s.contents b

structure Completes (s t : Station C n B) (words : Words) (b : B) : Prop where
  head : frontBuf s.system.driver = some b
  gone : ¬t.Queued b
  clean : Clean (t.system.driver.flags b)
  contents : t.contents b =
    if s.system.driver.flags b &&& B_DIRTY = 0 then { s.contents b with data := words } else s.contents b

/-- Every queued request stays as it is, unless the action is the interrupt for which it waits. -/
def Correct (a : Act C B) (s : Station C n B) : Prop :=
  ∀ t b, step addr chan a s = some t → s.Queued b → s.Keeps t b ∨
    ∃ status words answers, a = .intr status words answers ∧ s.Awaited b status ∧ s.Completes t words b

/-- An interrupt that finds a read at the head says that data can be read. -/
def Ready (s : Station C n B) (a : Act C B) : Prop :=
  match a with
  | .intr status _ _ =>
    ∀ b, frontBuf s.system.driver = some b → s.system.driver.flags b &&& B_DIRTY = 0 → status &&& INT_READ_RDY ≠ 0
  | .kernel _ | .setBuf _ _ _ | .sdrw _ _ _ | .resume _ => True

instance (a : Act C B) (s : Station C n B) : Decidable (s.Ready a) :=
  match a with
  | .intr status _ _ => inferInstanceAs (Decidable (∀ b, frontBuf s.system.driver = some b →
      s.system.driver.flags b &&& B_DIRTY = 0 → status &&& INT_READ_RDY ≠ 0))
  | .kernel _ | .setBuf _ _ _ | .sdrw _ _ _ | .resume _ => .isTrue trivial

end

end Station

/-! ## The disk is a driver with data -/

namespace Disk

section
variable {B : Type} [DecidableEq B] {chan : B → UInt64} {d e : Disk B} {b : B} {answers : Answers}

omit [DecidableEq B] in
theorem sdStart_eq (started : sdStart chan answers b d = some e) :
    e.driver = Sd.sdStart b d.driver ∧ e.contents = d.contents := by
  simp only [sdStart, Option.ite_none_left_eq_some] at started
  obtain ⟨_, _, _, started⟩ := started
  split at started
  · simp only [Option.ite_none_left_eq_some] at started
    obtain ⟨_, _, started⟩ := started
    cases started
    exact ⟨rfl, rfl⟩
  · cases started
    exact ⟨rfl, rfl⟩

theorem sdrw_eq (queued : d.sdrw chan answers b = some e) :
    sdrwEnqueue b d.driver = some e.driver ∧ e.contents = d.contents := by
  unfold sdrw at queued
  unfold sdrwEnqueue
  split at queued
  · rename_i isEmpty
    obtain ⟨links, pushed, started⟩ := Option.bind_eq_some_iff.mp queued
    obtain ⟨driver, contents⟩ := sdStart_eq started
    rw [if_pos isEmpty, pushed, driver]
    exact ⟨rfl, contents⟩
  · rename_i notEmpty
    obtain ⟨links, pushed, same⟩ := Option.bind_eq_some_iff.mp queued
    cases same
    rw [if_neg notEmpty, pushed]
    exact ⟨rfl, rfl⟩

theorem frontBuf_of_empty {driver : Driver B} (isEmpty : listEmpty driver.links .sdque) : frontBuf driver = none := by
  have own : driver.links.next .sdque = some .sdque := of_decide_eq_true isEmpty
  rw [frontBuf, listFront, own]

/-- What an interrupt does to the data, and to which request. -/
inductive Outcome (chan : B → UInt64) (status : UInt32) (words : Words) (d e : Disk B) : Option B → Prop where
  /-- There is no request, or a write that another interrupt completes. -/
  | kept (contents : e.contents = d.contents)
      (other : ∀ b, frontBuf d.driver = some b → d.driver.flags b &&& B_DIRTY ≠ 0) : Outcome chan status words d e none
  | write (b : B) (head : frontBuf d.driver = some b) (dirty : d.driver.flags b &&& B_DIRTY ≠ 0)
      (done : status = INT_DATA_DONE) (contents : e.contents = d.contents) : Outcome chan status words d e (some b)
  | read (b : B) (head : frontBuf d.driver = some b) (clean : d.driver.flags b &&& B_DIRTY = 0)
      (contents : e.contents = Function.update d.contents b { d.contents b with data := words }) :
      Outcome chan status words d e (some b)

theorem popFront_eq {woken : Option B} (returned : popFront chan answers b d = some (e, woken)) :
    woken = some b ∧ e.contents = d.contents ∧
      (do
        let (_, links) ← listPopFront d.driver.links .sdque
        let driver := { d.driver with links := links }
        if listEmpty driver.links .sdque then some (driver, some b)
        else do
          let head ← frontBuf driver
          some (Sd.sdStart head driver, some b)) = some (e.driver, woken) := by
  obtain ⟨⟨_, links⟩, popped, returned⟩ := Option.bind_eq_some_iff.mp returned
  simp only [popped, Option.bind_eq_bind, Option.bind_some]
  by_cases isEmpty : listEmpty links .sdque
  · cases (if_pos isEmpty).symm.trans returned
    exact ⟨rfl, rfl, if_pos isEmpty⟩
  · have returned := (if_neg isEmpty).symm.trans returned
    obtain ⟨head, front, returned⟩ := Option.bind_eq_some_iff.mp returned
    obtain ⟨next, started, same⟩ := Option.bind_eq_some_iff.mp returned
    cases same
    obtain ⟨driver, contents⟩ := sdStart_eq started
    rw [if_neg isEmpty, front, driver]
    exact ⟨rfl, contents, rfl⟩

theorem sdIntr_eq {woken : Option B} {status : UInt32} {words : Words}
    (returned : sdIntr chan status words answers d = some (e, woken)) :
    Sd.sdIntr status d.driver = some (e.driver, woken) ∧ Outcome chan status words d e woken := by
  unfold sdIntr at returned
  unfold Sd.sdIntr
  split at returned
  · rename_i isEmpty
    cases returned
    rw [if_pos isEmpty]
    refine ⟨rfl, .kept rfl fun b front => ?_⟩
    rw [frontBuf_of_empty isEmpty] at front
    cases front
  · rename_i notEmpty
    obtain ⟨asserted, returned⟩ := Option.ite_none_left_eq_some.mp returned
    obtain ⟨b, front, returned⟩ := Option.bind_eq_some_iff.mp returned
    rw [if_neg notEmpty, if_neg asserted]
    simp only [front, Option.bind_eq_bind, Option.bind_some]
    dsimp only at returned
    split at returned
    · rename_i unexpected
      obtain ⟨next, started, same⟩ := Option.bind_eq_some_iff.mp returned
      cases same
      obtain ⟨driver, contents⟩ := sdStart_eq started
      rw [if_pos unexpected, driver]
      refine ⟨rfl, .kept contents fun b' front' => ?_⟩
      cases front.symm.trans front'
      intro clean
      exact unexpected (.inr ⟨not_not.mpr clean, by decide⟩)
    · rename_i expected
      obtain ⟨rfl, contents, popped⟩ := popFront_eq returned
      rw [if_neg expected]
      by_cases clean : d.driver.flags b &&& B_DIRTY = 0
      · rw [if_pos (not_not.mpr clean)] at contents popped
        exact ⟨popped, .read b front clean contents⟩
      · rw [if_neg (not_not.mpr clean)] at contents popped
        refine ⟨popped, .write b front clean ?_ contents⟩
        rcases not_not.mp expected with ⟨_, done⟩ | ⟨read, _⟩
        · exact done
        · exact absurd clean read

end

end Disk

namespace Station

section
variable {C : Type} [DecidableEq C] {n : Nat} {B : Type} [DecidableEq B] [Fintype B]
variable {addr : Fin n → UInt64} {chan : B → UInt64} {s t : Station C n B} {a : Act C B} {queue : List B}

theorem step_plain (stepped : step addr chan a s = some t) :
    System.step addr chan a.plain s.system = some t.system := by
  cases a with
  | kernel a | setBuf b flags contents | resume c =>
    obtain ⟨system, plain, same⟩ := Option.bind_eq_some_iff.mp stepped
    cases same
    exact plain
  | sdrw c b answers =>
    obtain ⟨p, on, stepped⟩ := Option.bind_eq_some_iff.mp stepped
    obtain ⟨idle, stepped⟩ := Option.ite_none_right_eq_some.mp stepped
    obtain ⟨disk, queued, stepped⟩ := Option.bind_eq_some_iff.mp stepped
    obtain ⟨kernel, slept, same⟩ := Option.bind_eq_some_iff.mp stepped
    cases same
    have enqueued : sdrwEnqueue b s.system.driver = some disk.driver := (Disk.sdrw_eq queued).1
    simp [Act.plain, System.step, on, idle, enqueued, slept]
  | intr status words answers =>
    obtain ⟨⟨disk, completed⟩, returned, stepped⟩ := Option.bind_eq_some_iff.mp stepped
    obtain ⟨system, completes, same⟩ := Option.bind_eq_some_iff.mp stepped
    cases same
    have plain : Sd.sdIntr status s.system.driver = some (disk.driver, completed) := (Disk.sdIntr_eq returned).1
    simp [Act.plain, System.step, plain, completes]

def Serving (chan : B → UInt64) (s : Station C n B) : Prop := ∃ queue, s.system.Serving chan queue

theorem Serving.step (layout : System.Layout addr chan) (serving : s.Serving chan)
    (stepped : Station.step addr chan a s = some t) : t.Serving chan := by
  obtain ⟨queue, serves⟩ := serving
  obtain ⟨queue', later, _⟩ := serves.step layout (step_plain stepped)
  exact ⟨queue', later⟩

omit [DecidableEq C] [DecidableEq B] [Fintype B] in
theorem queued_iff (represents : s.system.driver.Represents queue) (b : B) : s.Queued b ↔ b ∈ queue := by
  constructor
  · intro ⟨other, ring, member⟩
    have same := ring.unique represents.ring
    have member' : Node.blist b ∈ other.map Node.blist := List.mem_map_of_mem member
    rw [same] at member'
    simpa using member'
  · intro member
    exact ⟨queue, represents.ring, member⟩

omit [DecidableEq C] [DecidableEq B] [Fintype B] in
-- A step that leaves the driver and the contents of a queued buffer alone.
theorem Keeps.of_same {b : B} (queued : s.Queued b) (links : t.system.driver.links = s.system.driver.links)
    (flags : t.system.driver.flags b = s.system.driver.flags b) (contents : t.contents b = s.contents b) :
    s.Keeps t b := by
  refine ⟨?_, ?_, flags, contents⟩
  · unfold Queued
    rw [links]
    exact queued
  · intro front
    rw [frontBuf, links]
    exact front

theorem sdrw_keeps {c : C} {b b' : B} {answers : Answers} (serves : s.system.Serving chan queue)
    (queued : s.Queued b) (stepped : step addr chan (.sdrw c b' answers) s = some t) : s.Keeps t b := by
  obtain ⟨p, on, stepped⟩ := Option.bind_eq_some_iff.mp stepped
  obtain ⟨⟨idle, free⟩, stepped⟩ := Option.ite_none_right_eq_some.mp stepped
  obtain ⟨disk, queues, stepped⟩ := Option.bind_eq_some_iff.mp stepped
  obtain ⟨kernel, slept, same⟩ := Option.bind_eq_some_iff.mp stepped
  cases same
  have member := (queued_iff serves.represents b).mp queued
  have fresh : b' ∉ queue := by
    intro member'
    obtain ⟨q, requests⟩ := serves.requested b' member'
    exact free q requests
  obtain ⟨enqueued, contents⟩ := Disk.sdrw_eq queues
  obtain ⟨driver, enqueued', represents, flags⟩ := serves.represents.enqueue fresh
  cases enqueued'.symm.trans enqueued
  refine ⟨?_, ?_, congrFun flags b, congrFun contents b⟩
  · exact ⟨queue ++ [b'], represents.ring, List.mem_append_left _ member⟩
  · intro front
    rw [serves.represents.frontBuf] at front
    have head := represents.frontBuf
    rw [List.head?_append, front] at head
    exact head

omit [DecidableEq B] [Fintype B] in
theorem completes_driver {driver : Driver B} {system result : System C n B} {woken : Option B}
    (completes : system.completes addr chan driver woken = some result) : result.driver = driver := by
  cases woken with
  | none =>
    cases completes
    rfl
  | some b =>
    obtain ⟨kernel, _, same⟩ := Option.map_eq_some_iff.mp completes
    rw [← same]

/-- An interrupt finds a write or nothing at the head and leaves every request as it is, or it
completes the request at the head. -/
theorem intr_cases {status : UInt32} {words : Words} {answers : Answers} (serves : s.system.Serving chan queue)
    (stepped : step addr chan (.intr status words answers) s = some t) :
    ((∀ b, frontBuf s.system.driver = some b → s.system.driver.flags b &&& B_DIRTY ≠ 0) ∧
        ∀ b, s.Queued b → s.Keeps t b) ∨
      ∃ b, s.Completes t words b ∧ (∀ other, other ≠ b → s.Queued other → s.Keeps t other) ∧
        (s.system.driver.flags b &&& B_DIRTY ≠ 0 → status = INT_DATA_DONE) := by
  obtain ⟨⟨disk, completed⟩, returned, stepped⟩ := Option.bind_eq_some_iff.mp stepped
  obtain ⟨system, completes, same⟩ := Option.bind_eq_some_iff.mp stepped
  cases same
  obtain ⟨plain, outcome⟩ := Disk.sdIntr_eq returned
  have driver : system.driver = disk.driver := completes_driver completes
  have front := serves.represents.frontBuf
  rcases serves.represents.intr plain with ⟨rfl, represents, flags, _⟩ |
    ⟨b, rest, rfl, rfl, represents, clean, flags, _⟩
  · -- nothing is completed
    cases outcome with
    | kept contents other =>
      refine .inl ⟨other, fun b queued => ?_⟩
      have member := (queued_iff serves.represents b).mp queued
      rw [← driver] at represents flags
      refine ⟨⟨queue, represents.ring, member⟩, fun head => ?_, congrFun flags b, congrFun contents b⟩
      rw [represents.frontBuf, ← front]
      exact head
  · have notAgain : b ∉ rest := (List.nodup_cons.mp serves.represents.nodup).1
    rw [← driver] at represents clean flags
    have gone : ¬Queued ⟨system, disk.contents, disk.card⟩ b := by
      intro queued
      exact notAgain ((queued_iff represents b).mp queued)
    -- the others keep their place, and their buffers
    have others : ∀ other, other ≠ b → disk.contents other = s.contents other → s.Queued other →
        s.Keeps ⟨system, disk.contents, disk.card⟩ other := by
      intro other different contents queued
      have member := (queued_iff serves.represents other).mp queued
      refine ⟨⟨rest, represents.ring, List.mem_of_ne_of_mem different member⟩, fun head => ?_, flags other different,
        contents⟩
      cases front.symm.trans head
      exact absurd rfl different
    cases outcome with
    | write _ head dirty done contents =>
      refine .inr ⟨b, ⟨head, gone, clean, ?_⟩, fun other different => ?_, fun _ => done⟩
      · exact (congrFun contents b).trans (if_neg dirty).symm
      · exact others other different (congrFun contents other)
    | read _ head reads contents =>
      refine .inr ⟨b, ⟨head, gone, clean, ?_⟩, fun other different => ?_, fun dirty => absurd reads dirty⟩
      · exact ((congrFun contents b).trans (Function.update_self ..)).trans (if_pos reads).symm
      · exact others other different ((congrFun contents other).trans (Function.update_of_ne different ..))

/-- A step is right just if it is no interrupt that finds a read and says nothing of data. -/
theorem correct_iff_ready (serving : s.Serving chan) (stepped : step addr chan a s = some t) :
    Correct addr chan a s ↔ s.Ready a := by
  obtain ⟨queue, serves⟩ := serving
  have only : ∀ u, step addr chan a s = some u → u = t := fun u found => Option.some.inj (found.symm.trans stepped)
  have keeps : (∀ b, s.Queued b → s.Keeps t b) → Correct addr chan a s := by
    intro keeps u b found queued
    rw [only u found]
    exact .inl (keeps b queued)
  cases a with
  | kernel a =>
    refine iff_of_true (keeps fun b queued => ?_) trivial
    obtain ⟨system, plain, same⟩ := Option.bind_eq_some_iff.mp stepped
    cases same
    obtain ⟨_, plain⟩ := Option.ite_none_right_eq_some.mp plain
    obtain ⟨kernel, _, same⟩ := Option.map_eq_some_iff.mp plain
    cases same
    exact .of_same queued rfl rfl rfl
  | setBuf b' flags contents =>
    refine iff_of_true (keeps fun b queued => ?_) trivial
    obtain ⟨system, plain, same⟩ := Option.bind_eq_some_iff.mp stepped
    cases same
    obtain ⟨free, same⟩ := Option.ite_none_right_eq_some.mp plain
    cases same
    -- a queued buffer has a requester
    have different : b ≠ b' := by
      intro same
      obtain ⟨p, requests⟩ := serves.requested b ((queued_iff serves.represents b).mp queued)
      exact free p (same ▸ requests)
    exact .of_same queued rfl (Function.update_of_ne different ..) (Function.update_of_ne different ..)
  | sdrw c b' answers =>
    exact iff_of_true (keeps fun b queued => sdrw_keeps serves queued stepped) trivial
  | resume c =>
    refine iff_of_true (keeps fun b queued => ?_) trivial
    obtain ⟨system, plain, same⟩ := Option.bind_eq_some_iff.mp stepped
    cases same
    obtain ⟨p, _, plain⟩ := Option.bind_eq_some_iff.mp plain
    obtain ⟨_, same⟩ := Option.ite_none_left_eq_some.mp plain
    cases same
    exact .of_same queued rfl rfl rfl
  | intr status words answers =>
    rcases intr_cases serves stepped with ⟨dirty, kept⟩ | ⟨b, done, others, writes⟩
    · refine iff_of_true (keeps kept) fun b head reads => ?_
      exact absurd reads (dirty b head)
    · have queued : s.Queued b := by
        have member : b ∈ queue := List.mem_of_mem_head? (serves.represents.frontBuf.symm.trans done.head)
        exact (queued_iff serves.represents b).mpr member
      constructor
      · intro correct b' head reads
        cases done.head.symm.trans head
        rcases correct t b stepped queued with kept | ⟨status', words', answers', same, awaited, _⟩
        · exact absurd kept.queued done.gone
        · cases same
          rw [Awaited, if_pos reads] at awaited
          exact awaited
      · intro ready u b' found queued'
        rw [only u found]
        by_cases same : b' = b
        · rw [same]
          refine .inr ⟨status, words, answers, rfl, ?_, done⟩
          unfold Awaited
          split
          · rename_i reads
            exact ready b done.head reads
          · rename_i dirty
            rw [writes dirty]
            decide
        · exact .inl (others b' same queued')

omit [Fintype B] [DecidableEq C] [DecidableEq B] in
theorem serving_boot (boot : s.system.Boot) : s.Serving chan := ⟨[], boot.serving⟩

theorem meets_correct_iff {acts : List (Act C B)} (layout : System.Layout addr chan) (serving : s.Serving chan)
    (ran : run (step addr chan) acts s = some t) :
    Meets (step addr chan) (Correct addr chan) acts s ↔ Meets (step addr chan) (fun a s => s.Ready a) acts s := by
  have preserved : ∀ (a : Act C B) (s t : Station C n B), s.Serving chan → step addr chan a s = some t →
      t.Serving chan := by
    intro a s t serving stepped
    exact serving.step layout stepped
  have each : ∀ (a : Act C B) (s t : Station C n B), s.Serving chan → step addr chan a s = some t →
      (Correct addr chan a s ↔ s.Ready a) := by
    intro a s t serving stepped
    exact correct_iff_ready serving stepped
  exact Meets.congr_of_run preserved each serving ran

/-- In a run of requests and interrupts, every read is completed by an interrupt that says that
its data can be read, and every write by one that says that its data is written, just if no
other interrupt finds a read at the head. -/
theorem completions_correct_iff {acts : List (Act C B)} (layout : System.Layout addr chan) (boot : s.system.Boot)
    (ran : run (step addr chan) acts s = some t) :
    Meets (step addr chan) (Correct addr chan) acts s ↔ Meets (step addr chan) (fun a s => s.Ready a) acts s :=
  meets_correct_iff layout (serving_boot boot) ran

end

end Station

def bootStation : Station Bool nproc Bool where
  system := bootSystem
  contents _ := ⟨7, 0, fun _ => 0⟩
  card := ⟨true, 0, [], []⟩

def readyCard : Answers := ⟨0, 0, 0, 0⟩

def bothRunning : List (Station.Act Bool Bool) := twoProcesses.map .kernel

def readAndWrite : List (Station.Act Bool Bool) :=
  bothRunning ++ [.sdrw false false readyCard, .setBuf true 0x4 ⟨9, 0, fun _ => 1⟩, .sdrw true true readyCard,
    .intr 0x20 (fun _ => 5) readyCard, .intr 0x22 (fun _ => 0) readyCard, .intr 0x2 (fun _ => 0) readyCard]

theorem completions_correct_iff_readAndWrite :
    Meets (Station.step transferAddr transferChan) (Station.Correct transferAddr transferChan) readAndWrite
      bootStation := by
  obtain ⟨t, ran⟩ := Option.isSome_iff_exists.mp
    (show (run (Station.step transferAddr transferChan) readAndWrite bootStation).isSome by decide +kernel)
  have ready : Meets (Station.step transferAddr transferChan) (fun a s => s.Ready a) readAndWrite bootStation := by
    decide +kernel
  exact (Station.completions_correct_iff transfer_layout bootSystem_boot ran).mpr ready

def staleStatus : List (Station.Act Bool Bool) :=
  bothRunning ++ [.sdrw false false readyCard, .intr INT_DATA_DONE (fun _ => 0xdead) readyCard]

/-- The read is completed with what the data register holds. -/
theorem stale_read :
    (∃ t, run (Station.step transferAddr transferChan) staleStatus bootStation = some t ∧
      t.system.completed = [false] ∧ t.system.driver.flags false = B_VALID ∧ (t.contents false).data 0 = 0xdead) ∧
      ¬Meets (Station.step transferAddr transferChan) (Station.Correct transferAddr transferChan) staleStatus
        bootStation := by
  have result : (run (Station.step transferAddr transferChan) staleStatus bootStation).map (fun t =>
      (t.system.completed, t.system.driver.flags false, (t.contents false).data 0)) =
        some ([false], B_VALID, 0xdead) := by decide +kernel
  obtain ⟨t, ran, values⟩ := Option.map_eq_some_iff.mp result
  simp only [Prod.mk.injEq] at values
  constructor
  · exact ⟨t, ran, values⟩
  · intro correct
    have ready := (Station.meets_correct_iff transfer_layout (Station.serving_boot bootSystem_boot) ran).mp correct
    revert ready
    decide +kernel

end Xv6.Sd
