import Xv6.List.Operations
import Mathlib.Data.Fin.VecNotation

/-! The process table, the scheduler's lists and the functions of `kern/proc.c`.

A function is the critical section that it runs under `ptablelock`, on the whole
table; `none` is a panic or a null pointer that is followed. `sched` and the
scheduler belong to one section: the lock is handed over in `swtch`.
-/

set_option autoImplicit false

namespace Xv6.Process

open Library

abbrev nproc : Nat := 64
abbrev prioentries : Nat := 4
abbrev hashentries : Nat := 17

inductive ProcState where
  | unused
  | embryo
  | sleeping
  | runnable
  | running
  | zombie
  deriving DecidableEq

-- Where a process goes on when it is switched to: the saved `p->context`.
inductive Context where
  | forkret
  | yield
  /-- In `sleep`, called with a lock of its caller. -/
  | sleep
  /-- In `sleep`, called by `wait` with `ptablelock`. -/
  | wait
  deriving DecidableEq

def initialPrio : Fin prioentries := ⟨prioentries - 1, by decide⟩

structure Proc (n : Nat) where
  sz : UInt64
  kstack : UInt64
  state : ProcState
  pid : Int
  parent : Option (Fin n)
  context : Context
  chan : UInt64
  killed : Int
  prio : Fin prioentries

/-- Every `struct list_head` of the scheduler: the two tables of heads and the
two fields of each process. -/
inductive ListHead (n : Nat) where
  | prioque (i : Fin prioentries)
  | hashmp (entry : Fin hashentries)
  | plist (p : Fin n)
  | clist (p : Fin n)
  deriving DecidableEq

/-- What `ptablelock` protects, for the CPUs `C` and a table of `n` slots. -/
structure Table (C : Type) (n : Nat) where
  proc : Fin n → Proc n
  links : Links (ListHead n)
  /-- `cpus[c].proc` -/
  cpu : C → Option (Fin n)
  initproc : Option (Fin n)
  nextpid : Int

section
variable {C : Type} {n : Nat}

def Table.setProc (s : Table C n) (p : Fin n) (x : Proc n) : Table C n :=
  { s with proc := Function.update s.proc p x }

def Table.setProcs (s : Table C n) (proc : Fin n → Proc n) : Table C n := { s with proc := proc }

def Table.setLinks (s : Table C n) (links : Links (ListHead n)) : Table C n := { s with links := links }

def hashEntry (chan : UInt64) : Fin hashentries := ⟨chan.toNat % hashentries, Nat.mod_lt _ (by decide)⟩

def cleanproc (s : Table C n) (p : Fin n) : Table C n :=
  s.setProc p { s.proc p with
    pid := 0, parent := none, killed := 0, kstack := 0, sz := 0, state := .unused }

-- The section of `proc_alloc`; `kstack` is what `kalloc` returns in it.
def procAlloc (kstack : Option UInt64) (s : Table C n) : Table C n × Option (Fin n) :=
  match (List.finRange n).find? fun p => (s.proc p).state = .unused with
  | none => (s, none)
  | some p =>
    let s := { s with nextpid := s.nextpid + 1 }.setProc p
      { s.proc p with state := .embryo, pid := s.nextpid }
    match kstack with
    | none => (s.setProc p { s.proc p with kstack := 0, state := .unused }, none)
    | some kstack =>
      let s := s.setProc p { s.proc p with
        kstack := kstack, context := .forkret, chan := 0, prio := initialPrio }
      let links := (s.links.setPrev (.clist p) none).setNext (.clist p) none
      (s.setLinks ((links.setPrev (.plist p) none).setNext (.plist p) none), some p)

variable [DecidableEq C]

-- `swtch` to the scheduler of the CPU, which clears `c->proc` and releases the lock.
def sched (c : C) (p : Fin n) (context : Context) (s : Table C n) : Table C n :=
  { s.setProc p { s.proc p with context := context } with cpu := Function.update s.cpu c none }

-- `sleep` from the moment it holds `ptablelock` until `sched` has given it up.
def sleepOn (c : C) (p : Fin n) (chan : UInt64) (context : Context) (s : Table C n) :
    Option (Table C n) := do
  let s := s.setProc p { s.proc p with chan := chan }
  let links ← if (s.proc p).state = .runnable then listDelete s.links (.plist p) else some s.links
  let s := (s.setLinks links).setProc p { s.proc p with state := .sleeping }
  let links ← listPushBack s.links (.hashmp (hashEntry chan)) (.clist p)
  some (sched c p context (s.setLinks links))

-- The loop of `wakeup1`; the head of the bucket ends it.
def wakeupLoop (chan : UInt64) : Nat → ListHead n → Table C n → Option (Table C n)
  | 0, _, _ => none
  | fuel + 1, l, s =>
    if l = .hashmp (hashEntry chan) then some s
    else
      match l with
      | .clist p => do
        let lnext ← s.links.next l
        if (s.proc p).chan = chan ∧ (s.proc p).state = .sleeping then
          let s := s.setProc p { s.proc p with state := .runnable, chan := 0 }
          let links ← listDelete s.links l
          let links ← listPushBack links (.prioque (s.proc p).prio) (.plist p)
          wakeupLoop chan fuel lnext (s.setLinks links)
        else wakeupLoop chan fuel lnext s
      -- `container_of` on a node that is in no process
      | _ => none

/-- A bucket holds at most every process, and its head ends the loop. -/
def wakeup1 (chan : UInt64) (s : Table C n) : Option (Table C n) := do
  let front ← s.links.next (.hashmp (hashEntry chan))
  wakeupLoop chan (n + 1) front s

def yield (c : C) (p : Fin n) (s : Table C n) : Option (Table C n) := do
  let s := s.setProc p { s.proc p with state := .runnable }
  let links ← listPushBack s.links (.prioque (s.proc p).prio) (.plist p)
  some (sched c p .yield (s.setLinks links))

def channel (addr : Fin n → UInt64) (p : Option (Fin n)) : UInt64 := p.elim 0 addr

-- The loop of `exit` that hands the children of `p` over to `initproc`.
def reparent (addr : Fin n → UInt64) (p : Fin n) : List (Fin n) → Table C n → Option (Table C n)
  | [], s => some s
  | pc :: rest, s =>
    if (s.proc pc).parent = some p then do
      let s := s.setProc pc { s.proc pc with parent := s.initproc }
      let s ← if (s.proc pc).state = .zombie then wakeup1 (channel addr s.initproc) s else some s
      reparent addr p rest s
    else reparent addr p rest s

/-- `exit` from its `acquire` on; the files and the directory are closed before. -/
def exit (addr : Fin n → UInt64) (c : C) (p : Fin n) (s : Table C n) : Option (Table C n) := do
  let s ← wakeup1 (channel addr (s.proc p).parent) s
  let s ← reparent addr p (List.finRange n) s
  let links ← if (s.proc p).state = .runnable then listDelete s.links (.plist p) else some s.links
  let s := (s.setLinks links).setProc p { s.proc p with state := .zombie }
  -- the context is saved by `sched` and never used again
  some (sched c p (s.proc p).context s)

-- The scan of `wait`: the first zombie among the children, and whether there is a child.
def waitScan (s : Table C n) (par : Fin n) : List (Fin n) → Bool → Option (Fin n) × Bool
  | [], flag => (none, flag)
  | p :: rest, flag =>
    if (s.proc p).parent = some par then
      if (s.proc p).state = .zombie then (some p, true) else waitScan s par rest true
    else waitScan s par rest flag

/-- How a turn of `wait` ends: with the pid of a reaped child, with -1, or asleep. -/
inductive WaitEnd (n : Nat) where
  | reaped (child : Fin n) (pid : Int)
  | childless
  | blocked
  deriving DecidableEq

-- One turn of the loop of `wait`, with `ptablelock` held.
def wait (addr : Fin n → UInt64) (c : C) (par : Fin n) (s : Table C n) :
    Option (Table C n × WaitEnd n) :=
  match waitScan s par (List.finRange n) false with
  | (some p, _) => some (cleanproc s p, .reaped p (s.proc p).pid)
  | (none, false) => some (s, .childless)
  | (none, true) => (sleepOn c par (addr par) .wait s).map fun s => (s, .blocked)

/-- What a process does with the lock it finds held when it is switched to. -/
def resume (addr : Fin n → UInt64) (c : C) (p : Fin n) (s : Table C n) :
    Option (Table C n × Option (WaitEnd n)) :=
  match (s.proc p).context with
  | .forkret | .yield => some (s, none)
  | .sleep => some (s.setProc p { s.proc p with chan := 0 }, none)
  | .wait => (wait addr c p (s.setProc p { s.proc p with chan := 0 })).map fun (s, result) => (s, some result)

def pick (s : Table C n) : List (Fin prioentries) → Option (Option (Fin n))
  | [] => some none
  | i :: rest =>
    if listEmpty s.links (.prioque i) then pick s rest
    else
      match listFront s.links (.prioque i) with
      | some (.plist p) => some (some p)
      | _ => none

-- One turn of `scheduler` on a CPU; the process that runs in it, if any, and how its wait ended.
def scheduler (addr : Fin n → UInt64) (c : C) (s : Table C n) :
    Option (Table C n × Option (Fin n × WaitEnd n)) := do
  match ← pick s (List.finRange prioentries).reverse with
  | none => some (s, none)
  | some p =>
    let s := { s with cpu := Function.update s.cpu c (some p) }
    let s := s.setProc p { s.proc p with state := .running }
    let links ← listDelete s.links (.plist p)
    let (s, result) ← resume addr c p (s.setLinks links)
    some (s, result.map fun result => (p, result))

end

end Xv6.Process
