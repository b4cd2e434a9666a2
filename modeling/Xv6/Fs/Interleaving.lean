import Xv6.Fs.Contents
import Xv6.Fs.Machine
import Xv6.Library.Transition

/-! Interleaved use of the inode cache, at the granularity of `icache.lock` and of the sleep
locks of the inodes.

Waiting for the sleep lock and reading the inode in are separate steps of `ilock`, and so
are the two critical sections of an `iput` that frees the inode. `refs` counts the calls of
`iget` and `idup` that returned an entry, less those of `iput`; `unsaved` marks the entries
whose fields have changed since the last `iupdate`. Blocks are seen through the buffer
cache, for each device.
-/

set_option autoImplicit false

namespace Xv6.Icache

open Library Fs

/-- What the process that holds the sleep lock of an entry is doing. -/
inductive Phase where
  | unlocked
  /-- in `ilock`, before the test of `valid` -/
  | filling
  /-- `ilock` has returned -/
  | held
  /-- in `iput`, after `release(&icache.lock)` -/
  | freeing
  deriving DecidableEq

structure State where
  icache : Icache
  store : UInt32 → Store
  phase : Fin ninode → Phase
  /-- the processes in `iput` that have freed the inode and not yet dropped their reference -/
  leaving : Fin ninode → Nat
  refs : Fin ninode → Nat
  unsaved : Fin ninode → Bool

inductive Act where
  | iget (dev inum : UInt32)
  | idup (i : Fin ninode)
  | acquiresleep (i : Fin ninode)
  | fill (i : Fin ninode)
  | modify (i : Fin ninode) (d : Dinode)
  | iupdate (i : Fin ninode) (log : Log)
  | iunlock (i : Fin ninode)
  | iput (i : Fin ninode)
  | free (i : Fin ninode) (log : Log)
  | unref (i : Fin ninode)

/-- After `iinit`, with some contents on the disks. -/
def start (disk : UInt32 → UInt32 → Block) : State where
  icache := init
  store dev := Store.boot (disk dev)
  phase _ := .unlocked
  leaving _ := 0
  refs _ := 0
  unsaved _ := false

-- `ilock` once it has the sleep lock.
def fill {H : Type} (sb : Superblock) (ip : MemInode) : Program (Bio H) MemInode :=
  if ip.valid then return ip
  else do
    let bf ← Bio.bread ip.dev (iblock ip.inum sb)
    let d := (← Bio.data bf).dinode (inodeIndex ip.inum)
    Bio.brelse bf
    return { ip.load d with valid := true }

-- The branch of `iput` for an inode without links, while it has the sleep lock.
def discard {H : Type} (sb : Superblock) (log : Log) (ip : MemInode) : Program (Bio H) MemInode := do
  let (ip, log) ← itrunc sb log ip
  let ip := { ip with type := 0 }
  let _ ← Fs.iupdate sb log ip
  return { ip with valid := false }

namespace State
variable (s : State) (i : Fin ninode)

def onDisk (sb : Superblock) : Dinode := diskInode sb (s.store (s.icache i).dev).view (s.icache i).inum

def setEntry (ip : MemInode) : State := { s with icache := Function.update s.icache i ip }

def setPhase (phase : Phase) : State := { s with phase := Function.update s.phase i phase }

def setRefs (refs : Nat) : State := { s with refs := Function.update s.refs i refs }

def setUnsaved (unsaved : Bool) : State := { s with unsaved := Function.update s.unsaved i unsaved }

def setStore (dev : UInt32) (store : Store) : State := { s with store := Function.update s.store dev store }

end State

/-- `none`: the action is not enabled, or it panics. -/
def step (sb : Superblock) : Act → State → Option State
  | .iget dev inum, s =>
    (s.icache.iget dev inum).map fun out => { s with icache := out.2 }.setRefs out.1 (s.refs out.1 + 1)
  | .idup i, s => some ({ s with icache := s.icache.idup i }.setRefs i (s.refs i + 1))
  | .acquiresleep i, s =>
    if (s.icache i).locked then none
    else some ((s.setEntry i { s.icache i with locked := true }).setPhase i .filling)
  | .fill i, s =>
    if s.phase i = .filling then
      ((fill sb (s.icache i)).run Store.handle (s.store (s.icache i).dev)).map fun out =>
        ((s.setStore (s.icache i).dev out.2).setEntry i out.1).setPhase i .held
    else none
  | .modify i d, s =>
    if s.phase i = .held then some ((s.setEntry i ((s.icache i).load d)).setUnsaved i true) else none
  | .iupdate i log, s =>
    if s.phase i = .held then
      ((Fs.iupdate sb log (s.icache i)).run Store.handle (s.store (s.icache i).dev)).map fun out =>
        (s.setStore (s.icache i).dev out.2).setUnsaved i false
    else none
  | .iunlock i, s =>
    if s.phase i = .held then some ({ s with icache := s.icache.iunlock i }.setPhase i .unlocked) else none
  | .iput i, s =>
    if (s.icache i).ref = 1 ∧ (s.icache i).valid ∧ (s.icache i).nlink = 0 then
      if (s.icache i).locked then none
      else some ((s.setEntry i { s.icache i with locked := true }).setPhase i .freeing)
    else some ((s.setEntry i { s.icache i with ref := (s.icache i).ref - 1 }).setRefs i (s.refs i - 1))
  | .free i log, s =>
    if s.phase i = .freeing then
      ((discard sb log (s.icache i)).run Store.handle (s.store (s.icache i).dev)).map fun out =>
        { (((s.setStore (s.icache i).dev out.2).setEntry i { out.1 with locked := false }).setPhase i .unlocked) with
          leaving := Function.update s.leaving i (s.leaving i + 1) }
    else none
  | .unref i, s =>
    if 0 < s.leaving i then
      some { ((s.setEntry i { s.icache i with ref := (s.icache i).ref - 1 }).setRefs i (s.refs i - 1)) with
        leaving := Function.update s.leaving i (s.leaving i - 1) }
    else none

/-- A process uses an entry between an `iget` or `idup` and the matching `iput`, which it does not call
while it has the entry locked, and the inodes that are put have links. -/
def Proper : Act → State → Prop
  | .idup i, s | .acquiresleep i, s => 0 < s.refs i
  | .iput i, s => 0 < s.refs i ∧ (s.phase i ≠ .unlocked → 1 < s.refs i) ∧
    ((s.icache i).valid = true → (s.icache i).nlink ≠ 0)
  | _, _ => True

/-- Whoever has changed an entry calls `iupdate` before `iunlock`. -/
def Saves : Act → State → Prop
  | .iunlock i, s => s.unsaved i = false
  | _, _ => True

/-- No counter of references, which is an `int`, gets to 2^31. -/
def Countable : Act → State → Prop
  | .iget dev inum, s =>
    match s.icache.find dev inum with
    | some i => (s.icache i).ref + 1 < 2 ^ 31
    | none => True
  | .idup i, s => (s.icache i).ref + 1 < 2 ^ 31
  | _, _ => True

/-- No inode is changed on the disk while an entry that is out of use still has a valid copy of it. -/
def LeavesNoCopy : Act → State → Prop
  | .iupdate i _, s => ∀ j, (s.icache j).ref = 0 → (s.icache j).valid = true → (s.icache j).dev = (s.icache i).dev →
      (s.icache j).inum = (s.icache i).inum → (s.icache j).dinode = (s.icache i).dinode
  | _, _ => True

instance : (a : Act) → (s : State) → Decidable (Proper a s)
  | .idup _, _ | .acquiresleep _, _ => inferInstanceAs (Decidable (_ < _))
  | .iput _, _ => inferInstanceAs (Decidable (_ ∧ _ ∧ _))
  | .iget .., _ | .fill _, _ | .modify .., _ | .iupdate .., _ | .iunlock _, _ | .free .., _ | .unref _, _ =>
      .isTrue trivial

instance : (a : Act) → (s : State) → Decidable (Saves a s)
  | .iunlock _, _ => inferInstanceAs (Decidable (_ = _))
  | .iget .., _ | .idup _, _ | .acquiresleep _, _ | .fill _, _ | .modify .., _ | .iupdate .., _ | .iput _,
      _ | .free .., _
  | .unref _, _ => .isTrue trivial

instance : (a : Act) → (s : State) → Decidable (Countable a s)
  | .iget dev inum, s =>
    match found : s.icache.find dev inum with
    | some i => decidable_of_iff ((s.icache i).ref + 1 < 2 ^ 31) (by simp [Countable, found])
    | none => .isTrue (by simp [Countable, found])
  | .idup _, _ => inferInstanceAs (Decidable (_ < _))
  | .acquiresleep _, _ | .fill _, _ | .modify .., _ | .iupdate .., _ | .iunlock _, _ | .iput _, _ | .free .., _
  | .unref _, _ => .isTrue trivial

instance : (a : Act) → (s : State) → Decidable (LeavesNoCopy a s)
  | .iupdate _ _, _ => inferInstanceAs (Decidable (∀ _, _ → _ → _ → _ → _ = _))
  | .iget .., _ | .idup _, _ | .acquiresleep _, _ | .fill _, _ | .modify .., _ | .iunlock _, _ | .iput _, _
  | .free .., _ | .unref _, _ => .isTrue trivial

/-! ## What an enabled step does -/

section
variable {sb : Superblock} {s t : State} {i : Fin ninode} {log : Log}

theorem step_iget {dev inum : UInt32} (stepped : step sb (.iget dev inum) s = some t) :
    ∃ i c, s.icache.iget dev inum = some (i, c) ∧ t = { s with icache := c }.setRefs i (s.refs i + 1) := by
  obtain ⟨⟨i, c⟩, got, rfl⟩ := Option.map_eq_some_iff.mp stepped
  exact ⟨i, c, got, rfl⟩

theorem step_acquiresleep (stepped : step sb (.acquiresleep i) s = some t) : (s.icache i).locked = false ∧
    t = (s.setEntry i { s.icache i with locked := true }).setPhase i .filling := by
  simp only [step, Option.ite_none_left_eq_some, Option.some.injEq] at stepped
  exact ⟨by simpa using stepped.1, stepped.2.symm⟩

theorem fill_run (ip : MemInode) (u : Store) : (fill sb ip).run Store.handle u =
    some (if ip.valid then ip else { ip.load (diskInode sb u.view ip.inum) with valid := true }, u) := by
  unfold fill
  split
  · rfl
  · rfl

theorem step_fill (stepped : step sb (.fill i) s = some t) : s.phase i = .filling ∧
    t = (s.setEntry i (if (s.icache i).valid then s.icache i
      else { (s.icache i).load (s.onDisk i sb) with valid := true })).setPhase i .held := by
  simp only [step, Option.ite_none_right_eq_some, fill_run, Option.map_some, Option.some.injEq] at stepped
  refine ⟨stepped.1, stepped.2.symm.trans ?_⟩
  have same : s.setStore (s.icache i).dev (s.store (s.icache i).dev) = s := by
    rw [State.setStore, Function.update_eq_self]
  rw [same]
  rfl

theorem step_modify {d : Dinode} (stepped : step sb (.modify i d) s = some t) : s.phase i = .held ∧
    t = (s.setEntry i ((s.icache i).load d)).setUnsaved i true := by
  simp only [step, Option.ite_none_right_eq_some, Option.some.injEq] at stepped
  exact ⟨stepped.1, stepped.2.symm⟩

theorem logWrite_store {b : UInt32} {u v : Store} {log' : Log}
    (ran : (log.logWrite b).run Store.handle u = some (log', v)) : v = u := by
  simp only [Log.logWrite, Program.run_bind, Store.run_blockno, Option.bind_some] at ran
  cases recorded : log.lh.record b with
  | none =>
    rw [recorded] at ran
    cases ran
  | some lh =>
    rw [recorded] at ran
    cases ran
    rfl

theorem iupdate_view {ip : MemInode} {u v : Store} {log' : Log}
    (ran : (Fs.iupdate sb log ip).run Store.handle u = some (log', v)) :
    v.view = putInode sb u.view ip.inum ip.dinode := by
  simp only [Fs.iupdate, Program.run_bind, Store.run_bread, Option.bind_some, Store.run_data,
    Store.run_setData] at ran
  obtain ⟨⟨log₁, w⟩, logged, rest⟩ := Option.bind_eq_some_iff.mp ran
  cases rest
  rw [logWrite_store logged]
  rfl

theorem step_iupdate (stepped : step sb (.iupdate i log) s = some t) : s.phase i = .held ∧
    ∃ u, u.view = putInode sb (s.store (s.icache i).dev).view (s.icache i).inum (s.icache i).dinode ∧
      t = (s.setStore (s.icache i).dev u).setUnsaved i false := by
  simp only [step, Option.ite_none_right_eq_some, Option.map_eq_some_iff] at stepped
  obtain ⟨guard, ⟨log', u⟩, ran, rfl⟩ := stepped
  exact ⟨guard, u, iupdate_view ran, rfl⟩

theorem step_iunlock (stepped : step sb (.iunlock i) s = some t) : s.phase i = .held ∧
    t = { s with icache := s.icache.iunlock i }.setPhase i .unlocked := by
  simp only [step, Option.ite_none_right_eq_some, Option.some.injEq] at stepped
  exact ⟨stepped.1, stepped.2.symm⟩

theorem step_iput (proper : Proper (.iput i) s) (stepped : step sb (.iput i) s = some t) :
    t = (s.setEntry i { s.icache i with ref := (s.icache i).ref - 1 }).setRefs i (s.refs i - 1) := by
  have linked : ¬ ((s.icache i).ref = 1 ∧ (s.icache i).valid ∧ (s.icache i).nlink = 0) :=
    fun freed => proper.2.2 freed.2.1 freed.2.2
  rw [step, if_neg linked] at stepped
  exact (Option.some.inj stepped).symm

theorem step_free (stepped : step sb (.free i log) s = some t) : s.phase i = .freeing := by
  rw [step, Option.ite_none_right_eq_some] at stepped
  exact stepped.1

theorem step_unref (stepped : step sb (.unref i) s = some t) : 0 < s.leaving i := by
  rw [step, Option.ite_none_right_eq_some] at stepped
  exact stepped.1

end

end Xv6.Icache
