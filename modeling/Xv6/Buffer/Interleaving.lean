import Xv6.Buffer.Cache
import Xv6.Library.Transition

/-! Interleaved use of the buffer cache, at the granularity of `bcache.lock`.

A hold is one process's use of a buffer, from the `bget` that counted it to the
end of the matching `brelse`. Waiting for the buffer's sleep lock, reading the
block in, and the two critical sections of `brelse` are separate steps, so any
other process may run between them. `pins` counts `bpin` minus `bunpin` calls.
-/

set_option autoImplicit false

namespace Xv6.Buffer

open Library

/-- Where a process is between `bget` and the end of `brelse`. -/
inductive Phase where
  /-- counted by `bget`, before `acquiresleep` returned -/
  | waiting
  /-- in `bread`, holding the sleep lock, before the test of `B_VALID` -/
  | filling
  /-- `bread` has returned -/
  | held
  /-- in `brelse`, after `releasesleep` -/
  | released
  deriving DecidableEq

structure Hold (Pid : Type) where
  pid : Pid
  buf : Fin nbuf
  dev : UInt32
  blockno : UInt32
  phase : Phase
  deriving DecidableEq

structure State (Pid : Type) where
  cache : Bcache Pid
  disk : UInt32 → Block
  holds : List (Hold Pid)
  pins : Fin nbuf → Int

inductive Act (Pid : Type) where
  | bget (pid : Pid) (dev blockno : UInt32)
  | acquiresleep (h : Hold Pid)
  | fill (h : Hold Pid)
  | modify (h : Hold Pid) (data : Block)
  | bwrite (h : Hold Pid)
  | releasesleep (h : Hold Pid)
  | unref (h : Hold Pid)
  | bpin (i : Fin nbuf)
  | bunpin (i : Fin nbuf)

variable {Pid : Type}

/-- The state after `binit`, with some contents on the disk. -/
def start (disk : UInt32 → Block) : State Pid := ⟨Bcache.binit, disk, [], fun _ => 0⟩

-- What `bread` makes of an entry it has locked.
def load (disk : UInt32 → Block) (b : Buf Pid) : Buf Pid :=
  if b.valid then b else { b with valid := true, dirty := false, data := disk b.blockno }

@[simp] theorem load_valid (disk : UInt32 → Block) (b : Buf Pid) : (load disk b).valid = true := by
  unfold load
  split <;> simp_all

@[simp] theorem load_refcnt (disk : UInt32 → Block) (b : Buf Pid) : (load disk b).refcnt = b.refcnt := by
  unfold load
  split <;> rfl

@[simp] theorem load_lock (disk : UInt32 → Block) (b : Buf Pid) : (load disk b).lock = b.lock := by
  unfold load
  split <;> rfl

@[simp] theorem load_dev (disk : UInt32 → Block) (b : Buf Pid) : (load disk b).dev = b.dev := by
  unfold load
  split <;> rfl

@[simp] theorem load_blockno (disk : UInt32 → Block) (b : Buf Pid) : (load disk b).blockno = b.blockno := by
  unfold load
  split <;> rfl

theorem load_dirty {disk : UInt32 → Block} {b : Buf Pid} (clean : b.dirty = false) :
    (load disk b).dirty = false := by
  unfold load
  split <;> simp [clean]

section
variable [DecidableEq Pid]

def Hold.moved (h : Hold Pid) (phase : Phase) (holds : List (Hold Pid)) : List (Hold Pid) :=
  { h with phase } :: holds.erase h

def State.At (s : State Pid) (h : Hold Pid) (phase : Phase) : Prop := h ∈ s.holds ∧ h.phase = phase

instance (s : State Pid) (h : Hold Pid) (phase : Phase) : Decidable (s.At h phase) :=
  inferInstanceAs (Decidable (_ ∧ _))

-- `holdingsleep(&b->lock)` for the process of `h`
def State.Holding (s : State Pid) (h : Hold Pid) : Prop := (s.cache.buf h.buf).lock = some h.pid

instance (s : State Pid) (h : Hold Pid) : Decidable (s.Holding h) := inferInstanceAs (Decidable (_ = _))

/-- `none`: the action is not enabled, or it panics. -/
def step : Act Pid → State Pid → Option (State Pid)
  | .bget pid dev blockno, s =>
    (s.cache.bget dev blockno).map fun (i, cache) =>
      { s with cache, holds := ⟨pid, i, dev, blockno, .waiting⟩ :: s.holds }
  | .acquiresleep h, s =>
    if s.At h .waiting ∧ (s.cache.buf h.buf).lock = none then
      some { s with
        cache := s.cache.modify h.buf fun b => { b with lock := some h.pid }
        holds := h.moved .filling s.holds }
    else none
  | .fill h, s =>
    if s.At h .filling then
      let holds := h.moved .held s.holds
      if (s.cache.buf h.buf).valid then some { s with holds }
      else
        let (cache, disk) := s.cache.sdrw s.disk h.buf
        -- b->flags = B_VALID
        some { s with disk, holds, cache := cache.modify h.buf fun b => { b with valid := true, dirty := false } }
    else none
  | .modify h data, s =>
    if s.At h .held then some { s with cache := s.cache.modify h.buf fun b => { b with data } } else none
  | .bwrite h, s =>
    if s.At h .held ∧ s.Holding h then
      let (cache, disk) := (s.cache.modify h.buf fun b => { b with dirty := true }).sdrw s.disk h.buf
      some { s with cache, disk }
    else none
  | .releasesleep h, s =>
    if s.At h .held ∧ s.Holding h then
      some { s with
        cache := s.cache.modify h.buf fun b => { b with lock := none }
        holds := h.moved .released s.holds }
    else none
  | .unref h, s =>
    if s.At h .released then
      (s.cache.unref h.buf).map fun cache => { s with cache, holds := s.holds.erase h }
    else none
  | .bpin i, s => some { s with
      cache := s.cache.modify i fun b => { b with refcnt := b.refcnt + 1 }
      pins := Function.update s.pins i (s.pins i + 1) }
  | .bunpin i, s => some { s with
      cache := s.cache.modify i fun b => { b with refcnt := b.refcnt - 1 }
      pins := Function.update s.pins i (s.pins i - 1) }

-- `bread`, run by the process of `h` without other processes in between.
def Hold.bread (h : Hold Pid) : List (Act Pid) :=
  [.bget h.pid h.dev h.blockno, .acquiresleep { h with phase := .waiting }, .fill { h with phase := .filling }]

def Hold.brelse (h : Hold Pid) : List (Act Pid) :=
  [.releasesleep { h with phase := .held }, .unref { h with phase := .released }]

/-! ## What an enabled step does -/

variable {s t : State Pid} {h : Hold Pid}

theorem step_bget {pid : Pid} {dev blockno : UInt32} (stepped : step (.bget pid dev blockno) s = some t) :
    ∃ i cache, s.cache.bget dev blockno = some (i, cache) ∧
      t = { s with cache, holds := ⟨pid, i, dev, blockno, .waiting⟩ :: s.holds } := by
  obtain ⟨⟨i, cache⟩, found, rfl⟩ := Option.map_eq_some_iff.mp stepped
  exact ⟨i, cache, found, rfl⟩

theorem step_acquiresleep (stepped : step (.acquiresleep h) s = some t) :
    s.At h .waiting ∧ (s.cache.buf h.buf).lock = none ∧
      t = { s with
        cache := s.cache.modify h.buf fun b => { b with lock := some h.pid }
        holds := h.moved .filling s.holds } := by
  simp only [step, Option.ite_none_right_eq_some, Option.some.injEq] at stepped
  exact ⟨stepped.1.1, stepped.1.2, stepped.2.symm⟩

theorem step_fill (clean : (s.cache.buf h.buf).dirty = false) (stepped : step (.fill h) s = some t) :
    s.At h .filling ∧
      t = { s with cache := s.cache.modify h.buf (load s.disk), holds := h.moved .held s.holds } := by
  simp only [step, Option.ite_none_right_eq_some] at stepped
  obtain ⟨guard, done⟩ := stepped
  refine ⟨guard, ?_⟩
  by_cases valid : (s.cache.buf h.buf).valid = true
  · have same : load s.disk (s.cache.buf h.buf) = s.cache.buf h.buf := if_pos valid
    rw [if_pos valid, Option.some.injEq] at done
    rw [Bcache.modify_eq_self same]
    exact done.symm
  · have read : load s.disk (s.cache.buf h.buf) =
        { s.cache.buf h.buf with valid := true, dirty := false, data := s.disk (s.cache.buf h.buf).blockno } :=
      if_neg valid
    rw [if_neg valid, Bcache.sdrw_of_clean clean, Option.some.injEq] at done
    rw [← done]
    simp [Bcache.modify, read]

theorem step_modify {data : Block} (stepped : step (.modify h data) s = some t) :
    s.At h .held ∧ t = { s with cache := s.cache.modify h.buf fun b => { b with data } } := by
  simp only [step, Option.ite_none_right_eq_some, Option.some.injEq] at stepped
  exact ⟨stepped.1, stepped.2.symm⟩

theorem step_bwrite (stepped : step (.bwrite h) s = some t) :
    s.At h .held ∧ s.Holding h ∧
      t = { s with
        cache := s.cache.modify h.buf fun b => { b with valid := true, dirty := false }
        disk := Function.update s.disk (s.cache.buf h.buf).blockno (s.cache.buf h.buf).data } := by
  simp only [step, Option.ite_none_right_eq_some] at stepped
  obtain ⟨⟨guard, holding⟩, done⟩ := stepped
  rw [Bcache.sdrw_of_dirty (by simp), Option.some.injEq] at done
  refine ⟨guard, holding, ?_⟩
  rw [← done]
  simp [Bcache.modify_modify]

theorem step_releasesleep (stepped : step (.releasesleep h) s = some t) :
    s.At h .held ∧ s.Holding h ∧
      t = { s with
        cache := s.cache.modify h.buf fun b => { b with lock := none }
        holds := h.moved .released s.holds } := by
  simp only [step, Option.ite_none_right_eq_some, Option.some.injEq] at stepped
  exact ⟨stepped.1.1, stepped.1.2, stepped.2.symm⟩

theorem step_unref (stepped : step (.unref h) s = some t) :
    s.At h .released ∧ ∃ cache, s.cache.unref h.buf = some cache ∧
      t = { s with cache, holds := s.holds.erase h } := by
  simp only [step, Option.ite_none_right_eq_some, Option.map_eq_some_iff] at stepped
  obtain ⟨guard, cache, dropped, rfl⟩ := stepped
  exact ⟨guard, cache, dropped, rfl⟩

end

end Xv6.Buffer
