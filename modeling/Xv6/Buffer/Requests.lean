import Xv6.Buffer.Interface
import Xv6.Buffer.Invariant

/-! Programs on the buffer cache itself.

A request of a program is answered by the critical sections of the cache, run by
one process without other processes in between. What `bread` returns is the index
of the buffer.
-/

set_option autoImplicit false

namespace Xv6.Buffer

open Library

section
variable {Pid : Type} [DecidableEq Pid]

-- The hold by which a process that got a buffer from `bread` uses it.
def holdOf (p : Pid) (i : Fin nbuf) (s : State Pid) : Option (Hold Pid) :=
  s.holds.find? fun h => h.pid = p && h.buf = i && h.phase = .held

def exec (p : Pid) : (r : (Bio (Fin nbuf)).Request) → State Pid → Option ((Bio (Fin nbuf)).Reply r × State Pid)
  | .bread dev blockno, s =>
    (s.cache.bget dev blockno).bind fun (i, _) =>
      (run step (Hold.bread ⟨p, i, dev, blockno, .held⟩) s).map fun t => (i, t)
  | .blockno i, s => some ((s.cache.buf i).blockno, s)
  | .data i, s => some ((s.cache.buf i).data, s)
  | .setData i data, s => (holdOf p i s).bind fun h => (step (.modify h data) s).map fun t => ((), t)
  | .bwrite i, s => (holdOf p i s).bind fun h => (step (.bwrite h) s).map fun t => ((), t)
  | .brelse i, s => (holdOf p i s).bind fun h => (run step h.brelse s).map fun t => ((), t)
  | .bpin i, s => (step (.bpin i) s).map fun t => ((), t)
  | .bunpin i, s => (step (.bunpin i) s).map fun t => ((), t)
  | .fault, _ => none

variable {p : Pid} {s t : State Pid} {i : Fin nbuf}

theorem exec_realised (r : (Bio (Fin nbuf)).Request) (s : State Pid) (reply : (Bio (Fin nbuf)).Reply r)
    (t : State Pid) (answered : exec p r s = some (reply, t)) : ∃ acts, run step acts s = some t := by
  cases r with
  | bread dev blockno =>
    obtain ⟨⟨i, c⟩, _, rest⟩ := Option.bind_eq_some_iff.mp answered
    obtain ⟨u, ran, same⟩ := Option.map_eq_some_iff.mp rest
    cases same
    exact ⟨_, ran⟩
  | blockno i | data i =>
    cases Option.some.inj answered
    exact ⟨[], rfl⟩
  | setData i data | bwrite i =>
    obtain ⟨h, _, rest⟩ := Option.bind_eq_some_iff.mp answered
    obtain ⟨u, stepped, same⟩ := Option.map_eq_some_iff.mp rest
    cases same
    exact ⟨[_], (run_singleton ..).trans stepped⟩
  | brelse i =>
    obtain ⟨h, _, rest⟩ := Option.bind_eq_some_iff.mp answered
    obtain ⟨u, ran, same⟩ := Option.map_eq_some_iff.mp rest
    cases same
    exact ⟨_, ran⟩
  | bpin i =>
    cases Option.some.inj answered
    exact ⟨[.bpin i], rfl⟩
  | bunpin i =>
    cases Option.some.inj answered
    exact ⟨[.bunpin i], rfl⟩
  | fault => cases answered

theorem inv_exec (r : (Bio (Fin nbuf)).Request) (s : State Pid) (reply : (Bio (Fin nbuf)).Reply r) (t : State Pid)
    (inv : Inv s) (answered : exec p r s = some (reply, t)) : Inv t := by
  obtain ⟨acts, ran⟩ := exec_realised r s reply t answered
  exact inv_run inv ran

-- What `bread` of a block has done when it returns buffer `i`.
structure Bread (p : Pid) (dev blockno : UInt32) (s : State Pid) (i : Fin nbuf) (t : State Pid) : Prop where
  inv : Inv t
  holds : t.holds = ⟨p, i, dev, blockno, .held⟩ :: s.holds
  pins : t.pins = s.pins
  disk : t.disk = s.disk
  sameDev : (t.cache.buf i).dev = dev
  sameBlock : (t.cache.buf i).blockno = blockno
  valid : (t.cache.buf i).valid = true
  lock : (t.cache.buf i).lock = some p
  others : ∀ j, j ≠ i → t.cache.buf j = s.cache.buf j
  unlocked : (s.cache.buf i).lock = none
  origin : (s.cache.buf i).dev = dev ∧ (s.cache.buf i).blockno = blockno ∨ (s.cache.buf i).refcnt = 0
  data : (s.cache.buf i).dev = dev ∧ (s.cache.buf i).blockno = blockno ∧ (s.cache.buf i).valid = true ∧
      (t.cache.buf i).data = (s.cache.buf i).data ∨
    (t.cache.buf i).data = s.disk blockno ∧ (dev ≠ 0 → ∀ j, (s.cache.buf j).valid = true →
      ¬ ((s.cache.buf j).dev = dev ∧ (s.cache.buf j).blockno = blockno))

theorem moved_cons (h : Hold Pid) (phase : Phase) (rest : List (Hold Pid)) :
    h.moved phase (h :: rest) = { h with phase } :: rest := by
  simp [Hold.moved]

theorem run_bread {dev blockno : UInt32} (inv : Inv s)
    (ran : (Bio.bread dev blockno).run (exec p) s = some (i, t)) : Bread p dev blockno s i t := by
  have answered : exec p (.bread dev blockno) s = some (i, t) := (Program.run_request ..).symm.trans ran
  obtain ⟨⟨j, c⟩, found, rest⟩ := Option.bind_eq_some_iff.mp answered
  obtain ⟨_, ran, same⟩ := Option.map_eq_some_iff.mp rest
  cases same
  have final : Inv t := inv_run inv ran
  obtain ⟨u, got, ran⟩ := run_cons_eq_some.mp ran
  obtain ⟨v, locked, ran⟩ := run_cons_eq_some.mp ran
  rw [run_singleton] at ran
  obtain ⟨k, cache, again, rfl⟩ := step_bget got
  obtain ⟨rfl, rfl⟩ := Prod.mk.inj (Option.some.inj (found.symm.trans again))
  obtain ⟨_, free, rfl⟩ := step_acquiresleep locked
  have clean : (c.buf i).dirty = false := ((inv_bget inv got).entry i).clean
  obtain ⟨_, rfl⟩ := step_fill (by simpa using clean) ran
  simp only [moved_cons] at final ⊢
  obtain ⟨xs, ordered⟩ := inv.ordered
  rcases ordered.bget_cases found with ⟨sameDev, sameBlock, rfl⟩ | ⟨absent, idle, rfl⟩
  · refine ⟨final, rfl, rfl, rfl, ?_, ?_, ?_, ?_, ?_, ?_, .inl ⟨sameDev, sameBlock⟩, ?_⟩
    · simpa [Bcache.addref] using sameDev
    · simpa [Bcache.addref] using sameBlock
    · simp
    · simp
    · intro j other
      simp [Bcache.modify_buf, other]
    · simpa [Bcache.addref] using free
    · -- a cached entry may still lack its contents
      by_cases valid : (s.cache.buf i).valid = true
      · exact .inl ⟨sameDev, sameBlock, valid, by simp [load, Bcache.addref, valid]⟩
      · refine .inr ⟨by simp [load, Bcache.addref, valid, sameBlock], fun real j validJ cached => ?_⟩
        have only := inv.unique i j (sameDev ▸ real) (sameDev.trans cached.1.symm) (sameBlock.trans cached.2.symm)
        exact valid (only ▸ validJ)
  · refine ⟨final, rfl, rfl, rfl, ?_, ?_, ?_, ?_, ?_, ?_, .inr idle, ?_⟩
    · simp [Bcache.recycle]
    · simp [Bcache.recycle]
    · simp
    · simp
    · intro j other
      simp [Bcache.modify_buf, other]
    · simpa [Bcache.recycle] using free
    · exact .inr ⟨by simp [load, Bcache.recycle], fun _ j _ => absent j⟩

/-- `bread` returns when nobody holds a buffer and one of them can be recycled. -/
theorem run_bread_returns (dev blockno : UInt32) (inv : Inv s) (unheld : s.holds = [])
    (spare : (s.cache.buf i).refcnt = 0) : ∃ j t, (Bio.bread dev blockno).run (exec p) s = some (j, t) := by
  obtain ⟨xs, ordered⟩ := inv.ordered
  -- either the block is cached, or the walk backwards meets the spare entry at the latest
  obtain ⟨j, cache, found⟩ : ∃ j cache, s.cache.bget dev blockno = some (j, cache) := by
    rw [ordered.bget_eq]
    cases xs.find? (s.cache.caches dev blockno) with
    | some j => exact ⟨j, _, rfl⟩
    | none =>
      have recyclable : (xs.reverse.find? s.cache.unreferenced).isSome = true := by
        rw [List.find?_isSome]
        exact ⟨i, by simpa using ordered.full i, by simpa [Bcache.unreferenced] using spare⟩
      obtain ⟨j, chosen⟩ := Option.isSome_iff_exists.mp recyclable
      exact ⟨j, _, by rw [chosen]⟩
  have got : step (.bget p dev blockno) s =
      some { s with cache, holds := ⟨p, j, dev, blockno, .waiting⟩ :: s.holds } := by
    simp only [step, found, Option.map_some]
  -- the new hold is the only one, and it does not own the lock yet
  have unlocked : (cache.buf j).lock = none := by
    have owned := ((inv_bget inv got).entry j).owned
    by_contra locked
    rw [if_neg locked] at owned
    simp [owners, unheld, Hold.Owns] at owned
  refine ⟨j, ?_⟩
  have reads : (run step (Hold.bread ⟨p, j, dev, blockno, .held⟩) s).isSome = true := by
    simp only [Hold.bread, run_cons, got, Option.bind_some]
    simp [step, State.At, unlocked, moved_cons]
    split <;> simp
  obtain ⟨t, ran⟩ := Option.isSome_iff_exists.mp reads
  refine ⟨t, (Program.run_request ..).trans ?_⟩
  simp only [exec, found, Option.bind_some, ran, Option.map_some]
  rfl

/-! ## Using the newest buffer -/

section
variable {dev blockno : UInt32} {rest : List (Hold Pid)}

theorem holdOf_head (newest : s.holds = ⟨p, i, dev, blockno, .held⟩ :: rest) :
    holdOf p i s = some ⟨p, i, dev, blockno, .held⟩ := by
  simp [holdOf, newest]

theorem run_setData (newest : s.holds = ⟨p, i, dev, blockno, .held⟩ :: rest) (data : Block) :
    (Bio.setData i data).run (exec p) s =
      some ((), { s with cache := s.cache.modify i fun b => { b with data } }) := by
  have here : s.At ⟨p, i, dev, blockno, .held⟩ .held := ⟨by simp [newest], rfl⟩
  refine (Program.run_request ..).trans ?_
  simp only [exec, holdOf_head newest, Option.bind_some, step, here, if_true]
  rfl

theorem run_bwrite (inv : Inv s) (newest : s.holds = ⟨p, i, dev, blockno, .held⟩ :: rest) :
    (Bio.bwrite i).run (exec p) s = some ((), { s with
      cache := s.cache.modify i fun b => { b with valid := true, dirty := false }
      disk := Function.update s.disk (s.cache.buf i).blockno (s.cache.buf i).data }) := by
  have here : s.At ⟨p, i, dev, blockno, .held⟩ .held := ⟨by simp [newest], rfl⟩
  have holding : s.Holding ⟨p, i, dev, blockno, .held⟩ := (inv.entry i).owner _ here.1 rfl (.inr rfl)
  have stepped : (step (.bwrite ⟨p, i, dev, blockno, .held⟩) s).isSome = true := by simp [step, here, holding]
  obtain ⟨t, stepped⟩ := Option.isSome_iff_exists.mp stepped
  refine (Program.run_request ..).trans ?_
  simp only [exec, holdOf_head newest, Option.bind_some, stepped, Option.map_some]
  obtain ⟨_, _, rfl⟩ := step_bwrite stepped
  rfl

theorem run_brelse (inv : Inv s) (newest : s.holds = ⟨p, i, dev, blockno, .held⟩ :: rest) :
    ∃ cache, (Bio.brelse i).run (exec p) s = some ((), { s with cache, holds := rest }) ∧
      cache.buf = (s.cache.modify i fun b => { b with lock := none, refcnt := b.refcnt - 1 }).buf := by
  have here : s.At ⟨p, i, dev, blockno, .held⟩ .held := ⟨by simp [newest], rfl⟩
  have holding : s.Holding ⟨p, i, dev, blockno, .held⟩ := (inv.entry i).owner _ here.1 rfl (.inr rfl)
  obtain ⟨xs, ordered⟩ := inv.ordered
  have unlocked : (s.cache.modify i fun b => { b with lock := none }).Ordered xs := ordered.of_links rfl
  obtain ⟨cache, ys, dropped, _, bufs, _⟩ := unlocked.unref i
  refine ⟨cache, ?_, by rw [bufs, Bcache.modify_modify]⟩
  have released : run step (Hold.brelse ⟨p, i, dev, blockno, .held⟩) s = some { s with cache, holds := rest } := by
    simp only [Hold.brelse, run_cons, step, here, holding, and_self, if_true, newest, moved_cons]
    simp [step, State.At, dropped]
  refine (Program.run_request ..).trans ?_
  simp only [exec, holdOf_head newest, Option.bind_some, released, Option.map_some]
  rfl

end

theorem run_bunpin (i : Fin nbuf) (s : State Pid) :
    (Bio.bunpin i).run (exec p) s = some ((), { s with
      cache := s.cache.modify i fun b => { b with refcnt := b.refcnt - 1 }
      pins := Function.update s.pins i (s.pins i - 1) }) := rfl

theorem run_data (i : Fin nbuf) (s : State Pid) : (Bio.data i).run (exec p) s = some ((s.cache.buf i).data, s) := rfl

/-! ## What a program leaves in use -/

structure Uses (holds : List (Hold Pid)) (pins : Fin nbuf → Int) (s : State Pid) : Prop where
  inv : Inv s
  holds : s.holds = holds
  pins : s.pins = pins

namespace Uses

variable {dev blockno : UInt32} {holds : List (Hold Pid)} {pins : Fin nbuf → Int}

theorem bread (uses : Uses holds pins s) (ran : (Bio.bread dev blockno).run (exec p) s = some (i, t)) :
    Uses (⟨p, i, dev, blockno, .held⟩ :: holds) pins t :=
  have got := run_bread uses.inv ran
  ⟨got.inv, uses.holds ▸ got.holds, uses.pins ▸ got.pins⟩

theorem setData {data : Block} (uses : Uses (⟨p, i, dev, blockno, .held⟩ :: holds) pins s)
    (ran : (Bio.setData i data).run (exec p) s = some ((), t)) :
    Uses (⟨p, i, dev, blockno, .held⟩ :: holds) pins t := by
  have inv := Program.run_invariant inv_exec uses.inv ran
  rw [run_setData uses.holds] at ran
  cases ran
  exact ⟨inv, uses.holds, uses.pins⟩

theorem bwrite (uses : Uses (⟨p, i, dev, blockno, .held⟩ :: holds) pins s)
    (ran : (Bio.bwrite i).run (exec p) s = some ((), t)) : Uses (⟨p, i, dev, blockno, .held⟩ :: holds) pins t := by
  have inv := Program.run_invariant inv_exec uses.inv ran
  rw [run_bwrite uses.inv uses.holds] at ran
  cases ran
  exact ⟨inv, uses.holds, uses.pins⟩

theorem brelse (uses : Uses (⟨p, i, dev, blockno, .held⟩ :: holds) pins s)
    (ran : (Bio.brelse i).run (exec p) s = some ((), t)) : Uses holds pins t := by
  have inv := Program.run_invariant inv_exec uses.inv ran
  obtain ⟨cache, released, _⟩ := run_brelse uses.inv uses.holds
  rw [released] at ran
  cases ran
  exact ⟨inv, rfl, uses.pins⟩

theorem bunpin (uses : Uses holds pins s) (ran : (Bio.bunpin i).run (exec p) s = some ((), t)) :
    Uses holds (Function.update pins i (pins i - 1)) t := by
  have inv := Program.run_invariant inv_exec uses.inv ran
  rw [run_bunpin] at ran
  cases ran
  exact ⟨inv, uses.holds, uses.pins ▸ rfl⟩

end Uses

end

end Xv6.Buffer
