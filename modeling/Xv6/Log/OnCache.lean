import Xv6.Buffer.Requests
import Xv6.Library.Counting
import Xv6.Log.Operations

/-! The functions of the log on the buffer cache.

Each of them gives back every buffer it got. They differ in the pins they drop:
`install_trans` drops one for each entry, the others none.
-/

set_option autoImplicit false

namespace Xv6.Log

open Library Buffer

variable {Pid : Type} [DecidableEq Pid] {p : Pid} {log : Log} {s t : State Pid}

/-- Between `s` and `t` no buffer changed hands, and only block `b` of the disk changed. -/
structure Balanced (b : UInt32) (s t : State Pid) : Prop where
  inv : Inv t
  holds : t.holds = s.holds
  pins : t.pins = s.pins
  disk : ∀ c, c ≠ b → t.disk c = s.disk c

theorem exec_fault (s : State Pid) : exec p .fault s = none := rfl

theorem write_balanced {i : Fin nbuf} {dev blockno : UInt32} {data : Block} {u : State Pid}
    (got : Bread p dev blockno s i u)
    (ran : (do Bio.setData i data; Bio.bwrite i; Bio.brelse i).run (exec p) u = some ((), t)) :
    Balanced blockno s t := by
  let changed : State Pid := { u with cache := u.cache.modify i fun b => { b with data } }
  have inv₁ : Inv changed := Program.run_invariant inv_exec got.inv (run_setData got.holds data)
  have wrote := run_bwrite inv₁ got.holds
  have inv₂ := Program.run_invariant inv_exec inv₁ wrote
  obtain ⟨cache, released, _⟩ := run_brelse inv₂ got.holds
  have inv₃ := Program.run_invariant inv_exec inv₂ released
  simp only [Program.run_bind, run_setData got.holds, Option.bind_some] at ran
  rw [wrote] at ran
  simp only [Option.bind_some] at ran
  rw [released] at ran
  cases ran
  refine ⟨inv₃, rfl, got.pins, fun c other => ?_⟩
  have here : (changed.cache.buf i).blockno = blockno := by simpa [changed] using got.sameBlock
  simp only [here, Function.update_of_ne other]
  exact congrFun got.disk c

theorem writeHead_balanced (inv : Inv s) (ran : log.writeHead.run (exec p) s = some ((), t)) :
    Balanced log.start s t := by
  obtain ⟨i, u, read, afterRead⟩ := Program.run_bind_eq_some.mp ran
  obtain ⟨hb, v, loaded, afterData⟩ := Program.run_bind_eq_some.mp afterRead
  obtain ⟨-, rfl⟩ := Prod.mk.inj (Option.some.inj ((run_data i u).symm.trans loaded))
  obtain ⟨d, w, stored, afterStore⟩ := Program.run_bind_eq_some.mp afterData
  obtain ⟨-, rfl⟩ := (run_inBounds exec_fault).mp stored
  exact write_balanced (run_bread inv read) afterStore

/-- One turn of `install_trans` gives back its buffers and drops a pin of one of them. -/
theorem installEntry_unpins {holds : List (Hold Pid)} {pins : Fin nbuf → Int} {k : Nat} (uses : Uses holds pins s)
    (ran : (log.installEntry k).run (exec p) s = some ((), t)) :
    ∃ y, Uses holds (Function.update pins y (pins y - 1)) t := by
  obtain ⟨x, s₁, readX, ran₁⟩ := Program.run_bind_eq_some.mp ran
  obtain ⟨b, s₂, named, ran₂⟩ := Program.run_bind_eq_some.mp ran₁
  obtain ⟨-, rfl⟩ := (run_inBounds exec_fault).mp named
  obtain ⟨y, s₃, readY, ran₃⟩ := Program.run_bind_eq_some.mp ran₂
  obtain ⟨d, s₄, loaded, ran₄⟩ := Program.run_bind_eq_some.mp ran₃
  obtain ⟨-, rfl⟩ := Prod.mk.inj (Option.some.inj ((run_data x s₃).symm.trans loaded))
  obtain ⟨_, s₅, copied, ran₅⟩ := Program.run_bind_eq_some.mp ran₄
  obtain ⟨_, s₆, wrote, ran₆⟩ := Program.run_bind_eq_some.mp ran₅
  obtain ⟨_, s₇, unpinned, ran₇⟩ := Program.run_bind_eq_some.mp ran₆
  obtain ⟨_, s₈, gaveY, gaveX⟩ := Program.run_bind_eq_some.mp ran₇
  have inUse := (((uses.bread readX).bread readY).setData copied).bwrite wrote
  exact ⟨y, ((inUse.bunpin unpinned).brelse gaveY).brelse gaveX⟩

theorem installTrans_unpins {holds : List (Hold Pid)} {pins : Fin nbuf → Int} (uses : Uses holds pins s)
    (ran : log.installTrans.run (exec p) s = some ((), t)) :
    ∃ dropped : Fin nbuf → Nat, ∑ i, dropped i = log.lh.n.toNat ∧ Uses holds (fun i => pins i - dropped i) t := by
  have each : ∀ k u v, k < log.lh.n.toNat →
      (∃ dropped : Fin nbuf → Nat, ∑ i, dropped i = k ∧ Uses holds (fun i => pins i - dropped i) u) →
      (log.installEntry k).run (exec p) u = some ((), v) →
      ∃ dropped : Fin nbuf → Nat, ∑ i, dropped i = k + 1 ∧ Uses holds (fun i => pins i - dropped i) v := by
    rintro k u v _ ⟨dropped, total, uses⟩ ran
    obtain ⟨y, uses⟩ := installEntry_unpins uses ran
    refine ⟨Function.update dropped y (dropped y + 1), ?_, ?_⟩
    · have counted := sum_update dropped y (dropped y + 1)
      omega
    · convert uses using 1
      funext i
      by_cases here : i = y
      · subst here
        simp
        omega
      · simp [here]
  exact Program.run_forUpTo_invariant ⟨0, by simp, by simpa using uses⟩ each ran

/-! ## An empty header -/

theorem writeLog_empty (empty : log.lh.n = 0) : (log.writeLog : Program (Bio (Fin nbuf)) Unit) = pure () := by
  rw [writeLog, empty]
  rfl

theorem installTrans_empty (empty : log.lh.n = 0) : (log.installTrans : Program (Bio (Fin nbuf)) Unit) = pure () := by
  rw [installTrans, empty]
  rfl

theorem commit_balanced {log' : Log} (empty : log.lh.n = 0) (inv : Inv s)
    (ran : log.commit.run (exec p) s = some (log', t)) : Balanced log.start s t := by
  simp only [commit, writeLog_empty empty, installTrans_empty empty, pure_bind] at ran
  obtain ⟨_, u, first, ran₁⟩ := Program.run_bind_eq_some.mp ran
  obtain ⟨_, v, second, done⟩ := Program.run_bind_eq_some.mp ran₁
  obtain ⟨-, rfl⟩ := Prod.mk.inj (Option.some.inj done)
  have before := writeHead_balanced inv first
  have after := writeHead_balanced before.inv second
  exact ⟨after.inv, after.holds.trans before.holds, after.pins.trans before.pins,
    fun c other => (after.disk c other).trans (before.disk c other)⟩

theorem logWrite_pins (empty : log.lh.n = 0) (i : Fin nbuf) (s : State Pid) :
    (log.logWrite i).run (exec p) s = (step (.bpin i) s).map fun t => (log, t) := by
  have blockno : (Bio.blockno i).run (exec p) s = some ((s.cache.buf i).blockno, s) := rfl
  have bpin : (Bio.bpin i).run (exec p) s = (step (.bpin i) s).map fun t => ((), t) := rfl
  simp only [logWrite, Program.run_bind, blockno, Option.bind_some, LogHeader.record_empty empty, inBounds,
    Program.run_pure, bpin]
  rfl

end Xv6.Log
