import Xv6.Log.OnCache

/-! The references that boot recovery leaves behind.

`install_trans` drops a pin of every home buffer. During a commit `log_write` has
taken these pins; at boot nobody has, so every entry of the header makes one
reference count too small.
-/

set_option autoImplicit false

namespace Xv6.Log

open Library Buffer

variable {Pid : Type} {p : Pid} {log : Log} {s t : State Pid}

/-- A request that decrements a reference count decrements a positive one. -/
def NoUnderflow : (Bio (Fin nbuf)).Request → State Pid → Prop
  | .brelse i, s | .bunpin i, s => (s.cache.buf i).refcnt ≠ 0
  | _, _ => True

theorem refcnt_unused (uses : Uses [] (fun _ => 0) s) (i : Fin nbuf) : (s.cache.buf i).refcnt = 0 := by
  have counted := (uses.inv.entry i).counted
  rw [uses.holds, uses.pins] at counted
  exact UInt32.toNat_inj.mp (by simpa [holders] using counted)

theorem refcnt_newest {h : Hold Pid} (uses : Uses [h] (fun _ => 0) s) : (s.cache.buf h.buf).refcnt ≠ 0 := by
  intro zero
  have counted := (uses.inv.entry h.buf).counted
  rw [uses.holds, uses.pins, zero] at counted
  simp [holders] at counted

section
variable [DecidableEq Pid]

theorem along_inBounds {A : Type} (computed : Option A) (s : State Pid) :
    (inBounds computed : Program (Bio (Fin nbuf)) A).Along (exec p) NoUnderflow s := by
  cases computed with
  | none => exact ⟨trivial, fun reply _ _ => nomatch reply⟩
  | some value => trivial

/-! ## The header on an idle cache -/

theorem readHead_uses {log' : Log} {holds : List (Hold Pid)} {pins : Fin nbuf → Int} (uses : Uses holds pins s)
    (ran : log.readHead.run (exec p) s = some (log', t)) :
    ∃ i u, Bread p log.dev log.start s i u ∧ Uses holds pins t ∧
      log'.lh.n = Word.toInt ((u.cache.buf i).data.word 0) := by
  obtain ⟨i, u, read, ran₁⟩ := Program.run_bind_eq_some.mp ran
  obtain ⟨hb, v, loaded, ran₂⟩ := Program.run_bind_eq_some.mp ran₁
  obtain ⟨rfl, rfl⟩ := Prod.mk.inj (Option.some.inj ((run_data i u).symm.trans loaded))
  obtain ⟨lh, w, copied, ran₃⟩ := Program.run_bind_eq_some.mp ran₂
  obtain ⟨filled, rfl⟩ := (run_inBounds exec_fault).mp copied
  obtain ⟨_, x, gave, done⟩ := Program.run_bind_eq_some.mp ran₃
  obtain ⟨rfl, rfl⟩ := Prod.mk.inj (Option.some.inj done)
  exact ⟨i, _, run_bread uses.inv read, (uses.bread read).brelse gave, LogHeader.load_n filled⟩

theorem readHead_along (uses : Uses [] (fun _ => 0) s) :
    (log.readHead : Program (Bio (Fin nbuf)) Log).Along (exec p) NoUnderflow s := by
  refine Program.along_bind.mpr ⟨Program.along_request.mpr trivial, fun i u read => ?_⟩
  refine Program.along_bind.mpr ⟨Program.along_request.mpr trivial, fun hb v loaded => ?_⟩
  obtain ⟨-, rfl⟩ := Prod.mk.inj (Option.some.inj ((run_data i u).symm.trans loaded))
  refine Program.along_bind.mpr ⟨along_inBounds _ _, fun lh w copied => ?_⟩
  obtain ⟨-, rfl⟩ := (run_inBounds exec_fault).mp copied
  refine Program.along_bind.mpr ⟨Program.along_request.mpr ?_, fun _ _ _ => trivial⟩
  exact refcnt_newest (uses.bread read)

theorem readHead_returns (uses : Uses [] (fun _ => 0) s)
    (fits : ∀ i u, Bread p log.dev log.start s i u → Word.toInt ((u.cache.buf i).data.word 0) ≤ logSize) :
    ∃ log' t, log.readHead.run (exec p) s = some (log', t) := by
  obtain ⟨i, u, read⟩ := run_bread_returns (p := p) log.dev log.start uses.inv uses.holds (refcnt_unused uses 0)
  have got := run_bread uses.inv read
  have few : (Word.toInt ((u.cache.buf i).data.word 0)).toNat ≤ logSize := by
    have bound := fits i u got
    omega
  obtain ⟨cache, gave, _⟩ := run_brelse got.inv (uses.holds ▸ got.holds)
  have returns : (log.readHead.run (exec p) s).isSome = true := by
    simp only [readHead, Program.run_bind, read, Option.bind_some, run_data, LogHeader.load_eq _ few, inBounds,
      Program.run_pure, gave]
    rfl
  obtain ⟨⟨log', t⟩, ran⟩ := Option.isSome_iff_exists.mp returns
  exact ⟨log', t, ran⟩

theorem writeHead_along (uses : Uses [] (fun _ => 0) s) :
    (log.writeHead : Program (Bio (Fin nbuf)) Unit).Along (exec p) NoUnderflow s := by
  refine Program.along_bind.mpr ⟨Program.along_request.mpr trivial, fun i u read => ?_⟩
  refine Program.along_bind.mpr ⟨Program.along_request.mpr trivial, fun hb v loaded => ?_⟩
  obtain ⟨-, rfl⟩ := Prod.mk.inj (Option.some.inj ((run_data i u).symm.trans loaded))
  refine Program.along_bind.mpr ⟨along_inBounds _ _, fun d w stored => ?_⟩
  obtain ⟨-, rfl⟩ := (run_inBounds exec_fault).mp stored
  refine Program.along_bind.mpr ⟨Program.along_request.mpr trivial, fun _ x changed => ?_⟩
  refine Program.along_bind.mpr ⟨Program.along_request.mpr trivial, fun _ y wrote => ?_⟩
  exact Program.along_request.mpr (refcnt_newest (((uses.bread read).setData changed).bwrite wrote))

theorem writeHead_returns (log : Log) (uses : Uses [] (fun _ => 0) s) (few : log.lh.n ≤ logSize) :
    ∃ t, log.writeHead.run (exec p) s = some ((), t) := by
  obtain ⟨i, u, read⟩ := run_bread_returns (p := p) log.dev log.start uses.inv uses.holds (refcnt_unused uses 0)
  have got := run_bread uses.inv read
  have most : log.lh.n.toNat ≤ logSize := by omega
  obtain ⟨d, stored, _⟩ := log.lh.store_eq most ((u.cache.buf i).data.setWord 0 (Word.ofInt log.lh.n))
  have inv₁ := Program.run_invariant inv_exec got.inv (run_setData got.holds d)
  have wrote := run_bwrite inv₁ got.holds
  obtain ⟨cache, gave, _⟩ := run_brelse (Program.run_invariant inv_exec inv₁ wrote) got.holds
  have returns : (log.writeHead.run (exec p) s).isSome = true := by
    simp only [writeHead, Program.run_bind, read, Option.bind_some, run_data, stored, inBounds,
      Program.run_pure, run_setData got.holds]
    rw [wrote]
    simp only [Option.bind_some]
    rw [gave]
    rfl
  obtain ⟨⟨_, t⟩, ran⟩ := Option.isSome_iff_exists.mp returns
  exact ⟨t, ran⟩

/-! ## Recovery -/

/-- The header that recovery reads first, when nothing is cached, is the one on the disk. -/
theorem readHead_fresh {log' : Log} {disk : UInt32 → Block}
    (ran : log.readHead.run (exec p) (Buffer.start disk) = some (log', t)) :
    Uses [] (fun _ => 0) t ∧ log'.lh.n = Word.toInt ((disk log.start).word 0) := by
  obtain ⟨i, x, got, uses, count⟩ := readHead_uses ⟨inv_start disk, rfl, rfl⟩ ran
  refine ⟨uses, ?_⟩
  rcases got.data with ⟨_, _, valid, _⟩ | ⟨data, _⟩
  · cases valid
  · rw [count, data]
    rfl

/-- What recovery of `n` entries leaves in use: no buffer, and `n` pins fewer than none. -/
theorem recoverFromLog_uses {log' : Log} {disk : UInt32 → Block}
    (ran : log.recoverFromLog.run (exec p) (Buffer.start disk) = some (log', t)) :
    ∃ dropped : Fin nbuf → Nat, ∑ i, dropped i = (Word.toInt ((disk log.start).word 0)).toNat ∧
      Uses [] (fun i => - dropped i) t := by
  obtain ⟨read, u, gotHead, ran₁⟩ := Program.run_bind_eq_some.mp ran
  obtain ⟨_, v, installed, ran₂⟩ := Program.run_bind_eq_some.mp ran₁
  obtain ⟨_, w, wrote, done⟩ := Program.run_bind_eq_some.mp ran₂
  obtain ⟨rfl, rfl⟩ := Prod.mk.inj (Option.some.inj done)
  obtain ⟨uses, count⟩ := readHead_fresh gotHead
  obtain ⟨dropped, total, uses⟩ := installTrans_unpins uses installed
  have balanced := writeHead_balanced uses.inv wrote
  refine ⟨dropped, by rw [total, count], balanced.inv, balanced.holds.trans uses.holds, ?_⟩
  rw [balanced.pins, uses.pins]
  funext i
  omega

theorem recoverFromLog_empty (disk : UInt32 → Block) (empty : Word.toInt ((disk log.start).word 0) = 0) :
    (∃ log' t, log.recoverFromLog.run (exec p) (Buffer.start disk) = some (log', t)) ∧
      log.recoverFromLog.Along (exec p) NoUnderflow (Buffer.start disk) := by
  have fresh : Uses [] (fun _ => 0) (Buffer.start disk : State Pid) := ⟨inv_start disk, rfl, rfl⟩
  constructor
  · have fits : ∀ i u, Bread p log.dev log.start (Buffer.start disk) i u →
        Word.toInt ((u.cache.buf i).data.word 0) ≤ logSize := by
      intro i u got
      rcases got.data with ⟨_, _, valid, _⟩ | ⟨data, _⟩
      · cases valid
      · rw [data]
        exact empty.trans_le (by decide)
    obtain ⟨read, u, gotHead⟩ := readHead_returns fresh fits
    obtain ⟨uses, count⟩ := readHead_fresh gotHead
    obtain ⟨t, wrote⟩ := writeHead_returns (p := p) read.reset uses (by change (0 : Int) ≤ 30; omega)
    refine ⟨read.reset, t, ?_⟩
    simp only [recoverFromLog, Program.run_bind, gotHead, Option.bind_some, installTrans_empty (count.trans empty),
      Program.run_pure, wrote]
  · refine Program.along_bind.mpr ⟨readHead_along fresh, fun read u gotHead => ?_⟩
    obtain ⟨uses, count⟩ := readHead_fresh gotHead
    rw [installTrans_empty (count.trans empty)]
    refine Program.along_bind.mpr ⟨trivial, fun _ v same => ?_⟩
    obtain ⟨-, rfl⟩ := Prod.mk.inj (Option.some.inj same)
    exact Program.along_bind.mpr ⟨writeHead_along uses, fun _ _ _ => trivial⟩

/-- Boot recovery leaves every reference count at zero, without an underflow on the
way, exactly if there was nothing to recover. -/
theorem recovery_reference_balance (log : Log) (p : Pid) (disk : UInt32 → Block)
    (low : 0 ≤ Word.toInt ((disk log.start).word 0)) (fits : Word.toInt ((disk log.start).word 0) ≤ logSize) :
    ((∃ log' t, log.recoverFromLog.run (exec p) (Buffer.start disk) = some (log', t) ∧
        ∀ i, (t.cache.buf i).refcnt = 0) ∧
      log.recoverFromLog.Along (exec p) NoUnderflow (Buffer.start disk)) ↔
    Word.toInt ((disk log.start).word 0) = 0 := by
  constructor
  · -- every entry drops a pin that nobody took, and only a multiple of `2 ^ 32` would go unnoticed
    rintro ⟨⟨log', t, ran, zero⟩, -⟩
    obtain ⟨dropped, total, uses⟩ := recoverFromLog_uses ran
    have none : ∀ i, dropped i = 0 := by
      intro i
      have counted := (uses.inv.entry i).counted
      have few : dropped i ≤ ∑ j, dropped j := le_total dropped i
      have small : Word.toInt ((disk log.start).word 0) ≤ 30 := fits
      rw [uses.holds, uses.pins, zero i] at counted
      simp [holders] at counted
      omega
    simp only [none, Finset.sum_const_zero] at total
    omega
  · intro empty
    obtain ⟨⟨log', t, ran⟩, along⟩ := recoverFromLog_empty (p := p) disk empty
    obtain ⟨dropped, total, uses⟩ := recoverFromLog_uses ran
    rw [empty, Int.toNat_zero, Finset.sum_eq_zero_iff] at total
    have unused : Uses [] (fun _ => 0) t := by simpa [total] using uses
    exact ⟨⟨log', t, ran, refcnt_unused unused⟩, along⟩

end

theorem recovery_reference_balance_empty :
    ∃ log' t, (ofSuperblock 1 Mkfs.superblock ⟨0, fun _ => 0⟩).recoverFromLog.run (exec 1)
      (Buffer.start fun _ => Block.zero) = some (log', t) ∧ ∀ i, (t.cache.buf i).refcnt = 0 :=
  ((recovery_reference_balance (ofSuperblock 1 Mkfs.superblock ⟨0, fun _ => 0⟩) 1 (fun _ => Block.zero)
    (by decide) (by decide)).mpr (by decide)).1

def oneEntry : UInt32 → Block
  | 2 => (Block.zero.setWord 0 1).setWord 1 100
  | _ => Block.zero

/-- Recovering that block leaves its buffer with the reference count `2 ^ 32 - 1`. -/
theorem recovery_underflows :
    ∃ log' t, (ofSuperblock 1 Mkfs.superblock ⟨0, fun _ => 0⟩).recoverFromLog.run (exec 1)
      (Buffer.start oneEntry) = some (log', t) ∧ (t.cache.buf 2).blockno = 100 ∧
      (t.cache.buf 2).refcnt = 4294967295 := by
  have returns : ((ofSuperblock 1 Mkfs.superblock ⟨0, fun _ => 0⟩).recoverFromLog.run (exec 1)
      (Buffer.start oneEntry)).any (fun out =>
        (out.2.cache.buf 2).blockno = 100 ∧ (out.2.cache.buf 2).refcnt = 4294967295) = true := by decide +kernel
  obtain ⟨⟨log', t⟩, ran, outcome⟩ := (Option.any_eq_true _ _).mp returns
  obtain ⟨block, count⟩ := of_decide_eq_true outcome
  exact ⟨log', t, ran, block, count⟩

/-- So not every header that fits the log is recovered with balanced references. -/
theorem recovery_unbalanced :
    ¬ ∀ disk : UInt32 → Block, 0 ≤ Word.toInt ((disk 2).word 0) → Word.toInt ((disk 2).word 0) ≤ Mkfs.nlog - 1 →
      ∀ log' t, (ofSuperblock 1 Mkfs.superblock ⟨0, fun _ => 0⟩).recoverFromLog.run (exec 1)
        (Buffer.start disk) = some (log', t) → ∀ i, (t.cache.buf i).refcnt = 0 := by
  intro balanced
  obtain ⟨log', t, ran, _, count⟩ := recovery_underflows
  have zero := balanced oneEntry (by decide) (by decide) log' t ran 2
  rw [count] at zero
  exact absurd zero (by decide)

end Xv6.Log
