import Xv6.Library.Crash
import Xv6.Log.Operations

/-! The log over a coherent buffer cache.

The cache is a view of the disk: reads see what was stored last, and `bwrite`
puts a block of the view on the disk. Every function of the log amounts to a list
of disk writes, which is recorded in the order in which the writes happen.
-/

set_option autoImplicit false

namespace Xv6

open Library

structure Store where
  view : UInt32 → Block
  disk : UInt32 → Block
  writes : List (UInt32 × Block)

namespace Store

/-- Requests on a coherent cache; a buffer is known by its block number. -/
def handle : (r : (Bio UInt32).Request) → Store → Option ((Bio UInt32).Reply r × Store)
  | .bread _ blockno, s => some (blockno, s)
  | .blockno b, s => some (b, s)
  | .data b, s => some (s.view b, s)
  | .setData b data, s => some ((), { s with view := Function.update s.view b data })
  | .bwrite b, s => some ((), { s with
      disk := Function.update s.disk b (s.view b)
      writes := s.writes ++ [(b, s.view b)] })
  | .brelse _, s | .bpin _, s | .bunpin _, s => some ((), s)
  | .fault, _ => none

def boot (disk : UInt32 → Block) : Store := ⟨disk, disk, []⟩

-- The effect of a list of `bwrite`s, each of them right after its block was set.
def put (writes : List (UInt32 × Block)) (s : Store) : Store where
  view := applyWrites writes s.view
  disk := applyWrites writes s.disk
  writes := s.writes ++ writes

@[simp] theorem put_nil (s : Store) : s.put [] = s := by simp [put]

theorem put_put (first second : List (UInt32 × Block)) (s : Store) :
    (s.put first).put second = s.put (first ++ second) := by
  simp [put, applyWrites_append]

variable {A : Type}

@[simp] theorem run_bread (dev b : UInt32) (s : Store) : (Bio.bread dev b).run handle s = some (b, s) := rfl

@[simp] theorem run_blockno (b : UInt32) (s : Store) : (Bio.blockno b).run handle s = some (b, s) := rfl

@[simp] theorem run_data (b : UInt32) (s : Store) : (Bio.data b).run handle s = some (s.view b, s) := rfl

@[simp] theorem run_brelse (b : UInt32) (s : Store) : (Bio.brelse b).run handle s = some ((), s) := rfl

@[simp] theorem run_bpin (b : UInt32) (s : Store) : (Bio.bpin b).run handle s = some ((), s) := rfl

@[simp] theorem run_bunpin (b : UInt32) (s : Store) : (Bio.bunpin b).run handle s = some ((), s) := rfl

@[simp] theorem run_setData (b : UInt32) (data : Block) (s : Store) :
    (Bio.setData b data).run handle s = some ((), { s with view := Function.update s.view b data }) := rfl

@[simp] theorem run_bwrite (b : UInt32) (s : Store) :
    (Bio.bwrite b).run handle s = some ((), { s with
      disk := Function.update s.disk b (s.view b)
      writes := s.writes ++ [(b, s.view b)] }) := rfl

theorem disk_eq_applyWrites {p : Program (Bio UInt32) A} {s t : Store} {value : A} {disk : UInt32 → Block}
    (start : s.disk = applyWrites s.writes disk) (ran : p.run handle s = some (value, t)) :
    t.disk = applyWrites t.writes disk := by
  have preserved : ∀ r u reply v, u.disk = applyWrites u.writes disk → handle r u = some (reply, v) →
      v.disk = applyWrites v.writes disk := by
    intro r u reply v recorded answered
    cases r with
    | bwrite b =>
      cases Option.some.inj answered
      simp [recorded, applyWrites_append]
    | fault => cases answered
    | _ =>
      cases Option.some.inj answered
      exact recorded
  exact Program.run_invariant preserved start ran

theorem run_copies {body : Nat → Program (Bio UInt32) Unit} {n : Nat} {src dst : Nat → UInt32}
    (copies : ∀ i s, i < n → (body i).run handle s = some ((), s.put [(dst i, s.view (src i))])) (s : Store) :
    ∃ writes, (Program.forUpTo n body).run handle s = some ((), s.put writes) ∧
      writes.map Prod.fst = (List.range n).map dst ∧
      ((∀ i j, i < n → j < n → src i ≠ dst j) →
        writes = (List.range n).map fun i => (dst i, s.view (src i))) := by
  have each : ∀ i u, i < n →
      (∃ writes, u = s.put writes ∧ writes.map Prod.fst = (List.range i).map dst ∧
        ((∀ i j, i < n → j < n → src i ≠ dst j) → writes = (List.range i).map fun i => (dst i, s.view (src i)))) →
      ∃ v, (body i).run handle u = some ((), v) ∧
        ∃ writes, v = s.put writes ∧ writes.map Prod.fst = (List.range (i + 1)).map dst ∧
          ((∀ i j, i < n → j < n → src i ≠ dst j) →
            writes = (List.range (i + 1)).map fun i => (dst i, s.view (src i))) := by
    rintro i u bound ⟨writes, rfl, addresses, contents⟩
    refine ⟨_, copies i _ bound, writes ++ [(dst i, (s.put writes).view (src i))], put_put .., ?_, fun apart => ?_⟩
    · simp [List.range_succ, addresses]
    · have untouched : (s.put writes).view (src i) = s.view (src i) := by
        refine applyWrites_of_not_mem ?_ _
        rw [addresses]
        simp only [List.mem_map, List.mem_range, not_exists, not_and]
        exact fun j less same => apart i j bound (by omega) same.symm
      rw [untouched, List.range_succ, List.map_append, ← contents apart]
      rfl
  obtain ⟨t, ran, writes, rfl, addresses, contents⟩ :=
    Program.run_forUpTo_returns ⟨[], (s.put_nil).symm, rfl, fun _ => rfl⟩ each
  exact ⟨writes, ran, addresses, contents⟩

end Store

namespace Log

def logBlock (log : Log) (i : Nat) : UInt32 := log.start + 1 + UInt32.ofNat i

def homeBlock (log : Log) (i : Nat) : UInt32 := if inside : i < logSize then log.lh.block ⟨i, inside⟩ else 0

theorem run_home (log : Log) {i : Nat} (inside : i < logSize) (s : Store) :
    (log.home i).run Store.handle s = some (log.homeBlock i, s) := by
  simp [home, homeBlock, inside, inBounds]

-- A block that `write_head` may leave on the disk for a header.
structure Names (d : Block) (lh : LogHeader) : Prop where
  n : Word.toInt (d.word 0) = lh.n
  block : ∀ i, (i.val : Int) < lh.n → d.word (LogHeader.slot i) = lh.block i

variable (log : Log)

theorem run_writeLog (bound : log.lh.n ≤ logSize) (s : Store) :
    ∃ writes, log.writeLog.run Store.handle s = some ((), s.put writes) ∧
      writes.map Prod.fst = (List.range log.lh.n.toNat).map log.logBlock ∧
      ((∀ i j, i < log.lh.n.toNat → j < log.lh.n.toNat → log.homeBlock i ≠ log.logBlock j) →
        writes = (List.range log.lh.n.toNat).map fun i => (log.logBlock i, s.view (log.homeBlock i))) := by
  refine Store.run_copies (fun i u less => ?_) s
  have inside : i < logSize := by omega
  have address : log.start + UInt32.ofNat i + 1 = log.logBlock i := by
    rw [logBlock, UInt32.add_assoc, UInt32.add_comm (UInt32.ofNat i), ← UInt32.add_assoc]
  simp [logEntry, run_home log inside, address, Store.put]

theorem run_installTrans (bound : log.lh.n ≤ logSize) (s : Store) :
    ∃ writes, log.installTrans.run Store.handle s = some ((), s.put writes) ∧
      writes.map Prod.fst = (List.range log.lh.n.toNat).map log.homeBlock ∧
      ((∀ i j, i < log.lh.n.toNat → j < log.lh.n.toNat → log.logBlock i ≠ log.homeBlock j) →
        writes = (List.range log.lh.n.toNat).map fun i => (log.homeBlock i, s.view (log.logBlock i))) := by
  refine Store.run_copies (fun i u less => ?_) s
  have inside : i < logSize := by omega
  simp [installEntry, run_home log inside, logBlock, Store.put]

theorem run_writeHead (low : 0 ≤ log.lh.n) (bound : log.lh.n ≤ logSize) (s : Store) :
    ∃ d, log.writeHead.run Store.handle s = some ((), s.put [(log.start, d)]) ∧ Names d log.lh := by
  have most : log.lh.n.toNat ≤ logSize := by omega
  obtain ⟨d, stored, count, blocks⟩ :=
    log.lh.store_eq most ((s.view log.start).setWord 0 (Word.ofInt log.lh.n))
  refine ⟨d, ?_, ?_, fun i less => blocks i (by omega)⟩
  · simp [writeHead, stored, inBounds, Store.put]
  · have small : log.lh.n ≤ 30 := bound
    rw [count, Block.word_setWord_self, Word.toInt_ofInt (by omega) (by omega)]

theorem run_commit_empty (empty : log.lh.n = 0) (s : Store) :
    ∃ d e, log.commit.run Store.handle s = some (log.reset, s.put [(log.start, d), (log.start, e)]) := by
  obtain ⟨d, wrote, _⟩ := run_writeHead log (by omega) (by rw [empty]; decide) s
  obtain ⟨e, cleared, _⟩ := run_writeHead log.reset le_rfl (by change (0 : Int) ≤ 30; omega) (s.put [(log.start, d)])
  refine ⟨d, e, ?_⟩
  have none : log.lh.n.toNat = 0 := by rw [empty]; rfl
  simp only [commit, writeLog, installTrans, none, Program.forUpTo, Program.run_bind, Program.run_pure,
    Option.bind_some,
    wrote, cleared, Store.put_put]
  rfl

end Log

end Xv6
