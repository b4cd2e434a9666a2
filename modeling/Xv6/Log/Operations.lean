import Xv6.Buffer.Interface

/-! The log of `kern/log.c`.

The functions are programs over the requests of the buffer cache. `log.lock` does
not occur in them: the functions under it are single steps of the log's protocol,
and the others run while `committing` or the boot keeps everybody else out.
-/

set_option autoImplicit false

namespace Xv6

open Library

/-- `struct logheader` -/
structure LogHeader where
  n : Int
  block : Fin logSize → UInt32

/-- `struct log`, without its lock -/
structure Log where
  start : UInt32
  size : UInt32
  outstanding : Int
  committing : Bool
  dev : UInt32
  lh : LogHeader

namespace LogHeader

-- Word `i + 1` of the header block: `hb->block[i]`.
def slot (i : Fin logSize) : Fin nindirect :=
  ⟨i.val + 1, by
    have bound : i.val < 30 := i.isLt
    change _ < 128
    omega⟩

-- The loop of `read_head`: `block[i] = hb->block[i]` for `i < n`. `none` when it leaves the array.
def load (hb : Block) : Nat → LogHeader → Option LogHeader
  | 0, lh => some lh
  | i + 1, lh => (load hb i lh).bind fun lh =>
    if inside : i < logSize then
      some { lh with block := Function.update lh.block ⟨i, inside⟩ (hb.word (slot ⟨i, inside⟩)) }
    else none

/-- The loop of `write_head`: `hb->block[i] = block[i]` for `i < n`. -/
def store (lh : LogHeader) : Nat → Block → Option Block
  | 0, hb => some hb
  | i + 1, hb => (lh.store i hb).bind fun hb =>
    if inside : i < logSize then some (hb.setWord (slot ⟨i, inside⟩) (lh.block ⟨i, inside⟩)) else none

-- The search loop of `log_write`.
def find (lh : LogHeader) (blockno : UInt32) : Option (Fin logSize) :=
  (List.finRange logSize).find? fun i => (i.val : Int) < lh.n && lh.block i = blockno

-- `p = n++; block[p] = blockno`, `none` when `p` is outside the array.
def append (lh : LogHeader) (blockno : UInt32) : Option LogHeader :=
  if inside : 0 ≤ lh.n ∧ lh.n.toNat < logSize then
    some ⟨lh.n + 1, Function.update lh.block ⟨lh.n.toNat, inside.2⟩ blockno⟩
  else none

-- The header after `log_write` of a block. It is appended when the search has found it.
def record (lh : LogHeader) (blockno : UInt32) : Option LogHeader :=
  match lh.find blockno with
  | some _ => lh.append blockno
  | none => some lh

/-- In an empty header the search finds nothing, and `log_write` leaves it empty. -/
theorem record_empty {lh : LogHeader} (empty : lh.n = 0) (blockno : UInt32) : lh.record blockno = some lh := by
  have absent : lh.find blockno = none := by
    rw [LogHeader.find, List.find?_eq_none]
    intro i _
    simp only [empty, Bool.and_eq_true, decide_eq_true_eq, not_and]
    omega
  rw [LogHeader.record, absent]

theorem load_n {hb : Block} {k : Nat} {lh lh' : LogHeader} (loaded : load hb k lh = some lh') : lh'.n = lh.n := by
  induction k generalizing lh' with
  | zero => exact Option.some.inj loaded ▸ rfl
  | succ k ih =>
    obtain ⟨before, earlier, last⟩ := Option.bind_eq_some_iff.mp loaded
    have kept := ih earlier
    split at last
    · cases last
      exact kept
    · cases last

theorem load_eq (hb : Block) {n : Nat} (bound : n ≤ logSize) (lh : LogHeader) :
    load hb n lh =
      some { lh with block := fun i => if i.val < n then hb.word (slot i) else lh.block i } := by
  induction n with
  | zero => simp [load]
  | succ n ih =>
    have inside : n < logSize := bound
    simp only [load, ih (Nat.le_of_succ_le bound), Option.bind_some, dif_pos inside]
    congr 2
    funext i
    by_cases here : i = ⟨n, inside⟩
    · simp [here]
    · have other : i.val ≠ n := fun same => here (Fin.ext same)
      simp only [Function.update_of_ne here]
      congr 1
      simp only [eq_iff_iff]
      omega

/-- The block that the loop of `write_head` leaves names the first `n` blocks of the header. -/
theorem store_eq (lh : LogHeader) {n : Nat} (bound : n ≤ logSize) (hb : Block) :
    ∃ d, lh.store n hb = some d ∧ d.word 0 = hb.word 0 ∧ ∀ i, i.val < n → d.word (slot i) = lh.block i := by
  induction n with
  | zero => exact ⟨hb, rfl, rfl, fun _ none => absurd none (Nat.not_lt_zero _)⟩
  | succ n ih =>
    obtain ⟨d, stored, count, blocks⟩ := ih (Nat.le_of_succ_le bound)
    have inside : n < logSize := bound
    refine ⟨d.setWord (slot ⟨n, inside⟩) (lh.block ⟨n, inside⟩), ?_, ?_, fun i less => ?_⟩
    · rw [store, stored, Option.bind_some, dif_pos inside]
    · rw [Block.word_setWord, if_neg, count]
      simp [slot, Fin.ext_iff]
    · rw [Block.word_setWord]
      split
      · next same =>
        have here : i = ⟨n, inside⟩ := by
          simpa [slot, Fin.ext_iff] using same
        rw [here]
      · next other =>
        have earlier : i.val ≠ n := fun same => other (by simp [slot, same])
        exact blocks i (by omega)

end LogHeader

namespace Log

variable {H : Type}

/-- What `initlog` takes from the super block; the other fields are zero at boot. -/
def ofSuperblock (dev : UInt32) (sb : Superblock) (lh : LogHeader) : Log :=
  ⟨sb.logstart, sb.nlog, 0, false, dev, lh⟩

def inBounds {A : Type} : Option A → Program (Bio H) A
  | some value => pure value
  | none => Bio.fault

theorem run_inBounds {A S : Type} {handler : (r : (Bio H).Request) → S → Option ((Bio H).Reply r × S)}
    {computed : Option A} {value : A} {s t : S} (bounds : ∀ s, handler .fault s = none) :
    (inBounds computed).run handler s = some (value, t) ↔ computed = some value ∧ t = s := by
  cases computed with
  | none => simp [inBounds, Bio.fault, Program.run, bounds]
  | some v => simp [inBounds, eq_comm]

-- `log.lh.block[i]`
def home (log : Log) (i : Nat) : Program (Bio H) UInt32 :=
  inBounds (if inside : i < logSize then some (log.lh.block ⟨i, inside⟩) else none)

-- One turn of the loop of `install_trans`.
def installEntry (log : Log) (i : Nat) : Program (Bio H) Unit := do
  let x ← Bio.bread log.dev (log.start + 1 + UInt32.ofNat i)
  let y ← Bio.bread log.dev (← log.home i)
  Bio.setData y (← Bio.data x)
  Bio.bwrite y
  Bio.bunpin y
  Bio.brelse y
  Bio.brelse x

def installTrans (log : Log) : Program (Bio H) Unit := .forUpTo log.lh.n.toNat log.installEntry

def readHead (log : Log) : Program (Bio H) Log := do
  let buf ← Bio.bread log.dev log.start
  let hb ← Bio.data buf
  let n := Word.toInt (hb.word 0)
  let lh ← inBounds (LogHeader.load hb n.toNat { log.lh with n })
  Bio.brelse buf
  return { log with lh }

/-- Write the in-memory header to the disk. This is where a transaction commits. -/
def writeHead (log : Log) : Program (Bio H) Unit := do
  let buf ← Bio.bread log.dev log.start
  let hb ← Bio.data buf
  let hb := hb.setWord 0 (Word.ofInt log.lh.n)
  Bio.setData buf (← inBounds (log.lh.store log.lh.n.toNat hb))
  Bio.bwrite buf
  Bio.brelse buf

-- `log.lh.n = 0`
def reset (log : Log) : Log := { log with lh := { log.lh with n := 0 } }

def recoverFromLog (log : Log) : Program (Bio H) Log := do
  let log ← log.readHead
  log.installTrans
  log.reset.writeHead
  return log.reset

-- One turn of the loop of `write_log`.
def logEntry (log : Log) (i : Nat) : Program (Bio H) Unit := do
  let x ← Bio.bread log.dev (← log.home i)
  let y ← Bio.bread log.dev (log.start + UInt32.ofNat i + 1)
  Bio.setData y (← Bio.data x)
  Bio.bwrite y
  Bio.brelse x
  Bio.brelse y

/-- Copy modified blocks from the cache to the log. -/
def writeLog (log : Log) : Program (Bio H) Unit := .forUpTo log.lh.n.toNat log.logEntry

def commit (log : Log) : Program (Bio H) Log := do
  log.writeLog
  log.writeHead
  log.installTrans
  log.reset.writeHead
  return log.reset

def logWrite (log : Log) (b : H) : Program (Bio H) Log := do
  let blockno ← Bio.blockno b
  let lh ← inBounds (log.lh.record blockno)
  Bio.bpin b
  return { log with lh }

end Log

end Xv6
