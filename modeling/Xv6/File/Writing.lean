import Xv6.File.Sharing
import Xv6.Fs.Recording

/-! What `filewrite` writes, and what it leaves behind when it fails.

The call is run by one process, with nothing in between. A turn of the loop writes one chunk in
one operation of the log.
-/

set_option autoImplicit false

namespace Xv6

open Library

namespace Calls

variable {n : Nat}

/-- A turn of the loop of `filewrite`, up to where it leaves the loop. -/
def writeTurn (f : Fin nfile) (src : Nat → UInt8) (count : Int) : Program (Calls n) Int := do
  beginOp
  let ip ← inode (← file f).ip
  fs (Inodes.ilock ip)
  let cur ← fs (Inodes.writei ip src (← file f).off (UInt64.ofInt (chunkOf count)))
  if cur < 0 then return cur
  else
    advance f cur
    fs (Inodes.iunlock ip)
    endOp
    return cur

theorem writeTurns_succ (f : Fin nfile) (src : Nat → UInt8) (count : Int) (turns : Nat) (fin : Int) :
    (writeTurns f src count (turns + 1) fin : Program (Calls n) Int) =
      if fin < count then do
        let cur ← writeTurn f src count
        if cur < 0 then return if fin = count then count else -1 else writeTurns f src count turns (fin + cur)
      else return if fin = count then count else -1 := by
  rw [writeTurns]
  split
  · simp only [writeTurn, bind_assoc]
    congr 1
    funext _
    congr 1
    funext x
    congr 1
    funext ip
    congr 1
    funext _
    congr 1
    funext y
    congr 1
    funext cur
    by_cases failed : cur < 0
    · simp [failed]
    · simp [failed]
  · rfl

end Calls

namespace Writing

open Syscall Process Calls Calls.State Sharing Descriptors

variable {C : Type} {n : Nat} [DecidableEq C] {addr : Fin n → UInt64} {sb : Superblock}
  {devsw : Fin ndev → Devsw UInt32}
  {p : Fin n} {e : Choice C} {f : Fin nfile} {i : Fin ninode} {src : Nat → UInt8} {count cur : Int}
  {s t : Calls.State C n}

def alone (addr : Fin n → UInt64) (sb : Superblock) (devsw : Fin ndev → Devsw UInt32) (p : Fin n) (e : Choice C) :
    (r : (Calls n).Request) → Calls.State C n → Option ((Calls n).Reply r × Calls.State C n) :=
  perform addr sb devsw p e

/-! ## One turn -/

-- The inode that `ilock` finds.
def loaded (sb : Superblock) (m : Machine) (i : Fin ninode) : MemInode :=
  if (m.icache i).valid then { m.icache i with locked := true }
  else { (m.icache i).load (Fs.diskInode sb m.store.view (m.icache i).inum) with locked := true, valid := true }

theorem ilock_returns {m : Machine} {icache : Icache} {store : Store}
    (locks : (Fs.ilock sb m.icache i).run Store.handle m.store = some (icache, store)) :
    (m.icache i).locked = false ∧ icache = Function.update m.icache i (loaded sb m i) ∧ store = m.store := by
  unfold Fs.ilock at locks
  split at locks
  · cases locks
  · next unlocked =>
    refine ⟨by simpa using unlocked, ?_⟩
    split at locks
    · next valid =>
      cases locks
      exact ⟨by rw [loaded, if_pos valid], rfl⟩
    · next fresh =>
      cases locks
      exact ⟨by rw [loaded, if_neg fresh]; rfl, rfl⟩

/-- The checks of `writei` for a chunk at the offset of the file. A device accepts what its function does not
fail on. -/
def Accepts (sb : Superblock) (devsw : Fin ndev → Devsw UInt32) (f : Fin nfile) (i : Fin ninode)
    (src : Nat → UInt8) (count : Int) (s : Calls.State C n) : Prop :=
  let ip := loaded sb s.machine i
  if ip.type = T_DEV then
    ∃ (major : ip.major.toNat < ndev) (write : MemInode → (Nat → UInt8) → UInt64 → Program (Bio UInt32) Int),
      (devsw ⟨ip.major.toNat, major⟩).write = some write ∧
      ∀ r t, (write ip src (UInt64.ofInt (chunkOf count))).run Store.handle s.machine.store = some (r, t) → 0 ≤ r
  else Fs.Writable ip.size.toNat (s.ftable f).off.toNat (UInt64.ofInt (chunkOf count)).toNat

structure Turned (sb : Superblock) (f : Fin nfile) (i : Fin ninode) (count cur : Int) (s t : Calls.State C n) :
    Prop where
  free : (s.machine.icache i).locked = false
  held : (t.machine.icache i).locked = decide (cur < 0)
  outstanding : t.machine.log.outstanding = s.machine.log.outstanding + if cur < 0 then 1 else 0
  ip : (t.ftable f).ip = (s.ftable f).ip
  all : (loaded sb s.machine i).type ≠ T_DEV → 0 ≤ cur → cur = (UInt64.ofInt (chunkOf count)).toNat

omit [DecidableEq C] in
theorem writei_accepts {log log' : Log} {ip' : MemInode} {u : Store}
    (writes : (Fs.writei sb devsw log (loaded sb s.machine i) src (s.ftable f).off (UInt64.ofInt (chunkOf count))).run
      Store.handle s.machine.store = some ((cur, ip', log'), u)) :
    (Accepts sb devsw f i src count s ↔ 0 ≤ cur) ∧ ip'.locked = true ∧
      ((loaded sb s.machine i).type ≠ T_DEV → 0 ≤ cur → cur = (UInt64.ofInt (chunkOf count)).toNat) := by
  have held : (loaded sb s.machine i).locked = true := by
    unfold loaded
    split <;> rfl
  by_cases isDev : (loaded sb s.machine i).type = T_DEV
  · rw [Fs.writei, if_pos isDev] at writes
    unfold Accepts
    dsimp only
    rw [if_pos isDev]
    split at writes
    · next major =>
      split at writes
      · next write found =>
        obtain ⟨r, v, ran, done⟩ := Program.run_bind_eq_some.mp writes
        cases done
        refine ⟨⟨?_, fun fine => ⟨major, write, found, fun r t again => ?_⟩⟩, held, absurd isDev⟩
        · rintro ⟨_, write', found', fine⟩
          cases found.symm.trans found'
          exact fine _ _ ran
        · cases ran.symm.trans again
          exact fine
      · next missing =>
        cases writes
        refine ⟨iff_of_false ?_ (by decide), held, absurd isDev⟩
        rintro ⟨_, write, found, _⟩
        rw [missing] at found
        cases found
    · next outside =>
      cases writes
      exact ⟨iff_of_false (fun accepted => outside accepted.1) (by decide), held, absurd isDev⟩
  · obtain ⟨fields, cases⟩ := Fs.writei_fields devsw isDev writes
    unfold Accepts
    dsimp only
    rw [if_neg isDev]
    rcases cases with ⟨refused, rfl⟩ | ⟨accepted, rfl⟩
    · exact ⟨iff_of_false refused (by decide), by rw [fields]; exact held, fun _ fine => absurd fine (by decide)⟩
    · exact ⟨iff_of_true accepted (Int.natCast_nonneg _), by rw [fields]; exact held, fun _ _ => rfl⟩

theorem request_returns {r : Calls.Request n} {reply : (Calls n).Reply r}
    (ran : (Program.request (I := Calls n) r).run (alone addr sb devsw p e) s = some (reply, t)) :
    perform addr sb devsw p e r s = some (reply, t) :=
  (Program.run_request (I := Calls n) r s).symm.trans ran

theorem endOp_returns (ended : endOp.run (alone addr sb devsw p e) s = some ((), t)) :
    t.machine.icache = s.machine.icache ∧ t.ftable = s.ftable ∧
      t.machine.log.outstanding = s.machine.log.outstanding - 1 := by
  obtain ⟨cmt, u, first, rest⟩ := Program.run_bind_eq_some.mp ended
  have first : some (endSection s.machine.log |>.1, s.setLog (endSection s.machine.log).2) = some (cmt, u) :=
    request_returns first
  have kept := endSection_outstanding s.machine.log
  obtain ⟨_, isU⟩ := Prod.mk.inj (Option.some.inj first)
  subst isU
  cases cmt with
  | true =>
    obtain ⟨_, v, commits, rest⟩ := Program.run_bind_eq_some.mp rest
    obtain ⟨⟨log, store⟩, ran, same⟩ := Option.map_eq_some_iff.mp (request_returns commits)
    cases same
    cases request_returns rest
    have same := ((Fs.commit_records _).returned ran).outstanding
    exact ⟨rfl, rfl, same.trans kept⟩
  | false =>
    cases rest
    exact ⟨rfl, rfl, kept⟩

theorem fs_returns {r : Inodes.Request} {reply : Inodes.Reply r}
    (ran : (Calls.fs (Program.request (I := Inodes) r)).run (alone addr sb devsw p e) s = some (reply, t)) :
    ∃ m, Machine.handle sb devsw r s.machine = some (reply, m) ∧ t = { s with machine := m } := by
  obtain ⟨⟨reply', m⟩, handled, same⟩ := Option.map_eq_some_iff.mp (request_returns (r := .inodes r) ran)
  cases same
  exact ⟨m, handled, rfl⟩

/-- A turn ends with the inode locked and the operation open if and only if its chunk was refused. -/
theorem writeTurn_returns (isIp : (s.ftable f).ip = some i)
    (turned : (writeTurn f src count).run (alone addr sb devsw p e) s = some (cur, t)) :
    (Accepts sb devsw f i src count s ↔ 0 ≤ cur) ∧ Turned sb f i count cur s t := by
  obtain ⟨_, s₁, begins, turned⟩ := Program.run_bind_eq_some.mp turned
  obtain ⟨log, opens, same⟩ := Option.map_eq_some_iff.mp (request_returns begins)
  cases same
  have opened := beginOp_outstanding opens
  obtain ⟨x, _, reads, turned⟩ := Program.run_bind_eq_some.mp turned
  cases request_returns reads
  obtain ⟨ip, _, isInode, turned⟩ := Program.run_bind_eq_some.mp turned
  rw [show ((s.setLog log).ftable f).ip = some i from isIp] at isInode
  cases isInode
  obtain ⟨_, _, locks, turned⟩ := Program.run_bind_eq_some.mp turned
  obtain ⟨m, handled, rfl⟩ := fs_returns locks
  obtain ⟨⟨icache, store⟩, locked, same⟩ := Option.map_eq_some_iff.mp handled
  cases same
  obtain ⟨free, rfl, rfl⟩ := ilock_returns locked
  obtain ⟨y, _, reads, turned⟩ := Program.run_bind_eq_some.mp turned
  cases request_returns reads
  obtain ⟨r, _, writes, turned⟩ := Program.run_bind_eq_some.mp turned
  obtain ⟨m, handled, rfl⟩ := fs_returns writes
  obtain ⟨⟨⟨r', ip', log'⟩, store⟩, written, same⟩ := Option.map_eq_some_iff.mp handled
  cases same
  dsimp only [setLog] at written
  rw [Function.update_self] at written
  obtain ⟨accepts, held, all⟩ := writei_accepts (s := s) written
  have records := ((Fs.writei_records ..).returned written).outstanding
  dsimp only at records turned
  split at turned
  · next failed =>
    cases turned
    refine ⟨accepts, free, ?_, ?_, rfl, all⟩
    · rw [decide_eq_true failed]
      dsimp only
      rw [Function.update_self]
      exact held
    · rw [if_pos failed]
      exact records.trans opened
  · next fine =>
    obtain ⟨_, _, advances, turned⟩ := Program.run_bind_eq_some.mp turned
    obtain ⟨z, _, reads, sets⟩ := Program.run_bind_eq_some.mp advances
    cases request_returns reads
    cases request_returns sets
    obtain ⟨_, _, unlocks, turned⟩ := Program.run_bind_eq_some.mp turned
    obtain ⟨m, handled, rfl⟩ := fs_returns unlocks
    cases handled
    obtain ⟨_, _, ended, turned⟩ := Program.run_bind_eq_some.mp turned
    obtain ⟨icache, ftable, closes⟩ := endOp_returns ended
    cases turned
    refine ⟨accepts, free, ?_, ?_, ?_, all⟩
    · rw [icache, decide_eq_false fine]
      dsimp only [setFile, Icache.iunlock]
      rw [Function.update_self]
    · rw [closes, if_neg fine]
      dsimp only [setFile]
      omega
    · rw [ftable]
      dsimp only [setFile]
      rw [Function.update_self]
      rfl

/-! ## The loop -/

variable (addr sb devsw p e f src count) in
/-- The loop of `filewrite` comes to a turn in a state, after so many bytes. -/
inductive Comes : Int → Calls.State C n → Int → Calls.State C n → Prop
  | here {fin : Int} {s : Calls.State C n} (more : fin < count) : Comes fin s fin s
  | turn {fin cur fin' : Int} {s t u : Calls.State C n} (more : fin < count)
      (turned : (writeTurn f src count).run (alone addr sb devsw p e) s = some (cur, t)) (written : 0 ≤ cur)
      (later : Comes (fin + cur) t fin' u) : Comes fin s fin' u

/-- The lock of the inode and the number of open operations are what they were. -/
structure Released (i : Fin ninode) (s t : Calls.State C n) : Prop where
  lock : (t.machine.icache i).locked = (s.machine.icache i).locked
  outstanding : t.machine.log.outstanding = s.machine.log.outstanding

theorem not_comes {fin fin' : Int} {u : Calls.State C n} (done : ¬ fin < count) :
    ¬ Comes addr sb devsw p e f src count fin s fin' u := by
  intro comes
  cases comes with
  | here more => exact done more
  | turn more => exact done more

theorem comes_turn {fin : Int} {ok : Calls.State C n → Prop} (more : fin < count)
    (turned : (writeTurn f src count).run (alone addr sb devsw p e) s = some (cur, t)) (written : 0 ≤ cur)
    (here : ok s) :
    (∀ fin' u, Comes addr sb devsw p e f src count fin s fin' u → ok u) ↔
      ∀ fin' u, Comes addr sb devsw p e f src count (fin + cur) t fin' u → ok u := by
  refine ⟨fun all fin' u comes => all fin' u (.turn more turned written comes), fun all fin' u comes => ?_⟩
  cases comes with
  | here => exact here
  | turn _ again _ later =>
    cases turned.symm.trans again
    exact all fin' u later

theorem writeTurns_failed {turns : Nat} {fin r : Int} (isIp : (s.ftable f).ip = some i)
    (ran : (writeTurns f src count turns fin).run (alone addr sb devsw p e) s = some (r, t)) :
    Released i s t ↔ ∀ fin' u, Comes addr sb devsw p e f src count fin s fin' u →
      Accepts sb devsw f i src count u := by
  induction turns generalizing fin s with
  | zero =>
    unfold writeTurns at ran
    split at ran
    · cases ran
    · next done =>
      cases ran
      exact iff_of_true ⟨rfl, rfl⟩ fun fin' u comes => absurd comes (not_comes done)
  | succ turns ih =>
    rw [writeTurns_succ] at ran
    split at ran
    · next more =>
      obtain ⟨cur, u, turned, rest⟩ := Program.run_bind_eq_some.mp ran
      obtain ⟨accepts, free, held, outstanding, ip, _⟩ := writeTurn_returns isIp turned
      by_cases failed : cur < 0
      · rw [if_pos failed] at rest
        cases rest
        refine iff_of_false ?_ fun all => ?_
        · rintro ⟨lock, _⟩
          rw [held, free, decide_eq_true failed] at lock
          cases lock
        · have fine := accepts.mp (all fin s (.here more))
          omega
      · rw [if_neg failed] at rest outstanding
        rw [comes_turn more turned (not_lt.mp failed) (accepts.mpr (not_lt.mp failed)), ← ih (ip.trans isIp) rest]
        rw [decide_eq_false failed] at held
        refine ⟨fun released => ⟨?_, ?_⟩, fun released => ⟨?_, ?_⟩⟩
        · rw [released.lock, free, held]
        · rw [released.outstanding, outstanding, add_zero]
        · rw [released.lock, free, held]
        · rw [released.outstanding, outstanding, add_zero]
    · next done =>
      cases ran
      exact iff_of_true ⟨rfl, rfl⟩ fun fin' u comes => absurd comes (not_comes done)

/-- A call of `filewrite` that returns -1 has given back the lock and ended its operations if and only if `writei` has
accepted every chunk. -/
theorem filewrite_failed_iff {turns : Nat} (isIp : (s.ftable f).ip = some i)
    (ran : (filewrite turns f src count).run (alone addr sb devsw p e) s = some (-1, t)) :
    Released i s t ↔ ∀ fin u, Comes addr sb devsw p e f src count 0 s fin u → Accepts sb devsw f i src count u := by
  obtain ⟨x, _, reads, rest⟩ := Program.run_bind_eq_some.mp ran
  cases request_returns reads
  split at rest
  · cases rest
  · exact writeTurns_failed isIp rest

/-! ## A full file -/

def firstAlone : (r : (Calls nproc).Request) → Calls.State Bool nproc →
    Option ((Calls nproc).Reply r × Calls.State Bool nproc) :=
  alone (fun p => 4096 + p.val.toUInt64) Mkfs.superblock Fs.noDevices firstProcess ⟨false, none⟩

def fullInode : MemInode := { Fs.emptyFile 9 fun _ => 0 with locked := false, size := 71680 }

def fullFile : Calls.State Bool nproc where
  kernel := forkedKernel
  ofile _ _ := none
  cwd _ := none
  ftable f := if f = sharedFile then ⟨.inode, 1, true, true, some sharedInode, 71680⟩ else File.unused
  machine := ⟨Function.update Icache.init sharedInode fullInode, Fs.emptyLog, Fs.usedStore⟩
  call _ := none

theorem filewrite_failed_iff_negative : Released sharedInode fullFile fullFile ↔
    ∀ fin u, Comes (fun p => 4096 + p.val.toUInt64) Mkfs.superblock Fs.noDevices firstProcess ⟨false, none⟩ sharedFile
      (fun _ => 7) (-1) 0 fullFile fin u → Accepts Mkfs.superblock Fs.noDevices sharedFile sharedInode
      (fun _ => 7) (-1) u := by
  have ran : (filewrite 0 sharedFile (fun _ => 7) (-1)).run firstAlone fullFile = some (-1, fullFile) := rfl
  exact filewrite_failed_iff rfl ran

/-- A write at the end of the largest file leaves the inode locked. -/
theorem filewrite_keeps_lock : ¬ ∀ (turns : Nat) (f : Fin nfile) (i : Fin ninode) (src : Nat → UInt8) (count : Int)
    (s t : Calls.State Bool nproc), (s.ftable f).ip = some i →
    (filewrite turns f src count).run firstAlone s = some (-1, t) → Released i s t := by
  intro always
  have fails : ((filewrite 1 sharedFile (fun _ => 7) 1).run firstAlone fullFile).any (fun (r, t) =>
      r = -1 ∧ (t.machine.icache sharedInode).locked = true) = true := by
    decide +kernel
  obtain ⟨⟨r, t⟩, ran, found⟩ := (Option.any_eq_true _ _).mp fails
  obtain ⟨rfl, locked⟩ := of_decide_eq_true found
  have free : (fullFile.machine.icache sharedInode).locked = false := by decide +kernel
  have released := (always 1 sharedFile sharedInode (fun _ => 7) 1 fullFile t rfl ran).lock
  rw [locked, free] at released
  cases released

end Writing

end Xv6
