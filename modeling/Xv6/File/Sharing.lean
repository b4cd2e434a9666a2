import Xv6.File.Transfers

/-! Processes that share one open file.

The offset is read and advanced while the inode is locked, so what the calls move follows each
other in the file. A process that has the lock knows the offset; when it has moved bytes, the
offset lacks the last transfer until it is advanced.
-/

set_option autoImplicit false

namespace Xv6.Sharing

open Library Syscall Process Calls.State Transfer

variable {C : Type} {n : Nat}

inductive Place where
  | user
  /-- has the inode locked, with the offset of the file -/
  | locked (off : UInt64)
  /-- has moved a number of bytes from the offset on -/
  | moved (off : UInt64) (r : Nat)

abbrev Noted (C : Type) (n : Nat) : Type := Calls.State C n × List Transfer

/-- All descriptors are for file `f`, which is open on the inode in entry `i` of the cache. -/
structure Fixed (f : Fin nfile) (i : Fin ninode) (s : Calls.State C n) : Prop where
  descriptors : ∀ p fd g, s.ofile p fd = some g → g = f
  type : (s.ftable f).type = .inode
  ip : (s.ftable f).ip = some i
  valid : (s.machine.icache i).valid = true
  notDev : (s.machine.icache i).type ≠ T_DEV

def Fits (f : Fin nfile) (i : Fin ninode) (start : Nat) (s : Noted C n) : Place → Prop
  | .user => True
  | .locked off => (s.1.machine.icache i).locked = true ∧ (s.1.ftable f).off = off ∧ off.toNat = reached start s.2
  | .moved off r => (s.1.machine.icache i).locked = true ∧ (s.1.ftable f).off = off ∧ off.toNat + r < 2 ^ 64 ∧
      ∃ earlier x, s.2 = earlier ++ [x] ∧ x.count = r ∧ off.toNat = reached start earlier

/-- The invariant, with the contents as far as `intact` says that they were there. -/
structure Shares (sb : Superblock) (f : Fin nfile) (i : Fin ninode) (start : Nat) (intact : Prop) (s : Noted C n)
    (place : Fin n → Place) : Prop where
  fixed : Fixed f i s.1
  alone : ∀ p q, place p ≠ .user → place q ≠ .user → p = q
  fits : ∀ p, Fits f i start s (place p)
  settled : (∀ p, place p = .user) → (s.1.ftable f).off.toNat = reached start s.2
  contiguous : Contiguous start s.2
  stored : intact → Stored sb i s.1.machine s.2

variable [DecidableEq C] {addr : Fin n → UInt64} {sb : Superblock} {devsw : Fin ndev → Devsw UInt32} {f : Fin nfile}
  {i : Fin ninode} {start : Nat} {intact : Prop} {s s' : Noted C n} {place : Fin n → Place} {p : Fin n} {e : Choice C}
  {here : Place}

/-! ## Steps -/

omit [DecidableEq C] in
theorem Shares.neutral (shares : Shares sb f i start intact s place) (fixed : Fixed f i s'.1)
    (off : (s'.1.ftable f).off = (s.1.ftable f).off)
    (locked : (s'.1.machine.icache i).locked = (s.1.machine.icache i).locked) (record : s'.2 = s.2)
    (stored : Stored sb i s.1.machine s.2 → Stored sb i s'.1.machine s.2) : Shares sb f i start intact s' place where
  fixed := fixed
  alone := shares.alone
  fits q := by
    have fits := shares.fits q
    cases at_ : place q with
    | user => trivial
    | locked c =>
      rw [at_] at fits
      obtain ⟨held, isOff, sum⟩ := fits
      exact ⟨locked.trans held, off.trans isOff, record ▸ sum⟩
    | moved c r =>
      rw [at_] at fits
      obtain ⟨held, isOff, wraps, earlier, x, isRecord, count, sum⟩ := fits
      exact ⟨locked.trans held, off.trans isOff, wraps, earlier, x, record.trans isRecord, count, sum⟩
  settled idle := by
    rw [off, record]
    exact shares.settled idle
  contiguous := record ▸ shares.contiguous
  stored holds := record ▸ stored (shares.stored holds)

omit [DecidableEq C] in
theorem Shares.move {l : Place} (shares : Shares sb f i start intact s place)
    (others : ∀ q, q ≠ p → place q = .user) (fixed : Fixed f i s'.1) (fits : Fits f i start s' l)
    (settled : l = .user → (s'.1.ftable f).off.toNat = reached start s'.2) (contiguous : Contiguous start s'.2)
    (stored : Stored sb i s.1.machine s.2 → Stored sb i s'.1.machine s'.2) :
    Shares sb f i start intact s' (Function.update place p l) where
  fixed := fixed
  alone := by
    have only : ∀ q, Function.update place p l q ≠ .user → q = p := by
      intro q busy
      by_contra other
      exact busy (by rw [Function.update_of_ne other, others q other])
    intro q r busy busy'
    rw [only q busy, only r busy']
  fits q := by
    by_cases same : q = p
    · subst same
      rw [Function.update_self]
      exact fits
    · rw [Function.update_of_ne same, others q same]
      trivial
  settled idle := settled (by
    have mine := idle p
    rwa [Function.update_self] at mine)
  contiguous := contiguous
  stored holds := stored (shares.stored holds)

omit [DecidableEq C] in
theorem Shares.others (shares : Shares sb f i start intact s place) (busy : place p ≠ .user) (q : Fin n)
    (other : q ≠ p) :
    place q = .user := by
  by_contra busy'
  exact other (shares.alone q p busy' busy)

omit [DecidableEq C] in
theorem Shares.unlocked (shares : Shares sb f i start intact s place)
    (free : (s.1.machine.icache i).locked = false) (q : Fin n) : place q = .user := by
  have fits := shares.fits q
  cases at_ : place q with
  | user => rfl
  | locked off =>
    rw [at_] at fits
    exact absurd (fits.1.symm.trans free) (by decide)
  | moved off r =>
    rw [at_] at fits
    exact absurd (fits.1.symm.trans free) (by decide)

variable (addr sb devsw) in
abbrev recorded : Threads (Fin n) Call (Choice C) (Process.Action C) (Calls n) (Noted C n) :=
  (rules addr sb devsw).recording noteOf

theorem noted_answer {r : Calls.Request n} {reply : (Calls n).Reply r}
    (answered : (recorded addr sb devsw).answer p e r s = some (reply, s')) :
    s.1.kernel.table.cpu e.cpu = some p ∧ perform addr sb devsw p e r s.1 = some (reply, s'.1) ∧
      s'.2 = s.2 ++ (noteOf r reply).toList := by
  obtain ⟨⟨_, t⟩, performed, same⟩ := Option.map_eq_some_iff.mp answered
  cases same
  obtain ⟨on, performs⟩ := Descriptors.answer_running performed
  exact ⟨on, performs, rfl⟩

/-! ## Requests -/

/-- Requests that concern neither the offset nor the lock, and give nobody another file. -/
def Neutral (f : Fin nfile) : Calls.Request n → Prop
  | .inodes (.idup _) | .beginOp | .endSection | .commit | .committed | .filedup _ | .file _ | .ofile | .cwd |
      .procAlloc
  | .setParent | .setChildCwd .. | .forkReady | .wait | .panic => True
  | .fdalloc g => g = f
  | .setChildFile _ _ g => ∀ h, g = some h → h = f
  | _ => False

omit [DecidableEq C] in
theorem Fixed.setOfile {s : Calls.State C n} (fixed : Fixed f i s) (q : Fin n) (fd : Fin nofile)
    {g : Option (Fin nfile)} (isF : ∀ h, g = some h → h = f) : Fixed f i (s.setOfile q fd g) := by
  refine ⟨fun p fd' h own => ?_, fixed.type, fixed.ip, fixed.valid, fixed.notDev⟩
  by_cases same : p = q
  · subst same
    rw [Descriptors.setOfile_self] at own
    split at own
    · exact isF h own
    · exact fixed.descriptors p fd' h own
  · have other : (s.setOfile q fd g).ofile p = s.ofile p := Function.update_of_ne same ..
    rw [other] at own
    exact fixed.descriptors p fd' h own

omit [DecidableEq C] in
theorem Fixed.allocated {s : Calls.State C n} (fixed : Fixed f i s) (kernel : Process.Kernel C n) (child : Fin n) :
    Fixed f i (s.allocated kernel child) := by
  refine ⟨fun p fd h own => ?_, fixed.type, fixed.ip, fixed.valid, fixed.notDev⟩
  by_cases same : p = child
  · subst same
    simp [Calls.State.allocated] at own
  · have other : (s.allocated kernel child).ofile p = s.ofile p := Function.update_of_ne same ..
    rw [other] at own
    exact fixed.descriptors p fd h own

omit [DecidableEq C] in
theorem Shares.aside {t : Calls.State C n} {notes : List Transfer} (shares : Shares sb f i start intact s place)
    (ofile : t.ofile = s.1.ofile) (ftable : t.ftable = s.1.ftable) (icache : t.machine.icache = s.1.machine.icache)
    (notes_eq : notes = s.2) (stored : Stored sb i s.1.machine s.2 → Stored sb i t.machine s.2) :
    Shares sb f i start intact (t, notes) place := by
  refine shares.neutral ⟨?_, ?_, ?_, ?_, ?_⟩ ?_ ?_ notes_eq stored
  · rw [ofile]
    exact shares.fixed.descriptors
  · rw [ftable]
    exact shares.fixed.type
  · rw [ftable]
    exact shares.fixed.ip
  · rw [icache]
    exact shares.fixed.valid
  · rw [icache]
    exact shares.fixed.notDev
  · rw [ftable]
  · rw [icache]

omit [DecidableEq C] in
theorem noteOf_neutral {r : Calls.Request n} (neutral : Neutral f r) (reply : (Calls n).Reply r) :
    noteOf r reply = none := by
  cases r with
  | inodes r =>
    cases r with
    | readi | writei => exact neutral.elim
    | _ => rfl
  | _ => rfl

theorem idup_entry (c : Icache) (j k : Fin ninode) : ∃ ref, c.idup j k = { c k with ref } := by
  by_cases same : k = j
  · subst same
    exact ⟨_, Function.update_self ..⟩
  · exact ⟨_, Function.update_of_ne same ..⟩

theorem filedup_entry (t : Ftable) (g h : Fin nfile) : ∃ ref, t.filedup g h = { t h with ref } := by
  by_cases same : h = g
  · subst same
    exact ⟨_, Function.update_self ..⟩
  · exact ⟨_, Function.update_of_ne same ..⟩

omit [DecidableEq C] in
theorem Shares.idup (shares : Shares sb f i start intact s place) (j : Fin ninode) :
    Shares sb f i start intact
      ({ s.1 with machine := { s.1.machine with icache := s.1.machine.icache.idup j } }, s.2) place := by
  obtain ⟨ref, entry⟩ := idup_entry s.1.machine.icache j i
  refine shares.neutral ⟨shares.fixed.descriptors, shares.fixed.type, shares.fixed.ip, ?_, ?_⟩ rfl ?_ rfl
    fun stored => stored.congr rfl ?_ ?_ ?_ rfl rfl
  · dsimp only
    rw [entry]
    exact shares.fixed.valid
  · dsimp only
    rw [entry]
    exact shares.fixed.notDev
  all_goals
    dsimp only
    rw [entry]

omit [DecidableEq C] in
theorem Shares.filedup (shares : Shares sb f i start intact s place) (g : Fin nfile) :
    Shares sb f i start intact ({ s.1 with ftable := s.1.ftable.filedup g }, s.2) place := by
  obtain ⟨ref, entry⟩ := filedup_entry s.1.ftable g f
  refine shares.neutral ⟨shares.fixed.descriptors, ?_, ?_, shares.fixed.valid, shares.fixed.notDev⟩ ?_ rfl rfl id
  · dsimp only
    rw [entry]
    exact shares.fixed.type
  · dsimp only
    rw [entry]
    exact shares.fixed.ip
  · dsimp only
    rw [entry]

theorem Shares.answer_neutral {r : Calls.Request n} {reply : (Calls n).Reply r}
    (shares : Shares sb f i start intact s place) (neutral : Neutral f r)
    (answered : (recorded addr sb devsw).answer p e r s = some (reply, s')) :
    Shares sb f i start intact s' place := by
  obtain ⟨on, performed, record⟩ := noted_answer answered
  rw [noteOf_neutral neutral, Option.toList_none, List.append_nil] at record
  obtain ⟨t, notes⟩ := s'
  dsimp only at performed record
  subst record
  have bySection : ∀ a, (section_ addr a s.1).map ((), ·) = some ((), t) →
      Shares sb f i start intact (t, s.2) place := by
    intro a performed
    obtain ⟨_, isState⟩ := Descriptors.section_answered performed
    rw [isState]
    exact shares.aside rfl rfl rfl rfl id
  have byLog : ∀ log : Log, log.lh = s.1.machine.log.lh → log.start = s.1.machine.log.start →
      Shares sb f i start intact (s.1.setLog log, s.2) place := by
    intro log empty begins
    exact shares.aside rfl rfl rfl rfl fun stored => stored.congr rfl rfl rfl rfl empty begins
  cases r with
  | inodes r =>
    cases r with
    | idup j =>
      cases performed
      exact shares.idup j
    | _ => exact neutral.elim
  | beginOp =>
    obtain ⟨log, began, same⟩ := Option.map_eq_some_iff.mp performed
    cases same
    unfold Calls.State.beginOp at began
    split at began
    · cases began
    · cases began
      exact byLog _ rfl rfl
  | endSection =>
    cases performed
    unfold endSection
    by_cases last : s.1.machine.log.outstanding - 1 = 0
    · simp only [last, if_true]
      exact byLog _ rfl rfl
    · simp only [last, if_false]
      exact byLog _ rfl rfl
  | commit =>
    obtain ⟨⟨log, store⟩, commits, same⟩ := Option.map_eq_some_iff.mp performed
    cases same
    exact shares.aside rfl rfl rfl rfl fun stored => stored.commit commits
  | committed =>
    cases performed
    exact byLog _ rfl rfl
  | filedup g =>
    cases performed
    exact shares.filedup g
  | file | ofile | cwd | setChildCwd =>
    cases performed
    exact shares.aside rfl rfl rfl rfl id
  | fdalloc g =>
    obtain rfl : g = f := neutral
    rcases Descriptors.fdalloc_performed performed with ⟨_, rfl⟩ | ⟨fd, _, _, rfl⟩
    · exact shares
    · exact shares.neutral (shares.fixed.setOfile p fd fun h same => (Option.some.inj same).symm) rfl rfl rfl id
  | procAlloc =>
    simp only [Calls.State.perform, Option.bind_eq_bind, Option.bind_eq_some_iff] at performed
    obtain ⟨kernel, _, child, _, same⟩ := performed
    cases same
    exact shares.neutral (shares.fixed.allocated kernel _) rfl rfl rfl id
  | setChildFile child fd g =>
    cases performed
    exact shares.neutral (shares.fixed.setOfile child fd neutral) rfl rfl rfl id
  | setParent => exact bySection _ performed
  | forkReady => exact bySection _ performed
  | wait => exact bySection _ performed
  | panic => cases performed
  | _ => exact neutral.elim

theorem Shares.ilock {reply : Unit} (shares : Shares sb f i start intact s place)
    (answered : (recorded addr sb devsw).answer p e (.inodes (.ilock i)) s = some (reply, s')) :
    Shares sb f i start intact s' (Function.update place p (.locked (s.1.ftable f).off)) := by
  obtain ⟨on, performed, record⟩ := noted_answer answered
  obtain ⟨t, notes⟩ := s'
  obtain rfl : notes = s.2 := by simpa [noteOf] using record
  obtain ⟨⟨_, m⟩, handled, same⟩ := Option.map_eq_some_iff.mp performed
  cases same
  obtain ⟨⟨icache, store⟩, locks, same⟩ := Option.map_eq_some_iff.mp handled
  cases same
  unfold Fs.ilock at locks
  split at locks
  · cases locks
  · next free =>
    replace free : (s.1.machine.icache i).locked = false := by simpa using free
    rw [if_pos shares.fixed.valid] at locks
    cases locks
    have idle := shares.unlocked free
    have here : ∀ g : MemInode, Function.update s.1.machine.icache i g i = g := fun g => Function.update_self ..
    refine shares.move (fun q _ => idle q) ⟨shares.fixed.descriptors, shares.fixed.type, shares.fixed.ip, ?_, ?_⟩
      ⟨?_, rfl, shares.settled idle⟩ (fun user => by cases user) shares.contiguous fun stored =>
      stored.congr rfl ?_ ?_ ?_ rfl rfl
    · dsimp only
      rw [here]
      exact shares.fixed.valid
    · dsimp only
      rw [here]
      exact shares.fixed.notDev
    · dsimp only
      rw [here]
    all_goals
      dsimp only
      rw [here]

theorem Shares.iunlock {reply : Unit} {off : UInt64} (shares : Shares sb f i start intact s place)
    (at_ : place p = .locked off)
    (answered : (recorded addr sb devsw).answer p e (.inodes (.iunlock i)) s = some (reply, s')) :
    Shares sb f i start intact s' (Function.update place p .user) := by
  obtain ⟨on, performed, record⟩ := noted_answer answered
  obtain ⟨t, notes⟩ := s'
  obtain rfl : notes = s.2 := by simpa [noteOf] using record
  cases performed
  have fits := shares.fits p
  rw [at_] at fits
  obtain ⟨_, isOff, sum⟩ := fits
  have here : s.1.machine.icache.iunlock i i = { s.1.machine.icache i with locked := false } :=
    Function.update_self ..
  refine shares.move (shares.others (by rw [at_]; simp))
    ⟨shares.fixed.descriptors, shares.fixed.type, shares.fixed.ip, ?_, ?_⟩
    trivial (fun _ => isOff ▸ sum) shares.contiguous fun stored => stored.congr rfl ?_ ?_ ?_ rfl rfl
  · dsimp only
    rw [here]
    exact shares.fixed.valid
  · dsimp only
    rw [here]
    exact shares.fixed.notDev
  all_goals
    dsimp only
    rw [here]

def Place.after (off : UInt64) (r : Int) : Place := if r > 0 then .moved off r.toNat else .locked off

omit [DecidableEq C] in
theorem Shares.transfer {off : UInt64} {r : Int} {data : Nat → UInt8} {m : Machine} {ip : MemInode}
    (shares : Shares sb f i start intact s place) (at_ : place p = .locked off)
    (icache : m.icache = Function.update s.1.machine.icache i ip)
    (valid : ip.valid = (s.1.machine.icache i).valid) (type : ip.type = (s.1.machine.icache i).type)
    (locked : ip.locked = (s.1.machine.icache i).locked) (wraps : off.toNat + r.toNat < 2 ^ 64)
    (stored : Stored sb i s.1.machine s.2 → Stored sb i m (s.2 ++ (ofReply off r data).toList)) :
    Shares sb f i start intact ({ s.1 with machine := m }, s.2 ++ (ofReply off r data).toList)
      (Function.update place p (.after off r)) := by
  have fits := shares.fits p
  rw [at_] at fits
  obtain ⟨held, isOff, sum⟩ := fits
  have here : m.icache i = ip := by rw [icache, Function.update_self]
  have fixed : Fixed f i { s.1 with machine := m } := by
    refine ⟨shares.fixed.descriptors, shares.fixed.type, shares.fixed.ip, ?_, ?_⟩
    · dsimp only
      rw [here, valid]
      exact shares.fixed.valid
    · dsimp only
      rw [here, type]
      exact shares.fixed.notDev
  have stillHeld : (m.icache i).locked = true := by rw [here, locked, held]
  refine shares.move (shares.others (by rw [at_]; simp)) fixed ?_ ?_ ?_ stored
  · unfold Place.after ofReply
    split
    · exact ⟨stillHeld, isOff, wraps, s.2, _, rfl, rfl, sum⟩
    · refine ⟨stillHeld, isOff, ?_⟩
      simpa using sum
  · unfold Place.after
    split <;> exact fun user => by cases user
  · unfold ofReply
    split
    · exact shares.contiguous.append sum
    · simpa using shares.contiguous

theorem Shares.readi {off count : UInt64} {dst : Nat → UInt8} {reply : Int × (Nat → UInt8)}
    (shares : Shares sb f i start intact s place) (at_ : place p = .locked off)
    (answered : (recorded addr sb devsw).answer p e (.inodes (.readi i dst off count)) s = some (reply, s')) :
    Shares sb f i start intact s' (Function.update place p (.after off reply.1)) := by
  obtain ⟨on, performed, record⟩ := noted_answer answered
  obtain ⟨t, notes⟩ := s'
  obtain rfl : notes = _ := record
  obtain ⟨⟨_, m⟩, handled, same⟩ := Option.map_eq_some_iff.mp performed
  cases same
  obtain ⟨⟨⟨r, data, ip, log⟩, store⟩, reads, same⟩ := Option.map_eq_some_iff.mp handled
  cases same
  obtain ⟨fields, value⟩ := Fs.readi_fields devsw shares.fixed.notDev reads
  refine shares.transfer at_ rfl ?_ ?_ ?_ ?_ fun stored => stored.readi shares.fixed.notDev reads
  · rw [fields]
  · rw [fields]
  · rw [fields]
  · have low := off.toNat_lt
    rcases value with rfl | ⟨_, wraps, rfl⟩
    · exact low
    · change off.toNat + min _ _ < _
      omega

theorem Shares.writei {off count : UInt64} {src : Nat → UInt8} {reply : Int}
    (shares : Shares sb f i start intact s place) (at_ : place p = .locked off)
    (answered : (recorded addr sb devsw).answer p e (.inodes (.writei i src off count)) s = some (reply, s')) :
    Shares sb f i start intact s' (Function.update place p (.after off reply)) ∧
      (reply = -1 ∨ reply = count.toNat) := by
  obtain ⟨on, performed, record⟩ := noted_answer answered
  obtain ⟨t, notes⟩ := s'
  obtain rfl : notes = _ := record
  obtain ⟨⟨_, m⟩, handled, same⟩ := Option.map_eq_some_iff.mp performed
  cases same
  obtain ⟨⟨⟨r, ip, log⟩, store⟩, writes, same⟩ := Option.map_eq_some_iff.mp handled
  cases same
  obtain ⟨fields, value⟩ := Fs.writei_fields devsw shares.fixed.notDev writes
  have fits := shares.fits p
  rw [at_] at fits
  obtain ⟨_, _, sum⟩ := fits
  refine ⟨shares.transfer at_ rfl ?_ ?_ ?_ ?_ fun stored => stored.writei shares.fixed.notDev
    (fun x member => ?_) writes, ?_⟩
  · rw [fields]
  · rw [fields]
  · rw [fields]
  · have low := off.toNat_lt
    rcases value with ⟨_, rfl⟩ | ⟨accepted, rfl⟩
    · exact low
    · exact accepted.2.1
  · rw [sum]
    exact (shares.contiguous.within member).2
  · rcases value with ⟨_, rfl⟩ | ⟨_, rfl⟩
    · exact .inl rfl
    · exact .inr rfl

theorem toNat_ofInt {r : Int} (low : 0 ≤ r) (high : r.toNat < 2 ^ 64) : (UInt64.ofInt r).toNat = r.toNat := by
  rw [UInt64.ofInt, UInt64.toNat_ofNat']
  omega

theorem Shares.setOff {off : UInt64} {r : Int} {reply : Unit} (shares : Shares sb f i start intact s place)
    (at_ : place p = .moved off r.toNat) (some : r > 0)
    (answered : (recorded addr sb devsw).answer p e (.setOff f (off + UInt64.ofInt r)) s = Option.some (reply, s')) :
    Shares sb f i start intact s' (Function.update place p (.locked (off + UInt64.ofInt r))) := by
  obtain ⟨on, performed, record⟩ := noted_answer answered
  obtain ⟨t, notes⟩ := s'
  obtain rfl : notes = s.2 := by simpa [noteOf] using record
  cases performed
  have fits := shares.fits p
  rw [at_] at fits
  obtain ⟨held, isOff, wraps, earlier, x, isRecord, count, sum⟩ := fits
  have here : ∀ y : File, Function.update s.1.ftable f y f = y := fun y => Function.update_self ..
  have value : (off + UInt64.ofInt r).toNat = off.toNat + r.toNat := by
    rw [UInt64.toNat_add, toNat_ofInt some.le (by omega)]
    omega
  refine shares.move (shares.others (by rw [at_]; simp))
    ⟨shares.fixed.descriptors, ?_, ?_, shares.fixed.valid, shares.fixed.notDev⟩
    ⟨held, ?_, ?_⟩ (fun user => by cases user) shares.contiguous id
  · dsimp only
    rw [here]
    exact shares.fixed.type
  · dsimp only
    rw [here]
    exact shares.fixed.ip
  · dsimp only
    rw [here]
  · rw [value, sum, isRecord, reached_append, count]

/-! ## Calls -/

def Place.Resting : Place → Prop
  | .user | .locked _ => True
  | .moved .. => False

section
variable {A B : Type} {post : B → Place → Prop}

variable (C addr sb devsw f i start intact p) in
abbrev Keeps (post : A → Place → Prop) (q : Program (Calls n) A) (here : Place) : Prop :=
  q.Keeps (@recorded C n _ addr sb devsw).answer (@Shares C n sb f i start intact) p post here

theorem neutral_then {q : Program (Calls n) A} {k : A → Program (Calls n) B} (issues : q.Issues (Neutral f))
    (next : ∀ value, Keeps C addr sb devsw f i start intact p post (k value) here) :
    Keeps C addr sb devsw f i start intact p post (q >>= k) here := by
  refine Program.Keeps.follow (issues.keeps ?_) next
  intro r neutral e s place reply s' shares _ answered
  exact shares.answer_neutral neutral answered

-- A request that is answered from the state, which it does not change.
theorem look_then {r : Calls.Request n} {k : (Calls n).Reply r → Program (Calls n) B} (neutral : Neutral f r)
    (next : ∀ (e : Choice C) (s : Noted C n) place reply t, Shares sb f i start intact s place → place p = here →
      perform addr sb devsw p e r s.1 = some (reply, t) →
      Keeps C addr sb devsw f i start intact p post (k reply) here) :
    Keeps C addr sb devsw f i start intact p post (Program.request (I := Calls n) r >>= k) here := by
  refine Program.Keeps.request_bind fun e s place reply s' shares at_ answered => ⟨here, ?_, ?_⟩
  · rw [← at_, Function.update_eq_self]
    exact shares.answer_neutral neutral answered
  · exact next e s place reply s'.1 shares at_ (noted_answer answered).2.1

theorem file_then {k : File → Program (Calls n) B}
    (next : ∀ x : File, x.type = .inode → x.ip = some i → (∀ off, here = .locked off → x.off = off) →
      (∀ off r, here = .moved off r → x.off = off) → Keeps C addr sb devsw f i start intact p post (k x) here) :
    Keeps C addr sb devsw f i start intact p post (Calls.file f >>= k) here := by
  refine look_then trivial fun e s place reply t shares at_ performed => ?_
  cases performed
  have fits := shares.fits p
  refine next _ shares.fixed.type shares.fixed.ip ?_ ?_
  · rintro off rfl
    rw [at_] at fits
    exact fits.2.1
  · rintro off r rfl
    rw [at_] at fits
    exact fits.2.1

theorem ofile_then {k : (Fin nofile → Option (Fin nfile)) → Program (Calls n) B}
    (next : ∀ slots : Fin nofile → Option (Fin nfile), (∀ fd g, slots fd = some g → g = f) →
      Keeps C addr sb devsw f i start intact p post (k slots) here) :
    Keeps C addr sb devsw f i start intact p post (Calls.ofile >>= k) here := by
  refine look_then trivial fun e s place reply t shares at_ performed => ?_
  cases performed
  exact next _ (shares.fixed.descriptors p)

theorem ilock_then {k : Unit → Program (Calls n) B}
    (next : ∀ off, Keeps C addr sb devsw f i start intact p post (k ()) (.locked off)) :
    Keeps C addr sb devsw f i start intact p post (Calls.fs (Inodes.ilock i) >>= k) here := by
  refine Program.Keeps.request_bind fun e s place reply s' shares at_ answered => ?_
  exact ⟨_, shares.ilock answered, next _⟩

theorem iunlock_then {off : UInt64} {k : Unit → Program (Calls n) B}
    (next : Keeps C addr sb devsw f i start intact p post (k ()) .user) :
    Keeps C addr sb devsw f i start intact p post (Calls.fs (Inodes.iunlock i) >>= k) (.locked off) := by
  refine Program.Keeps.request_bind fun e s place reply s' shares at_ answered => ?_
  exact ⟨_, shares.iunlock at_ answered, next⟩

theorem issues_beginOp : (Calls.beginOp : Program (Calls n) Unit).Issues (Neutral f) := Program.issues_request trivial

theorem issues_filedup (g : Fin nfile) : (Calls.filedup g : Program (Calls n) Unit).Issues (Neutral f) :=
  Program.issues_request trivial

theorem issues_cwd : (Calls.cwd : Program (Calls n) _).Issues (Neutral f) := Program.issues_request trivial

theorem issues_idup (dir : Fin ninode) : (Calls.fs (Inodes.idup dir) : Program (Calls n) Unit).Issues (Neutral f) :=
  ⟨trivial, fun _ => trivial⟩

theorem issues_endOp : (Calls.endOp : Program (Calls n) Unit).Issues (Neutral f) := by
  refine (Program.issues_request trivial).bind fun cmt => ?_
  cases cmt with
  | true => exact (Program.issues_request trivial).bind fun _ => Program.issues_request trivial
  | false => trivial

theorem advance_then {off : UInt64} {r : Int} {k : Unit → Program (Calls n) B} (some : r > 0)
    (next : ∀ off', Keeps C addr sb devsw f i start intact p post (k ()) (.locked off')) :
    Keeps C addr sb devsw f i start intact p post (Calls.advance f r >>= k) (.moved off r.toNat) := by
  unfold Calls.advance
  rw [bind_assoc]
  refine file_then fun x _ _ _ isOff => ?_
  rw [isOff off _ rfl]
  refine Program.Keeps.request_bind fun e s place reply s' shares at_ answered => ?_
  exact ⟨_, shares.setOff at_ some answered, next _⟩

theorem readi_then {off count : UInt64} {dst : Nat → UInt8} {k : Int × (Nat → UInt8) → Program (Calls n) B}
    (next : ∀ reply : Int × (Nat → UInt8),
      Keeps C addr sb devsw f i start intact p post (k reply) (.after off reply.1)) :
    Keeps C addr sb devsw f i start intact p post (Calls.fs (Inodes.readi i dst off count) >>= k) (.locked off) := by
  refine Program.Keeps.request_bind fun e s place reply s' shares at_ answered => ?_
  exact ⟨_, shares.readi at_ answered, next reply⟩

theorem writei_then {off count : UInt64} {src : Nat → UInt8} {k : Int → Program (Calls n) B}
    (next : ∀ reply : Int, reply = -1 ∨ reply = count.toNat →
      Keeps C addr sb devsw f i start intact p post (k reply) (.after off reply)) :
    Keeps C addr sb devsw f i start intact p post (Calls.fs (Inodes.writei i src off count) >>= k) (.locked off) := by
  refine Program.Keeps.request_bind fun e s place reply s' shares at_ answered => ?_
  obtain ⟨shares', value⟩ := shares.writei at_ answered
  exact ⟨_, shares', next reply value⟩

theorem advanceRead_then {off : UInt64} {r : Int} {k : Unit → Program (Calls n) B}
    (next : ∀ off', Keeps C addr sb devsw f i start intact p post (k ()) (.locked off')) :
    Keeps C addr sb devsw f i start intact p post (Calls.advanceRead f r >>= k) (.after off r) := by
  unfold Calls.advanceRead Place.after
  split
  · next some => exact advance_then some next
  · exact next off

theorem fileread_keeps (dst : Nat → UInt8) (count : Int) :
    Keeps C addr sb devsw f i start intact p (fun _ there => there.Resting) (Calls.fileread f dst count) here := by
  unfold Calls.fileread
  refine file_then fun x type ip _ _ => ?_
  rw [if_neg (not_not.mpr type), ip]
  refine ilock_then fun off => file_then fun y _ _ isOff _ => ?_
  rw [isOff off rfl]
  refine readi_then fun reply => advanceRead_then fun off' => iunlock_then ?_
  trivial

theorem chunkOf_le {count : Int} (most : count ≤ Calls.lim) : Calls.chunkOf count = count := if_neg (by omega)

theorem writeTurns_keeps (src : Nat → UInt8) {count : Int} (most : count ≤ Calls.lim) (turns : Nat)
    (resting : here.Resting) :
    Keeps C addr sb devsw f i start intact p (fun _ there => there.Resting)
      (Calls.writeTurns f src count turns 0) here := by
  cases turns with
  | zero =>
    unfold Calls.writeTurns
    split
    · exact fun e s place reply => Empty.elim reply
    · exact resting
  | succ turns =>
    unfold Calls.writeTurns
    split
    · next more =>
      refine neutral_then issues_beginOp fun _ => file_then fun x _ ip _ _ => ?_
      rw [ip]
      refine ilock_then fun off => file_then fun y _ _ isOff _ => ?_
      rw [isOff off rfl]
      refine writei_then fun cur value => ?_
      have length : (UInt64.ofInt (Calls.chunkOf count)).toNat = count.toNat := by
        have large : Calls.lim = 1536 := by decide
        rw [chunkOf_le most, toNat_ofInt more.le (by omega)]
      rw [length] at value
      by_cases failed : cur < 0
      · have stays : Place.after off cur = .locked off := if_neg (by omega)
        rw [if_pos failed, stays]
        trivial
      · have all : cur = count := by omega
        have some : cur > 0 := by omega
        have moves : Place.after off cur = .moved off cur.toNat := if_pos some
        rw [if_neg failed, moves]
        refine advance_then some fun off' => iunlock_then (neutral_then issues_endOp fun _ => ?_)
        rw [zero_add, all]
        cases turns with
        | zero =>
          unfold Calls.writeTurns
          rw [if_neg (lt_irrefl _)]
          trivial
        | succ turns =>
          unfold Calls.writeTurns
          rw [if_neg (lt_irrefl _)]
          trivial
    · exact resting

theorem filewrite_keeps (turns : Nat) (src : Nat → UInt8) {count : Int} (most : count ≤ Calls.lim)
    (resting : here.Resting) :
    Keeps C addr sb devsw f i start intact p (fun _ there => there.Resting)
      (Calls.filewrite turns f src count) here := by
  unfold Calls.filewrite
  refine file_then fun x type _ _ _ => ?_
  rw [if_neg (not_not.mpr type)]
  exact writeTurns_keeps src most turns resting

theorem argfd_then {fd : Int} {k : Option (Fin nofile × Fin nfile) → Program (Calls n) B}
    (absent : Keeps C addr sb devsw f i start intact p post (k none) here)
    (found : ∀ fd, Keeps C addr sb devsw f i start intact p post (k (some (fd, f))) here) :
    Keeps C addr sb devsw f i start intact p post (Calls.argfd fd >>= k) here := by
  unfold Calls.argfd
  split
  · exact absent
  · rw [bind_assoc]
    refine ofile_then fun slots isF => ?_
    generalize (⟨fd.toNat, _⟩ : Fin nofile) = x
    change Keeps C addr sb devsw f i start intact p post (k ((slots x).map fun g => (x, g))) here
    cases slot : slots x with
    | none => exact absent
    | some g =>
      obtain rfl := isF x g slot
      exact found x

theorem dup_keeps (fd : Int) (resting : here.Resting) :
    Keeps C addr sb devsw f i start intact p (fun _ there => there.Resting) (Calls.sysDup fd) here := by
  refine argfd_then resting fun fd => ?_
  refine neutral_then (Program.issues_request rfl) fun copy => ?_
  cases copy with
  | none => exact resting
  | some copy => exact neutral_then (issues_filedup f) fun _ => resting

theorem forkFile_keeps (child : Fin n) (fd : Fin nofile) :
    Keeps C addr sb devsw f i start intact p (fun _ there => there = here) (Calls.forkFile child fd) here := by
  unfold Calls.forkFile
  refine ofile_then fun slots isF => ?_
  refine neutral_then (Program.issues_request (isF fd)) fun _ => ?_
  cases slots fd with
  | none => rfl
  | some g => exact neutral_then (issues_filedup g) fun _ => rfl

theorem fork_keeps (resting : here.Resting) :
    Keeps C addr sb devsw f i start intact p (fun _ there => there.Resting) Calls.fork here := by
  unfold Calls.fork
  refine neutral_then (Program.issues_request trivial) fun child => ?_
  refine neutral_then (Program.issues_request trivial) fun _ => ?_
  have loop : Keeps C addr sb devsw f i start intact p (fun _ there => there = here)
      ((List.finRange nofile).forM (Calls.forkFile child)) here := by
    refine Program.Keeps.forFin (fun _ there => there = here) rfl ?_
    rintro fd _ rfl
    exact forkFile_keeps child fd
  refine loop.follow fun _ => neutral_then issues_cwd fun dir => ?_
  refine neutral_then ?_ fun dir => neutral_then (issues_idup dir) fun _ => ?_
  · cases dir with
    | none => exact ⟨trivial, fun reply => Empty.elim reply⟩
    | some dir => trivial
  refine neutral_then (Program.issues_request trivial) fun _ => ?_
  exact neutral_then (q := Program.request (I := Calls n) .forkReady) (Program.issues_request trivial) fun _ =>
    resting

end

/-! ## Runs -/

def OnFile : Call → Prop
  | .read .. | .dup _ | .fork | .wait => True
  | .write _ _ _ count => count ≤ Calls.lim
  | _ => False

theorem call_keeps {c : Call} (onFile : OnFile c) (resting : here.Resting) :
    Keeps C addr sb devsw f i start intact p (fun _ there => there.Resting) c.program here := by
  have ends : ∀ {A : Type} {q : Program (Calls n) A},
      Keeps C addr sb devsw f i start intact p (fun _ there => there.Resting) q here →
      Keeps C addr sb devsw f i start intact p (fun _ there => there.Resting) (q >>= fun _ => pure ()) here := by
    intro A q keeps
    exact Program.Keeps.bind (keeps.mono fun _ _ rests => rests)
  cases c with
  | read fd count => exact ends (argfd_then resting fun _ => fileread_keeps _ count)
  | write turns fd src count => exact ends (argfd_then resting fun _ => filewrite_keeps turns src onFile resting)
  | dup fd => exact ends (dup_keeps fd resting)
  | fork => exact fork_keeps resting
  | wait => exact neutral_then (q := Calls.wait) (Program.issues_request trivial) fun _ => resting
  | _ => exact onFile.elim

theorem recorded_enter : (recorded addr sb devsw).Enters (@Shares C n sb f i start intact) Place.Resting OnFile := by
  intro p c s s' place onFile shares resting entered
  obtain ⟨t, enters, same⟩ := Option.map_eq_some_iff.mp entered
  obtain ⟨_, isState⟩ := Option.ite_none_right_eq_some.mp enters
  cases same
  cases isState
  refine ⟨place p, ?_, call_keeps onFile resting⟩
  rw [Function.update_eq_self]
  exact shares.aside rfl rfl rfl rfl id

theorem outside_shares (a : Process.Action C) (s s' : Noted C n) (place : Fin n → Place)
    (shares : Shares sb f i start intact s place) (changed : (recorded addr sb devsw).outside a s = some s') :
    Shares sb f i start intact s' place := by
  obtain ⟨t, changes, same⟩ := Option.map_eq_some_iff.mp changed
  cases same
  have byKernel : ∀ a : Process.Action C, section_ addr a s.1 = some t →
    Shares sb f i start intact (t, s.2) place := by
    intro a changes
    obtain ⟨kernel, _, rfl⟩ := Option.map_eq_some_iff.mp changes
    exact shares.aside rfl rfl rfl rfl id
  cases a with
  | fork | forkCopy | forkReady | exit | wait => cases changes
  | userInit kstack =>
    simp only [rules, outside, Option.bind_eq_bind, Option.bind_eq_some_iff] at changes
    obtain ⟨kernel, _, child, _, same⟩ := changes
    cases same
    exact shares.neutral (shares.fixed.allocated kernel child) rfl rfl rfl id
  | userCopy | userReady | scheduler | yield | sleep | wakeup => exact byKernel _ changes

/-- A file that is open on an inode, which nobody has locked, and no other file is. -/
structure Opened (f : Fin nfile) (i : Fin ninode) (s : Calls.State C n) : Prop extends Fixed f i s where
  unlocked : (s.machine.icache i).locked = false

/-- In every run of calls on a shared file, the transfers follow each other from the first offset
on, and the offset is where they have got to, but for a transfer that has just been made under
the lock. On an inode that was intact, the bytes of every transfer are those of the file, so
no transfer has overwritten another. -/
theorem transfers_are_contiguous {acts : List (Pool.Action (Fin n) Call (Choice C) (Process.Action C))}
    {s t : Pool (Fin n) (Calls n) (Calls.State C n)} (opened : Opened f i s.shared) (idle : s.Idle)
    (calls : ∀ p c, .enter p c ∈ acts → OnFile c) (ran : run (rules addr sb devsw).step acts s = some t) :
    ∃ record, run (recorded addr sb devsw).step acts (s.noted []) = some (t.noted record) ∧
      Contiguous (s.shared.ftable f).off.toNat record ∧
      record.Pairwise (fun x y => Disjoint x.range y.range) ∧
      ((t.shared.machine.icache i).locked = false →
        (t.shared.ftable f).off.toNat = reached (s.shared.ftable f).off.toNat record) ∧
      ((t.shared.ftable f).off.toNat = reached (s.shared.ftable f).off.toNat record ∨
        ∃ earlier x, record = earlier ++ [x] ∧ (t.shared.machine.icache i).locked = true ∧
          (t.shared.ftable f).off.toNat = reached (s.shared.ftable f).off.toNat earlier) ∧
      ((∃ nodes, Intact sb i s.shared.machine nodes) → ∀ x ∈ record, Agrees t.shared.machine i x) := by
  obtain ⟨record, records⟩ := Threads.run_recorded noteOf ran []
  rw [List.nil_append] at records
  have initial : Shares sb f i (s.shared.ftable f).off.toNat (∃ nodes, Intact sb i s.shared.machine nodes)
      (s.shared, []) fun _ => .user := by
    refine ⟨opened.toFixed, ?_, fun _ => trivial, fun _ => rfl, trivial, fun intact => ⟨intact, ?_⟩⟩
    · exact fun p q busy => absurd rfl busy
    · exact fun x member => absurd member List.not_mem_nil
  obtain ⟨place, shares, keeps⟩ := Threads.run_kept (s := s.noted []) recorded_enter outside_shares calls initial idle
    (fun _ => trivial) records
  refine ⟨record, records, shares.contiguous, shares.contiguous.disjoint, ?_, ?_,
    fun intact => (shares.stored intact).2⟩
  · exact fun free => shares.settled (shares.unlocked free)
  · by_cases idle : ∀ p, place p = .user
    · exact .inl (shares.settled idle)
    · obtain ⟨p, busy⟩ := not_forall.mp idle
      have fits := shares.fits p
      cases at_ : place p with
      | user => exact absurd at_ busy
      | locked off =>
        rw [at_] at fits
        obtain ⟨_, isOff, sum⟩ := fits
        exact .inl (isOff ▸ sum)
      | moved off r =>
        rw [at_] at fits
        obtain ⟨held, isOff, _, earlier, x, isRecord, _, sum⟩ := fits
        exact .inr ⟨earlier, x, isRecord, held, isOff ▸ sum⟩

/-! ## A run -/

open Descriptors

-- Two processes on two CPUs, after a `fork`.
def forked : List (Process.Action Bool) :=
  [.userInit (some 4096), .userCopy false, .userReady, .scheduler false, .fork false (some 8192), .forkCopy false,
    .forkReady false, .scheduler true]

def forkedKernel : Process.Kernel Bool nproc :=
  (run (Process.step fun p => 4096 + p.val.toUInt64) forked (bootKernel Bool nproc)).getD (bootKernel Bool nproc)

def sharedFile : Fin nfile := ⟨0, by decide⟩

def sharedInode : Fin ninode := ⟨4, by decide⟩

def sharedState : Pool (Fin nproc) (Calls nproc) (Calls.State Bool nproc) where
  shared :=
    { kernel := forkedKernel
      ofile := fun p fd => if p.val ≤ 1 ∧ fd.val = 0 then some sharedFile else none
      cwd := fun _ => none
      ftable := fun f => if f = sharedFile then ⟨.inode, 2, true, true, some sharedInode, 0⟩ else File.unused
      machine :=
        ⟨Function.update Icache.init sharedInode { Fs.emptyFile 9 fun _ => 0 with locked := false }, Fs.emptyLog,
          Fs.usedStore⟩
      call := fun _ => none }
  code _ := .done ()

def bothWrite : List (Pool.Action (Fin nproc) Call (Choice Bool) (Process.Action Bool)) :=
  [.enter firstProcess (.write 1 0 (fun _ => 7) 1), .enter childProcess (.write 1 0 (fun _ => 8) 1)] ++
  List.replicate 9 (.answer firstProcess ⟨false, none⟩) ++ List.replicate 4 (.answer childProcess ⟨true, none⟩) ++
  [.answer firstProcess ⟨false, none⟩] ++ List.replicate 6 (.answer childProcess ⟨true, none⟩)

theorem sharedEntry : sharedState.shared.machine.icache sharedInode =
    { Fs.emptyFile 9 fun _ => 0 with locked := false } := by
  simp [sharedState]

theorem opened_sharedState : Opened sharedFile sharedInode sharedState.shared := by
  have entry := sharedEntry
  refine ⟨⟨?_, rfl, rfl, ?_, ?_⟩, ?_⟩
  · intro p fd g own
    simp only [sharedState] at own
    split at own
    · exact (Option.some.inj own).symm
    · cases own
  · rw [entry]
    rfl
  · rw [entry]
    decide
  · rw [entry]

theorem intact_sharedState : Intact Mkfs.superblock sharedInode sharedState.shared.machine fun _ _ => 0 := by
  have entry := sharedEntry
  refine ⟨Fs.sound_usedDisk, ?_, ?_, ?_, rfl, rfl, by decide, ?_⟩
  · rw [entry]
    rfl
  · rw [entry]
    decide
  · rw [entry]
    exact fun k below => absurd below (Nat.not_lt_zero k)
  · intro b covered same
    have same := congrArg UInt32.toNat same
    have less : b.toNat < (1000 + 4095) / 4096 * 4096 := covered
    rw [bblock, UInt32.toNat_add, UInt32.toNat_div] at same
    change (b.toNat / 4096 + 58) % 2 ^ 32 = 2 at same
    omega

theorem transfers_are_contiguous_both : ∃ t record, run openRules.step bothWrite sharedState = some t ∧
    (t.shared.ftable sharedFile).off = 2 ∧
    Contiguous 0 record ∧ record.Pairwise (fun x y => Disjoint x.range y.range) ∧ reached 0 record = 2 ∧
    ∀ x ∈ record, Agrees t.shared.machine sharedInode x := by
  have written : (run openRules.step bothWrite sharedState).any (fun t =>
      (t.shared.ftable sharedFile).off = 2 ∧ (t.shared.machine.icache sharedInode).locked = false) = true := by
    decide +kernel
  obtain ⟨t, ran, two⟩ := (Option.any_eq_true _ _).mp written
  obtain ⟨two, free⟩ := of_decide_eq_true two
  have calls : ∀ p c, .enter p c ∈ bothWrite → OnFile c := by
    intro p c member
    simp [bothWrite] at member
    have byte : (1 : Int) ≤ Calls.lim := by decide
    rcases member with ⟨_, rfl⟩ | ⟨_, rfl⟩ <;> exact byte
  obtain ⟨record, _, contiguous, disjoint, settled, _, agrees⟩ :=
    transfers_are_contiguous opened_sharedState (fun _ => rfl) calls ran
  have sum := settled free
  rw [two] at sum
  exact ⟨t, record, ran, two, contiguous, disjoint, sum.symm, agrees ⟨_, intact_sharedState⟩⟩

end Xv6.Sharing
