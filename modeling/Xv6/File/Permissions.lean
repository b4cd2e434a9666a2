import Xv6.File.Descriptors

/-! Transfers through files that were not opened for them.

`sys_openat` stores in a file whether it may be read and written. Here every call that reads
or writes notes the file that it has looked up, if the file is not open for that, and ends
with its result.
-/

set_option autoImplicit false

namespace Xv6.Permissions

open Library Syscall Process Calls.State

variable {C : Type} {n : Nat}

/-! ## The calls that read and write -/

abbrev Result : Type := Int × (Nat → UInt8)

/-- What a call that moves bytes needs: its descriptor, the lengths that it writes, and its value
when each of its transfers has failed. -/
structure Access where
  fd : Int
  writes : Bool
  counts : List Int
  failure : Int

def access : Call → Option Access
  | .read fd _ => some ⟨fd, false, [], -1⟩
  | .write _ fd _ count => some ⟨fd, true, [count], -1⟩
  | .writev _ fd iov => some ⟨fd, true, iov.map Prod.snd, -iov.length⟩
  | _ => none

def returns : Call → Program (Calls n) Result
  | .read fd count => Calls.sysRead fd (fun _ => 0) count
  | .write turns fd src count => do return (← Calls.sysWrite turns fd src count, fun _ => 0)
  | .writev turns fd iov => do return (← Calls.sysWritev turns fd iov, fun _ => 0)
  | c => do
    c.program
    return (0, fun _ => 0)

def Access.permits (x : Access) (f : File) : Bool := if x.writes then f.writable else f.readable

def accessOf (s : Calls.State C n) (p : Fin n) : Option Access := (s.call p).bind access

def denied (s : Calls.State C n) (p : Fin n) : Option (Fin nfile) := do
  let x ← accessOf s p
  if open_ : x.fd < 0 ∨ x.fd ≥ nofile then none
  else
    let f ← s.ofile p ⟨x.fd.toNat, by omega⟩
    if x.permits (s.ftable f) then none else some f

/-- A state with the file, for each process, that its call has looked up without permission. -/
abbrev Watched (C : Type) (n : Nat) : Type := Calls.State C n × (Fin n → Option (Fin nfile))

abbrev Returning (n : Nat) : Interface := (Calls n).returning Result

def lookedUp (s : Watched C n) (p : Fin n) : Calls.Request n → Fin n → Option (Fin nfile)
  | .ofile => Function.update s.2 p (denied s.1 p)
  | _ => s.2

variable [DecidableEq C] (addr : Fin n → UInt64) (sb : Superblock) (devsw : Fin ndev → Devsw UInt32)

def watchedAnswer (p : Fin n) (e : Choice C) : (r : (Returning n).Request) → Watched C n →
    Option ((Returning n).Reply r × Watched C n)
  | .inl r, s => (answer addr sb devsw p e r s.1).map fun out => (out.1, out.2, lookedUp s p r)
  | .inr _, s => some ((), s)

/-- The processes of `File/System`, whose calls on data end with a step that has their result. -/
def watched : Threads (Fin n) Call (Choice C) (Process.Action C) (Returning n) (Watched C n) where
  answer := watchedAnswer addr sb devsw
  enters p c s := ((rules addr sb devsw).enters p c s.1).map fun t => (t, Function.update s.2 p none)
  body c := if (access c).isSome then (returns c).ending else c.program.lift
  outside w s := (outside addr w s.1).map fun t => (t, s.2)

/-! ## What a call without permission may do -/

def current (m : Machine) (i : Fin ninode) : MemInode :=
  let ip := m.icache i
  let ip := if ip.valid then ip else ip.load (Fs.diskInode sb m.store.view ip.inum)
  { ip with valid := true, locked := false }

structure Untouched (s t : Calls.State C n) : Prop where
  ftable : t.ftable = s.ftable
  store : t.machine.store = s.machine.store
  inodes : ∀ i, current sb t.machine i = current sb s.machine i

/-- A step of a call that has looked up a file without permission changes nothing, and if it
is the last one, the call has failed and has not filled its buffer. -/
def Denied (a : Pool.Action (Fin n) Call (Choice C) (Process.Action C))
    (u : Pool (Fin n) (Returning n) (Watched C n)) :
    Prop :=
  ∀ p e v, a = .answer p e → (u.shared.2 p).isSome → (watched addr sb devsw).step a u = some v →
    Untouched sb u.shared.1 v.shared.1 ∧
      ∀ value next, u.code p = .call (I := Returning n) (.inr value) next →
        ∃ x, accessOf u.shared.1 p = some x ∧ value = (x.failure, fun _ => 0)

-- `readi` returns -1.
def ReadRefused (ip : MemInode) (off count : UInt64) : Prop :=
  if ip.type = T_DEV then ∀ major : ip.major.toNat < ndev, (devsw ⟨ip.major.toNat, major⟩).read.isNone
  else ¬ (off.toNat ≤ ip.size.toNat ∧ off.toNat + count.toNat < 2 ^ 64)
  deriving Decidable

-- `writei` returns -1.
def WriteRefused (ip : MemInode) (off count : UInt64) : Prop :=
  if ip.type = T_DEV then ∀ major : ip.major.toNat < ndev, (devsw ⟨ip.major.toNat, major⟩).write.isNone
  else ¬ Fs.Writable ip.size.toNat off.toNat count.toNat
  deriving Decidable

def Refuses (writes : Bool) (s : Calls.State C n) : Calls.Request n → Prop
  | .file f => writes = true → (s.ftable f).type = .inode
  | .inodes (.readi i _ off count) => ReadRefused devsw (s.machine.icache i) off count
  | .inodes (.writei i _ off count) => WriteRefused devsw (s.machine.icache i) off count
  | _ => True

/-- A request of a call: a file without permission is looked up for no empty range, and then all
transfers are refused. -/
def Fails (s : Watched C n) (p : Fin n) (x : Access) (r : Calls.Request n) : Prop :=
  match r with
  | .ofile => (denied s.1 p).isSome → 0 ∉ x.counts
  | r => (s.2 p).isSome → Refuses devsw x.writes s.1 r

def Allowed (a : Pool.Action (Fin n) Call (Choice C) (Process.Action C))
    (u : Pool (Fin n) (Returning n) (Watched C n)) :
    Prop :=
  match a with
  | .answer p _ =>
    match u.code p, accessOf u.shared.1 p with
    | .call (.inl r) _, some x => Fails devsw u.shared p x r
    | _, _ => True
  | _ => True

/-! ## Calls whose transfers are refused -/

def Harmless : Calls.Request n → Prop
  | .file _ | .beginOp | .inodes (.ilock _) | .inodes (.iunlock _) | .inodes (.readi ..) | .inodes
      (.writei ..) | .panic =>
    True
  | _ => False

def Refusal (writes : Bool) : (r : Calls.Request n) → (Calls n).Reply r → Prop
  | .file _, x => writes = true → x.type = .inode
  | .inodes (.readi _ dst _ _), reply => reply = (-1, dst)
  | .inodes (.writei ..), reply => reply = (-1 : Int)
  | _, _ => True

section
variable {A B : Type}

abbrev Fruitless (writes : Bool) (post : A → Prop) (q : Program (Calls n) A) : Prop :=
  q.Follows Harmless (Refusal writes) post

theorem inode_then {writes : Bool} {post : B → Prop} {k : Fin ninode → Program (Calls n) B}
    (next : ∀ i, Fruitless writes post (k i)) (ip : Option (Fin ninode)) :
    Fruitless writes post (Calls.inode ip >>= k) := by
  cases ip with
  | some i => exact next i
  | none => exact ⟨trivial, fun reply => Empty.elim reply⟩

theorem fileread_fruitless (f : Fin nfile) (dst : Nat → UInt8) (count : Int) :
    Fruitless false (· = (-1, dst)) (Calls.fileread f dst count : Program (Calls n) _) := by
  refine .request_bind trivial fun x _ => ?_
  split
  · rfl
  · refine inode_then (fun i => ?_) x.ip
    refine .request_bind trivial fun _ _ => .request_bind trivial fun y _ =>
      .request_bind trivial fun reply refused => ?_
    obtain rfl : reply = (-1, dst) := refused
    exact .request_bind trivial fun _ _ => rfl

theorem writeTurns_fruitless (turns : Nat) (f : Fin nfile) (src : Nat → UInt8) {count : Int} (some : count ≠ 0) :
    Fruitless true (· = -1) (Calls.writeTurns f src count turns 0 : Program (Calls n) Int) := by
  cases turns with
  | zero =>
    unfold Calls.writeTurns
    split
    · exact ⟨trivial, fun reply => Empty.elim reply⟩
    · exact if_neg some.symm
  | succ turns =>
    unfold Calls.writeTurns
    split
    · refine .request_bind trivial fun _ _ => .request_bind trivial fun x _ => inode_then (fun i => ?_) x.ip
      refine .request_bind trivial fun _ _ => .request_bind trivial fun y _ =>
        .request_bind trivial fun cur refused => ?_
      obtain rfl : cur = (-1 : Int) := refused
      exact if_neg some.symm
    · exact if_neg some.symm

theorem filewrite_fruitless (turns : Nat) (f : Fin nfile) (src : Nat → UInt8) {count : Int} (some : count ≠ 0) :
    Fruitless true (· = -1) (Calls.filewrite turns f src count : Program (Calls n) Int) := by
  refine .request_bind trivial fun x isInode => ?_
  rw [if_neg (not_not.mpr (isInode rfl))]
  exact writeTurns_fruitless turns f src some

theorem writevFrom_fruitless (turns : Nat) (f : Fin nfile) {iov : List ((Nat → UInt8) × Int)}
    (some : 0 ∉ iov.map Prod.snd) (tot : Int) :
    Fruitless true (· = tot - iov.length) (Calls.writevFrom turns f iov tot : Program (Calls n) Int) := by
  induction iov generalizing tot with
  | nil => exact (Int.sub_zero tot).symm
  | cons v rest ih =>
    rw [List.map_cons, List.mem_cons, not_or] at some
    refine (filewrite_fruitless turns f v.1 (Ne.symm some.1)).bind ?_
    rintro _ rfl
    rw [List.length_cons, show tot - ((rest.length + 1 : Nat) : Int) = tot + -1 - rest.length by omega]
    exact ih some.2 _

end

/-! ## Refused transfers -/

omit [DecidableEq C] in
theorem Untouched.refl (s : Calls.State C n) : Untouched sb s s := ⟨rfl, rfl, fun _ => rfl⟩

theorem readi_refused {ip : MemInode} {off count : UInt64} (refused : ReadRefused devsw ip off count) (log : Log)
    (dst : Nat → UInt8) :
    (Fs.readi sb devsw log ip dst off count : Program (Bio UInt32) _) = pure (-1, dst, ip, log) := by
  unfold ReadRefused at refused
  unfold Fs.readi
  split
  · next device =>
    rw [if_pos device] at refused
    split
    · next major =>
      rw [Option.isNone_iff_eq_none.mp (refused major)]
    · rfl
  · next notDev =>
    rw [if_neg notDev] at refused
    rw [if_pos ((Fs.range_refused ip.size).mpr refused)]

theorem writei_refused {ip : MemInode} {off count : UInt64} (refused : WriteRefused devsw ip off count) (log : Log)
    (src : Nat → UInt8) :
    (Fs.writei sb devsw log ip src off count : Program (Bio UInt32) _) = pure (-1, ip, log) := by
  unfold WriteRefused at refused
  by_cases device : ip.type = T_DEV
  · rw [if_pos device] at refused
    rw [Fs.writei, if_pos device]
    split
    · next major =>
      rw [Option.isNone_iff_eq_none.mp (refused major)]
    · rfl
  · rw [if_neg device] at refused
    rcases Fs.writei_cases sb log devsw src device with ⟨_, same⟩ | ⟨accepted, _⟩
    · exact same
    · exact absurd accepted refused

theorem ilock_current {m : Machine} {i : Fin ninode} {icache : Icache} {store : Store}
    (locks : (Fs.ilock sb m.icache i).run Store.handle m.store = some (icache, store)) :
    store = m.store ∧ ∀ j, current sb { m with icache, store } j = current sb m j := by
  have loaded : ∀ x : MemInode, store = m.store → icache = Function.update m.icache i x →
      current sb { m with icache := Function.update m.icache i x } i = current sb m i →
      store = m.store ∧ ∀ j, current sb { m with icache, store } j = current sb m j := by
    rintro x rfl rfl here
    refine ⟨rfl, fun j => ?_⟩
    by_cases same : j = i
    · exact same ▸ here
    · unfold current
      dsimp only
      rw [Function.update_of_ne same]
  unfold Fs.ilock at locks
  split at locks
  · cases locks
  · split at locks
    · next valid =>
      cases locks
      refine loaded _ rfl rfl ?_
      unfold current
      dsimp only
      rw [Function.update_self]
      simp only [valid, if_true]
    · next invalid =>
      cases locks
      refine loaded _ rfl rfl ?_
      unfold current
      dsimp only
      rw [Function.update_self]
      simp only [invalid, if_true]
      rfl

section
variable {addr sb devsw} {p : Fin n} {e : Choice C}

theorem refused_answer {writes : Bool} {s t : Calls.State C n} {r : Calls.Request n} {reply : (Calls n).Reply r}
    (harmless : Harmless r) (refuses : Refuses devsw writes s r)
    (performed : perform addr sb devsw p e r s = some (reply, t)) :
    Refusal writes r reply ∧ Untouched sb s t ∧ t.call = s.call := by
  cases r with
  | file f =>
    cases performed
    exact ⟨refuses, .refl sb s, rfl⟩
  | beginOp =>
    obtain ⟨log, _, same⟩ := Option.map_eq_some_iff.mp performed
    cases same
    exact ⟨trivial, ⟨rfl, rfl, fun _ => rfl⟩, rfl⟩
  | panic => cases performed
  | inodes r =>
    obtain ⟨⟨_, m⟩, handled, same⟩ := Option.map_eq_some_iff.mp performed
    cases same
    cases r with
    | ilock i =>
      obtain ⟨⟨icache, store⟩, locks, same⟩ := Option.map_eq_some_iff.mp handled
      cases same
      obtain ⟨rfl, same⟩ := ilock_current sb locks
      exact ⟨trivial, ⟨rfl, rfl, same⟩, rfl⟩
    | iunlock i =>
      cases handled
      refine ⟨trivial, ⟨rfl, rfl, fun j => ?_⟩, rfl⟩
      by_cases here : j = i
      · subst here
        unfold current Icache.iunlock
        dsimp only
        rw [Function.update_self]
        split <;> rfl
      · unfold current Icache.iunlock
        dsimp only
        rw [Function.update_of_ne here]
    | readi i dst off count =>
      obtain ⟨⟨out, store⟩, reads, same⟩ := Option.map_eq_some_iff.mp handled
      rw [readi_refused sb devsw refuses] at reads
      cases reads
      cases same
      refine ⟨rfl, ?_, rfl⟩
      dsimp only
      rw [Function.update_eq_self]
      exact .refl sb s
    | writei i src off count =>
      obtain ⟨⟨out, store⟩, writes, same⟩ := Option.map_eq_some_iff.mp handled
      rw [writei_refused sb devsw refuses] at writes
      cases writes
      cases same
      refine ⟨rfl, ?_, rfl⟩
      dsimp only
      rw [Function.update_eq_self]
      exact .refl sb s
    | _ => exact harmless.elim
  | _ => exact harmless.elim

end

/-! ## Runs -/

abbrev Blind {A : Type} (q : Program (Calls n) A) : Prop := q.Issues Descriptors.OnData

/-- A call on data up to its lookup. -/
structure Looks (x : Access) (q : Program (Calls n) Result) : Prop where
  looks : ∃ next, q = .call (I := Calls n) .ofile next ∧ ∀ slots, Blind (next slots) ∧
    ∀ (inside : ¬ (x.fd < 0 ∨ x.fd ≥ nofile)) f, slots ⟨x.fd.toNat, by omega⟩ = some f → 0 ∉ x.counts →
      Fruitless x.writes (· = (x.failure, fun _ => 0)) (next slots)

def Watches (s : Watched C n) (code : Program (Returning n) Unit) (p : Fin n) : Prop :=
  match accessOf s.1 p with
  | none => s.2 p = none
  | some x => code = .done () ∨ ∃ q : Program (Calls n) Result, code = q.ending ∧
      ((s.2 p = none ∧ (Looks x q ∨ Blind q)) ∨ ((s.2 p).isSome ∧ Fruitless x.writes (· = (x.failure, fun _ => 0)) q))

theorem argfd_looks (x : Access) {k : Option (Fin nofile × Fin nfile) → Program (Calls n) Result}
    (blind : ∀ found, Blind (k found))
    (fails : ∀ fd f, 0 ∉ x.counts → Fruitless x.writes (· = (x.failure, fun _ => 0)) (k (some (fd, f)))) :
    Looks x (Calls.argfd x.fd >>= k) ∨ Blind (Calls.argfd x.fd >>= k) := by
  unfold Calls.argfd
  split
  · exact .inr (blind none)
  · next inside =>
    refine .inl ⟨_, rfl, fun slots => ⟨blind _, fun _ f own some => ?_⟩⟩
    change Fruitless _ _ (k ((slots _).map _))
    rw [own]
    exact fails _ f some

theorem returns_looks {c : Call} {x : Access} (isAccess : access c = some x) :
    Looks x (returns c : Program (Calls n) Result) ∨ Blind (returns c : Program (Calls n) Result) := by
  cases c with
  | read fd count =>
    cases isAccess
    refine argfd_looks ⟨fd, false, [], -1⟩ (fun found => ?_) fun fd f _ => fileread_fruitless f _ count
    cases found with
    | none => trivial
    | some file => exact Descriptors.data_fileread file.2 _ count
  | write turns fd src count =>
    cases isAccess
    simp only [returns, Calls.sysWrite, bind_assoc]
    refine argfd_looks ⟨fd, true, [count], -1⟩ (fun found => ?_) fun fd f some => ?_
    · cases found with
      | none => trivial
      | some file => exact (Descriptors.data_filewrite turns file.2 src count).bind fun _ => trivial
    · refine (filewrite_fruitless turns f src fun zero => some (by simp [zero])).bind ?_
      rintro _ rfl
      rfl
  | writev turns fd iov =>
    cases isAccess
    simp only [returns, Calls.sysWritev, bind_assoc]
    refine argfd_looks ⟨fd, true, iov.map Prod.snd, -iov.length⟩ (fun found => ?_) fun fd f some => ?_
    · cases found with
      | none => trivial
      | some file => exact (Descriptors.data_writevFrom turns file.2 iov 0).bind fun _ => trivial
    · refine (writevFrom_fruitless turns f some 0).bind ?_
      rintro _ rfl
      exact congrArg (Prod.mk · _) (Int.zero_sub _)
  | _ => cases isAccess

section
variable {addr sb devsw} {p : Fin n} {e : Choice C}

theorem perform_call {s t : Calls.State C n} {r : Calls.Request n} {reply : (Calls n).Reply r}
    (performed : perform addr sb devsw p e r s = some (reply, t)) : t.call = s.call := by
  have bySection : ∀ a, (section_ addr a s).map ((), ·) = some ((), t) → t.call = s.call := by
    intro a performed
    rw [(Descriptors.section_answered performed).2]
  cases r with
  | inodes | beginOp | commit =>
    obtain ⟨_, _, same⟩ := Option.map_eq_some_iff.mp performed
    cases same
    rfl
  | fdalloc f =>
    rcases Descriptors.fdalloc_performed performed with ⟨_, rfl⟩ | ⟨fd, _, _, rfl⟩
    · rfl
    · rfl
  | procAlloc =>
    simp only [Calls.State.perform, Option.bind_eq_bind, Option.bind_eq_some_iff] at performed
    obtain ⟨kernel, _, child, _, same⟩ := performed
    cases same
    rfl
  | setParent => exact bySection _ performed
  | forkReady => exact bySection _ performed
  | exitSection => exact bySection _ performed
  | wait => exact bySection _ performed
  | panic => cases performed
  | _ =>
    cases performed
    rfl

theorem outside_call {w : Process.Action C} {s t : Calls.State C n} (changed : outside addr w s = some t) :
    t.call = s.call := by
  have byKernel : ∀ a : Process.Action C, section_ addr a s = some t → t.call = s.call := by
    intro a changed
    obtain ⟨kernel, _, rfl⟩ := Option.map_eq_some_iff.mp changed
    rfl
  cases w with
  | fork | forkCopy | forkReady | exit | wait => cases changed
  | userInit kstack =>
    simp only [outside, Option.bind_eq_bind, Option.bind_eq_some_iff] at changed
    obtain ⟨kernel, _, child, _, same⟩ := changed
    cases same
    rfl
  | userCopy | userReady | scheduler | yield | sleep | wakeup => exact byKernel _ changed

omit [DecidableEq C] in
theorem denied_some {s : Calls.State C n} {f : Fin nfile} (isDenied : denied s p = some f) :
    ∃ x, accessOf s p = some x ∧ ∃ inside : ¬ (x.fd < 0 ∨ x.fd ≥ nofile),
    s.ofile p ⟨x.fd.toNat, by omega⟩ = some f := by
  simp only [denied, Option.bind_eq_bind, Option.bind_eq_some_iff] at isDenied
  obtain ⟨x, isAccess, found⟩ := isDenied
  refine ⟨x, isAccess, ?_⟩
  split at found
  · cases found
  · next inside =>
    obtain ⟨g, own, found⟩ := Option.bind_eq_some_iff.mp found
    split at found
    · cases found
    · cases found
      exact ⟨inside, own⟩

omit [DecidableEq C] in
theorem Watches.congr {s t : Watched C n} {code : Program (Returning n) Unit} (watches : Watches s code p)
    (call : t.1.call p = s.1.call p) (note : t.2 p = s.2 p) : Watches t code p := by
  unfold Watches at watches ⊢
  rwa [show accessOf t.1 p = accessOf s.1 p by rw [accessOf, call, accessOf], note]

theorem ending_call {q : Program (Calls n) Result} {r : Calls.Request n}
    {next : (Returning n).Reply (.inl r) → Program (Returning n) Unit}
    (code : q.ending = .call (I := Returning n) (.inl r) next) :
    ∃ rest, q = .call (I := Calls n) r rest ∧ ∀ reply, next reply = (rest reply).ending := by
  cases q with
  | done value => cases code
  | call r' rest =>
    cases code
    exact ⟨rest, rfl, fun _ => rfl⟩

omit [DecidableEq C] in
theorem lookedUp_other {s : Watched C n} {r : Calls.Request n} {q : Fin n} (other : q ≠ p) :
    lookedUp s p r q = s.2 q := by
  unfold lookedUp
  split
  · rw [Function.update_of_ne other]
  · rfl

omit [DecidableEq C] in
theorem lookedUp_data {s : Watched C n} {r : Calls.Request n} (other : r ≠ .ofile) : lookedUp s p r = s.2 := by
  unfold lookedUp
  split
  · exact absurd rfl other
  · rfl

theorem Watches.request {s : Watched C n} {x : Access} {q : Program (Calls n) Result} {r : Calls.Request n}
    {reply : (Calls n).Reply r} {t : Calls.State C n} {rest : (Calls n).Reply r → Program (Calls n) Result}
    (isAccess : accessOf s.1 p = some x) (isCall : q = .call (I := Calls n) r rest) (fails : Fails devsw s p x r)
    (performed : perform addr sb devsw p e r s.1 = some (reply, t))
    (inCall : (s.2 p = none ∧ (Looks x q ∨ Blind q)) ∨
      ((s.2 p).isSome ∧ Fruitless x.writes (· = (x.failure, fun _ => 0)) q)) :
    Watches (t, lookedUp s p r) (rest reply).ending p := by
  have isAccess' : accessOf t p = some x := by
    rw [accessOf, perform_call performed]
    exact isAccess
  unfold Watches
  rw [isAccess']
  subst isCall
  rcases inCall with ⟨none, looks | blind⟩ | ⟨some, fruitless⟩
  · obtain ⟨next, isLook, found⟩ := looks.looks
    cases isLook
    cases performed
    obtain ⟨blind, fruitless⟩ := found (s.1.ofile p)
    refine .inr ⟨_, rfl, ?_⟩
    have note : lookedUp s p .ofile p = denied s.1 p := Function.update_self ..
    cases isDenied : denied s.1 p with
    | none => exact .inl ⟨note.trans isDenied, .inr blind⟩
    | some f =>
      obtain ⟨y, sameAccess, inside, own⟩ := denied_some isDenied
      cases isAccess.symm.trans sameAccess
      refine .inr ⟨?_, fruitless inside f own (fails (by rw [isDenied]; rfl))⟩
      dsimp only
      rw [note, isDenied]
      rfl
  · have other : r ≠ .ofile := by
      rintro rfl
      exact blind.1
    refine .inr ⟨_, rfl, .inl ⟨?_, .inr (blind.2 reply)⟩⟩
    rw [lookedUp_data other]
    exact none
  · have other : r ≠ .ofile := by
      rintro rfl
      exact fruitless.1
    have refuses : Refuses devsw x.writes s.1 r := by
      cases r with
      | ofile => exact absurd rfl other
      | _ => exact fails some
    obtain ⟨refusal, _⟩ := refused_answer fruitless.1 refuses performed
    refine .inr ⟨_, rfl, .inr ⟨?_, fruitless.2 reply refusal⟩⟩
    rw [lookedUp_data other]
    exact some

def Watching (u : Pool (Fin n) (Returning n) (Watched C n)) : Prop := ∀ p, Watches u.shared (u.code p) p

theorem Watching.step {a : Pool.Action (Fin n) Call (Choice C) (Process.Action C)}
    {u v : Pool (Fin n) (Returning n) (Watched C n)} (watching : Watching u) (allowed : Allowed devsw a u)
    (stepped : (watched addr sb devsw).step a u = some v) : Watching v := by
  cases a with
  | enter t c =>
    simp only [Threads.step] at stepped
    split at stepped
    · obtain ⟨shared, entered, rfl⟩ := Option.map_eq_some_iff.mp stepped
      obtain ⟨s, enters, rfl⟩ := Option.map_eq_some_iff.mp entered
      obtain ⟨_, isState⟩ := Option.ite_none_right_eq_some.mp enters
      cases isState
      intro q
      by_cases same : q = t
      · subst same
        have called : accessOf { u.shared.1 with call := Function.update u.shared.1.call q (some c) } q =
          access c := by
          unfold accessOf
          dsimp only
          rw [Function.update_self]
          rfl
        unfold Watches
        dsimp only
        rw [called, Function.update_self, Function.update_self]
        cases isAccess : access c with
        | none => rfl
        | some x =>
          refine .inr ⟨returns c, ?_, .inl ⟨rfl, returns_looks isAccess⟩⟩
          simp [watched, isAccess]
      · dsimp only
        rw [Function.update_of_ne same]
        exact (watching q).congr (Function.update_of_ne same ..) (Function.update_of_ne same ..)
    · cases stepped
  | outside w =>
    obtain ⟨shared, changed, rfl⟩ := Option.map_eq_some_iff.mp stepped
    obtain ⟨s, changes, rfl⟩ := Option.map_eq_some_iff.mp changed
    exact fun q => (watching q).congr (congrFun (outside_call changes) q) rfl
  | answer t e =>
    have mine := watching t
    simp only [Threads.step] at stepped
    simp only [Allowed] at allowed
    cases code : u.code t with
    | done value => simp [Threads.issue, code] at stepped
    | call r next =>
      rw [code] at stepped allowed mine
      obtain ⟨⟨reply, shared⟩, answered, rfl⟩ := Option.map_eq_some_iff.mp stepped
      cases r with
      | inr value =>
        cases answered
        intro q
        by_cases same : q = t
        · subst same
          dsimp only
          rw [Function.update_self]
          unfold Watches at mine ⊢
          cases isAccess : accessOf u.shared.1 q with
          | none =>
            rw [isAccess] at mine
            exact mine
          | some x =>
            rw [isAccess] at mine
            rcases mine with finished | ⟨p, isEnding, _⟩
            · cases finished
            · refine .inl ?_
              cases p with
              | done value =>
                cases isEnding
                rfl
              | call r rest => cases isEnding
        · dsimp only
          rw [Function.update_of_ne same]
          exact watching q
      | inl r =>
        obtain ⟨⟨reply, s⟩, answers, same⟩ := Option.map_eq_some_iff.mp answered
        cases same
        obtain ⟨_, performed⟩ := Descriptors.answer_running answers
        have call := perform_call performed
        intro q
        by_cases same : q = t
        · subst same
          dsimp only
          rw [Function.update_self]
          unfold Watches at mine
          cases isAccess : accessOf u.shared.1 q with
          | none =>
            rw [isAccess] at mine
            have isAccess' : accessOf s q = none := by
              rw [accessOf, call]
              exact isAccess
            unfold Watches
            rw [isAccess']
            cases r with
            | ofile =>
              change Function.update u.shared.2 q (denied u.shared.1 q) q = none
              rw [Function.update_self, denied, isAccess]
              rfl
            | _ => exact mine
          | some x =>
            rw [isAccess] at mine allowed
            rcases mine with finished | ⟨p, isEnding, inCall⟩
            · cases finished
            · obtain ⟨rest, isCall, continues⟩ := ending_call isEnding.symm
              rw [continues reply]
              exact Watches.request isAccess isCall allowed performed inCall
        · dsimp only
          rw [Function.update_of_ne same]
          exact (watching q).congr (congrFun call q) (lookedUp_other same)

theorem Watching.denied {a : Pool.Action (Fin n) Call (Choice C) (Process.Action C)}
    {u : Pool (Fin n) (Returning n) (Watched C n)} (watching : Watching u) (allowed : Allowed devsw a u) :
    Denied addr sb devsw a u := by
  rintro p e v rfl some stepped
  have mine := watching p
  unfold Watches at mine
  cases isAccess : accessOf u.shared.1 p with
  | none =>
    rw [isAccess] at mine
    dsimp only at mine
    rw [mine] at some
    cases some
  | some x =>
    rw [isAccess] at mine
    simp only [Threads.step] at stepped
    simp only [Allowed] at allowed
    rcases mine with finished | ⟨q, isEnding, ⟨none, _⟩ | ⟨_, fruitless⟩⟩
    · simp [Threads.issue, finished] at stepped
    · rw [none] at some
      cases some
    · cases q with
      | done value =>
        replace isEnding : u.code p = .call (I := Returning n) (.inr value) .done := isEnding
        rw [isEnding] at stepped ⊢
        cases stepped
        refine ⟨.refl sb _, fun result next isResult => ⟨x, rfl, ?_⟩⟩
        cases isResult
        exact fruitless
      | call r rest =>
        replace isEnding : u.code p = .call (I := Returning n) (.inl r) fun reply => (rest reply).ending := isEnding
        rw [isEnding] at stepped allowed ⊢
        rw [isAccess] at allowed
        obtain ⟨⟨reply, shared⟩, answered, rfl⟩ := Option.map_eq_some_iff.mp stepped
        obtain ⟨⟨reply, s⟩, answers, same⟩ := Option.map_eq_some_iff.mp answered
        cases same
        have refuses : Refuses devsw x.writes u.shared.1 r := by
          cases r with
          | ofile => exact fruitless.1.elim
          | _ => exact allowed some
        refine ⟨(refused_answer fruitless.1 refuses (Descriptors.answer_running answers).2).2.1, ?_⟩
        intro value next isResult
        cases isResult

/-- In every run in which each transfer without permission is refused by `readi` and `writei`, and
none of them is a write of no bytes, a call without permission leaves every file, every inode
and every block as they are, and fails. -/
theorem unpermitted_calls_fail {acts : List (Pool.Action (Fin n) Call (Choice C) (Process.Action C))}
    {u : Pool (Fin n) (Returning n) (Watched C n)} (idle : u.Idle) (fresh : u.shared.2 = fun _ => none)
    (allowed : Meets (watched addr sb devsw).step (Allowed devsw) acts u) :
    Meets (watched addr sb devsw).step (Denied addr sb devsw) acts u := by
  have initial : Watching u := by
    intro p
    unfold Watches
    split
    · rw [fresh]
    · exact .inl (idle p)
  exact Meets.of_invariant (fun _ _ _ watching allowed => watching.step allowed)
    (fun _ _ => Watching.denied) initial allowed

end

/-! ## A descriptor for the root directory -/

section
variable (devsw : Fin ndev → Devsw UInt32)

instance (writes : Bool) (s : Calls.State C n) (r : Calls.Request n) : Decidable (Refuses devsw writes s r) := by
  unfold Refuses
  split <;> infer_instance

instance Fails.decide (s : Watched C n) (p : Fin n) (x : Access) (r : Calls.Request n) :
    Decidable (Fails devsw s p x r) := by
  unfold Fails
  split <;> infer_instance

instance (a : Pool.Action (Fin n) Call (Choice C) (Process.Action C)) (u : Pool (Fin n) (Returning n) (Watched C n)) :
    Decidable (Allowed devsw a u) := by
  unfold Allowed
  split
  · split
    · exact Fails.decide ..
    · infer_instance
  · infer_instance

end

def dotEntries : Block := fun k =>
  (([1, 0, 46] ++ List.replicate 13 0 ++ [1, 0, 46, 46] : List UInt8)).getD k.val 0

def rootDisk : UInt32 → Block := fun b =>
  if b = 32 then Block.zero.setDinode (inodeIndex ROOTINO) ⟨T_DIR, 0, 0, 1, 512, fun k => if k.val = 0 then 59 else 0⟩
  else if b = 59 then dotEntries else Fs.usedDisk b

def watchedState : Pool (Fin nproc) (Returning nproc) (Watched Bool nproc) where
  shared :=
    ({ kernel := Process.bootKernel Bool nproc
       ofile := fun _ _ => none
       cwd := fun _ => none
       ftable := fun _ => File.unused
       machine := ⟨Icache.init, Fs.emptyLog, Store.boot rootDisk⟩
       call := fun _ => none },
      fun _ => none)
  code _ := .done ()

def watchedRules : Threads (Fin nproc) Call (Choice Bool) (Process.Action Bool) (Returning nproc)
    (Watched Bool nproc) :=
  watched (fun p => 4096 + p.val.toUInt64) Mkfs.superblock Fs.noDevices

open Descriptors

def openAndWrite (count : Int) : List (Pool.Action (Fin nproc) Call (Choice Bool) (Process.Action Bool)) :=
  [.outside (.userInit (some 4096)), .outside (.userCopy false), .outside .userReady, .outside (.scheduler false),
    .enter firstProcess (.openat Calls.AT_FDCWD [slash] (Calls.O_RDONLY ||| Calls.O_LARGEFILE))] ++
  List.replicate 12 (.answer firstProcess ⟨false, none⟩) ++ [.enter firstProcess (.write 1 0 (fun _ => 7) count)]

def answers (k : Nat) : List (Pool.Action (Fin nproc) Call (Choice Bool) (Process.Action Bool)) :=
  List.replicate k (.answer firstProcess ⟨false, none⟩)

theorem unpermitted_calls_fail_negative : Meets watchedRules.step
    (Denied (fun p => 4096 + p.val.toUInt64) Mkfs.superblock Fs.noDevices)
    (openAndWrite (-1) ++ answers 3) watchedState := by
  have allowed : Meets watchedRules.step (Allowed Fs.noDevices) (openAndWrite (-1) ++ answers 3) watchedState := by
    decide +kernel
  exact unpermitted_calls_fail (fun _ => rfl) rfl allowed

/-- A byte is written through a file that was opened for reading: the offset is advanced. -/
theorem write_not_denied : ¬ Meets watchedRules.step
    (Denied (fun p => 4096 + p.val.toUInt64) Mkfs.superblock Fs.noDevices)
    (openAndWrite 1 ++ answers 9) watchedState := by
  intro denied
  have writes : (run watchedRules.step (openAndWrite 1 ++ answers 8) watchedState).any (fun u =>
      (u.shared.2 firstProcess).isSome ∧ (u.shared.1.ftable ⟨0, by decide⟩).writable = false ∧
      (u.shared.1.ftable ⟨0, by decide⟩).off = 0 ∧
      (watchedRules.step (.answer firstProcess ⟨false, none⟩) u).any
        fun v => (v.shared.1.ftable ⟨0, by decide⟩).off = 1) = true := by
    decide +kernel
  obtain ⟨u, ran, some, _, before, stepped⟩ : ∃ u,
    run watchedRules.step (openAndWrite 1 ++ answers 8) watchedState = some u ∧
      (u.shared.2 firstProcess).isSome ∧ (u.shared.1.ftable ⟨0, by decide⟩).writable = false ∧
      (u.shared.1.ftable ⟨0, by decide⟩).off = 0 ∧
      (watchedRules.step (.answer firstProcess ⟨false, none⟩) u).any
        (fun v => (v.shared.1.ftable ⟨0, by decide⟩).off = 1) = true := by
    obtain ⟨u, ran, holds⟩ := (Option.any_eq_true _ _).mp writes
    exact ⟨u, ran, of_decide_eq_true holds⟩
  obtain ⟨v, stepped, after⟩ := (Option.any_eq_true _ _).mp stepped
  replace after : (v.shared.1.ftable ⟨0, by decide⟩).off = 1 := of_decide_eq_true after
  have last : Meets watchedRules.step (Denied (fun p => 4096 + p.val.toUInt64) Mkfs.superblock Fs.noDevices)
      [.answer firstProcess ⟨false, none⟩] u := Meets.later denied ran
  obtain ⟨untouched, _⟩ := last.1 firstProcess ⟨false, none⟩ v rfl some stepped
  rw [untouched.ftable, before] at after
  exact absurd after (by decide)

end Xv6.Permissions
