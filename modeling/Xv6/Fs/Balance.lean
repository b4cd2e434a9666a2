import Mathlib.Algebra.Group.Pi.Lemmas
import Mathlib.Algebra.Order.Ring.Int
import Xv6.Fs.Contents
import Xv6.Fs.Path

/-! References to inodes, and locks of inodes, that `create` leaves.

Every function changes the reference counts by a sum of what its calls of `iget`, `idup`, `ialloc`
and `iput` do.
-/

set_option autoImplicit false

namespace Xv6.Fs

open Library

/-! ## Requests on the cache -/

section
variable {H : Type} {sb : Superblock} {log : Log}

def Alike (ip ip' : MemInode) : Prop := ip'.ref = ip.ref ∧ ip'.locked = ip.locked

def Resized (ip ip' : MemInode) : Prop := ∃ node size, ip' = { ip with toInode := node, size := size }

theorem Resized.refl (ip : MemInode) : Resized ip ip := ⟨ip.toInode, ip.size, rfl⟩

theorem Resized.mapped {ip ip' : MemInode} (node : Inode) (resized : Resized { ip with toInode := node } ip') :
    Resized ip ip' := resized

theorem Resized.alike {ip ip' : MemInode} (resized : Resized ip ip') : Alike ip ip' := by
  obtain ⟨node, size, rfl⟩ := resized
  exact ⟨rfl, rfl⟩

theorem readLoop_resized (n : UInt64) (turns : Nat) (tot off : UInt64) (dst : Nat → UInt8) (ip : MemInode) (log : Log) :
    (readLoop sb n turns tot off dst ip log : Program (Bio H) _).Yields fun out => Resized ip out.2.1 := by
  induction turns generalizing tot off dst ip log with
  | zero =>
    unfold readLoop
    split
    · exact fun reply => Empty.elim reply
    · exact Resized.refl ip
  | succ turns ih =>
    unfold readLoop
    split
    · refine Program.yields_then fun mapped => Program.yields_then fun bp => Program.yields_then fun _ => ?_
      exact Program.yields_then fun _ => (ih _ _ _ { ip with toInode := mapped.2.1 } _).mono fun _ =>
        Resized.mapped mapped.2.1
    · exact Resized.refl ip

theorem readi_resized (devsw : Fin ndev → Devsw H) (ip : MemInode) (dst : Nat → UInt8) (off n : UInt64) :
    (readi sb devsw log ip dst off n).Yields fun out => Resized ip out.2.2.1 := by
  unfold readi
  split
  · split
    · split
      · exact Program.yields_then fun _ => Resized.refl ip
      · exact Resized.refl ip
    · exact Resized.refl ip
  · split
    · exact Resized.refl ip
    · exact (readLoop_resized _ _ 0 off dst ip log).bind fun _ resized => resized

theorem readi_alike (devsw : Fin ndev → Devsw H) (ip : MemInode) (dst : Nat → UInt8) (off n : UInt64) :
    (readi sb devsw log ip dst off n).Yields fun out => Alike ip out.2.2.1 :=
  (readi_resized devsw ip dst off n).mono fun _ => Resized.alike

theorem writeLoop_resized (src : Nat → UInt8) (n : UInt64) (turns : Nat) (tot off : UInt64) (ip : MemInode)
    (log : Log) :
    (writeLoop sb src n turns tot off ip log : Program (Bio H) _).Yields fun out => Resized ip out.2.1 := by
  induction turns generalizing tot off ip log with
  | zero =>
    unfold writeLoop
    split
    · exact fun reply => Empty.elim reply
    · exact Resized.refl ip
  | succ turns ih =>
    unfold writeLoop
    split
    · refine Program.yields_then fun mapped => Program.yields_then fun bp => Program.yields_then fun _ => ?_
      refine Program.yields_then fun _ => Program.yields_then fun _ => Program.yields_then fun _ => ?_
      exact (ih _ _ { ip with toInode := mapped.2.1 } _).mono fun _ => Resized.mapped mapped.2.1
    · exact Resized.refl ip

theorem writei_resized (devsw : Fin ndev → Devsw H) (ip : MemInode) (src : Nat → UInt8) (off n : UInt64) :
    (writei sb devsw log ip src off n).Yields fun out => Resized ip out.2.1 := by
  unfold writei
  split
  · split
    · split
      · exact Program.yields_then fun _ => Resized.refl ip
      · exact Resized.refl ip
    · exact Resized.refl ip
  · split
    · exact Resized.refl ip
    · split
      · exact Resized.refl ip
      · refine (writeLoop_resized src n _ 0 off ip log).bind fun ⟨last, node, log₁⟩ resized => ?_
        obtain ⟨addrs, size, rfl⟩ := resized
        dsimp only
        split
        · exact Program.yields_then fun _ => ⟨addrs, _, rfl⟩
        · exact ⟨addrs, size, rfl⟩

theorem writei_alike (devsw : Fin ndev → Devsw H) (ip : MemInode) (src : Nat → UInt8) (off n : UInt64) :
    (writei sb devsw log ip src off n).Yields fun out => Alike ip out.2.1 :=
  (writei_resized devsw ip src off n).mono fun _ => Resized.alike

theorem itrunc_alike (ip : MemInode) (log : Log) :
    (itrunc sb log ip : Program (Bio H) (MemInode × Log)).Yields fun out => Alike ip out.1 :=
  Program.yields_then fun _ => Program.yields_then fun _ => Program.yields_then fun _ => ⟨rfl, rfl⟩

theorem iput_alike (c : Icache) (i : Fin ninode) :
    (iput sb c log i : Program (Bio H) (Icache × Log)).Yields fun out =>
    ∃ ip, out.1 = Function.update c i ip ∧ ip.ref = (c i).ref - 1 ∧ ip.locked = (c i).locked := by
  unfold iput
  split
  · split
    · exact fun reply => Empty.elim reply
    · refine (itrunc_alike (c i) log).bind fun out alike => Program.yields_then fun _ => ?_
      exact ⟨_, rfl, congrArg (· - 1) alike.1, alike.2⟩
  · exact ⟨_, rfl, rfl, rfl⟩

theorem ilock_alike (c : Icache) (i : Fin ninode) : (ilock sb c i : Program (Bio H) Icache).Yields fun c' =>
    (c i).locked = false ∧ ∃ ip, c' = Function.update c i ip ∧ ip.ref = (c i).ref ∧ ip.locked = true := by
  unfold ilock
  split
  · exact fun reply => Empty.elim reply
  · next unlocked =>
    have free : (c i).locked = false := by simpa using unlocked
    split
    · exact ⟨free, _, rfl, rfl, rfl⟩
    · exact Program.yields_then fun _ => Program.yields_then fun _ => Program.yields_then fun _ =>
        ⟨free, _, rfl, rfl, rfl⟩

theorem iget_alike {c c' : Icache} {dev inum : UInt32} {i : Fin ninode} (got : c.iget dev inum = some (i, c')) :
    ∃ ip, c' = Function.update c i ip ∧ ip.ref = (c i).ref + 1 ∧ ip.locked = (c i).locked := by
  rcases Icache.iget_cases got with ⟨_, _, _, same⟩ | ⟨_, unused, same⟩
  · exact ⟨_, same, rfl, rfl⟩
  · exact ⟨_, same, by rw [unused]; rfl, rfl⟩

theorem ialloc_alike (c : Icache) (dev : UInt32) (type : UInt16) :
    (ialloc sb c log dev type : Program (Bio H) (Fin ninode × Icache × Log)).Yields fun out =>
      ∃ ip, out.2.1 = Function.update c out.1 ip ∧ ip.ref = (c out.1).ref + 1 ∧ ip.locked = (c out.1).locked := by
  refine Program.yields_then fun ⟨inum, log'⟩ => ?_
  dsimp only
  cases got : c.iget dev inum with
  | some out => exact iget_alike got
  | none => exact fun reply => Empty.elim reply

end

/-! ## Counts -/

/-- The references to the entries of the cache. -/
def refs (m : Machine) (i : Fin ninode) : Int := (m.icache i).ref

def locks (m : Machine) (i : Fin ninode) : Bool := (m.icache i).locked

/-- The counts of references have changed, and no lock. -/
structure Moves (gain : Fin ninode → Int) (s t : Machine) : Prop where
  refs : refs t = refs s + gain
  locks : locks t = locks s

abbrev one (i : Fin ninode) : Fin ninode → Int := Pi.single i 1

variable {sb : Superblock} {devsw : Fin ndev → Devsw UInt32} {s t u : Machine} {i : Fin ninode} {A B : Type}

theorem Moves.refl (s : Machine) : Moves 0 s s := ⟨(add_zero _).symm, rfl⟩

theorem Moves.trans {gain more : Fin ninode → Int} (first : Moves gain s t) (second : Moves more t u) :
    Moves (gain + more) s u := by
  refine ⟨?_, second.locks.trans first.locks⟩
  rw [second.refs, first.refs, add_assoc]

theorem refs_update {ip : MemInode} {d : Int} (isC : t.icache = Function.update s.icache i ip)
    (ref : ip.ref = (s.icache i).ref + d) : refs t = refs s + Pi.single i d := by
  funext j
  rw [refs, isC, Pi.add_apply]
  by_cases same : j = i
  · subst same
    rw [Function.update_self, Pi.single_eq_same]
    exact ref
  · rw [Function.update_of_ne same, Pi.single_eq_of_ne same, add_zero]
    rfl

theorem locks_update {ip : MemInode} (isC : t.icache = Function.update s.icache i ip) :
    locks t = Function.update (locks s) i ip.locked := by
  funext j
  rw [locks, isC]
  by_cases same : j = i
  · subst same
    rw [Function.update_self, Function.update_self]
  · rw [Function.update_of_ne same, Function.update_of_ne same]
    rfl

theorem Moves.update {ip : MemInode} {d : Int} (isC : t.icache = Function.update s.icache i ip)
    (ref : ip.ref = (s.icache i).ref + d) (lock : ip.locked = (s.icache i).locked) : Moves (Pi.single i d) s t := by
  refine ⟨refs_update isC ref, ?_⟩
  rw [locks_update isC, lock]
  exact Function.update_eq_self i (Fs.locks s)

end Xv6.Fs

/-! ## Requests -/

namespace Xv6.Inodes

open Library Fs

variable {sb : Superblock} {devsw : Fin ndev → Devsw UInt32} {s t u : Machine} {i : Fin ninode} {A B : Type}

theorem request_returns {r : Inodes.Request} {reply : Inodes.Reply r}
    (ran : (Program.request (I := Inodes) r).run (Machine.handle sb devsw) s = some (reply, t)) :
    Machine.handle sb devsw r s = some (reply, t) :=
  (Program.run_request (I := Inodes) r s).symm.trans ran

theorem iget_moves {dev inum : UInt32} (ran : (iget dev inum).run (Machine.handle sb devsw) s = some (i, t)) :
    Moves (one i) s t := by
  obtain ⟨⟨j, c⟩, got, same⟩ := Option.map_eq_some_iff.mp (request_returns ran)
  cases same
  obtain ⟨ip, rfl, ref, lock⟩ := iget_alike got
  exact Moves.update rfl ref lock

theorem idup_moves (ran : (idup i).run (Machine.handle sb devsw) s = some ((), t)) : Moves (one i) s t := by
  cases request_returns ran
  exact Moves.update rfl rfl rfl

theorem iput_moves (ran : (iput i).run (Machine.handle sb devsw) s = some ((), t)) : Moves (-one i) s t := by
  obtain ⟨⟨⟨c, log⟩, v⟩, answered, same⟩ := Option.map_eq_some_iff.mp (request_returns ran)
  cases same
  obtain ⟨ip, isC, ref, lock⟩ := (iput_alike s.icache i).returned answered
  have moves : Moves (Pi.single i (-1)) s ⟨c, log, v⟩ := Moves.update isC (ref.trans (sub_eq_add_neg _ _)) lock
  rw [Pi.single_neg] at moves
  exact moves

theorem ialloc_moves {dev : UInt32} {type : UInt16}
    (ran : (ialloc dev type).run (Machine.handle sb devsw) s = some (i, t)) :
    Moves (one i) s t := by
  obtain ⟨⟨⟨j, c, log⟩, v⟩, answered, same⟩ := Option.map_eq_some_iff.mp (request_returns ran)
  cases same
  obtain ⟨ip, isC, ref, lock⟩ := (ialloc_alike s.icache dev type).returned answered
  exact Moves.update isC ref lock

theorem ilock_locks (ran : (ilock i).run (Machine.handle sb devsw) s = some ((), t)) :
    locks s i = false ∧ refs t = refs s ∧ locks t = Function.update (locks s) i true := by
  obtain ⟨⟨c, v⟩, answered, same⟩ := Option.map_eq_some_iff.mp (request_returns ran)
  cases same
  obtain ⟨free, ip, isC, ref, lock⟩ := (ilock_alike s.icache i).returned answered
  refine ⟨free, ?_, ?_⟩
  · have same := refs_update (t := ⟨c, s.log, v⟩) isC (ref.trans (add_zero _).symm)
    rwa [Pi.single_zero, add_zero] at same
  · rw [locks_update (t := ⟨c, s.log, v⟩) isC, lock]

theorem iunlock_unlocks (ran : (iunlock i).run (Machine.handle sb devsw) s = some ((), t)) :
    refs t = refs s ∧ locks t = Function.update (locks s) i false := by
  cases request_returns ran
  obtain ⟨t, isT⟩ : ∃ t : Machine, t = { s with icache := s.icache.iunlock i } := ⟨_, rfl⟩
  have isC : t.icache = Function.update s.icache i { s.icache i with locked := false } := by rw [isT]; rfl
  have same := refs_update isC (add_zero (s.icache i).ref).symm
  rw [Pi.single_zero, add_zero] at same
  exact isT ▸ ⟨same, locks_update isC⟩

variable (sb devsw) in
def Still (p : Program Inodes A) : Prop := ∀ s a t, p.run (Machine.handle sb devsw) s = some (a, t) → Moves 0 s t

theorem still_pure (value : A) : Still sb devsw (pure value : Program Inodes A) := by
  rintro s a t ran
  cases ran
  exact Moves.refl s

theorem still_panic : Still sb devsw (panic : Program Inodes A) := by
  rintro s a t ran
  cases ran

theorem Still.bind {p : Program Inodes A} {k : A → Program Inodes B} (first : Still sb devsw p)
    (next : ∀ a, Still sb devsw (k a)) : Still sb devsw (p >>= k) := by
  rintro s b t ran
  obtain ⟨a, u, ran, rest⟩ := Program.run_bind_eq_some.mp ran
  have moves := (first s a u ran).trans (next a u b t rest)
  rwa [add_zero] at moves

theorem still_fields (i : Fin ninode) : Still sb devsw (fields i) := by
  rintro s a t ran
  cases request_returns ran
  exact Moves.refl s

theorem still_setLinks (i : Fin ninode) (major minor nlink : UInt16) :
    Still sb devsw (setLinks i major minor nlink) := by
  rintro s a t ran
  cases request_returns ran
  have moves : Moves (Pi.single i 0) s
      { s with icache := Function.update s.icache i { s.icache i with major, minor, nlink } } :=
    Moves.update rfl (add_zero _).symm rfl
  rwa [Pi.single_zero] at moves

theorem still_iupdate (i : Fin ninode) : Still sb devsw (iupdate i) := by
  rintro s a t ran
  obtain ⟨⟨log, v⟩, _, same⟩ := Option.map_eq_some_iff.mp (request_returns ran)
  cases same
  exact ⟨(add_zero _).symm, rfl⟩

theorem still_readi (i : Fin ninode) (dst : Nat → UInt8) (off n : UInt64) : Still sb devsw (readi i dst off n) := by
  rintro s a t ran
  obtain ⟨⟨⟨r, dst', ip, log⟩, v⟩, answered, same⟩ := Option.map_eq_some_iff.mp (request_returns ran)
  cases same
  have alike := (readi_alike ..).returned answered
  have moves : Moves (Pi.single i 0) s ⟨Function.update s.icache i ip, log, v⟩ :=
    Moves.update rfl (alike.1.trans (add_zero _).symm) alike.2
  rwa [Pi.single_zero] at moves

theorem still_writei (i : Fin ninode) (src : Nat → UInt8) (off n : UInt64) : Still sb devsw (writei i src off n) := by
  rintro s a t ran
  obtain ⟨⟨⟨r, ip, log⟩, v⟩, answered, same⟩ := Option.map_eq_some_iff.mp (request_returns ran)
  cases same
  have alike := (writei_alike ..).returned answered
  have moves : Moves (Pi.single i 0) s ⟨Function.update s.icache i ip, log, v⟩ :=
    Moves.update rfl (alike.1.trans (add_zero _).symm) alike.2
  rwa [Pi.single_zero] at moves

/-! ## Directories and paths -/

def found : Option (Fin ninode) → Fin ninode → Int
  | some i => one i
  | none => 0

theorem still_readEntry (dp : Fin ninode) (off : UInt64) : Still sb devsw (readEntry dp off) := by
  refine (still_readi dp _ off deSize).bind fun ⟨r, de⟩ => ?_
  dsimp only
  split
  · exact still_pure _
  · exact still_panic

theorem lookupFrom_moves {dp : Fin ninode} {dev : UInt32} {name : Name} {turns : Nat} {off : UInt64}
    {out : Option (Fin ninode × UInt64)}
    (ran : (lookupFrom dp dev name turns off).run (Machine.handle sb devsw) s = some (out, t)) :
    Moves (found (out.map Prod.fst)) s t := by
  induction turns generalizing off s with
  | zero =>
    cases ran
    exact Moves.refl _
  | succ turns ih =>
    obtain ⟨de, u, reads, rest⟩ := Program.run_bind_eq_some.mp ran
    have still := still_readEntry dp off _ de u reads
    rw [← zero_add (found _)]
    refine still.trans ?_
    split at rest
    · obtain ⟨i, v, gets, rest⟩ := Program.run_bind_eq_some.mp rest
      cases rest
      exact iget_moves gets
    · exact ih rest

theorem dirlookup_moves {dp : Fin ninode} {name : Name} {out : Option (Fin ninode × UInt64)}
    (ran : (dirlookup dp name).run (Machine.handle sb devsw) s = some (out, t)) :
    Moves (found (out.map Prod.fst)) s t := by
  obtain ⟨d, u, reads, rest⟩ := Program.run_bind_eq_some.mp ran
  have still := still_fields dp s d u reads
  rw [← zero_add (found _)]
  refine still.trans ?_
  split at rest
  · cases rest
  · exact lookupFrom_moves rest

theorem still_emptyFrom (dp : Fin ninode) (turns : Nat) (off : UInt64) : Still sb devsw (emptyFrom dp turns off) := by
  induction turns generalizing off with
  | zero => exact still_pure _
  | succ turns ih =>
    refine (still_readEntry dp off).bind fun de => ?_
    split
    · exact still_pure _
    · exact ih _

theorem still_dirlink (dp : Fin ninode) (name : Name) (inum : UInt32) : Still sb devsw (dirlink dp name inum) := by
  intro s a t ran
  obtain ⟨out, u, looks, rest⟩ := Program.run_bind_eq_some.mp ran
  have looked := dirlookup_moves looks
  cases out with
  | some out =>
    obtain ⟨_, v, puts, rest⟩ := Program.run_bind_eq_some.mp rest
    cases rest
    have moves := looked.trans (iput_moves puts)
    rwa [Option.map_some, found, add_neg_cancel] at moves
  | none =>
    have later : Still sb devsw (do
        let off ← emptyFrom dp (entries (← fields dp).size) 0
        let de : Dirent := ⟨inum.toUInt16, fun i => (strncpy name dirsiz).getD i.val 0⟩
        let r ← writei dp de.byte off deSize
        if r = direntSize then return 0 else panic : Program Inodes Int) := by
      refine (still_fields dp).bind fun d => (still_emptyFrom dp _ 0).bind fun off => ?_
      refine (still_writei dp _ off deSize).bind fun r => ?_
      split
      · exact still_pure _
      · exact still_panic
    have moves := looked.trans (later u a t rest)
    rwa [add_zero] at moves

theorem iunlockput_moves (ran : (iunlockput i).run (Machine.handle sb devsw) s = some ((), t)) :
    refs t = refs s - one i ∧ locks t = Function.update (locks s) i false := by
  obtain ⟨_, u, unlocks, puts⟩ := Program.run_bind_eq_some.mp ran
  obtain ⟨refs, locks⟩ := iunlock_unlocks unlocks
  have moves := iput_moves puts
  rw [moves.refs, moves.locks, refs, locks]
  exact ⟨(sub_eq_add_neg _ _).symm, rfl⟩

theorem locks_back {m : Fin ninode → Bool} (free : m i = false) :
    Function.update (Function.update m i true) i false = m := by
  rw [Function.update_idem, ← free]
  exact Function.update_eq_self i m

theorem startOf_moves {cwd : Option (Fin ninode)} {path : List UInt8}
    (ran : (startOf cwd path).run (Machine.handle sb devsw) s = some (i, t)) : Moves (one i) s t := by
  unfold startOf at ran
  split at ran
  · exact iget_moves ran
  · split at ran
    · obtain ⟨_, u, dups, rest⟩ := Program.run_bind_eq_some.mp ran
      cases rest
      exact idup_moves dups
    · cases ran

theorem namexEnd_moves {parent : Bool} {name : Name} {out : Option (Fin ninode × Name)}
    (ran : (namexEnd parent i name).run (Machine.handle sb devsw) s = some (out, t)) :
    Moves (found (out.map Prod.fst) - one i) s t := by
  unfold namexEnd at ran
  split at ran
  · obtain ⟨_, u, puts, rest⟩ := Program.run_bind_eq_some.mp ran
    cases rest
    rw [Option.map_none, found, zero_sub]
    exact iput_moves puts
  · cases ran
    rw [Option.map_some, found, sub_self]
    exact Moves.refl s

/-- The loop of `namex` gives back the inode that it starts from, and keeps the one that it returns. -/
theorem namexFrom_moves {parent : Bool} {turns : Nat} {path : List UInt8} {name : Name}
    {out : Option (Fin ninode × Name)}
    (ran : (namexFrom parent turns i path name).run (Machine.handle sb devsw) s = some (out, t)) :
    Moves (found (out.map Prod.fst) - one i) s t := by
  induction turns generalizing i path name s with
  | zero => exact namexEnd_moves ran
  | succ turns ih =>
    rw [namexFrom] at ran
    split at ran
    · exact namexEnd_moves ran
    · next rest name' _ =>
      obtain ⟨_, s₁, locked, ran⟩ := Program.run_bind_eq_some.mp ran
      obtain ⟨free, refs₁, locks₁⟩ := ilock_locks locked
      obtain ⟨d, s₂, reads, ran⟩ := Program.run_bind_eq_some.mp ran
      have still := still_fields i _ d s₂ reads
      rw [← still.locks] at locks₁
      have refs₂ : refs s₂ = refs _ := (still.refs.trans (add_zero _)).trans refs₁
      split at ran
      · obtain ⟨_, s₃, puts, ran⟩ := Program.run_bind_eq_some.mp ran
        cases ran
        obtain ⟨refs₃, locks₃⟩ := iunlockput_moves puts
        refine ⟨?_, ?_⟩
        · rw [refs₃, refs₂, Option.map_none, found, zero_sub, sub_eq_add_neg]
        · rw [locks₃, locks₁, locks_back free]
      · split at ran
        · obtain ⟨_, s₃, unlocks, ran⟩ := Program.run_bind_eq_some.mp ran
          cases ran
          obtain ⟨refs₃, locks₃⟩ := iunlock_unlocks unlocks
          refine ⟨?_, ?_⟩
          · rw [refs₃, refs₂, Option.map_some, found, sub_self, add_zero]
          · rw [locks₃, locks₁, locks_back free]
        · obtain ⟨looked, s₃, looks, ran⟩ := Program.run_bind_eq_some.mp ran
          have moves := dirlookup_moves looks
          cases looked with
          | none =>
            obtain ⟨_, s₄, puts, ran⟩ := Program.run_bind_eq_some.mp ran
            cases ran
            obtain ⟨refs₄, locks₄⟩ := iunlockput_moves puts
            refine ⟨?_, ?_⟩
            · rw [refs₄, moves.refs, refs₂, Option.map_none, Option.map_none, found, add_zero, zero_sub,
                sub_eq_add_neg]
            · rw [locks₄, moves.locks, locks₁, locks_back free]
          | some next =>
            obtain ⟨_, s₄, puts, ran⟩ := Program.run_bind_eq_some.mp ran
            obtain ⟨refs₄, locks₄⟩ := iunlockput_moves puts
            have later := ih ran
            refine ⟨?_, ?_⟩
            · rw [later.refs, refs₄, moves.refs, refs₂, Option.map_some, found]
              funext j
              simp only [Pi.add_apply, Pi.sub_apply]
              omega
            · rw [later.locks, locks₄, moves.locks, locks₁, locks_back free]

theorem namex_moves {cwd : Option (Fin ninode)} {path : List UInt8} {parent : Bool} {name : Name}
    {out : Option (Fin ninode × Name)}
    (ran : (namex cwd path parent name).run (Machine.handle sb devsw) s = some (out, t)) :
    Moves (found (out.map Prod.fst)) s t := by
  obtain ⟨i, u, starts, loops⟩ := Program.run_bind_eq_some.mp ran
  have moves := (startOf_moves starts).trans (namexFrom_moves loops)
  rwa [add_sub_cancel] at moves

/-! ## create -/

/-- The returned inode has one more reference and is locked, and nothing else has changed. -/
structure Neutral (r : Option (Fin ninode)) (s t : Machine) : Prop where
  refs : refs t = refs s + found r
  locks : locks t = match r with
    | some i => Function.update (locks s) i true
    | none => locks s

variable (sb devsw) in
/-- The parent directory of a path has an entry with the last name. -/
def HasEntry (cwd : Option (Fin ninode)) (path : List UInt8) (s : Machine) : Prop :=
  ∃ dp name find u v w, (nameiparent cwd path fun _ => 0).run
    (Machine.handle sb devsw) s = some (some (dp, name), u) ∧
    (ilock dp).run (Machine.handle sb devsw) u = some ((), v) ∧
    (dirlookup dp name).run (Machine.handle sb devsw) v = some (some find, w)

theorem createFound_refs {dp find : Fin ninode} {type : UInt16} {r : Option (Fin ninode)}
    (ran : (createFound dp find type).run (Machine.handle sb devsw) s = some (r, t)) :
    refs t = refs s ∧ (r = some find ∨ r = none) := by
  obtain ⟨_, s₁, unlocks, ran⟩ := Program.run_bind_eq_some.mp ran
  obtain ⟨refs₁, _⟩ := iunlock_unlocks unlocks
  obtain ⟨_, s₂, locked, ran⟩ := Program.run_bind_eq_some.mp ran
  obtain ⟨_, refs₂, _⟩ := ilock_locks locked
  split at ran
  · cases ran
    exact ⟨refs₂.trans refs₁, .inl rfl⟩
  · obtain ⟨_, s₃, unlocks, ran⟩ := Program.run_bind_eq_some.mp ran
    cases ran
    exact ⟨(iunlock_unlocks unlocks).1.trans (refs₂.trans refs₁), .inr rfl⟩

theorem still_linkType (dp ind : Fin ninode) (type : UInt16) : Still sb devsw (linkType dp ind type) := by
  unfold linkType
  split
  · refine (still_fields dp).bind fun d => (still_setLinks dp _ _ _).bind fun _ => (still_iupdate dp).bind fun _ => ?_
    refine (still_fields ind).bind fun x => (still_dirlink ind _ _).bind fun _ => ?_
    exact (still_fields dp).bind fun x => (still_dirlink ind _ _).bind fun _ => still_pure ()
  · exact still_pure ()

theorem createNew_returns {dp : Fin ninode} {name : Name} {type major minor : UInt16} {r : Option (Fin ninode)}
    (held : locks s dp = true)
    (ran : (createNew dp name type major minor).run (Machine.handle sb devsw) s = some (r, t)) :
    ∃ ind, r = some ind ∧ ind ≠ dp ∧ refs t = refs s + one ind - one dp ∧
      locks t = Function.update (Function.update (locks s) ind true) dp false := by
  obtain ⟨d, s₁, reads, ran⟩ := Program.run_bind_eq_some.mp ran
  have moves₁ := still_fields dp _ d s₁ reads
  obtain ⟨ind, s₂, allocates, ran⟩ := Program.run_bind_eq_some.mp ran
  have moves₂ := moves₁.trans (ialloc_moves allocates)
  obtain ⟨_, s₃, locked, ran⟩ := Program.run_bind_eq_some.mp ran
  obtain ⟨free, refs₃, locks₃⟩ := ilock_locks locked
  have other : ind ≠ dp := by
    rintro rfl
    rw [moves₂.locks, held] at free
    cases free
  have middle : Still sb devsw (do
      setLinks ind major minor 1
      iupdate ind
      linkType dp ind type
      let _ ← dirlink dp name (← fields ind).inum) := by
    refine (still_setLinks ind major minor 1).bind fun _ => (still_iupdate ind).bind fun _ => ?_
    refine (still_linkType dp ind type).bind fun _ => (still_fields ind).bind fun x => ?_
    exact (still_dirlink dp name x.inum).bind fun _ => still_pure ()
  have split : ((do
      setLinks ind major minor 1
      iupdate ind
      linkType dp ind type
      let _ ← dirlink dp name (← fields ind).inum : Program Inodes Unit) >>= fun _ => do
        iunlockput dp
        return some ind).run (Machine.handle sb devsw) s₃ = some (r, t) := by
    simpa only [bind_assoc, pure_bind] using ran
  obtain ⟨_, s₄, links, rest⟩ := Program.run_bind_eq_some.mp split
  have moves₄ := middle _ _ _ links
  obtain ⟨_, s₅, puts, rest⟩ := Program.run_bind_eq_some.mp rest
  cases rest
  obtain ⟨refs₅, locks₅⟩ := iunlockput_moves puts
  refine ⟨ind, rfl, other, ?_, ?_⟩
  · rw [refs₅, moves₄.refs, refs₃, moves₂.refs, zero_add, add_zero]
  · rw [locks₅, moves₄.locks, locks₃, moves₂.locks]

/-- `create` leaves no reference and no lock but those of the inode that it returns, if and only if the name is new or
the directory is missing. -/
theorem create_neutral_iff {cwd : Option (Fin ninode)} {path : List UInt8} {type major minor : UInt16}
    {r : Option (Fin ninode)}
    (ran : (create cwd path type major minor).run (Machine.handle sb devsw) s = some (r, t)) :
    Neutral r s t ↔ ¬ HasEntry sb devsw cwd path s := by
  obtain ⟨parent, u, names, ran⟩ := Program.run_bind_eq_some.mp ran
  have moves := namex_moves names
  cases parent with
  | none =>
    cases ran
    refine iff_of_true ⟨moves.refs, moves.locks⟩ ?_
    rintro ⟨dp, name, find, u, v, w, named, _⟩
    cases names.symm.trans named
  | some parent =>
    obtain ⟨dp, name⟩ := parent
    obtain ⟨_, v, locked, ran⟩ := Program.run_bind_eq_some.mp ran
    obtain ⟨free, refs₁, locks₁⟩ := ilock_locks locked
    obtain ⟨looked, w, looks, ran⟩ := Program.run_bind_eq_some.mp ran
    have moves₂ := dirlookup_moves looks
    cases looked with
    | some find =>
      refine iff_of_false (fun neutral => ?_) (not_not.mpr ⟨dp, name, find, u, v, w, names, locked, looks⟩)
      obtain ⟨kept, isR⟩ := createFound_refs ran
      have all : refs t = refs s + one dp + one find.1 := by
        rw [kept, moves₂.refs, refs₁, moves.refs]
        rfl
      have here := congrFun (all.symm.trans neutral.refs) dp
      have positive : 0 ≤ one find.1 dp := by
        rw [one, Pi.single_apply]
        split <;> omega
      simp only [Pi.add_apply, one, Pi.single_eq_same] at here positive
      rcases isR with rfl | rfl
      · simp only [found, one] at here
        omega
      · simp only [found, Pi.zero_apply] at here
        omega
    | none =>
      refine iff_of_true ?_ ?_
      · have held : locks w dp = true := by
          rw [moves₂.locks, locks₁, Function.update_self]
        obtain ⟨ind, rfl, other, refs₂, locks₂⟩ := createNew_returns held ran
        refine ⟨?_, ?_⟩
        · rw [refs₂, moves₂.refs, refs₁, moves.refs]
          simp only [Option.map_some, Option.map_none, found, add_zero]
          funext j
          simp only [Pi.add_apply, Pi.sub_apply]
          omega
        · rw [locks₂, moves₂.locks, locks₁, Function.update_comm other.symm, locks_back]
          · rw [moves.locks]
          · rw [Function.update_of_ne other.symm]
            exact free
      · rintro ⟨dp', name', find, u', v', w', named, locked', looks'⟩
        cases names.symm.trans named
        cases locked.symm.trans locked'
        cases looks.symm.trans looks'

/-! ## A root directory -/

def rootDisk : UInt32 → Block := fun b =>
  if b = iblock ROOTINO Mkfs.superblock then
    Block.zero.setDinode (inodeIndex ROOTINO) ⟨T_DIR, 0, 0, 1, 16, fun k => if k.val = 0 then 61 else 0⟩
  else if b = 61 then fun k => if k.val = 0 then 1 else if k.val = 2 then 46 else 0
  else Block.zero

def firstEntry : Fin ninode := ⟨0, Nat.succ_pos 49⟩

def rootMachine : Machine := ⟨Icache.init, emptyLog, Store.boot rootDisk⟩

theorem create_neutral_iff_new : ∃ r t, (create none [slash, 97] T_FILE 0 0).run
      (Machine.handle Mkfs.superblock noDevices) rootMachine = some (r, t) ∧
    (Neutral r rootMachine t ↔ ¬ HasEntry Mkfs.superblock noDevices none [slash, 97] rootMachine) := by
  have returns : ((create none [slash, 97] T_FILE 0 0).run
    (Machine.handle Mkfs.superblock noDevices) rootMachine).isSome =
      true := by
    decide +kernel
  obtain ⟨⟨r, t⟩, ran⟩ := Option.isSome_iff_exists.mp returns
  exact ⟨r, t, ran, create_neutral_iff ran⟩

/-- `/.` exists, and the root directory has two references more. -/
theorem create_keeps_parent : ¬ ∀ (cwd : Option (Fin ninode)) (path : List UInt8) (type major minor : UInt16)
    (r : Option (Fin ninode)) (s t : Machine), (create cwd path type major minor).run
      (Machine.handle Mkfs.superblock noDevices) s = some (r, t) → Neutral r s t := by
  intro always
  have twice : ((create none [slash, 46] T_FILE 0 0).run (Machine.handle Mkfs.superblock noDevices) rootMachine).any
      (fun (r, t) => r = some firstEntry ∧ refs t firstEntry = 2) = true := by
    decide +kernel
  obtain ⟨⟨r, t⟩, ran, same⟩ := (Option.any_eq_true _ _).mp twice
  obtain ⟨rfl, two⟩ := of_decide_eq_true same
  have once := congrFun (always _ _ _ _ _ _ _ _ ran).refs firstEntry
  rw [two, Pi.add_apply, found, one, Pi.single_eq_same] at once
  have before : refs rootMachine firstEntry = 0 := rfl
  omega

end Xv6.Inodes
