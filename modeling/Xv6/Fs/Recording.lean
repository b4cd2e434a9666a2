import Xv6.Fs.Machine

/-! What the functions that write blocks do to the log.

They record blocks in its header. The operations that are open stay.
-/

set_option autoImplicit false

namespace Xv6.Fs

open Library

def Records (log log' : Log) : Prop := log' = { log with lh := log'.lh }

variable {H : Type} {log : Log}

theorem Records.refl (log : Log) : Records log log := rfl

theorem Records.trans {log' log'' : Log} (first : Records log log') (second : Records log' log'') :
    Records log log'' := by
  have same : log'' = { log' with lh := log''.lh } := second
  rw [first] at same
  exact same

theorem Records.outstanding {log' : Log} (records : Records log log') : log'.outstanding = log.outstanding := by
  rw [records]

theorem Records.committing {log' : Log} (records : Records log log') : log'.committing = log.committing := by
  rw [records]

theorem logWrite_records (log : Log) (b : H) : (log.logWrite b).Yields (Records log) := by
  refine Program.yields_then fun blockno => Program.yields_then fun lh => ?_
  have records : Records log { log with lh } := rfl
  exact Program.yields_then fun _ => records

theorem logWrite_then {A : Type} {post : A → Prop} {k : Log → Program (Bio H) A} (b : H)
    (next : ∀ log', Records log log' → (k log').Yields post) : (log.logWrite b >>= k).Yields post :=
  (logWrite_records log b).bind next

theorem bzero_records (log : Log) (dev bno : UInt32) :
    (bzero log dev bno : Program (Bio H) Log).Yields (Records log) :=
  Program.yields_then fun bf => Program.yields_then fun _ => logWrite_then bf fun _ records =>
    Program.yields_then fun _ => records

theorem ballocFrom_records (sb : Superblock) (dev : UInt32) (turns : Nat) (i : UInt32) :
    (ballocFrom sb log dev turns i : Program (Bio H) (UInt32 × Log)).Yields fun out => Records log out.2 := by
  induction turns generalizing i with
  | zero => exact fun reply => Empty.elim reply
  | succ turns ih =>
    refine Program.yields_then fun bf => Program.yields_then fun data => ?_
    cases data.firstFree with
    | some j =>
      refine Program.yields_then fun _ => logWrite_then bf fun log₁ first => Program.yields_then fun _ => ?_
      exact (bzero_records log₁ dev _).bind fun _ second => first.trans second
    | none => exact Program.yields_then fun _ => ih _

theorem mapAddr_records (sb : Superblock) (ip : Inode) (k : Fin (ndirect + 1)) :
    (mapAddr sb log ip k : Program (Bio H) (Inode × Log)).Yields fun out => Records log out.2 := by
  unfold mapAddr
  split
  · exact (ballocFrom_records sb ip.dev _ 0).bind fun _ records => records
  · exact Records.refl log

theorem mapEntry_records (sb : Superblock) (dev : UInt32) (bf : H) (j : Fin nindirect) :
    (mapEntry sb log dev bf j).Yields (Records log) := by
  refine Program.yields_then fun data => ?_
  split
  · exact (ballocFrom_records sb dev _ 0).bind fun _ records =>
      Program.yields_then fun _ => Program.yields_then fun _ => records
  · exact Records.refl log

theorem bmap_records (sb : Superblock) (ip : Inode) (bn : UInt32) :
    (bmap sb log ip bn : Program (Bio H) (UInt32 × Inode × Log)).Yields fun out => Records log out.2.2 := by
  unfold bmap
  split
  · exact (mapAddr_records sb ip _).bind fun _ records => records
  · dsimp only
    split
    · refine (mapAddr_records sb ip _).bind fun _ first => Program.yields_then fun bf => ?_
      refine (mapEntry_records sb _ bf _).bind fun _ second => ?_
      exact Program.yields_then fun _ => Program.yields_then fun _ => first.trans second
    · exact fun reply => Empty.elim reply

theorem iupdate_records (sb : Superblock) (log : Log) (ip : MemInode) :
    (iupdate sb log ip : Program (Bio H) Log).Yields (Records log) :=
  Program.yields_then fun bf => Program.yields_then fun _ => Program.yields_then fun _ =>
    logWrite_then bf fun _ records =>
    Program.yields_then fun _ => records

theorem writeLoop_records (sb : Superblock) (src : Nat → UInt8) (n : UInt64) (turns : Nat) (tot off : UInt64)
    (ip : MemInode) :
    (writeLoop sb src n turns tot off ip log : Program (Bio H) (UInt64 × MemInode × Log)).Yields fun out =>
      Records log out.2.2 := by
  induction turns generalizing tot off ip log with
  | zero =>
    unfold writeLoop
    split
    · exact fun reply => Empty.elim reply
    · exact Records.refl log
  | succ turns ih =>
    unfold writeLoop
    split
    · refine (bmap_records sb ip.toInode _).bind fun _ first => Program.yields_then fun bp => ?_
      refine Program.yields_then fun _ => Program.yields_then fun _ => logWrite_then bp fun _ second => ?_
      exact Program.yields_then fun _ => (ih _ _ _).mono fun _ third => (first.trans second).trans third
    · exact Records.refl log

theorem writei_records (sb : Superblock) (devsw : Fin ndev → Devsw H) (ip : MemInode) (src : Nat → UInt8)
    (off n : UInt64) :
    (writei sb devsw log ip src off n).Yields fun out => Records log out.2.2 := by
  unfold writei
  split
  · split
    · split
      · exact Program.yields_then fun _ => Records.refl log
      · exact Records.refl log
    · exact Records.refl log
  · split
    · exact Records.refl log
    · split
      · exact Records.refl log
      · refine (writeLoop_records sb src n _ 0 off ip).bind fun ⟨last, node, log₁⟩ first => ?_
        dsimp only
        split
        · exact (iupdate_records sb _ _).bind fun _ second => first.trans second
        · exact first

theorem readLoop_records (sb : Superblock) (n : UInt64) (turns : Nat) (tot off : UInt64) (dst : Nat → UInt8)
    (ip : MemInode) :
    (readLoop sb n turns tot off dst ip log : Program (Bio H) ((Nat → UInt8) × MemInode × Log)).Yields fun out =>
      Records log out.2.2 := by
  induction turns generalizing tot off dst ip log with
  | zero =>
    unfold readLoop
    split
    · exact fun reply => Empty.elim reply
    · exact Records.refl log
  | succ turns ih =>
    unfold readLoop
    split
    · refine (bmap_records sb ip.toInode _).bind fun _ first => Program.yields_then fun bp => ?_
      refine Program.yields_then fun _ => Program.yields_then fun _ => ?_
      exact (ih _ _ _ _).mono fun _ second => first.trans second
    · exact Records.refl log

theorem readi_records (sb : Superblock) (devsw : Fin ndev → Devsw H) (ip : MemInode) (dst : Nat → UInt8)
    (off n : UInt64) :
    (readi sb devsw log ip dst off n).Yields fun out => Records log out.2.2.2 := by
  unfold readi
  split
  · split
    · split
      · exact Program.yields_then fun _ => Records.refl log
      · exact Records.refl log
    · exact Records.refl log
  · split
    · exact Records.refl log
    · exact (readLoop_records sb _ _ 0 off dst ip).bind fun _ records => records

theorem bfree_records (sb : Superblock) (log : Log) (dev b : UInt32) :
    (bfree sb log dev b : Program (Bio H) Log).Yields (Records log) := by
  refine Program.yields_then fun bf => Program.yields_then fun data => ?_
  split
  · exact Program.yields_then fun _ => logWrite_then bf fun _ records => Program.yields_then fun _ => records
  · exact fun reply => Empty.elim reply

theorem freeRef_records (sb : Superblock) (log : Log) (dev b : UInt32) :
    (freeRef sb log dev b : Program (Bio H) Log).Yields (Records log) := by
  unfold freeRef
  split
  · exact Records.refl log
  · exact bfree_records sb log dev b

theorem truncIndirect_records (sb : Superblock) (log : Log) (ip : MemInode) :
    (truncIndirect sb log ip : Program (Bio H) Log).Yields (Records log) := by
  unfold truncIndirect
  split
  · exact Records.refl log
  · refine Program.yields_then fun bf => ?_
    refine (Program.yields_foldlM (fun _ _ before => ?_) _ (Records.refl log)).bind fun _ first => ?_
    · exact Program.yields_then fun _ => (freeRef_records sb _ _ _).mono fun _ next => before.trans next
    · exact Program.yields_then fun _ => (bfree_records sb _ _ _).mono fun _ second => first.trans second

theorem itrunc_records (sb : Superblock) (log : Log) (ip : MemInode) :
    (itrunc sb log ip : Program (Bio H) (MemInode × Log)).Yields fun out => Records log out.2 := by
  refine (Program.yields_foldlM (fun _ _ before => ?_) _ (Records.refl log)).bind fun _ first => ?_
  · exact (freeRef_records sb _ _ _).mono fun _ next => before.trans next
  · refine (truncIndirect_records sb _ ip).bind fun _ second => (iupdate_records sb _ _).bind fun _ third => ?_
    exact (first.trans second).trans third

theorem iput_records (sb : Superblock) (c : Icache) (log : Log) (i : Fin ninode) :
    (iput sb c log i : Program (Bio H) (Icache × Log)).Yields fun out => Records log out.2 := by
  unfold iput
  split
  · split
    · exact fun reply => Empty.elim reply
    · exact (itrunc_records sb log (c i)).bind fun _ first => (iupdate_records sb _ _).bind fun _ second =>
        first.trans second
  · exact Records.refl log

theorem iallocFrom_records (sb : Superblock) (dev : UInt32) (type : UInt16) (turns : Nat) (i : UInt32) :
    (iallocFrom sb log dev type turns i : Program (Bio H) (UInt32 × Log)).Yields fun out => Records log out.2 := by
  induction turns generalizing i with
  | zero => exact fun reply => Empty.elim reply
  | succ turns ih =>
    refine Program.yields_then fun bf => Program.yields_then fun data => ?_
    cases data.freeInode with
    | some j =>
      exact Program.yields_then fun _ => logWrite_then bf fun _ records => Program.yields_then fun _ => records
    | none => exact Program.yields_then fun _ => ih _

theorem ialloc_records (sb : Superblock) (c : Icache) (log : Log) (dev : UInt32) (type : UInt16) :
    (ialloc sb c log dev type : Program (Bio H) (Fin ninode × Icache × Log)).Yields fun out => Records log out.2.2 := by
  refine (iallocFrom_records sb dev type _ 0).bind fun out records => ?_
  dsimp only
  cases c.iget dev out.1 with
  | none => exact fun reply => Empty.elim reply
  | some found => exact records

theorem handle_records {sb : Superblock} {devsw : Fin ndev → Devsw UInt32} {r : Inodes.Request}
    {reply : Inodes.Reply r} {m m' : Machine} (answered : Machine.handle sb devsw r m = some (reply, m')) :
    Records m.log m'.log := by
  cases r with
  | iget dev inum =>
    obtain ⟨_, _, result⟩ := Option.map_eq_some_iff.mp answered
    cases result
    exact Records.refl m.log
  | idup | iunlock | fields | setLinks =>
    cases answered
    exact Records.refl m.log
  | ilock i =>
    obtain ⟨_, _, result⟩ := Option.map_eq_some_iff.mp answered
    cases result
    exact Records.refl m.log
  | iput i =>
    obtain ⟨_, ran, result⟩ := Option.map_eq_some_iff.mp answered
    cases result
    exact (iput_records sb m.icache m.log i).returned ran
  | ialloc dev type =>
    obtain ⟨_, ran, result⟩ := Option.map_eq_some_iff.mp answered
    cases result
    exact (ialloc_records sb m.icache m.log dev type).returned ran
  | iupdate i =>
    obtain ⟨_, ran, result⟩ := Option.map_eq_some_iff.mp answered
    cases result
    exact (iupdate_records sb m.log _).returned ran
  | readi i dst off n =>
    obtain ⟨_, ran, result⟩ := Option.map_eq_some_iff.mp answered
    cases result
    exact (readi_records sb devsw (m.icache i) dst off n).returned ran
  | writei i src off n =>
    obtain ⟨_, ran, result⟩ := Option.map_eq_some_iff.mp answered
    cases result
    exact (writei_records sb devsw (m.icache i) src off n).returned ran
  | panic => cases answered

theorem run_records {A : Type} {sb : Superblock} {devsw : Fin ndev → Devsw UInt32} {p : Program Inodes A} {a : A}
    {m m' : Machine} (ran : p.run (Machine.handle sb devsw) m = some (a, m')) : Records m.log m'.log := by
  induction p generalizing m with
  | done value =>
    cases ran
    exact Records.refl _
  | call r next ih =>
    obtain ⟨⟨reply, u⟩, answered, rest⟩ := Option.bind_eq_some_iff.mp ran
    exact (handle_records answered).trans (ih reply rest)

theorem commit_records (log : Log) : (log.commit : Program (Bio H) Log).Yields (Records log) := by
  have records : Records log log.reset := rfl
  exact Program.yields_then fun _ => Program.yields_then fun _ => Program.yields_then fun _ =>
    Program.yields_then fun _ => records

end Xv6.Fs
