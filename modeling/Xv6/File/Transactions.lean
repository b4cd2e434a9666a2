import Xv6.File.Chunks
import Xv6.Fs.Creation

/-! How many blocks an operation of the log passes to `log_write`.

An operation is what a process does between `begin_op` and `end_op`. `begin_op` reserves room for
`MAXOPBLOCKS` blocks in the log.
-/

set_option autoImplicit false

namespace Xv6

open Library

-- The blocks that a request of a process passes to `log_write`.
def Calls.logged {C : Type} {n : Nat} (sb : Superblock) (devsw : Fin ndev → Devsw UInt32) :
    (Calls n).Request → Calls.State C n → Finset UInt32
  | .inodes r, s => Machine.logged sb devsw r s.machine
  | _, _ => ∅

namespace Writing

open Syscall Process Calls Calls.State Fs

variable {C : Type} {n : Nat} [DecidableEq C] {addr : Fin n → UInt64} {sb : Superblock}
  {devsw : Fin ndev → Devsw UInt32}
  {p : Fin n} {e : Choice C} {f : Fin nfile} {i : Fin ninode} {src : Nat → UInt8} {count : Int}
  {s t : Calls.State C n}
  {A : Type} {M : Finset UInt32} {k : Nat} {inv : Log → Prop}

-- Besides the blocks of `M`, the program passes at most `k` blocks to `log_write`.
abbrev Logged (addr : Fin n → UInt64) (sb : Superblock) (devsw : Fin ndev → Devsw UInt32) (p : Fin n) (e : Choice C)
    (M : Finset UInt32) (k : Nat) (q : Program (Calls n) A) (s : Calls.State C n)
    (post : A → Calls.State C n → Finset UInt32 → Prop) : Prop :=
  q.Spends (alone addr sb devsw p e) (Calls.logged sb devsw) M k s post

section
variable (q : Program Inodes A) (s : Calls.State C n)

/-- A function of the file system runs on the machine, and passes what it passes there. -/
theorem run_fs : (fs q).run (alone addr sb devsw p e) s =
    (q.run (Machine.handle sb devsw) s.machine).map fun out => (out.1, { s with machine := out.2 }) := by
  induction q generalizing s with
  | done value => rfl
  | call r next ih =>
    simp only [fs, Program.run, alone, State.perform, Option.bind_map, Function.comp_def, Option.map_bind]
    congr 1
    funext out
    exact ih out.1 { s with machine := out.2 }

theorem marks_fs : (fs q).marks (alone addr sb devsw p e) (Calls.logged sb devsw) s =
    q.marks (Machine.handle sb devsw) (Machine.logged sb devsw) s.machine := by
  induction q generalizing s with
  | done value => rfl
  | call r next ih =>
    simp only [fs, Program.marks, alone, State.perform]
    cases Machine.handle sb devsw r s.machine with
    | none => rfl
    | some out =>
      rw [Option.map_some, Option.elim_some, Option.elim_some]
      exact congrArg _ (ih out.1 { s with machine := out.2 })

end

variable (addr p e) in
theorem logged_fs {q : Program Inodes A} {mid : A → Machine → Finset UInt32 → Prop}
    (passes : Inodes.Passes sb devsw M k q s.machine mid) :
    Logged addr sb devsw p e M k (fs q) s fun a t M' => t = { s with machine := t.machine } ∧ mid a t.machine M' := by
  obtain ⟨M', grows, marked, size, holds⟩ := passes
  refine ⟨M', grows, (marks_fs q s).trans_subset marked, size, fun _ t ran => ?_⟩
  obtain ⟨⟨a, m⟩, returned, same⟩ := Option.map_eq_some_iff.mp ((run_fs q s).symm.trans ran)
  cases same
  exact ⟨rfl, holds a m returned⟩

theorem logged_silent {r : Calls.Request n} (marked : Calls.logged sb devsw r s = ∅)
    (kept : ∀ reply t, State.perform addr sb devsw p e r s = some (reply, t) → t.machine = s.machine) :
    Logged addr sb devsw p e M k (Program.request (I := Calls n) r) s fun _ t _ => t.machine = s.machine :=
  Program.spends_request (marked.trans_subset (silent M)) kept

theorem logged_iunlock : Logged addr sb devsw p e M k (fs (Inodes.iunlock i)) s fun _ _ _ => True := by
  have unlocks : Inodes.Passes sb devsw M k (Inodes.iunlock i) s.machine fun _ _ _ => True :=
    Inodes.passes_silent rfl fun _ _ _ => trivial
  exact (logged_fs addr p e unlocks).mono le_rfl fun _ _ _ _ _ _ => trivial

theorem logged_endOp : Logged addr sb devsw p e M 0 endOp s fun _ _ _ => True := by
  have first : Logged addr sb devsw p e M 0 (Program.request (I := Calls n) .endSection) s fun _ _ _ => True :=
    Program.spends_request (silent M) fun _ _ _ => trivial
  refine first.seq fun cmt t M₁ _ _ _ => ?_
  cases cmt with
  | false => exact Program.spends_pure trivial
  | true =>
    have commits : Logged addr sb devsw p e M₁ 0 (Program.request (I := Calls n) .commit) t fun _ _ _ => True :=
      Program.spends_request (silent M₁) fun _ _ _ => trivial
    exact commits.seq fun _ u M₂ _ _ _ => Program.spends_request (silent M₂) fun _ _ _ => trivial

/-! ## Chunks -/

theorem passes_loaded {m : Machine} : Inodes.Passes sb devsw M k (Inodes.ilock i) m fun _ t _ =>
    t = { m with icache := Function.update m.icache i (loaded sb m i) } := by
  refine Inodes.passes_call Machine.handle_ilock rfl (logs_ilock m.icache i) fun icache store M' _ ran _ => ?_
  obtain ⟨_, rfl, rfl⟩ := ilock_returns ran
  rfl

theorem loaded_inum (sb : Superblock) (m : Machine) (i : Fin ninode) : (loaded sb m i).inum = (m.icache i).inum := by
  unfold loaded
  split <;> rfl

/-- A chunk passes the bitmap block and the inode, and two blocks for each block of the file that it is written to. -/
theorem logged_writeTurn (small : sb.size.toNat ≤ bpb) (isIp : (s.ftable f).ip = some i)
    (notDev : (loaded sb s.machine i).type ≠ T_DEV) (positive : 0 < count) :
    Logged addr sb devsw p e M maxOpBlocks (writeTurn f src count) s fun _ _ _ => True := by
  obtain ⟨N, isN⟩ : ∃ N : Finset UInt32, N = {sb.bmapstart, iblock (s.machine.icache i).inum sb} := ⟨_, rfl⟩
  have size : N.card ≤ 2 := isN ▸ Finset.card_le_two
  have bitmap : sb.bmapstart ∈ M ∪ N := by simp [isN]
  have known : iblock (s.machine.icache i).inum sb ∈ M ∪ N := by simp [isN]
  have rest : Logged addr sb devsw p e (M ∪ N) 8 (writeTurn f src count) s fun _ _ _ => True := by
    have begins : Logged addr sb devsw p e (M ∪ N) 0 beginOp s fun _ t _ =>
        t.ftable = s.ftable ∧ t.machine.icache = s.machine.icache ∧ t.machine.store = s.machine.store := by
      refine Program.spends_request (silent _) fun _ t opens => ?_
      obtain ⟨log, _, same⟩ := Option.map_eq_some_iff.mp opens
      cases same
      exact ⟨rfl, rfl, rfl⟩
    refine begins.seq fun _ s₁ M₁ grows₁ _ begun => ?_
    obtain ⟨files, cache, store⟩ := begun
    refine Program.spends_then (silent M₁) rfl ?_
    rw [files, isIp, inode, pure_bind]
    have same : loaded sb s₁.machine i = loaded sb s.machine i := by rw [loaded, loaded, cache, store]
    refine Program.Spends.seq (logged_fs addr p e passes_loaded) fun _ s₂ M₂ grows₂ _ locks => ?_
    obtain ⟨machine, entry⟩ := locks
    refine Program.spends_then (silent M₂) rfl ?_
    have here : s₂.machine.icache i = loaded sb s.machine i := by
      rw [entry]
      exact (Function.update_self ..).trans same
    have writes : Inodes.Passes sb devsw M₂ 8
      (Inodes.writei i src (s₂.ftable f).off (UInt64.ofInt (chunkOf count))) s₂.machine
        fun _ _ _ => True := by
      have blocks : blocksFrom (s₂.ftable f).off.toNat (UInt64.ofInt (chunkOf count)).toNat ≤ 4 :=
        blocksFrom_le (toNat_chunk positive ▸ len_le count)
      refine Inodes.passes_call Machine.handle_writei rfl (Program.Spends.mono (logs_writei small devsw ?_ ?_ ?_) ?_
        fun _ _ _ _ _ _ => trivial) fun _ _ _ _ _ _ => trivial
      · rw [here]
        exact notDev
      · exact grows₂ (grows₁ bitmap)
      · rw [here, loaded_inum]
        exact grows₂ (grows₁ known)
      · omega
    refine Program.Spends.bind (m := 0) (logged_fs addr p e writes) fun cur s₃ M₃ _ _ _ => ?_
    split
    · exact Program.spends_pure trivial
    · refine Program.spends_then (silent M₃) rfl (Program.spends_then (silent M₃) rfl ?_)
      refine Program.Spends.seq logged_iunlock fun _ s₄ M₄ _ _ _ => ?_
      exact logged_endOp.seq fun _ _ _ _ _ _ => Program.spends_pure trivial
  have ten : maxOpBlocks = 10 := rfl
  exact rest.extend.mono (by omega) fun _ _ _ _ _ _ => trivial

/-! ## System calls that create inodes -/

theorem beginOp_opens {log opened : Log} (opens : State.beginOp log = some opened) :
    opened = opening log ∧ opened.lh.n + opened.outstanding * maxOpBlocks ≤ logSize := by
  unfold State.beginOp at opens
  split at opens
  · cases opens
  · next free =>
    cases opens
    have space : Log.Protocol.full log = false := by simpa using fun full => free (.inr full)
    refine ⟨rfl, ?_⟩
    simpa [Log.Protocol.full] using space

theorem logged_fileclose : Logged addr sb devsw p e M 0 (fileclose f) s fun _ t _ => t.machine = s.machine := by
  have closes : Logged addr sb devsw p e M 0 (Program.request (I := Calls n) (.closeSection f)) s fun out t _ =>
      t.machine = s.machine ∧ ∀ x, out = some x → x.type = .none := by
    refine Program.spends_request (silent M) fun out t closed => ?_
    cases closed
    exact ⟨rfl, fun x last => Ftable.fileclose_type last⟩
  refine closes.seq fun out t M₁ _ _ closed => ?_
  obtain ⟨machine, type⟩ := closed
  cases out with
  | none => exact Program.spends_pure machine
  | some x =>
    dsimp only
    split
    · next pipe =>
      rw [type x rfl] at pipe
      cases pipe
    · exact Program.spends_pure machine

section
variable (small : sb.size.toNat ≤ bpb) (admits : Admits inv)
include small admits

theorem logged_returned (returnable : Inodes.Returnable inv sb M s.machine i) (result : A) :
    Logged addr sb devsw p e M 0 (do
      fs (Inodes.iunlockput i)
      endOp
      return result : Program (Calls n) A) s fun _ _ _ => True := by
  refine Program.Spends.seq (logged_fs addr p e
    (Inodes.passes_returnable small admits returnable)) fun _ t M₁ _ _ _ => ?_
  exact logged_endOp.seq fun _ _ _ _ _ _ => Program.spends_pure trivial

theorem logged_openFile {omode : UInt64} (returnable : Inodes.Returnable inv sb M s.machine i) :
    Logged addr sb devsw p e M 0 (openFile i omode) s fun _ _ _ => True := by
  have allocates : Logged addr sb devsw p e M 0 filealloc s fun _ t _ => t.machine = s.machine := by
    refine logged_silent rfl fun _ t allocated => ?_
    cases allocated
    rfl
  refine allocates.seq fun out s₁ M₁ grows₁ _ kept₁ => ?_
  have returnable₁ := kept₁ ▸ returnable.mono grows₁
  cases out with
  | none => exact logged_returned small admits returnable₁ _
  | some f =>
    have opens : Logged addr sb devsw p e M₁ 0 (Calls.fdalloc f) s₁ fun _ t _ => t.machine = s₁.machine := by
      refine logged_silent rfl fun _ t allocated => ?_
      dsimp only [State.perform] at allocated
      split at allocated <;> cases allocated <;> rfl
    refine opens.seq fun out s₂ M₂ grows₂ _ kept₂ => ?_
    have returnable₂ := kept₂ ▸ returnable₁.mono grows₂
    cases out with
    | none =>
      refine logged_fileclose.seq fun _ s₃ M₃ grows₃ _ kept₃ => ?_
      exact logged_returned small admits (kept₃ ▸ returnable₂.mono grows₃) _
    | some fd =>
      refine Program.Spends.seq logged_iunlock fun _ s₃ M₃ _ _ _ => logged_endOp.seq fun _ s₄ M₄ _ _ _ => ?_
      exact Program.spends_then (silent M₄) rfl (Program.spends_pure trivial)

variable (opens : ∀ log, inv log → inv (opening log)) (system : FileSystem inv sb s.machine)
  (here : ∀ dir, s.cwd p = some dir → 0 < (s.machine.icache dir).ref)
include opens system here

theorem logged_creating {path : List UInt8} {type major minor : UInt16} (typed : type ≠ 0)
    {next : Option (Fin ninode) → Program (Calls n) A}
    (ends : ∀ (out : Option (Fin ninode)) t M', (∀ i, out = some i → Inodes.Returnable inv sb M' t.machine i) →
      Logged addr sb devsw p e M' 0 (next out) t fun _ _ _ => True) :
    Logged addr sb devsw p e M 9 (do
      beginOp
      next (← fs (Inodes.create (← cwd) path type major minor)) : Program (Calls n) A) s fun _ _ _ => True := by
  have begins : Logged addr sb devsw p e M 0 beginOp s fun _ t _ =>
      t.cwd = s.cwd ∧ t.machine.icache = s.machine.icache ∧ FileSystem inv sb t.machine := by
    refine Program.spends_request (silent _) fun _ t begun => ?_
    obtain ⟨log, opened, same⟩ := Option.map_eq_some_iff.mp begun
    cases same
    obtain ⟨nodes, owned⟩ := system.owned
    obtain ⟨rfl, _⟩ := beginOp_opens opened
    exact ⟨rfl, rfl, ⟨nodes, { owned with logged := opens _ owned.logged }⟩, system.root, system.disk, system.cached⟩
  refine begins.seq fun _ s₁ M₁ _ _ begun => ?_
  obtain ⟨cwd, cache, system₁⟩ := begun
  refine Program.spends_then (silent M₁) rfl ?_
  have creates : Inodes.Passes sb devsw M₁ 9 (Inodes.create
    (s₁.cwd p) path type major minor) s₁.machine fun out t M' =>
      ∀ i, out = some i → Inodes.Returnable inv sb M' t i :=
    Inodes.passes_create small admits typed system₁ (cache ▸ cwd ▸ here)
  refine Program.Spends.bind (m := 0) (logged_fs addr p e creates) fun out t M₂ _ _ created => ?_
  exact ends out t M₂ created.2

theorem logged_sysMake {path : List UInt8} {type major minor : UInt16} (typed : type ≠ 0) :
    Logged addr sb devsw p e M 9 (sysMake path type major minor) s fun _ _ _ => True := by
  refine logged_creating small admits opens system here typed fun out t M' returnable => ?_
  cases out with
  | none => exact logged_endOp.seq fun _ _ _ _ _ _ => Program.spends_pure trivial
  | some ip => exact logged_returned small admits (returnable ip rfl) 0

theorem logged_sysOpenat {dirfd : Int} {path : List UInt8} {omode : UInt64} (creates : omode &&& O_CREAT ≠ 0) :
    Logged addr sb devsw p e M 9 (sysOpenat dirfd path omode) s fun _ _ _ => True := by
  unfold sysOpenat
  split
  · exact Program.spends_pure trivial
  · split
    · exact Program.spends_pure trivial
    · simp only [openInode, if_pos creates, bind_assoc]
      have typed : T_FILE ≠ 0 := by decide
      refine logged_creating small admits opens system here typed fun out t M' returnable => ?_
      cases out with
      | none => exact logged_endOp.seq fun _ _ _ _ _ _ => Program.spends_pure trivial
      | some ip => exact logged_openFile small admits (returnable ip rfl)

end

/-- The blocks that the operation passes to `log_write` fit in what `begin_op` reserves. -/
def Fits (addr : Fin n → UInt64) (sb : Superblock) (devsw : Fin ndev → Devsw UInt32) (p : Fin n) (e : Choice C)
    (q : Program (Calls n) A) (s : Calls.State C n) : Prop :=
  (q.marks (alone addr sb devsw p e) (Calls.logged sb devsw) s).card ≤ maxOpBlocks

theorem fits_of_logged {q : Program (Calls n) A} (le : k ≤ maxOpBlocks)
    (spends : Logged addr sb devsw p e ∅ k q s fun _ _ _ => True) : Fits addr sb devsw p e q s := by
  have most := spends.card_le
  rw [Finset.card_empty, Nat.zero_add] at most
  exact most.trans le

variable (C addr devsw p e) in
/-- With one bitmap block, a chunk of `filewrite` that is not for a device and every system call
that creates an inode in a consistent file system pass at most as many blocks to `log_write` as
`begin_op` reserves. -/
theorem transactions_fit (small : sb.size.toNat ≤ bpb) (admits : Admits inv)
    (opens : ∀ log, inv log → inv (opening log)) :
    (∀ (f : Fin nfile) (i : Fin ninode) (src : Nat → UInt8) (count : Int)
      (s : Calls.State C n), (s.ftable f).ip = some i →
      (loaded sb s.machine i).type ≠ T_DEV → 0 < count → Fits addr sb devsw p e (writeTurn f src count) s) ∧
    (∀ (s : Calls.State C n), FileSystem inv sb s.machine →
      (∀ dir, s.cwd p = some dir → 0 < (s.machine.icache dir).ref) →
      ∀ (dirfd : Int) (path : List UInt8),
        (∀ omode, omode &&& O_CREAT ≠ 0 → Fits addr sb devsw p e (sysOpenat dirfd path omode) s) ∧
        (∀ mode, Fits addr sb devsw p e (sysMkdirat dirfd path mode) s) ∧
        ∀ major minor, Fits addr sb devsw p e (sysMknodat dirfd path major minor) s) ∧
    ∀ log opened, State.beginOp log = some opened → opened.lh.n + opened.outstanding * maxOpBlocks ≤ logSize := by
  have nine : 9 ≤ maxOpBlocks := by decide
  refine ⟨fun f i src count s isIp notDev positive => ?_,
    fun s system here dirfd path => ⟨fun omode creates => ?_, ?_, ?_⟩,
    fun log opened opens => (beginOp_opens opens).2⟩
  · exact fits_of_logged le_rfl (logged_writeTurn small isIp notDev positive)
  · exact fits_of_logged nine (logged_sysOpenat small admits opens system here creates)
  · intro mode
    have typed : T_DIR ≠ 0 := by decide
    unfold sysMkdirat
    split
    · exact fits_of_logged nine (Program.spends_pure trivial)
    · split
      · exact fits_of_logged nine (Program.spends_pure trivial)
      · exact fits_of_logged nine (logged_sysMake small admits opens system here typed)
  · intro major minor
    have typed : T_DEV ≠ 0 := by decide
    unfold sysMknodat
    split
    · exact fits_of_logged nine (Program.spends_pure trivial)
    · exact fits_of_logged nine (logged_sysMake small admits opens system here typed)

/-! ## One file system -/

def emptyRoot : Dinode := ⟨T_DIR, 0, 0, 1, 0, fun _ => 0⟩

def rootDisk : UInt32 → Block := putInode Mkfs.superblock usedDisk ROOTINO emptyRoot

theorem rootDisk_root : diskInode Mkfs.superblock rootDisk ROOTINO = emptyRoot := diskInode_putInode_self ..

theorem inTable_root : InTable Mkfs.superblock ROOTINO := by
  change 1 < (200 + 7) / 8 * 8
  decide

theorem rootDisk_only {g : UInt32} (allocated : Present Mkfs.superblock rootDisk g) : g = ROOTINO := by
  obtain ⟨inside, typed⟩ := allocated
  by_contra other
  rw [rootDisk, diskInode_putInode_of_ne other, diskInode, usedDisk_inodes inside] at typed
  exact typed rfl

theorem whole_emptyRoot : Whole Mkfs.superblock rootDisk emptyRoot where
  filled _ below := absurd below (Nat.not_lt_zero _)
  linked := by decide
  named _ off _ inside := by
    change off + 16 ≤ 0 at inside
    omega

theorem fileSystem_rootDisk : FileSystem (fun log => log.lh.n = 0) Mkfs.superblock (bootMachine rootDisk) where
  owned := by
    have sound : Sound Mkfs.superblock rootDisk fun _ _ => 0 :=
      (Confined.putInode sound_usedDisk inTable_root emptyRoot).sound
    have none : diskNodes Mkfs.superblock rootDisk = fun _ _ => 0 := by
      funext g
      unfold diskNodes
      split
      · next allocated => rw [rootDisk_only allocated, rootDisk_root, emptyRoot]
      · rfl
    exact ⟨_, Owned.init rfl (none ▸ sound)⟩
  root := by
    refine ⟨inTable_root, ?_⟩
    change (diskInode Mkfs.superblock rootDisk ROOTINO).type ≠ 0
    rw [rootDisk_root]
    decide
  disk g allocated := by
    change Whole Mkfs.superblock rootDisk (diskInode Mkfs.superblock rootDisk g)
    rw [rootDisk_only allocated, rootDisk_root]
    exact whole_emptyRoot
  cached _ used := absurd used (Int.lt_irrefl 0)

def rootState : Calls.State Bool nproc := { Sharing.sharedState.shared with machine := bootMachine rootDisk }

theorem transactions_fit_first :
    Fits (fun _ => 0) Mkfs.superblock noDevices Descriptors.firstProcess ⟨false, none⟩
      (writeTurn Sharing.sharedFile (fun _ => 7) 1) Sharing.sharedState.shared ∧
    Fits (fun _ => 0) Mkfs.superblock noDevices Descriptors.firstProcess ⟨false, none⟩
      (sysMkdirat AT_FDCWD [47, 97] 0) rootState := by
  have small : Mkfs.superblock.size.toNat ≤ bpb := by decide
  have empty : ∀ log : Log, log.lh.n = 0 → (opening log).lh.n = 0 := fun _ same => same
  have notDev : (loaded Mkfs.superblock Sharing.sharedState.shared.machine Sharing.sharedInode).type ≠ T_DEV := by
    rw [loaded, Sharing.sharedEntry]
    decide
  obtain ⟨chunks, creates, _⟩ :=
    transactions_fit Bool (fun _ => 0) noDevices Descriptors.firstProcess ⟨false, none⟩ small admits_empty empty
  have here : ∀ dir, rootState.cwd Descriptors.firstProcess = some dir →
    0 < (rootState.machine.icache dir).ref := fun _ same => by
    cases same
  exact ⟨chunks _ Sharing.sharedInode _ _ _ rfl notDev (by decide), (creates _ fileSystem_rootDisk here _ _).2.1 _⟩

end Writing

end Xv6
