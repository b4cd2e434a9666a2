import Xv6.Fs.Balance
import Xv6.Fs.Footprint

/-! Consistent file systems, and the search for a path in one.

Without holes a directory is read without an allocation, and with links no inode is freed when its
last reference goes. So the search passes no block to `log_write`.
-/

set_option autoImplicit false

namespace Xv6

open Library

-- The blocks that an operation on inodes passes to `log_write`.
def Machine.logged (sb : Superblock) (devsw : Fin ndev → Devsw UInt32) : Inodes.Request → Machine → Finset UInt32
  | .ilock i, m => (Fs.ilock sb m.icache i).marks Store.handle Bio.logged m.store
  | .iput i, m => (Fs.iput sb m.icache m.log i).marks Store.handle Bio.logged m.store
  | .ialloc dev type, m => (Fs.ialloc sb m.icache m.log dev type).marks Store.handle Bio.logged m.store
  | .iupdate i, m => (Fs.iupdate sb m.log (m.icache i)).marks Store.handle Bio.logged m.store
  | .readi i dst off n, m => (Fs.readi sb devsw m.log (m.icache i) dst off n).marks Store.handle Bio.logged m.store
  | .writei i src off n, m => (Fs.writei sb devsw m.log (m.icache i) src off n).marks Store.handle Bio.logged m.store
  | .iget .., _ | .idup _, _ | .iunlock _, _ | .fields _, _ | .setLinks .., _ | .panic, _ => ∅

section
variable {sb : Superblock} {devsw : Fin ndev → Devsw UInt32} {m : Machine} {i : Fin ninode}

theorem Machine.handle_ilock : m.handle sb devsw (.ilock i) =
    m.call (Fs.ilock sb m.icache i) fun icache store => ((), { m with icache, store }) := rfl

theorem Machine.handle_iput : m.handle sb devsw (.iput i) =
    m.call (Fs.iput sb m.icache m.log i) fun out store => ((), ⟨out.1, out.2, store⟩) := rfl

theorem Machine.handle_ialloc {dev : UInt32} {type : UInt16} : m.handle sb devsw (.ialloc dev type) =
    m.call (Fs.ialloc sb m.icache m.log dev type) fun out store => (out.1, ⟨out.2.1, out.2.2, store⟩) := rfl

theorem Machine.handle_iupdate : m.handle sb devsw (.iupdate i) =
    m.call (Fs.iupdate sb m.log (m.icache i)) fun log store => ((), { m with log, store }) := rfl

theorem Machine.handle_readi {dst : Nat → UInt8} {off n : UInt64} : m.handle sb devsw (.readi i dst off n) =
    m.call (Fs.readi sb devsw m.log (m.icache i) dst off n) fun out store =>
      ((out.1, out.2.1), ⟨Function.update m.icache i out.2.2.1, out.2.2.2, store⟩) := rfl

theorem Machine.handle_writei {src : Nat → UInt8} {off n : UInt64} : m.handle sb devsw (.writei i src off n) =
    m.call (Fs.writei sb devsw m.log (m.icache i) src off n) fun out store =>
      (out.1, ⟨Function.update m.icache i out.2.1, out.2.2, store⟩) := rfl

end

namespace Fs

/-! ## Consistent file systems -/

def Present (sb : Superblock) (view : UInt32 → Block) (g : UInt32) : Prop :=
  InTable sb g ∧ (diskInode sb view g).type ≠ 0

def entryAt (view : UInt32 → Block) (addrs : Addrs) (off : Nat) : Dirent :=
  .ofBytes fun k => byteAt view addrs (off + k)

/-- An inode without holes that has links. The entries of a directory name inodes that are in use. -/
structure Whole (sb : Superblock) (view : UInt32 → Block) (d : Dinode) : Prop where
  filled : Mapped view d.addrs d.size.toNat
  linked : d.nlink ≠ 0
  named : d.type = T_DIR → ∀ off, off % direntSize = 0 → off + direntSize ≤ d.size.toNat →
    (entryAt view d.addrs off).inum ≠ 0 → Present sb view (entryAt view d.addrs off).inum.toUInt32

/-- A file system between two operations: blocks are owned, and the inodes on the disk and in memory are
whole. -/
structure FileSystem (inv : Log → Prop) (sb : Superblock) (m : Machine) : Prop where
  owned : ∃ nodes, Owned inv sb m.icache m.log m.store.view nodes
  root : Present sb m.store.view ROOTINO
  disk : ∀ g, Present sb m.store.view g → Whole sb m.store.view (diskInode sb m.store.view g)
  cached : ∀ i, 0 < (m.icache i).ref → (m.icache i).valid = true → Whole sb m.store.view (m.icache i).dinode

variable {inv : Log → Prop} {sb : Superblock} {devsw : Fin ndev → Devsw UInt32} {m m' : Machine} {i : Fin ninode}

/-- Operations on files and directories do not call the functions of devices. -/
theorem handle_notDev {r : Inodes.Request}
    (notDev : ∀ i, (m.icache i).type = T_DEV → (∀ dst off n, r ≠ .readi i dst off n) ∧ ∀ src off n,
      r ≠ .writei i src off n) :
    m.handle sb devsw r = m.handle sb noDevices r := by
  cases r with
  | readi i dst off n =>
    have other : (m.icache i).type ≠ T_DEV := fun isDev => (notDev i isDev).1 dst off n rfl
    simp only [Machine.handle, Fs.readi, if_neg other]
  | writei i src off n =>
    have other : (m.icache i).type ≠ T_DEV := fun isDev => (notDev i isDev).2 src off n rfl
    simp only [Machine.handle, Fs.writei, if_neg other]
  | _ => rfl

theorem Owned.step_notDev {nodes : Nodes} (owned : Owned inv sb m.icache m.log m.store.view nodes)
    (admits : Admits inv) {r : Inodes.Request} {reply : Inodes.Reply r} (permitted : Permitted sb r m)
    (notDev : ∀ i, (m.icache i).type = T_DEV → (∀ dst off n, r ≠ .readi i dst off n) ∧ ∀ src off n,
      r ≠ .writei i src off n)
    (handled : m.handle sb devsw r = some (reply, m')) :
    ∃ nodes', Owned inv sb m'.icache m'.log m'.store.view nodes' := by
  rw [handle_notDev notDev] at handled
  exact owned.step admits quiet_noDevices permitted handled

theorem owned_done {r : Inodes.Request} {a : Inodes.Reply r}
    (owned : ∃ nodes, Owned inv sb m.icache m.log m.store.view nodes) (admits : Admits inv)
    (permitted : Permitted sb r m)
    (handled : m.handle sb noDevices r = some (a, m')) :
    ∃ nodes, Owned inv sb m'.icache m'.log m'.store.view nodes := by
  obtain ⟨nodes, owned⟩ := owned
  exact owned.step admits quiet_noDevices permitted handled

theorem owned_called {A : Type} {r : Inodes.Request} {p : Program (Bio UInt32) A}
    {answer : A → Store → Inodes.Reply r × Machine} {a : A} {t : Store}
    (owned : ∃ nodes, Owned inv sb m.icache m.log m.store.view nodes) (admits : Admits inv)
    (permitted : Permitted sb r m)
    (handled : m.handle sb noDevices r = m.call p answer) (ran : p.run Store.handle m.store = some (a, t)) :
    ∃ nodes, Owned inv sb (answer a t).2.icache (answer a t).2.log (answer a t).2.store.view nodes := by
  have answered : m.handle sb noDevices r = some ((answer a t).1, (answer a t).2) := by
    rw [handled, Machine.call, ran]
    rfl
  exact owned_done owned admits permitted answered

theorem ilock_cases {c c' : Icache} {s t : Store} (ran : (ilock sb c i).run Store.handle s = some (c', t)) :
    (t = s ∧ (c i).valid = true ∧ c' = Function.update c i { c i with locked := true }) ∨
      (t = s ∧ (c i).valid = false ∧
        c' = Function.update c i { (c i).load (diskInode sb s.view (c i).inum) with locked := true, valid :=
          true }) := by
  unfold ilock at ran
  split at ran
  · cases ran
  · split at ran
    · next valid =>
      cases ran
      exact .inl ⟨rfl, valid, rfl⟩
    · next invalid =>
      cases ran
      exact .inr ⟨rfl, Bool.eq_false_iff.mpr invalid, rfl⟩

namespace FileSystem

/-- An operation that leaves the disk alone and brings no inode into memory that is not whole. -/
theorem kept (fs : FileSystem inv sb m) (owned : ∃ nodes, Owned inv sb m'.icache m'.log m'.store.view nodes)
    (view : m'.store.view = m.store.view) (cached : ∀ j, 0 < (m'.icache j).ref → (m'.icache j).valid = true →
      (0 < (m.icache j).ref ∧ (m.icache j).valid = true ∧ (m'.icache j).dinode = (m.icache j).dinode) ∨
        Whole sb m.store.view (m'.icache j).dinode) : FileSystem inv sb m' := by
  refine ⟨owned, view ▸ fs.root, view ▸ fs.disk, fun j used valid => ?_⟩
  rw [view]
  rcases cached j used valid with ⟨before, already, same⟩ | whole
  · rw [same]
    exact fs.cached j before already
  · exact whole

theorem replaced (fs : FileSystem inv sb m) {e : MemInode}
    (owned : ∃ nodes, Owned inv sb (Function.update m.icache i e) m.log m.store.view nodes)
    (cached : 0 < e.ref → e.valid = true →
      (0 < (m.icache i).ref ∧ (m.icache i).valid = true ∧ e.dinode = (m.icache i).dinode) ∨
      Whole sb m.store.view e.dinode) :
    FileSystem inv sb { m with icache := Function.update m.icache i e } := by
  refine fs.kept owned rfl fun j used valid => ?_
  dsimp only at used valid ⊢
  by_cases same : j = i
  · subst same
    rw [Function.update_self] at used valid ⊢
    exact cached used valid
  · rw [Function.update_of_ne same] at used valid ⊢
    exact .inl ⟨used, valid, rfl⟩

end FileSystem

end Fs

namespace Inodes

open Fs

-- Besides the blocks of `M`, the program passes at most `n` blocks to `log_write`.
abbrev Passes {A : Type} (sb : Superblock) (devsw : Fin ndev → Devsw UInt32) (M : Finset UInt32) (n : Nat)
    (p : Program Inodes A) (m : Machine) (post : A → Machine → Finset UInt32 → Prop) : Prop :=
  p.Spends (Machine.handle sb devsw) (Machine.logged sb devsw) M n m post

variable {A : Type} {inv : Log → Prop} {sb : Superblock} {devsw : Fin ndev → Devsw UInt32} {m m' : Machine}
  {i dp : Fin ninode} {M : Finset UInt32} {n : Nat}

theorem passes_call {r : Inodes.Request} {p : Program (Bio UInt32) A} {answer : A → Store → Inodes.Reply r × Machine}
    {mid : A → Store → Finset UInt32 → Prop} {post : Inodes.Reply r → Machine → Finset UInt32 → Prop}
    (handled : m.handle sb devsw r = m.call p answer)
    (marked : m.logged sb devsw r = p.marks Store.handle Bio.logged m.store) (logs : Logs M n p m.store mid)
    (holds : ∀ a t M', M ⊆ M' → p.run Store.handle m.store = some (a, t) → mid a t M' →
      post (answer a t).1 (answer a t).2 M') : Passes sb devsw M n (.request r) m post := by
  obtain ⟨M', grows, logged, size, met⟩ := logs
  refine ⟨M', grows, ?_, size, fun reply t ran => ?_⟩
  · exact ((Program.marks_request (I := Inodes) r m).trans marked).trans_subset logged
  · obtain ⟨⟨a, u⟩, returned, same⟩ := Option.map_eq_some_iff.mp (handled.symm.trans (request_returns ran))
    have answered : answer a u = (reply, t) := same
    have here := holds a u M' grows returned (met a u returned)
    rwa [answered] at here

theorem passes_silent {r : Inodes.Request} {post : Inodes.Reply r → Machine → Finset UInt32 → Prop}
    (marked : m.logged sb devsw r = ∅) (holds : ∀ reply t, m.handle sb devsw r = some (reply, t) → post reply t M) :
    Passes sb devsw M n (.request r) m post :=
  Program.spends_request (marked.trans_subset (silent M)) holds

theorem passes_panic {post : A → Machine → Finset UInt32 → Prop} : Passes sb devsw M n
    (panic : Program Inodes A) m post :=
  Program.spends_stuck (silent M) rfl

theorem passes_iput_kept (kept : ¬ ((m.icache i).ref = 1 ∧ (m.icache i).valid = true ∧ (m.icache i).nlink = 0)) :
    Passes sb devsw M n (iput i) m fun _ t _ =>
      t = { m with icache := Function.update m.icache i { m.icache i with ref := (m.icache i).ref - 1 } } := by
  refine passes_call Machine.handle_iput rfl (logs_iput_kept kept) fun out t M' _ ran _ => ?_
  rw [Fs.iput, if_neg kept] at ran
  cases ran
  rfl

/-! ## Reading a directory -/

theorem toNat_deSize : deSize.toNat = direntSize := rfl

theorem passes_readi {dst : Nat → UInt8} {off : UInt64} (notDev : (m.icache dp).type ≠ T_DEV)
    (filled : Mapped m.store.view (m.icache dp).addrs (m.icache dp).size.toNat)
    (start : off.toNat ≤ (m.icache dp).size.toNat) :
    Passes sb devsw M 0 (readi dp dst off deSize) m fun out t _ => t = m ∧
      out = (((min direntSize ((m.icache dp).size.toNat - off.toNat) : Nat) : Int), fun k =>
        if k < min direntSize ((m.icache dp).size.toNat - off.toNat) then byteAt m.store.view
          (m.icache dp).addrs (off.toNat + k)
        else dst k) := by
  have size := (m.icache dp).size.toNat_lt
  have wraps : off.toNat + deSize.toNat < 2 ^ 64 := by
    change off.toNat + 16 < 2 ^ 64
    omega
  refine passes_call Machine.handle_readi rfl (logs_readi devsw notDev filled) fun a t M' _ ran _ => ?_
  have reads : (Fs.readi sb devsw m.log (m.icache dp) dst off deSize).run Store.handle m.store = _ :=
    readi_run notDev filled start wraps
  cases reads.symm.trans ran
  refine ⟨?_, rfl⟩
  change (⟨Function.update m.icache dp (m.icache dp), m.log, m.store⟩ : Machine) = m
  rw [Function.update_eq_self]

theorem passes_readEntry {off : UInt64} (notDev : (m.icache dp).type ≠ T_DEV)
    (filled : Mapped m.store.view (m.icache dp).addrs (m.icache dp).size.toNat)
    (start : off.toNat ≤ (m.icache dp).size.toNat) :
    Passes sb devsw M 0 (readEntry dp off) m fun de t _ => t = m ∧ off.toNat + direntSize ≤ (m.icache dp).size.toNat ∧
      de = entryAt m.store.view (m.icache dp).addrs off.toNat := by
  refine (passes_readi notDev filled start).seq fun out t M' _ _ read => ?_
  obtain ⟨rfl, rfl⟩ := read
  dsimp only
  split
  · next whole =>
    have whole : min direntSize ((t.icache dp).size.toNat - off.toNat) = direntSize := Int.ofNat_inj.mp whole
    refine Program.spends_pure ⟨rfl, ?_, ?_⟩
    · have long : direntSize ≤ (t.icache dp).size.toNat - off.toNat := min_eq_left_iff.mp whole
      change 16 ≤ _ at long
      change off.toNat + 16 ≤ _
      omega
    · rw [whole]
      have name : ∀ k : Fin dirsiz, 2 + k.val < direntSize := by
        intro k
        have bound : k.val < 14 := k.isLt
        change 2 + k.val < 16
        omega
      simp only [entryAt, Dirent.ofBytes, name, if_true]
      rfl
  · exact passes_panic

theorem off_next {size : UInt32} {off : UInt64} (inside : off.toNat + direntSize ≤ size.toNat)
    (aligned : off.toNat % direntSize = 0) :
    (off + deSize).toNat = off.toNat + direntSize ∧ (off + deSize).toNat % direntSize = 0 := by
  have bound := size.toNat_lt
  change off.toNat + 16 ≤ _ at inside
  change off.toNat % 16 = 0 at aligned
  have next : (off + deSize).toNat = off.toNat + 16 := by
    rw [UInt64.toNat_add]
    change (off.toNat + 16) % 2 ^ 64 = _
    omega
  refine ⟨next, ?_⟩
  rw [next]
  change (off.toNat + 16) % 16 = 0
  omega

structure Looked (dp : Fin ninode) (m : Machine) (ip : Fin ninode) (t : Machine) : Prop where
  entry : ∃ off, off % direntSize = 0 ∧ off + direntSize ≤ (m.icache dp).size.toNat ∧
    (entryAt m.store.view (m.icache dp).addrs off).inum ≠ 0 ∧
    m.icache.iget (m.icache dp).dev (entryAt m.store.view (m.icache dp).addrs off).inum.toUInt32 = some (ip, t.icache)
  same : t = { m with icache := t.icache }

theorem passes_lookupFrom {name : Name} (notDev : (m.icache dp).type ≠ T_DEV)
    (filled : Mapped m.store.view (m.icache dp).addrs (m.icache dp).size.toNat) (turns : Nat) (off : UInt64)
    (start : off.toNat ≤ (m.icache dp).size.toNat) (aligned : off.toNat % direntSize = 0) :
    Passes sb devsw M 0 (lookupFrom dp (m.icache dp).dev name turns off) m fun out t _ =>
      match out with
      | none => t = m
      | some (ip, _) => Looked dp m ip t := by
  induction turns generalizing off M with
  | zero => exact Program.spends_pure rfl
  | succ turns ih =>
    refine (passes_readEntry notDev filled start).seq fun de t M' _ _ read => ?_
    obtain ⟨rfl, inside, rfl⟩ := read
    split
    · next match_ =>
      have gets : Passes sb devsw M' 0 (iget (t.icache dp).dev
        (entryAt t.store.view (t.icache dp).addrs off.toNat).inum.toUInt32)
          t fun ip u _ => Looked dp t ip u := by
        refine passes_silent rfl fun ip u handled => ?_
        obtain ⟨⟨j, c⟩, got, same⟩ := Option.map_eq_some_iff.mp handled
        cases same
        exact ⟨⟨off.toNat, aligned, inside, match_.1, got⟩, rfl⟩
      exact gets.seq fun ip u M₂ _ _ looked => Program.spends_pure looked
    · obtain ⟨next, aligned'⟩ := off_next inside aligned
      exact ih (off + deSize) (next ▸ inside) aligned'

theorem passes_dirlookup {name : Name} (filled : (m.icache dp).type = T_DIR →
      Mapped m.store.view (m.icache dp).addrs (m.icache dp).size.toNat) :
    Passes sb devsw M 0 (dirlookup dp name) m fun out t _ => (m.icache dp).type = T_DIR ∧
      match out with
      | none => t = m
      | some (ip, _) => Looked dp m ip t := by
  refine Program.spends_then (silent M) rfl ?_
  split
  · exact passes_panic
  · next isDir =>
    have isDir : (m.icache dp).type = T_DIR := not_not.mp isDir
    have notDev : (m.icache dp).type ≠ T_DEV := by
      rw [isDir]
      decide
    exact (passes_lookupFrom notDev (filled isDir) _ 0 (Nat.zero_le _) rfl).mono le_rfl fun _ _ _ _ _ looked =>
      ⟨isDir, looked⟩

/-! ## Searching a path -/

def Mine (m : Machine) (i : Fin ninode) : Prop :=
  0 < (m.icache i).ref ∧ ((m.icache i).locked = true → 1 < (m.icache i).ref)

-- The entry that `iget` returns has one more reference, or it was unused.
theorem iget_taken {c c' : Icache} {dev inum : UInt32} (got : c.iget dev inum = some (i, c')) :
    ∃ e, c' = Function.update c i e ∧ ((0 < (c i).ref ∧ e = { c i with ref := (c i).ref + 1 }) ∨
      ((c i).ref = 0 ∧ e.ref = 1 ∧ e.valid = false ∧ e.locked = (c i).locked)) := by
  rcases Icache.iget_cases got with ⟨_, used, _, same⟩ | ⟨_, unused, same⟩
  · exact ⟨_, same, .inl ⟨used, rfl⟩⟩
  · exact ⟨_, same, .inr ⟨unused, rfl, rfl, rfl⟩⟩

/-- A reference was taken to an entry of a cache in which locked entries are in use. -/
theorem mine_of_iget {c : Icache} {dev inum : UInt32} (held : ∀ j, (m.icache j).locked = true → 0 < (m.icache j).ref)
    (got : m.icache.iget dev inum = some (i, c)) : Mine { m with icache := c } i := by
  rcases Icache.iget_cases got with ⟨_, used, _, rfl⟩ | ⟨_, unused, rfl⟩
  · dsimp only [Mine]
    rw [Function.update_self]
    dsimp only
    exact ⟨by omega, fun _ => by omega⟩
  · dsimp only [Mine]
    rw [Function.update_self]
    refine ⟨Int.one_pos, fun locked => ?_⟩
    have used := held i locked
    omega

section
variable (fs : FileSystem inv sb m) (admits : Admits inv)
include fs

theorem fileSystem_held (j : Fin ninode) (locked : (m.icache j).locked = true) : 0 < (m.icache j).ref := by
  obtain ⟨nodes, owned⟩ := fs.owned
  exact ((owned.entry j).held locked).1

include admits

theorem fileSystem_iget {g : UInt32} (allocated : Present sb m.store.view g) {c : Icache}
    (got : m.icache.iget ROOTDEV g = some (i, c)) : FileSystem inv sb { m with icache := c } := by
  have handled : m.handle sb noDevices (.iget ROOTDEV g) = some (i, { m with icache := c }) := by
    rw [Machine.handle, got]
    rfl
  have owned' := owned_done fs.owned admits (r := .iget ROOTDEV g) ⟨rfl, allocated⟩ handled
  rcases Icache.iget_cases got with ⟨_, used, _, rfl⟩ | ⟨_, unused, rfl⟩
  · exact fs.replaced owned' fun _ valid => .inl ⟨used, valid, rfl⟩
  · exact fs.replaced owned' fun _ valid => Bool.noConfusion valid

theorem passes_ilock (used : 0 < (m.icache i).ref) : Passes sb devsw M 0 (ilock i) m fun _ t _ =>
    FileSystem inv sb t ∧ 0 < (t.icache i).ref ∧ (t.icache i).valid = true ∧ (t.icache i).locked = true := by
  obtain ⟨nodes, owned⟩ := fs.owned
  refine passes_call Machine.handle_ilock rfl (logs_ilock m.icache i) fun c t M' _ ran _ => ?_
  have owned' := owned_called fs.owned admits (r := .ilock i) used Machine.handle_ilock ran
  rcases ilock_cases ran with ⟨rfl, valid, rfl⟩ | ⟨rfl, invalid, rfl⟩
  · refine ⟨fs.replaced owned' fun used _ => .inl ⟨used, valid, rfl⟩, ?_⟩
    dsimp only
    rw [Function.update_self]
    exact ⟨used, valid, rfl⟩
  · have live := (owned.entry i).live used
    refine ⟨fs.replaced owned' fun _ _ => .inr (fs.disk _ ⟨live.inside, live.typed⟩), ?_⟩
    dsimp only
    rw [Function.update_self]
    exact ⟨used, rfl, rfl⟩

theorem passes_iunlock (used : 0 < (m.icache i).ref) : Passes sb devsw M n (iunlock i) m fun _ t _ =>
    FileSystem inv sb t ∧ t = { m with icache := m.icache.iunlock i } := by
  refine passes_silent rfl fun _ t handled => ?_
  cases handled
  have owned' := owned_done fs.owned admits (r := .iunlock i) (a := ()) used rfl
  exact ⟨fs.replaced owned' fun used valid => .inl ⟨used, valid, rfl⟩, rfl⟩

theorem passes_iput (mine : Mine m i) : Passes sb devsw M n (iput i) m fun _ t _ => FileSystem inv sb t ∧
    t = { m with icache := Function.update m.icache i { m.icache i with ref := (m.icache i).ref - 1 } } := by
  have kept : ¬ ((m.icache i).ref = 1 ∧ (m.icache i).valid = true ∧ (m.icache i).nlink = 0) :=
    fun frees => (fs.cached i mine.1 frees.2.1).linked frees.2.2
  refine (passes_iput_kept (n := n) kept).mono le_rfl fun _ t _ _ ran put => ⟨?_, put⟩
  have handled : m.handle sb noDevices (.iput i) = some ((), t) := request_returns ran
  have owned' := owned_done fs.owned admits (r := .iput i) mine handled
  rw [put] at owned' ⊢
  exact fs.replaced owned' fun _ valid => .inl ⟨mine.1, valid, rfl⟩

theorem passes_iunlockput (used : 0 < (m.icache i).ref) : Passes sb devsw M 0 (iunlockput i) m fun _ t _ =>
    FileSystem inv sb t ∧ t = { m with
      icache := Function.update m.icache i { m.icache i with locked := false, ref := (m.icache i).ref - 1 } } := by
  refine (passes_iunlock fs admits used).seq fun _ t M' _ _ unlocked => ?_
  obtain ⟨fs', rfl⟩ := unlocked
  have mine : Mine { m with icache := m.icache.iunlock i } i := by
    dsimp only [Mine, Icache.iunlock]
    rw [Function.update_self]
    exact ⟨used, nofun⟩
  refine (passes_iput fs' admits mine).mono le_rfl fun _ t _ _ _ put => ⟨put.1, ?_⟩
  rw [put.2]
  dsimp only [Icache.iunlock]
  rw [Function.update_self, Function.update_idem]

omit admits in
theorem mine_next {t : Machine} {ip : Fin ninode} (used : 0 < (m.icache dp).ref) (looked : Looked dp m ip t) :
    0 < (t.icache dp).ref ∧ Mine { t with
      icache := Function.update t.icache dp { t.icache dp with locked := false, ref :=
        (t.icache dp).ref - 1 } } ip := by
  obtain ⟨⟨off, _, _, _, got⟩, same⟩ := looked
  have next := mine_of_iget (fileSystem_held fs) got
  obtain ⟨c, isC⟩ : ∃ c, c = t.icache := ⟨_, rfl⟩
  rw [← isC] at got next ⊢
  by_cases here : dp = ip
  · subst here
    rcases Icache.iget_cases got with ⟨_, _, _, rfl⟩ | ⟨_, unused, _⟩
    · dsimp only [Mine]
      rw [Function.update_self, Function.update_self]
      dsimp only
      exact ⟨by omega, by omega, nofun⟩
    · omega
  · have kept : c dp = m.icache dp := by
      rcases Icache.iget_cases got with ⟨_, _, _, rfl⟩ | ⟨_, _, rfl⟩
      · exact Function.update_of_ne here ..
      · exact Function.update_of_ne here ..
    refine ⟨kept ▸ used, ?_⟩
    dsimp only [Mine]
    rw [Function.update_of_ne fun same => here same.symm]
    exact next

theorem fileSystem_looked {t : Machine} {ip : Fin ninode} (used : 0 < (m.icache dp).ref)
    (valid : (m.icache dp).valid = true)
    (isDir : (m.icache dp).type = T_DIR) (looked : Looked dp m ip t) : FileSystem inv sb t := by
  obtain ⟨nodes, owned⟩ := fs.owned
  obtain ⟨⟨off, aligned, inside, named, got⟩, same⟩ := looked
  rw [((owned.entry dp).live used).device] at got
  rw [same]
  exact fileSystem_iget fs admits ((fs.cached dp used valid).named isDir off aligned inside named) got

theorem passes_startOf {cwd : Option (Fin ninode)} {path : List UInt8}
    (here : ∀ dir, cwd = some dir → 0 < (m.icache dir).ref) :
    Passes sb devsw M 0 (startOf cwd path) m fun ip t _ => FileSystem inv sb t ∧ Mine t ip := by
  unfold startOf
  split
  · refine passes_silent rfl fun ip t handled => ?_
    obtain ⟨⟨j, c⟩, got, same⟩ := Option.map_eq_some_iff.mp handled
    cases same
    exact ⟨fileSystem_iget fs admits fs.root got, mine_of_iget (fileSystem_held fs) got⟩
  · split
    · next dir =>
      have used := here dir rfl
      have owned' := owned_done fs.owned admits (r := .idup dir) (a := ()) used rfl
      refine Program.spends_then (silent M) rfl (Program.spends_pure ⟨?_, ?_⟩)
      · exact fs.replaced owned' fun _ valid => .inl ⟨used, valid, rfl⟩
      · dsimp only [Mine, Icache.idup]
        rw [Function.update_self]
        dsimp only
        exact ⟨by omega, fun _ => by omega⟩
    · exact passes_panic

theorem passes_namexEnd {parent : Bool} {name : Name} (mine : Mine m i) :
    Passes sb devsw M 0 (namexEnd parent i name) m fun out t _ =>
      FileSystem inv sb t ∧ ∀ found, out = some found → Mine t found.1 := by
  unfold namexEnd
  split
  · refine Program.Spends.seq (passes_iput (n := 0) fs admits mine) fun _ t M' _ _ put => ?_
    exact Program.spends_pure ⟨put.1, fun _ found => absurd found.symm (Option.some_ne_none _)⟩
  · refine Program.spends_pure ⟨fs, fun found same => ?_⟩
    cases same
    exact mine

theorem passes_namexFrom {parent : Bool} {turns : Nat} {path : List UInt8} {name : Name} (mine : Mine m i) :
    Passes sb devsw M 0 (namexFrom parent turns i path name) m fun out t _ =>
      FileSystem inv sb t ∧ ∀ found, out = some found → Mine t found.1 := by
  induction turns generalizing i path name m M with
  | zero => exact passes_namexEnd fs admits mine
  | succ turns ih =>
    rw [namexFrom]
    split
    · exact passes_namexEnd fs admits mine
    · next rest name' _ =>
      refine (passes_ilock fs admits mine.1).seq fun _ m₁ M₁ _ _ locked => ?_
      obtain ⟨fs₁, used, valid, _⟩ := locked
      refine Program.spends_then (silent M₁) rfl ?_
      split
      · refine (passes_iunlockput fs₁ admits used).seq fun _ t M₂ _ _ put => ?_
        exact Program.spends_pure ⟨put.1, fun _ found => absurd found.symm (Option.some_ne_none _)⟩
      · next isDir =>
        have isDir : (m₁.icache i).type = T_DIR := not_not.mp isDir
        split
        · -- the directory is returned
          refine Program.Spends.seq (passes_iunlock (n := 0) fs₁ admits used) fun _ t M₂ _ _ unlocked => ?_
          obtain ⟨fs₂, rfl⟩ := unlocked
          refine Program.spends_pure ⟨fs₂, fun found same => ?_⟩
          cases same
          dsimp only [Mine, Icache.iunlock]
          rw [Function.update_self]
          exact ⟨used, fun locked => Bool.noConfusion locked⟩
        · have filled := (fs₁.cached i used valid).filled
          refine (passes_dirlookup fun _ => filled).seq fun out t M₂ _ _ looked => ?_
          cases out with
          | none =>
            obtain ⟨_, rfl⟩ := looked
            refine (passes_iunlockput fs₁ admits used).seq fun _ t M₃ _ _ put => ?_
            exact Program.spends_pure ⟨put.1, fun _ found => absurd found.symm (Option.some_ne_none _)⟩
          | some next =>
            have fs₂ := fileSystem_looked fs₁ admits used valid isDir looked.2
            obtain ⟨used₂, mine₂⟩ := mine_next fs₁ used looked.2
            refine (passes_iunlockput fs₂ admits used₂).seq fun _ u M₃ _ _ put => ?_
            obtain ⟨fs₃, rfl⟩ := put
            exact ih fs₃ mine₂

theorem passes_namex {cwd : Option (Fin ninode)} {path : List UInt8} {parent : Bool} {name : Name}
    (here : ∀ dir, cwd = some dir → 0 < (m.icache dir).ref) :
    Passes sb devsw M 0 (namex cwd path parent name) m fun out t _ =>
      FileSystem inv sb t ∧ ∀ found, out = some found → Mine t found.1 :=
  (passes_startOf fs admits here).seq fun _ _ _ _ _ started => passes_namexFrom started.1 admits started.2

end

end Inodes

end Xv6
