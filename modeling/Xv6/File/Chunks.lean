import Xv6.File.Writing

/-! The bytes that `filewrite` stores.

Every turn of the loop writes the same chunk of the source, so the file gets the first chunk over
and over again.
-/

set_option autoImplicit false

namespace Xv6.Writing

open Library Syscall Process Calls Calls.State Sharing Descriptors

variable {C : Type} {n : Nat} [DecidableEq C] {addr : Fin n → UInt64} {sb : Superblock}
  {devsw : Fin ndev → Devsw UInt32}
  {p : Fin n} {e : Choice C} {f : Fin nfile} {i : Fin ninode} {src : Nat → UInt8} {count : Int}
  {s t u : Calls.State C n}
  {nodes nodes' : Fs.Nodes} {wanted : Finset Fs.Slot} {k : Nat}

/-! ## One chunk -/

def len (count : Int) : Nat := (chunkOf count).toNat

theorem len_le (count : Int) : len count ≤ 1536 := by
  have value : lim = 1536 := by decide
  unfold len chunkOf
  split <;> omega

theorem len_pos (positive : 0 < count) : 0 < len count := by
  have value : lim = 1536 := by decide
  unfold len chunkOf
  split <;> omega

theorem toNat_chunk (positive : 0 < count) : (UInt64.ofInt (chunkOf count)).toNat = len count := by
  have value : lim = 1536 := by decide
  refine toNat_ofInt ?_ ?_
  · unfold chunkOf
    split <;> omega
  · unfold chunkOf
    split <;> omega

variable (addr sb devsw p e) in
theorem endOp_run (empty : s.machine.log.lh.n = 0) (free : s.machine.log.committing = false) :
    ∃ log store, endOp.run (alone addr sb devsw p e) s =
        some ((), { s with machine := { s.machine with log, store } }) ∧
      log.lh.n = 0 ∧ log.start = s.machine.log.start ∧ log.committing = false ∧
      log.outstanding = s.machine.log.outstanding - 1 ∧
      ∀ b, b ≠ s.machine.log.start → store.view b = s.machine.store.view b := by
  by_cases last : s.machine.log.outstanding - 1 = 0
  · obtain ⟨log, isLog⟩ : ∃ log : Log,
        log = { s.machine.log with outstanding := s.machine.log.outstanding - 1, committing := true } :=
      ⟨_, rfl⟩
    have section_ : alone addr sb devsw p e .endSection s = some (true, s.setLog log) := by
      change some ((endSection s.machine.log).1, s.setLog (endSection s.machine.log).2) = _
      unfold endSection
      dsimp only
      rw [if_pos last, isLog]
    have empty₁ : log.lh.n = 0 := by rw [isLog]; exact empty
    obtain ⟨d, d', commits⟩ := log.run_commit_empty empty₁ s.machine.store
    refine ⟨{ log.reset with committing := false }, s.machine.store.put [(log.start, d), (log.start, d')], ?_,
      rfl, ?_, rfl, ?_, ?_⟩
    · refine Program.run_bind_eq_some.mpr ⟨true, _, section_, ?_⟩
      refine Program.run_bind_eq_some.mpr ⟨(), { s with machine :=
        { s.machine with log := log.reset, store := s.machine.store.put [(log.start, d), (log.start, d')] } },
          ?_, rfl⟩
      refine (Program.run_request (I := Calls n) .commit _).trans ?_
      change (log.commit.run Store.handle s.machine.store).map _ = _
      rw [commits]
      rfl
    · rw [isLog]
      rfl
    · rw [isLog]
      rfl
    · intro b other
      have notStart : b ≠ log.start := by rw [isLog]; exact other
      simp [Store.put, notStart]
  · refine ⟨{ s.machine.log with outstanding := s.machine.log.outstanding - 1 }, s.machine.store, ?_, empty,
      rfl, free, rfl, fun _ _ => rfl⟩
    have section_ : alone addr sb devsw p e .endSection s =
        some (false, s.setLog { s.machine.log with outstanding := s.machine.log.outstanding - 1 }) := by
      change some ((endSection s.machine.log).1, s.setLog (endSection s.machine.log).2) = _
      unfold endSection
      dsimp only
      rw [if_neg last]
    exact Program.run_bind_eq_some.mpr ⟨false, _, section_, rfl⟩

/-- A regular file or a directory is open, its inode is not locked and has its contents on the disk,
and `begin_op` does not sleep. -/
structure Open (sb : Superblock) (f : Fin nfile) (i : Fin ninode) (s : Calls.State C n) (nodes : Fs.Nodes) : Prop
    extends Intact sb i s.machine nodes where
  type : (s.ftable f).type = .inode
  ip : (s.ftable f).ip = some i
  valid : (s.machine.icache i).valid = true
  notDev : (s.machine.icache i).type ≠ T_DEV
  unlocked : (s.machine.icache i).locked = false
  free : s.machine.log.committing = false
  space : Log.Protocol.full s.machine.log = false

def opening (log : Log) : Log := { log with outstanding := log.outstanding + 1 }

def lockedInode (u : Calls.State C n) (i : Fin ninode) : MemInode := { u.machine.icache i with locked := true }

variable (addr p e) in
theorem writeTurn_run (opened : Open sb f i u nodes) {r : Nat} {ip' : MemInode} {log : Log} {v : Store}
    (writes : (Fs.writei sb devsw (opening u.machine.log) (lockedInode u i) src (u.ftable f).off
      (UInt64.ofInt (chunkOf count))).run Store.handle u.machine.store = some (((r : Int), ip', log), v))
    (empty : log.lh.n = 0) (free : log.committing = false) :
    ∃ log' store, (writeTurn f src count).run (alone addr sb devsw p e) u = some ((r : Int), { u with
        ftable := Function.update u.ftable f { u.ftable f with off := (u.ftable f).off + UInt64.ofInt r }
        machine := ⟨Function.update u.machine.icache i { ip' with locked := false }, log', store⟩ }) ∧
      log'.lh.n = 0 ∧ log'.start = log.start ∧ log'.committing = false ∧ log'.outstanding = log.outstanding - 1 ∧
      ∀ b, b ≠ log.start → store.view b = v.view b := by
  have begins : State.beginOp u.machine.log = some (opening u.machine.log) := by
    unfold State.beginOp
    rw [if_neg (by simp [opened.free, opened.space])]
    rfl
  have locks : (Fs.ilock sb u.machine.icache i).run Store.handle u.machine.store =
      some (Function.update u.machine.icache i (lockedInode u i), u.machine.store) := by
    unfold Fs.ilock
    rw [if_neg (by simp [opened.unlocked]), if_pos opened.valid]
    rfl
  obtain ⟨s₁, isS₁⟩ : ∃ s₁ : Calls.State C n, s₁ = { u with
      machine := ⟨Function.update u.machine.icache i (lockedInode u i), opening u.machine.log,
        u.machine.store⟩ } := ⟨_, rfl⟩
  obtain ⟨s₂, isS₂⟩ : ∃ s₂ : Calls.State C n, s₂ = { u with
      machine := ⟨Function.update u.machine.icache i ip', log, v⟩ } := ⟨_, rfl⟩
  obtain ⟨s₃, isS₃⟩ : ∃ s₃ : Calls.State C n, s₃ = { u with
      ftable := Function.update u.ftable f { u.ftable f with off := (u.ftable f).off + UInt64.ofInt r }
      machine := ⟨Function.update u.machine.icache i { ip' with locked := false }, log, v⟩ } := ⟨_, rfl⟩
  have empty₃ : s₃.machine.log.lh.n = 0 := by rw [isS₃]; exact empty
  have free₃ : s₃.machine.log.committing = false := by rw [isS₃]; exact free
  obtain ⟨log', store, ends, empty', start, free', outstanding, others⟩ :=
    endOp_run addr sb devsw p e empty₃ free₃
  rw [isS₃] at start outstanding others
  refine ⟨log', store, ?_, empty', start, free', outstanding, others⟩
  refine Program.run_bind_eq_some.mpr ⟨(), u.setLog (opening u.machine.log), ?_, ?_⟩
  · refine (Program.run_request (I := Calls n) .beginOp u).trans ?_
    change (State.beginOp u.machine.log).map _ = _
    rw [begins]
    rfl
  refine Program.run_bind_eq_some.mpr ⟨u.ftable f, _, rfl, ?_⟩
  rw [opened.ip]
  refine Program.run_bind_eq_some.mpr ⟨i, _, rfl, ?_⟩
  refine Program.run_bind_eq_some.mpr ⟨(), s₁, ?_, ?_⟩
  · refine (Program.run_request (I := Calls n) (.inodes (.ilock i)) _).trans ?_
    change (((Fs.ilock sb u.machine.icache i).run Store.handle u.machine.store).map _).map _ = _
    rw [locks, isS₁]
    rfl
  refine Program.run_bind_eq_some.mpr ⟨u.ftable f, s₁, by rw [isS₁]; rfl, ?_⟩
  refine Program.run_bind_eq_some.mpr ⟨r, s₂, ?_, ?_⟩
  · refine (Program.run_request (I := Calls n) (.inodes (.writei i src _ _)) _).trans ?_
    rw [isS₁]
    change (((Fs.writei sb devsw (opening u.machine.log) (Function.update u.machine.icache i _ i) src (u.ftable f).off
      (UInt64.ofInt (chunkOf count))).run Store.handle u.machine.store).map _).map _ = _
    rw [Function.update_self, writes, isS₂]
    simp only [Option.map_some, Function.update_idem]
    rfl
  rw [if_neg (by omega)]
  refine Program.run_bind_eq_some.mpr ⟨(), { s₂ with
    ftable := Function.update u.ftable f { u.ftable f with off := (u.ftable f).off + UInt64.ofInt r } }, ?_, ?_⟩
  · rw [isS₂]
    exact Program.run_bind_eq_some.mpr ⟨u.ftable f, _, rfl, rfl⟩
  refine Program.run_bind_eq_some.mpr ⟨(), s₃, ?_, ?_⟩
  · refine (Program.run_request (I := Calls n) (.inodes (.iunlock i)) _).trans ?_
    rw [isS₂, isS₃]
    change (some _).map _ = _
    simp only [Option.map_some, Icache.iunlock, Function.update_idem, Function.update_self]
    rfl
  refine Program.run_bind_eq_some.mpr ⟨(), _, ends, ?_⟩
  rw [isS₃]
  rfl

omit [DecidableEq C] in
variable (devsw src) in
theorem Open.writei_run (opened : Open sb f i u nodes) {len : Nat}
    (length : (UInt64.ofInt (chunkOf count)).toNat = len)
    (start : (u.ftable f).off.toNat ≤ (u.machine.icache i).size.toNat)
    (room : (u.ftable f).off.toNat + len ≤ maxFile * bsize)
    (enough : Fs.Enough sb u.machine.store.view (u.machine.icache i).addrs wanted)
    (want : Fs.slotsBetween (u.ftable f).off.toNat ((u.ftable f).off.toNat + len) ⊆ wanted) :
    ∃ ip' log view nodes', (Fs.writei sb devsw (opening u.machine.log) (lockedInode u i) src (u.ftable f).off
        (UInt64.ofInt (chunkOf count))).run Store.handle u.machine.store =
          some (((len : Int), ip', log), { u.machine.store with view }) ∧
      Fs.Updated sb src (u.ftable f).off.toNat len (lockedInode u i) ip' u.machine.store.view nodes view nodes' ∧
      (log.lh.n = 0 ∧ log.start = sb.logstart) ∧ Fs.Enough sb view ip'.addrs wanted := by
  subst length
  have ready : Fs.Ready (fun log => log.lh.n = 0 ∧ log.start = sb.logstart) sb (lockedInode u i).inum wanted
      u.machine.store.view nodes (opening u.machine.log) :=
    ⟨⟨opened.empty, opened.start⟩, opened.sound, opened.node ▸ enough⟩
  obtain ⟨ip', log, view, nodes', writes, updated, ok, left⟩ :=
    Fs.writei_run devsw src (admits_start sb.logstart) ready want
    opened.node opened.inside opened.notDev opened.mapped start room
  exact ⟨ip', log, view, nodes', writes, updated, ok, updated.node ▸ left⟩

structure Chunks (sb : Superblock) (f : Fin nfile) (i : Fin ninode) (src : Nat → UInt8) (count : Int)
    (wanted : Finset Fs.Slot)
    (s : Calls.State C n) (nodes : Fs.Nodes) (k : Nat) (u : Calls.State C n) (nodes' : Fs.Nodes) : Prop
    extends Open sb f i u nodes' where
  off : (u.ftable f).off.toNat = (s.ftable f).off.toNat + k * len count
  fields : u.machine.icache i =
    { s.machine.icache i with addrs := (u.machine.icache i).addrs, size := (u.machine.icache i).size }
  size : (u.machine.icache i).size.toNat =
    max (s.machine.icache i).size.toNat ((s.ftable f).off.toNat + k * len count)
  bytes : ∀ j < (u.machine.icache i).size.toNat, Sharing.byteOf u.machine i j =
    if (s.ftable f).off.toNat ≤ j ∧ j < (s.ftable f).off.toNat + k * len count then
      src ((j - (s.ftable f).off.toNat) % len count)
    else Sharing.byteOf s.machine i j
  others : ∀ g, g ≠ (s.machine.icache i).inum → nodes' g = nodes g ∧
    ∀ j, Fs.blockAt s.machine.store.view (nodes g) (j / bsize) ≠ 0 →
      Fs.blockAt u.machine.store.view (nodes g) (j / bsize) ≠ 0 ∧
      Fs.byteAt u.machine.store.view (nodes g) j = Fs.byteAt s.machine.store.view (nodes g) j
  enough : Fs.Enough sb u.machine.store.view (u.machine.icache i).addrs wanted

omit [DecidableEq C] in
theorem Chunks.first (opened : Open sb f i s nodes)
    (inside : (s.ftable f).off.toNat ≤ (s.machine.icache i).size.toNat)
    (enough : Fs.Enough sb s.machine.store.view (s.machine.icache i).addrs wanted) :
    Chunks sb f i src count wanted s nodes 0 s nodes where
  toOpen := opened
  off := by omega
  fields := rfl
  size := by omega
  bytes j _ := by rw [if_neg (by omega)]
  others _ _ := ⟨rfl, fun _ present => ⟨present, rfl⟩⟩
  enough := enough

/-! ## One turn

`writei` makes the machine `m`, and the commit of `end_op` writes the header behind it.
-/

/-- A turn from `u` to `v` has written `len` bytes at the offset of the file. -/
structure Advanced (sb : Superblock) (f : Fin nfile) (i : Fin ninode) (src : Nat → UInt8) (len : Nat)
    (u : Calls.State C n) (nodes : Fs.Nodes) (m : Machine) (v : Calls.State C n) (nodes' : Fs.Nodes) : Prop where
  file : v.ftable f = { u.ftable f with off := (u.ftable f).off + UInt64.ofInt len }
  inode : m.icache i = v.machine.icache i
  stored : Fs.Updated sb src (u.ftable f).off.toNat len (u.machine.icache i) (v.machine.icache i) u.machine.store.view
    nodes m.store.view nodes'
  intact : Intact sb i m nodes'
  kept : ∀ b, b ≠ sb.logstart → v.machine.store.view b = m.store.view b
  committed : Intact sb i v.machine nodes'
  free : v.machine.log.committing = false
  space : Log.Protocol.full v.machine.log = false

omit [DecidableEq C] in
theorem updated_unlocked {ip' : MemInode} {off len : Nat} {view view' : UInt32 → Block}
    (updated : Fs.Updated sb src off len (lockedInode u i) ip' view nodes view' nodes')
    (unlocked : (u.machine.icache i).locked = false) :
    Fs.Updated sb src off len (u.machine.icache i) { ip' with locked := false } view nodes view' nodes' where
  toConfined := updated.toConfined
  fields := by
    rw [updated.fields]
    change { u.machine.icache i with addrs := ip'.addrs, size := ip'.size, locked := false } = _
    rw [← unlocked]
  node := updated.node
  size := updated.size
  mapped := updated.mapped
  bytes := updated.bytes
  disk := updated.disk

theorem full_congr {log log' : Log} (entries : log'.lh.n = log.lh.n) (outstanding : log'.outstanding = log.outstanding) :
    Log.Protocol.full log' = Log.Protocol.full log := by
  rw [Log.Protocol.full, Log.Protocol.full, entries, outstanding]

variable (addr devsw p e src) in
theorem Open.advance (opened : Open sb f i u nodes) (positive : 0 < count)
    (start : (u.ftable f).off.toNat ≤ (u.machine.icache i).size.toNat)
    (room : (u.ftable f).off.toNat + len count ≤ maxFile * bsize)
    (enough : Fs.Enough sb u.machine.store.view (u.machine.icache i).addrs wanted)
    (want : Fs.slotsBetween (u.ftable f).off.toNat ((u.ftable f).off.toNat + len count) ⊆ wanted) :
    ∃ m v nodes', (writeTurn f src count).run (alone addr sb devsw p e) u = some ((len count : Int), v) ∧
      Advanced sb f i src (len count) u nodes m v nodes' ∧
      Fs.Enough sb m.store.view (v.machine.icache i).addrs wanted := by
  obtain ⟨ip', log, view, nodes', writes, updated, ⟨empty, begins⟩, left⟩ :=
    opened.writei_run devsw src (toNat_chunk positive) start room enough want
  have records : Fs.Records (opening u.machine.log) log := (Fs.writei_records ..).returned writes
  obtain ⟨log', store, turned, empty', start', free, ended, others⟩ :=
    writeTurn_run addr p e opened writes empty (records.committing.trans opened.free)
  obtain ⟨m, isM⟩ : ∃ m : Machine, m =
      ⟨Function.update u.machine.icache i { ip' with locked := false }, log, { u.machine.store with view }⟩ := ⟨_, rfl⟩
  have entry : m.icache i = { ip' with locked := false } := by
    rw [isM]
    exact Function.update_self ..
  have stored : Fs.Updated sb src (u.ftable f).off.toNat (len count) (u.machine.icache i) (m.icache i)
      u.machine.store.view nodes m.store.view nodes' := by
    rw [entry, isM]
    exact updated_unlocked updated opened.unlocked
  have intact : Intact sb i m nodes' :=
    opened.toIntact.updated stored rfl rfl rfl (isM ▸ empty) (isM ▸ begins)
  have kept : ∀ b, b ≠ sb.logstart → store.view b = m.store.view b := by
    intro b other
    rw [isM]
    exact others b (begins ▸ other)
  have same : log'.outstanding = u.machine.log.outstanding := by
    have opens : log.outstanding = u.machine.log.outstanding + 1 := records.outstanding
    omega
  have committed := intact.writeHead kept empty' (start'.trans (isM ▸ rfl))
  subst isM
  refine ⟨⟨Function.update u.machine.icache i { ip' with locked := false }, log, { u.machine.store with view }⟩, _,
    nodes', turned, ⟨Function.update_self .., rfl, stored, intact, kept, committed, free, ?_⟩, ?_⟩
  · exact (full_congr (empty'.trans opened.empty.symm) same).trans opened.space
  · have addrs : (Function.update u.machine.icache i { ip' with locked := false } i).addrs = ip'.addrs := by
      rw [Function.update_self]
    exact addrs ▸ left

namespace Advanced
variable {v : Calls.State C n} {m : Machine} {chunk : Nat}

omit [DecidableEq C]

theorem opened (advanced : Advanced sb f i src chunk u nodes m v nodes') (opened : Open sb f i u nodes) :
    Open sb f i v nodes' := by
  have fields := advanced.stored.fields
  refine ⟨advanced.committed, ?_, ?_, ?_, ?_, ?_, advanced.free, advanced.space⟩
  · rw [advanced.file]
    exact opened.type
  · rw [advanced.file]
    exact opened.ip
  · rw [fields]
    exact opened.valid
  · rw [fields]
    exact opened.notDev
  · rw [fields]
    exact opened.unlocked

theorem off (advanced : Advanced sb f i src chunk u nodes m v nodes') (room : (u.ftable f).off.toNat + chunk < 2 ^ 63) :
    (v.ftable f).off.toNat = (u.ftable f).off.toNat + chunk := by
  rw [advanced.file]
  dsimp only
  rw [UInt64.toNat_add, toNat_ofInt (by omega) (by omega), Int.toNat_natCast]
  omega

/-- The bytes of the chunk are those of the source, and the others are as before the turn. -/
theorem byte (advanced : Advanced sb f i src chunk u nodes m v nodes') {j : Nat}
    (inside : j < (v.machine.icache i).size.toNat) : Sharing.byteOf v.machine i j =
      if (u.ftable f).off.toNat ≤ j ∧ j < (u.ftable f).off.toNat + chunk then src (j - (u.ftable f).off.toNat)
      else Sharing.byteOf u.machine i j := by
  have intact := advanced.intact
  have present := intact.mapped j (advanced.inode ▸ inside)
  rw [← intact.node] at present
  have same := intact.head_byte advanced.kept present
  rw [intact.node, advanced.inode] at same
  rw [Sharing.byteOf, same, advanced.stored.bytes j inside]
  rfl

theorem other (advanced : Advanced sb f i src chunk u nodes m v nodes') {g : UInt32}
    (other : g ≠ (u.machine.icache i).inum) : nodes' g = nodes g ∧
      ∀ j, Fs.blockAt u.machine.store.view (nodes g) (j / bsize) ≠ 0 →
        Fs.blockAt v.machine.store.view (nodes g) (j / bsize) ≠ 0 ∧
        Fs.byteAt v.machine.store.view (nodes g) j = Fs.byteAt u.machine.store.view (nodes g) j := by
  have confined := advanced.stored.toConfined
  have intact := advanced.intact
  have node : nodes' g = nodes g := confined.same g other
  refine ⟨node, fun j present => ?_⟩
  have block := confined.blockAt_other other (j / bsize)
  have byte := confined.byteAt_other other present
  have block' := intact.head_block advanced.kept g (j / bsize)
  have byte' := intact.head_byte advanced.kept (block ▸ present)
  rw [node] at block byte block' byte'
  rw [block', block, byte', byte]
  exact ⟨present, rfl⟩

theorem enough (advanced : Advanced sb f i src chunk u nodes m v nodes')
    (left : Fs.Enough sb m.store.view (v.machine.icache i).addrs wanted) :
    Fs.Enough sb v.machine.store.view (v.machine.icache i).addrs wanted := by
  have intact := advanced.intact
  rw [← advanced.inode, ← intact.node] at left ⊢
  exact left.congr (intact.head_refs advanced.kept _) fun _ => intact.head_marks advanced.kept

end Advanced

omit [DecidableEq C] in
/-- One more chunk has been written. -/
theorem Chunks.advanced {v : Calls.State C n} {m : Machine} {nodes'' : Fs.Nodes}
    (chunks : Chunks sb f i src count wanted s nodes k u nodes')
    (advanced : Advanced sb f i src (len count) u nodes' m v nodes'')
    (room : (s.ftable f).off.toNat + (k + 1) * len count ≤ maxFile * bsize)
    (left : Fs.Enough sb m.store.view (v.machine.icache i).addrs wanted) :
    Chunks sb f i src count wanted s nodes (k + 1) v nodes'' := by
  have large : maxFile * bsize = 71680 := rfl
  have next : (k + 1) * len count = k * len count + len count := Nat.succ_mul k (len count)
  have small := len_le count
  have offset := chunks.off
  have size : (v.machine.icache i).size.toNat =
      max (s.machine.icache i).size.toNat ((s.ftable f).off.toNat + (k + 1) * len count) := by
    rw [advanced.stored.size, chunks.size]
    omega
  refine ⟨advanced.opened chunks.toOpen, ?_, ?_, size, ?_, ?_, advanced.enough left⟩
  · rw [advanced.off (by omega)]
    omega
  · rw [advanced.stored.fields, chunks.fields]
  · intro j inside
    rw [advanced.byte inside]
    rw [size] at inside
    by_cases here : (u.ftable f).off.toNat ≤ j ∧ j < (u.ftable f).off.toNat + len count
    · have place : j - (s.ftable f).off.toNat = j - (u.ftable f).off.toNat + k * len count := by omega
      rw [if_pos here, if_pos (by omega), place, Nat.add_mul_mod_self_right, Nat.mod_eq_of_lt (by omega)]
    · rw [if_neg here]
      refine (chunks.bytes j (by rw [chunks.size]; omega)).trans ?_
      by_cases earlier : (s.ftable f).off.toNat ≤ j ∧ j < (s.ftable f).off.toNat + k * len count
      · rw [if_pos earlier, if_pos (by omega)]
      · rw [if_neg earlier, if_neg (by omega)]
  · intro g other
    obtain ⟨same, blocks⟩ := chunks.others g other
    have number : (u.machine.icache i).inum = (s.machine.icache i).inum := by rw [chunks.fields]
    obtain ⟨node, blocks'⟩ := advanced.other (number ▸ other)
    refine ⟨node.trans same, fun j present => ?_⟩
    obtain ⟨block, byte⟩ := blocks j present
    rw [same] at blocks'
    obtain ⟨block', byte'⟩ := blocks' j block
    exact ⟨block', byte'.trans byte⟩

theorem Chunks.turn (chunks : Chunks sb f i src count wanted s nodes k u nodes') (positive : 0 < count)
    (room : (s.ftable f).off.toNat + (k + 1) * len count ≤ maxFile * bsize)
    (want : Fs.slotsBetween ((s.ftable f).off.toNat + k * len count)
      ((s.ftable f).off.toNat + (k + 1) * len count) ⊆ wanted) :
    ∃ u' nodes'', (writeTurn f src count).run (alone addr sb devsw p e) u = some ((len count : Int), u') ∧
      Chunks sb f i src count wanted s nodes (k + 1) u' nodes'' := by
  have next : (k + 1) * len count = k * len count + len count := Nat.succ_mul k (len count)
  have offset := chunks.off
  have reached : (u.ftable f).off.toNat + len count = (s.ftable f).off.toNat + (k + 1) * len count := by omega
  have inside : (u.ftable f).off.toNat ≤ (u.machine.icache i).size.toNat := by
    rw [chunks.size]
    omega
  rw [← reached, ← offset] at want
  obtain ⟨m, v, nodes'', turned, advanced, left⟩ :=
    chunks.toOpen.advance addr devsw p e src positive inside (by omega) chunks.enough want
  exact ⟨v, nodes'', turned, chunks.advanced advanced room left⟩

/-! ## All chunks -/

theorem slotsBetween_mono {first first' last last' : Nat} (left : first' ≤ first) (right : last ≤ last') :
    Fs.slotsBetween first last ⊆ Fs.slotsBetween first' last' := by
  refine Finset.biUnion_subset_biUnion_of_subset_left _ (Finset.Ico_subset_Ico ?_ ?_)
  · exact Nat.div_le_div_right left
  · exact Nat.div_le_div_right (by omega)

theorem writeTurns_past {fin : Int} (past : count < fin) (turns : Nat) (s : Calls.State C n) :
    (writeTurns f src count turns fin).run (alone addr sb devsw p e) s = some (-1, s) := by
  cases turns with
  | zero =>
    rw [writeTurns, if_neg (by omega), if_neg (by omega)]
    rfl
  | succ turns =>
    rw [writeTurns, if_neg (by omega), if_neg (by omega)]
    rfl

section
variable (room : (s.ftable f).off.toNat + count.toNat ≤ maxFile * bsize)
include room

variable (addr devsw p e) in
theorem Chunks.next (chunks : Chunks sb f i src count
      (Fs.slotsBetween (s.ftable f).off.toNat ((s.ftable f).off.toNat + count.toNat)) s nodes k u nodes')
    (positive : 0 < count) (within : (k + 1) * len count ≤ count.toNat) :
    ∃ u' nodes'', (writeTurn f src count).run (alone addr sb devsw p e) u = some ((len count : Int), u') ∧
      Chunks sb f i src count (Fs.slotsBetween (s.ftable f).off.toNat ((s.ftable f).off.toNat + count.toNat)) s nodes
        (k + 1) u' nodes'' :=
  chunks.turn positive (by omega) (slotsBetween_mono (by omega) (by omega))

variable (addr devsw p e) in
theorem Chunks.finish {rest total : Nat} (chunks : Chunks sb f i src count
      (Fs.slotsBetween (s.ftable f).off.toNat ((s.ftable f).off.toNat + count.toNat)) s nodes k u nodes')
    (positive : 0 < count) (left : k + rest = total) (all : total * len count = count.toNat) :
    ∃ t nodes'', (writeTurns f src count rest (k * len count : Nat)).run
      (alone addr sb devsw p e) u = some (count, t) ∧
      Chunks sb f i src count (Fs.slotsBetween (s.ftable f).off.toNat ((s.ftable f).off.toNat + count.toNat)) s nodes
        total t nodes'' := by
  have length := len_pos positive
  induction rest generalizing k u nodes' with
  | zero =>
    obtain rfl : k = total := by omega
    refine ⟨u, nodes', ?_, chunks⟩
    have done : ((k * len count : Nat) : Int) = count := by omega
    rw [writeTurns, done, if_neg (lt_irrefl _), if_pos rfl]
    rfl
  | succ rest ih =>
    have within : (k + 1) * len count ≤ total * len count := Nat.mul_le_mul_right _ (by omega)
    have next : (k + 1) * len count = k * len count + len count := Nat.succ_mul k (len count)
    obtain ⟨u₁, nodes₁, turned, chunks₁⟩ := chunks.next addr devsw p e room positive (by omega)
    obtain ⟨t, nodes'', ran, final⟩ := ih chunks₁ (by omega)
    refine ⟨t, nodes'', ?_, final⟩
    rw [writeTurns_succ, if_pos (by omega)]
    refine Program.run_bind_eq_some.mpr ⟨_, u₁, turned, ?_⟩
    rw [if_neg (by omega)]
    have sum : ((k * len count : Nat) : Int) + (len count : Nat) = ((k + 1) * len count : Nat) := by omega
    rw [sum]
    exact ran

theorem Chunks.returned {turns : Nat} (chunks : Chunks sb f i src count
      (Fs.slotsBetween (s.ftable f).off.toNat ((s.ftable f).off.toNat + count.toNat)) s nodes k u nodes')
    (positive : 0 < count) (within : k * len count ≤ count.toNat)
    (ran : (writeTurns f src count turns (k * len count : Nat)).run (alone addr sb devsw p e) u = some (count, t)) :
    ∃ total nodes'', total * len count = count.toNat ∧
      Chunks sb f i src count (Fs.slotsBetween (s.ftable f).off.toNat ((s.ftable f).off.toNat + count.toNat)) s nodes
        total t nodes'' := by
  induction turns generalizing k u nodes' with
  | zero =>
    rw [writeTurns] at ran
    split at ran
    · cases ran
    · next done =>
      have exact_ : ((k * len count : Nat) : Int) = count := by omega
      rw [if_pos exact_] at ran
      cases ran
      exact ⟨k, nodes', by omega, chunks⟩
  | succ turns ih =>
    have next : (k + 1) * len count = k * len count + len count := Nat.succ_mul k (len count)
    rw [writeTurns_succ] at ran
    split at ran
    · next more =>
      obtain ⟨cur, u₁, turned, rest⟩ := Program.run_bind_eq_some.mp ran
      by_cases fits : (k + 1) * len count ≤ count.toNat
      · obtain ⟨u₂, nodes₂, turned', chunks₂⟩ := chunks.next addr devsw p e room positive fits
        cases turned'.symm.trans turned
        have sum : ((k * len count : Nat) : Int) + (len count : Nat) = ((k + 1) * len count : Nat) := by omega
        rw [if_neg (by omega), sum] at rest
        exact ih chunks₂ fits rest
      · -- the loop fails here, or goes past the length
        exfalso
        by_cases failed : cur < 0
        · rw [if_pos failed, if_neg (by omega)] at rest
          have value := congrArg (Option.map Prod.fst) rest
          simp at value
          omega
        · have notDev : (loaded sb u.machine i).type ≠ T_DEV := by
            rw [loaded, if_pos chunks.valid]
            exact chunks.notDev
          have all := (writeTurn_returns chunks.ip turned).2.all notDev (not_lt.mp failed)
          rw [toNat_chunk positive] at all
          rw [if_neg failed, writeTurns_past (by omega)] at rest
          have value := congrArg (Option.map Prod.fst) rest
          simp at value
          omega
    · next done =>
      have exact_ : ((k * len count : Nat) : Int) = count := by omega
      rw [if_pos exact_] at ran
      cases ran
      exact ⟨k, nodes', by omega, chunks⟩

end

/-- The bytes of the source are in the file, and nothing else has changed. -/
structure Written (sb : Superblock) (f : Fin nfile) (i : Fin ninode) (src : Nat → UInt8) (count : Int)
    (s : Calls.State C n) (nodes : Fs.Nodes) (t : Calls.State C n) : Prop where
  off : (t.ftable f).off.toNat = (s.ftable f).off.toNat + count.toNat
  size : (t.machine.icache i).size.toNat = max (s.machine.icache i).size.toNat ((s.ftable f).off.toNat + count.toNat)
  bytes : ∀ j < (t.machine.icache i).size.toNat, Sharing.byteOf t.machine i j =
    if (s.ftable f).off.toNat ≤ j ∧ j < (s.ftable f).off.toNat + count.toNat then src (j - (s.ftable f).off.toNat)
    else Sharing.byteOf s.machine i j
  others : ∃ nodes', Intact sb i t.machine nodes' ∧ ∀ g, g ≠ (s.machine.icache i).inum → nodes' g = nodes g ∧
    ∀ j, Fs.blockAt s.machine.store.view (nodes g) (j / bsize) ≠ 0 →
      Fs.blockAt t.machine.store.view (nodes g) (j / bsize) ≠ 0 ∧
      Fs.byteAt t.machine.store.view (nodes g) j = Fs.byteAt s.machine.store.view (nodes g) j

omit [DecidableEq C] in
theorem Chunks.written {total : Nat} (chunks : Chunks sb f i src count wanted s nodes total t nodes')
    (all : total * len count = count.toNat) (same : ∀ j < count.toNat, src j = src (j % len count)) :
    Written sb f i src count s nodes t where
  off := all ▸ chunks.off
  size := all ▸ chunks.size
  bytes j inside := by
    rw [chunks.bytes j inside, all]
    split
    · exact (same _ (by omega)).symm
    · rfl
  others := ⟨nodes', chunks.toIntact, chunks.others⟩

theorem filewrite_run (turns : Nat) (type : (s.ftable f).type = .inode) :
    (filewrite turns f src count).run (alone addr sb devsw p e) s =
      (writeTurns f src count turns 0).run (alone addr sb devsw p e) s := by
  have reads : (file f).run (alone addr sb devsw p e) s = some (s.ftable f, s) := rfl
  rw [filewrite, Program.run_bind, reads, Option.bind_some, if_neg (not_not.mpr type)]

/-- A call of `filewrite` writes what it is given, and returns the length, if and only if that is at
most one chunk, or a number of chunks that are all the same. -/
theorem filewrite_writes_iff (opened : Open sb f i s nodes)
    (inside : (s.ftable f).off.toNat ≤ (s.machine.icache i).size.toNat) (nonneg : 0 ≤ count)
    (room : (s.ftable f).off.toNat + count.toNat ≤ maxFile * bsize)
    (enough : Fs.Enough sb s.machine.store.view (s.machine.icache i).addrs
      (Fs.slotsBetween (s.ftable f).off.toNat ((s.ftable f).off.toNat + count.toNat))) :
    (∃ turns t, (filewrite turns f src count).run (alone addr sb devsw p e) s = some (count, t) ∧
        Written sb f i src count s nodes t) ↔
      count ≤ lim ∨ lim ∣ count ∧ ∀ j < count.toNat, src j = src (j % lim.toNat) := by
  have first : Chunks sb f i src count _ s nodes 0 s nodes := Chunks.first opened inside enough
  constructor
  · rintro ⟨turns, t, ran, written⟩
    by_cases small : count ≤ lim
    · exact .inl small
    · have value : lim = 1536 := by decide
      have positive : 0 < count := by omega
      have length : len count = lim.toNat := by rw [len, chunkOf, if_pos (by omega)]
      rw [filewrite_run turns opened.type] at ran
      have zero : (0 : Int) = ((0 * len count : Nat) : Int) := by omega
      rw [zero] at ran
      obtain ⟨total, nodes', all, chunks⟩ := first.returned room positive (by omega) ran
      rw [length] at all
      refine .inr ⟨⟨total, ?_⟩, fun j below => ?_⟩
      · have product : ((total * lim.toNat : Nat) : Int) = (count.toNat : Int) := congrArg Nat.cast all
        have limit : (lim.toNat : Int) = lim := by omega
        rw [Nat.cast_mul, limit] at product
        rw [mul_comm]
        omega
      · have size := written.size
        have stored := written.bytes ((s.ftable f).off.toNat + j) (by omega)
        have found := chunks.bytes ((s.ftable f).off.toNat + j) (by omega)
        rw [length, all] at found
        rw [stored, if_pos (by omega), if_pos (by omega), Nat.add_sub_cancel_left] at found
        exact found
  · intro condition
    obtain ⟨total, all, same, some⟩ : ∃ total, total * len count = count.toNat ∧
        (∀ j < count.toNat, src j = src (j % len count)) ∧ (0 < count ∨ total = 0) := by
      have value : lim = 1536 := by decide
      by_cases small : count ≤ lim
      · have length : len count = count.toNat := by rw [len, chunkOf, if_neg (by omega)]
        by_cases none : count = 0
        · exact ⟨0, by omega, fun j below => absurd below (by omega), .inr rfl⟩
        · refine ⟨1, by omega, fun j below => ?_, .inl (by omega)⟩
          rw [length, Nat.mod_eq_of_lt below]
      · have length : len count = lim.toNat := by rw [len, chunkOf, if_pos (by omega)]
        obtain ⟨⟨total, isTotal⟩, same⟩ := condition.resolve_left small
        rw [length]
        refine ⟨total.toNat, ?_, same, .inl (by omega)⟩
        rw [value] at isTotal ⊢
        change total.toNat * 1536 = _
        omega
    obtain ⟨t, nodes', ran, chunks⟩ : ∃ t nodes', (writeTurns f src count total 0).run (alone addr sb devsw p e) s =
        Option.some (count, t) ∧ Chunks sb f i src count
          (Fs.slotsBetween (s.ftable f).off.toNat ((s.ftable f).off.toNat + count.toNat)) s nodes total t nodes' := by
      rcases some with positive | rfl
      · have finish := first.finish addr devsw p e room positive (Nat.zero_add total) all
        have zero : ((0 * len count : Nat) : Int) = 0 := by omega
        rw [zero] at finish
        exact finish
      · have none : count = 0 := by omega
        refine ⟨s, nodes, ?_, first⟩
        rw [writeTurns, none]
        rfl
    exact ⟨total, t, (filewrite_run total opened.type).trans ran, chunks.written all same⟩

/-! ## Writes to an empty file -/

theorem enough_used {last : Nat} (small : last ≤ 3072) :
    Fs.Enough Mkfs.superblock Fs.usedDisk (fun _ => 0) (Fs.slotsBetween 0 last) := by
  have six : (Fs.slotsBetween 0 3072).card = 6 := by decide +kernel
  have free : ({61, 62, 63, 64, 65, 66} : Finset Nat) ⊆ Fs.freeBlocks Mkfs.superblock Fs.usedDisk := by
    intro b member
    rw [Fs.freeBlocks_mem]
    simp only [Finset.mem_insert, Finset.mem_singleton] at member
    rcases member with rfl | rfl | rfl | rfl | rfl | rfl <;> decide +kernel
  calc
    _ ≤ (Fs.slotsBetween 0 last).card := Finset.card_filter_le _ _
    _ ≤ (Fs.slotsBetween 0 3072).card := Finset.card_le_card (slotsBetween_mono le_rfl small)
    _ = ({61, 62, 63, 64, 65, 66} : Finset Nat).card := six
    _ ≤ _ := Finset.card_le_card free

theorem open_sharedState : Open Mkfs.superblock sharedFile sharedInode sharedState.shared fun _ _ => 0 where
  toIntact := intact_sharedState
  type := rfl
  ip := rfl
  valid := sharedEntry ▸ rfl
  notDev := by
    rw [sharedEntry]
    decide
  unlocked := sharedEntry ▸ rfl
  free := rfl
  space := by decide

theorem enough_sharedState {last : Nat} (small : last ≤ 3072) :
    Fs.Enough Mkfs.superblock sharedState.shared.machine.store.view
    (sharedState.shared.machine.icache sharedInode).addrs (Fs.slotsBetween 0 last) := by
  have addrs : (sharedState.shared.machine.icache sharedInode).addrs = fun _ => 0 := sharedEntry ▸ rfl
  rw [addrs]
  exact enough_used small

/-- One chunk of different bytes is written, and two chunks of one byte. -/
theorem filewrite_writes_iff_chunks :
    (∃ turns t, (filewrite turns sharedFile (fun j => .ofNat j) 1000).run firstAlone sharedState.shared =
        some (1000, t) ∧
      Written Mkfs.superblock sharedFile sharedInode (fun j => .ofNat j) 1000 sharedState.shared (fun _ _ => 0) t) ∧
      ∃ turns t, (filewrite turns sharedFile (fun _ => 7) 3072).run firstAlone sharedState.shared = some (3072, t) ∧
        Written Mkfs.superblock sharedFile sharedInode (fun _ => 7) 3072 sharedState.shared (fun _ _ => 0) t := by
  constructor
  · have enough := enough_sharedState (show 1000 ≤ 3072 by decide)
    have room : (sharedState.shared.ftable sharedFile).off.toNat + Int.toNat 1000 ≤ maxFile * bsize := by decide
    exact (filewrite_writes_iff open_sharedState (Nat.zero_le _) (by decide) room enough).mpr (.inl (by decide))
  · have enough := enough_sharedState (show 3072 ≤ 3072 by decide)
    have room : (sharedState.shared.ftable sharedFile).off.toNat + Int.toNat 3072 ≤ maxFile * bsize := by decide
    exact (filewrite_writes_iff open_sharedState (Nat.zero_le _) (by decide) room enough).mpr
      (.inr ⟨by decide, fun _ _ => rfl⟩)

/-- A write of a byte more than a chunk does not return its length. -/
theorem filewrite_overshoots : ¬ ∀ (f : Fin nfile) (i : Fin ninode) (src : Nat → UInt8) (count : Int)
    (s : Calls.State Bool nproc) (nodes : Fs.Nodes), Open Mkfs.superblock f i s nodes →
    (s.ftable f).off.toNat ≤ (s.machine.icache i).size.toNat → 0 ≤ count →
    (s.ftable f).off.toNat + count.toNat ≤ maxFile * bsize →
    Fs.Enough Mkfs.superblock s.machine.store.view (s.machine.icache i).addrs
      (Fs.slotsBetween (s.ftable f).off.toNat ((s.ftable f).off.toNat + count.toNat)) →
    ∃ turns t, (filewrite turns f src count).run firstAlone s = some (count, t) ∧
      Written Mkfs.superblock f i src count s nodes t := by
  intro always
  have enough := enough_sharedState (show 1537 ≤ 3072 by decide)
  have room : (sharedState.shared.ftable sharedFile).off.toNat + Int.toNat 1537 ≤ maxFile * bsize := by decide
  obtain ⟨turns, t, ran, _⟩ := always sharedFile sharedInode (fun _ => 7) 1537 sharedState.shared _ open_sharedState
    (Nat.zero_le _) (by decide) room enough
  have first : Chunks Mkfs.superblock sharedFile sharedInode
    (fun _ => 7) 1537 _ sharedState.shared _ 0 sharedState.shared _ :=
    Chunks.first open_sharedState (Nat.zero_le _) enough
  unfold firstAlone at ran
  rw [filewrite_run turns rfl] at ran
  obtain ⟨total, _, all, _⟩ := first.returned room (by decide) (by decide) ran
  have chunk : len 1537 = 1536 := by decide
  rw [chunk] at all
  change total * 1536 = 1537 at all
  omega

end Xv6.Writing
