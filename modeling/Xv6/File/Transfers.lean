import Xv6.File.Descriptors

/-! The ranges of bytes that calls of `readi` and `writei` move.

A transfer is noted with the bytes that were moved. Transfers that follow each other do not
overlap, so a later write leaves the bytes of the earlier ones in the file.
-/

set_option autoImplicit false

namespace Xv6.Sharing

open Library Syscall Process Calls.State

/-! ## Transfers -/

/-- A range of bytes that a call has read or written. -/
structure Transfer where
  first : Nat
  count : Nat
  data : Nat → UInt8

namespace Transfer

def range (x : Transfer) : Finset Nat := Finset.Ico x.first (x.first + x.count)

-- A reply of `readi` or `writei` that says how many bytes were moved.
def ofReply (off : UInt64) (r : Int) (data : Nat → UInt8) : Option Transfer :=
  if r > 0 then some ⟨off.toNat, r.toNat, data⟩ else none

def reached (start : Nat) (record : List Transfer) : Nat := start + (record.map count).sum

/-- Each transfer begins where the one before it has ended. -/
def Contiguous : Nat → List Transfer → Prop
  | _, [] => True
  | start, x :: rest => x.first = start ∧ Contiguous (start + x.count) rest

variable {start : Nat} {record : List Transfer} {x : Transfer}

@[simp] theorem reached_nil (start : Nat) : reached start [] = start := rfl

theorem reached_cons (start : Nat) (x : Transfer) (record : List Transfer) :
    reached start (x :: record) = reached (start + x.count) record := by
  simp only [reached, List.map_cons, List.sum_cons]
  omega

theorem reached_append (start : Nat) (record : List Transfer) (x : Transfer) :
    reached start (record ++ [x]) = reached start record + x.count := by
  simp only [reached, List.map_append, List.sum_append, List.map_cons, List.map_nil, List.sum_cons, List.sum_nil]
  omega

theorem Contiguous.append (contiguous : Contiguous start record) (next : x.first = reached start record) :
    Contiguous start (record ++ [x]) := by
  induction record generalizing start with
  | nil => exact ⟨next, trivial⟩
  | cons y rest ih =>
    obtain ⟨here, later⟩ := contiguous
    rw [reached_cons] at next
    exact ⟨here, ih later next⟩

theorem Contiguous.within (contiguous : Contiguous start record) (member : x ∈ record) :
    start ≤ x.first ∧ x.first + x.count ≤ reached start record := by
  induction record generalizing start with
  | nil => cases member
  | cons y rest ih =>
    obtain ⟨here, later⟩ := contiguous
    rw [reached_cons]
    rcases List.mem_cons.mp member with rfl | inRest
    · have most : reached (start + x.count) rest = start + x.count + (rest.map count).sum := rfl
      omega
    · have bounds := ih later inRest
      omega

theorem Contiguous.disjoint (contiguous : Contiguous start record) :
    record.Pairwise fun x y => Disjoint x.range y.range := by
  induction record generalizing start with
  | nil => exact .nil
  | cons x rest ih =>
    obtain ⟨here, later⟩ := contiguous
    refine List.pairwise_cons.mpr ⟨fun y member => ?_, ih later⟩
    have after := (later.within member).1
    refine Finset.disjoint_left.mpr fun k inX inY => ?_
    rw [range, Finset.mem_Ico] at inX inY
    omega

end Transfer

open Transfer

variable {C : Type} {n : Nat}

theorem mem_ofReply {off : UInt64} {r : Int} {data : Nat → UInt8} {x : Transfer}
    (member : x ∈ (ofReply off r data).toList) : r > 0 ∧ x = ⟨off.toNat, r.toNat, data⟩ := by
  unfold ofReply at member
  split at member
  · next some => exact ⟨some, by simpa using member⟩
  · simp at member

def noteOf : (r : Calls.Request n) → (Calls n).Reply r → Option Transfer
  | .inodes (.readi _ _ off _), reply => ofReply off reply.1 reply.2
  | .inodes (.writei _ src off _), reply => ofReply off reply src
  | _, _ => none

/-! ## The file system -/

/-- The inode in an entry of the cache has its contents on the disk, and the log is empty. -/
structure Intact (sb : Superblock) (i : Fin ninode) (m : Machine) (nodes : Fs.Nodes) : Prop where
  sound : Fs.Sound sb m.store.view nodes
  node : nodes (m.icache i).inum = (m.icache i).addrs
  inside : Fs.InTable sb (m.icache i).inum
  mapped : Fs.Mapped m.store.view (m.icache i).addrs (m.icache i).size.toNat
  empty : m.log.lh.n = 0
  start : m.log.start = sb.logstart
  log : 0 < sb.nlog
  apart : ∀ b, Fs.Covered sb b → bblock b sb ≠ sb.logstart

def byteOf (m : Machine) (i : Fin ninode) (k : Nat) : UInt8 := Fs.byteAt m.store.view (m.icache i).addrs k

/-- The bytes of the transfer are those of the inode. -/
def Agrees (m : Machine) (i : Fin ninode) (x : Transfer) : Prop :=
  x.first + x.count ≤ (m.icache i).size.toNat ∧ ∀ k < x.count, byteOf m i (x.first + k) = x.data k

theorem admits_start (start : UInt32) : Fs.Admits fun log => log.lh.n = 0 ∧ log.start = start :=
  fun log b ⟨empty, same⟩ => ⟨log.lh, LogHeader.record_empty empty b, empty, same⟩

def Stored (sb : Superblock) (i : Fin ninode) (m : Machine) (record : List Transfer) : Prop :=
  (∃ nodes, Intact sb i m nodes) ∧ ∀ x ∈ record, Agrees m i x

section
variable {sb : Superblock} {i : Fin ninode} {m m' : Machine} {record : List Transfer}

theorem Intact.congr {nodes : Fs.Nodes} (intact : Intact sb i m nodes) (store : m'.store = m.store)
    (inum : (m'.icache i).inum = (m.icache i).inum) (addrs : (m'.icache i).addrs = (m.icache i).addrs)
    (size : (m'.icache i).size = (m.icache i).size) (empty : m'.log.lh = m.log.lh)
    (start : m'.log.start = m.log.start) :
    Intact sb i m' nodes := by
  refine ⟨?_, ?_, ?_, ?_, ?_, ?_, intact.log, intact.apart⟩
  · rw [store]
    exact intact.sound
  · rw [inum, addrs]
    exact intact.node
  · rw [inum]
    exact intact.inside
  · rw [store, addrs, size]
    exact intact.mapped
  · rw [empty]
    exact intact.empty
  · rw [start]
    exact intact.start

theorem Stored.congr (stored : Stored sb i m record) (store : m'.store = m.store)
    (inum : (m'.icache i).inum = (m.icache i).inum) (addrs : (m'.icache i).addrs = (m.icache i).addrs)
    (size : (m'.icache i).size = (m.icache i).size) (empty : m'.log.lh = m.log.lh)
    (start : m'.log.start = m.log.start) :
    Stored sb i m' record := by
  obtain ⟨⟨nodes, intact⟩, agrees⟩ := stored
  refine ⟨⟨nodes, intact.congr store inum addrs size empty start⟩, fun x member => ?_⟩
  unfold Agrees byteOf
  rw [store, addrs, size]
  exact agrees x member

theorem Intact.updated {nodes nodes' : Fs.Nodes} (intact : Intact sb i m nodes) {src : Nat → UInt8}
    {off n : Nat} {ip' : MemInode}
    (updated : Fs.Updated sb src off n (m.icache i) ip' m.store.view nodes m'.store.view nodes')
    (inum : (m'.icache i).inum = ip'.inum) (addrs : (m'.icache i).addrs = ip'.addrs)
    (size : (m'.icache i).size = ip'.size)
    (empty : m'.log.lh.n = 0) (start : m'.log.start = sb.logstart) : Intact sb i m' nodes' := by
  have number : ip'.inum = (m.icache i).inum := by rw [updated.fields]
  refine ⟨updated.sound, ?_, ?_, ?_, empty, start, intact.log, intact.apart⟩
  · rw [inum, addrs, number]
    exact updated.node
  · rw [inum, number]
    exact intact.inside
  · rw [addrs, size]
    exact updated.mapped

section
variable {nodes : Fs.Nodes} {t : Store} {log : Log}

theorem Intact.head_kept (intact : Intact sb i m nodes) (others : ∀ b, b ≠ sb.logstart → t.view b = m.store.view b)
    {g : UInt32} {k : Fs.Slot} (filled : Fs.refAt m.store.view (nodes g) k ≠ 0) :
    t.view (Fs.refAt m.store.view (nodes g) k) = m.store.view (Fs.refAt m.store.view (nodes g) k) := by
  refine others _ fun same => (intact.sound.ref_held filled).data ?_
  have region : Fs.Meta sb (sb.logstart + 0) := Fs.Meta.log 0 intact.log
  rwa [UInt32.add_zero, ← same] at region

theorem Intact.head_refs (intact : Intact sb i m nodes) (others : ∀ b, b ≠ sb.logstart → t.view b = m.store.view b)
    (g : UInt32) (k : Fs.Slot) : Fs.refAt t.view (nodes g) k = Fs.refAt m.store.view (nodes g) k :=
  Fs.refAt_congr (fun present => intact.head_kept (k := .indirect) others present) k

theorem Intact.head_marks (intact : Intact sb i m nodes) (others : ∀ b, b ≠ sb.logstart → t.view b = m.store.view b)
    {b : UInt32} (covered : Fs.Covered sb b) : Fs.InUse sb t.view b ↔ Fs.InUse sb m.store.view b := by
  rw [Fs.InUse, others _ (intact.apart b covered), Fs.InUse]

theorem Intact.head_block (intact : Intact sb i m nodes) (others : ∀ b, b ≠ sb.logstart → t.view b = m.store.view b)
    (g : UInt32) (j : Nat) : Fs.blockAt t.view (nodes g) j = Fs.blockAt m.store.view (nodes g) j := by
  unfold Fs.blockAt
  cases Fs.slotOf j with
  | none => rfl
  | some k => exact intact.head_refs others g k

theorem Intact.head_byte (intact : Intact sb i m nodes) (others : ∀ b, b ≠ sb.logstart → t.view b = m.store.view b)
    {g : UInt32} {k : Nat} (present : Fs.blockAt m.store.view (nodes g) (k / bsize) ≠ 0) :
    Fs.byteAt t.view (nodes g) k = Fs.byteAt m.store.view (nodes g) k := by
  obtain ⟨l, _, value, _⟩ := Fs.slotOf_some present
  rw [Fs.byteAt, Fs.byteAt, intact.head_block others, value, intact.head_kept others (value ▸ present)]

theorem Intact.writeHead (intact : Intact sb i m nodes) (others : ∀ b, b ≠ sb.logstart → t.view b = m.store.view b)
    (empty : log.lh.n = 0) (start : log.start = m.log.start) : Intact sb i { m with log, store := t } nodes := by
  refine ⟨intact.sound.transfer (intact.head_refs others) fun b => intact.head_marks others, intact.node,
    intact.inside,
    fun k below => ?_, empty, start.trans intact.start, intact.log, intact.apart⟩
  have present := intact.mapped k below
  rw [← intact.node] at present ⊢
  rw [intact.head_block others]
  exact present

end

theorem Stored.writeHead (stored : Stored sb i m record) {t : Store} {log : Log}
    (others : ∀ b, b ≠ sb.logstart → t.view b = m.store.view b) (empty : log.lh.n = 0)
    (start : log.start = m.log.start) : Stored sb i { m with log, store := t } record := by
  obtain ⟨⟨nodes, intact⟩, agrees⟩ := stored
  refine ⟨⟨nodes, intact.writeHead others empty start⟩, fun x member => ?_⟩
  obtain ⟨inside, same⟩ := agrees x member
  refine ⟨inside, fun k less => ?_⟩
  rw [← same k less, byteOf, byteOf, ← intact.node]
  refine intact.head_byte others ?_
  rw [intact.node]
  exact intact.mapped _ (by change x.first + x.count ≤ (m.icache i).size.toNat at inside; omega)

theorem Stored.commit (stored : Stored sb i m record) {log : Log} {t : Store}
    (commits : m.log.commit.run Store.handle m.store = some (log, t)) :
    Stored sb i { m with log, store := t } record := by
  obtain ⟨⟨nodes, intact⟩, _⟩ := stored
  obtain ⟨d, e, writes⟩ := m.log.run_commit_empty intact.empty m.store
  cases writes.symm.trans commits
  refine Stored.writeHead ⟨⟨nodes, intact⟩, by assumption⟩ (fun b other => ?_) rfl rfl
  rw [← intact.start] at other
  simp [Store.put, other]

theorem Stored.readi (stored : Stored sb i m record) {devsw : Fin ndev → Devsw UInt32} {dst dst' : Nat → UInt8}
    {off count : UInt64} {r : Int} {ip : MemInode} {log : Log} {t : Store} (notDev : (m.icache i).type ≠ T_DEV)
    (reads : (Fs.readi sb devsw m.log (m.icache i) dst off count).run Store.handle m.store =
      some ((r, dst', ip, log), t)) :
    Stored sb i ⟨Function.update m.icache i ip, log, t⟩ (record ++ (ofReply off r dst').toList) := by
  obtain ⟨⟨nodes, intact⟩, agrees⟩ := stored
  by_cases accepted : off.toNat ≤ (m.icache i).size.toNat ∧ off.toNat + count.toNat < 2 ^ 64
  · have same := (Fs.readi_run notDev intact.mapped accepted.1 accepted.2).symm.trans reads
    cases same
    rw [Function.update_eq_self]
    refine ⟨⟨nodes, intact⟩, fun x member => ?_⟩
    rcases List.mem_append.mp member with old | new
    · exact agrees x old
    · obtain ⟨_, rfl⟩ := mem_ofReply new
      refine ⟨?_, fun k less => ?_⟩
      · change off.toNat + min _ _ ≤ (m.icache i).size.toNat
        omega
      · change k < min _ _ at less
        exact (if_pos less).symm
  · rw [Fs.readi, if_neg notDev, if_pos ((Fs.range_refused _).mpr accepted)] at reads
    cases reads
    rw [Function.update_eq_self]
    refine ⟨⟨nodes, intact⟩, fun x member => ?_⟩
    rcases List.mem_append.mp member with old | new
    · exact agrees x old
    · exact absurd (mem_ofReply new).1 (by decide)

/-- `writei` after the transfers keeps their bytes, and stores those that it is given. -/
theorem Stored.writei (stored : Stored sb i m record) {devsw : Fin ndev → Devsw UInt32} {src : Nat → UInt8}
    {off count : UInt64} {r : Int} {ip : MemInode} {log : Log} {t : Store} (notDev : (m.icache i).type ≠ T_DEV)
    (after : ∀ x ∈ record, x.first + x.count ≤ off.toNat)
    (writes : (Fs.writei sb devsw m.log (m.icache i) src off count).run Store.handle m.store =
      some ((r, ip, log), t)) :
    Stored sb i ⟨Function.update m.icache i ip, log, t⟩ (record ++ (ofReply off r src).toList) := by
  obtain ⟨⟨nodes, intact⟩, agrees⟩ := stored
  have logged : m.log.lh.n = 0 ∧ m.log.start = sb.logstart := ⟨intact.empty, intact.start⟩
  rcases Fs.writei_returns devsw (admits_start sb.logstart) logged intact.sound intact.node intact.inside notDev
    intact.mapped writes with ⟨_, rfl, rfl, rfl, rfl⟩ | ⟨accepted, rfl, store, ⟨empty, begins⟩, nodes', updated⟩
  · rw [Function.update_eq_self]
    refine ⟨⟨nodes, intact⟩, fun x member => ?_⟩
    rcases List.mem_append.mp member with old | new
    · exact agrees x old
    · exact absurd (mem_ofReply new).1 (by decide)
  · have here : Function.update m.icache i ip i = ip := Function.update_self ..
    refine ⟨⟨nodes', intact.updated updated ?_ ?_ ?_ empty begins⟩, fun x member => ?_⟩
    · exact congrArg MemInode.inum here
    · exact congrArg (fun ip => ip.addrs) here
    · exact congrArg MemInode.size here
    · unfold Agrees byteOf
      dsimp only
      rw [here]
      have size := updated.size
      rcases List.mem_append.mp member with old | new
      · obtain ⟨inside, same⟩ := agrees x old
        have before := after x old
        refine ⟨by omega, fun k less => ?_⟩
        rw [updated.bytes _ (by omega), if_neg (by omega)]
        exact same k less
      · obtain ⟨_, rfl⟩ := mem_ofReply new
        refine ⟨?_, fun k less => ?_⟩
        · change off.toNat + count.toNat ≤ _
          omega
        · change k < count.toNat at less
          change Fs.byteAt _ _ (off.toNat + k) = src k
          rw [updated.bytes _ (by omega), if_pos (by omega)]
          congr 1
          omega

end

end Xv6.Sharing
