import Xv6.Fs.OnCache

/-! The indirect block map of an inode, when buffers are recycled between two calls of `bmap`.

`bmap` writes a new entry into the buffer of the indirect block and gives the
buffer back without `log_write`. The entry stays as long as the buffer does: if
nothing pins it, its recycling loses the entry.
-/

set_option autoImplicit false

namespace Xv6.Fs

open Library Buffer

variable {Pid : Type} {p q : Pid} {sb : Superblock} {ip ip' : Inode} {log log' : Log} {j : Fin nindirect}
  {s t u v : State Pid} {i : Fin nbuf}

def Marked (sb : Superblock) (dev b : UInt32) (s : State Pid) : Prop :=
  Everywhere dev (bblock b sb) (fun data => data.bit (bitIndex b) = true) s

/-- The bitmap marks block 0 and its own first block, as mkfs writes it. -/
structure Reserved (sb : Superblock) (dev : UInt32) (s : State Pid) : Prop where
  boot : Marked sb dev 0 s
  bitmap : Marked sb dev (bblock 0 sb) s

def Pinned (dev blockno : UInt32) (s : State Pid) : Prop :=
  ∃ i, (s.cache.buf i).dev = dev ∧ (s.cache.buf i).blockno = blockno ∧ 0 < s.pins i

/-- Every copy of the indirect block has the same nonzero entry. -/
def Written (dev blockno : UInt32) (j : Fin nindirect) (s : State Pid) : Prop :=
  ∃ e, e ≠ 0 ∧ Everywhere dev blockno (fun data => data.word j = e) s

/-- The entry that `bmap` is going to return cannot be lost: the indirect block is
still to be allocated, or its buffer is pinned, or the disk has the entry already. -/
def Anchored (ip : Inode) (j : Fin nindirect) (s : State Pid) : Prop :=
  ip.addrs Inode.indirect = 0 ∨ Pinned ip.dev (ip.addrs Inode.indirect) s ∨
    Written ip.dev (ip.addrs Inode.indirect) j s

-- What `bmap` finds when it is about to read the indirect block.
structure Located (sb : Superblock) (ip : Inode) (j : Fin nindirect) (s : State Pid) : Prop where
  nonzero : ip.addrs Inode.indirect ≠ 0
  boot : Marked sb ip.dev 0 s
  anchor : Pinned ip.dev (ip.addrs Inode.indirect) s ∨ Written ip.dev (ip.addrs Inode.indirect) j s

section
variable [DecidableEq Pid]

theorem mapAddr_located (faithful : Faithful s) (reserved : Reserved sb ip.dev s) (anchored : Anchored ip j s)
    (room : Uncrowded p (mapAddr sb log ip Inode.indirect) s)
    (ran : (mapAddr sb log ip Inode.indirect).run (exec p) s = some ((ip', log'), t)) :
    After s t ∧ ip'.dev = ip.dev ∧ Located sb ip' j t := by
  rw [mapAddr] at ran room
  split at ran
  · next absent =>
    rw [if_pos absent] at room
    obtain ⟨⟨a, log₁⟩, _, allocates, done⟩ := Program.run_bind_eq_some.mp ran
    cases done
    have allocated := balloc_allocated faithful room.first allocates
    -- so zeroing the new block leaves the mark of block 0 alone
    have home : a ≠ bblock 0 sb := allocated.unmarked _ reserved.bitmap
    refine ⟨allocated.after, rfl, ⟨?_, ?_, .inl ?_⟩⟩
    · simpa using allocated.unmarked 0 reserved.boot
    · exact allocated.everywhere _ _ (fun _ k => Block.setBit_of_bit k) home reserved.boot
    · obtain ⟨k, copies, _, pinned⟩ := allocated.zeroed
      exact ⟨k, copies.dev, by simpa using copies.blockno, pinned⟩
  · next present =>
    cases ran
    have after : After s s := ⟨faithful, rfl, rfl, fun _ => le_rfl, fun _ _ => rfl⟩
    exact ⟨after, rfl, present, reserved.boot, anchored.resolve_left present⟩

-- The buffer of the indirect block, with the entry that `bmap` is going to return.
structure Entry (dev blockno : UInt32) (j : Fin nindirect) (d : UInt32) (i : Fin nbuf) (s : State Pid) : Prop where
  faithful : Faithful s
  copies : Copies dev blockno (s.cache.buf i)
  word : (s.cache.buf i).data.word j = d
  nonzero : d ≠ 0
  kept : (s.disk blockno).word j = d ∨ 0 < s.pins i

theorem mapEntry_entry (real : ip.dev ≠ 0) (faithful : Faithful s) (bounded : Bounded s)
    (located : Located sb ip j s) (got : Bread p ip.dev (ip.addrs Inode.indirect) s i t)
    (room : Uncrowded p (mapEntry sb log ip.dev i j) t)
    (ran : (mapEntry sb log ip.dev i j).run (exec p) t = some (log', u)) :
    u.holds = t.holds ∧ ∃ d, Entry ip.dev (ip.addrs Inode.indirect) j d i u := by
  have faithful₁ := faithful_bread faithful bounded got
  -- the buffer is pinned, or it has the entry of the disk
  have anchor : 0 < t.pins i ∨ ∃ e, e ≠ 0 ∧ (t.cache.buf i).data.word j = e ∧
      (t.disk (ip.addrs Inode.indirect)).word j = e := by
    rcases located.anchor with ⟨k, dev, blockno, pinned⟩ | ⟨e, nonzero, all⟩
    · obtain rfl := bread_cached real got dev blockno
      exact .inl (got.pins ▸ pinned)
    · exact .inr ⟨e, nonzero, bread_everywhere got all, got.disk ▸ all.disk⟩
  obtain ⟨data, _, loaded, ran⟩ := Program.run_bind_eq_some.mp ran
  have room := room.next loaded
  obtain ⟨rfl, rfl⟩ := Prod.mk.inj (Option.some.inj ((run_data i t).symm.trans loaded))
  split at ran
  · next absent =>
    rw [if_pos absent] at room
    obtain ⟨⟨b, _⟩, v, allocates, ran⟩ := Program.run_bind_eq_some.mp ran
    obtain ⟨_, _, loaded, ran⟩ := Program.run_bind_eq_some.mp ran
    obtain ⟨rfl, rfl⟩ := Prod.mk.inj (Option.some.inj ((run_data i v).symm.trans loaded))
    obtain ⟨_, w, wrote, done⟩ := Program.run_bind_eq_some.mp ran
    cases done
    have allocated := balloc_allocated faithful₁ room.first allocates
    -- the sleep lock of the indirect block is held while `balloc` runs
    have unchanged := allocated.after.locked i (by simp [got.lock])
    have pinned : 0 < v.pins i := by
      rcases anchor with pinned | ⟨e, nonzero, entry, _⟩
      · exact pinned.trans_le (allocated.after.pins i)
      · exact absurd (entry.symm.trans absent) nonzero
    obtain ⟨faithful₂, rfl⟩ := setData_faithful allocated.after.faithful (allocated.after.holds.trans got.holds) wrote
    refine ⟨allocated.after.holds, b, faithful₂, ?_, by simp, ?_, .inr pinned⟩
    · simpa [unchanged] using ⟨got.valid, got.sameDev, got.sameBlock⟩
    · exact allocated.unmarked 0 (everywhere_bread got located.boot)
  · next present =>
    cases ran
    refine ⟨rfl, _, faithful₁, bread_copies got, rfl, present, ?_⟩
    rcases anchor with pinned | ⟨e, _, entry, written⟩
    · exact .inr pinned
    · exact .inl (written.trans entry.symm)

/-! ## Two calls -/

theorem bmapIndirect_stable {d : UInt32} (real : ip.dev ≠ 0) (faithful : Faithful s)
    (device : ∀ h ∈ s.holds, h.dev = ip.dev) (reserved : Reserved sb ip.dev s) (anchored : Anchored ip j s)
    (room : Uncrowded p (bmapIndirect sb log ip j) s)
    (ran : (bmapIndirect sb log ip j).run (exec p) s = some ((d, ip', log'), t)) :
    ip'.dev = ip.dev ∧ ip'.addrs Inode.indirect ≠ 0 ∧ d ≠ 0 ∧
      Stable ip.dev (ip'.addrs Inode.indirect) (fun data => data.word j = d) t := by
  obtain ⟨⟨ip₁, log₁⟩, s₁, maps, ran₁⟩ := Program.run_bind_eq_some.mp ran
  obtain ⟨after, dev, located⟩ := mapAddr_located faithful reserved anchored room.first maps
  have room₁ := room.next maps
  obtain ⟨i, s₂, read, ran₂⟩ := Program.run_bind_eq_some.mp ran₁
  have room₂ := room₁.next read
  have got := run_bread after.faithful.inv read
  obtain ⟨log₂, s₃, looks, ran₃⟩ := Program.run_bind_eq_some.mp ran₂
  have real₁ : ip₁.dev ≠ 0 := dev ▸ real
  obtain ⟨holds, e, entry⟩ := mapEntry_entry real₁ after.faithful room₁.first.bounded located got room₂.first looks
  obtain ⟨cache, released, faithful₄, bufs⟩ := brelse_faithful entry.faithful (holds.trans got.holds)
  obtain ⟨_, _, gave, ran₄⟩ := Program.run_bind_eq_some.mp ran₃
  rw [released] at gave
  cases gave
  obtain ⟨_, _, loaded, done⟩ := Program.run_bind_eq_some.mp ran₄
  cases loaded
  cases done
  have copies : Copies ip'.dev (ip'.addrs Inode.indirect) (cache.buf i) := by
    rw [bufs]
    simpa using ⟨entry.copies.valid, entry.copies.dev, entry.copies.blockno⟩
  have word : (cache.buf i).data.word j = e := by
    rw [bufs]
    simpa using entry.word
  refine ⟨dev, located.nonzero, ?_, ?_⟩
  · change (cache.buf i).data.word j ≠ 0
    exact word ▸ entry.nonzero
  · rw [← dev]
    refine ⟨faithful₄, ?_, fun k other => ?_, ?_⟩
    · rw [dev, after.holds]
      exact device
    · obtain rfl : k = i := faithful₄.inv.copies_unique real₁ other copies
      rfl
    · rcases entry.kept with written | pinned
      · exact .inl (written.trans word.symm)
      · exact .inr ⟨i, copies, pinned⟩

omit [DecidableEq Pid] in
/-- While the entry is stable, every `bread` of the indirect block returns it. -/
theorem bread_stable {dev blockno : UInt32} {P : Block → Prop} (real : dev ≠ 0) (stable : Stable dev blockno P s)
    (got : Bread q dev blockno s i u) : P (u.cache.buf i).data := by
  rcases got.data with ⟨sameDev, sameBlock, valid, same⟩ | ⟨fromDisk, uncached⟩
  · rw [same]
    exact stable.cached i ⟨valid, sameDev, sameBlock⟩
  · rw [fromDisk]
    rcases stable.kept with written | ⟨k, copies, _⟩
    · exact written
    · -- a pinned copy would have been found
      exact absurd ⟨copies.dev, copies.blockno⟩ (uncached real k copies.valid)

/-- A call after the indirect block has its entry reads it, and allocates nothing. -/
theorem bmapIndirect_returns {d : UInt32} (present : ip.addrs Inode.indirect ≠ 0) (nonzero : d ≠ 0)
    (got : Bread q ip.dev (ip.addrs Inode.indirect) s i u) (word : (u.cache.buf i).data.word j = d)
    (read : (Bio.bread ip.dev (ip.addrs Inode.indirect)).run (exec q) s = some (i, u)) :
    ∃ t, (bmapIndirect sb log ip j).run (exec q) s = some ((d, ip, log), t) := by
  obtain ⟨cache, released, bufs⟩ := run_brelse got.inv got.holds
  have maps : (mapAddr sb log ip Inode.indirect).run (exec q) s = some ((ip, log), s) := by
    rw [mapAddr, if_neg present]
    rfl
  have looks : (mapEntry sb log ip.dev i j).run (exec q) u = some (log, u) := by
    refine Program.run_bind_eq_some.mpr ⟨_, u, run_data i u, ?_⟩
    rw [if_neg (word ▸ nonzero)]
    rfl
  have same : (cache.buf i).data.word j = d := by
    rw [bufs]
    simpa using word
  refine ⟨{ u with cache, holds := s.holds }, ?_⟩
  refine Program.run_bind_eq_some.mpr ⟨_, s, maps, ?_⟩
  refine Program.run_bind_eq_some.mpr ⟨i, u, read, ?_⟩
  refine Program.run_bind_eq_some.mpr ⟨log, u, looks, ?_⟩
  refine Program.run_bind_eq_some.mpr ⟨(), _, released, ?_⟩
  refine Program.run_bind_eq_some.mpr ⟨_, _, run_data i _, ?_⟩
  rw [same]
  rfl

theorem bmapIndirect_reads {out : UInt32 × Inode × Log} (present : ip.addrs Inode.indirect ≠ 0)
    (ran : (bmapIndirect sb log ip j).run (exec q) s = some (out, t)) :
    ∃ i u, (Bio.bread ip.dev (ip.addrs Inode.indirect)).run (exec q) s = some (i, u) := by
  obtain ⟨_, _, maps, ran⟩ := Program.run_bind_eq_some.mp ran
  rw [mapAddr, if_neg present] at maps
  cases maps
  obtain ⟨i, u, read, _⟩ := Program.run_bind_eq_some.mp ran
  exact ⟨i, u, read⟩

/-- A block index past the direct ones, once mapped, keeps its disk block under every use
of the cache between two calls, if the first call finds its entry anchored. The later call
returns whenever the indirect block can be read. -/
theorem bmap_stable {later : Inode} {log₂ : Log} {d : UInt32} {acts : List (Act Pid)}
    (real : ip.dev ≠ 0) (faithful : Faithful s) (device : ∀ h ∈ s.holds, h.dev = ip.dev)
    (reserved : Reserved sb ip.dev s) (anchored : Anchored ip j s)
    (room : Uncrowded p (bmap sb log ip (indirectIndex j)) s)
    (first : (bmap sb log ip (indirectIndex j)).run (exec p) s = some ((d, ip', log'), t))
    (harmless : Meets step (Harmless ip.dev (ip'.addrs Inode.indirect) fun data => data.word j = d) acts t)
    (between : run step acts t = some u)
    (sameDev : later.dev = ip'.dev) (sameBlock : later.addrs Inode.indirect = ip'.addrs Inode.indirect) :
    (∀ out v, (bmap sb log₂ later (indirectIndex j)).run (exec q) u = some (out, v) → out.1 = d) ∧
      (((Bio.bread later.dev (later.addrs Inode.indirect)).run (exec q) u).isSome →
        ((bmap sb log₂ later (indirectIndex j)).run (exec q) u).isSome) := by
  rw [bmap_indirectIndex] at first room ⊢
  obtain ⟨dev, present, nonzero, stable⟩ := bmapIndirect_stable real faithful device reserved anchored room first
  have stable := stable_run stable real harmless between
  rw [← dev, ← sameDev, ← sameBlock] at stable
  have real : later.dev ≠ 0 := by rwa [sameDev, dev]
  have present : later.addrs Inode.indirect ≠ 0 := sameBlock ▸ present
  have returns {i : Fin nbuf} {x : State Pid}
      (read : (Bio.bread later.dev (later.addrs Inode.indirect)).run (exec q) u = some (i, x)) :
      ∃ v, (bmapIndirect sb log₂ later j).run (exec q) u = some ((d, later, log₂), v) := by
    have got := run_bread stable.faithful.inv read
    exact bmapIndirect_returns present nonzero got (bread_stable real stable got) read
  constructor
  · intro out v ran
    obtain ⟨i, x, read⟩ := bmapIndirect_reads present ran
    obtain ⟨w, same⟩ := returns read
    rw [ran] at same
    cases same
    rfl
  · intro readable
    obtain ⟨⟨i, x⟩, read⟩ := Option.isSome_iff_exists.mp readable
    obtain ⟨w, ran⟩ := returns read
    rw [ran]
    rfl

end

/-! ## One file system -/

/-- Process 2 reads `n` blocks that nobody else uses, each into the least recently used
buffer among those not pinned. -/
def unrelated (n : Nat) : List (Act Nat) := (List.range n).flatMap fun k =>
  let h : Hold Nat := ⟨2, Fin.ofNat nbuf (3 + k), 1, UInt32.ofNat (100 + k), .held⟩
  h.bread ++ h.brelse

theorem reserved_start : Reserved Mkfs.superblock 1 (start usedDisk : State Nat) := by
  constructor
  · exact ⟨by decide +kernel, fun i copies => absurd copies.valid (by simp [start, Bcache.binit])⟩
  · exact ⟨by decide +kernel, fun i copies => absurd copies.valid (by simp [start, Bcache.binit])⟩

def inodeWith (block : UInt32) : Inode := ⟨1, Function.update (fun _ => 0) Inode.indirect block⟩

-- `bmap` of block 12.
def mapFirst (log : Log) (ip : Inode) (s : State Nat) : Option ((UInt32 × Inode × Log) × State Nat) :=
  (bmap Mkfs.superblock log ip (indirectIndex 0)).run (exec 1) s

/-- The calls of `bmap` return `d` and `e` with `block` as the indirect block, when process 2
reads `n` blocks in between. -/
def Maps (ip : Inode) (block d : UInt32) (n : Nat) (e : UInt32) : Prop :=
  (mapFirst emptyLog ip (start usedDisk)).any (fun ((d', ip', log'), s) =>
    d' = d ∧ ip'.addrs Inode.indirect = block ∧
      Meets step (Harmless 1 block fun data => data.word 0 = d) (unrelated n) s ∧
      (run step (unrelated n) s).any (fun t => (mapFirst log' ip' t).any (fun ((e', _), _) => e' = e) = true) =
      true) = true

instance (ip : Inode) (block d : UInt32) (n : Nat) (e : UInt32) : Decidable (Maps ip block d n e) :=
  inferInstanceAs (Decidable (_ = _))

theorem Maps.calls {ip : Inode} {block d : UInt32} {n : Nat} {e : UInt32} (maps : Maps ip block d n e) :
    ∃ s t ip' log' out v, mapFirst emptyLog ip (start usedDisk) = some ((d, ip', log'), s) ∧
      ip'.addrs Inode.indirect = block ∧ Meets step (Harmless 1 block fun data => data.word 0 = d) (unrelated n) s ∧
      run step (unrelated n) s = some t ∧ mapFirst log' ip' t = some (out, v) ∧ out.1 = e := by
  obtain ⟨⟨⟨_, ip', log'⟩, s⟩, first, rest⟩ := (Option.any_eq_true _ _).mp maps
  obtain ⟨rfl, addr, harmless, rest⟩ := of_decide_eq_true rest
  obtain ⟨t, between, rest⟩ := (Option.any_eq_true _ _).mp rest
  obtain ⟨⟨out, v⟩, later, same⟩ := (Option.any_eq_true _ _).mp (of_decide_eq_true rest)
  exact ⟨s, t, ip', log', out, v, first, addr, harmless, between, later, of_decide_eq_true same⟩

/-- With a new indirect block, the reads recycle every buffer that is not pinned. -/
theorem bmap_stable_fresh : ∃ s t ip' log', mapFirst emptyLog (inodeWith 0) (start usedDisk) =
    some ((62, ip', log'), s) ∧
    run step (unrelated 27) s = some t ∧ (∀ out v, mapFirst log' ip' t = some (out, v) → out.1 = 62) := by
  have maps : Maps (inodeWith 0) 61 62 27 62 := by decide +kernel
  obtain ⟨s, t, ip', log', _, _, first, addr, harmless, between, _⟩ := maps.calls
  refine ⟨s, t, ip', log', first, between, ?_⟩
  have room : Uncrowded 1 (bmap Mkfs.superblock emptyLog (inodeWith 0) (indirectIndex 0)) (start usedDisk) := by
    decide +kernel
  exact (bmap_stable (by decide) (faithful_start usedDisk) nofun reserved_start
    (.inl (by simp [inodeWith])) room first
    (addr ▸ harmless) between rfl rfl).1

/-- With an indirect block allocated before, and not pinned, the reads recycle its buffer. -/
theorem bmap_unstable : ¬ ∀ (acts : List (Act Nat)) (d : UInt32) (ip' : Inode) (log' : Log) (s t v : State Nat)
    (out : UInt32 × Inode × Log), mapFirst emptyLog (inodeWith 60) (start usedDisk) = some ((d, ip', log'), s) →
    Meets step (Harmless 1 (ip'.addrs Inode.indirect) fun data => data.word 0 = d) acts s → run step acts s = some t →
    mapFirst log' ip' t = some (out, v) → out.1 = d := by
  intro stays
  have maps : Maps (inodeWith 60) 60 61 28 62 := by decide +kernel
  obtain ⟨s, t, ip', log', out, v, first, addr, harmless, between, later, other⟩ := maps.calls
  have same := stays _ _ _ _ _ _ _ _ first (addr ▸ harmless) between later
  rw [other] at same
  exact absurd same (by decide)

end Xv6.Fs
