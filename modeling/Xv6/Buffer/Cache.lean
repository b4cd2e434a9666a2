import Xv6.Disk.Format
import Xv6.List.Operations

/-! The buffer cache of `kern/bio.c`: its data and the critical sections under `bcache.lock`.

The disk is addressed by block number within the partition; `b->part` is the
same constant for every buffer. A sleep lock is its holder's pid while it is
held: `locked` and `pid` are always set and cleared together.
-/

set_option autoImplicit false

namespace Xv6

open Library

/-- The nodes threaded by `clist`: the list head and the entries of `bcache.buf`. -/
inductive Node where
  | head
  | buf (i : Fin nbuf)
  deriving DecidableEq

def Node.test (accept : Fin nbuf → Bool) : Node → Bool
  | .head => false
  | .buf i => accept i

theorem Node.find_map_buf (accept : Fin nbuf → Bool) (xs : List (Fin nbuf)) :
    (xs.map Node.buf).find? (Node.test accept) = (xs.find? accept).map Node.buf := by
  rw [List.find?_map]
  rfl

variable {Pid : Type}

structure Buf (Pid : Type) where
  /-- `B_VALID` in `flags` -/
  valid : Bool
  /-- `B_DIRTY` in `flags` -/
  dirty : Bool
  dev : UInt32
  blockno : UInt32
  refcnt : UInt32
  data : Block
  lock : Option Pid

structure Bcache (Pid : Type) where
  buf : Fin nbuf → Buf Pid
  links : Links Node

namespace Bcache

-- The list after `list_init(&bcache.head.clist)`, all other pointers being null.
def emptyLinks : Links Node := listInit ⟨fun _ => none, fun _ => none⟩ .head

def pushAll (l : Links Node) (order : List (Fin nbuf)) : Option (Links Node) :=
  order.foldlM (fun l i => listPushFront l .head (.buf i)) l

-- `binit`, on a zeroed BSS: every entry is pushed on the front of an empty list.
def binit : Bcache Pid where
  buf _ := ⟨false, false, 0, 0, 0, Block.zero, none⟩
  links := (pushAll emptyLinks (List.finRange nbuf)).getD emptyLinks

def modify (c : Bcache Pid) (i : Fin nbuf) (f : Buf Pid → Buf Pid) : Bcache Pid :=
  { c with buf := Function.update c.buf i (f (c.buf i)) }

theorem modify_buf (c : Bcache Pid) (i j : Fin nbuf) (f : Buf Pid → Buf Pid) :
    (c.modify i f).buf j = if j = i then f (c.buf i) else c.buf j := Function.update_apply ..

@[simp] theorem modify_buf_self (c : Bcache Pid) (i : Fin nbuf) (f : Buf Pid → Buf Pid) :
    (c.modify i f).buf i = f (c.buf i) := Function.update_self ..

@[simp] theorem modify_links (c : Bcache Pid) (i : Fin nbuf) (f : Buf Pid → Buf Pid) :
    (c.modify i f).links = c.links := rfl

theorem modify_modify (c : Bcache Pid) (i : Fin nbuf) (f g : Buf Pid → Buf Pid) :
    (c.modify i f).modify i g = c.modify i (fun b => g (f b)) := by
  simp [modify]

theorem modify_eq_self {c : Bcache Pid} {i : Fin nbuf} {f : Buf Pid → Buf Pid} (same : f (c.buf i) = c.buf i) :
    c.modify i f = c := by
  simp [modify, same]

def caches (c : Bcache Pid) (dev blockno : UInt32) (i : Fin nbuf) : Bool :=
  (c.buf i).dev = dev && (c.buf i).blockno = blockno

def unreferenced (c : Bcache Pid) (i : Fin nbuf) : Bool := (c.buf i).refcnt = 0

def addref (b : Buf Pid) : Buf Pid := { b with refcnt := b.refcnt + 1 }

def recycle (dev blockno : UInt32) (b : Buf Pid) : Buf Pid :=
  { b with valid := false, dirty := false, refcnt := 1, dev, blockno }

/-- The part of `bget` under `bcache.lock`: the entry it is going to lock. `none`
is the panic "No such buffer!". -/
def bget (c : Bcache Pid) (dev blockno : UInt32) : Option (Fin nbuf × Bcache Pid) := do
  let first ← c.links.next .head
  -- is the block cached already?
  match ← c.links.scan .head (Node.test (c.caches dev blockno)) (nbuf + 1) first with
  | some (.buf i) => some (i, c.modify i addref)
  | _ =>
    -- not cached: recycle the least recently used entry without references
    let last ← c.links.prev .head
    match ← c.links.swap.scan .head (Node.test c.unreferenced) (nbuf + 1) last with
    | some (.buf i) => some (i, c.modify i (recycle dev blockno))
    | _ => none

-- The part of `brelse` under `bcache.lock`.
def unref (c : Bcache Pid) (i : Fin nbuf) : Option (Bcache Pid) :=
  let c := c.modify i fun b => { b with refcnt := b.refcnt - 1 }
  if (c.buf i).refcnt = 0 then do
    let links ← listDelete c.links (.buf i)
    let links ← listPushFront links .head (.buf i)
    some { c with links }
  else some c

-- `sdrw`: a dirty entry is written to the disk, any other one is read from it.
def sdrw (c : Bcache Pid) (disk : UInt32 → Block) (i : Fin nbuf) : Bcache Pid × (UInt32 → Block) :=
  let b := c.buf i
  if b.dirty then
    (c.modify i fun b => { b with valid := true, dirty := false }, Function.update disk b.blockno b.data)
  else
    (c.modify i fun b => { b with valid := true, dirty := false, data := disk b.blockno }, disk)

theorem sdrw_of_clean {c : Bcache Pid} {i : Fin nbuf} (clean : (c.buf i).dirty = false)
    (disk : UInt32 → Block) :
    c.sdrw disk i =
      (c.modify i fun b => { b with valid := true, dirty := false, data := disk b.blockno }, disk) := by
  simp [sdrw, clean]

theorem sdrw_of_dirty {c : Bcache Pid} {i : Fin nbuf} (dirty : (c.buf i).dirty = true)
    (disk : UInt32 → Block) :
    c.sdrw disk i = (c.modify i fun b => { b with valid := true, dirty := false },
      Function.update disk (c.buf i).blockno (c.buf i).data) := by
  simp [sdrw, dirty]

/-! ## The list of entries -/

structure Ordered (c : Bcache Pid) (xs : List (Fin nbuf)) : Prop where
  ring : Ring c.links .head (xs.map Node.buf)
  full : ∀ i, i ∈ xs

namespace Ordered

variable {c : Bcache Pid} {xs : List (Fin nbuf)}

theorem nodup (ordered : c.Ordered xs) : xs.Nodup := ordered.ring.nodup.of_map _

theorem length (ordered : c.Ordered xs) : xs.length = nbuf := by
  have perm : xs.Perm (List.finRange nbuf) :=
    (List.perm_ext_iff_of_nodup ordered.nodup (List.nodup_finRange _)).mpr
      fun i => by simp [ordered.full i]
  simpa using perm.length_eq

theorem of_links {d : Bcache Pid} (ordered : c.Ordered xs) (same : d.links = c.links) : d.Ordered xs :=
  ⟨same ▸ ordered.ring, ordered.full⟩

theorem ring_pushAll {l : Links Node} {xs order : List (Fin nbuf)} (ring : Ring l .head (xs.map Node.buf))
    (fresh : (order ++ xs).Nodup) :
    ∃ m, pushAll l order = some m ∧ Ring m .head ((order.reverse ++ xs).map Node.buf) := by
  induction order generalizing l xs with
  | nil => exact ⟨l, rfl, ring⟩
  | cons i rest ih =>
    simp only [List.cons_append, List.nodup_cons, List.mem_append, not_or] at fresh
    obtain ⟨⟨notLater, notIn⟩, distinct⟩ := fresh
    have absent : Node.buf i ∉ Node.head :: xs.map Node.buf := by simpa using notIn
    obtain ⟨m, pushed, longer⟩ := ring_listPushFront ring absent
    rw [← List.map_cons] at longer
    obtain ⟨k, finished, final⟩ := ih longer (List.nodup_middle.mpr (List.nodup_cons.mpr
      ⟨by simp [notLater, notIn], distinct⟩))
    refine ⟨k, ?_, by simpa using final⟩
    simp only [pushAll, List.foldlM_cons, pushed, Option.bind_eq_bind, Option.bind_some]
    exact finished

-- The loop of `binit` meets no null pointer and lists every entry once.
theorem binit : (binit : Bcache Pid).Ordered (List.finRange nbuf).reverse := by
  have start : Ring emptyLinks .head (([] : List (Fin nbuf)).map Node.buf) := ring_listInit _ _
  obtain ⟨m, pushed, ring⟩ := ring_pushAll start (by simpa using List.nodup_finRange nbuf)
  refine ⟨?_, fun i => by simp⟩
  rw [List.append_nil] at ring
  simpa only [Bcache.binit, pushed, Option.getD_some] using ring

theorem unref_last {before after : List (Fin nbuf)} {i : Fin nbuf} (ordered : c.Ordered (before ++ i :: after))
    (last : (c.buf i).refcnt - 1 = 0) :
    ∃ d, c.unref i = some d ∧ d.Ordered (i :: (before ++ after)) ∧
      d.buf = (c.modify i fun b => { b with refcnt := b.refcnt - 1 }).buf := by
  -- `list_delete` and `list_push_front`, on the list split at the entry
  have ring := ordered.ring
  rw [List.map_append, List.map_cons] at ring
  obtain ⟨l, deleted, shorter⟩ := ring_listDelete ring
  rw [← List.map_append] at shorter
  have absent : Node.buf i ∉ Node.head :: (before ++ after).map Node.buf := by
    have distinct := ordered.nodup
    simpa using (List.nodup_cons.mp (List.nodup_middle.mp distinct)).1
  obtain ⟨m, pushed, full⟩ := ring_listPushFront shorter absent
  rw [← List.map_cons] at full
  refine ⟨{ c.modify i fun b => { b with refcnt := b.refcnt - 1 } with links := m }, ?_, ⟨full, ?_⟩, rfl⟩
  · simp [Bcache.unref, last, deleted, pushed]
  · intro j
    have member := ordered.full j
    simpa [or_left_comm] using member

theorem unref_shared {i : Fin nbuf} (shared : (c.buf i).refcnt - 1 ≠ 0) :
    c.unref i = some (c.modify i fun b => { b with refcnt := b.refcnt - 1 }) := by
  simp [Bcache.unref, shared]

/-- Dropping a reference; the last one moves the entry to the most recently used end. -/
theorem unref (ordered : c.Ordered xs) (i : Fin nbuf) :
    ∃ d ys, c.unref i = some d ∧ d.Ordered ys ∧
      d.buf = (c.modify i fun b => { b with refcnt := b.refcnt - 1 }).buf ∧
      ((d.buf i).refcnt = 0 → ys.head? = some i) := by
  by_cases last : (c.buf i).refcnt - 1 = 0
  · obtain ⟨before, after, rfl⟩ := List.append_of_mem (ordered.full i)
    obtain ⟨d, dropped, reordered, same⟩ := unref_last ordered last
    exact ⟨d, _, dropped, reordered, same, fun _ => rfl⟩
  · refine ⟨c.modify i fun b => { b with refcnt := b.refcnt - 1 }, xs, unref_shared last, ordered.of_links rfl, rfl,
      fun zero => absurd (by simpa using zero) last⟩

/-- `bget` takes the most recently used entry that caches the block, or recycles
the least recently used entry without references. -/
theorem bget_eq (ordered : c.Ordered xs) (dev blockno : UInt32) :
    c.bget dev blockno =
      match xs.find? (c.caches dev blockno) with
      | some i => some (i, c.modify i addref)
      | none =>
        match xs.reverse.find? c.unreferenced with
        | some i => some (i, c.modify i (recycle dev blockno))
        | none => none := by
  have enough : (xs.map Node.buf).length < nbuf + 1 := by
    rw [List.length_map, ordered.length]
    exact Nat.lt_succ_self _
  obtain ⟨first, atFirst, found⟩ := Option.bind_eq_some_iff.mp
    (ordered.ring.scan_next (Node.test (c.caches dev blockno)) enough)
  obtain ⟨last, atLast, spare⟩ := Option.bind_eq_some_iff.mp
    (ordered.ring.scan_prev (Node.test c.unreferenced) enough)
  rw [Node.find_map_buf] at found
  rw [← List.map_reverse, Node.find_map_buf] at spare
  simp only [bget, atFirst, atLast, found, spare, Option.bind_eq_bind, Option.bind_some]
  cases xs.find? (c.caches dev blockno) with
  | some i => rfl
  | none => cases xs.reverse.find? c.unreferenced <;> rfl

/-- `bget` counts a use of the entry that caches the block, or recycles an entry
without references when there is none. -/
theorem bget_cases (ordered : c.Ordered xs) {dev blockno : UInt32} {i : Fin nbuf} {d : Bcache Pid}
    (found : c.bget dev blockno = some (i, d)) :
    ((c.buf i).dev = dev ∧ (c.buf i).blockno = blockno ∧ d = c.modify i addref) ∨
      ((∀ j, ¬ ((c.buf j).dev = dev ∧ (c.buf j).blockno = blockno)) ∧ (c.buf i).refcnt = 0 ∧
        d = c.modify i (recycle dev blockno)) := by
  rw [ordered.bget_eq] at found
  cases hit : xs.find? (c.caches dev blockno) with
  | some j =>
    rw [hit] at found
    obtain ⟨rfl, rfl⟩ := Prod.mk.inj (Option.some.inj found)
    have cached : (c.buf j).dev = dev ∧ (c.buf j).blockno = blockno := by
      simpa [caches] using List.find?_some hit
    exact .inl ⟨cached.1, cached.2, rfl⟩
  | none =>
    rw [hit] at found
    cases spare : xs.reverse.find? c.unreferenced with
    | none => simp [spare] at found
    | some j =>
      rw [spare] at found
      obtain ⟨rfl, rfl⟩ := Prod.mk.inj (Option.some.inj found)
      refine .inr ⟨?_, by simpa [unreferenced] using List.find?_some spare, rfl⟩
      -- the walk forward met every entry, so none caches the block yet
      intro k
      simpa [caches] using List.find?_eq_none.mp hit k (ordered.full k)

end Ordered

end Bcache

end Xv6
