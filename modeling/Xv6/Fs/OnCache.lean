import Xv6.Buffer.Requests
import Xv6.Buffer.Stability
import Xv6.Fs.Operations

/-! The block allocator on the buffer cache.

`balloc` gives back the buffers it got, and passes every buffer it modified to
`log_write`. The buffer of the block it returns stays pinned.
-/

set_option autoImplicit false

namespace Xv6.Fs

open Library Buffer

variable {Pid : Type} {p : Pid} {dev blockno : UInt32} {data : Block} {s t u v : State Pid} {i : Fin nbuf}

/-! ## Giving back what was got -/

/-- Between `s` and `t` a program gave back every buffer it got, dropped no pin, wrote
nothing to the disk and left the buffers alone that were locked. -/
structure After (s t : State Pid) : Prop where
  faithful : Faithful t
  holds : t.holds = s.holds
  disk : t.disk = s.disk
  pins : ∀ i, s.pins i ≤ t.pins i
  locked : ∀ i, (s.cache.buf i).lock ≠ none → t.cache.buf i = s.cache.buf i

theorem After.trans (first : After s u) (second : After u t) : After s t where
  faithful := second.faithful
  holds := second.holds.trans first.holds
  disk := second.disk.trans first.disk
  pins i := (first.pins i).trans (second.pins i)
  locked i taken := by
    have same := first.locked i taken
    rw [second.locked i (same ▸ taken), same]

/-- Between `s` and `t` a program used buffer `i` for a block and left `data` in it. -/
structure Returned (dev blockno : UInt32) (data : Block) (s : State Pid) (i : Fin nbuf) (t : State Pid) : Prop where
  after : After s t
  copies : Copies dev blockno (t.cache.buf i)
  data : (t.cache.buf i).data = data
  others : ∀ j, j ≠ i → t.cache.buf j = s.cache.buf j

/-- What every copy of a block satisfies, it still satisfies unless that block was given other contents. -/
theorem Returned.everywhere {b : UInt32} {P : Block → Prop} (returned : Returned dev blockno data s i t)
    (keeps : blockno = b → P data) (all : Everywhere dev b P s) : Everywhere dev b P t where
  disk := returned.after.disk ▸ all.disk
  cached j copies := by
    by_cases here : j = i
    · subst here
      exact returned.data ▸ keeps (returned.copies.blockno.symm.trans copies.blockno)
    · rw [returned.others j here] at copies ⊢
      exact all.cached j copies

/-- A state with the same uses and blocks in the buffers, or fewer uses, is faithful too. -/
theorem faithful_of_kept (faithful : Faithful s) (inv : Inv t) (pinned : ∀ i, 0 ≤ t.pins i)
    (holds : ∀ h ∈ t.holds, h ∈ s.holds) (kept : ∀ i, Kept (s.cache.buf i) (t.cache.buf i)) : Faithful t where
  inv := inv
  pinned := pinned
  serves h member := by
    have serves := faithful.serves h (holds h member)
    have same := kept h.buf
    exact ⟨same.dev.trans serves.dev, same.blockno.trans serves.blockno, fun held => same.valid (serves.valid held)⟩

theorem faithful_bread (faithful : Faithful s) (bounded : Bounded s) (got : Bread p dev blockno s i t) :
    Faithful t where
  inv := got.inv
  pinned j := got.pins ▸ faithful.pinned j
  serves h member := by
    rw [got.holds] at member
    rcases List.mem_cons.mp member with rfl | old
    · exact ⟨got.sameDev, got.sameBlock, fun _ => got.valid⟩
    · have serves := faithful.serves h old
      by_cases here : h.buf = i
      · -- somebody uses the buffer already, so it was not recycled
        have referenced := faithful.refcnt_ne_zero bounded old
        rw [here] at referenced
        obtain ⟨cachedDev, cachedBlock⟩ := got.origin.resolve_right referenced
        have dev := serves.dev
        have blockno := serves.blockno
        rw [here] at dev blockno
        refine ⟨?_, ?_, fun _ => here ▸ got.valid⟩
        · rw [here, got.sameDev, ← dev, cachedDev]
        · rw [here, got.sameBlock, ← blockno, cachedBlock]
      · have same := got.others h.buf here
        exact ⟨same ▸ serves.dev, same ▸ serves.blockno, same ▸ serves.valid⟩

theorem bread_cached {j : Fin nbuf} (real : dev ≠ 0) (got : Bread p dev blockno s i t)
    (sameDev : (s.cache.buf j).dev = dev) (sameBlock : (s.cache.buf j).blockno = blockno) : j = i := by
  -- otherwise two entries would cache it
  by_contra other
  have same := got.others j other
  refine other (got.inv.unique j i ?_ ?_ ?_)
  · rw [same, sameDev]
    exact real
  · rw [same, sameDev, got.sameDev]
  · rw [same, sameBlock, got.sameBlock]

theorem bread_copies (got : Bread p dev blockno s i t) : Copies dev blockno (t.cache.buf i) :=
  ⟨got.valid, got.sameDev, got.sameBlock⟩

/-- What every copy of a block satisfies is satisfied by what `bread` returns. -/
theorem bread_everywhere {P : Block → Prop} (got : Bread p dev blockno s i t) (all : Everywhere dev blockno P s) :
    P (t.cache.buf i).data := by
  rcases got.data with ⟨sameDev, sameBlock, valid, same⟩ | ⟨fromDisk, _⟩
  · rw [same]
    exact all.cached i ⟨valid, sameDev, sameBlock⟩
  · rw [fromDisk]
    exact all.disk

theorem everywhere_bread {b : UInt32} {P : Block → Prop} (got : Bread p dev blockno s i t)
    (all : Everywhere dev b P s) :
    Everywhere dev b P t where
  disk := got.disk ▸ all.disk
  cached j copies := by
    by_cases here : j = i
    · subst here
      obtain rfl : blockno = b := got.sameBlock.symm.trans copies.blockno
      exact bread_everywhere got all
    · rw [got.others j here] at copies ⊢
      exact all.cached j copies

/-! ## Using one buffer -/

section
variable [DecidableEq Pid] {rest : List (Hold Pid)} {log log' : Log}

theorem setData_faithful {data : Block} (faithful : Faithful s)
    (newest : s.holds = ⟨p, i, dev, blockno, .held⟩ :: rest)
    (ran : (Bio.setData i data).run (exec p) s = some ((), t)) :
    Faithful t ∧ t = { s with cache := s.cache.modify i fun b => { b with data } } := by
  have inv := Program.run_invariant inv_exec faithful.inv ran
  rw [run_setData newest] at ran
  cases ran
  refine ⟨faithful_of_kept faithful inv faithful.pinned (fun _ => id) (Kept.of_modify rfl ?_), rfl⟩
  exact fun _ => ⟨rfl, rfl, id⟩

theorem run_logWrite (ran : (log.logWrite i).run (exec p) s = some (log', t)) : step (.bpin i) s = some t := by
  obtain ⟨b, _, named, ran₁⟩ := Program.run_bind_eq_some.mp ran
  cases named
  obtain ⟨lh, _, recorded, ran₂⟩ := Program.run_bind_eq_some.mp ran₁
  obtain ⟨-, rfl⟩ := (Log.run_inBounds fun _ => rfl).mp recorded
  obtain ⟨_, _, pinned, done⟩ := Program.run_bind_eq_some.mp ran₂
  cases done
  cases pinned
  rfl

theorem brelse_faithful (faithful : Faithful s) (newest : s.holds = ⟨p, i, dev, blockno, .held⟩ :: rest) :
    ∃ cache, (Bio.brelse i).run (exec p) s = some ((), { s with cache, holds := rest }) ∧
      Faithful { s with cache, holds := rest } ∧
      cache.buf = (s.cache.modify i fun b => { b with lock := none, refcnt := b.refcnt - 1 }).buf := by
  obtain ⟨cache, released, bufs⟩ := run_brelse faithful.inv newest
  have inv := Program.run_invariant inv_exec faithful.inv released
  refine ⟨cache, released, ?_, bufs⟩
  refine faithful_of_kept faithful inv faithful.pinned ?_ (Kept.of_modify bufs ?_)
  · intro h member
    rw [newest]
    exact List.mem_cons_of_mem _ member
  · exact fun _ => ⟨rfl, rfl, id⟩

theorem returned_bread (faithful : Faithful u) (got : Bread p dev blockno s i u)
    (ran : (Bio.brelse i).run (exec p) u = some ((), t)) : Returned dev blockno (u.cache.buf i).data s i t := by
  obtain ⟨cache, released, faithful, bufs⟩ := brelse_faithful faithful got.holds
  rw [released] at ran
  cases ran
  have others (j : Fin nbuf) (other : j ≠ i) : cache.buf j = s.cache.buf j := by
    rw [bufs, Bcache.modify_buf, if_neg other, got.others j other]
  refine ⟨⟨faithful, rfl, got.disk, fun j => le_of_eq (congrFun got.pins j).symm, ?_⟩, ?_, ?_, others⟩
  · exact fun j taken => others j fun same => taken (same ▸ got.unlocked)
  · change Copies dev blockno (cache.buf i)
    rw [bufs, Bcache.modify_buf_self]
    exact ⟨got.valid, got.sameDev, got.sameBlock⟩
  · change (cache.buf i).data = _
    rw [bufs, Bcache.modify_buf_self]

theorem returned_logged {x y : State Pid} (faithful : Faithful u) (got : Bread p dev blockno s i u)
    (wrote : (Bio.setData i data).run (exec p) u = some ((), x))
    (logged : (log.logWrite i).run (exec p) x = some (log', y))
    (ran : (Bio.brelse i).run (exec p) y = some ((), t)) :
    Returned dev blockno data s i t ∧ 0 < t.pins i := by
  obtain ⟨faithful₁, rfl⟩ := setData_faithful faithful got.holds wrote
  have pinned := run_logWrite logged
  have inv := inv_bpin faithful₁.inv pinned
  cases Option.some.inj pinned
  have pins (j : Fin nbuf) : u.pins j ≤ Function.update u.pins i (u.pins i + 1) j := by
    rw [Function.update_apply]
    split
    · next same => subst same; omega
    · exact le_rfl
  have faithful₂ : Faithful _ := faithful_of_kept faithful₁ inv (fun j => (faithful.pinned j).trans (pins j))
    (fun _ => id) (Kept.of_modify rfl fun _ => ⟨rfl, rfl, id⟩)
  obtain ⟨cache, released, faithful₃, bufs⟩ := brelse_faithful faithful₂ got.holds
  rw [released] at ran
  cases ran
  have others (j : Fin nbuf) (other : j ≠ i) : cache.buf j = s.cache.buf j := by
    rw [bufs]
    simp [Bcache.modify_buf, other, got.others j other]
  refine ⟨⟨⟨faithful₃, rfl, got.disk, ?_, ?_⟩, ?_, ?_, others⟩, ?_⟩
  · exact fun j => (le_of_eq (congrFun got.pins j).symm).trans (pins j)
  · exact fun j taken => others j fun same => taken (same ▸ got.unlocked)
  · change Copies dev blockno (cache.buf i)
    rw [bufs]
    simpa using ⟨got.valid, got.sameDev, got.sameBlock⟩
  · change (cache.buf i).data = _
    rw [bufs]
    simp
  · have before := faithful.pinned i
    simp
    omega

/-! ## Allocating a block -/

/-- No buffer has `2 ^ 32` uses while the program runs. -/
def Uncrowded {A : Type} (p : Pid) (program : Program (Bio (Fin nbuf)) A) (s : State Pid) : Prop :=
  program.Along (exec p) (fun _ s => Bounded s) s

instance {A : Type} (program : Program (Bio (Fin nbuf)) A) (s : State Pid) : Decidable (Uncrowded p program s) :=
  Program.Along.decide _ program s

theorem Uncrowded.first {A B : Type} {program : Program (Bio (Fin nbuf)) A} {next : A → Program (Bio (Fin nbuf)) B}
    (room : Uncrowded p (program >>= next) s) : Uncrowded p program s := (Program.along_bind.mp room).1

theorem Uncrowded.next {A B : Type} {program : Program (Bio (Fin nbuf)) A} {next : A → Program (Bio (Fin nbuf)) B}
    {a : A} (room : Uncrowded p (program >>= next) s) (ran : program.run (exec p) s = some (a, t)) :
    Uncrowded p (next a) t := (Program.along_bind.mp room).2 a t ran

theorem Uncrowded.bounded (room : Uncrowded p (Bio.bread dev blockno) s) : Bounded s := Program.along_request.mp room

theorem bzero_returned (faithful : Faithful s) (room : Uncrowded p (bzero log dev blockno) s)
    (ran : (bzero log dev blockno).run (exec p) s = some (log', t)) :
    ∃ i, Returned dev blockno Block.zero s i t ∧ 0 < t.pins i := by
  have bounded := room.first.bounded
  obtain ⟨i, u, read, ran₁⟩ := Program.run_bind_eq_some.mp ran
  obtain ⟨_, x, wrote, ran₂⟩ := Program.run_bind_eq_some.mp ran₁
  obtain ⟨_, y, logged, ran₃⟩ := Program.run_bind_eq_some.mp ran₂
  obtain ⟨_, _, released, done⟩ := Program.run_bind_eq_some.mp ran₃
  cases done
  have got := run_bread faithful.inv read
  exact ⟨i, returned_logged (faithful_bread faithful bounded got) got wrote logged released⟩

/-- What `balloc` has done when it returns block `r`: it has marked a bit that was clear
in the bitmap block of `r`, and zeroed `r`. -/
structure Allocated (sb : Superblock) (dev : UInt32) (s : State Pid) (r : UInt32) (t : State Pid) : Prop where
  after : After s t
  unmarked : ∀ b, Everywhere dev (bblock b sb) (fun data => data.bit (bitIndex b) = true) s → r ≠ b
  everywhere : ∀ b P, (∀ data j, P data → P (data.setBit j)) → r ≠ b → Everywhere dev b P s → Everywhere dev b P t
  zeroed : ∃ i, Copies dev r (t.cache.buf i) ∧ (t.cache.buf i).data = Block.zero ∧ 0 < t.pins i

theorem ballocFrom_allocated {sb : Superblock} {turns : Nat} {i r : UInt32} (aligned : i.toNat % bpb = 0)
    (faithful : Faithful s) (room : Uncrowded p (ballocFrom sb log dev turns i) s)
    (ran : (ballocFrom sb log dev turns i).run (exec p) s = some ((r, log'), t)) : Allocated sb dev s r t := by
  -- a turn that finds no clear bit leaves every copy of every block as it was
  induction turns generalizing i s with
  | zero => cases ran
  | succ turns ih =>
    have bounded := room.first.bounded
    obtain ⟨x, u, read, ran⟩ := Program.run_bind_eq_some.mp ran
    have room := room.next read
    have got := run_bread faithful.inv read
    have faithful₁ := faithful_bread faithful bounded got
    obtain ⟨data, w, loaded, ran⟩ := Program.run_bind_eq_some.mp ran
    have room := room.next loaded
    obtain ⟨rfl, rfl⟩ := Prod.mk.inj (Option.some.inj ((run_data x u).symm.trans loaded))
    cases free : (u.cache.buf x).data.firstFree with
    | none =>
      rw [free] at ran room
      obtain ⟨_, v, released, ran⟩ := Program.run_bind_eq_some.mp ran
      have returned := returned_bread faithful₁ got released
      -- the turn only read the bitmap block
      have still (b : UInt32) (P : Block → Prop) (all : Everywhere dev b P s) : Everywhere dev b P v :=
        returned.everywhere (fun same => bread_everywhere got (same ▸ all)) all
      have next : (i + UInt32.ofNat bpb).toNat % bpb = 0 := by
        have starts : i.toNat % 4096 = 0 := aligned
        rw [UInt32.toNat_add]
        change (i.toNat + 4096) % 2 ^ 32 % 4096 = 0
        omega
      have later := ih next returned.after.faithful (room.next released) ran
      refine ⟨returned.after.trans later.after, fun b all => later.unmarked b (still _ _ all), ?_, later.zeroed⟩
      exact fun b P mono other all => later.everywhere b P mono other (still _ _ all)
    | some j =>
      rw [free] at ran room
      obtain ⟨_, w, wrote, ran⟩ := Program.run_bind_eq_some.mp ran
      have room := room.next wrote
      obtain ⟨_, y, logged, ran⟩ := Program.run_bind_eq_some.mp ran
      have room := room.next logged
      obtain ⟨_, v, released, ran⟩ := Program.run_bind_eq_some.mp ran
      have room := room.next released
      obtain ⟨_, _, zeroed, done⟩ := Program.run_bind_eq_some.mp ran
      cases done
      obtain ⟨marked, _⟩ := returned_logged faithful₁ got wrote logged released
      obtain ⟨z, returned, pinned⟩ := bzero_returned marked.after.faithful room.first zeroed
      obtain ⟨sameBlock, index⟩ := bblock_add sb aligned j
      refine ⟨marked.after.trans returned.after, ?_, ?_, ⟨z, returned.copies, returned.data, pinned⟩⟩
      · -- the bit that was set cannot have been marked in the copy that was read
        rintro b all rfl
        rw [sameBlock, index] at all
        have set := bread_everywhere got all
        have clear := Block.firstFree_clear free
        simp [clear] at set
      · intro b P mono other all
        refine returned.everywhere (fun same => absurd same other) (marked.everywhere (fun same => ?_) all)
        exact mono _ j (bread_everywhere got (same ▸ all))

theorem balloc_allocated {sb : Superblock} {r : UInt32} (faithful : Faithful s)
    (room : Uncrowded p (balloc sb log dev) s)
    (ran : (balloc sb log dev).run (exec p) s = some ((r, log'), t)) : Allocated sb dev s r t :=
  ballocFrom_allocated rfl faithful room ran

end

end Xv6.Fs
