import Xv6.Buffer.Interleaving

/-! The invariant of the buffer cache under every interleaving.

An entry's reference count is its holders plus its pins, its sleep lock is taken
exactly while one hold owns it, and no entry stays dirty. A step concerns one
entry, so each case only has to look at that entry.
-/

set_option autoImplicit false

namespace Xv6.Buffer

open Library

variable {Pid : Type}

def holders (holds : List (Hold Pid)) (i : Fin nbuf) : Nat := holds.countP fun h => h.buf = i

-- A hold between the return of `acquiresleep` and `releasesleep`.
def Hold.Owns (h : Hold Pid) : Prop := h.phase = .filling ∨ h.phase = .held

instance (h : Hold Pid) : Decidable h.Owns := inferInstanceAs (Decidable (_ ∨ _))

def owners (holds : List (Hold Pid)) (i : Fin nbuf) : Nat :=
  holds.countP fun h => h.buf = i ∧ h.Owns

/-- The counters and the lock of one entry agree with the processes that use it. -/
structure EntryInv (s : State Pid) (i : Fin nbuf) : Prop where
  counted : ((s.cache.buf i).refcnt.toNat : Int) = (holders s.holds i + s.pins i) % 2 ^ 32
  owned : owners s.holds i = if (s.cache.buf i).lock = none then 0 else 1
  owner : ∀ h ∈ s.holds, h.buf = i → h.Owns → (s.cache.buf i).lock = some h.pid
  clean : (s.cache.buf i).dirty = false

/-- What every interleaving keeps, whatever the callers do. -/
structure Inv (s : State Pid) : Prop where
  ordered : ∃ xs, s.cache.Ordered xs
  unique : ∀ i j, (s.cache.buf i).dev ≠ 0 → (s.cache.buf i).dev = (s.cache.buf j).dev →
    (s.cache.buf i).blockno = (s.cache.buf j).blockno → i = j
  entry : ∀ i, EntryInv s i

theorem holders_cons (holds : List (Hold Pid)) (k : Hold Pid) (i : Fin nbuf) :
    holders (k :: holds) i = holders holds i + if k.buf = i then 1 else 0 := by
  simp [holders, List.countP_cons]

theorem owners_cons (holds : List (Hold Pid)) (k : Hold Pid) (i : Fin nbuf) :
    owners (k :: holds) i = owners holds i + if k.buf = i ∧ k.Owns then 1 else 0 := by
  simp [owners, List.countP_cons]

theorem owners_pos {holds : List (Hold Pid)} {h : Hold Pid} (member : h ∈ holds) (owns : h.Owns) :
    0 < owners holds h.buf :=
  List.countP_pos_iff.mpr ⟨h, member, by simp [owns]⟩

theorem inv_start (disk : UInt32 → Block) : Inv (start disk : State Pid) where
  ordered := ⟨_, Bcache.Ordered.binit⟩
  unique i j nonzero := absurd rfl nonzero
  entry i := by
    constructor
    · rfl
    · rfl
    · intro h member
      cases member
    · rfl

structure Local (s t : State Pid) (i : Fin nbuf) : Prop where
  buf : ∀ j, j ≠ i → t.cache.buf j = s.cache.buf j
  holders : ∀ j, j ≠ i → holders t.holds j = holders s.holds j
  owners : ∀ j, j ≠ i → owners t.holds j = owners s.holds j
  pins : ∀ j, j ≠ i → t.pins j = s.pins j
  holds : ∀ h ∈ t.holds, h.buf ≠ i → h ∈ s.holds

theorem Local.entry {s t : State Pid} {i j : Fin nbuf} (same : Local s t i) (ne : j ≠ i)
    (inv : EntryInv s j) : EntryInv t j where
  counted := by
    rw [same.buf j ne, same.holders j ne, same.pins j ne]
    exact inv.counted
  owned := by
    rw [same.buf j ne, same.owners j ne]
    exact inv.owned
  owner h member at_j owns := by
    rw [same.buf j ne]
    exact inv.owner h (same.holds h member (at_j ▸ ne)) at_j owns
  clean := by
    rw [same.buf j ne]
    exact inv.clean

-- A step that concerns one entry keeps the invariant if it keeps it there.
theorem Local.inv {s t : State Pid} {i : Fin nbuf} (same : Local s t i) (inv : Inv s)
    (ordered : ∃ xs, t.cache.Ordered xs)
    (fresh : (t.cache.buf i).dev = (s.cache.buf i).dev ∧ (t.cache.buf i).blockno = (s.cache.buf i).blockno ∨
      ∀ j, j ≠ i → ¬ ((s.cache.buf j).dev = (t.cache.buf i).dev ∧
        (s.cache.buf j).blockno = (t.cache.buf i).blockno))
    (entry : EntryInv t i) : Inv t where
  ordered := ordered
  unique j k nonzero dev blockno := by
    -- only the entry that changed can have become a duplicate
    by_cases left : j = i <;> by_cases right : k = i
    · rw [left, right]
    · rw [left, same.buf k right] at dev blockno
      rw [left] at nonzero ⊢
      rcases fresh with ⟨sameDev, sameBlock⟩ | absent
      · exact inv.unique i k (sameDev ▸ nonzero) (sameDev ▸ dev) (sameBlock ▸ blockno)
      · exact absurd ⟨dev.symm, blockno.symm⟩ (absent k right)
    · rw [right, same.buf j left] at dev blockno
      rw [same.buf j left] at nonzero
      rw [right]
      rcases fresh with ⟨sameDev, sameBlock⟩ | absent
      · exact inv.unique j i nonzero (dev.trans sameDev) (blockno.trans sameBlock)
      · exact absurd ⟨dev, blockno⟩ (absent j left)
    · rw [same.buf j left] at nonzero dev blockno
      rw [same.buf k right] at dev blockno
      exact inv.unique j k nonzero dev blockno
  entry j := by
    by_cases here : j = i
    · exact here ▸ entry
    · exact same.entry here (inv.entry j)

theorem local_modify {s : State Pid} (i : Fin nbuf) (f : Buf Pid → Buf Pid) (disk : UInt32 → Block) (n : Int) :
    Local s ⟨s.cache.modify i f, disk, s.holds, Function.update s.pins i n⟩ i where
  buf j ne := by simp [Bcache.modify_buf, ne]
  holders _ _ := rfl
  owners _ _ := rfl
  pins j ne := by simp [ne]
  holds _ inT _ := inT

theorem local_bget {s : State Pid} (i : Fin nbuf) (f : Buf Pid → Buf Pid) (pid : Pid) (dev blockno : UInt32) :
    Local s { s with cache := s.cache.modify i f, holds := ⟨pid, i, dev, blockno, .waiting⟩ :: s.holds } i where
  buf j ne := by simp [Bcache.modify_buf, ne]
  holders j ne := by simp [holders_cons, Ne.symm ne]
  owners j ne := by simp [owners_cons, Ne.symm ne]
  pins j _ := rfl
  holds k inT ne := by
    rcases List.mem_cons.mp inT with rfl | old
    · exact absurd rfl ne
    · exact old

-- Pinning and unpinning move the counter and the number of pins together.
theorem inv_repin {s : State Pid} {i : Fin nbuf} (inv : Inv s) (f : UInt32 → UInt32) (n : Int)
    (counted : ((f (s.cache.buf i).refcnt).toNat : Int) = (holders s.holds i + n) % 2 ^ 32) :
    Inv { s with
      cache := s.cache.modify i fun b => { b with refcnt := f b.refcnt }
      pins := Function.update s.pins i n } := by
  obtain ⟨xs, ordered⟩ := inv.ordered
  have entry := inv.entry i
  refine (local_modify i _ s.disk n).inv inv ⟨xs, ordered.of_links rfl⟩ (.inl (by simp)) ?_
  constructor
  · simpa using counted
  · simpa using entry.owned
  · simpa using entry.owner
  · simpa using entry.clean

section
variable [DecidableEq Pid]

/-! ## Counting holds -/

section
variable {holds : List (Hold Pid)} {h : Hold Pid}

theorem holders_erase (member : h ∈ holds) (i : Fin nbuf) :
    holders (holds.erase h) i + (if h.buf = i then 1 else 0) = holders holds i := by
  have same := (List.perm_cons_erase member).countP_eq fun k => decide (k.buf = i)
  simpa [holders, List.countP_cons] using same.symm

theorem holders_moved (member : h ∈ holds) (phase : Phase) (i : Fin nbuf) :
    holders (h.moved phase holds) i = holders holds i := by
  rw [Hold.moved, holders_cons]
  exact holders_erase member i

theorem owners_erase (member : h ∈ holds) (i : Fin nbuf) :
    owners (holds.erase h) i + (if h.buf = i ∧ h.Owns then 1 else 0) = owners holds i := by
  have same := (List.perm_cons_erase member).countP_eq fun k => decide (k.buf = i ∧ k.Owns)
  simpa [owners, List.countP_cons] using same.symm

theorem mem_moved_of_ne {k : Hold Pid} {phase : Phase} (member : k ∈ holds) (other : k ≠ h) :
    k ∈ h.moved phase holds :=
  List.mem_cons_of_mem _ ((List.mem_erase_of_ne other).mpr member)

theorem mem_moved {k : Hold Pid} {phase : Phase} (member : k ∈ h.moved phase holds) :
    k = { h with phase } ∨ k ∈ holds := by
  rcases List.mem_cons.mp member with same | old
  · exact .inl same
  · exact .inr (List.mem_of_mem_erase old)

end

/-! ## The invariant is kept -/

section
variable {s t : State Pid} {h : Hold Pid}

/-- A step that modifies one entry and moves one of its holds concerns that entry only. -/
theorem local_moved (member : h ∈ s.holds) (f : Buf Pid → Buf Pid) (disk : UInt32 → Block) (phase : Phase) :
    Local s ⟨s.cache.modify h.buf f, disk, h.moved phase s.holds, s.pins⟩ h.buf where
  buf j ne := by simp [Bcache.modify_buf, ne]
  holders j _ := holders_moved member phase j
  owners j ne := by
    simp only [Hold.moved, owners_cons]
    rw [← owners_erase member j]
    simp [Ne.symm ne]
  pins j _ := rfl
  holds k inT ne := by
    rcases mem_moved inT with rfl | old
    · exact absurd rfl ne
    · exact old

theorem inv_acquiresleep (inv : Inv s) (stepped : step (.acquiresleep h) s = some t) : Inv t := by
  obtain ⟨⟨member, phase⟩, free, rfl⟩ := step_acquiresleep stepped
  obtain ⟨xs, ordered⟩ := inv.ordered
  have entry := inv.entry h.buf
  refine (local_moved member _ s.disk .filling).inv inv ⟨xs, ordered.of_links rfl⟩ (.inl (by simp)) ?_
  have unowned : owners s.holds h.buf = 0 := by simpa [free] using entry.owned
  constructor
  · simpa [holders_moved member] using entry.counted
  · have rest := owners_erase member h.buf
    simp only [Hold.moved, owners_cons, Hold.Owns, phase] at rest ⊢
    simp at rest ⊢
    omega
  · intro k inT here owns
    rcases mem_moved inT with rfl | old
    · simp
    · exact absurd (here ▸ owners_pos old owns) (by omega)
  · simpa using entry.clean

theorem inv_fill (inv : Inv s) (stepped : step (.fill h) s = some t) : Inv t := by
  obtain ⟨⟨member, phase⟩, rfl⟩ := step_fill (inv.entry h.buf).clean stepped
  obtain ⟨xs, ordered⟩ := inv.ordered
  have entry := inv.entry h.buf
  refine (local_moved member _ s.disk .held).inv inv ⟨xs, ordered.of_links rfl⟩ (.inl (by simp)) ?_
  constructor
  · simpa [holders_moved member] using entry.counted
  · have rest := owners_erase member h.buf
    have owned := entry.owned
    simp only [Hold.moved, owners_cons, Hold.Owns, phase, Bcache.modify_buf_self, load_lock] at rest ⊢
    simp at rest ⊢
    omega
  · intro k inT here owns
    simp only [Bcache.modify_buf_self, load_lock]
    rcases mem_moved inT with rfl | old
    · exact entry.owner h member rfl (.inl phase)
    · exact entry.owner k old here owns
  · simpa using load_dirty entry.clean

theorem inv_releasesleep (inv : Inv s) (stepped : step (.releasesleep h) s = some t) : Inv t := by
  obtain ⟨⟨member, phase⟩, holding, rfl⟩ := step_releasesleep stepped
  obtain ⟨xs, ordered⟩ := inv.ordered
  have entry := inv.entry h.buf
  refine (local_moved member _ s.disk .released).inv inv ⟨xs, ordered.of_links rfl⟩ (.inl (by simp)) ?_
  -- `h` was the only owner, so nobody owns the entry any more
  have unowned : owners (h.moved .released s.holds) h.buf = 0 := by
    have rest := owners_erase member h.buf
    have owned := entry.owned
    rw [show (s.cache.buf h.buf).lock = some h.pid from holding] at owned
    simp only [Hold.moved, owners_cons, Hold.Owns, phase] at rest ⊢
    simp at rest owned ⊢
    omega
  constructor
  · simpa [holders_moved member] using entry.counted
  · simpa using unowned
  · intro k inT here owns
    have busy : 0 < owners (h.moved .released s.holds) h.buf := here ▸ owners_pos inT owns
    omega
  · simpa using entry.clean

theorem inv_modify {data : Block} (inv : Inv s) (stepped : step (.modify h data) s = some t) : Inv t := by
  obtain ⟨⟨member, phase⟩, rfl⟩ := step_modify stepped
  obtain ⟨xs, ordered⟩ := inv.ordered
  have entry := inv.entry h.buf
  have same := local_modify (s := s) h.buf (fun b => { b with data }) s.disk (s.pins h.buf)
  rw [Function.update_eq_self] at same
  refine same.inv inv ⟨xs, ordered.of_links rfl⟩ (.inl (by simp)) ?_
  constructor
  · simpa using entry.counted
  · simpa using entry.owned
  · simpa using entry.owner
  · simpa using entry.clean

theorem inv_bwrite (inv : Inv s) (stepped : step (.bwrite h) s = some t) : Inv t := by
  obtain ⟨⟨member, phase⟩, _, rfl⟩ := step_bwrite stepped
  obtain ⟨xs, ordered⟩ := inv.ordered
  have entry := inv.entry h.buf
  have same := local_modify (s := s) h.buf (fun b => { b with valid := true, dirty := false })
    (Function.update s.disk (s.cache.buf h.buf).blockno (s.cache.buf h.buf).data) (s.pins h.buf)
  rw [Function.update_eq_self] at same
  refine same.inv inv ⟨xs, ordered.of_links rfl⟩ (.inl (by simp)) ?_
  constructor
  · simpa using entry.counted
  · simpa using entry.owned
  · simpa using entry.owner
  · simp

theorem inv_bpin {i : Fin nbuf} (inv : Inv s) (stepped : step (.bpin i) s = some t) : Inv t := by
  cases Option.some.inj stepped
  refine inv_repin inv (· + 1) _ ?_
  have counted := (inv.entry i).counted
  simp only [UInt32.toNat_add, UInt32.toNat_one]
  omega

theorem inv_bunpin {i : Fin nbuf} (inv : Inv s) (stepped : step (.bunpin i) s = some t) : Inv t := by
  cases Option.some.inj stepped
  refine inv_repin inv (· - 1) _ ?_
  have counted := (inv.entry i).counted
  have bound := (s.cache.buf i).refcnt.toNat_lt
  simp only [UInt32.toNat_sub, UInt32.toNat_one]
  omega

theorem local_unref {cache : Bcache Pid} {f : Buf Pid → Buf Pid} (member : h ∈ s.holds)
    (bufs : cache.buf = (s.cache.modify h.buf f).buf) :
    Local s { s with cache, holds := s.holds.erase h } h.buf where
  buf j ne := by simp [bufs, Bcache.modify_buf, ne]
  holders j ne := by simpa [Ne.symm ne] using holders_erase member j
  owners j ne := by simpa [Ne.symm ne] using owners_erase member j
  pins _ _ := rfl
  holds _ inT _ := List.mem_of_mem_erase inT

theorem inv_unref (inv : Inv s) (stepped : step (.unref h) s = some t) : Inv t := by
  obtain ⟨⟨member, phase⟩, cache, dropped, rfl⟩ := step_unref stepped
  obtain ⟨xs, ordered⟩ := inv.ordered
  obtain ⟨d, ys, equal, reordered, bufs, _⟩ := ordered.unref h.buf
  obtain rfl : cache = d := Option.some.inj (dropped.symm.trans equal)
  have entry := inv.entry h.buf
  have unowning : ¬ h.Owns := by simp [Hold.Owns, phase]
  have here : cache.buf h.buf = { s.cache.buf h.buf with refcnt := (s.cache.buf h.buf).refcnt - 1 } := by
    simp [bufs]
  refine (local_unref member bufs).inv inv ⟨ys, reordered⟩ (.inl (by simp [here])) ?_
  constructor
  · have fewer := holders_erase member h.buf
    have counted := entry.counted
    have bound := (s.cache.buf h.buf).refcnt.toNat_lt
    simp only [if_true] at fewer
    simp only [here, UInt32.toNat_sub, UInt32.toNat_one]
    omega
  · have fewer := owners_erase member h.buf
    simp only [unowning, and_false, if_false, Nat.add_zero] at fewer
    simpa [here, fewer] using entry.owned
  · intro k inT at_k owns
    simpa [here] using entry.owner k (List.mem_of_mem_erase inT) at_k owns
  · simpa [here] using entry.clean

theorem inv_bget {pid : Pid} {dev blockno : UInt32} (inv : Inv s)
    (stepped : step (.bget pid dev blockno) s = some t) : Inv t := by
  obtain ⟨i, cache, found, rfl⟩ := step_bget stepped
  obtain ⟨xs, ordered⟩ := inv.ordered
  have entry := inv.entry i
  have counted := entry.counted
  rcases ordered.bget_cases found with ⟨_, _, rfl⟩ | ⟨absent, idle, rfl⟩
  · refine (local_bget i Bcache.addref pid dev blockno).inv inv ⟨xs, ordered.of_links rfl⟩
      (.inl (by simp [Bcache.addref])) ?_
    constructor
    · simp only [Bcache.modify_buf_self, Bcache.addref, holders_cons, UInt32.toNat_add, UInt32.toNat_one, if_true]
      omega
    · simpa [Bcache.addref, owners_cons, Hold.Owns] using entry.owned
    · intro k inT here owns
      rcases List.mem_cons.mp inT with rfl | old
      · simp [Hold.Owns] at owns
      · simpa [Bcache.addref] using entry.owner k old here owns
    · simpa [Bcache.addref] using entry.clean
  · -- a miss: the entry had no uses, and nothing else caches the block
    refine (local_bget i (Bcache.recycle dev blockno) pid dev blockno).inv inv
      ⟨xs, ordered.of_links rfl⟩ (.inr fun k _ => by simpa [Bcache.recycle] using absent k) ?_
    constructor
    · rw [idle] at counted
      simp only [Bcache.modify_buf_self, Bcache.recycle, holders_cons, UInt32.toNat_one, if_true]
      simp only [UInt32.toNat_zero] at counted
      omega
    · simpa [Bcache.recycle, owners_cons, Hold.Owns] using entry.owned
    · intro k inT here owns
      rcases List.mem_cons.mp inT with rfl | old
      · simp [Hold.Owns] at owns
      · simpa [Bcache.recycle] using entry.owner k old here owns
    · simp [Bcache.recycle]

theorem inv_step {a : Act Pid} (inv : Inv s) (stepped : step a s = some t) : Inv t := by
  cases a with
  | bget pid dev blockno => exact inv_bget inv stepped
  | acquiresleep h => exact inv_acquiresleep inv stepped
  | fill h => exact inv_fill inv stepped
  | modify h data => exact inv_modify inv stepped
  | bwrite h => exact inv_bwrite inv stepped
  | releasesleep h => exact inv_releasesleep inv stepped
  | unref h => exact inv_unref inv stepped
  | bpin i => exact inv_bpin inv stepped
  | bunpin i => exact inv_bunpin inv stepped

/-- The invariant holds after every interleaving of the cache's critical sections. -/
theorem inv_run {acts : List (Act Pid)} (inv : Inv s) (ran : run step acts s = some t) : Inv t :=
  run_invariant (fun _ _ _ => inv_step) inv ran

end

end

end Xv6.Buffer
