import Xv6.Buffer.Invariant

/-! Which block a buffer caches, for how long, and who counts as using it.

A reference count is an unsigned 32-bit number, so it is the number of uses
modulo `2 ^ 32`. As long as no buffer has that many uses at once, a used buffer
keeps its block, and whoever waited for its sleep lock gets the block it asked for.
-/

set_option autoImplicit false

namespace Xv6.Buffer

open Library

variable {Pid : Type}

/-- The uses of a buffer: the processes that hold or await it, and its pins. -/
def uses (s : State Pid) (i : Fin nbuf) : Int := holders s.holds i + s.pins i

def Bounded (s : State Pid) : Prop := ∀ i, uses s i < 2 ^ 32

-- Every `bunpin` drops a pin taken earlier.
def Matched : Act Pid → State Pid → Prop
  | .bunpin i, s => 0 < s.pins i
  | _, _ => True

def Careful (a : Act Pid) (s : State Pid) : Prop := Matched a s ∧ Bounded s

instance (s : State Pid) : Decidable (Bounded s) := inferInstanceAs (Decidable (∀ _, _))

instance : (a : Act Pid) → (s : State Pid) → Decidable (Matched a s)
  | .bunpin _, _ => inferInstanceAs (Decidable (_ < _))
  | .bget .., _ | .acquiresleep _, _ | .fill _, _ | .modify .., _ | .bwrite _, _ | .releasesleep _, _
  | .unref _, _ | .bpin _, _ => .isTrue trivial

instance (a : Act Pid) (s : State Pid) : Decidable (Careful a s) := inferInstanceAs (Decidable (_ ∧ _))

/-- The entry still caches the same block, and still has its contents if it had them. -/
structure Kept (b c : Buf Pid) : Prop where
  dev : c.dev = b.dev
  blockno : c.blockno = b.blockno
  valid : b.valid = true → c.valid = true

theorem Kept.refl (b : Buf Pid) : Kept b b := ⟨rfl, rfl, id⟩

/-- A step that modifies one entry keeps all of them if the modification keeps what it modifies. -/
theorem Kept.of_modify {s t : State Pid} {j : Fin nbuf} {f : Buf Pid → Buf Pid}
    (bufs : t.cache.buf = (s.cache.modify j f).buf) (kept : ∀ b, Kept b (f b)) (i : Fin nbuf) :
    Kept (s.cache.buf i) (t.cache.buf i) := by
  rw [bufs, Bcache.modify_buf]
  split
  · next same => exact same ▸ kept _
  · exact Kept.refl _

theorem Kept.load (disk : UInt32 → Block) (b : Buf Pid) : Kept b (load disk b) := ⟨by simp, by simp, by simp⟩

theorem refcnt_eq_uses {s : State Pid} (inv : Inv s) (i : Fin nbuf) (pinned : 0 ≤ s.pins i)
    (bounded : uses s i < 2 ^ 32) : ((s.cache.buf i).refcnt.toNat : Int) = uses s i := by
  have counted := (inv.entry i).counted
  unfold uses at *
  omega

theorem holders_pos {holds : List (Hold Pid)} {h : Hold Pid} (member : h ∈ holds) : 0 < holders holds h.buf :=
  List.countP_pos_iff.mpr ⟨h, member, by simp⟩

theorem refcnt_ne_zero {s : State Pid} (inv : Inv s) {i : Fin nbuf} (pinned : 0 ≤ s.pins i)
    (bounded : uses s i < 2 ^ 32) (used : 0 < uses s i) : (s.cache.buf i).refcnt ≠ 0 := by
  intro zero
  have counted := refcnt_eq_uses inv i pinned bounded
  rw [zero, UInt32.toNat_zero] at counted
  omega

/-- A hold's buffer caches the block asked for, and has its contents once `bread` returned. -/
structure Serves (s : State Pid) (h : Hold Pid) : Prop where
  dev : (s.cache.buf h.buf).dev = h.dev
  blockno : (s.cache.buf h.buf).blockno = h.blockno
  valid : h.phase = .held → (s.cache.buf h.buf).valid = true

/-- What holds while no buffer has `2 ^ 32` uses at once. -/
structure Faithful (s : State Pid) : Prop where
  inv : Inv s
  pinned : ∀ i, 0 ≤ s.pins i
  serves : ∀ h ∈ s.holds, Serves s h

theorem faithful_start (disk : UInt32 → Block) : Faithful (start disk : State Pid) :=
  ⟨inv_start disk, fun _ => le_rfl, nofun⟩

theorem Faithful.refcnt_ne_zero {s : State Pid} (faithful : Faithful s) (bounded : Bounded s) {h : Hold Pid}
    (member : h ∈ s.holds) : (s.cache.buf h.buf).refcnt ≠ 0 := by
  have holding := holders_pos member
  have pinned := faithful.pinned h.buf
  exact Buffer.refcnt_ne_zero faithful.inv pinned (bounded h.buf) (by unfold uses; omega)

theorem Faithful.refcnt_of_pinned {s : State Pid} (faithful : Faithful s) (bounded : Bounded s) {i : Fin nbuf}
    (pinned : 0 < s.pins i) : (s.cache.buf i).refcnt ≠ 0 :=
  Buffer.refcnt_ne_zero faithful.inv (faithful.pinned i) (bounded i) (by unfold uses; omega)

section
variable [DecidableEq Pid] {s t : State Pid} {a : Act Pid}

/-- Only the recycling of an entry without references makes it cache another block. -/
theorem step_kept (inv : Inv s) (stepped : step a s = some t) {i : Fin nbuf}
    (referenced : (s.cache.buf i).refcnt ≠ 0) : Kept (s.cache.buf i) (t.cache.buf i) := by
  obtain ⟨xs, ordered⟩ := inv.ordered
  cases a with
  | bget pid dev blockno =>
    obtain ⟨j, cache, found, rfl⟩ := step_bget stepped
    rcases ordered.bget_cases found with ⟨_, _, rfl⟩ | ⟨_, idle, rfl⟩
    · refine Kept.of_modify rfl ?_ i
      exact fun _ => ⟨rfl, rfl, id⟩
    · -- the recycled entry had no references, so it is another one
      have other : i ≠ j := fun same => referenced (same ▸ idle)
      simpa [Bcache.modify_buf, other] using Kept.refl (s.cache.buf i)
  | acquiresleep h =>
    obtain ⟨_, _, rfl⟩ := step_acquiresleep stepped
    refine Kept.of_modify rfl ?_ i
    exact fun _ => ⟨rfl, rfl, id⟩
  | fill h =>
    obtain ⟨_, rfl⟩ := step_fill (inv.entry h.buf).clean stepped
    refine Kept.of_modify rfl ?_ i
    exact fun _ => Kept.load _ _
  | modify h data =>
    obtain ⟨_, rfl⟩ := step_modify stepped
    refine Kept.of_modify rfl ?_ i
    exact fun _ => ⟨rfl, rfl, id⟩
  | bwrite h =>
    obtain ⟨_, _, rfl⟩ := step_bwrite stepped
    refine Kept.of_modify rfl ?_ i
    exact fun _ => ⟨rfl, rfl, fun _ => rfl⟩
  | releasesleep h =>
    obtain ⟨_, _, rfl⟩ := step_releasesleep stepped
    refine Kept.of_modify rfl ?_ i
    exact fun _ => ⟨rfl, rfl, id⟩
  | unref h =>
    obtain ⟨_, cache, dropped, rfl⟩ := step_unref stepped
    obtain ⟨d, ys, equal, _, bufs, _⟩ := ordered.unref h.buf
    obtain rfl : cache = d := Option.some.inj (dropped.symm.trans equal)
    refine Kept.of_modify bufs ?_ i
    exact fun _ => ⟨rfl, rfl, id⟩
  | bpin j =>
    cases Option.some.inj stepped
    refine Kept.of_modify rfl ?_ i
    exact fun _ => ⟨rfl, rfl, id⟩
  | bunpin j =>
    cases Option.some.inj stepped
    refine Kept.of_modify rfl ?_ i
    exact fun _ => ⟨rfl, rfl, id⟩

theorem step_pins_le {i : Fin nbuf} (inv : Inv s) (stays : a ≠ .bunpin i) (stepped : step a s = some t) :
    s.pins i ≤ t.pins i := by
  cases a with
  | bget pid asked b =>
    obtain ⟨_, _, _, rfl⟩ := step_bget stepped
    exact le_rfl
  | acquiresleep h =>
    obtain ⟨_, _, rfl⟩ := step_acquiresleep stepped
    exact le_rfl
  | fill h =>
    obtain ⟨_, rfl⟩ := step_fill (inv.entry h.buf).clean stepped
    exact le_rfl
  | modify h data =>
    obtain ⟨_, rfl⟩ := step_modify stepped
    exact le_rfl
  | bwrite h =>
    obtain ⟨_, _, rfl⟩ := step_bwrite stepped
    exact le_rfl
  | releasesleep h =>
    obtain ⟨_, _, rfl⟩ := step_releasesleep stepped
    exact le_rfl
  | unref h =>
    obtain ⟨_, _, _, rfl⟩ := step_unref stepped
    exact le_rfl
  | bpin j =>
    cases Option.some.inj stepped
    by_cases here : i = j
    · subst here
      simp
    · simp [here]
  | bunpin j =>
    cases Option.some.inj stepped
    have other : i ≠ j := fun same => stays (same ▸ rfl)
    simp [other]

theorem pins_nonneg {i : Fin nbuf} (inv : Inv s) (matched : Matched a s) (pinned : ∀ i, 0 ≤ s.pins i)
    (stepped : step a s = some t) : 0 ≤ t.pins i := by
  by_cases drops : a = .bunpin i
  · subst drops
    cases Option.some.inj stepped
    have positive : 0 < s.pins i := matched
    simp
    omega
  · exact (pinned i).trans (step_pins_le inv drops stepped)

/-- A hold comes from a hold served before, or `bget` has just found its buffer. -/
theorem hold_origin (inv : Inv s) (stepped : step a s = some t) {h : Hold Pid} (member : h ∈ t.holds) :
    Serves t h ∨ ∃ k ∈ s.holds, h.buf = k.buf ∧ h.dev = k.dev ∧ h.blockno = k.blockno ∧
      (h.phase = .held → k.phase = .held ∨ (t.cache.buf h.buf).valid = true) := by
  have old {k : Hold Pid} (inS : k ∈ s.holds) : ∃ l ∈ s.holds, k.buf = l.buf ∧ k.dev = l.dev ∧
      k.blockno = l.blockno ∧ (k.phase = .held → l.phase = .held ∨ (t.cache.buf k.buf).valid = true) :=
    ⟨k, inS, rfl, rfl, rfl, .inl⟩
  obtain ⟨xs, ordered⟩ := inv.ordered
  cases a with
  | bget pid dev blockno =>
    obtain ⟨i, cache, found, rfl⟩ := step_bget stepped
    rcases List.mem_cons.mp member with rfl | inS
    · left
      rcases ordered.bget_cases found with ⟨sameDev, sameBlock, rfl⟩ | ⟨_, _, rfl⟩
      · exact ⟨by simpa [Bcache.addref] using sameDev, by simpa [Bcache.addref] using sameBlock, by simp⟩
      · exact ⟨by simp [Bcache.recycle], by simp [Bcache.recycle], by simp⟩
    · exact .inr (old inS)
  | acquiresleep k =>
    obtain ⟨⟨inS, _⟩, _, rfl⟩ := step_acquiresleep stepped
    rcases mem_moved member with rfl | kept
    · exact .inr ⟨k, inS, rfl, rfl, rfl, by simp⟩
    · exact .inr (old kept)
  | fill k =>
    obtain ⟨⟨inS, _⟩, rfl⟩ := step_fill (inv.entry k.buf).clean stepped
    rcases mem_moved member with rfl | kept
    · exact .inr ⟨k, inS, rfl, rfl, rfl, fun _ => .inr (by simp)⟩
    · exact .inr (old kept)
  | modify k data =>
    obtain ⟨_, rfl⟩ := step_modify stepped
    exact .inr (old member)
  | bwrite k =>
    obtain ⟨_, _, rfl⟩ := step_bwrite stepped
    exact .inr (old member)
  | releasesleep k =>
    obtain ⟨⟨inS, _⟩, _, rfl⟩ := step_releasesleep stepped
    rcases mem_moved member with rfl | kept
    · exact .inr ⟨k, inS, rfl, rfl, rfl, by simp⟩
    · exact .inr (old kept)
  | unref k =>
    obtain ⟨_, _, _, rfl⟩ := step_unref stepped
    exact .inr (old (List.mem_of_mem_erase member))
  | bpin j =>
    cases Option.some.inj stepped
    exact .inr (old member)
  | bunpin j =>
    cases Option.some.inj stepped
    exact .inr (old member)

theorem Faithful.step (faithful : Faithful s) (matched : Matched a s) (bounded : Bounded s)
    (stepped : Buffer.step a s = some t) : Faithful t where
  inv := inv_step faithful.inv stepped
  pinned _ := pins_nonneg faithful.inv matched faithful.pinned stepped
  serves h member := by
    rcases hold_origin faithful.inv stepped member with now | ⟨k, inS, buf, dev, blockno, valid⟩
    · exact now
    · -- the hold `k` counts as a use, so its entry kept the block
      have serves := faithful.serves k inS
      have kept := step_kept faithful.inv stepped (faithful.refcnt_ne_zero bounded inS)
      rw [← buf] at kept
      have same := serves.dev
      have asked := serves.blockno
      rw [← buf] at same asked
      refine ⟨by rw [kept.dev, same, dev], by rw [kept.blockno, asked, blockno], fun held => ?_⟩
      rcases valid held with before | now
      · exact kept.valid (buf ▸ serves.valid before)
      · exact now

/-- In a run that never has `2 ^ 32` uses of one buffer, every hold is served. -/
theorem faithful_run {acts : List (Act Pid)} (faithful : Faithful s) (meets : Meets Buffer.step Careful acts s)
    (ran : run Buffer.step acts s = some t) : Faithful t :=
  run_invariant_of_meets (fun _ _ _ faithful ok => faithful.step ok.1 ok.2) faithful meets ran

/-! ## The whole of a run -/

/-- What holds after every run of the cache. -/
structure Identity (s : State Pid) : Prop where
  listed : ∃ xs : List (Fin nbuf), Ring s.cache.links .head (xs.map Node.buf) ∧ ∀ i, xs.count i = 1
  unique : ∀ i j, (s.cache.buf i).dev ≠ 0 → (s.cache.buf i).dev = (s.cache.buf j).dev →
    (s.cache.buf i).blockno = (s.cache.buf j).blockno → i = j
  counted : ∀ i, ((s.cache.buf i).refcnt.toNat : Int) = uses s i % 2 ^ 32
  recycled : ∀ pid dev blockno t, Buffer.step (.bget pid dev blockno) s = some t →
    (∀ i, ¬ ((s.cache.buf i).dev = dev ∧ (s.cache.buf i).blockno = blockno)) →
    ∃ i, (s.cache.buf i).refcnt = 0 ∧ t.cache = s.cache.modify i (Bcache.recycle dev blockno)
  fixed : ∀ a t i, Buffer.step a s = some t → (s.cache.buf i).refcnt ≠ 0 →
    (t.cache.buf i).dev = (s.cache.buf i).dev ∧ (t.cache.buf i).blockno = (s.cache.buf i).blockno
  released : ∀ h t, Buffer.step (.unref h) s = some t → (t.cache.buf h.buf).refcnt = 0 →
    t.cache.links.next .head = some (.buf h.buf)

theorem Inv.identity (inv : Inv s) : Identity s where
  listed := by
    obtain ⟨xs, ordered⟩ := inv.ordered
    exact ⟨xs, ordered.ring, fun i => List.count_eq_one_of_mem ordered.nodup (ordered.full i)⟩
  unique := inv.unique
  counted i := (inv.entry i).counted
  recycled pid dev blockno t stepped absent := by
    obtain ⟨xs, ordered⟩ := inv.ordered
    obtain ⟨i, cache, found, rfl⟩ := step_bget stepped
    rcases ordered.bget_cases found with ⟨sameDev, sameBlock, _⟩ | ⟨_, idle, recycled⟩
    · exact absurd ⟨sameDev, sameBlock⟩ (absent i)
    · exact ⟨i, idle, recycled⟩
  fixed a t i stepped referenced :=
    have kept := step_kept inv stepped referenced
    ⟨kept.dev, kept.blockno⟩
  released h t stepped last := by
    obtain ⟨xs, ordered⟩ := inv.ordered
    obtain ⟨_, cache, dropped, rfl⟩ := step_unref stepped
    obtain ⟨d, ys, equal, reordered, _, first⟩ := ordered.unref h.buf
    obtain rfl : cache = d := Option.some.inj (dropped.symm.trans equal)
    obtain ⟨rest, rfl⟩ := List.head?_eq_some_iff.mp (first last)
    exact reordered.ring.next_head

/-- Identity of the cached blocks after `binit`, under every interleaving. -/
theorem cache_identity {disk : UInt32 → Block} {acts : List (Act Pid)}
    (ran : run Buffer.step acts (start disk) = some s) :
    Identity s ∧ (Meets Buffer.step Careful acts (start disk) →
      (∀ i, uses s i < 2 ^ 32 → ((s.cache.buf i).refcnt.toNat : Int) = uses s i) ∧
      ∀ h ∈ s.holds, (s.cache.buf h.buf).dev = h.dev ∧ (s.cache.buf h.buf).blockno = h.blockno) := by
  have inv : Inv s := inv_run (inv_start disk) ran
  refine ⟨inv.identity, fun careful => ?_⟩
  have faithful : Faithful s := faithful_run (faithful_start disk) careful ran
  exact ⟨fun i bounded => refcnt_eq_uses inv i (faithful.pinned i) bounded,
    fun h member => ⟨(faithful.serves h member).dev, (faithful.serves h member).blockno⟩⟩

end

theorem cache_identity_pinned :
    ∃ s, run step (Hold.bread ⟨1, 0, 1, 5, .held⟩ ++ .bpin 0 :: Hold.brelse ⟨1, 0, 1, 5, .held⟩)
      (start fun _ => Block.zero) = some s ∧ Identity s := by
  have returns : (run step (Hold.bread ⟨1, 0, 1, 5, .held⟩ ++ .bpin 0 :: Hold.brelse ⟨1, 0, 1, 5, .held⟩)
      (start fun _ => Block.zero)).isSome = true := by decide +kernel
  obtain ⟨s, ran⟩ := Option.isSome_iff_exists.mp returns
  exact ⟨s, ran, (cache_identity ran).1⟩

/-! ## A run whose pins wrap a reference count -/

def State.pinned {Pid : Type} (s : State Pid) (i : Fin nbuf) (n : Nat) : State Pid :=
  { s with
    cache := s.cache.modify i fun b => { b with refcnt := b.refcnt + UInt32.ofNat n }
    pins := Function.update s.pins i (s.pins i + n) }

theorem run_bpins {Pid : Type} [DecidableEq Pid] (n : Nat) (i : Fin nbuf) (s : State Pid) :
    run step (List.replicate n (.bpin i)) s = some (s.pinned i n) := by
  induction n generalizing s with
  | zero => simp [State.pinned, Bcache.modify]
  | succ n ih =>
    have count (w : UInt32) : w + 1 + UInt32.ofNat n = w + UInt32.ofNat (n + 1) := by
      rw [UInt32.ofNat_add, UInt32.add_assoc, UInt32.add_comm 1]
      rfl
    have pins (m : Int) : m + 1 + n = m + (n + 1 : Nat) := by omega
    rw [List.replicate_succ, run_cons]
    simp only [step, Option.bind_some, ih, State.pinned, Bcache.modify_modify, Function.update_self,
      Function.update_idem, count, pins]

/-- A process reads block 5 and pins it `2 ^ 32` times. -/
theorem refcnt_wraps :
    ¬ ∀ (acts : List (Act Nat)) (s : State Nat), Meets step Matched acts (start fun _ => Block.zero) →
      run step acts (start fun _ => Block.zero) = some s →
      ∀ i, ((s.cache.buf i).refcnt.toNat : Int) = uses s i := by
  intro exact_count
  let h : Hold Nat := ⟨1, 0, 1, 5, .held⟩
  have reads : (run step h.bread (start fun _ => Block.zero)).any (fun s =>
      (s.cache.buf 0).refcnt = 1 ∧ uses s 0 = 1) = true := by decide +kernel
  obtain ⟨s, ran, counts⟩ := (Option.any_eq_true _ _).mp reads
  obtain ⟨once, used⟩ := of_decide_eq_true counts
  have unpinning : ∀ a ∈ h.bread ++ List.replicate (2 ^ 32) (.bpin 0), ∀ s, Matched a s := by
    intro a member u
    rcases List.mem_append.mp member with first | pin
    · simp only [Hold.bread, List.mem_cons, List.not_mem_nil, or_false] at first
      rcases first with rfl | rfl | rfl <;> trivial
    · rw [List.eq_of_mem_replicate pin]
      trivial
  -- one holder and `2 ^ 32` pins, counted by a 32-bit number
  have wrapped := exact_count _ _ (Meets.of_forall unpinning _)
    (run_append_eq_some.mpr ⟨s, ran, run_bpins (2 ^ 32) 0 s⟩) 0
  have back : (1 : UInt32) + UInt32.ofNat (2 ^ 32) = 1 := by decide
  simp only [uses, State.pinned, Bcache.modify_buf_self, Function.update_self, once, back, UInt32.toNat_one]
    at wrapped used
  omega

end Xv6.Buffer
