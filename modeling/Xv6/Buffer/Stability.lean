import Xv6.Buffer.Coherence

/-! Properties of one block's contents that outlive the recycling of its buffer.

A property of every copy of a block survives any use of the cache that gives the
block only contents with the property, if one copy cannot be lost: the one on the
disk has the property, or a buffer that caches the block is pinned.
-/

set_option autoImplicit false

namespace Xv6.Buffer

open Library

variable {Pid : Type}

/-- The entry has the contents of a block. -/
structure Copies (dev blockno : UInt32) (b : Buf Pid) : Prop where
  valid : b.valid = true
  dev : b.dev = dev
  blockno : b.blockno = blockno

theorem Copies.kept {dev blockno : UInt32} {b c : Buf Pid} (copies : Copies dev blockno b) (kept : Kept b c) :
    Copies dev blockno c :=
  ⟨kept.valid copies.valid, kept.dev.trans copies.dev, kept.blockno.trans copies.blockno⟩

theorem Copies.of_same {dev blockno : UInt32} {b c : Buf Pid} (copies : Copies dev blockno c)
    (same : SameContents b c) :
    Copies dev blockno b :=
  ⟨same.valid ▸ copies.valid, same.dev ▸ copies.dev, same.blockno ▸ copies.blockno⟩

theorem Inv.copies_unique {s : State Pid} {dev blockno : UInt32} {i j : Fin nbuf} (inv : Inv s) (real : dev ≠ 0)
    (left : Copies dev blockno (s.cache.buf i)) (right : Copies dev blockno (s.cache.buf j)) : i = j :=
  inv.unique i j (left.dev.symm ▸ real) (left.dev.trans right.dev.symm) (left.blockno.trans right.blockno.symm)

/-- Every copy of the block has the property: the one on the disk and those in the cache. -/
structure Everywhere (dev blockno : UInt32) (P : Block → Prop) (s : State Pid) : Prop where
  disk : P (s.disk blockno)
  cached : ∀ i, Copies dev blockno (s.cache.buf i) → P (s.cache.buf i).data

/-- Every cached copy of the block has the property, and so has one that is not going to be lost. -/
structure Stable (dev blockno : UInt32) (P : Block → Prop) (s : State Pid) : Prop where
  faithful : Faithful s
  device : ∀ h ∈ s.holds, h.dev = dev
  cached : ∀ i, Copies dev blockno (s.cache.buf i) → P (s.cache.buf i).data
  kept : P (s.disk blockno) ∨ ∃ i, Copies dev blockno (s.cache.buf i) ∧ 0 < s.pins i

/-- The action gives the block no contents without the property, and drops a pin of
its buffer only when the disk has the property. -/
def Keeps (dev blockno : UInt32) (P : Block → Prop) : Act Pid → State Pid → Prop
  | .modify h data, _ => h.blockno = blockno → P data
  | .bunpin i, s => (s.cache.buf i).dev = dev → (s.cache.buf i).blockno = blockno → P (s.disk blockno)
  | _, _ => True

structure Harmless (dev blockno : UInt32) (P : Block → Prop) (a : Act Pid) (s : State Pid) : Prop where
  careful : Careful a s
  device : OnDevice dev a
  keeps : Keeps dev blockno P a s

section
variable (dev blockno : UInt32) (P : Block → Prop) [DecidablePred P]

instance : (a : Act Pid) → (s : State Pid) → Decidable (Keeps dev blockno P a s)
  | .modify .., _ => inferInstanceAs (Decidable (_ → _))
  | .bunpin _, _ => inferInstanceAs (Decidable (_ → _ → _))
  | .bget .., _ | .acquiresleep _, _ | .fill _, _ | .bwrite _, _ | .releasesleep _, _ | .unref _, _
  | .bpin _, _ => .isTrue trivial

instance (a : Act Pid) (s : State Pid) : Decidable (Harmless dev blockno P a s) :=
  decidable_of_iff (Careful a s ∧ OnDevice dev a ∧ Keeps dev blockno P a s)
    ⟨fun all => ⟨all.1, all.2.1, all.2.2⟩, fun all => ⟨all.careful, all.device, all.keeps⟩⟩

end

section
variable [DecidableEq Pid] {dev blockno : UInt32} {P : Block → Prop} {s t : State Pid} {a : Act Pid} {h : Hold Pid}

/-! ## What a step keeps -/

/-- Only `bwrite` changes the disk, and it writes a copy that has the property. -/
theorem Stable.written (stable : Stable dev blockno P s) (stepped : step a s = some t)
    (written : P (s.disk blockno)) :
    P (t.disk blockno) := by
  cases a with
  | bget pid asked b =>
    obtain ⟨_, _, _, rfl⟩ := step_bget stepped
    exact written
  | fill h =>
    obtain ⟨_, rfl⟩ := step_fill (stable.faithful.inv.entry h.buf).clean stepped
    exact written
  | modify h data =>
    obtain ⟨_, rfl⟩ := step_modify stepped
    exact written
  | bwrite h =>
    obtain ⟨⟨member, phase⟩, _, rfl⟩ := step_bwrite stepped
    have serves := stable.faithful.serves h member
    by_cases asked : (s.cache.buf h.buf).blockno = blockno
    · have copies := stable.cached h.buf ⟨serves.valid phase, serves.dev.trans (stable.device h member), asked⟩
      simpa [asked] using copies
    · simpa [Ne.symm asked] using written
  | acquiresleep | releasesleep | unref | bpin | bunpin =>
    obtain ⟨disk, _⟩ := step_sameContents stable.faithful.inv stepped trivial
    exact disk ▸ written

/-- A pinned copy is not recycled, and its last pin is dropped only when the disk has the property. -/
theorem Stable.anchored (stable : Stable dev blockno P s) (bounded : Bounded s) (keeps : Keeps dev blockno P a s)
    (stepped : step a s = some t) :
    P (t.disk blockno) ∨ ∃ i, Copies dev blockno (t.cache.buf i) ∧ 0 < t.pins i := by
  rcases stable.kept with written | ⟨i, copies, pinned⟩
  · exact .inl (stable.written stepped written)
  · by_cases drops : a = .bunpin i
    · subst drops
      exact .inl (stable.written stepped (keeps copies.dev copies.blockno))
    · have referenced := stable.faithful.refcnt_of_pinned bounded pinned
      have kept := step_kept stable.faithful.inv stepped referenced
      exact .inr ⟨i, copies.kept kept, pinned.trans_le (step_pins_le stable.faithful.inv drops stepped)⟩

theorem Stable.cached_bget {pid : Pid} {asked b : UInt32} {i : Fin nbuf} (stable : Stable dev blockno P s)
    (stepped : step (.bget pid asked b) s = some t) (copies : Copies dev blockno (t.cache.buf i)) :
    P (t.cache.buf i).data := by
  obtain ⟨xs, ordered⟩ := stable.faithful.inv.ordered
  obtain ⟨j, cache, found, rfl⟩ := step_bget stepped
  rcases ordered.bget_cases found with ⟨_, _, rfl⟩ | ⟨_, _, rfl⟩
  · have unchanged (b : Buf Pid) : SameContents b (Bcache.addref b) := ⟨rfl, rfl, rfl, rfl⟩
    have same : SameContents (s.cache.buf i) ((s.cache.modify j Bcache.addref).buf i) :=
      SameContents.of_modify rfl unchanged i
    change P ((s.cache.modify j Bcache.addref).buf i).data
    rw [same.data]
    exact stable.cached i (copies.of_same same)
  · -- the recycled entry has no contents yet
    by_cases here : i = j
    · subst here
      simpa [Bcache.recycle] using copies.valid
    · simp only [Bcache.modify_buf, here, if_false] at copies ⊢
      exact stable.cached i copies

theorem Stable.cached_fill {i : Fin nbuf} (stable : Stable dev blockno P s) (real : dev ≠ 0)
    (stepped : step (.fill h) s = some t) (copies : Copies dev blockno (t.cache.buf i)) : P (t.cache.buf i).data := by
  obtain ⟨_, rfl⟩ := step_fill (stable.faithful.inv.entry h.buf).clean stepped
  by_cases here : i = h.buf
  · subst here
    simp only [Bcache.modify_buf_self] at copies ⊢
    by_cases valid : (s.cache.buf h.buf).valid = true
    · have unchanged : load s.disk (s.cache.buf h.buf) = s.cache.buf h.buf := if_pos valid
      rw [unchanged] at copies ⊢
      exact stable.cached h.buf copies
    · have asked : (s.cache.buf h.buf).blockno = blockno := by simpa using copies.blockno
      have onDev : (s.cache.buf h.buf).dev = dev := by simpa using copies.dev
      -- a pinned copy would be this entry, which has no contents yet
      have written : P (s.disk blockno) := by
        rcases stable.kept with written | ⟨k, pinned, _⟩
        · exact written
        · obtain rfl := stable.faithful.inv.unique k h.buf (pinned.dev.symm ▸ real) (pinned.dev.trans onDev.symm)
            (pinned.blockno.trans asked.symm)
          exact absurd pinned.valid valid
      simpa [load, valid, asked] using written
  · simp only [Bcache.modify_buf, here, if_false] at copies ⊢
    exact stable.cached i copies

theorem Stable.cached_modify {data : Block} {i : Fin nbuf} (stable : Stable dev blockno P s)
    (keeps : h.blockno = blockno → P data) (stepped : step (.modify h data) s = some t)
    (copies : Copies dev blockno (t.cache.buf i)) : P (t.cache.buf i).data := by
  obtain ⟨⟨member, _⟩, rfl⟩ := step_modify stepped
  by_cases here : i = h.buf
  · subst here
    have asked : (s.cache.buf h.buf).blockno = blockno := by simpa using copies.blockno
    simpa using keeps ((stable.faithful.serves h member).blockno.symm.trans asked)
  · simp only [Bcache.modify_buf, here, if_false] at copies ⊢
    exact stable.cached i copies

theorem Stable.cached_bwrite {i : Fin nbuf} (stable : Stable dev blockno P s) (stepped : step (.bwrite h) s = some t)
    (copies : Copies dev blockno (t.cache.buf i)) : P (t.cache.buf i).data := by
  obtain ⟨⟨member, phase⟩, _, rfl⟩ := step_bwrite stepped
  by_cases here : i = h.buf
  · subst here
    have serves := stable.faithful.serves h member
    simpa using stable.cached h.buf ⟨serves.valid phase, by simpa using copies.dev, by simpa using copies.blockno⟩
  · simp only [Bcache.modify_buf, here, if_false] at copies ⊢
    exact stable.cached i copies

theorem Stable.step (stable : Stable dev blockno P s) (real : dev ≠ 0) (harmless : Harmless dev blockno P a s)
    (stepped : Buffer.step a s = some t) : Stable dev blockno P t where
  faithful := stable.faithful.step harmless.careful.1 harmless.careful.2 stepped
  device := step_device stable.faithful.inv stable.device harmless.device stepped
  cached i copies := by
    cases a with
    | bget pid asked b => exact stable.cached_bget stepped copies
    | fill h => exact stable.cached_fill real stepped copies
    | modify h data => exact stable.cached_modify harmless.keeps stepped copies
    | bwrite h => exact stable.cached_bwrite stepped copies
    | acquiresleep | releasesleep | unref | bpin | bunpin =>
      obtain ⟨_, same⟩ := step_sameContents stable.faithful.inv stepped trivial
      rw [(same i).data]
      exact stable.cached i (copies.of_same (same i))
  kept := stable.anchored harmless.careful.2 harmless.keeps stepped

theorem stable_run {acts : List (Act Pid)} (stable : Stable dev blockno P s) (real : dev ≠ 0)
    (meets : Meets Buffer.step (Harmless dev blockno P) acts s) (ran : run Buffer.step acts s = some t) :
    Stable dev blockno P t :=
  run_invariant_of_meets (fun _ _ _ stable ok => stable.step real ok) stable meets ran

end

end Xv6.Buffer
