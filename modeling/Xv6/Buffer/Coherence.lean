import Xv6.Buffer.Identity

/-! The buffer cache refines a block store.

The store maps every block number to the contents most recently given to it.
The cache is observed beside the store and beside the set of buffers modified
since their last `bwrite`. Callers keep a modified buffer cached, by a pin or by
holding it, until it is written.
-/

set_option autoImplicit false

namespace Xv6.Buffer

open Library

variable {Pid : Type}

def give : Act Pid → (UInt32 → Block) → UInt32 → Block
  | .modify h data, store => Function.update store h.blockno data
  | _, store => store

def givenTo (b : UInt32) : Act Pid → Option Block
  | .modify h data => if h.blockno = b then some data else none
  | _ => none

/-- The contents that the actions gave last to a block. -/
def lastGiven (b : UInt32) (acts : List (Act Pid)) : Option Block := (acts.filterMap (givenTo b)).getLast?

-- Which buffers have been modified since their last `bwrite`.
def note : Act Pid → (Fin nbuf → Bool) → Fin nbuf → Bool
  | .modify h _, unsaved => Function.update unsaved h.buf true
  | .bwrite h, unsaved => Function.update unsaved h.buf false
  | _, unsaved => unsaved

/-- The cache, beside the block store and the buffers not yet written. -/
structure Observed (Pid : Type) where
  state : State Pid
  store : UInt32 → Block
  unsaved : Fin nbuf → Bool

def beside (disk : UInt32 → Block) : Observed Pid := ⟨start disk, disk, fun _ => false⟩

/-- Nobody gives up a buffer whose last modification is neither written nor pinned,
and nobody drops a pin before the last modification is written. -/
def Saving : Act Pid → Observed Pid → Prop
  | .releasesleep h, o => o.unsaved h.buf = true → 0 < o.state.pins h.buf
  | .bunpin i, o => o.unsaved i = false
  | _, _ => True

def OnDevice (dev : UInt32) : Act Pid → Prop
  | .bget _ asked _ => asked = dev
  | _ => True

instance : (a : Act Pid) → (o : Observed Pid) → Decidable (Saving a o)
  | .releasesleep _, _ => inferInstanceAs (Decidable (_ → _))
  | .bunpin _, _ => inferInstanceAs (Decidable (_ = _))
  | .bget .., _ | .acquiresleep _, _ | .fill _, _ | .modify .., _ | .bwrite _, _ | .unref _, _
  | .bpin _, _ => .isTrue trivial

instance (dev : UInt32) : (a : Act Pid) → Decidable (OnDevice dev a)
  | .bget .. => inferInstanceAs (Decidable (_ = _))
  | .acquiresleep _ | .fill _ | .modify .. | .bwrite _ | .releasesleep _ | .unref _ | .bpin _
  | .bunpin _ => .isTrue trivial

/-- What the callers of the cache promise. -/
structure Disciplined (dev : UInt32) (a : Act Pid) (o : Observed Pid) : Prop where
  careful : Careful a o.state
  saving : Saving a o
  device : OnDevice dev a

instance (dev : UInt32) (a : Act Pid) (o : Observed Pid) : Decidable (Disciplined dev a o) :=
  decidable_of_iff (Careful a o.state ∧ Saving a o ∧ OnDevice dev a)
    ⟨fun all => ⟨all.1, all.2.1, all.2.2⟩, fun all => ⟨all.careful, all.saving, all.device⟩⟩

/-! ## Entries that cache the same block

After `binit` all entries are for block 0 of device 0. `bget` takes the first of them in the list,
and the others stay as they are until they are recycled. -/

def Blank (s : State Pid) (i : Fin nbuf) : Prop := (s.cache.buf i).valid = false ∧ ∀ h ∈ s.holds, h.buf ≠ i

def SameBlock (s : State Pid) (i j : Fin nbuf) : Prop :=
  (s.cache.buf i).dev = (s.cache.buf j).dev ∧ (s.cache.buf i).blockno = (s.cache.buf j).blockno

def Leading (s : State Pid) (xs : List (Fin nbuf)) : Prop := xs.Pairwise fun i j => SameBlock s i j → Blank s j

/-- A faithful cache whose entries in use are for different blocks. -/
structure Sound (s : State Pid) : Prop extends Faithful s where
  leading : ∃ xs, s.cache.Ordered xs ∧ Leading s xs

theorem sound_start (disk : UInt32 → Block) : Sound (start disk : State Pid) :=
  ⟨faithful_start disk, _, Bcache.Ordered.binit, List.pairwise_of_forall fun _ _ _ => ⟨rfl, nofun⟩⟩

section
variable {s t : State Pid} {i j : Fin nbuf} {xs : List (Fin nbuf)}

theorem not_blank (valid : (s.cache.buf i).valid = true) : ¬ Blank s i :=
  fun blank => Bool.noConfusion (blank.1.symm.trans valid)

theorem Sound.unique (sound : Sound s) (usedI : ¬ Blank s i) (usedJ : ¬ Blank s j) (same : SameBlock s i j) :
    i = j := by
  obtain ⟨xs, ordered, leading⟩ := sound.leading
  obtain ⟨before, after, rfl⟩ := List.append_of_mem (ordered.full i)
  obtain ⟨_, later, across⟩ := List.pairwise_append.mp leading
  rcases List.mem_append.mp (ordered.full j) with earlier | here
  · exact absurd (across j earlier i List.mem_cons_self ⟨same.1.symm, same.2.symm⟩) usedI
  · rcases List.mem_cons.mp here with rfl | after
    · rfl
    · exact absurd ((List.pairwise_cons.mp later).1 j after same) usedJ

theorem Local.blank (same : Local s t i) (other : j ≠ i) (blank : Blank s j) : Blank t j := by
  refine ⟨(congrArg Buf.valid (same.buf j other)).trans blank.1, fun h member here => ?_⟩
  exact blank.2 h (same.holds h member (here ▸ other)) here

theorem Local.pair (same : Local s t i) {a b : Fin nbuf} (otherA : a ≠ i) (otherB : b ≠ i)
    (before : SameBlock s a b → Blank s b) (together : SameBlock t a b) : Blank t b := by
  rw [SameBlock, same.buf a otherA, same.buf b otherB] at together
  exact same.blank otherB (before together)

/-- A step on one entry, for whose block it was the first if it is in use afterwards. -/
theorem Local.leading {before after : List (Fin nbuf)} (same : Local s t i) (distinct : (before ++ i :: after).Nodup)
    (leading : Leading s (before ++ i :: after)) (later : ∀ k, k ≠ i → SameBlock t i k → SameBlock s i k)
    (first : ∀ k ∈ before, SameBlock t k i → Blank t i) : Leading t (before ++ i :: after) := by
  obtain ⟨front, back, across⟩ := List.pairwise_append.mp leading
  obtain ⟨own, back⟩ := List.pairwise_cons.mp back
  obtain ⟨absent, _⟩ := List.nodup_cons.mp (List.nodup_middle.mp distinct)
  have notBefore : ∀ k ∈ before, k ≠ i := fun k member same => absent (same ▸ List.mem_append_left _ member)
  have notAfter : ∀ k ∈ after, k ≠ i := fun k member same => absent (same ▸ List.mem_append_right _ member)
  refine List.pairwise_append.mpr ⟨?_, List.pairwise_cons.mpr ⟨fun k member together => ?_, ?_⟩, ?_⟩
  · exact front.imp_of_mem fun memberA memberB => same.pair (notBefore _ memberA) (notBefore _ memberB)
  · have other := notAfter k member
    exact same.blank other (own k member (later k other together))
  · exact back.imp_of_mem fun memberA memberB => same.pair (notAfter _ memberA) (notAfter _ memberB)
  · intro k member l here together
    rcases List.mem_cons.mp here with rfl | memberL
    · exact first k member together
    · exact same.pair (notBefore k member) (notAfter l memberL) (across k member l here) together

theorem sameBlock_congr (dev : (t.cache.buf i).dev = (s.cache.buf i).dev)
    (blockno : (t.cache.buf i).blockno = (s.cache.buf i).blockno) (other : t.cache.buf j = s.cache.buf j) :
    (SameBlock t i j ↔ SameBlock s i j) ∧ (SameBlock t j i ↔ SameBlock s j i) := by
  simp only [SameBlock, dev, blockno, other, and_self]

/-- A step that leaves the list, and its entry for its block and blank if it was. -/
theorem Sound.keeps (sound : Sound s) (faithful : Faithful t) (same : Local s t i)
    (links : t.cache.links = s.cache.links) (dev : (t.cache.buf i).dev = (s.cache.buf i).dev)
    (blockno : (t.cache.buf i).blockno = (s.cache.buf i).blockno) (stays : Blank s i → Blank t i) : Sound t := by
  obtain ⟨xs, ordered, leading⟩ := sound.leading
  obtain ⟨before, after, rfl⟩ := List.append_of_mem (ordered.full i)
  obtain ⟨_, _, across⟩ := List.pairwise_append.mp leading
  obtain ⟨absent, _⟩ := List.nodup_cons.mp (List.nodup_middle.mp ordered.nodup)
  refine ⟨faithful, _, ordered.of_links links,
    same.leading ordered.nodup leading (fun k other => ?_) fun k member => ?_⟩
  · exact (sameBlock_congr dev blockno (same.buf k other)).1.mp
  · intro together
    have other : k ≠ i := fun same => absent (same ▸ List.mem_append_left _ member)
    exact stays (across k member i List.mem_cons_self ((sameBlock_congr dev blockno (same.buf k other)).2.mp together))

theorem Sound.bget {pid : Pid} {dev blockno : UInt32} [DecidableEq Pid] (sound : Sound s) (faithful : Faithful t)
    (stepped : step (.bget pid dev blockno) s = some t) : Sound t := by
  obtain ⟨xs, ordered, leading⟩ := sound.leading
  obtain ⟨i, cache, found, rfl⟩ := step_bget stepped
  rw [ordered.bget_eq] at found
  cases hit : xs.find? (s.cache.caches dev blockno) with
  | some j =>
    rw [hit] at found
    obtain ⟨rfl, rfl⟩ := Prod.mk.inj (Option.some.inj found)
    -- the search passes the entries before it
    obtain ⟨caches, before, after, rfl, others⟩ := List.find?_eq_some_iff_append.mp hit
    have same := local_bget (s := s) j Bcache.addref pid dev blockno
    obtain ⟨absent, _⟩ := List.nodup_cons.mp (List.nodup_middle.mp ordered.nodup)
    have block : (s.cache.buf j).dev = dev ∧ (s.cache.buf j).blockno = blockno := by
      simpa [Bcache.caches] using caches
    have sameDev : ((s.cache.modify j Bcache.addref).buf j).dev = (s.cache.buf j).dev := by
      rw [Bcache.modify_buf_self, Bcache.addref]
    have sameBlockno : ((s.cache.modify j Bcache.addref).buf j).blockno = (s.cache.buf j).blockno := by
      rw [Bcache.modify_buf_self, Bcache.addref]
    refine ⟨faithful, _, ordered.of_links rfl, same.leading ordered.nodup leading
      (fun k other => (sameBlock_congr sameDev sameBlockno (same.buf k other)).1.mp) fun k member together => ?_⟩
    have other : k ≠ j := fun same => absent (same ▸ List.mem_append_left _ member)
    have shared : SameBlock s k j := (sameBlock_congr sameDev sameBlockno (same.buf k other)).2.mp together
    have passed := others k member
    simp [Bcache.caches, shared.1, shared.2, block.1, block.2] at passed
  | none =>
    rw [hit] at found
    cases spare : xs.reverse.find? s.cache.unreferenced with
    | none => simp [spare] at found
    | some j =>
      rw [spare] at found
      obtain ⟨rfl, rfl⟩ := Prod.mk.inj (Option.some.inj found)
      obtain ⟨before, after, rfl⟩ := List.append_of_mem (ordered.full j)
      have same := local_bget (s := s) j (Bcache.recycle dev blockno) pid dev blockno
      obtain ⟨absent, _⟩ := List.nodup_cons.mp (List.nodup_middle.mp ordered.nodup)
      have unshared : ∀ k, ¬ ((s.cache.buf k).dev = dev ∧ (s.cache.buf k).blockno = blockno) := by
        intro k
        simpa [Bcache.caches] using List.find?_eq_none.mp hit k (ordered.full k)
      have alone : ∀ k, k ≠ j → (s.cache.modify j (Bcache.recycle dev blockno)).buf k = s.cache.buf k := same.buf
      refine ⟨faithful, _, ordered.of_links rfl, same.leading ordered.nodup leading (fun k other together => ?_)
        fun k member together => ?_⟩
      · simp only [SameBlock, alone k other, Bcache.modify_buf_self, Bcache.recycle] at together
        exact absurd ⟨together.1.symm, together.2.symm⟩ (unshared k)
      · have other : k ≠ j := fun same => absent (same ▸ List.mem_append_left _ member)
        simp only [SameBlock, alone k other, Bcache.modify_buf_self, Bcache.recycle] at together
        exact absurd together (unshared k)

-- The entry that goes to the front was the first for its block before.
theorem Sound.unref {h : Hold Pid} [DecidableEq Pid] (sound : Sound s) (faithful : Faithful t)
    (stepped : step (.unref h) s = some t) : Sound t := by
  obtain ⟨⟨member, _⟩, cache, dropped, rfl⟩ := step_unref stepped
  have notBlank : ¬ Blank s h.buf := fun blank => blank.2 h member rfl
  obtain ⟨xs, ordered, leading⟩ := sound.leading
  obtain ⟨before, after, rfl⟩ := List.append_of_mem (ordered.full h.buf)
  by_cases last : (s.cache.buf h.buf).refcnt - 1 = 0
  · obtain ⟨d, dropped', reordered, bufs⟩ := ordered.unref_last last
    obtain rfl : cache = d := Option.some.inj (dropped.symm.trans dropped')
    have same := local_unref member bufs
    have here : cache.buf h.buf = { s.cache.buf h.buf with refcnt := (s.cache.buf h.buf).refcnt - 1 } := by
      rw [bufs, Bcache.modify_buf_self]
    have sameDev : (cache.buf h.buf).dev = (s.cache.buf h.buf).dev := by rw [here]
    have sameBlockno : (cache.buf h.buf).blockno = (s.cache.buf h.buf).blockno := by rw [here]
    obtain ⟨absent, _⟩ := List.nodup_cons.mp (List.nodup_middle.mp ordered.nodup)
    have apart : ∀ k ∈ before ++ after, k ≠ h.buf := fun k inList here => absent (here ▸ inList)
    obtain ⟨_, back, across⟩ := List.pairwise_append.mp leading
    have rest := leading.sublist (List.Sublist.append_left (List.sublist_cons_self h.buf after) before)
    refine ⟨faithful, _, reordered, List.pairwise_cons.mpr ⟨fun k inList together => ?_, ?_⟩⟩
    · have other := apart k inList
      have shared : SameBlock s h.buf k := (sameBlock_congr sameDev sameBlockno (same.buf k other)).1.mp together
      rcases List.mem_append.mp inList with earlier | later
      · exact absurd (across k earlier h.buf List.mem_cons_self ⟨shared.1.symm, shared.2.symm⟩) notBlank
      · exact same.blank other ((List.pairwise_cons.mp back).1 k later shared)
    · exact rest.imp_of_mem fun inA inB => same.pair (apart _ inA) (apart _ inB)
  · obtain rfl : cache = _ := Option.some.inj (dropped.symm.trans (Bcache.Ordered.unref_shared last))
    exact sound.keeps faithful (local_unref member rfl) rfl (by rw [Bcache.modify_buf_self])
      (by rw [Bcache.modify_buf_self]) fun blank => absurd blank notBlank

theorem Sound.step [DecidableEq Pid] {a : Act Pid} (sound : Sound s) (matched : Matched a s) (bounded : Bounded s)
    (stepped : Buffer.step a s = some t) : Sound t := by
  have faithful := sound.toFaithful.step matched bounded stepped
  have used : ∀ {h : Hold Pid}, h ∈ s.holds → Blank s h.buf → Blank t h.buf :=
    fun {h} member blank => absurd rfl (blank.2 h member)
  cases a with
  | bget pid dev blockno => exact sound.bget faithful stepped
  | acquiresleep h =>
    obtain ⟨⟨member, _⟩, _, rfl⟩ := step_acquiresleep stepped
    exact sound.keeps faithful (local_moved member _ _ _) rfl (by rw [Bcache.modify_buf_self])
      (by rw [Bcache.modify_buf_self]) (used member)
  | fill h =>
    obtain ⟨⟨member, _⟩, rfl⟩ := step_fill (sound.inv.entry h.buf).clean stepped
    exact sound.keeps faithful (local_moved member _ _ _) rfl (by simp) (by simp) (used member)
  | modify h data =>
    obtain ⟨⟨member, _⟩, rfl⟩ := step_modify stepped
    have same := local_modify (s := s) h.buf (fun b => { b with data }) s.disk (s.pins h.buf)
    rw [Function.update_eq_self] at same
    exact sound.keeps faithful same rfl (by simp) (by simp) (used member)
  | bwrite h =>
    obtain ⟨⟨member, _⟩, _, rfl⟩ := step_bwrite stepped
    have same := local_modify (s := s) h.buf (fun b => { b with valid := true, dirty := false })
      (Function.update s.disk (s.cache.buf h.buf).blockno (s.cache.buf h.buf).data) (s.pins h.buf)
    rw [Function.update_eq_self] at same
    exact sound.keeps faithful same rfl (by simp) (by simp) (used member)
  | releasesleep h =>
    obtain ⟨⟨member, _⟩, _, rfl⟩ := step_releasesleep stepped
    exact sound.keeps faithful (local_moved member _ _ _) rfl (by simp) (by simp) (used member)
  | unref h => exact sound.unref faithful stepped
  | bpin i | bunpin i =>
    cases Option.some.inj stepped
    refine sound.keeps faithful (local_modify i _ _ _) rfl (by simp) (by simp) fun blank => ?_
    exact ⟨by simpa using blank.1, blank.2⟩

end

/-- The cache, the disk and the store agree, up to the buffers not yet written. -/
structure Coherent (dev : UInt32) (o : Observed Pid) : Prop where
  sound : Sound o.state
  device : ∀ h ∈ o.state.holds, h.dev = dev
  cached : ∀ i, (o.state.cache.buf i).valid = true →
    (o.state.cache.buf i).dev = dev ∧ (o.state.cache.buf i).data = o.store (o.state.cache.buf i).blockno
  written : ∀ i, (o.state.cache.buf i).valid = true → o.unsaved i = false →
    o.state.disk (o.state.cache.buf i).blockno = o.store (o.state.cache.buf i).blockno
  absent : ∀ b, (∀ i, (o.state.cache.buf i).valid = true → (o.state.cache.buf i).blockno ≠ b) →
    o.state.disk b = o.store b
  kept : ∀ i, o.unsaved i = true →
    0 < o.state.pins i ∨ ∃ h ∈ o.state.holds, h.buf = i ∧ h.phase = .held

structure SameContents (b c : Buf Pid) : Prop where
  valid : c.valid = b.valid
  dev : c.dev = b.dev
  blockno : c.blockno = b.blockno
  data : c.data = b.data

theorem SameContents.of_modify {c d : Bcache Pid} {j : Fin nbuf} {f : Buf Pid → Buf Pid}
    (bufs : d.buf = (c.modify j f).buf) (same : ∀ b, SameContents b (f b)) (i : Fin nbuf) :
    SameContents (c.buf i) (d.buf i) := by
  rw [bufs, Bcache.modify_buf]
  split
  · next here => exact here ▸ same _
  · exact ⟨rfl, rfl, rfl, rfl⟩

section
variable {dev : UInt32} {o : Observed Pid} {t : State Pid}

/-- Coherence is about contents: it survives a step that only moves uses around. -/
theorem Coherent.of_same (coherent : Coherent dev o) (sound : Sound t)
    (device : ∀ h ∈ t.holds, h.dev = dev) (disk : t.disk = o.state.disk)
    (same : ∀ i, SameContents (o.state.cache.buf i) (t.cache.buf i))
    (kept : ∀ i, o.unsaved i = true → 0 < t.pins i ∨ ∃ h ∈ t.holds, h.buf = i ∧ h.phase = .held) :
    Coherent dev { o with state := t } where
  sound := sound
  device := device
  cached i valid := by
    simp only [(same i).valid, (same i).dev, (same i).blockno, (same i).data] at valid ⊢
    exact coherent.cached i valid
  written i valid saved := by
    simp only [(same i).valid, (same i).blockno, disk] at valid ⊢
    exact coherent.written i valid saved
  absent b uncached := by
    simp only [disk]
    refine coherent.absent b fun i valid => ?_
    have other := uncached i ((same i).valid.trans valid)
    simpa only [(same i).blockno] using other
  kept := kept

/-- A step may change one entry and its block, if what it leaves there agrees again. -/
theorem Coherent.of_entry {store : UInt32 → Block} {unsaved : Fin nbuf → Bool} {i : Fin nbuf}
    (coherent : Coherent dev o) (sound : Sound t) (device : ∀ h ∈ t.holds, h.dev = dev)
    (others : ∀ j, j ≠ i → t.cache.buf j = o.state.cache.buf j ∧ unsaved j = o.unsaved j)
    (sameBlock : (t.cache.buf i).blockno = (o.state.cache.buf i).blockno)
    (blocks : ∀ b, b ≠ (t.cache.buf i).blockno → t.disk b = o.state.disk b ∧ store b = o.store b)
    (valid : (t.cache.buf i).valid = true) (sameDev : (t.cache.buf i).dev = dev)
    (data : (t.cache.buf i).data = store (t.cache.buf i).blockno)
    (written : unsaved i = false → t.disk (t.cache.buf i).blockno = store (t.cache.buf i).blockno)
    (kept : ∀ j, unsaved j = true → 0 < t.pins j ∨ ∃ h ∈ t.holds, h.buf = j ∧ h.phase = .held) :
    Coherent dev ⟨t, store, unsaved⟩ := by
  -- no other entry caches the block of entry `i`
  have apart {j : Fin nbuf} (other : j ≠ i) (validJ : (o.state.cache.buf j).valid = true) :
      (o.state.cache.buf j).blockno ≠ (t.cache.buf i).blockno := by
    intro same
    have devJ := (coherent.cached j validJ).1
    rw [← (others j other).1] at same devJ
    have validJ' : (t.cache.buf j).valid = true := by rw [(others j other).1, validJ]
    exact other (sound.unique (not_blank validJ') (not_blank valid) ⟨devJ.trans sameDev.symm, same⟩)
  refine ⟨sound, device, ?_, ?_, ?_, kept⟩
  · intro j validJ
    by_cases here : j = i
    · exact here ▸ ⟨sameDev, data⟩
    · simp only [(others j here).1] at validJ ⊢
      rw [(blocks _ (apart here validJ)).2]
      exact coherent.cached j validJ
  · intro j validJ saved
    by_cases here : j = i
    · subst here
      exact written saved
    · simp only [(others j here).1, (others j here).2] at validJ saved ⊢
      rw [(blocks _ (apart here validJ)).1, (blocks _ (apart here validJ)).2]
      exact coherent.written j validJ saved
  · intro b uncached
    have other : b ≠ (t.cache.buf i).blockno := fun same => uncached i valid same.symm
    simp only [(blocks b other).1, (blocks b other).2]
    refine coherent.absent b fun j validJ same => ?_
    by_cases here : j = i
    · exact other (by rw [sameBlock, ← here, same])
    · have still := (others j here).1
      exact uncached j (by rw [still]; exact validJ) (by rw [still]; exact same)

theorem coherent_start (dev : UInt32) (disk : UInt32 → Block) : Coherent dev (beside disk : Observed Pid) where
  sound := sound_start disk
  device := nofun
  cached _ := nofun
  written _ := nofun
  absent _ _ := rfl
  kept _ := nofun

theorem Coherent.unreferenced (coherent : Coherent dev o) (bounded : Bounded o.state) {i : Fin nbuf}
    (idle : (o.state.cache.buf i).refcnt = 0) : o.unsaved i = false := by
  by_contra modified
  rcases coherent.kept i (by simpa using modified) with pinned | ⟨h, member, rfl, _⟩
  · exact coherent.sound.refcnt_of_pinned bounded pinned idle
  · exact coherent.sound.refcnt_ne_zero bounded member idle

end

def MovesUses : Act Pid → Prop
  | .acquiresleep _ | .releasesleep _ | .unref _ | .bpin _ | .bunpin _ => True
  | .bget .. | .fill _ | .modify .. | .bwrite _ => False

theorem MovesUses.onDevice {a : Act Pid} (moves : MovesUses a) (dev : UInt32) : OnDevice dev a := by
  cases a with
  | bget => exact moves.elim
  | _ => trivial

section
variable [DecidableEq Pid] {dev : UInt32} {s t : State Pid} {a : Act Pid}

theorem step_sameContents (inv : Inv s) (stepped : step a s = some t) (moves : MovesUses a) :
    t.disk = s.disk ∧ ∀ i, SameContents (s.cache.buf i) (t.cache.buf i) := by
  cases a with
  | acquiresleep h =>
    obtain ⟨_, _, rfl⟩ := step_acquiresleep stepped
    refine ⟨rfl, SameContents.of_modify rfl ?_⟩
    exact fun _ => ⟨rfl, rfl, rfl, rfl⟩
  | releasesleep h =>
    obtain ⟨_, _, rfl⟩ := step_releasesleep stepped
    refine ⟨rfl, SameContents.of_modify rfl ?_⟩
    exact fun _ => ⟨rfl, rfl, rfl, rfl⟩
  | unref h =>
    obtain ⟨xs, ordered⟩ := inv.ordered
    obtain ⟨_, cache, dropped, rfl⟩ := step_unref stepped
    obtain ⟨d, ys, equal, _, bufs, _⟩ := ordered.unref h.buf
    obtain rfl : cache = d := Option.some.inj (dropped.symm.trans equal)
    exact ⟨rfl, SameContents.of_modify bufs fun _ => ⟨rfl, rfl, rfl, rfl⟩⟩
  | bpin i =>
    cases Option.some.inj stepped
    refine ⟨rfl, SameContents.of_modify rfl ?_⟩
    exact fun _ => ⟨rfl, rfl, rfl, rfl⟩
  | bunpin i =>
    cases Option.some.inj stepped
    refine ⟨rfl, SameContents.of_modify rfl ?_⟩
    exact fun _ => ⟨rfl, rfl, rfl, rfl⟩
  | bget | fill | modify | bwrite => exact moves.elim

theorem device_moved {holds : List (Hold Pid)} {h : Hold Pid} {phase : Phase} (member : h ∈ holds)
    (device : ∀ k ∈ holds, k.dev = dev) : ∀ k ∈ h.moved phase holds, k.dev = dev := by
  intro k inT
  rcases mem_moved inT with rfl | old
  · exact device h member
  · exact device k old

theorem step_device (inv : Inv s) (device : ∀ h ∈ s.holds, h.dev = dev) (asked : OnDevice dev a)
    (stepped : step a s = some t) : ∀ h ∈ t.holds, h.dev = dev := by
  cases a with
  | bget pid wanted blockno =>
    obtain ⟨_, _, _, rfl⟩ := step_bget stepped
    exact List.forall_mem_cons.mpr ⟨asked, device⟩
  | acquiresleep h =>
    obtain ⟨⟨member, _⟩, _, rfl⟩ := step_acquiresleep stepped
    exact device_moved member device
  | fill h =>
    obtain ⟨⟨member, _⟩, rfl⟩ := step_fill (inv.entry h.buf).clean stepped
    exact device_moved member device
  | modify h data =>
    obtain ⟨_, rfl⟩ := step_modify stepped
    exact device
  | bwrite h =>
    obtain ⟨_, _, rfl⟩ := step_bwrite stepped
    exact device
  | releasesleep h =>
    obtain ⟨⟨member, _⟩, _, rfl⟩ := step_releasesleep stepped
    exact device_moved member device
  | unref h =>
    obtain ⟨_, cache, _, rfl⟩ := step_unref stepped
    exact fun k inT => device k (List.mem_of_mem_erase inT)
  | bpin i | bunpin i =>
    cases Option.some.inj stepped
    exact device

end

section
variable [DecidableEq Pid] {dev : UInt32} {o : Observed Pid} {t : State Pid} {h : Hold Pid}

theorem held_moved {holds : List (Hold Pid)} {phase : Phase} {i : Fin nbuf} (other : h.phase ≠ .held)
    (held : ∃ k ∈ holds, k.buf = i ∧ k.phase = .held) :
    ∃ k ∈ h.moved phase holds, k.buf = i ∧ k.phase = .held := by
  obtain ⟨k, member, buf, holding⟩ := held
  exact ⟨k, mem_moved_of_ne member fun same => other (same ▸ holding), buf, holding⟩

theorem coherent_bget {pid : Pid} {blockno : UInt32} (coherent : Coherent dev o) (bounded : Bounded o.state)
    (sound : Sound t) (stepped : step (.bget pid dev blockno) o.state = some t) :
    Coherent dev { o with state := t } := by
  obtain ⟨xs, ordered⟩ := coherent.sound.inv.ordered
  obtain ⟨i, cache, found, rfl⟩ := step_bget stepped
  have device : ∀ h ∈ ⟨pid, i, dev, blockno, .waiting⟩ :: o.state.holds, h.dev = dev := by
    simpa using coherent.device
  have kept : ∀ j, o.unsaved j = true → 0 < o.state.pins j ∨
      ∃ h ∈ ⟨pid, i, dev, blockno, .waiting⟩ :: o.state.holds, h.buf = j ∧ h.phase = .held := by
    intro j modified
    rcases coherent.kept j modified with pinned | ⟨h, member, holding⟩
    · exact .inl pinned
    · exact .inr ⟨h, List.mem_cons_of_mem _ member, holding⟩
  rcases ordered.bget_cases found with ⟨_, _, rfl⟩ | ⟨_, idle, rfl⟩
  · exact coherent.of_same sound device rfl
      (SameContents.of_modify rfl fun _ => ⟨rfl, rfl, rfl, rfl⟩) kept
  · -- the recycled entry was written, so its block is on the disk
    have saved := coherent.unreferenced bounded idle
    have bufs (j : Fin nbuf) (valid : ((o.state.cache.modify i (Bcache.recycle dev blockno)).buf j).valid = true) :
        (o.state.cache.modify i (Bcache.recycle dev blockno)).buf j = o.state.cache.buf j := by
      by_cases here : j = i
      · subst here
        simp [Bcache.recycle] at valid
      · simp [Bcache.modify_buf, here]
    refine ⟨sound, device, ?_, ?_, ?_, kept⟩
    · intro j valid
      simp only [bufs j valid] at valid ⊢
      exact coherent.cached j valid
    · intro j valid
      simp only [bufs j valid] at valid ⊢
      exact coherent.written j valid
    · intro b uncached
      by_cases evicted : (o.state.cache.buf i).valid = true ∧ (o.state.cache.buf i).blockno = b
      · obtain ⟨valid, rfl⟩ := evicted
        exact coherent.written i valid saved
      · refine coherent.absent b fun j valid same => ?_
        by_cases here : j = i
        · exact evicted (here ▸ ⟨valid, same⟩)
        · have still : (o.state.cache.modify i (Bcache.recycle dev blockno)).buf j = o.state.cache.buf j := by
            simp [Bcache.modify_buf, here]
          exact uncached j (by simpa [still] using valid) (by simpa [still] using same)

theorem coherent_fill (coherent : Coherent dev o) (sound : Sound t)
    (stepped : step (.fill h) o.state = some t) : Coherent dev { o with state := t } := by
  obtain ⟨⟨member, phase⟩, rfl⟩ := step_fill (coherent.sound.inv.entry h.buf).clean stepped
  have device : ∀ k ∈ h.moved .held o.state.holds, k.dev = dev := device_moved member coherent.device
  have kept : ∀ j, o.unsaved j = true → 0 < o.state.pins j ∨
      ∃ k ∈ h.moved .held o.state.holds, k.buf = j ∧ k.phase = .held := fun j modified =>
    (coherent.kept j modified).imp_right (held_moved (by simp [phase]))
  by_cases valid : (o.state.cache.buf h.buf).valid = true
  · refine coherent.of_same sound device rfl (fun i => ?_) kept
    have unchanged : o.state.cache.modify h.buf (load o.state.disk) = o.state.cache :=
      Bcache.modify_eq_self (if_pos valid)
    rw [unchanged]
    exact ⟨rfl, rfl, rfl, rfl⟩
  · have serves := coherent.sound.serves h member
    -- no other entry caches the block, so the disk has what was given to it
    have fresh : o.state.disk (o.state.cache.buf h.buf).blockno = o.store (o.state.cache.buf h.buf).blockno := by
      refine coherent.absent _ fun i validI same => ?_
      have devI := (coherent.cached i validI).1
      have asked := serves.dev.trans (coherent.device h member)
      have held : ¬ Blank o.state h.buf := fun blank => blank.2 h member rfl
      obtain rfl := coherent.sound.unique (not_blank validI) held ⟨devI.trans asked.symm, same⟩
      exact valid validI
    refine coherent.of_entry (i := h.buf) sound device ?_ ?_ ?_ ?_ ?_ ?_ ?_ kept
    · intro j other
      simp [Bcache.modify_buf, other]
    · simp
    · exact fun _ _ => ⟨rfl, rfl⟩
    · simp
    · simpa using serves.dev.trans (coherent.device h member)
    · simpa [load, valid] using fresh
    · simpa [load, valid] using fun _ => fresh

theorem coherent_modify {data : Block} (coherent : Coherent dev o) (sound : Sound t)
    (stepped : step (.modify h data) o.state = some t) :
    Coherent dev ⟨t, give (.modify h data) o.store, note (.modify h data) o.unsaved⟩ := by
  obtain ⟨⟨member, phase⟩, rfl⟩ := step_modify stepped
  have serves := coherent.sound.serves h member
  refine coherent.of_entry (i := h.buf) sound coherent.device ?_ ?_ ?_ ?_ ?_ ?_ ?_ ?_
  · intro j other
    simp [Bcache.modify_buf, note, other]
  · simp
  · intro b other
    have elsewhere : b ≠ h.blockno := by simpa [serves.blockno] using other
    simp [give, elsewhere]
  · simpa using serves.valid phase
  · simpa using serves.dev.trans (coherent.device h member)
  · simp [give, serves.blockno]
  · simp [note]
  · intro j modified
    by_cases here : j = h.buf
    · exact .inr ⟨h, member, here.symm, phase⟩
    · exact coherent.kept j (by simpa [note, here] using modified)

theorem coherent_bwrite (coherent : Coherent dev o) (sound : Sound t)
    (stepped : step (.bwrite h) o.state = some t) :
    Coherent dev ⟨t, o.store, note (.bwrite h) o.unsaved⟩ := by
  obtain ⟨⟨member, phase⟩, _, rfl⟩ := step_bwrite stepped
  have serves := coherent.sound.serves h member
  have cached := coherent.cached h.buf (serves.valid phase)
  refine coherent.of_entry (i := h.buf) sound coherent.device ?_ ?_ ?_ ?_ ?_ ?_ ?_ ?_
  · intro j other
    simp [Bcache.modify_buf, note, other]
  · simp
  · intro b other
    have elsewhere : b ≠ (o.state.cache.buf h.buf).blockno := by simpa using other
    simp [elsewhere]
  · simp
  · simpa using cached.1
  · simpa using cached.2
  · simpa using fun _ => cached.2
  · intro j modified
    by_cases here : j = h.buf
    · simp [note, here] at modified
    · exact coherent.kept j (by simpa [note, here] using modified)

/-- A step that moves uses around keeps coherence if it keeps the unsaved buffers in use. -/
theorem Coherent.moves {a : Act Pid} (coherent : Coherent dev o) (sound : Sound t)
    (stepped : step a o.state = some t) (moves : MovesUses a)
    (kept : ∀ i, o.unsaved i = true → 0 < t.pins i ∨ ∃ h ∈ t.holds, h.buf = i ∧ h.phase = .held) :
    Coherent dev { o with state := t } := by
  obtain ⟨disk, same⟩ := step_sameContents coherent.sound.inv stepped moves
  have device := step_device coherent.sound.inv coherent.device (moves.onDevice dev) stepped
  exact coherent.of_same sound device disk same kept

theorem coherent_acquiresleep (coherent : Coherent dev o) (sound : Sound t)
    (stepped : step (.acquiresleep h) o.state = some t) : Coherent dev { o with state := t } := by
  refine coherent.moves sound stepped trivial fun j modified => ?_
  obtain ⟨⟨_, phase⟩, _, rfl⟩ := step_acquiresleep stepped
  exact (coherent.kept j modified).imp_right (held_moved (by simp [phase]))

theorem coherent_releasesleep (coherent : Coherent dev o) (sound : Sound t)
    (saving : o.unsaved h.buf = true → 0 < o.state.pins h.buf)
    (stepped : step (.releasesleep h) o.state = some t) : Coherent dev { o with state := t } := by
  refine coherent.moves sound stepped trivial fun j modified => ?_
  obtain ⟨_, _, rfl⟩ := step_releasesleep stepped
  rcases coherent.kept j modified with pinned | ⟨k, inS, rfl, holding⟩
  · exact .inl pinned
  · -- the releaser must have pinned what it modified
    by_cases same : k = h
    · exact .inl (same ▸ saving (same ▸ modified))
    · exact .inr ⟨k, mem_moved_of_ne inS same, rfl, holding⟩

theorem coherent_unref (coherent : Coherent dev o) (sound : Sound t)
    (stepped : step (.unref h) o.state = some t) : Coherent dev { o with state := t } := by
  refine coherent.moves sound stepped trivial fun j modified => ?_
  obtain ⟨⟨_, phase⟩, cache, _, rfl⟩ := step_unref stepped
  rcases coherent.kept j modified with pinned | ⟨k, inS, buf, holding⟩
  · exact .inl pinned
  · have other : k ≠ h := by
      rintro rfl
      rw [phase] at holding
      cases holding
    exact .inr ⟨k, (List.mem_erase_of_ne other).mpr inS, buf, holding⟩

theorem coherent_bpin {i : Fin nbuf} (coherent : Coherent dev o) (sound : Sound t)
    (stepped : step (.bpin i) o.state = some t) : Coherent dev { o with state := t } := by
  refine coherent.moves sound stepped trivial fun j modified => ?_
  cases Option.some.inj stepped
  refine (coherent.kept j modified).imp_left fun pinned => ?_
  simp only [Function.update_apply]
  split
  · next same => subst same; omega
  · exact pinned

theorem coherent_bunpin {i : Fin nbuf} (coherent : Coherent dev o) (sound : Sound t)
    (saving : o.unsaved i = false) (stepped : step (.bunpin i) o.state = some t) :
    Coherent dev { o with state := t } := by
  refine coherent.moves sound stepped trivial fun j modified => ?_
  cases Option.some.inj stepped
  have other : j ≠ i := by
    rintro rfl
    rw [saving] at modified
    cases modified
  simpa [Function.update_apply, other] using coherent.kept j modified

theorem coherent_step {a : Act Pid} (coherent : Coherent dev o) (disciplined : Disciplined dev a o)
    (stepped : step a o.state = some t) : Coherent dev ⟨t, give a o.store, note a o.unsaved⟩ := by
  obtain ⟨⟨matched, bounded⟩, saving, device⟩ := disciplined
  have sound := coherent.sound.step matched bounded stepped
  cases a with
  | bget pid asked blockno =>
    obtain rfl : asked = dev := device
    exact coherent_bget coherent bounded sound stepped
  | acquiresleep h => exact coherent_acquiresleep coherent sound stepped
  | fill h => exact coherent_fill coherent sound stepped
  | modify h data => exact coherent_modify coherent sound stepped
  | bwrite h => exact coherent_bwrite coherent sound stepped
  | releasesleep h => exact coherent_releasesleep coherent sound saving stepped
  | unref h => exact coherent_unref coherent sound stepped
  | bpin i => exact coherent_bpin coherent sound stepped
  | bunpin i => exact coherent_bunpin coherent sound saving stepped

/-! ## Runs beside the store -/

/-- A critical section of the cache, observed beside the store. -/
def observe (a : Act Pid) (o : Observed Pid) : Option (Observed Pid) :=
  (step a o.state).map fun state => ⟨state, give a o.store, note a o.unsaved⟩

theorem coherent_run {acts : List (Act Pid)} {p : Observed Pid} (coherent : Coherent dev o)
    (disciplined : Meets observe (Disciplined dev) acts o) (ran : run observe acts o = some p) : Coherent dev p := by
  refine run_invariant_of_meets ?_ coherent disciplined ran
  intro a o p coherent disciplined observed
  obtain ⟨t, stepped, rfl⟩ := Option.map_eq_some_iff.mp observed
  exact coherent_step coherent disciplined stepped

theorem store_eq_lastGiven {acts : List (Act Pid)} {p : Observed Pid} (ran : run observe acts o = some p)
    (b : UInt32) : p.store b = (lastGiven b acts).getD (o.store b) := by
  induction acts generalizing o with
  | nil =>
    cases ran
    rfl
  | cons a rest ih =>
    obtain ⟨q, observed, tail⟩ := run_cons_eq_some.mp ran
    obtain ⟨t, _, rfl⟩ := Option.map_eq_some_iff.mp observed
    rw [ih tail]
    cases a with
    | modify h data =>
      by_cases same : h.blockno = b
      · simp [lastGiven, givenTo, give, same, List.getLast?_cons]
      · simp [lastGiven, givenTo, give, same, Ne.symm same]
    | _ => rfl

/-- Whatever is cached, recycled or written in between, the holder of a buffer sees
what was given last to the block it asked for. -/
theorem bread_coherent {disk : UInt32 → Block} {acts : List (Act Pid)}
    (disciplined : Meets observe (Disciplined dev) acts (beside disk))
    (ran : run observe acts (beside disk) = some o) (member : h ∈ o.state.holds) (held : h.phase = .held) :
    (o.state.cache.buf h.buf).data = (lastGiven h.blockno acts).getD (disk h.blockno) := by
  have coherent : Coherent dev o := coherent_run (coherent_start dev disk) disciplined ran
  have serves := coherent.sound.serves h member
  rw [(coherent.cached h.buf (serves.valid held)).2, serves.blockno, store_eq_lastGiven ran]
  rfl

/-! ## Where the refinement ends -/

theorem observe_run {acts : List (Act Pid)} {t : State Pid} (ran : run step acts o.state = some t) :
    ∃ p, run observe acts o = some p ∧ p.state = t := by
  induction acts generalizing o with
  | nil =>
    cases ran
    exact ⟨o, rfl, rfl⟩
  | cons a rest ih =>
    obtain ⟨u, stepped, tail⟩ := run_cons_eq_some.mp ran
    obtain ⟨p, observed, same⟩ := ih (o := ⟨u, give a o.store, note a o.unsaved⟩) tail
    exact ⟨p, run_cons_eq_some.mpr ⟨_, Option.map_eq_some_iff.mpr ⟨u, stepped, rfl⟩, observed⟩, same⟩

end

def sharing : List (Act Nat) :=
  Hold.bread ⟨1, 0, 1, 5, .held⟩ ++ .modify ⟨1, 0, 1, 5, .held⟩ (fun _ => 7) :: .bpin 0 ::
    Hold.brelse ⟨1, 0, 1, 5, .held⟩ ++ Hold.bread ⟨2, 0, 1, 5, .held⟩

theorem bread_coherent_sharing : ∃ o, run observe sharing (beside fun _ => Block.zero) = some o ∧
    (o.state.cache.buf 0).data = fun _ => 7 := by
  have returns : (run observe sharing (beside fun _ => Block.zero)).any (fun o =>
      ⟨2, 0, 1, 5, .held⟩ ∈ o.state.holds) = true := by decide +kernel
  obtain ⟨o, ran, member⟩ := (Option.any_eq_true _ _).mp returns
  have disciplined : Meets observe (Disciplined 1) sharing (beside fun _ => Block.zero) := by decide +kernel
  exact ⟨o, ran, bread_coherent disciplined ran (of_decide_eq_true member) rfl⟩

def Refines (ok : Act Nat → Observed Nat → Prop) : Prop :=
  ∀ acts o, Meets observe ok acts (beside fun _ => Block.zero) →
    run observe acts (beside fun _ => Block.zero) = some o → ∀ h ∈ o.state.holds, h.phase = .held →
    (o.state.cache.buf h.buf).data = (lastGiven h.blockno acts).getD Block.zero

/-- Two devices share the one disk, so block 5 of the second is not the pinned block 5 of the first. -/
theorem not_refines_devices : ¬ Refines fun a o => Careful a o.state ∧ Saving a o := by
  intro refines
  let acts : List (Act Nat) := Hold.bread ⟨1, 0, 1, 5, .held⟩ ++
    .modify ⟨1, 0, 1, 5, .held⟩ (fun _ => 7) :: .bpin 0 :: Hold.bread ⟨2, 1, 2, 5, .held⟩
  have reads : (run observe acts (beside fun _ => Block.zero)).any (fun o =>
      ⟨2, 1, 2, 5, .held⟩ ∈ o.state.holds ∧ (o.state.cache.buf 1).data 0 = 0) = true := by decide +kernel
  obtain ⟨o, ran, outcome⟩ := (Option.any_eq_true _ _).mp reads
  obtain ⟨member, old⟩ := of_decide_eq_true outcome
  have given := refines acts o (by decide +kernel) ran _ member rfl
  have last : lastGiven 5 acts = some fun _ => 7 := rfl
  rw [last] at given
  exact absurd (old.symm.trans (congrFun given 0)) (by decide)

def Act.quiet : Act Nat → Bool
  | .releasesleep _ | .bunpin _ => false
  | .bget _ dev _ => dev = 1
  | _ => true

theorem Act.quiet_ok {a : Act Nat} (quiet : a.quiet = true) (o : Observed Nat) :
    Matched a o.state ∧ Saving a o ∧ OnDevice 1 a := by
  cases a <;> simp_all [Act.quiet, Matched, Saving, OnDevice]

/-- A buffer pinned `2 ^ 32 - 1` times while it is held looks unused, and is recycled. -/
theorem not_refines_wrapped : ¬ Refines fun a o => Matched a o.state ∧ Saving a o ∧ OnDevice 1 a := by
  intro refines
  let first : List (Act Nat) := Hold.bread ⟨1, 0, 1, 5, .held⟩ ++ [.modify ⟨1, 0, 1, 5, .held⟩ fun _ => 7]
  let second : List (Act Nat) := .bget 2 1 6 :: Hold.bread ⟨2, 1, 1, 5, .held⟩
  have reads : ((run step first (start fun _ => Block.zero)).bind fun s =>
      run step second (s.pinned 0 (2 ^ 32 - 1))).any (fun t =>
        ⟨2, 1, 1, 5, .held⟩ ∈ t.holds ∧ (t.cache.buf 1).data 0 = 0) = true := by decide +kernel
  obtain ⟨t, ran, outcome⟩ := (Option.any_eq_true _ _).mp reads
  obtain ⟨member, old⟩ := of_decide_eq_true outcome
  obtain ⟨s, ran₁, ran₂⟩ := Option.bind_eq_some_iff.mp ran
  obtain ⟨o, observed, rfl⟩ := observe_run (o := beside fun _ => Block.zero) (run_append_eq_some.mpr
    ⟨s, ran₁, run_append_eq_some.mpr ⟨_, run_bpins (2 ^ 32 - 1) 0 s, ran₂⟩⟩)
  have quiet : ∀ a ∈ first ++ (List.replicate (2 ^ 32 - 1) (.bpin 0) ++ second), a.quiet = true := by
    intro a inRun
    rcases List.mem_append.mp inRun with inFirst | inRest
    · exact List.all_eq_true.mp (show first.all Act.quiet = true by decide) a inFirst
    · rcases List.mem_append.mp inRest with pin | inSecond
      · rw [List.eq_of_mem_replicate pin]
        rfl
      · exact List.all_eq_true.mp (show second.all Act.quiet = true by decide) a inSecond
  have given := refines _ o (Meets.of_forall (fun a inRun p => Act.quiet_ok
    (quiet a inRun) p) _) observed _ member rfl
  have last : lastGiven 5 (first ++ (List.replicate (2 ^ 32 - 1) (.bpin 0) ++ second)) = some fun _ => 7 := by
    have nothing : (List.replicate (2 ^ 32 - 1) (.bpin 0 : Act Nat)).filterMap (givenTo 5) = [] :=
      List.filterMap_replicate_of_none rfl
    have split : ∀ xs ys zs : List (Act Nat), (xs ++ (ys ++ zs)).filterMap (givenTo 5) =
        xs.filterMap (givenTo 5) ++ (ys.filterMap (givenTo 5) ++ zs.filterMap (givenTo 5)) := by simp
    rw [lastGiven, split, nothing]
    rfl
  rw [last] at given
  exact absurd (old.symm.trans (congrFun given 0)) (by decide)

/-- Neither the single device nor the bound on the uses can be left out. -/
theorem refinement_limits : (¬ Refines fun a o => Careful a o.state ∧ Saving a o) ∧
    ¬ Refines fun a o => Matched a o.state ∧ Saving a o ∧ OnDevice 1 a :=
  ⟨not_refines_devices, not_refines_wrapped⟩

end Xv6.Buffer
