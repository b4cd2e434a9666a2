import Xv6.Fs.Interleaving

/-! One coherent copy for each inode in use.

An entry with references is the only one of its inode, so `iupdate` of another entry writes
another inode. An entry without references may be unlocked and valid and yet out of date:
`iget` never finds it.
-/

set_option autoImplicit false

namespace Xv6.Icache

open Library Fs

structure EntryInv (s : State) (i : Fin ninode) : Prop where
  counted : (s.icache i).ref = s.refs i
  linked : s.phase i ≠ .freeing
  stays : s.leaving i = 0
  used : s.phase i ≠ .unlocked → 0 < s.refs i
  locked : (s.icache i).locked = true ↔ s.phase i ≠ .unlocked

/-- What every proper interleaving keeps. -/
structure Inv (s : State) : Prop where
  unique : ∀ i j, 0 < (s.icache i).ref → 0 < (s.icache j).ref → (s.icache i).dev = (s.icache j).dev →
    (s.icache i).inum = (s.icache j).inum → i = j
  entry : ∀ i, EntryInv s i

structure Local (s t : State) (i : Fin ninode) : Prop where
  icache : ∀ j, j ≠ i → t.icache j = s.icache j
  phase : ∀ j, j ≠ i → t.phase j = s.phase j
  leaving : ∀ j, j ≠ i → t.leaving j = s.leaving j
  refs : ∀ j, j ≠ i → t.refs j = s.refs j
  unsaved : ∀ j, j ≠ i → t.unsaved j = s.unsaved j

def SameInode (ip ip' : MemInode) : Prop := ip'.dev = ip.dev ∧ ip'.inum = ip.inum

/-- What the cache and the disks agree on, up to the fields that have changed since the last `iupdate`. -/
structure Coherent (sb : Superblock) (s : State) : Prop where
  inv : Inv s
  saved : ∀ i, 0 < (s.icache i).ref → (s.icache i).valid = true → s.unsaved i = false →
    (s.icache i).dinode = s.onDisk i sb
  settled : ∀ i, s.unsaved i = true → s.phase i = .held

section
variable {sb : Superblock} {s t : State} {i j : Fin ninode} {a : Act}

theorem Local.entry (same : Local s t i) (other : j ≠ i) (inv : EntryInv s j) : EntryInv t j where
  counted := by
    rw [same.icache j other, same.refs j other]
    exact inv.counted
  linked := by
    rw [same.phase j other]
    exact inv.linked
  stays := by
    rw [same.leaving j other]
    exact inv.stays
  used := by
    rw [same.phase j other, same.refs j other]
    exact inv.used
  locked := by
    rw [same.icache j other, same.phase j other]
    exact inv.locked

-- A step that concerns one entry keeps the invariant if it keeps it there.
theorem Local.inv (same : Local s t i) (inv : Inv s) (entry : EntryInv t i)
    (fresh : (SameInode (s.icache i) (t.icache i) ∧ (0 < (t.icache i).ref → 0 < (s.icache i).ref)) ∨
      ∀ j, j ≠ i → 0 < (s.icache j).ref → (s.icache j).dev = (t.icache i).dev →
      (s.icache j).inum ≠ (t.icache i).inum) :
    Inv t where
  unique j k liveJ liveK dev inum := by
    -- only the entry that changed can have become a duplicate
    have clash : ∀ l, l ≠ i → 0 < (s.icache l).ref → 0 < (t.icache i).ref → (s.icache l).dev = (t.icache i).dev →
        (s.icache l).inum = (t.icache i).inum → False := by
      intro l other liveL liveI dev inum
      rcases fresh with ⟨⟨sameDev, sameInum⟩, live⟩ | absent
      · exact other (inv.unique l i liveL (live liveI) (dev.trans sameDev) (inum.trans sameInum))
      · exact absent l other liveL dev inum
    by_cases left : j = i <;> by_cases right : k = i
    · rw [left, right]
    · subst left
      rw [same.icache k right] at liveK dev inum
      exact (clash k right liveK liveJ dev.symm inum.symm).elim
    · subst right
      rw [same.icache j left] at liveJ dev inum
      exact (clash j left liveJ liveK dev inum).elim
    · rw [same.icache j left] at liveJ dev inum
      rw [same.icache k right] at liveK dev inum
      exact inv.unique j k liveJ liveK dev inum
  entry j := by
    by_cases here : j = i
    · exact here ▸ entry
    · exact same.entry here (inv.entry j)

theorem Local.coherent (same : Local s t i) (coherent : Coherent sb s) (inv : Inv t)
    (disks : ∀ j, j ≠ i → 0 < (s.icache j).ref → t.onDisk j sb = s.onDisk j sb)
    (saved : 0 < (t.icache i).ref → (t.icache i).valid = true → t.unsaved i = false →
      (t.icache i).dinode = t.onDisk i sb)
    (settled : t.unsaved i = true → t.phase i = .held) : Coherent sb t where
  inv := inv
  saved j live valid clean := by
    by_cases here : j = i
    · subst here
      exact saved live valid clean
    · rw [same.icache j here] at live valid
      rw [same.unsaved j here] at clean
      rw [same.icache j here, disks j here live]
      exact coherent.saved j live valid clean
  settled j dirty := by
    by_cases here : j = i
    · subst here
      exact settled dirty
    · rw [same.unsaved j here] at dirty
      rw [same.phase j here]
      exact coherent.settled j dirty

/-! ## What the steps concern -/

theorem local_entry (s : State) (i : Fin ninode) (ip : MemInode) : Local s (s.setEntry i ip) i :=
  ⟨fun _ other => Function.update_of_ne other .., fun _ _ => rfl, fun _ _ => rfl, fun _ _ => rfl, fun _ _ => rfl⟩

theorem local_phase (s : State) (i : Fin ninode) (phase : Phase) : Local s (s.setPhase i phase) i :=
  ⟨fun _ _ => rfl, fun _ other => Function.update_of_ne other .., fun _ _ => rfl, fun _ _ => rfl, fun _ _ => rfl⟩

theorem local_refs (s : State) (i : Fin ninode) (refs : Nat) : Local s (s.setRefs i refs) i :=
  ⟨fun _ _ => rfl, fun _ _ => rfl, fun _ _ => rfl, fun _ other => Function.update_of_ne other .., fun _ _ => rfl⟩

theorem local_unsaved (s : State) (i : Fin ninode) (unsaved : Bool) : Local s (s.setUnsaved i unsaved) i :=
  ⟨fun _ _ => rfl, fun _ _ => rfl, fun _ _ => rfl, fun _ _ => rfl, fun _ other => Function.update_of_ne other ..⟩

theorem local_store (s : State) (i : Fin ninode) (dev : UInt32) (store : Store) : Local s (s.setStore dev store) i :=
  ⟨fun _ _ => rfl, fun _ _ => rfl, fun _ _ => rfl, fun _ _ => rfl, fun _ _ => rfl⟩

theorem Local.trans {u : State} (first : Local s t i) (second : Local t u i) : Local s u i where
  icache j other := (second.icache j other).trans (first.icache j other)
  phase j other := (second.phase j other).trans (first.phase j other)
  leaving j other := (second.leaving j other).trans (first.leaving j other)
  refs j other := (second.refs j other).trans (first.refs j other)
  unsaved j other := (second.unsaved j other).trans (first.unsaved j other)

/-! ## The invariant -/

theorem inv_start (disk : UInt32 → UInt32 → Block) : Inv (start disk) where
  unique _ _ live := absurd live (Int.lt_irrefl 0)
  entry _ := ⟨rfl, nofun, rfl, fun busy => absurd rfl busy, iff_of_false nofun fun busy => busy rfl⟩

theorem Inv.refs_pos (inv : Inv s) : 0 < (s.icache i).ref ↔ 0 < s.refs i := by
  have counted := (inv.entry i).counted
  omega

theorem inv_referenced (inv : Inv s) (live : 0 < (s.icache i).ref) :
    Inv ((s.setEntry i { s.icache i with ref := (s.icache i).ref + 1 }).setRefs i (s.refs i + 1)) := by
  have entry := inv.entry i
  refine ((local_entry s i _).trans (local_refs _ i _)).inv inv ?_ (.inl ⟨?_, fun _ => live⟩)
  · constructor
    · simpa [State.setEntry, State.setRefs] using entry.counted
    · exact entry.linked
    · exact entry.stays
    · simp [State.setRefs]
    · simpa [State.setEntry, State.setRefs] using entry.locked
  · simp [SameInode, State.setEntry, State.setRefs]

-- A reference less, where others are left to whoever has locked the entry.
theorem inv_dropped (inv : Inv s) (live : 0 < s.refs i) (rest : s.phase i ≠ .unlocked → 1 < s.refs i) :
    Inv ((s.setEntry i { s.icache i with ref := (s.icache i).ref - 1 }).setRefs i (s.refs i - 1)) := by
  have entry := inv.entry i
  refine ((local_entry s i _).trans (local_refs _ i _)).inv inv ?_ (.inl ⟨?_, fun _ => inv.refs_pos.mpr live⟩)
  · constructor
    · have counted := entry.counted
      simp [State.setEntry, State.setRefs]
      omega
    · exact entry.linked
    · exact entry.stays
    · intro busy
      have others := rest busy
      simp [State.setRefs]
      omega
    · simpa [State.setEntry, State.setRefs] using entry.locked
  · simp [SameInode, State.setEntry, State.setRefs]

-- The sleep lock of an entry with references is taken, kept or given back.
theorem inv_phase (inv : Inv s) {ip : MemInode} {phase : Phase} (inode : SameInode (s.icache i) ip)
    (ref : ip.ref = (s.icache i).ref) (linked : phase ≠ .freeing) (used : phase ≠ .unlocked → 0 < s.refs i)
    (locked : ip.locked = true ↔ phase ≠ .unlocked) : Inv ((s.setEntry i ip).setPhase i phase) := by
  have entry := inv.entry i
  refine ((local_entry s i _).trans (local_phase _ i _)).inv inv ?_ (.inl ⟨?_, ?_⟩)
  · constructor
    · simpa [State.setEntry, State.setPhase, ref] using entry.counted
    · simpa [State.setPhase] using linked
    · exact entry.stays
    · simpa [State.setEntry, State.setPhase] using used
    · simpa [State.setEntry, State.setPhase] using locked
  · simpa [State.setEntry, State.setPhase] using inode
  · simp [State.setEntry, State.setPhase, ref]

-- Nothing but the fields on disk, the disks and the marks has changed.
theorem inv_contents (inv : Inv s) (inode : ∀ i, SameInode (s.icache i) (t.icache i))
    (ref : ∀ i, (t.icache i).ref = (s.icache i).ref) (locked : ∀ i, (t.icache i).locked = (s.icache i).locked)
    (phase : t.phase = s.phase) (leaving : t.leaving = s.leaving) (refs : t.refs = s.refs) : Inv t where
  unique i j liveI liveJ dev inum := by
    rw [ref] at liveI liveJ
    rw [(inode i).1, (inode j).1] at dev
    rw [(inode i).2, (inode j).2] at inum
    exact inv.unique i j liveI liveJ dev inum
  entry i := by
    obtain ⟨counted, linked, stays, used, isLocked⟩ := inv.entry i
    refine ⟨?_, ?_, ?_, ?_, ?_⟩
    · rw [ref, refs, counted]
    · rw [phase]
      exact linked
    · rw [leaving]
      exact stays
    · rw [phase, refs]
      exact used
    · rw [locked, phase]
      exact isLocked

-- `iget` takes an entry that nobody refers to for an inode that has none.
theorem inv_recycled (inv : Inv s) {dev inum : UInt32} (unused : (s.icache i).ref = 0)
    (absent : ∀ j, 0 < (s.icache j).ref → (s.icache j).dev = dev → (s.icache j).inum ≠ inum) :
    Inv ((s.setEntry i { s.icache i with dev, inum, ref := 1, size := 0, valid := false }).setRefs i
      (s.refs i + 1)) := by
  have entry := inv.entry i
  refine ((local_entry s i _).trans (local_refs _ i _)).inv inv ?_ (.inr fun j _ live sameDev => ?_)
  · constructor
    · have counted := entry.counted
      simp [State.setEntry, State.setRefs]
      omega
    · exact entry.linked
    · exact entry.stays
    · simp [State.setRefs]
    · simpa [State.setEntry, State.setRefs] using entry.locked
  · simp only [State.setEntry, State.setRefs, Function.update_self] at sameDev ⊢
    exact absent j live sameDev

theorem inv_step (inv : Inv s) (proper : Proper a s) (stepped : step sb a s = some t) : Inv t := by
  cases a with
  | iget dev inum =>
    obtain ⟨i, c, got, rfl⟩ := step_iget stepped
    rcases iget_cases got with ⟨_, live, _, rfl⟩ | ⟨absent, unused, rfl⟩
    · exact inv_referenced inv live
    · exact inv_recycled inv unused absent
  | idup i =>
    cases stepped
    exact inv_referenced inv (inv.refs_pos.mpr proper)
  | acquiresleep i =>
    obtain ⟨_, rfl⟩ := step_acquiresleep stepped
    exact inv_phase inv ⟨rfl, rfl⟩ rfl nofun (fun _ => proper) (iff_of_true rfl nofun)
  | fill i =>
    obtain ⟨filling, rfl⟩ := step_fill stepped
    have entry := inv.entry i
    have busy : s.phase i ≠ .unlocked := by
      rw [filling]
      exact nofun
    refine inv_phase inv ?_ ?_ nofun (fun _ => entry.used busy) ?_
    · split
      · exact ⟨rfl, rfl⟩
      · exact ⟨rfl, rfl⟩
    · split
      · rfl
      · rfl
    · refine iff_of_true ?_ nofun
      split
      · exact entry.locked.mpr busy
      · exact entry.locked.mpr busy
  | modify i d =>
    obtain ⟨_, rfl⟩ := step_modify stepped
    refine inv_contents inv ?_ ?_ ?_ rfl rfl rfl
    · intro j
      by_cases here : j = i
      · subst here
        simp [SameInode, State.setEntry, State.setUnsaved, MemInode.load]
      · simp [SameInode, State.setEntry, State.setUnsaved, here]
    · intro j
      by_cases here : j = i
      · subst here
        simp [State.setEntry, State.setUnsaved, MemInode.load]
      · simp [State.setEntry, State.setUnsaved, here]
    · intro j
      by_cases here : j = i
      · subst here
        simp [State.setEntry, State.setUnsaved, MemInode.load]
      · simp [State.setEntry, State.setUnsaved, here]
  | iupdate i log =>
    obtain ⟨_, u, _, rfl⟩ := step_iupdate stepped
    exact inv_contents inv (fun _ => ⟨rfl, rfl⟩) (fun _ => rfl) (fun _ => rfl) rfl rfl rfl
  | iunlock i =>
    obtain ⟨_, rfl⟩ := step_iunlock stepped
    exact inv_phase inv ⟨rfl, rfl⟩ rfl nofun (fun busy => absurd rfl busy) (iff_of_false nofun fun busy => busy rfl)
  | iput i =>
    obtain rfl := step_iput proper stepped
    exact inv_dropped inv proper.1 proper.2.1
  | free i log => exact absurd (step_free stepped) (inv.entry i).linked
  | unref i => exact absurd (step_unref stepped) (by rw [(inv.entry i).stays]; exact lt_irrefl 0)

/-! ## Contents -/

theorem coherent_start (disk : UInt32 → UInt32 → Block) : Coherent sb (start disk) :=
  ⟨inv_start disk, fun _ live => absurd live (Int.lt_irrefl 0), nofun⟩

/-- A step that changes neither the disks nor what the entries hold of their inodes. -/
theorem Local.coherent_of_same (same : Local s t i) (coherent : Coherent sb s) (inv : Inv t)
    (store : t.store = s.store)
    (saved : 0 < (t.icache i).ref → (t.icache i).valid = true → t.unsaved i = false →
      (t.icache i).dinode = diskInode sb (s.store (t.icache i).dev).view (t.icache i).inum)
    (settled : t.unsaved i = true → t.phase i = .held) : Coherent sb t := by
  refine same.coherent coherent inv (fun j other _ => ?_) ?_ settled
  · rw [State.onDisk, State.onDisk, same.icache j other, store]
  · rw [State.onDisk, store]
    exact saved

theorem coherent_step (coherent : Coherent sb s) (proper : Proper a s) (saves : Saves a s)
    (stepped : step sb a s = some t) : Coherent sb t := by
  have inv := inv_step coherent.inv proper stepped
  -- whoever is not the holder has nothing left to save
  have clean : ∀ i, s.phase i ≠ .held → s.unsaved i = false := by
    intro i other
    cases dirty : s.unsaved i with
    | false => rfl
    | true => exact absurd (coherent.settled i dirty) other
  cases a with
  | iget dev inum =>
    obtain ⟨i, c, got, rfl⟩ := step_iget stepped
    rcases iget_cases got with ⟨_, live, _, rfl⟩ | ⟨absent, unused, rfl⟩
    · refine ((local_entry s i _).trans (local_refs _ i _)).coherent_of_same coherent inv rfl ?_ (coherent.settled i)
      intro _ valid saved
      simp only [State.setEntry, State.setRefs, Function.update_self] at valid ⊢
      exact coherent.saved i live valid saved
    · refine ((local_entry s i _).trans (local_refs _ i _)).coherent_of_same coherent inv rfl ?_ (coherent.settled i)
      intro _ valid
      simp [State.setEntry, State.setRefs] at valid
  | idup i =>
    cases stepped
    refine ((local_entry s i _).trans (local_refs _ i _)).coherent_of_same coherent inv rfl ?_ (coherent.settled i)
    intro _ valid saved
    simp only [State.setEntry, State.setRefs, Function.update_self] at valid ⊢
    exact coherent.saved i (coherent.inv.refs_pos.mpr proper) valid saved
  | acquiresleep i =>
    obtain ⟨free, rfl⟩ := step_acquiresleep stepped
    have unlocked : s.phase i ≠ .held := by
      intro held
      have locked := (coherent.inv.entry i).locked.mpr (by rw [held]; decide)
      rw [free] at locked
      cases locked
    refine ((local_entry s i _).trans (local_phase _ i _)).coherent_of_same coherent inv rfl ?_ ?_
    · intro live valid saved
      simp only [State.setEntry, State.setPhase, Function.update_self] at live valid ⊢
      exact coherent.saved i live valid saved
    · intro dirty
      exact absurd (coherent.settled i dirty) unlocked
  | fill i =>
    obtain ⟨filling, rfl⟩ := step_fill stepped
    refine ((local_entry s i _).trans (local_phase _ i _)).coherent_of_same coherent inv rfl ?_ ?_
    · intro live valid saved
      simp only [State.setEntry, State.setPhase, Function.update_self] at live valid ⊢
      by_cases isValid : (s.icache i).valid = true
      · rw [if_pos isValid] at live ⊢
        exact coherent.saved i live isValid saved
      · rw [if_neg isValid]
        rfl
    · intro _
      exact Function.update_self ..
  | modify i d =>
    obtain ⟨held, rfl⟩ := step_modify stepped
    refine ((local_entry s i _).trans (local_unsaved _ i _)).coherent_of_same coherent inv rfl ?_ fun _ => held
    intro _ _ saved
    simp [State.setUnsaved] at saved
  | iupdate i log =>
    obtain ⟨held, u, isView, rfl⟩ := step_iupdate stepped
    have live : 0 < (s.icache i).ref := by
      refine coherent.inv.refs_pos.mpr ((coherent.inv.entry i).used ?_)
      rw [held]
      decide
    refine ((local_store s i _ _).trans (local_unsaved _ i _)).coherent coherent inv ?_ ?_ ?_
    · intro j other liveJ
      simp only [State.onDisk, State.setStore, State.setUnsaved]
      by_cases sameDev : (s.icache j).dev = (s.icache i).dev
      · have otherInum : (s.icache j).inum ≠ (s.icache i).inum :=
          fun sameInum => other (coherent.inv.unique j i liveJ live sameDev sameInum)
        rw [sameDev, Function.update_self, isView, diskInode_putInode_of_ne otherInum]
      · rw [Function.update_of_ne sameDev]
    · intro _ _ _
      simp only [State.onDisk, State.setStore, State.setUnsaved, Function.update_self, isView,
        diskInode_putInode_self]
    · intro dirty
      simp [State.setUnsaved] at dirty
  | iunlock i =>
    obtain ⟨held, rfl⟩ := step_iunlock stepped
    refine ((local_entry s i _).trans (local_phase _ i _)).coherent_of_same coherent inv rfl ?_ ?_
    · intro live valid saved
      simp only [State.setEntry, State.setPhase, Function.update_self] at live valid ⊢
      exact coherent.saved i live valid saved
    · intro dirty
      have saved : s.unsaved i = false := saves
      exact Bool.noConfusion (saved.symm.trans dirty)
  | iput i =>
    obtain rfl := step_iput proper stepped
    refine ((local_entry s i _).trans (local_refs _ i _)).coherent_of_same coherent inv rfl ?_ (coherent.settled i)
    intro _ valid saved
    simp only [State.setEntry, State.setRefs, Function.update_self] at valid ⊢
    exact coherent.saved i (coherent.inv.refs_pos.mpr proper.1) valid saved
  | free i log => exact absurd (step_free stepped) (coherent.inv.entry i).linked
  | unref i => exact absurd (step_unref stepped) (by rw [(coherent.inv.entry i).stays]; exact lt_irrefl 0)

theorem sameInode_step (inv : Inv s) (proper : Proper a s) (stepped : step sb a s = some t)
    (live : 0 < (s.icache j).ref) :
    SameInode (s.icache j) (t.icache j) := by
  -- the entry that a step concerns keeps its inode, unless it is recycled
  have of_entry : ∀ {i ip}, t.icache = Function.update s.icache i ip → SameInode (s.icache i) ip →
      SameInode (s.icache j) (t.icache j) := by
    intro i ip isCache inode
    rw [isCache]
    by_cases here : j = i
    · subst here
      rw [Function.update_self]
      exact inode
    · rw [Function.update_of_ne here]
      exact ⟨rfl, rfl⟩
  cases a with
  | iget dev inum =>
    obtain ⟨i, c, got, rfl⟩ := step_iget stepped
    rcases iget_cases got with ⟨_, _, _, rfl⟩ | ⟨_, unused, rfl⟩
    · exact of_entry rfl ⟨rfl, rfl⟩
    · have other : j ≠ i := by
        rintro rfl
        omega
      simp [SameInode, State.setRefs, other]
  | idup i =>
    cases stepped
    exact of_entry rfl ⟨rfl, rfl⟩
  | acquiresleep i =>
    obtain ⟨_, rfl⟩ := step_acquiresleep stepped
    exact of_entry rfl ⟨rfl, rfl⟩
  | fill i =>
    obtain ⟨_, rfl⟩ := step_fill stepped
    refine of_entry rfl ?_
    split
    · exact ⟨rfl, rfl⟩
    · exact ⟨rfl, rfl⟩
  | modify i d =>
    obtain ⟨_, rfl⟩ := step_modify stepped
    exact of_entry rfl ⟨rfl, rfl⟩
  | iupdate i log =>
    obtain ⟨_, u, _, rfl⟩ := step_iupdate stepped
    exact ⟨rfl, rfl⟩
  | iunlock i =>
    obtain ⟨_, rfl⟩ := step_iunlock stepped
    exact of_entry rfl ⟨rfl, rfl⟩
  | iput i =>
    obtain rfl := step_iput proper stepped
    exact of_entry rfl ⟨rfl, rfl⟩
  | free i log => exact absurd (step_free stepped) (inv.entry i).linked
  | unref i => exact absurd (step_unref stepped) (by rw [(inv.entry i).stays]; exact lt_irrefl 0)

/-! ## The counters -/

def Counting (s : State) : Prop := ∀ i, (s.icache i).ref < 2 ^ 31

theorem Counting.update (counting : Counting s) {ip : MemInode} (cache : t.icache = Function.update s.icache i ip)
    (below : ip.ref < 2 ^ 31) : Counting t := by
  intro j
  rw [cache]
  by_cases here : j = i
  · subst here
    rw [Function.update_self]
    exact below
  · rw [Function.update_of_ne here]
    exact counting j

theorem counting_step (counting : Counting s) (inv : Inv s) (proper : Proper a s) (countable : Countable a s)
    (stepped : step sb a s = some t) : Counting t := by
  cases a with
  | iget dev inum =>
    obtain ⟨i, c, got, rfl⟩ := step_iget stepped
    rw [Icache.iget] at got
    rw [Countable] at countable
    cases found : s.icache.find dev inum with
    | some j =>
      rw [found] at got countable
      cases got
      exact counting.update rfl countable
    | none =>
      rw [found] at got
      obtain ⟨j, _, same⟩ : ∃ j, s.icache.empty = some j ∧ (j, Function.update s.icache j
          { s.icache j with dev, inum, ref := 1, size := 0, valid := false }) = (i, c) := by
        cases free : s.icache.empty with
        | some j => exact ⟨j, rfl, by simpa [free] using got⟩
        | none => simp [free] at got
      cases same
      exact counting.update rfl (by decide : (1 : Int) < 2 ^ 31)
  | idup i =>
    cases stepped
    exact counting.update rfl countable
  | acquiresleep i =>
    obtain ⟨_, rfl⟩ := step_acquiresleep stepped
    exact counting.update rfl (counting i)
  | fill i =>
    obtain ⟨_, rfl⟩ := step_fill stepped
    refine counting.update rfl ?_
    split
    · exact counting i
    · exact counting i
  | modify i d =>
    obtain ⟨_, rfl⟩ := step_modify stepped
    exact counting.update rfl (counting i)
  | iupdate i log =>
    obtain ⟨_, u, _, rfl⟩ := step_iupdate stepped
    exact counting
  | iunlock i =>
    obtain ⟨_, rfl⟩ := step_iunlock stepped
    exact counting.update rfl (counting i)
  | iput i =>
    obtain rfl := step_iput proper stepped
    have below := counting i
    exact counting.update rfl (by show (s.icache i).ref - 1 < 2 ^ 31; omega)
  | free i log => exact absurd (step_free stepped) (inv.entry i).linked
  | unref i => exact absurd (step_unref stepped) (by rw [(inv.entry i).stays]; exact lt_irrefl 0)

/-! ## Entries out of use -/

/-- What a valid and unlocked entry says of its inode is what the disk says, in use or not. -/
def Current (sb : Superblock) (s : State) : Prop :=
  ∀ i, (s.icache i).valid = true → (s.icache i).locked = false → (s.icache i).dinode = s.onDisk i sb

theorem Inv.unlocked (inv : Inv s) (unused : (s.icache i).ref = 0) : (s.icache i).locked = false := by
  cases locked : (s.icache i).locked with
  | false => rfl
  | true =>
    have live := (inv.entry i).used ((inv.entry i).locked.mp locked)
    have counted := (inv.entry i).counted
    omega

theorem Coherent.unlocked (coherent : Coherent sb s) (live : 0 < (s.icache i).ref)
    (valid : (s.icache i).valid = true) (unlocked : (s.icache i).locked = false) :
    (s.icache i).dinode = s.onDisk i sb := by
  refine coherent.saved i live valid ?_
  cases dirty : s.unsaved i with
  | false => rfl
  | true =>
    have locked := (coherent.inv.entry i).locked.mpr (by rw [coherent.settled i dirty]; decide)
    rw [unlocked] at locked
    cases locked

theorem current_iff (coherent : Coherent sb s) : Current sb s ↔
    ∀ i, (s.icache i).ref = 0 → (s.icache i).valid = true → (s.icache i).dinode = s.onDisk i sb := by
  constructor
  · exact fun current i unused valid => current i valid (coherent.inv.unlocked unused)
  · intro idle i valid unlocked
    have counted := (coherent.inv.entry i).counted
    by_cases live : 0 < (s.icache i).ref
    · exact coherent.unlocked live valid unlocked
    · exact idle i (by omega) valid

theorem Local.current (same : Local s t i) (store : t.store = s.store) (before : Coherent sb s) (after : Coherent sb t)
    (current : Current sb s)
    (here : (t.icache i).ref = 0 → (t.icache i).valid = true → (t.icache i).dinode = t.onDisk i sb) :
    Current sb t := by
  refine (current_iff after).mpr fun j unused valid => ?_
  by_cases concerned : j = i
  · subst concerned
    exact here unused valid
  · rw [same.icache j concerned] at unused valid
    rw [State.onDisk, same.icache j concerned, store]
    exact (current_iff before).mp current j unused valid

theorem Local.current_used (same : Local s t i) (store : t.store = s.store) (before : Coherent sb s)
    (after : Coherent sb t) (current : Current sb s) (ref : (t.icache i).ref = (s.icache i).ref)
    (live : 0 < s.refs i) : Current sb t := by
  refine same.current store before after current fun unused => ?_
  have counted := (before.inv.entry i).counted
  omega

/-- Only `iupdate` can make an entry out of date, where it leaves an old copy. -/
theorem current_step (coherent : Coherent sb s) (proper : Proper a s) (saves : Saves a s) (current : Current sb s)
    (stepped : step sb a s = some t) : LeavesNoCopy a s ↔ Current sb t := by
  have after := coherent_step coherent proper saves stepped
  cases a with
  | iget dev inum =>
    refine iff_of_true trivial ?_
    obtain ⟨i, c, got, rfl⟩ := step_iget stepped
    rcases iget_cases got with ⟨_, live, _, rfl⟩ | ⟨_, _, rfl⟩
    · refine ((local_entry s i _).trans (local_refs _ i _)).current rfl coherent after current fun unused => ?_
      simp only [State.setEntry, State.setRefs, Function.update_self] at unused
      omega
    · refine ((local_entry s i _).trans (local_refs _ i _)).current rfl coherent after current fun unused => ?_
      simp [State.setEntry, State.setRefs] at unused
  | idup i =>
    refine iff_of_true trivial ?_
    cases stepped
    refine ((local_entry s i _).trans (local_refs _ i _)).current rfl coherent after current fun unused => ?_
    have live := coherent.inv.refs_pos.mpr proper
    simp only [State.setEntry, State.setRefs, Function.update_self] at unused
    omega
  | acquiresleep i =>
    refine iff_of_true trivial ?_
    obtain ⟨_, rfl⟩ := step_acquiresleep stepped
    refine ((local_entry s i _).trans (local_phase _ i _)).current_used rfl coherent after current ?_ proper
    simp [State.setEntry, State.setPhase]
  | fill i =>
    refine iff_of_true trivial ?_
    obtain ⟨filling, rfl⟩ := step_fill stepped
    have live := (coherent.inv.entry i).used (by rw [filling]; decide)
    refine ((local_entry s i _).trans (local_phase _ i _)).current_used rfl coherent after current ?_ live
    simp only [State.setEntry, State.setPhase, Function.update_self]
    split
    · rfl
    · rfl
  | modify i d =>
    refine iff_of_true trivial ?_
    obtain ⟨held, rfl⟩ := step_modify stepped
    have live := (coherent.inv.entry i).used (by rw [held]; decide)
    refine ((local_entry s i _).trans (local_unsaved _ i _)).current_used rfl coherent after current ?_ live
    simp [State.setEntry, State.setUnsaved, MemInode.load]
  | iupdate i log =>
    obtain ⟨held, u, isView, rfl⟩ := step_iupdate stepped
    have live := (coherent.inv.entry i).used (by rw [held]; decide)
    have counted := (coherent.inv.entry i).counted
    rw [current_iff after]
    constructor
    · intro leaves j unused valid
      by_cases sameInode : (s.icache j).dev = (s.icache i).dev ∧ (s.icache j).inum = (s.icache i).inum
      · obtain ⟨dev, inum⟩ := sameInode
        have written : diskInode sb u.view (s.icache i).inum = (s.icache i).dinode := by
          rw [isView, diskInode_putInode_self]
        simp only [State.onDisk, State.setStore, State.setUnsaved, dev, inum, Function.update_self, written]
        exact leaves j unused valid dev inum
      · have kept : ((s.setStore (s.icache i).dev u).setUnsaved i false).onDisk j sb = s.onDisk j sb := by
          simp only [State.onDisk, State.setStore, State.setUnsaved]
          by_cases dev : (s.icache j).dev = (s.icache i).dev
          · have inum : (s.icache j).inum ≠ (s.icache i).inum := fun same => sameInode ⟨dev, same⟩
            rw [dev, Function.update_self, isView, diskInode_putInode_of_ne inum]
          · rw [Function.update_of_ne dev]
        rw [kept]
        exact (current_iff coherent).mp current j unused valid
    · intro idle j unused valid dev inum
      have now := idle j unused valid
      simp only [State.onDisk, State.setStore, State.setUnsaved, dev, inum, Function.update_self, isView,
        diskInode_putInode_self] at now
      exact now
  | iunlock i =>
    refine iff_of_true trivial ?_
    obtain ⟨held, rfl⟩ := step_iunlock stepped
    have live := (coherent.inv.entry i).used (by rw [held]; decide)
    refine ((local_entry s i _).trans (local_phase _ i _)).current_used rfl coherent after current ?_ live
    simp [State.setEntry, State.setPhase]
  | iput i =>
    refine iff_of_true trivial ?_
    obtain rfl := step_iput proper stepped
    refine ((local_entry s i _).trans (local_refs _ i _)).current rfl coherent after current fun unused valid => ?_
    have counted := (coherent.inv.entry i).counted
    simp only [State.setEntry, State.setRefs, Function.update_self] at unused valid
    -- the last reference: nobody has locked the entry
    have free : s.phase i = .unlocked := by
      by_contra busy
      have others := proper.2.1 busy
      omega
    have unlocked : (s.icache i).locked = false := by
      cases locked : (s.icache i).locked with
      | false => rfl
      | true => exact absurd free ((coherent.inv.entry i).locked.mp locked)
    simp only [State.onDisk, State.setEntry, State.setRefs, Function.update_self]
    exact coherent.unlocked (coherent.inv.refs_pos.mpr proper.1) valid unlocked
  | free i log => exact absurd (step_free stepped) (coherent.inv.entry i).linked
  | unref i => exact absurd (step_unref stepped) (by rw [(coherent.inv.entry i).stays]; exact lt_irrefl 0)

/-! ## Every interleaving -/

variable {disk : UInt32 → UInt32 → Block} {acts : List Act}

/-- The cache keeps one copy of each inode in use, under its references, and what the copy says of the
inode is what its disk says unless somebody has it locked. A copy of an inode that is out of use is
up to date just as long as no update leaves it behind. -/
theorem icache_coherent (meets : Meets (step sb) Proper acts (start disk))
    (countable : Meets (step sb) Countable acts (start disk)) (ran : run (step sb) acts (start disk) = some t) :
    (∀ i j, 0 < (t.icache i).ref → 0 < (t.icache j).ref → (t.icache i).dev = (t.icache j).dev →
      (t.icache i).inum = (t.icache j).inum → i = j) ∧
    (∀ a u, Proper a t → step sb a t = some u → ∀ i, 0 < (t.icache i).ref → SameInode (t.icache i) (u.icache i)) ∧
    (∀ i, (t.icache i).ref = t.refs i ∧ (t.icache i).ref < 2 ^ 31) ∧
    (Meets (step sb) Saves acts (start disk) →
      (∀ i, 0 < (t.icache i).ref → (t.icache i).valid = true → (t.icache i).locked = false →
        (t.icache i).dinode = t.onDisk i sb) ∧
      (Meets (step sb) LeavesNoCopy acts (start disk) ↔
        ∀ first, first <+: acts → ∀ u, run (step sb) first (start disk) = some u → Current sb u)) := by
  have preserved : ∀ a s t, Inv s ∧ Counting s → Proper a s ∧ Countable a s → step sb a s = some t →
      Inv t ∧ Counting t := by
    intro a s t ⟨inv, counting⟩ ⟨proper, countable⟩ stepped
    exact ⟨inv_step inv proper stepped, counting_step counting inv proper countable stepped⟩
  have starts : Counting (start disk) := fun _ => (by decide : (0 : Int) < 2 ^ 31)
  obtain ⟨inv, counting⟩ :=
    run_invariant_of_meets preserved ⟨inv_start disk, starts⟩ (meets.and countable) ran
  refine ⟨inv.unique, fun a u proper stepped i live => sameInode_step inv proper stepped live,
    fun i => ⟨(inv.entry i).counted, counting i⟩, fun saves => ?_⟩
  have keeps : ∀ a s t, Coherent sb s → Proper a s ∧ Saves a s → step sb a s = some t → Coherent sb t :=
    fun a s t coherent both stepped => coherent_step coherent both.1 both.2 stepped
  have coherent := run_invariant_of_meets keeps (coherent_start disk) (meets.and saves) ran
  refine ⟨fun i live valid unlocked => coherent.unlocked live valid unlocked, ?_⟩
  exact Meets.iff_throughout keeps
    (fun a s t coherent both current stepped => current_step coherent both.1 both.2 current stepped)
    (coherent_start disk) (fun _ valid => Bool.noConfusion valid) (meets.and saves) ran

end

def linkedDisk (_ b : UInt32) : Block :=
  if b = iblock ROOTINO Mkfs.superblock then
    (Block.zero.setDinode (inodeIndex ROOTINO) ⟨T_DIR, 0, 0, 1, 0, fun _ => 0⟩).setDinode (inodeIndex 2)
      ⟨T_FILE, 0, 0, 1, 0, fun _ => 0⟩
  else Block.zero

def recycling : List Act :=
  [.iget ROOTDEV 1, .iget ROOTDEV 2, .acquiresleep ⟨1, by decide⟩, .fill ⟨1, by decide⟩, .iunlock ⟨1, by decide⟩,
    .iput ⟨1, by decide⟩, .iput ⟨0, by decide⟩, .iget ROOTDEV 2, .acquiresleep ⟨0, by decide⟩, .fill ⟨0, by decide⟩,
    .modify ⟨0, by decide⟩ ⟨T_FILE, 0, 0, 1, 7, fun _ => 0⟩, .iupdate ⟨0, by decide⟩ emptyLog,
      .iunlock ⟨0, by decide⟩]

theorem recycling_proper : Meets (step Mkfs.superblock) Proper recycling (start linkedDisk) := by
  decide +kernel

theorem recycling_saves : Meets (step Mkfs.superblock) Saves recycling (start linkedDisk) := by
  decide +kernel

def reusing : List Act :=
  [.iget ROOTDEV 1, .iget ROOTDEV 2, .acquiresleep ⟨1, by decide⟩, .fill ⟨1, by decide⟩,
    .modify ⟨1, by decide⟩ ⟨T_FILE, 0, 0, 1, 7, fun _ => 0⟩, .iupdate ⟨1, by decide⟩ emptyLog, .iunlock ⟨1, by decide⟩,
    .iput ⟨1, by decide⟩, .iput ⟨0, by decide⟩, .iget ROOTDEV 2, .idup ⟨0, by decide⟩, .acquiresleep ⟨0, by decide⟩,
    .fill ⟨0, by decide⟩, .iunlock ⟨0, by decide⟩]

theorem icache_coherent_recycling :
    (∃ t, run (step Mkfs.superblock) recycling (start linkedDisk) = some t ∧
      (t.icache ⟨0, by decide⟩).dinode = t.onDisk ⟨0, by decide⟩ Mkfs.superblock) ∧
    ∃ t, run (step Mkfs.superblock) reusing (start linkedDisk) = some t ∧ t.refs ⟨0, by decide⟩ = 2 ∧
      (t.icache ⟨0, by decide⟩).ref = 2 ∧ Current Mkfs.superblock t := by
  constructor
  · have countable : Meets (step Mkfs.superblock) Countable recycling (start linkedDisk) := by decide +kernel
    have ends : (run (step Mkfs.superblock) recycling (start linkedDisk)).any (fun t =>
        decide (0 < (t.icache ⟨0, by decide⟩).ref) &&
          (t.icache ⟨0, by decide⟩).valid && !(t.icache ⟨0, by decide⟩).locked) =
          true := by
      decide +kernel
    obtain ⟨t, ran, holds⟩ := (Option.any_eq_true _ _).mp ends
    rw [Bool.and_eq_true, Bool.and_eq_true, Bool.not_eq_true', decide_eq_true_eq] at holds
    obtain ⟨_, _, _, agrees⟩ := icache_coherent recycling_proper countable ran
    exact ⟨t, ran, (agrees recycling_saves).1 _ holds.1.1 holds.1.2 holds.2⟩
  · have proper : Meets (step Mkfs.superblock) Proper reusing (start linkedDisk) := by decide +kernel
    have countable : Meets (step Mkfs.superblock) Countable reusing (start linkedDisk) := by decide +kernel
    have saves : Meets (step Mkfs.superblock) Saves reusing (start linkedDisk) := by decide +kernel
    have leaves : Meets (step Mkfs.superblock) LeavesNoCopy reusing (start linkedDisk) := by decide +kernel
    obtain ⟨t, ran, twice⟩ := Option.map_eq_some_iff.mp
      (show (run (step Mkfs.superblock) reusing (start linkedDisk)).map (fun t => t.refs ⟨0, by decide⟩) = some 2 by
        decide +kernel)
    obtain ⟨_, _, counted, agrees⟩ := icache_coherent proper countable ran
    refine ⟨t, ran, twice, ?_, (agrees saves).2.mp leaves reusing List.prefix_rfl t ran⟩
    rw [(counted _).1, twice]
    rfl

/-- The entry that has been put first keeps the old size, valid and unlocked. -/
theorem icache_stale : ¬ ∀ (sb : Superblock) (disk : UInt32 → UInt32 → Block) (acts : List Act) (t : State),
    Meets (step sb) Proper acts (start disk) → Meets (step sb) Saves acts (start disk) →
    run (step sb) acts (start disk) = some t → ∀ i, (t.icache i).valid = true → (t.icache i).locked = false →
      (t.icache i).dinode = t.onDisk i sb := by
  intro always
  have ends : (run (step Mkfs.superblock) recycling (start linkedDisk)).any (fun t =>
      (t.icache ⟨1, by decide⟩).valid && !(t.icache ⟨1, by decide⟩).locked &&
        (t.icache ⟨1, by decide⟩).dinode.size != (t.onDisk ⟨1, by decide⟩ Mkfs.superblock).size) = true := by
    decide +kernel
  obtain ⟨t, ran, holds⟩ := (Option.any_eq_true _ _).mp ends
  rw [Bool.and_eq_true, Bool.and_eq_true, Bool.not_eq_true', bne_iff_ne] at holds
  have same := always _ _ _ _ recycling_proper recycling_saves ran ⟨1, by decide⟩ holds.1.1 holds.1.2
  exact holds.2 (congrArg Dinode.size same)

end Xv6.Icache
