import Mathlib.Data.List.TakeWhile
import Xv6.Fs.Linking

/-! Path names as walks through the directories of the disk.

A path is cut at its slashes, and every element is looked up in the map of a directory. `namei` and
`nameiparent` return what the walk reaches, with one new reference and with no lock.
-/

set_option autoImplicit false

namespace Xv6

open Library

/-! ## Elements of a path -/

/-- The elements of a path: what stands between slashes, up to the end of the string. -/
def elements (path : List UInt8) : List Label :=
  (((path.takeWhile (· ≠ 0)).splitOn slash).filter (· ≠ [])).map fun s => (Name.ofString s).label

theorem slash_ne_zero : slash ≠ 0 := by decide

theorem strncpy_string {s : List UInt8} {f : Name} {n : Nat} (agrees : ∀ i, i < n → i < s.length → f i = s.getD i 0)
    (ends : s.length < n → f s.length = 0) (real : ∀ c ∈ s, c ≠ 0) :
    strncpy f n = s.take n ++ List.replicate (n - s.length) 0 := by
  induction n generalizing s f with
  | zero => simp [strncpy]
  | succ n ih =>
    cases s with
    | nil =>
      have ended : f 0 = 0 := ends (Nat.succ_pos n)
      rw [strncpy_empty ended]
      rfl
    | cons c s =>
      have first : f 0 = c := agrees 0 (Nat.succ_pos n) (Nat.succ_pos _)
      have more : c ≠ 0 := real c List.mem_cons_self
      have rest : strncpy (fun i => f (i + 1)) n = s.take n ++ List.replicate (n - s.length) 0 := by
        apply ih
        · intro i less inside
          exact agrees (i + 1) (Nat.succ_lt_succ less) (Nat.succ_lt_succ inside)
        · intro short
          exact ends (Nat.succ_lt_succ short)
        · intro d member
          exact real d (List.mem_cons_of_mem c member)
      rw [strncpy, first, if_pos more, rest, List.take_succ_cons, List.length_cons, Nat.succ_sub_succ]
      rfl

/-- The name of an element is that of its string, though `skipelem` may leave bytes behind it. -/
theorem label_store (name : Name) {s : List UInt8} (real : ∀ c ∈ s, c ≠ 0) :
    (if s.length ≥ dirsiz then name.store (s.take dirsiz) else name.store (s ++ [0])).label =
      (Name.ofString s).label := by
  have string : strncpy (Name.ofString s) dirsiz = s.take dirsiz ++ List.replicate (dirsiz - s.length) 0 := by
    refine strncpy_string (fun _ _ _ => rfl) (fun _ => ?_) real
    rw [Name.ofString, List.getD_eq_getElem?_getD, List.getElem?_eq_none (Nat.le_refl _), Option.getD_none]
  have stored : strncpy (if s.length ≥ dirsiz then name.store (s.take dirsiz) else name.store (s ++ [0])) dirsiz =
      s.take dirsiz ++ List.replicate (dirsiz - s.length) 0 := by
    refine strncpy_string (fun i less inside => ?_) (fun short => ?_) real
    · split
      · simp [Name.store, List.getD_eq_getElem?_getD, less, inside]
      · simp [Name.store, List.getD_eq_getElem?_getD, List.getElem?_append_left inside, inside]
    · rw [if_neg (Nat.not_le_of_lt short)]
      simp [Name.store, List.getD_eq_getElem?_getD]
  funext i
  rw [Name.label, Name.label, string, stored]

theorem elements_slash (path : List UInt8) : elements (slash :: path) = elements path := by
  rw [elements, elements, List.takeWhile_cons_of_pos (by simp [slash_ne_zero])]
  have splits := List.splitOn_append_cons_self (a := slash) [] (path.takeWhile (· ≠ 0))
  rw [List.nil_append, List.splitOn_nil] at splits
  rw [splits]
  rfl

theorem elements_dropWhile (path : List UInt8) : elements (path.dropWhile (· = slash)) = elements path := by
  induction path with
  | nil => rfl
  | cons c path ih =>
    by_cases here : c = slash
    · subst here
      rw [List.dropWhile_cons_of_pos (by simp), ih, elements_slash]
    · rw [List.dropWhile_cons_of_neg (by simpa using here)]

theorem elements_ended {path : List UInt8} (ended : path.headD 0 = 0) : elements path = [] := by
  have nothing : path.takeWhile (· ≠ 0) = [] := by
    cases path with
    | nil => rfl
    | cons c path =>
      have zero : c = 0 := ended
      rw [List.takeWhile_cons_of_neg (by simp [zero])]
  rw [elements, nothing, List.splitOn_nil]
  rfl

theorem elements_first {s rest : List UInt8} (some : s ≠ []) (inside : ∀ c ∈ s, c ≠ slash ∧ c ≠ 0)
    (stops : rest.headD 0 = slash ∨ rest.headD 0 = 0) :
    elements (s ++ rest) = (Name.ofString s).label :: elements rest := by
  have real : ∀ c ∈ s, decide (c ≠ 0) = true := fun c member => by simpa using (inside c member).2
  have whole : (s ++ rest).takeWhile (· ≠ 0) = s ++ rest.takeWhile (· ≠ 0) := List.takeWhile_append_of_pos real
  have noSlash : slash ∉ s := fun member => (inside slash member).1 rfl
  rcases stops with isSlash | ended
  · cases rest with
    | nil => exact absurd isSlash.symm slash_ne_zero
    | cons c rest =>
      have here : c = slash := isSlash
      subst here
      rw [elements_slash, elements, whole, List.takeWhile_cons_of_pos (by simp [slash_ne_zero]),
        List.splitOn_append_cons_self, List.splitOn_eq_singleton noSlash]
      simp [elements, some]
  · have nothing : rest.takeWhile (· ≠ 0) = [] := by
      cases rest with
      | nil => rfl
      | cons c rest =>
        have zero : c = 0 := ended
        rw [List.takeWhile_cons_of_neg (by simp [zero])]
    rw [elements_ended ended, elements, whole, nothing, List.append_nil, List.splitOn_eq_singleton noSlash]
    simp [some]

theorem skipelem_elements (path : List UInt8) (name : Name) :
    match skipelem path name with
    | none => elements path = []
    | some (rest, name') => elements path = name'.label :: elements rest ∧ rest.length < path.length := by
  obtain ⟨start, isStart⟩ : ∃ start, start = path.dropWhile (· = slash) := ⟨_, rfl⟩
  have same : elements start = elements path := isStart ▸ elements_dropWhile path
  have shorter : start.length ≤ path.length := isStart ▸ (List.dropWhile_suffix _).length_le
  rw [skipelem, ← isStart]
  dsimp only
  by_cases ended : start.headD 0 = 0
  · rw [if_pos ended]
    dsimp only
    rw [← same, elements_ended ended]
  · obtain ⟨s, isS⟩ : ∃ s, s = start.takeWhile fun c => c ≠ slash ∧ c ≠ 0 := ⟨_, rfl⟩
    obtain ⟨rest, isRest⟩ : ∃ rest, rest = start.dropWhile fun c => c ≠ slash ∧ c ≠ 0 := ⟨_, rfl⟩
    have whole : s ++ rest = start := by rw [isS, isRest, List.takeWhile_append_dropWhile]
    have left : start.drop s.length = rest := by rw [← whole, List.drop_left]
    have inside : ∀ c ∈ s, c ≠ slash ∧ c ≠ 0 := by
      intro c member
      rw [isS] at member
      simpa using List.mem_takeWhile_imp member
    have stops : rest.headD 0 = slash ∨ rest.headD 0 = 0 := by
      have head := List.head?_dropWhile_not (fun c => decide (c ≠ slash ∧ c ≠ 0)) start
      rw [← isRest] at head
      cases rest with
      | nil => exact .inr rfl
      | cons c rest =>
        have not := of_decide_eq_false head
        rw [not_and_or, not_not, not_not] at not
        exact not
    have nonempty : s ≠ [] := by
      cases start with
      | nil => exact absurd rfl ended
      | cons c rest =>
        -- the slashes before the element have been skipped
        have notSlash : c ≠ slash := by
          have head := List.head?_dropWhile_not (fun c => decide (c = slash)) path
          rw [← isStart] at head
          exact of_decide_eq_false head
        have notZero : c ≠ 0 := ended
        rw [isS, List.takeWhile_cons_of_pos (by simp [notSlash, notZero])]
        exact List.cons_ne_nil _ _
    rw [if_neg ended]
    dsimp only
    rw [← isS, left, label_store name fun c member => (inside c member).2, elements_dropWhile, ← same, ← whole,
      elements_first nonempty inside stops]
    refine ⟨rfl, ?_⟩
    have less : rest.length < start.length := by
      rw [← whole, List.length_append]
      have some := List.length_pos_of_ne_nil nonempty
      omega
    exact ((List.dropWhile_suffix _).length_le.trans_lt less).trans_le shorter

theorem elements_nil_iff {path : List UInt8} (first : path.headD 0 ≠ slash) :
    elements path = [] ↔ path.headD 0 = 0 := by
  constructor
  · intro none
    by_contra more
    have here : path.dropWhile (· = slash) = path := by
      cases path with
      | nil => rfl
      | cons c path => exact List.dropWhile_cons_of_neg (by simpa using first)
    have takes := skipelem_elements path fun _ => 0
    rw [skipelem, here] at takes
    dsimp only at takes
    rw [if_neg more, none] at takes
    exact absurd takes.1.symm (List.cons_ne_nil _ _)
  · exact elements_ended

theorem skipelem_rest {path rest : List UInt8} {name name' : Name} (took : skipelem path name = some (rest, name')) :
    rest.headD 0 ≠ slash := by
  rw [skipelem] at took
  dsimp only at took
  split at took
  · cases took
  · obtain ⟨rfl, -⟩ := Prod.mk.inj (Option.some.inj took)
    obtain ⟨behind, isBehind⟩ : ∃ behind, behind = (path.dropWhile (· = slash)).drop
      ((path.dropWhile (· = slash)).takeWhile fun c => c ≠ slash ∧ c ≠ 0).length := ⟨_, rfl⟩
    rw [← isBehind]
    have head := List.head?_dropWhile_not (fun c => decide (c = slash)) behind
    cases left : behind.dropWhile (· = slash) with
    | nil => exact slash_ne_zero.symm
    | cons c rest =>
      rw [left] at head
      exact of_decide_eq_false head

/-! ## Walks -/

namespace Fs

def directory (sb : Superblock) (view : UInt32 → Block) (g : UInt32) : Option (Label → Option UInt16) :=
  if (diskInode sb view g).type = T_DIR then
    some (bindings (entriesAt view (diskInode sb view g).addrs 0 ((diskInode sb view g).size.toNat / direntSize)))
  else none

/-- The inode that a list of names leads to. -/
def walk (dirs : UInt32 → Option (Label → Option UInt16)) : UInt32 → List Label → Option UInt32
  | g, [] => some g
  | g, e :: es => (dirs g).bind fun d => (d e).bind fun h => walk dirs h.toUInt32 es

def resolve (dirs : UInt32 → Option (Label → Option UInt16)) (parent : Bool) :
    UInt32 → List Label → Option (UInt32 × Option Label)
  | g, [] => if parent then none else some (g, none)
  | g, e :: es => (dirs g).bind fun d =>
    if parent ∧ es = [] then some (g, some e) else (d e).bind fun h => resolve dirs parent h.toUInt32 es

theorem resolve_end (dirs : UInt32 → Option (Label → Option UInt16)) (g : UInt32) (es : List Label) :
    resolve dirs false g es = (walk dirs g es).map fun h => (h, none) := by
  induction es generalizing g with
  | nil => rfl
  | cons e es ih =>
    rw [resolve, walk]
    cases dirs g with
    | none => rfl
    | some d =>
      simp only [Option.bind_some, Bool.false_eq_true, false_and, if_false]
      cases d e with
      | none => rfl
      | some h => exact ih h.toUInt32

-- The parent is what all names but the last lead to, if it is a directory.
theorem resolve_parent (dirs : UInt32 → Option (Label → Option UInt16)) (g : UInt32) (es : List Label) (e : Label) :
    resolve dirs true g (es ++ [e]) = (walk dirs g es).bind fun h => (dirs h).map fun _ => (h, some e) := by
  induction es generalizing g with
  | nil =>
    rw [List.nil_append, resolve, walk, Option.bind_some]
    cases dirs g <;> rfl
  | cons f es ih =>
    have more : es ++ [e] ≠ [] := by simp
    rw [List.cons_append, resolve, walk]
    cases dirs g with
    | none => rfl
    | some d =>
      simp only [Option.bind_some, more, and_false, if_false]
      cases d f with
      | none => rfl
      | some h => exact ih h.toUInt32

/-! ## Between two operations -/

/-- The copies of inodes in memory are those on the disk, where no inode in use has a hole, is without
links, or names a free inode. -/
structure Settled (sb : Superblock) (m : Machine) : Prop where
  whole : ∀ g, Present sb m.store.view g → Whole sb m.store.view (diskInode sb m.store.view g)
  entries : ∀ g, Present sb m.store.view g → (diskInode sb m.store.view g).type = T_DIR →
    (diskInode sb m.store.view g).size.toNat % direntSize = 0
  counted : ∀ i, 0 ≤ (m.icache i).ref
  live : ∀ i, 0 < (m.icache i).ref → (m.icache i).dev = ROOTDEV ∧ Present sb m.store.view (m.icache i).inum
  saved : ∀ i, 0 < (m.icache i).ref → (m.icache i).valid = true →
    (m.icache i).dinode = diskInode sb m.store.view (m.icache i).inum

variable {sb : Superblock} {devsw : Fin ndev → Devsw UInt32} {m m' t : Machine} {i : Fin ninode}

theorem Settled.replace (settled : Settled sb m) {e : MemInode} (counted : 0 ≤ e.ref)
    (live : 0 < e.ref → e.dev = ROOTDEV ∧ Present sb m.store.view e.inum)
    (saved : 0 < e.ref → e.valid = true → e.dinode = diskInode sb m.store.view e.inum) :
    Settled sb { m with icache := Function.update m.icache i e } where
  whole := settled.whole
  entries := settled.entries
  counted j := by
    dsimp only
    by_cases here : j = i
    · rw [here, Function.update_self]
      exact counted
    · rw [Function.update_of_ne here]
      exact settled.counted j
  live j := by
    dsimp only
    by_cases here : j = i
    · rw [here, Function.update_self]
      exact live
    · rw [Function.update_of_ne here]
      exact settled.live j
  saved j := by
    dsimp only
    by_cases here : j = i
    · rw [here, Function.update_self]
      exact saved
    · rw [Function.update_of_ne here]
      exact settled.saved j

def Stays (m m' : Machine) : Prop := ∀ j, 0 < (m.icache j).ref → (m'.icache j).inum = (m.icache j).inum

theorem Stays.update {e : MemInode} (cache : m'.icache = Function.update m.icache i e)
    (same : 0 < (m.icache i).ref → e.inum = (m.icache i).inum) : Stays m m' := by
  intro j used
  rw [cache]
  by_cases here : j = i
  · subst here
    rw [Function.update_self]
    exact same used
  · rw [Function.update_of_ne here]

theorem Stays.trans (first : Stays m m') (second : Stays m' t)
    (used : ∀ j, 0 < (m.icache j).ref → 0 < (m'.icache j).ref) : Stays m t :=
  fun j inUse => (second j (used j inUse)).trans (first j inUse)

theorem Settled.iget (settled : Settled sb m) {c : Icache} {g : UInt32} (present : Present sb m.store.view g)
    (got : m.icache.iget ROOTDEV g = some (i, c)) :
    Settled sb { m with icache := c } ∧ Moves (one i) m { m with icache := c } ∧ (c i).inum = g ∧
      Stays m { m with icache := c } := by
  obtain ⟨ip, isC, ref, lock⟩ := iget_alike got
  refine ⟨?_, Moves.update isC ref lock, ?_, ?_⟩
  · rcases Icache.iget_cases got with ⟨_, used, _, rfl⟩ | ⟨_, unused, rfl⟩
    · exact settled.replace (by dsimp only; omega) (fun _ => settled.live i used) fun _ => settled.saved i used
    · exact settled.replace (by dsimp only; omega) (fun _ => ⟨rfl, present⟩) fun _ valid => Bool.noConfusion valid
  · rcases Icache.iget_cases got with ⟨same, _, _, rfl⟩ | ⟨_, _, rfl⟩
    · rw [Function.update_self]
      exact same
    · rw [Function.update_self]
  · rcases Icache.iget_cases got with ⟨_, _, _, rfl⟩ | ⟨_, unused, rfl⟩
    · exact Stays.update rfl fun _ => rfl
    · exact Stays.update rfl fun used => absurd used (by omega)

end Fs

/-! ## The functions of the search -/

namespace Inodes

open Fs

variable {sb : Superblock} {devsw : Fin ndev → Devsw UInt32} {m₀ m m' t : Machine} {i : Fin ninode} {name : Name}

theorem ilock_run
    (saved : (m.icache i).valid = true → (m.icache i).dinode = diskInode sb m.store.view (m.icache i).inum)
    (unlocked : (m.icache i).locked = false) :
    (ilock i).run (Machine.handle sb devsw) m = some ((), { m with
      icache := Function.update m.icache i { (m.icache i).load (diskInode sb m.store.view (m.icache i).inum) with
        locked := true, valid := true } }) := by
  have free : ¬ (m.icache i).locked = true := by rw [unlocked]; exact Bool.false_ne_true
  have locks : (Fs.ilock sb m.icache i).run Store.handle m.store = some (Function.update m.icache i
      { (m.icache i).load (diskInode sb m.store.view (m.icache i).inum) with locked := true, valid := true },
      m.store) := by
    rw [Fs.ilock, if_neg free]
    by_cases valid : (m.icache i).valid = true
    · have same : (m.icache i).load (diskInode sb m.store.view (m.icache i).inum) = m.icache i := by
        rw [← saved valid]
        rfl
      rw [if_pos valid, same, ← valid]
      rfl
    · rw [if_neg valid]
      rfl
  apply run_answered
  rw [Machine.handle_ilock, Machine.call, locks]
  rfl

theorem iunlock_run (i : Fin ninode) (m : Machine) : (iunlock i).run (Machine.handle sb devsw) m =
    some ((), { m with icache := m.icache.iunlock i }) := run_answered rfl

variable (sb devsw) in
theorem iput_run (kept : ¬ ((m.icache i).ref = 1 ∧ (m.icache i).valid = true ∧ (m.icache i).nlink = 0)) :
    (iput i).run (Machine.handle sb devsw) m = some ((), { m with
      icache := Function.update m.icache i { m.icache i with ref := (m.icache i).ref - 1 } }) := by
  apply run_answered
  rw [Machine.handle_iput, Machine.call, Fs.iput, if_neg kept]
  rfl

theorem iunlockput_run (kept : (m.icache i).valid = true → (m.icache i).nlink ≠ 0) :
    (iunlockput i).run (Machine.handle sb devsw) m = some ((), { m with
      icache := Function.update m.icache i { m.icache i with locked := false, ref := (m.icache i).ref - 1 } }) := by
  rw [iunlockput]
  refine (run_seq (iunlock_run i m) _).trans ?_
  refine (iput_run sb devsw ?_).trans ?_
  · dsimp only [Icache.iunlock]
    rw [Function.update_self]
    exact fun frees => kept frees.2.1 frees.2.2
  · dsimp only [Icache.iunlock]
    rw [Function.update_self, Function.update_idem]

/-- The search has come to an entry of the cache: it has one reference, and nothing else has changed. -/
structure Reached (sb : Superblock) (m₀ m : Machine) (i : Fin ninode) : Prop where
  settled : Settled sb m
  store : m.store = m₀.store
  log : m.log = m₀.log
  moves : Moves (one i) m₀ m
  stays : Stays m₀ m

/-- The search has ended without an inode. -/
structure Ended (sb : Superblock) (m₀ m : Machine) : Prop where
  settled : Settled sb m
  store : m.store = m₀.store
  log : m.log = m₀.log
  moves : Moves 0 m₀ m
  stays : Stays m₀ m

/-- Nobody holds a lock, and two entries of the cache are free. -/
structure Vacant (m : Machine) : Prop where
  unlocked : ∀ j, (m.icache j).locked = false
  spare : ∃ a b, a ≠ b ∧ (m.icache a).ref = 0 ∧ (m.icache b).ref = 0

namespace Reached

theorem ref (reached : Reached sb m₀ m i) (j : Fin ninode) :
    (m.icache j).ref = (m₀.icache j).ref + if j = i then 1 else 0 := by
  have refs := congrFun reached.moves.refs j
  rw [Pi.add_apply, one, Pi.single_apply] at refs
  exact refs

theorem keeps (reached : Reached sb m₀ m i) (j : Fin ninode) (used : 0 < (m₀.icache j).ref) : 0 < (m.icache j).ref := by
  have ref := reached.ref j
  split at ref <;> omega

theorem used (reached : Reached sb m₀ m i) (start : Settled sb m₀) : 0 < (m.icache i).ref := by
  have counted := start.counted i
  rw [reached.ref, if_pos rfl]
  omega

theorem unlocked (reached : Reached sb m₀ m i) (vacant : Vacant m₀) (j : Fin ninode) : (m.icache j).locked = false := by
  have locks := congrFun reached.moves.locks j
  exact locks.trans (vacant.unlocked j)

theorem spare (reached : Reached sb m₀ m i) (vacant : Vacant m₀) : ∃ a, a ≠ i ∧ (m.icache a).ref = 0 := by
  obtain ⟨a, b, apart, freeA, freeB⟩ := vacant.spare
  by_cases here : a = i
  · have other : b ≠ i := fun same => apart (here.trans same.symm)
    refine ⟨b, other, ?_⟩
    rw [reached.ref, if_neg other, freeB]
    rfl
  · refine ⟨a, here, ?_⟩
    rw [reached.ref, if_neg here, freeA]
    rfl

end Reached

theorem linked (settled : Settled sb m) (used : 0 < (m.icache i).ref) (valid : (m.icache i).valid = true) :
    (m.icache i).nlink ≠ 0 := by
  have whole := settled.whole _ (settled.live i used).2
  rw [← settled.saved i used valid] at whole
  exact whole.linked

theorem settled_put (settled : Settled sb m) (used : 0 < (m.icache i).ref) : Settled sb { m with
    icache := Function.update m.icache i { m.icache i with locked := false, ref := (m.icache i).ref - 1 } } := by
  refine settled.replace ?_ (fun _ => settled.live i used) fun _ => settled.saved i used
  dsimp only
  omega

-- The entry of a directory that has been locked lists what is on the disk.
theorem lists_locked (settled : Settled sb m) (present : Present sb m.store.view (m.icache i).inum)
    (same : (m.icache i).dinode = diskInode sb m.store.view (m.icache i).inum) (isDir : (m.icache i).type = T_DIR) :
    Lists m i (entriesAt m.store.view (m.icache i).addrs 0 ((m.icache i).size.toNat / direntSize)) := by
  have whole := settled.whole _ present
  have aligned := settled.entries _ present
  rw [← same] at whole aligned
  refine ⟨isDir, whole.filled, ?_, ?_⟩
  · rw [length_entriesAt]
    exact (Nat.mul_div_cancel' (Nat.dvd_of_mod_eq_zero (aligned isDir))).symm
  · rw [length_entriesAt]

theorem present_named (settled : Settled sb m) (present : Present sb m.store.view (m.icache i).inum)
    (same : (m.icache i).dinode = diskInode sb m.store.view (m.icache i).inum) (isDir : (m.icache i).type = T_DIR)
    {k : Label} {g : UInt16}
    (found : bindings (entriesAt m.store.view (m.icache i).addrs 0 ((m.icache i).size.toNat / direntSize)) k = some g) :
    Present sb m.store.view g.toUInt32 := by
  have whole := settled.whole _ present
  rw [← same] at whole
  obtain ⟨de, took, rfl⟩ := Option.map_eq_some_iff.mp found
  obtain ⟨member, named⟩ := Slots.get_some took
  obtain ⟨j, here⟩ := List.mem_iff_getElem?.mp member
  rw [getElem?_entriesAt] at here
  split at here
  · next less =>
    rw [Nat.zero_add, Option.some.injEq] at here
    subst here
    have real : (entryAt m.store.view (m.icache i).addrs (direntSize * j)).inum ≠ 0 := by
      intro zero
      rw [Dirent.key_eq_none.mpr zero] at named
      cases named
    have inside : direntSize * j + direntSize ≤ (m.icache i).size.toNat := by
      rw [← Nat.mul_succ]
      exact (Nat.mul_le_mul_left _ less).trans (Nat.mul_div_le _ _)
    exact whole.named isDir _ (Nat.mul_mod_right _ _) inside real
  · cases here

section
variable (start : Settled sb m₀) (vacant : Vacant m₀)
include start

variable (devsw name) in
theorem namexEnd_run (reached : Reached sb m₀ m i) (parent : Bool) :
    ∃ out t, (namexEnd parent i name).run (Machine.handle sb devsw) m = some (out, t) ∧
      if parent then out = none ∧ Ended sb m₀ t else out = some (i, name) ∧ Reached sb m₀ t i := by
  have used := reached.used start
  cases parent with
  | false => exact ⟨_, m, rfl, rfl, reached⟩
  | true =>
    have kept : ¬ ((m.icache i).ref = 1 ∧ (m.icache i).valid = true ∧ (m.icache i).nlink = 0) :=
      fun frees => linked reached.settled used frees.2.1 frees.2.2
    have puts := iput_run sb devsw kept
    refine ⟨none, _, (run_seq puts _).trans rfl, rfl, ?_, reached.store, reached.log, ?_, ?_⟩
    · refine reached.settled.replace ?_ (fun _ => reached.settled.live i used) fun _ => reached.settled.saved i used
      dsimp only
      omega
    · have back : Moves (Pi.single i (-1)) m { m with
          icache := Function.update m.icache i { m.icache i with ref := (m.icache i).ref - 1 } } :=
        Moves.update rfl (by dsimp only; omega) rfl
      have both := reached.moves.trans back
      rwa [one, ← Pi.single_add, Int.add_right_neg, Pi.single_zero] at both
    · exact reached.stays.trans (Stays.update rfl fun _ => rfl) reached.keeps

end

variable (devsw) in
theorem settled_iunlockput (settled : Settled sb m) (used : 0 < (m.icache i).ref) :
    ∃ t, (iunlockput i).run (Machine.handle sb devsw) m = some ((), t) ∧ Settled sb t ∧ t.store = m.store ∧
      t.log = m.log ∧ refs t = refs m + Pi.single i (-1) ∧ locks t = Function.update (locks m) i false ∧
      ∀ j, (t.icache j).inum = (m.icache j).inum := by
  refine ⟨_, iunlockput_run fun valid => linked settled used valid, settled_put settled used, rfl, rfl, ?_,
    (locks_update rfl).trans rfl, fun j => ?_⟩
  · exact refs_update rfl (by dsimp only; omega)
  · by_cases here : j = i
    · subst here
      dsimp only
      rw [Function.update_self]
    · dsimp only
      rw [Function.update_of_ne here]

def entriesOf (m : Machine) (i : Fin ninode) : List Dirent :=
  entriesAt m.store.view (m.icache i).addrs 0 ((m.icache i).size.toNat / direntSize)

/-- The inode has been locked, and has the fields that it has on the disk. -/
structure Opened (sb : Superblock) (m₀ m m₁ : Machine) (i : Fin ninode) : Prop where
  settled : Settled sb m₁
  store : m₁.store = m.store
  log : m₁.log = m.log
  refs : refs m₁ = refs m
  locks : locks m₁ = Function.update (locks m₀) i true
  used : 0 < (m₁.icache i).ref
  inum : ∀ j, (m₁.icache j).inum = (m.icache j).inum
  fields : (m₁.icache i).dinode = diskInode sb m.store.view (m.icache i).inum

variable (devsw) in
theorem Reached.opens (reached : Reached sb m₀ m i) (start : Settled sb m₀) (vacant : Vacant m₀) :
    ∃ m₁, (ilock i).run (Machine.handle sb devsw) m = some ((), m₁) ∧ Opened sb m₀ m m₁ i := by
  have used := reached.used start
  have settled := reached.settled
  have live := settled.live i used
  refine ⟨_, ilock_run (settled.saved i used) (reached.unlocked vacant i), ?_, rfl, rfl, ?_, ?_, ?_, fun j => ?_, ?_⟩
  · exact settled.replace (settled.counted i) (fun _ => live) fun _ _ => rfl
  · refine (refs_update (d := 0) rfl ?_).trans ?_
    · exact (Int.add_zero _).symm
    · rw [Pi.single_zero, add_zero]
  · rw [← reached.moves.locks]
    exact (locks_update rfl).trans rfl
  · dsimp only
    rw [Function.update_self]
    exact used
  · dsimp only
    by_cases here : j = i
    · subst here
      rw [Function.update_self]
      rfl
    · rw [Function.update_of_ne here]
  · dsimp only
    rw [Function.update_self]
    rfl

namespace Opened

variable {m₁ : Machine}

theorem same (opened : Opened sb m₀ m m₁ i) : (m₁.icache i).dinode = diskInode sb m₁.store.view (m₁.icache i).inum := by
  rw [opened.store, opened.inum i, opened.fields]

theorem keeps (opened : Opened sb m₀ m m₁ i) (reached : Reached sb m₀ m i) {j : Fin ninode}
    (used : 0 < (m₀.icache j).ref) : 0 < (m₁.icache j).ref :=
  lt_of_lt_of_eq (reached.keeps j used) (congrFun opened.refs j).symm

theorem present (opened : Opened sb m₀ m m₁ i) : Present sb m₁.store.view (m₁.icache i).inum :=
  (opened.settled.live i opened.used).2

theorem directory (opened : Opened sb m₀ m m₁ i) : Fs.directory sb m.store.view (m.icache i).inum =
    if (m₁.icache i).type = T_DIR then some (bindings (entriesOf m₁ i)) else none := by
  rw [Fs.directory, ← opened.fields, entriesOf, opened.store]
  rfl

variable (devsw) in
theorem ends (opened : Opened sb m₀ m m₁ i) (reached : Reached sb m₀ m i) (vacant : Vacant m₀) :
    ∃ t, (iunlockput i).run (Machine.handle sb devsw) m₁ = some ((), t) ∧ Ended sb m₀ t := by
  obtain ⟨t, puts, settled, store, log, refs, locks, inums⟩ := settled_iunlockput devsw opened.settled opened.used
  have inum : Stays m t := fun j _ => (inums j).trans (opened.inum j)
  refine ⟨t, puts, settled, (store.trans opened.store).trans reached.store, (log.trans opened.log).trans reached.log,
    ⟨?_, ?_⟩, reached.stays.trans inum reached.keeps⟩
  · rw [refs, opened.refs, reached.moves.refs, one, add_assoc, ← Pi.single_add, Int.add_right_neg, Pi.single_zero]
  · rw [locks, opened.locks, Function.update_idem]
    exact Function.update_eq_self_iff.mpr (vacant.unlocked i).symm

theorem stops (opened : Opened sb m₀ m m₁ i) (reached : Reached sb m₀ m i) (vacant : Vacant m₀) :
    Reached sb m₀ { m₁ with icache := m₁.icache.iunlock i } i := by
  refine ⟨?_, opened.store.trans reached.store, opened.log.trans reached.log, ⟨?_, ?_⟩, ?_⟩
  · exact opened.settled.replace (opened.settled.counted i) (opened.settled.live i) (opened.settled.saved i)
  · refine (refs_update (s := m₁) (d := 0) rfl ?_).trans ?_
    · exact (Int.add_zero _).symm
    · rw [Pi.single_zero, add_zero, opened.refs, reached.moves.refs]
  · refine (locks_update (s := m₁) rfl).trans ?_
    rw [opened.locks, Function.update_idem]
    exact Function.update_eq_self_iff.mpr (vacant.unlocked i).symm
  · have unlocks : Stays m₁ { m₁ with icache := m₁.icache.iunlock i } := Stays.update rfl fun _ => rfl
    intro j used
    have still := opened.keeps reached used
    rw [unlocks j still, opened.inum j, reached.stays j used]

variable (devsw) in
theorem goes (opened : Opened sb m₀ m m₁ i) (reached : Reached sb m₀ m i) (vacant : Vacant m₀)
    (isDir : (m₁.icache i).type = T_DIR) {g : UInt16} (found : bindings (entriesOf m₁ i) name.label = some g) :
    ∃ ip off m₂ t, (dirlookup i name).run (Machine.handle sb devsw) m₁ = some (some (ip, off), m₂) ∧
      (iunlockput i).run (Machine.handle sb devsw) m₂ = some ((), t) ∧ Reached sb m₀ t ip ∧
      (t.icache ip).inum = g.toUInt32 := by
  have lists := lists_locked opened.settled opened.present opened.same isDir
  have device := (opened.settled.live i opened.used).1
  have named := present_named opened.settled opened.present opened.same isDir found
  obtain ⟨a, _, spare⟩ := reached.spare vacant
  have spare₁ : (m₁.icache a).ref = 0 := (congrFun opened.refs a).trans spare
  rcases dirlookup_run sb devsw name lists with ⟨absent, _⟩ | ⟨h, j, here, _, looks⟩
  · cases absent.symm.trans found
  · obtain rfl : g = h := Option.some.inj (found.symm.trans here)
    obtain ⟨⟨ip, c⟩, got⟩ := iget_of_spare spare₁ (m₁.icache i).dev g.toUInt32
    rw [got] at looks
    rw [device] at got
    obtain ⟨settled₂, moves₂, inum₂, stays₂⟩ := opened.settled.iget named got
    have refs₂ := congrFun moves₂.refs i
    have used₂ : 0 < (c i).ref := by
      have gained : (0 : Int) ≤ one ip i := by
        rw [one, Pi.single_apply]
        split <;> decide
      rw [Pi.add_apply] at refs₂
      have before : 0 < Fs.refs m₁ i := opened.used
      change Fs.refs { m₁ with icache := c } i > 0
      omega
    obtain ⟨t, puts, settled, store, log, refs, locks, inums⟩ := settled_iunlockput devsw settled₂ used₂
    refine ⟨ip, _, _, t, looks, puts, ⟨settled, ?_, ?_, ⟨?_, ?_⟩, fun j used => ?_⟩, ?_⟩
    · exact (store.trans opened.store).trans reached.store
    · exact (log.trans opened.log).trans reached.log
    · rw [refs, moves₂.refs, opened.refs, reached.moves.refs, add_assoc, add_assoc, add_comm (one ip),
      ← add_assoc (one i), one, ← Pi.single_add, Int.add_right_neg, Pi.single_zero, zero_add]
    · rw [locks, moves₂.locks, opened.locks, Function.update_idem]
      exact Function.update_eq_self_iff.mpr (vacant.unlocked i).symm
    · have still := opened.keeps reached used
      rw [inums j, stays₂ j still, opened.inum j, reached.stays j used]
    · exact (inums ip).trans inum₂

end Opened

/-- The search has come to what the path resolves to. -/
def Outcome (sb : Superblock) (m₀ : Machine) (result : Option (UInt32 × Option Label))
    (out : Option (Fin ninode × Name)) (t : Machine) : Prop :=
  match result with
  | none => out = none ∧ Ended sb m₀ t
  | some (g, last) => ∃ j name', out = some (j, name') ∧ Reached sb m₀ t j ∧ (t.icache j).inum = g ∧
      ∀ e, last = some e → name'.label = e

variable (devsw name) in
theorem namexFrom_resolves (start : Settled sb m₀) (vacant : Vacant m₀) (parent : Bool) (turns : Nat)
    {path : List UInt8} (enough : path.length ≤ turns) (reached : Reached sb m₀ m i) :
    ∃ out t, (namexFrom parent turns i path name).run (Machine.handle sb devsw) m = some (out, t) ∧
      Outcome sb m₀ (resolve (directory sb m₀.store.view) parent (m.icache i).inum (elements path)) out t := by
  have finish : ∀ {m i name}, Reached sb m₀ m i →
      ∃ out t, (namexEnd parent i name).run (Machine.handle sb devsw) m = some (out, t) ∧
      Outcome sb m₀ (resolve (directory sb m₀.store.view) parent (m.icache i).inum []) out t := by
    intro m i name reached
    cases parent with
    | false => exact ⟨_, m, rfl, i, name, rfl, reached, rfl, fun e last => absurd last.symm (Option.some_ne_none e)⟩
    | true => exact namexEnd_run devsw name start reached true
  induction turns generalizing path m i name with
  | zero =>
    obtain rfl := List.length_eq_zero_iff.mp (Nat.le_zero.mp enough)
    exact finish reached
  | succ turns ih =>
    have takes := skipelem_elements path name
    rw [namexFrom]
    cases took : skipelem path name with
    | none =>
      rw [took] at takes
      rw [takes]
      exact finish reached
    | some taken =>
      obtain ⟨rest, name'⟩ := taken
      rw [took] at takes
      obtain ⟨split, shorter⟩ := takes
      have fuel : rest.length ≤ turns := by omega
      obtain ⟨m₁, locked, opened⟩ := reached.opens devsw start vacant
      rw [split, resolve, ← reached.store, opened.directory]
      dsimp only
      by_cases isDir : (m₁.icache i).type = T_DIR
      · rw [if_pos isDir, Option.bind_some]
        by_cases last : parent = true ∧ elements rest = []
        · -- stop one level early
          have ended : parent = true ∧ rest.headD 0 = 0 :=
            ⟨last.1, (elements_nil_iff (skipelem_rest took)).mp last.2⟩
          rw [if_pos last]
          have inum : (m₁.icache.iunlock i i).inum = (m.icache i).inum := by
            rw [Icache.iunlock, Function.update_self]
            exact opened.inum i
          refine ⟨some (i, name'), _, ?_, i, name', rfl, opened.stops reached vacant, inum, fun e same => ?_⟩
          · refine (run_seq locked _).trans ((run_seq (run_answered rfl) _).trans ?_)
            rw [if_neg (not_not.mpr isDir), if_pos ended]
            exact (run_seq (iunlock_run i m₁) _).trans rfl
          · exact Option.some.inj same
        · have goesOn : ¬ (parent = true ∧ rest.headD 0 = 0) :=
            fun ended => last ⟨ended.1, elements_ended ended.2⟩
          rw [if_neg last]
          cases found : bindings (entriesOf m₁ i) name'.label with
          | none =>
            obtain ⟨t, puts, ended⟩ := opened.ends devsw reached vacant
            have lists := lists_locked opened.settled opened.present opened.same isDir
            rw [Option.bind_none]
            refine ⟨none, t, ?_, rfl, ended⟩
            refine (run_seq locked _).trans ((run_seq (run_answered rfl) _).trans ?_)
            rw [if_neg (not_not.mpr isDir), if_neg goesOn]
            rcases dirlookup_run sb devsw name' lists with ⟨_, looks⟩ | ⟨h, _, here, _⟩
            · exact (run_seq looks _).trans ((run_seq puts _).trans rfl)
            · cases found.symm.trans here
          | some g =>
            obtain ⟨ip, off, m₂, u, looks, puts, reached', inum⟩ :=
              opened.goes devsw reached vacant isDir found
            obtain ⟨out, t, ran, result⟩ := @ih u ip name' rest fuel reached'
            rw [inum] at result
            rw [Option.bind_some, reached.store]
            refine ⟨out, t, ?_, result⟩
            refine (run_seq locked _).trans ((run_seq (run_answered rfl) _).trans ?_)
            rw [if_neg (not_not.mpr isDir), if_neg goesOn]
            exact (run_seq looks _).trans ((run_seq puts _).trans ran)
      · obtain ⟨t, puts, ended⟩ := opened.ends devsw reached vacant
        rw [if_neg isDir, Option.bind_none]
        refine ⟨none, t, (run_seq locked _).trans ((run_seq (run_answered rfl) _).trans ?_), rfl, ended⟩
        rw [if_pos isDir]
        exact (run_seq puts _).trans rfl

def startInum (m : Machine) (cwd : Option (Fin ninode)) (path : List UInt8) : Option UInt32 :=
  if path.headD 0 = slash then some ROOTINO else cwd.map fun dir => (m.icache dir).inum

variable (devsw) in
theorem startOf_run {cwd : Option (Fin ninode)} {path : List UInt8} {g : UInt32} (settled : Settled sb m)
    (vacant : Vacant m) (root : Present sb m.store.view ROOTINO) (held : ∀ dir, cwd = some dir → 0 < (m.icache dir).ref)
    (from_ : startInum m cwd path = some g) : ∃ i t, (startOf cwd path).run (Machine.handle sb devsw) m = some (i, t) ∧
      Reached sb m t i ∧ (t.icache i).inum = g := by
  rw [startInum] at from_
  by_cases absolute : path.headD 0 = slash
  · rw [if_pos absolute] at from_
    cases from_
    obtain ⟨a, _, _, spare, _⟩ := vacant.spare
    obtain ⟨⟨i, c⟩, got⟩ := iget_of_spare spare ROOTDEV ROOTINO
    obtain ⟨settled', moves, inum, stays⟩ := settled.iget root got
    have answered : m.handle sb devsw (.iget ROOTDEV ROOTINO) = some (i, { m with icache := c }) := by
      rw [Machine.handle, got]
      rfl
    refine ⟨i, _, ?_, ⟨settled', rfl, rfl, moves, stays⟩, inum⟩
    have text : startOf cwd path = Inodes.iget ROOTDEV ROOTINO := if_pos absolute
    rw [text]
    exact run_answered answered
  · rw [if_neg absolute] at from_
    obtain ⟨dir, isDir, rfl⟩ := Option.map_eq_some_iff.mp from_
    subst isDir
    have used := held dir rfl
    refine ⟨dir, { m with icache := m.icache.idup dir }, ?_, ⟨?_, rfl, rfl, ?_, Stays.update rfl fun _ => rfl⟩, ?_⟩
    · have text : startOf (some dir) path = (do idup dir; return dir) := if_neg absolute
      rw [text]
      exact (run_seq (run_answered (r := .idup dir) rfl) _).trans rfl
    · exact settled.replace (by dsimp only; omega) (fun _ => settled.live dir used) fun _ => settled.saved dir used
    · exact Moves.update rfl rfl rfl
    · dsimp only [Icache.idup]
      rw [Function.update_self]

variable (devsw) in
theorem namex_resolves {cwd : Option (Fin ninode)} {path : List UInt8} {g : UInt32} (parent : Bool) (name : Name)
    (settled : Settled sb m) (vacant : Vacant m) (root : Present sb m.store.view ROOTINO)
    (held : ∀ dir, cwd = some dir → 0 < (m.icache dir).ref) (from_ : startInum m cwd path = some g) :
    ∃ out t, (namex cwd path parent name).run (Machine.handle sb devsw) m = some (out, t) ∧
      Outcome sb m (resolve (directory sb m.store.view) parent g (elements path)) out t := by
  obtain ⟨i, u, starts, reached, inum⟩ := startOf_run devsw settled vacant root held from_
  obtain ⟨out, t, ran, result⟩ := namexFrom_resolves devsw name settled vacant parent path.length
    (Nat.le_refl _) reached
  rw [inum] at result
  refine ⟨out, t, ?_, result⟩
  rw [namex]
  exact (run_seq starts _).trans ran

/-- `namei` returns the inode that the elements of the path lead to on the disk, with one new reference. -/
theorem namei_walks (devsw : Fin ndev → Devsw UInt32) {cwd : Option (Fin ninode)} {path : List UInt8} {g : UInt32}
    (settled : Settled sb m) (vacant : Vacant m) (root : Present sb m.store.view ROOTINO)
    (held : ∀ dir, cwd = some dir → 0 < (m.icache dir).ref) (from_ : startInum m cwd path = some g) :
    ∃ out t, (namei cwd path).run (Machine.handle sb devsw) m = some (out, t) ∧
      match walk (directory sb m.store.view) g (elements path) with
      | none => out = none ∧ Ended sb m t
      | some h => ∃ j, out = some j ∧ Reached sb m t j ∧ (t.icache j).inum = h := by
  obtain ⟨out, t, ran, result⟩ := namex_resolves devsw false (fun _ => 0) settled vacant root held from_
  rw [resolve_end] at result
  refine ⟨out.map Prod.fst, t, ?_, ?_⟩
  · rw [namei]
    exact (run_seq ran _).trans rfl
  · cases leads : walk (directory sb m.store.view) g (elements path) with
    | none =>
      rw [leads] at result
      obtain ⟨rfl, ended⟩ := result
      exact ⟨rfl, ended⟩
    | some h =>
      rw [leads] at result
      obtain ⟨j, name', rfl, reached, inum, _⟩ := result
      exact ⟨j, rfl, reached, inum⟩

/-- `nameiparent` returns the directory that all elements but the last lead to, and the last element. -/
theorem nameiparent_walks (devsw : Fin ndev → Devsw UInt32) {cwd : Option (Fin ninode)} {path : List UInt8} {g : UInt32}
    (name : Name) (settled : Settled sb m) (vacant : Vacant m) (root : Present sb m.store.view ROOTINO)
    (held : ∀ dir, cwd = some dir → 0 < (m.icache dir).ref) (from_ : startInum m cwd path = some g) :
    ∃ out t, (nameiparent cwd path name).run (Machine.handle sb devsw) m = some (out, t) ∧
      ((elements path = [] → out = none ∧ Ended sb m t) ∧
      ∀ es e, elements path = es ++ [e] →
        match (walk (directory sb m.store.view) g es).bind fun h => (directory sb m.store.view h).map fun _ => h with
        | none => out = none ∧ Ended sb m t
        | some h => ∃ j name', out = some (j, name') ∧ Reached sb m t j ∧ (t.icache j).inum = h ∧ name'.label = e) := by
  obtain ⟨out, t, ran, result⟩ := namex_resolves devsw true name settled vacant root held from_
  refine ⟨out, t, ran, fun none => ?_, fun es e split => ?_⟩
  · rw [none] at result
    exact result
  · rw [split, resolve_parent] at result
    cases leads : walk (directory sb m.store.view) g es with
    | none =>
      rw [leads] at result
      exact result
    | some h =>
      rw [leads, Option.bind_some] at result
      rw [Option.bind_some]
      cases isDir : directory sb m.store.view h with
      | none =>
        rw [isDir] at result
        exact result
      | some d =>
        rw [isDir] at result
        obtain ⟨j, name', same, reached, inum, last⟩ := result
        exact ⟨j, name', same, reached, inum, last e rfl⟩

/-! ## A root directory -/

theorem rootDisk_only {g : UInt32} (present : Present Mkfs.superblock rootDisk g) : g = ROOTINO := by
  have all : ∀ n, n < 200 → (diskInode Mkfs.superblock rootDisk (UInt32.ofNat n)).type = 0 ∨ n = 1 := by decide +kernel
  obtain ⟨inside, typed⟩ := present
  rcases all g.toNat inside with free | root
  · rw [UInt32.ofNat_toNat] at free
    exact absurd free typed
  · exact UInt32.toNat_inj.mp root

theorem rootDisk_root : Present Mkfs.superblock rootDisk ROOTINO := ⟨by decide, by decide +kernel⟩

theorem settled_rootMachine : Settled Mkfs.superblock rootMachine where
  whole g present := by
    obtain rfl := rootDisk_only present
    have size : (diskInode Mkfs.superblock rootDisk ROOTINO).size.toNat = 16 := by decide +kernel
    refine ⟨fun k less => ?_, by decide +kernel, fun _ off _ inside _ => ?_⟩
    · have below : k < 16 := size ▸ less
      have first : k / bsize = 0 := Nat.div_eq_of_lt (below.trans (by decide))
      rw [first]
      decide +kernel
    · change off + 16 ≤ (diskInode Mkfs.superblock rootDisk ROOTINO).size.toNat at inside
      obtain rfl : off = 0 := by omega
      exact rootDisk_root
  entries g present _ := by
    obtain rfl := rootDisk_only present
    decide +kernel
  counted _ := Int.le_refl 0
  live _ used := absurd used (Int.lt_irrefl 0)
  saved _ used := absurd used (Int.lt_irrefl 0)

theorem vacant_rootMachine : Vacant rootMachine where
  unlocked _ := rfl
  spare := ⟨⟨0, by decide⟩, ⟨1, by decide⟩, by decide, rfl, rfl⟩

theorem namei_walks_dot : ∃ j t, (namei none [slash, 46]).run (Machine.handle Mkfs.superblock noDevices) rootMachine =
    some (some j, t) ∧ (t.icache j).inum = ROOTINO := by
  obtain ⟨out, t, ran, result⟩ := @namei_walks Mkfs.superblock rootMachine noDevices none [slash, 46] ROOTINO
    settled_rootMachine vacant_rootMachine rootDisk_root nofun rfl
  have leads : walk (directory Mkfs.superblock rootDisk) ROOTINO (elements [slash, 46]) = some ROOTINO := by
    decide +kernel
  obtain ⟨j, rfl, _, inum⟩ := leads ▸ result
  exact ⟨j, t, ran, inum⟩

/-- The parent of `/a`, which does not exist, is the root directory. -/
theorem nameiparent_walks_root : ∃ j name t, (nameiparent none [slash, 97] fun _ => 0).run
    (Machine.handle Mkfs.superblock noDevices) rootMachine = some (some (j, name), t) ∧
      (t.icache j).inum = ROOTINO ∧ name.label = (Name.ofString [97]).label := by
  obtain ⟨out, t, ran, _, result⟩ := @nameiparent_walks Mkfs.superblock rootMachine noDevices none [slash, 97] ROOTINO
    (fun _ => 0) settled_rootMachine vacant_rootMachine rootDisk_root nofun rfl
  have split : elements [slash, 97] = [] ++ [(Name.ofString [97]).label] := by decide +kernel
  have leads : (directory Mkfs.superblock rootDisk ROOTINO).isSome = true := by decide +kernel
  obtain ⟨d, isDir⟩ := Option.isSome_iff_exists.mp leads
  have here := result _ _ split
  have same : directory Mkfs.superblock rootMachine.store.view ROOTINO = some d := isDir
  rw [walk, Option.bind_some, same] at here
  obtain ⟨j, name, rfl, _, inum, last⟩ := here
  exact ⟨j, name, t, ran, inum, last⟩

end Inodes

end Xv6
