import Xv6.Fs.Consistency
import Xv6.Library.Slots

/-! Directories as finite maps from names to inode numbers.

Names are taken as they lie in an entry: cut to its length, with zeros behind the end. `dirlookup` is
the lookup of the map, and `dirlink` adds names that it does not have.
-/

set_option autoImplicit false

namespace Xv6

open Library

/-! ## Names -/

abbrev Label : Type := Fin dirsiz → UInt8

-- What `strncpy` stores of a name.
def Name.label (name : Name) : Label := fun i => (strncpy name dirsiz).getD i.val 0

theorem length_strncpy (src : Name) (size : Nat) : (strncpy src size).length = size := by
  induction size generalizing src with
  | zero => rfl
  | succ size ih => rw [strncpy, List.length_cons, ih]

theorem strncpy_empty {src : Name} (ended : src 0 = 0) (size : Nat) : strncpy src size = List.replicate size 0 := by
  induction size with
  | zero => rfl
  | succ size ih => rw [strncpy, if_neg (not_not.mpr ended), ih, ended, List.replicate_succ]

/-- Two names compare as equal if and only if the same bytes are stored for them. -/
theorem strncmp_eq_zero {s t : Name} {n : Nat} : strncmp s t n = 0 ↔ strncpy s n = strncpy t n := by
  induction n generalizing s t with
  | zero => simp [strncmp, strncpy]
  | succ n ih =>
    rw [strncmp, strncpy, strncpy]
    by_cases goes : s 0 ≠ 0 ∧ s 0 = t 0
    · rw [if_pos goes, ih, ← goes.2, if_pos goes.1, if_pos goes.1]
      simp only [List.cons.injEq, true_and]
    · rw [if_neg goes]
      have first : ((s 0).toNat : Int) - (t 0).toNat = 0 ↔ s 0 = t 0 := by
        rw [Int.sub_eq_zero, Int.ofNat_inj, UInt8.toNat_inj]
      rw [first]
      constructor
      · intro same
        have ended : s 0 = 0 := by
          by_contra more
          exact goes ⟨more, same⟩
        have endedT : t 0 = 0 := same ▸ ended
        rw [if_neg (not_not.mpr ended), if_neg (not_not.mpr endedT), strncpy_empty ended, strncpy_empty endedT, same]
      · intro same
        exact (List.cons.inj same).1

theorem namecmp_eq_zero {s t : Name} : namecmp s t = 0 ↔ s.label = t.label := by
  rw [namecmp, strncmp_eq_zero]
  constructor
  · intro same
    funext i
    rw [Name.label, Name.label, same]
  · intro same
    apply List.ext_getElem
    · rw [length_strncpy, length_strncpy]
    · intro i low high
      rw [length_strncpy] at low
      have here := congrFun same ⟨i, low⟩
      simpa [Name.label, length_strncpy, low] using here

theorem strncpy_strncpy (src : Name) (size : Nat) (behind : Name) :
    strncpy (fun i => if i < size then (strncpy src size).getD i 0 else behind i) size = strncpy src size := by
  induction size generalizing src behind with
  | zero => rfl
  | succ size ih =>
    have shift : ∀ next, (fun i => if i + 1 < size + 1 then (src 0 :: strncpy next size).getD (i + 1) 0 else behind (i + 1)) =
        fun i => if i < size then (strncpy next size).getD i 0 else (fun j => behind (j + 1)) i := by
      intro next
      funext i
      simp only [Nat.add_lt_add_iff_right, List.getD_cons_succ]
    by_cases more : src 0 ≠ 0
    · rw [strncpy, strncpy, if_pos more]
      simp only [Nat.zero_lt_succ, if_true, List.getD_cons_zero, if_pos more]
      rw [shift, ih]
    · have ended : src 0 = 0 := not_not.mp more
      rw [strncpy_empty ended, strncpy_empty]
      simp

/-! ## Entries -/

namespace Dirent

def key (d : Dirent) : Option Label := if d.inum = 0 then none else some d.nameBytes.label

-- The entry that `dirlink` writes.
def named (name : Name) (inum : UInt32) : Dirent := ⟨inum.toUInt16, name.label⟩

theorem key_named {name : Name} {inum : UInt32} (real : inum.toUInt16 ≠ 0) :
    (named name inum).key = some name.label := by
  rw [key, named, if_neg real, Option.some.injEq]
  have stored : (Dirent.mk inum.toUInt16 name.label).nameBytes =
      fun i => if i < dirsiz then (strncpy name dirsiz).getD i 0 else 0 := by
    funext i
    rw [nameBytes]
    rfl
  funext i
  rw [stored, Name.label, strncpy_strncpy name dirsiz fun _ => 0]
  rfl

theorem key_eq_some {d : Dirent} {name : Name} : d.inum ≠ 0 ∧ namecmp name d.nameBytes = 0 ↔
    d.key = some name.label := by
  rw [key, namecmp_eq_zero]
  by_cases free : d.inum = 0
  · simp [free]
  · simp [free, eq_comm]

theorem key_eq_none {d : Dirent} : d.key = none ↔ d.inum = 0 := by
  rw [key]
  split <;> simp [*]

end Dirent

/-- The map from names to inode numbers of a list of entries. -/
def bindings (entries : List Dirent) : Label → Option UInt16 :=
  fun k => (Slots.get Dirent.key k entries).map Dirent.inum

namespace Fs

def entriesAt (view : UInt32 → Block) (addrs : Addrs) (off : Nat) : Nat → List Dirent
  | 0 => []
  | n + 1 => entryAt view addrs off :: entriesAt view addrs (off + direntSize) n

section
variable {view view' : UInt32 → Block} {addrs addrs' : Addrs}

theorem length_entriesAt (off n : Nat) : (entriesAt view addrs off n).length = n := by
  induction n generalizing off with
  | zero => rfl
  | succ n ih => rw [entriesAt, List.length_cons, ih]

variable (view addrs) in
theorem getElem?_entriesAt (off n j : Nat) :
    (entriesAt view addrs off n)[j]? = if j < n then some (entryAt view addrs (off + direntSize * j)) else none := by
  induction n generalizing off j with
  | zero => rfl
  | succ n ih =>
    cases j with
    | zero => rfl
    | succ j =>
      have next : off + direntSize + direntSize * j = off + direntSize * (j + 1) := by rw [Nat.mul_succ]; omega
      rw [entriesAt, List.getElem?_cons_succ, ih, next]
      simp only [Nat.add_lt_add_iff_right]

end

end Fs

namespace Inodes

open Fs

variable {A B : Type} {sb : Superblock} {devsw : Fin ndev → Devsw UInt32} {m m' t : Machine} {i dp : Fin ninode}
  {off : UInt64}

theorem run_seq {p : Program Inodes A} {a : A} (ran : p.run (Machine.handle sb devsw) m = some (a, t))
    (k : A → Program Inodes B) :
    (p >>= k).run (Machine.handle sb devsw) m = (k a).run (Machine.handle sb devsw) t :=
  (Program.run_bind p k m).trans (congrArg (fun out => Option.bind out fun out =>
    (k out.1).run (Machine.handle sb devsw) out.2) ran)

theorem run_answered {r : Inodes.Request} {reply : Inodes.Reply r} (answered : m.handle sb devsw r = some (reply, t)) :
    (Program.request (I := Inodes) r).run (Machine.handle sb devsw) m = some (reply, t) :=
  (Program.run_request (I := Inodes) r m).trans answered

theorem run_iget (dev inum : UInt32) (k : Fin ninode → Program Inodes B) :
    (iget dev inum >>= k).run (Machine.handle sb devsw) m = (m.icache.iget dev inum).bind fun out =>
      (k out.1).run (Machine.handle sb devsw) { m with icache := out.2 } := by
  have answer : Machine.handle sb devsw (.iget dev inum) m = (m.icache.iget dev inum).map fun out =>
    (out.1, { m with icache := out.2 }) := rfl
  cases got : m.icache.iget dev inum with
  | none =>
    rw [got] at answer
    have stuck : (iget dev inum).run (Machine.handle sb devsw) m = none :=
      (Program.run_request (I := Inodes) (.iget dev inum) m).trans answer
    exact (Program.run_bind (iget dev inum) k m).trans (congrArg (Option.bind · _) stuck)
  | some out =>
    rw [got] at answer
    exact run_seq (run_answered answer) k

theorem toNat_behind (inside : off.toNat + direntSize ≤ (m.icache dp).size.toNat) :
    (off + deSize).toNat = off.toNat + direntSize := by
  have bound := (m.icache dp).size.toNat_lt
  rw [UInt64.toNat_add, toNat_deSize]
  exact Nat.mod_eq_of_lt (by omega)

section
variable (notDev : (m.icache dp).type ≠ T_DEV)
  (filled : Mapped m.store.view (m.icache dp).addrs (m.icache dp).size.toNat)
include notDev filled

theorem readEntry_run (inside : off.toNat + direntSize ≤ (m.icache dp).size.toNat) :
    (readEntry dp off).run (Machine.handle sb devsw) m =
      some (entryAt m.store.view (m.icache dp).addrs off.toNat, m) := by
  have bound := (m.icache dp).size.toNat_lt
  change off.toNat + 16 ≤ _ at inside
  have start : off.toNat ≤ (m.icache dp).size.toNat := by omega
  have wraps : off.toNat + deSize.toNat < 2 ^ 64 := by
    change off.toNat + 16 < _
    omega
  have reads : (Fs.readi sb devsw m.log (m.icache dp) (fun _ => 0) off deSize).run Store.handle m.store = _ :=
    readi_run notDev filled start wraps
  have whole : min deSize.toNat ((m.icache dp).size.toNat - off.toNat) = direntSize := by
    change min 16 _ = 16
    omega
  rw [whole] at reads
  have answered : m.handle sb devsw (.readi dp (fun _ => 0) off deSize) = some (((direntSize : Int), fun k =>
      if k < direntSize then byteAt m.store.view (m.icache dp).addrs (off.toNat + k) else 0), m) := by
    rw [Machine.handle_readi, Machine.call, reads, Option.map_some]
    dsimp only
    rw [Function.update_eq_self]
  rw [readEntry]
  refine (run_seq (run_answered answered) _).trans ?_
  dsimp only
  rw [if_pos rfl]
  refine congrArg (fun de => some (de, m)) ?_
  rw [entryAt, Dirent.ofBytes, Dirent.ofBytes]
  congr 1
  funext i
  have inName : 2 + i.val < direntSize := by
    have name : i.val < 14 := i.isLt
    change _ < 16
    omega
  rw [if_pos inName]

variable (sb devsw) in
theorem lookupFrom_run (dev : UInt32) (name : Name) (turns : Nat)
    (inside : off.toNat + direntSize * turns ≤ (m.icache dp).size.toNat) :
    (lookupFrom dp dev name turns off).run (Machine.handle sb devsw) m =
      match Slots.index Dirent.key name.label (entriesAt m.store.view (m.icache dp).addrs off.toNat turns) with
      | none => some (none, m)
      | some j => (m.icache.iget dev
          (entryAt m.store.view (m.icache dp).addrs (off.toNat + direntSize * j)).inum.toUInt32).map fun out =>
            (some (out.1, .ofNat (off.toNat + direntSize * j)), { m with icache := out.2 }) := by
  induction turns generalizing off with
  | zero => rfl
  | succ turns ih =>
    rw [Nat.mul_succ] at inside
    have entry : off.toNat + direntSize ≤ (m.icache dp).size.toNat := by omega
    have next := toNat_behind entry
    rw [lookupFrom, entriesAt, Slots.index]
    refine (run_seq (readEntry_run notDev filled entry) _).trans ?_
    by_cases here : (entryAt m.store.view (m.icache dp).addrs off.toNat).key = some name.label
    · rw [if_pos (Dirent.key_eq_some.mpr here), if_pos here]
      dsimp only
      rw [Nat.mul_zero, Nat.add_zero, UInt64.ofNat_toNat]
      exact (run_iget ..).trans Option.map_eq_bind.symm
    · have later := @ih (off + deSize) (by rw [next]; omega)
      rw [next] at later
      rw [if_neg fun same => here (Dirent.key_eq_some.mp same), if_neg here, later]
      cases Slots.index Dirent.key name.label (entriesAt m.store.view (m.icache dp).addrs (off.toNat + direntSize)
          turns) with
      | none => rfl
      | some j =>
        have place : off.toNat + direntSize + direntSize * j = off.toNat + direntSize * (j + 1) := by
          rw [Nat.mul_succ]
          omega
        simp only [Option.map_some, Nat.succ_eq_add_one, place]

variable (sb devsw) in
theorem emptyFrom_run (turns : Nat) (inside : off.toNat + direntSize * turns ≤ (m.icache dp).size.toNat) :
    (emptyFrom dp turns off).run (Machine.handle sb devsw) m =
      some (.ofNat (off.toNat + direntSize * Slots.place Dirent.key (entriesAt m.store.view (m.icache dp).addrs off.toNat
        turns)), m) := by
  induction turns generalizing off with
  | zero =>
    rw [entriesAt, Slots.place, Nat.mul_zero, Nat.add_zero, UInt64.ofNat_toNat]
    rfl
  | succ turns ih =>
    rw [Nat.mul_succ] at inside
    have entry : off.toNat + direntSize ≤ (m.icache dp).size.toNat := by omega
    have next := toNat_behind entry
    rw [emptyFrom, entriesAt, Slots.place]
    refine (run_seq (readEntry_run notDev filled entry) _).trans ?_
    by_cases free : (entryAt m.store.view (m.icache dp).addrs off.toNat).key = none
    · rw [if_pos (Dirent.key_eq_none.mp free), if_pos free, Nat.mul_zero, Nat.add_zero, UInt64.ofNat_toNat]
      rfl
    · have later := @ih (off + deSize) (by rw [next]; omega)
      have place : ∀ j, off.toNat + direntSize + direntSize * j = off.toNat + direntSize * (j + 1) := by
        intro j
        rw [Nat.mul_succ]
        omega
      rw [next, place] at later
      rw [if_neg fun same => free (Dirent.key_eq_none.mpr same), if_neg free, later]

end

/-! ## The functions on directories -/

structure Lists (m : Machine) (dp : Fin ninode) (entries : List Dirent) : Prop where
  isDir : (m.icache dp).type = T_DIR
  filled : Mapped m.store.view (m.icache dp).addrs (m.icache dp).size.toNat
  size : (m.icache dp).size.toNat = direntSize * entries.length
  all : entriesAt m.store.view (m.icache dp).addrs 0 entries.length = entries

variable {list : List Dirent} {name : Name}

namespace Lists

theorem notDev (lists : Lists m dp list) : (m.icache dp).type ≠ T_DEV := by
  rw [lists.isDir]
  decide

theorem turns (lists : Lists m dp list) : entries (m.icache dp).size = list.length := by
  rw [entries, lists.size]
  change (16 * list.length + 15) / 16 = _
  omega

theorem getElem? (lists : Lists m dp list) {j : Nat} (less : j < list.length) :
    list[j]? = some (entryAt m.store.view (m.icache dp).addrs (direntSize * j)) := by
  have here := getElem?_entriesAt m.store.view (m.icache dp).addrs 0 list.length j
  rw [lists.all, if_pos less, Nat.zero_add] at here
  exact here

end Lists

variable (sb devsw name) in
theorem dirlookup_run (lists : Lists m dp list) :
    (bindings list name.label = none ∧ (dirlookup dp name).run (Machine.handle sb devsw) m = some (none, m)) ∨
      ∃ inum j, bindings list name.label = some inum ∧ j < list.length ∧
        (dirlookup dp name).run (Machine.handle sb devsw) m = (m.icache.iget (m.icache dp).dev inum.toUInt32).map
          fun out => (some (out.1, .ofNat (direntSize * j)), { m with icache := out.2 }) := by
  have inside : (0 : UInt64).toNat + direntSize * list.length ≤ (m.icache dp).size.toNat := by
    rw [lists.size]
    exact Nat.le_of_eq (Nat.zero_add _)
  have ran := lookupFrom_run sb devsw lists.notDev lists.filled (m.icache dp).dev name list.length
    inside
  have looks : (dirlookup dp name).run (Machine.handle sb devsw) m =
      (lookupFrom dp (m.icache dp).dev name list.length 0).run (Machine.handle sb devsw) m := by
    rw [dirlookup]
    refine (run_seq (run_answered rfl) _).trans ?_
    rw [if_neg (not_not.mpr lists.isDir), lists.turns]
  rw [looks, ran]
  have zero : (0 : UInt64).toNat = 0 := rfl
  have pair := Slots.index_get Dirent.key list name.label
  rw [zero, lists.all]
  cases found : Slots.index Dirent.key name.label list with
  | none =>
    rw [found] at pair
    left
    exact ⟨by rw [bindings, ← pair]; rfl, rfl⟩
  | some j =>
    have less := Slots.index_lt found
    rw [found, Option.bind_some, lists.getElem? less] at pair
    right
    refine ⟨_, j, by rw [bindings, ← pair]; rfl, less, ?_⟩
    simp only [Nat.zero_add]

/-- The cache after an `iget` whose reference was given back: free entries may be of other inodes. -/
structure Restored (c c' : Icache) : Prop where
  refs : ∀ j, (c' j).ref = (c j).ref
  used : ∀ j, 0 < (c j).ref → c' j = c j

theorem iget_of_spare {c : Icache} {j : Fin ninode} (spare : (c j).ref = 0) (dev inum : UInt32) :
    ∃ out, c.iget dev inum = some out := by
  unfold Icache.iget
  split
  · exact ⟨_, rfl⟩
  · split
    · exact ⟨_, rfl⟩
    · next full =>
      have other := List.find?_eq_none.mp full j (List.mem_finRange j)
      simp [spare] at other

variable (sb devsw) in
-- A reference that `iget` took is given back, and the inode is not freed.
theorem iput_iget {c' : Icache} {dev inum : UInt32} (got : m.icache.iget dev inum = some (i, c')) :
    ∃ c, (iput i).run (Machine.handle sb devsw) { m with icache := c' } = some ((), { m with icache := c }) ∧
      Restored m.icache c := by
  have kept : ¬ ((c' i).ref = 1 ∧ (c' i).valid ∧ (c' i).nlink = 0) := by
    rintro ⟨last, valid, _⟩
    rcases Icache.iget_cases got with ⟨_, used, _, rfl⟩ | ⟨_, _, rfl⟩
    · rw [Function.update_self] at last
      dsimp only at last
      omega
    · rw [Function.update_self] at valid
      exact Bool.noConfusion valid
  have puts : (Fs.iput sb c' m.log i).run Store.handle m.store =
      some ((Function.update c' i { c' i with ref := (c' i).ref - 1 }, m.log), m.store) := by
    rw [Fs.iput, if_neg kept]
    rfl
  have answered : Machine.handle sb devsw (.iput i) { m with icache := c' } =
      some ((), { m with icache := Function.update c' i { c' i with ref := (c' i).ref - 1 } }) := by
    rw [Machine.handle_iput, Machine.call, puts]
    rfl
  refine ⟨_, run_answered answered, ?_⟩
  rcases Icache.iget_cases got with ⟨_, used, _, rfl⟩ | ⟨_, unused, rfl⟩
  · have same : Function.update (Function.update m.icache i { m.icache i with ref := (m.icache i).ref + 1 }) i
        { m.icache i with ref := (m.icache i).ref + 1 - 1 } = m.icache := by
      rw [Function.update_idem, Int.add_sub_cancel, Function.update_eq_self]
    rw [Function.update_self]
    dsimp only
    rw [same]
    exact ⟨fun _ => rfl, fun _ _ => rfl⟩
  · rw [Function.update_self, Function.update_idem]
    constructor
    · intro j
      by_cases here : j = i
      · subst here
        rw [Function.update_self, unused]
        rfl
      · rw [Function.update_of_ne here]
    · intro j inUse
      have other : j ≠ i := by
        rintro rfl
        omega
      rw [Function.update_of_ne other]

end Inodes

end Xv6
