import Xv6.Process.Table
import Mathlib.Algebra.Ring.Nat

/-! The initialisation of the scheduler's list heads, wherever the linker puts them.

Memory is a word at every address that a pointer can hold, so the two arrays and the
lock may have any places that do not overlap. A `struct list_head` is the word `next`
and the word `prev` behind it.
-/

set_option autoImplicit false

namespace Xv6.Process

open Library

abbrev Words := UInt64 → UInt64

-- `sizeof(struct list_head)`
def headSize : UInt64 := 16

def linksIn (m : Words) : Links UInt64 where
  next a := if m a = 0 then none else some (m a)
  prev a := if m (a + 8) = 0 then none else some (m (a + 8))

-- `list_init(que)`: the inner assignment of `que->next = que->prev = que` comes first.
def listInitAt (que : UInt64) (m : Words) : Words :=
  Function.update (Function.update m (que + 8) que) que que

-- `initlock(lk, name)` of a `struct spinlock`, whose first field is half a word.
def initlockAt (lk name : UInt64) (m : Words) : Words :=
  let m := Function.update m (lk + 8) name
  let m := Function.update m lk (m lk >>> 32 <<< 32)
  Function.update m (lk + 16) 0

-- A loop of `proc_init` from head `p`.
def initHeads (bound : UInt64) : Nat → UInt64 → Words → Option Words
  | 0, _, _ => none
  | n + 1, p, m => if p < bound then initHeads bound n (p + headSize) (listInitAt p m) else some m

def rounds : Nat := 2 ^ 60 + 1

def Covers (start : UInt64) (size : Nat) (a : UInt64) : Prop :=
  start.toNat ≤ a.toNat ∧ a.toNat < start.toNat + size

/-- Addresses of the three objects that the C language allows. -/
structure Placement where
  hashmp : UInt64
  prioque : UInt64
  ptablelock : UInt64
  aligned : hashmp.toNat % 8 = 0 ∧ prioque.toNat % 8 = 0 ∧ ptablelock.toNat % 8 = 0
  notNull : hashmp ≠ 0 ∧ prioque ≠ 0
  fits : hashmp.toNat + 16 * hashentries < 2 ^ 64 ∧ prioque.toNat + 16 * prioentries < 2 ^ 64 ∧
    ptablelock.toNat + 24 < 2 ^ 64
  apart : hashmp.toNat + 16 * hashentries ≤ prioque.toNat ∨ prioque.toNat + 16 * prioentries ≤ hashmp.toNat
  lockHashmp : hashmp.toNat + 16 * hashentries ≤ ptablelock.toNat ∨ ptablelock.toNat + 24 ≤ hashmp.toNat
  lockPrioque : prioque.toNat + 16 * prioentries ≤ ptablelock.toNat ∨ ptablelock.toNat + 24 ≤ prioque.toNat

namespace Placement

def hashHead (place : Placement) (i : Fin hashentries) : UInt64 := place.hashmp + headSize * .ofNat i.val

def prioHead (place : Placement) (i : Fin prioentries) : UInt64 := place.prioque + headSize * .ofNat i.val

def IsHead (place : Placement) (a : UInt64) : Prop := (∃ i, a = place.hashHead i) ∨ ∃ i, a = place.prioHead i

-- `proc_init`
def procInit (place : Placement) (name : UInt64) (m : Words) : Option Words := do
  let m ← initHeads (place.hashmp + headSize * .ofNat hashentries) rounds place.hashmp m
  -- the second loop has the bound of the first array
  let m ← initHeads (place.hashmp + headSize * .ofNat prioentries) rounds place.prioque m
  some (initlockAt place.ptablelock name m)

/-- The arrays are in `.bss`, which `main` clears. -/
def Cleared (place : Placement) (m : Words) : Prop :=
  ∀ a, Covers place.hashmp (16 * hashentries) a ∨ Covers place.prioque (16 * prioentries) a → m a = 0

/-- `proc_init` returns with each head an empty list, on which the first `list_empty` and
`list_push_back` are defined, and writes nothing but the arrays and the lock. -/
def Initialises (place : Placement) (name : UInt64) (m : Words) : Prop :=
  ∃ m', place.procInit name m = some m' ∧
    (∀ head, place.IsHead head → Ring (linksIn m') head [] ∧ listEmpty (linksIn m') head = true ∧
      ∀ ptr, ptr ≠ head → (listPushBack (linksIn m') head ptr).isSome) ∧
    ∀ a, ¬ Covers place.hashmp (16 * hashentries) a → ¬ Covers place.prioque (16 * prioentries) a →
      ¬ Covers place.ptablelock 24 a → m' a = m a

/-- The queues end where the hash table begins. -/
def Adjacent (place : Placement) : Prop := place.prioque.toNat + 16 * prioentries = place.hashmp.toNat

instance (place : Placement) : Decidable place.Adjacent := inferInstanceAs (Decidable (_ = _))

end Placement

def SelfLinked (m : Words) (head : UInt64) : Prop := m head = head ∧ m (head + 8) = head

theorem ring_iff {m : Words} {head : UInt64} (notNull : head ≠ 0) :
    Ring (linksIn m) head [] ↔ SelfLinked m head := by
  constructor
  · intro ring
    obtain ⟨⟨next, prev⟩, _⟩ := List.isChain_cons_cons.mp ring.chain
    simp only [linksIn, Option.ite_none_left_eq_some, Option.some.injEq] at next prev
    exact ⟨next.2, prev.2⟩
  · intro linked
    refine ⟨by simp, ?_⟩
    simp [Links.Linked, linksIn, linked.1, linked.2, notNull]

section
variable {bound p a : UInt64} {m : Words} {count fuel : Nat}

theorem toNat_headSize_mul {k : Nat} (small : 16 * k < 2 ^ 64) : (headSize * .ofNat k).toNat = 16 * k := by
  rw [UInt64.toNat_mul, UInt64.toNat_ofNat']
  simp only [headSize, UInt64.reduceToNat]
  omega

theorem toNat_prev (room : p.toNat + 16 < 2 ^ 64) : (p + 8).toNat = p.toNat + 8 := by
  rw [UInt64.toNat_add]
  simp only [UInt64.reduceToNat]
  omega

theorem listInitAt_self (room : p.toNat + 16 < 2 ^ 64) : SelfLinked (listInitAt p m) p := by
  have other : p + 8 ≠ p := by
    intro same
    have value := toNat_prev room
    rw [same] at value
    omega
  exact ⟨Function.update_self .., by rw [listInitAt, Function.update_of_ne other, Function.update_self]⟩

theorem listInitAt_outside (room : p.toNat + 16 < 2 ^ 64) (outside : ¬ Covers p 16 a) :
    listInitAt p m a = m a := by
  unfold Covers at outside
  have notNext : a ≠ p := by
    intro same
    rw [same] at outside
    omega
  have notPrev : a ≠ p + 8 := by
    intro same
    rw [same, toNat_prev room] at outside
    omega
  rw [listInitAt, Function.update_of_ne notNext, Function.update_of_ne notPrev]

/-- The heads of the loop are `count` many: it initialises them all and writes nothing else. -/
theorem initHeads_run (room : p.toNat + 16 * count < 2 ^ 64) (fuelled : count < fuel)
    (below : ∀ k < count, p.toNat + 16 * k < bound.toNat) (last : bound.toNat ≤ p.toNat + 16 * count) :
    ∃ m', initHeads bound fuel p m = some m' ∧
      (∀ head k, k < count → head.toNat = p.toNat + 16 * k → SelfLinked m' head) ∧
      ∀ a, ¬ Covers p (16 * count) a → m' a = m a := by
  -- on the number of heads left
  induction count generalizing p m fuel with
  | zero =>
    obtain ⟨fuel, rfl⟩ : ∃ n, fuel = n + 1 := ⟨fuel - 1, by omega⟩
    have stop : ¬ p < bound := by
      rw [UInt64.lt_iff_toNat_lt]
      omega
    exact ⟨m, by rw [initHeads, if_neg stop], fun _ _ none => absurd none (Nat.not_lt_zero _), fun _ _ => rfl⟩
  | succ count ih =>
    obtain ⟨fuel, rfl⟩ : ∃ n, fuel = n + 1 := ⟨fuel - 1, by omega⟩
    have first := below 0 (Nat.succ_pos count)
    have more : p < bound := by
      rw [UInt64.lt_iff_toNat_lt]
      omega
    have here : p.toNat + 16 < 2 ^ 64 := by omega
    have next : (p + headSize).toNat = p.toNat + 16 := by
      rw [UInt64.toNat_add]
      simp only [headSize, UInt64.reduceToNat]
      omega
    have later : ∀ k < count, (p + headSize).toNat + 16 * k < bound.toNat := by
      intro k less
      have bounded := below (k + 1) (Nat.succ_lt_succ less)
      omega
    obtain ⟨m', ran, heads, others⟩ := ih (p := p + headSize) (m := listInitAt p m) (by omega)
      (Nat.lt_of_succ_lt_succ fuelled) later (by omega)
    have linked := listInitAt_self (m := m) here
    -- the other heads are behind this one
    have ahead : ∀ x, x.toNat < p.toNat + 16 → m' x = listInitAt p m x := by
      intro x before
      apply others
      unfold Covers
      omega
    refine ⟨m', by rw [initHeads, if_pos more]; exact ran, ?_, ?_⟩
    · intro head k less place
      cases k with
      | zero =>
        obtain rfl : head = p := UInt64.toNat_inj.mp (by omega)
        have prev := toNat_prev here
        refine ⟨(ahead _ (by omega)).trans linked.1, (ahead _ (by omega)).trans linked.2⟩
      | succ k => exact heads head k (Nat.lt_of_succ_lt_succ less) (by omega)
    · intro x outside
      unfold Covers at outside
      have behind : ¬ Covers (p + headSize) (16 * count) x := by
        unfold Covers
        omega
      rw [others x behind]
      apply listInitAt_outside here
      unfold Covers
      omega

theorem initlockAt_outside {lk name : UInt64} (room : lk.toNat + 24 < 2 ^ 64) (outside : ¬ Covers lk 24 a) :
    initlockAt lk name m a = m a := by
  have second : (lk + 8).toNat = lk.toNat + 8 := by
    rw [UInt64.toNat_add]
    simp only [UInt64.reduceToNat]
    omega
  have third : (lk + 16).toNat = lk.toNat + 16 := by
    rw [UInt64.toNat_add]
    simp only [UInt64.reduceToNat]
    omega
  unfold Covers at outside
  have notLocked : a ≠ lk := by
    intro same
    rw [same] at outside
    omega
  have notName : a ≠ lk + 8 := by
    intro same
    rw [same] at outside
    omega
  have notCpu : a ≠ lk + 16 := by
    intro same
    rw [same] at outside
    omega
  rw [initlockAt, Function.update_of_ne notCpu, Function.update_of_ne notLocked, Function.update_of_ne notName]

end

namespace Placement

theorem hashentries_eq : hashentries = 17 := rfl

theorem prioentries_eq : prioentries = 4 := rfl

variable {place : Placement} {name : UInt64}

/-- How many heads the second loop initialises. -/
def reached (place : Placement) : Nat :=
  (place.hashmp.toNat + 16 * prioentries + 15 - place.prioque.toNat) / 16

theorem toNat_bound {start : UInt64} {entries : Nat} (small : entries ≤ hashentries)
    (room : start.toNat + 16 * entries < 2 ^ 64) :
    (start + headSize * .ofNat entries).toNat = start.toNat + 16 * entries := by
  have seventeen := hashentries_eq
  rw [UInt64.toNat_add, toNat_headSize_mul (by omega)]
  omega

theorem toNat_hashHead (i : Fin hashentries) : (place.hashHead i).toNat = place.hashmp.toNat + 16 * i.val := by
  have room := place.fits.1
  have less := i.isLt
  exact toNat_bound (by omega) (by omega)

theorem toNat_prioHead (i : Fin prioentries) : (place.prioHead i).toNat = place.prioque.toNat + 16 * i.val := by
  have room := place.fits.2.1
  have less := i.isLt
  have four := prioentries_eq
  have seventeen := hashentries_eq
  exact toNat_bound (by omega) (by omega)

/-- Both loops return: the first one does its array, and the second one all heads from the queues
on that begin before the fifth head of the hash table. -/
theorem procInit_run (place : Placement) (name : UInt64) (m : Words) :
    ∃ m₁ m₂, place.procInit name m = some (initlockAt place.ptablelock name m₂) ∧
      (∀ head k, k < hashentries → head.toNat = place.hashmp.toNat + 16 * k → SelfLinked m₁ head) ∧
      (∀ a, ¬ Covers place.hashmp (16 * hashentries) a → m₁ a = m a) ∧
      (∀ head k, k < place.reached → head.toNat = place.prioque.toNat + 16 * k → SelfLinked m₂ head) ∧
      ∀ a, ¬ Covers place.prioque (16 * place.reached) a → m₂ a = m₁ a := by
  have seventeen := hashentries_eq
  have four := prioentries_eq
  obtain ⟨roomHash, roomPrio, _⟩ := place.fits
  have firstBound := toNat_bound (Nat.le_refl hashentries) roomHash
  have secondBound := toNat_bound (show prioentries ≤ hashentries by decide)
    (show place.hashmp.toNat + 16 * prioentries < 2 ^ 64 by omega)
  have enough : place.reached < rounds := by
    have small := place.hashmp.toNat_lt
    unfold reached rounds
    omega
  obtain ⟨m₁, first, heads₁, others₁⟩ : ∃ m₁,
      initHeads (place.hashmp + headSize * .ofNat hashentries) rounds place.hashmp m = some m₁ ∧
        (∀ head k, k < hashentries → head.toNat = place.hashmp.toNat + 16 * k → SelfLinked m₁ head) ∧
        ∀ a, ¬ Covers place.hashmp (16 * hashentries) a → m₁ a = m a :=
    initHeads_run roomHash (show hashentries < rounds by decide) (by intro k less; omega) (by omega)
  obtain ⟨m₂, second, heads₂, others₂⟩ : ∃ m₂,
      initHeads (place.hashmp + headSize * .ofNat prioentries) rounds place.prioque m₁ = some m₂ ∧
        (∀ head k, k < place.reached → head.toNat = place.prioque.toNat + 16 * k → SelfLinked m₂ head) ∧
        ∀ a, ¬ Covers place.prioque (16 * place.reached) a → m₂ a = m₁ a :=
    initHeads_run (by unfold reached; omega) enough (by intro k less; unfold reached at less; omega)
      (by unfold reached; omega)
  refine ⟨m₁, m₂, ?_, heads₁, others₁, heads₂, others₂⟩
  rw [procInit, first]
  simp only [Option.bind_eq_bind, Option.bind_some, second]

theorem isHead_covers {head : UInt64} (isHead : place.IsHead head) :
    head ≠ 0 ∧ head.toNat + 16 < 2 ^ 64 ∧
      ∀ a, head.toNat ≤ a.toNat → a.toNat < head.toNat + 16 → ¬ Covers place.ptablelock 24 a := by
  obtain ⟨roomHash, roomPrio, _⟩ := place.fits
  have hashNull : place.hashmp.toNat ≠ 0 := fun same => place.notNull.1 (UInt64.toNat_inj.mp same)
  have prioNull : place.prioque.toNat ≠ 0 := fun same => place.notNull.2 (UInt64.toNat_inj.mp same)
  have lockHash := place.lockHashmp
  have lockPrio := place.lockPrioque
  have seventeen := hashentries_eq
  have four := prioentries_eq
  unfold Covers
  rcases isHead with ⟨i, rfl⟩ | ⟨i, rfl⟩
  · have less := i.isLt
    rw [Ne, ← UInt64.toNat_inj, toNat_hashHead, UInt64.toNat_zero]
    exact ⟨by omega, by omega, fun a _ _ => by omega⟩
  · have less := i.isLt
    rw [Ne, ← UInt64.toNat_inj, toNat_prioHead, UInt64.toNat_zero]
    exact ⟨by omega, by omega, fun a _ _ => by omega⟩

theorem initlockAt_linked {m : Words} {head : UInt64} (isHead : place.IsHead head) :
    SelfLinked (initlockAt place.ptablelock name m) head ↔ SelfLinked m head := by
  obtain ⟨_, room, apart⟩ := isHead_covers isHead
  have prev := toNat_prev room
  have lock := place.fits.2.2
  rw [SelfLinked, SelfLinked, initlockAt_outside lock (apart head (by omega) (by omega)),
    initlockAt_outside lock (apart (head + 8) (by omega) (by omega))]

theorem Adjacent.initialises (adjacent : place.Adjacent) (m : Words) : place.Initialises name m := by
  obtain ⟨m₁, m₂, ran, heads₁, others₁, heads₂, others₂⟩ := procInit_run place name m
  have seventeen := hashentries_eq
  have four := prioentries_eq
  unfold Adjacent at adjacent
  have eight : place.reached = 8 := by
    unfold reached
    omega
  rw [eight] at heads₂ others₂
  refine ⟨_, ran, fun head isHead => ?_, fun a outHash outPrio outLock => ?_⟩
  · have linked : SelfLinked m₂ head := by
      rcases isHead with ⟨i, rfl⟩ | ⟨i, rfl⟩
      · have place' : (place.hashHead i).toNat = place.hashmp.toNat + 16 * i.val := toNat_hashHead i
        by_cases again : i.val < 4
        · exact heads₂ _ (4 + i.val) (by omega) (by omega)
        · -- behind the part that is done twice
          have first := heads₁ _ i.val i.isLt place'
          have room := place.fits.1
          have less := i.isLt
          have prev := toNat_prev (p := place.hashHead i) (by omega)
          have same : ∀ a, (place.hashHead i).toNat ≤ a.toNat → m₂ a = m₁ a := by
            intro a behind
            apply others₂
            unfold Covers
            omega
          exact ⟨(same _ (Nat.le_refl _)).trans first.1, (same _ (by omega)).trans first.2⟩
      · have less := i.isLt
        exact heads₂ _ i.val (by omega) (toNat_prioHead i)
    have ring : Ring (linksIn (initlockAt place.ptablelock name m₂)) head [] :=
      (ring_iff (isHead_covers isHead).1).mpr ((initlockAt_linked isHead).mpr linked)
    have front := ring.next_head
    refine ⟨ring, by simpa [listEmpty] using front, fun ptr other => ?_⟩
    obtain ⟨pushed, isPushed, _⟩ := ring_listPushBack ring (show ptr ∉ [head] by simpa using other)
    exact Option.isSome_iff_exists.mpr ⟨pushed, isPushed⟩
  · rw [initlockAt_outside place.fits.2.2 outLock]
    have untouched : ¬ Covers place.prioque (16 * 8) a := by
      unfold Covers at *
      omega
    rw [others₂ a untouched, others₁ a outHash]

/-- A word between the arrays that is not in the lock, and that the second loop writes. -/
theorem written_between {m₂ : Words} (before : place.prioque.toNat + 16 * prioentries < place.hashmp.toNat)
    (even : (place.hashmp.toNat - place.prioque.toNat) % 16 = 0)
    (heads : ∀ head k, k < place.reached → head.toNat = place.prioque.toNat + 16 * k → SelfLinked m₂ head) :
    ∃ a, ¬ Covers place.hashmp (16 * hashentries) a ∧ ¬ Covers place.prioque (16 * prioentries) a ∧
      ¬ Covers place.ptablelock 24 a ∧ m₂ a ≠ 0 := by
  have seventeen := hashentries_eq
  have four := prioentries_eq
  have small := place.hashmp.toNat_lt
  have lockHash := place.lockHashmp
  have lockPrio := place.lockPrioque
  have address : ∀ k, place.prioque.toNat + k < place.hashmp.toNat →
      (UInt64.ofNat (place.prioque.toNat + k)).toNat = place.prioque.toNat + k := by
    intro k inside
    rw [UInt64.toNat_ofNat']
    omega
  have notNull : ∀ k, place.prioque.toNat + k < place.hashmp.toNat → 0 < k →
      UInt64.ofNat (place.prioque.toNat + k) ≠ 0 := by
    intro k inside positive same
    have value := address k inside
    rw [same, UInt64.toNat_zero] at value
    omega
  have first := address 64 (by omega)
  have fifth := heads (.ofNat (place.prioque.toNat + 64)) 4 (by unfold reached; omega) (by omega)
  unfold Covers
  by_cases free : place.ptablelock.toNat ≤ place.prioque.toNat + 64 ∧
      place.prioque.toNat + 64 < place.ptablelock.toNat + 24
  · -- the lock is the first three words, and the arrays are an even number of words apart
    have second := address 80 (by omega)
    have sixth := heads (.ofNat (place.prioque.toNat + 80)) 5 (by unfold reached; omega) (by omega)
    have prev := toNat_prev (p := .ofNat (place.prioque.toNat + 80)) (by omega)
    refine ⟨.ofNat (place.prioque.toNat + 80) + 8, by omega, by omega, by omega, ?_⟩
    rw [sixth.2]
    exact notNull 80 (by omega) (by decide)
  · refine ⟨.ofNat (place.prioque.toNat + 64), by omega, by omega, by omega, ?_⟩
    rw [fifth.1]
    exact notNull 64 (by omega) (by decide)

/-- `proc_init` initialises the heads, whatever other memory holds, exactly when the queues end
where the hash table begins. -/
theorem procInit_initialises_iff (place : Placement) (name : UInt64) :
    (∀ m, place.Cleared m → place.Initialises name m) ↔ place.Adjacent := by
  constructor
  · intro always
    have seventeen := hashentries_eq
    have four := prioentries_eq
    obtain ⟨m', ran', empty, others⟩ := always (fun _ => 0) fun _ _ => rfl
    obtain ⟨m₁, m₂, ran, heads₁, others₁, heads₂, others₂⟩ := procInit_run place name fun _ => 0
    obtain rfl : initlockAt place.ptablelock name m₂ = m' := Option.some.inj (ran.symm.trans ran')
    have linked : ∀ head, place.IsHead head → SelfLinked m₂ head := by
      intro head isHead
      have ring := (empty head isHead).1
      exact (initlockAt_linked isHead).mp ((ring_iff (isHead_covers isHead).1).mp ring)
    have aligned := place.aligned
    have hashRoom := place.fits.1
    by_contra notAdjacent
    unfold Adjacent at notAdjacent
    rcases place.apart with behind | before
    · -- the second loop ends at once and leaves the queues as they were
      have none : place.reached = 0 := by
        unfold reached
        omega
      have isHead : place.IsHead (place.prioHead ⟨0, by decide⟩) := .inr ⟨_, rfl⟩
      have place' : (place.prioHead ⟨0, by decide⟩).toNat = place.prioque.toNat := toNat_prioHead ⟨0, by decide⟩
      have self := (linked _ isHead).1
      rw [others₂ _ (by unfold Covers; omega), others₁ _ (by unfold Covers; omega)] at self
      exact (isHead_covers isHead).1 self.symm
    · by_cases even : (place.hashmp.toNat - place.prioque.toNat) % 16 = 0
      · obtain ⟨a, outHash, outPrio, outLock, changed⟩ := written_between (by omega) even heads₂
        have same := others a outHash outPrio outLock
        rw [initlockAt_outside place.fits.2.2 outLock] at same
        exact changed same
      · -- the loop runs into the hash table half a head off
        have isHead : place.IsHead (place.hashHead ⟨0, by decide⟩) := .inl ⟨_, rfl⟩
        have place' : (place.hashHead ⟨0, by decide⟩).toNat = place.hashmp.toNat := toNat_hashHead ⟨0, by decide⟩
        obtain ⟨k, isK⟩ : ∃ k, place.hashmp.toNat = place.prioque.toNat + 16 * k + 8 :=
          ⟨(place.hashmp.toNat - place.prioque.toNat) / 16, by omega⟩
        have address : (UInt64.ofNat (place.prioque.toNat + 16 * k)).toNat = place.prioque.toNat + 16 * k := by
          rw [UInt64.toNat_ofNat']
          omega
        have off := (heads₂ (.ofNat (place.prioque.toNat + 16 * k)) k (by unfold reached; omega) address).2
        have prev := toNat_prev (p := .ofNat (place.prioque.toNat + 16 * k)) (by omega)
        obtain isFirst : UInt64.ofNat (place.prioque.toNat + 16 * k) + 8 = place.hashHead ⟨0, by decide⟩ :=
          UInt64.toNat_inj.mp (by omega)
        rw [isFirst, (linked _ isHead).1] at off
        have values := congrArg UInt64.toNat off
        omega
  · intro adjacent m _
    exact adjacent.initialises m

end Placement

def queuesFirst : Placement where
  hashmp := 0xFFFF000000090040
  prioque := 0xFFFF000000090000
  ptablelock := 0xFFFF000000090150
  aligned := by decide
  notNull := by decide
  fits := by decide
  apart := by decide
  lockHashmp := by decide
  lockPrioque := by decide

def hashFirst : Placement where
  hashmp := 0xFFFF000000090000
  prioque := 0xFFFF000000090110
  ptablelock := 0xFFFF000000090150
  aligned := by decide
  notNull := by decide
  fits := by decide
  apart := by decide
  lockHashmp := by decide
  lockPrioque := by decide

theorem procInit_initialises_iff_orders : (∀ m, queuesFirst.Cleared m → queuesFirst.Initialises 0 m) ∧
    ¬ ∀ m, hashFirst.Cleared m → hashFirst.Initialises 0 m :=
  ⟨(Placement.procInit_initialises_iff queuesFirst 0).mpr (by decide),
    mt (Placement.procInit_initialises_iff hashFirst 0).mp (by decide)⟩

/-- With the hash table first the queues are left as null pointers. -/
theorem queues_uninitialised : ¬ ∀ (place : Placement) (name : UInt64) (m : Words), place.Cleared m →
    place.Initialises name m := by
  intro always
  obtain ⟨m', ran, empty, _⟩ := always hashFirst 0 (fun _ => 0) fun _ _ => rfl
  have wrong : ((hashFirst.procInit 0 fun _ => 0).any fun m => m (hashFirst.prioHead 0) = 0) = true := by
    decide +kernel
  rw [ran, Option.any_some, decide_eq_true_eq] at wrong
  have isHead : hashFirst.IsHead (hashFirst.prioHead 0) := .inr ⟨0, rfl⟩
  have front := (empty _ isHead).1.next_head
  simp [linksIn, wrong] at front

end Xv6.Process
