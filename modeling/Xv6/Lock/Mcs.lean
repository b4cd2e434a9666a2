import Xv6.Library.Line
import Xv6.Library.Transition
import Mathlib.Logic.Function.Basic

/-! The MCS lock of `kern/spinlock.c`, one access to memory at a time.

Every CPU has a node of its own. `Mcs` is the memory of the lock and of the nodes, with the
place of every CPU in the code of `mcsacquire` and `mcsrelease`, and with what has
happened so far. `Turns` is a lock that serves its callers in the order in which they came;
the steps of `Mcs` are steps of it or do not concern it.
-/

set_option autoImplicit false

namespace Xv6.Lock

open Library

/-- Where a CPU is in its code: the access that comes next. -/
inductive Pc (C : Type) where
  /-- In neither function, without the lock. -/
  | idle
  /-- `i->locked = 0` -/
  | clearLocked
  /-- `i->next = NULL` -/
  | clearNext
  /-- `tail = lk->next` -/
  | loadTail
  /-- The exchange in `mcsacquire`, which expects `tail`. -/
  | swap (tail : Option C)
  /-- `i->locked = 1` -/
  | setLocked (tail : C)
  /-- `tail->next = i` -/
  | link (tail : C)
  /-- `while (i->locked)` -/
  | spin
  /-- `mcsacquire` has returned. -/
  | holding
  /-- The exchange in `mcsrelease`. -/
  | unswap
  /-- `while (i->next == NULL)` -/
  | waitNext
  /-- `i->next` is loaded for the last time. -/
  | loadNext
  /-- `x->locked = 0` for the node that was loaded. -/
  | unlock (x : C)

structure Turns (C : Type) where
  /-- The exchanges in `mcsacquire` that have succeeded. -/
  joined : List C
  /-- The returns of `mcsacquire`. -/
  entered : List C
  /-- The last accesses of `mcsrelease`. -/
  left : List C

/-- A lock that lets its callers in one at a time, in the order in which they joined. -/
inductive Turns.Step {C : Type} : Turns C → Turns C → Prop where
  | join (turns : Turns C) (c : C) : Step turns { turns with joined := turns.joined ++ [c] }
  | enter (turns : Turns C) (c : C) (rest : List C) (first : turns.joined = turns.left ++ c :: rest)
      (free : turns.entered = turns.left) : Step turns { turns with entered := turns.entered ++ [c] }
  | leave (turns : Turns C) (c : C) (inside : turns.entered = turns.left ++ [c]) :
      Step turns { turns with left := turns.left ++ [c] }

/-- Nobody enters who has not joined, or before somebody who joined earlier; nobody leaves who has not entered. -/
structure Turns.Fair {C : Type} (turns : Turns C) : Prop where
  entered : turns.entered <+: turns.joined
  left : turns.left <+: turns.entered

theorem Turns.Step.fair {C : Type} {turns turns' : Turns C} (step : turns.Step turns') (fair : turns.Fair) :
    turns'.Fair := by
  cases step with
  | join c => exact ⟨fair.entered.trans (List.prefix_append _ _), fair.left⟩
  | enter c rest first free =>
    refine ⟨?_, fair.left.trans (List.prefix_append _ _)⟩
    rw [first, free]
    exact (List.prefix_append_right_inj _).mpr ⟨rest, rfl⟩
  | leave c inside =>
    refine ⟨fair.entered, ?_⟩
    rw [inside]

structure Mcs (C : Type) where
  /-- `lk->next` -/
  tail : Option C
  next : C → Option C
  /-- Whether `i->locked` is not 0. -/
  locked : C → Bool
  pc : C → Pc C
  turns : Turns C

inductive Act (C : Type) where
  /-- A CPU calls `mcsacquire`. -/
  | acquire (c : C)
  /-- A CPU calls `mcsrelease`. -/
  | release (c : C)
  /-- The next access of a CPU. -/
  | access (c : C)

/-- From the successful exchange to the return of `mcsacquire`. -/
def Pc.Waits {C : Type} : Pc C → Prop
  | setLocked _ | link _ | spin => True
  | idle | clearLocked | clearNext | loadTail | swap _ | holding | unswap | waitNext | loadNext | unlock _ => False

/-- From the return of `mcsacquire` to that of `mcsrelease`. -/
def Pc.Holds {C : Type} : Pc C → Prop
  | holding | unswap | waitNext | loadNext | unlock _ => True
  | idle | clearLocked | clearNext | loadTail | swap _ | setLocked _ | link _ | spin => False

section
variable {C : Type} [DecidableEq C]

def Mcs.goto (c : C) (pc : Pc C) (s : Mcs C) : Mcs C := { s with pc := Function.update s.pc c pc }

def Mcs.setLocked (c : C) (value : Bool) (s : Mcs C) : Mcs C := { s with locked := Function.update s.locked c value }

def Mcs.setNext (c : C) (value : Option C) (s : Mcs C) : Mcs C := { s with next := Function.update s.next c value }

def Mcs.join (c : C) (s : Mcs C) : Mcs C := { s with turns := { s.turns with joined := s.turns.joined ++ [c] } }

def Mcs.enter (c : C) (s : Mcs C) : Mcs C := { s with turns := { s.turns with entered := s.turns.entered ++ [c] } }

def Mcs.leave (c : C) (s : Mcs C) : Mcs C := { s with turns := { s.turns with left := s.turns.left ++ [c] } }

def access (c : C) (s : Mcs C) : Option (Mcs C) :=
  match s.pc c with
  | .idle | .holding => none
  | .clearLocked => some ((s.setLocked c false).goto c .clearNext)
  | .clearNext => some ((s.setNext c none).goto c .loadTail)
  | .loadTail => some (s.goto c (.swap s.tail))
  | .swap tail =>
    if s.tail = tail then
      some (({ s with tail := some c }.join c).goto c (match tail with | none => .spin | some tail => .setLocked tail))
    else some (s.goto c .loadTail)
  | .setLocked tail => some ((s.setLocked c true).goto c (.link tail))
  | .link tail => some ((s.setNext tail (some c)).goto c .spin)
  | .spin => if s.locked c then some s else some ((s.enter c).goto c .holding)
  | .unswap =>
    if s.tail = some c then some (({ s with tail := none }.leave c).goto c .idle) else some (s.goto c .waitNext)
  | .waitNext => if s.next c = none then some s else some (s.goto c .loadNext)
  | .loadNext =>
    match s.next c with
    | none => none
    | some x => some (s.goto c (.unlock x))
  | .unlock x => some (((s.setLocked x false).leave c).goto c .idle)

def step (a : Act C) (s : Mcs C) : Option (Mcs C) :=
  match a with
  | .acquire c =>
    match s.pc c with
    | .idle => some (s.goto c .clearLocked)
    | _ => none
  | .release c =>
    match s.pc c with
    | .holding => some (s.goto c .unswap)
    | _ => none
  | .access c => access c s

end

/-! ## The line of those who wait -/

section
variable {C : Type}

inductive Joining (s : Mcs C) (a b : C) : Prop where
  | arrived (pc : s.pc b = .setLocked a) (next : s.next a = none)
  | locked (pc : s.pc b = .link a) (next : s.next a = none) (locked : s.locked b = true)
  | linked (pc : s.pc b = .spin) (next : s.next a = some b) (locked : s.locked b = true)

/-- The first of the line may enter, has entered, or is about to give the lock to the second. -/
inductive Leading (s : Mcs C) (line : List C) (a : C) : Prop where
  | free (pc : s.pc a = .spin) (locked : s.locked a = false)
  | inside (pc : s.pc a = .holding ∨ s.pc a = .unswap)
  | followed (pc : s.pc a = .waitNext) (more : line ≠ [a])
  | linked (pc : s.pc a = .loadNext) (next : s.next a ≠ none)
  | handing (x : C) (pc : s.pc a = .unlock x) (next : s.next a = some x)

def Prepared (s : Mcs C) (c : C) : Prop :=
  match s.pc c with
  | .clearNext => s.locked c = false
  | .loadTail | .swap _ => s.locked c = false ∧ s.next c = none
  | _ => True

structure Inv (s : Mcs C) (line : List C) : Prop where
  distinct : line.Nodup
  tail : s.tail = line.getLast?
  member : ∀ c, c ∈ line ↔ (s.pc c).Waits ∨ (s.pc c).Holds
  first : ∀ c, line.head? = some c → Leading s line c
  behind : ∀ a b, Behind line a b → Joining s a b
  last : ∀ a, line.getLast? = some a → s.next a = none
  prepared : ∀ c, Prepared s c
  joined : s.turns.joined = s.turns.left ++ line
  entered : (s.turns.entered = s.turns.left ∧ ∀ c, ¬(s.pc c).Holds) ∨
    ∃ c, line.head? = some c ∧ (s.pc c).Holds ∧ s.turns.entered = s.turns.left ++ [c]

theorem Joining.waits {s : Mcs C} {a b : C} (joining : Joining s a b) : (s.pc b).Waits := by
  cases joining with
  | arrived pc next => rw [pc]; trivial
  | locked pc next locked => rw [pc]; trivial
  | linked pc next locked => rw [pc]; trivial

theorem Pc.not_holds_of_waits {pc : Pc C} (waits : pc.Waits) : ¬pc.Holds := by
  intro holds
  cases pc <;> first | exact waits | exact holds

theorem Joining.congr {s t : Mcs C} {a b : C} (joining : Joining s a b) (pc : t.pc b = s.pc b)
    (next : t.next a = s.next a) (locked : t.locked b = s.locked b) : Joining t a b := by
  cases joining with
  | arrived isPc isNext => exact .arrived (pc.trans isPc) (next.trans isNext)
  | locked isPc isNext isLocked => exact .locked (pc.trans isPc) (next.trans isNext) (locked.trans isLocked)
  | linked isPc isNext isLocked => exact .linked (pc.trans isPc) (next.trans isNext) (locked.trans isLocked)

theorem Leading.congr {s t : Mcs C} {line line' : List C} {a : C} (leading : Leading s line a)
    (pc : t.pc a = s.pc a) (next : t.next a = s.next a) (locked : t.locked a = s.locked a)
    (more : line ≠ [a] → line' ≠ [a]) : Leading t line' a := by
  cases leading with
  | free isPc isLocked => exact .free (pc.trans isPc) (locked.trans isLocked)
  | inside isPc => exact .inside (pc ▸ isPc)
  | followed isPc isMore => exact .followed (pc.trans isPc) (more isMore)
  | linked isPc isNext => exact .linked (pc.trans isPc) (next ▸ isNext)
  | handing x isPc isNext => exact .handing x (pc.trans isPc) (next.trans isNext)

theorem Prepared.congr {s t : Mcs C} {c : C} (prepared : Prepared s c) (pc : t.pc c = s.pc c)
    (next : t.next c = s.next c) (locked : t.locked c = s.locked c) : Prepared t c := by
  unfold Prepared at prepared ⊢
  rw [pc, next, locked]
  exact prepared

structure Elsewhere (s t : Mcs C) (c : C) : Prop where
  pc : ∀ d, d ≠ c → t.pc d = s.pc d
  next : ∀ d, d ≠ c → t.next d = s.next d
  locked : ∀ d, d ≠ c → t.locked d = s.locked d

namespace Inv

variable {s t : Mcs C} {line : List C} {a b c : C}

theorem head_of_holds (inv : Inv s line) (holds : (s.pc c).Holds) : line.head? = some c := by
  rcases head_or_behind ((inv.member c).mpr (.inr holds)) with head | ⟨a, behind⟩
  · exact head
  · exact absurd holds (Pc.not_holds_of_waits (inv.behind a c behind).waits)

theorem behind_of_waits (inv : Inv s line) (waits : (s.pc c).Waits) (notFree : s.pc c = .spin → s.locked c = true) :
    ∃ a, Behind line a c := by
  rcases head_or_behind ((inv.member c).mpr (.inl waits)) with head | behind
  · have leading := inv.first c head
    cases leading with
    | free pc locked => simp [notFree pc] at locked
    | inside pc => rcases pc with pc | pc <;> rw [pc] at waits <;> exact waits.elim
    | followed pc more => rw [pc] at waits; exact waits.elim
    | linked pc next => rw [pc] at waits; exact waits.elim
    | handing x pc next => rw [pc] at waits; exact waits.elim
  · exact behind

theorem outside (inv : Inv s line) (elsewhere : Elsewhere s t c) (out : ¬((s.pc c).Waits ∨ (s.pc c).Holds))
    (still : ¬((t.pc c).Waits ∨ (t.pc c).Holds)) (prepared : Prepared t c) (tail : t.tail = s.tail)
    (turns : t.turns = s.turns) : Inv t line := by
  have absent : c ∉ line := fun member => out ((inv.member c).mp member)
  have other : ∀ {d}, d ∈ line → d ≠ c := fun member same => absent (same ▸ member)
  refine ⟨inv.distinct, tail.trans inv.tail, ?_, ?_, ?_, ?_, ?_, turns ▸ inv.joined, ?_⟩
  · intro d
    by_cases same : d = c
    · subst same
      exact iff_of_false absent still
    · rw [elsewhere.pc d same]
      exact inv.member d
  · intro d head
    have different := other (List.mem_of_mem_head? head)
    exact (inv.first d head).congr (elsewhere.pc d different) (elsewhere.next d different)
      (elsewhere.locked d different) id
  · intro d e behind
    have left := other behind.left_mem
    have right := other behind.right_mem
    exact (inv.behind d e behind).congr (elsewhere.pc e right) (elsewhere.next d left) (elsewhere.locked e right)
  · intro d last
    rw [elsewhere.next d (other (List.mem_of_getLast? last))]
    exact inv.last d last
  · intro d
    by_cases same : d = c
    · subst same
      exact prepared
    · exact (inv.prepared d).congr (elsewhere.pc d same) (elsewhere.next d same) (elsewhere.locked d same)
  · rw [turns]
    rcases inv.entered with ⟨entered, none⟩ | ⟨h, head, holds, entered⟩
    · refine .inl ⟨entered, fun d holds => ?_⟩
      by_cases same : d = c
      · subst same
        exact still (.inr holds)
      · rw [elsewhere.pc d same] at holds
        exact none d holds
    · refine .inr ⟨h, head, ?_, entered⟩
      rw [elsewhere.pc h (other (List.mem_of_mem_head? head))]
      exact holds

theorem prepared_of_queued {d : C} (queued : (t.pc d).Waits ∨ (t.pc d).Holds) : Prepared t d := by
  unfold Prepared
  generalize t.pc d = pc at queued ⊢
  rcases queued with waits | holds
  · cases pc <;> trivial
  · cases pc <;> trivial

theorem lead (inv : Inv s line) (head : line.head? = some c) (others : ∀ d, d ≠ c → t.pc d = s.pc d)
    (holds : (t.pc c).Holds) (leading : Leading t line c) (next : t.next = s.next) (locked : t.locked = s.locked)
    (tail : t.tail = s.tail) (joined : t.turns.joined = s.turns.joined) (left : t.turns.left = s.turns.left)
    (entered : t.turns.entered = s.turns.left ++ [c]) : Inv t line := by
  refine ⟨inv.distinct, tail.trans inv.tail, ?_, ?_, ?_, next ▸ inv.last, ?_, ?_, ?_⟩
  · intro d
    by_cases same : d = c
    · subst same
      exact iff_of_true (List.mem_of_mem_head? head) (.inr holds)
    · rw [others d same]
      exact inv.member d
  · intro d first
    cases head.symm.trans first
    exact leading
  · intro d e behind
    have different : e ≠ c := by
      intro same
      exact behind.not_head inv.distinct (same ▸ head)
    exact (inv.behind d e behind).congr (others e different) (congrFun next d) (congrFun locked e)
  · intro d
    by_cases same : d = c
    · subst same
      exact prepared_of_queued (.inr holds)
    · exact (inv.prepared d).congr (others d same) (congrFun next d) (congrFun locked d)
  · rw [joined, left]
    exact inv.joined
  · rw [left]
    exact .inr ⟨c, head, holds, entered⟩

/-- Somebody who waits goes on; it may write to its node and to the one before it. -/
theorem follow (inv : Inv s line) (behind : Behind line a c) (unlinked : s.next a = none)
    (others : ∀ d, d ≠ c → t.pc d = s.pc d) (waits : (t.pc c).Waits) (joining : Joining t a c)
    (next : ∀ d, d ≠ a → t.next d = s.next d) (locked : ∀ d, d ≠ c → t.locked d = s.locked d)
    (tail : t.tail = s.tail) (turns : t.turns = s.turns) : Inv t line := by
  have notFirst : ∀ {d}, line.head? = some d → d ≠ c := by
    intro d head same
    exact behind.not_head inv.distinct (same ▸ head)
  have queued : ∀ {d}, d ∈ line → (t.pc d).Waits ∨ (t.pc d).Holds := by
    intro d member
    by_cases same : d = c
    · rw [same]
      exact .inl waits
    · rw [others d same]
      exact (inv.member d).mp member
  refine ⟨inv.distinct, tail.trans inv.tail, ?_, ?_, ?_, ?_, ?_, turns ▸ inv.joined, ?_⟩
  · intro d
    by_cases same : d = c
    · subst same
      exact iff_of_true behind.right_mem (.inl waits)
    · rw [others d same]
      exact inv.member d
  · intro d head
    have different := notFirst head
    have leading := inv.first d head
    by_cases same : d = a
    · -- the one before has not seen anybody behind it
      subst same
      cases leading with
      | free pc isLocked => exact .free ((others d different).trans pc) ((locked d different).trans isLocked)
      | inside pc => exact .inside ((others d different).symm ▸ pc)
      | followed pc more => exact .followed ((others d different).trans pc) more
      | linked pc isNext => exact absurd unlinked isNext
      | handing x pc isNext => rw [unlinked] at isNext; cases isNext
    · exact leading.congr (others d different) (next d same) (locked d different) id
  · intro d e link
    by_cases same : e = c
    · rw [same] at link ⊢
      rw [link.left_unique behind inv.distinct]
      exact joining
    · have different : d ≠ a := by
        intro same'
        rw [same'] at link
        exact same (link.right_unique behind inv.distinct)
      exact (inv.behind d e link).congr (others e same) (next d different) (locked e same)
  · intro d last
    have different : d ≠ a := by
      intro same
      exact behind.not_last inv.distinct (same ▸ last)
    rw [next d different]
    exact inv.last d last
  · intro d
    by_cases member : d ∈ line
    · exact prepared_of_queued (queued member)
    · have notC : d ≠ c := fun same => member (same ▸ behind.right_mem)
      have notA : d ≠ a := fun same => member (same ▸ behind.left_mem)
      exact (inv.prepared d).congr (others d notC) (next d notA) (locked d notC)
  · rw [turns]
    rcases inv.entered with ⟨entered, none⟩ | ⟨h, head, holds, entered⟩
    · refine .inl ⟨entered, fun d holds => ?_⟩
      by_cases same : d = c
      · rw [same] at holds
        exact Pc.not_holds_of_waits waits holds
      · rw [others d same] at holds
        exact none d holds
    · refine .inr ⟨h, head, ?_, entered⟩
      rw [others h (notFirst head)]
      exact holds

theorem joins (inv : Inv s line) (out : ¬((s.pc c).Waits ∨ (s.pc c).Holds)) (isNext : s.next c = none)
    (others : ∀ d, d ≠ c → t.pc d = s.pc d) (waits : (t.pc c).Waits) (next : t.next = s.next)
    (locked : t.locked = s.locked) (tail : t.tail = some c) (joined : t.turns.joined = s.turns.joined ++ [c])
    (left : t.turns.left = s.turns.left) (entered : t.turns.entered = s.turns.entered)
    (alone : line = [] → Leading t [c] c) (behind : ∀ a, line.getLast? = some a → Joining t a c) :
    Inv t (line ++ [c]) := by
  have absent : c ∉ line := fun member => out ((inv.member c).mp member)
  have other : ∀ {d}, d ∈ line → d ≠ c := fun member same => absent (same ▸ member)
  refine ⟨?_, by rw [tail, List.getLast?_concat], ?_, ?_, ?_, ?_, ?_, ?_, ?_⟩
  · rw [List.nodup_append']
    exact ⟨inv.distinct, List.nodup_singleton c, by simpa using absent⟩
  · intro d
    by_cases same : d = c
    · subst same
      exact iff_of_true (by simp) (.inl waits)
    · rw [others d same, ← inv.member d]
      simp [same]
  · intro d head
    cases line with
    | nil =>
      cases head
      exact alone rfl
    | cons b rest =>
      have first : (b :: rest).head? = some d := head
      have different := other (List.mem_of_mem_head? first)
      exact (inv.first d first).congr (others d different) (congrFun next d) (congrFun locked d) (by simp)
  · intro d e link
    rcases behind_append link with old | ⟨last, same⟩
    · exact (inv.behind d e old).congr (others e (other old.right_mem)) (congrFun next d) (congrFun locked e)
    · rw [same]
      exact behind d last
  · intro d last
    rw [List.getLast?_concat] at last
    cases last
    rw [next]
    exact isNext
  · intro d
    by_cases same : d = c
    · subst same
      exact prepared_of_queued (.inl waits)
    · exact (inv.prepared d).congr (others d same) (congrFun next d) (congrFun locked d)
  · rw [joined, left, inv.joined, List.append_assoc]
  · rw [entered, left]
    rcases inv.entered with ⟨entered, none⟩ | ⟨h, head, holds, entered⟩
    · refine .inl ⟨entered, fun d holds => ?_⟩
      by_cases same : d = c
      · rw [same] at holds
        exact Pc.not_holds_of_waits waits holds
      · rw [others d same] at holds
        exact none d holds
    · refine .inr ⟨h, ?_, ?_, entered⟩
      · rw [List.head?_append, head]
        rfl
      · rw [others h (other (List.mem_of_mem_head? head))]
        exact holds

theorem empties (inv : Inv s [c]) (others : ∀ d, d ≠ c → t.pc d = s.pc d) (idle : t.pc c = .idle)
    (holds : (s.pc c).Holds) (next : t.next = s.next) (locked : t.locked = s.locked) (tail : t.tail = none)
    (joined : t.turns.joined = s.turns.joined) (left : t.turns.left = s.turns.left ++ [c])
    (entered : t.turns.entered = s.turns.entered) : Inv t [] := by
  have nobody : ∀ d, ¬((t.pc d).Waits ∨ (t.pc d).Holds) := by
    intro d queued
    by_cases same : d = c
    · rw [same, idle] at queued
      exact queued.elim id id
    · rw [others d same] at queued
      exact same (List.mem_singleton.mp ((inv.member d).mpr queued))
  refine ⟨List.nodup_nil, tail, fun d => iff_of_false List.not_mem_nil (nobody d), by simp, ?_, by simp, ?_, ?_, ?_⟩
  · intro a b behind
    exact absurd behind.left_mem List.not_mem_nil
  · intro d
    by_cases same : d = c
    · rw [same, Prepared, idle]
      trivial
    · exact (inv.prepared d).congr (others d same) (congrFun next d) (congrFun locked d)
  · rw [joined, left, inv.joined, List.append_nil]
  · refine .inl ⟨?_, fun d holds => nobody d (.inr holds)⟩
    rcases inv.entered with ⟨_, none⟩ | ⟨h, head, _, isEntered⟩
    · exact absurd holds (none c)
    · cases head
      rw [entered, left, isEntered]

theorem hands (inv : Inv s line) (head : line.head? = some c) (holds : (s.pc c).Holds) (isNext : s.next c = some b)
    (others : ∀ d, d ≠ c → t.pc d = s.pc d) (idle : t.pc c = .idle) (next : t.next = s.next)
    (locked : t.locked b = false) (locked' : ∀ d, d ≠ b → t.locked d = s.locked d) (tail : t.tail = s.tail)
    (joined : t.turns.joined = s.turns.joined) (left : t.turns.left = s.turns.left ++ [c])
    (entered : t.turns.entered = s.turns.entered) : ∃ rest, line = c :: b :: rest ∧ Inv t (b :: rest) := by
  cases line with
  | nil => cases head
  | cons d rest =>
    cases head
    cases rest with
    | nil =>
      have := inv.last c rfl
      rw [isNext] at this
      cases this
    | cons x rest =>
      -- the second one has to be linked, since `next` is not null
      have second := inv.behind c x ⟨[], rest, rfl⟩
      obtain ⟨rfl, spins⟩ : x = b ∧ s.pc x = .spin := by
        cases second with
        | arrived pc unlinked => rw [isNext] at unlinked; cases unlinked
        | locked pc unlinked isLocked => rw [isNext] at unlinked; cases unlinked
        | linked pc linked isLocked => exact ⟨Option.some.inj (linked.symm.trans isNext), pc⟩
      refine ⟨rest, rfl, ?_⟩
      have notAgain : c ∉ x :: rest := (List.nodup_cons.mp inv.distinct).1
      have distinct : (x :: rest).Nodup := (List.nodup_cons.mp inv.distinct).2
      have other : ∀ {d}, d ∈ x :: rest → d ≠ c := fun member same => notAgain (same ▸ member)
      have member : ∀ d, d ∈ x :: rest ↔ (t.pc d).Waits ∨ (t.pc d).Holds := by
        intro d
        by_cases same : d = c
        · rw [same, idle]
          exact iff_of_false notAgain (fun queued => queued.elim id id)
        · rw [others d same, ← inv.member d]
          simp [same]
      refine ⟨distinct, ?_, member, ?_, ?_, ?_, ?_, ?_, ?_⟩
      · rw [tail, inv.tail, List.getLast?_cons_cons]
      · intro d head
        cases head
        exact .free ((others x (other List.mem_cons_self)).trans spins) locked
      · intro d e behind
        have different : e ≠ x := by
          intro same
          exact behind.not_head distinct (by rw [same]; rfl)
        exact (inv.behind d e (behind.cons c)).congr (others e (other behind.right_mem)) (congrFun next d)
          (locked' e different)
      · intro d last
        rw [next]
        exact inv.last d (by rw [List.getLast?_cons_cons]; exact last)
      · intro d
        by_cases inLine : d ∈ x :: rest
        · exact prepared_of_queued ((member d).mp inLine)
        · by_cases same : d = c
          · rw [same, Prepared, idle]
            trivial
          · have different : d ≠ x := fun same => inLine (same ▸ List.mem_cons_self)
            exact (inv.prepared d).congr (others d same) (congrFun next d) (locked' d different)
      · rw [joined, left, inv.joined, List.append_assoc]
        rfl
      · refine .inl ⟨?_, fun d isHolding => ?_⟩
        · rcases inv.entered with ⟨_, none⟩ | ⟨h, head, _, isEntered⟩
          · exact absurd holds (none c)
          · cases head
            rw [entered, left, isEntered]
        · by_cases same : d = c
          · rw [same, idle] at isHolding
            exact isHolding
          · rw [others d same] at isHolding
            cases inv.head_of_holds isHolding
            exact same rfl

end Inv

end

/-! ## One step -/

section
variable {C : Type} [DecidableEq C] {s t : Mcs C} {line : List C} {a b c d : C} {pc : Pc C}

@[simp] theorem goto_pc_self : (s.goto c pc).pc c = pc := by simp [Mcs.goto]

theorem goto_pc_of_ne (different : d ≠ c) : (s.goto c pc).pc d = s.pc d := by simp [Mcs.goto, different]

@[simp] theorem goto_next : (s.goto c pc).next = s.next := rfl

@[simp] theorem goto_locked : (s.goto c pc).locked = s.locked := rfl

theorem Elsewhere.goto : Elsewhere s (s.goto c pc) c where
  pc := fun _ different => goto_pc_of_ne different
  next := fun _ _ => rfl
  locked := fun _ _ => rfl

theorem Elsewhere.setLocked {value : Bool} : Elsewhere s ((s.setLocked c value).goto c pc) c where
  pc := fun _ different => goto_pc_of_ne different
  next := fun _ _ => rfl
  locked := fun _ different => by simp [Mcs.setLocked, different]

theorem Elsewhere.setNext {value : Option C} : Elsewhere s ((s.setNext c value).goto c pc) c where
  pc := fun _ different => goto_pc_of_ne different
  next := fun _ different => by simp [Mcs.setNext, different]
  locked := fun _ _ => rfl

theorem Inv.goto_first (inv : Inv s line) (held : (s.pc c).Holds) (holds : pc.Holds)
    (leading : Leading (s.goto c pc) line c) : Inv (s.goto c pc) line := by
  have head := inv.head_of_holds held
  refine inv.lead head (fun d different => goto_pc_of_ne different) ?_ leading rfl rfl rfl rfl rfl ?_
  · rw [goto_pc_self]
    exact holds
  · rcases inv.entered with ⟨_, none⟩ | ⟨h, first, _, entered⟩
    · exact absurd held (none c)
    · cases head.symm.trans first
      exact entered

theorem Inv.enters (inv : Inv s line) (at_ : s.pc c = .spin) (free : s.locked c = false) :
    line.head? = some c ∧ s.turns.entered = s.turns.left ∧ Inv ((s.enter c).goto c .holding) line := by
  have waits : (s.pc c).Waits := by rw [at_]; trivial
  have head : line.head? = some c := by
    rcases head_or_behind ((inv.member c).mpr (.inl waits)) with head | ⟨a, behind⟩
    · exact head
    · -- whoever stands behind somebody and spins is locked
      cases inv.behind a c behind with
      | arrived pc next => rw [at_] at pc; cases pc
      | locked pc next locked => rw [at_] at pc; cases pc
      | linked pc next locked => rw [free] at locked; cases locked
  have entered : s.turns.entered = s.turns.left := by
    rcases inv.entered with ⟨entered, _⟩ | ⟨h, first, holds, _⟩
    · exact entered
    · cases head.symm.trans first
      exact absurd holds (Pc.not_holds_of_waits waits)
  refine ⟨head, entered, ?_⟩
  refine inv.lead head (fun d different => goto_pc_of_ne different) ?_ ?_ rfl rfl rfl rfl rfl ?_
  · rw [goto_pc_self]
    trivial
  · exact .inside (.inl goto_pc_self)
  · rw [← entered]
    rfl

theorem Inv.swaps (inv : Inv s line) (at_ : s.pc c = .swap s.tail) :
    Inv (({ s with tail := some c }.join c).goto c
      (match s.tail with | none => .spin | some tail => .setLocked tail)) (line ++ [c]) := by
  have prepared : s.locked c = false ∧ s.next c = none := by
    have := inv.prepared c
    rw [Prepared, at_] at this
    exact this
  refine inv.joins ?_ prepared.2 (fun d different => goto_pc_of_ne different) ?_ rfl rfl rfl rfl rfl rfl ?_ ?_
  · rw [at_]
    exact fun queued => queued.elim id id
  · rw [goto_pc_self]
    cases s.tail with
    | none => trivial
    | some tail => trivial
  · intro empty
    have tail : s.tail = none := by
      rw [inv.tail, empty]
      rfl
    rw [tail]
    exact .free goto_pc_self prepared.1
  · intro a last
    have tail : s.tail = some a := inv.tail.trans last
    rw [tail]
    exact .arrived goto_pc_self (inv.last a last)

theorem Inv.locks (inv : Inv s line) (at_ : s.pc c = .setLocked a) :
    Inv ((s.setLocked c true).goto c (.link a)) line := by
  have waits : (s.pc c).Waits := by rw [at_]; trivial
  obtain ⟨b, behind⟩ := inv.behind_of_waits waits (by rw [at_]; nofun)
  obtain ⟨rfl, unlinked⟩ : b = a ∧ s.next b = none := by
    cases inv.behind b c behind with
    | arrived pc next => exact ⟨Pc.setLocked.inj (pc.symm.trans at_), next⟩
    | locked pc next locked => rw [at_] at pc; cases pc
    | linked pc next locked => rw [at_] at pc; cases pc
  refine inv.follow behind unlinked (fun d different => goto_pc_of_ne different) ?_ ?_ (fun _ _ => rfl) ?_ rfl rfl
  · rw [goto_pc_self]
    trivial
  · exact .locked goto_pc_self unlinked (by simp [Mcs.setLocked])
  · exact Elsewhere.setLocked.locked

theorem Inv.links (inv : Inv s line) (at_ : s.pc c = .link a) :
    Inv ((s.setNext a (some c)).goto c .spin) line := by
  have waits : (s.pc c).Waits := by rw [at_]; trivial
  obtain ⟨b, behind⟩ := inv.behind_of_waits waits (by rw [at_]; nofun)
  obtain ⟨rfl, unlinked, locked⟩ : b = a ∧ s.next b = none ∧ s.locked c = true := by
    cases inv.behind b c behind with
    | arrived pc next => rw [at_] at pc; cases pc
    | locked pc next locked => exact ⟨Pc.link.inj (pc.symm.trans at_), next, locked⟩
    | linked pc next locked => rw [at_] at pc; cases pc
  refine inv.follow behind unlinked (fun d different => goto_pc_of_ne different) ?_ ?_ ?_ (fun _ _ => rfl) rfl rfl
  · rw [goto_pc_self]
    trivial
  · exact .linked goto_pc_self (by simp [Mcs.setNext]) locked
  · intro d different
    simp [Mcs.setNext, different]

-- The exchange of `mcsrelease` succeeds: nobody has come in the meantime.
theorem Inv.unswaps (inv : Inv s line) (at_ : s.pc c = .unswap) (tail : s.tail = some c) :
    s.turns.entered = s.turns.left ++ [c] ∧ Inv (({ s with tail := none }.leave c).goto c .idle) [] := by
  have holds : (s.pc c).Holds := by rw [at_]; trivial
  have only := line_eq_single (inv.head_of_holds holds) (inv.tail.symm.trans tail) inv.distinct
  subst only
  constructor
  · rcases inv.entered with ⟨_, none⟩ | ⟨h, first, _, entered⟩
    · exact absurd holds (none c)
    · cases first
      exact entered
  · exact inv.empties (fun d different => goto_pc_of_ne different) goto_pc_self holds rfl rfl rfl rfl rfl rfl

theorem Inv.waits_next (inv : Inv s line) (at_ : s.pc c = .unswap) (tail : s.tail ≠ some c) :
    Inv (s.goto c .waitNext) line := by
  have holds : (s.pc c).Holds := by rw [at_]; trivial
  have more : line ≠ [c] := by
    intro only
    exact tail (by rw [inv.tail, only]; rfl)
  exact inv.goto_first holds trivial (.followed goto_pc_self more)

theorem Inv.unlocks (inv : Inv s line) (at_ : s.pc c = .unlock b) :
    s.turns.entered = s.turns.left ++ [c] ∧
      ∃ rest, Inv (((s.setLocked b false).leave c).goto c .idle) (b :: rest) := by
  have holds : (s.pc c).Holds := by rw [at_]; trivial
  have head := inv.head_of_holds holds
  have isNext : s.next c = some b := by
    cases inv.first c head with
    | free pc locked => rw [at_] at pc; cases pc
    | inside pc => rw [at_] at pc; exact absurd pc (by nofun)
    | followed pc more => rw [at_] at pc; cases pc
    | linked pc next => rw [at_] at pc; cases pc
    | handing x pc next => exact (Pc.unlock.inj (at_.symm.trans pc)) ▸ next
  have given : ∃ rest, line = c :: b :: rest ∧ Inv (((s.setLocked b false).leave c).goto c .idle) (b :: rest) := by
    refine inv.hands head holds isNext (fun d different => goto_pc_of_ne different) goto_pc_self rfl ?_ ?_
      rfl rfl rfl rfl
    · simp [Mcs.setLocked, Mcs.leave]
    · intro d different
      simp [Mcs.setLocked, Mcs.leave, different]
  obtain ⟨rest, _, kept⟩ := given
  refine ⟨?_, rest, kept⟩
  rcases inv.entered with ⟨_, none⟩ | ⟨h, first, _, entered⟩
  · exact absurd holds (none c)
  · cases head.symm.trans first
    exact entered

/-- A CPU with a next access is able to make it, and the line stays in order. -/
theorem Inv.access (inv : Inv s line) (idle : s.pc c ≠ .idle) (holding : s.pc c ≠ .holding) :
    ∃ t line', access c s = some t ∧ Inv t line' ∧ (t.turns = s.turns ∨ s.turns.Step t.turns) := by
  have prepared := inv.prepared c
  rw [Prepared] at prepared
  unfold Lock.access
  cases at_ : s.pc c with
  | idle => exact absurd at_ idle
  | holding => exact absurd at_ holding
  | clearLocked =>
    refine ⟨_, line, rfl, ?_, .inl rfl⟩
    refine inv.outside .setLocked (by simp [at_, Pc.Waits, Pc.Holds]) (by simp [Pc.Waits, Pc.Holds]) ?_ rfl rfl
    rw [Prepared, goto_pc_self]
    simp [Mcs.setLocked]
  | clearNext =>
    rw [at_] at prepared
    refine ⟨_, line, rfl, ?_, .inl rfl⟩
    refine inv.outside .setNext (by simp [at_, Pc.Waits, Pc.Holds]) (by simp [Pc.Waits, Pc.Holds]) ?_ rfl rfl
    rw [Prepared, goto_pc_self]
    exact ⟨prepared, by simp [Mcs.setNext]⟩
  | loadTail =>
    rw [at_] at prepared
    refine ⟨_, line, rfl, ?_, .inl rfl⟩
    refine inv.outside .goto (by simp [at_, Pc.Waits, Pc.Holds]) (by simp [Pc.Waits, Pc.Holds]) ?_ rfl rfl
    rw [Prepared, goto_pc_self]
    exact prepared
  | swap tail =>
    rw [at_] at prepared
    by_cases same : s.tail = tail
    · subst same
      refine ⟨_, line ++ [c], if_pos rfl, inv.swaps at_, .inr ?_⟩
      exact .join s.turns c
    · -- somebody else has come since `lk->next` was loaded
      refine ⟨_, line, if_neg same, ?_, .inl rfl⟩
      refine inv.outside .goto (by simp [at_, Pc.Waits, Pc.Holds]) (by simp [Pc.Waits, Pc.Holds]) ?_ rfl rfl
      rw [Prepared, goto_pc_self]
      exact prepared
  | setLocked tail => exact ⟨_, line, rfl, inv.locks at_, .inl rfl⟩
  | link tail => exact ⟨_, line, rfl, inv.links at_, .inl rfl⟩
  | spin =>
    by_cases locked : s.locked c = true
    · exact ⟨s, line, if_pos locked, inv, .inl rfl⟩
    · have enters := inv.enters at_ (Bool.eq_false_iff.mpr locked)
      obtain ⟨rest, isLine⟩ := List.head?_eq_some_iff.mp enters.1
      refine ⟨_, line, if_neg locked, enters.2.2, .inr ?_⟩
      exact .enter s.turns c rest (isLine ▸ inv.joined) enters.2.1
  | unswap =>
    by_cases tail : s.tail = some c
    · have unswaps := inv.unswaps at_ tail
      refine ⟨_, [], if_pos tail, unswaps.2, .inr ?_⟩
      exact .leave s.turns c unswaps.1
    · exact ⟨_, line, if_neg tail, inv.waits_next at_ tail, .inl rfl⟩
  | waitNext =>
    by_cases unlinked : s.next c = none
    · exact ⟨s, line, if_pos unlinked, inv, .inl rfl⟩
    · refine ⟨_, line, if_neg unlinked, ?_, .inl rfl⟩
      exact inv.goto_first (by rw [at_]; trivial) trivial (.linked goto_pc_self unlinked)
  | loadNext =>
    have holds : (s.pc c).Holds := by rw [at_]; trivial
    cases found : s.next c with
    | none =>
      -- the node behind stays linked
      cases inv.first c (inv.head_of_holds holds) with
      | free pc locked => rw [at_] at pc; cases pc
      | inside pc => rw [at_] at pc; exact absurd pc (by nofun)
      | followed pc more => rw [at_] at pc; cases pc
      | linked pc next => exact absurd found next
      | handing x pc next => rw [at_] at pc; cases pc
    | some x =>
      refine ⟨_, line, rfl, ?_, .inl rfl⟩
      exact inv.goto_first holds trivial (.handing x goto_pc_self found)
  | unlock x =>
    obtain ⟨entered, rest, kept⟩ := inv.unlocks at_
    exact ⟨_, x :: rest, rfl, kept, .inr (.leave s.turns c entered)⟩

theorem access_enabled {t : Mcs C} (made : access c s = some t) : s.pc c ≠ .idle ∧ s.pc c ≠ .holding := by
  constructor
  · intro at_
    rw [access, at_] at made
    cases made
  · intro at_
    rw [access, at_] at made
    cases made

theorem Inv.step {act : Act C} (inv : Inv s line) (stepped : step act s = some t) :
    (∃ line', Inv t line') ∧ (t.turns = s.turns ∨ s.turns.Step t.turns) := by
  cases act with
  | acquire c =>
    cases at_ : s.pc c <;> simp only [Lock.step, at_] at stepped <;> cases stepped
    refine ⟨⟨line, inv.outside .goto ?_ ?_ ?_ rfl rfl⟩, .inl rfl⟩
    · simp [at_, Pc.Waits, Pc.Holds]
    · simp [Pc.Waits, Pc.Holds]
    · rw [Prepared, goto_pc_self]
      trivial
  | release c =>
    cases at_ : s.pc c <;> simp only [Lock.step, at_] at stepped <;> cases stepped
    exact ⟨⟨line, inv.goto_first (by rw [at_]; trivial) trivial (.inside (.inr goto_pc_self))⟩, .inl rfl⟩
  | access c =>
    have enabled := access_enabled stepped
    obtain ⟨u, line', made, kept, turns⟩ := inv.access enabled.1 enabled.2
    cases made.symm.trans stepped
    exact ⟨⟨line', kept⟩, turns⟩

end

/-! ## Every run -/

section
variable {C : Type}

/-- Nobody has called either function, and the nodes hold anything. -/
def Mcs.boot (next : C → Option C) (locked : C → Bool) : Mcs C where
  tail := none
  next := next
  locked := locked
  pc := fun _ => .idle
  turns := ⟨[], [], []⟩

theorem boot_inv (next : C → Option C) (locked : C → Bool) : Inv (Mcs.boot next locked) [] where
  distinct := List.nodup_nil
  tail := rfl
  member := fun _ => iff_of_false List.not_mem_nil (fun queued => queued.elim id id)
  first := nofun
  behind := fun _ _ behind => absurd behind.left_mem List.not_mem_nil
  last := nofun
  prepared := fun _ => trivial
  joined := rfl
  entered := .inl ⟨rfl, fun _ => id⟩

/-- The CPUs stand in a line, and the turns so far are those of a fair lock. -/
def Queued (s : Mcs C) : Prop := (∃ line, Inv s line) ∧ s.turns.Fair

theorem boot_queued (next : C → Option C) (locked : C → Bool) : Queued (Mcs.boot next locked) :=
  ⟨⟨[], boot_inv next locked⟩, List.prefix_rfl, List.prefix_rfl⟩

variable [DecidableEq C]

theorem step_queued (act : Act C) (s t : Mcs C) (queued : Queued s) (stepped : step act s = some t) : Queued t := by
  obtain ⟨⟨line, inv⟩, fair⟩ := queued
  obtain ⟨kept, turns⟩ := inv.step stepped
  refine ⟨kept, ?_⟩
  rcases turns with same | turn
  · rw [same]
    exact fair
  · exact turn.fair fair

/-- In every run the lock has one holder at most, lets the CPUs in as they joined, and is free when nobody has or
awaits it. No access follows a null pointer. -/
theorem mcs_fair_exclusive {next : C → Option C} {locked : C → Bool} {acts : List (Act C)} {s : Mcs C}
    (ran : run step acts (Mcs.boot next locked) = some s) :
    (∀ c d, (s.pc c).Holds → (s.pc d).Holds → c = d) ∧ s.turns.entered <+: s.turns.joined ∧
      ((∀ c, ¬(s.pc c).Holds ∧ ¬(s.pc c).Waits) → s.tail = none) ∧
      ∀ c, s.pc c ≠ .idle → s.pc c ≠ .holding → ∃ t, step (.access c) s = some t := by
  obtain ⟨⟨line, inv⟩, fair⟩ := run_invariant step_queued (boot_queued next locked) ran
  refine ⟨?_, fair.entered, ?_, ?_⟩
  · intro c d first second
    exact Option.some.inj ((inv.head_of_holds first).symm.trans (inv.head_of_holds second))
  · intro nobody
    rw [inv.tail]
    cases line with
    | nil => rfl
    | cons c rest =>
      rcases (inv.member c).mp List.mem_cons_self with waits | holds
      · exact absurd waits (nobody c).2
      · exact absurd holds (nobody c).1
  · intro c idle holding
    obtain ⟨t, _, made, _⟩ := inv.access idle holding
    exact ⟨t, made⟩

end

/-- The second CPU comes while the first one holds the lock, and gets it. -/
theorem mcs_fair_exclusive_two :
    let acts : List (Act Bool) := [.acquire true, .acquire false] ++ List.replicate 5 (.access true) ++
      List.replicate 6 (.access false) ++ [.release true] ++ List.replicate 4 (.access true) ++ [.access false]
    ∃ s, run step acts (Mcs.boot (fun _ => some true) fun _ => true) = some s ∧ s.turns.entered = [true, false] ∧
      s.turns.entered <+: s.turns.joined ∧ ∀ c d, (s.pc c).Holds → (s.pc d).Holds → c = d := by
  intro acts
  obtain ⟨s, ran⟩ : ∃ s, run step acts (Mcs.boot (fun _ => some true) fun _ => true) = some s := ⟨_, rfl⟩
  have fair := mcs_fair_exclusive ran
  refine ⟨s, ran, ?_, fair.2.1, fair.1⟩
  cases ran
  rfl

end Xv6.Lock
