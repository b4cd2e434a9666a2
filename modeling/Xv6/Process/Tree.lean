import Xv6.Process.Scheduling

/-! Parents, children and zombies in every run in which the initial process stays.

`Family` is the invariant: whoever is a parent is alive, `initproc` is an orphan,
and a process that sleeps in `wait` has no zombie among its children.
-/

set_option autoImplicit false

namespace Xv6.Process

open Library

section
variable {C : Type} {n : Nat}

def Proc.Alive (x : Proc n) : Prop := x.state ≠ .unused ∧ x.state ≠ .zombie

theorem Proc.alive_of_running {x : Proc n} (running : x.state = .running) : x.Alive :=
  ⟨by simp [running], by simp [running]⟩

structure Family (addr : Fin n → UInt64) (s : Kernel C n) : Prop where
  orphan : ∀ p, (s.table.proc p).state = .unused → (s.table.proc p).parent = none
  alive : ∀ q p, (s.table.proc q).parent = some p → (s.table.proc p).Alive
  irreflexive : ∀ p, (s.table.proc p).parent ≠ some p
  init : ∀ p, s.table.initproc = some p → (s.table.proc p).Alive ∧ (s.table.proc p).parent = none
  /-- The child of `user_init` has no parent. -/
  boot : ∀ p, (s.thread none).child = some p → (s.table.proc p).parent = none
  /-- The child of a `fork` is not the initial process. -/
  forked : ∀ par p, (s.thread (some par)).child = some p → s.table.initproc ≠ some p
  waiting : ∀ p, (s.table.proc p).state = .sleeping → (s.table.proc p).context = .wait →
    (s.table.proc p).chan = addr p ∧ ∀ q, (s.table.proc q).parent = some p → (s.table.proc q).state ≠ .zombie

namespace Family

variable {addr : Fin n → UInt64} {s t : Kernel C n}

/-- Processes that keep their parents, stay alive or not as they were, and go to sleep
in `wait` only as the invariant wants it. -/
theorem keep (family : Family addr s) (initproc : t.table.initproc = s.table.initproc)
    (thread : ∀ owner p, (t.thread owner).child = some p → (s.thread owner).child = some p)
    (parent : ∀ p, (t.table.proc p).parent = (s.table.proc p).parent)
    (unused : ∀ p, (t.table.proc p).state = .unused ↔ (s.table.proc p).state = .unused)
    (zombie : ∀ p, (t.table.proc p).state = .zombie ↔ (s.table.proc p).state = .zombie)
    (asleep : ∀ p, (t.table.proc p).state = .sleeping → (t.table.proc p).context = .wait →
      ((s.table.proc p).state = .sleeping ∧ (s.table.proc p).context = .wait ∧
        (t.table.proc p).chan = (s.table.proc p).chan) ∨
      ((t.table.proc p).chan = addr p ∧
        ∀ q, (s.table.proc q).parent = some p → (s.table.proc q).state ≠ .zombie)) : Family addr t := by
  have alive : ∀ p, (t.table.proc p).Alive ↔ (s.table.proc p).Alive := fun p => by
    simp only [Proc.Alive, ne_eq, unused p, zombie p]
  refine ⟨?_, ?_, ?_, ?_, ?_, ?_, ?_⟩
  · intro p free
    exact (parent p).trans (family.orphan p ((unused p).mp free))
  · intro q p isParent
    exact (alive p).mpr (family.alive q p (parent q ▸ isParent))
  · intro p
    exact parent p ▸ family.irreflexive p
  · intro p isInit
    obtain ⟨lives, noParent⟩ := family.init p (initproc ▸ isInit)
    exact ⟨(alive p).mpr lives, (parent p).trans noParent⟩
  · intro p isChild
    exact (parent p).trans (family.boot p (thread none p isChild))
  · intro par p isChild
    exact initproc ▸ family.forked par p (thread (some par) p isChild)
  · intro p sleeps inWait
    rcases asleep p sleeps inWait with ⟨slept, waited, chan⟩ | ⟨chan, none⟩
    · obtain ⟨itself, none⟩ := family.waiting p slept waited
      refine ⟨chan.trans itself, fun q isParent dead => ?_⟩
      exact none q (parent q ▸ isParent) ((zombie q).mp dead)
    · exact ⟨chan, fun q isParent dead => none q (parent q ▸ isParent) ((zombie q).mp dead)⟩

theorem setLinks {table : Table C n} (family : Family addr (s.setTable table)) (links : Links (ListHead n)) :
    Family addr (s.setTable (table.setLinks links)) :=
  ⟨family.orphan, family.alive, family.irreflexive, family.init, family.boot, family.forked, family.waiting⟩

/-- A change of one living process that keeps its parent and leaves it alive. -/
theorem change {p : Fin n} {x : Proc n} (family : Family addr s) (cpu : C → Option (Fin n))
    (lives : (s.table.proc p).Alive) (parent : x.parent = (s.table.proc p).parent) (alive : x.Alive)
    (asleep : x.state = .sleeping → x.context = .wait →
      x.chan = addr p ∧ ∀ q, (s.table.proc q).parent = some p → (s.table.proc q).state ≠ .zombie) :
    Family addr (s.setTable { s.table.setProc p x with cpu := cpu }) := by
  refine family.keep rfl (fun _ _ isChild => isChild) ?_ ?_ ?_ ?_
  · intro q
    by_cases same : q = p <;> simp [Kernel.setTable, same, parent]
  · intro q
    by_cases same : q = p <;> simp [Kernel.setTable, same, lives.1, alive.1]
  · intro q
    by_cases same : q = p <;> simp [Kernel.setTable, same, lives.2, alive.2]
  · intro q sleeps inWait
    by_cases same : q = p
    · subst same
      simp only [Kernel.setTable, Table.setProc_proc, if_true] at sleeps inWait ⊢
      exact .inr (asleep sleeps inWait)
    · simp only [Kernel.setTable, Table.setProc_proc, if_neg same] at sleeps inWait ⊢
      exact .inl ⟨sleeps, inWait, trivial⟩

theorem woken (family : Family addr s) (chan : UInt64) : Family addr (s.setTable (s.table.wake chan)) := by
  refine family.keep rfl (fun _ _ isChild => isChild) ?_ ?_ ?_ ?_
  · exact fun p => woken_parent chan _
  · intro p
    rcases Process.woken_cases chan (s.table.proc p) with ⟨same, _⟩ | ⟨slept, awake⟩
    · simp [Kernel.setTable, Table.wake, same]
    · simp [Kernel.setTable, Table.wake, slept, awake]
  · exact fun p => woken_state_zombie chan _
  · intro p sleeps inWait
    rcases Process.woken_cases chan (s.table.proc p) with ⟨same, _⟩ | ⟨_, awake⟩
    · simp only [Kernel.setTable, Table.wake, Table.setProcs_proc, same] at sleeps inWait ⊢
      exact .inl ⟨sleeps, inWait, trivial⟩
    · simp [Kernel.setTable, Table.wake, awake] at sleeps

theorem readied {owner : Option (Fin n)} (family : Family addr s) (placed : Placed s)
    (ready : Readied owner s t) : Family addr t := by
  obtain ⟨child, prio, links, busy, rfl⟩ := ready
  have embryo := placed.pending owner child (by rw [busy]; rfl)
  have changed := family.change s.table.cpu (p := child)
    (x := { s.table.proc child with state := .runnable, prio := prio })
    ⟨by simp [embryo], by simp [embryo]⟩ rfl ⟨by simp, by simp⟩ (by simp)
  refine changed.keep rfl ?_ (fun _ => rfl) (fun _ => Iff.rfl) (fun _ => Iff.rfl)
    fun _ sleeps inWait => .inl ⟨sleeps, inWait, rfl⟩
  intro o p isChild
  by_cases same : o = owner
  · simp [same, Thread.child] at isChild
  · have kept : Function.update s.thread owner .free o = s.thread o := Function.update_of_ne same _ _
    exact (congrArg Thread.child kept).symm.trans isChild

theorem started {owner : Option (Fin n)} (family : Family addr s) (start : Started owner s t) : Family addr t := by
  obtain ⟨_, child, kstack, links, unused, rfl⟩ := start
  have noParent := family.orphan child unused
  have childless : ∀ q, (s.table.proc q).parent ≠ some child := fun q isParent =>
    (family.alive q child isParent).1 unused
  have parent : ∀ q, (((s.table.allocated child kstack).setLinks links).proc q).parent = (s.table.proc q).parent := by
    intro q
    by_cases same : q = child
    · simp [Table.allocated, same]
    · simp [Table.allocated, same]
  have other : ∀ q, q ≠ child →
      ((s.table.allocated child kstack).setLinks links).proc q = s.table.proc q := by
    intro q different
    simp [Table.allocated, different]
  have alive : ∀ q, (s.table.proc q).Alive → (((s.table.allocated child kstack).setLinks links).proc q).Alive := by
    intro q lives
    have different : q ≠ child := by
      rintro rfl
      exact lives.1 unused
    exact other q different ▸ lives
  have threads : ∀ o p, (Function.update s.thread owner (.allocated child) o).child = some p →
      p = child ∨ (s.thread o).child = some p := by
    intro o p isChild
    by_cases same : o = owner
    · simp only [same, Function.update_self, Thread.child, Option.some.injEq] at isChild
      exact .inl isChild.symm
    · rw [Function.update_of_ne same] at isChild
      exact .inr isChild
  refine ⟨?_, ?_, ?_, ?_, ?_, ?_, ?_⟩
  · intro q free
    by_cases same : q = child
    · exact (parent q).trans (same ▸ noParent)
    · exact (parent q).trans (family.orphan q (other q same ▸ free))
  · intro q p isParent
    exact alive p (family.alive q p (parent q ▸ isParent))
  · intro p
    exact parent p ▸ family.irreflexive p
  · intro p isInit
    obtain ⟨lives, orphaned⟩ := family.init p isInit
    exact ⟨alive p lives, (parent p).trans orphaned⟩
  · intro p isChild
    rcases threads none p isChild with rfl | old
    · exact (parent p).trans noParent
    · exact (parent p).trans (family.boot p old)
  · intro par p isChild isInit
    rcases threads (some par) p isChild with rfl | old
    · exact (family.init p isInit).1.1 unused
    · exact family.forked par p old isInit
  · intro p sleeps inWait
    have different : p ≠ child := by
      rintro rfl
      simp [Table.allocated] at sleeps
    have same := other p different
    obtain ⟨itself, none⟩ := family.waiting p (same ▸ sleeps) (same ▸ inWait)
    refine ⟨same ▸ itself, fun q isParent => ?_⟩
    have isParent' : (s.table.proc q).parent = some p := parent q ▸ isParent
    have notChild : q ≠ child := by
      rintro rfl
      simp [noParent] at isParent'
    exact other q notChild ▸ none q isParent'

/-- `initproc` can become any process that is alive, has no parent and is in no `fork`. -/
theorem setInit {child : Fin n} (family : Family addr s) (alive : (s.table.proc child).Alive)
    (noParent : (s.table.proc child).parent = none) (forked : ∀ par, (s.thread (some par)).child ≠ some child) :
    Family addr (s.setTable { s.table with initproc := some child }) where
  orphan := family.orphan
  alive := family.alive
  irreflexive := family.irreflexive
  init p isInit := by
    obtain rfl : child = p := Option.some.inj isInit
    exact ⟨alive, noParent⟩
  boot := family.boot
  forked par p isChild isInit := by
    obtain rfl : child = p := Option.some.inj isInit
    exact forked par isChild
  waiting := family.waiting

theorem forkCopied {par child : Fin n} {sz : UInt64} (family : Family addr s) (placed : Placed s)
    (running : (s.table.proc par).state = .running) (busy : s.thread (some par) = .allocated child) :
    Family addr
      ⟨s.table.setProc child { s.table.proc child with parent := some par, sz := sz },
        Function.update s.thread (some par) (.copied child)⟩ := by
  have isChild : (s.thread (some par)).child = some child := by rw [busy]; rfl
  have embryo := placed.pending (some par) child isChild
  have threads : ∀ o, (Function.update s.thread (some par) (.copied child) o).child = (s.thread o).child := by
    intro o
    by_cases same : o = some par
    · rw [same, Function.update_self, isChild]
      rfl
    · rw [Function.update_of_ne same]
  have state : ∀ q, ((s.table.setProc child
      { s.table.proc child with parent := some par, sz := sz }).proc q).state = (s.table.proc q).state := by
    intro q
    by_cases same : q = child
    · simp [same]
    · simp [same]
  have parent : ∀ q p, ((s.table.setProc child
      { s.table.proc child with parent := some par, sz := sz }).proc q).parent = some p →
      (q = child ∧ p = par) ∨ (s.table.proc q).parent = some p := by
    intro q p isParent
    by_cases same : q = child
    · exact .inl ⟨same, by simpa [same, eq_comm] using isParent⟩
    · exact .inr (by simpa [same] using isParent)
  have notParent : par ≠ child := by
    rintro rfl
    simp [running] at embryo
  have alive : ∀ p, ((s.table.setProc child
      { s.table.proc child with parent := some par, sz := sz }).proc p).Alive ↔ (s.table.proc p).Alive := fun p => by
    simp only [Proc.Alive, state p]
  refine ⟨?_, ?_, ?_, ?_, ?_, ?_, ?_⟩
  · intro q free
    have different : q ≠ child := by
      rintro rfl
      simp [embryo] at free
    simpa [different] using family.orphan q (by simpa [different] using free)
  · intro q p isParent
    refine (alive p).mpr ?_
    rcases parent q p isParent with ⟨rfl, rfl⟩ | old
    · exact ⟨by simp [running], by simp [running]⟩
    · exact family.alive q p old
  · intro p isParent
    rcases parent p p isParent with ⟨isChild, isPar⟩ | old
    · exact notParent (isPar.symm.trans isChild)
    · exact family.irreflexive p old
  · intro p isInit
    obtain ⟨lives, orphaned⟩ := family.init p isInit
    have different : p ≠ child := by
      rintro rfl
      exact family.forked par p isChild isInit
    exact ⟨(alive p).mpr lives, by simpa [different] using orphaned⟩
  · intro p bootChild
    have old : (s.thread none).child = some p := threads none ▸ bootChild
    have different : p ≠ child := by
      rintro rfl
      exact absurd (placed.apart none (some par) p old isChild) (by simp)
    simpa [different] using family.boot p old
  · intro other p isChild'
    exact family.forked other p (threads (some other) ▸ isChild')
  · intro p sleeps inWait
    have sleeps' := (state p).symm.trans sleeps
    have different : p ≠ child := by
      rintro rfl
      simp [embryo] at sleeps'
    obtain ⟨itself, none⟩ := family.waiting p sleeps' (by simpa [different] using inWait)
    refine ⟨by simpa [different] using itself, fun q isParent => ?_⟩
    rw [state q]
    rcases parent q p isParent with ⟨_, rfl⟩ | old
    · simp [running] at sleeps'
    · exact none q old

theorem reaped {q : Fin n} (family : Family addr s) (placed : Placed s) (zombie : (s.table.proc q).state = .zombie) :
    Family addr (s.setTable (cleanproc s.table q)) := by
  have other : ∀ p, p ≠ q → (cleanproc s.table q).proc p = s.table.proc p := by
    intro p different
    simp [cleanproc, different]
  have parent : ∀ r p, ((cleanproc s.table q).proc r).parent = some p → (s.table.proc r).parent = some p := by
    intro r p isParent
    by_cases same : r = q
    · simp [cleanproc, same] at isParent
    · exact other r same ▸ isParent
  have notReaped : ∀ p, (s.table.proc p).Alive → p ≠ q := by
    rintro p lives rfl
    exact lives.2 zombie
  refine ⟨?_, ?_, ?_, ?_, ?_, family.forked, ?_⟩
  · intro p free
    by_cases same : p = q
    · simp [Kernel.setTable, cleanproc, same]
    · exact (congrArg Proc.parent (other p same)).trans (family.orphan p (other p same ▸ free))
  · intro r p isParent
    have lives := family.alive r p (parent r p isParent)
    exact (congrArg Proc.Alive (other p (notReaped p lives))).mpr lives
  · exact fun p isParent => family.irreflexive p (parent p p isParent)
  · intro p isInit
    obtain ⟨lives, orphaned⟩ := family.init p isInit
    have same := other p (notReaped p lives)
    exact ⟨(congrArg Proc.Alive same).mpr lives, (congrArg Proc.parent same).trans orphaned⟩
  · intro p isChild
    have different : p ≠ q := by
      rintro rfl
      have embryo := placed.pending none p isChild
      simp [zombie] at embryo
    exact (congrArg Proc.parent (other p different)).trans (family.boot p isChild)
  · intro p sleeps inWait
    have different : p ≠ q := by
      rintro rfl
      simp [Kernel.setTable, cleanproc] at sleeps
    have same := other p different
    obtain ⟨itself, none⟩ := family.waiting p (same ▸ sleeps) (same ▸ inWait)
    refine ⟨(congrArg Proc.chan same).trans itself, fun r isParent dead => ?_⟩
    have notSelf : r ≠ q := by
      rintro rfl
      simp [Kernel.setTable, cleanproc] at isParent
    exact none r (parent r p isParent) (other r notSelf ▸ dead)

end Family

variable [DecidableEq C] {addr : Fin n → UInt64}

theorem Family.exited {s : Kernel C n} {c : C} {p : Fin n} (family : Family addr s) (placed : Placed s)
    (on : s.table.cpu c = some p) (notInit : s.table.initproc ≠ some p) :
    Family addr (s.setTable (s.table.exited addr c p)) := by
  have running := placed.current c p on
  have parent := exited_parent addr s.table c p
  -- the states of the others, as far as the tree is concerned
  have unused : ∀ q, ((s.table.exited addr c p).proc q).state = .unused → (s.table.proc q).state = .unused := by
    intro q free
    by_cases same : q = p
    · rw [same, (exited_self _ _ _).1] at free
      simp at free
    · rcases exited_cases addr s.table c same with ⟨state, _⟩ | ⟨_, awake⟩
      · exact state ▸ free
      · simp [awake] at free
  have alive : ∀ q, q ≠ p → (s.table.proc q).Alive → ((s.table.exited addr c p).proc q).Alive := by
    intro q other lives
    rcases exited_cases addr s.table c other with ⟨state, _⟩ | ⟨_, awake⟩
    · simpa only [Proc.Alive, state] using lives
    · simp [Proc.Alive, awake]
  have zombie : ∀ q, q ≠ p → ((s.table.exited addr c p).proc q).state = .zombie →
    (s.table.proc q).state = .zombie := by
    intro q other dead
    rcases exited_cases addr s.table c other with ⟨state, _⟩ | ⟨_, awake⟩
    · exact state ▸ dead
    · simp [awake] at dead
  refine ⟨?_, ?_, ?_, ?_, ?_, family.forked, ?_⟩
  · intro q free
    have noParent := family.orphan q (unused q free)
    exact (parent q).trans (by simp [noParent])
  · intro q r isParent
    have isParent' := (parent q).symm.trans isParent
    by_cases mine : (s.table.proc q).parent = some p
    · rw [if_pos mine] at isParent'
      exact alive r (by rintro rfl; exact notInit isParent') (family.init r isParent').1
    · rw [if_neg mine] at isParent'
      exact alive r (by rintro rfl; exact mine isParent') (family.alive q r isParent')
  · intro q isParent
    have isParent' := (parent q).symm.trans isParent
    by_cases mine : (s.table.proc q).parent = some p
    · rw [if_pos mine] at isParent'
      simp [(family.init q isParent').2] at mine
    · rw [if_neg mine] at isParent'
      exact family.irreflexive q isParent'
  · intro q isInit
    obtain ⟨lives, orphaned⟩ := family.init q isInit
    exact ⟨alive q (by rintro rfl; exact notInit isInit) lives, (parent q).trans (by simp [orphaned])⟩
  · intro q isChild
    exact (parent q).trans (by simp [family.boot q isChild])
  · intro r sleeps inWait
    have other : r ≠ p := by
      rintro rfl
      simp [Kernel.setTable, (exited_self s.table c r).1] at sleeps
    rcases exited_cases addr s.table c other with ⟨state, context, chan, missed⟩ | ⟨_, awake⟩
    · have slept := state.symm.trans sleeps
      obtain ⟨itself, none⟩ := family.waiting r slept (context.symm.trans inWait)
      obtain ⟨notParent, notInitproc⟩ := missed slept
      refine ⟨chan.trans itself, fun q isParent dead => ?_⟩
      have isParent' := (parent q).symm.trans isParent
      by_cases mine : (s.table.proc q).parent = some p
      · -- a zombie child of the exiting process is handed to `initproc`, which is woken
        rw [if_pos mine] at isParent'
        have notSelf : q ≠ p := by
          rintro rfl
          exact family.irreflexive q mine
        refine notInitproc ⟨q, by simp, mine, zombie q notSelf dead⟩ ?_
        rw [isParent', itself]
        rfl
      · rw [if_neg mine] at isParent'
        by_cases self : q = p
        · -- the exiting process wakes its parent
          subst self
          refine notParent ?_
          rw [isParent', itself]
          rfl
        · exact none q isParent' (zombie q self dead)
    · have asleep : ((s.table.exited addr c p).proc r).state = .sleeping := sleeps
      simp [awake] at asleep

/-! ## Steps -/

variable {s t : Kernel C n}

theorem WaitTurn.family {c : C} {p : Fin n} {before after : Table C n} {result : WaitEnd n}
    (turn : WaitTurn addr c p before after result) (family : Family addr (s.setTable before))
    (placed : Placed (s.setTable before)) (on : before.cpu c = some p) : Family addr (s.setTable after) := by
  have running : (before.proc p).state = .running := placed.current c p on
  cases turn with
  | reaped q child zombie => exact family.reaped placed zombie
  | childless none => exact family
  | blocked none =>
    exact family.change (s := s.setTable before) _ (Proc.alive_of_running running) rfl
      ⟨by simp, by simp⟩ fun _ _ => ⟨rfl, none⟩

def InitStays : Action C → Kernel C n → Prop
  | .exit c, s => ∀ p, s.table.cpu c = some p → s.table.initproc ≠ some p
  | _, _ => True

instance : (a : Action C) → (s : Kernel C n) → Decidable (InitStays a s)
  | .exit c, s => inferInstanceAs (Decidable (∀ p, s.table.cpu c = some p → s.table.initproc ≠ some p))
  | .userInit _, _ | .userCopy _, _ | .userReady, _ | .fork _ _, _ | .forkCopy _, _ | .forkReady _, _
  | .scheduler _, _ | .yield _, _ | .sleep _ _, _ | .wakeup _, _ | .wait _, _ => .isTrue trivial

theorem Moves.family {a : Action C} {e : Option (Fin n × WaitEnd n)} (placed : Placed s) (family : Family addr s)
    (stays : InitStays a s) (moves : Moves addr s a t e) : Family addr t := by
  cases moves with
  | userInit started => exact family.started started
  | @userCopy loop child thread =>
    have isChild : (s.thread none).child = some child := by rw [thread]; rfl
    have embryo := placed.pending none child isChild
    have noParent := family.boot child isChild
    have notForked : ∀ par, (s.thread (some par)).child ≠ some child := fun par also =>
      absurd (placed.apart none (some par) child isChild also) (by simp)
    have filled := family.change s.table.cpu (p := child)
      (x := { s.table.proc child with sz := pgsize }) ⟨by simp [embryo], by simp [embryo]⟩ rfl
      ⟨by simp [embryo], by simp [embryo]⟩ (by simp [embryo])
    have copied : Family addr ⟨s.table.setProc child { s.table.proc child with sz := pgsize },
        Function.update s.thread none (.copied child)⟩ := by
      refine filled.keep rfl ?_ (fun _ => rfl) (fun _ => Iff.rfl) (fun _ => Iff.rfl)
        fun _ sleeps inWait => .inl ⟨sleeps, inWait, rfl⟩
      intro o p isChild'
      by_cases same : o = none
      · simp only [same, Function.update_self, Thread.child] at isChild' ⊢
        exact isChild.trans isChild'
      · have kept : Function.update s.thread none (.copied child) o = s.thread o := Function.update_of_ne same _ _
        exact (congrArg Thread.child kept).symm.trans isChild'
    cases loop with
    | true => exact copied
    | false =>
      refine copied.setInit ⟨by simp [embryo], by simp [embryo]⟩ (by simp [noParent]) fun par => ?_
      simpa using notForked par
  | userReady readied => exact family.readied placed readied
  | fork on started => exact family.started started
  | forkCopy on thread => exact family.forkCopied placed (placed.current _ _ on) thread
  | forkReady on readied => exact family.readied placed readied
  | schedulerIdle idle => exact family
  | @scheduler c p table result links links' idle runnable resumes =>
    have onCpu : Family addr (s.setTable (s.table.picked c p)) :=
      family.change _ ⟨by simp [runnable], by simp [runnable]⟩ rfl ⟨by simp, by simp⟩ (by simp)
    have picked := onCpu.setLinks links
    have pickedPlaced : Placed (s.setTable ((s.table.picked c p).setLinks links)) :=
      (placed.picked idle runnable).setLinks links
    have running : (((s.table.picked c p).setLinks links).proc p).state = .running := by simp [Table.picked]
    have cleared : Family addr (s.setTable (((s.table.picked c p).setLinks links).setProc p
        { ((s.table.picked c p).setLinks links).proc p with chan := 0 })) :=
      picked.change _ (Proc.alive_of_running running) rfl (Proc.alive_of_running running)
        fun asleep => absurd (running.symm.trans asleep) (by simp)
    refine Family.setLinks ?_ links'
    cases resumes with
    | released context => exact picked
    | slept context => exact cleared
    | waited context turn =>
      refine turn.family cleared (pickedPlaced.cleared p) ?_
      exact Function.update_self c _ _
  | @yield c p links on =>
    have running := placed.current c p on
    refine Family.setLinks ?_ links
    exact family.change _ (Proc.alive_of_running running) rfl ⟨by simp, by simp⟩ (by simp)
  | @sleep c p chan links on free =>
    have running := placed.current c p on
    refine Family.setLinks ?_ links
    exact family.change _ (Proc.alive_of_running running) rfl ⟨by simp, by simp⟩ (by simp)
  | wakeup links => exact (family.woken _).setLinks links
  | @exit c p links on free => exact (family.exited placed on (stays p on)).setLinks links
  | wait links on free turn => exact (turn.family (s := s) family placed on).setLinks links

/-! ## Zombies -/

def reapCount (p : Fin n) : Option (Fin n × WaitEnd n) → Nat
  | some (_, .reaped q _) => if q = p then 1 else 0
  | _ => 0

/-- How often an action is the exit of slot `p`. -/
def exitCount (p : Fin n) (a : Action C) (s : Kernel C n) : Nat :=
  match a with
  | .exit c => if s.table.cpu c = some p then 1 else 0
  | _ => 0

def zombieCount (p : Fin n) (s : Kernel C n) : Nat := if (s.table.proc p).state = .zombie then 1 else 0

omit [DecidableEq C] in
theorem zombieCount_congr {p : Fin n}
    (same : (t.table.proc p).state = .zombie ↔ (s.table.proc p).state = .zombie) :
    zombieCount p t = zombieCount p s := by
  simp only [zombieCount, same]

theorem WaitTurn.zombies {c : C} {p q : Fin n} {before after : Table C n} {result : WaitEnd n}
    (turn : WaitTurn addr c p before after result) (running : (before.proc p).state = .running) :
    reapCount q (some (p, result)) + zombieCount q (s.setTable after) = zombieCount q (s.setTable before) := by
  cases turn with
  | reaped r child zombie =>
    by_cases same : q = r
    · subst same
      simp [reapCount, zombieCount, Kernel.setTable, cleanproc, zombie]
    · have kept : zombieCount q (s.setTable (cleanproc before r)) = zombieCount q (s.setTable before) :=
        zombieCount_congr (by simp [Kernel.setTable, cleanproc, same])
      simp [reapCount, kept, Ne.symm same]
  | childless none => simp [reapCount]
  | blocked none =>
    by_cases same : q = p
    · subst same
      simp [reapCount, zombieCount, Kernel.setTable, Table.leave, running]
    · simp only [reapCount, Nat.zero_add]
      exact zombieCount_congr (by simp [Kernel.setTable, Table.leave, same])

omit [DecidableEq C] in
theorem zombieCount_change {p : Fin n} {x : Proc n} (cpu : C → Option (Fin n)) (q : Fin n)
    (before : (s.table.proc p).state ≠ .zombie) (after : x.state ≠ .zombie) :
    zombieCount q (s.setTable { s.table.setProc p x with cpu := cpu }) = zombieCount q s :=
  zombieCount_congr (by by_cases same : q = p <;> simp [Kernel.setTable, same, before, after])

theorem Moves.zombies {a : Action C} {e : Option (Fin n × WaitEnd n)} (placed : Placed s) (moves : Moves addr s a t e)
    (q : Fin n) : reapCount q e + zombieCount q t = zombieCount q s + exitCount q a s := by
  have embryo : ∀ owner child, (s.thread owner).child = some child → (s.table.proc child).state ≠ .zombie := by
    intro owner child isChild
    simp [placed.pending owner child isChild]
  have start : ∀ owner, Started owner s t → zombieCount q t = zombieCount q s := by
    rintro owner ⟨_, child, kstack, links, unused, rfl⟩
    exact zombieCount_change s.table.cpu q (by simp [unused]) (by simp)
  have ready : ∀ owner, Readied owner s t → zombieCount q t = zombieCount q s := by
    rintro owner ⟨child, prio, links, busy, rfl⟩
    exact zombieCount_change s.table.cpu q (embryo owner child (by rw [busy]; rfl)) (by simp)
  cases moves with
  | userInit started => simp [reapCount, exitCount, start none started]
  | @userCopy loop child thread =>
    have notZombie := embryo none child (by rw [thread]; rfl)
    simp only [reapCount, exitCount, Nat.zero_add, Nat.add_zero]
    exact zombieCount_change s.table.cpu q notZombie notZombie
  | userReady readied => simp [reapCount, exitCount, ready none readied]
  | @fork c kstack par _ on started => simp [reapCount, exitCount, start (some par) started]
  | @forkCopy c par child on thread =>
    have notZombie := embryo (some par) child (by rw [thread]; rfl)
    simp only [reapCount, exitCount, Nat.zero_add, Nat.add_zero]
    exact zombieCount_change s.table.cpu q notZombie notZombie
  | @forkReady c par _ on readied => simp [reapCount, exitCount, ready (some par) readied]
  | schedulerIdle idle => simp [reapCount, exitCount]
  | @scheduler c p table result links links' idle runnable resumes =>
    have picked : zombieCount q (s.setTable (s.table.picked c p)) = zombieCount q s :=
      zombieCount_change _ q (by simp [runnable]) (by simp)
    have running : (((s.table.picked c p).setLinks links).proc p).state = .running := by simp [Table.picked]
    have cleared : zombieCount q (s.setTable (((s.table.picked c p).setLinks links).setProc p
        { ((s.table.picked c p).setLinks links).proc p with chan := 0 })) =
        zombieCount q (s.setTable ((s.table.picked c p).setLinks links)) :=
      zombieCount_change (s := s.setTable ((s.table.picked c p).setLinks links)) (s.table.picked c p).cpu q
        (fun zombie => absurd (running.symm.trans zombie) (by simp))
        (fun zombie => absurd (running.symm.trans zombie) (by simp))
    cases resumes with
    | released context =>
      simp only [Option.map_none, reapCount, exitCount, Nat.zero_add, Nat.add_zero]
      exact picked
    | slept context =>
      simp only [Option.map_none, reapCount, exitCount, Nat.zero_add, Nat.add_zero]
      exact cleared.trans picked
    | waited context turn =>
      have turned := turn.zombies (s := s) (q := q) (by
        simp only [Table.setProc_proc, if_true]
        exact running)
      exact turned.trans (cleared.trans picked)
  | @yield c p links on =>
    have running := placed.current c p on
    simp only [reapCount, exitCount, Nat.zero_add, Nat.add_zero]
    exact zombieCount_change s.table.cpu q (by simp [running]) (by simp)
  | @sleep c p chan links on free =>
    have running := placed.current c p on
    simp only [reapCount, exitCount, Nat.zero_add, Nat.add_zero]
    exact zombieCount_change s.table.cpu q (by simp [running]) (by simp)
  | wakeup links =>
    simp only [reapCount, exitCount, Nat.zero_add, Nat.add_zero]
    exact zombieCount_congr (woken_state_zombie _ _)
  | @exit c p links on free =>
    have running := placed.current c p on
    by_cases same : q = p
    · subst same
      have dead : zombieCount q (s.setTable ((s.table.exited addr c q).setLinks links)) = 1 :=
        if_pos (exited_self s.table c q).1
      have lived : zombieCount q s = 0 := if_neg (by simp [running])
      rw [dead, lived]
      simp [reapCount, exitCount, on]
    · have notOn : s.table.cpu c ≠ some q := fun onQ => same (Option.some.inj (onQ.symm.trans on))
      simp only [reapCount, exitCount, if_neg notOn, Nat.zero_add, Nat.add_zero]
      refine zombieCount_congr ?_
      rcases exited_cases addr s.table c same with ⟨state, _⟩ | ⟨slept, awake⟩
      · exact iff_of_eq (congrArg (· = ProcState.zombie) state)
      · simp [Kernel.setTable, slept, awake]
  | @wait c p table result links on free turn =>
    exact turn.zombies (s := s) (placed.current c p on)

/-! ## Runs -/

def reaps (addr : Fin n → UInt64) (p : Fin n) (a : Action C) (s : Kernel C n) : Nat :=
  match perform addr a s with
  | some (_, e) => reapCount p e
  | none => 0

/-- No process that is not free has a free parent, and none that sleeps in `wait`,
which is on its own address, has a zombie child. -/
structure Kernel.Parented (addr : Fin n → UInt64) (s : Kernel C n) : Prop where
  parent : ∀ q p, (s.table.proc q).state ≠ .unused → (s.table.proc q).parent = some p →
    (s.table.proc p).state ≠ .unused
  waiting : ∀ p, (s.table.proc p).state = .sleeping → (s.table.proc p).context = .wait →
    (s.table.proc p).chan = addr p ∧ ∀ q, (s.table.proc q).parent = some p → (s.table.proc q).state ≠ .zombie

/-- A zombie goes on only by a `wait` of its parent that returns its pid, and a `wait`
that returns -1 has no child in any state. -/
structure Kernel.Reaping (addr : Fin n → UInt64) (s : Kernel C n) : Prop where
  reaped : ∀ a t e q, perform addr a s = some (t, e) → (s.table.proc q).state = .zombie →
    (t.table.proc q).state = .zombie ∨
      ∃ par, (s.table.proc q).parent = some par ∧ e = some (par, .reaped q (s.table.proc q).pid) ∧
        (t.table.proc q).state = .unused
  childless : ∀ (a : Action C) t p, perform addr a s = some (t, some (p, .childless)) →
    ∀ q, (s.table.proc q).parent ≠ some p

theorem family_step {a : Action C} (holds : Consistent s ∧ Family addr s) (stays : InitStays a s)
    (stepped : step addr a s = some t) : Consistent t ∧ Family addr t := by
  obtain ⟨⟨u, e⟩, performed, rfl⟩ := Option.map_eq_some_iff.mp stepped
  obtain ⟨moves, consistent⟩ := holds.1.perform performed
  exact ⟨consistent, moves.family holds.1.placed holds.2 stays⟩

omit [DecidableEq C] in
theorem Boot.family (boot : Boot s) : Family addr s where
  orphan p _ := boot.orphan p
  alive q p isParent := by simp [boot.orphan] at isParent
  irreflexive p isParent := by simp [boot.orphan] at isParent
  init p isInit := by simp [boot.initproc] at isInit
  boot p isChild := by simp [boot.thread, Thread.child] at isChild
  forked par p isChild := by simp [boot.thread, Thread.child] at isChild
  waiting p sleeps := by simp [boot.unused] at sleeps

theorem Moves.waitEnd {a : Action C} {p : Fin n} {result : WaitEnd n} (moves : Moves addr s a t (some (p, result))) :
    (∀ q pid, result = .reaped q pid → (s.table.proc q).parent = some p ∧ pid = (s.table.proc q).pid ∧
        (t.table.proc q).state = .unused) ∧
      (result = .childless → ∀ q, (s.table.proc q).parent ≠ some p) := by
  obtain ⟨c, before, links, turn, parent, pid⟩ : ∃ (c : C) (before : Table C n) (links : Links (ListHead n)),
      (∃ after, WaitTurn addr c p before after result ∧ t = s.setTable (after.setLinks links)) ∧
        (∀ q, (before.proc q).parent = (s.table.proc q).parent) ∧
        ∀ q, (before.proc q).pid = (s.table.proc q).pid := by
    generalize isE : some (p, result) = e at moves
    cases moves with
    | @wait c p' table result' links on free turn =>
      cases isE
      exact ⟨c, s.table, links, ⟨table, turn, rfl⟩, fun _ => rfl, fun _ => rfl⟩
    | @scheduler c p' table result' links links' idle runnable resumes =>
      cases resumes with
      | released context => simp at isE
      | slept context => simp at isE
      | waited context turn =>
        cases isE
        refine ⟨c, _, links', ⟨table, turn, rfl⟩, fun q => ?_, fun q => ?_⟩
        · by_cases same : q = p <;> simp [Table.picked, same]
        · by_cases same : q = p <;> simp [Table.picked, same]
    | _ => simp at isE
  obtain ⟨after, turn, rfl⟩ := turn
  cases turn with
  | reaped q child zombie =>
    refine ⟨?_, by simp⟩
    rintro _ _ ⟨⟩
    exact ⟨(parent q).symm.trans child, pid q, by simp [Kernel.setTable, cleanproc]⟩
  | childless none => exact ⟨by simp, fun _ q isParent => none q ((parent q).trans isParent)⟩
  | blocked none => exact ⟨by simp, by simp⟩

theorem Consistent.reaping (consistent : Consistent s) : s.Reaping addr where
  reaped a t e q performed zombie := by
    have moves := (consistent.perform performed).1
    have count := moves.zombies consistent.placed q
    rw [zombieCount, zombieCount, if_pos zombie] at count
    by_cases still : (t.table.proc q).state = .zombie
    · exact .inl still
    · right
      rw [if_neg still] at count
      -- somebody reaps the slot, and only `wait` does
      cases e with
      | none =>
        simp only [reapCount] at count
        omega
      | some ended =>
        obtain ⟨par, result⟩ := ended
        cases result with
        | reaped r pid =>
          by_cases same : r = q
          · subst same
            obtain ⟨parent, isPid, unused⟩ := moves.waitEnd.1 r pid rfl
            exact ⟨par, parent, by rw [isPid], unused⟩
          · simp only [reapCount, if_neg same] at count
            omega
        | childless =>
          simp only [reapCount] at count
          omega
        | blocked =>
          simp only [reapCount] at count
          omega
  childless a t p performed := (consistent.perform performed).1.waitEnd.2 rfl

/-- In every run in which the initial process never exits: no process has a free slot
for a parent, nobody sleeps in `wait` on a zombie child, every exit of a slot is reaped
at most once, and only by the parent, and -1 means that there is no child. -/
theorem process_tree {acts : List (Action C)} (boot : Boot s)
    (stays : Meets (Process.step addr) InitStays acts s) (ran : run (Process.step addr) acts s = some t) :
    t.Parented addr ∧ t.Reaping addr ∧
      ∀ p, total (Process.step addr) (reaps addr p) acts s + zombieCount p t =
        total (Process.step addr) (exitCount p) acts s := by
  have start : Consistent s ∧ Family addr s := ⟨boot.consistent, boot.family⟩
  have preserved : ∀ (a : Action C) (s t : Kernel C n), Consistent s ∧ Family addr s → InitStays a s →
      step addr a s = some t → Consistent t ∧ Family addr t := fun _ _ _ => family_step
  obtain ⟨consistent, family⟩ := run_invariant_of_meets preserved start stays ran
  refine ⟨⟨fun q p _ isParent => (family.alive q p isParent).1, family.waiting⟩, consistent.reaping, ?_⟩
  intro p
  have balance : ∀ (a : Action C) (s t : Kernel C n), Consistent s ∧ Family addr s → InitStays a s →
      step addr a s = some t → reaps addr p a s + zombieCount p t = zombieCount p s + exitCount p a s := by
    intro a s t holds _ stepped
    obtain ⟨⟨u, e⟩, performed, rfl⟩ := Option.map_eq_some_iff.mp stepped
    rw [reaps, performed]
    exact (holds.1.perform performed).1.zombies holds.1.placed p
  have whole := total_balance preserved balance start stays ran
  rw [whole, zombieCount, if_neg (by simp [boot.unused p]), Nat.zero_add]

theorem process_tree_family :
    ∃ t : Kernel (Fin 2) nproc,
      run (Process.step fun p => 4096 + p.val.toUInt64) family (bootKernel _ _) = some t ∧
        t.Parented (fun p => 4096 + p.val.toUInt64) := by
  obtain ⟨t, ran⟩ := Option.isSome_iff_exists.mp
    (show (run (Process.step fun p : Fin nproc => 4096 + p.val.toUInt64) family (bootKernel (Fin 2) nproc)).isSome by
      decide +kernel)
  have stays : Meets (Process.step fun p : Fin nproc => 4096 + p.val.toUInt64) InitStays family
      (bootKernel (Fin 2) nproc) := by decide +kernel
  exact ⟨t, ran, (process_tree (bootKernel_boot _ _) stays ran).1⟩

end

end Xv6.Process
