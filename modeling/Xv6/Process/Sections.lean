import Xv6.Process.Queues
import Mathlib.Data.Fintype.Card

/-! What each critical section does to the process table, up to the pointers of the lists.

A section started with its lists in order returns, leaves them in order, and
changes the processes and CPUs as a pure function says. Later proofs use these
functions and never look at a list again.
-/

set_option autoImplicit false

namespace Xv6.Process

open Library

section
variable {C : Type} {n : Nat}

@[simp] theorem Table.setProc_proc (s : Table C n) (p q : Fin n) (x : Proc n) :
    (s.setProc p x).proc q = if q = p then x else s.proc q := Function.update_apply ..

@[simp] theorem Table.setProc_links (s : Table C n) (p : Fin n) (x : Proc n) :
    (s.setProc p x).links = s.links := rfl

@[simp] theorem Table.setProc_cpu (s : Table C n) (p : Fin n) (x : Proc n) :
    (s.setProc p x).cpu = s.cpu := rfl

@[simp] theorem Table.setProc_initproc (s : Table C n) (p : Fin n) (x : Proc n) :
    (s.setProc p x).initproc = s.initproc := rfl

@[simp] theorem Table.setProcs_proc (s : Table C n) (proc : Fin n → Proc n) : (s.setProcs proc).proc = proc := rfl

@[simp] theorem Table.setProcs_cpu (s : Table C n) (proc : Fin n → Proc n) : (s.setProcs proc).cpu = s.cpu := rfl

@[simp] theorem Table.setProcs_initproc (s : Table C n) (proc : Fin n → Proc n) :
    (s.setProcs proc).initproc = s.initproc := rfl

@[simp] theorem Table.setLinks_proc (s : Table C n) (links : Links (ListHead n)) :
    (s.setLinks links).proc = s.proc := rfl

@[simp] theorem Table.setLinks_links (s : Table C n) (links : Links (ListHead n)) :
    (s.setLinks links).links = links := rfl

@[simp] theorem Table.setLinks_cpu (s : Table C n) (links : Links (ListHead n)) :
    (s.setLinks links).cpu = s.cpu := rfl

@[simp] theorem Table.setLinks_initproc (s : Table C n) (links : Links (ListHead n)) :
    (s.setLinks links).initproc = s.initproc := rfl

def Table.homes (s : Table C n) (p : Fin n) : Option Queue := (s.proc p).home

def Table.Ordered (s : Table C n) : Prop := ∃ queue, Queued s.links s.homes queue

/-- A section returns `t`, up to the pointers of the lists, and those are in order. -/
def Does (result : Option (Table C n)) (t : Table C n) : Prop :=
  ∃ links, result = some (t.setLinks links) ∧ (t.setLinks links).Ordered

theorem Table.homes_setProc (s : Table C n) (p : Fin n) (x : Proc n) :
    (s.setProc p x).homes = Function.update s.homes p x.home := by
  funext q
  rcases eq_or_ne q p with rfl | other
  · simp [Table.homes]
  · simp [Table.homes, other]

theorem Table.Ordered.congr {s t : Table C n} (ordered : s.Ordered) (links : t.links = s.links)
    (homes : t.homes = s.homes) : t.Ordered := by
  obtain ⟨queue, queued⟩ := ordered
  exact ⟨queue, links ▸ homes ▸ queued⟩

theorem Table.Ordered.setProc {s : Table C n} {p : Fin n} {x : Proc n} (ordered : s.Ordered)
    (home : x.home = (s.proc p).home) : (s.setProc p x).Ordered := by
  refine ordered.congr rfl ?_
  rw [Table.homes_setProc, home]
  exact Function.update_eq_self p s.homes

/-! ## Waking -/

-- What `wakeup1` makes of a process.
def woken (chan : UInt64) (x : Proc n) : Proc n :=
  if x.chan = chan ∧ x.state = .sleeping then { x with state := .runnable, chan := 0 } else x

@[simp] theorem woken_parent (chan : UInt64) (x : Proc n) : (woken chan x).parent = x.parent := by
  unfold woken
  split <;> rfl

@[simp] theorem woken_setParent (chan : UInt64) (x : Proc n) (parent : Option (Fin n)) :
    woken chan { x with parent := parent } = { woken chan x with parent := parent } := by
  unfold woken
  split <;> rfl

@[simp] theorem woken_woken (chan : UInt64) (x : Proc n) : woken chan (woken chan x) = woken chan x := by
  unfold woken
  split <;> simp_all

@[simp] theorem woken_state_zombie (chan : UInt64) (x : Proc n) :
    (woken chan x).state = .zombie ↔ x.state = .zombie := by
  unfold woken
  split <;> simp_all

theorem woken_cases (chan : UInt64) (x : Proc n) :
    (woken chan x = x ∧ (x.state = .sleeping → x.chan ≠ chan)) ∨
      (x.state = .sleeping ∧ (woken chan x).state = .runnable) := by
  by_cases hit : x.chan = chan ∧ x.state = .sleeping
  · exact .inr ⟨hit.2, by simp [woken, hit]⟩
  · exact .inl ⟨if_neg hit, fun sleeps same => hit ⟨same, sleeps⟩⟩

-- A process that `wakeup1` looks for.
def Proc.Hit (x : Proc n) (chan : UInt64) : Prop := x.chan = chan ∧ x.state = .sleeping

instance (x : Proc n) (chan : UInt64) : Decidable (x.Hit chan) :=
  inferInstanceAs (Decidable (x.chan = chan ∧ x.state = .sleeping))

def Table.wokenTo (s : Table C n) (chan : UInt64) (ps : List (Fin n)) (i : Fin prioentries) : List (Fin n) :=
  ps.filter fun p => (s.proc p).Hit chan ∧ (s.proc p).prio = i

def Table.leftAsleep (s : Table C n) (chan : UInt64) (ps : List (Fin n)) : List (Fin n) :=
  ps.filter fun p => ¬(s.proc p).Hit chan

def Table.drained (s : Table C n) (chan : UInt64) (queue : Queue → List (Fin n)) (kept rest : List (Fin n)) :
    Queue → List (Fin n)
  | .prioque i => queue (.prioque i) ++ s.wokenTo chan rest i
  | .hashmp entry => if entry = hashEntry chan then kept ++ s.leftAsleep chan rest else queue (.hashmp entry)

section
variable {s : Table C n} {queue : Queue → List (Fin n)} {chan : UInt64} {p : Fin n} {kept rest : List (Fin n)}

theorem drained_nil (split : queue (.hashmp (hashEntry chan)) = kept) : s.drained chan queue kept [] = queue := by
  funext q
  cases q with
  | prioque i => simp [Table.drained, Table.wokenTo]
  | hashmp entry =>
    by_cases here : entry = hashEntry chan
    · simp [Table.drained, Table.leftAsleep, here, split]
    · simp [Table.drained, here]

theorem drained_miss (miss : ¬(s.proc p).Hit chan) :
    s.drained chan queue (kept ++ [p]) rest = s.drained chan queue kept (p :: rest) := by
  funext q
  cases q with
  | prioque i => simp [Table.drained, Table.wokenTo, miss]
  | hashmp entry => simp [Table.drained, Table.leftAsleep, miss]

theorem drained_hit {u : Table C n} {bucket : List (Fin n)} (hit : (s.proc p).Hit chan)
    (others : ∀ q ∈ rest, u.proc q = s.proc q) :
    u.drained chan (Function.update (Function.update queue (.hashmp (hashEntry chan)) bucket)
        (.prioque (s.proc p).prio) (queue (.prioque (s.proc p).prio) ++ [p])) kept rest =
      s.drained chan queue kept (p :: rest) := by
  have left : u.leftAsleep chan rest = s.leftAsleep chan rest :=
    List.filter_congr fun q member => by rw [others q member]
  have gone : ∀ i, u.wokenTo chan rest i = s.wokenTo chan rest i := fun i =>
    List.filter_congr fun q member => by rw [others q member]
  funext q
  cases q with
  | prioque i =>
    rw [Table.drained, Table.drained, gone]
    by_cases own : (s.proc p).prio = i
    · subst own
      simp [Table.wokenTo, hit]
    · have other : Queue.prioque i ≠ .prioque (s.proc p).prio := fun same => own (Queue.prioque.inj same).symm
      simp [Table.wokenTo, own, Function.update_of_ne other]
  | hashmp entry =>
    rw [Table.drained, Table.drained, left]
    by_cases here : entry = hashEntry chan
    · simp [here, Table.leftAsleep, hit]
    · simp [here]

end

theorem wakeupLoop_queues {s : Table C n} {queue : Queue → List (Fin n)} {chan : UInt64} (kept rest : List (Fin n))
    {fuel : Nat} (queued : Queued s.links s.homes queue)
    (split : queue (.hashmp (hashEntry chan)) = kept ++ rest) (enough : rest.length < fuel) :
    ∃ links, wakeupLoop chan fuel ((rest.map .clist).headD (.hashmp (hashEntry chan))) s =
        some ((s.setProcs fun p => if p ∈ rest then woken chan (s.proc p) else s.proc p).setLinks links) ∧
      Queued links (s.setProcs fun p => if p ∈ rest then woken chan (s.proc p) else s.proc p).homes
        (s.drained chan queue kept rest) := by
  -- on the part of the bucket ahead of the loop; what is behind it stays linked
  induction rest generalizing s queue kept fuel with
  | nil =>
    obtain ⟨fuel, rfl⟩ : ∃ k, fuel = k + 1 := ⟨fuel - 1, by simp at enough; omega⟩
    rw [drained_nil (by simpa using split)]
    simp only [List.not_mem_nil, if_false]
    exact ⟨s.links, by simp [wakeupLoop, Table.setProcs, Table.setLinks], queued⟩
  | cons p rest ih =>
    obtain ⟨fuel, rfl⟩ : ∃ k, fuel = k + 1 := ⟨fuel - 1, by simp at enough; omega⟩
    have shorter : rest.length < fuel := by simpa using enough
    have nodup : (kept ++ p :: rest).Nodup := split ▸ queued.nodup _
    have notRest : p ∉ rest := (List.nodup_cons.mp (List.nodup_append'.mp nodup).2.1).1
    have ring := queued.rings.ring (.hashmp (hashEntry chan))
    simp only [split, List.map_append, List.map_cons] at ring
    have next : s.links.next (.clist p) = some ((rest.map .clist).headD (.hashmp (hashEntry chan))) :=
      ring.next_at
    have here : s.homes p = some (.hashmp (hashEntry chan)) :=
      (queued.mem_iff _ p).mp (by simp [split])
    by_cases hit : (s.proc p).Hit chan
    · obtain ⟨links, deleted, queued⟩ := queued.delete here
      obtain ⟨links', pushed, queued⟩ := queued.push (p := p) (q := .prioque (s.proc p).prio) (by simp)
      rw [Function.update_idem] at queued
      let u := (s.setProc p { s.proc p with state := .runnable, chan := 0 }).setLinks links'
      have homes : u.homes = Function.update s.homes p (some (.prioque (s.proc p).prio)) :=
        Table.homes_setProc s p _
      have remaining : ((kept ++ p :: rest).erase p) = kept ++ rest := by
        rw [List.erase_append_right _ (fun member => (List.nodup_append'.mp nodup).2.2 member (by simp))]
        simp
      obtain ⟨final, ran, ordered⟩ := ih kept (s := u) (homes ▸ queued)
        (by simp [split, remaining]) shorter
      have same : (fun a => if a ∈ rest then woken chan (u.proc a) else u.proc a) =
          fun a => if a ∈ p :: rest then woken chan (s.proc a) else s.proc a := by
        funext a
        rcases eq_or_ne a p with rfl | other
        · simp [u, notRest, woken, show _ ∧ _ from hit]
        · simp [u, other]
      have others : ∀ q ∈ rest, u.proc q = s.proc q := fun q member => by
        simp [u, show q ≠ p from fun same => notRest (same ▸ member)]
      have unmoved : Function.update queue (.hashmp (hashEntry chan))
          ((queue (.hashmp (hashEntry chan))).erase p) (.prioque (s.proc p).prio) =
            queue (.prioque (s.proc p).prio) := Function.update_of_ne (by simp) ..
      rw [same] at ran ordered
      rw [unmoved, drained_hit hit others] at ordered
      refine ⟨final, ?_, ordered⟩
      simp only [List.map_cons, List.headD_cons, wakeupLoop, reduceCtorEq, if_false, next, Option.bind_eq_bind,
        Option.bind_some, if_pos (show _ ∧ _ from hit), Table.setProc_links]
      rw [show listDelete s.links (.clist p) = some links from deleted, Option.bind_some]
      simp only [Table.setProc_proc, if_true]
      rw [show listPushBack links (.prioque (s.proc p).prio) (.plist p) = some links' from pushed, Option.bind_some]
      exact ran
    · have unwoken : woken chan (s.proc p) = s.proc p := if_neg hit
      obtain ⟨final, ran, ordered⟩ := ih (kept ++ [p]) (s := s) queued (by simp [split]) shorter
      have same : (fun a => if a ∈ rest then woken chan (s.proc a) else s.proc a) =
          fun a => if a ∈ p :: rest then woken chan (s.proc a) else s.proc a := by
        funext a
        rcases eq_or_ne a p with rfl | other
        · simp [notRest, unwoken]
        · simp [other]
      rw [same] at ran ordered
      rw [drained_miss hit] at ordered
      refine ⟨final, ?_, ordered⟩
      simp only [List.map_cons, List.headD_cons, wakeupLoop, reduceCtorEq, if_false, next, Option.bind_eq_bind,
        Option.bind_some, if_neg (show ¬(_ ∧ _) from hit)]
      exact ran

-- `wakeup1` on the processes.
def Table.wake (chan : UInt64) (s : Table C n) : Table C n := s.setProcs fun p => woken chan (s.proc p)

/-- The woken processes go to the end of their queues in the order of the bucket, and the others
stay in it. -/
theorem wakeup1_queues {s : Table C n} {queue : Queue → List (Fin n)} (queued : Queued s.links s.homes queue)
    (chan : UInt64) :
    ∃ links, wakeup1 chan s = some ((s.wake chan).setLinks links) ∧
      Queued links (s.wake chan).homes (s.drained chan queue [] (queue (.hashmp (hashEntry chan)))) := by
  have ring := queued.rings.ring (.hashmp (hashEntry chan))
  have few : (queue (.hashmp (hashEntry chan))).length < n + 1 := by
    have bound := List.Nodup.length_le_card (queued.nodup (.hashmp (hashEntry chan)))
    rw [Fintype.card_fin] at bound
    omega
  have loop := wakeupLoop_queues [] _ queued rfl few
  have everyone : (fun p => if p ∈ queue (.hashmp (hashEntry chan)) then woken chan (s.proc p) else s.proc p) =
      fun p => woken chan (s.proc p) := by
    funext p
    by_cases hit : (s.proc p).chan = chan ∧ (s.proc p).state = .sleeping
    · -- a process that sleeps on the channel is in the bucket
      have home : s.homes p = some (.hashmp (hashEntry chan)) := Proc.home_eq_hashmp.mpr ⟨hit.2, by rw [hit.1]⟩
      simp [(queued.mem_iff _ p).mpr home]
    · simp [woken, hit]
  rw [everyone] at loop
  rw [wakeup1, show s.links.next (.hashmp (hashEntry chan)) = _ from ring.next_head]
  exact loop

theorem wakeup1_does {s : Table C n} (ordered : s.Ordered) (chan : UInt64) :
    Does (wakeup1 chan s) (s.wake chan) := by
  obtain ⟨queue, queued⟩ := ordered
  obtain ⟨links, woke, queued⟩ := wakeup1_queues queued chan
  exact ⟨links, woke, _, queued⟩

/-! ## Giving up the CPU -/

variable [DecidableEq C]

def Table.leave (c : C) (p : Fin n) (x : Proc n) (s : Table C n) : Table C n :=
  { s.setProc p x with cpu := Function.update s.cpu c none }

theorem sched_setProc (s : Table C n) (c : C) (p : Fin n) (x : Proc n) (context : Context) :
    sched c p context (s.setProc p x) = s.leave c p { x with context := context } := by
  simp [sched, Table.leave, Table.setProc]

theorem Table.Ordered.leave {s : Table C n} (ordered : s.Ordered) {c : C} {p : Fin n} {x : Proc n} {q : Queue}
    (running : (s.proc p).state = .running) (home : x.home = some q) :
    ∃ links, listPushBack s.links q.head (q.node p) = some links ∧ ((s.leave c p x).setLinks links).Ordered := by
  obtain ⟨queue, queued⟩ := ordered
  obtain ⟨links, pushed, queued⟩ := queued.push (q := q)
    (show s.homes p = none from Proc.home_eq_none (by simp [running]) (by simp [running]))
  refine ⟨links, pushed, Function.update queue q (queue q ++ [p]), ?_⟩
  have homes : ((s.leave c p x).setLinks links).homes = Function.update s.homes p (some q) :=
    home ▸ Table.homes_setProc s p x
  rw [homes]
  exact queued

theorem sleepOn_eq {s : Table C n} (c : C) {p : Fin n} (running : (s.proc p).state = .running) (chan : UInt64)
    (context : Context) {links : Links (ListHead n)}
    (pushed : listPushBack s.links (.hashmp (hashEntry chan)) (.clist p) = some links) :
    sleepOn c p chan context s =
      some ((s.leave c p { s.proc p with chan := chan, state := .sleeping, context := context }).setLinks links) := by
  simp only [sleepOn, Table.setProc_proc, if_true, running, reduceCtorEq, if_false, Table.setProc_links,
    Table.setLinks_links, Option.bind_eq_bind, Option.bind_some]
  rw [pushed]
  simp [sched, Table.leave, Table.setProc, Table.setLinks]

theorem sleepOn_does {s : Table C n} (ordered : s.Ordered) (c : C) {p : Fin n} (running : (s.proc p).state = .running)
    (chan : UInt64) (context : Context) :
    Does (sleepOn c p chan context s)
      (s.leave c p { s.proc p with chan := chan, state := .sleeping, context := context }) := by
  obtain ⟨links, pushed, ordered⟩ := ordered.leave (c := c) (p := p) (q := .hashmp (hashEntry chan))
    (x := { s.proc p with chan := chan, state := .sleeping, context := context }) running rfl
  exact ⟨links, sleepOn_eq c running chan context pushed, ordered⟩

theorem yield_eq {s : Table C n} (c : C) (p : Fin n) {links : Links (ListHead n)}
    (pushed : listPushBack s.links (.prioque (s.proc p).prio) (.plist p) = some links) :
    yield c p s = some ((s.leave c p { s.proc p with state := .runnable, context := .yield }).setLinks links) := by
  simp only [yield, Table.setProc_proc, if_true, Table.setProc_links, Option.bind_eq_bind]
  rw [pushed]
  simp [sched, Table.leave, Table.setProc, Table.setLinks]

theorem yield_does {s : Table C n} (ordered : s.Ordered) (c : C) {p : Fin n} (running : (s.proc p).state = .running) :
    Does (yield c p s) (s.leave c p { s.proc p with state := .runnable, context := .yield }) := by
  obtain ⟨links, pushed, ordered⟩ := ordered.leave (c := c) (p := p) (q := .prioque (s.proc p).prio)
    (x := { s.proc p with state := .runnable, context := .yield }) running rfl
  exact ⟨links, yield_eq c p pushed, ordered⟩

/-! ## Exit -/

def Table.Bereaved (s : Table C n) (p : Fin n) (rest : List (Fin n)) : Prop :=
  ∃ z ∈ rest, (s.proc z).parent = some p ∧ (s.proc z).state = .zombie

instance (s : Table C n) (p : Fin n) (rest : List (Fin n)) : Decidable (s.Bereaved p rest) :=
  inferInstanceAs (Decidable (∃ z ∈ rest, (s.proc z).parent = some p ∧ (s.proc z).state = .zombie))

/-- What the loop of `exit` makes of a process: a child of `p` is handed over, and
`initproc` is woken if one of the children is a zombie. -/
def Table.adopted (s : Table C n) (addr : Fin n → UInt64) (p : Fin n) (rest : List (Fin n)) (q : Fin n) : Proc n :=
  let x := if q ∈ rest ∧ (s.proc q).parent = some p then { s.proc q with parent := s.initproc } else s.proc q
  if s.Bereaved p rest then woken (channel addr s.initproc) x else x

omit [DecidableEq C] in
theorem reparent_does {s : Table C n} (ordered : s.Ordered) (addr : Fin n → UInt64) (p : Fin n)
    {rest : List (Fin n)} (distinct : rest.Nodup) :
    Does (reparent addr p rest s) (s.setProcs (s.adopted addr p rest)) := by
  -- on the processes ahead of the loop
  induction rest generalizing s with
  | nil =>
    have same : s.adopted addr p [] = s.proc := by
      funext q
      simp [Table.adopted, Table.Bereaved]
    rw [same]
    exact ⟨s.links, rfl, ordered⟩
  | cons pc rest ih =>
    obtain ⟨notRest, distinct⟩ := List.nodup_cons.mp distinct
    have elsewhere : ∀ q ∈ rest, q ≠ pc := fun q member same => notRest (same ▸ member)
    by_cases child : (s.proc pc).parent = some p
    · let u := s.setProc pc { s.proc pc with parent := s.initproc }
      have moved : u.Ordered := ordered.setProc rfl
      have state : (u.proc pc).state = (s.proc pc).state := by simp [u]
      rw [reparent, if_pos child]
      by_cases zombie : (s.proc pc).state = .zombie
      · obtain ⟨links, woke, ordered⟩ := wakeup1_does moved (channel addr s.initproc)
        have same : ((u.wake (channel addr s.initproc)).setLinks links).adopted addr p rest =
            s.adopted addr p (pc :: rest) := by
          funext q
          have bereaved : s.Bereaved p (pc :: rest) := ⟨pc, by simp, child, zombie⟩
          rcases eq_or_ne q pc with rfl | other
          · simp [u, Table.adopted, Table.wake, bereaved, notRest, child]
          · by_cases mine : q ∈ rest ∧ (s.proc q).parent = some p
            · simp [u, Table.adopted, Table.wake, bereaved, other, mine]
            · simp [u, Table.adopted, Table.wake, bereaved, other, mine]
        have final := ih ordered distinct
        rw [same] at final
        rw [if_pos (state.trans zombie), show wakeup1 (channel addr u.initproc) u = _ from woke]
        exact final
      · have same : u.adopted addr p rest = s.adopted addr p (pc :: rest) := by
          have bereaved : u.Bereaved p rest ↔ s.Bereaved p (pc :: rest) := by
            simp only [u, Table.Bereaved, List.exists_mem_cons_iff, zombie, and_false, false_or, Table.setProc_proc]
            exact exists_congr fun z => and_congr_right fun member => by rw [if_neg (elsewhere z member)]
          funext q
          rcases eq_or_ne q pc with rfl | other
          · simp [u, Table.adopted, bereaved, notRest, child]
          · simp [u, Table.adopted, bereaved, other]
        rw [if_neg (state ▸ zombie), ← same]
        exact ih moved distinct
    · have same : s.adopted addr p rest = s.adopted addr p (pc :: rest) := by
        have bereaved : s.Bereaved p rest ↔ s.Bereaved p (pc :: rest) := by
          simp [Table.Bereaved, child]
        funext q
        rcases eq_or_ne q pc with rfl | other
        · simp [Table.adopted, bereaved, child]
        · simp [Table.adopted, bereaved, other]
      rw [reparent, if_neg child, ← same]
      exact ih ordered distinct

-- `exit` of `p` on CPU `c`.
def Table.exited (addr : Fin n → UInt64) (c : C) (p : Fin n) (s : Table C n) : Table C n :=
  let s := s.wake (channel addr (s.proc p).parent)
  let s := s.setProcs (s.adopted addr p (List.finRange n))
  s.leave c p { s.proc p with state := .zombie }

theorem woken_running {chan : UInt64} {x : Proc n} (running : x.state = .running) : woken chan x = x :=
  if_neg (by simp [running])

theorem exit_does {s : Table C n} (ordered : s.Ordered) (addr : Fin n → UInt64) (c : C) {p : Fin n}
    (running : (s.proc p).state = .running) : Does (exit addr c p s) (s.exited addr c p) := by
  obtain ⟨links, woke, ordered⟩ := wakeup1_does ordered (channel addr (s.proc p).parent)
  obtain ⟨links', moved, ordered⟩ := reparent_does ordered addr p (List.nodup_finRange n)
  obtain ⟨u, isU⟩ : ∃ u, u = (s.wake (channel addr (s.proc p).parent)).setLinks links := ⟨_, rfl⟩
  rw [← isU] at woke moved ordered
  obtain ⟨v, isV⟩ : ∃ v, v = (u.setProcs (u.adopted addr p (List.finRange n))).setLinks links' := ⟨_, rfl⟩
  rw [← isV] at moved ordered
  have stays : (v.proc p).state = .running := by
    have same : u.proc p = s.proc p := isU ▸ woken_running running
    simp only [isV, Table.setLinks_proc, Table.setProcs_proc, Table.adopted, same]
    split <;> split <;> simp [woken, running]
  have notRunnable : ¬ (v.proc p).state = .runnable := by simp [stays]
  refine ⟨links', ?_, ?_⟩
  · simp only [exit, woke, moved, Option.bind_eq_bind, Option.bind_some, if_neg notRunnable, sched_setProc]
    subst isV isU
    simp
    rfl
  · have gone : (v.setProc p { v.proc p with state := .zombie }).Ordered := ordered.setProc (by
      rw [Proc.home_eq_none (by simp) (by simp)]
      exact (Proc.home_eq_none (by simp [stays]) (by simp [stays])).symm)
    subst isV isU
    exact gone.congr rfl rfl

section
variable {addr : Fin n → UInt64}

omit [DecidableEq C] in
theorem adopted_eq (s : Table C n) (p : Fin n) (rest : List (Fin n)) (q : Fin n) :
    s.adopted addr p rest q =
      { (if s.Bereaved p rest then woken (channel addr s.initproc) (s.proc q) else s.proc q) with
        parent := if q ∈ rest ∧ (s.proc q).parent = some p then s.initproc else (s.proc q).parent } := by
  by_cases mine : q ∈ rest ∧ (s.proc q).parent = some p
  · by_cases bereaved : s.Bereaved p rest
    · simp only [Table.adopted, if_pos mine, if_pos bereaved, woken_setParent]
    · simp only [Table.adopted, if_pos mine, if_neg bereaved]
  · by_cases bereaved : s.Bereaved p rest
    · simp only [Table.adopted, if_neg mine, if_pos bereaved]
      rw [← woken_parent (channel addr s.initproc)]
    · simp only [Table.adopted, if_neg mine, if_neg bereaved]

/-- A process other than the exiting one is woken if it sleeps on the channel of the
parent, or of `initproc` that gets a zombie, and may be handed over. -/
theorem exited_other (s : Table C n) (c : C) {p q : Fin n} (other : q ≠ p) :
    (s.exited addr c p).proc q =
      { (if s.Bereaved p (List.finRange n) then
          woken (channel addr s.initproc) (woken (channel addr (s.proc p).parent) (s.proc q))
        else woken (channel addr (s.proc p).parent) (s.proc q)) with
        parent := if (s.proc q).parent = some p then s.initproc else (s.proc q).parent } := by
  have bereaved : (s.wake (channel addr (s.proc p).parent)).Bereaved p (List.finRange n) ↔
      s.Bereaved p (List.finRange n) := by
    simp [Table.Bereaved, Table.wake]
  have result : (s.exited addr c p).proc q =
      (s.wake (channel addr (s.proc p).parent)).adopted addr p (List.finRange n) q :=
    Function.update_of_ne other _ _
  rw [result, adopted_eq]
  simp only [bereaved, List.mem_finRange, true_and]
  simp [Table.wake]

theorem exited_self (s : Table C n) (c : C) (p : Fin n) : ((s.exited addr c p).proc p).state = .zombie ∧
    ((s.exited addr c p).proc p).parent = if (s.proc p).parent = some p then s.initproc else (s.proc p).parent := by
  have result : (s.exited addr c p).proc p =
      { (s.wake (channel addr (s.proc p).parent)).adopted addr p (List.finRange n) p with state := .zombie } :=
    if_pos rfl
  rw [result, adopted_eq]
  simp [Table.wake]

theorem exited_parent (addr : Fin n → UInt64) (s : Table C n) (c : C) (p q : Fin n) :
    ((s.exited addr c p).proc q).parent = if (s.proc q).parent = some p then s.initproc else (s.proc q).parent := by
  by_cases same : q = p
  · rw [same]
    exact (exited_self s c p).2
  · rw [exited_other s c same]

/-- Either nothing but its parent changes, and it slept on neither channel, or it is woken. -/
theorem exited_cases (addr : Fin n → UInt64) (s : Table C n) (c : C) {p q : Fin n} (other : q ≠ p) :
    (((s.exited addr c p).proc q).state = (s.proc q).state ∧
        ((s.exited addr c p).proc q).context = (s.proc q).context ∧
        ((s.exited addr c p).proc q).chan = (s.proc q).chan ∧
        ((s.proc q).state = .sleeping → (s.proc q).chan ≠ channel addr (s.proc p).parent ∧
          (s.Bereaved p (List.finRange n) → (s.proc q).chan ≠ channel addr s.initproc))) ∨
      ((s.proc q).state = .sleeping ∧ ((s.exited addr c p).proc q).state = .runnable) := by
  rw [exited_other s c other]
  rcases woken_cases (channel addr (s.proc p).parent) (s.proc q) with ⟨same, first⟩ | ⟨slept, awake⟩
  · rw [same]
    by_cases bereaved : s.Bereaved p (List.finRange n)
    · rcases woken_cases (channel addr s.initproc) (s.proc q) with ⟨same', second⟩ | ⟨slept, awake⟩
      · simp only [if_pos bereaved, same']
        exact .inl ⟨trivial, trivial, trivial, fun sleeps => ⟨first sleeps, fun _ => second sleeps⟩⟩
      · simp only [if_pos bereaved]
        exact .inr ⟨slept, awake⟩
    · simp only [if_neg bereaved]
      exact .inl ⟨trivial, trivial, trivial, fun sleeps => ⟨first sleeps, fun some => absurd some bereaved⟩⟩
  · right
    refine ⟨slept, ?_⟩
    have again : woken (channel addr s.initproc) (woken (channel addr (s.proc p).parent) (s.proc q)) =
        woken (channel addr (s.proc p).parent) (s.proc q) := if_neg (by simp [awake])
    simp only [again, ite_self, awake]

theorem woken_pid (chan : UInt64) (x : Proc n) : (woken chan x).pid = x.pid := by
  unfold woken
  split <;> rfl

theorem exited_pid (addr : Fin n → UInt64) (s : Table C n) (c : C) {p q : Fin n} (other : q ≠ p) :
    ((s.exited addr c p).proc q).pid = (s.proc q).pid := by
  rw [exited_other s c other]
  split
  · exact (woken_pid _ _).trans (woken_pid _ _)
  · exact woken_pid _ _

end

/-! ## Scheduling -/

omit [DecidableEq C] in
/-- The scheduler finds a runnable process, the first one of the first queue that is not empty. -/
theorem pick_returns {s : Table C n} (ordered : s.Ordered) (order : List (Fin prioentries)) :
    ∃ found, pick s order = some found ∧ ∀ p, found = some p → (s.proc p).state = .runnable := by
  obtain ⟨queue, queued⟩ := ordered
  induction order with
  | nil => exact ⟨none, rfl, by simp⟩
  | cons i rest ih =>
    have front : s.links.next (.prioque i) = some (((queue (.prioque i)).map .plist).headD (.prioque i)) :=
      (queued.rings.ring (.prioque i)).next_head
    cases waiting : queue (.prioque i) with
    | nil =>
      have empty : listEmpty s.links (.prioque i) = true := by simp [listEmpty, front, waiting]
      rw [pick, if_pos empty]
      exact ih
    | cons p ps =>
      have first : s.links.next (.prioque i) = some (.plist p) := by simp [front, waiting]
      have notEmpty : ¬ listEmpty s.links (.prioque i) = true := by simp [listEmpty, first]
      have here : s.homes p = some (.prioque i) := (queued.mem_iff _ p).mp (by simp [waiting])
      refine ⟨some p, by simp [pick, notEmpty, listFront, first], ?_⟩
      rintro _ ⟨⟩
      exact (Proc.home_eq_prioque.mp here).1

def Table.picked (c : C) (p : Fin n) (s : Table C n) : Table C n :=
  { s.setProc p { s.proc p with state := .running } with cpu := Function.update s.cpu c (some p) }

theorem picked_does {s : Table C n} (ordered : s.Ordered) (c : C) {p : Fin n}
    (runnable : (s.proc p).state = .runnable) :
    ∃ links, listDelete s.links (.plist p) = some links ∧ ((s.picked c p).setLinks links).Ordered := by
  obtain ⟨queue, queued⟩ := ordered
  obtain ⟨links, deleted, queued⟩ := queued.delete
    (show s.homes p = some (.prioque (s.proc p).prio) from Proc.home_eq_prioque.mpr ⟨runnable, rfl⟩)
  have homes : ((s.picked c p).setLinks links).homes = Function.update s.homes p none :=
    Table.homes_setProc s p { s.proc p with state := .running }
  exact ⟨links, deleted, _, homes ▸ queued⟩

/-! ## Waiting -/

omit [DecidableEq C] in
theorem waitScan_spec (s : Table C n) (par : Fin n) (rest : List (Fin n)) (flag : Bool) :
    (∃ p ∈ rest, waitScan s par rest flag = (some p, true) ∧ (s.proc p).parent = some par ∧
        (s.proc p).state = .zombie) ∨
      ∃ found, waitScan s par rest flag = (none, found) ∧
        (found = true ↔ flag = true ∨ ∃ p ∈ rest, (s.proc p).parent = some par) ∧ ¬ s.Bereaved par rest := by
  induction rest generalizing flag with
  | nil => exact .inr ⟨flag, rfl, by simp, by simp [Table.Bereaved]⟩
  | cons p rest ih =>
    by_cases child : (s.proc p).parent = some par
    · by_cases zombie : (s.proc p).state = .zombie
      · exact .inl ⟨p, by simp, by simp [waitScan, child, zombie], child, zombie⟩
      · rw [waitScan, if_pos child, if_neg zombie]
        rcases ih true with ⟨q, member, found⟩ | ⟨found, scanned, flagged, none⟩
        · exact .inl ⟨q, by simp [member], found⟩
        · refine .inr ⟨found, scanned, by simp [flagged, child], ?_⟩
          simpa [Table.Bereaved, zombie] using none
    · rw [waitScan, if_neg child]
      rcases ih flag with ⟨q, member, found⟩ | ⟨found, scanned, flagged, none⟩
      · exact .inl ⟨q, by simp [member], found⟩
      · refine .inr ⟨found, scanned, by simp [flagged, child], ?_⟩
        simpa [Table.Bereaved, child] using none

/-- What a turn of `wait` can do: reap a zombie child, find no child, or go to
sleep when no child is a zombie. -/
inductive WaitTurn (addr : Fin n → UInt64) (c : C) (par : Fin n) (s : Table C n) : Table C n → WaitEnd n → Prop where
  | reaped (p : Fin n) (child : (s.proc p).parent = some par) (zombie : (s.proc p).state = .zombie) :
      WaitTurn addr c par s (cleanproc s p) (.reaped p (s.proc p).pid)
  | childless (none : ∀ p, (s.proc p).parent ≠ some par) : WaitTurn addr c par s s .childless
  | blocked (none : ∀ p, (s.proc p).parent = some par → (s.proc p).state ≠ .zombie) :
      WaitTurn addr c par s
        (s.leave c par { s.proc par with chan := addr par, state := .sleeping, context := .wait }) .blocked

theorem wait_does {s : Table C n} (ordered : s.Ordered) (addr : Fin n → UInt64) (c : C) {par : Fin n}
    (running : (s.proc par).state = .running) :
    ∃ t links result, wait addr c par s = some (t.setLinks links, result) ∧ (t.setLinks links).Ordered ∧
      WaitTurn addr c par s t result := by
  rcases waitScan_spec s par (List.finRange n) false with ⟨p, _, scanned, child, zombie⟩ |
    ⟨found, scanned, flagged, none⟩
  · refine ⟨_, s.links, _, by rw [wait, scanned]; rfl, ?_, .reaped p child zombie⟩
    refine (ordered.setProc ?_).congr rfl rfl
    rw [Proc.home_eq_none (by simp) (by simp)]
    exact (Proc.home_eq_none (by simp [zombie]) (by simp [zombie])).symm
  · cases found with
    | false =>
      refine ⟨_, s.links, _, by rw [wait, scanned]; rfl, ordered.congr rfl rfl, .childless ?_⟩
      simpa using flagged
    | true =>
      obtain ⟨links, slept, ordered⟩ := sleepOn_does ordered c running (addr par) .wait
      refine ⟨_, links, _, by rw [wait, scanned, slept]; rfl, ordered, .blocked ?_⟩
      simpa [Table.Bereaved] using none

end

end Xv6.Process
