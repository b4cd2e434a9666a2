import Xv6.Process.Table

/-! Which list a process is linked in, and what the list operations of `kern/proc.c` do to it.

`Queued` connects the pointers with the sequences they spell. It speaks of the
list each process belongs to and not of its state, so that it also holds between
the statements of a function that changes the two one after the other.
-/

set_option autoImplicit false

namespace Xv6.Process

open Library

/-- The lists of the scheduler. -/
inductive Queue where
  | prioque (i : Fin prioentries)
  | hashmp (entry : Fin hashentries)
  deriving DecidableEq

section
variable {n : Nat}

def Queue.head : Queue → ListHead n
  | .prioque i => .prioque i
  | .hashmp entry => .hashmp entry

def Queue.node : Queue → Fin n → ListHead n
  | .prioque _ => .plist
  | .hashmp _ => .clist

theorem Queue.head_injective : Function.Injective (Queue.head (n := n)) := by
  intro q r same
  cases q <;> cases r <;> simp_all [Queue.head]

def Proc.home (x : Proc n) : Option Queue :=
  match x.state with
  | .runnable => some (.prioque x.prio)
  | .sleeping => some (.hashmp (hashEntry x.chan))
  | _ => none

theorem Proc.home_eq_prioque {x : Proc n} {i : Fin prioentries} :
    x.home = some (.prioque i) ↔ x.state = .runnable ∧ x.prio = i := by
  cases state : x.state <;> simp [Proc.home, state]

theorem Proc.home_eq_hashmp {x : Proc n} {entry : Fin hashentries} :
    x.home = some (.hashmp entry) ↔ x.state = .sleeping ∧ hashEntry x.chan = entry := by
  cases state : x.state <;> simp [Proc.home, state]

theorem Proc.home_eq_none {x : Proc n} (notRunnable : x.state ≠ .runnable) (notSleeping : x.state ≠ .sleeping) :
    x.home = none := by
  cases state : x.state <;> simp_all [Proc.home]

/-- The lists are rings, and each process is in its home and in no other list. -/
structure Queued (l : Links (ListHead n)) (home : Fin n → Option Queue) (queue : Queue → List (Fin n)) :
    Prop where
  rings : Rings l Queue.head fun q => (queue q).map q.node
  mem_iff : ∀ q p, p ∈ queue q ↔ home p = some q

namespace Queued

variable {l : Links (ListHead n)} {home : Fin n → Option Queue} {queue : Queue → List (Fin n)} {q : Queue}
  {p : Fin n}

theorem node_injective (q : Queue) : Function.Injective (q.node (n := n)) := by
  cases q <;> intro a b same <;> simpa [Queue.node] using same

theorem nodup (queued : Queued l home queue) (q : Queue) : (queue q).Nodup :=
  (queued.rings.ring q).nodup.of_map _

-- The node of one list in another one is the node of the same process.
theorem mem_of_node_mem {r : Queue} (member : q.node p ∈ r.head :: (queue r).map r.node) : p ∈ queue r := by
  cases q <;> cases r <;> simp_all [Queue.node, Queue.head]

theorem update_map (queue : Queue → List (Fin n)) (q : Queue) (ps : List (Fin n)) :
    Function.update (fun r => (queue r).map r.node) q (ps.map q.node) =
      fun r => (Function.update queue q ps r).map r.node := by
  funext r
  rcases eq_or_ne r q with rfl | other
  · simp
  · simp [Function.update_of_ne other]

theorem push (queued : Queued l home queue) (homeless : home p = none) :
    ∃ m, listPushBack l q.head (q.node p) = some m ∧
      Queued m (Function.update home p (some q)) (Function.update queue q (queue q ++ [p])) := by
  have absent : ∀ r, p ∉ queue r := by
    intro r member
    simpa [homeless] using (queued.mem_iff r p).mp member
  obtain ⟨m, pushed, rings⟩ := rings_listPushBack (i := q) queued.rings
    (fun r member => absent r (mem_of_node_mem member))
  refine ⟨m, pushed, ⟨?_, ?_⟩⟩
  · rw [← update_map]
    simpa using rings
  · intro r a
    rcases eq_or_ne r q with rfl | other
    · rcases eq_or_ne a p with rfl | otherA
      · simp
      · simpa [Function.update_of_ne otherA, otherA] using queued.mem_iff r a
    · rcases eq_or_ne a p with rfl | otherA
      · simpa [Function.update_of_ne other, other.symm] using absent r
      · simpa [Function.update_of_ne other, Function.update_of_ne otherA] using queued.mem_iff r a

theorem delete (queued : Queued l home queue) (here : home p = some q) :
    ∃ m, listDelete l (q.node p) = some m ∧
      Queued m (Function.update home p none) (Function.update queue q ((queue q).erase p)) := by
  have member : p ∈ queue q := (queued.mem_iff q p).mpr here
  obtain ⟨m, deleted, rings⟩ := rings_listDelete (i := q) queued.rings
    (List.mem_map_of_mem member)
  refine ⟨m, deleted, ⟨?_, ?_⟩⟩
  · rw [← update_map, List.map_erase (node_injective q)]
    exact rings
  · intro r a
    rcases eq_or_ne r q with rfl | other
    · rcases eq_or_ne a p with rfl | otherA
      · simpa using (queued.nodup r).not_mem_erase
      · simpa [Function.update_of_ne otherA, List.mem_erase_of_ne otherA] using queued.mem_iff r a
    · rcases eq_or_ne a p with rfl | otherA
      · rw [Function.update_of_ne other, Function.update_self, queued.mem_iff, here]
        simp [other.symm]
      · simpa [Function.update_of_ne other, Function.update_of_ne otherA] using queued.mem_iff r a

theorem congr {m : Links (ListHead n)} (queued : Queued l home queue) (homeless : home p = none)
    (outside : ∀ a, a ≠ .clist p → a ≠ .plist p → m.next a = l.next a ∧ m.prev a = l.prev a) :
    Queued m home queue where
  rings :=
    { ring r := (queued.rings.ring r).congr fun a member => by
        have absent : p ∉ queue r := fun inQueue => by
          simpa [homeless] using (queued.mem_iff r p).mp inQueue
        refine outside a ?_ ?_
        · rintro rfl
          exact absent (mem_of_node_mem (q := .hashmp ⟨0, by decide⟩) member)
        · rintro rfl
          exact absent (mem_of_node_mem (q := .prioque ⟨0, by decide⟩) member)
      apart := queued.rings.apart }
  mem_iff := queued.mem_iff

end Queued

end

end Xv6.Process
