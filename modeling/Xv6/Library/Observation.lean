import Xv6.Library.Transition
import Mathlib.Data.List.Infix

/-! What is seen of a run, and rules about it.

In a queue that is served in order a step either takes the front away or leaves it there, and
clients come behind the others in both cases. What a run serves begins with the queue that it
found. A simulation carries the observations of a run over to an abstract system.
-/

set_option autoImplicit false

namespace Xv6.Library

section
variable {S A O : Type}

/-- What is seen of a run, in order; `sees` says what is seen of an action, if anything. -/
def observed (step : A → S → Option S) (sees : A → S → Option O) : List A → S → List O
  | [], _ => []
  | a :: rest, s => (sees a s).toList ++ ((step a s).map (observed step sees rest)).getD []

theorem observed_cons {step : A → S → Option S} {sees : A → S → Option O} {a : A} {s t : S} (rest : List A)
    (stepped : step a s = some t) :
    observed step sees (a :: rest) s = (sees a s).toList ++ observed step sees rest t := by
  rw [observed, stepped, Option.map_some, Option.getD_some]

/-- What every step preserves, given what was seen before it. -/
theorem run_history {step : A → S → Option S} {sees : A → S → Option O} {P : List O → S → Prop}
    (each : ∀ a s t seen, P seen s → step a s = some t → P (seen ++ (sees a s).toList) t)
    {acts : List A} {s t : S} {seen : List O} (start : P seen s) (ran : run step acts s = some t) :
    P (seen ++ observed step sees acts s) t := by
  -- on the actions, whatever was seen before them
  induction acts generalizing s seen with
  | nil =>
    rw [observed, List.append_nil]
    exact Option.some.inj ran ▸ start
  | cons a rest ih =>
    obtain ⟨u, stepped, tail⟩ := run_cons_eq_some.mp ran
    rw [observed_cons rest stepped, ← List.append_assoc]
    exact ih (each a s u seen start stepped) tail

/-! ## Service in order -/

/-- A turn takes the front of the queue if there is one, another step takes nobody. -/
def Serves (turn : Bool) (queue : List O) (client : Option O) (queue' : List O) : Prop :=
  if turn then client = queue.head? ∧ queue.tail <+: queue' else client = none ∧ queue <+: queue'

section
variable {step : A → S → Option S} {serves : A → S → Option O} {turn : A → Bool} {Waits : S → List O → Prop}
  (each : ∀ a s t queue, Waits s queue → step a s = some t →
    ∃ queue', Waits t queue' ∧ Serves (turn a) queue (serves a s) queue')
include each

/-- Whoever waits is served after those ahead, one in each turn. -/
theorem served_in_order {acts : List A} {s t : S} {queue : List O} (waits : Waits s queue)
    (ran : run step acts s = some t) : queue.take (acts.countP turn) <+: observed step serves acts s := by
  -- on the actions, for every queue they may find
  induction acts generalizing s queue with
  | nil => exact List.nil_prefix
  | cons a rest ih =>
    obtain ⟨u, stepped, tail⟩ := run_cons_eq_some.mp ran
    obtain ⟨queue', waits', service⟩ := each a s u queue waits stepped
    have later := ih waits' tail
    rw [observed_cons rest stepped]
    unfold Serves at service
    by_cases isTurn : turn a = true
    · rw [if_pos isTurn] at service
      obtain ⟨client, behind⟩ := service
      rw [List.countP_cons_of_pos isTurn, client]
      cases queue with
      | nil => exact List.nil_prefix
      | cons p queue =>
        apply List.cons_prefix_cons.mpr
        exact ⟨rfl, (List.IsPrefix.take behind _).trans later⟩
    · rw [if_neg isTurn] at service
      obtain ⟨client, behind⟩ := service
      rw [List.countP_cons_of_neg isTurn, client]
      exact (List.IsPrefix.take behind _).trans later

/-- After as many turns as there are clients, all of them have been served. -/
theorem served_of_mem {acts : List A} {s t : S} {queue : List O} (waits : Waits s queue)
    (ran : run step acts s = some t) (turns : queue.length ≤ acts.countP turn) {p : O} (member : p ∈ queue) :
    p ∈ observed step serves acts s := by
  have order := served_in_order each waits ran
  rw [List.take_of_length_le turns] at order
  exact order.subset member

end

/-! ## Simulation -/

section
variable {X : Type} {does : X → O → X → Prop}

/-- The abstract system goes from one state to another with the observations. -/
def Leads (does : X → O → X → Prop) : X → List O → X → Prop
  | x, [], y => y = x
  | x, o :: rest, y => ∃ z, does x o z ∧ Leads does z rest y

def Tracks (does : X → O → X → Prop) (x : X) : Option O → X → Prop
  | none, y => y = x
  | some o, y => does x o y

theorem Tracks.leads {x y z : X} {seen : Option O} {rest : List O} (first : Tracks does x seen y)
    (later : Leads does y rest z) : Leads does x (seen.toList ++ rest) z := by
  cases seen with
  | none => exact Eq.subst (motive := fun w => Leads does w rest z) first later
  | some o => exact ⟨y, first, later⟩

/-- A simulation of the steps is a simulation of the runs. -/
theorem run_leads {step : A → S → Option S} {sees : A → S → Option O} {ok : A → S → Prop} {Sim : S → X → Prop}
    (each : ∀ a s t x, Sim s x → ok a s → step a s = some t → ∃ y, Sim t y ∧ Tracks does x (sees a s) y)
    {acts : List A} {s t : S} {x : X} (sim : Sim s x) (meets : Meets step ok acts s)
    (ran : run step acts s = some t) : ∃ y, Sim t y ∧ Leads does x (observed step sees acts s) y := by
  -- on the actions, for every pair of states they may start from
  induction acts generalizing s x with
  | nil => exact ⟨x, Option.some.inj ran ▸ sim, rfl⟩
  | cons a rest ih =>
    obtain ⟨u, stepped, tail⟩ := run_cons_eq_some.mp ran
    obtain ⟨y, sim', first⟩ := each a s u x sim meets.1 stepped
    obtain ⟨z, sim'', later⟩ := ih sim' (meets.2 u stepped) tail
    rw [observed_cons rest stepped]
    exact ⟨z, sim'', first.leads later⟩

end

end

end Xv6.Library
