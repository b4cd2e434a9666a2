import Xv6.Library.Program
import Mathlib.Logic.Function.Basic

/-! Threads that run programs over one shared state.

A thread is what is left of its program; a step answers the next request of one thread.
A proof gives every thread a place that only its own requests change, and one invariant
over the shared state and the places of all threads. A program keeps the invariant when
each of its requests does, from the place that it has reached.
-/

set_option autoImplicit false

namespace Xv6.Library

/-- The rules under which threads run: the answers to the requests of a thread, where the
environment may choose, how a thread enters a call, and other changes of the state. -/
structure Threads (T Call E W : Type) (I : Interface) (S : Type) where
  answer : T → E → (r : I.Request) → S → Option (I.Reply r × S)
  enters : T → Call → S → Option S
  body : Call → Program I Unit
  outside : W → S → Option S

structure Pool (T : Type) (I : Interface) (S : Type) where
  shared : S
  code : T → Program I Unit

namespace Pool

variable {T : Type} {I : Interface} {S : Type}

def Idle (s : Pool T I S) : Prop := ∀ t, s.code t = .done ()

inductive Action (T Call E W : Type) where
  | enter (t : T) (c : Call)
  | answer (t : T) (e : E)
  | outside (w : W)

end Pool

section
variable {T Call E W : Type} {I : Interface} {S : Type}

def Threads.issue [DecidableEq T] (rules : Threads T Call E W I S) (t : T) (e : E) (s : Pool T I S) :
    Program I Unit → Option (Pool T I S)
  | .done _ => none
  | .call r next => (rules.answer t e r s.shared).map fun (reply, shared) =>
    ⟨shared, Function.update s.code t (next reply)⟩

def Threads.step [DecidableEq T] (rules : Threads T Call E W I S) (a : Pool.Action T Call E W) (s : Pool T I S) :
    Option (Pool T I S) :=
  match a with
  | .enter t c =>
    match s.code t with
    | .done _ => (rules.enters t c s.shared).map fun shared => ⟨shared, Function.update s.code t (rules.body c)⟩
    | .call .. => none
  | .answer t e => rules.issue t e s (s.code t)
  | .outside w => (rules.outside w s.shared).map fun shared => { s with shared }

end

/-! ## Programs of a thread -/

namespace Program

section
variable {T E L S A B : Type} [DecidableEq T] {I : Interface}

/-- From a place of thread `t`, every answer keeps the invariant at some next place, and the
program ends at a place with `post`. -/
def Keeps (answer : T → E → (r : I.Request) → S → Option (I.Reply r × S)) (Inv : S → (T → L) → Prop) (t : T)
    (post : A → L → Prop) : Program I A → L → Prop
  | .done value, here => post value here
  | .call r next, here => ∀ e s place reply s', Inv s place → place t = here → answer t e r s = some (reply, s') →
      ∃ there, Inv s' (Function.update place t there) ∧ (next reply).Keeps answer Inv t post there

variable {answer : T → E → (r : I.Request) → S → Option (I.Reply r × S)} {Inv : S → (T → L) → Prop} {t : T}
  {post : A → L → Prop} {here : L}

@[simp] theorem keeps_pure {value : A} :
    (pure value : Program I A).Keeps answer Inv t post here ↔ post value here := Iff.rfl

theorem Keeps.mono {weaker : A → L → Prop} {p : Program I A} (keeps : p.Keeps answer Inv t post here)
    (weakens : ∀ value there, post value there → weaker value there) : p.Keeps answer Inv t weaker here := by
  induction p generalizing here with
  | done value => exact weakens value here keeps
  | call r next ih =>
    intro e s place reply s' holds at_ answered
    obtain ⟨there, holds', rest⟩ := keeps e s place reply s' holds at_ answered
    exact ⟨there, holds', ih reply rest⟩

theorem Keeps.bind {post : B → L → Prop} {p : Program I A} {k : A → Program I B}
    (keeps : p.Keeps answer Inv t (fun value there => (k value).Keeps answer Inv t post there) here) :
    (p >>= k).Keeps answer Inv t post here := by
  change (p.bind k).Keeps answer Inv t post here
  induction p generalizing here with
  | done value => exact keeps
  | call r next ih =>
    intro e s place reply s' holds at_ answered
    obtain ⟨there, holds', rest⟩ := keeps e s place reply s' holds at_ answered
    exact ⟨there, holds', ih reply rest⟩

/-- A program that ends at one place, and what follows it from there. -/
theorem Keeps.follow {post : B → L → Prop} {p : Program I A} {k : A → Program I B} {there : L}
    (first : p.Keeps answer Inv t (fun _ end_ => end_ = there) here)
    (next : ∀ value, (k value).Keeps answer Inv t post there) : (p >>= k).Keeps answer Inv t post here := by
  refine Keeps.bind (first.mono ?_)
  rintro value _ rfl
  exact next value

/-- One request, whose answers lead to the places that `post` allows. -/
theorem keeps_request {r : I.Request} {post : I.Reply r → L → Prop} :
    (request r).Keeps answer Inv t post here ↔
      ∀ e s place reply s', Inv s place → place t = here → answer t e r s = some (reply, s') →
        ∃ there, Inv s' (Function.update place t there) ∧ post reply there := Iff.rfl

/-- As long as every reply is one that `can` come, the requests are those of which `ok` holds,
and the program ends with `post`. -/
def Follows (ok : I.Request → Prop) (can : (r : I.Request) → I.Reply r → Prop) (post : A → Prop) : Program I A → Prop
  | .done value => post value
  | .call r next => ok r ∧ ∀ reply, can r reply → (next reply).Follows ok can post

theorem Follows.bind {ok : I.Request → Prop} {can : (r : I.Request) → I.Reply r → Prop} {post : A → Prop}
    {last : B → Prop} {p : Program I A} {k : A → Program I B} (first : p.Follows ok can post)
    (next : ∀ value, post value → (k value).Follows ok can last) : (p >>= k).Follows ok can last := by
  change (p.bind k).Follows ok can last
  induction p with
  | done value => exact next value first
  | call r rest ih => exact ⟨first.1, fun reply comes => ih reply (first.2 reply comes)⟩

theorem Follows.request_bind {ok : I.Request → Prop} {can : (r : I.Request) → I.Reply r → Prop} {last : B → Prop}
    {r : I.Request} {k : I.Reply r → Program I B} (isOk : ok r)
    (next : ∀ reply, can r reply → (k reply).Follows ok can last) : (request r >>= k).Follows ok can last :=
  ⟨isOk, next⟩

/-- A program whose requests keep the invariant without a move of its thread stays where it is. -/
theorem Issues.keeps {ok : I.Request → Prop} {p : Program I A} (issues : p.Issues ok)
    (stays : ∀ r, ok r → ∀ e s place reply s', Inv s place → place t = here → answer t e r s = some (reply, s') →
      Inv s' place) : p.Keeps answer Inv t (fun _ there => there = here) here := by
  induction p with
  | done value => rfl
  | call r next ih =>
    intro e s place reply s' holds at_ answered
    refine ⟨here, ?_, ih reply (issues.2 reply)⟩
    rw [← at_, Function.update_eq_self]
    exact stays r issues.1 e s place reply s' holds at_ answered

theorem Keeps.request_bind {r : I.Request} {k : I.Reply r → Program I B} {post : B → L → Prop}
    (each : ∀ e s place reply s', Inv s place → place t = here → answer t e r s = some (reply, s') →
      ∃ there, Inv s' (Function.update place t there) ∧ (k reply).Keeps answer Inv t post there) :
    (request r >>= k).Keeps answer Inv t post here := Keeps.bind (keeps_request.mpr each)

/-- A loop over a list, with what holds of the place after the elements done. -/
theorem Keeps.forM {X : Type} (Reached : List X → L → Prop) {body : X → Program I PUnit} (list : List X)
    (start : Reached [] here) (each : ∀ finished x rest l, list = finished ++ x :: rest → Reached finished l →
      (body x).Keeps answer Inv t (fun _ => Reached (finished ++ [x])) l) :
    (list.forM body).Keeps answer Inv t (fun _ => Reached list) here := by
  -- on the elements left, after any that are done
  have steps : ∀ rest finished l, list = finished ++ rest → Reached finished l →
      (rest.forM body).Keeps answer Inv t (fun _ => Reached list) l := by
    intro rest
    induction rest with
    | nil =>
      intro finished l all reached
      rw [List.append_nil] at all
      exact all ▸ reached
    | cons x rest ih =>
      intro finished l all reached
      change (body x >>= fun _ => rest.forM body).Keeps answer Inv t (fun _ => Reached list) l
      refine Keeps.bind ((each finished x rest l all reached).mono fun _ there next => ?_)
      exact ih (finished ++ [x]) there (by rw [all, List.append_assoc]; rfl) next
  exact steps list [] here rfl start

theorem Keeps.forFin {m : Nat} (Reached : Nat → L → Prop) {body : Fin m → Program I PUnit} (start : Reached 0 here)
    (each : ∀ (i : Fin m) l, Reached i.val l → (body i).Keeps answer Inv t (fun _ => Reached (i.val + 1)) l) :
    ((List.finRange m).forM body).Keeps answer Inv t (fun _ => Reached m) here := by
  have turns : ∀ finished i rest l, List.finRange m = finished ++ i :: rest → Reached finished.length l →
      (body i).Keeps answer Inv t (fun _ => Reached (finished ++ [i]).length) l := by
    intro finished i rest l all reached
    have found : (List.finRange m)[finished.length]? = some i := by
      rw [all]
      simp
    obtain ⟨_, value⟩ := List.getElem?_eq_some_iff.mp found
    rw [List.getElem_finRange] at value
    have index : i.val = finished.length := by
      rw [← value]
      rfl
    have turn := each i l (index ▸ reached)
    rw [index] at turn
    simpa using turn
  have loop := Keeps.forM (fun finished => Reached finished.length) (List.finRange m) start turns
  simpa using loop

end

end Program

/-! ## Runs of all threads -/

section
variable {T Call E W L S : Type} [DecidableEq T] {I : Interface}

def Threads.Kept (rules : Threads T Call E W I S) (Inv : S → (T → L) → Prop) (rest : L → Prop)
    (s : Pool T I S) (place : T → L) : Prop :=
  Inv s.shared place ∧ ∀ t, (s.code t).Keeps rules.answer Inv t (fun _ => rest) (place t)

variable {rules : Threads T Call E W I S} {Inv : S → (T → L) → Prop} {rest : L → Prop}

def Threads.Enters (rules : Threads T Call E W I S) (Inv : S → (T → L) → Prop) (rest : L → Prop) (ok : Call → Prop) :
    Prop :=
  ∀ t c s s' place, ok c → Inv s place → rest (place t) → rules.enters t c s = some s' →
    ∃ there, Inv s' (Function.update place t there) ∧ (rules.body c).Keeps rules.answer Inv t (fun _ => rest) there

/-- Every step moves at most the place of the thread that takes it. -/
theorem Threads.step_kept {ok : Call → Prop} (enters : rules.Enters Inv rest ok)
    (outside : ∀ w s s' place, Inv s place → rules.outside w s = some s' → Inv s' place)
    {a : Pool.Action T Call E W} (allowed : ∀ t c, a = .enter t c → ok c) {s s' : Pool T I S} {place : T → L}
    (kept : rules.Kept Inv rest s place)
    (stepped : rules.step a s = some s') : ∃ place', rules.Kept Inv rest s' place' := by
  obtain ⟨holds, keeps⟩ := kept
  -- the place of one thread and the rest of its program change together
  have moved : ∀ t shared code there, Inv shared (Function.update place t there) →
      code.Keeps rules.answer Inv t (fun _ => rest) there →
      rules.Kept Inv rest ⟨shared, Function.update s.code t code⟩ (Function.update place t there) := by
    intro t shared code there holds' continues
    refine ⟨holds', fun u => ?_⟩
    by_cases same : u = t
    · subst same
      simpa using continues
    · simpa [same] using keeps u
  cases a with
  | enter t c =>
    have mine := keeps t
    simp only [step] at stepped
    cases code : s.code t with
    | done value =>
      rw [code] at stepped mine
      simp only [Option.map_eq_some_iff] at stepped
      obtain ⟨shared, entered, rfl⟩ := stepped
      obtain ⟨there, holds', body⟩ := enters t c _ _ place (allowed t c rfl) holds mine entered
      exact ⟨_, moved t shared _ there holds' body⟩
    | call r next => simp [code] at stepped
  | answer t e =>
    have mine := keeps t
    simp only [step] at stepped
    cases code : s.code t with
    | done value => simp [issue, code] at stepped
    | call r next =>
      rw [code] at stepped mine
      simp only [issue, Option.map_eq_some_iff] at stepped
      obtain ⟨⟨reply, shared⟩, answered, rfl⟩ := stepped
      obtain ⟨there, holds', continues⟩ := mine e s.shared place reply shared holds rfl answered
      exact ⟨_, moved t shared _ there holds' continues⟩
  | outside w =>
    simp only [step, Option.map_eq_some_iff] at stepped
    obtain ⟨shared, changed, rfl⟩ := stepped
    exact ⟨place, outside w _ _ place holds changed, keeps⟩

theorem Threads.run_kept {ok : Call → Prop} (enters : rules.Enters Inv rest ok)
    (outside : ∀ w s s' place, Inv s place → rules.outside w s = some s' → Inv s' place)
    {acts : List (Pool.Action T Call E W)} (allowed : ∀ t c, .enter t c ∈ acts → ok c) {s s' : Pool T I S}
    {place : T → L} (start : Inv s.shared place) (idle : s.Idle) (atRest : ∀ t, rest (place t))
    (ran : run rules.step acts s = some s') : ∃ place', rules.Kept Inv rest s' place' := by
  have initial : ∃ place, rules.Kept Inv rest s place := by
    refine ⟨place, start, fun t => ?_⟩
    rw [idle t]
    exact atRest t
  have preserved : ∀ a u v, (∃ place, rules.Kept Inv rest u place) → (∀ t c, a = .enter t c → ok c) →
      rules.step a u = some v → ∃ place, rules.Kept Inv rest v place := by
    rintro a u v ⟨place, kept⟩ allows stepped
    exact step_kept enters outside allows kept stepped
  have meets : Meets rules.step (fun a _ => ∀ t c, a = .enter t c → ok c) acts s := by
    refine Meets.of_forall ?_ s
    rintro a member _ t c rfl
    exact allowed t c member
  exact run_invariant_of_meets preserved initial meets ran

end

/-! ## Calls with a result -/

def Interface.returning (I : Interface) (R : Type) : Interface where
  Request := I.Request ⊕ R
  Reply
    | .inl r => I.Reply r
    | .inr _ => Unit

namespace Program

variable {I : Interface} {A R : Type}

def lift : Program I A → Program (I.returning R) A
  | .done value => .done value
  | .call r next => .call (I := I.returning R) (.inl r) fun reply => (next reply).lift

def ending : Program I R → Program (I.returning R) Unit
  | .done value => .call (I := I.returning R) (.inr value) .done
  | .call r next => .call (I := I.returning R) (.inl r) fun reply => (next reply).ending

end Program

/-! ## Recorded runs -/

section
variable {T Call E W S N : Type} [DecidableEq T] {I : Interface}

def Threads.recording (rules : Threads T Call E W I S) (note : (r : I.Request) → I.Reply r → Option N) :
    Threads T Call E W I (S × List N) where
  answer t e r s := (rules.answer t e r s.1).map fun out => (out.1, out.2, s.2 ++ (note r out.1).toList)
  enters t c s := (rules.enters t c s.1).map fun shared => (shared, s.2)
  body := rules.body
  outside w s := (rules.outside w s.1).map fun shared => (shared, s.2)

def Pool.noted (s : Pool T I S) (notes : List N) : Pool T I (S × List N) := ⟨(s.shared, notes), s.code⟩

variable {rules : Threads T Call E W I S} {note : (r : I.Request) → I.Reply r → Option N}

variable (note) in
theorem Threads.step_recorded {a : Pool.Action T Call E W} {s t : Pool T I S} (notes : List N)
    (stepped : rules.step a s = some t) :
    ∃ more, (rules.recording note).step a (s.noted notes) = some (t.noted (notes ++ more)) := by
  cases a with
  | enter u c =>
    refine ⟨[], ?_⟩
    simp only [step, Pool.noted] at stepped ⊢
    cases code : s.code u with
    | done value =>
      rw [code] at stepped
      obtain ⟨shared, entered, rfl⟩ := Option.map_eq_some_iff.mp stepped
      simp [recording, entered]
    | call r next => simp [code] at stepped
  | answer u e =>
    simp only [step, Pool.noted] at stepped ⊢
    cases code : s.code u with
    | done value => simp [issue, code] at stepped
    | call r next =>
      rw [code] at stepped
      obtain ⟨out, answered, rfl⟩ := Option.map_eq_some_iff.mp stepped
      exact ⟨(note r out.1).toList, by simp [issue, recording, answered]⟩
  | outside w =>
    refine ⟨[], ?_⟩
    obtain ⟨shared, changed, rfl⟩ := Option.map_eq_some_iff.mp stepped
    simp [step, recording, Pool.noted, changed]

variable (note) in
theorem Threads.run_recorded {acts : List (Pool.Action T Call E W)} {s t : Pool T I S}
    (ran : run rules.step acts s = some t) (notes : List N) :
    ∃ more, run (rules.recording note).step acts (s.noted notes) = some (t.noted (notes ++ more)) := by
  induction acts generalizing s notes with
  | nil =>
    cases ran
    exact ⟨[], by simp⟩
  | cons a rest ih =>
    obtain ⟨u, stepped, tail⟩ := run_cons_eq_some.mp ran
    obtain ⟨first, recorded⟩ := step_recorded note notes stepped
    obtain ⟨more, later⟩ := ih tail (notes ++ first)
    refine ⟨first ++ more, run_cons_eq_some.mpr ⟨_, recorded, ?_⟩⟩
    rw [← List.append_assoc]
    exact later

end

end Xv6.Library
