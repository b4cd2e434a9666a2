import Xv6.Library.Transition

/-! Sequential programs over an interface of requests, and their runs under a handler.

A program is a finite tree: it returns, or issues one request and continues with
the reply. What the requests do is decided by a handler over some state, so one
program text can be run on several machines: a faithful one, an idealised one,
one that records what the program did.
-/

set_option autoImplicit false

namespace Xv6.Library

structure Interface where
  Request : Type
  Reply : Request → Type

inductive Program (I : Interface) (A : Type) where
  | done (value : A)
  | call (request : I.Request) (next : I.Reply request → Program I A)

namespace Program

section
variable {I : Interface} {A B C S : Type}

def bind (p : Program I A) (k : A → Program I B) : Program I B :=
  match p with
  | .done value => k value
  | .call request next => .call request (fun reply => (next reply).bind k)

instance : Monad (Program I) where
  pure := .done
  bind := bind

def request (r : I.Request) : Program I (I.Reply r) := .call r .done

theorem bind_assoc (p : Program I A) (k : A → Program I B) (l : B → Program I C) :
    (p.bind k).bind l = p.bind (fun value => (k value).bind l) := by
  induction p with
  | done value => rfl
  | call r next ih => simp only [bind, ih]

theorem bind_done (p : Program I A) : p.bind .done = p := by
  induction p with
  | done value => rfl
  | call r next ih => simp only [bind, ih]

instance : LawfulMonad (Program I) :=
  LawfulMonad.mk' _ (fun p => bind_done p) (fun _ _ => rfl) bind_assoc

/-- Run the program, answering every request by the handler; `none` when a
request has no answer (a panic, or a process that would wait for ever). -/
def run (handler : (r : I.Request) → S → Option (I.Reply r × S)) :
    Program I A → S → Option (A × S)
  | .done value, s => some (value, s)
  | .call r next, s => (handler r s).bind fun answer => (next answer.1).run handler answer.2

variable {handler : (r : I.Request) → S → Option (I.Reply r × S)}

@[simp] theorem run_done (value : A) (s : S) : (done value : Program I A).run handler s = some (value, s) := rfl

@[simp] theorem run_pure (value : A) (s : S) :
    (pure value : Program I A).run handler s = some (value, s) := rfl

@[simp] theorem run_request (r : I.Request) (s : S) :
    (request r).run handler s = handler r s := by
  cases answer : handler r s <;> simp [request, run, answer]

@[simp] theorem run_bind (p : Program I A) (k : A → Program I B) (s : S) :
    (p >>= k).run handler s = (p.run handler s).bind fun out => (k out.1).run handler out.2 := by
  change (p.bind k).run handler s = _
  induction p generalizing s with
  | done value => rfl
  | call r next ih =>
    simp only [bind, run, Option.bind_assoc]
    congr 1
    funext answer
    exact ih answer.1 answer.2

theorem run_bind_eq_some {p : Program I A} {k : A → Program I B} {s t : S} {b : B} :
    (p >>= k).run handler s = some (b, t) ↔
      ∃ a u, p.run handler s = some (a, u) ∧ (k a).run handler u = some (b, t) := by
  simp [Option.bind_eq_some_iff]

/-- What every answered request preserves holds when the program returns. -/
theorem run_invariant {Inv : S → Prop}
    (preserved : ∀ r s reply t, Inv s → handler r s = some (reply, t) → Inv t)
    {p : Program I A} {s t : S} {a : A} (start : Inv s) (ran : p.run handler s = some (a, t)) :
    Inv t := by
  -- the continuation runs from the state that the answer left
  induction p generalizing s with
  | done value =>
    cases ran
    exact start
  | call r next ih =>
    obtain ⟨⟨reply, u⟩, answered, rest⟩ := Option.bind_eq_some_iff.mp ran
    exact ih reply (preserved r s reply u start answered) rest

/-- Every request the program issues along its run is issued in a state that meets `ok`. -/
def Along (handler : (r : I.Request) → S → Option (I.Reply r × S)) (ok : I.Request → S → Prop) :
    Program I A → S → Prop
  | .done _, _ => True
  | .call r next, s =>
      ok r s ∧ ∀ reply t, handler r s = some (reply, t) → (next reply).Along handler ok t

instance Along.decide (ok : I.Request → S → Prop) [∀ r s, Decidable (ok r s)] :
    (p : Program I A) → (s : S) → Decidable (p.Along handler ok s)
  | .done _, _ => .isTrue trivial
  | .call r next, s =>
    match found : handler r s with
    | none => decidable_of_iff (ok r s)
        ⟨fun now => ⟨now, fun _ _ answered => nomatch found.symm.trans answered⟩, And.left⟩
    | some (reply, t) =>
      have := Along.decide ok (next reply) t
      decidable_of_iff (ok r s ∧ (next reply).Along handler ok t)
        ⟨fun both => ⟨both.1, fun _ _ answered => by cases found.symm.trans answered; exact both.2⟩,
          fun along => ⟨along.1, along.2 reply t found⟩⟩

@[simp] theorem along_pure (ok : I.Request → S → Prop) (value : A) (s : S) :
    (pure value : Program I A).Along handler ok s := trivial

@[simp] theorem along_request {ok : I.Request → S → Prop} {r : I.Request} {s : S} :
    (request r).Along handler ok s ↔ ok r s :=
  ⟨And.left, fun now => ⟨now, fun _ _ _ => trivial⟩⟩

theorem along_bind {ok : I.Request → S → Prop} {p : Program I A} {k : A → Program I B} {s : S} :
    (p >>= k).Along handler ok s ↔ p.Along handler ok s ∧
      ∀ a t, p.run handler s = some (a, t) → (k a).Along handler ok t := by
  change (p.bind k).Along handler ok s ↔ _
  induction p generalizing s with
  | done value => simp [bind, Along]
  | call r next ih =>
    simp only [bind, Along, run, Option.bind_eq_some_iff, ih]
    constructor
    · rintro ⟨now, later⟩
      exact ⟨⟨now, fun reply t answered => (later reply t answered).1⟩,
        fun a t ⟨answer, answered, rest⟩ => (later _ _ answered).2 a t rest⟩
    · rintro ⟨⟨now, later⟩, final⟩
      exact ⟨now, fun reply t answered =>
        ⟨later reply t answered, fun a u rest => final a u ⟨(reply, t), answered, rest⟩⟩⟩

theorem along_bind_of {ok : I.Request → S → Prop} {p : Program I A} {a : A} {s t : S}
    (ran : p.run handler s = some (a, t))
    (k : A → Program I B) : (p >>= k).Along handler ok s ↔ p.Along handler ok s ∧ (k a).Along handler ok t := by
  rw [along_bind, ran]
  refine and_congr_right fun _ => ⟨fun next => next a t rfl, fun along b u same => ?_⟩
  cases same
  exact along

/-- A request that is answered, and what follows. -/
theorem along_then {ok : I.Request → S → Prop} {r : I.Request} {reply : I.Reply r} {s t : S}
    (answered : handler r s = some (reply, t)) (k : I.Reply r → Program I B) :
    (request r >>= k).Along handler ok s ↔ ok r s ∧ (k reply).Along handler ok t := by
  rw [along_bind_of ((run_request r s).trans answered), along_request]

/-! ## The requests of a program -/

def Issues (ok : I.Request → Prop) : Program I A → Prop
  | .done _ => True
  | .call r next => ok r ∧ ∀ reply, (next reply).Issues ok

@[simp] theorem issues_pure {ok : I.Request → Prop} {value : A} : (pure value : Program I A).Issues ok := trivial

theorem issues_request {ok : I.Request → Prop} {r : I.Request} (isOk : ok r) : (request r).Issues ok :=
  ⟨isOk, fun _ => trivial⟩

theorem Issues.mono {ok weaker : I.Request → Prop} {p : Program I A} (issues : p.Issues ok)
    (weakens : ∀ r, ok r → weaker r) : p.Issues weaker := by
  induction p with
  | done value => trivial
  | call r next ih => exact ⟨weakens r issues.1, fun reply => ih reply (issues.2 reply)⟩

theorem Issues.bind {ok : I.Request → Prop} {p : Program I A} {k : A → Program I B} (first : p.Issues ok)
    (next : ∀ value, (k value).Issues ok) : (p >>= k).Issues ok := by
  change (p.bind k).Issues ok
  induction p with
  | done value => exact next value
  | call r rest ih => exact ⟨first.1, fun reply => ih reply (first.2 reply)⟩

theorem Issues.ite {ok : I.Request → Prop} {c : Prop} [Decidable c] {p q : Program I A} (first : p.Issues ok)
    (second : q.Issues ok) : (if c then p else q).Issues ok := by
  split
  · exact first
  · exact second

theorem Issues.along {ok : I.Request → Prop} {meets : I.Request → S → Prop} {p : Program I A} (issues : p.Issues ok)
    (implies : ∀ r s, ok r → meets r s) (s : S) : p.Along handler meets s := by
  induction p generalizing s with
  | done value => trivial
  | call r next ih => exact ⟨implies r s issues.1, fun reply t _ => ih reply (issues.2 reply) t⟩

/-- What the requests of the program preserve holds when it returns. -/
theorem Issues.invariant {ok : I.Request → Prop} {p : Program I A} (issues : p.Issues ok) (Inv : S → Prop)
    (preserved : ∀ r s reply t, ok r → Inv s → handler r s = some (reply, t) → Inv t) {s t : S} {a : A}
    (start : Inv s) (ran : p.run handler s = some (a, t)) : Inv t := by
  induction p generalizing s with
  | done value =>
    cases ran
    exact start
  | call r next ih =>
    obtain ⟨⟨reply, u⟩, answered, rest⟩ := Option.bind_eq_some_iff.mp ran
    exact ih reply (issues.2 reply) (preserved r s reply u issues.1 start answered) rest

/-- In a run that returns every request was answered. -/
theorem along_of_run {ok : I.Request → S → Prop}
    (implies : ∀ r s reply t, handler r s = some (reply, t) → ok r s) {p : Program I A} {s t : S} {a : A}
    (ran : p.run handler s = some (a, t)) : p.Along handler ok s := by
  induction p generalizing s with
  | done value => trivial
  | call r next ih =>
    obtain ⟨⟨reply, u⟩, answered, rest⟩ := Option.bind_eq_some_iff.mp ran
    refine ⟨implies r s reply u answered, fun reply' u' again => ?_⟩
    cases answered.symm.trans again
    exact ih reply rest

/-! ## The values of a program -/

def Yields (post : A → Prop) : Program I A → Prop
  | .done value => post value
  | .call _ next => ∀ reply, (next reply).Yields post

theorem Yields.mono {post weaker : A → Prop} {p : Program I A} (yields : p.Yields post)
    (weakens : ∀ value, post value → weaker value) : p.Yields weaker := by
  induction p with
  | done value => exact weakens value yields
  | call r next ih => exact fun reply => ih reply (yields reply)

theorem Yields.bind {mid : A → Prop} {post : B → Prop} {p : Program I A} {k : A → Program I B} (first : p.Yields mid)
    (next : ∀ value, mid value → (k value).Yields post) : (p >>= k).Yields post := by
  change (p.bind k).Yields post
  induction p with
  | done value => exact next value first
  | call r rest ih => exact fun reply => ih reply (first reply)

/-- Nothing is known about the value of the first part. -/
theorem yields_then {post : B → Prop} {p : Program I A} {k : A → Program I B}
    (next : ∀ value, (k value).Yields post) : (p >>= k).Yields post := by
  change (p.bind k).Yields post
  induction p with
  | done value => exact next value
  | call r rest ih => exact fun reply => ih reply

theorem Yields.returned {post : A → Prop} {p : Program I A} {a : A} {s t : S} (yields : p.Yields post)
    (ran : p.run handler s = some (a, t)) : post a := by
  induction p generalizing s with
  | done value =>
    cases ran
    exact yields
  | call r next ih =>
    obtain ⟨⟨reply, u⟩, _, rest⟩ := Option.bind_eq_some_iff.mp ran
    exact ih reply (yields reply) rest

theorem yields_foldlM {E : Type} {post : A → Prop} {turn : A → E → Program I A}
    (each : ∀ a e, post a → (turn a e).Yields post) (list : List E) {a : A} (start : post a) :
    (list.foldlM turn a).Yields post := by
  induction list generalizing a with
  | nil => exact start
  | cons e rest ih =>
    rw [List.foldlM_cons]
    exact (each a e start).bind fun _ next => ih next

/-! ## Loops -/

/-- A loop over a list returns when every turn returns from the states that the invariant of
the elements done allows. -/
theorem run_foldlM_returns {E : Type} (Inv : List E → B → S → Prop) {turn : B → E → Program I B} (list : List E)
    {b : B} {s : S} (start : Inv [] b s)
    (each : ∀ finished e rest b s, list = finished ++ e :: rest → Inv finished b s →
      ∃ b' s', (turn b e).run handler s = some (b', s') ∧ Inv (finished ++ [e]) b' s') :
    ∃ b' s', (list.foldlM turn b).run handler s = some (b', s') ∧ Inv list b' s' := by
  -- on the elements left, after any that are done
  have steps : ∀ rest finished b s, list = finished ++ rest → Inv finished b s →
      ∃ b' s', (rest.foldlM turn b).run handler s = some (b', s') ∧ Inv list b' s' := by
    intro rest
    induction rest with
    | nil =>
      intro finished b s all holds
      rw [List.append_nil] at all
      exact ⟨b, s, rfl, all ▸ holds⟩
    | cons e rest ih =>
      intro finished b s all holds
      obtain ⟨b₁, s₁, turned, holds₁⟩ := each finished e rest b s all holds
      obtain ⟨b', s', ran, final⟩ := ih (finished ++ [e]) b₁ s₁ (by rw [all, List.append_assoc]; rfl) holds₁
      refine ⟨b', s', ?_, final⟩
      rw [List.foldlM_cons]
      exact run_bind_eq_some.mpr ⟨b₁, s₁, turned, ran⟩
  exact steps list [] b s rfl start

-- `for (i = 0; i < n; i++) body(i)`
def forUpTo : Nat → (Nat → Program I Unit) → Program I Unit
  | 0, _ => pure ()
  | n + 1, body => forUpTo n body >>= fun _ => body n

theorem run_forUpTo_invariant {Inv : Nat → S → Prop} {body : Nat → Program I Unit} {n : Nat} {s t : S}
    (start : Inv 0 s) (each : ∀ i u v, i < n → Inv i u → (body i).run handler u = some ((), v) → Inv (i + 1) v)
    (ran : (forUpTo n body).run handler s = some ((), t)) : Inv n t := by
  induction n generalizing t with
  | zero =>
    cases ran
    exact start
  | succ n ih =>
    obtain ⟨_, u, before, last⟩ := run_bind_eq_some.mp ran
    exact each n u t (by omega) (ih (fun i u v bound => each i u v (by omega)) before) last

/-- A loop returns when every iteration returns from the states the invariant allows. -/
theorem run_forUpTo_returns {Inv : Nat → S → Prop} {body : Nat → Program I Unit} {n : Nat} {s : S}
    (start : Inv 0 s)
    (each : ∀ i u, i < n → Inv i u → ∃ v, (body i).run handler u = some ((), v) ∧ Inv (i + 1) v) :
    ∃ t, (forUpTo n body).run handler s = some ((), t) ∧ Inv n t := by
  induction n with
  | zero => exact ⟨s, rfl, start⟩
  | succ n ih =>
    obtain ⟨u, before, holds⟩ := ih (fun i u bound => each i u (by omega))
    obtain ⟨t, last, final⟩ := each n u (by omega) holds
    exact ⟨t, run_bind_eq_some.mpr ⟨(), u, before, last⟩, final⟩

-- `for (i = 0; i < n; i++)` over a variable; a turn without a result leaves the loop.
def iterate (turn : Nat → A → Program I (Option A)) : Nat → A → Program I (Option A)
  | 0, a => pure (some a)
  | n + 1, a => do
    match ← iterate turn n a with
    | none => return none
    | some b => turn n b

section
variable {turn : Nat → A → Program I (Option A)} {n : Nat} {a b : A} {s t : S}

theorem run_iterate_succ (ran : (iterate turn (n + 1) a).run handler s = some (some b, t)) :
    ∃ c u, (iterate turn n a).run handler s = some (some c, u) ∧ (turn n c).run handler u = some (some b, t) := by
  obtain ⟨c, u, before, last⟩ := run_bind_eq_some.mp ran
  cases c with
  | none => simp at last
  | some c => exact ⟨c, u, before, last⟩

theorem issues_iterate {ok : I.Request → Prop} (each : ∀ i b, (turn i b).Issues ok) (n : Nat) (a : A) :
    (iterate turn n a).Issues ok := by
  induction n with
  | zero => trivial
  | succ n ih =>
    refine ih.bind fun out => ?_
    cases out with
    | none => trivial
    | some b => exact each n b

/-- What the turns preserve holds after the loop. -/
theorem run_iterate_invariant (Inv : Nat → A → S → Prop) (start : Inv 0 a s)
    (each : ∀ i b u c v, i < n → Inv i b u → (turn i b).run handler u = some (some c, v) → Inv (i + 1) c v)
    (ran : (iterate turn n a).run handler s = some (some b, t)) : Inv n b t := by
  induction n generalizing b t with
  | zero =>
    cases ran
    exact start
  | succ n ih =>
    obtain ⟨c, u, before, last⟩ := run_iterate_succ ran
    exact each n c u b t (Nat.lt_succ_self n) (ih (fun i b u c v less => each i b u c v (by omega)) before) last

/-- A loop that is not left returns when every turn does. -/
theorem run_iterate_returns {Inv : Nat → A → S → Prop} (start : Inv 0 a s)
    (each : ∀ i b u, i < n → Inv i b u → ∃ c v, (turn i b).run handler u = some (some c, v) ∧ Inv (i + 1) c v) :
    ∃ b t, (iterate turn n a).run handler s = some (some b, t) ∧ Inv n b t := by
  induction n with
  | zero => exact ⟨a, s, rfl, start⟩
  | succ n ih =>
    obtain ⟨c, u, before, holds⟩ := ih fun i b u less => each i b u (by omega)
    obtain ⟨b, t, last, final⟩ := each n c u (Nat.lt_succ_self n) holds
    exact ⟨b, t, run_bind_eq_some.mpr ⟨some c, u, before, last⟩, final⟩

/-- The requests of a loop are those of the turns that it gets to. -/
theorem along_iterate {ok : I.Request → S → Prop} : (iterate turn n a).Along handler ok s ↔
    ∀ i b t, i < n → (iterate turn i a).run handler s = some (some b, t) → (turn i b).Along handler ok t := by
  induction n with
  | zero => exact iff_of_true trivial fun i b t less => absurd less (Nat.not_lt_zero i)
  | succ n ih =>
    rw [iterate, along_bind, ih]
    constructor
    · rintro ⟨before, last⟩ i b t less ran
      by_cases early : i < n
      · exact before i b t early ran
      · obtain rfl : i = n := by omega
        exact last (some b) t ran
    · intro all
      refine ⟨fun i b t less => all i b t (by omega), fun c t ran => ?_⟩
      cases c with
      | none => trivial
      | some b => exact all n b t (Nat.lt_succ_self n) ran

end

end

end Program

end Xv6.Library
