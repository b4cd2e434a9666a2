import Mathlib.Data.Option.Basic

/-! Deterministic labelled transitions and their finite runs.

A system is a partial step function on labelled actions. The rules here carry
what one step preserves to every state of a run, possibly under a condition on
the states from which the actions are taken.
-/

set_option autoImplicit false

namespace Xv6.Library

section
variable {S A : Type}

/-- Follow a list of actions; `none` as soon as one of them is not enabled. -/
def run (step : A → S → Option S) : List A → S → Option S
  | [], s => some s
  | a :: rest, s => (step a s).bind (run step rest)

@[simp] theorem run_nil (step : A → S → Option S) (s : S) : run step [] s = some s := rfl

theorem run_cons (step : A → S → Option S) (a : A) (rest : List A) (s : S) :
    run step (a :: rest) s = (step a s).bind (run step rest) := rfl

theorem run_cons_eq_some {step : A → S → Option S} {a : A} {rest : List A} {s t : S} :
    run step (a :: rest) s = some t ↔ ∃ u, step a s = some u ∧ run step rest u = some t := by
  simp [run_cons, Option.bind_eq_some_iff]

@[simp] theorem run_singleton (step : A → S → Option S) (a : A) (s : S) :
    run step [a] s = step a s := by
  cases enabled : step a s <;> simp [run_cons, enabled]

theorem run_append (step : A → S → Option S) (first second : List A) (s : S) :
    run step (first ++ second) s = (run step first s).bind (run step second) := by
  induction first generalizing s with
  | nil => rfl
  | cons a rest ih =>
    simp only [List.cons_append, run_cons, Option.bind_assoc]
    congr 1
    funext u
    exact ih u

theorem run_append_eq_some {step : A → S → Option S} {first second : List A} {s t : S} :
    run step (first ++ second) s = some t ↔
      ∃ u, run step first s = some u ∧ run step second u = some t := by
  simp [run_append, Option.bind_eq_some_iff]

/-- Every action of the list is taken from a state that meets `ok`. -/
def Meets (step : A → S → Option S) (ok : A → S → Prop) : List A → S → Prop
  | [], _ => True
  | a :: rest, s => ok a s ∧ ∀ t, step a s = some t → Meets step ok rest t

instance Meets.decide (step : A → S → Option S) (ok : A → S → Prop) [∀ a s, Decidable (ok a s)] :
    (acts : List A) → (s : S) → Decidable (Meets step ok acts s)
  | [], _ => .isTrue trivial
  | a :: rest, s =>
    match found : step a s with
    | none => decidable_of_iff (ok a s)
        ⟨fun now => ⟨now, fun _ stepped => nomatch found.symm.trans stepped⟩, And.left⟩
    | some t =>
      have := Meets.decide step ok rest t
      decidable_of_iff (ok a s ∧ Meets step ok rest t)
        ⟨fun both => ⟨both.1, fun _ stepped => Option.some.inj (found.symm.trans stepped) ▸ both.2⟩,
          fun meets => ⟨meets.1, meets.2 t found⟩⟩

/-- What every guarded step preserves holds at the end of every guarded run. -/
theorem run_invariant_of_meets {step : A → S → Option S} {ok : A → S → Prop} {Inv : S → Prop}
    (preserved : ∀ a s t, Inv s → ok a s → step a s = some t → Inv t)
    {acts : List A} {s t : S} (start : Inv s) (meets : Meets step ok acts s)
    (ran : run step acts s = some t) : Inv t := by
  -- on the actions, for every state they may start from
  induction acts generalizing s with
  | nil => exact Option.some.inj ran ▸ start
  | cons a rest ih =>
    obtain ⟨u, stepped, tail⟩ := run_cons_eq_some.mp ran
    exact ih (preserved a s u start meets.1 stepped) (meets.2 u stepped) tail

theorem run_invariant {step : A → S → Option S} {Inv : S → Prop}
    (preserved : ∀ a s t, Inv s → step a s = some t → Inv t)
    {acts : List A} {s t : S} (start : Inv s) (ran : run step acts s = some t) : Inv t := by
  induction acts generalizing s with
  | nil => exact Option.some.inj ran ▸ start
  | cons a rest ih =>
    obtain ⟨u, stepped, tail⟩ := run_cons_eq_some.mp ran
    exact ih (preserved a s u start stepped) tail

/-- A guard that every action of the list meets in every state is met along the run. -/
theorem Meets.of_forall {step : A → S → Option S} {ok : A → S → Prop} {acts : List A}
    (always : ∀ a ∈ acts, ∀ s, ok a s) (s : S) : Meets step ok acts s := by
  induction acts generalizing s with
  | nil => trivial
  | cons a rest ih =>
    exact ⟨always a (by simp) s, fun t _ => ih (fun b member => always b (by simp [member])) t⟩

/-- Every guarded step from an invariant is as good as the invariant makes it. -/
theorem Meets.of_invariant {step : A → S → Option S} {ok good : A → S → Prop} {Inv : S → Prop}
    (preserved : ∀ a s t, Inv s → ok a s → step a s = some t → Inv t) (each : ∀ a s, Inv s → ok a s → good a s)
    {acts : List A} {s : S} (start : Inv s) (meets : Meets step ok acts s) : Meets step good acts s := by
  induction acts generalizing s with
  | nil => trivial
  | cons a rest ih =>
    refine ⟨each a s start meets.1, fun t stepped => ?_⟩
    exact ih (preserved a s t start meets.1 stepped) (meets.2 t stepped)

/-- Guards that agree on every step from an invariant agree on whole runs. -/
theorem Meets.congr_of_run {step : A → S → Option S} {ok good : A → S → Prop} {Inv : S → Prop}
    (preserved : ∀ a s t, Inv s → step a s = some t → Inv t)
    (each : ∀ a s t, Inv s → step a s = some t → (ok a s ↔ good a s)) {acts : List A} {s t : S} (start : Inv s)
    (ran : run step acts s = some t) : Meets step ok acts s ↔ Meets step good acts s := by
  induction acts generalizing s with
  | nil => exact Iff.rfl
  | cons a rest ih =>
    obtain ⟨u, stepped, tail⟩ := run_cons_eq_some.mp ran
    have later := ih (preserved a s u start stepped) tail
    have only : ∀ v, step a s = some v → v = u := fun v found => Option.some.inj (found.symm.trans stepped)
    constructor
    · intro ⟨now, next⟩
      refine ⟨(each a s u start stepped).mp now, fun v found => ?_⟩
      rw [only v found]
      exact later.mp (next u stepped)
    · intro ⟨now, next⟩
      refine ⟨(each a s u start stepped).mpr now, fun v found => ?_⟩
      rw [only v found]
      exact later.mpr (next u stepped)

theorem Meets.and {step : A → S → Option S} {ok good : A → S → Prop} {acts : List A} {s : S}
    (first : Meets step ok acts s) (second : Meets step good acts s) :
    Meets step (fun a s => ok a s ∧ good a s) acts s := by
  induction acts generalizing s with
  | nil => trivial
  | cons a rest ih =>
    exact ⟨⟨first.1, second.1⟩, fun t stepped => ih (first.2 t stepped) (second.2 t stepped)⟩

theorem Meets.earlier {step : A → S → Option S} {ok : A → S → Prop} {first second : List A} {s : S}
    (meets : Meets step ok (first ++ second) s) : Meets step ok first s := by
  induction first generalizing s with
  | nil => trivial
  | cons a rest ih => exact ⟨meets.1, fun u stepped => ih (meets.2 u stepped)⟩

theorem Meets.later {step : A → S → Option S} {ok : A → S → Prop} {first second : List A} {s t : S}
    (meets : Meets step ok (first ++ second) s) (ran : run step first s = some t) : Meets step ok second t := by
  induction first generalizing s with
  | nil =>
    cases ran
    exact meets
  | cons a rest ih =>
    obtain ⟨u, stepped, tail⟩ := run_cons_eq_some.mp ran
    exact ih (meets.2 u stepped) tail

/-- Where a guarded step leads to a good state just if it meets `fine`, a guarded run meets `fine`
just if all its states are good. -/
theorem Meets.iff_throughout {step : A → S → Option S} {ok fine : A → S → Prop} {Inv good : S → Prop}
    (preserved : ∀ a s t, Inv s → ok a s → step a s = some t → Inv t)
    (each : ∀ a s t, Inv s → ok a s → good s → step a s = some t → (fine a s ↔ good t))
    {acts : List A} {s t : S} (start : Inv s) (begins : good s) (meets : Meets step ok acts s)
    (ran : run step acts s = some t) :
    Meets step fine acts s ↔ ∀ first, first <+: acts → ∀ u, run step first s = some u → good u := by
  induction acts generalizing s with
  | nil =>
    refine iff_of_true trivial fun first early u reached => ?_
    rw [List.prefix_nil.mp early] at reached
    exact Option.some.inj reached ▸ begins
  | cons a rest ih =>
    obtain ⟨v, stepped, tail⟩ := run_cons_eq_some.mp ran
    have later := preserved a s v start meets.1 stepped
    have step := each a s v start meets.1 begins stepped
    constructor
    · intro ⟨now, next⟩ first early u reached
      cases first with
      | nil => exact Option.some.inj reached ▸ begins
      | cons b first =>
        obtain ⟨rfl, within⟩ := List.cons_prefix_cons.mp early
        obtain ⟨w, stepped', reached⟩ := run_cons_eq_some.mp reached
        cases stepped.symm.trans stepped'
        exact (ih later (step.mp now) (meets.2 v stepped) tail).mp (next v stepped) first within u reached
    · intro always
      have good : good v := always [a] (List.cons_prefix_cons.mpr ⟨rfl, List.nil_prefix⟩) v (by simpa using stepped)
      refine ⟨step.mpr good, fun w stepped' => ?_⟩
      cases stepped.symm.trans stepped'
      refine (ih later good (meets.2 v stepped) tail).mpr fun first early u reached => ?_
      refine always (a :: first) (List.cons_prefix_cons.mpr ⟨rfl, early⟩) u ?_
      exact run_cons_eq_some.mpr ⟨v, stepped, reached⟩

/-! ## Quantities added up along a run -/

/-- The sum of a quantity over the steps of a run, as far as it is enabled. -/
def total (step : A → S → Option S) (amount : A → S → Nat) : List A → S → Nat
  | [], _ => 0
  | a :: rest, s => amount a s + (step a s).elim 0 (total step amount rest)

/-- What every step gains over what it loses is the change of a measure, and so it is for a run. -/
theorem total_balance {step : A → S → Option S} {ok : A → S → Prop} {Inv : S → Prop}
    {gain loss : A → S → Nat} {measure : S → Nat}
    (preserved : ∀ a s t, Inv s → ok a s → step a s = some t → Inv t)
    (balance : ∀ a s t, Inv s → ok a s → step a s = some t → loss a s + measure t = measure s + gain a s)
    {acts : List A} {s t : S} (start : Inv s) (meets : Meets step ok acts s) (ran : run step acts s = some t) :
    total step loss acts s + measure t = measure s + total step gain acts s := by
  induction acts generalizing s with
  | nil =>
    cases ran
    simp [total]
  | cons a rest ih =>
    obtain ⟨u, stepped, tail⟩ := run_cons_eq_some.mp ran
    have first := balance a s u start meets.1 stepped
    have later := ih (preserved a s u start meets.1 stepped) (meets.2 u stepped) tail
    simp only [total, stepped, Option.elim_some]
    omega

end

end Xv6.Library
