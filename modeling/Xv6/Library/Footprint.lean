import Mathlib.Data.Finset.Card
import Xv6.Library.Program

/-! What the requests of a run mark, and how much a program adds to what is marked already.

A budget counts new elements: whatever is in the set when a part starts may be marked again for
nothing, so the budgets of parts that mark the same elements do not add up.
-/

set_option autoImplicit false

namespace Xv6.Library.Program

variable {I : Interface} {A B S E : Type} [DecidableEq E]

def marks (handler : (r : I.Request) → S → Option (I.Reply r × S)) (mark : I.Request → S → Finset E) :
    Program I A → S → Finset E
  | .done _, _ => ∅
  | .call r next, s =>
    mark r s ∪ (handler r s).elim ∅ fun answer => (next answer.1).marks handler mark answer.2

variable {handler : (r : I.Request) → S → Option (I.Reply r × S)} {mark : I.Request → S → Finset E}

@[simp] theorem marks_pure (value : A) (s : S) : (pure value : Program I A).marks handler mark s = ∅ := rfl

@[simp] theorem marks_request (r : I.Request) (s : S) : (request r).marks handler mark s = mark r s := by
  cases answer : handler r s <;> simp [request, marks, answer]

variable (handler mark) in
theorem marks_bind (p : Program I A) (k : A → Program I B) (s : S) : (p >>= k).marks handler mark s =
    p.marks handler mark s ∪ (p.run handler s).elim ∅ fun out => (k out.1).marks handler mark out.2 := by
  change (p.bind k).marks handler mark s = _
  induction p generalizing s with
  | done value => simp [bind, marks]
  | call r next ih =>
    cases answer : handler r s with
    | none => simp [bind, marks, run, answer]
    | some answer' => simp [bind, marks, run, answer, ih, Finset.union_assoc]

variable (handler mark) in
/-- A run of the program from the state marks elements of `M` and at most `n` others. When it
returns, `post` holds of a set with all of them. -/
def Spends (M : Finset E) (n : Nat) (p : Program I A) (s : S) (post : A → S → Finset E → Prop) : Prop :=
  ∃ M', M ⊆ M' ∧ p.marks handler mark s ⊆ M' ∧ M'.card ≤ M.card + n ∧
    ∀ a t, p.run handler s = some (a, t) → post a t M'

section
variable {M : Finset E} {n m : Nat} {p : Program I A} {k : A → Program I B} {s : S} {post : A → S → Finset E → Prop}

theorem Spends.card_le (spends : Spends handler mark M n p s post) : (p.marks handler mark s).card ≤ M.card + n := by
  obtain ⟨M', _, marked, size, _⟩ := spends
  exact (Finset.card_le_card marked).trans size

theorem spends_pure {value : A} (holds : post value s M) : Spends handler mark M n (pure value) s post := by
  refine ⟨M, Finset.Subset.refl M, Finset.empty_subset M, Nat.le_add_right .., fun a t ran => ?_⟩
  cases ran
  exact holds

/-- What is known of the run may be used for the weaker condition, and of the set that it has grown. -/
theorem Spends.mono {weaker : A → S → Finset E → Prop} (spends : Spends handler mark M n p s post) (le : n ≤ m)
    (weakens : ∀ a t M', M ⊆ M' → p.run handler s = some (a, t) → post a t M' → weaker a t M') :
    Spends handler mark M m p s weaker := by
  obtain ⟨M', grows, marked, size, holds⟩ := spends
  exact ⟨M', grows, marked, size.trans (Nat.add_le_add_left le _),
    fun a t ran => weakens a t M' grows ran (holds a t ran)⟩

/-- Elements that are known beforehand are paid for at once. -/
theorem Spends.extend {N : Finset E} (spends : Spends handler mark (M ∪ N) n p s post) :
    Spends handler mark M (N.card + n) p s post := by
  obtain ⟨M', grows, marked, size, holds⟩ := spends
  refine ⟨M', Finset.subset_union_left.trans grows, marked, ?_, holds⟩
  have both := Finset.card_union_le M N
  omega

theorem spends_of_subset (marked : p.marks handler mark s ⊆ M)
    (holds : ∀ a t, p.run handler s = some (a, t) → post a t M) :
    Spends handler mark M n p s post :=
  ⟨M, Finset.Subset.refl M, marked, Nat.le_add_right .., holds⟩

theorem spends_request {r : I.Request} {post : I.Reply r → S → Finset E → Prop} (marked : mark r s ⊆ M)
    (holds : ∀ reply t, handler r s = some (reply, t) → post reply t M) :
    Spends handler mark M n (request r) s post := by
  refine spends_of_subset ((marks_request r s).trans_subset marked) fun reply t ran => ?_
  exact holds reply t ((run_request r s).symm.trans ran)

/-- A request that was answered, and what follows. -/
theorem spends_then {r : I.Request} {reply : I.Reply r} {k : I.Reply r → Program I A} {t : S} (marked : mark r s ⊆ M)
    (answered : handler r s = some (reply, t)) (next : Spends handler mark M n (k reply) t post) :
    Spends handler mark M n (request r >>= k) s post := by
  obtain ⟨M', grows, rest, size, holds⟩ := next
  have ran : (request r).run handler s = some (reply, t) := (run_request r s).trans answered
  refine ⟨M', grows, ?_, size, fun a u whole => ?_⟩
  · rw [marks_bind, marks_request, ran, Option.elim_some]
    exact Finset.union_subset (marked.trans grows) rest
  · obtain ⟨reply', t', again, later⟩ := run_bind_eq_some.mp whole
    cases ran.symm.trans again
    exact holds a u later

theorem spends_stuck {r : I.Request} {k : I.Reply r → Program I A} (marked : mark r s ⊆ M)
    (stuck : handler r s = none) :
    Spends handler mark M n (.call r k) s post := by
  refine spends_of_subset ?_ fun a t ran => ?_
  · rw [marks, stuck, Option.elim_none, Finset.union_empty]
    exact marked
  · rw [run, stuck] at ran
    cases ran

/-- The second part starts from the set that the first one leaves. -/
theorem Spends.bind {mid : A → S → Finset E → Prop} {post : B → S → Finset E → Prop}
    (first : Spends handler mark M n p s mid)
    (next : ∀ a t M', M ⊆ M' → p.run handler s = some (a, t) → mid a t M' → Spends handler mark M' m (k a) t post) :
    Spends handler mark M (n + m) (p >>= k) s post := by
  obtain ⟨M₁, grows, marked, size, holds⟩ := first
  have whole := marks_bind handler mark p k s
  cases ran : p.run handler s with
  | none =>
    rw [ran, Option.elim_none, Finset.union_empty] at whole
    refine ⟨M₁, grows, whole.trans_subset marked, by omega, fun b t rest => ?_⟩
    obtain ⟨a, u, stuck, _⟩ := run_bind_eq_some.mp rest
    cases ran.symm.trans stuck
  | some out =>
    obtain ⟨a, u⟩ := out
    obtain ⟨M₂, more, marked₂, size₂, holds₂⟩ := next a u M₁ grows ran (holds a u ran)
    rw [ran, Option.elim_some] at whole
    refine ⟨M₂, grows.trans more, ?_, by omega, fun b t rest => ?_⟩
    · exact whole.trans_subset (Finset.union_subset (marked.trans more) marked₂)
    · obtain ⟨a', u', again, rest⟩ := run_bind_eq_some.mp rest
      cases ran.symm.trans again
      exact holds₂ b t rest

/-- A part that marks nothing new, before another. -/
theorem Spends.seq {mid : A → S → Finset E → Prop} {post : B → S → Finset E → Prop}
    (first : Spends handler mark M 0 p s mid)
    (next : ∀ a t M', M ⊆ M' → p.run handler s = some (a, t) → mid a t M' → Spends handler mark M' n (k a) t post) :
    Spends handler mark M n (p >>= k) s post := by
  have whole := first.bind next
  rwa [Nat.zero_add] at whole

/-- A loop over a list whose turns mark nothing new. -/
theorem spends_foldlM {F : Type} (Inv : B → S → Prop) {turn : B → F → Program I B} (list : List F) {b : B}
    (start : Inv b s) (each : ∀ e b s, Inv b s → Spends handler mark M 0 (turn b e) s fun b' t _ => Inv b' t) :
    Spends handler mark M 0 (list.foldlM turn b) s fun b' t _ => Inv b' t := by
  induction list generalizing b s with
  | nil => exact spends_pure start
  | cons e rest ih =>
    rw [List.foldlM_cons]
    refine (each e b s start).seq fun b' t M' grows _ holds => ?_
    obtain ⟨M₁, grows₁, marked, size, post⟩ := ih holds
    -- the set of the turn is the one before it, or a set with as many elements
    refine ⟨M₁ ∪ M', Finset.subset_union_right, marked.trans Finset.subset_union_left, ?_, post⟩
    have same : M₁ = M := (Finset.eq_of_subset_of_card_le grows₁ size).symm
    rw [same, Finset.union_eq_right.mpr grows]
    exact Nat.le_add_right ..

end

end Xv6.Library.Program
