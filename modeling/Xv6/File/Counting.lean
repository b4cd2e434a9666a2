import Xv6.File.System
import Xv6.Library.Counting
import Xv6.Process.Changes

/-! References to files and the descriptors that account for them.

While a process is in a call it may hold a reference without a descriptor, or have set a
descriptor before the reference was counted. Its `Place` says which. The reference count of
a file is the sum, over all processes, of their descriptors and of these differences.
-/

set_option autoImplicit false

namespace Xv6.Descriptors

open Library Syscall Process Calls.State

variable {C : Type} {n : Nat}

inductive Place (n : Nat) where
  | user
  /-- has nothing pending -/
  | working
  /-- has looked its descriptor up -/
  | holds (fd : Fin nofile) (f : Fin nfile)
  /-- has a reference without a descriptor -/
  | credit (f : Fin nfile)
  /-- in `dup`, with a new descriptor that is not counted yet -/
  | owes (fd copy : Fin nofile) (f : Fin nfile)
  /-- in `fork`; the descriptors of the child from an index on are not set -/
  | forking (child : Fin n) (i : Nat)
  /-- in `fork`, with the descriptor to be copied looked up -/
  | offering (child : Fin n) (fd : Fin nofile) (f : Fin nfile)
  /-- in `fork`, with a descriptor of the child that is not counted yet -/
  | copying (child : Fin n) (fd : Fin nofile) (f : Fin nfile)
  /-- in `exit`; the descriptors below an index are cleared -/
  | exiting (i : Nat)
  | closing (fd : Fin nofile) (f : Fin nfile)
  /-- in `exit`, with a descriptor that is no longer counted -/
  | closed (fd : Fin nofile) (f : Fin nfile)

def Place.InCall : Place n → Prop
  | .user => False
  | _ => True

theorem Place.eq_user {l : Place n} (idle : ¬ l.InCall) : l = .user := by
  cases l with
  | user => rfl
  | _ => exact absurd trivial idle

/-! ## Counting -/

def weight (g : Fin nfile) (f : Option (Fin nfile)) : Int := if f = some g then 1 else 0

def tally (slots : Fin nofile → Option (Fin nfile)) (g : Fin nfile) : Int := ∑ fd, weight g (slots fd)

def Place.balance (g : Fin nfile) : Place n → Int
  | .credit f => weight g (some f)
  | .owes _ _ f | .copying _ _ f | .closed _ f => -weight g (some f)
  | .user | .working | .holds .. | .forking .. | .offering .. | .exiting _ | .closing .. => 0

def share (s : Calls.State C n) (place : Fin n → Place n) (g : Fin nfile) (p : Fin n) : Int :=
  tally (s.ofile p) g + (place p).balance g

theorem tally_update (slots : Fin nofile → Option (Fin nfile)) (fd : Fin nofile) (f : Option (Fin nfile))
    (g : Fin nfile) :
    tally (Function.update slots fd f) g + weight g (slots fd) = tally slots g + weight g f :=
  sum_weight_update (weight g) slots fd f

theorem weight_nonneg (g : Fin nfile) (f : Option (Fin nfile)) : 0 ≤ weight g f := by
  unfold weight
  split <;> decide

theorem tally_nonneg (slots : Fin nofile → Option (Fin nfile)) (g : Fin nfile) : 0 ≤ tally slots g :=
  Finset.sum_nonneg fun _ _ => weight_nonneg g _

theorem weight_self (g : Fin nfile) : weight g (some g) = 1 := if_pos rfl

theorem weight_none (g : Fin nfile) : weight g none = 0 := if_neg (by simp)

theorem weight_some (f g : Fin nfile) : weight g (some f) = if g = f then 1 else 0 := by
  simp [weight, eq_comm]

theorem tally_pos {slots : Fin nofile → Option (Fin nfile)} {fd : Fin nofile} {g : Fin nfile}
    (here : slots fd = some g) :
    1 ≤ tally slots g := by
  have summand := Finset.single_le_sum (f := fun fd => weight g (slots fd)) (fun _ _ => weight_nonneg g _)
    (Finset.mem_univ fd)
  simpa [here, weight_self, tally] using summand

theorem tally_two {slots : Fin nofile → Option (Fin nfile)} {fd copy : Fin nofile} {g : Fin nfile} (other : fd ≠ copy)
    (here : slots fd = some g) (there : slots copy = some g) : 2 ≤ tally slots g := by
  have less := tally_update slots copy none g
  have kept : Function.update slots copy none fd = some g := by rw [Function.update_of_ne other, here]
  have one := tally_pos kept
  rw [there, weight_self, weight_none] at less
  omega

theorem setFile_ref {s : Calls.State C n} {f : Fin nfile} {x : File} (same : x.ref = (s.ftable f).ref)
    (g : Fin nfile) :
    ((s.setFile f x).ftable g).ref = (s.ftable g).ref := by
  by_cases here : g = f
  · subst here
    simpa [setFile] using same
  · simp [setFile, here]

theorem setOfile_self (s : Calls.State C n) (p : Fin n) (fd : Fin nofile) (f : Option (Fin nfile))
    (fd' : Fin nofile) :
    (s.setOfile p fd f).ofile p fd' = if fd' = fd then f else s.ofile p fd' := by
  simp [setOfile, Function.update_apply]

/-! ## The invariant -/

def alive (s : Calls.State C n) (p : Fin n) : Prop := (s.kernel.table.proc p).Live

/-- What is so while process `p` is at a place. -/
def Fits (s : Calls.State C n) (p : Fin n) : Place n → Prop
  | .user => True
  | .working => alive s p
  | .holds fd f => alive s p ∧ s.ofile p fd = some f
  | .credit _ => alive s p
  | .owes fd copy f => alive s p ∧ s.ofile p fd = some f ∧ s.ofile p copy = some f ∧ fd ≠ copy
  | .forking child i => (s.kernel.thread (some p)).child = some child ∧ ∀ fd : Fin nofile, i ≤ fd.val →
      s.ofile child fd = none
  | .offering child fd f => (s.kernel.thread (some p)).child = some child ∧ s.ofile p fd = some f ∧
      ∀ fd' : Fin nofile, fd.val ≤ fd'.val → s.ofile child fd' = none
  | .copying child fd f => (s.kernel.thread (some p)).child = some child ∧ s.ofile p fd = some f ∧
      s.ofile child fd = some f ∧ ∀ fd' : Fin nofile, fd.val < fd'.val → s.ofile child fd' = none
  | .exiting i => alive s p ∧ s.call p = some .exit ∧ ∀ fd : Fin nofile, fd.val < i → s.ofile p fd = none
  | .closing fd f | .closed fd f => alive s p ∧ s.call p = some .exit ∧ s.ofile p fd = some f ∧
      ∀ fd' : Fin nofile, fd'.val < fd.val → s.ofile p fd' = none

def Changing : Call → Prop
  | .openat .. | .dup _ | .close _ | .fork | .exit => True
  | _ => False

structure Counted (s : Calls.State C n) (place : Fin n → Place n) : Prop where
  kernel : Consistent s.kernel
  refs : ∀ g, (s.ftable g).ref = ∑ p, share s place g p
  fits : ∀ p, Fits s p (place p)
  calls : ∀ p, (place p).InCall → ∃ c, s.call p = some c ∧ Changing c
  /-- A slot without a process has no descriptors. -/
  vacant : ∀ p, (s.kernel.table.proc p).state = .unused ∨ (s.kernel.table.proc p).state = .zombie →
    ∀ fd, s.ofile p fd = none

section
variable {s s' : Calls.State C n} {place : Fin n → Place n} {p q : Fin n} {l : Place n}

theorem Fits.alive (fits : Fits s p l) (placed : Placed s.kernel) (inCall : l.InCall) : alive s p := by
  have inFork : ∀ child, (s.kernel.thread (some p)).child = some child → Descriptors.alive s p := by
    intro child isChild
    have busy : s.kernel.thread (some p) ≠ .free := by
      intro free
      rw [free] at isChild
      cases isChild
    rcases placed.busy p busy with running | ⟨runnable, _⟩
    · exact .inl running
    · exact .inr (.inl runnable)
  cases l with
  | user => exact inCall.elim
  | holds | owes | exiting | closing | closed => exact fits.1
  | working | credit => exact fits
  | forking child | offering child | copying child => exact inFork child fits.1

theorem Fits.congr (fits : Fits s q l) (live : l.InCall → Descriptors.alive s' q)
    (thread : l.InCall → s'.kernel.thread (some q) = s.kernel.thread (some q)) (call : s'.call q = s.call q)
    (own : l.InCall → s'.ofile q = s.ofile q)
    (child : ∀ child, (s.kernel.thread (some q)).child = some child → s'.ofile child = s.ofile child) :
    Fits s' q l := by
  by_cases inCall : l.InCall
  case neg =>
    rw [Place.eq_user inCall]
    trivial
  replace live := live inCall
  replace thread := thread inCall
  replace own := own inCall
  cases l with
  | user => trivial
  | holds fd f => exact ⟨live, own ▸ fits.2⟩
  | working | credit => exact live
  | owes fd copy f =>
    obtain ⟨_, here, there, other⟩ := fits
    exact ⟨live, own ▸ here, own ▸ there, other⟩
  | forking c i =>
    obtain ⟨isChild, clear⟩ := fits
    exact ⟨thread ▸ isChild, (child c isChild) ▸ clear⟩
  | offering c fd f =>
    obtain ⟨isChild, here, clear⟩ := fits
    exact ⟨thread ▸ isChild, own ▸ here, (child c isChild) ▸ clear⟩
  | copying c fd f =>
    obtain ⟨isChild, here, there, clear⟩ := fits
    exact ⟨thread ▸ isChild, own ▸ here, (child c isChild) ▸ there, (child c isChild) ▸ clear⟩
  | exiting i =>
    obtain ⟨_, inExit, clear⟩ := fits
    exact ⟨live, call ▸ inExit, own ▸ clear⟩
  | closing fd f | closed fd f =>
    obtain ⟨_, inExit, here, clear⟩ := fits
    exact ⟨live, call ▸ inExit, own ▸ here, own ▸ clear⟩

end

/-! ## Steps -/

namespace Counted

variable {s s' : Calls.State C n} {place place' : Fin n → Place n} {p : Fin n} {l : Place n}

theorem notChild (counted : Counted s place) (live : alive s p) {owner : Option (Fin n)} {child : Fin n}
    (isChild : (s.kernel.thread owner).child = some child) : child ≠ p := by
  rintro rfl
  have embryo := counted.kernel.placed.pending owner child isChild
  unfold alive Proc.Live at live
  simp [embryo] at live

theorem moved (counted : Counted s place) (within : l.InCall → (place p).InCall) (q : Fin n)
    (inCall : (Function.update place p l q).InCall) : ∃ c, s.call q = some c ∧ Changing c := by
  by_cases same : q = p
  · subst same
    rw [Function.update_self] at inCall
    exact counted.calls q (within inCall)
  · rw [Function.update_of_ne same] at inCall
    exact counted.calls q inCall

/-- A step of a process in a call that changes its own descriptors and the references. -/
theorem own (counted : Counted s place) (live : alive s p) (kernel : s'.kernel = s.kernel) (call : s'.call = s.call)
    (others : ∀ q, q ≠ p → s'.ofile q = s.ofile q)
    (balance : ∀ g, (s'.ftable g).ref + (tally (s.ofile p) g + (place p).balance g) =
      (s.ftable g).ref + (tally (s'.ofile p) g + l.balance g))
    (fits : Fits s' p l) (within : l.InCall → (place p).InCall) : Counted s' (Function.update place p l) where
  kernel := kernel ▸ counted.kernel
  calls := call ▸ counted.moved within
  refs g := by
    have total := sum_change (f := share s place g) (g := share s' (Function.update place p l) g) p (by
      intro q other
      rw [share, share, others q other, Function.update_of_ne other])
    have before := counted.refs g
    have change := balance g
    rw [share, share, Function.update_self] at total
    omega
  fits q := by
    by_cases same : q = p
    · subst same
      rw [Function.update_self]
      exact fits
    · rw [Function.update_of_ne same]
      refine (counted.fits q).congr ?_ (fun _ => by rw [kernel]) (by rw [call]) (fun _ => others q same) ?_
      · intro inCall
        have lives := (counted.fits q).alive counted.kernel.placed inCall
        rwa [alive, kernel]
      · exact fun child isChild => others child (counted.notChild live isChild)
  vacant q empty := by
    rw [kernel] at empty
    have other : q ≠ p := by
      rintro rfl
      unfold alive Proc.Live at live
      rcases empty with unused | zombie
      · simp [unused] at live
      · simp [zombie] at live
    rw [others q other]
    exact counted.vacant q empty

theorem neutral (counted : Counted s place) (kernel : s'.kernel = s.kernel) (call : s'.call = s.call)
    (ofile : s'.ofile = s.ofile) (refs : ∀ g, (s'.ftable g).ref = (s.ftable g).ref) : Counted s' place where
  kernel := kernel ▸ counted.kernel
  calls := call ▸ counted.calls
  refs g := by
    rw [refs g, counted.refs g]
    unfold share
    rw [ofile]
  fits q := by
    refine (counted.fits q).congr ?_ (fun _ => by rw [kernel]) (by rw [call]) (fun _ => by rw [ofile])
      (fun child _ => by rw [ofile])
    intro inCall
    have lives := (counted.fits q).alive counted.kernel.placed inCall
    rwa [alive, kernel]
  vacant q := by
    rw [kernel, ofile]
    exact counted.vacant q

theorem child {child : Fin n} (counted : Counted s place) (live : alive s p)
    (isChild : (s.kernel.thread (some p)).child = some child) (kernel : s'.kernel = s.kernel)
    (call : s'.call = s.call) (ftable : s'.ftable = s.ftable) (others : ∀ q, q ≠ child → s'.ofile q = s.ofile q)
    (balance : ∀ g, tally (s'.ofile child) g + l.balance g = tally (s.ofile child) g + (place p).balance g)
    (fits : Fits s' p l) (within : l.InCall → (place p).InCall) : Counted s' (Function.update place p l) := by
  have other := counted.notChild live isChild
  have embryo := counted.kernel.placed.pending (some p) child isChild
  refine ⟨kernel ▸ counted.kernel, ?_, ?_, call ▸ counted.moved within, ?_⟩
  · intro g
    -- the share of the process changes first, then that of the child
    have first := sum_change (f := share s place g) (g := share s (Function.update place p l) g) p (by
      intro q other
      rw [share, share, Function.update_of_ne other])
    have second := sum_change (f := share s (Function.update place p l) g)
      (g := share s' (Function.update place p l) g) child (by
        intro q other
        rw [share, share, others q other])
    have before := counted.refs g
    have change := balance g
    rw [share, share, Function.update_self] at first
    rw [share, share, Function.update_of_ne other] at second
    rw [ftable]
    omega
  · intro q
    by_cases same : q = p
    · subst same
      rw [Function.update_self]
      exact fits
    · rw [Function.update_of_ne same]
      have notHere : (place q).InCall → q ≠ child := by
        intro inCall
        exact (counted.notChild ((counted.fits q).alive counted.kernel.placed inCall) isChild).symm
      refine (counted.fits q).congr ?_ (fun _ => by rw [kernel]) (by rw [call])
        (fun inCall => others q (notHere inCall)) ?_
      · intro inCall
        have lives := (counted.fits q).alive counted.kernel.placed inCall
        rwa [alive, kernel]
      · intro c isChildOfQ
        refine others c ?_
        rintro rfl
        exact same (Option.some.inj (counted.kernel.placed.apart _ _ c isChildOfQ isChild))
  · intro q empty
    rw [kernel] at empty
    have notChild : q ≠ child := by
      rintro rfl
      rcases empty with unused | zombie
      · simp [unused] at embryo
      · simp [zombie] at embryo
    rw [others q notChild]
    exact counted.vacant q empty

theorem live (counted : Counted s place) (here : place p = l) (inCall : l.InCall) : alive s p :=
  (counted.fits p).alive counted.kernel.placed (here ▸ inCall)

theorem alive_running {c : C} (counted : Counted s place) (on : s.kernel.table.cpu c = some p) : alive s p :=
  .inl (counted.kernel.placed.current c p on)

theorem sameSlots (counted : Counted s place) (live : alive s p) (kernel : s'.kernel = s.kernel)
    (call : s'.call = s.call) (ofile : s'.ofile = s.ofile)
    (balance : ∀ g, (s'.ftable g).ref + (place p).balance g = (s.ftable g).ref + l.balance g) (fits : Fits s' p l)
    (within : l.InCall → (place p).InCall) : Counted s' (Function.update place p l) := by
  refine counted.own live kernel call (fun q _ => by rw [ofile]) ?_ fits within
  intro g
  have change := balance g
  rw [ofile]
  omega

theorem set {fd : Fin nofile} {f : Option (Fin nfile)} {l' : Place n} (counted : Counted s place)
    (here : place p = l) (live : alive s p)
    (balance : ∀ g, weight g f + l'.balance g = weight g (s.ofile p fd) + l.balance g)
    (fits : Fits (s.setOfile p fd f) p l') (within : l.InCall) :
    Counted (s.setOfile p fd f) (Function.update place p l') := by
  refine counted.own live rfl rfl (fun q other => Function.update_of_ne other ..) (fun g => ?_) fits fun _ =>
    here ▸ within
  have slots := tally_update (s.ofile p) fd f g
  have change := balance g
  change (s.ftable g).ref + _ = _ + (tally (Function.update s.ofile p (Function.update (s.ofile p) fd f) p) g + _)
  rw [here, Function.update_self]
  omega

-- A section under `ptablelock`. Only a process without descriptors exits.
theorem afterSection [DecidableEq C] {addr : Fin n → UInt64} {a : Process.Action C} (counted : Counted s place)
    (stepped : Process.step addr a s.kernel = some s'.kernel) (ofile : s'.ofile = s.ofile)
    (ftable : s'.ftable = s.ftable)
    (emptied : ∀ c q, a = .exit c → s.kernel.table.cpu c = some q → ∀ fd, s.ofile q fd = none)
    (balance : ∀ q g, (place' q).balance g = (place q).balance g) (fits : ∀ q, Fits s' q (place' q))
    (calls : ∀ q, (place' q).InCall → ∃ c, s'.call q = some c ∧ Changing c) : Counted s' place' := by
  obtain ⟨⟨kernel, e⟩, performed, isKernel⟩ := Option.map_eq_some_iff.mp stepped
  subst isKernel
  obtain ⟨moves, consistent⟩ := counted.kernel.perform performed
  refine ⟨consistent, ?_, fits, calls, ?_⟩
  · intro g
    rw [ftable, counted.refs g]
    refine Finset.sum_congr rfl fun q _ => ?_
    rw [share, share, ofile, balance q g]
  · intro q empty fd
    rw [ofile]
    cases moves.changes counted.kernel.placed q with
    | kept state chan pid => exact counted.vacant q (state ▸ empty) fd
    | woken before after pid => simp [after] at empty
    | started before after => simp [after] at empty
    | readied before after => simp [after] at empty
    | picked before after pid => simp [after] at empty
    | pickedWaiting before after chan pid => simp [after] at empty
    | left c on acts notExit after pid =>
      rcases after with runnable | ⟨asleep, _⟩
      · simp [runnable] at empty
      · simp [asleep] at empty
    | exited c on isExit after => exact emptied c q isExit on fd
    | reaped before after => exact counted.vacant q (.inr before) fd

/-- A section leaves a process where it is, unless the process exits or goes on in `fork`. -/
theorem bystander [DecidableEq C] {addr : Fin n → UInt64} {a : Process.Action C} (counted : Counted s place)
    (stepped : Process.step addr a s.kernel = some s'.kernel) (ofile : s'.ofile = s.ofile) (call : s'.call = s.call)
    (q : Fin n) (stays : ∀ c, s.kernel.table.cpu c = some q → a ≠ .exit c)
    (thread : ¬ a.OfFork ∨ ∀ c, s.kernel.table.cpu c = some q → a.by ≠ some c) : Fits s' q (place q) := by
  obtain ⟨⟨kernel, e⟩, performed, isKernel⟩ := Option.map_eq_some_iff.mp stepped
  subst isKernel
  obtain ⟨moves, _⟩ := counted.kernel.perform performed
  refine (counted.fits q).congr ?_ (fun _ => ?_) (by rw [call]) (fun _ => by rw [ofile])
    (fun child _ => by rw [ofile])
  · intro inCall
    have lives := (counted.fits q).alive counted.kernel.placed inCall
    exact ((moves.changes counted.kernel.placed q).live lives stays).1
  · rcases thread with notFork | notBy
    · exact moves.thread_kept notFork q
    · rcases moves.threads q with same | ⟨c, acts, on, _⟩
      · exact same
      · exact absurd acts (notBy c on)

theorem ownSection [DecidableEq C] {addr : Fin n → UInt64} {a : Process.Action C} {c : C} (counted : Counted s place)
    (stepped : Process.step addr a s.kernel = some s'.kernel) (ofile : s'.ofile = s.ofile)
    (ftable : s'.ftable = s.ftable) (call : s'.call = s.call) (acts : a.by = some c)
    (on : s.kernel.table.cpu c = some p) (emptied : ∀ d, a = .exit d → ∀ fd, s.ofile p fd = none)
    (balance : ∀ g, l.balance g = (place p).balance g) (fits : Fits s' p l) (within : l.InCall → (place p).InCall) :
    Counted s' (Function.update place p l) := by
  have same : ∀ d q, a.by = some d → s.kernel.table.cpu d = some q → q = p := by
    intro d q actsD onD
    cases actsD.symm.trans acts
    exact Option.some.inj (onD.symm.trans on)
  refine counted.afterSection stepped ofile ftable ?_ ?_ ?_ (call ▸ counted.moved within)
  · rintro d q rfl onD
    rw [same d q rfl onD]
    exact emptied d rfl
  · intro q g
    by_cases here : q = p
    · subst here
      rw [Function.update_self, balance g]
    · rw [Function.update_of_ne here]
  · intro q
    by_cases here : q = p
    · subst here
      rw [Function.update_self]
      exact fits
    · rw [Function.update_of_ne here]
      refine counted.bystander stepped ofile call q ?_ (.inr fun d onD actsD => here (same d q actsD onD))
      rintro d onD rfl
      exact here (same d q rfl onD)

/-- No share is negative: a process owes at most what it has descriptors for. -/
theorem share_nonneg (counted : Counted s place) (g : Fin nfile) (p : Fin n) : 0 ≤ share s place g p := by
  have fits := counted.fits p
  have tally := tally_nonneg (s.ofile p) g
  -- a descriptor for the file that is owed
  have pays : ∀ fd f, s.ofile p fd = some f → weight g (some f) ≤ Descriptors.tally (s.ofile p) g := by
    intro fd f own
    by_cases same : f = g
    · subst same
      rw [weight_self]
      exact tally_pos own
    · have none : weight g (some f) = 0 := if_neg fun equal => same (Option.some.inj equal)
      rw [none]
      exact tally
  unfold share
  cases at_ : place p with
  | credit f =>
    have nonneg := weight_nonneg g (some f)
    simp only [Place.balance]
    omega
  | owes fd copy f =>
    rw [at_] at fits
    have paid := pays fd f fits.2.1
    simp only [Place.balance]
    omega
  | copying child fd f =>
    rw [at_] at fits
    have paid := pays fd f fits.2.1
    simp only [Place.balance]
    omega
  | closed fd f =>
    rw [at_] at fits
    have paid := pays fd f fits.2.2.1
    simp only [Place.balance]
    omega
  | _ =>
    simp only [Place.balance]
    omega

/-- A descriptor for a file without references is one that `exit` has closed and not cleared yet. -/
theorem unreferenced {g : Fin nfile} {fd : Fin nofile} (counted : Counted s place)
    (free : (s.ftable g).ref = 0) (own : s.ofile p fd = some g) : ∃ fd', place p = .closed fd' g := by
  have none : ∀ q, share s place g q = 0 := by
    have total := counted.refs g
    rw [free] at total
    intro q
    exact (Finset.sum_eq_zero_iff_of_nonneg fun q _ => counted.share_nonneg g q).mp total.symm q (Finset.mem_univ q)
  have fits := counted.fits p
  have one := tally_pos own
  have mine := none p
  unfold share at mine
  have isG : ∀ f, weight g (some f) ≠ 0 → f = g := by
    intro f nonzero
    by_contra other
    exact nonzero (if_neg fun equal => other (Option.some.inj equal))
  cases at_ : place p with
  | owes fd copy f =>
    rw [at_] at fits mine
    simp only [Place.balance] at mine
    obtain rfl := isG f (by omega)
    have two := tally_two fits.2.2.2 fits.2.1 fits.2.2.1
    rw [weight_self] at mine
    omega
  | copying child fd f =>
    rw [at_] at fits mine
    simp only [Place.balance] at mine
    obtain rfl := isG f (by omega)
    -- the child is not in a call, and has a descriptor for the file
    have idle : place child = .user := by
      refine Place.eq_user fun inCall => ?_
      exact counted.notChild ((counted.fits child).alive counted.kernel.placed inCall) fits.1 rfl
    have childs := none child
    have other := tally_pos fits.2.2.1
    rw [share, idle] at childs
    simp only [Place.balance] at childs
    omega
  | closed fd f =>
    rw [at_] at mine
    simp only [Place.balance] at mine
    obtain rfl := isG f (by omega)
    exact ⟨fd, rfl⟩
  | credit f =>
    rw [at_] at mine
    have nonneg := weight_nonneg g (some f)
    simp only [Place.balance] at mine
    omega
  | _ =>
    rw [at_] at mine
    simp only [Place.balance] at mine
    omega

end Counted

theorem card_slots (s : Calls.State C n) (g : Fin nfile) :
    ((Finset.univ.filter fun q : Fin n × Fin nofile => s.ofile q.1 q.2 = some g).card : Int) =
      ∑ p, tally (s.ofile p) g := by
  rw [Finset.card_filter, Fintype.sum_prod_type]
  push_cast
  rfl

end Xv6.Descriptors
