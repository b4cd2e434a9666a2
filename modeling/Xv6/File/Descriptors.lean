import Xv6.File.Counting
import Xv6.Fs.Contents

/-! Reference counts of files in every run of system calls.

Each request of a call has a lemma about the places before and after it; a call is followed
from request to request. What a call does between the requests that change descriptors keeps
its place.
-/

set_option autoImplicit false

namespace Xv6.Descriptors

open Library Syscall Process Calls.State

variable {C : Type} [DecidableEq C] {n : Nat} {addr : Fin n → UInt64} {sb : Superblock}
  {devsw : Fin ndev → Devsw UInt32}

/-! ## Requests that change nothing here -/

/-- Requests that change neither descriptors nor references. -/
def Neutral : Calls.Request n → Prop
  | .inodes _ | .beginOp | .endSection | .commit | .committed | .file _ | .setOff .. | .setFile .. | .ofile | .cwd
  | .setCwd _ | .setChildCwd .. | .panic => True
  | _ => False

variable {s s' : Calls.State C n} {place : Fin n → Place n} {p : Fin n} {e : Choice C} {l : Place n}

theorem answer_running {r : Calls.Request n} {reply : (Calls n).Reply r}
    (answered : answer addr sb devsw p e r s = some (reply, s')) :
    s.kernel.table.cpu e.cpu = some p ∧ perform addr sb devsw p e r s = some (reply, s') := by
  simpa [answer] using answered

theorem Counted.answer_neutral {r : Calls.Request n} (neutral : Neutral r) {reply : (Calls n).Reply r}
    (counted : Counted s place) (answered : answer addr sb devsw p e r s = some (reply, s')) : Counted s' place := by
  obtain ⟨_, performed⟩ := answer_running answered
  cases r with
  | inodes r =>
    obtain ⟨_, _, same⟩ := Option.map_eq_some_iff.mp performed
    cases same
    exact counted.neutral rfl rfl rfl fun _ => rfl
  | beginOp =>
    obtain ⟨_, _, same⟩ := Option.map_eq_some_iff.mp performed
    cases same
    exact counted.neutral rfl rfl rfl fun _ => rfl
  | commit =>
    obtain ⟨_, _, same⟩ := Option.map_eq_some_iff.mp performed
    cases same
    exact counted.neutral rfl rfl rfl fun _ => rfl
  | setOff f off =>
    cases performed
    exact counted.neutral rfl rfl rfl (setFile_ref rfl)
  | setFile f type ip off readable writable =>
    cases performed
    exact counted.neutral rfl rfl rfl (setFile_ref rfl)
  | panic => cases performed
  | endSection | committed | file | ofile | cwd | setCwd | setChildCwd =>
    cases performed
    exact counted.neutral rfl rfl rfl fun _ => rfl
  | _ => exact neutral.elim

def OnData : Calls.Request n → Prop
  | .inodes _ | .beginOp | .endSection | .commit | .committed | .file _ | .setOff .. | .panic => True
  | _ => False

theorem OnData.neutral (r : Calls.Request n) (onData : OnData r) : Neutral r := by
  cases r with
  | inodes | beginOp | endSection | commit | committed | file | setOff | panic => trivial
  | _ => exact onData.elim

section
variable {A : Type}

theorem data_fs (q : Program Inodes A) : (Calls.fs q : Program (Calls n) A).Issues OnData := by
  induction q with
  | done value => trivial
  | call r next ih => exact ⟨trivial, ih⟩

theorem data_beginOp : (Calls.beginOp : Program (Calls n) Unit).Issues OnData := Program.issues_request trivial

theorem data_endOp : (Calls.endOp : Program (Calls n) Unit).Issues OnData := by
  refine (Program.issues_request trivial).bind fun cmt => ?_
  cases cmt with
  | true => exact (Program.issues_request trivial).bind fun _ => Program.issues_request trivial
  | false => trivial

theorem data_inode (ip : Option (Fin ninode)) : (Calls.inode ip : Program (Calls n) _).Issues OnData := by
  cases ip with
  | some i => trivial
  | none => exact ⟨trivial, fun reply => Empty.elim reply⟩

theorem data_file (f : Fin nfile) : (Calls.file f : Program (Calls n) File).Issues OnData :=
  Program.issues_request trivial

theorem data_advance (f : Fin nfile) (r : Int) : (Calls.advance f r : Program (Calls n) Unit).Issues OnData :=
  (data_file f).bind fun _ => Program.issues_request trivial

theorem data_fileread (f : Fin nfile) (dst : Nat → UInt8) (count : Int) :
    (Calls.fileread f dst count : Program (Calls n) _).Issues OnData := by
  refine (data_file f).bind fun x => ?_
  split
  · trivial
  · refine (data_inode x.ip).bind fun ip => (data_fs _).bind fun _ => (data_file f).bind fun y => ?_
    refine (data_fs _).bind fun (r, dst) => Program.Issues.bind ?_ fun _ => (data_fs _).bind fun _ => trivial
    unfold Calls.advanceRead
    split
    · exact data_advance f r
    · trivial

theorem data_writeTurns (f : Fin nfile) (src : Nat → UInt8) (count : Int) (turns : Nat) (fin : Int) :
    (Calls.writeTurns f src count turns fin : Program (Calls n) Int).Issues OnData := by
  induction turns generalizing fin with
  | zero =>
    unfold Calls.writeTurns
    split
    · exact ⟨trivial, fun reply => Empty.elim reply⟩
    · trivial
  | succ turns ih =>
    unfold Calls.writeTurns
    split
    · refine data_beginOp.bind fun _ => (data_file f).bind fun x => (data_inode x.ip).bind fun ip => ?_
      refine (data_fs _).bind fun _ => (data_file f).bind fun y => (data_fs _).bind fun cur => ?_
      split
      · trivial
      · exact (data_advance f _).bind fun _ => (data_fs _).bind fun _ => data_endOp.bind fun _ => ih _
    · trivial

theorem data_filewrite (turns : Nat) (f : Fin nfile) (src : Nat → UInt8) (count : Int) :
    (Calls.filewrite turns f src count : Program (Calls n) Int).Issues OnData := by
  refine (data_file f).bind fun x => ?_
  split
  · trivial
  · exact data_writeTurns f src count turns 0

theorem data_writevFrom (turns : Nat) (f : Fin nfile) (iov : List ((Nat → UInt8) × Int)) (tot : Int) :
    (Calls.writevFrom turns f iov tot : Program (Calls n) Int).Issues OnData := by
  induction iov generalizing tot with
  | nil => trivial
  | cons v rest ih => exact (data_filewrite turns f v.1 v.2).bind fun _ => ih _

theorem issues_fs (q : Program Inodes A) : (Calls.fs q : Program (Calls n) A).Issues Neutral :=
  (data_fs q).mono OnData.neutral

theorem issues_beginOp : (Calls.beginOp : Program (Calls n) Unit).Issues Neutral := data_beginOp.mono OnData.neutral

theorem issues_endOp : (Calls.endOp : Program (Calls n) Unit).Issues Neutral := data_endOp.mono OnData.neutral

theorem issues_inode (ip : Option (Fin ninode)) : (Calls.inode ip : Program (Calls n) _).Issues Neutral :=
  (data_inode ip).mono OnData.neutral

theorem issues_putInode (ip : Fin ninode) : (Calls.putInode ip : Program (Calls n) Unit).Issues Neutral :=
  issues_beginOp.bind fun _ => (issues_fs _).bind fun _ => issues_endOp

theorem issues_openFailed (ip : Fin ninode) : (Calls.openFailed ip : Program (Calls n) Int).Issues Neutral :=
  (issues_fs _).bind fun _ => issues_endOp.bind fun _ => trivial

theorem issues_ofile : (Calls.ofile : Program (Calls n) _).Issues Neutral := Program.issues_request trivial

theorem issues_cwd : (Calls.cwd : Program (Calls n) _).Issues Neutral := Program.issues_request trivial

theorem issues_argfd (fd : Int) : (Calls.argfd fd : Program (Calls n) _).Issues Neutral := by
  unfold Calls.argfd
  split
  · trivial
  · exact issues_ofile.bind fun slots => Program.issues_pure

theorem issues_openInode (path : List UInt8) (omode : UInt64) :
    (Calls.openInode path omode : Program (Calls n) _).Issues Neutral := by
  refine issues_cwd.bind fun dir => ?_
  split
  · exact issues_fs _
  · refine (issues_fs _).bind fun found => ?_
    cases found with
    | none => trivial
    | some ip =>
      refine (issues_fs _).bind fun _ => (issues_fs _).bind fun x => ?_
      split
      · exact (issues_fs _).bind fun _ => trivial
      · trivial

theorem issues_sysMake (path : List UInt8) (type major minor : UInt16) :
    (Calls.sysMake path type major minor : Program (Calls n) Int).Issues Neutral := by
  refine issues_beginOp.bind fun _ => issues_cwd.bind fun dir => (issues_fs _).bind fun made => ?_
  cases made with
  | none => exact issues_endOp.bind fun _ => trivial
  | some ip => exact (issues_fs _).bind fun _ => issues_endOp.bind fun _ => trivial

theorem issues_sysChdir (path : List UInt8) : (Calls.sysChdir path : Program (Calls n) Int).Issues Neutral := by
  refine issues_beginOp.bind fun _ => issues_cwd.bind fun dir => (issues_fs _).bind fun found => ?_
  cases found with
  | none => exact issues_endOp.bind fun _ => trivial
  | some ip =>
    refine (issues_fs _).bind fun _ => (issues_fs _).bind fun x => ?_
    split
    · exact issues_openFailed ip
    · refine (issues_fs _).bind fun _ => issues_cwd.bind fun dir => (issues_inode dir).bind fun dir => ?_
      exact (issues_fs _).bind fun _ => issues_endOp.bind fun _ =>
        (Program.issues_request trivial).bind fun _ => trivial

end

/-! ## Requests that change descriptors or references -/

theorem Counted.filealloc {reply : Option (Fin nfile)} (counted : Counted s place) (here : place p = .working)
    (answered : answer addr sb devsw p e .filealloc s = some (reply, s')) :
    Counted s' (Function.update place p (reply.elim .working .credit)) := by
  obtain ⟨on, performed⟩ := answer_running answered
  have live := counted.alive_running on
  cases allocated : s.ftable.filealloc with
  | mk found t =>
    simp only [Calls.State.perform, allocated] at performed
    cases performed
    cases reply with
    | none =>
      rw [Option.elim_none, ← here, Function.update_eq_self]
      exact counted.neutral rfl rfl rfl fun g => by rw [Ftable.filealloc_none allocated]
    | some f =>
      obtain ⟨free, same⟩ := Ftable.filealloc_some allocated
      refine counted.sameSlots live rfl rfl rfl (fun g => ?_) live fun _ => here ▸ trivial
      rw [here]
      simp only [Place.balance, same, weight_some, Option.elim_some]
      by_cases isF : g = f
      · subst isF
        simp [free]
      · simp [isF]

theorem Counted.filedup {f : Fin nfile} {reply : Unit} {l' : Place n} (counted : Counted s place) (here : place p = l)
    (inCall : l.InCall) (answered : answer addr sb devsw p e (.filedup f) s = some (reply, s'))
    (balance : ∀ g, l'.balance g = l.balance g + weight g (some f)) (fits : Fits s p l') :
    Counted s' (Function.update place p l') := by
  obtain ⟨_, performed⟩ := answer_running answered
  cases performed
  refine counted.sameSlots (counted.live here inCall) rfl rfl rfl (fun g => ?_) ?_ fun _ => here ▸ inCall
  · change (s.ftable.filedup f g).ref + _ = _
    rw [Ftable.filedup_ref, here, balance g, weight_some]
    omega
  · exact fits.congr (fun inCall => fits.alive counted.kernel.placed inCall) (fun _ => rfl) rfl (fun _ => rfl)
      fun _ _ => rfl

theorem Counted.close {f : Fin nfile} {reply : Option File} {l' : Place n} (counted : Counted s place)
    (here : place p = l) (inCall : l.InCall)
    (answered : answer addr sb devsw p e (.closeSection f) s = some (reply, s'))
    (balance : ∀ g, l'.balance g = l.balance g - weight g (some f)) (fits : Fits s p l') :
    Counted s' (Function.update place p l') := by
  obtain ⟨_, performed⟩ := answer_running answered
  cases performed
  refine counted.sameSlots (counted.live here inCall) rfl rfl rfl (fun g => ?_) ?_ fun _ => here ▸ inCall
  · change ((s.ftable.fileclose f).2 g).ref + _ = _
    rw [Ftable.fileclose_ref, here, balance g, weight_some]
    omega
  · exact fits.congr (fun inCall => fits.alive counted.kernel.placed inCall) (fun _ => rfl) rfl (fun _ => rfl)
      fun _ _ => rfl

theorem fdalloc_performed {f : Fin nfile} {reply : Option (Fin nofile)}
    (performed : perform addr sb devsw p e (.fdalloc f) s = some (reply, s')) :
    (reply = none ∧ s' = s) ∨ ∃ fd, reply = some fd ∧ s.ofile p fd = none ∧ s' = s.setOfile p fd (some f) := by
  simp only [Calls.State.perform] at performed
  cases found : Syscall.fdalloc (s.ofile p) f with
  | none =>
    rw [found] at performed
    cases performed
    exact .inl ⟨rfl, rfl⟩
  | some out =>
    obtain ⟨fd, slots⟩ := out
    rw [found] at performed
    cases performed
    obtain ⟨empty, rfl⟩ := Syscall.fdalloc_some found
    exact .inr ⟨fd, rfl, empty, rfl⟩

theorem section_answered {a : Process.Action C} {reply : Unit}
    (performed : (section_ addr a s).map ((), ·) = some (reply, s')) :
    Process.step addr a s.kernel = some s'.kernel ∧ s' = { s with kernel := s'.kernel } := by
  obtain ⟨_, does, same⟩ := Option.map_eq_some_iff.mp performed
  obtain ⟨kernel, stepped, isState⟩ := Option.map_eq_some_iff.mp does
  cases same
  subst isState
  exact ⟨stepped, rfl⟩

theorem Counted.procAlloc {child : Fin n} (counted : Counted s place) (here : place p = .working)
    (answered : answer addr sb devsw p e .procAlloc s = some (child, s')) :
    Counted s' (Function.update place p (.forking child 0)) := by
  obtain ⟨on, performed⟩ := answer_running answered
  simp only [Calls.State.perform, Option.bind_eq_bind, Option.bind_eq_some_iff] at performed
  obtain ⟨kernel, stepped, c, isChild, same⟩ := performed
  cases same
  obtain ⟨⟨_, event⟩, did, rfl⟩ := Option.map_eq_some_iff.mp stepped
  obtain ⟨moves, _⟩ := counted.kernel.perform did
  have unused : (s.kernel.table.proc child).state = .unused := by
    cases moves with
    | @fork _ _ par _ onPar started =>
      cases Option.some.inj (onPar.symm.trans on)
      obtain ⟨_, started, kstack, links, unused, rfl⟩ := started
      simp only [Function.update_self, Thread.child, Option.some.injEq] at isChild
      exact isChild ▸ unused
  have clear : s.ofile child = fun _ => none := funext (counted.vacant child (.inl unused))
  have ofile : Function.update s.ofile child (fun _ => none) = s.ofile := by
    rw [← clear, Function.update_eq_self]
  refine counted.ownSection stepped ofile rfl rfl rfl on (fun _ isExit => by cases isExit)
    (fun g => by rw [here]; rfl) ?_ fun _ => here ▸ trivial
  refine ⟨isChild, fun fd _ => ?_⟩
  change Function.update s.ofile child (fun _ => none) child fd = none
  rw [Function.update_self]

theorem Counted.setParent {child : Fin n} {i : Nat} {reply : Unit} (counted : Counted s place)
    (here : place p = .forking child i) (answered : answer addr sb devsw p e .setParent s = some (reply, s')) :
    Counted s' (Function.update place p (.forking child i)) := by
  obtain ⟨on, performed⟩ := answer_running answered
  obtain ⟨stepped, same⟩ := section_answered performed
  have fits := counted.fits p
  rw [here] at fits
  obtain ⟨isChild, clear⟩ := fits
  have ofile : s'.ofile = s.ofile := by rw [same]
  refine counted.ownSection stepped ofile (by rw [same]) (by rw [same]) rfl on (fun _ isExit => by cases isExit)
    (fun g => by rw [here]) ?_
    fun _ => here ▸ trivial
  refine ⟨?_, ofile ▸ clear⟩
  obtain ⟨⟨_, event⟩, did, isKernel⟩ := Option.map_eq_some_iff.mp stepped
  obtain ⟨moves, _⟩ := counted.kernel.perform did
  rw [← isKernel]
  cases moves with
  | @forkCopy _ par c onPar thread =>
    cases Option.some.inj (onPar.symm.trans on)
    rw [thread] at isChild
    cases isChild
    simp [Thread.child]

theorem Counted.lastSection {a : Process.Action C} {reply : Unit} (counted : Counted s place)
    (on : s.kernel.table.cpu e.cpu = some p) (acts : a.by = some e.cpu)
    (performed : (section_ addr a s).map ((), ·) = some (reply, s'))
    (emptied : ∀ d, a = .exit d → ∀ fd, s.ofile p fd = none) (balance : ∀ g, (place p).balance g = 0) :
    Counted s' (Function.update place p .user) := by
  obtain ⟨stepped, same⟩ := section_answered performed
  exact counted.ownSection stepped (by rw [same]) (by rw [same]) (by rw [same]) acts on emptied
    (fun g => (balance g).symm) trivial fun stays => stays.elim

theorem Counted.setChildFile {child : Fin n} {fd : Fin nofile} {f : Option (Fin nfile)} {reply : Unit}
    (counted : Counted s place) (here : place p = f.elim (.forking child fd.val) (.offering child fd))
    (answered : answer addr sb devsw p e (.setChildFile child fd f) s = some (reply, s')) :
    Counted s' (Function.update place p (f.elim (.forking child (fd.val + 1)) (.copying child fd))) := by
  obtain ⟨on, performed⟩ := answer_running answered
  cases performed
  have fits := counted.fits p
  rw [here] at fits
  have live := counted.alive_running on
  have others : ∀ q, q ≠ child → (s.setOfile child fd f).ofile q = s.ofile q :=
    fun q other => Function.update_of_ne other ..
  have slots := tally_update (s.ofile child) fd f
  have self : (s.setOfile child fd f).ofile child = Function.update (s.ofile child) fd f := Function.update_self ..
  cases f with
  | none =>
    obtain ⟨isChild, clear⟩ := fits
    refine counted.child live isChild rfl rfl rfl others (fun g => ?_) ⟨isChild, fun fd' later => ?_⟩
      fun _ => here ▸ trivial
    · have total := slots g
      rw [clear fd le_rfl] at total
      rw [self, here]
      simp only [Option.elim_none, Place.balance]
      omega
    · rw [setOfile_self]
      split
      · rfl
      · exact clear fd' (by omega)
  | some f =>
    obtain ⟨isChild, own, clear⟩ := fits
    have notSelf := counted.notChild live isChild
    refine counted.child live isChild rfl rfl rfl others (fun g => ?_) ⟨isChild, ?_, ?_, fun fd' later => ?_⟩
      fun _ => here ▸ trivial
    · have total := slots g
      rw [clear fd le_rfl, weight_none] at total
      rw [self, here]
      simp only [Option.elim_some, Place.balance]
      omega
    · rw [others p notSelf.symm]
      exact own
    · rw [setOfile_self, if_pos rfl]
    · have otherFd : fd' ≠ fd := by
        rintro rfl
        exact absurd later (lt_irrefl _)
      rw [setOfile_self, if_neg otherFd]
      exact clear fd' (Nat.le_of_lt later)

/-! ## Calls -/

section
variable {A B : Type} {post : B → Place n → Prop}

theorem neutral_keeps {q : Program (Calls n) A} (issues : q.Issues Neutral) :
    q.Keeps (answer addr sb devsw) (@Counted C n) p (fun _ there => there = l) l := by
  refine issues.keeps ?_
  intro r neutral e s place reply s' counted _ answered
  exact counted.answer_neutral neutral answered

theorem neutral_then {q : Program (Calls n) A} {k : A → Program (Calls n) B} (issues : q.Issues Neutral)
    (next : ∀ value, (k value).Keeps (answer addr sb devsw) (@Counted C n) p post l) :
    (q >>= k).Keeps (answer addr sb devsw) (@Counted C n) p post l := (neutral_keeps issues).follow next

theorem fileclose_keeps {f : Fin nfile} {l' : Place n} (inCall : l.InCall)
    (balance : ∀ g, l'.balance g = l.balance g - weight g (some f))
    (fits : ∀ s : Calls.State C n, Fits s p l → Fits s p l') :
    (Calls.fileclose f).Keeps (answer addr sb devsw) (@Counted C n) p (fun _ there => there = l') l := by
  refine Program.Keeps.request_bind fun e s place reply s' counted here answered => ⟨l', ?_, ?_⟩
  · exact counted.close here inCall answered balance (fits s (here ▸ counted.fits p))
  · cases reply with
    | none => rfl
    | some x =>
      by_cases pipe : x.type = .pipe
      · simp only [if_pos pipe]
        exact neutral_then (issues_inode x.ip) fun ip => neutral_keeps (issues_putInode ip)
      · simp only [if_neg pipe]
        rfl

theorem fileclose_credit (f : Fin nfile) :
    (Calls.fileclose f).Keeps (answer addr sb devsw) (@Counted C n) p (fun _ there => there = .working)
    (.credit f) := by
  refine fileclose_keeps trivial (fun g => ?_) fun _ live => live
  simp only [Place.balance]
  omega

theorem argfd_then {fd : Int} {k : Option (Fin nofile × Fin nfile) → Program (Calls n) B}
    (absent : (k none).Keeps (answer addr sb devsw) (@Counted C n) p post .working)
    (found : ∀ fd f, (k (some (fd, f))).Keeps (answer addr sb devsw) (@Counted C n) p post (.holds fd f)) :
    (Calls.argfd fd >>= k).Keeps (answer addr sb devsw) (@Counted C n) p post .working := by
  unfold Calls.argfd
  split
  · exact absent
  · next inside =>
    refine Program.Keeps.bind (Program.Keeps.request_bind fun e s place slots s' counted here answered => ?_)
    obtain ⟨on, performed⟩ := answer_running answered
    cases performed
    generalize isFd : (⟨fd.toNat, _⟩ : Fin nofile) = x
    change ∃ there, Counted s (Function.update place p there) ∧
      (k ((s.ofile p x).map fun f => (x, f))).Keeps (answer addr sb devsw) (@Counted C n) p post there
    cases slot : s.ofile p x with
    | none =>
      refine ⟨.working, ?_, absent⟩
      rw [← here, Function.update_eq_self]
      exact counted
    | some f =>
      have live := counted.alive_running on
      refine ⟨.holds x f, counted.sameSlots live rfl rfl rfl (fun g => ?_) ⟨live, slot⟩ ?_, found x f⟩
      · rw [here]
        rfl
      · exact fun _ => here ▸ trivial

theorem sysDup_keeps (fd : Int) :
    (Calls.sysDup fd).Keeps (answer addr sb devsw) (@Counted C n) p (fun _ there => there = .working) .working := by
  refine argfd_then rfl fun fd f => ?_
  refine Program.Keeps.request_bind fun e s place reply s' counted here answered => ?_
  have fits := counted.fits p
  rw [here] at fits
  obtain ⟨live, own⟩ := fits
  rcases fdalloc_performed (answer_running answered).2 with ⟨rfl, rfl⟩ | ⟨copy, rfl, empty, rfl⟩
  · exact ⟨.working, counted.sameSlots live rfl rfl rfl (fun g => by rw [here]; rfl) live fun _ =>
      here ▸ trivial, rfl⟩
  · have other : fd ≠ copy := by
      rintro rfl
      rw [own] at empty
      cases empty
    refine ⟨.owes fd copy f, counted.set here live (fun g => ?_) ⟨live, ?_, ?_, other⟩ trivial, ?_⟩
    · rw [empty, weight_none]
      simp only [Place.balance]
      omega
    · rw [setOfile_self, if_neg other]
      exact own
    · rw [setOfile_self, if_pos rfl]
    · refine Program.Keeps.request_bind fun e s place reply s' counted here answered => ⟨.working, ?_, rfl⟩
      refine counted.filedup here trivial answered (fun g => ?_) (counted.live here trivial)
      simp only [Place.balance]
      omega

theorem sysClose_keeps (fd : Int) :
    (Calls.sysClose fd).Keeps (answer addr sb devsw) (@Counted C n) p (fun _ there => there = .working) .working := by
  refine argfd_then rfl fun fd f => ?_
  refine Program.Keeps.request_bind fun e s place reply s' counted here answered => ⟨.credit f, ?_, ?_⟩
  · obtain ⟨_, performed⟩ := answer_running answered
    cases performed
    have fits := counted.fits p
    rw [here] at fits
    obtain ⟨live, own⟩ := fits
    refine counted.set here live (fun g => ?_) live trivial
    rw [own, weight_none]
    simp only [Place.balance]
    omega
  · exact (fileclose_credit f).follow fun _ => rfl

theorem openFile_keeps (ip : Fin ninode) (omode : UInt64) :
    (Calls.openFile ip omode).Keeps (answer addr sb devsw) (@Counted C n) p
    (fun _ there => there = .working) .working := by
  refine Program.Keeps.request_bind fun e s place reply s' counted here answered => ?_
  refine ⟨_, counted.filealloc here answered, ?_⟩
  cases reply with
  | none => exact neutral_keeps (issues_openFailed ip)
  | some f =>
    refine Program.Keeps.request_bind fun e s place reply s' counted here answered => ?_
    have live := counted.live here trivial
    rcases fdalloc_performed (answer_running answered).2 with ⟨rfl, rfl⟩ | ⟨fd, rfl, empty, rfl⟩
    · refine ⟨place p, ?_, ?_⟩
      · rw [Function.update_eq_self]
        exact counted
      · rw [here]
        exact (fileclose_credit f).follow fun _ => neutral_keeps (issues_openFailed ip)
    · refine ⟨.working, counted.set here live (fun g => ?_) live trivial, ?_⟩
      · rw [empty, weight_none]
        simp only [Place.balance, Option.elim_some]
        omega
      · exact neutral_then (issues_fs _) fun _ => neutral_then issues_endOp fun _ =>
          neutral_then (Program.issues_request trivial) fun _ => rfl

theorem sysOpenat_keeps (dirfd : Int) (path : List UInt8) (omode : UInt64) :
    (Calls.sysOpenat dirfd path omode).Keeps (answer addr sb devsw) (@Counted C n) p (fun _ there => there = .working)
      .working := by
  unfold Calls.sysOpenat
  split
  · rfl
  · split
    · rfl
    · refine neutral_then issues_beginOp fun _ => neutral_then (issues_openInode path omode) fun found => ?_
      cases found with
      | none => exact neutral_then issues_endOp fun _ => rfl
      | some ip => exact openFile_keeps ip omode

theorem forkFile_keeps (child : Fin n) (fd : Fin nofile) :
    (Calls.forkFile child fd).Keeps (answer addr sb devsw) (@Counted C n) p
      (fun _ there => there = .forking child (fd.val + 1)) (.forking child fd.val) := by
  refine Program.Keeps.request_bind fun e s place slots s' counted here answered => ?_
  obtain ⟨_, performed⟩ := answer_running answered
  cases performed
  refine ⟨(s.ofile p fd).elim (.forking child fd.val) (.offering child fd), ?_, ?_⟩
  · have fits := counted.fits p
    rw [here] at fits
    cases slot : s.ofile p fd with
    | none =>
      rw [Option.elim_none, ← here, Function.update_eq_self]
      exact counted
    | some f =>
      refine counted.sameSlots (counted.live here trivial) rfl rfl rfl (fun g => ?_) ⟨fits.1, slot, fits.2⟩
        fun _ => here ▸ trivial
      rw [here]
      rfl
  · refine Program.Keeps.request_bind fun e t place reply t' counted here answered => ?_
    refine ⟨_, counted.setChildFile here answered, ?_⟩
    cases s.ofile p fd with
    | none => rfl
    | some f =>
      intro e s place reply s' counted here answered
      have fits := counted.fits p
      rw [here] at fits
      obtain ⟨isChild, _, _, clear⟩ := fits
      refine ⟨.forking child (fd.val + 1), counted.filedup here trivial answered (fun g => ?_) ⟨isChild, clear⟩, rfl⟩
      simp only [Place.balance, Option.elim_some]
      omega

theorem fork_keeps :
    Calls.fork.Keeps (answer addr sb devsw) (@Counted C n) p (fun _ there => there = .user) .working := by
  refine Program.Keeps.request_bind fun e s place child s' counted here answered => ?_
  refine ⟨_, counted.procAlloc here answered, ?_⟩
  refine Program.Keeps.request_bind fun e s place reply s' counted here answered => ?_
  refine ⟨_, counted.setParent here answered, ?_⟩
  have loop : ((List.finRange nofile).forM (Calls.forkFile child)).Keeps (answer addr sb devsw) (@Counted C n) p
      (fun _ there => there = .forking child nofile) (.forking child 0) := by
    refine Program.Keeps.forFin (fun i there => there = Place.forking child i) rfl ?_
    rintro fd _ rfl
    exact forkFile_keeps child fd
  refine loop.follow fun _ => ?_
  refine neutral_then issues_cwd fun dir => neutral_then (issues_inode dir) fun dir => neutral_then
    (issues_fs _) fun _ =>
    neutral_then (Program.issues_request trivial) fun _ => ?_
  intro e s place reply s' counted here answered
  obtain ⟨on, performed⟩ := answer_running answered
  exact ⟨.user, counted.lastSection on rfl performed (fun _ isExit => by cases isExit) fun g =>
    by rw [here]; rfl, rfl⟩

theorem exitFile_keeps (fd : Fin nofile) :
    (Calls.exitFile fd).Keeps (answer addr sb devsw) (@Counted C n) p
      (fun _ there => there = .exiting (fd.val + 1)) (.exiting fd.val) := by
  refine Program.Keeps.request_bind fun e s place slots s' counted here answered => ?_
  obtain ⟨_, performed⟩ := answer_running answered
  cases performed
  have fits := counted.fits p
  rw [here] at fits
  obtain ⟨live, inExit, clear⟩ := fits
  -- one more descriptor is clear
  have more : ∀ slots : Fin nofile → Option (Fin nfile), slots fd = none →
    (∀ fd', fd'.val < fd.val → slots fd' = none) →
      ∀ fd' : Fin nofile, fd'.val < fd.val + 1 → slots fd' = none := by
    intro slots this below fd' less
    by_cases same : fd' = fd
    · exact same ▸ this
    · have other : fd'.val ≠ fd.val := fun equal => same (Fin.ext equal)
      exact below fd' (by omega)
  cases slot : s.ofile p fd with
  | none =>
    refine ⟨.exiting (fd.val + 1), counted.sameSlots live rfl rfl rfl (fun g => ?_) ⟨live, inExit, more _ slot clear⟩
      fun _ => here ▸ trivial, rfl⟩
    rw [here]
    rfl
  | some f =>
    refine ⟨.closing fd f, counted.sameSlots live rfl rfl rfl (fun g => ?_) ⟨live, inExit, slot, clear⟩
      fun _ => here ▸ trivial, ?_⟩
    · rw [here]
      rfl
    have closes : (Calls.fileclose f).Keeps (answer addr sb devsw) (@Counted C n) p
        (fun _ there => there = .closed fd f) (.closing fd f) := by
      refine fileclose_keeps trivial (fun g => ?_) fun _ fits => fits
      simp only [Place.balance]
      omega
    refine closes.follow fun _ => ?_
    intro e s place reply s' counted here answered
    obtain ⟨_, performed⟩ := answer_running answered
    cases performed
    have fits := counted.fits p
    rw [here] at fits
    obtain ⟨live, inExit, own, clear⟩ := fits
    refine ⟨.exiting (fd.val + 1), counted.set here live (fun g => ?_) ⟨live, inExit, ?_⟩ trivial, rfl⟩
    · rw [own, weight_none]
      simp only [Place.balance]
      omega
    · refine more _ (by rw [setOfile_self, if_pos rfl]) fun fd' less => ?_
      rw [setOfile_self]
      split
      · rfl
      · exact clear fd' less

theorem issues_exitCwd : (Calls.exitCwd : Program (Calls n) Unit).Issues Neutral := by
  refine issues_cwd.bind fun dir => ?_
  cases dir with
  | none => trivial
  | some dir => exact (issues_putInode dir).bind fun _ => Program.issues_request trivial

theorem exit_keeps :
    Calls.exit.Keeps (answer addr sb devsw) (@Counted C n) p (fun _ there => there = .user) (.exiting 0) := by
  have loop : ((List.finRange nofile).forM Calls.exitFile).Keeps (answer addr sb devsw) (@Counted C n) p
      (fun _ there => there = .exiting nofile) (.exiting 0) := by
    refine Program.Keeps.forFin (fun i there => there = Place.exiting i) rfl ?_
    rintro fd _ rfl
    exact exitFile_keeps fd
  refine loop.follow fun _ => neutral_then issues_exitCwd fun _ => ?_
  intro e s place reply s' counted here answered
  obtain ⟨on, performed⟩ := answer_running answered
  have fits := counted.fits p
  rw [here] at fits
  exact ⟨.user, counted.lastSection on rfl performed (fun _ _ fd => fits.2.2 fd fd.isLt) fun g =>
    by rw [here]; rfl, rfl⟩

theorem wait_keeps :
    Calls.wait.Keeps (answer addr sb devsw) (@Counted C n) p (fun _ there => there = .user) .user := by
  intro e s place reply s' counted here answered
  obtain ⟨on, performed⟩ := answer_running answered
  exact ⟨.user, counted.lastSection on rfl performed (fun _ isExit => by cases isExit) fun g =>
    by rw [here]; rfl, rfl⟩

end

/-! ## Runs -/

def Place.Resting (l : Place n) : Prop := l = .user ∨ l = .working

def begins : Call → Place n
  | .openat .. | .dup _ | .close _ | .fork => .working
  | .exit => .exiting 0
  | .read .. | .write .. | .writev .. | .mkdirat .. | .mknodat .. | .chdir _ | .wait => .user

theorem call_keeps (c : Call) :
    c.program.Keeps (answer addr sb devsw) (@Counted C n) p (fun _ there => there.Resting) (begins c) := by
  have resting : ∀ q : Program (Calls n) Unit, ∀ there : Place n, there = .user ∨ there = .working →
      q.Keeps (answer addr sb devsw) (@Counted C n) p (fun _ l => l = there) (begins c) →
      q.Keeps (answer addr sb devsw) (@Counted C n) p (fun _ there => there.Resting) (begins c) := by
    intro q there between keeps
    refine keeps.mono ?_
    rintro _ _ rfl
    exact between
  cases c with
  | openat dirfd path omode => exact (sysOpenat_keeps dirfd path omode).follow fun _ => .inr rfl
  | dup fd => exact (sysDup_keeps fd).follow fun _ => .inr rfl
  | close fd => exact (sysClose_keeps fd).follow fun _ => .inr rfl
  | read fd count =>
    refine neutral_then (Program.Issues.bind (issues_argfd fd) fun found => ?_) fun _ => .inl rfl
    cases found with
    | none => trivial
    | some file => exact (data_fileread file.2 _ count).mono OnData.neutral
  | write turns fd src count =>
    refine neutral_then (Program.Issues.bind (issues_argfd fd) fun found => ?_) fun _ => .inl rfl
    cases found with
    | none => trivial
    | some file => exact (data_filewrite turns file.2 src count).mono OnData.neutral
  | writev turns fd iov =>
    refine neutral_then (Program.Issues.bind (issues_argfd fd) fun found => ?_) fun _ => .inl rfl
    cases found with
    | none => trivial
    | some file => exact (data_writevFrom turns file.2 iov 0).mono OnData.neutral
  | mkdirat dirfd path mode =>
    refine neutral_then (q := Calls.sysMkdirat dirfd path mode) ?_ fun _ => .inl rfl
    unfold Calls.sysMkdirat
    split
    · trivial
    · split
      · trivial
      · exact issues_sysMake path T_DIR 0 0
  | mknodat dirfd path major minor =>
    refine neutral_then (q := Calls.sysMknodat dirfd path major minor) ?_ fun _ => .inl rfl
    unfold Calls.sysMknodat
    split
    · trivial
    · exact issues_sysMake path T_DEV _ _
  | chdir path => exact neutral_then (issues_sysChdir path) fun _ => .inl rfl
  | fork => exact resting _ .user (.inl rfl) fork_keeps
  | exit => exact resting _ .user (.inl rfl) exit_keeps
  | wait => exact resting _ .user (.inl rfl) wait_keeps

omit [DecidableEq C] in
theorem Counted.enter (counted : Counted s place) (resting : (place p).Resting)
    (running : (s.kernel.table.proc p).state = .running) (c : Call) :
    Counted { s with call := Function.update s.call p (some c) } (Function.update place p (begins c)) := by
  have live : alive s p := .inl running
  have other : ∀ q, q ≠ p → Function.update s.call p (some c) q = s.call q :=
    fun q different => Function.update_of_ne different ..
  refine ⟨counted.kernel, ?_, ?_, ?_, counted.vacant⟩
  · intro g
    have balance : (begins c : Place n).balance g = (place p).balance g := by
      have before : (place p).balance g = 0 := by
        rcases resting with user | working
        · rw [user]
          rfl
        · rw [working]
          rfl
      rw [before]
      cases c <;> rfl
    refine (counted.refs g).trans (Finset.sum_congr rfl fun q _ => ?_)
    by_cases same : q = p
    · subst same
      rw [share, share, Function.update_self, balance]
    · rw [share, share, Function.update_of_ne same]
  · intro q
    by_cases same : q = p
    · subst same
      rw [Function.update_self]
      have called : Function.update s.call q (some c) q = some c := Function.update_self ..
      cases c with
      | openat | dup | close | fork => exact live
      | exit => exact ⟨live, called, fun fd below => absurd below (Nat.not_lt_zero _)⟩
      | _ => trivial
    · rw [Function.update_of_ne same]
      exact (counted.fits q).congr (fun inCall => (counted.fits q).alive counted.kernel.placed inCall) (fun _ => rfl)
        (other q same) (fun _ => rfl) fun _ _ => rfl
  · intro q inCall
    by_cases same : q = p
    · subst same
      rw [Function.update_self] at inCall
      refine ⟨c, Function.update_self .., ?_⟩
      cases c with
      | openat | dup | close | fork | exit => trivial
      | _ => exact inCall.elim
    · rw [Function.update_of_ne same] at inCall
      obtain ⟨d, called, changing⟩ := counted.calls q inCall
      exact ⟨d, (other q same).trans called, changing⟩

theorem rules_enter : (rules addr sb devsw).Enters (@Counted C n) Place.Resting fun _ => True := by
  intro p c s s' place _ counted resting entered
  obtain ⟨running, same⟩ := Option.ite_none_right_eq_some.mp entered
  cases same
  exact ⟨begins c, counted.enter resting running c, call_keeps c⟩

theorem Counted.scheduled {a : Process.Action C} (counted : Counted s place)
    (stepped : Process.step addr a s.kernel = some s'.kernel) (ofile : s'.ofile = s.ofile)
    (ftable : s'.ftable = s.ftable) (call : s'.call = s.call) (notFork : ¬ a.OfFork) (notExit : ∀ c, a ≠ .exit c) :
    Counted s' place := by
  refine counted.afterSection stepped ofile ftable ?_ (fun _ _ => rfl) ?_ (call ▸ counted.calls)
  · exact fun c q isExit => absurd isExit (notExit c)
  · exact fun q => counted.bystander stepped ofile call q (fun c _ => notExit c) (.inl notFork)

theorem outside_counted (a : Process.Action C) (s s' : Calls.State C n) (place : Fin n → Place n)
    (counted : Counted s place) (changed : outside addr a s = some s') : Counted s' place := by
  have byKernel : ∀ a : Process.Action C, section_ addr a s = some s' → ¬ a.OfFork → (∀ c, a ≠ .exit c) →
      Counted s' place := by
    intro a changed notFork notExit
    obtain ⟨kernel, stepped, rfl⟩ := Option.map_eq_some_iff.mp changed
    exact counted.scheduled stepped rfl rfl rfl notFork notExit
  cases a with
  | fork | forkCopy | forkReady | exit | wait => cases changed
  | userInit kstack =>
    simp only [outside, Option.bind_eq_bind, Option.bind_eq_some_iff] at changed
    obtain ⟨kernel, stepped, child, isChild, same⟩ := changed
    cases same
    obtain ⟨⟨_, event⟩, did, rfl⟩ := Option.map_eq_some_iff.mp stepped
    obtain ⟨moves, _⟩ := counted.kernel.perform did
    have unused : (s.kernel.table.proc child).state = .unused := by
      cases moves with
      | userInit started =>
        obtain ⟨_, started, kstack, links, unused, rfl⟩ := started
        simp only [Function.update_self, Thread.child, Option.some.injEq] at isChild
        exact isChild ▸ unused
    have clear : s.ofile child = fun _ => none := funext (counted.vacant child (.inl unused))
    have ofile : Function.update s.ofile child (fun _ => none) = s.ofile := by
      rw [← clear, Function.update_eq_self]
    exact counted.scheduled stepped ofile rfl rfl id fun _ isExit => by cases isExit
  | userCopy loop => exact byKernel _ changed id fun _ isExit => by cases isExit
  | userReady => exact byKernel _ changed id fun _ isExit => by cases isExit
  | scheduler c => exact byKernel _ changed id fun _ isExit => by cases isExit
  | yield c => exact byKernel _ changed id fun _ isExit => by cases isExit
  | sleep c chan => exact byKernel _ changed id fun _ isExit => by cases isExit
  | wakeup chan => exact byKernel _ changed id fun _ isExit => by cases isExit

/-- A machine after the boot on which no file is open yet, whatever processes it has and whatever their current
directories are. `sys_test`, which the first process calls first, leaves such a machine. -/
structure Started (addr : Fin n → UInt64) (s : Pool (Fin n) (Calls n) (Calls.State C n)) : Prop where
  kernel : ∃ boot acts, Boot boot ∧ run (Process.step addr) acts boot = some s.shared.kernel
  ofile : ∀ p fd, s.shared.ofile p fd = none
  ftable : ∀ f, (s.shared.ftable f).ref = 0
  idle : s.Idle

theorem Started.counted {s : Pool (Fin n) (Calls n) (Calls.State C n)} (start : Started addr s) :
    Counted s.shared fun _ => .user where
  kernel := by
    obtain ⟨boot, acts, booted, ran⟩ := start.kernel
    exact run_invariant (fun _ _ _ kept stepped => Consistent.step kept stepped) booted.consistent ran
  refs g := by
    rw [start.ftable g]
    refine (Finset.sum_eq_zero fun p _ => ?_).symm
    simp [share, tally, start.ofile p, weight_none, Place.balance]
  fits _ := trivial
  calls _ inCall := inCall.elim
  vacant p _ := start.ofile p

/-- While no process is in a call that changes descriptors, the references of every file are
its descriptors, so a file without a descriptor is free. At any time, a file that `filealloc`
finds has at most descriptors that an `exit` is about to clear. -/
theorem references_are_descriptors {acts : List (Pool.Action (Fin n) Call (Choice C) (Process.Action C))}
    {s t : Pool (Fin n) (Calls n) (Calls.State C n)} (start : Started addr s)
    (ran : run (rules addr sb devsw).step acts s = some t) :
    ((∀ p c, t.shared.call p = some c → Changing c → t.code p = .done ()) →
      ∀ f, (t.shared.ftable f).ref =
          (Finset.univ.filter fun q : Fin n × Fin nofile => t.shared.ofile q.1 q.2 = some f).card ∧
        ((t.shared.ftable f).ref ≠ 0 → ∃ p fd, t.shared.ofile p fd = some f)) ∧
    ∀ f ftable, t.shared.ftable.filealloc = (some f, ftable) → ∀ p fd, t.shared.ofile p fd = some f →
      t.shared.call p = some .exit ∧ t.code p ≠ .done () := by
  obtain ⟨place, counted, keeps⟩ := Threads.run_kept (@rules_enter C _ n addr sb devsw) outside_counted
    (fun _ _ _ => trivial)
    start.counted start.idle (fun _ => .inl rfl) ran
  have rests : ∀ p, t.code p = .done () → (place p).Resting := by
    intro p finished
    have mine := keeps p
    rwa [finished] at mine
  refine ⟨fun quiet f => ?_, fun f ftable found p fd own => ?_⟩
  · have settled : ∀ p, (place p).balance f = 0 := by
      intro p
      by_cases inCall : (place p).InCall
      case neg =>
        rw [Place.eq_user inCall]
        rfl
      case pos =>
        obtain ⟨c, called, changing⟩ := counted.calls p inCall
        rcases rests p (quiet p c called changing) with user | working
        · rw [user]
          rfl
        · rw [working]
          rfl
    have total : (t.shared.ftable f).ref = ∑ p, tally (t.shared.ofile p) f := by
      rw [counted.refs f]
      refine Finset.sum_congr rfl fun p _ => ?_
      rw [share, settled p, add_zero]
    rw [total, ← card_slots]
    refine ⟨rfl, fun some => ?_⟩
    obtain ⟨q, member⟩ := Finset.card_pos.mp (Nat.pos_of_ne_zero fun none => some (by rw [none]; rfl))
    exact ⟨q.1, q.2, (Finset.mem_filter.mp member).2⟩
  · obtain ⟨free, _⟩ := Ftable.filealloc_some found
    obtain ⟨fd', closed⟩ := counted.unreferenced free own
    have fits := counted.fits p
    rw [closed] at fits
    refine ⟨fits.2.1, fun finished => ?_⟩
    have resting := rests p finished
    rw [closed] at resting
    rcases resting with user | working
    · cases user
    · cases working

/-! ## A run -/

def oneProcess : List (Process.Action Bool) := [.userInit (some 4096), .userCopy false, .userReady, .scheduler false]

def startKernel : Process.Kernel Bool nproc :=
  (run (Process.step fun p => 4096 + p.val.toUInt64) oneProcess (bootKernel Bool nproc)).getD (bootKernel Bool nproc)

def firstProcess : Fin nproc := ⟨0, by decide⟩

def childProcess : Fin nproc := ⟨1, by decide⟩

def rootEntry : Fin ninode := ⟨0, ninode_pos⟩

def startState : Pool (Fin nproc) (Calls nproc) (Calls.State Bool nproc) where
  shared :=
    { kernel := startKernel
      ofile := fun _ _ => none
      cwd := fun p => if p = firstProcess then some rootEntry else none
      ftable := fun _ => File.unused
      machine :=
        ⟨Function.update Icache.init rootEntry { Fs.emptyFile ROOTINO fun _ => 0 with locked := false, type := T_DIR },
          Fs.emptyLog, Fs.usedStore⟩
      call := fun _ => none }
  code _ := .done ()

theorem started_startState : Started (fun p => 4096 + p.val.toUInt64) startState where
  kernel := by
    refine ⟨bootKernel Bool nproc, oneProcess, bootKernel_boot _ _, ?_⟩
    have runs : (run (Process.step fun p => 4096 + p.val.toUInt64) oneProcess (bootKernel Bool nproc)).isSome = true := by
      decide +kernel
    obtain ⟨kernel, ran⟩ := Option.isSome_iff_exists.mp runs
    change _ = some startKernel
    rw [startKernel, ran, Option.getD_some]
  ofile _ _ := rfl
  ftable _ := rfl
  idle _ := rfl

/-- The first process opens the root directory, duplicates the descriptor and forks; the child closes a descriptor. -/
def openDupFork : List (Pool.Action (Fin nproc) Call (Choice Bool) (Process.Action Bool)) :=
  [.enter firstProcess (.openat Calls.AT_FDCWD [slash] Calls.O_LARGEFILE)] ++
  List.replicate 12 (.answer firstProcess ⟨false, none⟩) ++ [.enter firstProcess (.dup 0)] ++
  List.replicate 3 (.answer firstProcess ⟨false, none⟩) ++ [.enter firstProcess .fork] ++
  List.replicate 40 (.answer firstProcess ⟨false, some 8192⟩) ++
  [.outside (.scheduler true), .enter childProcess (.close 0)] ++
  List.replicate 3 (.answer childProcess ⟨true, none⟩)

def openRules : Threads (Fin nproc) Call (Choice Bool) (Process.Action Bool) (Calls nproc) (Calls.State Bool nproc) :=
  rules (fun p => 4096 + p.val.toUInt64) Mkfs.superblock Fs.noDevices

theorem references_are_descriptors_open : ∃ t, run openRules.step openDupFork startState = some t ∧
    (t.shared.ftable ⟨0, by decide⟩).ref = 3 ∧
    ((∀ p c, t.shared.call p = some c → Changing c → t.code p = .done ()) →
      ∀ f, (t.shared.ftable f).ref =
          (Finset.univ.filter fun q : Fin nproc × Fin nofile => t.shared.ofile q.1 q.2 = some f).card ∧
        ((t.shared.ftable f).ref ≠ 0 → ∃ p fd, t.shared.ofile p fd = some f)) ∧
    ∀ f ftable, t.shared.ftable.filealloc = (some f, ftable) → ∀ p fd, t.shared.ofile p fd = some f →
      t.shared.call p = some .exit ∧ t.code p ≠ .done () := by
  have three : (run openRules.step openDupFork startState).any
      (fun t => (t.shared.ftable ⟨0, by decide⟩).ref = 3) = true := by decide +kernel
  obtain ⟨t, ran, refs⟩ := (Option.any_eq_true _ _).mp three
  obtain ⟨settled, free⟩ := references_are_descriptors started_startState ran
  exact ⟨t, ran, of_decide_eq_true refs, settled, free⟩

end Xv6.Descriptors
