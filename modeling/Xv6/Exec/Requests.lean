import Xv6.Exec.System

/-! The kinds of requests that the parts of `execve` make.

Finding the executable and putting it back is work of the file system; loading it reads one
inode and stores to memory; pushing the arguments does not touch the file system. Only the
last part changes `struct proc` and the trap frame.
-/

set_option autoImplicit false

namespace Xv6.Exec

open Library Vm

def Files : Exec.Request → Prop
  | .inodes _ | .beginOp | .endSection | .commit | .committed | .cwd => True
  | _ => False

def Loads (ip : Fin ninode) : Exec.Request → Prop
  | .inodes (.readi i ..) | .readi i .. => i = ip
  | .kalloc | .memset _ | .uvmAlloc .. | .pgdirIwalk .. | .panic => True
  | _ => False

def Replaces : Exec.Request → Prop
  | .tf | .setTf _ | .proc _ | .setProc .. | .lttbr0 _ | .vmFree _ => True
  | _ => False

def Pushes : Exec.Request → Prop
  | .uvmAlloc .. | .pgdirIwalk .. | .memcpy .. | .ustack _ => True
  | _ => False

section
variable {A : Type} {ip : Fin ninode} {pgdir va : UInt64}

theorem files_fs (p : Program Inodes A) : (fs p).Issues Files := by
  induction p with
  | done value => trivial
  | call r next ih => exact ⟨trivial, ih⟩

theorem files_endOp : endOp.Issues Files := by
  refine Program.Issues.bind (Program.issues_request trivial) fun cmt => ?_
  cases cmt with
  | false => trivial
  | true => exact Program.Issues.bind (Program.issues_request trivial) fun _ => Program.issues_request trivial

theorem files_openExecutable (path : List UInt8) : (openExecutable path).Issues Files := by
  refine Program.Issues.bind (Program.issues_request trivial) fun _ =>
    Program.Issues.bind (Program.issues_request trivial) fun dir => (files_fs _).bind fun found => ?_
  cases found with
  | none => exact files_endOp.bind fun _ => Program.issues_pure
  | some ip => exact (files_fs _).bind fun _ => Program.issues_pure

/-! ## Loading -/

theorem loads_fs_readi (buffer : Nat → UInt8) (off n : UInt64) :
    (fs (Inodes.readi ip buffer off n)).Issues (Loads ip) :=
  ⟨rfl, fun _ => trivial⟩

theorem issues_loadseg {ok : Exec.Request → Prop} (walks : ∀ pgdir va, ok (.pgdirIwalk pgdir va))
    (reads : ∀ dst off n, ok (.readi ip dst off n)) (panics : ok .panic) {off sz : UInt32} :
    (loadseg pgdir va ip off sz).Issues ok := by
  have pages : ∀ turns (va : UInt64) (off sz i : UInt32), (loadPages pgdir va ip off sz turns i).Issues ok := by
    intro turns va off sz
    induction turns with
    | zero => exact fun _ => ⟨panics, fun reply => reply.elim⟩
    | succ turns ih =>
      intro i
      rw [loadPages]
      split
      · refine Program.Issues.bind (Program.issues_request (walks ..)) fun pa =>
          Program.Issues.bind (Program.issues_request (reads ..)) fun r => ?_
        split
        · exact Program.issues_pure
        · exact ih _
      · exact Program.issues_pure
  refine Program.Issues.bind (Program.issues_request (walks ..)) fun pa =>
    Program.Issues.bind (Program.issues_request (reads ..)) fun r => ?_
  split
  · exact Program.issues_pure
  · exact pages ..

theorem issues_allocTo {ok : Exec.Request → Prop} (all : ∀ pgdir oldsz newsz, ok (.uvmAlloc pgdir oldsz newsz))
    (sz : Int32) (newsz : UInt64) : (allocTo pgdir sz newsz).Issues ok := by
  refine Program.Issues.bind (Program.issues_request (all ..)) fun r => ?_
  dsimp only
  split
  · exact Program.issues_pure
  · exact Program.issues_pure

theorem issues_growFor {ok : Exec.Request → Prop} (all : ∀ pgdir oldsz newsz, ok (.uvmAlloc pgdir oldsz newsz))
    (ph : Phdr) (sz : Int32) : (growFor pgdir ph sz).Issues ok := by
  refine (issues_allocTo all _ _).bind fun sz => ?_
  cases sz with
  | none => exact Program.issues_pure
  | some sz =>
    dsimp only
    rw [growExtra]
    split
    · exact issues_allocTo all _ _
    · exact Program.issues_pure

theorem loads_loadSegment {ph : Phdr} {sz : Int32} : (loadSegment ip pgdir ph sz).Issues (Loads ip) := by
  refine (issues_growFor (fun _ _ _ => trivial) _ _).bind fun sz => ?_
  cases sz with
  | none => exact Program.issues_pure
  | some sz =>
    refine (issues_loadseg (fun _ _ => trivial) (fun _ _ _ => rfl) trivial).bind fun whole => ?_
    cases whole with
    | false => exact Program.issues_pure
    | true => exact Program.issues_pure

theorem loads_loadTurn {eh : Ehdr} (i : Nat) (sz : Int32) : (loadTurn ip pgdir eh i sz).Issues (Loads ip) := by
  rw [loadTurn]
  refine (loads_fs_readi _ _ _).bind fun (r, b) => ?_
  exact Program.Issues.ite Program.issues_pure (Program.Issues.ite Program.issues_pure loads_loadSegment)

theorem loads_loadSegments {eh : Ehdr} : (loadSegments ip pgdir eh).Issues (Loads ip) :=
  Program.issues_iterate loads_loadTurn _ _

theorem loads_loadImage : (loadImage ip).Issues (Loads ip) := by
  rw [loadImage]
  refine (loads_fs_readi _ _ _).bind fun (r, b) => ?_
  refine Program.Issues.ite Program.issues_pure ?_
  refine Program.Issues.bind (Program.issues_request trivial) fun pgdir => Program.Issues.ite Program.issues_pure ?_
  refine Program.Issues.bind (Program.issues_request trivial) fun _ => loads_loadSegments.bind fun sz => ?_
  cases sz with
  | none => exact Program.issues_pure
  | some sz => exact Program.issues_pure

/-! ## Pushing -/

theorem pushes_allocStack {sz : Int32} : (allocStack pgdir sz).Issues Pushes :=
  issues_allocTo (fun _ _ _ => trivial) _ _

theorem pushes_copyoutFrom (turns : Nat) (dstva : UInt32) (src : Nat → UInt8) (len : UInt32) :
    (copyoutFrom pgdir turns dstva src len).Issues Pushes := by
  induction turns generalizing dstva src len with
  | zero => trivial
  | succ turns ih =>
    rw [copyoutFrom]
    split
    · exact Program.Issues.bind (Program.issues_request trivial) fun pa =>
        Program.Issues.bind (Program.issues_request trivial) fun _ => ih _ _ _
    · exact Program.issues_pure

theorem pushes_store (u : Nat → UInt64) (i : Nat) (value : UInt64) : (store u i value).Issues Pushes :=
  Program.Issues.bind (Program.issues_request trivial) fun _ => Program.issues_pure

theorem pushes_pushStrings (list : List (List UInt8)) (argc : Nat) (sp : UInt64) (u : Nat → UInt64) :
    (pushStrings pgdir list argc sp u).Issues Pushes := by
  induction list generalizing argc sp u with
  | nil => trivial
  | cons s rest ih =>
    exact (pushes_copyoutFrom _ _ _ _).bind fun _ => (pushes_store _ _ _).bind fun _ => ih _ _ _

theorem pushes_storeVector (u : Nat → UInt64) (argc : Nat) : (storeVector u argc).Issues Pushes :=
  (pushes_store _ _ _).bind fun _ => (pushes_store _ _ _).bind fun _ => (pushes_store _ _ _).bind fun _ =>
    (pushes_store _ _ _).bind fun _ => (pushes_store _ _ _).bind fun _ => (pushes_store _ _ _).bind fun _ =>
    pushes_store _ _ _

theorem pushes_pushArguments {argv : List (List UInt8)} {sz : Int32} : (pushArguments pgdir argv sz).Issues Pushes :=
  (pushes_pushStrings _ _ _ _).bind fun _ => (pushes_storeVector _ _).bind fun _ =>
    (pushes_copyoutFrom _ _ _ _).bind fun _ => Program.Issues.ite Program.issues_pure Program.issues_pure

theorem replaces_commit (path : List UInt8) (eh : Ehdr) (pgdir : UInt64) (top : Int32) (argc : Nat) (sp : UInt64) :
    (commit path eh pgdir top argc sp).Issues Replaces :=
  ⟨trivial, fun _ => ⟨trivial, fun _ => ⟨trivial, fun _ => ⟨trivial, fun _ => ⟨trivial, fun _ => ⟨trivial, fun _ =>
    ⟨trivial, fun _ => ⟨trivial, fun _ => ⟨trivial, fun _ => ⟨trivial, fun _ => ⟨trivial, fun _ => trivial⟩⟩⟩⟩⟩⟩⟩⟩⟩⟩⟩

/-! ## What the requests leave alone -/

structure SameProcess (s t : State) : Prop where
  proc : t.proc = s.proc
  tf : t.tf = s.tf
  ttbr0 : t.ttbr0 = s.ttbr0

theorem SameProcess.refl (s : State) : SameProcess s s := ⟨rfl, rfl, rfl⟩

theorem SameProcess.trans {s t u : State} (first : SameProcess s t) (second : SameProcess t u) : SameProcess s u :=
  ⟨second.proc.trans first.proc, second.tf.trans first.tf, second.ttbr0.trans first.ttbr0⟩

variable {kernel : Kernel} {s t u : State} {r : Exec.Request} {reply : Exec.Reply r} {a : A} {p : Program Exec A}

theorem files_keep (isFiles : Files r) (answered : handle kernel r s = some (reply, t)) :
    SameProcess s t ∧ t.memory = s.memory := by
  cases r with
  | inodes _ | beginOp | commit =>
    obtain ⟨_, _, result⟩ := Option.map_eq_some_iff.mp answered
    cases result
    exact ⟨⟨rfl, rfl, rfl⟩, rfl⟩
  | endSection | committed | cwd =>
    cases answered
    exact ⟨⟨rfl, rfl, rfl⟩, rfl⟩
  | _ => exact absurd isFiles id

theorem loads_keep (isLoad : Loads ip r) (answered : handle kernel r s = some (reply, t)) : SameProcess s t := by
  cases r with
  | inodes _ | kalloc | uvmAlloc | pgdirIwalk | readi =>
    obtain ⟨_, _, result⟩ := Option.map_eq_some_iff.mp answered
    cases result
    exact ⟨rfl, rfl, rfl⟩
  | memset =>
    cases answered
    exact ⟨rfl, rfl, rfl⟩
  | panic => cases answered
  | _ => exact absurd isLoad id

theorem pushes_keep (isPush : Pushes r) (answered : handle kernel r s = some (reply, t)) :
    SameProcess s t ∧ t.machine = s.machine := by
  cases r with
  | uvmAlloc | pgdirIwalk =>
    obtain ⟨_, _, result⟩ := Option.map_eq_some_iff.mp answered
    cases result
    exact ⟨⟨rfl, rfl, rfl⟩, rfl⟩
  | memcpy =>
    cases answered
    exact ⟨⟨rfl, rfl, rfl⟩, rfl⟩
  | ustack i =>
    rw [handle] at answered
    split at answered
    · cases answered
      exact ⟨⟨rfl, rfl, rfl⟩, rfl⟩
    · cases answered
  | _ => exact absurd isPush id

theorem files_run (issues : p.Issues Files) (ran : p.run (handle kernel) s = some (a, t)) :
    SameProcess s t ∧ t.memory = s.memory := by
  refine issues.invariant (fun t => SameProcess s t ∧ t.memory = s.memory) ?_ ⟨SameProcess.refl s, rfl⟩ ran
  rintro r u reply v isFiles ⟨same, memory⟩ answered
  obtain ⟨kept, stays⟩ := files_keep isFiles answered
  exact ⟨same.trans kept, stays.trans memory⟩

theorem loads_run (issues : p.Issues (Loads ip)) (ran : p.run (handle kernel) s = some (a, t)) : SameProcess s t := by
  refine issues.invariant (fun t => SameProcess s t) ?_ (SameProcess.refl s) ran
  exact fun r u reply v isLoad same answered => same.trans (loads_keep isLoad answered)

theorem pushes_run (issues : p.Issues Pushes) (ran : p.run (handle kernel) s = some (a, t)) :
    SameProcess s t ∧ t.machine = s.machine := by
  refine issues.invariant (fun t => SameProcess s t ∧ t.machine = s.machine) ?_ ⟨SameProcess.refl s, rfl⟩ ran
  rintro r u reply v isPush ⟨same, machine⟩ answered
  obtain ⟨kept, stays⟩ := pushes_keep isPush answered
  exact ⟨same.trans kept, stays.trans machine⟩

/-! ## The ways through `execve` -/

-- `iunlockput(ip); end_op();`
def close (ip : Fin ninode) : Program Exec Unit := do
  fs (Inodes.iunlockput ip)
  endOp

theorem files_close (ip : Fin ninode) : (close ip).Issues Files := (files_fs _).bind fun _ => files_endOp

/-- A call that returns. -/
inductive Outcome (kernel : Kernel) (path : List UInt8) (argv : List (List UInt8)) (s : State) :
    Int → State → Prop where
  | notFound {t : State} (absent : (openExecutable path).run (handle kernel) s = some (none, t)) :
    Outcome kernel path argv s (-1) t
  | notLoaded {ip : Fin ninode} {t u : State}
      (opened : (openExecutable path).run (handle kernel) s = some (some ip, t))
    (failed : (loadImage ip).run (handle kernel) t = some (none, u)) : Outcome kernel path argv s (-1) u
  | noStack {ip : Fin ninode} {t u v w : State} {eh : Ehdr} {pgdir : UInt64} {sz : Int32}
    (opened : (openExecutable path).run (handle kernel) s = some (some ip, t))
    (loaded : (loadImage ip).run (handle kernel) t = some (some (eh, pgdir, sz), u))
    (closed : (close ip).run (handle kernel) u = some ((), v))
    (failed : (allocStack pgdir sz).run (handle kernel) v = some (none, w)) : Outcome kernel path argv s (-1) w
  | done {ip : Fin ninode} {t u v w x y : State} {eh : Ehdr} {pgdir sp : UInt64} {sz top : Int32} {argc : Nat}
    (opened : (openExecutable path).run (handle kernel) s = some (some ip, t))
    (loaded : (loadImage ip).run (handle kernel) t = some (some (eh, pgdir, sz), u))
    (closed : (close ip).run (handle kernel) u = some ((), v))
    (stack : (allocStack pgdir sz).run (handle kernel) v = some (some top, w))
    (pushed : (pushArguments pgdir argv top).run (handle kernel) w = some (some (argc, sp), x))
    (committed : (commit path eh pgdir top argc sp).run (handle kernel) x = some ((), y)) :
    Outcome kernel path argv s argc y

theorem copyoutFrom_zero {turns : Nat} {dstva len : UInt32} {src : Nat → UInt8} {result : Int}
    (ran : (copyoutFrom pgdir turns dstva src len).run (handle kernel) s = some (result, t)) : result = 0 := by
  induction turns generalizing dstva src len s with
  | zero =>
    cases ran
    rfl
  | succ turns ih =>
    rw [copyoutFrom] at ran
    split at ran
    · obtain ⟨pa, u, _, ran⟩ := Program.run_bind_eq_some.mp ran
      obtain ⟨_, v, _, ran⟩ := Program.run_bind_eq_some.mp ran
      exact ih ran
    · cases ran
      rfl

theorem pushArguments_some {argv : List (List UInt8)} {sz : Int32}
    (ran : (pushArguments pgdir argv sz).run (handle kernel) s = some (none, t)) : False := by
  obtain ⟨⟨argc, sp, u⟩, _, _, ran⟩ := Program.run_bind_eq_some.mp ran
  obtain ⟨v, _, _, ran⟩ := Program.run_bind_eq_some.mp ran
  obtain ⟨result, _, copied, ran⟩ := Program.run_bind_eq_some.mp ran
  have isZero := copyoutFrom_zero copied
  subst isZero
  cases ran

theorem execve_outcome {path : List UInt8} {argv : List (List UInt8)} {result : Int}
    (ran : (execve path argv).run (handle kernel) s = some (result, t)) : Outcome kernel path argv s result t := by
  obtain ⟨found, s₁, opened, ran⟩ := Program.run_bind_eq_some.mp ran
  cases found with
  | none =>
    cases ran
    exact .notFound opened
  | some ip =>
    obtain ⟨image, s₂, loaded, ran⟩ := Program.run_bind_eq_some.mp ran
    cases image with
    | none =>
      cases ran
      exact .notLoaded opened loaded
    | some image =>
      obtain ⟨eh, pgdir, sz⟩ := image
      obtain ⟨_, s₃, put, ran⟩ := Program.run_bind_eq_some.mp ran
      obtain ⟨_, s₄, ended, ran⟩ := Program.run_bind_eq_some.mp ran
      have closed : (close ip).run (handle kernel) s₂ = some ((), s₄) :=
        Program.run_bind_eq_some.mpr ⟨(), s₃, put, ended⟩
      obtain ⟨stack, s₅, allocated, ran⟩ := Program.run_bind_eq_some.mp ran
      cases stack with
      | none =>
        cases ran
        exact .noStack opened loaded closed allocated
      | some top =>
        obtain ⟨pushed, s₆, arguments, ran⟩ := Program.run_bind_eq_some.mp ran
        cases pushed with
        | none => exact absurd arguments pushArguments_some
        | some pushed =>
          obtain ⟨argc, sp⟩ := pushed
          obtain ⟨_, s₇, committed, ran⟩ := Program.run_bind_eq_some.mp ran
          cases ran
          exact .done opened loaded closed allocated arguments committed

end

end Xv6.Exec
