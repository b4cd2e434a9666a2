import Xv6.Exec.Requests

/-! What a successful `execve` leaves alone in `struct proc`.

The path is copied to `name` with its whole length. After the 16 bytes of the array and four
bytes of padding come the open files.
-/

set_option autoImplicit false

namespace Xv6.Exec

open Library Vm

/-- The offset and the size of every field but `sz`, `pgdir` and `name`: `kstack`, `state`, `pid`,
`parent`, `tf`, `context`, `chan`, `killed`, `ofile`, `cwd`, `clist`, `plist`, `prio` and `intr`. -/
def otherFields : List (Nat × Nat) := [(16, 8), (24, 4), (28, 4), (32, 8), (40, 8), (48, 8), (56, 8), (64, 4),
    (88, 16 * 8),
  (216, 8), (224, 16), (240, 16), (256, 4), (260, 4)]

/-- No other field of the process has changed. -/
def FieldsKept (s t : State) : Prop :=
  ∀ field ∈ otherFields, ∀ i, field.1 ≤ i → i < field.1 + field.2 → t.proc i = s.proc i

/-- The path fits into `name` and the padding, or what it runs over has the same bytes already. -/
def NameFits (path : List UInt8) (s : State) : Prop :=
  path.length ≤ 20 ∨ ∀ k, 20 ≤ k → k < path.length → k < 196 → s.proc (nameOffset + k) = stringBytes path k

section
variable {kernel : Kernel} {path : List UInt8} {argv : List (List UInt8)} {s t : State}

-- The other fields are all of the structure up to `name` and after it.
theorem fieldsKept_iff : FieldsKept s t ↔
    ∀ i, (16 ≤ i ∧ i < 68 ∨ 88 ≤ i ∧ i < 264) → t.proc i = s.proc i := by
  constructor
  · intro kept i place
    have covered : ∃ field ∈ otherFields, field.1 ≤ i ∧ i < field.1 + field.2 := by
      simp only [otherFields, List.exists_mem_cons_iff, List.not_mem_nil, false_and, exists_false]
      omega
    obtain ⟨field, isOther, low, high⟩ := covered
    exact kept field isOther i low high
  · intro kept field isOther i low high
    simp only [otherFields, List.mem_cons, List.not_mem_nil, or_false] at isOther
    refine kept i ?_
    rcases isOther with rfl | rfl | rfl | rfl | rfl | rfl | rfl | rfl | rfl | rfl | rfl | rfl | rfl | rfl <;>
      simp only at low high <;> omega

theorem commit_proc {eh : Ehdr} {pgdir sp : UInt64} {top : Int32} {argc : Nat}
    (ran : (commit path eh pgdir top argc sp).run (handle kernel) s = some ((), t)) :
    t.proc = putBytes (putBytes (putBytes s.proc nameOffset (stringBytes path) path.length) szOffset
      (byteOf (extend top)) 8) pgdirOffset (byteOf pgdir) 8 := by
  rw [run_commit] at ran
  obtain ⟨memory, _, result⟩ := Option.map_eq_some_iff.mp ran
  cases result
  rfl

/-- After a successful call the other fields are as before exactly when the name fits. -/
theorem execve_fields_iff {r : Int} (ran : (execve path argv).run (handle kernel) s = some (r, t))
    (success : r ≠ -1) :
    FieldsKept s t ↔ NameFits path s := by
  cases execve_outcome ran with
  | notFound | notLoaded | noStack => exact absurd rfl success
  | done opened loaded closed stack pushed committed =>
    have proc := (files_run (files_openExecutable path) opened).1.trans
      ((loads_run loads_loadImage loaded).trans ((files_run (files_close _) closed).1.trans
        ((pushes_run pushes_allocStack stack).1.trans (pushes_run pushes_pushArguments pushed).1)))
    have final := commit_proc committed
    rw [proc.proc] at final
    have byte : ∀ i, (16 ≤ i ∧ i < 68 ∨ 88 ≤ i ∧ i < 264) →
        t.proc i = if 68 ≤ i ∧ i < 68 + path.length then stringBytes path (i - 68) else s.proc i := by
      intro i place
      rw [final, putBytes_outside (by rw [pgdirOffset]; omega), putBytes_outside (by rw [szOffset]; omega)]
      rfl
    rw [fieldsKept_iff]
    constructor
    · intro kept
      refine .inr fun k low less inside => ?_
      have same := kept (68 + k) (by omega)
      rw [byte (68 + k) (by omega), if_pos ⟨by omega, by omega⟩, Nat.add_sub_cancel_left] at same
      exact same.symm
    · intro fits i place
      rw [byte i place]
      split
      · next inside =>
        rcases fits with short | same
        · omega
        · have equal := same (i - 68) (by omega) (by omega) (by omega)
          rw [nameOffset, Nat.add_sub_of_le inside.1] at equal
          exact equal.symm
      · rfl

/-! A root directory of 64 zero bytes is an executable without segments. -/

def zeroRoot : Dinode := ⟨T_DIR, 0, 0, 1, 64, fun k => if k = 0 then 61 else 0⟩

def zeroDisk : UInt32 → Block := fun b =>
  if b = iblock ROOTINO Mkfs.superblock then Block.zero.setDinode (inodeIndex ROOTINO) zeroRoot else Block.zero

def plainKernel : Kernel where
  sb := Mkfs.superblock
  devsw _ := ⟨none, none⟩
  kend := P2V 0x90000
  inodeAt _ := none

def idleProcess : State where
  machine := ⟨Icache.init, Fs.emptyLog, Store.boot zeroDisk⟩
  memory := { tenPages with word := fun a i => if a = P2V 0x200000 then 0 else tenPages.word a i }
  proc := putWord (fun _ => 0) pgdirOffset (P2V 0x200000)
  tf := ⟨0, 0, 0, 0⟩
  ttbr0 := V2P (P2V 0x200000)

theorem execve_fields_iff_root : ∃ t, (execve [slash] []).run (handle plainKernel) idleProcess = some (0, t) ∧
    FieldsKept idleProcess t := by
  have runs : ((execve [slash] []).run (handle plainKernel) idleProcess).any (fun out => out.1 = 0) = true := by
    decide +kernel
  obtain ⟨⟨r, t⟩, ran, isZero⟩ := (Option.any_eq_true _ _).mp runs
  simp only [decide_eq_true_eq] at isZero
  subst isZero
  exact ⟨t, ran, (execve_fields_iff ran (by decide)).mpr (.inl (by decide))⟩

def longPath : List UInt8 := List.replicate 24 slash

theorem open_files_overwritten : ¬ ∀ (kernel : Kernel) (path : List UInt8) (argv : List (List UInt8))
    (s t : State) (r : Int),
    (execve path argv).run (handle kernel) s = some (r, t) → r ≠ -1 → FieldsKept s t := by
  intro always
  have runs : ((execve longPath []).run (handle plainKernel) idleProcess).any
      (fun out => out.1 = 0 ∧ out.2.proc 88 ≠ idleProcess.proc 88) = true := by
    decide +kernel
  obtain ⟨⟨r, t⟩, ran, result⟩ := (Option.any_eq_true _ _).mp runs
  simp only [decide_eq_true_eq] at result
  obtain ⟨isZero, changed⟩ := result
  subst isZero
  refine changed (always _ _ _ _ t 0 ran (by decide) (88, 16 * 8) ?_ 88 le_rfl (by decide))
  decide

end

end Xv6.Exec
