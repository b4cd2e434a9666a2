import Xv6.Exec.Segments
import Xv6.Exec.Frame

/-! Where the bytes of an executable go.

They go to pages of the new address space if and only if the part that the file has of each
segment that is loaded ends below the end of the pages. The end of a segment in memory says
nothing about it: `p_filesz` is not compared with `p_memsz`, and the sum of `p_vaddr` and
`p_memsz` may wrap.
-/

set_option autoImplicit false

namespace Xv6.Exec

open Library Vm Fs

namespace Executable

theorem confines_iff (x : Executable) (total i : Nat) : x.Confines total i ↔
    (x.extent total i).all (fun e => (e.growFor total (x.header i)).all fun e' =>
      decide (x.Readable i → (x.header i).p_type = PT_LOAD → x.Within (x.header i) e')) = true := by
  cases isExtent : x.extent total i with
  | none => exact iff_of_true (fun e e' known => absurd (isExtent.symm.trans known) (by simp)) rfl
  | some e =>
    cases grows : e.growFor total (x.header i) with
    | none =>
      refine iff_of_true (fun e₁ e' known _ _ more => ?_) (by simp [grows])
      obtain rfl := Option.some.inj (isExtent.symm.trans known)
      exact absurd (grows.symm.trans more) (by simp)
    | some e' =>
      simp only [Option.all_some, grows, decide_eq_true_eq]
      constructor
      · exact fun confines readable loads => confines e e' isExtent readable loads grows
      · intro within e₁ e₂ known readable loads more
        obtain rfl := Option.some.inj (isExtent.symm.trans known)
        obtain rfl := Option.some.inj (grows.symm.trans more)
        exact within readable loads

instance (x : Executable) (total i : Nat) : Decidable (x.Confines total i) :=
  decidable_of_iff _ (x.confines_iff total i).symm

/-- Each segment that is loaded ends, as far as the file goes, below the end of the pages. -/
def Contained (x : Executable) (total : Nat) : Prop :=
  ehdrSize ≤ x.size → ∀ i, i < x.ehdr.e_phnum.toNat → x.Confines total i

instance (x : Executable) (total : Nat) : Decidable (x.Contained total) :=
  inferInstanceAs (Decidable (_ → _))

end Executable

section
variable {kernel : Kernel} {path : List UInt8} {argv : List (List UInt8)} {s : State} {free : List UInt64}

theorem confined_commit (path : List UInt8) (eh : Ehdr) (pgdir root : UInt64) (top : Int32) (argc : Nat) (sp : UInt64)
    (s : State) : (commit path eh pgdir top argc sp).Along (handle kernel) (Confined kernel root) s :=
  confined_of_issues (replaces_commit path eh pgdir top argc sp) (fun _ _ _ _ => id) s

theorem confined_enter (eh : Ehdr) (pgdir root : UInt64) (sz : Int32) (s : State) :
    (enter path argv eh pgdir sz).Along (handle kernel) (Confined kernel root) s := by
  refine Program.along_bind.mpr ⟨confined_of_pushes pushes_allocStack s, fun top t _ => ?_⟩
  cases top with
  | none => trivial
  | some top =>
    refine Program.along_bind.mpr ⟨confined_of_pushes pushes_pushArguments t, fun pushed u _ => ?_⟩
    cases pushed with
    | none => trivial
    | some pushed =>
      obtain ⟨argc, sp⟩ := pushed
      exact Program.along_bind.mpr ⟨confined_commit path eh pgdir root top argc sp u, fun _ _ _ => trivial⟩

theorem execve_along {root : UInt64} : (execve path argv).Along (handle kernel) (Confined kernel root) s ↔
    ∀ ip t, (openExecutable path).run (handle kernel) s = some (some ip, t) →
      (loadImage ip).Along (handle kernel) (Confined kernel root) t := by
  rw [execve, Program.along_bind]
  refine (and_iff_right (confined_of_files (files_openExecutable path) s)).trans ⟨fun all ip t opened => ?_, ?_⟩
  · exact (Program.along_bind.mp (all (some ip) t opened)).1
  · intro all found t opened
    cases found with
    | none => trivial
    | some ip =>
      refine Program.along_bind.mpr ⟨all ip t opened, fun image u _ => ?_⟩
      cases image with
      | none => trivial
      | some image =>
        obtain ⟨eh, pgdir, sz⟩ := image
        refine Program.along_bind.mpr ⟨confined_of_files (files_fs _) u, fun _ v _ => ?_⟩
        exact Program.along_bind.mpr ⟨confined_of_files files_endOp v, fun _ w _ => confined_enter eh pgdir root sz w⟩

/-- The bytes of an executable go to pages of the new address space if and only if its segments end
below the end of the pages. The new page table is the first free page. -/
theorem execve_confined_iff (kernel : Kernel) (path : List UInt8) (argv : List (List UInt8))
    (heap : Free s.memory free) (low : P2V 0 ∉ free)
    (regular : ∀ ip t, (openExecutable path).run (handle kernel) s = some (some ip, t) → Regular t.machine ip) :
    (execve path argv).Along (handle kernel) (Confined kernel s.memory.free_list) s ↔
      ∀ ip t, (openExecutable path).run (handle kernel) s = some (some ip, t) →
        (executable t.machine ip).Contained (free.length + 1) := by
  rw [execve_along]
  refine forall_congr' fun ip => forall_congr' fun t => forall_congr' fun opened => ?_
  have memory := (files_run (files_openExecutable path) opened).2
  rw [← memory] at heap ⊢
  exact loadImage_confined kernel heap low (regular ip t opened)

end

/-! ## A disk with an executable -/

def putPhdr (b : Nat → UInt8) (offset : Nat) (ph : Phdr) : Nat → UInt8 :=
  let b := putWord (putWord b offset ph.p_type.toUInt64) (offset + 8) ph.p_offset
  let b := putWord (putWord b (offset + 16) ph.p_vaddr) (offset + 32) ph.p_filesz
  putWord b (offset + 40) ph.p_memsz

def fileBytes (segments : List Phdr) : Nat → UInt8 :=
  let b := putWord (putWord (putWord (fun _ => 0) 0 0x464C457F) 32 64) 56 (UInt64.ofNat segments.length)
  segments.zipIdx.foldl (fun b (ph, i) => putPhdr b (ehdrSize + phdrSize * i) ph) b

def fileDisk (bytes : Nat → UInt8) : UInt32 → Block := fun b =>
  if b = iblock ROOTINO Mkfs.superblock then
    (Block.zero.setDinode (inodeIndex ROOTINO) ⟨T_DIR, 0, 0, 1, 16, fun k => if k.val = 0 then 61 else 0⟩).setDinode
      (inodeIndex 2) ⟨T_FILE, 0, 0, 1, 512, fun k => if k.val = 0 then 62 else 0⟩
  else if b = 61 then fun k => if k.val = 0 then 2 else if k.val = 2 then 97 else 0
  else if b = 62 then fun k => bytes k.val
  else Block.zero

def idleWith (segments : List Phdr) : State :=
  { idleProcess with machine := ⟨Icache.init, Fs.emptyLog, Store.boot (fileDisk (fileBytes segments))⟩ }

def filePath : List UInt8 := [slash, 97]

theorem idle_free : Free idleProcess.memory tenAddresses := by
  refine free_tenPages.congr (fun a isFree => ?_) rfl rfl
  have other : a ≠ P2V 0x200000 := by
    rintro rfl
    exact absurd isFree (by decide +kernel)
  funext i
  exact if_neg other

theorem low_free : P2V 0 ∉ tenAddresses := by decide +kernel

theorem opened_all {kernel : Kernel} {path : List UInt8} {s : State} (holds : Fin ninode → State → Prop)
    [∀ ip t, Decidable (holds ip t)]
    (all : ((openExecutable path).run (handle kernel) s).all (fun out => out.1.all fun ip =>
      decide (holds ip out.2)) = true)
    {ip : Fin ninode} {t : State} (opened : (openExecutable path).run (handle kernel) s = some (some ip, t)) :
    holds ip t := by
  rw [opened] at all
  exact of_decide_eq_true all

def shortSegment : Phdr := ⟨PT_LOAD, 0, 0, 10, 20⟩

theorem execve_confined_iff_file : (execve filePath []).Along (handle plainKernel) (Confined plainKernel (P2V 0x100000))
    (idleWith [shortSegment]) := by
  have all : ((openExecutable filePath).run (handle plainKernel) (idleWith [shortSegment])).all (fun out =>
    out.1.all fun ip =>
      decide (Regular out.2.machine ip ∧ (executable out.2.machine ip).Contained 11)) = true := by
    decide +kernel
  refine (execve_confined_iff (s := idleWith [shortSegment]) plainKernel filePath [] idle_free low_free ?_).mpr ?_
  · exact fun ip t opened => (opened_all (fun ip t => Regular t.machine ip ∧ (executable t.machine ip).Contained 11)
      all opened).1
  · exact fun ip t opened => (opened_all (fun ip t => Regular t.machine ip ∧ (executable t.machine ip).Contained 11)
      all opened).2

def wrappedSegment : Phdr := ⟨PT_LOAD, 0, 0x2000, 1, 0 - 0x1FFF⟩

/-- Its byte goes to the first page of physical memory. -/
theorem loaded_outside : ¬ ∀ (kernel : Kernel) (path : List UInt8) (argv : List (List UInt8)) (s : State)
    (free : List UInt64),
    Free s.memory free → P2V 0 ∉ free →
    (∀ ip t, (openExecutable path).run (handle kernel) s = some (some ip, t) → Regular t.machine ip) →
    (execve path argv).Along (handle kernel) (Confined kernel s.memory.free_list) s := by
  intro always
  have found : ((openExecutable filePath).run (handle plainKernel) (idleWith [wrappedSegment])).any (fun out =>
      out.1.any fun ip => decide (Regular out.2.machine ip ∧ ¬ (executable out.2.machine ip).Contained 11)) =
        true := by
    decide +kernel
  obtain ⟨⟨ip, t⟩, opened, isFile⟩ := (Option.any_eq_true _ _).mp found
  obtain ⟨ip, rfl, isFile⟩ := (Option.any_eq_true _ _).mp isFile
  obtain ⟨regular, outside⟩ := of_decide_eq_true isFile
  have along := always plainKernel filePath []
    (idleWith [wrappedSegment]) tenAddresses idle_free low_free fun ip' t' opened' => by
    cases opened.symm.trans opened'
    exact regular
  have memory := (files_run (files_openExecutable filePath) opened).2
  have loads := execve_along.mp along ip t opened
  rw [← memory] at loads
  exact outside ((loadImage_confined plainKernel (memory ▸ idle_free) low_free regular).mp loads)

end Xv6.Exec
