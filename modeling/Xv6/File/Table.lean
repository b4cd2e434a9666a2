import Xv6.Fs.Icache
import Xv6.Syscall.Arguments

/-! The file table of `kern/file.c`.

A function of this module is what happens under `ftable.lock`, and `fdalloc` is the search
of a process in its own descriptors.
-/

set_option autoImplicit false

namespace Xv6

abbrev nfile : Nat := 100

inductive FileType where
  | none
  | pipe
  | inode
  deriving DecidableEq

structure File where
  type : FileType
  ref : Int
  readable : Bool
  writable : Bool
  ip : Option (Fin ninode)
  off : UInt64

abbrev Ftable : Type := Fin nfile → File

def File.unused : File := ⟨.none, 0, false, false, none, 0⟩

namespace Ftable

def free (t : Ftable) : Option (Fin nfile) := (List.finRange nfile).find? fun f => decide ((t f).ref = 0)

def filealloc (t : Ftable) : Option (Fin nfile) × Ftable :=
  match t.free with
  | some f => (some f, Function.update t f { t f with ref := 1 })
  | none => (none, t)

def filedup (t : Ftable) (f : Fin nfile) : Ftable := Function.update t f { t f with ref := (t f).ref + 1 }

def closed (x : File) : File := { x with ref := x.ref - 1, type := .none }

-- The section of `fileclose`, with the copy `fs` when that was the last reference.
def fileclose (t : Ftable) (f : Fin nfile) : Option File × Ftable :=
  if (t f).ref - 1 > 0 then (none, Function.update t f { t f with ref := (t f).ref - 1 })
  else (some (closed (t f)), Function.update t f (closed (t f)))

variable {t t' : Ftable} {f g : Fin nfile}

theorem filealloc_some (allocated : t.filealloc = (some f, t')) :
    (t f).ref = 0 ∧ t' = Function.update t f { t f with ref := 1 } := by
  unfold filealloc at allocated
  cases found : t.free with
  | none => simp [found] at allocated
  | some g =>
    rw [found] at allocated
    cases allocated
    have empty := List.find?_some found
    exact ⟨by simpa using empty, rfl⟩

theorem filealloc_none (full : t.filealloc = (none, t')) : t' = t := by
  unfold filealloc at full
  cases found : t.free with
  | some g => simp [found] at full
  | none =>
    rw [found] at full
    cases full
    rfl

theorem filedup_ref (g : Fin nfile) : (t.filedup f g).ref = (t g).ref + if g = f then 1 else 0 := by
  by_cases same : g = f
  · subst same
    simp [filedup]
  · simp [filedup, same]

theorem fileclose_entry (t : Ftable) (f : Fin nfile) :
    ∃ type, (t.fileclose f).2 = Function.update t f { t f with type := type, ref := (t f).ref - 1 } := by
  unfold fileclose
  split
  · exact ⟨(t f).type, rfl⟩
  · exact ⟨.none, rfl⟩

theorem fileclose_ref (g : Fin nfile) : ((t.fileclose f).2 g).ref = (t g).ref - if g = f then 1 else 0 := by
  obtain ⟨type, entry⟩ := fileclose_entry t f
  rw [entry]
  by_cases same : g = f
  · subst same
    simp
  · simp [same]

-- The type that `fileclose` looks at is the one that it has set itself.
theorem fileclose_type {fs : File} (last : (t.fileclose f).1 = some fs) : fs.type = .none := by
  unfold fileclose at last
  split at last <;> cases last
  rfl

end Ftable

namespace Syscall

def fdalloc {F : Type} (ofile : Fin nofile → Option F) (f : F) : Option (Fin nofile × (Fin nofile → Option F)) :=
  ((List.finRange nofile).find? fun fd => (ofile fd).isNone).map fun fd => (fd, Function.update ofile fd (some f))

theorem fdalloc_some {F : Type} {ofile ofile' : Fin nofile → Option F} {f : F} {fd : Fin nofile}
    (allocated : fdalloc ofile f = some (fd, ofile')) :
    ofile fd = none ∧ ofile' = Function.update ofile fd (some f) := by
  simp only [fdalloc, Option.map_eq_some_iff, Prod.mk.injEq] at allocated
  obtain ⟨_, found, rfl, rfl⟩ := allocated
  have empty := List.find?_some found
  exact ⟨by simpa using empty, rfl⟩

end Syscall

end Xv6
