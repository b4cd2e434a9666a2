import Xv6.Exec.Reading

/-! The loop over the program headers.

What the loop does to the address space is computed from the bytes of the file and from the
number of free pages: `Executable.extent` follows it turn by turn. The loop gets past a turn
if and only if the computation does, and the address space then has that extent.
-/

set_option autoImplicit false

namespace Xv6.Exec

open Library Vm Fs

/-! ## Headers -/

theorem Ehdr.ofBytes_congr {b c : Nat → UInt8} (same : ∀ k, k < ehdrSize → b k = c k) :
    Ehdr.ofBytes b = Ehdr.ofBytes c := by
  rw [ehdrSize] at same
  have word : ∀ offset, offset + 8 ≤ 64 → wordAt b offset = wordAt c offset := fun offset fits =>
    wordAt_congr fun i _ => same _ (by omega)
  rw [Ehdr.ofBytes, Ehdr.ofBytes, word 24 (by decide), word 32 (by decide), word 56 (by decide)]

theorem Phdr.ofBytes_congr {b c : Nat → UInt8} (same : ∀ k, k < phdrSize → b k = c k) :
    Phdr.ofBytes b = Phdr.ofBytes c := by
  rw [phdrSize] at same
  have word : ∀ offset, offset + 8 ≤ 56 → wordAt b offset = wordAt c offset := fun offset fits =>
    wordAt_congr fun i _ => same _ (by omega)
  rw [Phdr.ofBytes, Phdr.ofBytes, word 0 (by decide), word 8 (by decide), word 16 (by decide), word 32 (by decide),
    word 40 (by decide)]

def address (ph : Phdr) : Nat := ph.p_vaddr.toNat % 2 ^ 48

namespace Executable

variable (x : Executable)

def ehdr : Ehdr := Ehdr.ofBytes (x.source 0)

def phdr (off : UInt64) : Phdr := Phdr.ofBytes (x.source off.toNat)

-- The number of bytes of a segment that the file has, as `loadseg` is called.
def segment (ph : Phdr) : Nat := x.delivers ph.p_offset.toUInt32.toNat ph.p_filesz.toUInt32.toNat

def Within (ph : Phdr) (e : Extent) : Prop := x.segment ph = 0 ∨ address ph + x.segment ph ≤ 4096 * e.pages

instance (ph : Phdr) (e : Extent) : Decidable (x.Within ph e) := inferInstanceAs (Decidable (_ ∨ _))

def put (ph : Phdr) (b : Nat → UInt8) : Nat → UInt8 :=
  putBytes b (address ph) (x.source ph.p_offset.toUInt32.toNat) (x.segment ph)

-- Whether `loadseg` reads the segment as a whole.
def Covers (ph : Phdr) : Prop := ph.p_offset.toUInt32.toNat + ph.p_filesz.toUInt32.toNat ≤ x.size

instance (ph : Phdr) : Decidable (x.Covers ph) := inferInstanceAs (Decidable (_ ≤ _))

def offset (i : Nat) : UInt64 := extend (x.ehdr.offset i)

def header (i : Nat) : Phdr := x.phdr (x.offset i)

def Readable (i : Nat) : Prop := (x.offset i).toNat + phdrSize ≤ x.size

instance (i : Nat) : Decidable (x.Readable i) := inferInstanceAs (Decidable (_ ≤ _))

-- Turn `i` of the loop, where `kalloc` has `total` results.
def turn (total i : Nat) (e : Extent) : Option Extent :=
  if x.Readable i then
    if (x.header i).p_type ≠ PT_LOAD then some e
    else (e.growFor total (x.header i)).bind fun e => if x.Covers (x.header i) then some e else none
  else none

def extent (total : Nat) : Nat → Option Extent
  | 0 => some ⟨0, 0⟩
  | i + 1 => (extent total i).bind (x.turn total i)

def image : Nat → Nat → UInt8
  | 0 => fun _ => 0
  | i + 1 => if (x.header i).p_type = PT_LOAD then x.put (x.header i) (image i) else image i

-- Where turn `i` gets to `loadseg`, its bytes go to pages of the address space.
def Confines (total i : Nat) : Prop :=
  ∀ e e', x.extent total i = some e → x.Readable i → (x.header i).p_type = PT_LOAD →
    e.growFor total (x.header i) = some e' → x.Within (x.header i) e'

end Executable

section
variable {kernel : Kernel} {ip : Fin ninode} {s t : State} {start : List UInt64} {root : UInt64} {bytes : Nat → UInt8}
  {e e' : Extent} {sz sz' : Int32}

/-! ## Turns -/

theorem confined_of_issues {A : Type} {ok : Exec.Request → Prop} {p : Program Exec A} (issues : p.Issues ok)
    (reads : ∀ ip dst off n, ¬ ok (.readi ip dst off n)) (s : State) :
    p.Along (handle kernel) (Confined kernel root) s := by
  refine issues.along (fun r s isOk => ?_) s
  cases r with
  | readi ip dst off n => exact absurd isOk (reads ip dst off n)
  | _ => trivial

theorem confined_of_files {A : Type} {p : Program Exec A} (issues : p.Issues Files) (s : State) :
    p.Along (handle kernel) (Confined kernel root) s :=
  confined_of_issues issues (fun _ _ _ _ => id) s

theorem confined_files (r : Exec.Request) (s : State) (isFile : Files r) : Confined kernel root r s := by
  cases r with
  | readi ip dst off n => exact absurd isFile id
  | _ => trivial

theorem confined_of_pushes {A : Type} {p : Program Exec A} (issues : p.Issues Pushes) (s : State) :
    p.Along (handle kernel) (Confined kernel root) s :=
  confined_of_issues issues (fun _ _ _ _ => id) s

/-- What a turn leaves: the extent that was computed, and the same machine and process. -/
structure Turned (start : List UInt64) (root : UInt64) (bytes : Nat → UInt8) (e : Extent) (sz : Int32) (s t : State) :
    Prop where
  fits : Fits start root bytes e sz t.memory
  same : t = { s with memory := t.memory }
  outside : Untouched start s.memory t.memory

variable (fits : Fits start root bytes e sz s.memory) (low : P2V 0 ∉ start) (regular : Regular s.machine ip)
include fits low regular

theorem loadSegment_run {ph : Phdr} (ran : (loadSegment ip root ph sz).run (handle kernel) s = some (some sz', t)) :
    ∃ e' bytes', e.growFor start.length ph = some e' ∧ (executable s.machine ip).Covers ph ∧ e.pages ≤ e'.pages ∧
      Turned start root bytes' e' sz' s t ∧
      ((executable s.machine ip).Within ph e' →
        bytes' = (executable s.machine ip).put ph (zeroFrom (4096 * e.pages) bytes)) := by
  obtain ⟨grown, u, first, ran⟩ := Program.run_bind_eq_some.mp ran
  cases grown with
  | none => simp at ran
  | some sz₁ =>
    obtain ⟨⟨same, outside⟩, e₁, grows, le, fits₁⟩ := growFor_run fits first
    have machine : u.machine = s.machine := by rw [same]
    obtain ⟨bytes', m', read⟩ := loadseg_read kernel fits₁.built low (machine ▸ regular) ph.p_vaddr
      ph.p_offset.toUInt32 ph.p_filesz.toUInt32
    obtain ⟨reads, outside', built, isBytes, _⟩ := read
    obtain ⟨whole, v, loaded, ran⟩ := Program.run_bind_eq_some.mp ran
    rw [loaded, Option.some.injEq, Prod.mk.injEq] at reads
    obtain ⟨isWhole, rfl⟩ := reads
    rw [machine] at isWhole isBytes
    cases whole with
    | false => simp at ran
    | true =>
      cases ran
      refine ⟨e₁, bytes', grows, of_decide_eq_true isWhole.symm, le, ⟨⟨fits₁.size, fits₁.within, built⟩, ?_,
        outside.trans outside'⟩, isBytes⟩
      rw [same]

theorem loadSegment_returns (kernel : Kernel) {ph : Phdr} (grows : e.growFor start.length ph = some e')
    (covers : (executable s.machine ip).Covers ph) :
    ∃ sz' t, (loadSegment ip root ph sz).run (handle kernel) s = some (some sz', t) := by
  obtain ⟨sz₁, u, first⟩ := growFor_returns kernel fits grows
  obtain ⟨⟨same, _⟩, e₁, _, _, fits₁⟩ := growFor_run fits first
  have machine : u.machine = s.machine := by rw [same]
  obtain ⟨bytes', m', read⟩ := loadseg_read kernel fits₁.built low (machine ▸ regular) ph.p_vaddr
    ph.p_offset.toUInt32 ph.p_filesz.toUInt32
  have reads := read.ran
  have whole : ph.p_offset.toUInt32.toNat + ph.p_filesz.toUInt32.toNat ≤ (executable s.machine ip).size := covers
  rw [machine, decide_eq_true whole] at reads
  exact ⟨sz₁, _, Program.run_bind_eq_some.mpr
    ⟨some sz₁, u, first, Program.run_bind_eq_some.mpr ⟨true, _, reads, rfl⟩⟩⟩

theorem loadSegment_confined {ph : Phdr} : (loadSegment ip root ph sz).Along (handle kernel) (Confined kernel root) s ↔
    ∀ e', e.growFor start.length ph = some e' → (executable s.machine ip).Within ph e' := by
  rw [loadSegment, Program.along_bind]
  constructor
  · rintro ⟨_, along⟩ e' grows
    obtain ⟨sz₁, u, first⟩ := growFor_returns kernel fits grows
    obtain ⟨⟨same, _⟩, e₁, grows', _, fits₁⟩ := growFor_run fits first
    obtain rfl := Option.some.inj (grows.symm.trans grows')
    have machine : u.machine = s.machine := by rw [same]
    obtain ⟨bytes', m', read⟩ := loadseg_read kernel fits₁.built low (machine ▸ regular) ph.p_vaddr
      ph.p_offset.toUInt32 ph.p_filesz.toUInt32
    have inside := read.confined.mp (Program.along_bind.mp (along (some sz₁) u first)).1
    rw [machine] at inside
    exact inside
  · intro all
    refine ⟨confined_of_pushes (issues_growFor (fun _ _ _ => trivial) ph sz) s, fun grown u first => ?_⟩
    cases grown with
    | none => trivial
    | some sz₁ =>
      obtain ⟨⟨same, _⟩, e₁, grows, _, fits₁⟩ := growFor_run fits first
      have machine : u.machine = s.machine := by rw [same]
      obtain ⟨bytes', m', read⟩ := loadseg_read kernel fits₁.built low (machine ▸ regular) ph.p_vaddr
        ph.p_offset.toUInt32 ph.p_filesz.toUInt32
      refine Program.along_bind.mpr ⟨read.confined.mpr (machine ▸ all e₁ grows), fun whole v _ => ?_⟩
      cases whole <;> trivial

omit fits low in
theorem readHeader_run (kernel : Kernel) (off : UInt64) {n : Nat} (short : n < 2 ^ 32) :
    ∃ b, (fs (Inodes.readi ip (fun _ => 0) off (UInt64.ofNat n))).run (handle kernel) s =
        some (((executable s.machine ip).reply off.toNat n, b), s) ∧
      (off.toNat + n ≤ (executable s.machine ip).size → ∀ k, k < n →
        b k = (executable s.machine ip).source off.toNat k) := by
  have length : (UInt64.ofNat n).toNat = n := by
    rw [UInt64.toNat_ofNat']
    omega
  have reads := regular.readi kernel.sb kernel.devsw (fun _ => 0) off (n := UInt64.ofNat n) (by omega)
  rw [length] at reads
  refine ⟨fun k => if k < (executable s.machine ip).delivers off.toNat n then (executable s.machine ip).byte (off.toNat + k)
    else 0, ?_, fun whole k less => ?_⟩
  · rw [run_fs]
    exact congrArg (Option.map _) ((Program.run_request (I := Inodes) _ _).trans reads)
  · dsimp only
    rw [Executable.delivers_whole _ whole, if_pos less, Executable.source]

omit fits low in
theorem loadTurn_eq (kernel : Kernel) (root : UInt64) (i : Nat) (sz : Int32) :
    (loadTurn ip root (executable s.machine ip).ehdr i sz).run (handle kernel) s =
      (if (executable s.machine ip).Readable i then
        if ((executable s.machine ip).header i).p_type ≠ PT_LOAD then some (some sz, s)
        else (loadSegment ip root ((executable s.machine ip).header i) sz).run (handle kernel) s
      else some (none, s)) ∧
    ∀ ok : Exec.Request → State → Prop, (∀ r s, Files r → ok r s) →
      ((loadTurn ip root (executable s.machine ip).ehdr i sz).Along (handle kernel) ok s ↔
        ((executable s.machine ip).Readable i → ((executable s.machine ip).header i).p_type = PT_LOAD →
          (loadSegment ip root ((executable s.machine ip).header i) sz).Along (handle kernel) ok s)) := by
  generalize isFile : executable s.machine ip = x
  obtain ⟨b, reads, header⟩ := readHeader_run regular kernel (x.offset i) (n := phdrSize) (by decide)
  rw [isFile] at reads header
  have along : ∀ ok : Exec.Request → State → Prop, (∀ r s, Files r → ok r s) →
      ((loadTurn ip root x.ehdr i sz).Along (handle kernel) ok s ↔
        (if x.reply (x.offset i).toNat phdrSize ≠ phdrSize then pure none
          else if (Phdr.ofBytes b).p_type ≠ PT_LOAD then pure (some sz)
          else loadSegment ip root (Phdr.ofBytes b) sz : Program Exec _).Along (handle kernel) ok s) := by
    intro ok files
    rw [loadTurn, ← Executable.offset, Program.along_bind_of reads]
    exact and_iff_right ((files_fs _).along (fun r s isFile => files r s isFile) s)
  rw [loadTurn, Program.run_bind, ← Executable.offset, reads, Option.bind_some]
  dsimp only
  by_cases inside : x.Readable i
  · have isHeader : Phdr.ofBytes b = x.header i := Phdr.ofBytes_congr (header inside)
    have whole := x.reply_eq.mpr inside
    rw [if_neg (not_not.mpr whole), isHeader] at along
    rw [if_neg (not_not.mpr whole), isHeader, if_pos inside]
    by_cases loads : (x.header i).p_type = PT_LOAD
    · rw [if_neg (not_not.mpr loads)] at along
      rw [if_neg (not_not.mpr loads), if_neg (not_not.mpr loads)]
      exact ⟨rfl, fun ok files => (along ok files).trans ⟨fun along _ _ => along, fun along => along inside loads⟩⟩
    · rw [if_pos loads] at along
      rw [if_pos loads, if_pos loads]
      exact ⟨rfl, fun ok files => (along ok files).trans ⟨fun _ _ isLoad => absurd isLoad loads, fun _ => trivial⟩⟩
  · have short : x.reply (x.offset i).toNat phdrSize ≠ phdrSize := fun whole => inside (x.reply_eq.mp whole)
    rw [if_pos short] at along
    rw [if_pos short, if_neg inside]
    exact ⟨rfl, fun ok files => (along ok files).trans ⟨fun _ isInside => absurd isInside inside, fun _ => trivial⟩⟩

theorem loadTurn_run {i : Nat}
    (ran : (loadTurn ip root (executable s.machine ip).ehdr i sz).run (handle kernel) s = some (some sz', t)) :
    ∃ e' bytes', (executable s.machine ip).turn start.length i e = some e' ∧ e.pages ≤ e'.pages ∧
      Turned start root bytes' e' sz' s t ∧
      (((executable s.machine ip).header i).p_type ≠ PT_LOAD → bytes' = bytes) ∧
      (((executable s.machine ip).header i).p_type = PT_LOAD →
        e.growFor start.length ((executable s.machine ip).header i) = some e' ∧
        ((executable s.machine ip).Within ((executable s.machine ip).header i) e' →
          bytes' = (executable s.machine ip).put ((executable s.machine ip).header i)
          (zeroFrom (4096 * e.pages) bytes))) := by
  rw [(loadTurn_eq regular kernel root i sz).1] at ran
  rw [Executable.turn]
  split at ran
  · next readable =>
    rw [if_pos readable]
    split at ran
    · next other =>
      cases ran
      rw [if_pos other]
      exact ⟨e, bytes, rfl, le_rfl, ⟨fits, rfl, Untouched.refl start s.memory⟩, fun _ => rfl,
        fun loads => absurd loads other⟩
    · next loads =>
      obtain ⟨e', bytes', grows, covers, le, turned, isBytes⟩ := loadSegment_run fits low regular ran
      rw [if_neg loads, grows, Option.bind_some, if_pos covers]
      exact ⟨e', bytes', rfl, le, turned, fun other => absurd other loads, fun _ => ⟨rfl, isBytes⟩⟩
  · simp at ran

theorem loadTurn_returns (kernel : Kernel) {i : Nat}
    (turns : (executable s.machine ip).turn start.length i e = some e') :
    ∃ sz' t, (loadTurn ip root (executable s.machine ip).ehdr i sz).run (handle kernel) s = some (some sz', t) := by
  rw [(loadTurn_eq regular kernel root i sz).1]
  rw [Executable.turn] at turns
  split at turns
  · next readable =>
    rw [if_pos readable]
    split at turns
    · next other =>
      rw [if_pos other]
      exact ⟨sz, s, rfl⟩
    · next loads =>
      obtain ⟨e₁, grows, covers⟩ := Option.bind_eq_some_iff.mp turns
      rw [if_neg loads]
      rw [Option.ite_none_right_eq_some] at covers
      exact loadSegment_returns fits low regular kernel grows covers.1
  · simp at turns

theorem loadTurn_confined {i : Nat} : (loadTurn ip root (executable s.machine ip).ehdr i sz).Along (handle kernel)
    (Confined kernel root) s ↔ ((executable s.machine ip).Readable i →
      ((executable s.machine ip).header i).p_type = PT_LOAD → ∀ e',
        e.growFor start.length ((executable s.machine ip).header i) = some e' →
        (executable s.machine ip).Within ((executable s.machine ip).header i) e') := by
  rw [(loadTurn_eq regular kernel root i sz).2 _ confined_files]
  exact forall_congr' fun _ => forall_congr' fun _ => loadSegment_confined fits low regular

end

/-! ## The loop -/

namespace Executable

variable {x : Executable} {total n : Nat} {e : Extent}

theorem growFor_one {ph : Phdr} (empty : e.pages = 0) : e.growFor 1 ph = none := by
  rw [Option.eq_none_iff_forall_ne_some]
  intro e' grows
  obtain ⟨e₁, first, _⟩ := Option.bind_eq_some_iff.mp grows
  obtain ⟨⟨notZero, _, affords⟩, _⟩ := Extent.grow_some.mp first
  have some : 0 < (ph.p_memsz + ph.p_vaddr).toNat :=
    Nat.pos_of_ne_zero fun isZero => notZero (UInt64.toNat_inj.mp isZero)
  have first := (affords (by rw [pagesBelow]; omega)).1
  omega

theorem extent_one {i : Nat} (isExtent : x.extent 1 i = some e) : e.pages = 0 := by
  induction i generalizing e with
  | zero =>
    cases isExtent
    rfl
  | succ i ih =>
    obtain ⟨e₁, before, turned⟩ := Option.bind_eq_some_iff.mp isExtent
    have empty := ih before
    rw [turn, growFor_one empty, Option.bind_none] at turned
    split at turned
    · split at turned
      · cases turned
        exact empty
      · simp at turned
    · simp at turned

theorem extent_before (isExtent : x.extent total n = some e) {i : Nat} (le : i ≤ n) :
    ∃ e, x.extent total i = some e := by
  induction n generalizing e with
  | zero =>
    obtain rfl : i = 0 := by omega
    exact ⟨e, isExtent⟩
  | succ n ih =>
    by_cases last : i = n + 1
    · exact ⟨e, last ▸ isExtent⟩
    · obtain ⟨e', before, _⟩ := Option.bind_eq_some_iff.mp isExtent
      exact ih before (by omega)

end Executable

section
variable {kernel : Kernel} {ip : Fin ninode} {s t : State} {start : List UInt64} {root : UInt64} {sz : Int32}
  {n : Nat}

structure Looped (ip : Fin ninode) (start : List UInt64) (root : UInt64) (s : State) (i : Nat) (e : Extent)
    (bytes : Nat → UInt8) (sz : Int32) (t : State) : Prop extends Turned start root bytes e sz s t where
  extent : (executable s.machine ip).extent start.length i = some e
  image : (∀ j, j < i → (executable s.machine ip).Confines start.length j) →
    bytes = (executable s.machine ip).image i ∧ ∀ k, 4096 * e.pages ≤ k → bytes k = 0

theorem Looped.regular {i : Nat} {e : Extent} {bytes : Nat → UInt8} (looped : Looped ip start root s i e bytes sz t)
    (regular : Regular s.machine ip) : t.machine = s.machine ∧ Regular t.machine ip := by
  have machine : t.machine = s.machine := by rw [looped.same]
  exact ⟨machine, machine ▸ regular⟩

variable (low : P2V 0 ∉ start) (regular : Regular s.machine ip)
include low regular

theorem Looped.turn {i : Nat} {e : Extent} {bytes : Nat → UInt8} {sz' : Int32} {u : State}
    (looped : Looped ip start root s i e bytes sz t)
    (ran : (loadTurn ip root (executable s.machine ip).ehdr i sz).run (handle kernel) t = some (some sz', u)) :
    ∃ e' bytes', Looped ip start root s (i + 1) e' bytes' sz' u := by
  obtain ⟨machine, regular'⟩ := looped.regular regular
  rw [← machine] at ran
  obtain ⟨e', bytes', turns, le, turned, others, loads⟩ := loadTurn_run looped.fits low regular' ran
  rw [machine] at turns others loads
  refine ⟨e', bytes', ⟨turned.fits, ?_, looped.outside.trans turned.outside⟩, ?_, fun confines => ?_⟩
  · rw [turned.same, looped.same]
  · rw [Executable.extent, looped.extent, Option.bind_some, turns]
  · obtain ⟨isImage, zero⟩ := looped.image fun j less => confines j (by omega)
    rw [Executable.image]
    by_cases isLoad : ((executable s.machine ip).header i).p_type = PT_LOAD
    · obtain ⟨grows, isBytes⟩ := loads isLoad
      have readable : (executable s.machine ip).Readable i := by
        by_contra unreadable
        rw [Executable.turn, if_neg unreadable] at turns
        simp at turns
      have within := confines i (Nat.lt_succ_self i) e e' looped.extent readable isLoad grows
      rw [isBytes within, zeroFrom_eq zero, if_pos isLoad, ← isImage]
      refine ⟨rfl, fun k beyond => ?_⟩
      rcases within with nothing | inside
      · rw [Executable.put, nothing, putBytes_zero]
        exact zero k (by omega)
      · rw [Executable.put, putBytes_outside (by omega)]
        exact zero k (by omega)
    · rw [others isLoad, if_neg isLoad]
      refine ⟨isImage, fun k beyond => zero k (by omega)⟩

variable (fits : Fits start root (fun _ => 0) ⟨0, 0⟩ 0 s.memory)
include fits

omit low regular in
theorem Looped.zero : Looped ip start root s 0 ⟨0, 0⟩ (fun _ => 0) 0 s where
  fits := fits
  same := rfl
  outside := Untouched.refl start s.memory
  extent := rfl
  image _ := ⟨rfl, fun _ _ => rfl⟩

theorem loop_run (ran : (Program.iterate (loadTurn ip root (executable s.machine ip).ehdr) n 0).run (handle kernel) s =
    some (some sz, t)) : ∃ e bytes, Looped ip start root s n e bytes sz t := by
  refine Program.run_iterate_invariant (fun i sz t => ∃ e bytes, Looped ip start root s i e bytes sz t)
    ⟨_, _, Looped.zero fits⟩ ?_ ran
  rintro i sz₁ u sz₂ v _ ⟨e, bytes, looped⟩ ran
  exact looped.turn low regular ran

theorem loop_returns (kernel : Kernel) {e : Extent}
    (isExtent : (executable s.machine ip).extent start.length n = some e) :
    ∃ sz t, (Program.iterate (loadTurn ip root (executable s.machine ip).ehdr) n 0).run (handle kernel) s =
      some (some sz, t) := by
  have each : ∀ i sz₁ u, i < n → (∃ e bytes, Looped ip start root s i e bytes sz₁ u) → ∃ sz₂ v,
      (loadTurn ip root (executable s.machine ip).ehdr i sz₁).run (handle kernel) u = some (some sz₂, v) ∧
        ∃ e bytes, Looped ip start root s (i + 1) e bytes sz₂ v := by
    rintro i sz₁ u less ⟨e₁, bytes, looped⟩
    obtain ⟨machine, regular'⟩ := looped.regular regular
    obtain ⟨e₂, next⟩ := Executable.extent_before isExtent less
    rw [Executable.extent, looped.extent, Option.bind_some, ← machine] at next
    obtain ⟨sz₂, v, turned⟩ := loadTurn_returns looped.fits low regular' kernel next
    rw [machine] at turned
    exact ⟨sz₂, v, turned, looped.turn low regular turned⟩
  obtain ⟨sz, t, ran, _⟩ := Program.run_iterate_returns ⟨_, _, Looped.zero fits⟩ each
  exact ⟨sz, t, ran⟩

theorem loop_confined : (Program.iterate (loadTurn ip root (executable s.machine ip).ehdr) n 0).Along (handle kernel)
    (Confined kernel root) s ↔ ∀ i, i < n → (executable s.machine ip).Confines start.length i := by
  rw [Program.along_iterate]
  constructor
  · intro all i less e e' isExtent readable loads grows
    obtain ⟨sz, t, ran⟩ := loop_returns low regular fits kernel isExtent
    obtain ⟨e₁, bytes, looped⟩ := loop_run low regular fits ran
    obtain ⟨machine, regular'⟩ := looped.regular regular
    obtain rfl := Option.some.inj (isExtent.symm.trans looped.extent)
    have along := all i sz t less ran
    rw [← machine] at along
    rw [loadTurn_confined looped.fits low regular', machine] at along
    exact along readable loads e' grows
  · intro all i sz t less ran
    obtain ⟨e, bytes, looped⟩ := loop_run low regular fits ran
    obtain ⟨machine, regular'⟩ := looped.regular regular
    rw [← machine, loadTurn_confined looped.fits low regular', machine]
    exact fun readable loads e' grows => all i less e e' looped.extent readable loads grows

end

/-! ## `loadImage` -/

section
variable {kernel : Kernel} {ip : Fin ninode} {s t : State} {free : List UInt64}

def mapImage (ip : Fin ninode) (eh : Ehdr) : Program Exec (Option (Ehdr × UInt64 × Int32)) := do
  let pgdir ← kalloc
  if pgdir = 0 then return none
  else
    memset pgdir
    match ← loadSegments ip pgdir eh with
    | none => return none
    | some sz => return some (eh, pgdir, sz)

theorem loadImage_eq (ip : Fin ninode) : loadImage ip = (do
    let (r, b) ← fs (Inodes.readi ip (fun _ => 0) 0 (UInt64.ofNat ehdrSize))
    if r ≠ ehdrSize then return none else mapImage ip (Ehdr.ofBytes b)) := rfl

def newTable : Program Exec UInt64 := do
  let pgdir ← kalloc
  memset pgdir
  return pgdir

/-- The loop starts with the header of the file and an empty page table, or it is not reached. -/
inductive Prepared (kernel : Kernel) (ip : Fin ninode) (ok : Exec.Request → State → Prop) (s : State)
    (free : List UInt64) :
    Prop where
  | refused (short : ¬ ehdrSize ≤ (executable s.machine ip).size ∨ free = [])
    (ran : ∃ t, (loadImage ip).run (handle kernel) s = some (none, t))
    (along : (loadImage ip).Along (handle kernel) ok s)
  | ready (m : Memory) (whole : ehdrSize ≤ (executable s.machine ip).size) (pages : free ≠ [])
    (outside : Untouched (free ++ [0]) s.memory m)
    (table : newTable.run (handle kernel) s = some (s.memory.free_list, { s with memory := m }))
    (fits : Fits (free ++ [0]) s.memory.free_list (fun _ => 0) ⟨0, 0⟩ 0 m)
    (ran : (loadImage ip).run (handle kernel) s =
      ((Program.iterate (loadTurn ip s.memory.free_list (executable s.machine ip).ehdr)
        (executable s.machine ip).ehdr.e_phnum.toNat 0).run (handle kernel) { s with memory := m }).map fun out =>
          (out.1.map fun sz => ((executable s.machine ip).ehdr, s.memory.free_list, sz), out.2))
    (along : (loadImage ip).Along (handle kernel) ok s ↔
      (Program.iterate (loadTurn ip s.memory.free_list (executable s.machine ip).ehdr)
        (executable s.machine ip).ehdr.e_phnum.toNat 0).Along (handle kernel) ok { s with memory := m })

structure Opens (ok : Exec.Request → State → Prop) : Prop where
  files : ∀ r s, Files r → ok r s
  kalloc : ∀ s, ok .kalloc s
  memset : ∀ page s, ok (.memset page) s

theorem Fits.newTable {m : Memory} {root : UInt64} {rest : List UInt64} (heap : Free m (root :: rest)) :
    Fits (root :: rest ++ [0]) root (fun _ => 0) ⟨0, 0⟩ 0 ((m.pop root).memset root) := by
  obtain ⟨_, left⟩ := heap.kalloc
  have unused : root ∉ rest ++ [0] := by
    rw [List.mem_append, not_or]
    exact ⟨(List.nodup_cons.mp heap.nodup).1, fun isNull => heap.head_ne_zero (List.mem_singleton.mp isNull)⟩
  have supply : Supply ((m.pop root).memset root) true (rest ++ [0]) := (Supply.whole left).memset unused
  have bound := heap.length_le
  rw [List.length_cons] at bound
  refine ⟨rfl, le_rfl, [root], rest ++ [0], ?_, rfl⟩
  apply Holds.zero (List.nodup_cons.mpr ⟨unused, supply.nodup⟩) ?_ supply
  · intro i
    simp [Memory.memset]
  · rw [List.length_cons, List.length_append, List.length_singleton]
    omega

theorem untouched_newTable (m : Memory) (root : UInt64) (rest : List UInt64) :
    Untouched (root :: rest ++ [0]) m ((m.pop root).memset root) := by
  intro z outside _
  have other : z ≠ root := by
    rintro rfl
    exact outside List.mem_cons_self
  rw [memset_word other]
  rfl

theorem prepared (kernel : Kernel) (heap : Free s.memory free) (regular : Regular s.machine ip)
    {ok : Exec.Request → State → Prop} (opens : Opens ok) : Prepared kernel ip ok s free := by
  obtain ⟨b, reads, header⟩ := readHeader_run regular kernel 0 (n := ehdrSize) (by decide)
  change Program.run _ _ _ = some ((Executable.reply _ 0 _, b), s) at reads
  change 0 + _ ≤ _ → ∀ k, _ → b k = Executable.source _ 0 k at header
  have filed {off n : UInt64} : (fs (Inodes.readi ip (fun _ => 0) off n)).Along (handle kernel) ok s :=
    (files_fs _).along (fun r s isFile => opens.files r s isFile) s
  by_cases whole : ehdrSize ≤ (executable s.machine ip).size
  · have isHeader : Ehdr.ofBytes b = (executable s.machine ip).ehdr := Ehdr.ofBytes_congr (header (by omega))
    have reply : (executable s.machine ip).reply 0 ehdrSize = ehdrSize := (Executable.reply_eq _).mpr (by omega)
    have along : (loadImage ip).Along (handle kernel) ok s ↔
        (mapImage ip (executable s.machine ip).ehdr).Along (handle kernel) ok s := by
      rw [loadImage_eq, Program.along_bind_of reads]
      dsimp only
      rw [and_iff_right filed, if_neg (not_not.mpr reply), isHeader]
    have ran : (loadImage ip).run (handle kernel) s = (mapImage ip (executable s.machine ip).ehdr).run
      (handle kernel) s := by
      rw [loadImage_eq, Program.run_bind, reads, Option.bind_some]
      dsimp only
      rw [if_neg (not_not.mpr reply), isHeader]
    cases free with
    | nil =>
      have null : s.memory.free_list = 0 := heap.linked
      have answered : handle kernel .kalloc s =
        some (0, { s with memory := { s.memory with kmemcslock := true } }) := by
        simp [handle, Vm.kalloc, heap.unlocked, null]
      refine .refused (.inr rfl) ⟨{ s with memory := { s.memory with kmemcslock := true } }, ?_⟩ ?_
      · rw [ran]
        exact (run_then s answered _).trans (by rw [if_pos rfl]; rfl)
      · rw [along]
        refine (Program.along_then answered _).mpr ⟨opens.kalloc s, ?_⟩
        rw [if_pos rfl]
        trivial
    | cons root rest =>
      obtain ⟨allocated, left⟩ := heap.kalloc
      have isRoot : s.memory.free_list = root := heap.linked.1
      have notNull := heap.head_ne_zero
      have answered : handle kernel .kalloc s = some (root, { s with memory := s.memory.pop root }) := by
        rw [handle, allocated]
        rfl
      refine .ready ((s.memory.pop root).memset root) whole (List.cons_ne_nil root rest)
        (untouched_newTable s.memory root rest) ?_ ?_ ?_ ?_
      · rw [isRoot]
        exact (run_then s answered _).trans (run_then _ rfl _)
      · rw [isRoot]
        exact Fits.newTable heap
      · rw [ran, isRoot]
        refine (run_then s answered _).trans ?_
        rw [if_neg notNull]
        refine (run_then _ rfl _).trans ?_
        rw [Program.run_bind, loadSegments]
        generalize Program.run _ (Program.iterate _ _ _) _ = looped
        cases looped with
        | none => rfl
        | some out =>
          obtain ⟨sz, t⟩ := out
          cases sz with
          | none => rfl
          | some sz => rfl
      · rw [isRoot, along]
        refine (Program.along_then answered _).trans ((and_iff_right (opens.kalloc s)).trans ?_)
        rw [if_neg notNull]
        refine (Program.along_then rfl _).trans
          ((and_iff_right (opens.memset ..)).trans (Program.along_bind.trans ?_))
        refine and_iff_left fun sz t _ => ?_
        cases sz with
        | none => trivial
        | some sz => trivial
  · have short : (executable s.machine ip).reply 0 ehdrSize ≠ ehdrSize := fun all =>
      whole (by have := (Executable.reply_eq _).mp all; omega)
    refine .refused (.inl whole) ⟨s, ?_⟩ ?_
    · rw [loadImage, Program.run_bind, reads, Option.bind_some]
      dsimp only
      rw [if_pos short]
      rfl
    · rw [loadImage, Program.along_bind_of reads]
      dsimp only
      rw [if_pos short]
      exact ⟨filed, trivial⟩

theorem opens_confined (kernel : Kernel) (root : UInt64) : Opens (Confined kernel root) :=
  ⟨confined_files, fun _ => trivial, fun _ _ => trivial⟩

theorem low_start (low : P2V 0 ∉ free) : P2V 0 ∉ free ++ [0] := by
  rw [List.mem_append, not_or]
  exact ⟨low, by decide⟩

theorem length_start (free : List UInt64) : (free ++ [0]).length = free.length + 1 := List.length_append

theorem loadImage_run (heap : Free s.memory free) (low : P2V 0 ∉ free) (regular : Regular s.machine ip) {eh : Ehdr}
    {pgdir : UInt64} {sz : Int32} (ran : (loadImage ip).run (handle kernel) s = some (some (eh, pgdir, sz), t)) :
    eh = (executable s.machine ip).ehdr ∧ pgdir = s.memory.free_list ∧ ehdrSize ≤ (executable s.machine ip).size ∧
      ∃ e bytes, Looped ip (free ++ [0]) s.memory.free_list s
      (executable s.machine ip).ehdr.e_phnum.toNat e bytes sz t := by
  rcases prepared kernel heap regular (opens_confined kernel 0) with ⟨_, ⟨_, refused⟩, _⟩ |
    ⟨m, whole, _, outside, _, fits, isRun, _⟩
  · rw [refused] at ran
    simp at ran
  · rw [isRun, Option.map_eq_some_iff] at ran
    obtain ⟨⟨sz₁, u⟩, looped, result⟩ := ran
    cases sz₁ with
    | none => simp at result
    | some sz₁ =>
      cases result
      obtain ⟨e, bytes, looped⟩ := loop_run (s := { s with memory := m }) (low_start low) regular fits looped
      obtain ⟨⟨fits, same, outside'⟩, extent, image⟩ := looped
      exact ⟨rfl, rfl, whole, e, bytes, ⟨⟨fits, same, outside.trans outside'⟩, extent, image⟩⟩

theorem loadImage_returns (kernel : Kernel) (heap : Free s.memory free) (low : P2V 0 ∉ free)
    (regular : Regular s.machine ip)
    (whole : ehdrSize ≤ (executable s.machine ip).size) (pages : free ≠ []) {e : Extent}
    (isExtent : (executable s.machine ip).extent (free.length + 1) (executable s.machine ip).ehdr.e_phnum.toNat = some e) :
    ∃ sz t, (loadImage ip).run (handle kernel) s =
      some (some ((executable s.machine ip).ehdr, s.memory.free_list, sz), t) := by
  rcases prepared kernel heap regular (opens_confined kernel 0) with ⟨short | empty, _, _⟩ |
    ⟨m, _, _, _, _, fits, isRun, _⟩
  · exact absurd whole short
  · exact absurd empty pages
  · rw [← length_start] at isExtent
    obtain ⟨sz, t, looped⟩ := loop_returns (s := { s with memory := m }) (low_start low) regular fits kernel isExtent
    refine ⟨sz, t, isRun.trans ?_⟩
    rw [looped]
    rfl

theorem loadImage_confined (kernel : Kernel) (heap : Free s.memory free) (low : P2V 0 ∉ free)
    (regular : Regular s.machine ip) : (loadImage ip).Along (handle kernel) (Confined kernel s.memory.free_list) s ↔
      (ehdrSize ≤ (executable s.machine ip).size → ∀ i, i < (executable s.machine ip).ehdr.e_phnum.toNat →
        (executable s.machine ip).Confines (free.length + 1) i) := by
  rcases prepared kernel heap regular (opens_confined kernel s.memory.free_list) with ⟨refused, _, along⟩ |
    ⟨m, whole, _, _, _, fits, _, along⟩
  · refine iff_of_true along fun whole i _ e e' isExtent _ _ grows => ?_
    rcases refused with short | rfl
    · exact absurd whole short
    · rw [List.length_nil, Nat.zero_add] at *
      rw [Executable.growFor_one (Executable.extent_one isExtent)] at grows
      simp at grows
  · rw [along, loop_confined (s := { s with memory := m }) (low_start low) regular fits, length_start]
    exact ⟨fun all _ => all, fun all => all whole⟩

end

end Xv6.Exec
