import Xv6.Exec.Confinement

/-! The bytes of a loaded image.

Every address of a segment belongs to one segment only, so what was stored last is what the
segment's own turn has stored. `loadseg` takes the offset in the file as an `uint32_t`.
-/

set_option autoImplicit false

namespace Xv6.Exec

open Library Vm Fs

/-! ## Program headers -/

namespace Executable

variable (x : Executable)

def programHeader (i : Nat) : Phdr := Phdr.ofBytes (x.source (x.ehdr.e_phoff.toNat + phdrSize * i))

def Loadable (i : Nat) : Prop := i < x.ehdr.e_phnum.toNat ∧ (x.programHeader i).p_type = PT_LOAD

instance (i : Nat) : Decidable (x.Loadable i) := inferInstanceAs (Decidable (_ ∧ _))

def HasHeaders : Prop := ∀ i, i < x.ehdr.e_phnum.toNat → x.ehdr.e_phoff.toNat + phdrSize * (i + 1) ≤ x.size

instance : Decidable x.HasHeaders := inferInstanceAs (Decidable (∀ i, i < _ → _))

variable {x}

theorem HasHeaders.reads (has : x.HasHeaders) (small : x.size ≤ 71680) {i : Nat} (less : i < x.ehdr.e_phnum.toNat) :
    x.Readable i ∧ x.header i = x.programHeader i := by
  have inside := has i less
  rw [phdrSize] at inside
  have sum : (x.ehdr.e_phoff + UInt64.ofNat (phdrSize * i)).toNat = x.ehdr.e_phoff.toNat + phdrSize * i := by
    rw [UInt64.toNat_add, UInt64.toNat_ofNat', phdrSize]
    omega
  have isOffset : x.offset i = x.ehdr.e_phoff + UInt64.ofNat (phdrSize * i) := by
    have isNarrow : x.ehdr.offset i = narrow (x.ehdr.e_phoff + UInt64.ofNat (phdrSize * i)) := by
      rw [narrow_add, narrow_eq, narrow_eq, UInt64.toUInt32_ofNat', Ehdr.offset]
      rfl
    rw [offset, isNarrow]
    refine extend_narrow ?_
    rw [sum, phdrSize]
    omega
  rw [Readable, header, isOffset, phdr, programHeader, sum]
  refine ⟨?_, rfl⟩
  rw [phdrSize]
  omega

end Executable

/-! ## Extents and images -/

theorem Extent.growFor_pages {total : Nat} {ph : Phdr} {e e' : Extent} (grows : e.growFor total ph = some e') :
    e.pages ≤ e'.pages ∧ pagesBelow (ph.p_memsz + ph.p_vaddr) ≤ e'.pages := by
  obtain ⟨e₁, first, second⟩ := Option.bind_eq_some_iff.mp grows
  obtain ⟨_, rfl⟩ := Extent.grow_some.mp first
  split at second
  · obtain ⟨_, rfl⟩ := Extent.grow_some.mp second
    dsimp only
    omega
  · cases second
    dsimp only
    omega

namespace Executable

variable {x : Executable} {total : Nat}

theorem extent_succ {i : Nat} {e' : Extent} (isExtent : x.extent total (i + 1) = some e') :
    ∃ e, x.extent total i = some e ∧ x.Readable i ∧ e.pages ≤ e'.pages ∧
      ((x.header i).p_type = PT_LOAD → e.growFor total (x.header i) = some e' ∧ x.Covers (x.header i)) := by
  obtain ⟨e, before, turned⟩ := Option.bind_eq_some_iff.mp isExtent
  rw [turn] at turned
  split at turned
  · next readable =>
    split at turned
    · next other =>
      obtain rfl := Option.some.inj turned
      exact ⟨e, before, readable, le_rfl, fun loads => absurd loads other⟩
    · obtain ⟨e₁, grows, covers⟩ := Option.bind_eq_some_iff.mp turned
      rw [Option.ite_none_right_eq_some, Option.some.injEq] at covers
      obtain ⟨covers, rfl⟩ := covers
      exact ⟨e, before, readable, (Extent.growFor_pages grows).1, fun _ => ⟨grows, covers⟩⟩
  · simp at turned

theorem extent_le {i n : Nat} (le : i ≤ n) {e e' : Extent} (before : x.extent total i = some e)
    (after : x.extent total n = some e') : e.pages ≤ e'.pages := by
  induction n generalizing e' with
  | zero =>
    obtain rfl : i = 0 := by omega
    obtain rfl := Option.some.inj (before.symm.trans after)
    exact le_rfl
  | succ n ih =>
    by_cases last : i = n + 1
    · subst last
      obtain rfl := Option.some.inj (before.symm.trans after)
      exact le_rfl
    · obtain ⟨e₁, earlier, _, more, _⟩ := extent_succ after
      exact (ih (by omega) earlier).trans more

def FromFile (x : Executable) (ph : Phdr) (a : Nat) : Prop := address ph ≤ a ∧ a < address ph + x.segment ph

theorem put_inside {ph : Phdr} {a : Nat} (b : Nat → UInt8) (inside : x.FromFile ph a) :
    x.put ph b a = x.source ph.p_offset.toUInt32.toNat (a - address ph) := if_pos inside

theorem put_outside {ph : Phdr} {a : Nat} (b : Nat → UInt8) (outside : ¬ x.FromFile ph a) : x.put ph b a = b a :=
  if_neg outside

theorem image_of_last {i n a : Nat} (less : i < n) (loads : (x.header i).p_type = PT_LOAD)
    (inside : x.FromFile (x.header i) a)
    (last : ∀ j, i < j → j < n → (x.header j).p_type = PT_LOAD → ¬ x.FromFile (x.header j) a) :
    x.image n a = x.source (x.header i).p_offset.toUInt32.toNat (a - address (x.header i)) := by
  induction n with
  | zero => exact absurd less (Nat.not_lt_zero i)
  | succ n ih =>
    rw [image]
    by_cases here : i = n
    · subst here
      rw [if_pos loads, put_inside _ inside]
    · have before := ih (by omega) fun j low high => last j low (by omega)
      split
      · next isLoad =>
        rw [put_outside _ (last n (by omega) (Nat.lt_succ_self n) isLoad), before]
      · exact before

theorem image_of_none {n a : Nat} (outside : ∀ j, j < n → (x.header j).p_type = PT_LOAD →
    ¬ x.FromFile (x.header j) a) :
    x.image n a = 0 := by
  induction n with
  | zero => rfl
  | succ n ih =>
    have before := ih fun j less => outside j (by omega)
    rw [image]
    split
    · next isLoad => rw [put_outside _ (outside n (Nat.lt_succ_self n) isLoad), before]
    · exact before

end Executable

/-! ## Segments -/

def InSegment (ph : Phdr) (a : Nat) : Prop := ph.p_vaddr.toNat ≤ a ∧ a < ph.p_vaddr.toNat + ph.p_memsz.toNat

/-- An executable whose segments do not overlap, and end below 2^31. -/
structure Segmented (x : Executable) : Prop where
  headers : x.HasHeaders
  sizes : ∀ i, x.Loadable i → (x.programHeader i).p_filesz.toNat ≤ (x.programHeader i).p_memsz.toNat ∧
    (x.programHeader i).p_vaddr.toNat + (x.programHeader i).p_memsz.toNat < 2 ^ 31
  apart : ∀ i j, x.Loadable i → x.Loadable j → i ≠ j → ∀ a, InSegment (x.programHeader i) a →
    ¬ InSegment (x.programHeader j) a

/-- The bytes of a segment in an address space: those of the file, and zeros. -/
structure Placed (x : Executable) (ph : Phdr) (root : UInt64) (m : Memory) : Prop where
  file : ∀ k, k < ph.p_filesz.toNat → ph.p_offset.toNat + k < x.size ∧
    m.userByte root (ph.p_vaddr.toNat + k) = some (x.byte (ph.p_offset.toNat + k))
  zero : ∀ k, ph.p_filesz.toNat ≤ k → k < ph.p_memsz.toNat → m.userByte root (ph.p_vaddr.toNat + k) = some 0

namespace Segmented

variable {x : Executable} {total i : Nat} (valid : Segmented x) (small : x.size ≤ 71680)
include valid small

theorem header (loadable : x.Loadable i) : x.Readable i ∧ x.header i = x.programHeader i ∧
    (x.header i).p_type = PT_LOAD := by
  obtain ⟨readable, same⟩ := valid.headers.reads small loadable.1
  exact ⟨readable, same, same ▸ loadable.2⟩

theorem loadable (less : i < x.ehdr.e_phnum.toNat) (loads : (x.header i).p_type = PT_LOAD) : x.Loadable i :=
  ⟨less, (valid.headers.reads small less).2 ▸ loads⟩

omit small in
theorem pages (loadable : x.Loadable i) {e e' : Extent} (grows : e.growFor total (x.programHeader i) = some e') :
    (x.programHeader i).p_vaddr.toNat + (x.programHeader i).p_memsz.toNat ≤ 4096 * e'.pages := by
  have below := (Extent.growFor_pages grows).2
  have size := (valid.sizes i loadable).2
  rw [pagesBelow, UInt64.toNat_add] at below
  omega

omit small in
theorem exact (loadable : x.Loadable i) : address (x.programHeader i) = (x.programHeader i).p_vaddr.toNat ∧
    (x.programHeader i).p_filesz.toUInt32.toNat = (x.programHeader i).p_filesz.toNat := by
  obtain ⟨fits, size⟩ := valid.sizes i loadable
  rw [address, UInt64.toNat_toUInt32]
  omega

theorem confines (less : i < x.ehdr.e_phnum.toNat) : x.Confines total i := by
  intro e e' _ _ loads grows
  have loadable := valid.loadable small less loads
  rw [(valid.header small loadable).2.1] at grows ⊢
  have inside := valid.pages loadable grows
  obtain ⟨isAddress, isSize⟩ := valid.exact loadable
  have part : x.segment (x.programHeader i) ≤ (x.programHeader i).p_filesz.toNat := isSize ▸ Nat.min_le_left ..
  have fits := (valid.sizes i loadable).1
  refine .inr ?_
  rw [isAddress]
  omega

theorem inSegment (loadable : x.Loadable i) {a : Nat} (inside : x.FromFile (x.header i) a) :
    InSegment (x.programHeader i) a := by
  rw [(valid.header small loadable).2.1, Executable.FromFile] at inside
  obtain ⟨isAddress, isSize⟩ := valid.exact loadable
  have part : x.segment (x.programHeader i) ≤ (x.programHeader i).p_filesz.toNat := isSize ▸ Nat.min_le_left ..
  have fits := (valid.sizes i loadable).1
  rw [InSegment]
  omega

end Segmented

section
variable {kernel : Kernel} {ip : Fin ninode} {s t : State} {free : List UInt64}

/-- The byte of a segment in the image, at an address below the end of the pages. -/
theorem loaded_bytes (heap : Free s.memory free) (low : P2V 0 ∉ free) (regular : Regular s.machine ip)
    (valid : Segmented (executable s.machine ip)) {eh : Ehdr} {pgdir : UInt64} {sz : Int32}
    (ran : (loadImage ip).run (handle kernel) s = some (some (eh, pgdir, sz), t)) {i : Nat}
    (loadable : (executable s.machine ip).Loadable i) :
    (executable s.machine ip).Covers ((executable s.machine ip).programHeader i) ∧
      ∀ a, InSegment ((executable s.machine ip).programHeader i) a → t.memory.userByte pgdir a =
        some ((executable s.machine ip).image (executable s.machine ip).ehdr.e_phnum.toNat a) := by
  have small := regular.size_le
  obtain ⟨rfl, rfl, _, e, bytes, looped⟩ := loadImage_run heap low regular ran
  obtain ⟨e₁, after⟩ := Executable.extent_before looped.extent loadable.1
  obtain ⟨e₀, _, _, _, turned⟩ := Executable.extent_succ after
  obtain ⟨_, same, loads⟩ := valid.header small loadable
  obtain ⟨grows, covers⟩ := turned loads
  rw [same] at grows covers
  have pages := valid.pages loadable grows
  have most := Executable.extent_le loadable.1 after looped.extent
  obtain ⟨taken, left, holds, _⟩ := looped.fits.built
  obtain ⟨isImage, _⟩ := looped.image fun j less => valid.confines small less
  refine ⟨covers, fun a inside => ?_⟩
  rw [InSegment] at inside
  rw [holds.userByte (by omega), isImage]

/-- Every segment is in memory as it is in the file if and only if no segment with bytes in the file has
an offset that does not fit into 32 bits. -/
theorem segments_placed_iff {path : List UInt8} {u : State} (heap : Free s.memory free) (low : P2V 0 ∉ free)
    (opened : (openExecutable path).run (handle kernel) s = some (some ip, t)) (regular : Regular t.machine ip)
    (valid : Segmented (executable t.machine ip)) {eh : Ehdr} {pgdir : UInt64} {sz : Int32}
    (loaded : (loadImage ip).run (handle kernel) t = some (some (eh, pgdir, sz), u)) :
    (∀ i, (executable t.machine ip).Loadable i →
        Placed (executable t.machine ip) ((executable t.machine ip).programHeader i) pgdir u.memory) ↔
      ∀ i, (executable t.machine ip).Loadable i → 0 < ((executable t.machine ip).programHeader i).p_filesz.toNat →
        ((executable t.machine ip).programHeader i).p_offset.toNat < 2 ^ 32 := by
  have memory := (files_run (files_openExecutable path) opened).2
  rw [← memory] at heap
  have small := regular.size_le
  constructor
  · intro placed i loadable some
    have inside := ((placed i loadable).file 0 some).1
    omega
  · intro short i loadable
    obtain ⟨covers, bytes⟩ := loaded_bytes heap low regular valid loaded loadable
    obtain ⟨_, same, loads⟩ := valid.header small loadable
    obtain ⟨isAddress, isSize⟩ := valid.exact loadable
    obtain ⟨fits, _⟩ := valid.sizes i loadable
    have others : ∀ a, InSegment ((executable t.machine ip).programHeader i) a → ∀ j, j ≠ i →
        j < (executable t.machine ip).ehdr.e_phnum.toNat → ((executable t.machine ip).header j).p_type = PT_LOAD →
        ¬ (executable t.machine ip).FromFile ((executable t.machine ip).header j) a := by
      intro a here j other less isLoad there
      have loadable' := valid.loadable small less isLoad
      exact valid.apart i j loadable loadable' other.symm a here (valid.inSegment small loadable' there)
    have size : (executable t.machine ip).segment ((executable t.machine ip).programHeader i) =
        ((executable t.machine ip).programHeader i).p_filesz.toNat := by
      rw [Executable.segment, Executable.delivers_whole _ covers, isSize]
    refine ⟨fun k less => ?_, fun k beyond less => ?_⟩
    · have offset : ((executable t.machine ip).programHeader i).p_offset.toUInt32.toNat =
          ((executable t.machine ip).programHeader i).p_offset.toNat := by
        have := short i loadable (by omega)
        rw [UInt64.toNat_toUInt32]
        omega
      have here : InSegment ((executable t.machine ip).programHeader i)
          (((executable t.machine ip).programHeader i).p_vaddr.toNat + k) := ⟨by omega, by omega⟩
      have inside : (executable t.machine ip).FromFile ((executable t.machine ip).header i)
          (((executable t.machine ip).programHeader i).p_vaddr.toNat + k) := by
        rw [same, Executable.FromFile, isAddress, size]
        omega
      refine ⟨?_, ?_⟩
      · rw [Executable.Covers, offset, isSize] at covers
        omega
      · rw [bytes _ here, Executable.image_of_last loadable.1 loads inside fun j low _ => others _ here j
          (by omega) ‹_›,
          same, offset, isAddress, Nat.add_sub_cancel_left]
        rfl
    · have here : InSegment ((executable t.machine ip).programHeader i)
          (((executable t.machine ip).programHeader i).p_vaddr.toNat + k) := ⟨by omega, by omega⟩
      rw [bytes _ here, Executable.image_of_none fun j less isLoad => ?_]
      by_cases isHere : j = i
      · subst isHere
        rw [same, Executable.FromFile, isAddress, size]
        omega
      · exact others _ here j isHere less isLoad

end

/-! ## Files with one segment -/

structure OneSegment (x : Executable) (ph : Phdr) : Prop where
  whole : ehdrSize ≤ x.size
  headers : x.HasHeaders
  isCount : x.ehdr.e_phnum.toNat = 1
  isHeader : x.programHeader 0 = ph
  fits : ph.p_filesz.toNat ≤ ph.p_memsz.toNat ∧ ph.p_vaddr.toNat + ph.p_memsz.toNat < 2 ^ 31
  isExtent : (x.extent 11 1).isSome

instance (x : Executable) (ph : Phdr) : Decidable (OneSegment x ph) :=
  decidable_of_iff (ehdrSize ≤ x.size ∧ x.HasHeaders ∧ x.ehdr.e_phnum.toNat = 1 ∧ x.programHeader 0 = ph ∧
      (ph.p_filesz.toNat ≤ ph.p_memsz.toNat ∧ ph.p_vaddr.toNat + ph.p_memsz.toNat < 2 ^ 31) ∧ (x.extent 11 1).isSome)
    ⟨fun ⟨a, b, c, d, e, f⟩ => ⟨a, b, c, d, e, f⟩, fun ⟨a, b, c, d, e, f⟩ => ⟨a, b, c, d, e, f⟩⟩

theorem OneSegment.segmented {x : Executable} {ph : Phdr} (one : OneSegment x ph) : Segmented x := by
  have first : ∀ {i}, x.Loadable i → i = 0 := fun loadable => by
    have := loadable.1
    have := one.isCount
    omega
  refine ⟨one.headers, fun i loadable => ?_, fun i j loadable loadable' other => ?_⟩
  · rw [first loadable, one.isHeader]
    exact one.fits
  · exact absurd ((first loadable).trans (first loadable').symm) other

theorem load_one (ph : Phdr) (found : ((openExecutable filePath).run (handle plainKernel) (idleWith [ph])).any (fun out =>
      out.1.any fun ip => decide (Regular out.2.machine ip ∧ OneSegment (executable out.2.machine ip) ph)) = true) :
    ∃ ip t pgdir sz u, (openExecutable filePath).run (handle plainKernel) (idleWith [ph]) = some (some ip, t) ∧
      Regular t.machine ip ∧ OneSegment (executable t.machine ip) ph ∧
      (loadImage ip).run (handle plainKernel) t = some (some ((executable t.machine ip).ehdr, pgdir, sz), u) := by
  obtain ⟨⟨ip, t⟩, opened, isFile⟩ := (Option.any_eq_true _ _).mp found
  obtain ⟨ip, rfl, isFile⟩ := (Option.any_eq_true _ _).mp isFile
  obtain ⟨regular, one⟩ := of_decide_eq_true isFile
  have memory := (files_run (files_openExecutable filePath) opened).2
  have heap : Free t.memory tenAddresses := memory ▸ idle_free
  obtain ⟨e, isExtent⟩ := Option.isSome_iff_exists.mp one.isExtent
  obtain ⟨sz, u, ran⟩ := loadImage_returns plainKernel heap low_free regular one.whole (by decide)
    (one.isCount.symm ▸ isExtent)
  exact ⟨ip, t, t.memory.free_list, sz, u, opened, regular, one, ran⟩

theorem segments_placed_iff_short : ∃ ip t eh pgdir sz u,
    (openExecutable filePath).run (handle plainKernel) (idleWith [shortSegment]) = some (some ip, t) ∧
      (loadImage ip).run (handle plainKernel) t = some (some (eh, pgdir, sz), u) ∧
      Placed (executable t.machine ip) shortSegment pgdir u.memory := by
  obtain ⟨ip, t, pgdir, sz, u, opened, regular, one, ran⟩ := load_one shortSegment (by decide +kernel)
  have placed := (segments_placed_iff (s := idleWith
    [shortSegment]) idle_free low_free opened regular one.segmented ran).mpr ?_
  · have first := placed 0 ⟨one.isCount ▸ Nat.one_pos, one.isHeader ▸ rfl⟩
    rw [one.isHeader] at first
    exact ⟨ip, t, _, pgdir, sz, u, opened, ran, first⟩
  · intro i loadable _
    obtain rfl : i = 0 := Nat.lt_one_iff.mp (one.isCount ▸ loadable.1)
    rw [one.isHeader]
    decide

def distantSegment : Phdr := ⟨PT_LOAD, 0x100000000, 0, 1, 1⟩

/-- The first byte of the file is loaded in its place. -/
theorem loaded_distant : ¬ ∀ (kernel : Kernel) (path : List UInt8) (s t u : State) (free : List UInt64)
    (ip : Fin ninode) (eh : Ehdr) (pgdir : UInt64) (sz : Int32), Free s.memory free → P2V 0 ∉ free →
    (openExecutable path).run (handle kernel) s = some (some ip, t) → Regular t.machine ip →
    Segmented (executable t.machine ip) → (loadImage ip).run (handle kernel) t = some (some (eh, pgdir, sz), u) →
    ∀ i, (executable t.machine ip).Loadable i →
      Placed (executable t.machine ip) ((executable t.machine ip).programHeader i) pgdir u.memory := by
  intro always
  obtain ⟨ip, t, pgdir, sz, u, opened, regular, one, ran⟩ := load_one distantSegment (by decide +kernel)
  have placed := always plainKernel filePath (idleWith
    [distantSegment]) t u tenAddresses ip _ pgdir sz idle_free low_free
    opened regular one.segmented ran 0 ⟨one.isCount ▸ Nat.one_pos, one.isHeader ▸ rfl⟩
  rw [one.isHeader] at placed
  have inside := (placed.file 0 (by decide)).1
  have small := regular.size_le
  have isOffset : distantSegment.p_offset.toNat = 2 ^ 32 := rfl
  omega

end Xv6.Exec
