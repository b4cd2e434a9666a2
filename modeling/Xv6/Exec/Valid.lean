import Xv6.Exec.Contents
import Xv6.Exec.Stack

/-! Executables with ascending segments.

For a segment that does not start on a page, `execve` adds a page more than the segment needs,
and lets the size grow by 4096. If the next segment ends in the page where this one ends,
`uvm_alloc` sets the size back to its end: the page that has been added is then met again.
-/

set_option autoImplicit false

namespace Xv6.Exec

open Library Vm Fs

/-! ## Extents of segments -/

def segmentEnd (ph : Phdr) : UInt64 := ph.p_memsz + ph.p_vaddr

-- What the calls of `uvm_alloc` for a segment leave if they do not fail.
def after (ph : Phdr) : Extent :=
  if ph.p_vaddr % PGSIZE ≠ 0 then ⟨pagesBelow (segmentEnd ph) + 1, segmentEnd ph + PGSIZE⟩
  else ⟨pagesBelow (segmentEnd ph), segmentEnd ph⟩

section
variable {total : Nat} {ph : Phdr} {e e' : Extent}

/-- A segment that can be loaded. -/
structure Sound (ph : Phdr) : Prop where
  bytes : 0 < ph.p_filesz.toNat
  fits : ph.p_filesz.toNat ≤ ph.p_memsz.toNat
  small : ph.p_vaddr.toNat + ph.p_memsz.toNat < 2 ^ 31

namespace Sound

variable (sound : Sound ph)
include sound

theorem toNat_end : (segmentEnd ph).toNat = ph.p_vaddr.toNat + ph.p_memsz.toNat := by
  have small := sound.small
  rw [segmentEnd, UInt64.toNat_add]
  omega

theorem toNat_next : (segmentEnd ph + PGSIZE).toNat = (segmentEnd ph).toNat + 4096 := by
  have small := sound.small
  rw [UInt64.toNat_add, sound.toNat_end]
  exact Nat.mod_eq_of_lt (by change _ + 4096 < _; omega)

theorem end_pos : 0 < (segmentEnd ph).toNat := by
  have bytes := sound.bytes
  have fits := sound.fits
  rw [sound.toNat_end]
  omega

theorem pages_next : pagesBelow (segmentEnd ph + PGSIZE) = pagesBelow (segmentEnd ph) + 1 := by
  rw [pagesBelow, pagesBelow, sound.toNat_next]
  omega

theorem after_pages : pagesBelow (after ph).size = (after ph).pages := by
  rw [after]
  split
  · exact sound.pages_next
  · rfl

theorem end_le_after : (segmentEnd ph).toNat ≤ (after ph).size.toNat := by
  rw [after]
  split
  · rw [sound.toNat_next]
    omega
  · exact le_rfl

theorem growFor_eq (le : e.pages ≤ pagesBelow (segmentEnd ph))
    (grows : e.growFor total ph = some e') : e' = after ph := by
  obtain ⟨e₁, first, second⟩ := Option.bind_eq_some_iff.mp grows
  obtain ⟨_, rfl⟩ := Extent.grow_some.mp first
  rw [← segmentEnd, Nat.max_eq_right le] at second
  rw [after]
  split at second
  · next unaligned =>
    obtain ⟨_, rfl⟩ := Extent.grow_some.mp second
    rw [if_pos unaligned]
    dsimp only
    rw [sound.pages_next, Nat.max_eq_right (Nat.le_succ _)]
  · next aligned =>
    rw [if_neg aligned]
    exact (Option.some.inj second).symm

theorem growFor_some (isPages : pagesBelow e.size = e.pages) (le : e.pages ≤ pagesBelow (segmentEnd ph))
    (affords : ∀ M, 0 < M → M ≤ pagesBelow (segmentEnd ph) + 1 → Affords total M) :
    e.growFor total ph = some (after ph) := by
  have pos := sound.end_pos
  have pages : 0 < pagesBelow (segmentEnd ph) := by
    rw [pagesBelow]
    omega
  have notZero : segmentEnd ph ≠ 0 := by
    intro isZero
    rw [isZero] at pos
    exact absurd pos (by decide)
  have first : e.grow total (segmentEnd ph) = some ⟨pagesBelow (segmentEnd ph), segmentEnd ph⟩ :=
    Extent.grow_some.mpr ⟨⟨notZero, fun _ => isPages, fun _ => affords _ pages (Nat.le_succ _)⟩,
      by rw [Nat.max_eq_right le]⟩
  rw [Extent.growFor, ← segmentEnd, first, Option.bind_some, after]
  split
  · refine Extent.grow_some.mpr ⟨⟨?_, fun _ => rfl, fun _ => affords _ (by omega) sound.pages_next.le⟩, ?_⟩
    · intro isZero
      have next := sound.toNat_next
      rw [isZero] at next
      change 0 = _ at next
      omega
    · dsimp only
      rw [sound.pages_next, Nat.max_eq_right (Nat.le_succ _)]
  · rfl

theorem growFor_none (more : e.pages = pagesBelow (segmentEnd ph) + 1)
    (unaligned : ph.p_vaddr % PGSIZE ≠ 0) : e.growFor total ph = none := by
  rw [Option.eq_none_iff_forall_ne_some]
  intro e' grows
  obtain ⟨e₁, first, second⟩ := Option.bind_eq_some_iff.mp grows
  obtain ⟨_, rfl⟩ := Extent.grow_some.mp first
  rw [if_pos unaligned, ← segmentEnd] at second
  obtain ⟨⟨_, collides, _⟩, _⟩ := Extent.grow_some.mp second
  have next := sound.toNat_next
  have isEnd := collides (by dsimp only; rw [next, pagesBelow]; omega)
  dsimp only at isEnd
  omega

end Sound

theorem affords_of_needed {pages M N : Nat} (enough : needed N ≤ pages) (pos : 0 < M) (le : M ≤ N) :
    Affords (pages + 1) M := by
  have less : needed (M - 1) + 1 ≤ needed M := by
    simp only [needed]
    omega
  have more := needed_le le
  exact ⟨by omega, by omega⟩

end

/-! ## Segments in order -/

namespace Executable

variable (x : Executable)

def Consecutive (i j : Nat) : Prop := x.Loadable i ∧ x.Loadable j ∧ i < j ∧ ∀ k, i < k → k < j → ¬ x.Loadable k

/-- No segment ends in the page where one before it ends that does not start on a page. -/
def Separated : Prop := ∀ i j, x.Consecutive i j → (x.programHeader i).p_vaddr % PGSIZE ≠ 0 →
  pagesBelow (segmentEnd (x.programHeader i)) ≠ pagesBelow (segmentEnd (x.programHeader j))

def previous : Nat → Option Nat
  | 0 => none
  | n + 1 => if x.Loadable n then some n else previous n

/-- The extent after the turns below `n` if no segment ends where the one before it does. -/
def reached (n : Nat) : Extent := (x.previous n).elim ⟨0, 0⟩ fun i => after (x.programHeader i)

variable {x}

theorem previous_some {i n : Nat} (isPrevious : x.previous n = some i) :
    x.Loadable i ∧ i < n ∧ ∀ k, i < k → k < n → ¬ x.Loadable k := by
  induction n with
  | zero => simp [previous] at isPrevious
  | succ n ih =>
    rw [previous] at isPrevious
    split at isPrevious
    · next loadable =>
      cases isPrevious
      exact ⟨loadable, Nat.lt_succ_self _, fun k low high => by omega⟩
    · next other =>
      obtain ⟨loadable, less, between⟩ := ih isPrevious
      refine ⟨loadable, by omega, fun k low high => ?_⟩
      by_cases last : k = n
      · exact last ▸ other
      · exact between k low (by omega)

theorem previous_none {n : Nat} (isPrevious : x.previous n = none) {k : Nat} (less : k < n) : ¬ x.Loadable k := by
  induction n with
  | zero => exact absurd less (Nat.not_lt_zero k)
  | succ n ih =>
    rw [previous] at isPrevious
    split at isPrevious
    · simp at isPrevious
    · next other =>
      by_cases last : k = n
      · exact last ▸ other
      · exact ih isPrevious (by omega)

theorem reached_succ {n : Nat} (loadable : x.Loadable n) : x.reached (n + 1) = after (x.programHeader n) := by
  rw [reached, previous, if_pos loadable, Option.elim_some]

theorem reached_other {n : Nat} (other : ¬ x.Loadable n) : x.reached (n + 1) = x.reached n := by
  rw [reached, previous, if_neg other, ← reached]

theorem Consecutive.isPrevious {i j : Nat} (consecutive : x.Consecutive i j) : x.previous j = some i := by
  obtain ⟨loadable, _, less, between⟩ := consecutive
  cases isPrevious : x.previous j with
  | none => exact absurd loadable (previous_none isPrevious less)
  | some k =>
    obtain ⟨loadable', less', between'⟩ := previous_some isPrevious
    rcases Nat.lt_trichotomy i k with before | same | later
    · exact absurd loadable' (between k before less')
    · rw [same]
    · exact absurd loadable (between' i later less)

theorem consecutive_of_previous {i j : Nat} (isPrevious : x.previous j = some i) (loadable : x.Loadable j) :
    x.Consecutive i j :=
  ⟨(previous_some isPrevious).1, loadable, (previous_some isPrevious).2⟩

end Executable

/-- An executable with ascending segments, as far as it is to be loaded. -/
structure Ascending (x : Executable) : Prop where
  whole : ehdrSize ≤ x.size
  headers : x.HasHeaders
  sound : ∀ i, x.Loadable i → Sound (x.programHeader i)
  inFile : ∀ i, x.Loadable i → (x.programHeader i).p_offset.toNat + (x.programHeader i).p_filesz.toNat ≤ x.size
  ascends : ∀ i j, x.Loadable i → x.Loadable j → i < j →
    (segmentEnd (x.programHeader i)).toNat ≤ (x.programHeader j).p_vaddr.toNat

namespace Ascending

variable {x : Executable} (valid : Ascending x)
include valid

theorem reached_pages (n : Nat) : pagesBelow (x.reached n).size = (x.reached n).pages := by
  rw [Executable.reached]
  cases isPrevious : x.previous n with
  | none => exact (by decide : pagesBelow 0 = 0)
  | some i => exact (valid.sound i (Executable.previous_some isPrevious).1).after_pages

theorem end_le_reached {i n : Nat} (loadable : x.Loadable i) (less : i < n) :
    (segmentEnd (x.programHeader i)).toNat ≤ (x.reached n).size.toNat := by
  rw [Executable.reached]
  cases isPrevious : x.previous n with
  | none => exact absurd loadable (Executable.previous_none isPrevious less)
  | some j =>
    obtain ⟨loadable', _, between⟩ := Executable.previous_some isPrevious
    have sound := valid.sound j loadable'
    have last := sound.end_le_after
    rcases Nat.lt_trichotomy i j with before | rfl | later
    · have ascends := valid.ascends i j loadable loadable' before
      rw [sound.toNat_end] at last
      exact (ascends.trans (Nat.le_add_right _ _)).trans last
    · exact last
    · exact absurd loadable (between i later less)

/-- A segment that can be loaded begins after the pages, or in the page that was added for the one before it. -/
theorem reached_cases {n : Nat} (loadable : x.Loadable n) :
    (x.reached n).pages ≤ pagesBelow (segmentEnd (x.programHeader n)) ∨
      ((x.reached n).pages = pagesBelow (segmentEnd (x.programHeader n)) + 1 ∧
        (x.programHeader n).p_vaddr % PGSIZE ≠ 0 ∧ ∃ i, x.Consecutive i n ∧ (x.programHeader i).p_vaddr % PGSIZE ≠ 0 ∧
          pagesBelow (segmentEnd (x.programHeader i)) = pagesBelow (segmentEnd (x.programHeader n))) := by
  rw [Executable.reached]
  cases isPrevious : x.previous n with
  | none => exact .inl (Nat.zero_le _)
  | some i =>
    have consecutive := Executable.consecutive_of_previous isPrevious loadable
    have ascends := valid.ascends i n consecutive.1 loadable consecutive.2.2.1
    have sound := valid.sound n loadable
    have isEnd := sound.toNat_end
    have bytes := sound.bytes
    have fits := sound.fits
    rw [Option.elim_some, after]
    split
    · next unaligned =>
      dsimp only
      by_cases same : pagesBelow (segmentEnd (x.programHeader i)) = pagesBelow (segmentEnd (x.programHeader n))
      · refine .inr ⟨by rw [same], fun aligned => ?_, i, consecutive, unaligned, same⟩
        have isPage : (x.programHeader n).p_vaddr.toNat % 4096 = 0 := congrArg UInt64.toNat aligned
        rw [pagesBelow, pagesBelow] at same
        omega
      · rw [pagesBelow, pagesBelow] at *
        exact .inl (by omega)
    · dsimp only
      rw [pagesBelow, pagesBelow]
      exact .inl (by omega)

variable (small : x.size ≤ 71680)
include small

/-- The loop gets past segments in order only if none ends where the one before it does. -/
theorem extent_eq {total n : Nat} {e : Extent} (isExtent : x.extent total n = some e)
    (le : n ≤ x.ehdr.e_phnum.toNat) :
    e = x.reached n ∧ ∀ i j, j < n → x.Consecutive i j → (x.programHeader i).p_vaddr % PGSIZE ≠ 0 →
      pagesBelow (segmentEnd (x.programHeader i)) ≠ pagesBelow (segmentEnd (x.programHeader j)) := by
  induction n generalizing e with
  | zero => exact ⟨(Option.some.inj isExtent).symm, fun i j less => absurd less (Nat.not_lt_zero j)⟩
  | succ n ih =>
    obtain ⟨e₀, before, readable, _, turned⟩ := Executable.extent_succ isExtent
    obtain ⟨rfl, separated⟩ := ih before (by omega)
    have isHeader := (valid.headers.reads small (i := n) (by omega)).2
    by_cases loadable : x.Loadable n
    · rw [isHeader] at turned
      have grows := (turned loadable.2).1
      rcases valid.reached_cases loadable with beyond | ⟨more, unaligned, _⟩
      · refine ⟨?_, fun i j less consecutive unaligned => ?_⟩
        · rw [(valid.sound n loadable).growFor_eq beyond grows, Executable.reached_succ loadable]
        · by_cases last : j = n
          · subst last
            intro same
            rw [Executable.reached, consecutive.isPrevious, Option.elim_some, after, if_pos unaligned, same] at beyond
            exact absurd beyond (by dsimp only; omega)
          · exact separated i j (by omega) consecutive unaligned
      · rw [(valid.sound n loadable).growFor_none more unaligned] at grows
        simp at grows
    · have other : (x.header n).p_type ≠ PT_LOAD := fun loads => loadable ⟨by omega, isHeader ▸ loads⟩
      have turns : x.extent total (n + 1) = some (x.reached n) := by
        rw [Executable.extent, before, Option.bind_some, Executable.turn, if_pos readable, if_pos other]
      obtain rfl := Option.some.inj (turns.symm.trans isExtent)
      refine ⟨(Executable.reached_other loadable).symm, fun i j less consecutive unaligned => ?_⟩
      · by_cases last : j = n
        · exact absurd (last ▸ consecutive.2.1) loadable
        · exact separated i j (by omega) consecutive unaligned

theorem extent_reached {pages : Nat} (separated : x.Separated)
    (enough : ∀ i, x.Loadable i → needed (pagesBelow (segmentEnd (x.programHeader i)) + 3) ≤ pages) {n : Nat}
    (le : n ≤ x.ehdr.e_phnum.toNat) : x.extent (pages + 1) n = some (x.reached n) := by
  induction n with
  | zero => rfl
  | succ n ih =>
    obtain ⟨readable, isHeader⟩ := valid.headers.reads small (i := n) (by omega)
    rw [Executable.extent, ih (by omega), Option.bind_some, Executable.turn, if_pos readable, isHeader]
    by_cases loads : (x.programHeader n).p_type = PT_LOAD
    · have loadable : x.Loadable n := ⟨by omega, loads⟩
      have covers : x.Covers (x.programHeader n) := by
        have inFile := valid.inFile n loadable
        rw [Executable.Covers, UInt64.toNat_toUInt32, UInt64.toNat_toUInt32]
        omega
      rw [if_neg (not_not.mpr loads), (valid.sound n loadable).growFor_some (valid.reached_pages n), Option.bind_some,
        if_pos covers, Executable.reached_succ loadable]
      · rcases valid.reached_cases loadable with beyond | ⟨_, _, i, consecutive, unaligned, same⟩
        · exact beyond
        · exact absurd same (separated i n consecutive unaligned)
      · exact fun M pos most => affords_of_needed (enough n loadable) pos (by omega)
    · rw [if_pos loads, Executable.reached_other fun loadable => loads loadable.2]

end Ascending

/-- There are free pages for the segments, one more page and the stack. -/
def Enough (x : Executable) (pages : Nat) : Prop :=
  needed 2 ≤ pages ∧ ∀ i, x.Loadable i → needed (pagesBelow (segmentEnd (x.programHeader i)) + 3) ≤ pages

/-- The segments and the stack are allocated, no page is asked for twice, and the size does not fall below
the end of a segment that has been loaded. -/
structure NeverFails (kernel : Kernel) (ip : Fin ninode) (s : State) : Prop where
  loaded : ∃ eh pgdir sz t, (loadImage ip).run (handle kernel) s = some (some (eh, pgdir, sz), t)
  stack : ∀ eh pgdir sz t u, (loadImage ip).run (handle kernel) s = some (some (eh, pgdir, sz), t) →
    (close ip).run (handle kernel) t = some ((), u) →
    (∃ top v, (allocStack pgdir sz).run (handle kernel) u = some (some top, v)) ∧
      (allocStack pgdir sz).Along (handle kernel) Fresh u
  fresh : (loadImage ip).Along (handle kernel) Fresh s
  size : ∀ pgdir t i sz u, newTable.run (handle kernel) s = some (pgdir, t) →
    i ≤ (executable s.machine ip).ehdr.e_phnum.toNat →
    (Program.iterate (loadTurn ip pgdir (executable s.machine ip).ehdr) i 0).run
    (handle kernel) t = some (some sz, u) →
    ∀ j, (executable s.machine ip).Loadable j → j < i →
      (segmentEnd ((executable s.machine ip).programHeader j)).toNat ≤ (extend sz).toNat

section
variable {kernel : Kernel} {path : List UInt8} {ip : Fin ninode} {s t : State} {free : List UInt64}

theorem Enough.stack {x : Executable} {pages : Nat} (enough : Enough x pages) (n : Nat) :
    Affords (pages + 1) ((x.reached n).pages + 2) := by
  rw [Executable.reached]
  cases isPrevious : x.previous n with
  | none => exact affords_of_needed enough.1 (Nat.succ_pos _) le_rfl
  | some i =>
    refine affords_of_needed (enough.2 i (Executable.previous_some isPrevious).1) (Nat.succ_pos _) ?_
    rw [Option.elim_some, after]
    split
    · exact le_rfl
    · exact Nat.le_succ _

/-- The segments and the stack of a file with ascending segments are allocated if and only if no segment
ends in the page where the one before it ends, unless that one starts on a page. -/
theorem execve_loads_iff (heap : Free s.memory free) (low : P2V 0 ∉ free)
    (opened : (openExecutable path).run (handle kernel) s = some (some ip, t)) (regular : Regular t.machine ip)
    (valid : Ascending (executable t.machine ip)) (enough : Enough (executable t.machine ip) free.length) :
    NeverFails kernel ip t ↔ (executable t.machine ip).Separated := by
  rw [← (files_run (files_openExecutable path) opened).2] at heap
  have small := regular.size_le
  constructor
  · rintro ⟨⟨eh, pgdir, sz, u, ran⟩, _, _, _⟩ i j consecutive
    obtain ⟨_, _, _, e, bytes, looped⟩ := loadImage_run heap low regular ran
    exact (valid.extent_eq small looped.extent le_rfl).2 i j consecutive.2.1.1 consecutive
  · intro separated
    have isExtent := valid.extent_reached small separated enough.2 le_rfl
    have notEmpty : free ≠ [] := by
      rintro rfl
      exact absurd enough.1 (by decide)
    obtain ⟨sz, u, ran⟩ := loadImage_returns kernel heap low regular valid.whole notEmpty isExtent
    refine ⟨⟨_, _, sz, u, ran⟩, fun eh pgdir sz u v ran closed => ?_, loadImage_fresh heap low regular isExtent, ?_⟩
    · obtain ⟨_, rfl, _, e, bytes, looped⟩ := loadImage_run heap low regular ran
      obtain ⟨rfl, _⟩ := valid.extent_eq small looped.extent le_rfl
      have fits := looped.fits
      rw [← (files_run (files_close ip) closed).2] at fits
      refine allocStack_returns kernel fits (valid.reached_pages _) ?_
      rw [length_start]
      exact enough.stack _
    · intro pgdir u i sz v table le ran j loadable less
      rcases prepared kernel heap regular (opens_confined kernel 0) with ⟨short | empty, _, _⟩ |
        ⟨m, _, _, _, isTable, fits, _, _⟩
      · exact absurd valid.whole short
      · exact absurd empty notEmpty
      · obtain ⟨rfl, rfl⟩ := Prod.mk.inj (Option.some.inj (isTable.symm.trans table))
        obtain ⟨e, bytes, looped⟩ := loop_run (s := { t with memory := m }) (low_start low) regular fits ran
        obtain ⟨rfl, _⟩ := valid.extent_eq small looped.extent le
        rw [looped.fits.size]
        exact valid.end_le_reached loadable less

end

/-! ## Files with two segments -/

structure TwoSegments (x : Executable) (first second : Phdr) : Prop where
  whole : ehdrSize ≤ x.size
  headers : x.HasHeaders
  isCount : x.ehdr.e_phnum.toNat = 2
  isFirst : x.programHeader 0 = first
  isSecond : x.programHeader 1 = second

instance (x : Executable) (first second : Phdr) : Decidable (TwoSegments x first second) :=
  decidable_of_iff (ehdrSize ≤ x.size ∧ x.HasHeaders ∧ x.ehdr.e_phnum.toNat = 2 ∧ x.programHeader 0 = first ∧
      x.programHeader 1 = second)
    ⟨fun ⟨a, b, c, d, e⟩ => ⟨a, b, c, d, e⟩, fun ⟨a, b, c, d, e⟩ => ⟨a, b, c, d, e⟩⟩

/-- The segments lie in the first page of the file and of the address space, and the second follows the first. -/
structure InOnePage (first second : Phdr) : Prop where
  loads : first.p_type = PT_LOAD ∧ second.p_type = PT_LOAD
  sound : Sound first ∧ Sound second
  inFile : first.p_offset.toNat + first.p_filesz.toNat ≤ 512 ∧ second.p_offset.toNat + second.p_filesz.toNat ≤ 512
  ascends : (segmentEnd first).toNat ≤ second.p_vaddr.toNat
  ends : pagesBelow (segmentEnd first) = 1 ∧ pagesBelow (segmentEnd second) = 1

section
variable {x : Executable} {first second : Phdr} (two : TwoSegments x first second) (inPage : InOnePage first second)
include two inPage

theorem TwoSegments.loadable {i : Nat} : x.Loadable i ↔ i = 0 ∨ i = 1 := by
  rw [Executable.Loadable, two.isCount]
  constructor
  · rintro ⟨less, _⟩
    omega
  · rintro (rfl | rfl)
    · exact ⟨by omega, two.isFirst ▸ inPage.loads.1⟩
    · exact ⟨by omega, two.isSecond ▸ inPage.loads.2⟩

theorem TwoSegments.ascending (size : 512 ≤ x.size) : Ascending x := by
  refine ⟨two.whole, two.headers, fun i loadable => ?_, fun i loadable => ?_, fun i j loadable loadable' less => ?_⟩
  · rcases (two.loadable inPage).mp loadable with rfl | rfl
    · exact two.isFirst ▸ inPage.sound.1
    · exact two.isSecond ▸ inPage.sound.2
  · rcases (two.loadable inPage).mp loadable with rfl | rfl
    · exact two.isFirst ▸ inPage.inFile.1.trans size
    · exact two.isSecond ▸ inPage.inFile.2.trans size
  · obtain ⟨rfl, rfl⟩ : i = 0 ∧ j = 1 := by
      have := (two.loadable inPage).mp loadable
      have := (two.loadable inPage).mp loadable'
      omega
    rw [two.isFirst, two.isSecond]
    exact inPage.ascends

theorem TwoSegments.enough : Enough x tenAddresses.length := by
  refine ⟨by decide, fun i loadable => ?_⟩
  rcases (two.loadable inPage).mp loadable with rfl | rfl
  · rw [two.isFirst, inPage.ends.1]
    decide
  · rw [two.isSecond, inPage.ends.2]
    decide

theorem TwoSegments.separated : x.Separated ↔ first.p_vaddr % PGSIZE = 0 := by
  constructor
  · intro separated
    by_contra unaligned
    refine separated 0 1 ⟨(two.loadable inPage).mpr (.inl rfl), (two.loadable inPage).mpr (.inr rfl),
      Nat.one_pos, ?_⟩ ?_ ?_
    · omega
    · exact two.isFirst ▸ unaligned
    · rw [two.isFirst, two.isSecond, inPage.ends.1, inPage.ends.2]
  · intro aligned i j consecutive unaligned
    have isFirst : i = 0 := by
      have := (two.loadable inPage).mp consecutive.1
      have := (two.loadable inPage).mp consecutive.2.1
      have := consecutive.2.2.1
      omega
    rw [isFirst, two.isFirst] at unaligned
    exact absurd aligned unaligned

end

theorem open_two (first second : Phdr) (found : ((openExecutable filePath).run (handle plainKernel)
      (idleWith [first, second])).any (fun out => out.1.any fun ip => decide (Regular out.2.machine ip ∧
        512 ≤ (executable out.2.machine ip).size ∧ TwoSegments (executable out.2.machine ip) first second)) = true) :
    ∃ ip t, (openExecutable filePath).run (handle plainKernel) (idleWith [first, second]) = some (some ip, t) ∧
      Regular t.machine ip ∧ 512 ≤ (executable t.machine ip).size ∧
      TwoSegments (executable t.machine ip) first second := by
  obtain ⟨⟨ip, t⟩, opened, isFile⟩ := (Option.any_eq_true _ _).mp found
  obtain ⟨ip, rfl, isFile⟩ := (Option.any_eq_true _ _).mp isFile
  exact ⟨ip, t, opened, of_decide_eq_true isFile⟩

def innerSegment : Phdr := ⟨PT_LOAD, 0, 200, 10, 100⟩

theorem execve_loads_iff_two : ∃ ip t,
    (openExecutable filePath).run (handle plainKernel) (idleWith [shortSegment, innerSegment]) = some (some ip, t) ∧
      NeverFails plainKernel ip t := by
  have inPage : InOnePage shortSegment innerSegment := by
    refine ⟨by decide, ⟨⟨?_, ?_, ?_⟩, ⟨?_, ?_, ?_⟩⟩, ?_, ?_, ?_⟩ <;> decide
  obtain ⟨ip, t, opened, regular, size, two⟩ := open_two shortSegment innerSegment (by decide +kernel)
  exact ⟨ip, t, opened, (execve_loads_iff (s :=
    idleWith [shortSegment, innerSegment]) idle_free low_free opened regular
    (two.ascending inPage size) (two.enough inPage)).mpr ((two.separated inPage).mpr (by decide))⟩

def unalignedSegment : Phdr := ⟨PT_LOAD, 0, 1, 10, 99⟩

/-- The page that is added for the first of two segments is met by the second. -/
theorem refused_two : ¬ ∀ (kernel : Kernel) (path : List UInt8) (s t : State) (free : List UInt64) (ip : Fin ninode),
    Free s.memory free → P2V 0 ∉ free → (openExecutable path).run (handle kernel) s = some (some ip, t) →
    Regular t.machine ip → Ascending (executable t.machine ip) → Enough (executable t.machine ip) free.length →
    NeverFails kernel ip t := by
  intro always
  have inPage : InOnePage unalignedSegment innerSegment := by
    refine ⟨by decide, ⟨⟨?_, ?_, ?_⟩, ⟨?_, ?_, ?_⟩⟩, ?_, ?_, ?_⟩ <;> decide
  obtain ⟨ip, t, opened, regular, size, two⟩ := open_two unalignedSegment innerSegment (by decide +kernel)
  have valid := two.ascending inPage size
  obtain ⟨eh, pgdir, sz, u, ran⟩ := (always plainKernel filePath
    (idleWith [unalignedSegment, innerSegment]) t tenAddresses ip
    idle_free low_free opened regular valid (two.enough inPage)).loaded
  have memory := (files_run (files_openExecutable filePath) opened).2
  obtain ⟨_, _, _, e, bytes, looped⟩ := loadImage_run (memory ▸ idle_free) low_free regular ran
  have separated := (valid.extent_eq regular.size_le looped.extent le_rfl).2
  refine absurd ((two.separated inPage).mp fun i j consecutive => ?_) (by decide)
  exact separated i j consecutive.2.1.1 consecutive

end Xv6.Exec
