import Xv6.Exec.Segments

/-! The two pages that `execve` adds for the stack, and pages that are asked for twice.

`allocStack` starts at the page after the size. The pages that the loop has left may go one
page further: then `uvm_alloc` meets a page that is there, and the allocation fails.
-/

set_option autoImplicit false

namespace Xv6.Exec

open Library Vm

-- `uvm_alloc` is not asked for a page that is there.
def Fresh : Exec.Request → State → Prop
  | .uvmAlloc pgdir oldsz newsz, s => ∀ k, (ROUNDUP oldsz).toNat ≤ 4096 * k → 4096 * k < newsz.toNat →
    ¬ Present (s.memory.entry pgdir k)
  | _, _ => True

-- Requests of `loadseg`.
def Reads : Exec.Request → Prop
  | .pgdirIwalk .. | .readi .. | .panic => True
  | _ => False

theorem reads_loadseg {pgdir va : UInt64} {ip : Fin ninode} {off sz : UInt32} :
    (loadseg pgdir va ip off sz).Issues Reads :=
  issues_loadseg (fun _ _ => trivial) (fun _ _ _ => trivial) trivial

theorem fresh_of_issues {A : Type} {kernel : Kernel} {ok : Exec.Request → Prop} {p : Program Exec A}
    (issues : p.Issues ok) (allocates : ∀ pgdir oldsz newsz, ¬ ok (.uvmAlloc pgdir oldsz newsz)) (s : State) :
    p.Along (handle kernel) Fresh s := by
  refine issues.along (fun r s isOk => ?_) s
  cases r with
  | uvmAlloc pgdir oldsz newsz => exact absurd isOk (allocates pgdir oldsz newsz)
  | _ => trivial

theorem fresh_files (r : Exec.Request) (s : State) (isFile : Files r) : Fresh r s := by
  cases r with
  | uvmAlloc pgdir oldsz newsz => exact absurd isFile id
  | _ => trivial

section
variable {kernel : Kernel} {s t : State} {start : List UInt64} {root : UInt64} {bytes : Nat → UInt8} {e e' : Extent}
  {sz sz' : Int32}

/-! ## Pages that are asked for once -/

theorem allocTo_fresh (fits : Fits start root bytes e sz s.memory) {newsz : UInt64}
    (grows : e.grow start.length newsz = some e') : (allocTo root sz newsz).Along (handle kernel) Fresh s := by
  have most := fits.grow_le grows
  rw [pagesBelow] at most
  obtain ⟨size, within, taken, pages, ⟨page, image, _⟩, _⟩ := fits
  obtain ⟨⟨_, collides, _⟩, rfl⟩ := Extent.grow_some.mp grows
  refine Program.along_bind.mpr ⟨Program.along_request.mpr fun k low high => ?_, fun r u _ => ?_⟩
  · rw [size, ROUNDUP_pages within image.size_le] at low
    have isEnd := collides (by omega)
    rw [image.beyond k (by omega) (by omega)]
    exact not_present_zero
  · dsimp only
    split <;> trivial

theorem growFor_fresh (fits : Fits start root bytes e sz s.memory) {ph : Phdr}
    (grows : e.growFor start.length ph = some e') :
    (growFor root ph sz).Along (handle kernel) Fresh s := by
  obtain ⟨e₁, first, second⟩ := Option.bind_eq_some_iff.mp grows
  refine Program.along_bind.mpr ⟨allocTo_fresh fits first, fun grown u ran => ?_⟩
  cases grown with
  | none => trivial
  | some sz₁ =>
    obtain ⟨_, outcome⟩ := allocTo_run fits ran
    obtain ⟨e₁', isFirst, fits₁⟩ := outcome sz₁ rfl
    obtain rfl := Option.some.inj (first.symm.trans isFirst)
    dsimp only
    rw [growExtra]
    by_cases unaligned : ph.p_vaddr % PGSIZE ≠ 0
    · rw [if_pos unaligned, ← fits₁.next.1] at second
      rw [if_pos unaligned]
      exact allocTo_fresh fits₁ second
    · rw [if_neg unaligned]
      trivial

variable (kernel) in
theorem loadTurn_fresh {ip : Fin ninode} (fits : Fits start root bytes e sz s.memory)
    (regular : Regular s.machine ip) {i : Nat}
    (turns : (executable s.machine ip).turn start.length i e = some e') :
    (loadTurn ip root (executable s.machine ip).ehdr i sz).Along (handle kernel) Fresh s := by
  refine ((loadTurn_eq regular kernel root i sz).2 Fresh fresh_files).mpr fun readable loads => ?_
  rw [Executable.turn, if_pos readable, if_neg (not_not.mpr loads)] at turns
  obtain ⟨e₁, grows, _⟩ := Option.bind_eq_some_iff.mp turns
  refine Program.along_bind.mpr ⟨growFor_fresh fits grows, fun grown u _ => ?_⟩
  cases grown with
  | none => trivial
  | some sz₁ =>
    refine Program.along_bind.mpr ⟨fresh_of_issues reads_loadseg (fun _ _ _ => id) u,
      fun whole v _ => ?_⟩
    cases whole <;> trivial

theorem loadImage_fresh {ip : Fin ninode} {free : List UInt64} (heap : Free s.memory free) (low : P2V 0 ∉ free)
    (regular : Regular s.machine ip)
    (isExtent : (executable s.machine ip).extent (free.length + 1) (executable s.machine ip).ehdr.e_phnum.toNat = some e) :
    (loadImage ip).Along (handle kernel) Fresh s := by
  have opens : Opens Fresh := ⟨fresh_files, fun _ => trivial, fun _ _ => trivial⟩
  rcases prepared kernel heap regular opens with ⟨_, _, along⟩ | ⟨m, _, _, _, _, fits, _, along⟩
  · exact along
  · refine along.mpr (Program.along_iterate.mpr fun i sz t less ran => ?_)
    obtain ⟨e₁, bytes, looped⟩ := loop_run (s := { s with memory := m }) (low_start low) regular fits ran
    obtain ⟨machine, regular'⟩ := looped.regular regular
    obtain ⟨e₂, next⟩ := Executable.extent_before isExtent less
    rw [← length_start, Executable.extent, looped.extent, Option.bind_some, ← machine] at next
    have fresh := loadTurn_fresh kernel looped.fits regular' next
    rw [machine] at fresh
    exact fresh

/-! ## The stack -/

theorem Fits.roundup (fits : Fits start root bytes e sz s.memory) :
    Fits start root bytes ⟨e.pages, ROUNDUP e.size⟩ (ROUNDUP (extend sz)).toInt64.toInt32 s.memory ∧
      extend ((ROUNDUP (extend sz)).toInt64.toInt32 + 2 * 4096) = ROUNDUP e.size + 8192 ∧
      (ROUNDUP e.size + 8192).toNat = 4096 * (pagesBelow e.size + 2) ∧
      pagesBelow (ROUNDUP e.size) = pagesBelow e.size := by
  have limit := fits.pages_le
  have within := fits.within
  have isPage := ROUNDUP_pages within limit
  have same : pagesBelow (ROUNDUP e.size) = pagesBelow e.size := by
    rw [pagesBelow, isPage]
    omega
  have sum : (ROUNDUP e.size + 8192).toNat = 4096 * (pagesBelow e.size + 2) := by
    have below : (ROUNDUP e.size).toNat + 8192 < 2 ^ 64 := by omega
    rw [UInt64.toNat_add]
    change ((ROUNDUP e.size).toNat + 8192) % 2 ^ 64 = _
    omega
  have isSize : extend (narrow (ROUNDUP e.size)) = ROUNDUP e.size := extend_narrow (by omega)
  rw [fits.size, ← narrow]
  refine ⟨⟨isSize, same.le.trans within, fits.built⟩, ?_, sum, same⟩
  have narrowed : narrow 8192 = 2 * 4096 := by decide
  rw [← narrowed, extend_add (by rw [isSize, sum]; omega), isSize]

theorem Extent.grow_stack {total : Nat} (roundup : pagesBelow (ROUNDUP e.size) = pagesBelow e.size)
    (isEnd : (ROUNDUP e.size + 8192).toNat = 4096 * (pagesBelow e.size + 2)) :
    (⟨e.pages, ROUNDUP e.size⟩ : Extent).grow total (ROUNDUP e.size + 8192) = some e' ↔
      pagesBelow e.size = e.pages ∧ Affords total (e.pages + 2) ∧ e' = ⟨e.pages + 2, ROUNDUP e.size + 8192⟩ := by
  have pages : pagesBelow (ROUNDUP e.size + 8192) = pagesBelow e.size + 2 := by
    rw [pagesBelow, isEnd]
    omega
  have notZero : ROUNDUP e.size + 8192 ≠ 0 := by
    intro isZero
    rw [isZero] at isEnd
    change 0 = _ at isEnd
    omega
  rw [Extent.grow_some]
  dsimp only
  rw [roundup, pages, isEnd]
  constructor
  · rintro ⟨⟨_, collides, affords⟩, rfl⟩
    have isPages := collides (by omega)
    have more : e.pages ≤ e.pages + 2 := Nat.le_add_right ..
    rw [isPages, Nat.max_eq_right more]
    exact ⟨rfl, isPages ▸ affords (by omega), rfl⟩
  · rintro ⟨isPages, affords, rfl⟩
    have more : e.pages ≤ e.pages + 2 := Nat.le_add_right ..
    rw [isPages, Nat.max_eq_right more]
    exact ⟨⟨notZero, fun _ => rfl, fun _ => affords⟩, rfl⟩

theorem allocStack_run (fits : Fits start root bytes e sz s.memory) {r : Option Int32}
    (ran : (allocStack root sz).run (handle kernel) s = some (r, t)) :
    Enlarged start root (zeroFrom (4096 * e.pages) bytes) s t ∧ ∀ top, r = some top → pagesBelow e.size = e.pages ∧
      ∃ size, size.toNat = 4096 * (e.pages + 2) ∧
        Fits start root (zeroFrom (4096 * e.pages) bytes) ⟨e.pages + 2, size⟩ top t.memory := by
  obtain ⟨rounded, isNew, isEnd, same⟩ := fits.roundup
  rw [allocStack, isNew] at ran
  obtain ⟨enlarged, outcome⟩ := allocTo_run rounded ran
  refine ⟨enlarged, fun top isSome => ?_⟩
  obtain ⟨e', grows, fits'⟩ := outcome top isSome
  obtain ⟨isPages, _, rfl⟩ := (Extent.grow_stack same isEnd).mp grows
  exact ⟨isPages, _, isPages ▸ isEnd, fits'⟩

theorem allocStack_returns (kernel : Kernel) (fits : Fits start root bytes e sz s.memory)
    (isPages : pagesBelow e.size = e.pages) (affords : Affords start.length (e.pages + 2)) :
    (∃ top t, (allocStack root sz).run (handle kernel) s = some (some top, t)) ∧
      (allocStack root sz).Along (handle kernel) Fresh s := by
  obtain ⟨rounded, isNew, isEnd, same⟩ := fits.roundup
  have grows := (Extent.grow_stack same isEnd).mpr ⟨isPages, affords, rfl⟩
  rw [allocStack, isNew]
  exact ⟨allocTo_returns kernel rounded grows, allocTo_fresh rounded grows⟩

end

end Xv6.Exec
