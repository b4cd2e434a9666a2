import Xv6.Vm.Image

/-! New address spaces as arrays of bytes.

The kernel fills an address space through its page table: it looks a page up and copies to
where the page is. As long as the pages are there, this is a store to an array. A copy to a
page that is not there goes to the first page of physical memory.
-/

set_option autoImplicit false

namespace Xv6.Vm

open Library

def Memory.userByte (m : Memory) (root : UInt64) (va : Nat) : Option UInt8 :=
  if Present (m.entry root (va / 4096)) then
    some (m.byte (frame (m.entry root (va / 4096)) + UInt64.ofNat (va % 4096)))
  else none

def Memory.pageByte (m : Memory) (page : Nat → UInt64) (va : Nat) : UInt8 :=
  m.byte (page (va / 4096) + UInt64.ofNat (va % 4096))

/-- An address space of `M` pages with the bytes `bytes`. -/
def Holds (start : List UInt64) (root : UInt64) (M : Nat) (bytes : Nat → UInt8) (m : Memory)
    (taken pages : List UInt64) :
    Prop :=
  ∃ page, Image start root M page m taken pages ∧ ∀ va, va < 4096 * M → m.pageByte page va = bytes va

def Built (start : List UInt64) (root : UInt64) (M : Nat) (bytes : Nat → UInt8) (m : Memory) : Prop :=
  ∃ taken pages, Holds start root M bytes m taken pages ∧ taken.length = needed M

-- Only pages that `kalloc` could give, and the first page of physical memory, have changed.
def Untouched (start : List UInt64) (m m' : Memory) : Prop :=
  ∀ z, z ∉ start → z ≠ P2V 0 → m'.word z = m.word z

section
variable {start taken pages : List UInt64} {root : UInt64} {M : Nat} {page : Nat → UInt64} {m m' m'' : Memory}
  {bytes : Nat → UInt8}

theorem Untouched.refl (start : List UInt64) (m : Memory) : Untouched start m m := fun _ _ _ => rfl

theorem Untouched.trans (first : Untouched start m m') (second : Untouched start m' m'') : Untouched start m m'' :=
  fun z outside other => (second z outside other).trans (first z outside other)

theorem descend_kept (table : ∀ p t, p.length ≤ 3 → descend m.child root p = some t → m'.word t = m.word t)
    {p : List (Fin 512)} (short : p.length ≤ 3) : descend m'.child root p = descend m.child root p := by
  apply descend_congr (d := 3) ?_ short
  intro q t i shorter found
  apply child_congr
  rw [table q t (by omega) found]

theorem entry_kept (table : ∀ p t, p.length ≤ 3 → descend m.child root p = some t → m'.word t = m.word t) (k : Nat) :
    m'.entry root k = m.entry root k := by
  have descends := descend_kept table (p := tablePath k) (Nat.le_refl 3)
  cases reached : descend m.child root (tablePath k) with
  | none => rw [entry_none reached, entry_none (descends.trans reached)]
  | some t =>
    rw [entry_some reached, entry_some (descends.trans reached), table (tablePath k) t (Nat.le_refl 3) reached]

-- A page that is neither a table nor left to `kalloc` may be written to.
theorem Image.write (image : Image start root M page m taken pages) {z : UInt64}
    (notTable : ∀ p, p.length ≤ 3 → descend m.child root p ≠ some z) (unused : z ∉ pages)
    (words : ∀ x, x ≠ z → m'.word x = m.word x) (list : m'.free_list = m.free_list)
    (lock : m'.kmemcslock = m.kmemcslock) : Image start root M page m' taken pages := by
  have table : ∀ p t, p.length ≤ 3 → descend m.child root p = some t → m'.word t = m.word t := by
    intro p t short found
    refine words t ?_
    rintro rfl
    exact notTable p short found
  have descends : ∀ p, p.length ≤ 3 → descend m'.child root p = descend m.child root p :=
    fun p short => descend_kept table short
  have entry := entry_kept table
  refine ⟨image.nodup, image.bound, image.split, image.supply.congr (fun x left => words x ?_) list lock,
    ⟨?_, ?_⟩, ?_, ?_,
    fun k less => (entry k).trans (image.mapped k less),
      fun k low small => (entry k).trans (image.beyond k low small),
    image.owned, image.distinct, ?_⟩
  · rintro rfl
    exact unused left
  · intro p q t shortP shortQ foundP foundQ
    rw [descends p shortP] at foundP
    rw [descends q shortQ] at foundQ
    exact image.tables.distinct p q t shortP shortQ foundP foundQ
  · intro p t short found
    rw [descends p short] at found
    exact image.tables.used p t short found
  · intro q short
    rw [descends q short]
    exact image.below q short
  · intro p t short found
    rw [descends p short] at found
    exact image.inside p t short found
  · intro k less p short
    rw [descends p short]
    exact image.apart k less p short

theorem pageByte_congr {va : Nat} (aligned : (page (va / 4096)).toNat % 4096 = 0)
    (same : m'.word (page (va / 4096)) = m.word (page (va / 4096))) : m'.pageByte page va = m.pageByte page va := by
  have place := ROUNDDOWN_offset aligned (Nat.mod_lt va (show 0 < 4096 by decide))
  rw [Memory.pageByte, Memory.pageByte, Memory.byte, Memory.byte, place, same]

theorem page_lt {va : Nat} (inside : va < 4096 * M) : va / 4096 < M := by omega

namespace Holds

variable {free : List UInt64}

theorem zero {rest : List UInt64} (nodup : (root :: rest).Nodup) (bound : (root :: rest).length ≤ 258049)
    (supply : Supply m true rest) (zero : ∀ i, m.word root i = 0) (bytes : Nat → UInt8) :
    Holds (root :: rest) root 0 bytes m [root] rest :=
  ⟨fun _ => 0, Image.zero nodup bound supply zero _, fun va inside => absurd inside (by omega)⟩

theorem congr {bytes' : Nat → UInt8} (holds : Holds start root M bytes m taken pages)
    (same : ∀ va, va < 4096 * M → bytes' va = bytes va) : Holds start root M bytes' m taken pages := by
  obtain ⟨page, image, contents⟩ := holds
  exact ⟨page, image, fun va inside => (contents va inside).trans (same va inside).symm⟩

theorem size_le (holds : Holds start root M bytes m taken pages) : M ≤ 258049 := by
  obtain ⟨page, image, _⟩ := holds
  exact image.size_le

theorem bound (holds : Holds start root M bytes m taken pages) : start.length ≤ 258049 := by
  obtain ⟨page, image, _⟩ := holds
  exact image.bound

theorem userByte (holds : Holds start root M bytes m taken pages) {va : Nat} (inside : va < 4096 * M) :
    m.userByte root va = some (bytes va) := by
  obtain ⟨page, image, contents⟩ := holds
  have less := page_lt inside
  rw [Memory.userByte, image.mapped _ less, if_pos (userEntry_present _), frame_userEntry (image.owned _ less).2.2,
    ← contents va inside]
  rfl

-- What the hardware reads where the pages that were taken have not changed.
theorem userByte_kept (holds : Holds start root M bytes m taken pages)
    (same : ∀ z, z ∈ taken → m'.word z = m.word z) {va : Nat} (inside : va < 4096 * M) :
    m'.userByte root va = some (bytes va) := by
  obtain ⟨page, image, contents⟩ := holds
  have less := page_lt inside
  obtain ⟨isTaken, _, aligned⟩ := image.owned _ less
  have entry := entry_kept (fun p t short found => same t (image.inside p t short found)) (va / 4096)
  rw [Memory.userByte, entry, image.mapped _ less, if_pos (userEntry_present _), frame_userEntry aligned,
    ← contents va inside]
  exact congrArg some (pageByte_congr aligned (same _ isTaken))

theorem present_iff (holds : Holds start root M bytes m taken pages) (k : Nat) :
    Present (m.entry root k) ↔ k % 2 ^ 36 < M := by
  obtain ⟨page, image, _⟩ := holds
  rw [Image.entry_mod]
  have small : k % 2 ^ 36 < 2 ^ 36 := Nat.mod_lt _ (by decide)
  constructor
  · intro present
    by_contra outside
    rw [image.beyond _ (by omega) small] at present
    exact not_present_zero present
  · intro less
    rw [image.mapped _ less]
    exact userEntry_present _

theorem frame_injective (holds : Holds start root M bytes m taken pages) {j k : Nat} (lessJ : j < M) (lessK : k < M)
    (same : frame (m.entry root j) = frame (m.entry root k)) : j = k := by
  obtain ⟨page, image, _⟩ := holds
  rw [image.mapped j lessJ, image.mapped k lessK, frame_userEntry (image.owned j lessJ).2.2,
    frame_userEntry (image.owned k lessK).2.2] at same
  exact image.distinct j k lessJ lessK same

theorem of_growth {M' : Nat} {page' : Nat → UInt64} {taken' pages' : List UInt64}
    (growth : Growth start root M page m M' page' m' taken' pages')
    (contents : ∀ va, va < 4096 * M → m.pageByte page va = bytes va) :
    Holds start root M' (zeroFrom (4096 * M) bytes) m' taken' pages' := by
  refine ⟨page', growth.image, fun va inside => ?_⟩
  rw [zeroFrom]
  have less := page_lt inside
  have aligned := (growth.image.owned _ less).2.2
  by_cases old : va < 4096 * M
  · have before := page_lt old
    have same := growth.same _ before
    rw [if_pos old, ← contents va old]
    have word := growth.old _ before
    rw [same] at aligned
    rw [Memory.pageByte, same]
    exact pageByte_congr aligned word
  · rw [if_neg old, Memory.pageByte, Memory.byte, ROUNDDOWN_offset aligned (Nat.mod_lt va (by decide)),
      growth.new _ (by omega) less]
    simp [byteOf, toByte]

-- `uvm_alloc` from a page of the address space or the first one after it.
theorem alloc (holds : Holds start root M bytes m taken pages) {oldsz newsz : UInt64} {k : Nat} {r : Int64}
    (isPage : (ROUNDUP oldsz).toNat = 4096 * k) (within : k ≤ M) (ran : uvmAlloc root oldsz newsz m = some (r, m')) :
    ∃ M' taken' pages', Holds start root M' (zeroFrom (4096 * M) bytes) m' taken' pages' ∧ M ≤ M' ∧
      Untouched start m m' ∧
      (r = 0 ∨ r = newsz.toInt64 ∧ M' = max M (pagesBelow newsz) ∧ (ROUNDUP oldsz < newsz → k = M) ∧
        (taken.length = needed M → taken'.length = needed M' ∧ (M < M' → Affords start.length M'))) := by
  obtain ⟨page, image, contents⟩ := holds
  obtain ⟨M', page', taken', pages', growth, outcome⟩ := image.alloc turns isPage within ran
  exact ⟨M', taken', pages', of_growth growth contents, growth.le, fun z outside _ => growth.frame z outside, outcome⟩

theorem alloc_returns (holds : Holds start root M bytes m taken pages) (count : taken.length = needed M)
    {oldsz : UInt64} (newsz : UInt64) {k : Nat} (isPage : (ROUNDUP oldsz).toNat = 4096 * k) (within : k ≤ M)
    (collides : ROUNDUP oldsz < newsz → k = M)
    (enough : M < max M (pagesBelow newsz) → Affords start.length (max M (pagesBelow newsz))) :
    ∃ m', uvmAlloc root oldsz newsz m = some (newsz.toInt64, m') := by
  obtain ⟨page, image, contents⟩ := holds
  have bound := newsz.toNat_lt
  have long : pagesBelow newsz - k < turns := by
    rw [pagesBelow, turns]
    omega
  obtain ⟨page', m', taken', pages', ran, _⟩ := image.alloc_returns count turns isPage within collides enough long
  exact ⟨m', ran⟩

end Holds

theorem Image.iwalk (image : Image start root M page m taken pages) (va : UInt64) :
    pgdirIwalk root va m = some (if va.toNat / 4096 % 2 ^ 36 < M then V2P
      (page (va.toNat / 4096 % 2 ^ 36)) else 0) := by
  rw [pgdirIwalk_entry, Image.entry_mod]
  congr 1
  have small : va.toNat / 4096 % 2 ^ 36 < 2 ^ 36 := Nat.mod_lt _ (by decide)
  by_cases less : va.toNat / 4096 % 2 ^ 36 < M
  · have aligned := V2P_aligned (image.owned _ less).2.2
    rw [if_pos less, image.mapped _ less, ← shift_ROUNDDOWN, userEntry, ROUNDDOWN_aligned aligned, UInt64.or_comm,
      or_shift aligned (by decide)]
  · rw [if_neg less, image.beyond _ (by omega) small]
    rfl

theorem P2V_add (a b : UInt64) : P2V (a + b) = P2V a + b := by
  rw [P2V, P2V, UInt64.add_assoc, UInt64.add_comm b, ← UInt64.add_assoc]

theorem toNat_offset (a : UInt64) {s o : Nat} (small : s < 4096) (less : o < 4096) :
    (a + UInt64.ofNat o - (a + UInt64.ofNat s)).toNat = if s ≤ o then o - s else 2 ^ 64 - (s - o) := by
  have bound := a.toNat_lt
  simp only [UInt64.toNat_sub, UInt64.toNat_add, UInt64.toNat_ofNat']
  split <;> omega

theorem Image.copy (image : Image start root M page m taken pages) {k s n : Nat} (less : k < M)
    (inside : s + n ≤ 4096) (src : Nat → UInt8) :
    Image start root M page (m.copyBytes (page k + UInt64.ofNat s) src n) taken pages ∧
      ∀ va, va < 4096 * M → (m.copyBytes (page k + UInt64.ofNat s) src n).pageByte page va =
        putBytes (m.pageByte page) (4096 * k + s) src n va := by
  obtain ⟨isTaken, _, aligned⟩ := image.owned k less
  have other : ∀ z, z ≠ page k → (m.copyBytes (page k + UInt64.ofNat s) src n).word z = m.word z :=
    fun z other => copyBytes_other s aligned rfl inside other
  obtain ⟨list, lock⟩ := copyBytes_free_list m (page k + UInt64.ofNat s) src n
  refine ⟨image.write (image.apart k less) (image.unused isTaken) other list lock, fun va within => ?_⟩
  by_cases here : va / 4096 = k
  · have small : n ≤ 2 ^ 64 := by omega
    have offset : va % 4096 < 4096 := Nat.mod_lt va (by decide)
    by_cases whole : s = 4096
    · obtain rfl : n = 0 := by omega
      rw [putBytes_zero]
      rfl
    · rw [Memory.pageByte, byte_copyBytes _ _ _ _ small, here, toNat_offset _ (by omega) offset, putBytes]
      by_cases after : 4096 * k + s ≤ va ∧ va < 4096 * k + s + n
      · rw [if_pos (show s ≤ va % 4096 by omega), if_pos (by omega), if_pos after]
        congr 1
        omega
      · rw [if_neg after, Memory.pageByte, here]
        split
        · rw [if_neg (by omega)]
        · rw [if_neg (by omega)]
  · have apart : page (va / 4096) ≠ page k := fun same => here (image.distinct _ k (page_lt within) less same)
    rw [putBytes_outside (by omega), pageByte_congr (image.owned _ (page_lt within)).2.2 (other _ apart)]

namespace Holds

/-- A copy through the page table: it stores to the bytes of the address space or, where there is no
page, to the first page of physical memory. -/
theorem copy (holds : Holds start root M bytes m taken pages) (low : P2V 0 ∉ start) (va : UInt64) {s n : Nat}
    (inside : s + n ≤ 4096) (src : Nat → UInt8) :
    ∃ pa, pgdirIwalk root va m = some pa ∧ Untouched start m (m.copyBytes (P2V (pa + UInt64.ofNat s)) src n) ∧
      (va.toNat / 4096 % 2 ^ 36 < M →
        Holds start root M (putBytes bytes (4096 * (va.toNat / 4096 % 2 ^ 36) + s) src n)
          (m.copyBytes (P2V (pa + UInt64.ofNat s)) src n) taken pages ∧
        ∀ i, i < n → m.byte (P2V (pa + UInt64.ofNat s) + UInt64.ofNat i) = bytes
          (4096 * (va.toNat / 4096 % 2 ^ 36) + s + i) ∧
          Present (m.entry root (va.toNat / 4096 % 2 ^ 36)) ∧
          ROUNDDOWN (P2V (pa + UInt64.ofNat s) + UInt64.ofNat i) = frame (m.entry root (va.toNat / 4096 % 2 ^ 36))) ∧
      (¬ va.toNat / 4096 % 2 ^ 36 < M →
        Holds start root M bytes (m.copyBytes (P2V (pa + UInt64.ofNat s)) src n) taken pages ∧
        ∀ i, i < n → ∀ k, Present (m.entry root k) →
          ROUNDDOWN (P2V (pa + UInt64.ofNat s) + UInt64.ofNat i) ≠ frame (m.entry root k)) := by
  obtain ⟨page, image, contents⟩ := holds
  have place : ∀ z : UInt64, z.toNat % 4096 = 0 → ∀ i, i < n →
      ROUNDDOWN (z + UInt64.ofNat s + UInt64.ofNat i) = z := by
    intro z aligned i less
    rw [UInt64.add_assoc, ← UInt64.ofNat_add, ROUNDDOWN_offset aligned (by omega)]
  refine ⟨_, image.iwalk va, ?_⟩
  by_cases less : va.toNat / 4096 % 2 ^ 36 < M
  · obtain ⟨isTaken, _, aligned⟩ := image.owned _ less
    rw [if_pos less, P2V_add, P2V_V2P]
    obtain ⟨written, stored⟩ := image.copy less inside src
    refine ⟨fun z outside _ => ?_, fun _ => ⟨⟨page, written, fun va within => ?_⟩, fun i isByte => ?_⟩,
      fun outside => absurd less outside⟩
    · refine copyBytes_other s aligned rfl inside ?_
      rintro rfl
      exact outside (image.split ▸ List.mem_append_left pages isTaken)
    · rw [stored va within, putBytes, putBytes, contents va within]
    · refine ⟨?_, image.mapped _ less ▸ userEntry_present _, ?_⟩
      · have quotient : (4096 * (va.toNat / 4096 % 2 ^ 36) + s + i) / 4096 = va.toNat / 4096 % 2 ^ 36 := by omega
        have remainder : (4096 * (va.toNat / 4096 % 2 ^ 36) + s + i) % 4096 = s + i := by omega
        rw [← contents _ (by omega), Memory.pageByte, quotient, remainder, UInt64.ofNat_add, UInt64.add_assoc]
      · rw [place _ aligned i isByte, image.mapped _ less, frame_userEntry aligned]
  · rw [if_neg less, P2V_add]
    have aligned : (P2V 0).toNat % 4096 = 0 := by decide
    have other : ∀ z, z ≠ P2V 0 → (m.copyBytes (P2V 0 + UInt64.ofNat s) src n).word z = m.word z :=
      fun z other => copyBytes_other s aligned rfl inside other
    obtain ⟨list, lock⟩ := copyBytes_free_list m (P2V 0 + UInt64.ofNat s) src n
    have isOther : ∀ z, z ∈ start → z ≠ P2V 0 := by
      rintro z member rfl
      exact low member
    have fromTaken : ∀ z, z ∈ taken → z ∈ start := fun z member => image.split ▸ List.mem_append_left pages member
    refine ⟨fun z _ notFirst => other z notFirst, fun within => absurd within less, fun _ => ⟨⟨page, ?_, ?_⟩, ?_⟩⟩
    · refine image.write (fun p short found => ?_) (fun left => ?_) other list lock
      · exact isOther _ (fromTaken _ (image.inside p _ short found)) rfl
      · exact low (image.split ▸ List.mem_append_right taken left)
    · intro va within
      obtain ⟨isTaken, _, aligned⟩ := image.owned _ (page_lt within)
      rw [pageByte_congr aligned (other _ (isOther _ (fromTaken _ isTaken))), contents va within]
    · intro i isByte k present
      have known := (present_iff ⟨page, image, contents⟩ k).mp present
      rw [place _ aligned i isByte, Image.entry_mod]
      obtain ⟨isTaken, _, aligned⟩ := image.owned _ known
      rw [image.mapped _ known, frame_userEntry aligned]
      exact (isOther _ (fromTaken _ isTaken)).symm

end Holds

end

end Xv6.Vm
