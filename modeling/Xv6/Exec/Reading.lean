import Xv6.Exec.Loading
import Xv6.Fs.Contents

/-! `loadseg` on a regular file.

A segment is read page by page, and the bytes that the file has of it go to the page that is
found for the address. Where all of them are below the end of the address space they are one
store to its bytes. Otherwise some of them go to the first page of physical memory.
-/

set_option autoImplicit false

namespace Xv6.Exec

open Library Vm Fs

/-! ## Files -/

-- What `readi` sees of a file.
structure Executable where
  size : Nat
  byte : Nat → UInt8

def executable (m : Machine) (ip : Fin ninode) : Executable where
  size := (m.icache ip).size.toNat
  byte := byteAt m.store.view (m.icache ip).addrs

/-- A file, and no device, that has all its blocks. -/
structure Regular (m : Machine) (ip : Fin ninode) : Prop where
  notDev : (m.icache ip).type ≠ T_DEV
  mapped : Mapped m.store.view (m.icache ip).addrs (m.icache ip).size.toNat

instance (m : Machine) (ip : Fin ninode) : Decidable (Regular m ip) :=
  decidable_of_iff ((m.icache ip).type ≠ T_DEV ∧ ∀ k, k < (m.icache ip).size.toNat →
    blockAt m.store.view (m.icache ip).addrs (k / bsize) ≠ 0) ⟨fun ⟨notDev, mapped⟩ => ⟨notDev, mapped⟩,
      fun regular => ⟨regular.notDev, regular.mapped⟩⟩

namespace Executable

variable (x : Executable)

def delivers (off n : Nat) : Nat := min n (x.size - off)

-- What `readi` returns.
def reply (off n : Nat) : Int := if off ≤ x.size then x.delivers off n else -1

def source (off : Nat) : Nat → UInt8 := fun k => x.byte (off + k)

theorem reply_eq {off n : Nat} : x.reply off n = n ↔ off + n ≤ x.size := by
  rw [reply, delivers]
  split <;> omega

theorem reply_lt {off n i : Nat} : (i : Int) < x.reply off n ↔ i < x.delivers off n := by
  rw [reply, delivers]
  split <;> omega

end Executable

section
variable {m : Machine} {ip : Fin ninode}

namespace Regular

theorem size_le (regular : Regular m ip) : (executable m ip).size ≤ 71680 := by
  by_contra large
  have bound := blockAt_bound (regular.mapped 71680 (by change 71680 < (executable m ip).size; omega))
  exact absurd bound (by decide)

theorem readi (regular : Regular m ip) (sb : Superblock) (devsw : Fin ndev → Devsw UInt32) (buffer : Nat → UInt8)
    (off : UInt64) {n : UInt64} (short : n.toNat < 2 ^ 63) :
    Machine.handle sb devsw (.readi ip buffer off n) m = some (((executable m ip).reply off.toNat n.toNat, fun k =>
      if k < (executable m ip).delivers off.toNat n.toNat then (executable m ip).byte (off.toNat + k) else buffer k), m) := by
  have size := (m.icache ip).size.toNat_lt
  have same : Function.update m.icache ip (m.icache ip) = m.icache := Function.update_eq_self ..
  rw [Machine.handle, Machine.call]
  by_cases start : off.toNat ≤ (executable m ip).size
  · rw [readi_run regular.notDev regular.mapped start
      (by change off.toNat ≤ (m.icache ip).size.toNat at start; omega),
      Executable.reply, if_pos start, Option.map_some, same]
    rfl
  · have refused : off > (m.icache ip).size.toUInt64 ∨ off + n < off := (range_refused _).mpr fun both => start both.1
    have none : (executable m ip).delivers off.toNat n.toNat = 0 := by
      rw [Executable.delivers]
      omega
    rw [Fs.readi, if_neg regular.notDev, if_pos refused, Executable.reply, if_neg start, none, Program.run_pure,
      Option.map_some, same]
    simp only [Nat.not_lt_zero, if_false]
    rfl

end Regular

/-! ## Pieces of a segment -/

/-- A read into memory stores to pages of an address space only. -/
def Confined (kernel : Kernel) (root : UInt64) : Exec.Request → State → Prop
  | .readi ip dst off n, s => ∀ out, readTo kernel ip dst off n s = some out → ∀ i : Nat, (i : Int) < out.1.1 →
      ∃ k, Present (s.memory.entry root k) ∧ ROUNDDOWN (dst + UInt64.ofNat i) = frame (s.memory.entry root k)
  | _, _ => True

variable (kernel : Kernel) {s : State} {start : List UInt64} {root : UInt64} {M : Nat} {bytes : Nat → UInt8}

def pageOf (va : UInt64) : Nat := va.toNat / 4096 % 2 ^ 36

-- A turn of `loadseg`, and what follows when it has read the whole piece.
theorem piece_then (built : Built start root M bytes s.memory) (low : P2V 0 ∉ start) (regular : Regular s.machine ip)
    {va o : UInt64} (off : UInt64) {n : UInt64} (inside : o.toNat + n.toNat ≤ 4096) {place : UInt64 → UInt64}
    (isPlace : ∀ pa, place pa = P2V (pa + o)) (rest : Program Exec Bool) :
    ∃ m', Untouched start s.memory m' ∧
      (pageOf va < M → Built start root M (putBytes bytes (4096 * pageOf va + o.toNat)
        ((executable s.machine ip).source off.toNat) ((executable s.machine ip).delivers off.toNat n.toNat)) m') ∧
      (¬ pageOf va < M → Built start root M bytes m') ∧
      (do let pa ← pgdirIwalk root va
          let r ← readi ip (place pa) off n
          if r ≠ n.toNat then return false else rest).run (handle kernel) s =
        (if off.toNat + n.toNat ≤ (executable s.machine ip).size then rest.run (handle kernel) { s with memory := m' }
          else some (false, { s with memory := m' })) ∧
      ((do let pa ← pgdirIwalk root va
           let r ← readi ip (place pa) off n
           if r ≠ n.toNat then return false else rest).Along (handle kernel) (Confined kernel root) s ↔
        ((executable s.machine ip).delivers off.toNat n.toNat = 0 ∨ pageOf va < M) ∧
          (off.toNat + n.toNat ≤ (executable s.machine ip).size →
            rest.Along (handle kernel) (Confined kernel root) { s with memory := m' })) := by
  obtain ⟨taken, pages, holds, count⟩ := built
  obtain ⟨pa, found, _⟩ := holds.copy low va inside fun _ => 0
  obtain ⟨src, isSrc⟩ : ∃ src : Nat → UInt8, src = fun k =>
      if k < (executable s.machine ip).delivers off.toNat n.toNat then (executable s.machine ip).byte (off.toNat + k)
      else s.memory.byte (P2V (pa + o) + UInt64.ofNat k) := ⟨_, rfl⟩
  obtain ⟨pa', found', untouched, mapped, missing⟩ := holds.copy low va inside src
  obtain rfl := Option.some.inj (found.symm.trans found')
  rw [UInt64.ofNat_toNat] at untouched mapped missing
  obtain ⟨d, isD⟩ : ∃ d, d = (executable s.machine ip).delivers off.toNat n.toNat := ⟨_, rfl⟩
  have short : d ≤ n.toNat := by
    rw [isD, Executable.delivers]
    omega
  have reads : readTo kernel ip (P2V (pa + o)) off n s =
      some (((executable s.machine ip).reply off.toNat n.toNat, src), s.machine) := by
    rw [readTo, regular.readi _ _ _ _ (by omega), isSrc]
  have looked : handle kernel (.pgdirIwalk root va) s = some (pa, s) := by
    rw [handle, found]
    rfl
  have answered : handle kernel (.readi ip (place pa) off n) s =
      some ((executable s.machine ip).reply off.toNat n.toNat, s.copied s.machine (P2V (pa + o)) src n.toNat) := by
    rw [handle, isPlace, reads]
    rfl
  refine ⟨s.memory.copyBytes (P2V (pa + o)) src n.toNat, untouched, fun less => ?_, fun outside => ?_, ?_, ?_⟩
  · obtain ⟨holds', old⟩ := mapped less
    refine ⟨taken, pages, holds'.congr fun i within => ?_, count⟩
    rw [← isD, pageOf]
    simp only [putBytes]
    generalize va.toNat / 4096 % 2 ^ 36 = k at old ⊢
    by_cases delivered : 4096 * k + o.toNat ≤ i ∧ i < 4096 * k + o.toNat + d
    · rw [if_pos delivered, if_pos (by omega), isSrc]
      dsimp only
      rw [if_pos (by omega), Executable.source]
    · rw [if_neg delivered]
      split
      · next inPiece =>
        rw [isSrc]
        dsimp only
        rw [if_neg (by omega), (old (i - (4096 * k + o.toNat)) (by omega)).1]
        congr 1
        omega
      · rfl
  · exact ⟨taken, pages, (missing outside).1, count⟩
  · refine (run_then s looked _).trans ((run_then s answered _).trans ?_)
    by_cases whole : off.toNat + n.toNat ≤ (executable s.machine ip).size
    · rw [if_neg (not_not.mpr (Executable.reply_eq _ |>.mpr whole)), if_pos whole]
      rfl
    · rw [if_pos fun isWhole => whole ((Executable.reply_eq _).mp isWhole), if_neg whole]
      rfl
  · have confined : Confined kernel root (.readi ip (place pa) off n) s ↔ d = 0 ∨ pageOf va < M := by
      rw [Confined, isPlace, reads]
      constructor
      · intro all
        by_contra neither
        obtain ⟨delivers, outside⟩ := not_or.mp neither
        obtain ⟨k, present, isFrame⟩ := all _ rfl 0 ((Executable.reply_lt _).mpr (by omega))
        exact (missing outside).2 0 (by omega) k present isFrame
      · intro either out isOut i delivered
        cases isOut
        have less := (Executable.reply_lt _).mp delivered
        have inPage : pageOf va < M := either.resolve_left (by omega)
        obtain ⟨_, present, isFrame⟩ := (mapped inPage).2 i (by omega)
        exact ⟨_, present, isFrame⟩
    refine (Program.along_then looked _).trans
      (((and_iff_right trivial).trans (Program.along_then answered _)).trans ?_)
    refine and_congr (isD ▸ confined) ?_
    by_cases whole : off.toNat + n.toNat ≤ (executable s.machine ip).size
    · rw [if_neg (not_not.mpr (Executable.reply_eq _ |>.mpr whole))]
      exact ⟨fun along _ => along, fun along => along whole⟩
    · rw [if_pos fun isWhole => whole ((Executable.reply_eq _).mp isWhole)]
      exact iff_of_true trivial fun isWhole => absurd isWhole whole

/-! ## Segments -/

structure Read (kernel : Kernel) (ip : Fin ninode) (start : List UInt64) (root : UInt64) (M : Nat)
    (bytes : Nat → UInt8)
    (v off sz : Nat) (p : Program Exec Bool) (s : State) (bytes' : Nat → UInt8) (m' : Memory) : Prop where
  ran : p.run (handle kernel) s = some (decide (off + sz ≤ (executable s.machine ip).size), { s with memory := m' })
  outside : Untouched start s.memory m'
  built : Built start root M bytes' m'
  bytes : (executable s.machine ip).delivers off sz = 0 ∨ v + (executable s.machine ip).delivers off sz ≤ 4096 * M →
    bytes' = putBytes bytes v ((executable s.machine ip).source off) ((executable s.machine ip).delivers off sz)
  confined : p.Along (handle kernel) (Confined kernel root) s ↔
    (executable s.machine ip).delivers off sz = 0 ∨ v + (executable s.machine ip).delivers off sz ≤ 4096 * M

theorem pageLength_toNat (left : UInt32) : (pageLength left).toNat = min left.toNat 4096 := by
  rw [pageLength]
  by_cases long : left ≥ 4096
  · have large : 4096 ≤ left.toNat := UInt32.le_iff_toNat_le.mp long
    rw [if_pos long]
    change 4096 = _
    omega
  · have small : ¬ 4096 ≤ left.toNat := fun large => long (UInt32.le_iff_toNat_le.mpr large)
    rw [if_neg long]
    omega

theorem headLength_toNat {o : UInt32} (small : o.toNat < 4096) (sz : UInt32) :
    (headLength o sz).toNat = min sz.toNat (4096 - o.toNat) := by
  have left : (4096 - o).toNat = 4096 - o.toNat := by
    have below : o ≤ 4096 := UInt32.le_iff_toNat_le.mpr (by change o.toNat ≤ 4096; omega)
    rw [UInt32.toNat_sub_of_le _ _ below]
    rfl
  rw [headLength]
  by_cases short : 4096 - o > sz
  · have less : sz.toNat < (4096 - o).toNat := UInt32.lt_iff_toNat_lt.mp short
    rw [if_pos short]
    omega
  · have most : ¬ sz.toNat < (4096 - o).toNat := fun less => short (UInt32.lt_iff_toNat_lt.mpr less)
    rw [if_neg short, left]
    omega

theorem Executable.delivers_add (x : Executable) {off n k : Nat} (whole : off + n ≤ x.size) :
    x.delivers off (n + k) = n + x.delivers (off + n) k := by
  rw [delivers, delivers]
  omega

theorem Executable.delivers_whole (x : Executable) {off n : Nat} (whole : off + n ≤ x.size) :
    x.delivers off n = n := by
  rw [delivers]
  omega

theorem Executable.delivers_part (x : Executable) {off n k : Nat} (part : ¬ off + n ≤ x.size) :
    x.delivers off (n + k) = x.delivers off n := by
  rw [delivers, delivers]
  omega

section
variable {v v' b o n k : Nat}

/-- The address `v'` after a piece of one page at `v`; the addresses start again from 0. -/
structure NextPiece (M v v' b o n : Nat) : Prop where
  isAddress : v = 4096 * b + o
  first : o < 4096
  inside : o + n ≤ 4096
  page : b < 2 ^ 36
  isNext : v' = if v + n < 2 ^ 48 then v + n else 0
  limit : M ≤ 258049

theorem NextPiece.next_eq (piece : NextPiece M v v' b o n) (less : b < M) : v' = v + n := by
  obtain ⟨isAddress, first, inside, page, isNext, limit⟩ := piece
  rw [isNext, if_pos (by omega)]

theorem NextPiece.below_iff (piece : NextPiece M v v' b o n) :
    (n = 0 ∨ b < M) ∧ (k = 0 ∨ v' + k ≤ 4096 * M) ↔ n + k = 0 ∨ v + (n + k) ≤ 4096 * M := by
  obtain ⟨isAddress, first, inside, page, isNext, limit⟩ := piece
  constructor
  · intro ⟨here, later⟩
    split at isNext <;> omega
  · intro all
    constructor <;> split at isNext <;> omega

theorem NextPiece.none_outside (piece : NextPiece M v v' b o n) (outside : ¬ b < M)
    (within : n + k = 0 ∨ v + (n + k) ≤ 4096 * M) : n + k = 0 := by
  have := piece.isAddress
  omega

end

theorem Read.cons (built : Built start root M bytes s.memory) (low : P2V 0 ∉ start) (regular : Regular s.machine ip)
    {va o off n : UInt64} (first : o.toNat < 4096) (inside : o.toNat + n.toNat ≤ 4096) {place : UInt64 → UInt64}
    (isPlace : ∀ pa, place pa = P2V (pa + o)) {rest : Program Exec Bool} {left v v' : Nat}
    (isAddress : v = 4096 * pageOf va + o.toNat) (isNext : v' = if v + n.toNat < 2 ^ 48 then v + n.toNat else 0)
    (next : ∀ m bytes, off.toNat + n.toNat ≤ (executable s.machine ip).size → Built start root M bytes m →
      ∃ bytes' m', Read kernel ip start root M bytes v' (off.toNat + n.toNat) left rest
      { s with memory := m } bytes' m') :
    ∃ bytes' m', Read kernel ip start root M bytes v off.toNat (n.toNat + left)
      (do let pa ← pgdirIwalk root va
          let r ← readi ip (place pa) off n
          if r ≠ n.toNat then return false else rest) s bytes' m' := by
  have limit : M ≤ 258049 := by
    obtain ⟨taken, pages, holds, _⟩ := built
    exact holds.size_le
  have page : pageOf va < 2 ^ 36 := Nat.mod_lt _ (by decide)
  have piece : NextPiece M v v' (pageOf va) o.toNat n.toNat := ⟨isAddress, first, inside, page, isNext, limit⟩
  obtain ⟨m₁, outside, mapped, missing, ran, along⟩ :=
    piece_then kernel built low regular off inside isPlace rest
  rw [← isAddress] at mapped
  obtain ⟨bytes₁, built₁, isBytes⟩ : ∃ bytes₁, Built start root M bytes₁ m₁ ∧
      (pageOf va < M → bytes₁ = putBytes bytes v ((executable s.machine ip).source off.toNat)
        ((executable s.machine ip).delivers off.toNat n.toNat)) ∧ (¬ pageOf va < M → bytes₁ = bytes) := by
    by_cases less : pageOf va < M
    · exact ⟨_, mapped less, fun _ => rfl, fun outside => absurd less outside⟩
    · exact ⟨bytes, missing less, fun less' => absurd less' less, fun _ => rfl⟩
  by_cases whole : off.toNat + n.toNat ≤ (executable s.machine ip).size
  · obtain ⟨bytes', m', read⟩ := next m₁ bytes₁ whole built₁
    obtain ⟨ran', outside', built', isBytes', along'⟩ := read
    have one := (executable s.machine ip).delivers_whole whole
    have both := (executable s.machine ip).delivers_add (k := left) whole
    rw [one] at along isBytes
    change _ ↔ (executable s.machine ip).delivers _ _ = 0 ∨ _ + (executable s.machine ip).delivers _ _ ≤ _ at along'
    change (executable s.machine ip).delivers _ _ = 0 ∨ _ + (executable s.machine ip).delivers _ _ ≤ _ →
      _ = putBytes _ _ ((executable s.machine ip).source _) ((executable s.machine ip).delivers _ _) at isBytes'
    refine ⟨bytes', m', ?_, outside.trans outside', built', fun within => ?_, ?_⟩
    · rw [ran, if_pos whole, ran', ← Nat.add_assoc]
    · rw [both] at within ⊢
      have later := (piece.below_iff.mpr within).2
      by_cases less : pageOf va < M
      · rw [isBytes' later, isBytes.1 less, piece.next_eq less, ← putBytes_putBytes]
        congr 1
        funext i
        rw [Executable.source, Executable.source, Nat.add_assoc]
      · have nothing := piece.none_outside less within
        rw [isBytes' later, isBytes.2 less, nothing, (Nat.add_eq_zero_iff.mp nothing).2, putBytes_zero,
          putBytes_zero]
    · rw [along, along', both, ← piece.below_iff]
      exact and_congr_right fun _ => ⟨fun later => later whole, fun later _ => later⟩
  · have part := (executable s.machine ip).delivers_part (k := left) whole
    have few : (executable s.machine ip).delivers off.toNat n.toNat ≤ n.toNat := Nat.min_le_left ..
    refine ⟨bytes₁, m₁, ?_, outside, built₁, fun within => ?_, ?_⟩
    · rw [ran, if_neg whole, decide_eq_false (by omega)]
    · rw [part] at within ⊢
      by_cases less : pageOf va < M
      · exact isBytes.1 less
      · have nothing : (executable s.machine ip).delivers off.toNat n.toNat = 0 := by omega
        rw [isBytes.2 less, nothing, putBytes_zero]
    · rw [along, part]
      constructor
      · rintro ⟨here, _⟩
        omega
      · exact fun all => ⟨by omega, fun isWhole => absurd isWhole whole⟩

theorem Read.done (built : Built start root M bytes s.memory) {off v : Nat}
    (inside : off ≤ (executable s.machine ip).size) :
    ∃ bytes' m', Read kernel ip start root M bytes v off 0 (pure true) s bytes' m' := by
  have nothing : (executable s.machine ip).delivers off 0 = 0 := Nat.zero_min _
  refine ⟨bytes, s.memory, ?_, Untouched.refl start s.memory, built, fun _ => ?_, ?_⟩
  · rw [Program.run_pure, decide_eq_true (by omega)]
  · rw [nothing, putBytes_zero]
  · exact iff_of_true trivial (.inl nothing)

theorem pageOf_next {w : UInt64} (aligned : w.toNat % 4096 = 0) : (w + 4096).toNat % 4096 = 0 ∧
    4096 * pageOf (w + 4096) = if 4096 * pageOf w + 4096 < 2 ^ 48 then 4096 * pageOf w + 4096 else 0 := by
  have small := w.toNat_lt
  have sum : (w + 4096).toNat = (w.toNat + 4096) % 2 ^ 64 := UInt64.toNat_add w 4096
  rw [pageOf, pageOf, sum]
  split <;> omega

theorem toUInt64_next {i : UInt32} (next : (i + 4096).toNat = i.toNat + 4096) :
    (i + 4096).toUInt64 = i.toUInt64 + 4096 := by
  have small := (i + 4096).toNat_lt
  have sum : (i.toUInt64 + 4096).toNat = (i.toNat + 4096) % 2 ^ 64 := UInt64.toNat_add i.toUInt64 4096
  apply UInt64.toNat_inj.mp
  rw [UInt32.toNat_toUInt64, sum, next]
  omega

theorem loadPages_read (low : P2V 0 ∉ start) (va : UInt64) (off sz : UInt32) (turns : Nat) {i : UInt32} {v : Nat}
    (built : Built start root M bytes s.memory) (regular : Regular s.machine ip)
    (enough : sz.toNat - i.toNat ≤ 4096 * turns)
    (aligned : i.toNat < sz.toNat → (va + i.toUInt64).toNat % 4096 = 0 ∧ v = 4096 * pageOf (va + i.toUInt64))
    (inside : off.toNat + i.toNat ≤ (executable s.machine ip).size) :
    ∃ bytes' m', Read kernel ip start root M bytes v (off.toNat + i.toNat) (sz.toNat - i.toNat)
      (loadPages root va ip off sz (turns + 1) i) s bytes' m' := by
  induction turns generalizing i v s bytes with
  | zero =>
    have most : ¬ i < sz := fun less => by
      have less := UInt32.lt_iff_toNat_lt.mp less
      omega
    rw [loadPages, if_neg most, show sz.toNat - i.toNat = 0 by omega]
    exact Read.done kernel built inside
  | succ turns ih =>
    have size := regular.size_le
    rw [loadPages]
    by_cases more : i < sz
    · have less := UInt32.lt_iff_toNat_lt.mp more
      obtain ⟨isAligned, isAddress⟩ := aligned less
      obtain ⟨n, isN⟩ : ∃ n, n = pageLength (sz - i) := ⟨_, rfl⟩
      have length : n.toNat = min (sz.toNat - i.toNat) 4096 := by
        rw [isN, pageLength_toNat, UInt32.toNat_sub_of_le _ _ (UInt32.le_of_lt more)]
      have isOff : (off + i).toUInt64.toNat = off.toNat + i.toNat := by
        rw [UInt32.toNat_toUInt64, UInt32.toNat_add]
        omega
      rw [if_pos more, ← isN]
      dsimp only
      rw [← isOff, show sz.toNat - i.toNat = n.toUInt64.toNat + (sz.toNat - i.toNat - n.toNat) by
        rw [UInt32.toNat_toUInt64]; omega]
      refine Read.cons kernel (o := 0) built low regular (by decide) ?_ (fun pa => by rw [UInt64.add_zero])
        (isAddress.trans (Nat.add_zero _).symm) rfl fun m bytes₁ whole built₁ => ?_
      · rw [UInt32.toNat_toUInt64]
        change 0 + _ ≤ _
        omega
      · rw [UInt32.toNat_toUInt64 n, isOff] at whole ⊢
        by_cases full : n.toNat = 4096
        · have next : (i + 4096).toNat = i.toNat + 4096 := by
            rw [UInt32.toNat_add]
            change (_ + 4096) % _ = _
            omega
          have read := ih (i := i + 4096) (v := if v + n.toNat < 2 ^ 48 then v + n.toNat else 0)
            (s := { s with memory := m })
            built₁ regular (by omega) (fun _ => ?_) (by rw [next]; change _ ≤ (executable s.machine ip).size; omega)
          · rw [full] at read ⊢
            rw [next, ← Nat.add_assoc, Nat.sub_add_eq] at read
            exact read
          · obtain ⟨again, page⟩ := pageOf_next isAligned
            rw [toUInt64_next next, ← UInt64.add_assoc, full, isAddress]
            exact ⟨again, page.symm⟩
        · have last : ¬ i + 4096 < sz := by
            rw [UInt32.lt_iff_toNat_lt, UInt32.toNat_add]
            change ¬ (_ + 4096) % _ < _
            omega
          rw [loadPages, if_neg last, show sz.toNat - i.toNat - n.toNat = 0 by omega]
          exact Read.done kernel built₁ whole
    · have all : sz.toNat - i.toNat = 0 := by
        have most : ¬ i.toNat < sz.toNat := fun less => more (UInt32.lt_iff_toNat_lt.mpr less)
        omega
      rw [if_neg more, all]
      exact Read.done kernel built inside

theorem loadseg_read (built : Built start root M bytes s.memory) (low : P2V 0 ∉ start)
    (regular : Regular s.machine ip) (va : UInt64) (off sz : UInt32) : ∃ bytes' m',
    Read kernel ip start root M bytes (va.toNat % 2 ^ 48) off.toNat sz.toNat
      (loadseg root va ip off sz) s bytes' m' := by
  have size := regular.size_le
  have wide := va.toNat_lt
  obtain ⟨o, isO⟩ : ∃ o, o = (va % PGSIZE).toUInt32 := ⟨_, rfl⟩
  have place : o.toNat = va.toNat % 4096 := by
    rw [isO, UInt64.toNat_toUInt32, UInt64.toNat_mod]
    change va.toNat % 4096 % 2 ^ 32 = _
    omega
  obtain ⟨n, isN⟩ : ∃ n, n = headLength o sz := ⟨_, rfl⟩
  have length : n.toNat = min sz.toNat (4096 - o.toNat) := by rw [isN, headLength_toNat (by omega)]
  have page : pageOf (ROUNDDOWN va) = va.toNat / 4096 % 2 ^ 36 := by
    rw [pageOf, ROUNDDOWN_toNat]
    omega
  have below : n ≤ sz := UInt32.le_iff_toNat_le.mpr (by omega)
  rw [loadseg]
  rw [← isO, ← isN, ← UInt32.toNat_toUInt64 off, show sz.toNat = n.toUInt64.toNat + (sz.toNat - n.toNat) by
    rw [UInt32.toNat_toUInt64]; omega]
  refine Read.cons kernel (o := o.toUInt64) built low regular (by rw [UInt32.toNat_toUInt64]; omega)
    (by rw [UInt32.toNat_toUInt64, UInt32.toNat_toUInt64]; omega) (fun pa => rfl)
    (by rw [page, UInt32.toNat_toUInt64]; omega) rfl fun m bytes₁ whole built₁ => ?_
  rw [UInt32.toNat_toUInt64, UInt32.toNat_toUInt64] at whole ⊢
  have next : (off + n).toNat = off.toNat + n.toNat := by
    rw [UInt32.toNat_add]
    omega
  have left : (sz - n).toNat = sz.toNat - n.toNat := UInt32.toNat_sub_of_le _ _ below
  have read := loadPages_read kernel (s := { s with memory := m }) low (va + n.toUInt64) (off + n) (sz - n) (i := 0)
    (v := if va.toNat % 2 ^ 48 + n.toNat < 2 ^ 48 then va.toNat % 2 ^ 48 + n.toNat else 0)
    (2 ^ 20) built₁ regular ?_ ?_ ?_
  · rw [next, left] at read
    exact read
  · have := sz.toNat_lt
    rw [left]
    omega
  · intro more
    rw [left] at more
    change 0 < _ at more
    have sum : (va + n.toUInt64 + (0 : UInt32).toUInt64).toNat = (va.toNat + n.toNat) % 2 ^ 64 := by
      rw [UInt64.toNat_add, UInt64.toNat_add, UInt32.toNat_toUInt64]
      change ((_ + _) % _ + 0) % _ = _
      omega
    rw [pageOf, sum]
    split <;> omega
  · rw [next]
    exact whole

end

end Xv6.Exec
