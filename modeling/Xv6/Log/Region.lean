import Xv6.Log.Crash

/-! The log region against the layout that mkfs writes.

mkfs reserves `LOGSIZE` blocks for the log, its header included, while the kernel
fills up to `LOGSIZE` entries, each of them in a block after the header.
-/

set_option autoImplicit false

namespace Xv6.Log

open Library

-- Inside `[logstart, logstart + nlog)`
def InLayout (sb : Superblock) (b : UInt32) : Prop :=
  sb.logstart.toNat ≤ b.toNat ∧ b.toNat < sb.logstart.toNat + sb.nlog.toNat

instance (sb : Superblock) (b : UInt32) : Decidable (InLayout sb b) := inferInstanceAs (Decidable (_ ∧ _))

/-- The blocks that `write_log` and then `write_head` write, for any header that fits the array. -/
theorem run_writeLog_writeHead (log : Log) (low : 0 ≤ log.lh.n) (bound : log.lh.n ≤ logSize) (s : Store) :
    ∃ writes, (log.writeLog >>= fun _ => log.writeHead).run Store.handle s = some ((), s.put writes) ∧
      writes.map Prod.fst = (List.range log.lh.n.toNat).map log.logBlock ++ [log.start] := by
  obtain ⟨logged, wroteLog, addresses, _⟩ := run_writeLog log bound s
  obtain ⟨d, wroteHead, _⟩ := run_writeHead log low bound (s.put logged)
  refine ⟨logged ++ [(log.start, d)], ?_, by simp [addresses]⟩
  simp only [Program.run_bind, wroteLog, Option.bind_some, wroteHead, Store.put_put]

-- On the layout of mkfs a header stays inside the log unless it is full.
theorem inLayout_mkfs {dev : UInt32} {lh : LogHeader} {writes : List (UInt32 × Block)} (bound : lh.n ≤ logSize)
    (addresses : writes.map Prod.fst =
      (List.range lh.n.toNat).map (ofSuperblock dev Mkfs.superblock lh).logBlock ++ [Mkfs.superblock.logstart]) :
    (∀ w ∈ writes, InLayout Mkfs.superblock w.1) ↔ lh.n ≤ Mkfs.nlog - 1 := by
  rw [← List.forall_mem_map (P := InLayout Mkfs.superblock), addresses]
  have small : lh.n ≤ 30 := bound
  have address (i : Nat) (less : i < 30) :
      ((ofSuperblock dev Mkfs.superblock lh).logBlock i).toNat = 3 + i := by
    rw [logBlock_toNat]
    change (2 + 1 + i) % 2 ^ 32 = 3 + i
    omega
  constructor
  · intro inside
    by_contra full
    have last : 29 < lh.n.toNat := by
      have more : ¬ lh.n ≤ 30 - 1 := full
      omega
    have beyond := (inside _ (List.mem_append_left _ (List.mem_map.mpr ⟨29, List.mem_range.mpr last, rfl⟩))).2
    rw [address 29 (by omega)] at beyond
    exact absurd beyond (by decide)
  · intro fits b member
    have less : lh.n ≤ 30 - 1 := fits
    rcases List.mem_append.mp member with logged | header
    · obtain ⟨i, inRange, rfl⟩ := List.mem_map.mp logged
      have entry := List.mem_range.mp inRange
      unfold InLayout
      rw [address i (by omega)]
      change 2 ≤ 3 + i ∧ 3 + i < 2 + 30
      omega
    · rw [List.mem_singleton.mp header]
      decide

/-- Committing writes inside the region that mkfs reserved exactly if the header is not full. -/
theorem log_region_bound (dev : UInt32) (lh : LogHeader) (low : 0 ≤ lh.n) (bound : lh.n ≤ logSize)
    (view disk : UInt32 → Block) :
    ∃ t, ((ofSuperblock dev Mkfs.superblock lh).writeLog >>= fun _ =>
        (ofSuperblock dev Mkfs.superblock lh).writeHead).run Store.handle ⟨view, disk, []⟩ = some ((), t) ∧
      ((∀ w ∈ t.writes, InLayout Mkfs.superblock w.1) ↔ lh.n ≤ Mkfs.nlog - 1) := by
  obtain ⟨writes, ran, addresses⟩ := run_writeLog_writeHead (ofSuperblock dev Mkfs.superblock lh) low bound
    ⟨view, disk, []⟩
  exact ⟨_, ran, inLayout_mkfs bound addresses⟩

theorem log_region_bound_fits :
    ∃ t, ((ofSuperblock 1 Mkfs.superblock ⟨29, fun i => 100 + UInt32.ofNat i⟩).writeLog >>= fun _ =>
        (ofSuperblock 1 Mkfs.superblock ⟨29, fun i => 100 + UInt32.ofNat i⟩).writeHead).run Store.handle
          ⟨fun _ => Block.zero, fun _ => Block.zero, []⟩ = some ((), t) ∧
      ∀ w ∈ t.writes, InLayout Mkfs.superblock w.1 := by
  obtain ⟨t, ran, inside⟩ := log_region_bound 1 ⟨29, fun i => 100 + UInt32.ofNat i⟩
    (by decide) (by decide) (fun _ => Block.zero) (fun _ => Block.zero)
  exact ⟨t, ran, inside.mpr (by decide)⟩

/-- A full header puts its last block on the first inode block. -/
theorem full_log_leaves_region :
    ¬ ∀ (dev : UInt32) (lh : LogHeader) (view disk : UInt32 → Block), 0 ≤ lh.n → lh.n ≤ logSize →
      ∃ t, ((ofSuperblock dev Mkfs.superblock lh).writeLog >>= fun _ =>
          (ofSuperblock dev Mkfs.superblock lh).writeHead).run Store.handle ⟨view, disk, []⟩ = some ((), t) ∧
        ∀ w ∈ t.writes, InLayout Mkfs.superblock w.1 := by
  intro always
  let lh : LogHeader := ⟨30, fun i => 100 + UInt32.ofNat i⟩
  obtain ⟨t, ran, inside⟩ := always 1 lh (fun _ => Block.zero) (fun _ => Block.zero) (by decide) (by decide)
  obtain ⟨writes, again, addresses⟩ := run_writeLog_writeHead (ofSuperblock 1 Mkfs.superblock lh) (by decide)
    (by decide) ⟨fun _ => Block.zero, fun _ => Block.zero, []⟩
  obtain ⟨-, rfl⟩ := Prod.mk.inj (Option.some.inj (ran.symm.trans again))
  have full := (inLayout_mkfs (by decide) addresses).mp inside
  exact absurd full (by decide)

end Xv6.Log
