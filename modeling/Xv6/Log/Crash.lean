import Xv6.Log.BlockStore

/-! Crash atomicity of `commit` and `recover_from_log`.

On the way through a commit the disk is idle, committed, or idle again with the
new contents. Idle: the header has no entries. Committed: the header names the
home blocks and the log holds their new contents, whatever the home blocks hold.
Recovery keeps either kind under any cut, and turns both into an idle disk.
-/

set_option autoImplicit false

namespace Xv6.Log

open Library

/-- The blocks that the super block reserves for the log. -/
def InRegion (log : Log) (b : UInt32) : Prop := ∃ k < log.size.toNat, b = log.start + UInt32.ofNat k

instance (log : Log) (b : UInt32) : Decidable (log.InRegion b) := inferInstanceAs (Decidable (∃ k < _, _))

/-- The header names distinct home blocks outside the log, and they fit into the log. -/
structure Installable (log : Log) : Prop where
  low : 0 ≤ log.lh.n
  bound : log.lh.n ≤ logSize
  fits : log.lh.n < log.size.toNat
  distinct : ∀ i j : Fin logSize, (i.val : Int) < log.lh.n → (j.val : Int) < log.lh.n →
    log.lh.block i = log.lh.block j → i = j
  outside : ∀ i : Fin logSize, (i.val : Int) < log.lh.n → ¬ log.InRegion (log.lh.block i)

/-- A boot on this disk runs recovery, which returns after these writes. The
in-memory header has no particular contents before. -/
def Boots (log : Log) (disk : UInt32 → Block) (writes : List (UInt32 × Block)) : Prop :=
  ∃ lh log' t, (recoverFromLog { log with lh }).run Store.handle (Store.boot disk) = some (log', t) ∧
    t.writes = writes

variable {log : Log}

namespace Installable

variable (ready : Installable log)
include ready

theorem toNat_le : log.lh.n.toNat ≤ 30 := by
  have bound : log.lh.n ≤ 30 := ready.bound
  omega

theorem homeBlock_outside {i : Nat} (less : i < log.lh.n.toNat) : ¬ log.InRegion (log.homeBlock i) := by
  have inside : i < logSize := Nat.lt_of_lt_of_le less ready.toNat_le
  rw [homeBlock, dif_pos inside]
  exact ready.outside ⟨i, inside⟩ (by change (i : Int) < log.lh.n; omega)

theorem homeBlock_injective {i j : Nat} (lessI : i < log.lh.n.toNat) (lessJ : j < log.lh.n.toNat)
    (same : log.homeBlock i = log.homeBlock j) : i = j := by
  have insideI : i < logSize := Nat.lt_of_lt_of_le lessI ready.toNat_le
  have insideJ : j < logSize := Nat.lt_of_lt_of_le lessJ ready.toNat_le
  rw [homeBlock, homeBlock, dif_pos insideI, dif_pos insideJ] at same
  have equal := ready.distinct ⟨i, insideI⟩ ⟨j, insideJ⟩ (by change (i : Int) < log.lh.n; omega)
    (by change (j : Int) < log.lh.n; omega) same
  exact congrArg Fin.val equal

theorem logBlock_inside {i : Nat} (less : i < log.lh.n.toNat) : log.InRegion (log.logBlock i) := by
  have fits := ready.fits
  refine ⟨i + 1, by omega, ?_⟩
  rw [logBlock, UInt32.ofNat_add, UInt32.add_comm (UInt32.ofNat i), ← UInt32.add_assoc]
  rfl

theorem start_inside : log.InRegion log.start := by
  have fits := ready.fits
  have low := ready.low
  exact ⟨0, by omega, by simp⟩

theorem apart {i j : Nat} (lessI : i < log.lh.n.toNat) (lessJ : j < log.lh.n.toNat) :
    log.homeBlock i ≠ log.logBlock j :=
  fun same => ready.homeBlock_outside lessI (same ▸ ready.logBlock_inside lessJ)

end Installable

theorem logBlock_toNat (log : Log) (i : Nat) :
    (log.logBlock i).toNat = (log.start.toNat + 1 + i) % 2 ^ 32 := by
  simp only [logBlock, UInt32.toNat_add, UInt32.toNat_one, UInt32.toNat_ofNat']
  omega

theorem logBlock_injective (log : Log) {i j : Nat} (smallI : i < 2 ^ 32 - 1) (smallJ : j < 2 ^ 32 - 1)
    (same : log.logBlock i = log.logBlock j) : i = j := by
  have equal := congrArg UInt32.toNat same
  rw [logBlock_toNat, logBlock_toNat] at equal
  omega

theorem logBlock_ne_start (log : Log) {i : Nat} (small : i < 2 ^ 32 - 1) : log.logBlock i ≠ log.start := by
  intro same
  have equal := congrArg UInt32.toNat same
  have bound := log.start.toNat_lt
  rw [logBlock_toNat] at equal
  omega

theorem Installable.logBlocks_nodup (ready : Installable log) :
    ((List.range log.lh.n.toNat).map log.logBlock).Nodup := by
  have small := ready.toNat_le
  refine List.Nodup.map_on (fun i inI j inJ same => ?_) List.nodup_range
  have lessI := List.mem_range.mp inI
  have lessJ := List.mem_range.mp inJ
  exact logBlock_injective log (by omega) (by omega) same

/-! ## The writes of recovery and of a commit -/

def installs (log : Log) (content : UInt32 → Block) : List (UInt32 × Block) :=
  (List.range log.lh.n.toNat).map fun i => (log.homeBlock i, content (log.homeBlock i))

theorem mem_range_map {n : Nat} {f : Nat → UInt32} {b : UInt32} : b ∈ (List.range n).map f ↔ ∃ i < n, f i = b := by
  simp

theorem installs_addresses (log : Log) (content : UInt32 → Block) :
    (log.installs content).map Prod.fst = (List.range log.lh.n.toNat).map log.homeBlock := by
  simp [installs]

theorem Installable.installs_nodup (ready : Installable log) (content : UInt32 → Block) :
    ((log.installs content).map Prod.fst).Nodup := by
  rw [installs_addresses]
  refine List.Nodup.map_on ?_ List.nodup_range
  intro i inI j inJ same
  exact ready.homeBlock_injective (List.mem_range.mp inI) (List.mem_range.mp inJ) same

def installed (log : Log) (content disk : UInt32 → Block) : UInt32 → Block := applyWrites (log.installs content) disk

theorem Installable.installed_home (ready : Installable log) (content disk : UInt32 → Block) {i : Nat}
    (less : i < log.lh.n.toNat) : log.installed content disk (log.homeBlock i) = content (log.homeBlock i) :=
  applyWrites_of_mem (ready.installs_nodup content) (List.mem_map.mpr ⟨i, List.mem_range.mpr less, rfl⟩) disk

theorem installed_other (content disk : UInt32 → Block) {b : UInt32}
    (other : ∀ i < log.lh.n.toNat, log.homeBlock i ≠ b) : log.installed content disk b = disk b := by
  refine applyWrites_of_not_mem ?_ disk
  rw [installs_addresses, mem_range_map]
  exact fun ⟨i, less, same⟩ => other i less same

theorem run_recoverFromLog (log : Log) (lh : LogHeader) {s : Store} (names : Names (s.view log.start) log.lh)
    (bound : log.lh.n ≤ logSize)
    (apart : ∀ i j, i < log.lh.n.toNat → j < log.lh.n.toNat → log.logBlock i ≠ log.homeBlock j) :
    ∃ d log', (recoverFromLog { log with lh }).run Store.handle s = some (log', s.put
        ((List.range log.lh.n.toNat).map (fun i => (log.homeBlock i, s.view (log.logBlock i))) ++ [(log.start, d)])) ∧
      Word.toInt (d.word 0) = 0 := by
  have most : log.lh.n.toNat ≤ logSize := by omega
  obtain ⟨lh', loaded, count, blocks⟩ : ∃ lh', LogHeader.load (s.view log.start) log.lh.n.toNat
      { lh with n := log.lh.n } = some lh' ∧ lh'.n = log.lh.n ∧
      ∀ i, (i.val : Int) < log.lh.n → lh'.block i = log.lh.block i := by
    refine ⟨_, LogHeader.load_eq _ most _, rfl, fun i less => ?_⟩
    have inside : i.val < log.lh.n.toNat := by omega
    simp only [if_pos inside]
    exact names.block i less
  let read : Log := { log with lh := lh' }
  have entries {i : Nat} (less : i < log.lh.n.toNat) : read.homeBlock i = log.homeBlock i := by
    have inside : i < logSize := by omega
    simp only [homeBlock, dif_pos inside]
    exact blocks ⟨i, inside⟩ (by change (i : Int) < log.lh.n; omega)
  -- what was in the in-memory header before does not matter up to `n`
  have head : (readHead { log with lh }).run Store.handle s = some (read, s) := by
    simp only [readHead, Program.run_bind, Store.run_bread, Store.run_data, Option.bind_some, names.n, loaded,
      inBounds, Program.run_pure, Store.run_brelse]
    rfl
  obtain ⟨writes, installed, addresses, contents⟩ := run_installTrans read
    (by change lh'.n ≤ _; omega) s
  have copies : writes = (List.range log.lh.n.toNat).map fun i => (log.homeBlock i, s.view (log.logBlock i)) := by
    rw [contents fun i j lessI lessJ => ?_]
    · change (List.range lh'.n.toNat).map _ = _
      rw [count]
      exact List.map_congr_left fun i member => by rw [entries (List.mem_range.mp member)]; rfl
    · change i < lh'.n.toNat at lessI
      change j < lh'.n.toNat at lessJ
      rw [count] at lessI lessJ
      rw [entries lessJ]
      exact apart i j lessI lessJ
  obtain ⟨d, wrote, cleared⟩ := run_writeHead read.reset le_rfl
    (by change (0 : Int) ≤ 30; omega) (s.put writes)
  refine ⟨d, read.reset, ?_, cleared.n⟩
  rw [← copies]
  simp only [recoverFromLog, Program.run_bind, head, installed, Option.bind_some, wrote, Program.run_pure,
    Store.put_put]
  rfl

/-- The writes of a commit: the log, the header, the home blocks, the header. -/
theorem run_commit (ready : Installable log) (s : Store) :
    ∃ named cleared, log.commit.run Store.handle s = some (log.reset, s.put
        ((List.range log.lh.n.toNat).map (fun i => (log.logBlock i, s.view (log.homeBlock i))) ++
          (log.start, named) :: (log.installs s.view ++ [(log.start, cleared)]))) ∧
      Names named log.lh ∧ Word.toInt (cleared.word 0) = 0 := by
  obtain ⟨logged, wroteLog, logAddresses, logContents⟩ := run_writeLog log ready.bound s
  obtain ⟨named, wroteHead, names⟩ := run_writeHead log ready.low ready.bound (s.put logged)
  obtain ⟨homes, installed, homeAddresses, homeContents⟩ :=
    run_installTrans log ready.bound ((s.put logged).put [(log.start, named)])
  obtain ⟨cleared, clearedHead, none⟩ := run_writeHead log.reset le_rfl
    (by change (0 : Int) ≤ 30; omega) (((s.put logged).put [(log.start, named)]).put homes)
  have copied := logContents fun i j lessI lessJ => ready.apart lessI lessJ
  -- the log holds the new contents when the home blocks are written
  have returned : homes = log.installs s.view := by
    rw [homeContents fun i j lessI lessJ same => ready.apart lessJ lessI same.symm]
    refine List.map_congr_left fun i member => ?_
    have less := List.mem_range.mp member
    have small : log.lh.n.toNat ≤ 30 := ready.toNat_le
    have held : (s.put logged).view (log.logBlock i) = s.view (log.homeBlock i) :=
      applyWrites_of_mem (logAddresses ▸ ready.logBlocks_nodup)
        (by rw [copied]; exact List.mem_map.mpr ⟨i, member, rfl⟩) _
    congr 1
    rw [← held]
    exact Function.update_of_ne (logBlock_ne_start log (by omega)) ..
  refine ⟨named, cleared, ?_, names, none.n⟩
  rw [← copied, ← returned]
  simp only [commit, Program.run_bind, wroteLog, wroteHead, installed, Option.bind_some, clearedHead,
    Program.run_pure]
  simp only [Store.put_put, List.append_assoc]
  rfl

/-! ## The phases of the disk -/

/-- The header has no entries, and the blocks outside the log are those of `content`. -/
structure Idle (log : Log) (content disk : UInt32 → Block) : Prop where
  empty : Word.toInt ((disk log.start).word 0) = 0
  others : ∀ b, ¬ log.InRegion b → disk b = content b

/-- The header has entries and the log their new contents; only the home blocks may be old. -/
structure Committed (log : Log) (content disk : UInt32 → Block) : Prop where
  names : Names (disk log.start) log.lh
  logged : ∀ i < log.lh.n.toNat, disk (log.logBlock i) = content (log.homeBlock i)
  others : ∀ b, ¬ log.InRegion b → (∀ i < log.lh.n.toNat, log.homeBlock i ≠ b) → disk b = content b

variable {content disk : UInt32 → Block}

theorem Idle.write_header (ready : Installable log) {d : Block} (idle : Idle log content disk)
    (empty : Word.toInt (d.word 0) = 0) : Idle log content (applyWrites [(log.start, d)] disk) where
  empty := by simpa using empty
  others b outside := by
    have other : b ≠ log.start := fun same => outside (same ▸ ready.start_inside)
    simpa [other] using idle.others b outside

theorem Idle.write_log (ready : Installable log) {writes : List (UInt32 × Block)} (idle : Idle log content disk)
    (inside : ∀ b ∈ writes.map Prod.fst, ∃ i < log.lh.n.toNat, log.logBlock i = b) :
    Idle log content (applyWrites writes disk) where
  empty := by
    rw [applyWrites_of_not_mem fun member => ?_]
    · exact idle.empty
    · obtain ⟨i, less, same⟩ := inside _ member
      have small := ready.toNat_le
      exact logBlock_ne_start log (by omega) same
  others b outside := by
    rw [applyWrites_of_not_mem fun member => ?_]
    · exact idle.others b outside
    · obtain ⟨i, less, rfl⟩ := inside _ member
      exact outside (ready.logBlock_inside less)

theorem Committed.write_home (ready : Installable log) {writes : List (UInt32 × Block)}
    (committed : Committed log content disk)
    (homes : ∀ b ∈ writes.map Prod.fst, ∃ i < log.lh.n.toNat, log.homeBlock i = b) :
    Committed log content (applyWrites writes disk) := by
  have kept (b : UInt32) (inside : log.InRegion b) : applyWrites writes disk b = disk b := by
    refine applyWrites_of_not_mem (fun member => ?_) disk
    obtain ⟨i, less, rfl⟩ := homes b member
    exact ready.homeBlock_outside less inside
  constructor
  · rw [kept _ ready.start_inside]
    exact committed.names
  · intro i less
    rw [kept _ (ready.logBlock_inside less)]
    exact committed.logged i less
  · intro b outside other
    rw [applyWrites_of_not_mem fun member => ?_]
    · exact committed.others b outside other
    · obtain ⟨i, less, same⟩ := homes b member
      exact other i less same

/-- Installing every entry and clearing the header makes the new contents permanent. -/
theorem Committed.install (ready : Installable log) {d : Block} (committed : Committed log content disk)
    (empty : Word.toInt (d.word 0) = 0) :
    Idle log content (applyWrites (log.installs content ++ [(log.start, d)]) disk) := by
  rw [applyWrites_append]
  constructor
  · simpa using empty
  · intro b outside
    have other : b ≠ log.start := fun same => outside (same ▸ ready.start_inside)
    rw [applyWrites_cons, applyWrites_nil, Function.update_of_ne other]
    change log.installed content disk b = content b
    by_cases home : ∃ i < log.lh.n.toNat, log.homeBlock i = b
    · obtain ⟨i, less, rfl⟩ := home
      exact ready.installed_home content disk less
    · have absent : ∀ i < log.lh.n.toNat, log.homeBlock i ≠ b := fun i less same => home ⟨i, less, same⟩
      rw [installed_other content disk absent]
      exact committed.others b outside absent

theorem mem_installs (content : UInt32 → Block) {b : UInt32} (member : b ∈ (log.installs content).map Prod.fst) :
    ∃ i < log.lh.n.toNat, log.homeBlock i = b := by
  rwa [installs_addresses, mem_range_map] at member

def Recoverable (log : Log) (content disk : UInt32 → Block) : Prop :=
  Idle log content disk ∨ Committed log content disk

theorem Committed.cut (ready : Installable log) {d : Block} (committed : Committed log content disk)
    (empty : Word.toInt (d.word 0) = 0) (k : Nat) :
    Recoverable log content (applyWrites ((log.installs content ++ [(log.start, d)]).take k) disk) := by
  rcases take_append_cases k (log.installs content) [(log.start, d)] with early | ⟨j, late⟩
  · rw [early]
    refine .inr (committed.write_home ready fun b member => mem_installs content ?_)
    rw [List.map_take] at member
    exact List.mem_of_mem_take member
  · rw [late]
    cases j with
    | zero =>
      rw [List.take_zero, List.append_nil]
      exact .inr (committed.write_home ready fun b member => mem_installs content member)
    | succ j =>
      rw [List.take_succ_cons, List.take_nil]
      exact .inl (committed.install ready empty)

/-! ## Recovery -/

theorem boots_idle (idle : Idle log content disk) (lh : LogHeader) :
    ∃ d log', (recoverFromLog { log with lh }).run Store.handle (Store.boot disk) =
      some (log', (Store.boot disk).put [(log.start, d)]) ∧ Word.toInt (d.word 0) = 0 := by
  let none : Log := { log with lh := ⟨0, log.lh.block⟩ }
  have names : Names ((Store.boot disk).view none.start) none.lh :=
    ⟨idle.empty, fun i less => absurd less (by change ¬ (i.val : Int) < 0; omega)⟩
  exact run_recoverFromLog none lh names (by change (0 : Int) ≤ 30; omega)
    (fun i j less => absurd less (Nat.not_lt_zero i))

/-- Every boot of a committed disk installs the committed contents and empties the header. -/
theorem boots_committed (ready : Installable log) (committed : Committed log content disk) (lh : LogHeader) :
    ∃ d log', (recoverFromLog { log with lh }).run Store.handle (Store.boot disk) =
      some (log', (Store.boot disk).put (log.installs content ++ [(log.start, d)])) ∧ Word.toInt (d.word 0) = 0 := by
  have copied : (List.range log.lh.n.toNat).map
    (fun i => (log.homeBlock i, (Store.boot disk).view (log.logBlock i))) =
      log.installs content :=
    List.map_congr_left fun i member => by
      rw [← committed.logged i (List.mem_range.mp member)]
      rfl
  rw [← copied]
  exact run_recoverFromLog log lh committed.names ready.bound
    fun i j lessI lessJ same => ready.apart lessJ lessI same.symm

theorem Recoverable.boots (ready : Installable log) (recoverable : Recoverable log content disk) :
    ∃ writes, log.Boots disk writes := by
  rcases recoverable with idle | committed
  · obtain ⟨d, log', ran, _⟩ := boots_idle idle log.lh
    exact ⟨_, log.lh, log', _, ran, rfl⟩
  · obtain ⟨d, log', ran, _⟩ := boots_committed ready committed log.lh
    exact ⟨_, log.lh, log', _, ran, rfl⟩

/-- Recovery completes with an idle disk, and a crash of it leaves a recoverable one. -/
theorem Recoverable.recovery (ready : Installable log) (recoverable : Recoverable log content disk)
    {writes : List (UInt32 × Block)} (boots : log.Boots disk writes) :
    Idle log content (applyWrites writes disk) ∧
      ∀ k, Recoverable log content (applyWrites (writes.take k) disk) := by
  obtain ⟨lh, log', t, ran, rfl⟩ := boots
  rcases recoverable with idle | committed
  · obtain ⟨d, _, again, empty⟩ := boots_idle idle lh
    obtain ⟨-, rfl⟩ := Prod.mk.inj (Option.some.inj (ran.symm.trans again))
    have done : Idle log content (applyWrites [(log.start, d)] disk) := idle.write_header ready empty
    refine ⟨done, fun k => .inl ?_⟩
    change Idle log content (applyWrites ([(log.start, d)].take k) disk)
    cases k with
    | zero => exact idle
    | succ k => simpa using done
  · obtain ⟨d, _, again, empty⟩ := boots_committed ready committed lh
    obtain ⟨-, rfl⟩ := Prod.mk.inj (Option.some.inj (ran.symm.trans again))
    have done : Idle log content (applyWrites (log.installs content ++ [(log.start, d)]) disk) :=
      committed.install ready empty
    exact ⟨done, committed.cut ready empty⟩

theorem Recoverable.recovers (ready : Installable log) (recoverable : Recoverable log content disk)
    {final : UInt32 → Block} (recovers : Recovers log.Boots disk final) : Idle log content final :=
  recovers.induct (fun _ _ k safe boots => (safe.recovery ready boots).2 k)
    (fun _ _ safe boots => (safe.recovery ready boots).1) recoverable

/-! ## A commit cut anywhere -/

/-- The header is written after the log, so from then on the disk is committed. -/
theorem committed_of_logged (ready : Installable log) {named : Block} (view : UInt32 → Block)
    (names : Names named log.lh) :
    Committed log (log.installed view disk) (applyWrites
      ((List.range log.lh.n.toNat).map (fun i => (log.logBlock i, view (log.homeBlock i))) ++ [(log.start, named)])
      disk) := by
  have small := ready.toNat_le
  have addresses : ((List.range log.lh.n.toNat).map fun i => (log.logBlock i, view (log.homeBlock i))).map Prod.fst =
      (List.range log.lh.n.toNat).map log.logBlock := by simp
  rw [applyWrites_append]
  constructor
  · simpa using names
  · intro i less
    rw [applyWrites_cons, applyWrites_nil, Function.update_of_ne (logBlock_ne_start log (by omega)),
      ready.installed_home view disk less]
    have member : (log.logBlock i, view (log.homeBlock i)) ∈
        (List.range log.lh.n.toNat).map fun i => (log.logBlock i, view (log.homeBlock i)) :=
      List.mem_map.mpr ⟨i, List.mem_range.mpr less, rfl⟩
    exact applyWrites_of_mem (addresses ▸ ready.logBlocks_nodup) member disk
  · intro b outside other
    have apart : b ≠ log.start := fun same => outside (same ▸ ready.start_inside)
    rw [applyWrites_cons, applyWrites_nil, Function.update_of_ne apart, applyWrites_of_not_mem,
      installed_other view disk other]
    rw [addresses, mem_range_map]
    rintro ⟨i, less, rfl⟩
    exact outside (ready.logBlock_inside less)

/-- A crash during a commit leaves a disk that recovers to the old or to the new contents. -/
theorem commit_recoverable (ready : Installable log) {named cleared : Block} (view : UInt32 → Block)
    (idle : Word.toInt ((disk log.start).word 0) = 0) (names : Names named log.lh)
    (empty : Word.toInt (cleared.word 0) = 0) (k : Nat) :
    let crashed := applyWrites
      (((List.range log.lh.n.toNat).map (fun i => (log.logBlock i, view (log.homeBlock i))) ++
        (log.start, named) :: (log.installs view ++ [(log.start, cleared)])).take k) disk
    Recoverable log disk crashed ∨ Recoverable log (log.installed view disk) crashed := by
  intro crashed
  have before : Idle log disk disk := ⟨idle, fun _ _ => rfl⟩
  rcases take_append_cases k ((List.range log.lh.n.toNat).map fun i => (log.logBlock i, view (log.homeBlock i)))
    ((log.start, named) :: (log.installs view ++ [(log.start, cleared)])) with early | ⟨j, late⟩
  · left
    simp only [crashed, early]
    refine .inl (before.write_log ready fun b member => ?_)
    rw [List.map_take] at member
    simpa using List.mem_of_mem_take member
  · simp only [crashed, late]
    -- the write of the header is where the transaction commits
    cases j with
    | zero =>
      left
      rw [List.take_zero, List.append_nil]
      exact .inl (before.write_log ready fun b member => by simpa using member)
    | succ j =>
      right
      -- the installed contents are those of the view
      have same : log.installs view = log.installs (log.installed view disk) :=
        List.map_congr_left fun i member => by rw [ready.installed_home view disk (List.mem_range.mp member)]
      rw [List.take_succ_cons, List.append_cons, applyWrites_append, same]
      exact (committed_of_logged ready view names).cut ready empty j

/-- Whatever prefix of the writes of `commit` a crash lets through, and however often
recovery crashes too, either no home block is updated in the end or all of them are. -/
theorem commit_crash_atomic (ready : Installable log) (view disk : UInt32 → Block)
    (idle : Word.toInt ((disk log.start).word 0) = 0) :
    ∃ log' t, log.commit.run Store.handle ⟨view, disk, []⟩ = some (log', t) ∧
      t.disk = applyWrites t.writes disk ∧
      ∀ k, (∃ final, Recovers log.Boots (applyWrites (t.writes.take k) disk) final) ∧
        ∀ final, Recovers log.Boots (applyWrites (t.writes.take k) disk) final →
          ((∀ i : Fin logSize, (i.val : Int) < log.lh.n → final (log.lh.block i) = disk (log.lh.block i)) ∨
            ∀ i : Fin logSize, (i.val : Int) < log.lh.n → final (log.lh.block i) = view (log.lh.block i)) ∧
          (∀ b, ¬ log.InRegion b → (∀ i : Fin logSize, (i.val : Int) < log.lh.n → log.lh.block i ≠ b) →
            final b = disk b) ∧
          Word.toInt ((final log.start).word 0) = 0 := by
  obtain ⟨named, cleared, ran, names, empty⟩ := run_commit ready ⟨view, disk, []⟩
  refine ⟨log.reset, _, ran, Store.disk_eq_applyWrites rfl ran, fun k => ?_⟩
  have entry {i : Fin logSize} (less : (i.val : Int) < log.lh.n) :
      i.val < log.lh.n.toNat ∧ log.homeBlock i.val = log.lh.block i :=
    ⟨by omega, by simp [homeBlock]⟩
  rcases commit_recoverable ready view idle names empty k with old | new
  · refine ⟨?_, fun final recovers => ?_⟩
    · obtain ⟨writes, boots⟩ := old.boots ready
      exact ⟨_, .completes boots⟩
    · have done := old.recovers ready recovers
      exact ⟨.inl fun i less => done.others _ (ready.outside i less), fun b outside _ => done.others b outside,
        done.empty⟩
  · refine ⟨?_, fun final recovers => ?_⟩
    · obtain ⟨writes, boots⟩ := new.boots ready
      exact ⟨_, .completes boots⟩
    · have done := new.recovers ready recovers
      refine ⟨.inr fun i less => ?_, fun b outside other => ?_, done.empty⟩
      · rw [done.others _ (ready.outside i less), ← (entry less).2]
        exact ready.installed_home view disk (entry less).1
      · rw [done.others b outside]
        refine installed_other view disk fun i less same => ?_
        have inside : i < logSize := Nat.lt_of_lt_of_le less ready.toNat_le
        exact other ⟨i, inside⟩ (by change (i : Int) < _; omega) (by rw [← same, homeBlock, dif_pos inside])

/-- A commit of blocks 100 and 101, cut after the header was written. -/
theorem commit_crash_atomic_two :
    ∃ log' t, (ofSuperblock 1 Mkfs.superblock ⟨2, fun i => 100 + UInt32.ofNat i⟩).commit.run Store.handle
        ⟨fun _ _ => 7, fun _ => Block.zero, []⟩ = some (log', t) ∧
      ∃ final, Recovers (ofSuperblock 1 Mkfs.superblock ⟨2, fun i => 100 + UInt32.ofNat i⟩).Boots
          (applyWrites (t.writes.take 3) fun _ => Block.zero) final ∧
        final 200 = Block.zero := by
  have ready : Installable (ofSuperblock 1 Mkfs.superblock ⟨2, fun i => 100 + UInt32.ofNat i⟩) :=
    ⟨by decide, by decide, by decide, by decide, by decide⟩
  obtain ⟨log', t, ran, _, cut⟩ := commit_crash_atomic ready (fun _ _ => 7) (fun _ => Block.zero) (by decide)
  obtain ⟨⟨final, recovers⟩, outcome⟩ := cut 3
  exact ⟨log', t, ran, final, recovers, (outcome final recovers).2.1 200 (by decide) (by decide)⟩

end Xv6.Log
