import Xv6.Fs.Files
import Mathlib.Algebra.Order.BigOperators.Group.Finset

/-! How many free blocks a write takes.

A call of `bmap` takes at most the indirect block and the block that it returns, and every turn of
`writei` calls it once. So two free blocks for every block of a range are enough for a write, and
a bound on the free blocks carries over from one write to the next.
-/

set_option autoImplicit false

namespace Xv6.Fs

open Library

/-- At most `n` of the free blocks have been taken, and no bit past the end of the disk when there were `n`. -/
structure Takes (sb : Superblock) (n : Nat) (view view' : UInt32 → Block) : Prop where
  card : (freeBlocks sb view).card ≤ (freeBlocks sb view').card + n
  onDisk : n ≤ (freeBlocks sb view).card → ∀ c, Covered sb c → InUse sb view' c → c < sb.size ∨ InUse sb view c

variable {sb : Superblock} {view view' view'' : UInt32 → Block} {nodes nodes' : Nodes} {inv : Log → Prop}
  {log log' : Log} {s t : Store} {b f : UInt32} {n m : Nat}

theorem Takes.trans (first : Takes sb n view view') (second : Takes sb m view' view'') :
    Takes sb (n + m) view view'' where
  card := by
    have before := first.card
    have after := second.card
    omega
  onDisk free c covered used := by
    have before := first.card
    rcases second.onDisk (by omega) c covered used with below | used'
    · exact .inl below
    · exact first.onDisk (by omega) c covered used'

theorem takes_congr (n : Nat) (marks : ∀ c, Covered sb c → (InUse sb view' c ↔ InUse sb view c)) :
    Takes sb n view view' where
  card := by
    rw [freeBlocks_congr marks]
    exact Nat.le_add_right _ n
  onDisk _ c covered used := .inr ((marks c covered).mp used)

theorem Takes.refl (sb : Superblock) (n : Nat) (view : UInt32 → Block) : Takes sb n view view :=
  takes_congr n fun _ _ => Iff.rfl

theorem Takes.mono (takes : Takes sb n view view') (le : n ≤ m) : Takes sb m view view' where
  card := takes.card.trans (Nat.add_le_add_left le _)
  onDisk free := takes.onDisk (le.trans free)

theorem takes_one (first : (freeBlocks sb view).Nonempty → b < sb.size)
    (marks : ∀ c, Covered sb c → (InUse sb view' c ↔ InUse sb view c ∨ c = b)) : Takes sb 1 view view' where
  card := by
    have sub : freeBlocks sb view ⊆ insert b.toNat (freeBlocks sb view') := by
      intro k member
      obtain ⟨below, unused⟩ := (freeBlocks_mem k).mp member
      have value : (UInt32.ofNat k).toNat = k := UInt32.toNat_ofNat_of_lt' (below.trans sb.size.toNat_lt)
      by_cases here : UInt32.ofNat k = b
      · rw [← here, value]
        exact Finset.mem_insert_self ..
      · have covered : Covered sb (UInt32.ofNat k) := covered_of_lt (UInt32.lt_iff_toNat_lt.mpr (value.symm ▸ below))
        refine Finset.mem_insert_of_mem ((freeBlocks_mem k).mpr ⟨below, fun used => ?_⟩)
        exact ((marks _ covered).mp used).elim unused here
    exact (Finset.card_le_card sub).trans (Finset.card_insert_le ..)
  onDisk free c covered used := by
    rcases (marks c covered).mp used with before | rfl
    · exact .inr before
    · exact .inl (first (Finset.card_pos.mp free))

/-! ## Missing slots -/

section
variable {addrs : Addrs} {i size : Nat}

theorem card_slotsOf (i : Nat) : (slotsOf i).card ≤ 2 := by
  unfold slotsOf
  split
  · exact (Finset.card_singleton _).le.trans (by decide)
  · split
    · exact Finset.card_le_two
    · exact Nat.zero_le _

theorem slotsOf_filled (mapped : blockAt view addrs i ≠ 0) {k : Slot} (member : k ∈ slotsOf i) :
    refAt view addrs k ≠ 0 := by
  by_cases direct : i < ndirect
  · rw [slotsOf, dif_pos direct, Finset.mem_singleton] at member
    rw [blockAt_direct direct] at mapped
    rw [member]
    exact mapped
  · by_cases inside : i - ndirect < nindirect
    · rw [slotsOf, dif_neg direct, dif_pos inside, Finset.mem_insert, Finset.mem_singleton] at member
      rw [blockAt_entry direct inside] at mapped
      rcases member with rfl | rfl
      · exact fun none => mapped (refAt_entry_none none _)
      · exact mapped
    · rw [slotsOf, dif_neg direct, dif_neg inside] at member
      exact absurd member (Finset.notMem_empty k)

-- Two free blocks for every block of a range are enough for its slots.
theorem enough_range {off n : Nat} (mapped : Mapped view addrs size) (start : off ≤ size)
    (free : 2 * blocksFrom off n ≤ (freeBlocks sb view).card) :
    Enough sb view addrs (slotsBetween off (off + n)) := by
  by_cases none : n = 0
  · -- the block of the offset is there unless the offset is where a block begins
    subst none
    have nothing : (slotsBetween off (off + 0)).filter (fun k => refAt view addrs k = 0) = ∅ := by
      refine Finset.filter_eq_empty_iff.mpr fun k among empty => ?_
      obtain ⟨i, range, slot⟩ := Finset.mem_biUnion.mp among
      obtain ⟨low, high⟩ := Finset.mem_Ico.mp range
      change off / 512 ≤ i at low
      change i < (off + 511) / 512 at high
      have there := mapped (i * bsize) (by change i * 512 < size; omega)
      rw [Nat.mul_div_cancel i (by decide)] at there
      exact slotsOf_filled there slot empty
    rw [Enough, nothing]
    exact Nat.zero_le _
  · -- every block of the range has at most two slots
    have blocks : (Finset.Ico (off / bsize) ((off + n + (bsize - 1)) / bsize)).card = blocksFrom off n := by
      rw [Nat.card_Ico, blocksFrom, if_neg none]
      change (off + n + 511) / 512 - off / 512 = (off % 512 + n + 511) / 512
      omega
    have slots : (slotsBetween off (off + n)).card ≤ 2 * blocksFrom off n := by
      rw [← blocks, Nat.mul_comm]
      exact Finset.card_biUnion_le_card_mul _ _ 2 fun i _ => card_slotsOf i
    exact (Finset.card_filter_le _ _).trans (slots.trans free)

end

/-! ## bmap -/

section
variable {ip ip' : Inode} (admits : Admits inv) (ok : inv log) (sound : Sound sb s.view nodes)
include admits ok sound

omit sound in
theorem balloc_first {dev : UInt32} (ran : (balloc sb log dev).run Store.handle s = some ((b, log'), t))
    (free : (freeBlocks sb s.view).Nonempty) : b < sb.size := by
  obtain ⟨_, _, allocates, _, onDisk, _⟩ := balloc_run admits ok dev s free
  cases allocates.symm.trans ran
  exact onDisk

theorem balloc_takes {dev : UInt32} (ran : (balloc sb log dev).run Store.handle s = some ((b, log'), t)) :
    Takes sb 1 s.view t.view := by
  have first := balloc_first admits ok ran
  obtain ⟨rfl, _, covered, free⟩ := balloc_returns admits ok ran
  exact takes_one first fun c => sound.allocate_inUse covered free

theorem mapAddr_takes {a : Fin (ndirect + 1)}
    (ran : (mapAddr sb log ip a).run Store.handle s = some ((ip', log'), t)) : Takes sb 1 s.view t.view := by
  rw [mapAddr] at ran
  split at ran
  · obtain ⟨⟨b, log₁⟩, u, allocates, done⟩ := Program.run_bind_eq_some.mp ran
    cases done
    exact balloc_takes admits ok sound allocates
  · cases ran
    exact Takes.refl ..

theorem mapEntry_takes (present : nodes f Inode.indirect ≠ 0) {dev : UInt32} {j : Fin nindirect}
    (ran : (mapEntry sb log dev (nodes f Inode.indirect) j).run Store.handle s = some (log', t)) :
    Takes sb 1 s.view t.view := by
  obtain ⟨_, _, loaded, ran⟩ := Program.run_bind_eq_some.mp ran
  cases loaded
  split at ran
  · obtain ⟨⟨b, log₁⟩, u, allocates, ran⟩ := Program.run_bind_eq_some.mp ran
    obtain ⟨_, _, loaded, ran⟩ := Program.run_bind_eq_some.mp ran
    cases loaded
    obtain ⟨_, _, stored, done⟩ := Program.run_bind_eq_some.mp ran
    cases stored
    cases done
    have first := balloc_first admits ok allocates
    obtain ⟨rfl, _, covered, free⟩ := balloc_returns admits ok allocates
    exact takes_one first fun c inside => setEntry_inUse (j := j) sound covered free present inside
  · cases ran
    exact Takes.refl ..

theorem bmap_takes (here : nodes f = ip.addrs) {b i : UInt32}
    (ran : (bmap sb log ip i).run Store.handle s = some ((b, ip', log'), t)) : Takes sb 2 s.view t.view := by
  rcases bmap_cases i with ⟨direct⟩ | ⟨past, inside⟩ | ⟨past, outside⟩
  · rw [bmap_direct log ip direct] at ran
    obtain ⟨⟨ip₁, log₁⟩, u, maps, done⟩ := Program.run_bind_eq_some.mp ran
    cases done
    exact (mapAddr_takes admits ok sound maps).mono (by decide)
  · rw [bmap_entry log ip past inside] at ran
    obtain ⟨⟨ip₁, log₁⟩, u, maps, ran⟩ := Program.run_bind_eq_some.mp ran
    obtain ⟨_, _, read, ran⟩ := Program.run_bind_eq_some.mp ran
    cases read
    obtain ⟨log₂, v, looks, ran⟩ := Program.run_bind_eq_some.mp ran
    obtain ⟨_, _, gave, ran⟩ := Program.run_bind_eq_some.mp ran
    cases gave
    obtain ⟨_, _, loaded, done⟩ := Program.run_bind_eq_some.mp ran
    cases loaded
    cases done
    have first := mapAddr_takes admits ok sound maps
    obtain ⟨nodes₁, grown, _, here₁, present⟩ := mapAddr_grown admits ok sound here maps
    rw [← here₁] at looks present
    exact first.trans (mapEntry_takes admits grown.logged grown.sound present looks)
  · rw [bmap_outside log ip past outside] at ran
    cases ran

end

/-! ## writei -/

section
variable {ip ip' : MemInode} {src : Nat → UInt8} (admits : Admits inv)
include admits

theorem writeLoop_takes {count : UInt64} {turns : Nat} {tot off last : UInt64} (ok : inv log)
    (sound : Sound sb s.view nodes) (here : nodes ip.inum = ip.addrs)
    (ran : (writeLoop sb src count turns tot off ip log).run Store.handle s = some ((last, ip', log'), t)) :
    Takes sb (2 * blocksFrom off.toNat (count.toNat - tot.toNat)) s.view t.view := by
  -- on the turns, as for the blocks that the loop passes to `log_write`
  induction turns generalizing tot off ip log s nodes with
  | zero =>
    rw [writeLoop] at ran
    split at ran
    · cases ran
    · cases ran
      exact Takes.refl ..
  | succ turns ih =>
    rw [writeLoop] at ran
    split at ran
    · next more =>
      obtain ⟨⟨b, node, log₁⟩, u, maps, ran⟩ := Program.run_bind_eq_some.mp ran
      obtain ⟨_, _, read, ran⟩ := Program.run_bind_eq_some.mp ran
      cases read
      obtain ⟨_, _, loaded, ran⟩ := Program.run_bind_eq_some.mp ran
      cases loaded
      obtain ⟨_, u', stored, ran⟩ := Program.run_bind_eq_some.mp ran
      cases stored
      obtain ⟨log₂, _, logged, ran⟩ := Program.run_bind_eq_some.mp ran
      obtain ⟨_, _, gave, ran⟩ := Program.run_bind_eq_some.mp ran
      cases gave
      have maps₁ := bmap_takes (f := ip.inum) admits ok sound here maps
      obtain ⟨nodes₁, first, value, real⟩ := Looped.bmap admits ok sound here maps
      have second : Looped inv sb { ip with toInode := node } u nodes₁ { ip with toInode := node } log₂ _ nodes₁ :=
        Looped.write admits first.logged first.sound first.node value real logged
      obtain ⟨k, _, slot, _⟩ := slotOf_some (value ▸ real)
      have filled : refAt u.view (nodes₁ ip.inum) k ≠ 0 := slot ▸ value ▸ real
      -- the block is the file's own, so that the write marks nothing
      have written : Takes sb 0 u.view (Function.update u.view b (copyIn src (off % BSIZE) (chunk count tot off) tot
          (u.view b))) := by
        rw [value.trans slot]
        exact takes_congr 0 fun c inside => inUse_write first.sound filled _ inside
      obtain ⟨log₃, logs, _⟩ := run_logWrite_store admits first.logged b
        { u with view := Function.update u.view b (copyIn src (off % BSIZE) (chunk count tot off) tot (u.view b)) }
      cases logs.symm.trans logged
      have rest := ih second.logged second.sound second.node ran
      obtain ⟨m, turn⟩ := turn_chunk off more
      have blocks : blocksFrom off.toNat (count.toNat - tot.toNat) = 1 +
          blocksFrom (off + chunk count tot off).toNat (count.toNat - (tot + chunk count tot off).toNat) := by
        have less := UInt64.lt_iff_toNat_lt.mp more
        have toNatOff : (off + chunk count tot off).toNat % 512 = (off.toNat + m) % 512 := by
          rw [UInt64.toNat_add, turn.length]
          omega
        rw [blocksFrom_turn turn.some turn.rest turn.block (turn.ends more), turn.toNat_tot more, Nat.sub_add_eq]
        unfold blocksFrom
        change _ = 1 + if _ then 0 else ((off + chunk count tot off).toNat % 512 + _ + _) / _
        rw [toNatOff]
      rw [blocks, Nat.mul_add]
      exact (maps₁.trans written).trans rest
    · cases ran
      exact Takes.refl ..

theorem writei_takes (devsw : Fin ndev → Devsw UInt32) {off count : UInt64} {r : Int} (ok : inv log)
    (sound : Sound sb s.view nodes) (here : nodes ip.inum = ip.addrs) (inside : InTable sb ip.inum)
    (notDev : ip.type ≠ T_DEV)
    (ran : (writei sb devsw log ip src off count).run Store.handle s = some ((r, ip', log'), t)) :
    Takes sb (2 * blocksFrom off.toNat count.toNat) s.view t.view := by
  rcases writei_cases sb log devsw src notDev with ⟨_, same⟩ | ⟨_, same⟩
  · rw [same] at ran
    cases ran
    exact Takes.refl ..
  · rw [same] at ran
    obtain ⟨⟨last, ip₁, log₁⟩, u, loops, ran⟩ := Program.run_bind_eq_some.mp ran
    have takes : Takes sb (2 * blocksFrom off.toNat count.toNat) s.view u.view :=
      writeLoop_takes admits ok sound here loops
    obtain ⟨nodes₁, looped⟩ := writeLoop_looped admits ok sound here loops
    dsimp only at ran
    split at ran
    · obtain ⟨log₂, v, updates, done⟩ := Program.run_bind_eq_some.mp ran
      cases done
      obtain ⟨log₃, puts, _⟩ := iupdate_run sb admits looped.logged { ip₁ with size := last.toUInt32 } u
      cases puts.symm.trans updates
      have inum : ip₁.inum = ip.inum := by rw [looped.fields]
      exact takes.trans (takes_congr 0 fun c => inUse_putInode looped.sound (inum ▸ inside) _)
    · cases ran
      exact takes

end

/-! ## Runs -/

/-- A read or a write of a file that the caller has locked. -/
def Transfers (m : Machine) : Inodes.Request → Prop
  | .readi i .. | .writei i .. =>
    (0 < (m.icache i).ref ∧ (m.icache i).locked = true) ∧ (m.icache i).type ≠ T_DEV
  | _ => False

def blocksFor : Inodes.Request → Nat
  | .writei _ _ off n => 2 * blocksFrom off.toNat n.toNat
  | _ => 0

section
variable {m m' : Machine} {r : Inodes.Request} {devsw : Fin ndev → Devsw UInt32}

theorem Transfers.congr (transfers : Transfers m r)
    (same : ∀ i, (m'.icache i).ref = (m.icache i).ref ∧ (m'.icache i).locked = (m.icache i).locked ∧
      (m'.icache i).type = (m.icache i).type) : Transfers m' r := by
  cases r with
  | readi i | writei i =>
    obtain ⟨ref, locked, type⟩ := same i
    simp only [Transfers, ref, locked, type]
    exact transfers
  | _ => exact transfers

variable (devsw) in
theorem Filed.writei_answers (filed : Filed inv sb m) (admits : Admits inv) {i : Fin ninode} (src : Nat → UInt8)
    {off n : UInt64} (held : 0 < (m.icache i).ref ∧ (m.icache i).locked = true) (notDev : (m.icache i).type ≠ T_DEV)
    (free : 2 * blocksFrom off.toNat n.toNat ≤ (freeBlocks sb m.store.view).card) :
    ∃ out m', m.handle sb devsw (.writei i src off n) = some (out, m') ∧
      Takes sb (2 * blocksFrom off.toNat n.toNat) m.store.view m'.store.view ∧
      ∀ j, (m'.icache j).ref = (m.icache j).ref ∧ (m'.icache j).locked = (m.icache j).locked ∧
        (m'.icache j).type = (m.icache j).type := by
  obtain ⟨nodes, owned⟩ := filed.owned
  obtain ⟨_, _, present, node, _, mapped⟩ := filed.held owned held
  rw [Machine.handle_writei, Machine.call]
  by_cases accepted : Writable (m.icache i).size.toNat off.toNat n.toNat
  · have ready : Ready inv sb (m.icache i).inum (slotsBetween off.toNat (off.toNat + n.toNat)) m.store.view nodes
        m.log := ⟨owned.logged, owned.sound, node ▸ enough_range mapped accepted.1 free⟩
    obtain ⟨ip', log', view', nodes', writes, updated, _⟩ :=
      writei_run devsw src admits ready subset_rfl node present.1 notDev mapped accepted.1 accepted.2.2
    refine ⟨_, _, congrArg (Option.map _) writes, ?_, fun j => ?_⟩
    · exact writei_takes admits devsw owned.logged owned.sound node present.1 notDev writes
    · by_cases isI : j = i
      · subst isI
        dsimp only
        rw [Function.update_self, updated.fields]
        exact ⟨rfl, rfl, rfl⟩
      · dsimp only
        rw [Function.update_of_ne isI]
        exact ⟨rfl, rfl, rfl⟩
  · rcases writei_cases sb m.log devsw src notDev with ⟨_, same⟩ | ⟨writable, _⟩
    · rw [same]
      refine ⟨_, _, rfl, Takes.refl .., fun j => ?_⟩
      dsimp only
      rw [Function.update_eq_self]
      exact ⟨rfl, rfl, rfl⟩
    · exact absurd writable accepted

variable (devsw) in
theorem Filed.transfer (filed : Filed inv sb m) (admits : Admits inv) (transfers : Transfers m r)
    (free : blocksFor r ≤ (freeBlocks sb m.store.view).card) :
    ∃ m', act sb devsw r m = some m' ∧ Filed inv sb m' ∧
      Tracks Files.Does (filesOn sb m.store.view) (eventOf sb devsw r m) (filesOn sb m'.store.view) ∧
      Takes sb (blocksFor r) m.store.view m'.store.view ∧ ∀ r', Transfers m r' → Transfers m' r' := by
  cases r with
  | readi i dst off n =>
    obtain ⟨held, notDev⟩ := transfers
    obtain ⟨nodes, owned⟩ := filed.owned
    have read := content_read sb devsw notDev (filed.held owned held).mapped dst off n
    obtain ⟨filed', does⟩ := filed.step (r := .readi i dst off n) admits held notDev read
    exact ⟨m, congrArg (Option.map _) read, filed', does, Takes.refl .., fun _ => id⟩
  | writei i src off n =>
    obtain ⟨held, notDev⟩ := transfers
    obtain ⟨out, m', writes, takes, same⟩ := filed.writei_answers devsw admits src held notDev free
    obtain ⟨filed', does⟩ := filed.step (r := .writei i src off n) admits held notDev writes
    exact ⟨m', congrArg (Option.map _) writes, filed', does, takes, fun _ transfers => transfers.congr same⟩
  | _ => exact transfers.elim

variable (devsw) in
theorem Filed.transfers (filed : Filed inv sb m) (admits : Admits inv) {rs : List Inodes.Request}
    (each : ∀ r ∈ rs, Transfers m r) (free : (rs.map blocksFor).sum ≤ (freeBlocks sb m.store.view).card) :
    ∃ m', run (act sb devsw) rs m = some m' ∧
      Leads Files.Does (filesOn sb m.store.view) (observed (act sb devsw) (eventOf sb devsw) rs m)
        (filesOn sb m'.store.view) ∧
      Takes sb (rs.map blocksFor).sum m.store.view m'.store.view := by
  -- on the requests, each of which leaves the blocks for the others
  induction rs generalizing m with
  | nil => exact ⟨m, rfl, rfl, Takes.refl ..⟩
  | cons r rest ih =>
    rw [List.map_cons, List.sum_cons] at free
    obtain ⟨m₁, acted, filed₁, does, takes, keeps⟩ :=
      filed.transfer devsw admits (each r List.mem_cons_self) (by omega)
    have left : (rest.map blocksFor).sum ≤ (freeBlocks sb m₁.store.view).card := by
      have taken := takes.card
      omega
    have others : ∀ r' ∈ rest, Transfers m₁ r' := fun r' member => keeps r' (each r' (List.mem_cons_of_mem r member))
    obtain ⟨m', ran, leads, later⟩ := ih filed₁ others left
    refine ⟨m', run_cons_eq_some.mpr ⟨m₁, acted, ran⟩, ?_, ?_⟩
    · rw [observed_cons rest acted]
      exact does.leads leads
    · rw [List.map_cons, List.sum_cons]
      exact takes.trans later

/-- Reads and writes of locked files return while there are free blocks for them, two for every block of a range
that is written. They are those of a table of byte strings, and take no block past the end of the disk. -/
theorem transfers_return (admits : Admits inv) {acts rs : List Inodes.Request} {start : Machine} (ok : inv start.log)
    (boot : start.icache = Icache.init) (image : Sound sb start.store.view (diskNodes sb start.store.view))
    (filled : ∀ g, Present sb start.store.view g →
      Mapped start.store.view (diskInode sb start.store.view g).addrs (diskInode sb start.store.view g).size.toNat)
    (meets : Meets (act sb devsw) (fun r m => Permitted sb r m ∧ OnFiles r m) acts start)
    (ran : run (act sb devsw) acts start = some m) (each : ∀ r ∈ rs, Transfers m r)
    (free : (rs.map blocksFor).sum ≤ (freeBlocks sb m.store.view).card) :
    ∃ m', run (act sb devsw) (acts ++ rs) start = some m' ∧
      Leads Files.Does (filesOn sb m.store.view) (observed (act sb devsw) (eventOf sb devsw) rs m)
        (filesOn sb m'.store.view) ∧
      (freeBlocks sb m.store.view).card ≤ (freeBlocks sb m'.store.view).card + (rs.map blocksFor).sum ∧
      ∀ b, Covered sb b → InUse sb m'.store.view b → b < sb.size ∨ InUse sb m.store.view b := by
  have filed : Filed inv sb m := by
    refine run_invariant_of_meets (fun r m₁ m₂ filed both acted => ?_) (Filed.init ok boot image filled) meets ran
    obtain ⟨⟨reply, m₃⟩, handled, rfl⟩ := Option.map_eq_some_iff.mp acted
    exact (filed.step admits both.1 both.2 handled).1
  obtain ⟨m', later, leads, takes⟩ := filed.transfers devsw admits each free
  exact ⟨m', run_append_eq_some.mpr ⟨m, ran, later⟩, leads, takes.card, takes.onDisk free⟩

end

/-! ## A byte that is written and read -/

instance (m : Machine) : (r : Inodes.Request) → Decidable (Transfers m r)
  | .readi .. | .writei .. => inferInstanceAs (Decidable (_ ∧ _))
  | .iget .. | .ialloc .. | .idup _ | .ilock _ | .iunlock _ | .fields _ | .iput _ | .setLinks .. | .iupdate _
  | .panic => .isFalse id

def opening : List Inodes.Request := [.ialloc ROOTDEV T_FILE, .ilock firstEntry]

def byteTransfers : List Inodes.Request := [writeByte, .readi firstEntry (fun _ => 0) 0 9]

theorem transfers_return_byte : ∃ m m', run (act Mkfs.superblock noDevices) opening (bootMachine usedDisk) = some m ∧
    run (act Mkfs.superblock noDevices) (opening ++ byteTransfers) (bootMachine usedDisk) = some m' ∧
    Leads Files.Does (filesOn Mkfs.superblock m.store.view)
      (observed (act Mkfs.superblock noDevices) (eventOf Mkfs.superblock noDevices) byteTransfers m)
      (filesOn Mkfs.superblock m'.store.view) := by
  have computed : (run (act Mkfs.superblock noDevices) opening (bootMachine usedDisk)).map (fun m =>
      decide (¬ InUse Mkfs.superblock m.store.view 61 ∧ ¬ InUse Mkfs.superblock m.store.view 62 ∧
        ∀ r ∈ byteTransfers, Transfers m r)) = some true := by
    decide +kernel
  obtain ⟨m, ran, holds⟩ := Option.map_eq_some_iff.mp computed
  obtain ⟨first, second, each⟩ := of_decide_eq_true holds
  have members : ({61, 62} : Finset Nat) ⊆ freeBlocks Mkfs.superblock m.store.view := by
    intro b member
    simp only [Finset.mem_insert, Finset.mem_singleton] at member
    rw [freeBlocks_mem]
    rcases member with rfl | rfl
    · exact ⟨by decide, first⟩
    · exact ⟨by decide, second⟩
  have free : (byteTransfers.map blocksFor).sum ≤ (freeBlocks Mkfs.superblock m.store.view).card :=
    le_trans (by decide) (Finset.card_le_card members)
  have image : Sound Mkfs.superblock (bootMachine usedDisk).store.view
      (diskNodes Mkfs.superblock (bootMachine usedDisk).store.view) := diskNodes_usedDisk ▸ sound_usedDisk
  obtain ⟨m', returns, leads, _⟩ := transfers_return admits_empty rfl rfl image
    (fun g present => absurd present (absent_usedDisk g)) (by decide +kernel) ran each free
  exact ⟨m, m', ran, returns, leads⟩

end Xv6.Fs
