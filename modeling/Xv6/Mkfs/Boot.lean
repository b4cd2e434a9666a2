import Xv6.Fs.Files
import Xv6.Fs.Search
import Xv6.Mkfs.Main
import Mathlib.Data.List.GetD

/-! The kernel on an image of `mkfs`.

The image satisfies what the kernel relies on from its boot on, unless the root directory fills its
last block: `main` then rounds the size up to a block that is not there. Every file that was given
to `mkfs` is found under its name, with the bytes that it had.
-/

set_option autoImplicit false

namespace Xv6.Mkfs

open Library Fs Image

variable {img out : Image} {nodes : Nodes} {inputs : List Input} {g : UInt32} {file : File}

/-! ## Entries of the root directory -/

theorem getD_flatMap_entryBytes (list : List Dirent) (j k : Nat) (inside : k < direntSize) :
    (list.flatMap entryBytes).getD (direntSize * j + k) 0 = (list[j]?.map fun d => d.byte k).getD 0 := by
  induction list generalizing j with
  | nil => simp
  | cons d list ih =>
    have length := length_entryBytes d
    rw [List.flatMap_cons]
    simp only [List.getD_eq_getElem?_getD] at ih ⊢
    cases j with
    | zero =>
      rw [List.getElem?_append_left (by omega), entryBytes, taken, List.getElem?_map, List.getElem?_range (by omega)]
      simp
    | succ j =>
      have behind : direntSize * (j + 1) + k - direntSize = direntSize * j + k := by rw [Nat.mul_succ]; omega
      rw [List.getElem?_append_right (by rw [length, Nat.mul_succ]; omega), length, behind, ih]
      rfl

theorem entryAt_stores {view : UInt32 → Block} {addrs : Addrs} {blocks : Nat} {list : List Dirent} {j : Nat}
    (stores : Stores view addrs (within blocks) (list.flatMap entryBytes)) (small : blocks ≤ maxFile)
    (inside : direntSize * j + direntSize ≤ blocks * bsize) :
    entryAt view addrs (direntSize * j) = list[j]?.getD ⟨0, fun _ => 0⟩ := by
  have byte : ∀ k, k < direntSize → byteAt view addrs (direntSize * j + k) = (list[j]?.map fun d => d.byte k).getD 0 := by
    intro k less
    have block : (direntSize * j + k) / bsize < blocks := by
      apply Nat.div_lt_of_lt_mul
      rw [Nat.mul_comm bsize]
      omega
    rw [stores.bytes _ ((stores.blockAt_ne_zero (block.trans_le small)).mpr block), getD_flatMap_entryBytes _ _ _ less]
  rw [entryAt, Dirent.ofBytes_congr byte]
  cases list[j]? with
  | none => rfl
  | some d => exact Dirent.ofBytes_byte d

theorem toUInt16_inum {i : Nat} (small : i + 2 < 2 ^ 16) :
    (UInt32.ofNat (i + 2)).toUInt16.toUInt32 = UInt32.ofNat (i + 2) := by
  apply UInt32.toNat_inj.mp
  rw [UInt16.toNat_toUInt32, UInt32.toNat_toUInt16, toNat_inum (by omega)]
  omega

theorem filesOf_entry (few : inputs.length ≤ 198) {d : Dirent} (member : d ∈ rootEntries inputs) :
    ∃ file, filesOf inputs d.inum.toUInt32 = some file := by
  rw [rootEntries, List.mem_cons, List.mem_cons] at member
  rcases member with rfl | rfl | member
  · exact ⟨_, filesOf_root inputs⟩
  · exact ⟨_, filesOf_root inputs⟩
  · obtain ⟨i, inside, rfl⟩ := List.mem_mapIdx.mp member
    change ∃ file, filesOf inputs (UInt32.ofNat (i + 2)).toUInt16.toUInt32 = some file
    rw [toUInt16_inum (by omega)]
    exact ⟨_, filesOf_input inside (by omega)⟩

/-! ## The files of the image -/

theorem filesOf_typed (found : filesOf inputs g = some file) : file.type ≠ 0 := by
  rw [filesOf] at found
  split at found
  · cases found
    exact (by decide : T_DIR ≠ 0)
  · split at found
    · obtain ⟨input, _, rfl⟩ := Option.map_eq_some_iff.mp found
      exact (by decide : T_FILE ≠ 0)
    · cases found

namespace Written

variable (written : Written inputs img nodes out)
include written

theorem sound_view : Sound superblock out.view nodes := by
  have inside := (written.holds _ _ (filesOf_root inputs)).inside
  rw [written.view]
  exact (Confined.putInode written.toMade.sound inside _).sound

theorem diskInode_file (found : filesOf inputs g = some file) : InTable superblock g ∧
    diskInode superblock out.view g = ⟨file.type, 0, 0, 1,
      if g = ROOTINO then rootSize (UInt32.ofNat file.data.length) else UInt32.ofNat file.data.length, nodes g⟩ := by
  have holds := written.holds g file found
  refine ⟨holds.inside, ?_⟩
  rw [written.view]
  by_cases isRoot : g = ROOTINO
  · subst isRoot
    rw [diskInode_putInode_self, rootNode, holds.inode, if_pos rfl]
  · rw [diskInode_putInode_of_ne isRoot, holds.inode, if_neg isRoot]

theorem stores_file (found : filesOf inputs g = some file) :
    Stores out.view (nodes g) (within (dataBlocks file.data.length)) file.data := by
  have inside := (written.holds _ _ (filesOf_root inputs)).inside
  rw [written.view]
  exact (written.holds g file found).stores.put written.toMade.sound inside _

theorem present_iff : Present superblock out.view g ↔ ∃ file, filesOf inputs g = some file := by
  constructor
  · rintro ⟨inside, typed⟩
    cases found : filesOf inputs g with
    | some file => exact ⟨file, rfl⟩
    | none =>
      have notRoot : g ≠ ROOTINO := by
        rintro rfl
        rw [filesOf_root] at found
        cases found
      rw [written.view, diskInode_putInode_of_ne notRoot] at typed
      exact absurd ((written.free g found).2 inside) typed
  · rintro ⟨file, found⟩
    obtain ⟨inside, same⟩ := written.diskInode_file found
    refine ⟨inside, ?_⟩
    rw [same]
    exact filesOf_typed found

theorem diskNodes_eq : diskNodes superblock out.view = nodes := by
  funext g
  have allocated := written.present_iff (g := g)
  unfold Present at allocated
  unfold diskNodes
  cases found : filesOf inputs g with
  | some file =>
    rw [if_pos (allocated.mpr ⟨file, found⟩), (written.diskInode_file found).2]
  | none =>
    have unused : ¬ ∃ file, filesOf inputs g = some file := by
      rintro ⟨file, same⟩
      rw [found] at same
      cases same
    rw [if_neg (mt allocated.mp unused), (written.free g found).1]

end Written

def File.content (file : File) : Content := ⟨file.type, file.data⟩

def File.padded (file : File) : Content :=
  ⟨file.type, file.data ++ List.replicate ((file.data.length / bsize + 1) * bsize - file.data.length) 0⟩

/-- The files that `mkfs` is given, and the root directory. -/
def tableOf (inputs : List Input) : Files := fun g =>
  (filesOf inputs g).map fun file => if g = ROOTINO then file.padded else file.content

/-! ## The size of the root directory -/

theorem le_dataBlocks (size : Nat) : size ≤ dataBlocks size * bsize := by
  change size ≤ (size + 511) / 512 * 512
  omega

theorem toNat_rootSize {size : UInt32} (small : size.toNat ≤ maxFile * bsize) :
    (rootSize size).toNat = (size.toNat / bsize + 1) * bsize := by
  change _ ≤ 71680 at small
  have index : (size / UInt32.ofNat bsize).toNat = size.toNat / 512 := UInt32.toNat_div ..
  rw [rootSize, UInt32.toNat_mul, UInt32.toNat_add, index]
  change (size.toNat / 512 + 1) % 2 ^ 32 * 512 % 2 ^ 32 = (size.toNat / 512 + 1) * 512
  omega

namespace Written

variable (written : Written inputs img nodes out)
include written

theorem small_file (found : filesOf inputs g = some file) : file.data.length ≤ maxFile * bsize :=
  (written.holds g file found).small

theorem size_root : (diskInode superblock out.view ROOTINO).size.toNat =
    ((rootFile inputs).data.length / bsize + 1) * bsize := by
  have small := written.small_file (filesOf_root inputs)
  have number : (UInt32.ofNat (rootFile inputs).data.length).toNat = (rootFile inputs).data.length :=
    UInt32.toNat_ofNat_of_lt' (small.trans_lt (by decide))
  rw [(written.diskInode_file (filesOf_root inputs)).2, if_pos rfl, toNat_rootSize (by rw [number]; exact small),
    number]

theorem size_file (found : filesOf inputs g = some file) (other : g ≠ ROOTINO) :
    (diskInode superblock out.view g).size.toNat = file.data.length := by
  rw [(written.diskInode_file found).2, if_neg other]
  exact UInt32.toNat_ofNat_of_lt' ((written.small_file found).trans_lt (by decide))

theorem mapped_file (found : filesOf inputs g = some file) {size : Nat}
    (within : size ≤ dataBlocks file.data.length * bsize) : Mapped out.view (nodes g) size := by
  intro k less
  have small := written.small_file found
  have block : k / bsize < dataBlocks file.data.length := by
    apply Nat.div_lt_of_lt_mul
    rw [Nat.mul_comm bsize]
    omega
  have most : dataBlocks file.data.length ≤ maxFile := by
    change _ ≤ 71680 at small
    change (_ + 511) / 512 ≤ 140
    omega
  exact ((written.stores_file found).blockAt_ne_zero (block.trans_le most)).mpr block

theorem bytes_file (found : filesOf inputs g = some file) {size : Nat} (least : file.data.length ≤ size)
    (within : size ≤ dataBlocks file.data.length * bsize) :
    bytesOf out.view (nodes g) size = file.data ++ List.replicate (size - file.data.length) 0 := by
  apply bytesOf_eq
  · rw [List.length_append, List.length_replicate]
    omega
  · intro k less
    rw [(written.stores_file found).bytes k (written.mapped_file found within k less)]
    by_cases inside : k < file.data.length
    · rw [List.getD_append _ _ _ _ inside]
    · have behind : k - file.data.length < size - file.data.length := by omega
      rw [List.getD_append_right _ _ _ _ (Nat.le_of_not_lt inside), List.getD_replicate _ behind,
        List.getD_eq_default _ _ (Nat.le_of_not_lt inside)]

/-- The last block of the root directory is there unless its entries end with a block. -/
theorem mapped_root : Mapped out.view (nodes ROOTINO) (diskInode superblock out.view ROOTINO).size.toNat ↔
    (inputs.length + 2) % 32 ≠ 0 := by
  have length := length_rootFile inputs
  change _ = 16 * _ at length
  have found := filesOf_root inputs
  have small := written.small_file found
  rw [written.size_root]
  constructor
  · intro mapped whole
    have here := mapped (rootFile inputs).data.length (by change _ < (_ / 512 + 1) * 512; omega)
    have blocks : dataBlocks (rootFile inputs).data.length = (rootFile inputs).data.length / bsize := by
      change (_ + 511) / 512 = _ / 512
      omega
    have bound : (rootFile inputs).data.length / bsize < maxFile := blockAt_bound here
    have inside := ((written.stores_file found).blockAt_ne_zero bound).mp here
    rw [blocks] at inside
    exact Nat.lt_irrefl _ inside
  · intro part
    apply written.mapped_file found
    change (_ / 512 + 1) * 512 ≤ (_ + 511) / 512 * 512
    omega

section
variable (part : (inputs.length + 2) % 32 ≠ 0)
include part

theorem within_root : (diskInode superblock out.view ROOTINO).size.toNat ≤
    dataBlocks (rootFile inputs).data.length * bsize := by
  have length := length_rootFile inputs
  change _ = 16 * _ at length
  rw [written.size_root]
  change (_ / 512 + 1) * 512 ≤ (_ + 511) / 512 * 512
  omega

theorem entryAt_root {j : Nat}
    (inside : direntSize * j + direntSize ≤ (diskInode superblock out.view ROOTINO).size.toNat) :
    entryAt out.view (nodes ROOTINO) (direntSize * j) = (rootEntries inputs)[j]?.getD ⟨0, fun _ => 0⟩ := by
  have small := written.small_file (filesOf_root inputs)
  have most : dataBlocks (rootFile inputs).data.length ≤ maxFile := by
    change _ ≤ 71680 at small
    change (_ + 511) / 512 ≤ 140
    omega
  exact entryAt_stores (written.stores_file (filesOf_root inputs)) most (inside.trans (written.within_root part))

theorem filesOn_view : filesOn superblock out.view = tableOf inputs := by
  funext g
  rw [filesOn, tableOf]
  cases found : filesOf inputs g with
  | none =>
    apply if_neg
    intro present
    obtain ⟨file, same⟩ := written.present_iff.mp present
    cases found.symm.trans same
  | some file =>
    have type : (diskInode superblock out.view g).type = file.type := by rw [(written.diskInode_file found).2]
    have addrs : (diskInode superblock out.view g).addrs = nodes g := by rw [(written.diskInode_file found).2]
    rw [if_pos (written.present_iff.mpr ⟨file, found⟩), type, addrs, Option.map_some]
    by_cases isRoot : g = ROOTINO
    · subst isRoot
      obtain rfl : rootFile inputs = file := Option.some.inj ((filesOf_root inputs).symm.trans found)
      have least : (rootFile inputs).data.length ≤ ((rootFile inputs).data.length / bsize + 1) * bsize := by
        change _ ≤ (_ / 512 + 1) * 512
        omega
      have within := written.within_root part
      rw [written.size_root] at within ⊢
      rw [written.bytes_file found least within, if_pos rfl]
      rfl
    · rw [written.size_file found isRoot, written.bytes_file found (Nat.le_refl _) (le_dataBlocks _), if_neg isRoot,
        Nat.sub_self, List.replicate_zero, List.append_nil]
      rfl

variable (few : inputs.length ≤ 198)
include few

theorem whole (found : filesOf inputs g = some file) :
    Whole superblock out.view (diskInode superblock out.view g) := by
  have same := (written.diskInode_file found).2
  have addrs : (diskInode superblock out.view g).addrs = nodes g := by rw [same]
  refine ⟨?_, ?_, fun isDir off aligned inside named => ?_⟩
  · rw [addrs]
    by_cases isRoot : g = ROOTINO
    · subst isRoot
      exact written.mapped_root.mpr part
    · rw [written.size_file found isRoot]
      apply written.mapped_file found
      change _ ≤ (_ + 511) / 512 * 512
      omega
  · rw [same]
    exact (by decide : (1 : UInt16) ≠ 0)
  · by_cases isRoot : g = ROOTINO
    · subst isRoot
      obtain ⟨j, rfl⟩ : ∃ j, off = direntSize * j := Nat.dvd_of_mod_eq_zero aligned
      rw [addrs, written.entryAt_root part inside] at named ⊢
      cases entry : (rootEntries inputs)[j]? with
      | none =>
        rw [entry] at named
        exact absurd rfl named
      | some d =>
        exact written.present_iff.mpr (filesOf_entry few (List.mem_of_getElem? entry))
    · rw [same] at isDir
      rw [filesOf, if_neg isRoot] at found
      split at found
      · obtain ⟨input, _, rfl⟩ := Option.map_eq_some_iff.mp found
        exact absurd isDir (by decide : T_FILE ≠ T_DIR)
      · cases found

end

end Written

/-! ## The boot -/

theorem word_superBlock (i : Fin nindirect) : superBlock.word i = superWords.getD i.val 0 := by
  have byte : ∀ k : Fin 4, superBlock (Block.position i k) = Word.byte (superWords.getD i.val 0) k.val := by
    intro k
    have quotient : (4 * i.val + k.val) / 4 = i.val := by omega
    have remainder : (4 * i.val + k.val) % 4 = k.val := by omega
    change Word.byte (superWords.getD ((4 * i.val + k.val) / 4) 0) ((4 * i.val + k.val) % 4) = _
    rw [quotient, remainder]
  rw [Block.word, byte, byte, byte, byte]
  exact Word.ofBytes_byte _

theorem Written.head_view (written : Written inputs img nodes out) {b : UInt32} (before : b.toNat < 2 + nlog) :
    out.view b = if b = 1 then superBlock else Block.zero := by
  have inside := (written.holds _ _ (filesOf_root inputs)).inside
  have other : b ≠ iblock ROOTINO superblock := by
    rintro rfl
    exact absurd before (by decide)
  rw [written.view, putInode, Function.update_of_ne other]
  exact written.head b before

theorem Written.recovers (written : Written inputs img nodes out) :
    ∃ s, emptyLog.recoverFromLog.run Store.handle (Store.boot out.view) = some (emptyLog, s) ∧ s.view = out.view := by
  have header : (Store.boot out.view).view emptyLog.start = Block.zero := written.head_view (b := 2) (by decide)
  have none : Word.toInt (Block.zero.word 0) = 0 := by decide
  have cleared : Block.zero.setWord 0 (Word.ofInt 0) = Block.zero := by
    funext j
    simp [Block.setWord, Word.ofInt, Word.byte, Block.zero]
  have reads : emptyLog.readHead.run Store.handle (Store.boot out.view) = some (emptyLog, Store.boot out.view) := by
    simp only [Log.readHead, Program.run_bind, Store.run_bread, Store.run_data, Option.bind_some, header, none]
    rfl
  obtain ⟨s, isS⟩ : ∃ s : Store, s = ⟨Function.update out.view emptyLog.start Block.zero,
    Function.update out.view emptyLog.start Block.zero, [(emptyLog.start, Block.zero)]⟩ := ⟨_, rfl⟩
  have writes : emptyLog.reset.writeHead.run Store.handle (Store.boot out.view) = some ((), s) := by
    rw [isS]
    have start : emptyLog.reset.start = emptyLog.start := rfl
    have count : emptyLog.reset.lh.n = 0 := rfl
    simp only [Log.writeHead, Program.run_bind, Store.run_bread, Store.run_data, Option.bind_some, start, header, count,
      cleared, Int.toNat_zero, LogHeader.store, Log.inBounds, Program.run_pure, Store.run_setData, Store.run_bwrite,
      Store.run_brelse, Function.update_self]
    rfl
  refine ⟨s, ?_, ?_⟩
  · rw [Log.recoverFromLog]
    simp only [Program.run_bind, reads, Option.bind_some]
    have installs : emptyLog.installTrans.run Store.handle (Store.boot out.view) = some ((), Store.boot out.view) := rfl
    simp only [installs, Option.bind_some, writes, Program.run_pure]
    rfl
  · rw [isS]
    exact Function.update_eq_self_iff.mpr header.symm

def booted (s : Store) : Machine := ⟨Icache.init, emptyLog, s⟩

theorem main_written (few : inputs.length ≤ 198) (ran : main inputs = some out) :
    ∃ img nodes, Written inputs img nodes out := by
  rcases main_cases inputs few with ⟨_, out', img, nodes, writes, written⟩ | ⟨_, fails⟩
  · rw [ran] at writes
    cases writes
    exact ⟨img, nodes, written⟩
  · rw [ran] at fails
    cases fails

section
variable (written : Written inputs img nodes out) (few : inputs.length ≤ 198) {s : Store} (view : s.view = out.view)
include written few view

theorem Written.fileSystem_iff : FileSystem (fun log => log.lh.n = 0) superblock (booted s) ↔
    (inputs.length + 2) % 32 ≠ 0 := by
  have root := written.present_iff.mpr ⟨_, filesOf_root inputs⟩
  constructor
  · intro fs
    have filled := (fs.disk ROOTINO (by rw [booted, view]; exact root)).filled
    rw [booted, view] at filled
    have addrs : (diskInode superblock out.view ROOTINO).addrs = nodes ROOTINO := by
      rw [(written.diskInode_file (filesOf_root inputs)).2]
    rw [addrs] at filled
    exact written.mapped_root.mp filled
  · intro part
    have sound : Sound superblock s.view (diskNodes superblock s.view) := by
      rw [view, written.diskNodes_eq]
      exact written.sound_view
    refine ⟨⟨_, Owned.init rfl sound⟩, ?_, fun g present => ?_, fun _ used => absurd used (Int.lt_irrefl 0)⟩
    · rw [booted, view]
      exact root
    · rw [booted, view] at present ⊢
      obtain ⟨file, found⟩ := written.present_iff.mp present
      exact written.whole part few found

theorem Written.settled (part : (inputs.length + 2) % 32 ≠ 0) : Settled superblock (booted s) where
  whole g present := by
    rw [booted, view] at present ⊢
    obtain ⟨file, found⟩ := written.present_iff.mp present
    exact written.whole part few found
  entries g present isDir := by
    rw [booted, view] at present isDir ⊢
    obtain ⟨file, found⟩ := written.present_iff.mp present
    by_cases isRoot : g = ROOTINO
    · subst isRoot
      rw [written.size_root]
      change (_ / 512 + 1) * 512 % 16 = 0
      omega
    · rw [(written.diskInode_file found).2] at isDir
      rw [filesOf, if_neg isRoot] at found
      split at found
      · obtain ⟨input, _, rfl⟩ := Option.map_eq_some_iff.mp found
        exact absurd isDir (by decide : T_FILE ≠ T_DIR)
      · cases found
  counted _ := Int.le_refl 0
  live _ used := absurd used (Int.lt_irrefl 0)
  saved _ used := absurd used (Int.lt_irrefl 0)

end

theorem vacant_booted (s : Store) : Inodes.Vacant (booted s) where
  unlocked _ := rfl
  spare := ⟨⟨0, by decide⟩, ⟨1, by decide⟩, by decide, rfl, rfl⟩

/-- The entries of the root directory, with free ones up to the end of the block. -/
theorem Written.entriesAt_root (written : Written inputs img nodes out) (part : (inputs.length + 2) % 32 ≠ 0) {n : Nat}
    (size : (diskInode superblock out.view ROOTINO).size.toNat = direntSize * n) :
    entriesAt out.view (nodes ROOTINO) 0 n =
      rootEntries inputs ++ List.replicate (n - (rootEntries inputs).length) ⟨0, fun _ => 0⟩ := by
  have length := length_rootEntries inputs
  have bytes := length_rootFile inputs
  have enough : (rootEntries inputs).length ≤ n := by
    rw [written.size_root, bytes] at size
    change (16 * (inputs.length + 2) / 512 + 1) * 512 = 16 * n at size
    omega
  apply List.ext_getElem?
  intro j
  rw [getElem?_entriesAt, Nat.zero_add]
  by_cases inside : j < n
  · have fits : direntSize * j + direntSize ≤ (diskInode superblock out.view ROOTINO).size.toNat := by
      rw [size, ← Nat.mul_succ]
      exact Nat.mul_le_mul_left _ inside
    rw [if_pos inside, written.entryAt_root part fits]
    by_cases named : j < (rootEntries inputs).length
    · rw [List.getElem?_append_left named, List.getElem?_eq_getElem named]
      rfl
    · have behind := Nat.le_of_not_lt named
      rw [List.getElem?_append_right behind, List.getElem?_eq_none behind, List.getElem?_replicate, if_pos (by omega)]
      rfl
  · rw [if_neg inside, List.getElem?_append_right (by omega), List.getElem?_replicate, if_neg (by omega)]

theorem Written.directory_root (written : Written inputs img nodes out) (part : (inputs.length + 2) % 32 ≠ 0) :
    directory superblock out.view ROOTINO = some (bindings (rootEntries inputs)) := by
  have fields := (written.diskInode_file (filesOf_root inputs)).2
  have isDir : (diskInode superblock out.view ROOTINO).type = T_DIR := by
    rw [fields]
    rfl
  have addrs : (diskInode superblock out.view ROOTINO).addrs = nodes ROOTINO := by rw [fields]
  have size : (diskInode superblock out.view ROOTINO).size.toNat =
      direntSize * ((diskInode superblock out.view ROOTINO).size.toNat / direntSize) := by
    rw [written.size_root]
    change (_ / 512 + 1) * 512 = 16 * ((_ / 512 + 1) * 512 / 16)
    omega
  rw [directory, if_pos isDir, addrs, written.entriesAt_root part size]
  refine congrArg some ?_
  funext k
  rw [bindings, bindings, Slots.get_append_free]
  intro d member
  rw [List.eq_of_mem_replicate member]
  exact if_pos rfl

/-! ## Reading a file -/

theorem name_inside (input : Input) : ∀ c ∈ input.name, c ≠ slash ∧ c ≠ 0 := by
  intro c member
  have inBase : c ∈ input.base := by
    rw [Input.name] at member
    split at member
    · exact List.mem_of_mem_tail member
    · exact member
  refine ⟨?_, input.string c (List.mem_of_mem_drop inBase)⟩
  rintro rfl
  exact slash_not_mem_base input inBase

theorem elements_name {input : Input} (some : input.name ≠ []) :
    elements (slash :: input.name) = [(Name.ofString input.name).label] := by
  have first : elements (input.name ++ []) = (Name.ofString input.name).label :: elements [] :=
    elements_first some (name_inside input) (.inr rfl)
  rw [List.append_nil] at first
  rw [elements_slash, first, elements_ended rfl]

/-- No entry before that of an input has its name. -/
def First (inputs : List Input) (i : Nat) (name : List UInt8) : Prop :=
  ∀ s ∈ dot :: dotdot :: (inputs.take i).map Input.name, (Name.ofString s).label ≠ (Name.ofString name).label

theorem bindings_first {i : Nat} (few : inputs.length ≤ 198) (inside : i < inputs.length)
    (first : First inputs i inputs[i].name) :
    bindings (rootEntries inputs) (Name.ofString inputs[i].name).label = some (UInt32.ofNat (i + 2)).toUInt16 := by
  have real : ∀ j, j < inputs.length → (UInt32.ofNat (j + 2)).toUInt16 ≠ 0 := by
    intro j less zero
    have zero := congrArg UInt16.toNat zero
    rw [UInt32.toNat_toUInt16, toNat_inum (by omega)] at zero
    change (j + 2) % 2 ^ 16 = 0 at zero
    omega
  have here : (rootEntries inputs)[i + 2]? = some (.named (.ofString inputs[i].name) (UInt32.ofNat (i + 2))) := by
    rw [rootEntries, List.getElem?_cons_succ, List.getElem?_cons_succ, List.getElem?_mapIdx,
      List.getElem?_eq_getElem inside]
    rfl
  have dots : (dotEntry ROOTINO dot).key = some (Name.ofString dot).label ∧
      (dotEntry ROOTINO dotdot).key = some (Name.ofString dotdot).label := by decide +kernel
  rw [bindings, Slots.get_first here (Dirent.key_named (real i inside))]
  · rfl
  · intro d member
    rw [rootEntries, List.take_succ_cons, List.take_succ_cons, List.mem_cons, List.mem_cons] at member
    rcases member with rfl | rfl | member
    · rw [dots.1]
      exact fun same => first dot List.mem_cons_self (Option.some.inj same)
    · rw [dots.2]
      exact fun same => first dotdot (List.mem_cons_of_mem _ List.mem_cons_self) (Option.some.inj same)
    · obtain ⟨j, less, rfl⟩ := List.mem_take_iff_getElem.mp member
      rw [List.length_mapIdx] at less
      have before : j < inputs.length := by omega
      rw [List.getElem_mapIdx, Dirent.key_named (real j before)]
      have earlier : inputs[j].name ∈ (inputs.take i).map Input.name :=
        List.mem_map_of_mem (List.mem_take_iff_getElem.mpr ⟨j, less, rfl⟩)
      exact fun same => first _ (List.mem_cons_of_mem _ (List.mem_cons_of_mem _ earlier)) (Option.some.inj same)

def readFile (path : List UInt8) (dst : Nat → UInt8) (off n : UInt64) :
    Program Inodes (Option (Int × (Nat → UInt8))) := do
  match ← Inodes.namei none path with
  | none => return none
  | some ip => do
    Inodes.ilock ip
    let out ← Inodes.readi ip dst off n
    return some out

theorem Written.reads (written : Written inputs img nodes out) (few : inputs.length ≤ 198)
    (part : (inputs.length + 2) % 32 ≠ 0) {s : Store} (view : s.view = out.view) {i : Nat} (inside : i < inputs.length)
    (some : inputs[i].name ≠ []) (first : First inputs i inputs[i].name) (dst : Nat → UInt8) (off n : UInt64) :
    ∃ t, (readFile (slash :: inputs[i].name) dst off n).run (Machine.handle superblock noDevices) (booted s) =
      Option.some (Option.some (inputs[i].file.content.read dst off.toNat n.toNat), t) := by
  have settled := written.settled few view part
  have vacant := vacant_booted s
  have root : Present superblock (booted s).store.view ROOTINO := by
    rw [booted, view]
    exact written.present_iff.mpr ⟨_, filesOf_root inputs⟩
  obtain ⟨found, t, ran, result⟩ := @Inodes.namei_walks superblock (booted s) noDevices none (slash :: inputs[i].name)
    ROOTINO settled vacant root nofun (if_pos rfl)
  have leads : walk (directory superblock (booted s).store.view) ROOTINO (elements (slash :: inputs[i].name)) =
      Option.some (UInt32.ofNat (i + 2)) := by
    rw [booted, view, elements_name some, walk, written.directory_root part, Option.bind_some,
      bindings_first few inside first, Option.bind_some, walk, toUInt16_inum (by omega)]
  rw [leads] at result
  obtain ⟨j, rfl, reached, inum⟩ := result
  obtain ⟨m₁, locked, opened⟩ := reached.opens noDevices settled vacant
  -- the fields of the inode are those on the disk
  have found := filesOf_input inside (by omega)
  have other := inum_ne_root (i := i) (by omega)
  have store : m₁.store = s := opened.store.trans reached.store
  have fields := opened.fields
  rw [reached.store, inum] at fields
  change (m₁.icache j).dinode = diskInode superblock s.view _ at fields
  rw [view] at fields
  have size : (m₁.icache j).size.toNat = inputs[i].data.length :=
    (congrArg (fun d : Dinode => d.size.toNat) fields).trans (written.size_file found other)
  rw [(written.diskInode_file found).2] at fields
  have type : (m₁.icache j).type = T_FILE := congrArg Dinode.type fields
  have addrs : (m₁.icache j).addrs = nodes (UInt32.ofNat (i + 2)) := congrArg Dinode.addrs fields
  have notDev : (m₁.icache j).type ≠ T_DEV := by
    rw [type]
    decide
  have mapped : Mapped m₁.store.view (m₁.icache j).addrs (m₁.icache j).size.toNat := by
    rw [store, view, addrs, size]
    apply written.mapped_file found
    change _ ≤ (_ + 511) / 512 * 512
    change inputs[i].data.length ≤ (inputs[i].data.length + 511) / 512 * 512
    omega
  have data : content m₁ j = inputs[i].file.content := by
    have whole := written.bytes_file found (Nat.le_refl _) (le_dataBlocks inputs[i].file.data.length)
    rw [Nat.sub_self, List.replicate_zero, List.append_nil] at whole
    rw [content, type, size, store, view, addrs]
    exact congrArg (Content.mk T_FILE) whole
  have answered := content_read superblock noDevices notDev mapped dst off n
  rw [data] at answered
  refine ⟨m₁, ?_⟩
  rw [readFile]
  refine (Inodes.run_seq ran _).trans ?_
  refine (Inodes.run_seq locked _).trans ?_
  exact (Inodes.run_seq (Inodes.run_answered answered) _).trans rfl

/-! ## Runs of mkfs -/

/-- `mkfs` succeeds if and only if no file is too large and the blocks of all files fit on the disk. -/
theorem main_isSome_iff (few : inputs.length ≤ 198) : (main inputs).isSome = true ↔ Room inputs := by
  rcases main_cases inputs few with ⟨room, out, _, _, ran, _⟩ | ⟨full, fails⟩
  · rw [ran]
    exact iff_of_true rfl room
  · rw [fails]
    exact iff_of_false nofun full

/-- The kernel boots from an image of `mkfs` with all its invariants, unless the root directory is said to have
a block that it does not have. -/
theorem main_boots (few : inputs.length ≤ 198) (ran : main inputs = some out) : out.sectors = fsSize ∧
    (∀ i, (out.view 1).word i = superWords.getD i.val 0) ∧
    ∃ s, emptyLog.recoverFromLog.run Store.handle (Store.boot out.view) = some (emptyLog, s) ∧ s.view = out.view ∧
      (FileSystem (fun log => log.lh.n = 0) superblock (booted s) ↔ (inputs.length + 2) % 32 ≠ 0) ∧
      ((inputs.length + 2) % 32 ≠ 0 → Settled superblock (booted s)) := by
  obtain ⟨img, nodes, written⟩ := main_written few ran
  obtain ⟨s, recovers, view⟩ := written.recovers
  refine ⟨written.length, fun i => ?_, s, recovers, view, written.fileSystem_iff few view,
    fun part => written.settled few view part⟩
  rw [written.head_view (by decide), if_pos rfl]
  exact word_superBlock i

/-- After a boot from an image of `mkfs`, a file that was given to it is read under its name as it was. -/
theorem main_reads (few : inputs.length ≤ 198) (part : (inputs.length + 2) % 32 ≠ 0) (ran : main inputs = some out)
    {i : Nat} (inside : i < inputs.length) (some : inputs[i].name ≠ []) (first : First inputs i inputs[i].name)
    (dst : Nat → UInt8) (off n : UInt64) :
    ∃ s t, emptyLog.recoverFromLog.run Store.handle (Store.boot out.view) = Option.some (emptyLog, s) ∧
      (readFile (slash :: inputs[i].name) dst off n).run (Machine.handle superblock noDevices) (booted s) =
        Option.some (Option.some (inputs[i].file.content.read dst off.toNat n.toNat), t) := by
  obtain ⟨img, nodes, written⟩ := main_written few ran
  obtain ⟨s, recovers, view⟩ := written.recovers
  obtain ⟨t, reads⟩ := written.reads few part view inside some first dst off n
  exact ⟨s, t, recovers, reads⟩

/-- From an image of `mkfs` on, the system works as a table of files that begins with those given to `mkfs`. -/
theorem main_files (few : inputs.length ≤ 198) (part : (inputs.length + 2) % 32 ≠ 0) (ran : main inputs = some out)
    (devsw : Fin ndev → Devsw UInt32) :
    ∃ s, emptyLog.recoverFromLog.run Store.handle (Store.boot out.view) = some (emptyLog, s) ∧
      ∀ acts m, Meets (act superblock devsw) (fun r m => Permitted superblock r m ∧ OnFiles r m) acts (booted s) →
        run (act superblock devsw) acts (booted s) = some m →
        Leads Files.Does (tableOf inputs) (observed (act superblock devsw) (eventOf superblock devsw) acts (booted s))
          (filesOn superblock m.store.view) := by
  obtain ⟨img, nodes, written⟩ := main_written few ran
  obtain ⟨s, recovers, view⟩ := written.recovers
  refine ⟨s, recovers, fun acts m meets ran => ?_⟩
  have begin : filesOn superblock (booted s).store.view = tableOf inputs := by
    change filesOn superblock s.view = _
    rw [view]
    exact written.filesOn_view part
  have settled := written.settled few view part
  have image : Sound superblock s.view (diskNodes superblock s.view) := by
    rw [view, written.diskNodes_eq]
    exact written.sound_view
  rw [← begin]
  exact files_refined admits_empty rfl rfl image (fun g present => (settled.whole g present).filled) meets ran

def shortInput : Input := ⟨[underscore, 97], [[1, 2, 3]], by decide +kernel, by decide⟩

theorem room_shortInput : Room [shortInput] := ⟨by decide +kernel, by decide +kernel⟩

theorem main_isSome_shortInput : (main [shortInput]).isSome = true :=
  (main_isSome_iff (by decide)).mpr room_shortInput

theorem main_boots_shortInput : ∃ out s, main [shortInput] = some out ∧
    emptyLog.recoverFromLog.run Store.handle (Store.boot out.view) = some (emptyLog, s) ∧
    FileSystem (fun log => log.lh.n = 0) superblock (booted s) := by
  rcases main_cases [shortInput] (by decide) with ⟨_, out, _, _, ran, _⟩ | ⟨full, _⟩
  · obtain ⟨_, _, s, recovers, _, consistent, _⟩ := main_boots (by decide) ran
    exact ⟨out, s, ran, recovers, consistent.mpr (by decide)⟩
  · exact absurd room_shortInput full

theorem main_reads_shortInput : ∃ out s t, main [shortInput] = some out ∧
    emptyLog.recoverFromLog.run Store.handle (Store.boot out.view) = some (emptyLog, s) ∧
    (readFile [slash, 97] (fun _ => 0) 1 1).run (Machine.handle superblock noDevices) (booted s) =
      some (some (Content.read ⟨T_FILE, [1, 2, 3]⟩ (fun _ => 0) 1 1), t) := by
  rcases main_cases [shortInput] (by decide) with ⟨_, out, _, _, ran, _⟩ | ⟨full, _⟩
  · obtain ⟨s, t, recovers, reads⟩ := main_reads (by decide) (by decide) ran Nat.zero_lt_one (by decide)
      (by unfold First; decide +kernel) (fun _ => 0) 1 1
    exact ⟨out, s, t, ran, recovers, reads⟩
  · exact absurd room_shortInput full

def openShort : List Inodes.Request := [.iget ROOTDEV 2, .ilock firstEntry]

theorem main_files_shortInput : ∃ out s m, main [shortInput] = some out ∧
    emptyLog.recoverFromLog.run Store.handle (Store.boot out.view) = some (emptyLog, s) ∧
    run (act superblock noDevices) openShort (booted s) = some m ∧
    Leads Files.Does (tableOf [shortInput])
      (observed (act superblock noDevices) (eventOf superblock noDevices) openShort (booted s))
      (filesOn superblock m.store.view) := by
  rcases main_cases [shortInput] (by decide) with ⟨_, out, img, nodes, ran, written⟩ | ⟨full, _⟩
  · obtain ⟨s, recovers, works⟩ := main_files (by decide) (by decide) ran noDevices
    obtain ⟨_, _, _, same, view, _⟩ := main_boots (by decide) ran
    cases recovers.symm.trans same
    have present : Present superblock s.view 2 := by
      rw [view]
      exact written.present_iff.mpr ⟨shortInput.file, rfl⟩
    have opened : (run (act superblock noDevices) openShort (booted s)).isSome = true := rfl
    obtain ⟨m, done⟩ := Option.isSome_iff_exists.mp opened
    have meets : Meets (act superblock noDevices) (fun r m => Permitted superblock r m ∧ OnFiles r m) openShort
        (booted s) := by
      refine ⟨⟨⟨rfl, present⟩, trivial⟩, fun m taken => ⟨⟨?_, trivial⟩, fun _ _ => trivial⟩⟩
      cases taken
      exact Int.zero_lt_one
    exact ⟨out, s, m, ran, recovers, done, works openShort m meets done⟩
  · exact absurd room_shortInput full

end Xv6.Mkfs
