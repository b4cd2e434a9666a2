import Mathlib.Data.List.Induction
import Xv6.Mkfs.Files

/-! The whole run of `mkfs`.

Its arguments say which files the image has, and how many blocks these take. The image is written if
and only if there is room for all of them.
-/

set_option autoImplicit false

namespace Xv6.Mkfs

open Library Fs Image

/-! ## What the arguments say -/

def entryBytes (d : Dirent) : List UInt8 := taken d.byte 0 direntSize

def dot : List UInt8 := [46]

def dotdot : List UInt8 := [46, 46]

def rootEntries (inputs : List Input) : List Dirent :=
  dotEntry ROOTINO dot :: dotEntry ROOTINO dotdot ::
    inputs.mapIdx fun i input => .named (.ofString input.name) (UInt32.ofNat (i + 2))

def rootFile (inputs : List Input) : File := ⟨T_DIR, (rootEntries inputs).flatMap entryBytes⟩

def Input.file (input : Input) : File := ⟨T_FILE, input.data⟩

def filesOf (inputs : List Input) : UInt32 → Option File := fun g =>
  if g = ROOTINO then some (rootFile inputs)
  else if 2 ≤ g.toNat then inputs[g.toNat - 2]?.map Input.file else none

def space (inputs : List Input) : Nat :=
  (rootFile inputs).blocks + (inputs.map fun input => input.file.blocks).sum

/-- The files are not too large, and there are blocks for all of them. -/
def Room (inputs : List Input) : Prop :=
  nmeta + space inputs ≤ fsSize ∧ ∀ input ∈ inputs, input.data.length ≤ maxFile * bsize

variable {img img' : Image} {nodes nodes' : Nodes} {inputs rest : List Input} {input : Input}

theorem length_entryBytes (d : Dirent) : (entryBytes d).length = direntSize := length_taken ..

theorem length_flatMap_entryBytes (list : List Dirent) :
    (list.flatMap entryBytes).length = direntSize * list.length := by
  induction list with
  | nil => rfl
  | cons d list ih => rw [List.flatMap_cons, List.length_append, length_entryBytes, ih, List.length_cons, Nat.mul_succ,
      Nat.add_comm]

theorem length_rootEntries (inputs : List Input) : (rootEntries inputs).length = inputs.length + 2 := by
  rw [rootEntries, List.length_cons, List.length_cons, List.length_mapIdx]

theorem length_rootFile (inputs : List Input) : (rootFile inputs).data.length = direntSize * (inputs.length + 2) := by
  rw [rootFile, length_flatMap_entryBytes, length_rootEntries]

theorem rootFile_snoc (inputs : List Input) (input : Input) : rootFile (inputs ++ [input]) = (rootFile inputs).append
    (entryBytes (.named (.ofString input.name) (UInt32.ofNat (inputs.length + 2)))) := by
  rw [rootFile, rootFile, File.append, rootEntries, rootEntries, List.mapIdx_concat]
  simp [List.flatMap_append]

theorem filesOf_snoc {inum : UInt32} (isInum : inum.toNat = inputs.length + 2) :
    Function.update (Function.update (Function.update (filesOf inputs) inum (some ⟨T_FILE, []⟩)) ROOTINO
      (some (rootFile (inputs ++ [input])))) inum (some input.file) = filesOf (inputs ++ [input]) := by
  have notRoot : inum ≠ ROOTINO := by
    rintro rfl
    change 1 = inputs.length + 2 at isInum
    omega
  funext g
  by_cases isRoot : g = ROOTINO
  · subst isRoot
    rw [Function.update_of_ne notRoot.symm, Function.update_self, filesOf, if_pos rfl]
  · by_cases isNew : g = inum
    · subst isNew
      have index : g.toNat - 2 = inputs.length := by omega
      rw [Function.update_self, filesOf, if_neg isRoot, if_pos (by omega), index, List.getElem?_concat_length]
      rfl
    · rw [Function.update_of_ne isNew, Function.update_of_ne isRoot, Function.update_of_ne isNew, filesOf, filesOf,
        if_neg isRoot, if_neg isRoot]
      split
      · have other : g.toNat - 2 ≠ inputs.length := by
          intro same
          exact isNew (UInt32.toNat_inj.mp (by omega))
        rcases Nat.lt_or_gt_of_ne other with before | behind
        · rw [List.getElem?_append_left before]
        · rw [List.getElem?_eq_none (by omega), List.getElem?_eq_none (by simp; omega)]
      · rfl

theorem space_snoc (inputs : List Input) (input : Input) :
    space (inputs ++ [input]) + (rootFile inputs).blocks =
      space inputs + (rootFile (inputs ++ [input])).blocks + input.file.blocks := by
  simp only [space, List.map_append, List.sum_append, List.map_singleton, List.sum_singleton]
  omega

theorem blocks_snoc (inputs : List Input) (input : Input) :
    (rootFile inputs).blocks ≤ (rootFile (inputs ++ [input])).blocks := by
  apply held_mono
  apply dataBlocks_mono
  rw [length_rootFile, length_rootFile, List.length_append]
  exact Nat.mul_le_mul_left _ (by omega)

theorem Room.before (room : Room (inputs ++ rest)) : Room inputs := by
  induction rest using List.reverseRecOn with
  | nil => rwa [List.append_nil] at room
  | append_singleton rest input ih =>
    rw [← List.append_assoc] at room
    apply ih
    have spaces := space_snoc (inputs ++ rest) input
    have grows := blocks_snoc (inputs ++ rest) input
    refine ⟨by have most := room.1; omega, fun other member => room.2 other (List.mem_append_left _ member)⟩

/-! ## Names -/

theorem behindSlash_snoc (path : List UInt8) (c : UInt8) :
    behindSlash (path ++ [c]) = if c = slash then 0 else behindSlash path + 1 := by
  rw [behindSlash, List.foldl_append]
  rfl

theorem behindSlash_le (path : List UInt8) : behindSlash path ≤ path.length := by
  induction path using List.reverseRecOn with
  | nil => exact Nat.le_refl 0
  | append_singleton path c ih =>
    rw [behindSlash_snoc, List.length_append, List.length_singleton]
    split <;> omega

/-- There is no slash behind the last slash, so the assertion of `main` holds. -/
theorem slash_not_mem_base (input : Input) : slash ∉ input.base := by
  rw [Input.base]
  generalize input.path = path
  induction path using List.reverseRecOn with
  | nil => exact List.not_mem_nil
  | append_singleton path c ih =>
    have least := behindSlash_le path
    rw [behindSlash_snoc, List.length_append, List.length_singleton]
    by_cases here : c = slash
    · rw [if_pos here, List.drop_of_length_le (by simp)]
      exact List.not_mem_nil
    · rw [if_neg here, Nat.add_sub_add_right, List.drop_append_of_le_length (Nat.sub_le ..), List.mem_append, not_or,
        List.mem_singleton]
      exact ⟨ih, Ne.symm here⟩

/-! ## The loop over the arguments -/

structure Made (inputs : List Input) (img : Image) (nodes : Nodes) : Prop extends Built img nodes (filesOf inputs) where
  inodes : img.freeinode.toNat = inputs.length + 2
  blocks : img.freeblock.toNat = nmeta + space inputs

theorem filesOf_root (inputs : List Input) : filesOf inputs ROOTINO = some (rootFile inputs) := if_pos rfl

theorem toNat_inum {i : Nat} (small : i + 2 < 2 ^ 32) : (UInt32.ofNat (i + 2)).toNat = i + 2 :=
  UInt32.toNat_ofNat_of_lt' small

theorem inum_ne_root {i : Nat} (small : i + 2 < 2 ^ 32) : UInt32.ofNat (i + 2) ≠ ROOTINO := by
  intro same
  have same := congrArg UInt32.toNat same
  rw [toNat_inum small] at same
  change i + 2 = 1 at same
  omega

theorem filesOf_input {i : Nat} (inside : i < inputs.length) (small : i + 2 < 2 ^ 32) :
    filesOf inputs (UInt32.ofNat (i + 2)) = some inputs[i].file := by
  rw [filesOf, if_neg (inum_ne_root small), toNat_inum small, if_pos (Nat.le_add_left ..), Nat.add_sub_cancel,
    List.getElem?_eq_getElem inside]
  rfl

theorem Made.room (made : Made inputs img nodes) : Room inputs := by
  refine ⟨made.blocks ▸ made.high, fun input member => ?_⟩
  obtain ⟨i, inside, rfl⟩ := List.getElem_of_mem member
  have few := made.inodes
  have bound := img.freeinode.toNat_lt
  exact (made.holds _ _ (filesOf_input inside (by omega))).small

theorem Made.addFile_cases (made : Made inputs img nodes) (few : inputs.length < 198) (input : Input) :
    (Room (inputs ++ [input]) ∧ ∃ img' nodes', addFile ROOTINO img input = some img' ∧
      Made (inputs ++ [input]) img' nodes') ∨
    (¬ Room (inputs ++ [input]) ∧ addFile ROOTINO img input = none) := by
  have inodes := made.inodes
  have blocks := made.blocks
  obtain ⟨img₁, allocates, built₁, next₁, same₁⟩ := made.ialloc_run T_FILE (by change _ < 200; omega)
  have notRoot : ROOTINO ≠ img.freeinode := by
    intro same
    have same := congrArg UInt32.toNat same
    change 1 = _ at same
    omega
  have root₁ : Function.update (filesOf inputs) img.freeinode (some ⟨T_FILE, []⟩) ROOTINO = some (rootFile inputs) := by
    rw [Function.update_of_ne notRoot, filesOf_root]
  have isInum : UInt32.ofNat (inputs.length + 2) = img.freeinode := by rw [← inodes, UInt32.ofNat_toNat]
  have snoc := rootFile_snoc inputs input
  have space' := space_snoc inputs input
  have grows := blocks_snoc inputs input
  have rootLength := length_rootFile inputs
  have entry : (UInt32.ofNat direntSize).toNat = direntSize := rfl
  rw [isInum] at snoc
  have rootBlocks' : (rootFile (inputs ++ [input])).blocks = held (dataBlocks ((rootFile inputs).data.length + direntSize)) := by
    rw [snoc, File.blocks, File.append, List.length_append, length_entryBytes]
  unfold addFile
  rw [if_neg (slash_not_mem_base input), allocates]
  dsimp only [Option.bind_eq_bind, Option.bind_some]
  by_cases rootFits : Fits img₁ (rootFile inputs).data.length ((rootFile inputs).data.length + direntSize)
  · obtain ⟨img₂, nodes₂, appends, extended⟩ := built₁.iappend_run root₁
      (Dirent.named (.ofString input.name) img.freeinode).byte (.ofNat direntSize) rootFits
    have built₂ := extended.toBuilt
    have count₂ := extended.freeblock
    change Built _ _ (Function.update _ ROOTINO (some ((rootFile inputs).append (entryBytes _)))) at built₂
    change _ + _ = _ + ((rootFile inputs).append (entryBytes _)).blocks at count₂
    rw [← snoc, same₁] at count₂
    rw [← snoc] at built₂
    have here₂ : Function.update (Function.update (filesOf inputs) img.freeinode (some ⟨T_FILE, []⟩)) ROOTINO
        (some (rootFile (inputs ++ [input]))) img.freeinode = some ⟨T_FILE, []⟩ := by
      rw [Function.update_of_ne notRoot.symm, Function.update_self]
    rw [appends]
    dsimp only [Option.bind_some]
    have room : Room (inputs ++ [input]) ↔ Fits img₂ 0 (0 + input.chunks.flatten.length) := by
      have nothing : held (dataBlocks 0) = 0 := rfl
      have fileBlocks : input.file.blocks = held (dataBlocks (0 + input.chunks.flatten.length)) := by
        rw [Nat.zero_add]
        rfl
      unfold Room Fits
      rw [nothing, ← fileBlocks, Nat.zero_add]
      constructor
      · rintro ⟨most, small⟩
        exact ⟨small input (List.mem_append_right _ List.mem_cons_self), by omega⟩
      · rintro ⟨small, most⟩
        refine ⟨by omega, fun other member => ?_⟩
        rcases List.mem_append.mp member with before | last
        · exact made.room.2 other before
        · rw [List.mem_singleton.mp last]
          exact small
    by_cases fits : Fits img₂ 0 (0 + input.chunks.flatten.length)
    · obtain ⟨img₃, nodes₃, copies, extended₃⟩ := built₂.copyFile_run here₂ input.chunks input.small fits
      have built₃ := extended₃.toBuilt
      have count₃ := extended₃.freeblock
      change Built _ _ (Function.update _ _ (some input.file)) at built₃
      change _ + held (dataBlocks 0) = _ + input.file.blocks at count₃
      rw [filesOf_snoc inodes] at built₃
      refine .inl ⟨room.mpr fits, img₃, nodes₃, copies, built₃, ?_, ?_⟩
      · rw [extended₃.freeinode, extended.freeinode, next₁, inodes, List.length_append]
        rfl
      · have nothing : held (dataBlocks 0) = 0 := rfl
        omega
    · exact .inr ⟨fun all => fits (room.mp all), built₂.copyFile_none here₂ input.chunks input.small fits⟩
  · rw [built₁.iappend_none root₁ _ (.ofNat direntSize) rootFits]
    refine .inr ⟨fun room => rootFits ⟨?_, ?_⟩, rfl⟩
    · rw [rootLength]
      change 16 * (inputs.length + 2) + 16 ≤ 71680
      omega
    · have most := room.1
      rw [← rootBlocks', same₁]
      change _ ≤ _ + (rootFile inputs).blocks
      omega

theorem Made.all_cases (made : Made inputs img nodes) (rest : List Input) (few : (inputs ++ rest).length ≤ 198) :
    (Room (inputs ++ rest) ∧ ∃ img' nodes', rest.foldlM (addFile ROOTINO) img = some img' ∧
      Made (inputs ++ rest) img' nodes') ∨
    (¬ Room (inputs ++ rest) ∧ rest.foldlM (addFile ROOTINO) img = none) := by
  induction rest generalizing inputs img nodes with
  | nil =>
    rw [List.append_nil]
    exact .inl ⟨made.room, img, nodes, rfl, made⟩
  | cons input rest ih =>
    have split : inputs ++ input :: rest = inputs ++ [input] ++ rest := by rw [List.append_assoc]; rfl
    rw [split] at few ⊢
    rw [List.foldlM_cons]
    have less : inputs.length < 198 := by
      rw [List.length_append, List.length_append] at few
      change inputs.length + 1 + _ ≤ 198 at few
      omega
    rcases made.addFile_cases less input with ⟨_, img₁, nodes₁, adds, made₁⟩ | ⟨full, fails⟩
    · rw [adds]
      exact ih made₁ few
    · rw [fails]
      exact .inr ⟨fun room => full room.before, rfl⟩

/-! ## The first sectors -/

theorem blank_run (super : Block) : blank super =
    ⟨fsSize, Function.update (fun _ => Block.zero) 1 super, 1, UInt32.ofNat nmeta⟩ := by
  have zeroed : ∀ n, n ≤ fsSize → (List.range n).foldl (fun (img : Image) i => img.wsect (UInt32.ofNat i) Block.zero)
      ⟨0, fun _ => Block.zero, 1, UInt32.ofNat nmeta⟩ = ⟨n, fun _ => Block.zero, 1, UInt32.ofNat nmeta⟩ := by
    intro n most
    induction n with
    | zero => rfl
    | succ n ih =>
      have number : (UInt32.ofNat n).toNat = n := UInt32.toNat_ofNat_of_lt' (most.trans (by decide))
      have small : (UInt32.ofNat n).toNat < bpb := by
        rw [number]
        exact Nat.lt_trans most fsSize_small
      rw [List.range_succ, List.foldl_append, ih (Nat.le_of_succ_le most), List.foldl_cons, List.foldl_nil, wsect,
        seek_small small, number]
      dsimp only
      rw [Nat.max_eq_right (Nat.le_succ n)]
      congr 1
      exact Function.update_eq_self ..
  rw [blank, zeroed fsSize (Nat.le_refl _)]
  rfl

def empty : Image := ⟨fsSize, Function.update (fun _ => Block.zero) 1 superBlock, 1, UInt32.ofNat nmeta⟩

theorem empty_marked {b : UInt32} (other : b ≠ superblock.bmapstart) :
    empty.marked b = if b = 1 then superBlock else Block.zero := by
  rw [marked, Function.update_of_ne other]
  exact Function.update_apply (fun _ => Block.zero) 1 superBlock b

theorem built_empty : Built empty (fun _ _ => 0) fun _ => none where
  sectors := rfl
  low := Nat.le_refl 59
  high := by decide
  head b before := by
    have notBitmap : b ≠ superblock.bmapstart := by
      rintro rfl
      exact absurd before (by decide)
    exact empty_marked notBitmap
  fresh b free _ := by
    change 59 ≤ b.toNat at free
    have notBitmap : b ≠ superblock.bmapstart := by
      rintro rfl
      exact absurd free (by decide)
    have notSuper : b ≠ 1 := by
      rintro rfl
      exact absurd free (by decide)
    rw [empty_marked notBitmap, if_neg notSuper]
  sound := by
    have none : ∀ s : UInt32 × Slot, refAt empty.marked (fun _ => 0) s.2 = 0 := by
      rintro ⟨_, k⟩
      cases k with
      | direct k => rfl
      | indirect => rfl
      | entry j => exact refAt_entry_none rfl j
    refine ⟨⟨fun s _ filled => absurd (none s) filled, fun s filled => absurd (none s) filled⟩, ?_,
      sound_usedDisk.apart⟩
    intro b isMeta covered
    have used := meta_used isMeta
    have index : (bitIndex b).val = b.toNat := Nat.mod_eq_of_lt (covered_small.mp covered)
    rw [InUse, bblock_small (covered_small.mp covered), marked, Function.update_self, bit_firstBits (by decide),
      decide_eq_true_eq, index]
    exact used
  holds _ _ none := nomatch none
  free g _ := by
    refine ⟨rfl, fun inside => ?_⟩
    have notSuper : iblock g superblock ≠ 1 := by
      intro same
      have same := congrArg UInt32.toNat same
      rw [toNat_iblock inside] at same
      change 32 + _ = 1 at same
      omega
    rw [diskInode, empty_marked (iblock_bitmap inside), if_neg notSuper]
    rfl

theorem filesOf_nil : filesOf [] = Function.update (fun _ => none) ROOTINO (some (rootFile [])) := by
  funext g
  by_cases isRoot : g = ROOTINO
  · rw [isRoot, Function.update_self, filesOf_root]
  · rw [Function.update_of_ne isRoot, filesOf, if_neg isRoot]
    simp

theorem root_made : ∃ img₁ img₂ img₃ nodes, (blank superBlock).ialloc T_DIR = some (ROOTINO, img₁) ∧
    img₁.iappend ROOTINO (dotEntry ROOTINO dot).byte (.ofNat direntSize) = some img₂ ∧
    img₂.iappend ROOTINO (dotEntry ROOTINO dotdot).byte (.ofNat direntSize) = some img₃ ∧ Made [] img₃ nodes := by
  obtain ⟨img₁, allocates, built₁, next₁, same₁⟩ := built_empty.ialloc_run T_DIR (by decide)
  have first : img₁.freeblock.toNat = 59 := by
    rw [same₁]
    rfl
  obtain ⟨root₁, isRoot₁⟩ : ∃ root : File, root = ⟨T_DIR, []⟩ := ⟨_, rfl⟩
  obtain ⟨root₂, isRoot₂⟩ : ∃ root, root = root₁.append (entryBytes (dotEntry ROOTINO dot)) := ⟨_, rfl⟩
  have end₁ : root₁.data.length = 0 := by rw [isRoot₁]; rfl
  have end₂ : root₂.data.length = 16 := by
    rw [isRoot₂, isRoot₁]
    exact length_entryBytes _
  have last : root₂.append (entryBytes (dotEntry ROOTINO dotdot)) = rootFile [] := by
    rw [isRoot₂, isRoot₁]
    rfl
  rw [← isRoot₁] at built₁
  change Built _ _ (Function.update _ ROOTINO (some root₁)) at built₁
  obtain ⟨img₂, nodes₂, appends₂, extended₂⟩ := built₁.iappend_run (Function.update_self ..)
    (dotEntry ROOTINO dot).byte (.ofNat direntSize) (by rw [end₁, Fits, first]; decide)
  have built₂ := extended₂.toBuilt
  have count₂ := extended₂.freeblock
  change Built _ _ (Function.update _ ROOTINO (some (root₁.append (entryBytes (dotEntry ROOTINO dot))))) at built₂
  change _ = _ + held (dataBlocks (root₁.append (entryBytes (dotEntry ROOTINO dot))).data.length) at count₂
  rw [← isRoot₂, Function.update_idem] at built₂
  rw [← isRoot₂, first, end₂, File.blocks, end₁] at count₂
  change _ + 0 = 59 + 1 at count₂
  obtain ⟨img₃, nodes₃, appends₃, extended₃⟩ := built₂.iappend_run (Function.update_self ..)
    (dotEntry ROOTINO dotdot).byte (.ofNat direntSize)
    (by rw [end₂, Fits, ← Nat.add_zero img₂.freeblock.toNat, count₂]; decide)
  have built₃ := extended₃.toBuilt
  have count₃ := extended₃.freeblock
  change Built _ _ (Function.update _ ROOTINO (some (root₂.append (entryBytes (dotEntry ROOTINO dotdot))))) at built₃
  change _ = _ + (root₂.append (entryBytes (dotEntry ROOTINO dotdot))).blocks at count₃
  rw [last, Function.update_idem] at built₃
  rw [last, File.blocks, end₂, File.blocks, length_rootFile] at count₃
  change _ + 1 = _ + 1 at count₃
  rw [blank_run]
  refine ⟨img₁, img₂, img₃, nodes₃, allocates, appends₂, appends₃, ?_, ?_, ?_⟩
  · rw [filesOf_nil]
    exact built₃
  · rw [extended₃.freeinode, extended₂.freeinode, next₁]
    rfl
  · have least : nmeta + space [] = 60 := by decide +kernel
    omega

/-! ## main -/

def rootNode (img : Image) : Dinode :=
  { diskInode superblock img.marked ROOTINO with size := rootSize (diskInode superblock img.marked ROOTINO).size }

/-- The image that is written at the end. -/
structure Written (inputs : List Input) (img : Image) (nodes : Nodes) (out : Image) : Prop extends
    Made inputs img nodes where
  length : out.sectors = fsSize
  view : out.view = putInode superblock img.marked ROOTINO (rootNode img)

theorem balloc_run (counted : Counted img) : ∃ out, img.balloc (Word.toInt img.freeblock) = some out ∧
    out.sectors = fsSize ∧ out.view = img.marked := by
  have high := counted.high
  change _ ≤ 1000 at high
  have number : Word.toInt img.freeblock = img.freeblock.toNat := if_pos (by omega)
  have small : (img.freeblock.toNat : Int) < bpb := by
    change _ < (4096 : Int)
    omega
  refine ⟨img.wsect superblock.bmapstart (firstBits img.freeblock.toNat), ?_, ?_, ?_⟩
  · rw [Image.balloc, number, if_pos small, Int.toNat_natCast]
  · have inside : (seek superblock.bmapstart).toNat + 1 ≤ fsSize := by decide
    rw [wsect, counted.sectors]
    exact Nat.max_eq_left inside
  · rw [wsect, seek_small (by decide)]
    rfl

/-- `main` writes the image if there is room for all files, and fails otherwise. -/
theorem main_cases (inputs : List Input) (few : inputs.length ≤ 198) :
    (Room inputs ∧ ∃ out img nodes, main inputs = some out ∧ Written inputs img nodes out) ∨
    (¬ Room inputs ∧ main inputs = none) := by
  obtain ⟨img₁, img₂, img₃, nodes₃, allocates, appends₂, appends₃, made₃⟩ := root_made
  unfold main
  rw [allocates]
  dsimp only [Option.bind_eq_bind, Option.bind_some]
  rw [if_pos rfl]
  change _ ∧ (∃ out img nodes, (img₁.iappend ROOTINO (dotEntry ROOTINO dot).byte _ >>= _) = _ ∧ _) ∨
    _ ∧ (img₁.iappend ROOTINO (dotEntry ROOTINO dot).byte _ >>= _) = _
  rw [appends₂]
  dsimp only [Option.bind_eq_bind, Option.bind_some]
  change _ ∧ (∃ out img nodes, (img₂.iappend ROOTINO (dotEntry ROOTINO dotdot).byte _ >>= _) = _ ∧ _) ∨
    _ ∧ (img₂.iappend ROOTINO (dotEntry ROOTINO dotdot).byte _ >>= _) = _
  rw [appends₃]
  dsimp only [Option.bind_eq_bind, Option.bind_some]
  rcases made₃.all_cases inputs few with ⟨room, img, nodes, adds, made⟩ | ⟨full, fails⟩
  · rw [List.nil_append] at room made
    have inside := (made.holds _ _ (filesOf_root inputs)).inside
    obtain ⟨img', writes, put⟩ := winode_run made.toCounted inside (rootNode img)
    obtain ⟨out, ends, length, view⟩ := balloc_run put.toCounted
    refine .inl ⟨room, out, img, nodes, ?_, made, length, view.trans put.marked⟩
    rw [adds]
    dsimp only [Option.bind_some]
    rw [rinode_run made.toCounted inside]
    dsimp only [Option.bind_some]
    change (img.winode ROOTINO (rootNode img)).bind _ = _
    rw [writes]
    exact ends
  · rw [List.nil_append] at full
    rw [fails]
    exact .inr ⟨full, rfl⟩

end Xv6.Mkfs
