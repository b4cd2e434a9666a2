import Xv6.Mkfs.Append

/-! The files of an image, and what `main` of `mkfs` makes of its arguments.

Inode by inode the image holds the files that were put into it so far. The calls of `main` are
followed one by one, with the blocks that each of them takes.
-/

set_option autoImplicit false

namespace Xv6.Mkfs

open Library Fs Image

structure File where
  type : UInt16
  data : List UInt8

-- `iappend`
def File.append (file : File) (data : List UInt8) : File := { file with data := file.data ++ data }

def File.blocks (file : File) : Nat := held (dataBlocks file.data.length)

/-- Inode `g` is the given file. -/
structure Holds (img : Image) (nodes : Nodes) (g : UInt32) (file : File) : Prop where
  inside : InTable superblock g
  before : g.toNat < img.freeinode.toNat
  inode : diskInode superblock img.marked g = ⟨file.type, 0, 0, 1, UInt32.ofNat file.data.length, nodes g⟩
  stores : Stores img.marked (nodes g) (within (dataBlocks file.data.length)) file.data
  small : file.data.length ≤ maxFile * bsize

structure Built (img : Image) (nodes : Nodes) (files : UInt32 → Option File) : Prop extends Sane img nodes where
  holds : ∀ g file, files g = some file → Holds img nodes g file
  free : ∀ g, files g = none → (nodes g = fun _ => 0) ∧
    (InTable superblock g → (diskInode superblock img.marked g).type = 0)

variable {img img' : Image} {nodes nodes' : Nodes} {f g : UInt32} {file : File} {files : UInt32 → Option File}

/-! ## Inodes -/

theorem inTable_lt {g : UInt32} : InTable superblock g ↔ g.toNat < 200 := by
  have bound : (superblock.ninodes.toNat + (ipb - 1)) / ipb * ipb = 200 := by decide
  rw [InTable, bound]

theorem toNat_iblock (inside : InTable superblock f) : (iblock f superblock).toNat = 32 + f.toNat / 8 := by
  rw [inTable_lt] at inside
  rw [iblock, UInt32.toNat_add, UInt32.toNat_div]
  change (f.toNat / 8 + 32) % 2 ^ 32 = _
  omega

theorem iblock_bitmap (inside : InTable superblock f) : iblock f superblock ≠ superblock.bmapstart := by
  intro same
  have same := congrArg UInt32.toNat same
  rw [toNat_iblock inside, toNat_bmapstart] at same
  rw [inTable_lt] at inside
  omega

theorem rinode_run (counted : Counted img) (inside : InTable superblock f) :
    img.rinode f = some (diskInode superblock img.marked f) := by
  have block := toNat_iblock inside
  have below := inTable_lt.mp inside
  have onDisk : (iblock f superblock).toNat < fsSize := by
    rw [block]
    change _ < 1000
    omega
  rw [Image.rinode, counted.rsect onDisk (iblock_bitmap inside)]
  rfl

structure Put (f : UInt32) (din : Dinode) (img img' : Image) : Prop extends Counted img' where
  marked : img'.marked = putInode superblock img.marked f din
  freeinode : img'.freeinode = img.freeinode
  freeblock : img'.freeblock = img.freeblock

theorem winode_run (counted : Counted img) (inside : InTable superblock f) (din : Dinode) :
    ∃ img', img.winode f din = some img' ∧ Put f din img img' := by
  have block := toNat_iblock inside
  have below := inTable_lt.mp inside
  have low := counted.low
  change 59 ≤ _ at low
  have other := iblock_bitmap inside
  have used : (iblock f superblock).toNat < img.freeblock.toNat := by omega
  have onDisk := used.trans_le counted.high
  have behind : 2 + nlog ≤ (iblock f superblock).toNat := by
    rw [block]
    exact Nat.le_add_right ..
  refine ⟨_, ?_, counted.wsect behind used other _, wsect_marked (onDisk.trans fsSize_small) other _, rfl, rfl⟩
  rw [Image.winode, counted.rsect onDisk other]
  rfl

theorem Holds.other (holds : Holds img nodes g file)
    (confined : Confined superblock f img.marked nodes img'.marked nodes')
    (apart : g ≠ f) (later : img.freeinode.toNat ≤ img'.freeinode.toNat) : Holds img' nodes' g file := by
  refine ⟨holds.inside, holds.before.trans_le later, ?_, ⟨fun k => ?_, fun k mapped => ?_⟩, holds.small⟩
  · rw [confined.table g holds.inside apart, confined.same g apart]
    exact holds.inode
  · rw [confined.others g k apart]
    exact holds.stores.filled k
  · rw [confined.blockAt_other apart] at mapped
    rw [confined.byteAt_other apart mapped]
    exact holds.stores.bytes k mapped

theorem Built.change (built : Built img nodes files) (sane : Sane img' nodes')
    (confined : Confined superblock f img.marked nodes img'.marked nodes')
    (later : img.freeinode.toNat ≤ img'.freeinode.toNat) (here : Holds img' nodes' f file) :
    Built img' nodes' (Function.update files f (some file)) := by
  refine ⟨sane, fun g other found => ?_, fun g none => ?_⟩
  · by_cases same : g = f
    · subst same
      rw [Function.update_self] at found
      cases found
      exact here
    · rw [Function.update_of_ne same] at found
      exact (built.holds g other found).other confined same later
  · have apart : g ≠ f := by
      rintro rfl
      rw [Function.update_self] at none
      cases none
    rw [Function.update_of_ne apart] at none
    obtain ⟨nothing, unused⟩ := built.free g none
    refine ⟨(confined.same g apart).trans nothing, fun inside => ?_⟩
    rw [confined.table g inside apart]
    exact unused inside

/-! ## iappend -/

theorem Stores.put {view : UInt32 → Block} {slots : Slot → Prop} {data : List UInt8}
    (stores : Stores view (nodes g) slots data) (sound : Sound superblock view nodes) (inside : InTable superblock f)
    (din : Dinode) : Stores (putInode superblock view f din) (nodes g) slots data := by
  refine ⟨fun k => ?_, fun k mapped => ?_⟩
  · rw [refAt_putInode sound inside]
    exact stores.filled k
  · rw [blockAt_putInode sound inside] at mapped
    rw [byteAt_putInode sound inside din mapped]
    exact stores.bytes k mapped

-- What `iappend` of `data` to inode `f` has done.
structure Extended (f : UInt32) (file : File) (data : List UInt8) (img : Image) (files : UInt32 → Option File)
    (img' : Image) (nodes' : Nodes) : Prop
    extends Built img' nodes' (Function.update files f (some (file.append data))) where
  freeinode : img'.freeinode = img.freeinode
  freeblock : img'.freeblock.toNat + file.blocks = img.freeblock.toNat + (file.append data).blocks

section
variable (built : Built img nodes files) (here : files f = some file) (p : Nat → UInt8) (n : UInt32)
include built here

theorem Built.writing : Writing f img (diskInode superblock img.marked f) nodes (within (dataBlocks file.data.length))
    file.data ∧ (diskInode superblock img.marked f).size.toNat = file.data.length := by
  have holds := built.holds f file here
  have size : (UInt32.ofNat file.data.length).toNat = file.data.length := by
    apply UInt32.toNat_ofNat_of_lt'
    exact holds.small.trans_lt (by decide)
  rw [holds.inode]
  exact ⟨⟨built.toSane, rfl, holds.stores⟩, size⟩

theorem Built.iappend_run (fits : Fits img file.data.length (file.data.length + n.toNat)) :
    ∃ img' nodes', img.iappend f p n = some img' ∧ Extended f file (taken p 0 n.toNat) img files img' nodes' := by
  have holds := built.holds f file here
  obtain ⟨writing, size⟩ := built.writing here
  have wraps : (0 : UInt32).toNat + n.toNat < 2 ^ 32 := by
    have bound := n.toNat_lt
    change 0 + _ < _
    omega
  obtain ⟨off, din, img₁, nodes₁, loops, ends, writing₁, step, fields⟩ :=
    writing.appendLoop_run p n.toNat size (Nat.le_refl _) wraps fits
  obtain ⟨img₂, writes, put⟩ := winode_run writing₁.toCounted holds.inside { din with size := off }
  have length : (file.data ++ taken p (0 : UInt32).toNat n.toNat).length = file.data.length + n.toNat :=
    length_append_taken _ p _ _
  have confined : Confined superblock f img.marked nodes img₂.marked nodes₁ := by
    rw [put.marked]
    exact step.toConfined.trans (Confined.putInode writing₁.sound holds.inside _)
  have later : img₂.freeinode = img.freeinode := put.freeinode.trans step.freeinode
  refine ⟨img₂, nodes₁, ?_, built.change ⟨put.toCounted, confined.sound⟩ confined ?_ ?_, later, ?_⟩
  · rw [Image.iappend, rinode_run built.toCounted holds.inside]
    dsimp only [Option.bind_eq_bind, Option.bind_some]
    rw [loops]
    exact writes
  · exact Nat.le_of_eq (congrArg UInt32.toNat later.symm)
  · refine ⟨holds.inside, later ▸ holds.before, ?_, ?_, ?_⟩
    · rw [put.marked, diskInode_putInode_self, fields, holds.inode, writing₁.node]
      have size' : off = UInt32.ofNat (file.data ++ taken p (0 : UInt32).toNat n.toNat).length := by
        rw [length, ← ends, UInt32.ofNat_toNat]
      rw [size']
      rfl
    · have stores : Stores img₁.marked (nodes₁ f) _ _ := writing₁.node ▸ writing₁.stores
      rw [put.marked]
      change Stores _ _ (within (dataBlocks (file.data ++ taken p (0 : UInt32).toNat n.toNat).length)) _
      rw [length]
      exact stores.put writing₁.sound holds.inside _
    · change (file.data ++ taken p (0 : UInt32).toNat n.toNat).length ≤ _
      rw [length]
      exact fits.1
  · have grows := held_mono (dataBlocks_mono (Nat.le_add_right file.data.length n.toNat))
    have count := step.freeblock
    change _ + held (dataBlocks _) = _ + held (dataBlocks (file.data ++ taken p (0 : UInt32).toNat n.toNat).length)
    rw [put.freeblock, length]
    omega

theorem Built.iappend_none (refused : ¬ Fits img file.data.length (file.data.length + n.toNat)) :
    img.iappend f p n = none := by
  have holds := built.holds f file here
  obtain ⟨writing, size⟩ := built.writing here
  have wraps : (0 : UInt32).toNat + n.toNat < 2 ^ 32 := by
    have bound := n.toNat_lt
    change 0 + _ < _
    omega
  have loops := writing.appendLoop_none p n.toNat size (Nat.le_refl _) wraps holds.small refused
  rw [Image.iappend, rinode_run built.toCounted holds.inside]
  dsimp only [Option.bind_eq_bind, Option.bind_some]
  rw [loops]
  rfl

end

/-! ## ialloc and the loop over a file -/

theorem not_within_zero (k : Slot) : ¬ within 0 k := by
  cases k <;> simp [within]

theorem Built.next_free (built : Built img nodes files) : files img.freeinode = none := by
  cases found : files img.freeinode with
  | none => rfl
  | some file => exact absurd (built.holds _ file found).before (Nat.lt_irrefl _)

theorem Built.ialloc_run (built : Built img nodes files) (type : UInt16) (more : img.freeinode.toNat < ninodes) :
    ∃ img', img.ialloc type = some (img.freeinode, img') ∧
      Built img' nodes (Function.update files img.freeinode (some ⟨type, []⟩)) ∧
      img'.freeinode.toNat = img.freeinode.toNat + 1 ∧ img'.freeblock = img.freeblock := by
  have inside : InTable superblock img.freeinode := inTable_lt.mpr more
  have none := built.next_free
  have nothing := (built.free _ none).1
  have counted : Counted { img with freeinode := img.freeinode + 1 } :=
    ⟨built.sectors, built.low, built.high, built.head, built.fresh⟩
  obtain ⟨img', writes, put⟩ := winode_run counted inside ⟨type, 0, 0, 1, 0, fun _ => 0⟩
  have next : img'.freeinode.toNat = img.freeinode.toNat + 1 := by
    change img.freeinode.toNat < 200 at more
    rw [put.freeinode, UInt32.toNat_add]
    change (img.freeinode.toNat + 1) % 2 ^ 32 = _
    omega
  have marked : img'.marked = putInode superblock img.marked img.freeinode ⟨type, 0, 0, 1, 0, fun _ => 0⟩ := put.marked
  have confined : Confined superblock img.freeinode img.marked nodes img'.marked nodes := by
    rw [marked]
    exact Confined.putInode built.sound inside _
  have empty : ∀ view k, refAt view (nodes img.freeinode) k = 0 := by
    intro view k
    rw [nothing]
    cases k with
    | direct k => rfl
    | indirect => rfl
    | entry j => exact refAt_entry_none rfl j
  refine ⟨img', ?_, built.change ⟨put.toCounted, confined.sound⟩ confined (next ▸ Nat.le_succ _) ?_, next,
    put.freeblock⟩
  · rw [Image.ialloc]
    exact congrArg (Option.bind · _) writes
  · refine ⟨inside, next ▸ Nat.lt_succ_self _, ?_, ⟨fun k => ?_, fun k mapped => ?_⟩, Nat.zero_le _⟩
    · rw [marked, diskInode_putInode_self, nothing]
      rfl
    · have none : dataBlocks (List.length ([] : List UInt8)) = 0 := by decide
      rw [empty, none]
      exact iff_of_false (not_not.mpr rfl) (not_within_zero k)
    · obtain ⟨l, _, value, _⟩ := slotOf_some mapped
      rw [value, empty] at mapped
      exact absurd rfl mapped

theorem File.append_nil (file : File) : file.append [] = file := by
  rw [File.append, List.append_nil]

theorem File.append_append (file : File) (data data' : List UInt8) :
    (file.append data).append data' = file.append (data ++ data') := by
  rw [File.append, File.append, File.append, List.append_assoc]

theorem Extended.refl (built : Built img nodes files) (here : files f = some file) :
    Extended f file [] img files img nodes := by
  have same : Function.update files f (some (file.append [])) = files := by
    rw [File.append_nil, ← here, Function.update_eq_self]
  exact ⟨same.symm ▸ built, rfl, by rw [File.append_nil]⟩

theorem Extended.trans {data data' : List UInt8} {img'' : Image} {nodes'' : Nodes}
    (first : Extended f file data img files img' nodes')
    (second : Extended f (file.append data) data' img' (Function.update files f (some (file.append data))) img'' nodes'') :
    Extended f file (data ++ data') img files img'' nodes'' := by
  have built := second.toBuilt
  have count := second.freeblock
  rw [Function.update_idem, File.append_append] at built
  rw [File.append_append] at count
  refine ⟨built, second.freeinode.trans first.freeinode, ?_⟩
  have before := first.freeblock
  omega

theorem Extended.fits {data : List UInt8} (extended : Extended f file data img files img' nodes') {size : Nat} :
    Fits img' (file.append data).data.length size ↔ Fits img file.data.length size := by
  have count := extended.freeblock
  unfold Fits
  unfold File.blocks at count
  omega

theorem Fits.le {size m size' : Nat} (fits : Fits img size size') (less : m ≤ size') : Fits img size m :=
  ⟨less.trans fits.1, (Nat.add_le_add_left (held_mono (dataBlocks_mono less)) _).trans fits.2⟩

theorem taken_bytes (chunk : List UInt8) : taken (bytes chunk) 0 chunk.length = chunk := by
  apply List.ext_getElem
  · exact length_taken ..
  · intro i low high
    simp only [taken, bytes, List.getElem_map, List.getElem_range, Nat.zero_add, List.getD_eq_getElem?_getD,
      List.getElem?_eq_getElem high, Option.getD_some]

section
variable {chunk : List UInt8} (small : chunk.length ≤ bsize)
include small

theorem toNat_chunk : (UInt32.ofNat chunk.length).toNat = chunk.length :=
  UInt32.toNat_ofNat_of_lt' (small.trans_lt (by decide))

theorem taken_chunk : taken (bytes chunk) 0 (UInt32.ofNat chunk.length).toNat = chunk := by
  rw [toNat_chunk small, taken_bytes]

end

theorem Built.copyFile_run (built : Built img nodes files) (here : files f = some file) (chunks : List (List UInt8))
    (small : ∀ chunk ∈ chunks, chunk.length ≤ bsize)
    (fits : Fits img file.data.length (file.data.length + chunks.flatten.length)) :
    ∃ img' nodes', copyFile f chunks img = some img' ∧ Extended f file chunks.flatten img files img' nodes' := by
  induction chunks generalizing img nodes files file with
  | nil => exact ⟨img, nodes, rfl, Extended.refl built here⟩
  | cons chunk chunks ih =>
    obtain ⟨first, later⟩ := List.forall_mem_cons.mp small
    rw [List.flatten_cons, List.length_append, ← Nat.add_assoc] at fits
    obtain ⟨img₁, nodes₁, appends, extended⟩ := built.iappend_run here (bytes chunk) (.ofNat chunk.length)
      (by rw [toNat_chunk first]; exact fits.le (Nat.le_add_right ..))
    rw [taken_chunk first] at extended
    have length : (file.append chunk).data.length = file.data.length + chunk.length := List.length_append
    have fits₁ := extended.fits.mpr fits
    obtain ⟨img', nodes', copies, rest⟩ := ih extended.toBuilt (Function.update_self ..) later (length ▸ fits₁)
    refine ⟨img', nodes', ?_, extended.trans rest⟩
    rw [copyFile, appends]
    exact copies

theorem Built.copyFile_none (built : Built img nodes files) (here : files f = some file) (chunks : List (List UInt8))
    (small : ∀ chunk ∈ chunks, chunk.length ≤ bsize)
    (refused : ¬ Fits img file.data.length (file.data.length + chunks.flatten.length)) :
    copyFile f chunks img = none := by
  induction chunks generalizing img nodes files file with
  | nil => exact absurd (Fits.refl built.toCounted (built.holds f file here).small) refused
  | cons chunk chunks ih =>
    obtain ⟨first, later⟩ := List.forall_mem_cons.mp small
    rw [List.flatten_cons, List.length_append, ← Nat.add_assoc] at refused
    rw [copyFile]
    by_cases fits : Fits img file.data.length (file.data.length + (UInt32.ofNat chunk.length).toNat)
    · obtain ⟨img₁, nodes₁, appends, extended⟩ := built.iappend_run here (bytes chunk) _ fits
      rw [taken_chunk first] at extended
      have length : (file.append chunk).data.length = file.data.length + chunk.length := List.length_append
      have refused₁ := mt extended.fits.mp refused
      rw [appends]
      exact ih extended.toBuilt (Function.update_self ..) later (length ▸ refused₁)
    · rw [built.iappend_none here (bytes chunk) _ fits]
      rfl

end Xv6.Mkfs
