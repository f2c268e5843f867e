import Buenos.Fs.Tfstool

/-! `tfstool delete` against the kernel's `tfs_remove`: the two give back the blocks of a file in
different order and leave the same bytes on the disk. -/
namespace Buenos.Fs.Tfstool

open Buenos.Foundation Buenos.Lib Buenos.Fs.Tfs

inductive Deletion where
  | deleted
  | notFound
  deriving DecidableEq

/-- `for (i = 0; i < TFS_BLOCKS_MAX && ntohl(inode->block[i]) != 0; i++)`, from the `i`-th block on. -/
def releaseBlocks (o : ByteOrder) (inode : Bytes) : Nat → Nat → Bytes → Bytes
  | 0, _, bat => bat
  | left + 1, i, bat =>
    if o.ntohl (o.load inode (1 + i)) ≠ 0 then
      releaseBlocks o inode left (i + 1) (bitmapSet o bat (o.ntohl (o.load inode (1 + i))) false)
    else bat

/-- The buffers are zero before they are filled. -/
def tfstoolDelete (o : ByteOrder) (numBlocks : Nat) (filename : Name) (d : Disk) : Deletion × Disk :=
  let md := readBlock d numBlocks tfsDirectoryBlock fun _ => 0
  match (List.range tfsMaxFiles).find? fun k => strncmp md tfsFilenameMax (namePosition k) filename == 0 with
  | none => (.notFound, d)
  | some index =>
    let bat := readBlock d numBlocks tfsAllocationBlock fun _ => 0
    let inodeBn := o.ntohl (o.load md (5 * index))
    let inode := readBlock d numBlocks inodeBn fun _ => 0
    let bat := bitmapSet o (releaseBlocks o inode tfsBlocksMax 0 bat) inodeBn false
    let md := Function.update (o.store md (5 * index) 0) (namePosition index) 0
    (.deleted, Function.update (Function.update d tfsAllocationBlock bat) tfsDirectoryBlock md)

section Blocks
variable (o : ByteOrder) (inode bat : Bytes)

theorem releaseBlocks_eq (left i : Nat) : releaseBlocks o inode left i bat = freeBlocks inode left i bat := by
  induction left generalizing i bat with
  | zero => rfl
  | succ left ih =>
    rw [releaseBlocks,freeBlocks,o.ntohl_load,bitmapSet_eq,ih]
    rfl

/-- The order in which the inode and the data blocks are given back makes no difference. -/
theorem release_order (n : Nat) : bitmapSet o (releaseBlocks o inode tfsBlocksMax 0 bat) n false =
    freeBlocks inode tfsBlocksMax 0 (Lib.bitmapSet bat n false) := by
  apply bits_ext
  intro b
  rw [releaseBlocks_eq,bitmapSet_eq,bit_freed,bit_bitmapSet,bit_freeBlocks,dataBlocks,List.range_eq_range']
  by_cases same : b = n <;> simp [same]

theorem store_zero (i : Nat) : o.store bat i 0 = setWord bat i 0 := by
  have zero : o.htonl 0 = 0 := by cases o <;> rfl
  have stored := o.store_htonl bat i 0
  rwa [zero] at stored

end Blocks

def withoutEntry (d : Disk) (index : Nat) : Disk :=
  let inode := entryInode (d tfsDirectoryBlock) index
  Function.update (Function.update d tfsAllocationBlock
    (freeBlocks (d inode) tfsBlocksMax 0 (Lib.bitmapSet (d tfsAllocationBlock) inode false))) tfsDirectoryBlock
    (Function.update (setEntryInode (d tfsDirectoryBlock) index 0) (namePosition index) 0)

section Deletion
variable {g : Gbd} {filename : Name}

theorem tfsRemove_disk {m : Machine} (reliable : Reliable g) (formed : WellFormed g m.disk) (good : IsFilename filename)
    (found : findEntry (m.disk tfsDirectoryBlock) filename = some index) :
    (tfsRemove g filename m).1 = vfsOk ∧ (tfsRemove g filename m).2.disk = withoutEntry m.disk index := by
  have room := formed.size
  have bat : tfsAllocationBlock < g.blocks := by unfold tfsAllocationBlock; omega
  have dir : tfsDirectoryBlock < g.blocks := by unfold tfsDirectoryBlock; omega
  obtain ⟨slot,named⟩ := findEntry_some formed good.clean found
  obtain ⟨_,inside⟩ := formed.inode_inside slot (formed.used slot (named ▸ good.nonempty))
  have total := (totalblocks_le g).1
  unfold tfsRemove
  rw [readBlock_ok reliable dir]
  simp only [afterRead_self,found]
  rw [readBlock_ok reliable bat,readBlock_ok reliable (by simpa [afterRead_of_ne] using by omega)]
  simp only [afterRead_of_ne (show Buffer.md ≠ .inode by decide),afterRead_of_ne (show Buffer.md ≠ .bat by decide),
    afterRead_of_ne (show Buffer.bat ≠ .inode by decide),afterRead_self,afterRead_disk]
  rw [writeBlock_ok reliable bat,writeBlock_ok reliable dir]
  refine ⟨rfl,?_⟩
  simp [withoutEntry,load_memory_of_ne _ (show Buffer.bat ≠ .md by decide)]

theorem tfstoolDelete_disk {d : Disk} (formed : WellFormed g d) (good : IsFilename filename) (o : ByteOrder) :
    tfstoolDelete o g.blocks filename d = match findEntry (d tfsDirectoryBlock) filename with
      | none => (.notFound, d)
      | some index => (.deleted, withoutEntry d index) := by
  have same : ((List.range tfsMaxFiles).find? fun k =>
      strncmp (d tfsDirectoryBlock) tfsFilenameMax (namePosition k) filename == 0) =
      findEntry (d tfsDirectoryBlock) filename := by
    apply List.find?_congr
    intro k member
    have there := List.mem_range.mp member
    rw [Bool.eq_iff_iff,beq_iff_eq,strncmp_entry formed good.clean there,entryIs_iff good.clean (formed.ended k there)]
  unfold tfstoolDelete
  simp only [readBlock_system formed (show tfsDirectoryBlock < 3 by decide),
    readBlock_system formed (show tfsAllocationBlock < 3 by decide),same]
  cases found : findEntry (d tfsDirectoryBlock) filename with
  | none => rfl
  | some index =>
    obtain ⟨slot,named⟩ := findEntry_some formed good.clean found
    obtain ⟨_,inside⟩ := formed.inode_inside slot (formed.used slot (named ▸ good.nonempty))
    have total := (totalblocks_le g).1
    have number : o.ntohl (o.load (d tfsDirectoryBlock) (5 * index)) = entryInode (d tfsDirectoryBlock) index :=
      o.ntohl_load _ _
    simp only [number,release_order,store_zero]
    rw [readBlock,if_pos (by omega)]
    rfl

/-- The kernel and the tool delete alike, whatever the byte order of the host. -/
theorem tfs_remove_agrees {m : Machine} (reliable : Reliable g) (formed : WellFormed g m.disk)
    (good : IsFilename filename) (o : ByteOrder) :
    ((tfsRemove g filename m).1 = vfsNotFound ∧ (tfsRemove g filename m).2.disk = m.disk ∧
      tfstoolDelete o g.blocks filename m.disk = (.notFound, m.disk)) ∨
    ((tfsRemove g filename m).1 = vfsOk ∧
      tfstoolDelete o g.blocks filename m.disk = (.deleted, (tfsRemove g filename m).2.disk)) := by
  rw [tfstoolDelete_disk formed good o]
  cases found : findEntry (m.disk tfsDirectoryBlock) filename with
  | none =>
    left
    have room := formed.size
    have dir : tfsDirectoryBlock < g.blocks := by unfold tfsDirectoryBlock; omega
    unfold tfsRemove
    rw [readBlock_ok reliable dir]
    simp [found]
  | some index =>
    right
    obtain ⟨ok,disk⟩ := tfsRemove_disk reliable formed good found
    exact ⟨ok,by rw [disk]⟩

end Deletion

/-- A file of 600 bytes, deleted on a little-endian host. -/
theorem tfs_remove_agrees_sample : ∃ m, tfsCreate sampleGbd sampleName 600 sampleMachine = (vfsOk, m) ∧
    tfstoolDelete .little sampleGbd.blocks sampleName m.disk = (.deleted, (tfsRemove sampleGbd sampleName m).2.disk) := by
  have good : IsFilename sampleName := ⟨by decide,by decide,by decide⟩
  have removed : (tfsRemove sampleGbd sampleName (tfsCreate sampleGbd sampleName 600 sampleMachine).2).1 = vfsOk := by
    decide +kernel
  have created : (tfsCreate sampleGbd sampleName 600 sampleMachine).1 = vfsOk := by decide +kernel
  generalize made : tfsCreate sampleGbd sampleName 600 sampleMachine = outcome at removed created ⊢
  obtain ⟨_,m⟩ := outcome
  obtain rfl : _ = vfsOk := created
  obtain ⟨_,formed,-⟩ := kernel_creates (fun _ => rfl) good sampleMachine_wellFormed (by decide) (by decide) made
  refine ⟨m,rfl,?_⟩
  rcases tfs_remove_agrees (fun _ => rfl) formed good .little with ⟨missing,-⟩ | ⟨-,agrees⟩
  · rw [removed] at missing
    exact absurd missing (by decide)
  · exact agrees

end Buenos.Fs.Tfstool
