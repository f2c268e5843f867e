import Buenos.Fs.TfsRun

/-! `tfs_create` uses exactly the resources it needs: when it succeeds, what the new file
holds, and that `tfs_remove` gives everything back. -/
namespace Buenos.Fs.Tfs

open Buenos.Foundation Buenos.Lib

def countAllocated (bat : Bytes) : Nat → Nat → Int → Int
  | 0, _, allocated => allocated
  | left + 1, i, allocated => countAllocated bat left (i + 1) (allocated + bitmapGet bat i)

def tfsGetfree (g : Gbd) (m : Machine) : Int × Machine :=
  readBlock g tfsAllocationBlock .bat m fun m =>
    (toS32 (toU32 ((totalblocks g - countAllocated (m.memory .bat) (totalblocks g) 0 0) * tfsBlockSize)), m)

theorem countAllocated_congr (same : ∀ b, bit bat b = bit bat' b) (left i : Nat) (allocated : Int) :
    countAllocated bat left i allocated = countAllocated bat' left i allocated := by
  induction left generalizing i allocated with
  | zero => rfl
  | succ left ih => rw [countAllocated,countAllocated,ih,bitmapGet_eq,bitmapGet_eq,same]

theorem tfsGetfree_congr (reliable : Reliable g) (room : 3 ≤ g.blocks)
    (same : ∀ b, bit (m.disk tfsAllocationBlock) b = bit (m'.disk tfsAllocationBlock) b) :
    (tfsGetfree g m).1 = (tfsGetfree g m').1 := by
  have bat : tfsAllocationBlock < g.blocks := by unfold tfsAllocationBlock; omega
  rw [tfsGetfree,tfsGetfree,readBlock_ok reliable bat,readBlock_ok reliable bat]
  simp only [afterRead_self]
  rw [countAllocated_congr same]

/-! ### When there is room -/

/-- The number of blocks of a file is its size in blocks, rounded up, and a size whose
rounding overflows is refused like the other large ones. -/
theorem numblocksOf_fits (nonneg : 0 ≤ size) (int : size < 2 ^ 31) :
    numblocksOf size ≤ tfsBlocksMax ↔ (size + 511) / 512 ≤ tfsBlocksMax := by
  constructor
  · intro fits
    have same := numblocksOf_eq nonneg int fits
    omega
  · intro fits
    unfold tfsBlocksMax at fits
    obtain ⟨n,rfl⟩ := Int.eq_ofNat_of_zero_le nonneg
    have sum : toU32 ((n : Int) + (tfsBlockSize : Nat) - 1) = n + 511 := by
      rw [toU32_small (by unfold tfsBlockSize; omega) (by unfold tfsBlockSize; omega)]
      unfold tfsBlockSize
      omega
    have quotient : ((n + 511 : Nat) : Int).tdiv (tfsBlockSize : Nat) = ((n + 511) / 512 : Nat) := rfl
    rw [numblocksOf,sum,toS32_small (by omega),quotient,toU32_small (by omega) (by omega)]
    unfold tfsBlocksMax
    omega

/-- A new name, a free entry, and enough blocks for the inode and the data. -/
structure Room (g : Gbd) (d : Disk) (filename : Name) (size : Int) : Prop where
  fresh : ∀ k < tfsMaxFiles, entryName (d tfsDirectoryBlock) k ≠ filename
  entry : ∃ k < tfsMaxFiles, entryInode (d tfsDirectoryBlock) k = 0
  blocks : (size + 511) / 512 ≤ tfsBlocksMax
  space : (size + 511) / 512 + 1 ≤ (freeIn (totalblocks g) (d tfsAllocationBlock)).card

theorem room_iff (nonneg : 0 ≤ size) (int : size < 2 ^ 31) : Room g d filename size ↔ Fits g d filename size := by
  constructor
  · rintro ⟨fresh,entry,blocks,space⟩
    have fits := (numblocksOf_fits nonneg int).mpr blocks
    have count := numblocksOf_eq nonneg int fits
    exact ⟨fits,fresh,entry,by omega⟩
  · rintro ⟨fits,fresh,entry,space⟩
    have count := numblocksOf_eq nonneg int fits
    exact ⟨fresh,entry,(numblocksOf_fits nonneg int).mp fits,by omega⟩

/-! ### What the files hold -/

theorem Added.named (added : Added g filename d d' index inode bs) (formed : WellFormed g d) :
    Named d' filename inode := by
  have high := added.high formed List.mem_cons_self
  exact ⟨index,added.slot,added.name,by rw [added.entry]; omega,by rw [added.entry]⟩

theorem Added.content_other (added : Added g filename d d' index inode bs) (formed : WellFormed g d)
    (file : IsFile d f) : IsFile d' f ∧ content d' f = content d f := by
  obtain ⟨used,k,slot,rfl⟩ := file
  have other : k ≠ index := by
    rintro rfl
    exact used added.vacant
  have blocks := fileBlocks_used slot used
  have self : d' (entryInode (d tfsDirectoryBlock) k) = d (entryInode (d tfsDirectoryBlock) k) := by
    refine added.kept formed (k := k) ?_
    rw [blocks]
    exact List.mem_cons_self
  refine ⟨⟨used,k,slot,(added.entries k other).1⟩,?_⟩
  have data : ((dataBlocks (d (entryInode (d tfsDirectoryBlock) k))).flatMap fun b => bytesAt (d' b) 0 tfsBlockSize) =
      (dataBlocks (d (entryInode (d tfsDirectoryBlock) k))).flatMap fun b => bytesAt (d b) 0 tfsBlockSize := by
    refine List.flatMap_congr fun b member => ?_
    rw [added.kept formed (k := k) (by rw [blocks]; exact List.mem_cons_of_mem _ member)]
  rw [content,self,data,content]

theorem Created.content_new (created : Created g filename size d d' index inode bs) (formed : WellFormed g d)
    (nonneg : 0 ≤ size) (int : size < 2 ^ 31) (zeroed : ∀ b ∈ bs, ∀ j < tfsBlockSize, d' b j = 0) :
    content d' inode = List.replicate size.toNat 0 := by
  have count := numblocksOf_eq nonneg int created.fits
  have blocks := created.added.dataBlocks_new formed
  have length : Tfs.filesize (d' inode) = size.toNat := by rw [created.filesize,toU32_small nonneg (by omega)]
  have enough : (Tfs.filesize (d' inode) + 511) / tfsBlockSize ≤ (dataBlocks (d' inode)).length := by
    rw [length,blocks,created.count]
    unfold tfsBlockSize
    omega
  rw [content_eq enough,length]
  refine List.eq_replicate_iff.mpr ⟨by simp,?_⟩
  intro byte member
  obtain ⟨i,small,rfl⟩ := List.mem_map.mp member
  have small := List.mem_range.mp small
  have inside : i / tfsBlockSize < bs.length := by
    rw [created.count]
    unfold tfsBlockSize
    omega
  rw [fileByte,created.blocks _ inside]
  exact zeroed _ (List.getElem_mem inside) _ (Nat.mod_lt _ (by decide))

theorem findEntry_named (formed : WellFormed g d) (clean : 0 ∉ filename) (nonempty : filename ≠ [])
    (slot : k < tfsMaxFiles) (name : entryName (d tfsDirectoryBlock) k = filename) :
    findEntry (d tfsDirectoryBlock) filename = some k := by
  cases found : findEntry (d tfsDirectoryBlock) filename with
  | none => exact absurd name (findEntry_none formed clean found k slot)
  | some l =>
    obtain ⟨inside,same⟩ := findEntry_some formed clean found
    have one := formed.used inside (same ▸ nonempty)
    have two := formed.used slot (name ▸ nonempty)
    rw [formed.distinct l k inside slot one two (same.trans name.symm)]

theorem Named.tfsOpen (named : Named m.disk filename fileid) (reliable : Reliable g) (formed : WellFormed g m.disk)
    (good : IsFilename filename) : (tfsOpen g filename m).1 = fileid := by
  obtain ⟨k,slot,name,used,same⟩ := named
  have room := formed.size
  obtain ⟨_,inside⟩ := formed.inode_inside slot used
  have total := (totalblocks_le g).2
  rw [Tfs.tfsOpen,readBlock_ok reliable (show tfsDirectoryBlock < g.blocks by unfold tfsDirectoryBlock; omega)]
  simp only [afterRead_self]
  rw [findEntry_named formed good.clean good.nonempty slot name,same]
  exact toS32_small (by omega)

/-! ### Creating and removing -/

theorem Named.tfsRemove (named : Named m.disk filename fileid) (reliable : Reliable g) (formed : WellFormed g m.disk)
    (good : IsFilename filename) :
    ∃ k, (tfsRemove g filename m).1 = vfsOk ∧ Removed filename m.disk (tfsRemove g filename m).2.disk k := by
  obtain ⟨k,slot,name,_,_⟩ := named
  obtain ⟨_,⟨i,_,failed⟩ | ⟨_,missing⟩⟩ | ⟨index,z,writes,_,freed⟩ :=
    tfsRemove_cases formed good.clean good.nonempty (m := m)
  · rw [reliable] at failed
    contradiction
  · exact absurd name (missing k slot)
  · have room := formed.size
    rw [writes,writeBlock_ok reliable (show tfsDirectoryBlock < g.blocks by unfold tfsDirectoryBlock; omega)]
    exact ⟨index,rfl,freed.removed⟩

/-- Removing the file just created clears the bits that were set for it. -/
theorem create_remove_bits (created : Created g filename size d d' index inode bs) (formed : WellFormed g d)
    (formed' : WellFormed g d') (good : IsFilename filename) (removed : Removed filename d' d'' k) (b : Nat) :
    bit (d'' tfsAllocationBlock) b = bit (d tfsAllocationBlock) b := by
  have same : k = index := by
    refine formed'.distinct k index removed.slot created.slot removed.used ?_ (removed.named.trans created.name.symm)
    exact formed'.used created.slot (created.name ▸ good.nonempty)
  rw [removed.bits,same,created.added.fileBlocks_new formed,created.allocated.bits]
  by_cases member : b ∈ inode :: bs
  · have free := (created.allocated.free b member).2
    simp only [member,free,decide_true,not_true,decide_false,Bool.and_false]
  · simp only [member,decide_false,Bool.or_false,not_false_eq_true,decide_true,Bool.and_true]

/-- The file `filename` reads as `size` zeros, the files there were before are unchanged, and
removing it restores the allocation block. -/
structure Creates (g : Gbd) (m m' : Machine) (filename : Name) (size : Int) : Prop where
  reads : ∃ fileid : Nat, (tfsOpen g filename m').1 = fileid ∧ content m'.disk fileid = List.replicate size.toNat 0 ∧
    ∀ (z : Machine) (buffer : Nat) (n : Int), z.disk = m'.disk → size ≤ n →
      (tfsRead g fileid buffer n 0 z).1 = size ∧
      bytesAt (tfsRead g fileid buffer n 0 z).2.user buffer size.toNat = List.replicate size.toNat 0
  others : ∀ name fileid, Named m.disk name fileid → Named m'.disk name fileid ∧
    content m'.disk fileid.toNat = content m.disk fileid.toNat
  removable : (tfsRemove g filename m').1 = vfsOk
  restored : ∀ b, bit ((tfsRemove g filename m').2.disk tfsAllocationBlock) b = bit (m.disk tfsAllocationBlock) b
  getfree : (tfsGetfree g (tfsRemove g filename m').2).1 = (tfsGetfree g m).1

section Exact
variable {g : Gbd} {m : Machine} {filename : Name} {size : Int} (reliable : Reliable g) (formed : WellFormed g m.disk)
  (good : IsFilename filename) (nonneg : 0 ≤ size) (int : size < 2 ^ 31)
include reliable formed good nonneg int

theorem Created.reads {m' : Machine} (created : Created g filename size m.disk m'.disk index inode bs)
    (zeroed : ∀ b ∈ bs, ∀ j < tfsBlockSize, m'.disk b j = 0) (formed' : WellFormed g m'.disk) :
    (tfsOpen g filename m').1 = inode ∧ content m'.disk inode = List.replicate size.toNat 0 ∧
    ∀ (z : Machine) (buffer : Nat) (n : Int), z.disk = m'.disk → size ≤ n →
      (tfsRead g inode buffer n 0 z).1 = size ∧
      bytesAt (tfsRead g inode buffer n 0 z).2.user buffer size.toNat = List.replicate size.toNat 0 := by
  have zeros := created.content_new formed nonneg int zeroed
  have named := created.added.named formed
  refine ⟨named.tfsOpen reliable formed' good,zeros,?_⟩
  intro z buffer n same large
  obtain ⟨_,equal,file⟩ := named.isFile
  cases equal
  rw [← same] at formed' file zeros
  have length : (Tfs.filesize (z.disk inode) : Int) = size := by
    rw [same,created.filesize,toU32_small nonneg (by omega)]
    omega
  have read := tfsRead_content reliable formed' file buffer (show 0 ≤ n by omega) (Int.le_refl 0) (by omega)
  have returned : (tfsRead g inode buffer n 0 z).1 = size := by
    rw [read.returned]
    omega
  have stored := read.stored
  rw [returned,zeros] at stored
  refine ⟨returned,stored.trans ?_⟩
  simp

theorem Created.creates {m' : Machine} (created : Created g filename size m.disk m'.disk index inode bs)
    (zeroed : ∀ b ∈ bs, ∀ j < tfsBlockSize, m'.disk b j = 0) : Creates g m m' filename size := by
  have formed' := created.wellFormed formed good nonneg int
  have removal : ∃ k, (tfsRemove g filename m').1 = vfsOk ∧
      Removed filename m'.disk (tfsRemove g filename m').2.disk k := by
    exact (created.added.named formed).tfsRemove reliable formed' good
  obtain ⟨k,ok,removed⟩ := removal
  have restored := create_remove_bits created formed formed' good removed
  refine ⟨⟨inode,created.reads reliable formed good nonneg int zeroed formed'⟩,?_,ok,restored,?_⟩
  · intro name fileid named
    obtain ⟨n,rfl,file⟩ := named.isFile
    exact ⟨named.create created.added,(created.added.content_other formed file).2⟩
  · exact tfsGetfree_congr reliable formed.size restored

end Exact

/-- `tfs_create` succeeds exactly when there is room, and otherwise leaves the disk alone. -/
theorem tfs_create_exact (reliable : Reliable g) (formed : WellFormed g m.disk) (good : IsFilename filename)
    (nonneg : 0 ≤ size) (int : size < 2 ^ 31) :
    ((tfsCreate g filename size m).1 = vfsOk ↔ Room g m.disk filename size) ∧
    (Room g m.disk filename size → Creates g m (tfsCreate g filename size m).2 filename size) ∧
    (¬Room g m.disk filename size →
      (tfsCreate g filename size m).1 = vfsError ∧ (tfsCreate g filename size m).2.disk = m.disk) := by
  rw [room_iff nonneg int]
  obtain ⟨⟨failed,same⟩,unfit⟩ | ⟨index,inode,bs,z,commits,_,_,ready⟩ := tfsCreate_cases formed good size (m := m)
  · have unfit : ¬Fits g m.disk filename size := fun fits => unfit ⟨fits,reliable _,reliable _⟩
    rw [failed]
    exact ⟨⟨fun ok => absurd ok (by decide),fun fits => absurd fits unfit⟩,fun fits => absurd fits unfit,
      fun _ => ⟨rfl,same⟩⟩
  · obtain ⟨ok,created,zeroed⟩ := ready.effect reliable formed commits
    exact ⟨⟨fun _ => ready.room,fun _ => ok⟩,fun _ => created.creates reliable formed good nonneg int zeroed,
      fun unfit => absurd ready.room unfit⟩

/-- A file of two blocks on the new volume of 8 blocks. -/
theorem tfs_create_exact_sample :
    (tfsCreate sampleGbd sampleName 600 sampleMachine).1 = vfsOk ∧
      Creates sampleGbd sampleMachine (tfsCreate sampleGbd sampleName 600 sampleMachine).2 sampleName 600 := by
  have room : Room sampleGbd sampleMachine.disk sampleName 600 :=
    ⟨by decide +kernel,⟨0,by decide,by decide +kernel⟩,by decide,by decide +kernel⟩
  have good : IsFilename sampleName := ⟨by decide,by decide,by decide⟩
  obtain ⟨ok,creates,_⟩ := tfs_create_exact (fun _ => rfl) sampleMachine_wellFormed good
    (show (0 : Int) ≤ 600 by decide) (by decide)
  exact ⟨ok.mpr room,creates room⟩

end Buenos.Fs.Tfs
