import Buenos.Fs.TfsVolume

/-! What `tfs_remove` does to the disk when its requests succeed, and that the volume stays
well formed. -/
namespace Buenos.Fs.Tfs

open Buenos.Foundation Buenos.Lib

theorem bit_freeBlocks (inode : Bytes) (left i : Nat) (bat : Bytes) (b : Nat) :
    bit (freeBlocks inode left i bat) b =
      (bit bat b && decide (b ∉ ((List.range' i left).map (blockAt inode)).takeWhile (· ≠ 0))) := by
  induction left generalizing i bat with
  | zero => simp [freeBlocks]
  | succ left ih =>
    rw [freeBlocks,List.range'_succ,List.map_cons]
    split
    · next nonzero =>
      rw [ih,bit_bitmapSet,List.takeWhile_cons_of_pos (by simpa using nonzero)]
      by_cases same : b = blockAt inode i
      · simp [same]
      · simp [same]
    · next zero =>
      rw [List.takeWhile_cons_of_neg (by simpa using zero)]
      simp

theorem bit_freed (inode : Bytes) (bat : Bytes) (n b : Nat) :
    bit (freeBlocks inode tfsBlocksMax 0 (bitmapSet bat n false)) b =
      (bit bat b && decide (b ∉ n :: dataBlocks inode)) := by
  rw [bit_freeBlocks,bit_bitmapSet,dataBlocks,List.range_eq_range']
  by_cases same : b = n
  · simp [same]
  · simp [same]

/-- The file at `index` has lost its entry and its blocks. -/
structure Removed (filename : Name) (d d' : Disk) (index : Nat) : Prop where
  slot : index < tfsMaxFiles
  used : entryInode (d tfsDirectoryBlock) index ≠ 0
  named : entryName (d tfsDirectoryBlock) index = filename
  entry : entryInode (d' tfsDirectoryBlock) index = 0
  name : entryName (d' tfsDirectoryBlock) index = []
  entries : ∀ k, k ≠ index → entryInode (d' tfsDirectoryBlock) k = entryInode (d tfsDirectoryBlock) k ∧
    entryName (d' tfsDirectoryBlock) k = entryName (d tfsDirectoryBlock) k
  bits : ∀ b, bit (d' tfsAllocationBlock) b = (bit (d tfsAllocationBlock) b && decide (b ∉ fileBlocks d index))
  others : ∀ b, b ≠ tfsAllocationBlock → b ≠ tfsDirectoryBlock → d' b = d b

theorem clearEntry (md : Bytes) (i k : Nat) :
    entryInode (Function.update (setEntryInode md i 0) (namePosition i) 0) k = (if k = i then 0 else entryInode md k) ∧
    entryName (Function.update (setEntryInode md i 0) (namePosition i) 0) k = if k = i then [] else entryName md k := by
  rw [entryInode_clearName]
  by_cases same : k = i
  · subst same
    simp [entryName_clearName_self]
  · rw [if_neg same,if_neg same,entryInode_setEntryInode _ same,entryName_clearName same,entryName_setEntryInode]
    exact ⟨rfl,rfl⟩

/-- The blocks are given back on the disk, and the directory is cleared in its buffer. -/
structure Freed (filename : Name) (m z : Machine) (index : Nat) : Prop where
  slot : index < tfsMaxFiles
  used : entryInode (m.disk tfsDirectoryBlock) index ≠ 0
  named : entryName (m.disk tfsDirectoryBlock) index = filename
  log : z.log.length = m.log.length + 4
  bits : ∀ b, bit (z.disk tfsAllocationBlock) b =
    (bit (m.disk tfsAllocationBlock) b && decide (b ∉ fileBlocks m.disk index))
  others : ∀ b, b ≠ tfsAllocationBlock → z.disk b = m.disk b
  directory : z.memory .md =
    Function.update (setEntryInode (m.disk tfsDirectoryBlock) index 0) (namePosition index) 0

theorem tfsRemove_cases (formed : WellFormed g m.disk) (clean : 0 ∉ filename) (nonempty : filename ≠ []) :
    ((tfsRemove g filename m).2.disk = m.disk ∧
      ((∃ i < 4, g.succeeds (m.log.length + i) = false) ∨ ((tfsRemove g filename m).1 = vfsNotFound ∧
        ∀ k < tfsMaxFiles, entryName (m.disk tfsDirectoryBlock) k ≠ filename))) ∨
    ∃ index z, tfsRemove g filename m = writeBlock g tfsDirectoryBlock .md z (fun m => (vfsOk, m)) ∧
      (∀ i < 4, g.succeeds (m.log.length + i) = true) ∧ Freed filename m z index := by
  have room := formed.size
  have bat : tfsAllocationBlock < g.blocks := by unfold tfsAllocationBlock; omega
  have dir : tfsDirectoryBlock < g.blocks := by unfold tfsDirectoryBlock; omega
  unfold tfsRemove
  rw [readBlock_eq,ok_inside dir]
  split
  swap
  · next failed => exact .inl ⟨rfl,.inl ⟨0,by decide,Bool.not_eq_true _ ▸ failed⟩⟩
  next first =>
  simp only [afterRead_self]
  split
  · next missing => exact .inl ⟨rfl,.inr ⟨rfl,findEntry_none formed clean missing⟩⟩
  next index found =>
  obtain ⟨slot,named⟩ := findEntry_some formed clean found
  have used := formed.used slot (named ▸ nonempty)
  obtain ⟨_,inside⟩ := formed.inode_inside slot used
  have total := (totalblocks_le g).1
  rw [readBlock_eq,ok_inside bat]
  split
  swap
  · next failed => exact .inl ⟨rfl,.inl ⟨1,by decide,by simpa [Machine.afterRead,Machine.load] using failed⟩⟩
  next second =>
  simp only [afterRead_of_ne (show Buffer.md ≠ .bat by decide),afterRead_self]
  rw [readBlock_eq,ok_inside (by omega)]
  split
  swap
  · next failed => exact .inl ⟨rfl,.inl ⟨2,by decide,by simpa [Machine.afterRead,Machine.load] using failed⟩⟩
  next third =>
  simp only [afterRead_of_ne (show Buffer.md ≠ .inode by decide),afterRead_of_ne (show Buffer.md ≠ .bat by decide),
    afterRead_of_ne (show Buffer.bat ≠ .inode by decide),afterRead_self,afterRead_disk]
  rw [writeBlock_eq,ok_inside bat]
  split
  swap
  · next failed => exact .inl ⟨rfl,.inl ⟨3,by decide,by simpa [Machine.afterRead,Machine.load] using failed⟩⟩
  next fourth =>
  refine .inr ⟨index,_,rfl,?_,⟨slot,used,named,?_,?_,?_,?_⟩⟩
  · intro i small
    simp only [Machine.afterRead,Machine.load,List.length_append,List.length_singleton] at second third fourth
    rcases (by omega : i = 0 ∨ i = 1 ∨ i = 2 ∨ i = 3) with rfl | rfl | rfl | rfl
    · exact first
    · exact second
    · exact third
    · exact fourth
  · simp [Machine.afterWrite,Machine.store,Machine.afterRead,Machine.load]
  · intro b
    rw [afterWrite_disk,Function.update_self,load_memory_of_ne _ (show Buffer.bat ≠ .md by decide),load_memory_self,
      bit_freed,fileBlocks_used slot used]
  · intro b notBat
    rw [afterWrite_disk,Function.update_of_ne notBat]
    rfl
  · rw [afterWrite_memory,load_memory_self]

theorem Freed.removed (freed : Freed filename m z index) :
    Removed filename m.disk (z.afterWrite tfsDirectoryBlock .md).disk index := by
  have onMd : (z.afterWrite tfsDirectoryBlock .md).disk tfsDirectoryBlock =
      Function.update (setEntryInode (m.disk tfsDirectoryBlock) index 0) (namePosition index) 0 := by
    rw [afterWrite_disk,Function.update_self,freed.directory]
  refine ⟨freed.slot,freed.used,freed.named,?_,?_,?_,?_,?_⟩
  · rw [onMd,(clearEntry _ index index).1,if_pos rfl]
  · rw [onMd,(clearEntry _ index index).2,if_pos rfl]
  · intro k other
    rw [onMd,(clearEntry _ index k).1,(clearEntry _ index k).2,if_neg other,if_neg other]
    exact ⟨rfl,rfl⟩
  · intro b
    rw [afterWrite_disk,Function.update_of_ne (by decide)]
    exact freed.bits b
  · intro b notBat notMd
    rw [afterWrite_disk,Function.update_of_ne notMd]
    exact freed.others b notBat

/-- A file that is found is removed, and otherwise nothing is written. -/
theorem tfsRemove_effect (reliable : Reliable g) (formed : WellFormed g m.disk) (clean : 0 ∉ filename)
    (nonempty : filename ≠ []) :
    ((tfsRemove g filename m).1 = vfsNotFound ∧ (tfsRemove g filename m).2.disk = m.disk) ∨
    ∃ index, (tfsRemove g filename m).1 = vfsOk ∧ Removed filename m.disk (tfsRemove g filename m).2.disk index := by
  have room := formed.size
  obtain ⟨same,⟨i,_,failed⟩ | ⟨missing,_⟩⟩ | ⟨index,z,writes,_,freed⟩ := tfsRemove_cases formed clean nonempty (m := m)
  · rw [reliable] at failed
    contradiction
  · exact .inl ⟨missing,same⟩
  · rw [writes,writeBlock_ok reliable (show tfsDirectoryBlock < g.blocks by unfold tfsDirectoryBlock; omega)]
    exact .inr ⟨index,rfl,freed.removed⟩

/-! ### Well-formedness -/

theorem Removed.fileBlocks_self (removed : Removed filename d d' index) : fileBlocks d' index = [] :=
  fileBlocks_free removed.entry

theorem Removed.fileBlocks_other (removed : Removed filename d d' index) (formed : WellFormed g d) (other : k ≠ index) :
    fileBlocks d' k = fileBlocks d k := by
  obtain ⟨same,_⟩ := removed.entries k other
  unfold fileBlocks
  rw [same]
  by_cases used : k < tfsMaxFiles ∧ entryInode (d tfsDirectoryBlock) k ≠ 0
  · rw [if_pos used,if_pos used]
    obtain ⟨low,_⟩ := formed.inode_inside used.1 used.2
    rw [removed.others _ (Nat.ne_of_gt (Nat.lt_of_succ_lt low)) (Nat.ne_of_gt low)]
  · rw [if_neg used,if_neg used]

theorem Removed.held (removed : Removed filename d d' index) (formed : WellFormed g d) :
    Ledger (bit (d' tfsAllocationBlock)) (fileBlocks d') := by
  refine formed.held.giveAll ?_ removed.fileBlocks_self (fun k other => removed.fileBlocks_other formed other)
  intro b unheld
  rw [removed.bits]
  simp [unheld]

theorem Removed.wellFormed (removed : Removed filename d d' index) (formed : WellFormed g d) : WellFormed g d' := by
  refine ⟨formed.size,?_,?_,?_,?_,?_,?_,?_,?_,?_⟩
  · intro b low
    have unheld : b ∉ fileBlocks d index := by
      intro member
      have := formed.inside index b member
      omega
    rw [removed.bits,formed.system b low]
    simpa using unheld
  · intro k inside used
    by_cases same : k = index
    · subst same; exact absurd removed.entry used
    · obtain ⟨number,name⟩ := removed.entries k same
      rw [name]
      exact formed.named k inside (number ▸ used)
  · intro k inside free
    by_cases same : k = index
    · subst same; exact removed.name
    · obtain ⟨number,name⟩ := removed.entries k same
      rw [name]
      exact formed.unnamed k inside (number ▸ free)
  · intro k inside
    by_cases same : k = index
    · subst same; rw [removed.name]; decide
    · rw [(removed.entries k same).2]; exact formed.ended k inside
  · intro k l first second one two equal
    have here : k ≠ index := fun same => one (same ▸ removed.entry)
    have there : l ≠ index := fun same => two (same ▸ removed.entry)
    rw [(removed.entries k here).2,(removed.entries l there).2] at equal
    rw [(removed.entries k here).1] at one
    rw [(removed.entries l there).1] at two
    exact formed.distinct k l first second one two equal
  · intro k b member
    by_cases same : k = index
    · subst same; rw [removed.fileBlocks_self] at member; simp at member
    · rw [removed.fileBlocks_other formed same] at member; exact formed.inside k b member
  · exact removed.held formed
  · intro b low high taken
    rw [removed.bits,Bool.and_eq_true] at taken
    obtain ⟨k,member⟩ := formed.owned b low high taken.1
    have other : k ≠ index := by
      rintro rfl
      exact of_decide_eq_true taken.2 member
    exact ⟨k,by rw [removed.fileBlocks_other formed other]; exact member⟩
  · intro k inside used
    have other : k ≠ index := fun same => used (same ▸ removed.entry)
    rw [(removed.entries k other).1] at used ⊢
    obtain ⟨low,_⟩ := formed.inode_inside inside used
    rw [removed.others _ (Nat.ne_of_gt (Nat.lt_of_succ_lt low)) (Nat.ne_of_gt low)]
    exact formed.enough k inside used

theorem tfsRemove_wellFormed (reliable : Reliable g) (formed : WellFormed g m.disk) (clean : 0 ∉ filename)
    (nonempty : filename ≠ []) : WellFormed g (tfsRemove g filename m).2.disk := by
  obtain ⟨_,same⟩ | ⟨index,_,removed⟩ := tfsRemove_effect reliable formed clean nonempty
  · rwa [same]
  · exact removed.wellFormed formed

end Buenos.Fs.Tfs
