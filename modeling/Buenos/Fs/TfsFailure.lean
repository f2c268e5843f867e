import Buenos.Fs.TfsCreate
import Buenos.Fs.TfsRemove

/-! Requests that fail in the middle of a call. Every prefix of the writes of `tfs_create` and
`tfs_remove` can be all that reaches the disk. -/
namespace Buenos.Fs.Tfs

open Buenos.Foundation Buenos.Lib

def requests (m m' : Machine) : List Request := m'.log.drop m.log.length

/-- An inode block that was written for the file: the file is an old one, or this call wrote it. -/
def WrittenFor (m m' : Machine) (k : Nat) : Prop :=
  (entryInode (m.disk tfsDirectoryBlock) k = entryInode (m'.disk tfsDirectoryBlock) k ∧
    entryName (m.disk tfsDirectoryBlock) k = entryName (m'.disk tfsDirectoryBlock) k ∧
    m'.disk (entryInode (m'.disk tfsDirectoryBlock) k) = m.disk (entryInode (m'.disk tfsDirectoryBlock) k)) ∨
  ∃ r ∈ requests m m', r.write = true ∧ r.ok = true ∧ r.block = entryInode (m'.disk tfsDirectoryBlock) k ∧
    m'.disk r.block = r.buffer

/-- The part of well-formedness that keeps files apart. -/
structure Consistent (m m' : Machine) : Prop where
  written : ∀ k < tfsMaxFiles, entryInode (m'.disk tfsDirectoryBlock) k ≠ 0 → WrittenFor m m' k
  marked : ∀ k, ∀ b ∈ fileBlocks m'.disk k, bit (m'.disk tfsAllocationBlock) b = true
  apart : ∀ k l, k ≠ l → ∀ b ∈ fileBlocks m'.disk k, b ∉ fileBlocks m'.disk l

/-- The first four requests of the call succeed and the fifth does not. -/
def FifthFails (g : Gbd) (m : Machine) : Prop :=
  (∀ i < 4, g.succeeds (m.log.length + i) = true) ∧ g.succeeds (m.log.length + 4) = false

theorem requests_append {m m' : Machine} (rs : List Request) (log : m'.log = m.log ++ rs) : requests m m' = rs := by
  rw [requests,log,List.drop_left]

theorem Consistent.same (formed : WellFormed g m.disk) (same : m'.disk = m.disk) : Consistent m m' := by
  refine ⟨?_,?_,?_⟩
  · intro k _ _
    exact .inl (by rw [same]; exact ⟨rfl,rfl,rfl⟩)
  · rw [same]
    exact formed.held.inUse
  · rw [same]
    exact formed.held.apart

/-! ### Create -/

theorem zeroBlocks_frame (g : Gbd) (left i : Nat) (m : Machine) :
    (∀ b, (∀ k, i ≤ k → k < i + left → blockAt (m.memory .inode) k ≠ b) →
      (zeroBlocks g left i m).2.disk b = m.disk b) ∧
    ∃ rs, (zeroBlocks g left i m).2.log = m.log ++ rs := by
  induction left generalizing i m with
  | zero => exact ⟨fun _ _ => rfl,[],(List.append_nil _).symm⟩
  | succ left ih =>
    rw [zeroBlocks,writeBlock_eq]
    split
    · obtain ⟨kept,rs,log⟩ := ih (i + 1) (m.afterWrite (blockAt (m.memory .inode) i) .bat)
      refine ⟨?_,_,log.trans (List.append_assoc _ _ _)⟩
      intro b outside
      rw [kept b fun k low high => outside k (by omega) (by omega),afterWrite_disk,
        Function.update_of_ne (outside i (by omega) (by omega)).symm]
    · exact ⟨fun _ _ => rfl,_,rfl⟩

/-- Only the allocation block was written: it has some bits more. -/
theorem Ready.marked (ready : Ready g filename size m z index inode bs) (formed : WellFormed g m.disk)
    (disk : m'.disk = Function.update m.disk tfsAllocationBlock (z.memory .bat)) : Consistent m m' := by
  have others : ∀ b, b ≠ tfsAllocationBlock → m'.disk b = m.disk b := by
    intro b other
    rw [disk,Function.update_of_ne other]
  have directory := others tfsDirectoryBlock (by decide)
  have inode : ∀ k, k < tfsMaxFiles → entryInode (m.disk tfsDirectoryBlock) k ≠ 0 →
      m'.disk (entryInode (m.disk tfsDirectoryBlock) k) = m.disk (entryInode (m.disk tfsDirectoryBlock) k) := by
    intro k slot used
    obtain ⟨low,_⟩ := formed.inode_inside slot used
    exact others _ (Nat.ne_of_gt (Nat.lt_of_succ_lt low))
  have blocks : fileBlocks m'.disk = fileBlocks m.disk := by
    funext k
    unfold fileBlocks
    rw [directory]
    by_cases used : k < tfsMaxFiles ∧ entryInode (m.disk tfsDirectoryBlock) k ≠ 0
    · rw [if_pos used,if_pos used,inode k used.1 used.2]
    · rw [if_neg used,if_neg used]
  refine ⟨?_,?_,?_⟩
  · intro k slot used
    refine .inl ?_
    rw [directory] at used ⊢
    exact ⟨rfl,rfl,inode k slot used⟩
  · intro k b member
    rw [blocks] at member
    rw [disk,Function.update_self,ready.allocated.bits,formed.held.inUse k b member]
    rfl
  · rw [blocks]
    exact formed.held.apart

/-- With the inode written as well, the file is as good as created. -/
theorem Created.consistent (created : Created g filename size m.disk m'.disk index inode bs) (formed : WellFormed g m.disk)
    (wrote : ∃ r ∈ requests m m', r.write = true ∧ r.ok = true ∧ r.block = inode ∧ m'.disk r.block = r.buffer) :
    Consistent m m' := by
  have held := created.added.held formed
  refine ⟨?_,held.inUse,held.apart⟩
  intro k slot used
  by_cases same : k = index
  · subst same
    rw [← created.entry] at wrote
    exact .inr wrote
  · obtain ⟨number,name⟩ := created.entries k same
    rw [number] at used
    have member : entryInode (m.disk tfsDirectoryBlock) k ∈ fileBlocks m.disk k := by
      rw [fileBlocks_used slot used]
      exact List.mem_cons_self
    refine .inl ⟨number.symm,name.symm,?_⟩
    rw [number]
    exact created.added.kept formed member

/-- The entry is on the disk and no request of the call wrote its inode. -/
theorem Ready.inconsistent (ready : Ready g filename size m z index inode bs) (formed : WellFormed g m.disk)
    (directory : m'.disk tfsDirectoryBlock = z.memory .md)
    (unwritten : ∀ r ∈ requests m m', r.write = true → r.ok = true → r.block ≠ inode) : ¬Consistent m m' := by
  intro consistent
  obtain ⟨low,_⟩ := ready.high formed List.mem_cons_self
  have entry : entryInode (m'.disk tfsDirectoryBlock) index = inode := by rw [directory,ready.entry]
  have written := consistent.written index ready.slot (by rw [entry]; omega)
  obtain ⟨old,_⟩ | ⟨r,member,write,ok,block,_⟩ := written
  · rw [ready.vacant,entry] at old
    omega
  · exact unwritten r member write ok (block.trans entry)

theorem Ready.zeroes (ready : Ready g filename size m z index inode bs) (formed : WellFormed g m.disk)
    (onInode : y.memory .inode = z.memory .inode)
    (onDisk : y.disk = Function.update (Function.update (Function.update m.disk tfsAllocationBlock (z.memory .bat))
      tfsDirectoryBlock (z.memory .md)) inode (z.memory .inode)) :
    Created g filename size m.disk (zeroBlocks g bs.length 0 y).2.disk index inode bs ∧
      (zeroBlocks g bs.length 0 y).2.disk inode = z.memory .inode := by
  obtain ⟨kept,_⟩ := zeroBlocks_frame g bs.length 0 y
  have unzeroed : ∀ b, b ∉ bs → (zeroBlocks g bs.length 0 y).2.disk b = y.disk b := by
    intro b absent
    refine kept b ?_
    rintro k _ small rfl
    rw [onInode,ready.blocks k (by omega)] at absent
    exact absent (List.getElem_mem _)
  have system : ∀ b, b < 3 → b ∉ bs ∧ b ≠ inode := by
    intro b below
    obtain ⟨low,_⟩ := ready.high formed List.mem_cons_self
    refine ⟨fun member => ?_,by omega⟩
    have := ready.high formed (List.mem_cons_of_mem inode member)
    omega
  have toInode : (zeroBlocks g bs.length 0 y).2.disk inode = z.memory .inode := by
    rw [unzeroed inode (List.nodup_cons.mp ready.allocated.nodup).1,onDisk,Function.update_self]
  refine ⟨ready.created ?_ ?_ toInode ?_,toInode⟩
  · obtain ⟨absent,different⟩ := system tfsAllocationBlock (by decide)
    rw [unzeroed _ absent,onDisk,Function.update_of_ne different,Function.update_of_ne (by decide),Function.update_self]
  · obtain ⟨absent,different⟩ := system tfsDirectoryBlock (by decide)
    rw [unzeroed _ absent,onDisk,Function.update_of_ne different,Function.update_self]
  · intro b notBat notMd absent
    simp only [List.mem_cons,not_or] at absent
    rw [unzeroed b absent.2,onDisk,Function.update_of_ne absent.1,Function.update_of_ne notMd,
      Function.update_of_ne notBat]

theorem tfsCreate_consistent (formed : WellFormed g m.disk) (good : IsFilename filename) (size : Int) :
    Consistent m (tfsCreate g filename size m).2 ↔ ¬(Fits g m.disk filename size ∧ FifthFails g m) := by
  have room := formed.size
  have bat : tfsAllocationBlock < g.blocks := by unfold tfsAllocationBlock; omega
  have dir : tfsDirectoryBlock < g.blocks := by unfold tfsDirectoryBlock; omega
  obtain ⟨⟨_,same⟩,ended⟩ | ⟨index,inode,bs,z,commits,first,second,ready⟩ :=
    tfsCreate_cases formed good size (m := m)
  · refine iff_of_true (Consistent.same formed same) fun both => ended ⟨both.1,?_,?_⟩
    · exact both.2.1 0 (by decide)
    · exact both.2.1 1 (by decide)
  obtain ⟨low,high⟩ := ready.high formed List.mem_cons_self
  have total := (totalblocks_le g).1
  obtain ⟨a,b,log⟩ := ready.log
  have length : z.log.length = m.log.length + 2 := by simp [log]
  rw [commits,commitFile,writeBlock_eq,ok_inside bat,length]
  split
  swap
  · next failed => exact iff_of_true (.same formed ready.disk) fun both => failed (both.2.1 2 (by decide))
  next third =>
  rw [writeBlock_eq,ok_inside dir,show (z.afterWrite tfsAllocationBlock .bat).log.length = m.log.length + 3 by
    simp [Machine.afterWrite,Machine.store,length]]
  split
  swap
  · next failed =>
    refine iff_of_true (ready.marked formed ?_) fun both => failed (both.2.1 3 (by decide))
    rw [← ready.disk]
    rfl
  next fourth =>
  simp only [afterWrite_memory,ready.entry]
  rw [writeBlock_eq,ok_inside (by omega)]
  simp only [show ((z.afterWrite tfsAllocationBlock .bat).afterWrite tfsDirectoryBlock .md).log.length =
    m.log.length + 4 by simp [Machine.afterWrite,Machine.store,length]]
  split
  swap
  · next failed =>
    have four : ∀ i < 4, g.succeeds (m.log.length + i) = true := by
      intro i small
      rcases (by omega : i = 0 ∨ i = 1 ∨ i = 2 ∨ i = 3) with rfl | rfl | rfl | rfl
      · exact first
      · exact second
      · exact third
      · exact fourth
    refine iff_of_false (ready.inconsistent formed ?_ ?_) fun none => none ⟨ready.room,four,by simpa using failed⟩
    · simp only [Machine.refused,Machine.afterWrite,Machine.store,Function.update_self]
    have all := requests_append [⟨false,tfsDirectoryBlock,a,true⟩,⟨false,tfsAllocationBlock,b,true⟩,
        ⟨true,tfsAllocationBlock,z.memory .bat,true⟩,⟨true,tfsDirectoryBlock,z.memory .md,true⟩,
        ⟨true,inode,z.memory .inode,false⟩] (show (((z.afterWrite tfsAllocationBlock .bat).afterWrite
          tfsDirectoryBlock .md).refused true inode .inode).log = m.log ++ _ by
        simp [Machine.refused,Machine.afterWrite,Machine.store,log])
    intro r member write ok block
    rw [all] at member
    simp only [List.mem_cons,List.not_mem_nil,or_false] at member
    -- two requests read, two write blocks of the system, and the last one failed
    obtain rfl | rfl | rfl | rfl | rfl := member
    · contradiction
    · contradiction
    · exact absurd block (Nat.ne_of_lt (Nat.lt_of_succ_lt low))
    · exact absurd block (Nat.ne_of_lt low)
    · contradiction
  next fifth =>
  refine iff_of_true ?_ fun both => by rw [both.2.2] at fifth; contradiction
  generalize start : Machine.load _ _ _ = y
  have onInode : y.memory .inode = z.memory .inode := by
    rw [← start,load_memory_of_ne _ (by decide)]
    rfl
  have onDisk : y.disk = Function.update (Function.update (Function.update m.disk tfsAllocationBlock (z.memory .bat))
      tfsDirectoryBlock (z.memory .md)) inode (z.memory .inode) := by
    rw [← start,← ready.disk]
    rfl
  obtain ⟨created,toInode⟩ := ready.zeroes formed onInode onDisk
  obtain ⟨_,more,logged⟩ := zeroBlocks_frame g bs.length 0 y
  have all := requests_append ([⟨false,tfsDirectoryBlock,a,true⟩,⟨false,tfsAllocationBlock,b,true⟩,
      ⟨true,tfsAllocationBlock,z.memory .bat,true⟩,⟨true,tfsDirectoryBlock,z.memory .md,true⟩,
      ⟨true,inode,z.memory .inode,true⟩] ++ more)
    (show (zeroBlocks g bs.length 0 y).2.log = m.log ++ _ by
      rw [logged,← start]
      simp [Machine.load,Machine.afterWrite,Machine.store,log])
  exact created.consistent formed ⟨⟨true,inode,z.memory .inode,true⟩,by rw [all]; simp,rfl,rfl,rfl,toInode⟩

/-! ### Remove -/

theorem Removed.consistent (removed : Removed filename m.disk m'.disk index) (formed : WellFormed g m.disk) :
    Consistent m m' := by
  have held := removed.held formed
  refine ⟨?_,held.inUse,held.apart⟩
  intro k slot used
  have other : k ≠ index := fun same => used (same ▸ removed.entry)
  obtain ⟨number,name⟩ := removed.entries k other
  rw [number] at used
  obtain ⟨low,_⟩ := formed.inode_inside slot used
  refine .inl ⟨number.symm,name.symm,?_⟩
  rw [number]
  exact removed.others _ (Nat.ne_of_gt (Nat.lt_of_succ_lt low)) (Nat.ne_of_gt low)

theorem tfsRemove_consistent (formed : WellFormed g m.disk) (clean : 0 ∉ filename) (nonempty : filename ≠ []) :
    Consistent m (tfsRemove g filename m).2 ↔
      ¬((∃ k < tfsMaxFiles, entryName (m.disk tfsDirectoryBlock) k = filename) ∧ FifthFails g m) := by
  have room := formed.size
  have dir : tfsDirectoryBlock < g.blocks := by unfold tfsDirectoryBlock; omega
  obtain ⟨same,ended⟩ | ⟨index,z,writes,succeeded,freed⟩ := tfsRemove_cases formed clean nonempty (m := m)
  · refine iff_of_true (Consistent.same formed same) fun both => ?_
    obtain ⟨⟨k,slot,name⟩,succeeded,_⟩ := both
    obtain ⟨i,small,failed⟩ | ⟨_,absent⟩ := ended
    · rw [succeeded i small] at failed
      contradiction
    · exact absent k slot name
  rw [writes,writeBlock_eq,ok_inside dir,freed.log]
  split
  · next fifth =>
    refine iff_of_true (Removed.consistent freed.removed formed) fun both => ?_
    rw [both.2.2] at fifth
    contradiction
  · next failed =>
    -- the blocks are free and the entry still refers to them
    refine iff_of_false ?_ fun none =>
      none ⟨⟨index,freed.slot,freed.named⟩,succeeded,by simpa using failed⟩
    intro consistent
    have directory : z.disk tfsDirectoryBlock = m.disk tfsDirectoryBlock := freed.others _ (by decide)
    have member : entryInode (m.disk tfsDirectoryBlock) index ∈ fileBlocks m.disk index := by
      rw [fileBlocks_used freed.slot freed.used]
      exact List.mem_cons_self
    have listed : entryInode (m.disk tfsDirectoryBlock) index ∈ fileBlocks z.disk index := by
      rw [fileBlocks_used freed.slot (by rw [directory]; exact freed.used),directory]
      exact List.mem_cons_self
    have set := consistent.marked index _ listed
    have clear := freed.bits (entryInode (m.disk tfsDirectoryBlock) index)
    rw [decide_eq_false (not_not_intro member),Bool.and_false] at clear
    exact absurd (set.symm.trans clear) (by decide)

/-- When the metadata stays consistent: unless the fifth request fails of a call that gets
that far. In `tfs_create` it is the write of the inode, after that of the directory; in
`tfs_remove` it is the write of the directory, after that of the allocation block. -/
theorem metadata_consistent (formed : WellFormed g m.disk) :
    (∀ filename size, IsFilename filename →
      (Consistent m (tfsCreate g filename size m).2 ↔ ¬(Fits g m.disk filename size ∧ FifthFails g m))) ∧
    ∀ filename, 0 ∉ filename → filename ≠ [] →
      (Consistent m (tfsRemove g filename m).2 ↔
        ¬((∃ k < tfsMaxFiles, entryName (m.disk tfsDirectoryBlock) k = filename) ∧ FifthFails g m)) :=
  ⟨fun _ size good => tfsCreate_consistent formed good size,
    fun _ clean nonempty => tfsRemove_consistent formed clean nonempty⟩

theorem metadata_consistent_sample : Consistent sampleMachine (tfsCreate sampleGbd sampleName 600 sampleMachine).2 := by
  have good : IsFilename sampleName := ⟨by decide,by decide,by decide⟩
  refine ((metadata_consistent sampleMachine_wellFormed).1 sampleName 600 good).mpr fun both => ?_
  exact absurd both.2.2 (by decide)

/-- A disk that refuses its fifth request. -/
def faultyGbd : Gbd := ⟨8,fun n => n != 4⟩

/-- A new volume on it, and a file to be created: the directory has an inode that was not written. -/
theorem create_unwritten_inode : WellFormed faultyGbd sampleMachine.disk ∧ IsFilename sampleName ∧
    ¬Consistent sampleMachine (tfsCreate faultyGbd sampleName 600 sampleMachine).2 := by
  have created : tfstoolCreatevol faultyGbd.blocks (fun _ => 0) = some sampleMachine.disk := rfl
  have formed := tfstoolCreatevol_wellFormed created
  have good : IsFilename sampleName := ⟨by decide,by decide,by decide⟩
  have room : Fits faultyGbd sampleMachine.disk sampleName 600 :=
    ⟨by decide,by decide +kernel,⟨0,by decide,by decide +kernel⟩,by decide +kernel⟩
  refine ⟨formed,good,fun consistent => ?_⟩
  exact (tfsCreate_consistent formed good 600).mp consistent ⟨room,by decide,by decide⟩

end Buenos.Fs.Tfs
