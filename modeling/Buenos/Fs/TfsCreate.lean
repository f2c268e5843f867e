import Buenos.Fs.TfsVolume

/-! What `tfs_create` does to the disk when its requests succeed, and that the volume stays
well formed. -/
namespace Buenos.Fs.Tfs

open Buenos.Foundation Buenos.Lib

/-! ### The parts of `tfs_create` -/

theorem scanEntries_some (scanned : scanEntries md filename ks index = some result) :
    (∀ k ∈ ks, entryIs md k filename = false) ∧
      (result = index ∨ ∃ k ∈ ks, result = (k : Int) ∧ entryInode md k = 0) := by
  induction ks generalizing index with
  | nil =>
    cases scanned
    exact ⟨by simp,.inl rfl⟩
  | cons k rest ih =>
    rw [scanEntries] at scanned
    split at scanned
    · contradiction
    · next differs =>
      obtain ⟨others,chosen⟩ := ih scanned
      refine ⟨?_,?_⟩
      · intro l member
        obtain rfl | member := List.mem_cons.mp member
        · simpa using differs
        · exact others l member
      · obtain same | ⟨l,member,same,free⟩ := chosen
        · split at same
          · next free => exact .inr ⟨k,List.mem_cons_self,same,free⟩
          · exact .inl same
        · exact .inr ⟨l,List.mem_cons_of_mem k member,same,free⟩

theorem scanEntries_none (scanned : scanEntries md filename ks index = none) :
    ∃ k ∈ ks, entryIs md k filename = true := by
  induction ks generalizing index with
  | nil => cases scanned
  | cons k rest ih =>
    rw [scanEntries] at scanned
    split at scanned
    · next same => exact ⟨k,List.mem_cons_self,same⟩
    · obtain ⟨l,member,same⟩ := ih scanned
      exact ⟨l,List.mem_cons_of_mem k member,same⟩

theorem scanEntries_full (scanned : scanEntries md filename ks index = some (-1)) :
    ∀ k ∈ ks, entryInode md k ≠ 0 := by
  induction ks generalizing index with
  | nil => simp
  | cons k rest ih =>
    rw [scanEntries] at scanned
    split at scanned
    · contradiction
    intro l member
    obtain rfl | member := List.mem_cons.mp member
    · intro free
      rw [if_pos free] at scanned
      obtain ⟨_,same | ⟨j,_,same,_⟩⟩ := scanEntries_some scanned
      · omega
      · omega
    · exact ih scanned l member

theorem findnset_found (small : total ≤ 4096) (found : toS32 (toU32 (bitmapFindnset bat total).1 % 2 ^ 32) ≠ -1) :
    ∃ n, n < total ∧ bit bat n = false ∧ toU32 (bitmapFindnset bat total).1 = n ∧
      (bitmapFindnset bat total).2 = bitmapSet bat n true := by
  obtain ⟨n,low,free,_,result⟩ | ⟨_,result⟩ := bitmapFindnset_spec bat total
  · rw [result]
    refine ⟨n,low,free,?_,rfl⟩
    rw [toU32_small (Int.natCast_nonneg n) (by omega)]
    exact Int.toNat_natCast n
  · rw [result] at found
    exact absurd (show toS32 (toU32 (-1) % 2 ^ 32) = -1 by decide) found

structure Allocated (total : Nat) (bs : List Nat) (bat bat' : Bytes) : Prop where
  nodup : bs.Nodup
  free : ∀ b ∈ bs, b < total ∧ bit bat b = false
  bits : ∀ b, bit bat' b = (bit bat b || decide (b ∈ bs))

theorem Allocated.cons (rest : Allocated total bs (bitmapSet bat n true) bat') (low : n < total)
    (clear : bit bat n = false) : Allocated total (n :: bs) bat bat' := by
  have apart : n ∉ bs := by
    intro member
    have := (rest.free n member).2
    simp at this
  refine ⟨List.nodup_cons.mpr ⟨apart,rest.nodup⟩,?_,?_⟩
  · intro b member
    obtain rfl | member := List.mem_cons.mp member
    · exact ⟨low,clear⟩
    · obtain ⟨inside,free⟩ := rest.free b member
      have different : b ≠ n := fun same => apart (same ▸ member)
      rw [bit_bitmapSet,if_neg different] at free
      exact ⟨inside,free⟩
  · intro b
    rw [rest.bits b,bit_bitmapSet]
    by_cases same : b = n
    · subst same; simp
    · simp [same]

theorem blockAt_setBlockAt (inode : Bytes) (i value k : Nat) :
    blockAt (setBlockAt inode i value) k = if k = i then value % 2 ^ 32 else blockAt inode k := by
  unfold blockAt setBlockAt
  split
  · next same => subst same; exact word_setWord_self inode _ value
  · next other => exact word_setWord_other inode value (by omega)

theorem filesize_setBlockAt (inode : Bytes) (i value : Nat) : filesize (setBlockAt inode i value) = filesize inode :=
  word_setWord_other inode value (by omega)

theorem allocateBlocks_ok (small : total ≤ 4096) (done : allocateBlocks total left i inode bat = (true, inode', bat')) :
    ∃ bs, bs.length = left ∧ Allocated total bs bat bat' ∧ filesize inode' = filesize inode ∧
      (∀ k (inside : k < bs.length), blockAt inode' (i + k) = bs[k]) ∧
      (∀ k, k < i → blockAt inode' k = blockAt inode k) := by
  induction left generalizing i inode bat with
  | zero =>
    cases done
    exact ⟨[],rfl,⟨List.nodup_nil,by simp,by simp⟩,rfl,by simp,fun _ _ => rfl⟩
  | succ left ih =>
    simp only [allocateBlocks] at done
    split at done
    · cases done
    · next found =>
      rw [blockAt_setBlockAt,if_pos rfl] at found
      obtain ⟨n,low,free,value,after⟩ := findnset_found small found
      rw [after] at done
      obtain ⟨bs,count,allocated,size,blocks,before⟩ := ih done
      have first := before i (Nat.lt_succ_self i)
      rw [blockAt_setBlockAt,if_pos rfl,value,Nat.mod_eq_of_lt (by omega)] at first
      refine ⟨n :: bs,by simp [count],allocated.cons low free,?_,?_,?_⟩
      · rw [size,filesize_setBlockAt]
      · intro k inside
        cases k with
        | zero => simpa using first
        | succ k =>
          have later := blocks k (by simpa using inside)
          rw [show i + (k + 1) = i + 1 + k by omega]
          simpa using later
      · intro k earlier
        rw [before k (by omega),blockAt_setBlockAt,if_neg (by omega)]

theorem blockAt_clearBlocks (left i : Nat) (inode : Bytes) (k : Nat) :
    blockAt (clearBlocks left i inode) k = if i ≤ k ∧ k < i + left then 0 else blockAt inode k := by
  induction left generalizing i inode with
  | zero =>
    rw [if_neg (by omega)]
    rfl
  | succ left ih =>
    rw [clearBlocks,ih,blockAt_setBlockAt]
    by_cases here : k = i
    · rw [if_neg (by omega),if_pos here,if_pos (by omega),Nat.zero_mod]
    · rw [if_neg here]
      by_cases later : i + 1 ≤ k ∧ k < i + 1 + left
      · rw [if_pos later,if_pos (by omega)]
      · rw [if_neg later,if_neg (by omega)]

theorem filesize_clearBlocks (left i : Nat) (inode : Bytes) : filesize (clearBlocks left i inode) = filesize inode := by
  induction left generalizing i inode with
  | zero => rfl
  | succ left ih => rw [clearBlocks,ih,filesize_setBlockAt]

theorem zeroBlocks_ok (reliable : Reliable g) (left i : Nat) (m : Machine)
    (inside : ∀ k, i ≤ k → k < i + left → blockAt (m.memory .inode) k < g.blocks) :
    (zeroBlocks g left i m).1 = vfsOk ∧
    (∀ k, i ≤ k → k < i + left → (zeroBlocks g left i m).2.disk (blockAt (m.memory .inode) k) = m.memory .bat) ∧
    ∀ b, (∀ k, i ≤ k → k < i + left → blockAt (m.memory .inode) k ≠ b) →
      (zeroBlocks g left i m).2.disk b = m.disk b := by
  induction left generalizing i m with
  | zero => exact ⟨rfl,fun k low high => by omega,fun _ _ => rfl⟩
  | succ left ih =>
    rw [zeroBlocks,writeBlock_ok reliable (inside i (by omega) (by omega))]
    obtain ⟨code,zeroed,kept⟩ := ih (i + 1) (m.afterWrite (blockAt (m.memory .inode) i) .bat)
      (fun k low high => inside k (by omega) (by omega))
    simp only [afterWrite_memory,afterWrite_disk] at zeroed kept
    refine ⟨code,?_,?_⟩
    · intro k low high
      by_cases again : ∃ l, i + 1 ≤ l ∧ l < i + 1 + left ∧ blockAt (m.memory .inode) l = blockAt (m.memory .inode) k
      · obtain ⟨l,low,high,same⟩ := again
        rw [← same]
        exact zeroed l low high
      · have first : k = i := by
          by_contra other
          exact again ⟨k,by omega,by omega,rfl⟩
        subst first
        rw [kept _ (fun l low high same => again ⟨l,low,high,same⟩),Function.update_self]
    · intro b outside
      rw [kept b (fun k low high => outside k (by omega) (by omega)),
        Function.update_of_ne (outside i (by omega) (by omega)).symm]

theorem freeIn_full : (freeIn total bat).card = 0 ↔ ∀ b < total, bit bat b = true := by
  rw [Finset.card_eq_zero,freeIn,Finset.filter_eq_empty_iff]
  constructor
  · intro none b low
    simpa using none (Finset.mem_range.mpr low)
  · intro all b member
    simp [all b (Finset.mem_range.mp member)]

theorem findnset_full (small : total ≤ 4096) (full : toS32 (toU32 (bitmapFindnset bat total).1 % 2 ^ 32) = -1) :
    (freeIn total bat).card = 0 := by
  obtain ⟨n,low,free,_,result⟩ | ⟨all,_⟩ := bitmapFindnset_spec bat total
  · rw [result,toU32_small (Int.natCast_nonneg n) (by omega),Int.toNat_natCast,Nat.mod_eq_of_lt (by omega),
      toS32_small (by omega)] at full
    omega
  · exact freeIn_full.mpr all

theorem allocateBlocks_full (small : total ≤ 4096)
    (done : allocateBlocks total left i inode bat = (false, inode', bat')) : (freeIn total bat).card < left := by
  induction left generalizing i inode bat with
  | zero => cases done
  | succ left ih =>
    simp only [allocateBlocks,blockAt_setBlockAt,if_pos] at done
    split at done
    · next full =>
      rw [findnset_full small full]
      omega
    · next found =>
      obtain ⟨n,low,free,_,after⟩ := findnset_found small found
      rw [after] at done
      have fewer := ih done
      have one := freeIn_bitmapSet low free
      omega

theorem Allocated.count (allocated : Allocated total bs bat bat') :
    (freeIn total bat').card + bs.length = (freeIn total bat).card := by
  have chosen : bs.toFinset ⊆ freeIn total bat := by
    intro b member
    obtain ⟨low,free⟩ := allocated.free b (List.mem_toFinset.mp member)
    exact Finset.mem_filter.mpr ⟨Finset.mem_range.mpr low,free⟩
  have left : freeIn total bat' = freeIn total bat \ bs.toFinset := by
    ext b
    by_cases member : b ∈ bs <;> simp [freeIn,allocated.bits,member]
  rw [left,← List.toFinset_card_of_nodup allocated.nodup]
  exact Finset.card_sdiff_add_card_eq_card chosen

theorem Allocated.card (allocated : Allocated total bs bat bat') : bs.length ≤ (freeIn total bat).card := by
  have count := allocated.count
  omega

/-! ### Its effect -/

/-- There is room for the file: an entry, an inode block and its data blocks. -/
structure Fits (g : Gbd) (d : Disk) (filename : Name) (size : Int) : Prop where
  blocks : numblocksOf size ≤ tfsBlocksMax
  fresh : ∀ k < tfsMaxFiles, entryName (d tfsDirectoryBlock) k ≠ filename
  entry : ∃ k < tfsMaxFiles, entryInode (d tfsDirectoryBlock) k = 0
  space : numblocksOf size + 1 ≤ (freeIn (totalblocks g) (d tfsAllocationBlock)).card

/-- The buffers hold the new file, and nothing has been written. -/
structure Ready (g : Gbd) (filename : Name) (size : Int) (m z : Machine) (index inode : Nat) (bs : List Nat) : Prop where
  slot : index < tfsMaxFiles
  vacant : entryInode (m.disk tfsDirectoryBlock) index = 0
  room : Fits g m.disk filename size
  count : bs.length = numblocksOf size
  disk : z.disk = m.disk
  log : ∃ a b, z.log = m.log ++ [⟨false, tfsDirectoryBlock, a, true⟩, ⟨false, tfsAllocationBlock, b, true⟩]
  allocated : Allocated (totalblocks g) (inode :: bs) (m.disk tfsAllocationBlock) (z.memory .bat)
  entry : entryInode (z.memory .md) index = inode
  name : entryName (z.memory .md) index = filename
  entries : ∀ k, k ≠ index → entryInode (z.memory .md) k = entryInode (m.disk tfsDirectoryBlock) k ∧
    entryName (z.memory .md) k = entryName (m.disk tfsDirectoryBlock) k
  filesize : filesize (z.memory .inode) = toU32 size
  blocks : ∀ k (inside : k < bs.length), blockAt (z.memory .inode) k = bs[k]
  unused : ∀ k, bs.length ≤ k → k < tfsBlocksMax → blockAt (z.memory .inode) k = 0

theorem allocateFile_cases (g : Gbd) (m : Machine) (index : Nat) (size : Int) (short : numblocks ≤ tfsBlocksMax) :
    ((allocateFile g index numblocks size m).1 = vfsError ∧ (allocateFile g index numblocks size m).2.disk = m.disk ∧
      (freeIn (totalblocks g) (m.memory .bat)).card < numblocks + 1) ∨
    ∃ n bs z, allocateFile g index numblocks size m = commitFile g index numblocks z ∧ bs.length = numblocks ∧
      z.disk = m.disk ∧ z.log = m.log ∧ Allocated (totalblocks g) (n :: bs) (m.memory .bat) (z.memory .bat) ∧
      z.memory .md = setEntryInode (m.memory .md) index n ∧ filesize (z.memory .inode) = toU32 size ∧
      (∀ k (inside : k < bs.length), blockAt (z.memory .inode) k = bs[k]) ∧
      ∀ k, bs.length ≤ k → k < tfsBlocksMax → blockAt (z.memory .inode) k = 0 := by
  have total := totalblocks_le g
  simp only [allocateFile,load_memory_self,entryInode_setEntryInode_self]
  split
  · next full =>
    refine .inl ⟨rfl,rfl,?_⟩
    rw [findnset_full total.2 full]
    omega
  next found =>
  obtain ⟨n,low,free,value,after⟩ := findnset_found total.2 found
  rw [value,after]
  simp only [load_memory_of_ne _ (show Buffer.inode ≠ .md by decide),
    load_memory_of_ne _ (show Buffer.inode ≠ .bat by decide),
    load_memory_of_ne _ (show Buffer.bat ≠ .md by decide),load_memory_self]
  obtain ⟨ok,inode,bat,allocation⟩ : ∃ ok inode bat, allocateBlocks (totalblocks g) numblocks 0
      (setWord (m.memory .inode) 0 (toU32 size)) (bitmapSet (m.memory .bat) n true) = (ok, inode, bat) :=
    ⟨_,_,_,rfl⟩
  rw [allocation]
  cases ok with
  | false =>
    have fewer := allocateBlocks_full total.2 allocation
    have one := freeIn_bitmapSet low free
    exact .inl ⟨rfl,rfl,by omega⟩
  | true =>
    obtain ⟨bs,count,rest,sized,blocks,_⟩ := allocateBlocks_ok total.2 allocation
    simp only [if_true]
    refine .inr ⟨n,bs,_,rfl,count,rfl,rfl,?_,?_,?_,?_,?_⟩
    · rw [load_memory_of_ne _ (by decide),load_memory_self]
      exact rest.cons low free
    · rw [load_memory_of_ne _ (by decide),load_memory_of_ne _ (by decide),load_memory_self]
    · rw [load_memory_self,filesize_clearBlocks,sized]
      unfold Tfs.filesize
      rw [word_setWord_self,Nat.mod_eq_of_lt (toU32_lt size)]
    · intro k inside
      rw [load_memory_self,blockAt_clearBlocks,if_neg (by omega)]
      simpa using blocks k inside
    · intro k low high
      rw [load_memory_self,blockAt_clearBlocks,if_pos (by omega)]

theorem tfsCreate_cases (formed : WellFormed g m.disk) (good : IsFilename filename) (size : Int) :
    (((tfsCreate g filename size m).1 = vfsError ∧ (tfsCreate g filename size m).2.disk = m.disk) ∧
      ¬(Fits g m.disk filename size ∧ g.succeeds m.log.length = true ∧ g.succeeds (m.log.length + 1) = true)) ∨
    ∃ index inode bs z, tfsCreate g filename size m = commitFile g index bs.length z ∧
      g.succeeds m.log.length = true ∧ g.succeeds (m.log.length + 1) = true ∧
      Ready g filename size m z index inode bs := by
  have room := formed.size
  have dir : tfsDirectoryBlock < g.blocks := by unfold tfsDirectoryBlock; omega
  have bat : tfsAllocationBlock < g.blocks := by unfold tfsAllocationBlock; omega
  have total := totalblocks_le g
  simp only [tfsCreate]
  split
  · next long => exact .inl ⟨⟨rfl,rfl⟩,fun both => absurd both.1.blocks (by omega)⟩
  next short =>
  rw [readBlock_eq,ok_inside dir]
  split
  swap
  · next failed => exact .inl ⟨⟨rfl,rfl⟩,fun both => failed both.2.1⟩
  next first =>
  simp only [afterRead_self]
  split
  · next scanned =>
    refine .inl ⟨⟨rfl,rfl⟩,fun both => ?_⟩
    obtain ⟨k,inside,same⟩ := scanEntries_none scanned
    have slot := List.mem_range.mp inside
    exact both.1.fresh k slot ((entryIs_iff good.clean (formed.ended k slot)).mp same)
  next index scanned =>
  obtain ⟨differs,chosen⟩ := scanEntries_some scanned
  split
  · next missing =>
    refine .inl ⟨⟨rfl,rfl⟩,fun both => ?_⟩
    obtain ⟨k,slot,free⟩ := both.1.entry
    exact scanEntries_full (missing ▸ scanned) k (List.mem_range.mpr slot) free
  next present =>
  obtain missing | ⟨k,member,rfl,vacant⟩ := chosen
  · exact absurd missing present
  have slot := List.mem_range.mp member
  rw [readBlock_eq,ok_inside bat]
  split
  swap
  · next failed => exact .inl ⟨⟨rfl,rfl⟩,fun both => failed (by simpa [Machine.afterRead,Machine.load] using both.2.2)⟩
  next second =>
  simp only [Int.toNat_natCast]
  generalize start : Machine.afterRead _ _ _ = y
  have memory : y.memory .bat = m.disk tfsAllocationBlock ∧ y.disk = m.disk ∧
      y.memory .md = stringcopy (m.disk tfsDirectoryBlock) (namePosition k) (tfsFilenameMax - 1) filename ∧
      ∃ a b, y.log = m.log ++ [⟨false, tfsDirectoryBlock, a, true⟩, ⟨false, tfsAllocationBlock, b, true⟩] := by
    rw [← start]
    refine ⟨by simp,rfl,?_,?_⟩
    · rw [afterRead_of_ne (by decide),load_memory_self]
    · exact ⟨_,_,List.append_assoc _ _ _⟩
  obtain ⟨onBat,onDisk,onMd,log⟩ := memory
  have fresh : ∀ k < tfsMaxFiles, entryName (m.disk tfsDirectoryBlock) k ≠ filename := by
    intro l inside same
    have differs := differs l (List.mem_range.mpr inside)
    rw [(entryIs_iff good.clean (formed.ended l inside)).mpr same] at differs
    contradiction
  obtain ⟨failed,same,fewer⟩ | ⟨n,bs,z,commits,count,disk,kept,allocated,directory,sized,blocks,unused⟩ :=
    allocateFile_cases g y k size (Nat.not_lt.mp short)
  · rw [onBat] at fewer
    exact .inl ⟨⟨failed,by rw [same,onDisk]⟩,fun both => absurd both.1.space (by omega)⟩
  · rw [onBat] at allocated
    have small := (allocated.free n List.mem_cons_self).1
    have enough := allocated.card
    rw [List.length_cons,count] at enough
    refine .inr ⟨k,n,bs,z,by rw [commits,count],first,by simpa [Machine.afterRead,Machine.load] using second,
      ⟨slot,vacant,⟨Nat.not_lt.mp short,fresh,⟨k,slot,vacant⟩,enough⟩,count,disk.trans onDisk,by rw [kept]; exact log,
        allocated,?_,?_,?_,sized,blocks,unused⟩⟩
    · rw [directory,entryInode_setEntryInode_self,Nat.mod_eq_of_lt (by omega)]
    · rw [directory,onMd,entryName_setEntryInode,entryName_stringcopy_self good]
    · intro l other
      rw [directory,onMd,entryInode_setEntryInode _ other,entryInode_stringcopy,entryName_setEntryInode,
        entryName_stringcopy _ other]
      exact ⟨rfl,rfl⟩

theorem Ready.high (ready : Ready g filename size m z index inode bs) (formed : WellFormed g m.disk)
    (member : b ∈ inode :: bs) : 3 ≤ b ∧ b < totalblocks g := by
  obtain ⟨inside,free⟩ := ready.allocated.free b member
  refine ⟨?_,inside⟩
  by_contra low
  rw [formed.system b (by omega)] at free
  contradiction

/-- The file has got a free entry, an inode block and its data blocks. -/
structure Created (g : Gbd) (filename : Name) (size : Int) (d d' : Disk) (index inode : Nat) (bs : List Nat) : Prop where
  slot : index < tfsMaxFiles
  vacant : entryInode (d tfsDirectoryBlock) index = 0
  fresh : ∀ k < tfsMaxFiles, entryName (d tfsDirectoryBlock) k ≠ filename
  count : bs.length = numblocksOf size
  fits : numblocksOf size ≤ tfsBlocksMax
  allocated : Allocated (totalblocks g) (inode :: bs) (d tfsAllocationBlock) (d' tfsAllocationBlock)
  entry : entryInode (d' tfsDirectoryBlock) index = inode
  name : entryName (d' tfsDirectoryBlock) index = filename
  entries : ∀ k, k ≠ index → entryInode (d' tfsDirectoryBlock) k = entryInode (d tfsDirectoryBlock) k ∧
    entryName (d' tfsDirectoryBlock) k = entryName (d tfsDirectoryBlock) k
  filesize : filesize (d' inode) = toU32 size
  blocks : ∀ k (inside : k < bs.length), blockAt (d' inode) k = bs[k]
  unused : ∀ k, bs.length ≤ k → k < tfsBlocksMax → blockAt (d' inode) k = 0
  others : ∀ b, b ≠ tfsAllocationBlock → b ≠ tfsDirectoryBlock → b ∉ inode :: bs → d' b = d b

theorem commitFile_ok (reliable : Reliable g) (room : 3 ≤ g.blocks) (m : Machine) (index : Nat)
    (inode : entryInode (m.memory .md) index = n) (blocks : ∀ k (inside : k < bs.length), blockAt (m.memory .inode) k = bs[k])
    (inside : ∀ b ∈ n :: bs, 3 ≤ b ∧ b < g.blocks) (nodup : (n :: bs).Nodup) :
    ∃ m', commitFile g index bs.length m = (vfsOk, m') ∧
      m'.disk tfsAllocationBlock = m.memory .bat ∧ m'.disk tfsDirectoryBlock = m.memory .md ∧
      m'.disk n = m.memory .inode ∧ (∀ b ∈ bs, ∀ j < tfsBlockSize, m'.disk b j = 0) ∧
      ∀ b, b ≠ tfsAllocationBlock → b ≠ tfsDirectoryBlock → b ∉ n :: bs → m'.disk b = m.disk b := by
  have first := inside n List.mem_cons_self
  have written : ∀ k, 0 ≤ k → k < 0 + bs.length → ∃ b ∈ bs, blockAt (m.memory .inode) k = b := by
    intro k _ small
    exact ⟨_,List.getElem_mem (by omega),blocks k (by omega)⟩
  unfold commitFile
  rw [writeBlock_ok reliable (show tfsAllocationBlock < g.blocks by unfold tfsAllocationBlock; omega),
    writeBlock_ok reliable (show tfsDirectoryBlock < g.blocks by unfold tfsDirectoryBlock; omega),
    writeBlock_ok reliable (by simp only [afterWrite_memory]; omega)]
  simp only [afterWrite_memory,inode]
  generalize start : Machine.load _ _ _ = z
  have memory : z.memory .inode = m.memory .inode ∧ z.memory .bat = memoryset (m.memory .bat) 0 0 tfsBlockSize := by
    rw [← start]
    exact ⟨load_memory_of_ne _ (by decide),by simp⟩
  have disk : z.disk = Function.update (Function.update (Function.update m.disk tfsAllocationBlock (m.memory .bat))
      tfsDirectoryBlock (m.memory .md)) n (m.memory .inode) := by
    rw [← start]
    rfl
  obtain ⟨code,zeroed,kept⟩ := zeroBlocks_ok reliable bs.length 0 z (by
    intro k low high
    rw [memory.1]
    obtain ⟨b,member,same⟩ := written k low high
    rw [same]
    exact (inside b (List.mem_cons_of_mem n member)).2)
  rw [memory.1] at zeroed kept
  rw [memory.2] at zeroed
  have outside : ∀ b, b ∉ bs → (zeroBlocks g bs.length 0 z).2.disk b = z.disk b := by
    intro b absent
    refine kept b ?_
    rintro k low high rfl
    obtain ⟨c,member,same⟩ := written k low high
    exact absent (same ▸ member)
  have system : ∀ b, b < 3 → b ∉ bs ∧ b ≠ n := by
    intro b low
    refine ⟨?_,by omega⟩
    intro member
    have := inside b (List.mem_cons_of_mem n member)
    omega
  refine ⟨(zeroBlocks g bs.length 0 z).2,?_,?_,?_,?_,?_,?_⟩
  · rw [← code]
  · obtain ⟨absent,different⟩ := system tfsAllocationBlock (by decide)
    rw [outside _ absent,disk,Function.update_of_ne different,Function.update_of_ne (by decide),
      Function.update_self]
  · obtain ⟨absent,different⟩ := system tfsDirectoryBlock (by decide)
    rw [outside _ absent,disk,Function.update_of_ne different,Function.update_self]
  · rw [outside n (List.nodup_cons.mp nodup).1,disk,Function.update_self]
  · intro b member j small
    obtain ⟨k,inside,rfl⟩ := List.getElem_of_mem member
    rw [← blocks k inside,zeroed k (Nat.zero_le k) (by omega),memoryset_byte]
    rw [if_pos (by omega)]
  · intro b notBat notMd absent
    simp only [List.mem_cons,not_or] at absent
    rw [outside b absent.2,disk,Function.update_of_ne absent.1,Function.update_of_ne notMd,
      Function.update_of_ne notBat]

theorem Ready.created (ready : Ready g filename size m z index inode bs)
    (toBat : d' tfsAllocationBlock = z.memory .bat) (toMd : d' tfsDirectoryBlock = z.memory .md)
    (toInode : d' inode = z.memory .inode)
    (others : ∀ b, b ≠ tfsAllocationBlock → b ≠ tfsDirectoryBlock → b ∉ inode :: bs → d' b = m.disk b) :
    Created g filename size m.disk d' index inode bs := by
  refine ⟨ready.slot,ready.vacant,ready.room.fresh,ready.count,ready.room.blocks,?_,?_,?_,?_,?_,?_,?_,others⟩
  · rw [toBat]; exact ready.allocated
  · rw [toMd]; exact ready.entry
  · rw [toMd]; exact ready.name
  · rw [toMd]; exact ready.entries
  · rw [toInode]; exact ready.filesize
  · rw [toInode]; exact ready.blocks
  · rw [toInode]; exact ready.unused

theorem Ready.effect (ready : Ready g filename size m z index inode bs) (reliable : Reliable g)
    (formed : WellFormed g m.disk) (commits : tfsCreate g filename size m = commitFile g index bs.length z) :
    (tfsCreate g filename size m).1 = vfsOk ∧
      Created g filename size m.disk (tfsCreate g filename size m).2.disk index inode bs ∧
      ∀ b ∈ bs, ∀ j < tfsBlockSize, (tfsCreate g filename size m).2.disk b j = 0 := by
  have high : ∀ b ∈ inode :: bs, 3 ≤ b ∧ b < g.blocks := by
    intro b member
    obtain ⟨low,below⟩ := ready.high formed member
    exact ⟨low,Nat.lt_of_lt_of_le below (totalblocks_le g).1⟩
  obtain ⟨m',done,toBat,toMd,toInode,zeroed,others⟩ :=
    commitFile_ok reliable formed.size z index ready.entry ready.blocks high ready.allocated.nodup
  rw [commits,done]
  refine ⟨rfl,ready.created toBat toMd toInode ?_,zeroed⟩
  intro b notBat notMd absent
  rw [others b notBat notMd absent,ready.disk]

/-- `tfs_create` fails and leaves the disk alone, or it creates the file. -/
theorem tfsCreate_effect (reliable : Reliable g) (formed : WellFormed g m.disk) (good : IsFilename filename)
    (size : Int) :
    ((tfsCreate g filename size m).1 = vfsError ∧ (tfsCreate g filename size m).2.disk = m.disk) ∨
    ∃ index inode bs, (tfsCreate g filename size m).1 = vfsOk ∧
      Created g filename size m.disk (tfsCreate g filename size m).2.disk index inode bs ∧
      ∀ b ∈ bs, ∀ j < tfsBlockSize, (tfsCreate g filename size m).2.disk b j = 0 := by
  obtain ⟨failed,_⟩ | ⟨index,inode,bs,z,commits,_,_,ready⟩ := tfsCreate_cases formed good size (m := m)
  · exact .inl failed
  · exact .inr ⟨index,inode,bs,ready.effect reliable formed commits⟩

/-! ### Well-formedness -/

/-- Where it does not overflow, the number of blocks is the size in blocks, rounded up. -/
theorem numblocksOf_eq (nonneg : 0 ≤ size) (int : size < 2 ^ 31) (fits : numblocksOf size ≤ tfsBlocksMax) :
    (numblocksOf size : Int) = (size + 511) / 512 := by
  obtain ⟨n,rfl⟩ := Int.eq_ofNat_of_zero_le nonneg
  have sum : toU32 ((n : Int) + (tfsBlockSize : Nat) - 1) = n + 511 := by
    rw [toU32_small (by unfold tfsBlockSize; omega) (by unfold tfsBlockSize; omega)]
    unfold tfsBlockSize
    omega
  by_cases small : n + 511 < 2 ^ 31
  · have quotient : ((n + 511 : Nat) : Int).tdiv (tfsBlockSize : Nat) = ((n + 511) / 512 : Nat) := rfl
    rw [numblocksOf,sum,toS32_small small,quotient,toU32_small (by omega) (by omega)]
    omega
  · have negative : toS32 (n + 511) = -((2 ^ 32 - (n + 511) : Nat) : Int) := by
      rw [toS32,if_neg small]
      omega
    have quotient : ((2 ^ 32 - (n + 511) : Nat) : Int).tdiv (tfsBlockSize : Nat) =
        ((2 ^ 32 - (n + 511)) / 512 : Nat) := rfl
    rw [numblocksOf,sum,negative,Int.neg_tdiv,quotient] at fits
    unfold toU32 tfsBlocksMax at fits
    omega

/-- The directory has got an entry whose blocks were free. -/
structure Added (g : Gbd) (filename : Name) (d d' : Disk) (index inode : Nat) (bs : List Nat) : Prop where
  slot : index < tfsMaxFiles
  vacant : entryInode (d tfsDirectoryBlock) index = 0
  fresh : ∀ k < tfsMaxFiles, entryName (d tfsDirectoryBlock) k ≠ filename
  short : bs.length ≤ tfsBlocksMax
  allocated : Allocated (totalblocks g) (inode :: bs) (d tfsAllocationBlock) (d' tfsAllocationBlock)
  entry : entryInode (d' tfsDirectoryBlock) index = inode
  name : entryName (d' tfsDirectoryBlock) index = filename
  entries : ∀ k, k ≠ index → entryInode (d' tfsDirectoryBlock) k = entryInode (d tfsDirectoryBlock) k ∧
    entryName (d' tfsDirectoryBlock) k = entryName (d tfsDirectoryBlock) k
  blocks : ∀ k (inside : k < bs.length), blockAt (d' inode) k = bs[k]
  unused : ∀ k, bs.length ≤ k → k < tfsBlocksMax → blockAt (d' inode) k = 0
  others : ∀ b, b ≠ tfsAllocationBlock → b ≠ tfsDirectoryBlock → b ∉ inode :: bs → d' b = d b

theorem Created.added (created : Created g filename size d d' index inode bs) : Added g filename d d' index inode bs :=
  ⟨created.slot,created.vacant,created.fresh,created.count ▸ created.fits,created.allocated,created.entry,created.name,
    created.entries,created.blocks,created.unused,created.others⟩

theorem Added.kept (added : Added g filename d d' index inode bs) (formed : WellFormed g d)
    (member : b ∈ fileBlocks d k) : d' b = d b := by
  obtain ⟨low,_⟩ := formed.inside k b member
  refine added.others b (by unfold tfsAllocationBlock; omega) (by unfold tfsDirectoryBlock; omega) ?_
  intro taken
  have free := (added.allocated.free b taken).2
  rw [formed.held.inUse k b member] at free
  contradiction

theorem Added.fileBlocks_other (added : Added g filename d d' index inode bs) (formed : WellFormed g d)
    (other : k ≠ index) : fileBlocks d' k = fileBlocks d k := by
  obtain ⟨same,_⟩ := added.entries k other
  unfold fileBlocks
  rw [same]
  by_cases used : k < tfsMaxFiles ∧ entryInode (d tfsDirectoryBlock) k ≠ 0
  · rw [if_pos used,if_pos used]
    have member : entryInode (d tfsDirectoryBlock) k ∈ fileBlocks d k := by
      rw [fileBlocks_used used.1 used.2]
      exact List.mem_cons_self
    rw [added.kept formed member]
  · rw [if_neg used,if_neg used]

theorem Added.high (added : Added g filename d d' index inode bs) (formed : WellFormed g d)
    (member : b ∈ inode :: bs) : 3 ≤ b ∧ b < totalblocks g := by
  obtain ⟨inside,free⟩ := added.allocated.free b member
  refine ⟨?_,inside⟩
  by_contra low
  rw [formed.system b (by omega)] at free
  contradiction

theorem Added.dataBlocks_new (added : Added g filename d d' index inode bs) (formed : WellFormed g d) :
    dataBlocks (d' inode) = bs := by
  refine dataBlocks_eq bs added.short ?_ added.blocks added.unused
  intro b member zero
  have := added.high formed (List.mem_cons_of_mem inode member)
  omega

theorem Added.fileBlocks_new (added : Added g filename d d' index inode bs) (formed : WellFormed g d) :
    fileBlocks d' index = inode :: bs := by
  have high := added.high formed List.mem_cons_self
  rw [fileBlocks_used added.slot (by rw [added.entry]; omega),added.entry,added.dataBlocks_new formed]

theorem Added.held (added : Added g filename d d' index inode bs) (formed : WellFormed g d) :
    Ledger (bit (d' tfsAllocationBlock)) (fileBlocks d') :=
  formed.held.takeAll (fileBlocks_free added.vacant) (fun b member => (added.allocated.free b member).2)
    added.allocated.nodup added.allocated.bits (added.fileBlocks_new formed)
    (fun _ other => added.fileBlocks_other formed other)

theorem Added.wellFormed (added : Added g filename d d' index inode bs) (formed : WellFormed g d)
    (good : IsFilename filename) (enough : (filesize (d' inode) + 511) / tfsBlockSize ≤ bs.length) : WellFormed g d' := by
  have used : entryInode (d' tfsDirectoryBlock) index ≠ 0 := by
    have := added.high formed List.mem_cons_self
    rw [added.entry]
    omega
  refine ⟨formed.size,?_,?_,?_,?_,?_,?_,?_,?_,?_⟩
  · intro b low
    rw [added.allocated.bits,formed.system b low]
    rfl
  · intro k inside used
    by_cases same : k = index
    · subst same; rw [added.name]; exact good.nonempty
    · obtain ⟨number,name⟩ := added.entries k same
      rw [name]
      exact formed.named k inside (number ▸ used)
  · intro k inside free
    by_cases same : k = index
    · subst same; exact absurd free used
    · obtain ⟨number,name⟩ := added.entries k same
      rw [name]
      exact formed.unnamed k inside (number ▸ free)
  · intro k inside
    by_cases same : k = index
    · subst same; rw [added.name]; exact good.short
    · rw [(added.entries k same).2]; exact formed.ended k inside
  · intro k l first second one two equal
    by_cases here : k = index <;> by_cases there : l = index
    · rw [here,there]
    · rw [here,added.name,(added.entries l there).2] at equal
      exact absurd equal.symm (added.fresh l second)
    · rw [there,added.name,(added.entries k here).2] at equal
      exact absurd equal (added.fresh k first)
    · rw [(added.entries k here).2,(added.entries l there).2] at equal
      rw [(added.entries k here).1] at one
      rw [(added.entries l there).1] at two
      exact formed.distinct k l first second one two equal
  · intro k b member
    by_cases same : k = index
    · subst same; rw [added.fileBlocks_new formed] at member; exact added.high formed member
    · rw [added.fileBlocks_other formed same] at member; exact formed.inside k b member
  · exact added.held formed
  · intro b low high taken
    rw [added.allocated.bits,Bool.or_eq_true] at taken
    obtain old | new := taken
    · obtain ⟨k,member⟩ := formed.owned b low high old
      have other : k ≠ index := by
        rintro rfl
        rw [fileBlocks_free added.vacant] at member
        simp at member
      exact ⟨k,by rw [added.fileBlocks_other formed other]; exact member⟩
    · exact ⟨index,by rw [added.fileBlocks_new formed]; exact of_decide_eq_true new⟩
  · intro k inside used
    by_cases same : k = index
    · subst same
      rw [added.entry,added.dataBlocks_new formed]
      exact enough
    · have number := (added.entries k same).1
      rw [number] at used ⊢
      have member : entryInode (d tfsDirectoryBlock) k ∈ fileBlocks d k := by
        rw [fileBlocks_used inside used]
        exact List.mem_cons_self
      rw [added.kept formed member]
      exact formed.enough k inside used

theorem Created.wellFormed (created : Created g filename size d d' index inode bs) (formed : WellFormed g d)
    (good : IsFilename filename) (nonneg : 0 ≤ size) (int : size < 2 ^ 31) : WellFormed g d' := by
  apply created.added.wellFormed formed good
  have blocks := numblocksOf_eq nonneg int created.fits
  rw [created.filesize,created.count,toU32_small nonneg (by omega)]
  unfold tfsBlockSize
  omega

theorem tfsCreate_wellFormed (reliable : Reliable g) (formed : WellFormed g m.disk) (good : IsFilename filename)
    (nonneg : 0 ≤ size) (int : size < 2 ^ 31) : WellFormed g (tfsCreate g filename size m).2.disk := by
  obtain ⟨_,same⟩ | ⟨index,inode,bs,_,created,_⟩ := tfsCreate_effect reliable formed good size
  · rwa [same]
  · exact created.wellFormed formed good nonneg int

def sampleName : Name := [97]

/-- A volume with one file of 600 bytes, its inode in block 3. -/
def sampleFile : Machine := (tfsCreate sampleGbd sampleName 600 sampleMachine).2

theorem sampleFile_wellFormed : WellFormed sampleGbd sampleFile.disk := by
  have good : IsFilename sampleName := ⟨by decide,by decide,by decide⟩
  have formed := tfsCreate_wellFormed (fun _ => rfl) sampleMachine_wellFormed good (show (0 : Int) ≤ 600 by decide)
    (by decide)
  rwa [← sampleFile] at formed

end Buenos.Fs.Tfs
