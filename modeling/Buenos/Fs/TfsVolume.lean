import Buenos.Fs.Tfs
import Buenos.Foundation.Ledger

/-! Well-formed TFS volumes. The blocks of a file are held by its directory entry, and the
allocation block says which blocks are in use. -/
namespace Buenos.Fs.Tfs

open Buenos.Foundation Buenos.Lib

abbrev Disk := Nat → Bytes

def entryName (md : Bytes) (k : Nat) : Name := cstring md (namePosition k) tfsFilenameMax

/-- The non-zero block numbers an inode starts with. -/
def dataBlocks (inode : Bytes) : List Nat :=
  ((List.range tfsBlocksMax).map (blockAt inode)).takeWhile (· ≠ 0)

/-- The inode block of an entry and its data blocks, none for a free entry. -/
def fileBlocks (d : Disk) (k : Nat) : List Nat :=
  if k < tfsMaxFiles ∧ entryInode (d tfsDirectoryBlock) k ≠ 0 then
    entryInode (d tfsDirectoryBlock) k :: dataBlocks (d (entryInode (d tfsDirectoryBlock) k))
  else []

structure WellFormed (g : Gbd) (d : Disk) : Prop where
  size : 3 ≤ g.blocks
  system : ∀ b < 3, bit (d tfsAllocationBlock) b = true
  named : ∀ k < tfsMaxFiles, entryInode (d tfsDirectoryBlock) k ≠ 0 → entryName (d tfsDirectoryBlock) k ≠ []
  unnamed : ∀ k < tfsMaxFiles, entryInode (d tfsDirectoryBlock) k = 0 → entryName (d tfsDirectoryBlock) k = []
  ended : ∀ k < tfsMaxFiles, (entryName (d tfsDirectoryBlock) k).length < tfsFilenameMax
  distinct : ∀ k l, k < tfsMaxFiles → l < tfsMaxFiles → entryInode (d tfsDirectoryBlock) k ≠ 0 →
    entryInode (d tfsDirectoryBlock) l ≠ 0 →
    entryName (d tfsDirectoryBlock) k = entryName (d tfsDirectoryBlock) l → k = l
  inside : ∀ k, ∀ b ∈ fileBlocks d k, 3 ≤ b ∧ b < totalblocks g
  held : Ledger (bit (d tfsAllocationBlock)) (fileBlocks d)
  owned : ∀ b, 3 ≤ b → b < totalblocks g → bit (d tfsAllocationBlock) b = true → ∃ k, b ∈ fileBlocks d k
  enough : ∀ k < tfsMaxFiles, entryInode (d tfsDirectoryBlock) k ≠ 0 →
    (filesize (d (entryInode (d tfsDirectoryBlock) k)) + 511) / tfsBlockSize ≤
      (dataBlocks (d (entryInode (d tfsDirectoryBlock) k))).length

/-- A C string of 1 to 15 characters, as path parsing leaves it. -/
structure IsFilename (filename : Name) : Prop where
  nonempty : filename ≠ []
  short : filename.length < tfsFilenameMax
  clean : 0 ∉ filename

/-- Every request for a block of the disk succeeds. -/
def Reliable (g : Gbd) : Prop := ∀ n, g.succeeds n = true

/-! ### The block device -/

def Machine.afterRead (m : Machine) (block : Nat) (b : Buffer) : Machine :=
  Machine.load { m with log := m.log ++ [⟨false, block, m.memory b, true⟩] } b (m.disk block)

def Machine.afterWrite (m : Machine) (block : Nat) (b : Buffer) : Machine :=
  Machine.store { m with log := m.log ++ [⟨true, block, m.memory b, true⟩] } block (m.memory b)

def Machine.refused (m : Machine) (write : Bool) (block : Nat) (b : Buffer) : Machine :=
  { m with log := m.log ++ [⟨write, block, m.memory b, false⟩] }

section Device
variable {g : Gbd} {m : Machine} {block : Nat} {b : Buffer} {next : Machine → Int × Machine}

theorem ok_inside (inside : block < g.blocks) : g.ok m block = g.succeeds m.log.length := by
  simp [Gbd.ok,inside]

theorem readBlock_eq : readBlock g block b m next =
    if g.ok m block then next (m.afterRead block b) else (vfsError, m.refused false block b) := by
  unfold readBlock
  cases g.ok m block <;> rfl

theorem writeBlock_eq : writeBlock g block b m next =
    if g.ok m block then next (m.afterWrite block b) else (vfsError, m.refused true block b) := by
  unfold writeBlock
  cases g.ok m block <;> rfl

theorem readBlock_ok (reliable : Reliable g) (inside : block < g.blocks) :
    readBlock g block b m next = next (m.afterRead block b) := by
  rw [readBlock_eq,ok_inside inside,reliable,if_pos rfl]

theorem writeBlock_ok (reliable : Reliable g) (inside : block < g.blocks) :
    writeBlock g block b m next = next (m.afterWrite block b) := by
  rw [writeBlock_eq,ok_inside inside,reliable,if_pos rfl]

@[simp] theorem load_memory_self (bytes : Bytes) : (m.load b bytes).memory b = bytes := by
  simp [Machine.load]

theorem load_memory_of_ne (bytes : Bytes) (other : c ≠ b) : (m.load b bytes).memory c = m.memory c := by
  simp [Machine.load,Function.update_of_ne other]

@[simp] theorem load_disk (bytes : Bytes) : (m.load b bytes).disk = m.disk := rfl
@[simp] theorem load_user (bytes : Bytes) : (m.load b bytes).user = m.user := rfl

@[simp] theorem afterRead_self : (m.afterRead block b).memory b = m.disk block := by
  simp [Machine.afterRead]

theorem afterRead_of_ne (other : c ≠ b) : (m.afterRead block b).memory c = m.memory c := by
  simp [Machine.afterRead,load_memory_of_ne _ other]

@[simp] theorem afterRead_disk : (m.afterRead block b).disk = m.disk := rfl
@[simp] theorem afterRead_user : (m.afterRead block b).user = m.user := rfl
@[simp] theorem afterWrite_memory : (m.afterWrite block b).memory = m.memory := rfl
@[simp] theorem afterWrite_user : (m.afterWrite block b).user = m.user := rfl
@[simp] theorem afterWrite_disk : (m.afterWrite block b).disk = Function.update m.disk block (m.memory b) := rfl

end Device

/-! ### Blocks of a file -/

theorem dataBlocks_length (inode : Bytes) : (dataBlocks inode).length ≤ tfsBlocksMax := by
  have shorter := (List.takeWhile_sublist (fun n => decide (n ≠ 0))
    (l := (List.range tfsBlocksMax).map (blockAt inode))).length_le
  simpa [dataBlocks] using shorter

theorem dataBlocks_get (inside : i < (dataBlocks inode).length) : (dataBlocks inode)[i] = blockAt inode i := by
  have start := (List.takeWhile_prefix (fun n => decide (n ≠ 0))
    (l := (List.range tfsBlocksMax).map (blockAt inode)))
  have small := Nat.lt_of_lt_of_le inside (dataBlocks_length inode)
  have same := List.IsPrefix.getElem start inside
  simpa [dataBlocks] using same

theorem dataBlocks_eq (bs : List Nat) (short : bs.length ≤ tfsBlocksMax) (nonzero : ∀ b ∈ bs, b ≠ 0)
    (same : ∀ i (small : i < bs.length), blockAt inode i = bs[i])
    (ended : ∀ i, bs.length ≤ i → i < tfsBlocksMax → blockAt inode i = 0) : dataBlocks inode = bs := by
  have whole : (List.range tfsBlocksMax).map (blockAt inode) = bs ++ List.replicate (tfsBlocksMax - bs.length) 0 := by
    refine List.ext_getElem (by simp; omega) ?_
    intro i first second
    simp only [List.length_map,List.length_range] at first
    rw [List.getElem_map,List.getElem_range,List.getElem_append]
    split
    · next small => exact same i small
    · next large => rw [List.getElem_replicate]; exact ended i (by omega) first
  have stops : ∀ rest, (List.replicate rest 0).takeWhile (fun n : Nat => decide (n ≠ 0)) = [] := by
    intro rest
    cases rest with
    | zero => rfl
    | succ rest => rw [List.replicate_succ,List.takeWhile_cons_of_neg (by simp)]
  have front : ∀ rest, (bs ++ List.replicate rest 0).takeWhile (fun n : Nat => decide (n ≠ 0)) =
      bs ++ (List.replicate rest 0).takeWhile (fun n : Nat => decide (n ≠ 0)) := by
    intro rest
    refine List.takeWhile_append_of_pos ?_
    intro b member
    simpa using nonzero b member
  rw [dataBlocks,whole,front,stops,List.append_nil]

/-! ### Directory entries -/

section Directory
variable {md : Bytes}

theorem cstring_at (b c : Bytes) (k : Nat) (same : ∀ j, namePosition k ≤ j → j < namePosition k + tfsFilenameMax →
    b j = c j) : entryName b k = entryName c k := cstring_congr same

@[simp] theorem entryInode_setEntryInode_self (i value : Nat) :
    entryInode (setEntryInode md i value) i = value % 2 ^ 32 := word_setWord_self md (5 * i) value

theorem entryInode_setEntryInode (value : Nat) (other : k ≠ i) :
    entryInode (setEntryInode md i value) k = entryInode md k := word_setWord_other md value (by omega)

@[simp] theorem entryName_setEntryInode (i value k : Nat) :
    entryName (setEntryInode md i value) k = entryName md k := by
  refine cstring_at _ _ k fun j low high => setWord_other md value ?_
  unfold namePosition tfsFilenameMax at *
  omega

@[simp] theorem entryInode_stringcopy (i k : Nat) (filename : Name) :
    entryInode (stringcopy md (namePosition i) (tfsFilenameMax - 1) filename) k = entryInode md k := by
  refine word_congr fun j inside => stringcopy_other md _ _ filename j ?_
  unfold namePosition tfsFilenameMax
  omega

theorem entryName_stringcopy_self (good : IsFilename filename) (i : Nat) :
    entryName (stringcopy md (namePosition i) (tfsFilenameMax - 1) filename) i = filename :=
  cstring_stringcopy good.clean (Nat.le_sub_one_of_lt good.short) good.short

theorem entryName_stringcopy (filename : Name) (other : k ≠ i) :
    entryName (stringcopy md (namePosition i) (tfsFilenameMax - 1) filename) k = entryName md k := by
  refine cstring_at _ _ k fun j low high => stringcopy_other md _ _ filename j ?_
  unfold namePosition tfsFilenameMax at *
  omega

theorem entryInode_clearName (i k : Nat) : entryInode (Function.update md (namePosition i) 0) k = entryInode md k := by
  refine word_update_other md 0 ?_
  unfold namePosition
  omega

theorem entryName_clearName_self (i : Nat) : entryName (Function.update md (namePosition i) 0) i = [] := by
  simp [entryName,tfsFilenameMax,cstring]

theorem entryName_clearName (other : k ≠ i) :
    entryName (Function.update md (namePosition i) 0) k = entryName md k := by
  refine cstring_at _ _ k fun j low high => Function.update_of_ne ?_ _ _
  unfold namePosition tfsFilenameMax at *
  omega

theorem entryIs_iff (clean : 0 ∉ filename) (ended : (entryName md k).length < tfsFilenameMax) :
    entryIs md k filename = true ↔ entryName md k = filename := by
  rw [entryIs,beq_iff_eq]
  exact stringcmp_eq_zero clean ended

end Directory

theorem findEntry_some (formed : WellFormed g d) (clean : 0 ∉ filename)
    (found : findEntry (d tfsDirectoryBlock) filename = some k) :
    k < tfsMaxFiles ∧ entryName (d tfsDirectoryBlock) k = filename := by
  have inside := List.mem_range.mp (List.mem_of_find?_eq_some found)
  have same : entryIs (d tfsDirectoryBlock) k filename = true := by
    unfold findEntry at found
    simpa using List.find?_some found
  exact ⟨inside,(entryIs_iff clean (formed.ended k inside)).mp same⟩

theorem findEntry_none (formed : WellFormed g d) (clean : 0 ∉ filename)
    (missing : findEntry (d tfsDirectoryBlock) filename = none) (k : Nat) (inside : k < tfsMaxFiles) :
    entryName (d tfsDirectoryBlock) k ≠ filename := by
  intro same
  have absent := List.find?_eq_none.mp missing k (List.mem_range.mpr inside)
  exact absent ((entryIs_iff clean (formed.ended k inside)).mpr same)

theorem WellFormed.used (formed : WellFormed g d) (inside : k < tfsMaxFiles)
    (name : entryName (d tfsDirectoryBlock) k ≠ []) : entryInode (d tfsDirectoryBlock) k ≠ 0 := by
  intro free
  exact name (formed.unnamed k inside free)

theorem fileBlocks_used (inside : k < tfsMaxFiles) (used : entryInode (d tfsDirectoryBlock) k ≠ 0) :
    fileBlocks d k = entryInode (d tfsDirectoryBlock) k :: dataBlocks (d (entryInode (d tfsDirectoryBlock) k)) :=
  if_pos ⟨inside,used⟩

theorem WellFormed.inode_inside (formed : WellFormed g d) (inside : k < tfsMaxFiles)
    (used : entryInode (d tfsDirectoryBlock) k ≠ 0) :
    3 ≤ entryInode (d tfsDirectoryBlock) k ∧ entryInode (d tfsDirectoryBlock) k < totalblocks g := by
  refine formed.inside k _ ?_
  rw [fileBlocks_used inside used]
  exact List.mem_cons_self

theorem fileBlocks_free (free : entryInode (d tfsDirectoryBlock) k = 0) : fileBlocks d k = [] :=
  if_neg fun both => both.2 free

theorem totalblocks_le (g : Gbd) : totalblocks g ≤ g.blocks ∧ totalblocks g ≤ 4096 :=
  ⟨Nat.min_le_left _ _,Nat.min_le_right _ _⟩

/-! ### A new volume -/

def tfsMagic : Nat := 3745
def tfsVolumenameMax : Nat := 16

/-- `tfstool_createvol` of `util/tfstool.c`; it gives up on a disk without room for the three
system blocks. Its bitmap functions keep the words in the byte order of the kernel. -/
def tfstoolCreatevol (size : Nat) (volumename : Bytes) : Option Disk :=
  if size < 3 then none
  else
    let header := copyBytes (setWord (fun _ => 0) 0 tfsMagic) 4 volumename 0 tfsVolumenameMax
    let bat := bitmapSet (bitmapSet (bitmapSet (fun _ => 0) 0 true) tfsAllocationBlock true) tfsDirectoryBlock true
    some fun b => if b = 0 then header else if b = tfsAllocationBlock then bat else fun _ => 0

theorem tfstoolCreatevol_wellFormed (created : tfstoolCreatevol g.blocks volumename = some d) : WellFormed g d := by
  unfold tfstoolCreatevol at created
  split at created
  · contradiction
  next room =>
  injection created with disk
  have bits : ∀ b, bit (d tfsAllocationBlock) b = decide (b < 3) := by
    intro b
    have zero : bit (fun _ => 0) b = false := by
      rw [bit,word_zero fun _ _ => rfl,Nat.zero_testBit]
    have below : (b < 3) = (b = 2 ∨ b = 1 ∨ b = 0) := by
      rw [eq_iff_iff]
      omega
    rw [← disk]
    simp only [if_neg (show tfsAllocationBlock ≠ 0 by decide),if_true,bit_bitmapSet,zero,below]
    unfold tfsDirectoryBlock tfsAllocationBlock
    by_cases two : b = 2
    · simp [two]
    · by_cases one : b = 1
      · simp [one]
      · by_cases none : b = 0
        · simp [none]
        · simp [two,one,none]
  have directory : d tfsDirectoryBlock = fun _ => 0 := by
    rw [← disk]
    rfl
  have free : ∀ k, entryInode (d tfsDirectoryBlock) k = 0 := by
    intro k
    rw [directory]
    exact word_zero fun _ _ => rfl
  have unnamed : ∀ k, entryName (d tfsDirectoryBlock) k = [] := by
    intro k
    rw [directory]
    rfl
  have empty : ∀ k, fileBlocks d k = [] := fun k => fileBlocks_free (free k)
  refine ⟨by omega,?_,?_,fun k _ _ => unnamed k,?_,?_,?_,⟨?_,?_,?_⟩,?_,?_⟩
  · intro b low
    rw [bits]
    exact decide_eq_true low
  · intro k _ used
    exact absurd (free k) used
  · intro k _
    rw [unnamed]
    decide
  · intro k l _ _ used
    exact absurd (free k) used
  · intro k b member
    simp [empty] at member
  · intro k b member
    simp [empty] at member
  · intro k
    simp [empty]
  · intro k l _ b member
    simp [empty] at member
  · intro b low _ taken
    rw [bits] at taken
    have := of_decide_eq_true taken
    omega
  · intro k _ used
    exact absurd (free k) used

/-- A disk of 8 blocks that never fails, with a new volume on it. -/
def sampleGbd : Gbd := ⟨8,fun _ => true⟩

def sampleMachine : Machine :=
  ⟨fun _ _ => 0,(tfstoolCreatevol 8 fun _ => 0).getD fun _ _ => 0,fun _ => 0,[]⟩

theorem sampleMachine_wellFormed : WellFormed sampleGbd sampleMachine.disk := by
  have created : tfstoolCreatevol sampleGbd.blocks (fun _ => 0) = some sampleMachine.disk := rfl
  exact tfstoolCreatevol_wellFormed created

end Buenos.Fs.Tfs
