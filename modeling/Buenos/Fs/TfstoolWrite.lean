import Buenos.Fs.Tfstool

/-! When `tfstool write` succeeds. Its loop takes a block before it reads, and sees the end of the
source only by a read that comes back short: a size that is a multiple of the block size costs a
block more than the file needs. -/
namespace Buenos.Fs.Tfstool

open Buenos.Foundation Buenos.Lib Buenos.Fs.Tfs

/-- The blocks that the loop asks for, from the `i`-th on, with `length` bytes left. -/
def asked (length i : Nat) : Nat := min (length / tfsBlockSize + 1) (tfsBlocksMax - i)

theorem asked_last (length : Nat) : asked length 127 = 0 := Nat.min_zero _

theorem asked_short (short : length < tfsBlockSize) (below : i < tfsBlocksMax) : asked length i = 1 := by
  rw [asked,Nat.div_eq_of_lt short]
  omega

theorem asked_long (long : tfsBlockSize ≤ length) (below : i < tfsBlocksMax) :
    asked (length - tfsBlockSize) (i + 1) + 1 = asked length i := by
  unfold asked tfsBlocksMax tfsBlockSize at *
  omega

section Loop
variable {numBlocks : Nat} (o : ByteOrder)

/-- Only blocks that were free are written. -/
theorem copyBlocks_kept (small : numBlocks ≤ 4096) (left i : Nat) (source : List UInt8) (c : Copy)
    (taken : bit c.bat b = true) : (copyBlocks o numBlocks left i source c).disk b = c.disk b := by
  induction left generalizing i source c with
  | zero => rfl
  | succ left ih =>
    rw [copyBlocks]
    split
    swap
    · rfl
    dsimp only
    split
    swap
    · rfl
    next found =>
    obtain ⟨n,-,free,value,after⟩ := findnset_found o c.bat small found.2
    have apart : b ≠ n := by
      rintro rfl
      rw [free] at taken
      contradiction
    have stored : (c.fetch o i (toU32 (bitmapFindnset o c.bat numBlocks).1) (bitmapFindnset o c.bat numBlocks).2
        source).disk b = c.disk b := by
      rw [value]
      exact Function.update_of_ne apart _ _
    split
    · exact stored
    · rw [ih _ _ _ ?_,stored]
      simp [Copy.fetch,after,taken]

/-- The loop ends well exactly if all the blocks it asks for are free. -/
theorem copyBlocks_count (small : numBlocks ≤ 4096) (left i : Nat) (source : List UInt8) (c : Copy)
    (system : ∀ b < 3, bit c.bat b = true)
    (full : c.filesize = 512 * i) (inside : i ≤ tfsBlocksMax) (turns : (freeIn numBlocks c.bat).card < left)
    (fine : c.writeok = true) :
    if asked source.length i ≤ (freeIn numBlocks c.bat).card then
      (copyBlocks o numBlocks left i source c).writeok = true ∧
      (copyBlocks o numBlocks left i source c).filesize = min (512 * i + source.length) tfsMaxFilesize ∧
      (freeIn numBlocks (copyBlocks o numBlocks left i source c).bat).card + asked source.length i =
        (freeIn numBlocks c.bat).card
    else (copyBlocks o numBlocks left i source c).writeok = false := by
  induction left generalizing i source c with
  | zero => omega
  | succ left ih =>
    have limit : tfsMaxFilesize = 512 * 127 := rfl
    rw [copyBlocks]
    by_cases room : c.filesize < tfsMaxFilesize
    swap
    · have last : i = 127 := by unfold tfsBlocksMax at inside; omega
      have none_ : asked source.length i = 0 := last ▸ asked_last source.length
      rw [if_neg room,if_pos (by omega)]
      exact ⟨fine,by omega,by omega⟩
    have below : i < tfsBlocksMax := show i < 127 by omega
    simp only [if_pos room]
    rcases bitmapFindnset_spec o c.bat numBlocks with ⟨n,low,free,-,result⟩ | ⟨taken,result⟩
    swap
    · have empty := freeIn_full.mpr taken
      have some_ : 1 ≤ asked source.length i := by unfold asked tfsBlocksMax tfsBlockSize at *; omega
      have far : ¬toU32 (-1) < numBlocks := by
        have value : toU32 (-1) = 4294967295 := by decide
        omega
      rw [result,if_neg (by omega)]
      simp [far]
    have high : 2 < n := by
      by_contra few
      have set_ := system n (by omega)
      rw [free] at set_
      contradiction
    have number : toU32 (n : Int) = n := by
      rw [toU32_small (Int.natCast_nonneg n) (by omega)]
      exact Int.toNat_natCast n
    have fewer := freeIn_bitmapSet low free
    rw [result]
    simp only [number,if_pos (show 2 < n ∧ n < numBlocks from ⟨high,low⟩)]
    by_cases short : source.length < tfsBlockSize
    · have one := asked_short short below
      have most : source.length < 512 := short
      have index : i < 127 := below
      rw [if_pos short,if_pos (by omega)]
      refine ⟨fine,?_,?_⟩
      · simp only [Copy.fetch]
        unfold tfsBlockSize
        omega
      · simp only [Copy.fetch]
        omega
    · have long : tfsBlockSize ≤ source.length := Nat.le_of_not_lt short
      have next := ih (i + 1) (source.drop tfsBlockSize) (c.fetch o i n (Lib.bitmapSet c.bat n true) source)
        ?_ ?_ below ?_ fine
      · have rest := asked_long long below
        have length : 512 * (i + 1) + (source.drop tfsBlockSize).length = 512 * i + source.length := by
          rw [List.length_drop]
          unfold tfsBlockSize at *
          omega
        have bat : (c.fetch o i n (Lib.bitmapSet c.bat n true) source).bat = Lib.bitmapSet c.bat n true := rfl
        rw [length,bat,List.length_drop] at next
        rw [if_neg short]
        by_cases enough : asked source.length i ≤ (freeIn numBlocks c.bat).card
        · rw [if_pos (by omega)] at next ⊢
          exact ⟨next.1,next.2.1,by omega⟩
        · rw [if_neg (by omega)] at next ⊢
          exact next
      · intro b few
        simp [Copy.fetch,system b few]
      · simp only [Copy.fetch]
        unfold tfsBlockSize at *
        omega
      · simp only [Copy.fetch]
        omega

end Loop

/-! ### The directory -/

/-- The name is new and an entry is free. -/
def Vacant (d : Disk) (target : Name) : Prop :=
  (∀ k < tfsMaxFiles, entryName (d tfsDirectoryBlock) k ≠ target) ∧
    ∃ k < tfsMaxFiles, entryInode (d tfsDirectoryBlock) k = 0

section Directory
variable {o : ByteOrder} {md : Bytes} {target : Name}

theorem scanDirectory_none (scanned : scanDirectory o md target ks index = none) :
    ∃ k ∈ ks, strncmp md tfsFilenameMax (namePosition k) target = 0 := by
  induction ks generalizing index with
  | nil => contradiction
  | cons k rest ih =>
    rw [scanDirectory] at scanned
    split at scanned
    · next same => exact ⟨k,List.mem_cons_self,same⟩
    · obtain ⟨l,member,same⟩ := ih scanned
      exact ⟨l,List.mem_cons_of_mem k member,same⟩

theorem scanDirectory_free (scanned : scanDirectory o md target ks index = some result) (negative : result < 0)
    (start : index = -1) : ∀ k ∈ ks, entryInode md k ≠ 0 := by
  have keeps : ∀ ks index, 0 ≤ index → scanDirectory o md target ks index = some result → 0 ≤ result := by
    intro ks
    induction ks with
    | nil =>
      rintro index nonneg ⟨⟩
      exact nonneg
    | cons k rest ih =>
      intro index nonneg scanned
      rw [scanDirectory] at scanned
      split at scanned
      · contradiction
      · rw [if_neg (by omega)] at scanned
        exact ih index nonneg scanned
  induction ks generalizing index with
  | nil => simp
  | cons k rest ih =>
    subst start
    rw [scanDirectory] at scanned
    split at scanned
    · contradiction
    by_cases free : o.load md (5 * k) = 0
    · rw [if_pos ⟨free,rfl⟩] at scanned
      have nonneg := keeps rest k (Int.natCast_nonneg k) scanned
      omega
    · rw [if_neg (fun both => free both.1)] at scanned
      have used : entryInode md k ≠ 0 := fun zero => free ((o.load_eq_zero md (5 * k)).mpr zero)
      simpa [used] using ih scanned rfl

end Directory

/-- The scan of the directory ends with a free entry exactly for a new name. -/
theorem scanDirectory_vacant {d : Disk} (ended : ∀ k < tfsMaxFiles, (entryName (d tfsDirectoryBlock) k).length < tfsFilenameMax)
    (clean : 0 ∉ target) (o : ByteOrder) :
    (Vacant d target ∧ ∃ k : Nat,
      scanDirectory o (d tfsDirectoryBlock) target (List.range tfsMaxFiles) (-1) = some (k : Int)) ∨
    (¬Vacant d target ∧ ∀ index,
      scanDirectory o (d tfsDirectoryBlock) target (List.range tfsMaxFiles) (-1) = some index → index < 0) := by
  cases scanned : scanDirectory o (d tfsDirectoryBlock) target (List.range tfsMaxFiles) (-1) with
  | none =>
    obtain ⟨k,member,same⟩ := scanDirectory_none scanned
    have slot := List.mem_range.mp member
    exact .inr ⟨fun vacant => vacant.1 k slot ((strncmp_eq_zero clean (ended k slot)).mp same),by simp⟩
  | some index =>
    by_cases negative : index < 0
    · refine .inr ⟨?_,by simpa using negative⟩
      rintro ⟨-,k,slot,free⟩
      exact scanDirectory_free scanned negative rfl k (List.mem_range.mpr slot) free
    · obtain ⟨different,chosen⟩ := scanDirectory_some scanned
      obtain same | ⟨k,member,vacant,rfl⟩ := chosen
      · omega
      refine .inl ⟨⟨fun l there same => ?_,k,List.mem_range.mp member,vacant⟩,k,rfl⟩
      exact different l (List.mem_range.mpr there) ((strncmp_eq_zero clean (ended l there)).mpr same)

/-! ### The whole call -/

section Call
variable {g : Gbd} {d : Disk} {target : Name} (formed : WellFormed g d) (small : g.blocks ≤ 4096)
  (good : IsFilename target)
include formed small good

theorem tfstoolWrite_cases (o : ByteOrder) (stack : Bytes) (source : List UInt8) :
    (¬(Vacant d target ∧ 1 ≤ (freeIn g.blocks (d tfsAllocationBlock)).card) ∧
      (tfstoolWrite o g.blocks stack source target d).1 ≠ .written ∧
      (tfstoolWrite o g.blocks stack source target d).2 = d) ∨
    ∃ index n, Vacant d target ∧ n < g.blocks ∧ bit (d tfsAllocationBlock) n = false ∧
      tfstoolWrite o g.blocks stack source target d = finishWrite o (d tfsDirectoryBlock) index n source target
        (copyBlocks o g.blocks g.blocks 0 source
          ⟨stack, fun _ => 0, Lib.bitmapSet (d tfsAllocationBlock) n true, d, 0, true⟩) := by
  unfold tfstoolWrite
  simp only [readBlock_system formed (show tfsDirectoryBlock < 3 by decide),
    readBlock_system formed (show tfsAllocationBlock < 3 by decide)]
  rcases scanDirectory_vacant formed.ended good.clean o with ⟨vacant,k,scanned⟩ | ⟨crowded,scanned⟩
  swap
  · refine .inl ⟨fun room => crowded room.1,?_⟩
    split
    · simp
    · next index found => simp [scanned index found]
  simp only [scanned,if_neg (show ¬(k : Int) < 0 by omega)]
  rcases bitmapFindnset_spec o (d tfsAllocationBlock) g.blocks with ⟨n,low,free,-,result⟩ | ⟨taken,result⟩
  · have high : 2 < n := by
      by_contra few
      have set_ := formed.system n (by omega)
      rw [free] at set_
      contradiction
    have number : toU32 (n : Int) = n := by
      rw [toU32_small (Int.natCast_nonneg n) (by omega)]
      exact Int.toNat_natCast n
    rw [result]
    simp only [number,if_pos (show 2 < n ∧ n < g.blocks from ⟨high,low⟩)]
    exact .inr ⟨_,n,vacant,low,free,rfl⟩
  · have far : ¬toU32 (-1) < g.blocks := by
      have value : toU32 (-1) = 4294967295 := by decide
      omega
    rw [result]
    simp only [far,and_false,if_false]
    refine .inl ⟨?_,by simp,trivial⟩
    rintro ⟨-,some_⟩
    obtain ⟨b,member⟩ := Finset.card_pos.mp some_
    obtain ⟨inside,clear⟩ := Finset.mem_filter.mp member
    rw [taken b (Finset.mem_range.mp inside)] at clear
    contradiction

omit good in
theorem copyBlocks_call (o : ByteOrder) (stack : Bytes) (source : List UInt8) (low : n < g.blocks)
    (free : bit (d tfsAllocationBlock) n = false) :
    (freeIn g.blocks (Lib.bitmapSet (d tfsAllocationBlock) n true)).card + 1 =
      (freeIn g.blocks (d tfsAllocationBlock)).card ∧
    if asked source.length 0 + 1 ≤ (freeIn g.blocks (d tfsAllocationBlock)).card then
      (copyBlocks o g.blocks g.blocks 0 source
        ⟨stack, fun _ => 0, Lib.bitmapSet (d tfsAllocationBlock) n true, d, 0, true⟩).writeok = true ∧
      (copyBlocks o g.blocks g.blocks 0 source
        ⟨stack, fun _ => 0, Lib.bitmapSet (d tfsAllocationBlock) n true, d, 0, true⟩).filesize =
          min source.length tfsMaxFilesize ∧
      (freeIn g.blocks (copyBlocks o g.blocks g.blocks 0 source
        ⟨stack, fun _ => 0, Lib.bitmapSet (d tfsAllocationBlock) n true, d, 0, true⟩).bat).card +
          asked source.length 0 + 1 = (freeIn g.blocks (d tfsAllocationBlock)).card
    else (copyBlocks o g.blocks g.blocks 0 source
      ⟨stack, fun _ => 0, Lib.bitmapSet (d tfsAllocationBlock) n true, d, 0, true⟩).writeok = false := by
  have fewer := freeIn_bitmapSet low free
  refine ⟨fewer,?_⟩
  have system : ∀ b < 3, bit (Lib.bitmapSet (d tfsAllocationBlock) n true) b = true := by
    intro b few
    rw [bit_bitmapSet,formed.system b few]
    split <;> rfl
  have turns : (freeIn g.blocks (Lib.bitmapSet (d tfsAllocationBlock) n true)).card < g.blocks := by
    have most := Finset.card_filter_le (Finset.range g.blocks) fun b => bit (d tfsAllocationBlock) b = false
    rw [Finset.card_range] at most
    unfold freeIn at fewer ⊢
    omega
  have loop := copyBlocks_count o small g.blocks 0 source
    ⟨stack, fun _ => 0, Lib.bitmapSet (d tfsAllocationBlock) n true, d, 0, true⟩ system rfl (Nat.zero_le _) turns rfl
  by_cases enough : asked source.length 0 + 1 ≤ (freeIn g.blocks (d tfsAllocationBlock)).card
  · rw [if_pos enough]
    rw [if_pos (by dsimp only; omega)] at loop
    exact ⟨loop.1,by simpa using loop.2.1,by have count := loop.2.2; dsimp only at count; omega⟩
  · rw [if_neg enough]
    rwa [if_neg (by dsimp only; omega)] at loop

theorem tfstoolWrite_written_iff (o : ByteOrder) (stack : Bytes) (source : List UInt8) :
    (tfstoolWrite o g.blocks stack source target d).1 = .written ↔
      Vacant d target ∧ source.length ≤ tfsMaxFilesize ∧
        asked source.length 0 + 1 ≤ (freeIn g.blocks (d tfsAllocationBlock)).card := by
  rcases tfstoolWrite_cases formed small good o stack source with ⟨unfit,failed,-⟩ | ⟨index,n,vacant,low,free,result⟩
  · refine ⟨fun wrote => absurd wrote failed,?_⟩
    rintro ⟨vacant,-,space⟩
    exact absurd ⟨vacant,by omega⟩ unfit
  · rw [result]
    obtain ⟨fewer,loop⟩ := copyBlocks_call formed small o stack source low free
    constructor
    · intro wrote
      obtain ⟨size,ok,-⟩ := finishWrite_written wrote
      by_cases enough : asked source.length 0 + 1 ≤ (freeIn g.blocks (d tfsAllocationBlock)).card
      · rw [if_pos enough] at loop
        exact ⟨vacant,by omega,enough⟩
      · rw [if_neg enough,ok] at loop
        contradiction
    · rintro ⟨-,size,space⟩
      rw [if_pos space] at loop
      unfold finishWrite
      rw [if_neg (by simpa [loop.2.1] using by omega),if_pos loop.1]

/-- A call that fails changes only blocks that are free. -/
theorem tfstoolWrite_kept (o : ByteOrder) (stack : Bytes) (source : List UInt8)
    (failed : (tfstoolWrite o g.blocks stack source target d).1 ≠ .written)
    (taken : bit (d tfsAllocationBlock) b = true) : (tfstoolWrite o g.blocks stack source target d).2 b = d b := by
  rcases tfstoolWrite_cases formed small good o stack source with ⟨-,-,same⟩ | ⟨index,n,-,low,free,result⟩
  · rw [same]
  · rw [result] at failed ⊢
    have kept := copyBlocks_kept o small g.blocks 0 source
      ⟨stack, fun _ => 0, Lib.bitmapSet (d tfsAllocationBlock) n true, d, 0, true⟩ (b := b) (by simp [taken])
    unfold finishWrite at failed ⊢
    split
    · exact kept
    · split
      · next size ok =>
        rw [if_neg size,if_pos ok] at failed
        exact absurd rfl failed
      · exact kept

/-- A call that succeeds takes the inode block and every block that the loop asks for. -/
theorem tfstoolWrite_spent (o : ByteOrder) (stack : Bytes) (source : List UInt8)
    (wrote : (tfstoolWrite o g.blocks stack source target d).1 = .written) :
    (freeIn g.blocks ((tfstoolWrite o g.blocks stack source target d).2 tfsAllocationBlock)).card +
      asked source.length 0 + 1 = (freeIn g.blocks (d tfsAllocationBlock)).card := by
  have space := ((tfstoolWrite_written_iff formed small good o stack source).mp wrote).2.2
  rcases tfstoolWrite_cases formed small good o stack source with ⟨-,failed,-⟩ | ⟨index,n,-,low,free,result⟩
  · exact absurd wrote failed
  · rw [result] at wrote ⊢
    obtain ⟨-,loop⟩ := copyBlocks_call formed small o stack source low free
    rw [if_pos space] at loop
    obtain ⟨-,-,disk⟩ := finishWrite_written wrote
    rw [disk,Function.update_self]
    exact loop.2.2

end Call

def ceiling (length : Nat) : Nat := (length + (tfsBlockSize - 1)) / tfsBlockSize

/-- The call succeeds exactly when the file fits, it takes the blocks of the file and the inode
block, and a call that fails leaves the allocation block, the directory and the files alone. -/
structure WritesExactly (g : Gbd) (d : Disk) (target : Name) (source : List UInt8) (result : Outcome × Disk) : Prop where
  success : result.1 = .written ↔ Vacant d target ∧ source.length ≤ tfsMaxFilesize ∧
    ceiling source.length + 1 ≤ (freeIn g.blocks (d tfsAllocationBlock)).card
  blocks : result.1 = .written → ∃ (inode : Nat) (bs : List Nat), bs.length = ceiling source.length ∧
    Allocated g.blocks (inode :: bs) (d tfsAllocationBlock) (result.2 tfsAllocationBlock) ∧
    Named result.2 target inode ∧ dataBlocks (result.2 inode) = bs
  failure : result.1 ≠ .written → result.2 tfsAllocationBlock = d tfsAllocationBlock ∧
    result.2 tfsDirectoryBlock = d tfsDirectoryBlock ∧ ∀ k, ∀ b ∈ fileBlocks d k, result.2 b = d b

/-- A size that is a multiple of the block size, below the largest, costs a block too many: the
calls that go wrong have a free entry, a new name and the blocks that the file needs. -/
theorem tfstool_write_exact (formed : WellFormed g d) (small : g.blocks ≤ 4096) (good : IsFilename target)
    (o : ByteOrder) (stack : Bytes) (source : List UInt8) :
    WritesExactly g d target source (tfstoolWrite o g.blocks stack source target d) ↔
      ¬(Vacant d target ∧ tfsBlockSize ∣ source.length ∧ source.length < tfsMaxFilesize ∧
        source.length / tfsBlockSize + 1 ≤ (freeIn g.blocks (d tfsAllocationBlock)).card) := by
  have written := tfstoolWrite_written_iff formed small good o stack source
  have limit : tfsMaxFilesize = 512 * 127 := rfl
  have up : ceiling source.length = (source.length + 511) / 512 := rfl
  have loop : asked source.length 0 = min (source.length / 512 + 1) 127 := rfl
  have size : tfsBlockSize = 512 := rfl
  rw [size]
  constructor
  · rintro exactly ⟨vacant,whole,short,space⟩
    have wrote := exactly.success.mpr ⟨vacant,by omega,by omega⟩
    obtain ⟨inode,bs,length,allocated,-⟩ := exactly.blocks wrote
    have spent := tfstoolWrite_spent formed small good o stack source wrote
    have count := allocated.count
    simp only [List.length_cons] at count
    omega
  · intro fits
    refine ⟨?_,?_,?_⟩
    · rw [written]
      refine and_congr_right fun vacant => and_congr_right fun most => ?_
      have apart : ¬(512 ∣ source.length ∧ source.length < tfsMaxFilesize ∧
          source.length / 512 + 1 ≤ (freeIn g.blocks (d tfsAllocationBlock)).card) := fun rest => fits ⟨vacant,rest⟩
      omega
    · intro wrote
      obtain ⟨vacant,most,space⟩ := written.mp wrote
      have apart : ¬(512 ∣ source.length ∧ source.length < tfsMaxFilesize ∧
          source.length / 512 + 1 ≤ (freeIn g.blocks (d tfsAllocationBlock)).card) := fun rest => fits ⟨vacant,rest⟩
      obtain ⟨index,inode,bs,file⟩ := tfstoolWrite_wrote formed small good wrote
      have allocated := file.added.allocated
      have total : totalblocks g = g.blocks := by
        unfold totalblocks tfsBlockSize
        omega
      rw [total] at allocated
      have spent := tfstoolWrite_spent formed small good o stack source wrote
      have count := allocated.count
      simp only [List.length_cons] at count
      exact ⟨inode,bs,by omega,allocated,file.added.named formed,file.added.dataBlocks_new formed⟩
    · intro failed
      have kept : ∀ b, bit (d tfsAllocationBlock) b = true →
          (tfstoolWrite o g.blocks stack source target d).2 b = d b :=
        fun b taken => tfstoolWrite_kept formed small good o stack source failed taken
      exact ⟨kept _ (formed.system _ (by decide)),kept _ (formed.system _ (by decide)),
        fun k b member => kept b (formed.held.inUse k b member)⟩

/-- Three bytes. -/
theorem tfstool_write_exact_sample : WritesExactly sampleGbd sampleMachine.disk sampleName [1,2,3]
    (tfstoolWrite .little sampleGbd.blocks (fun _ => 7) [1,2,3] sampleName sampleMachine.disk) := by
  have good : IsFilename sampleName := ⟨by decide,by decide,by decide⟩
  apply (tfstool_write_exact sampleMachine_wellFormed (by decide) good .little (fun _ => 7) [1,2,3]).mpr
  rintro ⟨-,whole,-⟩
  exact absurd whole (by decide)

/-- An empty file takes two blocks instead of one. -/
theorem empty_file_spends : ¬WritesExactly sampleGbd sampleMachine.disk sampleName []
    (tfstoolWrite .little sampleGbd.blocks (fun _ => 7) [] sampleName sampleMachine.disk) := by
  intro exactly
  have wrote : (tfstoolWrite .little sampleGbd.blocks (fun _ => 7) [] sampleName sampleMachine.disk).1 = .written := by
    decide +kernel
  have good : IsFilename sampleName := ⟨by decide,by decide,by decide⟩
  obtain ⟨inode,bs,length,allocated,-⟩ := exactly.blocks wrote
  have spent := tfstoolWrite_spent sampleMachine_wellFormed (by decide) good .little (fun _ => 7) [] wrote
  have count := allocated.count
  have none_ : ceiling ([] : List UInt8).length = 0 := by decide
  have one : asked ([] : List UInt8).length 0 = 1 := by decide
  simp only [List.length_cons] at count
  omega

end Buenos.Fs.Tfstool
