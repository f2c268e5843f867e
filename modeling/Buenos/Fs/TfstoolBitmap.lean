import Buenos.Fs.TfstoolWrite
import Mathlib.Algebra.Order.BigOperators.Group.Finset

/-! Where `tfstool write` looks in the allocation block. `bitmap_findnset` gets the number of
blocks of the image as its limit, and the block has bits for 4096 of them: on a larger image a
search that finds no bit clear in the block goes on behind it. -/
namespace Buenos.Fs.Tfstool

open Buenos.Foundation Buenos.Lib Buenos.Fs.Tfs

def batBits : Nat := 8 * tfsBlockSize

/-- `unsigned int num_blocks = tfstool_numblocks(disk)`, for an image of `blocks` blocks. -/
def tfstoolNumblocks (blocks : Nat) : Nat := blocks % 2 ^ 32

/-- The turns of the loop of `bitmap_findnset(bat, num_blocks)`, whose limit is an int. -/
def findLimit (numBlocks : Nat) : Nat := (toS32 numBlocks).toNat

section Searches
variable (o : ByteOrder)

/-- The positions at which the loop of `bitmap_findnset` reads the bitmap, from the `i`-th on. It
writes at most at the last of them. -/
def positions (bitmap : Bytes) : Nat → Nat → List Nat
  | 0, _ => []
  | left + 1, i => i :: if bitmapGet o bitmap i = 0 then [] else positions bitmap left (i + 1)

/-- The bitmaps that the loop of `tfstool_write` searches. -/
def copySearches (numBlocks : Nat) : Nat → Nat → List UInt8 → Copy → List Bytes
  | 0, _, _, _ => []
  | left + 1, i, source, c =>
    if c.filesize < tfsMaxFilesize then
      let found := bitmapFindnset o c.bat (findLimit numBlocks)
      let bnum := toU32 found.1
      c.bat :: if 2 < bnum ∧ bnum < numBlocks then
        if source.length < tfsBlockSize then []
        else copySearches numBlocks left (i + 1) (source.drop tfsBlockSize) (c.fetch o i bnum found.2 source)
      else []
    else []

/-- The bitmaps that `tfstool_write` searches, on an image of `blocks` blocks. -/
def writeSearches (blocks : Nat) (stack : Bytes) (source : List UInt8) (target : Name) (d : Disk) : List Bytes :=
  let md := readBlock d blocks tfsDirectoryBlock stack
  match scanDirectory o md target (List.range tfsMaxFiles) (-1) with
  | none => []
  | some index =>
    if index < 0 then []
    else
      let numBlocks := tfstoolNumblocks blocks
      let bat := readBlock d blocks tfsAllocationBlock stack
      let found := bitmapFindnset o bat (findLimit numBlocks)
      let inodeBnum := toU32 found.1
      bat :: if 2 < inodeBnum ∧ inodeBnum < numBlocks then
        copySearches o numBlocks numBlocks 0 source ⟨stack, fun _ => 0, found.2, d, 0, true⟩
      else []

/-- A search with this limit stays in the allocation block, and so does the block that it
allocates. -/
structure Inside (blocks limit : Nat) (bat : Bytes) : Prop where
  accesses : ∀ p ∈ positions o bat limit 0, p < batBits
  allocated : ∀ n : Nat, (bitmapFindnset o bat limit).1 = n → n < min blocks batBits

/-! ### One search -/

theorem mem_positions (bitmap : Bytes) (left i p : Nat) :
    p ∈ positions o bitmap left i ↔ i ≤ p ∧ p < i + left ∧ ∀ q, i ≤ q → q < p → bit bitmap q = true := by
  induction left generalizing i with
  | zero =>
    simp only [positions,List.not_mem_nil,false_iff]
    omega
  | succ left ih =>
    rw [positions,bitmapGet_eq,Lib.bitmapGet_eq,List.mem_cons]
    by_cases set_ : bit bitmap i = true
    · simp only [set_,if_true,one_ne_zero,if_false]
      rw [ih]
      constructor
      · rintro (rfl | ⟨low,high,before⟩)
        · exact ⟨Nat.le_refl _,by omega,fun q _ _ => by omega⟩
        · refine ⟨by omega,by omega,fun q from_ below => ?_⟩
          by_cases first : q = i
          · rw [first,set_]
          · exact before q (by omega) below
      · rintro ⟨low,high,before⟩
        by_cases first : p = i
        · exact .inl first
        · exact .inr ⟨by omega,by omega,fun q from_ below => before q (by omega) below⟩
    · simp only [set_,Bool.false_eq_true,if_false,if_true,List.not_mem_nil,or_false]
      constructor
      · rintro rfl
        exact ⟨Nat.le_refl _,by omega,fun q _ _ => by omega⟩
      · rintro ⟨low,-,before⟩
        by_contra apart
        exact set_ (before i (Nat.le_refl i) (by omega))

theorem findLimit_le (numBlocks : Nat) (word : numBlocks < 2 ^ 32) : findLimit numBlocks ≤ numBlocks := by
  unfold findLimit toS32
  split <;> omega

theorem findLimit_blocks (blocks : Nat) : findLimit (tfstoolNumblocks blocks) ≤ tfstoolNumblocks blocks ∧
    tfstoolNumblocks blocks ≤ blocks :=
  ⟨findLimit_le _ (Nat.mod_lt _ (by decide)),Nat.mod_le _ _⟩

variable {blocks limit : Nat} (least : limit ≤ blocks)
include least

theorem inside_small (bat : Bytes) (small : limit ≤ batBits) : Inside o blocks limit bat := by
  constructor
  · intro p member
    have bounds := (mem_positions o bat limit 0 p).mp member
    omega
  · intro n found
    rcases bitmapFindnset_spec o bat limit with ⟨k,low,-,-,result⟩ | ⟨-,result⟩
    · rw [result] at found
      have same : k = n := by simpa using found
      omega
    · rw [result] at found
      omega

/-- With a larger limit the search stays inside exactly if a bit of the block is clear. -/
theorem inside_iff (bat : Bytes) (large : batBits < limit) :
    Inside o blocks limit bat ↔ 1 ≤ (freeIn batBits bat).card := by
  constructor
  · intro inside
    by_contra full
    have taken : ∀ b < batBits, bit bat b = true := freeIn_full.mp (by omega)
    have behind := inside.accesses batBits ((mem_positions o bat limit 0 _).mpr
      ⟨Nat.zero_le _,by omega,fun q _ below => taken q below⟩)
    exact Nat.lt_irrefl _ behind
  · intro some_
    obtain ⟨b,member⟩ := Finset.card_pos.mp some_
    obtain ⟨inside,clear⟩ := Finset.mem_filter.mp member
    have low := Finset.mem_range.mp inside
    constructor
    · intro p visited
      obtain ⟨-,-,before⟩ := (mem_positions o bat limit 0 p).mp visited
      by_contra far
      rw [before b (Nat.zero_le b) (by omega)] at clear
      exact absurd clear (by decide)
    · intro n found
      rcases bitmapFindnset_spec o bat limit with ⟨k,-,-,below,result⟩ | ⟨taken,-⟩
      · rw [result] at found
        have same : k = n := by simpa using found
        have near : k ≤ b := by
          by_contra far
          rw [below b (by omega)] at clear
          exact absurd clear (by decide)
        omega
      · rw [taken b (by omega)] at clear
        exact absurd clear (by decide)

end Searches

/-! ### The search of the kernel -/

/-- The kernel's search returns the least clear bit and sets it alone, or finds all bits set and
changes nothing. The tool's search of an allocation block does the same, whatever the byte order
of the host. -/
theorem findnset_least_clear :
    (∀ (bitmap : Bytes) (l : Nat),
      ((∃ n, n < l ∧ bit bitmap n = false ∧ (∀ m < n, bit bitmap m = true) ∧
          (Lib.bitmapFindnset bitmap l).1 = n ∧
          ∀ k, bit (Lib.bitmapFindnset bitmap l).2 k = if k = n then true else bit bitmap k) ∨
        Lib.bitmapFindnset bitmap l = (-1,bitmap)) ∧
      ((Lib.bitmapFindnset bitmap l).1 = -1 ↔ ∀ n < l, bit bitmap n = true)) ∧
    ∀ (o : ByteOrder) (bat : Bytes) (l : Nat), l ≤ 4096 → bitmapFindnset o bat l = Lib.bitmapFindnset bat l := by
  constructor
  · intro bitmap l
    rcases Lib.bitmapFindnset_spec bitmap l with ⟨n,low,clear,below,result⟩ | ⟨full,result⟩
    · rw [result]
      constructor
      · exact .inl ⟨n,low,clear,below,rfl,bit_bitmapSet bitmap n true⟩
      · constructor
        · intro failed
          simp at failed
        · intro full
          simp [full n low] at clear
    · rw [result]
      exact ⟨.inr rfl,fun _ => full,fun _ => rfl⟩
  · intro o bat l _
    exact (bitmapFindnset_spec o bat l).unique (Lib.bitmapFindnset_spec bat l)

/-! ### The searches of a call -/

section Call
variable {numBlocks : Nat} (o : ByteOrder)

theorem findnset_inside (bat : Bytes) (large : batBits < limit) (some_ : 1 ≤ (freeIn batBits bat).card)
    (system : ∀ b < 3, bit bat b = true) (int : limit < 2 ^ 31) :
    ∃ n, 2 < n ∧ n < batBits ∧ toU32 (bitmapFindnset o bat limit).1 = n ∧
      (bitmapFindnset o bat limit).2 = Lib.bitmapSet bat n true ∧
      (freeIn batBits (Lib.bitmapSet bat n true)).card + 1 = (freeIn batBits bat).card := by
  obtain ⟨-,allocated⟩ := (inside_iff o (Nat.le_refl limit) bat large).mpr some_
  rcases bitmapFindnset_spec o bat limit with ⟨n,low,free,-,result⟩ | ⟨taken,-⟩
  · have near := allocated n (by rw [result])
    have high : 2 < n := by
      by_contra few
      have set_ := system n (by omega)
      rw [free] at set_
      exact absurd set_ (by decide)
    refine ⟨n,high,by omega,?_,by rw [result],freeIn_bitmapSet (by omega) free⟩
    rw [result,toU32_small (Int.natCast_nonneg n) (by omega)]
    exact Int.toNat_natCast n
  · obtain ⟨b,member⟩ := Finset.card_pos.mp some_
    obtain ⟨inside,clear⟩ := Finset.mem_filter.mp member
    have low := Finset.mem_range.mp inside
    rw [taken b (by omega)] at clear
    exact absurd clear (by decide)

/-- Every search of the loop finds a bit clear exactly if there is one for each block asked for. -/
theorem copySearches_iff (limit : findLimit numBlocks = l) (large : batBits < l) (int : l < 2 ^ 31) (order : l ≤ numBlocks)
    (left i : Nat) (source : List UInt8) (c : Copy) (system : ∀ b < 3, bit c.bat b = true)
    (full : c.filesize = 512 * i) (inside : i ≤ tfsBlocksMax) (turns : tfsBlocksMax - i < left) :
    (∀ bat ∈ copySearches o numBlocks left i source c, 1 ≤ (freeIn batBits bat).card) ↔
      asked source.length i ≤ (freeIn batBits c.bat).card := by
  induction left generalizing i source c with
  | zero => omega
  | succ left ih =>
    have bound : tfsMaxFilesize = 512 * 127 := rfl
    have count : tfsBlocksMax = 127 := rfl
    rw [copySearches,limit]
    by_cases room : c.filesize < tfsMaxFilesize
    swap
    · have none_ : asked source.length i = 0 := by unfold asked tfsBlocksMax tfsBlockSize; omega
      simp [room,none_]
    have some_ : 1 ≤ asked source.length i := by unfold asked tfsBlocksMax tfsBlockSize; omega
    simp only [if_pos room,List.forall_mem_cons]
    by_cases clear : 1 ≤ (freeIn batBits c.bat).card
    swap
    · constructor
      · intro both
        exact absurd both.1 clear
      · intro enough
        omega
    obtain ⟨n,high,near,number,after,fewer⟩ := findnset_inside o c.bat large clear system int
    rw [number,after,if_pos ⟨high,by omega⟩]
    by_cases short : source.length < tfsBlockSize
    · have one : asked source.length i = 1 := by
        unfold asked
        rw [Nat.div_eq_of_lt short]
        omega
      simp [short,clear,one]
    · have long : 512 ≤ source.length := Nat.le_of_not_lt short
      have next := ih (i + 1) (source.drop tfsBlockSize) (c.fetch o i n (Lib.bitmapSet c.bat n true) source)
        ?_ ?_ (by omega) (by omega)
      · have rest : asked (source.drop tfsBlockSize).length (i + 1) + 1 = asked source.length i := by
          rw [List.length_drop]
          unfold asked tfsBlocksMax tfsBlockSize
          omega
        have bat : (c.fetch o i n (Lib.bitmapSet c.bat n true) source).bat = Lib.bitmapSet c.bat n true := rfl
        rw [bat] at next
        rw [if_neg short,next]
        omega
      · intro b few
        simp [Copy.fetch,system b few]
      · simp only [Copy.fetch]
        unfold tfsBlockSize
        omega

theorem copySearches_bat (exact : findLimit numBlocks = numBlocks) (left i : Nat) (source : List UInt8) (c : Copy) :
    (copyBlocks o numBlocks left i source c).bat =
      (copySearches o numBlocks left i source c).foldl (fun _ bat => (bitmapFindnset o bat numBlocks).2) c.bat := by
  induction left generalizing i source c with
  | zero => rfl
  | succ left ih =>
    rw [copyBlocks,copySearches,exact]
    split
    · dsimp only
      split
      · split
        · rfl
        · exact ih _ _ _
      · rfl
    · rfl

end Call

/-! ### Every image -/

/-- The directory and the allocation block fit together. Bits may be set for blocks that no file
has, as a call that failed half-way leaves them. -/
structure Tables (g : Gbd) (d : Disk) : Prop where
  size : 3 ≤ g.blocks
  system : ∀ b < 3, bit (d tfsAllocationBlock) b = true
  named : ∀ k < tfsMaxFiles, entryInode (d tfsDirectoryBlock) k ≠ 0 → entryName (d tfsDirectoryBlock) k ≠ []
  unnamed : ∀ k < tfsMaxFiles, entryInode (d tfsDirectoryBlock) k = 0 → entryName (d tfsDirectoryBlock) k = []
  ended : ∀ k < tfsMaxFiles, (entryName (d tfsDirectoryBlock) k).length < tfsFilenameMax
  distinct : ∀ k l, k < tfsMaxFiles → l < tfsMaxFiles → entryInode (d tfsDirectoryBlock) k ≠ 0 →
    entryInode (d tfsDirectoryBlock) l ≠ 0 →
    entryName (d tfsDirectoryBlock) k = entryName (d tfsDirectoryBlock) l → k = l
  inodes : ∀ k < tfsMaxFiles, entryInode (d tfsDirectoryBlock) k ≠ 0 → 3 ≤ entryInode (d tfsDirectoryBlock) k ∧
    entryInode (d tfsDirectoryBlock) k < totalblocks g ∧
    bit (d tfsAllocationBlock) (entryInode (d tfsDirectoryBlock) k) = true

theorem wellFormed_tables (formed : WellFormed g d) : Tables g d := by
  refine ⟨formed.size,formed.system,formed.named,formed.unnamed,formed.ended,formed.distinct,?_⟩
  intro k slot used
  obtain ⟨low,high⟩ := formed.inode_inside slot used
  refine ⟨low,high,formed.held.inUse k _ ?_⟩
  rw [fileBlocks_used slot used]
  exact List.mem_cons_self

/-- Every search of the call stays inside. -/
def StaysInside (o : ByteOrder) (blocks : Nat) (stack : Bytes) (source : List UInt8) (target : Name) (d : Disk) : Prop :=
  ∀ bat ∈ writeSearches o blocks stack source target d, Inside o blocks (findLimit (tfstoolNumblocks blocks)) bat

section Image
variable {g : Gbd} {d : Disk} {target : Name} (tables : Tables g d) (clean : 0 ∉ target)
include tables clean

theorem writeSearches_cases (o : ByteOrder) (stack : Bytes) (source : List UInt8) :
    (¬Vacant d target ∧ writeSearches o g.blocks stack source target d = []) ∨
    (Vacant d target ∧ writeSearches o g.blocks stack source target d = d tfsAllocationBlock ::
      let numBlocks := tfstoolNumblocks g.blocks
      let found := bitmapFindnset o (d tfsAllocationBlock) (findLimit numBlocks)
      if 2 < toU32 found.1 ∧ toU32 found.1 < numBlocks then
        copySearches o numBlocks numBlocks 0 source ⟨stack, fun _ => 0, found.2, d, 0, true⟩
      else []) := by
  have room := tables.size
  have system : ∀ b < 3, readBlock d g.blocks b stack = d b := fun b low => if_pos (by omega)
  unfold writeSearches
  simp only [system tfsDirectoryBlock (by decide),system tfsAllocationBlock (by decide)]
  rcases scanDirectory_vacant tables.ended clean o with ⟨vacant,k,scanned⟩ | ⟨crowded,scanned⟩
  · simp only [scanned,if_neg (show ¬(k : Int) < 0 by omega)]
    exact .inr ⟨vacant,trivial⟩
  · refine .inl ⟨crowded,?_⟩
    split
    · rfl
    · next index found => rw [if_pos (scanned index found)]

/-- On an image with more blocks than the allocation block has bits, the block needs a clear bit
for the inode and for every block that the loop asks for. -/
theorem tfstool_write_inside (o : ByteOrder) (stack : Bytes) (source : List UInt8) :
    StaysInside o g.blocks stack source target d ↔
      ¬Vacant d target ∨ findLimit (tfstoolNumblocks g.blocks) ≤ batBits ∨
        asked source.length 0 + 1 ≤ (freeIn batBits (d tfsAllocationBlock)).card := by
  have order := findLimit_blocks g.blocks
  unfold StaysInside
  rcases writeSearches_cases tables clean o stack source with ⟨crowded,none_⟩ | ⟨vacant,searches⟩
  · simp [none_,crowded]
  rw [searches]
  generalize numBlocks : tfstoolNumblocks g.blocks = n at order ⊢
  generalize limit : findLimit n = l at order ⊢
  by_cases small : l ≤ batBits
  · exact ⟨fun _ => .inr (.inl small),fun _ bat _ => inside_small o (by omega) bat small⟩
  have large : batBits < l := Nat.lt_of_not_le small
  have int : l < 2 ^ 31 := by
    have word : n < 2 ^ 32 := by
      rw [← numBlocks]
      exact Nat.mod_lt _ (by decide)
    rw [← limit]
    unfold findLimit toS32
    split <;> omega
  simp only [vacant,not_true,small,false_or,inside_iff o (Nat.le_trans order.1 order.2) _ large]
  rw [List.forall_mem_cons]
  by_cases clear : 1 ≤ (freeIn batBits (d tfsAllocationBlock)).card
  swap
  · constructor
    · intro both
      exact absurd both.1 clear
    · intro enough
      omega
  obtain ⟨b,high,near,number,after,fewer⟩ := findnset_inside o (d tfsAllocationBlock) large clear tables.system int
  have rest := copySearches_iff o limit large int order.1 n 0 source
    ⟨stack, fun _ => 0, Lib.bitmapSet (d tfsAllocationBlock) b true, d, 0, true⟩ ?_ rfl (Nat.zero_le _) ?_
  · rw [limit,number,after,if_pos ⟨high,by omega⟩,rest]
    dsimp only
    omega
  · intro k few
    rw [bit_bitmapSet,tables.system k few]
    split <;> rfl
  · have bits : tfsBlocksMax < batBits := by decide
    omega

end Image

/-- Three bytes on the new volume. -/
theorem tfstool_write_inside_sample :
    StaysInside .little sampleGbd.blocks (fun _ => 7) [1,2,3] sampleName sampleMachine.disk := by
  apply (tfstool_write_inside (wellFormed_tables sampleMachine_wellFormed) (by decide) .little (fun _ => 7) [1,2,3]).mpr
  exact .inr (.inl (by decide))

/-- An image of 4097 blocks without files whose allocation block has no clear bit. -/
def lostGbd : Gbd := ⟨4097, fun _ => true⟩

def lostDisk : Disk := fun b => if b = tfsAllocationBlock then fun j => if j < 512 then 0xff else 0 else fun _ => 0

theorem lostDisk_bit (low : b < 4096) : bit (lostDisk tfsAllocationBlock) b = true := by
  apply bit_full
  have inside : ∀ r < 4, lostDisk tfsAllocationBlock (4 * (b / 32) + r) = 0xff := by
    intro r small
    exact if_pos (by omega)
  have first := inside 0 (by decide)
  rw [Nat.add_zero] at first
  rw [word,first,inside 1 (by decide),inside 2 (by decide),inside 3 (by decide)]
  rfl

theorem lostDisk_free (k : Nat) :
    entryInode (lostDisk tfsDirectoryBlock) k = 0 ∧ entryName (lostDisk tfsDirectoryBlock) k = [] :=
  ⟨word_zero fun _ _ => rfl,rfl⟩

theorem lostDisk_tables : Tables lostGbd lostDisk := by
  have free := lostDisk_free
  refine ⟨by decide,fun b low => lostDisk_bit (by omega),?_,?_,?_,?_,?_⟩
  · intro k _ used
    exact absurd (free k).1 used
  · intro k _ _
    exact (free k).2
  · intro k _
    rw [(free k).2]
    decide
  · intro k _ _ _ used
    exact absurd (free k).1 used
  · intro k _ used
    exact absurd (free k).1 used

/-- The search for the inode block leaves the allocation block. -/
theorem search_leaves_block : Tables lostGbd lostDisk ∧
    ¬StaysInside .little lostGbd.blocks (fun _ => 7) [1,2,3] sampleName lostDisk := by
  refine ⟨lostDisk_tables,fun inside => ?_⟩
  have nonempty : sampleName ≠ [] := by decide
  have vacant : Vacant lostDisk sampleName :=
    ⟨fun k _ same => nonempty (same.symm.trans (lostDisk_free k).2),0,by decide,(lostDisk_free 0).1⟩
  have limit : findLimit (tfstoolNumblocks lostGbd.blocks) = 4097 := by decide
  rcases writeSearches_cases lostDisk_tables (show 0 ∉ sampleName by decide) .little (fun _ => 7) [1,2,3] with
    ⟨crowded,-⟩ | ⟨-,searches⟩
  · exact crowded vacant
  have first := (inside (lostDisk tfsAllocationBlock) (by rw [searches]; exact List.mem_cons_self)).accesses 4096
  rw [limit,mem_positions] at first
  have bits : batBits = 4096 := rfl
  have behind := first ⟨by omega,by omega,fun q _ low => lostDisk_bit low⟩
  omega

/-! ### Volumes without lost blocks -/

/-- The blocks of the system and of the files. -/
def usedBlocks (d : Disk) : Finset Nat :=
  Finset.range 3 ∪ (Finset.range tfsMaxFiles).biUnion fun k => (fileBlocks d k).toFinset

theorem usedBlocks_card (d : Disk) : (usedBlocks d).card ≤ 3 + tfsMaxFiles * (tfsBlocksMax + 1) := by
  have length : ∀ k, (fileBlocks d k).length ≤ tfsBlocksMax + 1 := by
    intro k
    unfold fileBlocks
    split
    · have most := dataBlocks_length (d (entryInode (d tfsDirectoryBlock) k))
      rw [List.length_cons]
      omega
    · rw [List.length_nil]
      omega
  have files := Finset.card_biUnion_le_card_mul (Finset.range tfsMaxFiles) (fun k => (fileBlocks d k).toFinset)
    (tfsBlocksMax + 1) fun k _ => (List.toFinset_card_le _).trans (length k)
  rw [Finset.card_range] at files
  refine (Finset.card_union_le _ _).trans ?_
  rw [Finset.card_range]
  exact Nat.add_le_add_left files 3

/-- The files of a well-formed volume cannot fill the allocation block. -/
theorem freeIn_wellFormed (formed : WellFormed g d) :
    totalblocks g ≤ (freeIn (totalblocks g) (d tfsAllocationBlock)).card + (usedBlocks d).card := by
  have covers : Finset.range (totalblocks g) \ usedBlocks d ⊆ freeIn (totalblocks g) (d tfsAllocationBlock) := by
    intro b member
    obtain ⟨inside,outside⟩ := Finset.mem_sdiff.mp member
    refine Finset.mem_filter.mpr ⟨inside,?_⟩
    by_contra set_
    apply outside
    by_cases low : b < 3
    · exact Finset.mem_union_left _ (Finset.mem_range.mpr low)
    have high := Finset.mem_range.mp inside
    obtain ⟨k,held⟩ := formed.owned b (by omega) high (by simpa using set_)
    have slot : k < tfsMaxFiles := by
      by_contra far
      simp [fileBlocks,far] at held
    exact Finset.mem_union_right _ (Finset.mem_biUnion.mpr ⟨k,Finset.mem_range.mpr slot,List.mem_toFinset.mpr held⟩)
  have left := Finset.le_card_sdiff (usedBlocks d) (Finset.range (totalblocks g))
  have count := Finset.card_le_card covers
  rw [Finset.card_range] at left
  omega

/-- There are enough clear bits while no block is lost. -/
theorem wellFormed_room (formed : WellFormed g d) (source : List UInt8) :
    findLimit (tfstoolNumblocks g.blocks) ≤ batBits ∨
      asked source.length 0 + 1 ≤ (freeIn batBits (d tfsAllocationBlock)).card := by
  by_cases small : g.blocks ≤ batBits
  · have order := findLimit_blocks g.blocks
    exact .inl (by omega)
  · have total : totalblocks g = batBits := by
      unfold totalblocks batBits at *
      omega
    have room := freeIn_wellFormed formed
    have used := usedBlocks_card d
    rw [total] at room
    have few : asked source.length 0 ≤ tfsBlocksMax := Nat.min_le_right _ _
    have bits : 3 + tfsMaxFiles * (tfsBlocksMax + 1) + tfsBlocksMax + 1 ≤ batBits := by decide
    exact .inr (by omega)

end Buenos.Fs.Tfstool
