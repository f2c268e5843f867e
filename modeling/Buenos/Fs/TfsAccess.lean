import Buenos.Fs.TfsTransfer

/-! What `tfs_read`, `tfs_write` and `tfs_remove` touch on the way: the blocks they ask the disk
for, which of these they take for inodes, and the indices of `block[]` in an inode. -/
namespace Buenos.Fs.Tfs

open Buenos.Foundation Buenos.Lib

inductive Access where
  | read (block : Nat) (buffer : Buffer)
  | write (block : Nat)
  | index (i : Int)

/-- The result of a call, and its accesses in order. -/
abbrev Traced := (Int × Machine) × List Access

def touch (i : Int) (r : Traced) : Traced := (r.1, .index i :: r.2)

def traceRead (g : Gbd) (block : Nat) (b : Buffer) (m : Machine) (next : Machine → Traced) : Traced :=
  if g.ok m block then ((next (m.afterRead block b)).1, .read block b :: (next (m.afterRead block b)).2)
  else ((vfsError, m.refused false block b), [.read block b])

def traceWrite (g : Gbd) (block : Nat) (b : Buffer) (m : Machine) (next : Machine → Traced) : Traced :=
  if g.ok m block then ((next (m.afterWrite block b)).1, .write block :: (next (m.afterWrite block b)).2)
  else ((vfsError, m.refused true block b), [.write block])

/-! ### The functions with their accesses -/

def traceReadBlocks (g : Gbd) (b2 bufsize : Int) : Nat → Int → Int → Nat → Machine → Traced
  | 0, _, read, _, m => ((read, m), [])
  | left + 1, b1, read, buffer, m =>
    touch b1 <| traceRead g (blockAt (m.memory .inode) b1.toNat) .bat m fun m =>
      if b1 = b2 then
        traceReadBlocks g b2 bufsize left (b1 + 1) (read + (bufsize - read)) buffer (m.readData (bufsize - read) 0 buffer)
      else
        traceReadBlocks g b2 bufsize left (b1 + 1) (read + tfsBlockSize) (buffer + tfsBlockSize)
          (m.readData tfsBlockSize 0 buffer)

def traceReadRange (g : Gbd) (b1 b2 read bufsize : Int) (position buffer : Nat) (m : Machine) : Traced :=
  touch b1 <| traceRead g (blockAt (m.memory .inode) b1.toNat) .bat m fun m =>
    traceReadBlocks g b2 bufsize (b2 - b1).toNat (b1 + 1) read (buffer + read.toNat) (m.readData read position buffer)

def traceReadFile (g : Gbd) (buffer : Nat) (bufsize offset : Int) (m : Machine) : Traced :=
  if bufsize = 0 then ((0, m), [])
  else traceReadRange g (offset.tdiv tfsBlockSize) ((wrap (offset + bufsize - 1)).tdiv tfsBlockSize)
    (min (tfsBlockSize - offset.tmod tfsBlockSize) bufsize) bufsize (offset.tmod tfsBlockSize).toNat buffer m

def traceTfsRead (g : Gbd) (fileid : Int) (buffer : Nat) (bufsize offset : Int) (m : Machine) : Traced :=
  if fileid < 2 ∨ fileid > totalblocks g then ((vfsError, m), [])
  else traceRead g fileid.toNat .inode m fun m =>
    if offset < 0 ∨ offset > toS32 (filesize (m.memory .inode)) then ((vfsError, m), [])
    else traceReadFile g buffer (min bufsize (toS32 (filesize (m.memory .inode)) - offset)) offset m

def tracePartial (g : Gbd) (size b1 : Int) (m : Machine) (next : Machine → Traced) : Traced :=
  if size < tfsBlockSize then touch b1 <| traceRead g (blockAt (m.memory .inode) b1.toNat) .bat m next else next m

def traceWriteData (g : Gbd) (b1 size : Int) (position buffer : Nat) (next : Machine → Traced) (m : Machine) : Traced :=
  touch b1 <| traceWrite g (blockAt (m.memory .inode) b1.toNat) .bat
    (m.load .bat (memcopy size (m.memory .bat) position m.user buffer)) next

def traceWriteBlocks (g : Gbd) (b2 datasize : Int) : Nat → Int → Int → Nat → Machine → Traced
  | 0, _, written, _, m => ((written, m), [])
  | left + 1, b1, written, buffer, m =>
    if b1 = b2 then
      tracePartial g (datasize - written) b1 m <|
        traceWriteData g b1 (datasize - written) 0 buffer fun m =>
          traceWriteBlocks g b2 datasize left (b1 + 1) datasize buffer m
    else
      traceWriteData g b1 tfsBlockSize 0 buffer
        (fun m => traceWriteBlocks g b2 datasize left (b1 + 1) (written + tfsBlockSize) (buffer + tfsBlockSize) m) m

def traceWriteRange (g : Gbd) (b1 b2 written datasize : Int) (position buffer : Nat) (m : Machine) : Traced :=
  tracePartial g written b1 m <|
    traceWriteData g b1 written position buffer fun m =>
      traceWriteBlocks g b2 datasize (b2 - b1).toNat (b1 + 1) written (buffer + written.toNat) m

def traceWriteFile (g : Gbd) (buffer : Nat) (datasize offset : Int) (m : Machine) : Traced :=
  if datasize = 0 then ((0, m), [])
  else traceWriteRange g (offset.tdiv tfsBlockSize) ((wrap (offset + datasize - 1)).tdiv tfsBlockSize)
    (min (tfsBlockSize - offset.tmod tfsBlockSize) datasize) datasize (offset.tmod tfsBlockSize).toNat buffer m

def traceTfsWrite (g : Gbd) (fileid : Int) (buffer : Nat) (datasize offset : Int) (m : Machine) : Traced :=
  if fileid < 2 ∨ fileid > totalblocks g then ((vfsError, m), [])
  else traceRead g fileid.toNat .inode m fun m =>
    if offset < 0 ∨ offset > toS32 (filesize (m.memory .inode)) then ((vfsError, m), [])
    else traceWriteFile g buffer (min datasize (toS32 (filesize (m.memory .inode)) - offset)) offset m

/-- `while(block[i] != 0 && i < 127)`: the place is read before the index is compared. -/
def freeIndices (inode : Bytes) : Nat → Nat → List Access
  | 0, i => [.index i]
  | left + 1, i => .index i :: if blockAt inode i ≠ 0 then .index i :: freeIndices inode left (i + 1) else []

def traceTfsRemove (g : Gbd) (filename : Name) (m : Machine) : Traced :=
  traceRead g tfsDirectoryBlock .md m fun m =>
    match findEntry (m.memory .md) filename with
    | none => ((vfsNotFound, m), [])
    | some index =>
      traceRead g tfsAllocationBlock .bat m fun m =>
      traceRead g (entryInode (m.memory .md) index) .inode m fun m =>
      let bat := bitmapSet (m.memory .bat) (entryInode (m.memory .md) index) false
      let md := Function.update (setEntryInode (m.memory .md) index 0) (namePosition index) 0
      let freed := (m.load .bat (freeBlocks (m.memory .inode) tfsBlocksMax 0 bat)).load .md md
      let r := traceWrite g tfsAllocationBlock .bat freed fun m =>
        traceWrite g tfsDirectoryBlock .md m fun m => ((vfsOk, m), [])
      (r.1, freeIndices (m.memory .inode) tfsBlocksMax 0 ++ r.2)

/-! ### They are the functions -/

section Erase
variable {g : Gbd} {m : Machine} {block : Nat} {b : Buffer}

theorem touch_fst (i : Int) (r : Traced) : (touch i r).1 = r.1 := rfl

theorem traceRead_fst {next : Machine → Traced} {next' : Machine → Int × Machine} (same : ∀ m, (next m).1 = next' m) :
    (traceRead g block b m next).1 = readBlock g block b m next' := by
  rw [readBlock_eq,traceRead]
  split
  · exact same _
  · rfl

theorem traceWrite_fst {next : Machine → Traced} {next' : Machine → Int × Machine} (same : ∀ m, (next m).1 = next' m) :
    (traceWrite g block b m next).1 = writeBlock g block b m next' := by
  rw [writeBlock_eq,traceWrite]
  split
  · exact same _
  · rfl

theorem traceReadBlocks_fst (b2 bufsize : Int) (left : Nat) (b1 read : Int) (buffer : Nat) (m : Machine) :
    (traceReadBlocks g b2 bufsize left b1 read buffer m).1 = readBlocks g b2 bufsize left b1 read buffer m := by
  induction left generalizing b1 read buffer m with
  | zero => rfl
  | succ left ih =>
    rw [traceReadBlocks,readBlocks,touch_fst]
    apply traceRead_fst
    intro m
    split <;> exact ih _ _ _ _

theorem traceTfsRead_fst (fileid : Int) (buffer : Nat) (bufsize offset : Int) (m : Machine) :
    (traceTfsRead g fileid buffer bufsize offset m).1 = tfsRead g fileid buffer bufsize offset m := by
  rw [traceTfsRead,tfsRead]
  split
  · rfl
  · apply traceRead_fst
    intro m
    split
    · rfl
    · rw [traceReadFile,readFile]
      split
      · rfl
      · rw [traceReadRange,readRange,touch_fst]
        exact traceRead_fst fun m => traceReadBlocks_fst _ _ _ _ _ _ _

theorem tracePartial_fst {next : Machine → Traced} {next' : Machine → Int × Machine} (same : ∀ m, (next m).1 = next' m)
    (size b1 : Int) : (tracePartial g size b1 m next).1 = readPartial g size (blockAt (m.memory .inode) b1.toNat) m next' := by
  rw [tracePartial,readPartial]
  split
  · exact traceRead_fst same
  · exact same m

theorem traceWriteData_fst {next : Machine → Traced} {next' : Machine → Int × Machine} (same : ∀ m, (next m).1 = next' m)
    (b1 size : Int) (position buffer : Nat) (m : Machine) :
    (traceWriteData g b1 size position buffer next m).1 = writeData g b1 size position buffer next' m :=
  traceWrite_fst same

theorem traceWriteBlocks_fst (b2 datasize : Int) (left : Nat) (b1 written : Int) (buffer : Nat) (m : Machine) :
    (traceWriteBlocks g b2 datasize left b1 written buffer m).1 = writeBlocks g b2 datasize left b1 written buffer m := by
  induction left generalizing b1 written buffer m with
  | zero => rfl
  | succ left ih =>
    rw [traceWriteBlocks,writeBlocks]
    split
    · exact tracePartial_fst (traceWriteData_fst (fun m => ih _ _ _ m) _ _ _ _) _ _
    · exact traceWriteData_fst (fun m => ih _ _ _ m) _ _ _ _ _

theorem traceTfsWrite_fst (fileid : Int) (buffer : Nat) (datasize offset : Int) (m : Machine) :
    (traceTfsWrite g fileid buffer datasize offset m).1 = tfsWrite g fileid buffer datasize offset m := by
  rw [traceTfsWrite,tfsWrite]
  split
  · rfl
  · apply traceRead_fst
    intro m
    split
    · rfl
    · rw [traceWriteFile,writeFile]
      split
      · rfl
      · rw [traceWriteRange,writeRange]
        exact tracePartial_fst (traceWriteData_fst (fun m => traceWriteBlocks_fst _ _ _ _ _ _ m) _ _ _ _) _ _

theorem traceTfsRemove_fst (filename : Name) (m : Machine) : (traceTfsRemove g filename m).1 = tfsRemove g filename m := by
  apply traceRead_fst
  intro m
  cases findEntry (m.memory .md) filename with
  | none => rfl
  | some index =>
    apply traceRead_fst
    intro m
    apply traceRead_fst
    intro m
    exact traceWrite_fst fun m => traceWrite_fst fun m => rfl

end Erase

/-! ### Staying inside -/

/-- Indices belong to `block[127]`, blocks to the volume, and inodes are none of its system blocks. -/
def Access.Inside (g : Gbd) : Access → Prop
  | .read block buffer => block < totalblocks g ∧ (buffer = .inode → 3 ≤ block)
  | .write block => block < totalblocks g
  | .index i => 0 ≤ i ∧ i < tfsBlocksMax

def Traced.Inside (g : Gbd) (r : Traced) : Prop := ∀ a ∈ r.2, a.Inside g

/-- An index of `block[127]`, and the number found there is a block of the volume. -/
def PlaceInside (g : Gbd) (inode : Bytes) (i : Int) : Prop :=
  (0 ≤ i ∧ i < tfsBlocksMax) ∧ blockAt inode i.toNat < totalblocks g

section Inside
variable {g : Gbd} {m : Machine} {block : Nat} {b : Buffer} {next : Machine → Traced}

theorem inside_nil (r : Int × Machine) : Traced.Inside g (r,[]) := by
  intro a member
  contradiction

theorem inside_cons (r : Int × Machine) (a : Access) (rest : List Access) :
    Traced.Inside g (r,a :: rest) ↔ a.Inside g ∧ Traced.Inside g (r,rest) :=
  List.forall_mem_cons

theorem touch_inside (i : Int) (r : Traced) : (touch i r).Inside g ↔ (0 ≤ i ∧ i < tfsBlocksMax) ∧ r.Inside g :=
  inside_cons r.1 (.index i) r.2

theorem places_succ (inode : Bytes) (b1 : Int) (left : Nat) :
    (∀ j < left + 1, PlaceInside g inode (b1 + (j : Nat))) ↔
      PlaceInside g inode b1 ∧ ∀ j < left, PlaceInside g inode (b1 + 1 + (j : Nat)) := by
  have shift : ∀ j : Nat, b1 + ((j + 1 : Nat) : Int) = b1 + 1 + (j : Nat) := by omega
  rw [Nat.forall_lt_succ_left']
  simp only [shift,Nat.cast_zero,Int.add_zero]

theorem range_inside (inode : Bytes) (offset n : Nat) (some_ : 1 ≤ n) :
    (PlaceInside g inode (offset / 512 : Nat) ∧
      ∀ j < (((offset + n - 1) / 512 : Nat) - (offset / 512 : Nat) : Int).toNat,
        PlaceInside g inode ((offset / 512 : Nat) + 1 + (j : Nat))) ↔
    ∀ p : Nat, offset ≤ p → p < offset + n → p / 512 < tfsBlocksMax ∧ blockAt inode (p / 512) < totalblocks g := by
  have place : ∀ i : Nat, PlaceInside g inode i ↔ i < tfsBlocksMax ∧ blockAt inode i < totalblocks g := by
    intro i
    rw [PlaceInside,Int.toNat_natCast]
    omega
  have shift : ∀ j : Nat, ((offset / 512 : Nat) : Int) + 1 + (j : Nat) = (offset / 512 + 1 + j : Nat) := by omega
  constructor
  · rintro ⟨first,others⟩ p low high
    by_cases same : p / 512 = offset / 512
    · rw [same]
      exact (place _).mp first
    · have later := others (p / 512 - offset / 512 - 1) (by omega)
      rw [shift,place,show offset / 512 + 1 + (p / 512 - offset / 512 - 1) = p / 512 by omega] at later
      exact later
  · intro all
    constructor
    · exact (place _).mpr (all offset (Nat.le_refl _) (by omega))
    · intro j small
      rw [shift,place]
      have byte := all (512 * (offset / 512 + 1 + j)) (by omega) (by omega)
      rwa [Nat.mul_div_cancel_left _ (by decide)] at byte

variable (reliable : Reliable g)
include reliable

theorem traceRead_inside : (traceRead g block b m next).Inside g ↔
    (block < totalblocks g ∧ (b = .inode → 3 ≤ block)) ∧ (next (m.afterRead block b)).Inside g := by
  rw [traceRead]
  split
  · exact inside_cons _ _ _
  · next refused =>
    have outside : ¬block < totalblocks g := by
      intro small
      have there : block < g.blocks := Nat.lt_of_lt_of_le small (Nat.min_le_left _ _)
      rw [ok_inside there,reliable] at refused
      contradiction
    rw [inside_cons]
    apply iff_of_false
    · exact fun inside => outside inside.1.1
    · exact fun inside => outside inside.1.1

theorem traceWrite_inside : (traceWrite g block b m next).Inside g ↔
    block < totalblocks g ∧ (next (m.afterWrite block b)).Inside g := by
  rw [traceWrite]
  split
  · exact inside_cons _ _ _
  · next refused =>
    have outside : ¬block < totalblocks g := by
      intro small
      have there : block < g.blocks := Nat.lt_of_lt_of_le small (Nat.min_le_left _ _)
      rw [ok_inside there,reliable] at refused
      contradiction
    rw [inside_cons]
    apply iff_of_false
    · exact fun inside => outside inside.1
    · exact fun inside => outside inside.1

theorem touchRead_inside (i : Int) {places : Prop}
    (rest : ∀ m', m'.memory .inode = m.memory .inode → ((next m').Inside g ↔ places)) :
    (touch i <| traceRead g (blockAt (m.memory .inode) i.toNat) .bat m next).Inside g ↔
      PlaceInside g (m.memory .inode) i ∧ places := by
  have kept : (m.afterRead (blockAt (m.memory .inode) i.toNat) .bat).memory .inode = m.memory .inode :=
    afterRead_of_ne (by decide)
  have other : (Buffer.bat = .inode → 3 ≤ blockAt (m.memory .inode) i.toNat) := fun same => by contradiction
  rw [touch_inside,traceRead_inside reliable,rest _ kept,PlaceInside]
  tauto

theorem readBlocks_inside (b2 bufsize : Int) (left : Nat) (b1 read : Int) (buffer : Nat) (m : Machine) :
    (traceReadBlocks g b2 bufsize left b1 read buffer m).Inside g ↔
      ∀ j < left, PlaceInside g (m.memory .inode) (b1 + (j : Nat)) := by
  induction left generalizing b1 read buffer m with
  | zero => simp [traceReadBlocks,inside_nil]
  | succ left ih =>
    rw [traceReadBlocks,places_succ]
    apply touchRead_inside reliable
    intro m' same
    rw [← same]
    split
    · exact ih _ _ _ _
    · exact ih _ _ _ _

theorem writeData_inside (b1 size : Int) (position buffer : Nat) {places : Prop}
    (rest : ∀ m', m'.memory .inode = m.memory .inode → ((next m').Inside g ↔ places)) :
    (traceWriteData g b1 size position buffer next m).Inside g ↔ PlaceInside g (m.memory .inode) b1 ∧ places := by
  have kept : ((m.load .bat (memcopy size (m.memory .bat) position m.user buffer)).afterWrite
      (blockAt (m.memory .inode) b1.toNat) .bat).memory .inode = m.memory .inode := by
    rw [afterWrite_memory]
    exact load_memory_of_ne _ (by decide)
  rw [traceWriteData,touch_inside,traceWrite_inside reliable,rest _ kept,PlaceInside]
  tauto

theorem partialWrite_inside (b1 size size' : Int) (position buffer : Nat) {places : Prop}
    (rest : ∀ m', m'.memory .inode = m.memory .inode → ((next m').Inside g ↔ places)) :
    (tracePartial g size b1 m (traceWriteData g b1 size' position buffer next)).Inside g ↔
      PlaceInside g (m.memory .inode) b1 ∧ places := by
  rw [tracePartial]
  split
  · have both : (touch b1 <| traceRead g (blockAt (m.memory .inode) b1.toNat) .bat m
        (traceWriteData g b1 size' position buffer next)).Inside g ↔
        PlaceInside g (m.memory .inode) b1 ∧ PlaceInside g (m.memory .inode) b1 ∧ places := by
      apply touchRead_inside reliable
      intro m' same
      rw [← same]
      apply writeData_inside reliable
      intro m'' same'
      exact rest m'' (same'.trans same)
    rw [both]
    tauto
  · exact writeData_inside reliable b1 size' position buffer rest

theorem writeBlocks_inside (b2 datasize : Int) (left : Nat) (b1 written : Int) (buffer : Nat) (m : Machine) :
    (traceWriteBlocks g b2 datasize left b1 written buffer m).Inside g ↔
      ∀ j < left, PlaceInside g (m.memory .inode) (b1 + (j : Nat)) := by
  induction left generalizing b1 written buffer m with
  | zero => simp [traceWriteBlocks,inside_nil]
  | succ left ih =>
    rw [traceWriteBlocks,places_succ]
    split
    · apply partialWrite_inside reliable
      intro m' same
      rw [ih,same]
    · apply writeData_inside reliable
      intro m' same
      rw [ih,same]

end Inside

/-! ### The calls -/

/-- A number that the check lets through is an inode's, and what the call reads or writes there
lies in blocks of the volume. -/
def FileidStays (g : Gbd) (d : Disk) (fileid length offset : Int) : Prop :=
  2 ≤ fileid → fileid ≤ totalblocks g → 3 ≤ fileid ∧ fileid < totalblocks g ∧
    (0 ≤ offset → ∀ p : Nat, offset ≤ p → p < offset + length → p < toS32 (filesize (d fileid.toNat)) →
      p / 512 < tfsBlocksMax ∧ blockAt (d fileid.toNat) (p / 512) < totalblocks g)

/-- The entry found is in use, and its inode has a place that is not. -/
def FileStays (d : Disk) (filename : Name) : Prop :=
  ∀ k, findEntry (d tfsDirectoryBlock) filename = some k → entryInode (d tfsDirectoryBlock) k ≠ 0 ∧
    ∃ i < tfsBlocksMax, blockAt (d (entryInode (d tfsDirectoryBlock) k)) i = 0

theorem cut_inside {size length offset : Int} {good : Nat → Prop} (positive : 0 ≤ length) (low : 0 ≤ offset)
    (inside : offset ≤ size) :
    (∀ p : Nat, offset.toNat ≤ p → p < offset.toNat + (min length (size - offset)).toNat → good p) ↔
    (0 ≤ offset → ∀ p : Nat, offset ≤ p → p < offset + length → p < size → good p) := by
  constructor
  · intro all _ p first last within
    exact all p (by omega) (by omega)
  · intro all p first last
    exact all low p (by omega) (by omega) (by omega)

section Calls
variable {g : Gbd}

theorem freeIndices_inside (inode : Bytes) (r : Int × Machine) (left i : Nat) (all : i + left = tfsBlocksMax) :
    Traced.Inside g (r,freeIndices inode left i) ↔ ∃ j, i ≤ j ∧ j < tfsBlocksMax ∧ blockAt inode j = 0 := by
  induction left generalizing i with
  | zero =>
    rw [freeIndices,inside_cons,Access.Inside]
    constructor
    · rintro ⟨⟨_,small⟩,_⟩
      omega
    · rintro ⟨j,low,small,_⟩
      omega
  | succ left ih =>
    have here : (.index i : Access).Inside g := by
      rw [Access.Inside]
      omega
    rw [freeIndices,inside_cons]
    by_cases used : blockAt inode i = 0
    · rw [if_neg (not_not.mpr used)]
      exact iff_of_true ⟨here,inside_nil r⟩ ⟨i,Nat.le_refl i,by omega,used⟩
    · rw [if_pos used,inside_cons,ih (i + 1) (by omega)]
      constructor
      · rintro ⟨_,_,j,low,small,zero⟩
        exact ⟨j,by omega,small,zero⟩
      · rintro ⟨j,low,small,zero⟩
        have later : i ≠ j := by
          rintro rfl
          exact used zero
        exact ⟨here,here,j,by omega,small,zero⟩

theorem system_inside (size : 3 ≤ g.blocks) (system : block < 3) : block < totalblocks g := by
  have bits : 3 ≤ 8 * tfsBlockSize := by decide
  rw [totalblocks]
  omega

theorem inside_append (r : Int × Machine) (first second : List Access) :
    Traced.Inside g (r,first ++ second) ↔ Traced.Inside g (r,first) ∧ Traced.Inside g (r,second) :=
  List.forall_mem_append

variable (reliable : Reliable g)
include reliable

theorem readFile_inside (buffer : Nat) (n offset : Nat) (small : offset + n ≤ 2 ^ 31) (m : Machine) :
    (traceReadFile g buffer n offset m).Inside g ↔ ∀ p : Nat, offset ≤ p → p < offset + n →
      p / 512 < tfsBlocksMax ∧ blockAt (m.memory .inode) (p / 512) < totalblocks g := by
  rw [traceReadFile]
  split
  · next none =>
    refine iff_of_true (inside_nil _) fun p low high => ?_
    omega
  · next some_ =>
    have first : (offset : Int).tdiv tfsBlockSize = (offset / 512 : Nat) := rfl
    have last := (range_blocks offset n (by omega) small).2.1
    rw [traceReadRange,first,last,← range_inside (m.memory .inode) offset n (by omega)]
    apply touchRead_inside reliable
    intro m' same
    rw [readBlocks_inside reliable,← same]
    rfl

theorem writeFile_inside (buffer : Nat) (n offset : Nat) (small : offset + n ≤ 2 ^ 31) (m : Machine) :
    (traceWriteFile g buffer n offset m).Inside g ↔ ∀ p : Nat, offset ≤ p → p < offset + n →
      p / 512 < tfsBlocksMax ∧ blockAt (m.memory .inode) (p / 512) < totalblocks g := by
  rw [traceWriteFile]
  split
  · next none =>
    refine iff_of_true (inside_nil _) fun p low high => ?_
    omega
  · next some_ =>
    have first : (offset : Int).tdiv tfsBlockSize = (offset / 512 : Nat) := rfl
    have last := (range_blocks offset n (by omega) small).2.1
    rw [traceWriteRange,first,last,← range_inside (m.memory .inode) offset n (by omega)]
    apply partialWrite_inside reliable
    intro m' same
    rw [writeBlocks_inside reliable,same]

theorem fileid_inside (file : Int → Machine → Traced) (fileid length offset : Int) (positive : 0 ≤ length) (m : Machine)
    (rest : ∀ (n o : Nat) (m' : Machine), offset = o → o + n ≤ 2 ^ 31 → ((file n m').Inside g ↔ ∀ p : Nat, o ≤ p → p < o + n →
      p / 512 < tfsBlocksMax ∧ blockAt (m'.memory .inode) (p / 512) < totalblocks g)) :
    Traced.Inside g (if fileid < 2 ∨ fileid > totalblocks g then ((vfsError, m), [])
      else traceRead g fileid.toNat .inode m fun m =>
        if offset < 0 ∨ offset > toS32 (filesize (m.memory .inode)) then ((vfsError, m), [])
        else file (min length (toS32 (filesize (m.memory .inode)) - offset)) m) ↔
    FileidStays g m.disk fileid length offset := by
  rw [FileidStays]
  split
  · next refused =>
    refine iff_of_true (inside_nil _) fun low high => ?_
    omega
  · next known =>
    have range : 2 ≤ fileid ∧ fileid ≤ totalblocks g := by omega
    rw [traceRead_inside reliable,afterRead_self]
    have proper : (fileid.toNat < totalblocks g ∧ (Buffer.inode = .inode → 3 ≤ fileid.toNat)) ↔
        3 ≤ fileid ∧ fileid < totalblocks g := by
      constructor
      · rintro ⟨small,large⟩
        have := large rfl
        omega
      · rintro ⟨large,small⟩
        exact ⟨by omega,fun _ => by omega⟩
    rw [proper,and_assoc]
    generalize size : toS32 (filesize (m.disk fileid.toNat)) = n
    have file_ : Traced.Inside g (if offset < 0 ∨ offset > n then ((vfsError, m.afterRead fileid.toNat .inode), [])
        else file (min length (n - offset)) (m.afterRead fileid.toNat .inode)) ↔
        (0 ≤ offset → ∀ p : Nat, offset ≤ p → p < offset + length → p < n →
          p / 512 < tfsBlocksMax ∧ blockAt (m.disk fileid.toNat) (p / 512) < totalblocks g) := by
      split
      · next outside =>
        refine iff_of_true (inside_nil _) fun low p first last within => ?_
        omega
      · next inside =>
        have int : n < 2 ^ 31 := by
          have bound := word_lt (m.disk fileid.toNat) 0
          rw [← size,filesize,toS32]
          split <;> omega
        have cut := rest (min length (n - offset)).toNat offset.toNat (m.afterRead fileid.toNat .inode) (by omega) (by omega)
        rw [Int.toNat_of_nonneg (by omega),afterRead_self] at cut
        rw [cut]
        exact cut_inside positive (by omega) (by omega)
    rw [file_]
    exact ⟨fun all _ _ => all,fun all => all range.1 range.2⟩

theorem tfsRead_inside (fileid : Int) (buffer : Nat) (bufsize offset : Int) (positive : 0 ≤ bufsize) (m : Machine) :
    (traceTfsRead g fileid buffer bufsize offset m).Inside g ↔ FileidStays g m.disk fileid bufsize offset := by
  apply fileid_inside reliable (fun n m => traceReadFile g buffer n offset m) fileid bufsize offset positive m
  rintro n o m' rfl small
  exact readFile_inside reliable buffer n o small m'

theorem tfsWrite_inside (fileid : Int) (buffer : Nat) (datasize offset : Int) (positive : 0 ≤ datasize) (m : Machine) :
    (traceTfsWrite g fileid buffer datasize offset m).Inside g ↔ FileidStays g m.disk fileid datasize offset := by
  apply fileid_inside reliable (fun n m => traceWriteFile g buffer n offset m) fileid datasize offset positive m
  rintro n o m' rfl small
  exact writeFile_inside reliable buffer n o small m'

theorem removeTail_inside (inode : Bytes) (size : 3 ≤ g.blocks) (m : Machine) :
    Traced.Inside g
      ((traceWrite g tfsAllocationBlock .bat m fun m => traceWrite g tfsDirectoryBlock .md m fun m => ((vfsOk, m), [])).1,
        freeIndices inode tfsBlocksMax 0 ++
          (traceWrite g tfsAllocationBlock .bat m fun m => traceWrite g tfsDirectoryBlock .md m fun m => ((vfsOk, m), [])).2) ↔
    ∃ i < tfsBlocksMax, blockAt inode i = 0 := by
  have writes : (traceWrite g tfsAllocationBlock .bat m fun m =>
      traceWrite g tfsDirectoryBlock .md m fun m => ((vfsOk, m), [])).Inside g := by
    rw [traceWrite_inside reliable,traceWrite_inside reliable]
    exact ⟨system_inside size (by decide),system_inside size (by decide),inside_nil _⟩
  rw [inside_append,freeIndices_inside inode _ tfsBlocksMax 0 (Nat.zero_add _)]
  constructor
  · rintro ⟨⟨i,_,small,zero⟩,_⟩
    exact ⟨i,small,zero⟩
  · rintro ⟨i,small,zero⟩
    exact ⟨⟨i,Nat.zero_le i,small,zero⟩,writes⟩

theorem tfsRemove_inside (filename : Name) {m : Machine} (formed : WellFormed g m.disk) :
    (traceTfsRemove g filename m).Inside g ↔ FileStays m.disk filename := by
  have directory : tfsDirectoryBlock < totalblocks g ∧ (Buffer.md = .inode → 3 ≤ tfsDirectoryBlock) :=
    ⟨system_inside formed.size (by decide),fun same => by contradiction⟩
  have allocation : tfsAllocationBlock < totalblocks g ∧ (Buffer.bat = .inode → 3 ≤ tfsAllocationBlock) :=
    ⟨system_inside formed.size (by decide),fun same => by contradiction⟩
  rw [traceTfsRemove,traceRead_inside reliable,FileStays,afterRead_self]
  cases found : findEntry (m.disk tfsDirectoryBlock) filename with
  | none =>
    refine iff_of_true ⟨directory,inside_nil _⟩ ?_
    intro k some_
    contradiction
  | some index =>
    dsimp only
    rw [traceRead_inside reliable,traceRead_inside reliable,removeTail_inside reliable _ formed.size]
    have entry : entryInode (((m.afterRead tfsDirectoryBlock .md).afterRead tfsAllocationBlock .bat).memory .md) index =
        entryInode (m.disk tfsDirectoryBlock) index := by
      rw [afterRead_of_ne (by decide),afterRead_self]
    rw [entry,afterRead_self,afterRead_disk,afterRead_disk]
    have slot : index < tfsMaxFiles := List.mem_range.mp (List.mem_of_find?_eq_some found)
    have proper : (entryInode (m.disk tfsDirectoryBlock) index < totalblocks g ∧
        (Buffer.inode = .inode → 3 ≤ entryInode (m.disk tfsDirectoryBlock) index)) ↔
        entryInode (m.disk tfsDirectoryBlock) index ≠ 0 := by
      constructor
      · rintro ⟨_,large⟩ zero
        have := large rfl
        omega
      · intro used
        have own : entryInode (m.disk tfsDirectoryBlock) index ∈ fileBlocks m.disk index := by
          rw [fileBlocks,if_pos ⟨slot,used⟩]
          exact List.mem_cons_self
        obtain ⟨large,small⟩ := formed.inside index _ own
        exact ⟨small,fun _ => large⟩
    rw [proper]
    constructor
    · rintro ⟨_,_,stays⟩ k same
      cases same
      exact stays
    · intro stays
      exact ⟨directory,allocation,stays index rfl⟩

end Calls

/-- The files of the directory are safe to read and write. -/
theorem WellFormed.stays (formed : WellFormed g d) (file : IsFile d fileid) (length offset : Int) :
    FileidStays g d fileid length offset := by
  intro _ _
  have intact := formed.intact file
  obtain ⟨large,small⟩ := intact.inside fileid List.mem_cons_self
  refine ⟨by omega,by omega,?_⟩
  rw [Int.toNat_natCast]
  intro _ p _ _ within
  have signed : toS32 (filesize (d fileid)) ≤ filesize (d fileid) := by
    unfold toS32
    split <;> omega
  have needed := intact.block_needed (i := p / 512) (by omega)
  have few := dataBlocks_length (d fileid)
  have member := List.mem_cons_of_mem fileid (List.getElem_mem needed)
  rw [dataBlocks_get needed] at member
  exact ⟨by omega,(intact.inside _ member).2⟩

/-- Exactly when the calls stay inside the inode's array, the volume and its inodes. -/
theorem tfs_stays_inside (reliable : Reliable g) {m : Machine} (formed : WellFormed g m.disk) :
    (∀ (fileid : Int) (buffer : Nat) (length offset : Int), 0 ≤ length →
      ((traceTfsRead g fileid buffer length offset m).Inside g ↔ FileidStays g m.disk fileid length offset) ∧
      ((traceTfsWrite g fileid buffer length offset m).Inside g ↔ FileidStays g m.disk fileid length offset)) ∧
    ∀ filename, (traceTfsRemove g filename m).Inside g ↔ FileStays m.disk filename := by
  constructor
  · intro fileid buffer length offset positive
    exact ⟨tfsRead_inside reliable fileid buffer length offset positive m,
      tfsWrite_inside reliable fileid buffer length offset positive m⟩
  · intro filename
    exact tfsRemove_inside reliable filename formed

theorem tfs_stays_inside_sample :
    (∀ (fileid : Int) (buffer : Nat) (length offset : Int), 0 ≤ length →
      ((traceTfsRead sampleGbd fileid buffer length offset sampleFile).Inside sampleGbd ↔
        FileidStays sampleGbd sampleFile.disk fileid length offset) ∧
      ((traceTfsWrite sampleGbd fileid buffer length offset sampleFile).Inside sampleGbd ↔
        FileidStays sampleGbd sampleFile.disk fileid length offset)) ∧
    ∀ filename, (traceTfsRemove sampleGbd filename sampleFile).Inside sampleGbd ↔ FileStays sampleFile.disk filename :=
  tfs_stays_inside (fun _ => rfl) sampleFile_wellFormed

/-- The check lets the number of the directory block through, and its bytes are taken for an inode. -/
theorem read_directory_outside : Reliable sampleGbd ∧ WellFormed sampleGbd sampleFile.disk ∧
    ¬(traceTfsRead sampleGbd 2 0 1 0 sampleFile).Inside sampleGbd := by
  refine ⟨fun _ => rfl,sampleFile_wellFormed,fun inside => ?_⟩
  have stays := (tfsRead_inside (fun _ => rfl) 2 0 1 0 (by decide) sampleFile).mp inside
  exact absurd (stays (by decide) (by decide)).1 (by decide)

end Buenos.Fs.Tfs
