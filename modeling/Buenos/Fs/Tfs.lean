import Buenos.Foundation.Int32
import Buenos.Lib.Bitmap
import Buenos.Lib.Libc
import Buenos.Fs.Vfs

/-! The Trivial Filesystem of `fs/tfs.c`. Each function runs with the volume's lock held, so
it is one function on the buffers, the disk and the caller's memory. -/
namespace Buenos.Fs.Tfs

open Buenos.Foundation Buenos.Lib

def tfsBlockSize : Nat := 512
def tfsAllocationBlock : Nat := 1
def tfsDirectoryBlock : Nat := 2
def tfsFilenameMax : Nat := 16

/-- `TFS_BLOCKS_MAX`, which is also written `TFS_BLOCK_SIZE / 4 - 1`. -/
def tfsBlocksMax : Nat := 127

/-- As many directory entries of 20 bytes as fit into a block. -/
def tfsMaxFiles : Nat := 25

inductive Buffer where
  | inode
  | bat
  | md
  deriving DecidableEq

structure Request where
  write : Bool
  block : Nat
  buffer : Bytes
  ok : Bool

/-- The block device: its size, and which of the requests made to it succeed. A request for
a block it does not have fails. -/
structure Gbd where
  blocks : Nat
  succeeds : Nat → Bool

/-- `log` records the requests made and is not read by the code. -/
structure Machine where
  memory : Buffer → Bytes
  disk : Nat → Bytes
  user : Bytes
  log : List Request

def Machine.load (m : Machine) (b : Buffer) (bytes : Bytes) : Machine :=
  { m with memory := Function.update m.memory b bytes }

def Machine.store (m : Machine) (block : Nat) (bytes : Bytes) : Machine :=
  { m with disk := Function.update m.disk block bytes }

def Gbd.ok (g : Gbd) (m : Machine) (block : Nat) : Bool := g.succeeds m.log.length && decide (block < g.blocks)

/-- `r = read_block(..); if (r == 0) return VFS_ERROR;` -/
def readBlock (g : Gbd) (block : Nat) (b : Buffer) (m : Machine) (next : Machine → Int × Machine) : Int × Machine :=
  let logged := { m with log := m.log ++ [⟨false, block, m.memory b, g.ok m block⟩] }
  if g.ok m block then next (logged.load b (m.disk block)) else (vfsError, logged)

def writeBlock (g : Gbd) (block : Nat) (b : Buffer) (m : Machine) (next : Machine → Int × Machine) : Int × Machine :=
  let logged := { m with log := m.log ++ [⟨true, block, m.memory b, g.ok m block⟩] }
  if g.ok m block then next (logged.store block (m.memory b)) else (vfsError, logged)

def totalblocks (g : Gbd) : Nat := min g.blocks (8 * tfsBlockSize)

/-! ### Directory entries and inodes in their blocks -/

def entryInode (md : Bytes) (k : Nat) : Nat := word md (5 * k)
def setEntryInode (md : Bytes) (k value : Nat) : Bytes := setWord md (5 * k) value

def namePosition (k : Nat) : Nat := 20 * k + 4

def entryIs (md : Bytes) (k : Nat) (filename : Name) : Bool := stringcmp md (namePosition k) filename == 0

def filesize (inode : Bytes) : Nat := word inode 0
def blockAt (inode : Bytes) (i : Nat) : Nat := word inode (1 + i)
def setBlockAt (inode : Bytes) (i value : Nat) : Bytes := setWord inode (1 + i) value

/-- The first entry with the name. -/
def findEntry (md : Bytes) (filename : Name) : Option Nat :=
  (List.range tfsMaxFiles).find? fun k => entryIs md k filename

/-! ### Open, create and remove -/

def tfsOpen (g : Gbd) (filename : Name) (m : Machine) : Int × Machine :=
  readBlock g tfsDirectoryBlock .md m fun m =>
    match findEntry (m.memory .md) filename with
    | some k => (toS32 (entryInode (m.memory .md) k), m)
    | none => (vfsNotFound, m)

/-- The scan of `tfs_create`: no free entry is kept when the name is found. -/
def scanEntries (md : Bytes) (filename : Name) : List Nat → Int → Option Int
  | [], index => some index
  | k :: rest, index =>
    if entryIs md k filename then none
    else scanEntries md filename rest (if entryInode md k = 0 then k else index)

/-- The blocks of the file, from the `i`-th on; `false` when the disk is full. -/
def allocateBlocks (total : Nat) : Nat → Nat → Bytes → Bytes → Bool × Bytes × Bytes
  | 0, _, inode, bat => (true, inode, bat)
  | left + 1, i, inode, bat =>
    let found := bitmapFindnset bat total
    let inode := setBlockAt inode i (toU32 found.1)
    if toS32 (blockAt inode i) = -1 then (false, inode, found.2)
    else allocateBlocks total left (i + 1) inode found.2

/-- `while (i < TFS_BLOCK_SIZE / 4 - 1) block[i++] = 0;` -/
def clearBlocks : Nat → Nat → Bytes → Bytes
  | 0, _, inode => inode
  | left + 1, i, inode => clearBlocks left (i + 1) (setBlockAt inode i 0)

/-- Zeros to the file's blocks from the `i`-th on. -/
def zeroBlocks (g : Gbd) : Nat → Nat → Machine → Int × Machine
  | 0, _, m => (vfsOk, m)
  | left + 1, i, m => writeBlock g (blockAt (m.memory .inode) i) .bat m fun m => zeroBlocks g left (i + 1) m

/-- `(size + TFS_BLOCK_SIZE - 1) / TFS_BLOCK_SIZE` in 32-bit arithmetic. -/
def numblocksOf (size : Int) : Nat := toU32 ((toS32 (toU32 (size + tfsBlockSize - 1))).tdiv tfsBlockSize)

/-- From the first write on. -/
def commitFile (g : Gbd) (index numblocks : Nat) (m : Machine) : Int × Machine :=
  writeBlock g tfsAllocationBlock .bat m fun m =>
  writeBlock g tfsDirectoryBlock .md m fun m =>
  writeBlock g (entryInode (m.memory .md) index) .inode m fun m =>
  zeroBlocks g numblocks 0 (m.load .bat (memoryset (m.memory .bat) 0 0 tfsBlockSize))

/-- After both blocks have been read: find space for the inode and the file. -/
def allocateFile (g : Gbd) (index numblocks : Nat) (size : Int) (m : Machine) : Int × Machine :=
  let found := bitmapFindnset (m.memory .bat) (totalblocks g)
  let m := (m.load .bat found.2).load .md (setEntryInode (m.memory .md) index (toU32 found.1))
  if toS32 (entryInode (m.memory .md) index) = -1 then (vfsError, m)
  else
    let sized := setWord (m.memory .inode) 0 (toU32 size)
    let (ok, inode, bat) := allocateBlocks (totalblocks g) numblocks 0 sized (m.memory .bat)
    if ok then
      commitFile g index numblocks
        ((m.load .bat bat).load .inode (clearBlocks (tfsBlocksMax - numblocks) numblocks inode))
    else (vfsError, (m.load .bat bat).load .inode inode)

def tfsCreate (g : Gbd) (filename : Name) (size : Int) (m : Machine) : Int × Machine :=
  let numblocks := numblocksOf size
  if tfsBlocksMax < numblocks then (vfsError, m)
  else readBlock g tfsDirectoryBlock .md m fun m =>
    match scanEntries (m.memory .md) filename (List.range tfsMaxFiles) (-1) with
    | none => (vfsError, m)
    | some index =>
      if index = -1 then (vfsError, m)
      else
        let md := stringcopy (m.memory .md) (namePosition index.toNat) (tfsFilenameMax - 1) filename
        readBlock g tfsAllocationBlock .bat (m.load .md md) fun m =>
        allocateFile g index.toNat numblocks size m

/-- Clear the bits of the blocks from the `i`-th on, up to the first unused one. -/
def freeBlocks (inode : Bytes) : Nat → Nat → Bytes → Bytes
  | 0, _, bat => bat
  | left + 1, i, bat =>
    if blockAt inode i ≠ 0 then freeBlocks inode left (i + 1) (bitmapSet bat (blockAt inode i) false)
    else bat

def tfsRemove (g : Gbd) (filename : Name) (m : Machine) : Int × Machine :=
  readBlock g tfsDirectoryBlock .md m fun m =>
    match findEntry (m.memory .md) filename with
    | none => (vfsNotFound, m)
    | some index =>
      readBlock g tfsAllocationBlock .bat m fun m =>
      readBlock g (entryInode (m.memory .md) index) .inode m fun m =>
      let bat := bitmapSet (m.memory .bat) (entryInode (m.memory .md) index) false
      let md := Function.update (setEntryInode (m.memory .md) index 0) (namePosition index) 0
      let m := (m.load .bat (freeBlocks (m.memory .inode) tfsBlocksMax 0 bat)).load .md md
      writeBlock g tfsAllocationBlock .bat m fun m =>
      writeBlock g tfsDirectoryBlock .md m fun m => (vfsOk, m)

/-! ### Read and write -/

/-- Copy from the buffered block to the caller. -/
def Machine.readData (m : Machine) (size : Int) (position buffer : Nat) : Machine :=
  { m with user := memcopy size m.user buffer (m.memory .bat) position }

/-- The blocks after the first: `left` of them, from `b1` on. -/
def readBlocks (g : Gbd) (b2 bufsize : Int) : Nat → Int → Int → Nat → Machine → Int × Machine
  | 0, _, read, _, m => (read, m)
  | left + 1, b1, read, buffer, m =>
    readBlock g (blockAt (m.memory .inode) b1.toNat) .bat m fun m =>
      if b1 = b2 then
        readBlocks g b2 bufsize left (b1 + 1) (read + (bufsize - read)) buffer (m.readData (bufsize - read) 0 buffer)
      else
        readBlocks g b2 bufsize left (b1 + 1) (read + tfsBlockSize) (buffer + tfsBlockSize)
          (m.readData tfsBlockSize 0 buffer)

/-- The blocks from `b1` to `b2`, of which the first gives `read` bytes. -/
def readRange (g : Gbd) (b1 b2 read bufsize : Int) (position buffer : Nat) (m : Machine) : Int × Machine :=
  readBlock g (blockAt (m.memory .inode) b1.toNat) .bat m fun m =>
    readBlocks g b2 bufsize (b2 - b1).toNat (b1 + 1) read (buffer + read.toNat) (m.readData read position buffer)

/-- `bufsize` is cut to the end of the file. -/
def readFile (g : Gbd) (buffer : Nat) (bufsize offset : Int) (m : Machine) : Int × Machine :=
  if bufsize = 0 then (0, m)
  else readRange g (offset.tdiv tfsBlockSize) ((wrap (offset + bufsize - 1)).tdiv tfsBlockSize)
    (min (tfsBlockSize - offset.tmod tfsBlockSize) bufsize) bufsize (offset.tmod tfsBlockSize).toNat buffer m

def tfsRead (g : Gbd) (fileid : Int) (buffer : Nat) (bufsize offset : Int) (m : Machine) : Int × Machine :=
  if fileid < 2 ∨ fileid > totalblocks g then (vfsError, m)
  else readBlock g fileid.toNat .inode m fun m =>
    if offset < 0 ∨ offset > toS32 (filesize (m.memory .inode)) then (vfsError, m)
    else readFile g buffer (min bufsize (toS32 (filesize (m.memory .inode)) - offset)) offset m

/-- Read a block that is not overwritten as a whole. -/
def readPartial (g : Gbd) (size : Int) (block : Nat) (m : Machine) (next : Machine → Int × Machine) : Int × Machine :=
  if size < tfsBlockSize then readBlock g block .bat m next else next m

/-- Copy into the buffered block and write it. -/
def writeData (g : Gbd) (b1 size : Int) (position buffer : Nat) (next : Machine → Int × Machine) (m : Machine) :
    Int × Machine :=
  writeBlock g (blockAt (m.memory .inode) b1.toNat) .bat
    (m.load .bat (memcopy size (m.memory .bat) position m.user buffer)) next

def writeBlocks (g : Gbd) (b2 datasize : Int) : Nat → Int → Int → Nat → Machine → Int × Machine
  | 0, _, written, _, m => (written, m)
  | left + 1, b1, written, buffer, m =>
    if b1 = b2 then
      readPartial g (datasize - written) (blockAt (m.memory .inode) b1.toNat) m <|
        writeData g b1 (datasize - written) 0 buffer fun m => writeBlocks g b2 datasize left (b1 + 1) datasize buffer m
    else
      writeData g b1 tfsBlockSize 0 buffer
        (fun m => writeBlocks g b2 datasize left (b1 + 1) (written + tfsBlockSize) (buffer + tfsBlockSize) m) m

/-- The blocks from `b1` to `b2`, of which the first takes `written` bytes. -/
def writeRange (g : Gbd) (b1 b2 written datasize : Int) (position buffer : Nat) (m : Machine) : Int × Machine :=
  readPartial g written (blockAt (m.memory .inode) b1.toNat) m <|
    writeData g b1 written position buffer fun m =>
      writeBlocks g b2 datasize (b2 - b1).toNat (b1 + 1) written (buffer + written.toNat) m

/-- `datasize` is cut to the end of the file. -/
def writeFile (g : Gbd) (buffer : Nat) (datasize offset : Int) (m : Machine) : Int × Machine :=
  if datasize = 0 then (0, m)
  else writeRange g (offset.tdiv tfsBlockSize) ((wrap (offset + datasize - 1)).tdiv tfsBlockSize)
    (min (tfsBlockSize - offset.tmod tfsBlockSize) datasize) datasize (offset.tmod tfsBlockSize).toNat buffer m

def tfsWrite (g : Gbd) (fileid : Int) (buffer : Nat) (datasize offset : Int) (m : Machine) : Int × Machine :=
  if fileid < 2 ∨ fileid > totalblocks g then (vfsError, m)
  else readBlock g fileid.toNat .inode m fun m =>
    if offset < 0 ∨ offset > toS32 (filesize (m.memory .inode)) then (vfsError, m)
    else writeFile g buffer (min datasize (toS32 (filesize (m.memory .inode)) - offset)) offset m

end Buenos.Fs.Tfs
