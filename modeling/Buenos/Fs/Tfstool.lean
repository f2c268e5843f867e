import Buenos.Foundation.ByteOrder
import Buenos.Fs.TfsExact
import Mathlib.Data.List.Find

/-! The tool `util/tfstool.c`, which reads and writes the files of a volume on a host of either
byte order, against the kernel's driver. -/
namespace Buenos.Fs.Tfstool

open Buenos.Foundation Buenos.Lib Buenos.Fs.Tfs

/-- `TFS_MAX_FILESIZE` -/
def tfsMaxFilesize : Nat := tfsBlockSize * tfsBlocksMax

/-! ### The library of the host -/

/-- At most `n` characters of a buffer against a string. -/
def strncmp (b : Bytes) : Nat → Nat → List UInt8 → Int
  | 0, _, _ => 0
  | n + 1, p, str =>
    if b p ≠ str.headD 0 then ((b p).toNat : Int) - (str.headD 0).toNat
    else if b p = 0 then 0
    else strncmp b n (p + 1) str.tail

/-- Copy at most `n` characters; NULs fill up the rest. -/
def strncpy : Nat → Bytes → Nat → List UInt8 → Bytes
  | 0, target, _, _ => target
  | n + 1, target, t, str => strncpy n (Function.update target t (str.headD 0)) (t + 1) str.tail

/-- The buffer after the next bytes of a file have been read. It keeps what a short file does
not fill. -/
def fread (data : Bytes) (size : Nat) (source : List UInt8) : Bytes := fun j =>
  if j < size then source.getD j (data j) else data j

/-! ### The bitmaps of the tool -/

section Bitmap
variable (o : ByteOrder) (bitmap : Bytes)

def bitmapGet (pos : Nat) : Nat := o.ntohl (o.load bitmap (pos / 32)) >>> (pos % 32) &&& 0x01

def bitmapSet (pos : Nat) (value : Bool) : Bytes :=
  let i := pos / 32
  let j := pos % 32
  if value then o.store bitmap i (o.htonl (o.ntohl (o.load bitmap i) ||| 1 <<< j))
  else o.store bitmap i (o.htonl (o.ntohl (o.load bitmap i) &&& (0xffffffff ^^^ 1 <<< j)))

def findClear : Nat → Nat → Int × Bytes
  | 0, _ => (-1, bitmap)
  | left + 1, i => if bitmapGet o bitmap i = 0 then ((i : Int), bitmapSet o bitmap i true) else findClear left (i + 1)

def bitmapFindnset (l : Nat) : Int × Bytes := findClear o bitmap l 0

end Bitmap

/-! ### Writing and reading files -/

/-- `read_block`. Past the end of the image the buffer keeps what it holds. -/
def readBlock (d : Disk) (numBlocks block : Nat) (data : Bytes) : Bytes := if block < numBlocks then d block else data

/-- The scan of the directory for the first free entry; `none` when the name is there. -/
def scanDirectory (o : ByteOrder) (md : Bytes) (target : Name) : List Nat → Int → Option Int
  | [], index => some index
  | k :: rest, index =>
    if strncmp md tfsFilenameMax (namePosition k) target = 0 then none
    else scanDirectory o md target rest (if o.load md (5 * k) = 0 ∧ index = -1 then k else index)

/-- What the loop of `tfstool_write` works on. -/
structure Copy where
  data : Bytes
  inode : Bytes
  bat : Bytes
  disk : Disk
  filesize : Nat
  writeok : Bool

/-- Block `bnum` gets the next bytes of the source and becomes the `i`-th block of the file. -/
def Copy.fetch (c : Copy) (o : ByteOrder) (i bnum : Nat) (bat : Bytes) (source : List UInt8) : Copy :=
  let data := fread c.data tfsBlockSize source
  { c with
    data := data, inode := o.store c.inode (1 + i) (o.htonl bnum), bat := bat
    disk := Function.update c.disk bnum data, filesize := c.filesize + min tfsBlockSize source.length }

/-- The loop, from the `i`-th block of the file on. `source` is what is left to be read. -/
def copyBlocks (o : ByteOrder) (numBlocks : Nat) : Nat → Nat → List UInt8 → Copy → Copy
  | 0, _, _, c => c
  | left + 1, i, source, c =>
    if c.filesize < tfsMaxFilesize then
      let found := bitmapFindnset o c.bat numBlocks
      let bnum := toU32 found.1
      if 2 < bnum ∧ bnum < numBlocks then
        let c := c.fetch o i bnum found.2 source
        -- the end of the file is seen by a read that comes back short
        if source.length < tfsBlockSize then c else copyBlocks o numBlocks left (i + 1) (source.drop tfsBlockSize) c
      else { c with bat := found.2, writeok := false }
    else c

inductive Outcome where
  | written
  | alreadyExists
  | tfsFull
  | onlyFits (filesize : Nat)
  | diskFull
  | noInode
  deriving DecidableEq

/-- From the copied blocks on. -/
def finishWrite (o : ByteOrder) (md : Bytes) (index inodeBnum : Nat) (source : List UInt8) (target : Name) (c : Copy) :
    Outcome × Disk :=
  if c.filesize ≠ source.length then (.onlyFits c.filesize, c.disk)
  else if c.writeok then
    let inode := o.store c.inode 0 (o.htonl c.filesize)
    let md := strncpy tfsFilenameMax (o.store md (5 * index) (o.htonl inodeBnum)) (namePosition index) target
    (.written, Function.update (Function.update (Function.update c.disk inodeBnum inode) tfsDirectoryBlock md)
      tfsAllocationBlock c.bat)
  else (.diskFull, c.disk)

/-- `stack` is what the buffers hold before they are filled. -/
def tfstoolWrite (o : ByteOrder) (numBlocks : Nat) (stack : Bytes) (source : List UInt8) (target : Name) (d : Disk) :
    Outcome × Disk :=
  let md := readBlock d numBlocks tfsDirectoryBlock stack
  match scanDirectory o md target (List.range tfsMaxFiles) (-1) with
  | none => (.alreadyExists, d)
  | some index =>
    if index < 0 then (.tfsFull, d)
    else
      let found := bitmapFindnset o (readBlock d numBlocks tfsAllocationBlock stack) numBlocks
      let inodeBnum := toU32 found.1
      if 2 < inodeBnum ∧ inodeBnum < numBlocks then
        finishWrite o md index.toNat inodeBnum source target
          (copyBlocks o numBlocks numBlocks 0 source ⟨stack, fun _ => 0, found.2, d, 0, true⟩)
      else (.noInode, d)

/-- The loop of `tfstool_read`, from the `i`-th block on, when `count` bytes have been written. -/
def copyOut (o : ByteOrder) (d : Disk) (numBlocks : Nat) (inode : Bytes) (filesize : Nat) :
    Nat → Nat → Bytes → Nat → List UInt8
  | 0, _, _, _ => []
  | left + 1, i, data, count =>
    let bnum := o.ntohl (o.load inode (1 + i))
    if bnum ≠ 0 then
      let data := readBlock d numBlocks bnum data
      let size := min (toU32 ((filesize : Int) - count)) tfsBlockSize
      bytesAt data 0 size ++ copyOut o d numBlocks inode filesize left (i + 1) data (count + size)
    else []

/-- The bytes written to the file of the host; `none` when the name is not found. -/
def tfstoolRead (o : ByteOrder) (numBlocks : Nat) (stack : Bytes) (source : Name) (d : Disk) : Option (List UInt8) :=
  let md := readBlock d numBlocks tfsDirectoryBlock stack
  match (List.range tfsMaxFiles).find? fun k => strncmp md tfsFilenameMax (namePosition k) source == 0 with
  | none => none
  | some index =>
    let inode := readBlock d numBlocks (o.ntohl (o.load md (5 * index))) stack
    some (copyOut o d numBlocks inode (o.ntohl (o.load inode 0)) tfsBlocksMax 0 stack 0)

/-! ### Strings -/

theorem strncmp_eq_zero (clean : 0 ∉ str) (ended : (cstring b p n).length < n) :
    strncmp b n p str = 0 ↔ cstring b p n = str := by
  induction n generalizing p str with
  | zero => simp at ended
  | succ n ih =>
    have zero : ∀ {x y : UInt8}, x ≠ y → (x.toNat : Int) - y.toNat ≠ 0 := by
      intro x y different equal
      exact different (UInt8.toNat_inj.mp (by omega))
    rw [strncmp]
    by_cases nul : b p = 0
    · rw [cstring,if_pos nul]
      cases str with
      | nil => simp [nul]
      | cons c rest =>
        have nonzero : (0 : UInt8) ≠ c := fun same => clean (by simp [same])
        simpa [nul,nonzero] using zero nonzero
    · rw [cstring,if_neg nul] at ended ⊢
      cases str with
      | nil => simpa [nul] using zero nul
      | cons c rest =>
        by_cases same : b p = c
        · have short : (cstring b (p + 1) n).length < n := by simpa using ended
          have tail := ih (fun member => clean (List.mem_cons_of_mem c member)) short
          have nonzero : c ≠ 0 := same ▸ nul
          simp [same,nonzero,tail]
        · simpa [same,nul] using zero same

theorem strncpy_byte (n : Nat) (target : Bytes) (t : Nat) (str : List UInt8) (j : Nat) :
    strncpy n target t str j = if t ≤ j ∧ j < t + n then str.getD (j - t) 0 else target j := by
  induction n generalizing target t str with
  | zero => rw [strncpy,if_neg (by omega)]
  | succ n ih =>
    rw [strncpy,ih]
    by_cases first : j = t
    · subst first
      rw [if_neg (by omega),if_pos (by omega),Function.update_self,Nat.sub_self]
      cases str <;> rfl
    · rw [Function.update_of_ne first]
      by_cases inside : t ≤ j ∧ j < t + (n + 1)
      · rw [if_pos inside,if_pos (by omega),show j - t = j - (t + 1) + 1 by omega]
        cases str <;> rfl
      · rw [if_neg inside,if_neg (by omega)]

theorem entryName_strncpy_self (good : IsFilename target) (md : Bytes) (k : Nat) :
    entryName (strncpy tfsFilenameMax md (namePosition k) target) k = target := by
  have short := good.short
  refine Holds.cstring ?_ good.clean short
  intro i small
  rw [strncpy_byte,if_pos (by omega),Nat.add_sub_cancel_left]

theorem entryName_strncpy (md : Bytes) (target : Name) (other : l ≠ k) :
    entryName (strncpy tfsFilenameMax md (namePosition k) target) l = entryName md l := by
  apply cstring_at
  intro j low high
  rw [strncpy_byte,if_neg]
  unfold namePosition tfsFilenameMax at *
  omega

@[simp] theorem entryInode_strncpy (md : Bytes) (target : Name) (k l : Nat) :
    entryInode (strncpy tfsFilenameMax md (namePosition k) target) l = entryInode md l := by
  apply word_congr
  intro j inside
  rw [strncpy_byte,if_neg]
  unfold namePosition tfsFilenameMax
  omega

/-! ### Bits and entries -/

section Bits
variable (o : ByteOrder) (bitmap : Bytes)

theorem bitmapGet_eq (pos : Nat) : bitmapGet o bitmap pos = Lib.bitmapGet bitmap pos := by
  simp [bitmapGet,Lib.bitmapGet]

theorem bitmapSet_eq (pos : Nat) (value : Bool) : bitmapSet o bitmap pos value = Lib.bitmapSet bitmap pos value := by
  simp [bitmapSet,Lib.bitmapSet]

theorem findClear_spec (left i : Nat) (below : ∀ n < i, bit bitmap n = true) :
    Found bitmap (i + left) (findClear o bitmap left i) := by
  induction left generalizing i with
  | zero => exact .inr ⟨below,rfl⟩
  | succ left ih =>
    rw [findClear,bitmapGet_eq,bitmapSet_eq,Lib.bitmapGet_eq]
    by_cases set_ : bit bitmap i = true
    · have more : ∀ n < i + 1, bit bitmap n = true := by
        intro n small
        by_cases last : n = i
        · rw [last,set_]
        · exact below n (by omega)
      have rest := ih (i + 1) more
      rw [show i + 1 + left = i + (left + 1) by omega] at rest
      simpa [set_] using rest
    · have clear := Bool.not_eq_true _ ▸ set_
      simp only [clear,Bool.false_eq_true,if_false,if_true]
      exact .inl ⟨i,by omega,clear,below,rfl⟩

theorem bitmapFindnset_spec (l : Nat) : Found bitmap l (bitmapFindnset o bitmap l) := by
  have found := findClear_spec o bitmap l 0 (by omega)
  rwa [Nat.zero_add] at found

theorem findnset_found {l : Nat} (small : l ≤ 4096) (found : toU32 (bitmapFindnset o bitmap l).1 < l) :
    ∃ n, n < l ∧ bit bitmap n = false ∧ toU32 (bitmapFindnset o bitmap l).1 = n ∧
      (bitmapFindnset o bitmap l).2 = Lib.bitmapSet bitmap n true := by
  obtain ⟨n,low,free,_,result⟩ | ⟨_,result⟩ := bitmapFindnset_spec o bitmap l
  · rw [result]
    refine ⟨n,low,free,?_,rfl⟩
    rw [toU32_small (Int.natCast_nonneg n) (by omega)]
    exact Int.toNat_natCast n
  · rw [result] at found
    have none_ : toU32 (-1) = 4294967295 := by decide
    rw [none_] at found
    omega

end Bits

section Directory
variable {o : ByteOrder} {md : Bytes} {target : Name}

theorem scanDirectory_some (scanned : scanDirectory o md target ks index = some result) :
    (∀ k ∈ ks, strncmp md tfsFilenameMax (namePosition k) target ≠ 0) ∧
    (result = index ∨ ∃ k ∈ ks, entryInode md k = 0 ∧ result = (k : Int)) := by
  induction ks generalizing index with
  | nil =>
    cases scanned
    exact ⟨by simp,.inl rfl⟩
  | cons k rest ih =>
    rw [scanDirectory] at scanned
    split at scanned
    · contradiction
    next different =>
    obtain ⟨others,chosen⟩ := ih scanned
    refine ⟨by simpa [different] using others,?_⟩
    rcases chosen with same | ⟨l,member,free,equal⟩
    · split at same
      · next free => exact .inr ⟨k,List.mem_cons_self,(o.load_eq_zero md (5 * k)).mp free.1,same⟩
      · exact .inl same
    · exact .inr ⟨l,List.mem_cons_of_mem k member,free,equal⟩

end Directory

/-! ### The blocks of a written file -/

/-- The loop has ended well: the blocks `bs` were free, are now the inode's from the `i`-th on
and hold the source. -/
structure Copied (numBlocks i : Nat) (source : List UInt8) (c c' : Copy) (bs : List Nat) : Prop where
  allocated : Allocated numBlocks bs c.bat c'.bat
  blocks : ∀ k (inside : k < bs.length), blockAt c'.inode (i + k) = bs[k]
  outside : ∀ k, k < i ∨ i + bs.length ≤ k → blockAt c'.inode k = blockAt c.inode k
  others : ∀ b, b ∉ bs → c'.disk b = c.disk b
  bytes : ∀ k (inside : k < bs.length) j, j < 512 → 512 * k + j < source.length →
    c'.disk bs[k] j = source.getD (512 * k + j) 0
  covers : source.length ≤ 512 * bs.length
  short : i + bs.length ≤ tfsBlocksMax

theorem Copied.nil (c : Copy) (empty : source.length = 0) (inside : i ≤ tfsBlocksMax) : Copied numBlocks i source c c [] :=
  ⟨⟨List.nodup_nil,by simp,by simp⟩,by simp,fun _ _ => rfl,fun _ _ => rfl,by simp,by simp [empty],by simpa using inside⟩

theorem fread_byte (data : Bytes) (small : j < 512) (there : j < source.length) :
    fread data tfsBlockSize source j = source.getD j 0 := by
  rw [fread,if_pos (show j < tfsBlockSize from small),List.getD_eq_getElem _ _ there,List.getD_eq_getElem _ _ there]

theorem Copied.cons {c c' : Copy} (small : numBlocks ≤ 4096) (low : n < numBlocks) (free : bit c.bat n = false)
    (rest : Copied numBlocks (i + 1) (source.drop tfsBlockSize) (c.fetch o i n (Lib.bitmapSet c.bat n true) source) c' bs) :
    Copied numBlocks i source c c' (n :: bs) := by
  have allocated : Allocated numBlocks (n :: bs) c.bat c'.bat := rest.allocated.cons low free
  have stored : ∀ k, blockAt (c.fetch o i n (Lib.bitmapSet c.bat n true) source).inode k =
      if k = i then n else blockAt c.inode k := by
    intro k
    have set_ := blockAt_setBlockAt c.inode i n k
    rw [Nat.mod_eq_of_lt (show n < 2 ^ 32 by omega)] at set_
    simpa [Copy.fetch,setBlockAt] using set_
  have apart : n ∉ bs := (List.nodup_cons.mp allocated.nodup).1
  refine ⟨allocated,?_,?_,?_,?_,?_,?_⟩
  · intro k inside
    cases k with
    | zero => rw [Nat.add_zero,rest.outside i (.inl (by omega)),stored,if_pos rfl,List.getElem_cons_zero]
    | succ k =>
      have next := rest.blocks k (by simpa using inside)
      rwa [show i + 1 + k = i + (k + 1) by omega] at next
  · intro k outside
    simp only [List.length_cons] at outside
    rw [rest.outside k (by omega),stored,if_neg (by omega)]
  · intro b absent
    simp only [List.mem_cons,not_or] at absent
    rw [rest.others b absent.2]
    exact Function.update_of_ne absent.1 _ _
  · intro k inside j below there
    cases k with
    | zero =>
      rw [List.getElem_cons_zero,rest.others n apart,Nat.mul_zero,Nat.zero_add]
      simp only [Copy.fetch,Function.update_self]
      exact fread_byte c.data below (by omega)
    | succ k =>
      have next := rest.bytes k (by simpa using inside) j below (by
        rw [List.length_drop]
        unfold tfsBlockSize
        omega)
      rw [List.getElem_cons_succ,next]
      simp only [List.getD_eq_getElem?_getD,List.getElem?_drop]
      rw [show tfsBlockSize + (512 * k + j) = 512 * (k + 1) + j by unfold tfsBlockSize; omega]
  · have covers := rest.covers
    rw [List.length_drop] at covers
    simp only [List.length_cons]
    unfold tfsBlockSize at covers
    omega
  · have short := rest.short
    simp only [List.length_cons]
    omega

theorem copyBlocks_ok (small : numBlocks ≤ 4096) (full : c.filesize = 512 * i) (inside : i ≤ tfsBlocksMax)
    (ok : (copyBlocks o numBlocks left i source c).writeok = true)
    (size : (copyBlocks o numBlocks left i source c).filesize = c.filesize + source.length) :
    ∃ bs, Copied numBlocks i source c (copyBlocks o numBlocks left i source c) bs := by
  induction left generalizing i source c with
  | zero =>
    rw [copyBlocks] at size ⊢
    exact ⟨[],Copied.nil c (by omega) inside⟩
  | succ left ih =>
    rw [copyBlocks] at ok size ⊢
    by_cases room : c.filesize < tfsMaxFilesize
    swap
    · rw [if_neg room] at size ⊢
      exact ⟨[],Copied.nil c (by omega) inside⟩
    have more : i + 1 ≤ tfsBlocksMax := by
      unfold tfsMaxFilesize tfsBlockSize tfsBlocksMax at *
      omega
    simp only [if_pos room] at ok size ⊢
    by_cases found : 2 < toU32 (bitmapFindnset o c.bat numBlocks).1 ∧ toU32 (bitmapFindnset o c.bat numBlocks).1 < numBlocks
    swap
    · simp [if_neg found] at ok
    simp only [if_pos found] at ok size ⊢
    obtain ⟨n,low,free,value,after⟩ := findnset_found o c.bat small found.2
    rw [value,after] at ok size ⊢
    by_cases last : source.length < tfsBlockSize
    · simp only [if_pos last] at ok size ⊢
      refine ⟨[n],Copied.cons small low free (Copied.nil _ ?_ more)⟩
      rw [List.length_drop]
      omega
    · simp only [if_neg last] at ok size ⊢
      have fetched : (c.fetch o i n (Lib.bitmapSet c.bat n true) source).filesize = c.filesize + 512 := by
        simp only [Copy.fetch]
        unfold tfsBlockSize at last ⊢
        omega
      obtain ⟨bs,rest⟩ := ih (by omega) more ok (by
        rw [size,fetched,List.length_drop]
        unfold tfsBlockSize at last ⊢
        omega)
      exact ⟨n :: bs,Copied.cons small low free rest⟩

/-! ### What the tool writes -/

theorem finishWrite_written (wrote : (finishWrite o md index n source target c).1 = .written) :
    c.filesize = source.length ∧ c.writeok = true ∧
    (finishWrite o md index n source target c).2 = Function.update (Function.update (Function.update c.disk n
      (setWord c.inode 0 c.filesize)) tfsDirectoryBlock (strncpy tfsFilenameMax (setEntryInode md index n)
      (namePosition index) target)) tfsAllocationBlock c.bat := by
  unfold finishWrite at wrote ⊢
  by_cases size : c.filesize = source.length
  swap
  · simp [size] at wrote
  by_cases ok : c.writeok = true
  swap
  · simp [size,ok] at wrote
  refine ⟨size,ok,?_⟩
  simp [size,ok,setEntryInode]

/-- The file is in the directory with the bytes of the source. -/
structure Wrote (g : Gbd) (source : List UInt8) (target : Name) (d d' : Disk) (index inode : Nat) (bs : List Nat) :
    Prop where
  added : Added g target d d' index inode bs
  size : filesize (d' inode) = source.length
  covers : source.length ≤ 512 * bs.length
  bytes : ∀ k (inside : k < bs.length) j, j < 512 → 512 * k + j < source.length →
    d' bs[k] j = source.getD (512 * k + j) 0

section Written
variable {g : Gbd} {d : Disk} (formed : WellFormed g d)
include formed

theorem readBlock_system (low : b < 3) : readBlock d g.blocks b stack = d b := by
  have := formed.size
  exact if_pos (by omega)

theorem strncmp_entry (clean : 0 ∉ target) (slot : k < tfsMaxFiles) :
    strncmp (d tfsDirectoryBlock) tfsFilenameMax (namePosition k) target = 0 ↔
      entryName (d tfsDirectoryBlock) k = target :=
  strncmp_eq_zero clean (formed.ended k slot)

theorem finishWrite_wrote (small : g.blocks ≤ 4096) (good : IsFilename target) (slot : index < tfsMaxFiles)
    (vacant : entryInode (d tfsDirectoryBlock) index = 0)
    (fresh : ∀ k < tfsMaxFiles, entryName (d tfsDirectoryBlock) k ≠ target) (low : n < g.blocks)
    (free : bit (d tfsAllocationBlock) n = false)
    (copied : Copied g.blocks 0 source ⟨stack,fun _ => 0,Lib.bitmapSet (d tfsAllocationBlock) n true,d,0,true⟩ c bs)
    (wrote : (finishWrite o (d tfsDirectoryBlock) index n source target c).1 = .written) :
    Wrote g source target d (finishWrite o (d tfsDirectoryBlock) index n source target c).2 index n bs := by
  obtain ⟨size,-,result⟩ := finishWrite_written wrote
  generalize (finishWrite o (d tfsDirectoryBlock) index n source target c).2 = d' at result
  have total : totalblocks g = g.blocks := by
    unfold totalblocks tfsBlockSize
    omega
  have allocated : Allocated (totalblocks g) (n :: bs) (d tfsAllocationBlock) c.bat := by
    rw [total]
    exact copied.allocated.cons low free
  have high : ∀ b ∈ n :: bs, 3 ≤ b := by
    intro b member
    by_contra few
    have clear := (allocated.free b member).2
    rw [formed.system b (by omega)] at clear
    contradiction
  have onBat : d' tfsAllocationBlock = c.bat := by
    rw [result,Function.update_self]
  have onMd : d' tfsDirectoryBlock = strncpy tfsFilenameMax (setEntryInode (d tfsDirectoryBlock) index n)
      (namePosition index) target := by
    rw [result,Function.update_of_ne (by decide),Function.update_self]
  have onData : ∀ b, b ≠ tfsAllocationBlock → b ≠ tfsDirectoryBlock → b ≠ n → d' b = c.disk b := by
    intro b notBat notMd notInode
    rw [result,Function.update_of_ne notBat,Function.update_of_ne notMd,Function.update_of_ne notInode]
  have first := high n List.mem_cons_self
  have onInode : d' n = setWord c.inode 0 c.filesize := by
    rw [result,Function.update_of_ne (by unfold tfsAllocationBlock; omega),
      Function.update_of_ne (by unfold tfsDirectoryBlock; omega),Function.update_self]
  have blocks : ∀ k, blockAt (d' n) k = blockAt c.inode k := by
    intro k
    rw [onInode]
    exact word_setWord_other c.inode c.filesize (by omega)
  have short : bs.length ≤ tfsBlocksMax := by simpa using copied.short
  refine ⟨⟨slot,vacant,fresh,short,?_,?_,?_,?_,?_,?_,?_⟩,?_,copied.covers,?_⟩
  · rw [onBat]
    exact allocated
  · rw [onMd,entryInode_strncpy,entryInode_setEntryInode_self,Nat.mod_eq_of_lt (by omega)]
  · rw [onMd]
    exact entryName_strncpy_self good _ index
  · intro k other
    rw [onMd,entryInode_strncpy,entryInode_setEntryInode n other,entryName_strncpy _ _ other,entryName_setEntryInode]
    exact ⟨rfl,rfl⟩
  · intro k inside
    have block := copied.blocks k inside
    rwa [Nat.zero_add,← blocks] at block
  · intro k outside _
    rw [blocks,copied.outside k (.inr (by omega))]
    exact word_zero fun _ _ => rfl
  · intro b notBat notMd absent
    simp only [List.mem_cons,not_or] at absent
    rw [onData b notBat notMd absent.1,copied.others b absent.2]
  · have covers := copied.covers
    unfold tfsBlocksMax at short
    rw [onInode,filesize,word_setWord_self,size,Nat.mod_eq_of_lt (by omega)]
  · intro k inside j below there
    have member := List.getElem_mem inside
    have above := high _ (List.mem_cons_of_mem n member)
    have other : bs[k] ≠ n := fun same => (List.nodup_cons.mp allocated.nodup).1 (same ▸ member)
    rw [onData _ (by unfold tfsAllocationBlock; omega) (by unfold tfsDirectoryBlock; omega) other]
    exact copied.bytes k inside j below there

theorem tfstoolWrite_wrote (small : g.blocks ≤ 4096) (good : IsFilename target)
    (wrote : (tfstoolWrite o g.blocks stack source target d).1 = .written) :
    ∃ index inode bs, Wrote g source target d (tfstoolWrite o g.blocks stack source target d).2 index inode bs := by
  unfold tfstoolWrite at wrote ⊢
  simp only [readBlock_system formed (show tfsDirectoryBlock < 3 by decide),
    readBlock_system formed (show tfsAllocationBlock < 3 by decide)] at wrote ⊢
  cases scanned : scanDirectory o (d tfsDirectoryBlock) target (List.range tfsMaxFiles) (-1) with
  | none => simp [scanned] at wrote
  | some index =>
    simp only [scanned] at wrote ⊢
    by_cases negative : index < 0
    · simp [negative] at wrote
    rw [if_neg negative] at wrote ⊢
    obtain ⟨different,chosen⟩ := scanDirectory_some scanned
    obtain same | ⟨k,member,vacant,rfl⟩ := chosen
    · omega
    have slot := List.mem_range.mp member
    have fresh : ∀ l < tfsMaxFiles, entryName (d tfsDirectoryBlock) l ≠ target := by
      intro l there same
      exact different l (List.mem_range.mpr there) ((strncmp_entry formed good.clean there).mpr same)
    by_cases found : 2 < toU32 (bitmapFindnset o (d tfsAllocationBlock) g.blocks).1 ∧
        toU32 (bitmapFindnset o (d tfsAllocationBlock) g.blocks).1 < g.blocks
    swap
    · simp [if_neg found] at wrote
    rw [if_pos found] at wrote ⊢
    obtain ⟨n,low,free,value,after⟩ := findnset_found o (d tfsAllocationBlock) small found.2
    rw [value,after,Int.toNat_natCast] at wrote ⊢
    obtain ⟨size,ok,-⟩ := finishWrite_written wrote
    obtain ⟨bs,copied⟩ := copyBlocks_ok small rfl (Nat.zero_le _) ok (by simpa using size)
    exact ⟨k,n,bs,finishWrite_wrote formed small good slot vacant fresh low free copied wrote⟩

theorem Wrote.wellFormed (wrote : Wrote g source target d d' index inode bs) (good : IsFilename target) :
    WellFormed g d' := by
  apply wrote.added.wellFormed formed good
  have covers := wrote.covers
  rw [wrote.size]
  unfold tfsBlockSize
  omega

theorem Wrote.content (wrote : Wrote g source target d d' index inode bs) : content d' inode = source := by
  have blocks := wrote.added.dataBlocks_new formed
  have covers := wrote.covers
  have enough : (filesize (d' inode) + 511) / tfsBlockSize ≤ (dataBlocks (d' inode)).length := by
    rw [wrote.size,blocks]
    unfold tfsBlockSize
    omega
  rw [content_eq enough,wrote.size]
  apply List.ext_getElem (by simp)
  intro i _ there
  have inside : i / 512 < bs.length := by omega
  have byte := wrote.bytes (i / 512) inside (i % 512) (Nat.mod_lt i (by decide)) (by rwa [Nat.div_add_mod])
  rw [List.getElem_map,List.getElem_range,fileByte]
  rw [show tfsBlockSize = 512 from rfl,wrote.added.blocks _ inside,byte,Nat.div_add_mod,List.getD_eq_getElem _ _ there]

end Written

/-! ### What the tool reads -/

theorem bytesAt_take (b : Bytes) (p k n : Nat) : (bytesAt b p n).take k = bytesAt b p (min k n) := by
  rw [bytesAt,← List.map_take,List.take_range,bytesAt]

/-- The loop of `tfstool_read` takes the blocks up to the first zero and cuts the bytes at the
size of the file. -/
theorem copyOut_eq (inside : ∀ b ∈ ((List.range' i left).map (blockAt inode)).takeWhile (· ≠ 0), b < numBlocks)
    (small : size < 2 ^ 32) (few : count ≤ size) :
    copyOut o d numBlocks inode size left i data count =
      ((((List.range' i left).map (blockAt inode)).takeWhile (· ≠ 0)).flatMap fun b => bytesAt (d b) 0 tfsBlockSize).take
        (size - count) := by
  induction left generalizing i data count with
  | zero => simp [copyOut]
  | succ left ih =>
    have block : o.ntohl (o.load inode (1 + i)) = blockAt inode i := o.ntohl_load inode (1 + i)
    rw [copyOut,block]
    rw [List.range'_succ,List.map_cons] at inside ⊢
    by_cases ended : blockAt inode i = 0
    · rw [if_neg (by simpa using ended),List.takeWhile_cons_of_neg (by simpa using ended)]
      simp
    · rw [if_pos ended]
      rw [List.takeWhile_cons_of_pos (by simpa using ended)] at inside ⊢
      have here := inside _ List.mem_cons_self
      have rest : toU32 ((size : Int) - count) = size - count := by
        rw [toU32_small (by omega) (by omega)]
        omega
      have width : (bytesAt (d (blockAt inode i)) 0 tfsBlockSize).length = tfsBlockSize := by simp [bytesAt]
      have left_ : size - (count + min (size - count) tfsBlockSize) = size - count - tfsBlockSize := by omega
      rw [readBlock,if_pos here,rest,List.flatMap_cons,List.take_append,bytesAt_take,width]
      dsimp only
      rw [ih (fun b member => inside b (List.mem_cons_of_mem _ member)) (by omega),left_]

theorem tfstoolRead_content (o : ByteOrder) (stack : Bytes) (formed : WellFormed g d) (good : IsFilename source)
    (named : Named d source fileid) : tfstoolRead o g.blocks stack source d = some (content d fileid.toNat) := by
  obtain ⟨k,slot,name,used,rfl⟩ := named
  obtain ⟨_,inside⟩ := formed.inode_inside slot used
  have total := (totalblocks_le g).1
  have file : IsFile d (entryInode (d tfsDirectoryBlock) k) := ⟨used,k,slot,rfl⟩
  have intact := formed.intact file
  have found : ((List.range tfsMaxFiles).find? fun k =>
      strncmp (d tfsDirectoryBlock) tfsFilenameMax (namePosition k) source == 0) = some k := by
    rw [← findEntry_named formed good.clean good.nonempty slot name]
    apply List.find?_congr
    intro l member
    have there := List.mem_range.mp member
    rw [Bool.eq_iff_iff,beq_iff_eq,strncmp_entry formed good.clean there,entryIs_iff good.clean (formed.ended l there)]
  have number : o.ntohl (o.load (d tfsDirectoryBlock) (5 * k)) = entryInode (d tfsDirectoryBlock) k :=
    o.ntohl_load (d tfsDirectoryBlock) (5 * k)
  simp only [tfstoolRead,readBlock_system formed (show tfsDirectoryBlock < 3 by decide),found,number]
  rw [readBlock,if_pos (by omega),o.ntohl_load,copyOut_eq ?_ (word_lt _ 0) (Nat.zero_le _)]
  · rw [Int.toNat_natCast,content,dataBlocks,List.range_eq_range']
    rfl
  · intro b member
    rw [← List.range_eq_range'] at member
    have := (intact.inside b (List.mem_cons_of_mem _ member)).2
    omega

/-! ### The tool and the kernel -/

/-- `tfs_open` and then `tfs_read` from the start of the file. -/
def openAndRead (g : Gbd) (filename : Name) (buffer : Nat) (n : Int) (m : Machine) : Int × Machine :=
  let opened := tfsOpen g filename m
  tfsRead g opened.1 buffer n 0 opened.2

/-- A call of `tfs_write`, with the caller's memory. -/
structure WriteCall where
  user : Bytes
  buffer : Nat
  datasize : Nat
  offset : Int

def WriteCall.perform (g : Gbd) (fileid : Int) (m : Machine) (call : WriteCall) : Machine :=
  (tfsWrite g fileid call.buffer call.datasize call.offset { m with user := call.user }).2

/-- `tfs_open` and then calls of `tfs_write`. -/
def openAndWrite (g : Gbd) (filename : Name) (calls : List WriteCall) (m : Machine) : Machine :=
  let opened := tfsOpen g filename m
  calls.foldl (WriteCall.perform g opened.1) opened.2

def overwrite (file : List UInt8) (call : WriteCall) : List UInt8 :=
  if 0 ≤ call.offset ∧ call.offset ≤ file.length then
    let k := min call.datasize (file.length - call.offset.toNat)
    file.take call.offset.toNat ++ bytesAt call.user call.buffer k ++ file.drop (call.offset.toNat + k)
  else file

section Agreement
variable {g : Gbd} {filename : Name} (reliable : Reliable g) (good : IsFilename filename)
include reliable good

/-- The kernel reads the content of the file, if the buffer is large enough. -/
theorem openAndRead_content {m : Machine} (formed : WellFormed g m.disk) (named : Named m.disk filename fileid)
    (buffer : Nat) (large : ((content m.disk fileid.toNat).length : Int) ≤ n) :
    (openAndRead g filename buffer n m).1 = (content m.disk fileid.toNat).length ∧
    bytesAt (openAndRead g filename buffer n m).2.user buffer (content m.disk fileid.toNat).length =
      content m.disk fileid.toNat := by
  obtain ⟨f,rfl,file⟩ := named.isFile
  have opened := named.tfsOpen reliable formed good
  have disk := tfsOpen_disk g filename m
  have intact := formed.intact file
  have length : (content m.disk f).length = filesize (m.disk f) := by
    rw [content_eq intact.enough]
    simp
  rw [Int.toNat_natCast,length] at large ⊢
  simp only [openAndRead,opened]
  generalize (tfsOpen g filename m).2 = z at disk
  have read := tfsRead_content reliable (disk ▸ formed) (disk ▸ file) buffer (show 0 ≤ n by omega) (Int.le_refl 0)
    (Int.natCast_nonneg _)
  have returned := read.returned
  have stored := read.stored
  rw [disk] at returned stored
  have whole : (tfsRead g f buffer n 0 z).1 = filesize (m.disk f) := by
    rw [returned]
    omega
  rw [whole] at stored
  refine ⟨whole,?_⟩
  rw [Int.toNat_natCast] at stored
  rw [stored,Int.toNat_zero,List.drop_zero,← length,List.take_length]

end Agreement

theorem tfsWrite_overwrite (reliable : Reliable g) {m : Machine} (formed : WellFormed g m.disk)
    (file : IsFile m.disk fileid) (call : WriteCall) (user : m.user = call.user) :
    content (tfsWrite g fileid call.buffer call.datasize call.offset m).2.disk fileid =
      overwrite (content m.disk fileid) call := by
  have length : (content m.disk fileid).length = filesize (m.disk fileid) := by
    rw [content_eq (formed.intact file).enough]
    simp
  unfold overwrite
  rw [length]
  by_cases inside : 0 ≤ call.offset ∧ call.offset ≤ filesize (m.disk fileid)
  · rw [if_pos inside]
    have written := tfsWrite_content reliable formed file call.buffer (Int.natCast_nonneg call.datasize) inside.1 inside.2
    have returned : (tfsWrite g fileid call.buffer call.datasize call.offset m).1.toNat =
        min call.datasize (filesize (m.disk fileid) - call.offset.toNat) := by
      rw [written.returned]
      omega
    have replaced := written.replaced
    rw [returned,user] at replaced
    exact replaced
  · rw [if_neg inside,(tfsWrite_outside reliable formed file call.buffer call.datasize call.offset (by omega)).2]

theorem perform_content (reliable : Reliable g) (call : WriteCall) {m : Machine} (formed : WellFormed g m.disk)
    (named : Named m.disk filename (fileid : Nat)) :
    WellFormed g (call.perform g fileid m).disk ∧ Named (call.perform g fileid m).disk filename fileid ∧
      content (call.perform g fileid m).disk fileid = overwrite (content m.disk fileid) call := by
  obtain ⟨f,same,file⟩ := named.isFile
  obtain rfl : fileid = f := by omega
  unfold WriteCall.perform
  generalize start : ({ m with user := call.user } : Machine) = z
  have disk : z.disk = m.disk := by rw [← start]
  have user : z.user = call.user := by rw [← start]
  rw [← disk] at formed named file ⊢
  obtain ⟨kept,directory,-⟩ := tfsWrite_keeps reliable formed file call.buffer (Int.natCast_nonneg call.datasize) call.offset
  exact ⟨kept,named.directory directory,tfsWrite_overwrite reliable formed file call user⟩

theorem writes_content (reliable : Reliable g) (calls : List WriteCall) {m : Machine} (formed : WellFormed g m.disk)
    (named : Named m.disk filename (fileid : Nat)) :
    WellFormed g (calls.foldl (WriteCall.perform g fileid) m).disk ∧
      Named (calls.foldl (WriteCall.perform g fileid) m).disk filename fileid ∧
      content (calls.foldl (WriteCall.perform g fileid) m).disk fileid =
        calls.foldl overwrite (content m.disk fileid) := by
  induction calls generalizing m with
  | nil =>
    rw [List.foldl_nil,List.foldl_nil]
    exact ⟨formed,named,rfl⟩
  | cons call rest ih =>
    obtain ⟨kept,there,replaced⟩ := perform_content reliable call formed named
    have final := ih kept there
    rw [replaced] at final
    rw [List.foldl_cons,List.foldl_cons]
    exact final

theorem tool_writes (small : g.blocks ≤ 4096) (good : IsFilename filename)
    (formed : WellFormed g d) (result : tfstoolWrite o g.blocks stack source filename d = (.written, d')) :
    ∃ inode : Nat, WellFormed g d' ∧ Named d' filename inode ∧ content d' inode = source := by
  have outcome : (tfstoolWrite o g.blocks stack source filename d).1 = .written := by rw [result]
  obtain ⟨index,inode,bs,wrote⟩ := tfstoolWrite_wrote formed small good outcome
  have disk : (tfstoolWrite o g.blocks stack source filename d).2 = d' := by rw [result]
  rw [disk] at wrote
  exact ⟨inode,wrote.wellFormed formed good,wrote.added.named formed,wrote.content formed⟩

theorem kernel_creates (reliable : Reliable g) (good : IsFilename filename) {m : Machine} (formed : WellFormed g m.disk)
    (nonneg : 0 ≤ size) (int : size < 2 ^ 31) (result : tfsCreate g filename size m = (vfsOk, m')) :
    ∃ inode : Nat, WellFormed g m'.disk ∧ Named m'.disk filename inode ∧
      content m'.disk inode = List.replicate size.toNat 0 := by
  have disk : (tfsCreate g filename size m).2 = m' := by rw [result]
  obtain ⟨failed,-⟩ | ⟨index,inode,bs,-,created,zeroed⟩ := tfsCreate_effect reliable formed good size
  · rw [result] at failed
    exact absurd failed (show vfsOk ≠ vfsError by decide)
  · rw [disk] at created zeroed
    exact ⟨inode,created.wellFormed formed good nonneg int,created.added.named formed,
      created.content_new formed nonneg int zeroed⟩

/-- What the tool writes, the tool and the kernel read back, and what the kernel writes to a new
file the tool reads. -/
theorem tfstool_agrees (reliable : Reliable g) (small : g.blocks ≤ 4096) (good : IsFilename filename)
    (writer reader : ByteOrder) (stack stack' : Bytes) :
    (∀ d d' source, WellFormed g d → tfstoolWrite writer g.blocks stack source filename d = (.written, d') →
      WellFormed g d' ∧ tfstoolRead reader g.blocks stack' filename d' = some source ∧
      ∀ (m : Machine) (buffer : Nat) (n : Int), m.disk = d' → source.length ≤ n →
        (openAndRead g filename buffer n m).1 = source.length ∧
        bytesAt (openAndRead g filename buffer n m).2.user buffer source.length = source) ∧
    ∀ (m m' : Machine) (size : Int) (calls : List WriteCall), WellFormed g m.disk → 0 ≤ size → size < 2 ^ 31 →
      tfsCreate g filename size m = (vfsOk, m') →
      tfstoolRead reader g.blocks stack' filename (openAndWrite g filename calls m').disk =
        some (calls.foldl overwrite (List.replicate size.toNat 0)) := by
  constructor
  · intro d d' source formed result
    obtain ⟨inode,formed',named,bytes⟩ := tool_writes small good formed result
    have read := tfstoolRead_content reader stack' formed' good named
    rw [Int.toNat_natCast,bytes] at read
    refine ⟨formed',read,?_⟩
    intro m buffer n same large
    subst same
    have kernel := openAndRead_content reliable good formed' named buffer (n := n)
    rw [Int.toNat_natCast,bytes] at kernel
    exact kernel large
  · intro m m' size calls formed nonneg int result
    obtain ⟨inode,formed',named,zeros⟩ := kernel_creates reliable good formed nonneg int result
    have opened := named.tfsOpen reliable formed' good
    have disk := tfsOpen_disk g filename m'
    simp only [openAndWrite,opened]
    rw [← disk] at formed' named zeros
    obtain ⟨kept,there,final⟩ := writes_content reliable calls formed' named
    rw [tfstoolRead_content reader stack' kept good there,Int.toNat_natCast,final,zeros]

/-- Three bytes written by a little-endian host. -/
theorem tfstool_agrees_sample : ∃ d', tfstoolWrite .little sampleGbd.blocks (fun _ => 7) [1,2,3] sampleName sampleMachine.disk =
      (.written, d') ∧ tfstoolRead .big sampleGbd.blocks (fun _ => 7) sampleName d' = some [1,2,3] ∧
    ∃ m', tfsCreate sampleGbd sampleName 600 sampleMachine = (vfsOk, m') ∧
      tfstoolRead .big sampleGbd.blocks (fun _ => 7) sampleName (openAndWrite sampleGbd sampleName [⟨fun _ => 9,0,600,0⟩] m').disk =
        some (([⟨fun _ => 9,0,600,0⟩] : List WriteCall).foldl overwrite (List.replicate (600 : Int).toNat 0)) := by
  have good : IsFilename sampleName := ⟨by decide,by decide,by decide⟩
  have agrees := tfstool_agrees (g := sampleGbd) (fun _ => rfl) (by decide) good .little .big (fun _ => 7) (fun _ => 7)
  have outcome : (tfstoolWrite .little sampleGbd.blocks (fun _ => 7) [1,2,3] sampleName sampleMachine.disk).1 = .written := by
    decide +kernel
  have created : (tfsCreate sampleGbd sampleName 600 sampleMachine).1 = vfsOk := by decide +kernel
  have pair : ∀ {α β : Type} {p : α × β} {a : α}, p.1 = a → ∃ b, p = (a, b) := by
    rintro α β ⟨a,b⟩ _ rfl
    exact ⟨b,rfl⟩
  obtain ⟨d',written⟩ := pair outcome
  obtain ⟨m',made⟩ := pair created
  refine ⟨d',written,(agrees.1 _ _ _ sampleMachine_wellFormed written).2.1,m',made,?_⟩
  exact agrees.2 _ _ _ _ sampleMachine_wellFormed (by decide) (by decide) made

end Buenos.Fs.Tfstool
