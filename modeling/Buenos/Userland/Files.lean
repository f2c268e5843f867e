import Buenos.Fs.TfsExact
import Buenos.Fs.TfsHandles
import Buenos.Lib.XprintfBounds

/-! Files as a program sees them: the system calls of `proc/syscall.c` down to the TFS volumes,
and the `printf` of `tests/lib.c`. One program runs, with several volumes mounted. -/
namespace Buenos.Userland.Files

open Buenos.Foundation Buenos.Lib Buenos.Fs Buenos.Fs.Tfs
open Buenos.Fs.Handles (Cstring row_lt vfsParsePathname_isFilename)

/-- What stays as it is: the disks, the mount table, and the bytes at the addresses of the
program, `none` where none is mapped. -/
structure System where
  gbd : FsPtr → Gbd
  mounted : Name → Option FsPtr
  memory : Nat → Option UInt8

/-- A row of `openfile_table` in use. -/
structure Entry where
  filesystem : FsPtr
  fileid : Int
  seekPosition : Int

structure State where
  machine : FsPtr → Machine
  files : FileRow → Option Entry
  console : List UInt8

def State.setFile (s : State) (row : FileRow) (f : Option Entry) : State :=
  { s with files := Function.update s.files row f }

def State.setMachine (s : State) (fs : FsPtr) (m : Machine) : State :=
  { s with machine := Function.update s.machine fs m }

def freeRow (s : State) : Option FileRow := (List.finRange configMaxOpenFiles).find? fun row => (s.files row).isNone

def verifyOpen (s : State) (file : Int) : Option (FileRow × Entry) :=
  if h : 0 ≤ file ∧ file < configMaxOpenFiles then
    let row : FileRow := ⟨file.toNat, row_lt h⟩
    (s.files row).map fun f => (row, f)
  else none

/-! ### The system calls

Handles are rows plus 3. `none` is a failing assertion of the kernel. -/

def syscallOpen (y : System) (pathname : Cstring) (s : State) : Int × State :=
  match vfsParsePathname pathname.chars with
  | none => (vfsError, s)
  | some (volume, filename) =>
    match freeRow s with
    | none => (vfsLimit, s)
    | some row =>
      match y.mounted volume with
      | none => (vfsNoSuchFs, s)
      | some fs =>
        let r := tfsOpen (y.gbd fs) filename (s.machine fs)
        let s := s.setMachine fs r.2
        if r.1 < 0 then (r.1, s) else (row.val + 3, s.setFile row (some ⟨fs, r.1, 0⟩))

def syscallCreate (y : System) (pathname : Cstring) (size : Int) (s : State) : Option (Int × State) :=
  if size < 0 then none
  else match vfsParsePathname pathname.chars with
    | none => some (vfsError, s)
    | some (volume, filename) =>
      match y.mounted volume with
      | none => some (vfsNoSuchFs, s)
      | some fs =>
        let r := tfsCreate (y.gbd fs) filename size (s.machine fs)
        some (r.1, s.setMachine fs r.2)

/-- After the driver's part of a read or write: the position moves by what was transferred. -/
def State.transferred (s : State) (row : FileRow) (f : Entry) (r : Int × Machine) : State :=
  (s.setMachine f.filesystem r.2).setFile row
    (some { f with seekPosition := if 0 < r.1 then f.seekPosition + r.1 else f.seekPosition })

/-- The read of a file into `text`, which is also returned. -/
def syscallRead (y : System) (fd : Int) (text : Bytes) (len : Int) (s : State) : Option (Int × Bytes × State) :=
  (verifyOpen s (fd - 3)).bind fun found =>
    if len < 0 then none
    else
      let f := found.2
      let r := tfsRead (y.gbd f.filesystem) f.fileid 0 len f.seekPosition { s.machine f.filesystem with user := text }
      some (r.1, r.2.user, s.transferred found.1 f r)

def syscallWrite (y : System) (fd : Int) (text : Bytes) (len : Int) (s : State) : Option (Int × State) :=
  (verifyOpen s (fd - 3)).bind fun found =>
    if len < 0 then none
    else
      let f := found.2
      let r := tfsWrite (y.gbd f.filesystem) f.fileid 0 len f.seekPosition { s.machine f.filesystem with user := text }
      some (r.1, s.transferred found.1 f r)

def syscallSeek (fd offset : Int) (s : State) : Option (Int × State) :=
  if offset < 0 then none
  else (verifyOpen s (fd - 3)).map fun found =>
    (vfsOk, s.setFile found.1 (some { found.2 with seekPosition := offset }))

def syscallClose (fd : Int) (s : State) : Option (Int × State) :=
  (verifyOpen s (fd - 3)).map fun found => (vfsOk, s.setFile found.1 none)

/-! ### Messages -/

/-- Parts of a format with their arguments. -/
inductive Piece where
  | text (chars : List UInt8)
  | int (n : Int)
  | string (address : Nat)

/-- The loop of `%s`, with room for so many characters; `none` is a fault. -/
def stringAt (memory : Nat → Option UInt8) : Nat → Nat → Option (List UInt8)
  | 0, _ => some []
  | room + 1, address =>
    (memory address).bind fun c =>
      if c = 0 then some [] else (stringAt memory room ((address + 1) % 2 ^ 32)).map fun rest => c :: rest

def Piece.print (memory : Nat → Option UInt8) (room : Nat) : Piece → Option (List UInt8)
  | .text chars => some (chars.take room)
  | .int n => some ((Xprintf.signedText ⟨.none true, -1, -1⟩ n).take room)
  | .string address => stringAt memory room address

def vxnprintf (memory : Nat → Option UInt8) : Nat → List Piece → Option (List UInt8)
  | _, [] => some []
  | room, p :: rest =>
    (p.print memory room).bind fun printed =>
      (vxnprintf memory (room - printed.length) rest).map fun later => printed ++ later

def printfRoom : Nat := 0x7fffffff

def printf (y : System) (parts : List Piece) (s : State) : Option State :=
  (vxnprintf y.memory printfRoom parts).map fun printed => { s with console := s.console ++ printed }

theorem printf_plain (y : System) (s : State) (plain : ∀ p ∈ parts, ∀ address, p ≠ .string address) :
    ∃ printed, printf y parts s = some { s with console := s.console ++ printed } := by
  suffices ∀ room, ∃ printed, vxnprintf y.memory room parts = some printed by
    obtain ⟨printed,same⟩ := this printfRoom
    exact ⟨printed,by rw [printf,same,Option.map_some]⟩
  induction parts with
  | nil => exact fun _ => ⟨[],rfl⟩
  | cons p rest ih =>
    intro room
    have one : ∃ printed, p.print y.memory room = some printed := by
      cases p with
      | text chars => exact ⟨_,rfl⟩
      | int n => exact ⟨_,rfl⟩
      | string address => exact absurd rfl (plain _ List.mem_cons_self address)
    obtain ⟨printed,here⟩ := one
    obtain ⟨later,there⟩ := ih (fun q member => plain q (List.mem_cons_of_mem p member)) (room - printed.length)
    exact ⟨printed ++ later,by rw [vxnprintf,here,Option.bind_some,there,Option.map_some]⟩

theorem reversed_length (smalls : Bool) (base room n : Nat) : (Xprintf.reversed smalls base room n).length ≤ room := by
  induction room generalizing n with
  | zero => exact Nat.le_refl 0
  | succ room ih =>
    rw [Xprintf.reversed,List.length_cons]
    apply Nat.succ_le_succ
    split
    · exact Nat.zero_le room
    · exact ih _

theorem int_length (n : Int) : (Xprintf.signedText ⟨.none true, -1, -1⟩ n).length ≤ 12 := by
  have digits := reversed_length false 10 11 (toU32 (if n < 0 then wrap (-n) else n))
  have sign : (Xprintf.signs ⟨.none true, -1, -1⟩ n).length ≤ 1 := by
    unfold Xprintf.signs
    split <;> decide
  have unpadded : ∀ (c : UInt8) (rev : List UInt8), Xprintf.pad c (min 0 11) rev = rev := by
    intro c rev
    rw [Xprintf.pad,show (min (0 : Int) 11 - rev.length).toNat = 0 by omega,List.replicate_zero,List.append_nil]
  rw [Xprintf.signedText,List.length_append,Xprintf.uintText,unpadded,unpadded,List.length_reverse]
  exact Nat.add_le_add sign digits

theorem vxnprintf_fault (unmapped : memory address = none) (positive : 0 < room) (rest : List Piece) :
    vxnprintf memory room (.string address :: rest) = none := by
  obtain ⟨left,rfl⟩ := Nat.exists_eq_succ_of_ne_zero (Nat.ne_of_gt positive)
  rw [vxnprintf,Piece.print,stringAt,unmapped,Option.bind_none,Option.bind_none]

/-- A fault behind a piece, whatever room that leaves. -/
theorem vxnprintf_behind (p : Piece) (short : ∀ printed, p.print memory room = some printed → printed.length ≤ k)
    (fault : ∀ left, room ≤ left + k → vxnprintf memory left rest = none) : vxnprintf memory room (p :: rest) = none := by
  rw [vxnprintf]
  cases printing : p.print memory room with
  | none => rfl
  | some printed =>
    have bound := short printed printing
    rw [Option.bind_some,fault _ (by omega),Option.map_none]

theorem text_short (printing : (Piece.text text).print memory room = some printed) : printed.length ≤ text.length := by
  cases printing
  exact List.length_take_le' room text

theorem int_short (printing : (Piece.int n).print memory room = some printed) : printed.length ≤ 12 := by
  cases printing
  exact (List.length_take_le' room _).trans (int_length n)

/-! ### Rows -/

@[simp] theorem setFile_machine (s : State) (row : FileRow) (f : Option Entry) : (s.setFile row f).machine = s.machine := rfl
@[simp] theorem setMachine_files (s : State) (fs : FsPtr) (m : Machine) : (s.setMachine fs m).files = s.files := rfl
@[simp] theorem setFile_files (s : State) (row : FileRow) (f : Option Entry) :
    (s.setFile row f).files = Function.update s.files row f := rfl
@[simp] theorem setMachine_machine (s : State) (fs : FsPtr) (m : Machine) :
    (s.setMachine fs m).machine = Function.update s.machine fs m := rfl

theorem freeRow_some (found : freeRow s = some row) : s.files row = none := by
  have free := List.find?_some found
  exact Option.isNone_iff_eq_none.mp free

theorem freeRow_none : freeRow s = none ↔ ∀ row, s.files row ≠ none := by
  simp [freeRow,Option.isNone_iff_eq_none]

theorem verifyOpen_row (s : State) (row : FileRow) : verifyOpen s (row.val + 3 - 3) = (s.files row).map fun f => (row, f) := by
  have inside : (0 : Int) ≤ row.val + 3 - 3 ∧ ((row.val : Int) + 3 - 3) < configMaxOpenFiles := by
    have := row.isLt
    omega
  have same : (⟨((row.val : Int) + 3 - 3).toNat,row_lt inside⟩ : FileRow) = row := by
    apply Fin.ext
    dsimp only
    omega
  rw [verifyOpen,dif_pos inside]
  dsimp only
  rw [same]

section Row
variable {s : State} {row : FileRow} {f : Entry} (here : s.files row = some f)
include here

theorem syscallRead_row (y : System) (text : Bytes) (nonneg : 0 ≤ len) : syscallRead y (row.val + 3) text len s =
    some ((tfsRead (y.gbd f.filesystem) f.fileid 0 len f.seekPosition { s.machine f.filesystem with user := text }).1,
      (tfsRead (y.gbd f.filesystem) f.fileid 0 len f.seekPosition { s.machine f.filesystem with user := text }).2.user,
      s.transferred row f
        (tfsRead (y.gbd f.filesystem) f.fileid 0 len f.seekPosition { s.machine f.filesystem with user := text })) := by
  rw [syscallRead,verifyOpen_row,here,Option.map_some,Option.bind_some,if_neg (by omega)]

theorem syscallWrite_row (y : System) (text : Bytes) (nonneg : 0 ≤ len) : syscallWrite y (row.val + 3) text len s =
    some ((tfsWrite (y.gbd f.filesystem) f.fileid 0 len f.seekPosition { s.machine f.filesystem with user := text }).1,
      s.transferred row f
        (tfsWrite (y.gbd f.filesystem) f.fileid 0 len f.seekPosition { s.machine f.filesystem with user := text })) := by
  rw [syscallWrite,verifyOpen_row,here,Option.map_some,Option.bind_some,if_neg (by omega)]

theorem syscallSeek_row (nonneg : 0 ≤ offset) : syscallSeek (row.val + 3) offset s =
    some (vfsOk, s.setFile row (some { f with seekPosition := offset })) := by
  rw [syscallSeek,if_neg (by omega),verifyOpen_row,here,Option.map_some,Option.map_some]

theorem syscallClose_row : syscallClose (row.val + 3) s = some (vfsOk, s.setFile row none) := by
  rw [syscallClose,verifyOpen_row,here,Option.map_some,Option.map_some]

end Row

/-! ### Files that exist -/

structure File where
  filesystem : FsPtr
  fileid : Nat

def fileBytes (s : State) (f : File) : List UInt8 := content (s.machine f.filesystem).disk f.fileid

/-- A pathname of a file on a well-formed volume. -/
structure Names (y : System) (s : State) (pathname : Cstring) (f : File) : Prop where
  found : ∃ volume filename, vfsParsePathname pathname.chars = some (volume, filename) ∧
    y.mounted volume = some f.filesystem ∧ Named (s.machine f.filesystem).disk filename f.fileid
  formed : WellFormed (y.gbd f.filesystem) (s.machine f.filesystem).disk

theorem Names.isFile (names : Names y s pathname f) : IsFile (s.machine f.filesystem).disk f.fileid := by
  obtain ⟨_,_,_,_,named⟩ := names.found
  obtain ⟨n,same,file⟩ := named.isFile
  cases Int.ofNat.inj same
  exact file

theorem Names.same (names : Names y s pathname f) (disk : ∀ fs, (t.machine fs).disk = (s.machine fs).disk) :
    Names y t pathname f := by
  obtain ⟨found,formed⟩ := names
  rw [← disk f.filesystem] at found formed
  exact ⟨found,formed⟩

/-! ### Requests

Any request to a disk may fail. Only their number tells a disk which one it is. -/

def disks (s : State) : FsPtr → Disk := fun fs => (s.machine fs).disk

def requests (s : State) : FsPtr → Nat := fun fs => (s.machine fs).log.length

def bump (requested : FsPtr → Nat) (fs : FsPtr) (k : Nat) : FsPtr → Nat :=
  Function.update requested fs (requested fs + k)

theorem fileBytes_disks (same : disks t = disks s) (f : File) : fileBytes t f = fileBytes s f := by
  have here : (t.machine f.filesystem).disk = (s.machine f.filesystem).disk := congrFun same f.filesystem
  rw [fileBytes,here,fileBytes]

theorem disks_setMachine {s : State} {m : Machine} (same : m.disk = (s.machine fs).disk) :
    disks (s.setMachine fs m) = disks s := by
  funext other
  unfold disks
  by_cases here : other = fs
  · rw [here,setMachine_machine,Function.update_self,same]
  · rw [setMachine_machine,Function.update_of_ne here]

theorem requests_setMachine {s : State} {m : Machine} (more : m.log.length = (s.machine fs).log.length + k) :
    requests (s.setMachine fs m) = bump (requests s) fs k := by
  funext other
  unfold requests bump
  by_cases here : other = fs
  · rw [here,setMachine_machine,Function.update_self,Function.update_self,more]
  · rw [setMachine_machine,Function.update_of_ne here,Function.update_of_ne here]

/-- What a read of one byte at a position gives, the next request being number `n`. -/
def fetched (succeeds : Nat → Bool) (n : Nat) (bytes : List UInt8) (i : Nat) : Option UInt8 :=
  if succeeds n ∧ succeeds (n + 1) then bytes[i]? else none

/-- The requests it makes: one for the inode, and one for the block of the byte. -/
def requestsFor (succeeds : Nat → Bool) (n : Nat) (bytes : List UInt8) (i : Nat) : Nat :=
  if succeeds n ∧ i < bytes.length then 2 else 1

structure ReadsByte (g : Gbd) (m : Machine) (bytes : List UInt8) (i : Nat) (r : Int × Machine) : Prop where
  disk : r.2.disk = m.disk
  log : r.2.log.length = m.log.length + requestsFor g.succeeds m.log.length bytes i
  user : r.2.user 0 = (fetched g.succeeds m.log.length bytes i).getD (m.user 0)

section Byte
variable {g : Gbd} {m : Machine}

theorem readRange_byte (intact : Intact g m.disk fileid) (inode : m.memory .inode = m.disk fileid)
    (inside : i < filesize (m.disk fileid)) :
    (readRange g (i / 512 : Nat) (i / 512 : Nat) (1 : Nat) 1 (i % 512) 0 m).2.disk = m.disk ∧
    (readRange g (i / 512 : Nat) (i / 512 : Nat) (1 : Nat) 1 (i % 512) 0 m).2.log.length = m.log.length + 1 ∧
    (readRange g (i / 512 : Nat) (i / 512 : Nat) (1 : Nat) 1 (i % 512) 0 m).2.user 0 =
      if g.succeeds m.log.length then fileByte m.disk (m.disk fileid) i else m.user 0 := by
  have needed := intact.block_lt (intact.block_needed (show 512 * (i / 512) < filesize (m.disk fileid) by omega))
  rw [readRange,Int.toNat_natCast,readBlock_eq,inode,ok_inside needed]
  cases g.succeeds m.log.length with
  | false => exact ⟨rfl,by simp [Machine.refused],rfl⟩
  | true =>
    obtain ⟨_,disk,user⟩ := readData_ok m (i / 512) (i % 512) 1 0 (by omega)
    rw [inode] at disk user
    rw [if_pos rfl,if_pos rfl,Int.sub_self]
    refine ⟨disk,by simp [Machine.afterRead,readBlocks,Machine.readData,Machine.load],?_⟩
    have first := user 0
    rw [if_pos (by omega),Nat.sub_self,Nat.add_zero,Nat.div_add_mod] at first
    exact first

theorem content_length (intact : Intact g d fileid) : (content d fileid).length = filesize (d fileid) := by
  rw [content_eq intact.enough,List.length_map,List.length_range]

theorem tfsRead_byte (intact : Intact g m.disk fileid) (i : Nat) :
    ReadsByte g m (content m.disk fileid) i (tfsRead g fileid 0 1 i m) := by
  have total := (totalblocks_le g).1
  have self := intact.inside fileid List.mem_cons_self
  have bound := intact.filesize_le
  have length := content_length intact
  rw [tfsRead,if_neg (by omega),Int.toNat_natCast,readBlock_eq,ok_inside (by omega)]
  cases first : g.succeeds m.log.length with
  | false =>
    rw [if_neg Bool.false_ne_true]
    exact ⟨rfl,by simp [Machine.refused,requestsFor,first],by simp [Machine.refused,fetched,first]⟩
  | true =>
    rw [if_pos rfl,afterRead_self,toS32_small (by omega)]
    by_cases inside : i < filesize (m.disk fileid)
    · obtain ⟨b1,b2,position,size⟩ := range_blocks i 1 (by omega) (by omega)
      rw [show (i : Int) + (1 : Nat) - 1 = i by omega,Nat.add_sub_cancel] at b2
      have whole : ((min (512 - i % 512) 1 : Nat) : Int) = (1 : Nat) := by omega
      rw [whole] at size
      have read : readFile g 0 (min 1 (filesize (m.disk fileid) - i)) i (m.afterRead fileid .inode) =
          readRange g (i / 512 : Nat) (i / 512 : Nat) (1 : Nat) 1 (i % 512) 0 (m.afterRead fileid .inode) := by
        rw [Int.min_eq_left (by omega),readFile,if_neg (by decide),show (i : Int) + 1 - 1 = i by omega,b2,b1,position,
          Int.toNat_natCast]
        rw [position] at size
        rw [show (1 : Int) = ((1 : Nat) : Int) from rfl,size]
      rw [if_neg (by omega),read]
      obtain ⟨disk,log,user⟩ := readRange_byte (m := m.afterRead fileid .inode) intact afterRead_self inside
      have next : (m.afterRead fileid .inode).log.length = m.log.length + 1 := by
        simp [Machine.afterRead,Machine.load]
      have byte : (content m.disk fileid)[i]? = some (fileByte m.disk (m.disk fileid) i) := by
        rw [content_eq intact.enough,List.getElem?_map,List.getElem?_range inside,Option.map_some]
      rw [next] at log user
      refine ⟨disk,?_,?_⟩
      · rw [log,requestsFor,if_pos ⟨first,by omega⟩]
      · rw [user,fetched,first,byte]
        cases g.succeeds (m.log.length + 1) <;> rfl
    · have past : (content m.disk fileid)[i]? = none := List.getElem?_eq_none (by omega)
      have same : (if (i : Int) < 0 ∨ (i : Int) > filesize (m.disk fileid) then (vfsError, m.afterRead fileid .inode)
          else readFile g 0 (min 1 (filesize (m.disk fileid) - i)) i (m.afterRead fileid .inode)).2 =
          m.afterRead fileid .inode := by
        split
        · rfl
        · rw [readFile,if_pos (by omega)]
      refine ⟨by rw [same,afterRead_disk],?_,?_⟩
      · rw [same,requestsFor,if_neg (by omega)]
        simp [Machine.afterRead,Machine.load]
      · rw [same,fetched,past,ite_self]
        rfl

end Byte

/-- What is in a one-byte buffer after as many reads, one at each position, on a disk that does not
fail: the last byte of the file so far, and what was there before if there is none. -/
def lastByte (bytes : List UInt8) (old : UInt8) (n : Nat) : UInt8 := ((bytes.take n).getLast?).getD old

theorem lastByte_succ (bytes : List UInt8) (old : UInt8) (n : Nat) :
    (bytes[n]?).getD (lastByte bytes old n) = lastByte bytes old (n + 1) := by
  unfold lastByte
  by_cases inside : n < bytes.length
  · rw [List.take_add_one,List.getElem?_eq_getElem inside,Option.toList_some,List.getLast?_concat]
    rfl
  · rw [List.getElem?_eq_none (by omega),List.take_of_length_le (by omega),List.take_of_length_le (by omega)]
    rfl

theorem fetched_reliable (reliable : Reliable g) (n : Nat) (bytes : List UInt8) (i : Nat) :
    fetched g.succeeds n bytes i = bytes[i]? :=
  if_pos ⟨reliable n,reliable (n + 1)⟩

/-! ### Opening and reading an existing file -/

/-- `row` has been opened for the file. -/
structure Opens (s t : State) (row : FileRow) (f : File) : Prop where
  free : s.files row = none
  disks : disks t = disks s
  requested : requests t = bump (requests s) f.filesystem 1
  files : t.files = Function.update s.files row (some ⟨f.filesystem, f.fileid, 0⟩)

theorem tfsOpen_request (named : Named m.disk filename fileid) (formed : WellFormed g m.disk) (good : IsFilename filename) :
    tfsOpen g filename m = if g.succeeds m.log.length then (fileid, m.afterRead tfsDirectoryBlock .md)
      else (vfsError, m.refused false tfsDirectoryBlock .md) := by
  obtain ⟨k,slot,name,used,same⟩ := named
  have room := formed.size
  have total := (totalblocks_le g).2
  obtain ⟨_,high⟩ := formed.inode_inside slot used
  have inside : tfsDirectoryBlock < g.blocks := by
    unfold tfsDirectoryBlock
    omega
  rw [tfsOpen,readBlock_eq,ok_inside inside,afterRead_self,findEntry_named formed good.clean good.nonempty slot name]
  dsimp only
  rw [toS32_small (by omega),same]

/-- `vfs_open` needs a free row, and the directory to be read. -/
def OpenFails (y : System) (s : State) (f : File) : Prop :=
  (∀ row, s.files row ≠ none) ∨ (y.gbd f.filesystem).succeeds (requests s f.filesystem) = false

theorem syscallOpen_cases (names : Names y s pathname f) :
    (OpenFails y s f ∧
      ∃ code t, syscallOpen y pathname s = (code, t) ∧ code < 0 ∧ t.files = s.files) ∨
    ((y.gbd f.filesystem).succeeds (requests s f.filesystem) = true ∧
      ∃ row t, syscallOpen y pathname s = ((row.val : Int) + 3, t) ∧ Opens s t row f) := by
  obtain ⟨⟨volume,filename,parsed,mounted,named⟩,formed⟩ := names
  have request := tfsOpen_request named formed (vfsParsePathname_isFilename pathname.clean parsed)
  unfold syscallOpen
  rw [parsed]
  dsimp only
  cases found : freeRow s with
  | none =>
    refine .inl ⟨.inl (freeRow_none.mp found),vfsLimit,s,rfl,by decide,rfl⟩
  | some row =>
    rw [mounted]
    dsimp only
    rw [request]
    cases answer : (y.gbd f.filesystem).succeeds (s.machine f.filesystem).log.length with
    | false => exact .inl ⟨.inr answer,vfsError,_,rfl,by decide,rfl⟩
    | true =>
      have nonneg : ¬((f.fileid : Int) < 0) := by omega
      refine .inr ⟨answer,row,_,if_neg nonneg,freeRow_some found,?_,?_,rfl⟩
      · exact disks_setMachine (s := s) rfl
      · exact requests_setMachine (s := s) (by simp [Machine.afterRead,Machine.load])

/-- Rows for two files. -/
def TwoRows (s : State) : Prop := ∃ a c, a ≠ c ∧ s.files a = none ∧ s.files c = none

/-- Two files can be opened one after the other. -/
structure BothOpen (y : System) (s : State) (f1 f2 : File) : Prop where
  rows : TwoRows s
  first : (y.gbd f1.filesystem).succeeds (requests s f1.filesystem) = true
  second : (y.gbd f2.filesystem).succeeds (bump (requests s) f1.filesystem 1 f2.filesystem) = true

theorem Opens.full (opens : Opens s t row f) (full : ∀ other, t.files other ≠ none) : ¬TwoRows s := by
  rintro ⟨a,c,apart,freeA,freeC⟩
  by_cases here : a = row
  · apply full c
    rw [opens.files,Function.update_of_ne (fun taken => apart (here.trans taken.symm))]
    exact freeC
  · apply full a
    rw [opens.files,Function.update_of_ne here]
    exact freeA

structure OpensBoth (s u : State) (row1 row2 : FileRow) (f1 f2 : File) : Prop where
  apart : row1 ≠ row2
  free1 : s.files row1 = none
  free2 : s.files row2 = none
  disks : disks u = disks s
  requested : requests u = bump (bump (requests s) f1.filesystem 1) f2.filesystem 1
  file1 : u.files row1 = some ⟨f1.filesystem, f1.fileid, 0⟩
  file2 : u.files row2 = some ⟨f2.filesystem, f2.fileid, 0⟩
  others : ∀ row, row ≠ row1 → row ≠ row2 → u.files row = s.files row

theorem Opens.both (first : Opens s t row1 f1) (second : Opens t u row2 f2) : OpensBoth s u row1 row2 f1 f2 := by
  have apart : row1 ≠ row2 := by
    rintro rfl
    have taken := second.free
    rw [first.files,Function.update_self] at taken
    cases taken
  have free2 := second.free
  rw [first.files,Function.update_of_ne apart.symm] at free2
  refine ⟨apart,first.free,free2,second.disks.trans first.disks,by rw [second.requested,first.requested],?_,?_,?_⟩
  · rw [second.files,Function.update_of_ne apart,first.files,Function.update_self]
  · rw [second.files,Function.update_self]
  · intro row other1 other2
    rw [second.files,Function.update_of_ne other2,first.files,Function.update_of_ne other1]

/-- Opening two files: the first fails, the second fails and the first stays open, or neither. -/
theorem syscallOpen_both (names1 : Names y s path1 f1) (names2 : Names y s path2 f2) :
    (OpenFails y s f1 ∧ ∃ code t, syscallOpen y path1 s = (code, t) ∧ code < 0 ∧ t.files = s.files) ∨
    (¬OpenFails y s f1 ∧ ¬BothOpen y s f1 f2 ∧ ∃ fd t code u, syscallOpen y path1 s = (fd, t) ∧ ¬fd < 0 ∧
      syscallOpen y path2 t = (code, u) ∧ code < 0 ∧ u.files ≠ s.files) ∨
    (¬OpenFails y s f1 ∧ BothOpen y s f1 f2 ∧ ∃ (row1 row2 : FileRow) (t u : State),
      syscallOpen y path1 s = ((row1.val : Int) + 3, t) ∧ syscallOpen y path2 t = ((row2.val : Int) + 3, u) ∧
      OpensBoth s u row1 row2 f1 f2) := by
  rcases syscallOpen_cases names1 with failed | ⟨answered,row1,t,opened,first⟩
  · exact .inl failed
  have succeeds : ¬OpenFails y s f1 := by
    rintro (full | refused)
    · exact full row1 first.free
    · rw [answered] at refused
      cases refused
  rcases syscallOpen_cases (names2.same fun fs => congrFun first.disks fs) with
    ⟨fails,code,u,failed,negative,same⟩ | ⟨answered',row2,u,opened',second⟩
  · refine .inr (.inl ⟨succeeds,?_,_,t,code,u,opened,by omega,failed,negative,?_⟩)
    · rintro ⟨rows,_,answers⟩
      rcases fails with full | refused
      · exact first.full full rows
      · rw [first.requested,answers] at refused
        cases refused
    · rw [same,first.files]
      intro unchanged
      have taken := congrFun unchanged row1
      rw [Function.update_self,first.free] at taken
      cases taken
  · have both := first.both second
    rw [first.requested] at answered'
    exact .inr (.inr ⟨succeeds,⟨⟨row1,row2,both.apart,both.free1,both.free2⟩,answered,answered'⟩,row1,row2,t,u,opened,opened',
      both⟩)

/-- A byte has been read, or the buffer is as it was. -/
structure Fetches (y : System) (s t : State) (row : FileRow) (f : File) (i : Nat) (text text' : Bytes) : Prop where
  disks : disks t = disks s
  requested : requests t = bump (requests s) f.filesystem
    (requestsFor (y.gbd f.filesystem).succeeds (requests s f.filesystem) (fileBytes s f) i)
  files : ∃ position, t.files = Function.update s.files row (some ⟨f.filesystem, f.fileid, position⟩)
  byte : text' 0 = (fetched (y.gbd f.filesystem).succeeds (requests s f.filesystem) (fileBytes s f) i).getD (text 0)

theorem syscallRead_byte (intact : Intact (y.gbd f.filesystem) (disks s f.filesystem) f.fileid)
    (i : Nat) (here : s.files row = some ⟨f.filesystem, f.fileid, i⟩) (text : Bytes) :
    ∃ ret text' t, syscallRead y (row.val + 3) text 1 s = some (ret, text', t) ∧ Fetches y s t row f i text text' := by
  have reads := tfsRead_byte (m := { s.machine f.filesystem with user := text }) intact i
  refine ⟨_,_,_,syscallRead_row here y text (by decide),?_,?_,⟨_,rfl⟩,reads.user⟩
  · exact disks_setMachine (s := s) reads.disk
  · exact requests_setMachine (s := s) reads.log

/-! ### Creating and writing a file

Here the disks do not fail. -/

theorem Named.unique (formed : WellFormed g d) (one : Named d filename fileid) (two : Named d other fileid) :
    filename = other := by
  obtain ⟨k,slot,name,used,same⟩ := one
  obtain ⟨l,slot',name',used',same'⟩ := two
  rw [← name,← name']
  by_contra different
  have apart : k ≠ l := by
    rintro rfl
    exact different rfl
  have inodes : entryInode (d tfsDirectoryBlock) k = entryInode (d tfsDirectoryBlock) l := by omega
  have first := fileBlocks_used slot used
  have second := fileBlocks_used slot' used'
  apply formed.held.apart k l apart (entryInode (d tfsDirectoryBlock) k)
  · rw [first]
    exact List.mem_cons_self
  · rw [second,← inodes]
    exact List.mem_cons_self

/-- A volume whose files are still there after a call. -/
structure Keeps (y : System) (s t : State) (except : File → Prop) : Prop where
  names : ∀ pathname f, Names y s pathname f → Names y t pathname f
  bytes : ∀ pathname f, Names y s pathname f → ¬except f → fileBytes t f = fileBytes s f

theorem keeps_setMachine {m : Machine} (formed : WellFormed (y.gbd fs) m.disk)
    (named : ∀ filename fileid, Named (s.machine fs).disk filename fileid → Named m.disk filename fileid)
    (bytes : ∀ fileid : Nat, IsFile (s.machine fs).disk fileid → ¬except ⟨fs, fileid⟩ →
      content m.disk fileid = content (s.machine fs).disk fileid) :
    Keeps y s (s.setMachine fs m) except := by
  constructor
  · rintro pathname f ⟨⟨volume,filename,parsed,mounted,file⟩,good⟩
    by_cases here : f.filesystem = fs
    · rw [here] at file
      refine ⟨⟨volume,filename,parsed,mounted,?_⟩,?_⟩
      · rw [setMachine_machine,here,Function.update_self]
        exact named _ _ file
      · rw [setMachine_machine,here,Function.update_self]
        exact formed
    · refine ⟨⟨volume,filename,parsed,mounted,?_⟩,?_⟩
      · rw [setMachine_machine,Function.update_of_ne here]
        exact file
      · rw [setMachine_machine,Function.update_of_ne here]
        exact good
  · intro pathname f names other
    have file := names.isFile
    unfold fileBytes
    by_cases here : f.filesystem = fs
    · rw [setMachine_machine,here,Function.update_self]
      rw [here] at file
      rw [← here] at bytes
      exact (bytes f.fileid (here ▸ file) other).trans (by rw [here])
    · rw [setMachine_machine,Function.update_of_ne here]

theorem Keeps.setFile (keeps : Keeps y s t except) (row : FileRow) (f : Option Entry) : Keeps y s (t.setFile row f) except :=
  ⟨fun pathname g names => (keeps.names pathname g names).same fun _ => rfl,fun pathname g names => keeps.bytes pathname g names⟩

theorem syscallWrite_byte (reliable : Reliable (y.gbd f.filesystem)) (names : Names y s pathname f) (i : Nat)
    (inside : i < (fileBytes s f).length) (here : s.files row = some ⟨f.filesystem, f.fileid, i⟩) (text : Bytes) :
    ∃ ret t, syscallWrite y (row.val + 3) text 1 s = some (ret, t) ∧ Keeps y s t (· = f) ∧
      (∃ position, t.files = Function.update s.files row (some ⟨f.filesystem, f.fileid, position⟩)) ∧
      fileBytes t f = (fileBytes s f).take i ++ [text 0] ++ (fileBytes s f).drop (i + 1) := by
  have file := names.isFile
  have formed := names.formed
  have size := content_length (formed.intact file)
  have wrote := syscallWrite_row here y text (show (0 : Int) ≤ 1 by decide)
  dsimp only at wrote
  generalize started : ({ s.machine f.filesystem with user := text } : Machine) = m at wrote
  have disk : m.disk = (s.machine f.filesystem).disk := by rw [← started]
  have user : m.user = text := by rw [← started]
  have bytes : fileBytes s f = content m.disk f.fileid := by rw [disk]; rfl
  rw [← disk] at file formed size
  rw [bytes,size] at inside
  obtain ⟨formed',directory,_⟩ := tfsWrite_keeps reliable formed file 0 (show (0 : Int) ≤ 1 by decide) i
  obtain ⟨returned,replaced,_,_,_,others⟩ := tfsWrite_content reliable formed file 0
    (show (0 : Int) ≤ 1 by decide) (show (0 : Int) ≤ (i : Nat) by omega) (by omega)
  generalize tfsWrite (y.gbd f.filesystem) f.fileid 0 1 i m = r at *
  refine ⟨r.1,_,wrote,?_,⟨_,rfl⟩,?_⟩
  · apply Keeps.setFile
    apply keeps_setMachine formed'
    · intro filename fileid named
      rw [← disk] at named
      exact named.directory directory
    · intro fileid other different
      rw [← disk] at other ⊢
      apply others fileid other
      rintro rfl
      exact different rfl
  · have after : fileBytes (s.transferred row ⟨f.filesystem, f.fileid, i⟩ r) f = content r.2.disk f.fileid := by
      unfold fileBytes State.transferred
      rw [setFile_machine,setMachine_machine,Function.update_self]
    have one : r.1.toNat = 1 := by omega
    rw [after,replaced,one,bytes,user]
    rfl

/-- The pathname is on a mounted volume, which has room for the file. -/
def Creatable (y : System) (s : State) (pathname : Cstring) (size : Int) : Prop :=
  ∃ volume filename fs, vfsParsePathname pathname.chars = some (volume, filename) ∧ y.mounted volume = some fs ∧
    Room (y.gbd fs) (s.machine fs).disk filename size

theorem creatable_iff (parsed : vfsParsePathname pathname.chars = some (volume, filename))
    (mounted : y.mounted volume = some fs) :
    Creatable y s pathname size ↔ Room (y.gbd fs) (s.machine fs).disk filename size := by
  constructor
  · rintro ⟨volume',filename',fs',parsed',mounted',room⟩
    rw [parsed] at parsed'
    cases parsed'
    rw [mounted] at mounted'
    cases mounted'
    exact room
  · exact fun room => ⟨volume,filename,fs,parsed,mounted,room⟩

/-- A file of zeros has been added. -/
structure Adds (y : System) (s t : State) (pathname : Cstring) (size : Int) (f : File) : Prop where
  files : t.files = s.files
  keeps : Keeps y s t fun _ => False
  names : Names y t pathname f
  zeros : fileBytes t f = List.replicate size.toNat 0
  fresh : ∀ other g, Names y s other g → g ≠ f

theorem Creates.adds (creates : Creates (y.gbd fs) (s.machine fs) m filename size) (reliable : Reliable (y.gbd fs))
    (formed : WellFormed (y.gbd fs) m.disk) (parsed : vfsParsePathname pathname.chars = some (volume, filename))
    (mounted : y.mounted volume = some fs)
    (unused : ∀ k < tfsMaxFiles, entryName ((s.machine fs).disk tfsDirectoryBlock) k ≠ filename) :
    ∃ f, Adds y s (s.setMachine fs m) pathname size f := by
  have good := vfsParsePathname_isFilename pathname.clean parsed
  obtain ⟨⟨fileid,opens,zeros,_⟩,others,_⟩ := creates
  have named : Named m.disk filename fileid := by
    rcases tfsOpen_named reliable formed good.clean (m := m) (by omega) with named | ⟨empty,_⟩
    · rwa [opens] at named
    · exact absurd empty good.nonempty
  refine ⟨⟨fs, fileid⟩,rfl,?_,⟨⟨volume,filename,parsed,mounted,?_⟩,?_⟩,?_,?_⟩
  · apply keeps_setMachine formed
    · exact fun other number file => (others other number file).1
    · intro number file _
      obtain ⟨used,k,slot,same⟩ := file
      exact (others _ number ⟨k,slot,rfl,same ▸ used,by rw [same]⟩).2
  · rw [setMachine_machine,Function.update_self]
    exact named
  · rw [setMachine_machine,Function.update_self]
    exact formed
  · rw [fileBytes,setMachine_machine,Function.update_self]
    exact zeros
  · rintro other g names rfl
    obtain ⟨_,name,_,_,file⟩ := names.found
    obtain ⟨kept,_⟩ := others name fileid file
    obtain ⟨k,slot,here,_⟩ := file
    apply unused k slot
    rw [here]
    exact Named.unique formed kept named

theorem syscallCreate_cases (reliable : ∀ fs, Reliable (y.gbd fs))
    (formed : ∀ volume fs, y.mounted volume = some fs → WellFormed (y.gbd fs) (s.machine fs).disk)
    (pathname : Cstring) (nonneg : 0 ≤ size) (int : size < 2 ^ 31) :
    (¬Creatable y s pathname size ∧ ∃ code t, syscallCreate y pathname size s = some (code, t) ∧ code < 0) ∨
    (Creatable y s pathname size ∧ ∃ t f, syscallCreate y pathname size s = some (vfsOk, t) ∧ Adds y s t pathname size f) := by
  unfold syscallCreate
  rw [if_neg (by omega)]
  cases parsed : vfsParsePathname pathname.chars with
  | none =>
    refine .inl ⟨?_,vfsError,s,rfl,by decide⟩
    rintro ⟨volume,filename,fs,parsed',_⟩
    rw [parsed] at parsed'
    cases parsed'
  | some path =>
    obtain ⟨volume,filename⟩ := path
    dsimp only
    cases mounted : y.mounted volume with
    | none =>
      refine .inl ⟨?_,vfsNoSuchFs,s,rfl,by decide⟩
      rintro ⟨volume',filename',fs,parsed',mounted',_⟩
      rw [parsed] at parsed'
      cases parsed'
      rw [mounted] at mounted'
      cases mounted'
    | some fs =>
      have good := vfsParsePathname_isFilename pathname.clean parsed
      have before := formed volume fs mounted
      have after := tfsCreate_wellFormed (reliable fs) before good nonneg int
      obtain ⟨ok,creates,refused⟩ := tfs_create_exact (reliable fs) before good nonneg int
      dsimp only
      rw [creatable_iff parsed mounted]
      by_cases room : Room (y.gbd fs) (s.machine fs).disk filename size
      · obtain ⟨f,adds⟩ := Creates.adds (creates room) (reliable fs) after parsed mounted room.fresh
        exact .inr ⟨room,_,f,by rw [ok.mpr room],adds⟩
      · refine .inl ⟨room,vfsError,_,by rw [(refused room).1],by decide⟩

end Buenos.Userland.Files
