import Buenos.Foundation.Threads
import Mathlib.Data.List.FinRange

/-! The virtual filesystem of `fs/vfs.c` as threads over its two tables. A step is what
happens between two semaphore operations; the short critical sections on `vfs_op_sem`
that neither block nor call out are one step. Drivers return any value. -/
namespace Buenos.Fs

open Buenos.Foundation

abbrev configMaxFilesystems : Nat := 8
abbrev configMaxOpenFiles : Nat := 512
def vfsNameLength : Nat := 16

def vfsOk : Int := 0
def vfsError : Int := -2
def vfsNotFound : Int := -5
def vfsNoSuchFs : Int := -6
def vfsLimit : Int := -7
def vfsInUse : Int := -8
def vfsUnusable : Int := -9

/-- The characters of a C string before its NUL. -/
abbrev Name := List UInt8

/-- A `fs_t` pointer; `NULL` is `none` where it can occur. -/
abbrev FsPtr := Nat

abbrev MountRow := Fin configMaxFilesystems
abbrev FileRow := Fin configMaxOpenFiles

/-- `vfs_entry_t` -/
structure VfsEntry where
  filesystem : Option FsPtr
  mountpoint : Name

/-- `openfile_entry_t` -/
structure OpenfileEntry where
  filesystem : Option FsPtr
  fileid : Int
  seekPosition : Int

inductive Sem where
  | op
  | unmount
  | vfsTable
  | openfileTable
  deriving DecidableEq

/-- The tables, counters and semaphores of VFS. Not read by the code: `active` lists the
operations between a successful `vfs_start_op` and their `vfs_end_op`, `unmounted` the
filesystems whose unmount function `vfs_unmount` has called, `looking` the lookups of
`vfs_filecount` and `vfs_file` whose driver call is still to come, `handles` the rows
returned by `vfs_open` and not yet passed to `vfs_close`, `known` the filesystems
passed to `vfs_mount`, and `deinit` whether `vfs_deinit` has been called. -/
structure Vfs where
  filesystems : MountRow → VfsEntry
  files : FileRow → OpenfileEntry
  ops : Int
  usable : Bool
  sem : Sem → Nat
  active : List Nat
  unmounted : List FsPtr
  looking : List (Nat × FsPtr)
  handles : List (Nat × Int)
  known : List FsPtr
  deinit : Bool

/-- The functions of a driver. `forcedUnmount` is the unmount called by `vfs_deinit`. -/
inductive DriverFn where
  | unmount
  | forcedUnmount
  | open
  | close
  | read
  | write
  | create
  | remove
  | getfree
  | filecount
  | file
  deriving DecidableEq

structure DriverCall where
  fn : DriverFn
  fs : FsPtr
  caller : Nat
  deriving DecidableEq

inductive Assertion where
  | mountName
  | opsNonnegative
  | opsZero
  | verifyOpen
  | seekPosition
  | bufferArguments
  | createSize
  deriving DecidableEq

abbrev VfsProg := Prog Vfs DriverCall Assertion

/-! ### Pathnames -/

def openBracket : UInt8 := 91
def closeBracket : UInt8 := 93

/-- The volume part after `[`, with room for `room` more characters. -/
def parseVolume : Nat → List UInt8 → Option (Name × List UInt8)
  | 0, _ => none
  | _ + 1, [] => none
  | room + 1, c :: rest =>
    if c = closeBracket then some ([], rest)
    else (parseVolume room rest).map fun parsed => (c :: parsed.1, parsed.2)

/-- The file part must have 1 to `VFS_NAME_LENGTH - 1` characters. -/
def parseFilename (rest : List UInt8) : Option Name :=
  if rest = [] ∨ vfsNameLength ≤ rest.length then none else some rest

def vfsParsePathname (pathname : List UInt8) : Option (Name × Name) :=
  match pathname with
  | [] => none
  | c :: rest =>
    if c = openBracket then
      (parseVolume (vfsNameLength - 1) rest).bind fun parsed =>
        (parseFilename parsed.2).map fun filename => (parsed.1, filename)
    else (parseFilename pathname).map fun filename => ([], filename)

/-! ### Table lookups -/

/-- The first row with this mountpoint string, occupied or not. -/
def namedRow (s : Vfs) (mountpoint : Name) : Option MountRow :=
  (List.finRange configMaxFilesystems).find? fun row => (s.filesystems row).mountpoint == mountpoint

def vfsGetFilesystem (s : Vfs) (mountpoint : Name) : Option FsPtr :=
  (namedRow s mountpoint).bind fun row => (s.filesystems row).filesystem

def freeMountRow (s : Vfs) : Option MountRow :=
  (List.finRange configMaxFilesystems).find? fun row => (s.filesystems row).filesystem.isNone

def freeFileRow (s : Vfs) : Option FileRow :=
  (List.finRange configMaxOpenFiles).find? fun file => (s.files file).filesystem.isNone

def hasOpenFiles (s : Vfs) (fs : FsPtr) : Bool :=
  (List.finRange configMaxOpenFiles).any fun file => (s.files file).filesystem == some fs

/-- `vfs_verify_open`: the row and its filesystem, or a failing assertion. -/
def vfsVerifyOpen (s : Vfs) (file : Int) : Option (FileRow × FsPtr) :=
  if h : 0 ≤ file ∧ file < configMaxOpenFiles then
    let row : FileRow := ⟨file.toNat, by omega⟩
    (s.files row).filesystem.map fun fs => (row, fs)
  else none

def Vfs.setMount (s : Vfs) (row : MountRow) (entry : VfsEntry) : Vfs :=
  { s with filesystems := Function.update s.filesystems row entry }

def Vfs.setFile (s : Vfs) (file : FileRow) (entry : OpenfileEntry) : Vfs :=
  { s with files := Function.update s.files file entry }

/-! ### Steps -/

def Vfs.down (s : Vfs) (x : Sem) : Vfs := { s with sem := Function.update s.sem x (s.sem x - 1) }
def Vfs.up (s : Vfs) (x : Sem) : Vfs := { s with sem := Function.update s.sem x (s.sem x + 1) }

def semaphoreP (x : Sem) (next : VfsProg) : VfsProg :=
  .act (fun s => 0 < s.sem x) (fun s => s.down x) (fun _ => next)

def semaphoreV (x : Sem) (next : VfsProg) : VfsProg :=
  .act (fun _ => true) (fun s => s.up x) (fun _ => next)

/-- A whole critical section in one step. -/
def locked (x : Sem) (effect : Vfs → Vfs) (next : Vfs → VfsProg) : VfsProg :=
  .act (fun s => 0 < s.sem x) effect next

def look (next : Vfs → VfsProg) : VfsProg := .act (fun _ => true) id next

def store (effect : Vfs → Vfs) (next : VfsProg) : VfsProg :=
  .act (fun _ => true) effect (fun _ => next)

def driver (fn : DriverFn) (fs : FsPtr) (me : Nat) (next : Int → VfsProg) : VfsProg :=
  .call ⟨fn, fs, me⟩ next

/-- `if (vfs_start_op() != VFS_OK) return VFS_UNUSABLE;` -/
def vfsStartOp (me : Nat) (next : VfsProg) : VfsProg :=
  locked .op
    (fun s => if s.usable then { s with ops := s.ops + 1, active := me :: s.active } else s)
    (fun s => if s.usable then next else .ret vfsUnusable)

def Vfs.endOp (s : Vfs) (me : Nat) : Vfs :=
  let s := { s with ops := s.ops - 1, active := s.active.erase me }
  if !s.usable && s.ops == 0 then s.up .unmount else s

def vfsEndOp (me : Nat) (next : VfsProg) : VfsProg :=
  locked .op (fun s => s.endOp me)
    (fun s => if s.ops - 1 < 0 then .panic .opsNonnegative else next)

/-- Every operation leaves through `vfs_end_op`. -/
def finish (me : Nat) (code : Int) : VfsProg := vfsEndOp me (.ret code)

/-- Unlock both tables and leave. -/
def finishBoth (me : Nat) (code : Int) : VfsProg :=
  semaphoreV .openfileTable (semaphoreV .vfsTable (finish me code))

/-! ### The operations -/

def vfsMount (me : Nat) (fs : FsPtr) (name : Name) : VfsProg :=
  if name = [] then .panic .mountName else
  vfsStartOp me <| semaphoreP .vfsTable <| look fun s =>
    match freeMountRow s with
    | none => semaphoreV .vfsTable (finish me vfsLimit)
    | some row =>
      if (namedRow s name).isSome then semaphoreV .vfsTable (finish me vfsError)
      else
        store (fun s => s.setMount row ⟨some fs, name.take (vfsNameLength - 1)⟩) <|
        semaphoreV .vfsTable (finish me vfsOk)

def vfsUnmount (me : Nat) (name : Name) : VfsProg :=
  vfsStartOp me <| semaphoreP .vfsTable <| look fun s =>
    match (namedRow s name).bind fun row => (s.filesystems row).filesystem.map fun fs => (row, fs) with
    | none => semaphoreV .vfsTable (finish me vfsNotFound)
    | some (row, fs) =>
      semaphoreP .openfileTable <| look fun s =>
        if hasOpenFiles s fs then finishBoth me vfsInUse
        else driver .unmount fs me fun _ =>
          store (fun s => s.setMount row { s.filesystems row with filesystem := none }) <|
          finishBoth me vfsOk

/-- The locked part of `vfs_open`: a free row and the filesystem it is reserved for. -/
def reservation (s : Vfs) (volume : Name) : Except Int (FileRow × FsPtr) :=
  match freeFileRow s with
  | none => .error vfsLimit
  | some file =>
    match vfsGetFilesystem s volume with
    | none => .error vfsNoSuchFs
    | some fs => .ok (file, fs)

def Vfs.reserve (s : Vfs) : Except Int (FileRow × FsPtr) → Vfs
  | .error _ => s
  | .ok (file, fs) => s.setFile file { s.files file with filesystem := some fs }

def vfsOpen (me : Nat) (pathname : List UInt8) : VfsProg :=
  vfsStartOp me <|
    match vfsParsePathname pathname with
    | none => finish me vfsError
    | some (volume, _) =>
      semaphoreP .vfsTable <| semaphoreP .openfileTable <|
      .act (fun _ => true) (fun s => s.reserve (reservation s volume)) fun s =>
        match reservation s volume with
        | .error code => finishBoth me code
        | .ok (file, fs) =>
          semaphoreV .openfileTable <| semaphoreV .vfsTable <| driver .open fs me fun fileid =>
            if fileid < 0 then
              semaphoreP .openfileTable <|
              store (fun s => s.setFile file { s.files file with filesystem := none }) <|
              semaphoreV .openfileTable (finish me fileid)
            else
              store (fun s => { s.setFile file { s.files file with
                  fileid := fileid, seekPosition := 0 } with
                handles := (me, (file : Nat)) :: s.handles }) <|
              finish me (file : Nat)

def vfsClose (me : Nat) (file : Int) : VfsProg :=
  vfsStartOp me <| semaphoreP .openfileTable <| look fun s =>
    match vfsVerifyOpen s file with
    | none => .panic .verifyOpen
    | some (row, fs) => driver .close fs me fun code =>
      store (fun s => s.setFile row { s.files row with filesystem := none }) <|
      semaphoreV .openfileTable (finish me code)

def vfsSeek (me : Nat) (file seekPosition : Int) : VfsProg :=
  vfsStartOp me <|
    if seekPosition < 0 then .panic .seekPosition else
    semaphoreP .openfileTable <| look fun s =>
      match vfsVerifyOpen s file with
      | none => .panic .verifyOpen
      | some (row, _) =>
        store (fun s => s.setFile row { s.files row with seekPosition := seekPosition }) <|
        semaphoreV .openfileTable (finish me vfsOk)

/-- `vfs_read` and `vfs_write` differ in the driver function only. -/
def vfsTransfer (fn : DriverFn) (me : Nat) (file : Int) (buffer : Option Nat) (size : Int) : VfsProg :=
  vfsStartOp me <| look fun s =>
    match vfsVerifyOpen s file with
    | none => .panic .verifyOpen
    | some (row, fs) =>
      if size < 0 ∨ buffer = none then .panic .bufferArguments else
      driver fn fs me fun ret =>
        if 0 < ret then
          semaphoreP .openfileTable <|
          store (fun s => s.setFile row { s.files row with
            seekPosition := (s.files row).seekPosition + ret }) <|
          semaphoreV .openfileTable (finish me ret)
        else finish me ret

def vfsRead : Nat → Int → Option Nat → Int → VfsProg := vfsTransfer .read
def vfsWrite : Nat → Int → Option Nat → Int → VfsProg := vfsTransfer .write

def onVolume (fn : DriverFn) (me : Nat) (volume : Name) : VfsProg :=
  semaphoreP .vfsTable <| look fun s =>
    match vfsGetFilesystem s volume with
    | none => semaphoreV .vfsTable (finish me vfsNoSuchFs)
    | some fs => driver fn fs me fun ret => semaphoreV .vfsTable (finish me ret)

def onPathname (fn : DriverFn) (me : Nat) (pathname : List UInt8) : VfsProg :=
  vfsStartOp me <|
    match vfsParsePathname pathname with
    | none => finish me vfsError
    | some (volume, _) => onVolume fn me volume

def vfsCreate (me : Nat) (pathname : List UInt8) (size : Int) : VfsProg :=
  if size < 0 then .panic .createSize else onPathname .create me pathname

def vfsRemove (me : Nat) (pathname : List UInt8) : VfsProg := onPathname .remove me pathname

def vfsGetfree (me : Nat) (filesystem : Name) : VfsProg :=
  vfsStartOp me (onVolume .getfree me filesystem)

def mountCount (s : Vfs) : Nat :=
  (List.finRange configMaxFilesystems).countP fun row => (s.filesystems row).filesystem.isSome

/-- The operations that unlock both tables before the driver call; `whole` is the result
when no name is given. -/
def afterLookup (fn : DriverFn) (me : Nat) (name : Option Name) (whole : Vfs → Int) : VfsProg :=
  vfsStartOp me <| semaphoreP .vfsTable <| semaphoreP .openfileTable <|
    match name with
    | none => look fun s => finishBoth me (whole s)
    | some name =>
      .act (fun _ => true)
        (fun s => match vfsGetFilesystem s name with
          | none => s
          | some fs => { s with looking := (me, fs) :: s.looking })
        fun s => match vfsGetFilesystem s name with
          | none => finishBoth me vfsNoSuchFs
          | some fs =>
            semaphoreV .openfileTable <| semaphoreV .vfsTable <|
            driver fn fs me fun ret => finish me ret

def vfsFilecount (me : Nat) (name : Option Name) : VfsProg :=
  afterLookup .filecount me name fun s => mountCount s

/-- With no name the mountpoint of row `index` is copied to the caller's buffer. -/
def vfsFile (me : Nat) (name : Option Name) (_index : Int) : VfsProg :=
  afterLookup .file me name fun _ => 0

def unmountRows (me : Nat) : List MountRow → VfsProg → VfsProg
  | [], next => next
  | row :: rest, next => look fun s =>
    match (s.filesystems row).filesystem with
    | none => unmountRows me rest next
    | some fs => driver .forcedUnmount fs me fun _ =>
      store (fun s => s.setMount row { s.filesystems row with filesystem := none }) <|
      unmountRows me rest next

/-- The part of `vfs_deinit` that runs with `vfs_op_sem` held and no operation left. -/
def forceUnmount (me : Nat) : VfsProg :=
  semaphoreP .vfsTable <| semaphoreP .openfileTable <|
  unmountRows me (List.finRange configMaxFilesystems) <|
  semaphoreV .openfileTable <| semaphoreV .vfsTable <| semaphoreV .op <| .ret vfsOk

/-- `vfs_deinit` after its `semaphore_P(vfs_unmount_sem)`. -/
def resumeDeinit (me : Nat) : VfsProg :=
  semaphoreP .op <| look fun s => if s.ops = 0 then forceUnmount me else .panic .opsZero

def vfsDeinit (me : Nat) : VfsProg :=
  semaphoreP .op <|
  .act (fun _ => true) (fun s => { s with usable := false }) fun s =>
    if 0 < s.ops then semaphoreV .op <| semaphoreP .unmount <| resumeDeinit me
    else forceUnmount me

inductive Op where
  | mount (fs : FsPtr) (name : Name)
  | unmount (name : Name)
  | open (pathname : List UInt8)
  | close (file : Int)
  | seek (file seekPosition : Int)
  | read (file : Int) (buffer : Option Nat) (bufsize : Int)
  | write (file : Int) (buffer : Option Nat) (datasize : Int)
  | create (pathname : List UInt8) (size : Int)
  | remove (pathname : List UInt8)
  | getfree (filesystem : Name)
  | filecount (name : Option Name)
  | file (name : Option Name) (index : Int)
  | deinit

def program (me : Nat) : Op → VfsProg
  | .mount fs name => vfsMount me fs name
  | .unmount name => vfsUnmount me name
  | .open pathname => vfsOpen me pathname
  | .close file => vfsClose me file
  | .seek file seekPosition => vfsSeek me file seekPosition
  | .read file buffer bufsize => vfsRead me file buffer bufsize
  | .write file buffer datasize => vfsWrite me file buffer datasize
  | .create pathname size => vfsCreate me pathname size
  | .remove pathname => vfsRemove me pathname
  | .getfree filesystem => vfsGetfree me filesystem
  | .filecount name => vfsFilecount me name
  | .file name index => vfsFile me name index
  | .deinit => vfsDeinit me

/-- Starting an operation only keeps the records; `vfs_deinit` is called once. -/
def enter (me : Nat) (op : Op) (s : Vfs) : Option Vfs :=
  match op with
  | .deinit => if s.deinit then none else some { s with deinit := true }
  | .mount fs _ => some { s with known := fs :: s.known }
  | .close file => some { s with handles := s.handles.erase (me, file) }
  | _ => some s

/-- A driver call ends the lookup it was made for, and an unmount is recorded. -/
def invoke (e : DriverCall) (s : Vfs) : Vfs :=
  match e.fn with
  | .unmount => { s with unmounted := e.fs :: s.unmounted }
  | .filecount | .file => { s with looking := s.looking.erase (e.caller, e.fs) }
  | _ => s

abbrev VfsConfig := Config Vfs DriverCall Assertion
abbrev VfsMove := Move Op

def step : VfsMove → VfsConfig → Option VfsConfig := move invoke enter program

/-- The state left by `vfs_init`, with every thread at rest. -/
def initial : VfsConfig where
  shared := {
    filesystems := fun _ => ⟨none, []⟩
    files := fun _ => ⟨none, 0, 0⟩
    ops := 0
    usable := true
    sem := fun x => match x with
      | .unmount => 0
      | _ => 1
    active := []
    unmounted := []
    looking := []
    handles := []
    known := []
    deinit := false }
  threads := fun _ => .ret vfsOk

end Buenos.Fs
