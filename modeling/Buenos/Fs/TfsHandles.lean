import Buenos.Fs.TfsRun

/-! Open files on a TFS volume, VFS call after VFS call. To TFS a handle is the number of an
inode block; it does not know which files are open. -/
namespace Buenos.Fs.Handles

open Buenos.Foundation Buenos.Lib Buenos.Fs.Tfs

/-- A C string without its NUL. -/
structure Cstring where
  chars : List UInt8
  clean : 0 ∉ chars

/-- A row of `openfile_table` in use. Not read by the code: the name it was opened under, the
data blocks the file had then, and whether it has been removed since. -/
structure OpenFile where
  fileid : Int
  seekPosition : Int
  name : Name
  blocks : List Nat
  removed : Bool

structure Session where
  machine : Machine
  files : FileRow → Option OpenFile

inductive Op where
  | create (pathname : Cstring) (size : Int)
  | open (pathname : Cstring)
  | seek (file seekPosition : Int)
  | write (file : Int) (data : Bytes) (buffer : Nat) (datasize : Int)
  | close (file : Int)
  | remove (pathname : Cstring)

/-- The file part of a pathname on this volume; `none` is an error return of the call. -/
def filenameOn (volume : Name) (pathname : Cstring) : Option Name :=
  (vfsParsePathname pathname.chars).bind fun parsed => if parsed.1 = volume then some parsed.2 else none

def freeRow (s : Session) : Option FileRow := (List.finRange configMaxOpenFiles).find? fun row => (s.files row).isNone

theorem row_lt {file : Int} (inside : 0 ≤ file ∧ file < configMaxOpenFiles) : file.toNat < configMaxOpenFiles := by
  omega

def verifyOpen (s : Session) (file : Int) : Option (FileRow × OpenFile) :=
  if h : 0 ≤ file ∧ file < configMaxOpenFiles then
    let row : FileRow := ⟨file.toNat, row_lt h⟩
    (s.files row).map fun f => (row, f)
  else none

def Session.setFile (s : Session) (row : FileRow) (f : Option OpenFile) : Session :=
  { s with files := Function.update s.files row f }

/-- The handles of a file that is gone. -/
def markRemoved (filename : Name) (f : OpenFile) : OpenFile :=
  if f.name = filename then { f with removed := true } else f

def vfsCreate (g : Gbd) (filename : Name) (size : Int) (s : Session) : Session :=
  { s with machine := (tfsCreate g filename size s.machine).2 }

def vfsOpen (g : Gbd) (filename : Name) (row : FileRow) (s : Session) : Session :=
  let r := tfsOpen g filename s.machine
  if r.1 < 0 then { s with machine := r.2 }
  else Session.setFile { s with machine := r.2 } row
    (some ⟨r.1, 0, filename, dataBlocks (r.2.disk r.1.toNat), false⟩)

def vfsWrite (g : Gbd) (row : FileRow) (f : OpenFile) (data : Bytes) (buffer : Nat) (datasize : Int) (s : Session) :
    Session :=
  let r := tfsWrite g f.fileid buffer datasize f.seekPosition { s.machine with user := data }
  Session.setFile { s with machine := r.2 } row
    (some (if 0 < r.1 then { f with seekPosition := f.seekPosition + r.1 } else f))

def vfsRemove (g : Gbd) (filename : Name) (s : Session) : Session :=
  let r := tfsRemove g filename s.machine
  if r.1 = vfsOk then ⟨r.2,fun row => (s.files row).map (markRemoved filename)⟩ else { s with machine := r.2 }

/-- The VFS with one TFS volume mounted; `none` is a failing assertion. The size of
`vfs_create` is an `int`. -/
def step (g : Gbd) (volume : Name) (op : Op) (s : Session) : Option Session :=
  match op with
  | .create pathname size =>
    if toS32 (toU32 size) < 0 then none
    else match filenameOn volume pathname with
      | none => some s
      | some filename => some (vfsCreate g filename (toS32 (toU32 size)) s)
  | .open pathname =>
    match filenameOn volume pathname, freeRow s with
    | some filename, some row => some (vfsOpen g filename row s)
    | _, _ => some s
  | .seek file seekPosition =>
    if seekPosition < 0 then none
    else (verifyOpen s file).map fun found => s.setFile found.1 (some { found.2 with seekPosition := seekPosition })
  | .write file data buffer datasize =>
    if datasize < 0 then none
    else (verifyOpen s file).map fun found => vfsWrite g found.1 found.2 data buffer datasize s
  | .close file => (verifyOpen s file).map fun found => s.setFile found.1 none
  | .remove pathname =>
    match filenameOn volume pathname with
    | none => some s
    | some filename => some (vfsRemove g filename s)

/-! ### Names -/

theorem parseVolume_suffix (parsed : parseVolume room chars = some (volume, rest)) : rest <:+ chars := by
  induction room generalizing chars volume with
  | zero => cases parsed
  | succ room ih =>
    cases chars with
    | nil => cases parsed
    | cons c tail =>
      rw [parseVolume] at parsed
      split at parsed
      · cases parsed
        exact List.suffix_cons c rest
      · cases later : parseVolume room tail with
        | none =>
          rw [later] at parsed
          cases parsed
        | some inner =>
          rw [later] at parsed
          cases parsed
          exact (ih later).trans (List.suffix_cons c tail)

theorem parseFilename_isFilename (clean : 0 ∉ rest) (parsed : parseFilename rest = some filename) :
    IsFilename filename := by
  unfold parseFilename at parsed
  split at parsed
  · cases parsed
  · next good =>
    cases parsed
    simp only [not_or,not_le] at good
    exact ⟨good.1,good.2,clean⟩

/-- What `vfs_parse_pathname` hands to the drivers. -/
theorem vfsParsePathname_isFilename (clean : 0 ∉ pathname)
    (parsed : vfsParsePathname pathname = some (volume, filename)) : IsFilename filename := by
  unfold vfsParsePathname at parsed
  split at parsed
  · cases parsed
  next c rest =>
  split at parsed
  · obtain ⟨⟨name,tail⟩,found,last⟩ := Option.bind_eq_some_iff.mp parsed
    obtain ⟨file,good,same⟩ := Option.map_eq_some_iff.mp last
    cases same
    refine parseFilename_isFilename (fun member => clean ?_) good
    exact List.mem_cons_of_mem c ((parseVolume_suffix found).subset member)
  · obtain ⟨file,good,same⟩ := Option.map_eq_some_iff.mp parsed
    cases same
    exact parseFilename_isFilename clean good

theorem filenameOn_isFilename {pathname : Cstring} (found : filenameOn volume pathname = some filename) :
    IsFilename filename := by
  obtain ⟨⟨name,file⟩,parsed,same⟩ := Option.bind_eq_some_iff.mp found
  dsimp only at same
  split at same
  · cases same
    exact vfsParsePathname_isFilename pathname.clean parsed
  · cases same

theorem verifyOpen_some {s : Session} (found : verifyOpen s file = some (row, f)) : s.files row = some f := by
  unfold verifyOpen at found
  split at found
  · obtain ⟨g,here,same⟩ := Option.map_eq_some_iff.mp found
    cases same
    exact here
  · cases found

/-! ### Handles of files that exist -/

/-- A handle refers to the file it was opened for, which still has the same data blocks. -/
def Live (d : Disk) (f : OpenFile) : Prop :=
  Named d f.name f.fileid ∧ dataBlocks (d f.fileid.toNat) = f.blocks

structure Confined (g : Gbd) (s : Session) : Prop where
  formed : WellFormed g s.machine.disk
  live : ∀ row f, s.files row = some f → f.removed = false → Live s.machine.disk f

theorem setFile_files (s : Session) (row other : FileRow) (new : Option OpenFile) :
    (s.setFile row new).files other = if other = row then new else s.files other :=
  Function.update_apply s.files row new other

theorem Confined.setFile {s : Session} (confined : Confined g s)
    (live : ∀ f, new = some f → f.removed = false → Live s.machine.disk f) : Confined g (s.setFile row new) := by
  refine ⟨confined.formed,fun other f here kept => ?_⟩
  rw [setFile_files] at here
  split at here
  · exact live f here kept
  · exact confined.live other f here kept

theorem Live.isFile (live : Live d f) : ∃ n : Nat, f.fileid = n ∧ IsFile d n ∧ dataBlocks (d n) = f.blocks := by
  obtain ⟨named,blocks⟩ := live
  obtain ⟨n,same,file⟩ := named.isFile
  rw [same,Int.toNat_natCast] at blocks
  exact ⟨n,same,file,blocks⟩

theorem Live.same (live : Live d f) (directory : d' tfsDirectoryBlock = d tfsDirectoryBlock)
    (inodes : ∀ n, IsFile d n → d' n = d n) : Live d' f := by
  obtain ⟨n,same,file,blocks⟩ := live.isFile
  refine ⟨live.1.directory directory,?_⟩
  rw [same,Int.toNat_natCast,inodes n file]
  exact blocks

theorem Live.create (live : Live d f) (formed : WellFormed g d) (created : Created g filename size d d' index inode bs) :
    Live d' f := by
  obtain ⟨n,same,file,blocks⟩ := live.isFile
  refine ⟨live.1.create created.added,?_⟩
  obtain ⟨used,k,slot,rfl⟩ := file
  have member : entryInode (d tfsDirectoryBlock) k ∈ fileBlocks d k := by
    rw [fileBlocks_used slot used]
    exact List.mem_cons_self
  rw [same,Int.toNat_natCast,created.added.kept formed member]
  exact blocks

theorem Live.remove (live : Live d f) (formed : WellFormed g d) (removed : Removed filename d d' index)
    (different : f.name ≠ filename) : Live d' f := by
  obtain ⟨n,same,file,blocks⟩ := live.isFile
  refine ⟨live.1.remove removed different,?_⟩
  have low := (formed.intact file).inside n List.mem_cons_self
  rw [same,Int.toNat_natCast,removed.others n (Nat.ne_of_gt (Nat.lt_of_succ_lt low.1)) (Nat.ne_of_gt low.1)]
  exact blocks

/-! ### Writes -/

/-- The handle written through is one whose file has not been removed since it was opened. -/
def OnLiveHandle (op : Op) (s : Session) : Prop :=
  match op with
  | .write file _ _ _ => ∀ row f, verifyOpen s file = some (row, f) → f.removed = false
  | _ => True

/-- A block that a write through the handle may change: a data block the file had when it was
opened, not a system block and not a block of another file. -/
def Own (d : Disk) (f : OpenFile) (b : Nat) : Prop :=
  b ∈ f.blocks ∧ 3 ≤ b ∧ ∀ n, IsFile d n → (n : Int) ≠ f.fileid → b ∉ n :: dataBlocks (d n)

theorem tfsWrite_own (reliable : Reliable g) {m : Machine} (formed : WellFormed g m.disk) (live : Live m.disk f)
    (buffer : Nat) (nonneg : 0 ≤ datasize) (changed : (tfsWrite g f.fileid buffer datasize position m).2.disk b ≠ m.disk b) :
    Own m.disk f b := by
  obtain ⟨n,same,file,blocks⟩ := live.isFile
  rw [same] at changed
  by_cases inside : 0 ≤ position ∧ position ≤ filesize (m.disk n)
  · obtain ⟨size,rfl⟩ := Int.eq_ofNat_of_zero_le nonneg
    obtain ⟨offset,rfl⟩ := Int.eq_ofNat_of_zero_le inside.1
    obtain ⟨_,written⟩ := tfsWrite_effect reliable (formed.intact file) buffer size offset (by omega)
    have member : b ∈ dataBlocks (m.disk n) := by
      by_contra outside
      exact changed (written.others b outside)
    refine ⟨blocks ▸ member,((formed.intact file).inside b (List.mem_cons_of_mem n member)).1,?_⟩
    intro other isFile different taken
    exact formed.apart isFile file (fun equal => different (by rw [same,equal])) (List.mem_cons_of_mem n member) taken
  · rw [(tfsWrite_outside reliable formed file buffer datasize position (by omega)).2] at changed
    exact absurd rfl changed

theorem Confined.write {s : Session} (reliable : Reliable g) (confined : Confined g s) (here : s.files row = some f)
    (kept : f.removed = false) (data : Bytes) (buffer : Nat) (nonneg : 0 ≤ datasize) :
    Confined g (vfsWrite g row f data buffer datasize s) := by
  have live := confined.live row f here kept
  obtain ⟨n,same,file,blocks⟩ := live.isFile
  obtain ⟨formed,directory,inodes⟩ := tfsWrite_keeps (m := { s.machine with user := data }) reliable confined.formed file
    buffer nonneg f.seekPosition
  rw [← same] at formed directory inodes
  have all : ∀ h, Live s.machine.disk h → Live (tfsWrite g f.fileid buffer datasize f.seekPosition
      { s.machine with user := data }).2.disk h := fun h live => live.same directory inodes
  have moved : Confined g { s with machine := (tfsWrite g f.fileid buffer datasize f.seekPosition
      { s.machine with user := data }).2 } :=
    ⟨formed,fun other h there open' => all h (confined.live other h there open')⟩
  refine moved.setFile fun h there _ => ?_
  cases there
  split
  · exact all f live
  · exact all f live

theorem Confined.create {s : Session} (reliable : Reliable g) (confined : Confined g s) (good : IsFilename filename)
    (nonneg : 0 ≤ size) (int : size < 2 ^ 31) : Confined g (vfsCreate g filename size s) := by
  refine ⟨tfsCreate_wellFormed reliable confined.formed good nonneg int,fun row f here kept => ?_⟩
  have live := confined.live row f here kept
  obtain ⟨_,same⟩ | ⟨index,inode,bs,_,created,_⟩ := tfsCreate_effect reliable confined.formed good size
  · rw [vfsCreate,same]
    exact live
  · exact live.create confined.formed created

theorem Confined.open {s : Session} (reliable : Reliable g) (confined : Confined g s) (good : IsFilename filename) :
    Confined g (vfsOpen g filename row s) := by
  have disk := tfsOpen_disk g filename s.machine
  have moved : Confined g { s with machine := (tfsOpen g filename s.machine).2 } :=
    ⟨by rw [disk]; exact confined.formed,by rw [disk]; exact confined.live⟩
  unfold vfsOpen
  dsimp only
  split
  · exact moved
  · next opened =>
    refine moved.setFile fun f same _ => ?_
    cases same
    obtain named | ⟨empty,_⟩ := tfsOpen_named reliable confined.formed good.clean (Int.not_lt.mp opened)
    · exact ⟨by rw [disk]; exact named,rfl⟩
    · exact absurd empty good.nonempty

theorem Confined.remove {s : Session} (reliable : Reliable g) (confined : Confined g s) (good : IsFilename filename) :
    Confined g (vfsRemove g filename s) := by
  have formed := tfsRemove_wellFormed reliable confined.formed good.clean good.nonempty
  unfold vfsRemove
  dsimp only
  obtain ⟨code,same⟩ | ⟨index,code,removed⟩ := tfsRemove_effect reliable confined.formed good.clean good.nonempty
  · rw [if_neg (by rw [code]; decide)]
    refine ⟨formed,?_⟩
    rw [same]
    exact confined.live
  · rw [if_pos code]
    refine ⟨formed,fun row f here kept => ?_⟩
    obtain ⟨old,there,rfl⟩ := Option.map_eq_some_iff.mp here
    unfold markRemoved at kept ⊢
    split at kept
    · contradiction
    · next different =>
      rw [if_neg different]
      exact (confined.live row old there kept).remove confined.formed removed different

/-- One call keeps the live handles on their files. -/
theorem Confined.step {s t : Session} (reliable : Reliable g) (confined : Confined g s) (live : OnLiveHandle op s)
    (next : step g volume op s = some t) : Confined g t := by
  cases op with
  | create pathname size =>
    simp only [Handles.step] at next
    split at next
    · cases next
    next nonneg =>
    split at next
    · cases next; exact confined
    · next filename found =>
      cases next
      exact confined.create reliable (filenameOn_isFilename found) (Int.not_lt.mp nonneg) (toS32_lt size)
  | «open» pathname =>
    simp only [Handles.step] at next
    split at next
    · next filename row found _ =>
      cases next
      exact confined.open reliable (filenameOn_isFilename found)
    · cases next; exact confined
  | seek file seekPosition =>
    simp only [Handles.step] at next
    split at next
    · cases next
    obtain ⟨⟨row,f⟩,found,rfl⟩ := Option.map_eq_some_iff.mp next
    refine confined.setFile fun h same kept => ?_
    cases same
    exact confined.live row f (verifyOpen_some found) kept
  | write file data buffer datasize =>
    simp only [Handles.step] at next
    split at next
    · cases next
    next nonneg =>
    obtain ⟨⟨row,f⟩,found,rfl⟩ := Option.map_eq_some_iff.mp next
    exact confined.write reliable (verifyOpen_some found) (live row f found) data buffer (Int.not_lt.mp nonneg)
  | close file =>
    obtain ⟨⟨row,f⟩,found,rfl⟩ := Option.map_eq_some_iff.mp next
    exact confined.setFile fun h same _ => by cases same
  | remove pathname =>
    simp only [Handles.step] at next
    split at next
    · cases next; exact confined
    · next filename found =>
      cases next
      exact confined.remove reliable (filenameOn_isFilename found)

/-- In a run without writes through handles of removed files, a write changes only blocks that
are the file's own. -/
theorem write_confined (reliable : Reliable g) (volume : Name) {s final t : Session} (formed : WellFormed g s.machine.disk)
    (closed : ∀ row, s.files row = none) (meets : Meets (step g volume) OnLiveHandle ops s)
    (ran : run (step g volume) ops s = some final) (data : Bytes) (buffer : Nat)
    (found : verifyOpen final file = some (row, f)) (kept : f.removed = false)
    (wrote : step g volume (.write file data buffer datasize) final = some t)
    (changed : t.machine.disk b ≠ final.machine.disk b) : Own final.machine.disk f b := by
  have initial : Confined g s := ⟨formed,fun row f here => by rw [closed row] at here; cases here⟩
  have confined := run_guarded (fun op s t confined live next => confined.step reliable live next) initial meets ran
  simp only [step] at wrote
  split at wrote
  · cases wrote
  next nonneg =>
  rw [found] at wrote
  cases wrote
  exact tfsWrite_own (m := { final.machine with user := data }) reliable confined.formed
    (confined.live row f (verifyOpen_some found) kept) buffer (Int.not_lt.mp nonneg) changed

def sampleSession : Session := ⟨sampleMachine,fun _ => none⟩

def pathA : Cstring := ⟨[91,118,93,97],by decide⟩
def pathB : Cstring := ⟨[91,118,93,98],by decide⟩
def volumeV : Name := [118]

/-- One byte written through handle 0. -/
def sampleWrite : Op := .write 0 (fun _ => 1) 0 1

/-- Whether the write changes the first byte of block 4, and what the handle says. -/
def writesFour (removed : Bool) (blocks : List Nat) (s : Session) : Bool :=
  match verifyOpen s 0, step sampleGbd volumeV sampleWrite s with
  | some (_, f), some t => f.removed == removed && f.blocks == blocks && t.machine.disk 4 0 != s.machine.disk 4 0
  | _, _ => false

theorem writesFour_spec (writes : writesFour removed blocks s = true) :
    ∃ row f t, verifyOpen s 0 = some (row, f) ∧ f.removed = removed ∧ f.blocks = blocks ∧
      step sampleGbd volumeV sampleWrite s = some t ∧ t.machine.disk 4 ≠ s.machine.disk 4 := by
  unfold writesFour at writes
  split at writes
  · next row f t found stepped =>
    simp only [Bool.and_eq_true,beq_iff_eq,bne_iff_ne] at writes
    exact ⟨row,f,t,found,writes.1.1,writes.1.2,stepped,fun same => writes.2 (by rw [same])⟩
  · contradiction

theorem write_confined_sample : ∃ final f t,
    run (step sampleGbd volumeV) [.create pathA 1,.open pathA] sampleSession = some final ∧
    step sampleGbd volumeV sampleWrite final = some t ∧ t.machine.disk 4 ≠ final.machine.disk 4 ∧
    Own final.machine.disk f 4 := by
  have ran : (run (step sampleGbd volumeV) [.create pathA 1,.open pathA] sampleSession).any (writesFour false [4]) = true := by
    decide +kernel
  obtain ⟨final,ran,writes⟩ := (Option.any_eq_true _ _).mp ran
  obtain ⟨row,f,t,found,kept,_,wrote,changed⟩ := writesFour_spec writes
  have meets : Meets (step sampleGbd volumeV) OnLiveHandle [.create pathA 1,.open pathA] sampleSession := by
    refine ⟨trivial,?_⟩
    split
    · trivial
    · refine ⟨trivial,?_⟩
      split <;> trivial
  exact ⟨final,f,t,ran,wrote,changed,write_confined (fun _ => rfl) volumeV sampleMachine_wellFormed (fun _ => rfl) meets ran
    (fun _ => 1) 0 found kept wrote changed⟩

/-- An empty file is opened and removed; the next file gets its inode block, and a write through
the old handle goes to a block that the removed file never had. -/
theorem stale_handle_write : ∃ final row f t,
    run (step sampleGbd volumeV) [.create pathA 0,.open pathA,.remove pathA,.create pathB 1] sampleSession = some final ∧
    verifyOpen final 0 = some (row, f) ∧ step sampleGbd volumeV sampleWrite final = some t ∧
    t.machine.disk 4 ≠ final.machine.disk 4 ∧ 4 ∉ f.blocks := by
  have ran : (run (step sampleGbd volumeV) [.create pathA 0,.open pathA,.remove pathA,.create pathB 1] sampleSession).any
      (writesFour true []) = true := by
    decide +kernel
  obtain ⟨final,ran,writes⟩ := (Option.any_eq_true _ _).mp ran
  obtain ⟨row,f,t,found,_,blocks,wrote,changed⟩ := writesFour_spec writes
  exact ⟨final,row,f,t,ran,found,wrote,changed,by simp [blocks]⟩

end Buenos.Fs.Handles
