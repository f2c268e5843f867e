import Buenos.Fs.Listing

/-! `tfs_open` among other calls of the driver. It searches the directory with the volume's lock
held, and reads the inode number of the entry it has found from the shared buffer when it has
given the lock back. -/
namespace Buenos.Fs.Tfs.Opening

open Buenos.Foundation Buenos.Lib Buenos.Fs.Listing

/-! ### The model -/

/-- The part of `tfs_open` under the lock: the entry found, or what is returned without one. -/
def openSection (g : Gbd) (filename : Name) (m : Machine) : Except Int Nat × Machine :=
  if g.ok m tfsDirectoryBlock then
    let m := m.afterRead tfsDirectoryBlock .md
    match findEntry (m.memory .md) filename with
    | some k => (.ok k, m)
    | none => (.error vfsNotFound, m)
  else (.error vfsError, m.refused false tfsDirectoryBlock .md)

/-- `return tfs->buffer_md[i].inode` -/
def fetchInode (k : Nat) (m : Machine) : Int := toS32 (entryInode (m.memory .md) k)

/-- With nothing in between the two parts are `tfs_open`. -/
theorem openSection_tfsOpen (g : Gbd) (filename : Name) (m : Machine) :
    tfsOpen g filename m = match openSection g filename m with
      | (.ok k, z) => (fetchInode k z, z)
      | (.error code, z) => (code, z) := by
  rw [tfsOpen,openSection,readBlock_eq]
  split
  · dsimp only
    cases findEntry ((m.afterRead tfsDirectoryBlock .md).memory .md) filename <;> rfl
  · rfl

/-- The other functions of the driver, each of them one section under the lock. -/
inductive Section where
  | create (filename : Name) (size : Int)
  | remove (filename : Name)
  | read (fileid : Int) (buffer : Nat) (bufsize offset : Int)
  | write (fileid : Int) (data : Bytes) (buffer : Nat) (datasize offset : Int)
  | getfree
  | filecount
  | file (index : Int) (buffer : Nat)

def Section.perform (g : Gbd) (m : Machine) : Section → Machine
  | .create filename size => (tfsCreate g filename size m).2
  | .remove filename => (tfsRemove g filename m).2
  | .read fileid buffer bufsize offset => (tfsRead g fileid buffer bufsize offset m).2
  | .write fileid data buffer datasize offset => (tfsWrite g fileid buffer datasize offset { m with user := data }).2
  | .getfree => (tfsGetfree g m).2
  | .filecount => (tfsFilecount g m).2
  | .file index buffer => (tfsFile g index buffer m).2

/-- A call of `tfs_open` in progress. `moments` are the contents of the disk since it began and
are not read by the code. -/
structure Pending where
  filename : Name
  found : Option Nat
  moments : List Disk

structure Returned where
  filename : Name
  result : Int
  moments : List Disk

structure State where
  machine : Machine
  opens : Nat → Option Pending
  returned : List Returned

inductive Move where
  | begin (t : Nat) (filename : Name)
  | search (t : Nat)
  | fetch (t : Nat)
  | other (call : Section)

def Pending.observe (p : Pending) (d : Disk) : Pending := { p with moments := d :: p.moments }

/-- The machine after a section; every call in progress sees the disk it leaves. -/
def State.run (s : State) (m : Machine) : State :=
  { s with machine := m, opens := fun t => (s.opens t).map (·.observe m.disk) }

def State.finish (s : State) (t : Nat) (p : Pending) (result : Int) : State :=
  { s with opens := Function.update s.opens t none, returned := ⟨p.filename, result, p.moments⟩ :: s.returned }

def step (g : Gbd) (a : Move) (s : State) : Option State :=
  match a with
  | .begin t filename => match s.opens t with
    | none => some { s with opens := Function.update s.opens t (some ⟨filename, none, [s.machine.disk]⟩) }
    | some _ => none
  | .search t => match s.opens t with
    | some ⟨filename, none, moments⟩ =>
      let r := openSection g filename s.machine
      match r.1 with
      | .ok k => some { s with machine := r.2, opens := Function.update s.opens t (some ⟨filename, some k, moments⟩) }
      | .error code => some (State.finish { s with machine := r.2 } t ⟨filename, none, moments⟩ code)
    | _ => none
  | .fetch t => match s.opens t with
    | some ⟨filename, some k, moments⟩ => some (s.finish t ⟨filename, some k, moments⟩ (fetchInode k s.machine))
    | _ => none
  | .other call => some (s.run (call.perform g s.machine))

def begun (m : Machine) : State := ⟨m,fun _ => none,[]⟩

/-- What the directory says at a moment of the call. -/
def Linearized (r : Returned) : Prop :=
  (∃ d ∈ r.moments, Named d r.filename r.result) ∨
  (r.result = vfsNotFound ∧ ∃ d ∈ r.moments, ∀ k < tfsMaxFiles, entryName (d tfsDirectoryBlock) k ≠ r.filename)

/-- What the VFS passes on, as for single calls: names of 1 to 15 characters, sizes and lengths that
are not negative, and writes to files of the volume. -/
def Allowed (m : Machine) : Section → Prop
  | .create filename size => IsFilename filename ∧ 0 ≤ size ∧ size < 2 ^ 31
  | .remove filename => 0 ∉ filename ∧ filename ≠ []
  | .read _ _ bufsize _ => 0 ≤ bufsize
  | .write fileid _ _ datasize _ => (∃ n : Nat, fileid = n ∧ IsFile m.disk n) ∧ 0 ≤ datasize
  | _ => True

/-- When the inode number is read, the name still stands in the entry that was found. -/
def Undisturbed (a : Move) (s : State) : Prop :=
  match a with
  | .begin _ filename => 0 ∉ filename ∧ filename ≠ []
  | .search _ => True
  | .fetch t => ∀ p k, s.opens t = some p → p.found = some k → entryName (s.machine.disk tfsDirectoryBlock) k = p.filename
  | .other call => Allowed s.machine call

/-! ### The directory buffer -/

/-- The buffer has the inode numbers of the files on the disk. -/
def Buffered (m : Machine) : Prop :=
  ∀ k < tfsMaxFiles, Used (m.disk tfsDirectoryBlock) k →
    entryInode (m.memory .md) k = entryInode (m.disk tfsDirectoryBlock) k

section Frame
variable {g : Gbd} {m : Machine}

theorem readBlock_md (other : b ≠ Buffer.md) (next : Machine → Int × Machine)
    (same : ∀ z : Machine, z.memory .md = m.memory .md → (next z).2.memory .md = m.memory .md) :
    (readBlock g block b m next).2.memory .md = m.memory .md := by
  rw [readBlock_eq]
  split
  · exact same _ (afterRead_of_ne other.symm)
  · rfl

theorem writeBlock_md (next : Machine → Int × Machine)
    (same : ∀ z : Machine, z.memory .md = m.memory .md → (next z).2.memory .md = m.memory .md) :
    (writeBlock g block b m next).2.memory .md = m.memory .md := by
  rw [writeBlock_eq]
  split
  · exact same _ rfl
  · rfl

theorem readBlocks_md (g : Gbd) (b2 bufsize : Int) (left : Nat) (b1 read : Int) (buffer : Nat) (m : Machine) :
    (readBlocks g b2 bufsize left b1 read buffer m).2.memory .md = m.memory .md := by
  induction left generalizing b1 read buffer m with
  | zero => rfl
  | succ left ih =>
    refine readBlock_md (by decide) _ fun z same => ?_
    split
    · rw [ih]; exact same
    · rw [ih]; exact same

theorem readRange_md (g : Gbd) (b1 b2 read bufsize : Int) (position buffer : Nat) (m : Machine) :
    (readRange g b1 b2 read bufsize position buffer m).2.memory .md = m.memory .md := by
  rw [readRange]
  refine readBlock_md (by decide) _ fun z same => ?_
  rw [readBlocks_md]
  exact same

theorem tfsRead_md (g : Gbd) (fileid : Int) (buffer : Nat) (bufsize offset : Int) (m : Machine) :
    (tfsRead g fileid buffer bufsize offset m).2.memory .md = m.memory .md := by
  unfold tfsRead
  split
  · rfl
  refine readBlock_md (by decide) _ fun z same => ?_
  split
  · exact same
  rw [readFile]
  split
  · exact same
  · rw [readRange_md]
    exact same

theorem readPartial_md (next : Machine → Int × Machine)
    (same : ∀ z : Machine, z.memory .md = m.memory .md → (next z).2.memory .md = m.memory .md) :
    (readPartial g size block m next).2.memory .md = m.memory .md := by
  unfold readPartial
  split
  · exact readBlock_md (by decide) next same
  · exact same m rfl

theorem writeData_md (next : Machine → Int × Machine)
    (same : ∀ z : Machine, z.memory .md = m.memory .md → (next z).2.memory .md = m.memory .md) :
    (writeData g b1 size position buffer next m).2.memory .md = m.memory .md := by
  have loaded : ∀ bytes, (m.load .bat bytes).memory .md = m.memory .md :=
    fun bytes => load_memory_of_ne bytes (by decide)
  unfold writeData
  rw [writeBlock_md _ fun z kept => (same z (kept.trans (loaded _))).trans (loaded _).symm]
  exact loaded _

theorem writeBlocks_md (g : Gbd) (b2 datasize : Int) (left : Nat) (b1 written : Int) (buffer : Nat) (m : Machine) :
    (writeBlocks g b2 datasize left b1 written buffer m).2.memory .md = m.memory .md := by
  induction left generalizing b1 written buffer m with
  | zero => rfl
  | succ left ih =>
    rw [writeBlocks]
    split
    · refine readPartial_md _ fun z same => ?_
      rw [← same]
      refine writeData_md _ fun y later => ?_
      rw [ih]
      exact later
    · refine writeData_md _ fun z same => ?_
      rw [ih]
      exact same

theorem writeRange_md (g : Gbd) (b1 b2 written datasize : Int) (position buffer : Nat) (m : Machine) :
    (writeRange g b1 b2 written datasize position buffer m).2.memory .md = m.memory .md := by
  rw [writeRange]
  refine readPartial_md _ fun z same => ?_
  rw [← same]
  refine writeData_md _ fun y later => ?_
  rw [writeBlocks_md]
  exact later

theorem tfsWrite_md (g : Gbd) (fileid : Int) (buffer : Nat) (datasize offset : Int) (m : Machine) :
    (tfsWrite g fileid buffer datasize offset m).2.memory .md = m.memory .md := by
  unfold tfsWrite
  split
  · rfl
  refine readBlock_md (by decide) _ fun z same => ?_
  split
  · exact same
  rw [writeFile]
  split
  · exact same
  · rw [writeRange_md]
    exact same

theorem zeroBlocks_md (g : Gbd) (left i : Nat) (m : Machine) : (zeroBlocks g left i m).2.memory .md = m.memory .md := by
  induction left generalizing i m with
  | zero => rfl
  | succ left ih =>
    refine writeBlock_md _ fun z same => ?_
    rw [ih]
    exact same

theorem commitFile_md (g : Gbd) (index numblocks : Nat) (m : Machine) :
    (commitFile g index numblocks m).2.memory .md = m.memory .md := by
  refine writeBlock_md _ fun z first => ?_
  rw [← first]
  refine writeBlock_md _ fun y second => ?_
  rw [← second]
  refine writeBlock_md _ fun x third => ?_
  rw [zeroBlocks_md,load_memory_of_ne _ (by decide)]
  exact third

end Frame

theorem allocateFile_md (g : Gbd) (index numblocks : Nat) (size : Int) (m : Machine) :
    ∃ n, (allocateFile g index numblocks size m).2.memory .md = setEntryInode (m.memory .md) index n := by
  refine ⟨toU32 (bitmapFindnset (m.memory .bat) (totalblocks g)).1,?_⟩
  simp only [allocateFile]
  split
  · exact load_memory_self _
  split
  · rw [commitFile_md,load_memory_of_ne _ (by decide),load_memory_of_ne _ (by decide),load_memory_self]
  · rw [load_memory_of_ne _ (by decide),load_memory_of_ne _ (by decide),load_memory_self]

/-- `tfs_create` has not read the directory, or changed a free entry of it at most. -/
theorem tfsCreate_md (g : Gbd) (filename : Name) (size : Int) (m : Machine) :
    (tfsCreate g filename size m).2.memory .md = m.memory .md ∨
    ∀ k, Used (m.disk tfsDirectoryBlock) k →
      entryInode ((tfsCreate g filename size m).2.memory .md) k = entryInode (m.disk tfsDirectoryBlock) k := by
  simp only [tfsCreate]
  split
  · exact .inl rfl
  rw [readBlock_eq]
  split
  swap
  · exact .inl rfl
  simp only [afterRead_self]
  refine .inr ?_
  split
  · intro k _
    rw [afterRead_self]
  next index scanned =>
  split
  · intro k _
    rw [afterRead_self]
  next present =>
  obtain missing | ⟨l,member,rfl,vacant⟩ := (scanEntries_some scanned).2
  · exact absurd missing present
  intro k used
  have other : k ≠ l := by
    rintro rfl
    exact used vacant
  rw [readBlock_eq]
  split
  · obtain ⟨n,directory⟩ := allocateFile_md g l (numblocksOf size) size (Machine.afterRead
      ((m.afterRead tfsDirectoryBlock .md).load .md (stringcopy (m.disk tfsDirectoryBlock) (namePosition l)
        (tfsFilenameMax - 1) filename)) tfsAllocationBlock .bat)
    rw [Int.toNat_natCast,directory,entryInode_setEntryInode _ other,afterRead_of_ne (by decide),load_memory_self,
      entryInode_stringcopy]
  · rw [Machine.refused,Int.toNat_natCast,load_memory_self,entryInode_stringcopy]

section Buffer
variable {g : Gbd} {m : Machine} (reliable : Reliable g) (formed : WellFormed g m.disk)

theorem Buffered.same (buffered : Buffered m) (memory : z.memory .md = m.memory .md)
    (disk : z.disk tfsDirectoryBlock = m.disk tfsDirectoryBlock) : Buffered z := by
  unfold Buffered
  rw [memory,disk]
  exact buffered

theorem buffered_of_eq (same : z.memory .md = z.disk tfsDirectoryBlock) : Buffered z := by
  intro k _ _
  rw [same]

include reliable formed

theorem buffered_create (buffered : Buffered m) (good : IsFilename filename) :
    Buffered (tfsCreate g filename size m).2 := by
  obtain ⟨⟨_,same⟩,_⟩ | ⟨index,inode,bs,z,commits,_,_,ready⟩ := tfsCreate_cases formed good size (m := m)
  · rcases tfsCreate_md g filename size m with kept | agrees
    · exact buffered.same kept (by rw [same])
    · intro k _ used
      rw [same] at used ⊢
      exact agrees k used
  · obtain ⟨_,created,_⟩ := ready.effect reliable formed commits
    have md : (tfsCreate g filename size m).2.memory .md = z.memory .md := by rw [commits,commitFile_md]
    intro k _ _
    rw [md]
    by_cases here : k = index
    · rw [here,ready.entry,created.entry]
    · rw [(ready.entries k here).1,(created.entries k here).1]

theorem buffered_remove (clean : 0 ∉ filename) (nonempty : filename ≠ []) : Buffered (tfsRemove g filename m).2 := by
  have room := formed.size
  have dir : tfsDirectoryBlock < g.blocks := by unfold tfsDirectoryBlock; omega
  obtain ⟨disk,⟨i,_,failed⟩ | ⟨_,absent⟩⟩ | ⟨index,z,writes,_,_⟩ := tfsRemove_cases formed clean nonempty (m := m)
  · rw [reliable] at failed
    contradiction
  · apply buffered_of_eq
    rw [disk]
    unfold tfsRemove
    rw [readBlock_ok reliable dir]
    simp only [afterRead_self]
    split
    · exact afterRead_self
    · next index found =>
      obtain ⟨slot,named⟩ := findEntry_some formed clean found
      exact absurd named (absent index slot)
  · rw [writes,writeBlock_ok reliable dir]
    apply buffered_of_eq
    rw [afterWrite_memory,afterWrite_disk,Function.update_self]

theorem buffered_section (buffered : Buffered m) (allowed : Allowed m call) : Buffered (call.perform g m) := by
  have room := formed.size
  cases call with
  | create filename size => exact buffered_create reliable formed buffered allowed.1
  | remove filename => exact buffered_remove reliable formed allowed.1 allowed.2
  | read fileid buffer bufsize offset =>
    exact buffered.same (tfsRead_md g fileid buffer bufsize offset m) (by rw [Section.perform,tfsRead_disk])
  | write fileid data buffer datasize offset =>
    obtain ⟨⟨n,rfl,file⟩,nonneg⟩ := allowed
    have kept := tfsWrite_keeps (m := { m with user := data }) reliable formed file buffer nonneg offset
    exact buffered.same (tfsWrite_md g n buffer datasize offset { m with user := data }) kept.2.1
  | getfree =>
    rw [Section.perform,tfsGetfree,readBlock_ok reliable (show tfsAllocationBlock < g.blocks by
      unfold tfsAllocationBlock; omega)]
    exact buffered.same (afterRead_of_ne (by decide)) rfl
  | filecount =>
    rw [Section.perform,tfsFilecount,readBlock_ok reliable (show tfsDirectoryBlock < g.blocks by
      unfold tfsDirectoryBlock; omega)]
    exact buffered_of_eq afterRead_self
  | file index buffer =>
    rw [Section.perform,tfsFile,readBlock_ok reliable (show tfsDirectoryBlock < g.blocks by
      unfold tfsDirectoryBlock; omega)]
    apply buffered_of_eq
    have loaded : (m.afterRead tfsDirectoryBlock .md).memory .md = m.disk tfsDirectoryBlock := afterRead_self
    dsimp only
    split
    · exact loaded
    · exact loaded

theorem section_wellFormed (allowed : Allowed m call) : WellFormed g (call.perform g m).disk := by
  cases call with
  | create filename size => exact tfsCreate_wellFormed reliable formed allowed.1 allowed.2.1 allowed.2.2
  | remove filename => exact tfsRemove_wellFormed reliable formed allowed.1 allowed.2
  | read fileid buffer bufsize offset => rwa [Section.perform,tfsRead_disk]
  | write fileid data buffer datasize offset =>
    obtain ⟨⟨n,rfl,file⟩,nonneg⟩ := allowed
    exact (tfsWrite_keeps (m := { m with user := data }) reliable formed file buffer nonneg offset).1
  | getfree =>
    rw [Section.perform,tfsGetfree,readBlock_disk]
    · exact formed
    · exact fun z same => same
  | filecount =>
    rw [Section.perform,tfsFilecount,readBlock_disk]
    · exact formed
    · exact fun z same => same
  | file index buffer =>
    rw [Section.perform,tfsFile,readBlock_disk]
    · exact formed
    · intro z same
      dsimp only
      split
      · exact same
      · exact same

end Buffer

/-! ### Runs -/

/-- A call in progress has seen the disk as it is, and the buffer is good once it has searched. -/
structure Tracks (m : Machine) (p : Pending) : Prop where
  clean : 0 ∉ p.filename
  nonempty : p.filename ≠ []
  now : m.disk ∈ p.moments
  found : ∀ k, p.found = some k → k < tfsMaxFiles ∧ Buffered m

structure Sound (g : Gbd) (s : State) : Prop where
  formed : WellFormed g s.machine.disk
  opens : ∀ t p, s.opens t = some p → Tracks s.machine p
  returned : ∀ r ∈ s.returned, Linearized r

section Runs
variable {g : Gbd} {s s' : State} (reliable : Reliable g)

theorem Sound.finish (sound : Sound g s) (t : Nat) (p : Pending) (result : Int)
    (linearized : Linearized ⟨p.filename, result, p.moments⟩) : Sound g (s.finish t p result) := by
  refine ⟨sound.formed,?_,?_⟩
  · intro u q pending
    simp only [State.finish] at pending
    by_cases same : u = t
    · rw [same,Function.update_self] at pending
      cases pending
    · rw [Function.update_of_ne same] at pending
      exact sound.opens u q pending
  · intro r member
    rcases List.mem_cons.mp member with rfl | old
    · exact linearized
    · exact sound.returned r old

theorem Sound.pend (sound : Sound g s) (t : Nat) (p : Pending) (tracks : Tracks s.machine p) :
    Sound g { s with opens := Function.update s.opens t (some p) } := by
  refine ⟨sound.formed,?_,sound.returned⟩
  intro u q pending
  dsimp only at pending
  by_cases same : u = t
  · rw [same,Function.update_self] at pending
    cases pending
    exact tracks
  · rw [Function.update_of_ne same] at pending
    exact sound.opens u q pending

theorem Sound.search (sound : Sound g s) : Sound g { s with machine := s.machine.afterRead tfsDirectoryBlock .md } := by
  refine ⟨sound.formed,?_,sound.returned⟩
  intro t p pending
  obtain ⟨clean,nonempty,now,found⟩ := sound.opens t p pending
  exact ⟨clean,nonempty,now,fun k there => ⟨(found k there).1,buffered_of_eq afterRead_self⟩⟩

include reliable

/-- The section of `tfs_open`. -/
theorem openSection_ok (formed : WellFormed g m.disk) (filename : Name) :
    openSection g filename m = (match findEntry (m.disk tfsDirectoryBlock) filename with
      | some k => .ok k
      | none => .error vfsNotFound, m.afterRead tfsDirectoryBlock .md) := by
  have room := formed.size
  have dir : tfsDirectoryBlock < g.blocks := by unfold tfsDirectoryBlock; omega
  rw [openSection,if_pos (by rw [ok_inside dir]; exact reliable _)]
  simp only [afterRead_self]
  cases findEntry (m.disk tfsDirectoryBlock) filename <;> rfl

theorem Sound.step {a : Move} (sound : Sound g s) (undisturbed : Undisturbed a s) (next : step g a s = some s') :
    Sound g s' := by
  cases a with
  | begin t filename =>
    simp only [Opening.step] at next
    split at next
    · cases next
      exact sound.pend t _ ⟨undisturbed.1,undisturbed.2,List.mem_singleton_self _,by simp⟩
    · contradiction
  | search t =>
    simp only [Opening.step] at next
    split at next
    · next filename moments pending =>
      obtain ⟨clean,nonempty,now,-⟩ := sound.opens t _ pending
      rw [openSection_ok reliable sound.formed] at next
      have later := sound.search
      cases entry : findEntry (s.machine.disk tfsDirectoryBlock) filename with
      | some k =>
        simp only [entry] at next
        cases next
        refine later.pend t _ ⟨clean,nonempty,now,?_⟩
        intro l same
        cases same
        exact ⟨(findEntry_some sound.formed clean entry).1,buffered_of_eq afterRead_self⟩
      | none =>
        simp only [entry] at next
        cases next
        refine later.finish t _ _ (.inr ⟨rfl,_,now,?_⟩)
        exact findEntry_none sound.formed clean entry
    · contradiction
  | fetch t =>
    simp only [Opening.step] at next
    split at next
    · next filename k moments pending =>
      cases next
      obtain ⟨clean,nonempty,now,found⟩ := sound.opens t _ pending
      obtain ⟨slot,buffered⟩ := found k rfl
      have named := undisturbed _ k pending rfl
      have used := sound.formed.used slot (named ▸ nonempty)
      obtain ⟨_,inside⟩ := sound.formed.inode_inside slot used
      have total := (totalblocks_le g).2
      refine sound.finish t _ _ (.inl ⟨_,now,k,slot,named,used,?_⟩)
      rw [fetchInode,buffered k slot used]
      exact toS32_small (by omega)
    · contradiction
  | other call =>
    cases next
    refine ⟨section_wellFormed reliable sound.formed undisturbed,?_,sound.returned⟩
    intro t p pending
    obtain ⟨q,before,rfl⟩ := Option.map_eq_some_iff.mp pending
    obtain ⟨clean,nonempty,now,found⟩ := sound.opens t q before
    refine ⟨clean,nonempty,List.mem_cons_self,?_⟩
    intro k there
    obtain ⟨slot,buffered⟩ := found k there
    exact ⟨slot,buffered_section reliable sound.formed buffered undisturbed⟩

end Runs

/-- In every run in which the entry of a `tfs_open` keeps the name until its inode number is read,
the call returns what the directory said at a moment of the call. -/
theorem tfs_open_linearizable (reliable : Reliable g) (formed : WellFormed g m.disk)
    (undisturbed : Meets (step g) Undisturbed moves (begun m)) (ran : run (step g) moves (begun m) = some s)
    (member : r ∈ s.returned) : Linearized r := by
  have sound : Sound g (begun m) := ⟨formed,by simp [begun],by simp [begun]⟩
  exact (run_guarded (fun _ _ _ sound ok next => sound.step reliable ok next) sound undisturbed ran).returned r member

/-- The file is removed when the search has found it. -/
def removedWhileOpening : List Move := [.begin 0 sampleName,.search 0,.other (.remove sampleName),.fetch 0]

theorem removed_entry_returned : ∃ s r, run (step sampleGbd) removedWhileOpening (begun sampleFile) = some s ∧
    r ∈ s.returned ∧ r.filename = sampleName ∧ r.result = 0 ∧ ¬Linearized r := by
  have ran : ((run (step sampleGbd) removedWhileOpening (begun sampleFile)).any fun s =>
      s.returned.any fun r => decide (r.filename = sampleName ∧ r.result = 0)) = true := by
    decide +kernel
  obtain ⟨s,ran,facts⟩ := (Option.any_eq_true _ _).mp ran
  obtain ⟨r,member,facts⟩ := List.any_eq_true.mp facts
  obtain ⟨name,zero⟩ := of_decide_eq_true facts
  refine ⟨s,r,ran,member,name,zero,?_⟩
  rintro (⟨d,_,k,_,_,used,same⟩ | ⟨missing,_⟩)
  · rw [zero] at same
    exact used (by omega)
  · rw [zero] at missing
    exact absurd missing (by decide)

instance (m : Machine) (call : Section) : Decidable (Allowed m call) :=
  match call with
  | .create filename size => decidable_of_iff
      ((filename ≠ [] ∧ filename.length < tfsFilenameMax ∧ 0 ∉ filename) ∧ 0 ≤ size ∧ size < 2 ^ 31)
      ⟨fun ⟨⟨one,two,three⟩,rest⟩ => ⟨⟨one,two,three⟩,rest⟩,fun ⟨good,rest⟩ => ⟨⟨good.nonempty,good.short,good.clean⟩,rest⟩⟩
  | .remove filename => inferInstanceAs (Decidable (0 ∉ filename ∧ filename ≠ []))
  | .read _ _ bufsize _ => inferInstanceAs (Decidable (0 ≤ bufsize))
  | .write fileid _ _ datasize _ => decidable_of_iff ((0 ≤ fileid ∧ fileid.toNat ≠ 0 ∧
      ∃ k < tfsMaxFiles, entryInode (m.disk tfsDirectoryBlock) k = fileid.toNat) ∧ 0 ≤ datasize)
      ⟨fun ⟨⟨nonneg,file⟩,size⟩ => ⟨⟨fileid.toNat,by omega,file⟩,size⟩,by
        rintro ⟨⟨n,rfl,file⟩,size⟩
        exact ⟨⟨by omega,by rwa [Int.toNat_natCast]⟩,size⟩⟩
  | .getfree | .filecount | .file .. => isTrue trivial

instance (a : Move) (s : State) : Decidable (Undisturbed a s) :=
  match a with
  | .begin _ filename => inferInstanceAs (Decidable (0 ∉ filename ∧ filename ≠ []))
  | .search _ => isTrue trivial
  | .fetch t => decidable_of_iff (∀ p ∈ s.opens t, ∀ k ∈ p.found,
      entryName (s.machine.disk tfsDirectoryBlock) k = p.filename)
      ⟨fun all p k there found => all p there k found,fun all p there k found => all p k there found⟩
  | .other call => inferInstanceAs (Decidable (Allowed s.machine call))

/-- Another file is created before the inode number is read. -/
def createdWhileOpening : List Move := [.begin 0 sampleName,.search 0,.other (.create [98] 0),.fetch 0]

theorem tfs_open_linearizable_created : ∃ s r, run (step sampleGbd) createdWhileOpening (begun sampleFile) = some s ∧
    r ∈ s.returned ∧ r.result = 3 ∧ Linearized r := by
  have ran : ((run (step sampleGbd) createdWhileOpening (begun sampleFile)).any fun s =>
      s.returned.any fun r => decide (r.result = 3)) = true := by
    decide +kernel
  obtain ⟨s,ran,facts⟩ := (Option.any_eq_true _ _).mp ran
  obtain ⟨r,member,facts⟩ := List.any_eq_true.mp facts
  have met : Meets (step sampleGbd) Undisturbed createdWhileOpening (begun sampleFile) := by decide +kernel
  exact ⟨s,r,ran,member,of_decide_eq_true facts,tfs_open_linearizable (fun _ => rfl) sampleFile_wellFormed met ran member⟩

end Buenos.Fs.Tfs.Opening
