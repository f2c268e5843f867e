import Buenos.Fs.Vfs

/-! Driver calls against `vfs_unmount`. Every operation protects the filesystem it looked
up by a lock, by a reserved row of the open file table, or, in `vfs_filecount` and
`vfs_file`, not at all. -/
namespace Buenos.Fs.Unmount

open Buenos.Foundation

/-- The life of a `fs_t`: `pending` in a `vfs_mount`, then in a row of the table, then
between its unmount function and the clearing of the row. -/
inductive Stage where
  | fresh
  | pending (t : Nat)
  | mounted (row : MountRow)
  | leaving (row : MountRow)
  | gone
  deriving DecidableEq

/-- What the owner of a row of the open file table has it for. -/
inductive Use where
  | opening
  | handle
  | closing
  deriving DecidableEq

inductive Fact where
  | none
  | pending (fs : FsPtr)
  | place (row : MountRow) (fs : FsPtr)
  | found (fs : FsPtr)
  | candidate (row : MountRow) (fs : FsPtr)
  | unmounting (row : MountRow) (fs : FsPtr)
  | leaving (row : MountRow) (fs : FsPtr)
  | file (use : Use) (file : FileRow) (fs : FsPtr)
  | looking (fs : FsPtr)

/-- The locks a thread holds and what it relies on. -/
structure Local where
  table : Bool
  files : Bool
  fact : Fact

def mountAt (s : Vfs) (row : MountRow) : Option FsPtr := (s.filesystems row).filesystem
def fileAt (s : Vfs) (file : FileRow) : Option FsPtr := (s.files file).filesystem

abbrev Stages := FsPtr → Stage
abbrev Owners := FileRow → Option (Nat × Use)

structure Consistent (s : Vfs) (stage : Stages) (owner : Owners) : Prop where
  known : ∀ fs, stage fs ≠ .fresh → fs ∈ s.known
  rows : ∀ row fs, mountAt s row = some fs ↔ stage fs = .mounted row ∨ stage fs = .leaving row
  unmounted : ∀ fs ∈ s.unmounted, stage fs = .gone ∨ ∃ row, stage fs = .leaving row
  files : ∀ file fs, fileAt s file = some fs → ∃ row, stage fs = .mounted row
  owned : ∀ file, owner file ≠ none → fileAt s file ≠ none
  handles : ∀ t n, (t, n) ∈ s.handles ↔ ∃ file : FileRow, n = (file : Nat) ∧ owner file = some (t, .handle)
  once : s.handles.Nodup

def Holds (s : Vfs) (stage : Stages) (owner : Owners) (t : Nat) (l : Local) : Prop :=
  match l.fact with
  | .none => True
  | .pending fs => stage fs = .pending t
  | .place row fs => l.table = true ∧ stage fs = .pending t ∧ mountAt s row = none
  | .found fs => l.table = true ∧ ∃ row, stage fs = .mounted row
  | .candidate row fs => l.table = true ∧ stage fs = .mounted row
  | .unmounting row fs => (l.table = true ∧ l.files = true) ∧ stage fs = .mounted row ∧
    ∀ file, fileAt s file ≠ some fs
  | .leaving row fs => (l.table = true ∧ l.files = true) ∧ stage fs = .leaving row
  | .file use file fs => owner file = some (t, use) ∧ fileAt s file = some fs
  | .looking fs => (t, fs) ∈ s.looking ∧ ∃ row, stage fs = .mounted row

/-- Only the leaving of a filesystem outlasts a step while its row is in the table. -/
def Fact.leaves : Fact → Bool
  | .leaving _ _ => true
  | _ => false

structure Fits (s : Vfs) (locals : Nat → Local) : Prop where
  table : Exclusive (s.sem .vfsTable) fun t => (locals t).table
  files : Exclusive (s.sem .openfileTable) fun t => (locals t).files
  model : ∃ stage owner, Consistent s stage owner ∧
    (∀ fs row, stage fs = .leaving row → ∃ t, (locals t).fact = .leaving row fs) ∧
    ∀ t, Holds s stage owner t (locals t)

/-- A driver function other than unmount is called on a filesystem not yet unmounted. -/
def legal (e : DriverCall) (s : Vfs) : Prop :=
  e.fn ≠ .unmount → e.fn ≠ .forcedUnmount → e.fs ∉ s.unmounted

/-- No lookup of this filesystem is between its lookup and its driver call. -/
def spares (e : DriverCall) (s : Vfs) : Prop := e.fn = .unmount → ∀ p ∈ s.looking, p.2 ≠ e.fs

def Local.unlocked (l : Local) : Prop := l.table = false ∧ l.files = false

abbrev SafeProg : Nat → Local → VfsProg → Prop := Safe invoke Fits legal spares Local.unlocked

/-! ### What other threads rely on -/

theorem Holds.frame (holds : Holds s stage owner u l)
    (pending : ∀ fs, stage fs = .pending u → stage' fs = .pending u)
    (mounted : ∀ fs row, l.table = true ∨ (u, fs) ∈ s.looking → stage fs = .mounted row →
      stage' fs = .mounted row)
    (leaving : l.table = true → ∀ fs row, stage fs = .leaving row → stage' fs = .leaving row)
    (places : l.table = true → ∀ row, mountAt s row = none → mountAt s' row = none)
    (unopened : l.table = true → ∀ file fs, fileAt s file ≠ some fs → fileAt s' file ≠ some fs)
    (owners : ∀ file use, owner file = some (u, use) →
      owner' file = some (u, use) ∧ fileAt s' file = fileAt s file)
    (looking : ∀ fs, (u, fs) ∈ s.looking → (u, fs) ∈ s'.looking) :
    Holds s' stage' owner' u l := by
  unfold Holds at holds ⊢
  split at holds
  · trivial
  · exact pending _ holds
  · exact ⟨holds.1,pending _ holds.2.1,places holds.1 _ holds.2.2⟩
  · obtain ⟨table,row,at_⟩ := holds
    exact ⟨table,row,mounted _ row (.inl table) at_⟩
  · exact ⟨holds.1,mounted _ _ (.inl holds.1) holds.2⟩
  · obtain ⟨locks,at_,empty⟩ := holds
    exact ⟨locks,mounted _ _ (.inl locks.1) at_,fun file => unopened locks.1 file _ (empty file)⟩
  · exact ⟨holds.1,leaving holds.1.1 _ _ holds.2⟩
  · obtain ⟨mine,at_⟩ := holds
    obtain ⟨kept,same⟩ := owners _ _ mine
    exact ⟨kept,same.trans at_⟩
  · obtain ⟨listed,row,at_⟩ := holds
    exact ⟨looking _ listed,row,mounted _ row (.inr listed) at_⟩

theorem holds_update (mine : Holds s stage owner t l)
    (others : ∀ u, u ≠ t → Holds s stage owner u (locals u)) (u : Nat) :
    Holds s stage owner u (Function.update locals t l u) := by
  by_cases same : u = t
  · subst same; simpa using mine
  · simpa [same] using others u same

theorem Fits.other (fits : Fits s locals) (mine : (locals t).table = true) (apart : u ≠ t) :
    (locals u).table = false := by
  by_contra held
  exact apart (fits.table.alone u t (by simpa using held) mine)

theorem leavers_update {stage : Stages} {locals : Nat → Local}
    (leavers : ∀ fs row, stage fs = .leaving row → ∃ t, (locals t).fact = .leaving row fs)
    (stays : (locals t).fact.leaves = false) :
    ∀ fs row, stage fs = .leaving row → ∃ u, (Function.update locals t l u).fact = .leaving row fs := by
  intro fs row at_
  obtain ⟨u,fact⟩ := leavers fs row at_
  have apart : u ≠ t := by rintro rfl; simp [fact,Fact.leaves] at stays
  exact ⟨u,by simpa [apart] using fact⟩

section Steps
variable {s s' : Vfs} {locals : Nat → Local} {l : Local} {t : Nat}

/-- Under the table lock a filesystem in the table is mounted, unless the holder itself is
about to clear its row. -/
theorem Fits.mounted (fits : Fits s locals) (mine : (locals t).table = true)
    (stays : (locals t).fact.leaves = false) (consistent : Consistent s stage owner)
    (leavers : ∀ fs row, stage fs = .leaving row → ∃ t, (locals t).fact = .leaving row fs)
    (holds : ∀ t, Holds s stage owner t (locals t)) (at_ : mountAt s row = some fs) :
    stage fs = .mounted row := by
  rcases (consistent.rows row fs).mp at_ with mounted | leaving
  · exact mounted
  obtain ⟨u,fact⟩ := leavers fs row leaving
  have locks := holds u
  simp only [Holds,fact] at locks
  have same := fits.table.alone u t locks.1.1 mine
  simp [← same,fact,Fact.leaves] at stays

theorem Fits.sameLocks (fits : Fits s locals) (s' : Vfs) (table : l.table = (locals t).table)
    (files : l.files = (locals t).files) (sem : s'.sem = s.sem) :
    Exclusive (s'.sem .vfsTable) (fun u => (Function.update locals t l u).table) ∧
    Exclusive (s'.sem .openfileTable) (fun u => (Function.update locals t l u).files) := by
  rw [sem]
  constructor
  · refine fits.table.congr fun u => ?_
    by_cases same : u = t <;> simp [same,table]
  · refine fits.files.congr fun u => ?_
    by_cases same : u = t <;> simp [same,files]

structure Quiet (s s' : Vfs) : Prop where
  mounts : ∀ row, mountAt s' row = mountAt s row
  files : ∀ file, fileAt s' file = fileAt s file
  unmounted : s'.unmounted = s.unmounted
  looking : s'.looking = s.looking
  handles : s'.handles = s.handles
  known : s'.known = s.known

theorem Consistent.quiet (consistent : Consistent s stage owner) (quiet : Quiet s s') :
    Consistent s' stage owner := by
  obtain ⟨mounts,files,unmounted,looking,handles,known⟩ := quiet
  constructor
  · simpa [known] using consistent.known
  · simpa [mounts] using consistent.rows
  · simpa [unmounted] using consistent.unmounted
  · simpa [files] using consistent.files
  · simpa [files] using consistent.owned
  · simpa [handles] using consistent.handles
  · simpa [handles] using consistent.once

theorem Holds.quiet (holds : Holds s stage owner u l) (quiet : Quiet s s') : Holds s' stage owner u l := by
  refine holds.frame (fun _ h => h) (fun _ _ _ h => h) (fun _ _ _ h => h) ?_ ?_ ?_ ?_
  · intro _ row free; rwa [quiet.mounts]
  · intro _ file fs other; rwa [quiet.files]
  · intro file use mine; exact ⟨mine,quiet.files file⟩
  · intro fs listed; rwa [quiet.looking]

theorem Fits.quiet (fits : Fits s locals) (quiet : Quiet s s')
    (sem : s'.sem .vfsTable = s.sem .vfsTable ∧ s'.sem .openfileTable = s.sem .openfileTable) : Fits s' locals := by
  obtain ⟨stage,owner,consistent,leavers,holds⟩ := fits.model
  exact ⟨sem.1 ▸ fits.table,sem.2 ▸ fits.files,stage,owner,consistent.quiet quiet,leavers,
    fun t => (holds t).quiet quiet⟩

theorem Fits.learn (fits : Fits s locals) (quiet : Quiet s s') (sem : s'.sem = s.sem)
    (table : l.table = (locals t).table) (files : l.files = (locals t).files)
    (stays : (locals t).fact.leaves = false)
    (learned : ∀ stage owner, Consistent s stage owner → Holds s stage owner t (locals t) →
      ((locals t).table = true → ∀ row fs, mountAt s row = some fs → stage fs = .mounted row) →
      Holds s stage owner t l) : Fits s' (Function.update locals t l) := by
  obtain ⟨stage,owner,consistent,leavers,holds⟩ := fits.model
  obtain ⟨first,second⟩ := fits.sameLocks s' table files sem
  have mine := learned stage owner consistent (holds t)
    fun mine row fs at_ => fits.mounted mine stays consistent leavers holds at_
  exact ⟨first,second,stage,owner,consistent.quiet quiet,leavers_update leavers stays,
    holds_update (mine.quiet quiet) fun u _ => (holds u).quiet quiet⟩

/-! ### Locks -/

def Local.has (l : Local) : Sem → Bool
  | .vfsTable => l.table
  | .openfileTable => l.files
  | _ => false

def Local.hold (l : Local) (x : Sem) (b : Bool) : Local :=
  match x with
  | .vfsTable => { l with table := b }
  | .openfileTable => { l with files := b }
  | _ => l

def Fact.free : Fact → Bool
  | .none | .pending _ | .file _ _ _ | .looking _ => true
  | _ => false

theorem Holds.take (holds : Holds s stage owner t l) : Holds s stage owner t (l.hold x true) := by
  cases x <;> unfold Holds at holds ⊢ <;> simp only [Local.hold] <;> split at holds <;> simp_all

theorem Holds.free (holds : Holds s stage owner t l) (free : l.fact.free = true) :
    Holds s stage owner t (l.hold x b) := by
  cases x <;> unfold Holds at holds ⊢ <;> simp only [Local.hold] <;> split at holds <;>
    simp_all [Fact.free]

theorem hold_fact (l : Local) (x : Sem) (b : Bool) : (l.hold x b).fact = l.fact := by
  cases x <;> rfl

theorem quiet_sem (s : Vfs) (f : Sem → Nat) : Quiet s { s with sem := f } :=
  ⟨fun _ => rfl,fun _ => rfl,rfl,rfl,rfl,rfl⟩

theorem Fits.relock (fits : Fits s locals)
    (table : Exclusive (f .vfsTable) fun u => (Function.update locals t ((locals t).hold x b) u).table)
    (files : Exclusive (f .openfileTable) fun u => (Function.update locals t ((locals t).hold x b) u).files)
    (kept : ∀ stage owner, Holds s stage owner t (locals t) →
      Holds s stage owner t ((locals t).hold x b)) :
    Fits { s with sem := f } (Function.update locals t ((locals t).hold x b)) := by
  obtain ⟨stage,owner,consistent,leavers,holds⟩ := fits.model
  have quiet := quiet_sem s f
  refine ⟨table,files,stage,owner,consistent.quiet quiet,?_,?_⟩
  · intro fs row at_
    obtain ⟨u,fact⟩ := leavers fs row at_
    refine ⟨u,?_⟩
    by_cases same : u = t
    · subst same; simpa [hold_fact] using fact
    · simpa [same] using fact
  · exact holds_update ((kept stage owner (holds t)).quiet quiet) fun u _ => (holds u).quiet quiet

theorem Fits.acquire (fits : Fits s locals) (lock : x = .vfsTable ∨ x = .openfileTable)
    (free : 0 < s.sem x) : Fits (s.down x) (Function.update locals t ((locals t).hold x true)) := by
  refine fits.relock ?_ ?_ fun _ _ holds => holds.take <;> rcases lock with rfl | rfl
  · simpa using fits.table.acquire free (t := t) fun u apart => by simp [apart]
  · refine (fits.table.congr fun u => ?_)
    by_cases same : u = t <;> simp [same,Local.hold]
  · refine (fits.files.congr fun u => ?_)
    by_cases same : u = t <;> simp [same,Local.hold]
  · simpa using fits.files.acquire free (t := t) fun u apart => by simp [apart]

theorem Fits.release (fits : Fits s locals) (lock : x = .vfsTable ∨ x = .openfileTable)
    (held : (locals t).has x = true) (bare : (locals t).fact.free = true) :
    Fits (s.up x) (Function.update locals t ((locals t).hold x false)) := by
  refine fits.relock ?_ ?_ fun _ _ holds => holds.free bare <;> rcases lock with rfl | rfl
  · simpa using fits.table.release (t := t) held (by simp [Local.hold]) fun u apart => by simp [apart]
  · refine (fits.table.congr fun u => ?_)
    by_cases same : u = t <;> simp [same,Local.hold]
  · refine (fits.files.congr fun u => ?_)
    by_cases same : u = t <;> simp [same,Local.hold]
  · simpa using fits.files.release (t := t) held (by simp [Local.hold]) fun u apart => by simp [apart]

/-! ### Steps that change the tables -/

@[simp] theorem mountAt_setMount (s : Vfs) (row row' : MountRow) (entry : VfsEntry) :
    mountAt (s.setMount row entry) row' = if row' = row then entry.filesystem else mountAt s row' := by
  by_cases same : row' = row <;> simp [mountAt,Vfs.setMount,same]

@[simp] theorem fileAt_setFile (s : Vfs) (file file' : FileRow) (entry : OpenfileEntry) :
    fileAt (s.setFile file entry) file' = if file' = file then entry.filesystem else fileAt s file' := by
  by_cases same : file' = file <;> simp [fileAt,Vfs.setFile,same]

theorem Fits.mount (fits : Fits s locals) (at_ : locals t = ⟨true,b,.place row fs⟩) :
    Fits (s.setMount row ⟨some fs, name⟩) (Function.update locals t ⟨true,b,.none⟩) := by
  obtain ⟨stage,owner,consistent,leavers,holds⟩ := fits.model
  obtain ⟨first,second⟩ := fits.sameLocks (s.setMount row ⟨some fs, name⟩)
    (l := ⟨true,b,.none⟩) (t := t) (by rw [at_]) (by rw [at_]) rfl
  have mine := holds t
  simp only [at_,Holds] at mine
  obtain ⟨-,pending,free⟩ := mine
  have vacant : ∀ fs', stage fs' ≠ .mounted row ∧ stage fs' ≠ .leaving row := by
    intro fs'
    constructor <;> intro h
    · simp [(consistent.rows row fs').mpr (.inl h)] at free
    · simp [(consistent.rows row fs').mpr (.inr h)] at free
  refine ⟨first,second,Function.update stage fs (.mounted row),owner,?_,?_,?_⟩
  · constructor
    · intro fs' known
      by_cases same : fs' = fs
      · subst same; exact consistent.known fs' (by simp [pending])
      · exact consistent.known fs' (by simpa [same] using known)
    · intro row' fs'
      by_cases same : fs' = fs
      · subst same
        by_cases here : row' = row
        · simp [here]
        · simpa [here,Ne.symm here,pending] using consistent.rows row' fs'
      · by_cases here : row' = row
        · subst here
          simpa [same,Ne.symm same] using ⟨(vacant fs').1,(vacant fs').2⟩
        · simpa [here,same] using consistent.rows row' fs'
    · intro fs' member
      have old := consistent.unmounted fs' member
      have apart : fs' ≠ fs := by rintro rfl; simp [pending] at old
      simpa [apart] using old
    · intro file fs' opened
      obtain ⟨row',old⟩ := consistent.files file fs' opened
      have apart : fs' ≠ fs := by rintro rfl; simp [pending] at old
      exact ⟨row',by simpa [apart] using old⟩
    · exact consistent.owned
    · exact consistent.handles
    · exact consistent.once
  · refine leavers_update (fun fs' row' leaving => ?_) (by simp [at_,Fact.leaves])
    by_cases same : fs' = fs
    · simp [same] at leaving
    · exact leavers fs' row' (by simpa [same] using leaving)
  · refine holds_update trivial fun u apart => (holds u).frame ?_ ?_ ?_ ?_ ?_ ?_ ?_
    · intro fs' old
      have : fs' ≠ fs := by rintro rfl; rw [pending] at old; exact apart (Stage.pending.inj old).symm
      simpa [this] using old
    · intro fs' row' _ old
      have : fs' ≠ fs := by rintro rfl; simp [pending] at old
      simpa [this] using old
    · intro _ fs' row' old
      have : fs' ≠ fs := by rintro rfl; simp [pending] at old
      simpa [this] using old
    · intro held
      have := fits.other (by rw [at_]) apart
      simp [this] at held
    · exact fun _ _ _ h => h
    · exact fun _ _ h => ⟨h,rfl⟩
    · exact fun _ h => h

/-- The driver's unmount function is called with both tables locked, no file open on the
filesystem and nobody between a lookup and its driver call. -/
theorem Fits.unmount (fits : Fits s locals) (at_ : locals t = ⟨true,true,.unmounting row fs⟩)
    (spared : ∀ p ∈ s.looking, p.2 ≠ fs) :
    Fits { s with unmounted := fs :: s.unmounted }
      (Function.update locals t ⟨true,true,.leaving row fs⟩) := by
  obtain ⟨stage,owner,consistent,leavers,holds⟩ := fits.model
  obtain ⟨first,second⟩ := fits.sameLocks ({ s with unmounted := fs :: s.unmounted })
    (l := ⟨true,true,.leaving row fs⟩) (t := t) (by rw [at_]) (by rw [at_]) rfl
  have mine := holds t
  simp only [at_,Holds] at mine
  obtain ⟨-,mounted,unopened⟩ := mine
  refine ⟨first,second,Function.update stage fs (.leaving row),owner,?_,?_,?_⟩
  · constructor
    · intro fs' known
      by_cases same : fs' = fs
      · subst same; exact consistent.known fs' (by simp [mounted])
      · exact consistent.known fs' (by simpa [same] using known)
    · intro row' fs'
      change mountAt s row' = some fs' ↔ _
      by_cases same : fs' = fs
      · subst same
        simpa [mounted] using consistent.rows row' fs'
      · simpa [same] using consistent.rows row' fs'
    · intro fs' member
      by_cases same : fs' = fs
      · exact .inr ⟨row,by simp [same]⟩
      · simpa [same] using consistent.unmounted fs' (by simpa [same] using member)
    · intro file fs' opened
      have apart : fs' ≠ fs := by rintro rfl; exact unopened file opened
      simpa [apart] using consistent.files file fs' opened
    · exact consistent.owned
    · exact consistent.handles
    · exact consistent.once
  · intro fs' row' leaving
    by_cases same : fs' = fs
    · subst same
      exact ⟨t,by simpa using leaving⟩
    · obtain ⟨u,fact⟩ := leavers fs' row' (by simpa [same] using leaving)
      have apart : u ≠ t := by rintro rfl; simp [at_] at fact
      exact ⟨u,by simpa [apart] using fact⟩
  · refine holds_update ⟨⟨rfl,rfl⟩,by simp⟩ fun u apart => (holds u).frame ?_ ?_ ?_ ?_ ?_ ?_ ?_
    · intro fs' old
      have : fs' ≠ fs := by rintro rfl; simp [mounted] at old
      simpa [this] using old
    · intro fs' row' protected_ old
      have : fs' ≠ fs := by
        rcases protected_ with held | listed
        · simp [fits.other (by rw [at_]) apart] at held
        · exact spared _ listed
      simpa [this] using old
    · intro held
      simp [fits.other (by rw [at_]) apart] at held
    · exact fun _ _ h => h
    · exact fun _ _ _ h => h
    · exact fun _ _ h => ⟨h,rfl⟩
    · exact fun _ h => h

theorem Fits.clear (fits : Fits s locals) (at_ : locals t = ⟨true,true,.leaving row fs⟩) :
    Fits (s.setMount row { s.filesystems row with filesystem := none })
      (Function.update locals t ⟨true,true,.none⟩) := by
  obtain ⟨stage,owner,consistent,leavers,holds⟩ := fits.model
  obtain ⟨first,second⟩ := fits.sameLocks
    (s.setMount row { s.filesystems row with filesystem := none })
    (l := ⟨true,true,.none⟩) (t := t) (by rw [at_]) (by rw [at_]) rfl
  have mine := holds t
  simp only [at_,Holds] at mine
  obtain ⟨-,leaving⟩ := mine
  have here : mountAt s row = some fs := (consistent.rows row fs).mpr (.inr leaving)
  refine ⟨first,second,Function.update stage fs .gone,owner,?_,?_,?_⟩
  · constructor
    · intro fs' known
      by_cases same : fs' = fs
      · subst same; exact consistent.known fs' (by simp [leaving])
      · exact consistent.known fs' (by simpa [same] using known)
    · intro row' fs'
      have old := consistent.rows row' fs'
      by_cases same : fs' = fs
      · subst same
        by_cases where_ : row' = row
        · simp [where_]
        · simpa [where_,leaving,Ne.symm where_] using old
      · by_cases where_ : row' = row
        · subst where_
          simpa [same,here,Ne.symm same] using old
        · simpa [same,where_] using old
    · intro fs' member
      by_cases same : fs' = fs
      · exact .inl (by simp [same])
      · simpa [same] using consistent.unmounted fs' member
    · intro file fs' opened
      obtain ⟨row',old⟩ := consistent.files file fs' opened
      have apart : fs' ≠ fs := by rintro rfl; simp [leaving] at old
      exact ⟨row',by simpa [apart] using old⟩
    · exact consistent.owned
    · exact consistent.handles
    · exact consistent.once
  · intro fs' row' old
    have apart : fs' ≠ fs := by rintro rfl; simp at old
    obtain ⟨u,fact⟩ := leavers fs' row' (by simpa [apart] using old)
    have other : u ≠ t := by rintro rfl; rw [at_] at fact; cases fact; exact apart rfl
    exact ⟨u,by simpa [other] using fact⟩
  · refine holds_update trivial fun u apart => (holds u).frame ?_ ?_ ?_ ?_ ?_ ?_ ?_
    · intro fs' old
      have : fs' ≠ fs := by rintro rfl; simp [leaving] at old
      simpa [this] using old
    · intro fs' row' _ old
      have : fs' ≠ fs := by rintro rfl; simp [leaving] at old
      simpa [this] using old
    · intro held
      simp [fits.other (by rw [at_]) apart] at held
    · intro held
      simp [fits.other (by rw [at_]) apart] at held
    · exact fun _ _ _ h => h
    · exact fun _ _ h => ⟨h,rfl⟩
    · exact fun _ h => h

theorem Fits.own (fits : Fits s locals) (file : FileRow) (owner' : Option (Nat × Use))
    (table : l.table = (locals t).table) (held : l.files = (locals t).files)
    (stays : (locals t).fact.leaves = false) (sem : s'.sem = s.sem)
    (mounts : ∀ row, mountAt s' row = mountAt s row) (unmounted : s'.unmounted = s.unmounted)
    (looking : s'.looking = s.looking) (known : s'.known = s.known)
    (others : ∀ file', file' ≠ file → fileAt s' file' = fileAt s file')
    (changed : ∀ stage owner, Consistent s stage owner → Holds s stage owner t (locals t) →
      ((locals t).table = true → ∀ row fs, mountAt s row = some fs → stage fs = .mounted row) →
      (∀ u use, owner file = some (u, use) → u = t) ∧
      (fileAt s' file ≠ fileAt s file → fileAt s' file ≠ none → (locals t).table = true) ∧
      (∀ fs, fileAt s' file = some fs → ∃ row, stage fs = .mounted row) ∧
      (owner' ≠ none → fileAt s' file ≠ none) ∧
      (∀ u n, (u, n) ∈ s'.handles ↔
        ∃ file', n = ((file' : FileRow) : Nat) ∧ Function.update owner file owner' file' = some (u, .handle)) ∧
      s'.handles.Nodup ∧ Holds s' stage (Function.update owner file owner') t l) :
    Fits s' (Function.update locals t l) := by
  obtain ⟨stage,owner,consistent,leavers,holds⟩ := fits.model
  obtain ⟨first,second⟩ := fits.sameLocks s' table held sem
  obtain ⟨alone,locked,mounted,occupied,handles,once,mine⟩ := changed stage owner consistent (holds t)
    fun mine row fs at_ => fits.mounted mine stays consistent leavers holds at_
  refine ⟨first,second,stage,Function.update owner file owner',?_,leavers_update leavers stays,?_⟩
  · constructor
    · simpa [known] using consistent.known
    · simpa [mounts] using consistent.rows
    · simpa [unmounted] using consistent.unmounted
    · intro file' fs opened
      by_cases same : file' = file
      · subst same; exact mounted fs opened
      · exact consistent.files file' fs (by rwa [others file' same] at opened)
    · intro file' owned
      by_cases same : file' = file
      · subst same; exact occupied (by simpa using owned)
      · rw [others file' same]
        exact consistent.owned file' (by simpa [same] using owned)
    · exact handles
    · exact once
  · refine holds_update mine fun u apart => (holds u).frame (fun _ h => h) (fun _ _ _ h => h)
      (fun _ _ _ h => h) ?_ ?_ ?_ ?_
    · intro _ row free; rwa [mounts]
    · intro theirs file' fs other
      by_cases same : file' = file
      · subst same
        by_cases changes : fileAt s' file' = fileAt s file'
        · rwa [changes]
        · intro now
          have := fits.other (locked changes (by simp [now])) apart
          simp [this] at theirs
      · rwa [others file' same]
    · intro file' use owned
      have different : file' ≠ file := by rintro rfl; exact apart (alone u use owned)
      exact ⟨by simpa [different] using owned,others file' different⟩
    · intro fs listed; rwa [looking]

theorem Fits.reserve (fits : Fits s locals) (at_ : locals t = ⟨true,true,.none⟩)
    (free : fileAt s file = none) (found : mountAt s row = some fs) :
    Fits (s.setFile file { s.files file with filesystem := some fs })
      (Function.update locals t ⟨true,true,.file .opening file fs⟩) := by
  refine fits.own file (some (t, .opening)) (by rw [at_]) (by rw [at_])
    (by simp [at_,Fact.leaves]) rfl (fun _ => rfl) rfl rfl rfl (by intro file' apart; simp [apart]) ?_
  intro stage owner consistent _ mounted
  have vacant : owner file = none := by
    by_contra owned
    exact consistent.owned file owned free
  refine ⟨by simp [vacant],fun _ _ => by rw [at_],?_,by simp,?_,consistent.once,by simp [Holds]⟩
  · intro fs' same
    have : fs = fs' := by simpa using same
    exact ⟨row,this ▸ mounted (by rw [at_]) row fs found⟩
  · intro u n
    refine (consistent.handles u n).trans (exists_congr fun file' => ?_)
    by_cases same : file' = file <;> simp [same,vacant]

theorem Fits.free (fits : Fits s locals) (at_ : locals t = ⟨b,b',.file use file fs⟩)
    (ends : use ≠ .handle) : Fits (s.setFile file { s.files file with filesystem := none })
      (Function.update locals t ⟨b,b',.none⟩) := by
  refine fits.own file none (by rw [at_]) (by rw [at_])
    (by simp [at_,Fact.leaves]) rfl (fun _ => rfl) rfl rfl rfl (by intro file' apart; simp [apart]) ?_
  intro stage owner consistent mine _
  simp only [at_,Holds] at mine
  refine ⟨?_,by simp,by simp,by simp,?_,consistent.once,trivial⟩
  · intro u use' owned
    rw [mine.1] at owned
    cases owned; rfl
  · intro u n
    refine (consistent.handles u n).trans (exists_congr fun file' => ?_)
    by_cases same : file' = file <;> simp [same,mine.1,ends]

theorem Fits.opened (fits : Fits s locals) (at_ : locals t = ⟨b,b',.file .opening file fs⟩) :
    Fits { s.setFile file { s.files file with fileid := fileid, seekPosition := 0 } with
        handles := (t, (file : Nat)) :: s.handles }
      (Function.update locals t ⟨b,b',.none⟩) := by
  have same : ∀ file', fileAt { s.setFile file { s.files file with
      fileid := fileid, seekPosition := 0 } with handles := (t, (file : Nat)) :: s.handles } file' =
      fileAt s file' := by
    intro file'
    by_cases same : file' = file <;> simp [fileAt,Vfs.setFile,same]
  refine fits.own file (some (t, .handle)) (by rw [at_]) (by rw [at_])
    (by simp [at_,Fact.leaves]) rfl (fun _ => rfl) rfl rfl rfl (fun file' _ => same file') ?_
  intro stage owner consistent mine _
  simp only [at_,Holds] at mine
  have fresh : (t, ((file : Nat) : Int)) ∉ s.handles := by
    intro member
    obtain ⟨file',number,owned⟩ := (consistent.handles t _).mp member
    have : file' = file := Fin.ext (by omega)
    simp [this,mine.1] at owned
  refine ⟨?_,fun changes => absurd (same file) changes,?_,fun _ => by simp [same,mine.2],?_,?_,trivial⟩
  · intro u use' owned
    rw [mine.1] at owned
    cases owned; rfl
  · intro fs' opened
    exact consistent.files file fs' (by rwa [same] at opened)
  · intro u n
    constructor
    · intro member
      rcases List.mem_cons.mp member with new | old
      · cases new; exact ⟨file,rfl,by simp⟩
      · obtain ⟨file',number,owned⟩ := (consistent.handles u n).mp old
        have apart : file' ≠ file := by rintro rfl; simp [mine.1] at owned
        exact ⟨file',number,by simpa [apart] using owned⟩
    · rintro ⟨file',rfl,owned⟩
      by_cases new : file' = file
      · subst new
        simp only [Function.update_self,Option.some.injEq,Prod.mk.injEq,and_true] at owned
        simp [owned]
      · exact List.mem_cons_of_mem _ ((consistent.handles u _).mpr
          ⟨file',rfl,by simpa [new] using owned⟩)
  · exact List.nodup_cons.mpr ⟨fresh,consistent.once⟩

theorem Fits.closing (fits : Fits s locals) (at_ : (locals t).unlocked)
    (stays : (locals t).fact.leaves = false) (member : (t, n) ∈ s.handles) :
    ∃ file fs, n = ((file : FileRow) : Nat) ∧ Fits { s with handles := s.handles.erase (t, n) }
      (Function.update locals t ⟨false,false,.file .closing file fs⟩) := by
  obtain ⟨stage₀,owner₀,consistent₀,-⟩ := fits.model
  obtain ⟨file,rfl,owned₀⟩ := (consistent₀.handles t n).mp member
  obtain ⟨fs,occupied⟩ := Option.ne_none_iff_exists'.mp (consistent₀.owned file (by simp [owned₀]))
  refine ⟨file,fs,rfl,?_⟩
  refine fits.own file (some (t, .closing)) at_.1.symm at_.2.symm stays rfl
    (fun _ => rfl) rfl rfl rfl (fun _ _ => rfl) ?_
  intro stage owner consistent _ _
  obtain ⟨file',number,owned⟩ := (consistent.handles t _).mp member
  obtain rfl : file = file' := Fin.ext (by omega)
  have taken : fileAt s file ≠ none := consistent.owned file (by simp [owned])
  refine ⟨?_,fun changes => absurd rfl changes,consistent.files file,fun _ => taken,?_,
    consistent.once.erase _,by simp,occupied⟩
  · intro u use' other
    rw [owned] at other
    cases other; rfl
  · intro u n
    rw [consistent.once.mem_erase_iff,consistent.handles]
    constructor
    · rintro ⟨apart,file',rfl,other⟩
      have different : file' ≠ file := by
        rintro rfl
        rw [owned] at other
        cases other
        exact apart rfl
      exact ⟨file',rfl,by simpa [different] using other⟩
    · rintro ⟨file',rfl,other⟩
      have different : file' ≠ file := by rintro rfl; simp at other
      refine ⟨?_,file',rfl,by simpa [different] using other⟩
      intro same
      have := (Prod.mk.inj same).2
      exact different (Fin.ext (by omega))

theorem Fits.handle (fits : Fits s locals) (at_ : (locals t).unlocked)
    (stays : (locals t).fact.leaves = false) (member : (t, n) ∈ s.handles) :
    ∃ file fs, n = ((file : FileRow) : Nat) ∧
      Fits s (Function.update locals t ⟨false,false,.file .handle file fs⟩) := by
  obtain ⟨stage,owner,consistent,-⟩ := fits.model
  obtain ⟨file,rfl,owned⟩ := (consistent.handles t n).mp member
  obtain ⟨fs,occupied⟩ := Option.ne_none_iff_exists'.mp (consistent.owned file (by simp [owned]))
  refine ⟨file,fs,rfl,fits.learn ⟨fun _ => rfl,fun _ => rfl,rfl,rfl,rfl,rfl⟩ rfl at_.1.symm at_.2.symm
    stays ?_⟩
  intro stage' owner' consistent' _ _
  obtain ⟨file',number,owned'⟩ := (consistent'.handles t _).mp member
  obtain rfl : file = file' := Fin.ext (by omega)
  exact ⟨owned',occupied⟩

theorem Fits.looked (fits : Fits s locals) (at_ : locals t = ⟨true,true,.none⟩)
    (found : mountAt s row = some fs) :
    Fits { s with looking := (t, fs) :: s.looking }
      (Function.update locals t ⟨true,true,.looking fs⟩) := by
  obtain ⟨stage,owner,consistent,leavers,holds⟩ := fits.model
  have stays : (locals t).fact.leaves = false := by simp [at_,Fact.leaves]
  have mounted := fits.mounted (by rw [at_]) stays consistent leavers holds found
  obtain ⟨first,second⟩ := fits.sameLocks ({ s with looking := (t, fs) :: s.looking })
    (l := ⟨true,true,.looking fs⟩) (t := t) (by rw [at_]) (by rw [at_]) rfl
  refine ⟨first,second,stage,owner,?_,leavers_update leavers stays,?_⟩
  · exact ⟨consistent.known,consistent.rows,consistent.unmounted,consistent.files,consistent.owned,
      consistent.handles,consistent.once⟩
  · refine holds_update ⟨List.mem_cons_self,row,mounted⟩ fun u _ => (holds u).frame (fun _ h => h)
      (fun _ _ _ h => h) (fun _ _ _ h => h) (fun _ _ h => h) (fun _ _ _ h => h) (fun _ _ h => ⟨h,rfl⟩) ?_
    exact fun _ listed => List.mem_cons_of_mem _ listed

theorem Fits.forget (fits : Fits s locals) (at_ : locals t = ⟨false,false,.looking fs⟩) :
    Fits { s with looking := s.looking.erase (t, fs) }
      (Function.update locals t ⟨false,false,.none⟩) := by
  obtain ⟨stage,owner,consistent,leavers,holds⟩ := fits.model
  have stays : (locals t).fact.leaves = false := by simp [at_,Fact.leaves]
  obtain ⟨first,second⟩ := fits.sameLocks ({ s with looking := s.looking.erase (t, fs) })
    (l := ⟨false,false,.none⟩) (t := t) (by rw [at_]) (by rw [at_]) rfl
  refine ⟨first,second,stage,owner,?_,leavers_update leavers stays,?_⟩
  · exact ⟨consistent.known,consistent.rows,consistent.unmounted,consistent.files,consistent.owned,
      consistent.handles,consistent.once⟩
  · refine holds_update trivial fun u apart => (holds u).frame (fun _ h => h) (fun _ _ _ h => h)
      (fun _ _ _ h => h) (fun _ _ h => h) (fun _ _ _ h => h) (fun _ _ h => ⟨h,rfl⟩) ?_
    intro fs' listed
    exact (List.mem_erase_of_ne (by simp [apart])).mpr listed

theorem Fits.propose (fits : Fits s locals) (at_ : (locals t).unlocked)
    (stays : (locals t).fact.leaves = false) (fresh : fs ∉ s.known) :
    Fits { s with known := fs :: s.known } (Function.update locals t ⟨false,false,.pending fs⟩) := by
  obtain ⟨stage,owner,consistent,leavers,holds⟩ := fits.model
  obtain ⟨first,second⟩ := fits.sameLocks ({ s with known := fs :: s.known })
    (l := ⟨false,false,.pending fs⟩) (t := t) at_.1.symm at_.2.symm rfl
  have unknown : stage fs = .fresh := by
    by_contra h
    exact fresh (consistent.known fs h)
  refine ⟨first,second,Function.update stage fs (.pending t),owner,?_,?_,?_⟩
  · constructor
    · intro fs' known
      by_cases same : fs' = fs
      · simp [same]
      · exact List.mem_cons_of_mem _ (consistent.known fs' (by simpa [same] using known))
    · intro row fs'
      change mountAt s row = some fs' ↔ _
      have old := consistent.rows row fs'
      by_cases same : fs' = fs
      · subst same; simpa [unknown] using old
      · simpa [same] using old
    · intro fs' member
      have old := consistent.unmounted fs' member
      have apart : fs' ≠ fs := by rintro rfl; simp [unknown] at old
      simpa [apart] using old
    · intro file fs' opened
      obtain ⟨row,old⟩ := consistent.files file fs' opened
      have apart : fs' ≠ fs := by rintro rfl; simp [unknown] at old
      exact ⟨row,by simpa [apart] using old⟩
    · exact consistent.owned
    · exact consistent.handles
    · exact consistent.once
  · refine leavers_update (fun fs' row leaving => ?_) stays
    have apart : fs' ≠ fs := by rintro rfl; simp at leaving
    exact leavers fs' row (by simpa [apart] using leaving)
  · have apart : ∀ fs', stage fs' ≠ .fresh → fs' ≠ fs := by rintro fs' h rfl; exact h unknown
    refine holds_update (by simp [Holds]) fun u _ => (holds u).frame ?_ ?_ ?_ (fun _ _ h => h)
      (fun _ _ _ h => h) (fun _ _ h => ⟨h,rfl⟩) (fun _ h => h)
    · intro fs' old; simpa [apart fs' (by simp [old])] using old
    · intro fs' row _ old; simpa [apart fs' (by simp [old])] using old
    · intro _ fs' row old; simpa [apart fs' (by simp [old])] using old

end Steps

/-! ### Every path of every operation -/

/-- What is shown of a call holds if its filesystem is not unmounted, forced unmounts apart. -/
class Covers (allowed : DriverCall → Vfs → Prop) : Prop where
  mounted : ∀ {e s}, e.fn ≠ .forcedUnmount → e.fs ∉ s.unmounted → allowed e s

instance : Covers legal := ⟨fun _ mounted _ _ => mounted⟩

abbrev SafeFor (allowed : DriverCall → Vfs → Prop) : Nat → Local → VfsProg → Prop :=
  Safe invoke Fits allowed spares Local.unlocked

section Paths
variable {allowed : DriverCall → Vfs → Prop} {me : Nat} {l : Local} {next : VfsProg}

theorem safe_quiet {effect : Vfs → Vfs} {next : Vfs → VfsProg} (stays : l.fact.leaves = false)
    (quiet : ∀ s, Quiet s (effect s)) (sem : ∀ s, (effect s).sem .vfsTable = s.sem .vfsTable ∧
      (effect s).sem .openfileTable = s.sem .openfileTable)
    (later : ∀ s, SafeFor allowed me l (next s)) : SafeFor allowed me l (.act ready effect next) := by
  rintro s locals fits rfl -
  refine ⟨locals me,?_,later s⟩
  rw [Function.update_eq_self]
  exact fits.quiet (quiet s) (sem s)

theorem safe_startOp (bare : l.unlocked) (stays : l.fact.leaves = false) (later : SafeFor allowed me l next) :
    SafeFor allowed me l (vfsStartOp me next) := by
  refine safe_quiet stays (fun s => ?_) (fun s => ?_) fun s => ?_
  · split <;> exact ⟨fun _ => rfl,fun _ => rfl,rfl,rfl,rfl,rfl⟩
  · split <;> exact ⟨rfl,rfl⟩
  · split
    · exact later
    · exact bare

theorem safe_finish (bare : l.unlocked) (stays : l.fact.leaves = false) :
    SafeFor allowed me l (finish me code) := by
  refine safe_quiet stays (fun s => ?_) (fun s => ?_) fun s => ?_
  · unfold Vfs.endOp
    dsimp only
    split <;> exact ⟨fun _ => rfl,fun _ => rfl,rfl,rfl,rfl,rfl⟩
  · unfold Vfs.endOp
    dsimp only
    split <;> simp [Vfs.up]
  · split
    · trivial
    · exact bare

theorem safe_P (lock : x = .vfsTable ∨ x = .openfileTable)
    (later : SafeFor allowed me (l.hold x true) next) : SafeFor allowed me l (semaphoreP x next) := by
  rintro s locals fits rfl free
  exact ⟨_,fits.acquire lock (by simpa using free),later⟩

theorem safe_V (lock : x = .vfsTable ∨ x = .openfileTable) (held : l.has x = true)
    (bare : l.fact.free = true) (later : SafeFor allowed me (l.hold x false) next) :
    SafeFor allowed me l (semaphoreV x next) := by
  rintro s locals fits rfl -
  exact ⟨_,fits.release lock held bare,later⟩

theorem safe_lockTable (later : SafeFor allowed me ⟨true,b,fact⟩ next) :
    SafeFor allowed me ⟨a,b,fact⟩ (semaphoreP .vfsTable next) := safe_P (.inl rfl) later

theorem safe_lockFiles (later : SafeFor allowed me ⟨a,true,fact⟩ next) :
    SafeFor allowed me ⟨a,b,fact⟩ (semaphoreP .openfileTable next) := safe_P (.inr rfl) later

theorem safe_unlockTable (bare : fact.free = true) (later : SafeFor allowed me ⟨false,b,fact⟩ next) :
    SafeFor allowed me ⟨true,b,fact⟩ (semaphoreV .vfsTable next) := safe_V (.inl rfl) rfl bare later

theorem safe_unlockFiles (bare : fact.free = true) (later : SafeFor allowed me ⟨a,false,fact⟩ next) :
    SafeFor allowed me ⟨a,true,fact⟩ (semaphoreV .openfileTable next) := safe_V (.inr rfl) rfl bare later

theorem leaves_of_free {fact : Fact} (bare : fact.free = true) : fact.leaves = false := by
  cases fact <;> simp_all [Fact.free,Fact.leaves]

theorem safe_done (bare : fact.free = true) : SafeFor allowed me ⟨false,false,fact⟩ (finish me code) :=
  safe_finish ⟨rfl,rfl⟩ (leaves_of_free bare)

theorem safe_leaveTable (bare : fact.free = true) :
    SafeFor allowed me ⟨true,false,fact⟩ (semaphoreV .vfsTable (finish me code)) :=
  safe_unlockTable bare (safe_done bare)

theorem safe_leaveFiles (bare : fact.free = true) :
    SafeFor allowed me ⟨false,true,fact⟩ (semaphoreV .openfileTable (finish me code)) :=
  safe_unlockFiles bare (safe_done bare)

theorem safe_finishBoth (bare : fact.free = true) : SafeFor allowed me ⟨true,true,fact⟩ (finishBoth me code) :=
  safe_unlockFiles bare (safe_leaveTable bare)

/-- The thread reads the tables and goes on with what it has learned. -/
theorem safe_look {next : Vfs → VfsProg} (stays : l.fact.leaves = false)
    (later : ∀ s, (∃ stage owner, Holds s stage owner me l) → ∃ fact,
      (∀ stage owner, Consistent s stage owner → Holds s stage owner me l →
        (l.table = true → ∀ row fs, mountAt s row = some fs → stage fs = .mounted row) →
        Holds s stage owner me { l with fact := fact }) ∧ SafeFor allowed me { l with fact := fact } (next s)) :
    SafeFor allowed me l (look next) := by
  rintro s locals fits rfl -
  obtain ⟨stage,owner,-,-,holds⟩ := fits.model
  obtain ⟨fact,learned,safe⟩ := later s ⟨stage,owner,holds me⟩
  exact ⟨{ locals me with fact := fact },fits.learn ⟨fun _ => rfl,fun _ => rfl,rfl,rfl,rfl,rfl⟩ rfl rfl rfl stays learned,safe⟩

theorem safe_mount (fs : FsPtr) (name : Name) :
    SafeFor allowed me ⟨false,false,.pending fs⟩ (vfsMount me fs name) := by
  unfold vfsMount
  split
  · trivial
  refine safe_startOp ⟨rfl,rfl⟩ rfl (safe_lockTable (safe_look rfl fun s known => ?_))
  split
  · exact ⟨.none,fun _ _ _ _ _ => trivial,safe_leaveTable rfl⟩
  next row found =>
  split
  · exact ⟨.none,fun _ _ _ _ _ => trivial,safe_leaveTable rfl⟩
  refine ⟨.place row fs,fun stage owner _ holds _ => ⟨rfl,holds,?_⟩,?_⟩
  · simpa [mountAt] using List.find?_some found
  · rintro s locals fits at_ -
    exact ⟨_,fits.mount at_,safe_leaveTable rfl⟩

theorem safe_position {entry : Vfs → OpenfileEntry} (stays : l.fact.leaves = false)
    (same : ∀ s, (entry s).filesystem = (s.files row).filesystem) (later : SafeFor allowed me l next) :
    SafeFor allowed me l (store (fun s => s.setFile row (entry s)) next) := by
  refine safe_quiet stays (fun s => ⟨fun _ => rfl,fun file => ?_,rfl,rfl,rfl,rfl⟩)
    (fun _ => ⟨rfl,rfl⟩) fun _ => later
  rw [fileAt_setFile]
  split
  · next here => rw [here,same]; rfl
  · rfl

theorem safe_seek (file : FileRow) (fs : FsPtr) :
    SafeFor allowed me ⟨false,false,.file .handle file fs⟩ (vfsSeek me ((file : Nat) : Int) seekPosition) := by
  refine safe_startOp ⟨rfl,rfl⟩ rfl ?_
  split
  · trivial
  refine safe_lockFiles (safe_look rfl fun s known => ?_)
  refine ⟨.file .handle file fs,fun _ _ _ holds _ => holds,?_⟩
  split
  · trivial
  · exact safe_position rfl (fun _ => rfl) (safe_leaveFiles rfl)

/-- The facts that keep a filesystem mounted. -/
def Fact.mounts : Fact → Option FsPtr
  | .found fs | .candidate _ fs | .unmounting _ fs | .file _ _ fs | .looking fs => some fs
  | _ => Option.none

theorem Holds.mounted (holds : Holds s stage owner t l) (consistent : Consistent s stage owner)
    (keeps : l.fact.mounts = some fs) : fs ∉ s.unmounted := by
  have mounted : ∃ row, stage fs = .mounted row := by
    unfold Holds at holds
    split at holds <;> simp_all [Fact.mounts]
    exact consistent.files _ _ (And.right ‹_›)
  obtain ⟨row,at_⟩ := mounted
  intro member
  simpa [at_] using consistent.unmounted fs member

/-- A driver call that VFS keeps no record of. -/
def plain : DriverFn → Bool
  | .unmount | .forcedUnmount | .filecount | .file => false
  | _ => true

variable [Covers allowed]

theorem safe_driver {next : Int → VfsProg} (ordinary : plain fn = true)
    (keeps : l.fact.mounts = some fs) (later : ∀ r, SafeFor allowed me l (next r)) :
    SafeFor allowed me l (driver fn fs me next) := by
  rintro s locals fits rfl
  obtain ⟨stage,owner,consistent,leavers,holds⟩ := fits.model
  refine ⟨Covers.mounted (by rintro rfl; contradiction) ((holds me).mounted consistent keeps),fun _ => ⟨locals me,?_,later⟩⟩
  rw [Function.update_eq_self]
  cases fn <;> first
    | exact fits
    | contradiction

theorem safe_unmount : SafeFor allowed me ⟨false,false,.none⟩ (vfsUnmount me name) := by
  refine safe_startOp ⟨rfl,rfl⟩ rfl (safe_lockTable (safe_look rfl fun s known => ?_))
  split
  · exact ⟨.none,fun _ _ _ _ _ => trivial,safe_leaveTable rfl⟩
  next row fs found =>
  have at_ : mountAt s row = some fs := by
    obtain ⟨row',-,rest⟩ := Option.bind_eq_some_iff.mp found
    obtain ⟨fs',occupied,same⟩ := Option.map_eq_some_iff.mp rest
    cases same
    exact occupied
  refine ⟨.candidate row fs,fun stage owner _ _ mounted => ⟨rfl,mounted rfl row fs at_⟩,?_⟩
  refine safe_lockFiles (safe_look rfl fun s known => ?_)
  split
  · exact ⟨.none,fun _ _ _ _ _ => trivial,safe_finishBoth rfl⟩
  next closed =>
  refine ⟨.unmounting row fs,fun stage owner _ holds _ => ⟨⟨rfl,rfl⟩,holds.2,?_⟩,?_⟩
  · simpa [hasOpenFiles,fileAt] using closed
  rintro s locals fits at_
  obtain ⟨stage,owner,consistent,-,holds⟩ := fits.model
  refine ⟨Covers.mounted (by simp) ((holds me).mounted consistent (by rw [at_]; rfl)),fun spared => ⟨_,fits.unmount at_ (spared rfl),fun _ => ?_⟩⟩
  rintro s locals fits at_ -
  exact ⟨_,fits.clear at_,safe_finishBoth rfl⟩

theorem getFilesystem_mounted (found : vfsGetFilesystem s name = some fs) : ∃ row, mountAt s row = some fs := by
  obtain ⟨row,-,occupied⟩ := Option.bind_eq_some_iff.mp found
  exact ⟨row,occupied⟩

theorem reservation_ok (chosen : reservation s volume = .ok (file, fs)) :
    fileAt s file = none ∧ vfsGetFilesystem s volume = some fs := by
  have picked : freeFileRow s = some file ∧ vfsGetFilesystem s volume = some fs := by
    unfold reservation at chosen
    revert chosen
    generalize freeFileRow s = free
    generalize vfsGetFilesystem s volume = found
    rcases free with _ | _ <;> rcases found with _ | _ <;> simp
  unfold freeFileRow at picked
  exact ⟨by simpa [fileAt] using List.find?_some picked.1,picked.2⟩

theorem safe_open : SafeFor allowed me ⟨false,false,.none⟩ (vfsOpen me pathname) := by
  refine safe_startOp ⟨rfl,rfl⟩ rfl ?_
  split
  · exact safe_done rfl
  next volume _ _ =>
  refine safe_lockTable (safe_lockFiles ?_)
  rintro s locals fits at_ -
  dsimp only
  generalize chosen : reservation s volume = choice
  cases choice with
  | error code =>
    exact ⟨⟨true,true,.none⟩,by rwa [← at_,Function.update_eq_self],safe_finishBoth rfl⟩
  | ok pair =>
    obtain ⟨file,fs⟩ := pair
    obtain ⟨free,found⟩ := reservation_ok chosen
    obtain ⟨row,mounted⟩ := getFilesystem_mounted found
    refine ⟨_,fits.reserve at_ free mounted,safe_unlockFiles rfl (safe_unlockTable rfl ?_)⟩
    refine safe_driver rfl rfl fun fileid => ?_
    split
    · refine safe_lockFiles ?_
      rintro s locals fits at_ -
      exact ⟨_,fits.free at_ (by decide),safe_leaveFiles rfl⟩
    · rintro s locals fits at_ -
      exact ⟨_,fits.opened at_,safe_done rfl⟩

/-- The row of a handle in use is the one the thread relies on. -/
theorem verifyOpen_own (holds : Holds s stage owner me ⟨a,b,.file use file fs⟩)
    (found : vfsVerifyOpen s ((file : Nat) : Int) = some (row, fs')) : row = file ∧ fs' = fs := by
  unfold vfsVerifyOpen at found
  split at found
  · obtain ⟨fs'',occupied,same⟩ := Option.map_eq_some_iff.mp found
    cases same
    have here : fileAt s file = some fs := holds.2
    have row : (⟨Int.toNat ((file : Nat) : Int),by omega⟩ : FileRow) = file := by simp
    refine ⟨row,?_⟩
    rw [row] at occupied
    exact Option.some.inj (occupied.symm.trans here)
  · contradiction

theorem safe_close (file : FileRow) (fs : FsPtr) :
    SafeFor allowed me ⟨false,false,.file .closing file fs⟩ (vfsClose me ((file : Nat) : Int)) := by
  refine safe_startOp ⟨rfl,rfl⟩ rfl (safe_lockFiles (safe_look rfl fun s known => ?_))
  refine ⟨.file .closing file fs,fun _ _ _ holds _ => holds,?_⟩
  split
  · trivial
  next row fs' found =>
  obtain ⟨stage,owner,holds⟩ := known
  obtain ⟨rfl,rfl⟩ := verifyOpen_own holds found
  refine safe_driver rfl rfl fun code => ?_
  rintro s locals fits at_ -
  exact ⟨_,fits.free at_ (by decide),safe_leaveFiles rfl⟩

theorem safe_transfer (ordinary : plain fn = true) (file : FileRow) (fs : FsPtr) :
    SafeFor allowed me ⟨false,false,.file .handle file fs⟩
      (vfsTransfer fn me ((file : Nat) : Int) buffer size) := by
  refine safe_startOp ⟨rfl,rfl⟩ rfl (safe_look rfl fun s known => ?_)
  refine ⟨.file .handle file fs,fun _ _ _ holds _ => holds,?_⟩
  split
  · trivial
  next row fs' found =>
  obtain ⟨stage,owner,holds⟩ := known
  obtain ⟨rfl,rfl⟩ := verifyOpen_own holds found
  split
  · trivial
  refine safe_driver ordinary rfl fun ret => ?_
  split
  · exact safe_lockFiles (safe_position rfl (fun _ => rfl) (safe_leaveFiles rfl))
  · exact safe_done rfl

theorem safe_onVolume (ordinary : plain fn = true) :
    SafeFor allowed me ⟨false,false,.none⟩ (onVolume fn me volume) := by
  refine safe_lockTable (safe_look rfl fun s _ => ?_)
  split
  · exact ⟨.none,fun _ _ _ _ _ => trivial,safe_leaveTable rfl⟩
  next fs found =>
  obtain ⟨row,at_⟩ := getFilesystem_mounted found
  refine ⟨.found fs,fun stage owner _ _ mounted => ⟨rfl,row,mounted rfl row fs at_⟩,?_⟩
  refine safe_driver ordinary rfl fun ret => ?_
  rintro s locals fits at_ -
  have dropped : Fits s (Function.update locals me ⟨true,false,.none⟩) :=
    fits.learn ⟨fun _ => rfl,fun _ => rfl,rfl,rfl,rfl,rfl⟩ rfl (by rw [at_]) (by rw [at_])
      (by simp [at_,Fact.leaves]) fun _ _ _ _ _ => trivial
  refine ⟨⟨false,false,.none⟩,?_,safe_done rfl⟩
  simpa [Local.hold] using dropped.release (t := me) (.inl rfl) (by simp [Local.has]) (by simp [Fact.free])

theorem safe_onPathname (ordinary : plain fn = true) :
    SafeFor allowed me ⟨false,false,.none⟩ (onPathname fn me pathname) := by
  refine safe_startOp ⟨rfl,rfl⟩ rfl ?_
  split
  · exact safe_done rfl
  · exact safe_onVolume ordinary

theorem safe_create : SafeFor allowed me ⟨false,false,.none⟩ (vfsCreate me pathname size) := by
  unfold vfsCreate
  split
  · trivial
  · exact safe_onPathname rfl

/-- Between the unlocking and the driver call only the record of the lookup is left. -/
theorem safe_afterLookup (lookup : fn = .filecount ∨ fn = .file) :
    SafeFor allowed me ⟨false,false,.none⟩ (afterLookup fn me name whole) := by
  refine safe_startOp ⟨rfl,rfl⟩ rfl (safe_lockTable (safe_lockFiles ?_))
  split
  · exact safe_look rfl fun s _ => ⟨.none,fun _ _ _ _ _ => trivial,safe_finishBoth rfl⟩
  next name =>
  rintro s locals fits at_ -
  cases found : vfsGetFilesystem s name with
  | none =>
    simp only [found]
    exact ⟨⟨true,true,.none⟩,by rwa [← at_,Function.update_eq_self],safe_finishBoth rfl⟩
  | some fs =>
    simp only [found]
    obtain ⟨row,mounted⟩ := getFilesystem_mounted found
    refine ⟨_,fits.looked at_ mounted,safe_unlockFiles rfl (safe_unlockTable rfl ?_)⟩
    rintro s locals fits at_
    obtain ⟨stage,owner,consistent,-,holds⟩ := fits.model
    have ordinary : fn ≠ .forcedUnmount := by rcases lookup with rfl | rfl <;> decide
    refine ⟨Covers.mounted ordinary ((holds me).mounted consistent (by rw [at_]; rfl)),fun _ => ?_⟩
    refine ⟨⟨false,false,.none⟩,?_,fun _ => safe_done rfl⟩
    rcases lookup with rfl | rfl <;> exact fits.forget at_

end Paths

/-! ### Runs -/

/-- What the callers of VFS keep to: a thread uses only handles it opened itself and
closes each once after its last use, and `vfs_mount_fs` mounts a filesystem that it has just
set up. There is no forced unmount. -/
def DisciplinedStart (t : Nat) (s : Vfs) : Op → Prop
  | .mount fs _ => fs ∉ s.known
  | .close file | .seek file _ | .read file _ _ | .write file _ _ => (t, file) ∈ s.handles
  | .deinit => False
  | _ => True

instance (t : Nat) (s : Vfs) (op : Op) : Decidable (DisciplinedStart t s op) := by
  cases op <;> unfold DisciplinedStart <;> infer_instance

def Disciplined : VfsMove → VfsConfig → Prop
  | .start t op, c => DisciplinedStart t c.shared op
  | .step _ _, _ => True

instance (m : VfsMove) (c : VfsConfig) : Decidable (Disciplined m c) := by
  cases m <;> unfold Disciplined <;> infer_instance

/-- `vfs_unmount` does not call the driver's unmount function while a `vfs_filecount` or
`vfs_file` on the same filesystem is between its lookup and its driver call. -/
def SparesLookups : VfsMove → VfsConfig → Prop
  | .start _ _, _ => True
  | .step t _, c => match c.threads t with
    | .call e _ => spares e c.shared
    | _ => True

instance (m : VfsMove) (c : VfsConfig) : Decidable (SparesLookups m c) := by
  unfold SparesLookups
  split
  · infer_instance
  · split
    · unfold spares; infer_instance
    · infer_instance

/-- Where a thread at rest may stand: it holds no lock. -/
def Invariant : VfsConfig → Prop := Modular Fits SafeProg

theorem initial_fits : Fits initial.shared fun _ => ⟨false,false,.none⟩ := by
  refine ⟨?_,?_,?_⟩
  · exact ⟨by decide,by simp,by simp⟩
  · exact ⟨by decide,by simp,by simp⟩
  · refine ⟨fun _ => .fresh,fun _ => none,?_,by simp,fun _ => trivial⟩
    constructor <;> simp [initial,mountAt,fileAt]

theorem initial_invariant : Invariant initial := ⟨_,initial_fits,fun _ => ⟨rfl,rfl⟩⟩

theorem Fits.stays (fits : Fits s locals) (bare : (locals t).unlocked) : (locals t).fact.leaves = false := by
  obtain ⟨stage,owner,-,-,holds⟩ := fits.model
  have mine := holds t
  unfold Holds at mine
  split at mine <;> simp_all [Fact.leaves,Local.unlocked]

theorem Fits.rested (fits : Fits s locals) (bare : (locals t).unlocked) (quiet : Quiet s s') (sem : s'.sem = s.sem) :
    Fits s' (Function.update locals t ⟨false,false,.none⟩) :=
  fits.learn quiet sem bare.1.symm bare.2.symm (fits.stays bare) fun _ _ _ _ _ => trivial

theorem start_safe {allowed : DriverCall → Vfs → Prop} [Covers allowed] (fits : Fits s locals) (bare : (locals t).unlocked)
    (disciplined : DisciplinedStart t s op) (entered : enter t op s = some s') :
    ∃ l, Fits s' (Function.update locals t l) ∧ SafeFor allowed t l (program t op) := by
  have stays := fits.stays bare
  have plain : Fits s (Function.update locals t ⟨false,false,.none⟩) :=
    fits.rested bare ⟨fun _ => rfl,fun _ => rfl,rfl,rfl,rfl,rfl⟩ rfl
  cases op with
  | mount fs name => cases entered; exact ⟨_,fits.propose bare stays disciplined,safe_mount fs name⟩
  | unmount => cases entered; exact ⟨_,plain,safe_unmount⟩
  | «open» => cases entered; exact ⟨_,plain,safe_open⟩
  | close file =>
    cases entered
    obtain ⟨row,fs,rfl,fit⟩ := fits.closing bare stays disciplined
    exact ⟨_,fit,safe_close row fs⟩
  | seek file =>
    cases entered
    obtain ⟨row,fs,rfl,fit⟩ := fits.handle bare stays disciplined
    exact ⟨_,fit,safe_seek row fs⟩
  | read file =>
    cases entered
    obtain ⟨row,fs,rfl,fit⟩ := fits.handle bare stays disciplined
    refine ⟨_,fit,?_⟩
    unfold program vfsRead
    exact safe_transfer rfl row fs
  | write file =>
    cases entered
    obtain ⟨row,fs,rfl,fit⟩ := fits.handle bare stays disciplined
    refine ⟨_,fit,?_⟩
    unfold program vfsWrite
    exact safe_transfer rfl row fs
  | create => cases entered; exact ⟨_,plain,safe_create⟩
  | remove => cases entered; exact ⟨_,plain,safe_onPathname rfl⟩
  | getfree => cases entered; exact ⟨_,plain,safe_startOp ⟨rfl,rfl⟩ rfl (safe_onVolume rfl)⟩
  | filecount => cases entered; exact ⟨_,plain,safe_afterLookup (.inl rfl)⟩
  | file => cases entered; exact ⟨_,plain,safe_afterLookup (.inr rfl)⟩
  | deinit => exact disciplined.elim

theorem ret_unlocked {allowed : DriverCall → Vfs → Prop} (rest : idle prog = true) (safe : SafeFor allowed t l prog) :
    l.unlocked := by
  cases prog with
  | ret => exact safe
  | _ => contradiction

theorem step_invariant (invariant : Invariant c) (ok : Disciplined m c ∧ SparesLookups m c)
    (next : step m c = some d) : Invariant d := by
  refine Modular.move invariant ?_ ?_ next
  · rintro locals t op s rfl fits rest safe entered
    exact start_safe fits (ret_unlocked rest safe) ok.1 entered
  · rintro locals t result s later rfl fits safe advanced
    refine safe.advance fits rfl (fun e after at_ => ?_) advanced
    have spared := ok.2
    simp only [SparesLookups,at_] at spared
    exact spared

/-- In every run that spares lookups, no driver function is called on a filesystem whose
unmount function `vfs_unmount` has called. -/
theorem no_call_after_unmount (ran : run step moves initial = some c)
    (disciplined : Meets step Disciplined moves initial)
    (spared : Meets step SparesLookups moves initial) (t : Nat) (e : DriverCall) (next : Int → VfsProg)
    (at_ : c.threads t = .call e next) (driver : e.fn ≠ .unmount) (ordinary : e.fn ≠ .forcedUnmount) :
    e.fs ∉ c.shared.unmounted := by
  have invariant : Invariant c := run_guarded
    (fun _ _ _ holds ok next => step_invariant holds ok next) initial_invariant (disciplined.and spared) ran
  exact invariant.call_legal at_ driver ordinary

def calling : VfsProg → Option DriverCall
  | .call e _ => some e
  | _ => none

theorem call_of_calling (at_ : calling prog = some e) : ∃ next, prog = .call e next := by
  cases prog with
  | call e' next => cases at_; exact ⟨next,rfl⟩
  | _ => contradiction

/-- A volume is mounted; one thread looks it up for `vfs_filecount` and unlocks the tables,
then another unmounts it with success. -/
def lookupRun : List VfsMove :=
  .start 0 (.mount 1 [65]) :: List.replicate 6 (.step 0 0) ++
  .start 1 (.filecount (some [65])) :: List.replicate 6 (.step 1 0) ++
  .start 0 (.unmount [65]) :: List.replicate 11 (.step 0 0)

theorem filecount_after_unmount : ∃ c e next, run step lookupRun initial = some c ∧
    Meets step Disciplined lookupRun initial ∧ c.threads 1 = .call e next ∧
    e.fn = .filecount ∧ e.fs ∈ c.shared.unmounted := by
  have reached : ((run step lookupRun initial).any fun c =>
      decide (calling (c.threads 1) = some ⟨.filecount, 1, 1⟩ ∧ 1 ∈ c.shared.unmounted)) = true := by
    decide +kernel
  obtain ⟨c,ran,facts⟩ := (Option.any_eq_true _ _).mp reached
  obtain ⟨at_,member⟩ := decide_eq_true_eq.mp facts
  obtain ⟨next,at_⟩ := call_of_calling at_
  exact ⟨c,_,next,ran,by decide +kernel,at_,rfl,member⟩

/-- The volume is unmounted after the lookup is over, and another one is mounted. -/
def sparedRun : List VfsMove :=
  .start 0 (.mount 1 [65]) :: List.replicate 6 (.step 0 0) ++
  .start 1 (.filecount (some [65])) :: List.replicate 9 (.step 1 0) ++
  .start 0 (.unmount [65]) :: List.replicate 11 (.step 0 0) ++
  .start 0 (.mount 2 [66]) :: List.replicate 6 (.step 0 0) ++
  .start 1 (.file (some [66]) 0) :: List.replicate 6 (.step 1 0)

theorem no_call_after_unmount_spared : ∃ c e next, run step sparedRun initial = some c ∧
    c.threads 1 = .call e next ∧ 1 ∈ c.shared.unmounted ∧ e.fs ∉ c.shared.unmounted := by
  have reached : ((run step sparedRun initial).any fun c =>
      decide (calling (c.threads 1) = some ⟨.file, 2, 1⟩ ∧ 1 ∈ c.shared.unmounted)) = true := by
    decide +kernel
  obtain ⟨c,ran,facts⟩ := (Option.any_eq_true _ _).mp reached
  obtain ⟨at_,member⟩ := decide_eq_true_eq.mp facts
  obtain ⟨next,at_⟩ := call_of_calling at_
  exact ⟨c,_,next,ran,at_,member,no_call_after_unmount ran (by decide +kernel) (by decide +kernel)
    1 _ next at_ (by decide) (by decide)⟩

end Buenos.Fs.Unmount
