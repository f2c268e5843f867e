import Buenos.Fs.Vfs
import Mathlib.Data.Set.Card

/-! The mount table as a partial map from names to filesystems, over sequences of whole
VFS calls. -/
namespace Buenos.Fs.Mount

open Buenos.Foundation

/-! ### Sequences of calls -/

/-- A call with the caller and what the driver functions it reaches return. -/
structure Call where
  caller : Nat
  op : Op
  answer : DriverCall → Int

/-- The whole call: its return value and the state it leaves. -/
def Call.run (call : Call) (s : Vfs) : Option (Int × Vfs) :=
  (enter call.caller call.op s).bind (execute invoke call.answer (program call.caller call.op))

/-- VFS stays usable and mount points have 1 to 15 characters. -/
def Admissible : Op → Prop
  | .mount _ name | .unmount name => name ≠ [] ∧ name.length < vfsNameLength
  | .deinit => False
  | _ => True

def callStep (call : Call) (s : Vfs) : Option Vfs := (call.run s).map Prod.snd

def Reached (s : Vfs) : Prop :=
  ∃ calls : List Call, (∀ call ∈ calls, Admissible call.op) ∧
    run callStep calls initial.shared = some s

/-! ### The map -/

abbrev Mounts := Name → Option FsPtr

/-- What is mounted at a name: the filesystem of an occupied row with that name. -/
def mounts (s : Vfs) : Mounts := fun name =>
  ((List.finRange configMaxFilesystems).find? fun row =>
    (s.filesystems row).filesystem.isSome && (s.filesystems row).mountpoint == name).bind fun row =>
      (s.filesystems row).filesystem

/-- As many names as the table has rows. -/
def Full (map : Mounts) : Prop := {name | map name ≠ none}.ncard = configMaxFilesystems

/-- The operations of a partial map with at most `configMaxFilesystems` entries. -/
structure Mounted (map : Mounts) (fs : FsPtr) (name : Name) (code : Int) (after : Mounts) : Prop where
  limit : code = vfsLimit ↔ Full map
  error : code = vfsError ↔ ¬Full map ∧ map name ≠ none
  ok : ¬Full map → map name = none → code = vfsOk ∧ after = Function.update map name (some fs)
  refused : code ≠ vfsOk → after = map

structure Unmounted (map : Mounts) (inUse : FsPtr → Bool) (name : Name) (code : Int) (after : Mounts) : Prop where
  missing : code = vfsNotFound ↔ map name = none
  ok : ∀ fs, map name = some fs → inUse fs = false → code = vfsOk ∧ after = Function.update map name none
  refused : code ≠ vfsOk → after = map

/-! ### Stale rows -/

/-- A row that is free and still carries the name of its last filesystem. -/
def Stale (s : Vfs) (name : Name) : Prop :=
  ∃ row, (s.filesystems row).filesystem = none ∧ (s.filesystems row).mountpoint = name

instance (s : Vfs) (name : Name) : Decidable (Stale s name) :=
  inferInstanceAs (Decidable (∃ _ : MountRow, _))

/-- `ops` operations are in progress and the two tables' semaphores have these values. -/
structure Inside (ops : Int) (table files : Nat) (s : Vfs) : Prop where
  usable : s.usable = true
  ops : s.ops = ops
  op : s.sem .op = 1
  vfsTable : s.sem .vfsTable = table
  openfileTable : s.sem .openfileTable = files

/-- No operation is in progress, and a name stands in one row at most. -/
structure Resting (s : Vfs) : Prop where
  quiet : Inside 0 1 1 s
  named : ∀ row, (s.filesystems row).filesystem ≠ none → (s.filesystems row).mountpoint ≠ []
  once : ∀ row other, (s.filesystems row).mountpoint = (s.filesystems other).mountpoint →
    (s.filesystems row).mountpoint ≠ [] → row = other

theorem resting_initial : Resting initial.shared := by
  refine ⟨⟨rfl,rfl,rfl,rfl,rfl⟩,?_,?_⟩
  · intro row occupied
    exact absurd rfl occupied
  · intro row other _ named
    exact absurd rfl named

/-! ### Execution of the operations -/

section Execution
variable {answer : DriverCall → Int} {post : Option (Int × Vfs) → Prop}

/-- The program, executed from `s`, ends as `post` says. -/
def Ends (answer : DriverCall → Int) (post : Option (Int × Vfs) → Prop) (ops : Int)
    (table files : Nat) (prog : VfsProg) (s : Vfs) : Prop :=
  Inside ops table files s → post (execute invoke answer prog s)

theorem ends_start (later : Ends answer post 1 1 1 next { s with ops := s.ops + 1, active := me :: s.active }) :
    Ends answer post 0 1 1 (vfsStartOp me next) s := by
  intro inside
  have ran := later ⟨inside.usable,by simp [inside.ops],inside.op,inside.vfsTable,inside.openfileTable⟩
  simpa [vfsStartOp,locked,execute,inside.op,inside.usable] using ran

theorem ends_lockTable (later : Ends answer post 1 0 files next (s.down .vfsTable)) :
    Ends answer post 1 1 files (semaphoreP .vfsTable next) s := by
  intro inside
  have ran := later ⟨inside.usable,inside.ops,by simp [Vfs.down,inside.op],
    by simp [Vfs.down,inside.vfsTable],by simp [Vfs.down,inside.openfileTable]⟩
  simpa [semaphoreP,execute,inside.vfsTable] using ran

theorem ends_lockFiles (later : Ends answer post 1 table 0 next (s.down .openfileTable)) :
    Ends answer post 1 table 1 (semaphoreP .openfileTable next) s := by
  intro inside
  have ran := later ⟨inside.usable,inside.ops,by simp [Vfs.down,inside.op],
    by simp [Vfs.down,inside.vfsTable],by simp [Vfs.down,inside.openfileTable]⟩
  simpa [semaphoreP,execute,inside.openfileTable] using ran

theorem ends_unlockTable (later : Ends answer post 1 1 files next (s.up .vfsTable)) :
    Ends answer post 1 0 files (semaphoreV .vfsTable next) s := by
  intro inside
  have ran := later ⟨inside.usable,inside.ops,by simp [Vfs.up,inside.op],
    by simp [Vfs.up,inside.vfsTable],by simp [Vfs.up,inside.openfileTable]⟩
  simpa [semaphoreV,execute] using ran

theorem ends_unlockFiles (later : Ends answer post 1 table 1 next (s.up .openfileTable)) :
    Ends answer post 1 table 0 (semaphoreV .openfileTable next) s := by
  intro inside
  have ran := later ⟨inside.usable,inside.ops,by simp [Vfs.up,inside.op],
    by simp [Vfs.up,inside.vfsTable],by simp [Vfs.up,inside.openfileTable]⟩
  simpa [semaphoreV,execute] using ran

structure Same (s t : Vfs) : Prop where
  usable : t.usable = s.usable
  ops : t.ops = s.ops
  sem : t.sem = s.sem

theorem Inside.same (inside : Inside count table files s) (same : Same s t) :
    Inside count table files t := by
  obtain ⟨usable,ops,op,vfsTable,openfileTable⟩ := inside
  exact ⟨same.usable ▸ usable,same.ops ▸ ops,same.sem ▸ op,same.sem ▸ vfsTable,same.sem ▸ openfileTable⟩

theorem ends_act {next : Vfs → VfsProg} (same : Same s (effect s))
    (later : Ends answer post ops table files (next s) (effect s)) :
    Ends answer post ops table files (.act (fun _ => true) effect next) s := by
  intro inside
  simpa [execute] using later (inside.same same)

theorem ends_look {next : Vfs → VfsProg} (later : Ends answer post ops table files (next s) s) :
    Ends answer post ops table files (look next) s :=
  ends_act ⟨rfl,rfl,rfl⟩ later

theorem ends_store (same : Same s (effect s)) (later : Ends answer post ops table files next (effect s)) :
    Ends answer post ops table files (store effect next) s :=
  ends_act same later

theorem ends_driver {next : Int → VfsProg}
    (later : ∀ t ret, t.filesystems = s.filesystems → Ends answer post ops table files (next ret) t) :
    Ends answer post ops table files (driver fn fs me next) s := by
  intro inside
  have same : Same s (invoke ⟨fn, fs, me⟩ s) := by
    unfold invoke
    split <;> exact ⟨rfl,rfl,rfl⟩
  have kept : (invoke ⟨fn, fs, me⟩ s).filesystems = s.filesystems := by
    unfold invoke
    split <;> rfl
  simpa [driver,execute] using later _ (answer ⟨fn, fs, me⟩) kept (inside.same same)

end Execution

/-- The call returns `code` and leaves the mount table `filesystems`. -/
def Returning (code : Int) (filesystems : MountRow → VfsEntry) (r : Option (Int × Vfs)) : Prop :=
  ∃ t, r = some (code, t) ∧ Inside 0 1 1 t ∧ t.filesystems = filesystems

def Keeping (filesystems : MountRow → VfsEntry) (r : Option (Int × Vfs)) : Prop :=
  ∀ code t, r = some (code, t) → Inside 0 1 1 t ∧ t.filesystems = filesystems

theorem returning_finish (table : s.filesystems = filesystems) :
    Ends answer (Returning code filesystems) 1 1 1 (finish me code) s := by
  intro inside
  refine ⟨s.endOp me,?_,?_,?_⟩
  · simp [finish,vfsEndOp,locked,execute,inside.op,inside.ops]
  · constructor <;> simp [Vfs.endOp,inside.usable,inside.ops,inside.op,inside.vfsTable,inside.openfileTable]
  · simpa [Vfs.endOp,inside.usable] using table

theorem Returning.keeping (returning : Returning code filesystems r) : Keeping filesystems r := by
  obtain ⟨t,rfl,inside,table⟩ := returning
  intro code t returned
  cases returned
  exact ⟨inside,table⟩

theorem keeping_finish (table : s.filesystems = filesystems) :
    Ends answer (Keeping filesystems) 1 1 1 (finish me code) s :=
  fun inside => (returning_finish table inside).keeping

theorem keeping_panic : Ends answer (Keeping filesystems) ops table files (.panic assertion) s := by
  intro _ code t returned
  contradiction

theorem keeping_finishBoth (table : s.filesystems = filesystems) :
    Ends answer (Keeping filesystems) 1 0 0 (finishBoth me code) s :=
  ends_unlockFiles (ends_unlockTable (keeping_finish table))

/-! ### The operations that keep the mount table -/

theorem keeping_onVolume (table : s.filesystems = filesystems) :
    Ends answer (Keeping filesystems) 1 1 1 (onVolume fn me volume) s := by
  refine ends_lockTable (ends_look ?_)
  split
  · exact ends_unlockTable (keeping_finish table)
  · exact ends_driver fun t ret kept => ends_unlockTable (keeping_finish (kept.trans table))

theorem keeping_onPathname (table : s.filesystems = filesystems) :
    Ends answer (Keeping filesystems) 0 1 1 (onPathname fn me pathname) s := by
  refine ends_start ?_
  split
  · exact keeping_finish table
  · exact keeping_onVolume table

theorem keeping_transfer (table : s.filesystems = filesystems) :
    Ends answer (Keeping filesystems) 0 1 1 (vfsTransfer fn me file buffer size) s := by
  refine ends_start (ends_look ?_)
  split
  · exact keeping_panic
  · split
    · exact keeping_panic
    · refine ends_driver fun t ret kept => ?_
      have kept := kept.trans table
      split
      · exact ends_lockFiles (ends_store ⟨rfl,rfl,rfl⟩ (ends_unlockFiles (keeping_finish kept)))
      · exact keeping_finish kept

theorem reserve_filesystems (s : Vfs) (chosen : Except Int (FileRow × FsPtr)) :
    (s.reserve chosen).filesystems = s.filesystems := by
  cases chosen <;> rfl

theorem reserve_same (s : Vfs) (chosen : Except Int (FileRow × FsPtr)) : Same s (s.reserve chosen) := by
  cases chosen <;> exact ⟨rfl,rfl,rfl⟩

theorem keeping_open (table : s.filesystems = filesystems) :
    Ends answer (Keeping filesystems) 0 1 1 (vfsOpen me pathname) s := by
  refine ends_start ?_
  split
  · exact keeping_finish table
  · refine ends_lockTable (ends_lockFiles (ends_act (reserve_same _ _) ?_))
    split
    · exact keeping_finishBoth ((reserve_filesystems _ _).trans table)
    · refine ends_unlockFiles (ends_unlockTable (ends_driver fun t ret kept => ?_))
      simp only [Vfs.up,reserve_filesystems] at kept
      have kept := kept.trans table
      split
      · exact ends_lockFiles (ends_store ⟨rfl,rfl,rfl⟩ (ends_unlockFiles (keeping_finish kept)))
      · exact ends_store ⟨rfl,rfl,rfl⟩ (keeping_finish kept)

theorem keeping_close (table : s.filesystems = filesystems) :
    Ends answer (Keeping filesystems) 0 1 1 (vfsClose me file) s := by
  refine ends_start (ends_lockFiles (ends_look ?_))
  split
  · exact keeping_panic
  · refine ends_driver fun t ret kept => ends_store ⟨rfl,rfl,rfl⟩ (ends_unlockFiles (keeping_finish ?_))
    exact kept.trans table

theorem keeping_seek (table : s.filesystems = filesystems) :
    Ends answer (Keeping filesystems) 0 1 1 (vfsSeek me file seekPosition) s := by
  refine ends_start ?_
  split
  · exact keeping_panic
  · refine ends_lockFiles (ends_look ?_)
    split
    · exact keeping_panic
    · exact ends_store ⟨rfl,rfl,rfl⟩ (ends_unlockFiles (keeping_finish table))

theorem keeping_afterLookup {whole : Vfs → Int} (table : s.filesystems = filesystems) :
    Ends answer (Keeping filesystems) 0 1 1 (afterLookup fn me name whole) s := by
  refine ends_start (ends_lockTable (ends_lockFiles ?_))
  cases name with
  | none => exact ends_look (keeping_finishBoth table)
  | some name =>
    refine ends_act (by split <;> exact ⟨rfl,rfl,rfl⟩) ?_
    split
    · exact keeping_finishBoth table
    · refine ends_unlockFiles (ends_unlockTable (ends_driver fun t ret kept => ?_))
      exact keeping_finish (kept.trans table)

/-! ### The operations that change it -/

/-- The code and the mount table that `vfs_mount` returns with. -/
def mountOutcome (s : Vfs) (fs : FsPtr) (name : Name) : Int × (MountRow → VfsEntry) :=
  match freeMountRow s with
  | none => (vfsLimit, s.filesystems)
  | some row =>
    if (namedRow s name).isSome then (vfsError, s.filesystems)
    else (vfsOk, Function.update s.filesystems row ⟨some fs, name.take (vfsNameLength - 1)⟩)

def unmountOutcome (s : Vfs) (name : Name) : Int × (MountRow → VfsEntry) :=
  match (namedRow s name).bind fun row => (s.filesystems row).filesystem.map fun fs => (row, fs) with
  | none => (vfsNotFound, s.filesystems)
  | some (row, fs) =>
    if hasOpenFiles s fs then (vfsInUse, s.filesystems)
    else (vfsOk, Function.update s.filesystems row { s.filesystems row with filesystem := none })

theorem returning_mount (nonempty : name ≠ []) :
    Ends answer (Returning (mountOutcome s fs name).1 (mountOutcome s fs name).2) 0 1 1
      (vfsMount me fs name) s := by
  unfold vfsMount
  rw [if_neg nonempty]
  refine ends_start (ends_lockTable (ends_look ?_))
  change Ends _ _ _ _ _ (match freeMountRow s with
    | none => _
    | some row => if (namedRow s name).isSome then _ else _) _
  unfold mountOutcome
  cases freeMountRow s with
  | none => exact ends_unlockTable (returning_finish rfl)
  | some row =>
    dsimp only
    split
    · exact ends_unlockTable (returning_finish rfl)
    · exact ends_store ⟨rfl,rfl,rfl⟩ (ends_unlockTable (returning_finish rfl))

theorem returning_unmount :
    Ends answer (Returning (unmountOutcome s name).1 (unmountOutcome s name).2) 0 1 1
      (vfsUnmount me name) s := by
  refine ends_start (ends_lockTable (ends_look ?_))
  change Ends _ _ _ _ _ (match (namedRow s name).bind fun row =>
      (s.filesystems row).filesystem.map fun fs => (row, fs) with
    | none => _
    | some (row, fs) => _) _
  unfold unmountOutcome
  split
  · exact ends_unlockTable (returning_finish rfl)
  · refine ends_lockFiles (ends_look ?_)
    change Ends _ _ _ _ _ (if hasOpenFiles s _ then _ else _) _
    split
    · exact ends_unlockFiles (ends_unlockTable (returning_finish rfl))
    · refine ends_driver fun t _ kept => ends_store ⟨rfl,rfl,rfl⟩ ?_
      refine ends_unlockFiles (ends_unlockTable (returning_finish ?_))
      change Function.update t.filesystems _ { t.filesystems _ with filesystem := none } = _
      rw [kept]
      rfl

/-! ### The table as a map -/

theorem mounts_congr (table : t.filesystems = s.filesystems) : mounts t = mounts s := by
  unfold mounts
  rw [table]

theorem mounts_row (found : mounts s name = some fs) :
    ∃ row, (s.filesystems row).filesystem = some fs ∧ (s.filesystems row).mountpoint = name := by
  obtain ⟨row,found,mounted⟩ := Option.bind_eq_some_iff.mp found
  have facts := List.find?_some found
  simp only [Bool.and_eq_true,beq_iff_eq] at facts
  exact ⟨row,mounted,facts.2⟩

theorem namedRow_eq (resting : Resting s) (nonempty : name ≠ [])
    (named : (s.filesystems row).mountpoint = name) : namedRow s name = some row := by
  cases found : namedRow s name with
  | none =>
    have missing := List.find?_eq_none.mp found row (List.mem_finRange row)
    simp [named] at missing
  | some other =>
    have same := List.find?_some found
    simp only [beq_iff_eq] at same
    rw [resting.once other row (same.trans named.symm) (same ▸ nonempty)]

theorem mounts_eq (resting : Resting s) (mounted : (s.filesystems row).filesystem = some fs) :
    mounts s (s.filesystems row).mountpoint = some fs := by
  have named := resting.named row (by simp [mounted])
  cases found : (List.finRange configMaxFilesystems).find? fun other =>
      (s.filesystems other).filesystem.isSome &&
        (s.filesystems other).mountpoint == (s.filesystems row).mountpoint with
  | none =>
    have missing := List.find?_eq_none.mp found row (List.mem_finRange row)
    simp [mounted] at missing
  | some other =>
    have facts := List.find?_some found
    simp only [Bool.and_eq_true,beq_iff_eq] at facts
    have same := resting.once other row facts.2 (facts.2 ▸ named)
    simp [mounts,found,same,mounted]

theorem mounts_iff (resting : Resting s) :
    mounts s name = some fs ↔
      ∃ row, (s.filesystems row).filesystem = some fs ∧ (s.filesystems row).mountpoint = name := by
  refine ⟨mounts_row,?_⟩
  rintro ⟨row,mounted,rfl⟩
  exact mounts_eq resting mounted

theorem getFilesystem_mounts (resting : Resting s) (nonempty : name ≠ []) :
    vfsGetFilesystem s name = mounts s name := by
  ext fs
  rw [mounts_iff resting,vfsGetFilesystem,Option.bind_eq_some_iff]
  constructor
  · rintro ⟨row,found,mounted⟩
    exact ⟨row,mounted,by simpa using List.find?_some found⟩
  · rintro ⟨row,mounted,named⟩
    exact ⟨row,namedRow_eq resting nonempty named,mounted⟩

theorem mounted_names (resting : Resting s) : {name | mounts s name ≠ none} =
    (fun row => (s.filesystems row).mountpoint) '' {row | (s.filesystems row).filesystem ≠ none} := by
  ext name
  constructor
  · intro mounted
    obtain ⟨fs,found⟩ := Option.ne_none_iff_exists'.mp mounted
    obtain ⟨row,occupied,named⟩ := mounts_row found
    exact ⟨row,by simp [occupied],named⟩
  · rintro ⟨row,occupied,rfl⟩
    obtain ⟨fs,occupied⟩ := Option.ne_none_iff_exists'.mp occupied
    simp [mounts_eq resting occupied]

theorem mounted_count (resting : Resting s) : {name | mounts s name ≠ none}.ncard =
    {row | (s.filesystems row).filesystem ≠ none}.ncard := by
  rw [mounted_names resting]
  refine Set.InjOn.ncard_image ?_
  intro row occupied other _ same
  exact resting.once row other same (resting.named row occupied)

theorem full_iff (resting : Resting s) : Full (mounts s) ↔ freeMountRow s = none := by
  have all := Set.eq_univ_iff_ncard {row | (s.filesystems row).filesystem ≠ none}
  rw [Nat.card_fin] at all
  rw [Full,mounted_count resting,← all,freeMountRow,List.find?_eq_none,Set.eq_univ_iff_forall]
  simp [Option.isNone_iff_eq_none]

theorem mounted_le (resting : Resting s) : {name | mounts s name ≠ none}.ncard ≤ configMaxFilesystems := by
  rw [mounted_count resting]
  refine (Set.ncard_le_card _).trans ?_
  simp

/-! ### Every call keeps the table well formed -/

theorem Resting.keep (resting : Resting s) (quiet : Inside 0 1 1 t)
    (kept : t.filesystems = s.filesystems) : Resting t :=
  ⟨quiet,kept ▸ resting.named,kept ▸ resting.once⟩

theorem not_named (missing : ¬(namedRow s name).isSome) (row : MountRow) :
    (s.filesystems row).mountpoint ≠ name := by
  intro named
  rw [Option.not_isSome_iff_eq_none] at missing
  have absent := List.find?_eq_none.mp missing row (List.mem_finRange row)
  simp [named] at absent

theorem Resting.mount (resting : Resting s) (nonempty : name ≠ [])
    (missing : ∀ row, (s.filesystems row).mountpoint ≠ name) (quiet : Inside 0 1 1 t)
    (table : t.filesystems = Function.update s.filesystems row ⟨some fs, name⟩) : Resting t := by
  refine ⟨quiet,?_,?_⟩
  · intro other occupied
    rw [table] at occupied ⊢
    by_cases same : other = row
    · subst same; simpa using nonempty
    · simp only [Function.update_of_ne same] at occupied ⊢
      exact resting.named other occupied
  · intro first second equal named
    rw [table] at equal named
    by_cases one : first = row <;> by_cases two : second = row
    · rw [one,two]
    · simp only [one,Function.update_self,Function.update_of_ne two] at equal
      exact absurd equal.symm (missing second)
    · simp only [two,Function.update_self,Function.update_of_ne one] at equal
      exact absurd equal (missing first)
    · simp only [Function.update_of_ne one,Function.update_of_ne two] at equal named
      exact resting.once first second equal named

theorem Resting.unmount (resting : Resting s) (quiet : Inside 0 1 1 t)
    (table : t.filesystems =
      Function.update s.filesystems row { s.filesystems row with filesystem := none }) : Resting t := by
  have strings : ∀ other, (t.filesystems other).mountpoint = (s.filesystems other).mountpoint := by
    intro other
    rw [table]
    by_cases same : other = row
    · subst same; simp
    · simp [Function.update_of_ne same]
  refine ⟨quiet,?_,?_⟩
  · intro other occupied
    rw [strings]
    refine resting.named other ?_
    intro free
    refine occupied ?_
    rw [table]
    by_cases same : other = row
    · subst same; simp
    · simpa [Function.update_of_ne same] using free
  · intro first second equal named
    rw [strings,strings] at equal
    rw [strings] at named
    exact resting.once first second equal named

theorem mount_map (resting : Resting s) (after : Resting t) (free : (s.filesystems row).filesystem = none)
    (missing : ∀ row, (s.filesystems row).mountpoint ≠ name)
    (table : t.filesystems = Function.update s.filesystems row ⟨some fs, name⟩) :
    mounts t = Function.update (mounts s) name (some fs) := by
  funext other
  ext found
  by_cases same : other = name
  · subst same
    rw [mounts_iff after,Function.update_self]
    constructor
    · rintro ⟨place,mounted,named⟩
      rw [table] at mounted named
      by_cases here : place = row
      · subst here; simpa using mounted
      · rw [Function.update_of_ne here] at named
        exact absurd named (missing place)
    · rintro ⟨⟩
      exact ⟨row,by simp [table],by simp [table]⟩
  · rw [mounts_iff after,Function.update_of_ne same,mounts_iff resting]
    constructor
    · rintro ⟨place,mounted,named⟩
      rw [table] at mounted named
      by_cases here : place = row
      · subst here; simp only [Function.update_self] at named; exact absurd named.symm same
      · rw [Function.update_of_ne here] at mounted named
        exact ⟨place,mounted,named⟩
    · rintro ⟨place,mounted,named⟩
      have apart : place ≠ row := by rintro rfl; simp [free] at mounted
      exact ⟨place,by simpa [table,Function.update_of_ne apart] using mounted,
        by simpa [table,Function.update_of_ne apart] using named⟩

theorem unmount_map (resting : Resting s) (after : Resting t)
    (named : (s.filesystems row).mountpoint = name) (nonempty : name ≠ [])
    (table : t.filesystems =
      Function.update s.filesystems row { s.filesystems row with filesystem := none }) :
    mounts t = Function.update (mounts s) name none := by
  funext other
  ext found
  by_cases same : other = name
  · subst same
    rw [mounts_iff after,Function.update_self]
    simp only [reduceCtorEq,iff_false]
    rintro ⟨place,mounted,called⟩
    rw [table] at mounted called
    by_cases here : place = row
    · subst here; simp at mounted
    · rw [Function.update_of_ne here] at called
      exact here (resting.once place row (called.trans named.symm) (called ▸ nonempty))
  · rw [mounts_iff after,Function.update_of_ne same,mounts_iff resting]
    have apart : ∀ place, (s.filesystems place).mountpoint = other → place ≠ row := by
      rintro place called rfl
      exact same (called.symm.trans named)
    constructor
    · rintro ⟨place,mounted,called⟩
      rw [table] at mounted called
      by_cases here : place = row
      · subst here; simp at mounted
      · rw [Function.update_of_ne here] at mounted called
        exact ⟨place,mounted,called⟩
    · rintro ⟨place,mounted,called⟩
      have apart := apart place called
      exact ⟨place,by simpa [table,Function.update_of_ne apart] using mounted,
        by simpa [table,Function.update_of_ne apart] using called⟩

theorem run_mount (resting : Resting s) (nonempty : name ≠ []) (fs : FsPtr) (caller : Nat)
    (answer : DriverCall → Int) : Returning (mountOutcome s fs name).1 (mountOutcome s fs name).2
      (Call.run ⟨caller, .mount fs name, answer⟩ s) :=
  returning_mount (s := { s with known := fs :: s.known }) nonempty (resting.quiet.same ⟨rfl,rfl,rfl⟩)

theorem run_unmount (resting : Resting s) (name : Name) (caller : Nat) (answer : DriverCall → Int) :
    Returning (unmountOutcome s name).1 (unmountOutcome s name).2
      (Call.run ⟨caller, .unmount name, answer⟩ s) :=
  returning_unmount resting.quiet

theorem mount_cases (s : Vfs) (fs : FsPtr) (short : name.length < vfsNameLength) :
    (freeMountRow s = none ∧ mountOutcome s fs name = (vfsLimit, s.filesystems)) ∨
    (∃ row other, freeMountRow s = some row ∧ (s.filesystems other).mountpoint = name ∧
      mountOutcome s fs name = (vfsError, s.filesystems)) ∨
    (∃ row, freeMountRow s = some row ∧ (∀ row, (s.filesystems row).mountpoint ≠ name) ∧
      mountOutcome s fs name = (vfsOk, Function.update s.filesystems row ⟨some fs, name⟩)) := by
  cases free : freeMountRow s with
  | none => exact .inl ⟨rfl,by simp [mountOutcome,free]⟩
  | some row =>
    refine .inr ?_
    by_cases named : (namedRow s name).isSome
    · obtain ⟨other,found⟩ := Option.isSome_iff_exists.mp named
      exact .inl ⟨row,other,rfl,by simpa using List.find?_some found,by simp [mountOutcome,free,named]⟩
    · have whole : name.take (vfsNameLength - 1) = name := List.take_of_length_le (by omega)
      exact .inr ⟨row,rfl,not_named named,by simp [mountOutcome,free,named,whole]⟩

theorem unmount_cases (resting : Resting s) (nonempty : name ≠ []) :
    (mounts s name = none ∧ unmountOutcome s name = (vfsNotFound, s.filesystems)) ∨
    (∃ row fs, (s.filesystems row).mountpoint = name ∧ mounts s name = some fs ∧
      ((hasOpenFiles s fs = true ∧ unmountOutcome s name = (vfsInUse, s.filesystems)) ∨
       (hasOpenFiles s fs = false ∧ unmountOutcome s name =
        (vfsOk, Function.update s.filesystems row { s.filesystems row with filesystem := none })))) := by
  have lookup := getFilesystem_mounts resting nonempty
  unfold vfsGetFilesystem at lookup
  cases found : namedRow s name with
  | none =>
    rw [found] at lookup
    exact .inl ⟨lookup.symm,by simp [unmountOutcome,found]⟩
  | some row =>
    rw [found] at lookup
    simp only [Option.bind_some] at lookup
    cases mounted : (s.filesystems row).filesystem with
    | none => exact .inl ⟨by rw [← lookup,mounted],by simp [unmountOutcome,found,mounted]⟩
    | some fs =>
      refine .inr ⟨row,fs,by simpa using List.find?_some found,by rw [← lookup,mounted],?_⟩
      cases used : hasOpenFiles s fs with
      | true => exact .inl ⟨rfl,by simp [unmountOutcome,found,mounted,used]⟩
      | false => exact .inr ⟨rfl,by simp [unmountOutcome,found,mounted,used]⟩

theorem mount_resting (resting : Resting s) (nonempty : name ≠ []) (short : name.length < vfsNameLength)
    (quiet : Inside 0 1 1 t) (table : t.filesystems = (mountOutcome s fs name).2) : Resting t := by
  obtain ⟨_,outcome⟩ | ⟨_,_,_,_,outcome⟩ | ⟨row,_,missing,outcome⟩ := mount_cases s fs short
  all_goals rw [outcome] at table
  · exact resting.keep quiet table
  · exact resting.keep quiet table
  · exact resting.mount nonempty missing quiet table

theorem unmount_resting (resting : Resting s) (nonempty : name ≠ []) (quiet : Inside 0 1 1 t)
    (table : t.filesystems = (unmountOutcome s name).2) : Resting t := by
  obtain ⟨_,outcome⟩ | ⟨row,fs,_,_,⟨_,outcome⟩ | ⟨_,outcome⟩⟩ := unmount_cases resting nonempty
  all_goals rw [outcome] at table
  · exact resting.keep quiet table
  · exact resting.keep quiet table
  · exact resting.unmount quiet table

theorem call_resting (call : Call) (resting : Resting s) (admissible : Admissible call.op)
    (next : callStep call s = some t) : Resting t := by
  obtain ⟨⟨code,t⟩,ran,rfl⟩ := Option.map_eq_some_iff.mp next
  obtain ⟨caller,op,answer⟩ := call
  have keep : ∀ {prog}, Ends answer (Keeping s.filesystems) 0 1 1 prog s →
      execute invoke answer prog s = some (code, t) → Resting t := by
    intro prog ends executed
    obtain ⟨quiet,kept⟩ := ends resting.quiet code t executed
    exact resting.keep quiet kept
  cases op with
  | mount fs name =>
    obtain ⟨nonempty,short⟩ := admissible
    obtain ⟨t,returned,quiet,table⟩ := run_mount (s := s) resting nonempty fs caller answer
    cases ran.symm.trans returned
    exact mount_resting resting nonempty short quiet table
  | unmount name =>
    obtain ⟨t,returned,quiet,table⟩ := run_unmount (s := s) resting name caller answer
    cases ran.symm.trans returned
    exact unmount_resting resting admissible.1 quiet table
  | «open» pathname => exact keep (keeping_open rfl) ran
  | close file =>
    obtain ⟨quiet,kept⟩ := keeping_close (s := { s with handles := s.handles.erase (caller, file) }) rfl
      (resting.quiet.same ⟨rfl,rfl,rfl⟩) code t ran
    exact resting.keep quiet kept
  | seek file seekPosition => exact keep (keeping_seek rfl) ran
  | read file buffer size => exact keep (keeping_transfer rfl) ran
  | write file buffer size => exact keep (keeping_transfer rfl) ran
  | create pathname size =>
    refine keep ?_ ran
    change Ends _ _ _ _ _ (if size < 0 then _ else _) _
    split
    · exact keeping_panic
    · exact keeping_onPathname rfl
  | remove pathname => exact keep (keeping_onPathname rfl) ran
  | getfree volume => exact keep (ends_start (keeping_onVolume rfl)) ran
  | filecount name => exact keep (keeping_afterLookup rfl) ran
  | file name index => exact keep (keeping_afterLookup rfl) ran
  | deinit => exact absurd admissible id

theorem reached_resting (reached : Reached s) : Resting s := by
  obtain ⟨calls,admissible,ran⟩ := reached
  have preserved : ∀ (call : Call) s t, Resting s → Admissible call.op → callStep call s = some t →
      Resting t :=
    fun call s t resting admissible next => call_resting call resting admissible next
  exact run_guarded preserved resting_initial (meets_of_forall admissible) ran

/-! ### The map under any sequence of calls -/

theorem unmount_refines (resting : Resting s) (nonempty : name ≠ []) :
    ∃ code t, Call.run ⟨caller, .unmount name, answer⟩ s = some (code, t) ∧
      Unmounted (mounts s) (hasOpenFiles s) name code (mounts t) := by
  obtain ⟨t,returned,quiet,table⟩ := run_unmount (s := s) resting name caller answer
  have after := unmount_resting resting nonempty quiet table
  refine ⟨_,t,returned,?_⟩
  obtain ⟨missing,outcome⟩ | ⟨row,fs,named,mounted,⟨used,outcome⟩ | ⟨spare,outcome⟩⟩ :=
    unmount_cases resting nonempty
  all_goals rw [outcome] at table ⊢
  · have same : mounts t = mounts s := mounts_congr table
    exact ⟨by simp [missing],by simp [missing],fun _ => same⟩
  · have same : mounts t = mounts s := mounts_congr table
    refine ⟨by simp [mounted,vfsInUse,vfsNotFound],?_,fun _ => same⟩
    intro other found unused
    rw [mounted] at found
    cases found
    simp [used] at unused
  · have changed := unmount_map resting after named nonempty table
    exact ⟨by simp [mounted,vfsOk,vfsNotFound],fun _ _ _ => ⟨rfl,changed⟩,fun other => absurd rfl other⟩

theorem mount_refines (resting : Resting s) (nonempty : name ≠ []) (short : name.length < vfsNameLength) :
    ∃ code t, Call.run ⟨caller, .mount fs name, answer⟩ s = some (code, t) ∧
      (Mounted (mounts s) fs name code (mounts t) ↔ Full (mounts s) ∨ ¬Stale s name) := by
  obtain ⟨t,returned,quiet,table⟩ := run_mount (s := s) resting nonempty fs caller answer
  have after := mount_resting resting nonempty short quiet table
  refine ⟨_,t,returned,?_⟩
  have full := full_iff resting
  obtain ⟨free,outcome⟩ | ⟨row,other,free,named,outcome⟩ | ⟨row,free,missing,outcome⟩ :=
    mount_cases s fs short
  all_goals rw [outcome] at table ⊢
  all_goals rw [free] at full
  · have full := full.mpr rfl
    have same : mounts t = mounts s := mounts_congr table
    refine iff_of_true ⟨by simp [full],?_,fun spare => absurd full spare,fun _ => same⟩ (.inl full)
    simp [full,vfsLimit,vfsError]
  · have spare : ¬Full (mounts s) := by simp [full]
    have same : mounts t = mounts s := mounts_congr table
    cases mounted : (s.filesystems other).filesystem with
    | none =>
      -- the only row of that name is free, so the name is refused although it is not mounted
      have unmounted : mounts s name = none := by
        rw [← getFilesystem_mounts resting nonempty,vfsGetFilesystem,namedRow_eq resting nonempty named]
        simpa using mounted
      refine iff_of_false ?_ ?_
      · intro wrong
        have := (wrong.ok spare unmounted).1
        simp [vfsError,vfsOk] at this
      · simpa [spare] using ⟨other,mounted,named⟩
    | some found =>
      have present : mounts s name = some found := named ▸ mounts_eq resting mounted
      refine iff_of_true ⟨?_,?_,?_,fun _ => same⟩ (.inr ?_)
      · simp [spare,vfsError,vfsLimit]
      · simp [spare,present]
      · simp [present]
      · rintro ⟨stale,free,called⟩
        rw [resting.once stale other (called.trans named.symm) (called ▸ nonempty),mounted] at free
        contradiction
  · have spare : ¬Full (mounts s) := by simp [full]
    have unmounted : mounts s name = none := by
      cases found : mounts s name with
      | none => rfl
      | some fs =>
        obtain ⟨row,_,named⟩ := mounts_row found
        exact absurd named (missing row)
    have empty : (s.filesystems row).filesystem = none := by simpa using List.find?_some free
    have changed := mount_map resting after empty missing table
    refine iff_of_true ⟨?_,?_,fun _ _ => ⟨rfl,changed⟩,fun other => absurd rfl other⟩ (.inr ?_)
    · simp [spare,vfsOk,vfsLimit]
    · simp [unmounted,vfsOk,vfsError]
    · rintro ⟨stale,_,named⟩
      exact missing stale named

/-- Whatever was called before, lookups and unmounts are those of a partial map, and a
mount is exactly when the table is full or no free row still carries the name. -/
theorem mount_table_map (reached : Reached s) (nonempty : name ≠ []) (short : name.length < vfsNameLength)
    (caller : Nat) (answer : DriverCall → Int) :
    {name | mounts s name ≠ none}.ncard ≤ configMaxFilesystems ∧
    vfsGetFilesystem s name = mounts s name ∧
    (∃ code t, Call.run ⟨caller, .unmount name, answer⟩ s = some (code, t) ∧
      Unmounted (mounts s) (hasOpenFiles s) name code (mounts t)) ∧
    ∀ fs, ∃ code t, Call.run ⟨caller, .mount fs name, answer⟩ s = some (code, t) ∧
      (Mounted (mounts s) fs name code (mounts t) ↔ Full (mounts s) ∨ ¬Stale s name) := by
  have resting := reached_resting reached
  exact ⟨mounted_le resting,getFilesystem_mounts resting nonempty,unmount_refines resting nonempty,
    fun fs => mount_refines resting nonempty short⟩

def quietly (op : Op) : Call := ⟨0, op, fun _ => 0⟩

theorem mount_table_map_second : ∃ s, Reached s ∧ mounts s [97] = some 1 ∧
    ∃ code t, Call.run (quietly (.mount 2 [98])) s = some (code, t) ∧
      Mounted (mounts s) 2 [98] code (mounts t) := by
  have ran : ((run callStep [quietly (.mount 1 [97])] initial.shared).any fun s =>
      decide (mounts s [97] = some 1 ∧ ¬Stale s [98])) = true := by decide +kernel
  obtain ⟨s,ran,facts⟩ := (Option.any_eq_true _ _).mp ran
  obtain ⟨first,fresh⟩ := of_decide_eq_true facts
  have reached : Reached s := ⟨_,by simp [quietly,Admissible,vfsNameLength],ran⟩
  obtain ⟨code,t,returned,mounted⟩ :=
    (mount_table_map reached (by decide : ([98] : Name) ≠ []) (by decide) 0 fun _ => 0).2.2.2 2
  exact ⟨s,reached,first,code,t,returned,mounted.mpr (.inr fresh)⟩

/-- A volume is mounted and unmounted, and its name cannot be mounted again. -/
theorem remount_refused : ∃ s code t, Reached s ∧ ¬Full (mounts s) ∧ mounts s [97] = none ∧
    Call.run (quietly (.mount 2 [97])) s = some (code, t) ∧ code = vfsError ∧
    ¬Mounted (mounts s) 2 [97] code (mounts t) := by
  have ran : ((run callStep [quietly (.mount 1 [97]),quietly (.unmount [97])] initial.shared).any fun s =>
      decide (mounts s [97] = none ∧ (freeMountRow s).isSome = true) &&
        (Call.run (quietly (.mount 2 [97])) s).any fun r => decide (r.1 = vfsError)) = true := by
    decide +kernel
  obtain ⟨s,ran,facts⟩ := (Option.any_eq_true _ _).mp ran
  obtain ⟨facts,refused⟩ := (Bool.and_eq_true _ _).mp facts
  obtain ⟨unmounted,free⟩ := of_decide_eq_true facts
  obtain ⟨⟨code,t⟩,returned,refused⟩ := (Option.any_eq_true _ _).mp refused
  have code_eq : code = vfsError := of_decide_eq_true refused
  have reached : Reached s := ⟨_,by simp [quietly,Admissible,vfsNameLength],ran⟩
  have spare : ¬Full (mounts s) := by
    rw [full_iff (reached_resting reached)]
    exact Option.isSome_iff_ne_none.mp free
  refine ⟨s,code,t,reached,spare,unmounted,returned,code_eq,?_⟩
  intro mounted
  have ok := (mounted.ok spare unmounted).1
  exact absurd (code_eq.symm.trans ok) (by decide)

end Buenos.Fs.Mount
