import Buenos.Fs.VfsUnmount

/-! Who has a row of the open file table. A row is taken by the scan of `vfs_open`, handed
to the caller when `vfs_open` returns, and taken back by the `vfs_close` of it. -/
namespace Buenos.Fs.OpenFiles

open Buenos.Foundation

/-- A handle that `vfs_open` has returned, with the filesystem whose open function it called
and the answer of that function. -/
structure Handle where
  file : Int
  fs : Option FsPtr
  fileid : Option Int

/-- The current call of a thread: the filesystem it has called, the answer of the driver,
and the rows it has. A `vfs_close` has its row from the beginning; otherwise a call has the
rows in which it has replaced `NULL`. -/
structure Call where
  op : Op
  asked : Option FsPtr
  answer : Option Int
  has : FileRow → Bool

/-- VFS together with a record of its calls and of the handles that were returned by
`vfs_open` and not passed to `vfs_close`. -/
structure Watch where
  config : VfsConfig
  call : Nat → Call
  handles : List Handle

def opens : Op → Bool
  | .open _ => true
  | _ => false

def returned : VfsProg → Option Int
  | .ret code => some code
  | _ => none

def Call.start (op : Op) : Call :=
  ⟨op,none,none,fun row => match op with
    | .close file => file == (row : Nat)
    | _ => false⟩

/-- A step of the call from state `s` to state `s'`. -/
def Call.step (call : Call) (prog : VfsProg) (result : Int) (s s' : Vfs) : Call where
  op := call.op
  asked := match prog with
    | .call e _ => some e.fs
    | _ => call.asked
  answer := match prog with
    | .await _ => some result
    | _ => call.answer
  has row := (s'.files row).filesystem.isSome && (call.has row || (s.files row).filesystem.isNone)

/-- A call that has returned has nothing. -/
def Call.settle (call : Call) (prog : VfsProg) : Call :=
  if idle prog then { call with has := fun _ => false } else call

def handOver (call : Call) (prog : VfsProg) (handles : List Handle) : List Handle :=
  match returned prog with
  | some code => if opens call.op ∧ 0 ≤ code then ⟨code,call.asked,call.answer⟩ :: handles else handles
  | none => handles

def giveUp (op : Op) (handles : List Handle) : List Handle :=
  match op with
  | .close file => handles.filter (·.file ≠ file)
  | _ => handles

def watch : VfsMove → Watch → Option Watch
  | .start t op, w => (step (.start t op) w.config).map fun c =>
    ⟨c,Function.update w.call t (.start op),giveUp op w.handles⟩
  | .step t result, w => (step (.step t result) w.config).map fun c =>
    let call := (w.call t).step (w.config.threads t) result w.config.shared c.shared
    ⟨c,Function.update w.call t (call.settle (c.threads t)),handOver call (c.threads t) w.handles⟩

def start : Watch := ⟨initial,fun _ => ⟨.getfree [],none,none,fun _ => false⟩,[]⟩

/-- Only a handle that `vfs_open` has returned is passed to `vfs_close`, and only once. There
is no forced unmount. -/
def Closes : VfsMove → Watch → Prop
  | .start _ (.close file), w => ∃ h ∈ w.handles, h.file = file
  | .start _ .deinit, _ => False
  | _, _ => True

/-- An open of the row is not yet closed, or a call that has it is in progress. -/
def Held (w : Watch) (row : FileRow) : Prop :=
  (∃ h ∈ w.handles, h.file = (row : Nat)) ∨ ∃ t, (w.call t).has row = true

/-! ### The points of a call -/

def Keeps (s s' : Vfs) : Prop :=
  s'.usable = s.usable ∧ ∀ row, (s'.files row).filesystem = (s.files row).filesystem ∧
    (s'.files row).fileid = (s.files row).fileid

/-- A program that never touches what the rows refer to. -/
inductive Calm : VfsProg → Prop where
  | ret : Calm (.ret code)
  | panic : Calm (.panic a)
  | act : (∀ s, Keeps s (effect s)) → (∀ s, Calm (next s)) → Calm (.act ready effect next)
  | call : (∀ r, Calm (next r)) → Calm (.call e next)
  | await : (∀ r, Calm (next r)) → Calm (.await next)

def openFailed (me : Nat) (file : FileRow) (fileid : Int) : VfsProg :=
  store (fun s => s.setFile file { s.files file with filesystem := none }) <|
  semaphoreV .openfileTable (finish me fileid)

def openFilled (me : Nat) (file : FileRow) (fileid : Int) : VfsProg :=
  store (fun s => { s.setFile file { s.files file with
      fileid := fileid, seekPosition := 0 } with
    handles := (me, (file : Nat)) :: s.handles }) <|
  finish me (file : Nat)

/-- `vfs_open` after the answer of the driver. -/
def openAnswered (me : Nat) (file : FileRow) (fileid : Int) : VfsProg :=
  if fileid < 0 then semaphoreP .openfileTable (openFailed me file fileid) else openFilled me file fileid

def openReserved (me : Nat) (file : FileRow) (fs : FsPtr) : VfsProg :=
  semaphoreV .openfileTable <| semaphoreV .vfsTable <| driver .open fs me (openAnswered me file)

def openScanned (me : Nat) : Except Int (FileRow × FsPtr) → VfsProg
  | .error code => finishBoth me code
  | .ok (file, fs) => openReserved me file fs

def openScan (me : Nat) (volume : Name) : VfsProg :=
  .act (fun _ => true) (fun s => s.reserve (reservation s volume)) fun s => openScanned me (reservation s volume)

theorem vfsOpen_points (me : Nat) (pathname : List UInt8) : vfsOpen me pathname = vfsStartOp me
    (match vfsParsePathname pathname with
    | none => finish me vfsError
    | some (volume, _) => semaphoreP .vfsTable (semaphoreP .openfileTable (openScan me volume))) := by
  unfold vfsOpen
  apply congrArg (vfsStartOp me)
  cases vfsParsePathname pathname with
  | none => rfl
  | some parsed =>
    apply congrArg (semaphoreP .vfsTable)
    apply congrArg (semaphoreP .openfileTable)
    apply congrArg (Prog.act _ _)
    funext s
    generalize reservation s parsed.1 = chosen
    cases chosen <;> rfl

inductive Before (me : Nat) : VfsProg → Prop where
  | enter : Before me (vfsOpen me pathname)
  | lockTable : Before me (semaphoreP .vfsTable (semaphoreP .openfileTable (openScan me volume)))
  | lockFiles : Before me (semaphoreP .openfileTable (openScan me volume))
  | scan : Before me (openScan me volume)

inductive Failing (me : Nat) (code : Int) : VfsProg → Prop where
  | unlockBoth : Failing me code (finishBoth me code)
  | unlockTable : Failing me code (semaphoreV .vfsTable (finish me code))
  | unlockFiles : Failing me code (semaphoreV .openfileTable (finish me code))
  | leave : Failing me code (finish me code)
  | ret : Failing me code (.ret code)

inductive Stage where
  | reserved
  | asked
  | answered (fileid : Int)
  | filled (fileid : Int)

inductive Opening (me : Nat) (file : FileRow) (fs : FsPtr) : Stage → VfsProg → Prop where
  | unlockFiles : Opening me file fs .reserved (openReserved me file fs)
  | unlockTable : Opening me file fs .reserved (semaphoreV .vfsTable (driver .open fs me (openAnswered me file)))
  | call : Opening me file fs .reserved (driver .open fs me (openAnswered me file))
  | await : Opening me file fs .asked (.await (openAnswered me file))
  | lock : fileid < 0 → Opening me file fs (.answered fileid) (semaphoreP .openfileTable (openFailed me file fileid))
  | clear : fileid < 0 → Opening me file fs (.answered fileid) (openFailed me file fileid)
  | fill : Opening me file fs (.answered fileid) (openFilled me file fileid)
  | leave : Opening me file fs (.filled fileid) (finish me (file : Nat))

/-- What is recorded of the call, and what is in its row. -/
def Reached (call : Call) (entry : OpenfileEntry) (fs : FsPtr) : Stage → Prop
  | .reserved => True
  | .asked => call.asked = some fs
  | .answered fileid => call.asked = some fs ∧ call.answer = some fileid
  | .filled fileid => call.asked = some fs ∧ call.answer = some fileid ∧ entry.fileid = fileid

def closeCleared (me : Nat) (file : FileRow) (code : Int) : VfsProg :=
  store (fun s => s.setFile file { s.files file with filesystem := none }) <|
  semaphoreV .openfileTable (finish me code)

def closeVerified (me : Nat) (file : Int) (s : Vfs) : VfsProg :=
  match vfsVerifyOpen s file with
  | none => .panic .verifyOpen
  | some (row, fs) => driver .close fs me (closeCleared me row)

theorem vfsClose_points (me : Nat) (file : Int) :
    vfsClose me file = vfsStartOp me (semaphoreP .openfileTable (look (closeVerified me file))) := by
  apply congrArg (vfsStartOp me)
  apply congrArg (semaphoreP .openfileTable)
  apply congrArg look
  funext s
  unfold closeVerified
  generalize vfsVerifyOpen s file = found
  cases found <;> rfl

inductive Closing (me : Nat) (file : FileRow) : VfsProg → Prop where
  | enter : Closing me file (vfsClose me (file : Nat))
  | lock : Closing me file (semaphoreP .openfileTable (look (closeVerified me (file : Nat))))
  | verify : Closing me file (look (closeVerified me (file : Nat)))
  | call : Closing me file (driver .close fs me (closeCleared me file))
  | await : Closing me file (.await (closeCleared me file))
  | clear : Closing me file (closeCleared me file code)

/-- Where a thread stands and which row it has; `past` says that all rows were held once during
the call. -/
inductive Point (call : Call) (files : FileRow → OpenfileEntry) (past : Prop) (me : Nat) :
    Option FileRow → VfsProg → Prop where
  | calm : opens call.op = false → Calm prog → Point call files past me none prog
  | before : opens call.op = true → Before me prog → Point call files past me none prog
  | failing : opens call.op = true → code < 0 → (code = vfsLimit → call.answer = some vfsLimit ∨ past) →
      Failing me code prog → Point call files past me none prog
  | done : 0 ≤ code → Point call files past me none (.ret code)
  | stopped : Point call files past me held (.panic a)
  | opening : opens call.op = true → (files file).filesystem = some fs → Reached call (files file) fs stage →
      Opening me file fs stage prog → Point call files past me (some file) prog
  | closing : opens call.op = false → (files file).filesystem ≠ none → Closing me file prog →
      Point call files past me (some file) prog

inductive Owner where
  | thread (t : Nat)
  | handle (h : Handle)

structure Fits (past : Nat → Prop) (w : Watch) (owner : FileRow → Option Owner) : Prop where
  usable : w.config.shared.usable = true
  taken : ∀ file, (w.config.shared.files file).filesystem.isSome = (owner file).isSome
  listed : ∀ h, h ∈ w.handles ↔ ∃ file, owner file = some (.handle h)
  once : (w.handles.map (·.file)).Nodup
  kept : ∀ file h, owner file = some (.handle h) → h.file = (file : Nat) ∧
    (w.config.shared.files file).filesystem = h.fs ∧ some (w.config.shared.files file).fileid = h.fileid
  has : ∀ t file, (w.call t).has file = true ↔ owner file = some (.thread t)
  threads : ∀ t, ∃ held, (∀ file, owner file = some (.thread t) ↔ held = some file) ∧
    Point (w.call t) w.config.shared.files (past t) t held (w.config.threads t)

/-! ### Operations that leave the rows alone -/

theorem Keeps.refl (s : Vfs) : Keeps s s := ⟨rfl,fun _ => ⟨rfl,rfl⟩⟩

section Calm
variable {me : Nat} {next : VfsProg}

theorem calm_look {next : Vfs → VfsProg} (later : ∀ s, Calm (next s)) : Calm (look next) :=
  .act Keeps.refl later

theorem calm_store {effect : Vfs → Vfs} (keeps : ∀ s, Keeps s (effect s)) (later : Calm next) :
    Calm (store effect next) :=
  .act keeps fun _ => later

theorem calm_P (later : Calm next) : Calm (semaphoreP x next) :=
  .act (fun _ => ⟨rfl,fun _ => ⟨rfl,rfl⟩⟩) fun _ => later

theorem calm_V (later : Calm next) : Calm (semaphoreV x next) :=
  .act (fun _ => ⟨rfl,fun _ => ⟨rfl,rfl⟩⟩) fun _ => later

theorem keeps_up (s : Vfs) (x : Sem) : Keeps s (s.up x) := ⟨rfl,fun _ => ⟨rfl,rfl⟩⟩

theorem keeps_down (s : Vfs) (x : Sem) : Keeps s (s.down x) := ⟨rfl,fun _ => ⟨rfl,rfl⟩⟩

theorem keeps_startOp (s : Vfs) (me : Nat) :
    Keeps s (if s.usable then { s with ops := s.ops + 1, active := me :: s.active } else s) := by
  split <;> exact ⟨rfl,fun _ => ⟨rfl,rfl⟩⟩

theorem keeps_endOp (s : Vfs) (me : Nat) : Keeps s (s.endOp me) := by
  unfold Vfs.endOp
  dsimp only
  split <;> exact ⟨rfl,fun _ => ⟨rfl,rfl⟩⟩

theorem calm_startOp (later : Calm next) : Calm (vfsStartOp me next) := by
  refine .act (fun s => keeps_startOp s me) fun s => ?_
  split
  · exact later
  · exact .ret

theorem calm_finish : Calm (finish me code) := by
  refine .act (fun s => keeps_endOp s me) fun s => ?_
  split
  · exact .panic
  · exact .ret

theorem calm_finishBoth : Calm (finishBoth me code) := calm_V (calm_V calm_finish)

theorem calm_mount : Calm (vfsMount me fs name) := by
  unfold vfsMount
  split
  · exact .panic
  apply calm_startOp
  apply calm_P
  apply calm_look
  intro s
  split
  · exact calm_V calm_finish
  split
  · exact calm_V calm_finish
  · exact calm_store (fun _ => ⟨rfl,fun _ => ⟨rfl,rfl⟩⟩) (calm_V calm_finish)

theorem calm_unmount : Calm (vfsUnmount me name) := by
  apply calm_startOp
  apply calm_P
  apply calm_look
  intro s
  split
  · exact calm_V calm_finish
  apply calm_P
  apply calm_look
  intro s
  split
  · exact calm_finishBoth
  · exact .call fun _ => calm_store (fun _ => ⟨rfl,fun _ => ⟨rfl,rfl⟩⟩) calm_finishBoth

/-- The position in a file is no part of what its row refers to. -/
theorem keeps_position (s : Vfs) (file : FileRow) (position : Int) :
    Keeps s (s.setFile file { s.files file with seekPosition := position }) := by
  refine ⟨rfl,fun row => ?_⟩
  by_cases same : row = file <;> simp [Vfs.setFile,same]

theorem calm_seek : Calm (vfsSeek me file seekPosition) := by
  apply calm_startOp
  split
  · exact .panic
  apply calm_P
  apply calm_look
  intro s
  split
  · exact .panic
  · exact calm_store (fun _ => keeps_position ..) (calm_V calm_finish)

theorem calm_transfer : Calm (vfsTransfer fn me file buffer size) := by
  apply calm_startOp
  apply calm_look
  intro s
  split
  · exact .panic
  split
  · exact .panic
  apply Calm.call
  intro ret
  split
  · exact calm_P (calm_store (fun _ => keeps_position ..) (calm_V calm_finish))
  · exact calm_finish

theorem calm_onVolume : Calm (onVolume fn me volume) := by
  apply calm_P
  apply calm_look
  intro s
  split
  · exact calm_V calm_finish
  · exact .call fun _ => calm_V calm_finish

theorem calm_onPathname : Calm (onPathname fn me pathname) := by
  apply calm_startOp
  split
  · exact calm_finish
  · exact calm_onVolume

theorem calm_create : Calm (vfsCreate me pathname size) := by
  unfold vfsCreate
  split
  · exact .panic
  · exact calm_onPathname

theorem calm_afterLookup : Calm (afterLookup fn me name whole) := by
  apply calm_startOp
  apply calm_P
  apply calm_P
  split
  · exact calm_look fun _ => calm_finishBoth
  refine .act (fun s => ?_) fun s => ?_
  · split <;> exact ⟨rfl,fun _ => ⟨rfl,rfl⟩⟩
  split
  · exact calm_finishBoth
  · exact calm_V (calm_V (.call fun _ => calm_finish))

end Calm

theorem calm_program (op : Op) (other : opens op = false) (close : ∀ file, op ≠ .close file) (deinit : op ≠ .deinit) :
    Calm (program me op) := by
  cases op with
  | mount => exact calm_mount
  | unmount => exact calm_unmount
  | «open» => contradiction
  | close file => exact absurd rfl (close file)
  | seek => exact calm_seek
  | read => exact calm_transfer
  | write => exact calm_transfer
  | create => exact calm_create
  | remove => exact calm_onPathname
  | getfree => exact calm_startOp calm_onVolume
  | filecount => exact calm_afterLookup
  | file => exact calm_afterLookup
  | deinit => contradiction

theorem Calm.advance (calm : Calm prog) (advanced : Foundation.advance invoke result prog s = some (s', next)) :
    Keeps s s' ∧ Calm next := by
  cases calm with
  | ret => contradiction
  | panic => contradiction
  | act keeps later =>
    simp only [Foundation.advance] at advanced
    split at advanced
    · cases advanced
      exact ⟨keeps s,later s⟩
    · contradiction
  | call later =>
    cases advanced
    refine ⟨?_,.await later⟩
    unfold invoke
    split <;> exact ⟨rfl,fun _ => ⟨rfl,rfl⟩⟩
  | await later =>
    cases advanced
    exact ⟨Keeps.refl s,later result⟩

/-! ### One step -/

def Watch.stepped (w : Watch) (t : Nat) (before : VfsProg) (result : Int) (s : Vfs) (prog : VfsProg) : Watch where
  config := ⟨s,Function.update w.config.threads t prog⟩
  call := Function.update w.call t (((w.call t).step before result w.config.shared s).settle prog)
  handles := handOver ((w.call t).step before result w.config.shared s) prog w.handles

section Steps
variable {past past' : Nat → Prop} {w : Watch} {owner owner' : FileRow → Option Owner} {t : Nat} {s : Vfs} {prog : VfsProg}
  {call : Call} {handles : List Handle} {held : Option FileRow} {file : FileRow}

/-- A thread that does not take the step keeps its row as it is. -/
theorem Point.frame {past past' : Prop} {files files' : FileRow → OpenfileEntry} (point : Point call files past t held prog)
    (later : past → past') (same : ∀ file, held = some file →
      (files' file).filesystem = (files file).filesystem ∧ (files' file).fileid = (files file).fileid) :
    Point call files' past' t held prog := by
  cases point with
  | calm other calm => exact .calm other calm
  | before kind before => exact .before kind before
  | failing kind negative reason failing => exact .failing kind negative (fun limit => (reason limit).imp_right later) failing
  | done proper => exact .done proper
  | stopped => exact .stopped
  | @opening file fs stage _ kind row reached opening =>
    obtain ⟨filesystem,fileid⟩ := same file rfl
    refine .opening kind (filesystem.trans row) ?_ opening
    cases stage <;> simp_all [Reached]
  | @closing file _ kind row closing => exact .closing kind (by rwa [(same file rfl).1]) closing

/-- A step of thread `t`, which changes only rows of its own and rows of nobody. -/
theorem Fits.move (fits : Fits past w owner) (usable : s.usable = true) (later : ∀ u, u ≠ t → past u → past' u)
    (entries : ∀ file u, u ≠ t → owner file = some (.thread u) →
      (s.files file).filesystem = (w.config.shared.files file).filesystem ∧
      (s.files file).fileid = (w.config.shared.files file).fileid)
    (others : ∀ file u, u ≠ t → (owner' file = some (.thread u) ↔ owner file = some (.thread u)))
    (taken : ∀ file, (s.files file).filesystem.isSome = (owner' file).isSome)
    (listed : ∀ h, h ∈ handles ↔ ∃ file, owner' file = some (.handle h))
    (once : (handles.map (·.file)).Nodup)
    (kept : ∀ file h, owner' file = some (.handle h) → h.file = (file : Nat) ∧
      (s.files file).filesystem = h.fs ∧ some (s.files file).fileid = h.fileid)
    (has : ∀ file, call.has file = true ↔ owner' file = some (.thread t))
    (mine : ∀ file, owner' file = some (.thread t) ↔ held = some file)
    (point : Point call s.files (past' t) t held prog) :
    Fits past' ⟨⟨s,Function.update w.config.threads t prog⟩,Function.update w.call t call,handles⟩ owner' := by
  refine ⟨usable,taken,listed,once,kept,fun u file => ?_,fun u => ?_⟩
  · by_cases same : u = t
    · subst same
      simpa using has file
    · simpa [same] using (fits.has u file).trans (others file u same).symm
  · by_cases same : u = t
    · subst same
      exact ⟨held,mine,by simpa using point⟩
    · obtain ⟨theirs,exactly,stands⟩ := fits.threads u
      refine ⟨theirs,fun file => (others file u same).trans (exactly file),?_⟩
      simp only [Function.update_of_ne same]
      apply stands.frame (later u same)
      intro file row
      exact entries file u same ((exactly file).mpr row)

theorem Fits.quiet (fits : Fits past w owner) (keeps : Keeps w.config.shared s)
    (later : ∀ u, u ≠ t → past u → past' u) (has : ∀ file, call.has file = true ↔ owner file = some (.thread t))
    (mine : ∀ file, owner file = some (.thread t) ↔ held = some file)
    (point : Point call s.files (past' t) t held prog) :
    Fits past' ⟨⟨s,Function.update w.config.threads t prog⟩,Function.update w.call t call,w.handles⟩ owner := by
  obtain ⟨usable,rows⟩ := keeps
  refine fits.move (usable.trans fits.usable) later (fun file _ _ _ => rows file) (fun _ _ _ => Iff.rfl) ?_ fits.listed
    fits.once ?_ has mine point
  · intro file
    rw [(rows file).1]
    exact fits.taken file
  · intro file h owned
    rw [(rows file).1,(rows file).2]
    exact fits.kept file h owned

theorem Fits.occupied (fits : Fits past w owner) (owned : owner file = some o) :
    (w.config.shared.files file).filesystem.isSome = true := by
  rw [fits.taken,owned]
  rfl

theorem Fits.has_quiet (fits : Fits past w owner) (keeps : Keeps w.config.shared s) (prog : VfsProg) (result : Int)
    (file : FileRow) : ((w.call t).step prog result w.config.shared s).has file = true ↔ owner file = some (.thread t) := by
  simp only [Call.step,(keeps.2 file).1,Bool.and_eq_true,Bool.or_eq_true,Option.isNone_iff_eq_none,← fits.has]
  constructor
  · rintro ⟨occupied,has | free⟩
    · exact has
    · simp [free] at occupied
  · intro has
    exact ⟨fits.occupied ((fits.has t file).mp has),.inl has⟩

theorem Fits.quietStep (fits : Fits past w owner) (keeps : Keeps w.config.shared s) (later : ∀ u, past u → past' u)
    (mine : ∀ file, owner file = some (.thread t) ↔ held = some file) (rest : idle prog = true → held = none)
    (nothing : ∀ code, returned prog = some code → opens (w.call t).op = true → code < 0)
    (point : Point (((w.call t).step before result w.config.shared s).settle prog) s.files (past' t) t held prog) :
    Fits past' (w.stepped t before result s prog) owner := by
  have handles : handOver ((w.call t).step before result w.config.shared s) prog w.handles = w.handles := by
    unfold handOver
    split
    · next code same =>
      rw [if_neg]
      rintro ⟨kind,proper⟩
      have := nothing code same kind
      omega
    · rfl
  unfold Watch.stepped
  rw [handles]
  apply fits.quiet keeps (fun u _ => later u) _ mine point
  intro file
  unfold Call.settle
  split
  · next idle =>
    rw [mine,rest idle]
    simp
  · exact fits.has_quiet keeps before result file

theorem advance_act {effect : Vfs → Vfs} {next : Vfs → VfsProg}
    (advanced : advance invoke result (.act ready effect next) s = some (s', prog)) : s' = effect s ∧ prog = next s := by
  simp only [advance] at advanced
  split at advanced
  · cases advanced
    exact ⟨rfl,rfl⟩
  · contradiction

theorem freeFileRow_none (full : freeFileRow s = none) (row : FileRow) : (s.files row).filesystem.isSome = true := by
  have := List.find?_eq_none.mp full row (List.mem_finRange row)
  simpa [Option.isSome_iff_ne_none] using this

theorem Fits.anyone (fits : Fits past w owner) (taken : (w.config.shared.files file).filesystem.isSome = true) : Held w file := by
  rw [fits.taken] at taken
  obtain ⟨o,owned⟩ := Option.isSome_iff_exists.mp taken
  cases o with
  | thread t => exact .inr ⟨t,(fits.has t file).mpr owned⟩
  | handle h => exact .inl ⟨h,(fits.listed h).mpr ⟨file,owned⟩,(fits.kept file h owned).1⟩

theorem reached_reserved : Reached call entry fs .reserved := trivial

theorem reached_asked (asked : call.asked = some fs) : Reached call entry fs .asked := asked

theorem reached_answered (asked : call.asked = some fs) (answer : call.answer = some fileid) :
    Reached call entry fs (.answered fileid) :=
  ⟨asked,answer⟩

theorem reached_filled (asked : call.asked = some fs) (answer : call.answer = some fileid) (filled : entry.fileid = fileid) :
    Reached call entry fs (.filled fileid) :=
  ⟨asked,answer,filled⟩

theorem Fits.held_iff (fits : Fits past w owner) :
    (w.config.shared.files file).filesystem.isSome = true ↔ Held w file := by
  refine ⟨fits.anyone,?_⟩
  rintro (⟨h,member,number⟩ | ⟨t,has⟩)
  · obtain ⟨file',owned⟩ := (fits.listed h).mp member
    obtain ⟨number',-⟩ := fits.kept file' h owned
    have same : file' = file := Fin.ext (by omega)
    exact same ▸ fits.occupied owned
  · exact fits.occupied ((fits.has t file).mp has)

theorem Fits.reserve (fits : Fits past w owner) (later : ∀ u, past u → past' u) (kind : opens (w.call t).op = true)
    (mine : ∀ file, owner file ≠ some (.thread t)) (free : (w.config.shared.files file).filesystem = none) :
    Fits past' (w.stepped t before result
      (w.config.shared.setFile file { w.config.shared.files file with filesystem := some fs }) (openReserved t file fs))
      (Function.update owner file (some (.thread t))) := by
  have vacant : owner file = none := by
    have := fits.taken file
    rw [free] at this
    simpa using this.symm
  refine fits.move fits.usable (fun u _ => later u) ?_ ?_ ?_ ?_ fits.once ?_ ?_ ?_
    (.opening kind (by simp [Vfs.setFile]) reached_reserved .unlockFiles)
  · intro file' u _ owned
    have apart : file' ≠ file := by rintro rfl; simp [vacant] at owned
    simp [Vfs.setFile,apart]
  · intro file' u apart
    by_cases same : file' = file
    · simp [same,vacant,Ne.symm apart]
    · simp [same]
  · intro file'
    by_cases same : file' = file
    · simp [same,Vfs.setFile]
    · simpa [same,Vfs.setFile] using fits.taken file'
  · intro h
    refine (fits.listed h).trans (exists_congr fun file' => ?_)
    by_cases same : file' = file <;> simp [same,vacant]
  · intro file' h owned
    by_cases same : file' = file
    · simp [same] at owned
    · simpa [same,Vfs.setFile] using fits.kept file' h (by simpa [same] using owned)
  · intro file'
    simp only [Call.settle,openReserved,semaphoreV,idle,Bool.false_eq_true,if_false,Call.step]
    by_cases same : file' = file
    · simp [same,Vfs.setFile,free]
    · have has := fits.has t file'
      simp only [mine,iff_false] at has
      simp [same,Vfs.setFile,mine,has,Option.isSome_iff_ne_none]
  · intro file'
    by_cases same : file' = file
    · simp [same]
    · simp [same,mine,Ne.symm same]

theorem Fits.clear (fits : Fits past w owner) (later : ∀ u, past u → past' u)
    (mine : ∀ file', owner file' = some (.thread t) ↔ some file = some file') (busy : returned prog = none)
    (point : Point ((w.call t).step before result w.config.shared
      (w.config.shared.setFile file { w.config.shared.files file with filesystem := none }))
      (w.config.shared.setFile file { w.config.shared.files file with filesystem := none }).files (past' t) t none prog) :
    Fits past' (w.stepped t before result
      (w.config.shared.setFile file { w.config.shared.files file with filesystem := none }) prog)
      (Function.update owner file none) := by
  have owned : owner file = some (.thread t) := (mine file).mpr rfl
  have active : idle prog = false := by
    cases prog <;> simp_all [idle,returned]
  unfold Watch.stepped
  simp only [handOver,busy,Call.settle,active,Bool.false_eq_true,if_false]
  refine fits.move fits.usable (fun u _ => later u) ?_ ?_ ?_ ?_ fits.once ?_ ?_ ?_ point
  · intro file' u apart other
    have different : file' ≠ file := by
      rintro rfl
      rw [owned] at other
      cases other
      exact apart rfl
    simp [Vfs.setFile,different]
  · intro file' u apart
    by_cases same : file' = file
    · simp [same,owned,Ne.symm apart]
    · simp [same]
  · intro file'
    by_cases same : file' = file
    · simp [same,Vfs.setFile]
    · simpa [same,Vfs.setFile] using fits.taken file'
  · intro h
    refine (fits.listed h).trans (exists_congr fun file' => ?_)
    by_cases same : file' = file <;> simp [same,owned]
  · intro file' h given
    by_cases same : file' = file
    · simp [same] at given
    · simpa [same,Vfs.setFile] using fits.kept file' h (by simpa [same] using given)
  · intro file'
    by_cases same : file' = file
    · simp [same,Call.step,Vfs.setFile]
    · have has := fits.has t file'
      have taken := fits.taken file'
      have other : owner file' ≠ some (.thread t) := by
        intro equal
        exact same (Option.some.inj ((mine file').mp equal)).symm
      simp only [other,iff_false] at has
      simp [same,Call.step,Vfs.setFile,other,has,Option.isSome_iff_ne_none]
  · intro file'
    by_cases same : file' = file
    · simp [same]
    · simpa [same] using fun equal => same (Option.some.inj ((mine file').mp equal)).symm

theorem Fits.fill (fits : Fits past w owner) (later : ∀ u, past u → past' u) (kind : opens (w.call t).op = true)
    (mine : ∀ file', owner file' = some (.thread t) ↔ some file = some file')
    (row : (w.config.shared.files file).filesystem = some fs)
    (reached : Reached (w.call t) (w.config.shared.files file) fs (.answered fileid)) :
    Fits past' (w.stepped t (openFilled t file fileid) result
      { w.config.shared.setFile file { w.config.shared.files file with fileid := fileid, seekPosition := 0 } with
        handles := (t, (file : Nat)) :: w.config.shared.handles } (finish t (file : Nat))) owner := by
  have filesystem : ∀ file', ((w.config.shared.setFile file { w.config.shared.files file with
      fileid := fileid, seekPosition := 0 }).files file').filesystem = (w.config.shared.files file').filesystem := by
    intro file'
    by_cases same : file' = file <;> simp [Vfs.setFile,same]
  have other : ∀ file' u, owner file' = some u → u ≠ .thread t → ((w.config.shared.setFile file { w.config.shared.files file with
      fileid := fileid, seekPosition := 0 }).files file').fileid = (w.config.shared.files file').fileid := by
    intro file' u owned apart
    have different : file' ≠ file := by
      rintro rfl
      rw [(mine file').mpr rfl] at owned
      cases owned
      exact apart rfl
    simp [Vfs.setFile,different]
  refine fits.move fits.usable (fun u _ => later u) ?_ (fun _ _ _ => Iff.rfl) ?_ fits.listed fits.once ?_ ?_ mine
    (.opening kind ((filesystem file).trans row) (reached_filled reached.1 reached.2 ?_) .leave)
  · intro file' u apart owned
    exact ⟨filesystem file',other file' _ owned (by simpa using apart)⟩
  · intro file'
    exact (congrArg Option.isSome (filesystem file')).trans (fits.taken file')
  · intro file' h owned
    obtain ⟨number,system,fileid⟩ := fits.kept file' h owned
    exact ⟨number,(filesystem file').trans system,by rw [← fileid]; exact congrArg some (other file' _ owned (by simp))⟩
  · intro file'
    rw [← fits.has]
    simp only [Call.settle,finish,vfsEndOp,locked,idle,Bool.false_eq_true,if_false,Call.step]
    have taken : (w.call t).has file' = true → (w.config.shared.files file').filesystem.isSome = true :=
      fun has => fits.occupied ((fits.has t file').mp has)
    rw [filesystem file']
    cases there : (w.config.shared.files file').filesystem with
    | none => simpa [there] using taken
    | some => simp
  · simp [Vfs.setFile]

theorem Fits.giveOut (fits : Fits past w owner) (later : ∀ u, past u → past' u) (kind : opens (w.call t).op = true)
    (mine : ∀ file', owner file' = some (.thread t) ↔ some file = some file') (keeps : Keeps w.config.shared s)
    (row : (w.config.shared.files file).filesystem = some fs)
    (reached : Reached (w.call t) (w.config.shared.files file) fs (.filled fileid)) :
    Fits past' (w.stepped t (finish t (file : Nat)) result s (.ret (file : Nat)))
      (Function.update owner file (some (.handle ⟨(file : Nat),some fs,some fileid⟩))) := by
  obtain ⟨usable,rows⟩ := keeps
  obtain ⟨asked,answer,filled⟩ := reached
  have owned : owner file = some (.thread t) := (mine file).mpr rfl
  have new : handOver ((w.call t).step (finish t (file : Nat)) result w.config.shared s) (.ret (file : Nat)) w.handles =
      ⟨(file : Nat),some fs,some fileid⟩ :: w.handles := by
    have proper : opens ((w.call t).step (finish t (file : Nat)) result w.config.shared s).op = true ∧ (0 : Int) ≤ (file : Nat) :=
      ⟨kind,Int.natCast_nonneg _⟩
    simp only [handOver,returned,if_pos proper]
    simp only [Call.step,finish,vfsEndOp,locked,asked,answer]
  have fresh : ∀ h ∈ w.handles, h.file ≠ (file : Nat) := by
    intro h member equal
    obtain ⟨file',given⟩ := (fits.listed h).mp member
    obtain ⟨number,-⟩ := fits.kept file' h given
    have : file' = file := Fin.ext (by omega)
    rw [this,owned] at given
    cases given
  unfold Watch.stepped
  rw [new]
  refine fits.move (usable.trans fits.usable) (fun u _ => later u) (fun file' _ _ _ => rows file') ?_ ?_ ?_ ?_ ?_ ?_ ?_
    (.done (Int.natCast_nonneg _))
  · intro file' u apart
    by_cases same : file' = file
    · simp [same,owned,Ne.symm apart]
    · simp [same]
  · intro file'
    rw [(rows file').1]
    by_cases same : file' = file
    · simp [same,row]
    · simpa [same] using fits.taken file'
  · intro h
    rw [List.mem_cons,fits.listed]
    constructor
    · rintro (rfl | ⟨file',given⟩)
      · exact ⟨file,by simp⟩
      · have different : file' ≠ file := by rintro rfl; simp [owned] at given
        exact ⟨file',by simpa [different] using given⟩
    · rintro ⟨file',given⟩
      by_cases same : file' = file
      · subst same
        left
        simpa using given.symm
      · exact .inr ⟨file',by simpa [same] using given⟩
  · rw [List.map_cons,List.nodup_cons]
    refine ⟨?_,fits.once⟩
    intro member
    obtain ⟨h,listed,equal⟩ := List.mem_map.mp member
    exact fresh h listed equal
  · intro file' h given
    rw [(rows file').1,(rows file').2]
    by_cases same : file' = file
    · subst same
      obtain rfl : (⟨(file' : Nat),some fs,some fileid⟩ : Handle) = h := by simpa using given
      exact ⟨rfl,row,congrArg some filled⟩
    · exact fits.kept file' h (by simpa [same] using given)
  · intro file'
    simp only [Call.settle,idle,if_true,Bool.false_eq_true,false_iff]
    by_cases same : file' = file
    · simp [same]
    · simpa [same] using fun equal => same (Option.some.inj ((mine file').mp equal)).symm
  · intro file'
    by_cases same : file' = file
    · simp [same]
    · simpa [same] using fun equal => same (Option.some.inj ((mine file').mp equal)).symm

@[simp] theorem settle_op (call : Call) (prog : VfsProg) : (call.settle prog).op = call.op := by
  unfold Call.settle
  split <;> rfl

@[simp] theorem settle_asked (call : Call) (prog : VfsProg) : (call.settle prog).asked = call.asked := by
  unfold Call.settle
  split <;> rfl

@[simp] theorem settle_answer (call : Call) (prog : VfsProg) : (call.settle prog).answer = call.answer := by
  unfold Call.settle
  split <;> rfl

@[simp] theorem step_op (call : Call) (prog : VfsProg) (result : Int) (s s' : Vfs) : (call.step prog result s s').op = call.op := rfl

theorem reservation_error (chosen : reservation s volume = .error code) :
    code < 0 ∧ (code = vfsLimit → freeFileRow s = none) := by
  unfold reservation at chosen
  revert chosen
  generalize freeFileRow s = free
  generalize vfsGetFilesystem s volume = found
  rcases free with _ | _ <;> rcases found with _ | _ <;> simp <;> rintro rfl <;> decide

theorem Fits.beforeStep (fits : Fits past w owner) (later : ∀ u, past u → past' u) (full : (∀ row, Held w row) → past' t)
    (kind : opens (w.call t).op = true) (mine : ∀ file, owner file = some (.thread t) ↔ none = some file)
    (at_ : Before t before) (advanced : advance invoke result before w.config.shared = some (s, prog)) :
    ∃ owner', Fits past' (w.stepped t before result s prog) owner' := by
  cases at_ with
  | @enter pathname =>
    obtain ⟨rfl,rfl⟩ := advance_act (vfsOpen_points t pathname ▸ advanced)
    have keeps := keeps_startOp w.config.shared t
    rw [if_pos fits.usable] at keeps ⊢
    rw [if_pos fits.usable]
    refine ⟨owner,?_⟩
    split
    · apply fits.quietStep keeps later mine (fun _ => rfl) (fun _ same => by cases same)
      exact .failing (by simpa using kind) (by decide) (fun equal => absurd equal (by decide)) .leave
    · apply fits.quietStep keeps later mine (fun _ => rfl) (fun _ same => by cases same)
      exact .before (by simpa using kind) .lockTable
  | lockTable =>
    obtain ⟨rfl,rfl⟩ := advance_act advanced
    refine ⟨owner,fits.quietStep (keeps_down ..) later mine (fun _ => rfl) (fun _ same => by cases same) ?_⟩
    exact .before (by simpa using kind) .lockFiles
  | lockFiles =>
    obtain ⟨rfl,rfl⟩ := advance_act advanced
    refine ⟨owner,fits.quietStep (keeps_down ..) later mine (fun _ => rfl) (fun _ same => by cases same) ?_⟩
    exact .before (by simpa using kind) .scan
  | @scan volume =>
    obtain ⟨after,rest⟩ := advance_act advanced
    rw [after,rest]
    generalize chosen : reservation w.config.shared volume = choice
    cases choice with
    | error code =>
      obtain ⟨negative,limit⟩ := reservation_error chosen
      refine ⟨owner,fits.quietStep (Keeps.refl _) later mine (fun _ => rfl) (fun _ same => by cases same) ?_⟩
      refine .failing (by simpa using kind) negative (fun equal => .inr (full fun row => ?_)) .unlockBoth
      exact fits.anyone (freeFileRow_none (limit equal) row)
    | ok row =>
      obtain ⟨file,fs⟩ := row
      have nothing : ∀ file, owner file ≠ some (.thread t) := by
        intro file owned
        simpa using (mine file).mp owned
      exact ⟨_,fits.reserve later kind nothing (Unmount.reservation_ok chosen).1⟩

theorem Fits.failingStep (fits : Fits past w owner) (later : ∀ u, past u → past' u) (kind : opens (w.call t).op = true)
    (negative : code < 0) (reason : code = vfsLimit → (w.call t).answer = some vfsLimit ∨ past t)
    (mine : ∀ file, owner file = some (.thread t) ↔ none = some file) (at_ : Failing t code before)
    (advanced : advance invoke result before w.config.shared = some (s, prog)) :
    Fits past' (w.stepped t before result s prog) owner := by
  have reason' : code = vfsLimit → (w.call t).answer = some vfsLimit ∨ past' t := fun limit => (reason limit).imp_right (later t)
  cases at_ with
  | unlockBoth =>
    obtain ⟨rfl,rfl⟩ := advance_act advanced
    apply fits.quietStep (keeps_up ..) later mine (fun _ => rfl) (fun _ same => by cases same)
    exact .failing (by simpa using kind) negative (by rw [settle_answer]; exact reason') .unlockTable
  | unlockTable =>
    obtain ⟨rfl,rfl⟩ := advance_act advanced
    apply fits.quietStep (keeps_up ..) later mine (fun _ => rfl) (fun _ same => by cases same)
    exact .failing (by simpa using kind) negative (by rw [settle_answer]; exact reason') .leave
  | unlockFiles =>
    obtain ⟨rfl,rfl⟩ := advance_act advanced
    apply fits.quietStep (keeps_up ..) later mine (fun _ => rfl) (fun _ same => by cases same)
    exact .failing (by simpa using kind) negative (by rw [settle_answer]; exact reason') .leave
  | leave =>
    obtain ⟨rfl,rfl⟩ := advance_act advanced
    split
    · exact fits.quietStep (keeps_endOp ..) later mine (fun _ => rfl) (fun _ same => by cases same) .stopped
    · apply fits.quietStep (keeps_endOp ..) later mine (fun _ => rfl) (by simpa [returned] using fun _ => negative)
      exact .failing (by simpa using kind) negative (by rw [settle_answer]; exact reason') .ret
  | ret => contradiction

theorem Fits.openingStep (fits : Fits past w owner) (later : ∀ u, past u → past' u) (kind : opens (w.call t).op = true)
    (mine : ∀ file', owner file' = some (.thread t) ↔ some file = some file')
    (row : (w.config.shared.files file).filesystem = some fs)
    (reached : Reached (w.call t) (w.config.shared.files file) fs stage) (at_ : Opening t file fs stage before)
    (advanced : advance invoke result before w.config.shared = some (s, prog)) :
    ∃ owner', Fits past' (w.stepped t before result s prog) owner' := by
  cases at_ with
  | unlockFiles =>
    obtain ⟨rfl,rfl⟩ := advance_act advanced
    refine ⟨owner,fits.quietStep (keeps_up ..) later mine (fun idle => by cases idle) (fun _ same => by cases same) ?_⟩
    exact .opening (by simpa using kind) row reached_reserved .unlockTable
  | unlockTable =>
    obtain ⟨rfl,rfl⟩ := advance_act advanced
    refine ⟨owner,fits.quietStep (keeps_up ..) later mine (fun idle => by cases idle) (fun _ same => by cases same) ?_⟩
    exact .opening (by simpa using kind) row reached_reserved .call
  | call =>
    cases advanced
    refine ⟨owner,fits.quietStep (Keeps.refl _) later mine (fun idle => by cases idle) (fun _ same => by cases same) ?_⟩
    exact .opening (by simpa using kind) row (reached_asked (settle_asked ..)) .await
  | await =>
    cases advanced
    refine ⟨owner,?_⟩
    unfold openAnswered
    split
    · next negative =>
      apply fits.quietStep (Keeps.refl _) later mine (fun idle => by cases idle) (fun _ same => by cases same)
      exact .opening (by simpa using kind) row (reached_answered ((settle_asked ..).trans reached) (settle_answer ..)) (.lock negative)
    · apply fits.quietStep (Keeps.refl _) later mine (fun idle => by cases idle) (fun _ same => by cases same)
      exact .opening (by simpa using kind) row (reached_answered ((settle_asked ..).trans reached) (settle_answer ..)) .fill
  | lock negative =>
    obtain ⟨rfl,rfl⟩ := advance_act advanced
    refine ⟨owner,fits.quietStep (keeps_down ..) later mine (fun idle => by cases idle) (fun _ same => by cases same) ?_⟩
    exact .opening (by simpa using kind) row
      (reached_answered ((settle_asked ..).trans reached.1) ((settle_answer ..).trans reached.2)) (.clear negative)
  | clear negative =>
    obtain ⟨rfl,rfl⟩ := advance_act advanced
    refine ⟨_,fits.clear later mine rfl ?_⟩
    exact .failing kind negative (fun limit => .inl (limit ▸ reached.2)) .unlockFiles
  | fill =>
    obtain ⟨rfl,rfl⟩ := advance_act advanced
    exact ⟨owner,fits.fill later kind mine row reached⟩
  | leave =>
    obtain ⟨rfl,rfl⟩ := advance_act advanced
    split
    · exact ⟨owner,fits.quietStep (keeps_endOp ..) later mine (fun idle => by cases idle) (fun _ same => by cases same) .stopped⟩
    · exact ⟨_,fits.giveOut later kind mine (keeps_endOp ..) row reached⟩

theorem verifyOpen_row (taken : (s.files file).filesystem = some fs) :
    vfsVerifyOpen s ((file : Nat) : Int) = some (file, fs) := by
  have inside : 0 ≤ ((file : Nat) : Int) ∧ ((file : Nat) : Int) < configMaxOpenFiles := ⟨by omega,by have := file.isLt; omega⟩
  rw [vfsVerifyOpen,dif_pos inside]
  simp [taken]

theorem Fits.closingStep (fits : Fits past w owner) (later : ∀ u, past u → past' u) (kind : opens (w.call t).op = false)
    (mine : ∀ file', owner file' = some (.thread t) ↔ some file = some file')
    (row : (w.config.shared.files file).filesystem ≠ none) (at_ : Closing t file before)
    (advanced : advance invoke result before w.config.shared = some (s, prog)) :
    ∃ owner', Fits past' (w.stepped t before result s prog) owner' := by
  cases at_ with
  | enter =>
    obtain ⟨rfl,rfl⟩ := advance_act (vfsClose_points t _ ▸ advanced)
    have keeps := keeps_startOp w.config.shared t
    rw [if_pos fits.usable] at keeps ⊢
    rw [if_pos fits.usable]
    refine ⟨owner,fits.quietStep keeps later mine (fun idle => by cases idle) (fun _ same => by cases same) ?_⟩
    exact .closing (by simpa using kind) row .lock
  | lock =>
    obtain ⟨rfl,rfl⟩ := advance_act advanced
    refine ⟨owner,fits.quietStep (keeps_down ..) later mine (fun idle => by cases idle) (fun _ same => by cases same) ?_⟩
    exact .closing (by simpa using kind) row .verify
  | verify =>
    obtain ⟨after,rest⟩ := advance_act advanced
    obtain ⟨fs,taken⟩ := Option.ne_none_iff_exists'.mp row
    rw [after,rest,closeVerified,verifyOpen_row taken]
    refine ⟨owner,fits.quietStep (Keeps.refl _) later mine (fun idle => by cases idle) (fun _ same => by cases same) ?_⟩
    exact .closing (by simpa using kind) row .call
  | call =>
    cases advanced
    refine ⟨owner,fits.quietStep (Keeps.refl _) later mine (fun idle => by cases idle) (fun _ same => by cases same) ?_⟩
    exact .closing (by simpa using kind) row .await
  | await =>
    cases advanced
    refine ⟨owner,fits.quietStep (Keeps.refl _) later mine (fun idle => by cases idle) (fun _ same => by cases same) ?_⟩
    exact .closing (by simpa using kind) row .clear
  | clear =>
    obtain ⟨rfl,rfl⟩ := advance_act advanced
    exact ⟨_,fits.clear later mine rfl (.calm kind (calm_V calm_finish))⟩

theorem Fits.step (fits : Fits past w owner) (later : ∀ u, past u → past' u) (full : (∀ row, Held w row) → past' t)
    (next : watch (.step t result) w = some w') : ∃ owner', Fits past' w' owner' := by
  obtain ⟨c,stepped,rfl⟩ := Option.map_eq_some_iff.mp next
  obtain ⟨⟨s,prog⟩,advanced,rfl⟩ := Option.map_eq_some_iff.mp stepped
  simp only [Function.update_self]
  obtain ⟨held,mine,point⟩ := fits.threads t
  generalize before : w.config.threads t = start at point advanced ⊢
  cases point with
  | calm kind calm =>
    obtain ⟨keeps,rest⟩ := calm.advance advanced
    refine ⟨owner,fits.quietStep keeps later mine (fun _ => rfl) ?_ (.calm (by simpa using kind) rest)⟩
    simp [kind]
  | before kind at_ => exact fits.beforeStep later full kind mine at_ advanced
  | failing kind negative reason at_ => exact ⟨owner,fits.failingStep later kind negative reason mine at_ advanced⟩
  | done => contradiction
  | stopped => contradiction
  | opening kind row reached at_ => exact fits.openingStep later kind mine row reached at_ advanced
  | closing kind row at_ => exact fits.closingStep later kind mine row at_ advanced

theorem Point.at_rest {past : Prop} {files : FileRow → OpenfileEntry} (point : Point call files past t held prog)
    (rest : idle prog = true) : held = none := by
  cases point with
  | calm => rfl
  | before => rfl
  | failing => rfl
  | done => rfl
  | stopped => contradiction
  | opening _ _ _ at_ => cases at_ <;> contradiction
  | closing _ _ at_ => cases at_ <;> contradiction

theorem Fits.takeBack (fits : Fits past w owner) (later : ∀ u, u ≠ t → past u → past' u) (keeps : Keeps w.config.shared s)
    (mine : ∀ file, owner file ≠ some (.thread t)) (owned : owner file = some (.handle h)) :
    Fits past' ⟨⟨s,Function.update w.config.threads t (vfsClose t (file : Nat))⟩,
      Function.update w.call t (.start (.close (file : Nat))),giveUp (.close (file : Nat)) w.handles⟩
      (Function.update owner file (some (.thread t))) := by
  obtain ⟨usable,rows⟩ := keeps
  have occupied : (s.files file).filesystem ≠ none := by
    rw [(rows file).1,← Option.isSome_iff_ne_none]
    exact fits.occupied owned
  refine fits.move (usable.trans fits.usable) later (fun file' _ _ _ => rows file') ?_ ?_ ?_
    (fits.once.sublist (List.Sublist.map _ List.filter_sublist)) ?_ ?_ ?_ (.closing rfl occupied .enter)
  · intro file' u apart
    by_cases same : file' = file
    · simp [same,owned,Ne.symm apart]
    · simp [same]
  · intro file'
    by_cases same : file' = file
    · simpa [same,Option.isSome_iff_ne_none] using occupied
    · simpa [same,(rows file').1] using fits.taken file'
  · intro h'
    rw [giveUp,List.mem_filter,fits.listed]
    constructor
    · rintro ⟨⟨file',given⟩,different⟩
      have number := (fits.kept file' h' given).1
      have apart : file' ≠ file := by rintro rfl; simp [number] at different
      exact ⟨file',by simpa [apart] using given⟩
    · rintro ⟨file',given⟩
      have apart : file' ≠ file := by rintro rfl; simp at given
      have given : owner file' = some (.handle h') := by simpa [apart] using given
      have number := (fits.kept file' h' given).1
      refine ⟨⟨file',given⟩,?_⟩
      rw [decide_eq_true_eq,number]
      intro equal
      exact apart (Fin.ext (by omega))
  · intro file' h' given
    by_cases same : file' = file
    · simp [same] at given
    · rw [(rows file').1,(rows file').2]
      exact fits.kept file' h' (by simpa [same] using given)
  · intro file'
    by_cases same : file' = file
    · simp [same,Call.start]
    · simp only [Call.start,Function.update_of_ne same,mine,iff_false,beq_iff_eq]
      intro equal
      exact same (Fin.ext (by omega))
  · intro file'
    by_cases same : file' = file
    · simp [same]
    · simp [same,mine,Ne.symm same]

theorem enter_keeps (entered : enter t op s = some s') : Keeps s s' := by
  unfold enter at entered
  split at entered
  · split at entered
    · contradiction
    · cases entered
      exact ⟨rfl,fun _ => ⟨rfl,rfl⟩⟩
  all_goals
    cases entered
    exact ⟨rfl,fun _ => ⟨rfl,rfl⟩⟩

/-- Only `vfs_close` starts with a row. -/
theorem start_other (handles : List Handle) (other : ∀ file, op ≠ .close file) :
    (Call.start op).has = (fun _ => false) ∧ giveUp op handles = handles := by
  cases op with
  | close file => exact absurd rfl (other file)
  | _ => exact ⟨rfl,rfl⟩

theorem program_close (t : Nat) (file : Int) : program t (.close file) = vfsClose t file := rfl

theorem Fits.start (fits : Fits past w owner) (later : ∀ u, u ≠ t → past u → past' u) (closes : Closes (.start t op) w)
    (next : watch (.start t op) w = some w') : ∃ owner', Fits past' w' owner' := by
  obtain ⟨c,started,rfl⟩ := Option.map_eq_some_iff.mp next
  simp only [Fs.step,Foundation.move] at started
  split at started
  case isFalse => contradiction
  case isTrue rest =>
  obtain ⟨s,entered,rfl⟩ := Option.map_eq_some_iff.mp started
  have keeps := enter_keeps entered
  obtain ⟨held,exactly,point⟩ := fits.threads t
  obtain rfl := point.at_rest rest
  have mine : ∀ file, owner file ≠ some (.thread t) := by
    intro file owned
    simpa using (exactly file).mp owned
  by_cases close : ∃ file, op = .close file
  · obtain ⟨n,rfl⟩ := close
    obtain ⟨h,member,rfl⟩ := closes
    obtain ⟨file,owned⟩ := (fits.listed h).mp member
    obtain ⟨number,-⟩ := fits.kept file h owned
    rw [number,program_close]
    exact ⟨_,fits.takeBack later keeps mine owned⟩
  · have nothing : ∀ file, (Call.start op).has file = true ↔ owner file = some (.thread t) := by
      intro file
      rw [(start_other w.handles fun file equal => close ⟨file,equal⟩).1]
      simp [mine]
    rw [(start_other w.handles fun file equal => close ⟨file,equal⟩).2]
    refine ⟨owner,fits.quiet keeps later nothing exactly ?_⟩
    cases kind : opens op with
    | false =>
      have deinit : op ≠ .deinit := by rintro rfl; exact closes
      exact .calm kind (calm_program op kind (fun file equal => close ⟨file,equal⟩) deinit)
    | true =>
      unfold opens at kind
      split at kind
      · exact .before rfl .enter
      · contradiction

end Steps

/-! ### Runs -/

/-- All rows were held in a state of the thread's current call. -/
def WasFull (moves : List VfsMove) (t : Nat) : Prop :=
  ∃ before after v, moves = before ++ after ∧ run watch before start = some v ∧ (∀ row, Held v row) ∧
    ∀ op, Move.start t op ∉ after

theorem WasFull.later (past : WasFull moves t) (same : ∀ op, m ≠ Move.start t op) : WasFull (moves ++ [m]) t := by
  obtain ⟨before,after,v,rfl,ran,full,call⟩ := past
  refine ⟨before,after ++ [m],v,by simp,ran,full,fun op member => ?_⟩
  rcases List.mem_append.mp member with old | new
  · exact call op old
  · exact same op (List.mem_singleton.mp new).symm

theorem start_fits : Fits (WasFull []) start fun _ => none := by
  refine ⟨rfl,fun _ => rfl,by simp [start],by simp [start],by simp,by simp [start],fun t => ?_⟩
  exact ⟨none,by simp,.calm rfl .ret⟩

/-- The run so far leads to the state, and its rows are in good hands. -/
def Traced (moves : List VfsMove) (w : Watch) : Prop :=
  run watch moves start = some w ∧ ∃ owner, Fits (WasFull moves) w owner

theorem run_traced (ran : run watch moves start = some w) (closes : Meets watch Closes moves start) :
    Traced moves w := by
  apply run_history _ (show Traced [] start from ⟨rfl,_,start_fits⟩) closes ran
  rintro past m v v' ⟨reached,owner,fits⟩ ok next
  refine ⟨by simp [run_append,reached,next],?_⟩
  cases m with
  | start t op =>
    apply fits.start _ ok next
    intro u apart full
    apply full.later
    intro op' equal
    cases equal
    exact apart rfl
  | step t result =>
    apply fits.step _ _ next
    · intro u full
      exact full.later fun _ equal => nomatch equal
    · intro full
      exact ⟨past,[.step t result],v,rfl,reached,full,by simp⟩

/-- In every run of VFS without a forced unmount: open handles are distinct rows that keep
what `vfs_open` has obtained, a row is not `NULL` just when it is held, and a `vfs_open`
finds no row only when all are held. -/
theorem open_files_unique (ran : run watch moves start = some w) (closes : Meets watch Closes moves start) :
    (w.handles.map (·.file)).Nodup ∧
    (∀ h ∈ w.handles, ∃ row : FileRow, h.file = (row : Nat) ∧ (w.config.shared.files row).filesystem = h.fs ∧ h.fs ≠ none ∧
      some (w.config.shared.files row).fileid = h.fileid) ∧
    (∀ row, (w.config.shared.files row).filesystem ≠ none ↔ Held w row) ∧
    (∀ row t u, (w.call t).has row = true → (w.call u).has row = true → t = u) ∧
    (∀ row t, (w.call t).has row = true → idle (w.config.threads t) = false ∧ ∀ h ∈ w.handles, h.file ≠ (row : Nat)) ∧
    ∀ t, opens (w.call t).op = true → returned (w.config.threads t) = some vfsLimit →
      (w.call t).answer = some vfsLimit ∨ WasFull moves t := by
  obtain ⟨-,owner,fits⟩ := run_traced ran closes
  refine ⟨fits.once,?_,?_,?_,?_,?_⟩
  · intro h member
    obtain ⟨row,owned⟩ := (fits.listed h).mp member
    obtain ⟨number,system,fileid⟩ := fits.kept row h owned
    refine ⟨row,number,system,?_,fileid⟩
    rw [← system,← Option.isSome_iff_ne_none]
    exact fits.occupied owned
  · intro row
    rw [← Option.isSome_iff_ne_none]
    exact fits.held_iff
  · intro row t u first second
    have owned := (fits.has t row).mp first
    rw [(fits.has u row).mp second] at owned
    cases owned
    rfl
  · intro row t has
    have owned := (fits.has t row).mp has
    constructor
    · obtain ⟨held,mine,point⟩ := fits.threads t
      by_contra rest
      have nothing := point.at_rest (by simpa using rest)
      rw [nothing] at mine
      simpa using (mine row).mp owned
    · intro h member number
      obtain ⟨row',given⟩ := (fits.listed h).mp member
      obtain ⟨number',-⟩ := fits.kept row' h given
      have same : row' = row := Fin.ext (by omega)
      rw [same,owned] at given
      cases given
  · intro t kind limit
    obtain ⟨held,-,point⟩ := fits.threads t
    generalize w.config.threads t = prog at point limit
    cases point with
    | calm other => simp [other] at kind
    | before _ at_ => cases at_ <;> contradiction
    | failing _ negative reason at_ =>
      cases at_ with
      | ret =>
        cases limit
        exact reason rfl
      | _ => contradiction
    | done proper =>
      cases limit
      contradiction
    | stopped => contradiction
    | opening _ _ _ at_ => cases at_ <;> contradiction
    | closing _ _ at_ => cases at_ <;> contradiction

instance (m : VfsMove) (w : Watch) : Decidable (Closes m w) := by
  unfold Closes
  split <;> infer_instance

/-- A volume is mounted and a file opened; another thread is in the middle of a second open. -/
def openedRun : List VfsMove :=
  .start 0 (.mount 1 [65]) :: List.replicate 6 (.step 0 0) ++
  .start 1 (.open [91, 65, 93, 102]) :: List.replicate 10 (.step 1 5) ++
  .start 2 (.open [91, 65, 93, 103]) :: List.replicate 4 (.step 2 0)

theorem open_files_unique_opened : ∃ w, run watch openedRun start = some w ∧ (w.handles.map (·.file)) = [0] ∧
    (w.call 2).has 1 = true ∧ (w.config.shared.files 1).filesystem ≠ none ∧
    ∀ h ∈ w.handles, ∃ row : FileRow, h.file = (row : Nat) ∧ some (w.config.shared.files row).fileid = h.fileid := by
  have reached : ((run watch openedRun start).any fun w =>
      decide (w.handles.map (·.file) = [0] ∧ (w.call 2).has 1 = true)) = true := by
    decide +kernel
  obtain ⟨w,ran,facts⟩ := (Option.any_eq_true _ _).mp reached
  obtain ⟨handles,has⟩ := decide_eq_true_eq.mp facts
  obtain ⟨-,kept,exactly,-⟩ := open_files_unique ran (by decide +kernel)
  refine ⟨w,ran,handles,has,(exactly 1).mpr (.inr ⟨2,has⟩),fun h member => ?_⟩
  obtain ⟨row,number,-,-,fileid⟩ := kept h member
  exact ⟨row,number,fileid⟩

/-- The driver's open function answers `VFS_LIMIT`. -/
def refusedRun : List VfsMove :=
  .start 0 (.mount 1 [65]) :: List.replicate 6 (.step 0 0) ++
  .start 1 (.open [91, 65, 93, 102]) :: List.replicate 12 (.step 1 (-7))

theorem limit_from_driver : ∃ w, run watch refusedRun start = some w ∧ Meets watch Closes refusedRun start ∧
    opens (w.call 1).op = true ∧ returned (w.config.threads 1) = some vfsLimit ∧
    ∀ before after v, refusedRun = before ++ after → run watch before start = some v → ¬Held v 1 := by
  have closes : Meets watch Closes refusedRun start := by decide +kernel
  have reached : ((run watch refusedRun start).any fun w =>
      decide (opens (w.call 1).op = true ∧ returned (w.config.threads 1) = some vfsLimit)) = true := by
    decide +kernel
  have free : ∀ n ≤ refusedRun.length, ((run watch (refusedRun.take n) start).all fun v =>
      (v.config.shared.files 1).filesystem.isNone && decide (Meets watch Closes (refusedRun.take n) start)) = true := by
    decide +kernel
  obtain ⟨w,ran,facts⟩ := (Option.any_eq_true _ _).mp reached
  obtain ⟨kind,limit⟩ := decide_eq_true_eq.mp facts
  refine ⟨w,ran,closes,kind,limit,fun before after v split there held => ?_⟩
  have part : refusedRun.take before.length = before := by simp [split]
  have now := free before.length (by simp [split])
  rw [part,there,Option.all_some,Bool.and_eq_true,decide_eq_true_eq] at now
  obtain ⟨-,owner,fits⟩ := run_traced there now.2
  have taken := fits.held_iff.mpr held
  exact Option.isSome_iff_ne_none.mp taken (Option.isNone_iff_eq_none.mp now.1)

end Buenos.Fs.OpenFiles
