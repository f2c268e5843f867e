import Buenos.Fs.VfsOrder
import Buenos.Fs.VfsUnmount

/-! VFS over TFS volumes: a driver call is inside the lock of its volume while the disk serves
its requests. Whatever threads are doing, one of them can go on. -/
namespace Buenos.Fs.Progress

open Buenos.Foundation

/-- `lock` are the values of the `tfs->lock` semaphores. `within` is the volume whose lock a
driver call holds, with the number of its disk requests still to come. `destroyed` are the
volumes whose lock `tfs_unmount` has destroyed. -/
structure Volumes where
  config : VfsConfig
  lock : FsPtr → Nat
  within : Nat → Option (FsPtr × Nat)
  destroyed : List FsPtr

inductive VolumeMove where
  | start (t : Nat) (op : Op)
  | act (t : Nat)
  | enter (t : Nat) (requests : Nat)
  | request (t : Nat)
  | leave (t : Nat) (result : Int)

/-- `tfs_unmount` takes the lock and destroys it. -/
def destroys : DriverFn → Bool
  | .unmount | .forcedUnmount => true
  | _ => false

/-- Every function of TFS but `tfs_close` begins with a `semaphore_P` on the lock of its volume,
makes its disk requests and ends with a `semaphore_V`. -/
def enterDriver (t requests : Nat) (e : DriverCall) (w : Volumes) (c : VfsConfig) : Option Volumes :=
  if e.fn = .close then some { w with config := c }
  else if w.lock e.fs = 0 then none
  else if destroys e.fn then
    some { w with config := c, lock := Function.update w.lock e.fs 0, destroyed := e.fs :: w.destroyed }
  else some { w with
    config := c, lock := Function.update w.lock e.fs (w.lock e.fs - 1)
    within := Function.update w.within t (some (e.fs, requests)) }

def leaveDriver (t : Nat) (w : Volumes) (c : VfsConfig) : Option Volumes :=
  match w.within t with
  | none => some { w with config := c }
  | some (fs, 0) => some { w with
    config := c, lock := Function.update w.lock fs (w.lock fs + 1), within := Function.update w.within t none }
  | some (_, _ + 1) => none

def volumeStep : VolumeMove → Volumes → Option Volumes
  | .start t op, w => (step (.start t op) w.config).map fun c => { w with config := c }
  | .act t, w => match w.config.threads t with
    | .act _ _ _ => (step (.step t 0) w.config).map fun c => { w with config := c }
    | _ => none
  | .enter t requests, w => match w.config.threads t with
    | .call e _ => (step (.step t 0) w.config).bind (enterDriver t requests e w)
    | _ => none
  | .request t, w => match w.within t with
    | some (fs, n + 1) => some { w with within := Function.update w.within t (some (fs, n)) }
    | _ => none
  | .leave t result, w => match w.config.threads t with
    | .await _ => (step (.step t result) w.config).bind (leaveDriver t w)
    | _ => none

def initialVolumes : Volumes := ⟨initial,fun _ => 1,fun _ => none,[]⟩

/-- Callers use only handles that they opened themselves, a filesystem that is mounted is a new
one, and no `vfs_unmount` reaches the driver while a `vfs_filecount` or `vfs_file` on the same
filesystem is between its lookup and its driver call. -/
def Permitted : VolumeMove → Volumes → Prop
  | .start _ .deinit, _ => True
  | .start t op, w => Unmount.DisciplinedStart t w.config.shared op
  | .enter t _, w => match w.config.threads t with
    | .call e _ => Unmount.spares e w.config.shared
    | _ => True
  | _, _ => True

/-- The thread can take its next step, whatever the driver decides. -/
def CanStep (w : Volumes) (t : Nat) : Prop :=
  (volumeStep (.act t) w).isSome = true ∨ (∀ requests, (volumeStep (.enter t requests) w).isSome = true) ∨
  (volumeStep (.request t) w).isSome = true ∨ ∀ result, (volumeStep (.leave t result) w).isSome = true

/-! ### Steps that are possible -/

section Possible
variable {w : Volumes} {t : Nat}

theorem act_possible (at_ : w.config.threads t = .act ready effect next) (enabled : ready w.config.shared = true) :
    CanStep w t := by
  left
  simp [volumeStep,at_,step,move,advance,enabled]

theorem await_possible (at_ : w.config.threads t = .await next) : CanStep w t := by
  cases inside : w.within t with
  | none =>
    right; right; right
    intro result
    simp [volumeStep,at_,step,move,advance,leaveDriver,inside]
  | some holding =>
    obtain ⟨fs,n⟩ := holding
    cases n with
    | zero =>
      right; right; right
      intro result
      simp [volumeStep,at_,step,move,advance,leaveDriver,inside]
    | succ n =>
      right; right; left
      simp [volumeStep,inside]

theorem call_possible (at_ : w.config.threads t = .call e next) (free : w.lock e.fs ≠ 0) : CanStep w t := by
  right; left
  intro requests
  simp only [volumeStep,at_,step,move,advance,Option.map_some,Option.bind_some,enterDriver]
  split
  · rfl
  · split <;> rfl

end Possible

/-! ### Who can go on -/

section Ready
variable {t : Nat} {l : Order.Locks} {ready : Vfs → Bool} {effect : Vfs → Vfs} {next : Vfs → VfsProg} {s : Vfs}

theorem ready_files (type : Order.Typed t l (.act ready effect next)) (files : l.files = true) : ready s = true := by
  cases type with
  | act always => exact always s
  | op => contradiction
  | wake => contradiction
  | lockOp => contradiction
  | lockTable => contradiction
  | lockFiles => contradiction
  | unlockOp => rfl
  | unlockTable => rfl
  | unlockFiles => rfl

theorem ready_table (type : Order.Typed t l (.act ready effect next)) (table : l.table = true)
    (free : 0 < s.sem .openfileTable) : ready s = true := by
  cases type with
  | act always => exact always s
  | op => contradiction
  | wake => contradiction
  | lockOp => contradiction
  | lockTable => contradiction
  | lockFiles => simpa using free
  | unlockOp => rfl
  | unlockTable => rfl
  | unlockFiles => rfl

theorem ready_op (type : Order.Typed t l (.act ready effect next)) (op : l.op = true)
    (table : 0 < s.sem .vfsTable) (files : 0 < s.sem .openfileTable) : ready s = true := by
  cases type with
  | act always => exact always s
  | op => contradiction
  | wake => contradiction
  | lockOp => contradiction
  | lockTable => simpa using table
  | lockFiles => simpa using files
  | unlockOp => rfl
  | unlockTable => rfl
  | unlockFiles => rfl

theorem ready_free (type : Order.Typed t l (.act ready effect next)) (op : 0 < s.sem .op)
    (table : 0 < s.sem .vfsTable) (files : 0 < s.sem .openfileTable) :
    ready s = true ∨ ∃ later, Prog.act ready effect next = semaphoreP .unmount later := by
  cases type with
  | act always => exact .inl (always s)
  | op => exact .inl (by simpa using op)
  | wake => exact .inr ⟨_,rfl⟩
  | lockOp => exact .inl (by simpa using op)
  | lockTable => exact .inl (by simpa using table)
  | lockFiles => exact .inl (by simpa using files)
  | unlockOp => exact .inl rfl
  | unlockTable => exact .inl rfl
  | unlockFiles => exact .inl rfl

end Ready

def taken (x : Sem) : Vfs := { initial.shared with sem := fun y => if y = x then 0 else 1 }

theorem wake_phase (type : Deinit.Typed t phase prog) (at_ : prog = semaphoreP .unmount later) : phase = .waiting := by
  cases type with
  | wake => rfl
  | act _ same =>
    injection at_ with _ changes _
    have before := (same { initial.shared with sem := fun _ => 1 }).2.2.2.2.2
    rw [changes] at before
    simp [Vfs.down] at before
  | ret => cases at_
  | panic => cases at_
  | call => cases at_
  | await => cases at_
  | _ =>
    injection at_ with enabled _ _
    have := congrFun enabled (taken .unmount)
    simp [taken] at this

theorem table_phase (type : Deinit.Typed t phase prog) (at_ : prog = semaphoreP .vfsTable later) :
    phase = .inside ∨ phase = .forcing := by
  cases type with
  | act inside => exact inside
  | ret => cases at_
  | panic => cases at_
  | call => cases at_
  | await => cases at_
  | _ =>
    injection at_ with enabled _ _
    have := congrFun enabled (taken .vfsTable)
    simp [taken] at this

/-- With no thread in a driver and none stopped, one that is busy can go on. -/
theorem locks_progress (order : Order.Invariant c) (handshake : Deinit.Invariant c)
    (acts : ∀ t, idle (c.threads t) = true ∨ ∃ ready effect next, c.threads t = .act ready effect next)
    (busy : idle (c.threads t) = false) :
    ∃ u ready effect next, c.threads u = .act ready effect next ∧ ready c.shared = true := by
  obtain ⟨locals,fits,types⟩ := order
  have holder : ∀ u, locals u ≠ ⟨false,false,false⟩ → ∃ ready effect next, c.threads u = .act ready effect next := by
    intro u holds
    rcases acts u with rest | act
    · exact absurd (Order.ret_free rest (types u)) holds
    · exact act
  by_cases files : c.shared.sem .openfileTable = 0
  · obtain ⟨u,held⟩ := fits.files.owner files
    obtain ⟨ready,effect,next,at_⟩ := holder u (by intro none_; simp [none_] at held)
    exact ⟨u,ready,effect,next,at_,ready_files (at_ ▸ types u) held⟩
  by_cases table : c.shared.sem .vfsTable = 0
  · obtain ⟨u,held⟩ := fits.table.owner table
    obtain ⟨ready,effect,next,at_⟩ := holder u (by intro none_; simp [none_] at held)
    exact ⟨u,ready,effect,next,at_,ready_table (at_ ▸ types u) held (Nat.pos_of_ne_zero files)⟩
  by_cases op : c.shared.sem .op = 0
  · obtain ⟨u,held⟩ := fits.op.owner op
    obtain ⟨ready,effect,next,at_⟩ := holder u (by intro none_; simp [none_] at held)
    exact ⟨u,ready,effect,next,at_,ready_op (at_ ▸ types u) held (Nat.pos_of_ne_zero table) (Nat.pos_of_ne_zero files)⟩
  have free := fun u ready effect next (at_ : c.threads u = .act ready effect next) =>
    ready_free (at_ ▸ types u) (Nat.pos_of_ne_zero op) (Nat.pos_of_ne_zero table) (Nat.pos_of_ne_zero files)
  obtain rest | ⟨ready,effect,next,at_⟩ := acts t
  · rw [rest] at busy
    contradiction
  rcases free t ready effect next at_ with enabled | ⟨later,waits⟩
  · exact ⟨t,ready,effect,next,at_,enabled⟩
  -- `vfs_deinit` waits: it is woken already, or an operation is in progress
  obtain ⟨phases,hands,kinds⟩ := id handshake
  have phase := wake_phase (kinds t) (at_.trans waits)
  obtain ⟨-,-,inside,d,others,facts⟩ := hands
  have same : d = t := by
    by_contra apart
    simpa [Deinit.Ordinary,phase] using others t (Ne.symm apart)
  rw [same,phase] at facts
  obtain ⟨-,-,-,⟨asleep,some_⟩ | ⟨woken,-⟩⟩ := facts
  · obtain ⟨u,member⟩ := List.exists_mem_of_ne_nil _ some_
    have working := Deinit.active_busy handshake member
    obtain rest | ⟨ready',effect',next',there⟩ := acts u
    · rw [rest] at working
      contradiction
    rcases free u ready' effect' next' there with enabled | ⟨later',waits'⟩
    · exact ⟨u,ready',effect',next',there,enabled⟩
    · have second := wake_phase (kinds u) (there.trans waits')
      rw [(inside u).mp member] at second
      contradiction
  · refine ⟨t,ready,effect,next,at_,?_⟩
    injection waits with enabled _ _
    simp [enabled,woken]

/-! ### Driver calls against destroyed locks -/

/-- A volume in the table has its lock, and is in one row only. -/
def Good (table : MountRow → Option FsPtr) (destroyed : List FsPtr) : Prop :=
  (∀ row fs, table row = some fs → fs ∉ destroyed) ∧
  ∀ row row' fs, table row = some fs → table row' = some fs → row = row'

theorem Good.clear (good : Good table destroyed) (at_ : table row = some fs) :
    Good (Function.update table row none) (fs :: destroyed) := by
  constructor
  · intro row' fs' there member
    have apart : row' ≠ row := by rintro rfl; simp at there
    rw [Function.update_of_ne apart] at there
    rcases List.mem_cons.mp member with rfl | old
    · exact apart (good.2 row' row fs' there at_)
    · exact good.1 row' fs' there old
  · intro first second fs' there here
    have apart : first ≠ row := by rintro rfl; simp at there
    have apart' : second ≠ row := by rintro rfl; simp at here
    rw [Function.update_of_ne apart] at there
    rw [Function.update_of_ne apart'] at here
    exact good.2 first second fs' there here

def forceTail : VfsProg :=
  semaphoreV .openfileTable <| semaphoreV .vfsTable <| semaphoreV .op <| .ret vfsOk

def clearRow (me : Nat) (row : MountRow) (rest : List MountRow) : VfsProg :=
  store (fun s => s.setMount row { s.filesystems row with filesystem := none }) (unmountRows me rest forceTail)

/-- Points of `vfs_deinit` with the table locked. -/
inductive Forcing (me : Nat) (table : MountRow → Option FsPtr) (destroyed : List FsPtr) : VfsProg → Prop where
  | lockFiles : Good table destroyed → Forcing me table destroyed
      (semaphoreP .openfileTable (unmountRows me (List.finRange configMaxFilesystems) forceTail))
  | rows : Good table destroyed → Forcing me table destroyed (unmountRows me rows forceTail)
  | call : Good table destroyed → table row = some fs → Forcing me table destroyed
      (driver .forcedUnmount fs me fun _ => clearRow me row rest)
  | await : Good (Function.update table row none) destroyed → Forcing me table destroyed (.await fun _ => clearRow me row rest)
  | clear : Good (Function.update table row none) destroyed → Forcing me table destroyed (clearRow me row rest)
  | unlockTable : Forcing me table destroyed (semaphoreV .vfsTable <| semaphoreV .op <| .ret vfsOk)
  | unlockOp : Forcing me table destroyed (semaphoreV .op <| .ret vfsOk)

/-- Points of `vfs_deinit` before it locks the table. -/
inductive Entering (me : Nat) : VfsProg → Prop where
  | enter : Entering me (vfsDeinit me)
  | disable : Entering me (.act (fun _ => true) (fun s => { s with usable := false }) fun s =>
      if 0 < s.ops then semaphoreV .op <| semaphoreP .unmount <| resumeDeinit me else forceUnmount me)
  | release : Entering me (semaphoreV .op <| semaphoreP .unmount <| resumeDeinit me)
  | wake : Entering me (semaphoreP .unmount <| resumeDeinit me)
  | retake : Entering me (resumeDeinit me)
  | check : Entering me (look fun s => if s.ops = 0 then forceUnmount me else .panic .opsZero)
  | force : Entering me (forceUnmount me)
  | stopped : Entering me (.panic a)

def AtRest (t : Nat) (prog : VfsProg) : Prop :=
  (∃ code, prog = .ret code) ∨ (∃ a, prog = .panic a) ∨ ∃ next, prog = vfsStartOp t next

/-- What a thread relies on before the forced unmount, and whether it is in `vfs_deinit`. -/
structure Role where
  relies : Unmount.Local
  deinit : Bool

def intact (e : DriverCall) (s : Vfs) : Prop := e.fn ≠ .forcedUnmount ∧ e.fs ∉ s.unmounted

instance : Unmount.Covers intact := ⟨fun ordinary mounted => ⟨ordinary,mounted⟩⟩

structure RoleFits (s : Vfs) (roles : Nat → Role) : Prop where
  fits : Unmount.Fits s fun t => (roles t).relies
  outside : ∀ t, (roles t).deinit = true → t ∉ s.active

def RoleTyped (t : Nat) (role : Role) (prog : VfsProg) : Prop :=
  if role.deinit then role.relies = ⟨false,false,.none⟩ ∧ Entering t prog
  else Unmount.SafeFor intact t role.relies prog

structure Running (w : Volumes) : Prop where
  roles : Modular RoleFits RoleTyped w.config
  destroyed : w.destroyed = w.config.shared.unmounted

structure Forced (d : Nat) (w : Volumes) : Prop where
  unusable : w.config.shared.usable = false
  called : w.config.shared.deinit = true
  here : Forcing d (Unmount.mountAt w.config.shared) w.destroyed (w.config.threads d)
  others : ∀ t, t ≠ d → AtRest t (w.config.threads t)

structure Finished (w : Volumes) : Prop where
  unusable : w.config.shared.usable = false
  called : w.config.shared.deinit = true
  rest : ∀ t, AtRest t (w.config.threads t)

structure Locked (w : Volumes) : Prop where
  inside : ∀ t fs n, w.within t = some (fs, n) → ∃ next, w.config.threads t = .await next
  held : ∀ fs, w.lock fs = 0 → fs ∈ w.destroyed ∨ ∃ t n, w.within t = some (fs, n)

structure Kept (w : Volumes) : Prop where
  handshake : Deinit.Invariant w.config
  order : Order.Invariant w.config
  locked : Locked w
  stage : Running w ∨ (∃ d, Forced d w) ∨ Finished w

/-! ### Progress -/

section Progress
variable {w : Volumes} {t : Nat}

theorem AtRest.not_call (rest : AtRest t (.call e next)) : False := by
  rcases rest with ⟨_,equal⟩ | ⟨_,equal⟩ | ⟨_,equal⟩ <;> cases equal

theorem Entering.not_call (entering : Entering t prog) : prog ≠ .call e next := by
  intro at_
  cases entering <;> cases at_

theorem Forcing.call_good (forcing : Forcing t table destroyed prog) (at_ : prog = .call e next) : e.fs ∉ destroyed := by
  cases forcing with
  | call good row =>
    cases at_
    exact good.1 _ _ row
  | @rows rows good =>
    cases rows <;> cases at_
  | lockFiles => cases at_
  | await => cases at_
  | clear => cases at_
  | unlockTable => cases at_
  | unlockOp => cases at_

theorem Kept.call_intact (kept : Kept w) (at_ : w.config.threads t = .call e next) : e.fs ∉ w.destroyed := by
  rcases kept.stage with running | ⟨d,forced⟩ | finished
  · obtain ⟨roles,fits,types⟩ := running.roles
    have type := types t
    unfold RoleTyped at type
    split at type
    · exact absurd at_ type.2.not_call
    · rw [at_] at type
      rw [running.destroyed]
      exact (type w.config.shared _ fits.fits rfl).1.2
  · by_cases same : t = d
    · subst same
      exact forced.here.call_good at_
    · exact (at_ ▸ forced.others t same).not_call.elim
  · exact (at_ ▸ finished.rest t).not_call.elim

/-- If some thread is busy and none has stopped, a busy thread can go on. -/
theorem Kept.progress (kept : Kept w) (alive : ∀ u a, w.config.threads u ≠ .panic a)
    (busy : idle (w.config.threads t) = false) : ∃ u, idle (w.config.threads u) = false ∧ CanStep w u := by
  by_cases awaiting : ∃ u next, w.config.threads u = .await next
  · obtain ⟨u,next,at_⟩ := awaiting
    exact ⟨u,by rw [at_]; rfl,await_possible at_⟩
  by_cases calling : ∃ u e next, w.config.threads u = .call e next
  · obtain ⟨u,e,next,at_⟩ := calling
    refine ⟨u,by rw [at_]; rfl,call_possible at_ ?_⟩
    intro taken
    rcases kept.locked.held e.fs taken with destroyed | ⟨v,n,holds⟩
    · exact kept.call_intact at_ destroyed
    · obtain ⟨later,there⟩ := kept.locked.inside v e.fs n holds
      exact awaiting ⟨v,later,there⟩
  have acts : ∀ u, idle (w.config.threads u) = true ∨ ∃ ready effect next, w.config.threads u = .act ready effect next := by
    intro u
    cases at_ : w.config.threads u with
    | ret => exact .inl rfl
    | panic a => exact absurd at_ (alive u a)
    | act ready effect next => exact .inr ⟨ready,effect,next,rfl⟩
    | call e next => exact absurd ⟨u,e,next,at_⟩ calling
    | await next => exact absurd ⟨u,next,at_⟩ awaiting
  obtain ⟨u,ready,effect,next,at_,enabled⟩ := locks_progress kept.order kept.handshake acts busy
  exact ⟨u,by rw [at_]; rfl,act_possible at_ enabled⟩

end Progress

/-! ### Before the forced unmount -/

section Running
variable {c : VfsConfig} {s s' : Vfs} {t : Nat} {prog next : VfsProg} {roles : Nat → Role}

theorem active_other (type : Deinit.Typed t phase prog) (advanced : advance invoke result prog s = some (s', next))
    (apart : u ≠ t) (member : u ∈ s'.active) : u ∈ s.active := by
  cases type with
  | ret => contradiction
  | panic => contradiction
  | start =>
    obtain ⟨-,rfl,-⟩ := Deinit.ready_of_advance advanced
    split at member
    · simpa [apart] using member
    · exact member
  | finish =>
    obtain ⟨-,rfl,-⟩ := Deinit.ready_of_advance advanced
    have active : (s.endOp t).active = s.active.erase t := by
      unfold Vfs.endOp
      dsimp only
      split <;> rfl
    rw [active] at member
    exact List.mem_of_mem_erase member
  | act _ same =>
    obtain ⟨-,rfl,-⟩ := Deinit.ready_of_advance advanced
    rwa [(same s).2.2.1] at member
  | call =>
    cases advanced
    rwa [(Deinit.invoke_same _ s).2.2.1] at member
  | await =>
    cases advanced
    exact member
  | _ =>
    obtain ⟨-,rfl,-⟩ := Deinit.ready_of_advance advanced
    exact member

theorem relies_update (roles : Nat → Role) (t : Nat) (role : Role) :
    (fun u => (Function.update roles t role u).relies) = Function.update (fun u => (roles u).relies) t role.relies := by
  funext u
  by_cases same : u = t <;> simp [same]

theorem RoleFits.update (fits : RoleFits s roles) (role : Role)
    (relies : Unmount.Fits s' (Function.update (fun u => (roles u).relies) t role.relies))
    (others : ∀ u, u ≠ t → u ∈ s'.active → u ∈ s.active) (mine : role.deinit = true → t ∉ s'.active) :
    RoleFits s' (Function.update roles t role) := by
  refine ⟨by rwa [relies_update],fun u flagged member => ?_⟩
  by_cases same : u = t
  · subst same
    exact mine (by simpa using flagged) member
  · exact fits.outside u (by simpa [same] using flagged) (others u same member)

/-- A point of `vfs_deinit` before the table is locked: nothing that the others rely on changes. -/
theorem entering_step (entering : Entering t prog) (unlocked : prog ≠ forceUnmount t)
    (advanced : advance invoke result prog s = some (s', next)) :
    Entering t next ∧ Unmount.Quiet s s' ∧ s'.active = s.active ∧
      s'.sem .vfsTable = s.sem .vfsTable ∧ s'.sem .openfileTable = s.sem .openfileTable := by
  cases entering with
  | enter =>
    obtain ⟨-,rfl,rfl⟩ := Deinit.ready_of_advance advanced
    exact ⟨.disable,⟨fun _ => rfl,fun _ => rfl,rfl,rfl,rfl,rfl⟩,rfl,rfl,rfl⟩
  | disable =>
    obtain ⟨-,rfl,rfl⟩ := Deinit.ready_of_advance advanced
    refine ⟨?_,⟨fun _ => rfl,fun _ => rfl,rfl,rfl,rfl,rfl⟩,rfl,rfl,rfl⟩
    split
    · exact .release
    · exact .force
  | release =>
    obtain ⟨-,rfl,rfl⟩ := Deinit.ready_of_advance advanced
    exact ⟨.wake,⟨fun _ => rfl,fun _ => rfl,rfl,rfl,rfl,rfl⟩,rfl,rfl,rfl⟩
  | wake =>
    obtain ⟨-,rfl,rfl⟩ := Deinit.ready_of_advance advanced
    exact ⟨.retake,⟨fun _ => rfl,fun _ => rfl,rfl,rfl,rfl,rfl⟩,rfl,rfl,rfl⟩
  | retake =>
    obtain ⟨-,rfl,rfl⟩ := Deinit.ready_of_advance advanced
    exact ⟨.check,⟨fun _ => rfl,fun _ => rfl,rfl,rfl,rfl,rfl⟩,rfl,rfl,rfl⟩
  | check =>
    obtain ⟨-,rfl,rfl⟩ := Deinit.ready_of_advance advanced
    refine ⟨?_,⟨fun _ => rfl,fun _ => rfl,rfl,rfl,rfl,rfl⟩,rfl,rfl,rfl⟩
    split
    · exact .force
    · exact .stopped
  | force => exact absurd rfl unlocked
  | stopped => contradiction

theorem Entering.busy (entering : Entering t prog) : idle prog = false := by
  cases entering <;> rfl

theorem Running.start {w : Volumes} (running : Running w) (handshake : Deinit.Invariant w.config)
    (permitted : Permitted (.start t op) w) (next : step (.start t op) w.config = some c) :
    Running { w with config := c } := by
  have modular : Modular RoleFits RoleTyped c := by
    refine Modular.move running.roles ?_ ?_ next
    · rintro roles u op' s same fits rest type entered
      cases same
      unfold RoleTyped at type
      split at type
      · rw [type.2.busy] at rest
        contradiction
      have bare := Unmount.ret_unlocked rest type
      have active : s.active = w.config.shared.active := by
        unfold enter at entered
        split at entered
        · split at entered
          · contradiction
          · cases entered
            rfl
        all_goals
          cases entered
          rfl
      by_cases deinit : op = .deinit
      · subst deinit
        simp only [enter] at entered
        split at entered
        · contradiction
        cases entered
        have quiet : Unmount.Quiet w.config.shared { w.config.shared with deinit := true } :=
          ⟨fun _ => rfl,fun _ => rfl,rfl,rfl,rfl,rfl⟩
        refine ⟨⟨⟨false,false,.none⟩,true⟩,fits.update _ ?_ (fun u _ member => member) ?_,rfl,.enter⟩
        · exact fits.fits.rested bare quiet rfl
        · intro _ member
          rw [Deinit.active_busy handshake member] at rest
          contradiction
      · have disciplined : Unmount.DisciplinedStart t w.config.shared op := by
          cases op with
          | deinit => exact absurd rfl deinit
          | _ => exact permitted
        obtain ⟨l,fit,safe⟩ : ∃ l, Unmount.Fits s (Function.update (fun u => (roles u).relies) t l) ∧
            Unmount.SafeFor intact t l (program t op) := Unmount.start_safe fits.fits bare disciplined entered
        refine ⟨⟨l,false⟩,fits.update _ fit (fun u _ member => active ▸ member) (by simp),?_⟩
        simpa [RoleTyped] using safe
    · rintro _ _ _ _ _ same
      cases same
  refine ⟨modular,?_⟩
  rw [running.destroyed]
  simp only [step,move] at next
  split at next
  · obtain ⟨s,entered,rfl⟩ := Option.map_eq_some_iff.mp next
    exact (Order.enter_locks entered).2.2.2.symm
  · contradiction

theorem invoke_unmounted (e : DriverCall) (s : Vfs) :
    (invoke e s).unmounted = if e.fn = .unmount then e.fs :: s.unmounted else s.unmounted := by
  unfold invoke
  split
  · next same => rw [if_pos same]
  all_goals
    rw [if_neg]
    simp_all

/-- What a step adds to the volumes without a lock. -/
def Records (prog : VfsProg) (before after : List FsPtr) : Prop :=
  (∀ e later, prog = .call e later → after = if destroys e.fn then e.fs :: before else before) ∧
  ((∀ e later, prog ≠ .call e later) → after = before)

theorem Records.same (records : Records prog s.unmounted after) (type : Order.Typed t l prog)
    (ordinary : ∀ e later, prog = .call e later → e.fn ≠ .forcedUnmount)
    (advanced : advance invoke result prog s = some (s', next)) : after = s'.unmounted := by
  cases prog with
  | ret => contradiction
  | panic => contradiction
  | act ready effect later =>
    obtain ⟨-,rfl,-⟩ := Deinit.ready_of_advance advanced
    rw [Order.act_unmounted type]
    exact records.2 fun _ _ equal => nomatch equal
  | await later =>
    cases advanced
    exact records.2 fun _ _ equal => nomatch equal
  | call e later =>
    cases advanced
    rw [records.1 e later rfl,invoke_unmounted]
    have forced := ordinary e later rfl
    cases fn : e.fn <;> simp_all [destroys]

theorem good_table (fits : Unmount.Fits s locals) (free : 0 < s.sem .vfsTable) : Good (Unmount.mountAt s) s.unmounted := by
  obtain ⟨stage,owner,consistent,leavers,holds⟩ := fits.model
  have mounted : ∀ row fs, Unmount.mountAt s row = some fs → stage fs = .mounted row := by
    intro row fs at_
    rcases (consistent.rows row fs).mp at_ with mounted | leaving
    · exact mounted
    obtain ⟨u,fact⟩ := leavers fs row leaving
    have locks := holds u
    simp only [Unmount.Holds,fact] at locks
    have := fits.table.taken u locks.1.1
    omega
  constructor
  · intro row fs at_ member
    simpa [mounted row fs at_] using consistent.unmounted fs member
  · intro row row' fs first second
    have := (mounted row fs first).symm.trans (mounted row' fs second)
    cases this
    rfl

theorem forcing_alone (handshake : Deinit.Invariant c) (at_ : c.threads t = forceUnmount t) (outside : t ∉ c.shared.active) :
    c.shared.usable = false ∧ c.shared.deinit = true ∧ ∀ u, u ≠ t → AtRest u (c.threads u) := by
  obtain ⟨phases,hands,kinds⟩ := handshake
  have phase : phases t = .forcing := by
    rcases table_phase (kinds t) at_ with inside | forcing
    · exact absurd ((hands.inside t).mpr inside) outside
    · exact forcing
  obtain ⟨-,-,inside,d,others,facts⟩ := hands
  have same : d = t := by
    by_contra apart
    simpa [Deinit.Ordinary,phase] using others t (Ne.symm apart)
  rw [same,phase] at facts
  obtain ⟨deinit,usable,-,empty⟩ := facts
  refine ⟨usable,deinit,fun u apart => ?_⟩
  have type := kinds u
  have rest : phases u = .rest := by
    rcases others u (same ▸ apart) with rest | working
    · exact rest
    · have member := (inside u).mpr working
      rw [empty] at member
      contradiction
  rw [rest] at type
  generalize c.threads u = prog at type
  cases type with
  | ret => exact .inl ⟨_,rfl⟩
  | panic => exact .inr (.inl ⟨_,rfl⟩)
  | start => exact .inr (.inr ⟨_,rfl⟩)
  | act inside => rcases inside with inside | inside <;> contradiction
  | call inside => rcases inside with inside | inside <;> simp at inside
  | await inside => rcases inside with inside | inside <;> contradiction

theorem Running.step {w w' : Volumes} (running : Running w) (handshake : Deinit.Invariant w.config)
    (order : Order.Invariant w.config)
    (spared : ∀ e later, w.config.threads t = .call e later → Unmount.spares e w.config.shared)
    (advanced : advance invoke result (w.config.threads t) w.config.shared = some (s', next))
    (config : w'.config = ⟨s',Function.update w.config.threads t next⟩)
    (records : Records (w.config.threads t) w.destroyed w'.destroyed) : Running w' ∨ ∃ d, Forced d w' := by
  obtain ⟨roles,fits,types⟩ := running.roles
  obtain ⟨phases,-,kinds⟩ := id handshake
  obtain ⟨locals,-,orders⟩ := order
  rw [running.destroyed] at records
  have others : ∀ u, u ≠ t → u ∈ s'.active → u ∈ w.config.shared.active := fun u => active_other (kinds t) advanced
  have typed : ∀ role, RoleTyped t role next → ∀ u,
      RoleTyped u (Function.update roles t role u) (Function.update w.config.threads t next u) := by
    intro role type u
    by_cases same : u = t
    · subst same
      simpa using type
    · simpa [same] using types u
  have mine := types t
  unfold RoleTyped at mine
  split at mine
  case isFalse =>
    have calls : ∀ e later, w.config.threads t = .call e later → e.fn ≠ .forcedUnmount := by
      intro e later at_
      rw [at_] at mine
      exact (mine w.config.shared _ fits.fits rfl).1.1
    obtain ⟨l,fit,safe⟩ := mine.advance fits.fits rfl spared advanced
    left
    refine ⟨?_,?_⟩
    · rw [config]
      refine ⟨Function.update roles t ⟨l,false⟩,fits.update ⟨l,false⟩ fit others (by simp),typed ⟨l,false⟩ ?_⟩
      simpa [RoleTyped] using safe
    · rw [records.same (orders t) calls advanced,config]
  case isTrue flagged =>
    obtain ⟨nothing,entering⟩ := mine
    have outside := fits.outside t flagged
    have recorded : w'.destroyed = w.config.shared.unmounted := records.2 fun e later => entering.not_call
    by_cases force : w.config.threads t = forceUnmount t
    · right
      obtain ⟨usable,deinit,rest⟩ := forcing_alone handshake force outside
      rw [force] at advanced
      obtain ⟨free,rfl,rfl⟩ := Deinit.ready_of_advance advanced
      have good := good_table fits.fits (by simpa using free)
      refine ⟨t,?_,?_,?_,?_⟩
      · rw [config]
        exact usable
      · rw [config]
        exact deinit
      · rw [config,recorded]
        simp only [Function.update_self]
        exact .lockFiles good
      · intro u apart
        rw [config]
        simpa [apart] using rest u apart
    · left
      obtain ⟨later,quiet,active,table,files⟩ := entering_step entering force advanced
      have fit := fits.fits.quiet quiet ⟨table,files⟩
      refine ⟨?_,?_⟩
      · rw [config]
        refine ⟨roles,⟨fit,fun u flag member => fits.outside u flag (active ▸ member)⟩,fun u => ?_⟩
        have := typed (roles t) (by simp [RoleTyped,flagged,nothing,later]) u
        rwa [Function.update_eq_self] at this
      · rw [recorded,config,quiet.unmounted]

end Running

/-! ### The forced unmount -/

section Forced
variable {c : VfsConfig} {s s' : Vfs} {t d : Nat} {next : VfsProg} {w w' : Volumes}

theorem program_rest (ordinary : op ≠ .deinit) : AtRest t (program t op) := by
  cases op with
  | mount fs name =>
    by_cases empty : name = []
    · exact .inr (.inl ⟨_,if_pos empty⟩)
    · exact .inr (.inr ⟨_,if_neg empty⟩)
  | create pathname size =>
    by_cases negative : size < 0
    · exact .inr (.inl ⟨_,if_pos negative⟩)
    · exact .inr (.inr ⟨_,if_neg negative⟩)
  | deinit => exact absurd rfl ordinary
  | _ => exact .inr (.inr ⟨_,rfl⟩)

/-- After `vfs_deinit` was called, starting an operation changes nothing that matters to it. -/
theorem enter_later (called : s.deinit = true) (entered : enter t op s = some s') :
    op ≠ .deinit ∧ s'.usable = s.usable ∧ s'.deinit = true ∧ Unmount.mountAt s' = Unmount.mountAt s := by
  cases op with
  | deinit => simp [enter,called] at entered
  | _ =>
    cases entered
    exact ⟨by simp,rfl,called,rfl⟩

theorem AtRest.refused (rest : AtRest t prog) (unusable : s.usable = false)
    (advanced : advance invoke result prog s = some (s', next)) :
    s' = s ∧ AtRest t next ∧ ∀ e later, prog ≠ .call e later := by
  rcases rest with ⟨code,rfl⟩ | ⟨a,rfl⟩ | ⟨later,rfl⟩
  · contradiction
  · contradiction
  · obtain ⟨-,rfl,rfl⟩ := Deinit.ready_of_advance advanced
    rw [if_neg (by simp [unusable]),if_neg (by simp [unusable])]
    exact ⟨rfl,.inl ⟨_,rfl⟩,fun _ _ equal => nomatch equal⟩

theorem Forcing.busy (forcing : Forcing t table destroyed prog) : idle prog = false := by
  cases forcing with
  | @rows rows => cases rows <;> rfl
  | _ => rfl

theorem Forced.start (forced : Forced d w) (next : step (.start t op) w.config = some c) :
    Forced d { w with config := c } := by
  simp only [step,move] at next
  split at next
  case isFalse => contradiction
  case isTrue rest =>
  obtain ⟨s,entered,rfl⟩ := Option.map_eq_some_iff.mp next
  obtain ⟨ordinary,usable,deinit,mounts⟩ := enter_later forced.called entered
  have apart : d ≠ t := by
    rintro rfl
    rw [forced.here.busy] at rest
    contradiction
  refine ⟨usable.trans forced.unusable,deinit,?_,fun u other => ?_⟩
  · simpa [mounts,apart] using forced.here
  · by_cases same : u = t
    · subst same
      simpa using program_rest ordinary
    · simpa [same] using forced.others u other

theorem Forcing.step (forcing : Forcing d (Unmount.mountAt s) before prog) (records : Records prog before after)
    (advanced : advance invoke result prog s = some (s', next)) :
    s'.usable = s.usable ∧ s'.deinit = s.deinit ∧
      (Forcing d (Unmount.mountAt s') after next ∨ AtRest d next) := by
  cases forcing with
  | lockFiles good =>
    obtain ⟨-,rfl,rfl⟩ := Deinit.ready_of_advance advanced
    rw [records.2 fun _ _ equal => nomatch equal]
    exact ⟨rfl,rfl,.inl (.rows good)⟩
  | @rows rows good =>
    cases rows with
    | nil =>
      obtain ⟨-,rfl,rfl⟩ := Deinit.ready_of_advance advanced
      exact ⟨rfl,rfl,.inl .unlockTable⟩
    | cons row rest =>
      obtain ⟨-,rfl,rfl⟩ := Deinit.ready_of_advance advanced
      rw [records.2 fun _ _ equal => nomatch equal]
      refine ⟨rfl,rfl,.inl ?_⟩
      cases at_ : (s'.filesystems row).filesystem with
      | none => exact .rows good
      | some fs => exact .call good at_
  | call good at_ =>
    cases advanced
    rw [records.1 _ _ rfl]
    exact ⟨rfl,rfl,.inl (.await (good.clear at_))⟩
  | await good =>
    cases advanced
    rw [records.2 fun _ _ equal => nomatch equal]
    exact ⟨rfl,rfl,.inl (.clear good)⟩
  | @clear row rest good =>
    obtain ⟨-,rfl,rfl⟩ := Deinit.ready_of_advance advanced
    rw [records.2 fun _ _ equal => nomatch equal]
    refine ⟨rfl,rfl,.inl ?_⟩
    have table : Unmount.mountAt (s.setMount row { s.filesystems row with filesystem := none }) =
        Function.update (Unmount.mountAt s) row none := by
      funext row'
      by_cases same : row' = row <;> simp [same]
    rw [table]
    exact .rows good
  | unlockTable =>
    obtain ⟨-,rfl,rfl⟩ := Deinit.ready_of_advance advanced
    exact ⟨rfl,rfl,.inl .unlockOp⟩
  | unlockOp =>
    obtain ⟨-,rfl,rfl⟩ := Deinit.ready_of_advance advanced
    exact ⟨rfl,rfl,.inr (.inl ⟨_,rfl⟩)⟩

theorem Forced.step (forced : Forced d w)
    (advanced : advance invoke result (w.config.threads t) w.config.shared = some (s', next))
    (config : w'.config = ⟨s',Function.update w.config.threads t next⟩)
    (records : Records (w.config.threads t) w.destroyed w'.destroyed) : (∃ d, Forced d w') ∨ Finished w' := by
  by_cases same : t = d
  · subst same
    obtain ⟨usable,deinit,later⟩ := forced.here.step records advanced
    have others : ∀ u, u ≠ t → AtRest u (w'.config.threads u) := by
      intro u apart
      rw [config]
      simpa [apart] using forced.others u apart
    have unusable : w'.config.shared.usable = false := by rw [config]; exact usable.trans forced.unusable
    have called : w'.config.shared.deinit = true := by rw [config]; exact deinit.trans forced.called
    rcases later with forcing | rest
    · left
      refine ⟨t,unusable,called,?_,others⟩
      rw [config]
      simpa using forcing
    · right
      refine ⟨unusable,called,fun u => ?_⟩
      by_cases same : u = t
      · subst same
        rw [config]
        simpa using rest
      · exact others u same
  · obtain ⟨rfl,rest,plain⟩ := (forced.others t same).refused forced.unusable advanced
    left
    refine ⟨d,?_,?_,?_,fun u apart => ?_⟩ <;> rw [config]
    · exact forced.unusable
    · exact forced.called
    · rw [records.2 plain]
      simpa [Ne.symm same] using forced.here
    · by_cases here : u = t
      · subst here
        simpa using rest
      · simpa [here] using forced.others u apart

theorem Finished.start (finished : Finished w) (next : step (.start t op) w.config = some c) :
    Finished { w with config := c } := by
  simp only [step,move] at next
  split at next
  case isFalse => contradiction
  case isTrue =>
  obtain ⟨s,entered,rfl⟩ := Option.map_eq_some_iff.mp next
  obtain ⟨ordinary,usable,deinit,-⟩ := enter_later finished.called entered
  refine ⟨usable.trans finished.unusable,deinit,fun u => ?_⟩
  by_cases same : u = t
  · subst same
    simpa using program_rest ordinary
  · simpa [same] using finished.rest u

theorem Finished.step (finished : Finished w)
    (advanced : advance invoke result (w.config.threads t) w.config.shared = some (s', next))
    (config : w'.config = ⟨s',Function.update w.config.threads t next⟩) : Finished w' := by
  obtain ⟨rfl,rest,-⟩ := (finished.rest t).refused finished.unusable advanced
  refine ⟨?_,?_,fun u => ?_⟩ <;> rw [config]
  · exact finished.unusable
  · exact finished.called
  · by_cases here : u = t
    · subst here
      simpa using rest
    · simpa [here] using finished.rest u

end Forced

/-! ### Runs -/

section Runs
variable {w w' : Volumes} {t : Nat}

theorem Locked.move (locked : Locked w) (away : ∀ next, w.config.threads t ≠ .await next) (s : Vfs) (next : VfsProg) :
    Locked { w with config := ⟨s,Function.update w.config.threads t next⟩ } := by
  refine ⟨fun u fs n holds => ?_,locked.held⟩
  obtain ⟨later,at_⟩ := locked.inside u fs n holds
  have apart : u ≠ t := by rintro rfl; exact away later at_
  exact ⟨later,by simpa [apart] using at_⟩

theorem Locked.enter (locked : Locked w) (at_ : w.config.threads t = .call e later)
    (entered : enterDriver t requests e w ⟨s,Function.update w.config.threads t (.await later)⟩ = some w') : Locked w' := by
  have away : ∀ next, w.config.threads t ≠ .await next := by simp [at_]
  have moved := locked.move away s (.await later)
  unfold enterDriver at entered
  split at entered
  · cases entered
    exact moved
  split at entered
  · contradiction
  split at entered
  · cases entered
    refine ⟨moved.inside,fun fs taken => ?_⟩
    by_cases same : fs = e.fs
    · exact .inl (by simp [same])
    · exact (locked.held fs (by simpa [same] using taken)).imp_left (List.mem_cons_of_mem _)
  · cases entered
    constructor
    · intro u fs n holds
      by_cases same : u = t
      · subst same
        exact ⟨later,by simp⟩
      · exact moved.inside u fs n (by simpa [same] using holds)
    · intro fs taken
      by_cases same : fs = e.fs
      · subst same
        exact .inr ⟨t,requests,by simp⟩
      · rcases locked.held fs (by simpa [same] using taken) with destroyed | ⟨u,n,holds⟩
        · exact .inl destroyed
        · obtain ⟨next,there⟩ := locked.inside u fs n holds
          have apart : u ≠ t := by rintro rfl; exact away next there
          exact .inr ⟨u,n,by simpa [apart] using holds⟩

theorem Locked.leave (locked : Locked w) (left : leaveDriver t w ⟨s,Function.update w.config.threads t next⟩ = some w') :
    Locked w' := by
  have others : ∀ u fs n, u ≠ t → w.within u = some (fs, n) →
      ∃ later, Function.update w.config.threads t next u = .await later := by
    intro u fs n apart holds
    obtain ⟨later,at_⟩ := locked.inside u fs n holds
    exact ⟨later,by simpa [apart] using at_⟩
  unfold leaveDriver at left
  split at left
  · next outside =>
    cases left
    refine ⟨fun u fs n holds => ?_,locked.held⟩
    have apart : u ≠ t := by rintro rfl; simp [outside] at holds
    exact others u fs n apart holds
  · next fs inside =>
    cases left
    constructor
    · intro u fs' n holds
      have apart : u ≠ t := by rintro rfl; simp at holds
      exact others u fs' n apart (by simpa [apart] using holds)
    · intro fs' taken
      have apart : fs' ≠ fs := by rintro rfl; simp at taken
      rcases locked.held fs' (by simpa [apart] using taken) with destroyed | ⟨u,n,holds⟩
      · exact .inl destroyed
      · have other : u ≠ t := by
          rintro rfl
          rw [inside] at holds
          cases holds
          exact apart rfl
        exact .inr ⟨u,n,by simpa [other] using holds⟩
  · contradiction

theorem Locked.request (locked : Locked w) (inside : w.within t = some (fs, n + 1)) :
    Locked { w with within := Function.update w.within t (some (fs, n)) } := by
  constructor
  · intro u fs' n' holds
    by_cases same : u = t
    · subst same
      exact locked.inside u fs (n + 1) inside
    · exact locked.inside u fs' n' (by simpa [same] using holds)
  · intro fs' taken
    rcases locked.held fs' taken with destroyed | ⟨u,n',holds⟩
    · exact .inl destroyed
    · by_cases same : u = t
      · subst same
        rw [inside] at holds
        cases holds
        exact .inr ⟨u,n,by simp⟩
      · exact .inr ⟨u,n',by simpa [same] using holds⟩

theorem Kept.step (kept : Kept w) (locked : Locked w')
    (spared : ∀ e later, w.config.threads t = .call e later → Unmount.spares e w.config.shared)
    (advanced : advance invoke result (w.config.threads t) w.config.shared = some (s, next))
    (config : w'.config = ⟨s,Function.update w.config.threads t next⟩)
    (records : Records (w.config.threads t) w.destroyed w'.destroyed) : Kept w' := by
  have stepped : Fs.step (.step t result) w.config = some w'.config := by simp [Fs.step,move,advanced,config]
  refine ⟨Deinit.step_invariant kept.handshake stepped,Order.step_invariant kept.order stepped,locked,?_⟩
  rcases kept.stage with running | ⟨d,forced⟩ | finished
  · exact (running.step kept.handshake kept.order spared advanced config records).imp_right .inl
  · exact .inr (forced.step advanced config records)
  · exact .inr (.inr (finished.step advanced config))

theorem advance_call (at_ : w.config.threads t = .call e later) (stepped : step (.step t r) w.config = some c) :
    c = ⟨invoke e w.config.shared,Function.update w.config.threads t (.await later)⟩ := by
  simp only [step,move,at_,advance,Option.map_some,Option.some.injEq] at stepped
  exact stepped.symm

theorem enterDriver_config (entered : enterDriver t requests e w c = some w') : w'.config = c ∧
    w'.destroyed = if destroys e.fn then e.fs :: w.destroyed else w.destroyed := by
  unfold enterDriver at entered
  split at entered
  · next close =>
    cases entered
    simp [close,destroys]
  split at entered
  · contradiction
  split at entered
  · next gone =>
    cases entered
    simp [gone]
  · next stays =>
    cases entered
    simp [stays]

theorem leaveDriver_config (left : leaveDriver t w c = some w') : w'.config = c ∧ w'.destroyed = w.destroyed := by
  unfold leaveDriver at left
  split at left
  · cases left
    exact ⟨rfl,rfl⟩
  · cases left
    exact ⟨rfl,rfl⟩
  · contradiction

theorem volumeStep_kept (kept : Kept w) (permitted : Permitted m w) (next : volumeStep m w = some w') : Kept w' := by
  cases m with
  | start t op =>
    obtain ⟨c,started,rfl⟩ := Option.map_eq_some_iff.mp next
    refine ⟨Deinit.step_invariant kept.handshake started,Order.step_invariant kept.order started,?_,?_⟩
    · have moved := started
      simp only [step,move] at moved
      split at moved
      · next rest =>
        obtain ⟨s,-,rfl⟩ := Option.map_eq_some_iff.mp moved
        apply kept.locked.move
        intro later at_
        rw [at_] at rest
        contradiction
      · contradiction
    · rcases kept.stage with running | ⟨d,forced⟩ | finished
      · exact .inl (running.start kept.handshake permitted started)
      · exact .inr (.inl ⟨d,forced.start started⟩)
      · exact .inr (.inr (finished.start started))
  | act t =>
    simp only [volumeStep] at next
    split at next
    · next ready effect later at_ =>
      obtain ⟨c,stepped,rfl⟩ := Option.map_eq_some_iff.mp next
      obtain ⟨⟨s,prog⟩,advanced,rfl⟩ := Option.map_eq_some_iff.mp stepped
      refine kept.step (kept.locked.move (by simp [at_]) s prog) ?_ advanced rfl ⟨?_,fun _ => rfl⟩ <;>
        simp [at_]
    · contradiction
  | enter t requests =>
    simp only [volumeStep] at next
    split at next
    · next e later at_ =>
      obtain ⟨c,stepped,entered⟩ := Option.bind_eq_some_iff.mp next
      obtain rfl := advance_call at_ stepped
      obtain ⟨config,destroyed⟩ := enterDriver_config entered
      have advanced : advance invoke 0 (w.config.threads t) w.config.shared =
          some (invoke e w.config.shared, .await later) := by rw [at_]; rfl
      refine kept.step (kept.locked.enter at_ entered) ?_ advanced config ⟨?_,?_⟩
      · intro e' later' there
        simpa only [Permitted,there] using permitted
      · intro e' later' there
        rw [at_] at there
        cases there
        exact destroyed
      · intro plain
        exact absurd at_ (plain e later)
    · contradiction
  | request t =>
    simp only [volumeStep] at next
    split at next
    · next fs n inside =>
      cases next
      refine ⟨kept.handshake,kept.order,kept.locked.request inside,?_⟩
      rcases kept.stage with running | ⟨d,forced⟩ | finished
      · exact .inl ⟨running.roles,running.destroyed⟩
      · exact .inr (.inl ⟨d,forced.unusable,forced.called,forced.here,forced.others⟩)
      · exact .inr (.inr ⟨finished.unusable,finished.called,finished.rest⟩)
    · contradiction
  | leave t result =>
    simp only [volumeStep] at next
    split at next
    · next later at_ =>
      obtain ⟨c,stepped,left⟩ := Option.bind_eq_some_iff.mp next
      obtain ⟨⟨s,prog⟩,advanced,rfl⟩ := Option.map_eq_some_iff.mp stepped
      obtain ⟨config,destroyed⟩ := leaveDriver_config left
      refine kept.step (kept.locked.leave left) ?_ advanced config ⟨?_,fun _ => destroyed⟩ <;> simp [at_]
    · contradiction

end Runs

theorem initial_kept : Kept initialVolumes := by
  refine ⟨Deinit.initial_invariant,Order.initial_invariant,⟨by simp [initialVolumes],by simp [initialVolumes]⟩,.inl ⟨?_,rfl⟩⟩
  exact ⟨fun _ => ⟨⟨false,false,.none⟩,false⟩,⟨Unmount.initial_fits,by simp⟩,fun _ => ⟨rfl,rfl⟩⟩

/-- In every state that threads running VFS operations over TFS volumes can reach, with at most
one `vfs_deinit`: if an operation is unfinished and no assertion has failed, then an unfinished
operation can take a step. -/
theorem vfs_deadlock_free (ran : run volumeStep moves initialVolumes = some w)
    (permitted : Meets volumeStep Permitted moves initialVolumes)
    (alive : ∀ t a, w.config.threads t ≠ .panic a) (t : Nat) (unfinished : idle (w.config.threads t) = false) :
    ∃ u, idle (w.config.threads u) = false ∧ CanStep w u := by
  have kept : Kept w := run_guarded (fun _ _ _ kept ok next => volumeStep_kept kept ok next) initial_kept permitted ran
  exact kept.progress alive unfinished

instance (m : VolumeMove) (w : Volumes) : Decidable (Permitted m w) := by
  unfold Permitted
  split
  · infer_instance
  · infer_instance
  · split
    · unfold Unmount.spares
      infer_instance
    · infer_instance
  · infer_instance

/-- `vfs_getfree` is inside the driver with the table locked, `vfs_unmount` waits for the table and
`vfs_deinit` for both of them to end. -/
def waitingRun : List VolumeMove :=
  .start 0 (.mount 1 [65]) :: List.replicate 6 (.act 0) ++
  [.start 0 (.getfree [65]),.act 0,.act 0,.act 0,.enter 0 1,.start 1 (.unmount [65]),.act 1,
    .start 2 .deinit,.act 2,.act 2,.act 2]

def VolumeMove.thread : VolumeMove → Nat
  | .start t _ | .act t | .enter t _ | .request t | .leave t _ => t

theorem step_other (stepped : step (.step t result) c = some d) (apart : u ≠ t) : d.threads u = c.threads u := by
  obtain ⟨⟨s,next⟩,-,rfl⟩ := Option.map_eq_some_iff.mp stepped
  simp [apart]

theorem volumeStep_other (next : volumeStep m w = some w') (apart : u ≠ m.thread) :
    w'.config.threads u = w.config.threads u := by
  cases m with
  | start t op =>
    obtain ⟨c,started,rfl⟩ := Option.map_eq_some_iff.mp next
    simp only [step,move] at started
    split at started
    · obtain ⟨s,-,rfl⟩ := Option.map_eq_some_iff.mp started
      exact Function.update_of_ne (show u ≠ t from apart) ..
    · contradiction
  | act t =>
    simp only [volumeStep] at next
    split at next
    · obtain ⟨c,stepped,rfl⟩ := Option.map_eq_some_iff.mp next
      exact step_other stepped apart
    · contradiction
  | enter t requests =>
    simp only [volumeStep] at next
    split at next
    · obtain ⟨c,stepped,entered⟩ := Option.bind_eq_some_iff.mp next
      rw [(enterDriver_config entered).1]
      exact step_other stepped apart
    · contradiction
  | request t =>
    simp only [volumeStep] at next
    split at next
    · cases next
      rfl
    · contradiction
  | leave t result =>
    simp only [volumeStep] at next
    split at next
    · obtain ⟨c,stepped,left⟩ := Option.bind_eq_some_iff.mp next
      rw [(leaveDriver_config left).1]
      exact step_other stepped apart
    · contradiction

/-- Threads from 3 on have not begun. -/
def Unused (w : Volumes) : Prop := ∀ t, 3 ≤ t → w.config.threads t = .ret vfsOk

theorem run_unused (ran : run volumeStep moves initialVolumes = some w) (few : ∀ m ∈ moves, m.thread < 3) : Unused w := by
  have meets : Meets volumeStep (fun m _ => m.thread < 3) moves initialVolumes := meets_of_forall few
  have begun : Unused initialVolumes := fun _ _ => rfl
  apply run_guarded _ begun meets ran
  intro m v v' unused small next t large
  rw [volumeStep_other next (by omega)]
  exact unused t large

def stopped : VfsProg → Bool
  | .panic _ => true
  | _ => false

theorem vfs_deadlock_free_waiting : ∃ w, run volumeStep waitingRun initialVolumes = some w ∧
    idle (w.config.threads 1) = false ∧ (volumeStep (.act 1) w).isSome = false ∧ (volumeStep (.act 2) w).isSome = false ∧
    ∃ u, idle (w.config.threads u) = false ∧ CanStep w u := by
  have reached : ((run volumeStep waitingRun initialVolumes).any fun (w : Volumes) =>
      !idle (w.config.threads 1) && !(volumeStep (.act 1) w).isSome && !(volumeStep (.act 2) w).isSome &&
        !stopped (w.config.threads 0) && !stopped (w.config.threads 1) && !stopped (w.config.threads 2)) = true := by
    decide +kernel
  obtain ⟨w,ran,facts⟩ := (Option.any_eq_true _ _).mp reached
  simp only [Bool.and_eq_true,Bool.not_eq_true'] at facts
  obtain ⟨⟨⟨⟨⟨unfinished,first⟩,second⟩,zero⟩,one⟩,two⟩ := facts
  refine ⟨w,ran,unfinished,first,second,vfs_deadlock_free ran (by decide +kernel) ?_ 1 unfinished⟩
  intro t a at_
  match t,at_ with
  | 0,at_ => simp [at_,stopped] at zero
  | 1,at_ => simp [at_,stopped] at one
  | 2,at_ => simp [at_,stopped] at two
  | t + 3,at_ =>
    have unused := run_unused ran (by simp [waitingRun,VolumeMove.thread]) (t + 3) (by omega)
    rw [at_] at unused
    cases unused

end Buenos.Fs.Progress
