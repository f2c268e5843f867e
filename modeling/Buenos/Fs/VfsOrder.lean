import Buenos.Fs.VfsDeinit

/-! The order in which VFS takes its locks: `vfs_op_sem`, then `vfs_table.sem`, then
`openfile_table.sem`. `Typed` follows one program with the locks that it holds; the whole
sections on `vfs_op_sem` that are one step are entered without any. -/
namespace Buenos.Fs.Order

open Buenos.Foundation

structure Locks where
  op : Bool
  table : Bool
  files : Bool

def SameLocks (s t : Vfs) : Prop :=
  t.sem .op = s.sem .op ∧ t.sem .vfsTable = s.sem .vfsTable ∧ t.sem .openfileTable = s.sem .openfileTable ∧
  t.unmounted = s.unmounted

inductive Typed (me : Nat) : Locks → VfsProg → Prop where
  | ret : Typed me ⟨false,false,false⟩ (.ret code)
  | panic : Typed me l (.panic a)
  | act : (∀ s, ready s = true) → (∀ s, SameLocks s (effect s)) → (∀ s, Typed me l (next s)) →
      Typed me l (.act ready effect next)
  | op : (∀ s, SameLocks s (effect s)) → (∀ s, Typed me ⟨false,false,false⟩ (next s)) →
      Typed me ⟨false,false,false⟩ (locked .op effect next)
  | wake : Typed me ⟨false,false,false⟩ next → Typed me ⟨false,false,false⟩ (semaphoreP .unmount next)
  | lockOp : Typed me ⟨true,false,false⟩ next → Typed me ⟨false,false,false⟩ (semaphoreP .op next)
  | lockTable : Typed me ⟨a,true,false⟩ next → Typed me ⟨a,false,false⟩ (semaphoreP .vfsTable next)
  | lockFiles : Typed me ⟨a,b,true⟩ next → Typed me ⟨a,b,false⟩ (semaphoreP .openfileTable next)
  | unlockOp : Typed me ⟨false,b,c⟩ next → Typed me ⟨true,b,c⟩ (semaphoreV .op next)
  | unlockTable : Typed me ⟨a,false,c⟩ next → Typed me ⟨a,true,c⟩ (semaphoreV .vfsTable next)
  | unlockFiles : Typed me ⟨a,b,false⟩ next → Typed me ⟨a,b,true⟩ (semaphoreV .openfileTable next)
  | call : (∀ r, Typed me l (next r)) → Typed me l (.call e next)
  | await : (∀ r, Typed me l (next r)) → Typed me l (.await next)

/-! ### Every path of every operation -/

section Paths
variable {me : Nat} {l : Locks} {next : VfsProg}

theorem typed_look {next : Vfs → VfsProg} (later : ∀ s, Typed me l (next s)) : Typed me l (look next) :=
  .act (fun _ => rfl) (fun _ => ⟨rfl,rfl,rfl,rfl⟩) later

theorem typed_store {effect : Vfs → Vfs} (same : ∀ s, SameLocks s (effect s)) (later : Typed me l next) :
    Typed me l (store effect next) :=
  .act (fun _ => rfl) same fun _ => later

theorem typed_startOp (later : Typed me ⟨false,false,false⟩ next) : Typed me ⟨false,false,false⟩ (vfsStartOp me next) := by
  refine .op (fun s => ?_) fun s => ?_
  · split <;> exact ⟨rfl,rfl,rfl,rfl⟩
  · split
    · exact later
    · exact .ret

theorem typed_finish : Typed me ⟨false,false,false⟩ (finish me code) := by
  refine .op (fun s => ?_) fun s => ?_
  · unfold Vfs.endOp
    dsimp only
    split <;> simp [SameLocks,Vfs.up]
  · split
    · exact .panic
    · exact .ret

theorem typed_leaveTable : Typed me ⟨false,true,false⟩ (semaphoreV .vfsTable (finish me code)) := .unlockTable typed_finish

theorem typed_leaveFiles : Typed me ⟨false,false,true⟩ (semaphoreV .openfileTable (finish me code)) := .unlockFiles typed_finish

theorem typed_finishBoth : Typed me ⟨false,true,true⟩ (finishBoth me code) := .unlockFiles typed_leaveTable

theorem typed_mount : Typed me ⟨false,false,false⟩ (vfsMount me fs name) := by
  unfold vfsMount
  split
  · exact .panic
  apply typed_startOp
  apply Typed.lockTable
  apply typed_look
  intro s
  split
  · exact typed_leaveTable
  split
  · exact typed_leaveTable
  · exact typed_store (fun _ => ⟨rfl,rfl,rfl,rfl⟩) typed_leaveTable

theorem typed_unmount : Typed me ⟨false,false,false⟩ (vfsUnmount me name) := by
  apply typed_startOp
  apply Typed.lockTable
  apply typed_look
  intro s
  split
  · exact typed_leaveTable
  apply Typed.lockFiles
  apply typed_look
  intro s
  split
  · exact typed_finishBoth
  · exact .call fun _ => typed_store (fun _ => ⟨rfl,rfl,rfl,rfl⟩) typed_finishBoth

theorem typed_open : Typed me ⟨false,false,false⟩ (vfsOpen me pathname) := by
  apply typed_startOp
  split
  · exact typed_finish
  apply Typed.lockTable
  apply Typed.lockFiles
  refine .act (fun _ => rfl) (fun s => ?_) fun s => ?_
  · unfold Vfs.reserve
    split <;> exact ⟨rfl,rfl,rfl,rfl⟩
  split
  · exact typed_finishBoth
  apply Typed.unlockFiles
  apply Typed.unlockTable
  apply Typed.call
  intro fileid
  split
  · exact .lockFiles (typed_store (fun _ => ⟨rfl,rfl,rfl,rfl⟩) typed_leaveFiles)
  · exact typed_store (fun _ => ⟨rfl,rfl,rfl,rfl⟩) typed_finish

theorem typed_close : Typed me ⟨false,false,false⟩ (vfsClose me file) := by
  apply typed_startOp
  apply Typed.lockFiles
  apply typed_look
  intro s
  split
  · exact .panic
  · exact .call fun _ => typed_store (fun _ => ⟨rfl,rfl,rfl,rfl⟩) typed_leaveFiles

theorem typed_seek : Typed me ⟨false,false,false⟩ (vfsSeek me file seekPosition) := by
  apply typed_startOp
  split
  · exact .panic
  apply Typed.lockFiles
  apply typed_look
  intro s
  split
  · exact .panic
  · exact typed_store (fun _ => ⟨rfl,rfl,rfl,rfl⟩) typed_leaveFiles

theorem typed_transfer : Typed me ⟨false,false,false⟩ (vfsTransfer fn me file buffer size) := by
  apply typed_startOp
  apply typed_look
  intro s
  split
  · exact .panic
  split
  · exact .panic
  apply Typed.call
  intro ret
  split
  · exact .lockFiles (typed_store (fun _ => ⟨rfl,rfl,rfl,rfl⟩) typed_leaveFiles)
  · exact typed_finish

theorem typed_onVolume : Typed me ⟨false,false,false⟩ (onVolume fn me volume) := by
  apply Typed.lockTable
  apply typed_look
  intro s
  split
  · exact typed_leaveTable
  · exact .call fun _ => typed_leaveTable

theorem typed_onPathname : Typed me ⟨false,false,false⟩ (onPathname fn me pathname) := by
  apply typed_startOp
  split
  · exact typed_finish
  · exact typed_onVolume

theorem typed_create : Typed me ⟨false,false,false⟩ (vfsCreate me pathname size) := by
  unfold vfsCreate
  split
  · exact .panic
  · exact typed_onPathname

theorem typed_afterLookup : Typed me ⟨false,false,false⟩ (afterLookup fn me name whole) := by
  apply typed_startOp
  apply Typed.lockTable
  apply Typed.lockFiles
  split
  · exact typed_look fun _ => typed_finishBoth
  refine .act (fun _ => rfl) (fun s => ?_) fun s => ?_
  · split <;> exact ⟨rfl,rfl,rfl,rfl⟩
  split
  · exact typed_finishBoth
  · exact .unlockFiles (.unlockTable (.call fun _ => typed_finish))

theorem typed_unmountRows (rows : List MountRow) (later : Typed me l next) : Typed me l (unmountRows me rows next) := by
  induction rows with
  | nil => exact later
  | cons row rest ih =>
    apply typed_look
    intro s
    split
    · exact ih
    · exact .call fun _ => typed_store (fun _ => ⟨rfl,rfl,rfl,rfl⟩) ih

theorem typed_forceUnmount : Typed me ⟨true,false,false⟩ (forceUnmount me) := by
  apply Typed.lockTable
  apply Typed.lockFiles
  apply typed_unmountRows
  apply Typed.unlockFiles
  apply Typed.unlockTable
  exact .unlockOp .ret

theorem typed_resumeDeinit : Typed me ⟨false,false,false⟩ (resumeDeinit me) := by
  apply Typed.lockOp
  apply typed_look
  intro s
  split
  · exact typed_forceUnmount
  · exact .panic

theorem typed_deinit : Typed me ⟨false,false,false⟩ (vfsDeinit me) := by
  apply Typed.lockOp
  refine .act (fun _ => rfl) (fun _ => ⟨rfl,rfl,rfl,rfl⟩) fun s => ?_
  split
  · exact .unlockOp (.wake typed_resumeDeinit)
  · exact typed_forceUnmount

end Paths

theorem typed_program (me : Nat) (op : Op) : Typed me ⟨false,false,false⟩ (program me op) := by
  cases op with
  | mount => exact typed_mount
  | unmount => exact typed_unmount
  | «open» => exact typed_open
  | close => exact typed_close
  | seek => exact typed_seek
  | read => exact typed_transfer
  | write => exact typed_transfer
  | create => exact typed_create
  | remove => exact typed_onPathname
  | getfree => exact typed_startOp typed_onVolume
  | filecount => exact typed_afterLookup
  | file => exact typed_afterLookup
  | deinit => exact typed_deinit

/-! ### Who holds which lock -/

structure Fits (s : Vfs) (locals : Nat → Locks) : Prop where
  op : Mutex (s.sem .op) fun t => (locals t).op
  table : Mutex (s.sem .vfsTable) fun t => (locals t).table
  files : Mutex (s.sem .openfileTable) fun t => (locals t).files

section Steps
variable {s s' : Vfs} {locals : Nat → Locks} {t : Nat} {l : Locks}

theorem Fits.keep (fits : Fits s locals) (op : s'.sem .op = s.sem .op) (table : s'.sem .vfsTable = s.sem .vfsTable)
    (files : s'.sem .openfileTable = s.sem .openfileTable) : Fits s' locals :=
  ⟨op ▸ fits.op,table ▸ fits.table,files ▸ fits.files⟩

theorem Fits.same (fits : Fits s locals) (same : SameLocks s s') : Fits s' locals :=
  fits.keep same.1 same.2.1 same.2.2.1

theorem kept_lock {flag : Locks → Bool} (mutex : Mutex value fun u => flag (locals u)) (same : flag l = flag (locals t)) :
    Mutex value fun u => flag (Function.update locals t l u) := by
  apply mutex.congr
  intro u
  by_cases here : u = t <;> simp [here,same]

theorem taken_lock {flag : Locks → Bool} (mutex : Mutex (s.sem x) fun u => flag (locals u)) (free : 0 < s.sem x)
    (mine : flag l = true) : Mutex ((s.down x).sem x) fun u => flag (Function.update locals t l u) := by
  have value : (s.down x).sem x = s.sem x - 1 := by
    unfold Vfs.down
    exact Function.update_self ..
  rw [value]
  apply mutex.acquire free (t := t)
  · simpa using mine
  · intro u apart
    simp [apart]

theorem freed_lock {flag : Locks → Bool} (mutex : Mutex (s.sem x) fun u => flag (locals u)) (held : flag (locals t) = true)
    (dropped : flag l = false) : Mutex ((s.up x).sem x) fun u => flag (Function.update locals t l u) := by
  have value : (s.up x).sem x = s.sem x + 1 := by
    unfold Vfs.up
    exact Function.update_self ..
  rw [value]
  apply mutex.release (t := t) held
  · simpa using dropped
  · intro u apart
    simp [apart]

theorem step_typed (fits : Fits s locals) (type : Typed t (locals t) prog)
    (advanced : advance invoke result prog s = some (s', next)) :
    ∃ l, Fits s' (Function.update locals t l) ∧ Typed t l next := by
  generalize at_ : locals t = l at type
  have stay : Function.update locals t l = locals := by rw [← at_,Function.update_eq_self]
  cases type with
  | ret => contradiction
  | panic => contradiction
  | act always same later =>
    obtain ⟨-,rfl,rfl⟩ := Deinit.ready_of_advance advanced
    exact ⟨l,by rw [stay]; exact fits.same (same s),later s⟩
  | op same later =>
    obtain ⟨-,rfl,rfl⟩ := Deinit.ready_of_advance advanced
    exact ⟨_,by rw [stay]; exact fits.same (same s),later s⟩
  | wake later =>
    obtain ⟨-,rfl,rfl⟩ := Deinit.ready_of_advance advanced
    exact ⟨_,by rw [stay]; exact fits.same ⟨rfl,rfl,rfl,rfl⟩,later⟩
  | lockOp later =>
    obtain ⟨free,rfl,rfl⟩ := Deinit.ready_of_advance advanced
    refine ⟨_,⟨taken_lock fits.op (by simpa using free) ?_,kept_lock fits.table ?_,kept_lock fits.files ?_⟩,later⟩ <;>
      simp [at_]
  | lockTable later =>
    obtain ⟨free,rfl,rfl⟩ := Deinit.ready_of_advance advanced
    refine ⟨_,⟨kept_lock fits.op ?_,taken_lock fits.table (by simpa using free) ?_,kept_lock fits.files ?_⟩,later⟩ <;>
      simp [at_]
  | lockFiles later =>
    obtain ⟨free,rfl,rfl⟩ := Deinit.ready_of_advance advanced
    refine ⟨_,⟨kept_lock fits.op ?_,kept_lock fits.table ?_,taken_lock fits.files (by simpa using free) ?_⟩,later⟩ <;>
      simp [at_]
  | unlockOp later =>
    obtain ⟨-,rfl,rfl⟩ := Deinit.ready_of_advance advanced
    refine ⟨_,⟨freed_lock fits.op ?_ ?_,kept_lock fits.table ?_,kept_lock fits.files ?_⟩,later⟩ <;> simp [at_]
  | unlockTable later =>
    obtain ⟨-,rfl,rfl⟩ := Deinit.ready_of_advance advanced
    refine ⟨_,⟨kept_lock fits.op ?_,freed_lock fits.table ?_ ?_,kept_lock fits.files ?_⟩,later⟩ <;> simp [at_]
  | unlockFiles later =>
    obtain ⟨-,rfl,rfl⟩ := Deinit.ready_of_advance advanced
    refine ⟨_,⟨kept_lock fits.op ?_,kept_lock fits.table ?_,freed_lock fits.files ?_ ?_⟩,later⟩ <;> simp [at_]
  | call later =>
    cases advanced
    refine ⟨l,?_,.await later⟩
    rw [stay]
    unfold invoke
    split <;> exact fits.keep rfl rfl rfl
  | await later =>
    cases advanced
    exact ⟨l,by rwa [stay],later result⟩

theorem act_unmounted (type : Typed t l (.act ready effect after)) (s : Vfs) : (effect s).unmounted = s.unmounted := by
  cases type with
  | act _ same => exact (same s).2.2.2
  | op same => exact (same s).2.2.2
  | _ => rfl

theorem enter_locks (entered : enter t op s = some s') : SameLocks s s' := by
  unfold enter at entered
  split at entered
  · split at entered
    · contradiction
    · cases entered
      exact ⟨rfl,rfl,rfl,rfl⟩
  all_goals
    cases entered
    exact ⟨rfl,rfl,rfl,rfl⟩

theorem ret_free (rest : idle prog = true) (type : Typed t l prog) : l = ⟨false,false,false⟩ := by
  cases prog with
  | ret code => cases type; rfl
  | _ => contradiction

end Steps

def Invariant : VfsConfig → Prop := Modular Fits Typed

theorem initial_invariant : Invariant initial := by
  refine ⟨fun _ => ⟨false,false,false⟩,⟨?_,?_,?_⟩,fun _ => .ret⟩ <;>
    exact ⟨⟨by decide,by simp,by simp⟩,by simp [initial]⟩

theorem step_invariant (invariant : Invariant c) (next : step m c = some d) : Invariant d := by
  refine Modular.move invariant ?_ ?_ next
  · intro locals t op s _ fits rest type entered
    refine ⟨⟨false,false,false⟩,?_,typed_program t op⟩
    rw [← ret_free rest type,Function.update_eq_self]
    exact fits.same (enter_locks entered)
  · intro locals t result s next _ fits type advanced
    exact step_typed fits type advanced

end Buenos.Fs.Order
