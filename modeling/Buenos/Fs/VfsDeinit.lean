import Buenos.Fs.Vfs

/-! Counting operations against the forced unmount. `Typed` follows one program through
`vfs_start_op` and `vfs_end_op` on every path; `Fits` ties the phases of all threads to
`vfs_ops`, `vfs_usable` and the two semaphores of the handshake. -/
namespace Buenos.Fs.Deinit

open Buenos.Foundation

/-- Where a thread stands: outside an operation, inside one, or in `vfs_deinit`. -/
inductive Phase where
  | rest
  | inside
  | called
  | entering
  | draining
  | waiting
  | woken
  | resumed
  | forcing
  deriving DecidableEq

/-- What the handshake depends on is unchanged. -/
def Same (s t : Vfs) : Prop :=
  t.ops = s.ops ∧ t.usable = s.usable ∧ t.active = s.active ∧ t.deinit = s.deinit ∧
  t.sem .op = s.sem .op ∧ t.sem .unmount = s.sem .unmount

inductive Typed (me : Nat) : Phase → VfsProg → Prop where
  | ret : Typed me .rest (.ret code)
  | panic : a ≠ .opsNonnegative → a ≠ .opsZero → Typed me phase (.panic a)
  | start : Typed me .inside next → Typed me .rest (vfsStartOp me next)
  | finish : Typed me .rest next → Typed me .inside (vfsEndOp me next)
  | act : phase = .inside ∨ phase = .forcing → (∀ s, Same s (effect s)) →
      (∀ s, Typed me phase (next s)) → Typed me phase (.act ready effect next)
  | call : (phase = .inside ∧ e.fn ≠ .forcedUnmount) ∨ phase = .forcing →
      (∀ r, Typed me phase (next r)) → Typed me phase (.call e next)
  | await : phase = .inside ∨ phase = .forcing → (∀ r, Typed me phase (next r)) →
      Typed me phase (.await next)
  | enter : Typed me .entering next → Typed me .called (semaphoreP .op next)
  | disable : Typed me .draining busy → Typed me .forcing quiet →
      Typed me .entering (.act (fun _ => true) (fun s => { s with usable := false })
        fun s => if 0 < s.ops then busy else quiet)
  | release : Typed me .waiting next → Typed me .draining (semaphoreV .op next)
  | wake : Typed me .woken next → Typed me .waiting (semaphoreP .unmount next)
  | retake : Typed me .resumed next → Typed me .woken (semaphoreP .op next)
  | check : Typed me .forcing next →
      Typed me .resumed (look fun s => if s.ops = 0 then next else .panic .opsZero)
  | leave : Typed me .rest next → Typed me .forcing (semaphoreV .op next)

/-! ### Every path of every operation -/

section Paths
variable {me : Nat} {phase : Phase} {next : VfsProg}

theorem Typed.look {next : Vfs → VfsProg} (inside : phase = .inside ∨ phase = .forcing)
    (later : ∀ s, Typed me phase (next s)) : Typed me phase (Fs.look next) :=
  .act inside (fun _ => ⟨rfl,rfl,rfl,rfl,rfl,rfl⟩) later

theorem Typed.store (inside : phase = .inside ∨ phase = .forcing) (same : ∀ s, Same s (effect s))
    (later : Typed me phase next) : Typed me phase (Fs.store effect next) :=
  .act inside same fun _ => later

theorem Typed.p (inside : phase = .inside ∨ phase = .forcing) (op : x ≠ .op) (unmount : x ≠ .unmount)
    (later : Typed me phase next) : Typed me phase (semaphoreP x next) := by
  refine .act inside (fun s => ?_) fun _ => later
  simp [Same,Vfs.down,Ne.symm op,Ne.symm unmount]

theorem Typed.v (inside : phase = .inside ∨ phase = .forcing) (op : x ≠ .op) (unmount : x ≠ .unmount)
    (later : Typed me phase next) : Typed me phase (semaphoreV x next) := by
  refine .act inside (fun s => ?_) fun _ => later
  simp [Same,Vfs.up,Ne.symm op,Ne.symm unmount]

theorem Typed.driver {next : Int → VfsProg} (ordinary : fn ≠ .forcedUnmount)
    (later : ∀ r, Typed me .inside (next r)) : Typed me .inside (Fs.driver fn fs me next) :=
  .call (.inl ⟨rfl,ordinary⟩) later

theorem typed_finish : Typed me .inside (Fs.finish me code) := .finish .ret

theorem typed_finishBoth : Typed me .inside (finishBoth me code) :=
  .v (.inl rfl) (by decide) (by decide) (.v (.inl rfl) (by decide) (by decide) typed_finish)

theorem typed_unlockTable : Typed me .inside (semaphoreV .vfsTable (Fs.finish me code)) :=
  .v (.inl rfl) (by decide) (by decide) typed_finish

theorem typed_unlockFiles : Typed me .inside (semaphoreV .openfileTable (Fs.finish me code)) :=
  .v (.inl rfl) (by decide) (by decide) typed_finish

theorem typed_lockTable (later : Typed me .inside next) : Typed me .inside (semaphoreP .vfsTable next) :=
  .p (.inl rfl) (by decide) (by decide) later

theorem typed_lockFiles (later : Typed me .inside next) :
    Typed me .inside (semaphoreP .openfileTable next) :=
  .p (.inl rfl) (by decide) (by decide) later

theorem typed_mount : Typed me .rest (vfsMount me fs name) := by
  unfold vfsMount
  split
  · exact .panic (by decide) (by decide)
  refine .start (typed_lockTable (.look (.inl rfl) fun s => ?_))
  split
  · exact typed_unlockTable
  split
  · exact typed_unlockTable
  · exact .store (.inl rfl) (fun _ => ⟨rfl,rfl,rfl,rfl,rfl,rfl⟩) typed_unlockTable

theorem typed_unmount : Typed me .rest (vfsUnmount me name) := by
  refine .start (typed_lockTable (.look (.inl rfl) fun s => ?_))
  split
  · exact typed_unlockTable
  refine typed_lockFiles (.look (.inl rfl) fun s => ?_)
  split
  · exact typed_finishBoth
  · exact .driver (by decide) fun _ =>
      .store (.inl rfl) (fun _ => ⟨rfl,rfl,rfl,rfl,rfl,rfl⟩) typed_finishBoth

theorem reserve_same (s : Vfs) (chosen : Except Int (FileRow × FsPtr)) : Same s (s.reserve chosen) := by
  cases chosen <;> exact ⟨rfl,rfl,rfl,rfl,rfl,rfl⟩

theorem typed_open : Typed me .rest (vfsOpen me pathname) := by
  refine .start ?_
  split
  · exact typed_finish
  refine typed_lockTable (typed_lockFiles (.act (.inl rfl) (fun s => reserve_same s _) fun s => ?_))
  split
  · exact typed_finishBoth
  refine .v (.inl rfl) (by decide) (by decide) (.v (.inl rfl) (by decide) (by decide) ?_)
  refine .driver (by decide) fun fileid => ?_
  split
  · exact typed_lockFiles (.store (.inl rfl) (fun _ => ⟨rfl,rfl,rfl,rfl,rfl,rfl⟩) typed_unlockFiles)
  · exact .store (.inl rfl) (fun _ => ⟨rfl,rfl,rfl,rfl,rfl,rfl⟩) typed_finish

theorem typed_close : Typed me .rest (vfsClose me file) := by
  refine .start (typed_lockFiles (.look (.inl rfl) fun s => ?_))
  split
  · exact .panic (by decide) (by decide)
  · exact .driver (by decide) fun _ =>
      .store (.inl rfl) (fun _ => ⟨rfl,rfl,rfl,rfl,rfl,rfl⟩) typed_unlockFiles

theorem typed_seek : Typed me .rest (vfsSeek me file seekPosition) := by
  refine .start ?_
  split
  · exact .panic (by decide) (by decide)
  refine typed_lockFiles (.look (.inl rfl) fun s => ?_)
  split
  · exact .panic (by decide) (by decide)
  · exact .store (.inl rfl) (fun _ => ⟨rfl,rfl,rfl,rfl,rfl,rfl⟩) typed_unlockFiles

theorem typed_transfer (ordinary : fn ≠ .forcedUnmount) :
    Typed me .rest (vfsTransfer fn me file buffer size) := by
  refine .start (.look (.inl rfl) fun s => ?_)
  split
  · exact .panic (by decide) (by decide)
  split
  · exact .panic (by decide) (by decide)
  refine .driver ordinary fun ret => ?_
  split
  · exact typed_lockFiles (.store (.inl rfl) (fun _ => ⟨rfl,rfl,rfl,rfl,rfl,rfl⟩) typed_unlockFiles)
  · exact typed_finish

theorem typed_onVolume (ordinary : fn ≠ .forcedUnmount) : Typed me .inside (onVolume fn me volume) := by
  refine typed_lockTable (.look (.inl rfl) fun s => ?_)
  split
  · exact typed_unlockTable
  · exact .driver ordinary fun _ => typed_unlockTable

theorem typed_onPathname (ordinary : fn ≠ .forcedUnmount) :
    Typed me .rest (onPathname fn me pathname) := by
  refine .start ?_
  split
  · exact typed_finish
  · exact typed_onVolume ordinary

theorem typed_create : Typed me .rest (vfsCreate me pathname size) := by
  unfold vfsCreate
  split
  · exact .panic (by decide) (by decide)
  · exact typed_onPathname (by decide)

theorem typed_afterLookup (ordinary : fn ≠ .forcedUnmount) :
    Typed me .rest (afterLookup fn me name whole) := by
  refine .start (typed_lockTable (typed_lockFiles ?_))
  split
  · exact .look (.inl rfl) fun _ => typed_finishBoth
  refine .act (.inl rfl) (fun s => ?_) fun s => ?_
  · split <;> exact ⟨rfl,rfl,rfl,rfl,rfl,rfl⟩
  split
  · exact typed_finishBoth
  · exact .v (.inl rfl) (by decide) (by decide) (.v (.inl rfl) (by decide) (by decide)
      (.driver ordinary fun _ => typed_finish))

theorem typed_unmountRows (rows : List MountRow) (later : Typed me .forcing next) :
    Typed me .forcing (unmountRows me rows next) := by
  induction rows with
  | nil => exact later
  | cons row rest ih =>
    refine .look (.inr rfl) fun s => ?_
    split
    · exact ih
    · exact .call (.inr rfl) fun _ => .store (.inr rfl) (fun _ => ⟨rfl,rfl,rfl,rfl,rfl,rfl⟩) ih

theorem typed_forceUnmount : Typed me .forcing (forceUnmount me) :=
  .p (.inr rfl) (by decide) (by decide) (.p (.inr rfl) (by decide) (by decide)
    (typed_unmountRows _ (.v (.inr rfl) (by decide) (by decide)
      (.v (.inr rfl) (by decide) (by decide) (.leave .ret)))))

theorem typed_deinit : Typed me .called (vfsDeinit me) :=
  .enter (.disable (.release (.wake (.retake (.check typed_forceUnmount)))) typed_forceUnmount)

end Paths

/-- Every exit path of the twelve operations executes `vfs_end_op` exactly once. -/
theorem typed_program (me : Nat) (op : Op) (ordinary : op ≠ .deinit) : Typed me .rest (program me op) := by
  cases op with
  | mount => exact typed_mount
  | unmount => exact typed_unmount
  | «open» => exact typed_open
  | close => exact typed_close
  | seek => exact typed_seek
  | read => exact typed_transfer (by decide)
  | write => exact typed_transfer (by decide)
  | create => exact typed_create
  | remove => exact typed_onPathname (by decide)
  | getfree => exact .start (typed_onVolume (by decide))
  | filecount => exact typed_afterLookup (by decide)
  | file => exact typed_afterLookup (by decide)
  | deinit => contradiction

/-! ### The handshake -/

/-- What holds of the shared state while the forced unmount is in the given phase; the
first two phases stand for a system in which it is not running. -/
def Facts (s : Vfs) : Phase → Prop
  | .rest | .inside =>
    (s.deinit = false ∧ s.usable = true ∧ s.sem .op = 1 ∧ s.sem .unmount = 0) ∨
    (s.deinit = true ∧ s.usable = false ∧ s.sem .op = 1 ∧ s.active = [])
  | .called => s.deinit = true ∧ s.usable = true ∧ s.sem .op = 1 ∧ s.sem .unmount = 0
  | .entering => s.deinit = true ∧ s.usable = true ∧ s.sem .op = 0 ∧ s.sem .unmount = 0
  | .draining => s.deinit = true ∧ s.usable = false ∧ s.sem .op = 0 ∧
    s.sem .unmount = 0 ∧ s.active ≠ []
  | .waiting => s.deinit = true ∧ s.usable = false ∧ s.sem .op = 1 ∧
    ((s.sem .unmount = 0 ∧ s.active ≠ []) ∨ (s.sem .unmount = 1 ∧ s.active = []))
  | .woken => s.deinit = true ∧ s.usable = false ∧ s.sem .op = 1 ∧ s.active = []
  | .resumed | .forcing => s.deinit = true ∧ s.usable = false ∧ s.sem .op = 0 ∧ s.active = []

def Ordinary (phase : Phase) : Prop := phase = .rest ∨ phase = .inside

structure Fits (s : Vfs) (locals : Nat → Phase) : Prop where
  ops : s.ops = s.active.length
  once : s.active.Nodup
  inside : ∀ t, t ∈ s.active ↔ locals t = .inside
  stage : ∃ d, (∀ t, t ≠ d → Ordinary (locals t)) ∧ Facts s (locals d)

theorem Facts.same (same : Same s t) (facts : Facts s phase) : Facts t phase := by
  obtain ⟨-,usable,active,deinit,op,unmount⟩ := same
  cases phase <;> simp_all [Facts]

theorem Fits.same (fits : Fits s locals) (same : Same s s') : Fits s' locals := by
  obtain ⟨ops,once,inside,d,others,facts⟩ := fits
  refine ⟨?_,?_,?_,d,others,facts.same same⟩
  · rw [same.1,same.2.2.1,ops]
  · rwa [same.2.2.1]
  · simpa [same.2.2.1] using inside

/-- An ordinary thread changes its phase: the facts are to be checked for every phase the
forced unmount can be in, which is not that of the thread itself. -/
theorem Fits.ordinary (fits : Fits s locals) (before : Ordinary (locals t)) (after : Ordinary phase)
    (ops : s'.ops = s'.active.length) (once : s'.active.Nodup)
    (inside : ∀ u, u ∈ s'.active ↔ Function.update locals t phase u = .inside)
    (facts : ∀ phase, Facts s phase → Facts s' phase) : Fits s' (Function.update locals t phase) := by
  obtain ⟨-,-,-,d,others,holds⟩ := fits
  refine ⟨ops,once,inside,d,?_,?_⟩
  · intro u apart
    by_cases same : u = t
    · subst same; simpa using after
    · simpa [same] using others u apart
  · by_cases same : d = t
    · subst same
      have plain : ∀ phase, Ordinary phase → (Facts s' phase ↔ Facts s' .rest) := by
        rintro _ (rfl | rfl) <;> exact Iff.rfl
      rw [Function.update_self,plain phase after,← plain _ before]
      exact facts _ holds
    · simpa [same] using facts _ holds

theorem Fits.deinit (fits : Fits s locals) (at_ : locals d = before) (forced : ¬Ordinary before)
    (outside : phase ≠ .inside) (counts : s'.ops = s.ops ∧ s'.active = s.active)
    (facts : Facts s before → Facts s' phase) : Fits s' (Function.update locals d phase) := by
  obtain ⟨ops,once,inside,e,others,holds⟩ := fits
  have same : e = d := by
    by_contra apart
    exact forced (at_ ▸ others d (Ne.symm apart))
  subst same
  refine ⟨?_,?_,?_,e,?_,?_⟩
  · rw [counts.1,counts.2,ops]
  · rwa [counts.2]
  · intro u
    rw [counts.2,inside]
    by_cases same : u = e
    · subst same
      have : locals u ≠ .inside := by rintro h; exact forced (at_ ▸ .inr h)
      simp [this,outside]
    · simp [same]
  · intro u apart
    simpa [apart] using others u apart
  · simpa using facts (at_ ▸ holds)

theorem initial_fits : Fits initial.shared (fun _ => .rest) := by
  refine ⟨rfl,List.nodup_nil,by simp [initial],0,fun _ _ => .inl rfl,.inl ⟨rfl,rfl,rfl,rfl⟩⟩

theorem start_fits (fits : Fits s locals) (at_ : locals t = .rest) (usable : s.usable = true) :
    Fits { s with ops := s.ops + 1, active := t :: s.active } (Function.update locals t .inside) := by
  have fresh : t ∉ s.active := by simp [fits.inside,at_]
  refine fits.ordinary (.inl at_) (.inr rfl) ?_ ?_ ?_ ?_
  · simp [fits.ops]
  · simpa using ⟨fresh,fits.once⟩
  · intro u
    by_cases same : u = t
    · simp [same]
    · simp [same,fits.inside]
  · intro phase facts
    cases phase <;> simp_all [Facts]

theorem finish_fits (fits : Fits s locals) (at_ : locals t = .inside) (free : 0 < s.sem .op) :
    Fits (s.endOp t) (Function.update locals t .rest) := by
  have member : t ∈ s.active := (fits.inside t).mpr at_
  have nonempty : s.active ≠ [] := by rintro h; simp [h] at member
  have length : (s.active.erase t).length = s.active.length - 1 := List.length_erase_of_mem member
  have positive := List.length_pos_of_mem member
  have active : (s.endOp t).active = s.active.erase t := by unfold Vfs.endOp; dsimp only; split <;> rfl
  have ops : (s.endOp t).ops = s.ops - 1 := by unfold Vfs.endOp; dsimp only; split <;> rfl
  have empty : s.active.erase t = [] ↔ s.ops - 1 = 0 := by
    rw [← List.length_eq_zero_iff,length,fits.ops]; omega
  refine fits.ordinary (.inr at_) (.inl rfl) ?_ ?_ ?_ ?_
  · rw [ops,active,length,fits.ops]; omega
  · rw [active]; exact fits.once.erase t
  · intro u
    rw [active]
    by_cases same : u = t
    · subst same; simp [fits.once.mem_erase_iff]
    · simp [same,fits.once.mem_erase_iff,fits.inside]
  · intro phase facts
    -- with an operation in progress and the semaphore free only two phases are left
    have cases : s.usable = true ∨ (phase = .waiting ∧ s.sem .unmount = 0) := by
      cases phase <;> simp_all [Facts]
    rcases cases with usable | ⟨rfl,unmount⟩
    · have plain : s.endOp t = { s with ops := s.ops - 1, active := s.active.erase t } := by
        simp [Vfs.endOp,usable]
      rw [plain]
      cases phase <;> simp_all [Facts]
    · obtain ⟨deinit,usable,op,-⟩ := facts
      by_cases last : s.ops - 1 = 0
      · simp [Facts,Vfs.endOp,Vfs.up,usable,last,deinit,op,unmount,empty.mpr last]
      · simp [Facts,Vfs.endOp,usable,last,deinit,op,unmount,empty]

theorem ret_idle (rest : idle prog = true) (type : Typed t phase prog) : phase = .rest := by
  cases prog with
  | ret code => cases type; rfl
  | _ => contradiction

theorem invoke_same (e : DriverCall) (s : Vfs) : Same s (invoke e s) := by
  unfold invoke
  split <;> exact ⟨rfl,rfl,rfl,rfl,rfl,rfl⟩

theorem ready_of_advance {ready : Vfs → Bool} {next : Vfs → VfsProg}
    (advanced : advance invoke result (.act ready effect next) s = some (s', later)) :
    ready s = true ∧ s' = effect s ∧ later = next s := by
  simp only [advance] at advanced
  split at advanced
  · next enabled =>
    obtain ⟨rfl,rfl⟩ := Prod.mk.inj (Option.some.inj advanced)
    exact ⟨enabled,rfl,rfl⟩
  · contradiction

theorem step_typed (fits : Fits s locals) (type : Typed t (locals t) prog)
    (advanced : advance invoke result prog s = some (s', next)) :
    ∃ phase, Fits s' (Function.update locals t phase) ∧ Typed t phase next := by
  generalize at_ : locals t = phase at type
  have stay : Function.update locals t phase = locals := by rw [← at_,Function.update_eq_self]
  cases type with
  | ret => contradiction
  | panic => contradiction
  | start later =>
    obtain ⟨-,rfl,rfl⟩ := ready_of_advance advanced
    by_cases usable : s.usable = true
    · rw [if_pos usable,if_pos usable]
      exact ⟨.inside,start_fits fits at_ usable,later⟩
    · rw [if_neg usable,if_neg usable]
      exact ⟨.rest,by rwa [stay],.ret⟩
  | finish later =>
    obtain ⟨free,rfl,rfl⟩ := ready_of_advance advanced
    have member : t ∈ s.active := (fits.inside t).mpr at_
    have positive : ¬s.ops - 1 < 0 := by
      have := List.length_pos_of_mem member
      rw [fits.ops]; omega
    rw [if_neg positive]
    exact ⟨.rest,finish_fits fits at_ (by simpa using free),later⟩
  | act inside same later =>
    obtain ⟨-,rfl,rfl⟩ := ready_of_advance advanced
    exact ⟨phase,by rw [stay]; exact fits.same (same s),later s⟩
  | call inside later =>
    cases advanced
    refine ⟨phase,by rw [stay]; exact fits.same (invoke_same _ s),.await ?_ later⟩
    rcases inside with ⟨rfl,-⟩ | rfl
    · exact .inl rfl
    · exact .inr rfl
  | await inside later =>
    cases advanced
    exact ⟨phase,by rwa [stay],later result⟩
  | enter later =>
    obtain ⟨-,rfl,rfl⟩ := ready_of_advance advanced
    refine ⟨.entering,fits.deinit at_ (by simp [Ordinary]) (by decide) ⟨rfl,rfl⟩ ?_,later⟩
    rintro ⟨deinit,usable,op,unmount⟩
    simp [Facts,Vfs.down,deinit,usable,op,unmount]
  | disable busy quiet =>
    obtain ⟨-,rfl,rfl⟩ := ready_of_advance advanced
    by_cases positive : 0 < s.ops
    · rw [if_pos positive]
      refine ⟨.draining,fits.deinit at_ (by simp [Ordinary]) (by decide) ⟨rfl,rfl⟩ ?_,busy⟩
      rintro ⟨deinit,usable,op,unmount⟩
      refine ⟨deinit,rfl,op,unmount,?_⟩
      rintro (empty : s.active = [])
      simp [fits.ops,empty] at positive
    · rw [if_neg positive]
      refine ⟨.forcing,fits.deinit at_ (by simp [Ordinary]) (by decide) ⟨rfl,rfl⟩ ?_,quiet⟩
      rintro ⟨deinit,usable,op,unmount⟩
      refine ⟨deinit,rfl,op,?_⟩
      change s.active = []
      rw [fits.ops] at positive
      exact List.length_eq_zero_iff.mp (by omega)
  | release later =>
    obtain ⟨-,rfl,rfl⟩ := ready_of_advance advanced
    refine ⟨.waiting,fits.deinit at_ (by simp [Ordinary]) (by decide) ⟨rfl,rfl⟩ ?_,later⟩
    rintro ⟨deinit,usable,op,unmount,busy⟩
    simp [Facts,Vfs.up,deinit,usable,op,unmount,busy]
  | wake later =>
    obtain ⟨ready,rfl,rfl⟩ := ready_of_advance advanced
    refine ⟨.woken,fits.deinit at_ (by simp [Ordinary]) (by decide) ⟨rfl,rfl⟩ ?_,later⟩
    rintro ⟨deinit,usable,op,⟨unmount,-⟩ | ⟨-,empty⟩⟩
    · simp [unmount] at ready
    · simp [Facts,Vfs.down,deinit,usable,op,empty]
  | retake later =>
    obtain ⟨-,rfl,rfl⟩ := ready_of_advance advanced
    refine ⟨.resumed,fits.deinit at_ (by simp [Ordinary]) (by decide) ⟨rfl,rfl⟩ ?_,later⟩
    rintro ⟨deinit,usable,op,empty⟩
    simp [Facts,Vfs.down,deinit,usable,op,empty]
  | check later =>
    obtain ⟨-,same,rfl⟩ := ready_of_advance advanced
    rw [show s' = s from same]
    have facts : Facts s .resumed := by
      obtain ⟨-,-,-,d,others,facts⟩ := fits
      have same : d = t := by
        by_contra apart
        have := others t (Ne.symm apart)
        simp [at_,Ordinary] at this
      rwa [same,at_] at facts
    have zero : s.ops = 0 := by rw [fits.ops,facts.2.2.2]; rfl
    rw [if_pos zero]
    exact ⟨.forcing,fits.deinit at_ (by simp [Ordinary]) (by decide) ⟨rfl,rfl⟩ id,later⟩
  | leave later =>
    obtain ⟨-,rfl,rfl⟩ := ready_of_advance advanced
    refine ⟨.rest,fits.deinit at_ (by simp [Ordinary]) (by decide) ⟨rfl,rfl⟩ ?_,later⟩
    rintro ⟨deinit,usable,op,empty⟩
    simp [Facts,Vfs.up,deinit,usable,op,empty]

theorem start_typed (fits : Fits s locals) (at_ : locals t = .rest) (entered : enter t op s = some s') :
    ∃ phase, Fits s' (Function.update locals t phase) ∧ Typed t phase (program t op) := by
  have stay : Function.update locals t .rest = locals := by rw [← at_,Function.update_eq_self]
  by_cases ordinary : op = .deinit
  · subst ordinary
    simp only [enter] at entered
    split at entered
    · contradiction
    next fresh =>
    cases entered
    refine ⟨.called,?_,typed_deinit⟩
    obtain ⟨ops,once,inside,d,others,facts⟩ := fits
    -- no thread is in the forced unmount, so the starting one takes the part
    have plain : ∀ u, Ordinary (locals u) := by
      intro u
      by_cases same : u = d
      · subst same
        cases phase : locals u <;> simp_all [Facts,Ordinary]
      · exact others u same
    refine ⟨ops,once,?_,t,?_,?_⟩
    · intro u
      by_cases same : u = t
      · subst same; simp [inside,at_]
      · simp [same,inside]
    · intro u apart
      simpa [apart] using plain u
    · rcases plain d with phase | phase <;> simp_all [Facts]
  · refine ⟨.rest,?_,typed_program t op ordinary⟩
    rw [stay]
    cases op <;> first
      | contradiction
      | (cases entered; exact fits.same ⟨rfl,rfl,rfl,rfl,rfl,rfl⟩)

def Invariant : VfsConfig → Prop := Modular Fits Typed

theorem initial_invariant : Invariant initial := ⟨fun _ => .rest,initial_fits,fun _ => .ret⟩

theorem step_invariant (invariant : Invariant c) (next : step m c = some d) : Invariant d := by
  refine Modular.move invariant ?_ ?_ next
  · intro locals t op s _ fits rest type entered
    exact start_typed fits (ret_idle rest type) entered
  · intro locals t result s next _ fits type advanced
    exact step_typed fits type advanced

theorem reachable_invariant (ran : run step moves initial = some c) : Invariant c :=
  run_invariant (fun _ _ _ invariant next => step_invariant invariant next) initial_invariant ran

/-! ### After `vfs_usable` is cleared -/

/-- The assertions that precede `vfs_start_op` hold; `vfs_deinit` is no operation. -/
def Admissible : Op → Prop
  | .mount _ name => name ≠ []
  | .create _ size => 0 ≤ size
  | .deinit => False
  | _ => True

theorem program_starts (admissible : Admissible op) : ∃ next, program t op = vfsStartOp t next := by
  cases op with
  | mount fs name => exact ⟨_,if_neg admissible⟩
  | create pathname size => exact ⟨_,if_neg (not_lt.mpr admissible)⟩
  | deinit => exact admissible.elim
  | _ => exact ⟨_,rfl⟩

theorem unusable_stays (type : Typed t phase prog) (unusable : s.usable = false)
    (advanced : advance invoke result prog s = some (s', next)) : s'.usable = false := by
  cases type with
  | ret => contradiction
  | panic => contradiction
  | start =>
    obtain ⟨-,rfl,-⟩ := ready_of_advance advanced
    simp [unusable]
  | finish =>
    obtain ⟨-,rfl,-⟩ := ready_of_advance advanced
    unfold Vfs.endOp
    dsimp only
    split <;> exact unusable
  | act _ same =>
    obtain ⟨-,rfl,-⟩ := ready_of_advance advanced
    rw [(same s).2.1,unusable]
  | call => cases advanced; rw [(invoke_same _ s).2.1,unusable]
  | await => cases advanced; exact unusable
  | disable => obtain ⟨-,rfl,-⟩ := ready_of_advance advanced; rfl
  | enter | release | wake | retake | check | leave =>
    obtain ⟨-,rfl,-⟩ := ready_of_advance advanced; exact unusable

theorem enter_usable (entered : enter t op s = some s') : s'.usable = s.usable := by
  cases op with
  | deinit =>
    simp only [enter] at entered
    split at entered
    · contradiction
    · cases entered; rfl
  | _ => cases entered; rfl

/-- The operation still stands before its `vfs_start_op`, which can only refuse it, or it
has returned. -/
def Refused (t : Nat) (op : Op) (c : VfsConfig) : Prop :=
  c.threads t = .ret vfsUnusable ∨
  c.threads t = program t op ∧ ∀ result, step (.step t result) c =
    if 0 < c.shared.sem .op then some ⟨c.shared, Function.update c.threads t (.ret vfsUnusable)⟩ else none

theorem refused_start (admissible : Admissible op) (at_ : c.threads t = program t op)
    (unusable : c.shared.usable = false) : Refused t op c := by
  refine .inr ⟨at_,fun result => ?_⟩
  obtain ⟨next,starts⟩ := program_starts (t := t) admissible
  by_cases free : 0 < c.shared.sem .op <;>
    simp [step,move,at_,starts,vfsStartOp,locked,advance,free,unusable]

structure Unusable (t : Nat) (op : Op) (c : VfsConfig) : Prop where
  invariant : Invariant c
  unusable : c.shared.usable = false
  refused : c.threads t = .ret vfsUnusable ∨ c.threads t = program t op

theorem step_unusable (admissible : Admissible op) (holds : Unusable t op c)
    (other : ∀ op', m ≠ .start t op') (next : step m c = some d) : Unusable t op d := by
  obtain ⟨invariant,unusable,refused⟩ := holds
  refine ⟨step_invariant invariant next,?_,?_⟩
  · obtain ⟨locals,-,types⟩ := invariant
    cases m with
    | start u op' =>
      simp only [step,move] at next
      split at next
      · obtain ⟨s,entered,rfl⟩ := Option.map_eq_some_iff.mp next
        rw [enter_usable entered,unusable]
      · contradiction
    | step u result =>
      obtain ⟨⟨s,later⟩,advanced,rfl⟩ := Option.map_eq_some_iff.mp next
      exact unusable_stays (types u) unusable advanced
  · cases m with
    | start u op' =>
      have apart : t ≠ u := by rintro rfl; exact other op' rfl
      simp only [step,move] at next
      split at next
      · obtain ⟨s,-,rfl⟩ := Option.map_eq_some_iff.mp next
        simpa [apart] using refused
      · contradiction
    | step u result =>
      by_cases same : u = t
      · subst same
        rcases refused with returned | waiting
        · simp [step,move,returned,advance] at next
        · rcases refused_start admissible waiting unusable with returned | ⟨-,steps⟩
          · simp [step,move,returned,advance] at next
          rw [steps result] at next
          split at next
          · cases next; exact .inl (by simp)
          · contradiction
      · obtain ⟨⟨s,later⟩,-,rfl⟩ := Option.map_eq_some_iff.mp next
        simpa [Ne.symm same] using refused

theorem run_unusable (admissible : Admissible op) (invariant : Invariant c)
    (unusable : c.shared.usable = false) (alone : ∀ m ∈ later, ∀ op', m ≠ .start t op')
    (ran : run step (.start t op :: later) c = some d) : Refused t op d := by
  obtain ⟨b,started,ran⟩ := Option.bind_eq_some_iff.mp ran
  have first : Unusable t op b := by
    refine ⟨step_invariant invariant started,?_,?_⟩ <;>
    · simp only [step,move] at started
      split at started
      · obtain ⟨s,entered,rfl⟩ := Option.map_eq_some_iff.mp started
        simp [enter_usable entered,unusable]
      · contradiction
  have meets : Meets step (fun m _ => ∀ op', m ≠ .start t op') later b :=
    meets_of_forall alone
  have last := run_guarded (fun _ _ _ holds other next => step_unusable admissible holds other next)
    first meets ran
  rcases last.refused with returned | waiting
  · exact .inl returned
  · exact refused_start admissible waiting last.unusable

theorem active_busy (invariant : Invariant c) (member : t ∈ c.shared.active) :
    idle (c.threads t) = false := by
  obtain ⟨locals,fits,types⟩ := invariant
  by_contra rest
  have phase := ret_idle (by simpa using rest) (types t)
  simp [(fits.inside t).mp member] at phase

theorem forced_quiet (invariant : Invariant c) (at_ : c.threads t = .call e next)
    (forced : e.fn = .forcedUnmount) : c.shared.active = [] := by
  obtain ⟨locals,fits,types⟩ := invariant
  have type := types t
  rw [at_] at type
  have phase : locals t = .forcing := by
    generalize locals t = phase at type
    cases type with
    | call inside => simpa [forced] using inside
  obtain ⟨-,-,-,d,others,facts⟩ := fits
  have same : d = t := by
    by_contra apart
    simpa [Ordinary,phase] using others t (Ne.symm apart)
  rw [same,phase] at facts
  exact facts.2.2.2

theorem assertions_hold (invariant : Invariant c) :
    c.threads t ≠ .panic .opsNonnegative ∧ c.threads t ≠ .panic .opsZero := by
  obtain ⟨locals,-,types⟩ := invariant
  have type := types t
  generalize locals t = phase at type
  constructor <;>
  · intro at_
    rw [at_] at type
    cases type; contradiction

/-- The forced unmount protocol, over every run with one `vfs_deinit`. -/
theorem forced_unmount (ran : run step moves initial = some c) :
    (c.shared.ops = c.shared.active.length ∧ c.shared.active.Nodup ∧
      ∀ t ∈ c.shared.active, idle (c.threads t) = false) ∧
    (∀ t, c.threads t ≠ .panic .opsNonnegative ∧ c.threads t ≠ .panic .opsZero) ∧
    (∀ t e next, c.threads t = .call e next → e.fn = .forcedUnmount → c.shared.active = []) ∧
    (c.shared.usable = false → ∀ t op later d, Admissible op →
      (∀ m ∈ later, ∀ op', m ≠ .start t op') → run step (.start t op :: later) c = some d →
      Refused t op d) := by
  have invariant := reachable_invariant ran
  refine ⟨?_,fun t => assertions_hold invariant,fun t e next at_ forced => ?_,?_⟩
  · obtain ⟨locals,fits,types⟩ := id invariant
    exact ⟨fits.ops,fits.once,fun t member => active_busy invariant member⟩
  · exact forced_quiet invariant at_ forced
  · intro unusable t op later d admissible alone ran
    exact run_unusable admissible invariant unusable alone ran

/-- One `vfs_getfree` is in progress when `vfs_deinit` clears `vfs_usable`. -/
def delayedRun : List VfsMove :=
  [.start 0 (.getfree []), .step 0 0, .start 1 .deinit, .step 1 0, .step 1 0]

theorem forced_unmount_delayed : ∃ c, run step delayedRun initial = some c ∧
    c.shared.usable = false ∧ c.shared.ops = 1 ∧ c.shared.active.length = 1 ∧
    ∀ d, run step [.start 2 (.remove [])] c = some d → Refused 2 (.remove []) d := by
  have reached : ((run step delayedRun initial).any fun c =>
      decide (c.shared.usable = false ∧ c.shared.ops = 1)) = true := by decide +kernel
  obtain ⟨c,ran,facts⟩ := (Option.any_eq_true _ _).mp reached
  obtain ⟨unusable,ops⟩ := decide_eq_true_eq.mp facts
  obtain ⟨⟨count,-⟩,-,-,later⟩ := forced_unmount ran
  refine ⟨c,ran,unusable,ops,by omega,fun d started => ?_⟩
  exact later unusable 2 (.remove []) [] d trivial (by simp) started

end Buenos.Fs.Deinit
