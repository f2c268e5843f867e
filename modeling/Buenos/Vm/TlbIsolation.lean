import Buenos.Proc.Loader
import Buenos.Foundation.Run

/-! The TLB of one CPU over processes that start, are switched to and finish, with thread
ids in use as address space identifiers. -/
namespace Buenos.Vm.Isolation

open Buenos.Foundation Buenos.Proc

/-- The rows of the thread table; `CONFIG_MAX_THREADS` of them. -/
abbrev Tid := Fin 32

inductive Stage where
  | free
  | kernel
  | loading (rest : List Stmt)
  | user
  deriving DecidableEq

def Stage.Process : Stage → Prop
  | .loading _ | .user => True
  | _ => False

/-- Not read by the code: `started` counts the processes, `process` is the process that a
thread was last created for, and `writer` the thread and process a TLB row was last
filled for. -/
structure Machine where
  tlb : Tlb
  current : Tid
  stage : Tid → Stage
  pagetable : Tid → Option Pagetable
  started : Nat
  process : Tid → Nat
  writer : Nat → Option (Tid × Nat)

/-- `step` is one statement of `process_start` by the current thread; `page` is what a new
page table's page held and `physaddr` the page the pool gives. -/
inductive Event where
  | spawn (t : Tid) (elf : ElfInfo)
  | kernelThread (t : Tid)
  | switch (t : Tid)
  | step (page : Nat → TlbEntry) (physaddr : Nat)
  | finish

variable (maxindex : Nat)

/-- `tlb_fill` with the current thread's page table. -/
def Machine.fill (s : Machine) : Option Machine :=
  (tlbFill maxindex (s.pagetable s.current) s.tlb).map fun tlb =>
    { s with
      tlb := tlb
      writer := fun row => match s.pagetable s.current with
        | none => s.writer row
        | some pt => if row < pt.validCount then some (s.current, s.process s.current) else s.writer row }

def Machine.setPagetable (s : Machine) (pt : Option Pagetable) : Machine :=
  { s with pagetable := Function.update s.pagetable s.current pt }

def Machine.setStage (s : Machine) (t : Tid) (stage : Stage) : Machine :=
  { s with stage := Function.update s.stage t stage }

def Machine.execute (s : Machine) (page : Nat → TlbEntry) (physaddr : Nat) : Stmt → Option Machine
  | .createPagetable =>
    if (s.pagetable s.current).isSome then none
    else some { s.setPagetable (some (vmCreatePagetable s.current page)) with
      tlb := tlbSetAsid s.tlb s.current }
  | .openExecutable => some s
  | .assert holds => if holds then some s else none
  | .map vaddr =>
    if physaddr = 0 then none
    else ((s.pagetable s.current).bind fun pt => vmMap pt physaddr vaddr true).map fun pt =>
      s.setPagetable (some pt)
  | .fill => s.fill maxindex
  | .touch _ _ => some s
  | .setDirty vaddr dirty =>
    ((s.pagetable s.current).bind fun pt => vmSetDirty pt vaddr dirty).map fun pt =>
      s.setPagetable (some pt)
  | .gotoUserland => some (s.setStage s.current .user)

/-- A thread id is given out again after `thread_finish`, once another thread runs. -/
def step : Event → Machine → Option Machine
  | .spawn t elf, s =>
    if s.stage t = .free ∧ t ≠ s.current then
      some { s with
        stage := Function.update s.stage t (.loading (processStart maxindex elf))
        pagetable := Function.update s.pagetable t none
        started := s.started + 1
        process := Function.update s.process t (s.started + 1) }
    else none
  | .kernelThread t, s =>
    if s.stage t = .free ∧ t ≠ s.current then
      some { s with
        stage := Function.update s.stage t .kernel
        pagetable := Function.update s.pagetable t none }
    else none
  | .switch t, s => if s.stage t = .free then none else { s with current := t }.fill maxindex
  | .step page physaddr, s =>
    match s.stage s.current with
    | .loading (stmt :: rest) => (s.setStage s.current (.loading rest)).execute maxindex page physaddr stmt
    | _ => none
  | .finish, s =>
    match s.stage s.current with
    | .user | .kernel => some ((s.setPagetable none).setStage s.current .free)
    | _ => none

/-- The startup thread runs and no row has been written. -/
def initial : Machine where
  tlb := ⟨fun _ => ⟨0, 0, ⟨0, false, false, false⟩, ⟨0, false, false, false⟩⟩, 0⟩
  current := 0
  stage := Function.update (fun _ => .free) 0 .kernel
  pagetable := fun _ => none
  started := 0
  process := fun _ => 0
  writer := fun _ => none

/-! ### Isolation and its condition -/

def Isolated (s : Machine) : Prop :=
  ∀ vaddr,
    (∀ i j, i ≤ maxindex → j ≤ maxindex → (s.tlb.rows i).Maps s.tlb.asid vaddr →
      (s.tlb.rows j).Maps s.tlb.asid vaddr → i = j) ∧
    ∀ i, i ≤ maxindex → (s.tlb.rows i).Maps s.tlb.asid vaddr →
      ∃ pt, s.pagetable s.current = some pt ∧ ∃ k, k < pt.validCount ∧ pt.entries k = s.tlb.rows i

/-- No row after the page table's was last filled for an earlier process with the thread id. -/
def Spared (s : Machine) (t : Tid) : Prop :=
  ∀ pt, s.pagetable t = some pt → ∀ row, pt.validCount ≤ row → row ≤ maxindex →
    ∀ process, s.writer row = some (t, process) → process = s.process t

/-- The thread whose page table the event writes to the TLB, if it runs in userland next: the
one switched to, or the current one at the last `tlb_fill` of `process_start`. -/
def filledFor (a : Event) (s : Machine) : Option Tid :=
  match a with
  | .switch t => if s.stage t = .user ∨ s.stage t = .loading [.gotoUserland] then some t else none
  | .step _ _ => if s.stage s.current = .loading [.fill, .gotoUserland] then some s.current else none
  | _ => none

/-- Every such `tlb_fill` finds the rows it does not write free of earlier processes with
the same thread id. -/
def FillsSpared (a : Event) (s : Machine) : Prop := ∀ t, filledFor a s = some t → Spared maxindex s t

instance (s : Machine) (t : Tid) : Decidable (Spared maxindex s t) :=
  match found : s.pagetable t with
  | none => isTrue fun pt present => by rw [found] at present; contradiction
  | some pt =>
    have : ∀ row, Decidable (∀ process, s.writer row = some (t, process) → process = s.process t) := fun row =>
      match written : s.writer row with
      | none => isTrue fun _ wrong => by contradiction
      | some (u, process) => decidable_of_iff (u = t → process = s.process t) (by
          constructor
          · intro same other equal
            cases equal
            exact same rfl
          · intro all same
            exact all process (by rw [same]))
    decidable_of_iff (∀ row, row < maxindex + 1 → pt.validCount ≤ row →
        ∀ process, s.writer row = some (t, process) → process = s.process t) (by
      constructor
      · intro all other present row outside inside
        rw [found] at present
        cases present
        exact all row (by omega) outside
      · intro spared row inside outside
        exact spared pt found row outside (by omega))

instance (a : Event) (s : Machine) : Decidable (FillsSpared maxindex a s) :=
  match target : filledFor a s with
  | none => isTrue fun t wrong => by rw [target] at wrong; contradiction
  | some t => decidable_of_iff (Spared maxindex s t) (by
      constructor
      · intro spared u same
        rw [target] at same
        cases same
        exact spared
      · intro fills
        exact fills t target)

/-! ### Invariants -/

/-- What the row holds, given for whom it was last filled. -/
def RowFacts (s : Machine) (row : Nat) : Prop :=
  match s.writer row with
  | none => (s.tlb.rows row).even.v = false ∧ (s.tlb.rows row).odd.v = false
  | some (t, process) =>
    (s.tlb.rows row).asid = t ∧ ((s.tlb.rows row).even.v = true ∨ (s.tlb.rows row).odd.v = true) ∧
    process ≤ s.started ∧
    ((s.stage t).Process → process = s.process t → ∃ pt, s.pagetable t = some pt ∧ row < pt.validCount)

structure Tidy (s : Machine) : Prop where
  started : ∀ t, s.process t ≤ s.started
  tables : ∀ t pt, s.pagetable t = some pt → pt.WellFormed ∧ pt.asid = t
  rows : ∀ row, RowFacts s row
  loading : ∀ t rest, s.stage t = .loading rest → ∃ elf done, processStart maxindex elf = done ++ rest

def Loaded (s : Machine) : Prop :=
  ∃ pt, s.pagetable s.current = some pt ∧ s.tlb.asid = s.current ∧ pt.validCount ≤ maxindex + 1 ∧
    ∀ row, row < pt.validCount → s.tlb.rows row = pt.entries row

def Machine.Ready (s : Machine) : Prop :=
  s.stage s.current = .user ∨ s.stage s.current = .loading [.gotoUserland]

variable {maxindex}

theorem tidy_initial : Tidy maxindex initial := by
  refine ⟨fun _ => Nat.le_refl 0,?_,?_,?_⟩
  · intro t pt found
    contradiction
  · intro row
    exact ⟨rfl,rfl⟩
  · intro t rest loading
    by_cases first : t = 0
    · subst first; simp [initial] at loading
    · simp [initial,Function.update_of_ne first] at loading

theorem tid_mod (t : Tid) : (t : Nat) % 256 = t := Nat.mod_eq_of_lt (by omega)

/-! ### Fills -/

structure FillEffect (maxindex : Nat) (s t : Machine) (pt : Pagetable) : Prop where
  filled : Filled maxindex pt s.tlb t.tlb
  current : t.current = s.current
  stage : t.stage = s.stage
  pagetable : t.pagetable = s.pagetable
  started : t.started = s.started
  process : t.process = s.process
  own : ∀ row, row < pt.validCount → t.writer row = some (s.current, s.process s.current)
  others : ∀ row, pt.validCount ≤ row → t.writer row = s.writer row

theorem fill_effect (found : s.pagetable s.current = some pt) (done : s.fill maxindex = some t) :
    FillEffect maxindex s t pt := by
  obtain ⟨tlb,written,rfl⟩ := Option.map_eq_some_iff.mp done
  rw [found] at written
  refine ⟨tlbFill_filled written,rfl,rfl,rfl,rfl,rfl,?_,?_⟩
  · intro row inside
    simp [found,inside]
  · intro row outside
    simp [found,Nat.not_lt.mpr outside]

theorem fill_absent {s : Machine} (missing : s.pagetable s.current = none) (done : s.fill maxindex = some t) : t = s := by
  obtain ⟨tlb,written,rfl⟩ := Option.map_eq_some_iff.mp done
  rw [missing] at written
  cases written
  simp [missing]

theorem Tidy.fill (tidy : Tidy maxindex s) (done : s.fill maxindex = some t) : Tidy maxindex t := by
  cases found : s.pagetable s.current with
  | none => rwa [fill_absent found done]
  | some pt =>
    have effect := fill_effect found done
    obtain ⟨formed,asid⟩ := tidy.tables _ pt found
    refine ⟨?_,?_,?_,?_⟩
    · rw [effect.process,effect.started]; exact tidy.started
    · rw [effect.pagetable]; exact tidy.tables
    · intro row
      by_cases inside : row < pt.validCount
      · simp only [RowFacts,effect.own row inside,effect.filled.own row inside]
        refine ⟨?_,formed.maps row inside,?_,?_⟩
        · rw [formed.asid row inside,asid,tid_mod]
        · rw [effect.started]; exact tidy.started _
        · intro _ _
          exact ⟨pt,by rw [effect.pagetable,found],inside⟩
      · have outside := Nat.not_lt.mp inside
        have old := tidy.rows row
        simpa only [RowFacts,effect.others row outside,effect.filled.others row outside,effect.stage,
          effect.started,effect.process,effect.pagetable] using old
    · rw [effect.stage]; exact tidy.loading

theorem fill_loaded (tidy : Tidy maxindex s) (found : s.pagetable s.current = some pt)
    (done : s.fill maxindex = some t) : Loaded maxindex t := by
  have effect := fill_effect found done
  refine ⟨pt,by rw [effect.pagetable,effect.current,found],?_,effect.filled.fits,effect.filled.own⟩
  rw [effect.filled.asid,(tidy.tables _ pt found).2,tid_mod,effect.current]

/-! ### Every event keeps the invariant -/

/-- Only the current thread's page table and stage change. -/
structure OwnEffect (s t : Machine) : Prop where
  rows : t.tlb.rows = s.tlb.rows
  current : t.current = s.current
  started : t.started = s.started
  process : t.process = s.process
  writer : t.writer = s.writer
  stages : ∀ u, u ≠ s.current → t.stage u = s.stage u
  pagetables : ∀ u, u ≠ s.current → t.pagetable u = s.pagetable u

theorem Tidy.own (tidy : Tidy maxindex s) (effect : OwnEffect s t)
    (table : ∀ pt, t.pagetable s.current = some pt → pt.WellFormed ∧ pt.asid = s.current)
    (grows : (t.stage s.current).Process → ∀ pt, s.pagetable s.current = some pt →
      (s.stage s.current).Process ∧ ∃ pt', t.pagetable s.current = some pt' ∧ pt.validCount ≤ pt'.validCount)
    (none : s.pagetable s.current = none → (t.stage s.current).Process → (s.stage s.current).Process)
    (loading : ∀ rest, t.stage s.current = .loading rest → ∃ elf done, processStart maxindex elf = done ++ rest) :
    Tidy maxindex t := by
  refine ⟨?_,?_,?_,?_⟩
  · rw [effect.process,effect.started]; exact tidy.started
  · intro u pt found
    by_cases same : u = s.current
    · subst same; exact table pt found
    · exact tidy.tables u pt (by rwa [effect.pagetables u same] at found)
  · intro row
    have old := tidy.rows row
    unfold RowFacts at old ⊢
    rw [effect.writer,effect.rows,effect.process,effect.started]
    split
    · next missing => rw [missing] at old; exact old
    · next u process written =>
      rw [written] at old
      obtain ⟨asid,valid,bound,live⟩ := old
      refine ⟨asid,valid,bound,?_⟩
      intro process mine
      by_cases same : u = s.current
      · subst same
        cases found : s.pagetable s.current with
        | none =>
          obtain ⟨pt,present,_⟩ := live (none found process) mine
          rw [found] at present
          contradiction
        | some pt =>
          obtain ⟨before,pt',after,more⟩ := grows process pt found
          obtain ⟨pt,present,inside⟩ := live before mine
          rw [found] at present
          cases present
          exact ⟨pt',after,by omega⟩
      · rw [effect.stages u same] at process
        rw [effect.pagetables u same]
        exact live process mine
  · intro u rest stage
    by_cases same : u = s.current
    · subst same; exact loading rest stage
    · exact tidy.loading u rest (by rwa [effect.stages u same] at stage)

theorem Tidy.setStage (tidy : Tidy maxindex s) (process : (s.stage s.current).Process)
    (loading : ∀ rest, stage = .loading rest → ∃ elf done, processStart maxindex elf = done ++ rest) :
    Tidy maxindex (s.setStage s.current stage) := by
  have effect : OwnEffect s (s.setStage s.current stage) :=
    ⟨rfl,rfl,rfl,rfl,rfl,fun u apart => Function.update_of_ne apart _ _,fun _ _ => rfl⟩
  refine tidy.own effect (tidy.tables s.current) ?_ (fun _ _ => process) ?_
  · intro _ pt found
    exact ⟨process,pt,found,Nat.le_refl _⟩
  · intro rest now
    exact loading rest (by simpa [Machine.setStage] using now)

theorem Tidy.setPagetable {s : Machine} {pt : Pagetable} (tidy : Tidy maxindex s) (process : (s.stage s.current).Process)
    (formed : pt.WellFormed) (asid : pt.asid = s.current)
    (grows : ∀ old, s.pagetable s.current = some old → old.validCount ≤ pt.validCount) :
    Tidy maxindex (s.setPagetable (some pt)) := by
  have effect : OwnEffect s (s.setPagetable (some pt)) :=
    ⟨rfl,rfl,rfl,rfl,rfl,fun _ _ => rfl,fun u apart => Function.update_of_ne apart _ _⟩
  refine tidy.own effect ?_ ?_ (fun _ _ => process) (tidy.loading s.current)
  · intro found same
    simp only [Machine.setPagetable,Function.update_self,Option.some.injEq] at same
    subst same
    exact ⟨formed,asid⟩
  · intro _ old found
    exact ⟨process,pt,by simp [Machine.setPagetable],grows old found⟩

/-- A statement of the current process keeps the invariant. -/
theorem Tidy.execute (tidy : Tidy maxindex s) (process : (s.stage s.current).Process)
    (done : s.execute maxindex page physaddr stmt = some t) : Tidy maxindex t := by
  cases stmt with
  | createPagetable =>
    simp only [Machine.execute] at done
    split at done
    · contradiction
    · next missing =>
      cases done
      have created := tidy.setPagetable process (vmCreatePagetable_wellFormed s.current page) rfl
        (fun old found => by simp [found] at missing)
      exact ⟨created.started,created.tables,created.rows,created.loading⟩
  | openExecutable => cases done; exact tidy
  | assert holds =>
    simp only [Machine.execute] at done
    split at done
    · cases done; exact tidy
    · contradiction
  | map vaddr =>
    simp only [Machine.execute] at done
    split at done
    · contradiction
    · obtain ⟨pt',mapped,rfl⟩ := Option.map_eq_some_iff.mp done
      obtain ⟨pt,found,mapped⟩ := Option.bind_eq_some_iff.mp mapped
      obtain ⟨formed,asid⟩ := tidy.tables _ pt found
      obtain ⟨same,grows⟩ := vmMap_grows mapped
      refine tidy.setPagetable process (formed.vmMap mapped) (same.trans asid) ?_
      intro old present
      rw [found] at present
      cases present
      exact grows
  | fill => exact tidy.fill done
  | touch vaddr size => cases done; exact tidy
  | setDirty vaddr dirty =>
    obtain ⟨pt',changed,rfl⟩ := Option.map_eq_some_iff.mp done
    obtain ⟨pt,found,changed⟩ := Option.bind_eq_some_iff.mp changed
    obtain ⟨formed,asid⟩ := tidy.tables _ pt found
    obtain ⟨same,grows⟩ := vmSetDirty_grows changed
    refine tidy.setPagetable process (formed.vmSetDirty changed) (same.trans asid) ?_
    intro old present
    rw [found] at present
    cases present
    exact grows
  | gotoUserland =>
    cases done
    exact tidy.setStage process fun rest wrong => by contradiction

theorem step_execute (next : step maxindex (.step page physaddr) s = some t) :
    ∃ stmt rest, s.stage s.current = .loading (stmt :: rest) ∧
      (s.setStage s.current (.loading rest)).execute maxindex page physaddr stmt = some t := by
  simp only [step] at next
  split at next
  · next stmt rest stage => exact ⟨stmt,rest,stage,next⟩
  · contradiction

theorem Tidy.advance (tidy : Tidy maxindex s) (stage : s.stage s.current = .loading (stmt :: rest)) :
    Tidy maxindex (s.setStage s.current (.loading rest)) := by
  refine tidy.setStage (by rw [stage]; trivial) ?_
  intro later same
  cases same
  obtain ⟨elf,done,whole⟩ := tidy.loading _ _ stage
  exact ⟨elf,done ++ [stmt],by simpa using whole⟩

/-- A new thread in a free row. -/
structure NewThread (s t : Machine) (u : Tid) : Prop where
  tlb : t.tlb = s.tlb
  current : t.current = s.current
  writer : t.writer = s.writer
  apart : u ≠ s.current
  pagetable : t.pagetable u = none
  stages : ∀ v, v ≠ u → t.stage v = s.stage v
  pagetables : ∀ v, v ≠ u → t.pagetable v = s.pagetable v
  processes : ∀ v, v ≠ u → t.process v = s.process v
  started : s.started ≤ t.started
  process : t.process u ≤ t.started
  fresh : (t.stage u).Process → s.started < t.process u

theorem Tidy.newThread (tidy : Tidy maxindex s) (effect : NewThread s t u)
    (loading : ∀ rest, t.stage u = .loading rest → ∃ elf done, processStart maxindex elf = done ++ rest) :
    Tidy maxindex t := by
  refine ⟨?_,?_,?_,?_⟩
  · intro v
    by_cases same : v = u
    · subst same; exact effect.process
    · rw [effect.processes v same]; exact Nat.le_trans (tidy.started v) effect.started
  · intro v pt found
    by_cases same : v = u
    · subst same; rw [effect.pagetable] at found; contradiction
    · exact tidy.tables v pt (by rwa [effect.pagetables v same] at found)
  · intro row
    have old := tidy.rows row
    unfold RowFacts at old ⊢
    rw [effect.writer,effect.tlb]
    split
    · next missing => rw [missing] at old; exact old
    · next v process written =>
      rw [written] at old
      obtain ⟨asid,valid,bound,live⟩ := old
      refine ⟨asid,valid,Nat.le_trans bound effect.started,?_⟩
      intro isProcess mine
      by_cases same : v = u
      · -- no row was filled for a process that has just been created
        subst same
        have := effect.fresh isProcess
        omega
      · rw [effect.stages v same] at isProcess
        rw [effect.processes v same] at mine
        rw [effect.pagetables v same]
        exact live isProcess mine
  · intro v rest stage
    by_cases same : v = u
    · subst same; exact loading rest stage
    · exact tidy.loading v rest (by rwa [effect.stages v same] at stage)

theorem spawn_effect (next : step maxindex (.spawn u elf) s = some t) :
    NewThread s t u ∧ t.stage u = .loading (processStart maxindex elf) := by
  simp only [step] at next
  split at next
  · next guard =>
    cases next
    refine ⟨⟨rfl,rfl,rfl,guard.2,?_,?_,?_,?_,Nat.le_succ _,?_,?_⟩,?_⟩ <;> simp +contextual
  · contradiction

theorem kernelThread_effect (tidy : Tidy maxindex s) (next : step maxindex (.kernelThread u) s = some t) :
    NewThread s t u ∧ t.stage u = .kernel := by
  simp only [step] at next
  split at next
  · next guard =>
    cases next
    refine ⟨⟨rfl,rfl,rfl,guard.2,?_,?_,?_,?_,Nat.le_refl _,tidy.started u,?_⟩,?_⟩ <;>
      simp +contextual [Stage.Process]
  · contradiction

theorem switch_fill (next : step maxindex (.switch u) s = some t) :
    s.stage u ≠ .free ∧ Machine.fill maxindex { s with current := u } = some t := by
  simp only [step] at next
  split at next
  · contradiction
  · next used => exact ⟨used,next⟩

theorem finish_effect (next : step maxindex .finish s = some t) :
    t = (s.setPagetable none).setStage s.current .free := by
  simp only [step] at next
  split at next
  · cases next; rfl
  · cases next; rfl
  · contradiction

theorem Tidy.finish (tidy : Tidy maxindex s) :
    Tidy maxindex ((s.setPagetable none).setStage s.current .free) := by
  have effect : OwnEffect s ((s.setPagetable none).setStage s.current .free) :=
    ⟨rfl,rfl,rfl,rfl,rfl,fun u apart => Function.update_of_ne apart _ _,
      fun u apart => Function.update_of_ne apart _ _⟩
  refine tidy.own effect ?_ ?_ ?_ ?_
  · intro pt found
    simp [Machine.setPagetable,Machine.setStage] at found
  · intro process
    simp [Machine.setStage,Stage.Process] at process
  · intro _ process
    simp [Machine.setStage,Stage.Process] at process
  · intro rest stage
    simp [Machine.setStage] at stage

theorem step_tidy (tidy : Tidy maxindex s) (next : step maxindex a s = some t) : Tidy maxindex t := by
  cases a with
  | spawn u elf =>
    obtain ⟨effect,stage⟩ := spawn_effect next
    refine tidy.newThread effect ?_
    intro rest now
    rw [stage] at now
    cases now
    exact ⟨elf,[],rfl⟩
  | kernelThread u =>
    obtain ⟨effect,stage⟩ := kernelThread_effect tidy next
    refine tidy.newThread effect ?_
    intro rest now
    rw [stage] at now
    contradiction
  | switch u =>
    have moved : Tidy maxindex { s with current := u } := ⟨tidy.started,tidy.tables,tidy.rows,tidy.loading⟩
    exact moved.fill (switch_fill next).2
  | step page physaddr =>
    obtain ⟨stmt,rest,stage,executed⟩ := step_execute next
    refine (tidy.advance stage).execute ?_ executed
    simp [Machine.setStage,Stage.Process]
  | finish =>
    rw [finish_effect next]
    exact tidy.finish

/-! ### Who has a page table -/

def Stage.Passed : Stage → Prop
  | .user => True
  | .loading rest => .createPagetable ∉ rest
  | _ => False

def Armed (s : Machine) : Prop := ∀ u, (s.stage u).Passed → s.pagetable u ≠ none

theorem Armed.one (armed : Armed s) (stages : ∀ v, v ≠ u → t.stage v = s.stage v)
    (pagetables : ∀ v, v ≠ u → t.pagetable v = s.pagetable v)
    (own : (t.stage u).Passed → t.pagetable u ≠ none) : Armed t := by
  intro v passed
  by_cases same : v = u
  · subst same; exact own passed
  · rw [stages v same] at passed
    rw [pagetables v same]
    exact armed v passed

theorem execute_armed (armed : (s.stage s.current).Passed → s.pagetable s.current ≠ none)
    (tidy : Tidy maxindex s) (stage : s.stage s.current = .loading (stmt :: rest))
    (executed : (s.setStage s.current (.loading rest)).execute maxindex page physaddr stmt = some t) :
    (∀ v, v ≠ s.current → t.stage v = s.stage v) ∧ (∀ v, v ≠ s.current → t.pagetable v = s.pagetable v) ∧
      ((t.stage s.current).Passed → t.pagetable s.current ≠ none) := by
  have before : stmt ≠ .createPagetable → .createPagetable ∉ rest → s.pagetable s.current ≠ none := by
    intro other absent
    refine armed ?_
    rw [stage]
    simpa [Stage.Passed,absent] using other.symm
  have stages : ∀ v, v ≠ s.current → (s.setStage s.current (.loading rest)).stage v = s.stage v :=
    fun v apart => Function.update_of_ne apart _ _
  have absent : ((s.setStage s.current (.loading rest)).stage s.current).Passed → .createPagetable ∉ rest := by
    rw [show (s.setStage s.current (.loading rest)).stage s.current = .loading rest from
      Function.update_self _ _ _]
    exact id
  cases stmt with
  | createPagetable =>
    simp only [Machine.execute] at executed
    split at executed
    · contradiction
    · cases executed
      refine ⟨stages,fun v apart => Function.update_of_ne apart _ _,?_⟩
      simp [Machine.setPagetable,Machine.setStage]
  | openExecutable =>
    cases executed
    exact ⟨stages,fun _ _ => rfl,fun passed => before (by simp) (absent passed)⟩
  | assert holds =>
    simp only [Machine.execute] at executed
    split at executed
    · cases executed
      exact ⟨stages,fun _ _ => rfl,fun passed => before (by simp) (absent passed)⟩
    · contradiction
  | map vaddr =>
    simp only [Machine.execute] at executed
    split at executed
    · contradiction
    · obtain ⟨pt,_,rfl⟩ := Option.map_eq_some_iff.mp executed
      refine ⟨stages,fun v apart => Function.update_of_ne apart _ _,?_⟩
      simp [Machine.setPagetable,Machine.setStage]
  | fill =>
    obtain ⟨tlb,_,rfl⟩ := Option.map_eq_some_iff.mp executed
    exact ⟨stages,fun _ _ => rfl,fun passed => before (by simp) (absent passed)⟩
  | touch vaddr size =>
    cases executed
    exact ⟨stages,fun _ _ => rfl,fun passed => before (by simp) (absent passed)⟩
  | setDirty vaddr dirty =>
    obtain ⟨pt,_,rfl⟩ := Option.map_eq_some_iff.mp executed
    refine ⟨stages,fun v apart => Function.update_of_ne apart _ _,?_⟩
    simp [Machine.setPagetable,Machine.setStage]
  | gotoUserland =>
    cases executed
    refine ⟨?_,fun _ _ => rfl,fun _ => before (by simp) ?_⟩
    · intro v apart
      rw [← stages v apart]
      exact Function.update_of_ne apart _ _
    · obtain ⟨elf,done,whole⟩ := tidy.loading _ _ stage
      rw [goto_last whole]
      simp

theorem step_armed (tidy : Tidy maxindex s) (armed : Armed s) (next : step maxindex a s = some t) : Armed t := by
  cases a with
  | spawn u elf =>
    obtain ⟨effect,stage⟩ := spawn_effect next
    refine armed.one effect.stages effect.pagetables ?_
    rw [stage]
    intro passed
    simp [Stage.Passed,processStart,mapImage] at passed
  | kernelThread u =>
    obtain ⟨effect,stage⟩ := kernelThread_effect tidy next
    refine armed.one effect.stages effect.pagetables ?_
    rw [stage]
    exact False.elim
  | switch u =>
    obtain ⟨_,filled⟩ := switch_fill next
    obtain ⟨tlb,_,rfl⟩ := Option.map_eq_some_iff.mp filled
    exact armed
  | step page physaddr =>
    obtain ⟨stmt,rest,stage,executed⟩ := step_execute next
    obtain ⟨stages,pagetables,own⟩ := execute_armed (armed s.current) tidy stage executed
    exact armed.one stages pagetables own
  | finish =>
    rw [finish_effect next]
    refine armed.one (fun v apart => Function.update_of_ne apart _ _)
      (fun v apart => Function.update_of_ne apart _ _) ?_
    simp [Machine.setStage,Stage.Passed]

/-! ### The TLB of a thread in userland -/

structure Kept (s t : Machine) : Prop where
  ready : s.Ready
  current : t.current = s.current
  tlb : t.tlb = s.tlb
  writer : t.writer = s.writer
  pagetable : t.pagetable s.current = s.pagetable s.current
  stage : (t.stage s.current).Process ↔ (s.stage s.current).Process
  process : t.process s.current = s.process s.current

/-- The event filled the TLB from `before`, which agrees with `s` on what the fill reads. -/
structure Refilled (maxindex : Nat) (a : Event) (s before t : Machine) : Prop where
  tidy : Tidy maxindex before
  filled : before.fill maxindex = some t
  forThread : filledFor a s = some before.current
  pagetable : before.pagetable = s.pagetable
  present : s.pagetable before.current ≠ none
  writer : before.writer = s.writer
  process : before.process = s.process

theorem execute_stage (other : stmt ≠ .gotoUserland)
    (executed : Machine.execute maxindex s page physaddr stmt = some t) :
    t.stage = s.stage ∧ t.current = s.current := by
  cases stmt with
  | createPagetable | assert =>
    simp only [Machine.execute] at executed
    split at executed <;> cases executed
    exact ⟨rfl,rfl⟩
  | openExecutable | touch => cases executed; exact ⟨rfl,rfl⟩
  | map =>
    simp only [Machine.execute] at executed
    split at executed
    · contradiction
    · obtain ⟨pt,_,rfl⟩ := Option.map_eq_some_iff.mp executed
      exact ⟨rfl,rfl⟩
  | fill | setDirty =>
    obtain ⟨_,_,rfl⟩ := Option.map_eq_some_iff.mp executed
    exact ⟨rfl,rfl⟩
  | gotoUserland => exact absurd rfl other

/-- A thread gets ready for userland only by a fill. -/
theorem ready_cases (tidy : Tidy maxindex s) (armed : Armed s) (next : step maxindex a s = some t)
    (ready : t.Ready) : Kept s t ∨ ∃ before, Refilled maxindex a s before t := by
  have newThread : ∀ u, NewThread s t u → Kept s t := by
    intro u effect
    have stage := effect.stages _ effect.apart.symm
    refine ⟨?_,effect.current,effect.tlb,effect.writer,effect.pagetables _ effect.apart.symm,by rw [stage],
      effect.processes _ effect.apart.symm⟩
    simpa only [Machine.Ready,effect.current,stage] using ready
  cases a with
  | spawn u elf => exact .inl (newThread u (spawn_effect next).1)
  | kernelThread u => exact .inl (newThread u (kernelThread_effect tidy next).1)
  | switch u =>
    obtain ⟨_,filled⟩ := switch_fill next
    have stage : s.stage u = .user ∨ s.stage u = .loading [.gotoUserland] := by
      obtain ⟨tlb,_,rfl⟩ := Option.map_eq_some_iff.mp filled
      exact ready
    have present : s.pagetable u ≠ none := by
      refine armed u ?_
      obtain user | loading := stage
      · rw [user]; trivial
      · rw [loading]; simp [Stage.Passed]
    exact .inr ⟨{ s with current := u },⟨tidy.started,tidy.tables,tidy.rows,tidy.loading⟩,filled,
      if_pos stage,rfl,present,rfl,rfl⟩
  | step page physaddr =>
    obtain ⟨stmt,rest,stage,executed⟩ := step_execute next
    obtain ⟨elf,done,whole⟩ := tidy.loading _ _ stage
    by_cases last : stmt = .gotoUserland
    · subst last
      cases executed
      have last := goto_last whole
      subst last
      refine .inl ⟨.inr stage,rfl,rfl,rfl,rfl,?_,rfl⟩
      simp [Machine.setStage,Stage.Process,stage]
    · obtain ⟨stages,current⟩ := execute_stage last executed
      have final : rest = [.gotoUserland] := by
        rw [Machine.Ready,stages,current] at ready
        simpa [Machine.setStage] using ready
      subst final
      have fill := before_goto whole
      subst fill
      refine .inr ⟨_,tidy.advance stage,executed,?_,rfl,?_,rfl,rfl⟩
      · simp [filledFor,stage,Machine.setStage]
      · refine armed _ ?_
        change (s.stage s.current).Passed
        rw [stage]
        simp [Stage.Passed]
  | finish =>
    rw [finish_effect next] at ready
    simp [Machine.Ready,Machine.setStage,Machine.setPagetable] at ready

theorem step_loaded (tidy : Tidy maxindex s) (armed : Armed s) (loaded : s.Ready → Loaded maxindex s)
    (next : step maxindex a s = some t) (ready : t.Ready) : Loaded maxindex t := by
  obtain kept | ⟨before,refilled⟩ := ready_cases tidy armed next ready
  · simpa only [Loaded,kept.current,kept.tlb,kept.pagetable] using loaded kept.ready
  · obtain ⟨pt,found⟩ := Option.ne_none_iff_exists'.mp refilled.present
    exact fill_loaded refilled.tidy (by rw [refilled.pagetable,found]) refilled.filled

theorem step_spared (tidy : Tidy maxindex s) (armed : Armed s) (spared : s.Ready → Spared maxindex s s.current)
    (fills : FillsSpared maxindex a s) (next : step maxindex a s = some t) (ready : t.Ready) :
    Spared maxindex t t.current := by
  obtain kept | ⟨before,refilled⟩ := ready_cases tidy armed next ready
  · rw [kept.current]
    simpa only [Spared,kept.pagetable,kept.writer,kept.process] using spared kept.ready
  · have before_spared := fills _ refilled.forThread
    obtain ⟨pt,found⟩ := Option.ne_none_iff_exists'.mp refilled.present
    have effect := fill_effect (by rw [refilled.pagetable,found]) refilled.filled
    rw [effect.current]
    intro pt' present row outside inside process written
    rw [effect.pagetable,refilled.pagetable,found] at present
    cases present
    rw [effect.others row outside,refilled.writer] at written
    rw [effect.process,refilled.process]
    exact before_spared pt found row outside inside process written

/-! ### Isolation -/

theorem maps_some (e : TlbEntry) (valid : e.even.v = true ∨ e.odd.v = true) : ∃ vaddr, e.Maps e.asid vaddr := by
  obtain even | odd := valid
  · refine ⟨e.vpn2 * (2 * pageSize),?_,rfl,?_⟩
    · simp [pair,pageSize]
    · have parity : e.vpn2 * (2 * pageSize) / pageSize % 2 = 0 := by unfold pageSize; omega
      simpa [TlbEntry.half,parity] using even
  · refine ⟨e.vpn2 * (2 * pageSize) + pageSize,?_,rfl,?_⟩
    · unfold pair pageSize; omega
    · have parity : (e.vpn2 * (2 * pageSize) + pageSize) / pageSize % 2 = 1 := by unfold pageSize; omega
      simpa [TlbEntry.half,parity] using odd

theorem row_own (tidy : Tidy maxindex s) (process : (s.stage s.current).Process)
    (found : s.pagetable s.current = some pt) (asid : s.tlb.asid = s.current)
    (spared : Spared maxindex s s.current) (inside : row ≤ maxindex)
    (maps : (s.tlb.rows row).Maps s.tlb.asid vaddr) : row < pt.validCount := by
  by_contra outside
  have facts := tidy.rows row
  unfold RowFacts at facts
  obtain ⟨_,owner,valid⟩ := maps
  split at facts
  · unfold TlbEntry.half at valid
    split at valid
    · simp [facts.1] at valid
    · simp [facts.2] at valid
  · next t g written =>
    obtain ⟨wrote,_,_,live⟩ := facts
    have same : t = s.current := Fin.ext (by rw [← wrote,owner,asid])
    subst same
    have mine := spared pt found row (Nat.not_lt.mp outside) inside g written
    obtain ⟨pt',present,before⟩ := live process mine
    rw [found] at present
    cases present
    exact outside before

theorem isolated_iff (tidy : Tidy maxindex s) (process : (s.stage s.current).Process)
    (loaded : Loaded maxindex s) : Isolated maxindex s ↔ Spared maxindex s s.current := by
  obtain ⟨pt,found,asid,fits,own⟩ := loaded
  obtain ⟨formed,_⟩ := tidy.tables _ pt found
  constructor
  · intro isolated pt' present row outside inside g written
    rw [found] at present
    cases present
    have facts := tidy.rows row
    rw [RowFacts,written] at facts
    obtain ⟨wrote,valid,_,_⟩ := facts
    by_contra
    obtain ⟨vaddr,maps⟩ := maps_some _ valid
    have maps : (s.tlb.rows row).Maps s.tlb.asid vaddr := by rwa [asid,← wrote]
    obtain ⟨unique,listed⟩ := isolated vaddr
    obtain ⟨pt',present,k,small,same⟩ := listed row inside maps
    rw [found] at present
    cases present
    have other : (s.tlb.rows k).Maps s.tlb.asid vaddr := by rw [own k small,same]; exact maps
    have := unique row k inside (by omega) maps other
    omega
  · intro spared vaddr
    have inside : ∀ row, row ≤ maxindex → (s.tlb.rows row).Maps s.tlb.asid vaddr → row < pt.validCount :=
      fun row bound maps => row_own tidy process found asid spared bound maps
    refine ⟨?_,?_⟩
    · intro i j first second here there
      have one := inside i first here
      have two := inside j second there
      rw [own i one] at here
      rw [own j two] at there
      exact formed.once i j one two (here.1.trans there.1.symm)
    · intro i bound maps
      exact ⟨pt,found,i,inside i bound maps,(own i (inside i bound maps)).symm⟩

/-- Over whole runs: every invariant of a state. -/
structure Sound (maxindex : Nat) (s : Machine) : Prop where
  tidy : Tidy maxindex s
  armed : Armed s
  loaded : s.Ready → Loaded maxindex s

theorem sound_initial : Sound maxindex initial := by
  refine ⟨tidy_initial,?_,?_⟩
  · intro u passed
    by_cases first : u = 0
    · subst first; simp [initial,Stage.Passed] at passed
    · simp [initial,Function.update_of_ne first,Stage.Passed] at passed
  · intro ready
    simp [Machine.Ready,initial] at ready

theorem Sound.step (sound : Sound maxindex s) (next : step maxindex a s = some t) : Sound maxindex t :=
  ⟨step_tidy sound.tidy next,step_armed sound.tidy sound.armed next,
    step_loaded sound.tidy sound.armed sound.loaded next⟩

theorem reachable_sound (ran : run (step maxindex) events initial = some s) : Sound maxindex s :=
  run_invariant (fun _ _ _ sound next => sound.step next) sound_initial ran

theorem run_spared (ran : run (step maxindex) events initial = some s)
    (fills : Meets (step maxindex) (FillsSpared maxindex) events initial) (ready : s.Ready) :
    Spared maxindex s s.current := by
  have preserved : ∀ a s t, (Sound maxindex s ∧ (s.Ready → Spared maxindex s s.current)) →
      FillsSpared maxindex a s → Isolation.step maxindex a s = some t →
      (Sound maxindex t ∧ (t.Ready → Spared maxindex t t.current)) := by
    intro a s t before fills next
    exact ⟨before.1.step next,step_spared before.1.tidy before.1.armed before.2 fills next⟩
  have first : Sound maxindex initial ∧ (initial.Ready → Spared maxindex initial initial.current) :=
    ⟨sound_initial,fun ready => by simp [Machine.Ready,initial] at ready⟩
  exact (run_guarded preserved first fills ran).2 ready

/-- In a run whose fills all find no row of an earlier process with the same thread id
beyond the rows they write, a user thread only ever sees its own page table. In any run, a
state in which a user thread runs is isolated exactly when no such row is left. -/
theorem tlb_isolated (ran : run (step maxindex) events initial = some s)
    (user : s.stage s.current = .user) :
    (Meets (step maxindex) (FillsSpared maxindex) events initial → Isolated maxindex s) ∧
    (Isolated maxindex s ↔ Spared maxindex s s.current) := by
  have sound := reachable_sound ran
  have process : (s.stage s.current).Process := by rw [user]; trivial
  have exact_ := isolated_iff sound.tidy process (sound.loaded (.inl user))
  exact ⟨fun fills => exact_.mpr (run_spared ran fills (.inl user)),exact_⟩

def smallElf : ElfInfo := ⟨0x10000, 0, 0, 1, 0x10000, 0, 0, 0, 0⟩
def largeElf : ElfInfo := ⟨0x10000, 0, 0, 1, 0x10000, 0, 0, 1, 0x20000⟩

def load (statements physaddr : Nat) : List Event :=
  List.replicate statements (.step (fun _ => ⟨0, 0, ⟨0, false, false, false⟩, ⟨0, false, false, false⟩⟩) physaddr)

/-- A process ends and a larger one gets its thread id. -/
def growingRun : List Event :=
  [.spawn 1 smallElf, .switch 1] ++ load 13 0x5000 ++ [.finish, .switch 0, .spawn 1 largeElf, .switch 1] ++
    load 14 0x9000

theorem tlb_isolated_growing : ∃ s, run (step 15) growingRun initial = some s ∧
    s.stage s.current = .user ∧ Isolated 15 s := by
  have ran : ((run (step 15) growingRun initial).any fun s => decide (s.stage s.current = .user)) = true := by
    decide +kernel
  obtain ⟨s,ran,user⟩ := (Option.any_eq_true _ _).mp ran
  have user := of_decide_eq_true user
  exact ⟨s,ran,user,(tlb_isolated ran user).1 (by decide +kernel)⟩

/-- A process ends and a smaller one gets its thread id: the row of the data page stays. -/
def shrinkingRun : List Event :=
  [.spawn 1 largeElf, .switch 1] ++ load 14 0x5000 ++ [.finish, .switch 0, .spawn 1 smallElf, .switch 1] ++
    load 13 0x9000

theorem leftover_row : ∃ s, run (step 15) shrinkingRun initial = some s ∧ s.stage s.current = .user ∧
    (s.tlb.rows 2).Maps s.tlb.asid 0x20000 ∧ ¬Isolated 15 s := by
  have ran : ((run (step 15) shrinkingRun initial).any fun s => decide (s.stage s.current = .user ∧
      (s.tlb.rows 2).Maps s.tlb.asid 0x20000 ∧ ¬Spared 15 s s.current)) = true := by
    decide +kernel
  obtain ⟨s,ran,facts⟩ := (Option.any_eq_true _ _).mp ran
  obtain ⟨user,maps,left⟩ := of_decide_eq_true facts
  have sound := reachable_sound ran
  have process : (s.stage s.current).Process := by rw [user]; trivial
  refine ⟨s,ran,user,maps,?_⟩
  rwa [isolated_iff sound.tidy process (sound.loaded (.inl user))]

end Buenos.Vm.Isolation
