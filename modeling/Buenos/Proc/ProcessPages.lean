import Buenos.Proc.Loader
import Buenos.Vm.Pagepool
import Buenos.Fs.Vfs
import Buenos.Foundation.Run
import Buenos.Foundation.Ledger

/-! The physical pages and open files that processes take in `process_start` and give back
in `process_finish`, over any interleaving of processes. -/
namespace Buenos.Proc.Pages

open Buenos.Foundation Buenos.Vm Buenos.Fs

inductive Stage where
  | unborn
  | loading (rest : List Stmt)
  | user
  | finished
  deriving DecidableEq

/-- A process with its page table, the page that holds it, the pages `frames` that it maps
and the open file of its executable. Not read by the code: `opened` are the files it has
opened itself and not closed, and `elf` the executable it was started on. -/
structure Process where
  stage : Stage
  elf : ElfInfo
  pagetable : Option Pagetable
  tablePage : Option Nat
  frames : List Nat
  executable : Option FileRow
  opened : List FileRow

structure System where
  pool : Pagepool
  files : FileRow → Bool
  procs : Nat → Process

/-- `step` is the next statement of `process_start`; `openFile` and `closeFile` are the
successful calls of a process in userland, on any file handle. -/
inductive Event where
  | spawn (p : Nat) (elf : ElfInfo)
  | step (p : Nat) (page : Nat → TlbEntry)
  | openFile (p : Nat)
  | closeFile (p : Nat) (row : FileRow)
  | finish (p : Nat)

def System.set (s : System) (p : Nat) (process : Process) : System :=
  { s with procs := Function.update s.procs p process }

/-- The first row of the open-file table that is not in use. -/
def freeRow (files : FileRow → Bool) : Option FileRow :=
  (List.finRange configMaxOpenFiles).find? fun row => !files row

/-- One statement of process `p`, whose record is `me`. -/
def execute (s : System) (p : Nat) (me : Process) (page : Nat → TlbEntry) : Stmt → Option System
  | .createPagetable => do
    let (addr, pool) ← pagepoolGetPhysPage s.pool
    if addr = 0 then none
    else some ({ s with pool := pool }.set p
      { me with pagetable := some (vmCreatePagetable p page), tablePage := some (addr / pageSize) })
  | .openExecutable => do
    let row ← freeRow s.files
    some ({ s with files := Function.update s.files row true }.set p { me with executable := some row })
  | .assert holds => if holds then some (s.set p me) else none
  | .map vaddr => do
    let (addr, pool) ← pagepoolGetPhysPage s.pool
    if addr = 0 then none
    else
      let pt ← me.pagetable.bind fun pt => vmMap pt addr vaddr true
      some ({ s with pool := pool }.set p
        { me with pagetable := some pt, frames := addr / pageSize :: me.frames })
  | .fill => some (s.set p me)
  | .touch _ _ => some (s.set p me)
  | .setDirty vaddr dirty => do
    let pt ← me.pagetable.bind fun pt => vmSetDirty pt vaddr dirty
    some (s.set p { me with pagetable := some pt })
  | .gotoUserland => some (s.set p { me with stage := .user })

variable (maxindex : Nat)

def step : Event → System → Option System
  | .spawn p elf, s =>
    if (s.procs p).stage = .unborn then
      some (s.set p ⟨.loading (processStart maxindex elf), elf, none, none, [], none, []⟩)
    else none
  | .step p page, s =>
    match (s.procs p).stage with
    | .loading (stmt :: rest) => execute s p { s.procs p with stage := .loading rest } page stmt
    | _ => none
  | .openFile p, s =>
    if (s.procs p).stage = .user then
      (freeRow s.files).map fun row =>
        { s with files := Function.update s.files row true }.set p
          { s.procs p with opened := row :: (s.procs p).opened }
    else none
  | .closeFile p row, s =>
    if (s.procs p).stage = .user ∧ s.files row = true then
      some ({ s with files := Function.update s.files row false }.set p
        { s.procs p with opened := (s.procs p).opened.erase row })
    else none
  | .finish p, s =>
    if (s.procs p).stage = .user ∧ (s.procs p).opened = [] then do
      let addr ← (s.procs p).tablePage
      let pool ← pagepoolFreePhysPage s.pool (addr * pageSize)
      some ({ s with pool := pool }.set p
        { s.procs p with stage := .finished, pagetable := none, tablePage := none })
    else none

/-- Any pool and any files in use before the first process. -/
def initial (pool : Pagepool) (files : FileRow → Bool) : System :=
  ⟨pool, files, fun _ => ⟨.unborn, ⟨0, 0, 0, 0, 0, 0, 0, 0, 0⟩, none, none, [], none, []⟩⟩

/-! ### What a process holds -/

def Process.pages (me : Process) : List Nat := me.frames ++ me.tablePage.toList
def Process.rows (me : Process) : List FileRow := me.opened ++ me.executable.toList

/-- After the process has finished, every page it mapped is free or taken since by another
process, and so is the row its executable was read through. -/
def GaveBack (s : System) (p : Nat) : Prop :=
  (∀ frame ∈ (s.procs p).frames, s.pool.reserved frame = false ∨ ∃ q, q ≠ p ∧ frame ∈ (s.procs q).pages) ∧
  ∀ row, (s.procs p).executable = some row → s.files row = false ∨ ∃ q, q ≠ p ∧ row ∈ (s.procs q).rows

/-- Processes close only files they have opened themselves. -/
def OwnHandles (a : Event) (s : System) : Prop :=
  match a with
  | .closeFile p row => row ∈ (s.procs p).opened
  | _ => True

instance (a : Event) (s : System) : Decidable (OwnHandles a s) :=
  match a with
  | .closeFile p row => inferInstanceAs (Decidable (row ∈ (s.procs p).opened))
  | .spawn _ _ | .step _ _ | .openFile _ | .finish _ => isTrue trivial

/-! ### The ledger of pages -/

variable {maxindex}

def pagesOf (s : System) (p : Nat) : List Nat := (s.procs p).pages
def rowsOf (s : System) (p : Nat) : List FileRow := (s.procs p).rows

theorem pagesOf_set (s : System) (p : Nat) (me : Process) :
    pagesOf (s.set p me) = Function.update (pagesOf s) p me.pages := by
  funext q
  by_cases mine : q = p
  · subst mine; simp [pagesOf,System.set]
  · simp [pagesOf,System.set,Function.update_of_ne mine]

theorem rowsOf_set (s : System) (p : Nat) (me : Process) :
    rowsOf (s.set p me) = Function.update (rowsOf s) p me.rows := by
  funext q
  by_cases mine : q = p
  · subst mine; simp [rowsOf,System.set]
  · simp [rowsOf,System.set,Function.update_of_ne mine]

/-- The statements of a process by what they take. -/
inductive Takes (s : System) (p : Nat) (me : Process) : Stmt → System → Prop where
  | table (page : Nat → TlbEntry) (got : pagepoolGetPhysPage s.pool = some (addr, pool)) (present : addr ≠ 0) :
      Takes s p me .createPagetable ({ s with pool := pool }.set p
        { me with pagetable := some (vmCreatePagetable p page), tablePage := some (addr / pageSize) })
  | executable (row : FileRow) (free : s.files row = false) :
      Takes s p me .openExecutable ({ s with files := Function.update s.files row true }.set p
        { me with executable := some row })
  | frame (pt : Pagetable) (got : pagepoolGetPhysPage s.pool = some (addr, pool)) (present : addr ≠ 0) :
      Takes s p me (.map vaddr) ({ s with pool := pool }.set p
        { me with pagetable := some pt, frames := addr / pageSize :: me.frames })
  | nothing (pt : Option Pagetable) (noFrame : stmt.takesFrame = false) (noFile : stmt ≠ .openExecutable) :
      Takes s p me stmt (s.set p { me with pagetable := pt })
  | userland : Takes s p me .gotoUserland (s.set p { me with stage := .user })

theorem freeRow_free (found : freeRow files = some row) : files row = false := by
  have free := List.find?_some found
  simpa using free

theorem execute_takes (executed : execute s p me page stmt = some t) : Takes s p me stmt t := by
  cases stmt with
  | createPagetable =>
    obtain ⟨⟨addr,pool⟩,got,executed⟩ := Option.bind_eq_some_iff.mp executed
    dsimp only at executed
    split at executed
    · contradiction
    · next present => cases executed; exact .table page got present
  | openExecutable =>
    simp only [execute] at executed
    cases found : freeRow s.files with
    | none => rw [found] at executed; contradiction
    | some row =>
      rw [found] at executed
      cases executed
      exact .executable row (freeRow_free found)
  | assert holds =>
    simp only [execute] at executed
    split at executed
    · cases executed; exact .nothing me.pagetable rfl (by simp)
    · contradiction
  | map vaddr =>
    obtain ⟨⟨addr,pool⟩,got,executed⟩ := Option.bind_eq_some_iff.mp executed
    dsimp only at executed
    split at executed
    · contradiction
    · next present =>
      obtain ⟨pt,_,executed⟩ := Option.bind_eq_some_iff.mp executed
      cases executed
      exact .frame pt got present
  | fill => cases executed; exact .nothing me.pagetable rfl (by simp)
  | touch vaddr size => cases executed; exact .nothing me.pagetable rfl (by simp)
  | setDirty vaddr dirty =>
    obtain ⟨pt,_,executed⟩ := Option.bind_eq_some_iff.mp executed
    cases executed
    exact .nothing (some pt) rfl (by simp)
  | gotoUserland => cases executed; exact .userland

abbrev PageLedger (s : System) : Prop := Ledger s.pool.reserved (pagesOf s)

theorem PageLedger.take (ledger : PageLedger s) (got : pagepoolGetPhysPage s.pool = some (addr, pool))
    (present : addr ≠ 0) (p : Nat) (same : (me.pages).Perm (addr / pageSize :: kept))
    (smaller : kept.Sublist (pagesOf s p)) : PageLedger ({ s with pool := pool }.set p me) := by
  obtain ⟨_,free,after⟩ := getPhysPage_effect got present
  have taken := (ledger.forget p smaller).take free p
  unfold PageLedger
  rw [pagesOf_set]
  change Ledger pool.reserved _
  rw [after]
  refine taken.perm ?_
  intro q
  by_cases mine : q = p
  · subst mine; simpa using same
  · simp [Function.update_of_ne mine,pagesOf]

theorem PageLedger.keep (ledger : PageLedger s) (p : Nat) (smaller : me.pages.Sublist (pagesOf s p)) :
    PageLedger (s.set p me) := by
  unfold PageLedger
  rw [pagesOf_set]
  exact ledger.forget p smaller

theorem PageLedger.files (ledger : PageLedger s) (files : FileRow → Bool) : PageLedger { s with files := files } :=
  ⟨ledger.inUse,ledger.once,ledger.apart⟩

theorem Takes.pages (takes : Takes s p me stmt t) (ledger : PageLedger s) (mine : me.pages = pagesOf s p) :
    PageLedger t := by
  have frames : me.frames.Sublist (pagesOf s p) := by
    rw [← mine]
    exact List.sublist_append_left _ _
  cases takes with
  | table page got present =>
    exact ledger.take got present p (List.perm_append_singleton _ _) frames
  | executable row free => exact (ledger.files _).keep p (mine ▸ List.Sublist.refl _)
  | frame pt got present =>
    exact ledger.take got present p (List.Perm.refl _) (mine ▸ List.Sublist.refl _)
  | nothing pt => exact ledger.keep p (mine ▸ List.Sublist.refl _)
  | userland => exact ledger.keep p (mine ▸ List.Sublist.refl _)

theorem step_takes (next : step maxindex (.step p page) s = some t) :
    ∃ stmt rest, (s.procs p).stage = .loading (stmt :: rest) ∧
      Takes s p { s.procs p with stage := .loading rest } stmt t := by
  simp only [step] at next
  split at next
  · next stmt rest stage => exact ⟨stmt,rest,stage,execute_takes next⟩
  · contradiction

theorem spawn_effect (next : step maxindex (.spawn p elf) s = some t) : (s.procs p).stage = .unborn ∧
    t = s.set p ⟨.loading (processStart maxindex elf), elf, none, none, [], none, []⟩ := by
  simp only [step] at next
  split at next
  · next unborn => cases next; exact ⟨unborn,rfl⟩
  · contradiction

theorem openFile_effect (next : step maxindex (.openFile p) s = some t) :
    ∃ row, (s.procs p).stage = .user ∧ s.files row = false ∧
      t = { s with files := Function.update s.files row true }.set p
        { s.procs p with opened := row :: (s.procs p).opened } := by
  simp only [step] at next
  split at next
  · next user =>
    cases found : freeRow s.files with
    | none => rw [found] at next; contradiction
    | some row =>
      rw [found] at next
      cases next
      exact ⟨row,user,freeRow_free found,rfl⟩
  · contradiction

theorem closeFile_effect (next : step maxindex (.closeFile p row) s = some t) : (s.procs p).stage = .user ∧
    t = { s with files := Function.update s.files row false }.set p
      { s.procs p with opened := (s.procs p).opened.erase row } := by
  simp only [step] at next
  split at next
  · next guard => cases next; exact ⟨guard.1,rfl⟩
  · contradiction

theorem finish_effect (next : step maxindex (.finish p) s = some t) :
    ∃ table pool, (s.procs p).stage = .user ∧ (s.procs p).tablePage = some table ∧
      pool.reserved = Function.update s.pool.reserved table false ∧
      t = { s with pool := pool }.set p
        { s.procs p with stage := .finished, pagetable := none, tablePage := none } := by
  simp only [step] at next
  split at next
  · next guard =>
    obtain ⟨table,found,next⟩ := Option.bind_eq_some_iff.mp next
    obtain ⟨pool,freed,next⟩ := Option.bind_eq_some_iff.mp next
    cases next
    have effect := freePhysPage_effect freed
    rw [Nat.mul_div_cancel table (by decide)] at effect
    exact ⟨table,pool,guard.1,found,effect,rfl⟩
  · contradiction

theorem step_pages (ledger : PageLedger s) (next : step maxindex a s = some t) : PageLedger t := by
  cases a with
  | spawn p elf =>
    obtain ⟨_,rfl⟩ := spawn_effect next
    exact ledger.keep p (List.nil_sublist _)
  | step p page =>
    obtain ⟨stmt,rest,_,takes⟩ := step_takes next
    exact takes.pages ledger rfl
  | openFile p =>
    obtain ⟨row,_,_,rfl⟩ := openFile_effect next
    exact (ledger.files _).keep p (List.Sublist.refl _)
  | closeFile p row =>
    obtain ⟨_,rfl⟩ := closeFile_effect next
    exact (ledger.files _).keep p (List.Sublist.refl _)
  | finish p =>
    obtain ⟨table,pool,_,found,freed,rfl⟩ := finish_effect next
    have pages : pagesOf s p = (s.procs p).frames ++ [table] := by simp [pagesOf,Process.pages,found]
    have member : table ∈ pagesOf s p := by simp [pages]
    have smaller : (s.procs p).frames.Sublist (pagesOf s p) := by simp [pages]
    have gone : table ∉ (s.procs p).frames := by
      have once := ledger.once p
      rw [pages,List.nodup_append] at once
      intro inside
      exact once.2.2 table inside table (by simp) rfl
    unfold PageLedger
    rw [pagesOf_set]
    change Ledger pool.reserved (Function.update (pagesOf s) p _)
    rw [freed]
    simpa [Process.pages] using ledger.give member smaller gone

/-! ### The ledger of open files -/

abbrev RowLedger (s : System) : Prop := Ledger s.files (rowsOf s)

theorem RowLedger.keep (ledger : RowLedger s) (p : Nat) (same : me.rows = rowsOf s p) : RowLedger (s.set p me) := by
  unfold RowLedger
  rw [rowsOf_set]
  exact ledger.forget p (same ▸ List.Sublist.refl _)

theorem RowLedger.pool (ledger : RowLedger s) (pool : Pagepool) : RowLedger { s with pool := pool } :=
  ⟨ledger.inUse,ledger.once,ledger.apart⟩

theorem RowLedger.take (ledger : RowLedger s) (free : s.files row = false) (p : Nat)
    (same : (me.rows).Perm (row :: kept)) (smaller : kept.Sublist (rowsOf s p)) :
    RowLedger ({ s with files := Function.update s.files row true }.set p me) := by
  have taken := (ledger.forget p smaller).take free p
  unfold RowLedger
  rw [rowsOf_set]
  refine taken.perm ?_
  intro q
  by_cases mine : q = p
  · subst mine; simpa using same
  · simp [Function.update_of_ne mine,rowsOf]

theorem Takes.rows (takes : Takes s p me stmt t) (ledger : RowLedger s) (mine : me.rows = rowsOf s p) :
    RowLedger t := by
  have opened : me.opened.Sublist (rowsOf s p) := by
    rw [← mine]
    exact List.sublist_append_left _ _
  cases takes with
  | table page got present => exact (ledger.pool _).keep p mine
  | executable row free => exact ledger.take free p (List.perm_append_singleton _ _) opened
  | frame pt got present => exact (ledger.pool _).keep p mine
  | nothing pt => exact ledger.keep p mine
  | userland => exact ledger.keep p mine

theorem step_rows (ledger : RowLedger s) (own : OwnHandles a s) (next : step maxindex a s = some t) :
    RowLedger t := by
  cases a with
  | spawn p elf =>
    obtain ⟨_,rfl⟩ := spawn_effect next
    unfold RowLedger
    rw [rowsOf_set]
    exact ledger.forget p (List.nil_sublist _)
  | step p page =>
    obtain ⟨stmt,rest,_,takes⟩ := step_takes next
    exact takes.rows ledger rfl
  | openFile p =>
    obtain ⟨row,_,free,rfl⟩ := openFile_effect next
    exact ledger.take free p (List.Perm.refl _) (List.Sublist.refl _)
  | closeFile p row =>
    obtain ⟨_,rfl⟩ := closeFile_effect next
    have own : row ∈ (s.procs p).opened := own
    have rows : rowsOf s p = (s.procs p).opened ++ (s.procs p).executable.toList := rfl
    have once := ledger.once p
    rw [rows,List.nodup_append] at once
    obtain ⟨nodup,_,different⟩ := once
    have gone : row ∉ (s.procs p).opened.erase row ++ (s.procs p).executable.toList := by
      intro member
      obtain erased | executable := List.mem_append.mp member
      · exact (nodup.mem_erase_iff.mp erased).1 rfl
      · exact different row own row executable rfl
    unfold RowLedger
    rw [rowsOf_set]
    refine ledger.give (rows ▸ List.mem_append_left _ own) ?_ gone
    rw [rows]
    exact List.erase_sublist.append_right _
  | finish p =>
    obtain ⟨table,pool,_,_,_,rfl⟩ := finish_effect next
    exact (ledger.pool pool).keep p rfl

/-! ### How much a process has taken -/

def Process.frameTotal (me : Process) : Nat := configUserlandStackSize + me.elf.roPages + me.elf.rwPages

/-- Each `vm_map` done has taken a page, and the executable is open once it was opened. -/
def Counted (maxindex : Nat) (me : Process) : Prop :=
  match me.stage with
  | .unborn => True
  | .loading rest => (∃ done, processStart maxindex me.elf = done ++ rest) ∧
      me.frames.length + rest.countP Stmt.takesFrame = me.frameTotal ∧
      (.openExecutable ∉ rest → me.executable ≠ none)
  | .user | .finished => me.frames.length = me.frameTotal ∧ me.executable ≠ none

theorem Counted.set {s : System} (counted : ∀ q, Counted maxindex (s.procs q)) (own : Counted maxindex me) (p q : Nat) :
    Counted maxindex ((s.set p me).procs q) := by
  by_cases mine : q = p
  · subst mine; simpa [System.set] using own
  · simpa [System.set,Function.update_of_ne mine] using counted q

theorem Takes.counted (takes : Takes s p { s.procs p with stage := .loading rest } stmt t)
    (counted : ∀ q, Counted maxindex (s.procs q)) (stage : (s.procs p).stage = .loading (stmt :: rest)) (q : Nat) :
    Counted maxindex (t.procs q) := by
  have before := counted p
  simp only [Counted,stage] at before
  obtain ⟨⟨done,whole⟩,count,executable⟩ := before
  have whole' : ∃ done, processStart maxindex (s.procs p).elf = done ++ rest := ⟨done ++ [stmt],by simpa using whole⟩
  rw [List.countP_cons] at count
  cases takes with
  | table page got present =>
    refine Counted.set (s := { s with pool := _ }) counted ?_ p q
    exact ⟨whole',count,fun absent => executable (by simpa using absent)⟩
  | executable row free =>
    refine Counted.set (s := { s with files := _ }) counted ?_ p q
    exact ⟨whole',count,by simp⟩
  | frame pt got present =>
    refine Counted.set (s := { s with pool := _ }) counted ?_ p q
    refine ⟨whole',?_,fun absent => executable (by simpa using absent)⟩
    simp only [Stmt.takesFrame,if_true] at count
    simp only [List.length_cons,Process.frameTotal] at count ⊢
    omega
  | nothing pt noFrame noFile =>
    refine Counted.set counted ?_ p q
    refine ⟨whole',by simpa [noFrame,Process.frameTotal] using count,?_⟩
    intro absent
    exact executable (by simpa [absent] using noFile.symm)
  | userland =>
    refine Counted.set counted ?_ p q
    rw [goto_last whole] at count executable
    exact ⟨by simpa [Stmt.takesFrame,Process.frameTotal] using count,executable (by simp)⟩

theorem step_counted (counted : ∀ q, Counted maxindex (s.procs q)) (next : step maxindex a s = some t) (q : Nat) :
    Counted maxindex (t.procs q) := by
  have user : ∀ p, (s.procs p).stage = .user →
      (s.procs p).frames.length = (s.procs p).frameTotal ∧ (s.procs p).executable ≠ none := by
    intro p stage
    have facts := counted p
    simpa only [Counted,stage] using facts
  cases a with
  | spawn p elf =>
    obtain ⟨_,rfl⟩ := spawn_effect next
    refine Counted.set counted ?_ p q
    refine ⟨⟨[],rfl⟩,?_,?_⟩
    · rw [processStart_frames]
      simp [Process.frameTotal]
    · intro absent
      simp [processStart,mapImage] at absent
  | step p page =>
    obtain ⟨stmt,rest,stage,takes⟩ := step_takes next
    exact takes.counted counted stage q
  | openFile p =>
    obtain ⟨row,stage,_,rfl⟩ := openFile_effect next
    refine Counted.set (s := { s with files := _ }) counted ?_ p q
    simpa only [Counted,stage,Process.frameTotal] using user p stage
  | closeFile p row =>
    obtain ⟨stage,rfl⟩ := closeFile_effect next
    refine Counted.set (s := { s with files := _ }) counted ?_ p q
    simpa only [Counted,stage,Process.frameTotal] using user p stage
  | finish p =>
    obtain ⟨table,pool,stage,_,_,rfl⟩ := finish_effect next
    refine Counted.set (s := { s with pool := pool }) counted ?_ p q
    exact user p stage

/-! ### Every process leaves its pages behind -/

structure Sound (maxindex : Nat) (s : System) : Prop where
  pages : PageLedger s
  counted : ∀ q, Counted maxindex (s.procs q)

theorem sound_initial (pool : Pagepool) (files : FileRow → Bool) : Sound maxindex (initial pool files) := by
  refine ⟨⟨?_,?_,?_⟩,fun _ => trivial⟩
  · intro p page member
    simp [pagesOf,initial,Process.pages] at member
  · intro p
    exact List.nodup_nil
  · intro p q _ page member
    simp [pagesOf,initial,Process.pages] at member

theorem rows_initial (pool : Pagepool) (files : FileRow → Bool) : RowLedger (initial pool files) := by
  refine ⟨?_,?_,?_⟩
  · intro p row member
    simp [rowsOf,initial,Process.rows] at member
  · intro p
    exact List.nodup_nil
  · intro p q _ row member
    simp [rowsOf,initial,Process.rows] at member

theorem Sound.step (sound : Sound maxindex s) (next : step maxindex a s = some t) : Sound maxindex t :=
  ⟨step_pages sound.pages next,step_counted sound.counted next⟩

theorem reached_sound (ran : run (step maxindex) events (initial pool files) = some s) : Sound maxindex s :=
  run_invariant (fun _ _ _ sound next => sound.step next) (sound_initial pool files) ran

theorem reached_rows (ran : run (step maxindex) events (initial pool files) = some s)
    (own : Meets (step maxindex) OwnHandles events (initial pool files)) : RowLedger s :=
  run_guarded (fun _ _ _ ledger own next => step_rows ledger own next) (rows_initial pool files) own ran

/-- A page in the table of one process is not given back by others. -/
theorem kept_frames (ledger : PageLedger s) (member : frame ∈ (s.procs p).frames) :
    s.pool.reserved frame = true ∧ ∀ q, q ≠ p → frame ∉ (s.procs q).pages := by
  have held : frame ∈ pagesOf s p := List.mem_append_left _ member
  exact ⟨ledger.inUse p frame held,fun q other => ledger.apart p q other.symm frame held⟩

/-- Whatever ran before, a process that finishes gives back its page table's page only: all
pages it mapped stay reserved and in nobody's hands, and so does the row of its
executable unless a process closes a file it has not opened. -/
theorem process_leaks (ran : run (step maxindex) events (initial pool files) = some s)
    (next : step maxindex (.finish p) s = some t) :
    ¬GaveBack t p ∧
    ((t.procs p).frames.length = (t.procs p).frameTotal ∧ (t.procs p).frames.Nodup ∧
      ∀ frame ∈ (t.procs p).frames, t.pool.reserved frame = true ∧
        ∀ q, q ≠ p → frame ∉ (t.procs q).pages) ∧
    (∃ table, (s.procs p).tablePage = some table ∧ t.pool.reserved table = false) ∧
    (Meets (step maxindex) OwnHandles events (initial pool files) →
      ∃ row, (t.procs p).executable = some row ∧ t.files row = true ∧
        ∀ q, q ≠ p → row ∉ (t.procs q).rows) := by
  have sound := (reached_sound ran).step next
  have kept : ∀ frame ∈ (t.procs p).frames, t.pool.reserved frame = true ∧
      ∀ q, q ≠ p → frame ∉ (t.procs q).pages := fun frame member => kept_frames sound.pages member
  obtain ⟨table,pool,stage,found,freed,effect⟩ := finish_effect next
  have counted : (t.procs p).frames.length = (t.procs p).frameTotal ∧ (t.procs p).executable ≠ none := by
    have facts := sound.counted p
    have ended : (t.procs p).stage = .finished := by simp [effect,System.set]
    simpa only [Counted,ended] using facts
  refine ⟨?_,⟨counted.1,?_,kept⟩,⟨table,found,?_⟩,?_⟩
  · rintro ⟨returned,_⟩
    obtain ⟨frame,member⟩ : ∃ frame, frame ∈ (t.procs p).frames := by
      refine List.exists_mem_of_length_pos ?_
      rw [counted.1]
      unfold Process.frameTotal configUserlandStackSize
      omega
    obtain ⟨reserved,alone⟩ := kept frame member
    obtain free | ⟨q,other,taken⟩ := returned frame member
    · rw [reserved] at free; contradiction
    · exact alone q other taken
  · have once := sound.pages.once p
    exact once.sublist (List.sublist_append_left _ _)
  · rw [effect]
    change pool.reserved table = false
    rw [freed,Function.update_self]
  · intro own
    have ledger := step_rows (a := .finish p) (reached_rows ran own) trivial next
    obtain ⟨row,opened⟩ := Option.ne_none_iff_exists'.mp counted.2
    have held : row ∈ rowsOf t p := by simp [rowsOf,Process.rows,opened]
    exact ⟨row,opened,ledger.inUse p row held,fun q other => ledger.apart p q other.symm row held⟩

/-- Sixteen pages, the first of them the kernel's. -/
def smallPool : Pagepool := ⟨fun i => if i = 3 then 1 else 0, 16, 15, 1⟩

def smallElf : ElfInfo := ⟨0x10000, 0, 0, 1, 0x10000, 0, 0, 0, 0⟩

/-- A process with one page of code starts, and does nothing more. -/
def startRun : List Event :=
  .spawn 0 smallElf :: List.replicate 13 (.step 0 fun _ => ⟨0, 0, ⟨0, false, false, false⟩, ⟨0, false, false, false⟩⟩)

theorem process_leaks_small : ∃ s t, run (step 15) startRun (initial smallPool fun _ => false) = some s ∧
    step 15 (.finish 0) s = some t ∧ (t.procs 0).frames.length = 2 ∧ ¬GaveBack t 0 := by
  have ran : ((run (step 15) startRun (initial smallPool fun _ => false)).any fun s =>
      (step 15 (.finish 0) s).any fun t => decide ((t.procs 0).frames.length = 2)) = true := by
    decide +kernel
  obtain ⟨s,ran,facts⟩ := (Option.any_eq_true _ _).mp ran
  obtain ⟨t,next,count⟩ := (Option.any_eq_true _ _).mp facts
  exact ⟨s,t,ran,next,of_decide_eq_true count,(process_leaks ran next).1⟩

/-- The page of its stack is still reserved. -/
theorem stack_page_leaked : ∃ s t frame, run (step 15) startRun (initial smallPool fun _ => false) = some s ∧
    step 15 (.finish 0) s = some t ∧ frame ∈ (t.procs 0).frames ∧ t.pool.reserved frame = true ∧
    ¬GaveBack t 0 := by
  have ran : ((run (step 15) startRun (initial smallPool fun _ => false)).any fun s =>
      (step 15 (.finish 0) s).any fun t => decide (2 ∈ (t.procs 0).frames)) = true := by
    decide +kernel
  obtain ⟨s,ran,facts⟩ := (Option.any_eq_true _ _).mp ran
  obtain ⟨t,next,member⟩ := (Option.any_eq_true _ _).mp facts
  have member := of_decide_eq_true member
  obtain ⟨reserved,alone⟩ := kept_frames ((reached_sound ran).step next).pages member
  refine ⟨s,t,2,ran,next,member,reserved,?_⟩
  rintro ⟨returned,_⟩
  obtain free | ⟨q,other,taken⟩ := returned 2 member
  · exact absurd (reserved.symm.trans free) (by decide)
  · exact alone q other taken

end Buenos.Proc.Pages
