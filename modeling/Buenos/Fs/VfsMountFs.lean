import Buenos.Fs.TfsVolume
import Buenos.Fs.VfsMount
import Buenos.Kernel.Kmalloc
import Buenos.Kernel.Semaphore
import Buenos.Vm.Pagepool

/-! Mounting the filesystem of a disk: `vfs_mount_fs` of `fs/vfs.c`, the table of
`fs/filesystems.c`, and `tfs_init` and `tfs_unmount` of `fs/tfs.c`. `none` is a failing
assertion or a `semaphore_P` that sleeps. -/
namespace Buenos.Fs.MountFs

open Buenos.Foundation Buenos.Lib Buenos.Vm

def vfsInvalidParams : Int := -3

/-- A disk as `tfs_init` finds it: what the driver stores as the result of the request for
block 0, and what is in the buffer afterwards. -/
structure Gbd where
  blockSize : Nat
  returnValue : Int
  header : Bytes

/-- `fs_t` with the lock of its `tfs_t`, at an address in the kernel's segment. -/
structure Filesystem where
  address : Nat
  lock : Kernel.Sem
  volumeName : Name

structure System where
  semaphores : Kernel.Semaphores
  pool : Pagepool
  vfs : Vfs

def addrPhysToKernel (addr : Nat) : Nat := addr ||| Kernel.Kmalloc.kernelBase
def addrKernelToPhys (addr : Nat) : Nat := addr &&& (Kernel.Kmalloc.kernelBase - 1)

/-! ### Semaphores -/

/-- The whole of `semaphore_create`. -/
def createSemaphore (cpu : Kernel.Cpu) (value : Int) (s : Kernel.Semaphores) :
    Option (Option Kernel.Sem × Kernel.Semaphores) :=
  (Kernel.semaphoreCreate cpu value s).map fun t =>
    match (Kernel.semaphoreOrder s.next).find? fun sem => (s.table sem).creator = -1 with
    | none => (none, t)
    | some sem => (some sem, Kernel.semaphoreInitialise sem value t)

/-- The whole of `semaphore_P` when the caller does not sleep. -/
def lowerSemaphore (cpu : Kernel.Cpu) (sem : Kernel.Sem) (s : Kernel.Semaphores) : Option Kernel.Semaphores :=
  let s := Kernel.semaphoreP cpu sem s
  if s.activity cpu = .release sem then some (Kernel.releaseSlock cpu sem s) else none

/-- The whole of `semaphore_V` when nobody sleeps on the semaphore. -/
def raiseSemaphore (cpu : Kernel.Cpu) (sem : Kernel.Sem) (s : Kernel.Semaphores) : Option Kernel.Semaphores :=
  let s := Kernel.semaphoreV cpu sem s
  if s.activity cpu = .release sem then some (Kernel.releaseSlock cpu sem s) else none

/-! ### The functions -/

/-- `disk_submit_request` for a request without a semaphore. The interrupt handler has raised
the request's own semaphore when the caller gets to its `semaphore_P`. -/
def diskSubmitRequest (cpu : Kernel.Cpu) (disk : Gbd) (s : Kernel.Semaphores) :
    Option (Nat × Kernel.Semaphores) := do
  let (sem, s) ← createSemaphore cpu 0 s
  match sem with
  | none => some (0, s)
  | some sem =>
    let s ← raiseSemaphore cpu sem s
    let s ← lowerSemaphore cpu sem s
    some (if disk.returnValue = 0 then 1 else 0, Kernel.semaphoreDestroy sem s)

def tfsInit (cpu : Kernel.Cpu) (disk : Gbd) (s : System) : Option (Option Filesystem × System) :=
  if disk.blockSize ≠ Tfs.tfsBlockSize then some (none, s) else do
  let (sem, semaphores) ← createSemaphore cpu 1 s.semaphores
  let s := { s with semaphores := semaphores }
  match sem with
  | none => some (none, s)
  | some sem =>
    let (page, pool) ← pagepoolGetPhysPage s.pool
    let s := { s with pool := pool }
    if page = 0 then some (none, { s with semaphores := Kernel.semaphoreDestroy sem s.semaphores }) else
    let addr := addrPhysToKernel page
    let (r, semaphores) ← diskSubmitRequest cpu disk s.semaphores
    let s := { s with semaphores := semaphores }
    if r = 0 then
      let pool ← pagepoolFreePhysPage s.pool (addrKernelToPhys addr)
      some (none, { s with semaphores := Kernel.semaphoreDestroy sem s.semaphores, pool := pool })
    else if word disk.header 0 ≠ Tfs.tfsMagic then
      let pool ← pagepoolFreePhysPage s.pool (addrKernelToPhys addr)
      some (none, { s with semaphores := Kernel.semaphoreDestroy sem s.semaphores, pool := pool })
    else some (some ⟨addr,sem,cstring disk.header 4 (Tfs.tfsVolumenameMax - 1)⟩, s)

def tfsUnmount (cpu : Kernel.Cpu) (fs : Filesystem) (s : System) : Option System := do
  let semaphores ← lowerSemaphore cpu fs.lock s.semaphores
  let pool ← pagepoolFreePhysPage s.pool (addrKernelToPhys fs.address)
  some { s with semaphores := Kernel.semaphoreDestroy fs.lock semaphores, pool := pool }

/-- The table of `filesystems.c` up to its last entry. -/
def filesystems : List (Kernel.Cpu → Gbd → System → Option (Option Filesystem × System)) := [tfsInit]

def tryAll (cpu : Kernel.Cpu) (disk : Gbd) :
    List (Kernel.Cpu → Gbd → System → Option (Option Filesystem × System)) → System →
      Option (Option Filesystem × System)
  | [], s => some (none, s)
  | init :: rest, s => (init cpu disk s).bind fun
    | (some fs, s) => some (some fs, s)
    | (none, s) => tryAll cpu disk rest s

def filesystemsTryAll (cpu : Kernel.Cpu) (disk : Gbd) (s : System) : Option (Option Filesystem × System) :=
  tryAll cpu disk filesystems s

/-- `caller` and `answer` belong to the call of `vfs_mount`. -/
def vfsMountFs (caller : Nat) (answer : DriverCall → Int) (cpu : Kernel.Cpu) (disk : Gbd)
    (volumename : Option Name) (s : System) : Option (Int × System) := do
  let (filesystem, s) ← filesystemsTryAll cpu disk s
  match filesystem with
  | none => some (vfsNoSuchFs, s)
  | some filesystem =>
    let volumename := volumename.getD filesystem.volumeName
    if volumename = [] then
      let s ← tfsUnmount cpu filesystem s
      some (vfsInvalidParams, s)
    else
      let (ret, vfs) ← Mount.Call.run ⟨caller, .mount filesystem.address volumename, answer⟩ s.vfs
      let s := { s with vfs := vfs }
      if ret = vfsOk then some (ret, s)
      else
        let s ← tfsUnmount cpu filesystem s
        some (ret, s)

/-! ### What a call holds -/

def creators (s : Kernel.Semaphores) : Kernel.Sem → Int := fun sem => (s.table sem).creator

def allocated (s : Kernel.Semaphores) : Set Kernel.Sem := {sem | creators s sem ≠ -1}

def freePages (pool : Pagepool) : Set Nat := {p | p < pool.numPages ∧ pool.reserved p = false}

/-- The semaphores, the physical pages and the mount table are as they were. -/
structure Restored (s t : System) : Prop where
  semaphores : allocated t.semaphores = allocated s.semaphores
  pages : freePages t.pool = freePages s.pool
  mounts : t.vfs.filesystems = s.vfs.filesystems

theorem restored_of_eq (semaphores : creators t.semaphores = creators s.semaphores) (pool : t.pool = s.pool)
    (mounts : t.vfs.filesystems = s.vfs.filesystems) : Restored s t :=
  ⟨by rw [allocated,semaphores]; rfl,by rw [pool],mounts⟩

/-! ### Semaphores -/

/-- `sem` was free and now has a creator; the other entries of the table are the same. -/
structure Created (cpu : Kernel.Cpu) (value : Int) (sem : Kernel.Sem) (s t : Kernel.Semaphores) : Prop where
  free : creators s sem = -1
  creators : creators t = Function.update (creators s) sem (s.threads.currentThread cpu)
  value : (t.table sem).value = value
  others : ∀ other, other ≠ sem → t.table other = s.table other
  threads : t.threads = s.threads

theorem createSemaphore_spec (made : createSemaphore cpu value s = some (created, t)) :
    (created = none ∧ t = s) ∨ ∃ sem, created = some sem ∧ Created cpu value sem s t := by
  obtain ⟨reserved,made,outcome⟩ := Option.map_eq_some_iff.mp made
  unfold Kernel.semaphoreCreate at made
  cases found : (Kernel.semaphoreOrder s.next).find? fun sem => (s.table sem).creator = -1 with
  | none =>
    rw [found] at made outcome
    obtain ⟨-,same⟩ := Option.ite_none_right_eq_some.mp made
    cases same
    cases outcome
    exact .inl ⟨rfl,rfl⟩
  | some sem =>
    rw [found] at made outcome
    obtain ⟨-,same⟩ := Option.ite_none_right_eq_some.mp made
    cases same
    cases outcome
    have free : (s.table sem).creator = -1 := by simpa using List.find?_some found
    refine .inr ⟨sem,rfl,free,?_,?_,?_,rfl⟩
    · funext other
      by_cases here : other = sem
      · subst here
        simp [creators,Kernel.semaphoreInitialise,Kernel.Semaphores.modify]
      · simp [creators,Kernel.semaphoreInitialise,Kernel.Semaphores.modify,here]
    · simp [Kernel.semaphoreInitialise,Kernel.Semaphores.modify]
    · intro other apart
      simp [Kernel.semaphoreInitialise,Kernel.Semaphores.modify,apart]

theorem createSemaphore_returns (proper : 0 ≤ value) (cpu : Kernel.Cpu) (s : Kernel.Semaphores) :
    ∃ created t, createSemaphore cpu value s = some (created, t) := by
  rw [createSemaphore,Kernel.semaphoreCreate,if_pos proper,Option.map_some]
  exact ⟨_,_,rfl⟩

theorem creators_update (s : Kernel.Semaphores) (sem : Kernel.Sem) (entry : Kernel.Semaphore)
    (table : t.table = Function.update s.table sem entry) :
    creators t = Function.update (creators s) sem entry.creator := by
  funext other
  unfold creators
  rw [table]
  by_cases here : other = sem
  · rw [here,Function.update_self,Function.update_self]
  · rw [Function.update_of_ne here,Function.update_of_ne here]

theorem creators_destroy (sem : Kernel.Sem) (s : Kernel.Semaphores) :
    creators (Kernel.semaphoreDestroy sem s) = Function.update (creators s) sem (-1) :=
  creators_update s sem { s.table sem with creator := -1 } rfl

/-- Only the value and the lock of the semaphore change. -/
structure Moved (sem : Kernel.Sem) (value : Int) (s t : Kernel.Semaphores) : Prop where
  table : t.table = Function.update s.table sem ⟨false,value,(s.table sem).creator⟩
  threads : t.threads = s.threads

theorem Moved.creators (moved : Moved sem value s t) : creators t = creators s := by
  rw [creators_update s sem _ moved.table]
  exact Function.update_eq_self sem _

theorem Moved.value (moved : Moved sem n s t) : (t.table sem).value = n := by
  rw [moved.table,Function.update_self]

theorem semaphoreP_table (cpu : Kernel.Cpu) (sem : Kernel.Sem) (s : Kernel.Semaphores) :
    (Kernel.semaphoreP cpu sem s).table = Function.update s.table sem
      ⟨true,wrap ((s.table sem).value - 1),(s.table sem).creator⟩ ∧
    (Kernel.semaphoreP cpu sem s).threads = s.threads := by
  unfold Kernel.semaphoreP
  dsimp only
  split <;> exact ⟨rfl,rfl⟩

theorem semaphoreV_table (cpu : Kernel.Cpu) (sem : Kernel.Sem) (s : Kernel.Semaphores) :
    (Kernel.semaphoreV cpu sem s).table = Function.update s.table sem
      ⟨true,wrap ((s.table sem).value + 1),(s.table sem).creator⟩ ∧
    (Kernel.semaphoreV cpu sem s).threads = s.threads := by
  unfold Kernel.semaphoreV
  dsimp only
  split <;> exact ⟨rfl,rfl⟩

theorem releaseSlock_moved (table : t.table = Function.update s.table sem ⟨true,value,(s.table sem).creator⟩)
    (threads : t.threads = s.threads) (cpu : Kernel.Cpu) : Moved sem value s (Kernel.releaseSlock cpu sem t) := by
  refine ⟨?_,threads⟩
  change Function.update t.table sem { t.table sem with slock := false } = _
  rw [table,Function.update_self,Function.update_idem]

theorem lowerSemaphore_spec (lowered : lowerSemaphore cpu sem s = some t) :
    Moved sem (wrap ((s.table sem).value - 1)) s t := by
  obtain ⟨-,released⟩ := Option.ite_none_right_eq_some.mp lowered
  cases released
  exact releaseSlock_moved (semaphoreP_table cpu sem s).1 (semaphoreP_table cpu sem s).2 cpu

theorem raiseSemaphore_spec (raised : raiseSemaphore cpu sem s = some t) :
    Moved sem (wrap ((s.table sem).value + 1)) s t := by
  obtain ⟨-,released⟩ := Option.ite_none_right_eq_some.mp raised
  cases released
  exact releaseSlock_moved (semaphoreV_table cpu sem s).1 (semaphoreV_table cpu sem s).2 cpu

theorem lowerSemaphore_returns (cpu : Kernel.Cpu) (free : (s.table sem).value = 1) :
    ∃ t, lowerSemaphore cpu sem s = some t := by
  have through : (Kernel.semaphoreP cpu sem s).activity cpu = .release sem := by
    have awake : ¬wrap ((s.table sem).value - 1) < 0 := by rw [free]; decide
    simp [Kernel.semaphoreP,Kernel.Semaphores.modify,Kernel.Semaphores.count,Kernel.Semaphores.goto,awake]
  exact ⟨_,if_pos through⟩

theorem raiseSemaphore_returns (cpu : Kernel.Cpu) (nobody : (s.table sem).value = 0) :
    ∃ t, raiseSemaphore cpu sem s = some t := by
  have through : (Kernel.semaphoreV cpu sem s).activity cpu = .release sem := by
    have alone : ¬wrap ((s.table sem).value + 1) ≤ 0 := by rw [nobody]; decide
    simp [Kernel.semaphoreV,Kernel.Semaphores.modify,Kernel.Semaphores.count,Kernel.Semaphores.goto,alone]
  exact ⟨_,if_pos through⟩

/-! ### The disk request -/

/-- The request gives its semaphore back, and touches no other that is allocated. -/
structure Requested (s t : Kernel.Semaphores) : Prop where
  creators : creators t = creators s
  others : ∀ sem ∈ allocated s, t.table sem = s.table sem
  threads : t.threads = s.threads

theorem diskSubmitRequest_spec (submitted : diskSubmitRequest cpu disk s = some (r, t)) : Requested s t := by
  simp only [diskSubmitRequest,Option.bind_eq_bind,Option.bind_eq_some_iff,Prod.exists] at submitted
  obtain ⟨created,made,creation,submitted⟩ := submitted
  obtain ⟨rfl,rfl⟩ | ⟨sem,rfl,created⟩ := createSemaphore_spec creation
  · cases submitted
    exact ⟨rfl,fun _ _ => rfl,rfl⟩
  · simp only [Option.bind_eq_some_iff] at submitted
    obtain ⟨up,raised,down,lowered,submitted⟩ := submitted
    cases submitted
    have raised := raiseSemaphore_spec raised
    have lowered := lowerSemaphore_spec lowered
    refine ⟨?_,?_,lowered.threads.trans (raised.threads.trans created.threads)⟩
    · rw [creators_destroy,lowered.creators,raised.creators,created.creators,Function.update_idem,← created.free,
        Function.update_eq_self]
    · intro other taken
      have apart : other ≠ sem := fun same => taken (same ▸ created.free)
      change Function.update down.table sem _ other = _
      rw [Function.update_of_ne apart,lowered.table,Function.update_of_ne apart,raised.table,
        Function.update_of_ne apart,created.others other apart]

theorem diskSubmitRequest_returns (cpu : Kernel.Cpu) (disk : Gbd) (s : Kernel.Semaphores) :
    ∃ r t, diskSubmitRequest cpu disk s = some (r, t) := by
  unfold diskSubmitRequest
  obtain ⟨created,made,creation⟩ := createSemaphore_returns (show (0 : Int) ≤ 0 by decide) cpu s
  rw [creation]
  obtain ⟨rfl,rfl⟩ | ⟨sem,rfl,created⟩ := createSemaphore_spec creation
  · exact ⟨_,_,rfl⟩
  · obtain ⟨up,raised⟩ := raiseSemaphore_returns cpu created.value
    have high := (raiseSemaphore_spec raised).value
    rw [created.value] at high
    obtain ⟨down,lowered⟩ := lowerSemaphore_returns cpu (high.trans (by decide))
    simp only [Option.bind_eq_bind,Option.bind_some,raised,lowered]
    exact ⟨_,_,rfl⟩

/-! ### The page -/

theorem addr_round_trip (low : addr < Kernel.Kmalloc.kernelBase) :
    addrKernelToPhys (addrPhysToKernel addr) = addr := by
  unfold addrKernelToPhys addrPhysToKernel
  rw [show Kernel.Kmalloc.kernelBase = 2 ^ 31 from rfl] at low ⊢
  rw [Nat.and_two_pow_sub_one_eq_mod,Nat.lor_comm]
  have sum := Nat.two_pow_add_eq_or_of_lt low 1
  rw [Nat.mul_one] at sum
  rw [← sum]
  omega

theorem getPhysPage_rest (got : pagepoolGetPhysPage pool = some (addr, taken)) (present : addr ≠ 0) :
    taken = { pool with freePages := taken.freePages, numFreePages := pool.numFreePages - 1 } := by
  simp only [pagepoolGetPhysPage] at got
  split at got
  · obtain ⟨-,got⟩ := Option.ite_none_right_eq_some.mp got
    cases got
    rfl
  · cases got
    exact absurd rfl present

theorem freePhysPage_rest (freed : pagepoolFreePhysPage pool addr = some after) :
    after = { pool with freePages := after.freePages, numFreePages := pool.numFreePages + 1 } := by
  obtain ⟨-,freed⟩ := Option.ite_none_right_eq_some.mp freed
  obtain ⟨-,freed⟩ := Option.ite_none_right_eq_some.mp freed
  cases freed
  rfl

/-- A page that is given back leaves the pool as it was before the page was taken. -/
theorem page_given_back (got : pagepoolGetPhysPage pool = some (addr, taken)) (present : addr ≠ 0)
    (freed : pagepoolFreePhysPage taken addr = some after) : after = pool := by
  obtain ⟨-,free,reserved⟩ := getPhysPage_effect got present
  have released := freePhysPage_effect freed
  have bits : after.freePages = pool.freePages := by
    apply bits_ext
    intro n
    have same : after.reserved = pool.reserved := by
      rw [released,reserved,Function.update_idem,← free,Function.update_eq_self]
    exact congrFun same n
  rw [freePhysPage_rest freed,getPhysPage_rest got present,bits,Int.sub_add_cancel]

/-- The pages of the pool lie in the kernel's segment, and page 0 is the kernel's own. -/
structure Proper (pool : Pagepool) : Prop where
  invariant : ∃ total reserved out, 1 ≤ reserved ∧ total * pageSize ≤ Kernel.Kmalloc.kernelBase ∧
    PoolInvariant total reserved ⟨pool,out⟩

theorem Proper.take (proper : Proper pool) (got : pagepoolGetPhysPage pool = some (page, taken)) :
    (page = 0 ∧ taken = pool) ∨ (page ≠ 0 ∧
      pagepoolFreePhysPage taken (addrKernelToPhys (addrPhysToKernel page)) = some pool) := by
  obtain ⟨total,reserved,out,positive,addressable,invariant⟩ := proper.invariant
  by_cases present : page = 0
  · subst present
    obtain ⟨_,none⟩ | ⟨p,high,_,_,_,found⟩ := invariant.get
    · rw [none] at got
      cases got
      exact .inl ⟨rfl,rfl⟩
    · rw [found] at got
      have zero := (Prod.mk.inj (Option.some.inj got)).1
      unfold pageSize at zero
      omega
  · obtain ⟨after,freed,_⟩ := invariant.got positive got present
    have low : page < Kernel.Kmalloc.kernelBase := by
      obtain ⟨_,none⟩ | ⟨p,_,low,_,_,found⟩ := invariant.get
      · rw [none] at got
        cases got
        exact absurd rfl present
      · rw [found] at got
        cases got
        exact (Nat.mul_lt_mul_of_pos_right low (by decide)).trans_le addressable
    rw [addr_round_trip low,freed,page_given_back got present freed]
    exact .inr ⟨present,rfl⟩

theorem Proper.get_returns (proper : Proper pool) : ∃ page taken, pagepoolGetPhysPage pool = some (page, taken) := by
  obtain ⟨total,reserved,out,_,_,invariant⟩ := proper.invariant
  obtain ⟨_,got⟩ | ⟨p,_,_,_,_,got⟩ := invariant.get
  · exact ⟨_,_,got⟩
  · exact ⟨_,_,got⟩

/-- Whatever was taken and freed since `pagepool_init`. -/
theorem run_proper (positive : 1 ≤ reserved) (fits : reserved ≤ total)
    (addressable : total * pageSize ≤ Kernel.Kmalloc.kernelBase) (memory : Bytes)
    (below : ∀ physAddr, PoolCall.free physAddr ∈ calls → physAddr < total * pageSize)
    (ran : run poolStep calls ⟨pagepoolInit total reserved memory,[]⟩ = some s) : Proper s.pool :=
  ⟨total,reserved,s.out,positive,addressable,run_poolInvariant positive fits memory below ran⟩

/-! ### Initialisation and unmounting -/

structure Same (s t : System) : Prop where
  creators : creators t.semaphores = creators s.semaphores
  pool : t.pool = s.pool
  vfs : t.vfs = s.vfs

structure Held (cpu : Kernel.Cpu) (fs : Filesystem) (s t : System) : Prop where
  semaphores : ∃ made, Created cpu 1 fs.lock s.semaphores made ∧ Requested made t.semaphores
  page : pagepoolFreePhysPage t.pool (addrKernelToPhys fs.address) = some s.pool
  vfs : t.vfs = s.vfs

theorem Same.restored (same : Same s t) : Restored s t :=
  restored_of_eq same.creators same.pool (by rw [same.vfs])

theorem created_destroyed (made : Created cpu value sem s t) (kept : creators u = creators t) :
    creators (Kernel.semaphoreDestroy sem u) = creators s := by
  rw [creators_destroy,kept,made.creators,Function.update_idem,← made.free,Function.update_eq_self]

theorem tfsInit_spec (proper : Proper s.pool) (started : tfsInit cpu disk s = some (made, t)) :
    (made = none ∧ Same s t) ∨ ∃ fs, made = some fs ∧ Held cpu fs s t := by
  unfold tfsInit at started
  split at started
  · cases started
    exact .inl ⟨rfl,rfl,rfl,rfl⟩
  simp only [Option.bind_eq_bind,Option.bind_eq_some_iff,Prod.exists] at started
  obtain ⟨sem,semaphores,creation,started⟩ := started
  obtain ⟨rfl,rfl⟩ | ⟨sem,rfl,created⟩ := createSemaphore_spec creation
  · cases started
    exact .inl ⟨rfl,rfl,rfl,rfl⟩
  simp only [Option.bind_eq_some_iff,Prod.exists] at started
  obtain ⟨page,pool,got,started⟩ := started
  obtain ⟨rfl,rfl⟩ | ⟨present,freed⟩ := proper.take got
  · rw [if_pos rfl] at started
    cases started
    exact .inl ⟨rfl,created_destroyed created rfl,rfl,rfl⟩
  rw [if_neg present] at started
  simp only [Option.bind_eq_some_iff,Prod.exists,freed] at started
  obtain ⟨r,requested,submitted,started⟩ := started
  have request := diskSubmitRequest_spec submitted
  have kept := created_destroyed created request.creators
  split at started
  · cases started
    exact .inl ⟨rfl,kept,rfl,rfl⟩
  split at started
  · cases started
    exact .inl ⟨rfl,kept,rfl,rfl⟩
  · cases started
    exact .inr ⟨_,rfl,⟨semaphores,created,request⟩,freed,rfl⟩

theorem tfsUnmount_spec (held : Held cpu fs s t) (unmounted : tfsUnmount cpu fs t = some u) :
    creators u.semaphores = creators s.semaphores ∧ u.pool = s.pool ∧ u.vfs = t.vfs := by
  obtain ⟨made,created,requested⟩ := held.semaphores
  unfold tfsUnmount at unmounted
  simp only [Option.bind_eq_bind,Option.bind_eq_some_iff,held.page,Option.some.injEq,exists_eq_left'] at unmounted
  obtain ⟨semaphores,lowered,unmounted⟩ := unmounted
  cases unmounted
  exact ⟨created_destroyed created ((lowerSemaphore_spec lowered).creators.trans requested.creators),rfl,rfl⟩

theorem tfsInit_returns (proper : Proper s.pool) (cpu : Kernel.Cpu) (disk : Gbd) :
    ∃ made t, tfsInit cpu disk s = some (made, t) := by
  unfold tfsInit
  split
  · exact ⟨_,_,rfl⟩
  obtain ⟨created,semaphores,creation⟩ := createSemaphore_returns (show (0 : Int) ≤ 1 by decide) cpu s.semaphores
  simp only [Option.bind_eq_bind,creation,Option.bind_some]
  obtain ⟨rfl,rfl⟩ | ⟨sem,rfl,created⟩ := createSemaphore_spec creation
  · exact ⟨_,_,rfl⟩
  obtain ⟨page,pool,got⟩ := proper.get_returns
  simp only [got,Option.bind_some]
  split
  · exact ⟨_,_,rfl⟩
  next present =>
  obtain ⟨r,requested,submitted⟩ := diskSubmitRequest_returns cpu disk semaphores
  simp only [submitted,Option.bind_some]
  obtain ⟨zero,_⟩ | ⟨_,freed⟩ := proper.take got
  · exact absurd zero present
  simp only [freed,Option.bind_some]
  split
  · exact ⟨_,_,rfl⟩
  · split <;> exact ⟨_,_,rfl⟩

/-- The creator of a semaphore is a thread, so the semaphore of the filesystem is not taken
for the request, and the unmount does not sleep. -/
theorem tfsUnmount_returns (held : Held cpu fs s t) (thread : 0 ≤ s.semaphores.threads.currentThread cpu)
    (semaphores : u.semaphores = t.semaphores) (pool : u.pool = t.pool) : ∃ v, tfsUnmount cpu fs u = some v := by
  obtain ⟨made,created,requested⟩ := held.semaphores
  have taken : fs.lock ∈ allocated made := by
    change creators made fs.lock ≠ -1
    rw [created.creators,Function.update_self]
    omega
  have free : (u.semaphores.table fs.lock).value = 1 := by
    rw [semaphores,requested.others fs.lock taken,created.value]
  obtain ⟨lowered,lowering⟩ := lowerSemaphore_returns cpu free
  have page := held.page
  rw [← pool] at page
  unfold tfsUnmount
  simp only [lowering,page,Option.bind_eq_bind,Option.bind_some]
  exact ⟨_,rfl⟩

/-! ### The call of `vfs_mount` -/

/-- When the program returns a failure the mount table is `table`. -/
def Refusing (table : MountRow → VfsEntry) (r : Option (Int × Vfs)) : Prop :=
  ∀ code t, r = some (code, t) → code ≠ vfsOk → t.filesystems = table

section Refusals
variable {answer : DriverCall → Int} {table : MountRow → VfsEntry}

theorem refusing_act {next : Vfs → VfsProg} (later : Refusing table (execute invoke answer (next s) (effect s))) :
    Refusing table (execute invoke answer (.act ready effect next) s) := by
  intro code t returned
  obtain ⟨-,returned⟩ := Option.ite_none_right_eq_some.mp returned
  exact later code t returned

theorem refusing_finish (kept : code ≠ vfsOk → s.filesystems = table) :
    Refusing table (execute invoke answer (finish me code) s) := by
  apply refusing_act
  split
  · intro ret t returned
    contradiction
  · intro ret t returned refused
    cases returned
    rw [← kept refused]
    unfold Vfs.endOp
    dsimp only
    split <;> rfl

theorem refusing_mount (me : Nat) (fs : FsPtr) (name : Name) (s : Vfs) :
    Refusing s.filesystems (execute invoke answer (vfsMount me fs name) s) := by
  unfold vfsMount
  split
  · intro code t returned
    contradiction
  apply refusing_act
  split
  · apply refusing_act
    apply refusing_act
    split
    · exact refusing_act (refusing_finish fun _ => rfl)
    · split
      · exact refusing_act (refusing_finish fun _ => rfl)
      · exact refusing_act (refusing_act (refusing_finish fun refused => absurd rfl refused))
  · intro code t returned _
    cases returned
    rfl

end Refusals

theorem mount_refused (ran : Mount.Call.run ⟨caller, .mount fs name, answer⟩ s = some (code, t))
    (refused : code ≠ vfsOk) : t.filesystems = s.filesystems :=
  refusing_mount caller fs name { s with known := fs :: s.known } code t ran refused

/-! ### The whole call -/

theorem filesystemsTryAll_eq (cpu : Kernel.Cpu) (disk : Gbd) (s : System) :
    filesystemsTryAll cpu disk s = tfsInit cpu disk s := by
  unfold filesystemsTryAll filesystems tryAll
  rcases tfsInit cpu disk s with _ | ⟨_ | fs,t⟩ <;> rfl

theorem vfsMountFs_refused (proper : Proper s.pool)
    (mounted : vfsMountFs caller answer cpu disk volumename s = some (ret, t)) (refused : ret ≠ vfsOk) :
    Restored s t := by
  unfold vfsMountFs at mounted
  simp only [filesystemsTryAll_eq,Option.bind_eq_bind,Option.bind_eq_some_iff,Prod.exists] at mounted
  obtain ⟨made,started,initialised,mounted⟩ := mounted
  obtain ⟨rfl,same⟩ | ⟨fs,rfl,held⟩ := tfsInit_spec proper initialised
  · cases mounted
    exact same.restored
  dsimp only at mounted
  split at mounted
  · obtain ⟨after,unmounted,mounted⟩ := Option.bind_eq_some_iff.mp mounted
    cases mounted
    obtain ⟨semaphores,pool,vfs⟩ := tfsUnmount_spec held unmounted
    exact restored_of_eq semaphores pool (by rw [vfs,held.vfs])
  · simp only [Option.bind_eq_some_iff,Prod.exists] at mounted
    obtain ⟨code,vfs,ran,mounted⟩ := mounted
    split at mounted
    · next ok =>
      cases mounted
      exact absurd ok refused
    · next failed =>
      obtain ⟨after,unmounted,mounted⟩ := Option.bind_eq_some_iff.mp mounted
      cases mounted
      have table := mount_refused ran failed
      rw [held.vfs] at table
      have later : Held cpu fs { s with vfs := vfs } { started with vfs := vfs } :=
        ⟨held.semaphores,held.page,rfl⟩
      obtain ⟨semaphores,pool,same⟩ := tfsUnmount_spec later unmounted
      exact restored_of_eq semaphores pool (by rw [same]; exact table)

/-- Where the calling thread is a thread and VFS is at rest, nothing sleeps. -/
theorem vfsMountFs_returns (proper : Proper s.pool) (thread : 0 ≤ s.semaphores.threads.currentThread cpu)
    (resting : Mount.Resting s.vfs) (caller : Nat) (answer : DriverCall → Int) (disk : Gbd) (volumename : Option Name) :
    ∃ ret t, vfsMountFs caller answer cpu disk volumename s = some (ret, t) := by
  unfold vfsMountFs
  obtain ⟨made,started,initialised⟩ := tfsInit_returns proper cpu disk
  simp only [filesystemsTryAll_eq,initialised,Option.bind_eq_bind,Option.bind_some]
  obtain ⟨rfl,same⟩ | ⟨fs,rfl,held⟩ := tfsInit_spec proper initialised
  · exact ⟨_,_,rfl⟩
  dsimp only
  split
  · obtain ⟨after,unmounted⟩ := tfsUnmount_returns held thread rfl rfl
    rw [unmounted]
    exact ⟨_,_,rfl⟩
  · next named =>
    rw [← held.vfs] at resting
    obtain ⟨vfs,ran,_⟩ := Mount.run_mount resting named fs.address caller answer
    rw [ran]
    simp only [Option.bind_some]
    split
    · exact ⟨_,_,rfl⟩
    · obtain ⟨after,unmounted⟩ := tfsUnmount_returns (u := { started with vfs := vfs }) held thread rfl rfl
      rw [unmounted]
      exact ⟨_,_,rfl⟩

/-- A mount that fails gives back all it took, and so do initialisation and unmount. -/
theorem failed_mount_restores (proper : Proper s.pool) (caller : Nat) (answer : DriverCall → Int)
    (cpu : Kernel.Cpu) (disk : Gbd) (volumename : Option Name) :
    (∀ ret t, vfsMountFs caller answer cpu disk volumename s = some (ret, t) → ret ≠ vfsOk → Restored s t) ∧
    (∀ fs t u, tfsInit cpu disk s = some (some fs, t) → tfsUnmount cpu fs t = some u → Restored s u) ∧
    (0 ≤ s.semaphores.threads.currentThread cpu →
      (Mount.Resting s.vfs → ∃ ret t, vfsMountFs caller answer cpu disk volumename s = some (ret, t)) ∧
      ∃ made t, tfsInit cpu disk s = some (made, t) ∧ ∀ fs, made = some fs → ∃ u, tfsUnmount cpu fs t = some u) := by
  refine ⟨fun ret t => vfsMountFs_refused proper,?_,?_⟩
  · intro fs t u initialised unmounted
    obtain ⟨missing,_⟩ | ⟨_,same,held⟩ := tfsInit_spec proper initialised
    · contradiction
    · cases same
      obtain ⟨semaphores,pool,vfs⟩ := tfsUnmount_spec held unmounted
      exact restored_of_eq semaphores pool (by rw [vfs,held.vfs])
  · intro thread
    refine ⟨fun resting => vfsMountFs_returns proper thread resting caller answer disk volumename,?_⟩
    obtain ⟨made,t,initialised⟩ := tfsInit_returns proper cpu disk
    refine ⟨made,t,initialised,?_⟩
    rintro fs rfl
    obtain ⟨missing,_⟩ | ⟨_,same,held⟩ := tfsInit_spec proper initialised
    · contradiction
    · cases same
      exact tfsUnmount_returns held thread rfl rfl

def booted : System := ⟨Kernel.initialSemaphores,pagepoolInit 16 4 fun _ => 0,initial.shared⟩

/-- The header has the magic number and no volume name, and no name is given. -/
theorem failed_mount_restores_nameless : ∃ ret t,
    vfsMountFs 0 (fun _ => 0) 0 ⟨512,0,setWord (fun _ => 0) 0 Tfs.tfsMagic⟩ none booted = some (ret, t) ∧
      ret = vfsInvalidParams ∧ Restored booted t := by
  have refused : ((vfsMountFs 0 (fun _ => 0) 0 ⟨512,0,setWord (fun _ => 0) 0 Tfs.tfsMagic⟩ none booted).any fun r =>
      decide (r.1 = vfsInvalidParams)) = true := by decide +kernel
  obtain ⟨⟨ret,t⟩,mounted,refused⟩ := (Option.any_eq_true _ _).mp refused
  have refused : ret = vfsInvalidParams := of_decide_eq_true refused
  have start : run poolStep [] ⟨pagepoolInit 16 4 fun _ => 0,[]⟩ = some ⟨booted.pool,[]⟩ := rfl
  have proper : Proper booted.pool := run_proper (by decide) (by decide) (by decide) _ (by simp) start
  have restored := (failed_mount_restores proper 0 (fun _ => 0) 0
    ⟨512,0,setWord (fun _ => 0) 0 Tfs.tfsMagic⟩ none).1 ret t mounted (by rw [refused]; decide)
  exact ⟨ret,t,mounted,refused,restored⟩

end Buenos.Fs.MountFs
