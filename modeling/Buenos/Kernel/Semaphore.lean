import Buenos.Foundation.Int32
import Buenos.Kernel.Thread

/-! The semaphores of `kernel/semaphore.c` on top of the threads and the sleep queue. The
sections of `semaphore_P` and `semaphore_V` on the lock of a semaphore are split at their calls of
`sleepq_add` and `sleepq_wake`; interrupts are disabled in them, so each CPU makes one at a
time. -/
namespace Buenos.Kernel

open Buenos.Foundation

def configMaxSemaphores : Nat := 128

abbrev Sem := Fin 128

/-- Where the linker puts `semaphore_table`; a `semaphore_t` has 12 bytes. -/
structure Layout where
  base : UInt32
  proper : base ≠ 0
  fits : base.toNat + 12 * 128 < 2 ^ 32

def Layout.address (layout : Layout) (sem : Sem) : UInt32 := layout.base + 12 * UInt32.ofNat sem

structure Semaphore where
  slock : Bool
  value : Int
  creator : Int
  deriving DecidableEq

/-- What a CPU has to do next for a semaphore whose lock it holds. -/
inductive Activity where
  | none
  | add (sem : Sem)
  | wake (sem : Sem)
  | waking (sem : Sem)
  | release (sem : Sem)
  deriving DecidableEq

def Activity.sem : Activity → Option Sem
  | .none => Option.none
  | .add sem | .wake sem | .waking sem | .release sem => some sem

/-- A semaphore is `reserved` until `semaphore_create` has written its value. -/
inductive Life where
  | absent
  | reserved (value : Int)
  | live
  deriving DecidableEq

/-- The history of a semaphore since its creation with the value `created`: calls of `semaphore_V`
that have raised it, calls of `semaphore_P` that have lowered it, and those of them that have got
through. -/
structure Counts where
  created : Int
  raised : Nat
  lowered : Nat
  passed : Nat
  deriving DecidableEq

/-- Not read by the code: `life`, `counts`, and `blocked`, the semaphore on which the last
`semaphore_P` of a thread has queued the thread and has not returned. -/
structure Semaphores where
  threads : Threads
  table : Sem → Semaphore
  next : Sem
  activity : Cpu → Activity
  life : Sem → Life
  counts : Sem → Counts
  blocked : Int → Option Sem

def Semaphores.modify (s : Semaphores) (sem : Sem) (f : Semaphore → Semaphore) : Semaphores :=
  { s with table := Function.update s.table sem (f (s.table sem)) }

def Semaphores.count (s : Semaphores) (sem : Sem) (f : Counts → Counts) : Semaphores :=
  { s with counts := Function.update s.counts sem (f (s.counts sem)) }

def Semaphores.goto (s : Semaphores) (cpu : Cpu) (activity : Activity) : Semaphores :=
  { s with activity := Function.update s.activity cpu activity }

/-- The order in which `semaphore_create` looks at the table. -/
def semaphoreOrder (next : Sem) : List Sem := (List.finRange 128).map fun i => next + i

def semaphoreCreate (cpu : Cpu) (value : Int) (s : Semaphores) : Option Semaphores :=
  if 0 ≤ value then
    some (match (semaphoreOrder s.next).find? fun sem => (s.table sem).creator = -1 with
    | none => s
    | some sem =>
      { s.modify sem fun e => { e with creator := s.threads.currentThread cpu } with
        next := sem + 1
        life := Function.update s.life sem (.reserved value) })
  else none

def firstSem : Sem := 0

/-- The end of `semaphore_create`, without the lock of the table. -/
def semaphoreInitialise (sem : Sem) (value : Int) (s : Semaphores) : Semaphores :=
  { s.modify sem fun e => { e with value := value, slock := false } with
    life := Function.update s.life sem .live
    counts := Function.update s.counts sem ⟨value, 0, 0, 0⟩ }

def semaphoreDestroy (sem : Sem) (s : Semaphores) : Semaphores :=
  { s.modify sem fun e => { e with creator := -1 } with life := Function.update s.life sem .absent }

/-- `semaphore_P` takes the lock and lowers the value. -/
def semaphoreP (cpu : Cpu) (sem : Sem) (s : Semaphores) : Semaphores :=
  let s := s.modify sem fun e => { e with slock := true, value := wrap (e.value - 1) }
  let s := s.count sem fun n => { n with lowered := n.lowered + 1 }
  if (s.table sem).value < 0 then s.goto cpu (.add sem)
  else (s.count sem fun n => { n with passed := n.passed + 1 }).goto cpu (.release sem)

/-- `semaphore_V` takes the lock and raises the value. -/
def semaphoreV (cpu : Cpu) (sem : Sem) (s : Semaphores) : Semaphores :=
  let s := s.modify sem fun e => { e with slock := true, value := wrap (e.value + 1) }
  let s := s.count sem fun n => { n with raised := n.raised + 1 }
  if (s.table sem).value ≤ 0 then s.goto cpu (.wake sem) else s.goto cpu (.release sem)

/-- A `semaphore_P` that had to sleep returns when its thread is back on a CPU. -/
def returnP (t : Int) (s : Semaphores) : Semaphores :=
  match s.blocked t with
  | none => s
  | some sem =>
    { s.count sem fun n => { n with passed := n.passed + 1 } with
      blocked := Function.update s.blocked t none }

def releaseSlock (cpu : Cpu) (sem : Sem) (s : Semaphores) : Semaphores :=
  (s.modify sem fun e => { e with slock := false }).goto cpu .none

/-! ### Runs -/

inductive SemAction where
  | threads (a : Action)
  | create (cpu : Cpu) (value : Int)
  | initialise (sem : Sem)
  | destroy (sem : Sem)
  | p (cpu : Cpu) (sem : Sem)
  | add (cpu : Cpu) (status : UInt32)
  | v (cpu : Cpu) (sem : Sem)
  | wake (cpu : Cpu)
  | release (cpu : Cpu)

/-- The steps that a CPU cannot make while it is in a section of a semaphore. -/
def Action.cpu : Action → Option Cpu
  | .add cpu _ _ | .wake cpu _ _ | .schedule cpu | .finish cpu => some cpu
  | _ => none

/-- The resource of a step that is not made for a semaphore. -/
def Action.resource : Action → Option UInt32
  | .add _ _ resource | .wake _ resource _ => some resource
  | _ => none

def threadIds : List Int := (List.range 32).map Int.ofNat

def intMax : Int := 2 ^ 31 - 1

/-- The initial value is an `int`, and the idle thread cannot wait. -/
def semStep (layout : Layout) : SemAction → Semaphores → Option Semaphores
  | .threads a, s =>
    if (∀ cpu ∈ a.cpu, s.activity cpu = .none) ∧ (∀ sem, a.resource ≠ some (layout.address sem)) then
      (step a s.threads).map fun threads => match a with
        | .store cpu => returnP (threads.currentThread cpu) { s with threads := threads }
        | _ => { s with threads := threads }
    else none
  | .create cpu value, s =>
    if value ≤ intMax ∧ s.activity cpu = .none ∧ s.threads.cpus cpu = .working then semaphoreCreate cpu value s
    else none
  | .initialise sem, s => match s.life sem with
    | .reserved value => some (semaphoreInitialise sem value s)
    | _ => none
  | .destroy sem, s =>
    if s.life sem = .live ∧ (∀ cpu, (s.activity cpu).sem ≠ some sem) ∧
        (∀ t ∈ threadIds, s.blocked t ≠ some sem) then
      some (semaphoreDestroy sem s) else none
  | .p cpu sem, s =>
    if s.life sem = .live ∧ (s.table sem).slock = false ∧ s.activity cpu = .none ∧
        s.threads.cpus cpu = .working ∧
        (s.threads.currentThread cpu ≠ idleThreadTid ∨ 0 ≤ wrap ((s.table sem).value - 1)) then
      some (semaphoreP cpu sem s) else none
  | .add cpu status, s => match s.activity cpu with
    | .add sem => (step (.add cpu status (layout.address sem)) s.threads).map fun threads =>
      { s.goto cpu (.release sem) with
        threads := threads
        blocked := Function.update s.blocked (s.threads.currentThread cpu) (some sem) }
    | _ => none
  | .v cpu sem, s =>
    if s.life sem = .live ∧ (s.table sem).slock = false ∧ s.activity cpu = .none then
      some (semaphoreV cpu sem s) else none
  | .wake cpu, s => match s.activity cpu with
    | .wake sem => (step (.wake cpu (layout.address sem) false) s.threads).map fun threads =>
      { s.goto cpu (.waking sem) with threads := threads }
    | _ => none
  | .release cpu, s => match s.activity cpu with
    | .release sem => some (releaseSlock cpu sem s)
    | .waking sem =>
      if s.threads.waker.map Waker.cpu ≠ some cpu then some (releaseSlock cpu sem s) else none
    | _ => none

/-- After `semaphore_init` over zeroed storage. -/
def initialSemaphores : Semaphores where
  threads := initial
  table := fun _ => ⟨false, 0, -1⟩
  next := 0
  activity := fun _ => .none
  life := fun _ => .absent
  counts := fun _ => ⟨0, 0, 0, 0⟩
  blocked := fun _ => none

end Buenos.Kernel
