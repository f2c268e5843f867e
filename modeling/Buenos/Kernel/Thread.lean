import Buenos.Foundation.Run
import Mathlib.Algebra.GroupWithZero.Nat
import Mathlib.Logic.Function.Basic

/-! Threads, the ready list and the sleep queue of `kernel/thread.c`, `kernel/scheduler.c`
and `kernel/sleepq.c`. A section under a spinlock is one step. Steps of their own are what
`thread_create` writes after its lock is released, the sections on `thread_table_slock` that
`sleepq_wake` and `sleepq_wake_all` make while they hold `sleepq_slock`, and the store to
`scheduler_current_thread` at the end of `scheduler_schedule`. -/
namespace Buenos.Kernel

def configMaxThreads : Int := 32
abbrev configMaxCpus : Nat := 4

theorem configMaxCpus_ne_zero : configMaxCpus ≠ 0 := by decide

instance : NeZero configMaxCpus := ⟨configMaxCpus_ne_zero⟩
def idleThreadTid : Int := 0

abbrev Cpu := Fin configMaxCpus

inductive ThreadState where
  | free
  | running
  | ready
  | sleeping
  | nonready
  | dying
  deriving DecidableEq

/-- The fields of `thread_table_t` that scheduling uses. -/
structure ThreadEntry where
  state : ThreadState
  sleepsOn : UInt32
  next : Int
  deriving DecidableEq

/-- What a CPU does: it executes a thread, whose last act was to ask for a switch when it is
`switching`, or it stands behind the lock of `scheduler_schedule` with the selected thread. -/
inductive CpuPhase where
  | working
  | switching
  | storing (t : Int)
  deriving DecidableEq

/-- The locals of a `sleepq_wake` or `sleepq_wake_all` that has taken `wake` out of its chain
and holds `sleepq_slock`. -/
structure Waker where
  cpu : Cpu
  resource : UInt32
  all : Bool
  prev : Int
  first : Int
  wake : Int
  deriving DecidableEq

/-- A row between `thread_create` and `thread_run`. -/
inductive Fresh where
  | allocated
  | created
  deriving DecidableEq

/-- `waker` also says whether `sleepq_slock` is held; `fresh` is not read by the code. -/
structure Threads where
  threadTable : Int → ThreadEntry
  currentThread : Cpu → Int
  head : Int
  tail : Int
  hashtable : UInt32 → Int
  nextTid : Int
  cpus : Cpu → CpuPhase
  waker : Option Waker
  fresh : Int → Option Fresh

def Threads.modify (s : Threads) (t : Int) (f : ThreadEntry → ThreadEntry) : Threads :=
  { s with threadTable := Function.update s.threadTable t (f (s.threadTable t)) }

/-! ### The ready list; `none` is a failed assertion -/

def schedulerAddToReadyList (t : Int) (s : Threads) : Option Threads :=
  if t ≠ idleThreadTid ∧ 0 ≤ t ∧ t < configMaxThreads then
    if s.tail < 0 then
      some { s.modify t fun e => { e with next := -1 } with head := t, tail := t }
    else
      let s' := s.modify s.tail fun e => { e with next := t }
      some { s'.modify t fun e => { e with next := -1 } with tail := t }
  else none

def schedulerRemoveFirstReady (s : Threads) : Option (Int × Threads) :=
  let t := s.head
  if t = idleThreadTid then none
  else if 0 ≤ t then
    if (s.threadTable t).state = .ready then
      some (t, { s with
        tail := if s.tail = t then -1 else s.tail
        head := (s.threadTable t).next })
    else none
  else some (idleThreadTid, s)

def schedulerAddReady (t : Int) (s : Threads) : Option Threads :=
  (schedulerAddToReadyList t s).map fun s => s.modify t fun e => { e with state := .ready }

/-- What `scheduler_schedule` does with the thread that was running. -/
def schedulerLeave (t : Int) (s : Threads) : Option Threads :=
  if (s.threadTable t).state = .dying then some (s.modify t fun e => { e with state := .free })
  else if (s.threadTable t).sleepsOn ≠ 0 then some (s.modify t fun e => { e with state := .sleeping })
  else (if t ≠ idleThreadTid then schedulerAddToReadyList t s else some s).map fun s =>
    s.modify t fun e => { e with state := .ready }

def schedulerSchedule (cpu : Cpu) (s : Threads) : Option Threads := do
  let s ← schedulerLeave (s.currentThread cpu) s
  let (t, s) ← schedulerRemoveFirstReady s
  some { s.modify t fun e => { e with state := .running } with
    cpus := Function.update s.cpus cpu (.storing t) }

def storeCurrentThread (cpu : Cpu) (t : Int) (s : Threads) : Threads :=
  { s with
    currentThread := Function.update s.currentThread cpu t
    cpus := Function.update s.cpus cpu .working }

/-! ### Threads -/

/-- The rows in the order in which `thread_create` looks at them. -/
def searchOrder (nextTid : Int) : List Int :=
  (List.range 32).map fun i => ((i : Int) + nextTid) % configMaxThreads

def threadCreate (s : Threads) : Threads :=
  match (searchOrder s.nextTid).find? fun t =>
      t ≠ idleThreadTid ∧ (s.threadTable t).state = .free with
  | none => s
  | some tid =>
    { s.modify tid fun e => { e with state := .nonready } with
      nextTid := (tid + 1) % configMaxThreads
      fresh := Function.update s.fresh tid (some .allocated) }

def threadInit (tid : Int) (s : Threads) : Threads :=
  { s.modify tid fun e => { e with sleepsOn := 0, next := -1 } with
    fresh := Function.update s.fresh tid (some .created) }

def threadRun (tid : Int) (s : Threads) : Option Threads :=
  (schedulerAddReady tid s).map fun s => { s with fresh := Function.update s.fresh tid none }

def threadFinish (cpu : Cpu) (s : Threads) : Threads :=
  { s.modify (s.currentThread cpu) fun e => { e with state := .dying } with
    cpus := Function.update s.cpus cpu .switching }

/-! ### The sleep queue -/

def sleepqHash (resource : UInt32) : UInt32 := resource % 127

def walkLimit : Nat := 33

/-- `_interrupt_disable` on the status register. -/
def interruptDisable (status : UInt32) : UInt32 := status &&& 0xffff00fe

def lastWaiter (s : Threads) : Nat → Int → Option Int
  | 0, _ => none
  | fuel + 1, prev =>
    if 0 < (s.threadTable prev).next then lastWaiter s fuel (s.threadTable prev).next else some prev

def sleepqAdd (cpu : Cpu) (intrState resource : UInt32) (s : Threads) : Option Threads :=
  if intrState &&& 0xff00 = 0 ∨ intrState &&& 0x1 = 0 then
    let hash := sleepqHash resource
    let myTid := s.currentThread cpu
    let s : Threads := { s.modify myTid fun e => { e with next := -1, sleepsOn := resource } with
      cpus := Function.update s.cpus cpu .switching }
    if myTid = idleThreadTid then none
    else if s.hashtable hash ≤ 0 then
      some { s with hashtable := Function.update s.hashtable hash myTid }
    else (lastWaiter s walkLimit (s.hashtable hash)).map fun prev =>
      s.modify prev fun e => { e with next := myTid }
  else none

def findWaiter (resource : UInt32) (s : Threads) : Nat → Int → Int → Option (Int × Int)
  | 0, _, _ => none
  | fuel + 1, prev, first =>
    if 0 < first ∧ (s.threadTable first).sleepsOn ≠ resource then
      findWaiter resource s fuel first (s.threadTable first).next
    else some (prev, first)

def unlinkWaiter (hash : UInt32) (prev first : Int) (s : Threads) : Threads :=
  if prev ≤ 0 then { s with hashtable := Function.update s.hashtable hash (s.threadTable first).next }
  else s.modify prev fun e => { e with next := (s.threadTable first).next }

/-- Search and removal; the lock is released when there is nothing to wake. -/
def takeWaiter (cpu : Cpu) (resource : UInt32) (all : Bool) (prev first : Int) (s : Threads) :
    Option Threads :=
  (findWaiter resource s walkLimit prev first).map fun (prev, first) =>
    if 0 < first then
      { unlinkWaiter (sleepqHash resource) prev first s with
        waker := some ⟨cpu, resource, all, prev, (s.threadTable first).next, first⟩ }
    else { s with waker := none }

/-- `sleepq_wake`, and `sleepq_wake_all` if `all` is set, up to their inner lock. -/
def sleepqWake (cpu : Cpu) (resource : UInt32) (all : Bool) (s : Threads) : Option Threads :=
  takeWaiter cpu resource all (-1) (s.hashtable (sleepqHash resource)) s

/-- The section on `thread_table_slock`. -/
def releaseWaiter (wake : Int) (s : Threads) : Option Threads :=
  let s := s.modify wake fun e => { e with sleepsOn := 0, next := -1 }
  if (s.threadTable wake).state = .sleeping then
    schedulerAddToReadyList wake (s.modify wake fun e => { e with state := .ready })
  else some s

def finishWake (w : Waker) (s : Threads) : Option Threads := do
  let s ← releaseWaiter w.wake s
  if w.all then takeWaiter w.cpu w.resource true w.prev w.first s else some { s with waker := none }

/-! ### Runs -/

inductive Action where
  | create
  | init (tid : Int)
  | run (tid : Int)
  | add (cpu : Cpu) (status resource : UInt32)
  | wake (cpu : Cpu) (resource : UInt32) (all : Bool)
  | wakeInner (cpu : Cpu)
  | schedule (cpu : Cpu)
  | store (cpu : Cpu)
  | finish (cpu : Cpu)

/-- A thread acts only while a CPU works for it, the idle thread does nothing, and a resource
is an address. -/
def Enabled (s : Threads) : Action → Prop
  | .create => True
  | .init tid => s.fresh tid = some .allocated
  | .run tid => s.fresh tid = some .created
  | .add cpu _ resource => s.cpus cpu = .working ∧ s.currentThread cpu ≠ idleThreadTid ∧
    resource ≠ 0 ∧ s.waker = none
  | .wake _ _ _ => s.waker = none
  | .wakeInner cpu => s.waker.map Waker.cpu = some cpu
  | .schedule cpu => s.cpus cpu = .working ∨ s.cpus cpu = .switching
  | .store cpu => s.cpus cpu ≠ .working ∧ s.cpus cpu ≠ .switching
  | .finish cpu => s.cpus cpu = .working ∧ s.currentThread cpu ≠ idleThreadTid

instance (s : Threads) (a : Action) : Decidable (Enabled s a) := by
  cases a <;> unfold Enabled <;> infer_instance

/-- `none` only on a failed assertion or a walk without end. The callers of `sleepq_add` have
disabled interrupts. -/
def perform (s : Threads) : Action → Option Threads
  | .create => some (threadCreate s)
  | .init tid => some (threadInit tid s)
  | .run tid => threadRun tid s
  | .add cpu status resource => sleepqAdd cpu (interruptDisable status) resource s
  | .wake cpu resource all => sleepqWake cpu resource all s
  | .wakeInner _ => s.waker.elim (some s) fun w => finishWake w s
  | .schedule cpu => schedulerSchedule cpu s
  | .store cpu => match s.cpus cpu with
    | .storing t => some (storeCurrentThread cpu t s)
    | _ => some s
  | .finish cpu => some (threadFinish cpu s)

def step (a : Action) (s : Threads) : Option Threads := if Enabled s a then perform s a else none

/-- After `thread_table_init`, `sleepq_init` and `scheduler_init`. -/
def initial : Threads where
  threadTable := fun t => ⟨if t = idleThreadTid then .ready else .free, 0, -1⟩
  currentThread := fun _ => 0
  head := -1
  tail := -1
  hashtable := fun _ => -1
  nextTid := 0
  cpus := fun _ => .working
  waker := none
  fresh := fun _ => none

end Buenos.Kernel
