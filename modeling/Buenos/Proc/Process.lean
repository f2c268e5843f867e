import Buenos.Foundation.Run
import Mathlib.Logic.Function.Basic
import Mathlib.Algebra.Order.Ring.Int

/-! The process table of `proc/process.c`. A critical section on `process_table_slock` is
one step; the initialisation in `process_spawn` and the parent check in `process_join` are
made without the lock and are steps of their own. Every process has one thread. -/
namespace Buenos.Proc

open Buenos.Foundation

def processMaxProcesses : Int := 8
def processNameMax : Nat := 128

inductive ProcessState where
  | free
  | running
  | zombie
  deriving DecidableEq

/-- `process_table_t` -/
structure Entry where
  executable : List UInt8
  state : ProcessState
  retval : Int
  parent : Int
  firstZombie : Int
  prevZombie : Int
  nextZombie : Int
  children : Int
  deriving DecidableEq

/-- What the thread of a process is doing. `absent` is a thread not yet created. -/
inductive Phase where
  | absent
  | idle
  | allocated (pid : Int) (executable : List UInt8)
  | counting (pid : Int)
  | starting (pid : Int)
  | entering (pid : Int)
  | sleeping (pid : Int)
  | finished
  deriving DecidableEq

/-- A return of `process_join` past its check; `child` was in the entry. -/
structure Joined where
  caller : Nat
  pid : Int
  child : Nat
  result : Int
  deriving DecidableEq

/-- The table, indexed as C indexes it, and the sleep queue of each entry. Processes are
numbered in the order of their allocation, from 1; 0 is the startup thread of
`init/main.c`, whose process id is -1. Not read by the code: `occupant` is the process last
allocated in an entry, `slot` and `spawner` the entry and the creator of a process, `built`
whether `process_spawn` has initialised its entry, `passed` the argument of its
`process_finish`. -/
structure Processes where
  table : Int → Entry
  waiting : Int → List Nat
  threads : Nat → Phase
  next : Nat
  occupant : Int → Nat
  slot : Nat → Int
  spawner : Nat → Nat
  built : Nat → Bool
  passed : Nat → Option Int
  joins : List Joined

def Processes.modify (s : Processes) (pid : Int) (f : Entry → Entry) : Processes :=
  { s with table := Function.update s.table pid (f (s.table pid)) }

def Processes.goto (s : Processes) (who : Nat) (phase : Phase) : Processes :=
  { s with threads := Function.update s.threads who phase }

def Entry.reset (e : Entry) : Entry := { e with state := .free, executable := [], retval := 0 }

def processReset (pid : Int) (s : Processes) : Processes := s.modify pid Entry.reset

/-- The loop of `alloc_process_id` runs to `PROCESS_MAX_PROCESSES` inclusively. -/
def scanned : List Int := [0, 1, 2, 3, 4, 5, 6, 7, 8]

def freeEntry (s : Processes) : Option Int := scanned.find? fun i => (s.table i).state = .free

def allocProcessId (newstate : ProcessState) (s : Processes) : Option (Int × Processes) :=
  (freeEntry s).map fun i =>
    (i, (processReset i s).modify i fun e => { e with state := newstate })

/-! ### Spawning -/

def processSpawn (who : Nat) (executable : List UInt8) (s : Processes) : Processes :=
  match allocProcessId .running s with
  | none => s
  | some (pid, s) =>
    { s.goto who (.allocated pid executable) with
      next := s.next + 1
      occupant := Function.update s.occupant pid s.next
      slot := Function.update s.slot s.next pid
      spawner := Function.update s.spawner s.next who }

def Entry.spawned (e : Entry) (executable : List UInt8) (myPid : Int) : Entry :=
  { e with
    executable := executable.take (processNameMax - 1)
    retval := 0
    firstZombie := -1
    prevZombie := -1
    nextZombie := -1
    parent := myPid
    children := 0 }

def spawnInit (who : Nat) (pid : Int) (executable : List UInt8) (s : Processes) : Processes :=
  { (s.modify pid fun e => e.spawned executable (s.slot who)).goto who (.counting pid) with
    built := Function.update s.built (s.occupant pid) true }

def spawnCount (who : Nat) (pid : Int) (s : Processes) : Processes :=
  let s := s.goto who (.starting pid)
  if 0 ≤ s.slot who then s.modify (s.slot who) fun e => { e with children := e.children + 1 } else s

/-- `thread_create` and `thread_run`; `process_spawn` returns. -/
def spawnStart (who : Nat) (pid : Int) (s : Processes) : Processes :=
  (s.goto who .idle).goto (s.occupant pid) .idle

/-! ### Joining -/

/-- The startup thread halts the kernel after its join. -/
def afterJoin (who : Nat) : Phase := if who = 0 then .finished else .idle

/-- The check made before the lock is taken. -/
def joinCheck (s : Processes) (who : Nat) (pid : Int) : Bool :=
  decide (0 ≤ pid ∧ pid < processMaxProcesses ∧ (s.table pid).parent = s.slot who)

def processJoin (who : Nat) (pid : Int) (s : Processes) : Processes :=
  if joinCheck s who pid then s.goto who (.entering pid) else s.goto who (afterJoin who)

/-- Remove the zombie child from the list of zombie children. -/
def unlinkZombie (myPid pid : Int) (s : Processes) : Processes :=
  let next := (s.table pid).nextZombie
  if (s.table myPid).firstZombie = pid then
    let s := s.modify myPid fun e => { e with firstZombie := next }
    if 0 ≤ next then s.modify next fun e => { e with prevZombie := -1 } else s
  else
    let prev := (s.table pid).prevZombie
    let s := s.modify prev fun e => { e with nextZombie := next }
    if 0 ≤ next then s.modify next fun e => { e with prevZombie := prev } else s

def joinZombie (who : Nat) (pid : Int) (s : Processes) : Processes :=
  let retval := (s.table pid).retval
  let t := s.modify pid fun e => { e with retval := -1, parent := -1 }
  let t := if (t.table pid).children = 0 then
      let t := t.modify (s.slot who) fun e => { e with children := e.children - 1 }
      processReset pid (unlinkZombie (s.slot who) pid t)
    else t
  { t.goto who (afterJoin who) with joins := ⟨who, pid, s.occupant pid, retval⟩ :: s.joins }

/-- One turn of the loop of `process_join`: `sleepq_add` and the release of the lock, or
the rest of the function. -/
def joinLocked (who : Nat) (pid : Int) (s : Processes) : Processes :=
  if (s.table pid).state = .zombie then joinZombie who pid s
  else { s.goto who (.sleeping pid) with
    waiting := Function.update s.waiting pid (s.waiting pid ++ [who]) }

/-! ### Finishing -/

def sleepqWake (pid : Int) (s : Processes) : Processes :=
  match s.waiting pid with
  | [] => s
  | who :: rest => { s.goto who (.entering pid) with waiting := Function.update s.waiting pid rest }

def reapOne (pid zombie : Int) (s : Processes) : Processes :=
  let s := s.modify zombie fun e => { e with state := .free, retval := -1, parent := -1 }
  let next := (s.table zombie).nextZombie
  s.modify pid fun e => { e with firstZombie := next, children := e.children - 1 }

/-- The loop that removes the zombie children; `none` if it runs past every entry, which
it does only on a cyclic list. -/
def reapZombies : Nat → Int → Processes → Option Processes
  | 0, _, _ => none
  | fuel + 1, pid, s =>
    let zombie := (s.table pid).firstZombie
    if 0 ≤ zombie then reapZombies fuel pid (reapOne pid zombie s) else some s

def linkZombie (parent pid : Int) (s : Processes) : Processes :=
  let s := s.modify pid fun e => { e with state := .zombie }
  let zombie := (s.table parent).firstZombie
  let s := s.modify pid fun e => { e with nextZombie := zombie }
  let s := if 0 ≤ zombie then s.modify zombie fun e => { e with prevZombie := pid } else s
  s.modify parent fun e => { e with firstZombie := pid }

/-- The end of `finish_given_process`; `again` is the recursive call for the parent. -/
def giveUp (again : Int → Processes → Option Processes) (parent pid : Int) (s : Processes) :
    Option Processes :=
  if 0 ≤ parent ∧ (s.table parent).state = .zombie then
    let s := s.modify parent fun e => { e with children := e.children - 1 }
    let freed := if (s.table parent).children = 0 ∧ (s.table parent).retval < 0 then
      again parent s else some s
    freed.map fun s => sleepqWake pid (s.modify pid fun e => { e with state := .free })
  else if 0 ≤ parent then some (sleepqWake pid (linkZombie parent pid s))
  else some (sleepqWake pid (s.modify pid fun e => { e with state := .zombie }))

/-- Each recursive call clears the negative `retval` it was made for, so the number of
entries bounds the depth. -/
def finishGivenProcess : Nat → Int → Int → Processes → Option Processes
  | 0, _, _, _ => none
  | fuel + 1, pid, retval, s =>
    let parent := (s.table pid).parent
    (reapZombies (scanned.length + 1) pid (s.modify pid fun e => { e with retval := retval })).bind
      (giveUp (fun parent s => finishGivenProcess fuel parent 0 s) parent pid)

def processFinish (who : Nat) (retval : Int) (s : Processes) : Option Processes :=
  let s := { s.goto who .finished with passed := Function.update s.passed who (some retval) }
  finishGivenProcess (scanned.length + 1) (s.slot who) (max retval 0) s

/-! ### Runs -/

inductive Action where
  | spawn (who : Nat) (executable : List UInt8)
  | spawnInit (who : Nat)
  | spawnCount (who : Nat)
  | spawnStart (who : Nat)
  | join (who : Nat) (pid : Int)
  | joinLocked (who : Nat)
  | finish (who : Nat) (retval : Int)

/-- The startup thread spawns the initial program and joins it, each once. -/
def startupMay (s : Processes) (who : Nat) (pid : Option Int) : Bool :=
  who ≠ 0 || match pid with
    | none => s.next = 1
    | some pid => s.next ≠ 1 && pid = s.slot 1

def step : Action → Processes → Option Processes
  | .spawn who executable, s =>
    if s.threads who = .idle ∧ startupMay s who none then some (processSpawn who executable s) else none
  | .spawnInit who, s => match s.threads who with
    | .allocated pid executable => some (spawnInit who pid executable s)
    | _ => none
  | .spawnCount who, s => match s.threads who with
    | .counting pid => some (spawnCount who pid s)
    | _ => none
  | .spawnStart who, s => match s.threads who with
    | .starting pid => some (spawnStart who pid s)
    | _ => none
  | .join who pid, s =>
    if s.threads who = .idle ∧ startupMay s who (some pid) then some (processJoin who pid s) else none
  | .joinLocked who, s => match s.threads who with
    | .entering pid => some (joinLocked who pid s)
    | _ => none
  | .finish who retval, s =>
    if s.threads who = .idle ∧ who ≠ 0 then processFinish who retval s else none

/-- `process_init` over zeroed static storage; `memory` is what lies around the table. -/
def initial (memory : Int → Entry) : Processes where
  table := fun i =>
    if 0 ≤ i ∧ i < processMaxProcesses then ⟨[], .free, 0, 0, 0, 0, 0, 0⟩
    else if i = processMaxProcesses then (memory i).reset
    else memory i
  waiting := fun _ => []
  threads := fun who => if who = 0 then .idle else .absent
  next := 1
  occupant := fun _ => 0
  slot := fun _ => -1
  spawner := fun _ => 0
  built := fun _ => false
  passed := fun _ => none
  joins := []

end Buenos.Proc
