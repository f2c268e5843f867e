import Buenos.Foundation.Run
import Mathlib.Logic.Function.Basic

/-! The disk driver of `drivers/disk.c` with the scheduler of `drivers/disksched.c`. A step is
a section under the driver's spinlock, or what a caller or the device does outside it. -/
namespace Buenos.Drivers.Disk

open Buenos.Foundation

inductive Operation where
  | read
  | write
  deriving DecidableEq

/-- A semaphore is the one that `disk_submit_request` has created for a request, or one that
the caller brought. -/
inductive Sem where
  | own (request : Nat)
  | caller (id : Nat)
  deriving DecidableEq

/-- `gbd_request_t`; `next` is an address, 0 for `NULL`. -/
structure Request where
  block : Nat
  buf : Nat
  sem : Option Sem
  operation : Operation
  next : Nat
  returnValue : Int

/-- What the driver tells the device to do. -/
structure Command where
  operation : Operation
  block : Nat
  buf : Nat

def Request.command (r : Request) : Command := ⟨r.operation,r.block,r.buf⟩

/-- Where the call for a request is. A request is free again when the call has returned and
its semaphore was raised. -/
inductive Phase where
  | free
  /-- The fields are set, and the spinlock is not taken yet. -/
  | submitting (sync : Bool)
  /-- The request was put into the queue. A synchronous call is at `semaphore_P`. -/
  | waiting (sync : Bool)
  /-- The semaphore of a synchronous call was raised. -/
  | raised
  deriving DecidableEq

/-- A request that enters the queue, and what it asks for. -/
structure Entry where
  request : Nat
  command : Command

/-- `requests` is the memory of the callers. `busy` and `irq` are the device's status. The
lists record in order which requests entered the queue, which were issued to the device,
which commands the device completed, and which semaphores were raised, with the return value
of the request at that moment; `results` is what synchronous calls returned after their wait. -/
structure State where
  requests : Nat → Request
  requestQueue : Nat
  requestServed : Nat
  busy : Bool
  irq : Bool
  sems : Sem → Nat
  phase : Nat → Phase
  failed : Bool
  entered : List Entry
  issued : List Entry
  completed : List Command
  signalled : List (Nat × Int)
  results : List (Nat × Int)

def initial (requests : Nat → Request) (sems : Sem → Nat) : State :=
  ⟨requests,0,0,false,false,sems,fun _ => .free,false,[],[],[],[],[]⟩

def State.fail (s : State) : State := { s with failed := true }

def State.modify (s : State) (r : Nat) (f : Request → Request) : State :=
  { s with requests := Function.update s.requests r (f (s.requests r)) }

/-- The loop of `disksched_schedule`, `none` if it does not end within the given turns. -/
def lastRequest (next : Nat → Nat) : Nat → Nat → Option Nat
  | 0, _ => none
  | turns + 1, q => if next q = 0 then some q else lastRequest next turns (next q)

def State.next (s : State) (r : Nat) : Nat := (s.requests r).next

/-- The queue is no longer than the list of the requests that have entered it. -/
def diskschedSchedule (r : Nat) (s : State) : State :=
  if s.requestQueue ≠ 0 then
    match lastRequest s.next s.entered.length s.requestQueue with
    | some q => s.modify q fun request => { request with next := r }
    | none => s.fail
  else { s with requestQueue := r }

/-- `error` says whether the device reports an error for the command, which is a panic. -/
def diskNextRequest (error : Bool) (s : State) : Option State :=
  if s.busy = true ∨ s.requestServed ≠ 0 then some s.fail
  else if s.requestQueue = 0 then some s
  else if error then none
  else
    let req := s.requestQueue
    some { s.modify req fun request => { request with next := 0 } with
      requestQueue := s.next req
      requestServed := req
      busy := true
      issued := s.issued ++ [⟨req,(s.requests req).command⟩] }

/-- `semaphore_V` on the semaphore of a request. -/
def semaphoreV (r : Nat) (s : State) : State :=
  match (s.requests r).sem with
  | some sem => { s with
      sems := Function.update s.sems sem (s.sems sem + 1)
      phase := Function.update s.phase r (if s.phase r = .waiting true then .raised else .free)
      signalled := s.signalled ++ [(r, (s.requests r).returnValue)] }
  | none => s.fail

def diskInterruptHandle (error : Bool) (s : State) : Option State :=
  if s.irq = false then some s
  else if s.requestServed = 0 then some { s with irq := false, failed := true }
  else
    let r := s.requestServed
    let s := semaphoreV r (State.modify { s with irq := false } r fun request => { request with returnValue := 0 })
    diskNextRequest error { s with requestServed := 0 }

/-- `disk_read_block` or `disk_write_block` up to the spinlock. Without a semaphore the call
is synchronous and creates one; it returns 0 at once when none is left. -/
def submit (r : Nat) (operation : Operation) (block buf : Nat) (sem : Option Nat) (created : Bool) (s : State) : State :=
  match sem, created with
  | some id, _ => { s with
      requests := Function.update s.requests r ⟨block,buf,some (.caller id),operation,0,-1⟩
      phase := Function.update s.phase r (.submitting false) }
  | none, true => { s with
      requests := Function.update s.requests r ⟨block,buf,some (.own r),operation,0,-1⟩
      sems := Function.update s.sems (.own r) 0
      phase := Function.update s.phase r (.submitting true) }
  | none, false => { s with requests := Function.update s.requests r ⟨block,buf,none,operation,0,-1⟩ }

/-- The section of `disk_submit_request` under the spinlock. -/
def enqueue (r : Nat) (sync error : Bool) (s : State) : Option State :=
  let s := { diskschedSchedule r s with
    phase := Function.update s.phase r (.waiting sync)
    entered := s.entered ++ [⟨r,(s.requests r).command⟩] }
  if s.requestServed = 0 then diskNextRequest error s else some s

/-- A synchronous call gets past `semaphore_P` and returns. -/
def finish (r : Nat) (s : State) : State :=
  { s.modify r fun request => { request with sem := none } with
    sems := Function.update s.sems (.own r) (s.sems (.own r) - 1)
    phase := Function.update s.phase r .free
    results := s.results ++ [(r, if (s.requests r).returnValue = 0 then 1 else 0)] }

inductive Event where
  | submit (r : Nat) (operation : Operation) (block buf : Nat) (sem : Option Nat) (created : Bool)
  | enqueue (r : Nat) (error : Bool)
  /-- The device is done with its command and raises the interrupt. -/
  | complete
  | interrupt (error : Bool)
  | finish (r : Nat)

/-- A request is used again only when it is free. The device has the command of the request
that was issued last. -/
def step (e : Event) (s : State) : Option State :=
  match e with
  | .submit r operation block buf sem created =>
    if r ≠ 0 ∧ s.phase r = .free then some (submit r operation block buf sem created s) else none
  | .enqueue r error =>
    match s.phase r with
    | .submitting sync => enqueue r sync error s
    | _ => none
  | .complete =>
    match s.busy, s.issued.getLast? with
    | true, some entry => some { s with busy := false, irq := true, completed := s.completed ++ [entry.command] }
    | _, _ => none
  | .interrupt error => diskInterruptHandle error s
  | .finish r =>
    if (s.phase r = .waiting true ∨ s.phase r = .raised) ∧ 0 < s.sems (.own r) then some (finish r s) else none

end Buenos.Drivers.Disk
