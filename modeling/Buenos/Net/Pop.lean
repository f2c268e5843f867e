import Buenos.Foundation.Run
import Mathlib.Data.Fintype.Basic
import Mathlib.Data.List.FinRange
import Mathlib.Logic.Function.Basic
import Mathlib.Algebra.Order.Ring.Int

/-! The POP receive path: the packet queue of `net/pop.c` and the socket table of
`net/socket.c`. Steps are the stretches of code between semaphore operations, so the
locked scan of the service thread and its unlocked actions are separate steps. -/
namespace Buenos.Net.Pop

abbrev configPopQueueSize : Nat := 32
abbrev configMaxOpenSockets : Nat := 64
def configPopQueueMinAge : UInt32 := 250
def protocolPop : UInt8 := 1
def protocolSop : UInt8 := 2

abbrev SlotIndex := Fin configPopQueueSize
abbrev SocketIndex := Fin configMaxOpenSockets

/-- One received packet. `id` tells apart two packets whose page has the same address,
since a freed page may be handed out again; the code never sees it. `body` is the
memory that follows the eight header bytes. -/
structure Frame where
  id : Nat
  sourcePort : UInt16
  destPort : UInt16
  size : UInt32
  body : Nat → UInt8

/-- `pop_queue_t`; the socket value -1 is `none`. -/
structure Slot where
  frame : Option Frame
  socket : Option SocketIndex
  timestamp : UInt32
  sender : UInt32
  busy : Bool

/-- `socket_descriptor_t`. The result pointers are named by the receiving call. -/
structure Socket where
  port : UInt16
  protocol : UInt8
  receiveComplete : Option Nat
  rbuf : Option Nat
  bufsize : UInt32
  sender : Option Nat
  copied : Option Nat
  sport : Option Nat

/-- The result variables of the callers of `socket_recvfrom`. -/
structure Cells where
  buffer : Nat → List UInt8
  sender : Nat → UInt32
  length : Nat → Option Nat
  sport : Nat → UInt16

/-- Where the service thread stands between two of its steps, with its locals. -/
inductive Service where
  | scan
  | discard (slot : SlotIndex) (f : Frame)
  | transfer (slot : SlotIndex) (f : Frame)
  | finish (slot : SlotIndex) (f : Frame)
  | sleep

inductive CallPhase where
  | signal
  | wait
  deriving DecidableEq

/-- A `socket_recvfrom` that has not returned. -/
structure Call where
  id : Nat
  socket : SocketIndex
  phase : CallPhase
  deriving DecidableEq

/-- `accepted` and `freed` record the packets taken by `pop_push_frame` and those
handed to `network_free_frame`; `signals` counts accepted pushes before their
`semaphore_V`. -/
structure State where
  queue : SlotIndex → Slot
  sockets : SocketIndex → Socket
  service : Service
  serviceSem : Nat
  signals : Nat
  calls : List Call
  semaphores : Nat → Nat
  cells : Cells
  accepted : List Nat
  freed : List Nat

def networkFreeFrame (f : Frame) (s : State) : State := { s with freed := f.id :: s.freed }

/-- Whether slot `i` becomes the oldest one, given the oldest slot seen before it. -/
def older (queue : SlotIndex → Slot) (i : SlotIndex) : Option SlotIndex → Bool
  | none => true
  | some oldest => (queue i).timestamp < (queue oldest).timestamp

/-- One round of the search in `pop_push_frame` for a free and for the oldest slot. -/
def considerSlot (queue : SlotIndex → Slot) (found : Option SlotIndex × Option SlotIndex)
    (i : SlotIndex) : Option SlotIndex × Option SlotIndex :=
  (if found.1.isNone && (queue i).frame.isNone then some i else found.1,
    if !(queue i).busy && older queue i found.2 then some i else found.2)

def searchSlots (queue : SlotIndex → Slot) : Option SlotIndex × Option SlotIndex :=
  (List.finRange configPopQueueSize).foldl (considerSlot queue) (none, none)

/-- The slot `pop_push_frame` stores into, or `none` when the packet is dropped. -/
def pushSlot (queue : SlotIndex → Slot) (now : UInt32) : Option SlotIndex :=
  match searchSlots queue with
  | (some free, _) => some free
  | (none, none) => none
  | (none, some oldest) =>
    if now - (queue oldest).timestamp < configPopQueueMinAge then none else some oldest

/-- Free the packet in the slot, if there is one, and set the entry values. -/
def storeFrame (free : SlotIndex) (fromaddr : UInt32) (frame : Frame) (later : UInt32)
    (s : State) : State :=
  let s := match (s.queue free).frame with
    | none => s
    | some old => networkFreeFrame old s
  { s with
    queue := Function.update s.queue free ⟨some frame, none, later, fromaddr, false⟩
    signals := s.signals + 1
    accepted := frame.id :: s.accepted }

/-- The locked part of `pop_push_frame`. `now` and `later` are the two clock readings. -/
def popPushFrame (fromaddr : UInt32) (frame : Frame) (now later : UInt32) (s : State) :
    Nat × State :=
  match pushSlot s.queue now with
  | none => (0, s)
  | some free => (1, storeFrame free fromaddr frame later s)

/-- The first POP socket bound to `port`. -/
def recipient (sockets : SocketIndex → Socket) (port : UInt16) : Option SocketIndex :=
  (List.finRange configMaxOpenSockets).find? fun j =>
    (sockets j).protocol == protocolPop && (sockets j).port == port

/-- The recipient cached in the slot, looked up when there is none yet. -/
def slotSocket (sockets : SocketIndex → Socket) (slot : Slot) (f : Frame) : Option SocketIndex :=
  slot.socket.or (recipient sockets f.destPort)

/-- The locked scan of `pop_service_thread`. It stops at the first slot to act upon. -/
def scanSlots (sockets : SocketIndex → Socket) :
    List SlotIndex → (SlotIndex → Slot) → (SlotIndex → Slot) × Service
  | [], queue => (queue, .sleep)
  | i :: rest, queue =>
    match (queue i).frame with
    | none => scanSlots sockets rest queue
    | some f =>
      match slotSocket sockets (queue i) f with
      | none => (queue, .discard i f)
      | some j =>
        let queue := Function.update queue i { queue i with socket := some j }
        if (sockets j).protocol ≠ protocolPop then (queue, .discard i f)
        else if (sockets j).rbuf.isSome then
          (Function.update queue i { queue i with busy := true }, .transfer i f)
        else scanSlots sockets rest queue

/-- Store through a result pointer; a store through `NULL` has no modelled effect. -/
def storeAt (pointer : Option Nat) (value : α) (cells : Nat → α) : Nat → α :=
  match pointer with
  | none => cells
  | some p => Function.update cells p value

/-- The unlocked transfer, up to and including its `semaphore_V`. -/
def transferFrame (slot : SlotIndex) (f : Frame) (s : State) : State :=
  match (s.queue slot).socket with
  | none => s
  | some j =>
    let sock := s.sockets j
    let bytes := if f.size > sock.bufsize then sock.bufsize.toNat else f.size.toNat
    let cells : Cells := {
      buffer := storeAt sock.rbuf ((List.range bytes).map f.body) s.cells.buffer
      sender := storeAt sock.sender (s.queue slot).sender s.cells.sender
      length := storeAt sock.copied (some bytes) s.cells.length
      sport := storeAt sock.sport f.sourcePort s.cells.sport }
    let cleared := { sock with
      rbuf := none, bufsize := 0, sender := none, copied := none, sport := none }
    let s := networkFreeFrame f { s with
      cells := cells, sockets := Function.update s.sockets j cleared }
    match sock.receiveComplete with
    | none => s
    | some sem =>
      { s with semaphores := Function.update s.semaphores sem (s.semaphores sem + 1) }

def clearSlot (slot : SlotIndex) (s : State) : State :=
  { s with queue := Function.update s.queue slot { s.queue slot with frame := none } }

def portInUse (sockets : SocketIndex → Socket) (port : UInt16) : Bool :=
  (List.finRange configMaxOpenSockets).any fun i =>
    (sockets i).protocol != 0 && (sockets i).port == port

/-- The `while (notfree)` loop of `socket_open`, which counts up from the port given. -/
def nextFreePort (sockets : SocketIndex → Socket) : Nat → UInt16 → Option UInt16
  | 0, _ => none
  | fuel + 1, port =>
    let port := port + 1
    if portInUse sockets port then nextFreePort sockets fuel port else some port

/-- The port to bind: the outer `none` is a search that does not end, the inner one a
given port that is in use. The search meets all 65536 values at most. -/
def choosePort (sockets : SocketIndex → Socket) (port : UInt16) : Option (Option UInt16) :=
  if port = 0 then (nextFreePort sockets 65536 0).map some
  else some (if portInUse sockets port then none else some port)

/-- The entry is set up once `semaphore_create` has returned `sem`. -/
def bindSocket (i : SocketIndex) (protocol : UInt8) (sem : Option Nat) (s : State) :
    Option UInt16 → Option SocketIndex × State
  | none => (none, s)
  | some port =>
    match sem with
    | none =>
      let sock := { s.sockets i with receiveComplete := none }
      (none, { s with sockets := Function.update s.sockets i sock })
    | some sem =>
      let sock := { s.sockets i with
        receiveComplete := some sem, port := port, protocol := protocol
        rbuf := none, bufsize := 0, sender := none, copied := none }
      (some i, { s with
        sockets := Function.update s.sockets i sock
        semaphores := Function.update s.semaphores sem 0 })

/-- `socket_open`; `sem` is the result of its `semaphore_create`. -/
def socketOpen (protocol : UInt8) (port : UInt16) (sem : Option Nat) (s : State) :
    Option (Option SocketIndex × State) :=
  if protocol ≠ protocolPop ∧ protocol ≠ protocolSop then some (none, s)
  else match (List.finRange configMaxOpenSockets).find? fun i => (s.sockets i).protocol == 0 with
  | none => some (none, s)
  | some i => (choosePort s.sockets port).map (bindSocket i protocol sem s)

/-- `socket_close`. The `sport` pointer is the one field it leaves as it was. -/
def socketClose (i : SocketIndex) (s : State) : State :=
  if (s.sockets i).receiveComplete.isNone then s
  else
    let sock := { s.sockets i with
      port := 0, protocol := 0, rbuf := none, bufsize := 0, sender := none, copied := none
      receiveComplete := none }
    { s with sockets := Function.update s.sockets i sock }

/-- The locked part of `socket_recvfrom`: `none` is its return value -1. -/
def socketRecvfrom (call : Nat) (i : SocketIndex) (buflength : UInt32) (s : State) :
    Option State :=
  if (s.sockets i).protocol ≠ protocolPop ∨ (s.sockets i).rbuf.isSome then none
  else
    let sock := { s.sockets i with
      rbuf := some call, bufsize := buflength
      sender := some call, copied := some call, sport := some call }
    some { s with
      sockets := Function.update s.sockets i sock
      calls := ⟨call, i, .signal⟩ :: s.calls }

inductive Action where
  | push (fromaddr : UInt32) (frame : Frame) (now later : UInt32)
  | pushSignal
  | serviceScan
  | serviceDiscard
  | serviceTransfer
  | serviceFinish
  | serviceSleep
  | recvfrom (call : Nat) (socket : SocketIndex) (buflength : UInt32)
  | recvSignal (call : Call)
  | recvComplete (call : Call)
  | open (protocol : UInt8) (port : UInt16) (sem : Option Nat)
  | close (socket : SocketIndex)

/-- One step of the producers, of the service thread or of a socket operation. A pushed
packet was not accepted before, and a socket is closed only when no receive on it is
pending. -/
def step : Action → State → Option State
  | .push fromaddr frame now later, s =>
    if frame.id ∈ s.accepted then none else some (popPushFrame fromaddr frame now later s).2
  | .pushSignal, s =>
    if s.signals = 0 then none
    else some { s with signals := s.signals - 1, serviceSem := s.serviceSem + 1 }
  | .serviceScan, s =>
    match s.service with
    | .scan =>
      let scanned := scanSlots s.sockets (List.finRange configPopQueueSize) s.queue
      some { s with queue := scanned.1, service := scanned.2 }
    | _ => none
  | .serviceDiscard, s =>
    match s.service with
    | .discard slot f => some { clearSlot slot (networkFreeFrame f s) with service := .scan }
    | _ => none
  | .serviceTransfer, s =>
    match s.service with
    | .transfer slot f => some { transferFrame slot f s with service := .finish slot f }
    | _ => none
  | .serviceFinish, s =>
    match s.service with
    | .finish slot _ => some { clearSlot slot s with service := .scan }
    | _ => none
  | .serviceSleep, s =>
    match s.service with
    | .sleep =>
      if s.serviceSem = 0 then none
      else some { s with serviceSem := s.serviceSem - 1, service := .scan }
    | _ => none
  | .recvfrom call i buflength, s =>
    if (s.calls.any fun c => c.id == call) || buflength == 0 || buflength.toNat ≥ 2^31 then none
    else some ((socketRecvfrom call i buflength s).getD s)
  | .recvSignal call, s =>
    if call ∈ s.calls ∧ call.phase = .signal then
      some { s with
        calls := ⟨call.id, call.socket, .wait⟩ :: s.calls.erase call
        serviceSem := s.serviceSem + 1 }
    else none
  | .recvComplete call, s =>
    if call ∈ s.calls ∧ call.phase = .wait then
      match (s.sockets call.socket).receiveComplete with
      | none => none
      | some sem =>
        if s.semaphores sem = 0 then none
        else some { s with
          calls := s.calls.erase call
          semaphores := Function.update s.semaphores sem (s.semaphores sem - 1) }
    else none
  | .open protocol port sem, s => (socketOpen protocol port sem s).map Prod.snd
  | .close i, s =>
    if s.calls.any fun c => c.socket == i then none else some (socketClose i s)

def emptySlot : Slot := ⟨none, none, 0, 0, false⟩
def closedSocket : Socket := ⟨0, 0, none, none, 0, none, none, none⟩

/-- The tables after `socket_init` and `pop_init`. -/
def initial : State where
  queue := fun _ => emptySlot
  sockets := fun _ => closedSocket
  service := .scan
  serviceSem := 0
  signals := 0
  calls := []
  semaphores := fun _ => 0
  cells := ⟨fun _ => [], fun _ => 0, fun _ => none, fun _ => 0⟩
  accepted := []
  freed := []

end Buenos.Net.Pop
