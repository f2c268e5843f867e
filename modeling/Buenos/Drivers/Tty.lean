import Buenos.Foundation.Ring
import Buenos.Foundation.Run
import Mathlib.Logic.Function.Basic

/-! The interrupt driven TTY of `drivers/tty.c`: its two ring buffers, the interrupt handler,
readers and writers. A step is what happens while the driver's spinlock is held, or one turn
of the loop of `tty_write` where the lock stays taken. -/
namespace Buenos.Drivers.Tty

open Buenos.Foundation

abbrev Char8 := UInt8

def ttyBufSize : Nat := 2048

/-- `tty_real_device_t` without its spinlock. -/
structure RealDevice where
  readBuf : Nat → Char8
  readHead : Nat
  readCount : Nat
  writeBuf : Nat → Char8
  writeHead : Nat
  writeCount : Nat

/-- `tty_init` leaves the buffers as they are. -/
def ttyInit (readBuf writeBuf : Nat → Char8) : RealDevice := ⟨readBuf,0,0,writeBuf,0,0⟩

/-! ### Input -/

/-- The loop of the handler takes one character. -/
def receive (data : Char8) (rd : RealDevice) : RealDevice :=
  if ttyBufSize < rd.readCount then rd
  else { rd with
    readBuf := Function.update rd.readBuf ((rd.readHead + rd.readCount) % ttyBufSize) data
    readCount := rd.readCount + 1 }

/-- The loop of `tty_read`, with `left` more characters asked for. -/
def takeChars : Nat → RealDevice → List Char8 × RealDevice
  | 0, rd => ([], rd)
  | left + 1, rd =>
    if 0 < rd.readCount then
      let (rest, after) := takeChars left { rd with
        readHead := (rd.readHead + 1) % ttyBufSize
        readCount := rd.readCount - 1 }
      (rd.readBuf rd.readHead :: rest, after)
    else ([], rd)

/-! ### Output -/

/-- The character at the head goes to the data port. -/
def sendChar (rd : RealDevice) : Char8 × RealDevice :=
  (rd.writeBuf rd.writeHead, { rd with
    writeHead := (rd.writeHead + 1) % ttyBufSize
    writeCount := rd.writeCount - 1 })

/-- The handler's loop; the list says whether the device is busy at each look at its status. -/
def sendChars : List Bool → RealDevice → List Char8 × RealDevice
  | [], rd => ([], rd)
  | busy :: later, rd =>
    if !busy ∧ 0 < rd.writeCount then
      let (rest, after) := sendChars later (sendChar rd).2
      ((sendChar rd).1 :: rest, after)
    else ([], rd)

/-- Fill the internal buffer from the data that is left; `i` characters of it were taken. -/
def fillBuffer : List Char8 → RealDevice → RealDevice × Nat
  | [], rd => (rd, 0)
  | c :: rest, rd =>
    if rd.writeCount < ttyBufSize then
      let (after, i) := fillBuffer rest { rd with
        writeBuf := Function.update rd.writeBuf ((rd.writeHead + rd.writeCount) % ttyBufSize) c
        writeCount := rd.writeCount + 1 }
      (after, i + 1)
    else (rd, 0)

/-! ### The machine -/

/-- Where a call of `tty_write` is. -/
inductive Place where
  /-- It waits for the spinlock, at the start or after `thread_switch`. -/
  | locking
  /-- It has the spinlock and is at its loop. -/
  | looping
  /-- It sleeps on the write buffer. -/
  | asleep
  | returned (result : Int)

structure Writer where
  data : List Char8
  i : Nat
  place : Place

/-- A character that the handler has taken from the device, the number of characters that
were buffered then, and whether it was stored. -/
structure Arrival where
  char : Char8
  buffered : Nat
  stored : Bool

/-- `holder` has the spinlock across steps. `pending` are characters that the device has for
the handler and `sent` is what was written to its data port. `arrivals`, `returned` and
`chunks` record what happened: the characters taken from the device, those that `tty_read`
calls returned, and what each call put into the write buffer at a time. -/
structure State where
  rd : RealDevice
  holder : Option Nat
  pending : List Char8
  sent : List Char8
  writers : List Writer
  arrivals : List Arrival
  returned : List Char8
  chunks : List (Nat × List Char8)

def initial (readBuf writeBuf : Nat → Char8) : State := ⟨ttyInit readBuf writeBuf,none,[],[],[],[],[],[]⟩

/-- The handler's loop over the characters that are available. -/
def receiveAll : List Char8 → State → State
  | [], s => s
  | data :: later, s => receiveAll later { s with
      rd := receive data s.rd
      arrivals := s.arrivals ++ [⟨data,s.rd.readCount,decide (s.rd.readCount < (receive data s.rd).readCount)⟩] }

def Writer.wake (w : Writer) : Writer :=
  match w.place with
  | .asleep => { w with place := .locking }
  | _ => w

/-- The part of `tty_interrupt_handle` for `WIRQ`. -/
def writeInterrupt (busy : List Bool) (s : State) : State :=
  let (chars, rd) := sendChars busy s.rd
  { s with
    rd := rd
    sent := s.sent ++ chars
    writers := if rd.writeCount = 0 then s.writers.map Writer.wake else s.writers }

/-- The part for `RIRQ`. -/
def readInterrupt (s : State) : State := receiveAll s.pending { s with pending := [] }

def State.set (s : State) (k : Nat) (w : Writer) : State := { s with writers := s.writers.set k w }

/-- One turn of the loop of `tty_write` by call `k`, which has the spinlock. -/
def writeLoop (k : Nat) (w : Writer) (busy : Bool) (s : State) : State :=
  if w.i < w.data.length then
    if 0 < s.rd.writeCount then { s.set k { w with place := .asleep } with holder := none }
    else
      let (rd, n) := fillBuffer (w.data.drop w.i) s.rd
      let s := { s.set k { w with i := w.i + n } with
        chunks := s.chunks ++ [(k, (w.data.drop w.i).take n)] }
      if busy then { s with rd := rd }
      else { s with rd := (sendChar rd).2, sent := s.sent ++ [(sendChar rd).1] }
  else { s.set k { w with place := .returned w.i } with holder := none }

inductive Event where
  /-- A character comes in at the device. -/
  | arrive (data : Char8)
  /-- The handler runs, for the write side, the read side or both (the spinlock is free in
  between, so the two parts may also come as two events); `error` is the device's answer to
  the command `RIRQ`. -/
  | interrupt (wirq : Option (List Bool)) (rirq error : Bool)
  /-- A `tty_read` that finds characters; until then it sleeps. -/
  | read (len : Nat)
  | call (data : List Char8)
  /-- Call `k` gets the spinlock. -/
  | lock (k : Nat)
  | loop (k : Nat) (busy : Bool)

/-- `none` where the event cannot happen, or the kernel panics. -/
def step (e : Event) (s : State) : Option State :=
  match e with
  | .arrive data => some { s with pending := s.pending ++ [data] }
  | .interrupt wirq rirq error =>
    if s.holder = none ∧ ¬(rirq = true ∧ error = true) then
      let s := match wirq with
        | some busy => writeInterrupt busy s
        | none => s
      some (if rirq then readInterrupt s else s)
    else none
  | .read len =>
    if s.holder = none ∧ 0 < s.rd.readCount then
      let (chars, rd) := takeChars len s.rd
      some { s with rd := rd, returned := s.returned ++ chars }
    else none
  | .call data => some { s with writers := s.writers ++ [⟨data,0,.locking⟩] }
  | .lock k =>
    match s.holder, s.writers[k]? with
    | none, some ⟨data, i, .locking⟩ => some { s.set k ⟨data,i,.looping⟩ with holder := some k }
    | _, _ => none
  | .loop k busy =>
    match s.writers[k]? with
    | some ⟨data, i, .looping⟩ => if s.holder = some k then some (writeLoop k ⟨data,i,.looping⟩ busy s) else none
    | _ => none

end Buenos.Drivers.Tty
