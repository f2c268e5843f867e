import Buenos.Net.Network
import Buenos.Net.PopDelivery

/-! What the service thread reads of a frame. The size of a packet is a field of its header, which
the sender chooses. -/
namespace Buenos.Net.Pop

open Buenos.Foundation Buenos.Vm

/-- `sizeof(pop_header_t)`. -/
def popHeaderSize : Nat := 8

/-- The payload of a frame ends with its page. -/
def payloadSize : Nat := pageSize - frameHeaderSize

/-- The packet that a frame handler is given, with the bytes from the payload of the frame on. -/
def received (id : Nat) (payload : Bytes) : Frame where
  id := id
  sourcePort := UInt16.ofNat (halfAt payload 0)
  destPort := UInt16.ofNat (halfAt payload 1)
  size := UInt32.ofNat (word payload 1)
  body := fun k => payload (popHeaderSize + k)

/-- A transfer that is about to be made for the call `c`, with a buffer of `bufsize` bytes: what is
behind the payload does not matter, the buffer takes what is written, and its length is reported. -/
structure Inside (s : State) (slot : SlotIndex) (id : Nat) (payload : Bytes) (c : Nat) (bufsize : UInt32) : Prop where
  reads : ∀ other : Bytes, (∀ k < payloadSize, other k = payload k) →
    transferFrame slot (received id other) s = transferFrame slot (received id payload) s
  writes : ((transferFrame slot (received id payload) s).cells.buffer c).length ≤ bufsize.toNat
  reports : (transferFrame slot (received id payload) s).cells.length c =
    some ((transferFrame slot (received id payload) s).cells.buffer c).length

theorem received_size (packet : Nat) (payload : Bytes) : (received packet payload).size.toNat = word payload 1 := by
  rw [received,UInt32.toNat_ofNat',Nat.mod_eq_of_lt (word_lt payload 1)]

theorem copiedBytes_le (f : Frame) (bufsize : UInt32) : copiedBytes f bufsize ≤ bufsize.toNat := by
  rw [copiedBytes]
  split
  · exact le_rfl
  · next most => exact UInt32.le_iff_toNat_le.mp (UInt32.not_lt.mp most)

theorem transferFrame_congr {f g : Frame} {s : State} (socket : (s.queue slot).socket = some j) (id : g.id = f.id)
    (size : g.size = f.size) (sourcePort : g.sourcePort = f.sourcePort)
    (body : ∀ k < copiedBytes f (s.sockets j).bufsize, g.body k = f.body k) :
    transferFrame slot g s = transferFrame slot f s := by
  have bytes : (List.range (copiedBytes f (s.sockets j).bufsize)).map g.body =
      (List.range (copiedBytes f (s.sockets j).bufsize)).map f.body :=
    List.map_congr_left fun k member => body k (List.mem_range.mp member)
  unfold copiedBytes at bytes
  unfold transferFrame networkFreeFrame
  rw [socket]
  simp only [id,size,sourcePort,bytes]

section Transfer
variable {s : State} {payload : Bytes} {packet : Nat}

theorem copiedBytes_received (packet : Nat) (payload : Bytes) (bufsize : UInt32) :
    copiedBytes (received packet payload) bufsize = min (word payload 1) bufsize.toNat := by
  rw [copiedBytes,← received_size packet payload]
  split
  · next more => exact (Nat.min_eq_right (UInt32.lt_iff_toNat_lt.mp more).le).symm
  · next most => exact (Nat.min_eq_left (UInt32.le_iff_toNat_le.mp (UInt32.not_lt.mp most))).symm

theorem received_header {other : Bytes} (same : ∀ k < payloadSize, other k = payload k) :
    (received packet other).size = (received packet payload).size ∧
    (received packet other).sourcePort = (received packet payload).sourcePort := by
  have inside : ∀ k < popHeaderSize, other k = payload k := fun k low => same k (Nat.lt_trans low (by decide))
  unfold popHeaderSize at inside
  constructor
  · apply congrArg UInt32.ofNat
    exact word_congr fun k here => inside k (by omega)
  · apply congrArg UInt16.ofNat
    exact halfAt_congr fun k here => inside k (by omega)

theorem inside_iff (socket : (s.queue slot).socket = some j)
    (transfers : ∀ f, Transfers slot f j c sem s (transferFrame slot f s)) :
    Inside s slot packet payload c (s.sockets j).bufsize ↔
      word payload 1 + popHeaderSize ≤ payloadSize ∨ (s.sockets j).bufsize.toNat + popHeaderSize ≤ payloadSize := by
  have bytes := copiedBytes_received packet payload (s.sockets j).bufsize
  have buffer : ∀ f, (transferFrame slot f s).cells.buffer c =
      (List.range (copiedBytes f (s.sockets j).bufsize)).map f.body := by
    intro f
    rw [(transfers f).buffer,Function.update_self]
  constructor
  · intro inside
    by_contra outside
    have more : payloadSize < copiedBytes (received packet payload) (s.sockets j).bufsize + popHeaderSize := by omega
    have last := congrArg (fun t : State => t.cells.buffer c) (inside.reads
      (Function.update payload payloadSize (payload payloadSize + 1)) fun k low => Function.update_of_ne (Nat.ne_of_lt low) _ _)
    simp only [buffer] at last
    have sizes : copiedBytes (received packet (Function.update payload payloadSize (payload payloadSize + 1)))
        (s.sockets j).bufsize = copiedBytes (received packet payload) (s.sockets j).bufsize := by
      have lengths := congrArg List.length last
      simpa using lengths
    have here := congrArg (fun l : List UInt8 => l[payloadSize - popHeaderSize]?) last
    rw [sizes] at here
    have low : payloadSize - popHeaderSize < copiedBytes (received packet payload) (s.sockets j).bufsize := by
      unfold payloadSize pageSize frameHeaderSize popHeaderSize at *
      omega
    have back : popHeaderSize + (payloadSize - popHeaderSize) = payloadSize := by decide
    rw [List.getElem?_map,List.getElem?_map,List.getElem?_range low] at here
    simp only [Option.map_some,Option.some.injEq,received,back,Function.update_self] at here
    simp at here
  · intro fits
    refine ⟨fun other same => ?_,?_,?_⟩
    · have headers : (received packet other).size = (received packet payload).size ∧
          (received packet other).sourcePort = (received packet payload).sourcePort := received_header same
      obtain ⟨size,sourcePort⟩ := headers
      exact transferFrame_congr socket rfl size sourcePort fun k low => same (popHeaderSize + k) (by omega)
    · rw [buffer,List.length_map,List.length_range]
      exact copiedBytes_le _ _
    · rw [buffer,(transfers _).length,Function.update_self,List.length_map,List.length_range]

end Transfer

/-- A transfer stays inside the payload just when the packet or the buffer fits into one. -/
theorem transfer_inside (actions : List Action) (h : History) (ran : run historyStep actions initialHistory = some h)
    (packet : Nat) (payload : Bytes) (service : h.state.service = .transfer slot (received packet payload)) :
    ∃ j c, (h.state.queue slot).socket = some j ∧ (h.state.sockets j).rbuf = some c ∧
      (Inside h.state slot packet payload c (h.state.sockets j).bufsize ↔
        word payload 1 + popHeaderSize ≤ payloadSize ∨
        (h.state.sockets j).bufsize.toNat + popHeaderSize ≤ payloadSize) := by
  have served : Served h := run_invariant (fun a g g' facts next => historyStep_served facts next) initial_served ran
  obtain ⟨_,_,j,c,socket,rbuf⟩ := served.transferring slot _ service
  have registered := served.registered j c rbuf
  obtain ⟨sem,receives⟩ := served.opened registered
  exact ⟨j,c,socket,rbuf,inside_iff socket fun f =>
    transferFrame_transfers socket rbuf registered.sender registered.copied registered.sport receives⟩

/-- A packet to port 7 whose header says that it has 5000 bytes. -/
def longPayload : Bytes := setWord (setHalfAt (fun _ => 1) 1 7) 1 5000

theorem firstSocket_lt : 0 < configMaxOpenSockets := by decide

def firstSocket : SocketIndex := ⟨0,firstSocket_lt⟩

/-- It is about to be copied into a buffer of `bufsize` bytes. -/
def longRun (bufsize : UInt32) : List Action :=
  [.open protocolPop 7 (some 0),.push 0 (received 0 longPayload) 0 0,.recvfrom 1 firstSocket bufsize,.serviceScan]

set_option maxRecDepth 20000 in
/-- A buffer of 100 bytes is filled from the payload. -/
theorem transfer_inside_small : ∃ h, run historyStep (longRun 100) initialHistory = some h ∧
    Inside h.state 0 0 longPayload 1 100 := by
  obtain ⟨h,ran,service,socket,rbuf,bufsize⟩ : ∃ h, run historyStep (longRun 100) initialHistory = some h ∧
      h.state.service = .transfer 0 (received 0 longPayload) ∧ (h.state.queue 0).socket = some 0 ∧
      (h.state.sockets 0).rbuf = some 1 ∧ (h.state.sockets 0).bufsize = 100 :=
    ⟨_,rfl,rfl,rfl,rfl,rfl⟩
  obtain ⟨j,c,socket',rbuf',inside⟩ := transfer_inside _ h ran 0 longPayload service
  cases socket.symm.trans socket'
  cases rbuf.symm.trans rbuf'
  rw [bufsize] at inside
  exact ⟨h,ran,inside.mpr (.inr (by decide))⟩

set_option maxRecDepth 20000 in
/-- The byte behind the payload, the first one of the next page, is copied. -/
theorem next_page_read : ∃ h, run historyStep (longRun 5000) initialHistory = some h ∧
    h.state.service = .transfer 0 (received 0 longPayload) ∧ (h.state.sockets 0).rbuf = some 1 ∧
    (h.state.sockets 0).bufsize = 5000 ∧ ¬Inside h.state 0 0 longPayload 1 5000 := by
  refine ⟨_,rfl,rfl,rfl,rfl,fun inside => ?_⟩
  have last := congrArg (fun t : State => (t.cells.buffer 1)[4076]?)
    (inside.reads (Function.update longPayload payloadSize 0) fun k low => Function.update_of_ne (Nat.ne_of_lt low) _ _)
  revert last
  decide +kernel

end Buenos.Net.Pop
