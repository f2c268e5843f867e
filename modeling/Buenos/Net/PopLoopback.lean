import Buenos.Net.PopJourney
import Buenos.Net.PopSend

/-! A packet through the loopback interface, from `socket_sendto` to `socket_recvfrom`. Up to the push
of its frame `socket_sendto` touches nothing of the receive path, so it is one step. -/
namespace Buenos.Net.Pop

open Buenos.Foundation Buenos.Lib Buenos.Vm

/-! ### The send -/

section Send
variable {env : Environment State} {upper : State} {pool : Pagepool}

theorem sendBuffer_byte (buffer : Bytes) (sport dport : UInt16) (n : Int) (buf : Bytes) (k : Nat) :
    memcopy n (popHeader buffer sport dport n) popHeaderSize buf 0 k =
      if popHeaderSize ≤ k ∧ k < popHeaderSize + n.toNat then buf (k - popHeaderSize)
      else popHeader buffer sport dport n k := by
  rw [memcopy_byte,Nat.zero_add]

theorem received_sent (page buffer : Bytes) (sport dport : UInt16) (n : Int) (buf : Bytes) (packet : Nat)
    (positive : 1 ≤ n) (small : n < 2 ^ 31) :
    let f := received packet (memcopy (n + popHeaderSize) page 0
      (memcopy n (popHeader buffer sport dport n) popHeaderSize buf 0) 0)
    f.id = packet ∧ f.sourcePort = sport ∧ f.destPort = dport ∧ f.size.toNat = n.toNat ∧
      ∀ k < n.toNat, f.body k = buf k := by
  have byte : ∀ k < n.toNat + popHeaderSize, memcopy (n + popHeaderSize) page 0
      (memcopy n (popHeader buffer sport dport n) popHeaderSize buf 0) 0 k =
        if popHeaderSize ≤ k then buf (k - popHeaderSize) else popHeader buffer sport dport n k := by
    intro k low
    have inside : 0 ≤ k ∧ k < 0 + (n + popHeaderSize).toNat := by omega
    rw [memcopy_byte,if_pos inside,Nat.zero_add,Nat.sub_zero,sendBuffer_byte]
    by_cases header : popHeaderSize ≤ k
    · rw [if_pos header,if_pos ⟨header,by omega⟩]
    · rw [if_neg header,if_neg fun both => header both.1]
  generalize memcopy (n + popHeaderSize) page 0 _ 0 = payload at byte
  have header : ∀ k < popHeaderSize, payload k = popHeader buffer sport dport n k := by
    intro k low
    rw [byte k (by omega),if_neg (by omega)]
  unfold popHeaderSize at header
  have source : halfAt payload 0 = sport.toNat := by
    rw [halfAt_congr fun k here => header k (by omega),popHeader,halfAt_setWord_other _ _ (by decide),
      halfAt_setHalfAt_other _ _ (by decide),halfAt_setHalfAt_self,Nat.mod_eq_of_lt sport.toNat_lt]
  have dest : halfAt payload 1 = dport.toNat := by
    rw [halfAt_congr fun k here => header k (by omega),popHeader,halfAt_setWord_other _ _ (by decide),
      halfAt_setHalfAt_self,Nat.mod_eq_of_lt dport.toNat_lt]
  have size : word payload 1 = n.toNat := by
    rw [word_congr fun k here => header k (by omega),popHeader,word_setWord_self,
      toU32_small (by omega) (by omega),Nat.mod_eq_of_lt (by omega)]
  refine ⟨rfl,?_,?_,?_,?_⟩
  · rw [received,source,UInt16.ofNat_toNat]
  · rw [received,dest,UInt16.ofNat_toNat]
  · rw [received_size,size]
  · intro k low
    have here := byte (popHeaderSize + k) (by omega)
    rw [if_pos (Nat.le_add_right _ _),Nat.add_sub_cancel_left] at here
    exact here

/-- A frame that was sent to the loopback address has been accepted by its handler. -/
theorem loopback_accepted {σ : Type} {env : Environment σ} {upper : σ} {r : Sent σ}
    (sent : networkSend env networkBroadcastAddress networkLoopbackAddress protocolId length buffer pool upper = .returned r)
    (ok : r.result = netOk) :
    ∃ physFrame pool' accepted, pagepoolGetPhysPage pool = some (physFrame,pool') ∧ physFrame ≠ 0 ∧ accepted ≠ 0 ∧
      (0 < length ∧ length ≤ pageSize - frameHeaderSize) ∧ r.physFrame = physFrame ∧
      networkReceiveFrame env ⟨networkLoopbackAddress,networkLoopbackAddress,protocolId,
        memcopy length (fun j => env.page physFrame (frameHeaderSize + j)) 0 buffer 0⟩ physFrame pool' upper =
        (accepted,r.pool,r.upper) := by
  rw [networkSend] at sent
  split at sent
  swap
  · contradiction
  next fits =>
  split at sent
  · contradiction
  next physFrame pool' got =>
  split at sent
  · cases sent
    contradiction
  next present =>
  rw [sendFrame,if_pos rfl] at sent
  simp only [if_pos] at sent
  generalize received : networkReceiveFrame env _ _ _ _ = result at sent
  obtain ⟨accepted,after,upper'⟩ := result
  simp only at sent
  split at sent
  · unfold freeAndReturn at sent
    split at sent
    · contradiction
    · cases sent
      contradiction
  · next other =>
    cases sent
    exact ⟨physFrame,pool',accepted,got,present,other,fits,rfl,received⟩

structure Loops (s : SocketIndex) (packet : Nat) (dport : UInt16) (buf : Bytes) (n : Int) (slot : SlotIndex) (later : UInt32)
    (upper after : State) (f : Frame) : Prop where
  packet : f.id = packet
  sourcePort : f.sourcePort = (upper.sockets s).port
  destPort : f.destPort = dport
  size : f.size.toNat = n.toNat
  body : ∀ k < n.toNat, f.body k = buf k
  stored : after = storeFrame slot networkLoopbackAddress f later upper
  
theorem sendSize_le (sized : sendSize table size = some n) : n ≤ 4088 := by
  obtain ⟨mtu,_,rfl⟩ := Option.map_eq_some_iff.mp sized
  have low : min (min (toU32 size) (toU32 (mtu - popHeaderSize))) (pageSize - popHeaderSize) ≤ 4088 :=
    Nat.le_trans (Nat.min_le_right _ _) (by decide)
  rw [toS32_small (by omega)]
  omega

theorem socketSendto_loops (handlers : env.protocolsGetFrameHandler =
      protocolsGetFrameHandler (popFrameHandler pageOf packet now later))
    (sent : socketSendto env s networkLoopbackAddress dport buf size popSendBuffer pool upper = some (n,some r))
    (positive : 1 ≤ n) (empty : ∀ i, (upper.queue i).frame = none) :
    ∃ slot f physFrame, pushSlot upper.queue now = some slot ∧ Loops s packet dport buf n slot later upper r.upper f ∧
      pagepoolGetPhysPage pool = some (physFrame,r.pool) ∧ r.physFrame = physFrame ∧ physFrame ≠ 0 := by
  rw [socketSendto] at sent
  split at sent
  · cases sent
  split at sent
  swap
  · contradiction
  split at sent
  · contradiction
  next m sized =>
  split at sent
  · cases sent
  simp only at sent
  split at sent
  swap
  · contradiction
  next r' sent' =>
  obtain ⟨value,same⟩ := Prod.mk.inj (Option.some.inj sent)
  obtain rfl := Option.some.inj same
  split at value
  swap
  · omega
  next ok =>
  subst value
  obtain ⟨physFrame,pool',accepted,got,present,taken,fits,page,result⟩ := loopback_accepted sent' ok
  have small : m ≤ 4088 := sendSize_le sized
  have length : wrap (m + popHeaderSize) = m + popHeaderSize :=
    wrap_small (by unfold popHeaderSize; omega) (by unfold popHeaderSize; omega)
  rw [length] at result
  obtain ⟨name,sport,dest,bytes,body⟩ := received_sent (fun j => env.page physFrame (frameHeaderSize + j)) popSendBuffer
    (upper.sockets s).port dport m buf packet positive (by omega)
  unfold networkReceiveFrame at result
  rw [handlers] at result
  simp only [protocolsGetFrameHandler,if_pos] at result
  unfold popFrameHandler popPushFrame at result
  generalize received packet _ = f at *
  cases slot_ : pushSlot upper.queue now with
  | none =>
    rw [slot_] at result
    exact absurd (Prod.mk.inj result).1.symm taken
  | some slot =>
    rw [slot_] at result
    obtain ⟨_,rest⟩ := Prod.mk.inj result
    obtain ⟨pages,after⟩ := Prod.mk.inj rest
    refine ⟨slot,f,physFrame,rfl,⟨name,sport,dest,bytes,body,after.symm⟩,?_,page,present⟩
    have unfreed : freedSince upper (storeFrame slot networkLoopbackAddress f later upper) = [] := by
      have freed := (storeFrame_effect slot networkLoopbackAddress f later upper).2.1
      rw [empty slot] at freed
      rw [freedSince,freed]
      simp
    simp only [unfreed,freePages,Option.getD_some] at pages
    rw [got,pages]

end Send

/-! ### The round trip -/

/-- The slot that the service thread works on has a packet. -/
def Occupied (s : State) : Prop :=
  match s.service with
  | .discard i _ | .transfer i _ | .finish i _ => (s.queue i).frame ≠ none
  | _ => True

theorem step_occupied {s s' : State} (occupied : Occupied s) (next : step a s = some s') : Occupied s' := by
  rcases step_cases next with ⟨queue,service,_,_⟩ | ⟨fromaddr,frame,now,later,_,_,rfl⟩ | ⟨_,rfl⟩ | ⟨_,_,_,rfl⟩ |
    ⟨i,f,service,rfl⟩ | ⟨_,_,_,rfl⟩ | ⟨_,rfl⟩
  · rw [Occupied,service,queue]
    exact occupied
  · unfold popPushFrame
    split
    · exact occupied
    next free _ =>
    obtain ⟨queue,_,_,service⟩ := storeFrame_effect free fromaddr frame later s
    have kept : ∀ i, (s.queue i).frame ≠ none → ((storeFrame free fromaddr frame later s).queue i).frame ≠ none := by
      intro i present
      rw [queue]
      by_cases same : i = free
      · subst same
        simp
      · simpa [same] using present
    rw [Occupied] at occupied
    rw [Occupied,service]
    split at occupied <;> simp_all
  · have returned := scanSlots_spec s.sockets (List.finRange configPopQueueSize) s.queue
    rw [Occupied]
    generalize scanSlots s.sockets (List.finRange configPopQueueSize) s.queue = scanned at returned
    obtain ⟨queue,service⟩ := scanned
    obtain ⟨frames,held⟩ := returned
    cases service with
    | discard i f =>
      have same : (queue i).frame = some f := (frames i).trans held
      change (queue i).frame ≠ none
      rw [same]
      exact Option.some_ne_none f
    | transfer i f =>
      have same : (queue i).frame = some f := (frames i).trans held.1
      change (queue i).frame ≠ none
      rw [same]
      exact Option.some_ne_none f
    | scan | finish => exact held.elim
    | sleep => trivial
  · trivial
  · rw [Occupied,service] at occupied
    simp only [Occupied,(transferFrame_sockets i f s).1]
    exact occupied
  · trivial
  · trivial

/-- The one receive on `t` waits with a buffer of `n` bytes at least, or has not been made. -/
def Receives (t : SocketIndex) (call n : Nat) (h : History) : Prop :=
  (pending h.state t = 1 ∧ (∃ phase, ⟨call, t, phase⟩ ∈ h.state.calls) ∧ (h.state.sockets t).rbuf = some call ∧
    n ≤ (h.state.sockets t).bufsize.toNat) ∨
  pending h.state t = 0 ∧ ∀ b ∈ h.starts, b.call ≠ call

/-- What is known of a state `g` after the send in the state `h`. -/
structure RoundTrip (s t : SocketIndex) (call n : Nat) (buf : Bytes) (packet : Nat) (slot : SlotIndex) (h g : History) :
    Prop where
  returned : call ∈ g.returns → g.state.cells.length call = some n ∧
    g.state.cells.buffer call = (List.range n).map buf ∧ g.state.cells.sport call = (h.state.sockets s).port ∧
    g.state.cells.sender call = networkLoopbackAddress
  freed : (g.state.queue slot).frame = none →
    (∀ i, (g.state.queue i).frame = none) ∧ g.state.freed = packet :: h.state.freed
  progress : (∃ b ∈ g.starts, b.call = call) → ¬((g.state.queue slot).frame = none ∧ call ∈ g.returns) →
    ∃ a k, Own t a ∧ historyStep a g = some k
  terminates : ∀ actions k, (∀ a ∈ actions, Own t a) → run historyStep actions g = some k →
    actions.length ≤ workLeft slot g.state

section Round
variable {s t : SocketIndex} {call n : Nat} {slot : SlotIndex} {f : Frame} {before : List Nat} {h g : History} {buf : Bytes}

theorem stored_underway (served : Served h) (begun : Begun h) (apart : PortsApart h.state) (occupied : Occupied h.state)
    (empty : ∀ i, (h.state.queue i).frame = none) (pop : (h.state.sockets t).protocol = protocolPop)
    (port : (h.state.sockets t).port = f.destPort) (receives : Receives t call n h) (fresh : f.id ∉ h.state.accepted)
    (taken : pushSlot h.state.queue now = some slot) :
    Underway t call n slot f h.state.freed { h with state := storeFrame slot networkLoopbackAddress f later h.state } := by
  have pushed : (popPushFrame networkLoopbackAddress f now later h.state).2 =
      storeFrame slot networkLoopbackAddress f later h.state := by
    unfold popPushFrame
    simp only [taken]
  have moves : Moves .pushSignal h { h with state := (popPushFrame networkLoopbackAddress f now later h.state).2 } :=
    .push networkLoopbackAddress f now later fresh
  rw [pushed] at moves
  have served' := moves.served served
  have begun' := moves.begun begun
  have apart' := moves.portsApart apart
  obtain ⟨queue,freed,_,service⟩ := storeFrame_effect slot networkLoopbackAddress f later h.state
  rw [empty slot] at freed
  obtain ⟨sockets,calls,semaphores,_⟩ := storeFrame_receivers slot networkLoopbackAddress f later h.state
  have signals : (storeFrame slot networkLoopbackAddress f later h.state).signals = h.state.signals + 1 := by
    unfold storeFrame
    split <;> rfl
  have balance := fun sem opened => served.balance t sem opened
  refine ⟨served',begun',apart',⟨?_,?_,?_,.inl ⟨?_,?_,?_,freed,?_,?_,?_,?_,?_⟩⟩,?_⟩
  · simpa only [sockets] using pop
  · simpa only [sockets] using port
  · intro i other
    simp only [queue,Function.update_of_ne other]
    exact empty i
  · simp [Holds,queue]
  · simp only [queue,Function.update_self]
    rfl
  · simp [queue]
  · simp only [service]
    rw [Occupied] at occupied
    cases phase : h.state.service with
    | scan => exact .inl rfl
    | sleep => exact .inr (.inl rfl)
    | discard i k | transfer i k | finish i k =>
      rw [phase] at occupied
      exact absurd (empty i) occupied
  · intro c waits
    simp only [sockets] at waits ⊢
    obtain ⟨_,⟨phase,member⟩,rbuf,room⟩ | ⟨none,_⟩ := receives
    · rw [rbuf] at waits
      obtain rfl := Option.some.inj waits
      exact ⟨rfl,room,phase,by rw [calls]; exact member⟩
    · obtain ⟨sem,opened⟩ := served.opened (served.registered t c waits)
      have count := balance sem opened
      rw [none,waits] at count
      simp at count
  · intro free b member
    simp only [sockets] at free
    obtain ⟨_,_,rbuf,_⟩ | ⟨_,unstarted⟩ := receives
    · rw [rbuf] at free
      contradiction
    · exact unstarted b member
  · intro sem opened
    simp only [sockets] at opened
    simp only [semaphores]
    have count := balance sem opened
    obtain ⟨one,_,rbuf,_⟩ | ⟨none,_⟩ := receives
    · rw [one,rbuf] at count
      simp at count
      exact count
    · rw [none] at count
      omega
  · intro gone
    obtain ⟨⟨b,member,mine⟩,other⟩ := begun.returned call gone
    obtain ⟨_,⟨phase,inside⟩,_⟩ | ⟨_,unstarted⟩ := receives
    · exact other _ inside rfl
    · exact unstarted b member mine
  · intro _ quiet
    rw [signals] at quiet
    contradiction

theorem Underway.roundTrip (underway : Underway t call n slot f h.state.freed g) (size : f.size.toNat = n)
    (body : ∀ k < n, f.body k = buf k) (sourcePort : f.sourcePort = (h.state.sockets s).port) :
    RoundTrip s t call n buf f.id slot h g := by
  refine ⟨?_,?_,underway.progress,?_⟩
  · intro gone
    obtain queued | delivered := underway.journey.phase
    · exact absurd gone queued.unreturned
    · refine ⟨delivered.length,?_,delivered.sport.trans sourcePort,delivered.sender⟩
      rw [delivered.buffer]
      exact List.map_congr_left fun k member => body k (List.mem_range.mp member)
  · intro none
    obtain queued | delivered := underway.journey.phase
    · rw [queued.held] at none
      contradiction
    · refine ⟨fun i => ?_,delivered.freed⟩
      by_cases here : i = slot
      · rw [here]
        exact none
      · exact underway.journey.alone i here
  · intro actions k own ran
    have bound := own_bounded size underway own ran
    omega

theorem run_history_facts (ran : run historyStep actions initialHistory = some h) :
    Served h ∧ Begun h ∧ PortsApart h.state ∧ Occupied h.state := by
  have preserved : ∀ a h g, (Served h ∧ Begun h ∧ PortsApart h.state ∧ Occupied h.state) → historyStep a h = some g →
      Served g ∧ Begun g ∧ PortsApart g.state ∧ Occupied g.state := by
    rintro a h g ⟨served,begun,apart,occupied⟩ next
    have moves := historyStep_moves served next
    exact ⟨moves.served served,moves.begun begun,moves.portsApart apart,step_occupied occupied (historyStep_state next)⟩
  exact run_invariant preserved ⟨initial_served,initial_begun,initial_portsApart,trivial⟩ ran

end Round

/-- A packet that is sent to the loopback address arrives at the one receive on its port: as long as
the receive has not returned and the slot of the packet is not empty, the service thread, the sender
or the receiver can go on, and they cannot go on for ever; when the receive has returned it has the
bytes sent, the sender's port and the loopback address; and when the slot is empty the packet has
been freed, and its page can be given back. -/
theorem loopback_round_trip {call : Nat} (env : Environment State) (s t : SocketIndex) (h : History)
    (ran : run historyStep past initialHistory = some h) (empty : ∀ i, (h.state.queue i).frame = none)
    (pop : (h.state.sockets t).protocol = protocolPop) (port : (h.state.sockets t).port = dport)
    (handlers : env.protocolsGetFrameHandler = protocolsGetFrameHandler (popFrameHandler pageOf packet now later))
    (fresh : packet ∉ h.state.accepted) (positive : 1 ≤ reserved) (pages : PoolInvariant total reserved ⟨pool,out⟩)
    (buf popSendBuffer : Bytes) (size n : Int)
    (sent : socketSendto env s networkLoopbackAddress dport buf size popSendBuffer pool h.state = some (n,some r))
    (some_ : 1 ≤ n) (receives : Receives t call n.toNat h) (quiet : ∀ a ∈ actions, Quiet t call n.toNat a)
    (since : run historyStep actions { h with state := r.upper } = some g) :
    (∃ slot, RoundTrip s t call n.toNat buf packet slot h g) ∧
    ∃ after, pagepoolFreePhysPage r.pool r.physFrame = some after ∧ PoolInvariant total reserved ⟨after,out⟩ ∧
      r.physFrame / pageSize ∉ out := by
  obtain ⟨served,begun,apart,occupied⟩ := run_history_facts ran
  obtain ⟨slot,f,physFrame,taken,loops,got,page,present⟩ := socketSendto_loops handlers sent some_ empty
  constructor
  · have underway : Underway t call n.toNat slot f h.state.freed { h with state := r.upper } := by
      rw [loops.stored]
      exact stored_underway served begun apart occupied empty pop (port.trans loops.destPort.symm) receives
        (loops.packet ▸ fresh) taken
    have reached := run_underway loops.size underway quiet since
    have round := reached.roundTrip loops.size loops.body loops.sourcePort
    rw [loops.packet] at round
    exact ⟨slot,round⟩
  · rw [page]
    exact pages.got positive got present

def loopbackEnvironment : Environment State where
  interfaces := oneInterface.interfaces
  send := fun _ _ _ => 0
  protocolsGetFrameHandler := protocolsGetFrameHandler (popFrameHandler (fun _ => 0) 0 0 0)
  page := fun _ _ => 0

theorem secondSocket_lt : 1 < configMaxOpenSockets := by decide

def secondSocket : SocketIndex := ⟨1,secondSocket_lt⟩

/-- Sockets on the ports 5 and 7, and a receive on the second one. -/
def receivingRun : List Action :=
  [.open protocolPop 5 (some 0),.open protocolPop 7 (some 1),.recvfrom 1 secondSocket 16,
    .recvSignal ⟨1,secondSocket,.signal⟩]

def arrivingRun : List Action :=
  [.pushSignal,.serviceScan,.serviceTransfer,.recvComplete ⟨1,secondSocket,.wait⟩,.serviceFinish]

/-- Four bytes are sent from port 5 to port 7. -/
theorem loopback_round_trip_four : ∃ h r g, run historyStep receivingRun initialHistory = some h ∧
    socketSendto loopbackEnvironment 0 networkLoopbackAddress 7 (fun _ => 9) 4 (fun _ => 0)
      (pagepoolInit 40 2 fun _ => 0) h.state = some (4,some r) ∧
    run historyStep arrivingRun { h with state := r.upper } = some g ∧ 1 ∈ g.returns ∧
    ∃ slot, RoundTrip 0 1 1 4 (fun _ => 9) 0 slot h g := by
  have reached : ((run historyStep receivingRun initialHistory).any fun (h : History) =>
      decide ((∀ i, (h.state.queue i).frame.isNone = true) ∧ (h.state.sockets 1).protocol = protocolPop ∧
        (h.state.sockets 1).port = 7 ∧ 0 ∉ h.state.accepted ∧ pending h.state 1 = 1 ∧ ⟨1,1,.wait⟩ ∈ h.state.calls ∧
        (h.state.sockets 1).rbuf = some 1 ∧ 4 ≤ (h.state.sockets 1).bufsize.toNat) &&
      (socketSendto loopbackEnvironment 0 networkLoopbackAddress 7 (fun _ => 9) 4 (fun _ => 0)
        (pagepoolInit 40 2 fun _ => 0) h.state).any fun (x : Int × Option (Sent State)) => decide (x.1 = 4) &&
          x.2.any fun (r : Sent State) => (run historyStep arrivingRun { h with state := r.upper }).any fun (g : History) =>
            decide (1 ∈ g.returns)) = true := by decide +kernel
  obtain ⟨h,ran,both⟩ := (Option.any_eq_true _ _).mp reached
  obtain ⟨facts,sends⟩ := Bool.and_eq_true_iff.mp both
  obtain ⟨empty,pop,port,fresh,one,member,rbuf,room⟩ := of_decide_eq_true facts
  obtain ⟨⟨n,result⟩,sent,arrives⟩ := (Option.any_eq_true _ _).mp sends
  obtain ⟨four,arrives⟩ := Bool.and_eq_true_iff.mp arrives
  obtain ⟨r,pushed,returns⟩ := (Option.any_eq_true _ _).mp arrives
  obtain ⟨g,since,gone⟩ := (Option.any_eq_true _ _).mp returns
  obtain rfl : n = 4 := of_decide_eq_true four
  obtain rfl : result = some r := pushed
  have round := (loopback_round_trip loopbackEnvironment 0 1 h ran (fun i => Option.isNone_iff_eq_none.mp (empty i)) pop port
    rfl fresh (show 1 ≤ 2 by decide) (initial_poolInvariant (by decide) fun _ => 0) (fun _ => 9) (fun _ => 0) 4 4 sent
    (by decide) (.inl ⟨one,⟨.wait,member⟩,rbuf,room⟩) (show ∀ a ∈ arrivingRun, Quiet 1 1 4 a by decide) since).1
  exact ⟨h,r,g,ran,sent,since,of_decide_eq_true gone,round⟩

end Buenos.Net.Pop
