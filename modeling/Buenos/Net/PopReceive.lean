import Buenos.Net.PopOwnership

/-! Which packet goes to which `socket_recvfrom`, over whole runs. A history records the receives
that were registered, the packets that the service thread has copied, and the receives that have
returned. -/
namespace Buenos.Net.Pop

open Buenos.Foundation

/-- A `socket_recvfrom` that found its socket open and without a receive in progress. -/
structure Start where
  call : Nat
  socket : SocketIndex
  port : UInt16
  bufsize : UInt32
  deriving DecidableEq

structure Delivery where
  call : Nat
  frame : Frame
  sender : UInt32

structure History where
  state : State
  starts : List Start
  deliveries : List Delivery
  returns : List Nat

/-- The delivery that a transfer is about to make. -/
def delivery (s : State) (slot : SlotIndex) (f : Frame) : Option Delivery :=
  ((s.queue slot).socket.bind fun j => (s.sockets j).rbuf).map fun call =>
    ⟨call, f, (s.queue slot).sender⟩

def record (h : History) (t : State) : Action → History
  | .recvfrom call i buflength =>
    if (socketRecvfrom call i buflength h.state).isSome then
      { h with state := t, starts := ⟨call, i, (h.state.sockets i).port, buflength⟩ :: h.starts }
    else { h with state := t }
  | .serviceTransfer => match h.state.service with
    | .transfer slot f => { h with state := t, deliveries := (delivery h.state slot f).toList ++ h.deliveries }
    | _ => { h with state := t }
  | .recvComplete call => { h with state := t, returns := call.id :: h.returns }
  | _ => { h with state := t }

/-- Each call has its own result variables, and `semaphore_create` returns a semaphore that is not
in use. -/
def Admissible (h : History) : Action → Prop
  | .recvfrom call _ _ => ∀ b ∈ h.starts, b.call ≠ call
  | .open _ _ (some sem) => ∀ j, (h.state.sockets j).receiveComplete ≠ some sem
  | _ => True

instance (h : History) (a : Action) : Decidable (Admissible h a) := by
  unfold Admissible
  split <;> infer_instance

def historyStep (a : Action) (h : History) : Option History :=
  if Admissible h a then (step a h.state).map fun t => record h t a else none

def initialHistory : History := ⟨initial, [], [], []⟩

/-! ### The sockets -/

def pending (s : State) (j : SocketIndex) : Nat := s.calls.countP fun c => c.socket = j

/-- The result pointers of the socket are those of the call, which was started on it. -/
structure Registered (h : History) (j : SocketIndex) (c : Nat) : Prop where
  protocol : (h.state.sockets j).protocol = protocolPop
  sender : (h.state.sockets j).sender = some c
  copied : (h.state.sockets j).copied = some c
  sport : (h.state.sockets j).sport = some c
  started : ⟨c, j, (h.state.sockets j).port, (h.state.sockets j).bufsize⟩ ∈ h.starts
  undelivered : ∀ d ∈ h.deliveries, d.call ≠ c

/-- The packet of a pending transfer stays where it is, and so does the call that waits for it. -/
def Transferring (s : State) : Prop :=
  ∀ i f, s.service = .transfer i f → Holds s i f ∧ (s.queue i).busy = true ∧
    ∃ j c, (s.queue i).socket = some j ∧ (s.sockets j).rbuf = some c

structure Served (h : History) : Prop where
  semaphores : ∀ i j sem, (h.state.sockets i).receiveComplete = some sem →
    (h.state.sockets j).receiveComplete = some sem → i = j
  closed : ∀ j, (h.state.sockets j).protocol = 0 ↔ (h.state.sockets j).receiveComplete = none
  balance : ∀ j sem, (h.state.sockets j).receiveComplete = some sem →
    pending h.state j = h.state.semaphores sem + if (h.state.sockets j).rbuf.isSome then 1 else 0
  idle : ∀ j, (h.state.sockets j).receiveComplete = none →
    pending h.state j = 0 ∧ (h.state.sockets j).rbuf = none
  registered : ∀ j c, (h.state.sockets j).rbuf = some c → Registered h j c
  once : (h.starts.map Start.call).Nodup
  delivered : ∀ d ∈ h.deliveries, ∃ b ∈ h.starts, b.call = d.call
  transferring : Transferring h.state

theorem initial_served : Served initialHistory := by
  constructor <;> simp [initialHistory,initial,closedSocket,pending,Transferring]

section Steps
variable {h : History} {t : State}

theorem Served.keep (served : Served h) (sockets : t.sockets = h.state.sockets) (calls : t.calls = h.state.calls)
    (semaphores : t.semaphores = h.state.semaphores) (transferring : Transferring t) :
    Served { h with state := t } := by
  have same : ∀ j, pending t j = pending h.state j := fun j => by simp [pending,calls]
  refine ⟨?_,?_,?_,?_,?_,served.once,served.delivered,transferring⟩
  · simpa only [sockets] using served.semaphores
  · simpa only [sockets] using served.closed
  · simpa only [sockets,semaphores,same] using served.balance
  · simpa only [sockets,same] using served.idle
  · intro j c waits
    rw [sockets] at waits
    obtain ⟨protocol,sender,copied,sport,started,undelivered⟩ := served.registered j c waits
    exact ⟨by rwa [sockets],by rwa [sockets],by rwa [sockets],by rwa [sockets],by rwa [sockets],undelivered⟩

theorem Transferring.keep {s t : State} (transferring : Transferring s) (queue : t.queue = s.queue)
    (service : t.service = s.service)
    (sockets : ∀ j c, (s.sockets j).rbuf = some c → (t.sockets j).rbuf = some c) : Transferring t := by
  intro i f at_
  rw [service] at at_
  obtain ⟨holds,busy,j,c,socket,rbuf⟩ := transferring i f at_
  refine ⟨by simpa [Holds,queue] using holds,by rwa [queue],j,c,by rwa [queue],sockets j c rbuf⟩

theorem Served.push (served : Served h) (fromaddr : UInt32) (frame : Frame) (now later : UInt32) :
    Served { h with state := (popPushFrame fromaddr frame now later h.state).2 } := by
  unfold popPushFrame
  split
  · exact served
  · next i at_ =>
    obtain ⟨queue,-,-,service⟩ := storeFrame_effect i fromaddr frame later h.state
    obtain ⟨sockets,calls,semaphores,-⟩ := storeFrame_receivers i fromaddr frame later h.state
    refine served.keep sockets calls semaphores fun k f transfer => ?_
    rw [service] at transfer
    obtain ⟨holds,busy,j,c,socket,rbuf⟩ := served.transferring k f transfer
    have apart : k ≠ i := by
      rintro rfl
      rcases pushSlot_sound at_ with none_ | free
      · rw [show _ = _ from holds] at none_; contradiction
      · rw [busy] at free; contradiction
    have same := congrFun queue k
    rw [Function.update_of_ne apart] at same
    exact ⟨by simpa [Holds,same] using holds,by rwa [same],j,c,by rwa [same],by rwa [sockets]⟩

theorem scanSlots_socket (sockets : SocketIndex → Socket) (slots : List SlotIndex) (queue : SlotIndex → Slot) :
    (∀ i j, ((scanSlots sockets slots queue).1 i).socket = some j → (queue i).socket = some j ∨
      ∃ f, (queue i).frame = some f ∧ recipient sockets f.destPort = some j) ∧
    ∀ i f, (scanSlots sockets slots queue).2 = .transfer i f →
      ∃ j, ((scanSlots sockets slots queue).1 i).socket = some j ∧ (sockets j).rbuf.isSome := by
  induction slots generalizing queue with
  | nil => exact ⟨fun i j there => .inl there,by simp [scanSlots]⟩
  | cons i rest ih =>
    cases frame : (queue i).frame with
    | none => simpa only [scanSlots,frame] using ih queue
    | some f =>
      cases socket : slotSocket sockets (queue i) f with
      | none => simp only [scanSlots,frame,socket]; exact ⟨fun k j there => .inl there,by simp⟩
      | some j =>
        have origin : (queue i).socket = some j ∨ recipient sockets f.destPort = some j := by
          unfold slotSocket at socket
          cases cached : (queue i).socket with
          | none => rw [cached,Option.none_or] at socket; exact .inr socket
          | some k => rw [cached,Option.some_or] at socket; exact .inl socket
        have cache : ∀ (slot : Slot), slot.socket = some j → ∀ k l,
            (Function.update queue i slot k).socket = some l → (queue k).socket = some l ∨
              ∃ g, (queue k).frame = some g ∧ recipient sockets g.destPort = some l := by
          intro slot noted k l there
          by_cases at_ : k = i
          · subst at_
            rw [Function.update_self,noted] at there
            cases there
            exact origin.imp id fun found => ⟨f,frame,found⟩
          · rw [Function.update_of_ne at_] at there
            exact .inl there
        simp only [scanSlots,frame,socket]
        split
        · exact ⟨cache _ rfl,by simp⟩
        split
        · next waits =>
          refine ⟨fun k l there => ?_,fun k g there => ?_⟩
          · refine cache { queue i with frame := some f, socket := some j, busy := true } rfl k l ?_
            simpa [frame] using there
          · cases there
            exact ⟨j,by simp,waits⟩
        · obtain ⟨first,second⟩ := ih (Function.update queue i
            ⟨some f,some j,(queue i).timestamp,(queue i).sender,(queue i).busy⟩)
          refine ⟨fun k l there => ?_,second⟩
          rcases first k l there with before | ⟨g,held,found⟩
          · exact cache _ rfl k l before
          · refine .inr ⟨g,?_,found⟩
            by_cases at_ : k = i
            · subst at_; rw [Function.update_self] at held; rw [frame]; exact held
            · rwa [Function.update_of_ne at_] at held

theorem Served.scan (served : Served h) :
    Served { h with state := { h.state with
      queue := (scanSlots h.state.sockets (List.finRange configPopQueueSize) h.state.queue).1
      service := (scanSlots h.state.sockets (List.finRange configPopQueueSize) h.state.queue).2 } } := by
  obtain ⟨same,returned⟩ := scanSlots_spec h.state.sockets (List.finRange configPopQueueSize) h.state.queue
  obtain ⟨-,transfer⟩ := scanSlots_socket h.state.sockets (List.finRange configPopQueueSize) h.state.queue
  refine served.keep rfl rfl rfl fun i f at_ => ?_
  simp only at at_
  rw [at_] at returned
  obtain ⟨held,busy,-⟩ := returned
  obtain ⟨j,socket,rbuf⟩ := transfer i f at_
  obtain ⟨c,rbuf⟩ := Option.isSome_iff_exists.mp rbuf
  exact ⟨by rw [Holds,same]; exact held,busy,j,c,socket,rbuf⟩

theorem Served.clear (served : Served h) (slot : SlotIndex) {s : State} (sockets : s.sockets = h.state.sockets)
    (calls : s.calls = h.state.calls) (semaphores : s.semaphores = h.state.semaphores) :
    Served { h with state := { clearSlot slot s with service := .scan } } :=
  served.keep sockets calls semaphores (by simp [Transferring])

/-- What registering a receive changes. -/
structure Registers (call : Nat) (i : SocketIndex) (n : UInt32) (s t : State) : Prop where
  protocol : (s.sockets i).protocol = protocolPop
  free : (s.sockets i).rbuf = none
  sockets : t.sockets = Function.update s.sockets i { s.sockets i with
    rbuf := some call, bufsize := n, sender := some call, copied := some call, sport := some call }
  calls : t.calls = ⟨call, i, .signal⟩ :: s.calls
  rest : t.queue = s.queue ∧ t.service = s.service ∧ t.semaphores = s.semaphores ∧ t.cells = s.cells ∧
    t.accepted = s.accepted

theorem socketRecvfrom_registers {s t : State} (registers : socketRecvfrom call i n s = some t) :
    Registers call i n s t := by
  unfold socketRecvfrom at registers
  split at registers
  · contradiction
  · next ready =>
    obtain ⟨protocol,free⟩ := not_or.mp ready
    cases registers
    exact ⟨not_not.mp protocol,by simpa using free,rfl,rfl,rfl,rfl,rfl,rfl,rfl⟩

theorem Served.register (served : Served h) (registers : Registers call i n h.state t)
    (fresh : ∀ b ∈ h.starts, b.call ≠ call) :
    Served { h with state := t, starts := ⟨call, i, (h.state.sockets i).port, n⟩ :: h.starts } := by
  obtain ⟨protocol,free,sockets,calls,queue,service,semaphores,-,-⟩ := registers
  have here : t.sockets i = { h.state.sockets i with
      rbuf := some call, bufsize := n, sender := some call, copied := some call, sport := some call } := by
    rw [sockets,Function.update_self]
  have others : ∀ j, j ≠ i → t.sockets j = h.state.sockets j := fun j apart => by
    rw [sockets,Function.update_of_ne apart]
  have complete : ∀ j, (t.sockets j).receiveComplete = (h.state.sockets j).receiveComplete := by
    intro j
    by_cases same : j = i
    · subst same; rw [here]
    · rw [others j same]
  have opened : (h.state.sockets i).receiveComplete ≠ none := by
    intro closed
    rw [(served.closed i).mpr closed] at protocol
    contradiction
  have count : ∀ j, pending t j = pending h.state j + if i = j then 1 else 0 := by
    intro j
    unfold pending
    rw [calls,List.countP_cons]
    simp
  refine ⟨?_,?_,?_,?_,?_,?_,?_,?_⟩
  · simpa only [complete] using served.semaphores
  · intro j
    rw [complete]
    by_cases same : j = i
    · subst same; rw [here]; exact served.closed j
    · rw [others j same]; exact served.closed j
  · intro j sem receives
    rw [complete] at receives
    have before := served.balance j sem receives
    simp only [count,semaphores]
    by_cases same : j = i
    · subst same
      rw [free] at before
      simp only [Option.isSome_none,Bool.false_eq_true,if_false,Nat.add_zero] at before
      simp [here,before]
    · simp only [others j same,Ne.symm same,if_false,Nat.add_zero]
      exact before
  · intro j closed
    rw [complete] at closed
    have apart : j ≠ i := by rintro rfl; exact opened closed
    simp only [count,others j apart,Ne.symm apart,if_false,Nat.add_zero]
    exact served.idle j closed
  · intro j c waits
    by_cases same : j = i
    · subst same
      rw [here] at waits
      cases waits
      have undelivered : ∀ d ∈ h.deliveries, d.call ≠ call := by
        intro d member clash
        obtain ⟨b,started,same⟩ := served.delivered d member
        exact fresh b started (same.trans clash)
      exact ⟨by rw [here]; exact protocol,by rw [here],by rw [here],by rw [here],
        by rw [here]; exact List.mem_cons_self,undelivered⟩
    · rw [others j same] at waits
      obtain ⟨protocol,sender,copied,sport,started,undelivered⟩ := served.registered j c waits
      exact ⟨by rwa [others j same],by rwa [others j same],by rwa [others j same],by rwa [others j same],
        by rw [others j same]; exact List.mem_cons_of_mem _ started,undelivered⟩
  · refine List.nodup_cons.mpr ⟨?_,served.once⟩
    intro member
    obtain ⟨b,started,same⟩ := List.mem_map.mp member
    exact fresh b started same
  · intro d member
    obtain ⟨b,started,same⟩ := served.delivered d member
    exact ⟨b,List.mem_cons_of_mem _ started,same⟩
  · refine served.transferring.keep queue service fun j c waits => ?_
    have apart : j ≠ i := by rintro rfl; rw [free] at waits; contradiction
    rwa [others j apart]

theorem Served.signal (served : Served h) {call : Call} (member : call ∈ h.state.calls) (n : Nat) :
    Served { h with state := { h.state with
      calls := ⟨call.id, call.socket, .wait⟩ :: h.state.calls.erase call
      serviceSem := n } } := by
  have count : ∀ j, pending { h.state with
      calls := ⟨call.id, call.socket, .wait⟩ :: h.state.calls.erase call
      serviceSem := n } j = pending h.state j := by
    intro j
    unfold pending
    have split := (List.perm_cons_erase member).countP_eq fun c => decide (c.socket = j)
    rw [split,List.countP_cons,List.countP_cons]
  obtain ⟨semaphores,closed,balance,idle,registered,once,delivered,transferring⟩ := served
  refine ⟨semaphores,closed,?_,?_,?_,once,delivered,transferring⟩
  · intro j sem receives
    rw [count]
    exact balance j sem receives
  · intro j shut
    rw [count]
    exact idle j shut
  · intro j c waits
    obtain ⟨protocol,sender,copied,sport,started,undelivered⟩ := registered j c waits
    exact ⟨protocol,sender,copied,sport,started,undelivered⟩

theorem Served.complete (served : Served h) {call : Call} (member : call ∈ h.state.calls)
    (receives : (h.state.sockets call.socket).receiveComplete = some sem) (signalled : h.state.semaphores sem ≠ 0) :
    Served { h with
      state := { h.state with
        calls := h.state.calls.erase call
        semaphores := Function.update h.state.semaphores sem (h.state.semaphores sem - 1) }
      returns := call.id :: h.returns } := by
  have count : ∀ j, pending h.state j = (h.state.calls.erase call).countP (fun c => c.socket = j) +
      if call.socket = j then 1 else 0 := by
    intro j
    unfold pending
    rw [(List.perm_cons_erase member).countP_eq,List.countP_cons]
    simp
  obtain ⟨semaphores,closed,balance,idle,registered,once,delivered,transferring⟩ := served
  refine ⟨semaphores,closed,?_,?_,?_,once,delivered,transferring⟩
  · intro j x there
    have before := balance j x there
    rw [count] at before
    unfold pending
    by_cases same : call.socket = j
    · subst same
      obtain rfl : sem = x := Option.some.inj (receives.symm.trans there)
      simp only [if_true,Function.update_self] at before ⊢
      omega
    · have apart : x ≠ sem := by rintro rfl; exact same (semaphores _ _ _ receives there)
      simpa [same,apart] using before
  · intro j shut
    obtain ⟨none_,free⟩ := idle j shut
    rw [count] at none_
    exact ⟨by simp only [pending]; omega,free⟩
  · intro j c waits
    obtain ⟨protocol,sender,copied,sport,started,undelivered⟩ := registered j c waits
    exact ⟨protocol,sender,copied,sport,started,undelivered⟩

def copiedBytes (f : Frame) (bufsize : UInt32) : Nat :=
  if f.size > bufsize then bufsize.toNat else f.size.toNat

/-- What the transfer of a packet to the call `c` on the socket `j` changes. -/
structure Transfers (slot : SlotIndex) (f : Frame) (j : SocketIndex) (c sem : Nat) (s t : State) : Prop where
  sockets : t.sockets = Function.update s.sockets j { s.sockets j with
    rbuf := none, bufsize := 0, sender := none, copied := none, sport := none }
  semaphores : t.semaphores = Function.update s.semaphores sem (s.semaphores sem + 1)
  buffer : t.cells.buffer = Function.update s.cells.buffer c
    ((List.range (copiedBytes f (s.sockets j).bufsize)).map f.body)
  sender : t.cells.sender = Function.update s.cells.sender c (s.queue slot).sender
  length : t.cells.length = Function.update s.cells.length c (some (copiedBytes f (s.sockets j).bufsize))
  sport : t.cells.sport = Function.update s.cells.sport c f.sourcePort
  rest : t.queue = s.queue ∧ t.calls = s.calls ∧ t.accepted = s.accepted

theorem transferFrame_transfers {s : State} (socket : (s.queue slot).socket = some j)
    (rbuf : (s.sockets j).rbuf = some c) (sender : (s.sockets j).sender = some c)
    (copied : (s.sockets j).copied = some c) (sport : (s.sockets j).sport = some c)
    (receives : (s.sockets j).receiveComplete = some sem) :
    Transfers slot f j c sem s (transferFrame slot f s) := by
  unfold transferFrame
  rw [socket]
  simp only [rbuf,sender,copied,sport,receives,storeAt]
  exact ⟨by simp [networkFreeFrame,receives],rfl,rfl,rfl,rfl,rfl,rfl,rfl,rfl⟩

theorem Served.opened (served : Served h) (registered : Registered h j c) :
    ∃ sem, (h.state.sockets j).receiveComplete = some sem := by
  cases receives : (h.state.sockets j).receiveComplete with
  | some sem => exact ⟨sem,rfl⟩
  | none =>
    have protocol := registered.protocol
    rw [(served.closed j).mpr receives] at protocol
    contradiction

theorem Served.transfer (served : Served h) (rbuf : (h.state.sockets j).rbuf = some c)
    (receives : (h.state.sockets j).receiveComplete = some sem)
    (transfers : Transfers slot f j c sem h.state t) {phase : Service} (calm : ∀ i g, phase ≠ .transfer i g)
    (d : Delivery) (mine : d.call = c) :
    Served { h with state := { t with service := phase }, deliveries := d :: h.deliveries } := by
  obtain ⟨sockets,semaphores,-,-,-,-,-,calls,-⟩ := transfers
  have here : t.sockets j = { h.state.sockets j with
      rbuf := none, bufsize := 0, sender := none, copied := none, sport := none } := by
    rw [sockets,Function.update_self]
  have others : ∀ k, k ≠ j → t.sockets k = h.state.sockets k := fun k apart => by
    rw [sockets,Function.update_of_ne apart]
  have complete : ∀ k, (t.sockets k).receiveComplete = (h.state.sockets k).receiveComplete := by
    intro k
    by_cases same : k = j
    · subst same; rw [here]
    · rw [others k same]
  have count : ∀ k, pending { t with service := phase } k = pending h.state k := by
    intro k; simp only [pending,calls]
  have registered := served.registered j c rbuf
  refine ⟨?_,?_,?_,?_,?_,served.once,?_,?_⟩
  · simpa only [complete] using served.semaphores
  · intro k
    change (t.sockets k).protocol = 0 ↔ (t.sockets k).receiveComplete = none
    rw [complete]
    by_cases same : k = j
    · subst same; rw [here]; exact served.closed k
    · rw [others k same]; exact served.closed k
  · intro k x there
    change (t.sockets k).receiveComplete = some x at there
    rw [complete] at there
    have before := served.balance k x there
    change pending { t with service := phase } k = t.semaphores x + if (t.sockets k).rbuf.isSome then 1 else 0
    rw [count,before,semaphores]
    by_cases same : k = j
    · subst same
      obtain rfl : sem = x := Option.some.inj (receives.symm.trans there)
      simp [here,rbuf]
    · have apart : x ≠ sem := by rintro rfl; exact same (served.semaphores _ _ _ there receives)
      simp [others k same,apart]
  · intro k shut
    change (t.sockets k).receiveComplete = none at shut
    rw [complete] at shut
    have apart : k ≠ j := by rintro rfl; rw [receives] at shut; contradiction
    obtain ⟨none_,free⟩ := served.idle k shut
    exact ⟨by rw [count]; exact none_,by rw [show _ = _ from others k apart]; exact free⟩
  · intro k e waits
    change (t.sockets k).rbuf = some e at waits
    have apart : k ≠ j := by rintro rfl; rw [here] at waits; contradiction
    rw [others k apart] at waits
    obtain ⟨protocol,sender,copied,sport,started,undelivered⟩ := served.registered k e waits
    have same := others k apart
    refine ⟨by simpa [same] using protocol,by simpa [same] using sender,by simpa [same] using copied,
      by simpa [same] using sport,by simpa [same] using started,?_⟩
    intro g member
    rcases List.mem_cons.mp member with rfl | old
    · -- a call is registered on one socket only
      rw [mine]
      rintro rfl
      have clash := List.inj_on_of_nodup_map served.once started registered.started rfl
      exact apart (congrArg Start.socket clash)
    · exact undelivered g old
  · intro g member
    rcases List.mem_cons.mp member with rfl | old
    · exact ⟨_,registered.started,mine.symm⟩
    · exact served.delivered g old
  · intro i g at_
    exact absurd at_ (calm i g)

/-! ### Opening and closing -/

structure Binds (i : SocketIndex) (protocol : UInt8) (port : UInt16) (sem : Nat) (s t : State) : Prop where
  unused : (s.sockets i).protocol = 0
  proper : protocol ≠ 0
  sockets : t.sockets = Function.update s.sockets i { s.sockets i with
    receiveComplete := some sem, port := port, protocol := protocol
    rbuf := none, bufsize := 0, sender := none, copied := none }
  semaphores : t.semaphores = Function.update s.semaphores sem 0
  rest : t.queue = s.queue ∧ t.service = s.service ∧ t.calls = s.calls ∧ t.cells = s.cells ∧
    t.accepted = s.accepted

/-- `socket_open` binds an unused entry or, but for a pointer that is already null, does nothing. -/
theorem socketOpen_cases {s t : State} (returned : socketOpen protocol port sem s = some (result, t)) :
    (result = none ∧ (t = s ∨ ∃ i, (s.sockets i).protocol = 0 ∧
      t = { s with sockets := Function.update s.sockets i { s.sockets i with receiveComplete := none } })) ∨
    ∃ i p x, result = some i ∧ sem = some x ∧ Binds i protocol p x s t := by
  unfold socketOpen at returned
  split at returned
  · cases returned; exact .inl ⟨rfl,.inl rfl⟩
  next known =>
  split at returned
  · cases returned; exact .inl ⟨rfl,.inl rfl⟩
  next i found =>
  have unused : (s.sockets i).protocol = 0 := by simpa using List.find?_some found
  obtain ⟨chosen,-,bound⟩ := Option.map_eq_some_iff.mp returned
  cases chosen with
  | none => cases bound; exact .inl ⟨rfl,.inl rfl⟩
  | some p =>
    cases sem with
    | none => cases bound; exact .inl ⟨rfl,.inr ⟨i,unused,rfl⟩⟩
    | some x =>
      cases bound
      refine .inr ⟨i,p,x,rfl,rfl,unused,?_,rfl,rfl,rfl,rfl,rfl,rfl,rfl⟩
      rintro rfl
      exact known ⟨by decide,by decide⟩

theorem Served.bind (served : Served h) (binds : Binds i protocol port sem h.state t)
    (fresh : ∀ j, (h.state.sockets j).receiveComplete ≠ some sem) : Served { h with state := t } := by
  obtain ⟨unused,proper,sockets,semaphores,queue,service,calls,-,-⟩ := binds
  have shut := (served.closed i).mp unused
  obtain ⟨none_,free⟩ := served.idle i shut
  have here : t.sockets i = { h.state.sockets i with
      receiveComplete := some sem, port := port, protocol := protocol
      rbuf := none, bufsize := 0, sender := none, copied := none } := by
    rw [sockets,Function.update_self]
  have others : ∀ j, j ≠ i → t.sockets j = h.state.sockets j := fun j apart => by
    rw [sockets,Function.update_of_ne apart]
  have count : ∀ j, pending t j = pending h.state j := fun j => by simp only [pending,calls]
  refine ⟨?_,?_,?_,?_,?_,served.once,served.delivered,?_⟩
  · intro j k x first second
    by_cases one : j = i <;> by_cases two : k = i
    · rw [one,two]
    · subst one
      rw [here] at first
      cases first
      exact absurd (others k two ▸ second) (fresh k)
    · subst two
      rw [here] at second
      cases second
      exact absurd (others j one ▸ first) (fresh j)
    · exact served.semaphores j k x (others j one ▸ first) (others k two ▸ second)
  · intro j
    by_cases same : j = i
    · subst same
      rw [here]
      exact iff_of_false proper (by simp)
    · rw [others j same]
      exact served.closed j
  · intro j x there
    rw [count,semaphores]
    by_cases same : j = i
    · subst same
      rw [here] at there
      cases there
      simp [here,none_]
    · rw [others j same] at there ⊢
      have apart : x ≠ sem := by rintro rfl; exact fresh j there
      rw [Function.update_of_ne apart]
      exact served.balance j x there
  · intro j closed
    have apart : j ≠ i := by rintro rfl; rw [here] at closed; contradiction
    rw [others j apart] at closed ⊢
    rw [count]
    exact served.idle j closed
  · intro j c waits
    have apart : j ≠ i := by rintro rfl; rw [here] at waits; contradiction
    have same := others j apart
    rw [same] at waits
    obtain ⟨protocol,sender,copied,sport,started,undelivered⟩ := served.registered j c waits
    exact ⟨by simpa [same] using protocol,by simpa [same] using sender,by simpa [same] using copied,
      by simpa [same] using sport,by simpa [same] using started,undelivered⟩
  · refine served.transferring.keep queue service fun j c waits => ?_
    have apart : j ≠ i := by rintro rfl; rw [free] at waits; contradiction
    rwa [others j apart]

theorem Served.close (served : Served h) (unused : (h.state.calls.any fun c => c.socket == i) = false) :
    Served { h with state := socketClose i h.state } := by
  unfold socketClose
  split
  · exact served
  next open_ =>
  obtain ⟨sem,receives⟩ : ∃ sem, (h.state.sockets i).receiveComplete = some sem :=
    Option.ne_none_iff_exists'.mp (by simpa using open_)
  have none_ : pending h.state i = 0 := by
    refine List.countP_eq_zero.mpr fun c member => ?_
    have apart := List.any_eq_false.mp unused c member
    simpa using apart
  have free : (h.state.sockets i).rbuf = none := by
    have before := served.balance i sem receives
    rw [none_] at before
    cases rbuf : (h.state.sockets i).rbuf with
    | none => rfl
    | some c => rw [rbuf] at before; simp at before
  set sock : Socket := { h.state.sockets i with
    port := 0, protocol := 0, rbuf := none, bufsize := 0, sender := none, copied := none
    receiveComplete := none } with cleared
  have others : ∀ j, j ≠ i → Function.update h.state.sockets i sock j = h.state.sockets j :=
    fun j apart => Function.update_of_ne apart _ _
  refine ⟨?_,?_,?_,?_,?_,served.once,served.delivered,?_⟩
  · intro j k x first second
    have one : j ≠ i := by rintro rfl; simp [cleared] at first
    have two : k ≠ i := by rintro rfl; simp [cleared] at second
    exact served.semaphores j k x (others j one ▸ first) (others k two ▸ second)
  · intro j
    by_cases same : j = i
    · subst same; simp [cleared]
    · simpa only [others j same] using served.closed j
  · intro j x there
    have apart : j ≠ i := by rintro rfl; simp [cleared] at there
    simp only [others j apart] at there ⊢
    exact served.balance j x there
  · intro j closed
    by_cases same : j = i
    · subst same; exact ⟨none_,by simp [cleared]⟩
    · simp only [others j same] at closed ⊢
      exact served.idle j closed
  · intro j c waits
    have apart : j ≠ i := by rintro rfl; simp [cleared] at waits
    have same := others j apart
    simp only [same] at waits
    obtain ⟨protocol,sender,copied,sport,started,undelivered⟩ := served.registered j c waits
    exact ⟨by simpa [same] using protocol,by simpa [same] using sender,by simpa [same] using copied,
      by simpa [same] using sport,by simpa [same] using started,undelivered⟩
  · refine served.transferring.keep rfl rfl fun j c waits => ?_
    have apart : j ≠ i := by rintro rfl; rw [free] at waits; contradiction
    simpa only [others j apart] using waits

/-! ### Everything a step can do -/

/-- A step that moves no packet and concerns no socket. -/
structure Calm (s t : State) : Prop where
  service : t.service = s.service ∨ s.service = .sleep ∧ t.service = .scan
  rest : t.queue = s.queue ∧ t.sockets = s.sockets ∧ t.calls = s.calls ∧ t.semaphores = s.semaphores ∧
    t.cells = s.cells ∧ t.accepted = s.accepted

inductive Moves (a : Action) (h : History) : History → Prop
  | calm (t : State) (calm : Calm h.state t) : Moves a h { h with state := t }
  | push (fromaddr : UInt32) (frame : Frame) (now later : UInt32) (fresh : frame.id ∉ h.state.accepted) :
    Moves a h { h with state := (popPushFrame fromaddr frame now later h.state).2 }
  | scan (service : h.state.service = .scan) : Moves a h { h with state := { h.state with
      queue := (scanSlots h.state.sockets (List.finRange configPopQueueSize) h.state.queue).1
      service := (scanSlots h.state.sockets (List.finRange configPopQueueSize) h.state.queue).2 } }
  | discard (slot : SlotIndex) (f : Frame) (service : h.state.service = .discard slot f) :
    Moves a h { h with state := { clearSlot slot (networkFreeFrame f h.state) with service := .scan } }
  | finish (slot : SlotIndex) (f : Frame) (service : h.state.service = .finish slot f) :
    Moves a h { h with state := { clearSlot slot h.state with service := .scan } }
  | register (t : State) (call : Nat) (i : SocketIndex) (n : UInt32) (mine : a = .recvfrom call i n)
    (registers : Registers call i n h.state t) (fresh : ∀ b ∈ h.starts, b.call ≠ call)
    (absent : ∀ c ∈ h.state.calls, c.id ≠ call) :
    Moves a h { h with state := t, starts := ⟨call, i, (h.state.sockets i).port, n⟩ :: h.starts }
  | signal (call : Call) (member : call ∈ h.state.calls) (n : Nat) : Moves a h { h with state := { h.state with
      calls := ⟨call.id, call.socket, .wait⟩ :: h.state.calls.erase call
      serviceSem := n } }
  | complete (call : Call) (sem : Nat) (member : call ∈ h.state.calls)
    (receives : (h.state.sockets call.socket).receiveComplete = some sem)
    (signalled : h.state.semaphores sem ≠ 0) : Moves a h { h with
      state := { h.state with
        calls := h.state.calls.erase call
        semaphores := Function.update h.state.semaphores sem (h.state.semaphores sem - 1) }
      returns := call.id :: h.returns }
  | transfer (t : State) (slot : SlotIndex) (f : Frame) (j : SocketIndex) (c sem : Nat)
    (service : h.state.service = .transfer slot f) (socket : (h.state.queue slot).socket = some j)
    (rbuf : (h.state.sockets j).rbuf = some c) (receives : (h.state.sockets j).receiveComplete = some sem)
    (transfers : Transfers slot f j c sem h.state t) : Moves a h { h with
      state := { t with service := .finish slot f }
      deliveries := ⟨c, f, (h.state.queue slot).sender⟩ :: h.deliveries }
  | bind (t : State) (i : SocketIndex) (protocol : UInt8) (given port : UInt16) (sem : Nat)
    (mine : a = .open protocol given (some sem))
    (returned : socketOpen protocol given (some sem) h.state = some (some i, t))
    (binds : Binds i protocol port sem h.state t)
    (fresh : ∀ j, (h.state.sockets j).receiveComplete ≠ some sem) : Moves a h { h with state := t }
  | close (i : SocketIndex) (unused : (h.state.calls.any fun c => c.socket == i) = false) :
    Moves a h { h with state := socketClose i h.state }

theorem historyStep_moves (served : Served h) (next : historyStep a h = some g) : Moves a h g := by
  unfold historyStep at next
  split at next
  case isFalse => contradiction
  next admissible =>
  obtain ⟨t,stepped,rfl⟩ := Option.map_eq_some_iff.mp next
  cases step_stepped stepped with
  | push fromaddr frame now later fresh => exact .push fromaddr frame now later fresh
  | pushSignal => exact .calm _ ⟨.inl rfl,rfl,rfl,rfl,rfl,rfl,rfl⟩
  | serviceScan service => exact .scan service
  | serviceDiscard slot f service => exact .discard slot f service
  | serviceTransfer slot f service =>
    obtain ⟨-,-,j,c,socket,rbuf⟩ := served.transferring slot f service
    have registered := served.registered j c rbuf
    obtain ⟨sem,receives⟩ := served.opened registered
    have transfers : Transfers slot f j c sem h.state (transferFrame slot f h.state) :=
      transferFrame_transfers socket rbuf registered.sender registered.copied registered.sport receives
    have moved := Moves.transfer (a := .serviceTransfer) _ slot f j c sem service socket rbuf receives transfers
    simpa [record,service,delivery,socket,rbuf] using moved
  | serviceFinish slot f service => exact .finish slot f service
  | serviceSleep service => exact .calm _ ⟨.inr ⟨service,rfl⟩,rfl,rfl,rfl,rfl,rfl,rfl⟩
  | register t call i n absent returned =>
    simp only [record,returned,Option.isSome_some,if_true]
    exact .register t call i n rfl (socketRecvfrom_registers returned) admissible absent
  | refuse call i n returned =>
    simp only [record,returned,Option.isSome_none,Bool.false_eq_true,if_false]
    exact .calm _ ⟨.inl rfl,rfl,rfl,rfl,rfl,rfl,rfl⟩
  | recvSignal call member => exact .signal call member _
  | recvComplete call sem member _ receives signalled => exact .complete call sem member receives signalled
  | «open» t protocol given sem result returned =>
    rcases socketOpen_cases returned with ⟨-,rfl | ⟨i,unused,rfl⟩⟩ | ⟨i,port,x,rfl,rfl,binds⟩
    · exact .calm _ ⟨.inl rfl,rfl,rfl,rfl,rfl,rfl,rfl⟩
    · have shut := (served.closed i).mp unused
      have same : { h.state.sockets i with receiveComplete := none } = h.state.sockets i := by rw [← shut]
      refine .calm _ ⟨.inl rfl,rfl,?_,rfl,rfl,rfl,rfl⟩
      simp only [same,Function.update_eq_self]
    · exact .bind t i protocol given port x rfl returned binds admissible
  | close i unused => exact .close i (by simpa using unused)

theorem Moves.served (moves : Moves a h g) (served : Served h) : Served g := by
  cases moves with
  | calm t calm =>
    obtain ⟨service,queue,sockets,calls,semaphores,-,-⟩ := calm
    refine served.keep sockets calls semaphores ?_
    rcases service with same | ⟨-,scan⟩
    · exact served.transferring.keep queue same fun j c waits => by rwa [sockets]
    · intro i f at_; rw [scan] at at_; contradiction
  | push fromaddr frame now later => exact served.push fromaddr frame now later
  | scan => exact served.scan
  | discard slot f => exact served.clear slot rfl rfl rfl
  | finish slot f => exact served.clear slot rfl rfl rfl
  | register t call i n _ registers fresh => exact served.register registers fresh
  | signal call member n => exact served.signal member n
  | complete call sem member receives signalled => exact served.complete member receives signalled
  | transfer t slot f j c sem service socket rbuf receives transfers =>
    exact served.transfer rbuf receives transfers (by simp) _ rfl
  | bind t i protocol given port sem _ _ binds fresh => exact served.bind binds fresh
  | close i unused => exact served.close unused

theorem historyStep_served (served : Served h) (next : historyStep a h = some g) : Served g :=
  (historyStep_moves served next).served served

end Steps

end Buenos.Net.Pop
