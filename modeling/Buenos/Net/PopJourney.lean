import Buenos.Net.PopQuiet
import Mathlib.Algebra.BigOperators.Group.List.Basic

/-! The way of the only packet in the queue to the one receive on its port. -/
namespace Buenos.Net.Pop

open Buenos.Foundation

/-! ### The journey -/

section Journey
variable (t : SocketIndex) (call n : Nat) (slot : SlotIndex) (f : Frame) (before : List Nat)

/-- The packet waits for its receive or is about to be transferred. -/
structure Queued (h : History) : Prop where
  held : Holds h.state slot f
  sender : (h.state.queue slot).sender = 0
  socket : (h.state.queue slot).socket = none ∨ (h.state.queue slot).socket = some t
  freed : h.state.freed = before
  service : h.state.service = .scan ∨ h.state.service = .sleep ∨ h.state.service = .transfer slot f
  registered : ∀ c, (h.state.sockets t).rbuf = some c →
    c = call ∧ n ≤ (h.state.sockets t).bufsize.toNat ∧ ∃ phase, ⟨call, t, phase⟩ ∈ h.state.calls
  unstarted : (h.state.sockets t).rbuf = none → ∀ b ∈ h.starts, b.call ≠ call
  silent : ∀ sem, (h.state.sockets t).receiveComplete = some sem → h.state.semaphores sem = 0
  unreturned : call ∉ h.returns

structure Delivered (h : History) : Prop where
  freed : h.state.freed = f.id :: before
  idle : (h.state.sockets t).rbuf = none
  buffer : h.state.cells.buffer call = (List.range n).map f.body
  sender : h.state.cells.sender call = 0
  length : h.state.cells.length call = some n
  sport : h.state.cells.sport call = f.sourcePort
  service : (h.state.service = .finish slot f ∧ Holds h.state slot f) ∨
    ((h.state.queue slot).frame = none ∧ (h.state.service = .scan ∨ h.state.service = .sleep))
  started : ∃ b ∈ h.starts, b.call = call
  outcome : call ∈ h.returns ∨ ∃ phase, ⟨call, t, phase⟩ ∈ h.state.calls

/-- The socket stays open, and there is no other packet. -/
structure Journey (h : History) : Prop where
  protocol : (h.state.sockets t).protocol = protocolPop
  port : (h.state.sockets t).port = f.destPort
  alone : ∀ i, i ≠ slot → (h.state.queue i).frame = none
  phase : Queued t call n slot f before h ∨ Delivered t call n slot f before h

variable {t call n slot f before} {h : History}

theorem Queued.keep (queued : Queued t call n slot f before h) {s : State} (queue : s.queue slot = h.state.queue slot)
    (sockets : s.sockets t = h.state.sockets t) (freed : s.freed = h.state.freed)
    (service : s.service = h.state.service ∨ h.state.service = .sleep ∧ s.service = .scan)
    (calls : ∀ phase, ⟨call, t, phase⟩ ∈ h.state.calls → ∃ phase, ⟨call, t, phase⟩ ∈ s.calls)
    (silent : ∀ sem, (h.state.sockets t).receiveComplete = some sem → s.semaphores sem = h.state.semaphores sem)
    (starts : ∀ b ∈ starts', b ∈ h.starts ∨ b.call ≠ call) (returns : call ∈ returns' → call ∈ h.returns)
    (deliveries : List Delivery) : Queued t call n slot f before ⟨s,starts',deliveries,returns'⟩ := by
  refine ⟨?_,?_,?_,?_,?_,?_,?_,?_,?_⟩
  · exact (congrArg Slot.frame queue).trans queued.held
  · exact (congrArg Slot.sender queue).trans queued.sender
  · simp only [queue]
    exact queued.socket
  · exact freed.trans queued.freed
  · obtain same | ⟨_,scan⟩ := service
    · simp only [same]
      exact queued.service
    · exact .inl scan
  · intro c waits
    simp only [sockets] at waits ⊢
    obtain ⟨mine,room,phase,member⟩ := queued.registered c waits
    exact ⟨mine,room,calls phase member⟩
  · intro free b member
    simp only [sockets] at free
    obtain old | other := starts b member
    · exact queued.unstarted free b old
    · exact other
  · intro sem receives
    simp only [sockets] at receives
    exact (silent sem receives).trans (queued.silent sem receives)
  · exact fun gone => queued.unreturned (returns gone)

theorem Delivered.keep (delivered : Delivered t call n slot f before h) {s : State}
    (queue : s.queue slot = h.state.queue slot) (sockets : s.sockets t = h.state.sockets t)
    (freed : s.freed = h.state.freed) (cells : s.cells = h.state.cells)
    (service : s.service = h.state.service ∨ h.state.service = .sleep ∧ s.service = .scan)
    (starts : ∀ b ∈ h.starts, b ∈ starts')
    (outcome : call ∈ h.returns ∨ (∃ phase, ⟨call, t, phase⟩ ∈ h.state.calls) →
      call ∈ returns' ∨ ∃ phase, ⟨call, t, phase⟩ ∈ s.calls)
    (deliveries : List Delivery) : Delivered t call n slot f before ⟨s,starts',deliveries,returns'⟩ := by
  obtain ⟨freed',idle,buffer,sender,length,sport,service',⟨b,member,mine⟩,outcome'⟩ := delivered
  refine ⟨freed.trans freed',?_,?_,?_,?_,?_,?_,⟨b,starts b member,mine⟩,outcome outcome'⟩
  · simp only [sockets]
    exact idle
  · simp only [cells]
    exact buffer
  · simp only [cells]
    exact sender
  · simp only [cells]
    exact length
  · simp only [cells]
    exact sport
  · simp only [queue,Holds]
    obtain same | ⟨sleeps,scan⟩ := service
    · rw [same]
      exact service'
    · obtain ⟨finish,_⟩ | ⟨none,_⟩ := service'
      · rw [sleeps] at finish
        contradiction
      · exact .inr ⟨none,.inl scan⟩

theorem Journey.keep (journey : Journey t call n slot f before h) {s : State} (queue : s.queue = h.state.queue)
    (sockets : s.sockets t = h.state.sockets t) (freed : s.freed = h.state.freed) (cells : s.cells = h.state.cells)
    (service : s.service = h.state.service ∨ h.state.service = .sleep ∧ s.service = .scan)
    (calls : ∀ phase, ⟨call, t, phase⟩ ∈ h.state.calls → ∃ phase, ⟨call, t, phase⟩ ∈ s.calls)
    (silent : ∀ sem, (h.state.sockets t).receiveComplete = some sem → s.semaphores sem = h.state.semaphores sem)
    (starts : ∀ b ∈ h.starts, b ∈ starts') (new : ∀ b ∈ starts', b ∈ h.starts ∨ b.call ≠ call)
    (deliveries : List Delivery) : Journey t call n slot f before ⟨s,starts',deliveries,h.returns⟩ := by
  obtain ⟨protocol,port,alone,phase⟩ := journey
  refine ⟨?_,?_,?_,?_⟩
  · simpa only [sockets] using protocol
  · simpa only [sockets] using port
  · simpa only [queue] using alone
  · obtain queued | delivered := phase
    · exact .inl (queued.keep (congrFun queue slot) sockets freed service calls silent new id deliveries)
    · refine .inr (delivered.keep (congrFun queue slot) sockets freed cells service starts ?_ deliveries)
      exact Or.imp_right fun ⟨phase,member⟩ => calls phase member

theorem Journey.scan (journey : Journey t call n slot f before h) (apart : PortsApart h.state)
    (service : h.state.service = .scan) :
    Journey t call n slot f before { h with state := { h.state with
      queue := (scanSlots h.state.sockets (List.finRange configPopQueueSize) h.state.queue).1
      service := (scanSlots h.state.sockets (List.finRange configPopQueueSize) h.state.queue).2 } } := by
  obtain ⟨protocol,port,alone,queued | delivered⟩ := journey
  · have socket : slotSocket h.state.sockets (h.state.queue slot) f = some t := by
      rw [slotSocket]
      obtain none | known := queued.socket
      · rw [none,Option.none_or]
        exact recipient_eq apart protocol port
      · rw [known]
        rfl
    have scanned := scanSlots_one h.state.sockets (List.finRange configPopQueueSize) h.state.queue
      (List.mem_finRange slot) (List.nodup_finRange _) (fun i _ => alone i) queued.held socket protocol
    obtain ⟨held,sender,_,freed,_,registered,unstarted,silent,unreturned⟩ := queued
    rw [scanned]
    split
    · refine ⟨protocol,port,fun i other => ?_,.inl ⟨?_,?_,?_,freed,?_,registered,unstarted,silent,unreturned⟩⟩
      · simpa [other] using alone i other
      · simpa [Holds] using held
      · simpa using sender
      · simp
      · exact .inr (.inr rfl)
    · refine ⟨protocol,port,fun i other => ?_,.inl ⟨?_,?_,?_,freed,?_,registered,unstarted,silent,unreturned⟩⟩
      · simpa [other] using alone i other
      · simpa [Holds] using held
      · simpa using sender
      · simp
      · exact .inr (.inl rfl)
  · have empty : ∀ i ∈ List.finRange configPopQueueSize, (h.state.queue i).frame = none := by
      intro i _
      by_cases here : i = slot
      · subst here
        obtain ⟨finish,_⟩ | ⟨none,_⟩ := delivered.service
        · rw [service] at finish
          contradiction
        · exact none
      · exact alone i here
    rw [scanSlots_none h.state.sockets _ h.state.queue empty]
    obtain ⟨freed,idle,buffer,sender,length,sport,_,started,outcome⟩ := delivered
    exact ⟨protocol,port,alone,.inr ⟨freed,idle,buffer,sender,length,sport,
      .inr ⟨empty slot (List.mem_finRange slot),.inr rfl⟩,started,outcome⟩⟩

theorem Journey.register (journey : Journey t call n slot f before h) {s : State}
    (registers : Registers c i b h.state s) (fresh : ∀ b ∈ h.starts, b.call ≠ c)
    (quiet : c = call ∧ i = t ∧ n ≤ b.toNat ∨ c ≠ call ∧ i ≠ t) (freed : s.freed = h.state.freed) (port : UInt16) :
    Journey t call n slot f before { h with state := s, starts := ⟨c, i, port, b⟩ :: h.starts } := by
  obtain ⟨pop,free,sockets,calls,queue,service,semaphores,cells,_⟩ := registers
  obtain ⟨rfl,rfl,room⟩ | ⟨other,apart⟩ := quiet
  · obtain ⟨protocol,address,alone,queued | delivered⟩ := journey
    · have here : s.sockets i = { h.state.sockets i with
          rbuf := some c, bufsize := b, sender := some c, copied := some c, sport := some c } := by
        rw [sockets,Function.update_self]
      refine ⟨?_,?_,?_,.inl ⟨?_,?_,?_,freed.trans queued.freed,?_,?_,?_,?_,queued.unreturned⟩⟩
      · simpa only [here] using protocol
      · simpa only [here] using address
      · simpa only [queue] using alone
      · simpa only [Holds,queue] using queued.held
      · simpa only [queue] using queued.sender
      · simpa only [queue] using queued.socket
      · simpa only [service] using queued.service
      · intro d waits
        simp only [here,Option.some.injEq] at waits ⊢
        refine ⟨waits.symm,room,.signal,?_⟩
        rw [calls]
        exact List.mem_cons_self
      · intro none
        simp only [here] at none
        contradiction
      · intro sem receives
        simp only [here] at receives
        simp only [semaphores]
        exact queued.silent sem receives
    · obtain ⟨d,member,mine⟩ := delivered.started
      exact absurd mine (fresh d member)
  · apply journey.keep queue _ freed cells (.inl service)
    · intro phase member
      refine ⟨phase,?_⟩
      rw [calls]
      exact List.mem_cons_of_mem _ member
    · intro sem _
      rw [semaphores]
    · exact fun d member => List.mem_cons_of_mem _ member
    · intro d member
      rcases List.mem_cons.mp member with rfl | old
      · exact .inr other
      · exact .inl old
    · rw [sockets,Function.update_of_ne (Ne.symm apart)]

/-- While the packet is queued its receive cannot return. -/
theorem Queued.other (queued : Queued t call n slot f before h) (served : Served h) (begun : Begun h)
    (member : c ∈ h.state.calls) (receives : (h.state.sockets c.socket).receiveComplete = some sem)
    (signalled : h.state.semaphores sem ≠ 0) : c.socket ≠ t ∧ c.id ≠ call := by
  have apart : c.socket ≠ t := by
    rintro rfl
    exact signalled (queued.silent sem receives)
  refine ⟨apart,?_⟩
  rintro rfl
  obtain ⟨b,started,mine,on⟩ := begun.started c member
  cases rbuf : (h.state.sockets t).rbuf with
  | none => exact queued.unstarted rbuf b started mine
  | some d =>
    obtain ⟨rfl,_⟩ := queued.registered d rbuf
    have same := List.inj_on_of_nodup_map served.once started (served.registered t _ rbuf).started mine
    rw [same] at on
    exact apart on.symm

theorem Journey.complete (journey : Journey t call n slot f before h) (served : Served h) (begun : Begun h)
    (member : c ∈ h.state.calls) (receives : (h.state.sockets c.socket).receiveComplete = some sem)
    (signalled : h.state.semaphores sem ≠ 0) :
    Journey t call n slot f before { h with
      state := { h.state with
        calls := h.state.calls.erase c
        semaphores := Function.update h.state.semaphores sem (h.state.semaphores sem - 1) }
      returns := c.id :: h.returns } := by
  obtain ⟨protocol,address,alone,queued | delivered⟩ := journey
  · obtain ⟨apart,other⟩ := queued.other served begun member receives signalled
    refine ⟨protocol,address,alone,.inl ?_⟩
    apply queued.keep
    · rfl
    · rfl
    · rfl
    · exact .inl rfl
    · intro phase inside
      refine ⟨phase,(List.mem_erase_of_ne ?_).mpr inside⟩
      rintro rfl
      exact other rfl
    · intro sem' receives'
      apply Function.update_of_ne
      rintro rfl
      exact apart (served.semaphores _ _ sem' receives receives')
    · exact fun b member => .inl member
    · intro gone
      exact (List.mem_cons.mp gone).resolve_left (Ne.symm other)
  · refine ⟨protocol,address,alone,.inr ?_⟩
    apply delivered.keep
    · rfl
    · rfl
    · rfl
    · rfl
    · exact .inl rfl
    · exact fun b member => member
    · rintro (gone | ⟨phase,inside⟩)
      · exact .inl (List.mem_cons_of_mem _ gone)
      · by_cases same : (⟨call, t, phase⟩ : Call) = c
        · subst same
          exact .inl List.mem_cons_self
        · exact .inr ⟨phase,(List.mem_erase_of_ne same).mpr inside⟩

theorem Journey.signal (journey : Journey t call n slot f before h) {c : Call} (member : c ∈ h.state.calls) (k : Nat) :
    Journey t call n slot f before { h with state := { h.state with
      calls := ⟨c.id, c.socket, .wait⟩ :: h.state.calls.erase c
      serviceSem := k } } := by
  apply journey.keep
  · rfl
  · rfl
  · rfl
  · rfl
  · exact .inl rfl
  · intro phase inside
    by_cases same : (⟨call, t, phase⟩ : Call) = c
    · subst same
      exact ⟨.wait,List.mem_cons_self⟩
    · exact ⟨phase,List.mem_cons_of_mem _ ((List.mem_erase_of_ne same).mpr inside)⟩
  · exact fun _ _ => rfl
  · exact fun b member => member
  · exact fun b member => .inl member

theorem Queued.transfer (queued : Queued t call n slot f before h) (served : Served h) (size : f.size.toNat = n)
    (socket : (h.state.queue slot).socket = some j) (rbuf : (h.state.sockets j).rbuf = some c) {s : State}
    (transfers : Transfers slot f j c sem h.state s)
    (freed : s.freed = f.id :: h.state.freed) (deliveries : List Delivery) :
    Delivered t call n slot f before ⟨{ s with service := .finish slot f },h.starts,deliveries,h.returns⟩ := by
  obtain rfl : t = j := by
    obtain none | known := queued.socket
    · rw [none] at socket
      contradiction
    · exact Option.some.inj (known.symm.trans socket)
  obtain ⟨rfl,room,phase,member⟩ := queued.registered c rbuf
  have copied : copiedBytes f (h.state.sockets t).bufsize = n := by
    rw [copiedBytes,if_neg]
    · exact size
    · rw [gt_iff_lt,UInt32.lt_iff_toNat_lt]
      omega
  obtain ⟨sockets,semaphores,buffer,sender,length,sport,queue,calls,_⟩ := transfers
  rw [copied] at buffer length
  refine ⟨?_,?_,?_,?_,?_,?_,.inl ⟨rfl,?_⟩,⟨_,(served.registered t c rbuf).started,rfl⟩,.inr ⟨phase,?_⟩⟩
  · rw [freed,queued.freed]
  · simp only [sockets,Function.update_self]
  · simp only [buffer,Function.update_self]
  · simp only [sender,Function.update_self]
    exact queued.sender
  · simp only [length,Function.update_self]
  · simp only [sport,Function.update_self]
  · simp only [Holds,queue]
    exact queued.held
  · simp only [calls]
    exact member

theorem Journey.service (journey : Journey t call n slot f before h) :
    (h.state.service = .scan ∨ h.state.service = .sleep) ∨
      (Queued t call n slot f before h ∧ h.state.service = .transfer slot f) ∨
      (Delivered t call n slot f before h ∧ h.state.service = .finish slot f) := by
  obtain queued | delivered := journey.phase
  · rcases queued.service with scan | sleep | transfer
    · exact .inl (.inl scan)
    · exact .inl (.inr sleep)
    · exact .inr (.inl ⟨queued,transfer⟩)
  · obtain ⟨finish,_⟩ | ⟨_,idle⟩ := delivered.service
    · exact .inr (.inr ⟨delivered,finish⟩)
    · exact .inl idle

theorem Journey.never_discards (journey : Journey t call n slot f before h) : h.state.service ≠ .discard i k := by
  intro discard
  rcases journey.service with (other | other) | ⟨_,other⟩ | ⟨_,other⟩ <;>
    · rw [discard] at other
      contradiction

theorem Journey.transferring (journey : Journey t call n slot f before h) (service : h.state.service = .transfer i k) :
    Queued t call n slot f before h ∧ slot = i ∧ f = k := by
  rcases journey.service with (other | other) | ⟨queued,other⟩ | ⟨_,other⟩ <;> rw [service] at other
  · contradiction
  · contradiction
  · cases other
    exact ⟨queued,rfl,rfl⟩
  · contradiction

theorem Journey.finishing (journey : Journey t call n slot f before h) (service : h.state.service = .finish i k) :
    Delivered t call n slot f before h ∧ slot = i ∧ f = k := by
  rcases journey.service with (other | other) | ⟨_,other⟩ | ⟨delivered,other⟩ <;> rw [service] at other
  · contradiction
  · contradiction
  · contradiction
  · cases other
    exact ⟨delivered,rfl,rfl⟩

theorem Journey.finish (journey : Journey t call n slot f before h) (service : h.state.service = .finish i k) :
    Journey t call n slot f before { h with state := { clearSlot i h.state with service := .scan } } := by
  obtain ⟨delivered,rfl,rfl⟩ := journey.finishing service
  obtain ⟨freed,idle,buffer,sender,length,sport,_,started,outcome⟩ := delivered
  refine ⟨journey.protocol,journey.port,?_,.inr ⟨freed,idle,buffer,sender,length,sport,.inr ⟨?_,.inl rfl⟩,started,outcome⟩⟩
  · intro j other
    simpa [clearSlot,other] using journey.alone j other
  · simp [clearSlot]

theorem Journey.transfer (journey : Journey t call n slot f before h) (served : Served h) (size : f.size.toNat = n)
    (service : h.state.service = .transfer i k) (socket : (h.state.queue i).socket = some j)
    (rbuf : (h.state.sockets j).rbuf = some c) {s : State} (transfers : Transfers i k j c sem h.state s)
    (protocol : (s.sockets t).protocol = protocolPop) (freed : s.freed = k.id :: h.state.freed)
    (deliveries : List Delivery) :
    Journey t call n slot f before ⟨{ s with service := .finish i k },h.starts,deliveries,h.returns⟩ := by
  obtain ⟨queued,rfl,rfl⟩ := journey.transferring service
  refine ⟨protocol,?_,?_,.inr (queued.transfer served size socket rbuf transfers freed deliveries)⟩
  · simp only [transfers.sockets]
    by_cases same : t = j
    · subst same
      simpa using journey.port
    · simpa [same] using journey.port
  · simpa only [transfers.rest.1] using journey.alone

theorem Journey.bind (journey : Journey t call n slot f before h) {s : State} (binds : Binds i p q sem h.state s)
    (fresh : ∀ j, (h.state.sockets j).receiveComplete ≠ some sem) (freed : s.freed = h.state.freed) :
    Journey t call n slot f before { h with state := s } := by
  have other : t ≠ i := by
    rintro rfl
    have unused := binds.unused
    rw [journey.protocol] at unused
    contradiction
  obtain ⟨queue,service,calls,cells,_⟩ := binds.rest
  apply journey.keep queue _ freed cells (.inl service)
  · exact fun phase member => ⟨phase,calls ▸ member⟩
  · intro x receives
    rw [binds.semaphores]
    apply Function.update_of_ne
    rintro rfl
    exact fresh t receives
  · exact fun b member => member
  · exact fun b member => .inl member
  · rw [binds.sockets,Function.update_of_ne other]

theorem Journey.close (journey : Journey t call n slot f before h) (i : SocketIndex)
    (opened : ((socketClose i h.state).sockets t).protocol = protocolPop) :
    Journey t call n slot f before { h with state := socketClose i h.state } := by
  obtain ⟨queue,service,_,gone⟩ := socketClose_queue i h.state
  obtain ⟨cells,calls,semaphores⟩ := socketClose_receivers i h.state
  have proper : protocolPop ≠ 0 := by decide
  apply journey.keep queue (socketClose_open (opened ▸ proper)) gone cells (.inl service)
  · exact fun phase member => ⟨phase,calls ▸ member⟩
  · exact fun sem _ => congrFun semaphores sem
  · exact fun b member => member
  · exact fun b member => .inl member

theorem Moves.journey (moves : Moves a h g) (served : Served h) (begun : Begun h) (apart : PortsApart h.state)
    (size : f.size.toNat = n) (quiet : Quiet t call n a) (accepted : g.state.accepted = h.state.accepted)
    (frees : Frees h.state g.state) (protocol : (g.state.sockets t).protocol = protocolPop)
    (journey : Journey t call n slot f before h) :
    Journey t call n slot f before g := by
  cases moves with
  | calm s calm =>
    obtain ⟨service,queue,sockets,calls,semaphores,cells,_⟩ := calm
    apply journey.keep
    · exact queue
    · exact congrFun sockets t
    · obtain same | ⟨sleep,_⟩ := service
      · exact frees.of_service same
      · exact frees.same fun i k transfer => by rw [sleep] at transfer; contradiction
    · exact cells
    · exact service
    · exact fun phase member => ⟨phase,calls ▸ member⟩
    · exact fun sem _ => congrFun semaphores sem
    · exact fun b member => member
    · exact fun b member => .inl member
  | push fromaddr frame now later =>
    unfold popPushFrame at accepted ⊢
    split at accepted
    · exact journey
    · next i taken =>
      rw [(storeFrame_effect i fromaddr frame later h.state).2.2.1] at accepted
      exact absurd accepted (List.cons_ne_self _ _)
  | scan service => exact journey.scan apart service
  | discard i k service => exact absurd service journey.never_discards
  | finish i k service => exact journey.finish service
  | register s c i b mine registers fresh =>
    subst mine
    exact journey.register registers fresh quiet (frees.of_service registers.rest.2.1) _
  | signal c member k => exact journey.signal member k
  | complete c sem member receives signalled => exact journey.complete served begun member receives signalled
  | transfer s i k j c sem service socket rbuf receives transfers =>
    refine journey.transfer served size service socket rbuf transfers protocol ?_ _
    obtain ⟨_,_,transfer,_,gone⟩ | ⟨_,other⟩ := frees
    · rw [service] at transfer
      cases transfer
      exact gone
    · exact absurd rfl (other i k service)
  | bind s i protocol_ given port sem mine returned binds fresh =>
    exact journey.bind binds fresh (frees.of_service binds.rest.2.1)
  | close i => exact journey.close i protocol

end Journey

/-! ### The service thread wakes up -/

section Watched
variable {t : SocketIndex} {call n : Nat} {slot : SlotIndex}

/-- While the service thread is blocked and nobody is about to signal it, nobody receives on `t`
unless the packet is gone. -/
def Watched (t : SocketIndex) (slot : SlotIndex) (s : State) : Prop :=
  Blocked s → s.signals = 0 → (∀ c ∈ s.calls, c.socket = t → c.phase ≠ .signal) →
    (s.queue slot).frame ≠ none → (s.sockets t).rbuf = none

theorem Watched.awake {s : State} (awake : ¬Blocked s) : Watched t slot s := fun blocked => absurd blocked awake

theorem Watched.keep {s s' : State} (watched : Watched t slot s) (blocked : Blocked s' → Blocked s)
    (signals : s'.signals = s.signals)
    (calls : ∀ c ∈ s.calls, c.socket = t → c.phase = .signal → c ∈ s'.calls)
    (queue : s'.queue = s.queue) (rbuf : (s'.sockets t).rbuf = (s.sockets t).rbuf) : Watched t slot s' := by
  intro sleeps quiet none held
  rw [rbuf]
  rw [signals] at quiet
  rw [queue] at held
  exact watched (blocked sleeps) quiet (fun c member on signal => none c (calls c member on signal) on signal) held

theorem step_watched {s s' : State} (watched : Watched t slot s) (next : step a s = some s') (quiet : Quiet t call n a)
    (pop : (s.sockets t).protocol = protocolPop)
    (cached : s'.service = .sleep → (s'.queue slot).frame ≠ none →
      (s'.queue slot).socket = none ∨ (s'.queue slot).socket = some t) : Watched t slot s' := by
  cases step_stepped next with
  | push => exact quiet.elim
  | pushSignal => exact .awake fun blocked => absurd blocked.2 (Nat.succ_ne_zero _)
  | serviceScan =>
    intro blocked _ _ present
    have frames := (scanSlots_spec s.sockets (List.finRange configPopQueueSize) s.queue).1 slot
    simp only [ne_eq,frames] at present
    obtain ⟨f,held⟩ := Option.ne_none_iff_exists'.mp present
    obtain ⟨j,socket,idle⟩ := (scanSlots_sleep s.sockets _ s.queue blocked.1 (List.nodup_finRange _)).2 slot
      (List.mem_finRange slot) f held
    have known := cached blocked.1 (by simp only [frames]; exact present)
    simp only [socket] at known
    obtain none | same := known
    · contradiction
    · cases same
      exact idle
  | serviceDiscard | serviceTransfer | serviceFinish | serviceSleep =>
    apply Watched.awake
    intro blocked
    cases blocked.1
  | register after c i buflength _ returned =>
    unfold socketRecvfrom at returned
    split at returned <;> cases returned
    by_cases same : i = t
    · subst same
      intro _ _ none
      exact absurd rfl (none ⟨c,i,.signal⟩ List.mem_cons_self rfl)
    · exact watched.keep id rfl (fun d member _ _ => List.mem_cons_of_mem _ member) rfl
        (congrArg Socket.rbuf (Function.update_of_ne (Ne.symm same) _ _))
  | refuse => exact watched
  | recvSignal c => exact .awake fun blocked => absurd blocked.2 (Nat.succ_ne_zero _)
  | recvComplete c sem _ phase =>
    refine watched.keep id rfl (fun d member _ signal => (List.mem_erase_of_ne ?_).mpr member) rfl rfl
    rintro rfl
    rw [phase] at signal
    contradiction
  | «open» after protocol port sem result returned =>
    have other : ∀ i, (s.sockets i).protocol = 0 → t ≠ i := by
      rintro i unused rfl
      rw [pop] at unused
      contradiction
    obtain ⟨sem',signals⟩ := socketOpen_signals returned
    rcases socketOpen_cases returned with ⟨rfl,rfl | ⟨i,unused,rfl⟩⟩ | ⟨i,p,x,rfl,rfl,binds⟩
    · exact watched
    · exact watched.keep id rfl (fun d member _ _ => member) rfl
        (congrArg Socket.rbuf (Function.update_of_ne (other i unused) _ _))
    · obtain ⟨queue,service,calls,_⟩ := binds.rest
      refine watched.keep ?_ signals (fun d member _ _ => by rw [calls]; exact member) queue ?_
      · exact fun blocked => ⟨service ▸ blocked.1,sem' ▸ blocked.2⟩
      · rw [binds.sockets,Function.update_of_ne (other i binds.unused)]
  | close i =>
    unfold socketClose
    split
    · exact watched
    · exact watched.keep id rfl (fun d member _ _ => member) rfl
        (congrArg Socket.rbuf (Function.update_of_ne (Ne.symm quiet) _ _))

end Watched

/-! ### Runs -/

section Runs
variable {t : SocketIndex} {call n : Nat} {slot : SlotIndex} {f : Frame} {before : List Nat} {h g : History}

theorem historyStep_state (next : historyStep a h = some g) : step a h.state = some g.state := by
  unfold historyStep at next
  split at next
  · obtain ⟨s,stepped,rfl⟩ := Option.map_eq_some_iff.mp next
    rw [stepped]
    unfold record
    split
    · split <;> rfl
    · split <;> rfl
    · rfl
    · rfl
  · contradiction

/-- What holds from the send on. -/
structure Underway (t : SocketIndex) (call n : Nat) (slot : SlotIndex) (f : Frame) (before : List Nat) (h : History) :
    Prop where
  served : Served h
  begun : Begun h
  apart : PortsApart h.state
  journey : Journey t call n slot f before h
  watched : Watched t slot h.state

theorem Journey.keeps (journey : Journey t call n slot f before h) (i : SlotIndex) (g : Frame) :
    h.state.service ≠ .discard i g := by
  intro discard
  obtain queued | delivered := journey.phase
  · rcases queued.service with other | other | other <;>
      · rw [discard] at other
        contradiction
  · rcases delivered.service with ⟨other,_⟩ | ⟨_,other | other⟩ <;>
      · rw [discard] at other
        contradiction

theorem Journey.cached (journey : Journey t call n slot f before h) (sleeps : h.state.service = .sleep)
    (present : (h.state.queue slot).frame ≠ none) :
    (h.state.queue slot).socket = none ∨ (h.state.queue slot).socket = some t := by
  obtain queued | delivered := journey.phase
  · exact queued.socket
  · obtain ⟨finish,_⟩ | ⟨none,_⟩ := delivered.service
    · rw [sleeps] at finish
      contradiction
    · exact absurd none present

theorem historyStep_underway (size : f.size.toNat = n) (underway : Underway t call n slot f before h)
    (quiet : Quiet t call n a) (next : historyStep a h = some g) : Underway t call n slot f before g := by
  obtain ⟨served,begun,apart,journey,watched⟩ := underway
  have moves := historyStep_moves served next
  have stepped := historyStep_state next
  have later : Journey t call n slot f before g :=
    moves.journey served begun apart size quiet (step_accepted stepped quiet served.transferring)
      (step_frees stepped quiet served.transferring journey.keeps) (step_protocol stepped quiet journey.protocol) journey
  exact ⟨moves.served served,moves.begun begun,moves.portsApart apart,later,
    step_watched watched stepped quiet journey.protocol later.cached⟩

theorem run_underway (size : f.size.toNat = n) (underway : Underway t call n slot f before h)
    (quiet : ∀ a ∈ actions, Quiet t call n a) (ran : run historyStep actions h = some g) :
    Underway t call n slot f before g := by
  have preserved : ∀ a h g, Underway t call n slot f before h → Quiet t call n a → historyStep a h = some g →
      Underway t call n slot f before g :=
    fun a h g underway quiet next => historyStep_underway size underway quiet next
  exact run_guarded preserved underway (meets_of_forall quiet) ran

/-! ### Progress -/

def Own (t : SocketIndex) : Action → Prop
  | .pushSignal | .serviceScan | .serviceDiscard | .serviceTransfer | .serviceFinish | .serviceSleep => True
  | .recvSignal c | .recvComplete c => c.socket = t
  | _ => False

theorem Own.quiet (own : Own t a) (call n : Nat) : Quiet t call n a := by
  cases a with
  | push | recvfrom | «open» | close => exact own.elim
  | _ => trivial

theorem Own.enabled (own : Own t a) (next : (step a h.state).isSome = true) : ∃ g, historyStep a h = some g := by
  obtain ⟨s,stepped⟩ := Option.isSome_iff_exists.mp next
  have admissible : Admissible h a := by
    cases a with
    | push | recvfrom | «open» | close => exact own.elim
    | _ => trivial
  exact ⟨record h s a,by rw [historyStep,if_pos admissible,stepped]; rfl⟩

/-- Until the receive has returned and the slot is empty, somebody can go on. -/
theorem Underway.progress (underway : Underway t call n slot f before h) (started : ∃ b ∈ h.starts, b.call = call)
    (unfinished : ¬((h.state.queue slot).frame = none ∧ call ∈ h.returns)) :
    ∃ a g, Own t a ∧ historyStep a h = some g := by
  have able : ∀ a, Own t a → (step a h.state).isSome = true → ∃ a g, Own t a ∧ historyStep a h = some g := by
    intro a own next
    obtain ⟨g,moved⟩ := own.enabled next
    exact ⟨a,g,own,moved⟩
  have signal : ∀ c ∈ h.state.calls, c.socket = t → c.phase = .signal → ∃ a g, Own t a ∧ historyStep a h = some g := by
    intro c member on phase
    apply able (.recvSignal c) on
    rw [step,if_pos ⟨member,phase⟩]
    rfl
  obtain ⟨served,_,_,journey,watched⟩ := underway
  obtain queued | delivered := journey.phase
  · rcases queued.service with service | service | service
    · apply able .serviceScan trivial
      rw [step,service]
      rfl
    · by_cases asleep : h.state.serviceSem = 0
      swap
      · apply able .serviceSleep trivial
        rw [step,service]
        simp only
        rw [if_neg asleep]
        rfl
      by_cases quiet : h.state.signals = 0
      swap
      · apply able .pushSignal trivial
        rw [step,if_neg quiet]
        rfl
      by_cases calls : ∀ c ∈ h.state.calls, c.socket = t → c.phase ≠ .signal
      · -- nobody receives, so the call has not been made
        have free := watched ⟨service,asleep⟩ quiet calls (by rw [queued.held]; exact Option.some_ne_none f)
        obtain ⟨b,member,mine⟩ := started
        exact absurd mine (queued.unstarted free b member)
      · push Not at calls
        obtain ⟨c,member,on,phase⟩ := calls
        exact signal c member on phase
    · apply able .serviceTransfer trivial
      rw [step,service]
      rfl
  · obtain ⟨finish,_⟩ | ⟨none,_⟩ := delivered.service
    · apply able .serviceFinish trivial
      rw [step,finish]
      rfl
    · obtain returned | ⟨phase,member⟩ := delivered.outcome
      · exact absurd ⟨none,returned⟩ unfinished
      · cases phase with
        | signal => exact signal _ member rfl rfl
        | wait =>
          apply able (.recvComplete ⟨call,t,.wait⟩) rfl
          have opened : (h.state.sockets t).receiveComplete ≠ .none := by
            intro closed
            have shut := (served.closed t).mpr closed
            rw [journey.protocol] at shut
            contradiction
          obtain ⟨sem,receives⟩ := Option.ne_none_iff_exists'.mp opened
          have balance := served.balance t sem receives
          have waits : 0 < pending h.state t := List.countP_pos_iff.mpr ⟨_,member,decide_eq_true rfl⟩
          rw [delivered.idle] at balance
          have signalled : h.state.semaphores sem ≠ 0 := by
            simp only [Option.isSome_none,Bool.false_eq_true,if_false] at balance
            omega
          rw [step,if_pos ⟨member,rfl⟩,receives]
          simp only
          rw [if_neg signalled]
          rfl

/-! ### Termination -/

def rank : Service → Nat
  | .scan => 2
  | .finish .. => 0
  | _ => 1

def callWork (c : Call) : Nat := if c.phase = .signal then 4 else 1

/-- A bound on the steps of the service thread, the sender and the receiver that are left. -/
def workLeft (slot : SlotIndex) (s : State) : Nat :=
  (if (s.queue slot).frame.isSome then 4 else 0) + rank s.service + 2 * s.serviceSem + 3 * s.signals +
    (s.calls.map callWork).sum

theorem sum_erase {calls : List Call} (member : c ∈ calls) :
    (calls.map callWork).sum = callWork c + ((calls.erase c).map callWork).sum := by
  rw [((List.perm_cons_erase member).map callWork).sum_eq,List.map_cons,List.sum_cons]

theorem rank_scan (sockets : SocketIndex → Socket) (queue : SlotIndex → Slot) :
    rank (scanSlots sockets (List.finRange configPopQueueSize) queue).2 = 1 := by
  have returned := (scanSlots_spec sockets (List.finRange configPopQueueSize) queue).2
  generalize (scanSlots sockets (List.finRange configPopQueueSize) queue).2 = service at returned
  cases service with
  | scan | finish => exact returned.elim
  | _ => rfl

theorem transferFrame_signals (i : SlotIndex) (f : Frame) (s : State) :
    (transferFrame i f s).serviceSem = s.serviceSem ∧ (transferFrame i f s).signals = s.signals ∧
      (transferFrame i f s).calls = s.calls := by
  unfold transferFrame
  split
  · exact ⟨rfl,rfl,rfl⟩
  · simp only [networkFreeFrame]
    split <;> exact ⟨rfl,rfl,rfl⟩

theorem own_decreases (journey : Journey t call n slot f before h) (own : Own t a) (next : step a h.state = some s) :
    workLeft slot s < workLeft slot h.state := by
  cases step_stepped next with
  | push | register | refuse | «open» | close => exact own.elim
  | pushSignal owing =>
    simp only [workLeft]
    omega
  | serviceScan service =>
    have frames := (scanSlots_spec h.state.sockets (List.finRange configPopQueueSize) h.state.queue).1 slot
    have first : rank h.state.service = 2 := congrArg rank service
    simp only [workLeft,frames,rank_scan,first]
    omega
  | serviceDiscard i k service => exact absurd service (journey.keeps i k)
  | serviceTransfer i k service =>
    obtain ⟨serviceSem,signals,calls⟩ := transferFrame_signals i k h.state
    simp only [workLeft,(transferFrame_sockets i k h.state).1,serviceSem,signals,calls,service,rank]
    omega
  | serviceFinish i k service =>
    have here : i = slot ∧ Holds h.state slot f := by
      obtain queued | delivered := journey.phase
      · rcases queued.service with other | other | other <;>
          · rw [service] at other
            contradiction
      · rcases delivered.service with ⟨other,held⟩ | ⟨_,other | other⟩ <;> rw [service] at other
        · cases other
          exact ⟨rfl,held⟩
        · contradiction
        · contradiction
    obtain ⟨rfl,held⟩ := here
    rw [Holds] at held
    simp only [workLeft,clearSlot,Function.update_self,held,service,rank,Option.isSome_none,Option.isSome_some]
    simp only [Bool.false_eq_true,if_false,if_true]
    omega
  | serviceSleep service signalled =>
    simp only [workLeft,service,rank]
    omega
  | recvSignal c member phase =>
    simp only [workLeft,List.map_cons,List.sum_cons,sum_erase member]
    simp only [callWork,phase]
    simp
    omega
  | recvComplete c sem member phase =>
    simp only [workLeft,sum_erase member]
    simp only [callWork,phase]
    simp

theorem own_bounded (size : f.size.toNat = n) (underway : Underway t call n slot f before h)
    (own : ∀ a ∈ actions, Own t a) (ran : run historyStep actions h = some g) :
    actions.length + workLeft slot g.state ≤ workLeft slot h.state := by
  induction actions generalizing h with
  | nil =>
    cases ran
    exact Nat.le_of_eq (Nat.zero_add _)
  | cons a rest ih =>
    obtain ⟨first,later⟩ := List.forall_mem_cons.mp own
    obtain ⟨k,next,ran⟩ := Option.bind_eq_some_iff.mp ran
    have less := own_decreases underway.journey first (historyStep_state next)
    have rest_ := ih (historyStep_underway size underway (first.quiet call n) next) later ran
    rw [List.length_cons]
    omega

end Runs

end Buenos.Net.Pop
