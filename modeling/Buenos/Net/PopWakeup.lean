import Buenos.Net.PopDelivery

/-! The service thread of POP misses no work: while it sleeps without a wake-up on its way,
every packet in the queue waits for a receiver. -/
namespace Buenos.Net.Pop

open Buenos.Foundation

/-! ### Ports -/

section Ports
variable {s t : State} {sockets : SocketIndex → Socket}

/-- Open sockets have ports of their own. -/
def PortsApart (s : State) : Prop :=
  ∀ i j, (s.sockets i).protocol ≠ 0 → (s.sockets j).protocol ≠ 0 → (s.sockets i).port = (s.sockets j).port → i = j

theorem portInUse_iff : portInUse sockets port = true ↔ ∃ j, (sockets j).protocol ≠ 0 ∧ (sockets j).port = port := by
  simp [portInUse]

theorem unbound_port (free : portInUse sockets port = false) (j : SocketIndex) (opened : (sockets j).protocol ≠ 0) :
    (sockets j).port ≠ port := by
  rw [← Bool.not_eq_true,portInUse_iff] at free
  exact fun same => free ⟨j,opened,same⟩

theorem PortsApart.keep (apart : PortsApart s)
    (sockets : ∀ j, (t.sockets j).protocol ≠ 0 → (s.sockets j).protocol ≠ 0 ∧ (t.sockets j).port = (s.sockets j).port) :
    PortsApart t := by
  intro i j first second same
  obtain ⟨opened,port⟩ := sockets i first
  obtain ⟨opened',port'⟩ := sockets j second
  exact apart i j opened opened' (port.symm.trans (same.trans port'))

theorem PortsApart.bind (apart : PortsApart s) (binds : Binds i protocol port sem s t)
    (free : portInUse s.sockets port = false) : PortsApart t := by
  intro j k first second same
  rw [binds.sockets] at first second same
  by_cases new : j = i <;> by_cases new' : k = i
  · rw [new,new']
  · rw [new,Function.update_self,Function.update_of_ne new'] at same
    rw [Function.update_of_ne new'] at second
    exact absurd same.symm (unbound_port free k second)
  · rw [new',Function.update_self,Function.update_of_ne new] at same
    rw [Function.update_of_ne new] at first
    exact absurd same (unbound_port free j first)
  · rw [Function.update_of_ne new] at first same
    rw [Function.update_of_ne new'] at second same
    exact apart j k first second same

end Ports

/-! ### The invariant -/

/-- The service thread cannot go on before somebody signals it. -/
def Blocked (s : State) : Prop := s.service = .sleep ∧ s.serviceSem = 0

/-- No producer is between its table update and its signal. -/
def Signalled (s : State) : Prop := s.signals = 0 ∧ ∀ c ∈ s.calls, c.phase ≠ .signal

/-- The port is bound to an open POP socket. -/
def BoundPort (s : State) (port : UInt16) : Prop :=
  ∃ j, (s.sockets j).protocol = protocolPop ∧ (s.sockets j).port = port

/-- Somebody receives on the port of the packet. -/
def Deliverable (s : State) (f : Frame) : Prop :=
  ∃ j, (s.sockets j).protocol = protocolPop ∧ (s.sockets j).port = f.destPort ∧ (s.sockets j).rbuf ≠ none

/-- Every packet has a recipient, and none of them receives. -/
def Settled (s : State) : Prop := ∀ i f, Holds s i f → ∃ j, (s.queue i).socket = some j ∧ (s.sockets j).rbuf = none

structure Attentive (s : State) : Prop where
  ports : ∀ i j, (s.sockets i).protocol ≠ 0 → (s.sockets j).protocol ≠ 0 → (s.sockets i).port = (s.sockets j).port → i = j
  cached : ∀ i f j, Holds s i f → (s.queue i).socket = some j →
    (s.sockets j).protocol = protocolPop ∧ (s.sockets j).port = f.destPort
  asleep : Blocked s → Signalled s → Settled s

theorem initial_attentive : Attentive initial := by
  constructor <;> simp [initial,closedSocket,emptySlot,Holds,Settled]

section Steps
variable {s t : State}

theorem Attentive.keep (attentive : Attentive s)
    (slots : ∀ i f j, Holds t i f → (t.queue i).socket = some j → Holds s i f ∧ (s.queue i).socket = some j)
    (sockets : ∀ j, (t.sockets j).protocol = (s.sockets j).protocol ∧ (t.sockets j).port = (s.sockets j).port)
    (asleep : Blocked t → Signalled t → Settled t) : Attentive t := by
  refine ⟨?_,?_,asleep⟩
  · apply PortsApart.keep attentive.ports
    intro j opened
    rw [(sockets j).1] at opened
    exact ⟨opened,(sockets j).2⟩
  · intro i f j held socket
    obtain ⟨before,cache⟩ := slots i f j held socket
    rw [(sockets j).1,(sockets j).2]
    exact attentive.cached i f j before cache

theorem Attentive.push (attentive : Attentive s) (fromaddr : UInt32) (frame : Frame) (now later : UInt32) :
    Attentive (popPushFrame fromaddr frame now later s).2 := by
  unfold popPushFrame
  split
  · exact attentive
  next free _ =>
  have queue := (storeFrame_effect free fromaddr frame later s).1
  have sockets : (storeFrame free fromaddr frame later s).sockets = s.sockets := by
    unfold storeFrame
    cases (s.queue free).frame <;> rfl
  apply attentive.keep
  · intro i f j held socket
    rw [Holds,queue] at held
    rw [queue] at socket
    by_cases same : i = free
    · simp [same] at socket
    · rw [Function.update_of_ne same] at held socket
      exact ⟨held,socket⟩
  · intro j
    rw [sockets]
    exact ⟨rfl,rfl⟩
  · intro _ signalled
    have := signalled.1
    simp [storeFrame] at this

theorem scanSlots_sleep (sockets : SocketIndex → Socket) (slots : List SlotIndex) (queue : SlotIndex → Slot)
    (nothing : (scanSlots sockets slots queue).2 = .sleep) (distinct : slots.Nodup) :
    (∀ i, i ∉ slots → (scanSlots sockets slots queue).1 i = queue i) ∧
    ∀ i ∈ slots, ∀ f, (queue i).frame = some f →
      ∃ j, ((scanSlots sockets slots queue).1 i).socket = some j ∧ (sockets j).rbuf = none := by
  induction slots generalizing queue with
  | nil => exact ⟨fun _ _ => rfl,by simp⟩
  | cons i rest ih =>
    obtain ⟨fresh,distinct⟩ := List.nodup_cons.mp distinct
    cases frame : (queue i).frame with
    | none =>
      simp only [scanSlots,frame] at nothing ⊢
      obtain ⟨others,later⟩ := ih queue nothing distinct
      refine ⟨fun k outside => others k fun inside => outside (List.mem_cons_of_mem i inside),fun k member f held => ?_⟩
      rcases List.mem_cons.mp member with rfl | inside
      · simp [frame] at held
      · exact later k inside f held
    | some f =>
      cases socket : slotSocket sockets (queue i) f with
      | none => simp [scanSlots,frame,socket] at nothing
      | some j =>
        simp only [scanSlots,frame,socket] at nothing ⊢
        split at nothing
        · contradiction
        next open_ =>
        split at nothing
        · contradiction
        next waits =>
        rw [if_neg open_,if_neg waits]
        obtain ⟨others,later⟩ := ih _ nothing distinct
        refine ⟨fun k outside => ?_,fun k member g held => ?_⟩
        · rw [others k fun inside => outside (List.mem_cons_of_mem i inside)]
          apply Function.update_of_ne
          rintro rfl
          exact outside List.mem_cons_self
        · rcases List.mem_cons.mp member with rfl | inside
          · refine ⟨j,?_,by simpa using waits⟩
            rw [others k fresh]
            simp
          · have apart : k ≠ i := by rintro rfl; exact fresh inside
            exact later k inside g (by simpa [apart] using held)

theorem recipient_protocol {sockets : SocketIndex → Socket} (found : recipient sockets port = some j) :
    (sockets j).protocol = protocolPop := by
  have holds := List.find?_some found
  simp only [Bool.and_eq_true,beq_iff_eq] at holds
  exact holds.1

theorem Attentive.scan (attentive : Attentive s) : Attentive { s with
    queue := (scanSlots s.sockets (List.finRange configPopQueueSize) s.queue).1
    service := (scanSlots s.sockets (List.finRange configPopQueueSize) s.queue).2 } := by
  have frames := (scanSlots_spec s.sockets (List.finRange configPopQueueSize) s.queue).1
  have caches := (scanSlots_socket s.sockets (List.finRange configPopQueueSize) s.queue).1
  refine ⟨attentive.ports,?_,?_⟩
  · intro i f j held socket
    replace held : Holds s i f := (frames i).symm.trans held
    rcases caches i j socket with before | ⟨g,there,found⟩
    · exact attentive.cached i f j held before
    · cases held.symm.trans there
      exact ⟨recipient_protocol found,recipient_port found⟩
  · rintro ⟨nothing,-⟩ - i f held
    replace held : Holds s i f := (frames i).symm.trans held
    exact (scanSlots_sleep s.sockets _ s.queue nothing (List.nodup_finRange _)).2 i (List.mem_finRange i) f held

theorem Attentive.awake (attentive : Attentive s) (service : t.service ≠ .sleep)
    (queue : ∀ i f, Holds t i f → Holds s i f ∧ (t.queue i).socket = (s.queue i).socket)
    (sockets : ∀ j, (t.sockets j).protocol = (s.sockets j).protocol ∧ (t.sockets j).port = (s.sockets j).port) :
    Attentive t := by
  apply attentive.keep _ sockets fun blocked => absurd blocked.1 service
  intro i f j held socket
  obtain ⟨before,same⟩ := queue i f held
  exact ⟨before,same.symm.trans socket⟩

theorem clearSlot_holds (held : Holds (clearSlot slot s) i f) :
    Holds s i f ∧ ((clearSlot slot s).queue i).socket = (s.queue i).socket := by
  by_cases same : i = slot
  · simp [Holds,clearSlot,same] at held
  · simpa [Holds,clearSlot,same] using held

theorem transferFrame_sockets (slot : SlotIndex) (f : Frame) (s : State) :
    (transferFrame slot f s).queue = s.queue ∧
    ∀ j, ((transferFrame slot f s).sockets j).protocol = (s.sockets j).protocol ∧
      ((transferFrame slot f s).sockets j).port = (s.sockets j).port := by
  unfold transferFrame
  cases (s.queue slot).socket with
  | none => exact ⟨rfl,fun _ => ⟨rfl,rfl⟩⟩
  | some k =>
    cases sem : (s.sockets k).receiveComplete <;> refine ⟨by simp [networkFreeFrame,sem],fun j => ?_⟩ <;>
      by_cases same : j = k <;> simp [networkFreeFrame,sem,same]

theorem nextFreePort_free {sockets : SocketIndex → Socket} (found : nextFreePort sockets fuel port = some p) :
    portInUse sockets p = false := by
  induction fuel generalizing port with
  | zero => contradiction
  | succ fuel ih =>
    simp only [nextFreePort] at found
    split at found
    · exact ih found
    · next free =>
      cases found
      simpa using free

theorem choosePort_free {sockets : SocketIndex → Socket} (chosen : choosePort sockets port = some (some p)) :
    portInUse sockets p = false := by
  unfold choosePort at chosen
  split at chosen
  · obtain ⟨q,found,same⟩ := Option.map_eq_some_iff.mp chosen
    cases same
    exact nextFreePort_free found
  · split at chosen
    · cases chosen
    · next free =>
      cases chosen
      simpa using free

theorem socketOpen_port (returned : socketOpen protocol port sem s = some (some i, t)) :
    portInUse s.sockets (t.sockets i).port = false := by
  unfold socketOpen at returned
  split at returned
  · cases returned
  split at returned
  · cases returned
  next k _ =>
  obtain ⟨chosen,choice,bound⟩ := Option.map_eq_some_iff.mp returned
  cases chosen with
  | none => cases bound
  | some p =>
    cases sem with
    | none => cases bound
    | some x =>
      cases bound
      simpa using choosePort_free choice

theorem Attentive.bind (attentive : Attentive s) (binds : Binds i protocol port sem s t)
    (free : portInUse s.sockets port = false) (same : t.serviceSem = s.serviceSem ∧ t.signals = s.signals) : Attentive t := by
  have ports := PortsApart.bind attentive.ports binds free
  obtain ⟨unused,-,sockets,-,queue,service,calls,-⟩ := binds
  have other : ∀ j, (s.sockets j).protocol = protocolPop → j ≠ i := by
    rintro j pop rfl
    rw [unused] at pop
    contradiction
  refine ⟨ports,?_,?_⟩
  · intro k f j held socket
    rw [Holds,queue] at held
    rw [queue] at socket
    obtain ⟨pop,address⟩ := attentive.cached k f j held socket
    rw [sockets,Function.update_of_ne (other j pop)]
    exact ⟨pop,address⟩
  · rintro ⟨sleeps,empty⟩ ⟨quiet,calls'⟩ k f held
    rw [Holds,queue] at held
    obtain ⟨j,socket,idle⟩ := attentive.asleep ⟨service ▸ sleeps,same.1 ▸ empty⟩ ⟨same.2 ▸ quiet,calls ▸ calls'⟩ k f held
    obtain ⟨pop,-⟩ := attentive.cached k f j held socket
    refine ⟨j,by rw [queue,socket],?_⟩
    rw [sockets,Function.update_of_ne (other j pop)]
    exact idle

theorem socketOpen_signals (returned : socketOpen protocol port sem s = some (result, t)) :
    t.serviceSem = s.serviceSem ∧ t.signals = s.signals := by
  unfold socketOpen at returned
  split at returned
  · cases returned
    exact ⟨rfl,rfl⟩
  split at returned
  · cases returned
    exact ⟨rfl,rfl⟩
  obtain ⟨chosen,-,bound⟩ := Option.map_eq_some_iff.mp returned
  cases chosen with
  | none =>
    cases bound
    exact ⟨rfl,rfl⟩
  | some p =>
    cases sem with
    | none =>
      cases bound
      exact ⟨rfl,rfl⟩
    | some x =>
      cases bound
      exact ⟨rfl,rfl⟩

theorem Attentive.open (attentive : Attentive s) (returned : socketOpen protocol port sem s = some (result, t)) :
    Attentive t := by
  rcases socketOpen_cases returned with ⟨rfl,rfl | ⟨i,unused,rfl⟩⟩ | ⟨i,p,x,rfl,rfl,binds⟩
  · exact attentive
  · apply attentive.keep
    · exact fun _ _ _ held socket => ⟨held,socket⟩
    · intro j
      by_cases same : j = i <;> simp [same]
    · intro blocked signalled k f held
      obtain ⟨j,socket,idle⟩ := attentive.asleep blocked signalled k f held
      refine ⟨j,socket,?_⟩
      by_cases same : j = i
      · simpa [same] using same ▸ idle
      · simpa [same] using idle
  · apply attentive.bind binds _ (socketOpen_signals returned)
    have free := socketOpen_port returned
    rw [binds.sockets,Function.update_self] at free
    exact free

theorem Attentive.register (attentive : Attentive s) (registers : Registers call i n s t) : Attentive t := by
  obtain ⟨-,-,sockets,calls,queue,-⟩ := registers
  apply attentive.keep
  · intro k f j held socket
    rw [Holds,queue] at held
    rw [queue] at socket
    exact ⟨held,socket⟩
  · intro j
    rw [sockets]
    by_cases same : j = i <;> simp [same]
  · rintro - ⟨-,quiet⟩
    have := quiet ⟨call,i,.signal⟩ (by simp [calls])
    contradiction

theorem Attentive.same (attentive : Attentive s) (queue : t.queue = s.queue) (sockets : t.sockets = s.sockets)
    (asleep : Blocked t → Signalled t → Blocked s ∧ Signalled s) : Attentive t := by
  apply attentive.keep
  · intro i f j held socket
    rw [Holds,queue] at held
    rw [queue] at socket
    exact ⟨held,socket⟩
  · intro j
    rw [sockets]
    exact ⟨rfl,rfl⟩
  · intro blocked signalled i f held
    obtain ⟨before,quiet⟩ := asleep blocked signalled
    rw [Holds,queue] at held
    rw [queue,sockets]
    exact attentive.asleep before quiet i f held

def Opens : Action → Prop
  | .close _ => False
  | _ => True

theorem step_attentive (attentive : Attentive s) (opens : Opens a) (next : step a s = some t) : Attentive t := by
  cases step_stepped next with
  | push fromaddr frame now later => exact attentive.push fromaddr frame now later
  | pushSignal => exact attentive.same rfl rfl fun blocked => absurd blocked.2 (Nat.succ_ne_zero _)
  | serviceScan => exact attentive.scan
  | serviceDiscard slot f => exact attentive.awake (by simp) (fun i f held => clearSlot_holds held) fun _ => ⟨rfl,rfl⟩
  | serviceTransfer slot f =>
    obtain ⟨queue,sockets⟩ := transferFrame_sockets slot f s
    refine attentive.awake (by simp) (fun i g held => ?_) sockets
    rw [Holds,queue] at held
    exact ⟨held,by rw [queue]⟩
  | serviceFinish slot f => exact attentive.awake (by simp) (fun i f held => clearSlot_holds held) fun _ => ⟨rfl,rfl⟩
  | serviceSleep => exact attentive.awake (by simp) (fun i f held => ⟨held,rfl⟩) fun _ => ⟨rfl,rfl⟩
  | register t call i n _ returned => exact attentive.register (socketRecvfrom_registers returned)
  | refuse => exact attentive
  | recvSignal call => exact attentive.same rfl rfl fun blocked => absurd blocked.2 (Nat.succ_ne_zero _)
  | recvComplete call sem member phase =>
    refine attentive.same rfl rfl fun blocked signalled => ⟨blocked,signalled.1,fun c member signal => ?_⟩
    have apart : c ≠ call := by
      rintro rfl
      rw [phase] at signal
      contradiction
    exact signalled.2 c ((List.mem_erase_of_ne apart).mpr member) signal
  | «open» t protocol port sem result returned => exact attentive.open returned
  | close => exact opens.elim

end Steps

/-- In every run in which no socket is closed, whenever the service thread is blocked and
nobody is about to signal it, every packet in the queue is addressed to a bound port on which
nobody receives. -/
theorem service_misses_nothing (actions : List Action) (s : State) (opens : ∀ a ∈ actions, Opens a)
    (ran : run step actions initial = some s) (blocked : Blocked s) (signalled : Signalled s) :
    ∀ i f, Holds s i f → BoundPort s f.destPort ∧ ¬Deliverable s f := by
  have meets : Meets step (fun a _ => Opens a) actions initial := meets_of_forall opens
  have attentive : Attentive s := run_guarded (fun _ _ _ holds ok next => step_attentive holds ok next)
    initial_attentive meets ran
  intro i f held
  obtain ⟨j,socket,idle⟩ := attentive.asleep blocked signalled i f held
  obtain ⟨pop,address⟩ := attentive.cached i f j held socket
  refine ⟨⟨j,pop,address⟩,?_⟩
  rintro ⟨k,other,port,receives⟩
  have proper : protocolPop ≠ 0 := by decide
  have same : k = j := attentive.ports k j (other ▸ proper) (pop ▸ proper) (port.trans address.symm)
  exact receives (same ▸ idle)

/-- A packet for a socket on which nobody receives stays in the queue. -/
def waitingRun : List Action :=
  [.open protocolPop 7 (some 0),.push 0 (strayFrame 0) 0 0,.pushSignal,.serviceScan,.serviceSleep,.serviceScan]

theorem service_misses_nothing_waiting : ∃ s, run step waitingRun initial = some s ∧ Blocked s ∧ Signalled s ∧
    ∃ f, Holds s 0 f ∧ BoundPort s f.destPort ∧ ¬Deliverable s f := by
  obtain ⟨s,ran,sleeps,empty,signals,calls,f,held⟩ : ∃ s, run step waitingRun initial = some s ∧ s.service = .sleep ∧
      s.serviceSem = 0 ∧ s.signals = 0 ∧ s.calls = [] ∧ ∃ f, (s.queue 0).frame = some f :=
    ⟨_,rfl,rfl,rfl,rfl,rfl,_,rfl⟩
  have signalled : Signalled s := ⟨signals,by simp [calls]⟩
  exact ⟨s,ran,⟨sleeps,empty⟩,signalled,f,held,service_misses_nothing waitingRun s
    (by simp [waitingRun,Opens]) ran ⟨sleeps,empty⟩ signalled 0 f held⟩

end Buenos.Net.Pop
