import Buenos.Net.PopWakeup

/-! Steps of the receive path in which no packet is pushed and one socket stays open. -/
namespace Buenos.Net.Pop

open Buenos.Foundation

/-! ### Ports -/

section Ports
variable {h : History}

theorem initial_portsApart : PortsApart initial := by
  intro i j first
  exact absurd rfl first

theorem Moves.portsApart (moves : Moves a h g) (apart : PortsApart h.state) : PortsApart g.state := by
  cases moves with
  | calm t calm =>
    obtain ⟨-,-,sockets,-⟩ := calm
    apply apart.keep
    intro j opened
    rw [sockets] at opened ⊢
    exact ⟨opened,rfl⟩
  | push fromaddr frame now later =>
    apply apart.keep
    intro j opened
    rw [(popPushFrame_receivers fromaddr frame now later h.state).1] at opened ⊢
    exact ⟨opened,rfl⟩
  | scan => exact apart
  | discard slot f => exact apart
  | finish slot f => exact apart
  | register t call i n mine registers =>
    apply apart.keep
    intro j opened
    rw [registers.sockets] at opened ⊢
    by_cases same : j = i
    · subst same
      simpa using opened
    · simpa [same] using opened
  | signal call member n => exact apart
  | complete call sem => exact apart
  | transfer t slot f j c sem service socket rbuf receives transfers =>
    apply apart.keep
    intro k opened
    simp only [transfers.sockets] at opened ⊢
    by_cases same : k = j
    · subst same
      simpa using opened
    · simpa [same] using opened
  | bind t i protocol given port sem mine returned binds =>
    have free := socketOpen_port returned
    rw [binds.sockets,Function.update_self] at free
    exact apart.bind binds free
  | close i =>
    apply apart.keep
    intro j opened
    have same := socketClose_open opened
    exact ⟨same ▸ opened,congrArg Socket.port same⟩

end Ports

theorem recipient_eq {s : State} (apart : PortsApart s) (pop : (s.sockets t).protocol = protocolPop)
    (port : (s.sockets t).port = destPort) : recipient s.sockets destPort = some t := by
  cases found : recipient s.sockets destPort with
  | none =>
    have missed := List.find?_eq_none.mp found t (List.mem_finRange t)
    simp [pop,port] at missed
  | some j =>
    have proper : protocolPop ≠ 0 := by decide
    have same := apart j t (recipient_protocol found ▸ proper) (pop ▸ proper) ((recipient_port found).trans port.symm)
    rw [same]

/-! ### A scan with one packet -/

theorem scanSlots_none (sockets : SocketIndex → Socket) (slots : List SlotIndex) (queue : SlotIndex → Slot)
    (empty : ∀ i ∈ slots, (queue i).frame = none) : scanSlots sockets slots queue = (queue,.sleep) := by
  induction slots with
  | nil => rfl
  | cons i rest ih =>
    obtain ⟨here,later⟩ := List.forall_mem_cons.mp empty
    rw [scanSlots,here]
    exact ih later

theorem scanSlots_one (sockets : SocketIndex → Socket) (slots : List SlotIndex) (queue : SlotIndex → Slot)
    (member : slot ∈ slots) (distinct : slots.Nodup) (alone : ∀ i ∈ slots, i ≠ slot → (queue i).frame = none)
    (held : (queue slot).frame = some f) (socket : slotSocket sockets (queue slot) f = some t)
    (pop : (sockets t).protocol = protocolPop) :
    scanSlots sockets slots queue =
      if (sockets t).rbuf.isSome then
        (Function.update queue slot { queue slot with socket := some t, busy := true },.transfer slot f)
      else (Function.update queue slot { queue slot with socket := some t },.sleep) := by
  induction slots with
  | nil => exact absurd member List.not_mem_nil
  | cons i rest ih =>
    obtain ⟨fresh,distinct⟩ := List.nodup_cons.mp distinct
    by_cases same : i = slot
    · subst same
      rw [scanSlots,held]
      simp only [socket]
      rw [if_neg (not_not.mpr pop)]
      split
      · simp [held]
      · rw [held]
        apply scanSlots_none
        intro k later
        have apart : k ≠ i := by
          rintro rfl
          exact fresh later
        rw [Function.update_of_ne apart]
        exact alone k (List.mem_cons_of_mem i later) apart
    · rw [scanSlots,alone i List.mem_cons_self same]
      exact ih (by simpa [Ne.symm same] using member) distinct fun k later => alone k (List.mem_cons_of_mem i later)

/-! ### Steps in which nothing is sent to the queue -/

/-- No packet is pushed, the socket `t` is not closed, and nobody but `call` receives on it, with a
buffer of `n` bytes at least. -/
def Quiet (t : SocketIndex) (call n : Nat) : Action → Prop
  | .push .. => False
  | .close j => j ≠ t
  | .recvfrom c j buflength => c = call ∧ j = t ∧ n ≤ buflength.toNat ∨ c ≠ call ∧ j ≠ t
  | _ => True

instance (t : SocketIndex) (call n : Nat) (a : Action) : Decidable (Quiet t call n a) :=
  match a with
  | .push .. => isFalse id
  | .close j => inferInstanceAs (Decidable (j ≠ t))
  | .recvfrom c j buflength => inferInstanceAs (Decidable (c = call ∧ j = t ∧ n ≤ buflength.toNat ∨ c ≠ call ∧ j ≠ t))
  | .pushSignal | .serviceScan | .serviceDiscard | .serviceTransfer | .serviceFinish | .serviceSleep
  | .recvSignal _ | .recvComplete _ | .open .. => isTrue trivial

theorem step_accepted {s s' : State} (next : step a s = some s') (quiet : Quiet t call n a)
    (transferring : Transferring s) : s'.accepted = s.accepted := by
  rcases step_cases next with ⟨_,_,accepted,_⟩ | ⟨_,_,_,_,rfl,_⟩ | ⟨_,rfl⟩ | ⟨_,_,_,rfl⟩ | ⟨i,f,service,rfl⟩ |
    ⟨_,_,_,rfl⟩ | ⟨_,rfl⟩
  · exact accepted
  · exact quiet.elim
  · rfl
  · rfl
  · obtain ⟨_,_,j,_,socket,_⟩ := transferring i f service
    exact (transferFrame_effect (by rw [socket]; exact Option.some_ne_none j)).2.2
  · rfl
  · rfl

/-- A packet is freed just when its transfer is made. -/
def Frees (s s' : State) : Prop :=
  (∃ i f, s.service = .transfer i f ∧ s'.service = .finish i f ∧ s'.freed = f.id :: s.freed) ∨
  s'.freed = s.freed ∧ ∀ i f, s.service = .transfer i f → s'.service ≠ .finish i f

theorem Frees.same {s s' : State} (frees : Frees s s') (other : ∀ i g, s.service = .transfer i g → s'.service ≠ .finish i g) :
    s'.freed = s.freed := by
  obtain ⟨i,g,transfer,finish,_⟩ | ⟨same,_⟩ := frees
  · exact absurd finish (other i g transfer)
  · exact same

theorem Frees.of_service {s s' : State} (frees : Frees s s') (service : s'.service = s.service) : s'.freed = s.freed := by
  apply frees.same
  intro i g transfer finish
  rw [service,transfer] at finish
  contradiction

theorem step_frees {s s' : State} (next : step a s = some s') (quiet : Quiet t call n a)
    (transferring : Transferring s) (keeps : ∀ i f, s.service ≠ .discard i f) : Frees s s' := by
  rcases step_cases next with ⟨_,service,_,freed⟩ | ⟨_,_,_,_,rfl,_⟩ | ⟨service,rfl⟩ | ⟨i,f,service,_⟩ |
    ⟨i,f,service,rfl⟩ | ⟨_,_,service,rfl⟩ | ⟨service,rfl⟩
  · refine .inr ⟨freed,fun i f transfer finish => ?_⟩
    rw [service,transfer] at finish
    contradiction
  · exact quiet.elim
  · exact .inr ⟨rfl,fun i f transfer => by rw [service] at transfer; contradiction⟩
  · exact absurd service (keeps i f)
  · obtain ⟨_,_,j,_,socket,_⟩ := transferring i f service
    exact .inl ⟨i,f,service,rfl,(transferFrame_effect (by rw [socket]; exact Option.some_ne_none j)).2.1⟩
  · exact .inr ⟨rfl,fun i f transfer => by rw [service] at transfer; contradiction⟩
  · exact .inr ⟨rfl,fun i f transfer => by rw [service] at transfer; contradiction⟩

theorem step_protocol {s s' : State} (next : step a s = some s') (quiet : Quiet t call n a)
    (pop : (s.sockets t).protocol = protocolPop) : (s'.sockets t).protocol = protocolPop := by
  cases step_stepped next with
  | push => exact quiet.elim
  | pushSignal | serviceScan | serviceDiscard | serviceFinish | serviceSleep | refuse | recvSignal | recvComplete => exact pop
  | serviceTransfer slot f => exact ((transferFrame_sockets slot f s).2 t).1.trans pop
  | register after c i buflength _ returned =>
    rw [(socketRecvfrom_registers returned).sockets]
    by_cases same : t = i
    · subst same
      simpa using pop
    · simpa [same] using pop
  | «open» after protocol port sem result returned =>
    have other : ∀ i, (s.sockets i).protocol = 0 → t ≠ i := by
      rintro i unused rfl
      rw [pop] at unused
      contradiction
    rcases socketOpen_cases returned with ⟨rfl,rfl | ⟨i,unused,rfl⟩⟩ | ⟨i,p,x,rfl,rfl,binds⟩
    · exact pop
    · simpa [other i unused] using pop
    · simpa [binds.sockets,other i binds.unused] using pop
  | close i =>
    rw [socketClose_other s (Ne.symm quiet)]
    exact pop

/-! ### Calls -/

/-- Calls have been started and names are used once. -/
structure Begun (h : History) : Prop where
  started : ∀ c ∈ h.state.calls, ∃ b ∈ h.starts, b.call = c.id ∧ b.socket = c.socket
  apart : (h.state.calls.map Call.id).Nodup
  returned : ∀ id ∈ h.returns, (∃ b ∈ h.starts, b.call = id) ∧ ∀ c ∈ h.state.calls, c.id ≠ id

theorem initial_begun : Begun initialHistory := by
  constructor <;> simp [initialHistory,initial]

section Calls
variable {h : History}

theorem Begun.keep (begun : Begun h) {s : State} (calls : s.calls = h.state.calls) (deliveries : List Delivery) :
    Begun ⟨s,h.starts,deliveries,h.returns⟩ := by
  obtain ⟨started,apart,returned⟩ := begun
  refine ⟨?_,?_,?_⟩
  · simpa only [calls] using started
  · simpa only [calls] using apart
  · simpa only [calls] using returned

theorem Begun.signal (begun : Begun h) {c : Call} (member : c ∈ h.state.calls) (n : Nat) :
    Begun { h with state := { h.state with
      calls := ⟨c.id, c.socket, .wait⟩ :: h.state.calls.erase c
      serviceSem := n } } := by
  have split := List.perm_cons_erase member
  have old : ∀ d ∈ (⟨c.id, c.socket, .wait⟩ :: h.state.calls.erase c : List Call),
      ∃ e ∈ h.state.calls, e.id = d.id ∧ e.socket = d.socket := by
    intro d inside
    rcases List.mem_cons.mp inside with rfl | rest
    · exact ⟨c,member,rfl,rfl⟩
    · exact ⟨d,List.mem_of_mem_erase rest,rfl,rfl⟩
  refine ⟨?_,?_,?_⟩
  · intro d inside
    obtain ⟨e,before,id,socket⟩ := old d inside
    rw [← id,← socket]
    exact begun.started e before
  · exact ((split.map Call.id).nodup_iff).mp begun.apart
  · intro id gone
    obtain ⟨known,apart⟩ := begun.returned id gone
    refine ⟨known,fun d inside same => ?_⟩
    obtain ⟨e,before,id',_⟩ := old d inside
    exact apart e before (id'.trans same)

theorem Begun.complete (begun : Begun h) {c : Call} (member : c ∈ h.state.calls) (semaphores : Nat → Nat) :
    Begun { h with
      state := { h.state with calls := h.state.calls.erase c, semaphores := semaphores }
      returns := c.id :: h.returns } := by
  have apart := ((List.perm_cons_erase member).map Call.id).nodup_iff.mp begun.apart
  obtain ⟨gone,rest⟩ := List.nodup_cons.mp apart
  refine ⟨fun d inside => begun.started d (List.mem_of_mem_erase inside),rest,?_⟩
  intro id returned
  rcases List.mem_cons.mp returned with rfl | old
  · obtain ⟨b,started,same,_⟩ := begun.started c member
    exact ⟨⟨b,started,same⟩,fun d inside same => gone (List.mem_map.mpr ⟨d,inside,same⟩)⟩
  · obtain ⟨known,other⟩ := begun.returned id old
    exact ⟨known,fun d inside => other d (List.mem_of_mem_erase inside)⟩

theorem Moves.begun (moves : Moves a h g) (begun : Begun h) : Begun g := by
  cases moves with
  | calm t calm => exact begun.keep calm.rest.2.2.1 _
  | push fromaddr frame now later =>
    apply begun.keep
    exact (popPushFrame_receivers fromaddr frame now later h.state).2
  | scan =>
    apply begun.keep
    rfl
  | discard slot f =>
    apply begun.keep
    rfl
  | finish slot f =>
    apply begun.keep
    rfl
  | register t call i n mine registers fresh absent =>
    have calls := registers.calls
    refine ⟨?_,?_,?_⟩
    · intro c inside
      simp only [calls] at inside
      rcases List.mem_cons.mp inside with rfl | old
      · exact ⟨_,List.mem_cons_self,rfl,rfl⟩
      · obtain ⟨b,started,same⟩ := begun.started c old
        exact ⟨b,List.mem_cons_of_mem _ started,same⟩
    · simp only [calls,List.map_cons]
      refine List.nodup_cons.mpr ⟨fun member => ?_,begun.apart⟩
      obtain ⟨c,inside,same⟩ := List.mem_map.mp member
      exact absent c inside same
    · intro id gone
      obtain ⟨⟨b,started,same⟩,other⟩ := begun.returned id gone
      refine ⟨⟨b,List.mem_cons_of_mem _ started,same⟩,fun c inside equal => ?_⟩
      simp only [calls] at inside
      rcases List.mem_cons.mp inside with rfl | old
      · exact fresh b started (same.trans equal.symm)
      · exact other c old equal
  | signal call member n => exact begun.signal member n
  | complete call sem member => exact begun.complete member _
  | transfer t slot f j c sem service socket rbuf receives transfers =>
    apply begun.keep
    exact transfers.rest.2.1
  | bind t i protocol given port sem mine returned binds => exact begun.keep binds.rest.2.2.1 _
  | close i =>
    apply begun.keep
    exact (socketClose_receivers i h.state).2.1

end Calls

end Buenos.Net.Pop
