import Buenos.Net.PopReceive

/-! Where packets are delivered: only to the port they are addressed to, as long as no entry of the
socket table is bound anew while a queued packet has it cached; and each to one receive, as long as
no receive is registered before the one before it has returned. -/
namespace Buenos.Net.Pop

open Buenos.Foundation

section Ports
variable {h : History}

/-- Packets that have a recipient cached are addressed to it, and so were the delivered ones. -/
structure Addressed (h : History) : Prop where
  cached : ∀ i f j, Holds h.state i f → (h.state.queue i).socket = some j →
    (h.state.sockets j).protocol = protocolPop → f.destPort = (h.state.sockets j).port
  sent : ∀ d ∈ h.deliveries, ∀ b ∈ h.starts, b.call = d.call → d.frame.destPort = b.port

/-- A POP socket is not bound while a packet to another port has its entry cached. -/
def KeepsAddress (a : Action) (h : History) : Prop :=
  match a with
  | .open protocol port sem => match socketOpen protocol port sem h.state with
    | some (some i, t) => protocol = protocolPop →
      ∀ k, ∀ f ∈ (h.state.queue k).frame, (h.state.queue k).socket = some i → f.destPort = (t.sockets i).port
    | _ => True
  | _ => True

instance (a : Action) (h : History) : Decidable (KeepsAddress a h) := by
  unfold KeepsAddress
  split
  · split <;> infer_instance
  · infer_instance

theorem initial_addressed : Addressed initialHistory := by
  constructor <;> simp [initialHistory,initial,Holds,emptySlot]

theorem recipient_port {sockets : SocketIndex → Socket} (found : recipient sockets port = some j) :
    (sockets j).port = port := by
  have holds := List.find?_some found
  simp only [Bool.and_eq_true,beq_iff_eq] at holds
  exact holds.2

theorem Addressed.keep (addressed : Addressed h) {t : State}
    (slots : ∀ i f j, Holds t i f → (t.queue i).socket = some j → Holds h.state i f ∧
      (h.state.queue i).socket = some j)
    (sockets : ∀ j, (t.sockets j).protocol = protocolPop →
      (h.state.sockets j).protocol = protocolPop ∧ (h.state.sockets j).port = (t.sockets j).port) :
    Addressed { h with state := t } := by
  refine ⟨fun i f j holds socket protocol => ?_,addressed.sent⟩
  obtain ⟨held,before⟩ := slots i f j holds socket
  obtain ⟨same,port⟩ := sockets j protocol
  rw [addressed.cached i f j held before same,port]

theorem Addressed.clear (addressed : Addressed h) (slot : SlotIndex) {t : State}
    (queue : t.queue = Function.update h.state.queue slot { h.state.queue slot with frame := none })
    (sockets : t.sockets = h.state.sockets) : Addressed { h with state := t } := by
  refine addressed.keep (fun i f j held socket => ?_) fun j protocol => by rw [sockets] at protocol ⊢; exact ⟨protocol,rfl⟩
  rw [Holds,queue] at held
  rw [queue] at socket
  have apart : i ≠ slot := by
    rintro rfl
    simp at held
  rw [Function.update_of_ne apart] at held socket
  exact ⟨held,socket⟩

theorem Addressed.pointers (addressed : Addressed h) (i : SocketIndex) {t : State} {socket : Socket}
    (queue : t.queue = h.state.queue) (sockets : t.sockets = Function.update h.state.sockets i socket)
    (protocol : socket.protocol = (h.state.sockets i).protocol) (port : socket.port = (h.state.sockets i).port) :
    Addressed { h with state := t } := by
  refine addressed.keep (fun k f j => ?_) fun j => ?_
  · rw [Holds,Holds,queue]
    exact fun held cached => ⟨held,cached⟩
  · rw [sockets]
    by_cases same : j = i
    · subst same
      rw [Function.update_self]
      exact fun pop => ⟨protocol.symm.trans pop,port.symm⟩
    · rw [Function.update_of_ne same]
      exact fun pop => ⟨pop,rfl⟩

theorem Moves.addressed (moves : Moves a h g) (served : Served h) (addressed : Addressed h)
    (keeps : KeepsAddress a h) : Addressed g := by
  cases moves with
  | calm t calm =>
    obtain ⟨-,queue,sockets,-⟩ := calm
    refine addressed.keep (fun i f j => ?_) fun j => ?_
    · rw [Holds,Holds,queue]; exact fun held socket => ⟨held,socket⟩
    · rw [sockets]; exact fun protocol => ⟨protocol,rfl⟩
  | push fromaddr frame now later =>
    unfold popPushFrame
    split
    · exact addressed
    next slot _ =>
    obtain ⟨queue,-⟩ := storeFrame_effect slot fromaddr frame later h.state
    refine addressed.keep (fun i f j held socket => ?_) fun j => ?_
    · have apart : i ≠ slot := by rintro rfl; rw [queue,Function.update_self] at socket; contradiction
      rw [Holds,queue,Function.update_of_ne apart] at held
      rw [queue,Function.update_of_ne apart] at socket
      exact ⟨held,socket⟩
    · rw [(storeFrame_receivers slot fromaddr frame later h.state).1]
      exact fun protocol => ⟨protocol,rfl⟩
  | scan =>
    obtain ⟨frames,-⟩ := scanSlots_spec h.state.sockets (List.finRange configPopQueueSize) h.state.queue
    obtain ⟨cached,-⟩ := scanSlots_socket h.state.sockets (List.finRange configPopQueueSize) h.state.queue
    refine ⟨fun i f j held socket protocol => ?_,addressed.sent⟩
    rw [Holds,frames] at held
    rcases cached i j socket with before | ⟨g,holds,found⟩
    · exact addressed.cached i f j held before protocol
    · obtain rfl : f = g := Option.some.inj (held.symm.trans holds)
      exact (recipient_port found).symm
  | discard slot f => exact addressed.clear slot rfl rfl
  | finish slot f => exact addressed.clear slot rfl rfl
  | register t call i n _ registers fresh =>
    obtain ⟨-,-,sockets,-,queue,-⟩ := registers
    have kept : Addressed { h with state := t } := addressed.pointers i queue sockets rfl rfl
    refine ⟨kept.cached,fun d member b started same => ?_⟩
    rcases List.mem_cons.mp started with rfl | old
    · obtain ⟨b,began,clash⟩ := served.delivered d member
      exact absurd (clash.trans same.symm) (fresh b began)
    · exact addressed.sent d member b old same
  | signal call member n => exact ⟨addressed.cached,addressed.sent⟩
  | complete call sem => exact ⟨addressed.cached,addressed.sent⟩
  | transfer t slot f j c sem service socket rbuf receives transfers =>
    obtain ⟨sockets,-,-,-,-,-,queue,-⟩ := transfers
    have kept : Addressed { h with state := t } := addressed.pointers j queue sockets rfl rfl
    refine ⟨kept.cached,fun d member b started same => ?_⟩
    rcases List.mem_cons.mp member with rfl | old
    · obtain ⟨held,-⟩ := served.transferring slot f service
      have registered := served.registered j c rbuf
      obtain rfl := List.inj_on_of_nodup_map served.once started registered.started same
      exact addressed.cached slot f j held socket registered.protocol
    · exact addressed.sent d old b started same
  | bind t i protocol given port sem mine returned binds =>
    subst mine
    simp only [KeepsAddress,returned] at keeps
    obtain ⟨unused,-,sockets,-,queue,-⟩ := binds
    refine ⟨fun k f j held socket pop => ?_,addressed.sent⟩
    rw [Holds,queue] at held
    rw [queue] at socket
    by_cases same : j = i
    · subst same
      refine keeps ?_ k f held socket
      rw [sockets,Function.update_self] at pop
      exact pop
    · rw [sockets,Function.update_of_ne same] at pop ⊢
      exact addressed.cached k f j held socket pop
  | close i unused =>
    refine addressed.keep (fun k f j => ?_) fun j => ?_
    · obtain ⟨queue,-⟩ := socketClose_queue i h.state
      rw [Holds,Holds,queue]; exact fun held socket => ⟨held,socket⟩
    · intro protocol
      have proper : protocolPop ≠ 0 := by decide
      have same := socketClose_open (protocol ▸ proper)
      exact ⟨same ▸ protocol,by rw [same]⟩

theorem run_addressed (meets : Meets historyStep KeepsAddress actions initialHistory)
    (ran : run historyStep actions initialHistory = some h) : Served h ∧ Addressed h := by
  have preserved : ∀ a s t, Served s ∧ Addressed s → KeepsAddress a s → historyStep a s = some t →
      Served t ∧ Addressed t := by
    intro a s t facts keeps next
    have moves := historyStep_moves facts.1 next
    exact ⟨moves.served facts.1,moves.addressed facts.1 facts.2 keeps⟩
  exact run_guarded preserved ⟨initial_served,initial_addressed⟩ meets ran

end Ports

theorem delivered_to_port (actions : List Action) (h : History)
    (meets : Meets historyStep KeepsAddress actions initialHistory)
    (ran : run historyStep actions initialHistory = some h) :
    ∀ d ∈ h.deliveries, ∃ b ∈ h.starts, b.call = d.call ∧ d.frame.destPort = b.port ∧
      ∀ e ∈ h.starts, e.call = d.call → e = b := by
  intro d member
  obtain ⟨served,addressed⟩ := run_addressed meets ran
  obtain ⟨b,started,same⟩ := served.delivered d member
  refine ⟨b,started,same,addressed.sent d member b started same,fun e other equal => ?_⟩
  exact List.inj_on_of_nodup_map served.once other started (equal.trans same.symm)

/-- A packet to port 7 waits in the queue while its socket is closed and its entry of the table is
bound to port 9. -/
def reboundRun : List Action :=
  [.open protocolPop 7 (some 0), .push 0 ⟨0, 5, 7, 4, fun _ => 1⟩ 0 0, .pushSignal, .serviceScan, .close 0,
    .open protocolPop 9 (some 0), .recvfrom 1 0 16, .recvSignal ⟨1, 0, .signal⟩, .serviceSleep, .serviceScan,
    .serviceTransfer, .recvComplete ⟨1, 0, .wait⟩]

theorem delivered_to_rebound_port : ∃ h, run historyStep reboundRun initialHistory = some h ∧
    h.returns = [1] ∧ h.starts = [⟨1, 0, 9, 16⟩] ∧
    h.deliveries.map (fun d => (d.call, d.frame.destPort)) = [(1, 7)] := by
  have reached : ((run historyStep reboundRun initialHistory).any fun (h : History) =>
      decide (h.returns = [1] ∧ h.starts = [⟨1, 0, 9, 16⟩] ∧
        h.deliveries.map (fun d => (d.call, d.frame.destPort)) = [(1, 7)])) = true := by decide +kernel
  obtain ⟨h,ran,facts⟩ := (Option.any_eq_true _ _).mp reached
  exact ⟨h,ran,of_decide_eq_true facts⟩

def deliveredRun : List Action :=
  [.open protocolPop 7 (some 0), .push 0 ⟨0, 5, 7, 4, fun _ => 1⟩ 0 0, .pushSignal, .serviceScan,
    .recvfrom 1 0 16, .recvSignal ⟨1, 0, .signal⟩, .serviceSleep, .serviceScan, .serviceTransfer,
    .recvComplete ⟨1, 0, .wait⟩, .serviceFinish, .close 0, .open protocolPop 9 (some 0)]

theorem delivered_to_port_seven : ∃ h, run historyStep deliveredRun initialHistory = some h ∧
    h.deliveries.length = 1 ∧ ∀ d ∈ h.deliveries, ∃ b ∈ h.starts, b.call = d.call ∧ d.frame.destPort = b.port := by
  have meets : Meets historyStep KeepsAddress deliveredRun initialHistory := by decide +kernel
  have reached : ((run historyStep deliveredRun initialHistory).any fun (h : History) =>
      decide (h.deliveries.length = 1)) = true := by decide +kernel
  obtain ⟨h,ran,facts⟩ := (Option.any_eq_true _ _).mp reached
  refine ⟨h,ran,of_decide_eq_true facts,fun d member => ?_⟩
  obtain ⟨b,started,same,port,-⟩ := delivered_to_port deliveredRun h meets ran d member
  exact ⟨b,started,same,port⟩

/-! ### Pairing -/

section Pairing
variable {h : History}

/-- The result variables of a call hold what the packet brought. -/
structure Stored (s : State) (d : Delivery) (bufsize : UInt32) : Prop where
  buffer : s.cells.buffer d.call = (List.range (copiedBytes d.frame bufsize)).map d.frame.body
  sender : s.cells.sender d.call = d.sender
  length : s.cells.length d.call = some (copiedBytes d.frame bufsize)
  sport : s.cells.sport d.call = d.frame.sourcePort

theorem Stored.same {s t : State} (stored : Stored s d n) (cells : t.cells = s.cells) : Stored t d n := by
  obtain ⟨buffer,sender,length,sport⟩ := stored
  exact ⟨by rwa [cells],by rwa [cells],by rwa [cells],by rwa [cells]⟩

/-- Each packet is delivered at most once, and each call gets at most one. -/
structure Copied (h : History) : Prop where
  calls : (h.deliveries.map Delivery.call).Nodup
  frames : (h.deliveries.map fun d => d.frame.id).Nodup
  accepted : ∀ d ∈ h.deliveries, d.frame.id ∈ h.state.accepted
  held : ∀ i f, Holds h.state i f → f.id ∈ h.state.accepted
  distinct : ∀ i j f g, Holds h.state i f → Holds h.state j g → f.id = g.id → i = j
  fresh : ∀ i f, Holds h.state i f → ∀ d ∈ h.deliveries, d.frame.id = f.id → h.state.service = .finish i f
  stored : ∀ d ∈ h.deliveries, ∃ b ∈ h.starts, b.call = d.call ∧ Stored h.state d b.bufsize

theorem initial_copied : Copied initialHistory := by
  constructor <;> simp [initialHistory,initial,Holds,emptySlot]

theorem Copied.keep (copied : Copied h) {t : State} (holds : ∀ i f, Holds t i f → Holds h.state i f)
    (finishing : ∀ i f, h.state.service = .finish i f → Holds t i f → t.service = .finish i f)
    (accepted : t.accepted = h.state.accepted) (cells : t.cells = h.state.cells) :
    Copied { h with state := t } := by
  refine ⟨copied.calls,copied.frames,?_,?_,?_,?_,?_⟩
  · simpa only [accepted] using copied.accepted
  · intro i f held
    change f.id ∈ t.accepted
    rw [accepted]
    exact copied.held i f (holds i f held)
  · exact fun i j f g first second => copied.distinct i j f g (holds i f first) (holds j g second)
  · exact fun i f held d member same => finishing i f (copied.fresh i f (holds i f held) d member same) held
  · intro d member
    obtain ⟨b,started,same,stored⟩ := copied.stored d member
    exact ⟨b,started,same,stored.same cells⟩

theorem Copied.push (copied : Copied h) (fresh : frame.id ∉ h.state.accepted) (fromaddr now later : UInt32) :
    Copied { h with state := (popPushFrame fromaddr frame now later h.state).2 } := by
  unfold popPushFrame
  split
  · exact copied
  next slot _ =>
  obtain ⟨queue,-,accepted,service⟩ := storeFrame_effect slot fromaddr frame later h.state
  have cells := (storeFrame_receivers slot fromaddr frame later h.state).2.2.2
  have holds := holds_update ⟨some frame,none,later,fromaddr,false⟩ queue
  have cases_ : ∀ i f, Holds (storeFrame slot fromaddr frame later h.state) i f →
      i = slot ∧ f = frame ∨ i ≠ slot ∧ Holds h.state i f := by
    intro i f held
    rw [holds] at held
    split at held
    · next here => exact .inl ⟨here,(Option.some.inj held).symm⟩
    · next apart => exact .inr ⟨apart,held⟩
  refine ⟨copied.calls,copied.frames,?_,?_,?_,?_,?_⟩
  · intro d member
    simp only [accepted]
    exact List.mem_cons_of_mem _ (copied.accepted d member)
  · intro i f held
    simp only [accepted]
    rcases cases_ i f held with ⟨-,rfl⟩ | ⟨-,before⟩
    · exact List.mem_cons_self
    · exact List.mem_cons_of_mem _ (copied.held i f before)
  · intro i j f g first second same
    rcases cases_ i f first with ⟨here,new⟩ | ⟨-,before⟩ <;>
      rcases cases_ j g second with ⟨there,new'⟩ | ⟨-,before'⟩
    · exact here.trans there.symm
    · rw [new] at same
      exact absurd (same ▸ copied.held j g before') fresh
    · rw [new'] at same
      exact absurd (same ▸ copied.held i f before) fresh
    · exact copied.distinct i j f g before before' same
  · intro i f held d member same
    simp only [service]
    rcases cases_ i f held with ⟨-,rfl⟩ | ⟨-,before⟩
    · exact absurd (same ▸ copied.accepted d member) fresh
    · exact copied.fresh i f before d member same
  · intro d member
    obtain ⟨b,started,same,stored⟩ := copied.stored d member
    exact ⟨b,started,same,stored.same cells⟩

theorem Copied.transfer (copied : Copied h) (served : Served h) (service : h.state.service = .transfer slot f)
    (rbuf : (h.state.sockets j).rbuf = some c) (transfers : Transfers slot f j c sem h.state t) :
    Copied { h with
      state := { t with service := .finish slot f }
      deliveries := ⟨c, f, (h.state.queue slot).sender⟩ :: h.deliveries } := by
  obtain ⟨-,-,buffer,sender,length,sport,queue,-,accepted⟩ := transfers
  obtain ⟨here,-⟩ := served.transferring slot f service
  have registered := served.registered j c rbuf
  have new : ∀ d ∈ h.deliveries, d.frame.id ≠ f.id := by
    intro d member same
    have finishing := copied.fresh slot f here d member same
    rw [service] at finishing
    contradiction
  have holds : ∀ i g, Holds { t with service := .finish slot f } i g ↔ Holds h.state i g := by simp [Holds,queue]
  refine ⟨?_,?_,?_,?_,?_,?_,?_⟩
  · refine List.nodup_cons.mpr ⟨fun member => ?_,copied.calls⟩
    obtain ⟨d,inside,same⟩ := List.mem_map.mp member
    exact registered.undelivered d inside same
  · refine List.nodup_cons.mpr ⟨fun member => ?_,copied.frames⟩
    obtain ⟨d,inside,same⟩ := List.mem_map.mp member
    exact new d inside same
  · intro d member
    simp only [accepted]
    rcases List.mem_cons.mp member with rfl | old
    · exact copied.held slot f here
    · exact copied.accepted d old
  · intro i g held
    simp only [accepted]
    exact copied.held i g ((holds i g).mp held)
  · intro i k g g' first second
    exact copied.distinct i k g g' ((holds i g).mp first) ((holds k g').mp second)
  · intro i g held d member same
    have before := (holds i g).mp held
    rcases List.mem_cons.mp member with rfl | old
    · obtain rfl := copied.distinct slot i f g here before same
      rw [here.unique before]
    · have finishing := copied.fresh i g before d old same
      rw [service] at finishing
      contradiction
  · intro d member
    rcases List.mem_cons.mp member with rfl | old
    · exact ⟨_,registered.started,rfl,by simp [buffer],by simp [sender],by simp [length],by simp [sport]⟩
    · obtain ⟨b,started,same,stored⟩ := copied.stored d old
      have apart := registered.undelivered d old
      exact ⟨b,started,same,by simpa [buffer,apart] using stored.buffer,by simpa [sender,apart] using stored.sender,
        by simpa [length,apart] using stored.length,by simpa [sport,apart] using stored.sport⟩

theorem Moves.copied (moves : Moves a h g) (served : Served h) (copied : Copied h) : Copied g := by
  cases moves with
  | calm t calm =>
    obtain ⟨service,queue,-,-,-,cells,accepted⟩ := calm
    refine copied.keep (fun i f held => by simpa [Holds,queue] using held) (fun i f finishing held => ?_)
      accepted cells
    rcases service with same | ⟨sleeping,-⟩
    · rw [same,finishing]
    · rw [sleeping] at finishing; contradiction
  | push fromaddr frame now later fresh => exact copied.push fresh fromaddr now later
  | scan service =>
    obtain ⟨frames,-⟩ := scanSlots_spec h.state.sockets (List.finRange configPopQueueSize) h.state.queue
    refine copied.keep (fun i f held => by rw [Holds,frames] at held; exact held) (fun i f finishing => ?_) rfl rfl
    rw [service] at finishing
    contradiction
  | discard slot f service =>
    refine copied.keep (fun i g held => ?_) (fun i g finishing => ?_) rfl rfl
    · have apart : i ≠ slot := by rintro rfl; simp [Holds,clearSlot] at held
      simpa [Holds,clearSlot,apart] using held
    · rw [service] at finishing
      contradiction
  | finish slot f service =>
    refine copied.keep (fun i g held => ?_) (fun i g finishing held => ?_) rfl rfl
    · have apart : i ≠ slot := by rintro rfl; simp [Holds,clearSlot] at held
      simpa [Holds,clearSlot,apart] using held
    · rw [service] at finishing
      cases finishing
      simp [Holds,clearSlot] at held
  | register t call i n _ registers fresh =>
    obtain ⟨-,-,-,-,queue,service,-,cells,accepted⟩ := registers
    have kept : Copied { h with state := t } :=
      copied.keep (fun i f held => by simpa [Holds,queue] using held) (fun i f finishing _ => by rw [service,finishing])
        accepted cells
    refine ⟨kept.calls,kept.frames,kept.accepted,kept.held,kept.distinct,kept.fresh,fun d member => ?_⟩
    obtain ⟨b,started,same,stored⟩ := kept.stored d member
    exact ⟨b,List.mem_cons_of_mem _ started,same,stored⟩
  | signal call member n => exact copied.keep (fun _ _ held => held) (fun _ _ same _ => same) rfl rfl
  | complete call sem =>
    obtain ⟨calls,frames,accepted,held,distinct,fresh,stored⟩ := copied
    refine ⟨calls,frames,accepted,held,distinct,fresh,fun d member => ?_⟩
    obtain ⟨b,started,same,facts⟩ := stored d member
    exact ⟨b,started,same,facts.same rfl⟩
  | transfer t slot f j c sem service socket rbuf receives transfers =>
    exact copied.transfer served service rbuf transfers
  | bind t i protocol given port sem mine returned binds =>
    obtain ⟨-,-,-,-,queue,service,-,cells,accepted⟩ := binds
    exact copied.keep (fun i f held => by simpa [Holds,queue] using held)
      (fun i f finishing _ => by rw [service,finishing]) accepted cells
  | close i unused =>
    obtain ⟨queue,service,accepted,-⟩ := socketClose_queue i h.state
    exact copied.keep (fun i f held => by simpa [Holds,queue] using held)
      (fun i f finishing _ => by rw [service,finishing]) accepted (socketClose_receivers i h.state).1

/-- A receive is registered only when no other one on the same socket is still to return. -/
def Undisturbed (a : Action) (h : History) : Prop :=
  match a with
  | .recvfrom _ i _ => (h.state.sockets i).rbuf = none → ∀ c ∈ h.state.calls, c.socket ≠ i
  | _ => True

instance (a : Action) (h : History) : Decidable (Undisturbed a h) :=
  match a with
  | .recvfrom _ i _ => inferInstanceAs (Decidable ((h.state.sockets i).rbuf = none →
      ∀ c ∈ h.state.calls, c.socket ≠ i))
  | .push .. | .pushSignal | .serviceScan | .serviceDiscard | .serviceTransfer | .serviceFinish | .serviceSleep
  | .recvSignal _ | .recvComplete _ | .open .. | .close _ => isTrue trivial

/-- A receive that has not returned waits for its packet, or for its signal alone. -/
structure Paired (h : History) : Prop where
  apart : (h.state.calls.map Call.socket).Nodup
  waiting : ∀ c ∈ h.state.calls, (h.state.sockets c.socket).rbuf = some c.id ∨
    (h.state.sockets c.socket).rbuf = none ∧ ∃ d ∈ h.deliveries, d.call = c.id
  returned : ∀ id ∈ h.returns, ∃ d ∈ h.deliveries, d.call = id
  settled : ∀ d ∈ h.deliveries, d.call ∈ h.returns ∨
    ∃ c ∈ h.state.calls, c.id = d.call ∧ (h.state.sockets c.socket).rbuf = none

theorem initial_paired : Paired initialHistory := by
  constructor <;> simp [initialHistory,initial]

theorem Paired.pending_le_one (paired : Paired h) (j : SocketIndex) : pending h.state j ≤ 1 := by
  have count := List.nodup_iff_count_le_one.mp paired.apart j
  rw [List.count_eq_countP,List.countP_map] at count
  refine le_of_eq_of_le (List.countP_congr fun c _ => ?_) count
  simp

theorem mem_of_pending {s : State} (some_ : pending s j ≠ 0) : ∃ c ∈ s.calls, c.socket = j := by
  obtain ⟨c,member,here⟩ := List.countP_pos_iff.mp (Nat.pos_of_ne_zero some_)
  exact ⟨c,member,by simpa using here⟩

theorem ne_of_pending {s : State} (none_ : pending s j = 0) (member : c ∈ s.calls) : c.socket ≠ j := by
  have apart := List.countP_eq_zero.mp none_ c member
  simpa using apart

theorem Paired.keep (paired : Paired h) {t : State} (calls : t.calls = h.state.calls)
    (sockets : ∀ c ∈ h.state.calls, (t.sockets c.socket).rbuf = (h.state.sockets c.socket).rbuf) :
    Paired { h with state := t } := by
  refine ⟨?_,?_,paired.returned,?_⟩
  · simpa only [calls] using paired.apart
  · intro c member
    change c ∈ t.calls at member
    rw [calls] at member
    change (t.sockets c.socket).rbuf = _ ∨ (t.sockets c.socket).rbuf = _ ∧ _
    rw [sockets c member]
    exact paired.waiting c member
  · intro d member
    rcases paired.settled d member with gone | ⟨c,inside,same,free⟩
    · exact .inl gone
    · refine .inr ⟨c,?_,same,?_⟩
      · change c ∈ t.calls
        rwa [calls]
      · change (t.sockets c.socket).rbuf = none
        rwa [sockets c inside]

theorem Paired.register (paired : Paired h) (registers : Registers call i n h.state t)
    (alone : ∀ c ∈ h.state.calls, c.socket ≠ i) :
    Paired { h with state := t, starts := ⟨call, i, (h.state.sockets i).port, n⟩ :: h.starts } := by
  obtain ⟨-,-,sockets,calls,-⟩ := registers
  have others : ∀ c ∈ h.state.calls, t.sockets c.socket = h.state.sockets c.socket := fun c member => by
    rw [sockets,Function.update_of_ne (alone c member)]
  refine ⟨?_,?_,paired.returned,?_⟩
  · simp only [calls,List.map_cons]
    refine List.nodup_cons.mpr ⟨fun member => ?_,paired.apart⟩
    obtain ⟨c,inside,same⟩ := List.mem_map.mp member
    exact alone c inside same
  · intro c member
    simp only [calls] at member
    rcases List.mem_cons.mp member with rfl | old
    · exact .inl (by simp [sockets])
    · simp only [others c old]
      exact paired.waiting c old
  · intro d member
    rcases paired.settled d member with gone | ⟨c,inside,same,free⟩
    · exact .inl gone
    · refine .inr ⟨c,?_,same,?_⟩
      · simp only [calls]; exact List.mem_cons_of_mem _ inside
      · simpa only [others c inside] using free

theorem Paired.signal (paired : Paired h) {call : Call} (member : call ∈ h.state.calls) (n : Nat) :
    Paired { h with state := { h.state with
      calls := ⟨call.id, call.socket, .wait⟩ :: h.state.calls.erase call
      serviceSem := n } } := by
  have split := List.perm_cons_erase member
  have old : ∀ c ∈ (⟨call.id, call.socket, .wait⟩ :: h.state.calls.erase call : List Call),
      ∃ e ∈ h.state.calls, e.id = c.id ∧ e.socket = c.socket := by
    intro c inside
    rcases List.mem_cons.mp inside with rfl | rest
    · exact ⟨call,member,rfl,rfl⟩
    · exact ⟨c,List.mem_of_mem_erase rest,rfl,rfl⟩
  refine ⟨?_,?_,paired.returned,?_⟩
  · exact ((split.map Call.socket).nodup_iff).mp paired.apart
  · intro c inside
    obtain ⟨e,before,id,socket⟩ := old c inside
    rw [← id,← socket]
    exact paired.waiting e before
  · intro d delivered
    rcases paired.settled d delivered with gone | ⟨c,inside,same,free⟩
    · exact .inl gone
    · rcases List.mem_cons.mp (split.mem_iff.mp inside) with rfl | rest
      · exact .inr ⟨_,List.mem_cons_self,same,free⟩
      · exact .inr ⟨c,List.mem_cons_of_mem _ rest,same,free⟩

theorem Paired.complete (paired : Paired h) (served : Served h) {call : Call} (member : call ∈ h.state.calls)
    (receives : (h.state.sockets call.socket).receiveComplete = some sem) (signalled : h.state.semaphores sem ≠ 0) :
    Paired { h with
      state := { h.state with
        calls := h.state.calls.erase call
        semaphores := Function.update h.state.semaphores sem (h.state.semaphores sem - 1) }
      returns := call.id :: h.returns } := by
  have free : (h.state.sockets call.socket).rbuf = none := by
    have balance := served.balance call.socket sem receives
    have single := paired.pending_le_one call.socket
    cases rbuf : (h.state.sockets call.socket).rbuf with
    | none => rfl
    | some c =>
      rw [rbuf] at balance
      simp only [Option.isSome_some,if_true] at balance
      omega
  obtain ⟨d,delivered,mine⟩ : ∃ d ∈ h.deliveries, d.call = call.id := by
    rcases paired.waiting call member with waits | ⟨-,delivered⟩
    · rw [free] at waits; contradiction
    · exact delivered
  have split := List.perm_cons_erase member
  have apart := (List.nodup_cons.mp (((split.map Call.socket).nodup_iff).mp paired.apart)).2
  refine ⟨apart,?_,?_,?_⟩
  · exact fun c inside => paired.waiting c (List.mem_of_mem_erase inside)
  · intro id gone
    rcases List.mem_cons.mp gone with rfl | old
    · exact ⟨d,delivered,mine⟩
    · exact paired.returned id old
  · intro e inside
    rcases paired.settled e inside with gone | ⟨c,there,same,empty⟩
    · exact .inl (List.mem_cons_of_mem _ gone)
    · rcases List.mem_cons.mp (split.mem_iff.mp there) with rfl | rest
      · exact .inl (by rw [← same]; exact List.mem_cons_self)
      · exact .inr ⟨c,rest,same,empty⟩

theorem Paired.transfer (paired : Paired h) (served : Served h) (rbuf : (h.state.sockets j).rbuf = some c)
    (receives : (h.state.sockets j).receiveComplete = some sem)
    (transfers : Transfers slot f j c sem h.state t) (phase : Service) (sender : UInt32) :
    Paired { h with state := { t with service := phase }, deliveries := ⟨c, f, sender⟩ :: h.deliveries } := by
  obtain ⟨sockets,-,-,-,-,-,-,calls,-⟩ := transfers
  have others : ∀ k, k ≠ j → t.sockets k = h.state.sockets k := fun k apart => by
    rw [sockets,Function.update_of_ne apart]
  have here : (t.sockets j).rbuf = none := by rw [sockets,Function.update_self]
  obtain ⟨e,member,on,mine⟩ : ∃ e ∈ h.state.calls, e.socket = j ∧ e.id = c := by
    have balance := served.balance j sem receives
    rw [rbuf] at balance
    simp only [Option.isSome_some,if_true] at balance
    obtain ⟨e,member,on⟩ := mem_of_pending (by omega : pending h.state j ≠ 0)
    refine ⟨e,member,on,?_⟩
    rcases paired.waiting e member with waits | ⟨free,-⟩
    · rw [on,rbuf] at waits; exact (Option.some.inj waits).symm
    · rw [on,rbuf] at free; contradiction
  refine ⟨?_,?_,?_,?_⟩
  · simpa only [calls] using paired.apart
  · intro x inside
    change x ∈ t.calls at inside
    rw [calls] at inside
    change (t.sockets x.socket).rbuf = _ ∨ (t.sockets x.socket).rbuf = _ ∧ _
    by_cases same : x.socket = j
    · obtain rfl := List.inj_on_of_nodup_map paired.apart inside member (same.trans on.symm)
      rw [same]
      exact .inr ⟨here,_,List.mem_cons_self,mine.symm⟩
    · rw [others x.socket same]
      exact (paired.waiting x inside).imp id fun ⟨free,d,delivered,equal⟩ =>
        ⟨free,d,List.mem_cons_of_mem _ delivered,equal⟩
  · intro id gone
    obtain ⟨d,delivered,same⟩ := paired.returned id gone
    exact ⟨d,List.mem_cons_of_mem _ delivered,same⟩
  · intro d delivered
    rcases List.mem_cons.mp delivered with rfl | old
    · refine .inr ⟨e,?_,mine,?_⟩
      · change e ∈ t.calls
        rwa [calls]
      · change (t.sockets e.socket).rbuf = none
        rw [on,here]
    · rcases paired.settled d old with gone | ⟨x,inside,same,free⟩
      · exact .inl gone
      · refine .inr ⟨x,?_,same,?_⟩
        · change x ∈ t.calls
          rwa [calls]
        · change (t.sockets x.socket).rbuf = none
          have apart : x.socket ≠ j := by intro clash; rw [clash,rbuf] at free; contradiction
          rwa [others x.socket apart]

theorem Moves.paired (moves : Moves a h g) (served : Served h) (paired : Paired h)
    (undisturbed : Undisturbed a h) : Paired g := by
  cases moves with
  | calm t calm =>
    obtain ⟨-,-,sockets,calls,-⟩ := calm
    exact paired.keep calls fun c _ => by rw [sockets]
  | push fromaddr frame now later =>
    obtain ⟨sockets,calls⟩ := popPushFrame_receivers fromaddr frame now later h.state
    exact paired.keep calls fun c _ => by rw [sockets]
  | scan => exact paired.keep rfl fun _ _ => rfl
  | discard slot f => exact paired.keep rfl fun _ _ => rfl
  | finish slot f => exact paired.keep rfl fun _ _ => rfl
  | register t call i n mine registers fresh =>
    subst mine
    exact paired.register registers (undisturbed registers.free)
  | signal call member n => exact paired.signal member n
  | complete call sem member receives signalled => exact paired.complete served member receives signalled
  | transfer t slot f j c sem service socket rbuf receives transfers =>
    exact paired.transfer served rbuf receives transfers _ _
  | bind t i protocol given port sem mine returned binds =>
    obtain ⟨unused,-,sockets,-,-,-,calls,-⟩ := binds
    have none_ := (served.idle i ((served.closed i).mp unused)).1
    refine paired.keep calls fun c member => ?_
    rw [sockets,Function.update_of_ne (ne_of_pending none_ member)]
  | close i unused =>
    refine paired.keep (socketClose_receivers i h.state).2.1 fun c member => ?_
    have apart : c.socket ≠ i := by simpa using List.any_eq_false.mp unused c member
    rw [socketClose_other h.state apart]

theorem run_paired (meets : Meets historyStep Undisturbed actions initialHistory)
    (ran : run historyStep actions initialHistory = some h) : (Served h ∧ Copied h) ∧ Paired h := by
  have preserved : ∀ a s t, (Served s ∧ Copied s) ∧ Paired s → Undisturbed a s → historyStep a s = some t →
      (Served t ∧ Copied t) ∧ Paired t := by
    intro a s t facts undisturbed next
    obtain ⟨⟨served,copied⟩,paired⟩ := facts
    have moves := historyStep_moves served next
    exact ⟨⟨moves.served served,moves.copied served copied⟩,moves.paired served paired undisturbed⟩
  exact run_guarded preserved ⟨⟨initial_served,initial_copied⟩,initial_paired⟩ meets ran

end Pairing

theorem receives_paired (actions : List Action) (h : History)
    (meets : Meets historyStep Undisturbed actions initialHistory)
    (ran : run historyStep actions initialHistory = some h) :
    (∀ id ∈ h.returns, ∃ d ∈ h.deliveries, d.call = id ∧ (∀ e ∈ h.deliveries, e.call = id → e = d) ∧
      ∃ b ∈ h.starts, b.call = id ∧ Stored h.state d b.bufsize) ∧
    (∀ d ∈ h.deliveries, ∀ e ∈ h.deliveries, d.frame.id = e.frame.id → d = e) ∧
    ∀ d ∈ h.deliveries, d.call ∈ h.returns ∨ ∃ c ∈ h.state.calls, c.id = d.call ∧
      ∃ sem, (h.state.sockets c.socket).receiveComplete = some sem ∧ h.state.semaphores sem = 1 := by
  obtain ⟨⟨served,copied⟩,paired⟩ := run_paired meets ran
  refine ⟨fun id gone => ?_,fun d member e inside same => ?_,fun d member => ?_⟩
  · obtain ⟨d,delivered,mine⟩ := paired.returned id gone
    obtain ⟨b,started,same,stored⟩ := copied.stored d delivered
    refine ⟨d,delivered,mine,fun e inside equal => ?_,b,started,same.trans mine,stored⟩
    exact List.inj_on_of_nodup_map copied.calls inside delivered (equal.trans mine.symm)
  · exact List.inj_on_of_nodup_map copied.frames member inside same
  · rcases paired.settled d member with gone | ⟨c,inside,mine,free⟩
    · exact .inl gone
    · have single := paired.pending_le_one c.socket
      have positive : pending h.state c.socket ≠ 0 := fun none_ => ne_of_pending none_ inside rfl
      cases receives : (h.state.sockets c.socket).receiveComplete with
      | none => exact absurd (served.idle c.socket receives).1 positive
      | some sem =>
        have balance := served.balance c.socket sem receives
        rw [free] at balance
        simp only [Option.isSome_none,Bool.false_eq_true,if_false] at balance
        exact .inr ⟨c,inside,mine,sem,receives,by omega⟩

/-- A receive gets its packet; before it has waited for its signal, a second one on the same socket
is registered and takes the signal. -/
def stolenSignalRun : List Action :=
  [.open protocolPop 7 (some 0), .recvfrom 1 0 16, .recvSignal ⟨1, 0, .signal⟩,
    .push 0 ⟨0, 5, 7, 4, fun _ => 1⟩ 0 0, .serviceScan, .serviceTransfer, .recvfrom 2 0 16,
    .recvSignal ⟨2, 0, .signal⟩, .recvComplete ⟨2, 0, .wait⟩]

theorem return_without_packet : ∃ h, run historyStep stolenSignalRun initialHistory = some h ∧
    h.returns = [2] ∧ h.deliveries.map Delivery.call = [1] ∧ h.state.cells.length 2 = none ∧
    (h.state.sockets 0).rbuf = some 2 := by
  have reached : ((run historyStep stolenSignalRun initialHistory).any fun (h : History) =>
      decide (h.returns = [2] ∧ h.deliveries.map Delivery.call = [1] ∧ h.state.cells.length 2 = none ∧
        (h.state.sockets 0).rbuf = some 2)) = true := by decide +kernel
  obtain ⟨h,ran,facts⟩ := (Option.any_eq_true _ _).mp reached
  exact ⟨h,ran,of_decide_eq_true facts⟩

theorem receives_paired_delivered : ∃ h, run historyStep deliveredRun initialHistory = some h ∧
    1 ∈ h.returns ∧ ∃ d ∈ h.deliveries, d.call = 1 ∧ ∀ e ∈ h.deliveries, e.call = 1 → e = d := by
  have meets : Meets historyStep Undisturbed deliveredRun initialHistory := by decide +kernel
  have reached : ((run historyStep deliveredRun initialHistory).any fun (h : History) =>
      decide (1 ∈ h.returns)) = true := by decide +kernel
  obtain ⟨h,ran,facts⟩ := (Option.any_eq_true _ _).mp reached
  have gone := of_decide_eq_true facts
  obtain ⟨d,member,mine,unique,-⟩ := (receives_paired deliveredRun h meets ran).1 1 gone
  exact ⟨h,ran,gone,d,member,mine,unique⟩

end Buenos.Net.Pop
