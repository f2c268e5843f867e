import Buenos.Net.Pop

/-! Who owns a packet: the producer until it is accepted, then one queue slot, then
nobody once it has been freed. The discard of the service thread is the one action
that relies on a slot it has not marked busy; `SparesDiscard` is what it relies on. -/
namespace Buenos.Net.Pop

open Buenos.Foundation

def Holds (s : State) (i : SlotIndex) (f : Frame) : Prop := (s.queue i).frame = some f

theorem Holds.unique (first : Holds s i f) (second : Holds s i g) : f = g :=
  Option.some.inj (first.symm.trans second)

/-- What the pending unlocked action of the service thread relies on. -/
def Chosen (s : State) : Service → Prop
  | .discard i f => Holds s i f
  | .transfer i f => Holds s i f ∧ (s.queue i).busy = true ∧ (s.queue i).socket ≠ none
  | .finish i f => Holds s i f ∧ (s.queue i).busy = true ∧ f.id ∈ s.freed
  | _ => True

structure Owned (s : State) : Prop where
  freedOnce : s.freed.Nodup
  freedAccepted : ∀ id ∈ s.freed, id ∈ s.accepted
  heldAccepted : ∀ i f, Holds s i f → f.id ∈ s.accepted
  distinct : ∀ i j f g, Holds s i f → Holds s j g → f.id = g.id → i = j
  live : ∀ i f, Holds s i f → f.id ∈ s.freed → s.service = .finish i f
  kept : ∀ id ∈ s.accepted, id ∈ s.freed ∨ ∃ i f, Holds s i f ∧ f.id = id
  chosen : Chosen s s.service

theorem initial_owned : Owned initial := by
  constructor <;> simp [initial,Holds,emptySlot,Chosen]

theorem Owned.of_eq (owned : Owned s) (queue : t.queue = s.queue) (service : t.service = s.service)
    (accepted : t.accepted = s.accepted) (freed : t.freed = s.freed) : Owned t := by
  obtain ⟨once,sub,held,distinct,live,kept,chosen⟩ := owned
  have holds : ∀ i f, Holds t i f ↔ Holds s i f := by simp [Holds,queue]
  refine ⟨?_,?_,?_,?_,?_,?_,?_⟩
  · rwa [freed]
  · simpa [freed,accepted] using sub
  · simpa [holds,accepted] using held
  · simpa [holds] using distinct
  · simpa [holds,freed,service] using live
  · simpa [holds,freed,accepted] using kept
  · rw [service]
    cases at_ : s.service <;> simp_all [Chosen,Holds]

/-! ### The slot chosen by a producer -/

/-- The two results of the search: an empty slot and a slot that is not busy. -/
def Sound (queue : SlotIndex → Slot) (found : Option SlotIndex × Option SlotIndex) : Prop :=
  (∀ j, found.1 = some j → (queue j).frame = none) ∧
  (∀ j, found.2 = some j → (queue j).busy = false)

theorem considerSlot_sound (queue : SlotIndex → Slot) (found : Option SlotIndex × Option SlotIndex)
    (i : SlotIndex) (sound : Sound queue found) : Sound queue (considerSlot queue found i) := by
  constructor
  · intro j chosen
    simp only [considerSlot] at chosen
    split at chosen
    · next h =>
      cases chosen
      simp only [Bool.and_eq_true,Option.isNone_iff_eq_none] at h
      exact h.2
    · exact sound.1 j chosen
  · intro j chosen
    simp only [considerSlot] at chosen
    split at chosen
    · next h =>
      cases chosen
      simp only [Bool.and_eq_true,Bool.not_eq_true'] at h
      exact h.1
    · exact sound.2 j chosen

theorem searchSlots_sound (queue : SlotIndex → Slot) : Sound queue (searchSlots queue) := by
  have general : ∀ (slots : List SlotIndex) (found : Option SlotIndex × Option SlotIndex),
      Sound queue found → Sound queue (slots.foldl (considerSlot queue) found) := by
    intro slots
    induction slots with
    | nil => exact fun _ sound => sound
    | cons i rest ih => exact fun found sound => ih _ (considerSlot_sound queue found i sound)
  exact general _ _ (by simp [Sound])

/-- A producer stores into an empty slot or evicts a slot that is not busy. -/
theorem pushSlot_sound (chosen : pushSlot queue now = some i) :
    (queue i).frame = none ∨ (queue i).busy = false := by
  have sound := searchSlots_sound queue
  unfold pushSlot at chosen
  generalize searchSlots queue = found at sound chosen
  obtain ⟨_ | free, _ | oldest⟩ := found
  · contradiction
  · dsimp only at chosen
    split at chosen
    · contradiction
    · cases chosen
      exact .inr (sound.2 _ rfl)
  all_goals
    cases chosen
    exact .inl (sound.1 _ rfl)

/-! ### The locked scan -/

/-- The scan changes no packet, marks no slot but the one it returns for transfer, and
returns a slot that holds the packet it saw. -/
theorem scanSlots_spec (sockets : SocketIndex → Socket) (slots : List SlotIndex)
    (queue : SlotIndex → Slot) :
    (∀ i, ((scanSlots sockets slots queue).1 i).frame = (queue i).frame) ∧
    match (scanSlots sockets slots queue).2 with
    | .discard i f => (queue i).frame = some f
    | .transfer i f => (queue i).frame = some f ∧
        ((scanSlots sockets slots queue).1 i).busy = true ∧
        ((scanSlots sockets slots queue).1 i).socket ≠ none
    | .sleep => True
    | _ => False := by
  induction slots generalizing queue with
  | nil => simp [scanSlots]
  | cons i rest ih =>
    cases frame : (queue i).frame with
    | none => simpa only [scanSlots,frame] using ih queue
    | some f =>
      have same : ∀ (slot : Slot), slot.frame = some f → ∀ j,
          (Function.update queue i slot j).frame = (queue j).frame := by
        intro slot holds j
        by_cases at_ : j = i
        · subst at_; simp [holds,frame]
        · simp [Function.update_of_ne at_]
      cases socket : slotSocket sockets (queue i) f with
      | none => simp [scanSlots,frame,socket]
      | some j =>
        simp only [scanSlots,frame,socket]
        split
        · exact ⟨same _ rfl,frame⟩
        split
        · refine ⟨fun k => ?_,frame,by simp,by simp⟩
          simpa using same { queue i with frame := some f, socket := some j, busy := true } rfl k
        · have noted := same ⟨some f,some j,(queue i).timestamp,(queue i).sender,(queue i).busy⟩ rfl
          simpa only [noted] using ih (Function.update queue i
            ⟨some f,some j,(queue i).timestamp,(queue i).sender,(queue i).busy⟩)

/-! ### One step -/

def discarding : Service → Option SlotIndex
  | .discard slot _ => some slot
  | _ => none

def taken (s : State) : Action → Option SlotIndex
  | .push _ _ now _ => pushSlot s.queue now
  | _ => none

/-- No producer takes the slot that the service thread is about to discard. -/
def SparesDiscard (a : Action) (s : State) : Prop := ∀ slot ∈ discarding s.service, taken s a ≠ some slot

instance (a : Action) (s : State) : Decidable (SparesDiscard a s) :=
  inferInstanceAs (Decidable (∀ slot ∈ discarding s.service, taken s a ≠ some slot))

@[simp] theorem networkFreeFrame_queue : (networkFreeFrame f s).queue = s.queue := rfl
@[simp] theorem networkFreeFrame_freed : (networkFreeFrame f s).freed = f.id :: s.freed := rfl
@[simp] theorem networkFreeFrame_accepted : (networkFreeFrame f s).accepted = s.accepted := rfl
@[simp] theorem networkFreeFrame_service : (networkFreeFrame f s).service = s.service := rfl

theorem holds_update (slot : Slot) (same : t.queue = Function.update s.queue i slot) (j : SlotIndex)
    (f : Frame) : Holds t j f ↔ if j = i then slot.frame = some f else Holds s j f := by
  by_cases at_ : j = i
  · subst at_; simp [Holds,same]
  · simp [Holds,same,at_]

theorem Owned.replace (owned : Owned s) (new : Slot)
    (queue : t.queue = Function.update s.queue i new)
    (freed : t.freed = ((s.queue i).frame.map Frame.id).toList ++ s.freed)
    (accepted : t.accepted = (new.frame.map Frame.id).toList ++ s.accepted)
    (fresh : ∀ f, new.frame = some f → f.id ∉ s.accepted)
    (unfreed : ∀ f, Holds s i f → f.id ∉ s.freed)
    (service : ∀ j f, s.service = .finish j f → t.service = .finish j f)
    (chosen : Chosen t t.service) : Owned t := by
  have holds := holds_update new queue
  have inFreed : ∀ id, id ∈ t.freed ↔ (∃ f, Holds s i f ∧ f.id = id) ∨ id ∈ s.freed := by
    simp [freed,Holds]
  have inAccepted : ∀ id, id ∈ t.accepted ↔ (∃ f, new.frame = some f ∧ f.id = id) ∨ id ∈ s.accepted := by
    simp [accepted]
  refine ⟨?_,?_,?_,?_,?_,?_,chosen⟩
  · rw [freed]
    cases old : (s.queue i).frame with
    | none => simpa using owned.freedOnce
    | some f => simpa using ⟨unfreed f old,owned.freedOnce⟩
  · intro id member
    rw [inAccepted]
    rcases (inFreed id).mp member with ⟨f,held,rfl⟩ | member
    · exact .inr (owned.heldAccepted i f held)
    · exact .inr (owned.freedAccepted id member)
  · intro j f held
    rw [inAccepted]
    rw [holds] at held
    split at held
    · exact .inl ⟨f,held,rfl⟩
    · exact .inr (owned.heldAccepted j f held)
  · intro j k f g heldF heldG same
    rw [holds] at heldF heldG
    split at heldF <;> split at heldG
    · next atF atG => exact atF.trans atG.symm
    · exact absurd (same ▸ owned.heldAccepted k g heldG) (fresh f heldF)
    · exact absurd (same ▸ owned.heldAccepted j f heldF) (fresh g heldG)
    · exact owned.distinct j k f g heldF heldG same
  · intro j f held member
    rw [holds] at held
    rcases (inFreed f.id).mp member with ⟨old,heldOld,same⟩ | member
    · split at held
      · exact absurd (same ▸ owned.heldAccepted i old heldOld) (fresh f held)
      · next apart => exact absurd (owned.distinct j i f old held heldOld same.symm) apart
    · split at held
      · exact absurd (owned.freedAccepted _ member) (fresh f held)
      · exact service j f (owned.live j f held member)
  · intro id member
    rw [inFreed]
    rcases (inAccepted id).mp member with ⟨f,frame,rfl⟩ | member
    · exact .inr ⟨i,f,by simp [holds,frame],rfl⟩
    · rcases owned.kept id member with gone | ⟨j,f,held,rfl⟩
      · exact .inl (.inr gone)
      · by_cases at_ : j = i
        · subst at_; exact .inl (.inl ⟨f,held,rfl⟩)
        · exact .inr ⟨j,f,by simpa [holds,at_] using held,rfl⟩

theorem Owned.unfreed (owned : Owned s) (idle : (s.queue i).busy = false) (held : Holds s i f) :
    f.id ∉ s.freed := by
  intro member
  have finishing := owned.live i f held member
  have chosen := owned.chosen
  rw [finishing] at chosen
  simp [chosen.2.1] at idle

/-- A producer that spares the slot to be discarded disturbs no pending action: the
other two actions have marked their slot busy. -/
theorem Chosen.update (chosen : Chosen s s.service) (queue : t.queue = Function.update s.queue i new)
    (freed : ∀ id ∈ s.freed, id ∈ t.freed)
    (empty : (s.queue i).frame = none ∨ (s.queue i).busy = false)
    (spared : ∀ f, s.service ≠ .discard i f) : Chosen t s.service := by
  have apart : ∀ j f, Holds s j f → (s.queue j).busy = true → j ≠ i := by
    rintro j f held busy rfl
    rcases empty with none | idle
    · simp [Holds,none] at held
    · simp [busy] at idle
  have same : ∀ j, j ≠ i → t.queue j = s.queue j := by
    intro j different
    rw [queue,Function.update_of_ne different]
  cases service : s.service with
  | scan => trivial
  | sleep => trivial
  | discard j f =>
    have different : j ≠ i := by rintro rfl; exact spared f service
    rw [service] at chosen
    simpa [Chosen,Holds,same j different] using chosen
  | transfer j f =>
    rw [service] at chosen
    simpa [Chosen,Holds,same j (apart j f chosen.1 chosen.2.1)] using chosen
  | finish j f =>
    rw [service] at chosen
    have stay := same j (apart j f chosen.1 chosen.2.1)
    exact ⟨by simpa [Holds,stay] using chosen.1,by rw [stay]; exact chosen.2.1,freed _ chosen.2.2⟩

theorem storeFrame_effect (i : SlotIndex) (fromaddr : UInt32) (frame : Frame) (later : UInt32)
    (s : State) :
    (storeFrame i fromaddr frame later s).queue =
      Function.update s.queue i ⟨some frame,none,later,fromaddr,false⟩ ∧
    (storeFrame i fromaddr frame later s).freed =
      ((s.queue i).frame.map Frame.id).toList ++ s.freed ∧
    (storeFrame i fromaddr frame later s).accepted = frame.id :: s.accepted ∧
    (storeFrame i fromaddr frame later s).service = s.service := by
  cases old : (s.queue i).frame <;> simp [storeFrame,old]

theorem storeFrame_receivers (i : SlotIndex) (fromaddr : UInt32) (frame : Frame) (later : UInt32) (s : State) :
    (storeFrame i fromaddr frame later s).sockets = s.sockets ∧ (storeFrame i fromaddr frame later s).calls = s.calls ∧
    (storeFrame i fromaddr frame later s).semaphores = s.semaphores ∧
    (storeFrame i fromaddr frame later s).cells = s.cells := by
  unfold storeFrame
  split <;> exact ⟨rfl,rfl,rfl,rfl⟩

theorem popPushFrame_receivers (fromaddr : UInt32) (frame : Frame) (now later : UInt32) (s : State) :
    (popPushFrame fromaddr frame now later s).2.sockets = s.sockets ∧
    (popPushFrame fromaddr frame now later s).2.calls = s.calls := by
  unfold popPushFrame
  split
  · exact ⟨rfl,rfl⟩
  · next i _ =>
    obtain ⟨sockets,calls,_⟩ := storeFrame_receivers i fromaddr frame later s
    exact ⟨sockets,calls⟩

theorem popPushFrame_owned (owned : Owned s) (fresh : frame.id ∉ s.accepted)
    (spares : SparesDiscard (.push fromaddr frame now later) s) :
    Owned (popPushFrame fromaddr frame now later s).2 := by
  unfold popPushFrame
  split
  · exact owned
  · next i at_ =>
    obtain ⟨queue,freed,accepted,service⟩ := storeFrame_effect i fromaddr frame later s
    have sound := pushSlot_sound at_
    have spared : ∀ f, s.service ≠ .discard i f := by
      intro f service
      simp [SparesDiscard,discarding,taken,service,at_] at spares
    refine owned.replace _ queue freed accepted ?_ ?_ ?_ ?_
    · rintro f ⟨⟩; exact fresh
    · intro f held
      rcases sound with none | idle
      · simp [Holds,none] at held
      · exact owned.unfreed idle held
    · intro j f finishing; rw [service,finishing]
    · rw [service]
      exact owned.chosen.update queue (by simp [freed]; exact fun id h => .inr h) sound spared

theorem discard_owned (owned : Owned s) (service : s.service = .discard i f) :
    Owned { clearSlot i (networkFreeFrame f s) with service := .scan } := by
  have held : Holds s i f := by simpa [service,Chosen] using owned.chosen
  refine owned.replace { s.queue i with frame := none } rfl ?_ rfl (by simp) ?_ (by simp [service]) trivial
  · rw [show (s.queue i).frame = some f from held]; rfl
  · intro g heldG member
    simpa [service] using owned.live i g heldG member

theorem finish_owned (owned : Owned s) (service : s.service = .finish i f) :
    Owned { clearSlot i s with service := .scan } := by
  obtain ⟨held,busy,gone⟩ : Holds s i f ∧ (s.queue i).busy = true ∧ f.id ∈ s.freed := by
    simpa [service,Chosen] using owned.chosen
  have holds : ∀ j g, Holds { clearSlot i s with service := .scan } j g ↔ j ≠ i ∧ Holds s j g := by
    intro j g
    rw [holds_update { s.queue i with frame := none } rfl]
    by_cases at_ : j = i <;> simp [at_,Holds]
  refine ⟨owned.freedOnce,owned.freedAccepted,?_,?_,?_,?_,trivial⟩
  · intro j g heldG
    exact owned.heldAccepted j g ((holds j g).mp heldG).2
  · intro j k g h heldG heldH same
    exact owned.distinct j k g h ((holds j g).mp heldG).2 ((holds k h).mp heldH).2 same
  · intro j g heldG member
    obtain ⟨apart,heldG⟩ := (holds j g).mp heldG
    have finishing := owned.live j g heldG member
    simp only [service,Service.finish.injEq] at finishing
    exact absurd finishing.1.symm apart
  · intro id member
    rcases owned.kept id member with gone | ⟨j,g,heldG,rfl⟩
    · exact .inl gone
    · by_cases at_ : j = i
      · subst at_
        rw [heldG.unique held]
        exact .inl gone
      · exact .inr ⟨j,g,(holds j g).mpr ⟨at_,heldG⟩,rfl⟩

theorem transferFrame_effect (socket : (s.queue i).socket ≠ none) :
    (transferFrame i f s).queue = s.queue ∧ (transferFrame i f s).freed = f.id :: s.freed ∧
    (transferFrame i f s).accepted = s.accepted := by
  cases sock : (s.queue i).socket with
  | none => exact absurd sock socket
  | some j => cases sem : (s.sockets j).receiveComplete <;> simp [transferFrame,sock,sem]

theorem transfer_owned (owned : Owned s) (service : s.service = .transfer i f) :
    Owned { transferFrame i f s with service := .finish i f } := by
  obtain ⟨held,busy,socket⟩ : Holds s i f ∧ (s.queue i).busy = true ∧ (s.queue i).socket ≠ none := by
    simpa [service,Chosen] using owned.chosen
  obtain ⟨queue,freed,accepted⟩ := transferFrame_effect (f := f) socket
  have unfreed : ∀ j g, Holds s j g → g.id ∉ s.freed := by
    intro j g heldG member
    simpa [service] using owned.live j g heldG member
  refine ⟨?_,?_,?_,?_,?_,?_,?_⟩
  · simpa [freed] using ⟨unfreed i f held,owned.freedOnce⟩
  · simpa [freed,accepted] using ⟨owned.heldAccepted i f held,owned.freedAccepted⟩
  · simpa [Holds,queue,accepted] using owned.heldAccepted
  · simpa [Holds,queue] using owned.distinct
  · intro j g heldG member
    replace heldG : Holds s j g := by simpa [Holds,queue] using heldG
    simp only [freed,List.mem_cons] at member
    rcases member with same | member
    · have at_ := owned.distinct j i g f heldG held same
      subst at_
      rw [heldG.unique held]
    · exact absurd member (unfreed j g heldG)
  · intro id member
    simp only [accepted] at member
    rcases owned.kept id member with gone | ⟨j,g,heldG,same⟩
    · exact .inl (by simp [freed,gone])
    · exact .inr ⟨j,g,by simpa [Holds,queue] using heldG,same⟩
  · exact ⟨by simpa [Holds,queue] using held,by simpa [queue] using busy,by simp [freed]⟩

theorem scan_owned (owned : Owned s) (service : s.service = .scan) :
    Owned { s with
      queue := (scanSlots s.sockets (List.finRange configPopQueueSize) s.queue).1
      service := (scanSlots s.sockets (List.finRange configPopQueueSize) s.queue).2 } := by
  obtain ⟨same,returned⟩ := scanSlots_spec s.sockets (List.finRange configPopQueueSize) s.queue
  generalize scanSlots s.sockets (List.finRange configPopQueueSize) s.queue = scanned at same returned
  have holds : ∀ i f, Holds { s with queue := scanned.1, service := scanned.2 } i f ↔ Holds s i f := by
    simp [Holds,same]
  refine ⟨owned.freedOnce,owned.freedAccepted,?_,?_,?_,?_,?_⟩
  · simpa [holds] using owned.heldAccepted
  · simpa [holds] using owned.distinct
  · intro i f held member
    simpa [service] using owned.live i f ((holds i f).mp held) member
  · simpa [holds] using owned.kept
  · obtain ⟨queue,next⟩ := scanned
    cases next <;> simp_all [Chosen,Holds]

theorem socketRecvfrom_queue (returned : socketRecvfrom call i buflength s = some t) :
    t.queue = s.queue ∧ t.service = s.service ∧ t.accepted = s.accepted ∧ t.freed = s.freed := by
  unfold socketRecvfrom at returned
  split at returned
  · contradiction
  · cases returned; exact ⟨rfl,rfl,rfl,rfl⟩

theorem socketOpen_queue (returned : socketOpen protocol port sem s = some result) :
    result.2.queue = s.queue ∧ result.2.service = s.service ∧
    result.2.accepted = s.accepted ∧ result.2.freed = s.freed := by
  unfold socketOpen at returned
  split at returned
  · cases returned; exact ⟨rfl,rfl,rfl,rfl⟩
  split at returned
  · cases returned; exact ⟨rfl,rfl,rfl,rfl⟩
  obtain ⟨chosen,-,rfl⟩ := Option.map_eq_some_iff.mp returned
  unfold bindSocket
  split
  · exact ⟨rfl,rfl,rfl,rfl⟩
  · split <;> exact ⟨rfl,rfl,rfl,rfl⟩

theorem socketClose_queue (i : SocketIndex) (s : State) :
    (socketClose i s).queue = s.queue ∧ (socketClose i s).service = s.service ∧
    (socketClose i s).accepted = s.accepted ∧ (socketClose i s).freed = s.freed := by
  unfold socketClose
  split <;> exact ⟨rfl,rfl,rfl,rfl⟩

theorem socketClose_receivers (i : SocketIndex) (s : State) :
    (socketClose i s).cells = s.cells ∧ (socketClose i s).calls = s.calls ∧
    (socketClose i s).semaphores = s.semaphores := by
  unfold socketClose
  split <;> exact ⟨rfl,rfl,rfl⟩

theorem socketClose_other (s : State) (apart : j ≠ i) : (socketClose i s).sockets j = s.sockets j := by
  unfold socketClose
  split
  · rfl
  · exact Function.update_of_ne apart _ _

theorem socketClose_open (opened : ((socketClose i s).sockets j).protocol ≠ 0) :
    (socketClose i s).sockets j = s.sockets j := by
  by_cases same : j = i
  · subst same
    unfold socketClose at opened ⊢
    split at opened
    · next closed => rw [if_pos closed]
    · simp at opened
  · exact socketClose_other s same

/-- What each action does, and when. -/
inductive Stepped (s : State) : Action → State → Prop where
  | push (fromaddr : UInt32) (frame : Frame) (now later : UInt32) (fresh : frame.id ∉ s.accepted) :
    Stepped s (.push fromaddr frame now later) (popPushFrame fromaddr frame now later s).2
  | pushSignal (owing : s.signals ≠ 0) :
    Stepped s .pushSignal { s with signals := s.signals - 1, serviceSem := s.serviceSem + 1 }
  | serviceScan (service : s.service = .scan) : Stepped s .serviceScan { s with
      queue := (scanSlots s.sockets (List.finRange configPopQueueSize) s.queue).1
      service := (scanSlots s.sockets (List.finRange configPopQueueSize) s.queue).2 }
  | serviceDiscard (i : SlotIndex) (f : Frame) (service : s.service = .discard i f) :
    Stepped s .serviceDiscard { clearSlot i (networkFreeFrame f s) with service := .scan }
  | serviceTransfer (i : SlotIndex) (f : Frame) (service : s.service = .transfer i f) :
    Stepped s .serviceTransfer { transferFrame i f s with service := .finish i f }
  | serviceFinish (i : SlotIndex) (f : Frame) (service : s.service = .finish i f) :
    Stepped s .serviceFinish { clearSlot i s with service := .scan }
  | serviceSleep (service : s.service = .sleep) (signalled : s.serviceSem ≠ 0) :
    Stepped s .serviceSleep { s with serviceSem := s.serviceSem - 1, service := .scan }
  | register (t : State) (call : Nat) (i : SocketIndex) (n : UInt32) (fresh : ∀ c ∈ s.calls, c.id ≠ call)
    (returned : socketRecvfrom call i n s = some t) : Stepped s (.recvfrom call i n) t
  | refuse (call : Nat) (i : SocketIndex) (n : UInt32) (returned : socketRecvfrom call i n s = none) :
    Stepped s (.recvfrom call i n) s
  | recvSignal (call : Call) (member : call ∈ s.calls) (phase : call.phase = .signal) :
    Stepped s (.recvSignal call) { s with
      calls := ⟨call.id, call.socket, .wait⟩ :: s.calls.erase call
      serviceSem := s.serviceSem + 1 }
  | recvComplete (call : Call) (sem : Nat) (member : call ∈ s.calls) (phase : call.phase = .wait)
    (receives : (s.sockets call.socket).receiveComplete = some sem) (signalled : s.semaphores sem ≠ 0) :
    Stepped s (.recvComplete call) { s with
      calls := s.calls.erase call
      semaphores := Function.update s.semaphores sem (s.semaphores sem - 1) }
  | «open» (t : State) (protocol : UInt8) (port : UInt16) (sem : Option Nat) (result : Option SocketIndex)
    (returned : socketOpen protocol port sem s = some (result, t)) : Stepped s (.open protocol port sem) t
  | close (i : SocketIndex) (unused : ∀ c ∈ s.calls, c.socket ≠ i) : Stepped s (.close i) (socketClose i s)

theorem step_stepped (next : step a s = some t) : Stepped s a t := by
  cases a with
  | push fromaddr frame now later =>
    simp only [step] at next
    split at next <;> cases next
    next fresh => exact .push fromaddr frame now later fresh
  | pushSignal =>
    simp only [step] at next
    split at next <;> cases next
    next owing => exact .pushSignal owing
  | serviceScan =>
    simp only [step] at next
    split at next <;> cases next
    next service => exact .serviceScan service
  | serviceDiscard =>
    simp only [step] at next
    split at next <;> cases next
    next i f service => exact .serviceDiscard i f service
  | serviceTransfer =>
    simp only [step] at next
    split at next <;> cases next
    next i f service => exact .serviceTransfer i f service
  | serviceFinish =>
    simp only [step] at next
    split at next <;> cases next
    next i f service => exact .serviceFinish i f service
  | serviceSleep =>
    simp only [step] at next
    split at next
    · next service =>
      split at next <;> cases next
      next signalled => exact .serviceSleep service signalled
    · contradiction
  | recvfrom call i n =>
    simp only [step] at next
    split at next
    · contradiction
    next free =>
    have fresh : ∀ c ∈ s.calls, c.id ≠ call := by
      simp only [Bool.or_eq_true,not_or,List.any_eq_true,not_exists,not_and] at free
      intro c member same
      exact free.1.1 c member (by simpa using same)
    cases returned : socketRecvfrom call i n s with
    | none =>
      rw [returned] at next
      cases next
      exact .refuse call i n returned
    | some after =>
      rw [returned] at next
      cases next
      exact .register after call i n fresh returned
  | recvSignal call =>
    simp only [step] at next
    split at next <;> cases next
    next here => exact .recvSignal call here.1 here.2
  | recvComplete call =>
    simp only [step] at next
    split at next
    case isFalse => contradiction
    next here =>
    split at next
    · contradiction
    next sem receives =>
    split at next <;> cases next
    next signalled => exact .recvComplete call sem here.1 here.2 receives signalled
  | «open» protocol port sem =>
    obtain ⟨⟨result,after⟩,returned,rfl⟩ := Option.map_eq_some_iff.mp next
    exact .open after protocol port sem result returned
  | close i =>
    simp only [step] at next
    split at next <;> cases next
    next unused =>
    refine .close i fun c member same => ?_
    simp only [List.any_eq_true,not_exists,not_and] at unused
    exact unused c member (by simpa using same)

/-- Everything one step can do to the queue and to the two records. -/
theorem step_cases (next : step a s = some t) :
    (t.queue = s.queue ∧ t.service = s.service ∧ t.accepted = s.accepted ∧ t.freed = s.freed) ∨
    (∃ fromaddr frame now later, a = .push fromaddr frame now later ∧ frame.id ∉ s.accepted ∧
      t = (popPushFrame fromaddr frame now later s).2) ∨
    (s.service = .scan ∧ t = { s with
      queue := (scanSlots s.sockets (List.finRange configPopQueueSize) s.queue).1
      service := (scanSlots s.sockets (List.finRange configPopQueueSize) s.queue).2 }) ∨
    (∃ i f, s.service = .discard i f ∧
      t = { clearSlot i (networkFreeFrame f s) with service := .scan }) ∨
    (∃ i f, s.service = .transfer i f ∧ t = { transferFrame i f s with service := .finish i f }) ∨
    (∃ i f, s.service = .finish i f ∧ t = { clearSlot i s with service := .scan }) ∨
    (s.service = .sleep ∧ t = { s with serviceSem := s.serviceSem - 1, service := .scan }) := by
  cases step_stepped next with
  | push fromaddr frame now later fresh => exact .inr (.inl ⟨_,_,_,_,rfl,fresh,rfl⟩)
  | pushSignal | refuse | recvSignal | recvComplete => exact .inl ⟨rfl,rfl,rfl,rfl⟩
  | serviceScan service => exact .inr (.inr (.inl ⟨service,rfl⟩))
  | serviceDiscard i f service => exact .inr (.inr (.inr (.inl ⟨i,f,service,rfl⟩)))
  | serviceTransfer i f service => exact .inr (.inr (.inr (.inr (.inl ⟨i,f,service,rfl⟩))))
  | serviceFinish i f service => exact .inr (.inr (.inr (.inr (.inr (.inl ⟨i,f,service,rfl⟩)))))
  | serviceSleep service => exact .inr (.inr (.inr (.inr (.inr (.inr ⟨service,rfl⟩)))))
  | register call i n after fresh returned => exact .inl (socketRecvfrom_queue returned)
  | «open» after protocol port sem result returned => exact .inl (socketOpen_queue returned)
  | close i => exact .inl (socketClose_queue i s)

theorem step_owned (owned : Owned s) (spares : SparesDiscard a s) (next : step a s = some t) :
    Owned t := by
  rcases step_cases next with ⟨queue,service,accepted,freed⟩ | ⟨_,_,_,_,rfl,fresh,rfl⟩ |
    ⟨service,rfl⟩ | ⟨i,f,service,rfl⟩ | ⟨i,f,service,rfl⟩ | ⟨i,f,service,rfl⟩ | ⟨service,rfl⟩
  · exact owned.of_eq queue service accepted freed
  · exact popPushFrame_owned owned fresh spares
  · exact scan_owned owned service
  · exact discard_owned owned service
  · exact transfer_owned owned service
  · exact finish_owned owned service
  · obtain ⟨once,sub,held,distinct,live,kept,-⟩ := owned
    exact ⟨once,sub,held,distinct,fun i f h m => by simpa [service] using live i f h m,kept,trivial⟩

/-- A slot gives up its packet only after that packet has been freed. -/
theorem step_releases (owned : Owned s) (next : step a s = some t)
    (held : Holds s i f) (gone : ¬Holds t i f) : f.id ∈ t.freed := by
  rcases step_cases next with ⟨queue,-,-,-⟩ | ⟨fromaddr,frame,now,later,rfl,-,rfl⟩ |
    ⟨-,rfl⟩ | ⟨j,g,service,rfl⟩ | ⟨j,g,service,rfl⟩ | ⟨j,g,service,rfl⟩ | ⟨-,rfl⟩
  · exact absurd (by simpa [Holds,queue] using held) gone
  · unfold popPushFrame at gone ⊢
    split at gone
    · exact absurd held gone
    · next k at_ =>
      obtain ⟨queue,freed,-,-⟩ := storeFrame_effect k fromaddr frame later s
      by_cases same : i = k
      · subst same
        simp [freed,show (s.queue i).frame = some f from held]
      · exact absurd (by simpa [holds_update _ queue,same] using held) gone
  · have same := (scanSlots_spec s.sockets (List.finRange configPopQueueSize) s.queue).1 i
    exact absurd (same.trans held) gone
  · by_cases same : i = j
    · subst same
      have holds : Holds s i g := by simpa [service,Chosen] using owned.chosen
      rw [held.unique holds]
      exact List.mem_cons_self
    · refine absurd ((holds_update { s.queue j with frame := none } rfl i f).mpr ?_) gone
      rw [if_neg same]
      exact held
  · obtain ⟨holds,-,socket⟩ : Holds s j g ∧ _ := by simpa [service,Chosen] using owned.chosen
    exact absurd (by simpa [Holds,(transferFrame_effect (f := g) socket).1] using held) gone
  · by_cases same : i = j
    · subst same
      obtain ⟨holds,-,member⟩ : Holds s i g ∧ _ := by simpa [service,Chosen] using owned.chosen
      rwa [held.unique holds]
    · refine absurd ((holds_update { s.queue j with frame := none } rfl i f).mpr ?_) gone
      simpa [same] using held
  · exact absurd held gone

theorem run_owned (meets : Meets step SparesDiscard actions initial)
    (ran : run step actions initial = some s) : Owned s :=
  run_guarded (fun _ _ _ owned ok next => step_owned owned ok next) initial_owned meets ran

/-- Every accepted packet is freed at most once, only the slot whose transfer is being
finished holds a freed packet, and a slot gives up its packet only after it is freed,
in every run in which producers spare the slot chosen for discard. -/
theorem frames_owned (actions : List Action) (s : State)
    (ran : run step actions initial = some s) (meets : Meets step SparesDiscard actions initial) :
    (∀ id ∈ s.accepted, s.freed.count id ≤ 1) ∧
    (∀ i f, Holds s i f → f.id ∈ s.freed → s.service = .finish i f ∧ (s.queue i).busy = true) ∧
    (∀ a t, step a s = some t → ∀ i f, Holds s i f → ¬Holds t i f → f.id ∈ t.freed) := by
  have owned := run_owned meets ran
  refine ⟨?_,?_,?_⟩
  · intro id _
    exact List.nodup_iff_count_le_one.mp owned.freedOnce id
  · intro i f held member
    have finishing := owned.live i f held member
    have chosen := owned.chosen
    rw [finishing] at chosen
    exact ⟨finishing,chosen.2.1⟩
  · intro a t next i f held gone
    exact step_releases owned next held gone

/-- The defect in general: once a producer has taken the slot, the pending discard frees
its packet a second time and empties the slot of the packet just stored. -/
theorem evicted_discard (owned : Owned s) (service : s.service = .discard i f)
    (taken : pushSlot s.queue now = some i)
    (pushed : t = (popPushFrame fromaddr frame now later s).2)
    (next : step .serviceDiscard t = some u) :
    u.freed.count f.id = 2 ∧ ¬∃ g, Holds u i g := by
  obtain ⟨queue,freed,accepted,same⟩ := storeFrame_effect i fromaddr frame later s
  have stored : t = storeFrame i fromaddr frame later s := by
    rw [pushed]
    unfold popPushFrame
    split
    · next dropped => rw [taken] at dropped; contradiction
    · next j at_ => rw [taken] at at_; cases at_; rfl
  have held : Holds s i f := by simpa [service,Chosen] using owned.chosen
  have unfreed : f.id ∉ s.freed := fun member => by
    simpa [service] using owned.live i f held member
  simp only [step,stored,same,service,Option.some.injEq] at next
  subst next
  constructor
  · simp [clearSlot,freed,show (s.queue i).frame = some f from held,
      List.count_eq_zero_of_not_mem unfreed]
  · simp [Holds,clearSlot]

/-- Packets to a port nobody is bound to. -/
def strayFrame (id : Nat) : Frame := ⟨id, 7, 7, 0, fun _ => 0⟩

def fillQueue (n : Nat) : List Action := (List.range n).map fun id => .push 0 (strayFrame id) 0 0

/-- A full queue of stray packets, a scan, an eviction once the first slot has aged, and
the discard that was decided before it. -/
def evictedRun : List Action :=
  fillQueue 32 ++ [.serviceScan, .push 0 (strayFrame 32) 250 250, .serviceDiscard]

/-- Packet 0 is freed twice; packet 32 is accepted, then lost without being freed. -/
theorem frames_freed_twice : ∃ s, run step evictedRun initial = some s ∧
    0 ∈ s.accepted ∧ s.freed.count 0 = 2 ∧
    32 ∈ s.accepted ∧ 32 ∉ s.freed ∧ ∀ i f, Holds s i f → f.id ≠ 32 := by
  have ran : ((run step evictedRun initial).any fun s =>
      decide (0 ∈ s.accepted ∧ s.freed.count 0 = 2 ∧ 32 ∈ s.accepted ∧ 32 ∉ s.freed) &&
      (List.finRange configPopQueueSize).all fun i =>
        (s.queue i).frame.all fun f => f.id != 32) = true := by
    decide +kernel
  cases at_ : run step evictedRun initial with
  | none => simp [at_] at ran
  | some s =>
    simp only [at_,Option.any_some,Bool.and_eq_true,decide_eq_true_eq,List.all_eq_true] at ran
    obtain ⟨⟨first,twice,second,unfreed⟩,slots⟩ := ran
    refine ⟨s,rfl,first,twice,second,unfreed,?_⟩
    intro i f held
    have slot := slots i (List.mem_finRange i)
    simpa [show (s.queue i).frame = some f from held] using slot

/-- The condition is met when the eviction comes after the discard. -/
def sparedRun : List Action :=
  fillQueue 32 ++ [.serviceScan, .serviceDiscard, .push 0 (strayFrame 32) 250 250,
    .push 0 (strayFrame 33) 250 250, .serviceScan]

theorem frames_owned_spared : ∃ s, run step sparedRun initial = some s ∧
    (∀ id ∈ s.accepted, s.freed.count id ≤ 1) := by
  have ran : (run step sparedRun initial).isSome = true := by decide +kernel
  obtain ⟨s,ran⟩ := Option.isSome_iff_exists.mp ran
  exact ⟨s,ran,(frames_owned sparedRun s ran (by decide +kernel)).1⟩

end Buenos.Net.Pop
