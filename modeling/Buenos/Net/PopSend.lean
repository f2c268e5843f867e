import Buenos.Net.PopTransfer

/-! `socket_sendto` of `net/pop.c`. -/
namespace Buenos.Net.Pop

open Buenos.Foundation Buenos.Lib Buenos.Vm

/-- The size that `socket_sendto` goes on with. Both `MIN` compare unsigned values. -/
def sendSize (table : InterfaceTable) (size : Int) : Option Int :=
  (networkGetMtu table networkBroadcastAddress).map fun mtu =>
    toS32 (min (min (toU32 size) (toU32 (mtu - popHeaderSize))) (pageSize - popHeaderSize))

/-- The header at the beginning of the send buffer. -/
def popHeader (buffer : Bytes) (sourcePort destPort : UInt16) (size : Int) : Bytes :=
  setWord (setHalfAt (setHalfAt buffer 0 sourcePort.toNat) 1 destPort.toNat) 1 (toU32 size)

/-- `buf` are the bytes to send. The result is the value returned and the call of `network_send`, if
it is made; `none` is a failing assertion or a call through `NULL`. -/
def socketSendto (env : Environment State) (s : SocketIndex) (addr : UInt32) (dport : UInt16) (buf : Bytes) (size : Int)
    (popSendBuffer : Bytes) (pool : Pagepool) (upper : State) : Option (Int × Option (Sent State)) :=
  if dport = 0 then some (-1, none)
  else if 1 ≤ size then
    match sendSize env.interfaces size with
    | none => none
    | some size =>
      if (upper.sockets s).protocol ≠ protocolPop then some (-1, none)
      else
        let popSendBuffer := memcopy size (popHeader popSendBuffer (upper.sockets s).port dport size) popHeaderSize buf 0
        match networkSend env networkBroadcastAddress addr protocolPop.toUInt32 (wrap (size + popHeaderSize))
          popSendBuffer pool upper with
        | .returned r => some (if r.result = netOk then size else -1, some r)
        | _ => none
  else none

def freedSince (s t : State) : List Nat := t.freed.take (t.freed.length - s.freed.length)

def freePages (pageOf : Nat → Nat) : List Nat → Pagepool → Option Pagepool
  | [], pool => some pool
  | packet :: rest, pool => (pagepoolFreePhysPage pool (pageOf packet)).bind (freePages pageOf rest)

/-- `pop_push_frame` as the frame layer calls it. The clock reads `now` and `later`. -/
def popFrameHandler (pageOf : Nat → Nat) (packet : Nat) (now later : UInt32) : FrameHandler State :=
  fun fromaddr _ _ payload _ pool s =>
    let (accepted, t) := popPushFrame fromaddr (received packet payload) now later s
    (accepted, (freePages pageOf (freedSince s t) pool).getD pool, t)

def protocolsGetFrameHandler (popPushFrame : FrameHandler State) (protocolId : UInt32) : Option (FrameHandler State) :=
  if protocolId = protocolPop.toUInt32 then some popPushFrame else none

/-! ### The pages of the queue -/

/-- The addresses of the pages in the queue. -/
def queuedPages (pageOf : Nat → Nat) (s : State) : List Nat :=
  (List.finRange configPopQueueSize).filterMap fun i => (s.queue i).frame.map fun f => pageOf f.id

theorem mem_queuedPages (held : (s.queue i).frame = some f) : pageOf f.id ∈ queuedPages pageOf s :=
  List.mem_filterMap.mpr ⟨i,List.mem_finRange i,by rw [held]; rfl⟩

theorem freedSince_append (freed : t.freed = packets ++ s.freed) : freedSince s t = packets := by
  simp [freedSince,freed]

theorem popFrameHandler_keeps (positive : 1 ≤ reserved) (pageOf : Nat → Nat) (packet : Nat) (now later : UInt32) :
    KeepsPage total reserved (queuedPages pageOf) (popFrameHandler pageOf packet now later) := by
  intro fromaddr _ _ payload p pool out s invariant within
  unfold popFrameHandler popPushFrame
  cases pushSlot s.queue now with
  | none => exact ⟨out,by simpa [freedSince,freePages] using invariant⟩
  | some i =>
    have freed := (storeFrame_effect i fromaddr (received packet payload) later s).2.1
    cases held : (s.queue i).frame with
    | none =>
      rw [held] at freed
      exact ⟨out,by simpa [freedSince_append freed,freePages] using invariant⟩
    | some old =>
      rw [held] at freed
      obtain ⟨q,member,address⟩ := within _ (mem_queuedPages held)
      obtain ⟨pool',gone,kept⟩ := invariant.release positive (List.mem_cons_of_mem p member)
      have apart : p ≠ q := fun same => (List.nodup_cons.mp invariant.once).1 (same ▸ member)
      rw [List.erase_cons_tail (by simpa using apart)] at kept
      refine ⟨out.erase q,?_⟩
      have pages : freePages pageOf (freedSince s (storeFrame i fromaddr (received packet payload) later s)) pool = some pool' := by
        simp [freedSince_append freed,freePages,address,gone]
      simpa [pages] using kept

/-- The packet in slot `i` of a full queue is in page `i + 2`. -/
def packetPage (id : Nat) : Nat := (id + 2) * pageSize

def fullQueue : State := { initial with queue := fun i => ⟨some ⟨i, 5, 7, 0, fun _ => 0⟩, none, 0, 0, false⟩ }

/-- The kernel with one interface, a second after the packets of the queue have arrived. -/
def fullQueueEnvironment : Environment State where
  interfaces := oneInterface.interfaces
  send := fun _ _ _ => 0
  protocolsGetFrameHandler := protocolsGetFrameHandler (popFrameHandler packetPage 32 1000 1000)
  page := fun _ _ => 0

theorem fullQueueEnvironment_keeps (id : UInt32) (handler : FrameHandler State)
    (found : fullQueueEnvironment.protocolsGetFrameHandler id = some handler) :
    KeepsPage 40 2 (queuedPages packetPage) handler := by
  obtain ⟨-,same⟩ := Option.ite_none_right_eq_some.mp found
  cases same
  exact popFrameHandler_keeps (by decide) packetPage 32 1000 1000

/-- A frame to the loopback address takes the place of the oldest packet, whose page is freed. -/
theorem network_send_accounts_full : ∃ s r,
    run poolStep (List.replicate 32 .get) ⟨pagepoolInit 40 2 fun _ => 0,[]⟩ = some s ∧
    networkSend fullQueueEnvironment 0 0 1 4 (fun _ => 0) s.pool fullQueue = .returned r ∧
    r.accepted = [r.physFrame] ∧ r.upper.freed = [0] ∧
    Accounts fullQueueEnvironment.interfaces 0 0 40 2 s.pool s.out r := by
  have reached : ((run poolStep (List.replicate 32 .get) ⟨pagepoolInit 40 2 fun _ => 0,[]⟩).any fun s =>
      decide (Within (queuedPages packetPage fullQueue) s.out) &&
        match networkSend fullQueueEnvironment 0 0 1 4 (fun _ => 0) s.pool fullQueue with
        | .returned r => decide (r.accepted = [r.physFrame] ∧ r.upper.freed = [0])
        | _ => false) = true := by decide +kernel
  obtain ⟨s,ran,facts⟩ := (Option.any_eq_true _ _).mp reached
  obtain ⟨known,facts⟩ := Bool.and_eq_true_iff.mp facts
  have within : Within (queuedPages packetPage fullQueue) s.out := of_decide_eq_true known
  have invariant := run_poolInvariant (show 1 ≤ 2 by decide) (show 2 ≤ 40 by decide) (fun _ => 0)
    (by simp) ran
  obtain ⟨r,sent,accounts⟩ := (network_send_accounts fullQueueEnvironment oneInterface_built oneInterface_named
    (queuedPages packetPage) fullQueueEnvironment_keeps 0 0 1 4 (fun _ => 0) (by decide) (show 1 ≤ 2 by decide) invariant
    fullQueue within).mpr fun mistaken => mistaken.1 rfl
  rw [sent] at facts
  obtain ⟨accepted,freed⟩ := of_decide_eq_true facts
  exact ⟨s,r,ran,sent,accepted,freed,accounts⟩

/-! ### Sizes -/

/-- What `network_get_mtu` says for the broadcast address is in the table, and the size that is left
fits into a frame of every interface and passes the assertion of `network_send`. -/
structure FitsFrame (devices : List Gnd) (size n : Int) : Prop where
  positive : 1 ≤ n
  most : n ≤ size
  interfaces : ∀ g ∈ devices, n + popHeaderSize ≤ (g.frameSize.toNat : Int) - frameHeaderSize
  assertion : 0 < n + popHeaderSize ∧ n + popHeaderSize ≤ pageSize - frameHeaderSize

section Sizes
variable {devices : List Gnd} {table : InterfaceTable}

/-- The loop runs to the first row without device. -/
theorem minMtu_cases (table : InterfaceTable) (is : List InterfaceIndex) (least : Int) :
    (minMtu table is least = none ∧ ∀ i ∈ is, (table i).gnd ≠ none) ∨
    ∃ before i after m, is = before ++ i :: after ∧ (table i).gnd = none ∧ minMtu table is least = some m ∧
      m ≤ least ∧ (∀ k ∈ before, (table k).gnd ≠ none ∧ m ≤ (table k).mtu) ∧
      (m = least ∨ ∃ k ∈ before, m = (table k).mtu) := by
  induction is generalizing least with
  | nil => exact .inl ⟨rfl,fun i member => absurd member List.not_mem_nil⟩
  | cons i rest ih =>
    rw [minMtu]
    by_cases device : (table i).gnd = none
    · rw [if_pos (by rw [device]; rfl)]
      exact .inr ⟨[],i,rest,least,rfl,device,rfl,le_rfl,fun k member => absurd member List.not_mem_nil,.inl rfl⟩
    · rw [if_neg (by simpa using device)]
      obtain ⟨full,all⟩ | ⟨before,j,after,m,split,absent,found,low,lower,attained⟩ :=
        ih (if (table i).mtu < least then (table i).mtu else least)
      · exact .inl ⟨full,List.forall_mem_cons.mpr ⟨device,all⟩⟩
      · refine .inr ⟨i :: before,j,after,m,by rw [split]; rfl,absent,found,?_,List.forall_mem_cons.mpr ⟨⟨device,?_⟩,lower⟩,?_⟩
        · split at low <;> omega
        · split at low <;> omega
        · obtain first | ⟨k,member,same⟩ := attained
          · split at first
            · exact .inr ⟨i,List.mem_cons_self,first⟩
            · exact .inl first
          · exact .inr ⟨k,List.mem_cons_of_mem i member,same⟩

theorem table_rows (built : networkInit devices = some table) (i : InterfaceIndex) :
    (table i).gnd ≠ none ↔ i.val < devices.length := by
  rw [table_gnd built i,ne_eq,List.getElem?_eq_none_iff]
  omega

theorem table_mtu (built : networkInit devices = some table) (mtus : ∀ g ∈ devices, g.frameSize ≤ 4096)
    (i : InterfaceIndex) (g : Gnd) (here : devices[i.val]? = some g) : (table i).mtu = g.frameSize.toNat := by
  have entry := (interfaceInfo_gnd (networkInit_entry built i)).2.2 g here
  have small := UInt32.le_iff_toNat_le.mp (mtus g (List.mem_of_getElem? here))
  rw [entry.2,toS32_small (Nat.lt_of_le_of_lt small (by decide))]

/-- With a row left the loop finds the least transfer unit. -/
theorem networkGetMtu_broadcast (few : devices.length ≤ configMaxGnds) (built : networkInit devices = some table)
    (mtus : ∀ g ∈ devices, 21 ≤ g.frameSize ∧ g.frameSize ≤ 4096) :
    (devices.length = configMaxGnds ∧ networkGetMtu table networkBroadcastAddress = none) ∨
    (devices.length < configMaxGnds ∧ ∃ m : Int, networkGetMtu table networkBroadcastAddress = some (m - frameHeaderSize) ∧
      21 ≤ m ∧ m ≤ networkMaxMtu + 1 ∧ (∀ g ∈ devices, m ≤ g.frameSize.toNat) ∧
      (m = networkMaxMtu + 1 ∨ ∃ g ∈ devices, m = g.frameSize.toNat)) := by
  have mtu := table_mtu built fun g member => (mtus g member).2
  rw [networkGetMtu,if_pos rfl]
  obtain ⟨full,all⟩ | ⟨before,i,after,m,split,absent,found,low,lower,attained⟩ :=
    minMtu_cases table (List.finRange configMaxGnds) (networkMaxMtu + 1)
  · refine .inl ⟨?_,by rw [full]; rfl⟩
    have last := (table_rows built ⟨3,by decide⟩).mp (all _ (List.mem_finRange _))
    exact le_antisymm few last
  · have room : ¬i.val < devices.length := fun inside => (table_rows built i).mpr inside absent
    have sorted := List.pairwise_lt_finRange configMaxGnds
    rw [split] at sorted
    have above := (List.pairwise_cons.mp (List.pairwise_append.mp sorted).2.1).1
    have least : ∀ g ∈ devices, m ≤ g.frameSize.toNat := by
      intro g member
      obtain ⟨k,inside,same⟩ := List.mem_iff_getElem.mp member
      have here : devices[k]? = some g := by rw [List.getElem?_eq_getElem inside,same]
      have row := mtu ⟨k,by omega⟩ g here
      rw [← row]
      have there : (⟨k,by omega⟩ : InterfaceIndex) ∈ before ++ i :: after := split ▸ List.mem_finRange _
      rcases List.mem_append.mp there with first | last
      · exact (lower _ first).2
      · rcases List.mem_cons.mp last with equal | later
        · exact absurd (equal ▸ inside) room
        · have := above _ later
          exact absurd (Nat.lt_trans this inside) room
    have known : m = networkMaxMtu + 1 ∨ ∃ g ∈ devices, m = g.frameSize.toNat := by
      obtain first | ⟨k,member,same⟩ := attained
      · exact .inl first
      · have inside := (table_rows built k).mp (lower k member).1
        refine .inr ⟨devices[k.val],List.getElem_mem inside,?_⟩
        rw [same,mtu k devices[k.val] (List.getElem?_eq_getElem inside)]
    have high : 21 ≤ m := by
      obtain rfl | ⟨g,member,same⟩ := known
      · decide
      · have := UInt32.le_iff_toNat_le.mp (mtus g member).1
        change 21 ≤ g.frameSize.toNat at this
        omega
    refine .inr ⟨by have := i.isLt; omega,m,?_,high,low,least,known⟩
    rw [found]
    apply congrArg some
    unfold networkMaxMtu at low
    exact wrap_small (by unfold frameHeaderSize; omega) (by unfold frameHeaderSize; omega)

/-- `socket_sendto` leaves a size that fits into a frame just when the table has an empty row to end
the loop, and an interface unless few bytes are sent. -/
theorem sendto_fits (few : devices.length ≤ configMaxGnds) (built : networkInit devices = some table)
    (mtus : ∀ g ∈ devices, 21 ≤ g.frameSize ∧ g.frameSize ≤ 4096) (size : Int) (valid : 1 ≤ size ∧ size < 2 ^ 31) :
    (∃ n, sendSize table size = some n ∧ FitsFrame devices size n) ↔
      devices.length < configMaxGnds ∧ (devices ≠ [] ∨ size + popHeaderSize ≤ pageSize - frameHeaderSize) := by
  obtain ⟨full,behind⟩ | ⟨room,m,found,high,low,least,known⟩ := networkGetMtu_broadcast few built mtus
  · rw [sendSize,behind]
    refine iff_of_false ?_ fun both => absurd full (Nat.ne_of_lt both.1)
    rintro ⟨n,none,_⟩
    contradiction
  rw [and_iff_right room,sendSize,found]
  unfold networkMaxMtu at low known
  have left : toU32 (m - frameHeaderSize - popHeaderSize) = (m - 20).toNat := by
    rw [toU32_small (by unfold frameHeaderSize popHeaderSize; omega) (by unfold frameHeaderSize popHeaderSize; omega)]
    unfold frameHeaderSize popHeaderSize
    omega
  have given : toU32 size = size.toNat := toU32_small (by omega) (by omega)
  have whole : toS32 (min (min (toU32 size) (toU32 (m - frameHeaderSize - popHeaderSize))) (pageSize - popHeaderSize)) =
      min size (m - 20) := by
    rw [left,given]
    unfold pageSize popHeaderSize
    rw [toS32_small (by omega)]
    omega
  simp only [Option.map_some,Option.some.injEq,whole,exists_eq_left']
  unfold pageSize frameHeaderSize popHeaderSize
  constructor
  · intro fits
    have short := fits.assertion.2
    unfold pageSize frameHeaderSize popHeaderSize at short
    obtain rfl | ⟨g,member,_⟩ := known
    · refine .inr ?_
      omega
    · exact .inl (List.ne_nil_of_mem member)
  · intro enough
    refine ⟨by omega,by omega,?_,?_⟩
    · intro g member
      have := least g member
      unfold frameHeaderSize popHeaderSize
      omega
    · unfold pageSize frameHeaderSize popHeaderSize
      obtain some_ | short := enough
      · obtain ⟨g,member⟩ := List.exists_mem_of_ne_nil devices some_
        have := least g member
        have := UInt32.le_iff_toNat_le.mp (mtus g member).2
        change g.frameSize.toNat ≤ 4096 at this
        omega
      · omega

end Sizes

theorem sendto_fits_one : ∃ n, sendSize oneInterface.interfaces 4000 = some n ∧ FitsFrame [⟨1500,5⟩] 4000 n :=
  (sendto_fits (by decide) oneInterface_built (by decide) 4000 (by decide)).mpr ⟨by decide,.inl (by decide)⟩

def fourDevices : List Gnd := [⟨1500,5⟩,⟨1500,6⟩,⟨1500,7⟩,⟨1500,8⟩]

/-- With four interfaces the loop runs behind the table, and without one the size is a byte too
large for the assertion of `network_send`. -/
theorem send_sizes_overrun :
    (∃ table, networkInit fourDevices = some table ∧ sendSize table 1 = none) ∧
    ∃ table n, networkInit [] = some table ∧ sendSize table 4077 = some n ∧ ¬FitsFrame [] 4077 n := by
  constructor
  · have behind : ((networkInit fourDevices).any fun table => (sendSize table 1).isNone) = true := by decide +kernel
    obtain ⟨table,built,none⟩ := (Option.any_eq_true _ _).mp behind
    exact ⟨table,built,Option.isNone_iff_eq_none.mp none⟩
  · have large : ((networkInit []).any fun table => sendSize table 4077 = some 4077) = true := by decide +kernel
    obtain ⟨table,built,size⟩ := (Option.any_eq_true _ _).mp large
    refine ⟨table,4077,built,of_decide_eq_true size,fun fits => ?_⟩
    exact absurd fits.assertion.2 (by decide)

end Buenos.Net.Pop
