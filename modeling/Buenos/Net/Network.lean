import Buenos.Foundation.Int32
import Buenos.Lib.Libc
import Buenos.Vm.Pagepool
import Mathlib.Tactic.FinCases

/-! The frame layer, `net/network.c`. The drivers of the network devices and the frame handlers
of the protocols are parameters. -/
namespace Buenos.Net

open Buenos.Foundation Buenos.Lib Buenos.Vm

abbrev configMaxGnds : Nat := 4
abbrev InterfaceIndex := Fin configMaxGnds

def networkBroadcastAddress : UInt32 := 0xffffffff
def networkLoopbackAddress : UInt32 := 0
def networkMaxMtu : Int := 4096

def netOk : Int := 0
def netError : Int := -1
def netDoesntExist : Int := -2

/-- `sizeof(network_frame_header_t)`. -/
def frameHeaderSize : Nat := 12

/-- What the driver of a device answers. -/
structure Gnd where
  frameSize : UInt32
  hwaddr : UInt32

structure NetworkInterfaceInfo where
  address : UInt32
  mtu : Int
  gnd : Option Gnd

abbrev InterfaceTable := InterfaceIndex → NetworkInterfaceInfo

/-- The entry of an interface: `none` is a failing assertion. -/
def interfaceInfo : Option Gnd → Option NetworkInterfaceInfo
  | none => some ⟨0, 0, none⟩
  | some gnd =>
    if toS32 gnd.frameSize.toNat ≤ pageSize then some ⟨gnd.hwaddr, toS32 gnd.frameSize.toNat, some gnd⟩ else none

/-- The first loop of `network_init`, for the network devices of the system. -/
def networkInit (devices : List Gnd) : Option InterfaceTable :=
  if (List.finRange configMaxGnds).all fun i => (interfaceInfo devices[i.val]?).isSome then
    some fun i => (interfaceInfo devices[i.val]?).getD ⟨0, 0, none⟩
  else none

/-- The loop of `network_get_mtu` for the broadcast address. It is left by an entry without
device; `none` is a read behind the table. -/
def minMtu (table : InterfaceTable) : List InterfaceIndex → Int → Option Int
  | [], _ => none
  | n :: rest, least =>
    if (table n).gnd.isNone then some least
    else minMtu table rest (if (table n).mtu < least then (table n).mtu else least)

def findMtu (table : InterfaceTable) (localAddress : UInt32) : List InterfaceIndex → Option Int
  | [] => none
  | n :: rest =>
    if (table n).gnd.isNone then some 0
    else if (table n).address = localAddress then some (wrap ((table n).mtu - frameHeaderSize))
    else findMtu table localAddress rest

def networkGetMtu (table : InterfaceTable) (localAddress : UInt32) : Option Int :=
  if localAddress = networkBroadcastAddress then
    (minMtu table (List.finRange configMaxGnds) (networkMaxMtu + 1)).map fun least => wrap (least - frameHeaderSize)
  else if localAddress = networkLoopbackAddress then some (pageSize - frameHeaderSize)
  else findMtu table localAddress (List.finRange configMaxGnds)

def networkGetInterface (table : InterfaceTable) (localAddress : UInt32) : Option InterfaceIndex :=
  (List.finRange configMaxGnds).find? fun i => (table i).address == localAddress

/-! ### Sending -/

structure NetworkFrame where
  destination : UInt32
  source : UInt32
  protocolId : UInt32
  payload : Bytes

/-- A frame handler: source, destination, protocol and payload of a frame, the page it is in,
and the pages and the state of the protocols. -/
abbrev FrameHandler (σ : Type) := UInt32 → UInt32 → UInt32 → Bytes → Nat → Pagepool → σ → Int × Pagepool × σ

/-- What the frame layer finds: its table, the results of the drivers, the handlers of the
protocols and the bytes of the pages. -/
structure Environment (σ : Type) where
  interfaces : InterfaceTable
  send : InterfaceIndex → NetworkFrame → UInt32 → Int
  protocolsGetFrameHandler : UInt32 → Option (FrameHandler σ)
  page : Nat → Bytes

/-- A call of `network_send` that has returned: its page (0 for none), the interfaces it sent
through, the pages it freed and those a frame handler accepted. -/
structure Sent (σ : Type) where
  result : Int
  pool : Pagepool
  upper : σ
  physFrame : Nat
  sends : List InterfaceIndex
  freed : List Nat
  accepted : List Nat

/-- `calledNull` is a call of the send function of an interface that has no device. -/
inductive Outcome (σ : Type) where
  | returned (sent : Sent σ)
  | assertion
  | calledNull (interface : InterfaceIndex)

section Send
variable {σ : Type} (env : Environment σ)

def networkReceiveFrame (frame : NetworkFrame) (physFrame : Nat) (pool : Pagepool) (upper : σ) : Int × Pagepool × σ :=
  match env.protocolsGetFrameHandler frame.protocolId with
  | none => (0, pool, upper)
  | some frameHandler =>
    frameHandler frame.source frame.destination frame.protocolId frame.payload physFrame pool upper

/-- The loop over all interfaces: those sent through, and the result. -/
def sendAll (destination : UInt32) (frame : NetworkFrame) : List InterfaceIndex → Int → List InterfaceIndex × Int
  | [], sendRet => ([], sendRet)
  | i :: rest, sendRet =>
    if (env.interfaces i).gnd.isNone then ([], sendRet)
    else
      let (sends, sendRet) := sendAll destination frame rest
        (if env.send i frame destination ≠ 0 then netError else sendRet)
      (i :: sends, sendRet)

def freeAndReturn (pool : Pagepool) (upper : σ) (physFrame : Nat) (sends : List InterfaceIndex) (result : Int) :
    Outcome σ :=
  match pagepoolFreePhysPage pool physFrame with
  | none => .assertion
  | some pool => .returned ⟨result, pool, upper, physFrame, sends, [physFrame], []⟩

/-- `network_send` from the header on, with its page. -/
def sendFrame (frame : NetworkFrame) (physFrame : Nat) (pool : Pagepool) (upper : σ) : Outcome σ :=
  if frame.destination = networkLoopbackAddress then
    let frame := { frame with
      source := if frame.source = networkBroadcastAddress then networkLoopbackAddress else frame.source }
    let (received, pool, upper) := networkReceiveFrame env frame physFrame pool upper
    if received = 0 then freeAndReturn pool upper physFrame [] netError
    else .returned ⟨netOk, pool, upper, physFrame, [], [], [physFrame]⟩
  else if frame.source ≠ networkBroadcastAddress then
    match networkGetInterface env.interfaces frame.source with
    | none => freeAndReturn pool upper physFrame [] netDoesntExist
    | some i =>
      if (env.interfaces i).gnd.isNone then .calledNull i
      else freeAndReturn pool upper physFrame [i] (if env.send i frame frame.destination ≠ 0 then netError else netOk)
  else
    let (sends, sendRet) := sendAll env frame.destination frame (List.finRange configMaxGnds) netOk
    freeAndReturn pool upper physFrame sends sendRet

def networkSend (source destination protocolId : UInt32) (length : Int) (buffer : Bytes) (pool : Pagepool) (upper : σ) :
    Outcome σ :=
  if 0 < length ∧ length ≤ pageSize - frameHeaderSize then
    match pagepoolGetPhysPage pool with
    | none => .assertion
    | some (physFrame, pool) =>
      if physFrame = 0 then .returned ⟨netError, pool, upper, 0, [], [], []⟩
      else sendFrame env
        ⟨destination, source, protocolId,
          memcopy length (fun j => env.page physFrame (frameHeaderSize + j)) 0 buffer 0⟩ physFrame pool upper
  else .assertion

end Send

/-! ### The table -/

section Table
variable {devices : List Gnd} {table : InterfaceTable}

theorem interfaceInfo_gnd {gnd : Option Gnd} (known : interfaceInfo gnd = some info) :
    info.gnd = gnd ∧ (gnd = none → info.address = 0) ∧
      ∀ g ∈ gnd, info.address = g.hwaddr ∧ info.mtu = toS32 g.frameSize.toNat := by
  cases gnd with
  | none =>
    cases known
    exact ⟨rfl,fun _ => rfl,fun g member => absurd member (Option.not_mem_none g)⟩
  | some g =>
    rw [interfaceInfo] at known
    split at known
    · cases known
      refine ⟨rfl,fun none => absurd none (Option.some_ne_none g),?_⟩
      intro g' member
      obtain rfl := Option.some.inj member
      exact ⟨rfl,rfl⟩
    · contradiction

theorem networkInit_entry (built : networkInit devices = some table) (i : InterfaceIndex) :
    interfaceInfo devices[i.val]? = some (table i) := by
  unfold networkInit at built
  split at built
  · next all =>
    cases built
    have known := List.all_eq_true.mp all i (List.mem_finRange i)
    obtain ⟨info,known⟩ := Option.isSome_iff_exists.mp known
    change interfaceInfo devices[i.val]? = some ((interfaceInfo devices[i.val]?).getD _)
    rw [known]
    rfl
  · contradiction

theorem table_gnd (built : networkInit devices = some table) (i : InterfaceIndex) : (table i).gnd = devices[i.val]? :=
  (interfaceInfo_gnd (networkInit_entry built i)).1

theorem table_absent (built : networkInit devices = some table) (absent : (table i).gnd = none) : (table i).address = 0 :=
  (interfaceInfo_gnd (networkInit_entry built i)).2.1 (table_gnd built i ▸ absent)

end Table

/-! ### Pages and interfaces -/

/-- Whether `pagepool_get_phys_page` finds a page. -/
def Available (pool : Pagepool) : Prop := 0 < pool.numFreePages

/-- The protocols hold only pages that are in use. -/
def Within (pages : List Nat) (out : List Nat) : Prop := ∀ addr ∈ pages, ∃ q ∈ out, addr = q * pageSize

instance (pages out : List Nat) : Decidable (Within pages out) :=
  inferInstanceAs (Decidable (∀ addr ∈ pages, ∃ q ∈ out, addr = q * pageSize))

/-- What the frame layer relies on: a frame handler does not free the page of the frame it is
given. It may get others, and free those that the protocols hold. -/
def KeepsPage (total reserved : Nat) (holds : σ → List Nat) (frameHandler : FrameHandler σ) : Prop :=
  ∀ source destination protocolId payload p pool out upper, PoolInvariant total reserved ⟨pool,p :: out⟩ →
    Within (holds upper) out → ∃ out', PoolInvariant total reserved
      ⟨(frameHandler source destination protocolId payload (p * pageSize) pool upper).2.1,p :: out'⟩

/-- The page is freed once or belongs to the frame handler. `out` are the other pages in use
before the call, only a frame handler changes them. -/
def FreedOrOwned (destination : UInt32) (total reserved : Nat) (out : List Nat) (r : Sent σ) : Prop :=
  ∃ out', (destination ≠ networkLoopbackAddress → out' = out) ∧ r.physFrame / pageSize ∉ out' ∧
    (r.freed = [r.physFrame] ∧ r.accepted = [] ∧ PoolInvariant total reserved ⟨r.pool,out'⟩ ∨
    r.freed = [] ∧ r.accepted = [r.physFrame] ∧ PoolInvariant total reserved ⟨r.pool,r.physFrame / pageSize :: out'⟩)

/-- The page is accounted for, an address without interface is answered as such, and nothing is
called that is not there. -/
structure Accounts (table : InterfaceTable) (source destination : UInt32) (total reserved : Nat) (pool : Pagepool)
    (out : List Nat) (r : Sent σ) : Prop where
  page : r.physFrame ≠ 0 ↔ Available pool
  freedOrOwned : r.physFrame ≠ 0 → FreedOrOwned destination total reserved out r
  untouched : r.physFrame = 0 → r.freed = [] ∧ r.accepted = [] ∧ r.pool = pool
  missing : r.result = netDoesntExist ↔ destination ≠ networkLoopbackAddress ∧ Available pool ∧
    source ≠ networkBroadcastAddress ∧ ∀ i, (table i).gnd.isSome = true → (table i).address ≠ source
  present : ∀ i ∈ r.sends, (table i).gnd.isSome = true

/-- The lookup compares the rows without device too, whose address is 0. -/
def Mistaken (table : InterfaceTable) (source destination : UInt32) (pool : Pagepool) : Prop :=
  destination ≠ networkLoopbackAddress ∧ Available pool ∧ source = 0 ∧ ∃ i, (table i).gnd = none

section Accounting
variable {σ : Type} {env : Environment σ} {pool : Pagepool} {out : List Nat}

theorem get_counts (available : Available pool) (got : pagepoolGetPhysPage pool = some (physAddr,pool')) :
    pool'.numFreePages = pool.numFreePages - 1 := by
  rw [pagepoolGetPhysPage] at got
  split at got
  · simp only at got
    split at got
    · cases got
      rfl
    · contradiction
  · contradiction

theorem freeAndReturn_frees (invariant : PoolInvariant total reserved ⟨pool,p :: out⟩) (positive : 1 ≤ reserved)
    (upper : σ) (sends : List InterfaceIndex) (result : Int) :
    ∃ pool', freeAndReturn pool upper (p * pageSize) sends result =
        .returned ⟨result,pool',upper,p * pageSize,sends,[p * pageSize],[]⟩ ∧
      PoolInvariant total reserved ⟨pool',out⟩ := by
  obtain ⟨pool',freed,kept⟩ := invariant.giveBack positive
  refine ⟨pool',?_,kept⟩
  rw [freeAndReturn,freed]

theorem sendAll_present (destination : UInt32) (frame : NetworkFrame) (is : List InterfaceIndex) (ret : Int) :
    (∀ i ∈ (sendAll env destination frame is ret).1, (env.interfaces i).gnd.isSome = true) ∧
    (ret = netOk ∨ ret = netError → (sendAll env destination frame is ret).2 ≠ netDoesntExist) := by
  induction is generalizing ret with
  | nil =>
    refine ⟨fun i member => absurd member List.not_mem_nil,?_⟩
    rintro (rfl | rfl) <;> exact of_decide_eq_true rfl
  | cons i rest ih =>
    rw [sendAll]
    split
    · refine ⟨fun i member => absurd member List.not_mem_nil,?_⟩
      rintro (rfl | rfl) <;> exact of_decide_eq_true rfl
    · next here =>
      obtain ⟨present,result⟩ := ih (if env.send i frame destination ≠ 0 then netError else ret)
      refine ⟨List.forall_mem_cons.mpr ⟨?_,present⟩,?_⟩
      · simpa [Option.isSome_iff_ne_none] using here
      · intro known
        apply result
        split
        · exact .inr rfl
        · exact known

theorem networkGetInterface_cases (table : InterfaceTable) (address : UInt32) :
    (∃ i, networkGetInterface table address = some i ∧ (table i).address = address) ∨
    (networkGetInterface table address = none ∧ ∀ i, (table i).address ≠ address) := by
  cases found : networkGetInterface table address with
  | none =>
    refine .inr ⟨rfl,fun i => ?_⟩
    simpa using List.find?_eq_none.mp found i (List.mem_finRange i)
  | some i => exact .inl ⟨i,rfl,by simpa using List.find?_some found⟩

theorem accounts_freed (invariant : PoolInvariant total reserved ⟨pool,p :: out'⟩) (positive : 1 ≤ reserved)
    (nonzero : p * pageSize ≠ 0) (available : Available before)
    (same : destination ≠ networkLoopbackAddress → out' = out) (upper : σ)
    (missing : result = netDoesntExist ↔ destination ≠ networkLoopbackAddress ∧ Available before ∧
      source ≠ networkBroadcastAddress ∧ ∀ i, (table i).gnd.isSome = true → (table i).address ≠ source)
    (present : ∀ i ∈ sends, (table i).gnd.isSome = true) :
    ∃ r, freeAndReturn pool upper (p * pageSize) sends result = .returned r ∧
      Accounts table source destination total reserved before out r := by
  obtain ⟨pool',freed,kept⟩ := freeAndReturn_frees invariant positive upper sends result
  have gone : p * pageSize / pageSize ∉ out' := by
    rw [Nat.mul_div_cancel p (by decide)]
    exact (List.nodup_cons.mp invariant.once).1
  exact ⟨_,freed,iff_of_true nonzero available,fun _ => ⟨out',same,gone,.inl ⟨rfl,rfl,kept⟩⟩,
    fun zero => absurd zero nonzero,missing,present⟩

theorem networkReceiveFrame_keeps {holds : σ → List Nat} {upper : σ}
    (keeps : ∀ id handler, env.protocolsGetFrameHandler id = some handler → KeepsPage total reserved holds handler)
    (invariant : PoolInvariant total reserved ⟨pool,p :: out⟩) (within : Within (holds upper) out) (frame : NetworkFrame) :
    ∃ out', PoolInvariant total reserved
      ⟨(networkReceiveFrame env frame (p * pageSize) pool upper).2.1,p :: out'⟩ := by
  rw [networkReceiveFrame]
  split
  · exact ⟨out,invariant⟩
  · next handler found => exact keeps _ handler found _ _ _ _ p pool out upper invariant within

theorem sendFrame_accounts {holds : σ → List Nat} {upper : σ}
    (invariant : PoolInvariant total reserved ⟨pool,p :: out⟩) (positive : 1 ≤ reserved)
    (nonzero : p * pageSize ≠ 0) (available : Available before)
    (absent : ∀ i, (env.interfaces i).gnd = none → (env.interfaces i).address = 0)
    (named : ∀ i, (env.interfaces i).gnd.isSome = true → (env.interfaces i).address ≠ 0)
    (keeps : ∀ id handler, env.protocolsGetFrameHandler id = some handler → KeepsPage total reserved holds handler)
    (within : Within (holds upper) out) (frame : NetworkFrame) :
    (∃ r, sendFrame env frame (p * pageSize) pool upper = .returned r ∧
      Accounts env.interfaces frame.source frame.destination total reserved before out r) ↔
    ¬Mistaken env.interfaces frame.source frame.destination before := by
  have page : p * pageSize / pageSize = p := Nat.mul_div_cancel p (by decide)
  rw [sendFrame]
  by_cases loopback : frame.destination = networkLoopbackAddress
  · refine iff_of_true ?_ fun mistaken => mistaken.1 loopback
    rw [if_pos loopback]
    simp only
    obtain ⟨out',kept⟩ := networkReceiveFrame_keeps keeps invariant within { frame with source :=
      if frame.source = networkBroadcastAddress then networkLoopbackAddress else frame.source }
    generalize networkReceiveFrame env _ _ _ _ = received at kept ⊢
    have missing : ∀ result, result ≠ netDoesntExist → (result = netDoesntExist ↔
        frame.destination ≠ networkLoopbackAddress ∧ Available before ∧ frame.source ≠ networkBroadcastAddress ∧
          ∀ i, (env.interfaces i).gnd.isSome = true → (env.interfaces i).address ≠ frame.source) :=
      fun result other => iff_of_false other fun all => all.1 loopback
    split
    · exact accounts_freed kept positive nonzero available (fun away => absurd loopback away) _
        (missing netError (by decide)) fun i member => absurd member List.not_mem_nil
    · refine ⟨_,rfl,iff_of_true nonzero available,fun _ => ⟨out',fun away => absurd loopback away,?_⟩,
        fun zero => absurd zero nonzero,missing netOk (by decide),fun i member => absurd member List.not_mem_nil⟩
      simp only [page]
      exact ⟨(List.nodup_cons.mp kept.once).1,.inr ⟨trivial,trivial,kept⟩⟩
  rw [if_neg loopback]
  by_cases broadcast : frame.source = networkBroadcastAddress
  · rw [if_neg (not_not.mpr broadcast)]
    refine iff_of_true ?_ ?_
    · obtain ⟨present,result⟩ := sendAll_present frame.destination frame (List.finRange configMaxGnds) netOk
      exact accounts_freed invariant positive nonzero available (fun _ => rfl) upper
        (iff_of_false (result (.inl rfl)) fun all => all.2.2.1 broadcast) present
    · rintro ⟨_,_,zero,_⟩
      rw [broadcast] at zero
      contradiction
  rw [if_pos broadcast]
  rcases networkGetInterface_cases env.interfaces frame.source with ⟨i,found,same⟩ | ⟨found,none⟩
  · rw [found]
    simp only
    by_cases device : (env.interfaces i).gnd = none
    · rw [if_pos (by rw [device]; rfl)]
      refine iff_of_false ?_ (not_not.mpr ⟨loopback,available,?_,i,device⟩)
      · rintro ⟨r,called,_⟩
        contradiction
      · rw [← same,absent i device]
    · have there : (env.interfaces i).gnd.isSome = true := Option.isSome_iff_ne_none.mpr device
      rw [if_neg (by simpa using device)]
      refine iff_of_true ?_ ?_
      · refine accounts_freed invariant positive nonzero available (fun _ => rfl) upper (iff_of_false ?_ ?_)
          (List.forall_mem_singleton.mpr there)
        · split <;> decide
        · exact fun all => all.2.2.2 i there same
      · rintro ⟨_,_,zero,_⟩
        exact named i there (same.trans zero)
  · rw [found]
    refine iff_of_true ?_ ?_
    · exact accounts_freed invariant positive nonzero available (fun _ => rfl) upper
        (iff_of_true rfl ⟨loopback,available,broadcast,fun i _ => none i⟩) fun i member => absurd member List.not_mem_nil
    · rintro ⟨_,_,zero,i,device⟩
      exact none i ((absent i device).trans zero.symm)

end Accounting

/-- `network_send` accounts for its page and its interface unless it is given the address 0,
which rows without device have, as its source. -/
theorem network_send_accounts {σ : Type} (env : Environment σ) (built : networkInit devices = some env.interfaces)
    (named : ∀ i, (env.interfaces i).gnd.isSome = true → (env.interfaces i).address ≠ 0) (holds : σ → List Nat)
    (keeps : ∀ id handler, env.protocolsGetFrameHandler id = some handler → KeepsPage total reserved holds handler)
    (source destination protocolId : UInt32) (length : Int) (buffer : Bytes)
    (valid : 0 < length ∧ length ≤ pageSize - frameHeaderSize)
    (positive : 1 ≤ reserved) (invariant : PoolInvariant total reserved ⟨pool,out⟩) (upper : σ)
    (within : Within (holds upper) out) :
    (∃ r, networkSend env source destination protocolId length buffer pool upper = .returned r ∧
      Accounts env.interfaces source destination total reserved pool out r) ↔
    ¬Mistaken env.interfaces source destination pool := by
  rw [networkSend,if_pos valid]
  by_cases available : Available pool
  swap
  · have none : pagepoolGetPhysPage pool = some (0,pool) := if_neg available
    rw [none]
    simp only
    refine iff_of_true ?_ fun mistaken => available mistaken.2.1
    refine ⟨_,rfl,iff_of_false (not_not.mpr rfl) available,fun nonzero => absurd rfl nonzero,fun _ => ⟨rfl,rfl,rfl⟩,?_,
      fun i member => absurd member List.not_mem_nil⟩
    exact iff_of_false (show netError ≠ netDoesntExist by decide) fun all => available all.2.1
  obtain ⟨_,got⟩ | ⟨p,high,low,_,_,got⟩ := invariant.get
  · have count : pool.numFreePages = pool.numFreePages - 1 := get_counts available got
    omega
  have nonzero : p * pageSize ≠ 0 := by
    unfold pageSize
    omega
  have taken := poolStep_invariant positive invariant (by rintro physAddr ⟨⟩)
    (show poolStep .get ⟨pool,out⟩ = _ by rw [poolStep,got]; rfl)
  simp only [if_neg nonzero,Nat.mul_div_cancel p (show 0 < pageSize by decide)] at taken
  rw [got]
  simp only [if_neg nonzero]
  exact sendFrame_accounts taken positive nonzero available (fun i absent => table_absent built absent) named keeps within _

/-- A system with one interface, its protocols take no frames. -/
def oneInterface : Environment Unit where
  interfaces := fun i => if i.val = 0 then ⟨5,1500,some ⟨1500,5⟩⟩ else ⟨0,0,none⟩
  send := fun _ _ _ => 0
  protocolsGetFrameHandler := fun _ => none
  page := fun _ _ => 0

theorem oneInterface_built : networkInit [⟨1500,5⟩] = some oneInterface.interfaces := by
  rw [networkInit,if_pos (by decide)]
  apply congrArg some
  funext i
  fin_cases i <;> rfl

theorem oneInterface_named (i : InterfaceIndex) (here : (oneInterface.interfaces i).gnd.isSome = true) :
    (oneInterface.interfaces i).address ≠ 0 := by
  revert i
  decide

/-- The loopback address as the source is found in the first row without device. -/
theorem network_send_calls_null :
    ∃ i, networkSend oneInterface 0 9 1 4 (fun _ => 0) (pagepoolInit 40 2 fun _ => 0) () = .calledNull i ∧
      (oneInterface.interfaces i).gnd = none := by
  have called : (match networkSend oneInterface 0 9 1 4 (fun _ => 0) (pagepoolInit 40 2 fun _ => 0) () with
      | .calledNull i => (oneInterface.interfaces i).gnd.isNone
      | _ => false) = true := by
    decide +kernel
  split at called
  · next i sent => exact ⟨i,sent,Option.isNone_iff_eq_none.mp called⟩
  · contradiction

end Buenos.Net
