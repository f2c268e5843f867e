import Buenos.Net.PopWakeup
import Mathlib.Data.Fintype.Card
import Mathlib.Order.Interval.Finset.Nat

/-! The ports of `net/socket.c`, over any sequence of `socket_open` and `socket_close`. Both
run under the semaphore of the table, so a call is one step. -/
namespace Buenos.Net.Pop

open Buenos.Foundation

/-- The table, and the semaphores that are allocated, by sockets or by others. -/
structure SocketTable where
  state : State
  allocated : List Nat

/-- `sem` is what `semaphore_create` would return. -/
inductive SocketAction where
  | open (protocol : UInt8) (port : UInt16) (sem : Option Nat)
  | close (socket : SocketIndex)

/-- `semaphore_create` returns a semaphore that is not allocated, or fails. -/
def socketStep : SocketAction → SocketTable → Option SocketTable
  | .open protocol port sem, s =>
    if ∀ k ∈ sem, k ∉ s.allocated then
      (socketOpen protocol port sem s.state).map fun (result, t) =>
        ⟨t,if result.isSome then sem.toList ++ s.allocated else s.allocated⟩
    else none
  | .close i, s =>
    some ⟨socketClose i s.state,s.allocated.filter fun k => (s.state.sockets i).receiveComplete ≠ some k⟩

def Open (s : State) (j : SocketIndex) : Prop := (s.sockets j).protocol ≠ 0

structure SocketsSound (s : SocketTable) : Prop where
  opened : ∀ j, Open s.state j ↔ (s.state.sockets j).receiveComplete ≠ none
  bound : ∀ j, Open s.state j → (s.state.sockets j).port ≠ 0
  distinct : ∀ i j, Open s.state i → Open s.state j → (s.state.sockets i).port = (s.state.sockets j).port → i = j
  owned : ∀ j k, (s.state.sockets j).receiveComplete = some k → k ∈ s.allocated
  apart : ∀ i j k, (s.state.sockets i).receiveComplete = some k → (s.state.sockets j).receiveComplete = some k → i = j

/-- No port below is free, and 0 is none. -/
structure LeastFree (sockets : SocketIndex → Socket) (port : UInt16) : Prop where
  positive : port ≠ 0
  free : portInUse sockets port = false
  least : ∀ p : UInt16, p ≠ 0 → portInUse sockets p = false → port ≤ p

/-- What a `socket_open` that found the table `s` may return and leave behind. -/
structure Answers (s : State) (protocol : UInt8) (port : UInt16) (sem : Option Nat) (result : Option SocketIndex)
    (t : State) : Prop where
  opened : ∀ i ∈ result, ¬Open s i ∧ Open t i ∧ (t.sockets i).protocol = protocol ∧ ∀ j, j ≠ i → t.sockets j = s.sockets j
  succeeds : protocol = protocolPop ∨ protocol = protocolSop → (∃ j, ¬Open s j) →
    port = 0 ∨ portInUse s.sockets port = false → sem ≠ none → result ≠ none
  chosen : port = 0 → ∀ i ∈ result, LeastFree s.sockets (t.sockets i).port
  given : port ≠ 0 → ∀ i ∈ result, (t.sockets i).port = port
  taken : port ≠ 0 → portInUse s.sockets port = true → result = none
  failed : result = none → ∀ j, (t.sockets j).protocol = (s.sockets j).protocol ∧ (t.sockets j).port = (s.sockets j).port

/-! ### The search for a port -/

section Search
variable {sockets : SocketIndex → Socket}

theorem exists_free (sockets : SocketIndex → Socket) : ∃ n, 0 < n ∧ n < 2 ^ 16 ∧ portInUse sockets (UInt16.ofNat n) = false := by
  have few : ((Finset.univ : Finset SocketIndex).image fun j => (sockets j).port.toNat).card < (Finset.Ioo 0 (2 ^ 16)).card := by
    refine Nat.lt_of_le_of_lt Finset.card_image_le ?_
    rw [Finset.card_univ,Fintype.card_fin,Nat.card_Ioo]
    decide
  obtain ⟨n,range,unused⟩ := Finset.exists_mem_notMem_of_card_lt_card few
  obtain ⟨positive,small⟩ := Finset.mem_Ioo.mp range
  refine ⟨n,positive,small,?_⟩
  rw [← Bool.not_eq_true,portInUse_iff]
  rintro ⟨j,_,same⟩
  apply unused
  apply Finset.mem_image.mpr
  refine ⟨j,Finset.mem_univ j,?_⟩
  rw [same,UInt16.toNat_ofNat',Nat.mod_eq_of_lt small]

/-- The search counts up to the first free port. -/
theorem nextFreePort_least (port n : Nat) (above : port < n) (rounds : n ≤ port + fuel)
    (used : ∀ m, port < m → m < n → portInUse sockets (UInt16.ofNat m) = true)
    (free : portInUse sockets (UInt16.ofNat n) = false) :
    nextFreePort sockets fuel (UInt16.ofNat port) = some (UInt16.ofNat n) := by
  induction fuel generalizing port with
  | zero => omega
  | succ fuel ih =>
    have next : UInt16.ofNat port + 1 = UInt16.ofNat (port + 1) := UInt16.ofNat_add port 1 ▸ rfl
    rw [nextFreePort]
    simp only [next]
    by_cases last : port + 1 = n
    · rw [last,if_neg (by rw [free]; exact Bool.false_ne_true)]
    · rw [if_pos (used (port + 1) (by omega) (by omega))]
      exact ih (port + 1) (by omega) (by omega) fun m low high => used m (by omega) high

/-- The search ends at the least positive port that no open socket has. -/
theorem choosePort_zero (sockets : SocketIndex → Socket) :
    ∃ p, choosePort sockets 0 = some (some p) ∧ LeastFree sockets p := by
  have some_ := exists_free sockets
  obtain ⟨positive,small,free⟩ := Nat.find_spec some_
  refine ⟨UInt16.ofNat (Nat.find some_),?_,?_,free,?_⟩
  · have used : ∀ m, 0 < m → m < Nat.find some_ → portInUse sockets (UInt16.ofNat m) = true := by
      intro m low high
      have not := Nat.find_min some_ high
      rw [← Bool.not_eq_false]
      intro unused
      exact not ⟨low,by omega,unused⟩
    have found : nextFreePort sockets 65536 0 = some (UInt16.ofNat (Nat.find some_)) :=
      nextFreePort_least 0 (Nat.find some_) positive (by omega) used free
    rw [choosePort,if_pos rfl,found]
    rfl
  · intro zero
    have := congrArg UInt16.toNat zero
    rw [UInt16.toNat_ofNat',Nat.mod_eq_of_lt small] at this
    change _ = 0 at this
    omega
  · intro p nonzero unused
    rw [UInt16.le_iff_toNat_le,UInt16.toNat_ofNat',Nat.mod_eq_of_lt small]
    apply Nat.find_min' some_
    refine ⟨Nat.pos_of_ne_zero fun zero => nonzero (UInt16.toNat_inj.mp zero),p.toNat_lt,?_⟩
    rw [UInt16.ofNat_toNat]
    exact unused

theorem choosePort_given (nonzero : port ≠ 0) (chosen : choosePort sockets port = some (some p)) :
    portInUse sockets port = false ∧ p = port := by
  rw [choosePort,if_neg nonzero] at chosen
  split at chosen
  · cases chosen
  · next free =>
    cases chosen
    exact ⟨Bool.not_eq_true _ ▸ free,rfl⟩

theorem choosePort_positive (chosen : choosePort sockets port = some (some p)) : p ≠ 0 := by
  by_cases zero : port = 0
  · subst zero
    obtain ⟨q,found,least⟩ := choosePort_zero sockets
    rw [found] at chosen
    cases chosen
    exact least.positive
  · rw [(choosePort_given zero chosen).2]
    exact zero

end Search

/-! ### The calls -/

section Calls
variable {s t : State}

theorem socketOpen_chosen (returned : socketOpen protocol port sem s = some (some i, t)) :
    choosePort s.sockets port = some (some (t.sockets i).port) := by
  unfold socketOpen at returned
  split at returned
  · cases returned
  split at returned
  · cases returned
  obtain ⟨chosen,choice,bound⟩ := Option.map_eq_some_iff.mp returned
  cases chosen with
  | none => cases bound
  | some p =>
    cases sem with
    | none => cases bound
    | some x =>
      cases bound
      simpa using choice

theorem socketOpen_returns (protocol : UInt8) (port : UInt16) (sem : Option Nat) (s : State) :
    ∃ result t, socketOpen protocol port sem s = some (result,t) := by
  have choice : ∃ chosen, choosePort s.sockets port = some chosen := by
    by_cases zero : port = 0
    · obtain ⟨p,found,_⟩ := choosePort_zero s.sockets
      exact ⟨some p,zero ▸ found⟩
    · exact ⟨_,if_neg zero⟩
  obtain ⟨chosen,choice⟩ := choice
  unfold socketOpen
  split
  · exact ⟨_,_,rfl⟩
  split
  · exact ⟨_,_,rfl⟩
  rw [choice]
  exact ⟨_,_,rfl⟩

theorem socketOpen_opened (returned : socketOpen protocol port sem s = some (some i, t)) :
    ¬Open s i ∧ Open t i ∧ (t.sockets i).protocol = protocol ∧ ∀ j, j ≠ i → t.sockets j = s.sockets j := by
  obtain ⟨wrong,_⟩ | ⟨k,p,x,same,_,binds⟩ := socketOpen_cases returned
  · contradiction
  cases same
  have here : (t.sockets i).protocol = protocol := by rw [binds.sockets]; simp
  refine ⟨fun opened => opened binds.unused,?_,here,fun j apart => ?_⟩
  · rw [Open,here]
    exact binds.proper
  · rw [binds.sockets,Function.update_of_ne apart]

theorem socketOpen_succeeds (returned : socketOpen protocol port sem s = some (result, t))
    (known : protocol = protocolPop ∨ protocol = protocolSop) (room : ∃ j, ¬Open s j)
    (free : port = 0 ∨ portInUse s.sockets port = false) (created : sem ≠ none) : result ≠ none := by
  obtain ⟨x,rfl⟩ := Option.ne_none_iff_exists'.mp created
  have entry : ((List.finRange configMaxOpenSockets).find? fun i => (s.sockets i).protocol == 0).isSome = true := by
    obtain ⟨j,unused⟩ := room
    rw [List.find?_isSome]
    exact ⟨j,List.mem_finRange j,by simpa [Open] using unused⟩
  obtain ⟨i,entry⟩ := Option.isSome_iff_exists.mp entry
  have choice : ∃ p, choosePort s.sockets port = some (some p) := by
    by_cases zero : port = 0
    · obtain ⟨p,found,_⟩ := choosePort_zero s.sockets
      exact ⟨p,zero ▸ found⟩
    · rw [choosePort,if_neg zero,free.resolve_left zero]
      exact ⟨port,rfl⟩
  obtain ⟨p,choice⟩ := choice
  rw [socketOpen,if_neg (by tauto),entry] at returned
  dsimp only at returned
  rw [choice] at returned
  cases returned
  exact Option.some_ne_none i

theorem socketOpen_answers (returned : socketOpen protocol port sem s = some (result,t)) :
    Answers s protocol port sem result t := by
  refine ⟨?_,socketOpen_succeeds returned,?_,?_,?_,?_⟩
  · rintro i rfl
    exact socketOpen_opened returned
  · rintro rfl i rfl
    obtain ⟨p,found,least⟩ := choosePort_zero s.sockets
    have chosen := socketOpen_chosen returned
    rw [found] at chosen
    cases chosen
    exact least
  · rintro nonzero i rfl
    exact (choosePort_given nonzero (socketOpen_chosen returned)).2
  · intro nonzero used
    cases result with
    | none => rfl
    | some i =>
      have free := (choosePort_given nonzero (socketOpen_chosen returned)).1
      rw [used] at free
      contradiction
  · rintro rfl j
    obtain ⟨_,rfl | ⟨i,_,rfl⟩⟩ | ⟨i,_,_,wrong,_⟩ := socketOpen_cases returned
    · exact ⟨rfl,rfl⟩
    · by_cases same : j = i
      · subst same
        simp
      · simp [same]
    · contradiction

end Calls

theorem initial_sockets (allocated : List Nat) : SocketsSound ⟨initial,allocated⟩ := by
  constructor <;> simp [initial,closedSocket,Open]

theorem SocketsSound.bind {s : SocketTable} (sound : SocketsSound s) (binds : Binds i protocol port sem s.state t)
    (fresh : sem ∉ s.allocated) (nonzero : port ≠ 0) (unused : portInUse s.state.sockets port = false) :
    SocketsSound ⟨t,sem :: s.allocated⟩ := by
  have here : t.sockets i = { s.state.sockets i with
      receiveComplete := some sem, port := port, protocol := protocol
      rbuf := none, bufsize := 0, sender := none, copied := none } := by
    rw [binds.sockets,Function.update_self]
  have other : ∀ j, j ≠ i → t.sockets j = s.state.sockets j := by
    intro j apart
    rw [binds.sockets,Function.update_of_ne apart]
  have held : ∀ j, (s.state.sockets j).receiveComplete ≠ some sem := fun j has => fresh (sound.owned j sem has)
  refine ⟨?_,?_,PortsApart.bind sound.distinct binds unused,?_,?_⟩
  · intro j
    by_cases same : j = i
    · subst same
      simp [Open,here,binds.proper]
    · simpa [Open,other j same] using sound.opened j
  · intro j isOpen
    by_cases same : j = i
    · subst same
      simpa [here] using nonzero
    · simp only [Open,other j same] at isOpen ⊢
      exact sound.bound j isOpen
  · intro j k has
    by_cases same : j = i
    · subst same
      simp only [here,Option.some.injEq] at has
      exact List.mem_cons.mpr (.inl has.symm)
    · simp only [other j same] at has
      exact List.mem_cons_of_mem sem (sound.owned j k has)
  · intro j l k first second
    by_cases one : j = i <;> by_cases two : l = i
    · rw [one,two]
    · subst one
      simp only [here,other l two,Option.some.injEq] at first second
      exact absurd (first ▸ second) (held l)
    · subst two
      simp only [here,other j one,Option.some.injEq] at first second
      exact absurd (second ▸ first) (held j)
    · simp only [other j one,other l two] at first second
      exact sound.apart j l k first second

theorem SocketsSound.close {s : SocketTable} (sound : SocketsSound s) (i : SocketIndex) :
    SocketsSound ⟨socketClose i s.state,s.allocated.filter fun k => (s.state.sockets i).receiveComplete ≠ some k⟩ := by
  unfold socketClose
  split
  · next none =>
    have all : (s.allocated.filter fun k => (s.state.sockets i).receiveComplete ≠ some k) = s.allocated := by
      rw [Option.isNone_iff_eq_none] at none
      simp [none]
    rw [all]
    exact sound
  · next closing =>
    have held : ∃ k, (s.state.sockets i).receiveComplete = some k := by
      rwa [Option.isNone_iff_eq_none,← ne_eq,Option.ne_none_iff_exists'] at closing
    obtain ⟨k,held⟩ := held
    refine ⟨?_,?_,?_,?_,?_⟩
    · intro j
      by_cases same : j = i
      · subst same
        simp [Open]
      · simpa [Open,same] using sound.opened j
    · intro j isOpen
      by_cases same : j = i
      · subst same
        simp [Open] at isOpen
      · simp only [Open,Function.update_of_ne same] at isOpen ⊢
        exact sound.bound j isOpen
    · intro j l first second ports
      by_cases one : j = i
      · subst one
        simp [Open] at first
      by_cases two : l = i
      · subst two
        simp [Open] at second
      simp only [Open,Function.update_of_ne one,Function.update_of_ne two] at first second ports
      exact sound.distinct j l first second ports
    · intro j x has
      by_cases same : j = i
      · subst same
        simp at has
      · simp only [Function.update_of_ne same] at has
        simp only [List.mem_filter,decide_eq_true_eq]
        refine ⟨sound.owned j x has,?_⟩
        intro both
        exact same (sound.apart j i x has both)
    · intro j l x first second
      by_cases one : j = i
      · subst one
        simp at first
      by_cases two : l = i
      · subst two
        simp at second
      simp only [Function.update_of_ne one,Function.update_of_ne two] at first second
      exact sound.apart j l x first second

theorem socketStep_sound (a : SocketAction) (s t : SocketTable) (sound : SocketsSound s) (next : socketStep a s = some t) :
    SocketsSound t := by
  cases a with
  | close i =>
    obtain rfl := Option.some.inj next
    exact sound.close i
  | «open» protocol port sem =>
    rw [socketStep] at next
    split at next
    swap
    · contradiction
    next fresh =>
    obtain ⟨⟨result,state⟩,returned,rfl⟩ := Option.map_eq_some_iff.mp next
    obtain ⟨rfl,rfl | ⟨i,unused,rfl⟩⟩ | ⟨i,p,k,rfl,rfl,binds⟩ := socketOpen_cases returned
    · exact sound
    · -- the pointer that is cleared was null
      have null : (s.state.sockets i).receiveComplete = none := by
        have opened := sound.opened i
        rw [Open,unused] at opened
        exact not_not.mp fun has => opened.mpr has rfl
      have same : { s.state.sockets i with receiveComplete := none } = s.state.sockets i := by
        rw [← null]
      rw [same,Function.update_eq_self]
      exact sound
    · have port_ : (state.sockets i).port = p := by rw [binds.sockets]; simp
      have chosen := socketOpen_chosen returned
      rw [port_] at chosen
      exact sound.bind binds (fresh k rfl) (choosePort_positive chosen) (choosePort_free chosen)

/-- In every state that calls of `socket_open` and `socket_close` reach, open sockets have ports
and semaphores of their own; the next `socket_open` returns and answers as it should, and the
port its search finds is not 0. -/
theorem socket_ports (actions : List SocketAction) (allocated : List Nat) (s : SocketTable)
    (ran : run socketStep actions ⟨initial,allocated⟩ = some s) :
    SocketsSound s ∧ (∃ p, choosePort s.state.sockets 0 = some (some p) ∧ LeastFree s.state.sockets p) ∧
    ∀ protocol port sem, ∃ result t, socketOpen protocol port sem s.state = some (result,t) ∧
      Answers s.state protocol port sem result t := by
  refine ⟨run_invariant socketStep_sound (initial_sockets allocated) ran,choosePort_zero _,?_⟩
  intro protocol port sem
  obtain ⟨result,t,returned⟩ := socketOpen_returns protocol port sem s.state
  exact ⟨result,t,returned,socketOpen_answers returned⟩

/-- Two sockets are opened and the first one is closed: a third gets its entry and its port. -/
theorem socket_ports_reused : ∃ s, run socketStep
      [.open protocolPop 0 (some 7),.open protocolPop 0 (some 8),.close 0] ⟨initial,[]⟩ = some s ∧
    SocketsSound s ∧ Open s.state 1 ∧ ∃ t, socketOpen protocolPop 0 (some 9) s.state = some (some 0,t) ∧
      Open t 0 ∧ LeastFree s.state.sockets (t.sockets 0).port := by
  have reached : ((run socketStep [.open protocolPop 0 (some 7),.open protocolPop 0 (some 8),.close 0]
      ⟨initial,[]⟩).any fun s => decide ((s.state.sockets 1).protocol = protocolPop ∧
        (socketOpen protocolPop 0 (some 9) s.state).map Prod.fst = some (some 0))) = true := by decide +kernel
  obtain ⟨s,ran,facts⟩ := (Option.any_eq_true _ _).mp reached
  obtain ⟨other,returned⟩ := of_decide_eq_true facts
  obtain ⟨sound,_,answers⟩ := socket_ports _ [] s ran
  obtain ⟨result,t,called,answer⟩ := answers protocolPop 0 (some 9)
  rw [called] at returned
  cases returned
  refine ⟨s,ran,sound,?_,t,called,(answer.opened 0 rfl).2.1,answer.chosen rfl 0 rfl⟩
  rw [Open,other]
  decide

end Buenos.Net.Pop
