import Buenos.Drivers.Disk
import Buenos.Foundation.Chain

/-! The request queue of the disk driver: requests are served in the order in which they
entered the queue, and the driver and the device agree on what is under work. -/
namespace Buenos.Drivers.Disk

open Buenos.Foundation

def entries (requests : Nat → Request) (queue : List Nat) : List Entry := queue.map fun r => ⟨r,(requests r).command⟩

/-- Requests are issued in the order of the queue and signalled in the order in which they were
issued, after the device is done with them. -/
structure Orderly (s : State) : Prop where
  issued : s.issued <+: s.entered
  completed : s.completed <+: s.issued.map (·.command)
  signalled : s.signalled.map (·.1) <+: s.issued.map (·.request)
  after : s.signalled.length ≤ s.completed.length
  successful : ∀ signal ∈ s.signalled, signal.2 = 0
  results : ∀ result ∈ s.results, result.2 = 1
  idle : s.requestServed = 0 → s.requestQueue = 0 ∧ s.issued = s.entered ∧
    s.signalled.map (·.1) = s.entered.map (·.request)
  working : s.requestServed ≠ 0 → s.issued.length = s.signalled.length + 1
  asserts : s.failed = false

/-- The semaphore of a request that has not been raised. -/
def Unraised (s : State) (r : Nat) : Bool → Prop
  | true => (s.requests r).sem = some (.own r) ∧ s.sems (.own r) = 0
  | false => ∃ id, (s.requests r).sem = some (.caller id)

/-- What is known about a request from where its call is. -/
def Known (s : State) (r : Nat) : Phase → Prop
  | .free => True
  | .submitting sync => r ≠ 0 ∧ s.next r = 0 ∧ Unraised s r sync
  | .waiting sync => r ≠ 0 ∧ Unraised s r sync
  | .raised => s.sems (.own r) = 1 ∧ (s.requests r).returnValue = 0

def servedList (s : State) : List Nat := if s.requestServed = 0 then [] else [s.requestServed]

/-- The invariant while the spinlock is held; `queue` are the requests in the queue. -/
structure Core (s : State) (queue : List Nat) : Prop where
  chain : Chain s.next 0 s.requestQueue queue
  entered : s.entered = s.issued ++ entries s.requests queue
  served : s.issued.map (·.request) = s.signalled.map (·.1) ++ servedList s
  device : (s.busy = true ∨ s.irq = true) ↔ s.requestServed ≠ 0
  exclusive : ¬(s.busy = true ∧ s.irq = true)
  completed : ∃ rest, s.issued.map (·.command) = s.completed ++ rest ∧ rest.length = if s.busy = true then 1 else 0
  successful : ∀ signal ∈ s.signalled, signal.2 = 0
  apart : s.requestServed ∉ queue
  flight : ∀ r, (∃ sync, s.phase r = .waiting sync) ↔ r ∈ queue ∨ (r ≠ 0 ∧ r = s.requestServed)
  known : ∀ r, Known s r (s.phase r)
  results : ∀ result ∈ s.results, result.2 = 1
  asserts : s.failed = false

/-- With the spinlock free, a queue has a request before it under work. -/
def Invariant (s : State) : Prop := ∃ queue, Core s queue ∧ (s.requestServed = 0 → queue = [])

theorem initial_invariant (requests : Nat → Request) (sems : Sem → Nat) : Invariant (initial requests sems) := by
  refine ⟨[],⟨rfl,rfl,rfl,by simp [initial],by simp [initial],⟨[],rfl,rfl⟩,by simp [initial],by simp,?_,?_,?_,rfl⟩,
    fun _ => rfl⟩
  · intro r
    simp [initial]
  · intro r
    trivial
  · simp [initial]

theorem Core.orderly (core : Core s queue) (idle : s.requestServed = 0 → queue = []) : Orderly s := by
  obtain ⟨rest,commands,few⟩ := core.completed
  have lengths := congrArg List.length core.served
  have others := congrArg List.length commands
  simp only [List.length_map,List.length_append] at lengths others
  refine ⟨?_,?_,?_,?_,core.successful,core.results,?_,?_,core.asserts⟩
  · rw [core.entered]
    exact List.prefix_append _ _
  · rw [commands]
    exact List.prefix_append _ _
  · rw [core.served]
    exact List.prefix_append _ _
  · by_cases busy : s.busy = true
    · have working := core.device.mp (.inl busy)
      rw [servedList,if_neg working] at lengths
      rw [if_pos busy] at few
      simp only [List.length_singleton] at lengths
      omega
    · rw [if_neg busy] at few
      omega
  · intro none_
    have empty := idle none_
    have all : s.entered = s.issued := by
      rw [core.entered,empty]
      simp [entries]
    have signals := core.served
    rw [servedList,if_pos none_,List.append_nil] at signals
    refine ⟨?_,all.symm,by rw [all,signals]⟩
    have chain := core.chain
    rw [empty] at chain
    exact chain
  · intro working
    rw [servedList,if_neg working] at lengths
    exact lengths

/-! ### What does not concern a request -/

theorem entries_congr {requests requests' : Nat → Request}
    (same : ∀ r ∈ queue, (requests' r).command = (requests r).command) : entries requests' queue = entries requests queue := by
  apply List.map_congr_left
  intro r member
  rw [same r member]

theorem Known.congr (known : Known s r phase) (request : t.requests r = s.requests r)
    (sem : t.sems (.own r) = s.sems (.own r)) : Known t r phase := by
  cases phase with
  | free => trivial
  | submitting sync =>
    cases sync <;> simpa only [Known,Unraised,State.next,request,sem] using known
  | waiting sync =>
    cases sync <;> simpa only [Known,Unraised,State.next,request,sem] using known
  | raised => simpa only [Known,request,sem] using known

theorem Core.not_waiting (core : Core s queue) (outside : ∀ sync, s.phase r ≠ .waiting sync) :
    r ∉ queue ∧ (r ≠ 0 → r ≠ s.requestServed) := by
  have absent : ¬(r ∈ queue ∨ (r ≠ 0 ∧ r = s.requestServed)) := by
    rw [← core.flight r]
    rintro ⟨sync,waiting⟩
    exact outside sync waiting
  exact ⟨fun member => absent (.inl member),fun proper same => absent (.inr ⟨proper,same⟩)⟩

/-- A request outside the queue changes, and its call does not get into the queue or out of it. -/
theorem Core.change (core : Core s queue) (outside : r ∉ queue) (request : Request) (phase : Phase) (sems : Sem → Nat)
    (results : List (Nat × Int)) (before : ∀ sync, s.phase r ≠ .waiting sync) (after : ∀ sync, phase ≠ .waiting sync)
    (others : ∀ l, l ≠ r → sems (.own l) = s.sems (.own l)) (fine : ∀ result ∈ results, result.2 = 1)
    (known : Known { s with
      requests := Function.update s.requests r request
      sems := sems
      phase := Function.update s.phase r phase
      results := results } r phase) :
    Core { s with
      requests := Function.update s.requests r request
      sems := sems
      phase := Function.update s.phase r phase
      results := results } queue := by
  have same : ∀ l ∈ queue, Function.update s.requests r request l = s.requests l := by
    intro l member
    apply Function.update_of_ne
    rintro rfl
    exact outside member
  refine ⟨?_,?_,core.served,core.device,core.exclusive,core.completed,core.successful,core.apart,?_,?_,fine,core.asserts⟩
  · apply core.chain.congr
    intro l member
    simp only [State.next]
    rw [same l member]
  · show s.entered = s.issued ++ entries (Function.update s.requests r request) queue
    rw [entries_congr fun l member => by rw [same l member]]
    exact core.entered
  · intro l
    by_cases here : l = r
    · subst here
      rw [← core.flight l]
      simp [before,after]
    · simp only [Function.update_of_ne here]
      exact core.flight l
  · intro l
    by_cases here : l = r
    · subst here
      simpa only [Function.update_self] using known
    · simp only [Function.update_of_ne here]
      exact (core.known l).congr (Function.update_of_ne here _ _) (others l here)

/-! ### The queue -/

/-- The loop of the scheduler ends at the last request. -/
theorem lastRequest_eq (chain : Chain next 0 first (front ++ [last])) (enough : front.length < turns) :
    lastRequest next turns first = some last := by
  induction front generalizing first turns with
  | nil =>
    obtain ⟨turns,rfl⟩ := Nat.exists_eq_add_one_of_ne_zero (Nat.ne_of_gt enough)
    obtain ⟨rfl,_,ended⟩ := chain
    rw [lastRequest,if_pos (show next first = 0 from ended)]
  | cons x rest ih =>
    obtain ⟨turns,rfl⟩ := Nat.exists_eq_add_one_of_ne_zero (Nat.ne_of_gt (Nat.zero_lt_of_lt enough))
    obtain ⟨rfl,_,later⟩ := chain
    have more : next first ≠ 0 := by
      intro zero
      rw [zero] at later
      have first := later.first_eq
      cases rest with
      | nil => exact later.2.1 later.1.symm
      | cons y more => exact later.2.1 later.1.symm
    rw [lastRequest,if_neg more]
    apply ih later
    simpa using enough

theorem Core.nextRequest (core : Core s queue) (idle : s.requestServed = 0)
    (next : diskNextRequest error s = some t) : Invariant t := by
  have quiet : ¬(s.busy = true ∨ s.irq = true) := fun working => core.device.mp working idle
  unfold diskNextRequest at next
  rw [if_neg (by
    rintro (busy | served)
    · exact quiet (.inl busy)
    · exact served idle)] at next
  cases queue with
  | nil =>
    rw [if_pos (show s.requestQueue = 0 from core.chain)] at next
    cases next
    exact ⟨[],core,fun _ => rfl⟩
  | cons x rest =>
    obtain ⟨first,proper,later⟩ := core.chain
    rw [if_neg (by rw [first]; exact proper)] at next
    split at next
    · contradiction
    cases next
    have nodup := core.chain.nodup
    have fresh := (List.nodup_cons.mp nodup).1
    have same : ∀ l ∈ rest, Function.update s.requests s.requestQueue
        { s.requests s.requestQueue with next := 0 } l = s.requests l := by
      intro l member
      apply Function.update_of_ne
      rintro rfl
      exact fresh (first ▸ member)
    have waiting : ∃ sync, s.phase x = .waiting sync := (core.flight x).mpr (.inl List.mem_cons_self)
    refine ⟨rest,⟨?_,?_,?_,?_,?_,?_,core.successful,?_,?_,?_,core.results,core.asserts⟩,fun none_ => ?_⟩
    · rw [first]
      apply later.congr
      intro l member
      simp only [State.next,State.modify]
      rw [← first,same l member]
    · show s.entered = (s.issued ++ [_]) ++ entries (Function.update s.requests s.requestQueue _) rest
      rw [entries_congr fun l member => by rw [same l member],core.entered,List.append_assoc]
      simp [entries,first]
    · simp only [State.modify,servedList,List.map_append,List.map_cons,List.map_nil]
      rw [core.served,servedList,if_pos idle,List.append_nil,if_neg (by rw [first]; exact proper)]
    · simp [State.modify,first,proper]
    · simp only [State.modify]
      rintro ⟨_,irq⟩
      exact quiet (.inr irq)
    · obtain ⟨rest,commands,few⟩ := core.completed
      rw [if_neg fun busy => quiet (.inl busy)] at few
      refine ⟨[(s.requests s.requestQueue).command],?_,rfl⟩
      simp only [State.modify,List.map_append,List.map_cons,List.map_nil]
      rw [commands,List.length_eq_zero_iff.mp few,List.append_nil]
    · simp only [first]
      exact fresh
    · intro r
      simp only [State.modify]
      rw [core.flight r,List.mem_cons,first,idle]
      constructor
      · rintro ((rfl | member) | ⟨proper,zero⟩)
        · exact .inr ⟨proper,rfl⟩
        · exact .inl member
        · exact absurd zero proper
      · rintro (member | ⟨_,rfl⟩)
        · exact .inl (.inr member)
        · exact .inl (.inl rfl)
    · intro r
      by_cases here : r = s.requestQueue
      · have known := core.known r
        obtain ⟨sync,there⟩ := waiting
        rw [here,first,there] at known
        simp only [State.modify,here,first,there]
        cases sync <;> simpa only [Known,Unraised,Function.update_self] using known
      · exact (core.known r).congr (Function.update_of_ne here _ _) rfl
    · exact absurd none_ (by simp only [first]; exact proper)

/-- The scheduler links a request behind the others and changes nothing else. -/
theorem Core.schedule (core : Core s queue) (fresh : r ∉ queue) (proper : r ≠ 0) (ended : s.next r = 0) :
    ∃ requests first, diskschedSchedule r s = { s with requests := requests, requestQueue := first } ∧
      Chain (fun l => (requests l).next) 0 first (queue ++ [r]) ∧ (∀ l, l ∉ queue → requests l = s.requests l) ∧
      ∀ l, (requests l).sem = (s.requests l).sem ∧ (requests l).command = (s.requests l).command := by
  rcases List.eq_nil_or_concat queue with rfl | ⟨front,last,rfl⟩
  · have empty : s.requestQueue = 0 := core.chain
    rw [diskschedSchedule,if_neg (not_not.mpr empty)]
    exact ⟨s.requests,r,rfl,⟨rfl,proper,ended⟩,fun _ _ => rfl,fun _ => ⟨rfl,rfl⟩⟩
  · rw [List.concat_eq_append] at *
    have nonempty : s.requestQueue ≠ 0 := by
      rw [core.chain.first_eq]
      intro zero
      apply core.chain.nil_not_mem
      cases front with
      | nil => simp_all
      | cons x rest => simp_all
    have enough : front.length < s.entered.length := by
      rw [core.entered,List.length_append,entries,List.length_map,List.length_append,List.length_singleton]
      omega
    rw [diskschedSchedule,if_pos nonempty,lastRequest_eq core.chain enough]
    refine ⟨_,_,rfl,?_,?_,?_⟩
    · have links : (fun l => (Function.update s.requests last { s.requests last with next := r } l).next) =
          Function.update (Function.update s.next r 0) last r := by
        funext l
        by_cases here : l = last
        · subst here
          simp
        · rw [Function.update_of_ne here,Function.update_of_ne here,← ended,Function.update_eq_self]
          rfl
      rw [links,List.append_assoc]
      exact core.chain.snoc fresh proper
    · intro l outside
      apply Function.update_of_ne
      rintro rfl
      simp at outside
    · intro l
      by_cases here : l = last
      · subst here
        simp [Request.command]
      · rw [Function.update_of_ne here]
        exact ⟨rfl,rfl⟩

theorem Core.enqueue (core : Core s queue) (here : s.phase r = .submitting sync) :
    Core { diskschedSchedule r s with
      phase := Function.update s.phase r (.waiting sync)
      entered := s.entered ++ [⟨r,(s.requests r).command⟩] } (queue ++ [r]) := by
  have known := core.known r
  rw [here] at known
  obtain ⟨proper,ended,unraised⟩ := known
  obtain ⟨fresh,unserved⟩ := core.not_waiting (r := r) (by simp [here])
  obtain ⟨requests,first,schedule,chain,outside,kept⟩ := core.schedule fresh proper ended
  rw [schedule]
  refine ⟨chain,?_,core.served,core.device,core.exclusive,core.completed,core.successful,?_,?_,?_,core.results,
    core.asserts⟩
  · show s.entered ++ _ = s.issued ++ entries requests (queue ++ [r])
    rw [entries_congr fun l _ => (kept l).2,core.entered,List.append_assoc]
    simp [entries]
  · intro member
    rcases List.mem_append.mp member with old | new
    · exact core.apart old
    · exact unserved proper (List.mem_singleton.mp new).symm
  · intro l
    by_cases same : l = r
    · subst same
      simp
    · simp only [Function.update_of_ne same,List.mem_append,List.mem_singleton,same,or_false]
      exact core.flight l
  · intro l
    by_cases same : l = r
    · subst same
      simp only [Function.update_self,Known]
      refine ⟨proper,?_⟩
      cases sync <;> simpa only [Unraised,(kept l).1] using unraised
    · simp only [Function.update_of_ne same]
      by_cases member : l ∈ queue
      · obtain ⟨sync,waiting⟩ := (core.flight l).mpr (.inl member)
        have known := core.known l
        rw [waiting] at known ⊢
        cases sync <;> simpa only [Known,Unraised,(kept l).1] using known
      · exact (core.known l).congr (outside l member) rfl

/-! ### The handler -/

theorem Core.raise (core : Core s queue) (irq : s.irq = true) :
    Core { semaphoreV s.requestServed (State.modify { s with irq := false } s.requestServed
      fun request => { request with returnValue := 0 }) with requestServed := 0 } queue := by
  have proper := core.device.mp (.inr irq)
  have idle : s.busy = false := by
    by_contra busy
    exact core.exclusive ⟨by simpa using busy,irq⟩
  obtain ⟨sync,waiting⟩ := (core.flight s.requestServed).mpr (.inr ⟨proper,rfl⟩)
  have known := core.known s.requestServed
  rw [waiting] at known
  obtain ⟨sem,present,others,own⟩ : ∃ sem, (s.requests s.requestServed).sem = some sem ∧
      (∀ l, l ≠ s.requestServed → Sem.own l ≠ sem) ∧
      (sync = true → sem = .own s.requestServed ∧ s.sems sem = 0) := by
    cases sync with
    | true =>
      obtain ⟨_,sem,zero⟩ := known
      exact ⟨_,sem,fun l other same => other (Sem.own.inj same),fun _ => ⟨rfl,zero⟩⟩
    | false =>
      obtain ⟨_,id,sem⟩ := known
      exact ⟨_,sem,by simp,by simp⟩
  have same : ∀ (request : Request), ∀ l ∈ queue, Function.update s.requests s.requestServed request l = s.requests l := by
    intro request l member
    apply Function.update_of_ne
    rintro rfl
    exact core.apart member
  simp only [semaphoreV,State.modify,Function.update_self,present]
  refine ⟨?_,?_,?_,by simp [idle],by simp,core.completed,?_,core.chain.nil_not_mem,?_,?_,core.results,core.asserts⟩
  · apply core.chain.congr
    intro l member
    simp only [State.next]
    rw [same _ l member]
  · show s.entered = s.issued ++ entries (Function.update s.requests s.requestServed _) queue
    rw [entries_congr fun l member => by rw [same _ l member]]
    exact core.entered
  · simp only [servedList,if_true,List.append_nil,List.map_append,List.map_cons,List.map_nil]
    rw [core.served,servedList,if_neg proper]
  · intro signal member
    rcases List.mem_append.mp member with old | new
    · exact core.successful signal old
    · rw [List.mem_singleton.mp new]
  · intro l
    by_cases here : l = s.requestServed
    · subst here
      have gone : s.requestServed ∉ queue := core.apart
      cases sync with
      | true => simp [waiting,gone,proper]
      | false => simp [waiting,gone,proper]
    · simp only [Function.update_of_ne here]
      rw [core.flight l]
      simp [here]
  · intro l
    by_cases here : l = s.requestServed
    · subst here
      cases sync with
      | true =>
        obtain ⟨rfl,zero⟩ := own rfl
        simp [waiting,Known,zero]
      | false => simp [waiting,Known]
    · simp only [Function.update_of_ne here]
      exact (core.known l).congr (Function.update_of_ne here _ _) (Function.update_of_ne (others l here) _ _)

theorem Core.interrupt (core : Core s queue) (idle : s.requestServed = 0 → queue = [])
    (next : diskInterruptHandle error s = some t) : Invariant t := by
  unfold diskInterruptHandle at next
  split at next
  · cases next
    exact ⟨queue,core,idle⟩
  · next irq =>
    have irq : s.irq = true := by simpa using irq
    rw [if_neg (core.device.mp (.inr irq))] at next
    exact (core.raise irq).nextRequest rfl next

/-! ### Callers and the device -/

theorem Core.submit (core : Core s queue) (proper : r ≠ 0) (free : s.phase r = .free) (operation : Operation)
    (block buf : Nat) (sem : Option Nat) (created : Bool) : Core (submit r operation block buf sem created s) queue := by
  obtain ⟨fresh,_⟩ := core.not_waiting (r := r) (by simp [free])
  have before : ∀ sync, s.phase r ≠ .waiting sync := by simp [free]
  cases sem with
  | some id =>
    apply core.change fresh _ (.submitting false) s.sems s.results before (by simp) (fun _ _ => rfl) core.results
    exact ⟨proper,by simp [State.next],id,by simp⟩
  | none =>
    cases created with
    | true =>
      apply core.change fresh _ (.submitting true) _ s.results before (by simp) ?_ core.results
      · exact ⟨proper,by simp [State.next],by simp,by simp⟩
      · intro l other
        apply Function.update_of_ne
        intro same
        exact other (Sem.own.inj same)
    | false =>
      have same : Function.update s.phase r .free = s.phase := by rw [← free,Function.update_eq_self]
      have changed := core.change fresh ⟨block,buf,none,operation,0,-1⟩ .free s.sems s.results before (by simp)
        (fun _ _ => rfl) core.results trivial
      rw [same] at changed
      exact changed

theorem Core.complete (core : Core s queue) (busy : s.busy = true) (last : s.issued.getLast? = some entry) :
    Core { s with busy := false, irq := true, completed := s.completed ++ [entry.command] } queue := by
  have served := core.device.mp (.inl busy)
  refine ⟨core.chain,core.entered,core.served,by simp [served],by simp,⟨[],?_,rfl⟩,core.successful,core.apart,
    core.flight,core.known,core.results,core.asserts⟩
  obtain ⟨rest,commands,one⟩ := core.completed
  rw [if_pos busy] at one
  obtain ⟨command,rfl⟩ := List.length_eq_one_iff.mp one
  have final := congrArg List.getLast? commands
  rw [List.getLast?_map,last,List.getLast?_append] at final
  simp only [Option.map_some,List.getLast?_singleton,Option.some_or,Option.some.injEq] at final
  rw [List.append_nil,commands,final]

theorem Core.finish (core : Core s queue) (there : s.phase r = .waiting true ∨ s.phase r = .raised)
    (positive : 0 < s.sems (.own r)) : Core (finish r s) queue := by
  have known := core.known r
  obtain waiting | raised := there
  · rw [waiting] at known
    have zero := known.2.2
    omega
  · rw [raised] at known
    obtain ⟨fresh,_⟩ := core.not_waiting (r := r) (by simp [raised])
    apply core.change fresh _ .free _ _ (by simp [raised]) (by simp) ?_ ?_ trivial
    · intro l other
      apply Function.update_of_ne
      intro same
      exact other (Sem.own.inj same)
    · intro result member
      rcases List.mem_append.mp member with old | new
      · exact core.results result old
      · rw [List.mem_singleton.mp new,if_pos known.2]

/-! ### Runs -/

theorem step_invariant (e : Event) (s t : State) (invariant : Invariant s) (next : step e s = some t) : Invariant t := by
  obtain ⟨queue,core,idle⟩ := invariant
  cases e with
  | submit r operation block buf sem created =>
    simp only [step] at next
    split at next
    · next free =>
      cases next
      refine ⟨queue,core.submit free.1 free.2 operation block buf sem created,?_⟩
      cases sem with
      | some id => exact idle
      | none => cases created <;> exact idle
    · contradiction
  | enqueue r error =>
    simp only [step] at next
    split at next
    · next sync here =>
      have entered := core.enqueue here
      simp only [Disk.enqueue] at next
      split at next
      · next none_ => exact entered.nextRequest none_ next
      · next working =>
        cases next
        exact ⟨_,entered,fun none_ => absurd none_ working⟩
    · contradiction
  | complete =>
    simp only [step] at next
    split at next
    · next entry busy last =>
      cases next
      exact ⟨queue,core.complete busy last,idle⟩
    · contradiction
  | interrupt error => exact core.interrupt idle next
  | finish r =>
    simp only [step] at next
    split at next
    · next ready =>
      cases next
      exact ⟨queue,core.finish ready.1 ready.2,idle⟩
    · contradiction

/-- The disk driver over every interleaving of callers, the device and its interrupts. -/
theorem disk_queue_orderly (requests : Nat → Request) (sems : Sem → Nat)
    (ran : run step events (initial requests sems) = some s) : Orderly s := by
  obtain ⟨queue,core,idle⟩ := run_invariant step_invariant (initial_invariant requests sems) ran
  exact core.orderly idle

/-- An asynchronous write enters the queue while a synchronous read is under work. -/
def readAndWrite : List Event :=
  [.submit 1 .read 5 0 none true,.enqueue 1 false,.submit 2 .write 6 0 (some 0) true,.enqueue 2 false,.complete,
    .interrupt false,.finish 1,.complete,.interrupt false]

theorem disk_queue_orderly_two :
    ∃ s, run step readAndWrite (initial (fun _ => ⟨0,0,none,.read,0,0⟩) (fun _ => 0)) = some s ∧
      s.signalled = [(1, 0),(2, 0)] ∧ s.results = [(1, 1)] ∧ Orderly s := by
  obtain ⟨s,ran,signalled,results⟩ : ∃ s,
      run step readAndWrite (initial (fun _ => ⟨0,0,none,.read,0,0⟩) (fun _ => 0)) = some s ∧
        s.signalled = [(1, 0),(2, 0)] ∧ s.results = [(1, 1)] := ⟨_,rfl,rfl,rfl⟩
  exact ⟨s,ran,signalled,results,disk_queue_orderly _ _ ran⟩

end Buenos.Drivers.Disk
