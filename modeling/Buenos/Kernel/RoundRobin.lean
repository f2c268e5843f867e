import Buenos.Foundation.Fifo
import Buenos.Kernel.ThreadRun

/-! The ready list as a queue: in every order of wake-ups and switches, on all CPUs, threads are
selected in the order in which they became ready. -/
namespace Buenos.Kernel

open Buenos.Foundation

/-- Whether `scheduler_schedule` puts the thread that was running back into the ready list. -/
def StaysReady (s : Threads) (t : Int) : Prop :=
  (s.threadTable t).state ≠ .dying ∧ (s.threadTable t).sleepsOn = 0 ∧ t ≠ idleThreadTid

instance (s : Threads) (t : Int) : Decidable (StaysReady s t) := by
  unfold StaysReady
  infer_instance

/-- The threads that an action makes ready and the one that it selects. -/
def readyEvents : Action → Threads → List (QueueEvent Int)
  | .run tid, _ => [.enter tid]
  | .wakeInner _, s => s.waker.elim [] fun w =>
    if (s.threadTable w.wake).state = .sleeping then [.enter w.wake] else []
  | .schedule cpu, s =>
    (if StaysReady s (s.currentThread cpu) then [.enter (s.currentThread cpu)] else []) ++
    (schedulerSchedule cpu s).elim [] fun t => match t.cpus cpu with
      | .storing u => if u = idleThreadTid then [.empty] else [.leave u]
      | _ => []
  | _, _ => []

/-- Whether an action selects a thread. -/
def Action.schedules : Action → Bool
  | .schedule _ => true
  | _ => false

/-! ### What the steps do -/

section Facts
variable {s s' : Threads}

theorem Invariant.current (invariant : Invariant s) (working : s.cpus c = .working) (busy : s.currentThread c ≠ 0) :
    Proper (s.currentThread c) ∧ (s.threadTable (s.currentThread c)).state = .running ∧
      (s.threadTable (s.currentThread c)).sleepsOn = 0 := by
  have here := onCpu_working (.inl working)
  have there : onCpu s c ≠ 0 := here ▸ busy
  obtain ⟨proper,-⟩ := invariant.cpus.on c (by simp) there
  obtain ⟨running,awake⟩ := invariant.cpus.awake c (by simp) there (by simp [working])
  rw [here] at proper running awake
  exact ⟨proper,running,awake⟩

theorem Invariant.new (invariant : Invariant s) (new : s.fresh tid ≠ none) :
    Proper tid ∧ (s.threadTable tid).state = .nonready ∧ (s.threadTable tid).sleepsOn = 0 := by
  obtain ⟨proper,state⟩ := invariant.rows.fresh tid new
  exact ⟨proper,state,invariant.rows.awake proper (by simp [state]) (by simp [state])⟩

theorem Invariant.starts (invariant : Invariant s) (new : s.fresh tid = some .created) (ran : threadRun tid s = some s') :
    ∃ u, Readies tid s u ∧ s' = { u with fresh := Function.update u.fresh tid none } := by
  obtain ⟨proper,-,awake⟩ := invariant.new (by rw [new]; exact Option.some_ne_none _)
  obtain ⟨u,added,readies⟩ := addReady_readies proper awake
  rw [threadRun,added] at ran
  cases ran
  exact ⟨u,readies,rfl⟩

theorem Invariant.leaves (invariant : Invariant s) (phase : s.cpus c = .working ∨ s.cpus c = .switching)
    (left : schedulerLeave (s.currentThread c) s = some s') :
    (StaysReady s (s.currentThread c) ∧ Proper (s.currentThread c) ∧
      (s.threadTable (s.currentThread c)).state = .running ∧ Readies (s.currentThread c) s s') ∨
    (¬StaysReady s (s.currentThread c) ∧ ∃ state, s' = s.modify (s.currentThread c) fun e => { e with state := state }) := by
  unfold schedulerLeave at left
  split at left
  · next dying =>
    cases left
    exact .inr ⟨fun stays => stays.1 dying,_,rfl⟩
  next alive =>
  split at left
  · next asleep =>
    cases left
    exact .inr ⟨fun stays => asleep stays.2.1,_,rfl⟩
  next awake =>
  have awake : (s.threadTable (s.currentThread c)).sleepsOn = 0 := not_not.mp awake
  split at left
  · next busy =>
    have here := onCpu_working phase
    obtain ⟨proper,state⟩ := invariant.cpus.on c (by simp) (here ▸ busy)
    rw [here] at proper state
    obtain ⟨u,added,readies⟩ := addReady_readies proper awake
    obtain rfl := Option.some.inj (added.symm.trans left)
    exact .inl ⟨⟨alive,awake,busy⟩,proper,state.resolve_right alive,readies⟩
  · next idle =>
    cases left
    exact .inr ⟨fun stays => idle stays.2.2,_,rfl⟩

theorem Invariant.switches (invariant : Invariant s) (phase : s.cpus c = .working ∨ s.cpus c = .switching)
    (scheduled : schedulerSchedule c s = some s') :
    ∃ s₁ s₂ ready queue t, schedulerLeave (s.currentThread c) s = some s₁ ∧ Between c s s₁ ∧
      Queues s₁ (s₁.waker.map Waker.wake) ready queue ∧ t = ready.headD 0 ∧ Selects t s₁ s₂ ∧
      s' = { s₂ with cpus := Function.update s₂.cpus c (.storing t) } := by
  obtain ⟨s₁,left,between⟩ := invariant.leave phase
  obtain ⟨ready,queue,queues,-⟩ := between.lists
  obtain ⟨t,s₂,removed,first,selects⟩ := queues.removeFirst
  have result : schedulerSchedule c s = some { s₂.modify t (fun e => { e with state := .running }) with
      cpus := Function.update s₂.cpus c (.storing t) } := by
    simp [schedulerSchedule,left,removed]
  exact ⟨s₁,_,ready,queue,t,left,between,queues,first,selects,Option.some.inj (scheduled.symm.trans result)⟩

end Facts

/-- `q` is the ready list. -/
structure ReadyList (s : Threads) (q : List Int) : Prop where
  invariant : Invariant s
  chain : Chain (fun t => (s.threadTable t).next) (-1) s.head q

theorem initial_readyList : ReadyList initial [] := ⟨initial_invariant,rfl⟩

section Steps
variable {s s' : Threads} {q : List Int}

theorem ReadyList.queues (list : ReadyList s q) : ∃ queue, Queues s (s.waker.map Waker.wake) q queue ∧
    ∀ w, s.waker = some w → Position w queue := by
  obtain ⟨ready,queue,queues,position⟩ := list.invariant.lists
  obtain rfl := queues.chain.unique list.chain
  exact ⟨queue,queues,position⟩

theorem ReadyList.ready (list : ReadyList s q) : t ∈ q ↔ Proper t ∧ (s.threadTable t).state = .ready := by
  obtain ⟨queue,queues,-⟩ := list.queues
  exact queues.ready t

theorem ReadyList.unready (list : ReadyList s q) (state : (s.threadTable t).state ≠ .ready) : t ∉ q :=
  fun member => state (list.ready.mp member).2

theorem ReadyList.keep (list : ReadyList s q) (head : s'.head = s.head)
    (next : ∀ t, (s.threadTable t).state = .ready → (s'.threadTable t).next = (s.threadTable t).next) :
    Chain (fun t => (s'.threadTable t).next) (-1) s'.head q := by
  rw [head]
  exact list.chain.congr fun t member => next t (list.ready.mp member).2

theorem ReadyList.grow (list : ReadyList s q) (readies : Readies t s s') (proper : Proper t)
    (state : (s.threadTable t).state ≠ .ready) :
    Chain (fun u => (s'.threadTable u).next) (-1) s'.head (q ++ [t]) := by
  obtain ⟨queue,queues,-⟩ := list.queues
  refine readies.chain queues.chain queues.tail (fun v member => ?_) (list.unready state) proper.1.le
  exact (list.ready.mp member).1.1.le

/-! ### Creation -/

theorem ReadyList.create (list : ReadyList s q) : ReadyList (threadCreate s) q := by
  refine ⟨list.invariant.create,?_⟩
  unfold threadCreate
  split
  · exact list.chain
  · next tid found =>
    refine list.keep rfl fun u _ => ?_
    by_cases same : u = tid <;> simp [same]

theorem ReadyList.init (list : ReadyList s q) (new : s.fresh tid = some .allocated) :
    ReadyList (threadInit tid s) q := by
  refine ⟨list.invariant.init new,list.keep rfl fun u ready => ?_⟩
  obtain ⟨-,state,-⟩ := list.invariant.new (by rw [new]; exact Option.some_ne_none _)
  have apart : u ≠ tid := by
    rintro rfl
    rw [state] at ready
    contradiction
  simp [threadInit,apart]

theorem ReadyList.run (list : ReadyList s q) (new : s.fresh tid = some .created)
    (ran : threadRun tid s = some s') : ReadyList s' (q ++ [tid]) := by
  obtain ⟨v,performed,invariant⟩ := list.invariant.run new
  obtain rfl := Option.some.inj (ran.symm.trans performed)
  obtain ⟨proper,state,-⟩ := list.invariant.new (by rw [new]; exact Option.some_ne_none _)
  obtain ⟨u,readies,rfl⟩ := list.invariant.starts new ran
  have grown := list.grow readies proper (by simp [state])
  exact ⟨invariant,grown⟩

/-! ### Sleeping and waking -/

theorem ReadyList.add (list : ReadyList s q) (working : s.cpus c = .working) (busy : s.currentThread c ≠ 0)
    (address : resource ≠ 0) (free : s.waker = none) (added : sleepqAdd c (interruptDisable status) resource s = some s') :
    ReadyList s' q := by
  obtain ⟨u,-,performed,-,invariant⟩ := list.invariant.add working busy address free status
  obtain rfl := Option.some.inj (added.symm.trans performed)
  obtain ⟨queue,queues,-⟩ := list.queues
  obtain ⟨proper,running,awake⟩ := list.invariant.current working busy
  obtain ⟨v,again,blocks⟩ := queues.add proper (fun h member => (queues.queued h _ member).2.1 awake) status resource
  obtain rfl := Option.some.inj (added.symm.trans again)
  have later := queues.block list.invariant.rows blocks proper running awake address
  exact ⟨invariant,later.chain⟩

theorem ReadyList.wake (list : ReadyList s q) (free : s.waker = none) (woken : sleepqWake c resource all s = some s') :
    ReadyList s' q := by
  obtain ⟨u,performed,-,invariant,-⟩ := list.invariant.wake free c resource all
  obtain rfl := Option.some.inj (woken.symm.trans performed)
  obtain ⟨queue,queues,-⟩ := list.queues
  rw [free] at queues
  obtain ⟨v,queue',taken,-,later,-⟩ := queues.take list.invariant.rows (show queue (sleepqHash resource) = [] ++ _ from rfl) c all
  rw [sleepqWake,(queues.chains (sleepqHash resource)).first_eq] at woken
  obtain rfl := Option.some.inj (woken.symm.trans taken)
  exact ⟨invariant,later.chain⟩

theorem ReadyList.release (list : ReadyList s q) (held : s.waker = some w) (released : releaseWaiter w.wake s = some s') :
    Chain (fun t => (s'.threadTable t).next) (-1) s'.head
      (q ++ if (s.threadTable w.wake).state = .sleeping then [w.wake] else []) := by
  obtain ⟨queue,queues,-⟩ := list.queues
  obtain ⟨proper,asleep⟩ := queues.hand w.wake (by rw [held]; rfl)
  by_cases sleeping : (s.threadTable w.wake).state = .sleeping
  · obtain ⟨u,again,readies⟩ := releaseWaiter_sleeping proper sleeping
    obtain rfl := Option.some.inj (released.symm.trans again)
    rw [if_pos sleeping]
    exact list.grow readies proper (by simp [sleeping])
  · rw [releaseWaiter_awake sleeping] at released
    cases released
    rw [if_neg sleeping,List.append_nil]
    refine list.keep rfl fun u ready => ?_
    have apart : u ≠ w.wake := by
      rintro rfl
      rcases list.invariant.rows.waits _ proper asleep with h | h <;> rw [h] at ready <;> contradiction
    simp [apart]

theorem ReadyList.wakeInner (list : ReadyList s q) (held : s.waker = some w) (finished : finishWake w s = some s') :
    ReadyList s' (q ++ if (s.threadTable w.wake).state = .sleeping then [w.wake] else []) := by
  obtain ⟨s₁,u,released,wakes,performed,-,invariant,-⟩ := list.invariant.wakeInner held
  obtain rfl := Option.some.inj (finished.symm.trans performed)
  have chain := list.release held released
  refine ⟨invariant,?_⟩
  rw [finishWake,released] at finished
  cases all : w.all with
  | false =>
    simp only [all,Option.bind_eq_bind,Option.bind_some,if_neg Bool.false_ne_true] at finished
    cases finished
    exact chain
  | true =>
    simp only [all,Option.bind_eq_bind,Option.bind_some,if_true] at finished
    obtain ⟨queue,queues,position⟩ := list.queues
    rw [held] at queues
    obtain ⟨proper,asleep⟩ := queues.hand w.wake rfl
    obtain ⟨v,ready,again,_,later⟩ := queues.release list.invariant.rows
    obtain rfl := Option.some.inj (released.symm.trans again)
    obtain rfl := later.chain.unique chain
    obtain ⟨pre,post,split,prev,first⟩ := position w held
    obtain ⟨x,queue',taken,-,last,-⟩ := later.take (wakes.rows list.invariant.rows proper asleep) split w.cpu true
    rw [← prev,← first] at taken
    obtain rfl := Option.some.inj (finished.symm.trans taken)
    exact last.chain

/-! ### Switching -/

theorem ReadyList.leave (list : ReadyList s q) (phase : s.cpus c = .working ∨ s.cpus c = .switching)
    (left : schedulerLeave (s.currentThread c) s = some s') :
    Chain (fun t => (s'.threadTable t).next) (-1) s'.head
      (q ++ if StaysReady s (s.currentThread c) then [s.currentThread c] else []) := by
  rcases list.invariant.leaves phase left with ⟨stays,proper,running,readies⟩ | ⟨gone,state,rfl⟩
  · rw [if_pos stays]
    exact list.grow readies proper (by simp [running])
  · rw [if_neg gone,List.append_nil]
    refine list.keep rfl fun t _ => ?_
    by_cases here : t = s.currentThread c <;> simp [here]

theorem ReadyList.schedule (list : ReadyList s q) (phase : s.cpus c = .working ∨ s.cpus c = .switching)
    (scheduled : schedulerSchedule c s = some s') :
    ∃ r, Foundation.run QueueEvent.apply (readyEvents (.schedule c) s) q = some r ∧ ReadyList s' r := by
  obtain ⟨u,performed,invariant⟩ := list.invariant.schedule phase
  obtain rfl := Option.some.inj (scheduled.symm.trans performed)
  obtain ⟨s₁,s₂,ready,queue,t,left,-,queues,first,selects,rfl⟩ := list.invariant.switches phase scheduled
  obtain rfl := queues.chain.unique (list.leave phase left)
  have after := (queues.select selects first).chain
  have known := queues.ready
  have storing : readyEvents (.schedule c) s =
      (if StaysReady s (s.currentThread c) then [.enter (s.currentThread c)] else []) ++
      if t = idleThreadTid then [.empty] else [.leave t] := by
    simp [readyEvents,scheduled]
  refine ⟨_,?_,invariant,after⟩
  have entered : Foundation.run QueueEvent.apply
      (if StaysReady s (s.currentThread c) then [.enter (s.currentThread c)] else []) q =
      some (q ++ if StaysReady s (s.currentThread c) then [s.currentThread c] else []) := by
    split <;> simp [QueueEvent.apply]
  rw [storing,run_append,entered,Option.bind_some]
  generalize (q ++ if StaysReady s (s.currentThread c) then [s.currentThread c] else []) = ready at first known ⊢
  cases ready with
  | nil =>
    rw [if_pos (show t = idleThreadTid from first)]
    rfl
  | cons u rest =>
    obtain rfl : t = u := first
    have low := ((known t).mp List.mem_cons_self).1.1
    rw [if_neg (show t ≠ idleThreadTid from by simp only [idleThreadTid]; omega)]
    simp [QueueEvent.apply]

/-- Every action does to the ready list what its events do to a queue. -/
theorem ReadyList.step (list : ReadyList s q) (next : step a s = some s') :
    ∃ r, Foundation.run QueueEvent.apply (readyEvents a s) q = some r ∧ ReadyList s' r := by
  unfold Kernel.step at next
  split at next
  swap
  · contradiction
  next enabled =>
  cases a with
  | create =>
    cases next
    exact ⟨q,rfl,list.create⟩
  | init tid =>
    cases next
    exact ⟨q,rfl,list.init enabled⟩
  | run tid => exact ⟨_,rfl,list.run enabled next⟩
  | add cpu status resource =>
    obtain ⟨working,busy,address,free⟩ := enabled
    exact ⟨q,rfl,list.add working busy address free next⟩
  | wake cpu resource all => exact ⟨q,rfl,list.wake enabled next⟩
  | wakeInner cpu =>
    obtain ⟨w,held,-⟩ := Option.map_eq_some_iff.mp enabled
    refine ⟨_,?_,list.wakeInner held (by simpa [perform,held] using next)⟩
    simp only [readyEvents,held,Option.elim_some]
    split <;> simp [QueueEvent.apply]
  | schedule cpu => exact list.schedule enabled next
  | store cpu =>
    refine ⟨q,rfl,step_invariant list.invariant (a := .store cpu) (by rw [Kernel.step,if_pos enabled,next]),?_⟩
    cases phase : s.cpus cpu with
    | working => exact absurd phase enabled.1
    | switching => exact absurd phase enabled.2
    | storing t =>
      simp only [perform,phase] at next
      cases next
      exact list.keep rfl fun _ _ => rfl
  | finish cpu =>
    cases next
    refine ⟨q,rfl,list.invariant.finish enabled.1 enabled.2,list.keep rfl fun t _ => ?_⟩
    by_cases same : t = s.currentThread cpu <;> simp [threadFinish,same]

theorem schedulerSchedule_storing (scheduled : schedulerSchedule c s = some s') : ∃ t, s'.cpus c = .storing t := by
  obtain ⟨s₁,-,selected⟩ := Option.bind_eq_some_iff.mp scheduled
  obtain ⟨⟨t,s₂⟩,-,last⟩ := Option.bind_eq_some_iff.mp selected
  cases last
  exact ⟨t,Function.update_self c _ _⟩

/-- Each call of `scheduler_schedule` takes a thread or finds none. -/
theorem readyEvents_takes (a : Action) (s s' : Threads) (next : Kernel.step a s = some s') :
    (readyEvents a s).countP QueueEvent.takes = if a.schedules then 1 else 0 := by
  unfold Kernel.step at next
  split at next
  swap
  · contradiction
  cases a with
  | wakeInner cpu =>
    cases held : s.waker with
    | none => simp [readyEvents,held,Action.schedules]
    | some w => by_cases sleeping : (s.threadTable w.wake).state = .sleeping <;> simp [readyEvents,held,sleeping,Action.schedules,QueueEvent.takes]
  | schedule cpu =>
    obtain ⟨t,storing⟩ := schedulerSchedule_storing next
    rw [readyEvents,show schedulerSchedule cpu s = _ from next,Option.elim_some,storing]
    by_cases idle : t = idleThreadTid <;> by_cases stays : StaysReady s (s.currentThread cpu) <;>
      simp [idle,stays,Action.schedules,QueueEvent.takes]
  | _ => rfl

end Steps

theorem run_readyList {actions : List Action} (list : ReadyList s q) (ran : Foundation.run step actions s = some s') :
    ∃ r, Foundation.run QueueEvent.apply (traceOf step readyEvents actions s) q = some r ∧ ReadyList s' r := by
  have meets : Meets step (fun _ _ => True) actions s := meets_of_forall fun _ _ => trivial
  exact run_refines (fun _ _ _ _ list _ next => list.step next) list meets ran

/-- The threads that were selected, followed by the ready list, are the threads that became ready. -/
theorem ready_fifo {actions : List Action} (ran : Foundation.run step actions initial = some s) :
    ∃ ready, Chain (fun t => (s.threadTable t).next) (-1) s.head ready ∧
      (traceOf step readyEvents actions initial).filterMap QueueEvent.entered =
        (traceOf step readyEvents actions initial).filterMap QueueEvent.left ++ ready ∧
      Foundation.run QueueEvent.apply (traceOf step readyEvents actions initial) [] = some ready := by
  obtain ⟨ready,queued,list⟩ := run_readyList initial_readyList ran
  exact ⟨ready,list.chain,QueueEvent.run_order queued,queued⟩

/-- Thread 1 is selected, put back and selected by another CPU. -/
theorem ready_fifo_window : ∃ s ready, Foundation.run step windowRun initial = some s ∧
    (traceOf step readyEvents windowRun initial).filterMap QueueEvent.entered =
      (traceOf step readyEvents windowRun initial).filterMap QueueEvent.left ++ ready := by
  have reached : (Foundation.run step windowRun initial).isSome = true := by decide +kernel
  obtain ⟨s,ran⟩ := Option.isSome_iff_exists.mp reached
  obtain ⟨ready,-,order,-⟩ := ready_fifo ran
  exact ⟨s,ready,ran,order⟩

/-- No thread starves: a ready thread is selected by one of the next calls of
`scheduler_schedule`, as many as there are rows in the thread table. -/
theorem ready_selected {past later : List Action} (ran : Foundation.run step past initial = some s)
    (goes : Foundation.run step later s = some s') (proper : t ≠ idleThreadTid ∧ 0 ≤ t ∧ t < configMaxThreads)
    (ready : (s.threadTable t).state = .ready) (many : configMaxThreads ≤ later.countP Action.schedules) :
    QueueEvent.leave t ∈ traceOf step readyEvents later s := by
  obtain ⟨q,-,list⟩ := run_readyList initial_readyList ran
  obtain ⟨r,queued,-⟩ := run_readyList list goes
  have inside : Proper t := ⟨lt_of_le_of_ne proper.2.1 (Ne.symm proper.1),proper.2.2⟩
  obtain ⟨pre,post,rfl⟩ := List.append_of_mem (list.ready.mpr ⟨inside,ready⟩)
  have short := length_proper list.chain.nodup fun u member => (list.ready.mp member).1
  have takes := countP_le_traceOf (fun a s s' next => (readyEvents_takes a s s' next).ge) goes
  refine QueueEvent.run_leaves queued (Nat.lt_of_lt_of_le ?_ takes)
  simp only [List.length_append,List.length_cons,walkLimit] at short
  simp only [configMaxThreads] at many
  omega

/-! ### Timer interrupts -/

/-- The scheduler is called `n` times on one CPU, and nothing else happens. -/
def turns (c : Cpu) : Nat → List Action
  | 0 => []
  | n + 1 => .schedule c :: .store c :: turns c n

theorem turns_schedules (c : Cpu) (n : Nat) : (turns c n).countP Action.schedules = n := by
  induction n with
  | zero => rfl
  | succ n ih => simp [turns,List.countP_cons,ih,Action.schedules]

theorem turns_go (invariant : Invariant s) (working : s.cpus c = .working) (n : Nat) :
    ∃ s', Foundation.run step (turns c n) s = some s' := by
  induction n generalizing s with
  | zero => exact ⟨s,rfl⟩
  | succ n ih =>
    obtain ⟨u,scheduled,between⟩ := invariant.schedule (.inl working)
    obtain ⟨t,storing⟩ := schedulerSchedule_storing scheduled
    have first : step (.schedule c) s = some u := by rw [step,if_pos (.inl working)]; exact scheduled
    have second : step (.store c) u = some (storeCurrentThread c t u) := by
      rw [step,if_pos (show Enabled u (.store c) by simp [Enabled,storing])]
      simp [perform,storing]
    obtain ⟨s',later⟩ := ih (between.store storing) (by simp [storeCurrentThread])
    refine ⟨s',?_⟩
    simpa [turns,first,second] using later

/-- Two new threads, of which the second waits behind the first. -/
theorem ready_selected_sample :
    ∃ s s', Foundation.run step [.create, .init 1, .run 1, .create, .init 2, .run 2] initial = some s ∧
    Foundation.run step (turns 0 32) s = some s' ∧ QueueEvent.leave 2 ∈ traceOf step readyEvents (turns 0 32) s := by
  have reached : ((Foundation.run step [.create, .init 1, .run 1, .create, .init 2, .run 2] initial).any fun (s : Threads) =>
      decide ((s.threadTable 2).state = .ready ∧ s.cpus 0 = .working)) = true := by decide +kernel
  obtain ⟨s,ran,facts⟩ := (Option.any_eq_true _ _).mp reached
  obtain ⟨ready,working⟩ := of_decide_eq_true facts
  obtain ⟨s',goes⟩ := turns_go (run_threads ran) working 32
  exact ⟨s,s',ran,goes,ready_selected ran goes (by decide) ready (by rw [turns_schedules]; decide)⟩

end Buenos.Kernel
