import Buenos.Kernel.RoundRobin

/-! The sleep queue as one queue for each resource: in every order of sleeping, waking and
switching, on all CPUs, the threads that wait for a resource are taken in the order in which
they went to sleep on it, however many resources share a chain. -/
namespace Buenos.Kernel

open Buenos.Foundation

def found (t : Threads) : List (QueueEvent Int) := [t.waker.elim .empty fun w => .leave w.wake]

/-- What an action does to the threads that wait for `resource`. -/
def sleepEvents (resource : UInt32) : Action → Threads → List (QueueEvent Int)
  | .add cpu _ r, s => if r = resource then [.enter (s.currentThread cpu)] else []
  | .wake cpu r all, s => if r = resource then (sleepqWake cpu r all s).elim [] found else []
  | .wakeInner _, s => s.waker.elim [] fun w =>
    if w.all ∧ w.resource = resource then (finishWake w s).elim [] found else []
  | _, _ => []

/-- Whether an action is a call of `sleepq_wake` or `sleepq_wake_all` for `resource`. -/
def Action.wakes (resource : UInt32) : Action → Bool
  | .wake _ r _ => r = resource
  | _ => false

def sleepers (s : Threads) (resource : UInt32) (row : List Int) : List Int :=
  row.filter fun t => (s.threadTable t).sleepsOn = resource

/-- `q` are the threads of the chain that wait for `resource`; a search for them has passed none. -/
structure WaitList (resource : UInt32) (s : Threads) (q : List Int) : Prop where
  invariant : Invariant s
  chain : ∃ row, Chain (fun t => (s.threadTable t).next) (-1) (s.hashtable (sleepqHash resource)) row ∧
    q = sleepers s resource row ∧
    ∀ w, s.waker = some w → w.resource = resource → ∃ pre post, row = pre ++ post ∧
      w.prev = pre.getLastD (-1) ∧ w.first = post.headD (-1) ∧ ∀ t ∈ pre, (s.threadTable t).sleepsOn ≠ resource

theorem initial_waitList (resource : UInt32) : WaitList resource initial [] :=
  ⟨initial_invariant,[],rfl,rfl,by simp [initial]⟩

section Steps
variable {s s' : Threads} {q : List Int} {resource r : UInt32}

theorem sleepers_congr {row : List Int} (same : ∀ t ∈ row, (s'.threadTable t).sleepsOn = (s.threadTable t).sleepsOn) :
    sleepers s' resource row = sleepers s resource row := by
  apply List.filter_congr
  intro t member
  rw [same t member]

theorem sleepers_append (s : Threads) (resource : UInt32) (first second : List Int) :
    sleepers s resource (first ++ second) = sleepers s resource first ++ sleepers s resource second :=
  List.filter_append _ _

theorem sleepers_none {row : List Int} (none_ : ∀ t ∈ row, (s.threadTable t).sleepsOn ≠ resource) :
    sleepers s resource row = [] := by
  apply List.filter_eq_nil_iff.mpr
  simpa using none_

theorem WaitList.queues (list : WaitList resource s q) : ∃ ready queue,
    Queues s (s.waker.map Waker.wake) ready queue ∧ (∀ w, s.waker = some w → Position w queue) ∧
    q = sleepers s resource (queue (sleepqHash resource)) ∧
    ∀ w, s.waker = some w → w.resource = resource → ∃ pre post, queue (sleepqHash resource) = pre ++ post ∧
      w.prev = pre.getLastD (-1) ∧ w.first = post.headD (-1) ∧ ∀ t ∈ pre, (s.threadTable t).sleepsOn ≠ resource := by
  obtain ⟨ready,queue,queues,position⟩ := list.invariant.lists
  obtain ⟨row,chain,waits,passed⟩ := list.chain
  obtain rfl := (queues.chains (sleepqHash resource)).unique chain
  exact ⟨ready,queue,queues,position,waits,passed⟩

theorem WaitList.keep (list : WaitList resource s q) (invariant : Invariant s') (table : s'.hashtable = s.hashtable)
    (waker : s'.waker = s.waker)
    (rows : ∀ t, Proper t → (s.threadTable t).sleepsOn ≠ 0 → (s.threadTable t).state ≠ .ready →
      (s'.threadTable t).sleepsOn = (s.threadTable t).sleepsOn ∧ (s'.threadTable t).next = (s.threadTable t).next) :
    WaitList resource s' q := by
  obtain ⟨ready,queue,queues,-,waits,passed⟩ := list.queues
  have same : ∀ t ∈ queue (sleepqHash resource), (s'.threadTable t).sleepsOn = (s.threadTable t).sleepsOn ∧
      (s'.threadTable t).next = (s.threadTable t).next := by
    intro t member
    obtain ⟨proper,asleep,-⟩ := queues.queued _ t member
    refine rows t proper asleep fun state => ?_
    exact queues.apart list.invariant.rows _ ((queues.ready t).mpr ⟨proper,state⟩) member
  refine ⟨invariant,queue (sleepqHash resource),?_,?_,fun w held mine => ?_⟩
  · rw [table]
    exact (queues.chains _).congr fun t member => (same t member).2
  · rw [waits,sleepers_congr fun t member => (same t member).1]
  · obtain ⟨pre,post,split,prev,first,none_⟩ := passed w (waker ▸ held) mine
    refine ⟨pre,post,split,prev,first,fun t member => ?_⟩
    rw [(same t (split ▸ List.mem_append_left _ member)).1]
    exact none_ t member

/-! ### Creation and switching -/

theorem WaitList.create (list : WaitList resource s q) : WaitList resource (threadCreate s) q := by
  have later := list.invariant.create
  unfold threadCreate at later ⊢
  split at later
  · exact list
  · next tid _ =>
    refine list.keep later rfl rfl fun u _ _ _ => ?_
    by_cases same : u = tid <;> simp [same]

theorem WaitList.init (list : WaitList resource s q) (new : s.fresh tid = some .allocated) :
    WaitList resource (threadInit tid s) q := by
  obtain ⟨-,-,awake⟩ := list.invariant.new (by rw [new]; exact Option.some_ne_none _)
  refine list.keep (list.invariant.init new) rfl rfl fun u _ asleep _ => ?_
  have apart : u ≠ tid := by
    rintro rfl
    exact asleep awake
  simp [threadInit,apart]

theorem WaitList.readies (list : WaitList resource s q) (readies : Readies t s s') (awake : (s.threadTable t).sleepsOn = 0)
    (u : Int) (asleep : (s.threadTable u).sleepsOn ≠ 0) (unready : (s.threadTable u).state ≠ .ready) :
    (s'.threadTable u).sleepsOn = (s.threadTable u).sleepsOn ∧ (s'.threadTable u).next = (s.threadTable u).next := by
  obtain ⟨ready,queue,queues,-⟩ := list.queues
  have apart : u ≠ t := by
    rintro rfl
    exact asleep awake
  exact ⟨(readies.others u apart).2,readies.outside queues.tail apart fun member => unready ((queues.ready u).mp member).2⟩

theorem WaitList.run (list : WaitList resource s q) (new : s.fresh tid = some .created)
    (ran : threadRun tid s = some s') : WaitList resource s' q := by
  obtain ⟨v,performed,invariant⟩ := list.invariant.run new
  obtain rfl := Option.some.inj (ran.symm.trans performed)
  obtain ⟨-,-,awake⟩ := list.invariant.new (by rw [new]; exact Option.some_ne_none _)
  obtain ⟨u,readies,rfl⟩ := list.invariant.starts new ran
  have kept := list.readies readies awake
  exact list.keep invariant readies.hashtable readies.rest.2.2.1 fun u _ => kept u

theorem WaitList.leave (list : WaitList resource s q) (phase : s.cpus c = .working ∨ s.cpus c = .switching)
    (left : schedulerLeave (s.currentThread c) s = some s') : s'.hashtable = s.hashtable ∧
    ∀ u, (s.threadTable u).sleepsOn ≠ 0 → (s.threadTable u).state ≠ .ready →
      (s'.threadTable u).sleepsOn = (s.threadTable u).sleepsOn ∧ (s'.threadTable u).next = (s.threadTable u).next := by
  rcases list.invariant.leaves phase left with ⟨stays,-,-,readies⟩ | ⟨-,state,rfl⟩
  · exact ⟨readies.hashtable,list.readies readies stays.2.1⟩
  · refine ⟨rfl,fun u _ _ => ?_⟩
    by_cases here : u = s.currentThread c <;> simp [here]

theorem WaitList.schedule (list : WaitList resource s q) (phase : s.cpus c = .working ∨ s.cpus c = .switching)
    (scheduled : schedulerSchedule c s = some s') : WaitList resource s' q := by
  obtain ⟨u,performed,invariant⟩ := list.invariant.schedule phase
  obtain rfl := Option.some.inj (scheduled.symm.trans performed)
  obtain ⟨s₁,s₂,ready,queue,t,left,between,-,-,selects,rfl⟩ := list.invariant.switches phase scheduled
  obtain ⟨table,kept⟩ := list.leave phase left
  refine list.keep invariant (selects.hashtable.trans table) (selects.rest.2.1.trans between.same.2.2) fun u _ asleep unready => ?_
  obtain ⟨sleeps,next⟩ := kept u asleep unready
  exact ⟨(selects.sleeps u).trans sleeps,(selects.next u).trans next⟩

/-! ### Sleeping -/

theorem WaitList.add (list : WaitList resource s q) (working : s.cpus c = .working) (busy : s.currentThread c ≠ 0)
    (address : r ≠ 0) (free : s.waker = none) (added : sleepqAdd c (interruptDisable status) r s = some s') :
    WaitList resource s' (q ++ if r = resource then [s.currentThread c] else []) := by
  obtain ⟨u,-,performed,-,invariant⟩ := list.invariant.add working busy address free status
  obtain rfl := Option.some.inj (added.symm.trans performed)
  obtain ⟨ready,queue,queues,-,waits,-⟩ := list.queues
  obtain ⟨proper,running,awake⟩ := list.invariant.current working busy
  have unqueued : ∀ h, s.currentThread c ∉ queue h := fun h member => (queues.queued h _ member).2.1 awake
  obtain ⟨v,again,blocks⟩ := queues.add proper unqueued status r
  obtain rfl := Option.some.inj (added.symm.trans again)
  have later := queues.block list.invariant.rows blocks proper running awake address
  have waker : s'.waker = none := blocks.rest.2.2.2.1.trans free
  have old : sleepers s' resource (queue (sleepqHash resource)) = q := by
    rw [waits]
    refine sleepers_congr fun t member => ?_
    rw [blocks.sleeps,if_neg]
    rintro rfl
    exact unqueued _ member
  have mine : (s'.threadTable (s.currentThread c)).sleepsOn = r := by simp [blocks.sleeps]
  refine ⟨invariant,_,later.chains _,?_,by simp [waker]⟩
  by_cases same : r = resource
  · subst same
    rw [if_pos rfl,Function.update_self,sleepers_append,old]
    simp [sleepers,mine]
  · rw [if_neg same,List.append_nil]
    by_cases shared : sleepqHash resource = sleepqHash r
    · rw [shared,Function.update_self,sleepers_append,← shared,old]
      simp [sleepers,mine,same]
    · rw [Function.update_of_ne shared,old]

/-! ### Waking -/

theorem Queues.takes {ready pre post : List Int} {queue : UInt32 → List Int} (queues : Queues s none ready queue) (rows : Rows s)
    (split : queue (sleepqHash r) = pre ++ post) (passed : r = resource → ∀ t ∈ pre, (s.threadTable t).sleepsOn ≠ r)
    (c : Cpu) (all : Bool) : ∃ s' row, takeWaiter c r all (pre.getLastD (-1)) (post.headD (-1)) s = some s' ∧
      Chain (fun t => (s'.threadTable t).next) (-1) (s'.hashtable (sleepqHash resource)) row ∧
      Foundation.run QueueEvent.apply (if r = resource then found s' else []) (sleepers s resource (queue (sleepqHash resource))) =
        some (sleepers s' resource row) ∧
      ∀ w, s'.waker = some w → w.resource = r ∧ (r = resource → ∃ pre post, row = pre ++ post ∧
        w.prev = pre.getLastD (-1) ∧ w.first = post.headD (-1) ∧ ∀ t ∈ pre, (s'.threadTable t).sleepsOn ≠ resource) := by
  have chain := queues.chains (sleepqHash r)
  rw [split] at chain
  have inside : ∀ u ∈ pre ++ post, Proper u := fun u member => (queues.queued _ u (split ▸ member)).1
  rcases takeWaiter_spec chain inside c all with ⟨none_,result⟩ | ⟨skipped,t,rest,s',rfl,skips,mine,result,unlinks,held⟩
  · refine ⟨_,_,result,queues.chains _,?_,by simp⟩
    have same : sleepers { s with waker := none } resource (queue (sleepqHash resource)) =
      sleepers s resource (queue (sleepqHash resource)) := rfl
    rw [same]
    split
    · next here =>
      subst here
      have nobody : sleepers s r (queue (sleepqHash r)) = [] := by
        refine sleepers_none fun t member => ?_
        rcases List.mem_append.mp (split ▸ member) with early | late
        · exact passed rfl t early
        · exact none_ t late
      rw [nobody]
      rfl
    · rfl
  · rw [← List.append_assoc] at split
    have later := queues.unlink rows split unlinks
    have sleeps : ∀ row, sleepers s' resource row = sleepers s resource row :=
      fun row => sleepers_congr fun t _ => unlinks.sleeps t
    have before : r = resource → ∀ u ∈ pre ++ skipped, (s.threadTable u).sleepsOn ≠ r := by
      intro here u member
      rcases List.mem_append.mp member with early | late
      · exact passed here u early
      · exact skips u late
    refine ⟨s',_,result,later.chains _,?_,?_⟩
    · rw [sleeps]
      by_cases here : r = resource
      · subst here
        rw [if_pos rfl,Function.update_self,split]
        have front : sleepers s r (pre ++ skipped ++ t :: rest) = t :: sleepers s r rest := by
          rw [sleepers_append,sleepers_none (before rfl),List.nil_append]
          exact List.filter_cons_of_pos (by simpa using mine)
        have behind : sleepers s r (pre ++ skipped ++ rest) = sleepers s r rest := by
          rw [sleepers_append,sleepers_none (before rfl),List.nil_append]
        rw [front,behind,found,held]
        simp [QueueEvent.apply]
      · rw [if_neg here]
        by_cases shared : sleepqHash resource = sleepqHash r
        · have other : ¬(s.threadTable t).sleepsOn = resource := fun same => here (mine.symm.trans same)
          have behind : sleepers s resource (t :: rest) = sleepers s resource rest :=
            List.filter_cons_of_neg (by simpa using other)
          rw [shared,Function.update_self,split,Foundation.run_nil,sleepers_append _ _ _ (t :: rest),behind,
            sleepers_append _ _ _ rest]
        · rw [Function.update_of_ne shared]
          rfl
    · intro w there
      obtain rfl := Option.some.inj (held.symm.trans there)
      refine ⟨rfl,?_⟩
      rintro rfl
      refine ⟨pre ++ skipped,rest,Function.update_self _ _ _,rfl,rfl,fun u member => ?_⟩
      rw [unlinks.sleeps]
      exact before rfl u member

theorem WaitList.wake (list : WaitList resource s q) (free : s.waker = none) (woken : sleepqWake c r all s = some s') :
    ∃ q', Foundation.run QueueEvent.apply (if r = resource then found s' else []) q = some q' ∧ WaitList resource s' q' := by
  obtain ⟨u,performed,-,invariant,-⟩ := list.invariant.wake free c r all
  obtain rfl := Option.some.inj (woken.symm.trans performed)
  obtain ⟨ready,queue,queues,-,waits,-⟩ := list.queues
  rw [free] at queues
  obtain ⟨v,row,taken,chain,queued,search⟩ :=
    queues.takes list.invariant.rows (show queue (sleepqHash r) = [] ++ _ from rfl) (by simp) c all
  rw [sleepqWake,(queues.chains (sleepqHash r)).first_eq] at woken
  obtain rfl := Option.some.inj (woken.symm.trans taken)
  rw [waits]
  exact ⟨_,queued,invariant,row,chain,rfl,fun w held mine => (search w held).2 ((search w held).1.symm.trans mine)⟩

theorem WaitList.wakeInner (list : WaitList resource s q) (held : s.waker = some w) (finished : finishWake w s = some s') :
    ∃ q', Foundation.run QueueEvent.apply (if w.all ∧ w.resource = resource then found s' else []) q = some q' ∧
      WaitList resource s' q' := by
  obtain ⟨s₁,u,released,wakes,performed,-,invariant,-⟩ := list.invariant.wakeInner held
  obtain rfl := Option.some.inj (finished.symm.trans performed)
  obtain ⟨ready,queue,queues,position,waits,passed⟩ := list.queues
  rw [held] at queues
  obtain ⟨proper,asleep⟩ := queues.hand w.wake rfl
  obtain ⟨v,ready',again,-,later⟩ := queues.release list.invariant.rows
  obtain rfl := Option.some.inj (released.symm.trans again)
  have others : ∀ h, ∀ t ∈ queue h, (s₁.threadTable t).sleepsOn = (s.threadTable t).sleepsOn := by
    intro h t member
    have apart := (queues.queued h t member).2.2.2
    rw [wakes.sleeps,if_neg]
    rintro rfl
    exact apart rfl
  have same : sleepers s₁ resource (queue (sleepqHash resource)) = q := by
    rw [waits,sleepers_congr (others _)]
  rw [finishWake,released] at finished
  cases all : w.all with
  | false =>
    simp only [all,Option.bind_eq_bind,Option.bind_some,if_neg Bool.false_ne_true] at finished
    cases finished
    refine ⟨q,by simp,invariant,_,later.chains _,same.symm,by simp⟩
  | true =>
    simp only [all,Option.bind_eq_bind,Option.bind_some,if_true] at finished
    have search : ∃ pre post, queue (sleepqHash w.resource) = pre ++ post ∧ w.prev = pre.getLastD (-1) ∧
        w.first = post.headD (-1) ∧ (w.resource = resource → ∀ t ∈ pre, (s₁.threadTable t).sleepsOn ≠ w.resource) := by
      by_cases mine : w.resource = resource
      · obtain ⟨pre,post,split,prev,first,none_⟩ := passed w held mine
        rw [← mine] at split none_
        refine ⟨pre,post,split,prev,first,fun _ t member => ?_⟩
        rw [others _ t (split ▸ List.mem_append_left _ member)]
        exact none_ t member
      · obtain ⟨pre,post,split,prev,first⟩ := position w held
        exact ⟨pre,post,split,prev,first,fun same => absurd same mine⟩
    obtain ⟨pre,post,split,prev,first,none_⟩ := search
    obtain ⟨x,row,taken,chain,queued,after⟩ :=
      later.takes (wakes.rows list.invariant.rows proper asleep) split none_ w.cpu true
    rw [← prev,← first] at taken
    obtain rfl := Option.some.inj (finished.symm.trans taken)
    rw [same] at queued
    refine ⟨_,by simpa using queued,invariant,row,chain,rfl,fun v there mine => ?_⟩
    exact (after v there).2 ((after v there).1.symm.trans mine)

/-- Every action does to the threads that wait for a resource what its events do to a queue. -/
theorem WaitList.step (list : WaitList resource s q) (next : step a s = some s') :
    ∃ q', Foundation.run QueueEvent.apply (sleepEvents resource a s) q = some q' ∧ WaitList resource s' q' := by
  have invariant := step_invariant list.invariant next
  unfold Kernel.step at next
  split at next
  swap
  · contradiction
  next enabled =>
  cases a with
  | create =>
    cases next
    exact ⟨q,rfl,list.create⟩
  | init tid =>
    cases next
    exact ⟨q,rfl,list.init enabled⟩
  | run tid => exact ⟨q,rfl,list.run enabled next⟩
  | add cpu status r =>
    obtain ⟨working,busy,address,free⟩ := enabled
    refine ⟨_,?_,list.add working busy address free next⟩
    rw [sleepEvents]
    split <;> simp [QueueEvent.apply]
  | wake cpu r all =>
    have result : sleepqWake cpu r all s = some s' := next
    rw [sleepEvents,result]
    exact list.wake enabled next
  | wakeInner cpu =>
    obtain ⟨w,held,-⟩ := Option.map_eq_some_iff.mp enabled
    have finished : finishWake w s = some s' := by simpa [perform,held] using next
    rw [sleepEvents,held,Option.elim_some,finished]
    exact list.wakeInner held finished
  | schedule cpu => exact ⟨q,rfl,list.schedule enabled next⟩
  | store cpu =>
    refine ⟨q,rfl,?_⟩
    cases phase : s.cpus cpu with
    | working => exact absurd phase enabled.1
    | switching => exact absurd phase enabled.2
    | storing t =>
      simp only [perform,phase] at next
      cases next
      exact list.keep invariant rfl rfl fun _ _ _ _ => ⟨rfl,rfl⟩
  | finish cpu =>
    cases next
    refine ⟨q,rfl,list.keep invariant rfl rfl fun t _ _ _ => ?_⟩
    by_cases same : t = s.currentThread cpu <;> simp [threadFinish,same]

theorem WaitList.position (list : WaitList resource s q) (inside : 0 ≤ t ∧ t < configMaxThreads)
    (waits : (s.threadTable t).sleepsOn = resource) (address : resource ≠ 0) (free : s.waker.map Waker.wake ≠ some t) :
    ∃ pre post, q = pre ++ t :: post ∧ pre.length < 32 := by
  obtain ⟨ready,queue,queues,-,listed,-⟩ := list.queues
  have asleep : (s.threadTable t).sleepsOn ≠ 0 := by rwa [waits]
  have other : t ≠ 0 := by
    rintro rfl
    exact asleep list.invariant.rows.idle.1
  have proper : Proper t := ⟨lt_of_le_of_ne inside.1 (Ne.symm other),inside.2⟩
  have member : t ∈ q := by
    rw [listed]
    refine List.mem_filter.mpr ⟨?_,by simp [waits]⟩
    rw [← waits]
    exact queues.waiting t proper asleep free
  have short : q.length < walkLimit := by
    rw [listed]
    refine Nat.lt_of_le_of_lt (List.length_filter_le _ _) (length_proper (queues.chains _).nodup fun u member => ?_)
    exact (queues.queued _ u member).1
  obtain ⟨pre,post,rfl⟩ := List.append_of_mem member
  refine ⟨pre,post,rfl,?_⟩
  simp only [List.length_append,List.length_cons,walkLimit] at short
  omega

/-- Each call of `sleepq_wake` takes a thread or finds none. -/
theorem sleepEvents_takes (resource : UInt32) (a : Action) (s s' : Threads) (next : Kernel.step a s = some s') :
    (if a.wakes resource then 1 else 0) ≤ (sleepEvents resource a s).countP QueueEvent.takes := by
  cases a with
  | wake cpu r all =>
    unfold Kernel.step at next
    split at next
    swap
    · contradiction
    have result : sleepqWake cpu r all s = some s' := next
    by_cases mine : r = resource
    · rw [sleepEvents,if_pos mine,result,Option.elim_some,found]
      cases s'.waker <;> simp [Action.wakes,mine,QueueEvent.takes]
    · simp [Action.wakes,mine]
  | _ => exact Nat.zero_le _

end Steps

theorem run_waitList {actions : List Action} (list : WaitList resource s q) (ran : Foundation.run step actions s = some s') :
    ∃ q', Foundation.run QueueEvent.apply (traceOf step (sleepEvents resource) actions s) q = some q' ∧ WaitList resource s' q' := by
  have meets : Meets step (fun _ _ => True) actions s := meets_of_forall fun _ _ => trivial
  exact run_refines (fun _ _ _ _ list _ next => list.step next) list meets ran

/-- The threads that were taken for a resource, followed by those of its chain that still wait,
are the threads that went to sleep on it. -/
theorem sleepers_fifo {actions : List Action} (ran : Foundation.run step actions initial = some s) (resource : UInt32) :
    ∃ row, Chain (fun t => (s.threadTable t).next) (-1) (s.hashtable (sleepqHash resource)) row ∧
      (traceOf step (sleepEvents resource) actions initial).filterMap QueueEvent.entered =
        (traceOf step (sleepEvents resource) actions initial).filterMap QueueEvent.left ++ sleepers s resource row ∧
      Foundation.run QueueEvent.apply (traceOf step (sleepEvents resource) actions initial) [] = some (sleepers s resource row) := by
  obtain ⟨q,queued,list⟩ := run_waitList (initial_waitList resource) ran
  obtain ⟨row,chain,rfl,-⟩ := list.chain
  exact ⟨row,chain,QueueEvent.run_order queued,queued⟩

def sleepRun : List Action :=
  [.create, .init 1, .run 1, .schedule 0, .store 0, .add 0 0xff01 0x1000, .schedule 0, .store 0]

theorem sleepers_fifo_sleep : ∃ s row, Foundation.run step sleepRun initial = some s ∧
    (traceOf step (sleepEvents 0x1000) sleepRun initial).filterMap QueueEvent.entered =
      (traceOf step (sleepEvents 0x1000) sleepRun initial).filterMap QueueEvent.left ++ sleepers s 0x1000 row := by
  have reached : (Foundation.run step sleepRun initial).isSome = true := by decide +kernel
  obtain ⟨s,ran⟩ := Option.isSome_iff_exists.mp reached
  obtain ⟨row,-,order,-⟩ := sleepers_fifo ran 0x1000
  exact ⟨s,row,ran,order⟩

/-- A thread that waits for a resource is taken by one of the next wake-ups for it, as many as
there are rows in the thread table. -/
theorem sleeper_taken {past later : List Action} (ran : Foundation.run step past initial = some s)
    (goes : Foundation.run step later s = some s') (inside : 0 ≤ t ∧ t < configMaxThreads)
    (asleep : (s.threadTable t).sleepsOn ≠ 0) (free : s.waker.map Waker.wake ≠ some t)
    (many : configMaxThreads ≤ later.countP (Action.wakes (s.threadTable t).sleepsOn)) :
    QueueEvent.leave t ∈ traceOf step (sleepEvents (s.threadTable t).sleepsOn) later s := by
  obtain ⟨q,-,list⟩ := run_waitList (initial_waitList (s.threadTable t).sleepsOn) ran
  obtain ⟨r,queued,-⟩ := run_waitList list goes
  obtain ⟨pre,post,rfl,short⟩ := list.position inside rfl asleep free
  have takes := countP_le_traceOf (sleepEvents_takes (s.threadTable t).sleepsOn) goes
  refine QueueEvent.run_leaves queued (Nat.lt_of_lt_of_le ?_ takes)
  simp only [configMaxThreads] at many
  omega

def wakeRun : List Action := .wake 1 0x1000 false :: .wakeInner 1 :: List.replicate 31 (.wake 1 0x1000 false)

theorem sleeper_taken_sleep : ∃ s s', Foundation.run step sleepRun initial = some s ∧ Foundation.run step wakeRun s = some s' ∧
    QueueEvent.leave 1 ∈ traceOf step (sleepEvents (s.threadTable 1).sleepsOn) wakeRun s := by
  have reached : ((Foundation.run step sleepRun initial).any fun (s : Threads) =>
      decide ((s.threadTable 1).sleepsOn = 0x1000 ∧ s.waker.map Waker.wake ≠ some 1) &&
      (Foundation.run step wakeRun s).isSome) = true := by decide +kernel
  obtain ⟨s,ran,facts⟩ := (Option.any_eq_true _ _).mp reached
  obtain ⟨known,possible⟩ := Bool.and_eq_true_iff.mp facts
  obtain ⟨sleeps,free⟩ := of_decide_eq_true known
  obtain ⟨s',goes⟩ := Option.isSome_iff_exists.mp possible
  refine ⟨s,s',ran,goes,sleeper_taken ran goes (by decide) ?_ free ?_⟩
  · rw [sleeps]
    decide
  · rw [sleeps]
    decide

end Buenos.Kernel
