import Buenos.Kernel.ThreadInvariant

/-! The steps of `kernel/thread.c`, `kernel/scheduler.c` and `kernel/sleepq.c` keep the
invariant of the thread queues, and no assertion fails. -/
namespace Buenos.Kernel

open Buenos.Foundation

section Steps
variable {s s' : Threads}

/-! ### Rows and CPUs -/

theorem Rows.frame (rows : Rows s) (state : ∀ t, (s'.threadTable t).state = (s.threadTable t).state)
    (sleeps : ∀ t, (s'.threadTable t).sleepsOn = (s.threadTable t).sleepsOn) (fresh : s'.fresh = s.fresh) :
    Rows s' := by
  constructor
  · simpa only [state,sleeps] using rows.idle
  · simpa only [state,sleeps] using rows.waits
  · simpa only [state,sleeps] using rows.sleeping
  · simpa only [state,fresh] using rows.fresh

theorem Rows.change (rows : Rows s) (proper : Proper t)
    (others : ∀ u, u ≠ t → (s'.threadTable u).state = (s.threadTable u).state ∧
      (s'.threadTable u).sleepsOn = (s.threadTable u).sleepsOn)
    (waits : (s'.threadTable t).sleepsOn ≠ 0 →
      (s'.threadTable t).state = .running ∨ (s'.threadTable t).state = .sleeping)
    (sleeping : (s'.threadTable t).state = .sleeping → (s'.threadTable t).sleepsOn ≠ 0)
    (fresh : ∀ u, s'.fresh u ≠ none → if u = t then (s'.threadTable t).state = .nonready else s.fresh u ≠ none) :
    Rows s' := by
  have low := proper.1
  constructor
  · rw [(others 0 (by omega)).1,(others 0 (by omega)).2]
    exact rows.idle
  · intro u inside asleep
    by_cases same : u = t
    · subst same; exact waits asleep
    · rw [(others u same).1]
      rw [(others u same).2] at asleep
      exact rows.waits u inside asleep
  · intro u inside asleep
    by_cases same : u = t
    · subst same; exact sleeping asleep
    · rw [(others u same).1] at asleep
      rw [(others u same).2]
      exact rows.sleeping u inside asleep
  · intro u new
    have facts := fresh u new
    by_cases same : u = t
    · subst same; exact ⟨proper,by simpa using facts⟩
    · rw [(others u same).1]
      exact rows.fresh u (by simpa [same] using facts)

theorem Rows.awake (rows : Rows s) (proper : Proper t) (running : (s.threadTable t).state ≠ .running)
    (sleeping : (s.threadTable t).state ≠ .sleeping) : (s.threadTable t).sleepsOn = 0 := by
  by_contra asleep
  rcases rows.waits t proper asleep with h | h
  · exact running h
  · exact sleeping h

theorem Cpus.frame (cpus : Cpus s gone) (on : ∀ c, some c ≠ gone → onCpu s' c = onCpu s c)
    (switching : ∀ c, some c ≠ gone → s'.cpus c ≠ .switching → s.cpus c ≠ .switching)
    (rows : ∀ c, some c ≠ gone → onCpu s c ≠ 0 →
      (s'.threadTable (onCpu s c)).state = (s.threadTable (onCpu s c)).state ∧
      ((s.threadTable (onCpu s c)).sleepsOn = 0 → (s'.threadTable (onCpu s c)).sleepsOn = 0)) :
    Cpus s' gone := by
  constructor
  · intro c here
    rw [on c here]
    intro busy
    rw [(rows c here busy).1]
    exact cpus.on c here busy
  · intro c d here there
    rw [on c here,on d there]
    exact cpus.apart c d here there
  · intro c here
    rw [on c here]
    intro busy calm
    obtain ⟨running,awake⟩ := cpus.awake c here busy (switching c here calm)
    exact ⟨(rows c here busy).1.trans running,(rows c here busy).2 awake⟩

theorem Cpus.absent (cpus : Cpus s gone) (running : (s.threadTable t).state ≠ .running)
    (dying : (s.threadTable t).state ≠ .dying) (here : some c ≠ gone) (busy : onCpu s c ≠ 0) :
    onCpu s c ≠ t := by
  rintro rfl
  rcases (cpus.on c here busy).2 with h | h
  · exact running h
  · exact dying h

theorem onCpu_working (phase : s.cpus c = .working ∨ s.cpus c = .switching) :
    onCpu s c = s.currentThread c := by
  rcases phase with h | h <;> simp [onCpu,h]

/-! ### Creation -/

theorem searchOrder_inside (member : t ∈ searchOrder n) : 0 ≤ t ∧ t < configMaxThreads := by
  obtain ⟨i,-,rfl⟩ := List.mem_map.mp member
  simp only [configMaxThreads]
  omega

theorem Invariant.create (invariant : Invariant s) : Invariant (threadCreate s) := by
  unfold threadCreate
  split
  · exact invariant
  next tid found =>
  obtain ⟨rows,cpus,ready,queue,queues,position⟩ := invariant
  have facts : tid ≠ idleThreadTid ∧ (s.threadTable tid).state = .free := by
    simpa using List.find?_some found
  obtain ⟨apart,free⟩ := facts
  have inside := searchOrder_inside (List.mem_of_find?_eq_some found)
  have proper : Proper tid := ⟨lt_of_le_of_ne inside.1 (Ne.symm apart),inside.2⟩
  have awake := rows.awake proper (by simp [free]) (by simp [free])
  refine ⟨?_,?_,ready,queue,?_,position⟩
  · refine rows.change proper ?_ ?_ ?_ ?_
    · intro u other; simp [other]
    · simp [awake]
    · simp
    · intro u new
      by_cases same : u = tid
      · simp [same]
      · simpa [same] using new
  · refine cpus.frame (fun _ _ => rfl) (fun _ _ h => h) fun c here busy => ?_
    have other := cpus.absent (by simp [free]) (by simp [free]) here busy (t := tid)
    simp [other]
  · refine queues.keep ?_ ?_ ?_ rfl rfl rfl
    · intro u _; by_cases same : u = tid <;> simp [same]
    · intro u _; by_cases same : u = tid <;> simp [same,free]
    · intro u _; by_cases same : u = tid <;> simp [same]

theorem Invariant.init (invariant : Invariant s) (new : s.fresh tid = some .allocated) :
    Invariant (threadInit tid s) := by
  obtain ⟨rows,cpus,ready,queue,queues,position⟩ := invariant
  obtain ⟨proper,state⟩ := rows.fresh tid (by simp [new])
  have awake := rows.awake proper (by simp [state]) (by simp [state])
  have sleeps : ∀ u, ((threadInit tid s).threadTable u).sleepsOn = (s.threadTable u).sleepsOn := by
    intro u; by_cases same : u = tid <;> simp [threadInit,same,awake]
  have states : ∀ u, ((threadInit tid s).threadTable u).state = (s.threadTable u).state := by
    intro u; by_cases same : u = tid <;> simp [threadInit,same]
  refine ⟨?_,?_,ready,queue,?_,position⟩
  · refine rows.change proper (fun u _ => ⟨states u,sleeps u⟩) (by simp [sleeps,awake]) (by simp [states,state]) ?_
    intro u there
    by_cases same : u = tid
    · simp [same,states,state]
    · simpa [threadInit,same] using there
  · exact cpus.frame (fun _ _ => rfl) (fun _ _ h => h) fun c _ _ => by simp [states,sleeps]
  · refine queues.keep ?_ (fun u _ => by rw [states]) (fun u _ => sleeps u) rfl rfl rfl
    rintro u listed
    have other : u ≠ tid := by
      rintro rfl
      rcases listed with member | ⟨h,member⟩
      · have := ((queues.ready u).mp member).2
        rw [state] at this
        contradiction
      · exact (queues.queued h u member).2.1 awake
    simp [threadInit,other]

/-! ### Scheduling -/

theorem addReady_readies (proper : Proper t) (awake : (s.threadTable t).sleepsOn = 0) :
    ∃ s', schedulerAddReady t s = some s' ∧ Readies t s s' := by
  unfold schedulerAddReady
  rw [addToReadyList_eq proper]
  refine ⟨_,rfl,?_⟩
  constructor <;> simp [awake,Threads.modify]
  · intro u other; simp [other]
  · intro u; by_cases same : u = t <;> simp [same]

theorem Readies.rows (readies : Readies t s s') (rows : Rows s) (proper : Proper t)
    (old : (s.threadTable t).state ≠ .nonready) : Rows s' := by
  refine rows.change proper (fun u other => readies.others u other) (by simp [readies.here])
    (by simp [readies.here]) ?_
  intro u new
  rw [readies.rest.2.2.2] at new
  split
  · next same =>
    subst same
    exact absurd (rows.fresh u new).2 old
  · exact new

theorem Invariant.run (invariant : Invariant s) (new : s.fresh tid = some .created) :
    ∃ s', threadRun tid s = some s' ∧ Invariant s' := by
  obtain ⟨rows,cpus,ready,queue,queues,position⟩ := invariant
  obtain ⟨proper,state⟩ := rows.fresh tid (by simp [new])
  have awake := rows.awake proper (by simp [state]) (by simp [state])
  obtain ⟨s',added,readies⟩ := addReady_readies proper awake
  have low := proper.1
  unfold threadRun
  rw [added]
  refine ⟨_,rfl,?_,?_,ready ++ [tid],queue,?_,?_⟩
  · refine rows.change proper (fun u other => readies.others u other) (by simp [readies.here])
      (by simp [readies.here]) fun u there => ?_
    by_cases same : u = tid
    · simp [same] at there
    · simpa [same,readies.rest] using there
  · refine cpus.frame (fun c _ => ?_) (fun c _ h => ?_) fun c here busy => ?_
    · simp [onCpu,readies.rest]
    · simpa [readies.rest] using h
    · have other := cpus.absent (by simp [state]) (by simp [state]) here busy (t := tid)
      exact ⟨(readies.others _ other).1,fun h => (readies.others _ other).2.trans h⟩
  · have grown : Queues s' (s'.waker.map Waker.wake) (ready ++ [tid]) queue := by
      refine queues.append rows readies proper ?_ ?_ ?_
      · intro member
        have := ((queues.ready tid).mp member).2
        rw [state] at this
        contradiction
      · exact fun h member => (queues.queued h tid member).2.1 awake
      · intro v
        rw [readies.rest.2.2.1]
        refine ⟨fun held => ⟨held,?_⟩,fun h => h.1⟩
        rintro rfl
        exact (queues.hand v held).2 awake
    exact grown.keep (fun _ _ => rfl) (fun _ _ => Iff.rfl) (fun _ _ => rfl) rfl rfl rfl
  · intro w held
    exact position w (readies.rest.2.2.1 ▸ held)

theorem Cpus.leave (cpus : Cpus s none) (phases : s'.cpus = s.cpus)
    (current : s'.currentThread = s.currentThread)
    (others : ∀ u, u ≠ onCpu s c → (s'.threadTable u).state = (s.threadTable u).state ∧
      (s'.threadTable u).sleepsOn = (s.threadTable u).sleepsOn) : Cpus s' (some c) := by
  have rest : Cpus s (some c) := ⟨fun d _ => cpus.on d (by simp),
    fun d e _ _ => cpus.apart d e (by simp) (by simp),fun d _ => cpus.awake d (by simp)⟩
  refine rest.frame (fun d _ => by simp [onCpu,phases,current]) (fun d _ h => by rwa [phases] at h) ?_
  intro d apart busy
  have other : onCpu s d ≠ onCpu s c := fun same =>
    apart (congrArg some (cpus.apart d c (by simp) (by simp) busy same))
  exact ⟨(others _ other).1,fun h => (others _ other).2.trans h⟩

/-- The state after a thread has left the CPU `c`, which has not taken another one yet. -/
structure Between (c : Cpu) (s s' : Threads) : Prop where
  rows : Rows s'
  cpus : Cpus s' (some c)
  lists : ∃ ready queue, Queues s' (s'.waker.map Waker.wake) ready queue ∧
    ∀ w, s'.waker = some w → Position w queue
  same : s'.cpus = s.cpus ∧ s'.currentThread = s.currentThread ∧ s'.waker = s.waker

theorem Invariant.leave_idle (invariant : Invariant s) (idle : onCpu s c = 0) :
    Between c s (s.modify 0 fun e => { e with state := .ready }) := by
  obtain ⟨rows,cpus,ready,queue,queues,position⟩ := invariant
  have other : ∀ u, Proper u → u ≠ 0 := fun u proper => by have := proper.1; omega
  refine ⟨?_,?_,⟨ready,queue,?_,position⟩,rfl,rfl,rfl⟩
  · constructor
    · simpa using rows.idle.1
    · intro u proper
      simpa [other u proper] using rows.waits u proper
    · intro u proper
      simpa [other u proper] using rows.sleeping u proper
    · intro u new
      obtain ⟨proper,state⟩ := rows.fresh u new
      exact ⟨proper,by simpa [other u proper] using state⟩
  · exact cpus.leave rfl rfl fun u apart => by simp [idle ▸ apart]
  · refine queues.keep ?_ ?_ ?_ rfl rfl rfl
    · intro u _; by_cases same : u = 0 <;> simp [same]
    · intro u proper; simp [other u proper]
    · intro u _; by_cases same : u = 0 <;> simp [same]

theorem Invariant.leave_state (invariant : Invariant s) (proper : Proper (onCpu s c)) {state : ThreadState}
    (old : (s.threadTable (onCpu s c)).state = .running ∨ (s.threadTable (onCpu s c)).state = .dying)
    (new : state ≠ .ready ∧ state ≠ .nonready)
    (asleep : state = .sleeping ↔ (s.threadTable (onCpu s c)).sleepsOn ≠ 0) :
    Between c s (s.modify (onCpu s c) fun e => { e with state := state }) := by
  obtain ⟨rows,cpus,ready,queue,queues,position⟩ := invariant
  refine ⟨?_,?_,⟨ready,queue,?_,position⟩,rfl,rfl,rfl⟩
  · refine rows.change proper ?_ ?_ ?_ ?_
    · intro u apart; simp [apart]
    · intro waits
      exact .inr (by simpa using asleep.mpr (by simpa using waits))
    · intro sleeping
      simpa using asleep.mp (by simpa using sleeping)
    · intro u there
      split
      · next same =>
        subst same
        have := (rows.fresh _ there).2
        rcases old with h | h <;> rw [h] at this <;> contradiction
      · exact there
  · exact cpus.leave rfl rfl fun u apart => by simp [apart]
  · refine queues.keep ?_ ?_ ?_ rfl rfl rfl
    · intro u _; by_cases same : u = onCpu s c <;> simp [same]
    · intro u _
      by_cases same : u = onCpu s c
      · subst same
        rcases old with h | h <;> simp [h,new.1]
      · simp [same]
    · intro u _; by_cases same : u = onCpu s c <;> simp [same]

theorem Invariant.leave_ready (invariant : Invariant s) (proper : Proper (onCpu s c))
    (running : (s.threadTable (onCpu s c)).state = .running)
    (awake : (s.threadTable (onCpu s c)).sleepsOn = 0) (readies : Readies (onCpu s c) s s') :
    Between c s s' := by
  obtain ⟨rows,cpus,ready,queue,queues,position⟩ := invariant
  refine ⟨readies.rows rows proper (by simp [running]),cpus.leave readies.rest.2.1 readies.rest.1 readies.others,
    ⟨ready ++ [onCpu s c],queue,?_,?_⟩,readies.rest.2.1,readies.rest.1,readies.rest.2.2.1⟩
  · refine queues.append rows readies proper ?_ ?_ ?_
    · intro member
      have := ((queues.ready _).mp member).2
      rw [running] at this
      contradiction
    · exact fun h member => (queues.queued h _ member).2.1 awake
    · intro v
      rw [readies.rest.2.2.1]
      refine ⟨fun held => ⟨held,?_⟩,fun h => h.1⟩
      rintro rfl
      exact (queues.hand _ held).2 awake
  · intro w held
    exact position w (readies.rest.2.2.1 ▸ held)

theorem Invariant.leave (invariant : Invariant s) (phase : s.cpus c = .working ∨ s.cpus c = .switching) :
    ∃ s', schedulerLeave (s.currentThread c) s = some s' ∧ Between c s s' := by
  have here := onCpu_working phase
  rw [← here]
  by_cases idle : onCpu s c = 0
  · refine ⟨_,?_,invariant.leave_idle idle⟩
    have alive : (s.threadTable 0).state ≠ .dying := by
      rcases invariant.rows.idle.2 with h | h <;> simp [h]
    simp [schedulerLeave,idle,invariant.rows.idle.1,alive,idleThreadTid]
  obtain ⟨proper,state⟩ := invariant.cpus.on c (by simp) idle
  by_cases dying : (s.threadTable (onCpu s c)).state = .dying
  · have awake := invariant.rows.awake proper (by simp [dying]) (by simp [dying])
    exact ⟨_,if_pos dying,invariant.leave_state proper state (by simp) (by simp [awake])⟩
  have running := state.resolve_right dying
  by_cases awake : (s.threadTable (onCpu s c)).sleepsOn = 0
  · obtain ⟨s',added,readies⟩ := addReady_readies proper awake
    refine ⟨s',?_,invariant.leave_ready proper running awake readies⟩
    unfold schedulerLeave
    rw [if_neg dying,if_neg (by simp [awake]),if_pos (show onCpu s c ≠ idleThreadTid from idle)]
    exact added
  · have between : Between c s (s.modify (onCpu s c) fun e => { e with state := .sleeping }) :=
      invariant.leave_state proper state (by simp) (by simp [awake])
    refine ⟨_,?_,between⟩
    unfold schedulerLeave
    rw [if_neg dying,if_pos awake]

theorem Selects.rows (selects : Selects t s u) (rows : Rows s)
    (chosen : t = 0 ∨ Proper t ∧ (s.threadTable t).state = .ready)
    (awake : t ≠ 0 → (s.threadTable t).sleepsOn = 0) : Rows u := by
  by_cases idle : t = 0
  · subst idle
    have other : ∀ v, Proper v → v ≠ 0 := fun v proper => by have := proper.1; omega
    constructor
    · simpa [selects.here,selects.sleeps] using rows.idle.1
    · intro v proper
      rw [selects.sleeps,selects.others v (other v proper)]
      exact rows.waits v proper
    · intro v proper
      rw [selects.sleeps,selects.others v (other v proper)]
      exact rows.sleeping v proper
    · intro v new
      rw [selects.rest.2.2.1] at new
      obtain ⟨proper,state⟩ := rows.fresh v new
      exact ⟨proper,(selects.others v (other v proper)).trans state⟩
  · obtain ⟨proper,state⟩ := chosen.resolve_left idle
    refine rows.change proper (fun v apart => ⟨selects.others v apart,selects.sleeps v⟩)
      (by simp [selects.here]) (by simp [selects.here]) fun v new => ?_
    rw [selects.rest.2.2.1] at new
    split
    · next same =>
      subst same
      have := (rows.fresh _ new).2
      rw [state] at this
      contradiction
    · exact new

theorem Selects.cpus (selects : Selects t s u) (cpus : Cpus s (some c))
    (chosen : t = 0 ∨ Proper t ∧ (s.threadTable t).state = .ready)
    (awake : t ≠ 0 → (s.threadTable t).sleepsOn = 0) :
    Cpus { u with cpus := Function.update u.cpus c (.storing t) } none := by
  have mine : onCpu { u with cpus := Function.update u.cpus c (.storing t) } c = t := by simp [onCpu]
  have theirs : ∀ d, d ≠ c → onCpu { u with cpus := Function.update u.cpus c (.storing t) } d = onCpu s d := by
    intro d apart
    simp [onCpu,apart,selects.rest]
  have other : ∀ d, d ≠ c → onCpu s d ≠ 0 → onCpu s d ≠ t := by
    intro d apart busy same
    rcases chosen with idle | ⟨-,state⟩
    · exact busy (same.trans idle)
    · exact cpus.absent (by simp [state]) (by simp [state]) (by simpa using apart) busy same
  constructor
  · intro d _ busy
    by_cases same : d = c
    · subst same
      rw [mine] at busy ⊢
      exact ⟨(chosen.resolve_left busy).1,.inl selects.here⟩
    · rw [theirs d same] at busy ⊢
      change _ ∧ ((u.threadTable _).state = _ ∨ (u.threadTable _).state = _)
      rw [selects.others _ (other d same busy)]
      exact cpus.on d (by simpa using same) busy
  · intro d e _ _ busy equal
    by_cases first : d = c <;> by_cases second : e = c
    · rw [first,second]
    · subst first
      rw [mine] at busy equal
      rw [theirs e second] at equal
      exact absurd equal.symm (other e second (equal ▸ busy))
    · subst second
      rw [theirs d first] at busy equal
      rw [mine] at equal
      exact absurd equal (other d first busy)
    · rw [theirs d first] at busy equal
      rw [theirs e second] at equal
      exact cpus.apart d e (by simpa using first) (by simpa using second) busy equal
  · intro d _ busy calm
    by_cases same : d = c
    · subst same
      rw [mine] at busy ⊢
      exact ⟨selects.here,(selects.sleeps t).trans (awake busy)⟩
    · rw [theirs d same] at busy ⊢
      change (u.threadTable _).state = _ ∧ (u.threadTable _).sleepsOn = _
      rw [selects.others _ (other d same busy),selects.sleeps]
      exact cpus.awake d (by simpa using same) busy (by simpa [same,selects.rest] using calm)

theorem Invariant.schedule (invariant : Invariant s) (phase : s.cpus c = .working ∨ s.cpus c = .switching) :
    ∃ s', schedulerSchedule c s = some s' ∧ Invariant s' := by
  obtain ⟨s₁,left,between⟩ := invariant.leave phase
  obtain ⟨rows,cpus,⟨ready,queue,queues,position⟩,phases,current,waker⟩ := between
  obtain ⟨t,s₂,removed,first,selects⟩ := queues.removeFirst
  have result : schedulerSchedule c s = some { s₂.modify t (fun e => { e with state := .running }) with
      cpus := Function.update s₂.cpus c (.storing t) } := by
    simp [schedulerSchedule,left,removed]
  have chosen : t = 0 ∨ Proper t ∧ (s₁.threadTable t).state = .ready := by
    cases ready with
    | nil => exact .inl first
    | cons u rest =>
      obtain rfl : t = u := first
      exact .inr ((queues.ready t).mp List.mem_cons_self)
  have awake : t ≠ 0 → (s₁.threadTable t).sleepsOn = 0 := by
    intro busy
    obtain ⟨proper,state⟩ := chosen.resolve_left busy
    exact rows.awake proper (by simp [state]) (by simp [state])
  refine ⟨_,result,?_,?_,ready.tail,queue,?_,?_⟩
  · exact (selects.rows rows chosen awake).frame (fun _ => rfl) (fun _ => rfl) rfl
  · exact selects.cpus cpus chosen awake
  · rw [show Option.map Waker.wake _ = s₁.waker.map Waker.wake from congrArg _ selects.rest.2.1]
    exact (queues.select selects first).keep (fun _ _ => rfl) (fun _ _ => Iff.rfl) (fun _ _ => rfl) rfl rfl rfl
  · intro w held
    exact position w (selects.rest.2.1 ▸ held)

theorem Invariant.store (invariant : Invariant s) (storing : s.cpus c = .storing t) :
    Invariant (storeCurrentThread c t s) := by
  obtain ⟨rows,cpus,ready,queue,queues,position⟩ := invariant
  have on : ∀ d, onCpu (storeCurrentThread c t s) d = onCpu s d := by
    intro d
    by_cases same : d = c
    · subst same; simp [onCpu,storeCurrentThread,storing]
    · simp [onCpu,storeCurrentThread,same]
  refine ⟨rows.frame (fun _ => rfl) (fun _ => rfl) rfl,?_,ready,queue,?_,position⟩
  · refine cpus.frame (fun d _ => on d) (fun d _ calm => ?_) fun _ _ _ => ⟨rfl,fun h => h⟩
    by_cases same : d = c
    · subst same; simp [storing]
    · simpa [storeCurrentThread,same] using calm
  · exact queues.keep (fun _ _ => rfl) (fun _ _ => Iff.rfl) (fun _ _ => rfl) rfl rfl rfl

theorem Invariant.finish (invariant : Invariant s) (working : s.cpus c = .working)
    (busy : s.currentThread c ≠ 0) : Invariant (threadFinish c s) := by
  obtain ⟨rows,cpus,ready,queue,queues,position⟩ := invariant
  have here := onCpu_working (.inl working)
  rw [← here] at busy
  obtain ⟨proper,-⟩ := cpus.on c (by simp) busy
  obtain ⟨running,awake⟩ := cpus.awake c (by simp) busy (by simp [working])
  rw [here] at proper running awake busy
  have on : ∀ d, onCpu (threadFinish c s) d = onCpu s d := by
    intro d
    by_cases same : d = c
    · subst same; simp [onCpu,threadFinish,working,Threads.modify]
    · simp [onCpu,threadFinish,same,Threads.modify]
  have states : ∀ u, ((threadFinish c s).threadTable u).state =
      if u = s.currentThread c then .dying else (s.threadTable u).state := by
    intro u; by_cases same : u = s.currentThread c <;> simp [threadFinish,same]
  have sleeps : ∀ u, ((threadFinish c s).threadTable u).sleepsOn = (s.threadTable u).sleepsOn := by
    intro u; by_cases same : u = s.currentThread c <;> simp [threadFinish,same]
  refine ⟨?_,?_,ready,queue,?_,position⟩
  · refine rows.change proper (fun u apart => by simp [states,sleeps,apart]) (by simp [sleeps,awake])
      (by simp [states]) fun u there => ?_
    split
    · next same =>
      subst same
      have := (rows.fresh _ there).2
      rw [running] at this
      contradiction
    · exact there
  · constructor
    · intro d _
      rw [on]
      intro there
      obtain ⟨inside,old⟩ := cpus.on d (by simp) there
      refine ⟨inside,?_⟩
      rw [states]
      split
      · exact .inr rfl
      · exact old
    · intro d e _ _
      rw [on,on]
      exact cpus.apart d e (by simp) (by simp)
    · intro d _
      rw [on]
      intro there calm
      have apart : d ≠ c := by rintro rfl; simp [threadFinish] at calm
      have other : onCpu s d ≠ s.currentThread c := fun same =>
        apart (cpus.apart d c (by simp) (by simp) there (same.trans here.symm))
      rw [states,sleeps,if_neg other]
      exact cpus.awake d (by simp) there (by simpa [threadFinish,apart] using calm)
  · refine queues.keep ?_ ?_ (fun u _ => sleeps u) rfl rfl rfl
    · intro u _; by_cases same : u = s.currentThread c <;> simp [threadFinish,same]
    · intro u _
      rw [states]
      split
      · next same => subst same; simp [running]
      · rfl

/-! ### Sleeping and waking -/

theorem Invariant.add (invariant : Invariant s) (working : s.cpus c = .working)
    (busy : s.currentThread c ≠ 0) (address : resource ≠ 0) (free : s.waker = none) (status : UInt32) :
    ∃ s' last, sleepqAdd c (interruptDisable status) resource s = some s' ∧ Blocks c resource last s s' ∧
      Invariant s' := by
  obtain ⟨rows,cpus,ready,queue,queues,position⟩ := invariant
  have here := onCpu_working (.inl working)
  rw [← here] at busy
  obtain ⟨proper,-⟩ := cpus.on c (by simp) busy
  obtain ⟨running,awake⟩ := cpus.awake c (by simp) busy (by simp [working])
  rw [here] at proper running awake busy
  obtain ⟨s',added,blocks⟩ := queues.add proper (fun h member => (queues.queued h _ member).2.1 awake)
    status resource
  have on : ∀ d, onCpu s' d = onCpu s d := by
    intro d
    by_cases same : d = c
    · subst same; simp [onCpu,blocks.cpus,blocks.rest,working]
    · simp [onCpu,blocks.cpus,blocks.rest,same]
  refine ⟨s',_,added,blocks,?_,?_,?_⟩
  · refine rows.change proper (fun u apart => by simp [blocks.state,blocks.sleeps,apart])
      (fun _ => .inl (by rw [blocks.state,running])) (fun sleeping => ?_) fun u new => ?_
    · rw [blocks.state,running] at sleeping
      contradiction
    · rw [blocks.rest.2.2.2.2] at new
      split
      · next same =>
        subst same
        have := (rows.fresh _ new).2
        rw [running] at this
        contradiction
      · exact new
  · constructor
    · intro d _
      rw [on,blocks.state]
      exact cpus.on d (by simp)
    · intro d e _ _
      rw [on,on]
      exact cpus.apart d e (by simp) (by simp)
    · intro d _
      rw [on,blocks.state,blocks.sleeps]
      intro there calm
      have apart : d ≠ c := by rintro rfl; simp [blocks.cpus] at calm
      have other : onCpu s d ≠ s.currentThread c := fun same =>
        apart (cpus.apart d c (by simp) (by simp) there (same.trans here.symm))
      rw [if_neg other]
      exact cpus.awake d (by simp) there (by simpa [blocks.cpus,apart] using calm)
  · have later := queues.block rows blocks proper running awake address
    rw [← blocks.rest.2.2.2.1] at later
    refine ⟨ready,_,later,fun w held => ?_⟩
    rw [blocks.rest.2.2.2.1,free] at held
    contradiction

theorem Looks.invariant (looks : Looks s s') (rows : Rows s) (cpus : Cpus s none)
    (lists : ∃ ready queue, Queues s' (s'.waker.map Waker.wake) ready queue ∧
      ∀ w, s'.waker = some w → Position w queue) : Invariant s' := by
  refine ⟨rows.frame looks.state looks.sleeps looks.rest.2.2,?_,lists⟩
  refine cpus.frame (fun d _ => ?_) (fun d _ calm => ?_) fun d _ _ => ?_
  · simp [onCpu,looks.rest]
  · rwa [looks.rest.2.1] at calm
  · exact ⟨looks.state _,fun h => (looks.sleeps _).trans h⟩

/-- `sleepq_wake` and `sleepq_wake_all` up to their inner lock. -/
theorem Invariant.wake (invariant : Invariant s) (free : s.waker = none) (c : Cpu) (resource : UInt32)
    (all : Bool) : ∃ s', sleepqWake c resource all s = some s' ∧ Looks s s' ∧ Invariant s' ∧
      (∀ w, s'.waker = some w → w.cpu = c ∧ w.resource = resource ∧ w.all = all ∧
        (s.threadTable w.wake).sleepsOn = resource) ∧
      (s'.waker = none → resource ≠ 0 → ∀ t, Proper t → (s.threadTable t).sleepsOn ≠ resource) := by
  obtain ⟨rows,cpus,ready,queue,queues,position⟩ := invariant
  rw [free] at queues
  obtain ⟨s',queue',taken,looks,later,held,none_⟩ :=
    queues.take rows (show queue (sleepqHash resource) = [] ++ _ from rfl) c all
  refine ⟨s',?_,looks,?_,fun w there => (held w there).2,?_⟩
  · unfold sleepqWake
    rw [(queues.chains (sleepqHash resource)).first_eq]
    exact taken
  · exact looks.invariant rows cpus ⟨ready,queue',later,fun w there => (held w there).1⟩
  · intro empty address t proper asleep
    have member := queues.waiting t proper (by rwa [asleep]) (by simp)
    rw [asleep] at member
    exact none_ empty t member asleep

/-- What the section on `thread_table_slock` does to the thread in hand. -/
structure Wakes (t : Int) (s s' : Threads) : Prop where
  state : ∀ u, (s'.threadTable u).state = if u = t ∧ (s.threadTable t).state = .sleeping then .ready
    else (s.threadTable u).state
  sleeps : ∀ u, (s'.threadTable u).sleepsOn = if u = t then 0 else (s.threadTable u).sleepsOn
  rest : s'.currentThread = s.currentThread ∧ s'.cpus = s.cpus ∧ s'.waker = s.waker ∧ s'.fresh = s.fresh

theorem Wakes.rows (wakes : Wakes t s s') (rows : Rows s) (proper : Proper t)
    (asleep : (s.threadTable t).sleepsOn ≠ 0) : Rows s' := by
  have old := rows.waits t proper asleep
  refine rows.change proper (fun u apart => by simp [wakes.state,wakes.sleeps,apart])
    (by simp [wakes.sleeps]) (fun sleeping => ?_) fun u new => ?_
  · rw [wakes.state] at sleeping
    rcases old with h | h <;> simp [h] at sleeping
  · rw [wakes.rest.2.2.2] at new
    split
    · next same =>
      subst same
      have := (rows.fresh _ new).2
      rcases old with h | h <;> rw [h] at this <;> contradiction
    · exact new

theorem Wakes.cpus (wakes : Wakes t s s') (cpus : Cpus s none) : Cpus s' none := by
  refine cpus.frame (fun d _ => by simp [onCpu,wakes.rest]) (fun d _ calm => ?_) fun d _ busy => ?_
  · rwa [wakes.rest.2.1] at calm
  · rw [wakes.state,wakes.sleeps]
    constructor
    · rw [if_neg]
      rintro ⟨same,sleeping⟩
      rcases (cpus.on d (by simp) busy).2 with h | h <;> rw [same,sleeping] at h <;> contradiction
    · intro awake
      split
      · rfl
      · exact awake

/-- A thread that has switched already goes to the ready list. -/
theorem releaseWaiter_sleeping (proper : Proper t) (sleeping : (s.threadTable t).state = .sleeping) :
    ∃ s', releaseWaiter t s = some s' ∧ Readies t s s' := by
  unfold releaseWaiter
  simp only [modify_threadTable,if_true,sleeping]
  rw [addToReadyList_eq proper]
  refine ⟨_,rfl,?_⟩
  constructor <;> simp [Threads.modify]
  · intro u apart; simp [apart]
  · intro u; by_cases same : u = t <;> simp [same]

/-- A thread that has not switched yet is only told that it need not sleep. -/
theorem releaseWaiter_awake (awake : (s.threadTable t).state ≠ .sleeping) :
    releaseWaiter t s = some (s.modify t fun e => { e with sleepsOn := 0, next := -1 }) := by
  simp [releaseWaiter,awake]

theorem wakes_sleeping (sleeping : (s.threadTable t).state = .sleeping) (readies : Readies t s s') :
    Wakes t s s' := by
  constructor
  · intro u
    by_cases same : u = t
    · simp [same,readies.here,sleeping]
    · simp [same,readies.others u same]
  · intro u
    by_cases same : u = t
    · simp [same,readies.here]
    · simp [same,readies.others u same]
  · exact readies.rest

theorem wakes_awake (awake : (s.threadTable t).state ≠ .sleeping) :
    Wakes t s (s.modify t fun e => { e with sleepsOn := 0, next := -1 }) := by
  constructor <;> simp [Threads.modify,awake]
  · intro u; by_cases same : u = t <;> simp [same]
  · intro u; by_cases same : u = t <;> simp [same]

theorem Queues.release {ready : List Int} (queues : Queues s (some t) ready queue) (rows : Rows s) :
    ∃ s' ready', releaseWaiter t s = some s' ∧ Wakes t s s' ∧ Queues s' none ready' queue := by
  obtain ⟨proper,asleep⟩ := queues.hand t rfl
  have low := proper.1
  have unqueued : ∀ h, t ∉ queue h := fun h member => (queues.queued h t member).2.2.2 rfl
  have unready : t ∉ ready := by
    intro member
    have := ((queues.ready t).mp member).2
    rcases rows.waits t proper asleep with h | h <;> rw [h] at this <;> contradiction
  by_cases sleeping : (s.threadTable t).state = .sleeping
  · obtain ⟨s',released,readies⟩ := releaseWaiter_sleeping proper sleeping
    exact ⟨s',ready ++ [t],released,wakes_sleeping sleeping readies,
      queues.append rows readies proper unready unqueued (by simp)⟩
  · have same : ∀ u, u ≠ t → (s.modify t fun e => { e with sleepsOn := 0, next := -1 }).threadTable u =
        s.threadTable u := fun u apart => by simp [apart]
    refine ⟨_,ready,releaseWaiter_awake sleeping,wakes_awake sleeping,?_⟩
    constructor
    · refine queues.chain.congr fun u member => ?_
      rw [same u (by rintro rfl; exact unready member)]
    · exact queues.tail
    · intro u
      rw [queues.ready]
      by_cases here : u = t <;> simp [here]
    · intro h
      refine (queues.chains h).congr fun u member => ?_
      rw [same u (by rintro rfl; exact unqueued h member)]
    · intro h u member
      rw [same u (by rintro rfl; exact unqueued h member)]
      obtain ⟨first,second,third,-⟩ := queues.queued h u member
      exact ⟨first,second,third,by simp⟩
    · intro u inside waits _
      have apart : u ≠ t := by rintro rfl; simp at waits
      rw [same u apart] at waits ⊢
      exact queues.waiting u inside waits (by simpa using Ne.symm apart)
    · simp

theorem Invariant.wakeInner (invariant : Invariant s) (held : s.waker = some w) :
    ∃ s₁ s', releaseWaiter w.wake s = some s₁ ∧ Wakes w.wake s s₁ ∧ finishWake w s = some s' ∧
      Looks s₁ s' ∧ Invariant s' ∧ (w.all = false → s'.waker = none) ∧
      ∀ w', s'.waker = some w' → w'.cpu = w.cpu ∧ w'.resource = w.resource ∧
        (s₁.threadTable w'.wake).sleepsOn = w.resource := by
  obtain ⟨rows,cpus,ready,queue,queues,position⟩ := invariant
  rw [held] at queues
  obtain ⟨proper,asleep⟩ := queues.hand w.wake rfl
  obtain ⟨s₁,ready',released,wakes,later⟩ := queues.release rows
  have rows₁ := wakes.rows rows proper asleep
  have cpus₁ := wakes.cpus cpus
  unfold finishWake
  rw [released]
  cases all : w.all with
  | false =>
    have looks : Looks s₁ { s₁ with waker := none } := ⟨fun _ => rfl,fun _ => rfl,rfl,rfl,rfl⟩
    refine ⟨s₁,_,rfl,wakes,rfl,looks,?_,fun _ => rfl,by simp⟩
    refine looks.invariant rows₁ cpus₁ ⟨ready',queue,?_,by simp⟩
    exact later.keep (fun _ _ => rfl) (fun _ _ => Iff.rfl) (fun _ _ => rfl) rfl rfl rfl
  | true =>
    obtain ⟨pre,post,split,prev,first⟩ := position w held
    obtain ⟨s',queue',taken,looks,last,facts,-⟩ := later.take rows₁ split w.cpu true
    rw [← prev,← first] at taken
    refine ⟨s₁,s',rfl,wakes,by simpa using taken,looks,?_,by simp,fun w' there =>
      ⟨(facts w' there).2.1,(facts w' there).2.2.1,(facts w' there).2.2.2.2⟩⟩
    exact looks.invariant rows₁ cpus₁ ⟨ready',queue',last,fun w there => (facts w there).1⟩

/-! ### Runs -/

/-- Every step that is possible is made: no assertion fails and no walk runs on. -/
theorem Invariant.perform (invariant : Invariant s) (enabled : Enabled s a) :
    ∃ s', perform s a = some s' ∧ Invariant s' := by
  cases a with
  | create => exact ⟨_,rfl,invariant.create⟩
  | init tid => exact ⟨_,rfl,invariant.init enabled⟩
  | run tid => exact invariant.run enabled
  | add cpu status resource =>
    obtain ⟨working,busy,address,free⟩ := enabled
    obtain ⟨s',-,added,-,later⟩ := invariant.add working busy address free status
    exact ⟨s',added,later⟩
  | wake cpu resource all =>
    obtain ⟨s',woken,-,later,-⟩ := invariant.wake enabled cpu resource all
    exact ⟨s',woken,later⟩
  | wakeInner cpu =>
    obtain ⟨w,held,-⟩ := Option.map_eq_some_iff.mp enabled
    obtain ⟨-,s',-,-,finished,-,later,-⟩ := invariant.wakeInner held
    exact ⟨s',by simpa [Kernel.perform,held] using finished,later⟩
  | schedule cpu => exact invariant.schedule enabled
  | store cpu =>
    cases phase : s.cpus cpu with
    | working => exact absurd phase enabled.1
    | switching => exact absurd phase enabled.2
    | storing t => exact ⟨_,by simp [Kernel.perform,phase],invariant.store phase⟩
  | finish cpu => exact ⟨_,rfl,invariant.finish enabled.1 enabled.2⟩

theorem step_invariant (invariant : Invariant s) (next : step a s = some s') : Invariant s' := by
  unfold step at next
  split at next
  · next enabled =>
    obtain ⟨t,performed,later⟩ := invariant.perform enabled
    rw [next] at performed
    cases performed
    exact later
  · contradiction

theorem run_threads (ran : Foundation.run step actions initial = some s) : Invariant s :=
  run_invariant (fun _ _ _ invariant next => step_invariant invariant next) initial_invariant ran

end Steps

theorem thread_queues (ran : Foundation.run step actions initial = some s) :
    (∃ ready, Chain (fun t => (s.threadTable t).next) (-1) s.head ready ∧
      s.tail = ready.getLastD (-1) ∧ ready.Nodup ∧
      (∀ t, t ∈ ready ↔ t ≠ idleThreadTid ∧ 0 ≤ t ∧ t < configMaxThreads ∧
        (s.threadTable t).state = .ready) ∧
      ∃ queue : UInt32 → List Int,
        (∀ h, Chain (fun t => (s.threadTable t).next) (-1) (s.hashtable h) (queue h)) ∧
        (∀ t, s.waker.map Waker.wake ≠ some t → 0 ≤ t → t < configMaxThreads →
          (s.threadTable t).state = .sleeping → ∀ h, t ∈ queue h ↔ h = sleepqHash (s.threadTable t).sleepsOn) ∧
        (∀ w, s.waker = some w → ∀ h, w.wake ∉ queue h) ∧
        ∀ t ∈ ready, ∀ h, t ∉ queue h) ∧
    (∀ c d, c ≠ d → onCpu s c ≠ idleThreadTid → onCpu s c ≠ onCpu s d) ∧
    (∀ c d, c ≠ d → (∀ t, s.cpus c ≠ .storing t) → (∀ t, s.cpus d ≠ .storing t) →
      s.currentThread c ≠ idleThreadTid → s.currentThread c ≠ s.currentThread d) ∧
    ∀ a, Enabled s a → perform s a ≠ none := by
  have invariant := run_threads ran
  obtain ⟨rows,cpus,ready,queue,queues,-⟩ := id invariant
  have apart : ∀ c d, c ≠ d → onCpu s c ≠ idleThreadTid → onCpu s c ≠ onCpu s d :=
    fun c d different busy same => different (cpus.apart c d (by simp) (by simp) busy same)
  refine ⟨⟨ready,queues.chain,queues.tail,queues.chain.nodup,fun t => ?_,queue,queues.chains,?_,?_,?_⟩,apart,?_,?_⟩
  · rw [queues.ready]
    simp only [Proper,idleThreadTid]
    constructor
    · rintro ⟨⟨low,high⟩,state⟩; exact ⟨by omega,by omega,high,state⟩
    · rintro ⟨other,low,high,state⟩; exact ⟨⟨by omega,high⟩,state⟩
  · intro t linked low high sleeping h
    have other : t ≠ 0 := by
      rintro rfl
      rcases rows.idle.2 with state | state <;> rw [sleeping] at state <;> contradiction
    have proper : Proper t := ⟨by omega,high⟩
    have asleep := rows.sleeping t proper sleeping
    constructor
    · intro member
      exact (queues.queued h t member).2.2.1.symm
    · rintro rfl
      exact queues.waiting t proper asleep linked
  · intro w held h member
    exact (queues.queued h w.wake member).2.2.2 (by rw [held]; rfl)
  · exact fun t member h => queues.apart rows h member
  · intro c d different here there busy
    have on : ∀ e, (∀ t, s.cpus e ≠ .storing t) → onCpu s e = s.currentThread e := by
      intro e calm
      cases phase : s.cpus e with
      | storing t => exact absurd phase (calm t)
      | _ => simp [onCpu,phase]
    rw [← on c here] at busy ⊢
    rw [← on d there]
    exact apart c d different busy
  · intro a enabled failed
    obtain ⟨s',performed,-⟩ := invariant.perform enabled
    rw [failed] at performed
    contradiction

/-- CPU 0 gives up thread 1 and has released the lock, but has not stored its new thread when
CPU 1 takes thread 1. -/
def windowRun : List Action :=
  [.create, .init 1, .run 1, .create, .init 2, .run 2, .schedule 0, .store 0, .schedule 0,
    .schedule 1, .store 1]

theorem current_on_two_cpus : ∃ s, Foundation.run step windowRun initial = some s ∧
    s.currentThread 0 = 1 ∧ s.currentThread 1 = 1 := by
  have reached : ((Foundation.run step windowRun initial).any fun (s : Threads) =>
      decide (s.currentThread 0 = 1 ∧ s.currentThread 1 = 1)) = true := by decide +kernel
  obtain ⟨s,ran,facts⟩ := (Option.any_eq_true _ _).mp reached
  exact ⟨s,ran,of_decide_eq_true facts⟩

/-- The thread 1 waits for a resource, is woken before it has switched, and switches. -/
def earlyWakeRun : List Action :=
  [.create, .init 1, .run 1, .schedule 0, .store 0, .add 0 0xff01 0x1000, .wake 1 0x1000 false,
    .wakeInner 1, .schedule 0, .store 0]

theorem thread_queues_early_wake : ∃ s, Foundation.run step earlyWakeRun initial = some s ∧
    onCpu s 0 = 1 ∧ onCpu s 0 ≠ onCpu s 1 ∧ perform s (.finish 0) ≠ none := by
  have reached : ((Foundation.run step earlyWakeRun initial).any fun (s : Threads) =>
      decide (onCpu s 0 = 1 ∧ Enabled s (.finish 0))) = true := by decide +kernel
  obtain ⟨s,ran,facts⟩ := (Option.any_eq_true _ _).mp reached
  obtain ⟨here,enabled⟩ := of_decide_eq_true facts
  obtain ⟨-,apart,-,safe⟩ := thread_queues ran
  exact ⟨s,ran,here,apart 0 1 (by decide) (by rw [here]; decide),safe _ enabled⟩

end Buenos.Kernel
