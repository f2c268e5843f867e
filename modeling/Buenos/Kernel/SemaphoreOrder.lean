import Buenos.Kernel.SemaphoreRun
import Buenos.Kernel.SleepOrder

/-! The semaphores as queues: in every order of calls, switches and wake-ups, a `semaphore_V`
releases the thread that has waited longest in `semaphore_P`. -/
namespace Buenos.Kernel

open Buenos.Foundation

def threadAction (layout : Layout) : SemAction → Semaphores → Option Action
  | .threads a, _ => some a
  | .add cpu status, s => match s.activity cpu with
    | .add sem => some (.add cpu status (layout.address sem))
    | _ => none
  | .wake cpu, s => match s.activity cpu with
    | .wake sem => some (.wake cpu (layout.address sem) false)
    | _ => none
  | _, _ => none

/-- What an action does to the threads that wait for a semaphore. -/
def semEvents (layout : Layout) (sem : Sem) (a : SemAction) (s : Semaphores) : List (QueueEvent Int) :=
  (threadAction layout a s).elim [] fun b => sleepEvents (layout.address sem) b s.threads

/-- Whether a `semaphore_V` has raised the value and not yet released its thread. -/
def pending (s : Semaphores) (sem : Sem) : Nat := if ∃ c, s.activity c = .wake sem then 1 else 0

section Steps
variable {layout : Layout} {sem : Sem} {s t : Semaphores} {q : List Int}

theorem goto_activity {s u : Semaphores} {activity : Activity} (same : s.activity = u.activity)
    (free : ∀ x, u.activity cpu ≠ .wake x) (acts : u.activity c = .wake x) : (s.goto cpu activity).activity c = .wake x := by
  have apart : c ≠ cpu := by
    rintro rfl
    exact free x acts
  exact ((Function.update_of_ne apart _ _).trans (congrFun same c)).trans acts

/-- The threads go on by one step or not at all, and a thread is woken by the CPU that is to wake it. -/
theorem semStep_effects (next : semStep layout a s = some t) :
    ((threadAction layout a s).elim (t.threads = s.threads) fun b => step b s.threads = some t.threads) ∧
    ∀ c x, s.activity c = .wake x → t.activity c = .wake x ∨ a = .wake c := by
  cases semStep_stepped next with
  | store cpu threads performed =>
    rw [threadAction,Option.elim_some,performed]
    unfold returnP
    split <;> exact ⟨rfl,fun c x acts => .inl acts⟩
  | threads a threads plain idle other performed =>
    rw [threadAction,Option.elim_some,performed]
    exact ⟨rfl,fun c x acts => .inl acts⟩
  | p cpu x live unlocked idle =>
    have free : ∀ y, s.activity cpu ≠ .wake y := by simp [idle]
    unfold semaphoreP
    dsimp only
    split <;> exact ⟨rfl,fun c y acts => .inl (goto_activity rfl free acts)⟩
  | v cpu x live unlocked idle =>
    have free : ∀ y, s.activity cpu ≠ .wake y := by simp [idle]
    unfold semaphoreV
    dsimp only
    split <;> exact ⟨rfl,fun c y acts => .inl (goto_activity rfl free acts)⟩
  | add cpu status x threads adds performed =>
    have free : ∀ y, s.activity cpu ≠ .wake y := by simp [adds]
    exact ⟨by simpa [threadAction,adds] using performed,fun c y acts => .inl (goto_activity rfl free acts)⟩
  | wake cpu x threads wakes performed =>
    refine ⟨by simpa [threadAction,wakes] using performed,fun c y acts => ?_⟩
    by_cases same : c = cpu
    · exact .inr (by rw [same])
    · exact .inl ((Function.update_of_ne same _ _).trans acts)
  | release cpu x releases =>
    have free : ∀ y, s.activity cpu ≠ .wake y := by rcases releases with acts | ⟨acts,-⟩ <;> simp [acts]
    exact ⟨rfl,fun c y acts => .inl (goto_activity rfl free acts)⟩
  | _ => exact ⟨rfl,fun c x acts => .inl acts⟩

theorem WaitList.semStep (list : WaitList (layout.address sem) s.threads q) (next : semStep layout a s = some t) :
    ∃ r, Foundation.run QueueEvent.apply (semEvents layout sem a s) q = some r ∧ WaitList (layout.address sem) t.threads r := by
  have threads := (semStep_effects next).1
  unfold semEvents
  cases acts : threadAction layout a s with
  | none =>
    rw [acts] at threads
    exact ⟨q,rfl,threads ▸ list⟩
  | some b =>
    rw [acts] at threads
    exact list.step threads

theorem pending_le_one (s : Semaphores) (sem : Sem) : pending s sem ≤ 1 := by
  unfold pending
  split <;> omega

theorem pending_le (kept : ∀ c, s.activity c = .wake sem → t.activity c = .wake sem) : pending s sem ≤ pending t sem := by
  unfold pending
  split
  · next waking =>
    obtain ⟨c,acts⟩ := waking
    rw [if_pos ⟨c,kept c acts⟩]
  · exact Nat.zero_le _

theorem semEvents_wake (law : Law layout sound s) (safe : sound sem) (acts : s.activity cpu = .wake sem)
    (next : semStep layout (.wake cpu) s = some t) :
    ∃ u, semEvents layout sem (.wake cpu) s = [.leave u] := by
  have performed := (semStep_effects next).1
  have action : threadAction layout (.wake cpu) s = some (.wake cpu (layout.address sem) false) := by
    simp [threadAction,acts]
  rw [action,Option.elim_some] at performed
  obtain ⟨w,held⟩ := law.wakes safe acts performed
  have woken : sleepqWake cpu (layout.address sem) false s.threads = some t.threads := by
    unfold step at performed
    split at performed
    · exact performed
    · contradiction
  exact ⟨w.wake,by simp [semEvents,action,sleepEvents,woken,found,held]⟩

theorem semEvents_some (law : Law layout sound s) (safe : sound sem) (next : semStep layout a s = some t) :
    .empty ∉ semEvents layout sem a s := by
  cases semStep_stepped next with
  | threads b threads plain idle others performed =>
    have other := others sem
    unfold semEvents
    rw [threadAction,Option.elim_some]
    cases b with
    | add cpu status r =>
      rw [sleepEvents]
      split <;> simp
    | wake cpu r all =>
      have apart : r ≠ layout.address sem := by
        rintro rfl
        exact other rfl
      simp [sleepEvents,apart]
    | wakeInner cpu =>
      rw [sleepEvents]
      cases held : s.threads.waker with
      | none => simp
      | some w =>
        have single : ¬(w.all ∧ w.resource = layout.address sem) := by
          rintro ⟨all,mine⟩
          rw [((law.hand w held).2 sem).2 mine] at all
          contradiction
        rw [Option.elim_some,if_neg single]
        exact List.not_mem_nil
    | _ => exact List.not_mem_nil
  | add cpu status x threads adds performed =>
    unfold semEvents threadAction
    dsimp only
    rw [adds]
    dsimp only
    rw [Option.elim_some,sleepEvents]
    split <;> simp
  | wake cpu x threads wakes performed =>
    by_cases acts : s.activity cpu = .wake sem
    · obtain ⟨u,released⟩ := semEvents_wake law safe acts next
      simp [released]
    · have apart : layout.address x ≠ layout.address sem := by
        intro same
        rw [address_injective layout same] at wakes
        exact acts wakes
      unfold semEvents threadAction
      dsimp only
      rw [wakes]
      simp [sleepEvents,apart]
  | _ => exact List.not_mem_nil

/-- As long as threads wait, each `semaphore_V` is to release one of them. -/
theorem pending_raises (law : Law layout sound s) (safe : sound sem)
    (list : WaitList (layout.address sem) s.threads q) (some_ : q ≠ [])
    (next : semStep layout (.v cpu sem) s = some t) : pending s sem = 0 ∧ pending t sem = 1 := by
  cases semStep_stepped next with | v _ _ live unlocked idle =>
  have alone : ¬∃ c, s.activity c = .wake sem := by
    rintro ⟨c,acts⟩
    exact law.alone unlocked c (by rw [acts]; rfl)
  have low : wrap ((s.table sem).value + 1) ≤ 0 := by
    obtain ⟨total,-,queue,-⟩ := law.balance_free live unlocked
    obtain ⟨high,queue⟩ := queue safe
    have few := waiters_le s.threads (layout.address sem)
    have waiting : 0 < waiters s.threads (layout.address sem) := by
      obtain ⟨u,member⟩ := List.exists_mem_of_ne_nil q some_
      obtain ⟨ready,queue,queues,-,waits,-⟩ := list.queues
      rw [waits] at member
      obtain ⟨listed,sleeps⟩ := List.mem_filter.mp member
      exact List.countP_pos_iff.mpr ⟨u,(queues.queued _ u listed).1.mem,sleeps⟩
    rw [total,wrap_wrap_add,wrap_small (by omega) (by omega)]
    omega
  refine ⟨if_neg alone,if_pos ⟨cpu,?_⟩⟩
  unfold semaphoreV
  dsimp only
  rw [if_pos (by simpa [Semaphores.modify,Semaphores.count] using low)]
  simp [Semaphores.goto]

/-- A call of `semaphore_V` is pending until it takes a thread. -/
theorem pending_step (law : Law layout sound s) (safe : sound sem) (list : WaitList (layout.address sem) s.threads q)
    (some_ : q ≠ [])
    (next : semStep layout a s = some t) : (if a.raises sem then 1 else 0) + pending s sem ≤
      pending t sem + (semEvents layout sem a s).countP QueueEvent.takes := by
  by_cases raises : a.raises sem = true
  · cases a with
    | v cpu x =>
      obtain rfl : x = sem := by simpa [SemAction.raises] using raises
      obtain ⟨before,after⟩ := pending_raises law safe list some_ next
      simp [raises,before,after]
    | _ => contradiction
  rw [if_neg raises,Nat.zero_add]
  by_cases waking : ∃ cpu, a = .wake cpu ∧ s.activity cpu = .wake sem
  · obtain ⟨cpu,rfl,acts⟩ := waking
    obtain ⟨u,released⟩ := semEvents_wake law safe acts next
    rw [released]
    simpa [QueueEvent.takes] using Nat.le_add_left_of_le (pending_le_one s sem)
  · refine Nat.le_add_right_of_le (pending_le fun c acts => ?_)
    exact ((semStep_effects next).2 c sem acts).resolve_right fun same => waking ⟨c,same,acts⟩

end Steps

theorem run_semaphore {actions : List SemAction} {sem : Sem} (list : WaitList (layout.address sem) s.threads q)
    (ran : Foundation.run (semStep layout) actions s = some t) :
    ∃ r, Foundation.run QueueEvent.apply (traceOf (semStep layout) (semEvents layout sem) actions s) q = some r ∧
      WaitList (layout.address sem) t.threads r := by
  have meets : Meets (semStep layout) (fun _ _ => True) actions s := meets_of_forall fun _ _ => trivial
  have matched : ∀ a s t q, WaitList (layout.address sem) s.threads q → True → semStep layout a s = some t →
      ∃ r, Foundation.run QueueEvent.apply (semEvents layout sem a s) q = some r ∧ WaitList (layout.address sem) t.threads r :=
    fun _ _ _ _ list _ next => list.semStep next
  exact run_refines matched list meets ran

/-- The threads that `semaphore_V` has released, followed by those that wait, are the threads that
`semaphore_P` has stopped; unless the value has wrapped around, a `semaphore_V` that is to release a
thread finds one. -/
theorem semaphore_fifo {actions : List SemAction} (layout : Layout) (sem : Sem)
    (ran : Foundation.run (semStep layout) actions initialSemaphores = some s) :
    ∃ row, Chain (fun t => (s.threads.threadTable t).next) (-1) (s.threads.hashtable (sleepqHash (layout.address sem))) row ∧
      (traceOf (semStep layout) (semEvents layout sem) actions initialSemaphores).filterMap QueueEvent.entered =
        (traceOf (semStep layout) (semEvents layout sem) actions initialSemaphores).filterMap QueueEvent.left ++
          sleepers s.threads (layout.address sem) row ∧
      (Meets (semStep layout) (RaiseFits sem) actions initialSemaphores →
        .empty ∉ traceOf (semStep layout) (semEvents layout sem) actions initialSemaphores) := by
  obtain ⟨q,queued,list⟩ := run_semaphore (initial_waitList (layout.address sem)) ran
  obtain ⟨row,chain,rfl,-⟩ := list.chain
  refine ⟨row,chain,QueueEvent.run_order queued,fun fits member => ?_⟩
  have lawful : ∀ a s t, Law layout (· = sem) s → RaiseFits sem a s → semStep layout a s = some t →
      Law layout (· = sem) t ∧ ∀ e ∈ semEvents layout sem a s, e ≠ .empty :=
    fun _ _ _ law fits next => ⟨semStep_law law (fun _ same => same ▸ fits) next,
      fun _ member same => semEvents_some law rfl next (same ▸ member)⟩
  exact traceOf_forall lawful (initial_law layout _) fits ran _ member rfl

theorem semaphore_fifo_early_raise : ∃ s row,
    Foundation.run (semStep kernelLayout) (createRun 0 ++ .initialise firstSem :: earlyRaiseRun) initialSemaphores = some s ∧
    (traceOf (semStep kernelLayout) (semEvents kernelLayout firstSem) (createRun 0 ++ .initialise firstSem :: earlyRaiseRun)
        initialSemaphores).filterMap QueueEvent.entered =
      (traceOf (semStep kernelLayout) (semEvents kernelLayout firstSem) (createRun 0 ++ .initialise firstSem :: earlyRaiseRun)
        initialSemaphores).filterMap QueueEvent.left ++ sleepers s.threads (kernelLayout.address firstSem) row ∧
    .empty ∉ traceOf (semStep kernelLayout) (semEvents kernelLayout firstSem) (createRun 0 ++ .initialise firstSem :: earlyRaiseRun)
      initialSemaphores := by
  have fits : Meets (semStep kernelLayout) (RaiseFits firstSem) (createRun 0 ++ .initialise firstSem :: earlyRaiseRun)
      initialSemaphores := by decide +kernel
  have reached : (Foundation.run (semStep kernelLayout) (createRun 0 ++ .initialise firstSem :: earlyRaiseRun)
      initialSemaphores).isSome = true := by decide +kernel
  obtain ⟨s,ran⟩ := Option.isSome_iff_exists.mp reached
  obtain ⟨row,-,order,finds⟩ := semaphore_fifo kernelLayout firstSem ran
  exact ⟨s,row,ran,order,finds fits⟩

/-- A thread that waits behind `pre` is released by one of the next calls of `semaphore_V`. -/
theorem semaphore_released {actions : List SemAction} {pre post : List Int} (law : Law layout (· = sem) s)
    (fits : Meets (semStep layout) (RaiseFits sem) actions s)
    (list : WaitList (layout.address sem) s.threads (pre ++ u :: post)) (ran : Foundation.run (semStep layout) actions s = some t)
    (many : pre.length + 1 < actions.countP (SemAction.raises sem) + pending s sem) :
    QueueEvent.leave u ∈ traceOf (semStep layout) (semEvents layout sem) actions s := by
  induction actions generalizing s pre post with
  | nil =>
    have one := pending_le_one s sem
    rw [List.countP_nil] at many
    omega
  | cons a rest ih =>
    obtain ⟨v,next,later⟩ := Option.bind_eq_some_iff.mp ran
    obtain ⟨r,queued,after⟩ := list.semStep next
    have lower := pending_step law rfl list (by simp) next
    rw [traceOf_cons rest next]
    rcases QueueEvent.run_waits queued with gone | ⟨pre',post',rfl,count⟩
    · exact List.mem_append_left _ gone
    · rw [List.countP_cons] at many
      exact List.mem_append_right _ (ih (semStep_law law (fun _ same => same ▸ fits.1) next) (fits.next next) after later (by omega))

/-- No thread starves in `semaphore_P`: unless the value wraps around, one that waits is released by
the time `semaphore_V` has been called once more than the thread table has rows. -/
theorem semaphore_releases {past later : List SemAction} (layout : Layout) (sem : Sem)
    (ran : Foundation.run (semStep layout) past initialSemaphores = some s)
    (goes : Foundation.run (semStep layout) later s = some t)
    (before : Meets (semStep layout) (RaiseFits sem) past initialSemaphores)
    (after : Meets (semStep layout) (RaiseFits sem) later s)
    (inside : 0 ≤ u ∧ u < configMaxThreads)
    (waits : (s.threads.threadTable u).sleepsOn = layout.address sem) (free : s.threads.waker.map Waker.wake ≠ some u)
    (many : configMaxThreads < later.countP (SemAction.raises sem)) :
    QueueEvent.leave u ∈ traceOf (semStep layout) (semEvents layout sem) later s := by
  obtain ⟨q,-,list⟩ := run_semaphore (initial_waitList (layout.address sem)) ran
  obtain ⟨pre,post,rfl,short⟩ := list.position inside waits (address_ne_zero layout sem) free
  simp only [configMaxThreads] at many
  exact semaphore_released (run_law (initial_law layout _) (by simpa using before) ran) after list goes (by omega)

/-- Thread 1 waits for the semaphore. -/
def stopRun : List SemAction :=
  createRun 0 ++ [.initialise firstSem, .p 0 firstSem, .add 0 0xff01, .release 0, .threads (.schedule 0), .threads (.store 0)]

def raiseRun : List SemAction :=
  [.v 1 firstSem, .wake 1, .threads (.wakeInner 1), .release 1] ++ (List.replicate 32 [SemAction.v 1 firstSem, .release 1]).flatten

theorem semaphore_releases_stopped : ∃ s t, Foundation.run (semStep kernelLayout) stopRun initialSemaphores = some s ∧
    Foundation.run (semStep kernelLayout) raiseRun s = some t ∧
    QueueEvent.leave 1 ∈ traceOf (semStep kernelLayout) (semEvents kernelLayout firstSem) raiseRun s := by
  have before : Meets (semStep kernelLayout) (RaiseFits firstSem) stopRun initialSemaphores := by decide +kernel
  have reached : ((Foundation.run (semStep kernelLayout) stopRun initialSemaphores).any fun s =>
      decide ((s.threads.threadTable 1).sleepsOn = kernelLayout.address firstSem ∧ s.threads.waker.map Waker.wake ≠ some 1 ∧
        Meets (semStep kernelLayout) (RaiseFits firstSem) raiseRun s) &&
      (Foundation.run (semStep kernelLayout) raiseRun s).isSome) = true := by decide +kernel
  obtain ⟨s,ran,facts⟩ := (Option.any_eq_true _ _).mp reached
  obtain ⟨known,possible⟩ := Bool.and_eq_true_iff.mp facts
  obtain ⟨waits,free,after⟩ := of_decide_eq_true known
  obtain ⟨t,goes⟩ := Option.isSome_iff_exists.mp possible
  exact ⟨s,t,ran,goes,semaphore_releases kernelLayout firstSem ran goes before after (by decide) waits free (by decide)⟩

end Buenos.Kernel
