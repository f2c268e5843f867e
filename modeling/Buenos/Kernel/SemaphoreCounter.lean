import Buenos.Foundation.Counter
import Buenos.Foundation.Refinement
import Buenos.Kernel.SemaphoreRun

/-! The semaphores as their users see them: with the queue, the locks and the switches left out,
`semaphore_P` lowers a number that is positive and `semaphore_V` raises it, each at once. -/
namespace Buenos.Kernel

open Buenos.Foundation

/-- A call of `semaphore_P` gets through at once, or when its thread is back on a CPU. -/
def counterEvents (sem : Sem) : SemAction → Semaphores → List CounterEvent
  | .v cpu x, s => if x = sem then [.give (s.threads.currentThread cpu).toNat] else []
  | .p cpu x, s => if x = sem ∧ 0 ≤ wrap ((s.table x).value - 1) then [.take (s.threads.currentThread cpu).toNat] else []
  | .threads (.store cpu), s => match s.threads.cpus cpu with
    | .storing t => if s.blocked t = some sem then [.take t.toNat] else []
    | _ => []
  | _, _ => []

/-- The units that are there. -/
def unitsOf (s : Semaphores) (sem : Sem) : Int :=
  (s.counts sem).created + (s.counts sem).raised - (s.counts sem).passed

section Steps
variable {layout : Layout} {sem : Sem} {s t : Semaphores}

theorem Law.unitsOf_nonneg (law : Law layout sound s) (live : s.life sem = .live) : 0 ≤ unitsOf s sem := by
  have units := law.passed_le live
  unfold unitsOf
  omega

theorem returnP_passed (u : Int) (s : Semaphores) (sem : Sem) : ((returnP u s).counts sem).passed =
    (s.counts sem).passed + if s.blocked u = some sem then 1 else 0 := by
  cases blocked : s.blocked u with
  | none => simp [returnP,blocked]
  | some x =>
    rw [(returnP_returns blocked).counts]
    by_cases same : sem = x
    · simp [same]
    · simp [same,Ne.symm same]

theorem semaphoreP_passed (cpu : Cpu) (x : Sem) (s : Semaphores) (sem : Sem) : ((semaphoreP cpu x s).counts sem).passed =
    (s.counts sem).passed + if x = sem ∧ 0 ≤ wrap ((s.table x).value - 1) then 1 else 0 := by
  unfold semaphoreP
  by_cases same : x = sem
  · subst same
    by_cases free : 0 ≤ wrap ((s.table x).value - 1)
    · simp [Semaphores.goto,Semaphores.count,Semaphores.modify,free,free.not_gt]
    · simp [Semaphores.goto,Semaphores.count,Semaphores.modify,free,not_le.mp free]
  · simp only
    split <;> simp [Semaphores.goto,Semaphores.count,Semaphores.modify,Ne.symm same,same]

theorem semaphoreV_passed (cpu : Cpu) (x : Sem) (s : Semaphores) (sem : Sem) :
    ((semaphoreV cpu x s).counts sem).passed = (s.counts sem).passed := by
  unfold semaphoreV
  simp only
  by_cases same : sem = x
  · subst same
    split <;> simp [Semaphores.goto,Semaphores.count,Semaphores.modify]
  · split <;> simp [Semaphores.goto,Semaphores.count,Semaphores.modify,same]

/-- The calls that get through are those of the events. -/
theorem semStep_passed (live : s.life sem = .live) (next : semStep layout a s = some t) :
    (t.counts sem).passed = (s.counts sem).passed + (counterEvents sem a s).countP CounterEvent.takes := by
  cases semStep_stepped next with
  | store cpu threads performed =>
    unfold step at performed
    split at performed
    case isFalse => contradiction
    next enabled =>
    cases phase : s.threads.cpus cpu with
    | working => exact absurd phase enabled.1
    | switching => exact absurd phase enabled.2
    | storing u =>
      simp only [perform,phase] at performed
      cases performed
      have here : (storeCurrentThread cpu u s.threads).currentThread cpu = u := Function.update_self _ _ _
      rw [returnP_passed,here,counterEvents,phase]
      dsimp only
      split <;> rfl
  | threads a threads plain =>
    cases a with
    | store cpu => exact absurd rfl (plain cpu)
    | _ => rfl
  | initialise x v reserved =>
    have apart : sem ≠ x := by
      rintro rfl
      rw [live] at reserved
      contradiction
    simp [semaphoreInitialise,counterEvents,apart]
  | p cpu x =>
    rw [semaphoreP_passed,counterEvents]
    split <;> rfl
  | v cpu x =>
    rw [semaphoreV_passed,counterEvents]
    split <;> rfl
  | _ => rfl

theorem counterEvents_cases (sem : Sem) (a : SemAction) (s : Semaphores) :
    (counterEvents sem a s = [] ∧ a.raises sem = false) ∨ (∃ t, counterEvents sem a s = [.take t] ∧ a.raises sem = false) ∨
      ∃ t, counterEvents sem a s = [.give t] ∧ a.raises sem = true := by
  cases a with
  | v cpu x => by_cases same : x = sem <;> simp [counterEvents,SemAction.raises,same]
  | p cpu x =>
    rw [counterEvents]
    split <;> simp [SemAction.raises]
  | threads a =>
    cases a with
    | store cpu =>
      cases phase : s.threads.cpus cpu with
      | storing u => by_cases back : s.blocked u = some sem <;> simp [counterEvents,phase,back,SemAction.raises]
      | _ => simp [counterEvents,phase,SemAction.raises]
    | _ => exact .inl ⟨rfl,rfl⟩
  | _ => exact .inl ⟨rfl,rfl⟩

/-- A semaphore in use and the number that its users see. -/
structure Counted (layout : Layout) (sem : Sem) (s : Semaphores) (n : Nat) : Prop where
  law : Law layout (fun _ => False) s
  live : s.life sem = .live
  count : (n : Int) = unitsOf s sem

theorem Counted.step (counted : Counted layout sem s n) (kept : a ≠ .destroy sem) (next : semStep layout a s = some t) :
    ∃ m, Foundation.run CounterEvent.apply (counterEvents sem a s) n = some m ∧ Counted layout sem t m := by
  obtain ⟨law,live,count⟩ := counted
  have history := semStep_history law ⟨live,rfl,rfl,rfl⟩ kept next
  have after := semStep_law law (by simp) next
  have passed := semStep_passed live next
  have left := after.unitsOf_nonneg history.live
  have change : unitsOf t sem = unitsOf s sem + (if a.raises sem then 1 else 0) - (counterEvents sem a s).countP CounterEvent.takes := by
    unfold unitsOf
    rw [history.created,history.raised,passed]
    split <;> push_cast <;> omega
  rw [change] at left
  rcases counterEvents_cases sem a s with ⟨events,raises⟩ | ⟨u,events,raises⟩ | ⟨u,events,raises⟩
  · rw [events,raises] at change
    rw [events]
    exact ⟨n,rfl,after,history.live,by simpa [change] using count⟩
  · rw [events,raises] at change left
    simp only [List.countP_singleton,CounterEvent.takes,if_true,Bool.false_eq_true,if_false] at change left
    rw [events]
    have some_ : 0 < n := by omega
    exact ⟨n - 1,by simp [CounterEvent.apply,some_],after,history.live,by omega⟩
  · rw [events,raises] at change
    simp only [List.countP_singleton,CounterEvent.takes,if_true,Bool.false_eq_true,if_false] at change
    rw [events]
    exact ⟨n + 1,rfl,after,history.live,by omega⟩

theorem initialise_counted (law : Law layout (fun _ => False) s) (reserved : s.life sem = .reserved value)
    (next : semStep layout (.initialise sem) s = some t) : Counted layout sem t value.toNat := by
  have positive := law.reserved sem value reserved
  refine ⟨semStep_law law (by simp) next,?_,?_⟩
  all_goals
    simp only [semStep,reserved,Option.some.injEq] at next
    subst next
    simp [unitsOf,semaphoreInitialise,positive]

end Steps

theorem run_counter {layout : Layout} {sem : Sem} (started : Foundation.run (semStep layout) before initialSemaphores = some s)
    (reserved : s.life sem = .reserved value) (ran : Foundation.run (semStep layout) (.initialise sem :: actions) s = some t)
    (kept : .destroy sem ∉ actions) : ∃ n, Foundation.run CounterEvent.apply
      (traceOf (semStep layout) (counterEvents sem) (.initialise sem :: actions) s) value.toNat = some n ∧ Counted layout sem t n := by
  obtain ⟨u,next,later⟩ := Option.bind_eq_some_iff.mp ran
  have begins := initialise_counted (reachable_law started) reserved next
  have meets : Meets (semStep layout) (fun a _ => a ≠ .destroy sem) actions u :=
    meets_of_forall fun a member same => kept (same ▸ member)
  obtain ⟨n,refined,counted⟩ := run_refines (fun _ _ _ _ counted other next => counted.step other next) begins meets later
  refine ⟨n,?_,counted⟩
  rw [traceOf_cons actions next]
  exact refined

/-- From its creation on, a semaphore is a number that is never negative: each call that gets
through takes a unit that is there. -/
theorem semaphore_refines (layout : Layout) (sem : Sem) (value : Int)
    (started : Foundation.run (semStep layout) before initialSemaphores = some s) (reserved : s.life sem = .reserved value)
    (ran : Foundation.run (semStep layout) (.initialise sem :: actions) s = some t) (kept : .destroy sem ∉ actions) :
    ∃ n : Nat, Foundation.run CounterEvent.apply
        (traceOf (semStep layout) (counterEvents sem) (.initialise sem :: actions) s) value.toNat = some n ∧
      (n : Int) = unitsOf t sem := by
  obtain ⟨n,refined,counted⟩ := run_counter started reserved ran kept
  exact ⟨n,refined,counted.count⟩

theorem semaphore_refines_early_raise : ∃ s t, Foundation.run (semStep kernelLayout) (createRun 0) initialSemaphores = some s ∧
    Foundation.run (semStep kernelLayout) (.initialise firstSem :: earlyRaiseRun) s = some t ∧
    ∃ n : Nat, Foundation.run CounterEvent.apply (traceOf (semStep kernelLayout) (counterEvents firstSem)
        (.initialise firstSem :: earlyRaiseRun) s) 0 = some n ∧ (n : Int) = unitsOf t firstSem := by
  have reached : ((Foundation.run (semStep kernelLayout) (createRun 0) initialSemaphores).any fun s =>
      decide (s.life firstSem = .reserved 0) &&
        (Foundation.run (semStep kernelLayout) (.initialise firstSem :: earlyRaiseRun) s).isSome) = true := by decide +kernel
  obtain ⟨s,started,facts⟩ := (Option.any_eq_true _ _).mp reached
  obtain ⟨reserved,possible⟩ := Bool.and_eq_true_iff.mp facts
  obtain ⟨t,ran⟩ := Option.isSome_iff_exists.mp possible
  exact ⟨s,t,started,ran,semaphore_refines kernelLayout firstSem 0 started (of_decide_eq_true reserved) ran (by simp [earlyRaiseRun])⟩

/-- A semaphore of one unit is a lock: if only holders call `semaphore_V`, then no two threads hold
it, in whatever order the calls, the switches and the wake-ups are made. -/
theorem semaphore_excludes (layout : Layout) (sem : Sem)
    (started : Foundation.run (semStep layout) before initialSemaphores = some s) (reserved : s.life sem = .reserved 1)
    (ran : Foundation.run (semStep layout) (.initialise sem :: actions) s = some t) (kept : .destroy sem ∉ actions)
    (disciplined : CounterEvent.Disciplined (traceOf (semStep layout) (counterEvents sem) (.initialise sem :: actions) s)
      fun _ => false) :
    Exclusive (unitsOf t sem).toNat
      (CounterEvent.holders (traceOf (semStep layout) (counterEvents sem) (.initialise sem :: actions) s) fun _ => false) := by
  obtain ⟨n,refined,counted⟩ := run_counter started reserved ran kept
  have free : Exclusive 1 fun _ => false := ⟨Nat.le_refl _,by simp,by simp⟩
  have held := CounterEvent.run_exclusive free disciplined refined
  rwa [← counted.count,Int.toNat_natCast]

/-- Thread 1 creates a semaphore of value 1. -/
def createLockRun : List SemAction :=
  [.threads .create, .threads (.init 1), .threads (.run 1), .threads (.schedule 0), .threads (.store 0),
    .create 0 1]

def lockRun : List SemAction :=
  [.p 0 firstSem, .release 0, .v 0 firstSem, .release 0, .p 0 firstSem, .release 0]

theorem semaphore_excludes_lock : ∃ s t, Foundation.run (semStep kernelLayout) createLockRun initialSemaphores = some s ∧
    Foundation.run (semStep kernelLayout) (.initialise firstSem :: lockRun) s = some t ∧
    Exclusive (unitsOf t firstSem).toNat (CounterEvent.holders (traceOf (semStep kernelLayout) (counterEvents firstSem)
      (.initialise firstSem :: lockRun) s) fun _ => false) := by
  have reached : ((Foundation.run (semStep kernelLayout) createLockRun initialSemaphores).any fun s =>
      decide (s.life firstSem = .reserved 1) && ((Foundation.run (semStep kernelLayout) (.initialise firstSem :: lockRun) s).isSome &&
        decide (traceOf (semStep kernelLayout) (counterEvents firstSem) (.initialise firstSem :: lockRun) s =
          [.take 1, .give 1, .take 1]))) = true := by decide +kernel
  obtain ⟨s,started,facts⟩ := (Option.any_eq_true _ _).mp reached
  obtain ⟨reserved,facts⟩ := Bool.and_eq_true_iff.mp facts
  obtain ⟨possible,events⟩ := Bool.and_eq_true_iff.mp facts
  obtain ⟨t,ran⟩ := Option.isSome_iff_exists.mp possible
  refine ⟨s,t,started,ran,semaphore_excludes kernelLayout firstSem started (of_decide_eq_true reserved) ran ?_ ?_⟩
  · simp [lockRun]
  · rw [of_decide_eq_true events]
    simp [CounterEvent.Disciplined]

end Buenos.Kernel
