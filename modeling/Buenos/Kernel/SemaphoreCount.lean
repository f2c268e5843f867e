import Buenos.Foundation.Count
import Buenos.Kernel.Semaphore
import Buenos.Kernel.ThreadRun
import Mathlib.Algebra.BigOperators.Fin

/-! The law of the semaphores: value, sleepers and the calls of `semaphore_P` that got through,
over every interleaving. -/
namespace Buenos.Kernel

open Buenos.Foundation

section Threads
variable {s s' : Threads}

/-! ### What the steps of the threads do to the sleepers -/

structure Keeps (s s' : Threads) : Prop where
  sleeps : ∀ u, (s'.threadTable u).sleepsOn = (s.threadTable u).sleepsOn
  waker : s'.waker = s.waker
  cpus : s'.cpus = s.cpus
  current : s'.currentThread = s.currentThread

theorem Keeps.trans (first : Keeps s u) (second : Keeps u s') : Keeps s s' :=
  ⟨fun v => (second.sleeps v).trans (first.sleeps v),second.waker.trans first.waker,
    second.cpus.trans first.cpus,second.current.trans first.current⟩

theorem keeps_modify (s : Threads) (t : Int) (f : ThreadEntry → ThreadEntry)
    (same : (f (s.threadTable t)).sleepsOn = (s.threadTable t).sleepsOn) : Keeps s (s.modify t f) := by
  refine ⟨fun u => ?_,rfl,rfl,rfl⟩
  by_cases here : u = t
  · subst here; simpa using same
  · simp [here]

theorem addToReadyList_keeps (added : schedulerAddToReadyList t s = some s') : Keeps s s' := by
  unfold schedulerAddToReadyList at added
  split at added
  · split at added <;> cases added
    · obtain ⟨sleeps,waker,cpus,current⟩ := keeps_modify s t (fun e => { e with next := -1 }) rfl
      exact ⟨sleeps,waker,cpus,current⟩
    · obtain ⟨sleeps,waker,cpus,current⟩ :=
        (keeps_modify s s.tail (fun e => { e with next := t }) rfl).trans
          (keeps_modify _ t (fun e => { e with next := -1 }) rfl)
      exact ⟨sleeps,waker,cpus,current⟩
  · contradiction

theorem addReady_keeps (added : schedulerAddReady t s = some s') : Keeps s s' := by
  obtain ⟨u,first,rfl⟩ := Option.map_eq_some_iff.mp added
  exact (addToReadyList_keeps first).trans (keeps_modify u t _ rfl)

theorem leave_keeps (left : schedulerLeave t s = some s') : Keeps s s' := by
  unfold schedulerLeave at left
  split at left
  · cases left; exact keeps_modify s t _ rfl
  split at left
  · cases left; exact keeps_modify s t _ rfl
  obtain ⟨u,first,rfl⟩ := Option.map_eq_some_iff.mp left
  split at first
  · exact (addToReadyList_keeps first).trans (keeps_modify u t _ rfl)
  · cases first; exact keeps_modify s t _ rfl

theorem removeFirst_keeps (removed : schedulerRemoveFirstReady s = some (t, s')) : Keeps s s' := by
  unfold schedulerRemoveFirstReady at removed
  dsimp only at removed
  split at removed
  · contradiction
  split at removed
  · split at removed
    · cases removed; exact ⟨fun _ => rfl,rfl,rfl,rfl⟩
    · contradiction
  · cases removed; exact ⟨fun _ => rfl,rfl,rfl,rfl⟩

theorem schedule_keeps (done : schedulerSchedule c s = some s') :
    ∃ t, Keeps { s with cpus := Function.update s.cpus c (.storing t) } s' := by
  unfold schedulerSchedule at done
  obtain ⟨u,left,done⟩ := Option.bind_eq_some_iff.mp done
  obtain ⟨⟨t,v⟩,removed,done⟩ := Option.bind_eq_some_iff.mp done
  cases done
  obtain ⟨sleeps,waker,cpus,current⟩ := ((leave_keeps left).trans (removeFirst_keeps removed)).trans
    (keeps_modify v t (fun e => { e with state := .running }) rfl)
  refine ⟨t,sleeps,waker,?_,current⟩
  change Function.update v.cpus c (.storing t) = Function.update s.cpus c (.storing t)
  rw [show v.cpus = s.cpus from cpus]

/-- The steps of the threads other than `sleepq_add` and the wake-ups. -/
def Action.plain : Action → Bool
  | .add _ _ _ | .wake _ _ _ | .wakeInner _ => false
  | _ => true

theorem step_plain (invariant : Invariant s) (plain : a.plain = true) (next : step a s = some s') :
    (∀ u, (s'.threadTable u).sleepsOn = (s.threadTable u).sleepsOn) ∧ s'.waker = s.waker := by
  unfold step at next
  split at next
  case isFalse => contradiction
  next enabled =>
  cases a with
  | create =>
    cases next
    unfold threadCreate
    split
    · exact ⟨fun _ => rfl,rfl⟩
    · next tid _ => exact ⟨(keeps_modify s tid (fun e => { e with state := .nonready }) rfl).sleeps,rfl⟩
  | init tid =>
    cases next
    obtain ⟨proper,state⟩ := invariant.rows.fresh tid (by rw [show s.fresh tid = _ from enabled]; simp)
    have awake := invariant.rows.awake proper (by simp [state]) (by simp [state])
    exact ⟨(keeps_modify s tid (fun e => { e with sleepsOn := 0, next := -1 }) awake.symm).sleeps,rfl⟩
  | run tid =>
    obtain ⟨u,added,rfl⟩ := Option.map_eq_some_iff.mp next
    exact ⟨(addReady_keeps added).sleeps,(addReady_keeps added).waker⟩
  | schedule c =>
    obtain ⟨t,keeps⟩ := schedule_keeps next
    exact ⟨keeps.sleeps,keeps.waker⟩
  | store c =>
    simp only [perform] at next
    split at next <;> cases next <;> exact ⟨fun _ => rfl,rfl⟩
  | finish c =>
    cases next
    exact ⟨(keeps_modify s (s.currentThread c) (fun e => { e with state := .dying }) rfl).sleeps,rfl⟩
  | _ => contradiction

theorem step_cpu (invariant : Invariant s) (next : step a s = some s') (c : Cpu) :
    (s'.cpus c = s.cpus c ∧ s'.currentThread c = s.currentThread c) ∨
    (a = .store c ∧ s'.cpus c = .working ∧ ∃ t, s.cpus c = .storing t ∧ s'.currentThread c = t) ∨
    (a.cpu = some c ∧ s'.cpus c ≠ .working) := by
  unfold step at next
  split at next
  case isFalse => contradiction
  next enabled =>
  cases a with
  | create =>
    cases next
    left
    unfold threadCreate
    split <;> exact ⟨rfl,rfl⟩
  | init tid => cases next; exact .inl ⟨rfl,rfl⟩
  | run tid =>
    obtain ⟨u,added,rfl⟩ := Option.map_eq_some_iff.mp next
    exact .inl ⟨congrFun (addReady_keeps added).cpus c,congrFun (addReady_keeps added).current c⟩
  | add d status resource =>
    obtain ⟨working,busy,address,free⟩ := enabled
    obtain ⟨u,last,added,blocks,-⟩ := invariant.add working busy address free status
    cases next.symm.trans added
    by_cases same : c = d
    · subst same; exact .inr (.inr ⟨rfl,by simp [blocks.cpus]⟩)
    · exact .inl ⟨by simp [blocks.cpus,same],by rw [blocks.rest.2.2.1]⟩
  | wake d resource all =>
    obtain ⟨u,woken,looks,-⟩ := invariant.wake enabled d resource all
    cases next.symm.trans woken
    exact .inl ⟨congrFun looks.rest.2.1 c,congrFun looks.rest.1 c⟩
  | wakeInner d =>
    obtain ⟨w,held,-⟩ := Option.map_eq_some_iff.mp enabled
    obtain ⟨u,v,-,wakes,finished,looks,-⟩ := invariant.wakeInner held
    have same : s' = v := Option.some.inj ((by simpa [perform,held] using next.symm : some s' = _).trans finished)
    subst same
    exact .inl ⟨by rw [looks.rest.2.1,wakes.rest.2.1],by rw [looks.rest.1,wakes.rest.1]⟩
  | schedule d =>
    obtain ⟨t,keeps⟩ := schedule_keeps next
    by_cases same : c = d
    · subst same; exact .inr (.inr ⟨rfl,by simp [keeps.cpus]⟩)
    · exact .inl ⟨by simp [keeps.cpus,same],congrFun keeps.current c⟩
  | store d =>
    simp only [perform] at next
    split at next
    · next t storing =>
      cases next
      by_cases same : c = d
      · subst same
        exact .inr (.inl ⟨rfl,by simp [storeCurrentThread],t,storing,by simp [storeCurrentThread]⟩)
      · exact .inl ⟨by simp [storeCurrentThread,same],by simp [storeCurrentThread,same]⟩
    · cases next; exact .inl ⟨rfl,rfl⟩
  | finish d =>
    cases next
    by_cases same : c = d
    · subst same; exact .inr (.inr ⟨rfl,by simp [threadFinish]⟩)
    · exact .inl ⟨by simp [threadFinish,same],rfl⟩

end Threads

/-! ### The law -/

/-- The threads that wait for a resource. -/
def waiters (s : Threads) (resource : UInt32) : Nat :=
  threadIds.countP fun t => (s.threadTable t).sleepsOn = resource

/-- The calls of `semaphore_P` that have queued their thread and have not returned. -/
def blockedOn (s : Semaphores) (sem : Sem) : Nat := threadIds.countP fun t => s.blocked t = some sem

/-- The waiters that a CPU still has to add: one for a `semaphore_P` before its `sleepq_add`, minus
one for a `semaphore_V` until it has woken a thread. -/
def owed (s : Semaphores) (sem : Sem) (c : Cpu) : Int :=
  match s.activity c with
  | .add x => if x = sem then 1 else 0
  | .wake x => if x = sem then -1 else 0
  | .waking x => if x = sem ∧ s.threads.waker.map Waker.cpu = some c then -1 else 0
  | _ => 0

def entering (s : Semaphores) (sem : Sem) (c : Cpu) : Int := if s.activity c = .add sem then 1 else 0

/-- What the value would be if it did not wrap around. -/
def Counts.total (n : Counts) : Int := n.created + n.raised - n.lowered

/-- The numbers of a semaphore fit together; `sound` semaphores have never been raised from
`INT_MAX`. -/
structure Balanced (sound : Prop) (value : Int) (n : Counts) (waiting : Nat) (owes : Int) (blocked : Nat)
    (enters : Int) : Prop where
  total : value = wrap n.total
  enough : -n.total ≤ waiting + owes
  queue : sound → n.total ≤ intMax ∧ waiting + owes = max 0 (-n.total)
  passed : (n.lowered : Int) = n.passed + blocked + enters

def Balance (layout : Layout) (sound : Prop) (s : Semaphores) (sem : Sem) : Prop :=
  Balanced sound (s.table sem).value (s.counts sem) (waiters s.threads (layout.address sem)) (∑ c, owed s sem c)
    (blockedOn s sem) (∑ c, entering s sem c)

theorem Balanced.settle {waiting' blocked' : Nat} (balanced : Balanced sound value n waiting owes blocked enters)
    (paid : (waiting' : Int) + owes' = waiting + owes) (entered : (blocked' : Int) + enters' = blocked + enters) :
    Balanced sound value n waiting' owes' blocked' enters' := by
  obtain ⟨total,enough,queue,passed⟩ := balanced
  rw [← paid] at enough queue
  exact ⟨total,enough,queue,by omega⟩

/-- `semaphore_P` lowers the value, which cannot wrap around with so few waiters. -/
theorem Balanced.lower (balanced : Balanced sound value n waiting 0 blocked 0) (few : waiting ≤ 32) :
    (wrap (value - 1) < 0 →
      Balanced sound (wrap (value - 1)) { n with lowered := n.lowered + 1 } waiting 1 blocked 1) ∧
    (0 ≤ wrap (value - 1) → Balanced sound (wrap (value - 1))
      { n with lowered := n.lowered + 1, passed := n.passed + 1 } waiting 0 blocked 0) := by
  obtain ⟨rfl,enough,queue,passed⟩ := balanced
  have lowered : wrap (wrap n.total - 1) = wrap (n.total - 1) := wrap_wrap_add n.total (-1)
  have less (passed : Nat) : Counts.total ⟨n.created, n.raised, n.lowered + 1, passed⟩ = n.total - 1 := by
    unfold Counts.total
    simp only
    omega
  have small : n.total ≤ intMax → wrap (n.total - 1) = n.total - 1 :=
    fun high => wrap_small (by omega) (by unfold intMax at high; omega)
  rw [lowered]
  constructor
  · intro negative
    refine ⟨by rw [less],by rw [less]; omega,fun sound => ?_,by simp only; omega⟩
    obtain ⟨high,exact_⟩ := queue sound
    have now := small high
    rw [less]
    omega
  · intro positive
    have free : 1 ≤ n.total := by
      by_contra low
      have now := small (by unfold intMax; omega)
      omega
    refine ⟨by rw [less],by rw [less]; omega,fun sound => ?_,by simp only; omega⟩
    obtain ⟨high,exact_⟩ := queue sound
    rw [less]
    omega

theorem Balanced.raise (balanced : Balanced sound value n waiting 0 blocked 0) (few : waiting ≤ 32)
    (fits : sound → value ≠ intMax) :
    (wrap (value + 1) ≤ 0 →
      Balanced sound (wrap (value + 1)) { n with raised := n.raised + 1 } waiting (-1) blocked 0) ∧
    (0 < wrap (value + 1) →
      Balanced sound (wrap (value + 1)) { n with raised := n.raised + 1 } waiting 0 blocked 0) := by
  obtain ⟨rfl,enough,queue,passed⟩ := balanced
  have raised : wrap (wrap n.total + 1) = wrap (n.total + 1) := wrap_wrap_add n.total 1
  have more : Counts.total { n with raised := n.raised + 1 } = n.total + 1 := by
    unfold Counts.total
    simp only
    omega
  have small : sound → n.total < intMax ∧ wrap (n.total + 1) = n.total + 1 := by
    intro sound
    obtain ⟨high,-⟩ := queue sound
    have apart := fits sound
    rw [wrap_small (by omega) (by unfold intMax at high; omega)] at apart
    unfold intMax at high apart ⊢
    exact ⟨by omega,wrap_small (by omega) (by omega)⟩
  rw [raised]
  constructor
  · intro low
    refine ⟨by rw [more],by rw [more]; omega,fun sound => ?_,passed⟩
    obtain ⟨high,exact_⟩ := queue sound
    obtain ⟨below,now⟩ := small sound
    rw [more]
    omega
  · intro positive
    refine ⟨by rw [more],by rw [more]; omega,fun sound => ?_,passed⟩
    obtain ⟨high,exact_⟩ := queue sound
    obtain ⟨below,now⟩ := small sound
    rw [more]
    omega

structure Law (layout : Layout) (sound : Sem → Prop) (s : Semaphores) : Prop where
  threads : Invariant s.threads
  creators : ∀ sem, s.life sem ≠ .absent → (s.table sem).creator ≠ -1
  reserved : ∀ sem value, s.life sem = .reserved value → 0 ≤ value ∧ value ≤ intMax
  holder : ∀ c sem, (s.activity c).sem = some sem → s.life sem = .live ∧ (s.table sem).slock = true
  unique : ∀ c d sem, (s.activity c).sem = some sem → (s.activity d).sem = some sem → c = d
  adding : ∀ c sem, s.activity c = .add sem →
    s.threads.cpus c = .working ∧ s.threads.currentThread c ≠ idleThreadTid
  hand : ∀ w, s.threads.waker = some w → (s.threads.threadTable w.wake).sleepsOn = w.resource ∧
    ∀ sem, (w.resource = layout.address sem ↔ s.activity w.cpu = .waking sem) ∧
      (w.resource = layout.address sem → w.all = false)
  balance : ∀ sem, s.life sem = .live → Balance layout (sound sem) s sem
  asleep : ∀ t sem, t ∈ threadIds → (s.threads.threadTable t).sleepsOn = layout.address sem →
    s.blocked t = some sem
  blocked : ∀ t sem, s.blocked t = some sem → s.life sem = .live ∧ t ∈ threadIds
  working : ∀ c, s.threads.cpus c = .working → s.blocked (s.threads.currentThread c) = none

theorem mem_threadIds (t : Int) : t ∈ threadIds ↔ 0 ≤ t ∧ t < configMaxThreads := by
  simp only [threadIds,List.mem_map,List.mem_range,configMaxThreads]
  constructor
  · rintro ⟨i,small,rfl⟩; exact ⟨Int.natCast_nonneg i,Int.ofNat_lt.mpr small⟩
  · rintro ⟨low,high⟩; exact ⟨t.toNat,by omega,Int.toNat_of_nonneg low⟩

theorem Proper.mem (proper : Proper t) : t ∈ threadIds := (mem_threadIds t).mpr ⟨proper.1.le,proper.2⟩

theorem address_toNat (layout : Layout) (sem : Sem) :
    (layout.address sem).toNat = layout.base.toNat + 12 * sem := by
  have fits := layout.fits
  have small := sem.isLt
  rw [Layout.address,UInt32.toNat_add,UInt32.toNat_mul,UInt32.toNat_ofNat',
    show UInt32.toNat 12 = 12 from rfl,Nat.mod_eq_of_lt (show (sem : Nat) < 2 ^ 32 by omega),
    Nat.mod_eq_of_lt (show 12 * (sem : Nat) < 2 ^ 32 by omega),Nat.mod_eq_of_lt (by omega)]

theorem address_ne_zero (layout : Layout) (sem : Sem) : layout.address sem ≠ 0 := by
  intro zero
  have value := address_toNat layout sem
  rw [zero] at value
  refine layout.proper (UInt32.toNat.inj ?_)
  change 0 = _ at value
  change _ = 0
  omega

theorem address_injective (layout : Layout) (same : layout.address sem = layout.address other) :
    sem = other := by
  have first := address_toNat layout sem
  have second := address_toNat layout other
  rw [same] at first
  exact Fin.ext (by omega)

theorem initial_law (layout : Layout) (sound : Sem → Prop) : Law layout sound initialSemaphores := by
  refine ⟨initial_invariant,?_,?_,?_,?_,?_,?_,?_,?_,?_,?_⟩
  all_goals simp [initialSemaphores,Activity.sem,initial]
  intro t sem _ zero
  exact address_ne_zero layout sem zero.symm

theorem sum_change {f g : Cpu → Int} (c : Cpu) (others : ∀ d, d ≠ c → g d = f d) :
    ∑ d, g d = ∑ d, f d + (g c - f c) := by
  have tail : ∑ d ∈ Finset.univ.erase c, g d = ∑ d ∈ Finset.univ.erase c, f d :=
    Finset.sum_congr rfl fun d member => others d (Finset.ne_of_mem_erase member)
  have first := Finset.add_sum_erase Finset.univ g (Finset.mem_univ c)
  have second := Finset.add_sum_erase Finset.univ f (Finset.mem_univ c)
  omega

section Steps
variable {layout : Layout} {sound : Sem → Prop} {s t : Semaphores}

theorem waiters_congr {s t : Threads} (same : ∀ u ∈ threadIds,
      ((t.threadTable u).sleepsOn = r ↔ (s.threadTable u).sleepsOn = r)) : waiters t r = waiters s r := by
  refine List.countP_congr fun u member => ?_
  simpa using same u member

theorem waiters_le (s : Threads) (resource : UInt32) : waiters s resource ≤ 32 :=
  List.countP_le_length.trans_eq rfl

theorem blockedOn_congr (same : ∀ u ∈ threadIds, (t.blocked u = some sem ↔ s.blocked u = some sem)) :
    blockedOn t sem = blockedOn s sem := by
  refine List.countP_congr fun u member => ?_
  simpa using same u member

theorem owed_congr (activity : t.activity = s.activity) (waker : t.threads.waker = s.threads.waker) :
    owed t = owed s := by
  funext sem c
  simp only [owed,activity,waker]

theorem entering_congr (activity : t.activity = s.activity) : entering t = entering s := by
  funext sem c
  simp only [entering,activity]

theorem threadIds_nodup : threadIds.Nodup := by decide

theorem Law.transfer (law : Law layout sound s) {threads : Threads} (invariant : Invariant threads)
    (same : ∀ sem u, (threads.threadTable u).sleepsOn = layout.address sem ↔
      (s.threads.threadTable u).sleepsOn = layout.address sem)
    (hand : ∀ w, threads.waker = some w → (threads.threadTable w.wake).sleepsOn = w.resource ∧
      ∀ sem, (w.resource = layout.address sem ↔ s.activity w.cpu = .waking sem) ∧
        (w.resource = layout.address sem → w.all = false))
    (owes : owed { s with threads := threads } = owed s)
    (adding : ∀ c sem, s.activity c = .add sem →
      threads.cpus c = s.threads.cpus c ∧ threads.currentThread c = s.threads.currentThread c)
    (working : ∀ c, threads.cpus c = .working → s.blocked (threads.currentThread c) = none) :
    Law layout sound { s with threads := threads } := by
  refine ⟨invariant,law.creators,law.reserved,law.holder,law.unique,?_,hand,?_,?_,law.blocked,working⟩
  · intro c sem entering
    obtain ⟨first,second⟩ := adding c sem entering
    change threads.cpus c = _ ∧ threads.currentThread c ≠ _
    rw [first,second]
    exact law.adding c sem entering
  · intro sem live
    have balance := law.balance sem live
    unfold Balance at balance ⊢
    rw [owes]
    change Balanced _ _ _ (waiters threads _) _ _ _
    rwa [waiters_congr fun u _ => same sem u]
  · intro u sem member asleep
    exact law.asleep u sem member ((same sem u).mp asleep)

theorem Law.replace (law : Law layout sound s) {threads : Threads} (invariant : Invariant threads)
    (sleeps : ∀ u, (threads.threadTable u).sleepsOn = (s.threads.threadTable u).sleepsOn)
    (waker : threads.waker = s.threads.waker)
    (adding : ∀ c sem, s.activity c = .add sem →
      threads.cpus c = s.threads.cpus c ∧ threads.currentThread c = s.threads.currentThread c)
    (working : ∀ c, threads.cpus c = .working → s.blocked (threads.currentThread c) = none) :
    Law layout sound { s with threads := threads } := by
  refine law.transfer invariant (fun sem u => by rw [sleeps]) (fun w held => ?_) (owed_congr rfl waker)
    adding working
  rw [waker] at held
  rw [sleeps]
  exact law.hand w held

/-- What a returning `semaphore_P` changes. -/
structure Returns (u : Int) (sem : Sem) (s t : Semaphores) : Prop where
  counts : ∀ x, t.counts x = if x = sem then { s.counts sem with passed := (s.counts sem).passed + 1 }
    else s.counts x
  blocked : ∀ v, t.blocked v = if v = u then none else s.blocked v
  rest : t.threads = s.threads ∧ t.table = s.table ∧ t.activity = s.activity ∧ t.life = s.life

theorem returnP_returns (blocked : s.blocked u = some sem) : Returns u sem s (returnP u s) := by
  unfold returnP
  rw [blocked]
  constructor
  · intro x; by_cases same : x = sem <;> simp [Semaphores.count,same]
  · intro v; by_cases same : v = u <;> simp [same]
  · exact ⟨rfl,rfl,rfl,rfl⟩

theorem Returns.law (returns : Returns u sem s t) (law : Law layout sound s) (blocked : s.blocked u = some sem)
    (awake : (s.threads.threadTable u).sleepsOn = 0) : Law layout sound t := by
  obtain ⟨threads,table,activity,life⟩ := returns.rest
  obtain ⟨live,member⟩ := law.blocked u sem blocked
  refine ⟨?_,?_,?_,?_,?_,?_,?_,?_,?_,?_,?_⟩
  · rw [threads]; exact law.threads
  · rw [table,life]; exact law.creators
  · rw [life]; exact law.reserved
  · rw [table,life,activity]; exact law.holder
  · rw [activity]; exact law.unique
  · rw [threads,activity]; exact law.adding
  · rw [threads,activity]; exact law.hand
  · intro x alive
    rw [life] at alive
    obtain ⟨value,enough,queue,passed⟩ := law.balance x alive
    have owes := congrFun (owed_congr (s := s) (t := t) activity (by rw [threads])) x
    have enters := congrFun (entering_congr (s := s) (t := t) activity) x
    unfold Balance
    rw [threads,table,owes,enters,returns.counts]
    by_cases same : x = sem
    · subst same
      have fewer : blockedOn s x = blockedOn t x + 1 := by
        refine countP_add_one threadIds_nodup member ?_ ?_ fun v _ apart => ?_
        · simp [returns.blocked]
        · simpa using blocked
        · simp [returns.blocked,apart]
      rw [if_pos rfl]
      refine ⟨value,enough,queue,?_⟩
      simp only
      omega
    · have others : blockedOn t x = blockedOn s x := by
        refine blockedOn_congr fun v _ => ?_
        rw [returns.blocked]
        split
        · next here => subst here; simp [blocked,Ne.symm same]
        · rfl
      rw [if_neg same,others]
      exact ⟨value,enough,queue,passed⟩
  · intro v x inside asleep
    rw [threads] at asleep
    rw [returns.blocked,if_neg]
    · exact law.asleep v x inside asleep
    · rintro rfl
      rw [awake] at asleep
      exact address_ne_zero layout x asleep.symm
  · intro v x stays
    rw [returns.blocked] at stays
    rw [life]
    split at stays
    · contradiction
    · exact law.blocked v x stays
  · intro c calm
    rw [threads] at calm ⊢
    rw [returns.blocked]
    split
    · rfl
    · exact law.working c calm

/-! ### The steps of the threads -/

theorem Law.adding_kept (law : Law layout sound s) {threads : Threads}
    (allowed : ∀ cpu ∈ a.cpu, s.activity cpu = .none) (next : step a s.threads = some threads)
    (entering : s.activity c = .add sem) :
    threads.cpus c = s.threads.cpus c ∧ threads.currentThread c = s.threads.currentThread c := by
  rcases step_cpu law.threads next c with same | ⟨-,-,t,storing,-⟩ | ⟨mine,-⟩
  · exact same
  · rw [(law.adding c sem entering).1] at storing
    contradiction
  · rw [allowed c (by simp [mine])] at entering
    contradiction

theorem returnP_threads (u : Int) (s : Semaphores) (threads : Threads) :
    returnP u { s with threads := threads } = { returnP u s with threads := threads } := by
  unfold returnP
  cases s.blocked u <;> rfl

theorem Law.store (law : Law layout sound s) {threads : Threads} (next : step (.store d) s.threads = some threads) :
    Law layout sound (returnP (threads.currentThread d) { s with threads := threads }) := by
  obtain ⟨sleeps,waker⟩ := step_plain law.threads rfl next
  obtain ⟨t,storing,current⟩ : ∃ t, s.threads.cpus d = .storing t ∧ threads.currentThread d = t := by
    rcases step_cpu law.threads next d with ⟨phase,-⟩ | ⟨-,-,t,storing,current⟩ | ⟨mine,-⟩
    · unfold step at next
      split at next
      · next enabled =>
        obtain ⟨first,second⟩ := enabled
        simp only [perform] at next
        split at next
        · next t storing =>
          cases next
          exact ⟨t,storing,by simp [storeCurrentThread]⟩
        · next calm =>
          cases phase' : s.threads.cpus d with
          | working => exact absurd phase' first
          | switching => exact absurd phase' second
          | storing t => exact absurd phase' (calm t)
      · contradiction
    · exact ⟨t,storing,current⟩
    · contradiction
  have on : onCpu s.threads d = t := by simp [onCpu,storing]
  have awake : (s.threads.threadTable t).sleepsOn = 0 := by
    by_cases idle : t = 0
    · rw [idle]; exact law.threads.rows.idle.1
    · rw [← on]
      exact (law.threads.cpus.awake d (by simp) (by rwa [on]) (by simp [storing])).2
  have returned : Law layout sound (returnP t s) ∧ (returnP t s).blocked t = none ∧
      (returnP t s).threads = s.threads ∧ (returnP t s).activity = s.activity ∧
      ∀ v, s.blocked v = none → (returnP t s).blocked v = none := by
    cases blocked : s.blocked t with
    | none =>
      have same : returnP t s = s := by simp [returnP,blocked]
      rw [same]
      exact ⟨law,blocked,rfl,rfl,fun _ h => h⟩
    | some sem =>
      have returns := returnP_returns blocked
      refine ⟨returns.law law blocked awake,by simp [returns.blocked],returns.rest.1,returns.rest.2.2.1,?_⟩
      intro v free
      rw [returns.blocked]
      split
      · rfl
      · exact free
  obtain ⟨later,free,same,activity,others⟩ := returned
  rw [current,returnP_threads]
  refine later.replace (step_invariant law.threads next) (by rw [same]; exact sleeps) (by rw [same]; exact waker)
    (fun c sem entering => ?_) fun c calm => ?_
  · rw [activity] at entering
    rw [same]
    exact law.adding_kept (by simp [Action.cpu]) next entering
  · rcases step_cpu law.threads next c with ⟨phase,unchanged⟩ | ⟨mine,-⟩ | ⟨mine,-⟩
    · rw [unchanged]
      exact others _ (law.working c (phase ▸ calm))
    · cases mine
      rw [current]
      exact free
    · contradiction

theorem Law.working_kept (law : Law layout sound s) {threads : Threads} (other : ∀ c, a ≠ .store c)
    (next : step a s.threads = some threads) (calm : threads.cpus c = .working) :
    s.blocked (threads.currentThread c) = none := by
  rcases step_cpu law.threads next c with ⟨phase,current⟩ | ⟨mine,-⟩ | ⟨-,busy⟩
  · rw [current]
    exact law.working c (phase ▸ calm)
  · exact absurd mine (other c)
  · exact absurd calm busy

theorem Law.plain (law : Law layout sound s) {threads : Threads} (plain : a.plain = true) (other : ∀ c, a ≠ .store c)
    (allowed : ∀ cpu ∈ a.cpu, s.activity cpu = .none) (next : step a s.threads = some threads) :
    Law layout sound { s with threads := threads } := by
  obtain ⟨sleeps,waker⟩ := step_plain law.threads plain next
  exact law.replace (step_invariant law.threads next) sleeps waker
    (fun c sem entering => law.adding_kept allowed next entering) fun c calm => law.working_kept other next calm

theorem step_add {s s' : Threads} (invariant : Invariant s) (next : step (.add c status resource) s = some s') :
    s.waker = none ∧ s.cpus c = .working ∧ Proper (s.currentThread c) ∧
      (s.threadTable (s.currentThread c)).sleepsOn = 0 ∧ ∃ last, Blocks c resource last s s' := by
  unfold step at next
  split at next
  case isFalse => contradiction
  next enabled =>
  obtain ⟨working,busy,address,free⟩ := enabled
  obtain ⟨u,last,added,blocks,-⟩ := invariant.add working busy address free status
  cases next.symm.trans added
  have on := onCpu_working (.inl working : s.cpus c = .working ∨ s.cpus c = .switching)
  have busy : onCpu s c ≠ 0 := by rw [on]; exact busy
  have proper := (invariant.cpus.on c (by simp) busy).1
  have awake := (invariant.cpus.awake c (by simp) busy (by simp [working])).2
  rw [on] at proper awake
  exact ⟨free,working,proper,awake,last,blocks⟩

theorem Law.addOther (law : Law layout sound s) {threads : Threads} (calm : s.activity d = .none)
    (other : ∀ sem, resource ≠ layout.address sem)
    (next : step (.add d status resource) s.threads = some threads) :
    Law layout sound { s with threads := threads } := by
  obtain ⟨free,-,-,awake,last,blocks⟩ := step_add law.threads next
  have waker := blocks.rest.2.2.2.1
  refine law.transfer (step_invariant law.threads next) (fun sem v => ?_) (fun w held => ?_)
    (owed_congr rfl waker) (fun c sem entering => law.adding_kept (by simp [Action.cpu,calm]) next entering)
    fun c calm => law.working_kept (by simp) next calm
  · rw [blocks.sleeps]
    split
    · next here =>
      subst here
      rw [awake]
      exact iff_of_false (other sem) (address_ne_zero layout sem).symm
    · rfl
  · rw [waker,free] at held
    contradiction

theorem step_wake {s s' : Threads} (invariant : Invariant s) (next : step (.wake c resource all) s = some s') :
    s.waker = none ∧ Looks s s' ∧ (∀ w, s'.waker = some w → w.cpu = c ∧ w.resource = resource ∧ w.all = all ∧
        (s.threadTable w.wake).sleepsOn = resource) ∧
      (s'.waker = none → resource ≠ 0 → ∀ t, Proper t → (s.threadTable t).sleepsOn ≠ resource) := by
  unfold step at next
  split at next
  case isFalse => contradiction
  next free =>
  obtain ⟨u,woken,looks,-,facts,none_⟩ := invariant.wake free c resource all
  cases next.symm.trans woken
  exact ⟨free,looks,facts,none_⟩

theorem Law.wakeOther (law : Law layout sound s) {threads : Threads} (calm : s.activity d = .none)
    (other : ∀ sem, resource ≠ layout.address sem)
    (next : step (.wake d resource all) s.threads = some threads) :
    Law layout sound { s with threads := threads } := by
  obtain ⟨free,looks,facts,-⟩ := step_wake law.threads next
  refine law.transfer (step_invariant law.threads next) (fun sem v => by rw [looks.sleeps]) (fun w held => ?_) ?_
    (fun c sem entering => law.adding_kept (by simp [Action.cpu,calm]) next entering)
    fun c calm => law.working_kept (by simp) next calm
  · obtain ⟨cpu,same,-,asleep⟩ := facts w held
    rw [looks.sleeps,cpu,same,calm]
    exact ⟨asleep,fun sem => ⟨by simp [other sem],fun equal => absurd equal (other sem)⟩⟩
  · funext sem c
    unfold owed
    change (match s.activity c with
      | .add x => _ | .wake x => _ | .waking x => _ | _ => _) = _
    cases acts : s.activity c with
    | waking x =>
      have apart : threads.waker.map Waker.cpu ≠ some c := by
        intro mine
        obtain ⟨w,held,same⟩ := Option.map_eq_some_iff.mp mine
        rw [(facts w held).1] at same
        rw [← same,calm] at acts
        contradiction
      simp [apart,free]
    | _ => rfl

theorem step_wakeInner {s s' : Threads} (invariant : Invariant s) (next : step (.wakeInner c) s = some s') :
    ∃ w, s.waker = some w ∧ w.cpu = c ∧ Proper w.wake ∧
      (∀ u, (s'.threadTable u).sleepsOn = if u = w.wake then 0 else (s.threadTable u).sleepsOn) ∧
      (w.all = false → s'.waker = none) ∧
      ∀ w', s'.waker = some w' → w'.cpu = w.cpu ∧ w'.resource = w.resource ∧
        (s'.threadTable w'.wake).sleepsOn = w.resource := by
  unfold step at next
  split at next
  case isFalse => contradiction
  next enabled =>
  obtain ⟨w,held,mine⟩ := Option.map_eq_some_iff.mp enabled
  obtain ⟨u,v,-,wakes,finished,looks,-,alone,facts⟩ := invariant.wakeInner held
  have same : s' = v :=
    Option.some.inj ((by simpa [perform,held] using next.symm : some s' = _).trans finished)
  subst same
  obtain ⟨ready,queue,queues,-⟩ := invariant.lists
  refine ⟨w,held,mine,(queues.hand w.wake (by simp [held])).1,fun t => ?_,alone,fun w' there => ?_⟩
  · rw [looks.sleeps,wakes.sleeps]
  · rw [looks.sleeps]
    exact facts w' there

section WakeInner
variable {threads : Threads} {w : Waker} (held : s.threads.waker = some w)
include held

theorem Law.fewer_waiters (law : Law layout sound s) (proper : Proper w.wake)
    (sleeps : ∀ u, (threads.threadTable u).sleepsOn = if u = w.wake then 0 else (s.threads.threadTable u).sleepsOn)
    (resource : w.resource = layout.address sem) (x : Sem) :
    waiters s.threads (layout.address x) = waiters threads (layout.address x) + if x = sem then 1 else 0 := by
  obtain ⟨asleep,_⟩ := law.hand w held
  split
  · next same =>
    subst same
    refine countP_add_one threadIds_nodup proper.mem ?_ ?_ fun v _ apart => ?_
    · simpa [sleeps] using (address_ne_zero layout x).symm
    · simpa [asleep] using resource
    · simp [sleeps,apart]
  · next other =>
    refine (waiters_congr fun v _ => ?_).symm
    rw [sleeps]
    split
    · next here =>
      subst here
      rw [asleep,resource]
      exact iff_of_false (address_ne_zero layout x).symm fun h => other (address_injective layout h).symm
    · rfl

theorem owed_released (waking : s.activity w.cpu = .waking sem) (released : threads.waker = none) (x : Sem) :
    ∑ c, owed { s with threads := threads } x c = ∑ c, owed s x c + if x = sem then 1 else 0 := by
  have others : ∀ c, c ≠ w.cpu → owed { s with threads := threads } x c = owed s x c := by
    intro c apart
    have before : s.threads.waker.map Waker.cpu ≠ some c := by simp [held,Ne.symm apart]
    have after : threads.waker.map Waker.cpu ≠ some c := by simp [released]
    simp only [owed,before,after]
  have change := sum_change w.cpu others
  have after : owed { s with threads := threads } x w.cpu = 0 := by simp [owed,waking,released]
  by_cases same : x = sem
  · subst same
    have before : owed s x w.cpu = -1 := by simp [owed,waking,held]
    rw [if_pos rfl]
    omega
  · have before : owed s x w.cpu = 0 := by simp [owed,waking,Ne.symm same]
    rw [if_neg same]
    omega

theorem owed_other (calm : ∀ sem, s.activity w.cpu ≠ .waking sem)
    (still : ∀ w', threads.waker = some w' → w'.cpu = w.cpu) : owed { s with threads := threads } = owed s := by
  funext sem c
  unfold owed
  change (match s.activity c with
    | .add x => _ | .wake x => _ | .waking x => _ | _ => _) = _
  cases acts : s.activity c with
  | waking x =>
    have apart : c ≠ w.cpu := by rintro rfl; exact calm x acts
    have before : s.threads.waker.map Waker.cpu ≠ some c := by simp [held,Ne.symm apart]
    have after : threads.waker.map Waker.cpu ≠ some c := by
      intro same
      obtain ⟨w',there,equal⟩ := Option.map_eq_some_iff.mp same
      rw [still w' there] at equal
      exact apart equal.symm
    simp [before,after]
  | _ => rfl

end WakeInner

/-- The inner section of a wake-up. For a `semaphore_V` it takes one waiter away. -/
theorem Law.wakeInner (law : Law layout sound s) {threads : Threads}
    (next : step (.wakeInner d) s.threads = some threads) : Law layout sound { s with threads := threads } := by
  obtain ⟨w,held,mine,proper,sleeps,alone,facts⟩ := step_wakeInner law.threads next
  subst mine
  obtain ⟨asleep,semaphores⟩ := law.hand w held
  have adding : ∀ c sem, s.activity c = .add sem →
      threads.cpus c = s.threads.cpus c ∧ threads.currentThread c = s.threads.currentThread c :=
    fun c sem entering => law.adding_kept (by simp [Action.cpu]) next entering
  have working : ∀ c, threads.cpus c = .working → s.blocked (threads.currentThread c) = none :=
    fun c calm => law.working_kept (by simp) next calm
  by_cases signal : ∃ sem, w.resource = layout.address sem
  · obtain ⟨sem,resource⟩ := signal
    have waking := (semaphores sem).1.mp resource
    have released := alone ((semaphores sem).2 resource)
    refine ⟨step_invariant law.threads next,law.creators,law.reserved,law.holder,law.unique,?_,?_,?_,?_,
      law.blocked,working⟩
    · intro c x entering
      obtain ⟨first,second⟩ := adding c x entering
      change threads.cpus c = _ ∧ threads.currentThread c ≠ _
      rw [first,second]
      exact law.adding c x entering
    · intro w' there
      have there : threads.waker = some w' := there
      rw [released] at there
      contradiction
    · intro x live
      have fewer := law.fewer_waiters held proper sleeps resource x
      have paid := owed_released held waking released x
      refine (law.balance x live).settle ?_ rfl
      simp only
      by_cases same : x = sem
      · rw [if_pos same] at fewer paid
        omega
      · rw [if_neg same] at fewer paid
        omega
    · intro v x member there
      have there : (threads.threadTable v).sleepsOn = _ := there
      rw [sleeps] at there
      split at there
      · exact absurd there.symm (address_ne_zero layout x)
      · exact law.asleep v x member there
  · have other : ∀ sem, w.resource ≠ layout.address sem := fun sem same => signal ⟨sem,same⟩
    have calm : ∀ sem, s.activity w.cpu ≠ .waking sem := fun sem waking => other sem ((semaphores sem).1.mpr waking)
    refine law.transfer (step_invariant law.threads next) (fun sem v => ?_) (fun w' there => ?_)
      (owed_other held calm fun w' there => (facts w' there).1) adding working
    · rw [sleeps]
      split
      · next here =>
        subst here
        rw [asleep]
        exact iff_of_false (address_ne_zero layout sem).symm (other sem)
      · rfl
    · obtain ⟨cpu,same,waits⟩ := facts w' there
      rw [same,cpu,waits]
      refine ⟨rfl,fun sem => ⟨?_,fun equal => absurd equal (other sem)⟩⟩
      exact iff_of_false (other sem) (calm sem)

/-! ### The sections of a semaphore -/

theorem Law.alone (law : Law layout sound s) (unlocked : (s.table sem).slock = false) (c : Cpu) :
    (s.activity c).sem ≠ some sem := by
  intro holds
  have locked := (law.holder c sem holds).2
  rw [unlocked] at locked
  contradiction

theorem sum_owed_free (free : ∀ c, (s.activity c).sem ≠ some sem) : ∑ c, owed s sem c = 0 := by
  refine Finset.sum_eq_zero fun c _ => ?_
  have free := free c
  unfold owed
  cases acts : s.activity c <;> simp_all [Activity.sem]

theorem sum_entering_free (free : ∀ c, (s.activity c).sem ≠ some sem) : ∑ c, entering s sem c = 0 := by
  refine Finset.sum_eq_zero fun c _ => ?_
  have free := free c
  unfold entering
  split
  · next acts => rw [acts] at free; exact absurd rfl free
  · rfl

/-- A CPU takes the lock of a semaphore and changes its value. -/
structure Locks (c : Cpu) (sem : Sem) (next : Activity) (entry : Semaphore) (n : Counts) (s t : Semaphores) :
    Prop where
  table : ∀ x, t.table x = if x = sem then entry else s.table x
  counts : ∀ x, t.counts x = if x = sem then n else s.counts x
  activity : ∀ d, t.activity d = if d = c then next else s.activity d
  rest : t.threads = s.threads ∧ t.life = s.life ∧ t.blocked = s.blocked

def Activity.owes : Activity → Int
  | .add _ => 1
  | .wake _ => -1
  | _ => 0

def Activity.enters : Activity → Int
  | .add _ => 1
  | _ => 0

section Locks
variable (locks : Locks c sem next entry n s t) (idle : s.activity c = .none)
  (starts : next = .add sem ∨ next = .wake sem ∨ next = .release sem)
include locks idle starts

theorem Locks.owes (x : Sem) : ∑ d, owed t x d = ∑ d, owed s x d + if x = sem then next.owes else 0 := by
  have others : ∀ d, d ≠ c → owed t x d = owed s x d := by
    intro d apart
    simp only [owed,locks.activity,if_neg apart,locks.rest.1]
  have before : owed s x c = 0 := by simp [owed,idle]
  have after : owed t x c = if x = sem then next.owes else 0 := by
    rcases starts with rfl | rfl | rfl <;> simp [owed,locks.activity,Activity.owes,eq_comm]
  have change := sum_change c others
  omega

theorem Locks.enters (x : Sem) : ∑ d, entering t x d = ∑ d, entering s x d + if x = sem then next.enters else 0 := by
  have others : ∀ d, d ≠ c → entering t x d = entering s x d := by
    intro d apart
    simp only [entering,locks.activity,if_neg apart]
  have before : entering s x c = 0 := by simp [entering,idle]
  have after : entering t x c = if x = sem then next.enters else 0 := by
    rcases starts with rfl | rfl | rfl <;> simp [entering,locks.activity,Activity.enters,eq_comm]
  have change := sum_change c others
  omega

end Locks

theorem Locks.law (locks : Locks c sem next entry n s t) (law : Law layout sound s) (idle : s.activity c = .none)
    (live : s.life sem = .live) (unlocked : (s.table sem).slock = false)
    (starts : next = .add sem ∨ next = .wake sem ∨ next = .release sem)
    (locked : entry.slock = true) (creator : entry.creator = (s.table sem).creator)
    (adding : next = .add sem → s.threads.cpus c = .working ∧ s.threads.currentThread c ≠ idleThreadTid)
    (balanced : Balanced (sound sem) entry.value n (waiters s.threads (layout.address sem)) next.owes
      (blockedOn s sem) next.enters) : Law layout sound t := by
  obtain ⟨threads,life,blocked⟩ := locks.rest
  have mine : next.sem = some sem := by rcases starts with rfl | rfl | rfl <;> rfl
  have calm : ∀ x, next ≠ .waking x := by rcases starts with rfl | rfl | rfl <;> simp
  have free := law.alone unlocked
  have acts : ∀ d x, (t.activity d).sem = some x → d = c ∧ x = sem ∨ d ≠ c ∧ (s.activity d).sem = some x := by
    intro d x holds
    rw [locks.activity] at holds
    split at holds
    · next here => exact .inl ⟨here,Option.some.inj (holds.symm.trans mine)⟩
    · next other => exact .inr ⟨other,holds⟩
  refine ⟨?_,?_,?_,?_,?_,?_,?_,?_,?_,?_,?_⟩
  · rw [threads]; exact law.threads
  · intro x exists_
    rw [life] at exists_
    rw [locks.table]
    split
    · next here => subst here; rw [creator]; exact law.creators x exists_
    · exact law.creators x exists_
  · rw [life]; exact law.reserved
  · intro d x holds
    rw [life,locks.table]
    rcases acts d x holds with ⟨-,rfl⟩ | ⟨-,before⟩
    · exact ⟨live,by simp [locked]⟩
    · rw [if_neg (by rintro rfl; exact free d before)]
      exact law.holder d x before
  · intro d e x first second
    rcases acts d x first with ⟨one,here⟩ | ⟨-,before⟩ <;>
      rcases acts e x second with ⟨two,there⟩ | ⟨-,before'⟩
    · exact one.trans two.symm
    · exact absurd (here ▸ before') (free e)
    · exact absurd (there ▸ before) (free d)
    · exact law.unique d e x before before'
  · intro d x entering
    rw [locks.activity] at entering
    rw [threads]
    split at entering
    · next here =>
      subst here
      have same : x = sem := by rw [entering] at mine; exact Option.some.inj mine
      exact adding (same ▸ entering)
    · exact law.adding d x entering
  · intro w held
    rw [threads] at held ⊢
    obtain ⟨asleep,semaphores⟩ := law.hand w held
    refine ⟨asleep,fun x => ⟨?_,(semaphores x).2⟩⟩
    rw [(semaphores x).1,locks.activity]
    split
    · next here => rw [here,idle]; exact iff_of_false (by simp) (calm x)
    · rfl
  · intro x alive
    rw [life] at alive
    have still : blockedOn t x = blockedOn s x := by unfold blockedOn; rw [blocked]
    unfold Balance
    rw [threads,locks.owes idle starts,locks.enters idle starts,still,locks.table,locks.counts]
    by_cases same : x = sem
    · subst same
      rw [sum_owed_free free,sum_entering_free free]
      simpa using balanced
    · simp only [same,if_false,add_zero]
      exact law.balance x alive
  · rw [threads,blocked]; exact law.asleep
  · rw [life,blocked]; exact law.blocked
  · rw [threads,blocked]; exact law.working

/-- Nothing is owed for a semaphore whose lock is free. -/
theorem Law.balance_free (law : Law layout sound s) (live : s.life sem = .live)
    (unlocked : (s.table sem).slock = false) : Balanced (sound sem) (s.table sem).value (s.counts sem)
      (waiters s.threads (layout.address sem)) 0 (blockedOn s sem) 0 := by
  have balance := law.balance sem live
  rwa [Balance,sum_owed_free (law.alone unlocked),sum_entering_free (law.alone unlocked)] at balance

theorem Law.p (law : Law layout sound s) (live : s.life sem = .live) (unlocked : (s.table sem).slock = false)
    (idle : s.activity c = .none) (working : s.threads.cpus c = .working)
    (busy : s.threads.currentThread c ≠ idleThreadTid ∨ 0 ≤ wrap ((s.table sem).value - 1)) :
    Law layout sound (semaphoreP c sem s) := by
  obtain ⟨stops,passes⟩ := (law.balance_free live unlocked).lower (waiters_le _ _)
  unfold semaphoreP
  simp only
  split
  · next negative =>
    have negative : wrap ((s.table sem).value - 1) < 0 := by
      simpa [Semaphores.modify,Semaphores.count] using negative
    have locks : Locks c sem (.add sem) { s.table sem with slock := true, value := wrap ((s.table sem).value - 1) }
        { s.counts sem with lowered := (s.counts sem).lowered + 1 } s
        (((s.modify sem fun e => { e with slock := true, value := wrap (e.value - 1) }).count sem fun n =>
          { n with lowered := n.lowered + 1 }).goto c (.add sem)) := by
      constructor
      · intro x; by_cases same : x = sem <;> simp [Semaphores.modify,Semaphores.count,Semaphores.goto,same]
      · intro x; by_cases same : x = sem <;> simp [Semaphores.modify,Semaphores.count,Semaphores.goto,same]
      · intro d; by_cases same : d = c <;> simp [Semaphores.modify,Semaphores.count,Semaphores.goto,same]
      · exact ⟨rfl,rfl,rfl⟩
    have busy := busy.resolve_right (by omega)
    exact locks.law law idle live unlocked (.inl rfl) rfl rfl (fun _ => ⟨working,busy⟩) (stops negative)
  · next enough =>
    have enough : 0 ≤ wrap ((s.table sem).value - 1) := by
      simpa [Semaphores.modify,Semaphores.count] using enough
    have locks : Locks c sem (.release sem) { s.table sem with slock := true, value := wrap ((s.table sem).value - 1) }
        { s.counts sem with lowered := (s.counts sem).lowered + 1, passed := (s.counts sem).passed + 1 } s
        ((((s.modify sem fun e => { e with slock := true, value := wrap (e.value - 1) }).count sem fun n =>
          { n with lowered := n.lowered + 1 }).count sem fun n => { n with passed := n.passed + 1 }).goto c
          (.release sem)) := by
      constructor
      · intro x; by_cases same : x = sem <;> simp [Semaphores.modify,Semaphores.count,Semaphores.goto,same]
      · intro x; by_cases same : x = sem <;> simp [Semaphores.modify,Semaphores.count,Semaphores.goto,same]
      · intro d; by_cases same : d = c <;> simp [Semaphores.modify,Semaphores.count,Semaphores.goto,same]
      · exact ⟨rfl,rfl,rfl⟩
    exact locks.law law idle live unlocked (.inr (.inr rfl)) rfl rfl (by simp) (passes enough)

theorem Law.v (law : Law layout sound s) (live : s.life sem = .live) (unlocked : (s.table sem).slock = false)
    (idle : s.activity c = .none) (fits : sound sem → (s.table sem).value ≠ intMax) :
    Law layout sound (semaphoreV c sem s) := by
  obtain ⟨wakes,raises⟩ := (law.balance_free live unlocked).raise (waiters_le _ _) fits
  have locks : ∀ next, Locks c sem next { s.table sem with slock := true, value := wrap ((s.table sem).value + 1) }
      { s.counts sem with raised := (s.counts sem).raised + 1 } s
      (((s.modify sem fun e => { e with slock := true, value := wrap (e.value + 1) }).count sem fun n =>
        { n with raised := n.raised + 1 }).goto c next) := by
    intro next
    constructor
    · intro x; by_cases same : x = sem <;> simp [Semaphores.modify,Semaphores.count,Semaphores.goto,same]
    · intro x; by_cases same : x = sem <;> simp [Semaphores.modify,Semaphores.count,Semaphores.goto,same]
    · intro d; by_cases same : d = c <;> simp [Semaphores.modify,Semaphores.count,Semaphores.goto,same]
    · exact ⟨rfl,rfl,rfl⟩
  unfold semaphoreV
  simp only
  split
  · next waiting =>
    have waiting : wrap ((s.table sem).value + 1) ≤ 0 := by
      simpa [Semaphores.modify,Semaphores.count] using waiting
    exact (locks _).law law idle live unlocked (.inr (.inl rfl)) rfl rfl (by simp) (wakes waiting)
  · next nobody =>
    have nobody : 0 < wrap ((s.table sem).value + 1) := by
      simpa [Semaphores.modify,Semaphores.count] using nobody
    exact (locks _).law law idle live unlocked (.inr (.inr rfl)) rfl rfl (by simp) (raises nobody)

end Steps

end Buenos.Kernel
