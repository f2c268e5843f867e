import Buenos.Kernel.SemaphoreCount
import Mathlib.Algebra.Order.BigOperators.Group.Finset

/-! The rest of the sections of a semaphore, and the law over whole runs. -/
namespace Buenos.Kernel

open Buenos.Foundation

section Steps
variable {layout : Layout} {sound : Sem → Prop} {s t : Semaphores}

theorem Law.sum_owed (law : Law layout sound s) (holds : (s.activity c).sem = some sem) :
    ∑ d, owed s sem d = owed s sem c := by
  refine Finset.sum_eq_single_of_mem c (Finset.mem_univ c) fun d _ apart => ?_
  by_contra owes
  refine apart (law.unique d c sem ?_ holds)
  unfold owed at owes
  cases acts : s.activity d <;> simp_all [Activity.sem]

structure Advances (c : Cpu) (next : Activity) (s t : Semaphores) : Prop where
  activity : ∀ d, t.activity d = if d = c then next else s.activity d
  rest : t.table = s.table ∧ t.life = s.life ∧ t.counts = s.counts

theorem Advances.sem (advances : Advances c next s t) (same : next.sem = (s.activity c).sem) (d : Cpu) :
    (t.activity d).sem = (s.activity d).sem := by
  rw [advances.activity]
  split
  · next here => rw [here,same]
  · rfl

structure Adds (layout : Layout) (c : Cpu) (sem : Sem) (last : Int) (s t : Semaphores) : Prop where
  acts : s.activity c = .add sem
  advances : Advances c (.release sem) s t
  blocked : ∀ u, t.blocked u = if u = s.threads.currentThread c then some sem else s.blocked u
  blocks : Blocks c (layout.address sem) last s.threads t.threads
  proper : Proper (s.threads.currentThread c)
  awake : (s.threads.threadTable (s.threads.currentThread c)).sleepsOn = 0
  working : s.threads.cpus c = .working

section Adds
variable {c : Cpu} {sem x : Sem} {last : Int} (adds : Adds layout c sem last s t)
include adds

theorem Adds.cpus (apart : d ≠ c) : t.threads.cpus d = s.threads.cpus d := by
  rw [adds.blocks.cpus,Function.update_of_ne apart]

theorem Adds.waiters_more : waiters t.threads (layout.address sem) = waiters s.threads (layout.address sem) + 1 := by
  refine countP_add_one threadIds_nodup adds.proper.mem ?_ ?_ fun v _ apart => ?_
  · simpa [adds.awake] using (address_ne_zero layout sem).symm
  · simp [adds.blocks.sleeps]
  · simp [adds.blocks.sleeps,apart]

theorem Adds.waiters_same (other : x ≠ sem) : waiters t.threads (layout.address x) = waiters s.threads (layout.address x) := by
  refine waiters_congr fun v _ => ?_
  rw [adds.blocks.sleeps]
  split
  · next here =>
    subst here
    rw [adds.awake]
    exact iff_of_false (fun h => other (address_injective layout h).symm) (address_ne_zero layout x).symm
  · rfl

theorem Adds.blockedOn_more (law : Law layout sound s) : blockedOn t sem = blockedOn s sem + 1 := by
  have before := law.working c adds.working
  refine countP_add_one threadIds_nodup adds.proper.mem ?_ ?_ fun v _ apart => ?_
  · simp [before]
  · simp [adds.blocked]
  · simp [adds.blocked,apart]

theorem Adds.blockedOn_same (law : Law layout sound s) (other : x ≠ sem) : blockedOn t x = blockedOn s x := by
  have before := law.working c adds.working
  refine blockedOn_congr fun v _ => ?_
  rw [adds.blocked]
  split
  · next here => subst here; simp [before,Ne.symm other]
  · rfl

theorem Adds.balance (law : Law layout sound s) (alive : s.life x = .live) : Balance layout (sound x) t x := by
  obtain ⟨table,_,counts⟩ := adds.advances.rest
  have waker : t.threads.waker = s.threads.waker := adds.blocks.rest.2.2.2.1
  have owes := sum_change (f := owed s x) (g := owed t x) c fun d apart => by
    simp only [owed,adds.advances.activity,if_neg apart,waker]
  have enters := sum_change (f := entering s x) (g := entering t x) c fun d apart => by
    simp only [entering,adds.advances.activity,if_neg apart]
  have owedAfter : owed t x c = 0 := by simp [owed,adds.advances.activity]
  have enteringAfter : entering t x c = 0 := by simp [entering,adds.advances.activity]
  rw [Balance,table,counts]
  by_cases same : x = sem
  · subst same
    have owedBefore : owed s x c = 1 := by simp [owed,adds.acts]
    have enteringBefore : entering s x c = 1 := by simp [entering,adds.acts]
    have more := adds.waiters_more
    have longer := adds.blockedOn_more law
    exact (law.balance x alive).settle (by omega) (by omega)
  · have owedBefore : owed s x c = 0 := by simp [owed,adds.acts,Ne.symm same]
    have enteringBefore : entering s x c = 0 := by simp [entering,adds.acts,Ne.symm same]
    have equal := adds.waiters_same same
    have still := adds.blockedOn_same law same
    exact (law.balance x alive).settle (by omega) (by omega)

theorem Adds.calm (law : Law layout sound s) (d : Cpu) (calm : t.threads.cpus d = .working) :
    t.blocked (t.threads.currentThread d) = none := by
  have current : t.threads.currentThread = s.threads.currentThread := adds.blocks.rest.2.2.1
  have apart : d ≠ c := by
    rintro rfl
    rw [adds.blocks.cpus,Function.update_self] at calm
    contradiction
  rw [adds.cpus apart] at calm
  rw [adds.blocked,current,if_neg]
  · exact law.working d calm
  · intro shared
    -- two CPUs that work do not work for one thread, unless it is the idle thread
    have first := onCpu_working (.inl calm : s.threads.cpus d = .working ∨ s.threads.cpus d = .switching)
    have second := onCpu_working (.inl adds.working : s.threads.cpus c = .working ∨ s.threads.cpus c = .switching)
    refine apart (law.threads.cpus.apart d c (by simp) (by simp) ?_ (by rw [first,second,shared]))
    rw [first,shared]
    have positive := adds.proper.1
    omega

theorem Adds.law (law : Law layout sound s) (invariant : Invariant t.threads) (free : s.threads.waker = none) :
    Law layout sound t := by
  obtain ⟨table,life,_⟩ := adds.advances.rest
  obtain ⟨_,_,current,waker,_⟩ := adds.blocks.rest
  have sems := adds.advances.sem (by rw [adds.acts]; rfl)
  have live := (law.holder c sem (by rw [adds.acts]; rfl)).1
  refine ⟨invariant,?_,?_,?_,?_,?_,?_,?_,?_,?_,adds.calm law⟩
  · rw [life,table]
    exact law.creators
  · rw [life]
    exact law.reserved
  · intro d x holds
    rw [life,table]
    exact law.holder d x (sems d ▸ holds)
  · intro d e x first second
    exact law.unique d e x (sems d ▸ first) (sems e ▸ second)
  · intro d x entering
    rw [adds.advances.activity] at entering
    split at entering
    · contradiction
    · next apart =>
      rw [adds.cpus apart,current]
      exact law.adding d x entering
  · intro w held
    rw [waker,free] at held
    contradiction
  · intro x alive
    rw [life] at alive
    exact adds.balance law alive
  · intro u x member there
    rw [adds.blocks.sleeps] at there
    rw [adds.blocked]
    split at there
    · next here => rw [if_pos here,address_injective layout there]
    · next apart => rw [if_neg apart]; exact law.asleep u x member there
  · intro u x waits
    rw [adds.blocked] at waits
    rw [life]
    split at waits
    · next here =>
      subst here
      cases waits
      exact ⟨live,adds.proper.mem⟩
    · exact law.blocked u x waits

end Adds

theorem Law.add (law : Law layout sound s) {threads : Threads} (acts : s.activity c = .add sem)
    (next : step (.add c status (layout.address sem)) s.threads = some threads) :
    Law layout sound { s.goto c (.release sem) with
      threads := threads
      blocked := Function.update s.blocked (s.threads.currentThread c) (some sem) } := by
  obtain ⟨free,working,proper,awake,last,blocks⟩ := step_add law.threads next
  have adds : Adds layout c sem last s { s.goto c (.release sem) with
      threads := threads
      blocked := Function.update s.blocked (s.threads.currentThread c) (some sem) } := by
    refine ⟨acts,⟨?_,rfl,rfl,rfl⟩,?_,blocks,proper,awake,working⟩
    · intro d
      by_cases same : d = c <;> simp [Semaphores.goto,same]
    · intro u
      by_cases same : u = s.threads.currentThread c <;> simp [same]
  exact adds.law law (step_invariant law.threads next) free

/-- By the balance somebody waits where a `semaphore_V` is to wake a thread. -/
theorem Law.waiting (law : Law layout sound s) (safe : sound sem) (acts : s.activity c = .wake sem) :
    waiters s.threads (layout.address sem) ≠ 0 := by
  intro empty
  have mine : (s.activity c).sem = some sem := by rw [acts]; rfl
  obtain ⟨-,queue⟩ := (law.balance sem (law.holder c sem mine).1).queue safe
  rw [law.sum_owed mine,empty] at queue
  simp only [owed,acts,if_true] at queue
  omega

/-- So `sleepq_wake` finds a thread. -/
theorem Law.wakes (law : Law layout sound s) (safe : sound sem) {threads : Threads} (acts : s.activity c = .wake sem)
    (next : step (.wake c (layout.address sem) false) s.threads = some threads) : ∃ w, threads.waker = some w := by
  obtain ⟨_,_,_,nobody⟩ := step_wake law.threads next
  cases found : threads.waker with
  | some w => exact ⟨w,rfl⟩
  | none =>
    have alone := nobody found (address_ne_zero layout sem)
    refine absurd (List.countP_eq_zero.mpr fun u member => ?_) (law.waiting safe acts)
    obtain ⟨low,high⟩ := (mem_threadIds u).mp member
    simp only [decide_eq_true_eq]
    by_cases idle : u = 0
    · rw [idle,law.threads.rows.idle.1]; exact (address_ne_zero layout sem).symm
    · exact alone u ⟨by omega,high⟩

/-- The one that is woken is still owed until it has left the queue. -/
theorem Advances.balance_wake {sem x : Sem} (advances : Advances c (.waking sem) s t) (law : Law layout sound s)
    (acts : s.activity c = .wake sem) (free : s.threads.waker = none)
    (cpu : ∀ w, t.threads.waker = some w → w.cpu = c) (finds : sound sem → t.threads.waker ≠ none)
    (sleeps : ∀ u, (t.threads.threadTable u).sleepsOn = (s.threads.threadTable u).sleepsOn) (blocked : t.blocked = s.blocked)
    (alive : s.life x = .live) : Balance layout (sound x) t x := by
  have balance := law.balance x alive
  obtain ⟨table,_,counts⟩ := advances.rest
  have owes := sum_change (f := owed s x) (g := owed t x) c fun d apart => by
    have away : t.threads.waker.map Waker.cpu ≠ some d := by
      intro mine
      obtain ⟨w,held,same⟩ := Option.map_eq_some_iff.mp mine
      exact apart (same.symm.trans (cpu w held))
    simp only [owed,advances.activity,if_neg apart]
    cases other : s.activity d with
    | waking y => simp [away,free]
    | _ => rfl
  have enters : ∀ d, entering t x d = entering s x d := by
    intro d
    by_cases here : d = c <;> simp [entering,advances.activity,here,acts]
  have equal : waiters t.threads (layout.address x) = waiters s.threads (layout.address x) :=
    waiters_congr fun u _ => by rw [sleeps]
  have still : blockedOn t x = blockedOn s x := blockedOn_congr fun u _ => by rw [blocked]
  rw [Balance,table,counts,equal,still,owes,Finset.sum_congr rfl fun d _ => enters d]
  cases found : t.threads.waker with
  | some w =>
    have same : owed t x c = owed s x c := by simp [owed,advances.activity,acts,found,cpu w found]
    exact balance.settle (by omega) rfl
  | none =>
    have paid : owed t x c = 0 := by simp [owed,advances.activity,found]
    by_cases here : x = sem
    · -- nobody waits, which happens only after an overflow
      subst here
      have before : owed s x c = -1 := by simp [owed,acts]
      exact ⟨balance.total,by have := balance.enough; omega,fun safe => absurd found (finds safe),balance.passed⟩
    · have before : owed s x c = 0 := by simp [owed,acts,Ne.symm here]
      exact balance.settle (by omega) rfl

theorem Law.wake (law : Law layout sound s) {threads : Threads} (acts : s.activity c = .wake sem)
    (next : step (.wake c (layout.address sem) false) s.threads = some threads) :
    Law layout sound { s.goto c (.waking sem) with threads := threads } := by
  obtain ⟨free,looks,facts,_⟩ := step_wake law.threads next
  obtain ⟨current,cpus,-⟩ := looks.rest
  set t : Semaphores := { s.goto c (.waking sem) with threads := threads } with result
  have advances : Advances c (.waking sem) s t :=
    ⟨fun d => by by_cases same : d = c <;> simp [result,Semaphores.goto,same],rfl,rfl,rfl⟩
  have sems := advances.sem (by rw [acts]; rfl)
  refine ⟨step_invariant law.threads next,law.creators,law.reserved,?_,?_,?_,?_,?_,?_,law.blocked,?_⟩
  · intro d x holds
    exact law.holder d x (sems d ▸ holds)
  · intro d e x first second
    exact law.unique d e x (sems d ▸ first) (sems e ▸ second)
  · intro d x entering
    rw [advances.activity] at entering
    split at entering
    · contradiction
    · change threads.cpus d = _ ∧ threads.currentThread d ≠ _
      rw [cpus,current]
      exact law.adding d x entering
  · intro w held
    obtain ⟨cpu,resource,single,asleep⟩ := facts w held
    change (threads.threadTable w.wake).sleepsOn = _ ∧ _
    rw [looks.sleeps,advances.activity,if_pos cpu,resource]
    refine ⟨asleep,fun x => ⟨?_,fun _ => single⟩⟩
    constructor
    · intro same; rw [address_injective layout same]
    · intro same; cases same; rfl
  · intro x alive
    refine advances.balance_wake law acts free (fun w held => (facts w held).1) (fun safe => ?_) looks.sleeps rfl alive
    obtain ⟨w,held⟩ := law.wakes safe acts next
    exact Option.ne_none_iff_exists'.mpr ⟨w,held⟩
  · intro u x member there
    have there : (threads.threadTable u).sleepsOn = layout.address x := there
    rw [looks.sleeps] at there
    exact law.asleep u x member there
  · intro d calm
    have calm : threads.cpus d = .working := calm
    change s.blocked (threads.currentThread d) = none
    rw [cpus] at calm
    rw [current]
    exact law.working d calm

theorem Law.release (law : Law layout sound s) (mine : (s.activity c).sem = some sem)
    (paid : ∀ x, owed s x c = 0) (entered : ∀ x, s.activity c ≠ .add x)
    (calm : ∀ w, s.threads.waker = some w → w.cpu = c → ∀ x, s.activity c ≠ .waking x) :
    Law layout sound (releaseSlock c sem s) := by
  set t := releaseSlock c sem s with result
  have table : ∀ x, t.table x = if x = sem then { s.table sem with slock := false } else s.table x := by
    intro x; by_cases same : x = sem <;> simp [result,releaseSlock,Semaphores.modify,Semaphores.goto,same]
  have activity : ∀ d, t.activity d = if d = c then .none else s.activity d := by
    intro d; by_cases same : d = c <;> simp [result,releaseSlock,Semaphores.modify,Semaphores.goto,same]
  have others : ∀ d x, (t.activity d).sem = some x → d ≠ c ∧ (s.activity d).sem = some x := by
    intro d x holds
    rw [activity] at holds
    split at holds
    · contradiction
    · next apart => exact ⟨apart,holds⟩
  refine ⟨law.threads,?_,law.reserved,?_,?_,?_,?_,?_,law.asleep,law.blocked,law.working⟩
  · intro x exists_
    rw [table]
    split
    · next here => subst here; exact law.creators x exists_
    · exact law.creators x exists_
  · intro d x holds
    obtain ⟨apart,before⟩ := others d x holds
    rw [table,if_neg (by rintro rfl; exact apart (law.unique d c x before mine))]
    exact law.holder d x before
  · intro d e x first second
    exact law.unique d e x (others d x first).2 (others e x second).2
  · intro d x entering
    rw [activity] at entering
    split at entering
    · contradiction
    · exact law.adding d x entering
  · intro w held
    obtain ⟨asleep,semaphores⟩ := law.hand w held
    refine ⟨asleep,fun x => ⟨?_,(semaphores x).2⟩⟩
    rw [activity,(semaphores x).1]
    split
    · next here => rw [here]; exact iff_of_false (calm w held here x) (by simp)
    · rfl
  · intro x alive
    have balance := law.balance x alive
    have owes : ∀ d, owed t x d = owed s x d := by
      intro d
      by_cases here : d = c
      · subst here; rw [paid]; simp [owed,activity]
      · simp only [owed,activity,if_neg here]
        rfl
    have enters : ∀ d, entering t x d = entering s x d := by
      intro d
      by_cases here : d = c
      · subst here; simp [entering,activity,entered]
      · simp [entering,activity,here]
    have value : (t.table x).value = (s.table x).value := by
      rw [table]
      split
      · next here => rw [here]
      · rfl
    unfold Balance
    rw [Finset.sum_congr rfl fun d _ => owes d,Finset.sum_congr rfl fun d _ => enters d,value]
    exact balance

/-! ### Creation and destruction -/

structure Revives (sem : Sem) (fate : Life) (entry : Semaphore) (n : Counts) (s t : Semaphores) : Prop where
  life : ∀ x, t.life x = if x = sem then fate else s.life x
  table : ∀ x, t.table x = if x = sem then entry else s.table x
  counts : ∀ x, x ≠ sem → t.counts x = s.counts x
  here : t.counts sem = n
  rest : t.threads = s.threads ∧ t.activity = s.activity ∧ t.blocked = s.blocked

theorem Revives.law {sound' : Sem → Prop} (revives : Revives sem fate entry n s t) (law : Law layout sound s)
    (others : ∀ x, x ≠ sem → sound' x → sound x) (unheld : ∀ c, (s.activity c).sem ≠ some sem)
    (unblocked : ∀ u, s.blocked u ≠ some sem)
    (creator : fate ≠ .absent → entry.creator ≠ -1)
    (reserved : ∀ value, fate = .reserved value → 0 ≤ value ∧ value ≤ intMax)
    (starts : fate = .live → (0 ≤ entry.value ∧ entry.value ≤ intMax) ∧ n = ⟨entry.value, 0, 0, 0⟩) :
    Law layout sound' t := by
  obtain ⟨threads,activity,blocked⟩ := revives.rest
  refine ⟨?_,?_,?_,?_,?_,?_,?_,?_,?_,?_,?_⟩
  · rw [threads]; exact law.threads
  · intro x exists_
    rw [revives.life] at exists_
    rw [revives.table]
    split at exists_
    · next here => rw [if_pos here]; exact creator exists_
    · next apart => rw [if_neg apart]; exact law.creators x exists_
  · intro x value planned
    rw [revives.life] at planned
    split at planned
    · exact reserved value planned
    · exact law.reserved x value planned
  · intro c x holds
    rw [activity] at holds
    have apart : x ≠ sem := by rintro rfl; exact unheld c holds
    rw [revives.life,revives.table,if_neg apart,if_neg apart]
    exact law.holder c x holds
  · rw [activity]; exact law.unique
  · rw [threads,activity]; exact law.adding
  · rw [threads,activity]; exact law.hand
  · intro x alive
    rw [revives.life] at alive
    have owes := congrFun (owed_congr (s := s) (t := t) activity (by rw [threads])) x
    have enters := congrFun (entering_congr (s := s) (t := t) activity) x
    have still : blockedOn t x = blockedOn s x := by unfold blockedOn; rw [blocked]
    unfold Balance
    rw [threads,owes,enters,still,revives.table]
    split at alive
    · next here =>
      subst here
      obtain ⟨⟨enough,high⟩,counts⟩ := starts alive
      have none_ : blockedOn s x = 0 := List.countP_eq_zero.mpr fun u _ => by simpa using unblocked u
      have awake : waiters s.threads (layout.address x) = 0 := by
        refine List.countP_eq_zero.mpr fun u member => ?_
        simp only [decide_eq_true_eq]
        exact fun asleep => unblocked u (law.asleep u x member asleep)
      rw [if_pos rfl,revives.here,counts,sum_owed_free unheld,sum_entering_free unheld,none_,awake]
      have total : Counts.total ⟨entry.value, 0, 0, 0⟩ = entry.value := by simp [Counts.total]
      unfold intMax at high
      refine ⟨?_,?_,fun _ => ?_,by simp⟩
      · rw [total,wrap_small (by omega) (by omega)]
      · rw [total]; omega
      · rw [total]; unfold intMax; omega
    · next apart =>
      rw [if_neg apart,revives.counts x apart]
      obtain ⟨total,enough,queue,passed⟩ := law.balance x alive
      exact ⟨total,enough,fun safe => queue (others x apart safe),passed⟩
  · rw [threads,blocked]; exact law.asleep
  · intro u x waits
    rw [blocked] at waits
    rw [revives.life,if_neg (by rintro rfl; exact unblocked u waits)]
    exact law.blocked u x waits
  · rw [threads,blocked]; exact law.working

/-- Before its `live` part a semaphore is not used. -/
theorem Law.unused (law : Law layout sound s) (dead : s.life sem ≠ .live) :
    (∀ c, (s.activity c).sem ≠ some sem) ∧ ∀ u, s.blocked u ≠ some sem :=
  ⟨fun c holds => dead (law.holder c sem holds).1,fun u waits => dead (law.blocked u sem waits).1⟩

theorem Law.create (law : Law layout sound s) (high : value ≤ intMax) (enough : 0 ≤ value)
    (working : s.threads.cpus c = .working) (unused : (s.table sem).creator = -1) :
    Law layout sound { s.modify sem fun e => { e with creator := s.threads.currentThread c } with
      next := sem + 1
      life := Function.update s.life sem (.reserved value) } := by
  have dead : s.life sem = .absent := by
    by_contra exists_
    exact law.creators sem exists_ unused
  obtain ⟨unheld,unblocked⟩ := law.unused (by rw [dead]; simp : s.life sem ≠ .live)
  have revives : Revives sem (.reserved value) { s.table sem with creator := s.threads.currentThread c }
      (s.counts sem) s { s.modify sem fun e => { e with creator := s.threads.currentThread c } with
        next := sem + 1
        life := Function.update s.life sem (.reserved value) } := by
    constructor
    · intro x; by_cases same : x = sem <;> simp [same]
    · intro x; by_cases same : x = sem <;> simp [Semaphores.modify,same]
    · exact fun _ _ => rfl
    · rfl
    · exact ⟨rfl,rfl,rfl⟩
  refine revives.law law (fun _ _ safe => safe) unheld unblocked (fun _ => ?_)
    (fun v same => by cases same; exact ⟨enough,high⟩) (by simp)
  have on := onCpu_working (.inl working : s.threads.cpus c = .working ∨ s.threads.cpus c = .switching)
  intro nobody
  have nobody : s.threads.currentThread c = -1 := nobody
  have proper := (law.threads.cpus.on c (by simp) (by rw [on,nobody]; decide)).1.1
  rw [on,nobody] at proper
  contradiction

theorem Law.initialise {sound' : Sem → Prop} (law : Law layout sound s) (others : ∀ x, x ≠ sem → sound' x → sound x)
    (reserved : s.life sem = .reserved value) : Law layout sound' (semaphoreInitialise sem value s) := by
  obtain ⟨unheld,unblocked⟩ := law.unused (by rw [reserved]; simp : s.life sem ≠ .live)
  have revives : Revives sem .live { s.table sem with value := value, slock := false } ⟨value, 0, 0, 0⟩ s
      (semaphoreInitialise sem value s) := by
    constructor
    · intro x; by_cases same : x = sem <;> simp [semaphoreInitialise,same]
    · intro x; by_cases same : x = sem <;> simp [semaphoreInitialise,Semaphores.modify,same]
    · intro x apart; simp [semaphoreInitialise,apart]
    · simp [semaphoreInitialise]
    · exact ⟨rfl,rfl,rfl⟩
  exact revives.law law others unheld unblocked (fun _ => law.creators sem (by rw [reserved]; simp)) (by simp)
    fun _ => ⟨law.reserved sem value reserved,rfl⟩

theorem Law.destroy (law : Law layout sound s) (unheld : ∀ c, (s.activity c).sem ≠ some sem)
    (unblocked : ∀ u ∈ threadIds, s.blocked u ≠ some sem) : Law layout sound (semaphoreDestroy sem s) := by
  have revives : Revives sem .absent { s.table sem with creator := -1 } (s.counts sem) s
      (semaphoreDestroy sem s) := by
    constructor
    · intro x; by_cases same : x = sem <;> simp [semaphoreDestroy,same]
    · intro x; by_cases same : x = sem <;> simp [semaphoreDestroy,Semaphores.modify,same]
    · exact fun _ _ => rfl
    · rfl
    · exact ⟨rfl,rfl,rfl⟩
  exact revives.law law (fun _ _ safe => safe) unheld (fun u waits => unblocked u (law.blocked u sem waits).2 waits)
    (by simp) (by simp) (by simp)

/-! ### Runs -/

/-- What each action does, and when. -/
inductive SemStepped (layout : Layout) (s : Semaphores) : SemAction → Semaphores → Prop where
  | store (cpu : Cpu) (threads : Threads) (performed : step (.store cpu) s.threads = some threads) :
    SemStepped layout s (.threads (.store cpu)) (returnP (threads.currentThread cpu) { s with threads := threads })
  | threads (a : Action) (threads : Threads) (plain : ∀ cpu, a ≠ .store cpu)
    (idle : ∀ cpu ∈ a.cpu, s.activity cpu = .none) (other : ∀ sem, a.resource ≠ some (layout.address sem))
    (performed : step a s.threads = some threads) : SemStepped layout s (.threads a) { s with threads := threads }
  | full (cpu : Cpu) (value : Int) : SemStepped layout s (.create cpu value) s
  | create (cpu : Cpu) (value : Int) (sem : Sem) (high : value ≤ intMax) (enough : 0 ≤ value)
    (working : s.threads.cpus cpu = .working) (unused : (s.table sem).creator = -1) :
    SemStepped layout s (.create cpu value) { s.modify sem fun e => { e with creator := s.threads.currentThread cpu } with
      next := sem + 1
      life := Function.update s.life sem (.reserved value) }
  | initialise (sem : Sem) (value : Int) (reserved : s.life sem = .reserved value) :
    SemStepped layout s (.initialise sem) (semaphoreInitialise sem value s)
  | destroy (sem : Sem) (unheld : ∀ cpu, (s.activity cpu).sem ≠ some sem)
    (unblocked : ∀ u ∈ threadIds, s.blocked u ≠ some sem) : SemStepped layout s (.destroy sem) (semaphoreDestroy sem s)
  | p (cpu : Cpu) (sem : Sem) (live : s.life sem = .live) (unlocked : (s.table sem).slock = false)
    (idle : s.activity cpu = .none) (working : s.threads.cpus cpu = .working)
    (busy : s.threads.currentThread cpu ≠ idleThreadTid ∨ 0 ≤ wrap ((s.table sem).value - 1)) :
    SemStepped layout s (.p cpu sem) (semaphoreP cpu sem s)
  | add (cpu : Cpu) (status : UInt32) (sem : Sem) (threads : Threads) (acts : s.activity cpu = .add sem)
    (performed : step (.add cpu status (layout.address sem)) s.threads = some threads) :
    SemStepped layout s (.add cpu status) { s.goto cpu (.release sem) with
      threads := threads
      blocked := Function.update s.blocked (s.threads.currentThread cpu) (some sem) }
  | v (cpu : Cpu) (sem : Sem) (live : s.life sem = .live) (unlocked : (s.table sem).slock = false)
    (idle : s.activity cpu = .none) : SemStepped layout s (.v cpu sem) (semaphoreV cpu sem s)
  | wake (cpu : Cpu) (sem : Sem) (threads : Threads) (acts : s.activity cpu = .wake sem)
    (performed : step (.wake cpu (layout.address sem) false) s.threads = some threads) :
    SemStepped layout s (.wake cpu) { s.goto cpu (.waking sem) with threads := threads }
  | release (cpu : Cpu) (sem : Sem) (acts : s.activity cpu = .release sem ∨
      s.activity cpu = .waking sem ∧ s.threads.waker.map Waker.cpu ≠ some cpu) :
    SemStepped layout s (.release cpu) (releaseSlock cpu sem s)

theorem semStep_threads (next : semStep layout (.threads a) s = some t) : SemStepped layout s (.threads a) t := by
  simp only [semStep] at next
  split at next
  case isFalse => contradiction
  next allowed =>
  obtain ⟨threads,performed,rfl⟩ := Option.map_eq_some_iff.mp next
  cases a with
  | store cpu => exact .store cpu threads performed
  | _ => exact .threads _ threads (by simp) allowed.1 allowed.2 performed

theorem semStep_create (next : semStep layout (.create cpu value) s = some t) :
    SemStepped layout s (.create cpu value) t := by
  simp only [semStep,semaphoreCreate] at next
  split at next
  case isFalse => contradiction
  next allowed =>
  split at next
  case isFalse => contradiction
  next enough =>
  cases next
  split
  · exact .full cpu value
  · next sem found =>
    exact .create cpu value sem allowed.1 enough allowed.2.2 (by simpa using List.find?_some found)

theorem semStep_stepped (next : semStep layout a s = some t) : SemStepped layout s a t := by
  cases a with
  | threads a => exact semStep_threads next
  | create cpu value => exact semStep_create next
  | initialise sem =>
    simp only [semStep] at next
    split at next
    · next value reserved => cases next; exact .initialise sem value reserved
    · contradiction
  | destroy sem =>
    simp only [semStep] at next
    split at next
    · next enabled => cases next; exact .destroy sem enabled.2.1 enabled.2.2
    · contradiction
  | p cpu sem =>
    simp only [semStep] at next
    split at next
    · next enabled =>
      obtain ⟨live,unlocked,idle,working,busy⟩ := enabled
      cases next
      exact .p cpu sem live unlocked idle working busy
    · contradiction
  | add cpu status =>
    simp only [semStep] at next
    split at next
    · next sem acts =>
      obtain ⟨threads,performed,rfl⟩ := Option.map_eq_some_iff.mp next
      exact .add cpu status sem threads acts performed
    · contradiction
  | v cpu sem =>
    simp only [semStep] at next
    split at next
    · next enabled => cases next; exact .v cpu sem enabled.1 enabled.2.1 enabled.2.2
    · contradiction
  | wake cpu =>
    simp only [semStep] at next
    split at next
    · next sem acts =>
      obtain ⟨threads,performed,rfl⟩ := Option.map_eq_some_iff.mp next
      exact .wake cpu sem threads acts performed
    · contradiction
  | release cpu =>
    simp only [semStep] at next
    split at next
    · next sem acts => cases next; exact .release cpu sem (.inl acts)
    · next sem acts =>
      split at next
      · next away => cases next; exact .release cpu sem (.inr ⟨acts,away⟩)
      · contradiction
    · contradiction

theorem Law.threadStep {threads : Threads} (law : Law layout sound s) (plain : ∀ cpu, a ≠ .store cpu)
    (idle : ∀ cpu ∈ a.cpu, s.activity cpu = .none) (other : ∀ sem, a.resource ≠ some (layout.address sem))
    (performed : step a s.threads = some threads) : Law layout sound { s with threads := threads } := by
  cases a with
  | store cpu => exact absurd rfl (plain cpu)
  | add cpu status resource =>
    exact law.addOther (idle cpu rfl) (fun sem same => other sem (by rw [← same]; rfl)) performed
  | wake cpu resource all =>
    exact law.wakeOther (idle cpu rfl) (fun sem same => other sem (by rw [← same]; rfl)) performed
  | wakeInner cpu => exact law.wakeInner performed
  | _ => exact law.plain rfl (by simp) idle performed

def SemAction.starts (sem : Sem) : SemAction → Bool
  | .p _ x => x = sem
  | _ => false

def SemAction.raises (sem : Sem) : SemAction → Bool
  | .v _ x => x = sem
  | _ => false

/-- No `semaphore_V` of the semaphore is performed while its value is `INT_MAX`. -/
def RaiseFits (sem : Sem) (a : SemAction) (s : Semaphores) : Prop :=
  a.raises sem = true → (s.table sem).value ≠ intMax

instance (sem : Sem) (a : SemAction) (s : Semaphores) : Decidable (RaiseFits sem a s) :=
  inferInstanceAs (Decidable (_ → _))

theorem semStep_law (law : Law layout sound s) (fits : ∀ sem, sound sem → RaiseFits sem a s)
    (next : semStep layout a s = some t) : Law layout sound t := by
  cases semStep_stepped next with
  | store cpu threads performed => exact law.store performed
  | threads a threads plain idle other performed => exact law.threadStep plain idle other performed
  | full cpu value => exact law
  | create cpu value sem high enough working unused => exact law.create high enough working unused
  | initialise sem value reserved => exact law.initialise (fun _ _ safe => safe) reserved
  | destroy sem unheld unblocked => exact law.destroy unheld unblocked
  | p cpu sem live unlocked idle working busy => exact law.p live unlocked idle working busy
  | add cpu status sem threads acts performed => exact law.add acts performed
  | v cpu sem live unlocked idle => exact law.v live unlocked idle fun safe => fits sem safe (by simp [SemAction.raises])
  | wake cpu sem threads acts performed => exact law.wake acts performed
  | release cpu sem acts =>
    rcases acts with acts | ⟨acts,away⟩
    · exact law.release (by rw [acts]; rfl) (fun x => by simp [owed,acts]) (by simp [acts]) (by simp [acts])
    · refine law.release (by rw [acts]; rfl) (fun x => by simp [owed,acts,away]) (by simp [acts]) fun w held mine => ?_
      exact absurd (by simp [held,mine]) away

theorem run_law (law : Law layout sound s)
    (fits : Meets (semStep layout) (fun a s => ∀ sem, sound sem → RaiseFits sem a s) actions s)
    (ran : Foundation.run (semStep layout) actions s = some t) : Law layout sound t :=
  run_guarded (fun _ _ _ law fits next => semStep_law law fits next) law fits ran

theorem reachable_law (ran : Foundation.run (semStep layout) actions initialSemaphores = some s) :
    Law layout (fun _ => False) s := by
  have fits : Meets (semStep layout) (fun _ _ => True) actions initialSemaphores := meets_of_forall fun _ _ => trivial
  exact run_law (initial_law layout _) (by simpa using fits) ran

/-- The semaphore is in use, and its history is the given one. -/
structure History (s : Semaphores) (sem : Sem) (value : Int) (ups downs : Nat) : Prop where
  live : s.life sem = .live
  created : (s.counts sem).created = value
  raised : (s.counts sem).raised = ups
  lowered : (s.counts sem).lowered = downs

theorem History.same (history : History s sem value ups downs) (life : t.life sem = s.life sem)
    (created : (t.counts sem).created = (s.counts sem).created)
    (raises : (t.counts sem).raised = (s.counts sem).raised)
    (lowers : (t.counts sem).lowered = (s.counts sem).lowered) : History t sem value ups downs :=
  ⟨life.trans history.live,created.trans history.created,raises.trans history.raised,
    lowers.trans history.lowered⟩

theorem returnP_counts (u : Int) (s : Semaphores) (sem : Sem) : (returnP u s).life = s.life ∧
    ((returnP u s).counts sem).created = (s.counts sem).created ∧
    ((returnP u s).counts sem).raised = (s.counts sem).raised ∧
    ((returnP u s).counts sem).lowered = (s.counts sem).lowered := by
  cases blocked : s.blocked u with
  | none => simp [returnP,blocked]
  | some x =>
    have returns := returnP_returns blocked
    rw [returns.counts,returns.rest.2.2.2]
    split
    · next here => subst here; exact ⟨rfl,rfl,rfl,rfl⟩
    · exact ⟨rfl,rfl,rfl,rfl⟩

theorem History.p (history : History s sem value ups downs) (c : Cpu) (x : Sem) :
    History (semaphoreP c x s) sem value ups (downs + if x = sem then 1 else 0) := by
  obtain ⟨live,created,raised,lowered⟩ := history
  unfold semaphoreP
  by_cases same : x = sem
  · subst same
    simp only
    split
    all_goals constructor <;> simp [Semaphores.goto,Semaphores.count,Semaphores.modify, *]
  · simp only
    split
    all_goals constructor <;> simp [Semaphores.goto,Semaphores.count,Semaphores.modify,Ne.symm same, *]

theorem History.v (history : History s sem value ups downs) (c : Cpu) (x : Sem) :
    History (semaphoreV c x s) sem value (ups + if x = sem then 1 else 0) downs := by
  obtain ⟨live,created,raised,lowered⟩ := history
  unfold semaphoreV
  by_cases same : x = sem
  · subst same
    simp only
    split
    all_goals constructor <;> simp [Semaphores.goto,Semaphores.count,Semaphores.modify, *]
  · simp only
    split
    all_goals constructor <;> simp [Semaphores.goto,Semaphores.count,Semaphores.modify,Ne.symm same, *]

theorem semStep_history (law : Law layout sound s) (history : History s sem value ups downs)
    (kept : a ≠ .destroy sem) (next : semStep layout a s = some t) :
    History t sem value (ups + if a.raises sem then 1 else 0) (downs + if a.starts sem then 1 else 0) := by
  cases semStep_stepped next with
  | store cpu threads performed =>
    obtain ⟨life,created,raises,lowers⟩ :=
      returnP_counts (threads.currentThread cpu) { s with threads := threads } sem
    exact history.same (congrFun life sem) created raises lowers
  | create cpu v x high enough working unused =>
    have apart : sem ≠ x := by
      rintro rfl
      exact law.creators sem (by rw [history.live]; simp) unused
    refine history.same ?_ rfl rfl rfl
    exact Function.update_of_ne apart _ _
  | initialise x v reserved =>
    have apart : sem ≠ x := by
      rintro rfl
      rw [history.live] at reserved
      contradiction
    refine history.same ?_ ?_ ?_ ?_ <;> simp [semaphoreInitialise,apart]
  | destroy x =>
    have apart : sem ≠ x := by rintro rfl; exact kept rfl
    refine history.same ?_ rfl rfl rfl
    exact Function.update_of_ne apart _ _
  | p cpu x => simpa [SemAction.raises,SemAction.starts] using history.p cpu x
  | v cpu x => simpa [SemAction.raises,SemAction.starts] using history.v cpu x
  | _ => exact history.same rfl rfl rfl rfl

theorem run_history (law : Law layout sound s) (history : History s sem value ups downs)
    (fits : Meets (semStep layout) (fun a s => ∀ sem, sound sem → RaiseFits sem a s) actions s)
    (kept : .destroy sem ∉ actions) (ran : Foundation.run (semStep layout) actions s = some t) :
    Law layout sound t ∧
      History t sem value (ups + actions.countP (SemAction.raises sem))
        (downs + actions.countP (SemAction.starts sem)) := by
  induction actions generalizing s ups downs with
  | nil => cases ran; exact ⟨law,by simpa using history⟩
  | cons a rest ih =>
    obtain ⟨u,next,later⟩ := Option.bind_eq_some_iff.mp ran
    obtain ⟨other,kept⟩ := List.mem_cons.not.mp kept |> not_or.mp
    have step := semStep_history law history (Ne.symm other) next
    obtain ⟨law,history⟩ := ih (semStep_law law fits.1 next) step (fits.next next) kept later
    refine ⟨law,?_⟩
    rw [List.countP_cons,List.countP_cons]
    convert history using 1 <;> omega

/-- The chain of a semaphore whose lock is free holds all its waiters. -/
theorem Law.chain (law : Law layout sound s) (unlocked : (s.table sem).slock = false) :
    ∃ queue, Chain (fun u => (s.threads.threadTable u).next) (-1)
        (s.threads.hashtable (sleepqHash (layout.address sem))) queue ∧
      (queue.countP fun u => (s.threads.threadTable u).sleepsOn = layout.address sem) =
        waiters s.threads (layout.address sem) := by
  obtain ⟨ready,queue,queues,-⟩ := law.threads.lists
  refine ⟨_,queues.chains _,?_⟩
  have nodup := (queues.chains (sleepqHash (layout.address sem))).nodup
  rw [waiters,List.countP_eq_length_filter,List.countP_eq_length_filter]
  refine ((List.perm_ext_iff_of_nodup (nodup.filter _) (threadIds_nodup.filter _)).mpr fun u => ?_).length_eq
  simp only [List.mem_filter,decide_eq_true_eq]
  constructor
  · rintro ⟨member,waits⟩
    exact ⟨(queues.queued _ u member).1.mem,waits⟩
  · rintro ⟨member,waits⟩
    refine ⟨?_,waits⟩
    obtain ⟨low,high⟩ := (mem_threadIds u).mp member
    have asleep : (s.threads.threadTable u).sleepsOn ≠ 0 := by rw [waits]; exact address_ne_zero layout sem
    have busy : u ≠ 0 := by rintro rfl; exact asleep law.threads.rows.idle.1
    have inside := queues.waiting u ⟨by omega,high⟩ asleep
    rw [waits] at inside
    refine inside fun held => ?_
    -- a thread in the hand of a `semaphore_V` waits for a semaphore that is locked
    obtain ⟨w,waker,rfl⟩ := Option.map_eq_some_iff.mp held
    obtain ⟨same,semaphores⟩ := law.hand w waker
    have waking := (semaphores sem).1.mp (same ▸ waits)
    exact law.alone unlocked w.cpu (by rw [waking]; rfl)

theorem waiters_le_blockedOn (law : Law layout sound s) (sem : Sem) :
    waiters s.threads (layout.address sem) ≤ blockedOn s sem := by
  refine List.countP_mono_left fun u member waits => ?_
  simp only [decide_eq_true_eq] at waits ⊢
  exact law.asleep u sem member waits

theorem owed_le_entering (s : Semaphores) (sem : Sem) (c : Cpu) : owed s sem c ≤ entering s sem c := by
  unfold owed entering
  cases acts : s.activity c <;> simp <;> split <;> simp_all

/-- In every run each call of `semaphore_P` that has got through has found a unit. -/
theorem Law.passed_le (law : Law layout sound s) (live : s.life sem = .live) :
    ((s.counts sem).passed : Int) ≤ (s.counts sem).created + (s.counts sem).raised := by
  obtain ⟨total,enough,-,passed⟩ := law.balance sem live
  have sleepers := waiters_le_blockedOn law sem
  have debts := Finset.sum_le_sum fun c (_ : c ∈ Finset.univ) => owed_le_entering s sem c
  unfold Counts.total at enough
  omega

end Steps

/-- What the calls of `semaphore_V` and `semaphore_P` have made of a semaphore created with `value`. -/
def Counting (layout : Layout) (sem : Sem) (value : Int) (actions : List SemAction) (t : Semaphores) : Prop :=
  ((t.table sem).slock = false →
    (t.table sem).value =
      value + actions.countP (SemAction.raises sem) - actions.countP (SemAction.starts sem) ∧
    ∃ queue, Chain (fun u => (t.threads.threadTable u).next) (-1)
        (t.threads.hashtable (sleepqHash (layout.address sem))) queue ∧
      ((queue.countP fun u => (t.threads.threadTable u).sleepsOn = layout.address sem : Nat) : Int) =
        max 0 (-(t.table sem).value)) ∧
  ((t.counts sem).passed : Int) ≤ value + actions.countP (SemAction.raises sem)

theorem semaphore_counting (layout : Layout) (sem : Sem) (value : Int)
    (started : Foundation.run (semStep layout) before initialSemaphores = some s)
    (reserved : s.life sem = .reserved value)
    (ran : Foundation.run (semStep layout) (.initialise sem :: actions) s = some t)
    (kept : .destroy sem ∉ actions) (fits : Meets (semStep layout) (RaiseFits sem) (.initialise sem :: actions) s) :
    Counting layout sem value actions t := by
  obtain ⟨u,next,later⟩ := Option.bind_eq_some_iff.mp ran
  have fits := fits.next next
  obtain rfl : semaphoreInitialise sem value s = u := by simpa [semStep,reserved] using next
  have begins : History (semaphoreInitialise sem value s) sem value 0 0 := by
    constructor <;> simp [semaphoreInitialise]
  have law : Law layout (· = sem) (semaphoreInitialise sem value s) :=
    (reachable_law started).initialise (fun _ apart same => apart same) reserved
  obtain ⟨law,live,created,raised,lowered⟩ := run_history law begins (by simpa using fits) kept later
  rw [Nat.zero_add] at raised lowered
  constructor
  · intro unlocked
    obtain ⟨total,-,queue,-⟩ := law.balance_free live unlocked
    obtain ⟨high,waiting⟩ := queue rfl
    have few := waiters_le t.threads (layout.address sem)
    rw [wrap_small (by omega) (by unfold intMax at high; omega)] at total
    obtain ⟨chain,linked,count⟩ := law.chain unlocked
    refine ⟨by rw [total,Counts.total,created,raised,lowered],chain,linked,?_⟩
    rw [count,total]
    omega
  · have units := law.passed_le live
    rwa [created,raised] at units

def kernelLayout : Layout := ⟨0x80011000, by decide, by decide⟩

/-- Thread 1 runs on CPU 0 and creates a semaphore. -/
def createRun (value : Int) : List SemAction :=
  [.threads .create, .threads (.init 1), .threads (.run 1), .threads (.schedule 0), .threads (.store 0),
    .create 0 value]

/-- It calls `semaphore_P`, and CPU 1 calls `semaphore_V` before the thread has switched. -/
def earlyRaiseRun : List SemAction :=
  [.p 0 firstSem, .add 0 0xff01, .release 0, .v 1 firstSem, .wake 1, .threads (.wakeInner 1), .release 1,
    .threads (.schedule 0), .threads (.store 0)]

theorem semaphore_counting_early_raise : ∃ s t,
    Foundation.run (semStep kernelLayout) (createRun 0) initialSemaphores = some s ∧
    Foundation.run (semStep kernelLayout) (.initialise firstSem :: earlyRaiseRun) s = some t ∧
    (t.counts firstSem).passed = 1 ∧ Counting kernelLayout firstSem 0 earlyRaiseRun t := by
  have reached : ((Foundation.run (semStep kernelLayout) (createRun 0) initialSemaphores).any fun s =>
      decide (s.life firstSem = .reserved 0 ∧
        Meets (semStep kernelLayout) (RaiseFits firstSem) (.initialise firstSem :: earlyRaiseRun) s) &&
        (Foundation.run (semStep kernelLayout) (.initialise firstSem :: earlyRaiseRun) s).any fun t =>
          decide ((t.counts firstSem).passed = 1)) = true := by decide +kernel
  obtain ⟨s,started,facts⟩ := (Option.any_eq_true _ _).mp reached
  obtain ⟨known,facts⟩ := Bool.and_eq_true_iff.mp facts
  obtain ⟨reserved,fits⟩ := of_decide_eq_true known
  obtain ⟨t,ran,once⟩ := (Option.any_eq_true _ _).mp facts
  exact ⟨s,t,started,ran,of_decide_eq_true once,
    semaphore_counting kernelLayout firstSem 0 started reserved ran (by simp [earlyRaiseRun]) fits⟩

/-- A semaphore created with `INT_MAX` is raised; no thread waits for it. -/
def overflowRun : List SemAction := [.v 0 firstSem, .wake 0, .release 0]

theorem semaphore_overflows : ∃ s t,
    Foundation.run (semStep kernelLayout) (createRun intMax) initialSemaphores = some s ∧
    s.life firstSem = .reserved intMax ∧
    Foundation.run (semStep kernelLayout) (.initialise firstSem :: overflowRun) s = some t ∧
    .destroy firstSem ∉ overflowRun ∧ (t.table firstSem).slock = false ∧ (t.table firstSem).value = -2 ^ 31 ∧
    ¬Counting kernelLayout firstSem intMax overflowRun t := by
  have reached : ((Foundation.run (semStep kernelLayout) (createRun intMax) initialSemaphores).any fun s =>
      decide (s.life firstSem = .reserved intMax) &&
        (Foundation.run (semStep kernelLayout) (.initialise firstSem :: overflowRun) s).any fun t =>
          decide ((t.table firstSem).slock = false ∧ (t.table firstSem).value = -2 ^ 31)) = true := by decide +kernel
  obtain ⟨s,started,facts⟩ := (Option.any_eq_true _ _).mp reached
  obtain ⟨reserved,facts⟩ := Bool.and_eq_true_iff.mp facts
  obtain ⟨t,ran,facts⟩ := (Option.any_eq_true _ _).mp facts
  obtain ⟨unlocked,wrapped⟩ := of_decide_eq_true facts
  refine ⟨s,t,started,of_decide_eq_true reserved,ran,by simp [overflowRun],unlocked,wrapped,fun right => ?_⟩
  obtain ⟨value,-⟩ := right.1 unlocked
  have raised : overflowRun.countP (SemAction.raises firstSem) = 1 := by decide
  have lowered : overflowRun.countP (SemAction.starts firstSem) = 0 := by decide
  rw [wrapped,raised,lowered,intMax] at value
  omega

end Buenos.Kernel
