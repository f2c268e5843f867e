import Buenos.Kernel.ThreadRun

/-! The sleep queue as a list of threads in the order in which they were added: `sleepq_add`
appends the caller, `sleepq_wake` removes the first thread that sleeps on the resource and
`sleepq_wake_all` all of them. -/
namespace Buenos.Kernel

open Buenos.Foundation

/-- The chains hold the threads of `order`, each row those of its hash in this order; the ready
list holds `ready`. -/
structure Sleeping (s : Threads) (ready order : List Int) : Prop where
  chains : ∀ h, Chain (fun u => (s.threadTable u).next) (-1) (s.hashtable h)
    (order.filter fun u => sleepqHash (s.threadTable u).sleepsOn = h)
  waits : ∀ u ∈ order, Proper u ∧ (s.threadTable u).sleepsOn ≠ 0
  chain : Chain (fun u => (s.threadTable u).next) (-1) s.head ready
  tail : s.tail = ready.getLastD (-1)
  known : ∀ u ∈ ready, 0 ≤ u
  apart : ∀ u ∈ order, u ∉ ready

/-- The threads that a call has to wake. -/
def awaited (s : Threads) (all : Bool) (resource : UInt32) (order : List Int) : List Int :=
  let waiting := order.filter fun u => (s.threadTable u).sleepsOn = resource
  if all then waiting else waiting.take 1

/-- The threads of `woken` have left the queue in this order. -/
structure Woken (resource : UInt32) (ready order woken : List Int) (s t : Threads) : Prop where
  queue : Sleeping t (ready ++ woken.filter fun u => (s.threadTable u).state = .sleeping)
    (order.filter fun u => u ∉ woken)
  removed : ∀ u ∈ woken, (t.threadTable u).sleepsOn = 0 ∧ (t.threadTable u).state =
    if (s.threadTable u).state = .sleeping then .ready else (s.threadTable u).state
  awaited : ∀ u ∈ woken, (s.threadTable u).sleepsOn = resource
  others : ∀ u, u ∉ woken → (t.threadTable u).state = (s.threadTable u).state ∧
    (t.threadTable u).sleepsOn = (s.threadTable u).sleepsOn
  chains : ∀ h, h ≠ sleepqHash resource → t.hashtable h = s.hashtable h ∧ ∀ u ∈ order,
    sleepqHash (s.threadTable u).sleepsOn = h → (t.threadTable u).next = (s.threadTable u).next
  rest : t.currentThread = s.currentThread ∧ t.cpus = s.cpus ∧ t.fresh = s.fresh

section Queue
variable {s s' t : Threads} {ready order pre post : List Int} {resource : UInt32}

theorem Sleeping.frame (sleeping : Sleeping s ready order)
    (rows : ∀ u, t.threadTable u = s.threadTable u) (head : t.head = s.head) (tail : t.tail = s.tail)
    (table : t.hashtable = s.hashtable) : Sleeping t ready order := by
  constructor
  · simpa only [rows,table] using sleeping.chains
  · simpa only [rows] using sleeping.waits
  · simpa only [rows,head] using sleeping.chain
  · rw [tail,sleeping.tail]
  · exact sleeping.known
  · exact sleeping.apart

theorem Sleeping.row (sleeping : Sleeping s ready order) {h : UInt32} :
    ∀ u ∈ order.filter fun u => sleepqHash (s.threadTable u).sleepsOn = h, Proper u :=
  fun u member => (sleeping.waits u (List.mem_of_mem_filter member)).1

theorem waiting_row (s : Threads) (resource : UInt32) (order : List Int) :
    (order.filter fun u => (s.threadTable u).sleepsOn = resource) =
      (order.filter fun u => sleepqHash (s.threadTable u).sleepsOn = sleepqHash resource).filter
        fun u => (s.threadTable u).sleepsOn = resource := by
  rw [List.filter_filter]
  apply List.filter_congr
  intro u _
  by_cases here : (s.threadTable u).sleepsOn = resource <;> simp [here]

/-! ### Adding -/

theorem Sleeping.add {c : Cpu} (sleeping : Sleeping s ready order) (proper : Proper (s.currentThread c))
    (unqueued : s.currentThread c ∉ order) (unready : s.currentThread c ∉ ready) (address : resource ≠ 0)
    (status : UInt32) :
    ∃ t, sleepqAdd c (interruptDisable status) resource s = some t ∧ (∃ last, Blocks c resource last s t) ∧
      Sleeping t ready (order ++ [s.currentThread c]) := by
  have fresh : ∀ h, s.currentThread c ∉ order.filter fun u => sleepqHash (s.threadTable u).sleepsOn = h :=
    fun h member => unqueued (List.mem_of_mem_filter member)
  obtain ⟨t,added,blocks⟩ := sleepqAdd_blocks (sleeping.chains (sleepqHash resource)) sleeping.row proper
    (fresh _) status
  have sleeps : ∀ u ∈ order, (t.threadTable u).sleepsOn = (s.threadTable u).sleepsOn := by
    intro u member
    rw [blocks.sleeps,if_neg]
    rintro rfl
    exact unqueued member
  have kept : ∀ h, (order.filter fun u => sleepqHash (t.threadTable u).sleepsOn = h) =
      order.filter fun u => sleepqHash (s.threadTable u).sleepsOn = h := by
    intro h
    apply List.filter_congr
    intro u member
    rw [sleeps u member]
  have here : (t.threadTable (s.currentThread c)).sleepsOn = resource := by simp [blocks.sleeps]
  refine ⟨t,added,⟨_,blocks⟩,?_⟩
  constructor
  · intro h
    rw [List.filter_append,kept]
    by_cases same : sleepqHash resource = h
    · subst same
      have last : [s.currentThread c].filter (fun u => sleepqHash (t.threadTable u).sleepsOn = sleepqHash resource) =
          [s.currentThread c] := by simp [here]
      rw [last]
      exact blocks.chain (sleeping.chains _) (fun u member => (sleeping.row u member).1) (fresh _) proper.1
    · have none_ : [s.currentThread c].filter (fun u => sleepqHash (t.threadTable u).sleepsOn = h) = [] := by
        simp [here,same]
      rw [none_,List.append_nil,blocks.hashtable,if_neg (fun both => same both.1.symm)]
      refine (sleeping.chains h).congr fun u member => blocks.outside ?_ ?_
      · rintro rfl
        exact fresh h member
      · intro other
        have one : sleepqHash (s.threadTable u).sleepsOn = h := by simpa using (List.mem_filter.mp member).2
        have two : sleepqHash (s.threadTable u).sleepsOn = sleepqHash resource := by
          simpa using (List.mem_filter.mp other).2
        exact same (two.symm.trans one)
  · intro u member
    rcases List.mem_append.mp member with old | new
    · rw [sleeps u old]
      exact sleeping.waits u old
    · obtain rfl := List.mem_singleton.mp new
      exact ⟨proper,by rwa [here]⟩
  · rw [blocks.rest.1]
    refine sleeping.chain.congr fun u member => blocks.outside ?_ ?_
    · rintro rfl
      exact unready member
    · intro other
      exact sleeping.apart u (List.mem_of_mem_filter other) member
  · rw [blocks.rest.2.1,sleeping.tail]
  · exact sleeping.known
  · intro u member
    rcases List.mem_append.mp member with old | new
    · exact sleeping.apart u old
    · obtain rfl := List.mem_singleton.mp new
      exact unready

/-! ### Waking one thread -/

theorem Sleeping.unlink (sleeping : Sleeping s ready order)
    (split : (order.filter fun u => sleepqHash (s.threadTable u).sleepsOn = sleepqHash resource) = pre ++ w :: post)
    (unlinks : Unlinks (sleepqHash resource) (pre.getLastD (-1)) w s s') :
    Sleeping s' ready (order.filter fun u => u ≠ w) := by
  have chain := sleeping.chains (sleepqHash resource)
  rw [split] at chain
  have inside : ∀ u ∈ pre, u ∈ order ∧ sleepqHash (s.threadTable u).sleepsOn = sleepqHash resource := by
    intro u member
    have listed : u ∈ order.filter fun u => sleepqHash (s.threadTable u).sleepsOn = sleepqHash resource :=
      split ▸ List.mem_append_left _ member
    simpa using List.mem_filter.mp listed
  have commute : ∀ h, ((order.filter fun u => u ≠ w).filter fun u => sleepqHash (s'.threadTable u).sleepsOn = h) =
      (order.filter fun u => sleepqHash (s.threadTable u).sleepsOn = h).filter fun u => u ≠ w := by
    intro h
    simp only [unlinks.sleeps]
    exact List.filter_comm _ _ _
  constructor
  · intro h
    rw [commute]
    by_cases same : h = sleepqHash resource
    · subst same
      have nodup := List.nodup_middle.mp chain.nodup |> List.nodup_cons.mp
      have kept : (pre ++ w :: post).filter (fun u => u ≠ w) = pre ++ post := by
        rw [List.filter_append,List.filter_cons_of_neg (by simp),← List.filter_append]
        apply List.filter_eq_self.mpr
        intro u member
        have other : u ≠ w := by rintro rfl; exact nodup.1 member
        simpa using other
      rw [split,kept]
      exact unlinks.chain chain fun u member => (sleeping.waits u (inside u member).1).1.1
    · have kept : (order.filter fun u => sleepqHash (s.threadTable u).sleepsOn = h).filter (fun u => u ≠ w) =
          order.filter fun u => sleepqHash (s.threadTable u).sleepsOn = h := by
        apply List.filter_eq_self.mpr
        intro u member
        have hash : sleepqHash (s.threadTable u).sleepsOn = h := by simpa using (List.mem_filter.mp member).2
        have other : u ≠ w := by
          rintro rfl
          have listed : u ∈ order.filter fun u => sleepqHash (s.threadTable u).sleepsOn = sleepqHash resource :=
            split ▸ by simp
          have both : sleepqHash (s.threadTable u).sleepsOn = sleepqHash resource := by
            simpa using (List.mem_filter.mp listed).2
          exact same (hash.symm.trans both)
        simpa using other
      rw [kept,unlinks.hashtable,if_neg (fun both => same both.1)]
      refine (sleeping.chains h).congr fun u member => unlinks.outside fun other => same ?_
      have hash : sleepqHash (s.threadTable u).sleepsOn = h := by simpa using (List.mem_filter.mp member).2
      exact hash.symm.trans (inside u other).2
  · intro u member
    rw [unlinks.sleeps]
    exact sleeping.waits u (List.mem_of_mem_filter member)
  · rw [unlinks.rest.1]
    refine sleeping.chain.congr fun u member => unlinks.outside fun other => ?_
    exact sleeping.apart u (inside u other).1 member
  · rw [unlinks.rest.2.1,sleeping.tail]
  · exact sleeping.known
  · intro u member
    exact sleeping.apart u (List.mem_of_mem_filter member)

/-- The links of the queued threads stay as the thread in hand is released. -/
structure Released (w : Int) (order : List Int) (s s' : Threads) : Prop where
  wakes : Wakes w s s'
  next : ∀ u ∈ order, (s'.threadTable u).next = (s.threadTable u).next
  hashtable : s'.hashtable = s.hashtable

theorem Sleeping.release (sleeping : Sleeping s ready order) (proper : Proper w) (unqueued : w ∉ order)
    (unready : w ∉ ready) :
    ∃ s', releaseWaiter w s = some s' ∧ Released w order s s' ∧
      Sleeping s' (ready ++ [w].filter fun u => (s.threadTable u).state = .sleeping) order := by
  have others : ∀ u ∈ order, u ≠ w := by
    rintro u member rfl
    exact unqueued member
  have keep : ∀ {s' ready'}, Released w order s s' →
      Chain (fun u => (s'.threadTable u).next) (-1) s'.head ready' → s'.tail = ready'.getLastD (-1) →
      (∀ u ∈ ready', u ∈ ready ∨ u = w) → Sleeping s' ready' order := by
    intro s' ready' released chain tail listed
    have sleeps : ∀ u ∈ order, (s'.threadTable u).sleepsOn = (s.threadTable u).sleepsOn := by
      intro u member
      rw [released.wakes.sleeps,if_neg (others u member)]
    refine ⟨fun h => ?_,?_,chain,tail,?_,?_⟩
    · have kept : (order.filter fun u => sleepqHash (s'.threadTable u).sleepsOn = h) =
          order.filter fun u => sleepqHash (s.threadTable u).sleepsOn = h := by
        apply List.filter_congr
        intro u member
        rw [sleeps u member]
      rw [kept,released.hashtable]
      exact (sleeping.chains h).congr fun u member => released.next u (List.mem_of_mem_filter member)
    · intro u member
      rw [sleeps u member]
      exact sleeping.waits u member
    · intro u member
      rcases listed u member with old | rfl
      · exact sleeping.known u old
      · exact proper.1.le
    · intro u member inside
      rcases listed u inside with old | same
      · exact sleeping.apart u member old
      · exact others u member same
  by_cases asleep : (s.threadTable w).state = .sleeping
  · obtain ⟨s',released,readies⟩ := releaseWaiter_sleeping proper asleep
    have all : [w].filter (fun u => (s.threadTable u).state = .sleeping) = [w] := by simp [asleep]
    have made : Released w order s s' := ⟨wakes_sleeping asleep readies,
      fun u member => readies.outside sleeping.tail (others u member) (sleeping.apart u member),readies.hashtable⟩
    refine ⟨s',released,made,?_⟩
    rw [all]
    refine keep made (readies.chain sleeping.chain sleeping.tail sleeping.known unready proper.1.le) ?_ ?_
    · rw [readies.tail]
      simp
    · simp
  · have none_ : [w].filter (fun u => (s.threadTable u).state = .sleeping) = [] := by simp [asleep]
    have made : Released w order s (s.modify w fun e => { e with sleepsOn := 0, next := -1 }) :=
      ⟨wakes_awake asleep,fun u member => by simp [others u member],rfl⟩
    refine ⟨_,releaseWaiter_awake asleep,made,?_⟩
    rw [none_,List.append_nil]
    refine keep made (sleeping.chain.congr fun u member => ?_) sleeping.tail fun u member => .inl member
    have apart : u ≠ w := by
      rintro rfl
      exact unready member
    simp [apart]

theorem row_without (sleeps : ∀ u, u ≠ w → (t.threadTable u).sleepsOn = (s.threadTable u).sleepsOn)
    (split : (order.filter fun u => sleepqHash (s.threadTable u).sleepsOn = h) = pre ++ w :: post)
    (apart : ∀ u ∈ pre ++ post, u ≠ w) :
    ((order.filter fun u => u ≠ w).filter fun u => sleepqHash (t.threadTable u).sleepsOn = h) = pre ++ post := by
  have same : ((order.filter fun u => u ≠ w).filter fun u => sleepqHash (t.threadTable u).sleepsOn = h) =
      (order.filter fun u => u ≠ w).filter fun u => sleepqHash (s.threadTable u).sleepsOn = h := by
    apply List.filter_congr
    intro u member
    rw [sleeps u (by simpa using (List.mem_filter.mp member).2)]
  rw [same,List.filter_comm,split,List.filter_append,List.filter_cons_of_neg (by simp),← List.filter_append]
  apply List.filter_eq_self.mpr
  intro u member
  simpa using apart u member

theorem Released.woken (made : Released w (order.filter fun u => u ≠ w) s' t)
    (unlinks : Unlinks (sleepqHash resource) (pre.getLastD (-1)) w s s')
    (found : (s.threadTable w).sleepsOn = resource)
    (inside : ∀ u ∈ pre, sleepqHash (s.threadTable u).sleepsOn = sleepqHash resource)
    (later : Sleeping t (ready ++ [w].filter fun u => (s.threadTable u).state = .sleeping) (order.filter fun u => u ∉ [w])) :
    Woken resource ready order [w] s t := by
  refine ⟨later,?_,?_,?_,?_,?_⟩
  · intro u member
    obtain rfl := List.mem_singleton.mp member
    exact ⟨by simp [made.wakes.sleeps],by simp [made.wakes.state,unlinks.state]⟩
  · intro u member
    obtain rfl := List.mem_singleton.mp member
    exact found
  · intro u outside
    have other : u ≠ w := by simpa using outside
    refine ⟨by simp [made.wakes.state,unlinks.state,other],?_⟩
    rw [made.wakes.sleeps,if_neg other,unlinks.sleeps]
  · intro h different
    constructor
    · rw [made.hashtable,unlinks.hashtable,if_neg (fun both => different both.1)]
    · rintro u member rfl
      have other : u ≠ w := by
        rintro rfl
        exact different (congrArg sleepqHash found)
      rw [made.next u (List.mem_filter.mpr ⟨member,by simpa using other⟩)]
      exact unlinks.outside fun inChain => different (inside u inChain)
  · obtain ⟨current,cpus,-,fresh⟩ := made.wakes.rest
    exact ⟨current.trans unlinks.rest.2.2.1,cpus.trans unlinks.rest.2.2.2.1,fresh.trans unlinks.rest.2.2.2.2⟩

/-- One turn of the loop: the first waiter behind `pre` leaves its chain and is released. -/
theorem Sleeping.turn (sleeping : Sleeping s ready order)
    (split : (order.filter fun u => sleepqHash (s.threadTable u).sleepsOn = sleepqHash resource) = pre ++ post)
    (passed : ∀ u ∈ pre, (s.threadTable u).sleepsOn ≠ resource) (c : Cpu) (all : Bool) :
    ((order.filter fun u => (s.threadTable u).sleepsOn = resource) = [] ∧
      takeWaiter c resource all (pre.getLastD (-1)) (post.headD (-1)) s = some { s with waker := none }) ∨
    ∃ w pre' post' s' t, (order.filter fun u => (s.threadTable u).sleepsOn = resource) =
        w :: ((order.filter fun u => u ∉ [w]).filter fun u => (t.threadTable u).sleepsOn = resource) ∧
      takeWaiter c resource all (pre.getLastD (-1)) (post.headD (-1)) s = some s' ∧
      s'.waker = some ⟨c, resource, all, pre'.getLastD (-1), post'.headD (-1), w⟩ ∧
      releaseWaiter w s' = some t ∧ t.waker = s'.waker ∧ Woken resource ready order [w] s t ∧
      ((order.filter fun u => u ∉ [w]).filter fun u => sleepqHash (t.threadTable u).sleepsOn = sleepqHash resource) =
        pre' ++ post' ∧ ∀ u ∈ pre', (t.threadTable u).sleepsOn ≠ resource := by
  have chain := sleeping.chains (sleepqHash resource)
  rw [split] at chain
  have inside : ∀ u ∈ pre ++ post, u ∈ order ∧ sleepqHash (s.threadTable u).sleepsOn = sleepqHash resource := by
    intro u member
    simpa using List.mem_filter.mp (split ▸ member :
      u ∈ order.filter fun u => sleepqHash (s.threadTable u).sleepsOn = sleepqHash resource)
  have skip : ∀ l : List Int, (∀ u ∈ l, (s.threadTable u).sleepsOn ≠ resource) →
      l.filter (fun u => (s.threadTable u).sleepsOn = resource) = [] := by
    intro l none_
    apply List.filter_eq_nil_iff.mpr
    simpa using none_
  rw [waiting_row,split,List.filter_append,skip pre passed,List.nil_append]
  rcases takeWaiter_spec chain (fun u member => (sleeping.waits u (inside u member).1).1) c all with
    ⟨none_,result⟩ | ⟨skipped,w,rest,s',rfl,skips,found,result,unlinks,held⟩
  · exact .inl ⟨skip post none_,result⟩
  right
  have listed := inside w (by simp)
  have proper := (sleeping.waits w listed.1).1
  rw [← List.append_assoc] at split chain
  have alone := sleeping.unlink split unlinks
  obtain ⟨t,released,made,later⟩ := alone.release proper (by simp) (sleeping.apart w listed.1)
  simp only [unlinks.state] at later
  have sleeps : ∀ u, u ≠ w → (t.threadTable u).sleepsOn = (s.threadTable u).sleepsOn := by
    intro u other
    rw [made.wakes.sleeps,if_neg other,unlinks.sleeps]
  have singles : (order.filter fun u => u ∉ [w]) = order.filter fun u => u ≠ w := by simp
  have nodup := List.nodup_middle.mp chain.nodup |> List.nodup_cons.mp
  have apart : ∀ u ∈ (pre ++ skipped) ++ rest, u ≠ w := by
    rintro u member rfl
    exact nodup.1 member
  have row := row_without sleeps split apart
  have remaining : ∀ u ∈ pre ++ skipped, (t.threadTable u).sleepsOn ≠ resource := by
    intro u member
    rw [sleeps u (apart u (List.mem_append_left rest member))]
    rcases List.mem_append.mp member with early | late
    · exact passed u early
    · exact skips u late
  refine ⟨w,pre ++ skipped,rest,s',t,?_,result,held,released,made.wakes.rest.2.2.1,?_,singles ▸ row,remaining⟩
  · rw [waiting_row t,singles,row,List.filter_append,List.filter_append,skip skipped skips,List.nil_append,
      List.filter_cons_of_pos (by simpa using found)]
    have gone : (pre ++ skipped).filter (fun u => (t.threadTable u).sleepsOn = resource) = [] := by
      apply List.filter_eq_nil_iff.mpr
      simpa using remaining
    rw [gone,List.nil_append]
    congr 1
    apply List.filter_congr
    intro u member
    rw [sleeps u (apart u (List.mem_append_right _ member))]
  · refine made.woken unlinks found (fun u member => (inside u ?_).2) (singles ▸ later)
    rcases List.mem_append.mp member with early | late <;> simp [*]

/-! ### Waking several threads -/

theorem Woken.nil (sleeping : Sleeping s ready order) :
    Woken resource ready order [] s { s with waker := none } := by
  refine ⟨?_,by simp,by simp,fun _ _ => ⟨rfl,rfl⟩,fun _ _ => ⟨rfl,fun _ _ _ => rfl⟩,rfl,rfl,rfl⟩
  simpa using sleeping.frame (t := { s with waker := none }) (fun _ => rfl) rfl rfl rfl

theorem Woken.append {a b : List Int} (first : Woken resource ready order a s s')
    (second : Woken resource (ready ++ a.filter fun u => (s.threadTable u).state = .sleeping)
      (order.filter fun u => u ∉ a) b s' t) (apart : ∀ u ∈ b, u ∉ a) :
    Woken resource ready order (a ++ b) s t := by
  have fresh : ∀ u ∈ a, u ∉ b := fun u member other => apart u other member
  have states : (b.filter fun u => (s'.threadTable u).state = .sleeping) =
      b.filter fun u => (s.threadTable u).state = .sleeping := by
    apply List.filter_congr
    intro u member
    rw [(first.others u (apart u member)).1]
  have rest : ((order.filter fun u => u ∉ a).filter fun u => u ∉ b) = order.filter fun u => u ∉ a ++ b := by
    rw [List.filter_filter]
    apply List.filter_congr
    intro u _
    by_cases one : u ∈ a <;> simp [one]
  refine ⟨?_,?_,?_,?_,?_,?_⟩
  · have queue := second.queue
    rw [states,rest] at queue
    simpa [List.filter_append] using queue
  · intro u member
    rcases List.mem_append.mp member with early | late
    · rw [(second.others u (fresh u early)).1,(second.others u (fresh u early)).2]
      exact first.removed u early
    · rw [← (first.others u (apart u late)).1]
      exact second.removed u late
  · intro u member
    rcases List.mem_append.mp member with early | late
    · exact first.awaited u early
    · rw [← (first.others u (apart u late)).2]
      exact second.awaited u late
  · intro u outside
    obtain ⟨one,two⟩ : u ∉ a ∧ u ∉ b := by simpa using outside
    exact ⟨(second.others u two).1.trans (first.others u one).1,(second.others u two).2.trans (first.others u one).2⟩
  · intro h different
    refine ⟨((second.chains h different).1).trans (first.chains h different).1,?_⟩
    rintro u member hash
    have unwoken : u ∉ a := by
      intro inside
      rw [first.awaited u inside] at hash
      exact different hash.symm
    have later := (second.chains h different).2 u (List.mem_filter.mpr ⟨member,by simpa using unwoken⟩)
    rw [(first.others u unwoken).2] at later
    exact (later hash).trans ((first.chains h different).2 u member hash)
  · exact ⟨second.rest.1.trans first.rest.1,second.rest.2.1.trans first.rest.2.1,second.rest.2.2.trans first.rest.2.2⟩

theorem wakeInner_eq {w : Waker} (held : s.waker = some w) : step (.wakeInner w.cpu) s = finishWake w s := by
  have enabled : Enabled s (.wakeInner w.cpu) := by simp [Enabled,held]
  rw [step,if_pos enabled]
  simp [perform,held]

/-- The loop of `sleepq_wake_all` from a position in its chain. -/
theorem Sleeping.wakeAll (waiting : List Int) (sleeping : Sleeping s ready order)
    (waits : (order.filter fun u => (s.threadTable u).sleepsOn = resource) = waiting)
    (split : (order.filter fun u => sleepqHash (s.threadTable u).sleepsOn = sleepqHash resource) = pre ++ post)
    (passed : ∀ u ∈ pre, (s.threadTable u).sleepsOn ≠ resource) (c : Cpu) :
    ∃ t, (takeWaiter c resource true (pre.getLastD (-1)) (post.headD (-1)) s).bind
        (Foundation.run step (List.replicate waiting.length (.wakeInner c))) = some t ∧
      t.waker = none ∧ Woken resource ready order waiting s t := by
  induction waiting generalizing s ready order pre post with
  | nil =>
    rcases sleeping.turn split passed c true with ⟨-,result⟩ | ⟨w,_,_,_,_,some_,-⟩
    · exact ⟨_,by rw [result]; rfl,rfl,Woken.nil sleeping⟩
    · rw [waits] at some_
      contradiction
  | cons first more ih =>
    rcases sleeping.turn split passed c true with
      ⟨none_,-⟩ | ⟨w,pre',post',s',t,some_,result,held,released,kept,woken,split',passed'⟩
    · rw [waits] at none_
      contradiction
    rw [waits] at some_
    obtain ⟨rfl,left⟩ := List.cons.inj some_
    obtain ⟨u,ran,done,later⟩ := ih woken.queue left.symm split' passed'
    have turn : step (.wakeInner c) s' = takeWaiter c resource true (pre'.getLastD (-1)) (post'.headD (-1)) t := by
      rw [wakeInner_eq held]
      simp [finishWake,released]
    refine ⟨u,?_,done,woken.append later ?_⟩
    · rw [result]
      simp only [List.length_cons,List.replicate_succ,Option.bind_some,Foundation.run_cons,turn]
      exact ran
    · intro v member
      rw [left] at member
      have inside := (List.mem_filter.mp (List.mem_of_mem_filter member)).2
      simpa using inside

theorem Sleeping.wake (sleeping : Sleeping s ready order) (free : s.waker = none) (c : Cpu)
    (resource : UInt32) (all : Bool) :
    ∃ t, Foundation.run step (.wake c resource all ::
        List.replicate (awaited s all resource order).length (.wakeInner c)) s = some t ∧
      t.waker = none ∧ Woken resource ready order (awaited s all resource order) s t := by
  have start : step (.wake c resource all) s = takeWaiter c resource all (([] : List Int).getLastD (-1))
      ((order.filter fun u => sleepqHash (s.threadTable u).sleepsOn = sleepqHash resource).headD (-1)) s := by
    rw [step,if_pos (show Enabled s (.wake c resource all) from free)]
    rw [← (sleeping.chains (sleepqHash resource)).first_eq]
    rfl
  rw [Foundation.run_cons,start]
  cases all with
  | true => exact sleeping.wakeAll _ rfl rfl (by simp) c
  | false =>
    have whole : (order.filter fun u => sleepqHash (s.threadTable u).sleepsOn = sleepqHash resource) = [] ++ _ :=
      (List.nil_append _).symm
    rcases sleeping.turn whole (by simp) c false with
      ⟨none_,result⟩ | ⟨w,pre',post',s',t,some_,result,held,released,kept,woken,-,-⟩
    · have nobody : awaited s false resource order = [] := by simp [awaited,none_]
      rw [result,nobody]
      exact ⟨_,rfl,rfl,Woken.nil sleeping⟩
    · have one : awaited s false resource order = [w] := by
        unfold awaited
        rw [some_]
        rfl
      have turn : step (.wakeInner c) s' = some { t with waker := none } := by
        rw [wakeInner_eq held]
        simp [finishWake,released]
      rw [result,one]
      refine ⟨{ t with waker := none },?_,rfl,?_⟩
      · simp [turn]
      · obtain ⟨queue,removed,sought,others,chains,rest⟩ := woken
        exact ⟨queue.frame (fun _ => rfl) rfl rfl rfl,removed,sought,others,chains,rest⟩

/-- The calls on any well-formed queue. -/
theorem sleepq_fifo (sleeping : Sleeping s ready order) (free : s.waker = none) :
    (∀ c status resource, s.cpus c = .working → Proper (s.currentThread c) → s.currentThread c ∉ order →
      s.currentThread c ∉ ready → resource ≠ 0 → ∃ t, step (.add c status resource) s = some t ∧
        t.waker = none ∧ Sleeping t ready (order ++ [s.currentThread c]) ∧
        ∀ u, (t.threadTable u).state = (s.threadTable u).state ∧ (t.threadTable u).sleepsOn =
          if u = s.currentThread c then resource else (s.threadTable u).sleepsOn) ∧
    ∀ c resource all, ∃ t, Foundation.run step (.wake c resource all ::
        List.replicate (awaited s all resource order).length (.wakeInner c)) s = some t ∧
      t.waker = none ∧ Woken resource ready order (awaited s all resource order) s t := by
  constructor
  · intro c status resource working proper unqueued unready address
    have busy : s.currentThread c ≠ idleThreadTid := by
      have low := proper.1
      simp only [idleThreadTid]
      omega
    obtain ⟨t,added,⟨_,blocks⟩,later⟩ := sleeping.add proper unqueued unready address status
    refine ⟨t,?_,blocks.rest.2.2.2.1.trans free,later,fun u => ⟨blocks.state u,blocks.sleeps u⟩⟩
    rw [step,if_pos (show Enabled s (.add c status resource) from ⟨working,busy,address,free⟩)]
    exact added
  · intro c resource all
    exact sleeping.wake free c resource all

end Queue

/-- The threads 1 and 3 wait for one resource, the thread 2 for another one with the same hash. -/
def parked : Threads := { initial with
  threadTable := fun u =>
    if u = 1 then ⟨.sleeping, 0x1000, 2⟩ else if u = 2 then ⟨.sleeping, 0x107f, 3⟩
    else if u = 3 then ⟨.running, 0x1000, -1⟩ else ⟨.free, 0, -1⟩
  hashtable := fun h => if h = 32 then 1 else -1 }

theorem parked_sleeping : Sleeping parked [] [1,2,3] := by
  have hashes : sleepqHash 0x1000 = 32 ∧ sleepqHash 0x107f = 32 := by decide
  refine ⟨fun h => ?_,?_,rfl,rfl,by simp,by simp⟩
  · by_cases same : 32 = h
    · subst same
      simp [parked,hashes,Chain]
    · simp [parked,hashes,Chain,same,Ne.symm same]
  · simp [parked,Proper,configMaxThreads]

theorem sleepq_fifo_collision : ∃ t, Foundation.run step [.wake 0 0x1000 true, .wakeInner 0, .wakeInner 0] parked =
    some t ∧ Sleeping t [1] [2] := by
  obtain ⟨t,ran,-,woken⟩ := (sleepq_fifo parked_sleeping rfl).2 0 0x1000 true
  exact ⟨t,ran,woken.queue⟩

/-! ### Which states have such a queue -/

theorem flatMap_one {items : List Int} {keys : List Nat} (nodup : keys.Nodup) (member : k ∈ keys) :
    (keys.flatMap fun i => if i = k then items else []) = items := by
  induction keys with
  | nil => simp at member
  | cons i rest ih =>
    obtain ⟨outside,later⟩ := List.nodup_cons.mp nodup
    rw [List.flatMap_cons]
    by_cases same : i = k
    · subst same
      have none_ : (rest.flatMap fun j => if j = i then items else []) = [] := by
        apply List.flatMap_eq_nil_iff.mpr
        intro j inside
        rw [if_neg]
        rintro rfl
        exact outside inside
      rw [none_,if_pos rfl,List.append_nil]
    · rw [if_neg same,List.nil_append]
      exact ih later (List.mem_of_ne_of_mem (Ne.symm same) member)

theorem sleepqHash_lt (resource : UInt32) : (sleepqHash resource).toNat < 127 := by
  simp only [sleepqHash,UInt32.toNat_mod]
  exact Nat.mod_lt _ (by decide)

/-- Chains in which each thread has the hash of its row are those of one queue. -/
theorem sleeping_of_chains {s : Threads} {ready : List Int} {queue : UInt32 → List Int}
    (chain : Chain (fun u => (s.threadTable u).next) (-1) s.head ready) (tail : s.tail = ready.getLastD (-1))
    (known : ∀ u ∈ ready, 0 ≤ u)
    (chains : ∀ h, Chain (fun u => (s.threadTable u).next) (-1) (s.hashtable h) (queue h))
    (queued : ∀ h, ∀ u ∈ queue h, Proper u ∧ (s.threadTable u).sleepsOn ≠ 0 ∧
      sleepqHash (s.threadTable u).sleepsOn = h ∧ u ∉ ready) :
    Sleeping s ready ((List.range 127).flatMap fun i => queue (UInt32.ofNat i)) := by
  have listed : ∀ u ∈ (List.range 127).flatMap fun i => queue (UInt32.ofNat i), ∃ h, u ∈ queue h := by
    intro u member
    obtain ⟨i,-,inside⟩ := List.mem_flatMap.mp member
    exact ⟨_,inside⟩
  have rows : ∀ h i, (queue i).filter (fun u => sleepqHash (s.threadTable u).sleepsOn = h) =
      if i = h then queue h else [] := by
    intro h i
    by_cases same : i = h
    · subst same
      rw [if_pos rfl]
      apply List.filter_eq_self.mpr
      intro u member
      simpa using (queued i u member).2.2.1
    · rw [if_neg same]
      apply List.filter_eq_nil_iff.mpr
      intro u member
      rw [(queued i u member).2.2.1]
      simpa using same
  refine ⟨fun h => ?_,?_,chain,tail,known,?_⟩
  · have whole : ((List.range 127).flatMap fun i => queue (UInt32.ofNat i)).filter
        (fun u => sleepqHash (s.threadTable u).sleepsOn = h) = queue h := by
      rw [List.filter_flatMap]
      simp only [rows]
      by_cases inside : h.toNat < 127
      · have keys : ((List.range 127).flatMap fun i => if UInt32.ofNat i = h then queue h else []) =
            (List.range 127).flatMap fun i => if i = h.toNat then queue h else [] := by
          apply List.flatMap_congr
          intro i member
          have small := List.mem_range.mp member
          have same : UInt32.ofNat i = h ↔ i = h.toNat := by
            rw [← UInt32.toNat_inj,UInt32.toNat_ofNat',Nat.mod_eq_of_lt (by omega)]
          simp only [same]
        rw [keys]
        exact flatMap_one List.nodup_range (List.mem_range.mpr inside)
      · have empty : queue h = [] := by
          apply List.eq_nil_iff_forall_not_mem.mpr
          intro u member
          have low := sleepqHash_lt (s.threadTable u).sleepsOn
          rw [(queued h u member).2.2.1] at low
          exact inside low
        simp [empty]
    rw [whole]
    exact chains h
  · intro u member
    obtain ⟨h,inside⟩ := listed u member
    exact ⟨(queued h u inside).1,(queued h u inside).2.1⟩
  · intro u member
    obtain ⟨h,inside⟩ := listed u member
    exact (queued h u inside).2.2.2

/-- Whenever `sleepq_slock` is free. -/
theorem run_sleeping {s : Threads} (ran : Foundation.run step actions initial = some s) (free : s.waker = none) :
    ∃ ready order, Sleeping s ready order := by
  obtain ⟨rows,-,ready,queue,queues,-⟩ := run_threads ran
  rw [free] at queues
  refine ⟨ready,_,sleeping_of_chains queues.chain queues.tail ?_ queues.chains ?_⟩
  · intro u member
    exact ((queues.ready u).mp member).1.1.le
  · intro h u member
    obtain ⟨proper,asleep,hash,-⟩ := queues.queued h u member
    exact ⟨proper,asleep,hash,fun inside => queues.apart rows h inside member⟩

end Buenos.Kernel
