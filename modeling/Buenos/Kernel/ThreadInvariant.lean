import Buenos.Foundation.Chain
import Buenos.Kernel.Thread
import Mathlib.Data.Finset.Card
import Mathlib.Data.Int.Interval

/-! The thread queues: which threads are in the ready list and in the chains of the sleep
queue, through every order of wake-ups and switches. -/
namespace Buenos.Kernel

open Buenos.Foundation

def Proper (t : Int) : Prop := 0 < t ∧ t < configMaxThreads

/-- The thread a CPU executes; between the lock of `scheduler_schedule` and the store it is the
selected one. -/
def onCpu (s : Threads) (c : Cpu) : Int :=
  match s.cpus c with
  | .storing t => t
  | _ => s.currentThread c

structure Rows (s : Threads) : Prop where
  idle : (s.threadTable 0).sleepsOn = 0 ∧
    ((s.threadTable 0).state = .ready ∨ (s.threadTable 0).state = .running)
  waits : ∀ t, Proper t → (s.threadTable t).sleepsOn ≠ 0 →
    (s.threadTable t).state = .running ∨ (s.threadTable t).state = .sleeping
  sleeping : ∀ t, Proper t → (s.threadTable t).state = .sleeping → (s.threadTable t).sleepsOn ≠ 0
  fresh : ∀ t, s.fresh t ≠ none → Proper t ∧ (s.threadTable t).state = .nonready

/-- What holds of the threads on the CPUs other than `gone`, which is between two threads. -/
structure Cpus (s : Threads) (gone : Option Cpu) : Prop where
  on : ∀ c, some c ≠ gone → onCpu s c ≠ 0 → Proper (onCpu s c) ∧
    ((s.threadTable (onCpu s c)).state = .running ∨ (s.threadTable (onCpu s c)).state = .dying)
  apart : ∀ c d, some c ≠ gone → some d ≠ gone → onCpu s c ≠ 0 → onCpu s c = onCpu s d → c = d
  awake : ∀ c, some c ≠ gone → onCpu s c ≠ 0 → s.cpus c ≠ .switching →
    (s.threadTable (onCpu s c)).state = .running ∧ (s.threadTable (onCpu s c)).sleepsOn = 0

/-- The lists; `hand` is a thread that was taken out of its chain and still has to be woken. -/
structure Queues (s : Threads) (hand : Option Int) (ready : List Int) (queue : UInt32 → List Int) :
    Prop where
  chain : Chain (fun t => (s.threadTable t).next) (-1) s.head ready
  tail : s.tail = ready.getLastD (-1)
  ready : ∀ t, t ∈ ready ↔ Proper t ∧ (s.threadTable t).state = .ready
  chains : ∀ h, Chain (fun t => (s.threadTable t).next) (-1) (s.hashtable h) (queue h)
  queued : ∀ h, ∀ t ∈ queue h, Proper t ∧ (s.threadTable t).sleepsOn ≠ 0 ∧
    sleepqHash (s.threadTable t).sleepsOn = h ∧ hand ≠ some t
  waiting : ∀ t, Proper t → (s.threadTable t).sleepsOn ≠ 0 → hand ≠ some t →
    t ∈ queue (sleepqHash (s.threadTable t).sleepsOn)
  hand : ∀ t, hand = some t → Proper t ∧ (s.threadTable t).sleepsOn ≠ 0

/-- Where a `sleepq_wake_all` has got to in its chain. -/
def Position (w : Waker) (queue : UInt32 → List Int) : Prop :=
  ∃ pre post, queue (sleepqHash w.resource) = pre ++ post ∧ w.prev = pre.getLastD (-1) ∧
    w.first = post.headD (-1)

structure Invariant (s : Threads) : Prop where
  rows : Rows s
  cpus : Cpus s none
  lists : ∃ ready queue, Queues s (s.waker.map Waker.wake) ready queue ∧
    ∀ w, s.waker = some w → Position w queue

theorem initial_invariant : Invariant initial := by
  refine ⟨?_,?_,[],fun _ => [],?_,?_⟩
  · constructor <;> simp [initial,idleThreadTid,Proper]
    intro t _ _
    by_cases here : t = 0 <;> simp [here]
  · constructor <;> simp [initial,onCpu]
  · constructor <;> simp [initial,Chain,Proper,idleThreadTid]
    intro t positive
    have : t ≠ 0 := by omega
    simp [this]
  · simp [initial]

section Lists
variable {s s' : Threads} {hand : Option Int} {ready : List Int} {queue : UInt32 → List Int}

@[simp] theorem modify_threadTable (s : Threads) (t u : Int) (f : ThreadEntry → ThreadEntry) :
    (s.modify t f).threadTable u = if u = t then f (s.threadTable t) else s.threadTable u := by
  by_cases same : u = t <;> simp [Threads.modify,same]

theorem getLastD_mem {items : List Int} (some_ : items ≠ []) : items.getLastD d ∈ items := by
  rcases List.eq_nil_or_concat items with rfl | ⟨front,last,rfl⟩
  · contradiction
  · simp

theorem length_proper {items : List Int} (nodup : items.Nodup) (proper : ∀ t ∈ items, Proper t) :
    items.length < walkLimit := by
  have inside : items.toFinset ⊆ Finset.Ico 1 32 := by
    intro t member
    obtain ⟨low,high⟩ := proper t (List.mem_toFinset.mp member)
    simp only [configMaxThreads] at high
    exact Finset.mem_Ico.mpr ⟨by omega,high⟩
  have count := Finset.card_le_card inside
  rw [List.toFinset_card_of_nodup nodup] at count
  simp only [Int.card_Ico] at count
  simp only [walkLimit]
  omega

theorem Queues.apart (queues : Queues s hand ready queue) (rows : Rows s) (h : UInt32)
    (member : t ∈ ready) : t ∉ queue h := by
  intro other
  obtain ⟨proper,state⟩ := (queues.ready t).mp member
  rcases rows.waits t proper (queues.queued h t other).2.1 with running | sleeping
  · rw [state] at running; contradiction
  · rw [state] at sleeping; contradiction

theorem Queues.keep (queues : Queues s hand ready queue)
    (next : ∀ t, t ∈ ready ∨ (∃ h, t ∈ queue h) → (s'.threadTable t).next = (s.threadTable t).next)
    (state : ∀ t, Proper t → ((s'.threadTable t).state = .ready ↔ (s.threadTable t).state = .ready))
    (sleeps : ∀ t, Proper t → (s'.threadTable t).sleepsOn = (s.threadTable t).sleepsOn)
    (head : s'.head = s.head) (tail : s'.tail = s.tail) (table : s'.hashtable = s.hashtable) :
    Queues s' hand ready queue := by
  constructor
  · rw [head]
    exact queues.chain.congr fun t member => next t (.inl member)
  · rw [tail,queues.tail]
  · intro t
    rw [queues.ready]
    exact and_congr_right fun proper => (state t proper).symm
  · intro h
    rw [table]
    exact (queues.chains h).congr fun t member => next t (.inr ⟨h,member⟩)
  · intro h t member
    have facts := queues.queued h t member
    rwa [sleeps t facts.1]
  · intro t proper
    rw [sleeps t proper]
    exact queues.waiting t proper
  · intro t held
    have facts := queues.hand t held
    rwa [sleeps t facts.1]

/-! ### The ready list -/

/-- A thread becomes ready and is put behind the last thread of the ready list. -/
structure Readies (t : Int) (s s' : Threads) : Prop where
  here : (s'.threadTable t).state = .ready ∧ (s'.threadTable t).sleepsOn = 0
  others : ∀ u, u ≠ t → (s'.threadTable u).state = (s.threadTable u).state ∧
    (s'.threadTable u).sleepsOn = (s.threadTable u).sleepsOn
  next : ∀ u, (s'.threadTable u).next =
    if u = t then -1 else if 0 ≤ s.tail ∧ u = s.tail then t else (s.threadTable u).next
  head : s'.head = if s.tail < 0 then t else s.head
  tail : s'.tail = t
  hashtable : s'.hashtable = s.hashtable
  rest : s'.currentThread = s.currentThread ∧ s'.cpus = s.cpus ∧ s'.waker = s.waker ∧ s'.fresh = s.fresh

theorem addToReadyList_eq (proper : Proper t) (s : Threads) : schedulerAddToReadyList t s =
    some { s with
      threadTable := fun u => { s.threadTable u with
        next := if u = t then -1 else if 0 ≤ s.tail ∧ u = s.tail then t else (s.threadTable u).next }
      head := if s.tail < 0 then t else s.head
      tail := t } := by
  obtain ⟨low,high⟩ := proper
  have passes : t ≠ idleThreadTid ∧ 0 ≤ t ∧ t < configMaxThreads := by
    simp only [idleThreadTid]
    omega
  unfold schedulerAddToReadyList
  rw [if_pos passes]
  by_cases empty : s.tail < 0
  · have none_ : ¬0 ≤ s.tail := by omega
    have table : (s.modify t fun e => { e with next := -1 }).threadTable = fun u => { s.threadTable u with
        next := if u = t then -1 else if 0 ≤ s.tail ∧ u = s.tail then t else (s.threadTable u).next } := by
      funext u
      by_cases same : u = t
      · simp [same]
      · simp [same,none_]
    rw [if_pos empty,if_pos empty,← table]
    rfl
  · have some_ : 0 ≤ s.tail := by omega
    have table : ((s.modify s.tail fun e => { e with next := t }).modify t fun e =>
        { e with next := -1 }).threadTable = fun u => { s.threadTable u with
        next := if u = t then -1 else if 0 ≤ s.tail ∧ u = s.tail then t else (s.threadTable u).next } := by
      funext u
      by_cases same : u = t
      · by_cases last : t = s.tail <;> simp [same,last]
      · by_cases last : u = s.tail
        · have other : s.tail ≠ t := last ▸ same
          simp [last,other,some_]
        · simp [same,last]
    rw [if_neg empty,if_neg empty,← table]
    rfl

theorem Readies.chain (readies : Readies t s s') (chain : Chain (fun u => (s.threadTable u).next) (-1) s.head ready)
    (tail : s.tail = ready.getLastD (-1)) (known : ∀ v ∈ ready, 0 ≤ v) (unready : t ∉ ready) (low : 0 ≤ t) :
    Chain (fun u => (s'.threadTable u).next) (-1) s'.head (ready ++ [t]) := by
  rw [readies.head]
  rcases List.eq_nil_or_concat ready with rfl | ⟨front,last,rfl⟩
  · have empty : s.tail = -1 := tail
    have alone : (s'.threadTable t).next = -1 := by simp [readies.next]
    exact ⟨by simp [empty],by omega,alone⟩
  · simp only [List.concat_eq_append] at *
    have tail : s.tail = last := by simpa using tail
    have high : 0 ≤ last := known last (by simp)
    have grown := chain.snoc unready (x := t) (by omega)
    rw [if_neg (by omega),List.append_assoc]
    refine grown.congr fun v _ => ?_
    rw [readies.next,tail]
    by_cases same : v = t
    · have apart : t ≠ last := by rintro rfl; simp at unready
      simp [same,apart]
    · by_cases here : v = last
      · simp [here,high,show last ≠ t from fun h => same (here.trans h)]
      · simp [same,here]

theorem Readies.outside (readies : Readies t s s') (tail : s.tail = ready.getLastD (-1)) (apart : v ≠ t)
    (outside : v ∉ ready) : (s'.threadTable v).next = (s.threadTable v).next := by
  have last : ¬(0 ≤ s.tail ∧ v = s.tail) := by
    rintro ⟨some_,rfl⟩
    apply outside
    rw [tail]
    refine getLastD_mem ?_
    rintro rfl
    rw [tail] at some_
    simp at some_
  rw [readies.next,if_neg apart,if_neg last]

theorem Queues.append (queues : Queues s hand ready queue) (rows : Rows s) (readies : Readies t s s')
    (proper : Proper t) (unready : t ∉ ready) (unqueued : ∀ h, t ∉ queue h)
    (hands : ∀ v, hand' = some v ↔ hand = some v ∧ v ≠ t) : Queues s' hand' (ready ++ [t]) queue := by
  constructor
  · exact readies.chain queues.chain queues.tail (fun v member => ((queues.ready v).mp member).1.1.le) unready proper.1.le
  · rw [readies.tail]
    simp
  · intro v
    rw [List.mem_append,List.mem_singleton,queues.ready]
    by_cases same : v = t
    · simp [same,proper,readies.here]
    · simp [same,readies.others v same]
  · intro h
    rw [readies.hashtable]
    refine (queues.chains h).congr fun v member => ?_
    exact readies.outside queues.tail (by rintro rfl; exact unqueued h member) fun inside => queues.apart rows h inside member
  · intro h v member
    have apart : v ≠ t := by rintro rfl; exact unqueued h member
    obtain ⟨first,second,third,fourth⟩ := queues.queued h v member
    rw [(readies.others v apart).2]
    exact ⟨first,second,third,fun held => fourth ((hands v).mp held).1⟩
  · intro v inside asleep unheld
    have apart : v ≠ t := by rintro rfl; exact asleep readies.here.2
    rw [(readies.others v apart).2] at asleep ⊢
    exact queues.waiting v inside asleep fun held => unheld ((hands v).mpr ⟨held,apart⟩)
  · intro v held
    obtain ⟨before,apart⟩ := (hands v).mp held
    rw [(readies.others v apart).2]
    exact queues.hand v before

/-- The first ready thread is taken and runs. -/
structure Selects (t : Int) (s s' : Threads) : Prop where
  here : (s'.threadTable t).state = .running
  others : ∀ u, u ≠ t → (s'.threadTable u).state = (s.threadTable u).state
  sleeps : ∀ u, (s'.threadTable u).sleepsOn = (s.threadTable u).sleepsOn
  next : ∀ u, (s'.threadTable u).next = (s.threadTable u).next
  head : s'.head = if t = 0 then s.head else (s.threadTable t).next
  tail : s'.tail = if t = 0 then s.tail else if s.tail = t then -1 else s.tail
  hashtable : s'.hashtable = s.hashtable
  rest : s'.currentThread = s.currentThread ∧ s'.waker = s.waker ∧ s'.fresh = s.fresh ∧ s'.cpus = s.cpus

theorem Queues.removeFirst (queues : Queues s hand ready queue) : ∃ t u,
    schedulerRemoveFirstReady s = some (t, u) ∧ t = ready.headD 0 ∧
    Selects t s (u.modify t fun e => { e with state := .running }) := by
  have first := queues.chain.first_eq
  unfold schedulerRemoveFirstReady
  cases ready with
  | nil =>
    have empty : s.head = -1 := first
    refine ⟨0,s,by simp [empty,idleThreadTid],rfl,?_⟩
    constructor <;> simp [Threads.modify]
    · intro u apart; simp [apart]
    · intro u; by_cases same : u = 0 <;> simp [same]
    · intro u; by_cases same : u = 0 <;> simp [same]
  | cons t rest =>
    have head : s.head = t := first
    obtain ⟨proper,state⟩ := (queues.ready t).mp List.mem_cons_self
    have low := proper.1
    have apart : t ≠ 0 := by omega
    dsimp only
    rw [head,if_neg (show t ≠ idleThreadTid from apart),if_pos low.le,if_pos state]
    refine ⟨t,_,rfl,rfl,?_⟩
    constructor <;> simp [Threads.modify,apart]
    · intro u apart; simp [apart]
    · intro u; by_cases same : u = t <;> simp [same]
    · intro u; by_cases same : u = t <;> simp [same]

theorem Queues.select (queues : Queues s hand ready queue) (selects : Selects t s s')
    (first : t = ready.headD 0) : Queues s' hand ready.tail queue := by
  constructor
  · rw [selects.head]
    simp only [selects.next]
    cases ready with
    | nil => rw [if_pos (show t = 0 from first)]; exact queues.chain
    | cons u rest =>
      obtain rfl : t = u := first
      have low := ((queues.ready t).mp List.mem_cons_self).1.1
      rw [if_neg (by omega)]
      exact queues.chain.2.2
  · rw [selects.tail]
    cases ready with
    | nil => rw [if_pos (show t = 0 from first)]; exact queues.tail
    | cons u rest =>
      obtain rfl : t = u := first
      have low := ((queues.ready t).mp List.mem_cons_self).1.1
      have nodup := queues.chain.nodup
      rw [if_neg (by omega),queues.tail]
      cases rest with
      | nil => simp
      | cons v more =>
        have same : (t :: v :: more).getLastD (-1) = (v :: more).getLastD (-1) := by simp
        have apart : (v :: more).getLastD (-1) ≠ t := fun last =>
          (List.nodup_cons.mp nodup).1 (last ▸ getLastD_mem (by simp))
        rw [same,if_neg apart]
        rfl
  · intro v
    cases ready with
    | nil =>
      have idle : t = 0 := first
      simp only [List.tail_nil,List.not_mem_nil,false_iff]
      rintro ⟨proper,state⟩
      have low := proper.1
      rw [selects.others v (by omega)] at state
      exact List.not_mem_nil ((queues.ready v).mpr ⟨proper,state⟩)
    | cons u rest =>
      obtain rfl : t = u := first
      have nodup := List.nodup_cons.mp queues.chain.nodup
      by_cases same : v = t
      · simp [same,selects.here,nodup.1]
      · rw [selects.others v same,← queues.ready]
        simp [same]
  · intro h
    rw [selects.hashtable]
    simpa only [selects.next] using queues.chains h
  · simpa only [selects.sleeps] using queues.queued
  · simpa only [selects.sleeps] using queues.waiting
  · simpa only [selects.sleeps] using queues.hand

/-! ### The sleep queue -/

theorem lastWaiter_eq (chain : Chain (fun t => (s.threadTable t).next) (-1) prev (prev :: rest))
    (positive : ∀ t ∈ rest, 0 < t) (enough : rest.length < fuel) :
    lastWaiter s fuel prev = some ((prev :: rest).getLastD (-1)) := by
  induction rest generalizing prev fuel with
  | nil =>
    obtain ⟨fuel,rfl⟩ := Nat.exists_eq_add_of_lt enough
    have ends : (s.threadTable prev).next = -1 := chain.2.2
    simp [lastWaiter,ends]
  | cons t rest ih =>
    obtain ⟨fuel,rfl⟩ : ∃ n, fuel = n + 1 := ⟨fuel - 1,by simp at enough; omega⟩
    have next : (s.threadTable prev).next = t := chain.2.2.1
    have low := positive t List.mem_cons_self
    have later := ih (next ▸ chain.2.2 : Chain _ _ t (t :: rest))
      (fun u member => positive u (List.mem_cons_of_mem t member)) (show rest.length < fuel by simp at enough; omega)
    simp only [lastWaiter,next,low,if_true,later]
    simp

/-- What `sleepq_add` does: the caller goes behind `last`, the end of the chain for its
resource, or starts a chain. -/
structure Blocks (c : Cpu) (resource : UInt32) (last : Int) (s s' : Threads) : Prop where
  state : ∀ u, (s'.threadTable u).state = (s.threadTable u).state
  sleeps : ∀ u, (s'.threadTable u).sleepsOn =
    if u = s.currentThread c then resource else (s.threadTable u).sleepsOn
  next : ∀ u, (s'.threadTable u).next = if u = s.currentThread c then -1 else
    if 0 < last ∧ u = last then s.currentThread c else (s.threadTable u).next
  hashtable : ∀ h, s'.hashtable h =
    if h = sleepqHash resource ∧ last < 0 then s.currentThread c else s.hashtable h
  cpus : s'.cpus = Function.update s.cpus c .switching
  rest : s'.head = s.head ∧ s'.tail = s.tail ∧ s'.currentThread = s.currentThread ∧
    s'.waker = s.waker ∧ s'.fresh = s.fresh

theorem interruptDisable_master (status : UInt32) : interruptDisable status &&& 0x1 = 0 := by
  have bits : (0xffff00fe &&& 0x1 : UInt32) = 0 := by decide
  unfold interruptDisable
  rw [UInt32.and_assoc,bits,UInt32.and_zero]

theorem Queues.positive (queues : Queues s hand ready queue) (member : t ∈ queue h) : 0 < t :=
  (queues.queued h t member).1.1

theorem sleepqAdd_blocks {waiters : List Int}
    (chain : Chain (fun u => (s.threadTable u).next) (-1) (s.hashtable (sleepqHash resource)) waiters)
    (inside : ∀ u ∈ waiters, Proper u) (proper : Proper (s.currentThread c))
    (fresh : s.currentThread c ∉ waiters) (status : UInt32) :
    ∃ s', sleepqAdd c (interruptDisable status) resource s = some s' ∧
      Blocks c resource (waiters.getLastD (-1)) s s' := by
  have low := proper.1
  have apart : s.currentThread c ≠ idleThreadTid := by simp only [idleThreadTid]; omega
  unfold sleepqAdd
  rw [if_pos (.inr (interruptDisable_master status))]
  dsimp only
  rw [if_neg apart]
  cases waiters with
  | nil =>
    have empty : s.hashtable (sleepqHash resource) = -1 := chain
    have none_ : (s.modify (s.currentThread c) fun e => { e with next := -1, sleepsOn := resource }).hashtable
        (sleepqHash resource) ≤ 0 := by
      change s.hashtable (sleepqHash resource) ≤ 0
      omega
    rw [if_pos none_]
    refine ⟨_,rfl,?_⟩
    constructor <;> simp [Threads.modify]
    · intro u; by_cases same : u = s.currentThread c <;> simp [same]
    · intro u; by_cases same : u = s.currentThread c <;> simp [same]
    · intro u; by_cases same : u = s.currentThread c <;> simp [same]
    · intro h; by_cases same : h = sleepqHash resource <;> simp [same]
  | cons t rest =>
    have head : s.hashtable (sleepqHash resource) = t := chain.1
    have start : 0 < t := (inside t List.mem_cons_self).1
    have some_ : ¬(s.modify (s.currentThread c) fun e => { e with next := -1, sleepsOn := resource }).hashtable
        (sleepqHash resource) ≤ 0 := by
      change ¬s.hashtable (sleepqHash resource) ≤ 0
      omega
    rw [if_neg some_]
    have other : ∀ u ∈ t :: rest, u ≠ s.currentThread c := by
      rintro u member rfl
      exact fresh member
    rw [head] at chain
    have walk : lastWaiter { s.modify (s.currentThread c)
        (fun e => { e with next := -1, sleepsOn := resource }) with
        cpus := Function.update s.cpus c .switching } walkLimit t = some ((t :: rest).getLastD (-1)) := by
      refine lastWaiter_eq (chain.congr fun u member => ?_) ?_ ?_
      · simp [other u member]
      · intro u member
        exact (inside u (List.mem_cons_of_mem t member)).1
      · have short := length_proper chain.nodup inside
        simp at short
        omega
    have last : (t :: rest).getLastD (-1) ∈ t :: rest := getLastD_mem (by simp)
    have high : 0 < (t :: rest).getLastD (-1) := (inside _ last).1
    have different := other _ last
    change ∃ s', Option.map _ (lastWaiter _ walkLimit (s.hashtable (sleepqHash resource))) = some s' ∧ _
    rw [head,walk]
    refine ⟨_,rfl,?_⟩
    generalize (t :: rest).getLastD (-1) = final at *
    constructor <;> simp [Threads.modify]
    · intro u; by_cases same : u = s.currentThread c <;> by_cases here : u = final <;> simp_all
    · intro u; by_cases same : u = s.currentThread c <;> by_cases here : u = final <;> simp_all
    · intro u; by_cases same : u = s.currentThread c <;> by_cases here : u = final <;> simp_all
    · intro none_; omega

theorem Queues.add (queues : Queues s hand ready queue) (proper : Proper (s.currentThread c))
    (unqueued : ∀ h, s.currentThread c ∉ queue h) (status resource : UInt32) :
    ∃ s', sleepqAdd c (interruptDisable status) resource s = some s' ∧
      Blocks c resource ((queue (sleepqHash resource)).getLastD (-1)) s s' := by
  apply sleepqAdd_blocks (queues.chains _) ?_ proper (unqueued _)
  intro u member
  exact (queues.queued _ u member).1

theorem Blocks.outside {waiters : List Int} (blocks : Blocks c resource (waiters.getLastD (-1)) s s')
    (apart : u ≠ s.currentThread c) (outside : u ∉ waiters) : (s'.threadTable u).next = (s.threadTable u).next := by
  rw [blocks.next,if_neg apart,if_neg]
  rintro ⟨some_,rfl⟩
  refine outside (getLastD_mem ?_)
  rintro rfl
  simp at some_

theorem Blocks.chain {waiters : List Int} (blocks : Blocks c resource (waiters.getLastD (-1)) s s')
    (chain : Chain (fun u => (s.threadTable u).next) (-1) (s.hashtable (sleepqHash resource)) waiters)
    (positive : ∀ u ∈ waiters, 0 < u) (fresh : s.currentThread c ∉ waiters) (low : 0 < s.currentThread c) :
    Chain (fun u => (s'.threadTable u).next) (-1) (s'.hashtable (sleepqHash resource))
      (waiters ++ [s.currentThread c]) := by
  rw [blocks.hashtable]
  rcases List.eq_nil_or_concat waiters with rfl | ⟨front,last,rfl⟩
  · have alone : (s'.threadTable (s.currentThread c)).next = -1 := by simp [blocks.next]
    exact ⟨by simp,by omega,alone⟩
  · simp only [List.concat_eq_append] at *
    have final : (front ++ [last]).getLastD (-1) = last := by simp
    have tail : 0 < last := positive last (by simp)
    have grown := chain.snoc fresh (by omega)
    rw [final,if_neg (by omega),List.append_assoc]
    refine grown.congr fun u _ => ?_
    rw [blocks.next,final]
    by_cases here : u = s.currentThread c
    · have apart : s.currentThread c ≠ last := by rintro same; simp [same] at fresh
      simp [here,apart]
    · by_cases there : u = last
      · simp [there,tail,show last ≠ s.currentThread c from fun h => here (there.trans h)]
      · simp [here,there]

theorem Queues.block (queues : Queues s hand ready queue) (rows : Rows s)
    (blocks : Blocks c resource ((queue (sleepqHash resource)).getLastD (-1)) s s')
    (proper : Proper (s.currentThread c)) (running : (s.threadTable (s.currentThread c)).state = .running)
    (awake : (s.threadTable (s.currentThread c)).sleepsOn = 0) (address : resource ≠ 0) :
    Queues s' hand ready (Function.update queue (sleepqHash resource)
      (queue (sleepqHash resource) ++ [s.currentThread c])) := by
  have low := proper.1
  have unqueued : ∀ h, s.currentThread c ∉ queue h := fun h member =>
    (queues.queued h _ member).2.1 awake
  have unready : s.currentThread c ∉ ready := by
    intro member
    have := ((queues.ready _).mp member).2
    rw [running] at this
    contradiction
  have free : hand ≠ some (s.currentThread c) := fun held => (queues.hand _ held).2 awake
  have others : ∀ u, u ≠ s.currentThread c → u ∉ queue (sleepqHash resource) →
      (s'.threadTable u).next = (s.threadTable u).next := fun u apart outside => blocks.outside apart outside
  constructor
  · rw [blocks.rest.1]
    refine queues.chain.congr fun u member => others u ?_ (queues.apart rows _ member)
    rintro rfl
    exact unready member
  · rw [blocks.rest.2.1,queues.tail]
  · simpa only [blocks.state] using queues.ready
  · intro h
    by_cases same : h = sleepqHash resource
    · subst same
      rw [Function.update_self]
      exact blocks.chain (queues.chains _) (fun u member => queues.positive member) (unqueued _) low
    · rw [Function.update_of_ne same,blocks.hashtable,if_neg (fun both => same both.1)]
      refine (queues.chains h).congr fun u member => others u ?_ ?_
      · rintro rfl; exact unqueued h member
      · intro other
        exact same ((queues.queued h u member).2.2.1.symm.trans (queues.queued _ u other).2.2.1)
  · intro h u member
    rw [blocks.sleeps]
    by_cases here : u = s.currentThread c
    · subst here
      rw [if_pos rfl]
      by_cases same : h = sleepqHash resource
      · exact ⟨proper,address,same.symm,free⟩
      · rw [Function.update_of_ne same] at member
        exact absurd member (unqueued h)
    · rw [if_neg here]
      apply queues.queued h u
      by_cases same : h = sleepqHash resource
      · subst same
        simpa [here] using member
      · rwa [Function.update_of_ne same] at member
  · intro u inside asleep unheld
    rw [blocks.sleeps] at asleep ⊢
    by_cases here : u = s.currentThread c
    · simp [here]
    · rw [if_neg here] at asleep ⊢
      have member := queues.waiting u inside asleep unheld
      by_cases same : sleepqHash (s.threadTable u).sleepsOn = sleepqHash resource
      · rw [same] at member ⊢
        simp [member]
      · rwa [Function.update_of_ne same]
  · intro u held
    have apart : u ≠ s.currentThread c := by rintro rfl; exact free held
    rw [blocks.sleeps,if_neg apart]
    exact queues.hand u held

theorem findWaiter_spec (chain : Chain (fun t => (s.threadTable t).next) (-1) first post)
    (positive : ∀ t ∈ post, 0 < t) (enough : post.length < fuel) (resource : UInt32) (pre : List Int) :
    ∃ skipped rest, post = skipped ++ rest ∧ (∀ t ∈ skipped, (s.threadTable t).sleepsOn ≠ resource) ∧
      (∀ t ∈ rest.head?, (s.threadTable t).sleepsOn = resource) ∧
      findWaiter resource s fuel (pre.getLastD (-1)) first =
        some ((pre ++ skipped).getLastD (-1), rest.headD (-1)) := by
  induction post generalizing first fuel pre with
  | nil =>
    obtain ⟨fuel,rfl⟩ := Nat.exists_eq_add_of_lt enough
    have ends : first = -1 := chain
    exact ⟨[],[],rfl,by simp,by simp,by simp [findWaiter,ends]⟩
  | cons t post ih =>
    obtain ⟨fuel,rfl⟩ : ∃ n, fuel = n + 1 := ⟨fuel - 1,by simp at enough; omega⟩
    obtain rfl : first = t := chain.1
    have low := positive first List.mem_cons_self
    by_cases found : (s.threadTable first).sleepsOn = resource
    · exact ⟨[],first :: post,rfl,by simp,by simpa using found,by simp [findWaiter,found]⟩
    · obtain ⟨skipped,rest,split,passed,match_,result⟩ := ih chain.2.2
        (fun u member => positive u (List.mem_cons_of_mem first member))
        (show post.length < fuel by simp at enough; omega) (pre ++ [first])
      refine ⟨first :: skipped,rest,by simp [split],?_,match_,?_⟩
      · intro u member
        rcases List.mem_cons.mp member with rfl | later
        · exact found
        · exact passed u later
      · simp only [findWaiter,low,found,ne_eq,not_false_eq_true,and_self,if_true]
        simpa using result

/-- A thread leaves its chain. -/
structure Unlinks (hash : UInt32) (prev t : Int) (s s' : Threads) : Prop where
  state : ∀ u, (s'.threadTable u).state = (s.threadTable u).state
  sleeps : ∀ u, (s'.threadTable u).sleepsOn = (s.threadTable u).sleepsOn
  next : ∀ u, (s'.threadTable u).next =
    if 0 < prev ∧ u = prev then (s.threadTable t).next else (s.threadTable u).next
  hashtable : ∀ h, s'.hashtable h =
    if h = hash ∧ prev ≤ 0 then (s.threadTable t).next else s.hashtable h
  rest : s'.head = s.head ∧ s'.tail = s.tail ∧ s'.currentThread = s.currentThread ∧
    s'.cpus = s.cpus ∧ s'.fresh = s.fresh

theorem unlinkWaiter_unlinks (hash : UInt32) (prev t : Int) (s : Threads) (w : Option Waker) :
    Unlinks hash prev t s { unlinkWaiter hash prev t s with waker := w } := by
  unfold unlinkWaiter
  by_cases front : prev ≤ 0
  · rw [if_pos front]
    have : ¬0 < prev := by omega
    constructor <;> simp [this,front]
    intro h
    by_cases same : h = hash <;> simp [same]
  · rw [if_neg front]
    have : 0 < prev := by omega
    constructor <;> simp [this,front,Threads.modify]
    all_goals intro u; by_cases same : u = prev <;> simp [same]

theorem Unlinks.outside {row : UInt32} {pre : List Int} (unlinks : Unlinks row (pre.getLastD (-1)) t s s')
    (outside : u ∉ pre) : (s'.threadTable u).next = (s.threadTable u).next := by
  rw [unlinks.next,if_neg]
  rintro ⟨some_,rfl⟩
  apply outside
  apply getLastD_mem
  rintro rfl
  simp at some_

theorem Unlinks.chain {row : UInt32} {pre post : List Int} (unlinks : Unlinks row (pre.getLastD (-1)) t s s')
    (chain : Chain (fun u => (s.threadTable u).next) (-1) (s.hashtable row) (pre ++ t :: post))
    (positive : ∀ u ∈ pre, 0 < u) : Chain (fun u => (s'.threadTable u).next) (-1) (s'.hashtable row) (pre ++ post) := by
  rw [unlinks.hashtable]
  rcases List.eq_nil_or_concat pre with rfl | ⟨front,p,rfl⟩
  · rw [if_pos (by simp)]
    refine chain.2.2.congr fun u _ => ?_
    rw [unlinks.next,if_neg (by simp)]
  · simp only [List.concat_eq_append,List.append_assoc,List.singleton_append] at *
    have low : 0 < p := positive p (by simp)
    have final : (front ++ [p]).getLastD (-1) = p := by simp
    rw [if_neg (by rw [final]; omega)]
    refine chain.remove.congr fun u _ => ?_
    rw [unlinks.next,final]
    by_cases here : u = p <;> simp [here,low]

theorem Queues.unlink {row : UInt32} (queues : Queues s none ready queue) (rows : Rows s)
    (split : queue row = pre ++ t :: post) (unlinks : Unlinks row (pre.getLastD (-1)) t s s') :
    Queues s' (some t) ready (Function.update queue row (pre ++ post)) := by
  have chain := queues.chains row
  rw [split] at chain
  have nodup := chain.nodup
  have inside : ∀ u, u ∈ pre ++ t :: post ↔ u ∈ queue row := fun u => by rw [split]
  have kept : ∀ u, u ∈ pre ++ post ↔ u ∈ queue row ∧ u ≠ t := by
    intro u
    rw [← inside]
    have apart : u ∈ pre ++ post → u ≠ t := by
      rintro member rfl
      exact (List.nodup_middle.mp nodup |> List.nodup_cons.mp).1 member
    simp only [List.mem_append,List.mem_cons]
    constructor
    · intro member
      exact ⟨member.imp_right .inr,apart (List.mem_append.mpr member)⟩
    · rintro ⟨member | same | member,other⟩
      · exact .inl member
      · exact absurd same other
      · exact .inr member
  have others : ∀ u, u ∉ queue row → (s'.threadTable u).next = (s.threadTable u).next :=
    fun u outside => unlinks.outside fun member => outside ((inside u).mp (List.mem_append_left _ member))
  constructor
  · rw [unlinks.rest.1]
    exact queues.chain.congr fun u member => others u (queues.apart rows _ member)
  · rw [unlinks.rest.2.1,queues.tail]
  · simpa only [unlinks.state] using queues.ready
  · intro h
    by_cases same : h = row
    · subst same
      rw [Function.update_self]
      exact unlinks.chain chain fun u member => queues.positive ((inside u).mp (List.mem_append_left _ member))
    · rw [Function.update_of_ne same,unlinks.hashtable,if_neg (fun both => same both.1)]
      refine (queues.chains h).congr fun u member => others u fun other => same ?_
      exact (queues.queued h u member).2.2.1.symm.trans (queues.queued _ u other).2.2.1
  · intro h u member
    rw [unlinks.sleeps]
    by_cases same : h = row
    · subst same
      rw [Function.update_self,kept] at member
      obtain ⟨first,second,third,-⟩ := queues.queued h u member.1
      exact ⟨first,second,third,by simpa using Ne.symm member.2⟩
    · rw [Function.update_of_ne same] at member
      obtain ⟨first,second,third,-⟩ := queues.queued h u member
      refine ⟨first,second,third,?_⟩
      rintro ⟨⟩
      exact same (third.symm.trans (queues.queued row t ((inside t).mp (by simp))).2.2.1)
  · intro u proper asleep unheld
    rw [unlinks.sleeps] at asleep ⊢
    have member := queues.waiting u proper asleep (by simp)
    by_cases same : sleepqHash (s.threadTable u).sleepsOn = row
    · rw [same] at member ⊢
      rw [Function.update_self,kept]
      exact ⟨member,by rintro rfl; exact unheld rfl⟩
    · rwa [Function.update_of_ne same]
  · rintro u ⟨⟩
    rw [unlinks.sleeps]
    obtain ⟨first,second,-,-⟩ := queues.queued row t ((inside t).mp (by simp))
    exact ⟨first,second⟩

/-- From a position in a chain, `sleepq_wake` finds no waiter for its resource, or it takes
the first one out of the chain. -/
theorem takeWaiter_spec {pre post : List Int}
    (chain : Chain (fun u => (s.threadTable u).next) (-1) (s.hashtable (sleepqHash resource)) (pre ++ post))
    (inside : ∀ u ∈ pre ++ post, Proper u) (c : Cpu) (all : Bool) :
    ((∀ u ∈ post, (s.threadTable u).sleepsOn ≠ resource) ∧
      takeWaiter c resource all (pre.getLastD (-1)) (post.headD (-1)) s = some { s with waker := none }) ∨
    ∃ skipped t rest s', post = skipped ++ t :: rest ∧ (∀ u ∈ skipped, (s.threadTable u).sleepsOn ≠ resource) ∧
      (s.threadTable t).sleepsOn = resource ∧
      takeWaiter c resource all (pre.getLastD (-1)) (post.headD (-1)) s = some s' ∧
      Unlinks (sleepqHash resource) ((pre ++ skipped).getLastD (-1)) t s s' ∧
      s'.waker = some ⟨c, resource, all, (pre ++ skipped).getLastD (-1), rest.headD (-1), t⟩ := by
  have short := length_proper chain.nodup inside
  rw [List.length_append] at short
  obtain ⟨skipped,rest,rfl,passed,found,result⟩ := findWaiter_spec chain.drop
    (fun t member => (inside t (List.mem_append_right pre member)).1)
    (show post.length < walkLimit by omega) resource pre
  unfold takeWaiter
  rw [result]
  cases rest with
  | nil => exact .inl ⟨by simpa using passed,rfl⟩
  | cons t rest =>
    right
    have low : 0 < t := (inside t (by simp)).1
    have first : (s.threadTable t).next = rest.headD (-1) := by
      rw [← List.append_assoc] at chain
      exact chain.drop.2.2.first_eq
    simp only [List.headD_cons,Option.map_some,low,if_true]
    exact ⟨skipped,t,rest,_,rfl,passed,found t (by simp),rfl,unlinkWaiter_unlinks _ _ t s _,by rw [first]⟩

structure Looks (s s' : Threads) : Prop where
  state : ∀ u, (s'.threadTable u).state = (s.threadTable u).state
  sleeps : ∀ u, (s'.threadTable u).sleepsOn = (s.threadTable u).sleepsOn
  rest : s'.currentThread = s.currentThread ∧ s'.cpus = s.cpus ∧ s'.fresh = s.fresh

theorem Queues.take (queues : Queues s none ready queue) (rows : Rows s)
    (split : queue (sleepqHash resource) = pre ++ post) (c : Cpu) (all : Bool) :
    ∃ s' queue', takeWaiter c resource all (pre.getLastD (-1)) (post.headD (-1)) s = some s' ∧
      Looks s s' ∧ Queues s' (s'.waker.map Waker.wake) ready queue' ∧
      (∀ w, s'.waker = some w → Position w queue' ∧ w.cpu = c ∧ w.resource = resource ∧ w.all = all ∧
        (s.threadTable w.wake).sleepsOn = resource) ∧
      (s'.waker = none → ∀ t ∈ post, (s.threadTable t).sleepsOn ≠ resource) := by
  have chain := queues.chains (sleepqHash resource)
  rw [split] at chain
  have inside : ∀ u ∈ pre ++ post, Proper u := fun u member => (queues.queued _ u (split ▸ member)).1
  rcases takeWaiter_spec chain inside c all with ⟨passed,result⟩ | ⟨skipped,t,rest,s',rfl,-,found,result,unlinks,held⟩
  · refine ⟨_,queue,result,⟨fun _ => rfl,fun _ => rfl,rfl,rfl,rfl⟩,?_,by simp,fun _ => passed⟩
    exact queues.keep (fun _ _ => rfl) (fun _ _ => Iff.rfl) (fun _ _ => rfl) rfl rfl rfl
  · rw [← List.append_assoc] at split
    have later := queues.unlink rows split unlinks
    refine ⟨s',_,result,⟨unlinks.state,unlinks.sleeps,unlinks.rest.2.2.1,unlinks.rest.2.2.2⟩,
      by rw [held]; exact later,?_,by simp [held]⟩
    intro w there
    obtain rfl := Option.some.inj (held.symm.trans there)
    exact ⟨⟨pre ++ skipped,rest,by simp,rfl,rfl⟩,rfl,rfl,rfl,found⟩

end Lists

end Buenos.Kernel
